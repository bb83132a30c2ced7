import PrefetchBench.Prog.Basic

/-!
# Heaps

Objects behind pointers.  A pointer is an index; the null pointer is 0.  Memory that is allocated
has no content until something is copied there, and memory that is given back is never used again:
an access to it is undefined, like one through the null pointer.
-/

open Prog

/-- What a pointer points to. -/
inductive Cell (α : Type) where
  /-- Nothing: the null pointer, or memory that was given back. -/
  | free
  /-- Allocated memory without a content. -/
  | raw
  /-- An object. -/
  | object (a : α)

/-- The object in a cell. -/
def Cell.content {α : Type} : Cell α → Option α
  | .object a => some a
  | _ => none

/-- The cell is in use. -/
def Cell.allocated {α : Type} : Cell α → Bool
  | .free => false
  | _ => true

/-- The memory for objects of one type. -/
abbrev Heap (α : Type) := List (Cell α)

namespace Heap

variable {α : Type}

/-- The memory before the first allocation. -/
def initial : Heap α := [.free]

/-- Memory for one more object: the pointer and the heap. -/
def alloc (h : Heap α) : Nat × Heap α := (h.length, h ++ [.raw])

/-- The object behind a pointer. -/
def content (h : Heap α) (p : Nat) : Option α := (h[p]?).bind Cell.content

/-- A pointer to memory that is allocated. -/
def allocated (h : Heap α) (p : Nat) : Bool := (h[p]?).any Cell.allocated

/-- `*p` -/
def get (h : Heap α) (p : Nat) : Prog α := ofOption (h.content p)

/-- `*p = a` -/
def put (h : Heap α) (p : Nat) (a : α) : Prog (Heap α) := do
  assert (h.allocated p)
  pure (h.set p (.object a))

/-- `delete p` -/
def release (h : Heap α) (p : Nat) : Prog (Heap α) := do
  assert (h.allocated p)
  pure (h.set p .free)

variable {h h' : Heap α} {p i : Nat} {a : α}

theorem returns_get : (h.get p).Returns a ↔ h.content p = some a := returns_ofOption

theorem returns_put : (h.put p a).Returns h' ↔ h.allocated p = true ∧ h' = h.set p (.object a) := by
  rw [put, returns_assert_bind, returns_pure]
  exact and_congr_right fun _ => eq_comm

theorem returns_release : (h.release p).Returns h' ↔ h.allocated p = true ∧ h' = h.set p .free := by
  rw [release, returns_assert_bind, returns_pure]
  exact and_congr_right fun _ => eq_comm

theorem allocated_lt (hp : h.allocated p = true) : p < h.length := by
  obtain ⟨c, hc, _⟩ := (Option.any_eq_true _ _).mp hp
  exact (List.getElem?_eq_some_iff.mp hc).1

theorem allocated_of_content (hp : h.content p = some a) : h.allocated p = true := by
  obtain ⟨c, hc, ha⟩ := Option.bind_eq_some_iff.mp hp
  rw [allocated, hc]
  cases c with
  | object b => rfl
  | free => cases ha
  | raw => cases ha

theorem content_lt (hp : h.content p = some a) : p < h.length :=
  allocated_lt (allocated_of_content hp)

/-! ## Updates -/

theorem content_set_self {c : Cell α} (hp : p < h.length) :
    content (h.set p c) p = c.content := by
  rw [content, List.getElem?_set_self hp, Option.bind_some]

theorem content_set_ne {c : Cell α} (hi : p ≠ i) : content (h.set p c) i = h.content i := by
  rw [content, content, List.getElem?_set_ne hi]

/-- Allocation changes no content. -/
theorem content_alloc : content (h ++ [.raw]) i = h.content i := by
  rw [content, content, List.getElem?_append]
  split
  · rfl
  · rename_i hi
    rw [List.getElem?_eq_none (not_lt.mp hi), List.getElem?_singleton]
    split <;> rfl

theorem allocated_alloc : allocated (h ++ [.raw]) h.length = true := by
  rw [allocated, List.getElem?_concat_length]
  rfl

end Heap
