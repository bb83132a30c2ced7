import PrefetchBench.BTree.Smallest

/-!
# The height of the B+ tree

In a sound tree no node but the root is less than half full, so every level has many times as many
nodes as the one above it (`forest_full`).  The height is then at most logarithmic in
the number of entries, whatever insertions have led to the tree (`Btree.insertRange_height`).
-/

namespace BTree

open Prog Ordered

variable {K D : Type} [LinearOrder K] {tr : Traits} {l : Nat}

/-- A node that is not the root. -/
structure Inside (tr : Traits) (l : Nat) (n : Node K D) : Prop where
  /-- It is as it should be. -/
  verified : VerifyNode tr l n
  /-- So are its arrays, and the nodes below it. -/
  shaped : Shaped tr l n
  /-- It is not less than half full. -/
  fill : n.isUnderflow tr = false

theorem Shaped.children {n : Node K D} (hv : VerifyNode tr (l + 1) n) (hs : Shaped tr (l + 1) n) :
    ∀ c ∈ n.children, Inside tr l c := by
  intro c hc
  cases n with
  | leaf leaf => cases hv
  | inner inner =>
      obtain ⟨hfill, hshaped⟩ := hs.2.2 c hc
      exact ⟨hv.children_verified hc, hshaped, hfill⟩

theorem VerifyNode.slotuse_children {n : Node K D} (h : VerifyNode tr (l + 1) n) :
    n.children.length = n.slotuse + 1 ∧ 0 < n.slotuse := by
  cases n with
  | leaf leaf => cases h
  | inner inner =>
      obtain ⟨_, hpos, _, hkeys, hsiblings⟩ := InnerNode.verified_iff.mp h
      have hlen := hsiblings.length_eq
      rw [List.length_take_of_le hkeys] at hlen
      exact ⟨hlen, hpos⟩

/-- Nodes inside the tree have many children. -/
theorem Inside.length_children {n : Node K D} (h : Inside tr (l + 1) n) :
    tr.mininnerslots + 1 ≤ n.children.length := by
  have hfill := h.fill
  rw [h.verified.slotuse_children.1]
  cases n with
  | leaf leaf => cases h.verified
  | inner inner =>
      rw [Node.isUnderflow, decide_eq_false_iff_not] at hfill
      exact Nat.succ_le_succ (Nat.le_of_not_lt hfill)

theorem Inside.length_entries {n : Node K D} (h : Inside tr 0 n) :
    tr.minleafslots ≤ (n.entries 0).length := by
  have hfill := h.fill
  cases n with
  | inner inner => cases h.verified
  | leaf leaf =>
      have hv : leaf.Verified tr := h.verified
      rw [LeafNode.length_entries hv 0]
      rw [Node.isUnderflow, decide_eq_false_iff_not] at hfill
      exact Nat.le_of_not_lt hfill

theorem flatMap_children {forest : List (Node K D)} (h : ∀ n ∈ forest, Inside tr (l + 1) n) :
    (∀ c ∈ forest.flatMap Node.children, Inside tr l c) ∧
      (tr.mininnerslots + 1) * forest.length ≤ (forest.flatMap Node.children).length := by
  induction forest with
  | nil => exact ⟨fun c hc => absurd hc List.not_mem_nil, Nat.zero_le _⟩
  | cons n forest ih =>
      obtain ⟨hinside, hlength⟩ := ih fun m hm => h m (List.mem_cons_of_mem n hm)
      have hn := h n List.mem_cons_self
      have hchildren := hn.length_children
      rw [List.flatMap_cons]
      constructor
      · intro c hc
        cases List.mem_append.mp hc with
        | inl hc => exact Shaped.children hn.verified hn.shaped c hc
        | inr hc => exact hinside c hc
      · rw [List.length_append, List.length_cons, Nat.mul_add, Nat.mul_one]
        omega

/-- Below a row of nodes inside the tree are many entries. -/
theorem forest_full {forest : List (Node K D)} (h : ∀ n ∈ forest, Inside tr l n) :
    tr.minleafslots * (tr.mininnerslots + 1) ^ l * forest.length ≤
      (entriesOf l forest).length := by
  induction l generalizing forest with
  | zero =>
      induction forest with
      | nil => exact Nat.zero_le _
      | cons n forest ih =>
          have hrest := ih fun m hm => h m (List.mem_cons_of_mem n hm)
          have hn := (h n List.mem_cons_self).length_entries
          rw [Nat.pow_zero, Nat.mul_one] at hrest ⊢
          rw [entriesOf_cons, List.length_append, List.length_cons, Nat.mul_add, Nat.mul_one]
          omega
  | succ l ih =>
      obtain ⟨hinside, hlength⟩ := flatMap_children h
      have hentries := (forest_children fun n hn => (h n hn).verified).2.2.1
      rw [hentries]
      calc tr.minleafslots * (tr.mininnerslots + 1) ^ (l + 1) * forest.length
          = tr.minleafslots * (tr.mininnerslots + 1) ^ l *
              ((tr.mininnerslots + 1) * forest.length) := by
            rw [Nat.pow_succ]
            simp only [Nat.mul_assoc]
        _ ≤ tr.minleafslots * (tr.mininnerslots + 1) ^ l *
              (forest.flatMap Node.children).length := Nat.mul_le_mul_left _ hlength
        _ ≤ (entriesOf l (forest.flatMap Node.children)).length := ih hinside

/-- A tree with a root on level `l + 1` has many entries. -/
theorem Btree.Sound.entries_ge {t : Btree K D} (h : t.Sound tr) {root : Node K D}
    (hroot : t.root = some root) (hlevel : root.level = l + 1) :
    tr.minleafslots * (tr.mininnerslots + 1) ^ l * 2 ≤ t.entries.length := by
  have hv := h.verified root hroot
  have hs := h.shaped root hroot
  rw [hlevel] at hv hs
  have hentries : t.entries = entriesOf l root.children := by
    rw [Tree.entries, hroot]
    dsimp only
    rw [hlevel, hv.entries_children]
  have htwo : 2 ≤ root.children.length := by
    obtain ⟨hlen, hpos⟩ := hv.slotuse_children
    omega
  rw [hentries]
  exact (Nat.mul_le_mul_left _ htwo).trans (forest_full (Shaped.children hv hs))

/-- The height is at most logarithmic. -/
theorem Btree.Sound.level_le {t : Btree K D} (h : t.Sound tr) (hleaf : 2 ≤ tr.leafslotmax)
    (hinner : 2 ≤ tr.innerslotmax) {root : Node K D} (hroot : t.root = some root) :
    root.level ≤
      Nat.log (tr.mininnerslots + 1) (t.entries.length / (tr.minleafslots * 2)) + 1 := by
  have hminleaf : 0 < tr.minleafslots := Nat.div_pos hleaf Nat.two_pos
  have hmininner : 0 < tr.mininnerslots := Nat.div_pos hinner Nat.two_pos
  cases hlevel : root.level with
  | zero => exact Nat.zero_le _
  | succ l =>
      have hge := h.entries_ge hroot hlevel
      apply Nat.succ_le_succ
      apply Nat.le_log_of_pow_le (by omega)
      rw [Nat.le_div_iff_mul_le (by omega)]
      calc (tr.mininnerslots + 1) ^ l * (tr.minleafslots * 2)
          = tr.minleafslots * (tr.mininnerslots + 1) ^ l * 2 := by
            rw [← Nat.mul_assoc, Nat.mul_comm ((tr.mininnerslots + 1) ^ l)]
        _ ≤ t.entries.length := hge

variable [Inhabited K] [Inhabited D] {p : Params} {t : Btree K D}

/-- After any run of insertions the height is at most logarithmic in the number of entries. -/
theorem Btree.insertRange_height (hleaf : 2 ≤ p.leafslotmax) (hinner : 2 ≤ p.innerslotmax)
    (h : t.Sound p.toTraits) (run : List (K × D)) :
    ∃ t', (t.insertRange p run).Returns t' ∧ ∀ root ∈ t'.root,
      root.level ≤ Nat.log (p.innerslotmax / 2 + 1)
        ((addAll p.allowDuplicates t.entries run).length / (p.leafslotmax / 2 * 2)) + 1 := by
  obtain ⟨t', ht', hsound, hentries⟩ := h.insertRange hleaf hinner run
  refine ⟨t', ht', fun root hroot => ?_⟩
  have hlevel := hsound.level_le hleaf hinner hroot
  rw [hentries] at hlevel
  exact hlevel

theorem Btree.insertRange_height_four :
    ∃ t : Btree Nat Nat,
      (Btree.new.insertRange smallParams [(3, 0), (1, 1), (2, 2), (3, 3)]).Returns t ∧
        ∀ root ∈ t.root, root.level ≤ Nat.log 2
          ((addAll true [] [(3, 0), (1, 1), (2, 2), (3, 3)]).length / 2) + 1 :=
  Btree.insertRange_height (p := smallParams) (by decide) (by decide) (Btree.new_sound _)
    [(3, 0), (1, 1), (2, 2), (3, 3)]

end BTree
