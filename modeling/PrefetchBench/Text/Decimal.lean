import PrefetchBench.Text.Strings

/-!
# Numbers as text

Natural numbers in decimal, nonnegative rationals with a fixed number of decimals, rounded half to
even, and nonnegative `double`s.  What is printed with `prec` decimals reads back as the number
rounded to `prec` decimals (`readDecimal_fixedText`).
-/

namespace Text

/-! ## Natural numbers -/

/-- `std::to_string(n)` -/
def natText (n : Nat) : Str := Nat.toDigits 10 n

/-- The number that decimal digits stand for. -/
def readNat (s : Str) : Nat := Nat.ofDigitChars 10 s 0

@[simp] theorem readNat_natText (n : Nat) : readNat (natText n) = n :=
  Nat.ofDigitChars_ten_toDigits

theorem natText_ne_nil (n : Nat) : natText n ≠ [] := Nat.toDigits_ne_nil

theorem isDigit_of_mem_natText {n : Nat} {c : Char} (h : c ∈ natText n) : c.isDigit = true :=
  Nat.isDigit_of_mem_toDigits (by decide) (by decide) h

/-! ## Decimals -/

/-- The nearest natural number, the even one of two. -/
def roundEven (q : ℚ≥0) : Nat :=
  if q - ⌊q⌋₊ < 1 / 2 then ⌊q⌋₊
  else if 1 / 2 < q - ⌊q⌋₊ then ⌊q⌋₊ + 1
  else ⌊q⌋₊ + ⌊q⌋₊ % 2

/-- The number rounded to `prec` decimals. -/
def roundTo (prec : Nat) (q : ℚ≥0) : ℚ≥0 := roundEven (q * 10 ^ prec) / 10 ^ prec

/-- The last `prec` decimal digits of a number. -/
def lastDigits (prec n : Nat) : Str :=
  List.replicate (prec - (natText (n % 10 ^ prec)).length) '0' ++ natText (n % 10 ^ prec)

/-- `std::fixed << std::setprecision(prec) << q` -/
def fixedText (prec : Nat) (q : ℚ≥0) : Str :=
  natText (roundEven (q * 10 ^ prec) / 10 ^ prec) ++
    '.' :: lastDigits prec (roundEven (q * 10 ^ prec))

/-- The number that a decimal stands for. -/
def readDecimal (s : Str) : ℚ≥0 :=
  let whole := s.takeWhile Char.isDigit
  let decimals := s.drop (whole.length + 1)
  readNat whole + readNat decimals / 10 ^ decimals.length

section Decimals

variable {prec n : Nat}

theorem isDigit_of_mem_lastDigits {c : Char} (h : c ∈ lastDigits prec n) : c.isDigit = true := by
  rcases List.mem_append.mp h with h | h
  · rw [List.eq_of_mem_replicate h]
    rfl
  · exact isDigit_of_mem_natText h

theorem length_lastDigits (hprec : 0 < prec) : (lastDigits prec n).length = prec := by
  have hlt : n % 10 ^ prec < 10 ^ prec := Nat.mod_lt _ (by positivity)
  have hle : (natText (n % 10 ^ prec)).length ≤ prec :=
    (Nat.length_toDigits_le_iff (by decide) hprec).mpr hlt
  rw [lastDigits, List.length_append, List.length_replicate]
  omega

theorem readNat_lastDigits : readNat (lastDigits prec n) = n % 10 ^ prec := by
  rw [readNat, lastDigits, Nat.ofDigitChars_append, Nat.ofDigitChars_replicate_zero, Nat.mul_zero]
  exact readNat_natText _

theorem readDecimal_append {a b : Str} (ha : ∀ c ∈ a, c.isDigit = true) :
    readDecimal (a ++ '.' :: b) = readNat a + readNat b / 10 ^ b.length := by
  have hwhole : (a ++ '.' :: b).takeWhile Char.isDigit = a := by
    rw [List.takeWhile_append_of_pos ha, List.takeWhile_cons_of_neg (by decide), List.append_nil]
  have hdecimals : (a ++ '.' :: b).drop (a.length + 1) = b := by simp
  simp only [readDecimal, hwhole, hdecimals]

/-- A number that is printed with decimals reads back rounded to them. -/
theorem readDecimal_fixedText (hprec : 0 < prec) (q : ℚ≥0) :
    readDecimal (fixedText prec q) = roundTo prec q := by
  have hdigits : ∀ c ∈ natText (roundEven (q * 10 ^ prec) / 10 ^ prec), c.isDigit = true :=
    fun c hc => isDigit_of_mem_natText hc
  rw [fixedText, readDecimal_append hdigits, readNat_natText, readNat_lastDigits,
    length_lastDigits hprec, roundTo]
  generalize roundEven (q * 10 ^ prec) = n
  have hpow : ((10 : ℚ≥0) ^ prec) ≠ 0 := by positivity
  have hdiv : ((10 ^ prec * (n / 10 ^ prec) + n % 10 ^ prec : ℕ) : ℚ≥0) = n := by
    rw [Nat.div_add_mod]
  push_cast at hdiv
  rw [← hdiv]
  field_simp

/-- Digits and a point. -/
theorem solid_of_mem_fixedText {q : ℚ≥0} {c : Char} (h : c ∈ fixedText prec q) :
    c.isDigit = true ∨ c = '.' := by
  rcases List.mem_append.mp h with h | h
  · exact Or.inl (isDigit_of_mem_natText h)
  · rcases List.mem_cons.mp h with h | h
    · exact Or.inr h
    · exact Or.inl (isDigit_of_mem_lastDigits h)

theorem word_fixedText (q : ℚ≥0) : Word (fixedText prec q) where
  ne_nil := List.append_ne_nil_of_left_ne_nil (natText_ne_nil _) _
  solid c hc := by
    rcases solid_of_mem_fixedText hc with h | rfl
    · exact not_space_of_isDigit h
    · rfl

end Decimals

end Text

/-! ## Doubles -/

open Text

/-- A `double` that is not negative and a number or infinite. -/
inductive Double where
  /-- A number. -/
  | finite (q : ℚ≥0)
  /-- What is too large. -/
  | inf
deriving DecidableEq

namespace Double

/-- The nearest `double`, the even one of two. -/
def round (q : ℚ≥0) : Double :=
  if q = 0 then finite 0
  else
    let unit : ℚ≥0 := 2 ^ max (Int.log 2 q - 52) (-1074)
    let rounded := roundEven (q / unit) * unit
    if rounded < 2 ^ 1024 then finite rounded else inf

/-- `a * b`, unless that is zero times infinity. -/
def mul : Double → Double → Double
  | finite a, finite b => round (a * b)
  | _, _ => inf

/-- `a / b`, unless that is zero by zero or infinity by infinity. -/
def div : Double → Double → Double
  | finite a, finite b => if b = 0 then inf else round (a / b)
  | finite _, inf => finite 0
  | inf, _ => inf

/-- `a > 0` -/
def pos : Double → Bool
  | finite a => decide (0 < a)
  | inf => true

/-- `std::fixed << std::setprecision(prec) << x` -/
def text (prec : Nat) : Double → Str
  | finite q => fixedText prec q
  | inf => ['i','n','f']

/-- `float(s)` -/
def ofText (s : Str) : Double := round (readDecimal s)

theorem ofText_fixedText {prec : Nat} (hprec : 0 < prec) (q : ℚ≥0) :
    ofText (fixedText prec q) = round (roundTo prec q) := by
  rw [ofText, readDecimal_fixedText hprec]

theorem word_text (prec : Nat) (x : Double) : Word (x.text prec) := by
  cases x with
  | finite q => exact word_fixedText q
  | inf =>
      have hvisible : ∀ c ∈ ['i','n','f'], 32 < c.toNat ∧ c.toNat < 127 := by simp
      exact ⟨List.cons_ne_nil _ _, fun c hc => not_space (hvisible c hc)⟩

end Double
