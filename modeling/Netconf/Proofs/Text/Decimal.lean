import Netconf.Text.Blank
import Netconf.Text.Integer

/-!
# Decimal numbers

Numbers are written in decimal in envelopes, in bodies, in made-up labels and in the leaves that a
created path assigns. Different numbers are written differently, with digits only, and a number that
fits into 64 bits is read back.
-/

namespace Netconf.Text

/-- The characters of a decimal number are its digits. -/
theorem toList_decimal (n : Nat) : (toString n).toList = Nat.toDigits 10 n := by
  rw [Nat.toString_eq_repr, Nat.toList_repr]

/-- A decimal number tells the number. -/
theorem decimal_injective {m n : Nat} (h : toString m = toString n) : m = n :=
  calc
    m = Nat.ofDigitChars 10 (toString m).toList 0 := by
      rw [toList_decimal, Nat.ofDigitChars_ten_toDigits]
    _ = Nat.ofDigitChars 10 (toString n).toList 0 := by rw [h]
    _ = n := by rw [toList_decimal, Nat.ofDigitChars_ten_toDigits]

/-- A decimal number consists of digits. -/
theorem isDigit_of_mem_decimal {n : Nat} {c : Char} (h : c ∈ (toString n).toList) :
    c.isDigit = true := by
  rw [toList_decimal] at h
  exact Nat.isDigit_of_mem_toDigits (b := 10) (by decide) (by decide) h

/-! ## Reading decimal numbers -/

/-- A digit has a value. -/
theorem digitValue?_of_isDigit {c : Char} (h : c.isDigit = true) :
    digitValue? c = some (c.toNat - '0'.toNat) := by
  rw [Char.isDigit, Bool.and_eq_true, decide_eq_true_eq, decide_eq_true_eq] at h
  exact if_pos h

/-- Digits are read as the number that they write. -/
theorem digitsFrom_eq {cs : List Char} (hcs : ∀ c ∈ cs, c.isDigit = true) (acc : Nat) :
    digitsFrom acc cs = some (Nat.ofDigitChars 10 cs acc) := by
  induction cs generalizing acc with
  | nil => rfl
  | cons c cs ih =>
    obtain ⟨hc, hcs⟩ := List.forall_mem_cons.1 hcs
    rw [digitsFrom, digitValue?_of_isDigit hc, Option.bind_some, ih hcs, Nat.ofDigitChars_cons]

/-- A decimal number is not empty, and no sign stands in front of it. -/
theorem exists_decimal_cons (n : Nat) : ∃ c cs, (toString n).toList = c :: cs ∧
    c.isDigit = true := by
  cases hn : (toString n).toList with
  | nil =>
    rw [toList_decimal] at hn
    exact absurd hn Nat.toDigits_ne_nil
  | cons c cs => exact ⟨c, cs, rfl, isDigit_of_mem_decimal (hn ▸ List.mem_cons_self)⟩

/-- A decimal number is read back. -/
theorem natural?_decimal (n : Nat) : natural? (toString n).toList = some n := by
  obtain ⟨c, cs, hcs, -⟩ := exists_decimal_cons n
  rw [natural?, hcs, List.isEmpty_cons, if_neg Bool.false_ne_true, ← hcs,
    digitsFrom_eq fun c => isDigit_of_mem_decimal, toList_decimal, Nat.ofDigitChars_ten_toDigits]

/-- A decimal number that fits into 64 bits is read back as an integer. -/
theorem int64?_decimal {n : Nat} (hn : (n : Int) ≤ int64Max) :
    int64? (toString n).toList = some (n : Int) := by
  have hfits : fitsInt64 n = true := by
    unfold fitsInt64 int64Min
    simp only [Bool.and_eq_true, decide_eq_true_eq]
    omega
  obtain ⟨c, cs, hcs, hc⟩ := exists_decimal_cons n
  have hnatural := natural?_decimal n
  rw [hcs] at hnatural ⊢
  unfold int64?
  split
  · next h => cases h; cases hc
  · next h => cases h; cases hc
  · simp [hnatural, hfits]

/-- A digit is no blank. -/
theorem isBlank_of_isDigit {c : Char} (h : c.isDigit = true) : isBlank c = false := by
  rw [Char.isDigit, Bool.and_eq_true, decide_eq_true_eq, decide_eq_true_eq] at h
  have hlow : 48 ≤ c.toNat := h.1
  have hhigh : c.toNat ≤ 57 := h.2
  simp only [isBlank, blankRanges, inRanges, Bool.and_eq_false_imp, Bool.or_eq_false_iff,
    decide_eq_true_eq, decide_eq_false_iff_not]
  omega

/-- A decimal number has no blanks at its ends. -/
theorem strip_decimal (n : Nat) : strip (toString n).toList = (toString n).toList :=
  strip_eq_self fun _ hc => isBlank_of_isDigit (isDigit_of_mem_decimal hc)

end Netconf.Text
