/-!
# Ranges of characters

A class of characters is a list of closed ranges of their numbers, in ascending order. `inRanges`
stops at the first range that lies beyond the number; `inRanges_iff` says that in an ascending list
nothing is missed by that.
-/

namespace Netconf.Text

/-- Does a number lie in one of the ranges of an ascending list? -/
def inRanges : List (Nat × Nat) → Nat → Bool
  | [], _ => false
  | r :: rs, n => decide (r.1 ≤ n) && (decide (n ≤ r.2) || inRanges rs n)

/-- Do the ranges follow each other in ascending order? -/
def ascending : List (Nat × Nat) → Bool
  | [] => true
  | [r] => decide (r.1 ≤ r.2)
  | r :: s :: rs => decide (r.1 ≤ r.2) && decide (r.2 < s.1) && ascending (s :: rs)

/-- Behind the first range of an ascending list, every range starts later. -/
theorem lt_of_mem_ascending {r : Nat × Nat} {rs : List (Nat × Nat)}
    (h : ascending (r :: rs) = true) {s : Nat × Nat} (hs : s ∈ rs) : r.1 < s.1 := by
  induction rs generalizing r with
  | nil => simp at hs
  | cons t rs ih =>
    simp only [ascending, Bool.and_eq_true, decide_eq_true_eq] at h
    rcases List.mem_cons.1 hs with rfl | hs
    · omega
    · have := ih h.2 hs
      omega

/-- The tail of an ascending list is ascending. -/
theorem ascending_tail {r : Nat × Nat} {rs : List (Nat × Nat)}
    (h : ascending (r :: rs) = true) : ascending rs = true := by
  cases rs with
  | nil => rfl
  | cons t rs =>
    simp only [ascending, Bool.and_eq_true] at h
    exact h.2

/-- A number lies in an ascending list exactly when one of its ranges holds it. -/
theorem inRanges_iff {rs : List (Nat × Nat)} (h : ascending rs = true) (n : Nat) :
    inRanges rs n = true ↔ ∃ r ∈ rs, r.1 ≤ n ∧ n ≤ r.2 := by
  induction rs with
  | nil => simp [inRanges]
  | cons r rs ih =>
    simp only [inRanges, Bool.and_eq_true, Bool.or_eq_true, decide_eq_true_eq,
      ih (ascending_tail h), List.mem_cons, exists_eq_or_imp]
    constructor
    · rintro ⟨hr, hn | hn⟩
      · exact Or.inl ⟨hr, hn⟩
      · exact Or.inr hn
    · rintro (⟨hr, hn⟩ | ⟨s, hs, h1, h2⟩)
      · exact ⟨hr, Or.inl hn⟩
      · have := lt_of_mem_ascending h hs
        exact ⟨by omega, Or.inr ⟨s, hs, h1, h2⟩⟩

end Netconf.Text
