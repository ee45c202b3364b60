import Netconf.Text.Cut

/-!
# Texts that are cut

A text is cut at the first occurrence of a character into what is in front of it and what is behind
it (`cut_append`), and at every occurrence into parts without it (`split_eq_iff`).
-/

namespace Netconf.Text

variable {sep : Char} {cs : List Char}

/-- Cutting at the first occurrence of a character. -/
theorem cut_append {before : List Char} (h : sep ∉ before) (after : List Char) :
    cut sep (before ++ sep :: after) = some (before, after) := by
  induction before with
  | nil => simp [cut]
  | cons c cs ih =>
    have hc : c ≠ sep := fun he => h (by simp [he])
    simp [cut, hc, ih fun hm => h (by simp [hm])]

/-- Where a character does not occur there is no cut. -/
theorem cut_eq_none (h : sep ∉ cs) : cut sep cs = none := by
  induction cs with
  | nil => rfl
  | cons c cs ih =>
    have hc : c ≠ sep := fun he => h (by simp [he])
    simp [cut, hc, ih fun hm => h (by simp [hm])]

/-- The parts of a text are those that the list of its characters is split into. -/
theorem split_eq_splitOn (sep : Char) (cs : List Char) : split sep cs = cs.splitOn sep := by
  induction cs with
  | nil => rfl
  | cons c cs ih =>
    rw [split, List.splitOn_cons_eq_if_modifyHead, ih]
    by_cases hc : c = sep
    · rw [if_pos hc, if_pos (beq_iff_eq.2 hc)]
    · rw [if_neg hc, if_neg (mt beq_iff_eq.1 hc)]
      cases hparts : cs.splitOn sep with
      | nil => exact absurd hparts (List.splitOn_ne_nil sep cs)
      | cons part parts => rfl

/-- No part has the separator. -/
theorem not_mem_of_mem_split {part : List Char} (h : part ∈ split sep cs) : sep ∉ part := by
  induction cs generalizing part with
  | nil =>
    obtain rfl := List.mem_singleton.1 h
    exact List.not_mem_nil
  | cons c cs ih =>
    rw [split] at h
    split at h
    · rcases List.mem_cons.1 h with rfl | h
      · exact List.not_mem_nil
      · exact ih h
    · next hc =>
      split at h
      · obtain rfl := List.mem_singleton.1 h
        simpa using Ne.symm hc
      · next first others hparts =>
        rcases List.mem_cons.1 h with rfl | h
        · exact List.not_mem_cons_of_ne_of_not_mem (Ne.symm hc) (ih (hparts ▸ List.mem_cons_self))
        · exact ih (hparts ▸ List.mem_cons_of_mem _ h)

/-- A text has these parts just when it is the parts with the separator between them, and none of
them has the separator. -/
theorem split_eq_iff {parts : List (List Char)} (hne : parts ≠ []) :
    split sep cs = parts ↔ cs = [sep].intercalate parts ∧ ∀ part ∈ parts, sep ∉ part := by
  constructor
  · rintro rfl
    exact ⟨by rw [split_eq_splitOn, List.intercalate_splitOn], fun _ => not_mem_of_mem_split⟩
  · rintro ⟨rfl, hparts⟩
    rw [split_eq_splitOn, List.splitOn_intercalate sep hparts hne]

/-- The same for strings. -/
theorem split_toList_eq_iff {s : String} {parts : List String} (hne : parts ≠ []) :
    split sep s.toList = parts.map String.toList ↔
      s = (String.singleton sep).intercalate parts ∧ ∀ part ∈ parts, sep ∉ part.toList := by
  rw [split_eq_iff (by simpa using hne), ← String.toList_inj, String.toList_intercalate,
    List.forall_mem_map, String.toList_singleton]

/-- In a text with a line end at its end, every line ends with its only line end. -/
theorem exists_of_mem_lines {line : List Char} (h : line ∈ lines (cs ++ ['\n'])) :
    ∃ body, line = body ++ ['\n'] ∧ '\n' ∉ body := by
  induction cs generalizing line with
  | nil =>
    obtain rfl := List.mem_singleton.1 h
    exact ⟨[], rfl, List.not_mem_nil⟩
  | cons c cs ih =>
    rw [List.cons_append, lines] at h
    split at h
    · next hc =>
      rcases List.mem_cons.1 h with rfl | h
      · exact ⟨[], by rw [hc, List.nil_append], List.not_mem_nil⟩
      · exact ih h
    · next hc =>
      split at h
      · next hnone =>
        have hflat := flatten_lines (cs ++ ['\n'])
        rw [hnone] at hflat
        simp at hflat
      · next first rest hlines =>
        rcases List.mem_cons.1 h with rfl | h
        · obtain ⟨body, rfl, hbody⟩ := ih (hlines ▸ List.mem_cons_self)
          exact ⟨c :: body, rfl, List.not_mem_cons_of_ne_of_not_mem (Ne.symm hc) hbody⟩
        · exact ih (hlines ▸ List.mem_cons_of_mem _ h)

end Netconf.Text
