import Netconf.Xml.Reading

/-!
# Rounds

The scanner and the reader of attributes are given a number of rounds. Every item and every
attribute ends inside the text that it was read from, so a round leaves less text than it found, and
as many rounds as there are characters, and one for the end, are enough: more of them give the same
items (`scanFor_of_length_lt`) and the same attributes (`readAttributesFor_of_length_lt`).
-/

namespace Netconf.Xml

/-! ## Ends of markup -/

/-- What is left behind a cut is shorter. -/
theorem cutAt_length {closes : List Char → Bool} {before cs body rest : List Char}
    (h : cutAt closes before cs = some (body, rest)) : rest.length < cs.length := by
  induction cs generalizing before with
  | nil => cases h
  | cons c cs ih =>
    unfold cutAt at h
    split at h
    · obtain ⟨-, rfl⟩ := Prod.mk.inj (Option.some.inj h)
      exact Nat.lt_succ_self _
    · exact Nat.lt_succ_of_lt (ih h)

/-- What is left behind a tag is shorter. -/
theorem cutTag_length {quote : Option Char} {before cs body rest : List Char}
    (h : cutTag quote before cs = some (body, rest)) : rest.length < cs.length := by
  induction cs generalizing quote before with
  | nil => cases h
  | cons c cs ih =>
    unfold cutTag at h
    split at h
    · exact Nat.lt_succ_of_lt (ih h)
    · split at h
      · obtain ⟨-, rfl⟩ := Prod.mk.inj (Option.some.inj h)
        exact Nat.lt_succ_self _
      · exact Nat.lt_succ_of_lt (ih h)

/-- What is left behind a document type is shorter. -/
theorem cutBalanced_length {depth : Nat} {before cs body rest : List Char}
    (h : cutBalanced depth before cs = some (body, rest)) : rest.length < cs.length := by
  induction cs generalizing depth before with
  | nil => cases h
  | cons c cs ih =>
    unfold cutBalanced at h
    split at h
    · exact Nat.lt_succ_of_lt (ih h)
    · split at h
      · split at h
        · obtain ⟨-, rfl⟩ := Prod.mk.inj (Option.some.inj h)
          exact Nat.lt_succ_self _
        · exact Nat.lt_succ_of_lt (ih h)
      · exact Nat.lt_succ_of_lt (ih h)

/-! ## Items -/

section Items

variable {cs rest : List Char} {item : Option Markup}

/-- What is left behind a section of literal text is shorter. -/
theorem readLiteral_length (h : readLiteral cs = some (item, rest)) : rest.length < cs.length := by
  unfold readLiteral at h
  split at h
  · cases h
  · next hcut =>
    split at h
    · cases h
    · obtain ⟨-, rfl⟩ := Prod.mk.inj (Option.some.inj h)
      exact cutAt_length hcut

/-- What is left behind a comment is shorter. -/
theorem readComment_length (h : readComment cs = some (item, rest)) : rest.length < cs.length := by
  unfold readComment at h
  dsimp only at h
  split at h
  · cases h
  · next hcut =>
    split at h
    · obtain ⟨-, rfl⟩ := Prod.mk.inj (Option.some.inj h)
      exact cutAt_length hcut
    · cases h

/-- What is left behind a document type is shorter. -/
theorem readDoctype_length (h : readDoctype cs = some (item, rest)) : rest.length < cs.length := by
  unfold readDoctype at h
  split at h
  · cases h
  · next hcut =>
    split at h
    · split at h
      · cases h
      · obtain ⟨-, rfl⟩ := Prod.mk.inj (Option.some.inj h)
        exact cutBalanced_length hcut
    · cases h

/-- What is left behind an instruction is shorter. -/
theorem readInstruction_length (h : readInstruction cs = some (item, rest)) :
    rest.length < cs.length := by
  unfold readInstruction at h
  split at h
  · cases h
  · next hcut =>
    split at h
    · cases h
    · obtain ⟨-, rfl⟩ := Prod.mk.inj (Option.some.inj h)
      exact cutAt_length hcut

/-- What is left behind a tag is shorter. -/
theorem readTag_length (h : readTag cs = some (item, rest)) : rest.length < cs.length := by
  unfold readTag at h
  split at h
  · cases h
  · next hcut =>
    obtain ⟨-, rfl⟩ := Prod.mk.inj (Option.some.inj h)
    exact cutTag_length hcut
  · next hcut =>
    obtain ⟨-, rfl⟩ := Prod.mk.inj (Option.some.inj h)
    exact cutTag_length hcut

/-- What is left behind an item is shorter. -/
theorem readItem_length (h : readItem cs = some (item, rest)) : rest.length < cs.length := by
  unfold readItem at h
  split at h
  · cases h
  · exact Nat.lt_succ_of_lt (readLiteral_length h)
  · exact Nat.lt_succ_of_lt (readComment_length h)
  · exact Nat.lt_succ_of_lt (readDoctype_length h)
  · exact Nat.lt_succ_of_lt (readDoctype_length h)
  · cases h
  · exact readInstruction_length h
  · exact readTag_length h

end Items

/-! ## Rounds -/

/-- More rounds than there are characters are enough. -/
theorem scanFor_of_length_lt {cs : List Char} {n m : Nat} (hn : cs.length < n)
    (hm : cs.length < m) : scanFor n cs = scanFor m cs := by
  induction n generalizing cs m with
  | zero => exact absurd hn (Nat.not_lt_zero _)
  | succ n ih =>
    obtain ⟨m, rfl⟩ := Nat.exists_eq_succ_of_ne_zero (Nat.ne_of_gt (Nat.zero_lt_of_lt hm))
    unfold scanFor
    dsimp only
    cases hdrop : cs.dropWhile fun c => c != '<' with
    | nil => rfl
    | cons c after =>
      dsimp only
      cases hread : readItem after with
      | none => rfl
      | some found =>
        obtain ⟨item, rest⟩ := found
        have hafter : (c :: after).length ≤ cs.length := by
          rw [← hdrop]
          exact (List.dropWhile_suffix _).length_le
        have hrest := readItem_length hread
        rw [List.length_cons] at hafter
        dsimp only
        rw [ih (show rest.length < n by omega) (show rest.length < m by omega)]

/-! ## Attributes -/

/-- What is left behind a quoted value is shorter. -/
theorem readQuotedValue_length {cs raw rest : List Char}
    (h : readQuotedValue cs = some (raw, rest)) : rest.length < cs.length := by
  unfold readQuotedValue at h
  split at h
  · next q more hstart =>
    have hmore : (q :: more).length ≤ cs.length := by
      rw [← hstart]
      exact (List.dropWhile_suffix _).length_le
    split at h
    · split at h
      · next c rest' hend =>
        obtain ⟨-, rfl⟩ := Prod.mk.inj (Option.some.inj h)
        have hrest : (c :: rest').length ≤ more.length := by
          rw [← hend]
          exact (List.dropWhile_suffix _).length_le
        rw [List.length_cons] at hmore hrest
        omega
      · cases h
    · cases h
  · cases h

/-- More rounds than there are characters are enough. -/
theorem readAttributesFor_of_length_lt {cs : List Char} (keys : List (List Char)) {n m : Nat}
    (hn : cs.length < n) (hm : cs.length < m) :
    readAttributesFor n keys cs = readAttributesFor m keys cs := by
  induction n generalizing cs keys m with
  | zero => exact absurd hn (Nat.not_lt_zero _)
  | succ n ih =>
    obtain ⟨m, rfl⟩ := Nat.exists_eq_succ_of_ne_zero (Nat.ne_of_gt (Nat.zero_lt_of_lt hm))
    unfold readAttributesFor
    cases hstart : cs.dropWhile isSpace with
    | nil => rfl
    | cons c more =>
      have hmore : (c :: more).length ≤ cs.length := by
        rw [← hstart]
        exact (List.dropWhile_suffix _).length_le
      dsimp only
      split
      · next afterEq heq =>
        have hafter : ('=' :: afterEq).length ≤ more.length := by
          rw [← heq]
          exact ((List.dropWhile_suffix _).trans (List.dropWhile_suffix _)).length_le
        split
        · rfl
        · split
          · rfl
          · next raw rest hvalue =>
            have hrest := readQuotedValue_length hvalue
            rw [List.length_cons] at hmore hafter
            split
            · rfl
            · rw [ih _ (show rest.length < n by omega) (show rest.length < m by omega)]
      · rfl

end Netconf.Xml
