import Netconf.Path.Token.Reading

/-!
# Reading written words

Words at the front of a text that are read as one token: a simple name in front of what cannot go on
with it, a slash, a colon. Which tokens a text has is stated without the rounds of the reader
(`Lexed`).
-/

namespace Netconf.Path

variable {c : Char} {cs rest : List Char} {s : String} {token : Token} {ts : List Token}

/-! ## Names -/

/-- Is the text a name that stands in a path as it is: a letter, and characters of names? -/
def isSimple (s : String) : Bool :=
  match s.toList with
  | [] => false
  | c :: cs => isLetter c && cs.all isNameChar

/-- Letters are characters of names. -/
theorem isNameChar_of_isLetter (h : isLetter c = true) : isNameChar c = true := by
  have hc : c.isAlpha = true := h
  simp [isNameChar, Char.isAlphanum, hc]

/-- A simple name has a letter in front. -/
theorem exists_cons_of_isSimple (h : isSimple s = true) :
    ∃ c cs, s.toList = c :: cs ∧ isLetter c = true ∧ ∀ d ∈ c :: cs, isNameChar d = true := by
  unfold isSimple at h
  split at h
  · cases h
  next c cs hs =>
  obtain ⟨hc, hcs⟩ := Bool.and_eq_true_iff.1 h
  exact ⟨c, cs, hs, hc, List.forall_mem_cons.2 ⟨isNameChar_of_isLetter hc, List.all_eq_true.1 hcs⟩⟩

/-- A name does not go on with what stands here: nothing, or a character that is in no name. -/
def Ends (rest : List Char) : Prop := ∀ c ∈ rest.head?, isNameChar c = false ∧ c ≠ '\\'

/-- No name goes on with a character that is in no name. -/
theorem Ends.cons (hc : isNameChar c = false ∧ c ≠ '\\') : Ends (c :: rest) := by
  rintro _ ⟨⟩
  exact hc

/-- A character that is no backslash is read by itself. -/
theorem readName_cons (hc : c ≠ '\\') (cs : List Char) : readName (c :: cs) =
    if isNameChar c then (c :: (readName cs).1, (readName cs).2) else ([], c :: cs) := by
  cases cs <;> simp [readName, hc]

/-- Characters of names are read up to where the name ends. -/
theorem readName_append (hcs : ∀ c ∈ cs, isNameChar c = true) (hrest : Ends rest) :
    readName (cs ++ rest) = (cs, rest) := by
  induction cs with
  | nil =>
    cases rest with
    | nil => rfl
    | cons c rest =>
      obtain ⟨hc, hslash⟩ := hrest c rfl
      rw [List.nil_append, readName_cons hslash, hc]
      rfl
  | cons c cs ih =>
    obtain ⟨hc, hcs⟩ := List.forall_mem_cons.1 hcs
    have hslash : c ≠ '\\' := by
      rintro rfl
      cases hc
    rw [List.cons_append, readName_cons hslash, if_pos hc, ih hcs]

/-! ## Tokens -/

/-- No letter is a gap. -/
theorem isGap_of_isLetter (hc : isLetter c = true) : isGap c = false := by
  rw [Bool.eq_false_iff]
  intro hgap
  simp only [isGap, Bool.or_eq_true, beq_iff_eq] at hgap
  rcases hgap with ((rfl | rfl) | rfl) | rfl <;> cases hc

/-- A simple name in front of what does not go on with it is read as an atom. -/
theorem readToken_name (hs : isSimple s = true) (hrest : Ends rest) :
    ∃ c cs, s.toList ++ rest = c :: (cs ++ rest) ∧ isGap c = false ∧
      readToken c (cs ++ rest) = .ok (.atom s, rest) := by
  obtain ⟨c, cs, heq, hc, hcs⟩ := exists_cons_of_isSimple hs
  have hread : readToken c (cs ++ rest) = .ok (.atom s, rest) := by
    rw [readToken, if_pos (by rw [hc]; rfl), ← List.cons_append, readName_append hcs hrest, ← heq,
      String.ofList_toList]
  exact ⟨c, cs, by rw [heq]; rfl, isGap_of_isLetter hc, hread⟩

/-- A slash without another one behind it is read as one. -/
theorem readToken_slash (hrest : rest.head? ≠ some '/') :
    readToken '/' rest = .ok (.slash, rest) := by
  cases rest with
  | nil => rfl
  | cons c rest =>
    have hc : c ≠ '/' := fun he => hrest (by rw [he]; rfl)
    show readSign ('/' :: c :: rest) = _
    simp [readSign, hc]

/-- A colon without another one behind it is read as one. -/
theorem readToken_colon (hrest : rest.head? ≠ some ':') :
    readToken ':' rest = .ok (.colon, rest) := by
  cases rest with
  | nil => rfl
  | cons c rest =>
    have hc : c ≠ ':' := fun he => hrest (by rw [he]; rfl)
    show readSign (':' :: c :: rest) = _
    simp [readSign, hc]

/-! ## Texts -/

/-- The text has these tokens, as soon as there are rounds for all of its characters. -/
def Lexed (cs : List Char) (ts : List Token) : Prop :=
  ∀ rounds, cs.length ≤ rounds → tokensFor rounds cs = .ok ts

/-- The tokens of a whole text. -/
theorem Lexed.tokensOf (h : Lexed s.toList ts) : tokensOf s = .ok ts := h _ (Nat.le_refl _)

end Netconf.Path
