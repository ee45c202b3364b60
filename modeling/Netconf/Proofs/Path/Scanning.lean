import Netconf.Proofs.Path.Lexing

/-!
# Scanning a text

Every round of the reader of tokens takes at least one character (`length_le_of_readToken`), so as
many rounds as there are characters reach the end of the text, and more rounds change nothing
(`tokensFor_of_le`). This leaves equations without rounds for the tokens of a text: what begins at
its front is read, and then the tokens of the rest.
-/

namespace Netconf.Path

variable {c : Char} {cs rest : List Char} {s : String} {token : Token} {ts : List Token}

/-! ## What a token takes -/

/-- What follows a name is no longer than the text. -/
theorem length_le_of_readName (cs : List Char) : (readName cs).2.length ≤ cs.length := by
  fun_induction readName cs with
  | case1 | case2 | case5 => simp
  | case3 c cs ih => exact Nat.le_trans ih (by simp; omega)
  | case4 c cs _ _ _ ih => exact Nat.le_trans ih (by simp)

/-- A name takes the letter or the backslash in front of it. -/
theorem length_le_of_readName_cons (hc : (isLetter c || c == '\\') = true) (cs : List Char) :
    (readName (c :: cs)).2.length ≤ cs.length := by
  by_cases hslash : c = '\\'
  · subst hslash
    cases cs with
    | nil => exact Nat.le_refl _
    | cons d cs => exact Nat.le_trans (length_le_of_readName cs) (by simp)
  · have hletter : isLetter c = true := by simpa [hslash] using hc
    rw [readName_cons hslash, if_pos (isNameChar_of_isLetter hletter)]
    exact length_le_of_readName cs

/-- What is left behind characters of a kind is no longer than the text. -/
theorem length_dropWhile_le (p : Char → Bool) (cs : List Char) :
    (cs.dropWhile p).length ≤ cs.length := (List.dropWhile_sublist p).length_le

/-- Characters of a kind, in front of what does not go on with them. -/
theorem takeWhile_append_of_stops {p : Char → Bool} (hcs : ∀ c ∈ cs, p c = true)
    (hrest : ∀ c ∈ rest.head?, p c = false) :
    (cs ++ rest).takeWhile p = cs ∧ (cs ++ rest).dropWhile p = rest := by
  rw [List.takeWhile_append_of_pos hcs, List.dropWhile_append_of_pos hcs]
  cases rest with
  | nil => exact ⟨List.append_nil cs, rfl⟩
  | cons c rest =>
    have hc : ¬ p c = true := by
      rw [hrest c rfl]
      exact Bool.false_ne_true
    rw [List.takeWhile_cons_of_neg hc, List.dropWhile_cons_of_neg hc, List.append_nil]
    exact ⟨rfl, rfl⟩

/-- What follows a quoted text is no longer than what follows the quote in front. -/
theorem length_le_of_readQuoted {quote : Char} (h : readQuoted quote cs = .ok (token, rest)) :
    rest.length ≤ cs.length := by
  unfold readQuoted at h
  dsimp only at h
  split at h
  · next d more hdrop =>
    cases h
    have hlen := length_dropWhile_le (fun c => c != quote) cs
    rw [hdrop] at hlen
    exact Nat.le_of_succ_le hlen
  · cases h

/-- A number takes the digit in front of it. -/
theorem length_le_of_readNumber (hc : isDigit c = true)
    (h : readNumber (c :: cs) = .ok (token, rest)) : rest.length ≤ cs.length := by
  have hdrop : (c :: cs).dropWhile isDigit = cs.dropWhile isDigit := List.dropWhile_cons_of_pos hc
  have hlen := length_dropWhile_le isDigit cs
  unfold readNumber at h
  dsimp only at h
  rw [hdrop] at h
  split at h
  · next d more hrest =>
    rw [hrest] at hlen h
    have hmore := length_dropWhile_le isDigit more
    simp only [List.length_cons] at hlen
    split at h
    · split at h <;> cases h
      omega
    · split at h <;> cases h
      simpa using hlen
  · split at h <;> cases h
    exact hlen

/-- A sign takes the character in front of it. -/
theorem length_le_of_readSign (h : readSign (c :: cs) = .ok (token, rest)) :
    rest.length ≤ cs.length := by
  unfold readSign at h
  split at h <;> cases h <;> simp_all

/-- A token takes the character in front of it. -/
theorem length_le_of_readToken (h : readToken c cs = .ok (token, rest)) :
    rest.length ≤ cs.length := by
  unfold readToken at h
  split at h
  · next hc =>
    cases h
    exact length_le_of_readName_cons hc cs
  split at h
  · cases h
    exact length_dropWhile_le isNameChar cs
  split at h
  · exact length_le_of_readQuoted h
  split at h
  · next hc => exact length_le_of_readNumber hc h
  · exact length_le_of_readSign h

/-! ## Rounds -/

/-- The tokens of characters. -/
def tokensIn (cs : List Char) : Except PathError (List Token) := tokensFor cs.length cs

/-- The tokens of a text are those of its characters. -/
theorem tokensOf_eq (s : String) : tokensOf s = tokensIn s.toList := rfl

/-- As many rounds as there are characters are enough. -/
theorem tokensFor_of_le {n : Nat} (hn : cs.length ≤ n) : tokensFor n cs = tokensIn cs := by
  -- any two numbers of rounds that are enough for the text are enough for what a round leaves
  have hsame : ∀ (n m : Nat) (cs : List Char), cs.length ≤ n → cs.length ≤ m →
      tokensFor n cs = tokensFor m cs := by
    intro n
    induction n with
    | zero =>
      intro m cs hn _
      obtain rfl := List.length_eq_zero_iff.1 (Nat.le_zero.1 hn)
      cases m <;> rfl
    | succ n ih =>
      intro m cs hn hm
      cases cs with
      | nil => cases m <;> rfl
      | cons c cs =>
        cases m with
        | zero => cases hm
        | succ m =>
          have hn' : cs.length ≤ n := Nat.le_of_succ_le_succ hn
          have hm' : cs.length ≤ m := Nat.le_of_succ_le_succ hm
          simp only [tokensFor]
          split
          · exact ih m cs hn' hm'
          · split
            · rfl
            · next token rest hread =>
              have hlen := length_le_of_readToken hread
              rw [ih m rest (Nat.le_trans hlen hn') (Nat.le_trans hlen hm')]
  exact hsame n cs.length cs hn (Nat.le_refl _)

/-- The characters have their tokens with any number of rounds that is enough. -/
theorem Lexed.of_tokensIn (h : tokensIn cs = .ok ts) : Lexed cs ts := fun rounds hrounds => by
  rw [tokensFor_of_le hrounds, h]

/-- A gap in front of a text is skipped. -/
theorem tokensIn_gap (hgap : isGap c = true) : tokensIn (c :: cs) = tokensIn cs := by
  rw [tokensIn, List.length_cons, tokensFor, if_pos hgap]
  rfl

/-- A token in front of a text. -/
theorem tokensIn_token (hgap : isGap c = false) (hread : readToken c cs = .ok (token, rest)) :
    tokensIn (c :: cs) = (tokensIn rest).map (token :: ·) := by
  rw [tokensIn, List.length_cons, tokensFor, if_neg (by simp [hgap]), hread]
  simp only [tokensFor_of_le (length_le_of_readToken hread)]
  cases tokensIn rest <;> rfl

/-- A text with something in front that is no token has no tokens. -/
theorem tokensIn_error {e : PathError} (hgap : isGap c = false)
    (hread : readToken c cs = .error e) : tokensIn (c :: cs) = .error e := by
  rw [tokensIn, List.length_cons, tokensFor, if_neg (by simp [hgap]), hread]

/-! ## Words and slashes -/

/-- A simple name in front of a text that does not go on with it. -/
theorem tokensIn_name (hs : isSimple s = true) (hrest : Ends rest) :
    tokensIn (s.toList ++ rest) = (tokensIn rest).map (.atom s :: ·) := by
  obtain ⟨c, cs, heq, hgap, hread⟩ := readToken_name hs hrest
  rw [heq]
  exact tokensIn_token hgap hread

/-- A slash in front of a text without another one in front. -/
theorem tokensIn_slash (hrest : rest.head? ≠ some '/') :
    tokensIn ('/' :: rest) = (tokensIn rest).map (.slash :: ·) :=
  tokensIn_token rfl (readToken_slash hrest)

/-- A colon in front of a text without another one in front. -/
theorem tokensIn_colon (hrest : rest.head? ≠ some ':') :
    tokensIn (':' :: rest) = (tokensIn rest).map (.colon :: ·) :=
  tokensIn_token rfl (readToken_colon hrest)

end Netconf.Path
