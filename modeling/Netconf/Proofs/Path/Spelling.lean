import Netconf.Proofs.Path.Bytewise
import Netconf.Proofs.Text.Decimal

/-!
# Writing tokens

Lists of tokens can be written so that they are read back (`tokensOf_intercalate`): a name with a
backslash in front of each of its characters, a text between two quotes that it does not have, all
else as it is shown, and a gap between one token and the next. Such a word is read as its token when
a gap or the end follows (`Token.Spelled.tokensIn_eq`). The gaps are needed: without them two signs
may be read as one, and a name or a number goes on with what follows it.
-/

namespace Netconf.Path

/-! ## Words -/

/-- Is the token a sign, and no name, number or text? -/
def Token.isSign : Token → Bool
  | .atom _ | .attribute _ | .integer _ | .decimal _ | .text _ => false
  | _ => true

/-- Characters with a backslash in front of each. -/
def escape (cs : List Char) : List Char := cs.flatMap fun c => ['\\', c]

/-- The words that a token is written as. -/
inductive Token.Spelled : Token → String → Prop where
  /-- A sign as it is. -/
  | sign {token : Token} (h : token.isSign = true) : Spelled token token.shown
  /-- A name with a backslash in front of every character. -/
  | atom {s : String} (h : s ≠ "") : Spelled (.atom s) (String.ofList (escape s.toList))
  /-- The simple name of an attribute behind an at sign. -/
  | atSign {s : String} (h : isSimple s = true) : Spelled (.attribute s) ("@" ++ s)
  /-- An integer that fits into 64 bits and is not negative. -/
  | integer {n : Nat} (h : (n : Int) ≤ Text.int64Max) : Spelled (.integer n) (toString n)
  /-- A text between two quotes that it does not have. -/
  | text {s : String} {quote : Char} (hquote : quote = '\'' ∨ quote = '"') (h : quote ∉ s.toList) :
    Spelled (.text s) (String.ofList (quote :: (s.toList ++ [quote])))

/-- The tokens that can be written: signs, atoms with a name, attributes with a simple name,
integers that fit into 64 bits and are not negative, and texts that do not have both quotes. -/
def Token.Writable : Token → Prop
  | .atom s => s ≠ ""
  | .attribute s => isSimple s = true
  | .integer i => 0 ≤ i ∧ i ≤ Text.int64Max
  | .decimal _ => False
  | .text s => '\'' ∉ s.toList ∨ '"' ∉ s.toList
  | _ => True

instance : DecidablePred Token.Writable
  | .atom s => inferInstanceAs (Decidable (s ≠ ""))
  | .attribute s => inferInstanceAs (Decidable (isSimple s = true))
  | .integer i => inferInstanceAs (Decidable (0 ≤ i ∧ i ≤ Text.int64Max))
  | .decimal _ => inferInstanceAs (Decidable False)
  | .text s => inferInstanceAs (Decidable ('\'' ∉ s.toList ∨ '"' ∉ s.toList))
  | .slash | .slashSlash | .dot | .dotDot | .colon | .colonColon | .arithmetic _ | .comparison _
  | .openParen | .closeParen | .openBracket | .closeBracket | .comma =>
    inferInstanceAs (Decidable True)

variable {c quote : Char} {cs rest : List Char} {s word : String} {token : Token}
  {tokens : List Token} {words : List String}

/-- There is a word for every token that can be written. -/
theorem Token.Writable.exists_spelled (h : token.Writable) : ∃ word, token.Spelled word := by
  cases token with
  | atom s => exact ⟨_, .atom h⟩
  | «attribute» s => exact ⟨_, .atSign h⟩
  | integer i =>
    obtain ⟨n, rfl⟩ := Int.eq_ofNat_of_zero_le h.1
    exact ⟨_, .integer h.2⟩
  | decimal x => exact h.elim
  | text s =>
    rcases h with h | h
    · exact ⟨_, .text (.inl rfl) h⟩
    · exact ⟨_, .text (.inr rfl) h⟩
  | _ => exact ⟨_, .sign rfl⟩

/-- There are words for lists of such tokens. -/
theorem exists_words (h : ∀ token ∈ tokens, token.Writable) :
    ∃ words, List.Forall₂ Token.Spelled tokens words := by
  induction tokens with
  | nil => exact ⟨[], .nil⟩
  | cons token tokens ih =>
    obtain ⟨hfirst, hrest⟩ := List.forall_mem_cons.1 h
    obtain ⟨word, hword⟩ := hfirst.exists_spelled
    obtain ⟨words, hwords⟩ := ih hrest
    exact ⟨word :: words, .cons hword hwords⟩

/-! ## Reading a word -/

/-- The text ends here, or a gap follows. -/
def Spaced (rest : List Char) : Prop := rest = [] ∨ ∃ more, rest = ' ' :: more

/-- No name goes on behind a gap. -/
theorem Spaced.ends (h : Spaced rest) : Ends rest := by
  rcases h with rfl | ⟨more, rfl⟩
  · nofun
  · exact .cons (by decide)

/-- A sign in front of a gap. -/
theorem tokensIn_sign (h : token.isSign = true) (hrest : Spaced rest) :
    tokensIn (token.shown.toList ++ rest) = (tokensIn rest).map (token :: ·) := by
  have hread : ∃ c cs, token.shown.toList ++ rest = c :: cs ∧ isGap c = false ∧
      readToken c cs = .ok (token, rest) := by
    -- neither a gap nor the end is the second half of a sign
    cases token with
    | arithmetic op =>
      cases op <;> rcases hrest with rfl | ⟨more, rfl⟩ <;> exact ⟨_, _, rfl, rfl, rfl⟩
    | comparison op =>
      cases op <;> rcases hrest with rfl | ⟨more, rfl⟩ <;> exact ⟨_, _, rfl, rfl, rfl⟩
    | atom | «attribute» | integer | decimal | text => cases h
    | _ => rcases hrest with rfl | ⟨more, rfl⟩ <;> exact ⟨_, _, rfl, rfl, rfl⟩
  obtain ⟨c, cs, heq, hgap, hread⟩ := hread
  rw [heq]
  exact tokensIn_token hgap hread

/-- Behind backslashes all characters are read as they are. -/
theorem readName_escape (hrest : Ends rest) (cs : List Char) :
    readName (escape cs ++ rest) = (cs, rest) := by
  induction cs with
  | nil =>
    have hnone : ∀ c ∈ ([] : List Char), isNameChar c = true := nofun
    exact readName_append hnone hrest
  | cons c cs ih =>
    show readName ('\\' :: c :: (escape cs ++ rest)) = _
    rw [readName, ih]

/-- A name with a backslash in front of every character, and a gap behind it. -/
theorem tokensIn_escape (h : s ≠ "") (hrest : Ends rest) :
    tokensIn (escape s.toList ++ rest) = (tokensIn rest).map (.atom s :: ·) := by
  obtain ⟨c, cs, hs⟩ := List.exists_cons_of_ne_nil fun hnil => h (String.toList_eq_nil_iff.1 hnil)
  have hread : readToken '\\' (c :: (escape cs ++ rest)) = .ok (.atom s, rest) := by
    have hname : readName ('\\' :: c :: (escape cs ++ rest)) = (s.toList, rest) :=
      hs ▸ readName_escape hrest (c :: cs)
    rw [readToken, if_pos (by decide), hname, String.ofList_toList]
  rw [hs]
  exact tokensIn_token rfl hread

/-- The simple name of an attribute, and a gap behind it. -/
theorem tokensIn_attribute (h : isSimple s = true) (hrest : Ends rest) :
    tokensIn ('@' :: (s.toList ++ rest)) = (tokensIn rest).map (.attribute s :: ·) := by
  obtain ⟨c, cs, hs, hc, hcs⟩ := exists_cons_of_isSimple h
  have hletter : (s.toList ++ rest).head?.any isLetter = true := by
    rw [hs]
    exact hc
  have hname := takeWhile_append_of_stops (hs ▸ hcs) fun d hd => (hrest d hd).1
  have hread : readToken '@' (s.toList ++ rest) = .ok (.attribute s, rest) := by
    rw [readToken, if_neg (by decide), hletter, if_pos (by decide), hname.1, hname.2,
      String.ofList_toList]
  exact tokensIn_token rfl hread

/-- A text between quotes. -/
theorem tokensIn_quoted (hquote : quote = '\'' ∨ quote = '"') (h : quote ∉ s.toList) :
    tokensIn (quote :: (s.toList ++ quote :: rest)) = (tokensIn rest).map (.text s :: ·) := by
  have hbody : ∀ c ∈ s.toList, (c != quote) = true := fun c hc =>
    bne_iff_ne.2 fun heq => h (heq ▸ hc)
  have hclose : ∀ c ∈ (quote :: rest).head?, (c != quote) = false := by
    rintro _ ⟨⟩
    exact bne_self_eq_false quote
  have hstop := takeWhile_append_of_stops hbody hclose
  have hread : readToken quote (s.toList ++ quote :: rest) = .ok (.text s, rest) := by
    have hquoted : readQuoted quote (s.toList ++ quote :: rest) = .ok (.text s, rest) := by
      simp only [readQuoted, hstop, String.ofList_toList]
    rw [← hquoted]
    rcases hquote with rfl | rfl <;> rfl
  have hgap : isGap quote = false := by rcases hquote with rfl | rfl <;> rfl
  exact tokensIn_token hgap hread

/-- A digit is read as the front of a number. -/
theorem readToken_digit (hc : isDigit c = true) (cs : List Char) :
    isGap c = false ∧ readToken c cs = readNumber (c :: cs) := by
  obtain ⟨hlow, hhigh⟩ := toNat_of_isDigit hc
  have hne : ∀ d : Char, d.toNat < 48 ∨ 57 < d.toNat → (c == d) = false := by
    intro d hd
    rw [beq_eq_false_iff_ne]
    rintro rfl
    omega
  have hletter : isLetter c = false := by
    rw [Bool.eq_false_iff]
    intro h
    have hletter := (toNat_of_isLetter h).1
    omega
  constructor
  · simp [isGap, hne]
  · simp [readToken, hletter, hne, hc]

/-- An integer, and a gap behind it. -/
theorem tokensIn_integer {n : Nat} (h : (n : Int) ≤ Text.int64Max) (hrest : Spaced rest) :
    tokensIn ((toString n).toList ++ rest) = (tokensIn rest).map (.integer n :: ·) := by
  have hdigits : ∀ c ∈ (toString n).toList, isDigit c = true := fun c hc => by
    rw [isDigit, Text.digitValue?_of_isDigit (Text.isDigit_of_mem_decimal hc), Option.isSome_some]
  have hends : (∀ c ∈ rest.head?, isDigit c = false) ∧ hasFraction rest = false := by
    rcases hrest with rfl | ⟨more, rfl⟩
    · exact ⟨nofun, rfl⟩
    · exact ⟨by rintro _ ⟨⟩; rfl, rfl⟩
  have hstop := takeWhile_append_of_stops hdigits hends.1
  have hnumber : readNumber ((toString n).toList ++ rest) = .ok (.integer n, rest) := by
    rw [readNumber_integer (by rw [hstop.2, hends.2]), hstop.1, hstop.2,
      Text.int64?_decimal h]
  obtain ⟨c, cs, hcs, -⟩ := Text.exists_decimal_cons n
  obtain ⟨hgap, hread⟩ := readToken_digit (hdigits c (hcs ▸ List.mem_cons_self)) (cs ++ rest)
  rw [hcs, List.cons_append] at hnumber ⊢
  exact tokensIn_token hgap (hread.trans hnumber)

/-- The words of a token are read as the token, in front of a gap or at the end. -/
theorem Token.Spelled.tokensIn_eq (h : token.Spelled word) (hrest : Spaced rest) :
    tokensIn (word.toList ++ rest) = (tokensIn rest).map (token :: ·) := by
  cases h with
  | sign h => exact tokensIn_sign h hrest
  | atom h =>
    rw [String.toList_ofList]
    exact tokensIn_escape h hrest.ends
  | atSign h =>
    rw [String.toList_append]
    exact tokensIn_attribute h hrest.ends
  | integer h => exact tokensIn_integer h hrest
  | text hquote h =>
    rw [String.toList_ofList, List.cons_append, List.append_assoc]
    exact tokensIn_quoted hquote h

/-! ## Reading a list of words -/

/-- Words of tokens with a gap between one and the next are read as the tokens. -/
theorem tokensIn_intercalate (h : List.Forall₂ Token.Spelled tokens words) :
    tokensIn ([' '].intercalate (words.map String.toList)) = .ok tokens := by
  induction h with
  | nil => rfl
  | cons h hs ih =>
    cases hs with
    | nil => exact h.tokensIn_eq (.inl rfl)
    | @cons _ second _ words _ _ =>
      have hread := h.tokensIn_eq
        (.inr ⟨[' '].intercalate ((second :: words).map String.toList), rfl⟩)
      rw [tokensIn_gap rfl, ih] at hread
      exact hread

/-- Every list of tokens that can be written has words, and with a gap between one word and the next
they are read back as the list. Whatever the text, reading it from its bytes ends as reading it from
its characters does, with tokens or with an error of paths: it neither cuts inside a character nor
goes on without end. -/
theorem tokensOf_intercalate :
    (∀ tokens : List Token, (∀ token ∈ tokens, token.Writable) →
      (∃ words, List.Forall₂ Token.Spelled tokens words) ∧
        ∀ words, List.Forall₂ Token.Spelled tokens words →
          tokensOf (" ".intercalate words) = .ok tokens) ∧
      ∀ text, (∃ tokens, tokensOf text = .ok tokens ∧ scan text = .ok tokens) ∨
        ∃ e, tokensOf text = .error e ∧ scan text = .error (.path e) := by
  refine ⟨fun tokens h => ⟨exists_words h, fun words hwords => ?_⟩, fun text => ?_⟩
  · rw [tokensOf_eq, String.toList_intercalate]
    exact tokensIn_intercalate hwords
  · rw [scan_eq]
    cases tokensOf text with
    | ok tokens => exact .inl ⟨tokens, rfl, rfl⟩
    | error e => exact .inr ⟨e, rfl, rfl⟩

/-- Tokens of all kinds: a name with characters of one, two and four bytes, a dot, a slash and a
backslash, both quotes, the greatest integer next to dots, and signs that would be read as one. -/
theorem tokensOf_mixed :
    tokensOf "/ // \\a\\é\\𝄞\\.\\/\\\\ [ @x-1 > = \"it's\" , '\"' ] . 9223372036854775807 .. : ::" =
        .ok [.slash, .slashSlash, .atom "aé𝄞./\\", .openBracket, .attribute "x-1", .comparison .gt,
          .comparison .eq, .text "it's", .comma, .text "\"", .closeBracket, .dot,
          .integer 9223372036854775807, .dotDot, .colon, .colonColon] := by
  refine (tokensOf_intercalate.1 _ ?_).2 ["/", "//", "\\a\\é\\𝄞\\.\\/\\\\", "[", "@x-1", ">", "=",
    "\"it's\"", ",", "'\"'", "]", ".", "9223372036854775807", "..", ":", "::"] ?_
  · decide +kernel
  · exact .cons (.sign rfl) (.cons (.sign rfl) (.cons (.atom (by decide)) (.cons (.sign rfl)
      (.cons (.atSign rfl) (.cons (.sign rfl) (.cons (.sign rfl)
      (.cons (.text (.inr rfl) (by decide)) (.cons (.sign rfl)
      (.cons (.text (.inl rfl) (by decide)) (.cons (.sign rfl) (.cons (.sign rfl)
      (.cons (.integer (by decide)) (.cons (.sign rfl) (.cons (.sign rfl) (.cons (.sign rfl)
      .nil)))))))))))))))

end Netconf.Path
