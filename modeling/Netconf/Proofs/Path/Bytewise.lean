import Mathlib.Data.List.TakeWhile
import Netconf.Proofs.Path.Scanning
import Netconf.Proofs.Text.Positions

/-!
# Reading tokens from bytes

The tokens of a text, read from its bytes: the reader keeps a position and a flag for an open
backslash itself, looks at one byte and at the byte behind it, and cuts names, texts and numbers out
between two positions. Cutting inside a character and going on without end are faults of their own
(`Fault`). For every text this reader ends with the tokens or with the error of `tokensOf`, so that
neither fault shows (`scan_eq`): at each position that it comes to, the text goes on with whole
characters (`Text.Ahead`).
-/

namespace Netconf.Path

open Netconf.Text (Ahead Agreed byteAt skipWhile slice?)

variable {buf : List UInt8} {i : Nat} {c : Char} {cs : List Char}

/-! ## The reader -/

/-- What stops the reader of bytes. -/
inductive Fault where
  /-- Something is wrong with the path. -/
  | path (e : PathError)
  /-- A text was to be cut out that does not begin and end between characters. -/
  | torn
  /-- The rounds have run out before the end. -/
  | endless

/-- Cuts out the text between two positions. -/
def cut (buf : List UInt8) (start stop : Nat) : Except Fault String :=
  match slice? buf start stop with
  | some text => .ok text
  | none => .error .torn

/-- Reads a name: its characters without the backslashes, and the position behind it. The flag is
set behind a backslash that the next character belongs to, whatever it is. -/
def nameFor (buf : List UInt8) (rounds : Nat) (escaped : Bool) (i : Nat) :
    Except Fault (List Char × Nat) :=
  if decide (i < buf.length) && (escaped || isNameChar (byteAt buf i) || byteAt buf i == '\\') then
    match rounds with
    | 0 => .error .endless
    | rounds + 1 =>
      if byteAt buf i == '\\' && !escaped then nameFor buf rounds true (i + 1)
      else
        (cut buf i buf.length).bind fun text =>
          match text.toList with
          | [] => .ok ([], i)
          | c :: _ =>
            (nameFor buf rounds false (i + c.utf8Size)).map fun (name, stop) => (c :: name, stop)
  else .ok ([], i)

/-- Reads the text in quotes that opens at the position. -/
def quotedAt (buf : List UInt8) (i : Nat) : Except Fault (Token × Nat) :=
  let stop := skipWhile (· != byteAt buf i) buf (i + 1)
  if stop < buf.length then
    (cut buf (i + 1) stop).map fun text => (.text text, stop + 1)
  else
    (cut buf (i + 1) buf.length).bind fun rest => .error (.path (.unterminated rest))

/-- Reads the number that begins at the position. -/
def numberAt (buf : List UInt8) (i : Nat) : Except Fault (Token × Nat) :=
  let whole := skipWhile isDigit buf (i + 1)
  if decide (whole + 1 < buf.length) && byteAt buf whole == '.' &&
      isDigit (byteAt buf (whole + 1)) then
    let stop := skipWhile isDigit buf (whole + 1)
    (cut buf i stop).bind fun digits =>
      match Binary64.read? digits.toList with
      | some x => .ok (.decimal x, stop)
      | none => .error (.path (.tooLarge digits))
  else
    (cut buf i whole).bind fun digits =>
      match Text.int64? digits.toList with
      | some n => .ok (.integer n, whole)
      | none => .error (.path (.tooLarge digits))

/-- The token that two bytes begin with, and how many bytes it takes. -/
def signOf : Char → Char → Option (Token × Nat)
  | '!', '=' => some (.comparison .ne, 2)
  | '[', _ => some (.openBracket, 1)
  | ']', _ => some (.closeBracket, 1)
  | '(', _ => some (.openParen, 1)
  | ')', _ => some (.closeParen, 1)
  | '/', '/' => some (.slashSlash, 2)
  | '/', _ => some (.slash, 1)
  | ':', ':' => some (.colonColon, 2)
  | ':', _ => some (.colon, 1)
  | '.', '.' => some (.dotDot, 2)
  | '.', _ => some (.dot, 1)
  | ',', _ => some (.comma, 1)
  | '+', _ => some (.arithmetic .plus, 1)
  | '-', _ => some (.arithmetic .minus, 1)
  | '*', _ => some (.arithmetic .times, 1)
  | '=', '>' => some (.comparison .ge, 2)
  | '>', '=' => some (.comparison .ge, 2)
  | '=', '<' => some (.comparison .le, 2)
  | '<', '=' => some (.comparison .le, 2)
  | '=', _ => some (.comparison .eq, 1)
  | '>', _ => some (.comparison .gt, 1)
  | '<', _ => some (.comparison .lt, 1)
  | _, _ => none

/-- Reads the sign at the position. -/
def signAt (buf : List UInt8) (i : Nat) : Except Fault (Token × Nat) :=
  match signOf (byteAt buf i) (byteAt buf (i + 1)) with
  | some (token, width) => .ok (token, i + width)
  | none =>
    (cut buf i buf.length).bind fun rest =>
      .error (.path (.illegalCharacter (rest.toList.headD (byteAt buf i))))

/-- Reads the token at the position, and gives the position behind it. -/
def tokenAt (buf : List UInt8) (i : Nat) : Except Fault (Token × Nat) :=
  let curr := byteAt buf i
  if isLetter curr || curr == '\\' then
    (nameFor buf buf.length false i).map fun (name, stop) => (.atom (String.ofList name), stop)
  else if curr == '@' && isLetter (byteAt buf (i + 1)) then
    let stop := skipWhile isNameChar buf (i + 2)
    (cut buf (i + 1) stop).map fun name => (.attribute name, stop)
  else if curr == '\'' || curr == '"' then quotedAt buf i
  else if isDigit curr then numberAt buf i
  else signAt buf i

/-- The tokens from the position on. -/
def scanFor (buf : List UInt8) (rounds : Nat) (i : Nat) : Except Fault (List Token) :=
  if i < buf.length then
    match rounds with
    | 0 => .error .endless
    | rounds + 1 =>
      if isGap (byteAt buf i) then scanFor buf rounds (i + 1)
      else
        (tokenAt buf i).bind fun (token, stop) => (scanFor buf rounds stop).map (token :: ·)
  else .ok []

/-- The tokens of a text, read from its bytes, with as many rounds as there are bytes. -/
def scan (s : String) : Except Fault (List Token) :=
  scanFor (Text.bytes s) (Text.bytes s).length 0

/-! ## Kinds of characters -/

/-- The numbers of the digits. -/
theorem toNat_of_isDigit (h : isDigit c = true) : 48 ≤ c.toNat ∧ c.toNat ≤ 57 := by
  unfold isDigit Text.digitValue? at h
  split at h
  · next hc => exact hc
  · cases h

/-- Digits are ASCII. -/
theorem toNat_lt_of_isDigit (h : isDigit c = true) : c.toNat < 128 :=
  Nat.lt_of_le_of_lt (toNat_of_isDigit h).2 (by decide)

/-- The numbers of the letters are among these. -/
theorem toNat_of_isLetter (h : isLetter c = true) : 65 ≤ c.toNat ∧ c.toNat ≤ 122 := by
  change (decide (c.val ≥ 'A'.val ∧ c.val ≤ 'Z'.val) ||
    (decide (c.val ≥ 'a'.val) && decide (c.val ≤ 'z'.val))) = true at h
  simp only [Bool.or_eq_true, Bool.and_eq_true, decide_eq_true_eq, UInt32.le_iff_toNat_le,
    ge_iff_le] at h
  change (65 ≤ c.toNat ∧ c.toNat ≤ 90) ∨ (97 ≤ c.toNat ∧ c.toNat ≤ 122) at h
  omega

/-- Letters are ASCII. -/
theorem toNat_lt_of_isLetter (h : isLetter c = true) : c.toNat < 128 :=
  Nat.lt_of_le_of_lt (toNat_of_isLetter h).2 (by decide)

/-- The characters of names are ASCII. -/
theorem toNat_lt_of_isNameChar (h : isNameChar c = true) : c.toNat < 128 := by
  simp only [isNameChar, Char.isAlphanum, Bool.or_eq_true, beq_iff_eq, or_assoc] at h
  rcases h with h | h | rfl | rfl
  · exact toNat_lt_of_isLetter h
  · rw [Char.isDigit, Bool.and_eq_true, decide_eq_true_eq, decide_eq_true_eq] at h
    exact Nat.lt_of_le_of_lt (UInt32.le_iff_toNat_le.1 h.2) (by decide)
  all_goals decide

/-- Gaps are ASCII. -/
theorem toNat_lt_of_isGap (h : isGap c = true) : c.toNat < 128 := by
  simp only [isGap, Bool.or_eq_true, beq_iff_eq] at h
  rcases h with ((rfl | rfl) | rfl) | rfl <;> decide

/-- The bytes of a character agree about letters. -/
theorem agreed_isLetter : Agreed isLetter := .of_ascii fun _ => toNat_lt_of_isLetter

/-- The bytes of a character agree about characters of names. -/
theorem agreed_isNameChar : Agreed isNameChar := .of_ascii fun _ => toNat_lt_of_isNameChar

/-- The bytes of a character agree about digits. -/
theorem agreed_isDigit : Agreed isDigit := .of_ascii fun _ => toNat_lt_of_isDigit

/-- The bytes of a character agree about gaps. -/
theorem agreed_isGap : Agreed isGap := .of_ascii fun _ => toNat_lt_of_isGap

/-! ## Cuts and tokens -/

/-- What is cut out between two positions. -/
theorem cut_eq {ds : List Char} {stop : Nat} (h : Ahead buf i (cs ++ ds))
    (hstop : Ahead buf stop ds) : cut buf i stop = .ok (String.ofList cs) := by
  rw [cut, h.slice?_eq hstop]

/-- What is cut out up to the end. -/
theorem cut_length (h : Ahead buf i cs) : cut buf i buf.length = .ok (String.ofList cs) := by
  have hall : Ahead buf i (cs ++ []) := by rwa [List.append_nil]
  exact cut_eq hall h.length

/-- What is cut out up to where characters of a kind end. -/
theorem cut_skipWhile {p : Char → Bool} (h : Ahead buf i cs) (hp : Agreed p) :
    cut buf i (skipWhile p buf i) = .ok (String.ofList (cs.takeWhile p)) :=
  cut_eq (by rwa [List.takeWhile_append_dropWhile]) (h.skipWhile hp)

/-- The reader of bytes ends as the reader of characters does: with the same token in front of the
same characters, or with the same error. -/
def Follows (buf : List UInt8) (found : Except Fault (Token × Nat)) :
    Except PathError (Token × List Char) → Prop
  | .ok (token, rest) => ∃ stop, found = .ok (token, stop) ∧ Ahead buf stop rest
  | .error e => found = .error (.path e)

/-! ## Names -/

/-- At the end a name ends. -/
theorem nameFor_nil (h : Ahead buf i []) (rounds : Nat) (escaped : Bool) :
    nameFor buf rounds escaped i = .ok ([], i) := by
  have hend : ¬ i < buf.length := by
    rw [h.lt_length_iff]
    simp
  rw [nameFor.eq_def, decide_eq_false hend]
  rfl

/-- A round for a name, told by the character ahead. -/
theorem nameFor_cons (h : Ahead buf i (c :: cs)) (rounds : Nat) (escaped : Bool) :
    nameFor buf (rounds + 1) escaped i =
      if escaped || isNameChar c || c == '\\' then
        if c == '\\' && !escaped then nameFor buf rounds true (i + 1)
        else (nameFor buf rounds false (i + c.utf8Size)).map fun (name, stop) => (c :: name, stop)
      else .ok ([], i) := by
  have hlt : i < buf.length := h.lt_length_iff.2 (List.cons_ne_nil c cs)
  have hslash : (byteAt buf i == '\\') = (c == '\\') := h.agreed (.eq_ascii (by decide))
  have hname : isNameChar (byteAt buf i) = isNameChar c := h.agreed agreed_isNameChar
  rw [nameFor.eq_def, decide_eq_true hlt, hslash, hname, Bool.true_and, cut_length h]
  simp only [Except.bind, String.toList_ofList]

/-- A name is read from bytes as it is from characters. An open backslash is one that still stands
in front of the characters. -/
theorem nameFor_eq (h : Ahead buf i cs) {rounds : Nat} (hrounds : cs.length ≤ rounds)
    (escaped : Bool) :
    ∃ stop, nameFor buf rounds escaped i =
        .ok ((readName (if escaped then '\\' :: cs else cs)).1, stop) ∧
      Ahead buf stop (readName (if escaped then '\\' :: cs else cs)).2 := by
  -- a round takes the character ahead, or a backslash, which is open then and no longer ahead
  induction rounds generalizing i cs escaped with
  | zero =>
    obtain rfl := List.length_eq_zero_iff.1 (Nat.le_zero.1 hrounds)
    rw [nameFor_nil h]
    cases escaped <;> exact ⟨i, rfl, h⟩
  | succ rounds ih =>
    cases cs with
    | nil =>
      rw [nameFor_nil h]
      cases escaped <;> exact ⟨i, rfl, h⟩
    | cons c cs =>
      have hcs : cs.length ≤ rounds := Nat.le_of_succ_le_succ hrounds
      cases escaped with
      | true =>
        obtain ⟨stop, hstop, hrest⟩ := ih h.next hcs false
        refine ⟨stop, ?_, hrest⟩
        simp [nameFor_cons h, hstop, readName, Except.map]
      | false =>
        rw [if_neg Bool.false_ne_true]
        by_cases hslash : c = '\\'
        · subst hslash
          obtain ⟨stop, hstop, hrest⟩ := ih (h.next_ascii (by decide)) hcs true
          refine ⟨stop, ?_, hrest⟩
          simpa [nameFor_cons h] using hstop
        · rw [readName_cons hslash]
          cases hc : isNameChar c with
          | true =>
            obtain ⟨stop, hstop, hrest⟩ := ih h.next hcs false
            refine ⟨stop, ?_, hrest⟩
            simp [nameFor_cons h, hslash, hc, hstop, Except.map]
          | false =>
            refine ⟨i, ?_, h⟩
            simp [nameFor_cons h, hslash, hc]

/-- Names. -/
theorem follows_name (h : Ahead buf i (c :: cs)) : Follows buf
    ((nameFor buf buf.length false i).map fun (name, stop) => (.atom (String.ofList name), stop))
    (.ok (.atom (String.ofList (readName (c :: cs)).1), (readName (c :: cs)).2)) := by
  have hlen : (c :: cs).length ≤ buf.length := by
    rw [h.length_eq]
    exact Nat.le_trans (Text.length_le_encodeAll _) (Nat.le_add_left _ _)
  obtain ⟨stop, hstop, hrest⟩ := nameFor_eq h hlen false
  rw [hstop]
  exact ⟨stop, rfl, hrest⟩

/-- Names of attributes. -/
theorem follows_attribute (h : Ahead buf i (c :: cs)) (hc : c.toNat < 128)
    (hletter : cs.head?.any isLetter = true) : Follows buf
    ((cut buf (i + 1) (skipWhile isNameChar buf (i + 2))).map fun name =>
      (.attribute name, skipWhile isNameChar buf (i + 2)))
    (.ok (.attribute (String.ofList (cs.takeWhile isNameChar)), cs.dropWhile isNameChar)) := by
  have hname : Ahead buf (i + 1) cs := h.next_ascii hc
  cases cs with
  | nil => cases hletter
  | cons d cs =>
    have hd : isNameChar d = true := isNameChar_of_isLetter hletter
    have hstop := (hname.next_ascii (toNat_lt_of_isNameChar hd)).skipWhile agreed_isNameChar
    rw [← List.dropWhile_cons_of_pos hd] at hstop
    rw [← List.takeWhile_append_dropWhile (p := isNameChar) (l := d :: cs)] at hname
    rw [cut_eq hname hstop]
    exact ⟨_, rfl, hstop⟩

/-! ## Texts and numbers -/

/-- Texts in quotes. -/
theorem follows_quoted (h : Ahead buf i (c :: cs)) (hc : c.toNat < 128) :
    Follows buf (quotedAt buf i) (readQuoted c cs) := by
  have hbyte : byteAt buf i = c := h.byteAt_ascii hc
  have hquote : Agreed (· != c) := .ne_ascii hc
  have hopen : Ahead buf (i + 1) cs := h.next_ascii hc
  have hstop := hopen.skipWhile hquote
  unfold quotedAt readQuoted
  simp only [hbyte]
  cases hdrop : cs.dropWhile (· != c) with
  | nil =>
    rw [hdrop] at hstop
    rw [if_neg (by rw [hstop.lt_length_iff]; simp), cut_length hopen]
    rfl
  | cons d rest =>
    rw [hdrop] at hstop
    have hd : d = c := by
      have hhead := List.head_dropWhile_not (l := cs) (· != c) (by rw [hdrop]; simp)
      simpa [hdrop] using hhead
    subst hd
    rw [if_pos (by rw [hstop.lt_length_iff]; simp), cut_skipWhile hopen hquote]
    exact ⟨_, rfl, hstop.next_ascii hc⟩

/-- Does a fraction follow: a dot and a digit? -/
def hasFraction : List Char → Bool
  | '.' :: d :: _ => isDigit d
  | _ => false

/-- The bytes tell whether a fraction follows, as the characters do. -/
theorem hasFraction_eq (h : Ahead buf i cs) :
    (decide (i + 1 < buf.length) && byteAt buf i == '.' && isDigit (byteAt buf (i + 1))) =
      hasFraction cs := by
  cases cs with
  | nil => simp [h.byteAt_nil, hasFraction]
  | cons c cs =>
    have hdot : (byteAt buf i == '.') = (c == '.') := h.agreed (.eq_ascii (by decide))
    rw [hdot]
    by_cases hc : c = '.'
    · subst hc
      have hnext : Ahead buf (i + 1) cs := h.next_ascii (by decide)
      have hlt : i + 1 < buf.length ↔ cs ≠ [] := hnext.lt_length_iff
      cases cs with
      | nil => simp [hlt, hasFraction]
      | cons d cs => simp [hlt, hnext.agreed agreed_isDigit, hasFraction]
    · simp [hc, hasFraction]

/-- Digits have a value. -/
theorem isSome_digitsFrom (hcs : ∀ d ∈ cs, isDigit d = true) (acc : Nat) :
    (Text.digitsFrom acc cs).isSome = true := by
  induction cs generalizing acc with
  | nil => rfl
  | cons c cs ih =>
    obtain ⟨hc, hcs⟩ := List.forall_mem_cons.1 hcs
    obtain ⟨d, hd⟩ := Option.isSome_iff_exists.1 hc
    rw [Text.digitsFrom, hd, Option.bind_some]
    exact ih hcs _

/-- Digits with a point between them are a number. -/
theorem isSome_read? {ds : List Char} (hcs : ∀ d ∈ c :: cs, isDigit d = true)
    (hds : ∀ d ∈ ds, isDigit d = true) :
    (Binary64.read? ((c :: cs) ++ '.' :: ds)).isSome = true := by
  have hfraction : ds.takeWhile isDigit = ds ∧ ds.dropWhile isDigit = [] :=
    ⟨List.takeWhile_eq_self_iff.2 hds, List.dropWhile_eq_nil_iff.2 hds⟩
  have hpoint : ∀ d ∈ ('.' :: ds).head?, isDigit d = false := by
    rintro _ ⟨⟩
    rfl
  have hwhole := takeWhile_append_of_stops hcs hpoint
  have hdecimal : (Binary64.readDecimal? ((c :: cs) ++ '.' :: ds)).isSome = true := by
    obtain ⟨n, hn⟩ := Option.isSome_iff_exists.1
      (isSome_digitsFrom (List.forall_mem_append.2 ⟨hcs, hds⟩) 0)
    have hnatural : Text.natural? ((c :: cs) ++ ds) = some n := hn
    unfold Binary64.readDecimal?
    simp only [← isDigit.eq_def, hwhole, hfraction, hnatural]
    rfl
  have hmagnitude : (Binary64.readMagnitude? ((c :: cs) ++ '.' :: ds)).isSome = true := by
    unfold Binary64.readMagnitude?
    dsimp only
    split_ifs <;> first | rfl | exact hdecimal
  unfold Binary64.read?
  split
  · next heq =>
    obtain ⟨rfl, -⟩ := List.cons.inj heq
    cases hcs _ List.mem_cons_self
  · next heq =>
    obtain ⟨rfl, -⟩ := List.cons.inj heq
    cases hcs _ List.mem_cons_self
  · rw [Option.isSome_map]
    exact hmagnitude

/-- Digits without a fraction are read as an integer. -/
theorem readNumber_integer (h : hasFraction (cs.dropWhile isDigit) = false) : readNumber cs =
    match Text.int64? (cs.takeWhile isDigit) with
    | some n => .ok (.integer n, cs.dropWhile isDigit)
    | none => .error (.tooLarge (String.ofList (cs.takeWhile isDigit))) := by
  unfold readNumber
  dsimp only
  split
  · next d more hrest =>
    rw [hrest] at h
    have hd : isDigit d = false := h
    rw [hrest]
    exact if_neg (Bool.eq_false_iff.1 hd)
  · rfl

/-- Digits with a fraction are read as a number with a point. -/
theorem readNumber_decimal {d : Char} {more : List Char} {x : Binary64}
    (h : cs.dropWhile isDigit = '.' :: d :: more) (hd : isDigit d = true)
    (hx : Binary64.read? (cs.takeWhile isDigit ++ '.' :: (d :: more).takeWhile isDigit) = some x) :
    readNumber cs = .ok (.decimal x, (d :: more).dropWhile isDigit) := by
  rw [List.takeWhile_cons_of_pos hd] at hx
  rw [List.dropWhile_cons_of_pos hd]
  unfold readNumber
  rw [h]
  simp only [if_pos hd, hx]

/-- Numbers. -/
theorem follows_number (h : Ahead buf i (c :: cs)) (hc : isDigit c = true) :
    Follows buf (numberAt buf i) (readNumber (c :: cs)) := by
  have hdrop : (c :: cs).dropWhile isDigit = cs.dropWhile isDigit := List.dropWhile_cons_of_pos hc
  have hwhole := (h.next_ascii (toNat_lt_of_isDigit hc)).skipWhile agreed_isDigit
  rw [← hdrop] at hwhole
  have hsplit := List.takeWhile_append_dropWhile (p := isDigit) (l := c :: cs)
  unfold numberAt
  simp only [hasFraction_eq hwhole]
  cases hfraction : hasFraction ((c :: cs).dropWhile isDigit) with
  | false =>
    rw [readNumber_integer hfraction, if_neg Bool.false_ne_true, cut_eq (by rwa [hsplit]) hwhole]
    simp only [Except.bind, String.toList_ofList]
    cases Text.int64? ((c :: cs).takeWhile isDigit) with
    | none => rfl
    | some n => exact ⟨_, rfl, hwhole⟩
  | true =>
    obtain ⟨d, more, hrest, hd⟩ : ∃ d more, (c :: cs).dropWhile isDigit = '.' :: d :: more ∧
        isDigit d = true := by
      unfold hasFraction at hfraction
      split at hfraction
      · next d more hrest => exact ⟨d, more, hrest, hfraction⟩
      · cases hfraction
    rw [hrest] at hwhole hsplit
    have hstop := (hwhole.next_ascii (by decide)).skipWhile agreed_isDigit
    have hall : ((c :: cs).takeWhile isDigit ++ '.' :: (d :: more).takeWhile isDigit) ++
        (d :: more).dropWhile isDigit = c :: cs := by
      rw [List.append_assoc, List.cons_append, List.takeWhile_append_dropWhile, hsplit]
    have hread : (Binary64.read? ((c :: cs).takeWhile isDigit ++
        '.' :: (d :: more).takeWhile isDigit)).isSome = true := by
      rw [List.takeWhile_cons_of_pos hc]
      exact isSome_read? (List.forall_mem_cons.2 ⟨hc, fun _ => List.mem_takeWhile_imp⟩)
        fun _ => List.mem_takeWhile_imp
    obtain ⟨x, hx⟩ := Option.isSome_iff_exists.1 hread
    rw [readNumber_decimal hrest hd hx, if_pos rfl, cut_eq (by rwa [hall]) hstop]
    simp only [Except.bind, String.toList_ofList, hx]
    exact ⟨_, rfl, hstop⟩

/-! ## Signs -/

/-- Above ASCII no sign begins. -/
theorem signOf_of_high {d : Char} (hc : 128 ≤ c.toNat) : signOf c d = none := by
  unfold signOf
  split <;> first | rfl | exact absurd hc (by decide)

/-- Above ASCII no sign goes on. -/
theorem signOf_high {d : Char} (hd : 128 ≤ d.toNat) : signOf c d = signOf c '\x00' := by
  unfold signOf
  split <;> first | exact absurd hd (by decide) | rfl | skip
  split <;> first | rfl | contradiction

/-- A sign takes one character or two, both of ASCII. -/
theorem signOf_eq_some {d : Char} {token : Token} {width : Nat}
    (h : signOf c d = some (token, width)) :
    c.toNat < 128 ∧ (width = 1 ∨ width = 2 ∧ d.toNat < 128 ∧ d ≠ '\x00') := by
  unfold signOf at h
  split at h <;> cases h <;> exact ⟨by decide, by first | exact .inl rfl | exact .inr (by decide)⟩

/-- The signs are those of the first two characters. -/
theorem readSign_eq (c : Char) (cs : List Char) : readSign (c :: cs) =
    match signOf c (cs.headD '\x00') with
    | some (token, width) => .ok (token, cs.drop (width - 1))
    | none => .error (.illegalCharacter c) := by
  generalize hsign : signOf c (cs.headD '\x00') = sign
  cases cs with
  | nil =>
    rw [List.headD_nil] at hsign
    unfold signOf at hsign
    split at hsign <;> subst hsign <;> first | rfl | simp_all [readSign]
  | cons d cs =>
    rw [List.headD_cons] at hsign
    unfold signOf at hsign
    split at hsign <;> subst hsign <;> first | rfl | simp_all [readSign]

/-- The signs of the first two bytes are those of the first two characters. -/
theorem signOf_byteAt (h : Ahead buf i (c :: cs)) :
    signOf (byteAt buf i) (byteAt buf (i + 1)) = signOf c (cs.headD '\x00') := by
  rcases h.byteAt_cons with hbyte | ⟨hbyte, hc⟩
  · by_cases hc : c.toNat < 128
    · have hnext : Ahead buf (i + 1) cs := h.next_ascii hc
      rw [hbyte]
      cases cs with
      | nil => rw [hnext.byteAt_nil, List.headD_nil]
      | cons d cs =>
        rw [List.headD_cons]
        rcases hnext.byteAt_cons with hd | ⟨hbyte, hd⟩
        · rw [hd]
        · rw [signOf_high hbyte, signOf_high hd]
    · have hhigh := Nat.le_of_not_lt hc
      rw [hbyte, signOf_of_high hhigh, signOf_of_high hhigh]
  · rw [signOf_of_high hbyte, signOf_of_high hc]

/-- Signs, and what is no token. -/
theorem follows_sign (h : Ahead buf i (c :: cs)) :
    Follows buf (signAt buf i) (readSign (c :: cs)) := by
  rw [signAt, signOf_byteAt h, readSign_eq]
  cases hsign : signOf c (cs.headD '\x00') with
  | none =>
    simp only [cut_length h]
    show Except.error (Fault.path (.illegalCharacter _)) = _
    simp
  | some sign =>
    obtain ⟨token, width⟩ := sign
    obtain ⟨hc, rfl | ⟨rfl, hd, hne⟩⟩ := signOf_eq_some hsign
    · exact ⟨i + 1, rfl, h.next_ascii hc⟩
    · cases cs with
      | nil => exact absurd rfl hne
      | cons d cs => exact ⟨i + 2, rfl, (h.next_ascii hc).next_ascii hd⟩

/-! ## All tokens -/

/-- Every token is read from bytes as it is from characters. -/
theorem follows_token (h : Ahead buf i (c :: cs)) :
    Follows buf (tokenAt buf i) (readToken c cs) := by
  have hname : (isLetter (byteAt buf i) || byteAt buf i == '\\') = (isLetter c || c == '\\') := by
    rw [h.agreed agreed_isLetter, h.agreed (.eq_ascii (d := '\\') (by decide))]
  have hat : (byteAt buf i == '@') = (c == '@') := h.agreed (.eq_ascii (by decide))
  have hquote : (byteAt buf i == '\'' || byteAt buf i == '"') = (c == '\'' || c == '"') := by
    rw [h.agreed (.eq_ascii (d := '\'') (by decide)), h.agreed (.eq_ascii (d := '"') (by decide))]
  have hletter : (c == '@' && isLetter (byteAt buf (i + 1))) =
      (c == '@' && cs.head?.any isLetter) := by
    by_cases hc : c = '@'
    · subst hc
      have hnext : Ahead buf (i + 1) cs := h.next_ascii (by decide)
      cases cs with
      | nil => rw [hnext.byteAt_nil]; rfl
      | cons d cs => rw [hnext.agreed agreed_isLetter]; rfl
    · rw [beq_eq_false_iff_ne.2 hc, Bool.false_and, Bool.false_and]
  unfold tokenAt readToken
  simp only [hname, hat, hquote, hletter, h.agreed agreed_isDigit]
  split
  · exact follows_name h
  split
  · next hattribute =>
    obtain ⟨hc, hd⟩ := Bool.and_eq_true_iff.1 hattribute
    obtain rfl := beq_iff_eq.1 hc
    exact follows_attribute h (by decide) hd
  split
  · next hquote =>
    refine follows_quoted h ?_
    rcases Bool.or_eq_true_iff.1 hquote with hc | hc <;> obtain rfl := beq_iff_eq.1 hc <;> decide
  split
  · next hdigit => exact follows_number h hdigit
  · exact follows_sign h

/-- Nothing is left to read at the end. -/
theorem scanFor_nil (h : Ahead buf i []) (rounds : Nat) : scanFor buf rounds i = .ok [] := by
  have hend : ¬ i < buf.length := by
    rw [h.lt_length_iff]
    simp
  rw [scanFor.eq_def, if_neg hend]

/-- The tokens from a position on are those of the characters that are ahead there. -/
theorem scanFor_eq (h : Ahead buf i cs) {rounds : Nat} (hrounds : cs.length ≤ rounds) :
    scanFor buf rounds i = (tokensIn cs).mapError Fault.path := by
  induction rounds generalizing i cs with
  | zero =>
    obtain rfl := List.length_eq_zero_iff.1 (Nat.le_zero.1 hrounds)
    exact scanFor_nil h 0
  | succ rounds ih =>
    cases cs with
    | nil => exact scanFor_nil h _
    | cons c cs =>
      have hcs : cs.length ≤ rounds := Nat.le_of_succ_le_succ hrounds
      have hlt : i < buf.length := h.lt_length_iff.2 (List.cons_ne_nil c cs)
      rw [scanFor.eq_def, if_pos hlt]
      simp only [h.agreed agreed_isGap]
      cases hgap : isGap c with
      | true =>
        rw [tokensIn_gap hgap, if_pos rfl]
        exact ih (h.next_ascii (toNat_lt_of_isGap hgap)) hcs
      | false =>
        rw [if_neg Bool.false_ne_true]
        have hfollows := follows_token h
        cases hread : readToken c cs with
        | error e =>
          rw [hread] at hfollows
          rw [tokensIn_error hgap hread, show tokenAt buf i = .error (.path e) from hfollows]
          rfl
        | ok read =>
          obtain ⟨token, rest⟩ := read
          rw [hread] at hfollows
          obtain ⟨stop, hstop, hrest⟩ := hfollows
          have hlen : rest.length ≤ rounds := Nat.le_trans (length_le_of_readToken hread) hcs
          rw [tokensIn_token hgap hread, hstop]
          simp only [Except.bind, ih hrest hlen]
          cases tokensIn rest <;> rfl

/-- A text is read from its bytes to the same end as from its characters: nothing is cut out inside
a character, and the rounds do not run out. -/
theorem scan_eq (s : String) : scan s = (tokensOf s).mapError Fault.path := by
  have hstart : Ahead (Text.bytes s) 0 s.toList := .start s
  have hlen : s.toList.length ≤ (Text.bytes s).length := by
    rw [Text.bytes_eq]
    exact Text.length_le_encodeAll _
  exact scanFor_eq hstart hlen

/-- Behind a backslash a character of two bytes is part of the name. -/
example : scan "a\\é/b" = .ok [.atom "aé", .slash, .atom "b"] := rfl

end Netconf.Path
