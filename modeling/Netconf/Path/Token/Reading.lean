import Netconf.Error
import Netconf.Text.Integer

/-!
# From text to tokens

`tokensOf` reads the tokens of a path expression. Every round of the reader takes at least one
character, so the length of the text bounds the rounds.
-/

namespace Netconf.Path

/-- The characters that may stand between tokens. -/
def isGap (c : Char) : Bool := c == ' ' || c == '\t' || c == '\n' || c == '\r'

/-- The ASCII letters. -/
def isLetter (c : Char) : Bool := c.isAlpha

/-- The characters of a name that need no backslash. -/
def isNameChar (c : Char) : Bool := c.isAlphanum || c == '-' || c == '_'

/-- The ASCII digits. -/
def isDigit (c : Char) : Bool := (Text.digitValue? c).isSome

/-- Reads a name: its characters without the backslashes, and what follows it. A backslash lets
any character stand in the name; one at the end of the text stands for nothing. -/
def readName : List Char → List Char × List Char
  | [] => ([], [])
  | ['\\'] => ([], [])
  | '\\' :: c :: cs => (c :: (readName cs).1, (readName cs).2)
  | c :: cs => if isNameChar c then (c :: (readName cs).1, (readName cs).2) else ([], c :: cs)

/-- Reads the rest of a quoted text, up to the quote that opened it. -/
def readQuoted (quote : Char) (cs : List Char) : Except PathError (Token × List Char) :=
  let body := cs.takeWhile fun c => c != quote
  match cs.dropWhile fun c => c != quote with
  | _ :: rest => .ok (.text (String.ofList body), rest)
  | [] => .error (.unterminated (String.ofList cs))

/-- Reads a number: digits, and a fraction if a dot and a digit follow. -/
def readNumber (cs : List Char) : Except PathError (Token × List Char) :=
  let whole := cs.takeWhile isDigit
  let rest := cs.dropWhile isDigit
  let integer : Except PathError (Token × List Char) :=
    match Text.int64? whole with
    | some i => .ok (.integer i, rest)
    | none => .error (.tooLarge (String.ofList whole))
  match rest with
  | '.' :: d :: more =>
    if isDigit d then
      let fraction := d :: more.takeWhile isDigit
      match Binary64.read? (whole ++ '.' :: fraction) with
      | some x => .ok (.decimal x, more.dropWhile isDigit)
      | none => .error (.tooLarge (String.ofList whole))
    else integer
  | _ => integer

/-- Reads a token of one or two signs. -/
def readSign : List Char → Except PathError (Token × List Char)
  | '!' :: '=' :: cs => .ok (.comparison .ne, cs)
  | '[' :: cs => .ok (.openBracket, cs)
  | ']' :: cs => .ok (.closeBracket, cs)
  | '(' :: cs => .ok (.openParen, cs)
  | ')' :: cs => .ok (.closeParen, cs)
  | '/' :: '/' :: cs => .ok (.slashSlash, cs)
  | '/' :: cs => .ok (.slash, cs)
  | ':' :: ':' :: cs => .ok (.colonColon, cs)
  | ':' :: cs => .ok (.colon, cs)
  | '.' :: '.' :: cs => .ok (.dotDot, cs)
  | '.' :: cs => .ok (.dot, cs)
  | ',' :: cs => .ok (.comma, cs)
  | '+' :: cs => .ok (.arithmetic .plus, cs)
  | '-' :: cs => .ok (.arithmetic .minus, cs)
  | '*' :: cs => .ok (.arithmetic .times, cs)
  | '=' :: '>' :: cs => .ok (.comparison .ge, cs)
  | '>' :: '=' :: cs => .ok (.comparison .ge, cs)
  | '=' :: '<' :: cs => .ok (.comparison .le, cs)
  | '<' :: '=' :: cs => .ok (.comparison .le, cs)
  | '=' :: cs => .ok (.comparison .eq, cs)
  | '>' :: cs => .ok (.comparison .gt, cs)
  | '<' :: cs => .ok (.comparison .lt, cs)
  | c :: _ => .error (.illegalCharacter c)
  | [] => .error .empty

/-- Reads the token that starts with the character `c`. -/
def readToken (c : Char) (cs : List Char) : Except PathError (Token × List Char) :=
  if isLetter c || c == '\\' then
    .ok (.atom (String.ofList (readName (c :: cs)).1), (readName (c :: cs)).2)
  else if c == '@' && cs.head?.any isLetter then
    .ok (.attribute (String.ofList (cs.takeWhile isNameChar)), cs.dropWhile isNameChar)
  else if c == '\'' || c == '"' then readQuoted c cs
  else if isDigit c then readNumber (c :: cs)
  else readSign (c :: cs)

/-- The tokens of the first `rounds` rounds. -/
def tokensFor : Nat → List Char → Except PathError (List Token)
  | 0, _ => .ok []
  | _ + 1, [] => .ok []
  | rounds + 1, c :: cs =>
    if isGap c then tokensFor rounds cs
    else
      match readToken c cs with
      | .error e => .error e
      | .ok (token, rest) =>
        match tokensFor rounds rest with
        | .error e => .error e
        | .ok tokens => .ok (token :: tokens)

/-- The tokens of a path expression. -/
def tokensOf (s : String) : Except PathError (List Token) := tokensFor s.toList.length s.toList

end Netconf.Path
