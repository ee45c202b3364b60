/-!
# JSON

JSON values with a strict reader and a printer. A text may hold an escaped half of a surrogate pair
that stands for no character; such a text is read as `none`, so that whoever needs a text refuses it
and whoever skips the value does not care. Of numbers only the natural ones are kept.
-/

namespace Netconf

/-- A JSON value. -/
inductive Json where
  /-- The value `null`. -/
  | null
  /-- A truth value. -/
  | boolean (b : Bool)
  /-- A number: its value if it is written as a natural number. -/
  | number (n : Option Nat)
  /-- A text, if it is one. -/
  | text (s : Option String)
  /-- A list. -/
  | array (items : List Json)
  /-- Named values in order. -/
  | object (members : List (Option String × Json))
  deriving Inhabited

namespace Json

/-! ## Reading -/

/-- The blanks between the parts of a JSON text. -/
def isSpace (c : Char) : Bool := c == ' ' || c == '\n' || c == '\t' || c == '\r'

/-- A text without the blanks in front. -/
def skip (cs : List Char) : List Char := cs.dropWhile isSpace

/-- The value of a hexadecimal digit. -/
def hex? (c : Char) : Option Nat :=
  if '0' ≤ c ∧ c ≤ '9' then some (c.toNat - '0'.toNat)
  else if 'a' ≤ c ∧ c ≤ 'f' then some (c.toNat - 'a'.toNat + 10)
  else if 'A' ≤ c ∧ c ≤ 'F' then some (c.toNat - 'A'.toNat + 10)
  else none

/-- The number of four hexadecimal digits. -/
def hex4? (a b c d : Char) : Option Nat := do
  return (((← hex? a) * 16 + (← hex? b)) * 16 + (← hex? c)) * 16 + (← hex? d)

/-- A part of a text: a character, the first or the second half of a surrogate pair. -/
inductive Unit16 where
  /-- A character. -/
  | char (c : Char)
  /-- A first half, by its ten bits. -/
  | high (bits : Nat)
  /-- A second half, by its ten bits. -/
  | low (bits : Nat)
  deriving DecidableEq

/-- The part that an escape by number stands for. -/
def unitOf (n : Nat) : Unit16 :=
  if 0xD800 ≤ n ∧ n < 0xDC00 then .high (n - 0xD800)
  else if 0xDC00 ≤ n ∧ n < 0xE000 then .low (n - 0xDC00)
  else .char (Char.ofNat n)

/-- The characters of parts; the halves of a pair must follow each other. -/
def joinUnits : List Unit16 → Option (List Char)
  | [] => some []
  | .char c :: us => (joinUnits us).map (c :: ·)
  | .high h :: .low l :: us => (joinUnits us).map (Char.ofNat (0x10000 + h * 1024 + l) :: ·)
  | _ => none

/-- The character that an escape of one letter stands for. -/
def escaped? : Char → Option Char
  | '"' => some '"'
  | '\\' => some '\\'
  | '/' => some '/'
  | 'b' => some '\x08'
  | 'f' => some '\x0c'
  | 'n' => some '\n'
  | 'r' => some '\r'
  | 't' => some '\t'
  | _ => none

/-- Reads the parts of a text from behind its opening quote. -/
def readUnits : List Char → Option (List Unit16 × List Char)
  | [] => none
  | '"' :: cs => some ([], cs)
  | '\\' :: 'u' :: a :: b :: c :: d :: cs => do
    let n ← hex4? a b c d
    let (us, rest) ← readUnits cs
    return (unitOf n :: us, rest)
  | '\\' :: c :: cs => do
    let e ← escaped? c
    let (us, rest) ← readUnits cs
    return (.char e :: us, rest)
  | c :: cs =>
    if c = '\\' ∨ c.toNat < 0x20 then none
    else do
      let (us, rest) ← readUnits cs
      return (.char c :: us, rest)

/-- Reads a text from behind its opening quote. -/
def readText (cs : List Char) : Option (Option String × List Char) :=
  (readUnits cs).map fun r => ((joinUnits r.1).map String.ofList, r.2)

/-- The decimal digits at the start of a text, and what follows them. -/
def digits (cs : List Char) : List Char × List Char :=
  (cs.takeWhile Char.isDigit, cs.dropWhile Char.isDigit)

/-- Reads a fraction, if there is one; tells whether there was. -/
def readFraction : List Char → Option (Bool × List Char)
  | '.' :: cs => if (digits cs).1.isEmpty then none else some (true, (digits cs).2)
  | cs => some (false, cs)

/-- Reads an exponent, if there is one; tells whether there was. -/
def readExponent : List Char → Option (Bool × List Char)
  | c :: cs =>
    if c = 'e' ∨ c = 'E' then
      let unsigned := match cs with
        | '+' :: more => more
        | '-' :: more => more
        | more => more
      if (digits unsigned).1.isEmpty then none else some (true, (digits unsigned).2)
    else some (false, c :: cs)
  | [] => some (false, [])

/-- Reads a number. -/
def readNumber (cs : List Char) : Option (Json × List Char) := do
  let negative := cs.head? == some '-'
  let (whole, rest) := digits (if negative then cs.tail else cs)
  if whole.isEmpty || (whole.head? == some '0' && 1 < whole.length) then none
  else
    let (isFraction, rest) ← readFraction rest
    let (isPower, rest) ← readExponent rest
    let value := whole.foldl (fun n c => 10 * n + (c.toNat - '0'.toNat)) 0
    return (.number (if negative || isFraction || isPower then none else some value), rest)

mutual

/-- Reads a value; `rounds` bounds the recursion. -/
def readValue : Nat → List Char → Option (Json × List Char)
  | 0, _ => none
  | rounds + 1, cs =>
    match skip cs with
    | '"' :: rest => (readText rest).map fun r => (.text r.1, r.2)
    | '[' :: rest =>
      match skip rest with
      | ']' :: rest => some (.array [], rest)
      | rest => (readItems rounds rest).map fun r => (.array r.1, r.2)
    | '\x7b' :: rest =>
      match skip rest with
      | '\x7d' :: rest => some (.object [], rest)
      | rest => (readMembers rounds rest).map fun r => (.object r.1, r.2)
    | 'n' :: 'u' :: 'l' :: 'l' :: rest => some (.null, rest)
    | 't' :: 'r' :: 'u' :: 'e' :: rest => some (.boolean true, rest)
    | 'f' :: 'a' :: 'l' :: 's' :: 'e' :: rest => some (.boolean false, rest)
    | rest => readNumber rest

/-- Reads the items of a list, at least one, and the bracket behind them. -/
def readItems : Nat → List Char → Option (List Json × List Char)
  | 0, _ => none
  | rounds + 1, cs =>
    match readValue rounds cs with
    | none => none
    | some (v, rest) =>
      match skip rest with
      | ',' :: rest => (readItems rounds rest).map fun r => (v :: r.1, r.2)
      | ']' :: rest => some ([v], rest)
      | _ => none

/-- Reads named values, at least one, and the brace behind them. -/
def readMembers : Nat → List Char → Option (List (Option String × Json) × List Char)
  | 0, _ => none
  | rounds + 1, cs =>
    match skip cs with
    | '"' :: rest =>
      match readText rest with
      | none => none
      | some (name, rest) =>
        match skip rest with
        | ':' :: rest =>
          match readValue rounds rest with
          | none => none
          | some (v, rest) =>
            match skip rest with
            | ',' :: rest => (readMembers rounds rest).map fun r => ((name, v) :: r.1, r.2)
            | '\x7d' :: rest => some ([(name, v)], rest)
            | _ => none
        | _ => none
    | _ => none

end

/-- Reads a JSON text: one value, and nothing but blanks around it. -/
def parse (s : String) : Option Json :=
  match readValue (2 * s.toList.length + 2) s.toList with
  | some (v, rest) => if (skip rest).isEmpty then some v else none
  | none => none

/-! ## Printing -/

/-- The two hexadecimal digits of a control character. -/
def hexPair (n : Nat) : List Char := [Nat.digitChar (n / 16), Nat.digitChar (n % 16)]

/-- A character as it is printed in a text. -/
def printChar (c : Char) : List Char :=
  match c with
  | '"' => ['\\', '"']
  | '\\' => ['\\', '\\']
  | '\x08' => ['\\', 'b']
  | '\t' => ['\\', 't']
  | '\n' => ['\\', 'n']
  | '\x0c' => ['\\', 'f']
  | '\r' => ['\\', 'r']
  | c => if c.toNat < 0x20 then "\\u00".toList ++ hexPair c.toNat else [c]

/-- A text as it is printed, with its quotes. -/
def quote (s : String) : String := String.ofList ('"' :: (s.toList.flatMap printChar ++ ['"']))

/-- The indentation of a level. -/
def indent (depth : Nat) : String := String.ofList (List.replicate (2 * depth) ' ')

/-- Printed parts between brackets, each on a line of its own. -/
def bracketed (depth : Nat) (opening closing : String) (parts : List String) : String :=
  if parts.isEmpty then opening ++ closing
  else
    opening ++ "\n" ++ ",\n".intercalate (parts.map fun p => indent (depth + 1) ++ p) ++ "\n"
      ++ indent depth ++ closing

mutual

/-- A value printed at a depth, every part on a line of its own. -/
def printAt (depth : Nat) : Json → String
  | .null => "null"
  | .boolean b => if b then "true" else "false"
  | .number n => toString (n.getD 0)
  | .text s => quote (s.getD "")
  | .array items => bracketed depth "[" "]" (printItems (depth + 1) items)
  | .object members => bracketed depth "\x7b" "\x7d" (printMembers (depth + 1) members)

/-- The items of a list, printed. -/
def printItems (depth : Nat) : List Json → List String
  | [] => []
  | v :: vs => printAt depth v :: printItems depth vs

/-- Named values, printed with their names. -/
def printMembers (depth : Nat) : List (Option String × Json) → List String
  | [] => []
  | (name, v) :: ms =>
    (quote (name.getD "") ++ ": " ++ printAt depth v) :: printMembers depth ms

end

/-- A value as a JSON text, every part on a line of its own. -/
def print (v : Json) : String := printAt 0 v

/-- A text as a value. -/
def ofText (s : String) : Json := .text (some s)

/-- An optional text as a value. -/
def ofText? : Option String → Json
  | some s => ofText s
  | none => .null

/-- Named values as one value. -/
def ofMembers (members : List (String × Json)) : Json :=
  .object (members.map fun m => (some m.1, m.2))

end Json

end Netconf
