/-!
# Escapes of XML texts

Writing escapes the characters that would be markup; reading replaces references by the characters
they stand for. `unescape_escape` says that reading undoes writing.
-/

namespace Netconf.Xml

/-- How a character is written in a text, or in the value of an attribute where quotes count. -/
def escapeChar (quotes : Bool) (c : Char) : List Char :=
  match c with
  | '&' => "&amp;".toList
  | '<' => "&lt;".toList
  | '>' => "&gt;".toList
  | '"' => if quotes then "&quot;".toList else ['"']
  | c => [c]

/-- A list of characters with its markup escaped. -/
def escape (quotes : Bool) (cs : List Char) : List Char := cs.flatMap (escapeChar quotes)

/-- A text between tags. -/
def escapeText (s : String) : String := String.ofList (escape false s.toList)

/-- The value of an attribute between double quotes. -/
def escapeAttribute (s : String) : String := String.ofList (escape true s.toList)

/-- The value of a digit of a base up to sixteen. -/
def digit? (base : Nat) (c : Char) : Option Nat :=
  let value : Option Nat :=
    if '0' ≤ c ∧ c ≤ '9' then some (c.toNat - '0'.toNat)
    else if 'a' ≤ c ∧ c ≤ 'f' then some (c.toNat - 'a'.toNat + 10)
    else if 'A' ≤ c ∧ c ≤ 'F' then some (c.toNat - 'A'.toNat + 10)
    else none
  value.bind fun v => if v < base then some v else none

/-- The number that `acc` becomes when the digits are written behind it. -/
def numberFrom (base acc : Nat) : List Char → Option Nat
  | [] => some acc
  | c :: cs => (digit? base c).bind fun d => numberFrom base (base * acc + d) cs

/-- The character with the number that a non-empty list of digits writes. Zero and the numbers of
no character are refused. -/
def numbered? (base : Nat) (cs : List Char) : Option Char :=
  if cs.isEmpty then none
  else
    (numberFrom base 0 cs).bind fun n =>
      if n = 0 then none
      else if h : n.isValidChar then some (Char.ofNatAux n h) else none

/-- The character that a reference stands for, given the text between `&` and `;`. -/
def referenced? : List Char → Option Char
  | '#' :: 'x' :: cs => numbered? 16 cs
  | '#' :: cs => numbered? 10 cs
  | ['l', 't'] => some '<'
  | ['g', 't'] => some '>'
  | ['a', 'm', 'p'] => some '&'
  | ['a', 'p', 'o', 's'] => some '\''
  | ['q', 'u', 'o', 't'] => some '"'
  | _ => none

/-- Replaces references; `name` is the text of the reference being read, last character first. -/
def unescapeFrom : Option (List Char) → List Char → Option (List Char)
  | none, [] => some []
  | some _, [] => none
  | none, c :: cs =>
    if c = '&' then unescapeFrom (some []) cs else (unescapeFrom none cs).map (c :: ·)
  | some name, c :: cs =>
    if c = ';' then
      (referenced? name.reverse).bind fun r => (unescapeFrom none cs).map (r :: ·)
    else if c = '&' then none
    else unescapeFrom (some (c :: name)) cs

/-- The text with its references replaced; there is none if a reference is malformed. -/
def unescape (cs : List Char) : Option (List Char) := unescapeFrom none cs

/-- Reading undoes writing. -/
theorem unescape_escape (quotes : Bool) (cs : List Char) :
    unescape (escape quotes cs) = some cs := by
  induction cs with
  | nil => rfl
  | cons c cs ih =>
    have hcons : escape quotes (c :: cs) = escapeChar quotes c ++ escape quotes cs := rfl
    rw [hcons]
    simp only [unescape] at ih ⊢
    unfold escapeChar
    split
    -- each escaped character is one closed reference
    · simp [unescapeFrom, referenced?, ih]
    · simp [unescapeFrom, referenced?, ih]
    · simp [unescapeFrom, referenced?, ih]
    · cases quotes <;> simp [unescapeFrom, referenced?, ih]
    -- any other character stands for itself
    · simp_all [unescapeFrom]

end Netconf.Xml
