import Netconf.Text.Extending
import Netconf.Text.Ignorable
import Netconf.Text.Printable

/-!
# Texts shown in error messages

An error message shows a text between double quotes. Quotes and backslashes are escaped, the common
control characters have short escapes, and a character that is not printable, may be invisible or
would change the character before it is shown by its number.
-/

namespace Netconf.Text

/-- Is the character a halfwidth voiced or semi-voiced sound mark? These two extend the character
before them, but have a width of their own. -/
def isHalfwidthMark (c : Char) : Bool := c == '\uFF9E' || c == '\uFF9F'

/-- Is the character shown by its number? -/
def isNumbered (c : Char) : Bool :=
  !isPrintable c || isIgnorable c || (isExtending c && !isHalfwidthMark c)

/-- How one character is shown between double quotes. -/
def shownChar (c : Char) : List Char :=
  match c with
  | '"' => ['\\', '"']
  | '\\' => ['\\', '\\']
  | '\n' => ['\\', 'n']
  | '\r' => ['\\', 'r']
  | '\t' => ['\\', 't']
  | '\x00' => ['\\', '0']
  | c =>
    if isNumbered c then "\\u\x7b".toList ++ Nat.toDigits 16 c.toNat ++ ['\x7d'] else [c]

/-- A text as an error message shows it, with its quotes. -/
def shown (s : String) : String :=
  String.ofList ('"' :: (s.toList.flatMap shownChar ++ ['"']))

end Netconf.Text
