import Netconf.Binary64.Text

/-!
# Tokens of path expressions

The words of the path language and how they are written. Names may hold any character behind a
backslash; everything else is ASCII.
-/

namespace Netconf.Path

/-- The comparison operators. -/
inductive Comparison where
  /-- Equal. -/
  | eq
  /-- Not equal. -/
  | ne
  /-- Greater. -/
  | gt
  /-- Greater or equal. -/
  | ge
  /-- Less. -/
  | lt
  /-- Less or equal. -/
  | le
  deriving DecidableEq, Inhabited

/-- The sign of a comparison. -/
def Comparison.sign : Comparison → String
  | .eq => "="
  | .ne => "!="
  | .gt => ">"
  | .ge => ">="
  | .lt => "<"
  | .le => "<="

/-- The arithmetic operators. -/
inductive Arithmetic where
  /-- The sign `+`. -/
  | plus
  /-- The sign `-`. -/
  | minus
  /-- The sign `*`, which no expression uses. -/
  | times
  deriving DecidableEq, Inhabited

/-- The sign of an arithmetic operator. -/
def Arithmetic.sign : Arithmetic → String
  | .plus => "+"
  | .minus => "-"
  | .times => "*"

/-- The tokens. -/
inductive Token where
  /-- One slash. -/
  | slash
  /-- Two slashes. -/
  | slashSlash
  /-- One dot. -/
  | dot
  /-- Two dots. -/
  | dotDot
  /-- One colon. -/
  | colon
  /-- Two colons. -/
  | colonColon
  /-- An arithmetic operator. -/
  | arithmetic (op : Arithmetic)
  /-- A comparison operator. -/
  | comparison (op : Comparison)
  /-- A name, a keyword or the name of a function. -/
  | atom (name : String)
  /-- The name of an attribute, written behind an at sign. -/
  | attribute (name : String)
  /-- An integer. -/
  | integer (i : Int)
  /-- A number with a fraction. -/
  | decimal (x : Binary64)
  /-- A text between quotes. -/
  | text (s : String)
  /-- The bracket `(`. -/
  | openParen
  /-- The bracket `)`. -/
  | closeParen
  /-- The bracket `[`. -/
  | openBracket
  /-- The bracket `]`. -/
  | closeBracket
  /-- A comma. -/
  | comma
  deriving DecidableEq, Inhabited

/-- How an error message shows a token. -/
def Token.shown : Token → String
  | .slash => "/"
  | .slashSlash => "//"
  | .dot => "."
  | .dotDot => ".."
  | .colon => ":"
  | .colonColon => "::"
  | .arithmetic op => op.sign
  | .comparison op => op.sign
  | .atom name => name
  | .attribute name => "@" ++ name
  | .integer i => toString i
  | .decimal x => x.text .plain
  | .text s => "'" ++ s ++ "'"
  | .openParen => "("
  | .closeParen => ")"
  | .openBracket => "["
  | .closeBracket => "]"
  | .comma => ","

end Netconf.Path
