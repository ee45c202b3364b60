import Netconf.Path.Token.Basic
import Netconf.Text.Shown

/-!
# Path expressions

The syntax trees of the path language. A path is a list of steps; a step walks along an axis,
tests a name and filters by predicates; a predicate is an expression over the children and
attributes of a node.
-/

namespace Netconf.Path

/-- The directions of a step. -/
inductive Axis where
  /-- To the children. -/
  | child
  /-- To the node itself. -/
  | self
  /-- To the parent. -/
  | parent
  /-- To the document above the top of the tree. -/
  | root
  deriving DecidableEq, Inhabited

/-- The operators between two expressions. -/
inductive BinaryOp where
  /-- Either. -/
  | or
  /-- Both. -/
  | and
  /-- A comparison. -/
  | compare (c : Comparison)
  /-- A sum. -/
  | plus
  /-- A difference. -/
  | minus
  deriving DecidableEq, Inhabited

/-- The functions of the language. -/
inductive Function where
  /-- The text of a value. -/
  | string
  /-- The number of a value. -/
  | number
  /-- The truth of a value. -/
  | boolean
  /-- The opposite of the truth of a value. -/
  | not
  /-- True. -/
  | true
  /-- False. -/
  | false
  /-- The position of the node among the candidates. -/
  | position
  /-- The number of candidates. -/
  | last
  /-- The number of children with a name. -/
  | count
  /-- Texts joined together. -/
  | concat
  deriving DecidableEq, Inhabited

namespace Function

/-- Every function. -/
def all : List Function :=
  [string, number, boolean, not, true, false, position, last, count, concat]

/-- The name of a function. -/
def name : Function → String
  | string => "string"
  | number => "number"
  | boolean => "boolean"
  | not => "not"
  | true => "true"
  | false => "false"
  | position => "position"
  | last => "last"
  | count => "count"
  | concat => "concat"

/-- The function with a name. -/
def ofName? (s : String) : Option Function := all.find? fun f => f.name == s

/-- May the function be called with this many arguments? -/
def accepts (f : Function) (count : Nat) : Bool :=
  match f with
  | string | number | boolean => decide (count ≤ 1)
  | not | Function.count => decide (count = 1)
  | true | false | position | last => decide (count = 0)
  | concat => decide (2 ≤ count)

end Function

/-- Literal operands. -/
inductive Literal where
  /-- A text. -/
  | text (s : String)
  /-- An integer. -/
  | integer (i : Int)
  /-- A number with a fraction. -/
  | decimal (x : Binary64)
  deriving DecidableEq, Inhabited

/-- The text that a created path assigns for a literal. -/
def Literal.assigned : Literal → String
  | .text s => s
  | .integer i => toString i
  | .decimal x => x.text .plain

/-- The expressions of predicates. -/
inductive Expr where
  /-- The value of the first child with a name. -/
  | child (label : Option String) (name : String)
  /-- The value of an attribute. -/
  | attribute (name : String)
  /-- A literal. -/
  | literal (l : Literal)
  /-- Two operands joined by an operator. -/
  | binary (op : BinaryOp) (left right : Expr)
  /-- The opposite of a number. -/
  | neg (e : Expr)
  /-- The call of a function. -/
  | call (f : Function) (arguments : List Expr)
  deriving Inhabited

/-- One step of a path. -/
structure Step where
  /-- The direction. -/
  axis : Axis
  /-- The label in front of the name, if there is one. -/
  label : Option String := none
  /-- The name that nodes must have; `.` and `..` have none. -/
  name : Option String := none
  /-- The predicates in order. -/
  predicates : List Expr := []
  deriving Inhabited

/-- The step to the document. -/
def Step.toRoot : Step := { axis := .root }

/-! ## How error messages show expressions -/

/-- The name of an operator as error messages show it. -/
def BinaryOp.shown : BinaryOp → String
  | .or => "Or"
  | .and => "And"
  | .compare .eq => "Eq"
  | .compare .ne => "Ne"
  | .compare .gt => "Gt"
  | .compare .ge => "Ge"
  | .compare .lt => "Lt"
  | .compare .le => "Le"
  | .plus => "Plus"
  | .minus => "Minus"

/-- The name of a function as error messages show it. -/
def Function.shown : Function → String
  | .string => "String"
  | .number => "Number"
  | .boolean => "Boolean"
  | .not => "Not"
  | .true => "True"
  | .false => "False"
  | .position => "Position"
  | .last => "Last"
  | .count => "Count"
  | .concat => "Concat"

/-- An optional text as error messages show it. -/
def shownOption : Option String → String
  | none => "None"
  | some s => "Some(" ++ Text.shown s ++ ")"

/-- A literal as error messages show it. -/
def Literal.shown : Literal → String
  | .text s => "Str(" ++ Text.shown s ++ ")"
  | .integer i => "Int(" ++ toString i ++ ")"
  | .decimal x => "Float(" ++ x.text .marked ++ ")"

mutual

/-- An expression as error messages show it. -/
def Expr.shown : Expr → String
  | .child label name =>
    "Child \x7b prefix: " ++ shownOption label ++ ", name: " ++ Text.shown name ++ " \x7d"
  | .attribute name => "Attr(" ++ Text.shown name ++ ")"
  | .literal l => "Literal(" ++ l.shown ++ ")"
  | .binary op l r => "Binary(" ++ op.shown ++ ", " ++ l.shown ++ ", " ++ r.shown ++ ")"
  | .neg e => "Neg(" ++ e.shown ++ ")"
  | .call f arguments =>
    "Call(" ++ f.shown ++ ", [" ++ ", ".intercalate (Expr.shownAll arguments) ++ "])"

/-- The expressions of a list, each as error messages show it. -/
def Expr.shownAll : List Expr → List String
  | [] => []
  | e :: es => e.shown :: Expr.shownAll es

end

end Netconf.Path
