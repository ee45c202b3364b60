import Netconf.Path.Syntax
import Netconf.Tree.Element

/-!
# Operands

What the evaluation of an expression yields, and how error messages show it.
-/

namespace Netconf.Path

/-- The result of an expression. -/
inductive Operand where
  /-- A child, attribute or value is missing. -/
  | null
  /-- A truth value. -/
  | boolean (b : Bool)
  /-- An integer of 64 bits. -/
  | integer (i : Int)
  /-- A floating-point number. -/
  | decimal (x : Binary64)
  /-- A text. -/
  | text (s : String)
  /-- A list of nodes. -/
  | nodes (ids : List NodeId)
  deriving DecidableEq, Inhabited

namespace Operand

/-- The operand that a value of a tree is. -/
def ofValue : Value → Operand
  | .integer i => .integer i
  | .decimal x => .decimal x
  | .boolean b => .boolean b
  | v => .text v.wire

/-- The operand that an optional value of a tree is. -/
def ofValue? : Option Value → Operand
  | some v => ofValue v
  | none => .null

/-- Is it a number? -/
def isNumber : Operand → Bool
  | .integer _ => true
  | .decimal _ => true
  | _ => false

/-- The truth of an operand. -/
def truth : Operand → Bool
  | .null => false
  | .boolean b => b
  | .integer i => i != 0
  | .decimal x => !x.isZero && !x.isNaN
  | .text s => s != ""
  | .nodes ids => !ids.isEmpty

/-- An operand as error messages show it. -/
def shown : Operand → String
  | .null => "Null"
  | .boolean b => if b then "Bool(true)" else "Bool(false)"
  | .integer i => "Int(" ++ toString i ++ ")"
  | .decimal x => "Float(" ++ x.text .marked ++ ")"
  | .text s => "Str(" ++ Text.shown s ++ ")"
  | .nodes ids =>
    "Nodes([" ++ ", ".intercalate (ids.map fun i => "NodeId(" ++ toString i ++ ")") ++ "])"

end Operand

end Netconf.Path
