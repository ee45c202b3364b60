import Netconf.Path.Token.Reading

/-!
# From tokens to paths

The grammar of paths. A path is a single slash, or steps between slashes with an optional slash in
front. Expressions are read by precedence: there are five levels of binary operators, from `or`
which binds least to the sums, all joining from the left, then the sign in front of an operand, then
the operand itself. The recursion is bounded by a number of rounds that `rounds` computes from the
number of tokens: between two tokens no more rounds pass than there are levels.
-/

namespace Netconf

/-- A path expression as it was written, and its steps. -/
structure Path where
  /-- The expression. -/
  text : String
  /-- The steps. -/
  steps : List Path.Step
  deriving Inhabited

namespace Path

/-- What a reader returns: what it read, and the tokens behind it. -/
abbrev Read (α : Type) := Except PathError (α × List Token)

/-- The number of levels of binary operators. -/
def levels : Nat := 5

/-- The operator that a token is on a level. -/
def operator? : Nat → Token → Option BinaryOp
  | 0, .atom "or" => some .or
  | 1, .atom "and" => some .and
  | 2, .comparison .eq => some (.compare .eq)
  | 2, .comparison .ne => some (.compare .ne)
  | 3, .comparison .gt => some (.compare .gt)
  | 3, .comparison .ge => some (.compare .ge)
  | 3, .comparison .lt => some (.compare .lt)
  | 3, .comparison .le => some (.compare .le)
  | 4, .arithmetic .plus => some .plus
  | 4, .arithmetic .minus => some .minus
  | _, _ => none

/-- Reads a name, with the label in front of it if there is one. -/
def readQualified : List Token → Read (Option String × String)
  | .atom label :: .colon :: .atom name :: rest => .ok ((some label, name), rest)
  | .atom _ :: .colon :: rest => .error (.unexpected rest)
  | .atom name :: rest => .ok ((none, name), rest)
  | tokens => .error (.unexpected tokens)

mutual

/-- Reads an expression of a level: operands of the next level joined by the operators of this
one. The last level is that of signed operands. -/
def readLevel : Nat → Nat → List Token → Read Expr
  | 0, _, tokens => .error (.unexpected tokens)
  | rounds + 1, level, tokens =>
    if level < levels then
      match readLevel rounds (level + 1) tokens with
      | .error e => .error e
      | .ok (left, rest) => readJoined rounds level left rest
    else
      match tokens with
      | .arithmetic .minus :: rest =>
        match readLevel rounds level rest with
        | .error e => .error e
        | .ok (e, rest) => .ok (.neg e, rest)
      | _ => readOperand rounds tokens

/-- Reads what is joined to an expression by the operators of a level. -/
def readJoined : Nat → Nat → Expr → List Token → Read Expr
  | 0, _, _, tokens => .error (.unexpected tokens)
  | _ + 1, _, left, [] => .ok (left, [])
  | rounds + 1, level, left, token :: rest =>
    match operator? level token with
    | none => .ok (left, token :: rest)
    | some op =>
      match readLevel rounds (level + 1) rest with
      | .error e => .error e
      | .ok (right, rest) => readJoined rounds level (.binary op left right) rest

/-- Reads an operand: an expression in brackets, a literal, an attribute, a call or a name. -/
def readOperand : Nat → List Token → Read Expr
  | 0, tokens => .error (.unexpected tokens)
  | rounds + 1, tokens =>
    match tokens with
    | .openParen :: rest =>
      match readLevel rounds 0 rest with
      | .error e => .error e
      | .ok (e, .closeParen :: rest) => .ok (e, rest)
      | .ok (_, rest) => .error (.unexpected rest)
    | .text s :: rest => .ok (.literal (.text s), rest)
    | .integer i :: rest => .ok (.literal (.integer i), rest)
    | .decimal x :: rest => .ok (.literal (.decimal x), rest)
    | .attribute name :: rest => .ok (.attribute name, rest)
    | .atom name :: .openParen :: rest =>
      match Function.ofName? name with
      | none => .error (.unknownFunction name)
      | some f =>
        match readArguments rounds rest with
        | .error e => .error e
        | .ok (arguments, rest) =>
          if f.accepts arguments.length then .ok (.call f arguments, rest)
          else .error (.argumentCount name)
    | _ =>
      match readQualified tokens with
      | .error e => .error e
      | .ok ((label, name), rest) => .ok (.child label name, rest)

/-- Reads the arguments of a call and the bracket behind them. -/
def readArguments : Nat → List Token → Read (List Expr)
  | 0, tokens => .error (.unexpected tokens)
  | rounds + 1, tokens =>
    match tokens with
    | .closeParen :: rest => .ok ([], rest)
    | _ =>
      match readList rounds tokens with
      | .error e => .error e
      | .ok (arguments, .closeParen :: rest) => .ok (arguments, rest)
      | .ok (_, rest) => .error (.unexpected rest)

/-- Reads expressions between commas, at least one. -/
def readList : Nat → List Token → Read (List Expr)
  | 0, tokens => .error (.unexpected tokens)
  | rounds + 1, tokens =>
    match readLevel rounds 0 tokens with
    | .error e => .error e
    | .ok (e, .comma :: rest) =>
      match readList rounds rest with
      | .error e => .error e
      | .ok (es, rest) => .ok (e :: es, rest)
    | .ok (e, rest) => .ok ([e], rest)

end

/-- Enough rounds for reading expressions from a list of tokens. -/
def rounds (tokens : List Token) : Nat := 10 * tokens.length + 10

/-- Reads predicates in square brackets as long as there are any. -/
def readPredicates : Nat → List Token → Read (List Expr)
  | 0, tokens => .error (.unexpected tokens)
  | n + 1, .openBracket :: rest =>
    match readList (rounds rest) rest with
    | .error e => .error e
    | .ok (es, .closeBracket :: rest) =>
      match readPredicates n rest with
      | .error e => .error e
      | .ok (more, rest) => .ok (es ++ more, rest)
    | .ok (_, rest) => .error (.unexpected rest)
  | _ + 1, tokens => .ok ([], tokens)

/-- The axis of a name that stands in front of two colons. -/
def axis? : String → Option Axis
  | "child" => some .child
  | "self" => some .self
  | "parent" => some .parent
  | _ => none

/-- Reads a step up to its predicates. -/
def readTest : List Token → Read Step
  | .dot :: rest => .ok ({ axis := .self }, rest)
  | .dotDot :: rest => .ok ({ axis := .parent }, rest)
  | .atom name :: .colonColon :: rest =>
    match axis? name with
    | none => .error (.axis name)
    | some axis =>
      match readQualified rest with
      | .error e => .error e
      | .ok ((label, name), rest) => .ok ({ axis, label, name := some name }, rest)
  | tokens =>
    match readQualified tokens with
    | .error e => .error e
    | .ok ((label, name), rest) => .ok ({ axis := .child, label, name := some name }, rest)

/-- Reads a step. -/
def readStep (tokens : List Token) : Read Step :=
  match readTest tokens with
  | .error e => .error e
  | .ok (step, rest) =>
    match readPredicates (rest.length + 1) rest with
    | .error e => .error e
    | .ok (predicates, rest) => .ok ({ step with predicates }, rest)

/-- Two slashes abbreviate an axis that is not supported. -/
def descendantAxis : PathError := .axis "descendant-or-self"

/-- Reads steps between slashes up to the end, at most `n`. -/
def readSteps : Nat → List Token → Except PathError (List Step)
  | 0, tokens => .error (.unexpected tokens)
  | _ + 1, .slashSlash :: _ => .error descendantAxis
  | n + 1, tokens =>
    match readStep tokens with
    | .error e => .error e
    | .ok (step, []) => .ok [step]
    | .ok (step, .slash :: rest) =>
      match readSteps n rest with
      | .error e => .error e
      | .ok steps => .ok (step :: steps)
    | .ok (_, .slashSlash :: _) => .error descendantAxis
    | .ok (_, rest) => .error (.unexpected rest)

/-- The steps that a list of tokens writes. -/
def parseTokens : List Token → Except PathError (List Step)
  | [] => .error .empty
  | [.slash] => .ok [.toRoot]
  | .slash :: rest =>
    match readSteps (rest.length + 1) rest with
    | .error e => .error e
    | .ok steps => .ok (.toRoot :: steps)
  | tokens => readSteps (tokens.length + 1) tokens

/-- Reads a path expression. -/
def parse (text : String) : Except PathError Path :=
  match tokensOf text with
  | .error e => .error e
  | .ok tokens =>
    match parseTokens tokens with
    | .error e => .error e
    | .ok steps => .ok ⟨text, steps⟩

end Path

end Netconf
