import Netconf.Path.Reading
import Netconf.Tree.Lineage

/-!
# Queries

Evaluating paths over a tree. A set of places moves from step to step; a place is a node, or the
document above the top node of a tree. Each step walks along its axis, keeps the nodes that pass
the name test, and filters them by its predicates one after the other. A predicate sees the nodes
that the predicates before it left over, and its position counts among those.
-/

namespace Netconf.Path

/-! ## Numbers -/

/-- A number of the path language. -/
inductive Number where
  /-- An integer of 64 bits. -/
  | integer (i : Int)
  /-- A floating-point number. -/
  | decimal (x : Binary64)
  deriving DecidableEq, Inhabited

namespace Number

/-- The number as a floating-point number. -/
def toBinary64 : Number → Binary64
  | .integer i => .ofInt i
  | .decimal x => x

/-- The number as an operand. -/
def operand : Number → Operand
  | .integer i => .integer i
  | .decimal x => .decimal x

/-- The number that a text writes: an integer, else a floating-point number, else no number. -/
def ofText (s : String) : Number :=
  let cs := Text.strip s.toList
  match Text.int64? cs with
  | some i => .integer i
  | none => .decimal ((Binary64.read? cs).getD .nan)

/-- How two numbers stand to each other; there is no answer when one of them is no number. -/
def compare? : Number → Number → Option Ordering
  | .integer i, .integer j => some (compare i j)
  | a, b => a.toBinary64.compare? b.toBinary64

end Number

/-! ## Operands -/

namespace Operand

/-- The text of a floating-point number in the path language: a whole number is written as an
integer of 64 bits, cut off at their ends. -/
def decimalText (x : Binary64) : String :=
  match x.toInt? with
  | some i => toString (max Text.int64Min (min Text.int64Max i))
  | none => x.text .plain

/-- The text of an operand. A list of nodes has the text of its first node's value. -/
def toText (t : Tree) : Operand → String
  | .null => ""
  | .boolean b => if b then "true" else "false"
  | .integer i => toString i
  | .decimal x => decimalText x
  | .text s => s
  | .nodes ids => ((ids.head?.bind t.value?).map Value.wire).getD ""

/-- The number of an operand. -/
def toNumber (t : Tree) : Operand → Number
  | .integer i => .integer i
  | .decimal x => .decimal x
  | .boolean b => .integer (if b then 1 else 0)
  | .text s => .ofText s
  | .nodes ids => .ofText (toText t (.nodes ids))
  | .null => .decimal .nan

/-- Is it a truth value? -/
def isBoolean : Operand → Bool
  | .boolean _ => true
  | _ => false

/-- Are two operands equal? A truth value compares truths, a number numbers, and else texts are
compared. A missing operand is equal to nothing. -/
def equals (t : Tree) (a b : Operand) : Bool :=
  if a.isBoolean || b.isBoolean then a.truth == b.truth
  else if a.isNumber || b.isNumber then
    (a.toNumber t).compare? (b.toNumber t) == some .eq
  else a.toText t == b.toText t

/-- Does an order fit an operator? -/
def fits : Comparison → Ordering → Bool
  | .eq, o => o == .eq
  | .ne, o => o != .eq
  | .gt, o => o == .gt
  | .ge, o => o != .lt
  | .lt, o => o == .lt
  | .le, o => o != .gt

/-- The result of a comparison. A missing operand differs from everything and has no order. -/
def compared (t : Tree) (c : Comparison) (a b : Operand) : Bool :=
  let missing := a == .null || b == .null
  match c with
  | .eq => !missing && equals t a b
  | .ne => missing || !equals t a b
  | c => !missing && ((a.toNumber t).compare? (b.toNumber t)).any (fits c)

/-- An integer result, which must fit into 64 bits. -/
def checked (i : Int) : Except PathError Operand :=
  if Text.fitsInt64 i then .ok (.integer i) else .error .overflow

/-- The sum or the difference of two operands; integers stay integers. -/
def combined (t : Tree) (name : String) (ofIntegers : Int → Int → Int)
    (ofDecimals : Binary64 → Binary64 → Binary64) (a b : Operand) : Except PathError Operand :=
  if a == .null then .error (.badOperand name a)
  else if b == .null then .error (.badOperand name b)
  else
    match a.toNumber t, b.toNumber t with
    | .integer i, .integer j => checked (ofIntegers i j)
    | x, y => .ok (.decimal (ofDecimals x.toBinary64 y.toBinary64))

/-- The opposite of an operand. -/
def negated (t : Tree) (a : Operand) : Except PathError Operand :=
  if a == .null then .error (.badOperand "neg" a)
  else
    match a.toNumber t with
    | .integer i => checked (-i)
    | .decimal x => .ok (.decimal x.neg)

end Operand

/-! ## Expressions -/

/-- A node that a predicate is asked about, among the candidates of its stage. -/
structure Situation where
  /-- The tree. -/
  tree : Tree
  /-- The node. -/
  node : NodeId
  /-- The nodes that the predicates before left over. -/
  candidates : List NodeId

namespace Situation

/-- The position of the node among the candidates, counted from one. -/
def position (s : Situation) : Int :=
  match s.candidates.idxOf? s.node with
  | some i => (i : Int) + 1
  | none => 0

/-- The children of the node with a name. A label must mean the namespace of the child where the
child stands; a label that means nothing there goes with a child without namespace. -/
def childrenNamed (s : Situation) (label : Option String) (name : String) : List NodeId :=
  (s.tree.children s.node).filter fun c =>
    s.tree.name c == name &&
      match label with
      | some l => s.tree.nsOf? c l == s.tree.ns? c
      | none => true

end Situation

mutual

/-- The operand that an expression yields. -/
def Expr.eval (s : Situation) : Expr → Except PathError Operand
  | .child label name =>
    .ok (.ofValue? ((s.childrenNamed label name).head?.bind s.tree.value?))
  | .attribute name =>
    match (s.tree.element s.node).attribute? name with
    | some a => .ok (.text a.value)
    | none => .ok .null
  | .literal (.text text) => .ok (.text text)
  | .literal (.integer i) => .ok (.integer i)
  | .literal (.decimal x) => .ok (.decimal x)
  | .neg e =>
    match e.eval s with
    | .error err => .error err
    | .ok a => a.negated s.tree
  | .binary .or l r =>
    match l.eval s with
    | .error err => .error err
    | .ok a =>
      if a.truth then .ok (.boolean true)
      else
        match r.eval s with
        | .error err => .error err
        | .ok b => .ok (.boolean b.truth)
  | .binary .and l r =>
    match l.eval s with
    | .error err => .error err
    | .ok a =>
      if a.truth then
        match r.eval s with
        | .error err => .error err
        | .ok b => .ok (.boolean b.truth)
      else .ok (.boolean false)
  | .binary (.compare c) l r =>
    match l.eval s with
    | .error err => .error err
    | .ok a =>
      match r.eval s with
      | .error err => .error err
      | .ok b => .ok (.boolean (Operand.compared s.tree c a b))
  | .binary .plus l r =>
    match l.eval s with
    | .error err => .error err
    | .ok a =>
      match r.eval s with
      | .error err => .error err
      | .ok b => Operand.combined s.tree "plus" (· + ·) Binary64.add a b
  | .binary .minus l r =>
    match l.eval s with
    | .error err => .error err
    | .ok a =>
      match r.eval s with
      | .error err => .error err
      | .ok b => Operand.combined s.tree "minus" (· - ·) Binary64.sub a b
  | .call .true _ => .ok (.boolean true)
  | .call .false _ => .ok (.boolean false)
  | .call .position _ => .ok (.integer s.position)
  | .call .last _ => .ok (.integer s.candidates.length)
  | .call .string arguments =>
    match Expr.evalFirst s arguments with
    | .error err => .error err
    | .ok a => .ok (.text (a.toText s.tree))
  | .call .number arguments =>
    match Expr.evalFirst s arguments with
    | .error err => .error err
    | .ok a => .ok (a.toNumber s.tree).operand
  | .call .boolean arguments =>
    match Expr.evalFirst s arguments with
    | .error err => .error err
    | .ok a => .ok (.boolean a.truth)
  | .call .not arguments =>
    match Expr.evalFirst s arguments with
    | .error err => .error err
    | .ok a => .ok (.boolean !a.truth)
  | .call .concat arguments =>
    match Expr.evalJoined s arguments with
    | .error err => .error err
    | .ok text => .ok (.text text)
  | .call .count [] => .error .nothingToCount
  | .call .count (.child label name :: _) =>
    .ok (.integer (s.childrenNamed label name).length)
  | .call .count (e :: _) =>
    match e.eval s with
    | .error err => .error err
    | .ok (.nodes ids) => .ok (.integer ids.length)
    | .ok a => .error (.badOperand "count" a)

/-- The operand of the first argument, or the value of the node where there is none. -/
def Expr.evalFirst (s : Situation) : List Expr → Except PathError Operand
  | [] => .ok (.ofValue? (s.tree.value? s.node))
  | e :: _ => e.eval s

/-- The texts of all arguments joined together. -/
def Expr.evalJoined (s : Situation) : List Expr → Except PathError String
  | [] => .ok ""
  | e :: es =>
    match e.eval s with
    | .error err => .error err
    | .ok a =>
      match Expr.evalJoined s es with
      | .error err => .error err
      | .ok text => .ok (a.toText s.tree ++ text)

end

/-- Does a node satisfy a predicate? A number asks for a position, anything else for truth. -/
def Expr.holds (e : Expr) (s : Situation) : Except PathError Bool :=
  match e.eval s with
  | .error err => .error err
  | .ok (.integer i) => .ok (i == s.position)
  | .ok (.decimal x) => .ok (x.compare? (.ofInt s.position) == some .eq)
  | .ok a => .ok a.truth

/-! ## Steps -/

/-- The nodes of a list that satisfy a predicate among the candidates, in order. -/
def satisfying (t : Tree) (e : Expr) (candidates : List NodeId) :
    List NodeId → Except PathError (List NodeId)
  | [] => .ok []
  | id :: ids =>
    match e.holds ⟨t, id, candidates⟩ with
    | .error err => .error err
    | .ok keep =>
      match satisfying t e candidates ids with
      | .error err => .error err
      | .ok rest => .ok (if keep then id :: rest else rest)

/-- The nodes that are left over by predicates one after the other. -/
def filtered (t : Tree) : List Expr → List NodeId → Except PathError (List NodeId)
  | [], ids => .ok ids
  | e :: es, ids =>
    match satisfying t e ids ids with
    | .error err => .error err
    | .ok rest => filtered t es rest

/-- A place of a query. -/
inductive Place where
  /-- The document above a top node. -/
  | document (top : NodeId)
  /-- A node. -/
  | node (id : NodeId)
  deriving DecidableEq, Inhabited

namespace Place

/-- The node of a place. -/
def node? : Place → Option NodeId
  | document _ => none
  | node id => some id

/-- The document of a place. -/
def toDocument (t : Tree) : Place → Place
  | document top => .document top
  | node id => .document (t.topOf id)

end Place

/-- Adds a place to the end of a list unless it is there already. -/
def addPlace (places : List Place) (p : Place) : List Place :=
  if places.contains p then places else places ++ [p]

namespace Step

/-- Does a node pass the name test? A label must mean the node's namespace where the node stands. -/
def accepts (step : Step) (t : Tree) (id : NodeId) : Bool :=
  match step.name with
  | none => true
  | some name =>
    t.name id == name &&
      match step.label with
      | some label => (t.nsOf? id label).isSome && t.nsOf? id label == t.ns? id
      | none => true

/-- The nodes of a list that pass the name test and the predicates, as places. -/
def filter (step : Step) (t : Tree) (ids : List NodeId) : Except PathError (List Place) :=
  match filtered t step.predicates (ids.filter (step.accepts t)) with
  | .error err => .error err
  | .ok rest => .ok (rest.map .node)

/-- Where a step leads from one place. -/
def follow (step : Step) (t : Tree) (place : Place) : Except PathError (List Place) :=
  match step.axis, place with
  | .root, p => .ok [p.toDocument t]
  | .self, .document top => .ok (if step.name.isNone then [.document top] else [])
  | .self, .node id => step.filter t [id]
  | .child, .document top => step.filter t [top]
  | .child, .node id => step.filter t (t.children id)
  | .parent, .document _ => .ok []
  | .parent, .node id =>
    match t.parent? id with
    | some p => step.filter t [p]
    | none => .ok []

/-- Where a step leads from several places, in order. -/
def followAll (step : Step) (t : Tree) : List Place → Except PathError (List Place)
  | [] => .ok []
  | p :: ps =>
    match step.follow t p with
    | .error err => .error err
    | .ok found =>
      match followAll step t ps with
      | .error err => .error err
      | .ok more => .ok (found ++ more)

/-- Where a step leads from a set of places. Places of the same tree share one document. -/
def apply (step : Step) (t : Tree) (places : List Place) : Except PathError (List Place) :=
  if step.axis = .root then .ok ((places.map (Place.toDocument t)).foldl addPlace [])
  else step.followAll t places

/-- The nodes that a step selects from a list of nodes. -/
def select (step : Step) (t : Tree) (ids : List NodeId) : Except PathError (List NodeId) :=
  match step.apply t (ids.map .node) with
  | .error err => .error err
  | .ok places => .ok (places.filterMap Place.node?)

end Step

/-- Where steps lead one after the other. -/
def walk (t : Tree) : List Step → List Place → Except PathError (List Place)
  | [], places => .ok places
  | step :: steps, places =>
    match step.apply t places with
    | .error err => .error err
    | .ok next => walk t steps next

/-- The nodes that steps select from a node. -/
def evalSteps (t : Tree) (steps : List Step) (id : NodeId) : Except PathError (List NodeId) :=
  match walk t steps [.node id] with
  | .error err => .error err
  | .ok places => .ok (places.filterMap Place.node?)

/-- The nodes that a path selects from a node. -/
def eval (p : Path) (t : Tree) (id : NodeId) : Except PathError (List NodeId) :=
  evalSteps t p.steps id

end Netconf.Path

namespace Netconf.Tree

/-- The nodes that a path expression selects from a node. -/
def query (t : Tree) (id : NodeId) (path : String) : Except Error (List NodeId) :=
  match Path.parse path with
  | .error err => .error (.path err)
  | .ok p =>
    match p.eval t id with
    | .error err => .error (.path err)
    | .ok ids => .ok ids

/-- The first node that a path expression selects. -/
def queryFirst (t : Tree) (id : NodeId) (path : String) : Except Error (Option NodeId) :=
  (t.query id path).map List.head?

/-- The last node that a path expression selects. -/
def queryLast (t : Tree) (id : NodeId) (path : String) : Except Error (Option NodeId) :=
  (t.query id path).map List.getLast?

/-- Does a path expression select any node? -/
def queryExists (t : Tree) (id : NodeId) (path : String) : Except Error Bool :=
  (t.query id path).map fun ids => !ids.isEmpty

/-- The value of the first node that a path expression selects. -/
def queryValue (t : Tree) (id : NodeId) (path : String) : Except Error (Option Value) :=
  (t.query id path).map fun ids => ids.head?.bind t.value?

/-- The values of the nodes that a path expression selects; nodes without value are left out. -/
def queryValues (t : Tree) (id : NodeId) (path : String) : Except Error (List Value) :=
  (t.query id path).map fun ids => ids.filterMap t.value?

end Netconf.Tree
