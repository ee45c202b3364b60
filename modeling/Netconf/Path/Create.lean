import Netconf.Path.Query
import Netconf.Tree.Build

/-!
# Creating paths

A path can also be built: each step makes a node below the one before, and each predicate that
equates a child or an attribute with a literal assigns it. Building changes a tree step by step, and
what was made before a failure stays in its slots, standing alone, so the operations here return the
tree also when they fail.
-/

namespace Netconf

namespace Path

/-- Which nodes that are there already a created path uses. -/
inductive Reuse where
  /-- None is used: the whole path is built anew. -/
  | none
  /-- The part of the path that is there is used, and must not lead to more than one node. -/
  | single
  /-- The part of the path that is there is used, and the rest built below every node that it
  leads to. -/
  | every
  deriving DecidableEq, Inhabited

/-- Assigns a child or an attribute of a new node as a predicate says. -/
def assign (bindings : Bindings) (id : NodeId) (predicate : Expr) : Build Unit :=
  match predicate with
  | .binary (.compare .eq) (.child label name) (.literal l) => do
    let t ← get
    let ns : String ←
      match label with
      | none => pure ((t.ns? id).getD "")
      | some p =>
        match bindings.ns? p with
        | some ns => pure ns
        | none => throw (.create (.unboundLabel p))
    let child ← Build.create { ns := some ns, name := name, value := some (.text l.assigned) }
    Build.append id child
  | .binary (.compare .eq) (.attribute name) (.literal l) =>
    Build.modifyElement id fun e => e.setAttribute name l.assigned
  | e => throw (.create (.illegal e))

/-- Assigns what the predicates of a step say, in order. -/
def assignAll (bindings : Bindings) (id : NodeId) : List Expr → Build Unit
  | [] => pure ()
  | e :: es => do
    assign bindings id e
    assignAll bindings id es

/-- The namespace of a new node: of the step's label, or else that of the parent, or else the
default one. -/
def Step.nsFor (step : Step) (bindings : Bindings) (t : Tree) (parent : Option NodeId) :
    Option String :=
  match step.label, parent with
  | some p, _ => bindings.ns? p
  | none, some parent => t.ns? parent
  | none, none => bindings.ns? ""

/-- Makes the node of a step; it stands alone. -/
def Step.build (step : Step) (bindings : Bindings) (parent : Option NodeId) : Build NodeId :=
  match step.axis, step.name with
  | .child, some name => do
    match step.nsFor bindings (← get) parent with
    | none => throw (.create (.unboundLabel (step.label.getD "")))
    | some ns =>
      let id ← Build.create { ns := some ns, name := name }
      assignAll bindings id step.predicates
      return id
  | _, _ => throw (.create .axis)

/-- Makes the nodes of steps below a node; returns the last one. -/
def buildBelow (bindings : Bindings) : List Step → NodeId → Build NodeId
  | [], parent => pure parent
  | step :: steps, parent => do
    let id ← step.build bindings (some parent)
    Build.append parent id
    buildBelow bindings steps id

/-- Makes the nodes of the same steps below several nodes, with the bindings of each. -/
def buildBelowAll (steps : List Step) : List NodeId → Build (List NodeId)
  | [] => pure []
  | parent :: parents => do
    let t ← get
    let last ← buildBelow (t.bindingsAt parent) steps parent
    let others ← buildBelowAll steps parents
    return last :: others

/-- The steps of a path that make nodes: all but those to the document. They must all go to
children. -/
def stepsToCreate (p : Path) : Except CreateError (List Step) :=
  match p.steps.filter fun s => s.axis != .root with
  | [] => .error (.nothing p.text)
  | steps => if steps.all fun s => s.axis == .child then .ok steps else .error .axis

/-- Follows steps from a set of nodes as long as they select any; returns the last set and the
steps that are left. -/
def longestMatch (t : Tree) :
    List Step → List NodeId → Except PathError (List NodeId × List Step)
  | [], ids => .ok (ids, [])
  | step :: steps, ids =>
    match step.select t ids with
    | .error e => .error e
    | .ok [] => .ok (ids, step :: steps)
    | .ok found => longestMatch t steps found

/-- An expression with the steps that it makes nodes for. -/
def parseForCreate (text : String) : Except Error (List Step) :=
  match parse text with
  | .error e => .error (.path e)
  | .ok p =>
    match p.stepsToCreate with
    | .error e => .error (.create e)
    | .ok steps => .ok steps

/-- Makes the nodes of steps below a node as far as none are there that may be used. -/
def buildSteps (id : NodeId) (reuse : Reuse) (text : String) (steps : List Step) :
    Build (List NodeId) := do
  let t ← get
  match reuse with
  | .none =>
    let last ← buildBelow (t.bindingsAt id) steps id
    return [last]
  | reuse =>
    match longestMatch t steps [id] with
    | .error e => throw (.path e)
    | .ok (found, []) => return found
    | .ok (found, rest) =>
      if reuse = .single ∧ 1 < found.length then throw (.create (.ambiguous text))
      else buildBelowAll rest found

/-- Creates a path below a node; returns the nodes at its end. The given bindings are made on the
node first. -/
def create (id : NodeId) (reuse : Reuse) (bindings : Option Bindings) (text : String) :
    Build (List NodeId) :=
  match parseForCreate text with
  | .error e => throw e
  | .ok steps => do
    Build.modifyElement id fun e => e.bindAll (bindings.getD {})
    buildSteps id reuse text steps

/-- Creates a path that stands alone; returns its top node. A first step without label is in the
default namespace of the bindings. -/
def createAlone (bindings : Bindings) (text : String) : Build NodeId :=
  match parseForCreate text with
  | .error e => throw e
  | .ok [] => throw (.create .empty)
  | .ok (step :: steps) => do
    let top ← step.build bindings none
    let _ ← buildBelow bindings steps top
    return top

end Path

end Netconf
