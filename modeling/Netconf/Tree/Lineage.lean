import Netconf.Tree.Basic

/-!
# Lineages

A node's lineage is the node and its ancestors, the node first. Which namespace a label means at a
node, which label it has for a namespace, and how the node is named all depend on its lineage only.
The functions on `Lineage` state this; those on `Tree` read the lineage off the slots.
-/

namespace Netconf

/-- A node and its ancestors, the node first. -/
abbrev Lineage := List Element

namespace Lineage

/-- The namespace of a label: of the innermost binding, or else of the default bindings. -/
def ns? (line : Lineage) (defaults : Bindings) (label : String) : Option String :=
  (line.findSome? fun e => e.bindings.ns? label).or (defaults.ns? label)

/-- A label bound to a namespace: on the innermost element that has one, or else by default. -/
def label? (line : Lineage) (defaults : Bindings) (ns : String) : Option String :=
  (line.findSome? fun e => e.bindings.label? ns).or (defaults.label? ns)

/-- All bindings that can be seen from the node, inner ones hiding outer ones. -/
def bindings (line : Lineage) (defaults : Bindings) : Bindings :=
  (line.foldl (fun (m : Bindings) e => m.merge e.bindings) Bindings.empty).merge defaults

/-- The name of the node with the label of its namespace, or the bare name where the namespace is
the default one or has no label. -/
def qualifiedName (line : Lineage) (defaults : Bindings) : String :=
  match line with
  | [] => ""
  | e :: _ =>
    match e.ns.bind (line.label? defaults) with
    | some label => if label = "" then e.name else label ++ ":" ++ e.name
    | none => e.name

/-- The path from the top to the node. A label is written only where the namespace changes. -/
def path (line : Lineage) (defaults : Bindings) : String :=
  match line with
  | [] => ""
  | [e] => "/" ++ qualifiedName [e] defaults
  | e :: p :: above =>
    path (p :: above) defaults ++ "/"
      ++ (if p.ns = e.ns then e.name else qualifiedName (e :: p :: above) defaults)

/-- The path from the top to the node, of bare names. -/
def barePath (line : Lineage) : String :=
  String.join (line.reverse.map fun e => "/" ++ e.name)

end Lineage

namespace Tree

/-- The first nodes of the way up from a node: the node, and at most `steps` ancestors. -/
def upwardFor (t : Tree) : Nat → NodeId → List NodeId
  | 0, id => [id]
  | steps + 1, id =>
    match t.parent? id with
    | none => [id]
    | some p => id :: upwardFor t steps p

/-- A node and its ancestors, the node first. No way up is longer than there are slots. -/
def upward (t : Tree) (id : NodeId) : List NodeId := t.upwardFor t.size id

/-- The topmost ancestor of a node; a node that stands alone is its own. -/
def topOf (t : Tree) (id : NodeId) : NodeId := (t.upward id).getLastD id

/-- A node and its ancestors, the topmost first. -/
def ancestry (t : Tree) (id : NodeId) : List NodeId := (t.upward id).reverse

/-- Is `ancestor` the node itself or one above it? -/
def isAtOrAbove (t : Tree) (ancestor id : NodeId) : Bool := (t.upward id).contains ancestor

/-- The elements of a node and its ancestors, the node first. -/
def lineage (t : Tree) (id : NodeId) : Lineage := (t.upward id).map t.element

/-- The namespace that a label means at a node. -/
def nsOf? (t : Tree) (id : NodeId) (label : String) : Option String :=
  (t.lineage id).ns? t.defaults.bindings label

/-- A label for a namespace at a node. -/
def labelOf? (t : Tree) (id : NodeId) (ns : String) : Option String :=
  (t.lineage id).label? t.defaults.bindings ns

/-- All bindings that can be seen from a node. -/
def bindingsAt (t : Tree) (id : NodeId) : Bindings := (t.lineage id).bindings t.defaults.bindings

/-- The name of a node with the label of its namespace. -/
def qualifiedName (t : Tree) (id : NodeId) : String :=
  (t.lineage id).qualifiedName t.defaults.bindings

/-- The path from the top of the tree to a node. -/
def path (t : Tree) (id : NodeId) : String := (t.lineage id).path t.defaults.bindings

/-- The path from the top of the tree to a node, of bare names. -/
def barePath (t : Tree) (id : NodeId) : String := (t.lineage id).barePath

end Tree

end Netconf
