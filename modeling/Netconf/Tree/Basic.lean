import Netconf.Tree.Element

/-!
# Trees

A tree keeps its nodes in slots. Slots are only ever appended, so the number of a slot stays good
for the tree's lifetime: a node that is removed from its parent keeps its slot and merely stands
alone. A number beyond the slots reads as an empty node.

A `Branch` is the part of a tree below a node as a value of its own, with the slots it was read
from, and an `Entry` is a node together with its children as far as a comparison looks at them.
-/

namespace Netconf

/-- A slot: an element and where it stands. -/
structure Node where
  /-- What the node carries by itself. -/
  element : Element := {}
  /-- The slot of the parent, if the node has one. -/
  parent : Option NodeId := none
  /-- The slots of the children in order. -/
  children : List NodeId := []
  deriving DecidableEq, Inhabited

/-- A tree of nodes in slots, with the default bindings that apply above its top nodes. -/
structure Tree where
  /-- The slots. -/
  nodes : Array Node := #[]
  /-- The default bindings. -/
  defaults : Registry := {}
  deriving DecidableEq, Inhabited

/-- A tree together with the node of interest, usually its top node. -/
structure Document where
  /-- The tree. -/
  tree : Tree
  /-- The node. -/
  root : NodeId
  deriving DecidableEq, Inhabited

/-- The part of a tree below a node. -/
inductive Branch where
  /-- A node, the slot it was read from, and the branches of its children. -/
  | mk (id : NodeId) (element : Element) (children : List Branch)
  deriving Inhabited

/-- A node and its children, as far as a comparison of nodes looks at them. -/
structure Entry where
  /-- The node itself. -/
  element : Element
  /-- Its children in order. -/
  members : List Element
  deriving DecidableEq, Inhabited

namespace Branch

/-- The slot that the top of the branch was read from. -/
def id : Branch → NodeId
  | .mk id _ _ => id

/-- The element at the top of the branch. -/
def element : Branch → Element
  | .mk _ element _ => element

/-- The branches of the children. -/
def children : Branch → List Branch
  | .mk _ _ children => children

/-- The top of the branch with its children. -/
def entry (b : Branch) : Entry := ⟨b.element, b.children.map element⟩

mutual

/-- The slots of a branch, each before the slots below it. -/
def ids : Branch → List NodeId
  | .mk id _ children => id :: idsOfAll children

/-- The slots of several branches in order. -/
def idsOfAll : List Branch → List NodeId
  | [] => []
  | b :: bs => b.ids ++ idsOfAll bs

end

mutual

/-- The number of nodes of a branch. -/
def size : Branch → Nat
  | .mk _ _ children => sizeOfAll children + 1

/-- The number of nodes of several branches. -/
def sizeOfAll : List Branch → Nat
  | [] => 0
  | b :: bs => b.size + sizeOfAll bs

end

/-- The branch without the children that are no keys of its top. -/
def keysOnly : Branch → Branch
  | .mk id e children => .mk id e (children.filter fun b => e.hasKey b.element.name)

end Branch

namespace Entry

/-- The first child with a name. -/
def member? (e : Entry) (name : String) : Option Element := e.members.find? fun m => m.name == name

/-- The children with a name. -/
def membersNamed (e : Entry) (name : String) : List Element :=
  e.members.filter fun m => m.name == name

/-- Is the node compared by what is below it? Containers are, and so are nodes with children of
which the data model does not say that they are leaves. -/
def isComposite (e : Entry) : Bool :=
  e.element.kind.isContainer || (!e.element.kind.isLeaf && !e.members.isEmpty)

end Entry

namespace Tree

/-- An empty tree over a registry of default bindings. -/
def empty (defaults : Registry) : Tree := { defaults }

/-- The number of slots. -/
def size (t : Tree) : Nat := t.nodes.size

/-! ## Reading -/

/-- The node of a slot. -/
def node (t : Tree) (id : NodeId) : Node := t.nodes.getD id {}

/-- What the node of a slot carries by itself. -/
def element (t : Tree) (id : NodeId) : Element := (t.node id).element

/-- The parent of a node. -/
def parent? (t : Tree) (id : NodeId) : Option NodeId := (t.node id).parent

/-- The children of a node. -/
def children (t : Tree) (id : NodeId) : List NodeId := (t.node id).children

/-- The local name of a node. -/
def name (t : Tree) (id : NodeId) : String := (t.element id).name

/-- The namespace of a node. -/
def ns? (t : Tree) (id : NodeId) : Option String := (t.element id).ns

/-- The value of a node. -/
def value? (t : Tree) (id : NodeId) : Option Value := (t.element id).value

/-- The kind of a node. -/
def kind (t : Tree) (id : NodeId) : Kind := (t.element id).kind

/-- The first child with a name. -/
def child? (t : Tree) (id : NodeId) (name : String) : Option NodeId :=
  (t.children id).find? fun c => t.name c == name

/-- The children with a name. -/
def childrenNamed (t : Tree) (id : NodeId) (name : String) : List NodeId :=
  (t.children id).filter fun c => t.name c == name

/-- The value of the first child with a name. -/
def childValue? (t : Tree) (id : NodeId) (name : String) : Option Value :=
  (t.child? id name).bind t.value?

/-- The place of a node among the children of its parent. -/
def position? (t : Tree) (id : NodeId) : Option Nat :=
  (t.parent? id).bind fun p => (t.children p).idxOf? id

/-- Is the node a key leaf of its parent? -/
def isKey (t : Tree) (id : NodeId) : Bool :=
  (t.parent? id).any fun p => (t.element p).hasKey (t.name id)

/-- A node with its children. -/
def entry (t : Tree) (id : NodeId) : Entry := ⟨t.element id, (t.children id).map t.element⟩

/-- The branch at a node, cut off below the given depth. -/
def branchTo (t : Tree) : Nat → NodeId → Branch
  | 0, id => .mk id (t.element id) []
  | depth + 1, id => .mk id (t.element id) ((t.children id).map (branchTo t depth))

/-- The branch at a node. No branch is deeper than there are slots. -/
def branch (t : Tree) (id : NodeId) : Branch := t.branchTo t.size id

/-! ## Writing -/

/-- Changes the node of a slot. -/
def modify (t : Tree) (id : NodeId) (f : Node → Node) : Tree :=
  { t with nodes := t.nodes.modify id f }

/-- Changes what the node of a slot carries by itself. -/
def modifyElement (t : Tree) (id : NodeId) (f : Element → Element) : Tree :=
  t.modify id fun n => { n with element := f n.element }

/-- Appends a slot. -/
def push (t : Tree) (n : Node) : Tree × NodeId := ({ t with nodes := t.nodes.push n }, t.size)

/-- Makes a node that stands alone. -/
def create (t : Tree) (e : Element) : Tree × NodeId := t.push { element := e }

/-- Gives a node a value. -/
def setValue (t : Tree) (id : NodeId) (v : Value) : Tree :=
  t.modifyElement id fun e => { e with value := some v }

/-- Takes the value of a node away. -/
def dropValue (t : Tree) (id : NodeId) : Tree :=
  t.modifyElement id fun e => { e with value := none }

/-- Gives a node a kind. -/
def setKind (t : Tree) (id : NodeId) (k : Kind) : Tree :=
  t.modifyElement id fun e => { e with kind := k }

/-- Takes over the newer state of the tree's registry. -/
def refresh (t : Tree) (newer : Registry) : Tree := { t with defaults := t.defaults.refresh newer }

end Tree

end Netconf
