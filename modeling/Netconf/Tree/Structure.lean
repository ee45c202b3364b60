import Netconf.Error
import Netconf.Tree.Lineage

/-!
# The structure of a tree

Putting nodes under other nodes and taking them away. Only a node that stands alone can be put
somewhere, and never below itself, so the tree stays a forest.
-/

namespace Netconf.Tree

/-- Puts a node that stands alone among the children of another, at an index or at the end if the
index is too large. -/
def insertAt (t : Tree) (parent child : NodeId) (index : Nat) : Except Error Tree :=
  if (t.parent? child).isSome || t.isAtOrAbove child parent then .error (.inUse (t.name child))
  else
    let placed := t.modify parent fun n =>
      { n with children := n.children.insertIdx (min index n.children.length) child }
    .ok (placed.modify child fun n => { n with parent := some parent })

/-- Puts a node behind the other children. -/
def append (t : Tree) (parent child : NodeId) : Except Error Tree :=
  t.insertAt parent child (t.children parent).length

/-- Puts a node in front of the other children. -/
def insertFirst (t : Tree) (parent child : NodeId) : Except Error Tree := t.insertAt parent child 0

/-- The rank of a name in an order of names; names that are not in it come last. -/
def rank (order : List String) (name : String) : Nat := order.findIdx fun n => n == name

/-- Puts a node behind every child whose name does not come later in the order. -/
def insertOrdered (t : Tree) (parent child : NodeId) (order : List String) : Except Error Tree :=
  let own := rank order (t.name child)
  t.insertAt parent child
    ((t.children parent).findIdx fun c => decide (own < rank order (t.name c)))

/-- Takes a node away from its parent. The branch below it stays whole. -/
def detach (t : Tree) (id : NodeId) : Tree :=
  match t.parent? id with
  | none => t
  | some p =>
    (t.modify id fun n => { n with parent := none }).modify p fun n =>
      { n with children := n.children.filter fun c => c != id }

/-- Takes away nodes one after the other. -/
def detachAll (t : Tree) (ids : List NodeId) : Tree := ids.foldl detach t

/-- Takes a child away from its parent. -/
def removeChild (t : Tree) (parent child : NodeId) : Except Error Tree :=
  if t.parent? child = some parent then .ok (t.detach child)
  else .error (.missing (t.name child ++ " is not a child of " ++ t.path parent))

/-- Makes a child in the namespace of its parent. The tree is returned also when the child could
not be put in its place. -/
def createChild (t : Tree) (parent : NodeId) (name : String) (value : Option Value) :
    Except Error NodeId × Tree :=
  let made := t.create { ns := t.ns? parent, name := name }
  match made.1.append parent made.2 with
  | .error e => (.error e, made.1)
  | .ok placed => (.ok made.2, placed.modifyElement made.2 fun e => { e with value := value })

end Netconf.Tree
