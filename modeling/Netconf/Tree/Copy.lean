import Netconf.Tree.Basic

/-!
# Copies

A copy of a branch is appended to a tree as one block of slots: the slots follow each other in the
order in which a branch lists its nodes, every node before the nodes below it. The new top stands
alone. Nothing that was in the tree before changes.
-/

namespace Netconf

namespace Branch

/-- The slots of the tops of several branches, when the first branch starts at `next`. -/
def starts (next : NodeId) : List Branch → List NodeId
  | [] => []
  | b :: bs => next :: starts (next + b.size) bs

mutual

/-- The nodes of a copy that starts at the slot `base`, in the order of their slots. -/
def layout (base : NodeId) (parent : Option NodeId) : Branch → List Node
  | .mk _ e children =>
    { element := e, parent := parent, children := starts (base + 1) children }
      :: layoutAll (base + 1) base children

/-- The nodes of copies that start at the slot `next` and follow each other below `parent`. -/
def layoutAll (next parent : NodeId) : List Branch → List Node
  | [] => []
  | b :: bs => layout next (some parent) b ++ layoutAll (next + b.size) parent bs

end

end Branch

namespace Tree

/-- Appends a copy of a branch; its top stands alone. -/
def addCopy (t : Tree) (b : Branch) : Tree × NodeId :=
  ({ t with nodes := t.nodes ++ (b.layout t.size none).toArray }, t.size)

/-- Appends a copy of the branch at a node of the same tree. -/
def copy (t : Tree) (id : NodeId) : Tree × NodeId := t.addCopy (t.branch id)

/-- Appends a copy of a node of the same tree, with its keys as its only children. -/
def copyKeysOnly (t : Tree) (id : NodeId) : Tree × NodeId := t.addCopy (t.branch id).keysOnly

end Tree

end Netconf
