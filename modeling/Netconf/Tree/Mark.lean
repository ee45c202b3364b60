import Netconf.Tree.Basic

/-!
# Marks

The nodes of an edit are marked with what is to be done with them. A mark is an attribute in the
protocol's namespace; a node has at most one.
-/

namespace Netconf.Tree

/-- Marks a node. -/
def mark (t : Tree) (id : NodeId) (o : Operation) : Tree := t.modifyElement id fun e => e.mark o

/-- Marks several nodes. -/
def markAll (t : Tree) (ids : List NodeId) (o : Operation) : Tree :=
  ids.foldl (fun t id => t.mark id o) t

/-- The text of a node's mark. -/
def markText? (t : Tree) (id : NodeId) : Option String := (t.element id).markText?

/-- Takes the mark of a node away. -/
def unmark (t : Tree) (id : NodeId) : Tree := t.modifyElement id Element.unmark

/-- Takes the marks of several nodes away. -/
def unmarkAll (t : Tree) (ids : List NodeId) : Tree := ids.foldl unmark t

/-- Takes the marks of a node and of all nodes below it away. -/
def unmarkBranch (t : Tree) (id : NodeId) : Tree := t.unmarkAll (t.branch id).ids

end Netconf.Tree
