import Netconf.Path.Query
import Netconf.Tree.Mark
import Netconf.Tree.Structure

/-!
# Changes along paths

The same change of every node that a path expression selects. The nodes are selected before the
first of them is changed, so a change does not affect the selection; an expression that cannot be
evaluated changes nothing.
-/

namespace Netconf.Tree

/-- Changes a tree by the nodes that a path expression selects from a node. -/
def changeSelected (t : Tree) (id : NodeId) (path : String) (f : List NodeId → Tree) :
    Except Error Tree :=
  (t.query id path).map f

/-- Gives several nodes the same value. -/
def setValues (t : Tree) (ids : List NodeId) (v : Value) : Tree :=
  ids.foldl (fun t id => t.setValue id v) t

/-- Gives the selected nodes a value. -/
def setValueSelected (t : Tree) (id : NodeId) (path : String) (v : Value) : Except Error Tree :=
  t.changeSelected id path fun ids => t.setValues ids v

/-- Marks the selected nodes. -/
def markSelected (t : Tree) (id : NodeId) (path : String) (o : Operation) : Except Error Tree :=
  t.changeSelected id path fun ids => t.markAll ids o

/-- Takes the marks of the selected nodes away. -/
def unmarkSelected (t : Tree) (id : NodeId) (path : String) : Except Error Tree :=
  t.changeSelected id path t.unmarkAll

/-- Takes the selected nodes away from their parents; returns them. -/
def deleteSelected (t : Tree) (id : NodeId) (path : String) : Except Error (Tree × List NodeId) :=
  (t.query id path).map fun ids => (t.detachAll ids, ids)

end Netconf.Tree
