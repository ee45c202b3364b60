import Netconf.Tree.Build
import Netconf.Tree.Likeness

/-!
# Excerpts

`Tree.excerptInto` copies a node into another tree, below copies of its ancestors that have only
their keys, and marks the copy. Ancestors that are there already are used again, so taking several
nodes one after the other builds one edit.
-/

namespace Netconf.Tree

/-- The branch that an edit needs of a node: for a deletion its keys only. -/
def branchFor (src : Tree) (id : NodeId) (o : Operation) : Branch :=
  if o = .delete then (src.branch id).keysOnly else src.branch id

/-- Appends the copy that an edit needs of a node, with its mark. -/
def addMarkedCopy (src : Tree) (id : NodeId) (o : Operation) : Build NodeId := do
  let copy ← Build.addCopy (src.branchFor id o)
  Build.mark copy o
  return copy

/-- The child of a place that is the same node as one of the source. -/
def sameChild? (src : Tree) (id : NodeId) (t : Tree) (parent : NodeId) : Option NodeId :=
  (t.children parent).find? fun c => src.compare id t c != .different

/-- Finds or makes the way down along the ancestors `ids` of the source below `parent`; returns the
place reached. -/
def descend (src : Tree) : List NodeId → NodeId → Build NodeId
  | [], parent => pure parent
  | id :: ids, parent => do
    match src.sameChild? id (← get) parent with
    | some c => descend src ids c
    | none =>
      let c ← Build.addCopy (src.branch id).keysOnly
      Build.append parent c
      descend src ids c

/-- Copies a node below a root that stands for its topmost ancestor; `below` are the ancestors in
between, and the node itself as the last one. -/
def excerptBelow (src : Tree) (below : List NodeId) (o : Operation) (root : NodeId) :
    Build NodeId := do
  match below.getLast? with
  | none => return root
  | some id =>
    let parent ← src.descend below.dropLast root
    let copy ← src.addMarkedCopy id o
    Build.append parent copy
    return root

/-- Copies the node `id` of `src` into a tree, marked, below the ancestors that it has in `src`.
With a root, that is the copy of the topmost ancestor to start from. Returns the root of the
result. -/
def excerptInto (src : Tree) (id : NodeId) (o : Operation) (root : Option NodeId) :
    Build NodeId := do
  let top := src.topOf id
  let below := (src.ancestry id).tail
  if root.isNone && below.isEmpty then src.addMarkedCopy id o
  else
    let root ← match root with
      | some r => pure r
      | none => Build.addCopy (src.branch top).keysOnly
    let t ← get
    if src.compare top t root = .different then
      throw (.missing (src.path top ++ ", " ++ t.path root))
    else src.excerptBelow below o root

/-- Copies nodes one after the other, each from the root of the one before. -/
def excerptAll (src : Tree) (o : Operation) :
    List NodeId → Option NodeId → Build (Option NodeId)
  | [], root => pure root
  | id :: ids, root => do
    let root ← src.excerptInto id o root
    excerptAll src o ids (some root)

end Netconf.Tree
