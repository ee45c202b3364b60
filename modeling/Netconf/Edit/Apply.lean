import Netconf.Tree.Build
import Netconf.Tree.Likeness

/-!
# Applying edits

An edit is applied to a configuration the way a server would do it. Each node of the edit looks for
its counterpart among the children of the place reached, and its mark decides what happens. Nodes
without a mark have that of the node above, and merging is the rule. Marks do not get into the
configuration.
-/

namespace Netconf.Edit

/-- The operation of an edit node: that of its mark, if the mark is one, or else the inherited
one. -/
def operationOf (e : Element) (inherited : Operation) : Operation :=
  (e.markText?.bind Operation.ofName?).getD inherited

/-- The counterpart of an edit node among the children of a place: the same entry for containers,
and a node of the same name else. -/
def counterpart? (t : Tree) (parent : NodeId) (b : Branch) : Option NodeId :=
  (t.children parent).find? fun c =>
    if b.entry.isComposite then b.entry.matchesEntry (t.entry c)
    else b.element.sameName (t.element c)

/-- Appends a copy of a branch and takes its marks away. -/
def addUnmarkedCopy (b : Branch) : Build NodeId :=
  Build.change fun t => ((t.addCopy b).1.unmarkBranch (t.addCopy b).2, (t.addCopy b).2)

/-- Takes over the value of an edit node, also when it has none. -/
def takeValue (id : NodeId) (e : Element) : Build Unit :=
  Build.modifyElement id fun own => { own with value := e.value }

/-- Takes a child away from its parent. -/
def remove (parent child : NodeId) : Build Unit := Build.attempt fun t => t.removeChild parent child

/-- Puts a copy of an edit node in the place of a child. -/
def replace (parent child : NodeId) (b : Branch) : Build Unit := do
  let index := (((← get).children parent).idxOf? child).getD 0
  remove parent child
  let copy ← addUnmarkedCopy b
  Build.attempt fun t => t.insertAt parent copy index

mutual

/-- Applies an edit node below a place. `inherited` is the operation of the node above; `above` are
the edit's nodes above and `defaults` its default bindings, for error texts. -/
def applyNode (defaults : Bindings) (above : Lineage) (parent : NodeId) (inherited : Operation) :
    Branch → Build Unit
  | .mk id e children => do
    let b : Branch := .mk id e children
    let t ← get
    match operationOf e inherited, counterpart? t parent b with
    | .delete, some c => remove parent c
    | .delete, none => throw (.missing (Lineage.path (e :: above) defaults))
    | .create, some c => throw (.inUse (t.path c))
    | .replace, some c => replace parent c b
    | .merge, some c =>
      if b.entry.isComposite then
        applyAll defaults (e :: above) c (operationOf e inherited) children
      else takeValue c e
    | _, none =>
      let copy ← addUnmarkedCopy b
      Build.append parent copy

/-- Applies edit nodes below a place one after the other. -/
def applyAll (defaults : Bindings) (above : Lineage) (parent : NodeId) (inherited : Operation) :
    List Branch → Build Unit
  | [] => pure ()
  | b :: bs => do
    applyNode defaults above parent inherited b
    applyAll defaults above parent inherited bs

end

/-- Applies the edit at a node of another tree to the configuration at `root`. -/
def apply (root : NodeId) (edit : Tree) (editRoot : NodeId) : Build Unit := do
  let t ← get
  if edit.compare editRoot t root = .different then
    throw (.missing (edit.path editRoot ++ ", " ++ t.path root))
  else
    applyAll edit.defaults.bindings (edit.lineage editRoot) root
      (operationOf (edit.element editRoot) .merge) (edit.branch editRoot).children

end Netconf.Edit
