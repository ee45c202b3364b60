import Netconf.Edit.Excerpt
import Netconf.Tree.Difference

/-!
# Edits between trees

An edit turns one configuration into another. `Tree.explicitEdit` marks every difference with an
explicit operation. `Tree.mergingEdit` sends less: it starts from a copy of the second
configuration, takes out what the first one has already, and adds what is to go, marked for
deletion; what remains is merged.
The variants on sets of nodes put them below a made-up root first.
-/

namespace Netconf

/-! ## Explicit edits -/

namespace Tree

/-- The edit that turns the branch at `a` into the branch at `b`: nodes only in the first are
deleted, nodes only in the second created, and changed entries replaced. There is none when nothing
differs. -/
def explicitEdit (ta : Tree) (a : NodeId) (tb : Tree) (b : NodeId) :
    Except Error (Option Document) :=
  let d := ta.diff a tb b
  let edit : Build (Option NodeId) := do
    let root ← ta.excerptAll .delete d.onlyA none
    let root ← tb.excerptAll .create d.onlyB root
    tb.excerptAll .replace d.changedB root
  match edit (.empty ta.defaults) with
  | .ok root t => .ok (root.map fun r => ⟨t, r⟩)
  | .error e _ => .error e

end Tree

/-! ## Merging edits -/

/-- A branch that an edit takes over to have it deleted, and where it goes. -/
structure Deletion where
  /-- The slot of its parent in the edit. -/
  parent : NodeId
  /-- What is copied. -/
  branch : Branch

/-- What has to be done to the copy of the second configuration. -/
structure MergePlan where
  /-- How many differences were found. -/
  count : Nat := 0
  /-- The nodes that the first configuration has already. -/
  settled : List NodeId := []
  /-- What only the first configuration has. -/
  deletions : List Deletion := []

namespace MergePlan

/-- One plan after the other. -/
def append (p q : MergePlan) : MergePlan :=
  ⟨p.count + q.count, p.settled ++ q.settled, p.deletions ++ q.deletions⟩

instance : Append MergePlan := ⟨append⟩

end MergePlan

namespace Branch

/-- Does a child `a` of the first configuration correspond to the child `b` of the second?
Containers correspond when they are alike and have the keys of `b` alike; other nodes by name. -/
def corresponds (b a : Branch) : Bool :=
  if b.entry.isComposite then
    a.entry.isComposite && a.element.alike b.element
      && Entry.sameKeys b.element.kind.keys a.entry b.entry
  else !a.entry.isComposite && a.element.sameName b.element

/-- The plan for one child of the first configuration that nothing corresponds to. A key of its
parent stays. -/
def leftOver (parentA : Element) (parentB : NodeId) (a : Branch) : MergePlan :=
  if a.entry.isComposite then { count := 1, deletions := [⟨parentB, a.keysOnly⟩] }
  else if parentA.hasKey a.element.name then {}
  else { count := 1, deletions := [⟨parentB, a⟩] }

/-- The plan for the children of the first configuration that nothing corresponds to. -/
def leftOvers (parentA : Element) (parentB : NodeId) : List Branch → MergePlan
  | [] => {}
  | a :: as => leftOver parentA parentB a ++ leftOvers parentA parentB as

mutual

/-- The plan for the branch `b` of the second configuration, to which `a` corresponds. -/
def mergePlan : Branch → Branch → MergePlan
  | .mk id e bs, a =>
    let isList := !a.element.kind.keys.isEmpty
    mergePlanAll (fun b => isList && !b.entry.isComposite && e.hasKey b.element.name) id
      a.element bs a.children

/-- The plan for the children `bs` of a node `parentB` of the second configuration. Those that
`isKept` names stay as they are; `as` are the children of the first configuration that are left. -/
def mergePlanAll (isKept : Branch → Bool) (parentB : NodeId) (parentA : Element) :
    List Branch → List Branch → MergePlan
  | [], as => leftOvers parentA parentB as
  | b :: bs, as =>
    if isKept b then mergePlanAll isKept parentB parentA bs as
    else
      match takeFirst (fun a => if b.corresponds a then some () else none) as with
      | none => { count := 1 } ++ mergePlanAll isKept parentB parentA bs as
      | some (a, _, others) =>
        let own : MergePlan :=
          if a.entry.isComposite || b.entry.isComposite then
            let inner := b.mergePlan a
            if inner.count = 0 then inner ++ { settled := [b.id] } else inner
          else if a.element.alike b.element then { settled := [b.id] }
          else { count := 1 }
        own ++ mergePlanAll isKept parentB parentA bs others

end

end Branch

namespace Tree

/-- Adds what is to be deleted to an edit. -/
def addDeletions : List Deletion → Build Unit
  | [] => pure ()
  | d :: ds => do
    let copy ← Build.addCopy d.branch
    Build.append d.parent copy
    Build.mark copy .delete
    addDeletions ds

/-- The edit that turns the branch at `a` into the branch at `b` by merging. Keys of list entries
stay in it, so that the entries can be found. -/
def mergingEdit (ta : Tree) (a : NodeId) (tb : Tree) (b : NodeId) : Except Error Document :=
  let (t, copy) := (Tree.empty tb.defaults).addCopy (tb.branch b)
  let plan := (t.branch copy).mergePlan (ta.branch a)
  match addDeletions plan.deletions t with
  | .ok _ t => .ok ⟨t.detachAll plan.settled, copy⟩
  | .error e _ => .error e

/-! ## Sets of nodes -/

/-- The namespace of the made-up root over a set of nodes. -/
def bundleNs : String := "DUMMY"

/-- The name of the made-up root over a set of nodes. -/
def bundleName : String := "dummy"

/-- Puts copies of nodes below a root. -/
def addCopies (src : Tree) (root : NodeId) : List NodeId → Build Unit
  | [] => pure ()
  | id :: ids => do
    let copy ← Build.addCopy (src.branch id)
    Build.append root copy
    addCopies src root ids

/-- Copies of nodes below a made-up root. -/
def bundle (src : Tree) (ids : List NodeId) : Except Error Document :=
  let (t, root) := (Tree.empty src.defaults).create { ns := some bundleNs, name := bundleName }
  match src.addCopies root ids t with
  | .ok _ t => .ok ⟨t, root⟩
  | .error e _ => .error e

/-- The children of the root, taken away from it. -/
def unbundle (d : Document) : Tree × List NodeId :=
  let ids := d.tree.children d.root
  (d.tree.detachAll ids, ids)

/-- Do two sets of nodes agree? -/
def agreeAsSets (ta : Tree) (as : List NodeId) (tb : Tree) (bs : List NodeId) :
    Except Error Bool := do
  let a ← ta.bundle as
  let b ← tb.bundle bs
  return a.tree.agree a.root b.tree b.root

/-- The edit between two sets of nodes: its top nodes, none when nothing differs. -/
def explicitEditOfSets (ta : Tree) (as : List NodeId) (tb : Tree) (bs : List NodeId) :
    Except Error (Tree × List NodeId) := do
  let a ← ta.bundle as
  let b ← tb.bundle bs
  match ← a.tree.explicitEdit a.root b.tree b.root with
  | some d => return unbundle d
  | none => return (.empty ta.defaults, [])

/-- The merging edit between two sets of nodes: its top nodes. -/
def mergingEditOfSets (ta : Tree) (as : List NodeId) (tb : Tree) (bs : List NodeId) :
    Except Error (Tree × List NodeId) := do
  let a ← ta.bundle as
  let b ← tb.bundle bs
  return unbundle (← a.tree.mergingEdit a.root b.tree b.root)

end Tree

end Netconf
