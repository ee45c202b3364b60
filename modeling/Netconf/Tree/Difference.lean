import Netconf.Tree.Likeness

/-!
# Differences of trees

The difference of two branches lists the nodes that only one side has and the entries that both have
with other content. Children are paired in order: each child of the first side with the first child
of the second side that is the same node and not paired yet. Nothing below a listed node is listed.
-/

namespace Netconf

/-- The difference of two branches, as slots of their trees. -/
structure Difference where
  /-- The nodes of the first side that have no partner. -/
  onlyA : List NodeId := []
  /-- The nodes of the second side that have no partner. -/
  onlyB : List NodeId := []
  /-- The entries of the first side whose content changed. -/
  changedA : List NodeId := []
  /-- Their partners on the second side. -/
  changedB : List NodeId := []
  deriving DecidableEq, Inhabited

namespace Difference

/-- One difference after the other. -/
def append (d e : Difference) : Difference :=
  ⟨d.onlyA ++ e.onlyA, d.onlyB ++ e.onlyB, d.changedA ++ e.changedA,
    d.changedB ++ e.changedB⟩

instance : Append Difference := ⟨append⟩

/-- Is nothing listed? -/
def isEmpty (d : Difference) : Bool :=
  d.onlyA.isEmpty && d.onlyB.isEmpty && d.changedA.isEmpty && d.changedB.isEmpty

end Difference

/-- Takes out the first element for which `f` has a result: the result, and the others. -/
def takeFirst {α β : Type} (f : α → Option β) : List α → Option (α × β × List α)
  | [] => none
  | x :: xs =>
    match f x with
    | some y => some (x, y, xs)
    | none => (takeFirst f xs).map fun r => (r.1, r.2.1, x :: r.2.2)

namespace Branch

/-- How two branches stand to each other, if they are the same node. -/
def partner? (a b : Branch) : Option Likeness :=
  match a.entry.compare b.entry with
  | .different => none
  | c => some c

mutual

/-- The difference of two branches. -/
def diff : Branch → Branch → Difference
  | .mk ia ea as, b =>
    let a : Branch := .mk ia ea as
    if a.entry.compare b.entry = .different then { onlyA := [ia], onlyB := [b.id] }
    else if as.isEmpty || b.children.isEmpty then
      { onlyA := as.map id, onlyB := b.children.map id }
    else diffAll as b.children

/-- The difference of the children of two nodes; `bs` are those not paired yet. -/
def diffAll : List Branch → List Branch → Difference
  | [], bs => { onlyB := bs.map id }
  | a :: as, bs =>
    match takeFirst (partner? a) bs with
    | none => { onlyA := [a.id] } ++ diffAll as bs
    | some (b, .changed, others) =>
      { changedA := [a.id], changedB := [b.id] } ++ diffAll as others
    | some (b, _, others) =>
      (if a.entry.isComposite || b.entry.isComposite then a.diff b else {})
        ++ diffAll as others

end

end Branch

namespace Tree

/-- The difference of the branches at two nodes. -/
def diff (ta : Tree) (a : NodeId) (tb : Tree) (b : NodeId) : Difference :=
  (ta.branch a).diff (tb.branch b)

/-- Do the branches at two nodes agree? -/
def agree (ta : Tree) (a : NodeId) (tb : Tree) (b : NodeId) : Bool := (ta.diff a tb b).isEmpty

end Tree

end Netconf
