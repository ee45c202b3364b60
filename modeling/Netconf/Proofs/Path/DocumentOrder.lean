import Mathlib.Data.List.Flatten
import Netconf.Proofs.Path.Continuations
import Netconf.Proofs.Tree.Reachable

/-!
# Queries in document order

A path without steps to parents only goes down, so that it meets every node on one way at most, and
the nodes that it selects stand in the order of the document (`eval_inOrder`). The order of the
document is that in which `Branch.ids` lists the nodes of a branch: each node before those below it,
and what is below a child before what is below the next one.
-/

namespace Netconf

/-- What is at and below the children of a node is what is below it, in the same order. -/
theorem Tree.Forest.sublist_ids_branch {t : Tree} (h : t.Forest) (id : NodeId) :
    ((t.children id).flatMap fun c => (t.branch c).ids).Sublist (t.branch id).ids := by
  rw [h.branch_eq, Branch.ids, Branch.idsOfAll_eq_flatMap, List.flatMap_map]
  exact List.sublist_cons_self _ _

namespace Path

variable {t : Tree} {step : Step} {steps : List Step} {id : NodeId} {p : Place}
  {places found : List Place} {ids : List NodeId}

/-- The nodes at and below a place, in the order of the document. -/
def Place.inside (t : Tree) : Place → List NodeId
  | .document top => (t.branch top).ids
  | .node id => (t.branch id).ids

/-! ## Going down -/

/-- A step to children or to the node itself keeps to the order of the document. -/
theorem Step.sublist_inside_of_follow (h : t.Forest) (hroot : step.axis ≠ .root)
    (hparent : step.axis ≠ .parent) (hf : step.follow t p = .ok found) :
    (found.flatMap (Place.inside t)).Sublist (p.inside t) := by
  rcases of_follow hroot hf with ⟨-, hfound⟩ | ⟨kept, hkept, rfl⟩
  · simpa using hfound.flatMap (Place.inside t)
  · rw [List.flatMap_map]
    have halong := hkept.flatMap fun c => (t.branch c).ids
    cases haxis : step.axis with
    | root => exact absurd haxis hroot
    | parent => exact absurd haxis hparent
    | self =>
      rw [haxis] at halong
      cases p with
      | document top => exact halong.trans (List.nil_sublist _)
      | node id => simpa [Place.along, Place.inside] using halong
    | child =>
      rw [haxis] at halong
      cases p with
      | document top => simpa [Place.along, Place.inside] using halong
      | node id => exact halong.trans (h.sublist_ids_branch id)

/-- Such a step keeps to the order of the document also from several places. -/
theorem Step.sublist_inside_of_apply (h : t.Forest) (hroot : step.axis ≠ .root)
    (hparent : step.axis ≠ .parent) (happly : step.apply t places = .ok found) :
    (found.flatMap (Place.inside t)).Sublist (places.flatMap (Place.inside t)) := by
  induction places generalizing found with
  | nil =>
    rw [apply, if_neg hroot] at happly
    cases happly
    exact .slnil
  | cons p places ih =>
    rw [← List.singleton_append, apply_append_iff hroot, apply_singleton hroot] at happly
    obtain ⟨own, rest, hown, hrest, rfl⟩ := happly
    rw [List.flatMap_append, List.flatMap_cons]
    exact (sublist_inside_of_follow h hroot hparent hown).append (ih hrest)

/-- Steps down the tree keep to the order of the document. -/
theorem sublist_inside_of_walk (h : t.Forest) (hroot : Rootless steps)
    (hparent : ∀ step ∈ steps, step.axis ≠ .parent) (hwalk : walk t steps places = .ok found) :
    (found.filterMap Place.node?).Sublist (places.flatMap (Place.inside t)) := by
  induction steps generalizing places with
  | nil =>
    cases hwalk
    -- each place gives its node, which is the first inside it, or nothing
    rw [List.filterMap_eq_flatMap_toList]
    refine List.Sublist.flatMap_right _ fun p _ => ?_
    cases p with
    | document top => exact List.nil_sublist _
    | node id =>
      rw [Place.inside, Branch.ids_eq, Tree.id_branch]
      exact List.singleton_sublist.2 List.mem_cons_self
  | cons step steps ih =>
    obtain ⟨hroot', hroot⟩ := List.forall_mem_cons.1 hroot
    obtain ⟨hparent', hparent⟩ := List.forall_mem_cons.1 hparent
    obtain ⟨next, hnext, hwalk⟩ := walk_cons_iff.1 hwalk
    exact (ih hroot hparent hwalk).trans (Step.sublist_inside_of_apply h hroot' hparent' hnext)

/-! ## The order of a query -/

/-- The node in whose branch steps down the tree look: the top of the tree if they begin at the
document. -/
def searched (t : Tree) (steps : List Step) (id : NodeId) : NodeId :=
  if steps.head?.any fun step => step.axis = .root then t.topOf id else id

/-- Steps down the tree, behind one to the document or not, select nodes of the branch where they
look, in its order. -/
theorem sublist_ids_of_evalSteps (h : t.Forest) (hsteps : RootFirst steps)
    (hparent : ∀ step ∈ steps, step.axis ≠ .parent) (heval : evalSteps t steps id = .ok ids) :
    ids.Sublist (t.branch (searched t steps id)).ids := by
  unfold evalSteps at heval
  split at heval
  · cases heval
  next found hwalk =>
  cases heval
  cases hsteps with
  | relative hroot =>
    have hsearched : searched t steps id = id := by
      refine if_neg ?_
      cases steps with
      | nil => simp
      | cons step steps => simpa using hroot step List.mem_cons_self
    rw [hsearched]
    simpa [Place.inside] using sublist_inside_of_walk h hroot hparent hwalk
  | @absolute root steps hroot hsteps =>
    have hsearched : searched t (root :: steps) id = t.topOf id := if_pos (by simpa using hroot)
    rw [walk_root hroot] at hwalk
    rw [hsearched]
    simpa [Place.inside] using
      sublist_inside_of_walk h hsteps (List.forall_mem_cons.1 hparent).2 hwalk

/-- Items of a list stand in its order, if none is in it twice. -/
theorem pairwise_idxOf_lt {order : List NodeId} (hnodup : order.Nodup)
    (hsub : ids.Sublist order) : ids.Pairwise fun a b => order.idxOf a < order.idxOf b := by
  refine List.Pairwise.sublist hsub (List.pairwise_iff_getElem.2 fun i j hi hj hij => ?_)
  rw [hnodup.idxOf_getElem i hi, hnodup.idxOf_getElem j hj]
  exact hij

/-- A path without steps to parents selects pairwise different nodes, in the order of the document:
for a path that begins at the document the order of the whole tree, and else that of the branch of
the node from which the path is followed. -/
theorem eval_inOrder (h : t.Forest) {text : String} {path : Path}
    (hparse : Path.parse text = .ok path) (hparent : ∀ step ∈ path.steps, step.axis ≠ .parent)
    (heval : path.eval t id = .ok ids) :
    ids.Nodup ∧ ids ⊆ (t.branch (searched t path.steps id)).ids ∧
      ids.Pairwise fun a b =>
        (t.branch (searched t path.steps id)).ids.idxOf a <
          (t.branch (searched t path.steps id)).ids.idxOf b := by
  have hnodup := h.nodup_ids_branch (searched t path.steps id)
  have hsub := sublist_ids_of_evalSteps h (rootFirst_of_parse hparse) hparent heval
  exact ⟨hnodup.sublist hsub, hsub.subset, pairwise_idxOf_lt hnodup hsub⟩

/-- The tree with two lists of items, and a third list that was made later and put in front. -/
def itemListsInFront : Tree :=
  (Tree.Call.insertFirst 0 6).run ((Tree.Call.create none "b" none).run itemLists)

/-- The lists and items below the top come in the order of the document, not in that in which they
were made. -/
theorem eval_inOrder_itemLists :
    let path : Path := ⟨"/a/./b[count(c) >= 0]", [.toRoot,
      { axis := .child, name := some "a" }, { axis := .self },
      { axis := .child, name := some "b", predicates := [.binary (.compare .ge)
        (.call .count [.child none "c"]) (.literal (.integer 0))] }]⟩
    itemListsInFront.Forest ∧ Path.parse "/a/./b[count(c) >= 0]" = .ok path ∧
      (∀ step ∈ path.steps, step.axis ≠ .parent) ∧
      path.eval itemListsInFront 3 = .ok [6, 1, 4] ∧
      (itemListsInFront.branch (searched itemListsInFront path.steps 3)).ids =
        [0, 6, 1, 2, 3, 4, 5] ∧
      [6, 1, 4].Pairwise fun a b =>
        (itemListsInFront.branch (searched itemListsInFront path.steps 3)).ids.idxOf a <
          (itemListsInFront.branch (searched itemListsInFront path.steps 3)).ids.idxOf b := by
  intro path
  have hlists : itemLists.Forest := (Tree.forest_empty {}).addCopy _
  have hmade :=
    ((Tree.Call.create none "b" none).extends_run hlists (by simp [Tree.Call.ids])).forest
  have hforest : itemListsInFront.Forest :=
    ((Tree.Call.insertFirst 0 6).extends_run hmade (by decide)).forest
  have htokens : tokensOf "/a/./b[count(c) >= 0]" = .ok [.slash, .atom "a", .slash, .dot, .slash,
      .atom "b", .openBracket, .atom "count", .openParen, .atom "c", .closeParen, .comparison .ge,
      .integer 0, .closeBracket] := rfl
  have hparse : Path.parse "/a/./b[count(c) >= 0]" = .ok path := parse_of_tokens htokens rfl
  have hparent : ∀ step ∈ path.steps, step.axis ≠ .parent := by decide
  have heval : path.eval itemListsInFront 3 = .ok [6, 1, 4] := rfl
  exact ⟨hforest, hparse, hparent, heval, rfl, (eval_inOrder hforest hparse hparent heval).2.2⟩

end Path

end Netconf
