import Mathlib.Data.List.Forall2
import Netconf.Proofs.Path.Descents
import Netconf.Proofs.Path.Grammar

/-!
# Paths behind paths

A query goes step by step from a set of places to the next. It leads to the same nodes, in the same
order and as often, to follow the first steps of a path and then the others from each node by
itself (`evalSteps_append_iff`). What makes this true is that a step which does not go to the
document looks at one place after the other (`Step.apply_append_iff`), and that the first steps lead
to nodes only and not to a document, of which the result would not tell (`Landing`).
-/

namespace Netconf.Path

variable {t : Tree} {step root : Step} {steps before behind : List Step} {id : NodeId} {p q : Place}
  {places places' found : List Place} {ids part : List NodeId}

/-! ## Places one after the other -/

/-- None of the steps goes to the document. -/
def Rootless (steps : List Step) : Prop := ∀ step ∈ steps, step.axis ≠ .root

/-- Whether steps go to the document can be computed. -/
instance : Decidable (Rootless steps) := inferInstanceAs (Decidable (∀ step ∈ steps, _))

/-- A step looks at one place after the other. -/
theorem Step.followAll_append (step : Step) (t : Tree) (places places' : List Place) :
    step.followAll t (places ++ places') = (step.followAll t places).bind fun first =>
      (step.followAll t places').map fun second => first ++ second := by
  induction places with
  | nil =>
    rw [List.nil_append, followAll]
    cases step.followAll t places' <;> rfl
  | cons p places ih =>
    rw [List.cons_append, followAll, followAll, ih]
    cases step.follow t p with
    | error e => rfl
    | ok own =>
      cases step.followAll t places with
      | error e => rfl
      | ok first =>
        cases step.followAll t places' with
        | error e => rfl
        | ok second => simp [Except.bind, Except.map]

/-- A step that does not go to the document looks at each place by itself. -/
theorem Step.apply_append_iff (haxis : step.axis ≠ .root) :
    step.apply t (places ++ places') = .ok found ↔
      ∃ first second, step.apply t places = .ok first ∧ step.apply t places' = .ok second ∧
        found = first ++ second := by
  simp only [apply, if_neg haxis, followAll_append]
  cases step.followAll t places with
  | error e => simp [Except.bind]
  | ok first => cases step.followAll t places' <;> simp [Except.bind, Except.map, eq_comm]

/-- Where a step leads from a single place. -/
theorem Step.apply_singleton (haxis : step.axis ≠ .root) (t : Tree) (p : Place) :
    step.apply t [p] = step.follow t p := by
  rw [apply, if_neg haxis, followAll, followAll]
  cases step.follow t p with
  | error e => rfl
  | ok found => exact congrArg Except.ok (List.append_nil found)

/-- A step leads to a place if it does so from one of the places where it is taken. -/
theorem Step.mem_of_apply_iff (haxis : step.axis ≠ .root)
    (happly : step.apply t places = .ok found) :
    q ∈ found ↔ ∃ p ∈ places, ∃ own, step.follow t p = .ok own ∧ q ∈ own := by
  induction places generalizing found with
  | nil =>
    rw [apply, if_neg haxis] at happly
    cases happly
    simp
  | cons p places ih =>
    rw [← List.singleton_append, apply_append_iff haxis, apply_singleton haxis] at happly
    obtain ⟨own, rest, hown, hrest, rfl⟩ := happly
    simp [ih hrest, hown]

/-- Where a first step and others lead. -/
theorem walk_cons_iff : walk t (step :: steps) places = .ok found ↔
    ∃ next, step.apply t places = .ok next ∧ walk t steps next = .ok found := by
  rw [walk]
  cases step.apply t places <;> simp

/-- Where steps and others behind them lead, also when they fail. -/
theorem walk_append (t : Tree) (before behind : List Step) (places : List Place) :
    walk t (before ++ behind) places = (walk t before places).bind (walk t behind) := by
  induction before generalizing places with
  | nil => rfl
  | cons step before ih =>
    rw [List.cons_append, walk, walk]
    cases step.apply t places with
    | error e => rfl
    | ok next => exact ih next

/-- Steps and others behind them lead somewhere if the first ones do and the others go on from
there. -/
theorem walk_append_iff : walk t (before ++ behind) places = .ok found ↔
    ∃ middle, walk t before places = .ok middle ∧ walk t behind middle = .ok found := by
  rw [walk_append]
  cases walk t before places <;> simp [Except.bind]

/-- Steps lead from two parts of some places to what they lead to from each. -/
theorem walk_places_append_iff (hsteps : Rootless steps) :
    walk t steps (places ++ places') = .ok found ↔
      ∃ first second, walk t steps places = .ok first ∧ walk t steps places' = .ok second ∧
        found = first ++ second := by
  -- every step moves both parts, so the places are general in the induction
  induction steps generalizing places places' with
  | nil => simp [walk, eq_comm]
  | cons step steps ih =>
    obtain ⟨haxis, hsteps⟩ := List.forall_mem_cons.1 hsteps
    simp only [walk_cons_iff, Step.apply_append_iff haxis]
    constructor
    · rintro ⟨_, ⟨next, next', hnext, hnext', rfl⟩, hwalk⟩
      obtain ⟨first, second, hfirst, hsecond, rfl⟩ := (ih hsteps).1 hwalk
      exact ⟨first, second, ⟨next, hnext, hfirst⟩, ⟨next', hnext', hsecond⟩, rfl⟩
    · rintro ⟨first, second, ⟨next, hnext, hfirst⟩, ⟨next', hnext', hsecond⟩, rfl⟩
      exact ⟨_, ⟨next, next', hnext, hnext', rfl⟩,
        (ih hsteps).2 ⟨first, second, hfirst, hsecond, rfl⟩⟩

/-- Steps lead nowhere from nowhere. -/
@[simp]
theorem walk_nil (t : Tree) (steps : List Step) : walk t steps [] = .ok [] := by
  induction steps with
  | nil => rfl
  | cons step steps ih =>
    refine walk_cons_iff.2 ⟨[], ?_, ih⟩
    unfold Step.apply
    split <;> rfl

/-! ## Nodes and documents -/

/-- The nodes that lie on an axis behind a place. -/
def Place.along (t : Tree) : Place → Axis → List NodeId
  | .document top, .child => [top]
  | .document _, _ => []
  | .node id, .child => t.children id
  | .node id, .self => [id]
  | .node id, .parent => (t.parent? id).toList
  | .node _, .root => []

/-- No node is twice on an axis. -/
theorem Place.nodup_along (h : t.Forest) (p : Place) (axis : Axis) : (p.along t axis).Nodup := by
  cases p with
  | document top => cases axis <;> simp [along]
  | node id =>
    cases axis with
    | child => exact h.nodup_children id
    | self => exact List.nodup_singleton id
    | parent => cases hparent : t.parent? id <;> simp [along, hparent]
    | root => exact List.nodup_nil

/-- Nothing is left of nothing. -/
@[simp]
theorem filtered_nil (t : Tree) (es : List Expr) : filtered t es [] = .ok [] := by
  induction es with
  | nil => rfl
  | cons e es ih => exact ih

/-- A step chooses among the nodes on its axis; only a document is also its own place. -/
theorem Step.follow_eq (haxis : step.axis ≠ .root)
    (hself : step.axis = .self → ∃ id, p = .node id) :
    step.follow t p = step.filter t (p.along t step.axis) := by
  have hnone : step.filter t [] = .ok [] := by simp [filter]
  cases hstep : step.axis with
  | root => exact absurd hstep haxis
  | self =>
    obtain ⟨id, rfl⟩ := hself hstep
    simp only [follow, hstep, Place.along]
  | child => cases p <;> simp only [follow, hstep, Place.along]
  | parent =>
    cases p with
    | document top => simp only [follow, hstep, Place.along, hnone]
    | node id =>
      simp only [follow, hstep, Place.along]
      cases t.parent? id <;> simp [hnone]

/-- A step keeps some of the nodes on its axis, in their order, unless it stays at a document. -/
theorem Step.of_follow (haxis : step.axis ≠ .root) (hf : step.follow t p = .ok found) :
    (step.axis = .self ∧ found.Sublist [p]) ∨
      ∃ kept : List NodeId, kept.Sublist (p.along t step.axis) ∧ found = kept.map .node := by
  by_cases hself : step.axis = .self → ∃ id, p = .node id
  · rw [follow_eq haxis hself] at hf
    unfold filter at hf
    split at hf
    · cases hf
    next kept hkept =>
    cases hf
    exact .inr ⟨kept, (sublist_of_filtered hkept).trans List.filter_sublist, rfl⟩
  · obtain ⟨hstep, hp⟩ := Classical.not_imp.1 hself
    cases p with
    | node id => exact absurd ⟨id, rfl⟩ hp
    | document top =>
      simp only [follow, hstep] at hf
      cases hf
      refine .inl ⟨hstep, ?_⟩
      split
      · exact .refl _
      · exact List.nil_sublist _

/-- A step leads to a node on its axis, or stays where it is. -/
theorem Step.of_mem_follow (haxis : step.axis ≠ .root) (hf : step.follow t p = .ok found)
    (hq : q ∈ found) :
    step.axis = .self ∧ p = q ∨ ∃ c, q = .node c ∧ c ∈ p.along t step.axis := by
  rcases of_follow haxis hf with ⟨hself, hfound⟩ | ⟨kept, hkept, rfl⟩
  · exact .inl ⟨hself, (List.mem_singleton.1 (hfound.subset hq)).symm⟩
  · obtain ⟨c, hc, rfl⟩ := List.mem_map.1 hq
    exact .inr ⟨c, rfl, hkept.subset hc⟩

/-- Places that are nodes. -/
theorem map_filterMap_node (h : ∀ p ∈ places, ∃ id, p = .node id) :
    (places.filterMap Place.node?).map .node = places := by
  induction places with
  | nil => rfl
  | cons p places ih =>
    obtain ⟨⟨id, rfl⟩, hplaces⟩ := List.forall_mem_cons.1 h
    have hnode : (Place.node id).node? = some id := rfl
    rw [List.filterMap_cons_some hnode, List.map_cons, ih hplaces]

/-- The step stays where it is, whatever this is: it is a step to the node itself that tests no
name. -/
def Step.Stays (step : Step) : Prop := step.axis = .self ∧ step.name = none

/-- Whether a step stays where it is can be computed. -/
instance : DecidablePred Step.Stays := fun step =>
  inferInstanceAs (Decidable (step.axis = .self ∧ step.name = none))

/-- A step leads to nodes if it does not stay where it is or is taken at a node. -/
theorem Step.node_of_follow (haxis : step.axis ≠ .root)
    (h : ¬ step.Stays ∨ ∃ id, p = .node id) (hf : step.follow t p = .ok found) :
    ∀ q ∈ found, ∃ id, q = .node id := by
  intro q hq
  rcases of_mem_follow haxis hf hq with ⟨hself, rfl⟩ | ⟨c, rfl, -⟩
  · cases p with
    | node id => exact ⟨id, rfl⟩
    | document top =>
      -- a document passes no name test, so the step would stay where it is
      have hmoves : ¬ step.Stays := h.resolve_right fun ⟨_, hnode⟩ => by cases hnode
      have hname : step.name.isNone = false := Bool.eq_false_iff.2 fun hnone =>
        hmoves ⟨hself, Option.isNone_iff_eq_none.1 hnone⟩
      simp only [follow, hself, hname] at hf
      cases hf
      cases hq
  · exact ⟨c, rfl⟩

/-- A step to children does not stay where it is. -/
theorem Step.not_stays_of_child (haxis : step.axis = .child) : ¬ step.Stays := fun hstays => by
  cases haxis.symm.trans hstays.1

/-- Steps lead from nodes to nodes, and from anywhere if one of them does not stay where it is. -/
theorem node_of_walk (hsteps : Rootless steps)
    (h : (∃ step ∈ steps, ¬ step.Stays) ∨ ∀ p ∈ places, ∃ id, p = .node id)
    (hwalk : walk t steps places = .ok found) : ∀ q ∈ found, ∃ id, q = .node id := by
  induction steps generalizing places with
  | nil =>
    cases hwalk
    simpa using h
  | cons step steps ih =>
    obtain ⟨haxis, hsteps⟩ := List.forall_mem_cons.1 hsteps
    obtain ⟨next, hnext, hwalk⟩ := walk_cons_iff.1 hwalk
    refine ih hsteps ?_ hwalk
    -- if all later steps stay where they are, then this one does not or begins at nodes
    by_cases hlater : ∃ step ∈ steps, ¬ step.Stays
    · exact .inl hlater
    · refine .inr fun q hq => ?_
      obtain ⟨p, hp, own, hown, hq⟩ := (Step.mem_of_apply_iff haxis hnext).1 hq
      refine Step.node_of_follow haxis ?_ hown q hq
      rcases h with ⟨moving, hmem, hmoves⟩ | hnodes
      · rcases List.mem_cons.1 hmem with rfl | hmem
        · exact .inl hmoves
        · exact absurd ⟨moving, hmem, hmoves⟩ hlater
      · exact .inr (hnodes p hp)

/-! ## Paths that can be written -/

/-- A step to the document stands in front of all others, if there is one. -/
inductive RootFirst : List Step → Prop where
  /-- Steps along the tree. -/
  | relative {steps : List Step} (hsteps : Rootless steps) : RootFirst steps
  /-- Steps along the tree behind one to the document. -/
  | absolute {root : Step} {steps : List Step} (hroot : root.axis = .root)
    (hsteps : Rootless steps) : RootFirst (root :: steps)

/-- Steps between slashes go along the tree. -/
theorem Steps.rootless {tokens : List Token} (h : Steps tokens steps) : Rootless steps := by
  have htest : ∀ {tokens step}, Test tokens step → step.axis ≠ .root := by
    intro tokens step htest
    cases htest with
    | on haxis => cases haxis <;> simp
    | _ => simp
  induction h with
  | one h => exact List.forall_mem_singleton.2 (htest h :)
  | more h _ _ ih => exact List.forall_mem_cons.2 ⟨(htest h :), ih⟩

/-- A text is read as a path by its tokens. -/
theorem parse_of_tokens {text : String} {tokens : List Token} (htokens : tokensOf text = .ok tokens)
    (hsteps : parseTokens tokens = .ok steps) : Path.parse text = .ok ⟨text, steps⟩ := by
  unfold parse
  simp only [htokens, hsteps]

/-- A path that can be read goes to the document at its beginning at most. -/
theorem rootFirst_of_parse {text : String} {path : Path} (h : Path.parse text = .ok path) :
    RootFirst path.steps := by
  unfold parse at h
  split at h
  · cases h
  split at h
  · cases h
  next steps hsteps =>
  cases h
  cases written_of_parseTokens hsteps with
  | root => exact .absolute rfl (by simp [Rootless])
  | relative h => exact .relative h.rootless
  | absolute h => exact .absolute rfl h.rootless

/-- Behind a step to the document, a path goes on from the document. -/
theorem walk_root (hroot : root.axis = .root) (t : Tree) (steps : List Step) (id : NodeId) :
    walk t (root :: steps) [.node id] = walk t steps [.document (t.topOf id)] := by
  rw [walk, Step.apply, if_pos hroot]
  rfl

/-! ## Steps behind steps -/

/-- The steps lead to nodes and not to a document: they do not go to it, or they leave it again by
going to children. -/
inductive Landing : List Step → Prop where
  /-- Steps along the tree. -/
  | relative {steps : List Step} (hsteps : Rootless steps) : Landing steps
  /-- Steps along the tree behind one to the document, among them one to children. -/
  | absolute {root : Step} {steps : List Step} (hroot : root.axis = .root) (hsteps : Rootless steps)
    (hchild : ∃ step ∈ steps, step.axis = .child) : Landing (root :: steps)

/-- Where steps that lead to nodes lead from a node, they lead to the nodes that they select. -/
theorem Landing.evalSteps_iff_walk (h : Landing steps) :
    evalSteps t steps id = .ok ids ↔ walk t steps [.node id] = .ok (ids.map .node) := by
  have hnodes : ∀ found, walk t steps [.node id] = .ok found → ∀ q ∈ found, ∃ n, q = .node n := by
    intro found hwalk
    cases h with
    | relative hsteps => exact node_of_walk hsteps (.inr (by simp)) hwalk
    | absolute hroot hsteps hchild =>
      rw [walk_root hroot] at hwalk
      have hmoving := hchild.imp fun _ => And.imp_right Step.not_stays_of_child
      exact node_of_walk hsteps (.inl hmoving) hwalk
  unfold evalSteps
  cases hwalk : walk t steps [.node id] with
  | error e => simp
  | ok found =>
    have hfound := map_filterMap_node (hnodes found hwalk)
    simp only [Except.ok.injEq]
    constructor
    · rintro rfl
      exact hfound.symm
    · rintro rfl
      exact filterMap_map_node ids

/-- What steps along the tree select from several nodes is what they select from each, in order. -/
theorem walk_nodes_iff (hsteps : Rootless steps) :
    walk t steps (ids.map .node) = .ok found ↔
      ∃ parts, List.Forall₂ (fun n part => evalSteps t steps n = .ok part) ids parts ∧
        found = parts.flatten.map .node := by
  induction ids generalizing found with
  | nil => simp [eq_comm]
  | cons n ids ih =>
    rw [List.map_cons, ← List.singleton_append, walk_places_append_iff hsteps]
    simp only [ih, List.forall₂_cons_left_iff]
    constructor
    · rintro ⟨part, _, hpart, ⟨parts, hparts, rfl⟩, rfl⟩
      obtain ⟨own, rfl⟩ : ∃ own : List NodeId, part = own.map .node :=
        ⟨_, (map_filterMap_node (node_of_walk hsteps (.inr (by simp)) hpart)).symm⟩
      exact ⟨own :: parts, ⟨own, parts, (Landing.relative hsteps).evalSteps_iff_walk.2 hpart,
        hparts, rfl⟩, by simp⟩
    · rintro ⟨_, ⟨own, parts, hown, hparts, rfl⟩, rfl⟩
      exact ⟨_, _, (Landing.relative hsteps).evalSteps_iff_walk.1 hown, ⟨parts, hparts, rfl⟩,
        by simp⟩

/-- Steps that lead to nodes still do when there are steps along the tree behind them. -/
theorem Landing.append (hbefore : Landing before) (hbehind : Rootless behind) :
    Landing (before ++ behind) := by
  have hboth : ∀ {steps}, Rootless steps → Rootless (steps ++ behind) := fun hsteps step hstep =>
    (List.mem_append.1 hstep).elim (hsteps step) (hbehind step)
  cases hbefore with
  | relative hsteps => exact .relative (hboth hsteps)
  | absolute hroot hsteps hchild =>
    obtain ⟨step, hstep, haxis⟩ := hchild
    exact .absolute hroot (hboth hsteps) ⟨step, List.mem_append_left _ hstep, haxis⟩

/-- A path is evaluated piece by piece: steps and others behind them can be evaluated from a node
just when the first ones can and the others can from every node that these select. What they select
is then what the others select from these nodes, in their order and as often as they occur. -/
theorem evalSteps_append_iff (hbefore : Landing before) (hbehind : Rootless behind) :
    evalSteps t (before ++ behind) id = .ok ids ↔
      ∃ middle, evalSteps t before id = .ok middle ∧
        ∃ parts, List.Forall₂ (fun n part => evalSteps t behind n = .ok part) middle parts ∧
          ids = parts.flatten := by
  rw [(hbefore.append hbehind).evalSteps_iff_walk, walk_append_iff]
  constructor
  · rintro ⟨places, hplaces, hwalk⟩
    obtain ⟨middle, hmiddle⟩ : ∃ middle, evalSteps t before id = .ok middle := by
      rw [evalSteps, hplaces]
      exact ⟨_, rfl⟩
    obtain rfl : places = middle.map .node :=
      Except.ok.inj (hplaces.symm.trans (hbefore.evalSteps_iff_walk.1 hmiddle))
    obtain ⟨parts, hparts, hids⟩ := (walk_nodes_iff hbehind).1 hwalk
    exact ⟨middle, hmiddle, parts, hparts,
      List.map_injective_iff.2 (fun _ _ => Place.node.inj) hids⟩
  · rintro ⟨middle, hmiddle, parts, hparts, rfl⟩
    exact ⟨_, hbefore.evalSteps_iff_walk.1 hmiddle, (walk_nodes_iff hbehind).2 ⟨parts, hparts, rfl⟩⟩

/-- A tree with two lists of items. -/
def itemLists : Tree :=
  ((Tree.empty {}).addCopy
    (.mk 0 { name := "a" } [
      .mk 0 { name := "b" } [.mk 0 { name := "c" } [], .mk 0 { name := "c" } []],
      .mk 0 { name := "b" } [.mk 0 { name := "c" } []]])).1

/-- From the last item, the path `/a/b` selects the two lists, and from each of these `c/..` selects
the list as often as it has items; so does `/a/b/c/..` as a whole. -/
theorem evalSteps_append_itemLists :
    let before : List Step :=
      [.toRoot, { axis := .child, name := some "a" }, { axis := .child, name := some "b" }]
    let behind : List Step := [{ axis := .child, name := some "c" }, { axis := .parent }]
    Landing before ∧ Rootless behind ∧ evalSteps itemLists before 5 = .ok [1, 4] ∧
      evalSteps itemLists behind 1 = .ok [1, 1] ∧ evalSteps itemLists behind 4 = .ok [4] ∧
      evalSteps itemLists (before ++ behind) 5 = .ok [1, 1, 4] := by
  intro before behind
  have hbefore : Landing before := .absolute rfl (by decide) ⟨_, List.mem_cons_self, rfl⟩
  have hbehind : Rootless behind := by decide
  have hlists : evalSteps itemLists before 5 = .ok [1, 4] := rfl
  have hfirst : evalSteps itemLists behind 1 = .ok [1, 1] := rfl
  have hsecond : evalSteps itemLists behind 4 = .ok [4] := rfl
  exact ⟨hbefore, hbehind, hlists, hfirst, hsecond, (evalSteps_append_iff hbefore hbehind).2
    ⟨[1, 4], hlists, [[1, 1], [4]], .cons hfirst (.cons hsecond .nil), rfl⟩⟩

end Netconf.Path
