import Netconf.Proofs.Tree.Operations

/-!
# Steps to children

A step that goes to children selects, for one node after the other, some of the node's children in
order (`Step.belowAll`), and steps one after the other descend (`evalSteps_eq_descend`). Nodes that
are selected from pairwise different nodes are pairwise different, since no node is a child of two.
`Longest` describes how far the steps of a path lead before they select nothing, and
`longestMatch_eq` that the library finds this place.
-/

namespace Netconf.Path

variable {t : Tree} {step : Step} {steps : List Step} {p : NodeId} {ids found : List NodeId}

/-! ## Predicates -/

/-- A predicate that can be asked about all nodes keeps those of which it holds. -/
theorem satisfying_of_holds {e : Expr} {candidates : List NodeId} {keep : NodeId → Bool}
    (he : ∀ id ∈ ids, e.holds ⟨t, id, candidates⟩ = .ok (keep id)) :
    satisfying t e candidates ids = .ok (ids.filter keep) := by
  induction ids with
  | nil => rfl
  | cons id ids ih =>
    obtain ⟨hid, hids⟩ := List.forall_mem_cons.1 he
    rw [satisfying, hid, ih hids, List.filter_cons]

/-! ## One step -/

/-- The nodes of places that are nodes. -/
@[simp]
theorem filterMap_map_node (ids : List NodeId) :
    (ids.map Place.node).filterMap Place.node? = ids := by
  rw [List.filterMap_map]
  exact List.filterMap_some

/-- The children of a node that a step to children selects. -/
def Step.below (step : Step) (t : Tree) (p : NodeId) : Except PathError (List NodeId) :=
  filtered t step.predicates ((t.children p).filter (step.accepts t))

/-- The children of several nodes that a step to children selects. -/
def Step.belowAll (step : Step) (t : Tree) : List NodeId → Except PathError (List NodeId)
  | [] => .ok []
  | p :: ps => (step.below t p).bind fun found => (belowAll step t ps).map fun more => found ++ more

/-- The selected children of a node are some of its children. -/
theorem Step.sublist_of_below (hf : step.below t p = .ok found) : found.Sublist (t.children p) :=
  (sublist_of_filtered hf).trans List.filter_sublist

/-- A step to children leads to the selected ones. -/
theorem Step.followAll_eq (haxis : step.axis = .child) (ids : List NodeId) :
    step.followAll t (ids.map .node) = (step.belowAll t ids).map fun found => found.map .node := by
  induction ids with
  | nil => rfl
  | cons p ps ih =>
    have hfollow : step.follow t (.node p) = (step.below t p).map fun found => found.map .node := by
      simp only [follow, haxis, filter, below]
      cases filtered t step.predicates ((t.children p).filter (step.accepts t)) <;> rfl
    rw [List.map_cons, followAll, hfollow, ih, belowAll]
    cases step.below t p with
    | error e => rfl
    | ok found =>
      cases step.belowAll t ps with
      | error e => rfl
      | ok more => simp [Except.map, Except.bind]

/-- Where a step to children leads from nodes. -/
theorem Step.apply_eq (haxis : step.axis = .child) (ids : List NodeId) :
    step.apply t (ids.map .node) = (step.belowAll t ids).map fun found => found.map .node := by
  rw [apply, if_neg (by rw [haxis]; decide), followAll_eq haxis]

/-- The nodes that a step to children selects. -/
theorem Step.select_eq (haxis : step.axis = .child) (ids : List NodeId) :
    step.select t ids = step.belowAll t ids := by
  rw [select, apply_eq haxis]
  cases step.belowAll t ids with
  | error e => rfl
  | ok found => exact congrArg Except.ok (filterMap_map_node found)

/-- A selected node is a child of one of the nodes. -/
theorem Step.mem_of_belowAll (hf : step.belowAll t ids = .ok found) {c : NodeId}
    (hc : c ∈ found) : ∃ p ∈ ids, c ∈ t.children p := by
  induction ids generalizing found with
  | nil =>
    cases hf
    cases hc
  | cons p ps ih =>
    unfold belowAll at hf
    cases hp : step.below t p with
    | error e => rw [hp] at hf; cases hf
    | ok own =>
      cases hps : step.belowAll t ps with
      | error e => rw [hp, hps] at hf; cases hf
      | ok more =>
        rw [hp, hps] at hf
        cases hf
        rcases List.mem_append.1 hc with hc | hc
        · exact ⟨p, List.mem_cons_self, (sublist_of_below hp).subset hc⟩
        · obtain ⟨q, hq, hcq⟩ := ih hps hc
          exact ⟨q, List.mem_cons_of_mem p hq, hcq⟩

/-- The nodes selected from pairwise different ones are pairwise different. -/
theorem Step.nodup_of_belowAll (h : t.Forest) (hf : step.belowAll t ids = .ok found)
    (hids : ids.Nodup) : found.Nodup := by
  induction ids generalizing found with
  | nil =>
    cases hf
    exact List.nodup_nil
  | cons p ps ih =>
    obtain ⟨hp, hps⟩ := List.nodup_cons.1 hids
    unfold belowAll at hf
    cases hown : step.below t p with
    | error e => rw [hown] at hf; cases hf
    | ok own =>
      cases hmore : step.belowAll t ps with
      | error e => rw [hown, hmore] at hf; cases hf
      | ok more =>
        rw [hown, hmore] at hf
        cases hf
        refine ((h.nodup_children p).sublist (sublist_of_below hown)).append (ih hmore hps) ?_
        -- a common child would have two parents
        intro c hc hc'
        obtain ⟨q, hq, hcq⟩ := mem_of_belowAll hmore hc'
        have hpc := h.mem_children_iff.1 ((sublist_of_below hown).subset hc)
        rw [h.mem_children_iff, hpc] at hcq
        cases hcq
        exact hp hq

/-! ## Several steps -/

/-- The nodes that steps to children select one after the other. -/
def descend (t : Tree) : List Step → List NodeId → Except PathError (List NodeId)
  | [], ids => .ok ids
  | step :: steps, ids => (step.belowAll t ids).bind (descend t steps)

/-- Nothing is selected from nothing. -/
theorem descend_nil (steps : List Step) : descend t steps [] = .ok [] := by
  induction steps with
  | nil => rfl
  | cons step steps ih => exact ih

/-- Steps to children lead to the nodes that they descend to. -/
theorem walk_eq (hsteps : ∀ step ∈ steps, step.axis = .child) (ids : List NodeId) :
    walk t steps (ids.map .node) = (descend t steps ids).map fun found => found.map .node := by
  induction steps generalizing ids with
  | nil => rfl
  | cons step steps ih =>
    obtain ⟨haxis, hsteps⟩ := List.forall_mem_cons.1 hsteps
    rw [walk, Step.apply_eq haxis, descend]
    cases step.belowAll t ids with
    | error e => rfl
    | ok found => exact ih hsteps found

/-- Steps to children select the nodes that they descend to. -/
theorem evalSteps_eq_descend (hsteps : ∀ step ∈ steps, step.axis = .child) (id : NodeId) :
    evalSteps t steps id = descend t steps [id] := by
  rw [evalSteps, ← List.map_singleton, walk_eq hsteps]
  cases descend t steps [id] with
  | error e => rfl
  | ok found => exact congrArg Except.ok (filterMap_map_node found)

/-! ## The longest part -/

/-- `found` are the nodes that the first `k` steps select from a node, and no more of the steps
select any. -/
structure Longest (t : Tree) (steps : List Step) (id : NodeId) (k : Nat) (found : List NodeId) :
    Prop where
  /-- There are so many steps. -/
  le : k ≤ steps.length
  /-- The steps select the nodes. -/
  eval : evalSteps t (steps.take k) id = .ok found
  /-- There is a node. -/
  ne_nil : found ≠ []
  /-- More steps select nothing. -/
  maximal : ∀ j ≤ steps.length, ∀ more, evalSteps t (steps.take j) id = .ok more → more ≠ [] → j ≤ k

/-- The longest part that is there, of steps that can be evaluated. -/
theorem longestMatch_eq_of_descend {rest : List Step} {k : Nat} {all : List NodeId}
    (hsteps : ∀ step ∈ steps, step.axis = .child) (hall : descend t steps ids = .ok all)
    (hk : k ≤ steps.length) (hfound : descend t (steps.take k) ids = .ok found)
    (hne : found ≠ [])
    (hmax : ∀ j ≤ steps.length, ∀ more, descend t (steps.take j) ids = .ok more → more ≠ [] → j ≤ k)
    (hrest : rest = steps.drop k) : longestMatch t steps ids = .ok (found, rest) := by
  subst hrest
  induction steps generalizing ids k with
  | nil =>
    obtain rfl : k = 0 := Nat.le_zero.1 hk
    cases hfound
    rfl
  | cons step steps ih =>
    obtain ⟨haxis, hsteps⟩ := List.forall_mem_cons.1 hsteps
    unfold descend at hall
    rw [longestMatch, Step.select_eq haxis]
    cases hnext : step.belowAll t ids with
    | error e => rw [hnext] at hall; cases hall
    | ok next =>
      rw [hnext] at hall
      cases next with
      | nil =>
        -- the first step selects nothing, and so do more steps
        cases k with
        | zero =>
          cases hfound
          rfl
        | succ k =>
          rw [List.take_succ_cons, descend, hnext] at hfound
          have hnone : found = [] := Except.ok.inj (hfound.symm.trans (descend_nil _))
          exact absurd hnone hne
      | cons n next =>
        cases k with
        | zero =>
          refine absurd (hmax 1 (by simp) (n :: next) ?_ (by simp)) (by decide)
          rw [List.take_succ_cons, descend, hnext]
          rfl
        | succ k =>
          rw [List.take_succ_cons, descend, hnext] at hfound
          refine ih hsteps hall (Nat.le_of_succ_le_succ hk) hfound fun j hj more hmore hmne => ?_
          refine Nat.le_of_succ_le_succ (hmax (j + 1) (Nat.succ_le_succ hj) more ?_ hmne)
          rw [List.take_succ_cons, descend, hnext]
          exact hmore

/-- The library finds the longest part of a path, if all of the path can be evaluated. -/
theorem longestMatch_eq {id : NodeId} {k : Nat} (hl : Longest t steps id k found)
    (hsteps : ∀ step ∈ steps, step.axis = .child) {all : List NodeId}
    (hall : evalSteps t steps id = .ok all) :
    longestMatch t steps [id] = .ok (found, steps.drop k) := by
  have htake : ∀ j, evalSteps t (steps.take j) id = descend t (steps.take j) [id] := fun j =>
    evalSteps_eq_descend (fun step hstep => hsteps step (List.mem_of_mem_take hstep)) id
  rw [evalSteps_eq_descend hsteps] at hall
  refine longestMatch_eq_of_descend hsteps hall hl.le (by rw [← htake]; exact hl.eval) hl.ne_nil
    (fun j hj more hmore => ?_) rfl
  rw [← htake] at hmore
  exact hl.maximal j hj more hmore

/-- The nodes at which the longest part of a path ends are pairwise different. -/
theorem nodup_of_longestMatch (h : t.Forest) {rest : List Step}
    (hsteps : ∀ step ∈ steps, step.axis = .child)
    (hf : longestMatch t steps ids = .ok (found, rest)) (hids : ids.Nodup) : found.Nodup := by
  induction steps generalizing ids with
  | nil =>
    cases hf
    exact hids
  | cons step steps ih =>
    obtain ⟨haxis, hsteps⟩ := List.forall_mem_cons.1 hsteps
    unfold longestMatch at hf
    rw [Step.select_eq haxis] at hf
    split at hf
    · cases hf
    · cases hf
      exact hids
    · next next hnext => exact ih hsteps hf (Step.nodup_of_belowAll h hnext hids)

end Netconf.Path
