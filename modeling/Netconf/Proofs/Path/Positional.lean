import Netconf.Proofs.Path.Continuations

/-!
# Predicates that ask for a position

A last predicate of a step that asks for a position chooses, for each node from which the step is
taken, among what the step selects from this node alone: it counts from one, and it starts again at
each node (`select_positional`). A predicate finds the position of a node by looking for it among
the candidates. This is where the node stands because no candidate is there twice, as no node is
twice on an axis behind a node (`Place.nodup_along`).
-/

namespace Netconf.Path

variable {t : Tree} {step : Step} {e : Expr} {k : Int} {c : NodeId} {ids found part : List NodeId}
  {parts : List (List NodeId)} {pick : List NodeId → List NodeId}

/-! ## Positions in a list -/

/-- The node at a position of a list, counted from one; there is none if the position is not in the
list. -/
def atPosition? (k : Int) (ids : List NodeId) : Option NodeId :=
  if 0 < k then ids[(k - 1).toNat]? else none

/-- The nodes from a position of a list on. -/
def fromPosition (k : Int) (ids : List NodeId) : List NodeId := ids.drop (k - 1).toNat

/-- What is asked about the indices of a list is asked about the index of its first node, and about
those of the others one further. -/
theorem filter_idxOf_cons (h : (c :: ids).Nodup) (p : Nat → Bool) :
    ((c :: ids).filter fun id => p ((c :: ids).idxOf id)) =
      (if p 0 then [c] else []) ++ ids.filter fun id => p (ids.idxOf id + 1) := by
  have hrest : (ids.filter fun id => p ((c :: ids).idxOf id)) =
      ids.filter fun id => p (ids.idxOf id + 1) := by
    refine List.filter_congr fun id hid => ?_
    rw [List.idxOf_cons_ne ids fun (heq : c = id) => (List.nodup_cons.1 h).1 (heq ▸ hid)]
  rw [List.filter_cons, List.idxOf_cons_self, hrest]
  split <;> rfl

/-- The node at an index of a list without repetitions. -/
theorem filter_idxOf_eq (h : ids.Nodup) (n : Nat) :
    (ids.filter fun id => n == ids.idxOf id) = ids[n]?.toList := by
  induction ids generalizing n with
  | nil => rfl
  | cons c ids ih =>
    rw [filter_idxOf_cons h fun i => n == i]
    cases n with
    | zero => simp
    | succ n => simpa using ih (List.nodup_cons.1 h).2 n

/-- The nodes from an index of a list without repetitions on. -/
theorem filter_le_idxOf (h : ids.Nodup) (n : Nat) :
    (ids.filter fun id => n ≤ ids.idxOf id) = ids.drop n := by
  induction ids generalizing n with
  | nil => simp
  | cons c ids ih =>
    rw [filter_idxOf_cons h fun i => n ≤ i]
    cases n with
    | zero => simp
    | succ n => simpa using ih (List.nodup_cons.1 h).2 n

/-- The node at a position of a list without repetitions. -/
theorem filter_position_eq (h : ids.Nodup) (k : Int) :
    (ids.filter fun id => k == (ids.idxOf id : Int) + 1) = (atPosition? k ids).toList := by
  unfold atPosition?
  -- positions count from one and indices from zero, and no index is negative
  split
  · rw [← filter_idxOf_eq h]
    refine List.filter_congr fun id _ => ?_
    rw [Bool.eq_iff_iff, beq_iff_eq, beq_iff_eq]
    omega
  · refine List.filter_eq_nil_iff.2 fun id _ => ?_
    rw [beq_iff_eq]
    omega

/-- The nodes from a position of a list without repetitions on. -/
theorem filter_le_position (h : ids.Nodup) (k : Int) :
    (ids.filter fun id => k ≤ (ids.idxOf id : Int) + 1) = fromPosition k ids := by
  rw [fromPosition, ← filter_le_idxOf h]
  refine List.filter_congr fun id _ => ?_
  rw [decide_eq_decide]
  omega

/-- The last node is at the position that is as great as the list is long. -/
theorem atPosition?_length (ids : List NodeId) : atPosition? ids.length ids = ids.getLast? := by
  rw [atPosition?, List.getLast?_eq_getElem?]
  cases ids with
  | nil => rfl
  | cons c ids => simp

/-! ## Predicates -/

/-- An integer as it is written in a path: a negative one behind a sign. -/
def Expr.ofInt (k : Int) : Expr :=
  if k < 0 then .neg (.literal (.integer (-k))) else .literal (.integer k)

/-- An integer of 64 bits yields itself. -/
theorem Expr.eval_ofInt (hk : Text.fitsInt64 k) (s : Situation) :
    (Expr.ofInt k).eval s = .ok (.integer k) := by
  unfold ofInt
  split
  · have hneg : (Operand.integer (-k)).negated s.tree = .ok (.integer k) := by
      show Operand.checked (- -k) = _
      rw [Int.neg_neg, Operand.checked, if_pos hk]
    simpa [Expr.eval] using hneg
  · rfl

/-- A candidate's position is one more than its index. -/
theorem Situation.position_eq (hc : c ∈ ids) :
    (⟨t, c, ids⟩ : Situation).position = (ids.idxOf c : Int) + 1 := by
  obtain ⟨i, hi⟩ := Option.isSome_iff_exists.1 (List.isSome_idxOf?.2 hc)
  rw [List.idxOf_eq_getD_idxOf?]
  unfold position
  simp only [hi, Option.getD_some]

/-- A predicate that asks about positions keeps the candidates at the positions it asks for. -/
theorem satisfying_of_position {p : Int → Bool}
    (he : ∀ s : Situation, s.candidates = ids → e.holds s = .ok (p s.position)) :
    satisfying t e ids ids = .ok (ids.filter fun c => p ((ids.idxOf c : Int) + 1)) :=
  satisfying_of_holds fun c hc => by rw [he ⟨t, c, ids⟩ rfl, Situation.position_eq hc]

/-- An integer asks for the candidate at this position. -/
theorem satisfying_ofInt (hk : Text.fitsInt64 k) (hnodup : ids.Nodup) :
    satisfying t (.ofInt k) ids ids = .ok (atPosition? k ids).toList := by
  rw [← filter_position_eq hnodup]
  refine satisfying_of_position (p := fun i => k == i) fun s _ => ?_
  rw [Expr.holds, Expr.eval_ofInt hk]

/-- The number of candidates asks for the last one. -/
theorem satisfying_last (hnodup : ids.Nodup) :
    satisfying t (.call .last []) ids ids = .ok ids.getLast?.toList := by
  rw [← atPosition?_length, ← filter_position_eq hnodup]
  refine satisfying_of_position (p := fun i => (ids.length : Int) == i) fun s hs => ?_
  rw [Expr.holds, Expr.eval, hs]

/-- How a position is compared with an integer. -/
theorem holds_position (hk : Text.fitsInt64 k) (o : Comparison) (s : Situation) :
    (Expr.binary (.compare o) (.call .position []) (.ofInt k)).holds s =
      .ok (Operand.compared s.tree o (.integer s.position) (.integer k)) := by
  rw [Expr.holds, Expr.eval, Expr.eval, Expr.eval_ofInt hk]
  rfl

/-- How integers are compared for equality. -/
theorem compared_eq (t : Tree) (i j : Int) :
    Operand.compared t .eq (.integer i) (.integer j) = (i == j) := by
  have horder : Operand.compared t .eq (.integer i) (.integer j) = (compare i j == .eq) := rfl
  rw [horder, Bool.eq_iff_iff, beq_iff_eq, beq_iff_eq, compare_eq_iff_eq]

/-- How integers are compared in order. -/
theorem compared_ge (t : Tree) (i j : Int) :
    Operand.compared t .ge (.integer i) (.integer j) = decide (j ≤ i) := by
  have horder : Operand.compared t .ge (.integer i) (.integer j) = (compare i j != .lt) := rfl
  rw [horder, Bool.eq_iff_iff, bne_iff_ne, decide_eq_true_iff, ← compare_ge_iff_ge]

/-- A position that must be equal to an integer is this position. -/
theorem satisfying_position_eq (hk : Text.fitsInt64 k) (hnodup : ids.Nodup) :
    satisfying t (.binary (.compare .eq) (.call .position []) (.ofInt k)) ids ids =
      .ok (atPosition? k ids).toList := by
  rw [← filter_position_eq hnodup]
  refine satisfying_of_position (p := fun i => k == i) fun s _ => ?_
  rw [holds_position hk, compared_eq, Bool.beq_comm]

/-- A position that must be at least an integer is this one or behind it. -/
theorem satisfying_position_ge (hk : Text.fitsInt64 k) (hnodup : ids.Nodup) :
    satisfying t (.binary (.compare .ge) (.call .position []) (.ofInt k)) ids ids =
      .ok (fromPosition k ids) := by
  rw [← filter_le_position hnodup]
  refine satisfying_of_position (p := fun i => decide (k ≤ i)) fun s _ => ?_
  rw [holds_position hk, compared_ge]

/-- Predicates are asked one after the other. -/
theorem filtered_append (t : Tree) (es es' : List Expr) (ids : List NodeId) :
    filtered t (es ++ es') ids = (filtered t es ids).bind (filtered t es') := by
  induction es generalizing ids with
  | nil => rfl
  | cons e es ih =>
    rw [List.cons_append, filtered, filtered]
    cases satisfying t e ids ids with
    | error e => rfl
    | ok rest => exact ih rest

/-! ## Steps -/

/-- A step with one more predicate behind the others. -/
def Step.extended (step : Step) (e : Expr) : Step :=
  { step with predicates := step.predicates ++ [e] }

/-- What a step selects from several nodes is what it selects from each, in order. -/
theorem Step.select_iff (haxis : step.axis ≠ .root) :
    step.select t ids = .ok found ↔
      ∃ parts, List.Forall₂ (fun c part => step.select t [c] = .ok part) ids parts ∧
        found = parts.flatten := by
  have hsteps : Rootless [step] := List.forall_mem_singleton.2 haxis
  have hwalk : ∀ places, walk t [step] places = step.apply t places := by
    intro places
    rw [walk]
    cases step.apply t places <;> rfl
  have hone : ∀ c, evalSteps t [step] c = step.select t [c] := by
    intro c
    rw [evalSteps, hwalk, select, List.map_singleton]
  have hmany : ∀ {places}, step.apply t (ids.map .node) = .ok places ↔
      ∃ parts, List.Forall₂ (fun c part => step.select t [c] = .ok part) ids parts ∧
        places = parts.flatten.map .node := by
    intro places
    rw [← hwalk, walk_nodes_iff hsteps]
    simp only [hone]
  unfold select
  constructor
  · intro hfound
    split at hfound
    · cases hfound
    next places hplaces =>
    cases hfound
    obtain ⟨parts, hparts, rfl⟩ := hmany.1 hplaces
    exact ⟨parts, hparts, filterMap_map_node _⟩
  · rintro ⟨parts, hparts, rfl⟩
    rw [hmany.2 ⟨parts, hparts, rfl⟩]
    exact congrArg Except.ok (filterMap_map_node _)

/-- A step selects from a node what its predicates leave over on its axis. -/
theorem Step.select_singleton (haxis : step.axis ≠ .root) (t : Tree) (c : NodeId) :
    step.select t [c] =
      filtered t step.predicates (((Place.node c).along t step.axis).filter (step.accepts t)) := by
  rw [select, List.map_singleton, apply_singleton haxis, follow_eq haxis fun _ => ⟨c, rfl⟩, filter]
  cases filtered t step.predicates (((Place.node c).along t step.axis).filter (step.accepts t)) with
  | error e => rfl
  | ok kept => exact congrArg Except.ok (filterMap_map_node kept)

/-- One more predicate chooses among what the step selects from a node without it. -/
theorem Step.select_extended_singleton (h : t.Forest) (haxis : step.axis ≠ .root)
    (he : ∀ {ids}, ids.Nodup → satisfying t e ids ids = .ok (pick ids))
    (hpart : step.select t [c] = .ok part) :
    (step.extended e).select t [c] = .ok (pick part) := by
  rw [select_singleton haxis] at hpart
  have hnodup : part.Nodup :=
    (((Place.node c).nodup_along h step.axis).filter _).sublist (sublist_of_filtered hpart)
  have hextended : (step.extended e).axis ≠ .root := haxis
  rw [select_singleton hextended]
  show filtered t (step.predicates ++ [e])
    (((Place.node c).along t step.axis).filter (step.accepts t)) = _
  -- the new predicate is asked about what the others left over
  rw [filtered_append, hpart, Except.bind, filtered, he hnodup]
  rfl

/-- One more predicate chooses among what the step selects without it, for each node by itself. -/
theorem Step.select_extended (h : t.Forest) (haxis : step.axis ≠ .root)
    (he : ∀ {ids}, ids.Nodup → satisfying t e ids ids = .ok (pick ids))
    (hparts : List.Forall₂ (fun c part => step.select t [c] = .ok part) ids parts) :
    (step.extended e).select t ids = .ok (parts.flatMap pick) := by
  have hextended : (step.extended e).axis ≠ .root := haxis
  refine (select_iff hextended).2 ⟨parts.map pick, ?_, List.flatMap_def⟩
  exact List.forall₂_map_right_iff.2
    (hparts.imp fun _ _ hpart => select_extended_singleton h haxis he hpart)

/-- A last predicate that asks for a position chooses, for one node after the other, among what the
step selects from this node without it. An integer chooses the node at this position and `last()`
the last node. Where `position()` must be equal to an integer, the predicate chooses the node at
this position, and where it must be at least the integer, the nodes from this position on. -/
theorem select_positional (h : t.Forest) (haxis : step.axis ≠ .root) (hk : Text.fitsInt64 k)
    (hfound : step.select t ids = .ok found) :
    ∃ parts, List.Forall₂ (fun c part => step.select t [c] = .ok part) ids parts ∧
      found = parts.flatten ∧
      (step.extended (.ofInt k)).select t ids =
        .ok (parts.flatMap fun part => (atPosition? k part).toList) ∧
      (step.extended (.call .last [])).select t ids =
        .ok (parts.flatMap fun part => part.getLast?.toList) ∧
      (step.extended (.binary (.compare .eq) (.call .position []) (.ofInt k))).select t ids =
        .ok (parts.flatMap fun part => (atPosition? k part).toList) ∧
      (step.extended (.binary (.compare .ge) (.call .position []) (.ofInt k))).select t ids =
        .ok (parts.flatMap (fromPosition k)) := by
  obtain ⟨parts, hparts, hflatten⟩ := (Step.select_iff haxis).1 hfound
  exact ⟨parts, hparts, hflatten,
    Step.select_extended h haxis (satisfying_ofInt hk) hparts,
    Step.select_extended h haxis satisfying_last hparts,
    Step.select_extended h haxis (satisfying_position_eq hk) hparts,
    Step.select_extended h haxis (satisfying_position_ge hk) hparts⟩

/-- From both lists, `c[count(d) = 0]` selects all items. With `[2]` behind it, it selects the
second item of the first list, since the second list has one item only, and with `[last()]` the last
item of each. -/
theorem select_positional_itemLists :
    let step : Step := { axis := .child, name := some "c", predicates := [.binary (.compare .eq)
      (.call .count [.child none "d"]) (.literal (.integer 0))] }
    itemLists.Forest ∧ step.axis ≠ .root ∧ Text.fitsInt64 2 ∧
      step.select itemLists [1, 4] = .ok [2, 3, 5] ∧
      Path.parse "c[count(d) = 0][2]" = .ok ⟨"c[count(d) = 0][2]", [step.extended (.ofInt 2)]⟩ ∧
      (step.extended (.ofInt 2)).select itemLists [1, 4] = .ok [3] ∧
      (step.extended (.call .last [])).select itemLists [1, 4] = .ok [3, 5] := by
  intro step
  have hforest : itemLists.Forest := (Tree.forest_empty {}).addCopy _
  have haxis : step.axis ≠ .root := by decide
  have htokens : tokensOf "c[count(d) = 0][2]" = .ok [.atom "c", .openBracket, .atom "count",
      .openParen, .atom "d", .closeParen, .comparison .eq, .integer 0, .closeBracket, .openBracket,
      .integer 2, .closeBracket] := rfl
  have hitems : step.select itemLists [1, 4] = .ok [2, 3, 5] := rfl
  obtain ⟨parts, hparts, -, hsecond, hlast, -, -⟩ :=
    select_positional hforest haxis (k := 2) (by decide) hitems
  obtain rfl : parts = [[2, 3], [5]] := by
    obtain ⟨items, _, hitems, hrest, rfl⟩ := List.forall₂_cons_left_iff.1 hparts
    obtain ⟨others, _, hothers, hnil, rfl⟩ := List.forall₂_cons_left_iff.1 hrest
    obtain rfl := List.forall₂_nil_left_iff.1 hnil
    cases hitems
    cases hothers
    rfl
  exact ⟨hforest, haxis, by decide, hitems, parse_of_tokens htokens rfl, hsecond, hlast⟩

end Netconf.Path
