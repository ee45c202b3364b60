import Netconf.Proofs.Path.Continuations
import Netconf.Proofs.Tree.Reachable

/-!
# Steps that nothing passes

A step whose first predicate is never true selects nothing, whatever its axis and its name test are
and whatever stands behind it: a path with such a step selects nothing, unless a step in front of it
fails. There is one exception (`evalSteps_barred`). A step that stays at the document is not asked
for its predicates, since a document is no node, and so the path goes on as if the predicate were
not there.
-/

namespace Netconf.Path

variable {t : Tree} {step : Step} {steps before behind : List Step} {id : NodeId} {p : Place}
  {places : List Place}

/-- A step with a predicate in front of the others that is never true. -/
def Step.barred (step : Step) : Step :=
  { step with predicates := .call .false [] :: step.predicates }

/-! ## One step -/

/-- No node passes. -/
theorem Step.filter_barred (step : Step) (t : Tree) (ids : List NodeId) :
    step.barred.filter t ids = .ok [] := by
  have hnone : ∀ candidates, satisfying t (.call .false []) candidates candidates = .ok [] := by
    intro candidates
    have hfalse : satisfying t (.call .false []) candidates candidates =
        .ok (candidates.filter fun _ => false) := satisfying_of_holds fun _ _ => rfl
    rw [hfalse, List.filter_false]
  simp only [filter, barred, filtered, hnone, filtered_nil, List.map_nil]

/-- The step leads nowhere, unless it stays at a document. -/
theorem Step.follow_barred (haxis : step.axis ≠ .root) (h : ¬ step.Stays ∨ ∃ id, p = .node id)
    (t : Tree) : step.barred.follow t p = .ok [] := by
  have hroot : step.barred.axis ≠ .root := haxis
  by_cases hself : step.axis = .self → ∃ id, p = .node id
  · rw [follow_eq hroot hself, filter_barred]
  · obtain ⟨hstep, hp⟩ := Classical.not_imp.1 hself
    obtain ⟨top, rfl⟩ : ∃ top, p = .document top := by
      cases p with
      | document top => exact ⟨top, rfl⟩
      | node id => exact absurd ⟨id, rfl⟩ hp
    -- a document does not pass the name test of a step that does not stay
    have hname : step.name.isNone = false := Bool.eq_false_iff.2 fun hnone =>
      h.resolve_right hp ⟨hstep, Option.isNone_iff_eq_none.1 hnone⟩
    simp [follow, barred, hstep, hname]

/-- From several places the step leads nowhere, unless it stays at a document among them. -/
theorem Step.apply_barred (haxis : step.axis ≠ .root)
    (h : ¬ step.Stays ∨ ∀ p ∈ places, ∃ id, p = .node id) (t : Tree) :
    step.barred.apply t places = .ok [] := by
  have hroot : step.barred.axis ≠ .root := haxis
  induction places with
  | nil => rw [apply, if_neg hroot, followAll]
  | cons p places ih =>
    have hp : ¬ step.Stays ∨ ∃ id, p = .node id :=
      h.imp_right fun hall => hall p List.mem_cons_self
    have hplaces : ¬ step.Stays ∨ ∀ q ∈ places, ∃ id, q = .node id :=
      h.imp_right fun hall q hq => hall q (List.mem_cons_of_mem p hq)
    rw [← List.singleton_append, apply_append_iff hroot]
    exact ⟨[], [], (apply_singleton hroot t p).trans (follow_barred haxis hp t), ih hplaces, rfl⟩

/-- At a document a step that stays does so with any predicates. -/
theorem Step.apply_of_stays (h : step.Stays) (t : Tree) (top : NodeId) :
    step.apply t [.document top] = .ok [.document top] := by
  have hroot : step.axis ≠ .root := by simp [h.1]
  simp [apply_singleton hroot, follow, h.1, h.2]

/-! ## Steps at the document -/

/-- The steps go to the document and stay there. -/
def AtDocument : List Step → Prop
  | [] => False
  | root :: steps => root.axis = .root ∧ ∀ step ∈ steps, step.Stays

/-- Whether steps go to the document and stay there can be computed. -/
instance : DecidablePred AtDocument := fun
  | [] => inferInstanceAs (Decidable False)
  | root :: steps => inferInstanceAs (Decidable (root.axis = .root ∧ ∀ step ∈ steps, step.Stays))

/-- Steps that stay lead from a document to this document. -/
theorem walk_of_stays (hsteps : ∀ step ∈ steps, step.Stays) (t : Tree) (top : NodeId) :
    walk t steps [.document top] = .ok [.document top] := by
  induction steps with
  | nil => rfl
  | cons step steps ih =>
    obtain ⟨hstays, hsteps⟩ := List.forall_mem_cons.1 hsteps
    exact walk_cons_iff.2 ⟨_, Step.apply_of_stays hstays t top, ih hsteps⟩

/-- Steps that go to the document and stay there lead from a node to the document of its tree. -/
theorem AtDocument.walk_eq (h : AtDocument steps) (t : Tree) (id : NodeId) :
    walk t steps [.node id] = .ok [.document (t.topOf id)] := by
  cases steps with
  | nil => exact h.elim
  | cons root steps => rw [walk_root h.1, walk_of_stays h.2]

/-- Other steps lead from a node to nodes only. -/
theorem RootFirst.node_of_walk (hsteps : RootFirst steps) (h : ¬ AtDocument steps)
    (hwalk : walk t steps [.node id] = .ok places) : ∀ p ∈ places, ∃ n, p = .node n := by
  cases hsteps with
  | relative hsteps => exact Path.node_of_walk hsteps (.inr (by simp)) hwalk
  | @absolute root steps hroot hsteps =>
    rw [walk_root hroot] at hwalk
    have hmoving : ∃ step ∈ steps, ¬ step.Stays := by
      by_contra hnone
      exact h ⟨hroot, fun step hstep => by_contra fun hmoves => hnone ⟨step, hstep, hmoves⟩⟩
    exact Path.node_of_walk hsteps (.inl hmoving) hwalk

/-! ## Paths -/

/-- The first steps of a path that can be written can be written themselves. -/
theorem RootFirst.of_append (h : RootFirst (before ++ step :: behind)) (haxis : step.axis ≠ .root) :
    RootFirst before := by
  generalize hsteps : before ++ step :: behind = steps at h
  cases h with
  | relative hrootless =>
    exact .relative fun s hs => hrootless s (hsteps ▸ List.mem_append_left _ hs)
  | absolute hroot hrootless =>
    rcases List.append_eq_cons_iff.1 hsteps with ⟨-, hcons⟩ | ⟨first, rfl, rfl⟩
    · cases hcons
      exact absurd hroot haxis
    · exact .absolute hroot fun s hs => hrootless s (List.mem_append_left _ hs)

/-- When one of the steps of a path that was read gets a predicate in front of the others that is
never true, the path selects nothing, or it fails where the steps in front of this one fail. Only
where these steps go to the document, and this one stays there with them, the predicate makes no
difference. -/
theorem evalSteps_barred {text : String} {path : Path} (hparse : Path.parse text = .ok path)
    (hsteps : path.steps = before ++ step :: behind) (haxis : step.axis ≠ .root) (t : Tree)
    (id : NodeId) :
    (¬ (AtDocument before ∧ step.Stays) →
      evalSteps t (before ++ step.barred :: behind) id = (evalSteps t before id).map fun _ => []) ∧
    (AtDocument before ∧ step.Stays →
      evalSteps t (before ++ step.barred :: behind) id =
        evalSteps t (before ++ step :: behind) id) := by
  have hfirst : RootFirst before := (hsteps ▸ rootFirst_of_parse hparse).of_append haxis
  constructor
  · intro hleaves
    rw [evalSteps, evalSteps, walk_append]
    cases hwalk : walk t before [.node id] with
    | error e => rfl
    | ok places =>
      have hplaces : ¬ step.Stays ∨ ∀ p ∈ places, ∃ n, p = .node n := by
        by_cases hstays : step.Stays
        · exact .inr (hfirst.node_of_walk (fun hat => hleaves ⟨hat, hstays⟩) hwalk)
        · exact .inl hstays
      have hbarred : walk t (step.barred :: behind) places = .ok [] :=
        walk_cons_iff.2 ⟨[], Step.apply_barred haxis hplaces t, walk_nil t behind⟩
      simp [Except.bind, Except.map, hbarred]
  · rintro ⟨hat, hstays⟩
    have hbarred : step.barred.Stays := hstays
    have hsame : ∀ {s : Step}, s.Stays →
        walk t (before ++ s :: behind) [.node id] = walk t behind [.document (t.topOf id)] := by
      intro s hs
      rw [walk_append, hat.walk_eq, Except.bind, walk, Step.apply_of_stays hs]
    rw [evalSteps, evalSteps, hsame hbarred, hsame hstays]

/-- With a predicate that is never true at its step `b`, the path `/./a/b/c[1]/..` selects nothing.
With one at its dot, which stays at the document, it selects the two lists, as it does without. -/
theorem evalSteps_barred_itemLists :
    let dot : Step := { axis := .self }
    let a : Step := { axis := .child, name := some "a" }
    let b : Step := { axis := .child, name := some "b" }
    let items : List Step :=
      [{ axis := .child, name := some "c", predicates := [.literal (.integer 1)] },
        { axis := .parent }]
    let path : Path := ⟨"/./a/b/c[1]/..", .toRoot :: dot :: a :: b :: items⟩
    Path.parse "/./a/b/c[1]/.." = .ok path ∧
      path.steps = [.toRoot, dot, a] ++ b :: items ∧ b.axis ≠ .root ∧
      ¬ (AtDocument [.toRoot, dot, a] ∧ b.Stays) ∧
      evalSteps itemLists ([.toRoot, dot, a] ++ b.barred :: items) 0 = .ok [] ∧
      path.steps = [.toRoot] ++ dot :: a :: b :: items ∧ dot.axis ≠ .root ∧
      (AtDocument [.toRoot] ∧ dot.Stays) ∧
      evalSteps itemLists ([.toRoot] ++ dot.barred :: a :: b :: items) 0 = .ok [1, 4] := by
  intro dot a b items path
  have htokens : tokensOf "/./a/b/c[1]/.." = .ok [.slash, .dot, .slash, .atom "a", .slash,
      .atom "b", .slash, .atom "c", .openBracket, .integer 1, .closeBracket, .slash, .dotDot] := rfl
  have hparse : Path.parse "/./a/b/c[1]/.." = .ok path := parse_of_tokens htokens rfl
  have hinner : path.steps = [.toRoot, dot, a] ++ b :: items := rfl
  have houter : path.steps = [.toRoot] ++ dot :: a :: b :: items := rfl
  have hleaves : ¬ (AtDocument [.toRoot, dot, a] ∧ b.Stays) := by decide
  have hat : AtDocument [.toRoot] ∧ dot.Stays := by decide
  have hfront : evalSteps itemLists [.toRoot, dot, a] 0 = .ok [0] := rfl
  have hlists : evalSteps itemLists ([.toRoot] ++ dot :: a :: b :: items) 0 = .ok [1, 4] := rfl
  have hbarred := (evalSteps_barred hparse hinner (by decide) itemLists 0).1 hleaves
  have hpassed := (evalSteps_barred hparse houter (by decide) itemLists 0).2 hat
  rw [hfront] at hbarred
  exact ⟨hparse, hinner, by decide, hleaves, hbarred, houter, by decide, hat, hpassed.trans hlists⟩

/-- A single element. -/
def loneTop : Tree := ((Tree.empty (.standard 0)).addCopy (.mk 0 { name := "a" } [])).1

/-- A predicate that is never true does not keep a path from selecting the top element when it is at
a step that stays at the document. -/
theorem query_passes_barrier :
    Xml.parse (.standard 0) none "<a/>" = .ok ⟨loneTop, 0⟩ ∧ loneTop.Reachable ∧
      Path.parse "/.[false()]/a" = .ok ⟨"/.[false()]/a",
        [.toRoot, Step.barred { axis := .self }, { axis := .child, name := some "a" }]⟩ ∧
      loneTop.query 0 "/.[false()]/a" = .ok [0] := by
  have hdocument : Xml.parse (.standard 0) none "<a/>" = .ok ⟨loneTop, 0⟩ := rfl
  have htokens : tokensOf "/.[false()]/a" = .ok [.slash, .dot, .openBracket, .atom "false",
      .openParen, .closeParen, .closeBracket, .slash, .atom "a"] := rfl
  have hpath : Path.parse "/.[false()]/a" = .ok ⟨"/.[false()]/a",
      [.toRoot, Step.barred { axis := .self }, { axis := .child, name := some "a" }]⟩ :=
    parse_of_tokens htokens rfl
  refine ⟨hdocument, .parsed hdocument, hpath, ?_⟩
  rw [Tree.query, hpath]
  rfl

end Netconf.Path
