import Netconf.Proofs.Path.Descents
import Netconf.Proofs.Path.Words
import Netconf.Proofs.Text.Decimal
import Netconf.Proofs.Tree.Sprouts

/-!
# Predicates that assign

A predicate that equates a child or an attribute with a text or an integer can be read in two ways:
as an assignment, when a path is created, and as a question about a node. As a question it has
always an answer, which depends on the node only and not on the candidates (`Expr.met`), so that
steps with such predicates select the children that they admit (`descend_eq`). New children behind
the old ones change no answer to the better: what was admitted still is (`reached_subset`).
-/

namespace Netconf.Path

/-! ## Targets -/

/-- What a predicate assigns to. -/
inductive Target where
  /-- The child with a name. -/
  | child (name : String)
  /-- The attribute with a name. -/
  | attribute (name : String)
  deriving DecidableEq

/-- Is a literal equal to the text that is assigned for it? Texts and integers are. -/
def Literal.isExact : Literal → Bool
  | .decimal _ => false
  | _ => true

/-- What a predicate assigns to, if it equates a child or an attribute with a text or an integer. -/
def Expr.target? : Expr → Option Target
  | .binary (.compare .eq) (.child _ name) (.literal l) =>
    if l.isExact then some (.child name) else none
  | .binary (.compare .eq) (.attribute name) (.literal l) =>
    if l.isExact then some (.attribute name) else none
  | _ => none

/-- Predicates that assign to pairwise different targets, and declare no namespace. -/
structure Assign (predicates : List Expr) : Prop where
  /-- Each predicate assigns something. -/
  targets : ∀ e ∈ predicates, e.target?.isSome = true
  /-- No target is assigned twice. -/
  nodup : (predicates.filterMap Expr.target?).Nodup
  /-- The attribute that declares the default namespace is not assigned. -/
  plain : .attribute "xmlns" ∉ predicates.filterMap Expr.target?

/-- Whether predicates assign to pairwise different targets can be computed. -/
instance (predicates : List Expr) : Decidable (Assign predicates) :=
  decidable_of_iff ((∀ e ∈ predicates, e.target?.isSome = true) ∧
      (predicates.filterMap Expr.target?).Nodup ∧
      .attribute "xmlns" ∉ predicates.filterMap Expr.target?)
    ⟨fun h => ⟨h.1, h.2.1, h.2.2⟩, fun h => ⟨h.targets, h.nodup, h.plain⟩⟩

variable {t t' : Tree} {e : Expr} {l : Literal} {label : Option String} {name : String}

/-- A predicate that assigns something equates a child or an attribute with a literal. -/
theorem Expr.shape_of_target? {target : Target} (h : e.target? = some target) :
    (∃ label name l, e = .binary (.compare .eq) (.child label name) (.literal l) ∧
      l.isExact = true ∧ target = .child name) ∨
    ∃ name l, e = .binary (.compare .eq) (.attribute name) (.literal l) ∧
      l.isExact = true ∧ target = .attribute name := by
  unfold target? at h
  split at h
  · next label name l =>
    obtain ⟨hl, ht⟩ := Option.ite_none_right_eq_some.1 h
    exact .inl ⟨label, name, l, rfl, hl, (Option.some.inj ht).symm⟩
  · next name l =>
    obtain ⟨hl, ht⟩ := Option.ite_none_right_eq_some.1 h
    exact .inr ⟨name, l, rfl, hl, (Option.some.inj ht).symm⟩
  · cases h

/-! ## Equality with a literal -/

/-- The operand that a literal is. -/
def Literal.operand : Literal → Operand
  | .text s => .text s
  | .integer i => .integer i
  | .decimal x => .decimal x

/-- A literal yields its operand. -/
theorem eval_literal (s : Situation) (l : Literal) : (Expr.literal l).eval s = .ok l.operand := by
  cases l <;> rfl

/-- Whether a value is equal to a literal does not depend on the tree. -/
theorem equals_congr (t t' : Tree) (v : Value) (l : Literal) :
    Operand.equals t (.ofValue v) l.operand = Operand.equals t' (.ofValue v) l.operand := by
  cases v <;> cases l <;> rfl

/-- The number that a decimal number writes. -/
theorem ofText_decimal {i : Int} (hlow : 0 ≤ i) (hhigh : i ≤ Text.int64Max) :
    Number.ofText (toString i) = .integer i := by
  obtain ⟨n, rfl⟩ := Int.eq_ofNat_of_zero_le hlow
  have hread : Text.int64? (Text.strip (toString n).toList) = some (n : Int) := by
    rw [Text.strip_decimal, Text.int64?_decimal hhigh]
  show Number.ofText (toString n) = _
  unfold Number.ofText
  simp only [hread]

/-- A literal is equal to the text that is assigned for it. -/
theorem equals_assigned (t : Tree) (hl : l.isExact = true)
    (hint : ∀ i, l = .integer i → 0 ≤ i ∧ i ≤ Text.int64Max) :
    Operand.equals t (.ofValue (.text l.assigned)) l.operand = true := by
  cases l with
  | text s => exact beq_self_eq_true s
  | integer i =>
    obtain ⟨hlow, hhigh⟩ := hint i rfl
    have heq : (Number.ofText (toString i)).compare? (.integer i) = some .eq := by
      rw [ofText_decimal hlow hhigh]
      exact congrArg some (compare_eq_iff_eq.2 rfl)
    exact beq_iff_eq.2 heq
  | decimal x => cases hl

/-! ## Questions about a node -/

/-- Is a predicate true of a node, without other candidates? -/
def Expr.met (t : Tree) (id : NodeId) (e : Expr) : Bool :=
  match e.holds ⟨t, id, []⟩ with
  | .ok b => b
  | .error _ => false

/-- How a child is equated with a literal. -/
theorem holds_child (s : Situation) (label : Option String) (name : String) (l : Literal) :
    (Expr.binary (.compare .eq) (.child label name) (.literal l)).holds s =
      .ok (Operand.compared s.tree .eq
        (.ofValue? ((s.childrenNamed label name).head?.bind s.tree.value?)) l.operand) := by
  rw [Expr.holds, Expr.eval, Expr.eval, eval_literal]
  rfl

/-- How an attribute is equated with a literal. -/
theorem holds_attribute (s : Situation) (name : String) (l : Literal) :
    (Expr.binary (.compare .eq) (.attribute name) (.literal l)).holds s =
      .ok (Operand.compared s.tree .eq
        (.ofValue? (((s.tree.element s.node).attribute? name).map fun a => .text a.value))
        l.operand) := by
  rw [Expr.holds, Expr.eval, Expr.eval, eval_literal]
  cases (s.tree.element s.node).attribute? name <;> rfl

/-- Predicates that assign have answers, which do not depend on the candidates. -/
theorem holds_eq (he : e.target?.isSome = true) (s : Situation) :
    e.holds s = .ok (e.met s.tree s.node) := by
  obtain ⟨target, htarget⟩ := Option.isSome_iff_exists.1 he
  rcases Expr.shape_of_target? htarget with ⟨label, name, l, rfl, -, -⟩ | ⟨name, l, rfl, -, -⟩
  · rw [Expr.met, holds_child, holds_child]
    rfl
  · rw [Expr.met, holds_attribute, holds_attribute]

/-- An optional value is equated with a literal. -/
theorem compared_ofValue? {v : Option Value} :
    Operand.compared t .eq (.ofValue? v) l.operand = true ↔
      ∃ w, v = some w ∧ Operand.equals t (.ofValue w) l.operand = true := by
  cases v with
  | none => simp [Operand.compared, Operand.ofValue?]
  | some w =>
    have hvalue : (Operand.ofValue w == .null) = false := by cases w <;> rfl
    have hliteral : (l.operand == .null) = false := by cases l <;> rfl
    simp [Operand.compared, Operand.ofValue?, hvalue, hliteral]

/-- Does a child have a name, and the namespace that a label means where the child stands? -/
def isNamed (t : Tree) (label : Option String) (name : String) (c : NodeId) : Bool :=
  t.name c == name &&
    match label with
    | some l => t.nsOf? c l == t.ns? c
    | none => true

/-- The first child with a name. -/
theorem head?_childrenNamed (s : Situation) (label : Option String) (name : String) :
    (s.childrenNamed label name).head? =
      (s.tree.children s.node).find? (isNamed s.tree label name) :=
  List.head?_filter

/-- A child is equated with a literal: the first one with its name has a value equal to it. -/
theorem met_child {id : NodeId} :
    (Expr.binary (.compare .eq) (.child label name) (.literal l)).met t id = true ↔
      ∃ c v, (t.children id).find? (isNamed t label name) = some c ∧ t.value? c = some v ∧
        Operand.equals t (.ofValue v) l.operand = true := by
  rw [Expr.met, holds_child, head?_childrenNamed]
  refine compared_ofValue?.trans ?_
  simp only [Option.bind_eq_some_iff]
  constructor
  · rintro ⟨v, ⟨c, hc, hv⟩, heq⟩
    exact ⟨c, v, hc, hv, heq⟩
  · rintro ⟨c, v, hc, hv, heq⟩
    exact ⟨v, ⟨c, hc, hv⟩, heq⟩

/-- An attribute is equated with a literal: it is there, with a text equal to it. -/
theorem met_attribute {id : NodeId} :
    (Expr.binary (.compare .eq) (.attribute name) (.literal l)).met t id = true ↔
      ∃ a, (t.element id).attribute? name = some a ∧
        Operand.equals t (.ofValue (.text a.value)) l.operand = true := by
  rw [Expr.met, holds_attribute]
  refine compared_ofValue?.trans ?_
  simp only [Option.map_eq_some_iff]
  constructor
  · rintro ⟨_, ⟨a, ha, rfl⟩, heq⟩
    exact ⟨a, ha, heq⟩
  · rintro ⟨a, ha, heq⟩
    exact ⟨_, ⟨a, ha, rfl⟩, heq⟩

/-! ## Steps -/

/-- The candidates of which a predicate is true. -/
theorem satisfying_eq (he : e.target?.isSome = true) (candidates ids : List NodeId) :
    satisfying t e candidates ids = .ok (ids.filter fun id => e.met t id) :=
  satisfying_of_holds fun id _ => holds_eq he ⟨t, id, candidates⟩

/-- The nodes of which all predicates are true. -/
theorem filtered_eq {es : List Expr} (hes : ∀ e ∈ es, e.target?.isSome = true)
    (ids : List NodeId) :
    filtered t es ids = .ok (ids.filter fun id => es.all (Expr.met t id)) := by
  induction es generalizing ids with
  | nil => simp [filtered]
  | cons e es ih =>
    obtain ⟨he, hes⟩ := List.forall_mem_cons.1 hes
    rw [filtered, satisfying_eq he]
    simp only [ih hes, List.filter_filter, List.all_cons, Bool.and_comm]

/-- Does a step lead to a child, by its name and its predicates? -/
def Step.admits (step : Step) (t : Tree) (c : NodeId) : Bool :=
  step.accepts t c && step.predicates.all (Expr.met t c)

/-- The nodes that steps to children lead to by what they admit. -/
def reached (t : Tree) : List Step → List NodeId → List NodeId
  | [], ids => ids
  | step :: steps, ids =>
    reached t steps (ids.flatMap fun p => (t.children p).filter (step.admits t))

/-- A step whose predicates assign selects the children that it admits. -/
theorem Step.belowAll_eq {step : Step} (hstep : ∀ e ∈ step.predicates, e.target?.isSome = true)
    (ids : List NodeId) :
    step.belowAll t ids = .ok (ids.flatMap fun p => (t.children p).filter (step.admits t)) := by
  induction ids with
  | nil => rfl
  | cons p ps ih =>
    rw [belowAll, below, filtered_eq hstep, ih, List.flatMap_cons, List.filter_filter]
    have hadmits : ∀ c, (step.predicates.all (Expr.met t c) && step.accepts t c) =
        step.admits t c := fun c => Bool.and_comm _ _
    simp only [hadmits]
    rfl

variable {steps : List Step} {ids ids' : List NodeId}

/-- Steps whose predicates assign lead to what they admit. -/
theorem descend_eq (hsteps : ∀ step ∈ steps, ∀ e ∈ step.predicates, e.target?.isSome = true)
    (ids : List NodeId) : descend t steps ids = .ok (reached t steps ids) := by
  induction steps generalizing ids with
  | nil => rfl
  | cons step steps ih =>
    obtain ⟨hstep, hsteps⟩ := List.forall_mem_cons.1 hsteps
    rw [descend, Step.belowAll_eq hstep]
    exact ih hsteps _

/-- Nothing is reached from nothing. -/
theorem reached_nil (steps : List Step) : reached t steps [] = [] := by
  induction steps with
  | nil => rfl
  | cons step steps ih => exact ih

/-- What is reached by steps is reached by the first of them and then by the others. -/
theorem reached_append (t : Tree) (steps more : List Step) (ids : List NodeId) :
    reached t (steps ++ more) ids = reached t more (reached t steps ids) := by
  induction steps generalizing ids with
  | nil => rfl
  | cons step steps ih => exact ih _

/-- Where steps whose predicates assign lead to something, all of them are there. -/
theorem longestMatch_eq_reached (haxis : ∀ step ∈ steps, step.axis = .child)
    (hsteps : ∀ step ∈ steps, ∀ e ∈ step.predicates, e.target?.isSome = true)
    (hne : reached t steps ids ≠ []) :
    longestMatch t steps ids = .ok (reached t steps ids, []) := by
  induction steps generalizing ids with
  | nil => rfl
  | cons step steps ih =>
    obtain ⟨hstepaxis, haxis⟩ := List.forall_mem_cons.1 haxis
    obtain ⟨hstep, hsteps⟩ := List.forall_mem_cons.1 hsteps
    rw [longestMatch, Step.select_eq hstepaxis, Step.belowAll_eq hstep]
    rw [reached] at hne ⊢
    cases hnext : ids.flatMap fun p => (t.children p).filter (step.admits t) with
    | nil =>
      rw [hnext, reached_nil] at hne
      exact absurd rfl hne
    | cons c cs =>
      rw [hnext] at hne
      exact ih haxis hsteps hne

/-! ## New children -/

/-- Old nodes are named as before. -/
theorem isNamed_of_sprouts {new : NodeId → List NodeId} (hs : t.Sprouts new t') (h : t.Forest)
    {c : NodeId} (hc : c < t.size) : isNamed t' label name c = isNamed t label name c := by
  unfold isNamed
  rw [Tree.name, Tree.name, hs.element c hc]
  simp only [hs.nsOf? h hc, hs.ns? hc]

/-- A predicate that was true of a node is true of it when there are new children behind the old
ones. -/
theorem met_of_sprouts {new : NodeId → List NodeId} (hs : t.Sprouts new t') (h : t.Forest)
    (he : e.target?.isSome = true) {id : NodeId} (hid : id < t.size) (hmet : e.met t id = true) :
    e.met t' id = true := by
  obtain ⟨target, htarget⟩ := Option.isSome_iff_exists.1 he
  rcases Expr.shape_of_target? htarget with ⟨label, name, l, rfl, -, -⟩ | ⟨name, l, rfl, -, -⟩
  · obtain ⟨c, v, hc, hv, heq⟩ := met_child.1 hmet
    have hclt := h.child_lt (List.mem_of_find?_eq_some hc)
    refine met_child.2 ⟨c, v, ?_, ?_, (equals_congr t' t v l).trans heq⟩
    · rw [hs.children id hid, List.find?_append,
        List.find?_congr fun d hd => isNamed_of_sprouts hs h (h.child_lt hd), hc, Option.some_or]
    · rw [Tree.value?, hs.element c hclt]
      exact hv
  · obtain ⟨a, ha, heq⟩ := met_attribute.1 hmet
    exact met_attribute.2 ⟨a, by rw [hs.element id hid, ha], (equals_congr t' t _ l).trans heq⟩

/-- A step whose predicates assign admits what it did before there were new children. -/
theorem Step.admits_of_sprouts {new : NodeId → List NodeId} (hs : t.Sprouts new t') (h : t.Forest)
    {step : Step} (hstep : ∀ e ∈ step.predicates, e.target?.isSome = true) {c : NodeId}
    (hc : c < t.size) (hadmits : step.admits t c = true) : step.admits t' c = true := by
  rw [admits, Bool.and_eq_true, List.all_eq_true] at hadmits ⊢
  obtain ⟨haccepts, hmet⟩ := hadmits
  refine ⟨?_, fun e he => met_of_sprouts hs h (hstep e he) hc (hmet e he)⟩
  unfold accepts at haccepts ⊢
  rw [Tree.name, hs.element c hc]
  simp only [hs.nsOf? h hc, hs.ns? hc]
  exact haccepts

/-- What steps whose predicates assign lead to is reached when there are new children. -/
theorem reached_subset {new : NodeId → List NodeId} (hs : t.Sprouts new t') (h : t.Forest)
    (hsteps : ∀ step ∈ steps, ∀ e ∈ step.predicates, e.target?.isSome = true)
    (hids : ∀ id ∈ ids, id < t.size) (hsub : ids ⊆ ids') :
    reached t steps ids ⊆ reached t' steps ids' := by
  induction steps generalizing ids ids' with
  | nil => exact hsub
  | cons step steps ih =>
    obtain ⟨hstep, hsteps⟩ := List.forall_mem_cons.1 hsteps
    refine ih hsteps (fun c hc => ?_) fun c hc => ?_
    · obtain ⟨p, -, hcp⟩ := List.mem_flatMap.1 hc
      exact h.child_lt (List.mem_of_mem_filter hcp)
    · obtain ⟨p, hp, hcp⟩ := List.mem_flatMap.1 hc
      obtain ⟨hcp, hadmits⟩ := List.mem_filter.1 hcp
      refine List.mem_flatMap.2 ⟨p, hsub hp, List.mem_filter.2 ⟨?_, ?_⟩⟩
      · rw [hs.children p (hids p hp)]
        exact List.mem_append_left _ hcp
      · exact Step.admits_of_sprouts hs h hstep (h.child_lt hcp) hadmits

end Netconf.Path
