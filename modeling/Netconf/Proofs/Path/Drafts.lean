import Netconf.Path.Create

/-!
# What a path is to make

Whether the nodes of steps can be made, and what they carry, depends on the steps, on the namespace
of the node above and on the meanings of labels only. `drafts` says this without a tree: for each
step the node that it makes, with the children that its predicates assign, and nothing at all if a
label has no namespace, a predicate assigns nothing, or a step does not go to a child.
-/

namespace Netconf.Path

/-- The namespace that a label means, or `other` where there is no label. -/
def labelNs? (bindings : Bindings) (label other : Option String) : Option String :=
  match label with
  | some p => bindings.ns? p
  | none => other

/-! ## Predicates -/

/-- The node `e` with what a predicate assigns to it, if it assigns anything. -/
def Expr.assigned? (bindings : Bindings) (e : Entry) : Expr → Option Entry
  | .binary (.compare .eq) (.child label name) (.literal l) =>
    (labelNs? bindings label (some (e.element.ns.getD ""))).map fun ns =>
      { e with members := e.members ++ [{ ns := some ns, name, value := some (.text l.assigned) }] }
  | .binary (.compare .eq) (.attribute name) (.literal l) =>
    some { e with element := e.element.setAttribute name l.assigned }
  | _ => none

/-- Does a predicate assign a child? -/
def Expr.assignsChild : Expr → Bool
  | .binary (.compare .eq) (.child _ _) (.literal _) => true
  | _ => false

variable {bindings : Bindings} {e e' : Entry} {predicate : Expr} {predicates : List Expr}

/-- What is assigned to a node leaves its name and namespace. -/
theorem sameName_of_assigned? (h : predicate.assigned? bindings e = some e') :
    e'.element.name = e.element.name ∧ e'.element.ns = e.element.ns := by
  unfold Expr.assigned? at h
  split at h
  · obtain ⟨ns, -, rfl⟩ := Option.map_eq_some_iff.1 h
    exact ⟨rfl, rfl⟩
  · cases h
    unfold Element.setAttribute
    split
    · exact ⟨rfl, rfl⟩
    · split <;> exact ⟨rfl, rfl⟩
  · cases h

/-- A node gets one more child from a predicate that assigns one. -/
theorem length_of_assigned? (h : predicate.assigned? bindings e = some e') :
    e'.members.length = e.members.length + if predicate.assignsChild then 1 else 0 := by
  unfold Expr.assigned? at h
  split at h
  · obtain ⟨ns, -, rfl⟩ := Option.map_eq_some_iff.1 h
    simp [Expr.assignsChild]
  · cases h
    simp [Expr.assignsChild]
  · cases h

/-- The node `e` with what several predicates assign to it, if all assign something. -/
def assignedAll? (bindings : Bindings) (e : Entry) (predicates : List Expr) : Option Entry :=
  predicates.foldlM (Expr.assigned? bindings) e

/-- Predicates assign one after the other. -/
@[simp]
theorem assignedAll?_cons : assignedAll? bindings e (predicate :: predicates) =
    (predicate.assigned? bindings e).bind fun e' => assignedAll? bindings e' predicates := rfl

/-- What predicates assign leaves the name and namespace of a node, and each of them that assigns
a child adds one. -/
theorem sameName_of_assignedAll? (h : assignedAll? bindings e predicates = some e') :
    (e'.element.name = e.element.name ∧ e'.element.ns = e.element.ns) ∧
      e'.members.length = e.members.length + predicates.countP Expr.assignsChild := by
  induction predicates generalizing e with
  | nil =>
    cases h
    exact ⟨⟨rfl, rfl⟩, rfl⟩
  | cons predicate predicates ih =>
    obtain ⟨e₁, he₁, h⟩ := Option.bind_eq_some_iff.1 h
    obtain ⟨hname, hlength⟩ := ih h
    have hfirst := sameName_of_assigned? he₁
    refine ⟨⟨hname.1.trans hfirst.1, hname.2.trans hfirst.2⟩, ?_⟩
    rw [hlength, length_of_assigned? he₁, List.countP_cons]
    omega

/-! ## Steps -/

/-- The node that a step makes below a node with the namespace `ns`. -/
def Step.draft? (step : Step) (bindings : Bindings) (ns : Option String) : Option Entry :=
  match step.axis, step.name with
  | .child, some name =>
    (labelNs? bindings step.label ns).bind fun ns =>
      assignedAll? bindings ⟨{ ns := some ns, name }, []⟩ step.predicates
  | _, _ => none

/-- The nodes that steps make one below the other, the first one below a node with the namespace
`ns`. -/
def drafts (bindings : Bindings) : Option String → List Step → Option (List Entry)
  | _, [] => some []
  | ns, step :: steps =>
    (step.draft? bindings ns).bind fun e =>
      (drafts bindings e.element.ns steps).map fun es => e :: es

/-- The number of nodes of several entries. -/
def nodeCount : List Entry → Nat
  | [] => 0
  | e :: es => e.members.length + 1 + nodeCount es

variable {step : Step} {steps : List Step} {ns : Option String} {es : List Entry}

/-- The node that a step makes has the name of the step and the namespace that the step means, and a
child for each predicate that assigns one. -/
theorem Step.of_draft? (h : step.draft? bindings ns = some e) :
    step.axis = .child ∧ step.name = some e.element.name ∧
      (∃ own, labelNs? bindings step.label ns = some own ∧ e.element.ns = some own) ∧
      e.members.length = step.predicates.countP Expr.assignsChild := by
  unfold draft? at h
  split at h
  · next name haxis hname =>
    obtain ⟨own, hown, h⟩ := Option.bind_eq_some_iff.1 h
    obtain ⟨⟨hename, hens⟩, hlength⟩ := sameName_of_assignedAll? h
    exact ⟨haxis, by rw [hname, hename], ⟨own, hown, hens⟩, by simpa using hlength⟩
  · cases h

/-- The nodes of a first step and of the others. -/
theorem drafts_cons : drafts bindings ns (step :: steps) = some es ↔
    ∃ e es', step.draft? bindings ns = some e ∧ drafts bindings e.element.ns steps = some es' ∧
      es = e :: es' := by
  simp only [drafts, Option.bind_eq_some_iff, Option.map_eq_some_iff]
  constructor
  · rintro ⟨e, he, es', hes', rfl⟩
    exact ⟨e, es', he, hes', rfl⟩
  · rintro ⟨e, es', he, hes', rfl⟩
    exact ⟨e, he, es', hes', rfl⟩

/-- Each step makes a node, and each predicate that assigns a child makes another one. -/
theorem nodeCount_drafts (h : drafts bindings ns steps = some es) :
    nodeCount es = steps.length + (steps.flatMap Step.predicates).countP Expr.assignsChild := by
  induction steps generalizing ns es with
  | nil =>
    cases h
    rfl
  | cons step steps ih =>
    obtain ⟨e, es, he, hes, rfl⟩ := drafts_cons.1 h
    rw [nodeCount, ih hes, (Step.of_draft? he).2.2.2, List.flatMap_cons, List.countP_append,
      List.length_cons]
    omega

end Netconf.Path
