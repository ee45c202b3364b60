import Netconf.Proofs.Path.Assignments
import Netconf.Proofs.Path.Chains

/-!
# Created paths are found

What predicates assign to a drafted node is what they ask for (`meant_of_draft?`), since they assign
to pairwise different targets and no assignment hides an earlier one. The nodes that are made from
the drafts stand below each other without bindings of their own, so that labels mean on all of them
what they meant where they were resolved. Hence the steps admit the nodes that were made for them
(`Chain.mem_reached`).
-/

namespace Netconf

/-! ## Attributes -/

namespace Element

/-- An attribute that is not there yet is set behind the others, unless its name declares a
binding. -/
theorem setAttribute_of_lacks {e : Element} {name : String} (value : String)
    (hne : name ≠ "xmlns") (hchars : ∀ c ∈ name.toList, Path.isNameChar c = true)
    (hlacks : e.attribute? name = none) :
    e.setAttribute name value = { e with attributes := e.attributes ++ [⟨none, name, value⟩] } := by
  have hlabel : "xmlns:".toList.isPrefixOf? name.toList = none := by
    cases hpre : "xmlns:".toList.isPrefixOf? name.toList with
    | none => rfl
    | some rest =>
      have hcolon : ':' ∈ name.toList := by
        rw [← List.append_eq_of_isPrefixOf?_eq_some hpre]
        exact List.mem_append_left _ (by decide)
      exact absurd (hchars ':' hcolon) (by decide)
  have hnew : e.attributes.any (isAttribute none name) = false := by
    rw [List.any_eq_false]
    intro a ha hname
    refine absurd (List.find?_eq_none.1 hlacks a ha) (not_not.2 ?_)
    exact (Bool.and_eq_true_iff.1 hname).2
  rw [setAttribute, if_neg hne, hlabel]
  simp only [putAttribute, hnew, Bool.false_eq_true, if_false]

end Element

namespace Path

variable {bindings : Bindings} {e e' : Entry} {q : Expr} {predicates : List Expr}

/-! ## Drafts -/

/-- The child that is assigned for a literal. -/
def leaf (ns name : String) (l : Literal) : Element :=
  { ns := some ns, name, value := some (.text l.assigned) }

/-- Nothing is there yet at a target. -/
def Lacks (e : Entry) : Target → Prop
  | .child name => e.member? name = none
  | .attribute name => e.element.attribute? name = none

/-- What a predicate assigns is the first thing at its target. -/
inductive Meant (bindings : Bindings) (e : Entry) : Expr → Prop where
  /-- A child, in the namespace that its label means. -/
  | ofChild {label : Option String} {name ns : String} {l : Literal}
      (hns : labelNs? bindings label (some (e.element.ns.getD "")) = some ns)
      (hmember : e.member? name = some (leaf ns name l)) :
    Meant bindings e (.binary (.compare .eq) (.child label name) (.literal l))
  /-- An attribute. -/
  | ofAttribute {name : String} {l : Literal}
      (hattribute : e.element.attribute? name = some ⟨none, name, l.assigned⟩) :
    Meant bindings e (.binary (.compare .eq) (.attribute name) (.literal l))

/-- The node `e'` is `e` with more children and attributes behind the others. -/
structure Gains (e e' : Entry) (ms : List Element) (as : List Attribute) : Prop where
  /-- There may be more children; none of them binds a label. -/
  members : e'.members = e.members ++ ms
  /-- There may be more attributes. -/
  element : e'.element = { e.element with attributes := e.element.attributes ++ as }

variable {ms : List Element} {as : List Attribute}

/-- What was meant still is. -/
theorem Gains.meant (hg : Gains e e' ms as) (hq : Meant bindings e q) : Meant bindings e' q := by
  cases hq with
  | ofChild hns hmember =>
    refine .ofChild (by rw [hg.element]; exact hns) ?_
    unfold Entry.member? at hmember ⊢
    rw [hg.members, List.find?_append, hmember, Option.some_or]
  | ofAttribute hattribute =>
    refine .ofAttribute ?_
    unfold Element.attribute? at hattribute ⊢
    rw [hg.element, List.find?_append, hattribute, Option.some_or]

/-- A predicate that assigns to a target where nothing is adds what it means, and nothing at other
targets. -/
theorem gains_of_assigned? {target : Target} (h : q.assigned? bindings e = some e')
    (htarget : q.target? = some target) (hlacks : Lacks e target)
    (hplain : target ≠ .attribute "xmlns") (hsane : ∀ w, Says w q → w.Sane) :
    Meant bindings e' q ∧ (∃ ms as, Gains e e' ms as ∧ ∀ m ∈ ms, m.bindings = {}) ∧
      ∀ other ≠ target, Lacks e other → Lacks e' other := by
  rcases Expr.shape_of_target? htarget with ⟨label, name, l, rfl, -, rfl⟩ | ⟨name, l, rfl, -, rfl⟩
  · obtain ⟨ns, hns, rfl⟩ := Option.map_eq_some_iff.1 h
    refine ⟨.ofChild hns ?_, ⟨[leaf ns name l], [], ⟨rfl, by simp⟩, by simp [leaf]⟩, ?_⟩
    · have hnone : e.members.find? (fun m => m.name == name) = none := hlacks
      simp [Entry.member?, List.find?_append, hnone, leaf]
    · intro other hother hlacks'
      rcases other with name' | name'
      · have hne : name ≠ name' := fun he => hother (by rw [he])
        have hnone : e.members.find? (fun m => m.name == name') = none := hlacks'
        simp [Lacks, Entry.member?, List.find?_append, hnone, hne]
      · exact hlacks'
  · have hname : name ≠ "xmlns" := fun he => hplain (by rw [he])
    have hchars := hsane (.attribute name) (.left (.attribute rfl))
    have hset := Element.setAttribute_of_lacks l.assigned hname hchars hlacks
    have he' : e' = { e with element := e.element.setAttribute name l.assigned } :=
      (Option.some.inj h).symm
    rw [hset] at he'
    subst he'
    refine ⟨.ofAttribute ?_, ⟨[], [⟨none, name, l.assigned⟩], ⟨by simp, rfl⟩, by simp⟩, ?_⟩
    · have hnone : e.element.attributes.find? (fun a => a.name == name) = none := hlacks
      simp [Element.attribute?, List.find?_append, hnone]
    · intro other hother hlacks'
      rcases other with name' | name'
      · exact hlacks'
      · have hne : name ≠ name' := fun he => hother (by rw [he])
        have hnone : e.element.attributes.find? (fun a => a.name == name') = none := hlacks'
        simp [Lacks, Element.attribute?, List.find?_append, hnone, hne]

/-- Predicates that assign to pairwise different targets, where nothing is yet, add what they
mean. -/
theorem gains_of_assignedAll? (h : assignedAll? bindings e predicates = some e')
    (hassign : Assign predicates) (hsane : ∀ q ∈ predicates, ∀ w, Says w q → w.Sane)
    (hlacks : ∀ target ∈ predicates.filterMap Expr.target?, Lacks e target) :
    (∀ q ∈ predicates, Meant bindings e' q) ∧
      ∃ ms as, Gains e e' ms as ∧ ∀ m ∈ ms, m.bindings = {} := by
  induction predicates generalizing e with
  | nil =>
    cases h
    exact ⟨by simp, [], [], ⟨by simp, by simp⟩, by simp⟩
  | cons q predicates ih =>
    obtain ⟨e₁, he₁, h⟩ := Option.bind_eq_some_iff.1 h
    obtain ⟨hq, htargets⟩ := List.forall_mem_cons.1 hassign.targets
    obtain ⟨target, htarget⟩ := Option.isSome_iff_exists.1 hq
    have hall : (q :: predicates).filterMap Expr.target? =
        target :: predicates.filterMap Expr.target? := List.filterMap_cons_some htarget
    have hnodup := hassign.nodup
    have hplain := hassign.plain
    rw [hall] at hlacks hnodup hplain
    obtain ⟨hnew, hnodup⟩ := List.nodup_cons.1 hnodup
    obtain ⟨hlacksq, hlacks⟩ := List.forall_mem_cons.1 hlacks
    obtain ⟨hplainq, hplain⟩ := not_or.1 (fun hor => hplain (List.mem_cons.2 hor))
    obtain ⟨hsaneq, hsane⟩ := List.forall_mem_cons.1 hsane
    -- the first predicate assigns where nothing is, and leaves nothing at the other targets
    obtain ⟨hmeant, ⟨ms₁, as₁, hgains₁, hbare₁⟩, hother⟩ :=
      gains_of_assigned? he₁ htarget hlacksq (Ne.symm hplainq) hsaneq
    obtain ⟨hall, ms₂, as₂, hgains₂, hbare₂⟩ := ih h ⟨htargets, hnodup, hplain⟩ hsane
      fun target' ht' => hother target' (ne_of_mem_of_not_mem ht' hnew) (hlacks target' ht')
    refine ⟨List.forall_mem_cons.2 ⟨hgains₂.meant hmeant, hall⟩, ms₁ ++ ms₂, as₁ ++ as₂, ⟨?_, ?_⟩,
      fun m hm => ?_⟩
    · rw [hgains₂.members, hgains₁.members, List.append_assoc]
    · rw [hgains₂.element, hgains₁.element, List.append_assoc]
    · rcases List.mem_append.1 hm with hm | hm
      · exact hbare₁ m hm
      · exact hbare₂ m hm

/-- The predicates of a step assign, to targets as they can be read from a text. -/
structure Step.Assigns (step : Step) : Prop where
  /-- The predicates assign to pairwise different targets. -/
  assign : Assign step.predicates
  /-- Attributes and integers are such as are read from a text. -/
  sane : ∀ q ∈ step.predicates, ∀ w, Says w q → w.Sane

/-- The node that is drafted for a step has what the predicates mean, and binds no label, as little
as its children. -/
theorem meant_of_draft? {step : Step} {ns : Option String} (hstep : step.Assigns)
    (h : step.draft? bindings ns = some e) :
    (∀ q ∈ step.predicates, Meant bindings e q) ∧ e.element.bindings = {} ∧
      ∀ m ∈ e.members, m.bindings = {} := by
  unfold Step.draft? at h
  split at h
  · obtain ⟨own, -, h⟩ := Option.bind_eq_some_iff.1 h
    obtain ⟨hmeant, ms, as, hgains, hbare⟩ := gains_of_assignedAll? h hstep.assign hstep.sane
      fun target _ => by cases target <;> rfl
    refine ⟨hmeant, by rw [hgains.element], fun m hm => ?_⟩
    rw [hgains.members, List.nil_append] at hm
    exact hbare m hm
  · cases h

/-! ## Nodes -/

variable {t : Tree}

/-- A node without bindings inherits what labels mean. -/
theorem nsOf?_of_bare (h : t.Forest) {p c : NodeId} (hc : c ∈ t.children p)
    (hbare : (t.element c).bindings = {}) (label : String) : t.nsOf? c label = t.nsOf? p label := by
  rw [h.nsOf?_eq, hbare, h.mem_children_iff.1 hc]
  rfl

/-- What is meant is true of a node that has the entry, in front of other children. -/
theorem met_of_meant (h : t.Forest) {c : NodeId} {leaves heads : List NodeId}
    (helement : t.element c = e.element) (hchildren : t.children c = leaves ++ heads)
    (hmembers : leaves.map t.element = e.members) (hbare : ∀ m ∈ e.members, m.bindings = {})
    (hlabels : ∀ label, t.nsOf? c label = bindings.ns? label) (hq : Meant bindings e q)
    (htarget : q.target?.isSome = true) (hsane : ∀ w, Says w q → w.Sane) : q.met t c = true := by
  have hequal : ∀ {l : Literal}, l.isExact = true → (∀ w, Says w (.literal l) → w.Sane) →
      Operand.equals t (.ofValue (.text l.assigned)) l.operand = true := by
    intro l hl hsane
    refine equals_assigned t hl ?_
    rintro i rfl
    exact hsane (.integer i) (.integer rfl)
  cases hq with
  | @ofChild label name ns l hns hmember =>
    have hl : l.isExact = true := by
      by_contra hl
      simp [Expr.target?, hl] at htarget
    -- the first member of the name is the element of the first leaf of the name
    rw [Entry.member?, ← hmembers, List.find?_map] at hmember
    obtain ⟨x, hx, hxleaf⟩ := Option.map_eq_some_iff.1 hmember
    have hxl : x ∈ leaves := List.mem_of_find?_eq_some hx
    have hxc : x ∈ t.children c := by rw [hchildren]; exact List.mem_append_left _ hxl
    have hnamed : isNamed t label name x = true := by
      unfold isNamed
      rw [Tree.name, Tree.ns?, hxleaf]
      cases label with
      | none => simp [leaf]
      | some p =>
        have hxbare := hbare (t.element x) (hmembers ▸ List.mem_map_of_mem hxl)
        have hns : bindings.ns? p = some ns := hns
        simp [leaf, nsOf?_of_bare h hxc hxbare, hlabels, hns]
    refine met_child.2 ⟨x, .text l.assigned, ?_, by rw [Tree.value?, hxleaf]; rfl,
      hequal hl fun w hw => hsane w (.right hw)⟩
    rw [hchildren, List.find?_append]
    obtain ⟨hname, before, after, rfl, hbefore⟩ := List.find?_eq_some_iff_append.1 hx
    have hfirst : (before ++ x :: after).find? (isNamed t label name) = some x := by
      refine List.find?_eq_some_iff_append.2 ⟨hnamed, before, after, rfl, fun y hy => ?_⟩
      have hyname : (t.name y == name) = false := by simpa [Tree.name] using hbefore y hy
      simp [isNamed, hyname]
    rw [hfirst, Option.some_or]
  | @ofAttribute name l hattribute =>
    have hl : l.isExact = true := by
      by_contra hl
      simp [Expr.target?, hl] at htarget
    have heq := hequal hl fun w hw => hsane w (.right hw)
    exact met_attribute.2 ⟨⟨none, name, l.assigned⟩, by rw [helement]; exact hattribute, heq⟩

/-- A step admits a node that has the entry drafted for it, if labels mean there what they meant for
the draft. -/
theorem Step.admits_of_draft? {step : Step} {ns : Option String} (h : t.Forest)
    (hstep : step.Assigns) (he : step.draft? bindings ns = some e) {c : NodeId}
    {leaves heads : List NodeId} (helement : t.element c = e.element)
    (hchildren : t.children c = leaves ++ heads) (hmembers : leaves.map t.element = e.members)
    (hlabels : ∀ label, t.nsOf? c label = bindings.ns? label) : step.admits t c = true := by
  obtain ⟨hmeant, -, hbare⟩ := meant_of_draft? hstep he
  obtain ⟨-, hname, ⟨own, hown, hens⟩, -⟩ := Step.of_draft? he
  have haccepts : step.accepts t c = true := by
    unfold Step.accepts
    rw [hname]
    cases hlabel : step.label with
    | none => simp [Tree.name, helement]
    | some label =>
      rw [hlabel] at hown
      have hown : bindings.ns? label = some own := hown
      simp [Tree.name, Tree.ns?, helement, hlabels, hown, hens]
  rw [Step.admits, haccepts, Bool.true_and, List.all_eq_true]
  exact fun q hq => met_of_meant h helement hchildren hmembers hbare hlabels (hmeant q hq)
    (hstep.assign.targets q hq) (hstep.sane q hq)

/-- Steps admit the nodes that were made for them, one below the other, if labels mean above the
first one what they meant for the drafts. -/
theorem Chain.mem_reached {base : Nat} {es : List Entry} {p last : NodeId} {heads ids : List NodeId}
    {steps : List Step} {ns : Option String} (hc : Chain t base es p heads last) (h : t.Forest)
    (hes : drafts bindings ns steps = some es) (hsteps : ∀ step ∈ steps, step.Assigns)
    (hheads : heads ⊆ t.children p) (hlabels : ∀ label, t.nsOf? p label = bindings.ns? label)
    (hp : p ∈ ids) : last ∈ reached t steps ids := by
  induction hc generalizing steps ns ids with
  | nil p =>
    cases steps with
    | nil => exact hp
    | cons step steps =>
      obtain ⟨e, es, -, -, hnil⟩ := drafts_cons.1 hes
      cases hnil
  | @cons e es p c leaves heads last hbase hlt helement hchildren hmembers hleaves _ ih =>
    cases steps with
    | nil => cases hes
    | cons step steps =>
      obtain ⟨e', es', he, hes, heq⟩ := drafts_cons.1 hes
      cases heq
      obtain ⟨hstep, hmore⟩ := List.forall_mem_cons.1 hsteps
      obtain ⟨-, hbare, -⟩ := meant_of_draft? hstep he
      have hcp : c ∈ t.children p := hheads List.mem_cons_self
      have hlabelsc : ∀ label, t.nsOf? c label = bindings.ns? label := fun label => by
        rw [nsOf?_of_bare h hcp (by rw [helement, hbare]), hlabels]
      have hadmits := Step.admits_of_draft? h hstep he helement hchildren hmembers hlabelsc
      -- the rest of the chain stands below the node, behind what its predicates made
      rw [reached]
      refine ih hes hmore (fun x hx => ?_) hlabelsc (List.mem_flatMap.2 ⟨p, hp, ?_⟩)
      · rw [hchildren]
        exact List.mem_append_right _ hx
      · exact List.mem_filter.2 ⟨hcp, hadmits⟩

end Path

end Netconf
