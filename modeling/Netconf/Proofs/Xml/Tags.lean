import Netconf.Proofs.Xml.Scopes

/-!
# What tags say

A start tag names its element and the attributes by labels, with the declarations that these need
in its scope. `Tag.Tells` says that a reader who knows the scope takes the names of the tag for
those of the element, and `Tag.tells_ofElement` that the tag of every element whose names can be
written does so, whatever is bound around it.
-/

namespace Netconf

/-! ## Legible elements -/

/-- An element that XML can carry as it is: its names are names, its namespaces are not empty, and
its value neither is empty nor has blanks at its ends. -/
structure Element.Legible (e : Element) : Prop where
  /-- The local name is a name. -/
  name : Xml.isName e.name = true
  /-- The namespace is not the empty one. -/
  ns_ne : e.ns ≠ some ""
  /-- The attributes have such names and namespaces as well. -/
  attributes : ∀ a ∈ e.attributes, Xml.isName a.name = true ∧ a.ns ≠ some ""
  /-- The labels may be bound. -/
  labels : ∀ label ∈ e.bindings.labels, Xml.isLabel label = true
  /-- The text of the value is there as a whole. -/
  value : ∀ v ∈ e.value, v.wire ≠ "" ∧ Text.trim v.wire = v.wire

instance (e : Element) : Decidable e.Legible :=
  decidable_of_iff
    (Xml.isName e.name = true ∧ e.ns ≠ some "" ∧
      (∀ a ∈ e.attributes, Xml.isName a.name = true ∧ a.ns ≠ some "") ∧
      (∀ label ∈ e.bindings.labels, Xml.isLabel label = true) ∧
      ∀ v ∈ e.value, v.wire ≠ "" ∧ Text.trim v.wire = v.wire)
    ⟨fun h => ⟨h.1, h.2.1, h.2.2.1, h.2.2.2.1, h.2.2.2.2⟩,
      fun h => ⟨h.name, h.ns_ne, h.attributes, h.labels, h.value⟩⟩

/-- The names of an element can be written: all that makes an element legible but its value. -/
structure Element.Nameable (e : Element) : Prop where
  /-- The local name is a name. -/
  name : Xml.isName e.name = true
  /-- The namespace is not the empty one. -/
  ns_ne : e.ns ≠ some ""
  /-- The attributes have such names and namespaces as well. -/
  attributes : ∀ a ∈ e.attributes, Xml.isName a.name = true ∧ a.ns ≠ some ""
  /-- The labels may be bound. -/
  labels : ∀ label ∈ e.bindings.labels, Xml.isLabel label = true

instance (e : Element) : Decidable e.Nameable :=
  decidable_of_iff
    (Xml.isName e.name = true ∧ e.ns ≠ some "" ∧
      (∀ a ∈ e.attributes, Xml.isName a.name = true ∧ a.ns ≠ some "") ∧
      ∀ label ∈ e.bindings.labels, Xml.isLabel label = true)
    ⟨fun h => ⟨h.1, h.2.1, h.2.2.1, h.2.2.2⟩, fun h => ⟨h.name, h.ns_ne, h.attributes, h.labels⟩⟩

/-- The names of a legible element can be written. -/
theorem Element.Legible.nameable {e : Element} (h : e.Legible) : e.Nameable :=
  ⟨h.name, h.ns_ne, h.attributes, h.labels⟩

/-- The labels of bindings may be bound. -/
def Bindings.Legible (m : Bindings) : Prop := ∀ label ∈ m.labels, Xml.isLabel label = true

instance (m : Bindings) : Decidable m.Legible :=
  inferInstanceAs (Decidable (∀ label ∈ m.labels, Xml.isLabel label = true))

/-- A label that is found for a namespace is bound. -/
theorem Bindings.mem_labels_of_label? {m : Bindings} {ns label : String}
    (h : m.label? ns = some label) : label ∈ m.labels := by
  obtain ⟨b, hb, rfl⟩ := Option.map_eq_some_iff.1 h
  exact List.mem_map_of_mem (List.mem_of_find?_eq_some hb)

/-- What holds of the labels of a lineage and of the default ones holds of a label that the lineage
suggests for a namespace. -/
theorem Lineage.of_mem_label? {P : String → Prop} {line : Lineage} {defaults : Bindings}
    (hline : ∀ e ∈ line, ∀ label ∈ e.bindings.labels, P label)
    (hdefaults : ∀ label ∈ defaults.labels, P label) (ns : String) :
    ∀ label ∈ line.label? defaults ns, P label := by
  intro label hlabel
  unfold Lineage.label? at hlabel
  rcases Option.or_eq_some_iff.1 hlabel with h | ⟨-, h⟩
  · obtain ⟨e, he, h⟩ := List.exists_of_findSome?_eq_some h
    exact hline e he label (Bindings.mem_labels_of_label? h)
  · exact hdefaults label (Bindings.mem_labels_of_label? h)

/-- A label that a lineage suggests for a namespace may be bound. -/
theorem Lineage.isLabel_of_mem_label? {line : Lineage} {defaults : Bindings}
    (hline : ∀ e ∈ line, e.bindings.Legible) (hdefaults : defaults.Legible) (ns : String) :
    ∀ label ∈ line.label? defaults ns, Xml.isLabel label = true :=
  Lineage.of_mem_label? hline hdefaults ns

namespace Xml

variable {s s' : Scope} {m : Bindings} {above : Lineage} {defaults : Bindings} {e : Element}

/-! ## Names in tags -/

/-- The name in a tag and the value behind it are read as an attribute: without label as one
without namespace, and with a label as one in the namespace that the label means. -/
inductive ReadsAs (s : Scope) : Attribute → String × String → Prop
  /-- A name without label. -/
  | plain {name : String} (value : String) (hname : isName name = true)
    (hdeclares : name ≠ "xmlns") : ReadsAs s ⟨none, name, value⟩ (name, value)
  /-- A name with a label. -/
  | labelled {ns label name : String} (value : String) (hname : isName name = true)
    (hlabel : isName label = true) (hdeclares : label ≠ "xmlns")
    (hmeans : s.means label = some ns) :
    ReadsAs s ⟨some ns, name, value⟩ (withLabel label name, value)

/-- What is read as an attribute still is where labels keep their meanings. -/
theorem ReadsAs.keeps {a : Attribute} {p : String × String} (h : ReadsAs s a p)
    (hkeeps : s.Keeps s') : ReadsAs s' a p := by
  cases h with
  | plain value hname hdeclares => exact .plain value hname hdeclares
  | labelled value hname hlabel hdeclares hmeans =>
    exact .labelled value hname hlabel hdeclares (hkeeps.means hmeans)

/-- A name in a tag is read as that of the element. -/
def NamesElement (s : Scope) (e : Element) (name : String) : Prop :=
  ∃ label, name = withLabel label e.name ∧ s.means label = e.ns ∧
    (label = "" ∨ isName label = true ∧ e.ns.isSome = true)

/-- A name is that of the element also where labels keep their meanings. -/
theorem NamesElement.keeps {name : String} (h : NamesElement s e name) (hkeeps : s.Keeps s') :
    NamesElement s' e name := by
  obtain ⟨label, hname, hmeans, hlabel⟩ := h
  refine ⟨label, hname, ?_, hlabel⟩
  rw [hkeeps label ?_, hmeans]
  exact hlabel.imp_right fun h => by rw [hmeans]; exact h.2

/-- A start tag inside `s` says what the element is. -/
structure Tag.Tells (s : Scope) (e : Element) (t : Tag) : Prop where
  /-- The name is that of the element. -/
  name : NamesElement t.scope e t.name
  /-- The names and values are those of the attributes, in order. -/
  attributes : List.Forall₂ (ReadsAs t.scope) e.attributes t.attributes
  /-- The scope inside the element is sound. -/
  sound : t.scope.Sound
  /-- The tag declares on its own element only. -/
  exists_cons : ∃ m, t.scope = m :: s

namespace Tag

/-- The name of an element is read as such, in the scope that it makes. -/
theorem nameIn_spec (hs : s.Sound) (horderly : e.Orderly) (he : e.Nameable)
    (habove : ∀ p ∈ above, p.bindings.Legible) (hdefaults : defaults.Legible) :
    NamesElement (nameIn s (e :: above) defaults e).2 e (nameIn s (e :: above) defaults e).1 ∧
      (nameIn s (e :: above) defaults e).2.Sound ∧
      ∃ m, (nameIn s (e :: above) defaults e).2 = m :: s := by
  have hinner : Scope.Sound (e.bindings :: s) :=
    List.forall_mem_cons.2 ⟨⟨horderly.labels, he.labels⟩, hs⟩
  unfold nameIn
  dsimp only
  split
  · next ns hns =>
    have hne : ns ≠ "" := fun h => he.ns_ne (by rw [hns, h])
    have hline : ∀ p ∈ e :: above, p.bindings.Legible :=
      List.forall_mem_cons.2 ⟨he.labels, habove⟩
    have hchosen := Scope.chosen_choose hinner
      (Lineage.isLabel_of_mem_label? hline hdefaults ns) hne true
    refine ⟨⟨_, rfl, hchosen.means.trans hns.symm, ?_⟩, hchosen.sound, hchosen.exists_cons⟩
    exact hchosen.name.imp_right fun h => ⟨h.1, by simp [hns]⟩
  · next hns =>
    -- without namespace, the default label must mean nothing
    split
    · next hdefault =>
      refine ⟨⟨"", rfl, ?_, Or.inl rfl⟩, hinner.declare (by decide), _, rfl⟩
      rw [Scope.means, if_neg (by decide), Scope.ns?_declare, if_pos rfl, hns]
      rfl
    · next hdefault =>
      refine ⟨⟨"", rfl, ?_, Or.inl rfl⟩, hinner, _, rfl⟩
      rw [Scope.means, if_neg (by decide), hns, Option.filter_eq_none_iff]
      intro d hd hne
      exact hdefault (by rw [hd]; exact hne)

/-- The names of attributes are read as such, in the scope that they make, and what was read before
them is kept. -/
theorem attributesIn_spec {line : Lineage} (hline : ∀ p ∈ line, p.bindings.Legible)
    (hdefaults : defaults.Legible) {as : List Attribute}
    (has : ∀ a ∈ as, (isName a.name = true ∧ a.ns ≠ some "") ∧ (a.ns = none → a.name ≠ "xmlns"))
    (hs : Scope.Sound (m :: s)) :
    List.Forall₂ (ReadsAs (attributesIn line defaults (m :: s) as).2) as
        (attributesIn line defaults (m :: s) as).1 ∧
      Scope.Keeps (m :: s) (attributesIn line defaults (m :: s) as).2 ∧
      (attributesIn line defaults (m :: s) as).2.Sound ∧
      ∃ m', (attributesIn line defaults (m :: s) as).2 = m' :: s := by
  induction as generalizing m with
  | nil => exact ⟨.nil, Scope.keeps_refl _, hs, m, rfl⟩
  | cons a as ih =>
    obtain ⟨⟨⟨hname, hns⟩, hplain⟩, hothers⟩ := List.forall_mem_cons.1 has
    obtain ⟨ns, name, value⟩ := a
    cases ns with
    | none =>
      obtain ⟨hreads, hkeeps, hsound, hcons⟩ := ih hothers hs
      exact ⟨.cons (.plain value hname (hplain rfl)) hreads, hkeeps, hsound, hcons⟩
    | some ns =>
      have hne : ns ≠ "" := fun h => hns (by rw [h])
      have hchosen := Scope.chosen_choose hs (Lineage.isLabel_of_mem_label? hline hdefaults ns)
        hne false
      obtain ⟨m', hm'⟩ := hchosen.exists_cons
      unfold attributesIn
      dsimp only
      generalize Scope.choose (m :: s) (line.label? defaults ns) ns false = chosen at hchosen hm' ⊢
      obtain ⟨label, inner⟩ := chosen
      dsimp only at hchosen hm' ⊢
      subst hm'
      obtain ⟨hlabel, hdeclares⟩ := hchosen.name.resolve_left (hchosen.ne_empty rfl)
      obtain ⟨hreads, hkeeps, hsound, hcons⟩ := ih hothers hchosen.sound
      have hfirst := ReadsAs.labelled value hname hlabel hdeclares hchosen.means
      exact ⟨.cons (hfirst.keeps hkeeps) hreads, (hchosen.keeps rfl).trans hkeeps, hsound, hcons⟩

/-- The tag of an element whose names can be written says what the element is, whatever is bound
around it. -/
theorem tells_ofElement (hs : s.Sound) (horderly : e.Orderly) (he : e.Nameable)
    (habove : ∀ p ∈ above, p.bindings.Legible) (hdefaults : defaults.Legible) :
    (ofElement s above defaults e).Tells s e := by
  have hline : ∀ p ∈ e :: above, p.bindings.Legible :=
    List.forall_mem_cons.2 ⟨he.labels, habove⟩
  obtain ⟨hname, hinner, m, hm⟩ := nameIn_spec hs horderly he habove hdefaults
  rw [hm] at hname hinner
  obtain ⟨hreads, hkeeps, hsound, hcons⟩ := attributesIn_spec hline hdefaults
    (fun a ha => ⟨he.attributes a ha, horderly.name_ne a ha⟩) hinner
  rw [← hm] at hreads hkeeps hsound hcons
  rw [← hm] at hname
  exact ⟨hname.keeps hkeeps, hreads, hsound, hcons⟩

end Tag

end Xml

end Netconf
