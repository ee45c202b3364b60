import Netconf.Proofs.Tree.Lineages
import Netconf.Proofs.Xml.Tags
import Netconf.Proofs.Xml.TagText

/-!
# Elements read from their tags

The tag that is written for an element is read as an element with the same namespace, name and
attributes (`Tag.Tells.readElement`). The reader only has to know the scope around the element: the
labels in scope mean to it what they mean there, and without label nothing else is meant. Other
labels may mean anything, since no written name relies on them.
-/

namespace Netconf.Xml

variable {s : Scope} {m : Bindings} {e : Element} {t : Tag}

/-! ## The names in a tag -/

/-- What the innermost element binds is what the tag declares. -/
theorem Tag.declared_of_scope (h : t.scope = m :: s) : t.declared = m.toList := by
  rw [Tag.declared, h]
  rfl

/-- The name of a declaration is that of declarations, with the label behind it. -/
theorem declaration_eq (b : Binding) :
    b.declaration = if b.label = "" then "xmlns" else withLabel "xmlns" b.label := by
  unfold Binding.declaration Binding.isDefault
  by_cases h : b.label = ""
  · simp [h]
  · simp [h, withLabel]

/-- The name of a declaration is a key. -/
theorem isKey_declaration {b : Binding} (h : isLabel b.label = true) : IsKey b.declaration := by
  rw [declaration_eq]
  split
  · exact isKey_of_isName (by decide)
  · next hne => exact isKey_withLabel (Or.inr (by decide)) ((isLabel_iff.1 h).resolve_left hne).1

/-- What is read of a declaration is its binding. -/
theorem binding?_declaration (b : Binding) (value : String) :
    (rawOf (b.declaration, value)).binding? = some ⟨b.label, value⟩ := by
  unfold RawAttribute.binding? rawOf Binding.declaration Binding.isDefault
  by_cases h : b.label = ""
  · simp [h]
  · simp [h, List.isPrefixOf?]

/-- The name of a declaration tells its label. -/
theorem declaration_injective {b c : Binding} (h : b.declaration = c.declaration) :
    b.label = c.label := by
  have hb := binding?_declaration b ""
  rw [h, binding?_declaration] at hb
  exact (congrArg Binding.label (Option.some.inj hb)).symm

/-- A name without label declares no label. -/
theorem isPrefixOf?_eq_none {name : String} (h : isName name = true) :
    "xmlns:".toList.isPrefixOf? name.toList = none := by
  rw [Option.eq_none_iff_forall_not_mem]
  intro rest hrest
  have happend := List.append_eq_of_isPrefixOf?_eq_some hrest
  refine not_mem_of_isName h (c := ':') (by decide) ?_
  rw [← happend]
  simp

namespace ReadsAs

variable {a b : Attribute} {p q : String × String}

/-- The name of an attribute tells its namespace and local name. -/
theorem splitName (h : ReadsAs s a p) :
    ∃ label, Xml.splitName p.1.toList = (label, a.name) ∧
      a.ns = if label = "" then none else s.means label := by
  cases h with
  | plain value hname hdeclares =>
    exact ⟨"", splitName_of_isName hname, rfl⟩
  | labelled value hname hlabel hdeclares hmeans =>
    have hsplit := splitName_withLabel (Or.inr hlabel) hname
    refine ⟨_, hsplit, ?_⟩
    rw [if_neg (ne_empty_of_isName hlabel), hmeans]

/-- Attributes that are written with one name have one namespace and name. -/
theorem names_eq (h : ReadsAs s a p) (h' : ReadsAs s b q) (heq : p.1 = q.1) :
    (a.ns, a.name) = (b.ns, b.name) := by
  obtain ⟨label, hsplit, hns⟩ := h.splitName
  obtain ⟨label', hsplit', hns'⟩ := h'.splitName
  rw [heq, hsplit'] at hsplit
  obtain ⟨rfl, hname⟩ := Prod.mk.inj hsplit
  rw [hns, hns', hname]

/-- The name of an attribute is a key. -/
theorem isKey (h : ReadsAs s a p) : IsKey p.1 := by
  cases h with
  | plain value hname hdeclares => exact isKey_of_isName hname
  | labelled value hname hlabel hdeclares hmeans => exact isKey_withLabel (Or.inr hlabel) hname

/-- What is read of an attribute is no binding. -/
theorem binding?_eq_none (h : ReadsAs s a p) : (rawOf p).binding? = none := by
  have hcolon : ∀ {name : String}, isName name = true → ':' ∉ name.toList := fun h =>
    not_mem_of_isName h (by decide)
  unfold RawAttribute.binding? rawOf
  cases h with
  | @plain name value hname hdeclares =>
    have hkey : name.toList ≠ "xmlns".toList := fun he => hdeclares (String.toList_inj.1 he)
    simp only [hkey, if_false, isPrefixOf?_eq_none hname, Option.map_none]
  | @labelled ns label name value hname hlabel hdeclares hmeans =>
    have hchars := toList_withLabel (ne_empty_of_isName hlabel) name
    have hkey : (withLabel label name).toList ≠ "xmlns".toList := by
      intro he
      have hmem : ':' ∈ "xmlns".toList := by
        rw [← he, hchars]
        simp
      exact absurd hmem (by decide)
    -- the text before the first colon would be the label
    have hprefix : "xmlns:".toList.isPrefixOf? (withLabel label name).toList = none := by
      rw [Option.eq_none_iff_forall_not_mem]
      intro rest hrest
      have happend := List.append_eq_of_isPrefixOf?_eq_some hrest
      have hcut := Text.cut_append (hcolon hlabel) name.toList
      rw [← hchars, ← happend] at hcut
      have hcut' : Text.cut ':' ("xmlns".toList ++ ':' :: rest) = some ("xmlns".toList, rest) :=
        Text.cut_append (by decide) rest
      obtain ⟨hlabels, -⟩ := Prod.mk.inj (Option.some.inj (hcut'.symm.trans hcut))
      exact hdeclares (String.toList_inj.1 hlabels.symm)
    simp only [hkey, if_false, hprefix, Option.map_none]

end ReadsAs

/-- Everything on the right is related to something on the left. -/
theorem exists_of_forall₂ {α β : Type} {R : α → β → Prop} {as : List α} {bs : List β}
    (h : List.Forall₂ R as bs) : ∀ b ∈ bs, ∃ a ∈ as, R a b := by
  induction h with
  | nil => exact fun _ hb => nomatch hb
  | cons hab hrest ih =>
    refine List.forall_mem_cons.2 ⟨⟨_, List.mem_cons_self, hab⟩, fun b hb => ?_⟩
    obtain ⟨a, ha, hR⟩ := ih b hb
    exact ⟨a, List.mem_cons_of_mem _ ha, hR⟩

/-- Attributes that are apart are written with names that are apart. -/
theorem nodup_of_readsAs {as : List Attribute} {ps : List (String × String)}
    (h : List.Forall₂ (ReadsAs s) as ps) (hnodup : (as.map fun a => (a.ns, a.name)).Nodup) :
    (ps.map (·.1)).Nodup := by
  induction h with
  | nil => exact List.nodup_nil
  | cons hab hrest ih =>
    obtain ⟨hnew, hnodup⟩ := List.nodup_cons.1 hnodup
    refine List.nodup_cons.2 ⟨fun hmem => ?_, ih hnodup⟩
    obtain ⟨q, hq, heq⟩ := List.mem_map.1 hmem
    obtain ⟨b, hb, hR⟩ := exists_of_forall₂ hrest q hq
    exact hnew (List.mem_map.2 ⟨b, hb, hR.names_eq hab heq⟩)

namespace Tag.Tells

/-- The name of the tag is a key. -/
theorem isKey_name (h : t.Tells s e) (he : isName e.name = true) : IsKey t.name := by
  obtain ⟨label, hname, -, hlabel⟩ := h.name
  rw [hname]
  exact isKey_withLabel (hlabel.imp_right And.left) he

/-- What the tag declares may be declared, and is apart. -/
theorem declared_spec (h : t.Tells s e) :
    (∀ b ∈ t.declared, isLabel b.label = true) ∧ (t.declared.map (·.label)).Nodup := by
  obtain ⟨m, hm⟩ := h.exists_cons
  obtain ⟨hnodup, hlabels⟩ := h.sound m (hm ▸ List.mem_cons_self)
  rw [declared_of_scope hm]
  exact ⟨fun b hb => hlabels _ (List.mem_map_of_mem hb), hnodup⟩

/-- The names in the tag are keys. -/
theorem isKey_pairs (h : t.Tells s e) : ∀ p ∈ t.pairs, IsKey p.1 := by
  intro p hp
  rcases List.mem_append.1 hp with hp | hp
  · obtain ⟨b, hb, rfl⟩ := List.mem_map.1 hp
    exact isKey_declaration (h.declared_spec.1 b hb)
  · obtain ⟨a, -, hR⟩ := exists_of_forall₂ h.attributes p hp
    exact hR.isKey

/-- The names in the tag are apart. -/
theorem nodup_pairs (h : t.Tells s e) (horderly : e.Orderly) : (t.pairs.map (·.1)).Nodup := by
  rw [pairs, List.map_append, List.map_map, List.nodup_append]
  refine ⟨?_, nodup_of_readsAs h.attributes horderly.attributes, ?_⟩
  · have hlabels := h.declared_spec.2
    rw [List.Nodup, List.pairwise_map] at hlabels ⊢
    exact hlabels.imp fun hne heq => hne (declaration_injective heq)
  · intro key hkey key' hkey' heq
    obtain ⟨b, hb, rfl⟩ := List.mem_map.1 hkey
    obtain ⟨p, hp, rfl⟩ := List.mem_map.1 hkey'
    obtain ⟨a, -, hR⟩ := exists_of_forall₂ h.attributes p hp
    -- a declaration is read as a binding, and an attribute is not
    have hnone := hR.binding?_eq_none
    rw [show p = (b.declaration, p.2) from Prod.ext heq.symm rfl, binding?_declaration] at hnone
    cases hnone

end Tag.Tells

/-! ## Bindings read back -/

/-- Binding the labels of another set makes them mean what they mean there. -/
theorem ns?_setAll (m : Bindings) {other : Bindings} (h : other.labels.Nodup) (label : String) :
    (m.setAll other).ns? label = (other.ns? label).or (m.ns? label) := by
  obtain ⟨bs⟩ := other
  induction bs generalizing m with
  | nil => rfl
  | cons b bs ih =>
    obtain ⟨hnew, hnodup⟩ := List.nodup_cons.1 h
    have hset : m.setAll ⟨b :: bs⟩ = (m.set b).setAll ⟨bs⟩ := rfl
    have hcons : Bindings.ns? ⟨b :: bs⟩ label =
        if label = b.label then some b.ns else Bindings.ns? ⟨bs⟩ label := by
      unfold Bindings.ns?
      rw [List.find?_cons]
      by_cases hl : label = b.label
      · simp [hl]
      · have hne : (b.label == label) = false := by simpa using Ne.symm hl
        simp [hl, hne]
    rw [hset, ih (m.set b) hnodup, Bindings.ns?_set, hcons]
    by_cases hl : label = b.label
    · -- the label is not bound again further on
      have hnone : Bindings.ns? ⟨bs⟩ label = none := by
        rw [Option.eq_none_iff_forall_ne_some]
        intro ns hns
        have hmem := Bindings.mem_labels_of_ns? hns
        rw [hl] at hmem
        exact hnew hmem
      rw [if_pos hl, if_pos hl, hnone]
      rfl
    · rw [if_neg hl, if_neg hl]

/-- The labels that bindings of a list bind. -/
theorem ns?_ofList {bs : List Binding} (h : (bs.map (·.label)).Nodup) (label : String) :
    (Bindings.ofList bs).ns? label = Bindings.ns? ⟨bs⟩ label := by
  have hall : (Bindings.ofList bs).ns? label =
      (Bindings.ns? ⟨bs⟩ label).or (Bindings.empty.ns? label) := ns?_setAll Bindings.empty h label
  rwa [show Bindings.ns? Bindings.empty label = none from rfl, Option.or_none] at hall

/-- The declarations that are read are those of the tag. -/
theorem Tag.Tells.filterMap_binding? (h : t.Tells s e) :
    (t.pairs.map rawOf).filterMap RawAttribute.binding? = t.declared := by
  have hdeclared : (t.declared.map fun b => (b.declaration, b.ns)).filterMap
      (fun p => (rawOf p).binding?) = t.declared := by
    rw [List.filterMap_map]
    have hsome :
        ((fun p => (rawOf p).binding?) ∘ fun b : Binding => (b.declaration, b.ns)) = some :=
      funext fun b => binding?_declaration b b.ns
    rw [hsome, List.filterMap_some]
  have hattributes : t.attributes.filterMap (fun p => (rawOf p).binding?) = [] := by
    rw [List.filterMap_eq_nil_iff]
    intro p hp
    obtain ⟨a, -, hR⟩ := exists_of_forall₂ h.attributes p hp
    exact hR.binding?_eq_none
  have hmap : (RawAttribute.binding? ∘ rawOf) = fun p => (rawOf p).binding? := rfl
  rw [List.filterMap_map, hmap, Tag.pairs, List.filterMap_append, hdeclared, hattributes,
    List.append_nil]

/-! ## Elements read back -/

/-- A reader below `parent` takes the labels of a scope, and a name without label, for what they
mean there. -/
def Knows (tree : Tree) (parent : Option NodeId) (s : Scope) : Prop :=
  ∀ label, label = "" ∨ (s.ns? label).isSome = true → tree.inherited parent label = s.ns? label

variable {tree : Tree} {parent : Option NodeId} {declared : Bindings}

/-- A reader takes no label, or one that means something, for what it means. -/
theorem Knows.resolve_eq (h : Knows tree parent s) (hdeclared : ∀ l, declared.ns? l = m.ns? l)
    {label : String} (hlabel : label = "" ∨ (Scope.means (m :: s) label).isSome = true) :
    resolve tree declared parent label = Scope.means (m :: s) label := by
  unfold resolve Scope.means
  by_cases hxml : label = "xml"
  · rw [if_pos hxml, if_pos hxml]
  rw [if_neg hxml, if_neg hxml, hdeclared, Scope.ns?_cons]
  refine congrArg (Option.filter fun ns => ns != "") ?_
  cases hbound : m.ns? label with
  | some ns => rfl
  | none =>
    -- what the tag does not bind must be in scope around it
    refine h label (hlabel.imp_right fun hmeans => ?_)
    rw [Scope.means, if_neg hxml, Scope.ns?_cons, hbound, Option.none_or] at hmeans
    cases hns : s.ns? label with
    | none => rw [hns] at hmeans; cases hmeans
    | some ns => rfl

/-- A declaration adds no attribute. -/
theorem addAttributes_declared (bs : List Binding) (e : Element) (rest : List RawAttribute) :
    addAttributes tree declared parent e
        ((bs.map fun b => rawOf (b.declaration, b.ns)) ++ rest) =
      addAttributes tree declared parent e rest := by
  induction bs with
  | nil => rfl
  | cons b bs ih =>
    rw [List.map_cons, List.cons_append, addAttributes, addAttribute, binding?_declaration]
    exact ih

/-- An attribute is added as the last one, when it is not there yet. -/
theorem ReadsAs.addAttribute_eq {a : Attribute} {p : String × String} (h : ReadsAs (m :: s) a p)
    (hknows : Knows tree parent s) (hdeclared : ∀ l, declared.ns? l = m.ns? l)
    (hns : a.ns ≠ some nsXmlns) {e : Element} (hnew : (a.ns, a.name) ∉ e.attributeNames) :
    addAttribute tree declared parent e (rawOf p) =
      .ok { e with attributes := e.attributes ++ [a] } := by
  have hput : Element.putAttribute e.attributes a = e.attributes ++ [a] := by
    rw [Element.putAttribute, if_neg]
    intro hany
    obtain ⟨b, hb, heq⟩ := List.any_eq_true.1 hany
    exact hnew (List.mem_map.2 ⟨b, hb, by simpa [Element.isAttribute] using heq⟩)
  unfold addAttribute
  rw [h.binding?_eq_none]
  cases h with
  | @plain name value hname hdeclares =>
    have hsplit : Xml.splitName (rawOf (name, value)).key = ("", name) :=
      splitName_of_isName hname
    rw [hsplit]
    simp only [Option.isSome_none, Bool.false_eq_true, if_false, if_true]
    rw [Element.setAttribute, if_neg hdeclares, isPrefixOf?_eq_none hname]
    dsimp only
    rw [show (rawOf (name, value)).value = value from rfl, hput]
  | @labelled ns label name value hname hlabel hdeclares hmeans =>
    have hsplit : Xml.splitName (rawOf (withLabel label name, value)).key = (label, name) :=
      splitName_withLabel (Or.inr hlabel) hname
    have hresolve : resolve tree declared parent label = Scope.means (m :: s) label :=
      hknows.resolve_eq hdeclared (Or.inr (by rw [hmeans]; rfl))
    rw [hsplit]
    simp only [Option.isSome_none, Bool.false_eq_true, if_false, ne_empty_of_isName hlabel,
      hresolve, hmeans]
    rw [Element.setAttributeIn, if_neg fun he => hns (by rw [he])]
    rw [show (rawOf (withLabel label name, value)).value = value from rfl, hput]

/-- Attributes are added in their order, when they are apart and not there yet. -/
theorem addAttributes_written {as : List Attribute} {ps : List (String × String)}
    (h : List.Forall₂ (ReadsAs (m :: s)) as ps) (hknows : Knows tree parent s)
    (hdeclared : ∀ l, declared.ns? l = m.ns? l) (hns : ∀ a ∈ as, a.ns ≠ some nsXmlns)
    {e : Element} (hnodup : (e.attributeNames ++ as.map fun a => (a.ns, a.name)).Nodup) :
    addAttributes tree declared parent e (ps.map rawOf) =
      .ok { e with attributes := e.attributes ++ as } := by
  induction h generalizing e with
  | nil => rw [List.append_nil]; rfl
  | @cons a p as ps ha hrest ih =>
    obtain ⟨hnsa, hnsas⟩ := List.forall_mem_cons.1 hns
    have hnew : (a.ns, a.name) ∉ e.attributeNames := fun hmem =>
      (List.nodup_append.1 hnodup).2.2 _ hmem _ List.mem_cons_self rfl
    have hnames : Element.attributeNames { e with attributes := e.attributes ++ [a] } ++
        as.map (fun a => (a.ns, a.name)) =
          e.attributeNames ++ (a :: as).map fun a => (a.ns, a.name) := by
      simp [Element.attributeNames]
    rw [List.map_cons, addAttributes, ha.addAttribute_eq hknows hdeclared hnsa hnew]
    dsimp only
    rw [ih hnsas (hnames ▸ hnodup)]
    simp

/-- The tag of an element is read as an element with the same namespace, name and attributes, and
with bindings that mean what the tag declares. -/
theorem Tag.Tells.readElement_eq (h : t.Tells s e) (he : isName e.name = true)
    (horderly : e.Orderly) (hknows : Knows tree parent s) :
    ∃ bindings : Bindings,
      (∀ label, t.scope.ns? label = (bindings.ns? label).or (s.ns? label)) ∧
        readElement tree none parent t.name.toList (t.pairs.flatMap attributeChars) =
          .ok { ns := e.ns, name := e.name, attributes := e.attributes, bindings := bindings } := by
  obtain ⟨m, hm⟩ := h.exists_cons
  have hnodup := h.declared_spec.2
  have hdeclared : ∀ label, (Bindings.ofList t.declared).ns? label = m.ns? label := fun label => by
    rw [ns?_ofList hnodup, declared_of_scope hm]
  have hlabels : (Bindings.ofList t.declared).labels.Nodup :=
    Bindings.nodup_labels_setAll (m := Bindings.empty) List.nodup_nil ⟨t.declared⟩
  have hbindings : ∀ label,
      (Bindings.setAll {} (Bindings.ofList t.declared)).ns? label = m.ns? label := fun label => by
    rw [ns?_setAll _ hlabels, hdeclared, show Bindings.ns? {} label = none from rfl, Option.or_none]
  refine ⟨Bindings.setAll {} (.ofList t.declared), fun label => ?_, ?_⟩
  · rw [hbindings, hm, Scope.ns?_cons]
  have hdeclaredBindings : declaredBindings (t.pairs.map rawOf) = .ofList t.declared := by
    rw [declaredBindings, h.filterMap_binding?]
  obtain ⟨label, hname, hmeans, hlabel⟩ := h.name
  have hsplit : splitName t.name.toList = (label, e.name) := by
    rw [hname, splitName_withLabel (hlabel.imp_right And.left) he]
  rw [hm] at hmeans
  have hresolve : resolve tree (.ofList t.declared) parent label = e.ns := by
    rw [hknows.resolve_eq hdeclared (hlabel.imp_right fun hl => by rw [hmeans]; exact hl.2), hmeans]
  have hbound : (e.ns.isNone && label != "") = false := by
    rcases hlabel with rfl | hl
    · simp
    · rw [Option.isNone_eq_false_iff.2 hl.2]
      rfl
  have hraw : t.pairs.map rawOf =
      (t.declared.map fun b => rawOf (b.declaration, b.ns)) ++ t.attributes.map rawOf := by
    rw [Tag.pairs, List.map_append, List.map_map]
    rfl
  have hattributes := addAttributes_written
    (e := { ns := e.ns, name := e.name, bindings := Bindings.setAll {} (.ofList t.declared) })
    (hm ▸ h.attributes) hknows hdeclared horderly.ns_ne horderly.attributes
  unfold readElement
  rw [readAttributes_written h.isKey_pairs (h.nodup_pairs horderly)]
  dsimp only
  rw [hsplit, hdeclaredBindings]
  dsimp only
  rw [hresolve, hbound, hraw, addAttributes_declared, Element.bindAll, hattributes]
  rfl

end Netconf.Xml
