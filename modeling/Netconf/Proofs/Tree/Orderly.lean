import Mathlib.Data.List.Nodup
import Netconf.Proofs.Tree.Invariants

/-!
# Elements of reachable trees

On an element no label is bound twice, and no two attributes have the same namespace and name. What
would declare a namespace when it is written as an attribute is a binding and never an attribute.
Every way of changing an element keeps it *orderly* in this sense (`Element.invariant_orderly`), and
so the elements of every reachable tree are orderly (`Tree.Reachable.orderly`).
-/

namespace Netconf

/-! ## Bindings -/

namespace Bindings

variable {m : Bindings} {b : Binding}

/-- The labels of bindings in order. -/
def labels (m : Bindings) : List String := m.toList.map (·.label)

/-- The labels that are bound. -/
theorem binds_iff {label : String} : m.binds label = true ↔ label ∈ m.labels := by
  simp [binds, ns?, labels, List.find?_isSome]

/-- Where labels are kept apart, the bindings that are there are those that are found. -/
theorem ns?_eq_some_iff (h : m.labels.Nodup) {label ns : String} :
    m.ns? label = some ns ↔ ⟨label, ns⟩ ∈ m.toList := by
  unfold ns?
  rw [Option.map_eq_some_iff]
  constructor
  · rintro ⟨b, hb, rfl⟩
    have hlabel : b.label = label := by simpa using List.find?_some hb
    exact hlabel ▸ List.mem_of_find?_eq_some hb
  · intro hmem
    have hsome : (m.toList.find? fun c => c.label == label).isSome :=
      List.find?_isSome.2 ⟨_, hmem, beq_self_eq_true label⟩
    obtain ⟨b, hb⟩ := Option.isSome_iff_exists.1 hsome
    have hlabel : b.label = label := by simpa using List.find?_some hb
    have hsame : b = ⟨label, ns⟩ :=
      List.inj_on_of_nodup_map h (List.mem_of_find?_eq_some hb) hmem hlabel
    exact ⟨b, hb, congrArg Binding.ns hsame⟩

/-- The labels after an overwriting are the same ones. -/
theorem map_label_overwrite (bs : List Binding) (b : Binding) :
    (bs.map fun c => if c.label == b.label then b else c).map (·.label) = bs.map (·.label) := by
  rw [List.map_map]
  refine List.map_congr_left fun c _ => ?_
  by_cases hc : c.label = b.label
  · simp [hc]
  · simp [hc]

/-- Binding a label binds no other one besides. -/
theorem mem_labels_set {label : String} :
    label ∈ (m.set b).labels ↔ label ∈ m.labels ∨ label = b.label := by
  unfold set
  split
  · next hbinds =>
    rw [show (Bindings.mk (m.toList.map fun c => if c.label == b.label then b else c)).labels
      = m.labels from map_label_overwrite _ b]
    constructor
    · exact Or.inl
    · rintro (h | rfl)
      · exact h
      · exact binds_iff.1 hbinds
  · unfold insert
    split <;> simp [labels, or_comm]

/-- Binding a label keeps labels apart. -/
theorem nodup_labels_set (h : m.labels.Nodup) (b : Binding) : (m.set b).labels.Nodup := by
  unfold set
  split
  · rw [show (Bindings.mk (m.toList.map fun c => if c.label == b.label then b else c)).labels
      = m.labels from map_label_overwrite _ b]
    exact h
  · next hbinds =>
    have hnew : b.label ∉ m.labels := fun hb => hbinds (binds_iff.2 hb)
    unfold insert
    split
    · exact List.nodup_cons.2 ⟨hnew, h⟩
    · rw [labels, List.map_append, List.map_singleton, List.nodup_append_comm]
      exact List.nodup_cons.2 ⟨hnew, h⟩

/-- Adding a binding keeps labels apart. -/
theorem nodup_labels_add (h : m.labels.Nodup) (b : Binding) : (m.add b).labels.Nodup := by
  have hset := nodup_labels_set h b
  unfold add
  split
  · exact h
  · next hbinds => rwa [set, if_neg hbinds] at hset

/-- Binding the labels of another set keeps labels apart. -/
theorem nodup_labels_setAll (h : m.labels.Nodup) (other : Bindings) :
    (m.setAll other).labels.Nodup := by
  unfold setAll
  induction other.toList generalizing m with
  | nil => exact h
  | cons b bs ih => exact ih (nodup_labels_set h b)

/-- Adding the bindings of another set keeps labels apart. -/
theorem nodup_labels_merge (h : m.labels.Nodup) (other : Bindings) :
    (m.merge other).labels.Nodup := by
  unfold merge
  induction other.toList generalizing m with
  | nil => exact h
  | cons b bs ih => exact ih (nodup_labels_add h b)

end Bindings

/-! ## Elements -/

namespace Element

variable {e : Element}

/-- The namespaces and names of the attributes, in order. -/
def attributeNames (e : Element) : List (Option String × String) :=
  e.attributes.map fun a => (a.ns, a.name)

/-- Labels and attributes are kept apart, and declarations are no attributes. -/
@[mk_iff]
structure Orderly (e : Element) : Prop where
  /-- No label is bound twice. -/
  labels : e.bindings.labels.Nodup
  /-- No two attributes have the same namespace and name. -/
  attributes : e.attributeNames.Nodup
  /-- No attribute without namespace has the name of a declaration. -/
  name_ne : ∀ a ∈ e.attributes, a.ns = none → a.name ≠ "xmlns"
  /-- No attribute is in the namespace of declarations. -/
  ns_ne : ∀ a ∈ e.attributes, a.ns ≠ some nsXmlns

instance : DecidablePred Orderly := fun e => decidable_of_iff _ (orderly_iff e).symm

/-- Giving an attribute its value adds no other attribute. -/
theorem mem_putAttribute {as : List Attribute} {a b : Attribute} (hb : b ∈ putAttribute as a) :
    b ∈ as ∨ b = a := by
  unfold putAttribute at hb
  split at hb
  · obtain ⟨c, hc, rfl⟩ := List.mem_map.1 hb
    split
    · exact Or.inr rfl
    · exact Or.inl hc
  · simpa using hb

/-- Giving an attribute its value keeps attributes apart. -/
theorem nodup_putAttribute {as : List Attribute} (h : (as.map fun a => (a.ns, a.name)).Nodup)
    (a : Attribute) : ((putAttribute as a).map fun a => (a.ns, a.name)).Nodup := by
  unfold putAttribute
  split
  · rw [List.map_map]
    have hsame : as.map ((fun a => (a.ns, a.name)) ∘
        fun b => if isAttribute a.ns a.name b then a else b) = as.map fun a => (a.ns, a.name) := by
      refine List.map_congr_left fun b _ => ?_
      by_cases hb : isAttribute a.ns a.name b = true
      · have heq : b.ns = a.ns ∧ b.name = a.name := by simpa [isAttribute] using hb
        simp [hb, heq.1, heq.2]
      · simp [hb]
    rwa [hsame]
  · next hnone =>
    have hnew : (a.ns, a.name) ∉ as.map fun a => (a.ns, a.name) := by
      intro hm
      obtain ⟨b, hb, heq⟩ := List.mem_map.1 hm
      exact hnone (List.any_eq_true.2 ⟨b, hb, by simpa [isAttribute] using heq⟩)
    rw [List.map_append, List.map_singleton, List.nodup_append_comm]
    exact List.nodup_cons.2 ⟨hnew, h⟩

/-- On every element the labels are kept apart. -/
theorem invariant_labels : Invariant fun e => e.bindings.labels.Nodup :=
  .of_bindings (Q := fun m => m.labels.Nodup) List.nodup_nil
    (fun h hsub => h.sublist (hsub.map _)) Bindings.nodup_labels_set Bindings.nodup_labels_add

/-- On every element the attributes are kept apart. -/
theorem invariant_attributeNames : Invariant fun e => e.attributeNames.Nodup :=
  .of_attributes (Q := fun as => (as.map fun a : Attribute => (a.ns, a.name)).Nodup) List.nodup_nil
    (fun h hsub => h.sublist (hsub.map _)) fun h _ => nodup_putAttribute h _

/-- What holds of attributes that declare nothing holds of the attributes of every element. -/
theorem invariant_forall_attributes {R : Attribute → Prop} (hR : ∀ {a : Attribute}, a.Plain → R a) :
    Invariant fun e => ∀ a ∈ e.attributes, R a :=
  .of_attributes (Q := fun as => ∀ a ∈ as, R a) nofun (fun h hsub a ha => h a (hsub.subset ha))
    fun h ha b hb => by
      rcases mem_putAttribute hb with hb | rfl
      · exact h b hb
      · exact hR ha

/-- Every change keeps an element orderly. -/
theorem Orderly.apply (h : e.Orderly) (c : Tree.ElementChange) : (c.apply e).Orderly where
  labels := invariant_labels.apply h.labels c
  attributes := invariant_attributeNames.apply h.attributes c
  name_ne := (invariant_forall_attributes Attribute.Plain.name_ne).apply h.name_ne c
  ns_ne := (invariant_forall_attributes Attribute.Plain.ns_ne).apply h.ns_ne c

/-- Order is an invariant of elements. -/
theorem invariant_orderly : Invariant Orderly :=
  ⟨fun _ _ _ => ⟨List.nodup_nil, List.nodup_nil, nofun, nofun⟩, Orderly.apply⟩

/-- An orderly element has no second mark. -/
theorem Orderly.markText?_unmark (h : e.Orderly) : e.unmark.markText? = none := by
  have herase : ∀ as : List Attribute, (as.map fun a => (a.ns, a.name)).Nodup →
      (as.eraseP (isAttribute (some nsNetconf) markName)).find?
        (isAttribute (some nsNetconf) markName) = none := by
    intro as
    induction as with
    | nil => exact fun _ => rfl
    | cons a as ih =>
      intro hnd
      rw [List.map_cons, List.nodup_cons] at hnd
      by_cases ha : isAttribute (some nsNetconf) markName a = true
      -- the first mark goes, and none of the others has its name
      · rw [List.eraseP_cons_of_pos ha, List.find?_eq_none]
        intro b hb hmark
        have hsame : (b.ns, b.name) = (a.ns, a.name) := by
          simp only [isAttribute, Bool.and_eq_true, beq_iff_eq] at ha hmark
          rw [ha.1, ha.2, hmark.1, hmark.2]
        exact hnd.1 (hsame ▸ List.mem_map_of_mem hb)
      · rw [List.eraseP_cons_of_neg ha, List.find?_cons_of_neg ha]
        exact ih hnd.2
  unfold markText? attributeIn? Element.unmark eraseAttributeIn
  rw [herase e.attributes h.attributes]
  rfl

end Element

/-! ## Branches and trees -/

/-- All elements of a branch are orderly. -/
def Branch.Orderly (b : Branch) : Prop := b.All fun c => c.element.Orderly

instance : DecidablePred Branch.Orderly := fun b => inferInstanceAs (Decidable (b.All _))

namespace Tree

variable {t : Tree}

/-- All elements of a tree are orderly. -/
def Orderly (t : Tree) : Prop := ∀ x, (t.element x).Orderly

/-- The branches of an orderly tree are orderly. -/
theorem Orderly.branch (h : t.Orderly) (id : NodeId) : (t.branch id).Orderly := Each.branch h id

/-- The empty tree is orderly. -/
theorem Orderly.empty (r : Registry) : (Tree.empty r).Orderly :=
  Each.empty Element.invariant_orderly r

/-- A copy of an orderly branch keeps a tree orderly. -/
theorem Orderly.addCopy (h : t.Orderly) {b : Branch} (hb : b.Orderly) :
    (t.addCopy b).1.Orderly :=
  Each.addCopy Element.invariant_orderly h hb

/-- On the elements of a reachable tree no label is bound twice, no attribute is there twice, and
no attribute is a declaration. -/
theorem Reachable.orderly (h : Reachable t) : t.Orderly := h.each Element.invariant_orderly

end Tree

end Netconf
