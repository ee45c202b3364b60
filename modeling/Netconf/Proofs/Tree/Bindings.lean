import Mathlib.Data.List.Induction
import Netconf.Proofs.Tree.Lineages
import Netconf.Proofs.Xml.Scopes

/-!
# Bindings made on a node

All bindings that can be seen from a node, taken together, are a table of what the labels mean there
(`Tree.bindingsAt_table`). Bindings that are made on a node a second time are there already,
whatever they are, so that making them changes nothing (`Tree.bound_eq_self`).
-/

namespace Netconf

namespace Bindings

variable {m other : Bindings} {b c : Binding} {label : String}

/-! ## Adding bindings -/

/-- A label that is added means what it is bound to, unless it meant something before. -/
theorem ns?_add (m : Bindings) (b : Binding) (label : String) :
    (m.add b).ns? label = (m.ns? label).or (if label = b.label then some b.ns else none) := by
  have hset := ns?_set m b label
  unfold add
  by_cases hbinds : m.binds b.label = true
  · rw [if_pos hbinds]
    by_cases hl : label = b.label
    · obtain ⟨ns, hns⟩ := Option.isSome_iff_exists.1 hbinds
      rw [hl, hns, Option.some_or]
    · rw [if_neg hl, Option.or_none]
  · rw [set, if_neg hbinds] at hset
    rw [if_neg hbinds, hset]
    by_cases hl : label = b.label
    · have hnone : m.ns? label = none := by rw [hl]; simpa [binds] using hbinds
      rw [if_pos hl, if_pos hl, hnone, Option.none_or]
    · rw [if_neg hl, if_neg hl, Option.or_none]

/-- A label means in bindings that are added what it meant before, or what it means in them. -/
theorem ns?_merge (m other : Bindings) (label : String) :
    (m.merge other).ns? label = (m.ns? label).or (other.ns? label) := by
  obtain ⟨bs⟩ := other
  induction bs generalizing m with
  | nil => exact (Option.or_none).symm
  | cons b bs ih =>
    have hmerge : m.merge ⟨b :: bs⟩ = (m.add b).merge ⟨bs⟩ := rfl
    have hcons : Bindings.ns? ⟨b :: bs⟩ label =
        (if label = b.label then some b.ns else none).or (Bindings.ns? ⟨bs⟩ label) := by
      unfold ns?
      rw [List.find?_cons]
      by_cases hl : label = b.label
      · simp [hl]
      · have hne : (b.label == label) = false := by simpa using Ne.symm hl
        simp [hl, hne]
    rw [hmerge, ih, ns?_add, hcons, Option.or_assoc]

/-! ## Making bindings twice -/

/-- What several bindings, one after the other, make of a binding. -/
def overwritten (bs : List Binding) (c : Binding) : Binding :=
  bs.foldl (fun c b => if c.label == b.label then b else c) c

/-- A binding keeps its label. -/
theorem label_overwritten (bs : List Binding) (c : Binding) :
    (overwritten bs c).label = c.label := by
  induction bs generalizing c with
  | nil => rfl
  | cons b bs ih =>
    rw [overwritten, List.foldl_cons]
    refine (ih _).trans ?_
    split
    · next h => exact (beq_iff_eq.1 h).symm
    · rfl

/-- A binding that is there after one was made is that one or has another label. -/
theorem eq_or_of_mem_set (h : c ∈ (m.set b).toList) :
    c = b ∨ c ∈ m.toList ∧ c.label ≠ b.label := by
  unfold set at h
  split at h
  · obtain ⟨d, hd, rfl⟩ := List.mem_map.1 h
    by_cases hl : d.label = b.label
    · simp [hl]
    · have hne : (d.label == b.label) = false := by simpa using hl
      rw [hne]
      exact .inr ⟨hd, hl⟩
  · next hbinds =>
    have hother : ∀ d ∈ m.toList, d.label ≠ b.label := fun d hd hl =>
      hbinds (binds_iff.2 (hl ▸ List.mem_map_of_mem hd))
    unfold insert at h
    split at h
    · rcases List.mem_cons.1 h with rfl | h
      · exact .inl rfl
      · exact .inr ⟨h, hother c h⟩
    · rcases List.mem_append.1 h with h | h
      · exact .inr ⟨h, hother c h⟩
      · exact .inl (List.mem_singleton.1 h)

/-- Bindings that were made are not overwritten by making them once more. -/
theorem overwritten_of_mem_setAll (bs : List Binding) (h : c ∈ (m.setAll ⟨bs⟩).toList) :
    overwritten bs c = c := by
  induction bs using List.reverseRecOn generalizing c with
  | nil => rfl
  | append_singleton bs b ih =>
    have hset : m.setAll ⟨bs ++ [b]⟩ = (m.setAll ⟨bs⟩).set b := List.foldl_append
    rw [hset] at h
    have hlast : overwritten (bs ++ [b]) c =
        if (overwritten bs c).label == b.label then b else overwritten bs c := List.foldl_append
    rw [hlast, label_overwritten]
    rcases eq_or_of_mem_set h with rfl | ⟨hc, hne⟩
    · rw [beq_self_eq_true, if_pos rfl]
    · rw [if_neg (by simpa using hne), ih hc]

/-- Bindings whose labels are all bound overwrite those that are there. -/
theorem setAll_of_bound {bs : List Binding} (h : ∀ b ∈ bs, b.label ∈ m.labels) :
    m.setAll ⟨bs⟩ = ⟨m.toList.map (overwritten bs)⟩ := by
  induction bs generalizing m with
  | nil => exact congrArg Bindings.mk (List.map_id _).symm
  | cons b bs ih =>
    obtain ⟨hb, hbs⟩ := List.forall_mem_cons.1 h
    have hset : m.setAll ⟨b :: bs⟩ = (m.set b).setAll ⟨bs⟩ := rfl
    rw [hset, ih fun d hd => mem_labels_set.2 (.inl (hbs d hd)), set, if_pos (binds_iff.2 hb),
      List.map_map]
    rfl

/-- Bindings that are made are bound. -/
theorem mem_labels_setAll {bs : List Binding} (h : label ∈ m.labels ∨ ∃ b ∈ bs, b.label = label) :
    label ∈ (m.setAll ⟨bs⟩).labels := by
  induction bs generalizing m with
  | nil =>
    rcases h with h | ⟨b, hb, -⟩
    · exact h
    · cases hb
  | cons b bs ih =>
    refine ih (m := m.set b) ?_
    rcases h with h | ⟨d, hd, hl⟩
    · exact .inl (mem_labels_set.2 (.inl h))
    · rcases List.mem_cons.1 hd with rfl | hd
      · exact .inl (mem_labels_set.2 (.inr hl.symm))
      · exact .inr ⟨d, hd, hl⟩

/-- Making bindings a second time changes nothing. -/
theorem setAll_setAll (m other : Bindings) :
    (m.setAll other).setAll other = m.setAll other := by
  obtain ⟨bs⟩ := other
  rw [setAll_of_bound fun b hb => mem_labels_setAll (.inr ⟨b, hb, rfl⟩),
    List.map_congr_left fun c hc => overwritten_of_mem_setAll bs hc, List.map_id']

end Bindings

/-- The bindings of a lineage mean what the labels mean there. -/
theorem Lineage.ns?_bindings (line : Lineage) (defaults : Bindings) (label : String) :
    (line.bindings defaults).ns? label = line.ns? defaults label := by
  have hfold : ∀ m : Bindings, (line.foldl (fun m e => m.merge e.bindings) m).ns? label =
      (m.ns? label).or (line.findSome? fun e => e.bindings.ns? label) := by
    induction line with
    | nil => exact fun m => (Option.or_none).symm
    | cons e line ih =>
      intro m
      rw [List.foldl_cons, ih, Bindings.ns?_merge, Option.or_assoc, List.findSome?_cons]
      cases e.bindings.ns? label <;> rfl
  rw [bindings, Bindings.ns?_merge, hfold]
  rfl

/-- No label is bound twice by a lineage, whatever its elements and the default ones bind. -/
theorem Lineage.nodup_labels_bindings (line : Lineage) (defaults : Bindings) :
    (line.bindings defaults).labels.Nodup := by
  have hline : (line.foldl (fun m e => m.merge e.bindings) Bindings.empty).labels.Nodup :=
    line.foldlRecOn (motive := fun m : Bindings => m.labels.Nodup) _ List.nodup_nil
      fun _ hm e _ => Bindings.nodup_labels_merge hm e.bindings
  exact Bindings.nodup_labels_merge hline defaults

namespace Tree

variable {t : Tree}

/-- The bindings that can be seen from a node mean what the labels mean there. -/
theorem ns?_bindingsAt (t : Tree) (id : NodeId) (label : String) :
    (t.bindingsAt id).ns? label = t.nsOf? id label :=
  (t.lineage id).ns?_bindings t.defaults.bindings label

/-- The bindings that can be seen from a node are a table of the labels that mean something there:
looking a label up in the table gives what it means at the node, no label is in the table twice, and
a binding is in it just when the label means that namespace at the node. -/
theorem bindingsAt_table (t : Tree) (id : NodeId) :
    (∀ label, (t.bindingsAt id).ns? label = t.nsOf? id label) ∧
      (t.bindingsAt id).labels.Nodup ∧
      ∀ b, b ∈ (t.bindingsAt id).toList ↔ t.nsOf? id b.label = some b.ns := by
  have hnodup : (t.bindingsAt id).labels.Nodup :=
    (t.lineage id).nodup_labels_bindings t.defaults.bindings
  refine ⟨t.ns?_bindingsAt id, hnodup, fun b => ?_⟩
  rw [← t.ns?_bindingsAt id, Bindings.ns?_eq_some_iff hnodup]

/-- The tree with bindings made on a node. -/
def bound (t : Tree) (id : NodeId) (bindings : Option Bindings) : Tree :=
  t.modifyElement id fun e => e.bindAll (bindings.getD {})

/-- The links stay. -/
theorem Forest.bound (h : t.Forest) (id : NodeId) (bindings : Option Bindings) :
    (t.bound id bindings).Forest :=
  h.modifyElement id _

/-- There are the same slots. -/
@[simp]
theorem size_bound (t : Tree) (id : NodeId) (bindings : Option Bindings) :
    (t.bound id bindings).size = t.size :=
  t.size_modifyElement id _

/-- The nodes have their children. -/
@[simp]
theorem children_bound (t : Tree) (id : NodeId) (bindings : Option Bindings) (x : NodeId) :
    (t.bound id bindings).children x = t.children x :=
  t.children_modifyElement id x _

/-- The nodes have their parents. -/
@[simp]
theorem parent?_bound (t : Tree) (id : NodeId) (bindings : Option Bindings) (x : NodeId) :
    (t.bound id bindings).parent? x = t.parent? x :=
  t.parent?_modifyElement id x _

/-- The nodes carry what they carried, but for the bindings. -/
theorem element_bound (t : Tree) (id : NodeId) (bindings : Option Bindings) (x : NodeId) :
    (t.bound id bindings).element x =
      if x = id ∧ x < t.size then (t.element x).bindAll (bindings.getD {}) else t.element x :=
  t.element_modifyElement id x _

/-- The nodes have their namespaces. -/
@[simp]
theorem ns?_bound (t : Tree) (id : NodeId) (bindings : Option Bindings) (x : NodeId) :
    (t.bound id bindings).ns? x = t.ns? x := by
  rw [ns?, element_bound]
  split <;> rfl

/-- A change that leaves a node as it is changes nothing. -/
theorem modify_eq_self {id : NodeId} {f : Node → Node} (h : f (t.node id) = t.node id) :
    t.modify id f = t := by
  have hnodes : t.nodes.modify id f = t.nodes := by
    refine Array.ext (by simp) fun i hi hi' => ?_
    rw [Array.getElem_modify]
    split
    · next he =>
      subst he
      have hnode : t.node id = t.nodes[id] := by
        rw [node, Array.getD_eq_getD_getElem?, Array.getElem?_eq_getElem hi', Option.getD_some]
      rw [← hnode, h]
    · rfl
  rw [modify, hnodes]

/-- Bindings that a node has changed nothing when they are made on it. -/
theorem bound_eq_self {id : NodeId} {bindings : Option Bindings} {e : Element}
    (h : t.element id = e.bindAll (bindings.getD {})) : t.bound id bindings = t := by
  refine modify_eq_self ?_
  have helement : (t.element id).bindAll (bindings.getD {}) = t.element id := by
    rw [h, Element.bindAll, Element.bindAll, Bindings.setAll_setAll]
  show { t.node id with element := (t.element id).bindAll (bindings.getD {}) } = t.node id
  rw [helement]
  rfl

end Tree

end Netconf
