import Netconf.Proofs.Tree.Marks
import Netconf.Proofs.Tree.Orderly

/-!
# Regular elements

An orderly element is *regular* if none of its attributes declares a label and if its default
binding, where it has one, is the first of its bindings. Such an element can be written with its
bindings as declarations in front of its attributes, and what is read has them apart again. Like
order this is an invariant (`Element.invariant_regular`). A regular element has at most one mark.
-/

namespace Netconf

namespace Bindings

variable {m m' : Bindings}

/-- A default binding, if there is one, is the first. -/
def DefaultFirst (m : Bindings) : Prop := ∀ b ∈ m.toList.tail, b.label ≠ ""

/-- A default binding stays the first when bindings are taken away. -/
theorem DefaultFirst.sublist (h : m.DefaultFirst) (hsub : m'.toList.Sublist m.toList) :
    m'.DefaultFirst := fun b hb => h b (hsub.tail.subset hb)

/-- A new default binding goes to the front, and another new one does not. -/
theorem DefaultFirst.insert (h : m.DefaultFirst) {b : Binding} (hnew : b.label ∉ m.labels) :
    (m.insert b).DefaultFirst := by
  unfold DefaultFirst Bindings.insert
  cases hb : b.isDefault with
  | true =>
    have hlabel : b.label = "" := by simpa [Binding.isDefault] using hb
    intro c hc hempty
    exact hnew (hlabel ▸ hempty ▸ List.mem_map_of_mem hc)
  | false =>
    have hlabel : b.label ≠ "" := by simpa [Binding.isDefault] using hb
    intro c hc
    obtain ⟨bs⟩ := m
    cases bs with
    | nil => cases hc
    | cons d bs =>
      rcases List.mem_append.1 (hc : c ∈ bs ++ [b]) with hc | hc
      · exact h c hc
      · exact List.mem_singleton.1 hc ▸ hlabel

/-- A default binding stays the first when a label is bound. -/
theorem DefaultFirst.set (h : m.DefaultFirst) (b : Binding) : (m.set b).DefaultFirst := by
  unfold Bindings.set
  split
  -- where a binding is overwritten the label is the same
  · intro c hc
    rw [← List.map_tail] at hc
    obtain ⟨d, hd, rfl⟩ := List.mem_map.1 hc
    split
    · next hsame => exact beq_iff_eq.1 hsame ▸ h d hd
    · exact h d hd
  · next hbinds => exact h.insert fun hb => hbinds (binds_iff.2 hb)

/-- A default binding stays the first when a binding is added. -/
theorem DefaultFirst.add (h : m.DefaultFirst) (b : Binding) : (m.add b).DefaultFirst := by
  unfold Bindings.add
  split
  · exact h
  · next hbinds => exact h.insert fun hb => hbinds (binds_iff.2 hb)

end Bindings

namespace Element

variable {e : Element}

/-- Labels and attributes are kept apart, what declares a namespace is no attribute, and a default
binding is the first one. -/
structure Regular (e : Element) : Prop extends Orderly e where
  /-- No attribute without namespace has the name of a declaration of a label. -/
  not_prefix : ∀ a ∈ e.attributes, a.ns = none → ¬ "xmlns:".toList <+: a.name.toList
  /-- A default binding, if there is one, is the first. -/
  defaultFirst : e.bindings.DefaultFirst

/-- A default binding is the first one on every element. -/
theorem invariant_defaultFirst : Invariant fun e => e.bindings.DefaultFirst :=
  .of_bindings (Q := Bindings.DefaultFirst) nofun Bindings.DefaultFirst.sublist
    Bindings.DefaultFirst.set Bindings.DefaultFirst.add

/-- Every change keeps an element regular. -/
theorem Regular.apply (h : e.Regular) (c : Tree.ElementChange) : (c.apply e).Regular where
  toOrderly := h.toOrderly.apply c
  not_prefix := (invariant_forall_attributes Attribute.Plain.not_prefix).apply h.not_prefix c
  defaultFirst := invariant_defaultFirst.apply h.defaultFirst c

/-- Being regular is an invariant of elements. -/
theorem invariant_regular : Invariant Regular :=
  ⟨fun ns name value => ⟨invariant_orderly.new ns name value, nofun, nofun⟩, Regular.apply⟩

/-! ## Marks -/

/-- The marks of an element: the attributes that have the name of a mark. -/
def marks (e : Element) : List Attribute :=
  e.attributes.filter (isAttribute (some nsNetconf) markName)

/-- The mark that is read is the first one. -/
theorem markText?_eq (e : Element) : e.markText? = e.marks.head?.map (·.value) := by
  rw [marks, List.head?_filter]
  rfl

/-- An orderly element has at most one mark. -/
theorem Orderly.length_marks_le (h : e.Orderly) : e.marks.length ≤ 1 := by
  have hnames : (e.marks.map fun a => (a.ns, a.name)).Nodup :=
    h.attributes.sublist (List.filter_sublist.map _)
  have hsame : ∀ p ∈ e.marks.map fun a => (a.ns, a.name), p = (some nsNetconf, markName) := by
    intro p hp
    obtain ⟨a, ha, rfl⟩ := List.mem_map.1 hp
    simpa [isAttribute] using (List.mem_filter.1 ha).2
  have hlength := List.nodup_iff_count_le_one.1 hnames (some nsNetconf, markName)
  rwa [List.eq_replicate_of_mem hsame, List.count_replicate_self, List.length_map] at hlength

end Element

end Netconf
