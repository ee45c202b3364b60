import Netconf.Proofs.Tree.Lineages
import Netconf.Proofs.Tree.Orderly

/-!
# Labels of namespaces

The label that is found for a namespace at a node is that of the innermost element that has one for
it. The label means the namespace at the node unless an element further in binds it again, and then
it means another one (`Tree.nsOf?_of_labelOf?`), also where it is written in front of the node's
name.
-/

namespace Netconf

/-! ## Bindings of one element -/

namespace Bindings

variable {m : Bindings} {label ns : String}

/-- A label that is found for a namespace is bound to it. -/
theorem ns?_of_label? (h : m.labels.Nodup) (hlabel : m.label? ns = some label) :
    m.ns? label = some ns := by
  obtain ⟨b, hb, rfl⟩ := Option.map_eq_some_iff.1 hlabel
  have hns : b.ns = ns := by simpa using List.find?_some hb
  exact (ns?_eq_some_iff h).2 (hns ▸ List.mem_of_find?_eq_some hb)

/-- Where no label is found for a namespace, none is bound to it. -/
theorem ns?_ne_of_label? (hnone : m.label? ns = none) : m.ns? label ≠ some ns := by
  intro hns
  obtain ⟨b, hb, rfl⟩ := Option.map_eq_some_iff.1 hns
  have hmem := List.mem_of_find?_eq_some hb
  have hnot := List.find?_eq_none.1 (Option.map_eq_none_iff.1 hnone) b hmem
  exact hnot (beq_self_eq_true _)

end Bindings

/-! ## Registries -/

/-- The registries that there are: new ones, and those in which more was registered. -/
inductive Registry.Made : Registry → Prop where
  /-- A new registry. -/
  | standard (id : Nat) : Made (.standard id)
  /-- A registry with one more binding, or one where the label was registered already. -/
  | register {r : Registry} (h : Made r) (b : Binding) : Made (r.register b).2

/-- No label is registered twice. -/
theorem Registry.Made.nodup_labels {r : Registry} (h : r.Made) : r.bindings.labels.Nodup := by
  induction h with
  | standard id =>
    show Registry.standardBindings.labels.Nodup
    decide
  | register _ b ih =>
    unfold Registry.register
    split
    · exact ih
    · exact Bindings.nodup_labels_add ih b

/-! ## The way up -/

namespace Lineage

variable {line : Lineage} {defaults : Bindings} {label ns : String}

/-- Is the label bound by an element that is further in than all that have a label for the
namespace? -/
def hides (line : Lineage) (ns label : String) : Bool :=
  (line.takeWhile fun e => (e.bindings.label? ns).isNone).any fun e => e.bindings.binds label

/-- An element that has a label for the namespace hides none. -/
theorem hides_of_label? {e : Element} {l : String} (h : e.bindings.label? ns = some l) :
    hides (e :: line) ns label = false := by
  simp [hides, h]

/-- An element that has no label for the namespace hides the label if it binds it, and so do the
elements above it. -/
theorem hides_cons {e : Element} (h : e.bindings.label? ns = none) :
    hides (e :: line) ns label = (e.bindings.binds label || hides line ns label) := by
  simp [hides, h]

/-- The label that is found for a namespace means the namespace if it is not hidden, and else it
means another one. -/
theorem ns?_of_label? (hline : ∀ e ∈ line, e.bindings.labels.Nodup)
    (hdefaults : defaults.labels.Nodup) (hlabel : line.label? defaults ns = some label) :
    (line.hides ns label = false ∧ line.ns? defaults label = some ns) ∨
      (line.hides ns label = true ∧
        ∃ other, other ≠ ns ∧ line.ns? defaults label = some other) := by
  -- along the way up, to the first element with a label for the namespace
  induction line with
  | nil => exact .inl ⟨rfl, Bindings.ns?_of_label? hdefaults hlabel⟩
  | cons e above ih =>
    obtain ⟨he, habove⟩ := List.forall_mem_cons.1 hline
    have hns : Lineage.ns? (e :: above) defaults label =
        (e.bindings.ns? label).or (Lineage.ns? above defaults label) := by
      unfold ns?
      rw [List.findSome?_cons]
      cases e.bindings.ns? label <;> rfl
    cases hown : e.bindings.label? ns with
    | some l =>
      have hl : l = label := by simpa [label?, hown] using hlabel
      rw [hns, Bindings.ns?_of_label? he (hl ▸ hown), Option.some_or]
      exact .inl ⟨hides_of_label? hown, rfl⟩
    | none =>
      rw [hides_cons hown, hns]
      cases hbound : e.bindings.ns? label with
      | some other =>
        have hother : other ≠ ns := fun heq =>
          Bindings.ns?_ne_of_label? hown (heq ▸ hbound : e.bindings.ns? label = some ns)
        have hbinds : e.bindings.binds label = true := by rw [Bindings.binds, hbound]; rfl
        rw [hbinds, Option.some_or, Bool.true_or]
        exact .inr ⟨rfl, other, hother, rfl⟩
      | none =>
        have hbinds : e.bindings.binds label = false := by rw [Bindings.binds, hbound]; rfl
        rw [hbinds, Option.none_or, Bool.false_or]
        exact ih habove (by simpa [label?, hown] using hlabel)

end Lineage

namespace Tree

variable {t : Tree} {n : NodeId} {label ns : String}

/-- Is the label bound again between a node and what has a label for the namespace there? -/
def hides (t : Tree) (n : NodeId) (ns label : String) : Bool := (t.lineage n).hides ns label

/-- A name with a label is written with the label that is found for the namespace. -/
theorem Forest.qualifiedName_of_labelOf? (h : t.Forest) (hns : t.ns? n = some ns)
    (hlabel : t.labelOf? n ns = some label) (hne : label ≠ "") :
    t.qualifiedName n = label ++ ":" ++ t.name n := by
  have hns' : (t.element n).ns = some ns := hns
  unfold labelOf? at hlabel
  unfold qualifiedName Lineage.qualifiedName
  rw [h.lineage_eq] at hlabel ⊢
  dsimp only
  rw [hns', Option.bind_some, hlabel]
  exact if_neg hne

/-- The label that is found for a namespace at a node of a reachable tree means the namespace there
if and only if it is not bound again on the way up, before the namespace is met. If it is, then it
means another namespace, also in the name of the node where that is written with it. -/
theorem nsOf?_of_labelOf? (h : t.Reachable) (hr : t.defaults.Made)
    (hlabel : t.labelOf? n ns = some label) :
    (t.nsOf? n label = some ns ↔ t.hides n ns label = false) ∧
      (t.hides n ns label = true → ∃ other, other ≠ ns ∧ t.nsOf? n label = some other) ∧
      (t.ns? n = some ns → label ≠ "" → t.qualifiedName n = label ++ ":" ++ t.name n) := by
  have hline : ∀ e ∈ t.lineage n, e.bindings.labels.Nodup := fun e he => by
    obtain ⟨x, -, rfl⟩ := List.mem_map.1 he
    exact (h.orderly x).labels
  refine ⟨?_, ?_, fun hns hne => h.forest.qualifiedName_of_labelOf? hns hlabel hne⟩
  all_goals rcases Lineage.ns?_of_label? hline hr.nodup_labels hlabel with
    ⟨hshown, hns⟩ | ⟨hhidden, other, hother, hns⟩
  · exact ⟨fun _ => hshown, fun _ => hns⟩
  · constructor
    · intro hsame
      exact absurd (Option.some.inj (hns.symm.trans hsame)) hother
    · intro hshown
      exact absurd (hhidden.symm.trans hshown) Bool.noConfusion
  · intro hhidden
    exact absurd (hshown.symm.trans hhidden) Bool.noConfusion
  · exact fun _ => ⟨other, hother, hns⟩

/-- An element with two labels for its namespace, and a child in the same namespace that binds the
first of them again. -/
def rebound : Tree :=
  ((Tree.empty (.standard 0)).addCopy
    (.mk 0 { ns := some "urn:x", name := "a", bindings := ⟨[⟨"p", "urn:x"⟩, ⟨"q", "urn:x"⟩]⟩ } [
      .mk 0 { ns := some "urn:x", name := "b", bindings := ⟨[⟨"p", "urn:y"⟩]⟩ } []])).1

/-- The two elements are read from a text. -/
theorem parse_rebound : Xml.parse (.standard 0) none
    "<p:a xmlns:p=\"urn:x\" xmlns:q=\"urn:x\"><q:b xmlns:p=\"urn:y\"/></p:a>" =
      .ok ⟨rebound, 0⟩ := rfl

/-- At the outer element the label that is found means the namespace. At the inner one it is hidden
and means the other namespace. -/
theorem nsOf?_of_labelOf?_rebound :
    rebound.labelOf? 0 "urn:x" = some "p" ∧ rebound.nsOf? 0 "p" = some "urn:x" ∧
      rebound.labelOf? 1 "urn:x" = some "p" ∧
      (∃ other, other ≠ "urn:x" ∧ rebound.nsOf? 1 "p" = some other) ∧
      rebound.qualifiedName 1 = "p" ++ ":" ++ rebound.name 1 := by
  have hreachable : rebound.Reachable := .parsed parse_rebound
  have houter : rebound.labelOf? 0 "urn:x" = some "p" := by decide +kernel
  have hinner : rebound.labelOf? 1 "urn:x" = some "p" := by decide +kernel
  obtain ⟨-, hother, hname⟩ := nsOf?_of_labelOf? hreachable (.standard 0) hinner
  exact ⟨houter, (nsOf?_of_labelOf? hreachable (.standard 0) houter).1.2 (by decide +kernel),
    hinner, hother (by decide +kernel), hname rfl (by decide)⟩

/-- In a text that is read, a label that is found for the namespace of an element, and that its name
is written with, means another namespace there. Another label means the namespace. -/
theorem labelOf?_hidden :
    Xml.parse (.standard 0) none
        "<p:a xmlns:p=\"urn:x\" xmlns:q=\"urn:x\"><q:b xmlns:p=\"urn:y\"/></p:a>" =
      .ok ⟨rebound, 0⟩ ∧
    rebound.labelOf? 1 "urn:x" = some "p" ∧ rebound.nsOf? 1 "p" = some "urn:y" ∧
      rebound.ns? 1 = some "urn:x" ∧ rebound.qualifiedName 1 = "p:b" ∧
      rebound.nsOf? 1 "q" = some "urn:x" :=
  ⟨parse_rebound, by decide +kernel, by decide +kernel, rfl, by decide +kernel, by decide +kernel⟩

end Tree

end Netconf
