import Mathlib.Data.List.Pairwise
import Netconf.Proofs.Tree.Identity

/-!
# Siblings that a key tells apart

Where siblings of one name are entries of a list, a key that both have tells them apart
(`Branch.Entries`). Then no node is the same as both of them (`Entries.not_matches`).
-/

namespace Netconf

namespace Branch

variable {b c d : Branch} {x : Entry}

/-- Two siblings are entries of a list, and a key that both have tells them apart. -/
@[mk_iff]
structure Entries (c d : Branch) : Prop where
  /-- The first one is a container. -/
  left : c.element.kind.isContainer = true
  /-- So is the second one. -/
  right : d.element.kind.isContainer = true
  /-- They differ in the value of a key. -/
  differ : ∃ key ∈ c.element.kind.keys, key ∈ d.element.kind.keys ∧
    sameValue ((c.entry.member? key).bind Element.value)
      ((d.entry.member? key).bind Element.value) = false

instance (c d : Branch) : Decidable (c.Entries d) := decidable_of_iff _ (entries_iff c d).symm

/-- Two siblings have different names, or else are entries. -/
def Distinct (c d : Branch) : Prop := c.element.sameName d.element = true → c.Entries d

instance (c d : Branch) : Decidable (c.Distinct d) :=
  inferInstanceAs (Decidable (c.element.sameName d.element = true → c.Entries d))

/-- The children of a node are told apart by their names and keys. -/
def ToldApart (b : Branch) : Prop := b.children.Pairwise Distinct

instance : DecidablePred ToldApart := fun b =>
  inferInstanceAs (Decidable (b.children.Pairwise Distinct))

/-- The numbers of slots do not matter to entries. -/
@[simp]
theorem entries_bare : c.bare.Entries d.bare ↔ c.Entries d := by
  simp [entries_iff]

/-- The numbers of slots do not matter among children. -/
@[simp]
theorem toldApart_bare : b.bare.ToldApart ↔ b.ToldApart := by
  unfold ToldApart Distinct
  rw [children_bare, List.pairwise_map]
  simp

/-- Being entries goes both ways. -/
theorem Entries.symm (h : c.Entries d) : d.Entries c := by
  obtain ⟨hc, hd, key, hkc, hkd, hdiffer⟩ := h
  refine ⟨hd, hc, key, hkd, hkc, ?_⟩
  rw [Bool.eq_false_iff, ne_eq, sameValue_iff] at hdiffer ⊢
  exact fun heq => hdiffer heq.symm

/-- What is the same node as an entry is not the same as another entry. -/
theorem Entries.not_matches (h : c.Entries d) (hc : c.entry.matchesEntry x = true) :
    d.entry.matchesEntry x = false := by
  obtain ⟨-, -, key, hkc, hkd, hdiffer⟩ := h
  rw [Bool.eq_false_iff]
  intro hd
  -- the key that differs would look like that of `x` on both sides
  have hsame := Entry.sameValue_of_keyText?
    ((Entry.keyText?_of_matches hc hkc).trans (Entry.keyText?_of_matches hd hkd).symm)
  rw [hsame] at hdiffer
  cases hdiffer

instance : Std.Symm Distinct where
  symm c d hcd hname := by
    obtain ⟨hname, hns⟩ := Element.sameName_iff.1 hname
    exact (hcd (Element.sameName_iff.2 ⟨hname.symm, hns.symm⟩)).symm

/-- Two children are one child, or are told apart. -/
theorem ToldApart.eq_or_distinct (h : b.ToldApart) (hc : c ∈ b.children) (hd : d ∈ b.children) :
    c = d ∨ c.Distinct d :=
  (em (c = d)).imp_right (h.forall hc hd)

end Branch

end Netconf
