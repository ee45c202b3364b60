import Netconf.Proofs.Tree.Identity

/-!
# Two sides of a node

An edit is computed from two branches of configurations of one schema whose tops are the same node.
What makes both sides fit for it is inherited by children that are the same node (`Sides.child`),
and the keys of the two sides look the same (`Sides.keyText?`).
-/

namespace Netconf

open Branch

namespace Edit

variable {s : Schema} {a b c x y : Branch}

/-- Two well-keyed branches of configurations of one schema whose tops are the same node. -/
structure Sides (s : Schema) (a b : Branch) : Prop where
  /-- The tops have the same kind. -/
  kind : a.element.kind = b.element.kind
  /-- The tops are the same node. -/
  same : a.entry.matchesEntry b.entry = true
  /-- The schema gives the kinds of the first side. -/
  describedA : a.Described s
  /-- The schema gives the kinds of the second side. -/
  describedB : b.Described s
  /-- The first side is well-keyed. -/
  keyedA : a.WellKeyed
  /-- The second side is well-keyed. -/
  keyedB : b.WellKeyed
  /-- The first side has no marks. -/
  unmarkedA : a.Unmarked
  /-- The second side has no marks. -/
  unmarkedB : b.Unmarked

namespace Sides

/-- The sides may be exchanged. -/
theorem symm (h : Sides s a b) : Sides s b a :=
  ⟨h.kind.symm, Entry.matches_symm (x := a.entry) (y := b.entry) h.kind h.same, h.describedB,
    h.describedA, h.keyedB, h.keyedA, h.unmarkedB, h.unmarkedA⟩

/-- The kinds of the children of the first side. -/
theorem kindsA (h : Sides s a b) : ∀ c ∈ a.children,
    c.element.kind = s.rule (some a.element.kind) c.element.ns c.element.name :=
  (all_iff.1 h.describedA).1

/-- The kinds of the children of the second side. -/
theorem kindsB (h : Sides s a b) : ∀ c ∈ b.children,
    c.element.kind = s.rule (some a.element.kind) c.element.ns c.element.name := by
  rw [h.kind]
  exact (all_iff.1 h.describedB).1

/-- Children that are the same node are two sides again. -/
theorem child (h : Sides s a b) {x y : Branch} (hx : x ∈ a.children) (hy : y ∈ b.children)
    (hxy : x.entry.matchesEntry y.entry = true) : Sides s x y := by
  refine ⟨?_, hxy, (all_iff.1 h.describedA).2 x hx, (all_iff.1 h.describedB).2 y hy,
    (all_iff.1 h.keyedA).2 x hx, (all_iff.1 h.keyedB).2 y hy, (all_iff.1 h.unmarkedA).2 x hx,
    (all_iff.1 h.unmarkedB).2 y hy⟩
  exact Entry.kind_eq_of_identity_eq (x := x.entry) (y := y.entry) (h.kindsA x hx) (h.kindsB y hy)
    (Entry.identity_eq_of_matches (h.kindsA x hx) hxy)

/-- The second side has the kind that a rule gives it, when the first side has. -/
theorem kind_right {rule : KindRule} (h : Sides s a b)
    (ha : a.element.kind = rule a.element.ns a.element.name) :
    b.element.kind = rule b.element.ns b.element.name := by
  obtain ⟨hname, hns⟩ := Element.sameName_iff.1
    (Entry.sameName_of_matches (x := a.entry) (y := b.entry) h.same)
  have hname : a.element.name = b.element.name := hname
  have hns : a.element.ns = b.element.ns := hns
  rw [← h.kind, ha, hname, hns]

/-- The second side has the identity of the first. -/
theorem identity_right {rule : KindRule} (h : Sides s a b)
    (ha : a.element.kind = rule a.element.ns a.element.name) :
    b.identity rule = a.identity rule :=
  (Entry.identity_eq_of_matches (x := a.entry) (y := b.entry) ha h.same).symm

/-- The keys of the two sides look the same. -/
theorem keyText? (h : Sides s a b) {key : String} (hkey : key ∈ a.element.kind.keys) :
    a.entry.keyText? key = b.entry.keyText? key :=
  Entry.keyText?_of_matches (x := a.entry) h.same hkey

/-- A key of the first side has its like on the second. -/
theorem exists_key (h : Sides s a b) (hc : c ∈ a.children)
    (hkey : a.element.hasKey c.element.name = true) :
    ∃ d ∈ b.children, c.element.alike d.element = true := by
  have hmem : c.element.name ∈ a.element.kind.keys := List.contains_iff_mem.1 hkey
  have hnamed : c.element ∈ a.entry.membersNamed c.element.name :=
    List.mem_filter.2 ⟨List.mem_map_of_mem hc, by simp⟩
  have hmember := Entry.member?_of_once hnamed ((all_iff.1 h.keyedA).1.once c.element.name hmem)
  have htext := h.keyText? hmem
  unfold Entry.keyText? at htext
  rw [hmember, Option.map_some] at htext
  obtain ⟨m, hm, heq⟩ := Option.map_eq_some_iff.1 htext.symm
  obtain ⟨d, hd, rfl⟩ := List.mem_map.1 (Entry.mem_of_member? hm).1
  simp only [Prod.mk.injEq] at heq
  exact ⟨d, hd, Element.alike_iff.2 ⟨heq.2.1.symm, heq.1.symm, heq.2.2.symm⟩⟩

/-- A key of the first side has its like on the second, of the same identity. -/
theorem exists_key_identity (h : Sides s a b) (hx : x ∈ a.children)
    (hkey : a.element.hasKey x.element.name = true) :
    ∃ d ∈ b.children.filter fun d => d.identity (s.rule (some a.element.kind)) =
      x.identity (s.rule (some a.element.kind)), x.element.alike d.element = true := by
  obtain ⟨d, hd, hxd⟩ := h.exists_key hx hkey
  obtain ⟨hname, hns, -⟩ := Element.alike_iff.1 hxd
  refine ⟨d, List.mem_filter.2 ⟨hd, decide_eq_true (Entry.identity_eq_of_sameName
    (x := x.entry) (y := d.entry) (Element.sameName_iff.2 ⟨hname, hns⟩) ?_).symm⟩, hxd⟩
  rw [← ((all_iff.1 h.keyedA).1.keys x hx hkey).2, h.kindsA x hx]
  rfl

/-- A node that only the first side has is no key. -/
theorem hasKey_left (h : Sides s a b) (hx : x ∈ a.children)
    (hnone : (b.children.filter fun d => d.identity (s.rule (some a.element.kind)) =
      x.identity (s.rule (some a.element.kind))) = []) :
    a.element.hasKey x.element.name = false := by
  by_contra hkey
  obtain ⟨d, hd, -⟩ := h.exists_key_identity hx (Bool.eq_true_of_not_eq_false hkey)
  rw [hnone] at hd
  cases hd

/-- A node that only the second side has is no key. -/
theorem hasKey_right (h : Sides s a b) (hy : y ∈ b.children)
    (hnone : (a.children.filter fun d => d.identity (s.rule (some a.element.kind)) =
      y.identity (s.rule (some a.element.kind))) = []) :
    b.element.hasKey y.element.name = false := by
  rw [h.kind] at hnone
  exact h.symm.hasKey_left hy hnone

/-- The two sides have the same names as keys. -/
theorem hasKey_eq (h : Sides s a b) (name : String) :
    b.element.hasKey name = a.element.hasKey name := by
  rw [Element.hasKey, Element.hasKey, h.kind]

/-- The keys of the two sides agree and are not compared by what is below them. -/
theorem agrees_key (h : Sides s a b) (hx : x ∈ a.children)
    (hkey : a.element.hasKey x.element.name = true)
    (hy : (b.children.filter fun d => d.identity (s.rule (some a.element.kind)) =
      x.identity (s.rule (some a.element.kind))) = [y]) :
    x.element.alike y.element = true ∧ x.children = [] ∧ y.children = [] ∧
      x.element.kind.isContainer = false := by
  obtain ⟨hxs, hxcontainer⟩ := (all_iff.1 h.keyedA).1.keys x hx hkey
  obtain ⟨d, hd, hxd⟩ := h.exists_key_identity hx hkey
  rw [hy] at hd
  obtain rfl := List.mem_singleton.1 hd
  have hd : d ∈ b.children := List.mem_of_mem_filter (hy ▸ List.mem_singleton.2 rfl)
  refine ⟨hxd, hxs, ((all_iff.1 h.keyedB).1.keys d hd ?_).1, hxcontainer⟩
  rw [Element.hasKey, ← h.kind, ← (Element.alike_iff.1 hxd).1]
  exact hkey

end Sides

end Edit

end Netconf
