import Mathlib.Data.List.Perm.Subperm
import Netconf.Proofs.Tree.Equivalence
import Netconf.Xml.Reading

/-!
# Comparing the other way round

Whether two nodes of one kind are the same node does not depend on the side that is asked, and
neither does it whether nodes that are no containers have changed. Containers are compared through
the children that are no keys (`Entry.others`): their names are to be the same on both sides, and
each child of the first node must be *covered*, which is to have one like it on the second. Nobody
asks whether the children of the second node are covered too. Where no sibling is like another
they are, for then the covers are all of them (`Entry.CoveredBy.symm`). Where siblings are repeated,
one of two comparisons may find a change that the other misses, and `Tree.compare_comm_iff` says
exactly when.
-/

namespace Netconf

namespace Entry

variable {x y : Entry}

/-! ## Children that are no keys -/

/-- The children of a node that are not among its keys. -/
def others (x : Entry) : List Element := x.members.filter fun m => !x.element.hasKey m.name

/-- The two nodes have children of the same names, each name as often on both sides, keys apart. -/
def SameNames (x y : Entry) : Prop := (x.others.map (·.name)).Perm (y.others.map (·.name))

/-- Every child of the first node that is no key has one like it on the second. -/
def CoveredBy (x y : Entry) : Prop := ∀ m ∈ x.others, ∃ n ∈ y.others, m.alike n = true

/-- No child that is no key is like another one. -/
def Unrepeated (x : Entry) : Prop := x.others.Pairwise fun m n => m.alike n = false

/-- The first of two containers that are the same entry is covered by the second one, which is not
covered by the first, although the names of the children are the same. -/
def OneSided (x y : Entry) : Prop :=
  x.element.kind.isContainer = true ∧ x.matchesEntry y = true ∧ x.SameNames y ∧ x.CoveredBy y ∧
    ¬ y.CoveredBy x

instance (x y : Entry) : Decidable (x.SameNames y) := inferInstanceAs (Decidable (List.Perm _ _))

instance (x y : Entry) : Decidable (x.CoveredBy y) :=
  inferInstanceAs (Decidable (∀ m ∈ x.others, ∃ n ∈ y.others, m.alike n = true))

instance (x : Entry) : Decidable x.Unrepeated := inferInstanceAs (Decidable (List.Pairwise _ _))

instance (x y : Entry) : Decidable (x.OneSided y) := inferInstanceAs (Decidable (_ ∧ _))

/-- The children that are no keys, found by name. -/
theorem filter_others (x : Entry) (name : String) : x.others.filter (·.name == name) =
    if x.element.hasKey name then [] else x.membersNamed name := by
  unfold others membersNamed
  rw [List.filter_filter]
  split
  · next hkey =>
    refine List.filter_eq_nil_iff.2 fun m _ hm => ?_
    rw [Bool.and_eq_true, beq_iff_eq] at hm
    rw [hm.1, hkey] at hm
    cases hm.2
  · next hkey =>
    refine List.filter_congr fun m _ => ?_
    by_cases hm : m.name = name
    · simp [hm, hkey]
    · simp [hm]

/-- The names are the same when the children of each name that is no key are as many. -/
theorem sameNames_iff (hkind : x.element.kind = y.element.kind) : x.SameNames y ↔
    ∀ name, x.element.hasKey name = false →
      (x.membersNamed name).length = (y.membersNamed name).length := by
  have hcount : ∀ (z : Entry) (name : String), (z.others.map (·.name)).count name =
      if z.element.hasKey name then 0 else (z.membersNamed name).length := by
    intro z name
    rw [List.count, List.countP_map, List.countP_eq_length_filter]
    refine (congrArg List.length (z.filter_others name)).trans ?_
    split <;> rfl
  have hkey : ∀ name, y.element.hasKey name = x.element.hasKey name := fun name => by
    unfold Element.hasKey
    rw [hkind]
  unfold SameNames
  rw [List.perm_iff_count]
  refine forall_congr' fun name => ?_
  rw [hcount, hcount, hkey]
  cases x.element.hasKey name <;> simp

/-- A node is covered when, of each name that is no key, every child has one like it on the other
side. -/
theorem coveredBy_iff (hkind : x.element.kind = y.element.kind) : x.CoveredBy y ↔
    ∀ name, x.element.hasKey name = false →
      ∀ m ∈ x.membersNamed name, ∃ n ∈ y.membersNamed name, m.alike n = true := by
  have hmem : ∀ (z : Entry) (m : Element), m ∈ z.others ↔
      z.element.hasKey m.name = false ∧ m ∈ z.membersNamed m.name := fun z m => by
    simp [others, membersNamed, and_comm]
  have hkey : ∀ name, y.element.hasKey name = x.element.hasKey name := fun name => by
    unfold Element.hasKey
    rw [hkind]
  constructor
  · intro h name hname m hm
    obtain rfl : m.name = name := by simpa using (List.mem_filter.1 hm).2
    obtain ⟨n, hn, hmn⟩ := h m ((hmem x m).2 ⟨hname, hm⟩)
    exact ⟨n, mem_membersNamed_of_alike (List.mem_filter.1 hn).1 hm hmn, hmn⟩
  · intro h m hm
    obtain ⟨hname, hm⟩ := (hmem x m).1 hm
    obtain ⟨n, hn, hmn⟩ := h m.name hname m hm
    have hsame := (Element.alike_iff.1 hmn).1
    exact ⟨n, (hmem y n).2 ⟨by rw [hkey, ← hsame, hname], hsame ▸ hn⟩, hmn⟩

/-- Containers of one kind compare as equal when they are the same entry, the names of their
children are the same, and the first one is covered by the second. -/
theorem compare_eq_equal_iff_covered (hkind : x.element.kind = y.element.kind)
    (hcontainer : x.element.kind.isContainer = true) : x.compare y = .equal ↔
      x.matchesEntry y = true ∧ x.SameNames y ∧ x.CoveredBy y := by
  cases hk : x.element.kind with
  | container s =>
    have hkeys : ∀ name, name ∉ s.keys ↔ x.element.hasKey name = false := fun name => by
      simp [Element.hasKey, hk, Kind.keys, Kind.schema?]
    rw [compare_eq_equal_iff_of_container hk, sameNames_iff hkind, coveredBy_iff hkind]
    simp only [hkeys, sameMembers_iff, forall_and]
  | leaf => rw [hk] at hcontainer; cases hcontainer
  | plain => rw [hk] at hcontainer; cases hcontainer

/-! ## Covers -/

/-- A child as far as a comparison looks at it. -/
def look (m : Element) : KeyText := (m.ns, m.name, wire? m.value)

/-- Children are alike when they look the same. -/
theorem alike_iff_look {m n : Element} : m.alike n = true ↔ look m = look n := by
  rw [Element.alike_iff, look, look, Prod.mk.injEq, Prod.mk.injEq]
  exact and_left_comm

/-- A node none of whose children is like another one covers all that covers it, when the names of
the children are the same. -/
theorem CoveredBy.symm (h : x.CoveredBy y) (hnames : x.SameNames y) (hx : x.Unrepeated) :
    y.CoveredBy x := by
  have hsubset : x.others.map look ⊆ y.others.map look := by
    intro k hk
    obtain ⟨m, hm, rfl⟩ := List.mem_map.1 hk
    obtain ⟨n, hn, hmn⟩ := h m hm
    exact List.mem_map.2 ⟨n, hn, (alike_iff_look.1 hmn).symm⟩
  have hnodup : (x.others.map look).Nodup := by
    refine List.pairwise_map.2 (hx.imp fun {m n} hmn hlook => ?_)
    rw [alike_iff_look.2 hlook] at hmn
    cases hmn
  -- as many different looks as there are children leave none out
  have hlength : (y.others.map look).length ≤ (x.others.map look).length := by
    have hsame := hnames.length_eq
    simp only [List.length_map] at hsame ⊢
    exact Nat.le_of_eq hsame.symm
  have hperm := (hnodup.subperm hsubset).perm_of_length_le hlength
  intro n hn
  obtain ⟨m, hm, hlook⟩ := List.mem_map.1 (hperm.mem_iff.2 (List.mem_map_of_mem hn))
  exact ⟨m, hm, alike_iff_look.2 hlook.symm⟩

/-! ## Both comparisons -/

/-- Being the same node does not depend on the side, between nodes of one kind. -/
theorem matches_comm (hkind : x.element.kind = y.element.kind) :
    x.matchesEntry y = true ↔ y.matchesEntry x = true :=
  ⟨matches_symm hkind, matches_symm hkind.symm⟩

/-- Comparisons that find the same nodes the same and the equal nodes equal are the same. -/
theorem compare_eq_compare_iff {x' y' : Entry}
    (hmatches : x.matchesEntry y = true ↔ x'.matchesEntry y' = true) :
    x.compare y = x'.compare y' ↔ (x.compare y = .equal ↔ x'.compare y' = .equal) := by
  unfold matchesEntry at hmatches
  cases hc : x.compare y <;> cases hd : x'.compare y' <;> simp [hc, hd] at hmatches ⊢

/-- Both comparisons of two nodes of one kind come out the same, unless one of the nodes is covered
by the other on one side only. -/
theorem compare_comm_iff_oneSided (hkind : x.element.kind = y.element.kind) :
    x.compare y = y.compare x ↔ ¬ x.OneSided y ∧ ¬ y.OneSided x := by
  have hsame := matches_comm hkind
  have hnames : x.SameNames y ↔ y.SameNames x := List.perm_comm
  rw [compare_eq_compare_iff hsame]
  unfold OneSided
  cases hcontainer : x.element.kind.isContainer with
  | true =>
    rw [compare_eq_equal_iff_covered hkind hcontainer,
      compare_eq_equal_iff_covered hkind.symm (hkind ▸ hcontainer), ← hkind, hcontainer, hsame,
      hnames]
    tauto
  | false =>
    rw [compare_eq_equal_iff_of_not_container hcontainer,
      compare_eq_equal_iff_of_not_container (hkind ▸ hcontainer), Element.alike_comm, ← hkind,
      hcontainer]
    simp

end Entry

namespace Tree

variable {ta tb : Tree} {a b : NodeId}

/-- Two nodes of one kind are different nodes from both sides or from none. Both comparisons come
out the same unless one node, a container, is covered by the other on one side only, and that takes
a child which is like one of its siblings. -/
theorem compare_comm_iff (hkind : ta.kind a = tb.kind b) :
    (ta.compare a tb b = .different ↔ tb.compare b ta a = .different) ∧
      (ta.compare a tb b = tb.compare b ta a ↔
        ¬ (ta.entry a).OneSided (tb.entry b) ∧ ¬ (tb.entry b).OneSided (ta.entry a)) ∧
      ((ta.entry a).Unrepeated → (tb.entry b).Unrepeated →
        ta.compare a tb b = tb.compare b ta a) := by
  have hkind' : (ta.entry a).element.kind = (tb.entry b).element.kind := hkind
  have hiff := Entry.compare_comm_iff_oneSided hkind'
  refine ⟨?_, hiff, fun ha hb => hiff.2 ⟨?_, ?_⟩⟩
  · have hsame := Entry.matches_comm hkind'
    unfold Entry.matchesEntry at hsame
    rw [bne_iff_ne, bne_iff_ne] at hsame
    exact not_iff_not.1 hsame
  · rintro ⟨-, -, hnames, hcovered, hnot⟩
    exact hnot (hcovered.symm hnames ha)
  · rintro ⟨-, -, hnames, hcovered, hnot⟩
    exact hnot (hcovered.symm hnames hb)

/-- A document that is a user with some groups. -/
def loneUser (name : String) (groups : List String) : Document :=
  let b := user name groups
  ⟨((Tree.empty (.standard 0)).addCopy
    (.mk 0 (b.element.bind ⟨"", "urn:u"⟩) b.children)).1, 0⟩

/-- A user who is twice in a group is covered by one who is in it and in another, but not the other
way round. Users with the same groups in another order compare as equal from both sides. -/
theorem compare_comm_iff_users :
    let d := loneUser "ann" ["dev", "dev"]
    let e := loneUser "ann" ["dev", "ops"]
    let f := loneUser "ann" ["ops", "dev"]
    d.tree.kind 0 = e.tree.kind 0 ∧ (d.tree.entry 0).OneSided (e.tree.entry 0) ∧
      d.tree.compare 0 e.tree 0 ≠ e.tree.compare 0 d.tree 0 ∧
      e.tree.kind 0 = f.tree.kind 0 ∧ (e.tree.entry 0).Unrepeated ∧ (f.tree.entry 0).Unrepeated ∧
      e.tree.compare 0 f.tree 0 = f.tree.compare 0 e.tree 0 := by
  intro d e f
  have hde : d.tree.kind 0 = e.tree.kind 0 := by decide +kernel
  have hef : e.tree.kind 0 = f.tree.kind 0 := by decide +kernel
  have hsided : (d.tree.entry 0).OneSided (e.tree.entry 0) := by decide +kernel
  have he : (e.tree.entry 0).Unrepeated := by decide +kernel
  have hf : (f.tree.entry 0).Unrepeated := by decide +kernel
  exact ⟨hde, hsided, fun h => ((compare_comm_iff hde).2.1.1 h).1 hsided, hef, he, hf,
    (compare_comm_iff hef).2.2 he hf⟩

/-- Two entries are read that differ in a group. From the side of the one that has a group twice
they compare as equal, and from the other side as changed. -/
theorem compare_not_symm :
    Xml.parse (.standard 0) (some userSchema)
        "<user xmlns=\"urn:u\"><name>ann</name><group>dev</group><group>dev</group></user>" =
          .ok (loneUser "ann" ["dev", "dev"]) ∧
      Xml.parse (.standard 0) (some userSchema)
        "<user xmlns=\"urn:u\"><name>ann</name><group>dev</group><group>ops</group></user>" =
          .ok (loneUser "ann" ["dev", "ops"]) ∧
      (loneUser "ann" ["dev", "dev"]).tree.kind 0 = (loneUser "ann" ["dev", "ops"]).tree.kind 0 ∧
      (loneUser "ann" ["dev", "dev"]).tree.compare 0 (loneUser "ann" ["dev", "ops"]).tree 0 =
        .equal ∧
      (loneUser "ann" ["dev", "ops"]).tree.compare 0 (loneUser "ann" ["dev", "dev"]).tree 0 =
        .changed ∧
      (loneUser "ann" ["dev", "dev"]).tree.compare 0 (loneUser "ann" ["dev", "ops"]).tree 0 ≠
        (loneUser "ann" ["dev", "ops"]).tree.compare 0 (loneUser "ann" ["dev", "dev"]).tree 0 :=
  ⟨rfl, rfl, rfl, by decide +kernel, by decide +kernel, by decide +kernel⟩

end Tree

end Netconf
