import Netconf.Edit.Between
import Netconf.Proofs.Tree.Equivalence
import Netconf.Xml.Reading

/-!
# Comparing what agrees

A comparison counts the children of each name, and a difference pairs children in order and then
looks below the pairs. Where a difference lists nothing, the pairs are all of the children, and
partners are alike (`Branch.exists_perm_of_listingsAll`), so that the counts of every name come out
even. Of tops that agree, containers and nodes without schema compare as equal. Two leaves agree
whatever their values are, for a difference does not look at the values of the tops
(`Tree.compare_of_agree`).
-/

namespace Netconf

namespace Entry

variable {x y : Entry} {ys : List Element}

/-- When the children of two nodes are alike, up to their order, those of every name match. -/
theorem sameMembers_of_forall₂ (hperm : ys.Perm y.members)
    (h : List.Forall₂ (fun m n => m.alike n = true) x.members ys) (name : String) :
    sameMembers x y name = true := by
  -- children that are alike have one name, so they are counted together
  have hnamed : List.Forall₂ (fun m n => m.alike n = true) (x.membersNamed name)
      (ys.filter fun m => m.name = name) := by
    refine List.rel_filter (fun m n hmn => ?_) h
    simp [(Element.alike_iff.1 hmn).1]
  have hnamedY : (ys.filter fun m => m.name = name).Perm (y.membersNamed name) :=
    hperm.filter _
  refine sameMembers_iff.2 ⟨hnamed.length_eq.trans hnamedY.length_eq, fun m hm => ?_⟩
  obtain ⟨n, hn, hmn⟩ := exists_left_of_forall₂ hnamed.flip hm
  exact ⟨n, hnamedY.subset hn, hmn⟩

end Entry

namespace Branch

variable {a b : Branch} {as bs : List Branch}

/-- When a difference lists nothing of two lists of branches, each branch of the first one compares
as equal with a partner of its own, and the partners are all of the second one. -/
theorem exists_perm_of_listingsAll (h : listingsAll as bs = {}) :
    ∃ cs, cs.Perm bs ∧ List.Forall₂ (fun a c => a.entry.compare c.entry = .equal) as cs := by
  induction as generalizing bs with
  | nil =>
    rw [listingsAll_nil_left, Listings.mk.injEq, List.map_eq_nil_iff] at h
    rw [h.2.1]
    exact ⟨[], .nil, .nil⟩
  | cons a as ih =>
    rcases partner_cases a bs with ⟨hnone, -⟩ | ⟨pre, b, post, c, rfl, hsome, -, -, hcompare, hc⟩
    · rw [listingsAll_cons_of_none hnone, Listings.append_eq_empty, Listings.mk.injEq] at h
      cases h.1.1
    · rw [listingsAll_cons_of_some hsome, Listings.append_eq_empty] at h
      obtain ⟨hown, hrest⟩ := h
      rcases hc with rfl | rfl
      · rw [listingsOfPair, if_pos rfl, Listings.mk.injEq] at hown
        cases hown.2.2.1
      · obtain ⟨cs, hperm, hall⟩ := ih hrest
        exact ⟨b :: cs, (hperm.cons b).trans List.perm_middle.symm, .cons hcompare hall⟩

/-- Containers that are the same entry compare as equal when a difference lists nothing of them. -/
theorem compare_of_listings_of_container {s : ContainerSchema}
    (hkind : a.element.kind = .container s) (hmatch : a.entry.matchesEntry b.entry = true)
    (h : a.listings b = {}) : a.entry.compare b.entry = .equal := by
  rw [listings_eq] at h
  obtain ⟨cs, hperm, hall⟩ := exists_perm_of_listingsAll h
  have halike : List.Forall₂ (fun m n => m.alike n = true) a.entry.members (cs.map element) :=
    List.forall₂_map_left_iff.2 (List.forall₂_map_right_iff.2
      (hall.imp fun _ _ hequal => alike_of_compare hequal))
  exact (Entry.compare_eq_equal_iff_of_container hkind).2
    ⟨hmatch, fun name _ => Entry.sameMembers_of_forall₂ (hperm.map element) halike name⟩

/-- How the tops of two branches of which a difference lists nothing compare. -/
theorem compare_of_listings (hmatch : a.entry.matchesEntry b.entry = true)
    (h : a.listings b = {}) : a.entry.compare b.entry =
      if a.element.kind = .leaf ∧ sameValue a.element.value b.element.value = false
      then .changed else .equal := by
  have htop : a.entry.element.kind = a.element.kind := rfl
  cases hkind : a.element.kind with
  | container s => simp [compare_of_listings_of_container hkind hmatch h]
  | leaf =>
    have hname : a.entry.element.sameName b.entry.element = true :=
      (Entry.matches_iff_of_leaf hkind).1 hmatch
    unfold Entry.compare
    rw [htop, hkind]
    dsimp only
    rw [hname]
    cases hvalue : sameValue a.element.value b.element.value <;> simp [entry, hvalue]
  | plain =>
    have halike := (Entry.matches_iff_of_plain hkind).1 hmatch
    have hother : a.entry.element.kind.isContainer = false := by
      rw [htop, hkind]
      rfl
    simp [(Entry.compare_eq_equal_iff_of_not_container hother).2 halike]

end Branch

/-! ## Agreement of nodes -/

open Branch

namespace Tree

variable {ta tb : Tree} {a b : NodeId}

/-- Nothing is sent between nodes that agree, and they compare as equal, unless they are leaves with
different values. -/
theorem Forest.compare_of_agree (ha : ta.Forest) (hb : tb.Forest) (h : ta.agree a tb b = true) :
    ta.explicitEdit a tb b = .ok none ∧
      ta.compare a tb b =
        if ta.kind a = .leaf ∧ sameValue (ta.value? a) (tb.value? b) = false
        then .changed else .equal := by
  obtain ⟨hmatch, hnone⟩ := agree_iff.1 h
  constructor
  · have hdiff : ta.diff a tb b = {} := by
      rw [Tree.diff, diff_eq_slots hmatch, hnone]
      rfl
    unfold explicitEdit
    rw [hdiff]
    rfl
  · have hcompare := compare_of_listings hmatch hnone
    rwa [← ha.compare_eq hb, ha.element_branch, hb.element_branch] at hcompare

/-- Lists of users that agree compare as equal. -/
theorem compare_of_agree_userLists :
    let d := userList [user "ann" ["dev", "ops"], user "ann" ["web"], user "bob" []]
    let e := userList [user "bob" [], user "ann" ["dev", "ops"], user "ann" ["web"]]
    d.tree.Forest ∧ e.tree.Forest ∧ d.tree.agree d.root e.tree e.root = true ∧
      d.tree.explicitEdit d.root e.tree e.root = .ok none ∧
      d.tree.compare d.root e.tree e.root = .equal := by
  intro d e
  have hd : d.tree.Forest := (forest_empty _).addCopy _
  have he : e.tree.Forest := (forest_empty _).addCopy _
  have hagree : d.tree.agree d.root e.tree e.root = true := by decide +kernel
  obtain ⟨hedit, hcompare⟩ := hd.compare_of_agree he hagree
  exact ⟨hd, he, hagree, hedit, hcompare.trans (if_neg (by decide +kernel))⟩

/-! ## A single leaf -/

/-- The schema of a name server on its own. -/
def dnsSchema : Schema := ({} : Schema).register ⟨"urn:h", "dns", .leaf⟩

/-- A document that consists of the address of a name server. -/
def dns (address : String) : Document :=
  ⟨((Tree.empty (.standard 0)).addCopy (.mk 0
    { ns := some "urn:h", name := "dns", value := some (.text address), kind := .leaf
      bindings := ⟨[⟨"", "urn:h"⟩]⟩ } [])).1, 0⟩

/-- Two documents that are single leaves are read. They agree and no edit is sent, but they compare
as changed: a difference looks at what is below the tops, and there is nothing. -/
theorem agree_of_changed :
    Xml.parse (.standard 0) (some dnsSchema) "<dns xmlns=\"urn:h\">a</dns>" = .ok (dns "a") ∧
      Xml.parse (.standard 0) (some dnsSchema) "<dns xmlns=\"urn:h\">b</dns>" = .ok (dns "b") ∧
      (dns "a").tree.children 0 = [] ∧ (dns "b").tree.children 0 = [] ∧
      (dns "a").tree.agree 0 (dns "b").tree 0 = true ∧
      (dns "a").tree.explicitEdit 0 (dns "b").tree 0 = .ok none ∧
      (dns "a").tree.compare 0 (dns "b").tree 0 = .changed ∧
      (dns "a").tree.compare 0 (dns "b").tree 0 ≠ .equal :=
  ⟨rfl, rfl, rfl, rfl, by decide +kernel, rfl, by decide +kernel, by decide +kernel⟩

end Tree

end Netconf
