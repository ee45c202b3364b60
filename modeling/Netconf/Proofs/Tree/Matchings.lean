import Netconf.Proofs.Tree.Equivalence

/-!
# Classes of nodes and their matching

Among nodes of one family, comparing is comparing identities, and so an equivalence relation
(`Tree.compare_equivalence_of_family`). For a container the identity is told by the name, the
namespace, the value and the first child of each key (`Tree.compare_iff_of_entries`).

A difference matches two lists of siblings greedily: each node of the first list gets the first node
of the second one that is the same and has no partner yet. `Branch.matching` is what comes of it
(`Branch.diffAll_eq_foldr`). Which node gets which is then told without the greedy search: the nodes
of a class are matched in order, the first ones of both lists, the second ones, and so on
(`Branch.matching_of_families`).
-/

namespace Netconf

/-! ## Classes of nodes -/

namespace Entry

variable {x y : Entry}

/-- The identity of a node in its own family. -/
def ownIdentity (x : Entry) : Identity := x.identityIn x.element.kind.family

/-- Where nodes of one name are of one family, being the same node is having the same identity. -/
theorem matches_iff_of_families
    (hfamily : x.element.sameName y.element = true →
      x.element.kind.family = y.element.kind.family) :
    x.matchesEntry y = true ↔ x.ownIdentity = y.ownIdentity := by
  rw [matches_iff_identityIn]
  unfold ownIdentity
  -- either way the names are the same, and so are the families
  have hsame : ∀ {f g : Family}, x.identityIn f = y.identityIn g →
      x.element.kind.family = y.element.kind.family := fun h =>
    hfamily (Element.sameName_iff.2 ⟨congrArg Identity.name h, congrArg Identity.ns h⟩)
  refine ⟨fun h => ?_, fun h => ?_⟩
  · rw [h, hsame h]
  · rw [h, hsame h]

end Entry

namespace Tree

variable {ta tb : Tree} {a b : NodeId}

/-- Nodes are the same when they have the same identity in the family of the first one. -/
theorem compare_iff_identityIn (ta : Tree) (a : NodeId) (tb : Tree) (b : NodeId) :
    ta.compare a tb b ≠ .different ↔
      (ta.entry a).identityIn (ta.kind a).family = (tb.entry b).identityIn (ta.kind a).family :=
  bne_iff_ne.symm.trans (Entry.matches_iff_identityIn (ta.entry a) (tb.entry b))

/-- Being the same node is an equivalence relation on the nodes of a family, in whatever trees. -/
theorem compare_equivalence_of_family (f : Family) :
    Equivalence fun x y : { n : Tree × NodeId // (n.1.kind n.2).family = f } =>
      x.1.1.compare x.1.2 y.1.1 y.1.2 ≠ .different := by
  have hsame : ∀ x y : { n : Tree × NodeId // (n.1.kind n.2).family = f },
      x.1.1.compare x.1.2 y.1.1 y.1.2 ≠ .different ↔
        (x.1.1.entry x.1.2).identityIn f = (y.1.1.entry y.1.2).identityIn f := fun x y => by
    rw [compare_iff_identityIn, x.2]
  refine ⟨fun x => (hsame x x).2 rfl, fun {x y} h => ?_, fun {x y z} h h' => ?_⟩
  · exact (hsame y x).2 ((hsame x y).1 h).symm
  · exact (hsame x z).2 (((hsame x y).1 h).trans ((hsame y z).1 h'))

/-- The same node has the same name and namespace. -/
theorem name_eq_of_compare (h : ta.compare a tb b ≠ .different) :
    ta.name a = tb.name b ∧ ta.ns? a = tb.ns? b :=
  have hidentity := (compare_iff_identityIn ta a tb b).1 h
  ⟨congrArg Identity.name hidentity, congrArg Identity.ns hidentity⟩

/-- Containers are the same node when their names, namespaces and values are the same and the first
child of each key looks the same on both sides, or is missing on both. -/
theorem compare_iff_of_entries {keys : List String} (h : (ta.kind a).family = .entries keys) :
    ta.compare a tb b ≠ .different ↔
      ta.name a = tb.name b ∧ ta.ns? a = tb.ns? b ∧ wire? (ta.value? a) = wire? (tb.value? b) ∧
        ∀ key ∈ keys,
          (ta.child? a key).map (fun c => (ta.ns? c, ta.name c, wire? (ta.value? c))) =
            (tb.child? b key).map fun c => (tb.ns? c, tb.name c, wire? (tb.value? c)) := by
  have hkey : ∀ (t : Tree) (n : NodeId) (key : String), (t.entry n).keyText? key =
      (t.child? n key).map fun c => (t.ns? c, t.name c, wire? (t.value? c)) :=
    fun t n key => Entry.keyText?_of_members (x := t.entry n) rfl key
  rw [compare_iff_identityIn, h]
  simp only [Entry.identityIn, Identity.mk.injEq, Option.some.injEq, Prod.mk.injEq,
    List.map_inj_left, hkey]
  exact and_left_comm

end Tree

/-! ## Matching siblings -/

namespace Branch

variable {a b : Branch} {as bs : List Branch}

/-- How a difference matches two lists of siblings: each node of the first list with its partner if
it has one, and the nodes of the second list that are left over. -/
def matching : List Branch → List Branch → List (Branch × Option Branch) × List Branch
  | [], bs => ([], bs)
  | a :: as, bs =>
    match takeFirst (partner? a) bs with
    | none => ((a, none) :: (matching as bs).1, (matching as bs).2)
    | some (b, _, others) => ((a, some b) :: (matching as others).1, (matching as others).2)

/-- What a difference lists of a node with its partner, or of one without. -/
def diffOf : Branch × Option Branch → Difference
  | (a, none) => { onlyA := [a.id] }
  | (a, some b) =>
    if a.entry.compare b.entry = .changed then { changedA := [a.id], changedB := [b.id] }
    else if a.entry.isComposite || b.entry.isComposite then a.diff b
    else {}

/-- A node without partner. -/
theorem matching_cons_of_none (h : takeFirst (partner? a) bs = none) :
    matching (a :: as) bs = ((a, none) :: (matching as bs).1, (matching as bs).2) := by
  rw [matching, h]

/-- A node with its partner, which no other node gets. -/
theorem matching_cons_of_some {c : Likeness} {others : List Branch}
    (h : takeFirst (partner? a) bs = some (b, c, others)) : matching (a :: as) bs =
      ((a, some b) :: (matching as others).1, (matching as others).2) := by
  rw [matching, h]

/-- Every node of the first list is there, with a partner or without. -/
theorem map_fst_matching (as bs : List Branch) : (matching as bs).1.map Prod.fst = as := by
  induction as generalizing bs with
  | nil => rfl
  | cons a as ih =>
    rcases partner_cases a bs with ⟨h, -⟩ | ⟨pre, b, post, c, -, h, -⟩
    · rw [matching_cons_of_none h, List.map_cons, ih]
    · rw [matching_cons_of_some h, List.map_cons, ih]

/-- Only nodes of the second list are left over. -/
theorem matching_sublist (as bs : List Branch) : (matching as bs).2.Sublist bs := by
  induction as generalizing bs with
  | nil => exact List.Sublist.refl bs
  | cons a as ih =>
    rcases partner_cases a bs with ⟨h, -⟩ | ⟨pre, b, post, c, rfl, h, -⟩
    · rw [matching_cons_of_none h]
      exact ih bs
    · rw [matching_cons_of_some h]
      exact (ih (pre ++ post)).trans ((List.sublist_cons_self b post).append_left pre)

/-- The difference of two lists of siblings is what it lists of each pair, and the nodes that are
left over. -/
theorem diffAll_eq_foldr (as bs : List Branch) :
    diffAll as bs = (matching as bs).1.foldr (fun p d => diffOf p ++ d)
      { onlyB := (matching as bs).2.map id } := by
  induction as generalizing bs with
  | nil => rw [diffAll, matching]; rfl
  | cons a as ih =>
    rw [diffAll]
    rcases partner_cases a bs with ⟨h, -⟩ | ⟨pre, b, post, c, -, h, -, -, hcompare, hc⟩
    · rw [matching_cons_of_none h, h, List.foldr_cons, ← ih]
      rfl
    · rw [matching_cons_of_some h, h, List.foldr_cons, ← ih, diffOf, hcompare]
      rcases hc with rfl | rfl <;> rfl

/-- Where all nodes are the same, they are matched in order. -/
theorem matching_of_matches (h : ∀ a ∈ as, ∀ b ∈ bs, a.entry.matchesEntry b.entry = true) :
    matching as bs = (as.mapIdx fun i a => (a, bs[i]?), bs.drop as.length) := by
  induction as generalizing bs with
  | nil => rfl
  | cons a as ih =>
    cases bs with
    | nil =>
      rw [matching_cons_of_none rfl, ih fun x hx y hy => h x (by simp [hx]) y hy]
      simp [List.mapIdx_cons]
    | cons b bs =>
      have htake : takeFirst (partner? a) (b :: bs) = some (b, a.entry.compare b.entry, bs) := by
        rw [takeFirst, partner?_eq_some.2 ⟨rfl, h a (by simp) b (by simp)⟩]
      rw [matching_cons_of_some htake, ih fun x hx y hy => h x (by simp [hx]) y (by simp [hy])]
      simp [List.mapIdx_cons]

/-- Where partners are of one class, what is matched of a class is the matching of its members. -/
theorem filter_matching {κ : Type} [DecidableEq κ] (cls : Branch → κ)
    (hcls : ∀ a ∈ as, ∀ b ∈ bs, a.entry.matchesEntry b.entry = true → cls b = cls a) (k : κ) :
    ((matching as bs).1.filter fun p => cls p.1 = k, (matching as bs).2.filter fun b => cls b = k) =
      matching (as.filter fun a => cls a = k) (bs.filter fun b => cls b = k) := by
  induction as generalizing bs with
  | nil => rfl
  | cons a as ih =>
    rcases partner_cases a bs with ⟨h, hnone⟩ | ⟨pre, b, post, c, rfl, h, hpre, hmatch, hc, -⟩
    · have ih := ih fun x hx y hy => hcls x (by simp [hx]) y hy
      rw [matching_cons_of_none h]
      by_cases hk : cls a = k
      · have htake : takeFirst (partner? a) (bs.filter fun b => cls b = k) = none :=
          takeFirst_eq_none.2 fun b hb =>
            partner?_eq_none.2 (hnone b (List.mem_of_mem_filter hb))
        rw [List.filter_cons_of_pos (by simpa using hk),
          List.filter_cons_of_pos (by simpa using hk), matching_cons_of_none htake, ← ih]
      · rw [List.filter_cons_of_neg (by simpa using hk),
          List.filter_cons_of_neg (by simpa using hk), ih]
    · have ih := @ih (pre ++ post) fun x hx y hy => hcls x (by simp [hx]) y <| by
        rcases List.mem_append.1 hy with hy | hy <;> simp [hy]
      have hab : cls b = cls a := hcls a (by simp) b (by simp) hmatch
      rw [List.filter_append] at ih
      rw [matching_cons_of_some h, List.filter_append]
      by_cases hk : cls a = k
      · have htake := takeFirst_of_split (pre.filter fun b => decide (cls b = k))
          (post.filter fun b => decide (cls b = k)) (partner?_eq_some.2 ⟨hc, hmatch⟩)
          fun d hd => partner?_eq_none.2 (hpre d (List.mem_of_mem_filter hd))
        rw [List.filter_cons_of_pos (by simpa using hk),
          List.filter_cons_of_pos (by simpa using hk),
          List.filter_cons_of_pos (by simpa [hab] using hk), matching_cons_of_some htake, ← ih]
      · rw [List.filter_cons_of_neg (by simpa using hk),
          List.filter_cons_of_neg (by simpa using hk),
          List.filter_cons_of_neg (by simpa [hab] using hk), ih]

/-- Among siblings where nodes of one name are of one family, the nodes that are the same as a given
one are matched in order: the first ones of both lists, the second ones, and so on. Those behind are
without partner, or left over. -/
theorem matching_of_families {z : Branch}
    (hfamily : ∀ x ∈ z :: (as ++ bs), ∀ y ∈ z :: (as ++ bs),
      x.element.sameName y.element = true → x.element.kind.family = y.element.kind.family) :
    ((matching as bs).1.filter fun p => p.1.entry.compare z.entry ≠ .different) =
        (as.filter fun a => a.entry.compare z.entry ≠ .different).mapIdx
          (fun i a => (a, (bs.filter fun b => b.entry.compare z.entry ≠ .different)[i]?)) ∧
      ((matching as bs).2.filter fun b => b.entry.compare z.entry ≠ .different) =
        (bs.filter fun b => b.entry.compare z.entry ≠ .different).drop
          (as.filter fun a => a.entry.compare z.entry ≠ .different).length := by
  have hiff : ∀ x ∈ z :: (as ++ bs), ∀ y ∈ z :: (as ++ bs),
      x.entry.matchesEntry y.entry = true ↔ x.entry.ownIdentity = y.entry.ownIdentity :=
    fun x hx y hy => Entry.matches_iff_of_families (hfamily x hx y hy)
  -- the nodes that are the same as `z` are those of its identity
  have hz : ∀ x ∈ as ++ bs, decide (x.entry.compare z.entry ≠ .different) =
      decide (x.entry.ownIdentity = z.entry.ownIdentity) := fun x hx =>
    decide_eq_decide.2 (bne_iff_ne.symm.trans (hiff x (by simp [hx]) z (by simp)))
  have hzA := fun a (ha : a ∈ as) => hz a (List.mem_append_left bs ha)
  have hzB := fun b (hb : b ∈ bs) => hz b (List.mem_append_right as hb)
  have hzP := fun p (hp : p ∈ (matching as bs).1) =>
    hzA p.1 (map_fst_matching as bs ▸ List.mem_map_of_mem hp)
  have hzR := fun b (hb : b ∈ (matching as bs).2) => hzB b ((matching_sublist as bs).subset hb)
  rw [List.filter_congr hzP, List.filter_congr hzR, List.filter_congr hzA, List.filter_congr hzB]
  have hclass : ∀ a ∈ as, ∀ b ∈ bs, a.entry.matchesEntry b.entry = true →
      b.entry.ownIdentity = a.entry.ownIdentity := fun a ha b hb h =>
    ((hiff a (by simp [ha]) b (by simp [hb])).1 h).symm
  have hsplit := filter_matching (fun b => b.entry.ownIdentity) hclass z.entry.ownIdentity
  refine Prod.mk.inj (hsplit.trans (matching_of_matches fun a ha b hb => ?_))
  obtain ⟨ha, hak⟩ := List.mem_filter.1 ha
  obtain ⟨hb, hbk⟩ := List.mem_filter.1 hb
  exact (hiff a (by simp [ha]) b (by simp [hb])).2
    ((of_decide_eq_true hak).trans (of_decide_eq_true hbk).symm)

end Branch

open Branch

/-- Being the same node is an equivalence relation on the nodes of a family, in whatever trees; the
same node has the same name and namespace; and for containers it is told by the name, the namespace,
the value and the first child of each key. The difference of two lists of siblings is what it lists
of the nodes as they are matched, and the nodes that are left over. Where nodes of one name are of
one family, the nodes that are the same as a given one are matched in order. -/
theorem Tree.compare_classes :
    (∀ f : Family, Equivalence fun x y : { n : Tree × NodeId // (n.1.kind n.2).family = f } =>
      x.1.1.compare x.1.2 y.1.1 y.1.2 ≠ .different) ∧
    (∀ (ta tb : Tree) (a b : NodeId), ta.compare a tb b ≠ .different →
      ta.name a = tb.name b ∧ ta.ns? a = tb.ns? b) ∧
    (∀ (ta tb : Tree) (a b : NodeId) (keys : List String), (ta.kind a).family = .entries keys →
      (ta.compare a tb b ≠ .different ↔
        ta.name a = tb.name b ∧ ta.ns? a = tb.ns? b ∧ wire? (ta.value? a) = wire? (tb.value? b) ∧
          ∀ key ∈ keys,
            (ta.child? a key).map (fun c => (ta.ns? c, ta.name c, wire? (ta.value? c))) =
              (tb.child? b key).map fun c => (tb.ns? c, tb.name c, wire? (tb.value? c)))) ∧
    ∀ as bs : List Branch,
      diffAll as bs = (matching as bs).1.foldr (fun p d => diffOf p ++ d)
        { onlyB := (matching as bs).2.map Branch.id } ∧
      ∀ z : Branch,
        (∀ x ∈ z :: (as ++ bs), ∀ y ∈ z :: (as ++ bs),
          x.element.sameName y.element = true → x.element.kind.family = y.element.kind.family) →
        ((matching as bs).1.filter fun p => p.1.entry.compare z.entry ≠ .different) =
            (as.filter fun a => a.entry.compare z.entry ≠ .different).mapIdx
              (fun i a => (a, (bs.filter fun b => b.entry.compare z.entry ≠ .different)[i]?)) ∧
          ((matching as bs).2.filter fun b => b.entry.compare z.entry ≠ .different) =
            (bs.filter fun b => b.entry.compare z.entry ≠ .different).drop
              (as.filter fun a => a.entry.compare z.entry ≠ .different).length :=
  ⟨compare_equivalence_of_family, fun _ _ _ _ => name_eq_of_compare,
    fun _ _ _ _ _ => compare_iff_of_entries,
    fun as bs => ⟨diffAll_eq_foldr as bs, fun _ => matching_of_families⟩⟩

/-- In two lists of users a name is there more than once: two users of it are matched in order,
though they differ in their groups, and the third one on the second side is left over. -/
theorem Tree.compare_classes_userLists :
    let d := userList [user "ann" ["dev"], user "bob" [], user "ann" ["web"]]
    let e := userList [user "cat" [], user "ann" ["ops"], user "ann" ["dev"], user "ann" []]
    let as := (d.tree.branch d.root).children
    let bs := (e.tree.branch e.root).children
    let ann := (user "ann" []).entry
    e.tree.compare 3 d.tree 6 ≠ .different ∧ e.tree.name 3 = d.tree.name 6 ∧
      d.tree.compare 6 e.tree 9 ≠ .different ∧
      ((matching as bs).1.filter fun p => p.1.entry.compare ann ≠ .different).map
        (fun p => (p.1.id, p.2.map Branch.id)) = [(1, some 3), (6, some 6)] ∧
      ((matching as bs).2.filter fun b => b.entry.compare ann ≠ .different).map Branch.id =
        [9] := by
  intro d e as bs ann
  obtain ⟨hequiv, hname, hentries, hlists⟩ := compare_classes
  have hkeys : (d.tree.kind 6).family = .entries ["name"] := by decide +kernel
  have hkeys' : (e.tree.kind 3).family = .entries ["name"] := by decide +kernel
  have hsame : d.tree.compare 6 e.tree 3 ≠ .different :=
    (hentries d.tree e.tree 6 3 _ hkeys).2 (by decide +kernel)
  have hback : e.tree.compare 3 d.tree 6 ≠ .different :=
    (hequiv (.entries ["name"])).symm (x := ⟨(d.tree, 6), hkeys⟩) (y := ⟨(e.tree, 3), hkeys'⟩) hsame
  obtain ⟨hpairs, hrest⟩ := (hlists as bs).2 (user "ann" []) (by decide +kernel)
  refine ⟨hback, (hname _ _ _ _ hback).1, (hentries _ _ 6 9 _ hkeys).2 (by decide +kernel), ?_, ?_⟩
  · rw [hpairs]
    decide +kernel
  · rw [hrest]
    decide +kernel

end Netconf
