import Mathlib.Data.List.Flatten
import Netconf.Proofs.Tree.Equivalence

/-!
# The pairing behind a difference

A difference pairs nodes of its two sides, and lists those that it cannot pair and those that it
pairs as changed. `Branch.pairsAll` is the same recursion with the pairs that it makes. On each side
the branches of the listed nodes and the paired nodes have no slot in common
(`Branch.Accounts.count_le`), and every child that the difference comes to is either listed or
paired (`Branch.Accounts.total`, `Branch.Accounts.below`). So a difference parts what it looks at on
both sides, without loss and without repetition (`Tree.Forest.diff_parts`).
-/

namespace Netconf

namespace Branch

mutual

/-- The nodes that a difference pairs of two branches whose tops it pairs. -/
def pairs : Branch → Branch → List (Branch × Branch)
  | .mk id e as, b => (.mk id e as, b) :: pairsAll as b.children

/-- The nodes that a difference pairs of the children of two nodes, and below them. -/
def pairsAll : List Branch → List Branch → List (Branch × Branch)
  | [], _ => []
  | a :: as, bs =>
    match takeFirst (partner? a) bs with
    | none => pairsAll as bs
    | some (b, .changed, others) => (a, b) :: pairsAll as others
    | some (b, _, others) =>
      (if a.entry.isComposite || b.entry.isComposite then a.pairs b else [(a, b)])
        ++ pairsAll as others

end

/-- Is a pair listed as changed? -/
def isChanged (p : Branch × Branch) : Bool := p.1.entry.compare p.2.entry = .changed

/-- Does the difference go on below a pair? -/
def goesOn (p : Branch × Branch) : Bool :=
  p.1.entry.compare p.2.entry = .equal && (p.1.entry.isComposite || p.2.entry.isComposite)

/-- What is paired of a node and its partner. -/
def pairsOfPair (a b : Branch) (c : Likeness) : List (Branch × Branch) :=
  if c = .changed then [(a, b)]
  else if a.entry.isComposite || b.entry.isComposite then a.pairs b
  else [(a, b)]

variable {a b : Branch} {as bs : List Branch}

/-- The pairs of two branches are their tops and the pairs of their children. -/
theorem pairs_eq (a b : Branch) : a.pairs b = (a, b) :: pairsAll a.children b.children := by
  cases a
  rw [pairs, children]

/-- A node without partner is in no pair. -/
theorem pairsAll_cons_of_none (h : takeFirst (partner? a) bs = none) :
    pairsAll (a :: as) bs = pairsAll as bs := by
  rw [pairsAll, h]

/-- What is paired of a node and its partner is in front of the others. -/
theorem pairsAll_cons_of_some {c : Likeness} {others : List Branch}
    (h : takeFirst (partner? a) bs = some (b, c, others)) :
    pairsAll (a :: as) bs = pairsOfPair a b c ++ pairsAll as others := by
  rw [pairsAll, h]
  cases c <;> rfl

/-- What is paired is the same node on both sides. -/
theorem matches_of_mem_pairsAll {p : Branch × Branch} (hp : p ∈ pairsAll as bs) :
    p.1.entry.matchesEntry p.2.entry = true := by
  refine (mutualInduction
    (P := fun a => ∀ b : Branch, ∀ p ∈ pairsAll a.children b.children,
      p.1.entry.matchesEntry p.2.entry = true)
    (Q := fun as => ∀ bs, ∀ p ∈ pairsAll as bs, p.1.entry.matchesEntry p.2.entry = true)
    ?_ ?_ ?_).2 as bs p hp
  · intro id e as ih b
    exact ih b.children
  · intro bs p hp
    rw [pairsAll] at hp
    cases hp
  · intro a as iha ihas bs p hp
    rcases partner_cases a bs with ⟨h, -⟩ | ⟨pre, b, post, c, -, h, -, hmatch, -⟩
    · rw [pairsAll_cons_of_none h] at hp
      exact ihas bs p hp
    · rw [pairsAll_cons_of_some h] at hp
      rcases List.mem_append.1 hp with hp | hp
      · unfold pairsOfPair at hp
        split at hp
        · rwa [List.mem_singleton.1 hp]
        · split at hp
          · rw [pairs_eq] at hp
            rcases List.mem_cons.1 hp with rfl | hp
            · exact hmatch
            · exact iha b p hp
          · rwa [List.mem_singleton.1 hp]
      · exact ihas _ p hp

/-! ## One side of a pairing -/

/-- The slots that a pair takes up on the side `f`: the whole branch of a changed entry, of which
nothing else is listed or paired, and otherwise the node alone. -/
def span (f : Branch × Branch → Branch) (p : Branch × Branch) : List NodeId :=
  if isChanged p then (f p).ids else [(f p).id]

/-- The nodes `only` without partner and the pairs `ps` account for the branches `cs` of the side
`f`, when those of the side `g` are `ds`. -/
structure Accounts (f g : Branch × Branch → Branch) (cs ds only : List Branch)
    (ps : List (Branch × Branch)) : Prop where
  /-- No slot is in two listed branches, or in one and in a pair, or in two pairs. -/
  count_le : ∀ i, (idsOfAll only).count i + (ps.flatMap (span f)).count i ≤ (idsOfAll cs).count i
  /-- What holds on all of the side holds of the nodes. -/
  all : ∀ P : Branch → Prop, (∀ c ∈ cs, c.All P) → (∀ c ∈ only, P c) ∧ ∀ p ∈ ps, P (f p)
  /-- Every branch has no partner, or one on the other side. -/
  total : ∀ c ∈ cs, c ∈ only ∨ ∃ p ∈ ps, f p = c ∧ g p ∈ ds
  /-- Where the difference goes on below a pair, every child has no partner, or one among the
  children of the other node. -/
  below : ∀ p ∈ ps, goesOn p = true → ∀ c ∈ (f p).children,
    c ∈ only ∨ ∃ q ∈ ps, f q = c ∧ g q ∈ (g p).children

namespace Accounts

variable {f g : Branch × Branch → Branch} {cs ds cs' ds' only only' : List Branch}
  {ps ps' : List (Branch × Branch)} {p : Branch × Branch}

/-- Nothing is paired. -/
theorem unpaired (f g : Branch × Branch → Branch) (cs ds : List Branch) :
    Accounts f g cs ds cs [] where
  count_le i := by simp
  all P h := ⟨fun c hc => (all_iff.1 (h c hc)).1, fun _ hp => nomatch hp⟩
  total c hc := .inl hc
  below _ hp := nomatch hp

/-- Two parts of a side, one behind the other. -/
theorem append (h : Accounts f g cs ds only ps) (h' : Accounts f g cs' ds' only' ps') :
    Accounts f g (cs ++ cs') (ds ++ ds') (only ++ only') (ps ++ ps') where
  count_le i := by
    have hc := h.count_le i
    have hc' := h'.count_le i
    simp only [idsOfAll_eq_flatMap, List.flatMap_append, List.count_append] at hc hc' ⊢
    omega
  all P hP := by
    obtain ⟨honly, hps⟩ := h.all P fun c hc => hP c (List.mem_append_left _ hc)
    obtain ⟨honly', hps'⟩ := h'.all P fun c hc => hP c (List.mem_append_right _ hc)
    exact ⟨fun c hc => (List.mem_append.1 hc).elim (honly c) (honly' c),
      fun p hp => (List.mem_append.1 hp).elim (hps p) (hps' p)⟩
  total c hc := by
    rcases List.mem_append.1 hc with hc | hc
    · rcases h.total c hc with hc | ⟨p, hp, hpc, hd⟩
      · exact .inl (List.mem_append_left _ hc)
      · exact .inr ⟨p, List.mem_append_left _ hp, hpc, List.mem_append_left _ hd⟩
    · rcases h'.total c hc with hc | ⟨p, hp, hpc, hd⟩
      · exact .inl (List.mem_append_right _ hc)
      · exact .inr ⟨p, List.mem_append_right _ hp, hpc, List.mem_append_right _ hd⟩
  below p hp hon c hc := by
    rcases List.mem_append.1 hp with hp | hp
    · rcases h.below p hp hon c hc with hc | ⟨q, hq, hqc, hd⟩
      · exact .inl (List.mem_append_left _ hc)
      · exact .inr ⟨q, List.mem_append_left _ hq, hqc, hd⟩
    · rcases h'.below p hp hon c hc with hc | ⟨q, hq, hqc, hd⟩
      · exact .inl (List.mem_append_right _ hc)
      · exact .inr ⟨q, List.mem_append_right _ hq, hqc, hd⟩

/-- The order of the branches on the two sides does not matter. -/
theorem perm (h : Accounts f g cs ds only ps) (hcs : cs.Perm cs') (hds : ds.Perm ds') :
    Accounts f g cs' ds' only ps where
  count_le i := by
    have hids : (idsOfAll cs).Perm (idsOfAll cs') := by
      rw [idsOfAll_eq_flatMap, idsOfAll_eq_flatMap]
      exact hcs.flatMap_right ids
    rw [← hids.count_eq]
    exact h.count_le i
  all P hP := h.all P fun c hc => hP c (hcs.subset hc)
  total c hc := by
    rcases h.total c (hcs.symm.subset hc) with hc | ⟨p, hp, hpc, hd⟩
    · exact .inl hc
    · exact .inr ⟨p, hp, hpc, hds.subset hd⟩
  below := h.below

/-- A pair below which nothing more is listed or paired. -/
theorem single (hon : goesOn p = false) : Accounts f g [f p] [g p] [] [p] where
  count_le i := by
    simp only [idsOfAll, List.append_nil, List.flatMap_singleton, List.count_nil, Nat.zero_add]
    unfold span
    split
    · exact Nat.le_refl _
    · rw [ids_eq]
      simp only [List.count_cons, List.count_nil]
      omega
  all P hP := by
    refine ⟨fun _ hc => absurd hc List.not_mem_nil, fun q hq => ?_⟩
    rw [List.mem_singleton.1 hq]
    exact (all_iff.1 (hP (f p) (by simp))).1
  total c hc := .inr ⟨p, by simp, (List.mem_singleton.1 hc).symm, by simp⟩
  below q hq hqon := by
    rw [List.mem_singleton.1 hq, hon] at hqon
    cases hqon

/-- A pair with what is listed and paired below it. -/
theorem enclosed (h : Accounts f g (f p).children (g p).children only ps)
    (hchanged : isChanged p = false) : Accounts f g [f p] [g p] only (p :: ps) where
  count_le i := by
    have hc := h.count_le i
    have hspan : span f p = [(f p).id] := by
      unfold span
      rw [hchanged]
      rfl
    rw [idsOfAll, idsOfAll, List.append_nil, List.flatMap_cons, hspan, ids_eq, List.count_append,
      List.count_singleton, List.count_cons]
    omega
  all P hP := by
    obtain ⟨htop, hbelow⟩ := all_iff.1 (hP (f p) (by simp))
    obtain ⟨honly, hps⟩ := h.all P hbelow
    refine ⟨honly, fun q hq => ?_⟩
    rcases List.mem_cons.1 hq with rfl | hq
    · exact htop
    · exact hps q hq
  total c hc := .inr ⟨p, by simp, (List.mem_singleton.1 hc).symm, by simp⟩
  below q hq hon c hc := by
    have hin : c ∈ only ∨ ∃ r ∈ ps, f r = c ∧ g r ∈ (g q).children := by
      rcases List.mem_cons.1 hq with rfl | hq
      · exact h.total c hc
      · exact h.below q hq hon c hc
    rcases hin with hc | ⟨r, hr, hrc⟩
    · exact .inl hc
    · exact .inr ⟨r, List.mem_cons_of_mem _ hr, hrc⟩

end Accounts

/-- The listed nodes and the pairs part the branches of both sides. -/
structure Parts (as bs : List Branch) (x : Listings) (ps : List (Branch × Branch)) : Prop where
  /-- The first side is accounted for. -/
  left : Accounts Prod.fst Prod.snd as bs (x.onlyA.map Listed.node) ps
  /-- So is the second one. -/
  right : Accounts Prod.snd Prod.fst bs as (x.onlyB.map Listed.node) ps
  /-- The changed entries are the pairs that compare as changed, in order. -/
  changedA : x.changedA.map Listed.node = (ps.filter isChanged).map Prod.fst
  /-- So are their partners. -/
  changedB : x.changedB.map Listed.node = (ps.filter isChanged).map Prod.snd

namespace Parts

variable {as' bs' : List Branch} {x x' : Listings} {ps ps' : List (Branch × Branch)}

/-- Nothing is paired. -/
theorem strangers (as bs : List Branch) :
    Parts as bs { onlyA := as.map fun a => ⟨[], a⟩, onlyB := bs.map fun b => ⟨[], b⟩ } [] where
  left := by simpa [Function.comp_def] using Accounts.unpaired Prod.fst Prod.snd as bs
  right := by simpa [Function.comp_def] using Accounts.unpaired Prod.snd Prod.fst bs as
  changedA := rfl
  changedB := rfl

/-- One part behind the other. -/
theorem append (h : Parts as bs x ps) (h' : Parts as' bs' x' ps') :
    Parts (as ++ as') (bs ++ bs') (x ++ x') (ps ++ ps') where
  left := by
    rw [Listings.append_def, List.map_append]
    exact h.left.append h'.left
  right := by
    rw [Listings.append_def, List.map_append]
    exact h.right.append h'.right
  changedA := by
    rw [Listings.append_def, List.map_append, h.changedA, h'.changedA, List.filter_append,
      List.map_append]
  changedB := by
    rw [Listings.append_def, List.map_append, h.changedB, h'.changedB, List.filter_append,
      List.map_append]

/-- The order of the second side does not matter. -/
theorem perm (h : Parts as bs x ps) (hbs : bs.Perm bs') : Parts as bs' x ps :=
  { h with
    left := h.left.perm (List.Perm.refl _) hbs
    right := h.right.perm hbs (List.Perm.refl _) }

/-- What is listed and paired of a node and its partner. -/
theorem ofPair {c : Likeness} (hcompare : a.entry.compare b.entry = c)
    (hc : c = .changed ∨ c = .equal)
    (h : Parts a.children b.children (a.listings b) (pairsAll a.children b.children)) :
    Parts [a] [b] (listingsOfPair a b c) (pairsOfPair a b c) := by
  rcases hc with rfl | rfl
  · have hon : goesOn (a, b) = false := by simp [goesOn, hcompare]
    have hchanged : isChanged (a, b) = true := by simp [isChanged, hcompare]
    exact
      { left := .single hon
        right := .single hon
        changedA := by simp [listingsOfPair, pairsOfPair, hchanged]
        changedB := by simp [listingsOfPair, pairsOfPair, hchanged] }
  · have hchanged : isChanged (a, b) = false := by simp [isChanged, hcompare]
    simp only [listingsOfPair, pairsOfPair, reduceCtorEq, if_false]
    split
    · rw [pairs_eq]
      exact
        { left := .enclosed (by
            simpa [Listings.below, Function.comp_def, Listed.below] using h.left) hchanged
          right := .enclosed (by
            simpa [Listings.below, Function.comp_def, Listed.below] using h.right) hchanged
          changedA := by
            simpa [Listings.below, Function.comp_def, Listed.below, hchanged] using h.changedA
          changedB := by
            simpa [Listings.below, Function.comp_def, Listed.below, hchanged] using h.changedB }
    · next hcomp =>
      have hon : goesOn (a, b) = false := by simp [goesOn, hcomp]
      exact
        { left := .single hon
          right := .single hon
          changedA := by simp [hchanged]
          changedB := by simp [hchanged] }

/-- The slots of the changed entries. -/
theorem slots_changedA (h : Parts as bs x ps) :
    x.slots.changedA = (ps.filter isChanged).map fun p => p.1.id := by
  simpa [Listings.slots, Function.comp_def] using congrArg (List.map id) h.changedA

/-- The slots of their partners. -/
theorem slots_changedB (h : Parts as bs x ps) :
    x.slots.changedB = (ps.filter isChanged).map fun p => p.2.id := by
  simpa [Listings.slots, Function.comp_def] using congrArg (List.map id) h.changedB

end Parts

/-- A difference and the pairs that it makes part both sides. -/
theorem parts_listingsAll (as bs : List Branch) :
    Parts as bs (listingsAll as bs) (pairsAll as bs) := by
  refine (mutualInduction
    (P := fun a => ∀ b : Branch,
      Parts a.children b.children (a.listings b) (pairsAll a.children b.children))
    (Q := fun as => ∀ bs, Parts as bs (listingsAll as bs) (pairsAll as bs)) ?_ ?_ ?_).2 as bs
  · intro id e as ih b
    rw [listings_eq]
    exact ih b.children
  · intro bs
    rw [listingsAll_nil_left, pairsAll]
    exact .strangers [] bs
  · intro a as iha ihas bs
    rcases partner_cases a bs with ⟨h, -⟩ | ⟨pre, b, post, c, rfl, h, -, -, hcompare, hc⟩
    · rw [listingsAll_cons_of_none h, pairsAll_cons_of_none h]
      exact (Parts.strangers [a] []).append (ihas bs)
    · rw [listingsAll_cons_of_some h, pairsAll_cons_of_some h]
      have hback : (b :: (pre ++ post)).Perm (pre ++ b :: post) := List.perm_middle.symm
      exact ((Parts.ofPair hcompare hc (iha b)).append (ihas (pre ++ post))).perm hback

end Branch

/-! ## The parts of a difference -/

open Branch

namespace Tree

variable {t u ta tb : Tree}

/-- Nodes below one, of which none is there twice and none is above another. -/
structure Scattered (t : Tree) (top : NodeId) (xs : List NodeId) : Prop where
  /-- They are below `top`. -/
  below : ∀ x ∈ xs, t.Above top x
  /-- Two of them have nothing below them in common. -/
  apart : xs.Pairwise fun x y => ¬ t.Above x y ∧ ¬ t.Above y x

/-- A pairing of nodes below `a` with nodes below `b` that stands behind the difference `d`. -/
structure Pairing (ta : Tree) (a : NodeId) (tb : Tree) (b : NodeId) (d : Difference)
    (pairs : List (NodeId × NodeId)) : Prop where
  /-- The two tops are paired. -/
  top : (a, b) ∈ pairs
  /-- No node of the first side is paired twice. -/
  left : (pairs.map Prod.fst).Nodup
  /-- No node of the second side is paired twice. -/
  right : (pairs.map Prod.snd).Nodup
  /-- Paired nodes are below the tops and have one name. -/
  pair : ∀ p ∈ pairs, ta.Above a p.1 ∧ tb.Above b p.2 ∧
    (ta.element p.1).sameName (tb.element p.2) = true
  /-- Below the tops, and below equal pairs of which one has something below it that is compared,
  each child is either listed as without partner or paired with a child of the other node. -/
  children : ∀ p ∈ pairs, p = (a, b) ∨ ta.compare p.1 tb p.2 = .equal ∧
      ((ta.entry p.1).isComposite || (tb.entry p.2).isComposite) = true →
    (∀ c ∈ ta.children p.1, c ∈ d.onlyA ↔ ¬ ∃ c' ∈ tb.children p.2, (c, c') ∈ pairs) ∧
      ∀ c ∈ tb.children p.2, c ∈ d.onlyB ↔ ¬ ∃ c' ∈ ta.children p.1, (c', c) ∈ pairs
  /-- Of the pairs below the tops, those that compare as changed are listed, and no others. -/
  changed : ∀ p ∈ pairs, p ≠ (a, b) →
    (p ∈ d.changedA.zip d.changedB ↔ ta.compare p.1 tb p.2 = .changed)

/-- The nodes of a branch are those of the tree at their slots. -/
theorem Forest.all_branch (h : t.Forest) (top : Nat) :
    (t.branch top).All fun b => b = t.branch b.id ∧ t.Above top b.id := by
  have hall : ∀ id : Nat, t.Above top id →
      (t.branch id).All fun b => b = t.branch b.id ∧ t.Above top b.id := by
    intro id
    induction id using h.down_induction with
    | step id ih =>
      intro habove
      refine all_iff.2 ⟨by rw [id_branch]; exact ⟨rfl, habove⟩, fun b hb => ?_⟩
      rw [h.branch_eq, Branch.children] at hb
      obtain ⟨c, hc, rfl⟩ := List.mem_map.1 hb
      exact ih c hc (habove.trans (.step (h.mem_children_iff.1 hc) .refl))
  exact hall top .refl

/-- The children of a node head the branches below its own. -/
theorem Forest.mem_children_branch (h : t.Forest) {x : Nat} {b : Branch}
    (hb : b = t.branch b.id) : b ∈ (t.branch x).children ↔ b.id ∈ t.children x := by
  rw [h.branch_eq x, Branch.children, List.mem_map]
  constructor
  · rintro ⟨c, hc, hcb⟩
    rwa [← hcb, id_branch]
  · intro hc
    exact ⟨b.id, hc, hb.symm⟩

/-- A node alone is scattered. -/
theorem scattered_singleton (t : Tree) (x : NodeId) : t.Scattered x [x] where
  below y hy := by
    rw [List.mem_singleton.1 hy]
    exact .refl
  apart := List.pairwise_singleton _ _

section Side

variable {f g : Branch × Branch → Branch} {a b : Nat} {ds only : List Branch}
  {ps : List (Branch × Branch)}

/-- What is accounted for below a node is there in the tree. -/
theorem Forest.of_accounts (h : t.Forest)
    (hacc : Accounts f g (t.branch a).children ds only ps) :
    (∀ c ∈ only, c = t.branch c.id ∧ t.Above a c.id) ∧
      ∀ p ∈ ps, f p = t.branch (f p).id ∧ t.Above a (f p).id :=
  hacc.all _ (all_iff.1 (h.all_branch a)).2

/-- No slot is accounted for twice, and the top is not accounted for. -/
theorem Forest.nodup_of_accounts (h : t.Forest)
    (hacc : Accounts f g (t.branch a).children ds only ps) :
    (a :: (only.flatMap ids ++ ps.flatMap (span f))).Nodup := by
  have htop := h.nodup_ids_branch a
  rw [ids_eq, id_branch] at htop
  rw [List.nodup_iff_count_le_one] at htop ⊢
  intro i
  have hle := hacc.count_le i
  have hone := htop i
  simp only [idsOfAll_eq_flatMap, List.count_cons, List.count_append] at hle hone ⊢
  omega

/-- The listed nodes of a side are scattered. -/
theorem Forest.scattered (h : t.Forest)
    (hacc : Accounts f g (t.branch a).children ds only ps) :
    t.Scattered a
      (only.map Branch.id ++ (ps.filter isChanged).map fun p => (f p).id) := by
  obtain ⟨honly, hps⟩ := h.of_accounts hacc
  have hmap : (only.map Branch.id ++ (ps.filter isChanged).map fun p => (f p).id) =
      (only ++ (ps.filter isChanged).map f).map Branch.id := by
    rw [List.map_append, List.map_map]
    rfl
  rw [hmap]
  have hnode : ∀ x ∈ only ++ (ps.filter isChanged).map f,
      x = t.branch x.id ∧ t.Above a x.id := by
    intro x hx
    rcases List.mem_append.1 hx with hx | hx
    · exact honly x hx
    · obtain ⟨p, hp, rfl⟩ := List.mem_map.1 hx
      exact hps p (List.mem_of_mem_filter hp)
  -- the branches of changed nodes are among what is accounted for
  have hspan : ((ps.filter isChanged).map f).flatMap ids =
      (ps.filter isChanged).flatMap (span f) := by
    rw [List.flatMap_map]
    refine List.flatMap_congr fun p hp => ?_
    unfold span
    rw [if_pos (List.mem_filter.1 hp).2]
  have hnd : ((only ++ (ps.filter isChanged).map f).flatMap ids).Nodup := by
    rw [List.flatMap_append, hspan]
    refine (List.nodup_cons.1 (h.nodup_of_accounts hacc)).2.sublist ?_
    exact (List.Sublist.refl _).append (List.filter_sublist.flatMap _)
  refine ⟨fun x hx => ?_, List.pairwise_map.2 ?_⟩
  · obtain ⟨y, hy, rfl⟩ := List.mem_map.1 hx
    exact (hnode y hy).2
  · refine (List.nodup_flatMap.1 hnd).2.imp_of_mem fun {x y} hx hy hdisjoint => ?_
    have hdisjoint : List.Disjoint x.ids y.ids := hdisjoint
    rw [(hnode x hx).1, (hnode y hy).1, List.disjoint_left] at hdisjoint
    have hx' : x.id ∈ (t.branch x.id).ids := h.mem_ids_branch.2 .refl
    have hy' : y.id ∈ (t.branch y.id).ids := h.mem_ids_branch.2 .refl
    exact ⟨fun hxy => hdisjoint (h.mem_ids_branch.2 hxy) hy',
      fun hyx => hdisjoint hx' (h.mem_ids_branch.2 hyx)⟩

/-- The slots of the paired nodes of a side and its top. -/
theorem Forest.nodup_tops (h : t.Forest)
    (hacc : Accounts f g (t.branch a).children ds only ps) :
    (a :: ps.map fun p => (f p).id).Nodup ∧
      ∀ c ∈ only.map Branch.id, c ∉ a :: ps.map fun p => (f p).id := by
  obtain ⟨honly, hps⟩ := h.of_accounts hacc
  obtain ⟨htop, hnd⟩ := List.nodup_cons.1 (h.nodup_of_accounts hacc)
  obtain ⟨-, hndPairs, hdisjoint⟩ := List.nodup_append.1 hnd
  have hown : ∀ p, (f p).id ∈ span f p := by
    intro p
    unfold span
    split
    · rw [ids_eq]
      exact List.mem_cons_self
    · exact List.mem_cons_self
  have hspan : ∀ p ∈ ps, (f p).id ∈ ps.flatMap (span f) :=
    fun p hp => List.mem_flatMap.2 ⟨p, hp, hown p⟩
  have hids : ∀ c ∈ only, c.id ∈ only.flatMap ids := fun c hc =>
    List.mem_flatMap.2 ⟨c, hc, by rw [ids_eq]; exact List.mem_cons_self⟩
  refine ⟨List.nodup_cons.2 ⟨fun hmem => ?_, ?_⟩, fun c hc hmem => ?_⟩
  · obtain ⟨p, hp, hpa⟩ := List.mem_map.1 hmem
    exact htop (List.mem_append_right _ (hpa ▸ hspan p hp))
  · refine List.pairwise_map.2 ((List.nodup_flatMap.1 hndPairs).2.imp fun {p q} hpq heq => ?_)
    exact List.disjoint_left.1 hpq (hown p) (heq ▸ hown q)
  · obtain ⟨d, hd, rfl⟩ := List.mem_map.1 hc
    rcases List.mem_cons.1 hmem with heq | hmem
    · exact htop (List.mem_append_left _ (heq ▸ hids d hd))
    · obtain ⟨p, hp, hpd⟩ := List.mem_map.1 hmem
      exact hdisjoint _ (hids d hd) _ (hspan p hp) hpd.symm

/-- Of the children of a node, those are listed that have no partner. -/
theorem Forest.listed_iff (h : t.Forest) (hu : u.Forest)
    (hacc : Accounts f g (t.branch a).children ds only ps)
    (hg : ∀ p ∈ ps, g p = u.branch (g p).id) {x y : Nat}
    (htotal : ∀ c ∈ (t.branch x).children,
      c ∈ only ∨ ∃ p ∈ ps, f p = c ∧ g p ∈ (u.branch y).children) {c : Nat}
    (hc : c ∈ t.children x) : c ∈ only.map Branch.id ↔
      ¬ ∃ c' ∈ u.children y, (c, c') ∈ (a, b) :: ps.map fun p => ((f p).id, (g p).id) := by
  have hid : (t.branch c).id = c := id_branch t c
  constructor
  · rintro hlisted ⟨c', -, hpair⟩
    refine (h.nodup_tops hacc).2 c hlisted ?_
    rcases List.mem_cons.1 hpair with heq | hpair
    · exact List.mem_cons.2 (.inl (congrArg Prod.fst heq))
    · obtain ⟨p, hp, heq⟩ := List.mem_map.1 hpair
      exact List.mem_cons_of_mem _ (List.mem_map.2 ⟨p, hp, congrArg Prod.fst heq⟩)
  · intro hnone
    have hchild : t.branch c ∈ (t.branch x).children :=
      (h.mem_children_branch (by rw [hid])).2 (hid.symm ▸ hc)
    rcases htotal _ hchild with hlisted | ⟨p, hp, hpc, hpartner⟩
    · exact List.mem_map.2 ⟨_, hlisted, hid⟩
    · refine absurd ⟨(g p).id, (hu.mem_children_branch (hg p hp)).1 hpartner, ?_⟩ hnone
      exact List.mem_cons_of_mem _ (List.mem_map.2 ⟨p, hp, by rw [hpc, hid]⟩)

end Side

section BothSides

variable {l : Listings} {ps : List (Branch × Branch)} {a b : Nat} {q : Branch × Branch}

/-- The nodes of a pair are those of the trees at their slots, and below the tops. -/
theorem Forest.pair_eq (ha : ta.Forest) (hb : tb.Forest)
    (hparts : Parts (ta.branch a).children (tb.branch b).children l ps) (hq : q ∈ ps) :
    q = (ta.branch q.1.id, tb.branch q.2.id) ∧ ta.Above a q.1.id ∧ tb.Above b q.2.id := by
  obtain ⟨hleft, haboveA⟩ := (ha.of_accounts hparts.left).2 q hq
  obtain ⟨hright, haboveB⟩ := (hb.of_accounts hparts.right).2 q hq
  exact ⟨Prod.ext hleft hright, haboveA, haboveB⟩

/-- A pair compares as changed just when the nodes do. -/
theorem Forest.isChanged_iff (ha : ta.Forest) (hb : tb.Forest)
    (hparts : Parts (ta.branch a).children (tb.branch b).children l ps) (hq : q ∈ ps) :
    isChanged q = true ↔ ta.compare q.1.id tb q.2.id = .changed := by
  rw [ha.compare_eq hb, ← ((ha.of_accounts hparts.left).2 q hq).1,
    ← ((hb.of_accounts hparts.right).2 q hq).1, isChanged, decide_eq_true_eq]

/-- A pair is listed as changed just when it is. -/
theorem Forest.mem_changed_iff (ha : ta.Forest) (hb : tb.Forest)
    (hparts : Parts (ta.branch a).children (tb.branch b).children l ps) (hq : q ∈ ps) :
    (q.1.id, q.2.id) ∈ l.slots.changedA.zip l.slots.changedB ↔
      ta.compare q.1.id tb q.2.id = .changed := by
  rw [hparts.slots_changedA, hparts.slots_changedB, List.zip_map', ← ha.isChanged_iff hb hparts hq]
  refine ⟨fun hmem => ?_, fun h => List.mem_map.2 ⟨q, List.mem_filter.2 ⟨hq, h⟩, rfl⟩⟩
  obtain ⟨r, hr, hrq⟩ := List.mem_map.1 hmem
  obtain ⟨hr, hchanged⟩ := List.mem_filter.1 hr
  obtain ⟨h1, h2⟩ := Prod.mk.inj hrq
  rwa [(ha.pair_eq hb hparts hq).1, ← h1, ← h2, ← (ha.pair_eq hb hparts hr).1]

/-- Of the children of two nodes that are accounted for, those are listed that have no partner. -/
theorem Forest.listed_iff_both (ha : ta.Forest) (hb : tb.Forest)
    (hparts : Parts (ta.branch a).children (tb.branch b).children l ps) {x y : Nat}
    (hA : ∀ c ∈ (ta.branch x).children, c ∈ l.onlyA.map Listed.node ∨
      ∃ q ∈ ps, q.1 = c ∧ q.2 ∈ (tb.branch y).children)
    (hB : ∀ c ∈ (tb.branch y).children, c ∈ l.onlyB.map Listed.node ∨
      ∃ q ∈ ps, q.2 = c ∧ q.1 ∈ (ta.branch x).children) :
    (∀ c ∈ ta.children x, c ∈ l.slots.onlyA ↔ ¬ ∃ c' ∈ tb.children y,
      (c, c') ∈ (a, b) :: ps.map fun p => (p.1.id, p.2.id)) ∧
    ∀ c ∈ tb.children y, c ∈ l.slots.onlyB ↔ ¬ ∃ c' ∈ ta.children x,
      (c', c) ∈ (a, b) :: ps.map fun p => (p.1.id, p.2.id) := by
  have hpair := fun q hq => (ha.pair_eq hb hparts (q := q) hq).1
  refine ⟨fun c hc => ?_, fun c hc => ?_⟩
  · have h := ha.listed_iff (b := b) hb hparts.left
      (fun q hq => congrArg Prod.snd (hpair q hq)) hA hc
    rwa [List.map_map] at h
  · have h := hb.listed_iff (b := a) ha hparts.right
      (fun q hq => congrArg Prod.fst (hpair q hq)) hB hc
    rw [List.map_map] at h
    -- the same pairs, written the other way round
    have hswap : ∀ c' : NodeId, (c, c') ∈ (b, a) :: ps.map (fun p => (p.2.id, p.1.id)) ↔
        (c', c) ∈ (a, b) :: ps.map fun p => (p.1.id, p.2.id) := fun c' => by
      simp [and_comm]
    simp only [hswap] at h
    exact h

end BothSides

/-- The pairs of the recursion are a pairing that stands behind the difference. -/
theorem Forest.pairing (ha : ta.Forest) (hb : tb.Forest) {a b : Nat}
    (hmatch : (ta.branch a).entry.matchesEntry (tb.branch b).entry = true) :
    ta.Pairing a tb b (ta.diff a tb b) ((a, b) ::
      (pairsAll (ta.branch a).children (tb.branch b).children).map fun p => (p.1.id, p.2.id)) := by
  have hparts := parts_listingsAll (ta.branch a).children (tb.branch b).children
  have hsame : ∀ p ∈ pairsAll (ta.branch a).children (tb.branch b).children,
      p.1.entry.matchesEntry p.2.entry = true := fun p => matches_of_mem_pairsAll
  rw [Tree.diff, diff_eq_slots hmatch, listings_eq]
  generalize listingsAll (ta.branch a).children (tb.branch b).children = l at *
  generalize pairsAll (ta.branch a).children (tb.branch b).children = ps at *
  have hname : ∀ x y : Nat, (ta.branch x).entry.matchesEntry (tb.branch y).entry = true →
      (ta.element x).sameName (tb.element y) = true := fun x y h => by
    rw [ha.entry_branch, hb.entry_branch] at h
    exact Entry.sameName_of_matches h
  refine
    { top := List.mem_cons_self
      left := by simpa [Function.comp_def] using (ha.nodup_tops hparts.left).1
      right := by simpa [Function.comp_def] using (hb.nodup_tops hparts.right).1
      pair := fun p hp => ?_
      children := fun p hp hon => ?_
      changed := fun p hp hne => ?_ }
  · rcases List.mem_cons.1 hp with rfl | hp
    · exact ⟨.refl, .refl, hname _ _ hmatch⟩
    · obtain ⟨q, hq, rfl⟩ := List.mem_map.1 hp
      obtain ⟨heq, haboveA, haboveB⟩ := ha.pair_eq hb hparts hq
      have hmatch := hsame q hq
      rw [heq] at hmatch
      exact ⟨haboveA, haboveB, hname _ _ hmatch⟩
  · rcases eq_or_ne p (a, b) with rfl | hne
    · exact ha.listed_iff_both hb hparts hparts.left.total hparts.right.total
    · obtain ⟨q, hq, rfl⟩ := List.mem_map.1 ((List.mem_cons.1 hp).resolve_left hne)
      have heq := (ha.pair_eq hb hparts hq).1
      have hon' : goesOn q = true := by
        rw [goesOn, heq]
        rw [ha.compare_eq hb, ← ha.entry_branch, ← hb.entry_branch] at hon
        simpa using hon.resolve_left hne
      have hA := hparts.left.below q hq hon'
      have hB := hparts.right.below q hq hon'
      rw [heq] at hA hB
      exact ha.listed_iff_both hb hparts hA hB
  · obtain ⟨q, hq, rfl⟩ := List.mem_map.1 ((List.mem_cons.1 hp).resolve_left hne)
    exact ha.mem_changed_iff hb hparts hq

/-- A difference parts what it comes to on both sides: no listed node is there twice or above
another one, changed entries are listed next to their partners, and what is not listed of the
children that the difference comes to is paired. -/
theorem Forest.diff_parts (ha : ta.Forest) (hb : tb.Forest) (a b : Nat) :
    let d := ta.diff a tb b
    ta.Scattered a (d.onlyA ++ d.changedA) ∧ tb.Scattered b (d.onlyB ++ d.changedB) ∧
      List.Forall₂ (fun x y => ta.compare x tb y = .changed) d.changedA d.changedB ∧
      (ta.compare a tb b = .different → d = { onlyA := [a], onlyB := [b] }) ∧
      (ta.compare a tb b ≠ .different → ∃ pairs, ta.Pairing a tb b d pairs) := by
  intro d
  by_cases hmatch : (ta.branch a).entry.matchesEntry (tb.branch b).entry = true
  · have hsame : ta.compare a tb b ≠ .different := by
      rw [ha.compare_eq hb]
      exact bne_iff_ne.1 hmatch
    have hpairing := ha.pairing hb hmatch
    have hparts := parts_listingsAll (ta.branch a).children (tb.branch b).children
    have hd : d = (listingsAll (ta.branch a).children (tb.branch b).children).slots := by
      rw [← listings_eq]
      exact diff_eq_slots hmatch
    have hscatteredA := ha.scattered hparts.left
    have hscatteredB := hb.scattered hparts.right
    rw [← hparts.slots_changedA, List.map_map] at hscatteredA
    rw [← hparts.slots_changedB, List.map_map] at hscatteredB
    refine ⟨hd ▸ hscatteredA, hd ▸ hscatteredB, ?_, fun h => absurd h hsame,
      fun _ => ⟨_, hpairing⟩⟩
    rw [hd, hparts.slots_changedA, hparts.slots_changedB, List.forall₂_map_left_iff,
      List.forall₂_map_right_iff, List.forall₂_same]
    intro q hq
    obtain ⟨hq, hchanged⟩ := List.mem_filter.1 hq
    exact (ha.isChanged_iff hb hparts hq).1 hchanged
  · have hdifferent : (ta.branch a).entry.compare (tb.branch b).entry = .different := by
      simpa [Entry.matchesEntry] using hmatch
    have hd : d = { onlyA := [a], onlyB := [b] } := by
      have h := diff_of_different hdifferent
      rwa [id_branch, id_branch] at h
    rw [hd]
    exact ⟨scattered_singleton ta a, scattered_singleton tb b, .nil, fun _ => rfl,
      fun h => absurd ((ha.compare_eq hb a b).trans hdifferent) h⟩

/-- A list of users in which one is there twice: the first two are paired with one another, the
second ones with one another, and of the last ones each is there on one side only. -/
theorem diff_parts_userLists :
    let d := userList [user "ann" ["dev"], user "ann" ["dev", "ops"], user "bob" []]
    let e := userList [user "ann" ["dev"], user "cat" [], user "ann" ["web"]]
    d.tree.Forest ∧ e.tree.Forest ∧ d.tree.compare d.root e.tree e.root = .equal ∧
      d.tree.diff d.root e.tree e.root =
        { onlyA := [8], onlyB := [4], changedA := [4], changedB := [6] } ∧
      d.tree.Scattered d.root [8, 4] ∧ e.tree.Scattered e.root [4, 6] ∧
      ∃ pairs, d.tree.Pairing d.root e.tree e.root
        { onlyA := [8], onlyB := [4], changedA := [4], changedB := [6] } pairs := by
  intro d e
  have hd : d.tree.Forest := (forest_empty _).addCopy _
  have he : e.tree.Forest := (forest_empty _).addCopy _
  have hcompare : d.tree.compare d.root e.tree e.root = .equal := by decide +kernel
  have hdiff : d.tree.diff d.root e.tree e.root =
      { onlyA := [8], onlyB := [4], changedA := [4], changedB := [6] } := by decide +kernel
  obtain ⟨hA, hB, -, -, hpairs⟩ := hd.diff_parts he d.root e.root
  rw [hdiff] at hA hB hpairs
  exact ⟨hd, he, hcompare, hdiff, hA, hB, hpairs (by rw [hcompare]; decide)⟩

end Tree

end Netconf
