import Netconf.Proofs.Tree.Links
import Netconf.Proofs.Tree.Outcome
import Netconf.Xml.Reading

/-!
# Insertion in an order of names

`Tree.insertOrdered` puts a node behind the children whose names do not come later in an order of
names. Where the children are in this order already, they stay in it, and the new node comes behind
those of its own rank (`exists_split_of_insertOrdered`). Nodes inserted one after the other under a
parent without children are therefore sorted, and the sort is stable (`insertOrdered_sorts`). A node
cannot be inserted twice, and neither can the parent or a node above it; everything else that stands
alone can (`exists_insertAllOrdered_iff`).
-/

namespace Netconf

/-! ## Stable sorting -/

section Sorting

variable {α : Type} {r : α → Nat} {l m : List α} {x : α}

/-- The members of a list are in the order of their ranks. -/
def InRankOrder (r : α → Nat) (l : List α) : Prop := l.Pairwise fun a b => r a ≤ r b

/-- In a list in order, a new member in front of the first one of higher rank is behind the members
of no higher rank and in front of the others. -/
theorem InRankOrder.exists_split (h : InRankOrder r l) (x : α) :
    ∃ pre post, l = pre ++ post ∧
      l.insertIdx (l.findIdx fun a => decide (r x < r a)) x = pre ++ x :: post ∧
      (∀ a ∈ pre, r a ≤ r x) ∧ ∀ a ∈ post, r x < r a := by
  induction l with
  | nil => exact ⟨[], [], rfl, rfl, nofun, nofun⟩
  | cons a l ih =>
    obtain ⟨ha, hl⟩ := List.pairwise_cons.1 h
    by_cases hlt : r x < r a
    · refine ⟨[], a :: l, rfl, ?_, nofun, fun b hb => ?_⟩
      · rw [List.findIdx_cons, decide_eq_true hlt]
        rfl
      · rcases List.mem_cons.1 hb with rfl | hb
        · exact hlt
        · exact Nat.lt_of_lt_of_le hlt (ha b hb)
    · obtain ⟨pre, post, hsplit, hinsert, hpre, hpost⟩ := ih hl
      refine ⟨a :: pre, post, by rw [hsplit, List.cons_append], ?_, fun b hb => ?_, hpost⟩
      · rw [List.findIdx_cons, decide_eq_false hlt, cond_false, List.insertIdx_succ_cons, hinsert,
          List.cons_append]
      · rcases List.mem_cons.1 hb with rfl | hb
        · exact Nat.le_of_not_lt hlt
        · exact hpre b hb

/-- A list in order stays in order with a new member between those of no higher and those of higher
rank. -/
theorem InRankOrder.middle {pre post : List α} (h : InRankOrder r (pre ++ post))
    (hpre : ∀ a ∈ pre, r a ≤ r x) (hpost : ∀ a ∈ post, r x < r a) :
    InRankOrder r (pre ++ x :: post) := by
  obtain ⟨hleft, hright, hcross⟩ := List.pairwise_append.1 h
  refine List.pairwise_append.2 ⟨hleft, ?_, fun a ha b hb => ?_⟩
  · exact List.pairwise_cons.2 ⟨fun b hb => Nat.le_of_lt (hpost b hb), hright⟩
  · rcases List.mem_cons.1 hb with rfl | hb
    · exact hpre a ha
    · exact hcross a ha b hb

/-- A new member in front of those of higher rank is the last one of its own rank. -/
theorem filter_rank_middle {pre post : List α} (hpost : ∀ a ∈ post, r x < r a) (k : Nat) :
    (pre ++ x :: post).filter (fun a => r a = k) =
      (pre ++ post).filter (fun a => r a = k) ++ [x].filter fun a => r a = k := by
  by_cases hk : r x = k
  · have hnone : post.filter (fun a => decide (r a = k)) = [] :=
      List.filter_eq_nil_iff.2 fun a ha => by simpa [← hk] using Nat.ne_of_gt (hpost a ha)
    simp [hk, hnone]
  · simp [hk]

/-- The members of a list are in any list with the same members of each rank. -/
theorem mem_of_filter_rank (h : ∀ k, l.filter (fun a => r a = k) = m.filter fun a => r a = k)
    (hx : x ∈ l) : x ∈ m := by
  have hfound : x ∈ l.filter fun a => decide (r a = r x) := List.mem_filter.2 ⟨hx, by simp⟩
  rw [h] at hfound
  exact List.mem_of_mem_filter hfound

/-- Two lists in order are equal when their members of each rank are the same in the same order. -/
theorem InRankOrder.eq_of_filter (hl : InRankOrder r l) (hm : InRankOrder r m)
    (h : ∀ k, l.filter (fun a => r a = k) = m.filter fun a => r a = k) : l = m := by
  induction l generalizing m with
  | nil =>
    cases m with
    | nil => rfl
    | cons b m =>
      exact absurd (mem_of_filter_rank (fun k => (h k).symm) List.mem_cons_self) List.not_mem_nil
  | cons a l ih =>
    cases m with
    | nil => exact absurd (mem_of_filter_rank h List.mem_cons_self) List.not_mem_nil
    | cons b m =>
      have hamem : a ∈ b :: m := mem_of_filter_rank h List.mem_cons_self
      have hbmem : b ∈ a :: l := mem_of_filter_rank (fun k => (h k).symm) List.mem_cons_self
      obtain ⟨hal, hl⟩ := List.pairwise_cons.1 hl
      obtain ⟨hbm, hm'⟩ := List.pairwise_cons.1 hm
      -- both heads have the lowest rank, and they are the first members of this rank
      have hab : r a ≤ r b := by
        rcases List.mem_cons.1 hbmem with hba | hb
        · rw [hba]
        · exact hal b hb
      have hba : r b ≤ r a := by
        rcases List.mem_cons.1 hamem with hab | ha
        · rw [hab]
        · exact hbm a ha
      have hrank : r b = r a := Nat.le_antisymm hba hab
      have hheads := h (r a)
      rw [List.filter_cons_of_pos (by simp), List.filter_cons_of_pos (by simp [hrank])] at hheads
      obtain ⟨rfl, -⟩ := List.cons.inj hheads
      rw [ih hl hm' fun k => ?_]
      have hk := h k
      rw [List.filter_cons, List.filter_cons] at hk
      split at hk
      · exact (List.cons.inj hk).2
      · exact hk

/-- The order of ranks is transitive. -/
theorem rankLe_trans (r : α → Nat) (a b c : α) (hab : decide (r a ≤ r b) = true)
    (hbc : decide (r b ≤ r c) = true) : decide (r a ≤ r c) = true :=
  decide_eq_true (Nat.le_trans (of_decide_eq_true hab) (of_decide_eq_true hbc))

/-- The order of ranks is total. -/
theorem rankLe_total (r : α → Nat) (a b : α) :
    (decide (r a ≤ r b) || decide (r b ≤ r a)) = true := by
  simpa using Nat.le_total (r a) (r b)

/-- A list sorted by rank is in order. -/
theorem inRankOrder_mergeSort (r : α → Nat) (l : List α) :
    InRankOrder r (l.mergeSort fun a b => r a ≤ r b) :=
  (List.pairwise_mergeSort (rankLe_trans r) (rankLe_total r) l).imp of_decide_eq_true

/-- Sorting by rank keeps the members of each rank in their order. -/
theorem filter_mergeSort (r : α → Nat) (l : List α) (k : Nat) :
    (l.mergeSort fun a b => r a ≤ r b).filter (fun a => r a = k) =
      l.filter fun a => r a = k := by
  have hequal : (l.filter fun a => decide (r a = k)).Pairwise
      fun a b => decide (r a ≤ r b) = true := by
    refine List.pairwise_of_forall_mem_list fun a ha b hb => ?_
    have hak : r a = k := of_decide_eq_true (List.mem_filter.1 ha).2
    have hbk : r b = k := of_decide_eq_true (List.mem_filter.1 hb).2
    exact decide_eq_true (by rw [hak, hbk])
  have hsub :=
    List.sublist_mergeSort (rankLe_trans r) (rankLe_total r) hequal List.filter_sublist
  have hfiltered := hsub.filter fun a => decide (r a = k)
  simp only [List.filter_filter, Bool.and_self] at hfiltered
  exact (hfiltered.eq_of_length ((List.mergeSort_perm l _).filter _).length_eq.symm).symm

/-- What is in order and has the same members of each rank in the same order is the list sorted. -/
theorem InRankOrder.eq_mergeSort (h : InRankOrder r m)
    (hm : ∀ k, m.filter (fun a => r a = k) = l.filter fun a => r a = k) :
    m = l.mergeSort fun a b => r a ≤ r b :=
  h.eq_of_filter (inRankOrder_mergeSort r l) fun k => (hm k).trans (filter_mergeSort r l k).symm

end Sorting

namespace Tree

variable {t t' : Tree} {parent child : Nat} {order : List String}

/-! ## One node -/

/-- The way up from a node is told by the parents of the nodes on it. -/
theorem upwardFor_congr {n : Nat} {id : NodeId}
    (h : ∀ x ∈ t.upwardFor n id, t'.parent? x = t.parent? x) :
    t'.upwardFor n id = t.upwardFor n id := by
  induction n generalizing id with
  | zero => rfl
  | succ n ih =>
    have hid : id ∈ t.upwardFor (n + 1) id := by
      unfold upwardFor
      split <;> simp
    have hparent := h id hid
    rw [upwardFor] at h ⊢
    rw [upwardFor, hparent]
    cases hp : t.parent? id with
    | none => rfl
    | some p =>
      rw [hp] at h
      dsimp only at h ⊢
      rw [ih fun x hx => h x (List.mem_cons_of_mem _ hx)]

/-- What is above the new parent of a node is what was above it. -/
theorem Inserted.isAtOrAbove {index : Nat} (h : t.Inserted parent child index t') (x : Nat) :
    t'.isAtOrAbove x parent = t.isAtOrAbove x parent := by
  have hnot : ∀ y ∈ t.upward parent, y ≠ child := by
    rintro y hy rfl
    have habove := h.not_above
    rw [Tree.isAtOrAbove, List.contains_eq_mem, decide_eq_false_iff_not] at habove
    exact habove hy
  have hupward : t'.upward parent = t.upward parent := by
    rw [upward, h.size]
    exact upwardFor_congr fun y hy => by rw [h.parent?, if_neg (hnot y hy)]
  rw [Tree.isAtOrAbove, hupward, Tree.isAtOrAbove]

/-- The rank of a node in an order of names: where the order has its name first, or behind all names
of the order. -/
def rankIn (t : Tree) (order : List String) (x : NodeId) : Nat := order.idxOf (t.name x)

/-- A node inserted among children in order is behind those of no higher rank and in front of the
others. -/
theorem exists_split_of_insertOrdered (hp : parent < t.size) (hc : child < t.size)
    (h : t.insertOrdered parent child order = .ok t')
    (hsorted : InRankOrder (t.rankIn order) (t.children parent)) :
    ∃ pre post, t.children parent = pre ++ post ∧ t'.children parent = pre ++ child :: post ∧
      (∀ c ∈ pre, t.rankIn order c ≤ t.rankIn order child) ∧
      ∀ c ∈ post, t.rankIn order child < t.rankIn order c := by
  obtain ⟨pre, post, hsplit, hinsert, hpre, hpost⟩ := hsorted.exists_split child
  refine ⟨pre, post, hsplit, ?_, hpre, hpost⟩
  rw [(inserted_of_insertAt hp hc h).children, if_pos rfl, ← hinsert,
    Nat.min_eq_left List.findIdx_le_length]
  rfl

/-! ## Nodes one after the other -/

/-- Inserts nodes one after the other. -/
def insertAllOrdered (t : Tree) (parent : NodeId) (order : List String) (xs : List NodeId) :
    Except Error Tree :=
  xs.foldlM (fun t x => t.insertOrdered parent x order) t

/-- Inserting nodes is inserting the first one and then the others. -/
theorem insertAllOrdered_cons_eq_ok {x : NodeId} {xs : List NodeId} :
    t.insertAllOrdered parent order (x :: xs) = .ok t' ↔
      ∃ t₁, t.insertOrdered parent x order = .ok t₁ ∧
        t₁.insertAllOrdered parent order xs = .ok t' := by
  rw [insertAllOrdered, List.foldlM_cons, bind_eq_ok]
  rfl

/-- Nodes can be inserted one after the other just when they are different, stand alone and are
neither the parent nor above it. -/
theorem exists_insertAllOrdered_iff (hp : parent < t.size) {xs : List NodeId}
    (hxs : ∀ x ∈ xs, x < t.size) : (∃ t', t.insertAllOrdered parent order xs = .ok t') ↔
      xs.Nodup ∧ ∀ x ∈ xs, t.parent? x = none ∧ t.isAtOrAbove x parent = false := by
  induction xs generalizing t with
  | nil => exact ⟨fun _ => ⟨List.nodup_nil, nofun⟩, fun _ => ⟨t, rfl⟩⟩
  | cons x xs ih =>
    obtain ⟨hx, hxs⟩ := List.forall_mem_cons.1 hxs
    -- after the first node, the others stand as before, and only it no longer stands alone
    have hnext : ∀ {t₁}, t.insertOrdered parent x order = .ok t₁ →
        ((∃ t', t₁.insertAllOrdered parent order xs = .ok t') ↔ xs.Nodup ∧
          ∀ y ∈ xs, (if y = x then some parent else t.parent? y) = none ∧
            t.isAtOrAbove y parent = false) := fun {t₁} h => by
      have hins := inserted_of_insertAt hp hx h
      rw [ih (by rwa [hins.size]) fun y hy => by rw [hins.size]; exact hxs y hy]
      simp only [hins.parent?, hins.isAtOrAbove]
    rw [List.nodup_cons, List.forall_mem_cons]
    constructor
    · rintro ⟨t', h⟩
      obtain ⟨t₁, hfirst, hrest⟩ := insertAllOrdered_cons_eq_ok.1 h
      have hins := inserted_of_insertAt hp hx hfirst
      obtain ⟨hnodup, hothers⟩ := (hnext hfirst).1 ⟨t', hrest⟩
      have hne : ∀ y ∈ xs, y ≠ x := fun y hy he => by
        have halone := (hothers y hy).1
        rw [if_pos he] at halone
        cases halone
      refine ⟨⟨fun hmem => hne x hmem rfl, hnodup⟩, ⟨hins.alone, hins.not_above⟩, fun y hy => ?_⟩
      have hy' := hothers y hy
      rwa [if_neg (hne y hy)] at hy'
    · rintro ⟨⟨hnotin, hnodup⟩, ⟨halone, habove⟩, hothers⟩
      obtain ⟨t₁, hfirst⟩ := exists_insertAt _ halone habove
      obtain ⟨t', hrest⟩ := (hnext hfirst).2 ⟨hnodup, fun y hy => by
        have hne : y ≠ x := fun he => hnotin (he ▸ hy)
        rw [if_neg hne]
        exact hothers y hy⟩
      exact ⟨t', insertAllOrdered_cons_eq_ok.2 ⟨t₁, hfirst, hrest⟩⟩

/-- Nodes inserted among children in order leave them in order, each behind those of its rank. -/
theorem children_insertAllOrdered (hp : parent < t.size) {xs : List NodeId}
    (hxs : ∀ x ∈ xs, x < t.size) (hsorted : InRankOrder (t.rankIn order) (t.children parent))
    (h : t.insertAllOrdered parent order xs = .ok t') :
    InRankOrder (t.rankIn order) (t'.children parent) ∧
      ∀ k, (t'.children parent).filter (fun c => t.rankIn order c = k) =
        (t.children parent).filter (fun c => t.rankIn order c = k) ++
          xs.filter fun c => t.rankIn order c = k := by
  induction xs generalizing t with
  | nil =>
    cases h
    exact ⟨hsorted, fun k => by simp⟩
  | cons x xs ih =>
    obtain ⟨hx, hxs⟩ := List.forall_mem_cons.1 hxs
    obtain ⟨t₁, hfirst, hrest⟩ := insertAllOrdered_cons_eq_ok.1 h
    have hins := inserted_of_insertAt hp hx hfirst
    have hrank : t₁.rankIn order = t.rankIn order :=
      funext fun y => by rw [rankIn, rankIn, name, name, hins.element]
    obtain ⟨pre, post, hsplit, hchildren, hpre, hpost⟩ :=
      exists_split_of_insertOrdered hp hx hfirst hsorted
    have hmiddle := (hsplit ▸ hsorted).middle hpre hpost
    have hnext := ih (by rwa [hins.size]) (fun y hy => by rw [hins.size]; exact hxs y hy)
      (by rwa [hrank, hchildren]) hrest
    rw [hrank] at hnext
    refine ⟨hnext.1, fun k => ?_⟩
    rw [hnext.2, hchildren, filter_rank_middle hpost, ← hsplit, List.append_assoc,
      ← List.filter_append, List.singleton_append]

/-- Ordered insertion is insertion sort. Nodes that stand alone can be inserted one after the other
under a parent without children just when they are different and none is the parent or above it, and
the children are then these nodes, stably sorted by where the order has their names first, those
whose names it does not have at the end. Among children that are sorted in this way, one more node
leaves them sorted and in their order. -/
theorem insertOrdered_sorts (order : List String) :
    (∀ (t : Tree) (parent : NodeId) (xs : List NodeId), parent < t.size →
      t.children parent = [] → (∀ x ∈ xs, x < t.size ∧ t.parent? x = none) →
        ((∃ t', t.insertAllOrdered parent order xs = .ok t') ↔
          xs.Nodup ∧ ∀ x ∈ xs, t.isAtOrAbove x parent = false) ∧
        ∀ t', t.insertAllOrdered parent order xs = .ok t' →
          t'.children parent =
            xs.mergeSort fun x y => order.idxOf (t.name x) ≤ order.idxOf (t.name y)) ∧
      ∀ (t t' : Tree) (parent child : NodeId), parent < t.size → child < t.size →
        ((t.children parent).Pairwise fun c d =>
          order.idxOf (t.name c) ≤ order.idxOf (t.name d)) →
        t.insertOrdered parent child order = .ok t' →
        ((t'.children parent).Pairwise fun c d =>
          order.idxOf (t'.name c) ≤ order.idxOf (t'.name d)) ∧
        ∃ pre post, t.children parent = pre ++ post ∧
          t'.children parent = pre ++ child :: post := by
  refine ⟨fun t parent xs hp hchildless hxs => ⟨?_, fun t' h => ?_⟩,
    fun t t' parent child hp hc hsorted h => ?_⟩
  · rw [exists_insertAllOrdered_iff hp fun x hx => (hxs x hx).1]
    refine and_congr_right fun _ => forall₂_congr fun x hx => ?_
    rw [(hxs x hx).2]
    exact and_iff_right rfl
  · have hnone : InRankOrder (t.rankIn order) (t.children parent) := by
      rw [hchildless]
      exact List.Pairwise.nil
    obtain ⟨hsorted, hranks⟩ :=
      children_insertAllOrdered hp (fun x hx => (hxs x hx).1) hnone h
    refine hsorted.eq_mergeSort fun k => ?_
    rw [hranks, hchildless, List.filter_nil, List.nil_append]
  · have hins := inserted_of_insertAt hp hc h
    obtain ⟨pre, post, hsplit, hchildren, hpre, hpost⟩ :=
      exists_split_of_insertOrdered hp hc h hsorted
    refine ⟨?_, pre, post, hsplit, hchildren⟩
    have hmiddle : InRankOrder (t.rankIn order) (pre ++ child :: post) :=
      InRankOrder.middle (hsplit ▸ hsorted) hpre hpost
    rw [hchildren]
    refine hmiddle.imp fun {c d} hcd => ?_
    rw [name, name, hins.element, hins.element]
    exact hcd

/-- An order that has a name twice. -/
def shelfOrder : List String := ["a", "b", "a", "c"]

/-- A node without children and six others, all of which stand alone. -/
def looseNodes : Tree :=
  ["shelf", "c", "a", "x", "b", "a", "b"].foldl (fun t name => (t.create { name := name }).1)
    (Tree.empty (.standard 0))

/-- The shelf with five of the others. -/
def shelf : Tree :=
  (looseNodes.insertAllOrdered 0 shelfOrder [1, 2, 3, 4, 5]).toOption.getD looseNodes

/-- The shelf with all of them. -/
def fullShelf : Tree := (shelf.insertOrdered 0 6 shelfOrder).toOption.getD shelf

/-- Five nodes are sorted, those of one name as they came, and the last one is then put behind the
one of its name. -/
theorem insertOrdered_sorts_shelf :
    looseNodes.insertAllOrdered 0 shelfOrder [1, 2, 3, 4, 5] = .ok shelf ∧
      (shelf.children 0 = [1, 2, 3, 4, 5].mergeSort fun x y =>
        shelfOrder.idxOf (looseNodes.name x) ≤ shelfOrder.idxOf (looseNodes.name y)) ∧
      shelf.children 0 = [2, 5, 4, 1, 3] ∧
      shelf.insertOrdered 0 6 shelfOrder = .ok fullShelf ∧
      ((fullShelf.children 0).Pairwise fun c d =>
        shelfOrder.idxOf (fullShelf.name c) ≤ shelfOrder.idxOf (fullShelf.name d)) ∧
      fullShelf.children 0 = [2, 5, 4, 6, 1, 3] := by
  have hshelf : looseNodes.insertAllOrdered 0 shelfOrder [1, 2, 3, 4, 5] = .ok shelf := rfl
  have hfull : shelf.insertOrdered 0 6 shelfOrder = .ok fullShelf := rfl
  have hsorts := insertOrdered_sorts shelfOrder
  exact ⟨hshelf,
    (hsorts.1 looseNodes 0 [1, 2, 3, 4, 5] (by decide) (by decide) (by decide)).2 shelf hshelf,
    by decide +kernel, hfull,
    (hsorts.2 shelf fullShelf 0 6 (by decide +kernel) (by decide +kernel) (by decide +kernel)
      hfull).1,
    by decide +kernel⟩

/-- A node in another. -/
def nested : Document :=
  ⟨((Tree.empty (.standard 0)).addCopy (.mk 0 { name := "a" } [.mk 1 { name := "b" } []])).1, 0⟩

/-- The outer node stands alone and the inner one has no children, but the outer one cannot be
inserted there. -/
theorem insertOrdered_above :
    Xml.parse (.standard 0) none "<a><b/></a>" = .ok nested ∧
      1 < nested.tree.size ∧ nested.tree.children 1 = [] ∧
      (∀ x ∈ [0], x < nested.tree.size ∧ nested.tree.parent? x = none) ∧ [0].Nodup ∧
      nested.tree.insertOrdered 1 0 ["a"] = .error (.inUse "a") ∧
      ¬ ∃ t', nested.tree.insertAllOrdered 1 ["a"] [0] = .ok t' := by
  have herror : nested.tree.insertOrdered 1 0 ["a"] = .error (.inUse "a") := rfl
  refine ⟨rfl, by decide +kernel, by decide +kernel, by decide +kernel, by decide, herror, ?_⟩
  rintro ⟨t', h⟩
  obtain ⟨t₁, hfirst, -⟩ := insertAllOrdered_cons_eq_ok.1 h
  rw [herror] at hfirst
  cases hfirst

end Tree

end Netconf
