import Netconf.Proofs.Tree.Links

/-!
# Copies keep a forest

A copy is laid out as a block of slots in which every node but the first has its parent further up
in the block (`Block`). The block is read off the layout once, by induction on the branch that is
copied, and from it follows that a copy keeps a forest (`Forest.addCopy`).
-/

namespace Netconf.Tree

open Branch

variable {t : Tree}

/-- The slots from `base` on hold the nodes of a list. -/
def HoldsAt (t : Tree) (base : Nat) (nodes : List Node) : Prop :=
  ∀ i : Nat, (h : i < nodes.length) → t.node (base + i) = nodes[i]

/-- The first slot holds the first node, and the slots behind it hold the others. -/
theorem holdsAt_cons {base : Nat} {n : Node} {nodes : List Node} :
    t.HoldsAt base (n :: nodes) ↔ t.node base = n ∧ t.HoldsAt (base + 1) nodes := by
  constructor
  · intro h
    refine ⟨h 0 (by simp), fun i hi => ?_⟩
    have hstep := h (i + 1) (by simpa using hi)
    rwa [show base + (i + 1) = base + 1 + i by omega] at hstep
  · rintro ⟨hn, h⟩ i hi
    cases i with
    | zero => exact hn
    | succ i =>
      rw [show base + (i + 1) = base + 1 + i by omega]
      exact h i (by simpa using hi)

/-- Nodes in two parts are held by two blocks of slots, one behind the other. -/
theorem holdsAt_append {base : Nat} {ns ms : List Node} :
    t.HoldsAt base (ns ++ ms) ↔ t.HoldsAt base ns ∧ t.HoldsAt (base + ns.length) ms := by
  induction ns generalizing base with
  | nil => simp [HoldsAt]
  | cons n ns ih =>
    rw [List.cons_append, holdsAt_cons, holdsAt_cons, ih, and_assoc, List.length_cons,
      show base + 1 + ns.length = base + (ns.length + 1) by omega]

/-- The slots that a copy adds hold its layout. -/
theorem holdsAt_addCopy (t : Tree) (b : Branch) :
    (t.addCopy b).1.HoldsAt t.size (b.layout t.size none) := by
  intro i hi
  have hi' : i < (b.layout t.nodes.size none).length := hi
  simp [node, addCopy, size, Array.getD_eq_getD_getElem?, hi']

/-- The slots from `next` up to `stop` are a block below `parent`: each has its parent further up
in the block, but for the tops, whose parent is `parent`, and the lists of children agree with the
parents. -/
structure Block (t : Tree) (next stop parent : Nat) (tops : List NodeId) : Prop where
  /-- The parent of a slot of the block. -/
  parent? : ∀ x : Nat, next ≤ x → x < stop →
    ∃ p : Nat, t.parent? x = some p ∧ (p = parent ∨ next ≤ p ∧ p < x)
  /-- The children of a slot of the block. -/
  children : ∀ p : Nat, next ≤ p → p < stop → ∀ c : Nat, (t.children p).count c =
    if next ≤ c ∧ c < stop ∧ t.parent? c = some p then 1 else 0
  /-- The tops of the block. -/
  tops : ∀ c : Nat, tops.count c = if next ≤ c ∧ c < stop ∧ t.parent? c = some parent then 1 else 0

/-- The parent that a slot of a block has. -/
theorem Block.parent_cases {next stop parent : Nat} {tops : List NodeId}
    (h : t.Block next stop parent tops) {x p : Nat} (hx : next ≤ x) (hxs : x < stop)
    (hp : t.parent? x = some p) : p = parent ∨ next ≤ p ∧ p < x := by
  obtain ⟨q, hq, hqq⟩ := h.parent? x hx hxs
  obtain rfl : q = p := Option.some.inj (hq.symm.trans hp)
  exact hqq

/-- A top with the block of its children in front of a block with the same parent. -/
theorem Block.cons {next mid stop parent : Nat} {tops : List NodeId} (hlt : parent < next)
    (hmid : next < mid) (hstop : mid ≤ stop) (hp : t.parent? next = some parent)
    (h : t.Block (next + 1) mid next (t.children next)) (hs : t.Block mid stop parent tops) :
    t.Block next stop parent (next :: tops) where
  parent? x hx hxs := by
    rcases Nat.lt_or_ge x mid with hxm | hxm
    · rcases Nat.eq_or_lt_of_le hx with rfl | hx
      · exact ⟨parent, hp, .inl rfl⟩
      · obtain ⟨p, hpx, hpp⟩ := h.parent? x hx hxm
        exact ⟨p, hpx, .inr (by omega)⟩
    · obtain ⟨p, hpx, hpp⟩ := hs.parent? x hxm hxs
      exact ⟨p, hpx, by omega⟩
  children p hpn hps c := by
    rcases Nat.lt_or_ge p mid with hpm | hpm
    · have hcount : (t.children p).count c =
          if next + 1 ≤ c ∧ c < mid ∧ t.parent? c = some p then 1 else 0 := by
        rcases Nat.eq_or_lt_of_le hpn with rfl | hpn
        · exact h.tops c
        · exact h.children p hpn hpm c
      rw [hcount]
      refine if_congr ⟨fun ⟨h1, h2, h3⟩ => ⟨by omega, by omega, h3⟩, fun ⟨h1, h2, h3⟩ => ?_⟩ rfl rfl
      -- the children of a node of the first branch are in the first branch
      have hcm : c < mid := by
        by_contra hcm
        have hparent := hs.parent_cases (Nat.not_lt.1 hcm) h2 h3
        omega
      have hne : c ≠ next := by
        rintro rfl
        have hparent : p = parent := Option.some.inj (h3.symm.trans hp)
        omega
      exact ⟨by omega, hcm, h3⟩
    · rw [hs.children p hpm hps c]
      refine if_congr ⟨fun ⟨h1, h2, h3⟩ => ⟨by omega, h2, h3⟩, fun ⟨h1, h2, h3⟩ => ?_⟩ rfl rfl
      -- and those of a node of the other branches in the other branches
      refine ⟨?_, h2, h3⟩
      by_contra hcm
      rcases Nat.eq_or_lt_of_le h1 with rfl | h1
      · have hparent : p = parent := Option.some.inj (h3.symm.trans hp)
        omega
      · have hparent := h.parent_cases h1 (Nat.not_le.1 hcm) h3
        omega
  tops c := by
    rw [List.count_cons, hs.tops c]
    by_cases hc : c = next
    · have hin : next ≤ next ∧ next < stop ∧ t.parent? next = some parent :=
        ⟨Nat.le_refl _, by omega, hp⟩
      rw [hc, if_neg (by omega), beq_self_eq_true, if_pos rfl, if_pos hin]
    · rw [show (if (next == c) = true then 1 else 0) = 0 by simp [Ne.symm hc], Nat.add_zero]
      refine if_congr ⟨fun ⟨h1, h2, h3⟩ => ⟨by omega, h2, h3⟩, fun ⟨h1, h2, h3⟩ => ?_⟩ rfl rfl
      -- behind its top, the first branch has no child of the parent
      refine ⟨?_, h2, h3⟩
      by_contra hcm
      have hparent := h.parent_cases (by omega) (Nat.not_le.1 hcm) h3
      omega

/-- A branch has at least one node. -/
theorem size_pos (b : Branch) : 0 < b.size := by
  cases b
  simp [Branch.size]

/-- The top of a copy is in a slot that exists. -/
theorem lt_size_addCopy (b : Branch) : t.size < (t.addCopy b).1.size := by
  rw [size_addCopy]
  exact Nat.lt_add_of_pos_right (size_pos b)

/-- What the layouts of a branch and of branches below a parent make of their slots. -/
theorem block_of_layouts :
    (∀ (b : Branch) (base : Nat) (q : Option NodeId), t.HoldsAt base (b.layout base q) →
      t.parent? base = q ∧ t.Block (base + 1) (base + b.size) base (t.children base)) ∧
      ∀ (bs : List Branch) (next parent : Nat), parent < next →
        t.HoldsAt next (layoutAll next parent bs) →
          t.Block next (next + sizeOfAll bs) parent (starts next bs) := by
  refine mutualInduction ?_ ?_ ?_
  · intro id e children ih base q h
    rw [layout, holdsAt_cons] at h
    have hchildren : t.children base = starts (base + 1) children := by simp [Tree.children, h.1]
    have hstop : base + (sizeOfAll children + 1) = base + 1 + sizeOfAll children := by omega
    refine ⟨by simp [Tree.parent?, h.1], ?_⟩
    rw [hchildren, Branch.size, hstop]
    exact ih (base + 1) base (by omega) h.2
  · intro next parent hlt _
    refine ⟨?_, ?_, ?_⟩
    · simp only [sizeOfAll]; omega
    · simp only [sizeOfAll]; omega
    · intro c
      rw [if_neg (by simp only [sizeOfAll]; omega)]
      rfl
  · intro b bs ihb ihbs next parent hlt h
    rw [layoutAll, holdsAt_append, length_layout] at h
    obtain ⟨hp, hb⟩ := ihb next (some parent) h.1
    have hbs := ihbs (next + b.size) parent (by omega) h.2
    rw [sizeOfAll, ← Nat.add_assoc]
    exact Block.cons hlt (Nat.lt_add_of_pos_right (size_pos b)) (Nat.le_add_right _ _) hp hb hbs

/-- The top of a copy stands alone. -/
theorem parent?_addCopy (t : Tree) (b : Branch) : (t.addCopy b).1.parent? t.size = none :=
  (block_of_layouts.1 b _ none (holdsAt_addCopy t b)).1

/-- The slots of a copy behind its top are a block below it. -/
theorem block_addCopy (t : Tree) (b : Branch) : (t.addCopy b).1.Block (t.size + 1)
    (t.size + b.size) t.size ((t.addCopy b).1.children t.size) :=
  (block_of_layouts.1 b _ none (holdsAt_addCopy t b)).2

/-- In a copy the parent of a node is in the copy as well, further up. -/
theorem parent_bounds_addCopy {b : Branch} {x p : Nat} (hx : t.size ≤ x)
    (hp : (t.addCopy b).1.parent? x = some p) : t.size ≤ p ∧ p < x := by
  have hlt := lt_size_of_parent? hp
  rw [size_addCopy] at hlt
  rcases Nat.eq_or_lt_of_le hx with rfl | hx
  · rw [parent?_addCopy] at hp
    cases hp
  · have hparent := (block_addCopy t b).parent_cases hx hlt hp
    omega

/-- A node with a new parent is new, and behind its parent. -/
theorem Forest.child_bounds_addCopy (h : t.Forest) {b : Branch} {p c : Nat} (hp : t.size ≤ p)
    (hc : (t.addCopy b).1.parent? c = some p) : p < c ∧ c < t.size + b.size := by
  have hlt := lt_size_of_parent? hc
  rw [size_addCopy] at hlt
  refine ⟨?_, hlt⟩
  rcases Nat.lt_or_ge c t.size with hcs | hcs
  · -- the parent of an old node is old
    rw [parent?_addCopy_of_lt b hcs] at hc
    exact absurd (h.parent_lt hc) (Nat.not_lt.2 hp)
  · exact (parent_bounds_addCopy hcs hc).2

/-- After a copy, the lists of children agree with the parents. -/
theorem Forest.count_children_addCopy (h : t.Forest) (b : Branch) (p c : Nat) :
    ((t.addCopy b).1.children p).count c =
      if (t.addCopy b).1.parent? c = some p then 1 else 0 := by
  rcases Nat.lt_or_ge p t.size with hp | hp
  · rw [children_addCopy_of_lt b hp, h.count_children]
    rcases Nat.lt_or_ge c t.size with hc | hc
    · rw [parent?_addCopy_of_lt b hc]
    · have hold : t.parent? c ≠ some p := fun he =>
        absurd (lt_size_of_parent? he) (Nat.not_lt.2 hc)
      have hnew : (t.addCopy b).1.parent? c ≠ some p := fun he =>
        absurd (parent_bounds_addCopy hc he).1 (Nat.not_le.2 hp)
      rw [if_neg hold, if_neg hnew]
  rcases Nat.lt_or_ge p (t.size + b.size) with hps | hps
  · have hcount : ((t.addCopy b).1.children p).count c = if t.size + 1 ≤ c ∧
        c < t.size + b.size ∧ (t.addCopy b).1.parent? c = some p then 1 else 0 := by
      rcases Nat.eq_or_lt_of_le hp with rfl | hp
      · exact (block_addCopy t b).tops c
      · exact (block_addCopy t b).children p hp hps c
    rw [hcount]
    refine if_congr ⟨fun hc => hc.2.2, fun hc => ?_⟩ rfl rfl
    have hbounds := h.child_bounds_addCopy hp hc
    exact ⟨by omega, hbounds.2, hc⟩
  · -- beyond the copy there is nothing
    have hnone : (t.addCopy b).1.children p = [] := by
      rw [Tree.children, node_of_size_le (by simpa using hps)]
    have hnot : (t.addCopy b).1.parent? c ≠ some p := fun hc => by
      have hbounds := h.child_bounds_addCopy hp hc
      omega
    rw [hnone, if_neg hnot, List.count_nil]

/-- A copy keeps a forest. -/
theorem Forest.addCopy (h : t.Forest) (b : Branch) : (t.addCopy b).1.Forest := by
  refine ⟨h.count_children_addCopy b, ?_⟩
  -- the way up ends for the old slots first, then for the copy from its top downwards
  have hold : ∀ x : Nat, x < t.size → Acc (t.addCopy b).1.ParentOf x := by
    intro x
    induction x using h.acyclic.induction with
    | _ x ih =>
      intro hx
      refine ⟨x, fun y hy => ?_⟩
      have hyx : t.parent? x = some y := by rw [← parent?_addCopy_of_lt b hx]; exact hy
      exact ih y hyx (h.parent_lt hyx)
  refine ⟨fun (x : Nat) => ?_⟩
  induction x using Nat.strong_induction_on with
  | _ x ih =>
    rcases Nat.lt_or_ge x t.size with hx | hx
    · exact hold x hx
    · exact ⟨x, fun y hy => ih y (parent_bounds_addCopy hx hy).2⟩

end Netconf.Tree
