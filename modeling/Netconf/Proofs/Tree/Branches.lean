import Netconf.Proofs.Tree.Copies

/-!
# The branch at a node

`Tree.branch` reads the part of a tree below a node down to a bounded depth. In a forest the bound
is never met: a branch is its top with the branches of the children (`Forest.branch_eq`), and
deeper readings give the same (`Forest.branchTo_of_le`). A branch depends on the slots below its
top only (`Forest.branch_congr`), its slots are those below its top, each once
(`Forest.mem_ids_branch`, `Forest.nodup_ids_branch`), and the branch at a copy is the one that was
copied, the numbers of the slots apart (`Forest.bare_branch_addCopy`).
-/

namespace Netconf

/-! ## Branches -/

namespace Branch

/-- What holds of a branch whenever it holds of the branches of its children holds of all. -/
theorem induction {P : Branch → Prop}
    (step : ∀ id e bs, (∀ b ∈ bs, P b) → P (.mk id e bs)) (b : Branch) : P b := by
  refine (mutualInduction (P := P) (Q := fun bs => ∀ b ∈ bs, P b) step ?_ ?_).1 b
  · intro b hb
    cases hb
  · intro b bs ihb ihbs c hc
    rcases List.mem_cons.1 hc with rfl | hc
    · exact ihb
    · exact ihbs c hc

mutual

/-- A branch with what its nodes carry changed. -/
def mapElements (f : Element → Element) : Branch → Branch
  | .mk id e bs => .mk id (f e) (mapElementsOfAll f bs)

/-- Several branches with what their nodes carry changed. -/
def mapElementsOfAll (f : Element → Element) : List Branch → List Branch
  | [] => []
  | b :: bs => b.mapElements f :: mapElementsOfAll f bs

end

mutual

/-- A branch without the numbers of its slots. -/
def bare : Branch → Branch
  | .mk _ e bs => .mk 0 e (bareAll bs)

/-- Several branches without the numbers of their slots. -/
def bareAll : List Branch → List Branch
  | [] => []
  | b :: bs => b.bare :: bareAll bs

end

/-- Changing several branches changes each. -/
theorem mapElementsOfAll_eq_map (f : Element → Element) (bs : List Branch) :
    mapElementsOfAll f bs = bs.map (mapElements f) := by
  induction bs with
  | nil => rfl
  | cons b bs ih => rw [mapElementsOfAll, ih, List.map_cons]

/-- The numbers are left out of each of several branches. -/
theorem bareAll_eq_map (bs : List Branch) : bareAll bs = bs.map bare := by
  induction bs with
  | nil => rfl
  | cons b bs ih => rw [bareAll, ih, List.map_cons]

/-- A changed branch, from its parts. -/
theorem mapElements_mk (f : Element → Element) (id : NodeId) (e : Element) (bs : List Branch) :
    (mk id e bs).mapElements f = mk id (f e) (bs.map (mapElements f)) := by
  rw [mapElements, mapElementsOfAll_eq_map]

/-- A branch without numbers, from its parts. -/
theorem bare_mk (id : NodeId) (e : Element) (bs : List Branch) :
    (mk id e bs).bare = mk 0 e (bs.map bare) := by
  rw [bare, bareAll_eq_map]

/-- The slots of a branch are its own and those below it. -/
theorem ids_eq (b : Branch) : b.ids = b.id :: idsOfAll b.children := by
  cases b
  rw [ids, id, children]

/-- The slots of several branches, one after the other. -/
theorem idsOfAll_eq_flatMap (bs : List Branch) : idsOfAll bs = bs.flatMap ids := by
  induction bs with
  | nil => rfl
  | cons b bs ih => rw [idsOfAll, ih, List.flatMap_cons]

/-- The slots of several branches are those of each. -/
theorem mem_idsOfAll {x : NodeId} {bs : List Branch} :
    x ∈ idsOfAll bs ↔ ∃ b ∈ bs, x ∈ b.ids := by
  rw [idsOfAll_eq_flatMap, List.mem_flatMap]

/-- The top of a branch stays what it is without numbers. -/
@[simp]
theorem element_bare (b : Branch) : b.bare.element = b.element := by
  cases b
  rw [bare_mk, element, element]

/-- The children of a branch without numbers. -/
@[simp]
theorem children_bare (b : Branch) : b.bare.children = b.children.map bare := by
  cases b
  rw [bare_mk, children, children]

/-- What a comparison looks at does not depend on numbers. -/
@[simp]
theorem entry_bare (b : Branch) : b.bare.entry = b.entry := by
  simp [entry, Function.comp_def]

/-- Leaving numbers out is all there is to do. -/
@[simp]
theorem bare_bare (b : Branch) : b.bare.bare = b.bare := by
  induction b using induction with
  | step id e bs ih =>
    rw [bare_mk, bare_mk, List.map_map]
    exact congrArg (mk 0 e) (List.map_congr_left ih)

/-- What the nodes carry may be changed before or after leaving numbers out. -/
theorem bare_mapElements (f : Element → Element) (b : Branch) :
    (b.mapElements f).bare = b.bare.mapElements f := by
  induction b using induction with
  | step id e bs ih =>
    rw [mapElements_mk, bare_mk, bare_mk, mapElements_mk, List.map_map, List.map_map]
    exact congrArg (mk 0 (f e)) (List.map_congr_left ih)

end Branch

namespace Tree

variable {t t' : Tree}

/-- The slot of a branch is that of its node. -/
theorem id_branch (t : Tree) (id : NodeId) : (t.branch id).id = id := by
  unfold branch
  cases t.size <;> rfl

/-! ## The bound on the depth -/

/-- One step further up from where a walk ends. -/
theorem Forest.ancestor?_of_mem_children (h : t.Forest) {n : Nat} {id c top : Nat}
    (hn : t.ancestor? n id = some top) (hc : c ∈ t.children id) :
    t.ancestor? (n + 1) c = some top := by
  simp [ancestor?, h.mem_children_iff.1 hc, hn]

/-- A reading that is deep enough does not change when it may go deeper. -/
theorem Forest.branchTo_succ (h : t.Forest) {depth n : Nat} {id top : Nat}
    (hn : t.ancestor? n id = some top) (hdepth : t.size ≤ depth + n + 1) :
    t.branchTo (depth + 1) id = t.branchTo depth id := by
  induction depth generalizing n id with
  | zero =>
    -- a child would be too far from the top
    have hnone : t.children id = [] := by
      by_contra hne
      obtain ⟨c, hc⟩ := List.exists_mem_of_ne_nil _ hne
      have hlt := h.lt_size_of_ancestor? (h.child_lt hc) (h.ancestor?_of_mem_children hn hc)
      omega
    simp [branchTo, hnone]
  | succ depth ih =>
    have hchildren : (t.children id).map (t.branchTo (depth + 1)) =
        (t.children id).map (t.branchTo depth) :=
      List.map_congr_left fun c hc =>
        ih (h.ancestor?_of_mem_children hn hc) (by omega)
    rw [branchTo, hchildren, branchTo]

/-- Every reading at least as deep as there are slots gives the branch. -/
theorem Forest.branchTo_of_le (h : t.Forest) (id : NodeId) {depth : Nat}
    (hdepth : t.size ≤ depth) : t.branchTo depth id = t.branch id := by
  induction depth, hdepth using Nat.le_induction with
  | base => rfl
  | succ depth hdepth ih =>
    have hself : t.ancestor? 0 id = some id := rfl
    rw [h.branchTo_succ hself (by omega), ih]

/-- A branch is its top with the branches of the children. -/
theorem Forest.branch_eq (h : t.Forest) (id : NodeId) :
    t.branch id = .mk id (t.element id) ((t.children id).map t.branch) := by
  rw [← h.branchTo_of_le id (Nat.le_succ t.size)]
  rfl

/-- A walk up that may take as many steps as there are slots, or more, is the whole way. -/
theorem Forest.upwardFor_of_le (h : t.Forest) {id n : Nat} (hid : id < t.size)
    (hn : t.size ≤ n) : t.upwardFor n id = t.upward id := by
  have hstep : ∀ (m k id : Nat), ∀ top, t.ancestor? k id = some top → t.parent? top = none →
      k ≤ m → t.upwardFor (m + 1) id = t.upwardFor m id := by
    intro m
    induction m with
    | zero =>
      intro k id top hk htop hkm
      obtain rfl : k = 0 := by omega
      obtain rfl : id = top := by simpa [ancestor?] using hk
      simp [upwardFor, htop]
    | succ m ih =>
      intro k id top hk htop hkm
      rw [upwardFor, upwardFor]
      cases hp : t.parent? id with
      | none => rfl
      | some p =>
        cases k with
        | zero =>
          obtain rfl : id = top := by simpa [ancestor?] using hk
          rw [htop] at hp
          cases hp
        | succ k =>
          have hk' : t.ancestor? k p = some top := by simpa [ancestor?, hp] using hk
          simp only [ih k p top hk' htop (by omega)]
  obtain ⟨k, hk, top, hreach, htop⟩ := h.exists_top hid
  induction n, hn using Nat.le_induction with
  | base => rfl
  | succ n hn ih => rw [hstep n k id top hreach htop (by omega), ih]

/-- The topmost ancestor of a node has no parent. -/
theorem Forest.parent?_topOf (h : t.Forest) {id : Nat} (hid : id < t.size) :
    t.parent? (t.topOf id) = none := by
  have hlast : ∀ (m k id top d : Nat), t.ancestor? k id = some top → t.parent? top = none →
      k ≤ m → (t.upwardFor m id).getLastD d = top := by
    intro m
    induction m with
    | zero =>
      intro k id top d hk htop hkm
      obtain rfl : k = 0 := by omega
      simpa [ancestor?, upwardFor] using hk
    | succ m ih =>
      intro k id top d hk htop hkm
      unfold upwardFor
      cases k with
      | zero =>
        obtain rfl : id = top := by simpa [ancestor?] using hk
        simp [htop]
      | succ k =>
        obtain ⟨p, hp, hk'⟩ := Option.bind_eq_some_iff.1 hk
        simp only [hp]
        rw [List.getLastD_cons]
        exact ih k p top id hk' htop (by omega)
  obtain ⟨k, hk, top, hreach, htop⟩ := h.exists_top hid
  have htopOf : t.topOf id = top := hlast t.size k id top id hreach htop (by omega)
  rw [htopOf, htop]

/-- What holds of a node whenever it holds of its children holds of all nodes. -/
theorem Forest.down_induction (h : t.Forest) {P : Nat → Prop}
    (step : ∀ id : Nat, (∀ c ∈ t.children id, P c) → P id) (id : Nat) : P id := by
  have hall : ∀ (b : Branch) (id : Nat), t.branch id = b → P id := by
    intro b
    induction b using Branch.induction with
    | step i e bs ih =>
      intro id hb
      rw [h.branch_eq] at hb
      cases hb
      exact step _ fun c hc => ih (t.branch c) (List.mem_map_of_mem hc) c rfl
  exact hall (t.branch id) id rfl

/-! ## What is below a node -/

/-- A node below a slot that exists is in one. -/
theorem Above.lt_size {top x : Nat} (h : t.Above top x) (htop : top < t.size) : x < t.size := by
  cases h with
  | refl => exact htop
  | step hp _ => exact lt_size_of_parent? hp

/-- Above what is above is above. -/
theorem Above.trans {a b c : Nat} (hab : t.Above a b) (hbc : t.Above b c) : t.Above a c := by
  induction hbc with
  | refl => exact hab
  | step hp _ ih => exact .step hp ih

/-- Of two nodes above a third, one is above the other. -/
theorem Above.total {a b x : Nat} (ha : t.Above a x) (hb : t.Above b x) :
    t.Above a b ∨ t.Above b a := by
  induction ha with
  | refl => exact .inr hb
  | @step p x hp ha ih =>
    cases hb with
    | refl => exact .inl (.step hp ha)
    | step hp' hb =>
      obtain rfl : p = _ := Option.some.inj (hp.symm.trans hp')
      exact ih hb

/-- What is above a child and is not the child is above the parent. -/
theorem Above.parent {a p c : Nat} (h : t.Above a c) (hp : t.parent? c = some p) (hne : a ≠ c) :
    t.Above a p := by
  cases h with
  | refl => exact absurd rfl hne
  | step hp' h =>
    obtain rfl : p = _ := Option.some.inj (hp.symm.trans hp')
    exact h

/-- What is above a node and is another node is not below it. -/
theorem Forest.not_above_of_ne (h : t.Forest) {a x : Nat} (ha : t.Above a x) (hne : a ≠ x) :
    ¬ t.Above x a := by
  intro hx
  cases ha with
  | refl => exact hne rfl
  | step hp ha => exact h.not_above_parent hp (hx.trans ha)

/-- Nothing is below two children of one node. -/
theorem Forest.not_above_sibling (h : t.Forest) {p c d x : Nat} (hc : c ∈ t.children p)
    (hd : d ∈ t.children p) (hne : c ≠ d) (hcx : t.Above c x) : ¬ t.Above d x := by
  have hpc := h.mem_children_iff.1 hc
  have hpd := h.mem_children_iff.1 hd
  intro hdx
  rcases hcx.total hdx with hcd | hdc
  · exact h.not_above_parent hpc (hcd.parent hpd hne)
  · exact h.not_above_parent hpd (hdc.parent hpc (Ne.symm hne))

/-- The nodes below a node are the node and those below its children. -/
theorem Forest.above_iff (h : t.Forest) {id x : Nat} :
    t.Above id x ↔ x = id ∨ ∃ c ∈ t.children id, t.Above c x := by
  constructor
  · intro hx
    induction hx with
    | refl => exact .inl rfl
    | @step p x hp _ ih =>
      refine .inr ?_
      rcases ih with rfl | ⟨c, hc, hcp⟩
      · exact ⟨x, h.mem_children_iff.2 hp, .refl⟩
      · exact ⟨c, hc, .step hp hcp⟩
  · rintro (rfl | ⟨c, hc, hcx⟩)
    · exact .refl
    · exact Above.trans (.step (h.mem_children_iff.1 hc) .refl) hcx

/-- The slots of a branch are those below its top. -/
theorem Forest.mem_ids_branch (h : t.Forest) {id x : Nat} :
    x ∈ (t.branch id).ids ↔ t.Above id x := by
  induction id using h.down_induction with
  | step id ih =>
    rw [h.branch_eq, Branch.ids, List.mem_cons, Branch.mem_idsOfAll, h.above_iff]
    refine or_congr Iff.rfl ?_
    constructor
    · rintro ⟨b, hb, hx⟩
      obtain ⟨c, hc, rfl⟩ := List.mem_map.1 hb
      exact ⟨c, hc, (ih c hc).1 hx⟩
    · rintro ⟨c, hc, hx⟩
      exact ⟨t.branch c, List.mem_map_of_mem hc, (ih c hc).2 hx⟩

/-- No slot is twice in a branch. -/
theorem Forest.nodup_ids_branch (h : t.Forest) (id : Nat) : (t.branch id).ids.Nodup := by
  induction id using h.down_induction with
  | step id ih =>
    have hall : ∀ cs : List NodeId, cs ⊆ t.children id → cs.Nodup →
        (Branch.idsOfAll (cs.map t.branch)).Nodup := by
      intro cs hsub hnd
      induction cs with
      | nil => simp [Branch.idsOfAll]
      | cons c cs ihcs =>
        rw [List.map_cons, Branch.idsOfAll, List.nodup_append]
        obtain ⟨hc, hcs⟩ := List.nodup_cons.1 hnd
        refine ⟨ih c (hsub (by simp)), ihcs (fun d hd => hsub (by simp [hd])) hcs, ?_⟩
        rintro x hx y hy rfl
        obtain ⟨b, hb, hxb⟩ := Branch.mem_idsOfAll.1 hy
        obtain ⟨d, hd, rfl⟩ := List.mem_map.1 hb
        have hne : c ≠ d := fun he => hc (he ▸ hd)
        exact h.not_above_sibling (hsub (by simp)) (hsub (by simp [hd])) hne
          (h.mem_ids_branch.1 hx) (h.mem_ids_branch.1 hxb)
    rw [h.branch_eq, Branch.ids, List.nodup_cons]
    refine ⟨fun hid => ?_, hall _ (fun _ hc => hc) (h.nodup_children id)⟩
    -- the top would be below one of its children
    obtain ⟨b, hb, hidb⟩ := Branch.mem_idsOfAll.1 hid
    obtain ⟨c, hc, rfl⟩ := List.mem_map.1 hb
    exact h.not_above_parent (h.mem_children_iff.1 hc) (h.mem_ids_branch.1 hidb)

/-- A branch depends on the slots below its top only. -/
theorem Forest.branch_congr (h : t.Forest) (h' : t'.Forest) {id : Nat}
    (hsame : ∀ x : Nat, t.Above id x →
      t'.element x = t.element x ∧ t'.children x = t.children x) :
    t'.branch id = t.branch id := by
  induction id using h.down_induction with
  | step id ih =>
    obtain ⟨he, hc⟩ := hsame id .refl
    rw [h'.branch_eq, h.branch_eq, he, hc]
    refine congrArg (Branch.mk id _) (List.map_congr_left fun c hcm => ih c hcm fun x hx => ?_)
    exact hsame x (h.above_iff.2 (.inr ⟨c, hcm, hx⟩))

/-- A branch in which only what the nodes carry was changed. -/
theorem Forest.branch_eq_mapElements (h : t.Forest) (h' : t'.Forest) {f : Element → Element}
    {id : Nat} (hsame : ∀ x : Nat, t.Above id x →
      t'.element x = f (t.element x) ∧ t'.children x = t.children x) :
    t'.branch id = (t.branch id).mapElements f := by
  induction id using h.down_induction with
  | step id ih =>
    obtain ⟨he, hc⟩ := hsame id .refl
    rw [h'.branch_eq, h.branch_eq, Branch.mapElements_mk, he, hc, List.map_map]
    refine congrArg (Branch.mk id _) (List.map_congr_left fun c hcm => ih c hcm fun x hx => ?_)
    exact hsame x (h.above_iff.2 (.inr ⟨c, hcm, hx⟩))

/-! ## Changes of several elements -/

/-- Changes of what some nodes carry leave the children of all. -/
@[simp]
theorem children_foldl_modifyElement (f : Element → Element) (ids : List NodeId) (x : Nat) :
    (ids.foldl (fun t id => t.modifyElement id f) t).children x = t.children x := by
  induction ids generalizing t with
  | nil => rfl
  | cons id ids ih => rw [List.foldl_cons, ih, children_modifyElement]

/-- Changes of what some nodes carry leave the parents of all. -/
@[simp]
theorem parent?_foldl_modifyElement (f : Element → Element) (ids : List NodeId) (x : Nat) :
    (ids.foldl (fun t id => t.modifyElement id f) t).parent? x = t.parent? x := by
  induction ids generalizing t with
  | nil => rfl
  | cons id ids ih => rw [List.foldl_cons, ih, parent?_modifyElement]

/-- Changes of what some nodes carry add no slot. -/
@[simp]
theorem size_foldl_modifyElement (f : Element → Element) (ids : List NodeId) :
    (ids.foldl (fun t id => t.modifyElement id f) t).size = t.size := by
  induction ids generalizing t with
  | nil => rfl
  | cons id ids ih => rw [List.foldl_cons, ih, size_modifyElement]

/-- Changes of what some nodes carry are seen at these nodes only. -/
theorem element_foldl_modifyElement (f : Element → Element) {ids : List NodeId}
    (hnd : ids.Nodup) (x : Nat) :
    (ids.foldl (fun t id => t.modifyElement id f) t).element x =
      if x ∈ ids ∧ x < t.size then f (t.element x) else t.element x := by
  induction ids generalizing t with
  | nil => simp
  | cons id ids ih =>
    obtain ⟨hid, hnd⟩ := List.nodup_cons.1 hnd
    rw [List.foldl_cons, ih hnd, size_modifyElement, element_modifyElement]
    by_cases hx : x = id
    · subst hx
      simp [hid]
    · simp [hx]

/-! ## Copies -/

/-- What a layout holds is the branch that was laid out. -/
theorem Forest.bare_branch_of_holdsAt (h : t.Forest) {b : Branch} {base : Nat}
    {q : Option NodeId} (hb : t.HoldsAt base (b.layout base q)) :
    (t.branch base).bare = b.bare := by
  refine (Branch.mutualInduction
    (P := fun b => ∀ (base : Nat) q, t.HoldsAt base (b.layout base q) →
      (t.branch base).bare = b.bare)
    (Q := fun bs => ∀ next parent : Nat, t.HoldsAt next (Branch.layoutAll next parent bs) →
      (Branch.starts next bs).map (fun id => (t.branch id).bare) = bs.map Branch.bare)
    ?_ ?_ ?_).1 b base q hb
  · intro id e bs ih base q hb
    rw [Branch.layout, holdsAt_cons] at hb
    have he : t.element base = e := by simp [Tree.element, hb.1]
    have hc : t.children base = Branch.starts (base + 1) bs := by simp [Tree.children, hb.1]
    rw [h.branch_eq, Branch.bare_mk, Branch.bare_mk, he, hc, List.map_map]
    exact congrArg (Branch.mk 0 e) (ih (base + 1) base hb.2)
  · intro next parent _
    rfl
  · intro b bs ihb ihbs next parent hb
    rw [Branch.layoutAll, holdsAt_append, length_layout] at hb
    rw [Branch.starts, List.map_cons, List.map_cons, ihb next _ hb.1, ihbs _ _ hb.2]

/-- The branch at a copy is the one that was copied. -/
theorem Forest.bare_branch_addCopy (h : t.Forest) (b : Branch) :
    ((t.addCopy b).1.branch t.size).bare = b.bare :=
  (h.addCopy b).bare_branch_of_holdsAt (holdsAt_addCopy t b)

end Tree

end Netconf
