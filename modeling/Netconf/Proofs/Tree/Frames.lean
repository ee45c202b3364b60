import Mathlib.Data.List.Find
import Netconf.Proofs.Tree.Branches
import Netconf.Proofs.Tree.Growth

/-!
# Changes below a node

`Tree.content` are the branches below a node, without the numbers of their slots. A change that is
*confined* to what is below a node leaves the node itself, its place and everything elsewhere
(`Confined`), so that what it does to the content of the node is all there is to know about it.
Each way of changing the children of a node is described in this form, and a change of what is below
a child changes the branch of that child in the content of its parent
(`Confined.content_of_child`).
-/

namespace Netconf.Tree

variable {t t' t'' : Tree}

/-- The branches below a node, without the numbers of their slots. -/
def content (t : Tree) (p : NodeId) : List Branch := (t.children p).map fun c => (t.branch c).bare

/-- A branch without numbers is its top with its content. -/
theorem Forest.bare_branch (h : t.Forest) (p : NodeId) :
    (t.branch p).bare = .mk 0 (t.element p) (t.content p) := by
  rw [h.branch_eq, Branch.bare_mk, List.map_map]
  rfl

/-- The content of a node is its children without numbers. -/
theorem Forest.content_eq (h : t.Forest) (p : NodeId) :
    t.content p = (t.branch p).children.map Branch.bare := by
  rw [← Branch.children_bare, h.bare_branch, Branch.children]

/-- The top of a branch is its node. -/
theorem Forest.element_branch (h : t.Forest) (p : NodeId) : (t.branch p).element = t.element p := by
  rw [h.branch_eq, Branch.element]

/-- A node of a forest has the entry of its branch. -/
theorem Forest.entry_bare_branch (h : t.Forest) (c : Nat) :
    (t.branch c).bare.entry = t.entry c := by
  rw [Branch.entry_bare, h.branch_eq, Branch.entry, entry, Branch.element, Branch.children,
    List.map_map]
  refine congrArg (Entry.mk _) (List.map_congr_left fun d _ => ?_)
  rw [Function.comp_apply, h.branch_eq, Branch.element]

/-- The entry of a branch is that of its node. -/
theorem Forest.entry_branch (h : t.Forest) (c : NodeId) : (t.branch c).entry = t.entry c := by
  rw [← Branch.entry_bare, h.entry_bare_branch]

/-- Looking for a child by its entry is looking for its branch in the content. -/
theorem Forest.find?_children (h : t.Forest) (f : Entry → Bool) (p : Nat) :
    (t.children p).find? (fun c => f (t.entry c)) =
      (t.children p).find? fun c => f (t.branch c).bare.entry :=
  List.find?_congr fun c _ => by rw [h.entry_bare_branch]

/-- The first branch of the content with some entry is that of the first such child. -/
theorem Forest.exists_child (h : t.Forest) {p : Nat} {f : Entry → Bool} {c : Branch}
    {pre post : List Branch} (hsplit : t.content p = pre ++ c :: post) (hc : f c.entry = true)
    (hpre : ∀ d ∈ pre, f d.entry = false) :
    ∃ (left right : List NodeId) (x : Nat), t.children p = left ++ x :: right ∧
      pre = left.map (fun d => (t.branch d).bare) ∧ c = (t.branch x).bare ∧
      post = right.map (fun d => (t.branch d).bare) ∧
      (t.children p).find? (fun d => f (t.entry d)) = some x := by
  obtain ⟨left, more, hchildren, rfl, hmore⟩ := List.map_eq_append_iff.1 hsplit
  obtain ⟨x, right, rfl, rfl, rfl⟩ := List.map_eq_cons_iff.1 hmore
  refine ⟨left, right, x, hchildren, rfl, rfl, rfl, ?_⟩
  have hleft : left.find? (fun d => f (t.branch d).bare.entry) = none :=
    List.find?_eq_none.2 fun d hd => by simpa using hpre _ (List.mem_map_of_mem hd)
  rw [h.find?_children, hchildren, List.find?_append, hleft, Option.none_or]
  exact List.find?_cons_of_pos hc

/-- When no branch of the content has some entry, no child has it. -/
theorem Forest.find?_children_eq_none (h : t.Forest) {p : Nat} {f : Entry → Bool}
    (hnone : ∀ d ∈ t.content p, f d.entry = false) :
    (t.children p).find? (fun d => f (t.entry d)) = none := by
  rw [h.find?_children, List.find?_eq_none]
  intro d hd
  have hd' : (t.branch d).bare ∈ t.content p :=
    List.mem_map_of_mem (f := fun c => (t.branch c).bare) hd
  simpa using hnone _ hd'

/-! ## Trees that are kept -/

/-- The forest `t'` has the slots of `t` as they were. -/
structure Keeps (t t' : Tree) : Prop where
  /-- The links are those of a forest. -/
  forest : t'.Forest
  /-- No slot is gone. -/
  size_le : t.size ≤ t'.size
  /-- The old slots carry what they carried. -/
  element : ∀ x < t.size, t'.element x = t.element x
  /-- The old slots have their children. -/
  children : ∀ x < t.size, t'.children x = t.children x
  /-- The old slots have their parents. -/
  parent? : ∀ x < t.size, t'.parent? x = t.parent? x

/-- A forest keeps itself. -/
theorem Forest.keeps (h : t.Forest) : t.Keeps t :=
  ⟨h, Nat.le_refl _, fun _ _ => rfl, fun _ _ => rfl, fun _ _ => rfl⟩

/-- A copy keeps a forest. -/
theorem Forest.keeps_addCopy (h : t.Forest) (b : Branch) : t.Keeps (t.addCopy b).1 :=
  ⟨h.addCopy b, by simp, fun _ => element_addCopy_of_lt b, fun _ => children_addCopy_of_lt b,
    fun _ => parent?_addCopy_of_lt b⟩

/-- A new node keeps a forest. -/
theorem Forest.keeps_create (h : t.Forest) (e : Element) : t.Keeps (t.create e).1 where
  forest := h.create e
  size_le := by simp [Tree.create]
  element x hx := by rw [element_create, if_neg (Nat.ne_of_lt hx)]
  children x _ := children_create e x
  parent? x _ := parent?_create e x

/-- Changes of what new nodes carry keep a forest. -/
theorem Forest.keeps_foldl_modifyElement (h : t'.Forest) (hk : t.Keeps t')
    (f : Element → Element) {ids : List NodeId} (hnd : ids.Nodup)
    (hnew : ∀ id : Nat, id ∈ ids → t.size ≤ id) :
    t.Keeps (ids.foldl (fun t id => t.modifyElement id f) t') where
  forest := (h.of_links (fun x => parent?_foldl_modifyElement f ids x)
    fun x => children_foldl_modifyElement f ids x)
  size_le := by rw [size_foldl_modifyElement]; exact hk.size_le
  element x hx := by
    rw [element_foldl_modifyElement f hnd, if_neg, hk.element x hx]
    exact fun hm => absurd (hnew x hm.1) (Nat.not_le.2 hx)
  children x hx := by rw [children_foldl_modifyElement, hk.children x hx]
  parent? x hx := by rw [parent?_foldl_modifyElement, hk.parent? x hx]

/-- What is above an old node is what was above it. -/
theorem Keeps.above (hk : t.Keeps t') (h : t.Forest) {a x : Nat} (hx : x < t.size)
    (ha : t'.Above a x) : t.Above a x := by
  induction ha with
  | refl => exact .refl
  | step hp _ ih =>
    rw [hk.parent? _ hx] at hp
    exact .step hp (ih (h.parent_lt hp))

/-- The old branches are as they were. -/
theorem Keeps.branch (hk : t.Keeps t') (h : t.Forest) {x : Nat} (hx : x < t.size) :
    t'.branch x = t.branch x :=
  h.branch_congr hk.forest fun y hy =>
    ⟨hk.element y (hy.lt_size hx), hk.children y (hy.lt_size hx)⟩

/-! ## Confined changes -/

/-- The forest `t'` has the slots of `t`, and differs from it at most in what is below `top`. -/
structure Confined (t : Tree) (top : Nat) (t' : Tree) : Prop where
  /-- The links are those of a forest. -/
  forest : t'.Forest
  /-- No slot is gone. -/
  size_le : t.size ≤ t'.size
  /-- What is not below the node carries what it carried. -/
  element : ∀ x < t.size, ¬ t.Above top x → t'.element x = t.element x
  /-- What is not below the node has its children. -/
  children : ∀ x < t.size, ¬ t.Above top x → t'.children x = t.children x
  /-- What is not below the node has its parent. -/
  parent? : ∀ x < t.size, ¬ t.Above top x → t'.parent? x = t.parent? x
  /-- The node itself carries what it carried. -/
  element_top : t'.element top = t.element top
  /-- The node itself has its parent. -/
  parent?_top : t'.parent? top = t.parent? top

/-- What keeps a forest is confined to what is below any of its nodes. -/
theorem Keeps.confined (hk : t.Keeps t') {top : Nat} (htop : top < t.size) : t.Confined top t' :=
  ⟨hk.forest, hk.size_le, fun x hx _ => hk.element x hx, fun x hx _ => hk.children x hx,
    fun x hx _ => hk.parent? x hx, hk.element top htop, hk.parent? top htop⟩

/-- A slot stays in range. -/
theorem Confined.lt {top x : Nat} (h : t.Confined top t') (hx : x < t.size) : x < t'.size :=
  Nat.lt_of_lt_of_le hx h.size_le

/-- What was not below the node is not below it afterwards. -/
theorem Confined.not_above (hc : t.Confined top t') (h : t.Forest) {x : Nat} (hx : x < t.size)
    (hnot : ¬ t.Above top x) : ¬ t'.Above top x := by
  intro ha
  induction ha with
  | refl => exact hnot .refl
  | step hp _ ih =>
    rw [hc.parent? _ hx hnot] at hp
    exact ih (h.parent_lt hp) fun hap => hnot (.step hp hap)

/-- Two changes confined to what is below a node are one. -/
theorem Confined.trans {top : Nat} (hc : t.Confined top t') (h : t.Forest)
    (hc' : t'.Confined top t'') : t.Confined top t'' where
  forest := hc'.forest
  size_le := Nat.le_trans hc.size_le hc'.size_le
  element x hx hnot :=
    (hc'.element x (hc.lt hx) (hc.not_above h hx hnot)).trans (hc.element x hx hnot)
  children x hx hnot :=
    (hc'.children x (hc.lt hx) (hc.not_above h hx hnot)).trans (hc.children x hx hnot)
  parent? x hx hnot :=
    (hc'.parent? x (hc.lt hx) (hc.not_above h hx hnot)).trans (hc.parent? x hx hnot)
  element_top := hc'.element_top.trans hc.element_top
  parent?_top := hc'.parent?_top.trans hc.parent?_top

/-- What is confined to what is below a child is confined to what is below its parent. -/
theorem Confined.of_child {p c : Nat} (hc : t.Confined c t') (h : t.Forest)
    (hcp : c ∈ t.children p) : t.Confined p t' := by
  have hp := h.mem_children_iff.1 hcp
  have hlt := h.parent_lt hp
  have hnotp : ¬ t.Above c p := h.not_above_parent hp
  have hnot : ∀ x, ¬ t.Above p x → ¬ t.Above c x := fun x hx hcx =>
    hx (Above.trans (.step hp .refl) hcx)
  exact ⟨hc.forest, hc.size_le, fun x hx hpx => hc.element x hx (hnot x hpx),
    fun x hx hpx => hc.children x hx (hnot x hpx), fun x hx hpx => hc.parent? x hx (hnot x hpx),
    hc.element p hlt hnotp, hc.parent? p hlt hnotp⟩

/-- A branch elsewhere is as it was. -/
theorem Confined.branch_of_disjoint {top x : Nat} (hc : t.Confined top t') (h : t.Forest)
    (hx : x < t.size) (hdis : ∀ y, t.Above x y → ¬ t.Above top y) : t'.branch x = t.branch x :=
  h.branch_congr hc.forest fun y hy =>
    ⟨hc.element y (hy.lt_size hx) (hdis y hy), hc.children y (hy.lt_size hx) (hdis y hy)⟩

/-- The other children of a node, around one of them. -/
theorem Forest.of_split (h : t.Forest) {p c : Nat} {pre post : List NodeId}
    (hsplit : t.children p = pre ++ c :: post) :
    c ∈ t.children p ∧ (∀ d ∈ pre, d ∈ t.children p ∧ d ≠ c) ∧
      ∀ d ∈ post, d ∈ t.children p ∧ d ≠ c := by
  have hnd := h.nodup_children p
  rw [hsplit, List.nodup_middle, List.nodup_cons, List.mem_append, not_or] at hnd
  obtain ⟨⟨hpre, hpost⟩, -⟩ := hnd
  rw [hsplit]
  exact ⟨by simp, fun d hd => ⟨by simp [hd], fun he => hpre (he ▸ hd)⟩,
    fun d hd => ⟨by simp [hd], fun he => hpost (he ▸ hd)⟩⟩

/-- What is changed below a child is changed at its place in the content of the parent. -/
theorem Confined.content_of_child {p c : Nat} {pre post : List NodeId} (hc : t.Confined c t')
    (h : t.Forest) (hsplit : t.children p = pre ++ c :: post) :
    t'.content p = pre.map (fun d => (t.branch d).bare) ++
      .mk 0 (t.element c) (t'.content c) :: post.map (fun d => (t.branch d).bare) := by
  obtain ⟨hcp, hpre, hpost⟩ := h.of_split hsplit
  have hp := h.mem_children_iff.1 hcp
  have hother : ∀ d, d ∈ t.children p ∧ d ≠ c → (t'.branch d).bare = (t.branch d).bare :=
    fun d hd => by
      rw [hc.branch_of_disjoint h (h.child_lt hd.1) fun y hdy hcy =>
        h.not_above_sibling hd.1 hcp hd.2 hdy hcy]
  unfold content
  rw [hc.children p (h.parent_lt hp) (h.not_above_parent hp), hsplit, List.map_append,
    List.map_cons, hc.forest.bare_branch c, hc.element_top,
    List.map_congr_left fun d hd => hother d (hpre d hd),
    List.map_congr_left fun d hd => hother d (hpost d hd)]
  rfl

/-- A change that leaves the content of the node leaves what is around it, the numbers of slots
apart. -/
theorem Confined.bare_branch {top x : Nat} (hc : t.Confined top t') (h : t.Forest)
    (hcontent : t'.content top = t.content top) (hx : x < t.size)
    (hout : x = top ∨ ¬ t.Above top x) : (t'.branch x).bare = (t.branch x).bare := by
  induction x using h.down_induction with
  | step x ih =>
    rw [h.bare_branch, hc.forest.bare_branch]
    rcases hout with rfl | hnot
    · rw [hc.element_top, hcontent]
    · have hbelow : ∀ c ∈ t.children x, (t'.branch c).bare = (t.branch c).bare := by
        intro c hcx
        refine ih c hcx (h.child_lt hcx) ?_
        by_cases heq : c = top
        · exact .inl heq
        · exact .inr fun habove => hnot (habove.parent (h.mem_children_iff.1 hcx) (Ne.symm heq))
      rw [hc.element x hx hnot, content, content, hc.children x hx hnot,
        List.map_congr_left hbelow]

/-! ## Changes of the children of a node -/

/-- A new node that stands alone can be put among the children of an old one. -/
theorem Keeps.exists_insertAt (hk : t.Keeps t') (h : t.Forest) {p c : Nat} (hp : p < t.size)
    (hnew : t.size ≤ c) (hc : c < t'.size) (halone : t'.parent? c = none) (index : Nat) :
    ∃ t'', t'.insertAt p c index = .ok t'' ∧ t.Confined p t'' ∧
      t''.children p = (t.children p).insertIdx (min index (t.children p).length) c ∧
      t''.content p =
        (t.content p).insertIdx (min index (t.content p).length) (t'.branch c).bare := by
  have hnot : ∀ x < t.size, ¬ t'.Above c x := fun x hx ha =>
    absurd (h.lt_size_of_above hx (hk.above h hx ha)) (Nat.not_lt.2 hnew)
  have habove : t'.isAtOrAbove c p = false := by
    rw [Bool.eq_false_iff, ne_eq, hk.forest.isAtOrAbove_iff]
    exact hnot p hp
  obtain ⟨t'', ht''⟩ := Tree.exists_insertAt index halone habove
  have hins := inserted_of_insertAt (Nat.lt_of_lt_of_le hp hk.size_le) hc ht''
  have hforest := hins.forest hk.forest
  have hne : ∀ x < t.size, x ≠ c := fun x hx he => absurd hx (by omega)
  have hother : ∀ x < t.size, ¬ t.Above p x → x ≠ p := fun x _ hx he => hx (he ▸ .refl)
  have hbranch : ∀ d : Nat, ¬ t'.Above d p → t''.branch d = t'.branch d := fun d hd =>
    hk.forest.branch_congr hforest fun x hx => ⟨hins.element x, by
      rw [hins.children, if_neg]
      rintro rfl
      exact hd hx⟩
  refine ⟨t'', ht'', ⟨hforest, ?_, ?_, ?_, ?_, ?_, ?_⟩, ?_, ?_⟩
  · rw [hins.size]; exact hk.size_le
  · intro x hx _
    rw [hins.element, hk.element x hx]
  · intro x hx hnp
    rw [hins.children, if_neg (hother x hx hnp), hk.children x hx]
  · intro x hx hnp
    rw [hins.parent?, if_neg (hne x hx), hk.parent? x hx]
  · rw [hins.element, hk.element p hp]
  · rw [hins.parent?, if_neg (hne p hp), hk.parent? p hp]
  · rw [hins.children, if_pos rfl, hk.children p hp]
  · have hold : ∀ d ∈ t.children p, (t''.branch d).bare = (t.branch d).bare := fun d hd => by
      have hd' : t'.parent? d = some p := by
        rw [← hk.forest.mem_children_iff, hk.children p hp]; exact hd
      rw [hbranch d (hk.forest.not_above_parent hd'), hk.branch h (h.child_lt hd)]
    unfold Tree.content
    rw [hins.children, if_pos rfl, hk.children p hp, List.map_insertIdx, hbranch c (hnot p hp),
      List.map_congr_left hold, List.length_map]

/-- Taking a child away leaves the children of other nodes. -/
theorem Forest.children_detach_of_ne (h : t.Forest) {p c : Nat} (hc : t.parent? c = some p)
    {x : Nat} (hx : x ≠ p) : (t.detach c).children x = t.children x := by
  rw [h.children_detach, List.filter_eq_self]
  intro d hd
  simp only [bne_iff_ne]
  rintro rfl
  exact hx (Option.some.inj ((h.mem_children_iff.1 hd).symm.trans hc))

/-- Taking a child away leaves those in front of it and behind it. -/
theorem Forest.children_detach_of_split (h : t.Forest) {p c : Nat} {pre post : List NodeId}
    (hsplit : t.children p = pre ++ c :: post) : (t.detach c).children p = pre ++ post := by
  obtain ⟨-, hpre, hpost⟩ := h.of_split hsplit
  have hleft : ∀ d ∈ pre, (d != c) = true := fun d hd => by simpa using (hpre d hd).2
  have hright : ∀ d ∈ post, (d != c) = true := fun d hd => by simpa using (hpost d hd).2
  rw [h.children_detach, hsplit, List.filter_append, List.filter_cons_of_neg (by simp),
    List.filter_eq_self.2 hleft, List.filter_eq_self.2 hright]

/-- Taking a child away takes its branch out of the content. -/
theorem Forest.confined_detach (h : t.Forest) {p c : Nat} {pre post : List NodeId}
    (hsplit : t.children p = pre ++ c :: post) :
    t.Confined p (t.detach c) ∧
      (t.detach c).content p = (pre ++ post).map fun d => (t.branch d).bare := by
  obtain ⟨hcp, hpre, hpost⟩ := h.of_split hsplit
  have hp := h.mem_children_iff.1 hcp
  have hforest := h.detach c
  refine ⟨⟨hforest, by simp, fun x _ _ => by simp, fun x _ hx => h.children_detach_of_ne hp ?_, ?_,
    by simp, ?_⟩, ?_⟩
  · rintro rfl
    exact hx .refl
  · intro x _ hx
    rw [parent?_detach, if_neg]
    rintro rfl
    exact hx (.step hp .refl)
  · rw [parent?_detach, if_neg]
    rintro rfl
    exact h.not_above_parent hp .refl
  · unfold content
    rw [h.children_detach_of_split hsplit]
    refine List.map_congr_left fun d hd => congrArg Branch.bare ?_
    refine h.branch_congr hforest fun x hx => ?_
    refine ⟨by simp, h.children_detach_of_ne hp ?_⟩
    rintro rfl
    have hdp : d ∈ t.children x := by
      rcases List.mem_append.1 hd with hd | hd
      · exact (hpre d hd).1
      · exact (hpost d hd).1
    exact h.not_above_parent (h.mem_children_iff.1 hdp) hx

/-- A change of what a child carries is seen at its place in the content. -/
theorem Forest.confined_modifyElement (h : t.Forest) {p c : Nat} {pre post : List NodeId}
    (hsplit : t.children p = pre ++ c :: post) (f : Element → Element) :
    t.Confined p (t.modifyElement c f) ∧
      (t.modifyElement c f).content p = pre.map (fun d => (t.branch d).bare) ++
        .mk 0 (f (t.element c)) (t.content c) :: post.map (fun d => (t.branch d).bare) := by
  obtain ⟨hcp, hpre, hpost⟩ := h.of_split hsplit
  have hp := h.mem_children_iff.1 hcp
  have hforest := h.modifyElement c f
  have helement : ∀ x, x ≠ c → (t.modifyElement c f).element x = t.element x := fun x hx => by
    rw [element_modifyElement, if_neg fun he => hx he.1]
  have hpc : p ≠ c := by
    rintro rfl
    exact h.not_above_parent hp .refl
  have hbranch : ∀ d : Nat, ¬ t.Above d c → (t.modifyElement c f).branch d = t.branch d :=
    fun d hd => h.branch_congr hforest fun x hx => ⟨helement x fun he => hd (he ▸ hx), by simp⟩
  have hsibling : ∀ d, d ∈ t.children p ∧ d ≠ c →
      ((t.modifyElement c f).branch d).bare = (t.branch d).bare := fun d hd => by
    rw [hbranch d fun hdc => h.not_above_sibling hcp hd.1 (Ne.symm hd.2) .refl hdc]
  refine ⟨⟨hforest, by simp, fun x _ hx => helement x ?_, fun x _ _ => by simp,
    fun x _ _ => by simp, helement p hpc, by simp⟩, ?_⟩
  · rintro rfl
    exact hx (.step hp .refl)
  · have hbelow : (t.modifyElement c f).content c = t.content c := by
      unfold content
      rw [children_modifyElement]
      refine List.map_congr_left fun d hd => ?_
      rw [hbranch d (h.not_above_parent (h.mem_children_iff.1 hd))]
    unfold content at hbelow ⊢
    rw [children_modifyElement, hsplit, List.map_append, List.map_cons,
      List.map_congr_left fun d hd => hsibling d (hpre d hd),
      List.map_congr_left fun d hd => hsibling d (hpost d hd), hforest.bare_branch c,
      element_modifyElement,
      if_pos ⟨rfl, lt_size_of_parent? hp⟩]
    unfold content
    rw [hbelow]

/-! ## Fresh copies -/

/-- The forest `t'` keeps `t` and has besides a copy of a branch, which stands alone at `copy`. -/
structure Copied (t : Tree) (b : Branch) (copy : Nat) (t' : Tree) : Prop where
  /-- The old slots are as they were. -/
  keeps : t.Keeps t'
  /-- The copy is in a new slot. -/
  size_le : t.size ≤ copy
  /-- The copy is in a slot that exists. -/
  lt_size : copy < t'.size
  /-- The copy stands alone. -/
  alone : t'.parent? copy = none
  /-- The branch at the copy is the one that was copied. -/
  branch : (t'.branch copy).bare = b.bare

/-- A copy is a copy. -/
theorem Forest.copied (h : t.Forest) (b : Branch) :
    t.Copied b (t.addCopy b).2 (t.addCopy b).1 :=
  ⟨h.keeps_addCopy b, Nat.le_refl _, lt_size_addCopy b, parent?_addCopy t b,
    h.bare_branch_addCopy b⟩

/-- Changes of what the nodes of a copy carry are changes of the branch that was copied. -/
theorem Copied.mapElements {b : Branch} {copy : Nat} (hb : t.Copied b copy t') (h : t.Forest)
    (f : Element → Element) :
    t.Copied (b.mapElements f) copy
      ((t'.branch copy).ids.foldl (fun t id => t.modifyElement id f) t') := by
  have hforest := hb.keeps.forest
  have hnd := hforest.nodup_ids_branch copy
  have hnew : ∀ id : Nat, id ∈ (t'.branch copy).ids → t.size ≤ id := by
    intro id hid
    by_contra hlt
    have hold := hb.keeps.above h (Nat.not_le.1 hlt) (hforest.mem_ids_branch.1 hid)
    exact absurd (h.lt_size_of_above (Nat.not_le.1 hlt) hold) (Nat.not_lt.2 hb.size_le)
  have hkeeps := hforest.keeps_foldl_modifyElement hb.keeps f hnd hnew
  refine ⟨hkeeps, hb.size_le, by rw [size_foldl_modifyElement]; exact hb.lt_size, ?_, ?_⟩
  · rw [parent?_foldl_modifyElement]
    exact hb.alone
  · rw [hforest.branch_eq_mapElements hkeeps.forest (f := f) fun x hx => ⟨?_, by simp⟩,
      Branch.bare_mapElements, hb.branch, Branch.bare_mapElements]
    rw [element_foldl_modifyElement f hnd, if_pos]
    exact ⟨hforest.mem_ids_branch.2 hx, hx.lt_size hb.lt_size⟩

/-- A change of what the top of a copy carries. -/
theorem Copied.modifyElement {b : Branch} {copy : Nat} (hb : t.Copied b copy t')
    (f : Element → Element) :
    t.Copied (.mk b.id (f b.element) b.children) copy (t'.modifyElement copy f) := by
  have hforest := hb.keeps.forest.modifyElement copy f
  have hne : ∀ x : Nat, x < t.size → x ≠ copy := fun x hx he =>
    absurd hx (Nat.not_lt.2 (he ▸ hb.size_le))
  refine ⟨⟨hforest, ?_, ?_, ?_, ?_⟩, hb.size_le, by simpa using hb.lt_size, by simpa using hb.alone,
    ?_⟩
  · rw [size_modifyElement]
    exact hb.keeps.size_le
  · intro x hx
    rw [element_modifyElement, if_neg fun he => hne x hx he.1, hb.keeps.element x hx]
  · intro x hx
    rw [children_modifyElement, hb.keeps.children x hx]
  · intro x hx
    rw [parent?_modifyElement, hb.keeps.parent? x hx]
  · have hbelow : ∀ c ∈ t'.children copy, (t'.modifyElement copy f).branch c = t'.branch c :=
      fun c hc => hb.keeps.forest.branch_congr hforest fun x hx => by
        refine ⟨?_, by simp⟩
        rw [element_modifyElement, if_neg]
        rintro ⟨rfl, -⟩
        exact hb.keeps.forest.not_above_parent (hb.keeps.forest.mem_children_iff.1 hc) hx
    have hold := hb.branch
    obtain ⟨id, e, bs⟩ := b
    rw [hb.keeps.forest.branch_eq, Branch.bare_mk, Branch.bare_mk, Branch.mk.injEq] at hold
    obtain ⟨-, he, hbs⟩ := hold
    rw [hforest.branch_eq, Branch.bare_mk, element_modifyElement, if_pos ⟨rfl, hb.lt_size⟩,
      children_modifyElement, List.map_congr_left hbelow, he, hbs, Branch.bare_mk]
    rfl

/-- A copy can be put behind the children of an old node. -/
theorem Copied.ensures_append {b : Branch} {copy p : Nat} (hb : t.Copied b copy t')
    (h : t.Forest) (hp : p < t.size) :
    Build.Ensures (Build.append p copy) t'
      (fun _ t'' => t.Confined p t'' ∧ t''.children p = t.children p ++ [copy] ∧
        t''.content p = t.content p ++ [b.bare])
      fun _ => False := by
  obtain ⟨t'', hok, hconf, hchildren, hcontent⟩ :=
    hb.keeps.exists_insertAt h hp hb.size_le hb.lt_size
    hb.alone (t'.children p).length
  have hlen : (t'.children p).length = (t.content p).length := by
    rw [hb.keeps.children p hp, content, List.length_map]
  rw [hlen, Nat.min_self, List.insertIdx_length_self, hb.branch] at hcontent
  rw [hb.keeps.children p hp, Nat.min_self, List.insertIdx_length_self] at hchildren
  refine Build.ensures_attempt (fun t₃ ht₃ => ?_) fun e he => ?_
  · have heq : t'' = t₃ := Except.ok.inj (hok.symm.trans ht₃)
    subst heq
    exact ⟨hconf, hchildren, hcontent⟩
  · cases hok.symm.trans he

end Netconf.Tree
