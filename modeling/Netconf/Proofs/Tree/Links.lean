import Netconf.Proofs.Tree.Forest

/-!
# Changes of links

Four ways of writing make all others: a new node that stands alone, a node put among the children of
another, a node taken away from its parent, and a copy. Each is described by what it does to the
parents and children of every slot, and each keeps a forest a forest. For a node that is put
somewhere this is where the refusal of `Tree.insertAt` counts: a node that is not above its new
parent closes no cycle.
-/

namespace Netconf.Tree

variable {t t' : Tree}

/-! ## New nodes -/

/-- A new node has no parent, and the others have theirs. -/
@[simp]
theorem parent?_create (e : Element) (x : Nat) : (t.create e).1.parent? x = t.parent? x := by
  simp only [parent?, create, node_push]
  split
  · next h => rw [h, node_of_size_le (Nat.le_refl _)]
  · rfl

/-- A new node has no children, and the others have theirs. -/
@[simp]
theorem children_create (e : Element) (x : Nat) :
    (t.create e).1.children x = t.children x := by
  simp only [children, create, node_push]
  split
  · next h => rw [h, node_of_size_le (Nat.le_refl _)]
  · rfl

/-- A new node carries what it was made with. -/
theorem element_create (e : Element) (x : Nat) :
    (t.create e).1.element x = if x = t.size then e else t.element x := by
  simp only [element, create, node_push]
  split <;> rfl

/-- Two trees with the same links are forests together. -/
theorem Forest.of_links (h : t.Forest) (hparent : ∀ x, t'.parent? x = t.parent? x)
    (hchildren : ∀ x, t'.children x = t.children x) : t'.Forest where
  count_children p c := by rw [hchildren, hparent, h.count_children]
  acyclic := by
    have heq : t'.ParentOf = t.ParentOf := by
      funext p c
      simp only [ParentOf, hparent]
    rw [heq]
    exact h.acyclic

/-- A tree without slots is a forest. -/
theorem forest_empty (r : Registry) : (Tree.empty r).Forest where
  count_children p c := by
    have hnode : ∀ x, (Tree.empty r).node x = {} := fun x =>
      node_of_size_le (Nat.zero_le _)
    simp [Tree.children, Tree.parent?, hnode]
  acyclic := ⟨fun x => ⟨x, fun y hy => absurd (lt_size_of_parent? hy) (Nat.not_lt_zero _)⟩⟩

/-- A new node that stands alone keeps a forest. -/
theorem Forest.create (h : t.Forest) (e : Element) : (t.create e).1.Forest :=
  h.of_links (parent?_create e) (children_create e)

/-- A change of what a node carries keeps a forest. -/
theorem Forest.modifyElement (h : t.Forest) (id : Nat) (f : Element → Element) :
    (t.modifyElement id f).Forest :=
  h.of_links (fun x => parent?_modifyElement t id x f) fun x => children_modifyElement t id x f

/-! ## Putting a node somewhere -/

/-- The tree `t'` is `t` with the node `child` put among the children of `parent`. -/
structure Inserted (t : Tree) (parent child : Nat) (index : Nat) (t' : Tree) : Prop where
  /-- The node stood alone. -/
  alone : t.parent? child = none
  /-- It was not the new parent, nor above it. -/
  not_above : t.isAtOrAbove child parent = false
  /-- There are the same slots. -/
  size : t'.size = t.size
  /-- Every node carries what it carried. -/
  element : ∀ x, t'.element x = t.element x
  /-- The node has its new parent, and the others have theirs. -/
  parent? : ∀ x, t'.parent? x = if x = child then some parent else t.parent? x
  /-- The parent has the new child, and the others have theirs. -/
  children : ∀ x, t'.children x =
    if x = parent then (t.children x).insertIdx (min index (t.children x).length) child
    else t.children x
  /-- The default bindings stay. -/
  defaults : t'.defaults = t.defaults

/-- What a node put among the children of another leads to. -/
theorem inserted_of_insertAt {parent child : Nat} {index : Nat} (hp : parent < t.size)
    (hc : child < t.size) (h : t.insertAt parent child index = .ok t') :
    t.Inserted parent child index t' := by
  unfold insertAt at h
  split at h
  · cases h
  next hfree =>
  cases h
  rw [Bool.or_eq_true, not_or] at hfree
  refine ⟨by simpa using hfree.1, by simpa using hfree.2, by simp, ?_, ?_, ?_, rfl⟩
  · intro x
    rw [element_modify_parent, element_modify_children]
  · intro x
    rw [parent?_modify_parent, parent?_modify_children, size_modify]
    by_cases hx : x = child
    · subst hx; simp [hc]
    · rw [if_neg fun he => hx he.1, if_neg hx]
  · intro x
    rw [children_modify_parent, children_modify_children]
    by_cases hx : x = parent
    · subst hx
      rw [if_pos ⟨rfl, hp⟩, if_pos rfl]
      rfl
    · rw [if_neg fun he => hx he.1, if_neg hx]

/-- A node that stands alone and is not above the new parent can be put there. -/
theorem exists_insertAt {parent child : Nat} (index : Nat) (halone : t.parent? child = none)
    (habove : t.isAtOrAbove child parent = false) :
    ∃ t', t.insertAt parent child index = .ok t' := by
  unfold insertAt
  simp [halone, habove]

/-- Putting a node somewhere keeps a forest. -/
theorem Inserted.forest {parent child : Nat} {index : Nat}
    (hi : t.Inserted parent child index t') (h : t.Forest) : t'.Forest where
  count_children p c := by
    rw [hi.children, hi.parent?]
    by_cases hp : p = parent
    · subst hp
      rw [if_pos rfl, (List.perm_insertIdx child _ (Nat.min_le_right _ _)).count_eq,
        List.count_cons, h.count_children]
      by_cases hc : c = child
      · subst hc; simp [hi.alone]
      · simp [hc, Ne.symm hc]
    · rw [if_neg hp, h.count_children]
      by_cases hc : c = child
      · subst hc; simp [hi.alone, Ne.symm hp]
      · simp [hc]
  acyclic := by
    have hnot : ¬ t.Above child parent := fun ha => by
      rw [← h.isAtOrAbove_iff, hi.not_above] at ha
      cases ha
    -- first the nodes that are not below the moved one, whose way up is the old one
    have haway : ∀ x, ¬ t.Above child x → Acc t'.ParentOf x := by
      intro x
      induction x using h.acyclic.induction with
      | _ x ih =>
        intro hx
        refine ⟨x, fun y hy => ?_⟩
        have hxc : x ≠ child := fun he => hx (he ▸ .refl)
        have hyx : t.parent? x = some y := by
          have hy' : t'.parent? x = some y := hy
          rwa [hi.parent?, if_neg hxc] at hy'
        exact ih y hyx fun hy' => hx (.step hyx hy')
    refine ⟨fun x => ?_⟩
    induction x using h.acyclic.induction with
    | _ x ih =>
      refine ⟨x, fun y hy => ?_⟩
      have hy' : t'.parent? x = some y := hy
      rw [hi.parent?] at hy'
      split at hy'
      · cases hy'; exact haway _ hnot
      · exact ih y hy'

/-! ## Taking a node away -/

/-- What taking a node away does to the parents. -/
theorem parent?_detach (id x : Nat) :
    (t.detach id).parent? x = if x = id then none else t.parent? x := by
  unfold detach
  split
  · next hnone =>
    split
    · next hx => rw [hx, hnone]
    · rfl
  · next p hp =>
    have hid := lt_size_of_parent? hp
    rw [parent?_modify_children, parent?_modify_parent]
    by_cases hx : x = id
    · subst hx; simp [hid]
    · rw [if_neg fun he => hx he.1, if_neg hx]

/-- In a forest, taking a node away takes it out of all lists of children. -/
theorem Forest.children_detach (h : t.Forest) (id x : Nat) :
    (t.detach id).children x = (t.children x).filter fun c => c != id := by
  have hother : t.parent? id ≠ some x →
      (t.children x).filter (fun c => c != id) = t.children x := by
    intro hne
    rw [List.filter_eq_self]
    intro c hc
    have hcx := h.mem_children_iff.1 hc
    simp only [bne_iff_ne]
    rintro rfl
    exact hne hcx
  unfold detach
  split
  · next hnone => rw [hother (by simp [hnone])]
  · next p hp =>
    rw [children_modify_children, size_modify]
    by_cases hx : x = p
    · subst hx
      rw [if_pos ⟨rfl, h.parent_lt hp⟩]
      exact congrArg (List.filter _) (children_modify_parent t id x none)
    · rw [if_neg fun he => hx he.1, children_modify_parent,
        hother (by rw [hp]; simpa using Ne.symm hx)]

/-- Taking a node away leaves what the nodes carry. -/
@[simp]
theorem element_detach (id x : Nat) : (t.detach id).element x = t.element x := by
  unfold detach
  split
  · rfl
  · rw [element_modify_children, element_modify_parent]

/-- Taking a node away removes no slot. -/
@[simp]
theorem size_detach (id : Nat) : (t.detach id).size = t.size := by
  unfold detach
  split <;> simp

/-- Taking a node away keeps a forest. -/
theorem Forest.detach (h : t.Forest) (id : Nat) : (t.detach id).Forest where
  count_children p c := by
    rw [h.children_detach, parent?_detach]
    by_cases hc : c = id
    · subst hc; simp [List.count_eq_zero]
    · rw [List.count_filter (by simpa using hc), h.count_children, if_neg hc]
  acyclic := by
    refine Subrelation.wf (fun {p c} hp => ?_) h.acyclic
    have hp' : (t.detach id).parent? c = some p := hp
    rw [parent?_detach] at hp'
    split at hp'
    · cases hp'
    · exact hp'

/-! ## Taking several nodes away -/

/-- Taking nodes away takes them out of all lists of children, and leaves what the nodes carry. -/
theorem Forest.detachAll (h : t.Forest) (ids : List NodeId) :
    (t.detachAll ids).Forest ∧ (∀ x, (t.detachAll ids).element x = t.element x) ∧
      ∀ x, (t.detachAll ids).children x = (t.children x).filter fun c => c ∉ ids := by
  induction ids generalizing t with
  | nil => exact ⟨h, fun _ => rfl, fun x => by simp [Tree.detachAll]⟩
  | cons id ids ih =>
    obtain ⟨hforest, helement, hchildren⟩ := ih (h.detach id)
    refine ⟨hforest, fun x => (helement x).trans (element_detach id x), fun x => ?_⟩
    rw [Tree.detachAll, List.foldl_cons]
    refine (hchildren x).trans ?_
    rw [h.children_detach, List.filter_filter]
    refine List.filter_congr fun c _ => ?_
    rw [Bool.eq_iff_iff]
    simp only [Bool.and_eq_true, decide_eq_true_eq, bne_iff_ne, List.mem_cons, not_or]
    exact and_comm

/-- What taking nodes away does to the parents. -/
theorem parent?_detachAll (ids : List NodeId) (x : Nat) :
    (t.detachAll ids).parent? x = if x ∈ ids then none else t.parent? x := by
  induction ids generalizing t with
  | nil => rfl
  | cons id ids ih =>
    rw [Tree.detachAll, List.foldl_cons]
    refine ih.trans ?_
    rw [parent?_detach]
    by_cases hx : x = id <;> simp [hx]

/-- What is still below a node, other than the node itself, was not taken away. -/
theorem not_mem_of_above_detachAll {ids : List NodeId} {r x : Nat}
    (h : (t.detachAll ids).Above r x) (hne : x ≠ r) : x ∉ ids := by
  intro hx
  cases h with
  | refl => exact hne rfl
  | step hparent =>
    rw [parent?_detachAll, if_pos hx] at hparent
    cases hparent

/-- Taking nodes away leaves the default bindings. -/
@[simp]
theorem defaults_detachAll (ids : List NodeId) : (t.detachAll ids).defaults = t.defaults := by
  induction ids generalizing t with
  | nil => rfl
  | cons id ids ih =>
    rw [Tree.detachAll, List.foldl_cons]
    refine ih.trans ?_
    unfold detach
    split <;> rfl

/-- Taking nodes away removes no slot. -/
@[simp]
theorem size_detachAll (ids : List NodeId) : (t.detachAll ids).size = t.size := by
  induction ids generalizing t with
  | nil => rfl
  | cons id ids ih =>
    rw [Tree.detachAll, List.foldl_cons]
    exact ih.trans (size_detach id)

end Netconf.Tree
