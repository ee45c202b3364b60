import Netconf.Proofs.Tree.Lineages

/-!
# New children of old nodes

`Tree.Sprouts t new t'` says that the forest `t'` has the slots of `t` as they were, but for the
nodes `new p` behind the children of each old node `p`. All of these stand in new slots, so the way
up from an old node is the old one, and with it its lineage and the meanings of labels.
-/

namespace Netconf.Tree

variable {t t' t'' : Tree} {new new' : NodeId → List NodeId}

/-- The forest `t'` has the slots of `t`, with the nodes `new p` behind the children of each old
node `p`, and with nothing else changed. -/
structure Sprouts (t : Tree) (new : NodeId → List NodeId) (t' : Tree) : Prop where
  /-- The links are those of a forest. -/
  forest : t'.Forest
  /-- No slot is gone. -/
  size_le : t.size ≤ t'.size
  /-- The old slots carry what they carried. -/
  element : ∀ x < t.size, t'.element x = t.element x
  /-- The old slots have their parents. -/
  parent? : ∀ x < t.size, t'.parent? x = t.parent? x
  /-- The old slots have their children, and the new ones behind them. -/
  children : ∀ x < t.size, t'.children x = t.children x ++ new x
  /-- The default bindings stay. -/
  defaults : t'.defaults = t.defaults

/-- No node gets new children. -/
def nowhere : NodeId → List NodeId := fun _ => []

/-- Only the node `p` gets new children. -/
def only (p : NodeId) (heads : List NodeId) : NodeId → List NodeId :=
  fun x => if x = p then heads else []

/-- No node has new children. -/
@[simp]
theorem nowhere_apply (x : NodeId) : nowhere x = [] := rfl

/-- The new children of the node. -/
@[simp]
theorem only_self (p : NodeId) (heads : List NodeId) : only p heads p = heads := if_pos rfl

/-- The other nodes have no new children. -/
theorem only_of_ne {p x : NodeId} (heads : List NodeId) (hx : x ≠ p) : only p heads x = [] :=
  if_neg hx

/-- No node has new children if the node has none. -/
theorem forall_only_eq_nil {p : NodeId} {heads : List NodeId} :
    (∀ x : NodeId, only p heads x = []) ↔ heads = [] := by
  refine ⟨fun hnone => ?_, fun hnone x => ?_⟩
  · rw [← only_self p heads, hnone]
  · simp [only, hnone]

/-- No node has more new children than the node. -/
theorem length_only_le (p : NodeId) (heads : List NodeId) (x : NodeId) :
    (only p heads x).length ≤ heads.length := by
  unfold only
  split
  · exact Nat.le_refl _
  · exact Nat.zero_le _

/-- Other nodes that get no new children besides have none. -/
theorem only_append_eq_nil {p x : NodeId} {heads ps : List NodeId}
    (hnew : ∀ y : NodeId, y ∉ ps → new y = []) (hx : x ∉ p :: ps) :
    only p heads x ++ new x = [] := by
  rw [List.mem_cons, not_or] at hx
  rw [only_of_ne _ hx.1, hnew x hx.2, List.append_nil]

/-! ## Putting changes together -/

/-- A forest has no new children of its own. -/
theorem Forest.sprouts (h : t.Forest) : t.Sprouts nowhere t :=
  ⟨h, Nat.le_refl _, fun _ _ => rfl, fun _ _ => rfl, fun _ _ => by simp, rfl⟩

/-- A slot stays in range. -/
theorem Sprouts.lt (hs : t.Sprouts new t') {x : NodeId} (hx : x < t.size) : x < t'.size :=
  Nat.lt_of_lt_of_le hx hs.size_le

/-- The new children count at old nodes only. -/
theorem Sprouts.congr (hs : t.Sprouts new t') (hnew : ∀ x < t.size, new' x = new x) :
    t.Sprouts new' t' :=
  { hs with children := fun x hx => by rw [hs.children x hx, hnew x hx] }

/-- The new children of two changes stand one behind the other. -/
theorem Sprouts.trans (hs : t.Sprouts new t') (hs' : t'.Sprouts new' t'') :
    t.Sprouts (fun x => new x ++ new' x) t'' where
  forest := hs'.forest
  size_le := Nat.le_trans hs.size_le hs'.size_le
  element x hx := (hs'.element x (hs.lt hx)).trans (hs.element x hx)
  parent? x hx := (hs'.parent? x (hs.lt hx)).trans (hs.parent? x hx)
  children x hx := by rw [hs'.children x (hs.lt hx), hs.children x hx, List.append_assoc]
  defaults := hs'.defaults.trans hs.defaults

/-! ## What old nodes keep -/

/-- What is above an old node is what was above it. -/
theorem Sprouts.above (hs : t.Sprouts new t') (h : t.Forest) {a x : Nat} (hx : x < t.size)
    (ha : t'.Above a x) : t.Above a x := by
  induction ha with
  | refl => exact .refl
  | step hp _ ih =>
    rw [hs.parent? _ hx] at hp
    exact .step hp (ih (h.parent_lt hp))

/-- What was above an old node is above it. -/
theorem Sprouts.keeps_above (hs : t.Sprouts new t') (h : t.Forest) {a x : Nat} (hx : x < t.size)
    (ha : t.Above a x) : t'.Above a x := by
  induction ha with
  | refl => exact .refl
  | step hp _ ih => exact .step ((hs.parent? _ hx).trans hp) (ih (h.parent_lt hp))

/-- A new node is not above an old one. -/
theorem Sprouts.not_above (hs : t.Sprouts new t') (h : t.Forest) {a x : Nat} (ha : t.size ≤ a)
    (hx : x < t.size) : ¬ t'.Above a x := fun hax =>
  absurd (h.lt_size_of_above hx (hs.above h hx hax)) (Nat.not_lt.2 ha)

/-- Old nodes have their lineages. -/
theorem Sprouts.lineage (hs : t.Sprouts new t') (h : t.Forest) {x : NodeId} (hx : x < t.size) :
    t'.lineage x = t.lineage x :=
  h.lineage_congr hs.forest fun y hy =>
    have hlt := h.lt_size_of_above hx hy
    ⟨hs.element y hlt, hs.parent? y hlt⟩

/-- Labels mean the same at old nodes. -/
theorem Sprouts.nsOf? (hs : t.Sprouts new t') (h : t.Forest) {x : NodeId} (hx : x < t.size)
    (label : String) : t'.nsOf? x label = t.nsOf? x label := by
  rw [Tree.nsOf?, Tree.nsOf?, hs.lineage h hx, hs.defaults]

/-- The same bindings are seen from old nodes. -/
theorem Sprouts.bindingsAt (hs : t.Sprouts new t') (h : t.Forest) {x : NodeId} (hx : x < t.size) :
    t'.bindingsAt x = t.bindingsAt x := by
  rw [Tree.bindingsAt, Tree.bindingsAt, hs.lineage h hx, hs.defaults]

/-- Old nodes have their namespaces. -/
theorem Sprouts.ns? (hs : t.Sprouts new t') {x : NodeId} (hx : x < t.size) :
    t'.ns? x = t.ns? x := by
  rw [Tree.ns?, Tree.ns?, hs.element x hx]

/-! ## Single changes -/

/-- A new node that stands alone. -/
theorem Forest.sprouts_create (h : t.Forest) (e : Element) : t.Sprouts nowhere (t.create e).1 where
  forest := h.create e
  size_le := by simp [Tree.create]
  element x hx := by rw [element_create, if_neg (Nat.ne_of_lt hx)]
  parent? x _ := parent?_create e x
  children x _ := by rw [children_create, nowhere_apply, List.append_nil]
  defaults := rfl

/-- A change of what a new node carries. -/
theorem Sprouts.modifyElement (hs : t.Sprouts new t') {id : NodeId} (hid : t.size ≤ id)
    (f : Element → Element) : t.Sprouts new (t'.modifyElement id f) where
  forest := hs.forest.modifyElement id f
  size_le := by rw [size_modifyElement]; exact hs.size_le
  element x hx := by
    rw [element_modifyElement, if_neg (by omega), hs.element x hx]
  parent? x hx := by rw [parent?_modifyElement, hs.parent? x hx]
  children x hx := by rw [children_modifyElement, hs.children x hx]
  defaults := hs.defaults

/-- A node that stands alone and is not above `p` can be put behind the children of `p`. -/
theorem Forest.ensures_append (h : t.Forest) {p c : Nat} (hp : p < t.size) (hc : c < t.size)
    (halone : t.parent? c = none) (hnot : ¬ t.Above c p) :
    Build.Ensures (Build.append p c) t
      (fun _ t' => t'.Forest ∧ t'.size = t.size ∧ (∀ x, t'.element x = t.element x) ∧
        (∀ x, t'.parent? x = if x = c then some p else t.parent? x) ∧
        (∀ x, t'.children x = t.children x ++ only p [c] x) ∧ t'.defaults = t.defaults)
      fun _ => False := by
  have habove : t.isAtOrAbove c p = false := by
    rw [Bool.eq_false_iff, ne_eq, h.isAtOrAbove_iff]
    exact hnot
  obtain ⟨t', ht'⟩ := exists_insertAt (t.children p).length halone habove
  refine Build.ensures_attempt (fun t₁ ht₁ => ?_) fun e he => ?_
  · cases ht'.symm.trans ht₁
    have hins := inserted_of_insertAt hp hc ht'
    refine ⟨hins.forest h, hins.size, hins.element, hins.parent?, fun x => ?_, hins.defaults⟩
    rw [hins.children]
    by_cases hx : x = p
    · subst hx
      rw [if_pos rfl, Nat.min_self, List.insertIdx_length_self, only_self]
    · rw [if_neg hx, only_of_ne _ hx, List.append_nil]
  · cases ht'.symm.trans he

/-- A new node is put behind the children of an old one. -/
theorem Forest.ensures_addLeaf (h : t.Forest) {p : NodeId} (hp : p < t.size) (e : Element) :
    Build.Ensures (do let c ← Build.create e; Build.append p c) t
      (fun _ t' => t.Sprouts (only p [t.size]) t' ∧ t'.size = t.size + 1 ∧
        t'.element t.size = e ∧ t'.children t.size = [])
      fun _ => False := by
  refine Build.ensures_bind.2 (Build.ensures_change.2 ?_)
  have hmade := h.sprouts_create e
  have hsize : (t.create e).1.size = t.size + 1 := size_push t _
  have hchildless : (t.create e).1.children t.size = [] := by
    rw [children_create, children, node_of_size_le (Nat.le_refl _)]
  have halone : (t.create e).1.parent? t.size = none := by
    rw [parent?_create, parent?, node_of_size_le (Nat.le_refl _)]
  refine (hmade.forest.ensures_append (hmade.lt hp) (by omega) halone
    (hmade.not_above h (Nat.le_refl _) hp)).mono ?_ fun _ hfalse => hfalse.elim
  rintro _ t' ⟨hforest, hsize', helement, hparent, hchildren, hdefaults⟩
  refine ⟨⟨hforest, by omega, fun x hx => ?_, fun x hx => ?_, fun x hx => ?_, hdefaults⟩, by omega,
    ?_, ?_⟩
  · rw [helement, hmade.element x hx]
  · rw [hparent, if_neg (Nat.ne_of_lt hx), hmade.parent? x hx]
  · rw [hchildren, hmade.children x hx, nowhere_apply, List.append_nil]
  · rw [helement, element_create, if_pos rfl]
  · rw [hchildren, hchildless, only_of_ne _ (Nat.ne_of_gt hp), List.append_nil]

end Netconf.Tree
