import Netconf.Proofs.Edit.Plans
import Netconf.Proofs.Tree.Frames

/-!
# Carrying out a merge plan

A merge plan is carried out on the tree that holds the copy of the second configuration: edit nodes
for deletion are added below slots of the copy, and then settled slots are taken away from their
parents. Afterwards the branch at each slot is what the plan makes of it (`bare_branch_carriedOut`).
-/

namespace Netconf.Tree

open Build Edit Branch

variable {t t' t'' : Tree}

/-! ## Adding what is to be deleted -/

/-- The forest `t'` has the slots of `t` as they were, apart from edit nodes for deletion that were
added behind their children. -/
structure Extended (t : Tree) (ds : List Deletion) (t' : Tree) : Prop where
  /-- The links are those of a forest. -/
  forest : t'.Forest
  /-- No slot is gone. -/
  size_le : t.size ≤ t'.size
  /-- The old slots carry what they carried. -/
  element : ∀ x < t.size, t'.element x = t.element x
  /-- The old slots have their parents. -/
  parent? : ∀ x < t.size, t'.parent? x = t.parent? x
  /-- The old slots have their children, and then those that were added. -/
  children : ∀ x < t.size, ∃ new : List Nat, t'.children x = t.children x ++ new ∧
    (∀ c ∈ new, t.size ≤ c) ∧ new.map (fun c => (t'.branch c).bare) =
      (ds.filter fun d => d.parent = x).map Deletion.copy

/-- What is above an old node is an old node. -/
theorem Extended.lt_of_above {ds : List Deletion} (h : t.Extended ds t') (ht : t.Forest) {a x : Nat}
    (hx : x < t.size) (ha : t'.Above a x) : a < t.size := by
  induction ha with
  | refl => exact hx
  | step hp _ ih =>
    rw [h.parent? _ hx] at hp
    exact ih (ht.parent_lt hp)

/-- Adding nothing. -/
theorem Forest.extended (h : t.Forest) : t.Extended [] t :=
  ⟨h, Nat.le_refl _, fun _ _ => rfl, fun _ _ => rfl, fun _ _ => ⟨[], by simp⟩⟩

/-- Adding the edit node for one deletion. -/
theorem ensures_addDeletion (h : t.Forest) {d : Deletion} (hd : d.parent < t.size) :
    Ensures (do
        let copy ← Build.addCopy d.branch
        Build.append d.parent copy
        Build.mark copy .delete) t
      (fun _ t' => t.Extended [d] t') fun _ => False := by
  have hcopied := h.copied d.branch
  have hmarked := hcopied.modifyElement fun e => e.mark .delete
  generalize ht₁ : (t.addCopy d.branch).1 = t₁ at hcopied hmarked
  generalize hcopy : (t.addCopy d.branch).2 = copy at hcopied hmarked
  refine ensures_bind.2 (ensures_change.2 (ensures_bind.2 ?_))
  rw [ht₁, hcopy]
  refine ensures_attempt (fun t₂ ht₂ => ?_) fun e he => ?_
  · have hne : d.parent ≠ copy := fun he => absurd hd (Nat.not_lt.2 (he ▸ hcopied.size_le))
    have hold : ∀ x : Nat, x < t.size → x ≠ copy := fun x hx he =>
      absurd hx (Nat.not_lt.2 (he ▸ hcopied.size_le))
    have hroom := Nat.lt_of_lt_of_le hd hcopied.keeps.size_le
    have hins := inserted_of_insertAt hroom hcopied.lt_size ht₂
    have hforest := (hins.forest hcopied.keeps.forest).modifyElement copy fun e => e.mark .delete
    -- below the copy, only its mark makes a difference to the tree it was made in
    have hbranch : ((t₂.modifyElement copy fun e => e.mark .delete).branch copy).bare = d.copy := by
      rw [hmarked.keeps.forest.branch_congr hforest (fun x hx => ⟨?_, ?_⟩), hmarked.branch]
      · rfl
      · rw [element_modifyElement, element_modifyElement, hins.element, hins.size]
      · have hxp : x ≠ d.parent := by
          rintro rfl
          have habove := hmarked.keeps.above h hd hx
          exact absurd (h.lt_size_of_above hd habove) (Nat.not_lt.2 hcopied.size_le)
        rw [children_modifyElement, children_modifyElement, hins.children, if_neg hxp]
    refine ensures_modifyElement.2 ⟨hforest, ?_, fun x hx => ?_, fun x hx => ?_, fun x hx => ?_⟩
    · rw [size_modifyElement, hins.size]
      exact hcopied.keeps.size_le
    · rw [element_modifyElement, if_neg fun he => hold x hx he.1, hins.element,
        hcopied.keeps.element x hx]
    · rw [parent?_modifyElement, hins.parent?, if_neg (hold x hx), hcopied.keeps.parent? x hx]
    · rw [children_modifyElement, hins.children, hcopied.keeps.children x hx]
      by_cases hxp : x = d.parent
      · subst hxp
        have hlen := congrArg List.length (hcopied.keeps.children d.parent hx)
        refine ⟨[copy], ?_, ?_, ?_⟩
        · rw [if_pos rfl, hlen, Nat.min_self, List.insertIdx_length_self]
        · intro c hc
          rw [List.mem_singleton.1 hc]
          exact hcopied.size_le
        · simp [hbranch]
      · refine ⟨[], ?_, by simp, by simp [Ne.symm hxp]⟩
        rw [if_neg hxp, List.append_nil]
  · obtain ⟨t₂, hok, -⟩ := hcopied.keeps.exists_insertAt h hd hcopied.size_le hcopied.lt_size
      hcopied.alone (t₁.children d.parent).length
    cases hok.symm.trans he

/-- What was added stays as it is when more is added below the old slots. -/
theorem Extended.trans {ds es : List Deletion} (ht : t.Forest) (h : t.Extended ds t')
    (h' : t'.Extended es t'') (hes : ∀ e ∈ es, e.parent < t.size) : t.Extended (ds ++ es) t'' where
  forest := h'.forest
  size_le := Nat.le_trans h.size_le h'.size_le
  element x hx := (h'.element x (Nat.lt_of_lt_of_le hx h.size_le)).trans (h.element x hx)
  parent? x hx := (h'.parent? x (Nat.lt_of_lt_of_le hx h.size_le)).trans (h.parent? x hx)
  children x hx := by
    obtain ⟨new, hnew, hsize, hcopies⟩ := h.children x hx
    obtain ⟨new', hnew', hsize', hcopies'⟩ := h'.children x (Nat.lt_of_lt_of_le hx h.size_le)
    have hkept : ∀ c ∈ new, t''.branch c = t'.branch c := by
      intro c hc
      have hct : c < t'.size := h.forest.child_lt (hnew ▸ List.mem_append_right _ hc)
      refine h.forest.branch_congr h'.forest fun y hy => ?_
      have hyt' : y < t'.size := hy.lt_size hct
      have hyt : t.size ≤ y := by
        by_contra hlt
        exact absurd (h.lt_of_above ht (Nat.not_le.1 hlt) hy) (Nat.not_lt.2 (hsize c hc))
      obtain ⟨none, hnone, -, hmap⟩ := h'.children y hyt'
      have hempty : es.filter (fun d => decide (d.parent = y)) = [] := by
        rw [List.filter_eq_nil_iff]
        intro e he hey
        have hlt := hes e he
        rw [of_decide_eq_true hey] at hlt
        exact absurd hlt (Nat.not_lt.2 hyt)
      rw [hempty, List.map_nil, List.map_eq_nil_iff] at hmap
      exact ⟨h'.element y hyt', by rw [hnone, hmap, List.append_nil]⟩
    refine ⟨new ++ new', by rw [hnew', hnew, List.append_assoc], fun c hc => ?_, ?_⟩
    · rcases List.mem_append.1 hc with hc | hc
      · exact hsize c hc
      · exact Nat.le_trans h.size_le (hsize' c hc)
    · rw [List.filter_append, List.map_append, List.map_append, ← hcopies, ← hcopies',
        List.map_congr_left fun c hc => congrArg bare (hkept c hc)]

/-- Adding the edit nodes for all deletions. -/
theorem ensures_addDeletions (h : t.Forest) {ds : List Deletion}
    (hds : ∀ d ∈ ds, d.parent < t.size) :
    Ensures (addDeletions ds) t (fun _ t' => t.Extended ds t') fun _ => False := by
  induction ds generalizing t with
  | nil => exact ensures_pure.2 h.extended
  | cons d ds ih =>
    have hone := ensures_addDeletion h (hds d (by simp))
    -- the first three parts of the sequence are the ones of a single deletion
    have hsplit : addDeletions (d :: ds) = (do
        let copy ← Build.addCopy d.branch
        Build.append d.parent copy
        Build.mark copy .delete) >>= fun _ => addDeletions ds := by
      rw [addDeletions]
      simp only [bind_assoc]
    rw [hsplit]
    refine hone.bind fun _ t₁ h₁ => ?_
    have hrest := ih h₁.forest fun e he =>
      Nat.lt_of_lt_of_le (hds e (by simp [he])) h₁.size_le
    exact hrest.mono (fun _ t₂ h₂ => h₁.trans h h₂ fun e he => hds e (by simp [he]))
      fun _ => False.elim

/-! ## Taking the settled nodes away -/

/-- After the deletions were added and the settled nodes were taken away, the branch at each old
slot is what the plan makes of it. -/
theorem Extended.bare_branch_amended (h : t.Forest) {p : MergePlan}
    (ht' : t.Extended p.deletions t') (hsettled : ∀ x ∈ p.settled, x < t.size) {x : Nat}
    (hx : x < t.size) : ((t'.detachAll p.settled).branch x).bare = (t.branch x).amended p := by
  obtain ⟨hforest, helement, hchildren⟩ := ht'.forest.detachAll p.settled
  induction x using h.down_induction with
  | step x ih =>
    obtain ⟨new, hnew, hsize, hcopies⟩ := ht'.children x hx
    -- what was added is not settled, nor is anything below it
    have hkept : ∀ c ∈ new, (t'.detachAll p.settled).branch c = t'.branch c := by
      intro c hc
      refine ht'.forest.branch_congr hforest fun y hy => ⟨helement y, ?_⟩
      rw [hchildren, List.filter_eq_self]
      intro z hz
      have hnot : z ∉ p.settled := by
        intro hzs
        have hzt := hsettled z hzs
        have hzy := ht'.forest.mem_children_iff.1 hz
        rw [ht'.parent? z hzt] at hzy
        exact absurd (ht'.lt_of_above h (h.parent_lt hzy) hy) (Nat.not_lt.2 (hsize c hc))
      simpa using hnot
    have hnewfree : new.filter (fun c => decide (c ∉ p.settled)) = new := by
      rw [List.filter_eq_self]
      intro c hc
      simpa using fun hcs => absurd (hsettled c hcs) (Nat.not_lt.2 (hsize c hc))
    have hids : ((t.children x).map t.branch).filter (fun b => decide (b.id ∉ p.settled)) =
        ((t.children x).filter fun c => decide (c ∉ p.settled)).map t.branch := by
      rw [List.filter_map]
      refine congrArg _ (List.filter_congr fun c _ => ?_)
      rw [Function.comp_apply, h.branch_eq, Branch.id]
    rw [hforest.bare_branch, helement, ht'.element x hx, content, hchildren, hnew,
      List.filter_append, hnewfree, List.map_append, h.branch_eq, amended, amendedAll_eq, hids,
      List.map_map, MergePlan.added, ← hcopies,
      List.map_congr_left fun c hc => congrArg bare (hkept c hc)]
    refine congrArg (fun bs => Branch.mk 0 _ (bs ++ _)) (List.map_congr_left fun c hc => ?_)
    have hcx := List.mem_of_mem_filter hc
    exact ih c hcx (h.child_lt hcx)

/-- What a merging edit starts from: a copy of the second branch in a tree of its own. -/
def isolated (t : Tree) (id : NodeId) : Document :=
  ⟨((Tree.empty t.defaults).addCopy (t.branch id)).1, ((Tree.empty t.defaults).addCopy
    (t.branch id)).2⟩

/-- A merging edit is always made: the copy of the second branch, with the deletions added and the
settled nodes taken away. -/
theorem exists_mergingEdit (ta : Tree) (a : NodeId) (tb : Tree) (b : NodeId) :
    let c := tb.isolated b
    let plan := (c.tree.branch c.root).mergePlan (ta.branch a)
    c.tree.Forest ∧ c.root < c.tree.size ∧
      (c.tree.branch c.root).bare = (tb.branch b).bare ∧ (∀ x ∈ plan.settled, x < c.tree.size) ∧
      ∃ t', c.tree.Extended plan.deletions t' ∧
        ta.mergingEdit a tb b = .ok ⟨t'.detachAll plan.settled, c.root⟩ := by
  intro c plan
  have hc : c.tree.Forest := (forest_empty tb.defaults).addCopy (tb.branch b)
  have hroot : c.root < c.tree.size := lt_size_addCopy (tb.branch b)
  have hbare : (c.tree.branch c.root).bare = (tb.branch b).bare :=
    (forest_empty tb.defaults).bare_branch_addCopy (tb.branch b)
  have hslots : ∀ x ∈ (c.tree.branch c.root).id :: idsOfAll (c.tree.branch c.root).children,
      x < c.tree.size := fun x hx =>
    (hc.mem_ids_branch.1 (by rw [ids_eq]; exact hx)).lt_size hroot
  have hwithin : plan.Within (c.tree.branch c.root).id
      (idsOfAll (c.tree.branch c.root).children) := by
    unfold plan
    rw [mergePlan_eq]
    exact within_mergePlanAll _ _ _ _ _
  have hparents : ∀ x ∈ plan.deletions, x.parent < c.tree.size := fun x hx =>
    hslots _ (List.mem_cons.2 (hwithin.parent x hx))
  obtain ⟨_, t', hok, hext⟩ := (ensures_addDeletions hc hparents).exists_ok
  refine ⟨hc, hroot, hbare,
    fun x hx => hslots x (List.mem_cons_of_mem _ (hwithin.settled x hx)), t', hext, ?_⟩
  unfold plan c isolated at hok ⊢
  unfold mergingEdit
  dsimp only at hok ⊢
  rw [hok]

end Netconf.Tree
