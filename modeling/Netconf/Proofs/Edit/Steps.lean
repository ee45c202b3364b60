import Netconf.Edit.Apply
import Netconf.Proofs.Tree.Frames
import Netconf.Proofs.Tree.Identity

/-!
# Applying edits, step by step

What applying an edit does to a configuration can be said of the lists of branches below a place,
without slots: `Step` is what one edit node does to such a list, and `Steps` what several do, when
nothing fails. Wherever there are such steps, applying the edit nodes to a tree succeeds and does to
the content of the place what the steps do (`ensures_applyNode`, `ensures_applyAll`).
-/

namespace Netconf

namespace Branch

/-- A branch without marks. -/
def unmarked (b : Branch) : Branch := b.mapElements Element.unmark

end Branch

namespace Edit

open Build Netconf.Tree

/-- Is a node the counterpart of an edit node, as far as a comparison looks at it? -/
def isCounterpart (b : Branch) (c : Entry) : Bool :=
  if b.entry.isComposite then b.entry.matchesEntry c else b.element.sameName c.element

mutual

/-- What an edit node does to the branches below a place: the first list becomes the second one. -/
inductive Step : Operation → Branch → List Branch → List Branch → Prop where
  /-- The counterpart goes. -/
  | delete {o b pre c post} (ho : operationOf b.element o = .delete)
    (hc : isCounterpart b c.entry = true) (hpre : ∀ d ∈ pre, isCounterpart b d.entry = false) :
    Step o b (pre ++ c :: post) (pre ++ post)
  /-- A copy of the edit node takes the place of the counterpart. -/
  | replace {o b pre c post} (ho : operationOf b.element o = .replace)
    (hc : isCounterpart b c.entry = true) (hpre : ∀ d ∈ pre, isCounterpart b d.entry = false) :
    Step o b (pre ++ c :: post) (pre ++ b.unmarked :: post)
  /-- The counterpart takes over the value. -/
  | take {o b pre c post} (ho : operationOf b.element o = .merge)
    (hb : b.entry.isComposite = false)
    (hc : isCounterpart b c.entry = true) (hpre : ∀ d ∈ pre, isCounterpart b d.entry = false) :
    Step o b (pre ++ c :: post)
      (pre ++ .mk c.id { c.element with value := b.element.value } c.children :: post)
  /-- The children of the edit node are applied below the counterpart. -/
  | descend {o b pre c post cs} (ho : operationOf b.element o = .merge)
    (hb : b.entry.isComposite = true)
    (hc : isCounterpart b c.entry = true) (hpre : ∀ d ∈ pre, isCounterpart b d.entry = false)
    (hcs : Steps .merge b.children c.children cs) :
    Step o b (pre ++ c :: post) (pre ++ .mk c.id c.element cs :: post)
  /-- There is no counterpart, and a copy of the edit node is added. -/
  | add {o b ts} (ho : operationOf b.element o ≠ .delete)
    (hts : ∀ d ∈ ts, isCounterpart b d.entry = false) : Step o b ts (ts ++ [b.unmarked])

/-- What edit nodes do to the branches below a place, one after the other. -/
inductive Steps : Operation → List Branch → List Branch → List Branch → Prop where
  /-- Without edit nodes nothing changes. -/
  | nil {o ts} : Steps o [] ts ts
  /-- The first edit node, then the others. -/
  | cons {o b bs ts us vs} (h : Step o b ts us) (hs : Steps o bs us vs) : Steps o (b :: bs) ts vs

end

/-- The only branch of a list goes. -/
theorem Step.delete_only {o : Operation} {b c : Branch} (ho : operationOf b.element o = .delete)
    (hc : isCounterpart b c.entry = true) : Step o b [c] [] :=
  @Step.delete o b [] c [] ho hc (by simp)

/-- A copy of the edit node takes the place of the only branch of a list. -/
theorem Step.replace_only {o : Operation} {b c : Branch} (ho : operationOf b.element o = .replace)
    (hc : isCounterpart b c.entry = true) : Step o b [c] [b.unmarked] :=
  @Step.replace o b [] c [] ho hc (by simp)

/-- The only branch of a list takes over the value. -/
theorem Step.take_only {o : Operation} {b c : Branch} (ho : operationOf b.element o = .merge)
    (hb : b.entry.isComposite = false) (hc : isCounterpart b c.entry = true) :
    Step o b [c] [.mk c.id { c.element with value := b.element.value } c.children] :=
  @Step.take o b [] c [] ho hb hc (by simp)

/-- The children of the edit node are applied below the only branch of a list. -/
theorem Step.descend_only {o : Operation} {b c : Branch} {cs : List Branch}
    (ho : operationOf b.element o = .merge) (hb : b.entry.isComposite = true)
    (hc : isCounterpart b c.entry = true) (hcs : Steps .merge b.children c.children cs) :
    Step o b [c] [.mk c.id c.element cs] :=
  @Step.descend o b [] c [] cs ho hb hc (by simp) hcs

/-- A copy of the edit node becomes the only branch of a list. -/
theorem Step.add_only {o : Operation} {b : Branch} (ho : operationOf b.element o ≠ .delete) :
    Step o b [] [b.unmarked] :=
  @Step.add o b [] ho (by simp)

/-- Steps are a run of single steps. -/
theorem Steps.of_run {o : Operation} {bs ts us : List Branch} (h : Run (Step o) bs ts us) :
    Steps o bs ts us := by
  induction h with
  | nil => exact .nil
  | cons hstep _ ih => exact .cons hstep ih

/-- A step concerns the members of a class only, when all counterparts are of this class. -/
theorem Step.concernsOnly {o : Operation} {b : Branch} {p : Branch → Bool}
    (hb : ∀ c : Branch, isCounterpart b c.entry = true → p c = true) :
    ConcernsOnly (Step o) b p := by
  intro ts us h hus
  have hnone : ∀ ds : List Branch, (∀ d ∈ ds.filter p, isCounterpart b d.entry = false) →
      ∀ d ∈ ds, isCounterpart b d.entry = false := by
    intro ds hds d hd
    by_contra hc
    have hc := Bool.eq_true_of_not_eq_false hc
    exact absurd hc (by simp [hds d (List.mem_filter.2 ⟨hd, hb d hc⟩)])
  generalize hpart : ts.filter p = part at h
  cases h with
  | @delete _ _ pre c post ho hc hpre =>
    obtain ⟨pre', post', rfl, rfl, rfl⟩ := exists_split_of_filter hpart
    have hmiddle := filter_middle pre' post' [] (hb c hc) (by simp)
    simp only [List.append_nil] at hmiddle
    exact ⟨_, .delete ho hc (hnone pre' hpre), hmiddle⟩
  | @replace _ _ pre c post ho hc hpre =>
    obtain ⟨pre', post', rfl, rfl, rfl⟩ := exists_split_of_filter hpart
    have hclass := hus b.unmarked (by simp)
    have hmiddle := filter_middle pre' post' [b.unmarked] (hb c hc) (by simpa using hclass)
    simp only [List.append_assoc, List.singleton_append] at hmiddle
    exact ⟨_, .replace ho hc (hnone pre' hpre), hmiddle⟩
  | @take _ _ pre c post ho hcomp hc hpre =>
    obtain ⟨pre', post', rfl, rfl, rfl⟩ := exists_split_of_filter hpart
    have hclass := hus (.mk c.id { c.element with value := b.element.value } c.children) (by simp)
    have hmiddle := filter_middle pre' post'
      [.mk c.id { c.element with value := b.element.value } c.children] (hb c hc)
      (by simpa using hclass)
    simp only [List.append_assoc, List.singleton_append] at hmiddle
    exact ⟨_, .take ho hcomp hc (hnone pre' hpre), hmiddle⟩
  | @descend _ _ pre c post cs ho hcomp hc hpre hcs =>
    obtain ⟨pre', post', rfl, rfl, rfl⟩ := exists_split_of_filter hpart
    have hmiddle := filter_middle pre' post' [.mk c.id c.element cs]
      (hb c hc) (by simpa using hus (.mk c.id c.element cs) (by simp))
    simp only [List.append_assoc, List.singleton_append] at hmiddle
    exact ⟨_, .descend ho hcomp hc (hnone pre' hpre) hcs, hmiddle⟩
  | add ho hts =>
    subst hpart
    exact ⟨ts ++ [b.unmarked], .add ho (hnone ts hts), filter_concat (hus b.unmarked (by simp))⟩

/-! ## Trees follow the steps -/

variable {t : Tree}

/-- The counterpart of an edit node does not depend on the numbers of slots. -/
theorem isCounterpart_bare (b : Branch) (c : Entry) :
    isCounterpart b.bare c = isCounterpart b c := by
  simp [isCounterpart]

/-- Copying a branch without its marks makes a copy of it. -/
theorem ensures_addUnmarkedCopy (h : t.Forest) (b : Branch) :
    Ensures (addUnmarkedCopy b) t (fun copy t' => t.Copied b.unmarked copy t') fun _ => False :=
  (h.copied b).mapElements h Element.unmark

/-- The counterpart of an edit node is the first child whose entry is one. -/
theorem counterpart?_eq (t : Tree) (parent : Nat) (b : Branch) :
    counterpart? t parent b = (t.children parent).find? fun c => isCounterpart b (t.entry c) := rfl

/-- The first place of a member that is not further in front. -/
theorem idxOf?_middle {pre post : List NodeId} {c : NodeId} (h : c ∉ pre) :
    (pre ++ c :: post).idxOf? c = some pre.length := by
  induction pre with
  | nil => simp [List.idxOf?_cons]
  | cons d pre ih =>
    rw [List.mem_cons, not_or] at h
    rw [List.cons_append, List.idxOf?_cons, ih h.2]
    simp [Ne.symm h.1]

/-- A member put in between two parts. -/
theorem insertIdx_middle {α : Type} (pre post : List α) (x : α) :
    (pre ++ post).insertIdx pre.length x = pre ++ x :: post := by
  induction pre with
  | nil => rfl
  | cons y pre ih => rw [List.cons_append, List.length_cons, List.insertIdx_succ_cons, ih]; rfl

/-- Taking a child away. -/
theorem ensures_remove (h : t.Forest) {parent c : Nat} {pre post : List NodeId}
    (hsplit : t.children parent = pre ++ c :: post) :
    Ensures (remove parent c) t (fun _ t' => t' = t.detach c) fun _ => False := by
  have hp : t.parent? c = some parent := h.mem_children_iff.1 (h.of_split hsplit).1
  have hok : t.removeChild parent c = .ok (t.detach c) := by rw [removeChild, if_pos hp]
  refine ensures_attempt (fun t' ht' => ?_) fun e he => ?_
  · exact (Except.ok.inj (hok.symm.trans ht')).symm
  · cases hok.symm.trans he

/-- Replacing a child is taking it away and putting a copy where it was. -/
theorem ensures_replace_of (h : t.Forest) {parent c : Nat} {pre post : List NodeId} {b : Branch}
    (hsplit : t.children parent = pre ++ c :: post) {done : Unit → Tree → Prop}
    (hput : Ensures (do
        let copy ← addUnmarkedCopy b
        Build.attempt fun t => t.insertAt parent copy pre.length) (t.detach c) done fun _ => False) :
    Ensures (replace parent c b) t done fun _ => False := by
  obtain ⟨-, hpre, -⟩ := h.of_split hsplit
  have hindex : ((t.children parent).idxOf? c).getD 0 = pre.length := by
    rw [hsplit, idxOf?_middle fun hc => (hpre c hc).2 rfl]
    rfl
  unfold replace
  refine ensures_bind.2 (ensures_get.2 ?_)
  dsimp only
  rw [hindex]
  refine (ensures_remove h hsplit).bind fun _ t₁ ht₁ => ?_
  subst ht₁
  exact hput

/-- Putting a copy in the place of a child. -/
theorem ensures_replace (h : t.Forest) {parent c : Nat} {pre post : List NodeId} (b : Branch)
    (hsplit : t.children parent = pre ++ c :: post) :
    Ensures (replace parent c b) t (fun _ t' => t.Confined parent t' ∧
      t'.content parent = pre.map (fun d => (t.branch d).bare) ++
        b.bare.unmarked :: post.map fun d => (t.branch d).bare) fun _ => False := by
  have hp := h.parent_lt (h.mem_children_iff.1 (h.of_split hsplit).1)
  obtain ⟨hconf, hcontent⟩ := h.confined_detach hsplit
  refine ensures_replace_of h hsplit ?_
  refine (ensures_addUnmarkedCopy hconf.forest b).bind fun copy t₂ hcopy => ?_
  have hp₁ : parent < (t.detach c).size := hconf.lt hp
  obtain ⟨t₃, hok, hconf₃, -, hcontent₃⟩ := hcopy.keeps.exists_insertAt hconf.forest hp₁
    hcopy.size_le hcopy.lt_size hcopy.alone pre.length
  refine ensures_attempt (fun t' ht' => ?_) fun e he => ?_
  · obtain rfl : t₃ = t' := Except.ok.inj (hok.symm.trans ht')
    refine ⟨hconf.trans h hconf₃, ?_⟩
    rw [hcontent₃, hcontent, hcopy.branch, List.length_map, List.length_append,
      Nat.min_eq_left (Nat.le_add_right _ _), List.map_append]
    have hmiddle := insertIdx_middle (pre.map fun d => (t.branch d).bare)
      (post.map fun d => (t.branch d).bare) b.unmarked.bare
    rw [List.length_map] at hmiddle
    rw [hmiddle, Branch.unmarked, Branch.bare_mapElements]
    rfl
  · cases hok.symm.trans he

/-- Adding a copy without marks. -/
theorem ensures_add (h : t.Forest) {parent : Nat} (hp : parent < t.size) (b : Branch) :
    Ensures (do
        let copy ← addUnmarkedCopy b
        Build.append parent copy) t
      (fun _ t' => t.Confined parent t' ∧ t'.content parent = t.content parent ++ [b.bare.unmarked])
      fun _ => False := by
  refine (ensures_addUnmarkedCopy h b).bind fun copy t₁ hcopy => ?_
  rw [Branch.unmarked, ← Branch.bare_mapElements]
  exact (hcopy.ensures_append h hp).mono (fun _ _ ⟨hconf, _, hcontent⟩ => ⟨hconf, hcontent⟩)
    fun _ => False.elim

/-- Applying edit nodes does what the steps do, when applying each of them does. -/
theorem ensures_applyAll_of {defaults : Bindings} {above : Lineage} {inherited : Operation}
    {bs : List Branch}
    (hbs : ∀ b ∈ bs, ∀ {t : Tree} {parent : Nat} {ts : List Branch}, t.Forest → parent < t.size →
      Step inherited b.bare (t.content parent) ts →
      Ensures (applyNode defaults above parent inherited b) t
        (fun _ t' => t.Confined parent t' ∧ t'.content parent = ts) fun _ => False)
    (h : t.Forest) {parent : Nat} {ts : List Branch} (hp : parent < t.size)
    (hsteps : Steps inherited (bs.map Branch.bare) (t.content parent) ts) :
    Ensures (applyAll defaults above parent inherited bs) t
      (fun _ t' => t.Confined parent t' ∧ t'.content parent = ts) fun _ => False := by
  induction bs generalizing t with
  | nil =>
    cases hsteps
    exact ensures_pure.2 ⟨h.keeps.confined hp, rfl⟩
  | cons b bs ih =>
    cases hsteps with
    | cons hstep hsteps =>
      refine (hbs b (by simp) h hp hstep).bind fun _ t₁ ⟨hconf, hcontent⟩ => ?_
      subst hcontent
      have hrest := ih (fun b hb => hbs b (by simp [hb])) hconf.forest (hconf.lt hp) hsteps
      exact hrest.mono
        (fun _ _ ⟨hconf', hcontent'⟩ => ⟨hconf.trans h hconf', hcontent'⟩) fun _ => id

/-- Applying an edit node does what its step does. -/
theorem ensures_applyNode (defaults : Bindings) (b : Branch) : ∀ (above : Lineage)
    (inherited : Operation) {t : Tree} {parent : Nat} {ts : List Branch}, t.Forest →
    parent < t.size → Step inherited b.bare (t.content parent) ts →
    Ensures (applyNode defaults above parent inherited b) t
      (fun _ t' => t.Confined parent t' ∧ t'.content parent = ts) fun _ => False := by
  induction b using Branch.induction with
  | step id e bs ih =>
    intro above inherited t parent ts h hp hstep
    unfold applyNode
    refine ensures_bind.2 (ensures_get.2 ?_)
    generalize hcontent : t.content parent = us at hstep
    cases hstep with
    | delete ho hc hpre =>
      simp only [isCounterpart_bare] at hc hpre
      obtain ⟨left, right, x, hsplit, rfl, rfl, rfl, hx⟩ := h.exists_child hcontent hc hpre
      rw [← counterpart?_eq] at hx
      rw [Branch.element_bare] at ho
      rw [hx, show operationOf e inherited = .delete from ho]
      refine (ensures_remove h hsplit).mono (fun _ t' ht' => ?_) fun _ => False.elim
      subst ht'
      obtain ⟨hconf, hafter⟩ := h.confined_detach hsplit
      exact ⟨hconf, by rw [hafter, List.map_append]⟩
    | replace ho hc hpre =>
      simp only [isCounterpart_bare] at hc hpre
      obtain ⟨left, right, x, hsplit, rfl, rfl, rfl, hx⟩ := h.exists_child hcontent hc hpre
      rw [← counterpart?_eq] at hx
      rw [Branch.element_bare] at ho
      rw [hx, show operationOf e inherited = .replace from ho]
      exact ensures_replace h (.mk id e bs) hsplit
    | take ho hb hc hpre =>
      simp only [isCounterpart_bare] at hc hpre
      obtain ⟨left, right, x, hsplit, rfl, rfl, rfl, hx⟩ := h.exists_child hcontent hc hpre
      rw [← counterpart?_eq] at hx
      rw [Branch.element_bare] at ho
      rw [Branch.entry_bare] at hb
      rw [hx, show operationOf e inherited = .merge from ho]
      simp only [hb, Bool.false_eq_true, if_false]
      obtain ⟨hconf, hafter⟩ :=
        h.confined_modifyElement hsplit fun own => { own with value := e.value }
      refine ensures_modifyElement.2 ⟨hconf, ?_⟩
      rw [hafter, h.bare_branch]
      rfl
    | descend ho hb hc hpre hcs =>
      simp only [isCounterpart_bare] at hc hpre
      obtain ⟨left, right, x, hsplit, rfl, rfl, rfl, hx⟩ := h.exists_child hcontent hc hpre
      rw [← counterpart?_eq] at hx
      rw [Branch.element_bare] at ho
      rw [Branch.entry_bare] at hb
      rw [hx, show operationOf e inherited = .merge from ho]
      simp only [hb, if_true]
      rw [Branch.children_bare, h.bare_branch] at hcs
      have hlt := h.child_lt (h.of_split hsplit).1
      refine (ensures_applyAll_of (fun b hb {_ _ _} => ih b hb _ _) h hlt hcs).mono ?_
        fun _ => False.elim
      rintro _ t' ⟨hconf, rfl⟩
      refine ⟨hconf.of_child h (h.of_split hsplit).1, ?_⟩
      rw [hconf.content_of_child h hsplit, h.bare_branch]
      rfl
    | add ho hts =>
      simp only [isCounterpart_bare] at hts
      rw [Branch.element_bare] at ho
      have hnone := h.find?_children_eq_none fun d hd => hts d (hcontent ▸ hd)
      rw [← counterpart?_eq] at hnone
      rw [hnone, ← hcontent]
      have hadd := ensures_add h hp (.mk id e bs)
      generalize hop : operationOf e inherited = o
      cases o with
      | delete => exact absurd hop ho
      | create => exact hadd
      | replace => exact hadd
      | merge => exact hadd

/-- Applying edit nodes does what their steps do. -/
theorem ensures_applyAll (defaults : Bindings) (above : Lineage) {inherited : Operation}
    {bs ts : List Branch} (h : t.Forest) {parent : Nat} (hp : parent < t.size)
    (hsteps : Steps inherited (bs.map Branch.bare) (t.content parent) ts) :
    Ensures (applyAll defaults above parent inherited bs) t
      (fun _ t' => t.Confined parent t' ∧ t'.content parent = ts) fun _ => False :=
  ensures_applyAll_of (fun b _ {_ _ _} => ensures_applyNode defaults b above inherited) h hp hsteps

end Edit

end Netconf
