import Netconf.Proofs.Edit.Steps
import Netconf.Proofs.Tree.Duplicates
import Netconf.Proofs.Tree.Orderly

/-!
# What an edit touches

While an edit is applied, its nodes look for their counterparts in the configuration. `Trace` is a
record of this: the places below which edit nodes were applied, and the nodes that were found as
counterparts. It is told of the run of `Edit.apply` from the outside (`Edit.trace`), as far as the
run gets.

`Accounted` says what has become of a tree by such a run, whether it has ended well or not. At a
place the old children stay where they were, except that those which were counterparts may be gone,
or have a new node in their place; other new nodes stand behind them all. Nothing else has new
children or loses any, only counterparts get other values, and no new node has a mark. One edit node
does this (`ensures_applyNode_accounted`), and so do several, one after the other
(`Accounted.trans`).
-/

namespace Netconf

namespace Build

/-- What a sequence ensures, from what its parts do with their outcomes known. -/
theorem Ensures.bind_eq {α β : Type} {b : Build α} {f : α → Build β} {t : Tree}
    {done : α → Tree → Prop} {failed failed' : Tree → Prop} {done' : β → Tree → Prop}
    (hb : Ensures b t done failed)
    (hok : ∀ a t', b t = .ok a t' → done a t' → Ensures (f a) t' done' failed')
    (herror : ∀ e t', b t = .error e t' → failed t' → failed' t') :
    Ensures (b >>= f) t done' failed' := by
  rw [ensures_bind]
  unfold Ensures at hb ⊢
  cases hrun : b t with
  | ok a t' =>
    rw [hrun] at hb
    exact hok a t' hrun hb
  | error e t' =>
    rw [hrun] at hb
    exact herror e t' hrun hb

end Build

/-! ## Lists of children -/

/-- The list `ds` has the members of `cs` in their places, except that those of `found` may be
missing or have a new member in their place; other new members stand behind them. New is what is at
least `size`. -/
def Outlives (size : Nat) (found cs ds : List NodeId) : Prop :=
  ∃ (fate : NodeId → Option NodeId) (new : List NodeId), ds = cs.filterMap fate ++ new ∧
    (∀ c, c ∉ found → fate c = some c) ∧ (∀ c d : Nat, fate c = some d → d = c ∨ size ≤ d) ∧
    ∀ d : Nat, d ∈ new → size ≤ d

namespace Outlives

variable {size size' : Nat} {found found' cs ds es pre post : List NodeId} {c d : Nat}

/-- A list outlives itself. -/
theorem refl (size : Nat) (found cs : List NodeId) : Outlives size found cs cs :=
  ⟨some, [], by simp, fun _ _ => rfl, fun _ _ h => .inl (Option.some.inj h).symm, by simp⟩

/-- A member goes. -/
theorem erase (size : Nat) (cs : List NodeId) (c : Nat) :
    Outlives size [c] cs (cs.filter fun d => d != c) := by
  refine ⟨fun d => if d = c then none else some d, [], ?_, fun d hd => ?_, fun d d' h => ?_,
    by simp⟩
  · rw [List.append_nil, ← List.filterMap_eq_filter]
    refine List.filterMap_congr fun d _ => ?_
    by_cases hd : d = c <;> simp [Option.guard, hd]
  · have hne : d ≠ c := fun heq => hd (heq ▸ List.mem_cons_self)
    exact if_neg hne
  · dsimp only at h
    split at h
    · cases h
    · exact .inl (Option.some.inj h).symm

/-- A new member comes in the place of one. -/
theorem swap (hd : size ≤ d) (hpre : c ∉ pre) (hpost : c ∉ post) :
    Outlives size [c] (pre ++ c :: post) (pre ++ d :: post) := by
  refine ⟨fun x => if x = c then some d else some x, [], ?_, fun x hx => ?_, fun x y h => ?_,
    by simp⟩
  · have hsame : ∀ xs : List NodeId, c ∉ xs →
        xs.filterMap (fun x => if x = c then some d else some x) = xs := by
      intro xs hxs
      refine (List.filterMap_congr fun x hx => ?_).trans List.filterMap_some
      have hne : x ≠ c := fun heq => hxs (heq ▸ hx)
      exact if_neg hne
    rw [List.append_nil, List.filterMap_append, List.filterMap_cons, if_pos rfl, hsame pre hpre,
      hsame post hpost]
  · have hne : x ≠ c := fun heq => hx (heq ▸ List.mem_cons_self)
    exact if_neg hne
  · dsimp only at h
    split at h
    · exact .inr (Option.some.inj h ▸ hd)
    · exact .inl (Option.some.inj h).symm

/-- A new member comes behind the others. -/
theorem concat (hd : size ≤ d) (found cs : List NodeId) : Outlives size found cs (cs ++ [d]) :=
  ⟨some, [d], by simp, fun _ _ => rfl, fun _ _ h => .inl (Option.some.inj h).symm,
    fun x hx => List.mem_singleton.1 hx ▸ hd⟩

/-- More may be found. -/
theorem mono (h : Outlives size found cs ds) (hfound : found ⊆ found') :
    Outlives size found' cs ds := by
  obtain ⟨fate, new, hds, hkept, hfate, hnew⟩ := h
  exact ⟨fate, new, hds, fun c hc => hkept c fun hmem => hc (hfound hmem), hfate, hnew⟩

/-- What outlives a list twice outlives it. -/
theorem trans (h : Outlives size found cs ds) (h' : Outlives size' found' ds es)
    (hsize : size ≤ size') : Outlives size (found ++ found') cs es := by
  obtain ⟨fate, new, rfl, hkept, hfate, hnew⟩ := h
  obtain ⟨fate', new', rfl, hkept', hfate', hnew'⟩ := h'
  refine ⟨fun c => (fate c).bind fate', new.filterMap fate' ++ new', ?_, fun c hc => ?_,
    fun c d hd => ?_, fun d hd => ?_⟩
  · rw [List.filterMap_append, List.filterMap_filterMap, List.append_assoc]
  · rw [List.mem_append, not_or] at hc
    dsimp only
    rw [hkept c hc.1, Option.bind_some, hkept' c hc.2]
  · obtain ⟨x, hx, hxd⟩ := Option.bind_eq_some_iff.1 hd
    rcases hfate' x d hxd with rfl | hd
    · exact hfate c d hx
    · exact .inr (Nat.le_trans hsize hd)
  · rcases List.mem_append.1 hd with hd | hd
    · obtain ⟨x, hx, hxd⟩ := List.mem_filterMap.1 hd
      rcases hfate' x d hxd with rfl | hd
      · exact hnew d hx
      · exact Nat.le_trans hsize hd
    · exact Nat.le_trans hsize (hnew' d hd)

end Outlives

namespace Edit

open Build Netconf.Tree

/-! ## Traces -/

/-- What was touched while edit nodes were applied. -/
structure Trace where
  /-- The nodes below which edit nodes were applied. -/
  visited : List NodeId := []
  /-- The nodes that were counterparts of edit nodes. -/
  found : List NodeId := []
deriving Repr, DecidableEq

/-- What was touched first and then. -/
def Trace.and (first second : Trace) : Trace :=
  ⟨first.visited ++ second.visited, first.found ++ second.found⟩

mutual

/-- What applying an edit node below a place touches. -/
def traceNode (defaults : Bindings) (above : Lineage) (parent : NodeId) (inherited : Operation) :
    Branch → Tree → Trace
  | .mk id e children, t =>
    let b : Branch := .mk id e children
    match counterpart? t parent b with
    | none => {}
    | some c =>
      if operationOf e inherited = .merge ∧ b.entry.isComposite then
        Trace.and ⟨[c], [c]⟩
          (traceAll defaults (e :: above) c (operationOf e inherited) children t)
      else ⟨[], [c]⟩

/-- What applying edit nodes below a place touches, up to the first one that fails. -/
def traceAll (defaults : Bindings) (above : Lineage) (parent : NodeId) (inherited : Operation) :
    List Branch → Tree → Trace
  | [], _ => {}
  | b :: bs, t =>
    Trace.and (traceNode defaults above parent inherited b t)
      (match applyNode defaults above parent inherited b t with
        | .ok _ t' => traceAll defaults above parent inherited bs t'
        | .error _ _ => {})

end

section Equations

variable {defaults : Bindings} {above : Lineage} {parent c : NodeId} {inherited : Operation}
  {id : NodeId} {e : Element} {bs : List Branch} {t : Tree}

/-- Without a counterpart nothing is touched. -/
theorem traceNode_none (h : counterpart? t parent (.mk id e bs) = none) :
    traceNode defaults above parent inherited (.mk id e bs) t = {} := by
  simp only [traceNode, h]

/-- A counterpart is touched, but what is below it only when the edit node is merged into it. -/
theorem traceNode_some (h : counterpart? t parent (.mk id e bs) = some c)
    (hnot : ¬ (operationOf e inherited = .merge ∧ (Branch.mk id e bs).entry.isComposite)) :
    traceNode defaults above parent inherited (.mk id e bs) t = ⟨[], [c]⟩ := by
  simp only [traceNode, h, if_neg hnot]

/-- When an edit node is merged into its counterpart, the edit nodes below it are applied there. -/
theorem traceNode_merge (h : counterpart? t parent (.mk id e bs) = some c)
    (ho : operationOf e inherited = .merge) (hb : (Branch.mk id e bs).entry.isComposite) :
    traceNode defaults above parent inherited (.mk id e bs) t =
      Trace.and ⟨[c], [c]⟩ (traceAll defaults (e :: above) c .merge bs t) := by
  simp only [traceNode, h, ho, hb, and_self, if_true]

end Equations

/-- What applying an edit touches: if its top is the same node as the root, the root is visited. -/
def trace (root : NodeId) (edit : Tree) (editRoot : NodeId) (t : Tree) : Trace :=
  if edit.compare editRoot t root = .different then {}
  else
    Trace.and ⟨[root], []⟩
      (traceAll edit.defaults.bindings (edit.lineage editRoot) root
        (operationOf (edit.element editRoot) .merge) (edit.branch editRoot).children t)

/-! ## What has become of a tree -/

/-- The tree `t'` is what has become of `t` while edit nodes were applied below `place`, as the
trace accounts for it. -/
structure Accounted (t : Tree) (place : NodeId) (trace : Trace) (t' : Tree) : Prop where
  /-- The links are those of a forest. -/
  forest : t'.Forest
  /-- No slot is gone. -/
  size_le : t.size ≤ t'.size
  /-- What is no counterpart carries what it carried. -/
  element : ∀ x < t.size, x ∉ trace.found → t'.element x = t.element x
  /-- A counterpart carries at most another value. -/
  value : ∀ x < t.size, ∃ v, t'.element x = { t.element x with value := v }
  /-- What is no counterpart has its parent, and a counterpart has it or none. -/
  parent? : ∀ x < t.size,
    t'.parent? x = t.parent? x ∨ x ∈ trace.found ∧ t'.parent? x = none
  /-- All children that are no counterparts are in their places. -/
  children : ∀ p < t.size, Outlives t.size trace.found (t.children p) (t'.children p)
  /-- Away from the place and what was visited nothing has other children. -/
  away : ∀ p < t.size, p ≠ place → p ∉ trace.visited → t'.children p = t.children p
  /-- A counterpart was a child of the place or of what was visited. -/
  found : ∀ c ∈ trace.found, c < t.size →
    ∃ p, t.parent? c = some p ∧ (p = place ∨ p ∈ trace.visited)
  /-- What was visited was a counterpart. -/
  visited : trace.visited ⊆ trace.found
  /-- New nodes have no marks. -/
  unmarked : ∀ x : Nat, t.size ≤ x → t'.markText? x = none

variable {t t₀ t₁ t₂ t' : Tree} {place c copy : Nat} {first second : Trace} {b : Branch}

/-- A slot beyond the last one has no mark. -/
theorem markText?_of_size_le {x : Nat} (h : t.size ≤ x) : t.markText? x = none := by
  rw [Tree.markText?, Tree.element, node_of_size_le h]
  rfl

/-- Nothing has become of a tree, also if a child was found. -/
theorem accounted_self (h : t.Forest) (found : List NodeId)
    (hfound : ∀ c ∈ found, t.parent? c = some place) : Accounted t place ⟨[], found⟩ t where
  forest := h
  size_le := Nat.le_refl _
  element _ _ _ := rfl
  value x _ := ⟨(t.element x).value, rfl⟩
  parent? _ _ := .inl rfl
  children _ _ := .refl _ _ _
  away _ _ _ _ := rfl
  found c hc _ := ⟨place, hfound c hc, .inl rfl⟩
  visited := List.nil_subset _
  unmarked _ := markText?_of_size_le

/-- Nothing has become of a tree, and nothing was touched. -/
theorem accounted_refl (h : t.Forest) : Accounted t place {} t :=
  accounted_self h [] fun _ hc => absurd hc List.not_mem_nil

/-- A child is taken away. -/
theorem accounted_detach (h : t.Forest) (hc : t.parent? c = some place) :
    Accounted t place ⟨[], [c]⟩ (t.detach c) where
  forest := h.detach c
  size_le := Nat.le_of_eq (size_detach c).symm
  element x _ _ := element_detach c x
  value x _ := ⟨(t.element x).value, element_detach c x⟩
  parent? x _ := by
    rw [parent?_detach]
    by_cases hx : x = c
    · exact .inr ⟨hx ▸ List.mem_cons_self, if_pos hx⟩
    · exact .inl (if_neg hx)
  children p _ := by
    rw [h.children_detach]
    exact .erase _ _ _
  away _ _ hp _ := h.children_detach_of_ne hc hp
  found d hd _ := ⟨place, List.mem_singleton.1 hd ▸ hc, .inl rfl⟩
  visited := List.nil_subset _
  unmarked x hx := by
    rw [Tree.markText?, element_detach]
    exact markText?_of_size_le hx

/-- A child gets another value. -/
theorem accounted_value (h : t.Forest) (hc : t.parent? c = some place) (v : Option Value) :
    Accounted t place ⟨[], [c]⟩ (t.modifyElement c fun e => { e with value := v }) where
  forest := h.modifyElement c _
  size_le := Nat.le_of_eq (size_modifyElement t c _).symm
  element x _ hx := by
    have hne : x ≠ c := fun heq => hx (heq ▸ List.mem_cons_self)
    rw [element_modifyElement, if_neg fun hboth => hne hboth.1]
  value x _ := by
    rw [element_modifyElement]
    split
    · exact ⟨v, rfl⟩
    · exact ⟨(t.element x).value, rfl⟩
  parent? x _ := .inl (parent?_modifyElement t c x _)
  children p _ := by
    rw [children_modifyElement]
    exact .refl _ _ _
  away p _ _ _ := children_modifyElement t c p _
  found d hd _ := ⟨place, List.mem_singleton.1 hd ▸ hc, .inl rfl⟩
  visited := List.nil_subset _
  unmarked x hx := by
    have hlt : c < t.size := lt_size_of_parent? hc
    have hne : x ≠ c := by omega
    rw [Tree.markText?, element_modifyElement, if_neg fun heq => hne heq.1]
    exact markText?_of_size_le hx

namespace Accounted

/-- A copy is put among the children of the place. -/
theorem put (h : Accounted t place first t₀) (hcopy : t₀.Copied b copy t₁)
    (hunmarked : ∀ x : Nat, t₀.size ≤ x → t₁.markText? x = none) {index : Nat}
    (hput : t₁.Inserted place copy index t₂)
    (hchildren : Outlives t.size first.found (t.children place) (t₂.children place)) :
    Accounted t place first t₂ := by
  have hlt : ∀ x < t.size, x < t₀.size := fun x hx => Nat.lt_of_lt_of_le hx h.size_le
  have hne : ∀ x < t.size, x ≠ copy := fun x hx heq =>
    absurd (hlt x hx) (Nat.not_lt.2 (heq ▸ hcopy.size_le))
  have helement : ∀ x < t.size, t₂.element x = t₀.element x := fun x hx => by
    rw [hput.element, hcopy.keeps.element x (hlt x hx)]
  have hkids : ∀ p < t.size, p ≠ place → t₂.children p = t₀.children p := fun p hp hpp => by
    rw [hput.children, if_neg hpp, hcopy.keeps.children p (hlt p hp)]
  refine ⟨hput.forest hcopy.keeps.forest, ?_, fun x hx hf => ?_, fun x hx => ?_, fun x hx => ?_,
    fun p hp => ?_, fun p hp hpp hv => ?_, h.found, h.visited, fun x hx => ?_⟩
  · rw [hput.size]
    exact Nat.le_trans h.size_le hcopy.keeps.size_le
  · rw [helement x hx, h.element x hx hf]
  · rw [helement x hx]
    exact h.value x hx
  · rw [hput.parent?, if_neg (hne x hx), hcopy.keeps.parent? x (hlt x hx)]
    exact h.parent? x hx
  · by_cases hpp : p = place
    · exact hpp ▸ hchildren
    · rw [hkids p hp hpp]
      exact h.children p hp
  · rw [hkids p hp hpp, h.away p hp hpp hv]
  · rw [Tree.markText?, hput.element]
    by_cases hx₀ : x < t₀.size
    · rw [hcopy.keeps.element x hx₀]
      exact h.unmarked x hx
    · exact hunmarked x (Nat.not_lt.1 hx₀)

/-- What has become of a tree below a child has become of it. -/
theorem descend (h : Accounted t c second t') (hc : t.parent? c = some place) :
    Accounted t place (.and ⟨[c], [c]⟩ second) t' where
  forest := h.forest
  size_le := h.size_le
  element x hx hf := h.element x hx fun hmem => hf (List.mem_append_right _ hmem)
  value := h.value
  parent? x hx := (h.parent? x hx).imp_right fun hx' => ⟨List.mem_append_right _ hx'.1, hx'.2⟩
  children p hp := (h.children p hp).mono (List.subset_append_right _ _)
  away p hp _ hv := h.away p hp (fun heq => hv (heq ▸ List.mem_append_left _ List.mem_cons_self))
    fun hmem => hv (List.mem_append_right _ hmem)
  found d hd hlt := by
    rcases List.mem_append.1 hd with hd | hd
    · exact ⟨place, List.mem_singleton.1 hd ▸ hc, .inl rfl⟩
    · obtain ⟨p, hp, rfl | hv⟩ := h.found d hd hlt
      · exact ⟨p, hp, .inr (List.mem_append_left _ List.mem_cons_self)⟩
      · exact ⟨p, hp, .inr (List.mem_append_right _ hv)⟩
  visited := List.append_subset.2
    ⟨List.subset_append_left _ _, List.Subset.trans h.visited (List.subset_append_right _ _)⟩
  unmarked := h.unmarked

/-- What has become of what has become of a tree. -/
theorem trans (h : Accounted t place first t₁) (h' : Accounted t₁ place second t₂) :
    Accounted t place (first.and second) t₂ := by
  have hlt : ∀ x < t.size, x < t₁.size := fun x hx => Nat.lt_of_lt_of_le hx h.size_le
  refine ⟨h'.forest, Nat.le_trans h.size_le h'.size_le, fun x hx hf => ?_, fun x hx => ?_,
    fun x hx => ?_, fun p hp => ?_, fun p hp hpp hv => ?_, fun c hc hlt' => ?_, ?_, fun x hx => ?_⟩
  · rw [Trace.and, List.mem_append, not_or] at hf
    rw [h'.element x (hlt x hx) hf.2, h.element x hx hf.1]
  · obtain ⟨v, hv⟩ := h.value x hx
    obtain ⟨v', hv'⟩ := h'.value x (hlt x hx)
    exact ⟨v', by rw [hv', hv]⟩
  · rcases h'.parent? x (hlt x hx) with heq | ⟨hmem, hnone⟩
    · rw [heq]
      exact (h.parent? x hx).imp_right fun hx' => ⟨List.mem_append_left _ hx'.1, hx'.2⟩
    · exact .inr ⟨List.mem_append_right _ hmem, hnone⟩
  · exact (h.children p hp).trans (h'.children p (hlt p hp)) h.size_le
  · rw [Trace.and, List.mem_append, not_or] at hv
    rw [h'.away p (hlt p hp) hpp hv.2, h.away p hp hpp hv.1]
  · rcases List.mem_append.1 hc with hc | hc
    · obtain ⟨p, hp, hplace⟩ := h.found c hc hlt'
      exact ⟨p, hp, hplace.imp_right (List.mem_append_left _)⟩
    · obtain ⟨p, hp, hplace⟩ := h'.found c hc (hlt c hlt')
      have hold : t.parent? c = some p := by
        rcases h.parent? c hlt' with heq | ⟨-, hnone⟩
        · rw [← heq, hp]
        · rw [hnone] at hp
          cases hp
      exact ⟨p, hold, hplace.imp_right (List.mem_append_right _)⟩
  · exact List.append_subset.2 ⟨List.Subset.trans h.visited (List.subset_append_left _ _),
      List.Subset.trans h'.visited (List.subset_append_right _ _)⟩
  · by_cases hx₁ : x < t₁.size
    · obtain ⟨v, hv⟩ := h'.value x hx₁
      rw [Tree.markText?, hv]
      exact h.unmarked x hx
    · exact h'.unmarked x (Nat.not_lt.1 hx₁)

end Accounted

/-! ## Runs -/

/-- Copying an orderly branch without its marks makes a copy of it, and no new slot has a mark. -/
theorem ensures_addUnmarkedCopy_orderly (h : t.Forest) (hb : b.Orderly) :
    Ensures (addUnmarkedCopy b) t
      (fun copy t' => t.Copied b.unmarked copy t' ∧ ∀ x : Nat, t.size ≤ x → t'.markText? x = none)
      fun _ => False := by
  refine ensures_change.2 ⟨ensures_addUnmarkedCopy h b, fun x hx => ?_⟩
  have hnd := (h.addCopy b).nodup_ids_branch t.size
  have hids : ((t.addCopy b).1.branch t.size).ids = List.range' t.size b.size :=
    (h.duplicated_addCopy b).ids
  show (((((t.addCopy b).1.branch t.size).ids.foldl
    (fun t id => t.modifyElement id Element.unmark) (t.addCopy b).1)).element x).markText? = none
  rw [element_foldl_modifyElement Element.unmark hnd]
  split
  · exact (Each.element_addCopy Element.invariant_orderly hb hx).markText?_unmark
  · next hout =>
    -- a slot that is no slot of the copy does not exist
    refine markText?_of_size_le ?_
    rw [hids, List.mem_range'_1] at hout
    rw [size_addCopy] at hout ⊢
    omega

/-- Putting a copy at an index among the children of the place. -/
theorem Accounted.ensures_insertAt (h : Accounted t place first t₀) (hb : b.Orderly)
    (hplace : place < t.size) (index : Tree → Nat)
    (hchildren : ∀ (copy : Nat) (t₁ : Tree), t.size ≤ copy →
      t₁.children place = t₀.children place →
      Outlives t.size first.found (t.children place) ((t₀.children place).insertIdx
        (min (index t₁) (t₀.children place).length) copy)) :
    Ensures (do
        let copy ← addUnmarkedCopy b
        Build.attempt fun t => t.insertAt place copy (index t)) t₀
      (fun _ => Accounted t place first) fun _ => False := by
  have hlt := Nat.lt_of_lt_of_le hplace h.size_le
  refine (ensures_addUnmarkedCopy_orderly h.forest hb).bind fun copy t₁ ⟨hcopy, hmarks⟩ => ?_
  obtain ⟨t₂, hok, -, hkids, -⟩ := hcopy.keeps.exists_insertAt h.forest hlt hcopy.size_le
    hcopy.lt_size hcopy.alone (index t₁)
  have hput := inserted_of_insertAt (Nat.lt_of_lt_of_le hlt hcopy.keeps.size_le) hcopy.lt_size hok
  refine ensures_attempt (fun t' ht' => ?_) fun e he => ?_
  · obtain rfl : t₂ = t' := Except.ok.inj (hok.symm.trans ht')
    refine h.put hcopy hmarks hput ?_
    rw [hkids]
    exact hchildren copy t₁ (Nat.le_trans h.size_le hcopy.size_le)
      (hcopy.keeps.children place hlt)
  · cases hok.symm.trans he

/-- Putting a copy in the place of a child. -/
theorem ensures_replace_accounted (h : t.Forest) (hb : b.Orderly) (hc : c ∈ t.children place) :
    Ensures (replace place c b) t (fun _ => Accounted t place ⟨[], [c]⟩) fun _ => False := by
  obtain ⟨pre, post, hsplit⟩ := List.append_of_mem hc
  have hparent := h.mem_children_iff.1 hc
  obtain ⟨-, hpre, hpost⟩ := h.of_split hsplit
  refine ensures_replace_of h hsplit ?_
  refine (accounted_detach h hparent).ensures_insertAt hb (h.parent_lt hparent) _
    fun copy _ hcopy _ => ?_
  rw [h.children_detach_of_split hsplit, hsplit, List.length_append,
    Nat.min_eq_left (Nat.le_add_right _ _), insertIdx_middle]
  exact .swap hcopy (fun hmem => (hpre c hmem).2 rfl) fun hmem => (hpost c hmem).2 rfl

/-- Adding a copy. -/
theorem ensures_add_accounted (h : t.Forest) (hb : b.Orderly) (hplace : place < t.size) :
    Ensures (do
        let copy ← addUnmarkedCopy b
        Build.append place copy) t
      (fun _ => Accounted t place {}) fun _ => False := by
  refine (accounted_refl h).ensures_insertAt hb hplace (fun t' => (t'.children place).length)
    fun copy t₁ hcopy hsame => ?_
  rw [hsame, Nat.min_self, List.insertIdx_length_self]
  exact .concat hcopy _ _

section Runs

variable {defaults : Bindings}

/-- Applying edit nodes touches what it touches and no more, when applying each of them does. -/
theorem ensures_applyAll_accounted_of {above : Lineage} {inherited : Operation} {bs : List Branch}
    (hbs : ∀ b ∈ bs, ∀ {t : Tree} {place : Nat}, t.Forest → place < t.size →
      Ensures (applyNode defaults above place inherited b) t
        (fun _ => Accounted t place (traceNode defaults above place inherited b t))
        (Accounted t place (traceNode defaults above place inherited b t)))
    (h : t.Forest) (hplace : place < t.size) :
    Ensures (applyAll defaults above place inherited bs) t
      (fun _ => Accounted t place (traceAll defaults above place inherited bs t))
      (Accounted t place (traceAll defaults above place inherited bs t)) := by
  induction bs generalizing t with
  | nil => exact ensures_pure.2 (accounted_refl h)
  | cons b bs ih =>
    unfold applyAll traceAll
    refine (hbs b List.mem_cons_self h hplace).bind_eq (fun _ t₁ hrun hfirst => ?_)
      fun e t₁ hrun hfirst => ?_
    · rw [hrun]
      have hrest := ih (fun b hb => hbs b (List.mem_cons_of_mem _ hb)) hfirst.forest
        (Nat.lt_of_lt_of_le hplace hfirst.size_le)
      exact hrest.mono (fun _ _ hrest => hfirst.trans hrest) fun _ hrest => hfirst.trans hrest
    · rw [hrun]
      exact hfirst.trans (accounted_refl hfirst.forest)

/-- Applying an edit node touches what it touches and no more. -/
theorem ensures_applyNode_accounted (b : Branch) : ∀ (above : Lineage) (inherited : Operation)
    {t : Tree} {place : Nat}, b.Orderly → t.Forest → place < t.size →
    Ensures (applyNode defaults above place inherited b) t
      (fun _ => Accounted t place (traceNode defaults above place inherited b t))
      (Accounted t place (traceNode defaults above place inherited b t)) := by
  induction b using Branch.induction with
  | step id e bs ih =>
    intro above inherited t place hb h hplace
    unfold applyNode
    refine ensures_bind.2 (ensures_get.2 ?_)
    cases hcounter : counterpart? t place (.mk id e bs) with
    | none =>
      rw [traceNode_none hcounter]
      have hadd : Ensures (do
          let copy ← addUnmarkedCopy (.mk id e bs)
          Build.append place copy) t (fun _ => Accounted t place {}) (Accounted t place {}) :=
        (ensures_add_accounted h hb hplace).mono (fun _ _ hdone => hdone) fun _ => False.elim
      cases operationOf e inherited with
      | delete => exact ensures_throw.2 (accounted_refl h)
      | create => exact hadd
      | replace => exact hadd
      | merge => exact hadd
    | some c =>
      have hc : c ∈ t.children place := List.mem_of_find?_eq_some hcounter
      have hparent := h.mem_children_iff.1 hc
      cases ho : operationOf e inherited with
      | delete =>
        rw [traceNode_some hcounter (by simp [ho])]
        obtain ⟨pre, post, hsplit⟩ := List.append_of_mem hc
        refine (ensures_remove h hsplit).mono (fun _ t' ht' => ?_) fun _ => False.elim
        exact ht' ▸ accounted_detach h hparent
      | create =>
        rw [traceNode_some hcounter (by simp [ho])]
        exact ensures_throw.2
          (accounted_self h [c] fun d hd => List.mem_singleton.1 hd ▸ hparent)
      | replace =>
        rw [traceNode_some hcounter (by simp [ho])]
        exact (ensures_replace_accounted h hb hc).mono (fun _ _ hdone => hdone)
          fun _ => False.elim
      | merge =>
        by_cases hcomposite : (Branch.mk id e bs).entry.isComposite = true
        · rw [traceNode_merge hcounter ho hcomposite]
          simp only [hcomposite, if_true]
          refine (ensures_applyAll_accounted_of (fun b hbs {_ _} => ?_) h (h.child_lt hc)).mono
            (fun _ _ hbelow => hbelow.descend hparent) fun _ hbelow => hbelow.descend hparent
          exact ih b hbs _ _ ((Branch.all_iff.1 hb).2 b hbs)
        · rw [traceNode_some hcounter fun hboth => hcomposite hboth.2]
          simp only [hcomposite]
          exact ensures_modifyElement.2 (accounted_value h hparent e.value)

end Runs

end Edit

end Netconf
