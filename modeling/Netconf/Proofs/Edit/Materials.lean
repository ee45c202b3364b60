import Netconf.Proofs.Edit.Merged
import Netconf.Proofs.Tree.Invariants

/-!
# What edits are made of

The elements of an edit between two trees are copies of elements of these trees, some of them
marked, and the root of a set of nodes is made up. Nothing else gets into an edit. So an invariant
of elements that holds in both trees holds in the edit, be it explicit or merging, between nodes or
between sets of nodes (`Tree.Each.explicitEdit` and the theorems behind it).
-/

namespace Netconf

open Build (Maintains)

variable {P : Element → Prop}

/-! ## Merge plans -/

/-- All elements that a plan takes over have a property. -/
def MergePlan.Each (P : Element → Prop) (p : MergePlan) : Prop :=
  ∀ d ∈ p.deletions, d.branch.Each P

/-- A plan that only counts and settles takes nothing over. -/
theorem MergePlan.each_idle {n : Nat} {ids : List NodeId} :
    MergePlan.Each P { count := n, settled := ids } := List.forall_mem_nil _

/-- One plan after the other takes over what the two plans do. -/
theorem MergePlan.Each.append {p q : MergePlan} (hp : p.Each P) (hq : q.Each P) :
    (p ++ q).Each P := fun d hd =>
  (List.mem_append.1 hd).elim (hp d) (hq d)

namespace Branch

open MergePlan

variable {a b : Branch} {as : List Branch}

/-- The plan for what only the first configuration has takes its elements over. -/
theorem each_leftOvers (has : ∀ a ∈ as, a.Each P) (parentA : Element) (id : NodeId) :
    (leftOvers parentA id as).Each P := by
  induction as with
  | nil => exact each_idle
  | cons a as ih =>
    obtain ⟨ha, has⟩ := List.forall_mem_cons.1 has
    have hone : (leftOver parentA id a).Each P := by
      unfold leftOver
      split
      · exact fun d hd => List.mem_singleton.1 hd ▸ ha.keysOnly
      · split
        · exact each_idle
        · exact fun d hd => List.mem_singleton.1 hd ▸ ha
    exact hone.append (ih has)

/-- The plan for two nodes that correspond takes over what the plan for what is below them does. -/
theorem each_planPair (h : (b.mergePlan a).Each P) : (planPair b a).Each P := by
  unfold planPair
  split
  · split
    · exact h.append each_idle
    · exact h
  · split <;> exact each_idle

/-- A plan takes over elements of the first configuration only. -/
theorem each_mergePlan (h : a.Each P) (b : Branch) : (b.mergePlan a).Each P := by
  refine (mutualInduction
    (P := fun b => ∀ a : Branch, a.Each P → (b.mergePlan a).Each P)
    (Q := fun bs => ∀ isKept id parentA as, (∀ a ∈ as, a.Each P) →
      (mergePlanAll isKept id parentA bs as).Each P) ?_ ?_ ?_).1 b a h
  · intro id e bs ih a h
    rw [mergePlan_eq]
    exact ih _ _ _ _ (all_iff.1 h).2
  · intro isKept id parentA as has
    rw [mergePlanAll]
    exact each_leftOvers has parentA id
  · intro b bs ihb ihbs isKept id parentA as has
    cases hkept : isKept b with
    | true =>
      rw [mergePlanAll_cons_of_kept hkept]
      exact ihbs isKept id parentA as has
    | false =>
      rcases correspondent_cases b as with ⟨hnone, -⟩ | ⟨pre, a, post, rfl, hsome, -, -⟩
      · rw [mergePlanAll_cons_of_none hkept hnone]
        exact each_idle.append (ihbs isKept id parentA as has)
      · rw [mergePlanAll_cons_of_some hkept hsome]
        have hothers : ∀ d ∈ pre ++ post, d.Each P := fun d hd =>
          has d ((List.sublist_cons_self a post).append_left pre |>.subset hd)
        exact (each_planPair (ihb a (has a (by simp)))).append (ihbs isKept id parentA _ hothers)

end Branch

namespace Tree

variable {src ta tb : Tree} {a b : NodeId} {as bs : List NodeId} (hP : Element.Invariant P)
include hP

/-! ## Edits between nodes -/

/-- Several excerpts. -/
theorem Each.excerptAll (h : src.Each P) (o : Operation) (ids : List NodeId)
    (root : Option NodeId) : Maintains P (src.excerptAll o ids root) := by
  induction ids generalizing root with
  | nil => exact .pure root
  | cons id ids ih => exact .bind (h.excerptInto hP id o root) fun r => ih (some r)

/-- The elements of an explicit edit. -/
theorem Each.explicitEdit (ha : ta.Each P) (hb : tb.Each P) {d : Document}
    (h : ta.explicitEdit a tb b = .ok (some d)) : d.tree.Each P := by
  have hedit : Maintains P (do
      let root ← ta.excerptAll .delete (ta.diff a tb b).onlyA none
      let root ← tb.excerptAll .create (ta.diff a tb b).onlyB root
      tb.excerptAll .replace (ta.diff a tb b).changedB root) :=
    .bind (ha.excerptAll hP .delete _ none) fun root =>
      .bind (hb.excerptAll hP .create _ root) fun root => hb.excerptAll hP .replace _ root
  unfold Tree.explicitEdit at h
  dsimp only at h
  split at h
  · next root t hok =>
    obtain ⟨r, -, rfl⟩ := Option.map_eq_some_iff.1 (Except.ok.inj h)
    exact (hedit _ (.empty hP ta.defaults)).of_ok hok
  · cases h

/-- Adding what is to be deleted. -/
theorem maintains_addDeletions {ds : List Deletion} (h : ∀ d ∈ ds, d.branch.Each P) :
    Maintains P (addDeletions ds) := by
  induction ds with
  | nil => exact .pure ()
  | cons d ds ih =>
    obtain ⟨hd, hds⟩ := List.forall_mem_cons.1 h
    exact .bind (.addCopy hP hd) fun copy => .bind (.append d.parent copy) fun _ =>
      .bind (.mark hP copy .delete) fun _ => ih hds

/-- The elements of a merging edit. -/
theorem Each.mergingEdit (ha : ta.Each P) (hb : tb.Each P) {d : Document}
    (h : ta.mergingEdit a tb b = .ok d) : d.tree.Each P := by
  have hcopy := (Each.empty hP tb.defaults).addCopy hP (hb.branch b)
  unfold Tree.mergingEdit at h
  dsimp only at h
  split at h
  · next t hok =>
    cases h
    have hplan := Branch.each_mergePlan (ha.branch a)
      (((Tree.empty tb.defaults).addCopy (tb.branch b)).1.branch
        ((Tree.empty tb.defaults).addCopy (tb.branch b)).2)
    exact ((maintains_addDeletions hP hplan _ hcopy).of_ok hok).detachAll _
  · cases h

/-! ## Edits between sets of nodes -/

/-- Copies below a root. -/
theorem Each.addCopies (h : src.Each P) (root : NodeId) (ids : List NodeId) :
    Maintains P (src.addCopies root ids) := by
  induction ids with
  | nil => exact .pure ()
  | cons id ids ih =>
    exact .bind (.addCopy hP (h.branch id)) fun copy => .bind (.append root copy) fun _ => ih

/-- The elements of copies of a set of nodes and of the root that is made up for them. -/
theorem Each.bundle (h : src.Each P) {ids : List NodeId} {d : Document}
    (hd : src.bundle ids = .ok d) : d.tree.Each P := by
  have hroot := (Each.empty hP src.defaults).create (hP.new (some bundleNs) bundleName none)
  unfold Tree.bundle at hd
  dsimp only at hd
  split at hd
  · next t hok =>
    cases hd
    exact (h.addCopies hP _ ids _ hroot).of_ok hok
  · cases hd

/-- The elements of an explicit edit between sets of nodes. -/
theorem Each.explicitEditOfSets (ha : ta.Each P) (hb : tb.Each P) {edit : Tree × List NodeId}
    (h : ta.explicitEditOfSets as tb bs = .ok edit) : edit.1.Each P := by
  obtain ⟨d, hd, h⟩ := bind_eq_ok.1 h
  obtain ⟨e, he, h⟩ := bind_eq_ok.1 h
  obtain ⟨found, hfound, h⟩ := bind_eq_ok.1 h
  cases found with
  | none =>
    cases h
    exact .empty hP ta.defaults
  | some i =>
    cases h
    exact ((ha.bundle hP hd).explicitEdit hP (hb.bundle hP he) hfound).detachAll _

/-- The elements of a merging edit between sets of nodes. -/
theorem Each.mergingEditOfSets (ha : ta.Each P) (hb : tb.Each P) {edit : Tree × List NodeId}
    (h : ta.mergingEditOfSets as tb bs = .ok edit) : edit.1.Each P := by
  obtain ⟨d, hd, h⟩ := bind_eq_ok.1 h
  obtain ⟨e, he, h⟩ := bind_eq_ok.1 h
  obtain ⟨i, hi, h⟩ := bind_eq_ok.1 h
  cases h
  exact ((ha.bundle hP hd).mergingEdit hP (hb.bundle hP he) hi).detachAll _

end Tree

end Netconf
