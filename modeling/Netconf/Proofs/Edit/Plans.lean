import Netconf.Proofs.Edit.Merged

/-!
# What a merge plan does to a branch

A merge plan names slots. Carried out on a branch, it takes the settled nodes out and adds edit
nodes for deletion below their parents (`Branch.amended`). The plan for two branches only names
slots of the second one, each once, so parts of it do not get in each other's way, and what it makes
of the branch is what `Branch.merged` says (`amended_mergePlan`).
-/

namespace Netconf

open Branch Edit

/-- The edit nodes that a plan adds below a node. -/
def MergePlan.added (p : MergePlan) (id : NodeId) : List Branch :=
  (p.deletions.filter fun d => d.parent = id).map Deletion.copy

namespace Branch

mutual

/-- What a plan makes of a branch. -/
def amended (p : MergePlan) : Branch → Branch
  | .mk id e bs => .mk 0 e (amendedAll p bs ++ p.added id)

/-- What a plan makes of the branches below a node, apart from what it adds there. -/
def amendedAll (p : MergePlan) : List Branch → List Branch
  | [] => []
  | b :: bs => if b.id ∈ p.settled then amendedAll p bs else b.amended p :: amendedAll p bs

end

/-- The branches that are not settled are amended one by one. -/
theorem amendedAll_eq (p : MergePlan) (bs : List Branch) :
    amendedAll p bs = (bs.filter fun b => b.id ∉ p.settled).map (amended p) := by
  induction bs with
  | nil => rw [amendedAll]; rfl
  | cons b bs ih =>
    rw [amendedAll, ih]
    by_cases hb : b.id ∈ p.settled
    · rw [if_pos hb, List.filter_cons_of_neg (by simpa using hb)]
    · rw [if_neg hb, List.filter_cons_of_pos (by simpa using hb), List.map_cons]

end Branch

namespace MergePlan

variable {p q r : MergePlan} {ids ids' : List NodeId} {id : NodeId}

/-! ## Which slots a plan names -/

/-- The plan names only these slots. -/
structure Within (p : MergePlan) (id : NodeId) (ids : List NodeId) : Prop where
  /-- What it takes out is in these slots. -/
  settled : ∀ x ∈ p.settled, x ∈ ids
  /-- What it adds is below these slots, or below one more. -/
  parent : ∀ d ∈ p.deletions, d.parent = id ∨ d.parent ∈ ids

/-- A plan that does nothing. -/
theorem Within.idle {n : Nat} : Within { count := n } id ids :=
  ⟨fun _ hx => (nomatch hx), fun _ hd => (nomatch hd)⟩

/-- A plan that takes one node out. -/
theorem Within.settle {x : NodeId} (hx : x ∈ ids) : Within { settled := [x] } id ids :=
  ⟨fun _ hy => List.mem_singleton.1 hy ▸ hx, fun _ hd => nomatch hd⟩

/-- One plan after the other. -/
theorem Within.append (hp : p.Within id ids) (hq : q.Within id ids) : (p ++ q).Within id ids where
  settled x hx := (List.mem_append.1 hx).elim (hp.settled x) (hq.settled x)
  parent d hd := (List.mem_append.1 hd).elim (hp.parent d) (hq.parent d)

/-- More slots may be allowed. -/
theorem Within.mono {id' : NodeId} (h : p.Within id ids) (hsub : ids ⊆ ids')
    (hid : id = id' ∨ id ∈ ids') : p.Within id' ids' where
  settled x hx := hsub (h.settled x hx)
  parent d hd := by
    rcases h.parent d hd with hd | hd
    · exact hid.imp (fun he => hd.trans he) fun hm => hd ▸ hm
    · exact .inr (hsub hd)

/-- Two plans do the same to some slots. -/
def SameOn (p q : MergePlan) (ids : List NodeId) : Prop :=
  ∀ x ∈ ids, (x ∈ p.settled ↔ x ∈ q.settled) ∧ p.added x = q.added x

/-- A plan does nothing to slots that it does not name. -/
theorem Within.sameOn_idle (h : p.Within id ids) {xs : List NodeId} (hid : id ∉ xs)
    (hxs : ∀ x ∈ xs, x ∉ ids) : p.SameOn {} xs := by
  intro x hx
  refine ⟨⟨fun hp => absurd (h.settled x hp) (hxs x hx), fun he => nomatch he⟩, ?_⟩
  have hnone : p.deletions.filter (fun d => decide (d.parent = x)) = [] := by
    rw [List.filter_eq_nil_iff]
    intro d hd hdx
    have hdx : d.parent = x := of_decide_eq_true hdx
    rcases h.parent d hd with he | hm
    · exact hid (he ▸ hdx ▸ hx)
    · exact hxs x hx (hdx ▸ hm)
  unfold added
  rw [hnone]
  rfl

/-- What two plans add below a node, one after the other. -/
theorem added_append (p q : MergePlan) (x : NodeId) :
    (p ++ q).added x = p.added x ++ q.added x := by
  show ((p.deletions ++ q.deletions).filter _).map _ = _
  rw [List.filter_append, List.map_append]
  rfl

/-- Of two plans one after the other, the second one may do nothing. -/
theorem SameOn.left {xs : List NodeId} (h : r.SameOn (p ++ q) xs) (hq : q.SameOn {} xs) :
    r.SameOn p xs := by
  intro x hx
  obtain ⟨hsettled, hadded⟩ := h x hx
  obtain ⟨hnot, hnone⟩ := hq x hx
  have happend : x ∈ (p ++ q).settled ↔ x ∈ p.settled ∨ x ∈ q.settled := List.mem_append
  refine ⟨hsettled.trans (happend.trans (or_iff_left fun hx => nomatch hnot.1 hx)), ?_⟩
  rw [hadded, added_append, hnone]
  exact List.append_nil _

/-- Of two plans one after the other, the first one may do nothing. -/
theorem SameOn.right {xs : List NodeId} (h : r.SameOn (p ++ q) xs) (hp : p.SameOn {} xs) :
    r.SameOn q xs := by
  intro x hx
  obtain ⟨hsettled, hadded⟩ := h x hx
  obtain ⟨hnot, hnone⟩ := hp x hx
  have happend : x ∈ (p ++ q).settled ↔ x ∈ p.settled ∨ x ∈ q.settled := List.mem_append
  refine ⟨hsettled.trans (happend.trans (or_iff_right fun hx => nomatch hnot.1 hx)), ?_⟩
  rw [hadded, added_append, hnone]
  rfl

/-- Doing the same passes on. -/
theorem SameOn.trans {xs : List NodeId} (h : p.SameOn q xs) (h' : q.SameOn r xs) : p.SameOn r xs :=
  fun x hx => ⟨(h x hx).1.trans (h' x hx).1, (h x hx).2.trans (h' x hx).2⟩

/-- What two plans do to slots, they do to some of them. -/
theorem SameOn.mono {xs ys : List NodeId} (h : p.SameOn q ys) (hsub : xs ⊆ ys) : p.SameOn q xs :=
  fun x hx => h x (hsub hx)

end MergePlan

namespace Branch

open MergePlan

variable {a b : Branch} {as bs : List Branch} {isKept : Branch → Bool} {parentA : Element}
  {id : NodeId} {p : MergePlan}

/-- What only the first configuration has is added below the parent. -/
theorem within_leftOvers : (leftOvers parentA id as).Within id [] := by
  induction as with
  | nil => exact .idle
  | cons a as ih =>
    have hone : (leftOver parentA id a).Within id [] := by
      unfold leftOver
      split
      · exact ⟨fun _ hx => (nomatch hx), fun d hd => .inl (by rw [List.mem_singleton.1 hd])⟩
      · split
        · exact .idle
        · exact ⟨fun _ hx => (nomatch hx), fun d hd => .inl (by rw [List.mem_singleton.1 hd])⟩
    exact hone.append ih

/-- What only the first configuration has is added as it is in the merged branch. -/
theorem added_leftOvers (parentA : Element) (id : NodeId) (as : List Branch) :
    (leftOvers parentA id as).added id = as.flatMap (leftCopies parentA) := by
  induction as with
  | nil => rfl
  | cons a as ih =>
    have hone : (leftOver parentA id a).added id = leftCopies parentA a := by
      unfold added leftCopies leftOver
      split
      · simp [Deletion.copy]
      · split <;> simp [Deletion.copy]
    rw [leftOvers, added_append, ih, hone, List.flatMap_cons]

/-- The plan for a node that something corresponds to names only slots of its branch. -/
theorem within_planPair (hb : (b.mergePlan a).Within b.id (idsOfAll b.children)) :
    (planPair b a).Within b.id b.ids := by
  have htop : b.id ∈ b.ids := by rw [ids_eq]; exact List.mem_cons_self
  have hall : (b.mergePlan a).Within b.id b.ids := hb.mono (by rw [ids_eq]; simp) (.inl rfl)
  unfold planPair
  split
  · split
    · exact hall.append (.settle htop)
    · exact hall
  · split
    · exact .settle htop
    · exact .idle

/-- The plan for the children of a node names only slots below it. -/
theorem within_mergePlanAll (isKept : Branch → Bool) (id : NodeId) (parentA : Element)
    (bs as : List Branch) : (mergePlanAll isKept id parentA bs as).Within id (idsOfAll bs) := by
  refine (mutualInduction
    (P := fun b => ∀ a : Branch, (b.mergePlan a).Within b.id (idsOfAll b.children))
    (Q := fun bs => ∀ isKept id parentA as,
      (mergePlanAll isKept id parentA bs as).Within id (idsOfAll bs)) ?_ ?_ ?_).2 bs isKept id
      parentA as
  · intro id e bs ih a
    rw [mergePlan_eq]
    exact ih _ _ _ _
  · intro isKept id parentA as
    rw [mergePlanAll]
    exact within_leftOvers
  · intro b bs ihb ihbs isKept id parentA as
    have hrest : ∀ as, (mergePlanAll isKept id parentA bs as).Within id (idsOfAll (b :: bs)) :=
      fun as => (ihbs isKept id parentA as).mono (by rw [idsOfAll]; simp) (.inl rfl)
    cases hkept : isKept b with
    | true =>
      rw [mergePlanAll_cons_of_kept hkept]
      exact hrest as
    | false =>
      rcases correspondent_cases b as with ⟨hnone, -⟩ | ⟨pre, a, post, rfl, hsome, -, -⟩
      · rw [mergePlanAll_cons_of_none hkept hnone]
        exact Within.idle.append (hrest as)
      · have htop : b.id ∈ idsOfAll (b :: bs) := by
          rw [idsOfAll, ids_eq]
          simp
        rw [mergePlanAll_cons_of_some hkept hsome]
        refine Within.append ?_ (hrest _)
        exact (within_planPair (ihb a)).mono (by rw [idsOfAll]; simp) (.inr htop)

/-- A plan that does nothing to the slots of a branch leaves the branch. -/
theorem amended_of_idle (h : p.SameOn {} b.ids) : b.amended p = b.bare := by
  induction b using induction with
  | step id e bs ih =>
    have hsub : ∀ b ∈ bs, b.ids ⊆ (mk id e bs).ids := fun b hb x hx => by
      rw [ids]
      exact List.mem_cons_of_mem _ (mem_idsOfAll.2 ⟨b, hb, hx⟩)
    have hkeep : bs.filter (fun b => decide (b.id ∉ p.settled)) = bs := by
      rw [List.filter_eq_self]
      intro b hb
      have hb' := (h b.id (hsub b hb (by rw [ids_eq]; exact List.mem_cons_self))).1
      simpa using fun hs => List.not_mem_nil (hb'.1 hs)
    have hnone : p.added id = [] := (h id (by rw [ids]; exact List.mem_cons_self)).2
    rw [amended, bare_mk, amendedAll_eq, hkeep, hnone, List.append_nil]
    exact congrArg (mk 0 e) (List.map_congr_left fun b hb => ih b hb (h.mono (hsub b hb)))

/-- A plan leaves of a node that something corresponds to what is left of it. -/
theorem amended_pair (hnd : b.ids.Nodup)
    (hb : ∀ p : MergePlan, p.SameOn (b.mergePlan a) b.ids → b.amended p = b.merged a)
    (h : p.SameOn (planPair b a) b.ids) :
    (if b.id ∈ p.settled then [] else [b.amended p]) = mergedPair b a := by
  have htop : b.id ∈ b.ids := by rw [ids_eq]; exact List.mem_cons_self
  have hwithin : (b.mergePlan a).Within b.id (idsOfAll b.children) := by
    rw [mergePlan_eq]
    exact within_mergePlanAll _ _ _ _ _
  have hfree : b.id ∉ idsOfAll b.children := by
    rw [ids_eq] at hnd
    exact (List.nodup_cons.1 hnd).1
  unfold planPair at h
  unfold mergedPair
  split at h
  · next hcomp =>
    rw [if_pos hcomp]
    split at h
    · next hcount =>
      have hsettled : b.id ∈ p.settled :=
        (h b.id htop).1.2 (List.mem_append_right _ (List.mem_singleton.2 rfl))
      rw [if_pos hcount, if_pos hsettled]
    · next hcount =>
      have hsettled : b.id ∉ p.settled := fun hs =>
        hfree (hwithin.settled _ ((h b.id htop).1.1 hs))
      rw [if_neg hcount, if_neg hsettled, hb p h]
  · next hcomp =>
    rw [if_neg hcomp]
    split at h
    · next halike =>
      have hsettled : b.id ∈ p.settled := (h b.id htop).1.2 (List.mem_singleton.2 rfl)
      rw [if_pos halike, if_pos hsettled]
    · next halike =>
      have hidle : p.SameOn {} b.ids := h
      have hsettled : b.id ∉ p.settled := fun hs =>
        List.not_mem_nil ((hidle b.id htop).1.1 hs)
      rw [if_neg halike, if_neg hsettled, amended_of_idle hidle]

/-- A plan leaves of the branches below a node, with what it adds, what is left of them. -/
theorem amendedAll_mergePlanAll (hnd : (id :: idsOfAll bs).Nodup)
    (h : p.SameOn (mergePlanAll isKept id parentA bs as) (id :: idsOfAll bs)) :
    amendedAll p bs ++ p.added id = mergedAll isKept parentA bs as := by
  refine (mutualInduction
    (P := fun b => ∀ (a : Branch) (p : MergePlan), b.ids.Nodup →
      p.SameOn (b.mergePlan a) b.ids → b.amended p = b.merged a)
    (Q := fun bs => ∀ isKept id parentA as (p : MergePlan), (id :: idsOfAll bs).Nodup →
      p.SameOn (mergePlanAll isKept id parentA bs as) (id :: idsOfAll bs) →
      amendedAll p bs ++ p.added id = mergedAll isKept parentA bs as) ?_ ?_ ?_).2 bs isKept id
      parentA as p hnd h
  · intro id e bs ih a p hnd h
    rw [mergePlan_eq] at h
    rw [amended, merged_eq]
    exact congrArg (mk 0 e) (ih _ id _ _ p (by rwa [ids] at hnd) (by rwa [ids] at h))
  · intro isKept id parentA as p hnd h
    have hadded := (h id List.mem_cons_self).2
    rw [mergePlanAll, added_leftOvers] at hadded
    rw [amendedAll, List.nil_append, hadded, mergedAll_nil]
  · intro b bs ihb ihbs isKept id parentA as p hnd h
    rw [idsOfAll] at hnd h
    obtain ⟨hid, hnd⟩ := List.nodup_cons.1 hnd
    obtain ⟨hb, hbs, hapart⟩ := List.nodup_append.1 hnd
    rw [List.mem_append, not_or] at hid
    have htop : b.id ∈ b.ids := by rw [ids_eq]; exact List.mem_cons_self
    have hsubB : b.ids ⊆ id :: (b.ids ++ idsOfAll bs) := by simp
    have hsubBs : id :: idsOfAll bs ⊆ id :: (b.ids ++ idsOfAll bs) := by simp
    -- the plan for the node and that for the others do not get in each other's way
    have hrest : ∀ as, (mergePlanAll isKept id parentA bs as).SameOn {} b.ids := fun as =>
      (within_mergePlanAll isKept id parentA bs as).sameOn_idle hid.1
        fun x hx hx' => hapart x hx x hx' rfl
    have hown : ∀ q : MergePlan, q.Within b.id b.ids → q.SameOn {} (id :: idsOfAll bs) := by
      intro q hq
      have hfree : ∀ x ∈ id :: idsOfAll bs, x ∉ b.ids := by
        intro x hx hxb
        rcases List.mem_cons.1 hx with rfl | hx
        · exact hid.1 hxb
        · exact hapart x hxb x hx rfl
      exact hq.sameOn_idle (fun hm => hfree _ hm htop) hfree
    have hothers : ∀ as, p.SameOn (mergePlanAll isKept id parentA bs as) (id :: idsOfAll bs) →
        amendedAll p bs ++ p.added id = mergedAll isKept parentA bs as := fun as =>
      ihbs isKept id parentA as p (List.nodup_cons.2 ⟨hid.2, hbs⟩)
    have huntouched : p.SameOn {} b.ids → amendedAll p (b :: bs) = b.bare :: amendedAll p bs := by
      intro hidle
      have hsettled : b.id ∉ p.settled := fun hs =>
        List.not_mem_nil ((hidle b.id htop).1.1 hs)
      rw [amendedAll, if_neg hsettled, amended_of_idle hidle]
    cases hkept : isKept b with
    | true =>
      rw [mergePlanAll_cons_of_kept hkept] at h
      rw [mergedAll_cons_of_kept hkept, huntouched ((h.mono hsubB).trans (hrest as)),
        List.cons_append, hothers as (h.mono hsubBs)]
    | false =>
      rcases correspondent_cases b as with ⟨hnone, -⟩ | ⟨pre, a, post, rfl, hsome, -, -⟩
      · rw [mergePlanAll_cons_of_none hkept hnone] at h
        have hcount : MergePlan.SameOn { count := 1 } {} b.ids := fun _ _ => ⟨.rfl, rfl⟩
        have hidle := ((h.mono hsubB).left (hrest as)).trans hcount
        rw [mergedAll_cons_of_none hkept hnone, huntouched hidle, List.cons_append,
          hothers as ((h.mono hsubBs).right (hown _ .idle))]
      · rw [mergePlanAll_cons_of_some hkept hsome] at h
        have hpair := amended_pair hb (fun p => ihb a p hb) ((h.mono hsubB).left (hrest _))
        have hwithin : (b.mergePlan a).Within b.id (idsOfAll b.children) := by
          rw [mergePlan_eq]
          exact within_mergePlanAll _ _ _ _ _
        have hrest' := hothers _ ((h.mono hsubBs).right (hown _ (within_planPair hwithin)))
        rw [mergedAll_cons_of_some hkept hsome, ← hpair, ← hrest', amendedAll]
        split <;> rfl

/-- A plan that does to a branch what the plan for it does makes of it what is left of it. -/
theorem amended_of_sameOn (hnd : b.ids.Nodup) (h : p.SameOn (b.mergePlan a) b.ids) :
    b.amended p = b.merged a := by
  rw [ids_eq] at hnd
  rw [ids_eq, mergePlan_eq] at h
  rw [merged_eq, ← amendedAll_mergePlanAll hnd h]
  cases b
  rw [amended]
  rfl

/-- The plan for two branches makes of the second one what is left of it. -/
theorem amended_mergePlan (hnd : b.ids.Nodup) : b.amended (b.mergePlan a) = b.merged a :=
  amended_of_sameOn hnd fun _ _ => ⟨.rfl, rfl⟩

end Branch

end Netconf
