import Netconf.Proofs.Edit.Merging
import Netconf.Proofs.Tree.Equivalence

/-!
# What a merging edit spares

A merging edit holds nothing of what two configurations have in common. Its plan pairs nodes of the
copy of the second configuration with nodes of the first one, as `Branch.Counterpart` says, and
counts the differences that it finds below each pair. The count is zero just when the two sides
agree (`Edit.Sides.count_eq_zero_iff`), and just when only keys are left of the children of the
copy (`Branch.mergedAll_keys_iff`). So the edit between documents that agree has only keys below
its root, and every node with a counterpart that stays in an edit is there for a difference
(`Document.Fit.mergingEdit_spares`).
-/

namespace Netconf

open Branch Edit

namespace Branch

/-! ## Counterparts -/

/-- The children of a node of the copy that are not kept anyway, with the children of its
counterpart that they are matched to. -/
def partners (isKept : Branch → Bool) : List Branch → List Branch → List (Branch × Branch)
  | [], _ => []
  | b :: bs, as =>
    if isKept b then partners isKept bs as
    else
      match takeFirst (fun a => if b.corresponds a then some () else none) as with
      | none => partners isKept bs as
      | some (a, _, others) => (b, a) :: partners isKept bs others

/-- In the plan for the branch `b`, to which `a` corresponds, the node `y` below `b` is matched to
the node `x` below `a`. The plan goes on below nodes that are compared by what is below them. -/
inductive Counterpart : Branch → Branch → Branch → Branch → Prop where
  /-- A child is matched to a child. -/
  | child {b a y x} (h : (y, x) ∈ partners (b.keepsKey a) b.children a.children) :
    Counterpart b a y x
  /-- A node further down is matched in the plan for a child. -/
  | inside {b a c d y x} (h : (c, d) ∈ partners (b.keepsKey a) b.children a.children)
    (hcomp : (d.entry.isComposite || c.entry.isComposite) = true) (hinside : Counterpart c d y x) :
    Counterpart b a y x

variable {a b x y : Branch} {as bs : List Branch} {isKept : Branch → Bool} {parentA : Element}
  {id : NodeId} {p : MergePlan}

/-- Partners are nodes of the two sides, and the one on the first side corresponds to the other. -/
theorem of_mem_partners (h : (y, x) ∈ partners isKept bs as) :
    y ∈ bs ∧ x ∈ as ∧ y.corresponds x = true := by
  induction bs generalizing as with
  | nil => rw [partners] at h; cases h
  | cons b bs ih =>
    cases hkept : isKept b with
    | true =>
      rw [partners, if_pos hkept] at h
      obtain ⟨hy, hrest⟩ := ih h
      exact ⟨List.mem_cons_of_mem _ hy, hrest⟩
    | false =>
      rw [partners, if_neg (by simp [hkept])] at h
      rcases correspondent_cases b as with ⟨hnone, -⟩ | ⟨pre, a, post, rfl, hsome, -, ha⟩
      · rw [hnone] at h
        obtain ⟨hy, hrest⟩ := ih h
        exact ⟨List.mem_cons_of_mem _ hy, hrest⟩
      · rw [hsome] at h
        rcases List.mem_cons.1 h with heq | h
        · obtain ⟨rfl, rfl⟩ := Prod.mk.inj heq
          exact ⟨List.mem_cons_self, by simp, ha⟩
        · obtain ⟨hy, hx, hrest⟩ := ih h
          refine ⟨List.mem_cons_of_mem _ hy, ?_, hrest⟩
          rcases List.mem_append.1 hx with hx | hx <;> simp [hx]

/-- Nodes that correspond are both compared by what is below them, or neither is. -/
theorem isComposite_of_corresponds (h : y.corresponds x = true) :
    x.entry.isComposite = y.entry.isComposite := by
  unfold corresponds at h
  split at h
  · next hy =>
    rw [Bool.and_eq_true, Bool.and_eq_true] at h
    rw [hy, h.1.1]
  · next hy =>
    rw [Bool.and_eq_true, Bool.not_eq_true'] at h
    rw [h.1, Bool.eq_false_iff.2 hy]

/-- The plan for the children of a node does to a partner what the plan for the pair does. -/
theorem sameOn_of_mem_partners (hnd : (id :: idsOfAll bs).Nodup)
    (h : p.SameOn (mergePlanAll isKept id parentA bs as) (idsOfAll bs))
    (hyx : (y, x) ∈ partners isKept bs as) : p.SameOn (planPair y x) y.ids := by
  induction bs generalizing as with
  | nil => rw [partners] at hyx; cases hyx
  | cons b bs ih =>
    rw [idsOfAll] at hnd h
    obtain ⟨hid, hnd⟩ := List.nodup_cons.1 hnd
    obtain ⟨hb, hbs, hapart⟩ := List.nodup_append.1 hnd
    rw [List.mem_append, not_or] at hid
    have hsubB : b.ids ⊆ b.ids ++ idsOfAll bs := List.subset_append_left _ _
    have hsubBs : idsOfAll bs ⊆ b.ids ++ idsOfAll bs := List.subset_append_right _ _
    have hothers : ∀ as, p.SameOn (mergePlanAll isKept id parentA bs as) (idsOfAll bs) →
        (y, x) ∈ partners isKept bs as → p.SameOn (planPair y x) y.ids :=
      fun as => ih (List.nodup_cons.2 ⟨hid.2, hbs⟩)
    cases hkept : isKept b with
    | true =>
      rw [partners, if_pos hkept] at hyx
      rw [mergePlanAll_cons_of_kept hkept] at h
      exact hothers as (h.mono hsubBs) hyx
    | false =>
      rw [partners, if_neg (by simp [hkept])] at hyx
      rcases correspondent_cases b as with ⟨hnone, -⟩ | ⟨pre, a, post, rfl, hsome, -, -⟩
      · rw [hnone] at hyx
        rw [mergePlanAll_cons_of_none hkept hnone] at h
        exact hothers as ((h.mono hsubBs).right fun _ _ => ⟨.rfl, rfl⟩) hyx
      · rw [hsome] at hyx
        rw [mergePlanAll_cons_of_some hkept hsome] at h
        rcases List.mem_cons.1 hyx with heq | hyx
        · -- the plan for the others does nothing to the slots of this pair
          obtain ⟨rfl, rfl⟩ := Prod.mk.inj heq
          refine (h.mono hsubB).left ?_
          exact (within_mergePlanAll isKept id parentA bs _).sameOn_idle hid.1
            fun z hz hz' => hapart z hz z hz' rfl
        · -- nor does the plan for this pair do anything to the others
          have hwithin : (b.mergePlan a).Within b.id (idsOfAll b.children) := by
            rw [mergePlan_eq]
            exact within_mergePlanAll _ _ _ _ _
          have htop : b.id ∈ b.ids := by rw [ids_eq]; exact List.mem_cons_self
          refine hothers _ ((h.mono hsubBs).right ?_) hyx
          exact (within_planPair hwithin).sameOn_idle (fun hm => hapart _ htop _ hm rfl)
            fun z hz hz' => hapart z hz' z hz rfl

/-- The plan for a branch does to every node with a counterpart what the plan for the pair does. -/
theorem Counterpart.sameOn (h : Counterpart b a y x) (hnd : b.ids.Nodup)
    (hp : p.SameOn (b.mergePlan a) (idsOfAll b.children)) :
    y.ids.Nodup ∧ p.SameOn (planPair y x) y.ids := by
  have hids : ∀ {b y : Branch}, y ∈ b.children → b.ids.Nodup → y.ids.Nodup := by
    intro b y hy hnd
    rw [ids_eq, idsOfAll_eq_flatMap] at hnd
    exact (List.nodup_flatMap.1 (List.nodup_cons.1 hnd).2).1 y hy
  induction h with
  | child h =>
    obtain ⟨hy, -, -⟩ := of_mem_partners h
    refine ⟨hids hy hnd, ?_⟩
    rw [ids_eq] at hnd
    rw [mergePlan_eq] at hp
    exact sameOn_of_mem_partners hnd hp h
  | @inside b a c d y x h hcomp _ ih =>
    obtain ⟨hc, -, -⟩ := of_mem_partners h
    have hndc := hids hc hnd
    rw [ids_eq] at hnd
    rw [mergePlan_eq] at hp
    have hpair := (sameOn_of_mem_partners hnd hp h).mono (show idsOfAll c.children ⊆ c.ids by
      rw [ids_eq]; exact List.subset_cons_self _ _)
    refine ih hndc ?_
    -- below the pair, its own plan and the one for what is below it are the same
    rw [ids_eq] at hndc
    unfold planPair at hpair
    rw [if_pos hcomp] at hpair
    split at hpair
    · refine hpair.left fun z hz => ⟨?_, rfl⟩
      have hne : z ≠ c.id := fun he => (List.nodup_cons.1 hndc).1 (he ▸ hz)
      simp [hne]
    · exact hpair

/-! ## What is left of the children -/

/-- What is left of the first side's children are keys just when nothing of them counts. -/
theorem leftCopies_keys_iff
    (ha : parentA.hasKey a.element.name = true → a.entry.isComposite = false) :
    (∀ c ∈ leftCopies parentA a, parentA.hasKey c.element.name = true) ↔
      (leftOver parentA id a).count = 0 := by
  rw [← length_leftCopies parentA id a, List.length_eq_zero_iff]
  refine ⟨fun h => List.eq_nil_iff_forall_not_mem.2 fun c hc => ?_, fun h c hc => ?_⟩
  · exact name_leftCopies (List.contains_iff_mem.1 (h c hc)) ha hc rfl
  · rw [h] at hc
    cases hc

/-- Only keys are left of the children of a node just when the plan for them counts nothing. -/
theorem mergedAll_keys_iff
    (has : ∀ a ∈ as, parentA.hasKey a.element.name = true → a.entry.isComposite = false)
    (hbs : ∀ b ∈ bs, isKept b = parentA.hasKey b.element.name) :
    (∀ c ∈ mergedAll isKept parentA bs as, parentA.hasKey c.element.name = true) ↔
      (mergePlanAll isKept id parentA bs as).count = 0 := by
  induction bs generalizing as with
  | nil =>
    rw [mergedAll_nil, mergePlanAll, count_leftOvers]
    refine ⟨fun h a ha => ?_, fun h c hc => ?_⟩
    · exact (leftCopies_keys_iff (has a ha)).1 fun c hc => h c (List.mem_flatMap.2 ⟨a, ha, hc⟩)
    · obtain ⟨a, ha, hc⟩ := List.mem_flatMap.1 hc
      exact (leftCopies_keys_iff (has a ha)).2 (h a ha) c hc
  | cons b bs ih =>
    have hb := hbs b (by simp)
    have hrest : ∀ c ∈ bs, isKept c = parentA.hasKey c.element.name :=
      fun c hc => hbs c (by simp [hc])
    cases hkept : isKept b with
    | true =>
      -- a key stays on both sides of the equivalence, without counting
      rw [mergedAll_cons_of_kept hkept, mergePlanAll_cons_of_kept hkept, List.forall_mem_cons,
        element_bare, ← hb, hkept, ih has hrest]
      exact and_iff_right rfl
    | false =>
      have hno : ¬ parentA.hasKey b.element.name = true := by rw [← hb, hkept]; decide
      rcases correspondent_cases b as with ⟨hnone, -⟩ | ⟨pre, a, post, rfl, hsome, -, -⟩
      · rw [mergedAll_cons_of_none hkept hnone, mergePlanAll_cons_of_none hkept hnone,
          List.forall_mem_cons, element_bare, count_append]
        exact iff_of_false (fun h => hno h.1) (by simp)
      · -- nothing that is left of the pair is a key
        have hpair : (∀ c ∈ mergedPair b a, parentA.hasKey c.element.name = true) ↔
            (planPair b a).count = 0 := by
          rw [← mergedPair_eq_nil_iff]
          refine ⟨fun h => List.eq_nil_iff_forall_not_mem.2 fun c hc => ?_, fun h c hc => ?_⟩
          · exact hno (element_of_mem_mergedPair hc ▸ h c hc)
          · rw [h] at hc
            cases hc
        rw [mergedAll_cons_of_some hkept hsome, mergePlanAll_cons_of_some hkept hsome,
          List.forall_mem_append, count_append, Nat.add_eq_zero_iff, hpair, ih ?_ hrest]
        intro d hd
        refine has d ?_
        rcases List.mem_append.1 hd with hd | hd <;> simp [hd]

end Branch

namespace Edit

variable {s : Schema} {a b x y : Branch}

/-! ## Differences of two sides -/

namespace Sides

/-- Children that agree are the same node. -/
theorem matches_of_agrees (h : Sides s a b) (hx : x ∈ a.children) (hy : y ∈ b.children)
    (hxy : x.Agrees y) :
    x.element.kind = y.element.kind ∧ x.entry.matchesEntry y.entry = true := by
  obtain ⟨hname, hns, -⟩ := Element.alike_iff.1 (agrees_iff.1 hxy).1
  have hkind : x.element.kind = y.element.kind := by
    rw [h.kindsA x hx, h.kindsB y hy, hname, hns]
  exact ⟨hkind, Entry.matches_of_compare
    (compare_of_agrees hkind (all_iff.1 ((all_iff.1 h.keyedB).2 y hy)).1 hxy)⟩

/-- Children that agree correspond. -/
theorem corresponds_of_agrees (h : Sides s a b) (hx : x ∈ a.children) (hy : y ∈ b.children)
    (hxy : x.Agrees y) : y.corresponds x = true := by
  obtain ⟨hkind, hmatch⟩ := h.matches_of_agrees hx hy hxy
  obtain ⟨halike, hall⟩ := agrees_iff.1 hxy
  cases hk : x.element.kind with
  | container t => exact corresponds_of_container hk (hkind ▸ hk) hmatch
  | leaf => exact corresponds_of_leaf hk (hkind ▸ hk) (Entry.sameName_of_matches hmatch)
  | plain =>
    -- without schema it is the children that decide how a node is compared
    have hyk : y.element.kind = .plain := hkind ▸ hk
    have hcomp : x.entry.isComposite = y.entry.isComposite := by
      have hempty : x.children.isEmpty = y.children.isEmpty := by
        rw [Bool.eq_iff_iff, List.isEmpty_iff_length_eq_zero, List.isEmpty_iff_length_eq_zero,
          hall.length_eq]
      rw [isComposite_of_plain hk, isComposite_of_plain hyk, hempty]
    unfold corresponds
    rw [hcomp]
    split
    · next hy => rw [hy, halike, hyk]; rfl
    · next hy =>
      rw [Bool.eq_false_iff.2 hy]
      exact Entry.sameName_of_matches hmatch

/-- Children that correspond and are compared by what is below them are two sides. -/
theorem of_corresponds (h : Sides s a b) (hx : x ∈ a.children) (hy : y ∈ b.children)
    (hcomp : y.entry.isComposite = true) (hyx : y.corresponds x = true) : Sides s x y := by
  have hkind : x.element.kind = y.element.kind :=
    Entry.kind_eq_of_identity_eq (x := x.entry) (y := y.entry) (h.kindsA x hx) (h.kindsB y hy)
      (identity_of_corresponds (h.kindsB y hy) hyx)
  refine h.child hx hy ?_
  by_cases hplain : x.element.kind = .plain
  · unfold corresponds at hyx
    rw [if_pos hcomp, Bool.and_eq_true, Bool.and_eq_true] at hyx
    exact (Entry.matches_iff_of_plain (x := x.entry) hplain).2 hyx.1.2
  · exact matches_of_corresponds hkind hplain hyx

/-- The children of the two sides agree just when those of each identity do. -/
theorem agreesAll_iff_part (h : Sides s a b) : AgreesAll a.children b.children ↔
    ∀ k, AgreesAll (a.children.filter fun d => d.identity (s.rule (some a.element.kind)) = k)
      (b.children.filter fun d => d.identity (s.rule (some a.element.kind)) = k) :=
  ⟨AgreesAll.filter fun x hx _ hy hxy =>
      Entry.identity_eq_of_matches (h.kindsA x hx) (h.matches_of_agrees hx hy hxy).2,
    agreesAll_of_filter _⟩

/-- The plan for nodes that correspond counts nothing just when they agree. -/
theorem count_planPair (h : Sides s a b) (hx : x ∈ a.children) (hy : y ∈ b.children)
    (hyx : y.corresponds x = true)
    (hinner : Sides s x y → ((y.mergePlan x).count = 0 ↔ AgreesAll x.children y.children)) :
    (planPair y x).count = 0 ↔ x.Agrees y := by
  have hcomp := isComposite_of_corresponds hyx
  rw [agrees_iff]
  unfold planPair
  rw [hcomp, Bool.or_self]
  by_cases hycomp : y.entry.isComposite = true
  · -- the tops are alike, since they correspond: only what is below them can count
    have halike : x.element.alike y.element = true := by
      unfold corresponds at hyx
      rw [if_pos hycomp, Bool.and_eq_true, Bool.and_eq_true] at hyx
      exact hyx.1.2
    rw [if_pos hycomp, ← hinner (h.of_corresponds hx hy hycomp hyx)]
    refine Iff.trans ?_ (and_iff_right halike).symm
    split
    · next hzero => exact iff_of_true hzero hzero
    · exact Iff.rfl
  · -- nothing is below the tops, and their values decide
    have hyfalse := Bool.eq_false_iff.2 hycomp
    have hxs := children_of_not_composite (all_iff.1 ((all_iff.1 h.keyedA).2 x hx)).1.leaf
      (hcomp.trans hyfalse)
    have hys := children_of_not_composite (all_iff.1 ((all_iff.1 h.keyedB).2 y hy)).1.leaf hyfalse
    rw [if_neg hycomp, hxs, hys]
    refine Iff.trans ?_ (and_iff_left rfl).symm
    split
    · next halike => exact iff_of_true rfl halike
    · next halike => exact iff_of_false Nat.one_ne_zero halike

/-- The plan for nodes that are each alone in their class counts nothing just when they agree. -/
theorem count_pair (h : Sides s a b) (id : NodeId) (hx : x ∈ a.children)
    (hyk : (b.children.filter fun d => d.identity (s.rule (some a.element.kind)) =
      x.identity (s.rule (some a.element.kind))) = [y])
    (hinner : Sides s x y → ((y.mergePlan x).count = 0 ↔ AgreesAll x.children y.children)) :
    (mergePlanAll (b.keepsKey a) id a.element [y] [x]).count = 0 ↔ AgreesAll [x] [y] := by
  have hmem : y ∈ b.children.filter fun d => decide (d.identity (s.rule (some a.element.kind)) =
      x.identity (s.rule (some a.element.kind))) := by rw [hyk]; exact List.mem_singleton.2 rfl
  obtain ⟨hy, hid⟩ := List.mem_filter.1 hmem
  have hname : y.element.name = x.element.name := congrArg Identity.name (of_decide_eq_true hid)
  rw [agreesAll_singleton_iff]
  cases hkey : a.element.hasKey x.element.name with
  | true =>
    -- a key stays, and its like on the first side is not deleted
    obtain ⟨halike, hxs, hys, -⟩ := h.agrees_key hx hkey hyk
    rw [mergePlanAll_cons_of_kept (by rw [keepsKey_eq h hy, hname, hkey]), mergePlanAll,
      count_leftOvers]
    refine iff_of_true (fun x' hx' => ?_) (agrees_iff.2 ⟨halike, by rw [hxs, hys]; rfl⟩)
    rw [List.mem_singleton.1 hx', leftOver, isComposite_of_hasKey h hx hkey, hkey]
    rfl
  | false =>
    have hkept : b.keepsKey a y = false := by rw [keepsKey_eq h hy, hname, hkey]
    by_cases hyx : y.corresponds x = true
    · rw [mergePlanAll_cons_of_some hkept (takeFirst_correspondent hyx), count_append,
        ← h.count_planPair hx hy hyx hinner]
      rfl
    · have hnone : takeFirst (fun a => if y.corresponds a then some () else none) [x] = none :=
        takeFirst_eq_none.2 fun x' hx' => by simp [List.mem_singleton.1 hx', hyx]
      rw [mergePlanAll_cons_of_none hkept hnone, count_append]
      exact iff_of_false (by simp) fun hxy => hyx (h.corresponds_of_agrees hx hy hxy)

/-- The plan for two sides counts nothing just when their children agree. -/
theorem count_eq_zero_iff (h : Sides s a b) :
    (b.mergePlan a).count = 0 ↔ AgreesAll a.children b.children := by
  induction a using Branch.induction generalizing b with
  | step id e as ih =>
    generalize ha : Branch.mk id e as = a at h
    have ih : ∀ x ∈ a.children, ∀ y, Sides s x y →
        ((y.mergePlan x).count = 0 ↔ AgreesAll x.children y.children) := by
      subst ha
      exact fun x hx y => ih x hx
    rw [mergePlan_eq, count_eq_zero_iff_part h.kindsB, h.agreesAll_iff_part]
    refine forall_congr' fun k => ?_
    -- siblings have different identities, so a class has at most one member on each side
    rcases filter_identity_cases ((all_iff.1 h.keyedA).1.pairwise_identity h.kindsA) k with
      hA | ⟨x, hx, rfl, hA⟩
    · rcases filter_identity_cases ((all_iff.1 h.keyedB).1.pairwise_identity h.kindsB) k with
        hB | ⟨y, hy, rfl, hB⟩
      · rw [hA, hB]
        exact iff_of_true rfl rfl
      · -- only on the second side: the node is no key, and counts
        have hkept : b.keepsKey a y = false := by
          rw [keepsKey_eq h hy, ← h.hasKey_eq, h.hasKey_right hy hA]
        rw [hA, hB, mergePlanAll_cons_of_none hkept rfl, count_append]
        exact iff_of_false (by simp) fun hall => absurd hall.length_eq (by simp)
    · rcases filter_identity_cases ((all_iff.1 h.keyedB).1.pairwise_identity h.kindsB)
        (x.identity (s.rule (some a.element.kind))) with hB | ⟨y, hy, hyx, hB⟩
      · -- only on the first side: the node is no key, and is deleted
        have hcount : (leftOver a.element b.id x).count = 1 := by
          unfold leftOver
          rw [h.hasKey_left hx hB]
          split <;> rfl
        rw [hA, hB, mergePlanAll, count_leftOvers]
        refine iff_of_false (fun hzero => ?_) fun hall => absurd hall.length_eq (by simp)
        exact absurd (hcount.symm.trans (hzero x (by simp))) Nat.one_ne_zero
      · rw [hA, hB]
        exact h.count_pair b.id hx hB (ih x hx y)

/-- A difference lists nothing below two sides just when their children agree. -/
theorem listings_eq_empty_iff (h : Sides s a b) :
    a.listings b = {} ↔ AgreesAll a.children b.children := by
  refine ⟨fun hnone => ?_, fun hall => ?_⟩
  · rw [listings_eq] at hnone
    exact agreesAll_of_listingsAll (all_iff.1 (childlessLeaves_of_wellKeyed h.keyedA)).2
      (all_iff.1 (childlessLeaves_of_wellKeyed h.keyedB)).2 hnone
  · by_cases hleaf : a.element.kind = .leaf
    · rw [listings_eq, (all_iff.1 h.keyedA).1.leaf hleaf,
        (all_iff.1 h.keyedB).1.leaf (h.kind ▸ hleaf), listingsAll_nil_left]
      rfl
    · exact listings_of_agrees h.kind h.describedA h.describedB h.keyedB
        (agrees_iff.2 ⟨Entry.alike_of_matches (x := a.entry) (y := b.entry) hleaf h.same, hall⟩)

/-- Only keys are left below the second side just when the plan counts nothing. -/
theorem merged_keys_iff (h : Sides s a b) :
    (∀ c ∈ mergedAll (b.keepsKey a) a.element b.children a.children,
      b.element.hasKey c.element.name = true) ↔ (b.mergePlan a).count = 0 := by
  simp only [h.hasKey_eq]
  rw [mergePlan_eq]
  exact mergedAll_keys_iff (fun c hc => isComposite_of_hasKey h hc) fun c hc => keepsKey_eq h hc

/-- Counterparts that are compared by what is below them are two sides. -/
theorem counterpart (h : Sides s a b) (hyx : Counterpart b a y x)
    (hcomp : y.entry.isComposite = true) : Sides s x y := by
  induction hyx with
  | child hmem =>
    obtain ⟨hy, hx, hcorr⟩ := of_mem_partners hmem
    exact h.of_corresponds hx hy hcomp hcorr
  | inside hmem hinner _ ih =>
    obtain ⟨hc, hd, hcorr⟩ := of_mem_partners hmem
    rw [isComposite_of_corresponds hcorr, Bool.or_self] at hinner
    exact ih (h.of_corresponds hd hc hinner hcorr) hcomp

end Sides

end Edit

namespace Branch

variable {a b x y : Branch} {p : MergePlan}

/-- A node with a counterpart is below the top. -/
theorem Counterpart.id_mem (h : Counterpart b a y x) : y.id ∈ idsOfAll b.children := by
  induction h with
  | child hmem =>
    exact mem_idsOfAll.2 ⟨_, (of_mem_partners hmem).1, by rw [ids_eq]; exact List.mem_cons_self⟩
  | inside hmem _ _ ih =>
    refine mem_idsOfAll.2 ⟨_, (of_mem_partners hmem).1, ?_⟩
    rw [ids_eq]
    exact List.mem_cons_of_mem _ ih

/-- Counterparts have the same name. -/
theorem Counterpart.corresponds (h : Counterpart b a y x) : y.corresponds x = true := by
  induction h with
  | child hmem => exact (of_mem_partners hmem).2.2
  | inside _ _ _ ih => exact ih

/-- A node with a counterpart that the plan does not settle is there for a difference: something
counts below it, or it is not alike. -/
theorem Counterpart.cases_of_not_settled (h : Counterpart b a y x) (hnd : b.ids.Nodup)
    (hp : p.SameOn (b.mergePlan a) (idsOfAll b.children)) (hy : y.id ∉ p.settled) :
    (y.entry.isComposite = true ∧ (y.mergePlan x).count ≠ 0 ∧ y.amended p = y.merged x) ∨
      (y.entry.isComposite = false ∧ x.element.alike y.element = false ∧ y.amended p = y.bare) := by
  obtain ⟨hndY, hpair⟩ := h.sameOn hnd hp
  have htop : y.id ∈ y.ids := by rw [ids_eq]; exact List.mem_cons_self
  unfold planPair at hpair
  rw [isComposite_of_corresponds h.corresponds, Bool.or_self] at hpair
  split at hpair
  · next hcomp =>
    refine .inl ⟨hcomp, ?_⟩
    split at hpair
    · exact absurd ((hpair _ htop).1.2 (List.mem_append_right _ (List.mem_singleton.2 rfl))) hy
    · next hcount => exact ⟨hcount, amended_of_sameOn hndY hpair⟩
  · next hcomp =>
    refine .inr ⟨Bool.eq_false_iff.2 hcomp, ?_⟩
    split at hpair
    · exact absurd ((hpair _ htop).1.2 (List.mem_singleton.2 rfl)) hy
    · next halike => exact ⟨Bool.eq_false_iff.2 halike, amended_of_idle hpair⟩

end Branch

open Netconf.Tree

/-- The children of a node are keys when the names of the branches below it are those of keys. -/
theorem Tree.Forest.isKey_children_iff {t : Tree} (h : t.Forest) {id : NodeId} {f : Element}
    {bs : List Branch} (hbranch : (t.branch id).bare = .mk 0 f bs) :
    (∀ c ∈ t.children id, t.isKey c = true) ↔ ∀ b ∈ bs, f.hasKey b.element.name = true := by
  obtain ⟨-, rfl, rfl⟩ := Branch.mk.inj ((h.bare_branch id).symm.trans hbranch)
  have hkey : ∀ c ∈ t.children id, t.isKey c = (t.element id).hasKey (t.name c) := by
    intro c hc
    rw [isKey, h.mem_children_iff.1 hc]
    rfl
  rw [content, List.forall_mem_map]
  refine forall₂_congr fun c hc => ?_
  rw [hkey c hc, element_bare, h.element_branch, name]

/-- Where something counts below two sides, a node that holds what is left of the second one is
compared by what is below it, and has a child that is no key. -/
theorem Edit.Sides.exists_not_key {s : Schema} {a b : Branch} (h : Sides s a b)
    (hcomp : b.entry.isComposite = true) (hcount : (b.mergePlan a).count ≠ 0) {t : Tree}
    (ht : t.Forest) {id : NodeId} (hbranch : (t.branch id).bare = b.merged a) :
    (t.entry id).isComposite = true ∧ ∃ c ∈ t.children id, t.isKey c = false := by
  have helement : (t.branch id).element = b.element := by
    rw [← element_bare, hbranch, merged_eq]
    rfl
  have hchild : ∃ c ∈ t.children id, t.isKey c = false := by
    by_contra hall
    rw [merged_eq] at hbranch
    refine hcount (h.merged_keys_iff.1 ((ht.isKey_children_iff hbranch).1 fun c hc => ?_))
    exact Bool.eq_true_of_not_eq_false fun hkey => hall ⟨c, hc, hkey⟩
  refine ⟨Bool.eq_true_of_not_eq_false fun hno => ?_, hchild⟩
  -- a node with a child would have to be a leaf not to be compared by what is below it
  obtain ⟨c, hc, -⟩ := hchild
  have hnone := children_of_not_composite (b := t.branch id) (fun hleaf => ?_)
    (by rw [ht.entry_branch]; exact hno)
  · rw [ht.branch_eq, Branch.children, List.map_eq_nil_iff] at hnone
    rw [hnone] at hc
    cases hc
  · rw [isComposite_of_leaf (helement ▸ hleaf)] at hcomp
    cases hcomp

/-- Nodes that correspond, are not alike and are not compared by what is below them have different
values. -/
theorem Branch.sameValue_of_corresponds {x y : Branch} (h : y.corresponds x = true)
    (hcomp : y.entry.isComposite = false) (halike : x.element.alike y.element = false) :
    sameValue x.element.value y.element.value = false := by
  unfold corresponds at h
  rw [if_neg (by rw [hcomp]; decide), Bool.and_eq_true] at h
  obtain ⟨hname, hns⟩ := Element.sameName_iff.1 h.2
  refine Bool.eq_false_iff.2 fun hvalue => Bool.eq_false_iff.1 halike ?_
  exact Element.alike_iff.2 ⟨hname, hns, (sameValue_iff _ _).1 hvalue⟩

namespace Document

variable {s : Schema} {d e : Document} {x y : NodeId}

/-- The merging edit from `d` to `e` matches the node `y` of the copy of `e` that it starts from to
the node `x` of `d`, which is the counterpart of `y`. -/
def Matches (d e : Document) (y x : NodeId) : Prop :=
  let c := e.tree.isolated e.root
  Counterpart (c.tree.branch c.root) (d.tree.branch d.root) (c.tree.branch y) (d.tree.branch x)

namespace Fit

/-- Two documents with the same top node agree when their children do. -/
theorem agree_iff (hd : d.Fit s) (he : e.Fit s)
    (hsame : d.tree.compare d.root e.tree e.root ≠ .different) : d.agree e = true ↔
      AgreesAll (d.tree.branch d.root).children (e.tree.branch e.root).children := by
  have hsides := hd.sides he hsame
  exact Tree.agree_iff.trans ((and_iff_right hsides.same).trans hsides.listings_eq_empty_iff)

/-- A merging edit sends nothing for what is in sync. It has only keys below its root just when the
two documents agree, and of the nodes that have a counterpart in the first document it holds only
those that differ: a node compared by what is below it has a child that is no key, and any other
node has a value different from that of its counterpart. -/
theorem mergingEdit_spares (hd : d.Fit s) (he : e.Fit s)
    (hsame : d.tree.compare d.root e.tree e.root ≠ .different) :
    ∃ i, d.tree.mergingEdit d.root e.tree e.root = .ok i ∧
      ((∀ c ∈ i.tree.children i.root, i.tree.isKey c = true) ↔ d.agree e = true) ∧
      ∀ y x, d.Matches e y x → i.tree.Above i.root y →
        ((i.tree.entry y).isComposite = true → ∃ z ∈ i.tree.children y, i.tree.isKey z = false) ∧
        ((i.tree.entry y).isComposite = false →
          sameValue (d.tree.value? x) (i.tree.value? y) = false) := by
  obtain ⟨hc, hroot, hbare, hsettled, t', hext, hedit⟩ :=
    Tree.exists_mergingEdit d.tree d.root e.tree e.root
  have hsides := (hd.sides he hsame).of_bare_right hbare.symm
  have hnd := hc.nodup_ids_branch (e.tree.isolated e.root).root
  have hmade := fun y hy => hext.bare_branch_amended hc hsettled (x := y) hy
  unfold Matches
  dsimp only at hedit ⊢
  -- from here on the copy and the plan are any that these facts hold of
  generalize e.tree.isolated e.root = c at hc hroot hbare hsettled hext hedit hsides hnd hmade ⊢
  generalize hplan : (c.tree.branch c.root).mergePlan (d.tree.branch d.root) = plan at *
  have hforest := (hext.forest.detachAll plan.settled).1
  refine ⟨_, hedit, ?_, fun y x hyx habove => ?_⟩
  · -- only keys below the root, a plan that counts nothing, children that agree, documents that do
    have hroot' := hmade _ hroot
    rw [← hplan, amended_mergePlan hnd, merged_eq, hplan] at hroot'
    rw [hforest.isKey_children_iff hroot', hsides.merged_keys_iff, hsides.count_eq_zero_iff,
      hd.agree_iff he hsame]
    exact ⟨fun h => h.of_bare_right hbare, fun h => h.of_bare_right hbare.symm⟩
  · -- the node is below the root of the copy, and was not taken away
    have hmem := hyx.id_mem
    rw [id_branch] at hmem
    have hids := hnd
    rw [ids_eq, id_branch] at hids
    have hbelow : y ∈ (c.tree.branch c.root).ids := by
      rw [ids_eq]
      exact List.mem_cons_of_mem _ hmem
    have hy := (hc.mem_ids_branch.1 hbelow).lt_size hroot
    have hnot : y ∉ plan.settled := not_mem_of_above_detachAll habove fun hroot =>
      (List.nodup_cons.1 hids).1 (hroot ▸ hmem)
    have hy' := hmade y hy
    rcases hyx.cases_of_not_settled (p := plan) hnd (hplan ▸ fun _ _ => ⟨.rfl, rfl⟩)
      (by rwa [id_branch]) with ⟨hcomp, hcount, hmerged⟩ | ⟨hcomp, halike, hbare'⟩
    · have hinner := hsides.counterpart hyx hcomp
      obtain ⟨hcomp', hchild⟩ := hinner.exists_not_key hcomp hcount hforest (hy'.trans hmerged)
      exact ⟨fun _ => hchild, fun hno => absurd hno (by rw [hcomp']; decide)⟩
    · have hsame' := hy'.trans hbare'
      have hentry : (Tree.detachAll t' plan.settled).entry y = (c.tree.branch y).entry := by
        rw [← hforest.entry_branch, ← entry_bare, hsame', entry_bare]
      have hvalue := sameValue_of_corresponds hyx.corresponds hcomp halike
      refine ⟨fun hyes => ?_, fun _ => ?_⟩
      · rw [hentry, hcomp] at hyes
        cases hyes
      · have helement : (t'.detachAll plan.settled).element y = (c.tree.branch y).element :=
          congrArg Entry.element hentry
        rw [Tree.value?, Tree.value?, helement, ← hd.forest.element_branch]
        exact hvalue

/-- The merging edit between the lists of hosts spares what they have in common. -/
theorem mergingEdit_spares_hosts :
    ∃ i, hostsBefore.tree.mergingEdit hostsBefore.root hostsAfter.tree hostsAfter.root = .ok i ∧
      ((∀ c ∈ i.tree.children i.root, i.tree.isKey c = true) ↔
        hostsBefore.agree hostsAfter = true) ∧
      ∀ y x, hostsBefore.Matches hostsAfter y x → i.tree.Above i.root y →
        ((i.tree.entry y).isComposite = true → ∃ z ∈ i.tree.children y, i.tree.isKey z = false) ∧
        ((i.tree.entry y).isComposite = false →
          sameValue (hostsBefore.tree.value? x) (i.tree.value? y) = false) :=
  mergingEdit_spares fit_hostsBefore fit_hostsAfter (by decide +kernel)

end Fit

end Document

end Netconf
