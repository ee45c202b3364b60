import Netconf.Edit.Between
import Netconf.Proofs.Edit.Skeletons
import Netconf.Proofs.Edit.Turns

/-!
# What a merging edit holds

A merging edit is a copy of the second configuration from which nodes are taken out and to which
nodes for deletion are added. `Branch.merged` says what is left in the end, by the recursion of the
plan and without slots. It falls apart into the classes of siblings (`part_mergedAll`), and it keeps
the keys of list entries (`keysLike_merged`).
-/

namespace Netconf

open Branch Edit

/-- The edit node that a deletion adds. -/
def Deletion.copy (d : Deletion) : Branch := (marked .delete d.branch).bare

namespace Branch

/-- Does a child of the list entry `b` stay, to which `a` corresponds? Keys do. -/
def keepsKey (b a c : Branch) : Bool :=
  !a.element.kind.keys.isEmpty && !c.entry.isComposite && b.element.hasKey c.element.name

mutual

/-- What is left of the branch `b` of the second configuration, to which `a` corresponds. -/
def merged : Branch → Branch → Branch
  | .mk id e bs, a => .mk 0 e (mergedAll ((mk id e bs).keepsKey a) a.element bs a.children)

/-- What is left of the children `bs` of a node of the second configuration, and what is added to
them. Those that `isKept` names stay as they are; `as` are the children of the first configuration
that are left. -/
def mergedAll (isKept : Branch → Bool) (parentA : Element) : List Branch → List Branch → List Branch
  | [], as => (leftOvers parentA 0 as).deletions.map Deletion.copy
  | b :: bs, as =>
    if isKept b then b.bare :: mergedAll isKept parentA bs as
    else
      match takeFirst (fun a => if b.corresponds a then some () else none) as with
      | none => b.bare :: mergedAll isKept parentA bs as
      | some (a, _, others) =>
        (if a.entry.isComposite || b.entry.isComposite then
            if (b.mergePlan a).count = 0 then [] else [b.merged a]
          else if a.element.alike b.element then [] else [b.bare])
          ++ mergedAll isKept parentA bs others

end

variable {rule : KindRule} {k : Identity} {a b c : Branch} {as bs : List Branch}
  {isKept : Branch → Bool} {parentA : Element} {id : NodeId}

/-! ## The recursion, step by step -/

/-- A node either has no correspondent, or it is the first one. -/
theorem correspondent_cases (b : Branch) (as : List Branch) :
    (takeFirst (fun a => if b.corresponds a then some () else none) as = none ∧
      ∀ a ∈ as, b.corresponds a = false) ∨
    ∃ pre a post, as = pre ++ a :: post ∧
      takeFirst (fun a => if b.corresponds a then some () else none) as =
        some (a, (), pre ++ post) ∧
      (∀ d ∈ pre, b.corresponds d = false) ∧ b.corresponds a = true := by
  cases h : takeFirst (fun a => if b.corresponds a then some () else none) as with
  | none =>
    refine .inl ⟨rfl, fun a ha => ?_⟩
    simpa using takeFirst_eq_none.1 h a ha
  | some r =>
    obtain ⟨a, u, others⟩ := r
    obtain ⟨pre, post, rfl, rfl, ha, hpre⟩ := takeFirst_eq_some h
    exact .inr ⟨pre, a, post, rfl, rfl, fun d hd => by simpa using hpre d hd, by simpa using ha⟩

/-- What is left of a node that something corresponds to. -/
def mergedPair (b a : Branch) : List Branch :=
  if a.entry.isComposite || b.entry.isComposite then
    if (b.mergePlan a).count = 0 then [] else [b.merged a]
  else if a.element.alike b.element then [] else [b.bare]

/-- The plan for a node that something corresponds to. -/
def planPair (b a : Branch) : MergePlan :=
  if a.entry.isComposite || b.entry.isComposite then
    if (b.mergePlan a).count = 0 then b.mergePlan a ++ { settled := [b.id] } else b.mergePlan a
  else if a.element.alike b.element then { settled := [b.id] } else { count := 1 }

/-- What is left of a branch is its top with what is left of its children. -/
theorem merged_eq (b a : Branch) :
    b.merged a = .mk 0 b.element (mergedAll (b.keepsKey a) a.element b.children a.children) := by
  cases b
  rw [merged]
  rfl

/-- What is left of a node that something corresponds to carries what the node carries. -/
theorem element_of_mem_mergedPair (hc : c ∈ mergedPair b a) : c.element = b.element := by
  unfold mergedPair at hc
  split at hc
  · split at hc
    · cases hc
    · rw [List.mem_singleton.1 hc, merged_eq]
      rfl
  · split at hc
    · cases hc
    · rw [List.mem_singleton.1 hc, element_bare]

/-- Nothing is left of a node that something corresponds to when the plan counts nothing. -/
theorem mergedPair_eq_nil_iff : mergedPair b a = [] ↔ (planPair b a).count = 0 := by
  unfold mergedPair planPair
  split
  · split
    · next hcount => exact iff_of_true rfl hcount
    · next hcount => exact iff_of_false (List.cons_ne_nil _ _) hcount
  · split
    · exact iff_of_true rfl rfl
    · exact iff_of_false (List.cons_ne_nil _ _) Nat.one_ne_zero

/-- The plan for a branch is that for its children. -/
theorem mergePlan_eq (b a : Branch) :
    b.mergePlan a = mergePlanAll (b.keepsKey a) b.id a.element b.children a.children := by
  cases b
  rw [mergePlan]
  rfl

/-- A node that stays is left as it is. -/
theorem mergedAll_cons_of_kept (h : isKept b = true) :
    mergedAll isKept parentA (b :: bs) as = b.bare :: mergedAll isKept parentA bs as := by
  rw [mergedAll, if_pos h]

/-- A node without correspondent is left as it is. -/
theorem mergedAll_cons_of_none (h : isKept b = false)
    (hnone : takeFirst (fun a => if b.corresponds a then some () else none) as = none) :
    mergedAll isKept parentA (b :: bs) as = b.bare :: mergedAll isKept parentA bs as := by
  rw [mergedAll, if_neg (by simp [h]), hnone]

/-- What is left of a node with a correspondent is in front of the others. -/
theorem mergedAll_cons_of_some {others : List Branch} (h : isKept b = false)
    (hsome : takeFirst (fun a => if b.corresponds a then some () else none) as =
      some (a, (), others)) :
    mergedAll isKept parentA (b :: bs) as =
      mergedPair b a ++ mergedAll isKept parentA bs others := by
  rw [mergedAll, if_neg (by simp [h]), hsome]
  rfl

/-- Nothing is planned for a node that stays. -/
theorem mergePlanAll_cons_of_kept (h : isKept b = true) :
    mergePlanAll isKept id parentA (b :: bs) as = mergePlanAll isKept id parentA bs as := by
  rw [mergePlanAll, if_pos h]

/-- A node without correspondent counts. -/
theorem mergePlanAll_cons_of_none (h : isKept b = false)
    (hnone : takeFirst (fun a => if b.corresponds a then some () else none) as = none) :
    mergePlanAll isKept id parentA (b :: bs) as =
      { count := 1 } ++ mergePlanAll isKept id parentA bs as := by
  rw [mergePlanAll, if_neg (by simp [h]), hnone]

/-- The plan for a node with a correspondent is in front of that for the others. -/
theorem mergePlanAll_cons_of_some {others : List Branch} (h : isKept b = false)
    (hsome : takeFirst (fun a => if b.corresponds a then some () else none) as =
      some (a, (), others)) :
    mergePlanAll isKept id parentA (b :: bs) as =
      planPair b a ++ mergePlanAll isKept id parentA bs others := by
  rw [mergePlanAll, if_neg (by simp [h]), hsome]
  rfl

/-! ## Nodes that only the first configuration has -/

/-- The edit nodes for a child of the first configuration that nothing corresponds to. -/
def leftCopies (parentA : Element) (a : Branch) : List Branch :=
  (leftOver parentA 0 a).deletions.map Deletion.copy

/-- The edit nodes of one plan after the other. -/
theorem deletions_append (p q : MergePlan) : (p ++ q).deletions = p.deletions ++ q.deletions := rfl

/-- The differences of one plan after the other. -/
theorem count_append (p q : MergePlan) : (p ++ q).count = p.count + q.count := rfl

/-- The edit nodes for several children are those for each. -/
theorem mergedAll_nil (isKept : Branch → Bool) (parentA : Element) (as : List Branch) :
    mergedAll isKept parentA [] as = as.flatMap (leftCopies parentA) := by
  rw [mergedAll]
  induction as with
  | nil => rfl
  | cons a as ih =>
    rw [leftOvers, deletions_append, List.map_append, ih]
    rfl

/-- Each edit node for deletion counts. -/
theorem length_leftCopies (parentA : Element) (id : NodeId) (a : Branch) :
    (leftCopies parentA a).length = (leftOver parentA id a).count := by
  unfold leftCopies leftOver
  split
  · rfl
  · split <;> rfl

/-- Nothing is to be deleted when nothing of each child is. -/
theorem count_leftOvers : (leftOvers parentA id as).count = 0 ↔
    ∀ a ∈ as, (leftOver parentA id a).count = 0 := by
  induction as with
  | nil => simp [leftOvers]
  | cons a as ih => rw [leftOvers, count_append, Nat.add_eq_zero_iff, ih, List.forall_mem_cons]

/-- A mark does not change the identity. -/
theorem identity_marked {o : Operation} (ha : a.element.kind = rule a.element.ns a.element.name) :
    (marked o a).identity rule = a.identity rule :=
  identity_congr ha (alike_mark _ _) fun _ _ => rfl

/-- What is deleted has the identity of the node. -/
theorem identity_leftCopies (ha : a.element.kind = rule a.element.ns a.element.name) {c : Branch}
    (hc : c ∈ leftCopies parentA a) : c.identity rule = a.identity rule := by
  obtain ⟨d, hd, rfl⟩ := List.mem_map.1 hc
  unfold leftOver at hd
  rw [Deletion.copy, identity_bare]
  split at hd
  · rw [List.mem_singleton.1 hd]
    exact identity_copyFor (o := .delete) ha
  · split at hd
    · cases hd
    · rw [List.mem_singleton.1 hd]
      exact identity_marked ha

/-! ## Class by class -/

/-- Nodes that correspond have the same identity. -/
theorem identity_of_corresponds (hb : b.element.kind = rule b.element.ns b.element.name)
    (h : b.corresponds a = true) : a.identity rule = b.identity rule := by
  unfold corresponds at h
  split at h
  · rw [Bool.and_eq_true, Bool.and_eq_true] at h
    obtain ⟨⟨-, halike⟩, hkeys⟩ := h
    exact identity_congr hb (Element.alike_comm ▸ halike)
      (List.map_inj_left.1 ((Entry.sameKeys_iff _).1 hkeys))
  · next hcomp =>
    rw [Bool.and_eq_true] at h
    have hcontainer : b.element.kind.isContainer = false :=
      Bool.eq_false_iff.2 fun hcontainer => hcomp (isComposite_of_container hcontainer)
    refine (Entry.identity_eq_of_sameName (x := b.entry) (y := a.entry)
      (Element.sameName_iff.2 ?_) ?_).symm
    · obtain ⟨hname, hns⟩ := Element.sameName_iff.1 h.2
      exact ⟨hname.symm, hns.symm⟩
    · rw [← hcontainer]
      exact congrArg Kind.isContainer hb.symm

/-- When what is made of each member is in its class, the part of a class is made of its part. -/
theorem filter_flatMap_identity {f : Branch → List Branch}
    (h : ∀ a ∈ as, ∀ c ∈ f a, c.identity rule = a.identity rule) (k : Identity) :
    ((as.flatMap f).filter fun c => c.identity rule = k) =
      (as.filter fun a => a.identity rule = k).flatMap f := by
  induction as with
  | nil => rfl
  | cons a as ih =>
    have hown := h a (by simp)
    rw [List.flatMap_cons, List.filter_append, ih fun a ha => h a (by simp [ha])]
    by_cases hk : a.identity rule = k
    · rw [List.filter_cons_of_pos (by simpa using hk), List.flatMap_cons, List.filter_eq_self.2]
      exact fun c hc => by simpa using (hown c hc).trans hk
    · rw [List.filter_cons_of_neg (by simpa using hk), List.filter_eq_nil_iff.2, List.nil_append]
      exact fun c hc => by simpa using fun he => hk ((hown c hc).symm.trans he)

/-- What is left of a node is in its class. -/
theorem identity_mergedPair (hmerged : (b.merged a).identity rule = b.identity rule)
    (hc : c ∈ mergedPair b a) : c.identity rule = b.identity rule := by
  unfold mergedPair at hc
  split at hc
  · split at hc
    · cases hc
    · rw [List.mem_singleton.1 hc]
      exact hmerged
  · split at hc
    · cases hc
    · rw [List.mem_singleton.1 hc, identity_bare]

/-- The correspondent of a node is found in its class. -/
theorem correspondent_part (hb : b.element.kind = rule b.element.ns b.element.name)
    {pre post : List Branch} (hpre : ∀ d ∈ pre, b.corresponds d = false)
    (ha : b.corresponds a = true) :
    takeFirst (fun a => if b.corresponds a then some () else none)
      ((pre ++ a :: post).filter fun d => d.identity rule = b.identity rule) =
        some (a, (), (pre ++ post).filter fun d => d.identity rule = b.identity rule) := by
  rw [List.filter_append, List.filter_cons_of_pos (by simpa using identity_of_corresponds hb ha),
    List.filter_append]
  exact takeFirst_of_split _ _ (by simp [ha]) fun d hd => by
    simp [hpre d (List.mem_of_mem_filter hd)]

/-- What is left of a class is what is left of its members. -/
theorem part_mergedAll (has : ∀ a ∈ as, a.element.kind = rule a.element.ns a.element.name)
    (hbs : ∀ b ∈ bs, b.element.kind = rule b.element.ns b.element.name)
    (hmerged : ∀ b ∈ bs, ∀ a ∈ as, b.corresponds a = true →
      (b.merged a).identity rule = b.identity rule) (k : Identity) :
    ((mergedAll isKept parentA bs as).filter fun c => c.identity rule = k) =
      mergedAll isKept parentA (bs.filter fun b => b.identity rule = k)
        (as.filter fun a => a.identity rule = k) := by
  induction bs generalizing as with
  | nil =>
    rw [mergedAll_nil, List.filter_nil, mergedAll_nil]
    exact filter_flatMap_identity (fun a ha c hc => identity_leftCopies (has a ha) hc) k
  | cons b bs ih =>
    have hb := hbs b (by simp)
    have hrest : ∀ c ∈ bs, c.element.kind = rule c.element.ns c.element.name :=
      fun c hc => hbs c (by simp [hc])
    have ihsame := ih has hrest fun b hb a ha => hmerged b (by simp [hb]) a ha
    cases hkept : isKept b with
    | true =>
      rw [mergedAll_cons_of_kept hkept]
      by_cases hk : b.identity rule = k
      · rw [List.filter_cons_of_pos (by simpa using hk),
          List.filter_cons_of_pos (by simpa using hk), mergedAll_cons_of_kept hkept, ihsame]
      · rw [List.filter_cons_of_neg (by simpa using hk),
          List.filter_cons_of_neg (by simpa using hk), ihsame]
    | false =>
      rcases correspondent_cases b as with ⟨hnone, hall⟩ | ⟨pre, a, post, rfl, hsome, hpre, ha⟩
      · rw [mergedAll_cons_of_none hkept hnone]
        by_cases hk : b.identity rule = k
        · rw [List.filter_cons_of_pos (by simpa using hk),
            List.filter_cons_of_pos (by simpa using hk), mergedAll_cons_of_none hkept, ihsame]
          rw [takeFirst_eq_none]
          exact fun a ha => by simp [hall a (List.mem_of_mem_filter ha)]
        · rw [List.filter_cons_of_neg (by simpa using hk),
            List.filter_cons_of_neg (by simpa using hk), ihsame]
      · have hsub : ∀ d ∈ pre ++ post, d ∈ pre ++ a :: post := by
          intro d hd
          rcases List.mem_append.1 hd with hd | hd <;> simp [hd]
        have ihothers := ih (fun d hd => has d (hsub d hd)) hrest
          fun b hb d hd => hmerged b (by simp [hb]) d (hsub d hd)
        have hpair : ∀ c ∈ mergedPair b a, c.identity rule = b.identity rule := fun c =>
          identity_mergedPair (hmerged b (by simp) a (by simp) ha)
        rw [mergedAll_cons_of_some hkept hsome, List.filter_append, ihothers]
        by_cases hk : b.identity rule = k
        · subst hk
          rw [List.filter_cons_of_pos (by simp), mergedAll_cons_of_some hkept
            (correspondent_part hb hpre ha), List.filter_eq_self.2]
          exact fun c hc => by simpa using hpair c hc
        · have hak : ¬ a.identity rule = k := by
            rwa [identity_of_corresponds hb ha]
          rw [List.filter_cons_of_neg (by simpa using hk), List.filter_append, List.filter_append,
            List.filter_cons_of_neg (by simpa using hak), List.filter_eq_nil_iff.2, List.nil_append]
          exact fun c hc => by simpa using fun he => hk ((hpair c hc).symm.trans he)

/-- A plan finds no difference just when it finds none in any class. -/
theorem count_eq_zero_iff_part (hbs : ∀ b ∈ bs, b.element.kind = rule b.element.ns b.element.name) :
    (mergePlanAll isKept id parentA bs as).count = 0 ↔
      ∀ k, (mergePlanAll isKept id parentA (bs.filter fun b => b.identity rule = k)
        (as.filter fun a => a.identity rule = k)).count = 0 := by
  induction bs generalizing as with
  | nil =>
    simp only [List.filter_nil, mergePlanAll, count_leftOvers]
    exact ⟨fun h k a ha => h a (List.mem_of_mem_filter ha),
      fun h a ha => h (a.identity rule) a (List.mem_filter.2 ⟨ha, by simp⟩)⟩
  | cons b bs ih =>
    have hb := hbs b (by simp)
    have hrest : ∀ c ∈ bs, c.element.kind = rule c.element.ns c.element.name :=
      fun c hc => hbs c (by simp [hc])
    cases hkept : isKept b with
    | true =>
      rw [mergePlanAll_cons_of_kept hkept, ih hrest]
      refine forall_congr' fun k => ?_
      by_cases hk : b.identity rule = k
      · rw [List.filter_cons_of_pos (by simpa using hk), mergePlanAll_cons_of_kept hkept]
      · rw [List.filter_cons_of_neg (by simpa using hk)]
    | false =>
      rcases correspondent_cases b as with ⟨hnone, hall⟩ | ⟨pre, a, post, rfl, hsome, hpre, ha⟩
      · -- the node counts, and it does so in its class
        have hpart : takeFirst (fun a => if b.corresponds a then some () else none)
            (as.filter fun a => a.identity rule = b.identity rule) = none :=
          takeFirst_eq_none.2 fun a ha => by simp [hall a (List.mem_of_mem_filter ha)]
        rw [mergePlanAll_cons_of_none hkept hnone, count_append]
        refine iff_of_false (by simp) fun h => ?_
        have hown := h (b.identity rule)
        rw [List.filter_cons_of_pos (by simp), mergePlanAll_cons_of_none hkept hpart,
          count_append] at hown
        exact absurd hown (by simp)
      · -- the pair is in one class, and the others are in the other classes what they were
        have hown : (mergePlanAll isKept id parentA
            ((b :: bs).filter fun c => c.identity rule = b.identity rule)
            ((pre ++ a :: post).filter fun c => c.identity rule = b.identity rule)).count =
            (planPair b a).count + (mergePlanAll isKept id parentA
              (bs.filter fun c => c.identity rule = b.identity rule)
              ((pre ++ post).filter fun c => c.identity rule = b.identity rule)).count := by
          rw [List.filter_cons_of_pos (by simp), mergePlanAll_cons_of_some hkept
            (correspondent_part hb hpre ha), count_append]
        have hother : ∀ k, b.identity rule ≠ k →
            mergePlanAll isKept id parentA ((b :: bs).filter fun c => c.identity rule = k)
              ((pre ++ a :: post).filter fun c => c.identity rule = k) =
            mergePlanAll isKept id parentA (bs.filter fun c => c.identity rule = k)
              ((pre ++ post).filter fun c => c.identity rule = k) := by
          intro k hk
          have hak : ¬ a.identity rule = k := by rwa [identity_of_corresponds hb ha]
          rw [List.filter_cons_of_neg (by simpa using hk), List.filter_append,
            List.filter_cons_of_neg (by simpa using hak), ← List.filter_append]
        rw [mergePlanAll_cons_of_some hkept hsome, count_append, Nat.add_eq_zero_iff, ih hrest]
        refine ⟨fun h k => ?_, fun h => ⟨?_, fun k => ?_⟩⟩
        · by_cases hk : b.identity rule = k
          · subst hk
            rw [hown, h.1, h.2]
          · rw [hother k hk]
            exact h.2 k
        · exact (Nat.add_eq_zero_iff.1 (hown ▸ h (b.identity rule))).1
        · by_cases hk : b.identity rule = k
          · subst hk
            exact (Nat.add_eq_zero_iff.1 (hown ▸ h (b.identity rule))).2
          · rw [← hother k hk]
            exact h k

/-! ## The keys stay -/

/-- Nothing of what is deleted has the name of a key. -/
theorem name_leftCopies {key : String} (hkey : key ∈ parentA.kind.keys)
    (ha : parentA.hasKey a.element.name = true → a.entry.isComposite = false)
    (hc : c ∈ leftCopies parentA a) : c.element.name ≠ key := by
  obtain ⟨d, hd, rfl⟩ := List.mem_map.1 hc
  have hno : parentA.hasKey a.element.name = false → a.element.name ≠ key := by
    rintro hno rfl
    rw [Element.hasKey, List.contains_iff_mem.2 hkey] at hno
    cases hno
  have hname : d.copy.element.name = d.branch.element.name := by
    rw [Deletion.copy, element_bare, marked, element, Element.mark_eq]
  rw [hname]
  unfold leftOver at hd
  split at hd
  · next hcomp =>
    rw [List.mem_singleton.1 hd, element_keysOnly]
    refine hno (Bool.eq_false_iff.2 fun hk => ?_)
    rw [ha hk] at hcomp
    cases hcomp
  · split at hd
    · cases hd
    · next hk =>
      rw [List.mem_singleton.1 hd]
      exact hno (Bool.eq_false_iff.2 hk)

/-- The children that are named like a key are the same in what is left, when they stay. -/
theorem filter_name_mergedAll {key : String} (hkey : key ∈ parentA.kind.keys)
    (has : ∀ a ∈ as, parentA.hasKey a.element.name = true → a.entry.isComposite = false)
    (hbs : ∀ b ∈ bs, b.element.name = key → isKept b = true) :
    ((mergedAll isKept parentA bs as).map element).filter (fun m => m.name == key) =
      (bs.map element).filter fun m => m.name == key := by
  induction bs generalizing as with
  | nil =>
    rw [mergedAll_nil, List.map_nil, List.filter_nil, List.filter_eq_nil_iff]
    intro m hm
    obtain ⟨c, hc, rfl⟩ := List.mem_map.1 hm
    obtain ⟨a, ha, hc⟩ := List.mem_flatMap.1 hc
    simpa using name_leftCopies hkey (has a ha) hc
  | cons b bs ih =>
    have hrest : ∀ c ∈ bs, c.element.name = key → isKept c = true :=
      fun c hc => hbs c (by simp [hc])
    cases hkept : isKept b with
    | true =>
      rw [mergedAll_cons_of_kept hkept, List.map_cons, List.map_cons, element_bare]
      simp only [List.filter_cons, ih has hrest]
    | false =>
      have hne : ¬ b.element.name = key := fun he => by
        rw [hbs b (by simp) he] at hkept
        cases hkept
      rw [List.map_cons, List.filter_cons_of_neg (by simpa using hne)]
      rcases correspondent_cases b as with ⟨hnone, -⟩ | ⟨pre, a, post, rfl, hsome, -, -⟩
      · rw [mergedAll_cons_of_none hkept hnone, List.map_cons, element_bare,
          List.filter_cons_of_neg (by simpa using hne)]
        exact ih has hrest
      · rw [mergedAll_cons_of_some hkept hsome, List.map_append, List.filter_append,
          List.filter_eq_nil_iff.2, List.nil_append]
        · refine ih (fun d hd => has d ?_) hrest
          rcases List.mem_append.1 hd with hd | hd <;> simp [hd]
        · intro m hm
          obtain ⟨c, hc, rfl⟩ := List.mem_map.1 hm
          rw [element_of_mem_mergedPair hc]
          simpa using hne

/-- Of the children of the second side, just those named like a key stay anyway. -/
theorem keepsKey_eq {s : Schema} (h : Sides s a b) (hc : c ∈ b.children) :
    b.keepsKey a c = a.element.hasKey c.element.name := by
  unfold keepsKey
  rw [h.hasKey_eq]
  cases hkey : a.element.hasKey c.element.name with
  | false => rw [Bool.and_false]
  | true =>
    obtain ⟨hcs, hcontainer⟩ := (all_iff.1 h.keyedB).1.keys c hc (by rw [h.hasKey_eq, hkey])
    have hne : a.element.kind.keys ≠ [] := List.ne_nil_of_mem (List.contains_iff_mem.1 hkey)
    rw [isComposite_of_childless hcontainer hcs]
    simpa using hne

/-- The keys of the first side are not compared by what is below them. -/
theorem isComposite_of_hasKey {s : Schema} (h : Sides s a b) (hc : c ∈ a.children)
    (hkey : a.element.hasKey c.element.name = true) : c.entry.isComposite = false := by
  obtain ⟨hcs, hcontainer⟩ := (all_iff.1 h.keyedA).1.keys c hc hkey
  exact isComposite_of_childless hcontainer hcs

/-- The keys of what is left of the second side look like those of the second side. -/
theorem keysLike_merged {s : Schema} (h : Sides s a b) :
    KeysLike b (mergedAll (b.keepsKey a) a.element b.children a.children) := by
  intro key hkey
  have hkeyA : key ∈ a.element.kind.keys := h.kind ▸ hkey
  unfold Entry.keyText?
  refine congrArg _ ?_
  rw [Entry.member?_eq_head?, Entry.member?_eq_head?]
  refine congrArg _ (filter_name_mergedAll hkeyA (fun c hc => isComposite_of_hasKey h hc)
    fun c hc hname => ?_)
  rw [keepsKey_eq h hc, hname]
  exact List.contains_iff_mem.2 hkeyA

end Branch

end Netconf
