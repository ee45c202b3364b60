import Netconf.Proofs.Edit.Amending
import Netconf.Proofs.Edit.Documents

/-!
# Merging edits

Where every node is described by a data model, what a merging edit holds turns the first
configuration into the second (`Sides.mergeable`). As for explicit edits, this is shown class by
class, and by induction for what is below the members of a class. The merging edit between two
documents is made without failing, and applied to the first, it makes it agree with the second
(`mergingEdit_turns`).
-/

namespace Netconf

open Branch

/-- Every node of a branch is described by a data model: it is a container or a leaf. -/
def Branch.Modelled (b : Branch) : Prop := b.All fun b => b.element.kind ≠ .plain

instance : DecidablePred Branch.Modelled := fun b => inferInstanceAs (Decidable (b.All _))

namespace Edit

variable {s : Schema} {k : Identity} {a b x y : Branch}

/-- What a merging edit holds for two sides turns the first into the second, and where the plan
finds no difference there is none. -/
structure Mergeable (s : Schema) (a b : Branch) : Prop where
  /-- The edit nodes turn the children of the first side into those of the second. -/
  turns : ∃ zs, Steps .merge (mergedAll (b.keepsKey a) a.element b.children a.children)
    (a.children.map bare) zs ∧ AgreesAll zs b.children ∧ Kinds s (s.rule (some a.element.kind)) zs
  /-- Without a difference the children agree already. -/
  agrees : (b.mergePlan a).count = 0 → AgreesAll a.children b.children

/-- Containers that are the same node correspond. -/
theorem corresponds_of_container {t : ContainerSchema} (hx : x.element.kind = .container t)
    (hy : y.element.kind = .container t) (h : x.entry.matchesEntry y.entry = true) :
    y.corresponds x = true := by
  obtain ⟨halike, hkeys⟩ := (Entry.matches_iff_of_container (x := x.entry) (y := y.entry) hx).1 h
  have halike : x.element.alike y.element = true := halike
  unfold corresponds
  rw [isComposite_of_container (b := y) (by rw [hy]; rfl),
    isComposite_of_container (b := x) (by rw [hx]; rfl), halike, hy]
  exact (Entry.sameKeys_iff _).2 hkeys

/-- Leaves of one name correspond. -/
theorem corresponds_of_leaf (hx : x.element.kind = .leaf) (hy : y.element.kind = .leaf)
    (h : x.element.sameName y.element = true) : y.corresponds x = true := by
  unfold corresponds
  rw [isComposite_of_leaf hx, isComposite_of_leaf hy, h]
  rfl

/-- Nodes of one kind that correspond are the same node, when they are described. -/
theorem matches_of_corresponds (hkind : x.element.kind = y.element.kind)
    (hplain : x.element.kind ≠ .plain) (h : y.corresponds x = true) :
    x.entry.matchesEntry y.entry = true := by
  unfold corresponds at h
  cases hk : x.element.kind with
  | container t =>
    rw [if_pos (isComposite_of_container (by rw [← hkind, hk]; rfl)), Bool.and_eq_true,
      Bool.and_eq_true, ← hkind, hk] at h
    obtain ⟨⟨-, halike⟩, hkeys⟩ := h
    exact (Entry.matches_iff_of_container (x := x.entry) hk).2
      ⟨halike, (Entry.sameKeys_iff _).1 hkeys⟩
  | leaf =>
    rw [if_neg (by rw [isComposite_of_leaf (hkind ▸ hk)]; decide), Bool.and_eq_true] at h
    exact (Entry.matches_iff_of_leaf (x := x.entry) hk).2 h.2
  | plain => exact absurd hk hplain

/-- The only member of a class is the correspondent. -/
theorem takeFirst_correspondent (h : y.corresponds x = true) :
    takeFirst (fun a => if y.corresponds a then some () else none) [x] = some (x, (), []) :=
  takeFirst_of_split [] [] (by simp [h]) (by simp)

/-! ## Each class on its own -/

/-- A key is left as it is, and the key of the first side is not deleted. -/
theorem Sides.turns_merged_key (h : Sides s a b) (hx : x ∈ a.children)
    (hyk : (b.children.filter fun d => d.identity (s.rule (some a.element.kind)) =
      x.identity (s.rule (some a.element.kind))) = [y])
    (hkey : a.element.hasKey x.element.name = true) :
    Turns s (s.rule (some a.element.kind)) (x.identity (s.rule (some a.element.kind)))
      (mergedAll (b.keepsKey a) a.element [y] [x]) [x.bare] [y] ∧ x.Agrees y := by
  obtain ⟨hxy, hxs, hys, hcontainer⟩ := h.agrees_key hx hkey hyk
  have hy : y ∈ b.children.filter fun d => decide (d.identity (s.rule (some a.element.kind)) =
      x.identity (s.rule (some a.element.kind))) := by rw [hyk]; simp
  obtain ⟨hy, hid⟩ := List.mem_filter.1 hy
  have hkind : x.element.kind = y.element.kind :=
    Entry.kind_eq_of_identity_eq (x := x.entry) (y := y.entry) (h.kindsA x hx) (h.kindsB y hy)
      (of_decide_eq_true hid).symm
  have hxcomp := isComposite_of_childless hcontainer hxs
  have hkept : b.keepsKey a y = true := by
    rw [keepsKey_eq h hy, ← (Element.alike_iff.1 hxy).1, hkey]
  have hnone : leftCopies a.element x = [] := by
    unfold leftCopies leftOver
    rw [hxcomp, hkey]
    rfl
  obtain ⟨hname, hns, -⟩ := Element.alike_iff.1 hxy
  rw [mergedAll_cons_of_kept hkept, mergedAll_nil, List.flatMap_singleton, hnone]
  exact ⟨turns_take (h.kindsA x hx) rfl hcontainer hxs hys
    (Element.sameName_iff.2 ⟨hname.symm, hns.symm⟩) (Element.alike_refl _) hkind.symm hys
    (all_iff.1 ((all_iff.1 h.unmarkedB).2 y hy)).1, agrees_iff.2 ⟨hxy, by rw [hxs, hys]; rfl⟩⟩

/-- A node that both sides have, in a class of its own on each side, and that is no key. -/
theorem Sides.turns_merged_pair (h : Sides s a b) (id : NodeId) (hx : x ∈ a.children)
    (hy : y ∈ b.children)
    (hxk : x.identity (s.rule (some a.element.kind)) = k)
    (hyk : y.identity (s.rule (some a.element.kind)) = k)
    (hplain : x.element.kind ≠ .plain) (hkept : b.keepsKey a y = false)
    (hinner : Sides s x y → Mergeable s x y) :
    Turns s (s.rule (some a.element.kind)) k (mergedAll (b.keepsKey a) a.element [y] [x])
        [x.bare] [y] ∧
      ((mergePlanAll (b.keepsKey a) id a.element [y] [x]).count = 0 → x.Agrees y) := by
  have hxkind := h.kindsA x hx
  have hkind : x.element.kind = y.element.kind :=
    Entry.kind_eq_of_identity_eq (x := x.entry) (y := y.entry) hxkind (h.kindsB y hy)
      (hxk.trans hyk.symm)
  have hname := Entry.sameName_of_identity_eq (x := x.entry) (y := y.entry) (hxk.trans hyk.symm)
  have hkinds := kinds_bare hxkind ((all_iff.1 h.describedA).2 x hx)
  have hsome : y.corresponds x = true := by
    cases hk : x.element.kind with
    | container t =>
      have hmatch := Entry.matches_of_identity_eq (x := x.entry) (y := y.entry) hk hxkind
        (hxk.trans hyk.symm)
      exact corresponds_of_container hk (hkind.symm.trans hk) hmatch
    | leaf => exact corresponds_of_leaf hk (hkind.symm.trans hk) hname
    | plain => exact absurd hk hplain
  have hsides := h.child hx hy (matches_of_corresponds hkind hplain hsome)
  have hytop : y.element.markText? = none := (all_iff.1 hsides.unmarkedB).1
  rw [mergedAll_cons_of_some hkept (takeFirst_correspondent hsome), mergedAll_nil,
    List.flatMap_nil, List.append_nil,
    mergePlanAll_cons_of_some hkept (takeFirst_correspondent hsome), count_append]
  unfold mergedPair planPair
  cases hk : x.element.kind with
  | container t =>
    have hleaf : x.element.kind ≠ .leaf := by rw [hk]; simp
    have hxcomp := isComposite_of_container (b := x) (by rw [hk]; rfl)
    have halike : x.element.alike y.element = true :=
      Entry.alike_of_matches (x := x.entry) (y := y.entry) hleaf hsides.same
    obtain ⟨⟨zs, hsteps, hagree, hzs⟩, hnone⟩ := hinner hsides
    simp only [hxcomp, Bool.true_or, if_true]
    by_cases hcount : (y.mergePlan x).count = 0
    · -- nothing differs below, and the node is not in the edit
      have hagrees : x.Agrees y := agrees_iff.2 ⟨halike, hnone hcount⟩
      rw [if_pos hcount, if_pos hcount]
      exact ⟨turns_nothing (agreesAll_bare hagrees) hkinds, fun _ => hagrees⟩
    · have hmatch : (y.merged x).entry.matchesEntry x.entry = true := by
        have hback := (keysLike_merged hsides).matches hkind hsides.same
        rw [merged_eq]
        exact Entry.matches_symm (x := x.entry) hkind hback
      have hcomposite : (y.merged x).entry.isComposite = true := by
        rw [merged_eq]
        exact isComposite_of_container (by rw [element, ← hkind, hk]; rfl)
      rw [if_neg hcount, if_neg hcount]
      refine ⟨hsides.turns_descend hxkind hxk hleaf ?_ ?_ hcomposite hmatch ?_ hagree hzs,
        fun hzero => ?_⟩
      · rw [merged_eq]
        exact h.kindsB y hy
      · rw [merged_eq]
        exact operationOf_unmarked hytop _
      · rw [merged_eq]
        exact hsteps
      · exact absurd (Nat.add_eq_zero_iff.1 hzero).1 hcount
  | leaf =>
    have hxs := (all_iff.1 hsides.keyedA).1.leaf hk
    have hys := (all_iff.1 hsides.keyedB).1.leaf (hkind.symm.trans hk)
    rw [isComposite_of_leaf hk, isComposite_of_leaf (hkind.symm.trans hk)]
    simp only [Bool.or_self, Bool.false_eq_true, if_false]
    by_cases halike : x.element.alike y.element = true
    · have hagrees : x.Agrees y := agrees_iff.2 ⟨halike, by rw [hxs, hys]; rfl⟩
      rw [if_pos halike, if_pos halike]
      exact ⟨turns_nothing (agreesAll_bare hagrees) hkinds, fun _ => hagrees⟩
    · obtain ⟨hsame, hns⟩ := Element.sameName_iff.1 hname
      rw [if_neg halike, if_neg halike]
      refine ⟨turns_take hxkind hxk (by rw [hk]; rfl) hxs hys
        (Element.sameName_iff.2 ⟨hsame.symm, hns.symm⟩) (Element.alike_refl _) hkind.symm hys
        hytop, fun hzero => ?_⟩
      exact absurd (Nat.add_eq_zero_iff.1 hzero).1 (by decide)
  | plain => exact absurd hk hplain

/-- What is left of a node that both sides have is in the class of the node. -/
theorem Sides.identity_merged (h : Sides s a b) (hx : x ∈ a.children) (hy : y ∈ b.children)
    (hplain : x.element.kind ≠ .plain) (hxy : y.corresponds x = true) :
    (y.merged x).identity (s.rule (some a.element.kind)) =
      y.identity (s.rule (some a.element.kind)) := by
  have hxkind := h.kindsA x hx
  have hykind := h.kindsB y hy
  have hkind : x.element.kind = y.element.kind :=
    Entry.kind_eq_of_identity_eq (x := x.entry) (y := y.entry) hxkind hykind
      (identity_of_corresponds hykind hxy)
  have hsides := h.child hx hy (matches_of_corresponds hkind hplain hxy)
  rw [merged_eq]
  exact (keysLike_merged hsides).identity hykind

/-- A node that is left of the first side is deleted, when it is no key. -/
theorem leftCopies_eq {e : Element} (hkey : e.hasKey x.element.name = false)
    (hleaf : x.element.kind = .leaf → x.children = []) (hplain : x.element.kind ≠ .plain) :
    leftCopies e x = [(copyFor .delete x).bare] := by
  unfold leftCopies leftOver
  rw [hkey]
  cases hk : x.element.kind with
  | container t =>
    rw [isComposite_of_container (by rw [hk]; rfl)]
    rfl
  | leaf =>
    have hself : x.keysOnly = x := by
      obtain ⟨id, e, bs⟩ := x
      have hbs : bs = [] := hleaf hk
      subst hbs
      rfl
    rw [isComposite_of_leaf hk]
    show [(marked .delete x).bare] = [(marked .delete x.keysOnly).bare]
    rw [hself]
  | plain => exact absurd hk hplain

/-- What is left of each class turns the member of the first side into that of the second. -/
theorem Sides.turns_merged_class (h : Sides s a b) (ha : a.Modelled)
    (hinner : ∀ x ∈ a.children, ∀ y ∈ b.children, Sides s x y → Mergeable s x y) (k : Identity) :
    Turns s (s.rule (some a.element.kind)) k
      ((mergedAll (b.keepsKey a) a.element b.children a.children).filter fun d =>
        d.identity (s.rule (some a.element.kind)) = k)
      ((a.children.map bare).filter fun d => d.identity (s.rule (some a.element.kind)) = k)
      (b.children.filter fun d => d.identity (s.rule (some a.element.kind)) = k) ∧
    ((b.mergePlan a).count = 0 →
      AgreesAll (a.children.filter fun d => d.identity (s.rule (some a.element.kind)) = k)
        (b.children.filter fun d => d.identity (s.rule (some a.element.kind)) = k)) := by
  have hplain : ∀ x ∈ a.children, x.element.kind ≠ .plain := fun x hx =>
    (all_iff.1 ((all_iff.1 ha).2 x hx)).1
  have hcount : (b.mergePlan a).count = 0 → (mergePlanAll (b.keepsKey a) b.id a.element
      (b.children.filter fun d => d.identity (s.rule (some a.element.kind)) = k)
      (a.children.filter fun d => d.identity (s.rule (some a.element.kind)) = k)).count = 0 := by
    intro hzero
    rw [mergePlan_eq] at hzero
    exact (count_eq_zero_iff_part h.kindsB).1 hzero k
  rw [part_mergedAll h.kindsA h.kindsB (fun y hy x hx => h.identity_merged hx hy (hplain x hx)),
    filter_identity_bare]
  rcases filter_identity_cases ((all_iff.1 h.keyedA).1.pairwise_identity h.kindsA) k with
    hA | ⟨x, hx, hxk, hA⟩
  · rcases filter_identity_cases ((all_iff.1 h.keyedB).1.pairwise_identity h.kindsB) k with
      hB | ⟨y, hy, hyk, hB⟩
    · rw [hA, hB, mergedAll_nil]
      exact ⟨turns_nothing rfl (fun _ hd => nomatch hd), fun _ => rfl⟩
    · -- only on the second side: the node is no key, and is added
      have hkept : b.keepsKey a y = false := by
        rw [keepsKey_eq h hy, ← h.hasKey_eq, h.hasKey_right hy (hyk ▸ hA)]
      have hsides := (all_iff.1 h.unmarkedB).2 y hy
      have hykind := h.kindsB y hy
      have hnone : takeFirst (fun a => if y.corresponds a then some () else none) [] = none := rfl
      rw [hA, hB, mergePlanAll_cons_of_none hkept hnone, count_append] at hcount
      rw [hA, hB, mergedAll_cons_of_none hkept hnone, mergedAll_nil]
      refine ⟨turns_add ?_ ?_ (unmarked_bare hsides) hykind hyk ((all_iff.1 h.describedB).2 y hy),
        fun hzero => ?_⟩
      · rw [element_bare]
        exact hykind
      · rw [element_bare, operationOf_unmarked (all_iff.1 hsides).1]
        decide
      · exact absurd (Nat.add_eq_zero_iff.1 (hcount hzero)).1 (by decide)
  · rcases filter_identity_cases ((all_iff.1 h.keyedB).1.pairwise_identity h.kindsB) k with
      hB | ⟨y, hy, hyk, hB⟩
    · -- only on the first side: the node is no key, and is deleted
      have hkeyed := (all_iff.1 ((all_iff.1 h.keyedA).2 x hx)).1
      have hcopies := leftCopies_eq (h.hasKey_left hx (hxk ▸ hB)) hkeyed.leaf (hplain x hx)
      rw [hA, hB, mergePlanAll, count_leftOvers] at hcount
      rw [hA, hB, mergedAll_nil, List.flatMap_singleton, hcopies]
      refine ⟨turns_delete (h.kindsA x hx), fun hzero => ?_⟩
      have hlength := length_leftCopies a.element b.id x
      rw [hcopies, hcount hzero x (by simp)] at hlength
      cases hlength
    · rw [hA, hB] at hcount ⊢
      by_cases hkey : a.element.hasKey x.element.name = true
      · subst hxk
        obtain ⟨hturns, hagrees⟩ := h.turns_merged_key hx hB hkey
        exact ⟨hturns, fun _ => agreesAll_singleton hagrees⟩
      · have hname : x.element.name = y.element.name :=
          congrArg Identity.name (hxk.trans hyk.symm)
        have hkept : b.keepsKey a y = false := by
          rw [keepsKey_eq h hy, ← hname]
          exact Bool.eq_false_iff.2 hkey
        obtain ⟨hturns, hagrees⟩ := h.turns_merged_pair b.id hx hy hxk hyk (hplain x hx)
          hkept (hinner x hx y hy)
        exact ⟨hturns, fun hzero => agreesAll_singleton (hagrees (hcount hzero))⟩

/-- What a merging edit holds for two sides turns the first into the second. -/
theorem Sides.mergeable (h : Sides s a b) (ha : a.Modelled) : Mergeable s a b := by
  induction a using induction generalizing b with
  | step id e as ih =>
    have hclass := h.turns_merged_class ha fun x hx y _ hxy => ih x hx hxy ((all_iff.1 ha).2 x hx)
    refine ⟨exists_of_turns fun k => (hclass k).1, fun hzero => ?_⟩
    exact agreesAll_of_filter (identity (s.rule (some (Branch.mk id e as).element.kind)))
      fun k => (hclass k).2 hzero

end Edit

open Build Edit Netconf.Tree

namespace Document.Fit

variable {s : Schema} {d e : Document}

/-- The merging edit is made without failing, and holds what is left of the second document. -/
theorem exists_mergingEdit (hd : d.Fit s) (he : e.Fit s)
    (hsame : d.tree.compare d.root e.tree e.root ≠ .different) :
    ∃ i b, d.tree.mergingEdit d.root e.tree e.root = .ok i ∧ i.tree.Forest ∧
      b.bare = (e.tree.branch e.root).bare ∧ Sides s (d.tree.branch d.root) b ∧
      (i.tree.branch i.root).bare = b.merged (d.tree.branch d.root) := by
  obtain ⟨hc, hroot, hbranch, hsettled, t', hext, hedit⟩ :=
    Tree.exists_mergingEdit d.tree d.root e.tree e.root
  refine ⟨_, _, hedit, (hext.forest.detachAll _).1, hbranch,
    (hd.sides he hsame).of_bare_right hbranch.symm, ?_⟩
  exact (hext.bare_branch_amended hc hsettled hroot).trans
    (amended_mergePlan (hc.nodup_ids_branch _))

/-- Where a data model describes all nodes, the merging edit is made without failing, applying it to
the first document succeeds, and the first document agrees with the second then. -/
theorem mergingEdit_turns (hd : d.Fit s) (he : e.Fit s) (hdm : (d.tree.branch d.root).Modelled)
    (hroot : (d.tree.element d.root).kind.isContainer = true)
    (hsame : d.tree.compare d.root e.tree e.root ≠ .different) :
    ∃ i t', d.tree.mergingEdit d.root e.tree e.root = .ok i ∧
      Build.on d.tree (Edit.apply d.root i.tree i.root) = (.ok (), t') ∧
      (t'.branch d.root).Agrees (e.tree.branch e.root) ∧
      t'.agree d.root e.tree e.root = true := by
  obtain ⟨i, b, hi, hforest, hb, hsides, hbranch⟩ := hd.exists_mergingEdit he hsame
  obtain ⟨⟨zs, hsteps, hagree, hzs⟩, -⟩ := hsides.mergeable hdm
  have hleaf : (d.tree.element d.root).kind ≠ .leaf := by
    intro hleaf
    rw [hleaf] at hroot
    cases hroot
  have hmark : b.element.markText? = none := (all_iff.1 hsides.unmarkedB).1
  have hmatch : (Branch.mk 0 b.element (mergedAll (b.keepsKey (d.tree.branch d.root))
      (d.tree.branch d.root).element b.children (d.tree.branch d.root).children)).entry.matchesEntry
      (d.tree.branch d.root).entry = true :=
    Entry.matches_symm (x := (d.tree.branch d.root).entry) hsides.kind
      ((keysLike_merged hsides).matches hsides.kind hsides.same)
  rw [← hd.forest.content_eq] at hsteps
  rw [hd.forest.element_branch] at hzs
  rw [merged_eq] at hbranch
  obtain ⟨t', hon, hagrees, hagree'⟩ := hd.exists_apply he hleaf hsame hforest hbranch hmark hmatch
    hsteps (hagree.of_bare_right hb) hzs
  exact ⟨i, t', hi, hon, hagrees, hagree'⟩

/-- The merging edit for the three hosts brings about the hosts afterwards. -/
theorem mergingEdit_turns_hosts : ∃ i t',
    hostsBefore.tree.mergingEdit hostsBefore.root hostsAfter.tree hostsAfter.root = .ok i ∧
      Build.on hostsBefore.tree (Edit.apply hostsBefore.root i.tree i.root) = (.ok (), t') ∧
      (t'.branch hostsBefore.root).Agrees (hostsAfter.tree.branch hostsAfter.root) ∧
      t'.agree hostsBefore.root hostsAfter.tree hostsAfter.root = true :=
  mergingEdit_turns fit_hostsBefore fit_hostsAfter (by decide +kernel) (by decide +kernel)
    (by decide +kernel)

end Document.Fit

end Netconf
