import Netconf.Proofs.Tree.Bindings
import Netconf.Proofs.Tree.Regular
import Netconf.Proofs.Xml.Elements

/-!
# Merging bindings

`ordered` says, apart from all operations, how the bindings of a list are kept: of every label the
first binding counts, a default binding comes first, and the others follow as they appear. Bindings
that were built by any operations are kept that way (`Built.ordered_eq`), and merging keeps both
lists one behind the other in this order (`toList_merge`). Hence merging is associative and
idempotent as a list, and levels of bindings may be merged in any grouping.
-/

namespace Netconf.Bindings

variable {m : Bindings} {xs ys bs : List Binding} {label : String}

/-! ## The first bindings of a list -/

/-- The bindings of a list whose label does not occur before, as they appear. -/
def firsts : List Binding → List Binding
  | [] => []
  | b :: bs => b :: (firsts bs).filter fun c => c.label != b.label

/-- The first bindings have the labels of the list. -/
theorem mem_labels_firsts :
    label ∈ (firsts bs).map (·.label) ↔ label ∈ bs.map (·.label) := by
  induction bs with
  | nil => rfl
  | cons b bs ih =>
    by_cases hlabel : label = b.label
    · simp [firsts, hlabel]
    · have hfilter : label ∈ ((firsts bs).filter fun c => c.label != b.label).map (·.label) ↔
          label ∈ (firsts bs).map (·.label) := by
        simp only [List.mem_map, List.mem_filter, bne_iff_ne]
        constructor
        · rintro ⟨c, ⟨hc, -⟩, rfl⟩
          exact ⟨c, hc, rfl⟩
        · rintro ⟨c, hc, rfl⟩
          exact ⟨c, ⟨hc, hlabel⟩, rfl⟩
      rw [firsts, List.map_cons, List.mem_cons, hfilter, ih, List.map_cons, List.mem_cons]

/-- No label occurs twice among the first bindings. -/
theorem nodup_firsts (bs : List Binding) : ((firsts bs).map (·.label)).Nodup := by
  induction bs with
  | nil => exact List.nodup_nil
  | cons b bs ih =>
    refine List.nodup_cons.2 ⟨fun hb => ?_, ih.sublist (List.filter_sublist.map _)⟩
    obtain ⟨c, hc, hlabel⟩ := List.mem_map.1 hb
    exact bne_iff_ne.1 (List.mem_filter.1 hc).2 hlabel

/-- Where no label occurs twice, all bindings are first ones. -/
theorem firsts_eq_self (h : (bs.map (·.label)).Nodup) : firsts bs = bs := by
  induction bs with
  | nil => rfl
  | cons b bs ih =>
    obtain ⟨hb, hbs⟩ := List.nodup_cons.1 h
    rw [firsts, ih hbs, List.filter_eq_self.2 fun c hc => ?_]
    exact bne_iff_ne.2 fun hlabel => hb (List.mem_map.2 ⟨c, hc, hlabel⟩)

/-- Of bindings behind others those are first ones whose labels the others do not have. -/
theorem firsts_append (xs ys : List Binding) :
    firsts (xs ++ ys) =
      firsts xs ++ (firsts ys).filter fun c => decide (c.label ∉ xs.map (·.label)) := by
  induction xs with
  | nil => simp [firsts]
  | cons b xs ih =>
    rw [List.cons_append, firsts, ih, List.filter_append, List.filter_filter, firsts,
      List.cons_append]
    congr 2
    refine List.filter_congr fun c _ => ?_
    rw [Bool.eq_iff_iff]
    simp [not_or]

/-- Choosing bindings by their labels and taking the first ones may be done in either order. -/
theorem filter_firsts (p : String → Bool) (bs : List Binding) :
    (firsts bs).filter (fun c => p c.label) = firsts (bs.filter fun c => p c.label) := by
  induction bs with
  | nil => rfl
  | cons b bs ih =>
    rw [firsts]
    cases hb : p b.label with
    | true =>
      rw [List.filter_cons, if_pos hb, List.filter_cons, if_pos hb, firsts, ← ih,
        List.filter_filter, List.filter_filter]
      exact congrArg _ (List.filter_congr fun c _ => Bool.and_comm _ _)
    | false =>
      rw [List.filter_cons, if_neg (by simp [hb]), List.filter_cons, if_neg (by simp [hb]), ← ih,
        List.filter_filter]
      -- what is chosen does not have the label that is left out
      refine List.filter_congr fun c _ => ?_
      by_cases hc : c.label = b.label
      · simp [hc, hb]
      · simp [hc]

/-- First bindings are first ones of what they begin. -/
theorem firsts_firsts_append (xs ys : List Binding) :
    firsts (firsts xs ++ ys) = firsts (xs ++ ys) := by
  rw [firsts_append, firsts_eq_self (nodup_firsts xs), firsts_append]
  simp only [mem_labels_firsts]

/-- First bindings are first ones of what they end. -/
theorem firsts_append_firsts (xs ys : List Binding) :
    firsts (xs ++ firsts ys) = firsts (xs ++ ys) := by
  rw [firsts_append, firsts_eq_self (nodup_firsts ys), firsts_append]

/-! ## The order of bindings -/

/-- The bindings of a list in order: of every label the first one, a default binding in front, and
the others as they appear. -/
def ordered (bs : List Binding) : List Binding :=
  (firsts bs).filter Binding.isDefault ++ (firsts bs).filter fun b => !b.isDefault

/-- Default bindings and others are ordered apart. -/
theorem ordered_eq (bs : List Binding) :
    ordered bs =
      firsts (bs.filter Binding.isDefault) ++ firsts (bs.filter fun b => !b.isDefault) := by
  rw [ordered]
  exact congrArg₂ _ (filter_firsts (· == "") bs) (filter_firsts (fun l => !(l == "")) bs)

/-- The default binding in order. -/
theorem filter_isDefault_ordered (bs : List Binding) :
    (ordered bs).filter Binding.isDefault = firsts (bs.filter Binding.isDefault) := by
  have hself : (firsts (bs.filter Binding.isDefault)).filter Binding.isDefault =
      firsts ((bs.filter Binding.isDefault).filter Binding.isDefault) := filter_firsts (· == "") _
  have hnone : (firsts (bs.filter fun b => !b.isDefault)).filter Binding.isDefault =
      firsts ((bs.filter fun b => !b.isDefault).filter Binding.isDefault) :=
    filter_firsts (· == "") _
  rw [ordered_eq, List.filter_append, hself, hnone, List.filter_filter, List.filter_filter]
  simp [firsts]

/-- The other bindings in order. -/
theorem filter_not_isDefault_ordered (bs : List Binding) :
    (ordered bs).filter (fun b => !b.isDefault) = firsts (bs.filter fun b => !b.isDefault) := by
  have hnone : (firsts (bs.filter Binding.isDefault)).filter (fun b => !b.isDefault) =
      firsts ((bs.filter Binding.isDefault).filter fun b => !b.isDefault) :=
    filter_firsts (fun l => !(l == "")) _
  have hself : (firsts (bs.filter fun b => !b.isDefault)).filter (fun b => !b.isDefault) =
      firsts ((bs.filter fun b => !b.isDefault).filter fun b => !b.isDefault) :=
    filter_firsts (fun l => !(l == "")) _
  rw [ordered_eq, List.filter_append, hself, hnone, List.filter_filter, List.filter_filter]
  simp [firsts]

/-- What is ordered already may be ordered together with what is behind it. -/
theorem ordered_ordered_append (xs ys : List Binding) :
    ordered (ordered xs ++ ys) = ordered (xs ++ ys) := by
  rw [ordered_eq, List.filter_append, List.filter_append, filter_isDefault_ordered,
    filter_not_isDefault_ordered, firsts_firsts_append, firsts_firsts_append, ordered_eq,
    List.filter_append, List.filter_append]

/-- What is ordered already may be ordered together with what is in front of it. -/
theorem ordered_append_ordered (xs ys : List Binding) :
    ordered (xs ++ ordered ys) = ordered (xs ++ ys) := by
  rw [ordered_eq, List.filter_append, List.filter_append, filter_isDefault_ordered,
    filter_not_isDefault_ordered, firsts_append_firsts, firsts_append_firsts, ordered_eq,
    List.filter_append, List.filter_append]

/-- Ordering twice is ordering once. -/
theorem ordered_ordered (bs : List Binding) : ordered (ordered bs) = ordered bs := by
  simpa using ordered_ordered_append bs []

/-- Bindings that keep labels apart and have a default binding first are in order. -/
theorem ordered_eq_self (hlabels : m.labels.Nodup) (hfirst : m.DefaultFirst) :
    ordered m.toList = m.toList := by
  rw [ordered, firsts_eq_self hlabels]
  unfold DefaultFirst at hfirst
  cases h : m.toList with
  | nil => rfl
  | cons b bs =>
    rw [h, List.tail_cons] at hfirst
    have hothers : ∀ c ∈ bs, c.isDefault = false := fun c hc => by
      simpa [Binding.isDefault] using hfirst c hc
    have hnone : bs.filter Binding.isDefault = [] := by
      simpa [List.filter_eq_nil_iff] using hothers
    have hall : (bs.filter fun c => !c.isDefault) = bs := by
      simpa [List.filter_eq_self] using hothers
    cases hb : b.isDefault <;> simp [hb, hnone, hall]

/-! ## Operations -/

/-- Bindings are what their list is. -/
theorem ext {m m' : Bindings} (h : m.toList = m'.toList) : m = m' := congrArg Bindings.mk h

/-- A binding that is added to bindings in order is ordered behind them. -/
theorem toList_add (h : ordered m.toList = m.toList) (b : Binding) :
    (m.add b).toList = ordered (m.toList ++ [b]) := by
  have hfirsts : firsts (m.toList ++ [b]) =
      firsts m.toList ++ if b.label ∈ m.labels then [] else [b] := by
    rw [firsts_append]
    by_cases hb : b.label ∈ m.labels <;> simp_all [firsts, labels]
  unfold add
  by_cases hb : b.label ∈ m.labels
  · rw [if_pos (binds_iff.2 hb), ordered, hfirsts, if_pos hb, List.append_nil]
    exact h.symm
  · rw [if_neg (mt binds_iff.1 hb), ordered, hfirsts, if_neg hb, List.filter_append,
      List.filter_append, insert]
    cases hdefault : b.isDefault with
    | true =>
      -- there is no other default binding
      have hlabel : b.label = "" := by simpa [Binding.isDefault] using hdefault
      have hnone : (firsts m.toList).filter Binding.isDefault = [] := by
        rw [List.filter_eq_nil_iff]
        intro c hc hempty
        have hc' : c.label ∈ m.labels := mem_labels_firsts.1 (List.mem_map_of_mem hc)
        rw [show c.label = b.label by simpa [Binding.isDefault, hlabel] using hempty] at hc'
        exact hb hc'
      rw [ordered, hnone] at h
      simpa [hdefault, hnone] using h.symm
    | false =>
      rw [ordered] at h
      simp [hdefault, ← List.append_assoc, h]

/-- Merging orders the bindings of both sets, one behind the other. -/
theorem toList_merge (h : ordered m.toList = m.toList) (other : Bindings) :
    (m.merge other).toList = ordered (m.toList ++ other.toList) := by
  obtain ⟨bs⟩ := other
  induction bs generalizing m with
  | nil => rw [List.append_nil, h]; rfl
  | cons b bs ih =>
    have hadd := toList_add h b
    have hmerge : m.merge ⟨b :: bs⟩ = (m.add b).merge ⟨bs⟩ := rfl
    rw [hmerge, ih (by rw [hadd, ordered_ordered]), hadd, ordered_ordered_append,
      List.append_assoc, List.singleton_append]

/-- Merging several levels orders the bindings of all of them, one behind the other. -/
theorem toList_foldl_merge (h : ordered m.toList = m.toList) (levels : List Bindings) :
    (levels.foldl merge m).toList = ordered (m.toList ++ levels.flatMap toList) := by
  induction levels generalizing m with
  | nil => simpa using h.symm
  | cons level levels ih =>
    have hmerge := toList_merge h level
    rw [List.foldl_cons, ih (by rw [hmerge, ordered_ordered]), hmerge, ordered_ordered_append,
      List.append_assoc, List.flatMap_cons]

/-- Bindings without a label mean what they meant, but for that label. -/
theorem ns?_erase (m : Bindings) (label other : String) :
    (m.erase label).2.ns? other = if other = label then none else m.ns? other := by
  unfold erase ns?
  rw [List.find?_filter]
  split
  · next h => simp [h]
  · next h =>
    congr 2
    funext b
    by_cases hb : b.label = other
    · simp [hb, h]
    · simp [hb]

/-! ## Bindings that are built -/

/-- The bindings that can be built by the operations on bindings. -/
inductive Built : Bindings → Prop where
  /-- There are none at first. -/
  | empty : Built .empty
  /-- They are taken from a list. -/
  | ofList (bs : List Binding) : Built (.ofList bs)
  /-- A label is bound. -/
  | set {m : Bindings} (h : Built m) (b : Binding) : Built (m.set b)
  /-- A binding is added. -/
  | add {m : Bindings} (h : Built m) (b : Binding) : Built (m.add b)
  /-- The labels of other bindings are bound. -/
  | setAll {m other : Bindings} (h : Built m) (hother : Built other) : Built (m.setAll other)
  /-- Other bindings are added. -/
  | merge {m other : Bindings} (h : Built m) (hother : Built other) : Built (m.merge other)
  /-- A label is given up. -/
  | erase {m : Bindings} (h : Built m) (label : String) : Built (m.erase label).2

/-- Labels stay apart and a default binding stays first when the labels of a list are bound. -/
theorem kept_foldl_set (hlabels : m.labels.Nodup) (hfirst : m.DefaultFirst) (bs : List Binding) :
    (bs.foldl set m).labels.Nodup ∧ (bs.foldl set m).DefaultFirst :=
  bs.foldlRecOn (motive := fun m : Bindings => m.labels.Nodup ∧ m.DefaultFirst) set
    ⟨hlabels, hfirst⟩ fun _ hm b _ => ⟨nodup_labels_set hm.1 b, hm.2.set b⟩

/-- Labels stay apart and a default binding stays first when the bindings of a list are added. -/
theorem kept_foldl_add (hlabels : m.labels.Nodup) (hfirst : m.DefaultFirst) (bs : List Binding) :
    (bs.foldl add m).labels.Nodup ∧ (bs.foldl add m).DefaultFirst :=
  bs.foldlRecOn (motive := fun m : Bindings => m.labels.Nodup ∧ m.DefaultFirst) add
    ⟨hlabels, hfirst⟩ fun _ hm b _ => ⟨nodup_labels_add hm.1 b, hm.2.add b⟩

namespace Built

/-- Bindings that are built keep labels apart and have a default binding first. -/
theorem kept (h : m.Built) : m.labels.Nodup ∧ m.DefaultFirst := by
  induction h with
  | empty => exact ⟨List.nodup_nil, nofun⟩
  | ofList bs => exact kept_foldl_set (m := .empty) List.nodup_nil nofun bs
  | set _ b ih => exact ⟨nodup_labels_set ih.1 b, ih.2.set b⟩
  | add _ b ih => exact ⟨nodup_labels_add ih.1 b, ih.2.add b⟩
  | setAll _ _ ih _ => exact kept_foldl_set ih.1 ih.2 _
  | merge _ _ ih _ => exact kept_foldl_add ih.1 ih.2 _
  | erase _ label ih =>
    exact ⟨ih.1.sublist (List.filter_sublist.map _), ih.2.sublist List.filter_sublist⟩

/-- Bindings that are built are in order. -/
theorem ordered_eq (h : m.Built) : ordered m.toList = m.toList := ordered_eq_self h.kept.1 h.kept.2

/-- Bindings that are built are an ordered map, and merging them is lawful. No label is bound twice
and a default binding is first. Merged bindings mean what those on the left mean and otherwise what
those on the right mean, and with bindings that overwrite it is the other way round; a label that is
given up means nothing, and the other bindings stay in their order. Merging is associative and
idempotent as a list, which has a default binding first and the others as they first appear; so of
several levels merged together only the order of the levels counts. -/
theorem merge_lawful {a b : Bindings} (ha : a.Built) (hb : b.Built) (c : Bindings) :
    (a.labels.Nodup ∧ a.DefaultFirst) ∧
      (∀ label, (a.merge b).ns? label = (a.ns? label).or (b.ns? label)) ∧
      (∀ label, (a.setAll b).ns? label = (b.ns? label).or (a.ns? label)) ∧
      (∀ label, (a.erase label).2.ns? label = none ∧
        (∀ other, other ≠ label → (a.erase label).2.ns? other = a.ns? other) ∧
        (a.erase label).2.toList.Sublist a.toList) ∧
      (a.merge b).merge c = a.merge (b.merge c) ∧
      a.merge a = a ∧
      (a.merge b).toList = ordered (a.toList ++ b.toList) ∧
      ∀ above below : List Bindings,
        (above ++ below).foldl Bindings.merge .empty =
          (above.foldl Bindings.merge .empty).merge (below.foldl Bindings.merge .empty) := by
  have hmerge := toList_merge ha.ordered_eq b
  refine ⟨ha.kept, ns?_merge a b, Xml.ns?_setAll a hb.kept.1, fun label => ?_, ?_, ?_, hmerge,
    fun above below => ?_⟩
  · refine ⟨by rw [ns?_erase, if_pos rfl], fun other hother => ?_, List.filter_sublist⟩
    rw [ns?_erase, if_neg hother]
  · refine ext ?_
    calc ((a.merge b).merge c).toList
        = ordered (a.toList ++ b.toList ++ c.toList) := by
          rw [toList_merge (by rw [hmerge, ordered_ordered]), hmerge, ordered_ordered_append]
      _ = ordered (a.toList ++ (b.merge c).toList) := by
          rw [toList_merge hb.ordered_eq, ordered_append_ordered, List.append_assoc]
      _ = (a.merge (b.merge c)).toList := (toList_merge ha.ordered_eq _).symm
  · refine ext ?_
    have hfirsts : firsts (a.toList ++ a.toList) = firsts a.toList := by
      rw [firsts_append, List.filter_eq_nil_iff.2, List.append_nil]
      intro d hd hnew
      exact of_decide_eq_true hnew (mem_labels_firsts.1 (List.mem_map_of_mem hd))
    rw [toList_merge ha.ordered_eq, ordered, hfirsts]
    exact ha.ordered_eq
  · refine ext ?_
    have hall (levels : List Bindings) :
        (levels.foldl Bindings.merge .empty).toList = ordered (levels.flatMap toList) :=
      toList_foldl_merge rfl levels
    rw [toList_merge (by rw [hall, ordered_ordered]), hall, hall, hall, ordered_ordered_append,
      ordered_append_ordered, List.flatMap_append]

end Built

/-- Bindings whose default binding was made last. -/
def innerLevel : Bindings := .ofList [⟨"h", "urn:h"⟩, ⟨"u", "urn:u"⟩, ⟨"", "urn:d"⟩]

/-- Bindings above them, where a label is bound otherwise. -/
def outerLevel : Bindings := (Bindings.empty.add ⟨"v", "urn:v"⟩).set ⟨"h", "urn:other"⟩

/-- Bindings above both, with a default binding of their own. -/
def topLevel : Bindings := (outerLevel.set ⟨"", "urn:e"⟩).add ⟨"w", "urn:w"⟩

/-- Whichever two levels are merged first, the inner bindings win and the outer ones follow. -/
theorem Built.merge_lawful_levels :
    innerLevel.Built ∧ outerLevel.Built ∧
      (innerLevel.merge (outerLevel.merge topLevel)).toList =
        [⟨"", "urn:d"⟩, ⟨"h", "urn:h"⟩, ⟨"u", "urn:u"⟩, ⟨"v", "urn:v"⟩, ⟨"w", "urn:w"⟩] ∧
      (innerLevel.merge outerLevel).merge topLevel =
        innerLevel.merge (outerLevel.merge topLevel) := by
  have hinner : innerLevel.Built := .ofList _
  have houter : outerLevel.Built := (Built.empty.add _).set _
  exact ⟨hinner, houter, by decide, (hinner.merge_lawful houter topLevel).2.2.2.2.1⟩

end Netconf.Bindings
