import Mathlib.Data.List.Nodup
import Mathlib.Data.List.Perm.Subperm
import Netconf.Proofs.Text.Decimal
import Netconf.Proofs.Tree.Orderly
import Netconf.Proofs.Xml.Names

/-!
# What labels mean in scopes

`Scope.means` is what a reader takes a label for where a scope is open. The label that is chosen for
a namespace means this namespace (`Scope.chosen_choose`), also when it must be declared first: then
it is one that was not in scope before, so that the labels of the names before keep what they mean.
The only exception is the default label of an element, which may hide that of the elements around
it; it is chosen before any other.
-/

namespace Netconf

/-! ## Bindings -/

namespace Bindings

variable {m : Bindings} {b : Binding} {label : String}

/-- Looking for a label among overwritten bindings. -/
theorem find?_overwrite (bs : List Binding) (b : Binding) (label : String) :
    (bs.map fun c => if c.label == b.label then b else c).find? (fun c => c.label == label) =
      if label = b.label then (bs.find? fun c => c.label == label).map fun _ => b
      else bs.find? fun c => c.label == label := by
  induction bs with
  | nil => simp
  | cons c cs ih =>
    rw [List.map_cons, List.find?_cons, List.find?_cons, ih]
    by_cases hc : c.label = b.label
    · by_cases hl : label = b.label
      · simp [hc, hl]
      · have hne : (b.label == label) = false := by simpa using Ne.symm hl
        simp [hc, hl, hne]
    · by_cases hl : label = b.label
      · have hne : (c.label == b.label) = false := by simpa using hc
        simp [hl, hne]
      · have hne : (c.label == b.label) = false := by simpa using hc
        rw [if_neg hl, if_neg (by simp [hne]), if_neg hl]

/-- A label that was bound means what it was bound to, and the others mean what they meant. -/
theorem ns?_set (m : Bindings) (b : Binding) (label : String) :
    (m.set b).ns? label = if label = b.label then some b.ns else m.ns? label := by
  unfold set
  split
  · next hbinds =>
    rw [ns?, find?_overwrite]
    split
    · next hl =>
      obtain ⟨ns, hns⟩ := Option.isSome_iff_exists.1 hbinds
      rw [ns?, ← hl, Option.map_eq_some_iff] at hns
      obtain ⟨c, hc, -⟩ := hns
      rw [hc]
      rfl
    · rfl
  · next hbinds =>
    have hnone : m.ns? b.label = none := by simpa [binds] using hbinds
    unfold insert
    split
    · rw [ns?, List.find?_cons]
      by_cases hl : label = b.label
      · simp [hl]
      · have hne : (b.label == label) = false := by simpa using Ne.symm hl
        simp [hl, hne, ns?]
    · rw [ns?, List.find?_append]
      by_cases hl : label = b.label
      · rw [ns?, Option.map_eq_none_iff] at hnone
        simp [hl, hnone]
      · have hne : (b.label == label) = false := by simpa using Ne.symm hl
        simp [hl, hne, ns?]

/-- A label with a meaning is bound. -/
theorem mem_labels_of_ns? {ns : String} (h : m.ns? label = some ns) : label ∈ m.labels := by
  rw [← binds_iff, binds, h]
  rfl

end Bindings

namespace Xml.Scope

variable {s s' : Scope} {m : Bindings} {label ns : String}

/-! ## Meanings -/

/-- What a label means to a reader where a scope is open; the empty namespace is none. -/
def means (s : Scope) (label : String) : Option String :=
  if label = "xml" then some nsXml else (s.ns? label).filter fun ns => ns != ""

/-- The meaning of a label is that on the innermost element, or else that further out. -/
theorem ns?_cons (m : Bindings) (s : Scope) (label : String) :
    ns? (m :: s) label = (m.ns? label).or (s.ns? label) := by
  unfold ns?
  rw [List.findSome?_cons]
  cases m.ns? label <;> rfl

/-- A label that is declared means what it is declared for, and the others mean what they meant. -/
theorem ns?_declare (m : Bindings) (s : Scope) (b : Binding) (label : String) :
    ns? (declare (m :: s) b) label = if label = b.label then some b.ns else ns? (m :: s) label := by
  rw [declare, ns?_cons, ns?_cons, Bindings.ns?_set]
  split <;> rfl

/-- A label means what is found in scope for it. -/
theorem means_of_ns? (hlabel : label ≠ "xml") (hns : ns ≠ "") (h : s.ns? label = some ns) :
    s.means label = some ns := by
  rw [means, if_neg hlabel, h]
  simp [hns]

/-- Every element of a scope binds labels once, and only such labels as a tree may bind. -/
def Sound (s : Scope) : Prop :=
  ∀ m ∈ s, m.labels.Nodup ∧ ∀ label ∈ m.labels, isLabel label = true

/-- The labels that have a meaning in a sound scope. -/
theorem Sound.isLabel_of_ns? (h : s.Sound) (hns : s.ns? label = some ns) :
    isLabel label = true := by
  obtain ⟨m, hm, hns⟩ := List.exists_of_findSome?_eq_some hns
  exact (h m hm).2 label (Bindings.mem_labels_of_ns? hns)

/-- A sound scope stays sound when a label is declared that a tree may bind. -/
theorem Sound.declare (h : Sound (m :: s)) {b : Binding} (hb : isLabel b.label = true) :
    Sound (Scope.declare (m :: s) b) := by
  obtain ⟨⟨hnodup, hlabels⟩, hs⟩ := List.forall_mem_cons.1 h
  refine List.forall_mem_cons.2 ⟨⟨Bindings.nodup_labels_set hnodup b, fun label hlabel => ?_⟩, hs⟩
  rcases Bindings.mem_labels_set.1 hlabel with hlabel | rfl
  · exact hlabels label hlabel
  · exact hb

/-! ## Made-up labels -/

/-- The made-up labels of two numbers differ. -/
theorem madeUp_injective {i j : Nat} (h : madeUp i = madeUp j) : i = j := by
  have hchars := congrArg String.toList h
  simp only [madeUp, String.toList_append, List.append_cancel_left_eq] at hchars
  exact Text.decimal_injective (String.toList_inj.1 hchars)

/-- A made-up label is a name that is not reserved. -/
theorem isLabel_madeUp (i : Nat) : isLabel (madeUp i) = true ∧ madeUp i ≠ "" := by
  have hchars : (madeUp i).toList = 'n' :: 's' :: (toString i).toList := by
    simp [madeUp]
  have hne : ∀ s : String, s.toList.head? ≠ some 'n' → madeUp i ≠ s := fun s hs he => by
    rw [← he, hchars] at hs
    exact hs rfl
  have hname : isName (madeUp i) = true := by
    rw [isName, hchars]
    simp only [Bool.and_eq_true, List.all_cons, List.all_eq_true]
    refine ⟨by decide, by decide, fun c hc => ?_⟩
    simp [isNameChar, Text.isDigit_of_mem_decimal hc]
  have hempty := hne "" (by decide)
  exact ⟨isLabel_iff.2 (Or.inr ⟨hname, hne "xml" (by decide), hne "xmlns" (by decide)⟩), hempty⟩

/-- A label in scope is bound on one of the elements. -/
theorem mem_flatMap_of_ns? (h : s.ns? label = some ns) :
    label ∈ (s.flatMap Bindings.toList).map (·.label) := by
  obtain ⟨m, hm, hns⟩ := List.exists_of_findSome?_eq_some h
  obtain ⟨b, hb, rfl⟩ := List.mem_map.1 (Bindings.mem_labels_of_ns? hns)
  exact List.mem_map_of_mem (List.mem_flatMap.2 ⟨m, hm, hb⟩)

/-- Of one made-up label more than there are bindings, one is not in scope. -/
theorem exists_madeUp_free (s : Scope) : ∃ i < s.count + 1, s.ns? (madeUp i) = none := by
  by_contra hall
  -- otherwise all of them are bound, which are more labels than there are bindings
  have hsub : (List.range (s.count + 1)).map madeUp ⊆
      (s.flatMap Bindings.toList).map (·.label) := by
    intro label hlabel
    obtain ⟨i, hi, rfl⟩ := List.mem_map.1 hlabel
    have hsome : s.ns? (madeUp i) ≠ none := fun hnone => hall ⟨i, List.mem_range.1 hi, hnone⟩
    obtain ⟨ns, hns⟩ := Option.ne_none_iff_exists'.1 hsome
    exact mem_flatMap_of_ns? hns
  have hnodup : ((List.range (s.count + 1)).map madeUp).Nodup :=
    List.nodup_range.map fun _ _ => madeUp_injective
  have hle := (hnodup.subperm hsub).length_le
  rw [List.length_map, List.length_range, List.length_map] at hle
  exact absurd hle (Nat.not_le.2 (Nat.lt_succ_self _))

/-- The free label is the first made-up one that is not in scope. -/
theorem freeLabel_spec (s : Scope) :
    ∃ i, s.freeLabel = madeUp i ∧ s.ns? (madeUp i) = none ∧
      ∀ j < i, (s.ns? (madeUp j)).isSome = true := by
  obtain ⟨i, hi, hfree⟩ := exists_madeUp_free s
  have hfound : ((List.range (s.count + 1)).find? fun i => (s.ns? (madeUp i)).isNone).isSome := by
    rw [List.find?_isSome]
    exact ⟨i, List.mem_range.2 hi, by simp [hfree]⟩
  obtain ⟨j, hj⟩ := Option.isSome_iff_exists.1 hfound
  obtain ⟨hnone, -, hbefore⟩ := List.find?_range_eq_some.1 hj
  exact ⟨j, by simp [freeLabel, hj], by simpa using hnone, by simpa using hbefore⟩

/-! ## Choosing labels -/

/-- What is read where `s` is open is read the same where `s'` is: by names without label, and by
names with a label that means something. -/
def Keeps (s s' : Scope) : Prop :=
  ∀ label, label = "" ∨ (s.means label).isSome = true → s'.means label = s.means label

/-- A scope keeps what is read in it. -/
theorem keeps_refl (s : Scope) : s.Keeps s := fun _ _ => rfl

/-- Keeping twice is keeping. -/
theorem Keeps.trans {s'' : Scope} (h : s.Keeps s') (h' : s'.Keeps s'') : s.Keeps s'' := by
  intro label hlabel
  have heq := h label hlabel
  rw [← heq] at hlabel
  exact (h' label hlabel).trans heq

/-- A label that means something goes on meaning it. -/
theorem Keeps.means (h : s.Keeps s') (hlabel : s.means label = some ns) :
    s'.means label = some ns :=
  (h label (Or.inr (by rw [hlabel]; rfl))).trans hlabel

/-- Declaring a label that means nothing keeps what is read. -/
theorem keeps_declare {b : Binding} (hfree : ns? (m :: s) b.label = none)
    (hlabel : b.label ≠ "xml") (hne : b.label ≠ "") : Keeps (m :: s) (declare (m :: s) b) := by
  intro label hl
  have hother : label ≠ b.label := by
    rintro rfl
    rcases hl with hl | hl
    · exact hne hl
    · rw [Scope.means, if_neg hlabel, hfree] at hl
      cases hl
  rw [Scope.means, Scope.means, ns?_declare, if_neg hother]

/-- A label that is in scope for a namespace means it, and is the default one only for elements. -/
theorem label?_spec {allowDefault : Bool} (h : s.label? ns allowDefault = some label) :
    s.ns? label = some ns ∧ (allowDefault = false → label ≠ "") := by
  unfold label? at h
  obtain ⟨b, hb, rfl⟩ := Option.map_eq_some_iff.1 h
  obtain ⟨m, -, hb⟩ := List.exists_of_findSome?_eq_some hb
  have husable := List.find?_some hb
  simp only [usable, Bool.and_eq_true, Bool.or_eq_true, beq_iff_eq] at husable
  obtain ⟨⟨-, hdefault⟩, hmeans⟩ := husable
  refine ⟨hmeans, fun hallow hempty => ?_⟩
  rcases hdefault with hdefault | hdefault
  · rw [hallow] at hdefault
    cases hdefault
  · simp [Binding.isDefault, hempty] at hdefault

/-- The label to declare is not in scope, or it is the default one of an element that does not bind
it. -/
theorem newLabel_cases (m : Bindings) (s : Scope) (suggested : Option String) (forElement : Bool) :
    (ns? (m :: s) (newLabel (m :: s) suggested forElement) = none ∧
      (forElement = false → newLabel (m :: s) suggested forElement ≠ "")) ∨
    (forElement = true ∧ newLabel (m :: s) suggested forElement = "" ∧ m.ns? "" = none) := by
  unfold newLabel
  split
  · next l hl =>
    obtain ⟨-, hl⟩ := Option.filter_eq_some_iff.1 hl
    simp only [Bool.and_eq_true, Bool.or_eq_true, bne_iff_ne, Option.isNone_iff_eq_none] at hl
    refine .inl ⟨hl.2, fun helement => ?_⟩
    exact hl.1.resolve_left (Bool.eq_false_iff.1 helement)
  · split
    · next hdefault =>
      simp only [Bool.and_eq_true, List.head?_cons, Option.any_some, Bindings.binds,
        Bool.not_eq_true', Option.isSome_eq_false_iff, Option.isNone_iff_eq_none] at hdefault
      exact .inr ⟨hdefault.1, rfl, hdefault.2⟩
    · obtain ⟨i, hi, hfree, -⟩ := freeLabel_spec (m :: s)
      rw [hi]
      exact .inl ⟨hfree, fun _ => (isLabel_madeUp i).2⟩

/-- The label to declare may be bound, if that which is suggested may. -/
theorem isLabel_newLabel {suggested : Option String} (hs : ∀ l ∈ suggested, isLabel l = true)
    (forElement : Bool) : isLabel (s.newLabel suggested forElement) = true := by
  unfold newLabel
  split
  · next l hl => exact hs l (Option.filter_eq_some_iff.1 hl).1
  · obtain ⟨i, hi, -⟩ := s.freeLabel_spec
    split
    · decide
    · exact hi ▸ (isLabel_madeUp i).1

/-- The label `label` and the scope `s'` serve for a namespace where `s` was open. -/
structure Chosen (s : Scope) (ns : String) (forElement : Bool) (label : String) (s' : Scope) :
    Prop where
  /-- The label means the namespace. -/
  means : s'.means label = some ns
  /-- The label is none, or a name that declares nothing. -/
  name : label = "" ∨ isName label = true ∧ label ≠ "xmlns"
  /-- Attributes have a label. -/
  ne_empty : forElement = false → label ≠ ""
  /-- Labels for attributes keep what is read. -/
  keeps : forElement = false → s.Keeps s'
  /-- The scope is sound. -/
  sound : s'.Sound
  /-- Only the innermost element declares something. -/
  exists_cons : ∃ m, s' = m :: s.tail

/-- The label that is chosen for a namespace serves for it. -/
theorem chosen_choose {suggested : Option String} (h : Sound (m :: s))
    (hs : ∀ l ∈ suggested, isLabel l = true) (hns : ns ≠ "") (forElement : Bool) :
    Chosen (m :: s) ns forElement (choose (m :: s) suggested ns forElement).1
      (choose (m :: s) suggested ns forElement).2 := by
  have hne : ∀ {l : String}, isLabel l = true → l ≠ "xml" := fun {l} hl he => by
    rw [he] at hl
    exact absurd hl (by decide)
  have hname : ∀ {l : String}, isLabel l = true → l = "" ∨ isName l = true ∧ l ≠ "xmlns" :=
    fun hl => (isLabel_iff.1 hl).imp_right fun hl => ⟨hl.1, hl.2.2⟩
  unfold choose
  split
  · next hxml =>
    subst hxml
    have hxml : isName "xml" = true ∧ "xml" ≠ "xmlns" := by decide
    have hne : "xml" ≠ "" := by decide
    exact ⟨by simp [Scope.means], Or.inr hxml, fun _ => hne, fun _ => keeps_refl _, h, m, rfl⟩
  · split
    · next l hl =>
      obtain ⟨hmeans, hempty⟩ := label?_spec hl
      have hlabel := h.isLabel_of_ns? hmeans
      exact ⟨means_of_ns? (hne hlabel) hns hmeans, hname hlabel, hempty, fun _ => keeps_refl _, h,
        m, rfl⟩
    · have hlabel := isLabel_newLabel (s := m :: s) hs forElement
      have hattribute : forElement = false →
          newLabel (m :: s) suggested forElement ≠ "" ∧
            ns? (m :: s) (newLabel (m :: s) suggested forElement) = none := fun he =>
        (newLabel_cases m s suggested forElement).elim (fun h => ⟨h.2 he, h.1⟩)
          fun h => absurd (he.symm.trans h.1) Bool.noConfusion
      have hdeclared : ns? (declare (m :: s) ⟨newLabel (m :: s) suggested forElement, ns⟩)
          (newLabel (m :: s) suggested forElement) = some ns := by
        rw [ns?_declare, if_pos rfl]
      exact ⟨means_of_ns? (hne hlabel) hns hdeclared, hname hlabel, fun he => (hattribute he).1,
        fun he => keeps_declare (hattribute he).2 (hne hlabel) (hattribute he).1,
        h.declare hlabel, _, rfl⟩

end Xml.Scope

end Netconf
