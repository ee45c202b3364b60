import Netconf.Proofs.Tree.Differences
import Netconf.Proofs.Tree.Frames

/-!
# Agreement as a relation

A difference is computed from one side: its children are paired in order, each with the first child
of the other side that is the same node and not paired yet, and what pairs have below them is looked
at only where it may differ. An empty difference means agreement all the same (`agrees_of_agree`).

Where a schema gives the kinds, being the same node is having the same *signature*
(`Entry.matches_iff_signature`). Then the pairing does not depend on the side: the children of one
signature are paired in order (`listingsAll_eq_empty_iff`). So an empty difference is an equivalence
relation (`agree_equivalence`), also among documents in which siblings are repeated or leaves have
children.
-/

namespace Netconf

/-! ## Lists in step -/

section Lists

variable {α β γ : Type} {R : α → β → Prop} {as : List α} {bs : List β} {cs : List γ}

/-- Two lists may change their places. -/
theorem forall₂_symm_of_mem {S : β → α → Prop} (hRS : ∀ a ∈ as, ∀ b ∈ bs, R a b → S b a)
    (h : List.Forall₂ R as bs) : List.Forall₂ S bs as := by
  induction h with
  | nil => exact .nil
  | cons hab _ ih =>
    exact .cons (hRS _ (by simp) _ (by simp) hab)
      (ih fun a ha b hb => hRS a (by simp [ha]) b (by simp [hb]))

/-- Two lists stand to each other through a third one. -/
theorem forall₂_trans_of_mem {S : β → γ → Prop} {T : α → γ → Prop}
    (hRST : ∀ a ∈ as, ∀ b ∈ bs, ∀ c ∈ cs, R a b → S b c → T a c) (h : List.Forall₂ R as bs)
    (h' : List.Forall₂ S bs cs) : List.Forall₂ T as cs := by
  induction h generalizing cs with
  | nil =>
    cases h'
    exact .nil
  | cons hab _ ih =>
    cases h' with
    | cons hbc hrest =>
      refine .cons (hRST _ (by simp) _ (by simp) _ (by simp) hab hbc) (ih ?_ hrest)
      exact fun a ha b hb c hc => hRST a (by simp [ha]) b (by simp [hb]) c (by simp [hc])

/-- Every member of the second list has its counterpart in the first. -/
theorem exists_left_of_forall₂ {b : β} (h : List.Forall₂ R as bs) (hb : b ∈ bs) :
    ∃ a ∈ as, R a b := by
  induction h with
  | nil => cases hb
  | @cons a _ _ _ hab _ ih =>
    rcases List.mem_cons.1 hb with rfl | hb
    · exact ⟨a, by simp, hab⟩
    · obtain ⟨a', ha', hab'⟩ := ih hb
      exact ⟨a', by simp [ha'], hab'⟩

end Lists

/-! ## Comparisons that find nothing -/

namespace Entry

variable {x y z : Entry}

/-- The names after adding some more. -/
theorem mem_foldl_addName {names acc : List String} {name : String} :
    name ∈ names.foldl addName acc ↔ name ∈ acc ∨ name ∈ names := by
  induction names generalizing acc with
  | nil => simp
  | cons n names ih =>
    rw [List.foldl_cons, ih, List.mem_cons]
    have hadd : name ∈ addName acc n ↔ name ∈ acc ∨ name = n := by
      unfold addName
      split
      · next hn =>
        rw [List.contains_iff_mem] at hn
        exact ⟨.inl, fun h => h.elim id fun he => he ▸ hn⟩
      · simp
    rw [hadd, or_assoc]

/-- The children of a name match when they are as many and each is like one on the other side. -/
theorem sameMembers_iff {name : String} : sameMembers x y name = true ↔
    (x.membersNamed name).length = (y.membersNamed name).length ∧
      ∀ m ∈ x.membersNamed name, ∃ n ∈ y.membersNamed name, m.alike n = true := by
  simp [sameMembers]

/-- A child that is like one of a name has this name. -/
theorem mem_membersNamed_of_alike {m n : Element} {name : String} (hn : n ∈ y.members)
    (hm : m ∈ x.membersNamed name) (h : m.alike n = true) : n ∈ y.membersNamed name := by
  have hname : m.name = name := by simpa using (List.mem_filter.1 hm).2
  exact List.mem_filter.2 ⟨hn, by simpa [← hname] using (Element.alike_iff.1 h).1.symm⟩

/-- Containers compare as equal when they are the same entry and the children of every name that is
no key match. -/
theorem compare_eq_equal_iff_of_container {s : ContainerSchema}
    (h : x.element.kind = .container s) : x.compare y = .equal ↔
      x.matchesEntry y = true ∧ ∀ name ∉ s.keys, sameMembers x y name = true := by
  have hothers : (otherNames s x y).all (sameMembers x y) = true ↔
      ∀ name ∉ s.keys, sameMembers x y name = true := by
    rw [List.all_eq_true]
    refine ⟨fun hall name hkey => ?_, fun hall name hname => hall name ?_⟩
    · by_cases hname : name ∈ otherNames s x y
      · exact hall name hname
      · -- there is no child of this name
        have hnone : ∀ m ∈ x.members ++ y.members, ¬ m.name = name := fun m hm he => by
          refine hname (mem_foldl_addName.2 (.inr (List.mem_filter.2 ⟨?_, by simpa using hkey⟩)))
          exact List.mem_append_right _ (List.mem_map.2 ⟨m, hm, he⟩)
        have hx : x.membersNamed name = [] := List.filter_eq_nil_iff.2 fun m hm => by
          simpa using hnone m (List.mem_append_left _ hm)
        have hy : y.membersNamed name = [] := List.filter_eq_nil_iff.2 fun m hm => by
          simpa using hnone m (List.mem_append_right _ hm)
        rw [sameMembers_iff, hx, hy]
        simp
    · rcases mem_foldl_addName.1 hname with hnil | hmem
      · cases hnil
      · simpa using (List.mem_filter.1 hmem).2
  rw [← hothers]
  unfold matchesEntry compare
  rw [h]
  dsimp only
  cases x.element.alike y.element <;> cases sameKeys s.keys x y <;>
    cases (otherNames s x y).all (sameMembers x y) <;> simp

/-- Other nodes compare as equal when they are alike. -/
theorem compare_eq_equal_iff_of_not_container (h : x.element.kind.isContainer = false) :
    x.compare y = .equal ↔ x.element.alike y.element = true := by
  refine ⟨Branch.alike_of_compare, fun halike => ?_⟩
  obtain ⟨hname, hns, hvalue⟩ := Element.alike_iff.1 halike
  unfold compare
  cases hk : x.element.kind with
  | container s => rw [hk] at h; cases h
  | leaf => simp [Element.sameName_iff.2 ⟨hname, hns⟩, (sameValue_iff _ _).2 hvalue]
  | plain => simp [halike]

/-- A node compares as equal to itself. -/
theorem compare_refl (x : Entry) : x.compare x = .equal := by
  cases hk : x.element.kind with
  | container s =>
    refine (compare_eq_equal_iff_of_container hk).2 ⟨matches_refl x, fun name _ => ?_⟩
    exact sameMembers_iff.2 ⟨rfl, fun m hm => ⟨m, hm, Element.alike_refl m⟩⟩
  | leaf =>
    exact (compare_eq_equal_iff_of_not_container (by rw [hk]; rfl)).2 (Element.alike_refl _)
  | plain =>
    exact (compare_eq_equal_iff_of_not_container (by rw [hk]; rfl)).2 (Element.alike_refl _)

/-- Nodes of one kind compare as equal the other way round, when no child of the second one is left
over. A comparison itself looks at the children of the first one only. -/
theorem compare_symm (hkind : x.element.kind = y.element.kind) (h : x.compare y = .equal)
    (hback : x.element.kind.isContainer = true →
      ∀ n ∈ y.members, ∃ m ∈ x.members, m.alike n = true) : y.compare x = .equal := by
  cases hk : x.element.kind with
  | container s =>
    obtain ⟨hmatch, hall⟩ := (compare_eq_equal_iff_of_container hk).1 h
    refine (compare_eq_equal_iff_of_container (hkind ▸ hk)).2
      ⟨matches_symm hkind hmatch, fun name hname => ?_⟩
    refine sameMembers_iff.2 ⟨(sameMembers_iff.1 (hall name hname)).1.symm, fun n hn => ?_⟩
    obtain ⟨m, hm, hmn⟩ := hback (by rw [hk]; rfl) n (List.mem_of_mem_filter hn)
    have hnm : n.alike m = true := Element.alike_comm ▸ hmn
    exact ⟨m, mem_membersNamed_of_alike hm hn hnm, hnm⟩
  | leaf =>
    have halike := Branch.alike_of_compare h
    exact (compare_eq_equal_iff_of_not_container (by rw [← hkind, hk]; rfl)).2
      (Element.alike_comm ▸ halike)
  | plain =>
    have halike := Branch.alike_of_compare h
    exact (compare_eq_equal_iff_of_not_container (by rw [← hkind, hk]; rfl)).2
      (Element.alike_comm ▸ halike)

/-- Of nodes of one kind, two compare as equal through a third one. -/
theorem compare_trans (hkind : x.element.kind = y.element.kind) (h : x.compare y = .equal)
    (h' : y.compare z = .equal) : x.compare z = .equal := by
  have halike := Element.alike_trans (Branch.alike_of_compare h) (Branch.alike_of_compare h')
  cases hk : x.element.kind with
  | container s =>
    have hk' : y.element.kind = .container s := hkind ▸ hk
    obtain ⟨hxy, hall⟩ := (compare_eq_equal_iff_of_container hk).1 h
    obtain ⟨hyz, hall'⟩ := (compare_eq_equal_iff_of_container hk').1 h'
    have hkeys := ((matches_iff_of_container hk).1 hxy).2.trans
      ((matches_iff_of_container hk').1 hyz).2
    refine (compare_eq_equal_iff_of_container hk).2
      ⟨(matches_iff_of_container hk).2 ⟨halike, hkeys⟩, fun name hname => ?_⟩
    obtain ⟨hlength, hmembers⟩ := sameMembers_iff.1 (hall name hname)
    obtain ⟨hlength', hmembers'⟩ := sameMembers_iff.1 (hall' name hname)
    refine sameMembers_iff.2 ⟨hlength.trans hlength', fun m hm => ?_⟩
    obtain ⟨n, hn, hmn⟩ := hmembers m hm
    obtain ⟨o, ho, hno⟩ := hmembers' n hn
    exact ⟨o, ho, Element.alike_trans hmn hno⟩
  | leaf => exact (compare_eq_equal_iff_of_not_container (by rw [hk]; rfl)).2 halike
  | plain => exact (compare_eq_equal_iff_of_not_container (by rw [hk]; rfl)).2 halike

/-- What a node must have in common with another to be its partner: its identity, and its value
also when it is without schema. -/
def signature (rule : KindRule) (x : Entry) : Identity where
  ns := x.element.ns
  name := x.element.name
  entry :=
    match rule x.element.ns x.element.name with
    | .container s => some (wire? x.element.value, s.keys.map x.keyText?)
    | .plain => some (wire? x.element.value, [])
    | .leaf => none

variable {rule : KindRule}

/-- The signature is the identity in the family that the rule gives. -/
theorem signature_eq_identityIn (rule : KindRule) (x : Entry) :
    x.signature rule = x.identityIn (rule x.element.ns x.element.name).family := by
  unfold signature identityIn
  cases rule x.element.ns x.element.name <;> rfl

/-- Where a rule gives the kinds, nodes are the same when their signatures are. -/
theorem matches_iff_signature (hx : x.element.kind = rule x.element.ns x.element.name) :
    x.matchesEntry y = true ↔ x.signature rule = y.signature rule := by
  rw [matches_iff_identityIn, hx, signature_eq_identityIn, signature_eq_identityIn]
  -- either way the names are the same, and so is the kind that the rule gives
  have hrule : ∀ {f g : Family}, x.identityIn f = y.identityIn g →
      rule x.element.ns x.element.name = rule y.element.ns y.element.name :=
    fun h => congrArg₂ rule (congrArg Identity.ns h) (congrArg Identity.name h)
  refine ⟨fun h => ?_, fun h => ?_⟩
  · rw [h, hrule h]
  · rw [h, hrule h]

/-- Where a rule gives the kinds, nodes that are the same have the same kind. -/
theorem kind_eq_of_matches (hx : x.element.kind = rule x.element.ns x.element.name)
    (hy : y.element.kind = rule y.element.ns y.element.name) (h : x.matchesEntry y = true) :
    x.element.kind = y.element.kind :=
  kind_eq_of_identity_eq hx hy (identity_eq_of_matches hx h)

end Entry

/-! ## Differences that list nothing -/

namespace Branch

variable {a b c : Branch} {as bs : List Branch} {rule : KindRule}

/-- The signature of the top of a branch. -/
def signature (rule : KindRule) (b : Branch) : Identity := b.entry.signature rule

/-- Two partners of which a difference lists nothing. -/
structure InStep (a b : Branch) : Prop where
  /-- They compare as equal. -/
  compare : a.entry.compare b.entry = .equal
  /-- Where the difference goes on below them, it lists nothing there. -/
  below : (a.entry.isComposite || b.entry.isComposite) = true → a.listings b = {}

/-- Nothing is listed of partners when they are in step. -/
theorem listingsOfPair_eq_empty (h : a.entry.matchesEntry b.entry = true) :
    listingsOfPair a b (a.entry.compare b.entry) = {} ↔ a.InStep b := by
  have hsame : a.entry.compare b.entry ≠ .different := bne_iff_ne.1 h
  unfold listingsOfPair
  split
  · next hchanged =>
    refine ⟨fun hnone => ?_, fun hstep => ?_⟩
    · rw [Listings.mk.injEq] at hnone
      cases hnone.2.2.1
    · rw [hstep.compare] at hchanged
      cases hchanged
  · next hne =>
    have hequal : a.entry.compare b.entry = .equal := by
      cases hc : a.entry.compare b.entry with
      | different => exact absurd hc hsame
      | changed => exact absurd hc hne
      | equal => rfl
    split
    · next hcomp =>
      rw [Listings.below_eq_empty]
      exact ⟨fun hnone => ⟨hequal, fun _ => hnone⟩, fun hstep => hstep.below hcomp⟩
    · next hcomp => exact ⟨fun _ => ⟨hequal, fun h => absurd h hcomp⟩, fun _ => rfl⟩

/-- Where all members are the same node, the two lists are paired in order. -/
theorem listingsAll_eq_empty_of_matches
    (h : ∀ a ∈ as, ∀ b ∈ bs, a.entry.matchesEntry b.entry = true) :
    listingsAll as bs = {} ↔ List.Forall₂ InStep as bs := by
  induction as generalizing bs with
  | nil =>
    rw [listingsAll_nil_left, List.forall₂_nil_left_iff, Listings.mk.injEq]
    simp
  | cons a as ih =>
    cases bs with
    | nil =>
      rw [listingsAll_nil_right, Listings.mk.injEq]
      simp
    | cons b bs =>
      have hmatch := h a (by simp) b (by simp)
      have htake : takeFirst (partner? a) (b :: bs) = some (b, a.entry.compare b.entry, bs) := by
        rw [takeFirst, partner?_eq_some.2 ⟨rfl, hmatch⟩]
      rw [listingsAll_cons_of_some htake, Listings.append_eq_empty, listingsOfPair_eq_empty hmatch,
        ih fun x hx y hy => h x (by simp [hx]) y (by simp [hy]), List.forall₂_cons]

/-- Where a rule gives the kinds of the first side, nothing is listed when the nodes of each
signature are in step. -/
theorem listingsAll_eq_empty_iff
    (has : ∀ a ∈ as, a.element.kind = rule a.element.ns a.element.name) :
    listingsAll as bs = {} ↔ ∀ k, List.Forall₂ InStep
      (as.filter fun a => a.signature rule = k) (bs.filter fun b => b.signature rule = k) := by
  have hsame : ∀ a ∈ as, ∀ b : Branch, a.entry.matchesEntry b.entry = true →
      b.signature rule = a.signature rule :=
    fun a ha b hab => ((Entry.matches_iff_signature (has a ha)).1 hab).symm
  have hpart := part_listingsAll_of_matches hsame bs
  have hclass : ∀ k, (listingsAll as bs).part (signature rule) k = {} ↔
      List.Forall₂ InStep (as.filter fun a => a.signature rule = k)
        (bs.filter fun b => b.signature rule = k) := by
    intro k
    rw [hpart, listingsAll_eq_empty_of_matches]
    intro a ha b hb
    obtain ⟨ha, hak⟩ := List.mem_filter.1 ha
    have hbk := (List.mem_filter.1 hb).2
    rw [decide_eq_true_eq] at hak hbk
    exact (Entry.matches_iff_signature (has a ha)).2 (hak.trans hbk.symm)
  refine ⟨fun h k => (hclass k).1 ?_, fun h => ?_⟩
  · rw [h]
    rfl
  · exact Listings.eq_empty_of_part _ fun k => (hclass k).2 (h k)

/-- Of what a difference lists nothing of, both sides have children or none has. -/
theorem isEmpty_eq_of_listings (h : a.listings b = {}) :
    a.children.isEmpty = b.children.isEmpty := by
  rw [listings_eq] at h
  cases ha : a.children with
  | nil =>
    rw [ha, listingsAll_nil_left, Listings.mk.injEq, List.map_eq_nil_iff] at h
    rw [h.2.1]
  | cons x as =>
    cases hb : b.children with
    | nil =>
      rw [ha, hb, listingsAll_nil_right, Listings.mk.injEq] at h
      cases h.1
    | cons => rfl

/-- Of partners in step, both are compared by what is below them or none is. -/
theorem InStep.isComposite_eq (hkind : a.element.kind = b.element.kind) (h : a.InStep b) :
    a.entry.isComposite = b.entry.isComposite := by
  by_contra hne
  have hcomp : (a.entry.isComposite || b.entry.isComposite) = true := by
    cases ha : a.entry.isComposite <;> cases hb : b.entry.isComposite <;> simp_all
  have hempty := isEmpty_eq_of_listings (h.below hcomp)
  exact hne (by simp [Entry.isComposite, entry, hkind, hempty])

/-- Each node of the second side is like one of the first, when nothing is listed. -/
theorem exists_alike_of_listingsAll
    (has : ∀ a ∈ as, a.element.kind = rule a.element.ns a.element.name)
    (h : listingsAll as bs = {}) (hb : b ∈ bs) :
    ∃ a ∈ as, a.element.alike b.element = true := by
  have hb' : b ∈ bs.filter fun y => y.signature rule = b.signature rule :=
    List.mem_filter.2 ⟨hb, by simp⟩
  obtain ⟨a, ha, hab⟩ := exists_left_of_forall₂ ((listingsAll_eq_empty_iff has).1 h _) hb'
  exact ⟨a, List.mem_of_mem_filter ha, alike_of_compare hab.compare⟩

/-! ## The three laws -/

/-- A difference of a branch and a copy of it lists nothing. -/
theorem listings_of_bare (h : a.bare = b.bare) : a.listings b = {} := by
  induction a using induction generalizing b with
  | step id e as ih =>
    have hall : ∀ xs ⊆ as, ∀ ys : List Branch, xs.map bare = ys.map bare →
        listingsAll xs ys = {} := by
      intro xs
      induction xs with
      | nil =>
        intro _ ys hys
        rw [List.map_eq_nil_iff.1 hys.symm, listingsAll_nil_left]
        rfl
      | cons x xs ihxs =>
        intro hsub ys hys
        obtain ⟨y, ys, rfl, hy, hrest⟩ := List.map_eq_cons_iff.1 hys.symm
        have hentry : x.entry = y.entry := by rw [← entry_bare x, ← hy, entry_bare]
        have hequal : x.entry.compare y.entry = .equal := hentry ▸ Entry.compare_refl _
        have hmatch : x.entry.matchesEntry y.entry = true := hentry ▸ Entry.matches_refl _
        have htake : takeFirst (partner? x) (y :: ys) = some (y, .equal, ys) := by
          rw [takeFirst, partner?_eq_some.2 ⟨hequal, hmatch⟩]
        rw [listingsAll_cons_of_some htake, Listings.append_eq_empty, ← hequal,
          listingsOfPair_eq_empty hmatch]
        exact ⟨⟨hequal, fun _ => ih x (hsub (by simp)) hy.symm⟩,
          ihxs (fun z hz => hsub (by simp [hz])) ys hrest.symm⟩
    rw [listings_eq]
    refine hall as (fun _ hx => hx) b.children ?_
    rw [← children_bare b, ← h, children_bare]
    rfl

/-- Nothing is listed the other way round either, between nodes of one kind. -/
theorem listings_symm {s : Schema} (hkind : a.element.kind = b.element.kind)
    (ha : a.Described s) (hb : b.Described s) (h : a.listings b = {}) : b.listings a = {} := by
  induction a using induction generalizing b with
  | step id e as ih =>
    have hruleA : ∀ x ∈ as, x.element.kind = s.rule (some e.kind) x.element.ns x.element.name :=
      (all_iff.1 ha).1
    have hruleB : ∀ y ∈ b.children, y.element.kind =
        s.rule (some e.kind) y.element.ns y.element.name := hkind ▸ (all_iff.1 hb).1
    rw [listings_eq, Branch.children, listingsAll_eq_empty_iff hruleA] at h
    rw [listings_eq, Branch.children, listingsAll_eq_empty_iff hruleB]
    refine fun k => forall₂_symm_of_mem (fun x hx y hy hxy => ?_) (h k)
    have hx : x ∈ as := List.mem_of_mem_filter hx
    have hy := List.mem_of_mem_filter hy
    have hmatch : x.entry.matchesEntry y.entry = true :=
      Entry.matches_of_compare hxy.compare
    have hxykind : x.element.kind = y.element.kind :=
      Entry.kind_eq_of_matches (x := x.entry) (y := y.entry) (hruleA x hx) (hruleB y hy) hmatch
    have hdescribed : x.Described s := (all_iff.1 ha).2 x hx
    refine ⟨Entry.compare_symm hxykind hxy.compare fun hcontainer n hn => ?_, fun hcomp => ?_⟩
    · -- the comparison counts the children of `x` only, but none of `y` is without partner
      obtain ⟨v, hv, rfl⟩ := List.mem_map.1 hn
      have hcomp : (x.entry.isComposite || y.entry.isComposite) = true := by
        rw [Bool.or_eq_true, Entry.isComposite, Bool.or_eq_true]
        exact .inl (.inl hcontainer)
      have hbelow := hxy.below hcomp
      rw [listings_eq] at hbelow
      obtain ⟨u, hu, huv⟩ := exists_alike_of_listingsAll (all_iff.1 hdescribed).1 hbelow hv
      exact ⟨u.element, List.mem_map_of_mem hu, huv⟩
    · exact ih x hx hxykind hdescribed ((all_iff.1 hb).2 y hy)
        (hxy.below (by rwa [Bool.or_comm] at hcomp))

/-- Between nodes of one kind nothing is listed when nothing is listed through a third one. -/
theorem listings_trans {s : Schema} (hkind : a.element.kind = b.element.kind)
    (hkind' : b.element.kind = c.element.kind) (ha : a.Described s) (hb : b.Described s)
    (hc : c.Described s) (h : a.listings b = {}) (h' : b.listings c = {}) :
    a.listings c = {} := by
  induction a using induction generalizing b c with
  | step id e as ih =>
    have hruleA : ∀ x ∈ as, x.element.kind = s.rule (some e.kind) x.element.ns x.element.name :=
      (all_iff.1 ha).1
    have hruleB : ∀ y ∈ b.children, y.element.kind =
        s.rule (some e.kind) y.element.ns y.element.name := hkind ▸ (all_iff.1 hb).1
    have hruleC : ∀ z ∈ c.children, z.element.kind =
        s.rule (some e.kind) z.element.ns z.element.name :=
      (hkind.trans hkind') ▸ (all_iff.1 hc).1
    rw [listings_eq, Branch.children, listingsAll_eq_empty_iff hruleA] at h
    rw [listings_eq, listingsAll_eq_empty_iff hruleB] at h'
    rw [listings_eq, Branch.children, listingsAll_eq_empty_iff hruleA]
    refine fun k => forall₂_trans_of_mem (fun x hx y hy z hz hxy hyz => ?_) (h k) (h' k)
    have hx : x ∈ as := List.mem_of_mem_filter hx
    have hy := List.mem_of_mem_filter hy
    have hz := List.mem_of_mem_filter hz
    have hxykind : x.element.kind = y.element.kind :=
      Entry.kind_eq_of_matches (x := x.entry) (y := y.entry) (hruleA x hx) (hruleB y hy)
        (Entry.matches_of_compare hxy.compare)
    have hyzkind : y.element.kind = z.element.kind :=
      Entry.kind_eq_of_matches (x := y.entry) (y := z.entry) (hruleB y hy) (hruleC z hz)
        (Entry.matches_of_compare hyz.compare)
    refine ⟨Entry.compare_trans (x := x.entry) (y := y.entry) hxykind hxy.compare hyz.compare,
      fun hcomp => ?_⟩
    -- all three are compared by what is below them, since the two outer ones are
    have hxyc := hxy.isComposite_eq hxykind
    have hyzc := hyz.isComposite_eq hyzkind
    rw [← hyzc, ← hxyc, Bool.or_self] at hcomp
    exact ih x hx hxykind hyzkind ((all_iff.1 ha).2 x hx) ((all_iff.1 hb).2 y hy)
      ((all_iff.1 hc).2 z hz) (hxy.below (by rw [hcomp]; rfl))
      (hyz.below (by rw [← hxyc, hcomp]; rfl))

end Branch

/-! ## Lists of users -/

/-- The schema of a list of users, which their names are to tell apart. -/
def userSchema : Schema :=
  (({} : Schema).register ⟨"urn:u", "users", .container { children := ["user"] }⟩).register
    ⟨"urn:u", "user", .container { keys := ["name"], children := ["name", "group"] }⟩

/-- A node of a list of users, of the kind that the schema gives. -/
def userElement (name : String) (value : Option Value) (parent : Option Kind) : Element :=
  { ns := some "urn:u", name, value, kind := userSchema.kindOf (some "urn:u") name parent }

/-- A user with a name and some groups. -/
def user (name : String) (groups : List String) : Branch :=
  let e := userElement "user" none none
  .mk 0 e (.mk 0 (userElement "name" (some (.text name)) (some e.kind)) [] ::
    groups.map fun g => .mk 0 (userElement "group" (some (.text g)) (some e.kind)) [])

/-- A document with a list of users. -/
def userList (users : List Branch) : Document :=
  ⟨((Tree.empty {}).addCopy (.mk 0 (userElement "users" none none) users)).1, 0⟩

/-! ## Agreement of documents -/

open Branch Netconf.Tree

namespace Tree

variable {ta tb : Tree} {a b : NodeId}

/-- Comparing nodes is comparing the tops of their branches. -/
theorem Forest.compare_eq (ha : ta.Forest) (hb : tb.Forest) (x y : Nat) :
    ta.compare x tb y = (ta.branch x).entry.compare (tb.branch y).entry := by
  rw [ha.entry_branch, hb.entry_branch, Tree.compare]

/-- Two nodes agree when they are the same node and a difference lists nothing below them. -/
theorem agree_iff : ta.agree a tb b = true ↔
    (ta.branch a).entry.matchesEntry (tb.branch b).entry = true ∧
      (ta.branch a).listings (tb.branch b) = {} := by
  unfold agree Tree.diff
  by_cases hmatch : (ta.branch a).entry.matchesEntry (tb.branch b).entry = true
  · rw [diff_eq_slots hmatch, Listings.isEmpty_slots]
    exact ⟨fun h => ⟨hmatch, h⟩, fun h => h.2⟩
  · have hdifferent : (ta.branch a).entry.compare (tb.branch b).entry = .different := by
      simpa [Entry.matchesEntry] using hmatch
    rw [diff_of_different hdifferent]
    exact ⟨fun h => by simp [Difference.isEmpty] at h, fun h => absurd h.1 hmatch⟩

/-- What a branch has at its top is what its node carries. -/
theorem element_branch (t : Tree) (id : NodeId) : (t.branch id).element = t.element id := by
  unfold branch
  cases t.size <;> rfl

/-- Soundness of the computed agreement: nodes that agree have the same namespaces, names and
values, up to the order of siblings. No kind or schema is asked for, only that leaves have no
children and that the first node is no leaf. -/
theorem agrees_of_agree (hkind : ta.kind a ≠ .leaf)
    (ha : ∀ c ∈ (ta.branch a).children, c.ChildlessLeaves)
    (hb : ∀ c ∈ (tb.branch b).children, c.ChildlessLeaves) (h : ta.agree a tb b = true) :
    (ta.branch a).Agrees (tb.branch b) := by
  obtain ⟨hmatch, hnone⟩ := agree_iff.1 h
  rw [listings_eq] at hnone
  have hleaf : (ta.branch a).entry.element.kind ≠ .leaf := by
    rw [Branch.entry, element_branch]
    exact hkind
  exact agrees_iff.2 ⟨Entry.alike_of_matches hleaf hmatch, agreesAll_of_listingsAll ha hb hnone⟩

/-- Two lists of users in which a name is there twice, with the users in another order. -/
theorem agrees_of_agree_userLists :
    let d := userList [user "ann" ["dev", "ops"], user "ann" ["web"], user "bob" []]
    let e := userList [user "bob" [], user "ann" ["dev", "ops"], user "ann" ["web"]]
    d.tree.agree d.root e.tree e.root = true ∧
      (d.tree.branch d.root).Agrees (e.tree.branch e.root) := by
  intro d e
  have h : d.tree.agree d.root e.tree e.root = true := by decide +kernel
  exact ⟨h, agrees_of_agree (by decide +kernel) (by decide +kernel) (by decide +kernel) h⟩

end Tree

/-- The nodes of a document have the kinds that a schema gives them; `above` is the kind of the node
that the root stands below, if there is one. -/
@[mk_iff]
structure Document.Kinded (s : Schema) (above : Option Kind) (d : Document) : Prop where
  /-- The root has its kind. -/
  root : (d.tree.element d.root).kind =
    s.kindOf (d.tree.element d.root).ns (d.tree.element d.root).name above
  /-- So has everything below it. -/
  below : (d.tree.branch d.root).Described s

instance (s : Schema) (above : Option Kind) (d : Document) : Decidable (d.Kinded s above) :=
  decidable_of_iff _ (Document.kinded_iff s above d).symm

/-- Do two documents agree? -/
def Document.agree (d e : Document) : Bool := d.tree.agree d.root e.tree e.root

namespace Document

variable {s : Schema} {above : Option Kind} {d e f : Document}

/-- The root has the kind that the rule for roots gives it. -/
theorem Kinded.rule_root (hd : d.Kinded s above) :
    (d.tree.branch d.root).entry.element.kind = s.rule above
      (d.tree.branch d.root).entry.element.ns (d.tree.branch d.root).entry.element.name := by
  rw [Branch.entry, Tree.element_branch]
  exact hd.root

/-- Roots that are the same node have the same kind. -/
theorem Kinded.kind_eq (hd : d.Kinded s above) (he : e.Kinded s above)
    (h : (d.tree.branch d.root).entry.matchesEntry (e.tree.branch e.root).entry = true) :
    (d.tree.branch d.root).element.kind = (e.tree.branch e.root).element.kind :=
  Entry.kind_eq_of_matches hd.rule_root he.rule_root h

/-- A document agrees with every document that has the same branch, whatever its slots are. -/
theorem agree_of_bare (h : (d.tree.branch d.root).bare = (e.tree.branch e.root).bare) :
    d.agree e = true := by
  have hentry : (d.tree.branch d.root).entry = (e.tree.branch e.root).entry := by
    rw [← entry_bare, h, entry_bare]
  exact Tree.agree_iff.2 ⟨hentry ▸ Entry.matches_refl _, listings_of_bare h⟩

/-- A document agrees with a copy of it in any tree. -/
theorem agree_addCopy {t : Tree} (ht : t.Forest) :
    d.agree ⟨(t.addCopy (d.tree.branch d.root)).1, (t.addCopy (d.tree.branch d.root)).2⟩ = true :=
  agree_of_bare (ht.bare_branch_addCopy _).symm

/-- A document agrees with a copy of it in its own tree, after the copy was made. -/
theorem agree_copy (hd : d.tree.Forest) (hroot : d.root < d.tree.size) :
    (d.tree.copy d.root).1.agree d.root (d.tree.copy d.root).1 (d.tree.copy d.root).2 = true := by
  have hsame : (d.tree.copy d.root).1.branch d.root = d.tree.branch d.root :=
    (hd.keeps_addCopy _).branch hd hroot
  refine agree_of_bare (d := ⟨(d.tree.copy d.root).1, d.root⟩)
    (e := ⟨(d.tree.copy d.root).1, (d.tree.copy d.root).2⟩) ?_
  rw [hsame]
  exact (hd.bare_branch_addCopy _).symm

/-- Documents that agree do so the other way round. -/
theorem agree_symm (hd : d.Kinded s above) (he : e.Kinded s above) (h : d.agree e = true) :
    e.agree d = true := by
  obtain ⟨hmatch, hnone⟩ := Tree.agree_iff.1 h
  have hkind := hd.kind_eq he hmatch
  exact Tree.agree_iff.2 ⟨Entry.matches_symm hkind hmatch,
    listings_symm hkind hd.below he.below hnone⟩

/-- Documents agree through a third one. -/
theorem agree_trans (hd : d.Kinded s above) (he : e.Kinded s above) (hf : f.Kinded s above)
    (h : d.agree e = true) (h' : e.agree f = true) : d.agree f = true := by
  obtain ⟨hmatch, hnone⟩ := Tree.agree_iff.1 h
  obtain ⟨hmatch', hnone'⟩ := Tree.agree_iff.1 h'
  have hsig := (Entry.matches_iff_signature hd.rule_root).1 hmatch
  have hsig' := (Entry.matches_iff_signature he.rule_root).1 hmatch'
  exact Tree.agree_iff.2 ⟨(Entry.matches_iff_signature hd.rule_root).2 (hsig.trans hsig'),
    listings_trans (hd.kind_eq he hmatch) (he.kind_eq hf hmatch') hd.below he.below hf.below hnone
      hnone'⟩

/-- The computed agreement is an equivalence relation among the documents of one schema: a document
agrees with its copies, in its own tree and in others, and agreement goes both ways and passes on.
Siblings may be repeated, and nodes may be of any kind. -/
theorem agree_equivalence (s : Schema) (above : Option Kind) :
    (∀ d : Document, d.tree.Forest → d.root < d.tree.size →
      (d.tree.copy d.root).1.agree d.root (d.tree.copy d.root).1 (d.tree.copy d.root).2 = true ∧
      ∀ t : Tree, t.Forest →
        d.agree ⟨(t.addCopy (d.tree.branch d.root)).1, (t.addCopy (d.tree.branch d.root)).2⟩ =
          true) ∧
    (∀ d e : Document, d.Kinded s above → e.Kinded s above → d.agree e = e.agree d) ∧
    ∀ d e f : Document, d.Kinded s above → e.Kinded s above → f.Kinded s above →
      d.agree e = true → e.agree f = true → d.agree f = true := by
  refine ⟨fun d hd hroot => ⟨agree_copy hd hroot, fun t ht => agree_addCopy ht⟩,
    fun d e hd he => ?_, fun d e f hd he hf => agree_trans hd he hf⟩
  rw [Bool.eq_iff_iff]
  exact ⟨agree_symm hd he, agree_symm he hd⟩

/-- Three lists in which two users share a name: agreement passes on and goes both ways. -/
theorem agree_equivalence_userLists :
    let a := userList [user "ann" ["dev", "ops"], user "ann" ["web"], user "bob" []]
    let b := userList [user "bob" [], user "ann" ["dev", "ops"], user "ann" ["web"]]
    let c := userList [user "ann" ["dev", "ops"], user "bob" [], user "ann" ["web"]]
    (a.tree.copy a.root).1.agree a.root (a.tree.copy a.root).1 (a.tree.copy a.root).2 = true ∧
      a.agree ⟨(b.tree.addCopy (a.tree.branch a.root)).1,
        (b.tree.addCopy (a.tree.branch a.root)).2⟩ = true ∧
      a.agree b = b.agree a ∧ a.agree b = true ∧ b.agree c = true ∧ a.agree c = true := by
  intro a b c
  have hforest : ∀ users, (userList users).tree.Forest := fun _ => (forest_empty _).addCopy _
  have ha : a.Kinded userSchema none := by decide +kernel
  have hb : b.Kinded userSchema none := by decide +kernel
  have hc : c.Kinded userSchema none := by decide +kernel
  have hab : a.agree b = true := by decide +kernel
  have hbc : b.agree c = true := by decide +kernel
  obtain ⟨hcopies, hsymm, htrans⟩ := agree_equivalence userSchema none
  obtain ⟨hown, hother⟩ := hcopies a (hforest _) (by decide +kernel)
  exact ⟨hown, hother b.tree (hforest _), hsymm a b ha hb, hab, hbc,
    htrans a b c ha hb hc hab hbc⟩

end Document

end Netconf
