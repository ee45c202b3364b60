import Netconf.Proofs.Edit.Merging
import Netconf.Xml.Reading

/-!
# Merging edits without a data model

Where no data model describes a configuration, a node counts as a container when it has children,
and a merging edit treats two nodes of one name differently when only one of them has some. Applying
the edit may then delete what it has just merged. `Branch.mergesSafely` says where this does not
happen, and `mergingEdit_agrees_iff` that these are all the documents that the edit brings to agree.

The edit is followed class by class as where a data model exists. A class of siblings is a name,
with at most one member on each side (`Edit.Melts.of_pair`).
-/

namespace Netconf

open Branch Edit

/-! ## Configurations that merging keeps -/

namespace Branch

mutual

/-- Does every node below the second branch survive when it is merged into the first one? It must
not take the place of a node of its name that is a container only on one side: a node without
children loses to one with children, and a node with children loses to one without that has the
same value. -/
def mergesSafely : Branch → Branch → Bool
  | .mk _ _ as, b => mergesSafelyAll as b.children

/-- Does every one of several nodes, and what is below it, survive being merged into others? -/
def mergesSafelyAll : List Branch → List Branch → Bool
  | [], _ => true
  | a :: as, bs =>
    (bs.all fun b => !a.element.sameName b.element ||
      if a.children.isEmpty then b.children.isEmpty || !a.element.alike b.element
      else !b.children.isEmpty && (!a.element.alike b.element || a.mergesSafely b))
      && mergesSafelyAll as bs

end

variable {a b x y : Branch}

/-- Does a node, and what is below it, survive being merged into one of its name? -/
def spares (x y : Branch) : Bool :=
  if x.children.isEmpty then y.children.isEmpty || !x.element.alike y.element
  else !y.children.isEmpty && (!x.element.alike y.element || x.mergesSafely y)

/-- Branches merge safely when all pairs of children of one name do. -/
theorem mergesSafely_iff : a.mergesSafely b = true ↔
    ∀ x ∈ a.children, ∀ y ∈ b.children, x.element.sameName y.element = true →
      x.spares y = true := by
  obtain ⟨id, e, as⟩ := a
  rw [mergesSafely, children]
  induction as with
  | nil => simp [mergesSafelyAll]
  | cons a as ih =>
    rw [mergesSafelyAll, Bool.and_eq_true, ih, List.forall_mem_cons]
    refine and_congr ?_ Iff.rfl
    rw [List.all_eq_true]
    refine forall₂_congr fun b _ => ?_
    rw [Bool.or_eq_true, Bool.not_eq_true', ← Bool.not_eq_true, ← imp_iff_not_or]
    rfl

/-- The numbers of slots do not matter on the second side. -/
theorem mergesSafely_bare (a b : Branch) : a.mergesSafely b.bare = a.mergesSafely b := by
  induction a using induction generalizing b with
  | step id e as ih =>
    have hspares : ∀ x ∈ as, ∀ y, x.spares y.bare = x.spares y := by
      intro x hx y
      unfold spares
      rw [ih x hx y, element_bare, children_bare, List.isEmpty_map]
    rw [Bool.eq_iff_iff, mergesSafely_iff, mergesSafely_iff, children, children_bare]
    refine forall₂_congr fun x hx => ?_
    rw [List.forall_mem_map]
    refine forall₂_congr fun y _ => ?_
    rw [element_bare, hspares x hx]

end Branch

namespace Edit

variable {k : Identity} {a b x y z : Branch} {e : Element} {isKept : Branch → Bool}
  {as bs es ts zs : List Branch}

/-! ## Nodes without a data model -/

/-- Without a data model all kinds are plain. -/
def plainRule : KindRule := fun _ _ => .plain

/-- The empty data model gives the children of a plain node the plain kind. -/
theorem rule_empty : ({} : Schema).rule (some .plain) = plainRule := by
  funext ns name
  cases ns <;> rfl

/-- A plain node has no keys. -/
theorem hasKey_of_plain (h : e.kind = .plain) (name : String) : e.hasKey name = false := by
  unfold Element.hasKey
  rw [h]
  rfl

/-- Without a data model no child is kept as a key. -/
theorem keepsKey_of_plain (h : a.element.kind = .plain) (b c : Branch) :
    b.keepsKey a c = false := by
  unfold keepsKey
  rw [h]
  rfl

/-- Nodes with children correspond when they are alike, and nodes without when they have one
name. -/
theorem corresponds_of_plain (hy : y.element.kind = .plain) (hx : x.element.kind = .plain) :
    y.corresponds x =
      if y.children.isEmpty then x.children.isEmpty && x.element.sameName y.element
      else !x.children.isEmpty && x.element.alike y.element := by
  unfold corresponds
  rw [isComposite_of_plain hx, isComposite_of_plain hy, hy]
  cases y.children.isEmpty <;> simp [Kind.keys, Kind.schema?, Entry.sameKeys]

/-- The counterpart of an edit node with children is like it, and that of one without has its
name. -/
theorem isCounterpart_of_plain (hy : y.element.kind = .plain) (c : Branch) :
    isCounterpart y c.entry =
      if y.children.isEmpty then y.element.sameName c.element
      else y.element.alike c.element := by
  unfold isCounterpart
  rw [isComposite_of_plain hy]
  cases hys : y.children.isEmpty with
  | true => rfl
  | false => exact Bool.eq_iff_iff.2 (Entry.matches_iff_of_plain (x := y.entry) hy)

/-- Nodes of one name are in one class. -/
theorem identity_eq_of_name (h : x.element.sameName y.element = true) :
    x.identity plainRule = y.identity plainRule :=
  Entry.identity_eq_of_sameName (x := x.entry) (y := y.entry) h rfl

/-- A node that is left of the first side is deleted. -/
theorem leftCopies_of_plain (he : e.kind = .plain) (hx : x.element.kind = .plain) :
    leftCopies e x = [(copyFor .delete x).bare] := by
  unfold leftCopies leftOver
  rw [hasKey_of_plain he, isComposite_of_plain hx]
  cases hxs : x.children.isEmpty with
  | false => rfl
  | true =>
    have hself : x.keysOnly = x := by
      obtain ⟨id, e, bs⟩ := x
      obtain rfl : bs = [] := List.isEmpty_iff.1 hxs
      rfl
    show [(marked .delete x).bare] = [(marked .delete x.keysOnly).bare]
    rw [hself]

/-- What is to be deleted is found by its name. -/
theorem isCounterpart_deletion (hx : x.element.kind = .plain) (c : Branch) :
    isCounterpart (copyFor .delete x).bare c.entry = x.element.sameName c.element := by
  have hkind : (copyFor .delete x).element.kind = .plain := by
    rw [element_copyFor, kind_mark, hx]
  have hnone : (copyFor .delete x).children = [] := by
    unfold copyFor marked
    rw [if_pos rfl, children, children_keysOnly]
    exact List.filter_eq_nil_iff.2 fun c _ => by simp [hasKey_of_plain hx]
  rw [isCounterpart_bare, isCounterpart_of_plain hkind, hnone, element_copyFor, Element.mark_eq]
  rfl

/-! ## What the edit holds -/

/-- Where nothing is left of the first side, the second one is taken over. -/
theorem mergedAll_of_nil (h : ∀ b ∈ bs, isKept b = false) :
    mergedAll isKept e bs [] = bs.map bare := by
  induction bs with
  | nil => rw [mergedAll_nil]; rfl
  | cons b bs ih =>
    obtain ⟨hb, hbs⟩ := List.forall_mem_cons.1 h
    rw [mergedAll_cons_of_none hb rfl, ih hbs, List.map_cons]

/-- The edit holds nothing when the plan counts no difference. -/
theorem mergedAll_eq_nil_iff (id : NodeId) (h : ∀ b ∈ bs, isKept b = false) :
    mergedAll isKept e bs as = [] ↔ (mergePlanAll isKept id e bs as).count = 0 := by
  induction bs generalizing as with
  | nil =>
    rw [mergedAll_nil, mergePlanAll, count_leftOvers, List.flatMap_eq_nil_iff]
    refine forall₂_congr fun a _ => ?_
    rw [← length_leftCopies e id a, List.length_eq_zero_iff]
  | cons b bs ih =>
    obtain ⟨hb, hbs⟩ := List.forall_mem_cons.1 h
    rcases correspondent_cases b as with ⟨hnone, -⟩ | ⟨pre, a, post, -, hsome, -, -⟩
    · rw [mergedAll_cons_of_none hb hnone, mergePlanAll_cons_of_none hb hnone, count_append]
      constructor
      · exact fun hnil => absurd hnil (List.cons_ne_nil _ _)
      · exact fun hzero => absurd (Nat.add_eq_zero_iff.1 hzero).1 (by decide)
    · rw [mergedAll_cons_of_some hb hsome, mergePlanAll_cons_of_some hb hsome, count_append,
        Nat.add_eq_zero_iff, List.append_eq_nil_iff, ih hbs]
      refine and_congr ?_ Iff.rfl
      unfold mergedPair planPair
      split
      · split
        · next hcount => simp [count_append, hcount]
        · next hcount => simp [hcount]
      · split <;> simp

/-- What a merging edit does to the members of a class: it turns them into the member of the second
side just when this is safe, and where it holds nothing it is safe. -/
structure Melts (k : Identity) (es ts bs : List Branch) (safe : Prop) : Prop where
  /-- The edit nodes are plain. -/
  kinds : ∀ c ∈ es, c.element.kind = .plain
  /-- They can be applied. -/
  run : ∃ zs, RunWithin (Step .merge) (fun d => d.identity plainRule = k) es ts zs ∧
    (AgreesAll zs bs ↔ safe)
  /-- Without edit nodes the class is safe. -/
  idle : es = [] → safe

/-- What a merging edit does to the children of a node, all classes together. -/
structure MeltsBelow (a b : Branch) : Prop where
  /-- The edit nodes can be applied, and make the children agree just when this is safe. -/
  run : ∃ zs, Steps .merge (mergedAll (b.keepsKey a) a.element b.children a.children)
    (a.children.map bare) zs ∧ (AgreesAll zs b.children ↔ a.mergesSafely b = true)
  /-- Without edit nodes it is safe. -/
  idle : mergedAll (b.keepsKey a) a.element b.children a.children = [] → a.mergesSafely b = true

/-! ## A class with a member on each side -/

/-- A node that is not found on the first side is added, and then the other of its name is
deleted. -/
theorem runWithin_swap (hx : x.element.kind = .plain) (hu : y.Unmarked)
    (hname : x.element.sameName y.element = true) (hxk : x.identity plainRule = k)
    (hnone : isCounterpart y x.entry = false) :
    RunWithin (Step .merge) (fun d => d.identity plainRule = k)
      [y.bare, (copyFor .delete x).bare] [x.bare] [y.bare] := by
  have hyk : y.identity plainRule = k := (identity_eq_of_name hname).symm.trans hxk
  have hadd : Step .merge y.bare [x.bare] ([x.bare] ++ [y.bare.unmarked]) := by
    refine .add ?_ fun d hd => ?_
    · rw [element_bare, operationOf_unmarked (all_iff.1 hu).1]
      decide
    · rw [List.mem_singleton.1 hd, isCounterpart_bare, entry_bare]
      exact hnone
  rw [unmarked_bare hu] at hadd
  -- the deletion finds the first node of the name, which is that of the first side
  have hdelete : Step .merge (copyFor .delete x).bare ([] ++ x.bare :: [y.bare]) ([] ++ [y.bare]) :=
    .delete (operationOf_copyFor _ _ _)
      (by rw [isCounterpart_deletion hx, element_bare]; exact Element.sameName_iff.2 ⟨rfl, rfl⟩)
      (fun _ hd => nomatch hd)
  exact .cons hadd (by simp [hxk, hyk]) (.cons hdelete (by simpa using hyk) .nil)

/-- A node that is merged into one of its name goes when that is deleted. -/
theorem runWithin_loss (hx : x.element.kind = .plain) (hxk : x.identity plainRule = k)
    (hstep : Step .merge y.bare [x.bare] [z]) (hname : x.element.sameName z.element = true) :
    RunWithin (Step .merge) (fun d => d.identity plainRule = k)
      [y.bare, (copyFor .delete x).bare] [x.bare] [] := by
  have hzk : z.identity plainRule = k := (identity_eq_of_name hname).symm.trans hxk
  have hdelete : Step .merge (copyFor .delete x).bare [z] [] :=
    .delete_only (operationOf_copyFor _ _ _) (by rw [isCounterpart_deletion hx, hname])
  exact .cons hstep (by simpa using hzk) (.cons hdelete (by simp) .nil)

/-- The edit nodes below a node with its counterpart lead where they lead below it. -/
theorem Step.descend_plain (hx : x.element.kind = .plain) (hy : y.element.kind = .plain)
    (hu : y.Unmarked) (halike : x.element.alike y.element = true) (hes : es ≠ [])
    (hsteps : Steps .merge es (x.children.map bare) zs) :
    Step .merge (.mk 0 y.element es) [x.bare] [.mk 0 x.element zs] := by
  have hcomposite : (Branch.mk 0 y.element es).entry.isComposite = true := by
    rw [isComposite_of_plain (b := .mk 0 y.element es) hy, children]
    simpa using hes
  have hcounterpart : isCounterpart (.mk 0 y.element es) x.bare.entry = true := by
    rw [entry_bare, isCounterpart_of_plain (y := .mk 0 y.element es) hy, children,
      if_neg (by simpa using hes), Branch.element, Element.alike_comm]
    exact halike
  have hdown := Step.descend_only (b := .mk 0 y.element es) (c := x.bare) (o := .merge)
    (operationOf_unmarked (all_iff.1 hu).1 _) hcomposite hcounterpart
    (by rw [children_bare]; exact hsteps)
  rw [element_bare] at hdown
  have hid : x.bare.id = 0 := by cases x; rfl
  rwa [hid] at hdown

/-- The two edit nodes for a class whose members do not correspond are plain. -/
theorem plain_pair (hx : x.element.kind = .plain) (hy : y.element.kind = .plain) :
    ∀ c ∈ [y.bare, (copyFor .delete x).bare], c.element.kind = .plain := by
  simp [hx, hy]

/-- A node that is not found on the first side takes the place of the one of its name. -/
theorem Melts.of_swap (hx : x.element.kind = .plain) (hy : y.element.kind = .plain)
    (hu : y.Unmarked) (hname : x.element.sameName y.element = true)
    (hxk : x.identity plainRule = k) (hnone : isCounterpart y x.entry = false) {safe : Prop}
    (hsafe : safe) : Melts k [y.bare, (copyFor .delete x).bare] [x.bare] [y] safe where
  kinds := plain_pair hx hy
  run := ⟨_, runWithin_swap hx hu hname hxk hnone,
    iff_of_true (agreesAll_bare (agrees_refl y)) hsafe⟩
  idle := fun hnil => absurd hnil (List.cons_ne_nil _ _)

/-- A node that is merged into one that is then deleted is lost. -/
theorem Melts.of_loss (hx : x.element.kind = .plain) (hy : y.element.kind = .plain)
    (hxk : x.identity plainRule = k) (hstep : Step .merge y.bare [x.bare] [z])
    (hname : x.element.sameName z.element = true) {safe : Prop} (hsafe : ¬ safe) :
    Melts k [y.bare, (copyFor .delete x).bare] [x.bare] [y] safe where
  kinds := plain_pair hx hy
  run := ⟨_, runWithin_loss hx hxk hstep hname,
    iff_of_false (fun h => nomatch h.length_eq) hsafe⟩
  idle := fun hnil => absurd hnil (List.cons_ne_nil _ _)

/-- Two nodes without children: the second one's value is taken over where it is another. -/
theorem Melts.of_leaves (hx : x.element.kind = .plain) (hy : y.element.kind = .plain)
    (hu : y.Unmarked) (hname : x.element.sameName y.element = true)
    (hxk : x.identity plainRule = k) (hxs : x.children = []) (hys : y.children = []) {safe : Prop}
    (hsafe : safe) : Melts k (mergedPair y x) [x.bare] [y] safe := by
  have hpair : mergedPair y x = if x.element.alike y.element then [] else [y.bare] := by
    unfold mergedPair
    rw [isComposite_of_plain hx, isComposite_of_plain hy, hxs, hys]
    rfl
  rw [hpair]
  by_cases halike : x.element.alike y.element = true
  · rw [if_pos halike]
    have hagrees : x.Agrees y := agrees_iff.2 ⟨halike, by rw [hxs, hys]; rfl⟩
    exact ⟨fun _ hc => (nomatch hc), ⟨_, .nil, iff_of_true (agreesAll_bare hagrees) hsafe⟩,
      fun _ => hsafe⟩
  · rw [if_neg halike]
    obtain ⟨hsame, hns⟩ := Element.sameName_iff.1 hname
    have hturns : Turns {} plainRule k [y.bare] [x.bare] [y] := turns_take hx hxk
      (by rw [hx]; rfl) hxs hys (Element.sameName_iff.2 ⟨hsame.symm, hns.symm⟩)
      (Element.alike_refl _) (hy.trans hx.symm) hys (all_iff.1 hu).1
    obtain ⟨hkinds, zs, hrun, hagree, -⟩ := hturns
    exact ⟨hkinds, ⟨zs, hrun, iff_of_true hagree hsafe⟩,
      fun hnil => absurd hnil (List.cons_ne_nil _ _)⟩

/-- Two nodes with children that are alike: what is below them decides. -/
theorem Melts.of_containers (hx : x.element.kind = .plain) (hy : y.element.kind = .plain)
    (hu : y.Unmarked) (halike : x.element.alike y.element = true)
    (hxk : x.identity plainRule = k) (hxs : x.children ≠ []) (h : MeltsBelow x y) :
    Melts k (mergedPair y x) [x.bare] [y] (x.mergesSafely y = true) := by
  obtain ⟨⟨zs, hsteps, hagree⟩, hidle⟩ := h
  have hnil : mergedAll (y.keepsKey x) x.element y.children x.children = [] ↔
      (y.mergePlan x).count = 0 := by
    rw [mergePlan_eq]
    exact mergedAll_eq_nil_iff y.id fun c _ => keepsKey_of_plain hx y c
  have hpair : mergedPair y x = if (y.mergePlan x).count = 0 then [] else [y.merged x] := by
    unfold mergedPair
    rw [isComposite_of_plain hx, if_pos (by simpa using .inl hxs)]
  rw [hpair]
  by_cases hcount : (y.mergePlan x).count = 0
  · -- the edit holds nothing below, so the children agree as they are
    rw [if_pos hcount]
    have hsafe := hidle (hnil.2 hcount)
    rw [hnil.2 hcount] at hsteps
    cases hsteps
    have hagrees : x.bare.Agrees y :=
      agrees_iff.2 ⟨by rw [element_bare, halike], by rw [children_bare]; exact hagree.2 hsafe⟩
    exact ⟨fun _ hc => (nomatch hc), ⟨_, .nil, iff_of_true (agreesAll_singleton hagrees) hsafe⟩,
      fun _ => hsafe⟩
  · rw [if_neg hcount, merged_eq]
    have hstep := Step.descend_plain hx hy hu halike (fun he => hcount (hnil.1 he)) hsteps
    have hzk : (Branch.mk 0 x.element zs).identity plainRule = k :=
      (identity_eq_of_name (x := .mk 0 x.element zs) (y := x)
        (Element.sameName_iff.2 ⟨rfl, rfl⟩)).trans hxk
    refine ⟨fun c hc => by rw [List.mem_singleton.1 hc]; exact hy,
      ⟨_, .cons hstep (by simpa using hzk) .nil, ?_⟩, fun he => absurd he (List.cons_ne_nil _ _)⟩
    rw [agreesAll_singleton_iff, agrees_iff, Branch.element, Branch.children, halike, hagree]
    simp

/-- Children are merged into a node without any, which is then deleted. -/
theorem Melts.of_filled (hx : x.element.kind = .plain) (hy : y.element.kind = .plain)
    (hu : y.Unmarked) (halike : x.element.alike y.element = true)
    (hxk : x.identity plainRule = k) (hxs : x.children = []) (hys : y.children ≠ [])
    (hinner : MeltsBelow x y) {safe : Prop} (hsafe : ¬ safe) :
    Melts k [y.bare, (copyFor .delete x).bare] [x.bare] [y] safe := by
  obtain ⟨⟨zs, hsteps, -⟩, -⟩ := hinner
  have hall : mergedAll (y.keepsKey x) x.element y.children x.children = y.children.map bare := by
    rw [hxs]
    exact mergedAll_of_nil fun c _ => keepsKey_of_plain hx y c
  rw [hall] at hsteps
  have hstep := Step.descend_plain hx hy hu halike (by simpa using hys) hsteps
  have hbare : Branch.mk 0 y.element (y.children.map bare) = y.bare := by
    cases y
    rw [bare_mk]
    rfl
  rw [hbare] at hstep
  exact .of_loss hx hy hxk hstep (Element.sameName_iff.2 ⟨rfl, rfl⟩) hsafe

/-- A value is merged into a node with children, which is then deleted. -/
theorem Melts.of_emptied (hx : x.element.kind = .plain) (hy : y.element.kind = .plain)
    (hu : y.Unmarked) (hname : y.element.sameName x.element = true)
    (hxk : x.identity plainRule = k) (hys : y.children = []) {safe : Prop} (hsafe : ¬ safe) :
    Melts k [y.bare, (copyFor .delete x).bare] [x.bare] [y] safe := by
  have hstep := Step.take_only (b := y.bare) (c := x.bare) (o := .merge)
    (by rw [element_bare, operationOf_unmarked (all_iff.1 hu).1])
    (by rw [entry_bare, isComposite_of_plain hy, hys]; rfl)
    (by rw [isCounterpart_bare, entry_bare, isCounterpart_of_plain hy, hys]; exact hname)
  exact .of_loss hx hy hxk hstep
    (by rw [Branch.element, element_bare]; exact Element.sameName_iff.2 ⟨rfl, rfl⟩) hsafe

/-- A class with a member on each side. -/
theorem Melts.of_pair (he : e.kind = .plain) (hkept : isKept y = false)
    (hx : x.element.kind = .plain) (hy : y.element.kind = .plain) (hu : y.Unmarked)
    (hxk : x.identity plainRule = k) (hyk : y.identity plainRule = k)
    (hinner : x.element.alike y.element = true → MeltsBelow x y) :
    Melts k (mergedAll isKept e [y] [x]) [x.bare] [y] (x.spares y = true) := by
  have hname : x.element.sameName y.element = true :=
    Entry.sameName_of_identity_eq (x := x.entry) (y := y.entry) (hxk.trans hyk.symm)
  have hback : y.element.sameName x.element = true := by
    rw [Element.sameName_iff] at hname ⊢
    exact ⟨hname.1.symm, hname.2.symm⟩
  -- where the nodes do not correspond, the edit holds the second and the deletion of the first
  have hapart : y.corresponds x = false →
      mergedAll isKept e [y] [x] = [y.bare, (copyFor .delete x).bare] := by
    intro hno
    rw [mergedAll_cons_of_none hkept (takeFirst_eq_none.2 (by simp [hno])), mergedAll_nil,
      List.flatMap_singleton, leftCopies_of_plain he hx]
  have hpair : y.corresponds x = true → mergedAll isKept e [y] [x] = mergedPair y x := by
    intro hyes
    rw [mergedAll_cons_of_some hkept (takeFirst_correspondent hyes), mergedAll_nil,
      List.flatMap_nil, List.append_nil]
  -- a node with children is not found where the values are different
  have hnone : y.children ≠ [] → ¬ x.element.alike y.element = true →
      isCounterpart y x.entry = false := by
    intro hys halike
    rw [isCounterpart_of_plain hy, if_neg (by simpa using hys), Element.alike_comm]
    exact Bool.eq_false_iff.2 halike
  by_cases hxs : x.children = []
  · by_cases hys : y.children = []
    · rw [hpair (by simp [corresponds_of_plain hy hx, hxs, hys, hname])]
      exact .of_leaves hx hy hu hname hxk hxs hys (by simp [spares, hxs, hys])
    · rw [hapart (by simp [corresponds_of_plain hy hx, hxs, hys])]
      by_cases halike : x.element.alike y.element = true
      · exact .of_filled hx hy hu halike hxk hxs hys (hinner halike)
          (by simp [spares, hxs, hys, halike])
      · exact .of_swap hx hy hu hname hxk (hnone hys halike) (by simp [spares, hxs, halike])
  · by_cases hys : y.children = []
    · rw [hapart (by simp [corresponds_of_plain hy hx, hxs, hys])]
      exact .of_emptied hx hy hu hback hxk hys (by simp [spares, hxs, hys])
    · by_cases halike : x.element.alike y.element = true
      · rw [hpair (by simp [corresponds_of_plain hy hx, hxs, hys, halike])]
        have hmelts := Melts.of_containers hx hy hu halike hxk hxs (hinner halike)
        simpa [spares, hxs, hys, halike] using hmelts
      · rw [hapart (by simp [corresponds_of_plain hy hx, hys, halike])]
        exact .of_swap hx hy hu hname hxk (hnone hys halike) (by simp [spares, hxs, hys, halike])

/-! ## All classes -/

/-- The children of the first of two plain sides are plain. -/
theorem Sides.plainA (h : Sides {} a b) (ha : a.element.kind = .plain) :
    ∀ x ∈ a.children, x.element.kind = .plain := by
  intro x hx
  rw [h.kindsA x hx, ha, rule_empty]
  rfl

/-- The children of the second of two plain sides are plain. -/
theorem Sides.plainB (h : Sides {} a b) (ha : a.element.kind = .plain) :
    ∀ y ∈ b.children, y.element.kind = .plain := by
  intro y hy
  rw [h.kindsB y hy, ha, rule_empty]
  rfl

/-- What a merging edit does to one class. -/
theorem Sides.melts (h : Sides {} a b) (ha : a.element.kind = .plain)
    (hinner : ∀ x ∈ a.children, ∀ y ∈ b.children, Sides {} x y → MeltsBelow x y) (k : Identity) :
    Melts k
      (mergedAll (b.keepsKey a) a.element (b.children.filter fun d => d.identity plainRule = k)
        (a.children.filter fun d => d.identity plainRule = k))
      ((a.children.filter fun d => d.identity plainRule = k).map bare)
      (b.children.filter fun d => d.identity plainRule = k)
      (∀ x ∈ a.children.filter fun d => d.identity plainRule = k,
        ∀ y ∈ b.children.filter fun d => d.identity plainRule = k, x.spares y = true) := by
  have hA := h.plainA ha
  have hB := h.plainB ha
  have hpairsA : a.children.Pairwise fun c d => c.identity plainRule ≠ d.identity plainRule :=
    (all_iff.1 h.keyedA).1.pairwise_identity hA
  have hpairsB : b.children.Pairwise fun c d => c.identity plainRule ≠ d.identity plainRule :=
    (all_iff.1 h.keyedB).1.pairwise_identity hB
  rcases filter_identity_cases hpairsA k with hone | ⟨x, hx, hxk, hone⟩ <;>
  rcases filter_identity_cases hpairsB k with hother | ⟨y, hy, hyk, hother⟩ <;>
  rw [hone, hother]
  · rw [mergedAll_nil]
    exact ⟨fun _ hc => (nomatch hc), ⟨[], .nil, by simp [AgreesAll]⟩, fun _ _ hd => (nomatch hd)⟩
  · -- only on the second side: the node is added
    have hu := (all_iff.1 h.unmarkedB).2 y hy
    rw [mergedAll_cons_of_none (keepsKey_of_plain ha b y) rfl, mergedAll_nil]
    have hadd : Step .merge y.bare [] [y.bare.unmarked] := .add_only (by
      rw [element_bare, operationOf_unmarked (all_iff.1 hu).1]
      decide)
    rw [unmarked_bare hu] at hadd
    exact ⟨by simpa using hB y hy, ⟨_, .cons hadd (by simpa using hyk) .nil,
      iff_of_true (agreesAll_bare (agrees_refl y)) fun _ hd => (nomatch hd)⟩,
      fun hnil => absurd hnil (List.cons_ne_nil _ _)⟩
  · -- only on the first side: the node is deleted
    rw [mergedAll_nil, List.flatMap_singleton, leftCopies_of_plain ha (hA x hx)]
    have hdelete : Step .merge (copyFor .delete x).bare [x.bare] [] :=
      .delete_only (operationOf_copyFor _ _ _)
        (by rw [isCounterpart_deletion (hA x hx), element_bare]
            exact Element.sameName_iff.2 ⟨rfl, rfl⟩)
    exact ⟨by simpa using hA x hx, ⟨_, .cons hdelete (by simp) .nil,
      iff_of_true rfl fun _ _ _ hd => (nomatch hd)⟩,
      fun hnil => absurd hnil (List.cons_ne_nil _ _)⟩
  · have hpair := Melts.of_pair (k := k) ha (keepsKey_of_plain ha b y) (hA x hx) (hB y hy)
      ((all_iff.1 h.unmarkedB).2 y hy) hxk hyk fun halike => hinner x hx y hy
        (h.child hx hy ((Entry.matches_iff_of_plain (x := x.entry) (hA x hx)).2 halike))
    simpa using hpair

/-- Two branches merge safely when all classes of their children do. -/
theorem mergesSafely_iff_classes : a.mergesSafely b = true ↔
    ∀ k, ∀ x ∈ a.children.filter fun d => d.identity plainRule = k,
      ∀ y ∈ b.children.filter fun d => d.identity plainRule = k, x.spares y = true := by
  rw [mergesSafely_iff]
  constructor
  · intro hall k x hx y hy
    obtain ⟨hxa, hxk⟩ := List.mem_filter.1 hx
    obtain ⟨hyb, hyk⟩ := List.mem_filter.1 hy
    exact hall x hxa y hyb (Entry.sameName_of_identity_eq (x := x.entry) (y := y.entry)
      ((of_decide_eq_true hxk).trans (of_decide_eq_true hyk).symm))
  · intro hall x hx y hy hname
    exact hall (x.identity plainRule) x (List.mem_filter.2 ⟨hx, decide_eq_true rfl⟩) y
      (List.mem_filter.2 ⟨hy, decide_eq_true (identity_eq_of_name hname).symm⟩)

/-- What a merging edit does below two plain sides. -/
theorem Sides.meltsBelow (h : Sides {} a b) (ha : a.element.kind = .plain) : MeltsBelow a b := by
  -- by induction on the first side; the classes of its children are taken one by one
  induction a using induction generalizing b with
  | step id e as ih =>
    generalize hside : Branch.mk id e as = a at h ha
    have has : as = a.children := by rw [← hside]; rfl
    subst has
    have hA := h.plainA ha
    have hB := h.plainB ha
    have hclass := h.melts ha fun x hx y _ hxy => ih x hx hxy (hA x hx)
    have hparts : ∀ k, ((mergedAll (b.keepsKey a) a.element b.children a.children).filter
        fun d => d.identity plainRule = k) =
          mergedAll (b.keepsKey a) a.element
            (b.children.filter fun d => d.identity plainRule = k)
            (a.children.filter fun d => d.identity plainRule = k) :=
      part_mergedAll hA hB fun y _ x _ _ => by
        rw [merged_eq]
        exact identity_eq_of_name (x := .mk 0 y.element _) (Element.sameName_iff.2 ⟨rfl, rfl⟩)
    constructor
    · choose zs hrun hagree using fun k => (hclass k).run
      have hkinds : ∀ c ∈ mergedAll (b.keepsKey a) a.element b.children a.children,
          c.element.kind = plainRule c.element.ns c.element.name := fun c hc =>
        (hclass (c.identity plainRule)).kinds c (mem_part hparts hc)
      have hruns : ∀ k, RunWithin (Step .merge) (fun d => d.identity plainRule = k)
          ((mergedAll (b.keepsKey a) a.element b.children a.children).filter
            fun d => d.identity plainRule = k)
          ((a.children.map bare).filter fun d => d.identity plainRule = k) (zs k) := by
        intro k
        rw [hparts k, filter_identity_bare]
        exact hrun k
      obtain ⟨n, hsteps, hn⟩ := exists_of_runs hkinds hruns
      refine ⟨n, hsteps, ?_⟩
      rw [mergesSafely_iff_classes]
      constructor
      · intro hall k
        have hpart := AgreesAll.filter (f := identity plainRule) (g := identity plainRule)
          (fun x _ y _ hxy => identity_eq_of_name (by
            obtain ⟨hname, hns, -⟩ := Element.alike_iff.1 (agrees_iff.1 hxy).1
            exact Element.sameName_iff.2 ⟨hname, hns⟩)) hall k
        rw [hn k] at hpart
        exact (hagree k).1 hpart
      · intro hsafe
        refine agreesAll_of_filter (identity plainRule) fun k => ?_
        rw [hn k]
        exact (hagree k).2 (hsafe k)
    · intro hnil
      rw [mergesSafely_iff_classes]
      intro k
      refine (hclass k).idle ?_
      rw [← hparts k, hnil]
      rfl

end Edit

open Build Netconf.Tree

/-- A document without data model in which siblings have different names, without marks. -/
structure Document.Schemaless (d : Document) : Prop where
  /-- The links are those of a forest, as those of all trees that operations make. -/
  forest : d.tree.Forest
  /-- The root exists. -/
  root_lt : d.root < d.tree.size
  /-- The root is the top of its tree. -/
  parent? : d.tree.parent? d.root = none
  /-- All nodes are plain. -/
  plain : (d.tree.branch d.root).All fun b => b.element.kind = .plain
  /-- No two siblings have the same namespace and name. -/
  distinct : (d.tree.branch d.root).All fun b =>
    b.children.Pairwise fun x y => x.element.sameName y.element = false
  /-- The document has no marks. -/
  unmarked : (d.tree.branch d.root).Unmarked

namespace Document.Schemaless

variable {d e : Document}

/-- Such a document is well-keyed and has the kinds that the empty data model gives. -/
theorem fit (h : d.Schemaless) : d.Fit {} where
  forest := h.forest
  root_lt := h.root_lt
  parent? := h.parent?
  kind := by
    rw [← h.forest.element_branch, (all_iff.1 h.plain).1]
    cases ((d.tree.branch d.root).element).ns <;> rfl
  described := by
    have hplain := h.plain
    generalize d.tree.branch d.root = b at hplain ⊢
    unfold Described
    induction b using induction with
    | step id e bs ih =>
      obtain ⟨htop, hbelow⟩ := all_iff.1 hplain
      refine all_iff.2 ⟨fun c hc => ?_, fun c hc => ih c hc (hbelow c hc)⟩
      rw [htop, (all_iff.1 (hbelow c hc)).1, rule_empty]
      rfl
  wellKeyed := by
    have hplain := h.plain
    have hdistinct := h.distinct
    generalize d.tree.branch d.root = b at hplain hdistinct ⊢
    unfold WellKeyed
    induction b using induction with
    | step id e bs ih =>
      obtain ⟨htop, hbelow⟩ := all_iff.1 hplain
      obtain ⟨hpairs, hdistinct⟩ := all_iff.1 hdistinct
      refine all_iff.2 ⟨?_, fun c hc => ih c hc (hbelow c hc) (hdistinct c hc)⟩
      refine ⟨fun hleaf => ?_, fun key hkey => ?_, fun c _ hkey => ?_, hpairs.imp ?_⟩
      · rw [htop] at hleaf
        cases hleaf
      · rw [htop] at hkey
        cases hkey
      · rw [hasKey_of_plain htop] at hkey
        cases hkey
      · intro x y hne hsame
        rw [hne] at hsame
        cases hsame
  unmarked := h.unmarked

/-- Without a data model the merging edit is made and applied without failing, and the first
document agrees with the second then just when the two merge safely. -/
theorem mergingEdit_agrees_iff (hd : d.Schemaless) (he : e.Schemaless)
    (hsame : d.tree.compare d.root e.tree e.root ≠ .different) :
    ∃ i t', d.tree.mergingEdit d.root e.tree e.root = .ok i ∧
      Build.on d.tree (Edit.apply d.root i.tree i.root) = (.ok (), t') ∧
      ((t'.branch d.root).Agrees (e.tree.branch e.root) ↔
        (d.tree.branch d.root).mergesSafely (e.tree.branch e.root) = true) := by
  obtain ⟨i, b, hi, hforest, hb, hsides, hbranch⟩ := hd.fit.exists_mergingEdit he.fit hsame
  have hplain : (d.tree.branch d.root).element.kind = .plain := (all_iff.1 hd.plain).1
  obtain ⟨⟨zs, hsteps, hagree⟩, -⟩ := hsides.meltsBelow hplain
  have hmark : b.element.markText? = none := (all_iff.1 hsides.unmarkedB).1
  have halike : (d.tree.branch d.root).element.alike b.element = true :=
    (Entry.matches_iff_of_plain (x := (d.tree.branch d.root).entry) hplain).1 hsides.same
  have hmatch : (Branch.mk 0 b.element (mergedAll (b.keepsKey (d.tree.branch d.root))
      (d.tree.branch d.root).element b.children (d.tree.branch d.root).children)).entry.matchesEntry
      (d.tree.branch d.root).entry = true :=
    Entry.matches_symm (x := (d.tree.branch d.root).entry) hsides.kind
      ((keysLike_merged hsides).matches hsides.kind hsides.same)
  rw [← hd.forest.content_eq] at hsteps
  rw [merged_eq] at hbranch
  obtain ⟨t', hon, hnow⟩ := hd.fit.exists_apply_steps hforest hbranch hmark hmatch hsteps
  refine ⟨i, t', hi, hon, ?_⟩
  -- the second document is read from the slots of the edit
  have hright : (t'.branch d.root).Agrees (e.tree.branch e.root) ↔ (t'.branch d.root).Agrees b :=
    ⟨agrees_of_bare_right hb.symm, agrees_of_bare_right hb⟩
  rw [hright, ← agrees_bare_left, hnow, agrees_iff, Branch.element, Branch.children,
    ← hd.forest.element_branch, halike, hagree, ← mergesSafely_bare, hb, mergesSafely_bare]
  simp

end Document.Schemaless

/-! ## A container that becomes empty -/

/-- A plain node with an optional text. -/
def plainNode (name : String) (text : Option String) (children : List Branch) : Branch :=
  .mk 0 { name, value := text.map .text } children

/-- A document with a top node. -/
def plainDocument (top : Branch) : Document := ⟨((Tree.empty (.standard 0)).addCopy top).1, 0⟩

/-- A document whose inner node has a child. -/
def filled : Document :=
  plainDocument (plainNode "a" none [plainNode "b" none [plainNode "c" none []]])

/-- The same document with an empty inner node. -/
def emptied : Document := plainDocument (plainNode "a" none [plainNode "b" none []])

/-- The filled document with a text in it and one more container. -/
def revised : Document :=
  plainDocument (plainNode "a" none
    [plainNode "b" none [plainNode "c" (some "1") []], plainNode "d" none [plainNode "e" none []]])

/-- The first document has no data model. -/
theorem schemaless_filled : filled.Schemaless where
  forest := (forest_empty _).addCopy _
  root_lt := by decide +kernel
  parent? := by decide +kernel
  plain := by decide +kernel
  distinct := by decide +kernel
  unmarked := by decide +kernel

/-- Nor has the second one. -/
theorem schemaless_emptied : emptied.Schemaless where
  forest := (forest_empty _).addCopy _
  root_lt := by decide +kernel
  parent? := by decide +kernel
  plain := by decide +kernel
  distinct := by decide +kernel
  unmarked := by decide +kernel

/-- Nor has the third one. -/
theorem schemaless_revised : revised.Schemaless where
  forest := (forest_empty _).addCopy _
  root_lt := by decide +kernel
  parent? := by decide +kernel
  plain := by decide +kernel
  distinct := by decide +kernel
  unmarked := by decide +kernel

namespace Document.Schemaless

/-- The merging edit brings the filled document to agree with the revised one, and not with the
emptied one. -/
theorem mergingEdit_agrees_iff_filled :
    (∃ i t', filled.tree.mergingEdit filled.root revised.tree revised.root = .ok i ∧
      Build.on filled.tree (Edit.apply filled.root i.tree i.root) = (.ok (), t') ∧
      (t'.branch filled.root).Agrees (revised.tree.branch revised.root)) ∧
    (∃ i t', filled.tree.mergingEdit filled.root emptied.tree emptied.root = .ok i ∧
      Build.on filled.tree (Edit.apply filled.root i.tree i.root) = (.ok (), t') ∧
      ¬ (t'.branch filled.root).Agrees (emptied.tree.branch emptied.root)) := by
  obtain ⟨i, t', hi, hon, hagrees⟩ := mergingEdit_agrees_iff schemaless_filled schemaless_revised
    (by decide +kernel)
  obtain ⟨j, t'', hj, hon', hlost⟩ := mergingEdit_agrees_iff schemaless_filled schemaless_emptied
    (by decide +kernel)
  exact ⟨⟨i, t', hi, hon, hagrees.2 (by decide +kernel)⟩,
    ⟨j, t'', hj, hon', fun h => absurd (hlost.1 h) (by decide +kernel)⟩⟩

/-- A merging edit loses a node: the edit from the filled document to the emptied one is made and
applied, and leaves no inner node at all. -/
theorem mergingEdit_loses :
    Xml.parse (.standard 0) none "<a><b><c/></b></a>" = .ok filled ∧
      Xml.parse (.standard 0) none "<a><b/></a>" = .ok emptied ∧
      filled.Schemaless ∧ emptied.Schemaless ∧
      filled.tree.compare filled.root emptied.tree emptied.root = .equal ∧
      ∃ i t', filled.tree.mergingEdit filled.root emptied.tree emptied.root = .ok i ∧
        Build.on filled.tree (Edit.apply filled.root i.tree i.root) = (.ok (), t') ∧
        t'.children filled.root = [] ∧
        t'.agree filled.root emptied.tree emptied.root = false ∧
        ¬ (t'.branch filled.root).Agrees (emptied.tree.branch emptied.root) := by
  refine ⟨rfl, rfl, schemaless_filled, schemaless_emptied, by decide +kernel, ?_⟩
  obtain ⟨i, t', hi, hon, hnone, hdiffer, hchildren⟩ : ∃ i t',
      filled.tree.mergingEdit filled.root emptied.tree emptied.root = .ok i ∧
      Build.on filled.tree (Edit.apply filled.root i.tree i.root) = (.ok (), t') ∧
      t'.children filled.root = [] ∧ t'.agree filled.root emptied.tree emptied.root = false ∧
      (t'.branch filled.root).children.length = 0 :=
    ⟨_, _, rfl, rfl, by decide +kernel, by decide +kernel, by decide +kernel⟩
  refine ⟨i, t', hi, hon, hnone, hdiffer, fun hagrees => ?_⟩
  have hlength := (agrees_iff.1 hagrees).2.length_eq
  rw [hchildren] at hlength
  exact absurd hlength (by decide +kernel)

end Document.Schemaless

end Netconf
