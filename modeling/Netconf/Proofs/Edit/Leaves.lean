import Netconf.Proofs.Edit.Copies

/-!
# Applying edits to leaves

An edit node that is a leaf has the first leaf of its name as its counterpart, whatever the values
are. So what edit nodes do to the leaves of one name is told by the values of these alone: the first
goes or gets another value, or a first one is added (`written`). Either all edit nodes can be
applied, and then the values of each name are what is written over them (`exists_steps_or_halts`),
or applying them fails because for some name nothing can be written
(`ensures_applyAll_of_halts`).
-/

namespace Netconf

namespace Branch

/-- The namespace and name of the top of a branch. -/
def fullName (b : Branch) : Option String × String := (b.element.ns, b.element.name)

/-- The wire forms of the values at the tops of the branches of a name, in order. -/
def valuesOf (n : Option String × String) (bs : List Branch) : List (Option String) :=
  (bs.filter fun b => b.fullName = n).map fun b => wire? b.element.value

variable {n : Option String × String} {b c : Branch} {bs pre post : List Branch}

/-- The values of one list and then of the other. -/
theorem valuesOf_append (n : Option String × String) (bs cs : List Branch) :
    valuesOf n (bs ++ cs) = valuesOf n bs ++ valuesOf n cs := by
  rw [valuesOf, List.filter_append, List.map_append]
  rfl

/-- The value of a branch of the name comes first. -/
theorem valuesOf_cons_of_eq (h : b.fullName = n) (bs : List Branch) :
    valuesOf n (b :: bs) = wire? b.element.value :: valuesOf n bs := by
  rw [valuesOf, List.filter_cons_of_pos (by simpa using h), List.map_cons]
  rfl

/-- The value of a branch of another name does not count. -/
theorem valuesOf_cons_of_ne (h : b.fullName ≠ n) (bs : List Branch) :
    valuesOf n (b :: bs) = valuesOf n bs := by
  rw [valuesOf, List.filter_cons_of_neg (by simpa using h)]
  rfl

/-- There are no values without branches of the name. -/
theorem valuesOf_eq_nil (h : ∀ b ∈ bs, b.fullName ≠ n) : valuesOf n bs = [] := by
  rw [valuesOf, List.filter_eq_nil_iff.2 fun b hb => by simpa using h b hb, List.map_nil]

/-- The value of the first branch of the name comes first. -/
theorem valuesOf_middle (hpre : ∀ d ∈ pre, d.fullName ≠ n) (hc : c.fullName = n)
    (post : List Branch) :
    valuesOf n (pre ++ c :: post) = wire? c.element.value :: valuesOf n post := by
  rw [valuesOf_append, valuesOf_eq_nil hpre, valuesOf_cons_of_eq hc, List.nil_append]

/-- The numbers of slots do not count. -/
@[simp]
theorem fullName_bare (b : Branch) : b.bare.fullName = b.fullName := by
  rw [fullName, element_bare]
  rfl

/-- The numbers of slots do not change which branches have a name. -/
theorem filter_fullName_bare (bs : List Branch) (n : Option String × String) :
    ((bs.map bare).filter fun b => b.fullName = n) =
      (bs.filter fun b => b.fullName = n).map bare := by
  rw [List.filter_map]
  exact congrArg _ (List.filter_congr fun b _ => by rw [Function.comp_apply, fullName_bare])

/-- The numbers of slots do not change the values. -/
theorem valuesOf_map_bare (n : Option String × String) (bs : List Branch) :
    valuesOf n (bs.map bare) = valuesOf n bs := by
  rw [valuesOf, filter_fullName_bare, List.map_map, valuesOf]
  exact List.map_congr_left fun b _ => by rw [Function.comp_apply, element_bare]

/-- Marks do not count. -/
@[simp]
theorem fullName_unmarked (b : Branch) : b.unmarked.fullName = b.fullName := by
  cases b
  rfl

/-- Taking marks away leaves the value. -/
@[simp]
theorem value_unmarked (b : Branch) : b.unmarked.element.value = b.element.value := by
  cases b
  rfl

end Branch

namespace Edit

open Branch Build Netconf.Tree

variable {b c : Branch} {bs ts us : List Branch}

/-! ## What is written -/

/-- What an edit leaf does to the values of its name, by its operation and its own value: the first
goes or is overwritten, or there is none and one is added. -/
def written : Operation × Option String → List (Option String) → Option (List (Option String))
  | (.delete, _), [] => none
  | (.delete, _), _ :: ws => some ws
  | (.create, v), [] => some [v]
  | (.create, _), _ :: _ => none
  | (.replace, v), ws => some (v :: ws.tail)
  | (.merge, v), ws => some (v :: ws.tail)

/-- What several edit leaves do to the values of their name, one after the other. -/
def writtenAll (acts : List (Operation × Option String)) (ws : List (Option String)) :
    Option (List (Option String)) :=
  acts.foldlM (fun ws act => written act ws) ws

/-- The operation and the value of an edit node. -/
def actOf (b : Branch) : Operation × Option String :=
  (operationOf b.element .merge, wire? b.element.value)

/-- The counterparts of a node that is not compared by what is below it have its name. -/
theorem isCounterpart_iff (hb : b.entry.isComposite = false) :
    isCounterpart b c.entry = true ↔ c.fullName = b.fullName := by
  unfold isCounterpart
  rw [hb, if_neg Bool.false_ne_true]
  refine Element.sameName_iff.trans ?_
  rw [fullName, fullName, Prod.mk.injEq, and_comm]
  exact and_congr eq_comm eq_comm

/-- Nodes of other names are no counterparts. -/
theorem isCounterpart_eq_false (hb : b.entry.isComposite = false)
    (hc : c.fullName ≠ b.fullName) : isCounterpart b c.entry = false :=
  Bool.eq_false_iff.2 fun h => hc ((isCounterpart_iff hb).1 h)

/-- Applying edit nodes comes to one that cannot be applied. -/
inductive Halts : List Branch → List Branch → Prop where
  /-- What is to be deleted is not there. -/
  | delete {b : Branch} {bs ts : List Branch} (ho : operationOf b.element .merge = .delete)
    (hts : ∀ d ∈ ts, isCounterpart b d.entry = false) : Halts (b :: bs) ts
  /-- What is to be created is there. -/
  | create {b c : Branch} {bs ts : List Branch} (ho : operationOf b.element .merge = .create)
    (hc : c ∈ ts) (hbc : isCounterpart b c.entry = true) : Halts (b :: bs) ts
  /-- The first edit node can be applied, and a later one cannot. -/
  | later {b : Branch} {bs ts us : List Branch} (h : Step .merge b ts us) (hs : Halts bs us) :
    Halts (b :: bs) ts

/-- An edit leaf either writes the values of its name, and leaves those of other names, or it cannot
be applied, and nothing can be written. -/
def WritesOrHalts (b : Branch) (ts : List Branch) : Prop :=
  (∃ us, Step .merge b ts us ∧
    written (actOf b) (valuesOf b.fullName ts) = some (valuesOf b.fullName us) ∧
      ∀ n, n ≠ b.fullName → valuesOf n us = valuesOf n ts) ∨
    (∀ bs, Halts (b :: bs) ts) ∧ written (actOf b) (valuesOf b.fullName ts) = none

/-- An edit leaf meets the first leaf of its name. -/
theorem writesOrHalts_middle {pre post : List Branch} (hb : b.entry.isComposite = false)
    (hpre : ∀ d ∈ pre, d.fullName ≠ b.fullName) (hc : c.fullName = b.fullName) :
    WritesOrHalts b (pre ++ c :: post) := by
  have hcounterpart := (isCounterpart_iff hb).2 hc
  have hbefore : ∀ d ∈ pre, isCounterpart b d.entry = false := fun d hd =>
    isCounterpart_eq_false hb (hpre d hd)
  -- of another name, the branch in the middle and what takes its place do not count
  have hother : ∀ {e : Branch} {n : Option String × String}, e.fullName = b.fullName →
      n ≠ b.fullName → valuesOf n (pre ++ e :: post) = valuesOf n (pre ++ post) := by
    intro e n he hn
    rw [valuesOf_append, valuesOf_cons_of_ne (he ▸ hn.symm), ← valuesOf_append]
  unfold WritesOrHalts actOf
  rw [valuesOf_middle hpre hc]
  cases ho : operationOf b.element .merge with
  | delete =>
    have hafter : valuesOf b.fullName (pre ++ post) = valuesOf b.fullName post := by
      rw [valuesOf_append, valuesOf_eq_nil hpre, List.nil_append]
    exact .inl ⟨_, .delete ho hcounterpart hbefore, by rw [hafter]; rfl,
      fun n hn => (hother hc hn).symm⟩
  | create => exact .inr ⟨fun _ => .create ho (by simp) hcounterpart, rfl⟩
  | replace =>
    have hname : b.unmarked.fullName = b.fullName := fullName_unmarked b
    refine .inl ⟨_, .replace ho hcounterpart hbefore, ?_, fun n hn => ?_⟩
    · rw [valuesOf_middle hpre hname, value_unmarked]
      rfl
    · rw [hother hname hn, hother hc hn]
  | merge =>
    have hname : (Branch.mk c.id { c.element with value := b.element.value } c.children).fullName
        = b.fullName := hc
    refine .inl ⟨_, .take ho hb hcounterpart hbefore, ?_, fun n hn => ?_⟩
    · rw [valuesOf_middle hpre hname]
      rfl
    · rw [hother hname hn, hother hc hn]

/-- An edit leaf meets no leaf of its name. -/
theorem writesOrHalts_of_none (hb : b.entry.isComposite = false)
    (hts : ∀ c ∈ ts, c.fullName ≠ b.fullName) : WritesOrHalts b ts := by
  have hnone : ∀ d ∈ ts, isCounterpart b d.entry = false := fun d hd =>
    isCounterpart_eq_false hb (hts d hd)
  have hown : valuesOf b.fullName (ts ++ [b.unmarked]) = [wire? b.element.value] := by
    rw [valuesOf_middle hts (fullName_unmarked b), value_unmarked]
    rfl
  have hother : ∀ n, n ≠ b.fullName → valuesOf n (ts ++ [b.unmarked]) = valuesOf n ts := by
    intro n hn
    rw [valuesOf_append, valuesOf_cons_of_ne (by simpa using hn.symm)]
    exact List.append_nil _
  unfold WritesOrHalts actOf
  rw [valuesOf_eq_nil hts]
  cases ho : operationOf b.element .merge with
  | delete => exact .inr ⟨fun _ => .delete ho hnone, rfl⟩
  | create | replace | merge =>
    exact .inl ⟨_, .add (by rw [ho]; decide) hnone, by rw [hown]; rfl, hother⟩

/-- An edit leaf can be applied just when something can be written. -/
theorem writesOrHalts (hb : b.entry.isComposite = false) (ts : List Branch) :
    WritesOrHalts b ts := by
  by_cases hts : ∃ c ∈ ts, c.fullName = b.fullName
  · have hsome : (ts.find? fun c => decide (c.fullName = b.fullName)).isSome = true :=
      List.find?_isSome.2 (by simpa using hts)
    obtain ⟨c, hc⟩ := Option.isSome_iff_exists.1 hsome
    obtain ⟨hname, pre, post, rfl, hpre⟩ := List.find?_eq_some_iff_append.1 hc
    exact writesOrHalts_middle hb (by simpa using hpre) (by simpa using hname)
  · exact writesOrHalts_of_none hb fun c hc hname => hts ⟨c, hc, hname⟩

/-- Edit leaves either write the values of each name, or they cannot be applied, and the values of
some name cannot be written. -/
theorem exists_steps_or_halts (hbs : ∀ b ∈ bs, b.entry.isComposite = false) (ts : List Branch) :
    (∃ us, Steps .merge bs ts us ∧ ∀ n,
      writtenAll ((bs.filter fun b => b.fullName = n).map actOf) (valuesOf n ts) =
        some (valuesOf n us)) ∨
      Halts bs ts ∧ ∃ n,
        writtenAll ((bs.filter fun b => b.fullName = n).map actOf) (valuesOf n ts) = none := by
  induction bs generalizing ts with
  | nil => exact .inl ⟨ts, .nil, fun _ => rfl⟩
  | cons b bs ih =>
    obtain ⟨hb, hbs⟩ := List.forall_mem_cons.1 hbs
    have hfirst : ∀ ws, writtenAll (((b :: bs).filter fun c => c.fullName = b.fullName).map actOf)
        ws = (written (actOf b) ws).bind
          (writtenAll ((bs.filter fun c => c.fullName = b.fullName).map actOf)) := fun ws => by
      rw [List.filter_cons_of_pos (by simp), List.map_cons, writtenAll,
        List.foldlM_cons]
      rfl
    have hskip : ∀ n, n ≠ b.fullName → (b :: bs).filter (fun c => decide (c.fullName = n)) =
        bs.filter fun c => decide (c.fullName = n) := fun n hn =>
      List.filter_cons_of_neg (by simpa using hn.symm)
    rcases writesOrHalts hb ts with ⟨us, hstep, hown, hother⟩ | ⟨hhalts, hnone⟩
    · -- the values of each name are written first by the first edit node, then by the others
      have hall : ∀ n, writtenAll (((b :: bs).filter fun c => c.fullName = n).map actOf)
          (valuesOf n ts) =
            writtenAll ((bs.filter fun c => c.fullName = n).map actOf) (valuesOf n us) := by
        intro n
        by_cases hn : n = b.fullName
        · subst hn
          rw [hfirst, hown]
          rfl
        · rw [hskip n hn, hother n hn]
      rcases ih hbs us with ⟨vs, hsteps, hwritten⟩ | ⟨hhalts, n, hnone⟩
      · exact .inl ⟨vs, .cons hstep hsteps, fun n => (hall n).trans (hwritten n)⟩
      · exact .inr ⟨.later hstep hhalts, n, (hall n).trans hnone⟩
    · exact .inr ⟨hhalts bs, b.fullName, by rw [hfirst, hnone]; rfl⟩

/-! ## Trees follow -/

/-- Applying an edit node that cannot be applied fails. -/
theorem ensures_applyAll_of_halts {defaults : Bindings} {above : Lineage} {t : Tree}
    (h : t.Forest) {parent : Nat} (hp : parent < t.size)
    (hhalts : Halts (bs.map bare) (t.content parent)) :
    Ensures (applyAll defaults above parent .merge bs) t (fun _ _ => False) fun _ => True := by
  induction bs generalizing t with
  | nil => cases hhalts
  | cons b bs ih =>
    rw [List.map_cons] at hhalts
    generalize hcontent : t.content parent = ts at hhalts
    unfold applyAll
    cases hhalts with
    | delete ho hts =>
      simp only [isCounterpart_bare] at hts
      have hnone := h.find?_children_eq_none fun d hd => hts d (hcontent ▸ hd)
      rw [← counterpart?_eq] at hnone
      obtain ⟨id, e, cs⟩ := b
      rw [element_bare] at ho
      refine ensures_bind.2 ?_
      unfold applyNode
      refine ensures_bind.2 (ensures_get.2 ?_)
      rw [hnone, show operationOf e .merge = .delete from ho]
      exact ensures_throw.2 trivial
    | @create _ c _ _ ho hc hbc =>
      simp only [isCounterpart_bare] at hbc
      obtain ⟨x, hx⟩ : ∃ x, counterpart? t parent b = some x := by
        rw [← Option.isSome_iff_exists, counterpart?_eq, h.find?_children, List.find?_isSome]
        rw [← hcontent] at hc
        obtain ⟨x, hx, rfl⟩ := List.mem_map.1 hc
        exact ⟨x, hx, hbc⟩
      obtain ⟨id, e, cs⟩ := b
      rw [element_bare] at ho
      refine ensures_bind.2 ?_
      unfold applyNode
      refine ensures_bind.2 (ensures_get.2 ?_)
      rw [hx, show operationOf e .merge = .create from ho]
      exact ensures_throw.2 trivial
    | later hstep hs =>
      subst hcontent
      refine ensures_bind.2 ((ensures_applyNode defaults b above .merge h hp hstep).mono
        (fun _ t₁ hnext => ?_) fun _ => False.elim)
      obtain ⟨hconf, rfl⟩ := hnext
      exact ih hconf.forest (hconf.lt hp) hs

/-! ## Values written one over the other -/

/-- Values are written over the first one, so that the last of them stays. -/
def overwritten (vs ws : List (Option String)) : List (Option String) :=
  match vs.getLast? with
  | none => ws
  | some v => v :: ws.tail

/-- Writing in two parts. -/
theorem writtenAll_append (as bs : List (Operation × Option String)) (ws : List (Option String)) :
    writtenAll (as ++ bs) ws = (writtenAll as ws).bind (writtenAll bs) := by
  unfold writtenAll
  rw [List.foldlM_append]
  rfl

/-- Values that are merged or replaced are written over the first one. -/
theorem writtenAll_overwrite {o : Operation} (ho : o = .merge ∨ o = .replace)
    (vs ws : List (Option String)) :
    writtenAll (vs.map fun v => (o, v)) ws = some (overwritten vs ws) := by
  induction vs generalizing ws with
  | nil => rfl
  | cons v vs ih =>
    have hfirst : written (o, v) ws = some (v :: ws.tail) := by
      rcases ho with rfl | rfl <;> cases ws <;> rfl
    have hrest := ih (v :: ws.tail)
    unfold writtenAll at hrest ⊢
    rw [List.map_cons, List.foldlM_cons, hfirst]
    refine hrest.trans ?_
    unfold overwritten
    rw [List.getLast?_cons]
    cases vs.getLast? <;> rfl

/-- Values are deleted from the front. -/
theorem writtenAll_delete (vs : List (Option String)) {ws : List (Option String)}
    (h : vs.length ≤ ws.length) :
    writtenAll (vs.map fun v => (.delete, v)) ws = some (ws.drop vs.length) := by
  induction vs generalizing ws with
  | nil => rfl
  | cons v vs ih =>
    cases ws with
    | nil => cases h
    | cons w ws => exact ih (Nat.le_of_succ_le_succ h)

/-- A value can be created only when there is none, and so no second one. -/
theorem writtenAll_create (vs ws : List (Option String)) :
    writtenAll (vs.map fun v => (.create, v)) ws =
      if vs = [] then some ws else if ws = [] ∧ vs.length = 1 then some vs else none := by
  cases vs with
  | nil => rfl
  | cons v vs =>
    cases ws with
    | cons w ws => rfl
    | nil =>
      cases vs with
      | nil => rfl
      | cons v' vs => rfl

end Edit

end Netconf
