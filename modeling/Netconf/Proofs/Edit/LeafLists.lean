import Netconf.Proofs.Edit.Explicit
import Netconf.Proofs.Edit.Leaves
import Netconf.Xml.Reading

/-!
# Explicit edits of leaf-lists

A difference pairs the leaves of one name by their places, but an edit finds a leaf by its name
only: whatever is deleted or replaced, it is the first leaf of the name. So the explicit edit of two
documents in which leaves are repeated may fail, or may leave other values than those of the second
document. `Settles` says exactly when it does neither, name by name and from the values alone
(`Document.Flat.explicitEdit_settles_iff`). Where no name is repeated and none is that of a key, it
always does what it should (`settles_of_single`).
-/

namespace Netconf

open Branch Build Edit Netconf.Tree

namespace Edit

variable {a b c : Branch} {as bs : List Branch} {n : Option String × String}
  {keys xs ys : List (Option String)}

/-! ## When an edit leaves the right values -/

/-- The values that take the place of others: those that differ from the value at the same place on
the first side. -/
def changedValues (xs ys : List (Option String)) : List (Option String) :=
  ((xs.zip ys).filter fun p => p.1 ≠ p.2).map Prod.snd

/-- An edit that first takes the values `keys` over turns the values `xs` of a name into `ys`, up to
their order. If there are more on the second side, only a single value can be created; otherwise
values are deleted from the front, and all changed ones are written over the first that is left. -/
def Settles (keys xs ys : List (Option String)) : Prop :=
  if xs.length < ys.length then overwritten keys xs = [] ∧ ys.length = 1
  else (overwritten (changedValues xs ys)
    ((overwritten keys xs).drop (xs.length - ys.length))).Perm ys

instance : Decidable (Settles keys xs ys) := by
  unfold Settles
  infer_instance

/-- What an explicit edit does to the values of a name. -/
def actsFor (keys xs ys : List (Option String)) : List (Operation × Option String) :=
  keys.map (fun v => (.merge, v)) ++ ((xs.drop ys.length).map (fun v => (.delete, v)) ++
    (ys.drop xs.length).map (fun v => (.create, v)) ++
      (changedValues xs ys).map fun v => (.replace, v))

/-- Writing over the first value does not make a list shorter. -/
theorem length_le_overwritten (vs ws : List (Option String)) :
    ws.length ≤ (overwritten vs ws).length := by
  unfold overwritten
  cases vs.getLast? with
  | none => exact Nat.le_refl _
  | some v => simp only [List.length_cons, List.length_tail]; omega

/-- The values are settled exactly when writing does not fail and leaves them in some order. -/
theorem settles_iff : Settles keys xs ys ↔
    ∃ vs, writtenAll (actsFor keys xs ys) xs = some vs ∧ vs.Perm ys := by
  have hwritten : writtenAll (actsFor keys xs ys) xs =
      (((writtenAll ((xs.drop ys.length).map fun v => (.delete, v)) (overwritten keys xs)).bind
        (writtenAll ((ys.drop xs.length).map fun v => (.create, v)))).bind
          (writtenAll ((changedValues xs ys).map fun v => (.replace, v)))) := by
    rw [actsFor, writtenAll_append, writtenAll_overwrite (.inl rfl), Option.bind_some,
      writtenAll_append, writtenAll_append]
  rw [hwritten]
  unfold Settles
  split
  · next hlt =>
    have hdrop : xs.drop ys.length = [] := List.drop_eq_nil_of_le (Nat.le_of_lt hlt)
    have hne : ys.drop xs.length ≠ [] := by
      rw [ne_eq, List.drop_eq_nil_iff]
      omega
    rw [hdrop, List.map_nil, writtenAll, List.foldlM_nil]
    show _ ↔ ∃ vs, ((writtenAll ((ys.drop xs.length).map fun v => (.create, v))
      (overwritten keys xs)).bind _) = some vs ∧ _
    rw [writtenAll_create, if_neg hne]
    constructor
    · rintro ⟨hnone, hone⟩
      have hxs : xs = [] := List.length_eq_zero_iff.1 (by omega)
      subst hxs
      rw [List.length_nil, List.drop_zero, if_pos ⟨hnone, hone⟩]
      exact ⟨ys, rfl, .refl ys⟩
    · rintro ⟨vs, hvs, -⟩
      split at hvs
      · next h =>
        have hxs := length_le_overwritten keys xs
        rw [h.1] at hxs
        have hlength := h.2
        rw [List.length_drop, List.length_eq_zero_iff.1 (Nat.le_zero.1 hxs)] at hlength
        exact ⟨h.1, hlength⟩
      · cases hvs
  · next hle =>
    have hdrop : ys.drop xs.length = [] := List.drop_eq_nil_of_le (Nat.not_lt.1 hle)
    have hlength : (xs.drop ys.length).length ≤ (overwritten keys xs).length := by
      have := length_le_overwritten keys xs
      rw [List.length_drop]
      omega
    rw [hdrop, writtenAll_delete _ hlength, List.length_drop, Option.bind_some, writtenAll_create,
      if_pos rfl, Option.bind_some, writtenAll_overwrite (.inr rfl)]
    constructor
    · exact fun h => ⟨_, rfl, h⟩
    · rintro ⟨vs, hvs, h⟩
      rw [Option.some.inj hvs]
      exact h

/-- A value that is missing or alone on each side is settled, when no key is taken over. -/
theorem settles_of_single (hxs : xs.length ≤ 1) (hys : ys.length ≤ 1) : Settles [] xs ys := by
  unfold Settles
  split
  · have hnone : xs = [] := List.length_eq_zero_iff.1 (by omega)
    exact ⟨hnone, by omega⟩
  · next hle =>
    cases ys with
    | nil =>
      have hchanged : changedValues xs [] = [] := by
        rw [changedValues, List.zip_nil_right]
        rfl
      rw [hchanged]
      show (xs.drop (xs.length - 0)).Perm []
      rw [Nat.sub_zero, List.drop_length]
    | cons y ys =>
      obtain ⟨x, rfl⟩ := List.length_eq_one_iff.1
        (Nat.le_antisymm hxs (by rw [List.length_cons] at hle; omega))
      obtain rfl := List.length_eq_zero_iff.1 (Nat.le_zero.1 (Nat.le_of_succ_le_succ hys))
      by_cases hxy : x = y
      · subst hxy
        simp [changedValues, overwritten]
      · simp [changedValues, overwritten, hxy]

/-! ## The nodes of the edit -/

/-- All branches are leaves without children and without marks. -/
def Leaves (bs : List Branch) : Prop :=
  ∀ b ∈ bs, b.element.kind = .leaf ∧ b.children = [] ∧ b.element.markText? = none

/-- Leaves of one name are equal or changed, as their values are the same or not. -/
theorem compare_leaf (ha : a.element.kind = .leaf) (h : a.fullName = b.fullName) :
    a.entry.compare b.entry =
      if wire? a.element.value = wire? b.element.value then .equal else .changed := by
  have hname : a.element.sameName b.element = true :=
    Element.sameName_iff.2 ⟨congrArg Prod.snd h, congrArg Prod.fst h⟩
  have ha' : a.entry.element.kind = .leaf := ha
  have hname' : a.entry.element.sameName b.entry.element = true := hname
  unfold Entry.compare
  rw [ha']
  dsimp only
  rw [hname', Bool.not_true, if_neg Bool.false_ne_true]
  exact if_congr (sameValue_iff _ _) rfl rfl

/-- What a difference lists of leaves of one name: those without a partner at the same place, and
those whose values differ. -/
theorem listingsAll_leaves (has : ∀ a ∈ as, a.element.kind = .leaf ∧ a.fullName = n)
    (hbs : ∀ b ∈ bs, b.element.kind = .leaf ∧ b.fullName = n) :
    (listingsAll as bs).onlyA = (as.drop bs.length).map (fun a => ⟨[], a⟩) ∧
      (listingsAll as bs).onlyB = (bs.drop as.length).map (fun b => ⟨[], b⟩) ∧
      (listingsAll as bs).changedB = ((as.zip bs).filter fun p =>
        wire? p.1.element.value ≠ wire? p.2.element.value).map fun p => ⟨[], p.2⟩ := by
  induction as generalizing bs with
  | nil =>
    rw [listingsAll_nil_left]
    exact ⟨by rw [List.drop_nil]; rfl, rfl, rfl⟩
  | cons a as ih =>
    cases bs with
    | nil =>
      rw [listingsAll_nil_right]
      exact ⟨rfl, rfl, by rw [List.zip_nil_right]; rfl⟩
    | cons b bs =>
      obtain ⟨⟨hleaf, hname⟩, has⟩ := List.forall_mem_cons.1 has
      obtain ⟨⟨hbleaf, hbname⟩, hbs⟩ := List.forall_mem_cons.1 hbs
      obtain ⟨honlyA, honlyB, hchanged⟩ := ih has hbs
      have hcompare := compare_leaf hleaf (hname.trans hbname.symm)
      have hmatch : a.entry.matchesEntry b.entry = true := by
        unfold Entry.matchesEntry
        rw [hcompare]
        split <;> rfl
      have htake : takeFirst (partner? a) (b :: bs) = some (b, a.entry.compare b.entry, bs) :=
        takeFirst_of_split [] bs (partner?_eq_some.2 ⟨rfl, hmatch⟩) (by simp)
      have hcomposite : (a.entry.isComposite || b.entry.isComposite) = false := by
        rw [isComposite_of_leaf hleaf, isComposite_of_leaf hbleaf]
        rfl
      rw [listingsAll_cons_of_some htake, hcompare, listingsOfPair, hcomposite,
        Listings.append_def, List.zip_cons_cons]
      by_cases hvalue : wire? a.element.value = wire? b.element.value
      · rw [if_pos hvalue, List.filter_cons_of_neg (by simpa using hvalue)]
        exact ⟨honlyA, honlyB, hchanged⟩
      · rw [if_neg hvalue, List.filter_cons_of_pos (by simpa using hvalue), List.map_cons]
        exact ⟨honlyA, honlyB, congrArg _ hchanged⟩

/-- What is listed of leaves has no ancestors in between. -/
theorem above_eq_nil (h : Leaves as) {l : Listed} (hl : Leads as l.above l.node) :
    l.above = [] := by
  obtain ⟨above, node⟩ := l
  cases above with
  | nil => rfl
  | cons x above =>
    obtain ⟨hx, hl⟩ := hl
    rw [(h x hx).2.1] at hl
    cases above with
    | nil => exact absurd hl List.not_mem_nil
    | cons y above => exact absurd hl.1 List.not_mem_nil

/-- A marked copy has the name of what was copied. -/
theorem fullName_copyFor (o : Operation) (b : Branch) :
    (copyFor o b).bare.fullName = b.fullName := by
  obtain ⟨hname, hns, -⟩ := Element.alike_iff.1 (alike_mark b.element o)
  rw [fullName_bare, fullName, element_copyFor, ← hname, ← hns]
  rfl

/-- A marked copy has the operation of its mark and the value of what was copied. -/
theorem actOf_copyFor (o : Operation) (b : Branch) :
    actOf (copyFor o b).bare = (o, wire? b.element.value) := by
  obtain ⟨-, -, hvalue⟩ := Element.alike_iff.1 (alike_mark b.element o)
  rw [actOf, operationOf_copyFor, element_bare, element_copyFor, hvalue]

/-- A copy without a mark is merged, with the value of what was copied. -/
theorem actOf_bare (h : b.element.markText? = none) :
    actOf b.bare = (.merge, wire? b.element.value) := by
  rw [actOf, element_bare, operationOf_unmarked h]

/-- The marked copies of listed leaves of a name. -/
theorem map_actOf_copies {o : Operation} {ls : List Listed} (hls : ∀ l ∈ ls, l.above = [])
    (n : Option String × String) :
    (((ls.map (excerptOf o)).map Excerpt.copy).filter fun b => b.fullName = n).map actOf =
      (ls.filter fun l => l.head.fullName = n).map fun l => (o, wire? l.node.element.value) := by
  rw [List.map_map, List.filter_map, List.map_map]
  have hhead : ls.filter ((fun b : Branch => decide (b.fullName = n)) ∘
      (Excerpt.copy ∘ excerptOf o)) = ls.filter fun l => l.head.fullName = n := by
    refine List.filter_congr fun l hl => ?_
    rw [Listed.head, hls l hl, List.headD_nil]
    exact congrArg (fun m => decide (m = n)) (fullName_copyFor o l.node)
  rw [hhead]
  exact List.map_congr_left fun l _ => actOf_copyFor o l.node

/-- What the marked nodes of an edit do to the values of a name. -/
theorem map_actOf_excerptsOf (ha : Leaves a.children) (hb : Leaves b.children)
    (n : Option String × String) :
    (((excerptsOf (a.listings b)).map Excerpt.copy).filter fun b => b.fullName = n).map actOf =
      ((valuesOf n a.children).drop (valuesOf n b.children).length).map (fun v => (.delete, v)) ++
        ((valuesOf n b.children).drop (valuesOf n a.children).length).map (fun v => (.create, v)) ++
          (changedValues (valuesOf n a.children) (valuesOf n b.children)).map
            fun v => (.replace, v) := by
  have hwithin := within_listingsAll a.children b.children
  have hsame : ∀ x ∈ a.children, ∀ y : Branch, x.entry.matchesEntry y.entry = true →
      y.fullName = x.fullName := fun x _ y hxy =>
    have hname := Element.sameName_iff.1 (Entry.sameName_of_matches hxy)
    Prod.ext hname.2.symm hname.1.symm
  have hpart := part_listingsAll_of_matches hsame b.children n
  have hclass : ∀ {cs : List Branch}, Leaves cs →
      ∀ c ∈ cs.filter (fun c => c.fullName = n), c.element.kind = .leaf ∧ c.fullName = n :=
    fun hcs c hc => by
      obtain ⟨hc, hname⟩ := List.mem_filter.1 hc
      exact ⟨(hcs c hc).1, of_decide_eq_true hname⟩
  obtain ⟨honlyA, honlyB, hchanged⟩ := listingsAll_leaves (hclass ha) (hclass hb)
  rw [← hpart] at honlyA honlyB hchanged
  rw [listings_eq, excerptsOf, List.map_append, List.map_append, List.filter_append,
    List.filter_append, List.map_append, List.map_append,
    map_actOf_copies fun l hl => above_eq_nil ha (hwithin.onlyA l hl),
    map_actOf_copies fun l hl => above_eq_nil hb (hwithin.onlyB l hl),
    map_actOf_copies fun l hl => above_eq_nil hb (hwithin.changedB l hl)]
  refine congrArg₂ (· ++ ·) (congrArg₂ (· ++ ·) ?_ ?_) ?_
  · refine (congrArg (List.map _) honlyA).trans ?_
    rw [valuesOf, valuesOf, List.length_map, ← List.map_drop, List.map_map, List.map_map]
    rfl
  · refine (congrArg (List.map _) honlyB).trans ?_
    rw [valuesOf, valuesOf, List.length_map, ← List.map_drop, List.map_map, List.map_map]
    rfl
  · refine (congrArg (List.map _) hchanged).trans ?_
    rw [changedValues, valuesOf, valuesOf, List.zip_map, List.filter_map, List.map_map,
      List.map_map, List.map_map]
    rfl

/-- The values of a name that the top of an edit takes over as keys when it is made of `c`. -/
def keyValues (c : Branch) (n : Option String × String) : List (Option String) :=
  if c.element.hasKey n.2 then valuesOf n c.children else []

/-- The keys of an edit are merged. -/
theorem map_actOf_keysOnly (hc : Leaves c.children) (n : Option String × String) :
    (c.keysOnly.bare.children.filter fun b => b.fullName = n).map actOf =
      (keyValues c n).map fun v => (.merge, v) := by
  rw [children_bare, children_keysOnly, filter_fullName_bare, List.map_map, List.filter_comm,
    keyValues]
  have hkeys : (c.children.filter fun d => d.fullName = n).filter
      (fun d => c.element.hasKey d.element.name) =
        if c.element.hasKey n.2 then c.children.filter fun d => d.fullName = n else [] := by
    have hname : ∀ d ∈ c.children.filter (fun d => d.fullName = n),
        c.element.hasKey d.element.name = c.element.hasKey n.2 := fun d hd => by
      rw [← of_decide_eq_true (List.mem_filter.1 hd).2]
      rfl
    split
    · next hkey =>
      exact List.filter_eq_self.2 fun d hd => (hname d hd).trans hkey
    · next hkey =>
      exact List.filter_eq_nil_iff.2 fun d hd => by rwa [hname d hd]
  rw [hkeys]
  split
  · rw [valuesOf, List.map_map]
    refine List.map_congr_left fun d hd => ?_
    exact actOf_bare (hc d (List.mem_of_mem_filter hd)).2.2
  · rfl

/-- What is taken over of leaves has no ancestors. -/
theorem above_of_mem_excerptsOf (ha : Leaves a.children) (hb : Leaves b.children) :
    ∀ x ∈ excerptsOf (a.listings b), x.above = [] := by
  have hwithin := within_listingsAll a.children b.children
  rw [listings_eq]
  intro x hx
  rcases List.mem_append.1 hx with hx | hx
  · rcases List.mem_append.1 hx with hx | hx
    · obtain ⟨l, hl, rfl⟩ := List.mem_map.1 hx
      exact above_eq_nil ha (hwithin.onlyA l hl)
    · obtain ⟨l, hl, rfl⟩ := List.mem_map.1 hx
      exact above_eq_nil hb (hwithin.onlyB l hl)
  · obtain ⟨l, hl, rfl⟩ := List.mem_map.1 hx
    exact above_eq_nil hb (hwithin.changedB l hl)

/-- Taking over excerpts without ancestors adds their copies. -/
theorem run_copies {xs : List Excerpt} (hxs : ∀ x ∈ xs, x.above = []) (ts : List Branch) :
    Run Excerpt.Placed xs ts (ts ++ xs.map Excerpt.copy) := by
  induction xs generalizing ts with
  | nil =>
    rw [List.map_nil, List.append_nil]
    exact .nil
  | cons x xs ih =>
    obtain ⟨hx, hxs⟩ := List.forall_mem_cons.1 hxs
    have hplaced : x.Placed ts (ts ++ [x.copy]) := by
      unfold Excerpt.Placed
      rw [hx]
      exact .here
    have hrest := ih hxs (ts ++ [x.copy])
    rw [List.append_assoc] at hrest
    exact .cons hplaced hrest

/-- The nodes of the explicit edit of two sides, when its top is made of `c`. -/
def editNodes (a b c : Branch) : List Branch :=
  c.keysOnly.bare.children ++ (excerptsOf (a.listings b)).map Excerpt.copy

/-- The nodes of an edit of leaves are not compared by what is below them. -/
theorem isComposite_of_mem_editNodes (ha : Leaves a.children) (hb : Leaves b.children)
    (hc : Leaves c.children) : ∀ e ∈ editNodes a b c, e.entry.isComposite = false := by
  intro e he
  refine isComposite_of_leaf ?_
  rcases List.mem_append.1 he with he | he
  · rw [children_bare, children_keysOnly] at he
    obtain ⟨d, hd, rfl⟩ := List.mem_map.1 he
    rw [element_bare]
    exact (hc d (List.mem_of_mem_filter hd)).1
  · obtain ⟨x, hx, rfl⟩ := List.mem_map.1 he
    have habove := above_of_mem_excerptsOf ha hb x hx
    rw [listings_eq] at hx
    obtain ⟨o, l, rfl, hl⟩ := exists_of_mem_excerptsOf (within_listingsAll _ _) hx
    have hhead : (excerptOf o l).head = (excerptOf o l).copy := by
      rw [Excerpt.head, habove]
      rfl
    rw [← hhead, (alike_head_excerptOf o l).2]
    exact hl.elim (fun h => (ha l.head h).1) fun h => (hb l.head h).1

/-- What the explicit edit does to the values of a name. -/
theorem map_actOf_editNodes (ha : Leaves a.children) (hb : Leaves b.children)
    (hc : Leaves c.children) (n : Option String × String) :
    ((editNodes a b c).filter fun e => e.fullName = n).map actOf =
      actsFor (keyValues c n) (valuesOf n a.children) (valuesOf n b.children) := by
  rw [editNodes, List.filter_append, List.map_append, map_actOf_keysOnly hc,
    map_actOf_excerptsOf ha hb]
  rfl

end Edit

/-! ## Documents -/

/-- The wire forms of the values of the children of a name, in order. -/
def Tree.leafValues (t : Tree) (id : NodeId) (ns : Option String) (name : String) :
    List (Option String) :=
  ((t.children id).filter fun c => t.ns? c = ns ∧ t.name c = name).map fun c => wire? (t.value? c)

/-- The values of the children are those of the branches below the node. -/
theorem Tree.Forest.leafValues_eq {t : Tree} (h : t.Forest) (id : NodeId) (ns : Option String)
    (name : String) : t.leafValues id ns name = valuesOf (ns, name) (t.content id) := by
  rw [leafValues, valuesOf, content, List.filter_map, List.map_map]
  have hname : (fun b : Branch => decide (b.fullName = (ns, name))) ∘ (fun c => (t.branch c).bare) =
      fun c => decide (t.ns? c = ns ∧ t.name c = name) := by
    funext c
    rw [Function.comp_apply, fullName_bare, fullName, h.element_branch]
    exact decide_eq_decide.2 Prod.mk_inj
  rw [hname]
  refine List.map_congr_left fun c _ => ?_
  rw [Function.comp_apply, element_bare, h.element_branch]
  rfl

/-- Applying an edit with leaves below its top either writes the values of each name, or it fails,
and the values of some name cannot be written. -/
theorem Tree.Forest.apply_leaves {t u : Tree} {r root : NodeId} {f : Element} {es : List Branch}
    (hu : u.Forest) (hroot : root < u.size) (ht : t.Forest)
    (hbranch : (t.branch r).bare = .mk 0 f es) (hmark : f.markText? = none)
    (hmatch : (Branch.mk 0 f es).entry.matchesEntry (u.branch root).entry = true)
    (hes : ∀ e ∈ es, e.entry.isComposite = false) :
    (∃ t', Build.on u (Edit.apply root t r) = (.ok (), t') ∧ ∀ ns name,
      writtenAll ((es.filter fun e => e.fullName = (ns, name)).map actOf)
        (u.leafValues root ns name) = some (t'.leafValues root ns name)) ∨
      (∀ t', Build.on u (Edit.apply root t r) ≠ (.ok (), t')) ∧ ∃ ns name,
        writtenAll ((es.filter fun e => e.fullName = (ns, name)).map actOf)
          (u.leafValues root ns name) = none := by
  simp only [hu.leafValues_eq]
  rcases exists_steps_or_halts hes (u.content root) with
    ⟨zs, hsteps, hwritten⟩ | ⟨hhalts, n, hnone⟩
  · obtain ⟨t', hon, hconf, hcontent⟩ :=
      hu.exists_apply_steps hroot ht hbranch hmark hmatch hsteps
    refine .inl ⟨t', hon, fun ns name => ?_⟩
    rw [hconf.forest.leafValues_eq, hcontent]
    exact hwritten (ns, name)
  · have hfails : Ensures (Edit.apply root t r) u (fun _ _ => False) fun _ => True := by
      refine (hu.ensures_apply ht hbranch hmark hmatch).2
        (ensures_applyAll_of_halts hu hroot ?_)
      have hchildren := congrArg Branch.children hbranch
      rw [children_bare] at hchildren
      rw [hchildren]
      exact hhalts
    refine .inr ⟨fun t' hon => ?_, n.1, n.2, hnone⟩
    unfold Ensures at hfails
    unfold Build.on at hon
    split at hfails
    · exact hfails
    · next herror =>
      rw [herror] at hon
      cases hon

namespace Document

/-- A document of a schema whose top has leaves as its only children, without marks. -/
structure Flat (s : Schema) (d : Document) : Prop where
  /-- The links are those of a forest, as those of all trees that operations make. -/
  forest : d.tree.Forest
  /-- The root exists. -/
  root_lt : d.root < d.tree.size
  /-- The root is the top of its tree. -/
  parent? : d.tree.parent? d.root = none
  /-- The root has the kind that the schema gives. -/
  kind : (d.tree.element d.root).kind =
    s.kindOf (d.tree.element d.root).ns (d.tree.element d.root).name none
  /-- The children are leaves. -/
  leaf : ∀ c ∈ d.tree.children d.root, d.tree.kind c = .leaf
  /-- They have no children. -/
  childless : ∀ c ∈ d.tree.children d.root, d.tree.children c = []
  /-- The document has no marks. -/
  unmarked : (d.tree.branch d.root).Unmarked

/-- The document whose keys the explicit edit of two documents takes over: the first one if
something is deleted, and else the second one. -/
def keySource (d e : Document) : Document :=
  if (d.tree.diff d.root e.tree e.root).onlyA.isEmpty then e else d

/-- The values of a name that the explicit edit of two documents takes over as keys. -/
def takenKeys (d e : Document) (ns : Option String) (name : String) : List (Option String) :=
  let source := d.keySource e
  if (source.tree.element source.root).hasKey name then
    source.tree.leafValues source.root ns name
  else []

/-- Without keys nothing is taken over. -/
theorem takenKeys_eq_nil {d e : Document} (hd : (d.tree.element d.root).kind.keys = [])
    (he : (e.tree.element e.root).kind.keys = []) (ns : Option String) (name : String) :
    d.takenKeys e ns name = [] := by
  have hkeys : ((d.keySource e).tree.element (d.keySource e).root).kind.keys = [] := by
    unfold keySource
    split
    · exact he
    · exact hd
  unfold takenKeys Element.hasKey
  dsimp only
  rw [hkeys]
  exact if_neg Bool.false_ne_true

namespace Flat

variable {s : Schema} {d e : Document}

/-- Below the top are leaves. -/
theorem leaves (hd : d.Flat s) : Leaves (d.tree.branch d.root).children := by
  intro b hb
  have hmark := (all_iff.1 ((all_iff.1 hd.unmarked).2 b hb)).1
  rw [hd.forest.branch_eq, Branch.children] at hb
  obtain ⟨c, hc, rfl⟩ := List.mem_map.1 hb
  refine ⟨?_, ?_, hmark⟩
  · rw [hd.forest.element_branch]
    exact hd.leaf c hc
  · rw [hd.forest.branch_eq, Branch.children, hd.childless c hc, List.map_nil]

/-- The values below the top. -/
theorem leafValues_eq (hd : d.Flat s) (ns : Option String) (name : String) :
    d.tree.leafValues d.root ns name = valuesOf (ns, name) (d.tree.branch d.root).children := by
  rw [hd.forest.leafValues_eq, hd.forest.content_eq, valuesOf_map_bare]

/-- The values that the edit takes over as keys are those of the side that its top is made of. -/
theorem takenKeys_eq (hd : d.Flat s) (he : e.Flat s)
    (hsame : (d.tree.branch d.root).entry.matchesEntry (e.tree.branch e.root).entry = true)
    {c : Branch} (hc : c = if ((d.tree.branch d.root).listings
      (e.tree.branch e.root)).onlyA.isEmpty then e.tree.branch e.root else d.tree.branch d.root)
    (ns : Option String) (name : String) : d.takenKeys e ns name = keyValues c (ns, name) := by
  have honly : (d.tree.diff d.root e.tree e.root).onlyA.isEmpty =
      ((d.tree.branch d.root).listings (e.tree.branch e.root)).onlyA.isEmpty := by
    rw [Tree.diff, diff_eq_slots hsame]
    exact List.isEmpty_map
  unfold takenKeys keySource keyValues
  rw [honly, hc]
  split
  · rw [he.forest.element_branch, ← he.leafValues_eq]
  · rw [hd.forest.element_branch, ← hd.leafValues_eq]

/-- The side that the top of an edit is made of, and the nodes below it. -/
theorem exists_explicitEdit (hd : d.Flat s) (he : e.Flat s)
    (hmatch : (d.tree.branch d.root).entry.matchesEntry (e.tree.branch e.root).entry = true) :
    ∃ edit, d.tree.explicitEdit d.root e.tree e.root = .ok edit ∧ ∀ i, edit = some i →
      i.tree.Forest ∧ ∃ c, (c = if ((d.tree.branch d.root).listings
          (e.tree.branch e.root)).onlyA.isEmpty then e.tree.branch e.root
        else d.tree.branch d.root) ∧
        (i.tree.branch i.root).bare =
          .mk 0 c.element (editNodes (d.tree.branch d.root) (e.tree.branch e.root) c) ∧
        Skeleton c (editNodes (d.tree.branch d.root) (e.tree.branch e.root) c) := by
  have hkind := hd.forest.kind_eq_of_matches he.forest hd.kind he.kind hmatch
  obtain ⟨root₁, root₂, root, hxs, hys, hzs, hend⟩ := exists_grown hkind hmatch
    (P := fun c es => es = editNodes (d.tree.branch d.root) (e.tree.branch e.root) c)
    (fun c hc => harmless_of_matches hkind hmatch hc)
    fun c _ => ⟨_, run_copies (above_of_mem_excerptsOf hd.leaves he.leaves) _, rfl⟩
  obtain ⟨edit, hedit, hmade⟩ :=
    hd.forest.exists_explicitEdit he.forest hd.parent? he.parent? hmatch hxs hys hzs
  refine ⟨edit, hedit, ?_⟩
  rintro i rfl
  rcases hmade with ⟨-, hnone⟩ | ⟨t, r, hsome, hforest, hroot⟩
  · cases hnone
  obtain rfl := Option.some.inj hsome
  rcases hend with ⟨rfl, -⟩ | ⟨c, es, hside, rfl, hskeleton, rfl⟩
  · cases hroot
  exact ⟨hforest, c, hside, (Option.some.inj hroot).symm, hskeleton⟩

/-- The explicit edit of two documents with the same top and leaves below it is made without
failing. Applying it to the first document succeeds and leaves the values of the second one, in
whatever order, exactly when the values of every name are settled. -/
theorem explicitEdit_settles_iff (hd : d.Flat s) (he : e.Flat s)
    (hsame : d.tree.compare d.root e.tree e.root ≠ .different) :
    ∃ edit, d.tree.explicitEdit d.root e.tree e.root = .ok edit ∧ ∀ i, edit = some i →
      ((∃ t', Build.on d.tree (Edit.apply d.root i.tree i.root) = (.ok (), t') ∧
          ∀ ns name, (t'.leafValues d.root ns name).Perm (e.tree.leafValues e.root ns name)) ↔
        ∀ ns name, Settles (d.takenKeys e ns name) (d.tree.leafValues d.root ns name)
          (e.tree.leafValues e.root ns name)) := by
  have hmatch : (d.tree.branch d.root).entry.matchesEntry (e.tree.branch e.root).entry = true := by
    rw [hd.forest.entry_branch, he.forest.entry_branch]
    exact bne_iff_ne.2 hsame
  have hkind := hd.forest.kind_eq_of_matches he.forest hd.kind he.kind hmatch
  obtain ⟨edit, hedit, hmade⟩ := hd.exists_explicitEdit he hmatch
  refine ⟨edit, hedit, fun i hi => ?_⟩
  obtain ⟨hforest, c, hside, hbranch, hskeleton⟩ := hmade i hi
  -- what holds of the tops of both documents holds of the top of the edit
  obtain ⟨hc, hleaves, hmark⟩ : (c = d.tree.branch d.root ∨ c = e.tree.branch e.root) ∧
      Leaves c.children ∧ c.element.markText? = none := by
    rw [hside]
    split
    · exact ⟨.inr rfl, he.leaves, (all_iff.1 he.unmarked).1⟩
    · exact ⟨.inl rfl, hd.leaves, (all_iff.1 hd.unmarked).1⟩
  have hmatches := matches_of_skeleton hkind hmatch hc hskeleton
  have hsettles : ∀ ns name, Settles (d.takenKeys e ns name) (d.tree.leafValues d.root ns name)
      (e.tree.leafValues e.root ns name) ↔
        ∃ vs, writtenAll (((editNodes (d.tree.branch d.root) (e.tree.branch e.root) c).filter
            fun b => b.fullName = (ns, name)).map actOf) (d.tree.leafValues d.root ns name) =
              some vs ∧ vs.Perm (e.tree.leafValues e.root ns name) := by
    intro ns name
    rw [hd.takenKeys_eq he hmatch hside, settles_iff,
      map_actOf_editNodes hd.leaves he.leaves hleaves, hd.leafValues_eq, he.leafValues_eq]
  simp only [hsettles]
  rcases hd.forest.apply_leaves hd.root_lt hforest hbranch hmark hmatches
    (isComposite_of_mem_editNodes hd.leaves he.leaves hleaves) with
    ⟨t', hon, hwritten⟩ | ⟨hfails, ns, name, hnone⟩
  · constructor
    · rintro ⟨u, hu, hperm⟩ ns name
      obtain rfl : t' = u := congrArg Prod.snd (hon.symm.trans hu)
      exact ⟨_, hwritten ns name, hperm ns name⟩
    · intro hall
      refine ⟨t', hon, fun ns name => ?_⟩
      obtain ⟨vs, hvs, hperm⟩ := hall ns name
      obtain rfl := Option.some.inj ((hwritten ns name).symm.trans hvs)
      exact hperm
  · constructor
    · rintro ⟨u, hu, -⟩
      exact absurd hu (hfails u)
    · intro hall
      obtain ⟨vs, hvs, -⟩ := hall ns name
      cases hnone.symm.trans hvs

end Flat

end Document

/-! ## Name servers -/

/-- The schema of a host with a list of name servers. -/
def resolverSchema : Schema :=
  ({} : Schema).register ⟨"urn:h", "host", .container { children := ["dns"] }⟩

/-- A host with the name servers at some addresses. -/
def resolver (servers : List String) : Document :=
  let e : Element :=
    { ns := some "urn:h", name := "host", bindings := ⟨[⟨"", "urn:h"⟩]⟩,
      kind := resolverSchema.kindOf (some "urn:h") "host" none }
  ⟨((Tree.empty (.standard 0)).addCopy (.mk 0 e (servers.map fun v => .mk 0
    { ns := some "urn:h", name := "dns", value := some (.text v), kind := .leaf } []))).1, 0⟩

/-- Such hosts are flat. -/
theorem flat_resolver (servers : List String) (h : servers ∈ [["a", "b"], ["a"], ["b"]]) :
    (resolver servers).Flat resolverSchema := by
  have hforest : (resolver servers).tree.Forest := (forest_empty _).addCopy _
  simp only [List.mem_cons, List.not_mem_nil, or_false] at h
  rcases h with rfl | rfl | rfl
  all_goals exact ⟨hforest, by decide +kernel, by decide +kernel, by decide +kernel,
    by decide +kernel, by decide +kernel, by decide +kernel⟩

/-- A host has values for name servers only. -/
theorem leafValues_resolver {servers : List String} {ns : Option String} {name : String}
    (hnames : ∀ c ∈ (resolver servers).tree.children (resolver servers).root,
      (resolver servers).tree.ns? c = some "urn:h" ∧ (resolver servers).tree.name c = "dns")
    (hne : ¬ (ns = some "urn:h" ∧ name = "dns")) :
    (resolver servers).tree.leafValues (resolver servers).root ns name = [] := by
  rw [Tree.leafValues, List.filter_eq_nil_iff.2, List.map_nil]
  intro c hc hname
  obtain ⟨hns, hname'⟩ := of_decide_eq_true hname
  exact hne ⟨hns.symm.trans (hnames c hc).1, hname'.symm.trans (hnames c hc).2⟩

namespace Document.Flat

/-- When the first of two name servers goes, the edit brings the remaining value about, although
the places do not correspond. When the second one goes, it does not. -/
theorem explicitEdit_settles_iff_resolver :
    (∃ i t', (resolver ["a", "b"]).tree.explicitEdit 0 (resolver ["b"]).tree 0 = .ok (some i) ∧
      Build.on (resolver ["a", "b"]).tree (Edit.apply 0 i.tree i.root) = (.ok (), t') ∧
      ∀ ns name, (t'.leafValues 0 ns name).Perm ((resolver ["b"]).tree.leafValues 0 ns name)) ∧
    ∃ i, (resolver ["a", "b"]).tree.explicitEdit 0 (resolver ["a"]).tree 0 = .ok (some i) ∧
      ¬ ∃ t', Build.on (resolver ["a", "b"]).tree (Edit.apply 0 i.tree i.root) = (.ok (), t') ∧
        ∀ ns name, (t'.leafValues 0 ns name).Perm
          ((resolver ["a"]).tree.leafValues 0 ns name) := by
  constructor
  · obtain ⟨edit, hedit, hiff⟩ := explicitEdit_settles_iff (flat_resolver ["a", "b"] (by simp))
      (flat_resolver ["b"] (by simp)) (by decide +kernel)
    obtain ⟨i, hi⟩ : ∃ i, (resolver ["a", "b"]).tree.explicitEdit 0 (resolver ["b"]).tree 0 =
      .ok (some i) := ⟨_, rfl⟩
    obtain ⟨t', hon, hperm⟩ := (hiff i (Except.ok.inj (hedit.symm.trans hi))).2 fun ns name => by
      rw [takenKeys_eq_nil (by decide +kernel) (by decide +kernel)]
      by_cases hdns : ns = some "urn:h" ∧ name = "dns"
      · rw [hdns.1, hdns.2]
        decide +kernel
      · rw [leafValues_resolver (by decide +kernel) hdns,
          leafValues_resolver (by decide +kernel) hdns]
        exact settles_of_single (Nat.zero_le 1) (Nat.zero_le 1)
    exact ⟨i, t', hi, hon, hperm⟩
  · obtain ⟨edit, hedit, hiff⟩ := explicitEdit_settles_iff (flat_resolver ["a", "b"] (by simp))
      (flat_resolver ["a"] (by simp)) (by decide +kernel)
    obtain ⟨i, hi⟩ : ∃ i, (resolver ["a", "b"]).tree.explicitEdit 0 (resolver ["a"]).tree 0 =
      .ok (some i) := ⟨_, rfl⟩
    refine ⟨i, hi, fun h => ?_⟩
    have hsettled := (hiff i (Except.ok.inj (hedit.symm.trans hi))).1 h (some "urn:h") "dns"
    exact absurd hsettled (by decide +kernel)

/-- An explicit edit keeps the wrong value: the edit that is to delete the second of two name
servers is made and applied, and the first one is gone. -/
theorem explicitEdit_misplaces :
    Xml.parse (.standard 0) (some resolverSchema)
        "<host xmlns=\"urn:h\"><dns>a</dns><dns>b</dns></host>" = .ok (resolver ["a", "b"]) ∧
      Xml.parse (.standard 0) (some resolverSchema)
        "<host xmlns=\"urn:h\"><dns>a</dns></host>" = .ok (resolver ["a"]) ∧
      (resolver ["a", "b"]).Flat resolverSchema ∧ (resolver ["a"]).Flat resolverSchema ∧
      (resolver ["a", "b"]).tree.compare 0 (resolver ["a"]).tree 0 = .changed ∧
      ∃ i t', (resolver ["a", "b"]).tree.explicitEdit 0 (resolver ["a"]).tree 0 = .ok (some i) ∧
        Build.on (resolver ["a", "b"]).tree (Edit.apply 0 i.tree i.root) = (.ok (), t') ∧
        t'.leafValues 0 (some "urn:h") "dns" = [some "b"] ∧
        ¬ (t'.leafValues 0 (some "urn:h") "dns").Perm
          ((resolver ["a"]).tree.leafValues 0 (some "urn:h") "dns") := by
  refine ⟨rfl, rfl, flat_resolver _ (by simp), flat_resolver _ (by simp), by decide +kernel, ?_⟩
  exact ⟨_, _, rfl, rfl, by decide +kernel, by decide +kernel⟩

end Document.Flat

end Netconf
