import Mathlib.Data.List.Chain
import Netconf.Edit.Excerpt
import Netconf.Proofs.Edit.Skeletons
import Netconf.Proofs.Tree.Duplicates
import Netconf.Proofs.Tree.Sprouts

/-!
# Where a node is taken over to

Taking a node over into a tree adds one copy at the place that mirrors its own, and nothing else.
`Excerpted` says this slot by slot: a way leads down from the root through nodes that are named like
the ancestors of the node, and ends at a new node, which is the node with its mark; all old slots
are as they were, but for one that may have one child more. Taking over fails only if the root is
not the same node as the topmost ancestor, and then before anything is made
(`Forest.excerptInto_places`).
-/

namespace Netconf.Tree

open Build Edit Branch

variable {t t' t'' src : Tree}

/-- The namespace and the name of a node. -/
def fullName (t : Tree) (id : NodeId) : Option String × String := (t.ns? id, t.name id)

/-- Nodes that stand one below the other, each the parent of the next one. -/
def Way (t : Tree) (way : List NodeId) : Prop := way.IsChain fun p c => t.parent? c = some p

/-- A node that carries the same has the same name. -/
theorem fullName_congr {x y : NodeId} (h : t'.element x = t.element y) :
    t'.fullName x = t.fullName y := by
  unfold fullName ns? name
  rw [h]

/-- Nodes of one name. -/
theorem fullName_of_sameName {x y : NodeId}
    (h : (t.element x).sameName (t'.element y) = true) : t.fullName x = t'.fullName y := by
  obtain ⟨hname, hns⟩ := Element.sameName_iff.1 h
  exact Prod.ext hns hname

/-! ## Ways -/

/-- All nodes of a way are above the last one. -/
theorem Way.above {last : NodeId} {way : List NodeId} (hw : t.Way way)
    (hlast : way.getLast? = some last) : ∀ x ∈ way, t.Above x last := by
  induction way with
  | nil => simp
  | cons p way ih =>
    cases way with
    | nil =>
      obtain rfl : p = last := by simpa using hlast
      intro x hx
      rw [List.mem_singleton.1 hx]
      exact .refl
    | cons c way =>
      obtain ⟨hp, hw⟩ := List.isChain_cons_cons.1 hw
      rw [List.getLast?_cons_cons] at hlast
      have hbelow := ih hw hlast
      intro x hx
      rcases List.mem_cons.1 hx with rfl | hx
      · exact Above.trans (.step hp .refl) (hbelow c (by simp))
      · exact hbelow x hx

/-- A way through old nodes, with the parents that they had. -/
theorem Way.congr {way : List NodeId} (hw : t.Way way)
    (hsame : ∀ x ∈ way, t'.parent? x = t.parent? x) : t'.Way way := by
  refine List.IsChain.imp_of_mem_imp ?_ hw
  intro p c _ hc hp
  rw [hsame c hc]
  exact hp

/-- A way with one more node at its end. -/
theorem Way.concat {way : List NodeId} {p c : NodeId} (hw : t.Way way)
    (hlast : way.getLast? = some p) (hc : t.parent? c = some p) : t.Way (way ++ [c]) := by
  refine List.isChain_append.2 ⟨hw, List.isChain_singleton c, ?_⟩
  intro x hx y hy
  rw [hlast] at hx
  cases hx
  cases hy
  exact hc

/-- The ancestors of a node are those of its parent, and the node. -/
theorem Forest.ancestry_eq (h : t.Forest) (id : NodeId) :
    t.ancestry id = (t.parent? id).elim [] t.ancestry ++ [id] := by
  rw [ancestry, h.upward_eq, List.reverse_cons]
  cases t.parent? id <;> rfl

/-- The ancestors of a node start with the topmost one. -/
theorem ancestry_eq_cons (t : Tree) (id : NodeId) :
    t.ancestry id = t.topOf id :: (t.ancestry id).tail := by
  have hne : t.upward id ≠ [] := by
    unfold upward
    cases t.size <;> unfold upwardFor
    · simp
    · split <;> simp
  have hlast : t.upward id = (t.upward id).dropLast ++ [t.topOf id] := by
    rw [topOf, List.getLastD_eq_getLast?, List.getLast?_eq_some_getLast hne, Option.getD_some,
      List.dropLast_append_getLast]
  rw [ancestry, hlast, List.reverse_append, List.reverse_singleton]
  rfl

/-- Nothing is above a node without parent. -/
theorem Forest.ancestry_of_alone (h : t.Forest) {id : NodeId} (hp : t.parent? id = none) :
    t.ancestry id = [id] := by
  rw [h.ancestry_eq, hp]
  rfl

/-- Below the topmost ancestor of a node are the same nodes as for its parent, and the node. -/
theorem Forest.tail_ancestry (h : t.Forest) {p id : NodeId} (hp : t.parent? id = some p) :
    (t.ancestry id).tail = (t.ancestry p).tail ++ [id] := by
  rw [h.ancestry_eq id, hp, Option.elim_some, t.ancestry_eq_cons p]
  rfl

/-- The ancestors of a node and the node are a way. -/
theorem Forest.way_ancestry (h : t.Forest) (id : NodeId) : t.Way (t.ancestry id) := by
  induction id using h.acyclic.induction with
  | _ id ih =>
    rw [h.ancestry_eq]
    cases hp : t.parent? id with
    | none => exact List.isChain_singleton id
    | some p =>
      refine (ih p hp).concat ?_ hp
      rw [h.ancestry_eq, List.getLast?_concat]

/-! ## Putting a copy into its place -/

/-- The new slots hold a copy of the branch `b`, and its top `copy` stands alone. -/
structure Laid (t : Tree) (b : Branch) (copy : NodeId) (t' : Tree) : Prop where
  /-- No old node has a new child. -/
  sprouts : t.Sprouts nowhere t'
  /-- The copy is one. -/
  copied : t.Copied b copy t'
  /-- What is new belongs to the copy. -/
  above : ∀ x : Nat, t.size ≤ x → x < t'.size → t'.Above copy x

/-- The new slots hold a copy of the branch `b`, and its top `copy` is the last child of the old
node `p`. -/
structure Attached (t : Tree) (b : Branch) (p copy : NodeId) (t' : Tree) : Prop where
  /-- No other old node has a new child. -/
  sprouts : t.Sprouts (only p [copy]) t'
  /-- The copy is in a new slot. -/
  size_le : t.size ≤ copy
  /-- It is below its place. -/
  parent? : t'.parent? copy = some p
  /-- The branch at the copy is the one that was copied. -/
  branch : (t'.branch copy).bare = b.bare
  /-- What is new belongs to the copy. -/
  above : ∀ x : Nat, t.size ≤ x → x < t'.size → t'.Above copy x

/-- What is above a node depends on the parents only. -/
theorem Above.congr {a x : Nat} (ha : t.Above a x)
    (hparent : ∀ y : NodeId, t'.parent? y = t.parent? y) : t'.Above a x := by
  induction ha with
  | refl => exact .refl
  | step hp _ ih => exact .step ((hparent _).trans hp) ih

/-- Copying a branch lays it out. -/
theorem Forest.laid_addCopy (h : t.Forest) (b : Branch) :
    t.Laid b (t.addCopy b).2 (t.addCopy b).1 where
  sprouts := by
    have hkeeps := h.keeps_addCopy b
    refine ⟨hkeeps.forest, hkeeps.size_le, hkeeps.element, hkeeps.parent?, fun x hx => ?_, rfl⟩
    rw [hkeeps.children x hx, nowhere_apply, List.append_nil]
  copied := h.copied b
  above x hx hlt := by
    have hdup := h.duplicated_addCopy b
    rw [hdup.size] at hlt
    rw [← hdup.forest.mem_ids_branch, hdup.ids, List.mem_range'_1]
    exact ⟨hx, hlt⟩

/-- The top of what was laid out may be changed. -/
theorem Laid.modifyElement {b : Branch} {copy : NodeId} (hb : t.Laid b copy t')
    (f : Element → Element) :
    t.Laid (.mk b.id (f b.element) b.children) copy (t'.modifyElement copy f) where
  sprouts := hb.sprouts.modifyElement hb.copied.size_le f
  copied := hb.copied.modifyElement f
  above x hx hlt := by
    rw [size_modifyElement] at hlt
    exact (hb.above x hx hlt).congr fun y => parent?_modifyElement ..

/-- A node with its mark, as it is taken over: with all that is below it, or with its keys only if
it is to be deleted. -/
def markedBranch (src : Tree) (id : NodeId) (o : Operation) : Branch :=
  marked o (if o = .delete then src.keyedBranch id else src.branch id)

/-- It has the top of the node, with the mark. -/
theorem Forest.element_markedBranch (hs : src.Forest) (id : NodeId) (o : Operation) :
    (src.markedBranch id o).element = (src.element id).mark o := by
  unfold markedBranch marked
  split
  · rfl
  · rw [Branch.element, hs.element_branch]

/-- The copy that an edit needs is laid out with its mark. -/
theorem Forest.ensures_addMarkedCopy (h : t.Forest) (hs : src.Forest) (id : NodeId)
    (o : Operation) :
    Ensures (src.addMarkedCopy id o) t (fun copy t' => t.Laid (src.markedBranch id o) copy t')
      fun _ => False := by
  have hbranch : src.markedBranch id o = marked o (src.branchFor id o) := by
    unfold markedBranch branchFor
    rw [hs.keysOnly_branch]
  rw [hbranch]
  unfold addMarkedCopy
  refine ensures_bind.2 (ensures_change.2 (ensures_bind.2 (ensures_modifyElement.2 ?_)))
  exact ensures_pure.2 ((h.laid_addCopy (src.branchFor id o)).modifyElement fun e => e.mark o)

/-- What was laid out is put below an old node. -/
theorem Laid.ensures_append {b : Branch} {p copy : NodeId} (hb : t.Laid b copy t')
    (h : t.Forest) (hp : p < t.size) :
    Ensures (Build.append p copy) t' (fun _ t'' => t.Attached b p copy t'') fun _ => False := by
  have hs := hb.sprouts
  have hc := hb.copied
  have hnot := hs.not_above h hc.size_le hp
  refine (hs.forest.ensures_append (hs.lt hp) hc.lt_size hc.alone hnot).mono ?_ fun _ => False.elim
  rintro _ t'' ⟨hforest, hsize, helement, hparent, hchildren, hdefaults⟩
  have hnew : ∀ x < t.size, x ≠ copy := fun x hx =>
    Nat.ne_of_lt (Nat.lt_of_lt_of_le hx hc.size_le)
  -- the place is not below the copy, so the branch of the copy is as it was
  have hbranch : t''.branch copy = t'.branch copy := by
    refine hs.forest.branch_congr hforest fun x hx => ⟨helement x, ?_⟩
    rw [hchildren, only_of_ne, List.append_nil]
    rintro rfl
    exact hnot hx
  refine ⟨⟨hforest, ?_, fun x hx => ?_, fun x hx => ?_, fun x hx => ?_, ?_⟩, hc.size_le, ?_, ?_,
    fun x hx hlt => ?_⟩
  · rw [hsize]; exact hs.size_le
  · rw [helement, hs.element x hx]
  · rw [hparent, if_neg (hnew x hx), hs.parent? x hx]
  · rw [hchildren, hs.children x hx, nowhere_apply, List.append_nil]
  · rw [hdefaults, hs.defaults]
  · rw [hparent, if_pos rfl]
  · rw [hbranch, hc.branch]
  · rw [← hforest.mem_ids_branch, hbranch, hs.forest.mem_ids_branch]
    exact hb.above x hx (hsize ▸ hlt)

/-- A node whose branch is a copy carries what the top of the copied branch does. -/
theorem Forest.element_of_branch (h : t.Forest) {x : NodeId} {b : Branch}
    (hb : (t.branch x).bare = b.bare) : t.element x = b.element := by
  rw [← h.element_branch, ← Branch.element_bare, hb, Branch.element_bare]

/-- More new children, of nodes that are new already. -/
theorem Sprouts.trans_of_new {new : NodeId → List NodeId} {p : NodeId} {heads : List NodeId}
    (hs : t.Sprouts new t') (hs' : t'.Sprouts (only p heads) t'') (hp : t.size ≤ p) :
    t.Sprouts new t'' := by
  refine (hs.trans hs').congr fun x hx => ?_
  rw [only_of_ne _ (by rintro rfl; omega), List.append_nil]

/-- What two changes add is below a node, if what each of them adds is. -/
theorem Sprouts.above_of_new {new : NodeId → List NodeId} {a x : Nat} (hs : t'.Sprouts new t'')
    (h : t'.Forest) (hfirst : ∀ x : Nat, t.size ≤ x → x < t'.size → t'.Above a x)
    (hthen : ∀ x : Nat, t'.size ≤ x → x < t''.size → t''.Above a x)
    (hx : t.size ≤ x) (hlt : x < t''.size) : t''.Above a x := by
  by_cases hx' : x < t'.size
  · exact hs.keeps_above h hx' (hfirst x hx hx')
  · exact hthen x (Nat.not_lt.1 hx') hlt

/-! ## The way down -/

/-- Where the search for the way down along the nodes `ids` of the source leads: to a place below
`parent` on a way of that shape. If the way ends at a new node, one old node has a new child. -/
structure Reached (src : Tree) (ids : List NodeId) (t : Tree) (parent place : NodeId)
    (t' : Tree) : Prop where
  /-- The place exists. -/
  lt : place < t'.size
  /-- The nodes on the way are named like those of the source. -/
  way : ∃ way, t'.Way (parent :: way) ∧ (parent :: way).getLast? = some place ∧
    way.map t'.fullName = ids.map src.fullName
  /-- At most one old node has a child more. If the place is old, that is the node, and it has no
  new child yet. -/
  sprouts : ∃ p heads, t.Above parent p ∧ heads.length ≤ 1 ∧ t.Sprouts (only p heads) t' ∧
    (place < t.size → p = place ∧ heads = [])
  /-- What is new is below `parent`. -/
  above : ∀ x : Nat, t.size ≤ x → x < t'.size → t'.Above parent x

/-- The way down leads through a forest. -/
theorem Reached.forest {parent place : NodeId} {ids : List NodeId}
    (hr : Reached src ids t parent place t') : t'.Forest := by
  obtain ⟨_, _, -, -, hs, -⟩ := hr.sprouts
  exact hs.forest

/-- One step down to an old child. -/
theorem Reached.of_child {parent c place id : NodeId} {ids : List NodeId}
    (hr : Reached src ids t c place t') (h : t.Forest) (hc : c ∈ t.children parent)
    (hname : t.fullName c = src.fullName id) : Reached src (id :: ids) t parent place t' := by
  obtain ⟨hlt, ⟨way, hway, hlast, hnames⟩, ⟨p, heads, hp, hheads, hs, hold⟩, habove⟩ := hr
  have hclt := h.child_lt hc
  have hparent := h.mem_children_iff.1 hc
  have hparent' := (hs.parent? c hclt).trans hparent
  refine ⟨hlt, ⟨c :: way, ?_, hlast, ?_⟩,
    ⟨p, heads, Above.trans (.step hparent .refl) hp, hheads, hs, hold⟩,
    fun x hx hlt => Above.trans (.step hparent' .refl) (habove x hx hlt)⟩
  · exact List.isChain_cons_cons.2 ⟨hparent', hway⟩
  · rw [List.map_cons, List.map_cons, hnames, ← hname, fullName_congr (hs.element c hclt)]

/-- One step down to a new child. -/
theorem Reached.of_made {parent c place id : NodeId} {ids : List NodeId}
    {b : Branch} (hr : Reached src ids t' c place t'') (h : t.Forest) (ha : t.Attached b parent c t')
    (hname : t'.fullName c = src.fullName id) : Reached src (id :: ids) t parent place t'' := by
  obtain ⟨hlt, ⟨way, hway, hlast, hnames⟩, ⟨p, heads, hp, hheads, hs', hold⟩, habove⟩ := hr
  have hs := ha.sprouts
  have hclt := lt_size_of_parent? ha.parent?
  -- from the new child on, children are only added to what is new
  have hpnew : t.size ≤ p := Nat.not_lt.1 fun hlt => hs.not_above h ha.size_le hlt hp
  have hall := hs.trans_of_new hs' hpnew
  have hplace : t.size ≤ place := Nat.not_lt.1 fun hlt =>
    hall.not_above h ha.size_le hlt (hway.above hlast c (by simp))
  have hparent := (hs'.parent? c hclt).trans ha.parent?
  refine ⟨hlt, ⟨c :: way, ?_, hlast, ?_⟩,
    ⟨parent, [c], .refl, by simp, hall, fun hlt => absurd hlt (Nat.not_lt.2 hplace)⟩,
    fun x hx hlt => Above.trans (.step hparent .refl) ?_⟩
  · exact List.isChain_cons_cons.2 ⟨hparent, hway⟩
  · rw [List.map_cons, List.map_cons, hnames, ← hname, fullName_congr (hs'.element c hclt)]
  · exact hs'.above_of_new hs.forest ha.above habove hx hlt

/-- The way down is always found or made. -/
theorem Forest.ensures_descend (h : t.Forest) (hs : src.Forest) {ids : List NodeId}
    {parent : NodeId} (hparent : parent < t.size) :
    Ensures (src.descend ids parent) t (fun place t' => Reached src ids t parent place t')
      fun _ => False := by
  induction ids generalizing t parent with
  | nil =>
    refine ensures_pure.2 ⟨hparent, ⟨[], ?_⟩, ⟨parent, [], .refl, by simp, ?_, by simp⟩,
      fun x hx hlt => by omega⟩
    · exact ⟨List.isChain_singleton parent, rfl, rfl⟩
    · exact h.sprouts.congr fun x _ => by simp [only]
  | cons id ids ih =>
    refine ensures_bind.2 (ensures_get.2 ?_)
    cases hfind : src.sameChild? id t parent with
    | some c =>
      -- the child that was found is named like the ancestor
      rw [sameChild?_eq] at hfind
      have hc := List.mem_of_find?_eq_some hfind
      have hmatch := List.find?_some (p := fun c => (src.entry id).matchesEntry (t.entry c)) hfind
      refine (ih h (h.child_lt hc)).mono (fun place t' hr => ?_) fun _ => False.elim
      exact hr.of_child h hc (fullName_of_sameName (Entry.sameName_of_matches hmatch)).symm
    | none =>
      -- the child that is made has the top of the ancestor
      refine ensures_bind.2 (ensures_change.2 (ensures_bind.2 ?_))
      refine ((h.laid_addCopy (src.branch id).keysOnly).ensures_append h hparent).mono ?_
        fun _ => False.elim
      intro _ t₁ ha
      have h₁ := ha.sprouts.forest
      refine (ih h₁ (lt_size_of_parent? ha.parent?)).mono (fun place t' hr => ?_) fun _ => False.elim
      refine hr.of_made h ha (fullName_congr ?_)
      rw [h₁.element_of_branch ha.branch, Branch.element_keysOnly, hs.element_branch]

/-! ## The copy in its place -/

/-- The node `id` of the source was taken over into `t` and is the node `copy` below `root` now. -/
structure Excerpted (src : Tree) (id : NodeId) (o : Operation) (t : Tree) (root copy : NodeId)
    (t' : Tree) : Prop where
  /-- At most one old node has one child more, and nothing else of the old nodes has changed. -/
  sprouts : ∃ p heads, t.Above root p ∧ heads.length ≤ 1 ∧ t.Sprouts (only p heads) t'
  /-- The way from the root to the copy is that of the node from its topmost ancestor. -/
  way : ∃ way, t'.Way way ∧ way.head? = some root ∧ way.getLast? = some copy ∧
    way.map t'.fullName = (src.ancestry id).map src.fullName
  /-- The copy is a new node. -/
  new : t.size ≤ copy ∧ copy < t'.size
  /-- Its mark is that of the operation. -/
  mark : t'.markText? copy = some o.name
  /-- It is the node that was taken over. -/
  branch : (t'.branch copy).bare = (src.markedBranch id o).bare
  /-- What is new is below the root. -/
  above : ∀ x : Nat, t.size ≤ x → x < t'.size → t'.Above root x

/-- With the marked copy at the place that was reached, the node is taken over. -/
theorem Reached.excerpted {p root place copy id : NodeId} {o : Operation}
    (hr : Reached src (src.ancestry p).tail t root place t') (hs : src.Forest)
    (hp : src.parent? id = some p) (ha : t'.Attached (src.markedBranch id o) place copy t'')
    (hroot : t'.fullName root = src.fullName (src.topOf p)) :
    Excerpted src id o t root copy t'' := by
  obtain ⟨hlt, ⟨way, hway, hlast, hnames⟩, ⟨p', heads, hp', hheads, hst, hold⟩, hbefore⟩ := hr
  obtain ⟨hs₂, hcopynew, hparent, hbranch, habove⟩ := ha
  have h' := hst.forest
  have hnew : t.size ≤ copy := Nat.le_trans hst.size_le hcopynew
  have helement := hs₂.forest.element_of_branch hbranch
  rw [hs.element_markedBranch] at helement
  have hin : ∀ x ∈ root :: way, x < t'.size := fun x hx =>
    h'.lt_size_of_above hlt (hway.above hlast x hx)
  have hway₂ : t''.Way ((root :: way) ++ [copy]) :=
    (hway.congr fun x hx => hs₂.parent? x (hin x hx)).concat hlast hparent
  refine ⟨?_, ⟨(root :: way) ++ [copy], hway₂, rfl, List.getLast?_concat, ?_⟩,
    ⟨hnew, lt_size_of_parent? hparent⟩, ?_, hbranch, fun x hx hlt => ?_⟩
  · -- at an old place the copy is the one new child; a new place is below one already
    by_cases hplace : place < t.size
    · obtain ⟨rfl, rfl⟩ := hold hplace
      exact ⟨p', [copy], hp', by simp, (hst.trans hs₂).congr fun x _ => by simp [only]⟩
    · exact ⟨p', heads, hp', hheads, hst.trans_of_new hs₂ (Nat.not_lt.1 hplace)⟩
  · have hcopyname : t''.fullName copy = src.fullName id := by
      unfold fullName ns? name
      rw [helement, Element.mark_eq]
    rw [hs.ancestry_eq id, hp, Option.elim_some, src.ancestry_eq_cons p, List.map_append,
      List.map_congr_left fun x hx => fullName_congr (hs₂.element x (hin x hx)), List.map_cons,
      hroot, hnames, List.map_append]
    simp [hcopyname]
  · rw [markText?, helement, Element.markText?_mark]
  · have hcopy := hway₂.above List.getLast?_concat root (by simp)
    exact hs₂.above_of_new h' hbefore (fun y hy hlt => hcopy.trans (habove y hy hlt)) hx hlt

/-- A copy goes below a root by the way down to its place, and the marked copy there. -/
theorem Forest.ensures_excerptBelow_of_descend (hs : src.Forest) {p root id : NodeId}
    (hp : src.parent? id = some p) (o : Operation) {reached : NodeId → Tree → Prop}
    (hdescend : Ensures (src.descend (src.ancestry p).tail root) t reached fun _ => False)
    (hplace : ∀ place t', reached place t' → t'.Forest ∧ place < t'.size) :
    Ensures (src.excerptBelow (src.ancestry id).tail o root) t
      (fun r t'' => r = root ∧ ∃ place t' copy, reached place t' ∧
        t'.Attached (src.markedBranch id o) place copy t'') fun _ => False := by
  unfold excerptBelow
  rw [hs.tail_ancestry hp, List.getLast?_concat, List.dropLast_concat]
  refine hdescend.bind fun place t₁ hreached => ?_
  obtain ⟨h₁, hlt⟩ := hplace place t₁ hreached
  refine (h₁.ensures_addMarkedCopy hs id o).bind fun copy t₂ hlaid => ?_
  refine (hlaid.ensures_append h₁ hlt).bind fun _ t₃ hattached => ?_
  exact ensures_pure.2 ⟨rfl, place, t₁, copy, hreached, hattached⟩

/-- Below a root that is named like the topmost ancestor, a node is always taken over. -/
theorem Forest.ensures_excerptBelow {p root id : NodeId} (h : t.Forest) (hs : src.Forest)
    (hp : src.parent? id = some p) (hlt : root < t.size)
    (hroot : t.fullName root = src.fullName (src.topOf p)) (o : Operation) :
    Ensures (src.excerptBelow (src.ancestry id).tail o root) t
      (fun r t' => r = root ∧ ∃ copy, Excerpted src id o t root copy t') fun _ => False := by
  refine (hs.ensures_excerptBelow_of_descend hp o (h.ensures_descend hs hlt) fun _ _ hr =>
    ⟨hr.forest, hr.lt⟩).mono ?_ fun _ => False.elim
  rintro r t'' ⟨rfl, place, t', copy, hr, ha⟩
  obtain ⟨_, _, -, -, hst, -⟩ := hr.sprouts
  have hname := (fullName_congr (hst.element r hlt)).trans hroot
  exact ⟨rfl, copy, hr.excerpted hs hp ha hname⟩

/-- What was there before the root was made has not changed at all. -/
theorem Excerpted.of_made {root copy id : NodeId} {o : Operation}
    {b : Branch} (he : Excerpted src id o t' root copy t'') (h : t.Forest)
    (hlaid : t.Laid b root t') : Excerpted src id o t root copy t'' := by
  obtain ⟨hs, ⟨-, hnew, -, -, -⟩, hmade⟩ := hlaid
  obtain ⟨⟨p, heads, hp, -, hst⟩, hway, ⟨hsize, hlt⟩, hmark, hbranch, habove⟩ := he
  have hpnew : t.size ≤ p := Nat.not_lt.1 fun hlt => hs.not_above h hnew hlt hp
  refine ⟨⟨root, [], .refl, by simp, ?_⟩, hway, ⟨Nat.le_trans hs.size_le hsize, hlt⟩, hmark,
    hbranch, fun x hx hlt => ?_⟩
  · exact (hs.trans_of_new hst hpnew).congr fun x _ => by simp [only]
  · exact hst.above_of_new hs.forest hmade habove hx hlt

/-- A node without parent is taken over as it is. -/
theorem Forest.excerpted_of_top {id copy : NodeId} {o : Operation} (hs : src.Forest)
    (hp : src.parent? id = none) (hlaid : t.Laid (src.markedBranch id o) copy t') :
    Excerpted src id o t copy copy t' := by
  obtain ⟨hst, hcopy, habove⟩ := hlaid
  have hbranch := hcopy.branch
  have helement := hst.forest.element_of_branch hbranch
  rw [hs.element_markedBranch] at helement
  refine ⟨⟨copy, [], .refl, by simp, hst.congr fun x _ => by simp [only]⟩,
    ⟨[copy], List.isChain_singleton copy, rfl, rfl, ?_⟩, ⟨hcopy.size_le, hcopy.lt_size⟩, ?_, hbranch,
    habove⟩
  · rw [hs.ancestry_of_alone hp, List.map_singleton, List.map_singleton]
    unfold fullName ns? name
    rw [helement, Element.mark_eq]
  · rw [markText?, helement, Element.markText?_mark]

/-- A copy with the keys of a branch is the same node. -/
theorem matches_keysOnly (b : Branch) : b.entry.matchesEntry b.keysOnly.entry = true := by
  have hlike := (skeleton_keysOnly b).keysLike.matches rfl (Entry.matches_refl b.entry)
  rw [← Branch.entry_bare b.keysOnly]
  cases b
  exact hlike

/-- A copy of a node with its keys is the same node. -/
theorem Forest.matches_addCopy_keysOnly (h : t.Forest) (hs : src.Forest) (id : NodeId) :
    (src.entry id).matchesEntry
      ((t.addCopy (src.branch id).keysOnly).1.entry (t.addCopy (src.branch id).keysOnly).2) =
        true := by
  have hcopy := h.copied (src.branch id).keysOnly
  rw [← hs.entry_branch, ← hcopy.keeps.forest.entry_bare_branch, hcopy.branch, Branch.entry_bare]
  exact matches_keysOnly (src.branch id)

/-- Taking a node over puts one marked copy at the place that mirrors its own and changes nothing
else. It fails only if the root is not the same node as the topmost ancestor, and then nothing has
changed at all. -/
theorem Forest.excerptInto_places (h : t.Forest) (hs : src.Forest) (id : NodeId) (o : Operation)
    (root : Option NodeId) (hroot : ∀ r ∈ root, r < t.size)
    (hbelow : root = none ∨ src.parent? id ≠ none) :
    Ensures (src.excerptInto id o root) t
      (fun r t' => (∀ r' ∈ root, r = r' ∧ src.compare (src.topOf id) t r' ≠ .different) ∧
        ∃ copy, Excerpted src id o t r copy t')
      fun t' => t' = t ∧ ∃ r ∈ root, src.compare (src.topOf id) t r = .different := by
  cases hp : src.parent? id with
  | none =>
    obtain rfl : root = none := hbelow.resolve_right fun hne => hne hp
    rw [excerptInto_alone (by rw [hs.ancestry_of_alone hp]; rfl)]
    refine (h.ensures_addMarkedCopy hs id o).mono ?_ fun _ => False.elim
    exact fun copy t' hlaid => ⟨by simp, copy, hs.excerpted_of_top hp hlaid⟩
  | some p =>
    have htop : src.topOf id = src.topOf p := by rw [hs.topOf_eq id, hp, Option.elim_some]
    cases root with
    | some r =>
      by_cases hdiff : src.compare (src.topOf id) t r = .different
      · exact (ensures_excerptInto_different hdiff).2 ⟨rfl, r, rfl, hdiff⟩
      · have hmatch : (src.entry (src.topOf id)).matchesEntry (t.entry r) = true :=
          bne_iff_ne.2 hdiff
        have hname := fullName_of_sameName (Entry.sameName_of_matches hmatch)
        rw [htop] at hname
        refine (ensures_excerptInto_some rfl hmatch).2 ((h.ensures_excerptBelow hs hp (hroot r rfl)
          hname.symm o).mono ?_ fun _ => False.elim)
        rintro _ t' ⟨rfl, hdone⟩
        refine ⟨fun r' hr' => ?_, hdone⟩
        cases hr'
        exact ⟨rfl, hdiff⟩
    | none =>
      -- the root that is made is the same node, so that this never fails
      have hmatch := h.matches_addCopy_keysOnly hs (src.topOf p)
      have hname := fullName_of_sameName (Entry.sameName_of_matches hmatch)
      have hmade := h.copied (src.branch (src.topOf p)).keysOnly
      refine (ensures_excerptInto_none htop (by rw [hs.tail_ancestry hp]; simp) hmatch).2
        ((hmade.keeps.forest.ensures_excerptBelow hs hp hmade.lt_size hname.symm o).mono ?_
          fun _ => False.elim)
      rintro _ t' ⟨rfl, copy, hdone⟩
      exact ⟨by simp, copy, hdone.of_made h (h.laid_addCopy _)⟩

/-- The note below the name of a port is to be deleted from the port: the port and its name are
there, so that the name has one child more, which is the note with its mark. -/
theorem excerptInto_portTree : portTree.Forest ∧ (∀ r ∈ some 0, r < portTree.size) ∧
    portTree.parent? 3 ≠ none ∧
    ∃ t' copy, portTree.excerptInto 3 .delete (some 0) portTree = .ok 0 t' ∧
      Excerpted portTree 3 .delete portTree 0 copy t' := by
  have hroot : ∀ r ∈ some 0, r < portTree.size := by decide
  have hbelow : portTree.parent? 3 ≠ none := by decide
  have hsame : portTree.compare (portTree.topOf 3) portTree 0 ≠ .different := by decide +kernel
  refine ⟨forest_portTree, hroot, hbelow, ?_⟩
  have hrun := forest_portTree.excerptInto_places forest_portTree 3 .delete (some 0) hroot
    (.inr hbelow)
  cases hresult : portTree.excerptInto 3 .delete (some 0) portTree with
  | ok r t' =>
    obtain ⟨hr, copy, hdone⟩ := hrun.of_ok hresult
    obtain ⟨rfl, -⟩ := hr 0 rfl
    exact ⟨t', copy, rfl, hdone⟩
  | error e t' =>
    obtain ⟨-, r, hr, hdiff⟩ := hrun.of_error hresult
    cases hr
    exact absurd hdiff hsame

end Netconf.Tree
