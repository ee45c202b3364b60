import Netconf.Proofs.Xml.Steps

/-!
# Transcripts

A tree that was read from items says all that the items say (`Transcribes`): there is a node for
every tag, with the number of the tag, below the innermost element that was open there; its value is
made of the runs of text directly inside it; and the branches of the tops, one behind the other, are
the slots in order. This holds of a document at every point while it is read (`Draft.Transcribes`),
and one item keeps it (`Draft.Transcribes.step`). What carries the order of the slots is that the
open elements are the right edge of the last branch: each is the last child of the one around it, so
a node that is put behind the others at the innermost of them comes last in the branches of all.
-/

namespace Netconf.Xml

open Netconf.Tree

variable {schema : Option Schema} {ms before : List Markup} {m : Markup} {t t' : Tree}
  {name attributes : List Char} {p : Nat}

/-! ## What a tree says -/

/-- The node of a tag that was met at a standing. -/
structure Noted (schema : Option Schema) (t : Tree) (s : Standing) (name attributes : List Char) :
    Prop where
  /-- It is below the innermost element that is open there. -/
  parent? : t.parent? s.tags = s.inside.head?
  /-- Apart from its value it carries what is read of the tag below this element. -/
  element : readElement t schema s.inside.head? name attributes =
    .ok (t.element s.tags).withoutValue

/-- The tree says of the elements what the items say. -/
structure Transcribes (schema : Option Schema) (ms : List Markup) (t : Tree) : Prop where
  /-- There is a slot for every tag. -/
  size : t.size = (standing ms).tags
  /-- It is the node of the tag. -/
  noted : ∀ before m name attributes, before ++ [m] <+: ms → m.tag? = some (name, attributes) →
    Noted schema t (standing before) name attributes
  /-- The value of a node is made of the runs of text directly inside it. -/
  value? : ∀ id, t.value? id = valueOf (runsIn id ms)
  /-- From the tops down, each node before those below it, the slots are met in order. -/
  preorder : (tops ms).flatMap (fun top => (t.branch top).ids) = List.range t.size

/-- Nothing is said of nothing. -/
theorem transcribes_empty (defaults : Registry) : Transcribes schema [] (.empty defaults) where
  size := rfl
  noted before m _ _ hbefore _ := absurd (List.prefix_nil.1 hbefore) (by simp)
  value? id := by
    show (Tree.empty defaults).value? id = none
    rw [Tree.value?, Tree.element, node_of_size_le (Nat.zero_le _)]
  preorder := rfl

/-- The node of a tag stays while more is read. -/
theorem Noted.of_retains {s : Standing} (hn : Noted schema t s name attributes) (hr : t.Retains t')
    (h : t.Forest) (htags : s.tags < t.size) (hinside : ∀ p ∈ s.inside.head?, p < t.size) :
    Noted schema t' s name attributes where
  parent? := by rw [hr.parent? _ htags, hn.parent?]
  element := by
    rw [readElement_of_retains hr h hinside, hn.element, hr.element _ htags]

namespace Transcribes

/-- The elements that are open behind some of the items have slots. -/
theorem lt_size (h : Transcribes schema ms t) (hbefore : before <+: ms) :
    ∀ p ∈ (standing before).inside.head?, p < t.size := by
  intro p hp
  rw [h.size]
  exact Nat.lt_of_lt_of_le ((pairwise_inside before).2 p (List.mem_of_mem_head? hp))
    (tags_le_tags hbefore)

/-- The nodes of all tags stay while more is read. -/
theorem noted_of_retains (h : Transcribes schema ms t) (hforest : t.Forest) (hr : t.Retains t')
    (hbefore : before ++ [m] <+: ms) (hm : m.tag? = some (name, attributes)) :
    Noted schema t' (standing before) name attributes := by
  refine (h.noted before m name attributes hbefore hm).of_retains hr hforest ?_ ?_
  · rw [h.size]
    exact tags_lt_tags hbefore (by rw [hm]; rfl)
  · exact h.lt_size ((List.prefix_append before [m]).trans hbefore)

/-- An item that neither begins an element nor adds to a value. -/
theorem still (h : Transcribes schema ms t) (hm : m.tag? = none)
    (hruns : ∀ id, runHere id (standing ms) m = []) : Transcribes schema (ms ++ [m]) t where
  size := by rw [h.size, standing_concat, Standing.tags_past_of_none hm]
  noted before m' name attributes hbefore hm' := by
    rcases eq_or_prefix_of_concat hbefore with ⟨rfl, rfl⟩ | hbefore
    · rw [hm] at hm'
      cases hm'
    · exact h.noted before m' name attributes hbefore hm'
  value? id := by rw [runsIn_concat, hruns, List.append_nil, h.value?]
  preorder := by rw [tops_concat, topHere_of_none hm, List.append_nil, h.preorder]

/-- A run of text directly inside an element. -/
theorem valued (h : Transcribes schema ms t) (hforest : t.Forest)
    (hp : (standing ms).inside.head? = some p) {run : String} (hrun : m.run? = some run) :
    Transcribes schema (ms ++ [m])
      (t.setValue p (.text (((t.value? p).map Value.wire).getD "" ++ run))) := by
  have hm : m.tag? = none := by
    cases m <;> first | rfl | cases hrun
  have hlt : p < t.size := h.lt_size (List.prefix_refl ms) p hp
  have hr := hforest.retains_setValue p (.text (((t.value? p).map Value.wire).getD "" ++ run))
  refine ⟨?_, fun before m' name attributes hbefore hm' => ?_, fun id => ?_, ?_⟩
  · rw [setValue, size_modifyElement, h.size, standing_concat, Standing.tags_past_of_none hm]
  · rcases eq_or_prefix_of_concat hbefore with ⟨rfl, rfl⟩ | hbefore
    · rw [hm] at hm'
      cases hm'
    · exact h.noted_of_retains hforest hr hbefore hm'
  · rw [runsIn_concat, runHere, hp, Tree.value?, setValue, element_modifyElement]
    by_cases hid : id = p
    · subst hid
      rw [if_pos ⟨rfl, hlt⟩, if_pos rfl, hrun, Option.toList_some, valueOf_concat, ← h.value?]
    · rw [if_neg fun he => hid he.1, if_neg fun he => hid (Option.some.inj he).symm,
        List.append_nil, ← h.value?]
      rfl
  · have hids : ∀ top ∈ tops ms,
        ((t.setValue p (.text (((t.value? p).map Value.wire).getD "" ++ run))).branch top).ids =
          (t.branch top).ids := fun top _ =>
      hforest.ids_branch_congr hr.forest fun x _ => children_modifyElement t p x _
    rw [tops_concat, topHere_of_none hm, List.append_nil, List.flatMap_congr hids, h.preorder,
      setValue, size_modifyElement]

/-- A new node is met last. -/
theorem preorder_joined (h : Transcribes schema ms t) (hforest : t.Forest) {e : Element}
    (hm : m.tag?.isSome) (hjoined : t.Joined (standing ms).inside.head? e t')
    (hedge : t.RightEdge (standing ms).inside)
    (houtermost : ∀ id, (standing ms).inside.getLast? = some id → (tops ms).getLast? = some id) :
    (tops (ms ++ [m])).flatMap (fun top => (t'.branch top).ids) = List.range t'.size := by
  have hinside := h.lt_size (List.prefix_refl ms)
  rw [hjoined.size, List.range_succ, ← h.preorder, tops_concat, topHere]
  cases hopen : (standing ms).inside with
  | nil =>
    rw [hopen, List.head?_nil] at hjoined
    have hsame : ∀ top ∈ tops ms, (t'.branch top).ids = (t.branch top).ids := fun top _ =>
      hjoined.ids_branch_of_not_above hforest fun p hp => absurd hp (by simp)
    have hnew : (t'.branch t.size).ids = [t.size] :=
      hjoined.ids_branch_new fun p hp => absurd hp (by simp)
    rw [if_pos ⟨hm, rfl⟩, ← h.size, List.flatMap_append, List.flatMap_congr hsame,
      List.flatMap_singleton, hnew]
  | cons p edge =>
    rw [hopen] at hjoined hedge houtermost hinside
    obtain ⟨top, htop⟩ : ∃ top, (p :: edge).getLast? = some top :=
      ⟨_, List.getLast?_eq_some_getLast (List.cons_ne_nil p edge)⟩
    obtain ⟨others, hothers⟩ := List.getLast?_eq_some_iff.1 (houtermost top htop)
    -- the slots of the branches are all different, so no other top is above the parent
    have hnd : ((others ++ [top]).flatMap fun top => (t.branch top).ids).Nodup := by
      rw [← hothers, h.preorder]
      exact List.nodup_range
    rw [List.flatMap_append, List.flatMap_singleton] at hnd
    have hsame : ∀ other ∈ others, (t'.branch other).ids = (t.branch other).ids := by
      intro other hother
      refine hjoined.ids_branch_of_not_above hforest fun q hq habove => ?_
      obtain rfl := Option.some.inj hq
      exact List.disjoint_of_nodup_append hnd
        (List.mem_flatMap.2 ⟨other, hother, hforest.mem_ids_branch.2 habove⟩)
        (hforest.mem_ids_branch.2 (hedge.above hforest htop))
    rw [if_neg fun he => absurd he.2 (List.cons_ne_nil p edge), List.append_nil, hothers,
      List.flatMap_append, List.flatMap_append, List.flatMap_congr hsame, List.flatMap_singleton,
      List.flatMap_singleton, hjoined.ids_branch_edge hforest (hinside p rfl) hedge htop,
      List.append_assoc]

/-- A new node, as its tag says it. -/
theorem joined (h : Transcribes schema ms t) (hforest : t.Forest) {e : Element}
    (hm : m.tag? = some (name, attributes))
    (hread : readElement t schema (standing ms).inside.head? name attributes = .ok e)
    (hjoined : t.Joined (standing ms).inside.head? e t')
    (hedge : t.RightEdge (standing ms).inside)
    (houtermost : ∀ id, (standing ms).inside.getLast? = some id → (tops ms).getLast? = some id) :
    Transcribes schema (ms ++ [m]) t' := by
  have hsome : m.tag?.isSome := by rw [hm]; rfl
  have hinside := h.lt_size (List.prefix_refl ms)
  have hrun : m.run? = none := by
    cases m <;> first | rfl | cases hm
  refine ⟨?_, fun before m' name' attributes' hbefore hm' => ?_, fun id => ?_, ?_⟩
  · rw [hjoined.size, h.size, standing_concat, Standing.tags_past hsome]
  · rcases eq_or_prefix_of_concat hbefore with ⟨rfl, rfl⟩ | hbefore
    · rw [hm] at hm'
      cases hm'
      have htop : (standing before).tags = t.size := h.size.symm
      refine ⟨?_, ?_⟩
      · rw [htop, hjoined.parent?, if_pos rfl]
      · rw [readElement_of_retains hjoined.retains hforest hinside, hread, htop, hjoined.element,
          if_pos rfl, Element.withoutValue_of_none (value_readElement hread)]
    · exact h.noted_of_retains hforest hjoined.retains hbefore hm'
  · have hnone : runHere id (standing ms) m = [] := by
      unfold runHere
      rw [hrun]
      split <;> rfl
    rw [runsIn_concat, hnone, List.append_nil, ← h.value?, Tree.value?, hjoined.element]
    split
    · next hid =>
      rw [value_readElement hread, Tree.value?, Tree.element,
        node_of_size_le (Nat.le_of_eq hid.symm)]
    · rfl
  · exact h.preorder_joined hforest hsome hjoined hedge houtermost

end Transcribes

/-! ## Documents being read -/

/-- The draft is what the items make. -/
structure Draft.Transcribes (schema : Option Schema) (ms : List Markup) (s : Draft) : Prop where
  /-- It is a sound draft. -/
  sound : s.Sound
  /-- Its tree says what the items say. -/
  tree : Xml.Transcribes schema ms s.tree
  /-- The open elements are those whose end is to come. -/
  inside : s.openElements.map (·.1) = (standing ms).inside
  /-- They have the names that the check of the end tags expects. -/
  names : openNames [] ms = some (s.openElements.map (·.2))
  /-- The root is the first top. -/
  root : s.root = (tops ms).head?
  /-- The open elements are the right edge of a branch. -/
  edge : s.tree.RightEdge (standing ms).inside
  /-- This is the branch of the last top. -/
  outermost : ∀ id, (standing ms).inside.getLast? = some id → (tops ms).getLast? = some id

namespace Draft.Transcribes

variable {s s' : Draft}

/-- An empty draft. -/
theorem start (defaults : Registry) :
    Draft.Transcribes schema [] { tree := .empty defaults } where
  sound := ⟨forest_empty defaults, by simp⟩
  tree := transcribes_empty defaults
  inside := rfl
  names := rfl
  root := rfl
  edge := .nil
  outermost id h := absurd h (by simp [standing])

/-- The innermost open element is the innermost one whose end is to come. -/
theorem parent? (h : s.Transcribes schema ms) : s.parent? = (standing ms).inside.head? := by
  rw [← h.inside, List.head?_map]
  rfl

/-- Where an element is open there is a top. -/
theorem tops_ne_nil (h : s.Transcribes schema ms) (hopen : (standing ms).inside ≠ []) :
    tops ms ≠ [] := by
  intro hnil
  have hlast := h.outermost _ (List.getLast?_eq_some_getLast hopen)
  rw [hnil] at hlast
  cases hlast

/-- The root with the element of one more tag. -/
theorem root_concat (h : s.Transcribes schema ms) (hm : m.tag?.isSome) :
    s.root.or (some s.tree.size) = (tops (ms ++ [m])).head? := by
  rw [tops_concat, h.root, topHere]
  by_cases hopen : (standing ms).inside = []
  · rw [if_pos ⟨hm, hopen⟩, List.head?_append, h.tree.size]
    rfl
  · obtain ⟨top, others, htops⟩ := List.exists_cons_of_ne_nil (h.tops_ne_nil hopen)
    rw [if_neg fun he => hopen he.2, htops]
    rfl

/-- A new node goes on with the right edge of the open elements. -/
theorem edge_joined (h : s.Transcribes schema ms) {e : Element}
    (hjoined : s.tree.Joined s.parent? e t') :
    t'.RightEdge (s.tree.size :: (standing ms).inside) := by
  have hedge := h.edge
  have hsorted := (pairwise_inside ms).1
  rw [h.parent?] at hjoined
  cases hopen : (standing ms).inside with
  | nil => exact .singleton _
  | cons p edge =>
    rw [hopen] at hedge hsorted hjoined
    exact hjoined.rightEdge hedge fun hp =>
      Nat.lt_irrefl p ((List.pairwise_cons.1 hsorted).1 p hp)

/-- What a new node makes of the tree. -/
theorem tree_joined (h : s.Transcribes schema ms) {e : Element}
    (hm : m.tag? = some (name, attributes))
    (hread : readElement s.tree schema s.parent? name attributes = .ok e)
    (hjoined : s.tree.Joined s.parent? e t') : Xml.Transcribes schema (ms ++ [m]) t' := by
  rw [h.parent?] at hread hjoined
  exact h.tree.joined h.sound.forest hm hread hjoined h.edge h.outermost

/-- The branch of the outermost open element is that of the last top, also with the element of one
more tag. -/
theorem outermost_concat (h : s.Transcribes schema ms) (hm : m.tag?.isSome) {id : NodeId}
    (hid : ((standing ms).tags :: (standing ms).inside).getLast? = some id) :
    (tops (ms ++ [m])).getLast? = some id := by
  rw [tops_concat, topHere]
  by_cases hopen : (standing ms).inside = []
  · rw [if_pos ⟨hm, hopen⟩, List.getLast?_concat, ← hid, hopen]
    rfl
  · rw [List.getLast?_cons_of_ne_nil hopen] at hid
    rw [if_neg fun he => hopen he.2, List.append_nil]
    exact h.outermost id hid

/-- What a run of text makes of a draft: only the value of the innermost open element changes. -/
theorem addText (h : s.Transcribes schema ms) {cs : List Char} (hcs : m.characters? = some cs) :
    (s.addText cs).Transcribes schema (ms ++ [m]) := by
  have hm := Markup.tag?_of_characters hcs
  have hrun := Markup.run?_eq hcs
  have hstanding : standing (ms ++ [m]) = standing ms := by
    rw [standing_concat, Standing.past_of_characters hcs]
  have htops : tops (ms ++ [m]) = tops ms := by
    rw [tops_concat, topHere_of_none hm, List.append_nil]
  have hnames : openNames [] (ms ++ [m]) = openNames [] ms := by
    rw [openNames_append, h.names]
    exact openNames_of_characters hcs _
  -- everything but the tree stays
  have hrest : ∀ t' : Tree, ({ s with tree := t' } : Draft).Sound →
      Xml.Transcribes schema (ms ++ [m]) t' → (∀ x : Nat, t'.children x = s.tree.children x) →
      ({ s with tree := t' } : Draft).Transcribes schema (ms ++ [m]) := fun t' hsound htree hkids =>
    ⟨hsound, htree, hstanding ▸ h.inside, hnames ▸ h.names, htops ▸ h.root,
      hstanding ▸ h.edge.congr fun q _ => hkids q, htops ▸ hstanding ▸ h.outermost⟩
  have hsound := h.sound.addText cs
  unfold Draft.addText at hsound ⊢
  dsimp only at hsound ⊢
  cases hp : s.parent? with
  | none =>
    refine hrest s.tree h.sound (h.tree.still hm fun id => ?_) fun _ => rfl
    rw [runHere, ← h.parent?, hp, if_neg (by simp)]
  | some p =>
    rw [hp] at hsound
    dsimp only at hsound ⊢
    split at hrun
    · next hempty =>
      rw [if_pos hempty]
      refine hrest s.tree h.sound (h.tree.still hm fun id => ?_) fun _ => rfl
      rw [runHere, hrun]
      split <;> rfl
    · next hempty =>
      rw [if_neg hempty] at hsound ⊢
      rw [h.parent?] at hp
      exact hrest _ hsound (h.tree.valued h.sound.forest hp hrun)
        fun x => children_modifyElement s.tree p x _

/-- One item more. -/
theorem step (h : s.Transcribes schema ms) (hadd : s.add schema m = .ok s') :
    s'.Transcribes schema (ms ++ [m]) := by
  have hsound := h.sound.add hadd
  obtain ⟨e, he⟩ | ⟨s'', hadd', hstep⟩ := h.sound.add_cases schema m
  · rw [he] at hadd
    cases hadd
  obtain rfl : s'' = s' := Except.ok.inj (hadd'.symm.trans hadd)
  cases hstep with
  | opening hread hjoined =>
    refine ⟨hsound, h.tree_joined rfl hread hjoined, ?_, ?_, h.root_concat rfl, ?_,
      fun id hid => ?_⟩
    · rw [standing_concat, List.map_cons, h.inside, h.tree.size]
      rfl
    · rw [openNames_append, h.names]
      rfl
    · rw [standing_concat, Standing.past, ← h.tree.size]
      exact h.edge_joined hjoined
    · rw [standing_concat] at hid
      exact h.outermost_concat rfl hid
  | single hread hjoined =>
    refine ⟨hsound, h.tree_joined rfl hread hjoined, ?_, ?_, h.root_concat rfl, ?_,
      fun id hid => ?_⟩
    · rw [standing_concat, h.inside]
      rfl
    · rw [openNames_append, h.names]
      rfl
    · rw [standing_concat]
      exact List.IsChain.of_cons (h.edge_joined hjoined)
    · rw [standing_concat] at hid
      refine h.outermost_concat rfl ?_
      rw [List.getLast?_cons_of_ne_nil]
      · exact hid
      · rintro hnil
        rw [Standing.past, hnil] at hid
        cases hid
  | @closing _ _ others hopen =>
    have hinside := h.inside
    have hedge := h.edge
    have houtermost := h.outermost
    have hnames := h.names
    rw [hopen, List.map_cons] at hinside hnames
    rw [← hinside] at hedge houtermost
    refine ⟨hsound, h.tree.still rfl fun id => ?_, ?_, ?_, ?_, ?_, fun id hid => ?_⟩
    · unfold runHere
      split <;> rfl
    · rw [standing_concat, Standing.past, ← hinside]
      rfl
    · rw [openNames_append, hnames]
      simp [openNames]
    · rw [tops_concat, topHere_of_none rfl, List.append_nil]
      exact h.root
    · rw [standing_concat, Standing.past, ← hinside]
      exact List.IsChain.of_cons hedge
    · rw [standing_concat, Standing.past, ← hinside] at hid
      rw [tops_concat, topHere_of_none rfl, List.append_nil]
      refine houtermost id ?_
      rw [List.getLast?_cons, show (others.map (·.1)).getLast? = some id from hid]
      rfl
  | text hcs => exact h.addText hcs

/-- All items. -/
theorem run (h : s.Transcribes schema before) (hadd : s.addAll schema ms = .ok s') :
    s'.Transcribes schema (before ++ ms) := by
  induction ms generalizing s before with
  | nil =>
    cases hadd
    rwa [List.append_nil]
  | cons m ms ih =>
    unfold Draft.addAll at hadd
    split at hadd
    · cases hadd
    · next s₁ h₁ =>
      rw [List.append_cons]
      exact ih (h.step h₁) hadd

end Draft.Transcribes

/-- Items that cannot be added are errors of the text. -/
theorem Draft.Sound.addAll_error {s : Draft} (h : s.Sound) {e : Error}
    (hadd : s.addAll schema ms = .error e) : ∃ err, e = .parse err := by
  induction ms generalizing s with
  | nil => cases hadd
  | cons m ms ih =>
    unfold Draft.addAll at hadd
    split at hadd
    · next e' he' =>
      obtain rfl := Except.error.inj hadd
      obtain ⟨err, herr⟩ | ⟨s₁, h₁, -⟩ := h.add_cases schema m
      · exact ⟨err, Except.error.inj (he'.symm.trans herr)⟩
      · rw [he'] at h₁
        cases h₁
    · next s₁ h₁ => exact ih (h.add h₁) hadd

end Netconf.Xml
