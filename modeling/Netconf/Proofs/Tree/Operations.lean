import Netconf.Proofs.Tree.Growth
import Netconf.Xml.Reading

/-!
# Operations keep forests

The operations that consist of several changes, each with the recursion that it is defined by:
taking nodes over into another tree, applying an edit, making the nodes of a path, and reading a
document. Every one of them grows the forest that it is run on, so that also a failure in between
leaves a forest.
-/

namespace Netconf

open Build

variable {t : Tree}

/-! ## Excerpts -/

namespace Tree

variable {src : Tree}

/-- A marked copy grows a forest. -/
theorem growsNode_addMarkedCopy (h : t.Forest) (id : Nat) (o : Operation) :
    GrowsNode (src.addMarkedCopy id o) t :=
  (growsNode_addCopy h _).bind fun copy _ h' hcopy =>
    (grows_mark h'.forest copy o).bind fun _ _ h'' _ => growsTo_pure h''.forest (h''.lt hcopy)

/-- The child that is the same node is in a slot that exists. -/
theorem lt_size_of_sameChild? (h : t.Forest) {id parent c : Nat}
    (hc : src.sameChild? id t parent = some c) : c < t.size :=
  h.child_lt (List.mem_of_find?_eq_some hc)

/-- The way down to a copy grows a forest. -/
theorem growsNode_descend (h : t.Forest) (ids : List NodeId) {parent : Nat}
    (hp : parent < t.size) : GrowsNode (src.descend ids parent) t := by
  induction ids generalizing t parent with
  | nil => exact growsTo_pure h hp
  | cons id ids ih =>
    refine growsTo_get ?_
    split
    · next c hc => exact ih h (lt_size_of_sameChild? h hc)
    · exact (growsNode_addCopy h _).bind fun c t₁ h₁ hc =>
        (grows_append h₁.forest (h₁.lt hp) hc).bind fun _ t₂ h₂ _ => ih h₂.forest (h₂.lt hc)

/-- A copy below the root of an excerpt grows a forest. -/
theorem growsNode_excerptBelow (h : t.Forest) (below : List NodeId) (o : Operation) {root : Nat}
    (hr : root < t.size) : GrowsNode (src.excerptBelow below o root) t := by
  unfold excerptBelow
  split
  · exact growsTo_pure h hr
  · next id _ =>
    exact (growsNode_descend h _ hr).bind fun parent t₁ h₁ hparent =>
      (growsNode_addMarkedCopy h₁.forest id o).bind fun copy t₂ h₂ hcopy =>
        (grows_append h₂.forest (h₂.lt hparent) hcopy).bind fun _ t₃ h₃ _ =>
          growsTo_pure h₃.forest (h₃.lt (h₂.lt (h₁.lt hr)))

/-- An excerpt grows a forest. -/
theorem growsNode_excerptInto (h : t.Forest) (id : Nat) (o : Operation) {root : Option NodeId}
    (hr : ∀ r ∈ root, r < t.size) : GrowsNode (src.excerptInto id o root) t := by
  have hbelow : ∀ (r : Nat) (t₁ : Tree), t.Extends t₁ → r < t₁.size → GrowsNode (do
      let t₂ ← get
      if src.compare (src.topOf id) t₂ r = .different then
        throw (.missing (src.path (src.topOf id) ++ ", " ++ t₂.path r))
      else src.excerptBelow (src.ancestry id).tail o r) t₁ := by
    intro r t₁ h₁ hr₁
    refine growsTo_get ?_
    split
    · exact growsTo_throw h₁.forest
    · exact growsNode_excerptBelow h₁.forest _ o hr₁
  unfold excerptInto
  dsimp only
  split
  · exact growsNode_addMarkedCopy h id o
  · cases root with
    | none => exact (growsNode_addCopy h _).bind fun r t₁ h₁ hr₁ => hbelow r t₁ h₁ hr₁
    | some r =>
      exact (growsTo_pure (P := fun r t => r < t.size) h (hr r rfl)).bind fun r t₁ h₁ hr₁ =>
        hbelow r t₁ h₁ hr₁

end Tree

/-! ## Edits -/

namespace Edit

open Netconf.Tree

/-- A copy without marks grows a forest. -/
theorem growsNode_addUnmarkedCopy (h : t.Forest) (b : Branch) :
    GrowsNode (addUnmarkedCopy b) t := by
  have hunmark := (h.addCopy b).extends_foldl_modifyElement
    (f := Element.unmark) (fun _ => ⟨rfl, rfl⟩) ((t.addCopy b).1.branch (t.addCopy b).2).ids
  exact ensures_change.2 ⟨(h.extends_addCopy b).trans hunmark, hunmark.lt (lt_size_addCopy b)⟩

/-- Taking a child away grows a forest. -/
theorem grows_remove (h : t.Forest) (parent child : Nat) : Grows (remove parent child) t := by
  refine ensures_attempt (fun t' ht' => ⟨?_, trivial⟩) fun _ _ => h.extends
  unfold removeChild at ht'
  split at ht'
  · cases ht'; exact h.extends_detach child
  · cases ht'

/-- Putting a copy in the place of a child grows a forest. -/
theorem grows_replace (h : t.Forest) {parent : Nat} (child : Nat) (b : Branch)
    (hp : parent < t.size) : Grows (replace parent child b) t :=
  growsTo_get ((grows_remove h parent child).bind fun _ _ h₁ _ =>
    (growsNode_addUnmarkedCopy h₁.forest b).bind fun _ _ h₂ hcopy =>
      grows_insertAt h₂.forest (h₂.lt (h₁.lt hp)) hcopy)

/-- The counterpart of an edit node is in a slot that exists. -/
theorem lt_size_of_counterpart? (h : t.Forest) {parent c : Nat} {b : Branch}
    (hc : counterpart? t parent b = some c) : c < t.size :=
  h.child_lt (List.mem_of_find?_eq_some hc)

/-- Applying edit nodes below a place grows a forest, when each of them does so. -/
theorem grows_applyAll_of {defaults : Bindings} {above : Lineage} {inherited : Operation}
    {bs : List Branch}
    (hbs : ∀ b ∈ bs, ∀ {t : Tree} {parent : Nat}, t.Forest → parent < t.size →
      Grows (applyNode defaults above parent inherited b) t)
    (h : t.Forest) {parent : Nat} (hp : parent < t.size) :
    Grows (applyAll defaults above parent inherited bs) t := by
  induction bs generalizing t with
  | nil => exact growsTo_pure h trivial
  | cons b bs ih =>
    exact (hbs b (by simp) h hp).bind fun _ _ h₁ _ =>
      ih (fun b hb => hbs b (by simp [hb])) h₁.forest (h₁.lt hp)

/-- Applying an edit node below a place grows a forest. -/
theorem grows_applyNode (defaults : Bindings) (b : Branch) : ∀ (above : Lineage)
    (inherited : Operation) {t : Tree} {parent : Nat}, t.Forest → parent < t.size →
    Grows (applyNode defaults above parent inherited b) t := by
  refine (Branch.mutualInduction
    (P := fun b => ∀ above inherited {t : Tree} {parent : Nat}, t.Forest →
      parent < t.size → Grows (applyNode defaults above parent inherited b) t)
    (Q := fun bs => ∀ b ∈ bs, ∀ above inherited {t : Tree} {parent : Nat}, t.Forest →
      parent < t.size → Grows (applyNode defaults above parent inherited b) t) ?_ ?_ ?_).1 b
  · intro id e children ih above inherited t parent h hp
    unfold applyNode
    refine growsTo_get ?_
    split
    · exact grows_remove h parent _
    · exact growsTo_throw h
    · exact growsTo_throw h
    · exact grows_replace h _ _ hp
    · next c _ hc =>
      split
      · exact grows_applyAll_of (fun b hb {_ _} => ih b hb _ _) h (lt_size_of_counterpart? h hc)
      · exact grows_modifyElement h c fun _ => ⟨rfl, rfl⟩
    · exact (growsNode_addUnmarkedCopy h _).bind fun _ _ h₁ hcopy =>
        grows_append h₁.forest (h₁.lt hp) hcopy
  · intro b hb
    cases hb
  · intro b bs ihb ihbs c hc
    rcases List.mem_cons.1 hc with rfl | hc
    · exact ihb
    · exact ihbs c hc

/-- Applying an edit grows a forest. -/
theorem grows_apply (h : t.Forest) {root : Nat} (hr : root < t.size) (edit : Tree)
    (editRoot : Nat) : Grows (apply root edit editRoot) t := by
  refine growsTo_get ?_
  split
  · exact growsTo_throw h
  · exact grows_applyAll_of (fun b _ {_ _} => grows_applyNode _ b _ _) h hr

end Edit

/-! ## Paths -/

namespace Path

open Netconf.Tree

/-- The node of a place, or the top node of a document, is in a slot that exists. -/
def Place.In (t : Tree) : Place → Prop
  | .document top => top < t.size
  | .node id => id < t.size

/-- A predicate only leaves nodes out. -/
theorem sublist_of_satisfying {e : Expr} {candidates ids found : List NodeId}
    (hf : satisfying t e candidates ids = .ok found) : found.Sublist ids := by
  induction ids generalizing found with
  | nil => cases hf; exact .slnil
  | cons id ids ih =>
    unfold satisfying at hf
    split at hf
    · cases hf
    next keep _ =>
    split at hf
    · cases hf
    next rest hrest =>
    cases hf
    cases keep
    · exact (ih hrest).cons id
    · exact (ih hrest).cons_cons id

/-- Predicates only leave nodes out. -/
theorem sublist_of_filtered {es : List Expr} {ids found : List NodeId}
    (hf : filtered t es ids = .ok found) : found.Sublist ids := by
  induction es generalizing ids with
  | nil => cases hf; exact .refl _
  | cons e es ih =>
    unfold filtered at hf
    split at hf
    · cases hf
    next rest hrest => exact (ih hf).trans (sublist_of_satisfying hrest)

/-- A step leaves the nodes that it may choose from, or leaves some out. -/
theorem in_of_filter {step : Step} {ids : List NodeId} {places : List Place}
    (hf : step.filter t ids = .ok places) (hids : ∀ id ∈ ids, id < t.size) :
    ∀ p ∈ places, p.In t := by
  unfold Step.filter at hf
  split at hf
  · cases hf
  next rest hrest =>
  cases hf
  intro p hp
  obtain ⟨id, hid, rfl⟩ := List.mem_map.1 hp
  exact hids id (List.mem_of_mem_filter ((sublist_of_filtered hrest).subset hid))

/-- The topmost ancestor of a node is in a slot that exists. -/
theorem topOf_lt (h : t.Forest) {id : Nat} (hid : id < t.size) : t.topOf id < t.size := by
  have hmem : t.topOf id ∈ t.upward id := by
    unfold topOf
    rw [List.getLastD_eq_getLast?]
    cases hl : (t.upward id).getLast? with
    | none => exact absurd (h.mem_upward_iff.2 .refl) (by rw [List.getLast?_eq_none_iff.1 hl]; simp)
    | some x => exact List.mem_of_getLast? hl
  exact h.lt_size_of_above hid (h.mem_upward_iff.1 hmem)

/-- The document of a place that exists does. -/
theorem in_toDocument (h : t.Forest) {place : Place} (hin : place.In t) :
    (place.toDocument t).In t := by
  cases place with
  | document top => exact hin
  | node id => exact topOf_lt h hin

/-- Where a step leads from a place exists. -/
theorem in_of_follow (h : t.Forest) {step : Step} {place : Place} {places : List Place}
    (hf : step.follow t place = .ok places) (hin : place.In t) : ∀ p ∈ places, p.In t := by
  unfold Step.follow at hf
  split at hf
  · cases hf
    intro p hp
    exact List.mem_singleton.1 hp ▸ in_toDocument h hin
  · cases hf
    intro p hp
    split at hp
    · rw [List.mem_singleton.1 hp]; exact hin
    · cases hp
  · exact in_of_filter hf (by simpa [Place.In] using hin)
  · exact in_of_filter hf (by simpa [Place.In] using hin)
  · exact in_of_filter hf fun id hid => h.child_lt hid
  · cases hf; simp
  · split at hf
    · next p hp => exact in_of_filter hf (by simpa using h.parent_lt hp)
    · cases hf; simp

/-- Where a step leads from several places exists. -/
theorem in_of_followAll (h : t.Forest) {step : Step} {from_ places : List Place}
    (hf : step.followAll t from_ = .ok places) (hin : ∀ p ∈ from_, p.In t) :
    ∀ p ∈ places, p.In t := by
  induction from_ generalizing places with
  | nil => cases hf; simp
  | cons p ps ih =>
    unfold Step.followAll at hf
    split at hf
    · cases hf
    next found hfound =>
    split at hf
    · cases hf
    next more hmore =>
    cases hf
    intro q hq
    rcases List.mem_append.1 hq with hq | hq
    · exact in_of_follow h hfound (hin p (by simp)) q hq
    · exact ih hmore (fun p hp => hin p (by simp [hp])) q hq

/-- A step that does not go to the document selects nodes in slots that exist. -/
theorem lt_size_of_select (h : t.Forest) {step : Step} {ids found : List NodeId}
    (hf : step.select t ids = .ok found) (hids : ∀ id ∈ ids, id < t.size) :
    ∀ id ∈ found, id < t.size := by
  unfold Step.select Step.apply at hf
  split at hf
  · cases hf
  next places hplaces =>
  cases hf
  intro id hid
  obtain ⟨p, hp, hpid⟩ := List.mem_filterMap.1 hid
  split at hplaces
  · -- documents are no nodes
    cases hplaces
    have hdoc : ∀ (qs acc : List Place), (∀ q ∈ acc, q.node? = none) → (∀ q ∈ qs, q.node? = none) →
        ∀ q ∈ qs.foldl addPlace acc, q.node? = none := by
      intro qs
      induction qs with
      | nil => exact fun acc hacc _ => hacc
      | cons q qs ih =>
        intro acc hacc hqs
        refine ih _ ?_ fun r hr => hqs r (by simp [hr])
        intro r hr
        unfold addPlace at hr
        split at hr
        · exact hacc r hr
        · rcases List.mem_append.1 hr with hr | hr
          · exact hacc r hr
          · rw [List.mem_singleton.1 hr]; exact hqs q (by simp)
    have hnone := hdoc _ [] (by simp) (by
      intro q hq
      obtain ⟨r, _, rfl⟩ := List.mem_map.1 hq
      cases r <;> rfl) p hp
    rw [hnone] at hpid
    cases hpid
  · have hin := in_of_followAll h hplaces (by
      intro q hq
      obtain ⟨id, hid, rfl⟩ := List.mem_map.1 hq
      exact hids id hid) p hp
    cases p with
    | document top => cases hpid
    | node i => cases hpid; exact hin

/-- The longest part of a path that is there ends at nodes in slots that exist. -/
theorem lt_size_of_longestMatch (h : t.Forest) {steps rest : List Step} {ids found : List NodeId}
    (hf : longestMatch t steps ids = .ok (found, rest)) (hids : ∀ id ∈ ids, id < t.size) :
    ∀ id ∈ found, id < t.size := by
  induction steps generalizing ids with
  | nil => cases hf; exact hids
  | cons step steps ih =>
    unfold longestMatch at hf
    split at hf
    · cases hf
    · cases hf; exact hids
    · next hnext => exact ih hf (lt_size_of_select h hnext hids)

/-- Assigning what a predicate says grows a forest. -/
theorem grows_assign (h : t.Forest) (bindings : Bindings) {id : Nat} (hid : id < t.size)
    (predicate : Expr) : Grows (assign bindings id predicate) t := by
  unfold assign
  split
  · next label name l =>
    have hmake : ∀ ns : String, Grows (do
        let child ← Build.create { ns := some ns, name := name, value := some (.text l.assigned) }
        Build.append id child) t := fun ns =>
      (growsNode_create h _).bind fun _ _ h₁ hchild => grows_append h₁.forest (h₁.lt hid) hchild
    refine growsTo_get ?_
    cases label with
    | none => exact hmake _
    | some p =>
      cases hns : bindings.ns? p with
      | none => simp only [hns]; exact growsTo_throw h
      | some ns => simp only [hns]; exact hmake ns
  · exact grows_modifyElement h id fun e => e.setAttribute_name_ns _ _
  · exact growsTo_throw h

/-- Assigning what several predicates say grows a forest. -/
theorem grows_assignAll (h : t.Forest) (bindings : Bindings) {id : Nat} (hid : id < t.size)
    (predicates : List Expr) : Grows (assignAll bindings id predicates) t := by
  induction predicates generalizing t with
  | nil => exact growsTo_pure h trivial
  | cons e es ih =>
    exact (grows_assign h bindings hid e).bind fun _ _ h₁ _ => ih h₁.forest (h₁.lt hid)

/-- Making the node of a step grows a forest. -/
theorem growsNode_build (h : t.Forest) (step : Step) (bindings : Bindings)
    (parent : Option NodeId) : GrowsNode (step.build bindings parent) t := by
  unfold Step.build
  split
  · refine growsTo_get ?_
    split
    · exact growsTo_throw h
    · exact (growsNode_create h _).bind fun id _ h₁ hid =>
        (grows_assignAll h₁.forest bindings hid _).bind fun _ _ h₂ _ =>
          growsTo_pure h₂.forest (h₂.lt hid)
  · exact growsTo_throw h

/-- Making the nodes of steps below a node grows a forest. -/
theorem growsNode_buildBelow (h : t.Forest) (bindings : Bindings) (steps : List Step)
    {parent : Nat} (hp : parent < t.size) : GrowsNode (buildBelow bindings steps parent) t := by
  induction steps generalizing t parent with
  | nil => exact growsTo_pure h hp
  | cons step steps ih =>
    exact (growsNode_build h step bindings (some parent)).bind fun id _ h₁ hid =>
      (grows_append h₁.forest (h₁.lt hp) hid).bind fun _ _ h₂ _ => ih h₂.forest (h₂.lt hid)

/-- Making the nodes of steps below several nodes grows a forest. -/
theorem grows_buildBelowAll (h : t.Forest) (steps : List Step) (parents : List NodeId)
    (hp : ∀ p ∈ parents, p < t.size) : Grows (buildBelowAll steps parents) t := by
  induction parents generalizing t with
  | nil => exact growsTo_pure h trivial
  | cons parent parents ih =>
    exact growsTo_get ((growsNode_buildBelow h _ steps (hp parent (by simp))).bind fun _ _ h₁ _ =>
      (ih h₁.forest fun p hpp => h₁.lt (hp p (by simp [hpp]))).bind fun _ _ h₂ _ =>
        growsTo_pure h₂.forest trivial)

/-- Making the nodes of a path below a node grows a forest. -/
theorem grows_buildSteps (h : t.Forest) {id : Nat} (hid : id < t.size) (reuse : Reuse)
    (text : String) (steps : List Step) : Grows (buildSteps id reuse text steps) t := by
  unfold buildSteps
  refine growsTo_get ?_
  split
  · exact (growsNode_buildBelow h _ steps hid).bind fun _ _ h₁ _ => growsTo_pure h₁.forest trivial
  · split
    · exact growsTo_throw h
    · exact growsTo_pure h trivial
    · next found rest hmatch =>
      split
      · exact growsTo_throw h
      · exact grows_buildBelowAll h _ _ (lt_size_of_longestMatch h hmatch (by simpa using hid))

/-- Creating a path grows a forest. -/
theorem grows_create (h : t.Forest) {id : Nat} (hid : id < t.size) (reuse : Reuse)
    (bindings : Option Bindings) (text : String) : Grows (create id reuse bindings text) t := by
  unfold create
  split
  · exact growsTo_throw h
  · have hbind := grows_modifyElement h id (f := fun e => e.bindAll (bindings.getD {}))
      fun _ => ⟨rfl, rfl⟩
    exact hbind.bind fun _ _ h₁ _ => grows_buildSteps h₁.forest (h₁.lt hid) reuse text _

/-- Creating a path that stands alone grows a forest. -/
theorem growsNode_createAlone (h : t.Forest) (bindings : Bindings) (text : String) :
    GrowsNode (createAlone bindings text) t := by
  unfold createAlone
  split
  · exact growsTo_throw h
  · exact growsTo_throw h
  · exact (growsNode_build h _ bindings none).bind fun top _ h₁ htop =>
      (growsNode_buildBelow h₁.forest bindings _ htop).bind fun _ _ h₂ _ =>
        growsTo_pure h₂.forest (h₂.lt htop)

end Path

/-! ## Documents -/

namespace Xml

open Netconf.Tree

/-- The tree of a draft is a forest, and its open elements are in slots that exist. -/
structure Draft.Sound (s : Draft) : Prop where
  /-- The links are those of a forest. -/
  forest : s.tree.Forest
  /-- The open elements exist. -/
  lt_size : ∀ o ∈ s.openElements, o.1 < s.tree.size

/-- The innermost open element is in a slot that exists. -/
theorem Draft.Sound.parent_lt {s : Draft} (h : s.Sound) {p : Nat} (hp : s.parent? = some p) :
    p < s.tree.size := by
  unfold Draft.parent? at hp
  obtain ⟨o, ho, rfl⟩ := Option.map_eq_some_iff.1 hp
  exact h.lt_size o (List.mem_of_mem_head? ho)

/-- Adding the element of a tag keeps a draft sound. -/
theorem Draft.Sound.addElement {s s' : Draft} (h : s.Sound) {schema : Option Schema}
    {name attributes : List Char} {id : Nat}
    (ha : s.addElement schema name attributes = .ok (id, s')) :
    s'.Sound ∧ id < s'.tree.size ∧ s'.openElements = s.openElements := by
  unfold Draft.addElement at ha
  split at ha
  · cases ha
  next e _ =>
  have hmade := h.forest.extends_create e
  have hid : s.tree.size < (s.tree.create e).1.size := by simp [Tree.create]
  dsimp only at ha
  split at ha
  · cases ha
    exact ⟨⟨hmade.forest, fun o ho => hmade.lt (h.lt_size o ho)⟩, hid, rfl⟩
  · next p hp =>
    split at ha
    · cases ha
    next t' ht' =>
    cases ha
    have hput := hmade.forest.extends_insertAt (hmade.lt (h.parent_lt hp)) hid ht'
    exact ⟨⟨hput.forest, fun o ho => hput.lt (hmade.lt (h.lt_size o ho))⟩, hput.lt hid, rfl⟩

/-- Adding a text keeps a draft sound. -/
theorem Draft.Sound.addText {s : Draft} (h : s.Sound) (cs : List Char) : (s.addText cs).Sound := by
  unfold Draft.addText
  dsimp only
  split
  · exact h
  · split
    · exact h
    · refine ⟨?_, fun o ho => ?_⟩
      · show (s.tree.setValue _ _).Forest
        exact h.forest.modifyElement _ _
      · simpa [Tree.setValue] using h.lt_size o ho

/-- Adding an item keeps a draft sound. -/
theorem Draft.Sound.add {s s' : Draft} (h : s.Sound) {schema : Option Schema} {m : Markup}
    (ha : s.add schema m = .ok s') : s'.Sound := by
  unfold Draft.add at ha
  split at ha
  · split at ha
    · cases ha
    next id s₁ h₁ =>
    cases ha
    obtain ⟨hs, hid, hopen⟩ := h.addElement h₁
    refine ⟨hs.forest, fun o ho => ?_⟩
    rcases List.mem_cons.1 ho with rfl | ho
    · exact hid
    · exact hs.lt_size o ho
  · split at ha
    · cases ha
    next h₁ =>
    cases ha
    exact (h.addElement h₁).1
  · split at ha
    · next _ others hopen =>
      split at ha
      · cases ha
        exact ⟨h.forest, fun o ho => h.lt_size o (by rw [hopen]; exact List.mem_cons_of_mem _ ho)⟩
      · cases ha
    · cases ha
  · split at ha
    · cases ha; exact h.addText _
    · cases ha
  · cases ha; exact h.addText _

/-- Adding items keeps a draft sound. -/
theorem Draft.Sound.addAll {s s' : Draft} (h : s.Sound) {schema : Option Schema}
    {ms : List Markup} (ha : s.addAll schema ms = .ok s') : s'.Sound := by
  induction ms generalizing s with
  | nil => cases ha; exact h
  | cons m ms ih =>
    unfold Draft.addAll at ha
    split at ha
    · cases ha
    · next h₁ => exact ih (h.add h₁) ha

/-- A document that was read is a forest. -/
theorem forest_parse {r : Registry} {schema : Option Schema} {xml : String} {d : Document}
    (h : parse r schema xml = .ok d) : d.tree.Forest := by
  unfold parse at h
  dsimp only at h
  split at h
  · cases h
  next s hs =>
  have hsound : s.Sound := Draft.Sound.addAll ⟨forest_empty r, by simp⟩ hs
  unfold Draft.finish at h
  split at h
  · cases h
  · split at h
    · cases h
    · cases h
    · cases h; exact hsound.forest

end Xml

end Netconf
