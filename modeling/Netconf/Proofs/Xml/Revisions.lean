import Netconf.Proofs.Tree.Lineages
import Netconf.Proofs.Xml.Conveyed

/-!
# Writing for an older peer

Towards a peer with an older data model, a node is left out if a record newer than the peer says
that it was added, and the other newer records must allow what the node holds. `Tree.pruned` says
the first of a tree as a whole: the nodes that are unknown to the peer are taken away with what is
below them. Whenever a branch can be written for the peer, its text is the one that the pruned tree
has without any peer, and every node that remains suits the peer (`Tree.Forest.encode_pruned`). In
particular neither the labels nor the texts of the nodes that remain depend on those that do not.
-/

namespace Netconf

open Xml

/-! ## Records -/

/-- A single record leaves a node out exactly when it says that the node was added. -/
theorem Xml.eq_of_judge {path peer : String} {count : Nat} {value : Option Value} {r : Revision}
    {out : Bool} (h : judge path peer count value r = .ok out) :
    out = (r.change == .nodeAdded) := by
  unfold judge at h
  cases hchange : r.change <;> rw [hchange] at h <;> dsimp only at h
  · exact (Except.ok.inj h).symm
  -- all other records only check the node
  all_goals first
    | exact (Except.ok.inj h).symm
    | split at h
      · cases h
      · exact (Except.ok.inj h).symm

/-- Records leave a node out exactly when one of them says that it was added, and else each of them
was judged and allows the node. -/
theorem Xml.of_judgeAll {path peer : String} {count : Nat} {value : Option Value}
    {rs : List Revision} {out : Bool} (h : judgeAll path peer count value rs = .ok out) :
    out = rs.any (fun r => r.change == .nodeAdded) ∧
      (out = false → ∀ r ∈ rs, judge path peer count value r = .ok false) := by
  induction rs with
  | nil =>
    obtain rfl := Except.ok.inj h
    exact ⟨rfl, fun _ => nofun⟩
  | cons r rs ih =>
    rw [judgeAll] at h
    split at h
    · cases h
    · next hr =>
      obtain rfl := Except.ok.inj h
      exact ⟨by rw [List.any_cons, ← eq_of_judge hr, Bool.true_or], nofun⟩
    · next hr =>
      obtain ⟨hout, hall⟩ := ih h
      rw [List.any_cons, ← eq_of_judge hr, Bool.false_or]
      exact ⟨hout, fun hfalse => List.forall_mem_cons.2 ⟨hr, hall hfalse⟩⟩

namespace Tree

variable {t : Tree} {caps : Capabilities} {id top : NodeId}

/-! ## What is newer than the peer -/

/-- The revision records of a node: those of its own schema for a container, and else those that the
schema of its parent has for its name. -/
def history (t : Tree) (id : NodeId) : List Revision :=
  match t.kind id with
  | .container s => s.revisions
  | _ => (((t.parent? id).bind fun p => (t.kind p).schema?).map fun s =>
      s.leafHistory (t.name id)).getD []

/-- The records of a node that are newer than the revision of its namespace that the peer has. There
are none if the peer tells no revision. -/
def newer (t : Tree) (caps : Capabilities) (id : NodeId) : List Revision :=
  match (t.ns? id).bind caps.revision? with
  | some peer => (t.history id).filter fun r => r.isAfter peer
  | none => []

/-- Was the node added after the revision that the peer has? -/
def isUnknown (t : Tree) (caps : Capabilities) (id : NodeId) : Bool :=
  (t.newer caps id).any fun r => r.change == .nodeAdded

/-- The number of siblings with the name of a node, itself included. -/
def sameNamed (t : Tree) (id : NodeId) : Nat :=
  (t.parent? id).elim 1 fun p => (t.childrenNamed p (t.name id)).length

/-- Nothing that is newer than the peer forbids what a node holds. -/
structure Suits (t : Tree) (caps : Capabilities) (id : NodeId) : Prop where
  /-- The value of the node is not a newer one. -/
  value : ∀ r ∈ t.newer caps id, ∀ v, r.change = .enumAdded v →
    ∀ w, t.value? id = some w → w.wire ≠ v
  /-- No word of the value is a newer bit. -/
  bits : ∀ r ∈ t.newer caps id, ∀ b, r.change = .bitsAdded b →
    ∀ w, t.value? id = some w → b ∉ Text.words w.wire
  /-- The node has no more siblings of its name than were possible before a newer record. -/
  count : ∀ r ∈ t.newer caps id, ∀ most, r.change = .maxElements most → t.sameNamed id ≤ most

/-- The elements among which the entries of the name of a node are counted. -/
def siblings (t : Tree) (id : NodeId) : List Element :=
  ((t.parent? id).map fun p => (t.children p).map t.element).getD []

/-- The records that concern a node are its history. -/
theorem Forest.revisionsOf_eq (h : t.Forest) (id : NodeId) :
    revisionsOf (t.lineage id).tail (t.element id) = t.history id := by
  have hhead : (t.lineage id).tail.head?.bind (fun p => p.kind.schema?) =
      (t.parent? id).bind fun p => (t.kind p).schema? := by
    rw [h.lineage_eq, List.tail_cons]
    cases t.parent? id with
    | none => rfl
    | some p => rw [Option.elim_some, h.lineage_eq, List.head?_cons]; rfl
  unfold revisionsOf history
  rw [hhead]
  rfl

/-- The entries of the name of a node are counted among its siblings. -/
theorem Forest.entryCount_eq (h : t.Forest) (id : NodeId) :
    entryCount (t.lineage id).tail (t.siblings id) (t.name id) = t.sameNamed id := by
  unfold entryCount siblings sameNamed
  rw [h.lineage_eq, List.tail_cons]
  cases t.parent? id with
  | none => rfl
  | some p =>
    rw [Option.elim_some, Option.elim_some, h.lineage_eq, List.isEmpty_cons, if_neg nofun,
      Option.map_some, Option.getD_some, List.filter_map, List.length_map]
    rfl

/-- A node is left out exactly when it is unknown to the peer, and else it suits the peer. -/
theorem Forest.of_leavesOut (h : t.Forest) {defaults : Bindings} {out : Bool}
    (hout : leavesOut { peer := some caps } defaults (t.lineage id).tail (t.siblings id)
      (t.element id) = .ok out) :
    out = t.isUnknown caps id ∧ (out = false → t.Suits caps id) := by
  unfold leavesOut at hout
  have hnewer : t.newer caps id = match (t.ns? id).bind caps.revision? with
    | some peer => (t.history id).filter fun r => r.isAfter peer
    | none => [] := rfl
  unfold isUnknown
  rw [Option.bind_some] at hout
  split at hout
  · next hnone =>
    obtain rfl := Except.ok.inj hout
    have hempty : t.newer caps id = [] := by
      rw [hnewer]
      simp only [ns?, hnone]
    rw [hempty]
    exact ⟨rfl, fun _ => ⟨by simp [hempty], by simp [hempty], by simp [hempty]⟩⟩
  · next peer hpeer =>
    have hfilter : t.newer caps id = (t.history id).filter fun r => r.isAfter peer := by
      rw [hnewer]
      simp only [ns?, hpeer]
    rw [h.revisionsOf_eq, ← hfilter] at hout
    rw [show (t.element id).name = t.name id from rfl, h.entryCount_eq] at hout
    obtain ⟨heq, hall⟩ := of_judgeAll hout
    refine ⟨heq, fun hfalse => ⟨?_, ?_, ?_⟩⟩
    · intro r hr v hv w hw hwv
      have hallowed := hall hfalse r hr
      rw [judge, hv, show (t.element id).value = some w from hw] at hallowed
      simp [hwv] at hallowed
    · intro r hr b hb w hw hmem
      have hallowed := hall hfalse r hr
      rw [judge, hb, show (t.element id).value = some w from hw] at hallowed
      simp [hmem] at hallowed
    · intro r hr most hmost
      have hallowed := hall hfalse r hr
      rw [judge, hmost] at hallowed
      by_contra hlt
      simp [Nat.not_le.1 hlt] at hallowed

/-! ## The pruned tree -/

/-- Does the peer know none of the children of a node, although it has some, and no value? -/
def isHollow (t : Tree) (caps : Capabilities) (id : NodeId) : Bool :=
  !(t.children id).isEmpty && (t.children id).all (t.isUnknown caps) && (t.value? id).isNone

/-- The tree without the nodes below `top` that are unknown to the peer, and what is below them.
Where nothing is left of a node but its tags, its value is the empty text, so that it is written
with both tags nevertheless. -/
def pruned (t : Tree) (caps : Capabilities) (top : NodeId) : Tree :=
  ((t.branch top).ids.filter (t.isHollow caps)).foldl (fun t n => t.setValue n (.text ""))
    (t.detachAll ((t.branch top).ids.filter (t.isUnknown caps)))

/-- Pruning leaves the default bindings. -/
@[simp]
theorem defaults_pruned (t : Tree) (caps : Capabilities) (top : NodeId) :
    (t.pruned caps top).defaults = t.defaults := by
  have hvalues : ∀ (ids : List NodeId) (t : Tree),
      (ids.foldl (fun t n => t.setValue n (.text "")) t).defaults = t.defaults := by
    intro ids
    induction ids with
    | nil => exact fun _ => rfl
    | cons id ids ih => exact fun t => ih (t.setValue id (.text ""))
  rw [pruned, hvalues, defaults_detachAll]

/-- Pruning keeps a forest. -/
theorem Forest.pruned (h : t.Forest) (caps : Capabilities) (top : NodeId) :
    (t.pruned caps top).Forest :=
  (h.detachAll _).1.of_links
    (parent?_foldl_modifyElement (fun e => { e with value := some (.text "") }) _)
    (children_foldl_modifyElement (fun e => { e with value := some (.text "") }) _)

/-- Pruning leaves the children that the peer knows. -/
theorem Forest.children_pruned (h : t.Forest) {x : NodeId} (hx : t.Above top x) :
    (t.pruned caps top).children x = (t.children x).filter fun c => !t.isUnknown caps c := by
  refine (children_foldl_modifyElement (fun e => { e with value := some (.text "") }) _ x).trans ?_
  rw [(h.detachAll _).2.2]
  refine List.filter_congr fun c hc => ?_
  have hbelow : t.Above top c := hx.trans (.step (h.mem_children_iff.1 hc) .refl)
  simp [h.mem_ids_branch, hbelow]

/-- Pruning leaves the parents of the nodes that the peer knows. -/
theorem parent?_pruned (x : NodeId) :
    (t.pruned caps top).parent? x =
      if x ∈ (t.branch top).ids ∧ t.isUnknown caps x = true then none else t.parent? x := by
  refine (parent?_foldl_modifyElement (fun e => { e with value := some (.text "") }) _ x).trans ?_
  rw [parent?_detachAll]
  simp only [List.mem_filter]

/-- Pruning leaves what the nodes carry, apart from the hollow ones. -/
theorem Forest.element_pruned (h : t.Forest) (x : NodeId) :
    (t.pruned caps top).element x =
      if x ∈ (t.branch top).ids ∧ t.isHollow caps x = true then
        { t.element x with value := some (.text "") }
      else t.element x := by
  obtain ⟨-, helement, -⟩ := h.detachAll ((t.branch top).ids.filter (t.isUnknown caps))
  refine (element_foldl_modifyElement (fun e => { e with value := some (.text "") })
    ((h.nodup_ids_branch top).filter _) x).trans ?_
  simp only [List.mem_filter, helement, size_detachAll]
  refine if_congr ⟨And.left, fun hx => ⟨hx, ?_⟩⟩ rfl rfl
  -- a hollow node has a child, so it is in a slot
  by_contra hsize
  have hnone : t.children x = [] := by
    rw [children, node_of_size_le (Nat.not_lt.1 hsize)]
  simp [isHollow, hnone] at hx

/-- Pruning gives a value to the hollow nodes. -/
theorem Forest.value?_pruned (h : t.Forest) {x : NodeId} (hx : t.Above top x) :
    (t.pruned caps top).value? x =
      if t.isHollow caps x = true then some (.text "") else t.value? x := by
  rw [value?, h.element_pruned]
  simp only [h.mem_ids_branch.2 hx, true_and]
  split <;> rfl

/-- A node is hollow when it has no value and all its children are taken away. -/
theorem Forest.isHollow_iff (h : t.Forest) {x : NodeId} (hx : t.Above top x) :
    t.isHollow caps x = true ↔
      t.children x ≠ [] ∧ (t.pruned caps top).children x = [] ∧ t.value? x = none := by
  rw [h.children_pruned hx]
  simp [isHollow, List.filter_eq_nil_iff, and_assoc]

/-- Pruning leaves what is above the top. -/
theorem Forest.lineage_pruned (h : t.Forest) (hknown : t.isUnknown caps top = false) :
    ((t.pruned caps top).lineage top).tail = (t.lineage top).tail := by
  rw [h.lineage_eq, (h.pruned caps top).lineage_eq, parent?_pruned, hknown,
    if_neg fun hx => Bool.false_ne_true hx.2, List.tail_cons, List.tail_cons]
  cases hp : t.parent? top with
  | none => rfl
  | some p =>
    refine h.lineage_congr (h.pruned caps top) fun x hx => ?_
    have hnot : x ∉ (t.branch top).ids := fun hmem =>
      h.not_above_parent hp ((h.mem_ids_branch.1 hmem).trans hx)
    rw [h.element_pruned, parent?_pruned, if_neg fun hx => hnot hx.1,
      if_neg fun hx => hnot hx.1]
    exact ⟨rfl, rfl⟩

/-- What is left below a known top are the nodes to which only known nodes lead from it. -/
theorem Forest.mem_ids_pruned (h : t.Forest) (htop : t.isUnknown caps top = false) {x : NodeId} :
    x ∈ ((t.pruned caps top).branch top).ids ↔
      t.Above top x ∧ ∀ y, t.Above top y → t.Above y x → t.isUnknown caps y = false := by
  rw [(h.pruned caps top).mem_ids_branch]
  constructor
  · intro hx
    induction hx with
    | refl =>
      refine ⟨.refl, fun y hy hyt => ?_⟩
      rcases eq_or_ne y top with rfl | hne
      · exact htop
      · exact absurd hyt (h.not_above_of_ne hy hne.symm)
    | @step p x hp _ ih =>
      rw [parent?_pruned] at hp
      split at hp
      · cases hp
      · next hknown =>
        refine ⟨.step hp ih.1, fun y hy hyx => ?_⟩
        by_cases hyx' : y = x
        · subst hyx'
          exact Bool.eq_false_iff.2 fun hunknown => hknown ⟨h.mem_ids_branch.2 hy, hunknown⟩
        · exact ih.2 y hy (hyx.parent hp hyx')
  · rintro ⟨hx, hknown⟩
    induction hx with
    | refl => exact .refl
    | @step p x hp hpt ih =>
      refine .step ?_ (ih fun y hy hyp => hknown y hy (.step hp hyp))
      rw [parent?_pruned, hknown x (.step hp hpt) .refl,
        if_neg fun hx => Bool.false_ne_true hx.2, hp]

/-! ## What is written -/

/-- The labels of attributes depend on the labels of the lineage only. -/
theorem attributesIn_congr {line line' : Lineage} {defaults : Bindings}
    (h : ∀ ns, line.label? defaults ns = line'.label? defaults ns) (s : Scope)
    (as : List Attribute) :
    Tag.attributesIn line defaults s as = Tag.attributesIn line' defaults s as := by
  induction as generalizing s with
  | nil => rfl
  | cons a as ih =>
    rw [Tag.attributesIn, Tag.attributesIn]
    cases a.ns with
    | none => dsimp only; rw [ih]
    | some ns => dsimp only; rw [h ns, ih]

/-- A tag does not depend on the value of its element. -/
theorem ofElement_value (s : Scope) (above : Lineage) (defaults : Bindings) (e : Element)
    (v : Option Value) :
    Tag.ofElement s above defaults { e with value := v } = Tag.ofElement s above defaults e := by
  have hlabel : ∀ ns, Lineage.label? ({ e with value := v } :: above) defaults ns =
      Lineage.label? (e :: above) defaults ns := fun _ => rfl
  have hname : Tag.nameIn s ({ e with value := v } :: above) defaults { e with value := v } =
      Tag.nameIn s (e :: above) defaults e := rfl
  unfold Tag.ofElement
  dsimp only
  rw [hname, attributesIn_congr hlabel]

/-- The text of an element whose children are all left out is that of an element without children
whose value, if it has none, is empty. -/
theorem elementText_hollow (depth : Nat) (tag : Tag) (value : Option Value) :
    elementText {} depth tag value (some "") =
      elementText {} depth tag (some (value.getD (.text ""))) none := by
  have hescape : escapeText (Value.text "").wire = "" := rfl
  cases value <;> simp [elementText, lineEnd, indent, hescape]

/-- What is written of a node for a peer is nothing if the peer does not know it, and else what is
written of it in the pruned tree, in which everything below it suits the peer. -/
def WritesPruned (t : Tree) (caps : Capabilities) (top id : NodeId) : Prop :=
  ∀ (scope : Scope) (depth : Nat) (text : String),
    writeBranch { peer := some caps } t.defaults.bindings (t.lineage id).tail (t.siblings id) scope
        depth (t.branch id) = .ok text →
      (t.isUnknown caps id = true → text = "") ∧
      (t.isUnknown caps id = false →
        (∀ siblings, writeBranch {} t.defaults.bindings (t.lineage id).tail siblings scope depth
          ((t.pruned caps top).branch id) = .ok text) ∧
        ∀ x ∈ ((t.pruned caps top).branch id).ids, t.Suits caps x)

/-- The texts of children for a peer are those of the children that the peer knows. -/
theorem writeAll_pruned {cs : List NodeId} {above : Lineage} {siblings : List Element}
    (hcs : ∀ c ∈ cs, t.WritesPruned caps top c ∧ (t.lineage c).tail = above ∧
      t.siblings c = siblings)
    {scope : Scope} {depth : Nat} {text : String}
    (htext : writeAll { peer := some caps } t.defaults.bindings above siblings scope depth
      (cs.map t.branch) = .ok text) :
    (∀ others, writeAll {} t.defaults.bindings above others scope depth
        ((cs.filter fun c => !t.isUnknown caps c).map (t.pruned caps top).branch) = .ok text) ∧
      ∀ c ∈ cs, t.isUnknown caps c = false →
        ∀ x ∈ ((t.pruned caps top).branch c).ids, t.Suits caps x := by
  induction cs generalizing text with
  | nil =>
    obtain rfl := Except.ok.inj htext
    exact ⟨fun _ => rfl, List.forall_mem_nil _⟩
  | cons c cs ih =>
    obtain ⟨⟨hc, rfl, rfl⟩, hcs⟩ := List.forall_mem_cons.1 hcs
    rw [List.map_cons, writeAll] at htext
    split at htext
    · cases htext
    · next first hfirst =>
      split at htext
      · cases htext
      · next rest hrest =>
        obtain rfl := Except.ok.inj htext
        obtain ⟨hunknown, hknown⟩ := hc scope depth first hfirst
        obtain ⟨hwritten, hsuits⟩ := ih hcs hrest
        cases hout : t.isUnknown caps c with
        | true =>
          rw [hunknown hout, List.filter_cons_of_neg (by simp [hout])]
          refine ⟨fun others => (hwritten others).trans (by simp [lineEnd]), ?_⟩
          exact List.forall_mem_cons.2
            ⟨fun hfalse => absurd (hfalse.symm.trans hout) Bool.false_ne_true, hsuits⟩
        | false =>
          obtain ⟨hone, hsuit⟩ := hknown hout
          rw [List.filter_cons_of_pos (by simp [hout])]
          refine ⟨fun others => ?_, List.forall_mem_cons.2 ⟨fun _ => hsuit, hsuits⟩⟩
          rw [List.map_cons, writeAll, hone others]
          dsimp only
          rw [hwritten others]
          rfl

/-- The lineage and the siblings of a child are told by its parent. -/
theorem Forest.of_mem_children (h : t.Forest) {c : NodeId} (hc : c ∈ t.children id) :
    (t.lineage c).tail = t.element id :: (t.lineage id).tail ∧
      t.siblings c = (t.children id).map t.element := by
  have hp := h.mem_children_iff.1 hc
  rw [siblings, h.lineage_eq, hp, List.tail_cons, Option.elim_some, h.lineage_eq, List.tail_cons]
  exact ⟨rfl, rfl⟩

/-- The tags of the pruned tree are those of the tree. -/
theorem Forest.ofElement_pruned (h : t.Forest) (s : Scope) (above : Lineage) (defaults : Bindings)
    (x : NodeId) :
    Tag.ofElement s above defaults ((t.pruned caps top).element x) =
      Tag.ofElement s above defaults (t.element x) := by
  rw [h.element_pruned]
  split
  · exact ofElement_value s above defaults (t.element x) _
  · rfl

/-- The text of an element of the pruned tree is that of the element with the texts of the children
that are left. -/
theorem Forest.elementText_pruned (h : t.Forest) (hid : t.Above top id) (depth : Nat) (tag : Tag)
    {body : String} (hbody : (t.pruned caps top).children id = [] → body = "") :
    elementText {} depth tag ((t.pruned caps top).value? id)
        (if ((t.pruned caps top).children id).isEmpty then none else some body) =
      elementText {} depth tag (t.value? id)
        (if (t.children id).isEmpty then none else some body) := by
  rw [h.value?_pruned hid]
  cases hchildren : t.children id with
  | nil =>
    have hleft : (t.pruned caps top).children id = [] := by
      rw [h.children_pruned hid, hchildren]
      rfl
    rw [hleft, if_neg fun hhollow => ((h.isHollow_iff hid).1 hhollow).1 hchildren]
  | cons c cs =>
    cases hleft : (t.pruned caps top).children id with
    | cons d ds =>
      rw [if_neg fun hhollow => List.cons_ne_nil d ds
        (hleft.symm.trans ((h.isHollow_iff hid).1 hhollow).2.1)]
      rfl
    | nil =>
      -- all children were lost, so the value stands where their texts stood
      rw [hbody hleft, List.isEmpty_nil, List.isEmpty_cons, if_pos rfl, if_neg Bool.false_ne_true,
        elementText_hollow]
      cases hvalue : t.value? id with
      | none =>
        rw [if_pos ((h.isHollow_iff hid).2 ⟨hchildren ▸ List.cons_ne_nil c cs, hleft, hvalue⟩)]
        rfl
      | some v =>
        rw [if_neg fun hhollow => Option.some_ne_none v
          (hvalue.symm.trans ((h.isHollow_iff hid).1 hhollow).2.2)]
        rfl

/-- A node of the pruned tree is written with the texts of the children that are left. -/
theorem Forest.writeBranch_pruned (h : t.Forest) (hid : t.Above top id) {defaults : Bindings}
    {above : Lineage} {scope : Scope} {depth : Nat} {body : String}
    (hbody : ∀ others, writeAll {} defaults (t.element id :: above) others
      (Tag.ofElement scope above defaults (t.element id)).scope (depth + 1)
      (((t.pruned caps top).children id).map (t.pruned caps top).branch) = .ok body)
    (siblings : List Element) :
    writeBranch {} defaults above siblings scope depth ((t.pruned caps top).branch id) =
      .ok (elementText {} depth (Tag.ofElement scope above defaults (t.element id)) (t.value? id)
        (if (t.children id).isEmpty then none else some body)) := by
  have hwritten : ∀ others, writeAll {} defaults ((t.pruned caps top).element id :: above) others
      (Tag.ofElement scope above defaults (t.element id)).scope (depth + 1)
      (((t.pruned caps top).children id).map (t.pruned caps top).branch) = .ok body := by
    intro others
    rw [h.element_pruned]
    split
    · next hhollow =>
      -- no child is left that could tell the elements apart
      rw [((h.isHollow_iff hid).1 hhollow.2).2.1] at hbody ⊢
      exact hbody others
    · exact hbody others
  rw [(h.pruned caps top).branch_eq, writeBranch, leavesOut_eq rfl]
  dsimp only
  rw [h.ofElement_pruned, hwritten]
  dsimp only
  rw [List.isEmpty_map]
  refine congrArg Except.ok (h.elementText_pruned hid depth _ fun hleft => ?_)
  rw [hleft] at hbody
  exact (Except.ok.inj (hbody [])).symm

/-- The branch at every node below the top is written as it is in the pruned tree. -/
theorem Forest.writesPruned (h : t.Forest) (hid : t.Above top id) : t.WritesPruned caps top id := by
  induction id using h.down_induction with
  | step id ih =>
    intro scope depth text htext
    rw [h.branch_eq, writeBranch] at htext
    split at htext
    · cases htext
    · next hout =>
      obtain ⟨hunknown, -⟩ := h.of_leavesOut hout
      obtain rfl := Except.ok.inj htext
      exact ⟨fun _ => rfl,
        fun hfalse => absurd (hfalse.symm.trans hunknown.symm) Bool.false_ne_true⟩
    · next hout =>
      obtain ⟨hknown, hsuits⟩ := h.of_leavesOut hout
      refine ⟨fun htrue => absurd (hknown.trans htrue) Bool.false_ne_true, fun _ => ?_⟩
      dsimp only at htext
      split at htext
      · cases htext
      · next body hbody =>
        obtain rfl := Except.ok.inj htext
        have hchildren : ∀ c ∈ t.children id, t.WritesPruned caps top c ∧
            (t.lineage c).tail = t.element id :: (t.lineage id).tail ∧
              t.siblings c = ((t.children id).map t.branch).map Branch.element := by
          intro c hc
          obtain ⟨hlineage, hsiblings⟩ := h.of_mem_children hc
          refine ⟨ih c hc (hid.trans (.step (h.mem_children_iff.1 hc) .refl)), hlineage, ?_⟩
          rw [hsiblings, List.map_map]
          exact List.map_congr_left fun d _ => (h.element_branch d).symm
        obtain ⟨hwritten, hbelow⟩ := writeAll_pruned hchildren hbody
        rw [← h.children_pruned hid] at hwritten
        rw [List.isEmpty_map]
        refine ⟨h.writeBranch_pruned hid hwritten, fun x hx => ?_⟩
        rw [(h.pruned caps top).branch_eq, Branch.ids, List.mem_cons, Branch.mem_idsOfAll] at hx
        rcases hx with rfl | ⟨b, hb, hx⟩
        · exact hsuits rfl
        · obtain ⟨c, hc, rfl⟩ := List.mem_map.1 hb
          rw [h.children_pruned hid, List.mem_filter] at hc
          exact hbelow c hc.1 (by simpa using hc.2) x hx

/-- The text of a branch for a peer: it is empty if the peer does not know the top node. Otherwise
it is the text, without any peer, of what is left when the nodes that the peer does not know are
taken away with all that is below them. The nodes that are left are those to which only known nodes
lead from the top, and all of them suit the peer. -/
theorem Forest.encode_pruned (h : t.Forest) {text : String}
    (htext : t.encode id { peer := some caps } = .ok text) :
    (t.isUnknown caps id = true → text = "") ∧
      (t.isUnknown caps id = false →
        (t.pruned caps id).encode id {} = .ok text ∧
        (∀ x, x ∈ ((t.pruned caps id).branch id).ids ↔
          t.Above id x ∧ ∀ y, t.Above id y → t.Above y x → t.isUnknown caps y = false) ∧
        ∀ x ∈ ((t.pruned caps id).branch id).ids, t.Suits caps x) := by
  obtain ⟨hunknown, hknown⟩ := h.writesPruned .refl [] 0 text htext
  refine ⟨hunknown, fun hfalse => ?_⟩
  obtain ⟨hwritten, hsuits⟩ := hknown hfalse
  refine ⟨?_, fun _ => h.mem_ids_pruned hfalse, hsuits⟩
  unfold encode
  rw [defaults_pruned, h.lineage_pruned hfalse]
  exact hwritten _

/-! ## A host for an older peer -/

/-- A node of the data model of hosts. -/
def modelNode (name : String) (value : Option Value) (kind : Kind) (children : List Branch) :
    Branch :=
  .mk 0 { ns := some "urn:h", name, value, kind } children

/-- A host whose address, limits and sizes were added to the data model later, as was one of the
modes. -/
def extendedHost : Tree :=
  ((Tree.empty {}).addCopy
    (modelNode "host" none
      (.container { keys := ["name"], children := ["name", "ip", "mode"],
                    leafRevisions := [("ip", [⟨.nodeAdded, "2021-01-01"⟩]),
                      ("mode", [⟨.enumAdded "turbo", "2021-01-01"⟩])] })
      [modelNode "name" (some (.text "joe")) .leaf [],
        modelNode "ip" (some (.text "10.0.0.1")) .leaf [],
        modelNode "limits" none (.container { revisions := [⟨.nodeAdded, "2021-06-01"⟩] })
          [modelNode "most" (some (.integer 3)) .leaf []],
        modelNode "disk" none
          (.container { children := ["size"],
                        leafRevisions := [("size", [⟨.nodeAdded, "2021-01-01"⟩])] })
          [modelNode "size" (some (.integer 8)) .leaf []],
        modelNode "mode" (some (.text "slow")) .leaf []])).1

/-- A peer that has the data model of the year before. -/
def olderPeer : Capabilities := .ofUris ["urn:h?revision=2020-01-01"]

/-- The peer gets the name and the mode of the host, and the tags of its disk, as it would get them
of the pruned tree. It knows all that leads to what it gets. -/
theorem encode_pruned_extendedHost :
    extendedHost.Forest ∧
      extendedHost.encode 0 { peer := some olderPeer } =
        .ok "<host xmlns=\"urn:h\"><name>joe</name><disk></disk><mode>slow</mode></host>" ∧
      (extendedHost.pruned olderPeer 0).encode 0 {} =
        .ok "<host xmlns=\"urn:h\"><name>joe</name><disk></disk><mode>slow</mode></host>" ∧
      ((extendedHost.pruned olderPeer 0).branch 0).ids = [0, 1, 5, 7] ∧
      (∀ x ∈ [0, 1, 5, 7], ∀ y, extendedHost.Above 0 y → extendedHost.Above y x →
        extendedHost.isUnknown olderPeer y = false) ∧
      ∀ x ∈ ((extendedHost.pruned olderPeer 0).branch 0).ids,
        extendedHost.Suits olderPeer x := by
  have hforest : extendedHost.Forest := (forest_empty _).addCopy _
  have htext : extendedHost.encode 0 { peer := some olderPeer } =
      .ok "<host xmlns=\"urn:h\"><name>joe</name><disk></disk><mode>slow</mode></host>" := by
    decide +kernel
  have hleft : ((extendedHost.pruned olderPeer 0).branch 0).ids = [0, 1, 5, 7] := by
    decide +kernel
  obtain ⟨hpruned, hids, hsuits⟩ := (hforest.encode_pruned htext).2 (by decide +kernel)
  exact ⟨hforest, htext, hpruned, hleft, fun x hx => ((hids x).1 (hleft ▸ hx)).2, hsuits⟩

end Tree

end Netconf
