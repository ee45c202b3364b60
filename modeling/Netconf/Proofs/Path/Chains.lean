import Mathlib.Data.List.Forall2
import Netconf.Proofs.Path.Drafts
import Netconf.Proofs.Tree.Sprouts

/-!
# The nodes of a created path

Making the nodes of steps either carries out what `drafts` says or fails where that has nothing to
say. The node of one step is made as a branch of its own (`Drafted`) and then put behind the
children of the one above, so the nodes of several steps stand one below the other (`Chain`), each
with its assigned children in front. A failure leaves the nodes that were in place by then, and that
is no node exactly if the first step could not be made (`ensures_buildBelow`).
-/

namespace Netconf.Path

open Netconf.Tree (nowhere only only_self only_of_ne)

variable {t t' t'' : Tree} {bindings : Bindings} {e : Entry} {es : List Entry} {id p last : NodeId}
  {heads : List NodeId} {new : NodeId → List NodeId}

/-! ## One node -/

/-- The forest `t'` is `t` with the new node `id`, which stands alone and has the entry `e`; its
children are leaves. -/
structure Drafted (t : Tree) (e : Entry) (id : NodeId) (t' : Tree) : Prop where
  /-- The old slots are as they were. -/
  sprouts : t.Sprouts nowhere t'
  /-- The node is in a new slot. -/
  size_le : t.size ≤ id
  /-- The node is in a slot that exists. -/
  lt_size : id < t'.size
  /-- The node stands alone. -/
  alone : t'.parent? id = none
  /-- The node and its children. -/
  entry : t'.entry id = e
  /-- The children have no children. -/
  childless : ∀ c ∈ t'.children id, t'.children c = []
  /-- There is a new slot for the node and for each child. -/
  size : t'.size = t.size + 1 + e.members.length

/-- A new node without children. -/
theorem drafted_create (h : t.Forest) (el : Element) :
    Drafted t ⟨el, []⟩ t.size (t.create el).1 := by
  have hchildless : (t.create el).1.children t.size = [] := by
    rw [Tree.children_create, Tree.children, Tree.node_of_size_le (Nat.le_refl _)]
  have hsize : (t.create el).1.size = t.size + 1 := Tree.size_push t _
  refine ⟨h.sprouts_create el, Nat.le_refl _, by rw [hsize]; exact Nat.lt_succ_self _, ?_, ?_, ?_,
    hsize⟩
  · rw [Tree.parent?_create, Tree.parent?, Tree.node_of_size_le (Nat.le_refl _)]
  · rw [Tree.entry, hchildless, Tree.element_create, if_pos rfl, List.map_nil]
  · rw [hchildless]
    exact fun c hc => absurd hc List.not_mem_nil

/-- A change of what the node carries. -/
theorem Drafted.modifyElement (hd : Drafted t e id t') (f : Element → Element) :
    Drafted t { e with element := f e.element } id (t'.modifyElement id f) where
  sprouts := hd.sprouts.modifyElement hd.size_le f
  size_le := hd.size_le
  lt_size := by rw [Tree.size_modifyElement]; exact hd.lt_size
  alone := by rw [Tree.parent?_modifyElement, hd.alone]
  entry := by
    have hother : ∀ c ∈ t'.children id, (t'.modifyElement id f).element c = t'.element c := by
      intro c hc
      rw [Tree.element_modifyElement, if_neg]
      rintro ⟨rfl, -⟩
      exact hd.sprouts.forest.not_above_parent (hd.sprouts.forest.mem_children_iff.1 hc) .refl
    rw [← hd.entry, Tree.entry, Tree.children_modifyElement, Tree.element_modifyElement,
      if_pos ⟨rfl, hd.lt_size⟩, List.map_congr_left hother]
    rfl
  childless := by
    simp only [Tree.children_modifyElement]
    exact hd.childless
  size := by rw [Tree.size_modifyElement]; exact hd.size

/-- A new leaf behind the children of the node. -/
theorem Drafted.ensures_addLeaf (hd : Drafted t e id t') (el : Element) :
    Build.Ensures (do let c ← Build.create el; Build.append id c) t'
      (fun _ t'' => Drafted t { e with members := e.members ++ [el] } id t'') fun _ => False := by
  refine (hd.sprouts.forest.ensures_addLeaf hd.lt_size el).mono ?_ fun _ hfalse => hfalse
  rintro _ t'' ⟨hs, hsize, helement, hchildless⟩
  have hold : ∀ x < t.size, only id [t'.size] x = [] := fun x hx =>
    only_of_ne _ (Nat.ne_of_lt (Nat.lt_of_lt_of_le hx hd.size_le))
  have hchildren : t''.children id = t'.children id ++ [t'.size] := by
    rw [hs.children id hd.lt_size, only_self]
  have hleaf : ∀ c ∈ t'.children id, c < t'.size ∧ c ≠ id := fun c hc =>
    ⟨hd.sprouts.forest.child_lt hc, fun he =>
      hd.sprouts.forest.not_above_parent (hd.sprouts.forest.mem_children_iff.1 hc) (he ▸ .refl)⟩
  refine ⟨(hd.sprouts.trans hs).congr fun x hx => ?_, hd.size_le, hs.lt hd.lt_size, ?_, ?_, ?_, ?_⟩
  · rw [hold x hx]
    rfl
  · rw [hs.parent? id hd.lt_size, hd.alone]
  · rw [← hd.entry, Tree.entry, hchildren, hs.element id hd.lt_size, List.map_append,
      List.map_congr_left fun c hc => hs.element c (hleaf c hc).1, List.map_singleton, helement]
    rfl
  · intro c hc
    rw [hchildren, List.mem_append, List.mem_singleton] at hc
    rcases hc with hc | rfl
    · rw [hs.children c (hleaf c hc).1, hd.childless c hc, only_of_ne _ (hleaf c hc).2]
      rfl
    · exact hchildless
  · rw [hsize, hd.size, List.length_append, List.length_singleton]
    omega

/-- A predicate assigns what it says. -/
theorem Drafted.ensures_assign (hd : Drafted t e id t') (predicate : Expr) :
    Build.Ensures (assign bindings id predicate) t'
      (fun _ t'' => ∃ e', predicate.assigned? bindings e = some e' ∧ Drafted t e' id t'')
      fun t'' => predicate.assigned? bindings e = none ∧ t.Sprouts nowhere t'' := by
  have hns : t'.ns? id = e.element.ns := by rw [← hd.entry]; rfl
  unfold assign
  split
  · next label name l =>
    have hmake : ∀ ns, labelNs? bindings label (some (e.element.ns.getD "")) = some ns →
        Build.Ensures (do
          let c ← Build.create { ns := some ns, name := name, value := some (.text l.assigned) }
          Build.append id c) t'
          (fun _ t'' => ∃ e', (Expr.binary (.compare .eq) (.child label name)
            (.literal l)).assigned? bindings e = some e' ∧ Drafted t e' id t'')
          fun t'' => (Expr.binary (.compare .eq) (.child label name)
            (.literal l)).assigned? bindings e = none ∧ t.Sprouts nowhere t'' := fun ns hns =>
      (hd.ensures_addLeaf _).mono (fun _ _ hd' => ⟨_, by simp [Expr.assigned?, hns], hd'⟩)
        fun _ hfalse => hfalse.elim
    refine Build.ensures_bind.2 (Build.ensures_get.2 ?_)
    cases label with
    | none =>
      rw [hns]
      exact hmake _ rfl
    | some q =>
      cases hq : bindings.ns? q with
      | none =>
        simp only [hq]
        exact Build.ensures_throw.2 ⟨by simp [Expr.assigned?, labelNs?, hq], hd.sprouts⟩
      | some ns =>
        simp only [hq]
        exact hmake ns hq
  · next name l =>
    exact Build.ensures_modifyElement.2
      ⟨_, rfl, hd.modifyElement fun e => e.setAttribute name l.assigned⟩
  · next hchild hattribute =>
    refine Build.ensures_throw.2 ⟨?_, hd.sprouts⟩
    unfold Expr.assigned?
    split
    · exact absurd rfl (hchild _ _ _)
    · exact absurd rfl (hattribute _ _)
    · rfl

/-- Predicates assign what they say. -/
theorem Drafted.ensures_assignAll (hd : Drafted t e id t') (predicates : List Expr) :
    Build.Ensures (assignAll bindings id predicates) t'
      (fun _ t'' => ∃ e', assignedAll? bindings e predicates = some e' ∧ Drafted t e' id t'')
      fun t'' => assignedAll? bindings e predicates = none ∧ t.Sprouts nowhere t'' := by
  induction predicates generalizing e t' with
  | nil => exact Build.ensures_pure.2 ⟨e, rfl, hd⟩
  | cons predicate predicates ih =>
    refine Build.ensures_bind.2 ((hd.ensures_assign predicate).mono ?_ ?_)
    · rintro _ t₁ ⟨e₁, he₁, hd₁⟩
      simpa only [assignedAll?_cons, he₁, Option.bind_some] using ih hd₁
    · rintro t₁ ⟨hnone, hs⟩
      exact ⟨by rw [assignedAll?_cons, hnone, Option.bind_none], hs⟩

/-- The node of a step is made as it is drafted. -/
theorem ensures_build (h : t.Forest) (step : Step) (p : NodeId) :
    Build.Ensures (step.build bindings (some p)) t
      (fun id t' => ∃ e, step.draft? bindings (t.ns? p) = some e ∧ Drafted t e id t')
      fun t' => step.draft? bindings (t.ns? p) = none ∧ t.Sprouts nowhere t' := by
  have hns : step.nsFor bindings t (some p) = labelNs? bindings step.label (t.ns? p) := by
    unfold Step.nsFor labelNs?
    cases step.label <;> rfl
  unfold Step.build
  split
  · next name haxis hname =>
    have hdraft : step.draft? bindings (t.ns? p) =
        (labelNs? bindings step.label (t.ns? p)).bind fun ns =>
          assignedAll? bindings ⟨{ ns := some ns, name }, []⟩ step.predicates := by
      simp only [Step.draft?, haxis, hname]
    refine Build.ensures_bind.2 (Build.ensures_get.2 ?_)
    rw [hns, hdraft]
    cases labelNs? bindings step.label (t.ns? p) with
    | none => exact Build.ensures_throw.2 ⟨rfl, h.sprouts⟩
    | some ns =>
      refine Build.ensures_bind.2 (Build.ensures_change.2 ?_)
      refine Build.ensures_bind.2 (((drafted_create h _).ensures_assignAll _).mono ?_ ?_)
      · rintro _ t₁ ⟨e, he, hd⟩
        exact Build.ensures_pure.2 ⟨e, he, hd⟩
      · exact fun t₁ hfailed => hfailed
  · next hother =>
    refine Build.ensures_throw.2 ⟨?_, h.sprouts⟩
    unfold Step.draft?
    split
    · next haxis hname => exact absurd hname (hother _ haxis)
    · rfl

/-! ## Nodes one below the other -/

/-- In the tree `t`, nodes with the entries `es` stand one below the other, the first one meant to
be below `p`, in slots from `base` on; `heads` is the first of them and `last` the last one, or `p`
if there is none. The children of each node are its leaves and then the next node. -/
inductive Chain (t : Tree) (base : Nat) :
    List Entry → NodeId → List NodeId → NodeId → Prop where
  /-- No node. -/
  | nil (p : NodeId) : Chain t base [] p [] p
  /-- A first node, and the others below it. -/
  | cons {e : Entry} {es : List Entry} {p c : NodeId} {leaves heads : List NodeId} {last : NodeId}
      (hbase : base ≤ c) (hlt : c < t.size) (helement : t.element c = e.element)
      (hchildren : t.children c = leaves ++ heads) (hmembers : leaves.map t.element = e.members)
      (hleaves : ∀ l ∈ leaves, base ≤ l ∧ l < t.size ∧ t.children l = [])
      (hbelow : Chain t base es c heads last) : Chain t base (e :: es) p [c] last

/-- There is at most one first node. -/
theorem Chain.length_heads {base : Nat} (hc : Chain t base es p heads last) :
    heads.length ≤ 1 := by
  cases hc with
  | nil => exact Nat.zero_le 1
  | cons => exact Nat.le_refl 1

/-- The slots may be counted from an earlier one. -/
theorem Chain.mono {base base' : Nat} (hc : Chain t base es p heads last) (hle : base' ≤ base) :
    Chain t base' es p heads last := by
  induction hc with
  | nil p => exact .nil p
  | cons hbase hlt helement hchildren hmembers hleaves _ ih =>
    exact .cons (Nat.le_trans hle hbase) hlt helement hchildren hmembers
      (fun l hl => ⟨Nat.le_trans hle (hleaves l hl).1, (hleaves l hl).2⟩) ih

/-- The nodes stay as they are when others get new children. -/
theorem Chain.sprouts {base : Nat} (hc : Chain t base es p heads last) (hs : t.Sprouts new t')
    (hnew : ∀ x : NodeId, base ≤ x → new x = []) : Chain t' base es p heads last := by
  induction hc with
  | nil p => exact .nil p
  | @cons e es p c leaves heads last hbase hlt helement hchildren hmembers hleaves _ ih =>
    refine .cons hbase (hs.lt hlt) (by rw [hs.element c hlt, helement])
      (by rw [hs.children c hlt, hchildren, hnew c hbase, List.append_nil]) ?_ ?_ ih
    · rw [← hmembers]
      exact List.map_congr_left fun l hl => hs.element l (hleaves l hl).2.1
    · intro l hl
      obtain ⟨hle, hlt, hnone⟩ := hleaves l hl
      exact ⟨hle, hs.lt hlt, by rw [hs.children l hlt, hnone, hnew l hle]; rfl⟩

/-- More nodes below the last one. -/
theorem Chain.extend {base : Nat} (hc : Chain t base [e] p [id] id) (h : t.Forest)
    (hs : t.Sprouts (only id heads) t') (hmore : Chain t' base es id heads last) :
    Chain t' base (e :: es) p [id] last := by
  cases hc with
  | @cons _ _ _ _ leaves none _ hbase hlt helement hchildren hmembers hleaves hnil =>
    cases hnil
    rw [List.append_nil] at hchildren
    refine .cons hbase (hs.lt hlt) (by rw [hs.element id hlt, helement])
      (by rw [hs.children id hlt, hchildren, only_self]) ?_ ?_ hmore
    · rw [← hmembers]
      exact List.map_congr_left fun l hl => hs.element l (hleaves l hl).2.1
    · intro l hl
      obtain ⟨hle, hllt, hnone⟩ := hleaves l hl
      have hne : l ≠ id := by
        rintro rfl
        exact h.not_above_parent (h.mem_children_iff.1 (hchildren ▸ hl)) .refl
      exact ⟨hle, hs.lt hllt, by rw [hs.children l hllt, hnone, only_of_ne _ hne]; rfl⟩

/-- A node that was made is put behind the children of an old one. -/
theorem Drafted.ensures_append (hd : Drafted t e id t') (h : t.Forest) (hp : p < t.size) :
    Build.Ensures (Build.append p id) t'
      (fun _ t'' => t.Sprouts (only p [id]) t'' ∧ Chain t'' t.size [e] p [id] id ∧
        t''.size = t'.size)
      fun _ => False := by
  have hforest := hd.sprouts.forest
  refine (hforest.ensures_append (hd.sprouts.lt hp) hd.lt_size hd.alone
    (hd.sprouts.not_above h hd.size_le hp)).mono ?_ fun _ hfalse => hfalse
  rintro _ t'' ⟨hforest', hsize, helement, hparent, hchildren, hdefaults⟩
  have hnew : ∀ x : NodeId, t.size ≤ x → only p [id] x = [] := fun x hx =>
    only_of_ne _ (Nat.ne_of_gt (Nat.lt_of_lt_of_le hp hx))
  refine ⟨⟨hforest', ?_, fun x hx => ?_, fun x hx => ?_, fun x hx => ?_, ?_⟩, ?_, hsize⟩
  · rw [hsize]
    exact hd.sprouts.size_le
  · rw [helement, hd.sprouts.element x hx]
  · rw [hparent, if_neg (Nat.ne_of_lt (Nat.lt_of_lt_of_le hx hd.size_le)), hd.sprouts.parent? x hx]
  · rw [hchildren, hd.sprouts.children x hx, Tree.nowhere_apply, List.append_nil]
  · rw [hdefaults, hd.sprouts.defaults]
  · have hleaves : t''.children id = t'.children id ++ [] := by
      rw [hchildren, hnew id hd.size_le]
    refine .cons hd.size_le (by rw [hsize]; exact hd.lt_size) ?_ hleaves ?_ ?_ (.nil id)
    · rw [helement, ← hd.entry]
      rfl
    · rw [← hd.entry]
      exact List.map_congr_left fun l _ => helement l
    · intro l hl
      have hle : t.size ≤ l := by
        by_contra hlt
        have hup := hforest.mem_children_iff.1 hl
        rw [hd.sprouts.parent? l (Nat.not_le.1 hlt)] at hup
        exact absurd (h.parent_lt hup) (Nat.not_lt.2 hd.size_le)
      refine ⟨hle, by rw [hsize]; exact hforest.child_lt hl, ?_⟩
      rw [hchildren, hd.childless l hl, hnew l hle]
      rfl

/-! ## The nodes of steps -/

/-- The first of some steps can be made below a node with the namespace `ns`. -/
def startable (bindings : Bindings) (ns : Option String) (steps : List Step) : Bool :=
  (steps.head?.bind fun step => step.draft? bindings ns).isSome

/-- The nodes of steps are made one below the other as they are drafted. A failure leaves a new
child exactly if the first step could be made. -/
theorem ensures_buildBelow (h : t.Forest) (hp : p < t.size) (steps : List Step) :
    Build.Ensures (buildBelow bindings steps p) t
      (fun last t' => ∃ es heads, drafts bindings (t.ns? p) steps = some es ∧
        t.Sprouts (only p heads) t' ∧ Chain t' t.size es p heads last ∧
        t'.size = t.size + nodeCount es)
      fun t' => ∃ heads, heads.length ≤ 1 ∧ t.Sprouts (only p heads) t' ∧
        (heads = [] ↔ startable bindings (t.ns? p) steps = false) := by
  induction steps generalizing t p with
  | nil =>
    exact Build.ensures_pure.2 ⟨[], [], rfl, h.sprouts.congr fun x _ => by simp [only], .nil p, rfl⟩
  | cons step steps ih =>
    refine Build.ensures_bind.2 ((ensures_build h step p).mono ?_ ?_)
    · rintro id t₁ ⟨e, he, hd⟩
      refine Build.ensures_bind.2 ((hd.ensures_append h hp).mono ?_ fun _ hfalse => hfalse.elim)
      rintro _ t₂ ⟨hs₂, hchain₂, hsize₂⟩
      have hlt₂ : id < t₂.size := by rw [hsize₂]; exact hd.lt_size
      have hns : t₂.ns? id = e.element.ns := by
        cases hchain₂ with
        | cons _ _ helement => rw [Tree.ns?, helement]
      -- what is put below the new node is nothing new to the old ones
      have hold : ∀ heads : List NodeId, ∀ x < t.size,
          only p [id] x = only p [id] x ++ only id heads x := fun heads x hx => by
        rw [only_of_ne heads (Nat.ne_of_lt (Nat.lt_of_lt_of_le hx hd.size_le)), List.append_nil]
      refine (ih hs₂.forest hlt₂).mono ?_ ?_
      · rintro last t₃ ⟨es, heads, hes, hs₃, hchain₃, hsize₃⟩
        rw [hns] at hes
        refine ⟨e :: es, [id], drafts_cons.2 ⟨e, es, he, hes, rfl⟩,
          (hs₂.trans hs₃).congr (hold heads),
          hchain₂.extend hs₂.forest hs₃ (hchain₃.mono hs₂.size_le), ?_⟩
        rw [hsize₃, hsize₂, hd.size, nodeCount]
        omega
      · rintro t₃ ⟨heads, -, hs₃, -⟩
        exact ⟨[id], Nat.le_refl _, (hs₂.trans hs₃).congr (hold heads), by simp [startable, he]⟩
    · rintro t₁ ⟨hnone, hs⟩
      exact ⟨[], by simp, hs.congr fun x _ => by simp [only], by simp [startable, hnone]⟩

/-- Steps that are all made have a first node if the first of them could be made. -/
theorem Chain.heads_eq_nil_iff {base : Nat} {ns : Option String} {steps : List Step}
    (hc : Chain t base es p heads last) (hes : drafts bindings ns steps = some es) :
    heads = [] ↔ startable bindings ns steps = false := by
  cases steps with
  | nil =>
    cases hes
    cases hc
    exact iff_of_true rfl rfl
  | cons step steps =>
    obtain ⟨e, es, he, -, rfl⟩ := drafts_cons.1 hes
    cases hc
    simp [startable, he]

/-- Steps that make no node are none. -/
theorem Chain.steps_eq_nil {base : Nat} {ns : Option String} {steps : List Step}
    (hc : Chain t base es p heads last) (hes : drafts bindings ns steps = some es)
    (hnone : heads = []) : steps = [] := by
  cases steps with
  | nil => rfl
  | cons step steps =>
    obtain ⟨e, es, -, -, rfl⟩ := drafts_cons.1 hes
    cases hc
    cases hnone

/-- The nodes of the same steps are made below several nodes, as they are drafted below each. A
failure leaves new children exactly if the first step could be made below the first node. -/
theorem ensures_buildBelowAll (h : t.Forest) {ps : List NodeId} (hps : ∀ p ∈ ps, p < t.size)
    (hnodup : ps.Nodup) (steps : List Step) :
    Build.Ensures (buildBelowAll steps ps) t
      (fun ends t' => ∃ new, t.Sprouts new t' ∧ (∀ x : NodeId, x ∉ ps → new x = []) ∧
        List.Forall₂ (fun p last => ∃ es, drafts (t.bindingsAt p) (t.ns? p) steps = some es ∧
          Chain t' t.size es p (new p) last) ps ends)
      fun t' => ∃ new, t.Sprouts new t' ∧ (∀ x : NodeId, (new x).length ≤ 1) ∧
        (∀ x : NodeId, x ∉ ps → new x = []) ∧
        ((∀ x : NodeId, new x = []) ↔
          ps.head?.any (fun p => startable (t.bindingsAt p) (t.ns? p) steps) = false) := by
  induction ps generalizing t with
  | nil => exact Build.ensures_pure.2 ⟨nowhere, h.sprouts, fun x _ => rfl, .nil⟩
  | cons p ps ih =>
    obtain ⟨hp, hps⟩ := List.forall_mem_cons.1 hps
    obtain ⟨hpps, hnodup⟩ := List.nodup_cons.1 hnodup
    refine Build.ensures_bind.2 (Build.ensures_get.2 ?_)
    refine Build.ensures_bind.2 ((ensures_buildBelow h hp steps).mono ?_ ?_)
    · rintro last t₁ ⟨es, heads, hes, hs₁, hchain, -⟩
      have hps₁ : ∀ q ∈ ps, q < t₁.size := fun q hq => hs₁.lt (hps q hq)
      refine Build.ensures_bind.2 ((ih hs₁.forest hps₁ hnodup).mono ?_ ?_)
      · rintro ends t₂ ⟨new, hs₂, hnew, hall⟩
        have hbehind : ∀ x : NodeId, t.size ≤ x → new x = [] := fun x hx =>
          hnew x fun hxps => absurd (hps x hxps) (Nat.not_lt.2 hx)
        refine Build.ensures_pure.2
          ⟨_, hs₁.trans hs₂, fun x => Tree.only_append_eq_nil hnew, .cons ?_ ?_⟩
        · rw [only_self, hnew p hpps, List.append_nil]
          exact ⟨es, hes, hchain.sprouts hs₂ hbehind⟩
        · refine ((List.forall₂_and_left ps ends).2 ⟨fun q hq => hq, hall⟩).imp ?_
          rintro q last ⟨hq, es, hes, hchain⟩
          rw [hs₁.bindingsAt h (hps q hq), hs₁.ns? (hps q hq)] at hes
          rw [only_of_ne _ (ne_of_mem_of_not_mem hq hpps), List.nil_append]
          exact ⟨es, hes, hchain.mono hs₁.size_le⟩
      · rintro t₂ ⟨new, hs₂, hle, hnew, hiff⟩
        refine ⟨_, hs₁.trans hs₂, fun x => ?_, fun x => Tree.only_append_eq_nil hnew, ?_⟩
        · by_cases hx : x = p
          · rw [hx, only_self, hnew p hpps, List.append_nil]
            exact hchain.length_heads
          · rw [only_of_ne _ hx]
            exact hle x
        · rw [List.head?_cons, Option.any_some, ← hchain.heads_eq_nil_iff hes]
          simp only [List.append_eq_nil_iff, forall_and, Tree.forall_only_eq_nil]
          refine and_iff_left_of_imp fun hnone => hiff.2 ?_
          -- no step was to be made, so none could fail
          have hsteps : ∀ bindings ns, startable bindings ns steps = false := by
            intro bindings ns
            rw [hchain.steps_eq_nil hes hnone]
            rfl
          cases ps.head? <;> simp [hsteps]
    · rintro t₁ ⟨heads, hheads, hs₁, hiff⟩
      refine ⟨_, hs₁, fun x => (Tree.length_only_le p heads x).trans hheads, fun x hx => ?_, ?_⟩
      · exact only_of_ne _ fun he => hx (he ▸ List.mem_cons_self)
      · rw [List.head?_cons, Option.any_some, ← hiff]
        exact Tree.forall_only_eq_nil

end Netconf.Path
