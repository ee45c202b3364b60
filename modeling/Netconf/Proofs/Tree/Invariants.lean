import Mathlib.Data.List.Basic
import Netconf.Proofs.Tree.Identity
import Netconf.Proofs.Tree.Reachable

/-!
# Invariants of elements

Elements get into a tree as new ones or as copies, and once they are there every operation changes
them by `Tree.ElementChange` only. What such a change can make of an element is said once
(`Element.becomes_apply`). So what holds of new elements and is kept by the changes
(`Element.Invariant`) holds of all elements of a tree that was read, and calls, edits among them,
keep it whether they succeed or fail (`Tree.Call.each_run`). It holds of all elements of every
reachable tree (`Tree.Reachable.each`).
-/

namespace Netconf

/-! ## Elements -/

/-- An attribute that declares nothing: it is not in the namespace of declarations, and without
namespace its name is none of those that declare. -/
structure Attribute.Plain (a : Attribute) : Prop where
  /-- The attribute is not in the namespace of declarations. -/
  ns_ne : a.ns ≠ some nsXmlns
  /-- The attribute does not declare a default namespace. -/
  name_ne : a.ns = none → a.name ≠ "xmlns"
  /-- The attribute does not declare a label. -/
  not_prefix : a.ns = none → ¬ "xmlns:".toList <+: a.name.toList

namespace Element

/-- What a change can make of an element. -/
inductive Becomes (e : Element) : Element → Prop where
  /-- The element has another value and another kind. -/
  | content (value : Option Value) (kind : Kind) : Becomes e { e with value, kind }
  /-- Some attributes are gone. -/
  | erased {as : List Attribute} (h : as.Sublist e.attributes) :
    Becomes e { e with attributes := as }
  /-- An attribute that declares nothing is put. -/
  | put {a : Attribute} (h : a.Plain) :
    Becomes e { e with attributes := putAttribute e.attributes a }
  /-- Labels are bound. -/
  | bound (m : Bindings) : Becomes e (e.bindAll m)
  /-- Bindings are added. -/
  | merged (m : Bindings) : Becomes e (e.mergeBindings m)
  /-- Some bindings are gone. -/
  | unbound {m : Bindings} (h : m.toList.Sublist e.bindings.toList) :
    Becomes e { e with bindings := m }

/-- Binding one label is binding labels. -/
theorem becomes_bind (e : Element) (b : Binding) : e.Becomes (e.bind b) := .bound ⟨[b]⟩

/-- Setting an attribute binds a label if its name declares one, and else the attribute is put. -/
theorem becomes_setAttribute (e : Element) (name value : String) :
    e.Becomes (e.setAttribute name value) := by
  unfold setAttribute
  split
  · exact e.becomes_bind _
  · next hname =>
    split
    · exact e.becomes_bind _
    · next hnone =>
      refine .put ⟨nofun, fun _ => hname, fun _ hprefix => ?_⟩
      obtain ⟨label, hlabel⟩ := hprefix
      have hsome := List.isPrefixOf?_eq_some_iff_append_eq.2 hlabel
      exact nomatch hnone.symm.trans hsome

/-- Setting an attribute in a namespace binds a label if that is the namespace of declarations, and
else the attribute is put. -/
theorem becomes_setAttributeIn (e : Element) (ns name value : String) :
    e.Becomes (e.setAttributeIn ns name value) := by
  unfold setAttributeIn
  split
  · split
    · exact e.becomes_setAttribute name value
    · exact e.becomes_bind _
  · next hns => exact .put ⟨fun heq => hns (Option.some.inj heq), nofun, nofun⟩

/-- What every change makes of an element. -/
theorem becomes_apply (e : Element) (c : Tree.ElementChange) : e.Becomes (c.apply e) := by
  cases c with
  | value v => exact .content v e.kind
  | kind k => exact .content e.value k
  | setAttribute name v => exact e.becomes_setAttribute name v
  | setAttributeIn ns name v => exact e.becomes_setAttributeIn ns name v
  | eraseAttribute | eraseAttributeIn | unmark => exact .erased List.eraseP_sublist
  | bind b => exact e.becomes_bind b
  | bindAll m => exact .bound m
  | mergeBindings m => exact .merged m
  | bindOwn label =>
    show e.Becomes (e.bindOwn label)
    unfold bindOwn
    split
    · exact e.becomes_bind _
    · exact .content e.value e.kind
  | unbind => exact .unbound List.filter_sublist
  | mark o => exact e.becomes_setAttributeIn nsNetconf markName o.name

end Element

/-- A property that new elements have and that every change of an element keeps. -/
structure Element.Invariant (P : Element → Prop) : Prop where
  /-- A new element has the property. -/
  new : ∀ ns name value, P { ns, name, value }
  /-- A change keeps the property. -/
  apply : ∀ {e : Element}, P e → ∀ c : Tree.ElementChange, P (c.apply e)

namespace Element.Invariant

/-- A property of attributes is an invariant if it is kept when some are taken away and when one is
put that declares nothing. -/
theorem of_attributes {Q : List Attribute → Prop} (hnil : Q [])
    (hsublist : ∀ {as bs}, Q as → bs.Sublist as → Q bs)
    (hput : ∀ {as a}, Q as → a.Plain → Q (putAttribute as a)) :
    Invariant fun e => Q e.attributes where
  new _ _ _ := hnil
  apply {e} h c := by
    have hbecomes := e.becomes_apply c
    generalize c.apply e = e' at hbecomes ⊢
    cases hbecomes with
    | erased hsub => exact hsublist h hsub
    | put ha => exact hput h ha
    | content | bound | merged | unbound => exact h

/-- A property of bindings is an invariant if it is kept when some are taken away, when one is made
and when one is added. -/
theorem of_bindings {Q : Bindings → Prop} (hempty : Q .empty)
    (hsublist : ∀ {m m' : Bindings}, Q m → m'.toList.Sublist m.toList → Q m')
    (hset : ∀ {m}, Q m → ∀ b, Q (m.set b)) (hadd : ∀ {m}, Q m → ∀ b, Q (m.add b)) :
    Invariant fun e => Q e.bindings where
  new _ _ _ := hempty
  apply {e} h c := by
    have hbecomes := e.becomes_apply c
    generalize c.apply e = e' at hbecomes ⊢
    cases hbecomes with
    | unbound hsub => exact hsublist h hsub
    | bound m => exact m.toList.foldlRecOn _ h fun _ hm b _ => hset hm b
    | merged m => exact m.toList.foldlRecOn _ h fun _ hm b _ => hadd hm b
    | content | erased | put => exact h

end Element.Invariant

variable {P : Element → Prop}

/-! ## Branches -/

namespace Branch

/-- All elements of a branch have a property. -/
def Each (P : Element → Prop) (b : Branch) : Prop := b.All fun c => P c.element

variable {b : Branch}

/-- The children that are keys are some of the children. -/
theorem Each.keysOnly (h : b.Each P) : b.keysOnly.Each P := by
  obtain ⟨id, e, children⟩ := b
  obtain ⟨he, hchildren⟩ := all_iff.1 h
  exact all_iff.2 ⟨he, fun c hc => hchildren c (List.mem_filter.1 hc).1⟩

/-- The slots of a copy carry the elements of what is copied. -/
theorem Each.of_mem_layout (h : b.Each P) (base : Nat) (parent : Option NodeId) :
    ∀ n ∈ b.layout base parent, P n.element := by
  refine (Branch.mutualInduction
    (P := fun b => b.Each P → ∀ base parent, ∀ n ∈ b.layout base parent, P n.element)
    (Q := fun bs => (∀ b ∈ bs, b.Each P) → ∀ next parent,
      ∀ n ∈ Branch.layoutAll next parent bs, P n.element) ?_ ?_ ?_).1 b h base parent
  · intro id e children ih h base parent n hn
    obtain ⟨he, hchildren⟩ := Branch.all_iff.1 h
    rw [Branch.layout, List.mem_cons] at hn
    rcases hn with rfl | hn
    · exact he
    · exact ih hchildren _ _ n hn
  · intro _ _ _ n hn
    cases hn
  · intro b bs ihb ihbs h next parent n hn
    rw [Branch.layoutAll, List.mem_append] at hn
    rcases hn with hn | hn
    · exact ihb (h b (by simp)) _ _ n hn
    · exact ihbs (fun c hc => h c (by simp [hc])) _ _ n hn

end Branch

/-! ## Trees -/

namespace Tree

/-- All elements of a tree have a property. -/
def Each (P : Element → Prop) (t : Tree) : Prop := ∀ x, P (t.element x)

variable {t : Tree}

namespace Each

/-- The branches of the tree have the property. -/
theorem branchTo (h : t.Each P) (depth : Nat) (id : NodeId) : (t.branchTo depth id).Each P := by
  induction depth generalizing id with
  | zero => exact Branch.all_iff.2 ⟨h id, nofun⟩
  | succ depth ih =>
    refine Branch.all_iff.2 ⟨h id, fun c hc => ?_⟩
    obtain ⟨x, -, rfl⟩ := List.mem_map.1 hc
    exact ih x

/-- The branches of the tree have the property. -/
theorem branch (h : t.Each P) (id : NodeId) : (t.branch id).Each P := h.branchTo t.size id

/-- A new node with the property. -/
theorem create (h : t.Each P) {e : Element} (he : P e) : (t.create e).1.Each P := by
  intro x
  rw [element_create]
  split
  · exact he
  · exact h x

/-- A change that keeps the property. -/
theorem modifyElement (h : t.Each P) (id : NodeId) {f : Element → Element}
    (hf : ∀ e, P e → P (f e)) : (t.modifyElement id f).Each P := by
  intro x
  rw [element_modifyElement]
  split
  · exact hf _ (h _)
  · exact h x

/-- Changes of several elements that keep the property. -/
theorem foldl_modifyElement (h : t.Each P) (ids : List NodeId) {f : Element → Element}
    (hf : ∀ e, P e → P (f e)) : (ids.foldl (fun t id => t.modifyElement id f) t).Each P := by
  induction ids generalizing t with
  | nil => exact h
  | cons id ids ih => exact ih (h.modifyElement id hf)

/-- Putting a node somewhere changes no element. -/
theorem insertAt (h : t.Each P) {t' : Tree} {parent child : NodeId} {index : Nat}
    (hi : t.insertAt parent child index = .ok t') : t'.Each P := by
  unfold Tree.insertAt at hi
  split at hi
  · cases hi
  · cases hi
    intro x
    rw [element_modify_parent, element_modify_children]
    exact h x

/-- Taking nodes away changes no element. -/
theorem detachAll (h : t.Each P) (ids : List NodeId) : (t.detachAll ids).Each P := by
  induction ids generalizing t with
  | nil => exact h
  | cons id ids ih => exact ih fun x => by rw [element_detach]; exact h x

/-- Taking a child away changes no element. -/
theorem removeChild (h : t.Each P) {t' : Tree} {parent child : NodeId}
    (hr : t.removeChild parent child = .ok t') : t'.Each P := by
  unfold Tree.removeChild at hr
  split at hr
  · cases hr
    exact h.detachAll [child]
  · cases hr

/-- A change that leaves the tree when it fails. -/
theorem getD (h : t.Each P) {r : Except Error Tree} (hr : ∀ t', r = .ok t' → t'.Each P) :
    (r.toOption.getD t).Each P := by
  cases r with
  | error e => exact h
  | ok t' => exact hr t' rfl

/-- A change of the nodes that a path selects. -/
theorem changeSelected (h : t.Each P) (id : NodeId) (path : String)
    {f : List NodeId → Tree} (hf : ∀ ids, (f ids).Each P) :
    ((t.changeSelected id path f).toOption.getD t).Each P := by
  refine h.getD fun t' ht' => ?_
  unfold Tree.changeSelected at ht'
  cases hq : t.query id path with
  | error e => rw [hq] at ht'; cases ht'
  | ok ids => rw [hq] at ht'; cases ht'; exact hf ids

/-! ### Copies -/

variable (hP : Element.Invariant P)
include hP

/-- An empty tree. -/
theorem empty (r : Registry) : (Tree.empty r).Each P := fun _ => hP.new none "" none

/-- What the slots of a copy carry has the property. -/
theorem element_addCopy {b : Branch} (hb : b.Each P) {x : Nat} (hx : t.size ≤ x) :
    P ((t.addCopy b).1.element x) := by
  rcases Nat.lt_or_ge x (t.addCopy b).1.size with hx' | hx'
  -- a slot of the copy holds the node at its place in the layout
  · obtain ⟨i, rfl⟩ := Nat.exists_eq_add_of_le hx
    have hi : i < (b.layout t.size none).length := by
      rw [length_layout]
      rw [size_addCopy] at hx'
      exact Nat.lt_of_add_lt_add_left hx'
    have hnode := holdsAt_addCopy t b i hi
    rw [element, hnode]
    exact hb.of_mem_layout _ _ _ (List.getElem_mem hi)
  · rw [element, node_of_size_le hx']
    exact hP.new none "" none

/-- A copy of a branch with the property. -/
theorem addCopy (h : t.Each P) {b : Branch} (hb : b.Each P) : (t.addCopy b).1.Each P := by
  intro x
  rcases Nat.lt_or_ge x t.size with hx | hx
  · rw [element_addCopy_of_lt b hx]
    exact h x
  · exact element_addCopy hP hb hx

end Each

end Tree

/-! ## Changes in several parts -/

/-- A change keeps the property of the elements of trees, whether it succeeds or fails. -/
def Build.Maintains (P : Element → Prop) {α : Type} (b : Build α) : Prop :=
  ∀ t, t.Each P → Build.Ensures b t (fun _ t' => t'.Each P) (Tree.Each P)

namespace Build.Maintains

variable {α β : Type}

/-- A result that is there already. -/
theorem pure (a : α) : Maintains P (Pure.pure a) := fun _ h => ensures_pure.2 h

/-- A failure. -/
theorem throw (e : Error) : Maintains P (MonadExcept.throw e : Build α) := fun _ h =>
  ensures_throw.2 h

/-- One change after the other. -/
theorem bind {b : Build α} {f : α → Build β} (hb : Maintains P b) (hf : ∀ a, Maintains P (f a)) :
    Maintains P (b >>= f) := fun t h =>
  Ensures.bind (hb t h) fun a t' h' => hf a t' h'

/-- Reading the tree in front of a change. -/
theorem get_bind {f : Tree → Build α} (hf : ∀ t, Maintains P (f t)) :
    Maintains P (get >>= f) := fun t h => ensures_bind.2 (ensures_get.2 (hf t t h))

/-- Making a node of an element with the property. -/
theorem create {e : Element} (he : P e) : Maintains P (Build.create e) := fun _ h =>
  ensures_change.2 (h.create he)

/-- Putting a node somewhere. -/
theorem insertAt (parent child index : Nat) :
    Maintains P (attempt fun t => t.insertAt parent child index) := fun _ h =>
  ensures_attempt (fun _ hi => h.insertAt hi) fun _ _ => h

/-- Putting a node behind the children of another. -/
theorem append (parent child : Nat) : Maintains P (Build.append parent child) := fun _ h =>
  ensures_attempt (fun _ hi => h.insertAt hi) fun _ _ => h

/-- Changing an element in a way that keeps the property. -/
theorem modifyElement (id : Nat) {f : Element → Element} (hf : ∀ e, P e → P (f e)) :
    Maintains P (Build.modifyElement id f) := fun _ h =>
  ensures_modifyElement.2 (h.modifyElement id hf)

/-- Copying a branch with the property. -/
theorem addCopy (hP : Element.Invariant P) {b : Branch} (hb : b.Each P) :
    Maintains P (Build.addCopy b) := fun _ h =>
  ensures_change.2 (h.addCopy hP hb)

/-- Marking a node. -/
theorem mark (hP : Element.Invariant P) (id : Nat) (o : Operation) :
    Maintains P (Build.mark id o) :=
  modifyElement id fun _ he => hP.apply he (.mark o)

/-- What such a change leaves has the property. -/
theorem on {b : Build α} (hb : Maintains P b) {t : Tree} (h : t.Each P) :
    (Build.on t b).2.Each P :=
  Ensures.on (hb t h)

end Build.Maintains

open Build (Maintains)

variable (hP : Element.Invariant P)
include hP

/-! ### Excerpts -/

namespace Tree

variable {src : Tree}

/-- A marked copy of a node. -/
theorem Each.addMarkedCopy (h : src.Each P) (id : NodeId) (o : Operation) :
    Maintains P (src.addMarkedCopy id o) := by
  have hbranch : (src.branchFor id o).Each P := by
    unfold branchFor
    split
    · exact (h.branch id).keysOnly
    · exact h.branch id
  exact .bind (.addCopy hP hbranch) fun copy => .bind (.mark hP copy o) fun _ => .pure copy

/-- The way down to a copy. -/
theorem Each.descend (h : src.Each P) (ids : List NodeId) (parent : NodeId) :
    Maintains P (src.descend ids parent) := by
  induction ids generalizing parent with
  | nil => exact .pure parent
  | cons id ids ih =>
    refine .get_bind fun t => ?_
    split
    · next c _ => exact ih c
    · exact .bind (.addCopy hP (h.branch id).keysOnly) fun c =>
        .bind (.append parent c) fun _ => ih c

/-- A copy below the root of an excerpt. -/
theorem Each.excerptBelow (h : src.Each P) (below : List NodeId) (o : Operation)
    (root : NodeId) : Maintains P (src.excerptBelow below o root) := by
  unfold Tree.excerptBelow
  split
  · exact .pure root
  · next id _ =>
    exact .bind (h.descend hP _ root) fun parent => .bind (h.addMarkedCopy hP id o) fun copy =>
      .bind (.append parent copy) fun _ => .pure root

/-- An excerpt. -/
theorem Each.excerptInto (h : src.Each P) (id : NodeId) (o : Operation)
    (root : Option NodeId) : Maintains P (src.excerptInto id o root) := by
  have hbelow : ∀ r, Maintains P (do
      let t ← get
      if src.compare (src.topOf id) t r = .different then
        throw (.missing (src.path (src.topOf id) ++ ", " ++ t.path r))
      else src.excerptBelow (src.ancestry id).tail o r) := by
    intro r
    refine .get_bind fun t => ?_
    split
    · exact .throw _
    · exact h.excerptBelow hP _ o r
  unfold Tree.excerptInto
  dsimp only
  split
  · exact h.addMarkedCopy hP id o
  · cases root with
    | none => exact .bind (.addCopy hP (h.branch _).keysOnly) hbelow
    | some r => exact .bind (.pure r) hbelow

end Tree

/-! ### Edits -/

namespace Edit

/-- A copy without marks. -/
theorem maintains_addUnmarkedCopy {b : Branch} (hb : b.Each P) :
    Maintains P (addUnmarkedCopy b) := fun _ h =>
  Build.ensures_change.2
    ((h.addCopy hP hb).foldl_modifyElement _ fun _ he => hP.apply he .unmark)

omit hP in
/-- Taking a child away. -/
theorem maintains_remove (parent child : NodeId) : Maintains P (remove parent child) :=
  fun _ h => Build.ensures_attempt (fun _ hr => h.removeChild hr) fun _ _ => h

/-- Putting a copy in the place of a child. -/
theorem maintains_replace (parent child : NodeId) {b : Branch} (hb : b.Each P) :
    Maintains P (replace parent child b) :=
  .get_bind fun _ => .bind (maintains_remove parent child) fun _ =>
    .bind (maintains_addUnmarkedCopy hP hb) fun _ => .insertAt _ _ _

omit hP in
/-- Applying edit nodes, when applying each of them keeps the property. -/
theorem maintains_applyAll_of {defaults : Bindings} {above : Lineage} {parent : NodeId}
    {inherited : Operation} {bs : List Branch}
    (hbs : ∀ b ∈ bs, Maintains P (applyNode defaults above parent inherited b)) :
    Maintains P (applyAll defaults above parent inherited bs) := by
  induction bs with
  | nil => exact .pure ()
  | cons b bs ih =>
    exact .bind (hbs b (by simp)) fun _ => ih fun c hc => hbs c (by simp [hc])

/-- Applying an edit node. -/
theorem maintains_applyNode (defaults : Bindings) {b : Branch} (hb : b.Each P) :
    ∀ (above : Lineage) (parent : NodeId) (inherited : Operation),
      Maintains P (applyNode defaults above parent inherited b) := by
  refine (Branch.mutualInduction
    (P := fun b => b.Each P → ∀ above parent inherited,
      Maintains P (applyNode defaults above parent inherited b))
    (Q := fun bs => ∀ b ∈ bs, b.Each P → ∀ above parent inherited,
      Maintains P (applyNode defaults above parent inherited b)) ?_ ?_ ?_).1 b hb
  · intro id e children ih h above parent inherited
    obtain ⟨-, hchildren⟩ := Branch.all_iff.1 h
    unfold applyNode
    refine .get_bind fun t => ?_
    split
    · exact maintains_remove parent _
    · exact .throw _
    · exact .throw _
    · exact maintains_replace hP parent _ h
    · next c _ _ =>
      split
      · exact maintains_applyAll_of fun b hb => ih b hb (hchildren b hb) _ _ _
      · exact .modifyElement c fun own hown => hP.apply hown (.value e.value)
    · exact .bind (maintains_addUnmarkedCopy hP h) fun copy => .append parent copy
  · intro b hb
    cases hb
  · intro b bs ihb ihbs c hc
    rcases List.mem_cons.1 hc with rfl | hc
    · exact ihb
    · exact ihbs c hc

/-- Applying the edit at a node of another tree. -/
theorem maintains_apply (root : NodeId) {edit : Tree} (h : edit.Each P) (editRoot : NodeId) :
    Maintains P (apply root edit editRoot) := by
  obtain ⟨-, hchildren⟩ := Branch.all_iff.1 (h.branch editRoot)
  refine .get_bind fun t => ?_
  split
  · exact .throw _
  · exact maintains_applyAll_of fun b hb => maintains_applyNode hP _ (hchildren b hb) _ _ _

end Edit

/-! ### Paths -/

namespace Path

/-- Assigning what a predicate says. -/
theorem maintains_assign (bindings : Bindings) (id : NodeId) (predicate : Expr) :
    Maintains P (assign bindings id predicate) := by
  unfold assign
  split
  · next label name l =>
    have hmake : ∀ ns : String, Maintains P (do
        let child ← Build.create { ns := some ns, name := name, value := some (.text l.assigned) }
        Build.append id child) := fun ns =>
      .bind (.create (hP.new _ _ _)) fun child => .append id child
    refine .get_bind fun t => ?_
    cases label with
    | none => exact hmake _
    | some p =>
      cases hns : bindings.ns? p with
      | none => simp only [hns]; exact .throw _
      | some ns => simp only [hns]; exact hmake ns
  · exact .modifyElement id fun e he => hP.apply he (.setAttribute _ _)
  · exact .throw _

/-- Assigning what several predicates say. -/
theorem maintains_assignAll (bindings : Bindings) (id : NodeId) (predicates : List Expr) :
    Maintains P (assignAll bindings id predicates) := by
  induction predicates with
  | nil => exact .pure ()
  | cons e es ih => exact .bind (maintains_assign hP bindings id e) fun _ => ih

/-- Making the node of a step. -/
theorem maintains_build (step : Step) (bindings : Bindings) (parent : Option NodeId) :
    Maintains P (step.build bindings parent) := by
  unfold Step.build
  split
  · refine .get_bind fun t => ?_
    split
    · exact .throw _
    · exact .bind (.create (hP.new _ _ _)) fun id =>
        .bind (maintains_assignAll hP bindings id _) fun _ => .pure id
  · exact .throw _

/-- Making the nodes of steps below a node. -/
theorem maintains_buildBelow (bindings : Bindings) (steps : List Step) (parent : NodeId) :
    Maintains P (buildBelow bindings steps parent) := by
  induction steps generalizing parent with
  | nil => exact .pure parent
  | cons step steps ih =>
    exact .bind (maintains_build hP step bindings _) fun id =>
      .bind (.append parent id) fun _ => ih id

/-- Making the nodes of steps below several nodes. -/
theorem maintains_buildBelowAll (steps : List Step) (parents : List NodeId) :
    Maintains P (buildBelowAll steps parents) := by
  induction parents with
  | nil => exact .pure []
  | cons parent parents ih =>
    exact .get_bind fun _ => .bind (maintains_buildBelow hP _ steps parent) fun _ =>
      .bind ih fun _ => .pure _

/-- Making the nodes of a path below a node. -/
theorem maintains_buildSteps (id : NodeId) (reuse : Reuse) (text : String)
    (steps : List Step) : Maintains P (buildSteps id reuse text steps) := by
  unfold buildSteps
  refine .get_bind fun t => ?_
  split
  · exact .bind (maintains_buildBelow hP _ steps id) fun _ => .pure _
  · split
    · exact .throw _
    · exact .pure _
    · split
      · exact .throw _
      · exact maintains_buildBelowAll hP _ _

/-- Creating a path. -/
theorem maintains_create (id : NodeId) (reuse : Reuse) (bindings : Option Bindings)
    (text : String) : Maintains P (create id reuse bindings text) := by
  unfold create
  split
  · exact .throw _
  · exact .bind (.modifyElement id fun _ he => hP.apply he (.bindAll _)) fun _ =>
      maintains_buildSteps hP id reuse text _

/-- Creating a path that stands alone. -/
theorem maintains_createAlone (bindings : Bindings) (text : String) :
    Maintains P (createAlone bindings text) := by
  unfold createAlone
  split
  · exact .throw _
  · exact .throw _
  · exact .bind (maintains_build hP _ bindings none) fun top =>
      .bind (maintains_buildBelow hP bindings _ top) fun _ => .pure top

end Path

/-! ## Documents -/

namespace Xml

open Netconf.Tree

/-- Giving an element the attributes of its tag keeps the property. -/
theorem each_addAttributes {t : Tree} {declared : Bindings} {parent : Option NodeId}
    {e e' : Element} {attributes : List RawAttribute} (h : P e)
    (ha : addAttributes t declared parent e attributes = .ok e') : P e' := by
  induction attributes generalizing e with
  | nil => cases ha; exact h
  | cons a as ih =>
    unfold addAttributes at ha
    split at ha
    · cases ha
    next e₁ h₁ =>
    refine ih ?_ ha
    unfold addAttribute at h₁
    split at h₁
    · cases h₁; exact h
    · dsimp only at h₁
      split at h₁
      · cases h₁; exact hP.apply h (.setAttribute _ _)
      · split at h₁
        · cases h₁; exact hP.apply h (.setAttributeIn _ _ _)
        · cases h₁

/-- The element of a tag has the property. -/
theorem each_readElement {t : Tree} {schema : Option Schema} {parent : Option NodeId}
    {name attributes : List Char} {e : Element}
    (h : readElement t schema parent name attributes = .ok e) : P e := by
  unfold readElement at h
  dsimp only at h
  split at h
  · cases h
  next raw _ =>
  split at h
  · cases h
  split at h
  · cases h
  next e₁ h₁ =>
  have hnew := hP.new (resolve t (declaredBindings raw) parent (splitName name).1)
    (splitName name).2 none
  have he : P e₁ := each_addAttributes hP (hP.apply hnew (.bindAll _)) h₁
  split at h
  · cases h; exact hP.apply he (.kind _)
  · cases h; exact he

/-- Adding the element of a tag to a draft. -/
theorem each_addElement {s s' : Draft} (h : s.tree.Each P) {schema : Option Schema}
    {name attributes : List Char} {id : NodeId}
    (ha : s.addElement schema name attributes = .ok (id, s')) : s'.tree.Each P := by
  unfold Draft.addElement at ha
  split at ha
  · cases ha
  next e he =>
  have hmade := h.create (each_readElement hP he)
  dsimp only at ha
  split at ha
  · cases ha; exact hmade
  · split at ha
    · cases ha
    next t' ht' =>
    cases ha
    exact hmade.insertAt ht'

/-- Adding a text to a draft. -/
theorem each_addText {s : Draft} (h : s.tree.Each P) (cs : List Char) :
    (s.addText cs).tree.Each P := by
  unfold Draft.addText
  dsimp only
  split
  · exact h
  · split
    · exact h
    · exact h.modifyElement _ fun e he => hP.apply he (.value _)

/-- Adding items to a draft. -/
theorem each_addAll {s s' : Draft} (h : s.tree.Each P) {schema : Option Schema}
    {ms : List Markup} (ha : s.addAll schema ms = .ok s') : s'.tree.Each P := by
  induction ms generalizing s with
  | nil => cases ha; exact h
  | cons m ms ih =>
    unfold Draft.addAll at ha
    split at ha
    · cases ha
    next s₁ h₁ =>
    refine ih ?_ ha
    unfold Draft.add at h₁
    split at h₁
    · split at h₁
      · cases h₁
      next h₂ =>
      have hadded := each_addElement hP h h₂
      cases h₁
      exact hadded
    · split at h₁
      · cases h₁
      next h₂ =>
      have hadded := each_addElement hP h h₂
      cases h₁
      exact hadded
    · split at h₁
      · split at h₁
        · cases h₁; exact h
        · cases h₁
      · cases h₁
    · split at h₁
      · cases h₁; exact each_addText hP h _
      · cases h₁
    · cases h₁; exact each_addText hP h _

/-- The elements of a document that was read have the property. -/
theorem each_parse {r : Registry} {schema : Option Schema} {xml : String} {d : Document}
    (h : parse r schema xml = .ok d) : d.tree.Each P := by
  unfold parse at h
  dsimp only at h
  split at h
  · cases h
  next s hs =>
  have hs' := each_addAll hP (.empty hP r) hs
  unfold Draft.finish at h
  split at h
  · cases h
  · split at h
    · cases h
    · cases h
    · cases h; exact hs'

end Xml

/-! ## Reachable trees -/

namespace Tree

variable {t : Tree}

/-- A call keeps the property of a tree's elements, when the elements of the trees that it is given
have it. -/
theorem Call.each_run (c : Call) (h : t.Each P) (htrees : ∀ src ∈ c.sources, src.tree.Each P) :
    (c.run t).Each P := by
  cases c with
  | create ns name value => exact h.create (hP.new ns name value)
  | createChild parent name value =>
    have hmade := h.create (hP.new (t.ns? parent) name none)
    rw [run]
    unfold Tree.createChild
    dsimp only
    split
    · exact hmade
    · next placed hplaced =>
      exact (hmade.insertAt hplaced).modifyElement _ fun e he => hP.apply he (.value value)
  | insertAt parent child index => exact h.getD fun _ hi => h.insertAt hi
  | append parent child => exact h.getD fun _ hi => h.insertAt hi
  | insertFirst parent child => exact h.getD fun _ hi => h.insertAt hi
  | insertOrdered parent child order => exact h.getD fun _ hi => h.insertAt hi
  | detach id => exact h.detachAll [id]
  | removeChild parent child => exact h.getD fun _ hr => h.removeChild hr
  | deleteSelected id path =>
    rw [run]
    unfold Tree.deleteSelected
    cases t.query id path with
    | error e => exact h
    | ok found => exact h.detachAll found
  | changeElement id c => exact h.modifyElement id fun e he => hP.apply he c
  | setValueSelected id path v =>
    exact h.changeSelected id path fun found =>
      h.foldl_modifyElement found fun e he => hP.apply he (.value (some v))
  | markSelected id path o =>
    exact h.changeSelected id path fun found =>
      h.foldl_modifyElement found fun e he => hP.apply he (.mark o)
  | unmarkSelected id path =>
    exact h.changeSelected id path fun found =>
      h.foldl_modifyElement found fun e he => hP.apply he .unmark
  | unmarkBranch id => exact h.foldl_modifyElement _ fun e he => hP.apply he .unmark
  | copy id => exact h.addCopy hP (h.branch id)
  | copyKeysOnly id => exact h.addCopy hP (h.branch id).keysOnly
  | addCopy src => exact h.addCopy hP ((htrees src (by simp [sources])).branch src.root)
  | addCopyKeysOnly src =>
    exact h.addCopy hP ((htrees src (by simp [sources])).branch src.root).keysOnly
  | excerptInto src o root =>
    exact ((htrees src (by simp [sources])).excerptInto hP src.root o root).on h
  | createPath id reuse bindings text =>
    exact (Path.maintains_create hP id reuse bindings text).on h
  | createAlone bindings text => exact (Path.maintains_createAlone hP bindings text).on h
  | applyEdit root edit =>
    exact (Edit.maintains_apply hP root (htrees edit (by simp [sources])) edit.root).on h
  | refresh newer => exact h

/-- The elements of a reachable tree have the property. -/
theorem Reachable.each (h : Reachable t) : t.Each P := by
  induction h with
  | empty r => exact .empty hP r
  | parsed h => exact Xml.each_parse hP h
  | call c _ _ _ _ ih ihtrees => exact c.each_run hP ih ihtrees

end Tree

end Netconf
