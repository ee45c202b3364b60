import Netconf.Edit.Apply
import Netconf.Edit.Excerpt
import Netconf.Path.Create
import Netconf.Path.Change
import Netconf.Proofs.Tree.Copies
import Netconf.Proofs.Tree.Outcome

/-!
# How trees grow

`Tree.Extends t t'` says that `t'` is a forest that has all slots of `t`, each with the name and
namespace that it had. Every operation extends the forest that it is run on, also when it fails:
the single changes of links and elements first, then the operations that consist of several of
them, whose parts are put together by the rules of `Build.Ensures`.
-/

namespace Netconf

namespace Tree

variable {t t' t'' : Tree}

/-- The forest `t'` has the slots of `t`, with their names and namespaces. -/
structure Extends (t t' : Tree) : Prop where
  /-- The links are those of a forest. -/
  forest : t'.Forest
  /-- No slot is gone. -/
  size_le : t.size ≤ t'.size
  /-- The old slots have their names. -/
  name : ∀ x < t.size, t'.name x = t.name x
  /-- The old slots have their namespaces. -/
  ns? : ∀ x < t.size, t'.ns? x = t.ns? x

/-- A forest extends itself. -/
theorem Forest.extends (h : t.Forest) : t.Extends t :=
  ⟨h, Nat.le_refl _, fun _ _ => rfl, fun _ _ => rfl⟩

/-- Growing twice is growing. -/
theorem Extends.trans (h : t.Extends t') (h' : t'.Extends t'') : t.Extends t'' where
  forest := h'.forest
  size_le := Nat.le_trans h.size_le h'.size_le
  name x hx := (h'.name x (Nat.lt_of_lt_of_le hx h.size_le)).trans (h.name x hx)
  ns? x hx := (h'.ns? x (Nat.lt_of_lt_of_le hx h.size_le)).trans (h.ns? x hx)

/-- A slot stays in range. -/
theorem Extends.lt {x : Nat} (h : t.Extends t') (hx : x < t.size) : x < t'.size :=
  Nat.lt_of_lt_of_le hx h.size_le

/-- A forest in which all elements are as before extends the old one. -/
theorem Forest.extends_of_element (h : t'.Forest) (hsize : t.size ≤ t'.size)
    (helement : ∀ x < t.size, t'.element x = t.element x) : t.Extends t' :=
  ⟨h, hsize, fun x hx => by rw [Tree.name, helement x hx]; rfl,
    fun x hx => by rw [Tree.ns?, helement x hx]; rfl⟩

/-! ## Single changes -/

/-- A new node extends a forest. -/
theorem Forest.extends_create (h : t.Forest) (e : Element) : t.Extends (t.create e).1 :=
  (h.create e).extends_of_element (by simp [Tree.create]) fun x hx => by
    rw [element_create, if_neg (Nat.ne_of_lt hx)]

/-- A copy extends a forest. -/
theorem Forest.extends_addCopy (h : t.Forest) (b : Branch) : t.Extends (t.addCopy b).1 :=
  (h.addCopy b).extends_of_element (by simp) fun _ hx => element_addCopy_of_lt b hx

/-- A change that keeps the names of elements extends a forest. -/
theorem Forest.extends_modifyElement (h : t.Forest) (id : Nat) {f : Element → Element}
    (hf : ∀ e, (f e).name = e.name ∧ (f e).ns = e.ns) : t.Extends (t.modifyElement id f) := by
  refine ⟨h.modifyElement id f, by simp, fun x _ => ?_, fun x _ => ?_⟩
  · rw [Tree.name, Tree.name, element_modifyElement]
    split
    · exact (hf _).1
    · rfl
  · rw [Tree.ns?, Tree.ns?, element_modifyElement]
    split
    · exact (hf _).2
    · rfl

/-- A node put among the children of another extends a forest. -/
theorem Forest.extends_insertAt (h : t.Forest) {parent child index : Nat} (hp : parent < t.size)
    (hc : child < t.size) (hi : t.insertAt parent child index = .ok t') : t.Extends t' :=
  have hins := inserted_of_insertAt hp hc hi
  (hins.forest h).extends_of_element (Nat.le_of_eq hins.size.symm) fun x _ => hins.element x

/-- A node taken away extends a forest. -/
theorem Forest.extends_detach (h : t.Forest) (id : Nat) : t.Extends (t.detach id) :=
  (h.detach id).extends_of_element (by simp) fun x _ => element_detach id x

/-- Nodes taken away extend a forest. -/
theorem Forest.extends_detachAll (h : t.Forest) (ids : List NodeId) :
    t.Extends (t.detachAll ids) := by
  induction ids generalizing t with
  | nil => exact h.extends
  | cons id ids ih => exact (h.extends_detach id).trans (ih (h.detach id))

/-- Changes of several elements that keep their names extend a forest. -/
theorem Forest.extends_foldl_modifyElement (h : t.Forest) {f : Element → Element}
    (hf : ∀ e, (f e).name = e.name ∧ (f e).ns = e.ns) (ids : List NodeId) :
    t.Extends (ids.foldl (fun t id => t.modifyElement id f) t) := by
  induction ids generalizing t with
  | nil => exact h.extends
  | cons id ids ih =>
    exact (h.extends_modifyElement id hf).trans (ih (h.modifyElement id f))

/-! ## Elements keep their names -/

end Tree

namespace Element

/-- Setting an attribute keeps the name of an element. -/
theorem setAttribute_name_ns (e : Element) (name value : String) :
    (e.setAttribute name value).name = e.name ∧ (e.setAttribute name value).ns = e.ns := by
  unfold setAttribute
  split
  · exact ⟨rfl, rfl⟩
  · split <;> exact ⟨rfl, rfl⟩

/-- Setting an attribute in a namespace keeps the name of an element. -/
theorem setAttributeIn_name_ns (e : Element) (ns name value : String) :
    (e.setAttributeIn ns name value).name = e.name ∧
      (e.setAttributeIn ns name value).ns = e.ns := by
  unfold setAttributeIn
  split
  · split
    · exact setAttribute_name_ns e name value
    · exact ⟨rfl, rfl⟩
  · exact ⟨rfl, rfl⟩

/-- A mark keeps the name of an element. -/
theorem mark_name_ns (e : Element) (o : Operation) :
    (e.mark o).name = e.name ∧ (e.mark o).ns = e.ns :=
  setAttributeIn_name_ns e nsNetconf markName o.name

/-- Binding a label to the own namespace keeps the name of an element. -/
theorem bindOwn_name_ns (e : Element) (label : String) :
    (e.bindOwn label).name = e.name ∧ (e.bindOwn label).ns = e.ns := by
  unfold bindOwn
  split <;> exact ⟨rfl, rfl⟩

end Element

namespace Build

open Netconf.Tree

variable {t : Tree}

/-- A change grows the forest `t`: whether it succeeds or fails, what it leaves extends `t`, and
when it succeeds, `P` holds of its result and of the tree. -/
abbrev GrowsTo {α : Type} (b : Build α) (t : Tree) (P : α → Tree → Prop) : Prop :=
  Ensures b t (fun a t' => t.Extends t' ∧ P a t') t.Extends

/-- A change grows the forest `t`. -/
abbrev Grows {α : Type} (b : Build α) (t : Tree) : Prop := GrowsTo b t fun _ _ => True

/-- A change grows the forest `t` and gives a node in a slot that then exists. -/
abbrev GrowsNode (b : Build NodeId) (t : Tree) : Prop := GrowsTo b t fun id t' => id < t'.size

/-- One change that grows a forest after the other. -/
theorem GrowsTo.bind {α β : Type} {b : Build α} {f : α → Build β} {P : α → Tree → Prop}
    {Q : β → Tree → Prop} (hb : GrowsTo b t P)
    (hf : ∀ a t', t.Extends t' → P a t' → GrowsTo (f a) t' Q) : GrowsTo (b >>= f) t Q :=
  Ensures.bind hb fun a t' h =>
    (hf a t' h.1 h.2).mono (fun _ _ h' => ⟨h.1.trans h'.1, h'.2⟩) fun _ h' => h.1.trans h'

/-- A result that is there already. -/
theorem growsTo_pure {α : Type} {a : α} {P : α → Tree → Prop} (h : t.Forest) (hP : P a t) :
    GrowsTo (pure a) t P :=
  ensures_pure.2 ⟨h.extends, hP⟩

/-- A failure. -/
theorem growsTo_throw {α : Type} {e : Error} {P : α → Tree → Prop} (h : t.Forest) :
    GrowsTo (throw e) t P :=
  ensures_throw.2 h.extends

/-- Reading the tree in front of a change. -/
theorem growsTo_get {α : Type} {f : Tree → Build α} {P : α → Tree → Prop}
    (h : GrowsTo (f t) t P) : GrowsTo (get >>= f) t P :=
  ensures_bind.2 (ensures_get.2 h)

/-- What a change that grows a forest leaves extends it. -/
theorem GrowsTo.extends_on {α : Type} {b : Build α} {P : α → Tree → Prop} (h : GrowsTo b t P) :
    t.Extends (on t b).2 :=
  Ensures.on (h.mono (fun _ _ h => h.1) fun _ h => h)

/-- Making a node grows a forest. -/
theorem growsNode_create (h : t.Forest) (e : Element) : GrowsNode (create e) t :=
  ensures_change.2 ⟨h.extends_create e, by simp [Tree.create, push, size]⟩

/-- Copying a branch grows a forest. -/
theorem growsNode_addCopy (h : t.Forest) (b : Branch) : GrowsNode (addCopy b) t :=
  ensures_change.2 ⟨h.extends_addCopy b, lt_size_addCopy b⟩

/-- Putting a node somewhere grows a forest. -/
theorem grows_insertAt (h : t.Forest) {parent child index : Nat} (hp : parent < t.size)
    (hc : child < t.size) : Grows (attempt fun t => t.insertAt parent child index) t :=
  ensures_attempt (fun _ hi => ⟨h.extends_insertAt hp hc hi, trivial⟩) fun _ _ => h.extends

/-- Putting a node behind the children of another grows a forest. -/
theorem grows_append (h : t.Forest) {parent child : Nat} (hp : parent < t.size)
    (hc : child < t.size) : Grows (append parent child) t :=
  ensures_attempt (fun _ hi => ⟨h.extends_insertAt hp hc hi, trivial⟩) fun _ _ => h.extends

/-- A change of an element that keeps its name grows a forest. -/
theorem grows_modifyElement (h : t.Forest) (id : Nat) {f : Element → Element}
    (hf : ∀ e, (f e).name = e.name ∧ (f e).ns = e.ns) : Grows (modifyElement id f) t :=
  ensures_modifyElement.2 ⟨h.extends_modifyElement id hf, trivial⟩

/-- Marking a node grows a forest. -/
theorem grows_mark (h : t.Forest) (id : Nat) (o : Operation) : Grows (mark id o) t :=
  grows_modifyElement h id fun e => e.mark_name_ns o

end Build

end Netconf
