import Netconf.Proofs.Tree.Branches
import Netconf.Proofs.Tree.Operations

/-!
# Reachable trees

A program holds a tree that it read or started empty, and calls one operation on it after the other,
also after calls that failed. `Call` lists the operations, `Call.run` gives the tree that a call
leaves, and `Reachable` are the trees that come about this way. Every call extends the forest that
it is made on (`Call.extends_run`), so the links of every reachable tree are those of a forest, its
bounded walks and readings are whole, and no slot of it is ever given up.
-/

namespace Netconf.Tree

variable {t : Tree}

/-! ## Calls -/

/-- A change of what a node carries, its namespace and name apart. -/
inductive ElementChange where
  /-- Gives the node a value, or takes it away. -/
  | value (v : Option Value)
  /-- Gives the node a kind. -/
  | kind (k : Kind)
  /-- Sets an attribute without namespace. -/
  | setAttribute (name value : String)
  /-- Sets an attribute in a namespace. -/
  | setAttributeIn (ns name value : String)
  /-- Takes an attribute away. -/
  | eraseAttribute (name : String)
  /-- Takes an attribute in a namespace away. -/
  | eraseAttributeIn (ns name : String)
  /-- Binds a label. -/
  | bind (b : Binding)
  /-- Binds labels. -/
  | bindAll (m : Bindings)
  /-- Binds the labels that are not bound. -/
  | mergeBindings (m : Bindings)
  /-- Binds a label to the namespace of the node. -/
  | bindOwn (label : String)
  /-- Takes the binding of a label away. -/
  | unbind (label : String)
  /-- Marks the node. -/
  | mark (o : Operation)
  /-- Takes the mark of the node away. -/
  | unmark

/-- What an element is after a change. -/
def ElementChange.apply (e : Element) : ElementChange → Element
  | .value v => { e with value := v }
  | .kind k => { e with kind := k }
  | .setAttribute name v => e.setAttribute name v
  | .setAttributeIn ns name v => e.setAttributeIn ns name v
  | .eraseAttribute name => e.eraseAttribute name
  | .eraseAttributeIn ns name => e.eraseAttributeIn ns name
  | .bind b => e.bind b
  | .bindAll m => e.bindAll m
  | .mergeBindings m => e.mergeBindings m
  | .bindOwn label => e.bindOwn label
  | .unbind label => { e with bindings := (e.bindings.erase label).2 }
  | .mark o => e.mark o
  | .unmark => e.unmark

/-- An operation on a tree, with its arguments. -/
inductive Call where
  /-- Makes a node that stands alone. -/
  | create (ns : Option String) (name : String) (value : Option Value)
  /-- Makes a child of a node. -/
  | createChild (parent : Nat) (name : String) (value : Option Value)
  /-- Puts a node among the children of another, at an index. -/
  | insertAt (parent child index : Nat)
  /-- Puts a node behind the children of another. -/
  | append (parent child : Nat)
  /-- Puts a node in front of the children of another. -/
  | insertFirst (parent child : Nat)
  /-- Puts a node among the children of another, in an order of names. -/
  | insertOrdered (parent child : Nat) (order : List String)
  /-- Takes a node away from its parent. -/
  | detach (id : Nat)
  /-- Takes a child away from its parent. -/
  | removeChild (parent child : Nat)
  /-- Takes the nodes that a path selects away from their parents. -/
  | deleteSelected (id : Nat) (path : String)
  /-- Changes what a node carries. -/
  | changeElement (id : Nat) (c : ElementChange)
  /-- Gives the nodes that a path selects a value. -/
  | setValueSelected (id : Nat) (path : String) (v : Value)
  /-- Marks the nodes that a path selects. -/
  | markSelected (id : Nat) (path : String) (o : Operation)
  /-- Takes the marks of the nodes that a path selects away. -/
  | unmarkSelected (id : Nat) (path : String)
  /-- Takes the marks of a branch away. -/
  | unmarkBranch (id : Nat)
  /-- Copies a branch of the tree. -/
  | copy (id : Nat)
  /-- Copies a node of the tree with its keys. -/
  | copyKeysOnly (id : Nat)
  /-- Copies a branch of another tree. -/
  | addCopy (src : Document)
  /-- Copies a node of another tree with its keys. -/
  | addCopyKeysOnly (src : Document)
  /-- Takes a node of another tree over, below the ancestors that it has there. -/
  | excerptInto (src : Document) (o : Operation) (root : Option Nat)
  /-- Creates a path below a node. -/
  | createPath (id : Nat) (reuse : Path.Reuse) (bindings : Option Bindings) (text : String)
  /-- Creates a path that stands alone. -/
  | createAlone (bindings : Bindings) (text : String)
  /-- Applies an edit. -/
  | applyEdit (root : Nat) (edit : Document)
  /-- Takes over the newer state of the registry. -/
  | refresh (newer : Registry)

namespace Call

/-- The tree that a call leaves, whether it succeeds or fails. -/
def run (t : Tree) : Call → Tree
  | .create ns name value => (t.create { ns, name, value }).1
  | .createChild parent name value => (t.createChild parent name value).2
  | .insertAt parent child index => (t.insertAt parent child index).toOption.getD t
  | .append parent child => (t.append parent child).toOption.getD t
  | .insertFirst parent child => (t.insertFirst parent child).toOption.getD t
  | .insertOrdered parent child order => (t.insertOrdered parent child order).toOption.getD t
  | .detach id => t.detach id
  | .removeChild parent child => (t.removeChild parent child).toOption.getD t
  | .deleteSelected id path => ((t.deleteSelected id path).toOption.map (·.1)).getD t
  | .changeElement id c => t.modifyElement id c.apply
  | .setValueSelected id path v => (t.setValueSelected id path v).toOption.getD t
  | .markSelected id path o => (t.markSelected id path o).toOption.getD t
  | .unmarkSelected id path => (t.unmarkSelected id path).toOption.getD t
  | .unmarkBranch id => t.unmarkBranch id
  | .copy id => (t.copy id).1
  | .copyKeysOnly id => (t.copyKeysOnly id).1
  | .addCopy src => (t.addCopy (src.tree.branch src.root)).1
  | .addCopyKeysOnly src => (t.addCopy (src.tree.branch src.root).keysOnly).1
  | .excerptInto src o root => (Build.on t (src.tree.excerptInto src.root o root)).2
  | .createPath id reuse bindings text => (Build.on t (Path.create id reuse bindings text)).2
  | .createAlone bindings text => (Build.on t (Path.createAlone bindings text)).2
  | .applyEdit root edit => (Build.on t (Edit.apply root edit.tree edit.root)).2
  | .refresh newer => t.refresh newer

/-- The nodes of the tree that a call is given. -/
def ids : Call → List Nat
  | .create .. | .addCopy .. | .addCopyKeysOnly .. | .createAlone .. | .refresh .. => []
  | .createChild parent .. => [parent]
  | .insertAt parent child _ | .append parent child | .insertFirst parent child
  | .insertOrdered parent child _ | .removeChild parent child => [parent, child]
  | .detach id | .deleteSelected id _ | .changeElement id _ | .setValueSelected id ..
  | .markSelected id .. | .unmarkSelected id _ | .unmarkBranch id | .copy id
  | .copyKeysOnly id | .createPath id .. => [id]
  | .excerptInto _ _ root => root.toList
  | .applyEdit root _ => [root]

/-- The nodes of other trees that a call is given. -/
def sources : Call → List Document
  | .addCopy src | .addCopyKeysOnly src | .excerptInto src .. | .applyEdit _ src => [src]
  | _ => []

end Call

/-- The trees that a program can hold. -/
inductive Reachable : Tree → Prop where
  /-- An empty tree. -/
  | empty (r : Registry) : Reachable (.empty r)
  /-- A tree that was read. -/
  | parsed {r : Registry} {schema : Option Schema} {xml : String} {d : Document}
    (h : Xml.parse r schema xml = .ok d) : Reachable d.tree
  /-- What a call leaves of a tree, whether it succeeds or fails. -/
  | call {t : Tree} (c : Call) (ht : Reachable t) (hids : ∀ id ∈ c.ids, id < t.size)
    (htrees : ∀ src ∈ c.sources, Reachable src.tree)
    (hroots : ∀ src ∈ c.sources, src.root < src.tree.size) : Reachable (c.run t)

/-! ## What calls keep -/

/-- A change of an element keeps its name. -/
theorem ElementChange.apply_name_ns (c : ElementChange) (e : Element) :
    (c.apply e).name = e.name ∧ (c.apply e).ns = e.ns := by
  cases c with
  | setAttribute name value => exact e.setAttribute_name_ns name value
  | setAttributeIn ns name value => exact e.setAttributeIn_name_ns ns name value
  | bindOwn label => exact e.bindOwn_name_ns label
  | mark o => exact e.mark_name_ns o
  | _ => exact ⟨rfl, rfl⟩

/-- A change that fails leaves the tree. -/
theorem Forest.extends_getD (h : t.Forest) {r : Except Error Tree}
    (hr : ∀ t', r = .ok t' → t.Extends t') : t.Extends (r.toOption.getD t) := by
  cases r with
  | error e => exact h.extends
  | ok t' => exact hr t' rfl

/-- A change of the nodes that a path selects extends a forest, when the change does. -/
theorem Forest.extends_changeSelected (h : t.Forest) (id : NodeId) (path : String)
    {f : List NodeId → Tree} (hf : ∀ ids, t.Extends (f ids)) :
    t.Extends ((t.changeSelected id path f).toOption.getD t) := by
  refine h.extends_getD fun t' ht' => ?_
  unfold changeSelected at ht'
  cases hq : t.query id path with
  | error e => rw [hq] at ht'; cases ht'
  | ok ids => rw [hq] at ht'; cases ht'; exact hf ids

/-- A new child extends a forest. -/
theorem Forest.extends_createChild (h : t.Forest) {parent : Nat} (hp : parent < t.size)
    (name : String) (value : Option Value) : t.Extends (t.createChild parent name value).2 := by
  have hmade := h.extends_create { ns := t.ns? parent, name := name }
  unfold createChild
  dsimp only
  split
  · exact hmade
  · next placed hplaced =>
    have hid : (t.create { ns := t.ns? parent, name := name }).2 <
        (t.create { ns := t.ns? parent, name := name }).1.size := by
      simp [Tree.create, push, size]
    have hput := hmade.forest.extends_insertAt (hmade.lt hp) hid hplaced
    exact (hmade.trans hput).trans (hput.forest.extends_modifyElement _
      (f := fun e => { e with value := value }) fun _ => ⟨rfl, rfl⟩)

/-- Every call extends the forest that it is made on, whether it succeeds or fails. -/
theorem Call.extends_run (c : Call) (h : t.Forest) (hids : ∀ id ∈ c.ids, id < t.size) :
    t.Extends (c.run t) := by
  have hput : ∀ {parent child : Nat} (index : Nat), parent < t.size → child < t.size →
      t.Extends ((t.insertAt parent child index).toOption.getD t) := fun index hp hc =>
    h.extends_getD fun _ => h.extends_insertAt hp hc
  cases c with
  | create ns name value => exact h.extends_create _
  | createChild parent name value => exact h.extends_createChild (hids _ (by simp [ids])) name value
  | insertAt parent child index =>
    exact hput index (hids _ (by simp [ids])) (hids _ (by simp [ids]))
  | append parent child => exact hput _ (hids _ (by simp [ids])) (hids _ (by simp [ids]))
  | insertFirst parent child => exact hput 0 (hids _ (by simp [ids])) (hids _ (by simp [ids]))
  | insertOrdered parent child order =>
    exact hput _ (hids _ (by simp [ids])) (hids _ (by simp [ids]))
  | detach id => exact h.extends_detach id
  | removeChild parent child =>
    refine h.extends_getD fun t' ht' => ?_
    unfold Tree.removeChild at ht'
    split at ht'
    · cases ht'; exact h.extends_detach child
    · cases ht'
  | deleteSelected id path =>
    show t.Extends (((t.deleteSelected id path).toOption.map (·.1)).getD t)
    unfold Tree.deleteSelected
    cases t.query id path with
    | error e => exact h.extends
    | ok found => exact h.extends_detachAll found
  | changeElement id c => exact h.extends_modifyElement id c.apply_name_ns
  | setValueSelected id path v =>
    exact h.extends_changeSelected id path fun found =>
      h.extends_foldl_modifyElement (f := fun e => { e with value := some v })
        (fun _ => ⟨rfl, rfl⟩) found
  | markSelected id path o =>
    exact h.extends_changeSelected id path fun found =>
      h.extends_foldl_modifyElement (fun e => e.mark_name_ns o) found
  | unmarkSelected id path =>
    exact h.extends_changeSelected id path fun found =>
      h.extends_foldl_modifyElement (f := Element.unmark) (fun _ => ⟨rfl, rfl⟩) found
  | unmarkBranch id =>
    exact h.extends_foldl_modifyElement (f := Element.unmark) (fun _ => ⟨rfl, rfl⟩) _
  | copy id => exact h.extends_addCopy _
  | copyKeysOnly id => exact h.extends_addCopy _
  | addCopy src => exact h.extends_addCopy _
  | addCopyKeysOnly src => exact h.extends_addCopy _
  | excerptInto src o root =>
    exact (growsNode_excerptInto h src.root o fun r hr =>
      hids r (by simpa [ids] using hr)).extends_on
  | createPath id reuse bindings text =>
    exact (Path.grows_create h (hids _ (by simp [ids])) reuse bindings text).extends_on
  | createAlone bindings text => exact (Path.growsNode_createAlone h bindings text).extends_on
  | applyEdit root edit =>
    exact (Edit.grows_apply h (hids _ (by simp [ids])) edit.tree edit.root).extends_on
  | refresh newer =>
    have hforest : (t.refresh newer).Forest := h.of_links (fun _ => rfl) fun _ => rfl
    exact hforest.extends_of_element (Nat.le_refl _) fun _ _ => rfl

/-- Reachable trees are forests. -/
theorem Reachable.forest (h : Reachable t) : t.Forest := by
  induction h with
  | empty r => exact forest_empty r
  | parsed h => exact Xml.forest_parse h
  | call c _ hids _ _ ih => exact (c.extends_run ih hids).forest

/-! ## The links of a reachable tree -/

/-- What the links of a tree amount to for those who follow them. -/
structure Linked (t : Tree) : Prop where
  /-- Every child is in a slot that exists. -/
  child_lt : ∀ p, ∀ c ∈ t.children p, c < t.size
  /-- A node is among the children of its parent once, and among those of no other node. -/
  count_children : ∀ p c, (t.children p).count c = if t.parent? c = some p then 1 else 0
  /-- A node without parent is reached in fewer steps up than there are slots. -/
  reaches_top : ∀ id < t.size, ∃ n < t.size, ∃ top,
    t.ancestor? n id = some top ∧ t.parent? top = none
  /-- The topmost ancestor has no parent. -/
  topOf : ∀ id < t.size, t.parent? (t.topOf id) = none
  /-- A bounded walk up meets all ancestors: a longer bound gives the same. -/
  upward : ∀ id < t.size, ∀ n, t.size ≤ n → t.upwardFor n id = t.upward id
  /-- A bounded reading reads all of a branch: a larger bound gives the same. -/
  branch : ∀ id n, t.size ≤ n → t.branchTo n id = t.branch id

/-- The links of a forest. -/
theorem Forest.linked (h : t.Forest) : t.Linked where
  child_lt _ _ := h.child_lt
  count_children := h.count_children
  reaches_top _ := h.exists_top
  topOf _ := h.parent?_topOf
  upward _ hid _ hn := h.upwardFor_of_le hid hn
  branch id _ hn := h.branchTo_of_le id hn

/-- Whatever operations make a tree, its links are those of a forest, and every further call, also
one that fails, leaves all its slots where they are, with the names that they have. -/
theorem Reachable.linked_and_kept (h : Reachable t) :
    t.Linked ∧ ∀ c : Call, (∀ id ∈ c.ids, id < t.size) →
      t.size ≤ (c.run t).size ∧
        ∀ x < t.size, (c.run t).name x = t.name x ∧ (c.run t).ns? x = t.ns? x := by
  refine ⟨h.forest.linked, fun c hids => ?_⟩
  have hext := c.extends_run h.forest hids
  exact ⟨hext.size_le, fun x hx => ⟨hext.name x hx, hext.ns? x hx⟩⟩

/-- Two nodes, the second one put below the first. -/
def twoNodes : Tree :=
  (Call.append 0 1).run
    ((Call.create none "b" none).run ((Call.create none "a" none).run (.empty {})))

/-- The two nodes are made by three calls. -/
theorem reachable_twoNodes : Reachable twoNodes :=
  .call (.append 0 1) (.call (.create none "b" none) (.call (.create none "a" none) (.empty {})
    (by simp [Call.ids]) (by simp [Call.sources]) (by simp [Call.sources]))
    (by simp [Call.ids]) (by simp [Call.sources]) (by simp [Call.sources]))
    (by decide) (by simp [Call.sources]) (by simp [Call.sources])

/-- The laws at two nodes, where a call that would close a cycle is refused and leaves them. -/
theorem linked_twoNodes : twoNodes.Linked ∧ (Call.append 1 0).run twoNodes = twoNodes ∧
    ∀ x < 2, ((Call.append 1 0).run twoNodes).name x = twoNodes.name x := by
  obtain ⟨hlinked, hkeeps⟩ := Reachable.linked_and_kept reachable_twoNodes
  have hids : ∀ id ∈ (Call.append 1 0).ids, id < twoNodes.size := by decide
  exact ⟨hlinked, by decide, fun x hx => ((hkeeps (.append 1 0) hids).2 x hx).1⟩

end Netconf.Tree
