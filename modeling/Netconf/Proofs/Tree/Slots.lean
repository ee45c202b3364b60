import Mathlib.Data.List.Nodup
import Netconf.Tree.Copy
import Netconf.Tree.Structure

/-!
# Reading a slot after a change

What each way of writing to a tree does to each of its slots. A change of one node leaves every
other slot as it was, a new slot leaves all earlier ones as they were, and a copy is found in its
slots as it was laid out. Later modules read trees through these lemmas only.
-/

namespace Netconf

/-- What holds of a branch whenever something holds of the list of its children holds of all
branches, when this holds of a list whenever it holds of its parts. -/
theorem Branch.mutualInduction {P : Branch → Prop} {Q : List Branch → Prop}
    (step : ∀ id e bs, Q bs → P (.mk id e bs)) (nil : Q [])
    (cons : ∀ b bs, P b → Q bs → Q (b :: bs)) : (∀ b, P b) ∧ ∀ bs, Q bs :=
  ⟨fun b => @Branch.rec P Q step nil cons b, fun bs => @Branch.rec_1 P Q step nil cons bs⟩

namespace Tree

variable (t : Tree) (id x : Nat)

/-! ## Slots that do not exist -/

/-- A slot beyond the last one reads as an empty node. -/
theorem node_of_size_le {t : Tree} {x : Nat} (h : t.size ≤ x) : t.node x = {} := by
  simp only [node]
  rw [Array.getD_eq_getD_getElem?, Array.getElem?_eq_none h]
  rfl

/-- A node with a parent is in a slot that exists. -/
theorem lt_size_of_parent? {t : Tree} {c p : Nat} (h : t.parent? c = some p) : c < t.size := by
  by_contra hc
  rw [parent?, node_of_size_le (Nat.not_lt.mp hc)] at h
  cases h

/-- A node with a child is in a slot that exists. -/
theorem lt_size_of_mem_children {t : Tree} {c p : Nat} (h : c ∈ t.children p) :
    p < t.size := by
  by_contra hp
  rw [children, node_of_size_le (Nat.not_lt.mp hp)] at h
  cases h

/-! ## Changing a node -/

/-- A change of a node adds no slot. -/
@[simp]
theorem size_modify (f : Node → Node) : (t.modify id f).size = t.size := by
  simp [modify, size]

/-- A change of a node is seen in its own slot, if that exists, and in no other. -/
theorem node_modify (f : Node → Node) :
    (t.modify id f).node x = if x = id ∧ x < t.size then f (t.node x) else t.node x := by
  simp only [node, modify, size, Array.getD_eq_getD_getElem?, Array.getElem?_modify]
  by_cases hx : x < t.nodes.size
  · by_cases hid : id = x
    · simp [hid, hx]
    · simp [hid, hx, Ne.symm hid]
  · by_cases hid : id = x
    · simp [hid, hx]
    · simp [hid, hx]

/-- A change of a node leaves the default bindings. -/
@[simp]
theorem defaults_modify (f : Node → Node) : (t.modify id f).defaults = t.defaults := rfl

/-- A change of what a node carries adds no slot. -/
@[simp]
theorem size_modifyElement (f : Element → Element) : (t.modifyElement id f).size = t.size :=
  size_modify t id _

/-- A change of the children of a node leaves what all nodes carry. -/
theorem element_modify_children (g : Node → List NodeId) :
    (t.modify id fun n => { n with children := g n }).element x = t.element x := by
  simp only [element, node_modify]
  split <;> rfl

/-- A change of the children of a node leaves all parents. -/
theorem parent?_modify_children (g : Node → List NodeId) :
    (t.modify id fun n => { n with children := g n }).parent? x = t.parent? x := by
  simp only [parent?, node_modify]
  split <;> rfl

/-- A change of the children of a node is seen at that node. -/
theorem children_modify_children (g : Node → List NodeId) :
    (t.modify id fun n => { n with children := g n }).children x =
      if x = id ∧ x < t.size then g (t.node x) else t.children x := by
  simp only [children, node_modify]
  split <;> rfl

/-- A change of the parent of a node leaves what all nodes carry. -/
theorem element_modify_parent (p : Option NodeId) :
    (t.modify id fun n => { n with parent := p }).element x = t.element x := by
  simp only [element, node_modify]
  split <;> rfl

/-- A change of the parent of a node is seen at that node. -/
theorem parent?_modify_parent (p : Option NodeId) :
    (t.modify id fun n => { n with parent := p }).parent? x =
      if x = id ∧ x < t.size then p else t.parent? x := by
  simp only [parent?, node_modify]
  split <;> rfl

/-- A change of the parent of a node leaves all children. -/
theorem children_modify_parent (p : Option NodeId) :
    (t.modify id fun n => { n with parent := p }).children x = t.children x := by
  simp only [children, node_modify]
  split <;> rfl

/-- A change of what a node carries leaves all parents. -/
@[simp]
theorem parent?_modifyElement (f : Element → Element) :
    (t.modifyElement id f).parent? x = t.parent? x := by
  simp only [parent?, modifyElement, node_modify]
  split <;> rfl

/-- A change of what a node carries leaves all children. -/
@[simp]
theorem children_modifyElement (f : Element → Element) :
    (t.modifyElement id f).children x = t.children x := by
  simp only [children, modifyElement, node_modify]
  split <;> rfl

/-- A change of what a node carries is seen in its slot, if that exists. -/
theorem element_modifyElement (f : Element → Element) :
    (t.modifyElement id f).element x =
      if x = id ∧ x < t.size then f (t.element x) else t.element x := by
  simp only [element, modifyElement, node_modify]
  split <;> rfl

/-! ## New slots -/

/-- A new slot is the last one. -/
@[simp]
theorem size_push (n : Node) : (t.push n).1.size = t.size + 1 := by
  simp [push, size]

/-- A new slot holds its node, and the others what they held. -/
theorem node_push (n : Node) :
    (t.push n).1.node x = if x = t.size then n else t.node x := by
  simp only [node, push, size, Array.getD_eq_getD_getElem?, Array.getElem?_push]
  split <;> simp

/-- The number of nodes that a list of slots starts with. -/
theorem length_layout (base : Nat) (parent : Option NodeId) (b : Branch) :
    (b.layout base parent).length = b.size := by
  refine (Branch.mutualInduction
    (P := fun b => ∀ base parent, (b.layout base parent).length = b.size)
    (Q := fun bs => ∀ next parent,
      (Branch.layoutAll next parent bs).length = Branch.sizeOfAll bs) ?_ ?_ ?_).1 b base parent
  · intro id e children ih base parent
    simp [Branch.layout, Branch.size, ih]
  · intro next parent
    rfl
  · intro b bs ihb ihbs next parent
    simp [Branch.layoutAll, Branch.sizeOfAll, ihb, ihbs]

/-- A copy adds as many slots as it has nodes. -/
@[simp]
theorem size_addCopy (b : Branch) : (t.addCopy b).1.size = t.size + b.size := by
  simp [addCopy, size, length_layout]

/-- A copy leaves the slots that were there. -/
theorem node_addCopy_of_lt {t : Tree} {x : Nat} (b : Branch) (h : x < t.size) :
    (t.addCopy b).1.node x = t.node x := by
  have hx : x < t.nodes.size := h
  simp [node, addCopy, Array.getD_eq_getD_getElem?, Array.getElem?_append, hx]

/-- A copy leaves what the old nodes carry. -/
theorem element_addCopy_of_lt {t : Tree} {x : Nat} (b : Branch) (hx : x < t.size) :
    (t.addCopy b).1.element x = t.element x := by
  simp only [Tree.element, node_addCopy_of_lt b hx]

/-- A copy leaves the children of the old nodes. -/
theorem children_addCopy_of_lt {t : Tree} {x : Nat} (b : Branch) (hx : x < t.size) :
    (t.addCopy b).1.children x = t.children x := by
  simp only [Tree.children, node_addCopy_of_lt b hx]

/-- A copy leaves the parents of the old nodes. -/
theorem parent?_addCopy_of_lt {t : Tree} {x : Nat} (b : Branch) (hx : x < t.size) :
    (t.addCopy b).1.parent? x = t.parent? x := by
  simp only [Tree.parent?, node_addCopy_of_lt b hx]

end Tree

end Netconf
