import Netconf.Proofs.Tree.Frames
import Netconf.Proofs.Tree.Reachable

/-!
# What a copy is

A copy adds one block of slots behind those that were there. `Duplicated` says all of it: the block
holds the nodes of the copied branch in preorder, its first node stands alone, no link leads out of
the block or into it, and no old slot changes. That holds for copies of whole branches and for
copies with keys only, within a tree and from another one (`Forest.duplicated`).
-/

namespace Netconf.Tree

open Branch

variable {t src : Tree}

/-- The node of a slot with those of its children that are keys, each with all that is below it. -/
def keyedBranch (t : Tree) (id : NodeId) : Branch :=
  .mk id (t.element id)
    (((t.children id).filter fun c => (t.kind id).keys.contains (t.name c)).map t.branch)

/-- The tree of `r` is `t` with a block of new slots that hold a copy of the branch `b`; the node of
`r` is the top of the copy. -/
structure Duplicated (t : Tree) (b : Branch) (r : Tree × NodeId) : Prop where
  /-- The links are those of a forest. -/
  forest : r.1.Forest
  /-- The old slots are as they were. -/
  node : ∀ x < t.size, r.1.node x = t.node x
  /-- The default bindings stay. -/
  defaults : r.1.defaults = t.defaults
  /-- The block starts behind the old slots. -/
  start : r.2 = t.size
  /-- It has as many slots as the branch has nodes. -/
  size : r.1.size = t.size + b.size
  /-- They follow one another in preorder: every node stands in front of those below it. -/
  ids : (r.1.branch r.2).ids = List.range' t.size b.size
  /-- The nodes carry what those of the branch carry, and stand in the same order. -/
  branch : (r.1.branch r.2).bare = b.bare
  /-- The top stands alone. -/
  alone : r.1.parent? r.2 = none
  /-- The parents of the other nodes are in the block, in front of them. -/
  parent? : ∀ x : Nat, r.2 < x → x < r.1.size →
    ∃ p : Nat, r.1.parent? x = some p ∧ r.2 ≤ p ∧ p < x
  /-- The children of its nodes are in the block, behind them. -/
  children : ∀ x : Nat, r.2 ≤ x → ∀ c ∈ r.1.children x, x < c ∧ c < r.1.size

/-- A branch that is laid out from a slot on has the slots from there on, one after the other. -/
theorem Forest.ids_branch_of_holdsAt (h : t.Forest) {b : Branch} {base : Nat}
    {q : Option NodeId} (hb : t.HoldsAt base (b.layout base q)) :
    (t.branch base).ids = List.range' base b.size := by
  -- along the layout: siblings start where the ones before them end
  refine (mutualInduction
    (P := fun b => ∀ (base : Nat) q, t.HoldsAt base (b.layout base q) →
      (t.branch base).ids = List.range' base b.size)
    (Q := fun bs => ∀ next parent : Nat, t.HoldsAt next (layoutAll next parent bs) →
      (starts next bs).flatMap (fun id => (t.branch id).ids) = List.range' next (sizeOfAll bs))
    ?_ ?_ ?_).1 b base q hb
  · intro id e bs ih base q hb
    rw [layout, holdsAt_cons] at hb
    have hc : t.children base = starts (base + 1) bs := by simp [Tree.children, hb.1]
    rw [h.branch_eq, Branch.ids, idsOfAll_eq_flatMap, hc, List.flatMap_map, ih (base + 1) base hb.2,
      Branch.size, List.range'_succ]
  · intro next parent _
    rfl
  · intro b bs ihb ihbs next parent hb
    rw [layoutAll, holdsAt_append, length_layout] at hb
    rw [starts, List.flatMap_cons, ihb next _ hb.1, ihbs _ _ hb.2, sizeOfAll, List.range'_append_1]

/-- A copy of any branch is one. -/
theorem Forest.duplicated_addCopy (h : t.Forest) (b : Branch) :
    t.Duplicated b (t.addCopy b) where
  forest := h.addCopy b
  node _ := node_addCopy_of_lt b
  defaults := rfl
  start := rfl
  size := size_addCopy t b
  ids := (h.addCopy b).ids_branch_of_holdsAt (holdsAt_addCopy t b)
  branch := h.bare_branch_addCopy b
  alone := parent?_addCopy t b
  parent? x hx hlt := by
    rw [size_addCopy] at hlt
    obtain ⟨p, hp, -⟩ := (block_addCopy t b).parent? x hx hlt
    exact ⟨p, hp, parent_bounds_addCopy (Nat.le_of_lt hx) hp⟩
  children x hx c hc := by
    rw [size_addCopy]
    exact h.child_bounds_addCopy hx ((h.addCopy b).mem_children_iff.1 hc)

/-- A branch with keys only is its top with the children that are keys. -/
theorem Forest.keysOnly_branch (h : t.Forest) (id : NodeId) :
    (t.branch id).keysOnly = t.keyedBranch id := by
  rw [h.branch_eq, keysOnly, keyedBranch, List.filter_map]
  refine congrArg (fun cs => Branch.mk id (t.element id) (cs.map t.branch))
    (List.filter_congr fun c _ => ?_)
  rw [Function.comp_apply, h.element_branch]
  rfl

/-- Copies are faithful and leave everything else alone: those of a whole branch and those of a node
with its keys, from another tree and within one. -/
theorem Forest.duplicated (h : t.Forest) (hs : src.Forest) (id i : NodeId) :
    t.Duplicated (src.branch id) (t.addCopy (src.branch id)) ∧
      t.Duplicated (src.keyedBranch id) (t.addCopy (src.branch id).keysOnly) ∧
      t.Duplicated (t.branch i) (t.copy i) ∧
      t.Duplicated (t.keyedBranch i) (t.copyKeysOnly i) := by
  refine ⟨h.duplicated_addCopy _, ?_, h.duplicated_addCopy _, ?_⟩
  · rw [hs.keysOnly_branch]
    exact h.duplicated_addCopy _
  · rw [copyKeysOnly, h.keysOnly_branch]
    exact h.duplicated_addCopy _

/-! ## A port and its label -/

/-- A port of a list, which its name tells apart. The name has a note and stands behind the speed. -/
def portTree : Tree :=
  ((Tree.empty {}).addCopy (.mk 0
    { name := "port", kind := .container { keys := ["name"], children := ["name", "speed"] } }
    [.mk 0 { name := "speed", value := some (.text "10") } [],
      .mk 0 { name := "name", value := some (.text "a") } [.mk 0 { name := "note" } []]])).1

/-- The tree of the port is a forest. -/
theorem forest_portTree : portTree.Forest := (forest_empty {}).addCopy _

/-- The port is copied behind two nodes: whole into four slots, and with its name and the note below
the name into three. -/
theorem duplicated_portTree :
    twoNodes.Forest ∧ portTree.Forest ∧
      twoNodes.Duplicated (portTree.branch 0) (twoNodes.addCopy (portTree.branch 0)) ∧
      (twoNodes.addCopy (portTree.branch 0)).1.size = 6 ∧
      twoNodes.Duplicated (portTree.keyedBranch 0)
        (twoNodes.addCopy (portTree.branch 0).keysOnly) ∧
      (twoNodes.addCopy (portTree.branch 0).keysOnly).1.size = 5 ∧
      portTree.Duplicated (portTree.keyedBranch 2) (portTree.copyKeysOnly 2) := by
  have htwo := reachable_twoNodes.forest
  obtain ⟨hwhole, hkeyed, -, -⟩ := htwo.duplicated forest_portTree 0 0
  obtain ⟨-, -, -, hname⟩ := forest_portTree.duplicated forest_portTree 0 2
  exact ⟨htwo, forest_portTree, hwhole, by decide, hkeyed, by decide, hname⟩

end Netconf.Tree
