import Mathlib.Data.List.Perm.Subperm
import Mathlib.Order.WellFounded
import Netconf.Proofs.Tree.Slots

/-!
# Forests

A tree is a *forest* when the two ends of every link agree and no way up is endless: a node is a
child of another exactly once if the other is its parent, and never else. `Forest` states this, and
`Forest.exists_top` draws the consequence that the bounded walks of the library rely on: the way up
from a node ends at a node without parent after fewer steps than there are slots, so that
`Tree.upward` is the whole way and `Tree.isAtOrAbove` means what its name says (`mem_upward_iff`).
-/

namespace Netconf.Tree

variable {t : Tree}

/-- The node `p` is the parent of the node `c`. -/
def ParentOf (t : Tree) (p c : Nat) : Prop := t.parent? c = some p

/-- The links of a tree make it a forest. -/
structure Forest (t : Tree) : Prop where
  /-- A node is among the children of its parent once, and among those of no other node. -/
  count_children : ∀ p c, (t.children p).count c = if t.parent? c = some p then 1 else 0
  /-- No way up is endless. -/
  acyclic : WellFounded t.ParentOf

/-- The node that is reached from a node in so many steps up. -/
def ancestor? (t : Tree) : Nat → NodeId → Option NodeId
  | 0, id => some id
  | n + 1, id => (t.parent? id).bind (t.ancestor? n)

/-- `a` is the node `id` or above it. -/
inductive Above (t : Tree) (a : Nat) : NodeId → Prop where
  /-- A node is above itself in this sense. -/
  | refl : Above t a a
  /-- What is above the parent is above the node. -/
  | step {p id : Nat} (hp : t.parent? id = some p) (h : Above t a p) : Above t a id

/-! ## The two ends of a link -/

namespace Forest

/-- The children of a node are the nodes that have it as their parent. -/
theorem mem_children_iff (h : t.Forest) {p c : Nat} :
    c ∈ t.children p ↔ t.parent? c = some p := by
  rw [← List.count_pos_iff, h.count_children]
  split <;> simp_all

/-- No node is twice among the children of a node. -/
theorem nodup_children (h : t.Forest) (p : Nat) : (t.children p).Nodup := by
  rw [List.nodup_iff_count_le_one]
  intro c
  rw [h.count_children]
  split <;> omega

/-- A child is in a slot that exists. -/
theorem child_lt (h : t.Forest) {p c : Nat} (hc : c ∈ t.children p) : c < t.size :=
  lt_size_of_parent? (h.mem_children_iff.1 hc)

/-- A parent is in a slot that exists. -/
theorem parent_lt (h : t.Forest) {p c : Nat} (hp : t.parent? c = some p) : p < t.size :=
  lt_size_of_mem_children (h.mem_children_iff.2 hp)

/-! ## The way up -/

/-- No node is above its own parent. -/
theorem not_above_parent (h : t.Forest) {p c : Nat} (hp : t.parent? c = some p) :
    ¬ t.Above c p := by
  induction c using h.acyclic.induction generalizing p with
  | _ c ih =>
    intro ha
    cases ha with
    | refl => exact ih c hp hp .refl
    | step hq hc =>
      -- `p` is above itself by way of `c`, which contradicts the hypothesis for `p`
      have hself : ∀ {q : Nat}, t.Above c q → t.Above p q := by
        intro q hq
        induction hq with
        | refl => exact .step hp .refl
        | step hr _ ihr => exact .step hr ihr
      exact ih p hp hq (hself hc)

end Forest

/-- The walk up consists of nodes above its start. -/
theorem above_of_mem_upwardFor {a id : Nat} {n : Nat} (h : a ∈ t.upwardFor n id) :
    t.Above a id := by
  induction n generalizing id with
  | zero =>
    simp only [upwardFor, List.mem_singleton] at h
    exact h ▸ .refl
  | succ n ih =>
    unfold upwardFor at h
    split at h
    · exact (List.mem_singleton.1 h) ▸ .refl
    · next p hp =>
      rcases List.mem_cons.1 h with rfl | h
      · exact .refl
      · exact .step hp (ih h)

/-- In a forest, no walk up meets a node twice. -/
theorem Forest.nodup_upwardFor (h : t.Forest) (n : Nat) (id : Nat) :
    (t.upwardFor n id).Nodup := by
  induction n generalizing id with
  | zero => simp [upwardFor]
  | succ n ih =>
    unfold upwardFor
    split
    · simp
    · next p hp =>
      exact List.nodup_cons.2 ⟨fun hm => h.not_above_parent hp (above_of_mem_upwardFor hm), ih p⟩

/-- A walk up stays in slots that exist. -/
theorem Forest.lt_size_of_above (h : t.Forest) {a id : Nat} (hid : id < t.size)
    (ha : t.Above a id) : a < t.size := by
  induction ha with
  | refl => exact hid
  | step hp _ ih => exact ih (h.parent_lt hp)

/-- Slots that exist and are pairwise different are at most as many as there are. -/
theorem length_le_size {ids : List NodeId} (hnd : ids.Nodup) (hlt : ∀ id ∈ ids, id < t.size) :
    ids.length ≤ t.size := by
  have hsub : ids ⊆ List.range t.size := fun id hid => List.mem_range.2 (hlt id hid)
  simpa using (hnd.subperm hsub).length_le

/-- A walk up that is allowed as many steps as it takes meets the top. -/
theorem length_upwardFor {n : Nat} {id x : Nat} (h : t.ancestor? n id = some x) :
    (t.upwardFor n id).length = n + 1 := by
  induction n generalizing id with
  | zero => rfl
  | succ n ih =>
    obtain ⟨p, hp, hx⟩ := Option.bind_eq_some_iff.1 h
    simp only [upwardFor, hp]
    simp [ih hx]

/-- In a forest, whatever is reached from a node is reached in fewer steps than there are slots. -/
theorem Forest.lt_size_of_ancestor? (h : t.Forest) {n : Nat} {id x : Nat} (hid : id < t.size)
    (hx : t.ancestor? n id = some x) : n < t.size := by
  have hle := length_le_size (h.nodup_upwardFor n id) fun a ha =>
    h.lt_size_of_above hid (above_of_mem_upwardFor ha)
  rw [length_upwardFor hx] at hle
  exact hle

/-- In a forest, the way up from every node ends at a node without parent after fewer steps than
there are slots. -/
theorem Forest.exists_top (h : t.Forest) {id : Nat} (hid : id < t.size) :
    ∃ n < t.size, ∃ top, t.ancestor? n id = some top ∧ t.parent? top = none := by
  have hreach : ∃ n top, t.ancestor? n id = some top ∧ t.parent? top = none := by
    induction id using h.acyclic.induction with
    | _ id ih =>
      cases hp : t.parent? id with
      | none => exact ⟨0, id, rfl, hp⟩
      | some p =>
        obtain ⟨n, top, hn, htop⟩ := ih p hp (h.parent_lt hp)
        exact ⟨n + 1, top, by simp [ancestor?, hp, hn], htop⟩
  obtain ⟨n, top, hn, htop⟩ := hreach
  exact ⟨n, h.lt_size_of_ancestor? hid hn, top, hn, htop⟩

/-- A walk up that may take the steps to the top meets every node above its start. -/
theorem mem_upwardFor_of_above {a id top : Nat} {n : Nat} (hn : t.ancestor? n id = some top)
    (htop : t.parent? top = none) {m : Nat} (hm : n ≤ m) (ha : t.Above a id) :
    a ∈ t.upwardFor m id := by
  induction m generalizing n id with
  | zero =>
    obtain rfl : n = 0 := by omega
    obtain rfl : id = top := by simpa [ancestor?] using hn
    cases ha with
    | refl => simp [upwardFor]
    | step hp _ => rw [htop] at hp; cases hp
  | succ m ih =>
    unfold upwardFor
    cases ha with
    | refl => split <;> simp
    | @step p _ hp ha =>
      rw [hp]
      cases n with
      | zero =>
        obtain rfl : id = top := by simpa [ancestor?] using hn
        rw [htop] at hp; cases hp
      | succ n =>
        have hn' : t.ancestor? n p = some top := by simpa [ancestor?, hp] using hn
        exact List.mem_cons_of_mem _ (ih hn' (by omega) ha)

/-- In a forest, the way up from a node consists of the nodes above it. -/
theorem Forest.mem_upward_iff (h : t.Forest) {a id : Nat} :
    a ∈ t.upward id ↔ t.Above a id := by
  refine ⟨above_of_mem_upwardFor, fun ha => ?_⟩
  by_cases hid : id < t.size
  · obtain ⟨n, hn, top, hreach, htop⟩ := h.exists_top hid
    exact mem_upwardFor_of_above hreach htop (by omega) ha
  · cases ha with
    | refl =>
      unfold upward
      cases t.size <;> unfold upwardFor
      · simp
      · split <;> simp
    | step hp _ => exact absurd (lt_size_of_parent? hp) hid

/-- In a forest, the bounded test for a node above another is exact. -/
theorem Forest.isAtOrAbove_iff (h : t.Forest) {a id : Nat} :
    t.isAtOrAbove a id = true ↔ t.Above a id := by
  unfold isAtOrAbove
  rw [List.contains_iff_mem, h.mem_upward_iff]

end Netconf.Tree
