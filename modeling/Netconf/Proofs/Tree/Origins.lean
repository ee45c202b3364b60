import Netconf.Proofs.Tree.Frames

/-!
# The origins of copied nodes

A branch that looks like a branch of another tree, the numbers of slots apart, has an origin in that
tree for each of its nodes: with the same content, and with the origins of the children as its
children (`Traced`, `Forest.exists_traced`).
-/

namespace Netconf.Tree

variable {t src : Tree} {f g : NodeId → NodeId} {x z : NodeId}

/-- From `x` down, the nodes carry what the nodes of the source that `f` gives carry, and have
children whose origins are the children of these, in order. -/
def Traced (t src : Tree) (f : NodeId → NodeId) (x : NodeId) : Prop :=
  ∀ z : NodeId, t.Above x z →
    t.element z = src.element (f z) ∧ (t.children z).map f = src.children (f z)

/-- Only the origins of nodes from `x` down matter. -/
theorem Traced.congr (h : t.Traced src f x) (ht : t.Forest)
    (hfg : ∀ z : NodeId, t.Above x z → g z = f z) : t.Traced src g x := by
  intro z hz
  obtain ⟨helement, hchildren⟩ := h z hz
  rw [hfg z hz]
  refine ⟨helement, (List.map_congr_left fun c hc => hfg c ?_).trans hchildren⟩
  exact .step (ht.mem_children_iff.1 hc) hz

/-- The origins stand below each other as the nodes do. -/
theorem Traced.above (h : t.Traced src f x) (ht : t.Forest) (hs : src.Forest)
    (hz : t.Above x z) : src.Above (f x) (f z) := by
  induction hz with
  | refl => exact .refl
  | @step p z hp hxp ih =>
    have hmem := List.mem_map_of_mem (f := f) (ht.mem_children_iff.2 hp)
    rw [(h p hxp).2] at hmem
    exact .step (hs.mem_children_iff.1 hmem) ih

/-- Siblings whose branches look like those of other nodes have origins, if each of them has. -/
theorem Forest.exists_traced_of (h : t.Forest) {p : NodeId} {xs ys : List NodeId}
    (hsub : xs ⊆ t.children p) (hnd : xs.Nodup)
    (hone : ∀ c ∈ xs, ∀ y : NodeId, (t.branch c).bare = (src.branch y).bare →
      ∃ f, f c = y ∧ t.Traced src f c)
    (heq : (xs.map fun c => (t.branch c).bare) = ys.map fun c => (src.branch c).bare) :
    ∃ f, xs.map f = ys ∧ ∀ c ∈ xs, t.Traced src f c := by
  induction xs generalizing ys with
  | nil =>
    have hys : ys = [] := by simpa using heq.symm
    exact ⟨id, hys.symm, by simp⟩
  | cons c xs ih =>
    cases ys with
    | nil => cases heq
    | cons y ys =>
      rw [List.map_cons, List.map_cons, List.cons.injEq] at heq
      obtain ⟨hc, hnd⟩ := List.nodup_cons.1 hnd
      obtain ⟨f, hf, htraced⟩ := hone c (by simp) y heq.1
      obtain ⟨g, hg, hrest⟩ := ih (fun d hd => hsub (by simp [hd])) hnd
        (fun d hd => hone d (by simp [hd])) heq.2
      -- nothing is below two of the siblings, so the parts do not get into each other's way
      classical
      have hother : ∀ d ∈ xs, ∀ z : NodeId, t.Above d z → ¬ t.Above c z := by
        intro d hd z hdz
        have hne : d ≠ c := fun he => hc (he ▸ hd)
        exact h.not_above_sibling (hsub (by simp [hd])) (hsub (by simp)) hne hdz
      refine ⟨fun z => if t.Above c z then f z else g z, ?_, fun d hd => ?_⟩
      · rw [List.map_cons, if_pos .refl, hf,
          List.map_congr_left fun d hd => if_neg (hother d hd d .refl), hg]
      · rcases List.mem_cons.1 hd with rfl | hd
        · exact htraced.congr h fun z hz => if_pos hz
        · exact (hrest d hd).congr h fun z hz => if_neg (hother d hd z hz)

/-- A branch that looks like a branch of another tree has origins there. -/
theorem Forest.exists_traced (h : t.Forest) (hs : src.Forest) {x y : NodeId}
    (heq : (t.branch x).bare = (src.branch y).bare) : ∃ f, f x = y ∧ t.Traced src f x := by
  induction x using h.down_induction generalizing y with
  | step x ih =>
    rw [h.bare_branch, hs.bare_branch, Branch.mk.injEq] at heq
    obtain ⟨-, helement, hcontent⟩ := heq
    obtain ⟨f, hf, htraced⟩ := h.exists_traced_of (List.Subset.refl _) (h.nodup_children x)
      (fun c hc y heq => ih c hc heq) hcontent
    -- the children have origins by now, and `x` is below none of them
    classical
    have hbelow : ∀ c ∈ t.children x, ∀ z : NodeId, t.Above c z → z ≠ x := by
      rintro c hc z hz rfl
      exact h.not_above_parent (h.mem_children_iff.1 hc) hz
    refine ⟨fun z => if z = x then y else f z, if_pos rfl, fun z hz => ?_⟩
    rcases h.above_iff.1 hz with rfl | ⟨c, hc, hcz⟩
    · dsimp only
      rw [if_pos rfl]
      refine ⟨helement, (List.map_congr_left fun c hc => ?_).trans hf⟩
      exact if_neg (hbelow c hc c .refl)
    · exact ((htraced c hc).congr h fun z hz => if_neg (hbelow c hc z hz)) z hcz

end Netconf.Tree
