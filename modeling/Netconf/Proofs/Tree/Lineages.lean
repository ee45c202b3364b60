import Netconf.Proofs.Tree.Frames
import Netconf.Tree.Lineage

/-!
# Lineages in changed trees

The lineage of a node is its element and the lineage of its parent (`Forest.lineage_eq`), so it only
depends on the way up (`Forest.lineage_congr`). What a label means at a node is what the node binds
it to, or else what it means at the parent (`Forest.nsOf?_eq`). So it only changes with what is
bound on the way up, and a change that is confined to what is below a node leaves all labels there.
-/

namespace Netconf.Tree

variable {t t' : Tree}

/-! ## The way up -/

/-- The way up from a node is the node and the way up from its parent. -/
theorem Forest.upward_eq (h : t.Forest) (id : NodeId) :
    t.upward id = id :: (t.parent? id).elim [] t.upward := by
  cases hp : t.parent? id with
  | none =>
    unfold upward
    cases t.size with
    | zero => rfl
    | succ n => simp only [upwardFor, hp, Option.elim_none]
  | some p =>
    rw [← h.upwardFor_of_le (lt_size_of_parent? hp) (Nat.le_succ t.size), upwardFor, hp]
    rfl

/-- The top above a node is the top above its parent, or the node itself. -/
theorem Forest.topOf_eq (h : t.Forest) (id : NodeId) :
    t.topOf id = (t.parent? id).elim id t.topOf := by
  rw [topOf, h.upward_eq]
  cases t.parent? id with
  | none => rfl
  | some p =>
    rw [Option.elim_some, Option.elim_some, topOf, h.upward_eq p]
    rfl

/-- The top above a node is the node without parent that is above it. -/
theorem Forest.topOf_of_above (h : t.Forest) {top id : NodeId} (htop : t.parent? top = none)
    (habove : t.Above top id) : t.topOf id = top := by
  induction habove with
  | refl => rw [h.topOf_eq, htop, Option.elim_none]
  | step hp _ ih => rw [h.topOf_eq, hp, Option.elim_some, ih]

/-- The lineage of a node is its element and the lineage of its parent. -/
theorem Forest.lineage_eq (h : t.Forest) (id : NodeId) :
    t.lineage id = t.element id :: (t.parent? id).elim [] t.lineage := by
  rw [lineage, h.upward_eq, List.map_cons]
  cases t.parent? id <;> rfl

/-- Lineages are the same where the nodes on the way up and their parents are. -/
theorem Forest.lineage_congr (h : t.Forest) (h' : t'.Forest) {id : NodeId}
    (hsame : ∀ x : NodeId, t.Above x id → t'.element x = t.element x ∧ t'.parent? x = t.parent? x) :
    t'.lineage id = t.lineage id := by
  induction id using h.acyclic.induction with
  | _ x ih =>
    obtain ⟨helement, hparent⟩ := hsame x .refl
    rw [h.lineage_eq, h'.lineage_eq, helement, hparent]
    cases hp : t.parent? x with
    | none => rfl
    | some p => exact congrArg _ (ih p hp fun y hy => hsame y (.step hp hy))

/-! ## Labels -/

/-- What a label means to a node below `parent` that does not bind it. -/
def inherited (t : Tree) (parent : Option NodeId) (label : String) : Option String :=
  match parent with
  | some p => t.nsOf? p label
  | none => t.defaults.bindings.ns? label

/-- A label means what the node binds it to, or else what is inherited. -/
theorem Forest.nsOf?_eq (h : t.Forest) (id : NodeId) (label : String) :
    t.nsOf? id label =
      ((t.element id).bindings.ns? label).or (t.inherited (t.parent? id) label) := by
  unfold nsOf? Lineage.ns?
  rw [h.lineage_eq, List.findSome?_cons]
  unfold inherited
  cases hbound : (t.element id).bindings.ns? label with
  | some ns => rfl
  | none => cases hp : t.parent? id <;> rfl

/-- Labels mean the same where the nodes on the way up have the same parents and bind the same. -/
theorem Forest.nsOf?_congr (h : t.Forest) (h' : t'.Forest) (hdefaults : t'.defaults = t.defaults)
    {id : NodeId} (hsame : ∀ x : NodeId, t.Above x id → t'.parent? x = t.parent? x ∧
      (t'.element x).bindings = (t.element x).bindings) (label : String) :
    t'.nsOf? id label = t.nsOf? id label := by
  induction id using h.acyclic.induction with
  | _ x ih =>
    obtain ⟨hparent, hbindings⟩ := hsame x .refl
    rw [h.nsOf?_eq, h'.nsOf?_eq, hparent, hbindings]
    refine congrArg _ ?_
    unfold inherited
    cases hp : t.parent? x with
    | none => rw [hdefaults]
    | some p => exact ih p hp fun y hy => hsame y (.step hp hy)

/-- A change of a value leaves the meanings of labels. -/
theorem Forest.nsOf?_modifyElement (h : t.Forest) (id : NodeId) {f : Element → Element}
    (hf : ∀ e, (f e).bindings = e.bindings) (x : NodeId) (label : String) :
    (t.modifyElement id f).nsOf? x label = t.nsOf? x label := by
  refine h.nsOf?_congr (h.modifyElement id f) rfl (fun y _ => ⟨by simp, ?_⟩) label
  rw [element_modifyElement]
  split
  · next heq => rw [hf, heq.1]
  · rfl

/-- A change confined to what is below a node leaves the meanings of labels at the node. -/
theorem Confined.nsOf? {top : Nat} (hc : t.Confined top t') (h : t.Forest) (htop : top < t.size)
    (hdefaults : t'.defaults = t.defaults) (label : String) :
    t'.nsOf? top label = t.nsOf? top label := by
  refine h.nsOf?_congr hc.forest hdefaults (fun x hx => ?_) label
  by_cases hxt : x = top
  · subst hxt
    exact ⟨hc.parent?_top, by rw [hc.element_top]⟩
  · have hlt := h.lt_size_of_above htop hx
    have hnot : ¬ t.Above top x := h.not_above_of_ne hx hxt
    exact ⟨hc.parent? x hlt hnot, by rw [hc.element x hlt hnot]⟩

end Netconf.Tree
