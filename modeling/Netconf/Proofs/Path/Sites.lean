import Netconf.Proofs.Path.Chains
import Netconf.Proofs.Path.Descents
import Netconf.Proofs.Tree.Bindings

/-!
# Where a path is made

A path is made below the nodes at which its longest part that may be used ends, or below the given
node if nothing may be used: its *sites*. `ensures_buildSteps` says what is made at the sites, and
what is left when a step cannot be made; whether a failing creation got as far as putting a node in
place is computed from the tree as it was (`begins`).
-/

namespace Netconf.Path

variable {t t' : Tree} {steps rest : List Step} {id : NodeId} {ps : List NodeId} {reuse : Reuse}
  {bindings : Option Bindings} {text : String}

/-! ## Sites -/

/-- The nodes below which steps are to be made, and the steps that are to be made there. -/
def sites (t : Tree) (id : NodeId) (reuse : Reuse) (steps : List Step) :
    Except PathError (List NodeId × List Step) :=
  match reuse with
  | .none => .ok ([id], steps)
  | _ => longestMatch t steps [id]

/-- Are there several sites where only one may be used? -/
def Ambiguous (reuse : Reuse) (ps : List NodeId) (rest : List Step) : Prop :=
  rest ≠ [] ∧ reuse = .single ∧ 1 < ps.length

/-- Whether there are too many sites can be computed. -/
instance : Decidable (Ambiguous reuse ps rest) := inferInstanceAs (Decidable (_ ∧ _ ∧ _))

/-- No steps make no nodes. -/
theorem buildBelowAll_nil (ps : List NodeId) (t : Tree) : buildBelowAll [] ps t = .ok ps t := by
  induction ps generalizing t with
  | nil => rfl
  | cons p ps ih =>
    have hcons : buildBelowAll [] (p :: ps) t =
        (buildBelowAll [] ps >>= fun others => pure (p :: others)) t := rfl
    rw [hcons]
    simp only [bind, EStateM.bind, ih]
    rfl

/-- Steps are made at their sites, unless there are several and only one may be used. -/
theorem buildSteps_eq (id : NodeId) (reuse : Reuse) (text : String) (steps : List Step)
    (t : Tree) : buildSteps id reuse text steps t =
      match sites t id reuse steps with
      | .error e => .error (.path e) t
      | .ok (ps, rest) =>
        if Ambiguous reuse ps rest then .error (.create (.ambiguous text)) t
        else buildBelowAll rest ps t := by
  cases reuse with
  | none =>
    have hone : buildSteps id .none text steps t = buildBelowAll steps [id] t := rfl
    rw [hone]
    exact (if_neg fun hmany => nomatch hmany.2.1).symm
  | single | every =>
    simp only [buildSteps, sites, Build.get_bind]
    cases longestMatch t steps [id] with
    | error e => rfl
    | ok found =>
      obtain ⟨ps, _ | ⟨step, rest⟩⟩ := found
      · exact (buildBelowAll_nil ps t).symm
      · by_cases hmany : 1 < ps.length
        · simp [Ambiguous, hmany, Build.throw_apply]
        · simp [Ambiguous, hmany]

/-- The sites of a path are pairwise different nodes in slots that exist. -/
theorem of_sites (h : t.Forest) (hid : id < t.size) (hsteps : ∀ step ∈ steps, step.axis = .child)
    (hs : sites t id reuse steps = .ok (ps, rest)) : ps.Nodup ∧ ∀ p ∈ ps, p < t.size := by
  have hmatch : longestMatch t steps [id] = .ok (ps, rest) → ps.Nodup ∧ ∀ p ∈ ps, p < t.size :=
    fun hm => ⟨nodup_of_longestMatch h hsteps hm (List.nodup_singleton id),
      lt_size_of_longestMatch h hm (by simpa using hid)⟩
  unfold sites at hs
  split at hs
  · cases hs
    exact ⟨List.nodup_singleton id, by simpa using hid⟩
  · exact hmatch hs

/-! ## What is made -/

/-- Is a node put in place before a creation can fail? The first of the missing steps can be made
below the first site. -/
def begins (t : Tree) (id : NodeId) (reuse : Reuse) (steps : List Step) : Bool :=
  match sites t id reuse steps with
  | .error _ => false
  | .ok (ps, rest) =>
    !decide (Ambiguous reuse ps rest) &&
      ps.head?.any fun p => startable (t.bindingsAt p) (t.ns? p) rest

/-- The nodes of the missing steps are made below each site as they are drafted there. A failure
leaves at most one new child of each node, and none at all if nothing was begun. -/
theorem ensures_buildSteps (h : t.Forest) (hid : id < t.size)
    (hsteps : ∀ step ∈ steps, step.axis = .child) :
    Build.Ensures (buildSteps id reuse text steps) t
      (fun ends t' => ∃ ps rest new, sites t id reuse steps = .ok (ps, rest) ∧
        t.Sprouts new t' ∧ (∀ x : NodeId, x ∉ ps → new x = []) ∧
        List.Forall₂ (fun p last => ∃ es, drafts (t.bindingsAt p) (t.ns? p) rest = some es ∧
          Chain t' t.size es p (new p) last) ps ends)
      fun t' => ∃ new, t.Sprouts new t' ∧ (∀ x : NodeId, (new x).length ≤ 1) ∧
        ((∀ x < t.size, new x = []) ↔ begins t id reuse steps = false) := by
  have hnothing : begins t id reuse steps = false → ∃ new, t.Sprouts new t ∧
      (∀ x : NodeId, (new x).length ≤ 1) ∧
        ((∀ x < t.size, new x = []) ↔ begins t id reuse steps = false) := fun hb =>
    ⟨Tree.nowhere, h.sprouts, fun x => Nat.zero_le 1, fun _ => hb, fun _ _ _ => rfl⟩
  unfold Build.Ensures
  rw [buildSteps_eq]
  cases hsites : sites t id reuse steps with
  | error e => exact hnothing (by simp [begins, hsites])
  | ok found =>
    obtain ⟨ps, rest⟩ := found
    obtain ⟨hnodup, hlt⟩ := of_sites h hid hsteps hsites
    by_cases hmany : Ambiguous reuse ps rest
    · simp only [if_pos hmany]
      exact hnothing (by simp [begins, hsites, hmany])
    · simp only [if_neg hmany]
      have hbegins : begins t id reuse steps =
          ps.head?.any fun p => startable (t.bindingsAt p) (t.ns? p) rest := by
        simp [begins, hsites, hmany]
      refine (ensures_buildBelowAll h hlt hnodup rest).mono ?_ ?_
      · rintro ends t' ⟨new, hs, hnew, hall⟩
        exact ⟨ps, rest, new, rfl, hs, hnew, hall⟩
      · rintro t' ⟨new, hs, hle, hnew, hiff⟩
        refine ⟨new, hs, hle, ?_⟩
        rw [hbegins, ← hiff]
        refine ⟨fun hnone x => ?_, fun hnone x _ => hnone x⟩
        by_cases hx : x ∈ ps
        · exact hnone x (hlt x hx)
        · exact hnew x hx

/-! ## Creating a path -/

/-- A creation makes the bindings and then the steps, if the path can be read. -/
theorem create_eq (id : NodeId) (reuse : Reuse) (bindings : Option Bindings) (text : String)
    (t : Tree) : create id reuse bindings text t =
      match parseForCreate text with
      | .error e => .error e t
      | .ok steps => buildSteps id reuse text steps (t.bound id bindings) := by
  unfold create
  split
  · next h => rw [h]; rfl
  · next h => rw [h]; rfl

/-- The steps that a path makes nodes for go to children. -/
theorem axis_of_parseForCreate {steps : List Step} (h : parseForCreate text = .ok steps) :
    ∀ step ∈ steps, step.axis = .child := by
  unfold parseForCreate stepsToCreate at h
  split at h
  · cases h
  next p _ =>
  split at h
  · cases h
  next h' =>
  cases h
  split at h'
  · cases h'
  · split at h'
    · next hall =>
      cases h'
      intro step hstep
      simpa using List.all_eq_true.1 hall step hstep
    · cases h'

end Netconf.Path
