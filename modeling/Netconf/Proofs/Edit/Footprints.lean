import Netconf.Proofs.Edit.Documents
import Netconf.Proofs.Edit.Traces

/-!
# The footprint of an edit

Applying an edit touches what the edit names and nothing else, whether it succeeds or stops with an
error on its way (`Forest.apply_touches`). What was found as a counterpart is below the place where
the edit was applied (`Accounted.above_of_found`), and so is everything between the two
(`Accounted.above_place`). A child that was not found has therefore nothing below it that was
touched, and its whole branch is as before (`Accounted.branch_eq`).
-/

namespace Netconf

namespace Edit.Accounted

open Netconf.Tree

variable {t t' : Tree} {place : Nat} {trace : Trace}

/-- A counterpart has a parent, which is at or below the place. -/
theorem above_of_found (h : t.Forest) (he : Accounted t place trace t') {c : Nat}
    (hc : c ∈ trace.found) (hlt : c < t.size) : ∃ p, t.parent? c = some p ∧ t.Above place p := by
  induction c using h.acyclic.induction with
  | _ c ih =>
    obtain ⟨p, hp, rfl | hvisited⟩ := he.found c hc hlt
    · exact ⟨p, hp, .refl⟩
    · obtain ⟨q, hq, habove⟩ := ih p hp (he.visited hvisited) (h.parent_lt hp)
      exact ⟨p, hp, .step hq habove⟩

/-- What was visited is at or below the place. -/
theorem above_of_visited (h : t.Forest) (he : Accounted t place trace t') {p : Nat}
    (hp : p = place ∨ p ∈ trace.visited) (hlt : p < t.size) : t.Above place p := by
  rcases hp with rfl | hp
  · exact .refl
  · obtain ⟨q, hq, habove⟩ := he.above_of_found h (he.visited hp) hlt
    exact .step hq habove

/-- What is above a counterpart and is none itself is above the place. -/
theorem above_place (he : Accounted t place trace t') {c x : Nat} (hx : x = place ∨ x ∈ trace.found)
    (habove : t.Above c x) (hc : c ∉ trace.found) : t.Above c place := by
  induction habove with
  | refl =>
    rcases hx with rfl | hx
    · exact .refl
    · exact absurd hx hc
  | @step p x hp habove ih =>
    rcases hx with rfl | hx
    · exact .step hp habove
    · -- the way up from a counterpart leads over counterparts to the place
      obtain ⟨q, hq, hplace⟩ := he.found x hx (lt_size_of_parent? hp)
      obtain rfl : p = q := Option.some.inj (hp.symm.trans hq)
      exact ih (hplace.imp_right fun hv => he.visited hv)

/-- What is below a child that is no counterpart was not touched. -/
theorem not_touched_below (h : t.Forest) (he : Accounted t place trace t') {p c x : Nat}
    (hp : p = place ∨ p ∈ trace.visited) (hc : t.parent? c = some p) (hnot : c ∉ trace.found)
    (hx : t.Above c x) : x ≠ place ∧ x ∉ trace.found := by
  refine not_or.1 fun htouched => ?_
  have habove := he.above_place htouched hx hnot
  exact h.not_above_parent hc (habove.trans (he.above_of_visited h hp (h.parent_lt hc)))

/-- What is no counterpart stays where it is. -/
theorem parent?_eq (he : Accounted t place trace t') {x : Nat} (hlt : x < t.size)
    (hx : x ∉ trace.found) : t'.parent? x = t.parent? x :=
  (he.parent? x hlt).resolve_right fun hboth => hx hboth.1

/-- A child that is no counterpart stays where it is, with all that is below it. -/
theorem branch_eq (h : t.Forest) (he : Accounted t place trace t') {p c : Nat}
    (hp : p = place ∨ p ∈ trace.visited) (hc : c ∈ t.children p) (hnot : c ∉ trace.found) :
    t'.parent? c = some p ∧ t'.branch c = t.branch c := by
  have hparent := h.mem_children_iff.1 hc
  constructor
  · rw [he.parent?_eq (h.child_lt hc) hnot, hparent]
  · refine h.branch_congr he.forest fun x hx => ?_
    obtain ⟨hplace, hfound⟩ := he.not_touched_below h hp hparent hnot hx
    have hlt := hx.lt_size (h.child_lt hc)
    exact ⟨he.element x hlt hfound,
      he.away x hlt hplace fun hvisited => hfound (he.visited hvisited)⟩

/-- What existed before and is below the place was below it before. -/
theorem above_of_above (h : t.Forest) (he : Accounted t place trace t') {x : Nat}
    (hx : t'.Above place x) (hlt : x < t.size) : t.Above place x := by
  induction hx with
  | refl => exact .refl
  | @step p x hp _ ih =>
    rcases he.parent? x hlt with hsame | ⟨-, hnone⟩
    · have hparent : t.parent? x = some p := hsame.symm.trans hp
      exact .step hparent (ih (h.parent_lt hparent))
    · rw [hnone] at hp
      cases hp

/-- A mark at or below the place was there before. -/
theorem mark_eq (h : t.Forest) (he : Accounted t place trace t') {x : Nat} (hx : t'.Above place x)
    (hmark : t'.markText? x ≠ none) : t.Above place x ∧ t.markText? x = t'.markText? x := by
  by_cases hlt : x < t.size
  · obtain ⟨v, hv⟩ := he.value x hlt
    refine ⟨he.above_of_above h hx hlt, ?_⟩
    rw [Tree.markText?, Tree.markText?, hv]
    rfl
  · exact absurd (he.unmarked x (Nat.not_lt.1 hlt)) hmark

end Edit.Accounted

namespace Tree

open Build Edit

variable {t t' : Tree} {root : Nat}

/-- The tree `t'` is what has become of `t` by touching, at and below the root, what the trace names
and nothing else. -/
structure Touches (t : Tree) (root : NodeId) (trace : Trace) (t' : Tree) : Prop where
  /-- What was found is a child of what was visited, and what was visited is the root or was
  found. -/
  named : (∀ c ∈ trace.found, c < t.size → ∃ p ∈ trace.visited, t.parent? c = some p) ∧
    ∀ p ∈ trace.visited, p = root ∨ p ∈ trace.found
  /-- Below a visited node the children that were not found stay in their order, new ones stand in
  the place of those that were found or behind all of them. -/
  order : ∀ p ∈ trace.visited, p < t.size →
    Outlives t.size trace.found (t.children p) (t'.children p)
  /-- A child of a visited node that was not found is still its child, with all that is below it. -/
  kept : ∀ p ∈ trace.visited, ∀ c ∈ t.children p, c ∉ trace.found →
    t'.parent? c = some p ∧ t'.branch c = t.branch c
  /-- What was not found carries what it carried and is where it was. -/
  element : ∀ x < t.size, x ∉ trace.found →
    t'.element x = t.element x ∧ t'.parent? x = t.parent? x
  /-- What was found carries what it carried, except for its value. -/
  value : ∀ x < t.size, ∃ v, t'.element x = { t.element x with value := v }
  /-- What was not visited has the children that it had. -/
  children : ∀ x < t.size, x ∉ trace.visited → t'.children x = t.children x
  /-- A mark at or below the root was there before. -/
  mark : ∀ x, t'.Above root x → t'.markText? x ≠ none →
    t.Above root x ∧ t.markText? x = t'.markText? x

/-- A tree to which nothing was done. -/
theorem touches_self (t : Tree) (root : NodeId) : t.Touches root {} t where
  named := ⟨nofun, nofun⟩
  order := nofun
  kept := nofun
  element _ _ _ := ⟨rfl, rfl⟩
  value x _ := ⟨(t.element x).value, rfl⟩
  children _ _ _ := rfl
  mark _ hx _ := ⟨hx, rfl⟩

/-- What has become of a tree when edit nodes were applied at the root. -/
theorem Forest.touches_of_accounted (h : t.Forest) {trace : Trace}
    (he : Accounted t root trace t') : t.Touches root (.and ⟨[root], []⟩ trace) t' where
  named := by
    refine ⟨fun c hc hlt => ?_, fun p hp => ?_⟩
    · obtain ⟨p, hp, hplace⟩ := he.found c hc hlt
      exact ⟨p, List.mem_cons.2 hplace, hp⟩
    · exact (List.mem_cons.1 hp).imp_right fun hv => he.visited hv
  order p _ hlt := he.children p hlt
  kept p hp c hc hnot := he.branch_eq h (List.mem_cons.1 hp) hc hnot
  element x hlt hx := ⟨he.element x hlt hx, he.parent?_eq hlt hx⟩
  value := he.value
  children x hlt hx := by
    obtain ⟨hroot, hvisited⟩ := not_or.1 fun hor => hx (List.mem_cons.2 hor)
    exact he.away x hlt hroot hvisited
  mark _ hx hmark := he.mark_eq h hx hmark

/-- Applying an edit touches what its nodes found and visited and nothing else, whether it succeeds
or not. On the elements of the edit labels and attributes are kept apart, as they are on those of
every reachable tree. -/
theorem Forest.apply_touches (h : t.Forest) (hroot : root < t.size) {edit : Tree}
    (hedit : edit.Orderly) (r : NodeId) :
    t.Touches root (Edit.trace root edit r t) (Build.on t (Edit.apply root edit r)).2 := by
  refine Ensures.on (P := t.Touches root (Edit.trace root edit r t)) ?_
  unfold Edit.trace Edit.apply
  refine ensures_bind.2 (ensures_get.2 ?_)
  split
  · exact ensures_throw.2 (touches_self t root)
  · refine (ensures_applyAll_accounted_of (fun b hb {_ _} => ?_) h hroot).mono
      (fun _ _ => h.touches_of_accounted) fun _ => h.touches_of_accounted
    exact ensures_applyNode_accounted b _ _ ((Branch.all_iff.1 (hedit.branch r)).2 b hb)

/-- A host that is replaced, one that gets another address, and one that should go and does not
exist. -/
def hostsStop : Document :=
  hostList [marked .replace (host "a" "10.0.0.7"), marked .merge (host "b" "10.0.0.9"),
    marked .delete (host "x" "10.0.0.8")]

/-- The edit of the hosts fails when it comes to the last one. Until then it has found the hosts `a`
and `b` with the name and the address of the latter, and it has touched nothing else. -/
theorem apply_touches_hosts :
    hostsBefore.tree.Forest ∧ hostsBefore.root < hostsBefore.tree.size ∧ hostsStop.tree.Orderly ∧
    (∃ e, (Build.on hostsBefore.tree
      (Edit.apply hostsBefore.root hostsStop.tree hostsStop.root)).1 = .error e) ∧
    Edit.trace hostsBefore.root hostsStop.tree hostsStop.root hostsBefore.tree =
      ⟨[0, 4], [1, 4, 5, 6]⟩ ∧
    hostsBefore.tree.Touches hostsBefore.root
      (Edit.trace hostsBefore.root hostsStop.tree hostsStop.root hostsBefore.tree)
      (Build.on hostsBefore.tree
        (Edit.apply hostsBefore.root hostsStop.tree hostsStop.root)).2 := by
  have hforest := fit_hostsBefore.forest
  have hroot := fit_hostsBefore.root_lt
  have horderly : hostsStop.tree.Orderly := (Orderly.empty _).addCopy (by decide +kernel)
  refine ⟨hforest, hroot, horderly, ⟨_, rfl⟩, by decide +kernel,
    hforest.apply_touches hroot horderly _⟩

end Tree

end Netconf
