import Netconf.Proofs.Path.Sites

/-!
# Creations that fail

A creation that fails leaves the parents, values and attributes of all nodes. It does not always
leave their children: the node of each step is put below the one before as soon as it is made, so
that a step that cannot be made finds the nodes of the steps in front of it in place
(`create_error_children_iff`).
-/

namespace Netconf.Path

variable {t t' : Tree}

/-- A creation that fails leaves every node its parent, value and attributes, and its children but
for at most one new child behind them. It leaves the children of all nodes exactly if the path
could not be read or nothing was begun. -/
theorem create_error_children_iff (h : t.Forest) {id : NodeId} (hid : id < t.size) {reuse : Reuse}
    {bindings : Option Bindings} {text : String} {e : Error}
    (hfail : create id reuse bindings text t = .error e t') :
    (∀ x < t.size, t'.parent? x = t.parent? x ∧ t'.value? x = t.value? x ∧
      (t'.element x).attributes = (t.element x).attributes ∧
      ∃ new, new.length ≤ 1 ∧ t'.children x = t.children x ++ new) ∧
    ((∀ x < t.size, t'.children x = t.children x) ↔
      ∀ steps, parseForCreate text = .ok steps →
        begins (t.bound id bindings) id reuse steps = false) := by
  have hsize : (t.bound id bindings).size = t.size := Tree.size_bound t id bindings
  have helement : ∀ x, ((t.bound id bindings).element x).value = (t.element x).value ∧
      ((t.bound id bindings).element x).attributes = (t.element x).attributes := fun x => by
    rw [Tree.element_bound]
    split <;> exact ⟨rfl, rfl⟩
  rw [create_eq] at hfail
  cases hsteps : parseForCreate text with
  | error e =>
    rw [hsteps] at hfail
    cases hfail
    exact ⟨fun x _ => ⟨rfl, rfl, rfl, [], Nat.zero_le 1, (List.append_nil _).symm⟩,
      fun _ steps hs => (by cases hs), fun _ _ _ => rfl⟩
  | ok steps =>
    rw [hsteps] at hfail
    have hid' : id < (t.bound id bindings).size := by rw [hsize]; exact hid
    obtain ⟨new, hs, hle, hiff⟩ :=
      (ensures_buildSteps (h.bound id bindings) hid' (axis_of_parseForCreate hsteps)).of_error hfail
    have hnew : ∀ x < t.size, t'.children x = t.children x ++ new x := fun x hx => by
      rw [hs.children x (by rw [hsize]; exact hx), Tree.children_bound]
    refine ⟨fun x hx => ?_, fun hsame steps' hsteps' => ?_, fun hbegins x hx => ?_⟩
    · have hx' : x < (t.bound id bindings).size := by rw [hsize]; exact hx
      refine ⟨(hs.parent? x hx').trans (Tree.parent?_bound t id bindings x), ?_, ?_, new x,
        hle x, hnew x hx⟩
      · rw [Tree.value?, hs.element x hx', (helement x).1]
        rfl
      · rw [hs.element x hx', (helement x).2]
    · cases hsteps'
      refine hiff.1 fun x hx => ?_
      rw [hsize] at hx
      exact List.append_right_eq_self.1 ((hnew x hx).symm.trans (hsame x hx))
    · rw [hnew x hx, hiff.2 (hbegins steps rfl) x (by rw [hsize]; exact hx), List.append_nil]

/-! ## A node that is left -/

/-- The tree of the document `<a xmlns="urn:a"/>`. -/
def sole : Tree :=
  ((Tree.empty (.standard 0)).create
    { ns := some "urn:a", name := "a", bindings := ⟨[⟨"", "urn:a"⟩]⟩ }).1

/-- The tree is a forest. -/
theorem forest_sole : sole.Forest := (Tree.forest_empty (.standard 0)).create _

/-- The path `b/zz:c` cannot be created, since nothing binds the label of its second step; the
first one is begun. -/
theorem create_error_children_iff_begun :
    ∃ t', create 0 .none none "b/zz:c" sole = .error (.create (.unboundLabel "zz")) t' ∧
      ¬ ∀ x < sole.size, t'.children x = sole.children x := by
  have hfail : ∃ t', create 0 .none none "b/zz:c" sole = .error (.create (.unboundLabel "zz")) t' :=
    ⟨_, rfl⟩
  obtain ⟨t', ht'⟩ := hfail
  refine ⟨t', ht', fun hsame => ?_⟩
  obtain ⟨steps, hsteps, hbegins⟩ : ∃ steps, parseForCreate "b/zz:c" = .ok steps ∧
      begins (sole.bound 0 none) 0 .none steps = true := ⟨_, rfl, rfl⟩
  have hnot := (create_error_children_iff forest_sole (by decide) ht').2.1 hsame steps hsteps
  rw [hnot] at hbegins
  cases hbegins

/-- A creation that fails may leave a node of a document with a new child. -/
theorem create_error_attaches :
    Xml.parse (.standard 0) none "<a xmlns=\"urn:a\"/>" = .ok ⟨sole, 0⟩ ∧
      ∃ t', create 0 .none none "b/zz:c" sole = .error (.create (.unboundLabel "zz")) t' ∧
        sole.children 0 = [] ∧ t'.children 0 = [1] :=
  ⟨rfl, _, rfl, rfl, rfl⟩

end Netconf.Path
