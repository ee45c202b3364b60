/-!
# Changes of lists, class by class

A list of siblings is changed by jobs one after the other, and each job concerns the members of one
class only. Then the jobs may be taken class by class: if for each class its jobs lead from its
members to some list, all jobs together lead from the whole list to one with these parts
(`Run.exists_of_parts`).
-/

namespace Netconf

variable {α J κ : Type} {R : J → List α → List α → Prop}

/-- A member of a part of a list, at its place in the whole list. -/
theorem exists_split_of_filter {p : α → Bool} {l pre post : List α} {x : α}
    (h : l.filter p = pre ++ x :: post) :
    ∃ pre' post', l = pre' ++ x :: post' ∧ pre'.filter p = pre ∧ post'.filter p = post := by
  obtain ⟨l₁, l₂, rfl, rfl, hl₂⟩ := List.filter_eq_append_iff.1 h
  obtain ⟨m₁, m₂, rfl, hm₁, -, rfl⟩ := List.filter_eq_cons_iff.1 hl₂
  refine ⟨l₁ ++ m₁, m₂, by simp, ?_, rfl⟩
  rw [List.filter_append, List.filter_eq_nil_iff.2 hm₁, List.append_nil]

/-- What jobs do to a list, one after the other. -/
inductive Run (R : J → List α → List α → Prop) : List J → List α → List α → Prop where
  /-- Without jobs nothing changes. -/
  | nil {l} : Run R [] l l
  /-- The first job, then the others. -/
  | cons {j js l m n} (h : R j l m) (hs : Run R js m n) : Run R (j :: js) l n

/-- What jobs do to a list whose members have a property after each of them. -/
inductive RunWithin (R : J → List α → List α → Prop) (P : α → Prop) :
    List J → List α → List α → Prop where
  /-- Without jobs nothing changes. -/
  | nil {l} : RunWithin R P [] l l
  /-- The first job, then the others. -/
  | cons {j js l m n} (h : R j l m) (hm : ∀ x ∈ m, P x) (hs : RunWithin R P js m n) :
    RunWithin R P (j :: js) l n

/-- A job that can be done on a part of a list can be done on the whole list, and leaves the other
parts. -/
def ConcernsOnly (R : J → List α → List α → Prop) (j : J) (p : α → Bool) : Prop :=
  ∀ {l m : List α}, R j (l.filter p) m → (∀ x ∈ m, p x = true) →
    ∃ n, R j l n ∧ n.filter p = m ∧
      ∀ q : α → Bool, (∀ x, q x = true → p x = false) → n.filter q = l.filter q

/-- A run of jobs in two parts is a run of the first and then of the second. -/
theorem Run.split {js ks : List J} {l n : List α} (h : Run R (js ++ ks) l n) :
    ∃ m, Run R js l m ∧ Run R ks m n := by
  induction js generalizing l with
  | nil => exact ⟨l, .nil, h⟩
  | cons j js ih =>
    cases h with
    | cons hj hs =>
      obtain ⟨m, hm, hn⟩ := ih hs
      exact ⟨m, .cons hj hm, hn⟩

/-- Two runs within a class, one after the other, are one. -/
theorem RunWithin.append {P : α → Prop} {js ks : List J} {l m n : List α}
    (h : RunWithin R P js l m) (h' : RunWithin R P ks m n) : RunWithin R P (js ++ ks) l n := by
  induction h with
  | nil => exact h'
  | cons hj hm _ ih => exact .cons hj hm (ih h')

/-- What a change in the middle of a list leaves of the parts: the changed member is exchanged in
its own part, and the other parts are as they were. -/
theorem filter_middle {p : α → Bool} {x : α} (pre post new : List α) (hx : p x = true)
    (hnew : ∀ y ∈ new, p y = true) :
    (pre ++ new ++ post).filter p = pre.filter p ++ new ++ post.filter p ∧
      ∀ q : α → Bool, (∀ x, q x = true → p x = false) →
        (pre ++ new ++ post).filter q = (pre ++ x :: post).filter q := by
  refine ⟨?_, fun q hq => ?_⟩
  · rw [List.filter_append, List.filter_append, List.filter_eq_self.2 hnew]
  · have hnot : ∀ y, p y = true → ¬ q y = true := fun y hy hqy => by
      have := hq y hqy
      rw [hy] at this
      cases this
    rw [List.filter_append, List.filter_append, List.filter_append,
      List.filter_eq_nil_iff.2 fun y hy => hnot y (hnew y hy), List.append_nil,
      List.filter_cons_of_neg (hnot x hx)]

/-- What a member added at the end leaves of the parts: it is added to its own part, and the other
parts are as they were. -/
theorem filter_concat {p : α → Bool} {l : List α} {x : α} (hx : p x = true) :
    (l ++ [x]).filter p = l.filter p ++ [x] ∧
      ∀ q : α → Bool, (∀ x, q x = true → p x = false) → (l ++ [x]).filter q = l.filter q := by
  refine ⟨by rw [List.filter_append, List.filter_cons_of_pos hx, List.filter_nil], fun q hq => ?_⟩
  rw [List.filter_append, List.filter_cons_of_neg, List.filter_nil, List.append_nil]
  intro hqx
  rw [hq _ hqx] at hx
  cases hx

variable [DecidableEq κ]

/-- When each job concerns the members of its own class only, jobs may be taken class by class. -/
theorem Run.exists_of_parts (cls : α → κ) (clsJ : J → κ) {js : List J} {l : List α}
    {parts : κ → List α} (hjs : ∀ j ∈ js, ConcernsOnly R j fun x => cls x = clsJ j)
    (h : ∀ k, RunWithin R (fun x => cls x = k) (js.filter fun j => clsJ j = k)
      (l.filter fun x => cls x = k) (parts k)) :
    ∃ n, Run R js l n ∧ ∀ k, (n.filter fun x => cls x = k) = parts k := by
  induction js generalizing l with
  | nil =>
    refine ⟨l, .nil, fun k => ?_⟩
    have hk := h k
    generalize hpart : (l.filter fun x => decide (cls x = k)) = part at hk
    generalize parts k = target at hk
    cases hk
    rfl
  | cons j js ih =>
    have hown := h (clsJ j)
    rw [List.filter_cons_of_pos (by simp)] at hown
    cases hown with
    | cons hstep hms hrest =>
      obtain ⟨l', hstep', hpart, hothers⟩ :=
        hjs j (by simp) hstep fun x hx => by simpa using hms x hx
      have hnext : ∀ k, RunWithin R (fun x => cls x = k) (js.filter fun j => clsJ j = k)
          (l'.filter fun x => cls x = k) (parts k) := by
        intro k
        by_cases hk : clsJ j = k
        · subst hk
          rw [hpart]
          exact hrest
        · rw [hothers _ fun x hx => by simp at hx ⊢; exact fun he => hk (he ▸ hx)]
          have hk' := h k
          rwa [List.filter_cons_of_neg (by simpa using hk)] at hk'
      obtain ⟨n, hn, hparts⟩ := ih (fun j hj => hjs j (by simp [hj])) hnext
      exact ⟨n, .cons hstep' hn, hparts⟩

end Netconf
