import Netconf.Tree.Build

/-!
# What a change of a tree guarantees

`Build.Ensures b t done failed` says how the change `b` ends on the tree `t`: with a result and a
tree that satisfy `done`, or with an error and a tree that satisfies `failed`. A change that must
not fail has `failed` nowhere true. The rules below take a change apart into its parts, so that
what a part guarantees is proved once and then cited.
-/

namespace Netconf

/-- Two computations in a row succeed if both do. -/
theorem bind_eq_ok {α β : Type} {x : Except Error α} {f : α → Except Error β} {b : β} :
    (x >>= f) = .ok b ↔ ∃ a, x = .ok a ∧ f a = .ok b := by
  cases x with
  | error e => simp [bind, Except.bind]
  | ok a => simp [bind, Except.bind]

namespace Build

variable {α β : Type} {t : Tree} {done : α → Tree → Prop} {failed : Tree → Prop}

/-- How a change ends on a tree: `done` of its result and tree, or `failed` of the tree that an
error leaves. -/
def Ensures (b : Build α) (t : Tree) (done : α → Tree → Prop) (failed : Tree → Prop) : Prop :=
  match b t with
  | .ok a t' => done a t'
  | .error _ t' => failed t'

/-- What is ensured may be weakened. -/
theorem Ensures.mono {b : Build α} {done' : α → Tree → Prop} {failed' : Tree → Prop}
    (h : Ensures b t done failed) (hdone : ∀ a t', done a t' → done' a t')
    (hfailed : ∀ t', failed t' → failed' t') : Ensures b t done' failed' := by
  unfold Ensures at h ⊢
  split at h
  · exact hdone _ _ h
  · exact hfailed _ h

/-- A result that is there already. -/
theorem ensures_pure {a : α} : Ensures (pure a) t done failed ↔ done a t := Iff.rfl

/-- A failure leaves the tree as it is. -/
theorem ensures_throw {e : Error} : Ensures (throw e : Build α) t done failed ↔ failed t := Iff.rfl

/-- Reading the tree. -/
theorem ensures_get {done : Tree → Tree → Prop} :
    Ensures (get : Build Tree) t done failed ↔ done t t := Iff.rfl

/-- What is read in front of a change is the tree that it changes. -/
theorem get_bind (f : Tree → Build α) (t : Tree) : ((get : Build Tree) >>= f) t = f t t := rfl

/-- A failure leaves its error and the tree as it is. -/
theorem throw_apply (e : Error) (t : Tree) : (throw e : Build α) t = .error e t := rfl

/-- One change after the other. -/
theorem ensures_bind {b : Build α} {f : α → Build β} {done : β → Tree → Prop} :
    Ensures (b >>= f) t done failed ↔
      Ensures b t (fun a t' => Ensures (f a) t' done failed) failed := by
  unfold Ensures
  simp only [bind, EStateM.bind]
  cases b t <;> rfl

/-- What a sequence ensures, from what its parts do. -/
theorem Ensures.bind {b : Build α} {f : α → Build β} {done' : β → Tree → Prop}
    (hb : Ensures b t done failed) (hf : ∀ a t', done a t' → Ensures (f a) t' done' failed) :
    Ensures (b >>= f) t done' failed :=
  ensures_bind.2 (hb.mono hf fun _ h => h)

/-- A change that cannot fail. -/
theorem ensures_change {f : Tree → Tree × α} :
    Ensures (change f) t done failed ↔ done (f t).2 (f t).1 := Iff.rfl

/-- A change of what a node carries by itself. -/
theorem ensures_modifyElement {id : NodeId} {f : Element → Element} {done : Unit → Tree → Prop} :
    Ensures (modifyElement id f) t done failed ↔ done () (t.modifyElement id f) := Iff.rfl

/-- A change that leaves the tree as it is when it fails. -/
theorem ensures_attempt {f : Tree → Except Error Tree} {done : Unit → Tree → Prop}
    (hok : ∀ t', f t = .ok t' → done () t') (herr : ∀ e, f t = .error e → failed t) :
    Ensures (attempt f) t done failed := by
  unfold Ensures attempt
  split
  · next h =>
    split at h
    · next h' => cases h; exact hok _ h'
    · cases h
  · next h =>
    split at h
    · cases h
    · next h' => cases h; exact herr _ h'

/-- What is ensured of a result. -/
theorem Ensures.of_ok {b : Build α} (h : Ensures b t done failed) {a : α} {t' : Tree}
    (hok : b t = .ok a t') : done a t' := by
  unfold Ensures at h
  rwa [hok] at h

/-- What is ensured of a failure. -/
theorem Ensures.of_error {b : Build α} (h : Ensures b t done failed) {e : Error} {t' : Tree}
    (hfail : b t = .error e t') : failed t' := by
  unfold Ensures at h
  rwa [hfail] at h

/-- A change that must not fail has a result. -/
theorem Ensures.exists_ok {b : Build α} (h : Ensures b t done fun _ => False) :
    ∃ a t', b t = .ok a t' ∧ done a t' := by
  unfold Ensures at h
  split at h
  · next a t' hok => exact ⟨a, t', hok, h⟩
  · exact h.elim

/-- What is ensured holds of the outcome of a run. -/
theorem Ensures.on {b : Build α} {P : Tree → Prop} (h : Ensures b t (fun _ => P) P) :
    P (on t b).2 := by
  unfold Ensures at h
  unfold Build.on
  split at h <;> simp_all

end Build

end Netconf
