import Netconf.Proofs.Edit.Copies

/-!
# Skeletons in an edit

An ancestor that an edit makes starts as a *skeleton*: a copy with the keys only, below which copies
are placed one after the other. As long as what is placed does not hide a key, the skeleton stays
the same node as the one it was made of (`Skeleton.run`, `KeysLike.matches`), so that each excerpt
finds it again (`Skeleton.runWithin_below`).
-/

namespace Netconf

open Branch

namespace Edit

variable {rule : KindRule} {b c g : Branch} {ts us : List Branch} {x : Excerpt} {xs : List Excerpt}

/-- A list of children whose keys look like those of `b`. -/
def KeysLike (b : Branch) (ts : List Branch) : Prop :=
  ∀ key ∈ b.element.kind.keys,
    (Branch.mk 0 b.element ts).entry.keyText? key = b.entry.keyText? key

/-- The children of a skeleton of `b`: copies of the keys, and more that does not hide them. -/
def Skeleton (b : Branch) (ts : List Branch) : Prop :=
  ∃ more, ts.map element = b.keysOnly.children.map element ++ more ∧
    ∀ m ∈ more, b.element.hasKey m.name = true → (b.entry.member? m.name).isSome = true

/-- A skeleton starts with the keys. -/
theorem skeleton_keysOnly (b : Branch) : Skeleton b b.keysOnly.bare.children := by
  refine ⟨[], ?_, by simp⟩
  rw [children_bare, List.map_map, List.append_nil]
  exact List.map_congr_left fun c _ => element_bare c

/-- The keys of a skeleton look like those of the node. -/
theorem Skeleton.keysLike (h : Skeleton b ts) : KeysLike b ts := by
  obtain ⟨more, hts, hmore⟩ := h
  intro key hkey
  unfold Entry.keyText?
  refine congrArg _ ?_
  rw [← member?_keysOnly hkey]
  unfold Entry.member? entry
  rw [Branch.children, hts, List.find?_append]
  cases hfind : (b.keysOnly.children.map element).find? fun m => m.name == key with
  | some m => rfl
  | none =>
    rw [Option.none_or, List.find?_eq_none]
    intro m hm hname
    have hname := eq_of_beq hname
    subst hname
    have hsome := hmore m hm (List.contains_iff_mem.2 hkey)
    rw [← member?_keysOnly hkey] at hsome
    unfold Entry.member? entry at hsome
    rw [hfind] at hsome
    cases hsome

/-- What is the same node as `b` is the same as a skeleton of `b`. -/
theorem KeysLike.matches (h : KeysLike b ts) (hkind : g.element.kind = b.element.kind)
    (hg : g.entry.matchesEntry b.entry = true) :
    g.entry.matchesEntry (Branch.mk 0 b.element ts).entry = true := by
  refine Entry.matches_of_alike hg (Element.alike_refl b.element) fun key hkey => ?_
  exact (h key (hkind ▸ hkey)).symm

/-- A skeleton has the identity of the node. -/
theorem KeysLike.identity (h : KeysLike b ts)
    (hb : b.element.kind = rule b.element.ns b.element.name) :
    (Branch.mk 0 b.element ts).identity rule = b.identity rule :=
  identity_congr hb (Element.alike_refl _) h

/-- Placing a copy adds at most its uppermost ancestor to the elements of a list. -/
theorem Placed.map_element {above : List Branch} {copy : Branch} (h : Placed above copy ts us) :
    us.map element = ts.map element ∨
      us.map element = ts.map element ++ [(above.headD copy).element] := by
  cases h with
  | here => exact .inr (by simp)
  | found => exact .inl (by simp [element])
  | made => exact .inr (by simp [element])

/-- Placing an excerpt keeps a skeleton, when it does not hide a key. -/
theorem Skeleton.placed (h : Skeleton b ts) (hx : x.Placed ts us)
    (hhead : b.element.hasKey x.head.element.name = true →
      (b.entry.member? x.head.element.name).isSome = true) : Skeleton b us := by
  obtain ⟨more, hts, hmore⟩ := h
  rcases Placed.map_element hx with heq | heq
  · exact ⟨more, heq.trans hts, hmore⟩
  · refine ⟨more ++ [x.head.element], ?_, fun m hm => ?_⟩
    · rw [heq, hts, List.append_assoc]
      rfl
    · rcases List.mem_append.1 hm with hm | hm
      · exact hmore m hm
      · rw [List.mem_singleton.1 hm]
        exact hhead

/-- Excerpts that do not hide the keys of a node. -/
def Harmless (b : Branch) (xs : List Excerpt) : Prop :=
  ∀ x ∈ xs, b.element.hasKey x.head.element.name = true →
    (b.entry.member? x.head.element.name).isSome = true

/-- A run of harmless excerpts keeps a skeleton. -/
theorem Skeleton.run (h : Skeleton b ts) (hxs : Harmless b xs)
    (hrun : Run Excerpt.Placed xs ts us) : Skeleton b us := by
  induction hrun with
  | nil => exact h
  | cons hx _ ih =>
    exact ih (h.placed hx (hxs _ (by simp))) fun y hy => hxs y (by simp [hy])

/-- An excerpt seen from the parent of the top. -/
def Excerpt.below (g : Branch) (x : Excerpt) : Excerpt := ⟨g :: x.above, x.copy⟩

/-- What a run does to a skeleton, it does to the children of the skeleton in the list that this is
in. -/
theorem Skeleton.runWithin_below {P : Branch → Prop} (h : Skeleton b ts) (hxs : Harmless b xs)
    (hrun : Run Excerpt.Placed xs ts us) (hkind : g.element.kind = b.element.kind)
    (hg : g.entry.matchesEntry b.entry = true)
    (hP : ∀ ts, Skeleton b ts → P (.mk 0 b.element ts)) :
    RunWithin Excerpt.Placed P (xs.map (Excerpt.below g)) [.mk 0 b.element ts]
      [.mk 0 b.element us] := by
  induction hrun with
  | nil => exact .nil
  | cons hx _ ih =>
    have hnext := h.placed hx (hxs _ (by simp))
    refine .cons (@Placed.found _ _ _ [] _ [] _ (h.keysLike.matches hkind hg) (by simp) hx)
      (fun c hc => ?_) (ih hnext fun y hy => hxs y (by simp [hy]))
    rw [List.mem_singleton.1 hc]
    exact hP _ hnext

/-- A skeleton that is not there is made by the first excerpt below its node. -/
theorem runWithin_of_skeleton {P : Branch → Prop}
    (h : RunWithin Excerpt.Placed P (x.below b :: xs)
      [.mk 0 b.element b.keysOnly.bare.children] us) :
    RunWithin Excerpt.Placed P (x.below b :: xs) [] us := by
  cases h with
  | cons hx hm hs =>
    have hmatch := (skeleton_keysOnly b).keysLike.matches rfl (Entry.matches_refl b.entry)
    unfold Excerpt.Placed Excerpt.below at hx
    generalize hlist : [Branch.mk 0 b.element b.keysOnly.bare.children] = l at hx
    cases hx with
    | @found _ _ _ pre c post cs hc hpre hcs =>
      cases pre with
      | nil =>
        obtain ⟨rfl, rfl⟩ := List.cons.inj hlist
        exact .cons (.made (by simp) hcs) hm hs
      | cons d pre => simp at hlist
    | made hts hcs =>
      subst hlist
      rw [hts _ (by simp)] at hmatch
      cases hmatch

/-- Placing an excerpt leaves no list empty. -/
theorem Placed.ne_nil {above : List Branch} {copy : Branch} (h : Placed above copy ts us) :
    us ≠ [] := by
  cases h <;> simp

/-- A run of excerpts leaves no list empty. -/
theorem ne_nil_of_run (hrun : Run Excerpt.Placed xs ts us) (hxs : xs ≠ []) : us ≠ [] := by
  induction hrun with
  | nil => exact absurd rfl hxs
  | @cons y ys _ _ _ hx hs ih =>
    cases ys with
    | nil =>
      cases hs
      exact Placed.ne_nil hx
    | cons z zs => exact ih (by simp)

end Edit

end Netconf
