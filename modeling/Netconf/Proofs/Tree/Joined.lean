import Netconf.Proofs.Tree.Lineages

/-!
# One more node

`Tree.Joined` describes a tree that has got one more node, which stands alone or is the last child
of an older one. A branch ends with the new slot where the node has joined its right edge, that is
the last child of its top, the last child of that one, and so on (`Joined.ids_branch_edge`). All
other branches keep their slots.
-/

namespace Netconf.Tree

variable {t t' : Tree}

/-- The slots of a branch depend on the children below its top only. -/
theorem Forest.ids_branch_congr (h : t.Forest) (h' : t'.Forest) {id : Nat}
    (hsame : ∀ x : Nat, t.Above id x → t'.children x = t.children x) :
    (t'.branch id).ids = (t.branch id).ids := by
  induction id using h.down_induction with
  | step id ih =>
    rw [h'.branch_eq, h.branch_eq, Branch.ids, Branch.ids, hsame id .refl,
      Branch.idsOfAll_eq_flatMap, Branch.idsOfAll_eq_flatMap, List.flatMap_map, List.flatMap_map]
    refine congrArg _ (List.flatMap_congr fun c hc => ih c hc fun x hx => ?_)
    exact hsame x (h.above_iff.2 (.inr ⟨c, hc, hx⟩))

/-- A last child has the node as its parent. -/
theorem Forest.parent?_of_getLast? (h : t.Forest) {c q : Nat}
    (hlast : (t.children q).getLast? = some c) : t.parent? c = some q :=
  h.mem_children_iff.1 (List.mem_of_getLast? hlast)

/-- The nodes are a way up along the right edge of a branch: each is the last child of the next. -/
def RightEdge (t : Tree) (edge : List NodeId) : Prop :=
  edge.IsChain fun c q => (t.children q).getLast? = some c

/-- A right edge stays where all its nodes but the first have their children. -/
theorem RightEdge.congr {edge : List NodeId} (hedge : t.RightEdge edge)
    (hsame : ∀ q ∈ edge.tail, t'.children q = t.children q) : t'.RightEdge edge := by
  induction edge with
  | nil => exact .nil
  | cons c edge ih =>
    cases edge with
    | nil => exact .singleton c
    | cons q edge =>
      obtain ⟨hlast, hrest⟩ := List.isChain_cons_cons.1 hedge
      refine List.isChain_cons_cons.2 ⟨?_, ih hrest fun r hr => hsame r (List.mem_cons_of_mem q hr)⟩
      rw [hsame q List.mem_cons_self, hlast]

/-- A right edge is the way up from its first node, if the last one has no parent. -/
theorem RightEdge.upward_eq (h : t.Forest) {edge : List NodeId} {c top : Nat}
    (hedge : t.RightEdge (c :: edge)) (htop : (c :: edge).getLast? = some top)
    (halone : t.parent? top = none) : t.upward c = c :: edge := by
  induction edge generalizing c with
  | nil =>
    obtain rfl : c = top := by simpa using htop
    rw [h.upward_eq, halone, Option.elim_none]
  | cons q edge ih =>
    obtain ⟨hlast, hrest⟩ := List.isChain_cons_cons.1 hedge
    rw [List.getLast?_cons_cons] at htop
    rw [h.upward_eq, h.parent?_of_getLast? hlast, Option.elim_some, ih hrest htop]

/-- The last node of a right edge is above the first. -/
theorem RightEdge.above (h : t.Forest) {edge : List NodeId} {c top : Nat}
    (hedge : t.RightEdge (c :: edge)) (htop : (c :: edge).getLast? = some top) : t.Above top c := by
  induction edge generalizing c with
  | nil =>
    obtain rfl : c = top := by simpa using htop
    exact .refl
  | cons q edge ih =>
    obtain ⟨hlast, hrest⟩ := List.isChain_cons_cons.1 hedge
    rw [List.getLast?_cons_cons] at htop
    exact .step (h.parent?_of_getLast? hlast) (ih hrest htop)

/-- The tree `t'` is `t` with one node more, behind the other children of `parent` if there is
one. -/
structure Joined (t : Tree) (parent : Option NodeId) (e : Element) (t' : Tree) : Prop where
  /-- The links are those of a forest. -/
  forest : t'.Forest
  /-- There is one slot more. -/
  size : t'.size = t.size + 1
  /-- The new slot has the element, and the others have theirs. -/
  element : ∀ x : Nat, t'.element x = if x = t.size then e else t.element x
  /-- The new slot has the parent, and the others have theirs. -/
  parent? : ∀ x : Nat, t'.parent? x = if x = t.size then parent else t.parent? x
  /-- The parent has a new last child, and the others have theirs. -/
  children : ∀ x : Nat,
    t'.children x = if parent = some x then t.children x ++ [t.size] else t.children x
  /-- The default bindings stay. -/
  defaults : t'.defaults = t.defaults

/-- A node that stands alone. -/
theorem Forest.joined_create (h : t.Forest) (e : Element) : t.Joined none e (t.create e).1 where
  forest := h.create e
  size := by simp [Tree.create]
  element x := element_create e x
  parent? x := by
    rw [parent?_create]
    split
    · next hx => rw [hx, Tree.parent?, node_of_size_le (Nat.le_refl _)]
    · rfl
  children x := by rw [children_create, if_neg (by simp)]
  defaults := rfl

/-- A new node can always be put behind the children of a node. -/
theorem Forest.exists_append (h : t.Forest) {p : Nat} (hp : p < t.size) (e : Element) :
    ∃ t', (t.create e).1.append p (t.create e).2 = .ok t' ∧ t.Joined (some p) e t' := by
  have hmade := h.joined_create e
  have hid : t.size < (t.create e).1.size := by rw [hmade.size]; exact Nat.lt_succ_self _
  have halone : (t.create e).1.parent? t.size = none := by rw [hmade.parent?, if_pos rfl]
  obtain ⟨t', ht', -, -, -⟩ := (h.keeps_create e).exists_insertAt h hp (Nat.le_refl _) hid halone
    ((t.create e).1.children p).length
  have hins := inserted_of_insertAt (Nat.lt_of_lt_of_le hp (h.keeps_create e).size_le) hid ht'
  refine ⟨t', ht', hins.forest hmade.forest, hins.size.trans hmade.size,
    fun x => (hins.element x).trans (hmade.element x), fun x => ?_, fun x => ?_, hins.defaults⟩
  · rw [hins.parent?, hmade.parent?]
    split <;> rfl
  · rw [hins.children, children_create]
    by_cases hx : x = p
    · subst hx
      rw [if_pos rfl, if_pos rfl, children_create, Nat.min_self, List.insertIdx_length_self]
    · rw [if_neg hx, if_neg fun he => hx (Option.some.inj he).symm]

namespace Joined

variable {parent : Option NodeId} {e : Element} {p : Nat}

/-- The new node has no children. -/
theorem children_new (hj : t.Joined parent e t') (hp : ∀ p ∈ parent, p < t.size) :
    t'.children t.size = [] := by
  have hne : parent ≠ some t.size := fun he => Nat.lt_irrefl _ (hp _ he)
  rw [hj.children, if_neg hne, Tree.children, node_of_size_le (Nat.le_refl _)]

/-- The branch of the new node is the node alone. -/
theorem ids_branch_new (hj : t.Joined parent e t') (hp : ∀ p ∈ parent, p < t.size) :
    (t'.branch t.size).ids = [t.size] := by
  rw [hj.forest.branch_eq, hj.children_new hp]
  rfl

/-- A branch without the parent keeps its slots. -/
theorem ids_branch_of_not_above (hj : t.Joined parent e t') (h : t.Forest) {x : Nat}
    (hnot : ∀ p ∈ parent, ¬ t.Above x p) : (t'.branch x).ids = (t.branch x).ids :=
  h.ids_branch_congr hj.forest fun y hy => by
    have hne : parent ≠ some y := fun he => hnot y he hy
    rw [hj.children, if_neg hne]

/-- Where a branch has one more slot at its end, so has the branch that it is the last part of. -/
theorem ids_branch_of_last (hj : t.Joined (some p) e t') (h : t.Forest) {c q : Nat}
    (habove : t.Above c p) (hlast : (t.children q).getLast? = some c)
    (hc : (t'.branch c).ids = (t.branch c).ids ++ [t.size]) :
    (t'.branch q).ids = (t.branch q).ids ++ [t.size] := by
  obtain ⟨others, hothers⟩ := List.getLast?_eq_some_iff.1 hlast
  have hcq : c ∈ t.children q := hothers ▸ List.mem_append_right _ List.mem_cons_self
  have hkids : t'.children q = others ++ [c] := by
    rw [hj.children, if_neg, hothers]
    intro he
    obtain rfl := Option.some.inj he
    exact h.not_above_parent (h.mem_children_iff.1 hcq) habove
  have hsame : ∀ d ∈ others, (t'.branch d).ids = (t.branch d).ids := by
    intro d hd
    have hdq : d ∈ t.children q := hothers ▸ List.mem_append_left _ hd
    have hne : d ≠ c := by
      rintro rfl
      have hnd := h.nodup_children q
      rw [hothers] at hnd
      exact List.disjoint_of_nodup_append hnd hd List.mem_cons_self
    refine hj.ids_branch_of_not_above h fun x hx hdx => ?_
    obtain rfl := Option.some.inj hx
    exact h.not_above_sibling hdq hcq hne hdx habove
  rw [hj.forest.branch_eq, h.branch_eq, Branch.ids, Branch.ids, hkids, hothers,
    Branch.idsOfAll_eq_flatMap, Branch.idsOfAll_eq_flatMap, List.flatMap_map, List.flatMap_map,
    List.flatMap_append, List.flatMap_append, List.flatMap_congr hsame]
  simp [hc]

/-- A right edge stays where the new node joins its first node, and goes on with it. -/
theorem rightEdge (hj : t.Joined (some p) e t') {edge : List NodeId}
    (hedge : t.RightEdge (p :: edge)) (hnot : p ∉ edge) : t'.RightEdge (t.size :: p :: edge) := by
  refine List.isChain_cons_cons.2 ⟨?_, hedge.congr fun q hq => ?_⟩
  · rw [hj.children, if_pos rfl, List.getLast?_concat]
  · have hne : some p ≠ some q := fun he => hnot (Option.some.inj he ▸ hq)
    rw [hj.children, if_neg hne]

/-- In the branch of its parent the new slot is the last one. -/
theorem ids_branch_parent (hj : t.Joined (some p) e t') (h : t.Forest) (hp : p < t.size) :
    (t'.branch p).ids = (t.branch p).ids ++ [t.size] := by
  have hnew : (t'.branch t.size).ids = [t.size] :=
    hj.ids_branch_new fun q hq => Option.some.inj hq ▸ hp
  have hsame : ∀ c ∈ t.children p, (t'.branch c).ids = (t.branch c).ids := fun c hc =>
    hj.ids_branch_of_not_above h fun q hq =>
      Option.some.inj hq ▸ h.not_above_parent (h.mem_children_iff.1 hc)
  rw [hj.forest.branch_eq, h.branch_eq, Branch.ids, Branch.ids, hj.children, if_pos rfl,
    Branch.idsOfAll_eq_flatMap, Branch.idsOfAll_eq_flatMap, List.flatMap_map, List.flatMap_map,
    List.flatMap_append, List.flatMap_congr hsame]
  simp [hnew]

/-- The branch whose right edge the new node has joined ends with it. -/
theorem ids_branch_edge (hj : t.Joined (some p) e t') (h : t.Forest) (hp : p < t.size)
    {edge : List NodeId} {top : Nat} (hedge : t.RightEdge (p :: edge))
    (htop : (p :: edge).getLast? = some top) :
    (t'.branch top).ids = (t.branch top).ids ++ [t.size] := by
  -- from the parent up, each branch on the edge ends as the one below it
  have hup : ∀ (edge : List NodeId) (c : Nat), t.Above c p →
      (t'.branch c).ids = (t.branch c).ids ++ [t.size] → t.RightEdge (c :: edge) →
      (c :: edge).getLast? = some top → (t'.branch top).ids = (t.branch top).ids ++ [t.size] := by
    intro edge
    induction edge with
    | nil =>
      intro c _ hc _ htop
      obtain rfl : c = top := by simpa using htop
      exact hc
    | cons q edge ih =>
      intro c habove hc hedge htop
      obtain ⟨hlast, hrest⟩ := List.isChain_cons_cons.1 hedge
      rw [List.getLast?_cons_cons] at htop
      exact ih q (Above.trans (.step (h.parent?_of_getLast? hlast) .refl) habove)
        (hj.ids_branch_of_last h habove hlast hc) hrest htop
  exact hup edge p .refl (hj.ids_branch_parent h hp) hedge htop

end Joined

end Netconf.Tree
