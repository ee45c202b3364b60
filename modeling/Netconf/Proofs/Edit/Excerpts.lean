import Netconf.Edit.Excerpt
import Netconf.Proofs.Edit.Steps
import Netconf.Proofs.Tree.Differences
import Netconf.Proofs.Tree.Lineages

/-!
# Taking nodes over into an edit

Like the steps of an edit, taking a node over can be said of lists of branches without slots:
`Placed` puts a copy below the ancestors that the node has, each of which is found among the
branches that are there or made with its keys only. `Tree.excerptInto` does this to the content of
the root of the edit (`ensures_excerptInto`), and `Tree.excerptAll` does it for one node after the
other (`ensures_excerptAll`).
-/

namespace Netconf

namespace Edit

/-- What an edit takes over: a copy, and the ancestors that it goes below, the uppermost first. -/
structure Excerpt where
  /-- The ancestors, apart from the topmost one. -/
  above : List Branch
  /-- The copy. -/
  copy : Branch

/-- Putting a copy below ancestors: the first list of branches becomes the second one. -/
inductive Placed : List Branch → Branch → List Branch → List Branch → Prop where
  /-- Without ancestors the copy is added. -/
  | here {copy ts} : Placed [] copy ts (ts ++ [copy])
  /-- The first ancestor is there, and the copy goes below it. -/
  | found {x above copy pre c post cs} (hc : x.entry.matchesEntry c.entry = true)
    (hpre : ∀ d ∈ pre, x.entry.matchesEntry d.entry = false)
    (hcs : Placed above copy c.children cs) :
    Placed (x :: above) copy (pre ++ c :: post) (pre ++ .mk c.id c.element cs :: post)
  /-- The first ancestor is not there and is made with its keys only. -/
  | made {x above copy ts cs} (hts : ∀ d ∈ ts, x.entry.matchesEntry d.entry = false)
    (hcs : Placed above copy x.keysOnly.bare.children cs) :
    Placed (x :: above) copy ts (ts ++ [.mk 0 x.element cs])

/-- Taking over an excerpt. -/
def Excerpt.Placed (x : Excerpt) : List Branch → List Branch → Prop := Edit.Placed x.above x.copy

/-- The top of what an excerpt adds: the uppermost ancestor, or the copy itself. -/
def Excerpt.head (x : Excerpt) : Branch := x.above.headD x.copy

/-- A branch with its top marked. -/
def marked (o : Operation) (b : Branch) : Branch := .mk b.id (b.element.mark o) b.children

/-- The copy that an edit needs of a branch. -/
def copyFor (o : Operation) (b : Branch) : Branch :=
  marked o (if o = .delete then b.keysOnly else b)

end Edit

namespace Edit

/-- What is taken over of a listed node. -/
def excerptOf (o : Operation) (l : Listed) : Excerpt := ⟨l.above, (copyFor o l.node).bare⟩

/-- Taking over nodes of the branch `top` one after the other, each below the same root. Without a
root, the first one makes one: the top with its keys. -/
inductive Grown (top : Branch) : List Excerpt → Option Branch → Option Branch → Prop where
  /-- Nothing is taken over. -/
  | nil {root} : Grown top [] root root
  /-- The first node, then the others. -/
  | cons {x xs root ts root'}
    (hroot : top.entry.matchesEntry (root.getD top.keysOnly.bare).entry = true)
    (hx : x.Placed (root.getD top.keysOnly.bare).children ts)
    (hxs : Grown top xs (some (.mk 0 (root.getD top.keysOnly.bare).element ts)) root') :
    Grown top (x :: xs) root root'

end Edit

namespace Tree

open Build Edit Branch

variable {t src : Tree}

/-- The slots on a way down are the way from the topmost ancestor. -/
theorem Forest.ancestry_of_leads (h : t.Forest) {id : Nat} {above : List Branch} {node : Branch}
    (hl : Leads (t.branch id).children above node) :
    t.ancestry node.id = t.ancestry id ++ above.map Branch.id ++ [node.id] ∧
      (∀ x ∈ above, x = t.branch x.id) ∧ node = t.branch node.id := by
  have hstep : ∀ {id : Nat} {x : Branch}, x ∈ (t.branch id).children →
      x = t.branch x.id ∧ t.ancestry x.id = t.ancestry id ++ [x.id] := by
    intro id x hx
    rw [h.branch_eq, Branch.children] at hx
    obtain ⟨c, hc, rfl⟩ := List.mem_map.1 hx
    have hid : (t.branch c).id = c := by rw [h.branch_eq, Branch.id]
    rw [hid]
    refine ⟨rfl, ?_⟩
    unfold ancestry
    rw [h.upward_eq, h.mem_children_iff.1 hc, Option.elim_some, List.reverse_cons]
  induction above generalizing id with
  | nil =>
    obtain ⟨hnode, hup⟩ := hstep hl
    exact ⟨by rw [hup, List.map_nil, List.append_nil], by simp, hnode⟩
  | cons x above ih =>
    obtain ⟨hx, hl⟩ := hl
    obtain ⟨hxb, hup⟩ := hstep hx
    rw [hxb] at hl
    obtain ⟨hnode, habove, hbranch⟩ := ih hl
    refine ⟨by rw [hnode, hup]; simp, ?_, hbranch⟩
    intro y hy
    rcases List.mem_cons.1 hy with rfl | hy
    · exact hxb
    · exact habove y hy

/-! ## Trees follow -/

/-- The copy that an edit needs is a copy with its mark. -/
theorem ensures_addMarkedCopy (h : t.Forest) (id : Nat) (o : Operation) :
    Ensures (src.addMarkedCopy id o) t (fun copy t' => t.Copied (copyFor o (src.branch id)) copy t')
      fun _ => False := by
  unfold addMarkedCopy
  refine ensures_bind.2 (ensures_change.2 (ensures_bind.2 (ensures_modifyElement.2 ?_)))
  exact ensures_pure.2 ((h.copied (src.branchFor id o)).modifyElement fun e => e.mark o)

/-- The child that is the same node as one of the source is the first whose entry matches. -/
theorem sameChild?_eq (src t : Tree) (id parent : Nat) :
    src.sameChild? id t parent =
      (t.children parent).find? fun c => (src.entry id).matchesEntry (t.entry c) := rfl

/-- Going down along the ancestors and putting the copy there does what placing it says. -/
theorem ensures_descend (hs : src.Forest) (h : t.Forest) {above : List Branch} {o : Operation}
    {id parent : Nat} {ts : List Branch} (habove : ∀ x ∈ above, x = src.branch x.id)
    (hp : parent < t.size)
    (hplaced : Placed above (copyFor o (src.branch id)).bare (t.content parent) ts) :
    Ensures (src.descend (above.map Branch.id) parent) t
      (fun place t' => Ensures (do
          let copy ← src.addMarkedCopy id o
          Build.append place copy) t'
        (fun _ t'' => t.Confined parent t'' ∧ t''.content parent = ts) fun _ => False)
      fun _ => False := by
  induction above generalizing t parent ts with
  | nil =>
    cases hplaced
    refine ensures_pure.2 ((ensures_addMarkedCopy h id o).bind fun copy t₁ hcopy => ?_)
    refine (hcopy.ensures_append h hp).mono ?_ fun _ => False.elim
    rintro _ t₂ ⟨hconf, -, hcontent⟩
    exact ⟨hconf, hcontent⟩
  | cons x above ih =>
    have hx := habove x (by simp)
    have hrest : ∀ y ∈ above, y = src.branch y.id := fun y hy => habove y (by simp [hy])
    have hentry : x.entry = src.entry x.id := by
      rw [← hs.entry_bare_branch, ← hx, Branch.entry_bare]
    generalize hcontent : t.content parent = us at hplaced
    refine ensures_bind.2 (ensures_get.2 ?_)
    cases hplaced with
    | found hc hpre hcs =>
      rw [hentry] at hc hpre
      obtain ⟨left, right, y, hsplit, rfl, rfl, rfl, hy⟩ := h.exists_child hcontent hc hpre
      rw [← sameChild?_eq] at hy
      rw [hy]
      rw [h.bare_branch] at hcs
      have hyp := (h.of_split hsplit).1
      refine (ih h hrest (h.child_lt hyp) hcs).mono (fun place t₁ hplace => ?_) fun _ => False.elim
      refine hplace.mono ?_ fun _ => False.elim
      rintro _ t₂ ⟨hconf, hafter⟩
      refine ⟨hconf.of_child h hyp, ?_⟩
      rw [hconf.content_of_child h hsplit, hafter, h.bare_branch]
      rfl
    | made hts hcs =>
      rw [hentry] at hts
      have hnone := h.find?_children_eq_none fun d hd => hts d (hcontent ▸ hd)
      rw [← sameChild?_eq] at hnone
      rw [hnone, ← hx]
      refine ensures_bind.2 (ensures_change.2 (ensures_bind.2 ?_))
      refine ((h.copied x.keysOnly).ensures_append h hp).mono ?_ fun _ => False.elim
      rintro _ t₁ ⟨hconf, hchildren, hafter⟩
      have h₁ := hconf.forest
      have hc : (t.addCopy x.keysOnly).2 ∈ t₁.children parent := by rw [hchildren]; simp
      have hsum : t₁.content parent = (t.children parent).map (fun d => (t₁.branch d).bare) ++
          [(t₁.branch (t.addCopy x.keysOnly).2).bare] := by
        rw [content, hchildren, List.map_append]
        rfl
      obtain ⟨hold, hnew⟩ := List.append_inj' (hafter.symm.trans hsum) rfl
      have hbranch := (List.cons.inj hnew).1
      rw [h₁.bare_branch] at hbranch
      have hbelow : t₁.content (t.addCopy x.keysOnly).2 = x.keysOnly.bare.children := by
        rw [hbranch, Branch.children]
      have helement : t₁.element (t.addCopy x.keysOnly).2 = x.element := by
        have htop : x.keysOnly.bare.element = x.element := by
          cases x
          rw [Branch.element_bare]
          rfl
        rw [← htop, hbranch, Branch.element]
      refine (ih h₁ hrest (h₁.child_lt hc) (hbelow ▸ hcs)).mono (fun place t₂ hplace => ?_)
        fun _ => False.elim
      refine hplace.mono ?_ fun _ => False.elim
      rintro _ t₃ ⟨hconf', hafter'⟩
      refine ⟨hconf.trans h (hconf'.of_child h₁ hc), ?_⟩
      rw [hconf'.content_of_child h₁ hchildren, hafter', List.map_nil, ← hold, hcontent, helement]

section ExcerptInto

variable {id top : NodeId} {o : Operation} {done : NodeId → Tree → Prop} {failed : Tree → Prop}

/-- Without a root, a node that has nothing above it is copied. -/
theorem excerptInto_alone (halone : (src.ancestry id).tail = []) :
    src.excerptInto id o none = src.addMarkedCopy id o := by
  unfold excerptInto
  rw [halone]
  rfl

/-- A root that is another node than the topmost ancestor is refused. -/
theorem ensures_excerptInto_different {r : NodeId}
    (hdiff : src.compare (src.topOf id) t r = .different) :
    Ensures (src.excerptInto id o (some r)) t done failed ↔ failed t := by
  unfold excerptInto
  rw [if_neg (by simp)]
  refine ensures_bind.trans (ensures_pure.trans (ensures_bind.trans (ensures_get.trans ?_)))
  rw [if_pos hdiff]
  exact ensures_throw

/-- A node goes below a root that is the same node as its topmost ancestor. -/
theorem ensures_excerptInto_some {r : NodeId} (htop : src.topOf id = top)
    (hsame : (src.entry top).matchesEntry (t.entry r) = true) :
    Ensures (src.excerptInto id o (some r)) t done failed ↔
      Ensures (src.excerptBelow (src.ancestry id).tail o r) t done failed := by
  have hcompare : src.compare top t r ≠ .different := bne_iff_ne.1 hsame
  unfold excerptInto
  rw [if_neg (by simp), htop]
  refine ensures_bind.trans (ensures_pure.trans (ensures_bind.trans (ensures_get.trans ?_)))
  rw [if_neg hcompare]

/-- Without a root, a node goes below a copy of its topmost ancestor with the keys, if that copy is
the same node. -/
theorem ensures_excerptInto_none (htop : src.topOf id = top) (hbelow : (src.ancestry id).tail ≠ [])
    (hsame : (src.entry top).matchesEntry ((t.addCopy (src.branch top).keysOnly).1.entry
      (t.addCopy (src.branch top).keysOnly).2) = true) :
    Ensures (src.excerptInto id o none) t done failed ↔
      Ensures (src.excerptBelow (src.ancestry id).tail o (t.addCopy (src.branch top).keysOnly).2)
        (t.addCopy (src.branch top).keysOnly).1 done failed := by
  have hcompare : src.compare top (t.addCopy (src.branch top).keysOnly).1
      (t.addCopy (src.branch top).keysOnly).2 ≠ .different := bne_iff_ne.1 hsame
  unfold excerptInto
  rw [if_neg (by simpa using hbelow), htop]
  refine ensures_bind.trans (ensures_change.trans (ensures_bind.trans (ensures_get.trans ?_)))
  rw [if_neg hcompare]

end ExcerptInto

/-- The root of an edit that is being made, as a node and as a branch. -/
def Rooted (t : Tree) (root : Option NodeId) (b : Option Branch) : Prop :=
  (∀ r ∈ root, r < t.size) ∧ b = root.map fun r => (t.branch r).bare

/-- Putting a copy below a root does what placing it says. -/
theorem ensures_excerptBelow (hs : src.Forest) (h : t.Forest) {above : List Branch} {o : Operation}
    {id root : Nat} {ts : List Branch} (habove : ∀ x ∈ above, x = src.branch x.id)
    (hr : root < t.size)
    (hplaced : Placed above (copyFor o (src.branch id)).bare (t.content root) ts) :
    Ensures (src.excerptBelow (above.map Branch.id ++ [id]) o root) t
      (fun r t' => t'.Forest ∧ t'.Rooted (some r) (some (.mk 0 (t.element root) ts)))
      fun _ => False := by
  unfold excerptBelow
  simp only [List.getLast?_append, List.getLast?_singleton, Option.some_or, List.dropLast_concat]
  refine (ensures_descend hs h habove hr hplaced).bind fun place t₁ hplace => ?_
  refine ensures_bind.2 ((ensures_bind.1 hplace).mono (fun copy t₂ hcopy => ?_) fun _ => False.elim)
  refine ensures_bind.2 (hcopy.mono (fun _ t₃ ⟨hconf, hcontent⟩ => ?_) fun _ => False.elim)
  refine ensures_pure.2 ⟨hconf.forest, by simpa using hconf.lt hr, ?_⟩
  rw [Option.map_some, hconf.forest.bare_branch, hconf.element_top, hcontent]

/-- Taking a node over does what placing its excerpt says. -/
theorem ensures_excerptInto (hs : src.Forest) (h : t.Forest) {top : Nat} {o : Operation}
    {l : Listed} {root : Option NodeId} {b : Option Branch} {ts : List Branch}
    (htop : src.parent? top = none) (hl : Leads (src.branch top).children l.above l.node)
    (hb : t.Rooted root b)
    (hroot : (src.branch top).entry.matchesEntry
      (b.getD (src.branch top).keysOnly.bare).entry = true)
    (hplaced : (excerptOf o l).Placed (b.getD (src.branch top).keysOnly.bare).children ts) :
    Ensures (src.excerptInto l.node.id o root) t
      (fun r t' => t'.Forest ∧ t'.Rooted (some r)
        (some (.mk 0 (b.getD (src.branch top).keysOnly.bare).element ts)))
      fun _ => False := by
  obtain ⟨hancestry, habove, hnode⟩ := hs.ancestry_of_leads hl
  have hline : src.ancestry top = [top] := by rw [ancestry, hs.upward_eq, htop]; rfl
  rw [hline] at hancestry
  have htopOf : src.topOf l.node.id = top := by
    have hup : src.upward l.node.id = (src.ancestry l.node.id).reverse := by
      rw [ancestry, List.reverse_reverse]
    rw [topOf, hup, hancestry, List.getLastD_eq_getLast?, List.getLast?_reverse]
    rfl
  have htail : (src.ancestry l.node.id).tail = l.above.map Branch.id ++ [l.node.id] := by
    rw [hancestry]; rfl
  -- from the root on, whether it was there or was made
  have hbelow : ∀ (r : Nat) (t₁ : Tree), t₁.Forest → r < t₁.size →
      (t₁.branch r).bare = b.getD (src.branch top).keysOnly.bare →
      (src.entry top).matchesEntry (t₁.entry r) = true ∧
        Ensures (src.excerptBelow (src.ancestry l.node.id).tail o r) t₁
          (fun r t' => t'.Forest ∧ t'.Rooted (some r)
            (some (.mk 0 (b.getD (src.branch top).keysOnly.bare).element ts))) fun _ => False := by
    intro r t₁ h₁ hr hbranch
    refine ⟨?_, ?_⟩
    · rw [← hbranch, h₁.entry_bare_branch, ← Branch.entry_bare, hs.entry_bare_branch] at hroot
      exact hroot
    · unfold Excerpt.Placed excerptOf at hplaced
      rw [hnode] at hplaced
      rw [← hbranch, h₁.bare_branch] at hplaced ⊢
      rw [htail]
      exact ensures_excerptBelow hs h₁ habove hr hplaced
  obtain ⟨hlt, rfl⟩ := hb
  cases root with
  | none =>
    obtain ⟨hsame, hdone⟩ := hbelow _ _ (h.addCopy _) (lt_size_addCopy _) (h.bare_branch_addCopy _)
    exact (ensures_excerptInto_none htopOf (by simp [htail]) hsame).2 hdone
  | some r =>
    obtain ⟨hsame, hdone⟩ := hbelow r t h (hlt r rfl) rfl
    exact (ensures_excerptInto_some htopOf hsame).2 hdone

/-- Taking nodes over one after the other does what placing their excerpts says. -/
theorem ensures_excerptAll (hs : src.Forest) (h : t.Forest) {top : Nat} {o : Operation}
    {ls : List Listed} {root : Option NodeId} {b b' : Option Branch}
    (htop : src.parent? top = none)
    (hls : ∀ l ∈ ls, Leads (src.branch top).children l.above l.node)
    (hb : t.Rooted root b)
    (hgrown : Grown (src.branch top) (ls.map (excerptOf o)) b b') :
    Ensures (src.excerptAll o (ls.map fun l => l.node.id) root) t
      (fun root' t' => t'.Forest ∧ t'.Rooted root' b') fun _ => False := by
  induction ls generalizing t root b with
  | nil =>
    cases hgrown
    exact ensures_pure.2 ⟨h, hb⟩
  | cons l ls ih =>
    cases hgrown with
    | cons hroot hx hxs =>
      refine (ensures_excerptInto hs h htop (hls l (by simp)) hb hroot hx).bind ?_
      rintro r t₁ ⟨h₁, hb₁⟩
      exact ih h₁ (fun l hl => hls l (by simp [hl])) hb₁ hxs

end Tree

end Netconf
