import Netconf.Proofs.Edit.Places
import Netconf.Proofs.Tree.Origins
import Netconf.Proofs.Tree.Pairings
import Netconf.Proofs.Tree.Siblings

/-!
# Outlines of a tree

An edit into which nodes of a tree are taken over is an *outline* of the tree: each of its slots
stands for a node of the source (`Stands`), no two for the same one, and the slots stand below each
other as the nodes do (`Outline.above`, `Outline.injective`). An outline starts as a copy of the top
and grows by portions: a listed node with its mark, or a node above one with its keys
(`Outline.start`, `Outline.attach`).
-/

namespace Netconf.Tree

open Build Edit Branch

variable {src t t' : Tree} {top r p a x : NodeId} {ls : List (NodeId × Operation)}
  {done : List NodeId} {f g : NodeId → NodeId}

/-- Nodes of a tree that are listed with operations: below `top`, with nothing below them in common,
and not among the keys. The tree has no marks, and its siblings are told apart. -/
structure Selection (src : Tree) (top : NodeId) (ls : List (NodeId × Operation)) : Prop where
  /-- The links are those of a forest. -/
  forest : src.Forest
  /-- The top of the tree has no parent. -/
  alone : src.parent? top = none
  /-- Nothing is marked. -/
  unmarked : (src.branch top).Unmarked
  /-- Siblings have different names, or are entries of a list with different keys. -/
  toldApart : (src.branch top).All ToldApart
  /-- No listed node is another one or above it. -/
  scattered : src.Scattered top (ls.map Prod.fst)
  /-- No listed node is a key or below one. -/
  notKey : ∀ l ∈ ls, ∀ x : NodeId, src.Above x l.1 → src.isKey x = false

/-- A node with a listed node below it. -/
def Leading (src : Tree) (ls : List (NodeId × Operation)) (x : NodeId) : Prop :=
  ∃ l ∈ ls, x ≠ l.1 ∧ src.Above x l.1

/-- The children of a node that are keys. -/
def keyChildren (src : Tree) (x : NodeId) : List NodeId :=
  (src.children x).filter fun c => (src.element x).hasKey (src.name c)

/-- What holds of all nodes of a branch holds at each of its slots. -/
theorem Forest.all_at (h : src.Forest) {P : Branch → Prop} (hall : (src.branch top).All P)
    (hx : src.Above top x) : P (src.branch x) := by
  have hallx : (src.branch x).All P := by
    induction hx with
    | refl => exact hall
    | @step p x hp _ ih =>
      refine (all_iff.1 ih).2 _ ?_
      rw [h.branch_eq p, Branch.children]
      exact List.mem_map_of_mem (h.mem_children_iff.2 hp)
  exact (all_iff.1 hallx).1

/-! ## Slots and their origins -/

/-- The slot `x` stands for the node `f x` of the source. -/
structure Stands (src : Tree) (ls : List (NodeId × Operation)) (f : NodeId → NodeId) (t : Tree)
    (x : NodeId) : Prop where
  /-- A listed node has its mark. -/
  marked : ∀ o, (f x, o) ∈ ls → t.element x = (src.element (f x)).mark o
  /-- Other nodes are as they are in the source. -/
  element : (∀ o, (f x, o) ∉ ls) → t.element x = src.element (f x)
  /-- The children stand for children. -/
  children : ∀ c ∈ t.children x, src.parent? (f c) = some (f x)
  /-- No two of them stand for the same one. -/
  nodup : ((t.children x).map f).Nodup
  /-- The keys are there, in order. -/
  keys : ((t.children x).map f).filter (fun c => (src.element (f x)).hasKey (src.name c)) =
    src.keyChildren (f x)
  /-- The node is needed: it leads to a listed node, is below one, or belongs to a key. -/
  within : src.Leading ls (f x) ∨ (∃ l ∈ ls, src.Above l.1 (f x)) ∨
    ∃ k : NodeId, src.isKey k = true ∧ src.Above k (f x)

/-- A slot stands for the same node when neither it nor the origins have changed. -/
theorem Stands.congr (h : Stands src ls f t x) (helement : t'.element x = t.element x)
    (hchildren : t'.children x = t.children x) (hx : g x = f x)
    (hc : ∀ c ∈ t.children x, g c = f c) : Stands src ls g t' x := by
  obtain ⟨hmarked, hplain, hsub, hnodup, hkeys, hwithin⟩ := h
  have hmap : (t.children x).map g = (t.children x).map f := List.map_congr_left hc
  refine ⟨?_, ?_, ?_, ?_, ?_, ?_⟩
  · rw [hx, helement]; exact hmarked
  · rw [hx, helement]; exact hplain
  · intro c hcx
    rw [hchildren] at hcx
    rw [hc c hcx, hx]
    exact hsub c hcx
  · rw [hchildren, hmap]; exact hnodup
  · rw [hchildren, hmap, hx]; exact hkeys
  · rw [hx]; exact hwithin

/-- A slot with one more child stands for the same node, when the child stands for another child
that is no key. -/
theorem Stands.append {c : NodeId} (h : Stands src ls f t p)
    (helement : t'.element p = t.element p) (hchildren : t'.children p = t.children p ++ [c])
    (hp : g p = f p) (hold : ∀ d ∈ t.children p, g d = f d)
    (hparent : src.parent? (g c) = some (f p)) (hkey : src.isKey (g c) = false)
    (hnew : ∀ d ∈ t.children p, f d ≠ g c) : Stands src ls g t' p := by
  obtain ⟨hmarked, hplain, hsub, hnodup, hkeys, hwithin⟩ := h
  have hmap : (t'.children p).map g = (t.children p).map f ++ [g c] := by
    rw [hchildren, List.map_append, List.map_congr_left hold, List.map_singleton]
  have hnokey : (src.element (f p)).hasKey (src.name (g c)) = false := by
    unfold isKey at hkey
    rwa [hparent, Option.any_some] at hkey
  refine ⟨?_, ?_, fun d hd => ?_, ?_, ?_, ?_⟩
  · rw [hp, helement]; exact hmarked
  · rw [hp, helement]; exact hplain
  · rw [hchildren] at hd
    rw [hp]
    rcases List.mem_append.1 hd with hd | hd
    · rw [hold d hd]
      exact hsub d hd
    · rw [List.mem_singleton.1 hd]
      exact hparent
  · rw [hmap]
    refine List.nodup_append.2 ⟨hnodup, List.nodup_singleton _, fun y hy z hz => ?_⟩
    obtain ⟨d, hd, rfl⟩ := List.mem_map.1 hy
    rw [List.mem_singleton.1 hz]
    exact hnew d hd
  · rw [hmap, hp, List.filter_append, List.filter_cons_of_neg (by simp [hnokey]), List.filter_nil,
      List.append_nil]
    exact hkeys
  · rw [hp]; exact hwithin

/-- What a slot stands for is like it. -/
theorem Stands.alike (h : Stands src ls f t x) :
    (src.element (f x)).alike (t.element x) = true := by
  by_cases hm : ∃ o, (f x, o) ∈ ls
  · obtain ⟨o, ho⟩ := hm
    rw [h.marked o ho]
    exact alike_mark _ o
  · rw [h.element fun o ho => hm ⟨o, ho⟩]
    exact Element.alike_refl _

/-- What a slot stands for has its kind. -/
theorem Stands.kind (h : Stands src ls f t x) : (t.element x).kind = (src.element (f x)).kind := by
  by_cases hm : ∃ o, (f x, o) ∈ ls
  · obtain ⟨o, ho⟩ := hm
    rw [h.marked o ho, kind_mark]
  · rw [h.element fun o ho => hm ⟨o, ho⟩]

/-! ## Portions -/

/-- What is taken over of a node at once: the node, carrying `e`, with the children `cs` and all
that is below these. -/
structure Portion (src : Tree) (ls : List (NodeId × Operation)) (a : NodeId) (e : Element)
    (cs : List NodeId) : Prop where
  /-- The children are children of the node, in order. -/
  children : cs.Sublist (src.children a)
  /-- The keys are among them. -/
  keys : cs.filter (fun c => (src.element a).hasKey (src.name c)) = src.keyChildren a
  /-- A listed node has its mark. -/
  marked : ∀ o, (a, o) ∈ ls → e = (src.element a).mark o
  /-- Another node is as it is. -/
  element : (∀ o, (a, o) ∉ ls) → e = src.element a
  /-- The node is listed or leads to a listed node. -/
  within : src.Leading ls a ∨ ∃ l ∈ ls, l.1 = a
  /-- No listed node is among what is below it. -/
  below : ∀ c ∈ cs, ∀ l ∈ ls, ¬ src.Above c l.1
  /-- What is not listed brings its keys only. -/
  inner : ∀ c ∈ cs, src.isKey c = true ∨ ∃ l ∈ ls, l.1 = a

/-- Listed nodes are the same when one is above the other. -/
theorem Selection.eq_of_above (h : src.Selection top ls) {l m : NodeId × Operation} (hl : l ∈ ls)
    (hm : m ∈ ls) (habove : src.Above l.1 m.1) : l = m := by
  by_contra hne
  have hapart := h.scattered.apart
  rw [List.pairwise_map] at hapart
  have hsymm : Std.Symm fun x y : NodeId × Operation =>
      ¬ src.Above x.1 y.1 ∧ ¬ src.Above y.1 x.1 := ⟨fun _ _ hxy => ⟨hxy.2, hxy.1⟩⟩
  exact (hapart.forall hl hm hne).1 habove

/-- A listed node is below the top. -/
theorem Selection.above_top (h : src.Selection top ls) {l : NodeId × Operation} (hl : l ∈ ls) :
    src.Above top l.1 :=
  h.scattered.below l.1 (List.mem_map_of_mem hl)

/-- A listed node other than the top has a parent. -/
theorem Selection.exists_parent (h : src.Selection top ls) {l : NodeId × Operation} (hl : l ∈ ls)
    (hne : l.1 ≠ top) : ∃ p, src.parent? l.1 = some p := by
  cases h.above_top hl with
  | refl => exact absurd rfl hne
  | step hp => exact ⟨_, hp⟩

/-- A node that leads to a listed node is not listed. -/
theorem Selection.not_listed (h : src.Selection top ls) (ha : src.Leading ls a) (o : Operation) :
    (a, o) ∉ ls := by
  obtain ⟨l, hl, hne, habove⟩ := ha
  intro hm
  exact hne (congrArg Prod.fst (h.eq_of_above hm hl habove))

/-- A node that leads to a listed node is no key. -/
theorem Selection.isKey_of_leading (h : src.Selection top ls) (ha : src.Leading ls a) :
    src.isKey a = false := by
  obtain ⟨l, hl, -, habove⟩ := ha
  exact h.notKey l hl a habove

/-- A key is a child that its parent has as a key. -/
theorem isKey_of_mem_keyChildren (hs : src.Forest) {c : NodeId} (hc : c ∈ src.keyChildren a) :
    src.isKey c = true := by
  obtain ⟨hc, hkey⟩ := List.mem_filter.1 hc
  unfold isKey
  rw [hs.mem_children_iff.1 hc, Option.any_some]
  exact hkey

/-- A node that leads to a listed node is taken over with its keys. -/
theorem Selection.portion_keys (h : src.Selection top ls) (ha : src.Leading ls a) :
    src.Portion ls a (src.element a) (src.keyChildren a) where
  children := List.filter_sublist
  keys := by
    unfold keyChildren
    rw [List.filter_filter]
    simp
  marked o ho := absurd ho (h.not_listed ha o)
  element _ := rfl
  within := .inl ha
  below c hc l hl habove := by
    have hkey := isKey_of_mem_keyChildren h.forest hc
    rw [h.notKey l hl c habove] at hkey
    cases hkey
  inner c hc := .inl (isKey_of_mem_keyChildren h.forest hc)

/-- The children with which a listed node is taken over. -/
def taken (src : Tree) (a : NodeId) (o : Operation) : List NodeId :=
  if o = .delete then src.keyChildren a else src.children a

/-- The branch that is taken over of a listed node is the node with these children. -/
theorem Forest.markedBranch_eq (hs : src.Forest) (a : NodeId) (o : Operation) :
    src.markedBranch a o =
      .mk a ((src.element a).mark o) ((src.taken a o).map src.branch) := by
  unfold markedBranch marked taken keyChildren
  split
  · rfl
  · rw [hs.branch_eq a]
    rfl

/-- A listed node is taken over with its mark. -/
theorem Selection.portion_marked (h : src.Selection top ls) {o : Operation} (ha : (a, o) ∈ ls) :
    src.Portion ls a ((src.element a).mark o) (src.taken a o) where
  children := by
    unfold taken
    split
    · exact List.filter_sublist
    · exact List.Sublist.refl _
  keys := by
    unfold taken keyChildren
    split
    · rw [List.filter_filter]
      simp
    · rfl
  marked o' ho' := by
    cases h.eq_of_above ha ho' .refl
    rfl
  element hnone := absurd ha (hnone o)
  within := .inr ⟨_, ha, rfl⟩
  below c hc l hl habove := by
    have hca : c ∈ src.children a := by
      unfold taken at hc
      split at hc
      · exact List.mem_of_mem_filter hc
      · exact hc
    have hp := h.forest.mem_children_iff.1 hca
    obtain rfl := h.eq_of_above ha hl (Above.trans (.step hp .refl) habove)
    exact h.forest.not_above_parent hp habove
  inner _ _ := .inr ⟨_, ha, rfl⟩

/-- The slots of a portion that was copied stand for its nodes. -/
theorem Selection.exists_stands (h : src.Selection top ls) {e : Element} {cs : List NodeId}
    (hp : src.Portion ls a e cs) (ht : t.Forest) {copy : NodeId}
    (hb : (t.branch copy).bare = (Branch.mk a e (cs.map src.branch)).bare) :
    ∃ f, f copy = a ∧ (∀ x : NodeId, t.Above copy x → Stands src ls f t x) ∧
      ∀ x : NodeId, t.Above copy x → ∀ l ∈ ls, f x = l.1 → x = copy := by
  have hs := h.forest
  rw [ht.bare_branch, Branch.bare_mk, Branch.mk.injEq, List.map_map] at hb
  obtain ⟨-, helement, hcontent⟩ := hb
  obtain ⟨g, hg, htraced⟩ := ht.exists_traced_of (List.Subset.refl _) (ht.nodup_children copy)
    (fun c _ y heq => ht.exists_traced hs heq) hcontent
  have hne : ∀ c ∈ t.children copy, ∀ z : NodeId, t.Above c z → z ≠ copy := by
    rintro c hc z hz rfl
    exact ht.not_above_parent (ht.mem_children_iff.1 hc) hz
  have htraced' : ∀ c ∈ t.children copy, t.Traced src (Function.update g copy a) c := fun c hc =>
    (htraced c hc).congr ht fun z hz => Function.update_of_ne (hne c hc z hz) a g
  have hchildren : (t.children copy).map (Function.update g copy a) = cs :=
    (List.map_congr_left fun c hc => Function.update_of_ne (hne c hc c .refl) a g).trans hg
  have htop : Function.update g copy a copy = a := Function.update_self copy a g
  generalize Function.update g copy a = f at htraced' hchildren htop
  -- what is below the top is below one of its children, and stands for what is below one of `cs`
  have hunlisted : ∀ c ∈ t.children copy, ∀ z : NodeId, t.Above c z → ∀ l ∈ ls, f z ≠ l.1 := by
    intro c hc z hz l hl heq
    have habove := (htraced' c hc).above ht hs hz
    rw [heq] at habove
    exact hp.below (f c) (hchildren ▸ List.mem_map_of_mem hc) l hl habove
  refine ⟨f, htop, fun x hx => ?_, fun x hx l hl heq => ?_⟩
  · rcases ht.above_iff.1 hx with rfl | ⟨c, hc, hcx⟩
    · refine ⟨?_, ?_, ?_, ?_, ?_, ?_⟩
      · rw [htop, helement]; exact hp.marked
      · rw [htop, helement]; exact hp.element
      · intro c hc
        rw [htop, ← hs.mem_children_iff]
        exact hp.children.subset (hchildren ▸ List.mem_map_of_mem hc)
      · rw [hchildren]
        exact hp.children.nodup (hs.nodup_children a)
      · rw [hchildren, htop]
        exact hp.keys
      · rw [htop]
        exact hp.within.imp_right fun ⟨l, hl, hla⟩ => .inl ⟨l, hl, hla ▸ .refl⟩
    · obtain ⟨hx, hxchildren⟩ := htraced' c hc x hcx
      have hcs : f c ∈ cs := hchildren ▸ List.mem_map_of_mem hc
      have habove := (htraced' c hc).above ht hs hcx
      refine ⟨fun o ho => absurd rfl (hunlisted c hc x hcx _ ho), fun _ => hx, fun d hd => ?_, ?_, ?_,
        ?_⟩
      · rw [← hs.mem_children_iff, ← hxchildren]
        exact List.mem_map_of_mem hd
      · rw [hxchildren]
        exact hs.nodup_children _
      · rw [hxchildren]
        rfl
      · rcases hp.inner (f c) hcs with hkey | ⟨l, hl, rfl⟩
        · exact .inr (.inr ⟨f c, hkey, habove⟩)
        · have hparent := hs.mem_children_iff.1 (hp.children.subset hcs)
          exact .inr (.inl ⟨l, hl, Above.trans (.step hparent .refl) habove⟩)
  · rcases ht.above_iff.1 hx with rfl | ⟨c, hc, hcx⟩
    · rfl
    · exact absurd heq (hunlisted c hc x hcx l hl)

/-! ## Outlines -/

/-- All slots of a tree stand for nodes of the source, the root `r` for `top`. Of the listed nodes,
those in `done` are there. -/
structure Outline (src : Tree) (top : NodeId) (ls : List (NodeId × Operation))
    (done : List NodeId) (r : NodeId) (f : NodeId → NodeId) (t : Tree) : Prop where
  /-- The links are those of a forest. -/
  forest : t.Forest
  /-- The root exists. -/
  root_lt : r < t.size
  /-- It stands for the top. -/
  root : f r = top
  /-- Only the root has no parent. -/
  alone : ∀ x < t.size, t.parent? x = none ↔ x = r
  /-- The slots stand for nodes of the source. -/
  stands : ∀ x < t.size, Stands src ls f t x
  /-- The listed nodes that are there are those that were taken over. -/
  present : ∀ l ∈ ls, (∃ x < t.size, f x = l.1) ↔ l.1 ∈ done

namespace Outline

/-- A slot that is not the root has a parent, which stands for the parent. -/
theorem parent? (h : Outline src top ls done r f t) (hx : x < t.size) (hne : x ≠ r) :
    ∃ p, t.parent? x = some p ∧ src.parent? (f x) = some (f p) := by
  cases hp : t.parent? x with
  | none => exact absurd ((h.alone x hx).1 hp) hne
  | some p =>
    have hstands := h.stands p (h.forest.parent_lt hp)
    exact ⟨p, rfl, hstands.children x (h.forest.mem_children_iff.2 hp)⟩

/-- All slots are below the root. -/
theorem above_root (h : Outline src top ls done r f t) (hx : x < t.size) : t.Above r x := by
  induction x using h.forest.acyclic.induction with
  | _ x ih =>
    by_cases hne : x = r
    · exact hne ▸ .refl
    · obtain ⟨p, hp, -⟩ := h.parent? hx hne
      exact .step hp (ih p hp (h.forest.parent_lt hp))

/-- The slots stand below each other as the nodes do. -/
theorem above (h : Outline src top ls done r f t) (hx : x < t.size) {c : NodeId}
    (hc : t.Above c x) : src.Above (f c) (f x) := by
  induction hc with
  | refl => exact .refl
  | @step p x hp _ ih =>
    have hlt := h.forest.parent_lt hp
    have hparent := (h.stands p hlt).children x (h.forest.mem_children_iff.2 hp)
    exact .step hparent (ih hlt)

/-- The slots stand for nodes from the top down. -/
theorem above_top (h : Outline src top ls done r f t) (hx : x < t.size) : src.Above top (f x) := by
  rw [← h.root]
  exact h.above hx (h.above_root hx)

/-- What is above a node that is there is there, above its slot. -/
theorem exists_above (h : Outline src top ls done r f t) (hsel : src.Selection top ls)
    (hx : x < t.size) (ha : src.Above a (f x)) : ∃ c, t.Above c x ∧ f c = a := by
  generalize hy : f x = y at ha
  induction ha generalizing x with
  | refl => exact ⟨x, .refl, hy⟩
  | @step q y hq _ ih =>
    have hne : x ≠ r := by
      rintro rfl
      rw [← hy, h.root, hsel.alone] at hq
      cases hq
    obtain ⟨p, hp, hparent⟩ := h.parent? hx hne
    rw [hy, hq] at hparent
    obtain ⟨c, hc, hca⟩ := ih (h.forest.parent_lt hp) (Option.some.inj hparent).symm
    exact ⟨c, .step hp hc, hca⟩

/-- No two slots stand for one node. -/
theorem injective (h : Outline src top ls done r f t) (hsel : src.Selection top ls) {y : NodeId}
    (hx : x < t.size) (hy : y < t.size) (heq : f x = f y) : x = y := by
  -- a slot for the top is the root, as the top has no parent
  have hroot : ∀ z < t.size, f z = top → z = r := by
    intro z hz hztop
    by_contra hne
    obtain ⟨p, -, hparent⟩ := h.parent? hz hne
    rw [hztop, hsel.alone] at hparent
    cases hparent
  induction h.above_root hx generalizing y with
  | refl => exact (hroot y hy (heq.symm.trans h.root)).symm
  | @step p x hp _ ih =>
    have hlt := h.forest.parent_lt hp
    have hxp := h.forest.mem_children_iff.2 hp
    have hne : y ≠ r := by
      rintro rfl
      have := hroot x hx (heq.trans h.root)
      subst this
      exact absurd ((h.alone x hx).2 rfl) (by rw [hp]; simp)
    obtain ⟨q, hq, hparent⟩ := h.parent? hy hne
    have hfx := (h.stands p hlt).children x hxp
    rw [heq, hparent] at hfx
    obtain rfl := ih hlt (h.forest.parent_lt hq) (Option.some.inj hfx).symm
    exact List.inj_on_of_nodup_map (h.stands p hlt).nodup hxp (h.forest.mem_children_iff.2 hq) heq

/-- A node that is not listed does not count among those that were taken over. -/
theorem of_cons (h : Outline src top ls (a :: done) r f t) (ha : ∀ o, (a, o) ∉ ls) :
    Outline src top ls done r f t :=
  { h with
    present := fun l hl => (h.present l hl).trans <| by
      rw [List.mem_cons, or_iff_right]
      rintro rfl
      exact ha l.2 hl }

/-- The slots of a single portion are an outline. -/
theorem start {defaults : Registry} (hsel : src.Selection top ls) {e : Element} {cs : List NodeId}
    (hp : src.Portion ls top e cs) (hlaid : (Tree.empty defaults).Laid
      (.mk top e (cs.map src.branch)) r t) : ∃ f, Outline src top ls [top] r f t := by
  have ht := hlaid.sprouts.forest
  obtain ⟨f, hf, hstands, honly⟩ := hsel.exists_stands hp ht hlaid.copied.branch
  have habove : ∀ x < t.size, t.Above r x := fun x hx => hlaid.above x (Nat.zero_le x) hx
  refine ⟨f, ht, hlaid.copied.lt_size, hf, fun x hx => ⟨fun hnone => ?_, ?_⟩,
    fun x hx => hstands x (habove x hx), fun l hl => ⟨?_, fun hmem => ?_⟩⟩
  · cases habove x hx with
    | refl => rfl
    | step hq => rw [hq] at hnone; cases hnone
  · rintro rfl
    exact hlaid.copied.alone
  · rintro ⟨x, hx, heq⟩
    obtain rfl := honly x (habove x hx) l hl heq
    rw [← heq, hf, List.mem_singleton]
  · exact ⟨r, hlaid.copied.lt_size, hf.trans (List.mem_singleton.1 hmem).symm⟩

/-- A portion that is put below the slot of its parent becomes part of the outline. -/
theorem attach {e : Element} {cs : List NodeId} {copy : NodeId}
    (h : Outline src top ls done r f t) (hsel : src.Selection top ls)
    (hportion : src.Portion ls a e cs) (hp : p < t.size)
    (ha : t.Attached (.mk a e (cs.map src.branch)) p copy t')
    (hparent : src.parent? a = some (f p)) (hkey : src.isKey a = false)
    (hnew : ∀ x < t.size, f x ≠ a) :
    ∃ g, Outline src top ls (a :: done) r g t' ∧ g copy = a ∧ ∀ x < t.size, g x = f x := by
  obtain ⟨hs, hcopynew, hcopyparent, hbranch, habove⟩ := ha
  have hcopylt := lt_size_of_parent? hcopyparent
  obtain ⟨f', hf', hstands, honly⟩ := hsel.exists_stands hportion hs.forest hbranch
  -- old slots stand for what they did, and new ones for what was copied into them
  obtain ⟨g, hold, hfresh⟩ : ∃ g : NodeId → NodeId,
      (∀ x < t.size, g x = f x) ∧ ∀ x, t.size ≤ x → g x = f' x :=
    ⟨fun x => if x < t.size then f x else f' x, fun x hx => if_pos hx,
      fun x hx => if_neg (Nat.not_lt.2 hx)⟩
  have hgcopy : g copy = a := (hfresh copy hcopynew).trans hf'
  -- what is below the copy is new
  have hbelow : ∀ x, t'.Above copy x → t.size ≤ x := fun x hx =>
    Nat.not_lt.1 fun hlt => hs.not_above h.forest hcopynew hlt hx
  refine ⟨g, ⟨hs.forest, hs.lt h.root_lt, (hold r h.root_lt).trans h.root, fun x hx => ?_,
    fun x hx => ?_, fun l hl => ?_⟩, hgcopy, hold⟩
  · by_cases hlt : x < t.size
    · rw [hs.parent? x hlt]
      exact h.alone x hlt
    · refine iff_of_false ?_ fun he => hlt (he ▸ h.root_lt)
      cases habove x (Nat.not_lt.1 hlt) hx with
      | refl => rw [hcopyparent]; simp
      | step hq => rw [hq]; simp
  · by_cases hlt : x < t.size
    · by_cases hxp : x = p
      · rw [hxp]
        have hc : ∀ c ∈ t.children p, g c = f c := fun c hc => hold c (h.forest.child_lt hc)
        rw [← hgcopy] at hparent hkey hnew
        refine (h.stands p hp).append (hs.element p hp) ?_ (hold p hp) hc hparent hkey
          fun c hc => hnew c (h.forest.child_lt hc)
        rw [hs.children p hp, only_self]
      · refine (h.stands x hlt).congr (hs.element x hlt) ?_ (hold x hlt) fun c hc =>
          hold c (h.forest.child_lt hc)
        rw [hs.children x hlt, only_of_ne _ hxp, List.append_nil]
    · have hcx := habove x (Nat.not_lt.1 hlt) hx
      refine (hstands x hcx).congr rfl rfl (hfresh x (Nat.not_lt.1 hlt)) fun c hc => ?_
      exact hfresh c (hbelow c (.step (hs.forest.mem_children_iff.1 hc) hcx))
  · rw [List.mem_cons, ← h.present l hl]
    constructor
    · rintro ⟨x, hx, heq⟩
      by_cases hlt : x < t.size
      · exact .inr ⟨x, hlt, (hold x hlt).symm.trans heq⟩
      · rw [hfresh x (Nat.not_lt.1 hlt)] at heq
        obtain rfl := honly x (habove x (Nat.not_lt.1 hlt) hx) l hl heq
        exact .inl (heq.symm.trans hf')
    · rintro (heq | ⟨x, hx, heq⟩)
      · exact ⟨copy, hcopylt, hgcopy.trans heq.symm⟩
      · exact ⟨x, hs.lt hx, (hold x hx).trans heq⟩

end Outline

end Netconf.Tree
