import Netconf.Proofs.Edit.Documents
import Netconf.Proofs.Edit.Outlines

/-!
# Gathering nodes in an edit

When nodes of a tree are taken over one after the other, each finds what the ones before it have
left: a slot is the same node as the one that it stands for and as none of its siblings
(`Outline.sameChild?_cases`). So nothing is made twice, taking over never fails, and what results is
the least that holds all the nodes, whatever their order and their operations
(`Selection.excerptEach_outlines`).
-/

namespace Netconf.Tree

open Build Edit Branch

variable {src t t' : Tree} {top r p a x id : NodeId} {ls : List (NodeId × Operation)}
  {done : List NodeId} {f g : NodeId → NodeId}

/-! ## Finding a node again -/

/-- What a key of a node looks like is told by the first child of its name. -/
theorem keyText?_entry (t : Tree) (x : NodeId) (key : String) : (t.entry x).keyText? key =
    ((t.children x).find? fun c => t.name c == key).map fun c =>
      (t.ns? c, t.name c, wire? (t.value? c)) :=
  Entry.keyText?_of_members rfl key

/-- A child of the name of a key is looked for among the keys. -/
theorem find?_filter_hasKey {e : Element} {key : String} (hkey : key ∈ e.kind.keys)
    (cs : List NodeId) :
    ((cs.filter fun c => e.hasKey (src.name c)).find? fun c => src.name c == key) =
      cs.find? fun c => src.name c == key := by
  rw [List.find?_filter]
  refine List.find?_congr fun c _ => ?_
  cases hname : src.name c == key with
  | false => simp
  | true =>
    have hhas : e.hasKey (src.name c) = true := by
      rw [eq_of_beq hname]
      exact List.contains_iff_mem.2 hkey
    simp [hhas]

/-- The keys of a slot look as those of its node do. -/
theorem Stands.keyText? (h : Stands src ls f t x) (hc : ∀ c ∈ t.children x, Stands src ls f t c)
    {key : String} (hkey : key ∈ (src.element (f x)).kind.keys) :
    (src.entry (f x)).keyText? key = (t.entry x).keyText? key := by
  have hsame : ∀ c ∈ t.children x, t.ns? c = src.ns? (f c) ∧ t.name c = src.name (f c) ∧
      wire? (t.value? c) = wire? (src.value? (f c)) := by
    intro c hcx
    obtain ⟨hname, hns, hvalue⟩ := Element.alike_iff.1 (hc c hcx).alike
    exact ⟨hns.symm, hname.symm, hvalue.symm⟩
  have hfind : (t.children x).find? (fun c => t.name c == key) =
      (t.children x).find? fun c => src.name (f c) == key :=
    List.find?_congr fun c hcx => by rw [(hsame c hcx).2.1]
  -- the first child of the name is a key, and of the keys none is left out
  have hkeys : ((t.children x).map f).find? (fun c => src.name c == key) =
      (src.children (f x)).find? fun c => src.name c == key := by
    rw [← find?_filter_hasKey hkey ((t.children x).map f), h.keys, keyChildren,
      find?_filter_hasKey hkey]
  rw [keyText?_entry, keyText?_entry, hfind, ← hkeys, List.find?_map, Option.map_map]
  simp only [Function.comp_def]
  cases hfirst : (t.children x).find? fun c => src.name (f c) == key with
  | none => rfl
  | some c =>
    obtain ⟨hns, hname, hvalue⟩ := hsame c (List.mem_of_find?_eq_some hfirst)
    rw [Option.map_some, Option.map_some, hns, hname, hvalue]

/-- A slot is the same node as the one it stands for. -/
theorem Stands.matches (h : Stands src ls f t x) (hc : ∀ c ∈ t.children x, Stands src ls f t c) :
    (src.entry (f x)).matchesEntry (t.entry x) = true :=
  Entry.matches_of_alike (Entry.matches_refl (src.entry (f x))) h.alike fun _ hkey =>
    h.keyText? hc hkey

namespace Outline

/-- Every slot is the same node as the one it stands for. -/
theorem matches_origin (h : Outline src top ls done r f t) (hx : x < t.size) :
    (src.entry (f x)).matchesEntry (t.entry x) = true :=
  (h.stands x hx).matches fun c hc => h.stands c (h.forest.child_lt hc)

/-- A child of the source is only the same node as the slot that stands for it, among the children
of the slot of its parent. -/
theorem eq_of_matches (h : Outline src top ls done r f t) (hsel : src.Selection top ls) {c : NodeId}
    (hp : p < t.size) (hid : src.parent? id = some (f p)) (hc : c ∈ t.children p)
    (hmatch : (src.entry id).matchesEntry (t.entry c) = true) : f c = id := by
  have hs := hsel.forest
  have hclt := h.forest.child_lt hc
  have hmem : ∀ y : NodeId, src.parent? y = some (f p) →
      src.branch y ∈ (src.branch (f p)).children := fun y hy => by
    rw [hs.branch_eq (f p), Branch.children]
    exact List.mem_map_of_mem (hs.mem_children_iff.2 hy)
  have htold := hs.all_at hsel.toldApart (h.above_top hp)
  rcases htold.eq_or_distinct (hmem id hid)
    (hmem (f c) ((h.stands p hp).children c hc)) with heq | hdistinct
  · rw [← src.id_branch id, heq, id_branch]
  · -- both are entries of a list, and the slot would be the same node as either of them
    obtain ⟨hname, hns⟩ := Element.sameName_iff.1 (Entry.sameName_of_matches hmatch)
    obtain ⟨hcname, hcns, -⟩ := Element.alike_iff.1 (h.stands c hclt).alike
    have hsame : (src.branch id).element.sameName (src.branch (f c)).element = true := by
      rw [hs.element_branch, hs.element_branch]
      exact Element.sameName_iff.2 ⟨hname.trans hcname.symm, hns.trans hcns.symm⟩
    have hother := (hdistinct hsame).not_matches (x := t.entry c) (by rwa [hs.entry_branch])
    rw [hs.entry_branch, h.matches_origin hclt] at hother
    cases hother

/-- The slot of a node that is there is found among the children of the slot of its parent, and
otherwise none is. -/
theorem sameChild?_cases (h : Outline src top ls done r f t) (hsel : src.Selection top ls)
    (hp : p < t.size) (hid : src.parent? id = some (f p)) :
    (∃ c ∈ t.children p, f c = id ∧ src.sameChild? id t p = some c) ∨
      (∀ x < t.size, f x ≠ id) ∧ src.sameChild? id t p = none := by
  rw [sameChild?_eq]
  cases hfind : (t.children p).find? fun c => (src.entry id).matchesEntry (t.entry c) with
  | some c =>
    have hc := List.mem_of_find?_eq_some hfind
    have hmatch := List.find?_some (p := fun c => (src.entry id).matchesEntry (t.entry c)) hfind
    exact .inl ⟨c, hc, h.eq_of_matches hsel hp hid hc hmatch, rfl⟩
  | none =>
    -- a slot for the node would be a child of `p`, and would have been found there
    refine .inr ⟨?_, rfl⟩
    rintro x hx rfl
    have hne : x ≠ r := by
      rintro rfl
      rw [h.root, hsel.alone] at hid
      cases hid
    obtain ⟨q, hq, hparent⟩ := h.parent? hx hne
    rw [hid] at hparent
    obtain rfl := h.injective hsel hp (h.forest.parent_lt hq) (Option.some.inj hparent)
    have hnone := List.find?_eq_none.1 hfind x (h.forest.mem_children_iff.2 hq)
    exact hnone (h.matches_origin hx)

/-! ## Taking over one node -/

/-- The way down to a node is found or made, and nothing that is listed comes with it. -/
theorem ensures_descend (hsel : src.Selection top ls) {ids : List NodeId}
    (h : Outline src top ls done r f t) (hp : p < t.size) (hway : src.Way (f p :: ids))
    (hids : ∀ id ∈ ids, src.Leading ls id) :
    Ensures (src.descend ids p) t
      (fun place t' => ∃ g, Outline src top ls done r g t' ∧ place < t'.size ∧
        (f p :: ids).getLast? = some (g place)) fun _ => False := by
  induction ids generalizing t p f with
  | nil => exact ensures_pure.2 ⟨f, h, hp, rfl⟩
  | cons id ids ih =>
    obtain ⟨hid, hway⟩ := List.isChain_cons_cons.1 hway
    have hleads := hids id (by simp)
    have hrest : ∀ y ∈ ids, src.Leading ls y := fun y hy => hids y (by simp [hy])
    refine ensures_bind.2 (ensures_get.2 ?_)
    rw [List.getLast?_cons_cons]
    rcases h.sameChild?_cases hsel hp hid with ⟨c, hc, rfl, hfind⟩ | ⟨hnew, hfind⟩
    · rw [hfind]
      exact ih h (h.forest.child_lt hc) hway hrest
    · rw [hfind]
      refine ensures_bind.2 (ensures_change.2 (ensures_bind.2 ?_))
      rw [hsel.forest.keysOnly_branch]
      refine ((h.forest.laid_addCopy (src.keyedBranch id)).ensures_append h.forest hp).mono ?_
        fun _ => False.elim
      intro _ t₁ ha
      obtain ⟨g, hg, hgc, hgold⟩ := h.attach hsel (hsel.portion_keys hleads) hp ha hid
        (hsel.isKey_of_leading hleads) hnew
      rw [← hgc] at hway ⊢
      exact ih (hg.of_cons (hsel.not_listed hleads)) (lt_size_of_parent? ha.parent?) hway hrest

/-- Below the root of an outline, a listed node that is not there is taken over. -/
theorem ensures_excerptBelow (h : Outline src top ls done r f t) (hsel : src.Selection top ls)
    {o : Operation} (ha : (a, o) ∈ ls) (hfresh : a ∉ done) (hparent : src.parent? a = some p) :
    Ensures (src.excerptBelow (src.ancestry a).tail o r) t
      (fun r' t' => r' = r ∧ ∃ g, Outline src top ls (a :: done) r g t') fun _ => False := by
  have hs := hsel.forest
  have htop : src.topOf p = f r := by
    rw [h.root]
    refine hs.topOf_of_above hsel.alone ((hsel.above_top ha).parent hparent ?_)
    rintro rfl
    rw [hsel.alone] at hparent
    cases hparent
  have hway : src.Way (f r :: (src.ancestry p).tail) := by
    rw [← htop, ← src.ancestry_eq_cons p]
    exact hs.way_ancestry p
  have hlast : (f r :: (src.ancestry p).tail).getLast? = some p := by
    rw [← htop, ← src.ancestry_eq_cons p, hs.ancestry_eq, List.getLast?_concat]
  have hids : ∀ y ∈ (src.ancestry p).tail, src.Leading ls y := by
    intro y hy
    have hyp : src.Above y p :=
      hs.mem_upward_iff.1 (List.mem_reverse.1 (List.mem_of_mem_tail hy))
    refine ⟨_, ha, ?_, .step hparent hyp⟩
    rintro rfl
    exact hs.not_above_parent hparent hyp
  refine (hs.ensures_excerptBelow_of_descend hparent o (h.ensures_descend hsel h.root_lt hway hids)
    fun _ _ ⟨_, hg, hplace, _⟩ => ⟨hg.forest, hplace⟩).mono ?_ fun _ => False.elim
  rintro _ t₂ ⟨rfl, place, t₁, copy, ⟨g, hg, hplace, hgp⟩, hattached⟩
  rw [hlast, Option.some.injEq] at hgp
  rw [hgp] at hparent
  rw [hs.markedBranch_eq] at hattached
  have hnew : ∀ x < t₁.size, g x ≠ a := fun x hx heq => hfresh ((hg.present _ ha).1 ⟨x, hx, heq⟩)
  obtain ⟨g', hg', -, -⟩ := hg.attach hsel (hsel.portion_marked ha) hplace hattached hparent
    (hsel.notKey _ ha a .refl) hnew
  exact ⟨rfl, g', hg'⟩

/-- A listed node that is not there, and is not the top, is taken over into an outline. -/
theorem ensures_excerptInto (h : Outline src top ls done r f t) (hsel : src.Selection top ls)
    {l : NodeId × Operation} (hl : l ∈ ls) (hfresh : l.1 ∉ done) (hne : l.1 ≠ top) :
    Ensures (src.excerptInto l.1 l.2 (some r)) t
      (fun r' t' => r' = r ∧ ∃ g, Outline src top ls (l.1 :: done) r g t') fun _ => False := by
  obtain ⟨p, hp⟩ := hsel.exists_parent hl hne
  have htop := hsel.forest.topOf_of_above hsel.alone (hsel.above_top hl)
  have hmatch := h.matches_origin h.root_lt
  rw [h.root] at hmatch
  exact (ensures_excerptInto_some htop hmatch).2 (h.ensures_excerptBelow hsel hl hfresh hp)

end Outline

/-- Taken over into an empty tree, a listed node is the first of an outline. -/
theorem Selection.ensures_excerptInto (hsel : src.Selection top ls) (defaults : Registry)
    {l : NodeId × Operation} (hl : l ∈ ls) :
    Ensures (src.excerptInto l.1 l.2 none) (.empty defaults)
      (fun r t => ∃ f, Outline src top ls [l.1] r f t) fun _ => False := by
  have hs := hsel.forest
  have hempty := forest_empty defaults
  obtain ⟨a, o⟩ := l
  by_cases hne : a = top
  · subst hne
    rw [excerptInto_alone (by rw [hs.ancestry_of_alone hsel.alone]; rfl)]
    refine (hempty.ensures_addMarkedCopy hs a o).mono (fun copy t hlaid => ?_) fun _ => False.elim
    rw [hs.markedBranch_eq] at hlaid
    exact Outline.start hsel (hsel.portion_marked hl) hlaid
  · obtain ⟨p, hp⟩ := hsel.exists_parent hl hne
    have htop := hs.topOf_of_above hsel.alone (hsel.above_top hl)
    have hleads : src.Leading ls top := ⟨_, hl, Ne.symm hne, hsel.above_top hl⟩
    have hlaid := hempty.laid_addCopy (src.keyedBranch top)
    obtain ⟨f, hf⟩ := Outline.start hsel (hsel.portion_keys hleads) hlaid
    replace hf := hf.of_cons (hsel.not_listed hleads)
    have hmatch := hempty.matches_addCopy_keysOnly hs top
    refine (ensures_excerptInto_none htop (by rw [hs.tail_ancestry hp]; simp) hmatch).2 ?_
    rw [hs.keysOnly_branch]
    exact (hf.ensures_excerptBelow hsel hl (by simp) hp).mono
      (fun r t ⟨heq, hdone⟩ => heq ▸ hdone) fun _ => False.elim

/-! ## Taking over all nodes -/

/-- Takes over listed nodes one after the other, each with its operation and from the root of the
one before. -/
def excerptEach (src : Tree) :
    List (NodeId × Operation) → Option NodeId → Build (Option NodeId)
  | [], root => pure root
  | l :: ls, root => do
    let root ← src.excerptInto l.1 l.2 root
    excerptEach src ls (some root)

/-- With one operation for all, this is how edits are made. -/
theorem excerptEach_eq_excerptAll (src : Tree) (o : Operation) (ids : List NodeId)
    (root : Option NodeId) :
    src.excerptEach (ids.map fun id => (id, o)) root = src.excerptAll o ids root := by
  induction ids generalizing root with
  | nil => rfl
  | cons id ids ih =>
    rw [List.map_cons, excerptEach, excerptAll]
    simp only [ih]

/-- Listed nodes that are not there are taken over into an outline, in any order. -/
theorem Outline.ensures_excerptEach (hsel : src.Selection top ls)
    {rest : List (NodeId × Operation)} (h : Outline src top ls done r f t) (hrest : rest ⊆ ls)
    (hfresh : ∀ l ∈ rest, l.1 ∉ done) (hnd : (rest.map Prod.fst).Nodup)
    (hne : ∀ l ∈ rest, l.1 ≠ top) :
    Ensures (src.excerptEach rest (some r)) t
      (fun r' t' => r' = some r ∧ ∃ g now, Outline src top ls now r g t' ∧
        ∀ a ∈ done ++ rest.map Prod.fst, a ∈ now) fun _ => False := by
  induction rest generalizing t f done with
  | nil => exact ensures_pure.2 ⟨rfl, f, done, h, by simp⟩
  | cons l rest ih =>
    rw [List.map_cons, List.nodup_cons] at hnd
    refine (h.ensures_excerptInto hsel (hrest (by simp)) (hfresh l (by simp))
      (hne l (by simp))).bind fun r' t₁ ⟨heq, g, hg⟩ => ?_
    subst heq
    refine (ih hg (fun m hm => hrest (by simp [hm])) (fun m hm hmem => ?_) hnd.2
      fun m hm => hne m (by simp [hm])).mono ?_ fun _ => False.elim
    · rcases List.mem_cons.1 hmem with heq | hmem
      · exact hnd.1 (heq ▸ List.mem_map_of_mem hm)
      · exact hfresh m (by simp [hm]) hmem
    · rintro _ t₂ ⟨rfl, g', now, hg', hnow⟩
      refine ⟨rfl, g', now, hg', fun a ha => hnow a ?_⟩
      simp only [List.map_cons, List.mem_append, List.mem_cons] at ha ⊢
      tauto

/-- The slots of an edit with the root `r` stand for nodes of the source: for the listed nodes, which
are marked, and for what is above these, with the parents that they have in the source. -/
structure Outlined (src : Tree) (top : NodeId) (ls : List (NodeId × Operation)) (r : NodeId)
    (origin : NodeId → NodeId) (t : Tree) : Prop where
  /-- The root stands for the top. -/
  root : r < t.size ∧ origin r = top ∧ t.parent? r = none
  /-- Every other slot has a parent, which stands for the parent. -/
  parent? : ∀ x < t.size, x ≠ r →
    ∃ p, t.parent? x = some p ∧ src.parent? (origin x) = some (origin p)
  /-- No two slots stand for one node. -/
  injective : ∀ x < t.size, ∀ y < t.size, origin x = origin y → x = y
  /-- Every listed node is there. -/
  listed : ∀ l ∈ ls, ∃ x < t.size, origin x = l.1
  /-- A slot is marked if it stands for a listed node, with its operation, and else is not. -/
  marked : ∀ x < t.size, ∀ text,
    t.markText? x = some text ↔ ∃ l ∈ ls, origin x = l.1 ∧ text = l.2.name
  /-- Everything above a listed node is there. -/
  leading : ∀ a, src.Leading ls a → ∃ x < t.size, origin x = a
  /-- Besides, there are only the marked nodes and the keys, with what is below these. -/
  outline : ∀ x < t.size, src.Leading ls (origin x) ↔
    ∀ c : NodeId, t.Above c x → t.markText? c = none ∧ t.isKey c = false
  /-- What is above a listed node carries what it carries in the source. -/
  element : ∀ x < t.size, src.Leading ls (origin x) → t.element x = src.element (origin x)

namespace Outline

/-- The slot of a listed node has its mark. -/
theorem markText?_of_listed (h : Outline src top ls done r f t) (hx : x < t.size)
    {l : NodeId × Operation} (hl : l ∈ ls) (hfx : f x = l.1) :
    t.markText? x = some l.2.name := by
  unfold markText?
  rw [(h.stands x hx).marked l.2 (hfx ▸ hl), Element.markText?_mark]

/-- The slot of another node has no mark. -/
theorem markText?_of_not_listed (h : Outline src top ls done r f t) (hsel : src.Selection top ls)
    (hx : x < t.size) (hnone : ∀ o, (f x, o) ∉ ls) : t.markText? x = none := by
  have hunmarked := hsel.forest.all_at hsel.unmarked (h.above_top hx)
  rw [hsel.forest.element_branch] at hunmarked
  unfold markText?
  rw [(h.stands x hx).element hnone, hunmarked]

/-- The slots of keys are keys. -/
theorem isKey_eq (h : Outline src top ls done r f t) (hsel : src.Selection top ls)
    (hx : x < t.size) : t.isKey x = src.isKey (f x) := by
  unfold isKey
  by_cases hne : x = r
  · rw [hne, (h.alone r h.root_lt).2 rfl, h.root, hsel.alone]
    rfl
  · obtain ⟨p, hp, hparent⟩ := h.parent? hx hne
    have hname : t.name x = src.name (f x) := (Element.alike_iff.1 (h.stands x hx).alike).1.symm
    rw [hp, hparent, Option.any_some, Option.any_some, Element.hasKey, Element.hasKey, hname,
      (h.stands p (h.forest.parent_lt hp)).kind]

/-- Above a slot that leads to a listed node, nothing is marked or a key, and above all other slots
something is. -/
theorem leading_iff (h : Outline src top ls done r f t) (hsel : src.Selection top ls)
    (hx : x < t.size) : src.Leading ls (f x) ↔
      ∀ c : NodeId, t.Above c x → t.markText? c = none ∧ t.isKey c = false := by
  constructor
  · rintro ⟨l, hl, hne, habove⟩ c hc
    have hclt := h.forest.lt_size_of_above hx hc
    have hcx := h.above hx hc
    have hleads : src.Leading ls (f c) := by
      refine ⟨l, hl, fun heq => ?_, hcx.trans habove⟩
      rw [heq] at hcx
      exact hsel.forest.not_above_of_ne habove hne hcx
    refine ⟨h.markText?_of_not_listed hsel hclt (hsel.not_listed hleads), ?_⟩
    rw [h.isKey_eq hsel hclt]
    exact hsel.isKey_of_leading hleads
  · intro hall
    rcases (h.stands x hx).within with hleads | ⟨l, hl, habove⟩ | ⟨k, hkey, habove⟩
    · exact hleads
    · obtain ⟨c, hc, hcl⟩ := h.exists_above hsel hx habove
      have hmark := h.markText?_of_listed (h.forest.lt_size_of_above hx hc) hl hcl
      rw [(hall c hc).1] at hmark
      cases hmark
    · obtain ⟨c, hc, rfl⟩ := h.exists_above hsel hx habove
      rw [← h.isKey_eq hsel (h.forest.lt_size_of_above hx hc), (hall c hc).2] at hkey
      cases hkey

/-- An outline is complete when all listed nodes were taken over. -/
theorem outlined (h : Outline src top ls done r f t) (hsel : src.Selection top ls)
    (hdone : ∀ l ∈ ls, l.1 ∈ done) : Outlined src top ls r f t where
  root := ⟨h.root_lt, h.root, (h.alone r h.root_lt).2 rfl⟩
  parent? _ hx hne := h.parent? hx hne
  injective _ hx _ hy heq := h.injective hsel hx hy heq
  listed l hl := (h.present l hl).2 (hdone l hl)
  marked x hx text := by
    constructor
    · intro htext
      by_cases hlisted : ∃ o, (f x, o) ∈ ls
      · obtain ⟨o, ho⟩ := hlisted
        rw [h.markText?_of_listed hx ho rfl] at htext
        exact ⟨_, ho, rfl, (Option.some.inj htext).symm⟩
      · rw [h.markText?_of_not_listed hsel hx fun o ho => hlisted ⟨o, ho⟩] at htext
        cases htext
    · rintro ⟨l, hl, hfx, rfl⟩
      exact h.markText?_of_listed hx hl hfx
  leading a := by
    rintro ⟨l, hl, -, habove⟩
    obtain ⟨y, hy, hyl⟩ := (h.present l hl).2 (hdone l hl)
    rw [← hyl] at habove
    obtain ⟨x, hxy, hxa⟩ := h.exists_above hsel hy habove
    exact ⟨x, h.forest.lt_size_of_above hy hxy, hxa⟩
  outline _ hx := h.leading_iff hsel hx
  element x hx hleads := (h.stands x hx).element (hsel.not_listed hleads)

end Outline

/-- No node is listed twice. -/
theorem Selection.nodup (hsel : src.Selection top ls) : (ls.map Prod.fst).Nodup := by
  refine List.Pairwise.imp (fun {x y} hxy => ?_) hsel.scattered.apart
  rintro rfl
  exact hxy.1 .refl

/-- Taking over listed nodes one after the other, in any order and with any operations, always
succeeds. Into an empty tree, it makes an outline of the source: one marked node for each listed
node, and above these one node for each node that is above a listed one. -/
theorem Selection.excerptEach_outlines (hsel : src.Selection top ls) (hne : ls ≠ [])
    (defaults : Registry) :
    ∃ r t origin, src.excerptEach ls none (.empty defaults) = .ok (some r) t ∧
      Outlined src top ls r origin t := by
  obtain ⟨l, rest, rfl⟩ := List.exists_cons_of_ne_nil hne
  have hnd := hsel.nodup
  rw [List.map_cons, List.nodup_cons] at hnd
  -- only the first node may be the top, as all the others would be below it
  have hrest : ∀ m ∈ rest, m.1 ≠ top := by
    intro m hm heq
    have habove := hsel.above_top (l := l) (by simp)
    rw [← heq] at habove
    have hsame := hsel.eq_of_above (l := m) (by simp [hm]) (by simp) habove
    exact hnd.1 (hsame ▸ List.mem_map_of_mem hm)
  have hrun : Ensures (src.excerptEach (l :: rest) none) (.empty defaults)
      (fun r' t => ∃ r origin, r' = some r ∧ Outlined src top (l :: rest) r origin t)
      fun _ => False := by
    refine (hsel.ensures_excerptInto defaults (l := l) (by simp)).bind fun r t ⟨f, hf⟩ => ?_
    refine (hf.ensures_excerptEach hsel (List.subset_cons_self l rest) (fun m hm hmem => ?_) hnd.2
      hrest).mono ?_ fun _ => False.elim
    · exact hnd.1 (List.mem_singleton.1 hmem ▸ List.mem_map_of_mem hm)
    · rintro _ t' ⟨rfl, g, now, hg, hnow⟩
      refine ⟨r, g, rfl, hg.outlined hsel fun m hm => hnow m.1 ?_⟩
      rcases List.mem_cons.1 hm with rfl | hm
      · simp
      · exact List.mem_append_right _ (List.mem_map_of_mem hm)
  obtain ⟨_, t, hok, r, origin, rfl, houtlined⟩ := hrun.exists_ok
  exact ⟨r, t, origin, hok, houtlined⟩

/-! ## Nodes of a list of hosts -/

/-- Of three hosts, the address of the last is to be merged, that of the first to be deleted, and the
second is to be replaced. -/
def hostsListed : List (NodeId × Operation) := [(9, .merge), (3, .delete), (4, .replace)]

/-- These nodes can be listed. -/
theorem selection_hosts : hostsBefore.tree.Selection 0 hostsListed where
  forest := fit_hostsBefore.forest
  alone := by decide +kernel
  unmarked := by decide +kernel
  toldApart := by decide +kernel
  scattered := by
    constructor <;> simp only [← fit_hostsBefore.forest.isAtOrAbove_iff] <;> decide +kernel
  notKey := by
    intro l hl x hx
    rw [← fit_hostsBefore.forest.mem_upward_iff] at hx
    revert l x
    decide +kernel

/-- Taking over the nodes makes an outline of the hosts. -/
theorem excerptEach_hosts : hostsBefore.tree.Selection 0 hostsListed ∧ hostsListed ≠ [] ∧
    ∃ r t origin, hostsBefore.tree.excerptEach hostsListed none (.empty {}) = .ok (some r) t ∧
      Outlined hostsBefore.tree 0 hostsListed r origin t :=
  ⟨selection_hosts, by decide, selection_hosts.excerptEach_outlines (by decide) {}⟩

end Netconf.Tree
