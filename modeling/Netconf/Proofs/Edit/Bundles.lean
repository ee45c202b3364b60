import Netconf.Proofs.Edit.Amending
import Netconf.Proofs.Edit.Explicit
import Netconf.Proofs.Tree.Comparisons

/-!
# Edits between sets of nodes

Sets of nodes are compared by way of bundles: copies of the nodes are put below a made-up root
(`Tree.exists_bundle`). Nothing that an edit between such trees does can fail. The roots are without
schema and alike, so that each is the partner of the other and no root is listed
(`Tree.Bundle.parent?_of_listed`). The ancestors of a node that is taken over are found or made
(`Edit.exists_placed`), whatever their kinds and names are. So what is done with sets of nodes
always has a result (`Tree.ofSets_never_fail`).
-/

namespace Netconf

open Branch

namespace Edit

variable {top copy : Branch} {above ts : List Branch}

/-! ## Taking over always works -/

/-- A copy can be placed below all ancestors, among all branches. -/
theorem exists_placed (above : List Branch) (copy : Branch) (ts : List Branch) :
    ∃ us, Placed above copy ts us := by
  induction above generalizing ts with
  | nil => exact ⟨_, .here⟩
  | cons x above ih =>
    -- an ancestor is either found, or made with its keys: no case is left out
    cases hfind : ts.find? fun c => x.entry.matchesEntry c.entry with
    | none =>
      obtain ⟨cs, hcs⟩ := ih x.keysOnly.bare.children
      have hts : ∀ d ∈ ts, x.entry.matchesEntry d.entry = false := fun d hd =>
        Bool.eq_false_iff.2 (List.find?_eq_none.1 hfind d hd)
      exact ⟨_, .made hts hcs⟩
    | some c =>
      obtain ⟨hc, pre, post, rfl, hpre⟩ := List.find?_eq_some_iff_append.1 hfind
      obtain ⟨cs, hcs⟩ := ih c.children
      exact ⟨_, .found hc (fun d hd => by simpa using hpre d hd) hcs⟩

/-- Below a top without schema, any excerpts can be taken over. The root that results is like the
top and has children, and there is one unless there is nothing to take over. -/
theorem exists_grown_of_plain (hkind : top.element.kind = .plain) (xs : List Excerpt)
    (root : Option Branch)
    (hroot : ∀ r ∈ root, top.element.alike r.element = true ∧ r.children ≠ []) :
    ∃ root', Grown top xs root root' ∧
      (∀ r ∈ root', top.element.alike r.element = true ∧ r.children ≠ []) ∧
      (root' = none → root = none ∧ xs = []) := by
  induction xs generalizing root with
  | nil => exact ⟨root, .nil, hroot, fun h => ⟨h, rfl⟩⟩
  | cons x xs ih =>
    -- the root that is there, or the one that is made
    have hstart : top.element.alike (root.getD top.keysOnly.bare).element = true := by
      cases root with
      | none =>
        rw [Option.getD_none, element_bare, element_keysOnly]
        exact Element.alike_refl _
      | some r => exact (hroot r rfl).1
    obtain ⟨ts, hts⟩ := exists_placed x.above x.copy (root.getD top.keysOnly.bare).children
    have hnext : ∀ r ∈ some (Branch.mk 0 (root.getD top.keysOnly.bare).element ts),
        top.element.alike r.element = true ∧ r.children ≠ [] := by
      intro r hr
      obtain rfl := Option.mem_some_iff.1 hr
      exact ⟨hstart, Placed.ne_nil hts⟩
    obtain ⟨root', hgrown, hend, hnone⟩ := ih _ hnext
    have hmatch : top.entry.matchesEntry (root.getD top.keysOnly.bare).entry = true :=
      (Entry.matches_iff_of_plain (x := top.entry) hkind).2 hstart
    refine ⟨root', .cons hmatch hts hgrown, hend, fun h => ?_⟩
    cases (hnone h).1

end Edit

open Build Edit

namespace Tree

variable {t ta tb : Tree} {p q : NodeId}

/-- The explicit edit between two roots without schema that are alike is made without failing. There
is none just when they agree, and otherwise its root has children. -/
theorem Forest.exists_explicitEdit_of_plain (ha : ta.Forest) (hb : tb.Forest)
    (hp : ta.parent? p = none) (hq : tb.parent? q = none) (hkind : (ta.element p).kind = .plain)
    (hkind' : (tb.element q).kind = .plain)
    (halike : (ta.element p).alike (tb.element q) = true) :
    ∃ edit, ta.explicitEdit p tb q = .ok edit ∧ (edit = none ↔ ta.agree p tb q = true) ∧
      ∀ d ∈ edit, d.tree.Forest ∧ d.tree.children d.root ≠ [] := by
  have hsame : (ta.branch p).entry.matchesEntry (tb.branch q).entry = true := by
    rw [ha.entry_branch, hb.entry_branch]
    exact (Entry.matches_iff_of_plain (x := ta.entry p) hkind).2 halike
  rw [← ha.element_branch] at hkind halike
  rw [← hb.element_branch] at hkind' halike
  -- what is deleted, created and replaced grows one root, which stays like the two tops
  obtain ⟨root₁, hxs, hroot₁, hnone₁⟩ := exists_grown_of_plain hkind
    (((ta.branch p).listings (tb.branch q)).onlyA.map (excerptOf .delete)) none (by simp)
  have hroot₁' : ∀ r ∈ root₁, (tb.branch q).element.alike r.element = true ∧ r.children ≠ [] :=
    fun r hr => ⟨Element.alike_trans (Element.alike_comm ▸ halike) (hroot₁ r hr).1,
      (hroot₁ r hr).2⟩
  obtain ⟨root₂, hys, hroot₂, hnone₂⟩ := exists_grown_of_plain hkind'
    (((ta.branch p).listings (tb.branch q)).onlyB.map (excerptOf .create)) root₁ hroot₁'
  obtain ⟨root, hzs, hroot, hnone⟩ := exists_grown_of_plain hkind'
    (((ta.branch p).listings (tb.branch q)).changedB.map (excerptOf .replace)) root₂ hroot₂
  obtain ⟨edit, hedit, hend⟩ := ha.exists_explicitEdit hb hp hq hsame hxs hys hzs
  by_cases hagree : ta.agree p tb q = true
  · obtain rfl := Except.ok.inj (hedit.symm.trans (ha.compare_of_agree hb hagree).1)
    exact ⟨none, hedit, by simp [hagree], by simp⟩
  · rcases hend with ⟨rfl, -⟩ | ⟨t, r, rfl, ht, rfl⟩
    · -- without a root nothing is taken over, and so nothing is listed
      have hempty : excerptsOf ((ta.branch p).listings (tb.branch q)) = [] := by
        unfold excerptsOf
        rw [(hnone rfl).2, (hnone₂ (hnone rfl).1).2, (hnone₁ (hnone₂ (hnone rfl).1).1).2]
        rfl
      exact absurd (agree_iff.2 ⟨hsame, listings_of_excerptsOf hempty⟩) hagree
    · refine ⟨_, hedit, by simp [hagree], fun d hd => ?_⟩
      obtain rfl := Option.mem_some_iff.1 hd
      refine ⟨ht, fun hchildren => (hroot _ rfl).2 ?_⟩
      rw [children_bare, ht.branch_eq, Branch.children]
      dsimp only at hchildren
      rw [hchildren]
      rfl

/-! ## Bundles -/

/-- The made-up root over a set of nodes. -/
def bundleRoot : Element := { ns := some bundleNs, name := bundleName }

/-- Copies of nodes are put below a root without failing. -/
theorem Forest.ensures_addCopies (h : t.Forest) (src : Tree) {root : Nat} (hr : root < t.size)
    (ids : List NodeId) :
    Ensures (src.addCopies root ids) t
      (fun _ t' => t.Confined root t' ∧
        t'.content root = t.content root ++ ids.map fun id => (src.branch id).bare)
      fun _ => False := by
  induction ids generalizing t with
  | nil => exact ensures_pure.2 ⟨h.keeps.confined hr, by simp⟩
  | cons id ids ih =>
    refine ensures_bind.2 (ensures_change.2 ?_)
    refine ((h.copied (src.branch id)).ensures_append h hr).bind ?_
    rintro _ t₁ ⟨hconf, -, hcontent⟩
    refine (ih hconf.forest (hconf.lt hr)).mono ?_ fun _ => False.elim
    rintro _ t₂ ⟨hconf', hcontent'⟩
    exact ⟨hconf.trans h hconf', by rw [hcontent', hcontent]; simp⟩

/-- What a bundle of nodes is: their copies below the made-up root. -/
structure Bundle (src : Tree) (ids : List NodeId) (d : Document) : Prop where
  /-- It is made without failing. -/
  made : src.bundle ids = .ok d
  /-- The links are those of a forest. -/
  forest : d.tree.Forest
  /-- The root has no parent. -/
  parent? : d.tree.parent? d.root = none
  /-- The root is the made-up one. -/
  root : d.tree.element d.root = bundleRoot
  /-- Below it are the copies. -/
  content : d.tree.content d.root = ids.map fun id => (src.branch id).bare

/-- A bundle can be made of any nodes. -/
theorem exists_bundle (src : Tree) (ids : List NodeId) : ∃ d, Bundle src ids d := by
  have hempty := forest_empty src.defaults
  have hforest := hempty.create bundleRoot
  have hlt : (Tree.empty src.defaults).size <
      ((Tree.empty src.defaults).create bundleRoot).1.size := Nat.zero_lt_one
  obtain ⟨_, t, hok, hconf, hcontent⟩ := (hforest.ensures_addCopies src hlt ids).exists_ok
  refine ⟨⟨t, (Tree.empty src.defaults).size⟩, ?_, hconf.forest, ?_, ?_, ?_⟩
  · unfold bundle
    have hroot : ((Tree.empty src.defaults).create bundleRoot).2 = (Tree.empty src.defaults).size :=
      rfl
    unfold bundleRoot at hok hroot
    dsimp only
    rw [hroot, hok]
  · exact hconf.parent?_top
  · exact hconf.element_top
  · exact hcontent

/-- What is taken out of a bundle stands alone. -/
theorem Forest.alone_of_unbundle {d : Document} (h : d.tree.Forest) {x : NodeId}
    (hx : x ∈ (unbundle d).2) :
    x < (unbundle d).1.size ∧ (unbundle d).1.parent? x = none := by
  unfold unbundle at hx ⊢
  dsimp only at hx ⊢
  rw [size_detachAll, parent?_detachAll, if_pos hx]
  exact ⟨h.child_lt hx, rfl⟩

/-- The tree of a merging edit is a forest. -/
theorem exists_mergingEdit_forest (ta : Tree) (a : NodeId) (tb : Tree) (b : NodeId) :
    ∃ i, ta.mergingEdit a tb b = .ok i ∧ i.tree.Forest := by
  obtain ⟨-, -, -, -, t', hext, hedit⟩ := exists_mergingEdit ta a tb b
  exact ⟨_, hedit, (hext.forest.detachAll _).1⟩

section OfSets

variable {as bs : List NodeId} {d e : Document}

/-- Sets of nodes agree when their bundles do. -/
theorem Bundle.agreeAsSets_eq (hd : Bundle ta as d) (he : Bundle tb bs e) :
    ta.agreeAsSets as tb bs = .ok (d.tree.agree d.root e.tree e.root) := by
  unfold agreeAsSets
  rw [hd.made, he.made]
  rfl

/-- The explicit edit between sets of nodes is taken out of that between their bundles. -/
theorem Bundle.explicitEditOfSets_eq (hd : Bundle ta as d) (he : Bundle tb bs e)
    {edit : Option Document} (hedit : d.tree.explicitEdit d.root e.tree e.root = .ok edit) :
    ta.explicitEditOfSets as tb bs = .ok ((edit.map unbundle).getD (.empty ta.defaults, [])) := by
  have hbind : ta.explicitEditOfSets as tb bs = d.tree.explicitEdit d.root e.tree e.root >>=
      fun edit => pure ((edit.map unbundle).getD (.empty ta.defaults, [])) := by
    unfold explicitEditOfSets
    rw [hd.made, he.made]
    refine congrArg (fun f => d.tree.explicitEdit d.root e.tree e.root >>= f)
      (funext fun edit => ?_)
    cases edit <;> rfl
  rw [hbind, hedit]
  rfl

/-- The merging edit between sets of nodes is taken out of that between their bundles. -/
theorem Bundle.mergingEditOfSets_eq (hd : Bundle ta as d) (he : Bundle tb bs e)
    {i : Document} (hi : d.tree.mergingEdit d.root e.tree e.root = .ok i) :
    ta.mergingEditOfSets as tb bs = .ok (unbundle i) := by
  have hbind : ta.mergingEditOfSets as tb bs =
      d.tree.mergingEdit d.root e.tree e.root >>= fun i => pure (unbundle i) := by
    unfold mergingEditOfSets
    rw [hd.made, he.made]
    rfl
  rw [hbind, hi]
  rfl

/-- A node further down than a child has a parent. -/
theorem Forest.parent?_of_leads (h : t.Forest) {id : Nat} {above : List Branch} {node : Branch}
    (hl : Leads (t.branch id).children above node) : t.parent? node.id ≠ none := by
  intro hnone
  obtain ⟨hancestry, -, -⟩ := h.ancestry_of_leads hl
  -- the way from the top to the node would be too long
  have hlength := congrArg List.length hancestry
  unfold ancestry at hlength
  rw [h.upward_eq node.id, h.upward_eq id, hnone] at hlength
  simp only [List.length_append, List.length_map, List.length_reverse, List.length_cons,
    List.length_nil, Option.elim_none] at hlength
  omega

/-- The roots of bundles are alike, and without schema. -/
theorem Bundle.alike (hd : Bundle ta as d) (he : Bundle tb bs e) :
    (d.tree.element d.root).kind = .plain ∧ (e.tree.element e.root).kind = .plain ∧
      (d.tree.element d.root).alike (e.tree.element e.root) = true := by
  rw [hd.root, he.root]
  exact ⟨rfl, rfl, Element.alike_refl _⟩

/-- What a difference between two bundles lists is below their roots. -/
theorem Bundle.parent?_of_listed (hd : Bundle ta as d) (he : Bundle tb bs e) :
    let l := d.tree.diff d.root e.tree e.root
    (∀ x ∈ l.onlyA, d.tree.parent? x ≠ none) ∧
      ∀ x ∈ l.onlyB ++ l.changedB, e.tree.parent? x ≠ none := by
  have hwithin := within_listingsAll (d.tree.branch d.root).children (e.tree.branch e.root).children
  rw [← listings_eq] at hwithin
  intro l
  have hl : l = ((d.tree.branch d.root).listings (e.tree.branch e.root)).slots := by
    obtain ⟨hkind, -, halike⟩ := hd.alike he
    refine diff_eq_slots ?_
    rw [hd.forest.entry_branch, he.forest.entry_branch]
    exact (Entry.matches_iff_of_plain (x := d.tree.entry d.root) hkind).2 halike
  rw [hl]
  refine ⟨fun x hx => ?_, fun x hx => ?_⟩
  · obtain ⟨y, hy, rfl⟩ := List.mem_map.1 hx
    exact hd.forest.parent?_of_leads (hwithin.onlyA y hy)
  · rcases List.mem_append.1 hx with hx | hx
    · obtain ⟨y, hy, rfl⟩ := List.mem_map.1 hx
      exact he.forest.parent?_of_leads (hwithin.onlyB y hy)
    · obtain ⟨y, hy, rfl⟩ := List.mem_map.1 hx
      exact he.forest.parent?_of_leads (hwithin.changedB y hy)

/-- Nothing that is done with sets of nodes fails, nor does the merging edit of two trees. What an
edit between sets consists of stands alone in its tree, there is no explicit edit just when the sets
agree, and a set agrees with itself. No node that is taken over is the root of a bundle. -/
theorem ofSets_never_fail (ta : Tree) (a : NodeId) (as : List NodeId) (tb : Tree) (b : NodeId)
    (bs : List NodeId) :
    (∃ i, ta.mergingEdit a tb b = .ok i) ∧
    (∃ agreed explicit merging,
      ta.agreeAsSets as tb bs = .ok agreed ∧
      ta.explicitEditOfSets as tb bs = .ok explicit ∧
      ta.mergingEditOfSets as tb bs = .ok merging ∧
      (∀ x ∈ explicit.2, x < explicit.1.size ∧ explicit.1.parent? x = none) ∧
      (∀ x ∈ merging.2, x < merging.1.size ∧ merging.1.parent? x = none) ∧
      (explicit.2 = [] ↔ agreed = true) ∧
      ta.agreeAsSets as ta as = .ok true) ∧
    ∃ d e, ta.bundle as = .ok d ∧ tb.bundle bs = .ok e ∧
      let l := d.tree.diff d.root e.tree e.root
      (∀ x ∈ l.onlyA, d.tree.parent? x ≠ none) ∧
        ∀ x ∈ l.onlyB ++ l.changedB, e.tree.parent? x ≠ none := by
  obtain ⟨i, hi, -⟩ := exists_mergingEdit_forest ta a tb b
  obtain ⟨d, hd⟩ := exists_bundle ta as
  obtain ⟨e, he⟩ := exists_bundle tb bs
  obtain ⟨hkind, hkind', halike⟩ := hd.alike he
  obtain ⟨edit, hedit, hnone, hsome⟩ := hd.forest.exists_explicitEdit_of_plain he.forest hd.parent?
    he.parent? hkind hkind' halike
  obtain ⟨m, hm, hmforest⟩ := exists_mergingEdit_forest d.tree d.root e.tree e.root
  refine ⟨⟨i, hi⟩, ⟨_, _, _, hd.agreeAsSets_eq he, hd.explicitEditOfSets_eq he hedit,
    hd.mergingEditOfSets_eq he hm, ?_, fun x => hmforest.alone_of_unbundle, ?_, ?_⟩,
    d, e, hd.made, he.made, hd.parent?_of_listed he⟩
  · cases edit with
    | none => exact fun x hx => nomatch hx
    | some i => exact fun x => (hsome i rfl).1.alone_of_unbundle
  · rw [← hnone]
    cases edit with
    | none => exact ⟨fun _ => rfl, fun _ => rfl⟩
    | some i => exact ⟨fun h => absurd h (hsome i rfl).2, fun h => nomatch h⟩
  · rw [hd.agreeAsSets_eq hd, agree_iff.2 ⟨Entry.matches_refl _, listings_of_bare rfl⟩]

end OfSets

end Tree

end Netconf
