import Netconf.Edit.Between
import Netconf.Proofs.Edit.Skeletons
import Netconf.Proofs.Edit.Turns

/-!
# Explicit edits, class by class

The excerpts that an explicit edit takes over fall into classes like the children of the two sides:
each concerns the class of its head only (`Excerpt.concernsOnly`). Within a class there is at most
one member on each side, and `Edited` says that taking the excerpts of the class over yields edit
nodes that turn the first side's member into the second side's. It is shown here for each way in
which the members can differ.
-/

namespace Netconf

open Branch

namespace Edit

variable {s : Schema} {rule : KindRule} {k : Identity} {a b c : Branch}
  {as bs ts us : List Branch} {x : Excerpt} {xs : List Excerpt}

/-! ## What an edit does to one class -/

/-- The excerpts that an explicit edit takes over, in order. -/
def excerptsOf (x : Listings) : List Excerpt :=
  x.onlyA.map (excerptOf .delete) ++ x.onlyB.map (excerptOf .create)
    ++ x.changedB.map (excerptOf .replace)

/-- Within a class: taking excerpts over makes of the branches `start` edit nodes that turn the
branches `ts` into `bs`. -/
def Edited (s : Schema) (rule : KindRule) (k : Identity) (xs : List Excerpt)
    (start ts bs : List Branch) : Prop :=
  ∃ es, RunWithin Excerpt.Placed (fun b => b.identity rule = k) xs start es ∧
    Turns s rule k es ts bs

/-- A copy with a mark is added to a class. -/
theorem runWithin_excerptOf {o : Operation} {l : Branch}
    (hl : l.element.kind = rule l.element.ns l.element.name) (hk : l.identity rule = k)
    (hts : ∀ t ∈ ts, t.identity rule = k) (hxs : RunWithin Excerpt.Placed
      (fun b => b.identity rule = k) xs (ts ++ [(copyFor o l).bare]) us) :
    RunWithin Excerpt.Placed (fun b => b.identity rule = k) (excerptOf o ⟨[], l⟩ :: xs) ts us := by
  refine .cons .here (fun t ht => ?_) hxs
  rcases List.mem_append.1 ht with ht | ht
  · exact hts t ht
  · rw [List.mem_singleton.1 ht]
    exact ((identity_bare rule _).trans (identity_copyFor hl)).trans hk

/-- A node that only the first side has is deleted. -/
theorem edited_delete (ha : a.element.kind = rule a.element.ns a.element.name)
    (hk : a.identity rule = k) :
    Edited s rule k [excerptOf .delete ⟨[], a⟩] [] [a.bare] [] :=
  ⟨_, runWithin_excerptOf ha hk (by simp) .nil, turns_delete ha⟩

/-- A node that only the second side has is created. -/
theorem edited_create (hb : b.element.kind = rule b.element.ns b.element.name)
    (hk : b.identity rule = k) (hd : b.Described s) (hu : b.Unmarked) :
    Edited s rule k [excerptOf .create ⟨[], b⟩] [] [] [b] :=
  ⟨_, runWithin_excerptOf hb hk (by simp) .nil, turns_create hb hk hd hu⟩

/-- A node that changed is replaced. -/
theorem edited_replace (hb : b.element.kind = rule b.element.ns b.element.name)
    (hk : b.identity rule = k) (hd : b.Described s) (hu : b.Unmarked)
    (hba : b.entry.matchesEntry a.entry = true) :
    Edited s rule k [excerptOf .replace ⟨[], b⟩] [] [a.bare] [b] :=
  ⟨_, runWithin_excerptOf hb hk (by simp) .nil, turns_replace hb hk hd hu hba⟩

/-- Two nodes of one identity that are not the same: the first is deleted, the second created. -/
theorem edited_strangers (ha : a.element.kind = rule a.element.ns a.element.name)
    (hb : b.element.kind = rule b.element.ns b.element.name) (hak : a.identity rule = k)
    (hbk : b.identity rule = k) (hd : b.Described s) (hu : b.Unmarked) :
    Edited s rule k [excerptOf .delete ⟨[], a⟩, excerptOf .create ⟨[], b⟩] [] [a.bare] [b] := by
  have hcopy : ∀ c ∈ [(copyFor .delete a).bare], c.identity rule = k := by
    intro c hc
    rw [List.mem_singleton.1 hc, identity_bare]
    exact (identity_copyFor ha).trans hak
  exact ⟨_, runWithin_excerptOf ha hak (by simp) (runWithin_excerptOf hb hbk hcopy .nil),
    (turns_delete ha).append (turns_create hb hbk hd hu)⟩

/-- Where nothing is taken over, nothing changes. -/
theorem edited_nothing (h : AgreesAll ts bs) (hts : Kinds s rule ts) :
    Edited s rule k [] [] ts bs :=
  ⟨[], .nil, turns_nothing h hts⟩

/-! ## Where the excerpts are from -/

/-- A way down starts at one of the branches. -/
theorem head_mem_of_leads {l : Listed} (h : Leads as l.above l.node) : l.head ∈ as := by
  obtain ⟨above, node⟩ := l
  cases above with
  | nil => exact h
  | cons x above => exact h.1

/-- What is taken over is an excerpt of a listed node, on either side. -/
theorem exists_of_mem_excerptsOf {y : Listings} (h : y.Within as bs) (hx : x ∈ excerptsOf y) :
    ∃ o l, x = excerptOf o l ∧ (l.head ∈ as ∨ l.head ∈ bs) := by
  unfold excerptsOf at hx
  rcases List.mem_append.1 hx with hx | hx
  · rcases List.mem_append.1 hx with hx | hx
    · obtain ⟨l, hl, rfl⟩ := List.mem_map.1 hx
      exact ⟨_, l, rfl, .inl (head_mem_of_leads (h.onlyA l hl))⟩
    · obtain ⟨l, hl, rfl⟩ := List.mem_map.1 hx
      exact ⟨_, l, rfl, .inr (head_mem_of_leads (h.onlyB l hl))⟩
  · obtain ⟨l, hl, rfl⟩ := List.mem_map.1 hx
    exact ⟨_, l, rfl, .inr (head_mem_of_leads (h.changedB l hl))⟩

/-- The top of what an excerpt adds is the uppermost ancestor, marked when it is the node itself. -/
theorem element_head_excerptOf (o : Operation) (l : Listed) :
    (excerptOf o l).head.element = l.head.element ∨
      (excerptOf o l).head.element = l.head.element.mark o := by
  obtain ⟨above, node⟩ := l
  cases above with
  | nil =>
    refine .inr ?_
    show (copyFor o node).bare.element = node.element.mark o
    rw [element_bare, element_copyFor]
  | cons y above => exact .inl rfl

/-- The top of what an excerpt adds has the name and kind of the uppermost ancestor. -/
theorem alike_head_excerptOf (o : Operation) (l : Listed) :
    l.head.element.alike (excerptOf o l).head.element = true ∧
      (excerptOf o l).head.element.kind = l.head.element.kind := by
  rcases element_head_excerptOf o l with h | h
  · rw [h]
    exact ⟨Element.alike_refl _, rfl⟩
  · rw [h]
    exact ⟨alike_mark _ _, kind_mark _ _⟩

/-- The top of what an excerpt adds has the kind that the rule gives. -/
theorem kind_head_excerptOf {o : Operation} {l : Listed}
    (hl : l.head.element.kind = rule l.head.element.ns l.head.element.name) :
    (excerptOf o l).head.element.kind =
      rule (excerptOf o l).head.element.ns (excerptOf o l).head.element.name := by
  obtain ⟨halike, hkind⟩ := alike_head_excerptOf o l
  obtain ⟨hname, hns, -⟩ := Element.alike_iff.1 halike
  rw [hkind, ← hname, ← hns, hl]

/-- The top of what an excerpt adds has the identity of the uppermost ancestor. -/
theorem identity_head_excerptOf {o : Operation} {l : Listed}
    (hl : l.head.element.kind = rule l.head.element.ns l.head.element.name) :
    (excerptOf o l).head.identity rule = l.head.identity rule := by
  obtain ⟨above, node⟩ := l
  cases above with
  | nil => exact (identity_bare rule _).trans (identity_copyFor hl)
  | cons y above => rfl

/-- The excerpts of a class are those of the listed nodes of this class. -/
theorem filter_excerptsOf {y : Listings} (h : y.Within as bs)
    (has : ∀ c ∈ as, c.element.kind = rule c.element.ns c.element.name)
    (hbs : ∀ c ∈ bs, c.element.kind = rule c.element.ns c.element.name) :
    ((excerptsOf y).filter fun x => x.head.identity rule = k) =
      excerptsOf (y.part (identity rule) k) := by
  have hpart : ∀ (o : Operation) (ls : List Listed), (∀ l ∈ ls, l.head ∈ as ∨ l.head ∈ bs) →
      (ls.map (excerptOf o)).filter (fun x => decide (x.head.identity rule = k)) =
        (ls.filter fun l => decide (l.head.identity rule = k)).map (excerptOf o) := by
    intro o ls hls
    rw [List.filter_map]
    refine congrArg _ (List.filter_congr fun l hl => ?_)
    rw [Function.comp_apply,
      identity_head_excerptOf ((hls l hl).elim (has l.head) (hbs l.head))]
  unfold excerptsOf
  rw [List.filter_append, List.filter_append,
    hpart _ _ fun l hl => .inl (head_mem_of_leads (h.onlyA l hl)),
    hpart _ _ fun l hl => .inr (head_mem_of_leads (h.onlyB l hl)),
    hpart _ _ fun l hl => .inr (head_mem_of_leads (h.changedB l hl))]
  rfl

/-- An excerpt concerns the class of its head only. -/
theorem Excerpt.concernsOnly (hx : x.head.element.kind =
    rule x.head.element.ns x.head.element.name) :
    ConcernsOnly Excerpt.Placed x fun b => b.identity rule = x.head.identity rule := by
  intro ts us h hus
  obtain ⟨above, copy⟩ := x
  -- what is the same node as the uppermost ancestor is in the class
  have hnone : ∀ {y : Branch} {rest : List Branch}, above = y :: rest → ∀ ds : List Branch,
      (∀ d ∈ ds.filter fun b => decide (b.identity rule = y.identity rule),
        y.entry.matchesEntry d.entry = false) →
      ∀ d ∈ ds, y.entry.matchesEntry d.entry = false := by
    rintro y rest rfl ds hds d hd
    by_contra hc
    have hc := Bool.eq_true_of_not_eq_false hc
    have hk := (Entry.identity_eq_of_matches (x := y.entry) (y := d.entry) hx hc).symm
    rw [hds d (List.mem_filter.2 ⟨hd, decide_eq_true hk⟩)] at hc
    cases hc
  unfold Excerpt.Placed at h ⊢
  generalize hpart : ts.filter (fun b => decide (b.identity rule =
    (Excerpt.mk above copy).head.identity rule)) = part at h
  cases h with
  | here =>
    subst hpart
    exact ⟨_, .here, filter_concat (hus copy (by simp))⟩
  | @found y rest _ pre c post cs hc hpre hcs =>
    obtain ⟨pre', post', rfl, rfl, rfl⟩ := exists_split_of_filter hpart
    have hck := (Entry.identity_eq_of_matches (x := y.entry) (y := c.entry) hx hc).symm
    have hmiddle := filter_middle pre' post' [.mk c.id c.element cs]
      (p := fun b => decide (b.identity rule = y.identity rule)) (decide_eq_true hck)
      fun d hd => by
        rw [List.mem_singleton.1 hd]
        exact hus _ (by simp)
    simp only [List.append_assoc, List.singleton_append] at hmiddle
    exact ⟨_, .found hc (hnone rfl pre' hpre) hcs, hmiddle⟩
  | @made y rest _ _ cs hts hcs =>
    subst hpart
    exact ⟨_, .made (hnone rfl ts hts) hcs, filter_concat (hus _ (by simp))⟩

/-! ## Entries that differ below their tops -/

/-- What taking over the excerpts of two sides has to achieve, starting from the keys of `c`. -/
def Editable (s : Schema) (a b c : Branch) : Prop :=
  ∃ es zs, Run Excerpt.Placed (excerptsOf (a.listings b)) c.keysOnly.bare.children es ∧
    Steps .merge es (a.children.map bare) zs ∧ AgreesAll zs b.children ∧
    Kinds s (s.rule (some a.element.kind)) zs

/-- No excerpt of two branches whose tops are the same node hides a key of either. -/
theorem harmless_of_matches (hkind : a.element.kind = b.element.kind)
    (hsame : a.entry.matchesEntry b.entry = true) (hc : c = a ∨ c = b) :
    Harmless c (excerptsOf (a.listings b)) := by
  have hmember : ∀ {d e : Branch}, e ∈ d.children →
      (d.entry.member? e.element.name).isSome = true := by
    intro d e he
    rw [Entry.member?, List.find?_isSome]
    exact ⟨e.element, List.mem_map_of_mem he, by simp⟩
  rw [listings_eq]
  intro x hx hkey
  obtain ⟨o, l, rfl, hl⟩ := exists_of_mem_excerptsOf (within_listingsAll _ _) hx
  rw [← (Element.alike_iff.1 (alike_head_excerptOf o l).1).1] at hkey ⊢
  have hboth : (a.entry.member? l.head.element.name).isSome =
      (b.entry.member? l.head.element.name).isSome := by
    refine Entry.isSome_member?_of_matches hsame (List.contains_iff_mem.1 ?_)
    rcases hc with rfl | rfl
    · exact hkey
    · show (a.element.kind.keys.contains l.head.element.name) = true
      rw [hkind]; exact hkey
  have hone : (a.entry.member? l.head.element.name).isSome = true := by
    rcases hl with hl | hl
    · exact hmember hl
    · rw [hboth]; exact hmember hl
  rcases hc with rfl | rfl
  · exact hone
  · rw [← hboth]; exact hone

/-- No excerpt of two sides hides a key of either. -/
theorem Sides.harmless (h : Sides s a b) (hc : c = a ∨ c = b) :
    Harmless c (excerptsOf (a.listings b)) :=
  harmless_of_matches h.kind h.same hc

/-- The excerpts seen from the parents of the tops, the first side's in front. -/
theorem excerptsOf_below (y : Listings) : excerptsOf (y.below a b) =
    (y.onlyA.map (excerptOf .delete)).map (Excerpt.below a) ++
      (y.onlyB.map (excerptOf .create) ++ y.changedB.map (excerptOf .replace)).map
        (Excerpt.below b) := by
  unfold excerptsOf Listings.below
  simp only [List.map_map, List.map_append, List.append_assoc]
  rfl

/-- A skeleton of either of two branches whose tops are the same node is the same node as the first
one. -/
theorem matches_of_skeleton (hkind : a.element.kind = b.element.kind)
    (hsame : a.entry.matchesEntry b.entry = true) (hc : c = a ∨ c = b) (hts : Skeleton c ts) :
    (Branch.mk 0 c.element ts).entry.matchesEntry a.entry = true := by
  have hside : a.element.kind = c.element.kind ∧ a.entry.matchesEntry c.entry = true := by
    rcases hc with rfl | rfl
    · exact ⟨rfl, Entry.matches_refl _⟩
    · exact ⟨hkind, hsame⟩
  exact Entry.matches_symm (x := a.entry) (y := (Branch.mk 0 c.element ts).entry) hside.1
    (hts.keysLike.matches hside.1 hside.2)

/-- Excerpts below a node that both sides have first make a skeleton of it, from one of the sides,
and then do to its children what they do below the node. -/
theorem Sides.exists_runWithin_below {P : Branch → Prop} (h : Sides s a b)
    (hne : excerptsOf (a.listings b) ≠ [])
    (hP : ∀ c, c = a ∨ c = b → ∀ ts, Skeleton c ts → P (.mk 0 c.element ts)) :
    ∃ c, (c = a ∨ c = b) ∧ ∀ es,
      Run Excerpt.Placed (excerptsOf (a.listings b)) c.keysOnly.bare.children es →
        Skeleton c es ∧ RunWithin Excerpt.Placed P (excerptsOf ((a.listings b).below a b)) []
          [.mk 0 c.element es] := by
  have hba : b.entry.matchesEntry a.entry = true := h.symm.same
  rw [excerptsOf_below]
  generalize hx : (a.listings b).onlyA.map (excerptOf .delete) = xs
  generalize hy : (a.listings b).onlyB.map (excerptOf .create) ++
    (a.listings b).changedB.map (excerptOf .replace) = ys
  have hall : excerptsOf (a.listings b) = xs ++ ys := by
    rw [← hx, ← hy, excerptsOf, List.append_assoc]
  have hharmless := fun c (hc : c = a ∨ c = b) => h.harmless hc
  rw [hall] at hne hharmless ⊢
  cases xs with
  | nil =>
    refine ⟨b, .inr rfl, fun es hrun => ?_⟩
    have hskeleton := (skeleton_keysOnly b).run (hharmless b (.inr rfl)) hrun
    have hbelow := (skeleton_keysOnly b).runWithin_below (hharmless b (.inr rfl)) hrun rfl
      (Entry.matches_refl _) (hP b (.inr rfl))
    cases ys with
    | nil => exact absurd rfl hne
    | cons y ys => exact ⟨hskeleton, runWithin_of_skeleton hbelow⟩
  | cons x xs =>
    refine ⟨a, .inl rfl, fun es hrun => ?_⟩
    obtain ⟨ms, hfirst, hsecond⟩ := hrun.split
    have hfirstless : Harmless a (x :: xs) := fun z hz =>
      hharmless a (.inl rfl) z (List.mem_append_left _ hz)
    have hsecondless : Harmless a ys := fun z hz =>
      hharmless a (.inl rfl) z (List.mem_append_right _ hz)
    have hmiddle := (skeleton_keysOnly a).run hfirstless hfirst
    have hbelow := ((skeleton_keysOnly a).runWithin_below hfirstless hfirst rfl
      (Entry.matches_refl _) (hP a (.inl rfl))).append
      (hmiddle.runWithin_below hsecondless hsecond h.kind.symm hba (hP a (.inl rfl)))
    exact ⟨hmiddle.run hsecondless hsecond, runWithin_of_skeleton hbelow⟩

/-- A node with children that is no leaf is compared by what is below it. -/
theorem isComposite_mk {id : NodeId} {e : Element} (hleaf : e.kind ≠ .leaf) (hbs : bs ≠ []) :
    (Branch.mk id e bs).entry.isComposite = true := by
  unfold Entry.isComposite entry
  show (e.kind.isContainer || !e.kind.isLeaf && !(bs.map Branch.element).isEmpty) = true
  cases hk : e.kind with
  | container sch => rfl
  | leaf => exact absurd hk hleaf
  | plain => simpa [Kind.isContainer, Kind.isLeaf] using hbs

/-- A node that both sides have is changed below its top. -/
theorem edited_descend (h : Sides s a b)
    (ha : a.element.kind = rule a.element.ns a.element.name) (hk : a.identity rule = k)
    (hne : excerptsOf (a.listings b) ≠ []) (hinner : ∀ c, c = a ∨ c = b → Editable s a b c) :
    Edited s rule k (excerptsOf ((a.listings b).below a b)) [] [a.bare] [b] := by
  have hleaf : a.element.kind ≠ .leaf := by
    intro hleaf
    refine hne ?_
    rw [listings_eq, (all_iff.1 h.keyedA).1.leaf hleaf,
      (all_iff.1 h.keyedB).1.leaf (h.kind ▸ hleaf), listingsAll_nil_left]
    rfl
  have hkind : ∀ c, c = a ∨ c = b → c.element.kind = rule c.element.ns c.element.name ∧
      c.identity rule = k ∧ c.element.kind = a.element.kind ∧ c.element.markText? = none := by
    rintro c (rfl | rfl)
    · exact ⟨ha, hk, rfl, (all_iff.1 h.unmarkedA).1⟩
    · exact ⟨h.kind_right ha, (h.identity_right ha).trans hk, h.kind.symm,
        (all_iff.1 h.unmarkedB).1⟩
  obtain ⟨c, hc, hbelow⟩ := h.exists_runWithin_below (P := fun b => b.identity rule = k) hne
    fun c hc ts hts => (hts.keysLike.identity (hkind c hc).1).trans (hkind c hc).2.1
  obtain ⟨es, zs, hrun, hsteps, hagree, hzs⟩ := hinner c hc
  obtain ⟨hskeleton, hwithin⟩ := hbelow es hrun
  obtain ⟨hck, -, hckind, hmark⟩ := hkind c hc
  exact ⟨_, hwithin, h.turns_descend ha hk hleaf hck (operationOf_unmarked hmark _)
    (isComposite_mk (hckind ▸ hleaf) (ne_nil_of_run hrun hne))
    (matches_of_skeleton h.kind h.same hc hskeleton)
    hsteps hagree hzs⟩

end Edit

end Netconf
