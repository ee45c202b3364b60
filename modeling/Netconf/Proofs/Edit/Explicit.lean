import Netconf.Edit.Between
import Netconf.Proofs.Edit.Classwise
import Netconf.Proofs.Edit.Documents

/-!
# Explicit edits

The explicit edit between two configurations, applied to the first, makes it agree with the second
(`agrees_explicitEdit`). The edit nodes are found class by class and put together
(`Sides.editable`), by induction on the first side.
-/

namespace Netconf

open Branch

namespace Edit

variable {s : Schema} {rule : KindRule} {k : Identity} {a b c x y : Branch}

/-! ## Each class on its own -/

/-- Where nothing is taken over, nothing is listed. -/
theorem listings_of_excerptsOf (h : excerptsOf (a.listings b) = []) : a.listings b = {} := by
  have hlength := length_changed a.children b.children
  rw [← listings_eq] at hlength
  generalize a.listings b = y at h hlength ⊢
  obtain ⟨onlyA, onlyB, changedA, changedB⟩ := y
  unfold excerptsOf at h
  simp only [List.append_eq_nil_iff, List.map_eq_nil_iff] at h
  obtain ⟨⟨rfl, rfl⟩, rfl⟩ := h
  obtain rfl : changedA = [] := List.length_eq_zero_iff.1 hlength
  rfl

/-- The keys of a class among the children of a copy with keys only. -/
theorem filter_keysOnly (rule : KindRule) (k : Identity) (c : Branch) :
    (c.keysOnly.bare.children.filter fun d => d.identity rule = k) =
      ((c.children.filter fun d => d.identity rule = k).filter fun d =>
        c.element.hasKey d.element.name).map bare := by
  rw [children_bare, filter_identity_bare, children_keysOnly, List.filter_comm]

/-- A node that both sides have, in a class of its own on each side. -/
theorem Sides.edited_pair (h : Sides s a b) {z : Branch} (hx : x ∈ a.children)
    (hxk : x.identity (s.rule (some a.element.kind)) = k)
    (hyk : (b.children.filter fun d => d.identity (s.rule (some a.element.kind)) = k) = [y])
    (hz : z = x ∨ z = y)
    (hinner : Sides s x y → ∀ c, c = x ∨ c = y → Editable s x y c) :
    Edited s (s.rule (some a.element.kind)) k (excerptsOf (listingsAll [x] [y]))
      (([z].filter fun d => a.element.hasKey d.element.name).map bare) [x.bare] [y] := by
  have hymem : y ∈ b.children.filter fun d =>
      decide (d.identity (s.rule (some a.element.kind)) = k) := by rw [hyk]; simp
  obtain ⟨hy, hyid⟩ := List.mem_filter.1 hymem
  have hyid : y.identity (s.rule (some a.element.kind)) = k := of_decide_eq_true hyid
  have hxkind := h.kindsA x hx
  have hykind := h.kindsB y hy
  have hkind : x.element.kind = y.element.kind :=
    Entry.kind_eq_of_identity_eq (x := x.entry) (y := y.entry) hxkind hykind (hxk.trans hyid.symm)
  have hxname : x.element.name = y.element.name := congrArg Identity.name (hxk.trans hyid.symm)
  have hykeyed := (all_iff.1 h.keyedB).2 y hy
  have hyunmarked := (all_iff.1 h.unmarkedB).2 y hy
  have hydescribed := (all_iff.1 h.describedB).2 y hy
  have hxdescribed := (all_iff.1 h.describedA).2 x hx
  have hkinds : Kinds s (s.rule (some a.element.kind)) [x.bare] := by
    intro d hd
    rw [List.mem_singleton.1 hd, element_bare]
    exact ⟨hxkind, described_bare.2 hxdescribed⟩
  have hzname : z.element.name = x.element.name := by
    rcases hz with rfl | rfl
    · rfl
    · exact hxname.symm
  by_cases hkey : a.element.hasKey x.element.name = true
  · -- a key, the same on both sides
    subst hxk
    obtain ⟨hxy, hxs, hys, hcontainer⟩ := h.agrees_key hx hkey hyk
    have hagrees : x.Agrees y := agrees_iff.2 ⟨hxy, by rw [hxs, hys]; rfl⟩
    have hcompare := compare_of_agrees hkind (all_iff.1 hykeyed).1 hagrees
    have hmatch := Entry.matches_of_compare hcompare
    have hxcomp := isComposite_of_childless hcontainer hxs
    have hycomp := isComposite_of_childless (hkind ▸ hcontainer) hys
    rw [listingsAll_pair hmatch, hcompare, listingsOfPair, if_neg (by decide),
      if_neg (by rw [hxcomp, hycomp]; decide),
      List.filter_cons_of_pos (by rw [hzname]; exact hkey)]
    refine ⟨_, .nil, ?_⟩
    rcases hz with rfl | rfl
    · exact turns_take hxkind rfl hcontainer hxs hys (Element.sameName_iff.2 ⟨rfl, rfl⟩) hxy rfl hxs
        (all_iff.1 ((all_iff.1 h.unmarkedA).2 z hx)).1
    · exact turns_take hxkind rfl hcontainer hxs hys
        (Entry.sameName_of_identity_eq (x := z.entry) (y := x.entry) hyid)
        (Element.alike_refl _) hkind.symm hys (all_iff.1 hyunmarked).1
  · rw [List.filter_cons_of_neg (by rw [hzname]; exact hkey)]
    cases hmatch : x.entry.matchesEntry y.entry with
    | false =>
      rw [listingsAll_strangers hmatch]
      exact edited_strangers hxkind hykind hxk hyid hydescribed hyunmarked
    | true =>
      have hsides := h.child hx hy hmatch
      rw [listingsAll_pair hmatch]
      cases hcompare : x.entry.compare y.entry with
      | different =>
        unfold Entry.matchesEntry at hmatch
        rw [hcompare] at hmatch
        cases hmatch
      | changed => exact edited_replace hykind hyid hydescribed hyunmarked hsides.symm.same
      | equal =>
        rw [listingsOfPair, if_neg (by decide)]
        split
        · by_cases hnone : excerptsOf (x.listings y) = []
          · rw [listings_of_excerptsOf hnone]
            exact edited_nothing (agreesAll_bare (agrees_of_listings
              (childlessLeaves_of_wellKeyed hsides.keyedA)
              (childlessLeaves_of_wellKeyed hsides.keyedB) hcompare
              (listings_of_excerptsOf hnone))) hkinds
          · exact edited_descend hsides hxkind hxk hnone (hinner hsides)
        · next hcomp =>
          rw [Bool.or_eq_true, not_or, Bool.not_eq_true, Bool.not_eq_true] at hcomp
          have hxs := children_of_not_composite (all_iff.1 hsides.keyedA).1.leaf hcomp.1
          have hys := children_of_not_composite (all_iff.1 hsides.keyedB).1.leaf hcomp.2
          exact edited_nothing (agreesAll_bare (agrees_iff.2
            ⟨alike_of_compare hcompare, by rw [hxs, hys]; rfl⟩)) hkinds

/-- What an edit does to each class of the children of two sides. -/
theorem Sides.edited_class (h : Sides s a b) (hc : c = a ∨ c = b)
    (hinner : ∀ x ∈ a.children, ∀ y, Sides s x y → ∀ c, c = x ∨ c = y → Editable s x y c)
    (k : Identity) :
    Edited s (s.rule (some a.element.kind)) k
      (excerptsOf ((a.listings b).part (identity (s.rule (some a.element.kind))) k))
      (c.keysOnly.bare.children.filter fun d => d.identity (s.rule (some a.element.kind)) = k)
      ((a.children.map bare).filter fun d => d.identity (s.rule (some a.element.kind)) = k)
      (b.children.filter fun d => d.identity (s.rule (some a.element.kind)) = k) := by
  have hkey : ∀ d : Branch, c.element.hasKey d.element.name = a.element.hasKey d.element.name := by
    intro d
    rcases hc with rfl | rfl
    · rfl
    · exact h.hasKey_eq _
  rw [listings_eq, part_listingsAll h.kindsA, filter_keysOnly, filter_identity_bare]
  simp only [hkey]
  rcases filter_identity_cases ((all_iff.1 h.keyedA).1.pairwise_identity h.kindsA) k with
    hA | ⟨x, hx, hxk, hA⟩
  · rcases filter_identity_cases ((all_iff.1 h.keyedB).1.pairwise_identity h.kindsB) k with
      hB | ⟨y, hy, hyk, hB⟩
    · have hC : (c.children.filter fun d =>
          d.identity (s.rule (some a.element.kind)) = k) = [] := by
        rcases hc with rfl | rfl
        · exact hA
        · exact hB
      rw [hA, hB, hC, listingsAll_nil_left]
      exact edited_nothing rfl fun _ hd => nomatch hd
    · -- only on the second side, and so no key
      have hyno : a.element.hasKey y.element.name = false := by
        rw [← h.hasKey_eq]
        exact h.hasKey_right hy (hyk ▸ hA)
      have hC : ((c.children.filter fun d => d.identity (s.rule (some a.element.kind)) = k).filter
          fun d => a.element.hasKey d.element.name) = [] := by
        rcases hc with rfl | rfl
        · rw [hA]; rfl
        · rw [hB]
          exact List.filter_eq_nil_iff.2 (by simpa using hyno)
      rw [hA, hB, hC, listingsAll_nil_left]
      exact edited_create (h.kindsB y hy) hyk ((all_iff.1 h.describedB).2 y hy)
        ((all_iff.1 h.unmarkedB).2 y hy)
  · rcases filter_identity_cases ((all_iff.1 h.keyedB).1.pairwise_identity h.kindsB) k with
      hB | ⟨y, hy, hyk, hB⟩
    · -- only on the first side, and so no key
      have hxno : a.element.hasKey x.element.name = false := h.hasKey_left hx (hxk ▸ hB)
      have hC : ((c.children.filter fun d => d.identity (s.rule (some a.element.kind)) = k).filter
          fun d => a.element.hasKey d.element.name) = [] := by
        rcases hc with rfl | rfl
        · rw [hA]
          exact List.filter_eq_nil_iff.2 (by simpa using hxno)
        · rw [hB]; rfl
      rw [hA, hB, hC, listingsAll_nil_right]
      exact edited_delete (h.kindsA x hx) hxk
    · rw [hA, hB]
      rcases hc with rfl | rfl
      · rw [hA]
        exact h.edited_pair hx hxk hB (.inl rfl) (hinner x hx y)
      · rw [hB]
        exact h.edited_pair hx hxk hB (.inr rfl) (hinner x hx y)

/-! ## All classes together -/

/-- What is done to the classes of some branches may be done to all of them together. -/
theorem exists_of_edited {xs : List Excerpt} {start ts bs : List Branch}
    (hxs : ∀ x ∈ xs, x.head.element.kind = rule x.head.element.ns x.head.element.name)
    (h : ∀ k, Edited s rule k (xs.filter fun x => x.head.identity rule = k)
      (start.filter fun d => d.identity rule = k) (ts.filter fun d => d.identity rule = k)
      (bs.filter fun d => d.identity rule = k)) :
    ∃ es zs, Run Excerpt.Placed xs start es ∧ Steps .merge es ts zs ∧ AgreesAll zs bs ∧
      Kinds s rule zs := by
  choose es hes hturns using h
  obtain ⟨n, hn, hparts⟩ := Run.exists_of_parts (identity rule) (fun x => x.head.identity rule)
    (fun x hx => Excerpt.concernsOnly (hxs x hx)) hes
  have hall : ∀ k, Turns s rule k (n.filter fun d => d.identity rule = k)
      (ts.filter fun d => d.identity rule = k) (bs.filter fun d => d.identity rule = k) := by
    intro k
    rw [hparts]
    exact hturns k
  obtain ⟨zs, hrest⟩ := exists_of_turns hall
  exact ⟨n, zs, hn, hrest⟩

/-- Taking over the excerpts of two sides yields edit nodes that turn the first into the second. -/
theorem Sides.editable (h : Sides s a b) (hc : c = a ∨ c = b) : Editable s a b c := by
  induction a using induction generalizing b c with
  | step id e as ih =>
    refine exists_of_edited (fun x hx => ?_) fun k => ?_
    · rw [listings_eq] at hx
      obtain ⟨o, l, rfl, hl⟩ := exists_of_mem_excerptsOf (within_listingsAll _ _) hx
      exact kind_head_excerptOf (hl.elim (h.kindsA l.head) (h.kindsB l.head))
    · rw [listings_eq, filter_excerptsOf (within_listingsAll _ _) h.kindsA h.kindsB, ← listings_eq]
      exact h.edited_class hc (fun x hx y hxy c hc => ih x hx hxy hc) k

/-! ## From the root on -/

/-- A copy with keys only, as a top and its children. -/
theorem bare_keysOnly (c : Branch) :
    c.keysOnly.bare = .mk 0 c.element c.keysOnly.bare.children := by
  cases c
  rfl

/-- Excerpts below the top make of a skeleton of it what they make of its children. -/
theorem Skeleton.grown {top : Branch} {xs : List Excerpt} {ts us : List Branch}
    (h : Skeleton c ts) (hxs : Harmless c xs) (hrun : Run Excerpt.Placed xs ts us)
    (hkind : top.element.kind = c.element.kind)
    (htop : top.entry.matchesEntry c.entry = true) :
    Grown top xs (some (.mk 0 c.element ts)) (some (.mk 0 c.element us)) := by
  induction hrun with
  | nil => exact .nil
  | cons hx _ ih =>
    exact .cons (h.keysLike.matches hkind htop) hx
      (ih (h.placed hx (hxs _ (by simp))) fun y hy => hxs y (by simp [hy]))

/-- The first excerpt makes the root: the top with its keys. -/
theorem Grown.of_keysOnly {top : Branch} {x : Excerpt} {xs : List Excerpt} {root : Option Branch}
    (h : Grown top (x :: xs) (some top.keysOnly.bare) root) : Grown top (x :: xs) none root := by
  cases h with
  | cons hroot hx hxs => exact .cons hroot hx hxs

/-- The edit that taking over listed nodes makes, when they do not hide the keys of either side.
There is none when there is nothing to take over. Otherwise it is a skeleton of one side: of the
first if something is deleted. -/
theorem exists_grown {y : Listings} (hkind : a.element.kind = b.element.kind)
    (hsame : a.entry.matchesEntry b.entry = true)
    (hharmless : ∀ c, c = a ∨ c = b → Harmless c (excerptsOf y)) {P : Branch → List Branch → Prop}
    (hruns : ∀ c, c = a ∨ c = b → ∃ es,
      Run Excerpt.Placed (excerptsOf y) c.keysOnly.bare.children es ∧ P c es) :
    ∃ root₁ root₂ root,
      Grown a (y.onlyA.map (excerptOf .delete)) none root₁ ∧
      Grown b (y.onlyB.map (excerptOf .create)) root₁ root₂ ∧
      Grown b (y.changedB.map (excerptOf .replace)) root₂ root ∧
      (root = none ∧ excerptsOf y = [] ∨
        ∃ c es, c = (if y.onlyA.isEmpty then b else a) ∧ root = some (.mk 0 c.element es) ∧
          Skeleton c es ∧ P c es) := by
  have hba : b.entry.matchesEntry a.entry = true :=
    Entry.matches_symm (x := a.entry) (y := b.entry) hkind hsame
  have hdeleted : (y.onlyA.map (excerptOf .delete)).isEmpty = y.onlyA.isEmpty := List.isEmpty_map
  unfold excerptsOf at hharmless hruns ⊢
  rw [← hdeleted]
  generalize y.onlyA.map (excerptOf .delete) = xs at *
  generalize y.onlyB.map (excerptOf .create) = ys at *
  generalize y.changedB.map (excerptOf .replace) = zs at *
  -- the side that the root is made of, and the runs that make its children
  have hruns : ∀ c, c = a ∨ c = b → ∃ es₁ es₂ es,
      Run Excerpt.Placed xs c.keysOnly.bare.children es₁ ∧
      Run Excerpt.Placed ys es₁ es₂ ∧ Run Excerpt.Placed zs es₂ es ∧ Skeleton c es₁ ∧
      Skeleton c es₂ ∧ Harmless c xs ∧ Harmless c ys ∧ Harmless c zs ∧ Skeleton c es ∧
      P c es := by
    intro c hc
    obtain ⟨es, hrun, hP⟩ := hruns c hc
    obtain ⟨es₂, hxy, hz⟩ := hrun.split
    obtain ⟨es₁, hx, hy⟩ := hxy.split
    have hxless : Harmless c xs := fun x hx => hharmless c hc x (by simp [hx])
    have hyless : Harmless c ys := fun x hx => hharmless c hc x (by simp [hx])
    have hzless : Harmless c zs := fun x hx => hharmless c hc x (by simp [hx])
    have h₁ := (skeleton_keysOnly c).run hxless hx
    have h₂ := h₁.run hyless hy
    exact ⟨es₁, es₂, es, hx, hy, hz, h₁, h₂, hxless, hyless, hzless, h₂.run hzless hz, hP⟩
  have hself := fun c : Branch => Entry.matches_refl c.entry
  cases xs with
  | cons x xs =>
    obtain ⟨es₁, es₂, es, hx, hy, hz, h₁, h₂, hxless, hyless, hzless, hes, hP⟩ :=
      hruns a (.inl rfl)
    have hfirst := (skeleton_keysOnly a).grown hxless hx rfl (hself a)
    rw [← bare_keysOnly] at hfirst
    exact ⟨_, _, _, hfirst.of_keysOnly, h₁.grown hyless hy hkind.symm hba,
      h₂.grown hzless hz hkind.symm hba, .inr ⟨a, es, rfl, rfl, hes, hP⟩⟩
  | nil =>
    obtain ⟨es₁, es₂, es, hx, hy, hz, h₁, h₂, -, hyless, hzless, hes, hP⟩ :=
      hruns b (.inr rfl)
    cases hx
    have hlast := h₂.grown hzless hz rfl (hself b)
    cases ys with
    | cons y ys =>
      have hfirst := h₁.grown hyless hy rfl (hself b)
      rw [← bare_keysOnly] at hfirst
      exact ⟨_, _, _, .nil, hfirst.of_keysOnly, hlast, .inr ⟨b, es, rfl, rfl, hes, hP⟩⟩
    | nil =>
      cases hy
      cases zs with
      | cons z zs =>
        rw [← bare_keysOnly] at hlast
        exact ⟨_, _, _, .nil, .nil, hlast.of_keysOnly, .inr ⟨b, es, rfl, rfl, hes, hP⟩⟩
      | nil => exact ⟨_, _, _, .nil, .nil, .nil, .inl ⟨rfl, rfl⟩⟩

end Edit

open Build Edit Netconf.Tree

/-- The explicit edit of two trees is the one that taking over the listed nodes makes. -/
theorem Tree.Forest.exists_explicitEdit {ta tb : Tree} {p q : NodeId} (ha : ta.Forest)
    (hb : tb.Forest) (hp : ta.parent? p = none) (hq : tb.parent? q = none)
    (hsame : (ta.branch p).entry.matchesEntry (tb.branch q).entry = true)
    {root₁ root₂ root : Option Branch}
    (hxs : Grown (ta.branch p)
      (((ta.branch p).listings (tb.branch q)).onlyA.map (excerptOf .delete)) none root₁)
    (hys : Grown (tb.branch q)
      (((ta.branch p).listings (tb.branch q)).onlyB.map (excerptOf .create)) root₁ root₂)
    (hzs : Grown (tb.branch q)
      (((ta.branch p).listings (tb.branch q)).changedB.map (excerptOf .replace)) root₂ root) :
    ∃ edit, ta.explicitEdit p tb q = .ok edit ∧
      (root = none ∧ edit = none ∨ ∃ t r, edit = some ⟨t, r⟩ ∧ t.Forest ∧
        root = some (t.branch r).bare) := by
  have hwithin := within_listingsAll (ta.branch p).children (tb.branch q).children
  rw [← listings_eq] at hwithin
  unfold explicitEdit Tree.diff
  rw [diff_eq_slots hsame]
  generalize (ta.branch p).listings (tb.branch q) = x at *
  have hmade : Ensures (do
      let root ← ta.excerptAll .delete x.slots.onlyA none
      let root ← tb.excerptAll .create x.slots.onlyB root
      tb.excerptAll .replace x.slots.changedB root) (.empty ta.defaults)
      (fun r t => t.Forest ∧ t.Rooted r root) fun _ => False := by
    refine (ensures_excerptAll ha (forest_empty _) hp hwithin.onlyA
      ⟨by simp, rfl⟩ hxs).bind fun r t₁ ⟨h₁, hr₁⟩ => ?_
    refine (ensures_excerptAll hb h₁ hq hwithin.onlyB hr₁ hys).bind
      fun r t₂ ⟨h₂, hr₂⟩ => ?_
    exact ensures_excerptAll hb h₂ hq hwithin.changedB hr₂ hzs
  obtain ⟨r, t, hok, hforest, -, hroot⟩ := hmade.exists_ok
  refine ⟨r.map fun r => ⟨t, r⟩, by dsimp only; rw [hok], ?_⟩
  cases r with
  | none => exact .inl ⟨hroot, rfl⟩
  | some r => exact .inr ⟨t, r, rfl, hforest, hroot⟩

namespace Document.Fit

variable {s : Schema} {d e : Document}

/-- The explicit edit is made without failing. -/
theorem exists_explicitEdit (hd : d.Fit s) (he : e.Fit s)
    (hsame : d.tree.compare d.root e.tree e.root ≠ .different) :
    ∃ edit, d.tree.explicitEdit d.root e.tree e.root = .ok edit ∧
      (edit = none ∧ (d.tree.branch d.root).listings (e.tree.branch e.root) = {} ∨
      ∃ t r c es, edit = some ⟨t, r⟩ ∧ t.Forest ∧
        (c = d.tree.branch d.root ∨ c = e.tree.branch e.root) ∧
        (t.branch r).bare = .mk 0 c.element es ∧ Skeleton c es ∧
        ∃ zs, Steps .merge es (d.tree.content d.root) zs ∧
          AgreesAll zs (e.tree.branch e.root).children ∧
          Kinds s (s.rule (some (d.tree.element d.root).kind)) zs) := by
  have hsides := hd.sides he hsame
  obtain ⟨root₁, root₂, root, hxs, hys, hzs, hend⟩ := exists_grown hsides.kind hsides.same
    (P := fun _ es => ∃ zs, Steps .merge es ((d.tree.branch d.root).children.map bare) zs ∧
      AgreesAll zs (e.tree.branch e.root).children ∧
      Kinds s (s.rule (some (d.tree.branch d.root).element.kind)) zs)
    (fun c hc => hsides.harmless hc) fun c hc => by
      obtain ⟨es, zs, hrun, hrest⟩ := hsides.editable hc
      exact ⟨es, hrun, zs, hrest⟩
  obtain ⟨edit, hedit, hmade⟩ :=
    hd.forest.exists_explicitEdit he.forest hd.parent? he.parent? hsides.same hxs hys hzs
  refine ⟨edit, hedit, ?_⟩
  rcases hend with ⟨rfl, hnone⟩ | ⟨c, es, hc, rfl, hskeleton, hrest⟩
  · rcases hmade with ⟨-, rfl⟩ | ⟨t, r, -, -, hsome⟩
    · exact .inl ⟨rfl, listings_of_excerptsOf hnone⟩
    · cases hsome
  · rcases hmade with ⟨hnone, -⟩ | ⟨t, r, rfl, hforest, hsome⟩
    · cases hnone
    rw [← hd.forest.content_eq, hd.forest.element_branch] at hrest
    have hside : c = d.tree.branch d.root ∨ c = e.tree.branch e.root := by
      rw [hc]
      split
      · exact .inr rfl
      · exact .inl rfl
    exact .inr ⟨t, r, c, es, rfl, hforest, hside, (Option.some.inj hsome).symm, hskeleton, hrest⟩

/-- The explicit edit is made without failing. There is none only when the documents agree already;
otherwise applying it to the first document succeeds and makes it agree with the second. -/
theorem explicitEdit_turns (hd : d.Fit s) (he : e.Fit s)
    (hleaf : (d.tree.element d.root).kind ≠ .leaf)
    (hsame : d.tree.compare d.root e.tree e.root ≠ .different) :
    ∃ edit, d.tree.explicitEdit d.root e.tree e.root = .ok edit ∧
      (edit = none → (d.tree.branch d.root).Agrees (e.tree.branch e.root)) ∧
      ∀ i, edit = some i → ∃ t', Build.on d.tree (Edit.apply d.root i.tree i.root) = (.ok (), t') ∧
        (t'.branch d.root).Agrees (e.tree.branch e.root) ∧
        t'.agree d.root e.tree e.root = true := by
  have hsides := hd.sides he hsame
  obtain ⟨edit, hedit, hend⟩ := hd.exists_explicitEdit he hsame
  refine ⟨edit, hedit, ?_, ?_⟩
  · rintro rfl
    rcases hend with ⟨-, hnone⟩ | ⟨t, r, -, -, hsome, -⟩
    · have halike := Entry.alike_of_matches (x := (d.tree.branch d.root).entry)
        (by rw [hd.forest.entry_branch]; exact hleaf) hsides.same
      rw [listings_eq] at hnone
      exact agrees_iff.2 ⟨halike, agreesAll_of_listingsAll
        (all_iff.1 (childlessLeaves_of_wellKeyed hd.wellKeyed)).2
        (all_iff.1 (childlessLeaves_of_wellKeyed he.wellKeyed)).2 hnone⟩
    · cases hsome
  · rintro i rfl
    rcases hend with ⟨hnone, -⟩ | ⟨t, r, c, es, hsome, hforest, hc, hbranch, hskeleton, zs, hsteps,
      hagree, hzs⟩
    · cases hnone
    obtain rfl := Option.some.inj hsome
    have hmark : c.element.markText? = none := by
      rcases hc with rfl | rfl
      · exact (all_iff.1 hd.unmarked).1
      · exact (all_iff.1 he.unmarked).1
    have hmatches := matches_of_skeleton hsides.kind hsides.same hc hskeleton
    exact hd.exists_apply he hleaf hsame hforest hbranch hmark hmatches
      hsteps hagree hzs

/-- The edit for the three hosts brings about the hosts afterwards. -/
theorem explicitEdit_turns_hosts : ∃ i t',
    hostsBefore.tree.explicitEdit hostsBefore.root hostsAfter.tree hostsAfter.root = .ok (some i) ∧
      Build.on hostsBefore.tree (Edit.apply hostsBefore.root i.tree i.root) = (.ok (), t') ∧
      (t'.branch hostsBefore.root).Agrees (hostsAfter.tree.branch hostsAfter.root) ∧
      t'.agree hostsBefore.root hostsAfter.tree hostsAfter.root = true := by
  have hsome : ∃ edit, hostsBefore.tree.explicitEdit hostsBefore.root hostsAfter.tree
      hostsAfter.root = .ok edit ∧ edit.isSome = true := ⟨_, rfl, by decide +kernel⟩
  obtain ⟨edit, hedit, -, hturns⟩ := explicitEdit_turns fit_hostsBefore fit_hostsAfter
    (by decide +kernel) (by decide +kernel)
  obtain ⟨edit', hedit', hsome⟩ := hsome
  obtain rfl := Except.ok.inj (hedit.symm.trans hedit')
  obtain ⟨i, rfl⟩ := Option.isSome_iff_exists.1 hsome
  obtain ⟨t', hon, hagrees⟩ := hturns i rfl
  exact ⟨i, t', hedit, hon, hagrees⟩

end Document.Fit

end Netconf
