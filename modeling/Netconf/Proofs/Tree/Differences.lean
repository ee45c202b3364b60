import Netconf.Proofs.Tree.Identity
import Netconf.Tree.Difference

/-!
# The nodes that a difference lists

A difference names nodes by their slots. `Branch.listings` is the same recursion with the nodes
themselves and their ancestors, so that it can be followed without trees (`diff_eq_slots`). Where
identities are different, the listings fall apart into those of each class
(`part_listingsAll`). A difference that lists nothing means that the two sides agree
(`agreesAll_of_listingsAll`).
-/

namespace Netconf

/-- A node below the top of a branch, with its ancestors in between. -/
structure Listed where
  /-- The ancestors, the uppermost first. -/
  above : List Branch
  /-- The node. -/
  node : Branch

namespace Listed

/-- The uppermost of the node and its ancestors: a child of the top. -/
def head (l : Listed) : Branch := l.above.headD l.node

/-- The node seen from the parent of the top. -/
def below (b : Branch) (l : Listed) : Listed := ⟨b :: l.above, l.node⟩

end Listed

/-- The nodes that a difference lists. -/
structure Listings where
  /-- The nodes of the first side that have no partner. -/
  onlyA : List Listed := []
  /-- The nodes of the second side that have no partner. -/
  onlyB : List Listed := []
  /-- The entries of the first side whose content changed. -/
  changedA : List Listed := []
  /-- Their partners on the second side. -/
  changedB : List Listed := []

namespace Listings

/-- One list after the other. -/
def append (x y : Listings) : Listings :=
  ⟨x.onlyA ++ y.onlyA, x.onlyB ++ y.onlyB, x.changedA ++ y.changedA, x.changedB ++ y.changedB⟩

instance : Append Listings := ⟨append⟩

/-- The listed nodes seen from the parents of the two tops. -/
def below (a b : Branch) (x : Listings) : Listings :=
  ⟨x.onlyA.map (·.below a), x.onlyB.map (·.below b), x.changedA.map (·.below a),
    x.changedB.map (·.below b)⟩

/-- The listed nodes that are below a member of some class. -/
def part {κ : Type} [DecidableEq κ] (cls : Branch → κ) (k : κ) (x : Listings) : Listings :=
  ⟨x.onlyA.filter fun l => cls l.head = k, x.onlyB.filter fun l => cls l.head = k,
    x.changedA.filter fun l => cls l.head = k, x.changedB.filter fun l => cls l.head = k⟩

/-- The slots of the listed nodes. -/
def slots (x : Listings) : Difference :=
  ⟨x.onlyA.map (·.node.id), x.onlyB.map (·.node.id), x.changedA.map (·.node.id),
    x.changedB.map (·.node.id)⟩

/-- The parts of two lists, one after the other. -/
theorem append_def (x y : Listings) : x ++ y =
    ⟨x.onlyA ++ y.onlyA, x.onlyB ++ y.onlyB, x.changedA ++ y.changedA,
      x.changedB ++ y.changedB⟩ := rfl

/-- The slots of one list after the other. -/
theorem slots_append (x y : Listings) : (x ++ y).slots = x.slots ++ y.slots := by
  simp only [append_def, slots, List.map_append]
  rfl

/-- The part of one list after the other. -/
theorem part_append {κ : Type} [DecidableEq κ] (cls : Branch → κ) (k : κ) (x y : Listings) :
    (x ++ y).part cls k = x.part cls k ++ y.part cls k := by
  simp only [append_def, part, List.filter_append]

/-- Nothing is listed twice over only if nothing is listed either time. -/
theorem append_eq_empty {x y : Listings} : x ++ y = {} ↔ x = {} ∧ y = {} := by
  obtain ⟨a, b, c, d⟩ := x
  obtain ⟨a', b', c', d'⟩ := y
  simp only [append_def, mk.injEq, List.append_eq_nil_iff]
  constructor
  · rintro ⟨⟨h1, h1'⟩, ⟨h2, h2'⟩, ⟨h3, h3'⟩, h4, h4'⟩
    exact ⟨⟨h1, h2, h3, h4⟩, h1', h2', h3', h4'⟩
  · rintro ⟨⟨h1, h2, h3, h4⟩, h1', h2', h3', h4'⟩
    exact ⟨⟨h1, h1'⟩, ⟨h2, h2'⟩, ⟨h3, h3'⟩, h4, h4'⟩

/-- Nothing is listed below two tops only if nothing is listed. -/
theorem below_eq_empty {a b : Branch} {x : Listings} : x.below a b = {} ↔ x = {} := by
  obtain ⟨a, b, c, d⟩ := x
  simp [below]

/-- No slot is listed when nothing is. -/
theorem isEmpty_slots {x : Listings} : x.slots.isEmpty = true ↔ x = {} := by
  obtain ⟨a, b, c, d⟩ := x
  simp [slots, Difference.isEmpty, and_assoc]

/-- Nothing is listed when nothing is listed of any class. -/
theorem eq_empty_of_part {κ : Type} [DecidableEq κ] (cls : Branch → κ) {x : Listings}
    (h : ∀ k, x.part cls k = {}) : x = {} := by
  have hnil : ∀ ls : List Listed, (∀ k, ls.filter (fun l => decide (cls l.head = k)) = []) →
      ls = [] := by
    intro ls hls
    by_contra hne
    obtain ⟨l, hl⟩ := List.exists_mem_of_ne_nil _ hne
    exact List.filter_eq_nil_iff.1 (hls (cls l.head)) l hl (by simp)
  obtain ⟨a, b, c, d⟩ := x
  simp only [part, mk.injEq] at h ⊢
  exact ⟨hnil a fun k => (h k).1, hnil b fun k => (h k).2.1, hnil c fun k => (h k).2.2.1,
    hnil d fun k => (h k).2.2.2⟩

/-- The slots are those of the nodes, wherever they are seen from. -/
theorem slots_below (a b : Branch) (x : Listings) : (x.below a b).slots = x.slots := by
  simp only [slots, below, List.map_map]
  rfl

end Listings

/-! ## Listings of branches -/

/-- What is taken out is the first element that has a result. -/
theorem takeFirst_eq_some {α β : Type} {f : α → Option β} {l others : List α} {x : α} {y : β}
    (h : takeFirst f l = some (x, y, others)) :
    ∃ pre post, l = pre ++ x :: post ∧ others = pre ++ post ∧ f x = some y ∧
      ∀ z ∈ pre, f z = none := by
  induction l generalizing others with
  | nil => cases h
  | cons z l ih =>
    unfold takeFirst at h
    split at h
    · next w hw =>
      cases h
      exact ⟨[], l, rfl, rfl, hw, by simp⟩
    · next hz =>
      obtain ⟨⟨x', y', rest⟩, hr, heq⟩ := Option.map_eq_some_iff.1 h
      simp only [Prod.mk.injEq] at heq
      obtain ⟨rfl, rfl, rfl⟩ := heq
      obtain ⟨pre, post, rfl, rfl, hx, hpre⟩ := ih hr
      refine ⟨z :: pre, post, rfl, rfl, hx, fun w hw => ?_⟩
      rcases List.mem_cons.1 hw with rfl | hw
      · exact hz
      · exact hpre w hw

/-- Nothing is taken out when no element has a result. -/
theorem takeFirst_eq_none {α β : Type} {f : α → Option β} {l : List α} :
    takeFirst f l = none ↔ ∀ x ∈ l, f x = none := by
  induction l with
  | nil => simp [takeFirst]
  | cons x l ih =>
    unfold takeFirst
    cases hx : f x with
    | none => simp [hx, ih]
    | some y => simp [hx]

/-- What is taken out, from its place. -/
theorem takeFirst_of_split {α β : Type} {f : α → Option β} {x : α} {y : β} (pre post : List α)
    (hx : f x = some y) (hpre : ∀ z ∈ pre, f z = none) :
    takeFirst f (pre ++ x :: post) = some (x, y, pre ++ post) := by
  induction pre with
  | nil => simp [takeFirst, hx]
  | cons z pre ih =>
    rw [List.cons_append, takeFirst, hpre z (by simp), ih fun w hw => hpre w (by simp [hw])]
    rfl

namespace Branch

mutual

/-- The nodes that the difference of two branches lists, when they are the same node. -/
def listings : Branch → Branch → Listings
  | .mk _ _ as, b => listingsAll as b.children

/-- The nodes that the difference of the children of two nodes lists. -/
def listingsAll : List Branch → List Branch → Listings
  | [], bs => { onlyB := bs.map fun b => ⟨[], b⟩ }
  | a :: as, bs =>
    match takeFirst (partner? a) bs with
    | none => { onlyA := [⟨[], a⟩] } ++ listingsAll as bs
    | some (b, .changed, others) =>
      { changedA := [⟨[], a⟩], changedB := [⟨[], b⟩] } ++ listingsAll as others
    | some (b, _, others) =>
      (if a.entry.isComposite || b.entry.isComposite then (a.listings b).below a b else {})
        ++ listingsAll as others

end

variable {a b : Branch} {as bs : List Branch}

/-- The listings of two branches are those of their children. -/
theorem listings_eq (a b : Branch) : a.listings b = listingsAll a.children b.children := by
  cases a
  rw [listings, children]

/-- Partners are the same node. -/
theorem partner?_eq_some {c : Likeness} :
    a.partner? b = some c ↔ a.entry.compare b.entry = c ∧ a.entry.matchesEntry b.entry = true := by
  unfold partner? Entry.matchesEntry
  cases a.entry.compare b.entry <;> cases c <;> simp

/-- Nodes are no partners when they are not the same. -/
theorem partner?_eq_none : a.partner? b = none ↔ a.entry.matchesEntry b.entry = false := by
  unfold partner? Entry.matchesEntry
  cases a.entry.compare b.entry <;> simp

/-- Without nodes on the first side, those of the second side are listed. -/
theorem listingsAll_nil_left (bs : List Branch) :
    listingsAll [] bs = { onlyB := bs.map fun b => ⟨[], b⟩ } := by
  rw [listingsAll]

/-- Without nodes on the second side, those of the first side are listed. -/
theorem listingsAll_nil_right (as : List Branch) :
    listingsAll as [] = { onlyA := as.map fun a => ⟨[], a⟩ } := by
  induction as with
  | nil => rw [listingsAll]; rfl
  | cons a as ih =>
    rw [listingsAll, takeFirst, ih]
    rfl

/-- A node either has no partner, or its partner is the first that is the same node, changed or
equal. -/
theorem partner_cases (a : Branch) (bs : List Branch) :
    (takeFirst (partner? a) bs = none ∧ ∀ b ∈ bs, a.entry.matchesEntry b.entry = false) ∨
      ∃ pre b post c, bs = pre ++ b :: post ∧
        takeFirst (partner? a) bs = some (b, c, pre ++ post) ∧
        (∀ d ∈ pre, a.entry.matchesEntry d.entry = false) ∧
        a.entry.matchesEntry b.entry = true ∧ a.entry.compare b.entry = c ∧
        (c = .changed ∨ c = .equal) := by
  cases h : takeFirst (partner? a) bs with
  | none => exact .inl ⟨rfl, fun b hb => partner?_eq_none.1 (takeFirst_eq_none.1 h b hb)⟩
  | some r =>
    obtain ⟨b, c, others⟩ := r
    obtain ⟨pre, post, rfl, rfl, hab, hpre⟩ := takeFirst_eq_some h
    obtain ⟨hcompare, hmatch⟩ := partner?_eq_some.1 hab
    refine .inr ⟨pre, b, post, c, rfl, rfl, fun d hd => partner?_eq_none.1 (hpre d hd), hmatch,
      hcompare, ?_⟩
    cases c with
    | different => exact absurd hcompare (bne_iff_ne.1 hmatch)
    | changed => exact .inl rfl
    | equal => exact .inr rfl

/-- A difference lists the slots of the listed nodes, also where one side has no children. -/
theorem diff_eq_slots_of_diffAll
    (hall : diffAll a.children b.children = (listingsAll a.children b.children).slots)
    (h : a.entry.matchesEntry b.entry = true) : a.diff b = (a.listings b).slots := by
  have hsame : a.entry.compare b.entry ≠ .different := bne_iff_ne.1 h
  rw [listings_eq]
  cases a with
  | mk id e as =>
    rw [diff, if_neg hsame]
    split
    · next hempty =>
      rcases Bool.or_eq_true_iff.1 hempty with h | h
      · rw [children, List.isEmpty_iff.1 h, listingsAll_nil_left]
        simp [Listings.slots, Function.comp_def]
      · rw [List.isEmpty_iff.1 h, listingsAll_nil_right]
        simp [Listings.slots, Function.comp_def, children]
    · exact hall

/-- The difference of lists of branches lists the slots of the listed nodes. -/
theorem diffAll_eq_slots (as bs : List Branch) : diffAll as bs = (listingsAll as bs).slots := by
  refine (mutualInduction
    (P := fun a => ∀ b : Branch, a.entry.matchesEntry b.entry = true →
      a.diff b = (a.listings b).slots)
    (Q := fun as => ∀ bs, diffAll as bs = (listingsAll as bs).slots) ?_ ?_ ?_).2 as bs
  · intro id e as ih b hb
    exact diff_eq_slots_of_diffAll (ih b.children) hb
  · intro bs
    rw [diffAll, listingsAll]
    simp [Listings.slots, Function.comp_def]
  · intro a as iha ihas bs
    rw [diffAll, listingsAll]
    rcases partner_cases a bs with ⟨h, -⟩ | ⟨pre, b, post, c, -, h, -, hmatch, -, rfl | rfl⟩
    · rw [h, Listings.slots_append, ← ihas]
      rfl
    · rw [h, Listings.slots_append, ← ihas]
      rfl
    · rw [h, Listings.slots_append, ← ihas]
      dsimp only
      split
      · rw [Listings.slots_below, iha b hmatch]
      · rfl

/-- The difference of the same node on two sides lists the slots of the listed nodes. -/
theorem diff_eq_slots (h : a.entry.matchesEntry b.entry = true) :
    a.diff b = (a.listings b).slots :=
  diff_eq_slots_of_diffAll (diffAll_eq_slots _ _) h

/-- Of nodes that are not the same, both are listed. -/
theorem diff_of_different (h : a.entry.compare b.entry = .different) :
    a.diff b = { onlyA := [a.id], onlyB := [b.id] } := by
  cases a
  rw [diff, if_pos h, id]

/-- The nodes that are listed of a node and its partner. -/
def listingsOfPair (a b : Branch) (c : Likeness) : Listings :=
  if c = .changed then { changedA := [⟨[], a⟩], changedB := [⟨[], b⟩] }
  else if a.entry.isComposite || b.entry.isComposite then (a.listings b).below a b
  else {}

/-- A node without partner is listed in front of the others. -/
theorem listingsAll_cons_of_none (h : takeFirst (partner? a) bs = none) :
    listingsAll (a :: as) bs = { onlyA := [⟨[], a⟩] } ++ listingsAll as bs := by
  rw [listingsAll, h]

/-- What is listed of a node and its partner is listed in front of the others. -/
theorem listingsAll_cons_of_some {c : Likeness} {others : List Branch}
    (h : takeFirst (partner? a) bs = some (b, c, others)) :
    listingsAll (a :: as) bs = listingsOfPair a b c ++ listingsAll as others := by
  rw [listingsAll, h]
  cases c <;> rfl

/-- What is listed of a single node on each side, when they are the same. -/
theorem listingsAll_pair (h : a.entry.matchesEntry b.entry = true) :
    listingsAll [a] [b] = listingsOfPair a b (a.entry.compare b.entry) := by
  have htake : takeFirst (partner? a) [b] = some (b, a.entry.compare b.entry, []) := by
    rw [takeFirst, partner?_eq_some.2 ⟨rfl, h⟩]
  rw [listingsAll_cons_of_some htake, listingsAll_nil_left, Listings.append_def]
  simp

/-- What is listed of a single node on each side, when they are not the same. -/
theorem listingsAll_strangers (h : a.entry.matchesEntry b.entry = false) :
    listingsAll [a] [b] = { onlyA := [⟨[], a⟩], onlyB := [⟨[], b⟩] } := by
  have htake : takeFirst (partner? a) [b] = none := by
    rw [takeFirst, partner?_eq_none.2 h]
    rfl
  rw [listingsAll_cons_of_none htake, listingsAll_nil_left]
  rfl

/-! ## Where the listed nodes are -/

/-- A way down from one of several branches through its descendants to one of them. -/
def Leads : List Branch → List Branch → Branch → Prop
  | bs, [], node => node ∈ bs
  | bs, x :: above, node => x ∈ bs ∧ Leads x.children above node

end Branch

open Branch

/-- All listed nodes are on their sides. -/
structure Listings.Within (as bs : List Branch) (x : Listings) : Prop where
  /-- The nodes of the first side without partner. -/
  onlyA : ∀ l ∈ x.onlyA, Leads as l.above l.node
  /-- The nodes of the second side without partner. -/
  onlyB : ∀ l ∈ x.onlyB, Leads bs l.above l.node
  /-- The changed entries of the first side. -/
  changedA : ∀ l ∈ x.changedA, Leads as l.above l.node
  /-- The changed entries of the second side. -/
  changedB : ∀ l ∈ x.changedB, Leads bs l.above l.node

namespace Branch

variable {a b : Branch} {as bs as' bs' : List Branch}

/-- A way down from some branches is one from more branches. -/
theorem Leads.mono {above : List Branch} {node : Branch} (h : Leads as above node)
    (hsub : as ⊆ bs) : Leads bs above node := by
  cases above with
  | nil => exact hsub h
  | cons x above => exact ⟨hsub h.1, h.2⟩

end Branch

namespace Listings

variable {as bs as' bs' : List Branch} {x y : Listings}

/-- Listed nodes on two sides are on larger sides. -/
theorem Within.mono (h : x.Within as bs) (ha : as ⊆ as') (hb : bs ⊆ bs') : x.Within as' bs' :=
  ⟨fun l hl => (h.onlyA l hl).mono ha, fun l hl => (h.onlyB l hl).mono hb,
    fun l hl => (h.changedA l hl).mono ha, fun l hl => (h.changedB l hl).mono hb⟩

/-- One list after the other. -/
theorem Within.append (hx : x.Within as bs) (hy : y.Within as bs) : (x ++ y).Within as bs := by
  refine ⟨fun l hl => ?_, fun l hl => ?_, fun l hl => ?_, fun l hl => ?_⟩
  · exact (List.mem_append.1 hl).elim (hx.onlyA l) (hy.onlyA l)
  · exact (List.mem_append.1 hl).elim (hx.onlyB l) (hy.onlyB l)
  · exact (List.mem_append.1 hl).elim (hx.changedA l) (hy.changedA l)
  · exact (List.mem_append.1 hl).elim (hx.changedB l) (hy.changedB l)

/-- Listed nodes seen from the parents of the tops. -/
theorem Within.below {a b : Branch} (hx : x.Within a.children b.children) (ha : a ∈ as)
    (hb : b ∈ bs) : (x.below a b).Within as bs := by
  have hseen : ∀ {c : Branch} {cs : List Branch} {ls : List Listed}, c ∈ cs →
      (∀ l ∈ ls, Leads c.children l.above l.node) →
      ∀ l ∈ ls.map (·.below c), Leads cs l.above l.node := by
    intro c cs ls hc hls l hl
    obtain ⟨m, hm, rfl⟩ := List.mem_map.1 hl
    exact ⟨hc, hls m hm⟩
  exact ⟨hseen ha hx.onlyA, hseen hb hx.onlyB, hseen ha hx.changedA, hseen hb hx.changedB⟩

/-- Nothing is listed. -/
theorem within_empty : Within as bs {} := by
  refine ⟨?_, ?_, ?_, ?_⟩ <;> exact fun l hl => absurd hl (List.not_mem_nil)

end Listings

namespace Branch

variable {a b : Branch} {as bs : List Branch}

/-- The listed nodes of two lists of branches are on their sides. -/
theorem within_listingsAll (as bs : List Branch) : (listingsAll as bs).Within as bs := by
  refine (mutualInduction
    (P := fun a => ∀ b : Branch, (a.listings b).Within a.children b.children)
    (Q := fun as => ∀ bs, (listingsAll as bs).Within as bs) ?_ ?_ ?_).2 as bs
  · intro id e as ih b
    exact ih b.children
  · intro bs
    rw [listingsAll_nil_left]
    refine ⟨by simp, fun l hl => ?_, by simp, by simp⟩
    obtain ⟨b, hb, rfl⟩ := List.mem_map.1 hl
    exact hb
  · intro a as iha ihas bs
    rcases partner_cases a bs with ⟨h, -⟩ | ⟨pre, b, post, c, rfl, h, -⟩
    · rw [listingsAll_cons_of_none h]
      refine .append ⟨?_, by simp, by simp, by simp⟩ ((ihas bs).mono (List.subset_cons_self _ _)
        fun _ hb => hb)
      intro l hl
      rw [List.mem_singleton.1 hl]
      exact List.mem_cons_self
    · rw [listingsAll_cons_of_some h]
      have hsub : pre ++ post ⊆ pre ++ b :: post := by
        intro d hd
        rcases List.mem_append.1 hd with hd | hd <;> simp [hd]
      refine .append ?_ ((ihas _).mono (List.subset_cons_self _ _) hsub)
      unfold listingsOfPair
      split
      · refine ⟨by simp, by simp, ?_, ?_⟩
        · intro l hl
          rw [List.mem_singleton.1 hl]
          exact List.mem_cons_self
        · intro l hl
          rw [List.mem_singleton.1 hl]
          exact List.mem_append_right _ List.mem_cons_self
      · split
        · exact (iha b).below List.mem_cons_self (List.mem_append_right _ List.mem_cons_self)
        · exact Listings.within_empty

/-- Changed entries are listed on both sides. -/
theorem length_changed (as bs : List Branch) :
    (listingsAll as bs).changedA.length = (listingsAll as bs).changedB.length := by
  refine (mutualInduction
    (P := fun a => ∀ b : Branch, (a.listings b).changedA.length = (a.listings b).changedB.length)
    (Q := fun as => ∀ bs, (listingsAll as bs).changedA.length =
      (listingsAll as bs).changedB.length) ?_ ?_ ?_).2 as bs
  · intro id e as ih b
    exact ih b.children
  · intro bs
    rw [listingsAll_nil_left]
  · intro a as iha ihas bs
    rcases partner_cases a bs with ⟨h, -⟩ | ⟨pre, b, post, c, -, h, -⟩
    · rw [listingsAll_cons_of_none h, Listings.append_def]
      exact ihas bs
    · have hpair : (listingsOfPair a b c).changedA.length =
          (listingsOfPair a b c).changedB.length := by
        unfold listingsOfPair
        split
        · rfl
        · split
          · simpa [Listings.below] using iha b
          · rfl
      rw [listingsAll_cons_of_some h, Listings.append_def, List.length_append, List.length_append,
        hpair, ihas]

/-! ## Listings class by class -/

/-- The part of what is listed of a node and its partner: all or nothing. -/
theorem part_listingsOfPair {κ : Type} [DecidableEq κ] {cls : Branch → κ} (h : cls b = cls a)
    (c : Likeness) (k : κ) :
    (listingsOfPair a b c).part cls k = if cls a = k then listingsOfPair a b c else {} := by
  have hall : ∀ {d : Branch} (ls : List Listed), cls d = cls a →
      (ls.map (·.below d)).filter (fun l => decide (cls l.head = k)) =
        if cls a = k then ls.map (·.below d) else [] := by
    intro d ls hd
    split
    · next hk =>
      rw [List.filter_eq_self]
      intro l hl
      obtain ⟨m, -, rfl⟩ := List.mem_map.1 hl
      simp [Listed.head, Listed.below, hd, hk]
    · next hk =>
      rw [List.filter_eq_nil_iff]
      intro l hl
      obtain ⟨m, -, rfl⟩ := List.mem_map.1 hl
      simp [Listed.head, Listed.below, hd, hk]
  unfold listingsOfPair
  split
  · by_cases hk : cls a = k <;> simp [Listings.part, Listed.head, h, hk]
  · split
    · simp only [Listings.part, Listings.below, hall _ h, hall _ rfl]
      split <;> rfl
    · split <;> rfl

/-- The listings of a class are those of its members, on both sides, when partners are of one
class. -/
theorem part_listingsAll_of_matches {κ : Type} [DecidableEq κ] {cls : Branch → κ}
    (hcls : ∀ a ∈ as, ∀ b : Branch, a.entry.matchesEntry b.entry = true → cls b = cls a)
    (bs : List Branch) (k : κ) :
    (listingsAll as bs).part cls k =
      listingsAll (as.filter fun a => cls a = k) (bs.filter fun b => cls b = k) := by
  induction as generalizing bs with
  | nil =>
    rw [List.filter_nil, listingsAll_nil_left, listingsAll_nil_left]
    simp only [Listings.part, List.filter_nil, List.filter_map]
    rfl
  | cons a as ih =>
    have ih := fun bs => ih (fun a ha => hcls a (by simp [ha])) bs
    rcases partner_cases a bs with ⟨h, hnone⟩ | ⟨pre, b, post, c, rfl, h, hpre, hmatch, hc, -⟩
    · rw [listingsAll_cons_of_none h, Listings.part_append, ih]
      by_cases hk : cls a = k
      · rw [List.filter_cons_of_pos (by simpa using hk), listingsAll_cons_of_none]
        · simp [Listings.part, Listed.head, hk]
        · rw [takeFirst_eq_none]
          exact fun b hb => partner?_eq_none.2 (hnone b (List.mem_of_mem_filter hb))
      · rw [List.filter_cons_of_neg (by simpa using hk)]
        simp [Listings.part, Listed.head, hk, Listings.append_def]
    · have hab : cls b = cls a := hcls a (by simp) b hmatch
      rw [listingsAll_cons_of_some h, Listings.part_append, ih, part_listingsOfPair hab,
        List.filter_append, List.filter_append]
      by_cases hk : cls a = k
      · have hpart := takeFirst_of_split (pre.filter fun b => decide (cls b = k))
          (post.filter fun b => decide (cls b = k)) (partner?_eq_some.2 ⟨hc, hmatch⟩)
          fun d hd => partner?_eq_none.2 (hpre d (List.mem_of_mem_filter hd))
        rw [List.filter_cons_of_pos (by simpa using hk),
          List.filter_cons_of_pos (by simpa [hab] using hk), listingsAll_cons_of_some hpart,
          if_pos hk]
      · rw [List.filter_cons_of_neg (by simpa using hk),
          List.filter_cons_of_neg (by simpa [hab] using hk), if_neg hk]
        simp [Listings.append_def]

/-- The listings of an identity are those of the nodes with it, on both sides. -/
theorem part_listingsAll {rule : KindRule} (has : ∀ a ∈ as, a.element.kind =
    rule a.element.ns a.element.name) (bs : List Branch) (k : Identity) :
    (listingsAll as bs).part (identity rule) k =
      listingsAll (as.filter fun a => a.identity rule = k)
        (bs.filter fun b => b.identity rule = k) :=
  part_listingsAll_of_matches
    (fun a ha _ hab => (Entry.identity_eq_of_matches (has a ha) hab).symm) bs k

/-! ## Nodes compared by what is below them -/

/-- A container is compared by what is below it. -/
theorem isComposite_of_container (h : b.element.kind.isContainer = true) :
    b.entry.isComposite = true := by
  unfold Entry.isComposite entry
  rw [h]
  rfl

/-- A leaf is not compared by what is below it. -/
theorem isComposite_of_leaf (h : b.element.kind = .leaf) : b.entry.isComposite = false := by
  unfold Entry.isComposite entry
  rw [h]
  rfl

/-- A node without schema is compared by what is below it when something is. -/
theorem isComposite_of_plain (h : b.element.kind = .plain) :
    b.entry.isComposite = !b.children.isEmpty := by
  unfold Entry.isComposite entry
  rw [h]
  simp [Kind.isContainer, Kind.isLeaf]

/-- A node without children that is no container is not compared by what is below it. -/
theorem isComposite_of_childless (h : b.element.kind.isContainer = false)
    (hbs : b.children = []) : b.entry.isComposite = false := by
  unfold Entry.isComposite entry
  rw [h, hbs]
  simp

/-- A node that is not compared by what is below it has no children. -/
theorem children_of_not_composite (hleaf : b.element.kind = .leaf → b.children = [])
    (h : b.entry.isComposite = false) : b.children = [] := by
  unfold Entry.isComposite entry at h
  cases hk : b.element.kind with
  | container s => rw [hk] at h; simp [Kind.isContainer] at h
  | leaf => exact hleaf hk
  | plain => rw [hk] at h; simpa [Kind.isContainer, Kind.isLeaf] using h

/-! ## Sides that agree -/

/-- No leaf of a branch has children. -/
def ChildlessLeaves (b : Branch) : Prop := b.All fun b => b.element.kind = .leaf → b.children = []

instance : DecidablePred ChildlessLeaves := fun b => inferInstanceAs (Decidable (b.All _))

/-- In a well-keyed branch no leaf has children. -/
theorem childlessLeaves_of_wellKeyed (h : a.WellKeyed) : a.ChildlessLeaves :=
  All.imp (fun _ hkeyed => hkeyed.leaf) h

/-- Nodes that compare as equal are alike. -/
theorem alike_of_compare {x y : Entry} (h : x.compare y = .equal) :
    x.element.alike y.element = true := by
  have hmatch := Entry.matches_of_compare h
  cases hk : x.element.kind with
  | container s => exact ((Entry.matches_iff_of_container hk).1 hmatch).1
  | plain => exact (Entry.matches_iff_of_plain hk).1 hmatch
  | leaf =>
    unfold Entry.compare at h
    rw [hk] at h
    dsimp only at h
    split at h
    · cases h
    · next hname =>
      split at h
      · next hvalue =>
        obtain ⟨hname, hns⟩ := Element.sameName_iff.1 (by simpa using hname)
        exact Element.alike_iff.2 ⟨hname, hns, (sameValue_iff _ _).1 hvalue⟩
      · cases h

/-- Two sides of which a difference lists nothing agree. -/
theorem agreesAll_of_listingsAll (has : ∀ a ∈ as, a.ChildlessLeaves)
    (hbs : ∀ b ∈ bs, b.ChildlessLeaves) (h : listingsAll as bs = {}) : AgreesAll as bs := by
  refine (mutualInduction
    (P := fun a => ∀ b : Branch, a.ChildlessLeaves → b.ChildlessLeaves →
      a.listings b = {} → AgreesAll a.children b.children)
    (Q := fun as => ∀ bs, (∀ a ∈ as, a.ChildlessLeaves) → (∀ b ∈ bs, b.ChildlessLeaves) →
      listingsAll as bs = {} → AgreesAll as bs) ?_ ?_ ?_).2 as bs has hbs h
  · intro id e as ih b ha hb h
    exact ih b.children (all_iff.1 ha).2 (all_iff.1 hb).2 h
  · intro bs _ _ h
    rw [listingsAll_nil_left, Listings.mk.injEq, List.map_eq_nil_iff] at h
    exact h.2.1
  · intro a as iha ihas bs has hbs h
    rcases partner_cases a bs with ⟨htake, -⟩ | ⟨pre, b, post, c, rfl, htake, -, -, hcompare, hc⟩
    · rw [listingsAll_cons_of_none htake, Listings.append_eq_empty, Listings.mk.injEq] at h
      cases h.1.1
    · rw [listingsAll_cons_of_some htake, Listings.append_eq_empty] at h
      obtain ⟨hpair, hrest⟩ := h
      have ha := has a (by simp)
      have hb := hbs b (by simp)
      have hothers := ihas (pre ++ post) (fun a ha => has a (by simp [ha])) (fun b hb => hbs b (by
        rcases List.mem_append.1 hb with hb | hb <;> simp [hb])) hrest
      refine ⟨pre, b, post, rfl, agrees_iff.2 ?_, hothers⟩
      unfold listingsOfPair at hpair
      split at hpair
      · rw [Listings.mk.injEq] at hpair
        cases hpair.2.2.1
      · next hne =>
        obtain rfl := hc.resolve_left hne
        refine ⟨alike_of_compare hcompare, ?_⟩
        split at hpair
        · exact iha b ha hb (Listings.below_eq_empty.1 hpair)
        · next hcomp =>
          rw [Bool.or_eq_true, not_or, Bool.not_eq_true, Bool.not_eq_true] at hcomp
          rw [children_of_not_composite (all_iff.1 ha).1 hcomp.1,
            children_of_not_composite (all_iff.1 hb).1 hcomp.2]
          rfl

/-- Nodes that compare as equal agree, when a difference lists nothing below them. -/
theorem agrees_of_listings (ha : a.ChildlessLeaves) (hb : b.ChildlessLeaves)
    (hcompare : a.entry.compare b.entry = .equal) (h : a.listings b = {}) : a.Agrees b := by
  rw [listings_eq] at h
  exact agrees_iff.2 ⟨alike_of_compare hcompare,
    agreesAll_of_listingsAll (all_iff.1 ha).2 (all_iff.1 hb).2 h⟩

/-- Below nodes that agree, the first children of a name look the same as keys, when the second
node has at most one of them. -/
theorem keyText?_of_agreesAll (h : AgreesAll a.children b.children) {key : String}
    (honce : (b.entry.membersNamed key).length ≤ 1) :
    a.entry.keyText? key = b.entry.keyText? key := by
  unfold Entry.keyText?
  cases ha : a.entry.member? key with
  | none =>
    cases hb : b.entry.member? key with
    | none => rfl
    | some m =>
      obtain ⟨hm, hmkey⟩ := Entry.mem_of_member? hb
      obtain ⟨y, hy, rfl⟩ := List.mem_map.1 hm
      obtain ⟨x, hx, hxy⟩ := h.exists_left hy
      have hname := (Element.alike_iff.1 (agrees_iff.1 hxy).1).1
      refine absurd ?_ (List.find?_eq_none.1 ha x.element (List.mem_map_of_mem hx))
      simpa [hname] using hmkey
  | some m =>
    obtain ⟨hm, hmkey⟩ := Entry.mem_of_member? ha
    obtain ⟨x, hx, rfl⟩ := List.mem_map.1 hm
    obtain ⟨y, hy, hxy⟩ := h.exists_right hx
    obtain ⟨hname, hns, hvalue⟩ := Element.alike_iff.1 (agrees_iff.1 hxy).1
    have hykey : (y.element.name == key) = true := by simpa [← hname] using hmkey
    have hymem : y.element ∈ b.entry.membersNamed key :=
      List.mem_filter.2 ⟨List.mem_map_of_mem hy, hykey⟩
    rw [Entry.member?_of_once hymem honce, Option.map_some, Option.map_some, hname, hns, hvalue]

/-- Nodes of one kind that agree compare as equal, when the second one is well-keyed. -/
theorem compare_of_agrees (hkind : a.element.kind = b.element.kind) (hb : b.Keyed)
    (h : a.Agrees b) : a.entry.compare b.entry = .equal := by
  obtain ⟨halike, hall⟩ := agrees_iff.1 h
  have halike' : a.entry.element.alike b.entry.element = true := halike
  obtain ⟨hname, hns, hvalue⟩ := Element.alike_iff.1 halike
  have hk' : a.entry.element.kind = a.element.kind := rfl
  unfold Entry.compare
  cases hk : a.element.kind with
  | plain => rw [hk', hk]; dsimp only; rw [if_pos halike']
  | leaf =>
    have hsame : a.entry.element.sameName b.entry.element = true :=
      Element.sameName_iff.2 ⟨hname, hns⟩
    have hval : sameValue a.entry.element.value b.entry.element.value = true :=
      (sameValue_iff _ _).2 hvalue
    rw [hk', hk]
    simp [hsame, hval]
  | container s =>
    have hkeys : Entry.sameKeys s.keys a.entry b.entry = true := by
      rw [Entry.sameKeys_iff]
      refine List.map_congr_left fun key hkey => keyText?_of_agreesAll hall (hb.once key ?_)
      rw [← hkind, hk]
      exact hkey
    have hmembers : (Entry.otherNames s a.entry b.entry).all
        (Entry.sameMembers a.entry b.entry) = true := by
      rw [List.all_eq_true]
      intro name _
      have hpart := hall.filter (f := fun c => c.element.name) (g := fun c => c.element.name)
        (fun x _ y _ hxy => (Element.alike_iff.1 (agrees_iff.1 hxy).1).1) name
      unfold Entry.sameMembers
      have hleft : a.entry.membersNamed name =
          (a.children.filter fun c => decide (c.element.name = name)).map element := by
        unfold Entry.membersNamed entry
        rw [List.filter_map]
        exact congrArg (List.map element) (List.filter_congr fun c _ => by simp [beq_eq_decide])
      have hright : b.entry.membersNamed name =
          (b.children.filter fun c => decide (c.element.name = name)).map element := by
        unfold Entry.membersNamed entry
        rw [List.filter_map]
        exact congrArg (List.map element) (List.filter_congr fun c _ => by simp [beq_eq_decide])
      rw [hleft, hright, Bool.and_eq_true]
      refine ⟨by simpa using hpart.length_eq, List.all_eq_true.2 fun e he => ?_⟩
      obtain ⟨x, hx, rfl⟩ := List.mem_map.1 he
      obtain ⟨y, hy, hxy⟩ := hpart.exists_right hx
      exact List.any_eq_true.2 ⟨y.element, List.mem_map_of_mem hy, (agrees_iff.1 hxy).1⟩
    rw [hk', hk]
    simp [halike', hkeys, hmembers]

/-- Of two sides that agree a difference lists nothing, when a schema gives the kinds and the second
side is well-keyed. -/
theorem listings_of_agrees {s : Schema} (hkind : a.element.kind = b.element.kind)
    (ha : a.Described s) (hb : b.Described s) (hkeyed : b.WellKeyed) (h : a.Agrees b) :
    a.listings b = {} := by
  induction a using induction generalizing b with
  | step id e as ih =>
    have hbk : b.Keyed := (all_iff.1 hkeyed).1
    have hruleA : ∀ x ∈ as, x.element.kind =
        s.rule (some (mk id e as).element.kind) x.element.ns x.element.name := (all_iff.1 ha).1
    have hruleB := (all_iff.1 hb).1
    rw [hkind] at hruleA
    have hkinds : ∀ x ∈ as, ∀ y ∈ b.children, x.Agrees y → x.element.kind = y.element.kind := by
      intro x hx y hy hxy
      obtain ⟨hname, hns, -⟩ := Element.alike_iff.1 (agrees_iff.1 hxy).1
      rw [hruleA x hx, hruleB y hy, hname, hns]
    have hcompare : ∀ x ∈ as, ∀ y ∈ b.children, x.Agrees y → x.entry.compare y.entry = .equal :=
      fun x hx y hy hxy => compare_of_agrees (hkinds x hx y hy hxy)
        (all_iff.1 ((all_iff.1 hkeyed).2 y hy)).1 hxy
    have hmatch : ∀ x ∈ as, ∀ y ∈ b.children, x.Agrees y →
        x.entry.matchesEntry y.entry = true := fun x hx y hy hxy =>
      Entry.matches_of_compare (hcompare x hx y hy hxy)
    have hall : AgreesAll as b.children := (agrees_iff.1 h).2
    rw [listings_eq, children]
    refine Listings.eq_empty_of_part (identity (s.rule (some b.element.kind))) fun k => ?_
    rw [part_listingsAll hruleA]
    have hpart := hall.filter (f := identity (s.rule (some b.element.kind)))
      (g := identity (s.rule (some b.element.kind)))
      (fun x hx y hy hxy => Entry.identity_eq_of_matches (hruleA x hx) (hmatch x hx y hy hxy)) k
    rcases filter_identity_cases (hbk.pairwise_identity hruleB) k with hnil | ⟨y, hy, -, hone⟩
    · rw [hnil] at hpart ⊢
      rw [List.length_eq_zero_iff.1 hpart.length_eq, listingsAll_nil_left]
      rfl
    · rw [hone] at hpart ⊢
      obtain ⟨x, hx⟩ := List.length_eq_one_iff.1 hpart.length_eq
      rw [hx] at hpart ⊢
      have hxas : x ∈ as := List.mem_of_mem_filter (p := fun a =>
        decide (a.identity (s.rule (some b.element.kind)) = k)) (by rw [hx]; simp)
      obtain ⟨y', hy', hxy⟩ := hpart.exists_right (List.mem_singleton.2 rfl)
      obtain rfl := List.mem_singleton.1 hy'
      rw [listingsAll_pair (hmatch x hxas y' hy hxy), hcompare x hxas y' hy hxy]
      unfold listingsOfPair
      rw [if_neg (by decide)]
      split
      · rw [Listings.below_eq_empty]
        exact ih x hxas (hkinds x hxas y' hy hxy) ((all_iff.1 ha).2 x hxas)
          ((all_iff.1 hb).2 y' hy) ((all_iff.1 hkeyed).2 y' hy) hxy
      · rfl

end Branch

end Netconf
