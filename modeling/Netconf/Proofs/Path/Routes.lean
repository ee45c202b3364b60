import Mathlib.Data.List.Duplicate
import Netconf.Proofs.Path.Continuations
import Netconf.Proofs.Tree.Reachable

/-!
# Nodes that are found twice

A query may come to a node on several routes (`Route`), and then its result has the node as often.
Since a node is a child of one other node only, routes that have parted come together again in one
way only: by a step from two children to their parent (`Meeting`). Nothing takes out the repetitions
that arise there, so a result is free of them just when no two routes come together on the way to a
node of it (`eval_nodup_iff`).
-/

namespace Netconf.Path

variable {t : Tree} {step root : Step} {steps before behind : List Step} {id n : NodeId}
  {p p' q q' r : Place} {places found found' : List Place} {ids : List NodeId}

/-! ## Routes -/

/-- A route: steps lead from one place to another. -/
inductive Route (t : Tree) : List Step → Place → Place → Prop where
  /-- Without steps a route stays where it is. -/
  | nil (p : Place) : Route t [] p p
  /-- A step leads to a place, and the others lead on from it. -/
  | cons {step : Step} {steps : List Step} {p q r : Place} {found : List Place}
    (hf : step.follow t p = .ok found) (hq : q ∈ found) (h : Route t steps q r) :
    Route t (step :: steps) p r

/-- Steps along the tree lead to a place from several if they do so from one of them. -/
theorem mem_of_walk_iff (hsteps : Rootless steps) (hwalk : walk t steps places = .ok found) :
    q ∈ found ↔ ∃ p ∈ places, Route t steps p q := by
  induction steps generalizing places with
  | nil =>
    cases hwalk
    refine ⟨fun hq => ⟨q, hq, .nil q⟩, fun ⟨p, hp, hlead⟩ => ?_⟩
    cases hlead
    exact hp
  | cons step steps ih =>
    obtain ⟨haxis, hsteps⟩ := List.forall_mem_cons.1 hsteps
    obtain ⟨next, hnext, hwalk⟩ := walk_cons_iff.1 hwalk
    rw [ih hsteps hwalk]
    constructor
    · rintro ⟨r, hr, hlead⟩
      obtain ⟨p, hp, own, hown, hr⟩ := (Step.mem_of_apply_iff haxis hnext).1 hr
      exact ⟨p, hp, .cons hown hr hlead⟩
    · rintro ⟨p, hp, hlead⟩
      cases hlead with
      | cons hf hr hlead =>
        exact ⟨_, (Step.mem_of_apply_iff haxis hnext).2 ⟨p, hp, _, hf, hr⟩, hlead⟩

/-! ## One step back -/

/-- A document is above a node without parent. -/
def Place.OnTop (t : Tree) : Place → Prop
  | .document top => t.parent? top = none
  | .node _ => True

/-- The places that a step leads to from a place are pairwise different. -/
theorem Step.nodup_of_follow (h : t.Forest) (haxis : step.axis ≠ .root)
    (hf : step.follow t p = .ok found) : found.Nodup := by
  rcases of_follow haxis hf with ⟨-, hfound⟩ | ⟨kept, hkept, rfl⟩
  · exact (List.nodup_singleton p).sublist hfound
  · exact (List.Nodup.sublist hkept (p.nodup_along h _)).map fun _ _ => Place.node.inj

/-- A step leads to documents above nodes without parent only. -/
theorem Step.onTop_of_follow (haxis : step.axis ≠ .root) (hp : p.OnTop t)
    (hf : step.follow t p = .ok found) : ∀ q ∈ found, q.OnTop t := by
  intro q hq
  rcases of_mem_follow haxis hf hq with ⟨-, rfl⟩ | ⟨c, rfl, -⟩
  · exact hp
  · exact trivial

/-- The place above a place: the parent of a node, or the document of a node without parent. -/
def Place.above (t : Tree) : Place → Place
  | .document top => .document top
  | .node id => (t.parent? id).elim (.document id) .node

/-- A step to the node itself leads to a place from this place only. -/
theorem Step.eq_of_self (haxis : step.axis = .self) (hf : step.follow t p = .ok found)
    (hq : q ∈ found) : p = q := by
  have hroot : step.axis ≠ .root := by simp [haxis]
  rcases of_mem_follow hroot hf hq with ⟨-, hp⟩ | ⟨c, rfl, hc⟩
  · exact hp
  · rw [haxis] at hc
    cases p with
    | document top => cases hc
    | node id => rw [List.mem_singleton.1 hc]

/-- A step to children leads to a place from the place above it only. -/
theorem Step.eq_above_of_child (h : t.Forest) (haxis : step.axis = .child) (hp : p.OnTop t)
    (hf : step.follow t p = .ok found) (hq : q ∈ found) : p = q.above t := by
  have hroot : step.axis ≠ .root := by simp [haxis]
  rcases of_mem_follow hroot hf hq with ⟨hself, -⟩ | ⟨c, rfl, hc⟩
  · cases hself.symm.trans haxis
  · rw [haxis] at hc
    cases p with
    | document top =>
      obtain rfl := List.mem_singleton.1 hc
      rw [Place.above, (hp : t.parent? c = none), Option.elim_none]
    | node id => rw [Place.above, h.mem_children_iff.1 hc, Option.elim_some]

/-- A step to the parent leads to a node from its children only. -/
theorem Step.exists_of_parent (haxis : step.axis = .parent) (hf : step.follow t p = .ok found)
    (hq : q ∈ found) : ∃ a c, p = .node a ∧ q = .node c ∧ t.parent? a = some c := by
  have hroot : step.axis ≠ .root := by simp [haxis]
  rcases of_mem_follow hroot hf hq with ⟨hself, -⟩ | ⟨c, rfl, hc⟩
  · cases hself.symm.trans haxis
  · rw [haxis] at hc
    cases p with
    | document top => cases hc
    | node a => exact ⟨a, c, rfl, rfl, Option.mem_toList.1 hc⟩

/-- Two places from which a step leads to the same place are the same, or two nodes with the same
parent to which the step goes. -/
theorem Step.eq_or_siblings (h : t.Forest) (haxis : step.axis ≠ .root) (hp : p.OnTop t)
    (hp' : p'.OnTop t) (hf : step.follow t p = .ok found) (hq : q ∈ found)
    (hf' : step.follow t p' = .ok found') (hq' : q ∈ found') :
    p = p' ∨ step.axis = .parent ∧
      ∃ a b, p = .node a ∧ p' = .node b ∧ t.parent? a = t.parent? b := by
  cases hstep : step.axis with
  | root => exact absurd hstep haxis
  | self => exact .inl ((eq_of_self hstep hf hq).trans (eq_of_self hstep hf' hq').symm)
  | child =>
    exact .inl ((eq_above_of_child h hstep hp hf hq).trans
      (eq_above_of_child h hstep hp' hf' hq').symm)
  | parent =>
    obtain ⟨a, c, rfl, rfl, ha⟩ := exists_of_parent hstep hf hq
    obtain ⟨b, _, rfl, hc, hb⟩ := exists_of_parent hstep hf' hq'
    cases hc
    exact .inr ⟨rfl, a, b, rfl, rfl, ha.trans hb.symm⟩

/-! ## Where routes come together -/

/-- Two routes from `p` and from `p'` come together on the way to `q`: they come to two nodes with
the same parent, to which the next step goes, and the remaining steps lead on from there. -/
inductive Meeting (t : Tree) (steps : List Step) (p p' q : Place) : Prop where
  /-- The routes come to the nodes `a` and `b`. -/
  | mk {before behind : List Step} {step : Step} {a b : NodeId}
    (hsteps : steps = before ++ step :: behind) (haxis : step.axis = .parent)
    (ha : Route t before p (.node a)) (hb : Route t before p' (.node b)) (hne : a ≠ b)
    (hparent : t.parent? a = t.parent? b) (hq : Route t (step :: behind) (.node a) q) :
    Meeting t steps p p' q

/-- Routes that come together do so behind a step that leads to the places where they begin. -/
theorem Meeting.cons (hm : Meeting t steps q q' r) (hf : step.follow t p = .ok found)
    (hq : q ∈ found) (hf' : step.follow t p' = .ok found') (hq' : q' ∈ found') :
    Meeting t (step :: steps) p p' r := by
  obtain ⟨rfl, haxis, ha, hb, hne, hparent, hr⟩ := hm
  exact ⟨rfl, haxis, .cons hf hq ha, .cons hf' hq' hb, hne, hparent, hr⟩

/-- Routes to one place from two different ones come together. -/
theorem Route.meeting (h : t.Forest) (hsteps : Rootless steps) (hp : p.OnTop t)
    (hp' : p'.OnTop t) (hne : p ≠ p') (hq : Route t steps p q) (hq' : Route t steps p' q) :
    Meeting t steps p p' q := by
  -- along both routes at once, until they come to the same place
  induction hq generalizing p' with
  | nil q =>
    cases hq'
    exact absurd rfl hne
  | @cons step steps p r q found hf hr hq ih =>
    obtain ⟨haxis, hrest⟩ := List.forall_mem_cons.1 hsteps
    cases hq' with
    | @cons _ _ _ r' _ found' hf' hr' hq' =>
      by_cases hsame : r = r'
      · subst hsame
        rcases Step.eq_or_siblings h haxis hp hp' hf hr hf' hr' with
          hpp | ⟨hparent, a, b, rfl, rfl, hab⟩
        · exact absurd hpp hne
        · exact ⟨rfl, hparent, .nil _, .nil _, fun he => hne (congrArg _ he), hab, .cons hf hr hq⟩
      · exact (ih hrest (Step.onTop_of_follow haxis hp hf r hr)
          (Step.onTop_of_follow haxis hp' hf' r' hr') hsame hq').cons hf hr hf' hr'

/-! ## Repetitions -/

/-- An item is twice in two lists when it is twice in one of them or in both. -/
theorem duplicate_append_iff {α : Type} [DecidableEq α] {x : α} {xs ys : List α} :
    List.Duplicate x (xs ++ ys) ↔
      List.Duplicate x xs ∨ List.Duplicate x ys ∨ x ∈ xs ∧ x ∈ ys := by
  simp only [List.duplicate_iff_two_le_count, List.count_append, ← List.count_pos_iff]
  omega

/-- What steps lead to from two of the places is found twice. -/
theorem duplicate_of_routes (hsteps : Rootless steps) (hwalk : walk t steps places = .ok found)
    (hp : p ∈ places) (hp' : p' ∈ places) (hne : p ≠ p') (hq : Route t steps p q)
    (hq' : Route t steps p' q) : List.Duplicate q found := by
  induction places generalizing found with
  | nil => cases hp
  | cons x places ih =>
    rw [← List.singleton_append, walk_places_append_iff hsteps] at hwalk
    obtain ⟨first, second, hfirst, hsecond, rfl⟩ := hwalk
    have hin : ∀ {y}, Route t steps y q → y = x → q ∈ first := fun hy hyx =>
      (mem_of_walk_iff hsteps hfirst).2 ⟨x, List.mem_singleton_self x, hyx ▸ hy⟩
    have hrest : ∀ {y}, Route t steps y q → y ∈ places → q ∈ second := fun hy hmem =>
      (mem_of_walk_iff hsteps hsecond).2 ⟨_, hmem, hy⟩
    rw [duplicate_append_iff]
    rcases List.mem_cons.1 hp with hpx | hp <;> rcases List.mem_cons.1 hp' with hpx' | hp'
    · exact absurd (hpx.trans hpx'.symm) hne
    · exact .inr (.inr ⟨hin hq hpx, hrest hq' hp'⟩)
    · exact .inr (.inr ⟨hin hq' hpx', hrest hq hp⟩)
    · exact .inr (.inl (ih hsecond hp hp'))

/-- What steps lead to twice from pairwise different places they lead to twice from one of them, or
from two. -/
theorem of_duplicate_walk (hsteps : Rootless steps) (hnodup : places.Nodup)
    (hwalk : walk t steps places = .ok found) (hq : List.Duplicate q found) :
    (∃ p ∈ places, ∃ part, walk t steps [p] = .ok part ∧ List.Duplicate q part) ∨
      ∃ p ∈ places, ∃ p' ∈ places, p ≠ p' ∧ Route t steps p q ∧ Route t steps p' q := by
  induction places generalizing found with
  | nil =>
    rw [walk_nil] at hwalk
    cases hwalk
    exact absurd hq (List.not_duplicate_nil q)
  | cons x places ih =>
    obtain ⟨hx, hnodup⟩ := List.nodup_cons.1 hnodup
    rw [← List.singleton_append, walk_places_append_iff hsteps] at hwalk
    obtain ⟨first, second, hfirst, hsecond, rfl⟩ := hwalk
    rcases duplicate_append_iff.1 hq with hq | hq | ⟨hq, hq'⟩
    · exact .inl ⟨x, List.mem_cons_self, first, hfirst, hq⟩
    · rcases ih hnodup hsecond hq with ⟨p, hp, hpart⟩ | ⟨p, hp, p', hp', hboth⟩
      · exact .inl ⟨p, List.mem_cons_of_mem x hp, hpart⟩
      · exact .inr ⟨p, List.mem_cons_of_mem x hp, p', List.mem_cons_of_mem x hp', hboth⟩
    · obtain ⟨y, hy, hxq⟩ := (mem_of_walk_iff hsteps hfirst).1 hq
      obtain rfl := List.mem_singleton.1 hy
      obtain ⟨p', hp', hlead⟩ := (mem_of_walk_iff hsteps hsecond).1 hq'
      exact .inr ⟨y, List.mem_cons_self, p', List.mem_cons_of_mem y hp',
        fun he => hx (he ▸ hp'), hxq, hlead⟩

/-- A step to the parent leads to the same from two nodes with the same parent. -/
theorem Step.follow_sibling (haxis : step.axis = .parent) {a b : NodeId}
    (hparent : t.parent? a = t.parent? b) : step.follow t (.node a) = step.follow t (.node b) := by
  have hroot : step.axis ≠ .root := by simp [haxis]
  rw [follow_eq hroot fun _ => ⟨a, rfl⟩, follow_eq hroot fun _ => ⟨b, rfl⟩, haxis, Place.along,
    Place.along, hparent]

/-- Steps along the tree lead to a place twice just when two routes to it come together. -/
theorem duplicate_walk_iff (h : t.Forest) (hsteps : Rootless steps) (hp : p.OnTop t)
    (hwalk : walk t steps [p] = .ok found) :
    List.Duplicate q found ↔ Meeting t steps p p q := by
  constructor
  · intro hq
    induction steps generalizing p found with
    | nil =>
      cases hwalk
      exact absurd hq (List.not_duplicate_singleton q p)
    | cons step steps ih =>
      obtain ⟨haxis, hsteps⟩ := List.forall_mem_cons.1 hsteps
      obtain ⟨next, hnext, hwalk⟩ := walk_cons_iff.1 hwalk
      rw [Step.apply_singleton haxis] at hnext
      have hnextTop := Step.onTop_of_follow haxis hp hnext
      rcases of_duplicate_walk hsteps (Step.nodup_of_follow h haxis hnext) hwalk hq with
        ⟨r, hr, part, hpart, hq⟩ | ⟨r, hr, r', hr', hne, hq, hq'⟩
      · exact (ih hsteps (hnextTop r hr) hpart hq).cons hnext hr hnext hr
      · exact (hq.meeting h hsteps (hnextTop r hr) (hnextTop r' hr') hne hq').cons
          hnext hr hnext hr'
  · rintro ⟨rfl, haxis, ha, hb, hne, hparent, hq⟩
    obtain ⟨middle, hmiddle, hwalk⟩ := walk_append_iff.1 hwalk
    obtain ⟨hbefore, hbehind⟩ := List.forall_mem_append.1 hsteps
    -- both routes are at places of the middle, and the step to the parent leads on from both alike
    have hmem : ∀ {q}, Route t _ p q → q ∈ middle := fun hq =>
      (mem_of_walk_iff hbefore hmiddle).2 ⟨p, List.mem_singleton_self p, hq⟩
    refine duplicate_of_routes hbehind hwalk (hmem ha) (hmem hb)
      (fun he => hne (Place.node.inj he)) hq ?_
    cases hq with
    | cons hf hr hq => exact .cons (Step.follow_sibling haxis hparent ▸ hf) hr hq

/-! ## Nodes found twice -/

/-- A node is selected where it is met. -/
theorem mem_filterMap_node : n ∈ places.filterMap Place.node? ↔ .node n ∈ places := by
  rw [List.mem_filterMap]
  constructor
  · rintro ⟨_ | id, hp, hn⟩
    · cases hn
    · cases hn
      exact hp
  · exact fun hn => ⟨.node n, hn, rfl⟩

/-- A node is selected twice where it is met twice. -/
theorem duplicate_filterMap_node :
    List.Duplicate n (places.filterMap Place.node?) ↔ List.Duplicate (.node n) places := by
  induction places with
  | nil => simp
  | cons p places ih =>
    cases p with
    | document top =>
      have hnone : (Place.document top).node? = none := rfl
      rw [List.filterMap_cons_none hnone, ih, List.duplicate_cons_iff_of_ne (by simp)]
    | node id =>
      have hsome : (Place.node id).node? = some id := rfl
      rw [List.filterMap_cons_some hsome, List.duplicate_cons_iff, List.duplicate_cons_iff, ih,
        mem_filterMap_node, Place.node.injEq]

/-- Where routes lead behind a step to the document. -/
theorem route_root_iff (hroot : root.axis = .root) : Route t (root :: steps) (.node id) q ↔
    Route t steps (.document (t.topOf id)) q := by
  have hfollow : root.follow t (.node id) = .ok [.document (t.topOf id)] := by
    simp only [Step.follow, hroot, Place.toDocument]
  constructor
  · intro hq
    cases hq with
    | cons hf hr hq =>
      rw [hfollow] at hf
      cases hf
      exact List.mem_singleton.1 hr ▸ hq
  · exact fun hq => .cons hfollow (List.mem_singleton_self _) hq

/-- Where routes come together behind a step to the document. -/
theorem meeting_root_iff (hroot : root.axis = .root) :
    Meeting t (root :: steps) (.node id) (.node id) q ↔
      Meeting t steps (.document (t.topOf id)) (.document (t.topOf id)) q := by
  constructor
  · rintro ⟨hsteps, haxis, ha, hb, hne, hparent, hq⟩
    rcases List.cons_eq_append_iff.1 hsteps with ⟨-, hcons⟩ | ⟨before, rfl, rfl⟩
    · cases hcons
      cases hroot.symm.trans haxis
    · exact ⟨rfl, haxis, (route_root_iff hroot).1 ha, (route_root_iff hroot).1 hb, hne, hparent, hq⟩
  · rintro ⟨rfl, haxis, ha, hb, hne, hparent, hq⟩
    exact ⟨rfl, haxis, (route_root_iff hroot).2 ha, (route_root_iff hroot).2 hb, hne, hparent, hq⟩

/-- From a node, steps behind one to the document or along the tree lead to the places to which
there are routes, and to a place twice just when two routes to it come together. -/
theorem RootFirst.routes (hsteps : RootFirst steps) (h : t.Forest) (hid : id < t.size)
    (hwalk : walk t steps [.node id] = .ok found) :
    (q ∈ found ↔ Route t steps (.node id) q) ∧
      (List.Duplicate q found ↔ Meeting t steps (.node id) (.node id) q) := by
  cases hsteps with
  | relative hsteps =>
    exact ⟨by simp [mem_of_walk_iff hsteps hwalk], duplicate_walk_iff h hsteps trivial hwalk⟩
  | absolute hroot hsteps =>
    rw [walk_root hroot] at hwalk
    rw [route_root_iff hroot, meeting_root_iff hroot]
    exact ⟨by simp [mem_of_walk_iff hsteps hwalk],
      duplicate_walk_iff h hsteps (h.parent?_topOf hid) hwalk⟩

/-- A path selects the nodes to which there are routes. It selects a node twice just when two routes
to it come together: when its steps lead to two nodes with the same parent, the next step goes to
this parent, and the others lead on to the node. So what it selects is a set just when no routes
come together on the way to a selected node. -/
theorem eval_nodup_iff (h : t.Forest) (hid : id < t.size) {text : String} {path : Path}
    (hparse : Path.parse text = .ok path) (heval : path.eval t id = .ok ids) :
    (∀ n, n ∈ ids ↔ Route t path.steps (.node id) (.node n)) ∧
      (∀ n, List.Duplicate n ids ↔ Meeting t path.steps (.node id) (.node id) (.node n)) ∧
      (ids.Nodup ↔ ∀ n, ¬ Meeting t path.steps (.node id) (.node id) (.node n)) := by
  unfold eval evalSteps at heval
  split at heval
  · cases heval
  next found hwalk =>
  cases heval
  have hroutes := fun q => (rootFirst_of_parse hparse).routes h hid hwalk (q := q)
  have hduplicate : ∀ n, List.Duplicate n (found.filterMap Place.node?) ↔
      Meeting t path.steps (.node id) (.node id) (.node n) := fun n =>
    duplicate_filterMap_node.trans (hroutes (.node n)).2
  refine ⟨fun n => mem_filterMap_node.trans (hroutes (.node n)).1, hduplicate, ?_⟩
  simp only [List.nodup_iff_forall_not_duplicate, hduplicate]

/-- The path `b/c/..` selects the first list twice, since there are routes to it by both of its
items, and the second list once. -/
theorem eval_nodup_itemLists :
    let path : Path := ⟨"b/c/..", [{ axis := .child, name := some "b" },
      { axis := .child, name := some "c" }, { axis := .parent }]⟩
    itemLists.Forest ∧ 0 < itemLists.size ∧ Path.parse "b/c/.." = .ok path ∧
      path.eval itemLists 0 = .ok [1, 1, 4] ∧
      Meeting itemLists path.steps (.node 0) (.node 0) (.node 1) ∧
      ¬ Meeting itemLists path.steps (.node 0) (.node 0) (.node 4) := by
  intro path
  have hforest : itemLists.Forest := (Tree.forest_empty {}).addCopy _
  have hparse : Path.parse "b/c/.." = .ok path := rfl
  have heval : path.eval itemLists 0 = .ok [1, 1, 4] := rfl
  obtain ⟨-, hduplicate, -⟩ := eval_nodup_iff hforest (by decide) hparse heval
  exact ⟨hforest, by decide, hparse, heval, (hduplicate 1).1 (by decide),
    fun hm => absurd ((hduplicate 4).2 hm) (by decide)⟩

/-- An element with two children. -/
def twoItems : Tree :=
  ((Tree.empty (.standard 0)).addCopy
    (.mk 0 { name := "a" } [.mk 0 { name := "b" } [], .mk 0 { name := "b" } []])).1

/-- The parent of two children is selected twice. -/
theorem query_repeats :
    Xml.parse (.standard 0) none "<a><b/><b/></a>" = .ok ⟨twoItems, 0⟩ ∧
      twoItems.Reachable ∧ twoItems.query 0 "b/.." = .ok [0, 0] ∧
      ¬ [0, 0].Nodup := by
  have hparse : Xml.parse (.standard 0) none "<a><b/><b/></a>" = .ok ⟨twoItems, 0⟩ := rfl
  exact ⟨hparse, .parsed hparse, rfl, by decide⟩

end Netconf.Path
