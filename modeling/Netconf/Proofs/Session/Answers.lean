import Netconf.Proofs.Tree.Bindings
import Netconf.Session.Exchange

/-!
# Data taken out of replies

The data that a command answers are the children of an element of the reply. They are taken away
from it one after the other, and each gets the bindings that are in scope at the element and that it
does not have. So all labels go on meaning what they meant, at every node: taking one child away
keeps this (`Tree.Forest.nsOf?_released`), and with it taking all of them
(`takeChildren_keeps_scope`). Out of which element they are taken depends on the command (`Yields`).
-/

namespace Netconf

namespace Tree

variable {t : Tree} {p c : Nat} {scope : Bindings}

/-- The tree with a node taken away from its parent and with bindings added on the node. -/
def released (scope : Bindings) (t : Tree) (c : NodeId) : Tree :=
  (t.detach c).modifyElement c fun e => e.mergeBindings scope

/-- Where the bindings bind nothing the default ones apply, and together they mean what the labels
mean at the node. -/
def InScopeAt (t : Tree) (p : NodeId) (scope : Bindings) : Prop :=
  ∀ label, (scope.ns? label).or (t.defaults.bindings.ns? label) = t.nsOf? p label

/-- The bindings that are made on a node and above it are in scope at the node. -/
theorem inScopeAt_lineage (t : Tree) (p : NodeId) :
    t.InScopeAt p ((t.lineage p).bindings .empty) := by
  intro label
  have hempty : Bindings.empty.ns? label = none := rfl
  rw [Lineage.ns?_bindings, Lineage.ns?, hempty, Option.or_none]
  rfl

/-! ## Taking one node away -/

/-- The links stay those of a forest. -/
theorem Forest.released (h : t.Forest) (scope : Bindings) (c : NodeId) :
    (Tree.released scope t c).Forest :=
  (h.detach c).modifyElement c _

/-- The default bindings stay. -/
@[simp]
theorem defaults_released (scope : Bindings) (t : Tree) (c : NodeId) :
    (Tree.released scope t c).defaults = t.defaults := by
  have hdetach : (t.detachAll [c]).defaults = t.defaults := defaults_detachAll [c]
  exact hdetach

/-- The node that is taken away has no parent, and the others have theirs. -/
theorem parent?_released (scope : Bindings) (t : Tree) (c x : Nat) :
    (Tree.released scope t c).parent? x = if x = c then none else t.parent? x := by
  rw [released, parent?_modifyElement, parent?_detach]

/-- The node that is taken away is no child any more. -/
theorem Forest.children_released (h : t.Forest) (scope : Bindings) (c x : Nat) :
    (Tree.released scope t c).children x = (t.children x).filter fun y => y != c := by
  rw [Tree.released, children_modifyElement, h.children_detach]

/-- The node that is taken away gets the bindings, and the others carry what they carried. -/
theorem element_released (scope : Bindings) (t : Tree) (c x : Nat) :
    (Tree.released scope t c).element x =
      if x = c ∧ x < t.size then (t.element x).mergeBindings scope else t.element x := by
  rw [released, element_modifyElement, element_detach, size_detach]

/-- Taking a child away with the bindings in scope at its parent leaves the meanings of labels at
all nodes. -/
theorem Forest.nsOf?_released (h : t.Forest) (hp : t.parent? c = some p)
    (hscope : t.InScopeAt p scope) (x : Nat) (label : String) :
    (Tree.released scope t c).nsOf? x label = t.nsOf? x label := by
  -- down from the tops: only the way up from the child ends sooner
  induction x using h.acyclic.induction with
  | _ x ih =>
    rw [(h.released scope c).nsOf?_eq, h.nsOf?_eq, parent?_released, element_released]
    by_cases hx : x = c
    · subst hx
      have hscoped : t.inherited (some p) label =
          (scope.ns? label).or (t.defaults.bindings.ns? label) := (hscope label).symm
      rw [if_pos ⟨rfl, lt_size_of_parent? hp⟩, if_pos rfl, hp, hscoped]
      have hmerged : ((t.element x).mergeBindings scope).bindings.ns? label =
          ((t.element x).bindings.ns? label).or (scope.ns? label) := Bindings.ns?_merge _ _ label
      have hnone : (Tree.released scope t x).inherited none label =
          t.defaults.bindings.ns? label := by
        rw [inherited, defaults_released]
      rw [hmerged, hnone, Option.or_assoc]
    · rw [if_neg fun he : x = c ∧ x < t.size => hx he.1, if_neg hx]
      unfold inherited
      cases hq : t.parent? x with
      | none => rw [defaults_released]
      | some q => exact congrArg _ (ih q hq)

/-! ## Taking several children away -/

/-- Children of a node, taken away one after the other with the bindings in scope at the node: they
have no parents, no other link changes, and all labels mean what they meant. -/
theorem Forest.foldl_released (h : t.Forest) (hscope : t.InScopeAt p scope) {ids : List NodeId}
    (hnodup : ids.Nodup) (hids : ∀ c ∈ ids, t.parent? c = some p) :
    (∀ x, (ids.foldl (Tree.released scope) t).parent? x =
        if x ∈ ids then none else t.parent? x) ∧
      (∀ x, (ids.foldl (Tree.released scope) t).children x =
        (t.children x).filter fun y => y ∉ ids) ∧
      ∀ x label, (ids.foldl (Tree.released scope) t).nsOf? x label = t.nsOf? x label := by
  induction ids generalizing t with
  | nil => exact ⟨fun _ => rfl, fun x => by simp, fun _ _ => rfl⟩
  | cons c ids ih =>
    obtain ⟨hc, hnodup⟩ := List.nodup_cons.1 hnodup
    obtain ⟨hp, hids⟩ := List.forall_mem_cons.1 hids
    have hkept := h.nsOf?_released hp hscope
    have hscope' : (Tree.released scope t c).InScopeAt p scope := fun label => by
      rw [defaults_released, hkept, hscope label]
    have hids' : ∀ x ∈ ids, (Tree.released scope t c).parent? x = some p := fun x hx => by
      rw [parent?_released, if_neg fun he : x = c => hc (he ▸ hx), hids x hx]
    obtain ⟨hparents, hchildren, hlabels⟩ := ih (h.released scope c) hscope' hnodup hids'
    refine ⟨fun x => ?_, fun x => ?_, fun x label => ?_⟩
    · rw [List.foldl_cons, hparents, parent?_released]
      by_cases hx : x = c <;> simp [hx]
    · rw [List.foldl_cons, hchildren, h.children_released, List.filter_filter]
      refine List.filter_congr fun y _ => ?_
      simp only [List.mem_cons, not_or, Bool.decide_and, decide_not]
      exact Bool.and_comm _ _
    · rw [List.foldl_cons, hlabels, hkept]

end Tree

namespace Session

variable {d : Document}

/-- The children of an element are taken away with the bindings in scope at the element. -/
theorem takeChildren_eq (d : Document) (id : NodeId) : takeChildren d id =
    ⟨(d.tree.children id).foldl (Tree.released ((d.tree.lineage id).bindings .empty)) d.tree,
      d.tree.children id⟩ := rfl

/-- The data that a command gets out of a reply. -/
inductive Yields (d : Document) : Command → Selection → Prop where
  /-- What is retrieved are the children of the data element. -/
  | get {id : NodeId} (filter : Filter) (hdata : d.tree.child? d.root "data" = some id) :
    Yields d (.get filter) (takeChildren d id)
  /-- So it is for what is retrieved of a configuration. -/
  | getConfig {id : NodeId} (source : Datastore) (filter : Filter)
    (hdata : d.tree.child? d.root "data" = some id) :
    Yields d (.getConfig source filter) (takeChildren d id)
  /-- So it is for the streams of notifications. -/
  | getStreams {id : NodeId} (hdata : d.tree.child? d.root "data" = some id) :
    Yields d .getStreams (takeChildren d id)
  /-- An action of which the reply says that all went well brings no nodes. -/
  | done (tree : Tree) (node : NodeId) (hok : (d.tree.child? d.root "ok").isSome) :
    Yields d (.action tree node) ⟨d.tree, []⟩
  /-- Another action brings the children of the data element. -/
  | action {id : NodeId} (tree : Tree) (node : NodeId) (hok : d.tree.child? d.root "ok" = none)
    (hdata : d.tree.child? d.root "data" = some id) :
    Yields d (.action tree node) (takeChildren d id)
  /-- An operation that is given as a tree brings the children of the reply itself. -/
  | rpc (tree : Tree) (node : NodeId) : Yields d (.rpc tree node) (takeChildren d d.root)

/-- A reply that should bring data brings the children of the data element, if it has one. -/
theorem dataAnswer_eq_data_iff {data : Selection} : dataAnswer d = .ok (.data data) ↔
    ∃ id, d.tree.child? d.root "data" = some id ∧ takeChildren d id = data := by
  unfold dataAnswer
  cases d.tree.child? d.root "data" <;> simp

/-- The data that a command answers are those that the reply yields for it. -/
theorem answer_eq_data_iff {c : Command} {data : Selection} :
    answer d c = .ok (.data data) ↔ Yields d c data := by
  constructor
  · intro h
    have hdone : okAnswer d ≠ .ok (.data data) := by
      unfold okAnswer
      split <;> nofun
    cases c with
    | get | getConfig | getStreams =>
      obtain ⟨id, hid, rfl⟩ := dataAnswer_eq_data_iff.1 h
      constructor
      exact hid
    | rpc tree node =>
      cases h
      exact .rpc tree node
    | action tree node =>
      rw [answer] at h
      split at h
      · next hok =>
        cases h
        exact .done tree node hok
      · next hok =>
        obtain ⟨id, hid, rfl⟩ := dataAnswer_eq_data_iff.1 h
        exact .action tree node (by simpa using hok) hid
    | partialLock =>
      rw [answer, lockAnswer] at h
      split at h <;> cases h
    | _ => exact absurd h hdone
  · intro h
    cases h with
    | get _ hdata | getConfig _ _ hdata | getStreams hdata =>
      exact dataAnswer_eq_data_iff.2 ⟨_, hdata, rfl⟩
    | done _ _ hok => rw [answer, if_pos hok]
    | action _ _ hok hdata =>
      rw [answer, hok, if_neg (by simp)]
      exact dataAnswer_eq_data_iff.2 ⟨_, hdata, rfl⟩
    | rpc => rfl

/-- The children of an element that are taken out of a reply are all of its children in order, and
none has a parent any more. At every node of the tree, below them and elsewhere, all labels mean
what they meant in the reply, and no other link has changed. What commands answer as data is taken
out of replies in this way: out of the data element, or out of the reply itself for an operation
that is given as a tree. Only an action of which the reply says that all went well brings no nodes
without taking any. -/
theorem takeChildren_keeps_scope (h : d.tree.Forest) :
    (∀ id, (takeChildren d id).nodes = d.tree.children id ∧
      (∀ c ∈ (takeChildren d id).nodes, (takeChildren d id).tree.parent? c = none) ∧
      (∀ x, x ≠ id → (takeChildren d id).tree.children x = d.tree.children x) ∧
      ∀ n label, (takeChildren d id).tree.nsOf? n label = d.tree.nsOf? n label) ∧
    ∀ c data, answer d c = .ok (.data data) ↔ Yields d c data := by
  refine ⟨fun id => ?_, fun _ _ => answer_eq_data_iff⟩
  obtain ⟨hparents, hchildren, hlabels⟩ := h.foldl_released (d.tree.inScopeAt_lineage id)
    (h.nodup_children id) fun c hc => h.mem_children_iff.1 hc
  rw [takeChildren_eq]
  refine ⟨rfl, fun c hc => ?_, fun x hx => ?_, hlabels⟩
  · exact (hparents c).trans (if_pos hc)
  · refine (hchildren x).trans (List.filter_eq_self.2 fun y hy => ?_)
    -- a child of another node is none of the children that are taken
    rw [decide_eq_true_iff]
    intro hid
    have hparent := h.mem_children_iff.1 hid
    rw [h.mem_children_iff.1 hy] at hparent
    exact hx (Option.some.inj hparent)

/-- A reply whose data are two elements, one of which has a child. Labels are bound again, and one
is bound to the empty namespace. -/
def scopedReply : Document where
  tree := ((Tree.empty (.standard 0)).addCopy
    (.mk 0 { ns := some nsNetconf, name := "rpc-reply",
             bindings := ⟨[⟨"", nsNetconf⟩, ⟨"p", "urn:1"⟩, ⟨"q", "urn:q"⟩]⟩ } [
      .mk 0 { ns := some nsNetconf, name := "data", bindings := ⟨[⟨"p", "urn:2"⟩]⟩ } [
        .mk 0 { name := "a", bindings := ⟨[⟨"", ""⟩, ⟨"p", "urn:3"⟩]⟩ } [],
        .mk 0 { ns := some "urn:2", name := "b", bindings := ⟨[⟨"q", ""⟩]⟩ } [
          .mk 0 { ns := some "urn:2", name := "c" } []]]])).1
  root := 0

/-- The two elements are taken out of the reply, and below them the labels mean what the innermost
bindings say, those of the data element and of the reply included. They answer a retrieval; an
operation that is given as a tree gets the data element. -/
theorem takeChildren_scopedReply :
    (takeChildren scopedReply 1).nodes = [2, 3] ∧
      (takeChildren scopedReply 1).tree.parent? 3 = none ∧
      (takeChildren scopedReply 1).tree.nsOf? 2 "p" = some "urn:3" ∧
      (takeChildren scopedReply 1).tree.nsOf? 4 "p" = some "urn:2" ∧
      (takeChildren scopedReply 1).tree.nsOf? 4 "q" = some "" ∧
      (takeChildren scopedReply 1).tree.nsOf? 4 "" = some nsNetconf ∧
      answer scopedReply (.get .all) = .ok (.data (takeChildren scopedReply 1)) ∧
      answer scopedReply (.rpc scopedReply.tree 0) =
        .ok (.data (takeChildren scopedReply 0)) := by
  have hforest : scopedReply.tree.Forest := (Tree.forest_empty (.standard 0)).addCopy _
  obtain ⟨htaken, hanswers⟩ := takeChildren_keeps_scope hforest
  obtain ⟨hnodes, hparents, -, hlabels⟩ := htaken 1
  exact ⟨hnodes, hparents 3 (by decide), (hlabels 2 "p").trans (by decide),
    (hlabels 4 "p").trans (by decide), (hlabels 4 "q").trans (by decide),
    (hlabels 4 "").trans (by decide), (hanswers _ _).2 (.get .all rfl),
    (hanswers _ _).2 (.rpc _ _)⟩

end Session

end Netconf
