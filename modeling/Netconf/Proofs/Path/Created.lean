import Netconf.Proofs.Path.Fulfilment
import Netconf.Proofs.Path.Sites
import Netconf.Proofs.Tree.Equivalence

/-!
# What creating a path does

A path whose predicates assign is found once it was created: new below a node
(`mem_query_of_create`), or as far as it was missing below the nodes at which its longest part ends
(`create_longest`). Creating it once more then finds all of it and changes nothing.
-/

namespace Netconf.Path

open Netconf.Tree (only only_self only_of_ne)

variable {t t' : Tree} {id : NodeId} {reuse : Reuse} {bindings : Option Bindings} {text : String}
  {p : Path}

/-! ## Reading a path -/

/-- A path that is read has steps. -/
theorem ne_nil_of_parse (hparse : parse text = .ok p) : p.steps ≠ [] := by
  unfold parse at hparse
  split at hparse
  · cases hparse
  split at hparse
  · cases hparse
  next steps hsteps =>
  cases hparse
  cases written_of_parseTokens hsteps with
  | root => simp
  | relative h => cases h <;> simp
  | absolute => simp

/-- A path without steps to the document can be created if all steps go to children, and nodes are
made for all of them. -/
theorem parseForCreate_eq_ok (hparse : parse text = .ok p)
    (hrelative : ∀ step ∈ p.steps, step.axis ≠ .root) {steps : List Step} :
    parseForCreate text = .ok steps ↔
      steps = p.steps ∧ ∀ step ∈ p.steps, step.axis = .child := by
  have hfilter : p.steps.filter (fun s => s.axis != .root) = p.steps := by
    rw [List.filter_eq_self]
    intro step hstep
    simpa using hrelative step hstep
  have hall : p.steps.all (fun s => s.axis == .child) = true ↔
      ∀ step ∈ p.steps, step.axis = .child := by
    simp
  unfold parseForCreate stepsToCreate
  rw [hparse]
  simp only [hfilter]
  rw [← hall]
  cases hsteps : p.steps with
  | nil => exact absurd hsteps (ne_nil_of_parse hparse)
  | cons step more =>
    by_cases hchild : ((step :: more).all fun s => s.axis == .child) = true
    · simp only [if_pos hchild]
      exact ⟨fun heq => ⟨(Except.ok.inj heq).symm, hchild⟩,
        fun heq => congrArg Except.ok heq.1.symm⟩
    · simp only [if_neg hchild]
      exact iff_of_false nofun fun heq => hchild heq.2

/-- Predicates that assign in the steps of a path that was read. -/
theorem assigns_of_parse (hparse : parse text = .ok p)
    (hassign : ∀ step ∈ p.steps, Assign step.predicates) : ∀ step ∈ p.steps, step.Assigns :=
  fun step hstep => ⟨hassign step hstep, fun _ hq _ hw => sane_of_parse hparse hstep hq hw⟩

/-! ## A new path -/

/-- What a new path below a node leads to. -/
theorem of_buildSteps_none (h : t.Forest) (hid : id < t.size) {steps : List Step}
    {ends : List NodeId} (hok : buildSteps id .none text steps t = .ok ends t') :
    ∃ last es heads, ends = [last] ∧ drafts (t.bindingsAt id) (t.ns? id) steps = some es ∧
      t.Sprouts (only id heads) t' ∧ Chain t' t.size es id heads last ∧
      t'.size = t.size + nodeCount es := by
  have hone : Build.Ensures (buildSteps id .none text steps) t
      (fun ends t' => ∃ last es heads, ends = [last] ∧
        drafts (t.bindingsAt id) (t.ns? id) steps = some es ∧ t.Sprouts (only id heads) t' ∧
        Chain t' t.size es id heads last ∧ t'.size = t.size + nodeCount es) fun _ => True := by
    refine Build.ensures_bind.2 (Build.ensures_get.2 (Build.ensures_bind.2 ?_))
    refine (ensures_buildBelow h hid steps).mono ?_ fun _ _ => trivial
    rintro last t₁ ⟨es, heads, hes, hsprouts, hchain, hsize⟩
    exact Build.ensures_pure.2 ⟨last, es, heads, rfl, hes, hsprouts, hchain, hsize⟩
  exact hone.of_ok hok

/-- A path whose predicates assign selects what its steps reach. -/
theorem query_eq_reached (hparse : parse text = .ok p)
    (haxis : ∀ step ∈ p.steps, step.axis = .child)
    (hassign : ∀ step ∈ p.steps, Assign step.predicates) (t : Tree) (id : NodeId) :
    t.query id text = .ok (reached t p.steps [id]) := by
  unfold Tree.query eval
  rw [hparse]
  simp only [evalSteps_eq_descend haxis,
    descend_eq fun step hstep e he => (hassign step hstep).targets e he]

/-- A node in terms of what it carries and its links. -/
theorem node_eq (t : Tree) (x : NodeId) :
    t.node x = ⟨t.element x, t.parent? x, t.children x⟩ := rfl

/-- A path whose predicates assign, created new below a node, is found from that node: what it
selects contains the node at its end. One slot is new for each step and each assigned child, the
node has one more child, and the other slots are as they were. -/
theorem mem_query_of_create (h : t.Forest) (hid : id < t.size) (hparse : parse text = .ok p)
    (hrelative : ∀ step ∈ p.steps, step.axis ≠ .root)
    (hassign : ∀ step ∈ p.steps, Assign step.predicates) {ends : List NodeId}
    (hok : create id .none bindings text t = .ok ends t') :
    ∃ e c : NodeId, ends = [e] ∧ (∃ found, t'.query id text = .ok found ∧ e ∈ found) ∧
      t'.size = t.size + p.steps.length +
        (p.steps.flatMap Step.predicates).countP Expr.assignsChild ∧
      t.size ≤ c ∧ c < t'.size ∧
      t'.node id = { t.node id with
        element := (t.element id).bindAll (bindings.getD {}), children := t.children id ++ [c] } ∧
      (∀ x < t.size, x ≠ id → t'.node x = t.node x) ∧ t'.defaults = t.defaults := by
  have hs := h.bound id bindings
  rw [create_eq] at hok
  split at hok
  · cases hok
  next steps hsteps =>
  obtain ⟨rfl, haxis⟩ := (parseForCreate_eq_ok hparse hrelative).1 hsteps
  obtain ⟨last, es, heads, rfl, hes, hsprouts, hchain, hsize⟩ :=
    of_buildSteps_none hs (by rw [Tree.size_bound]; exact hid) hok
  obtain ⟨c, rfl, hc⟩ : ∃ c, heads = [c] ∧ (t.bound id bindings).size ≤ c ∧ c < t'.size := by
    cases hchain with
    | nil =>
      have hempty : Chain t' 0 [] id [] id := .nil id
      exact absurd (hempty.steps_eq_nil hes rfl) (ne_nil_of_parse hparse)
    | cons hbase hlt => exact ⟨_, rfl, hbase, hlt⟩
  rw [Tree.size_bound] at hc hsize
  have hlt : ∀ x < t.size, x < (t.bound id bindings).size := fun x hx => by
    rwa [Tree.size_bound]
  have hlabels : ∀ label, t'.nsOf? id label = ((t.bound id bindings).bindingsAt id).ns? label :=
    fun label => by rw [Tree.ns?_bindingsAt, hsprouts.nsOf? hs (hlt id hid)]
  have hchildren : t'.children id = (t.bound id bindings).children id ++ [c] := by
    rw [hsprouts.children id (hlt id hid), only_self]
  refine ⟨last, c, rfl, ⟨_, query_eq_reached hparse haxis hassign t' id, ?_⟩, ?_, hc.1, hc.2, ?_,
    fun x hx hne => ?_, hsprouts.defaults⟩
  · refine hchain.mem_reached hsprouts.forest hes (assigns_of_parse hparse hassign) ?_ hlabels
      List.mem_cons_self
    rw [hchildren]
    exact List.subset_append_right _ _
  · rw [hsize, nodeCount_drafts hes, Nat.add_assoc]
  · rw [node_eq, hsprouts.element id (hlt id hid), hsprouts.parent? id (hlt id hid), hchildren,
      Tree.element_bound, if_pos ⟨rfl, hid⟩, Tree.parent?_bound, Tree.children_bound]
    rfl
  · rw [node_eq, hsprouts.element x (hlt x hx), hsprouts.parent? x (hlt x hx),
      hsprouts.children x (hlt x hx), only_of_ne _ hne, List.append_nil, Tree.element_bound,
      if_neg fun heq => hne heq.1, Tree.parent?_bound, Tree.children_bound]
    rfl

/-- The expression of a node with a child and an attribute, and of a node below it. -/
def keyedText : String := "b[k='v'][@x=1]/c"

/-- The steps of the expression. -/
def keyed : Path :=
  ⟨keyedText, [
    { axis := .child, name := some "b", predicates := [
      .binary (.compare .eq) (.child none "k") (.literal (.text "v")),
      .binary (.compare .eq) (.attribute "x") (.literal (.integer 1))] },
    { axis := .child, name := some "c" }]⟩

/-- The tree of a document with two nodes of the same name. -/
def twins : Tree :=
  ((Tree.empty (.standard 0)).addCopy
    (.mk 0 { ns := some "urn:a", name := "a" } [
      .mk 0 { ns := some "urn:a", name := "b" } [],
      .mk 0 { ns := some "urn:a", name := "b" } []])).1

/-- The tree is a forest. -/
theorem forest_twins : twins.Forest := (Tree.forest_empty (.standard 0)).addCopy _

/-- The expression is read as its steps. -/
theorem parse_keyed : parse keyedText = .ok keyed := by
  have htokens : tokensOf keyedText = .ok [.atom "b", .openBracket, .atom "k", .comparison .eq,
      .text "v", .closeBracket, .openBracket, .attribute "x", .comparison .eq, .integer 1,
      .closeBracket, .slash, .atom "c"] := rfl
  have hsteps : parseTokens [.atom "b", .openBracket, .atom "k", .comparison .eq, .text "v",
      .closeBracket, .openBracket, .attribute "x", .comparison .eq, .integer 1, .closeBracket,
      .slash, .atom "c"] = .ok keyed.steps := rfl
  rw [parse, htokens]
  simp only [hsteps]
  rfl

/-- A node with an assigned child and an assigned attribute, and a node below it, are made new
beside two nodes of the same name; the query from above finds the lower one. -/
theorem mem_query_of_create_keyed :
    ∃ e t', create 0 .none none keyedText twins = .ok [e] t' ∧ t'.size = 6 ∧
      ∃ found, t'.query 0 keyedText = .ok found ∧ e ∈ found := by
  have hrelative : ∀ step ∈ keyed.steps, step.axis ≠ .root := by decide
  obtain ⟨ends, t', hok⟩ : ∃ ends t', create 0 .none none keyedText twins = .ok ends t' := by
    rw [create_eq, (parseForCreate_eq_ok parse_keyed hrelative).2 ⟨rfl, by decide⟩]
    exact ⟨_, _, rfl⟩
  obtain ⟨e, c, rfl, hfound, hsize, -⟩ := mem_query_of_create forest_twins (by decide) parse_keyed
    hrelative (by decide) hok
  exact ⟨e, t', hok, hsize.trans (by decide), hfound⟩

/-! ## A path that may be there -/

/-- The sites of a path of which parts may be used are the nodes at which its longest part ends. -/
theorem sites_eq {s : Tree} {steps : List Step} {all found : List NodeId} {k : Nat}
    (hl : Longest s steps id k found) (haxis : ∀ step ∈ steps, step.axis = .child)
    (hall : evalSteps s steps id = .ok all) (hreuse : reuse ≠ .none) :
    sites s id reuse steps = .ok (found, steps.drop k) := by
  cases reuse with
  | none => exact absurd rfl hreuse
  | single => exact longestMatch_eq hl haxis hall
  | every => exact longestMatch_eq hl haxis hall

/-- What is made at the sites of a path. -/
theorem of_buildSteps {s : Tree} (h : s.Forest) (hid : id < s.size) {steps rest : List Step}
    (haxis : ∀ step ∈ steps, step.axis = .child) {found ends : List NodeId}
    (hsites : sites s id reuse steps = .ok (found, rest))
    (hok : buildSteps id reuse text steps s = .ok ends t') :
    ∃ new, s.Sprouts new t' ∧ (∀ x : NodeId, x ∉ found → new x = []) ∧
      List.Forall₂ (fun d e => ∃ es, drafts (s.bindingsAt d) (s.ns? d) rest = some es ∧
        Chain t' s.size es d (new d) e) found ends := by
  obtain ⟨ps, rest', new, hsites', hsprouts, hnew, hends⟩ :=
    (ensures_buildSteps h hid haxis).of_ok hok
  rw [hsites] at hsites'
  cases hsites'
  exact ⟨new, hsprouts, hnew, hends⟩

/-- Where a step is missing, exactly one node is put below each site. -/
theorem forall₂_cons_of_made {s : Tree} {rest : List Step} {found ends : List NodeId}
    {new : NodeId → List NodeId} (hsprouts : s.Sprouts new t') (hlt : ∀ d ∈ found, d < s.size)
    (hrest : rest ≠ [])
    (hends : List.Forall₂ (fun d e => ∃ es, drafts (s.bindingsAt d) (s.ns? d) rest = some es ∧
      Chain t' s.size es d (new d) e) found ends) :
    List.Forall₂ (fun d e => ∃ c es, t'.children d = s.children d ++ [c] ∧
      drafts (s.bindingsAt d) (s.ns? d) rest = some es ∧
        Chain t' s.size es d [c] e) found ends := by
  refine ((List.forall₂_and_left found ends).2 ⟨hlt, hends⟩).imp ?_
  rintro d e ⟨hd, es, hes, hchain⟩
  cases hnew : new d with
  | nil => exact absurd (hchain.steps_eq_nil hes hnew) hrest
  | cons c cs =>
    have hlength := hchain.length_heads
    rw [hnew, List.length_cons] at hlength
    obtain rfl : cs = [] := List.length_eq_zero_iff.1 (by omega)
    rw [hnew] at hchain
    exact ⟨c, es, by rw [hsprouts.children d hd, hnew], hes, hchain⟩

/-- The nodes that are made at the end of a path are reached by all of its steps. -/
theorem subset_reached {s : Tree} (h : s.Forest) (hid : id < s.size) {done rest : List Step}
    (hassign : ∀ step ∈ done ++ rest, step.Assigns) {ends : List NodeId}
    {new : NodeId → List NodeId} (hsprouts : s.Sprouts new t')
    (hlt : ∀ d ∈ reached s done [id], d < s.size)
    (hends : List.Forall₂ (fun d e => ∃ es, drafts (s.bindingsAt d) (s.ns? d) rest = some es ∧
      Chain t' s.size es d (new d) e) (reached s done [id]) ends) :
    ends ⊆ reached t' (done ++ rest) [id] := by
  have hdone : reached s done [id] ⊆ reached t' done [id] :=
    reached_subset hsprouts h
      (fun step hstep => (hassign step (List.mem_append_left _ hstep)).assign.targets)
      (by simpa using hid) (List.Subset.refl _)
  rw [reached_append]
  intro e he
  obtain ⟨d, hd, es, hes, hchain⟩ := exists_left_of_forall₂ hends he
  -- new nodes bind no labels, so what labels mean below them was decided at the site
  refine hchain.mem_reached hsprouts.forest hes
    (fun step hstep => hassign step (List.mem_append_right _ hstep)) ?_ ?_ (hdone hd)
  · rw [hsprouts.children d (hlt d hd)]
    exact List.subset_append_right _ _
  · intro label
    rw [Tree.ns?_bindingsAt, hsprouts.nsOf? h (hlt d hd)]

/-- Steps whose predicates assign are all there when they reach something, and nothing is made. -/
theorem buildSteps_of_reached {s : Tree} {steps : List Step}
    (haxis : ∀ step ∈ steps, step.axis = .child)
    (hassign : ∀ step ∈ steps, Assign step.predicates) (hne : reached s steps [id] ≠ [])
    (hreuse : reuse ≠ .none) :
    buildSteps id reuse text steps s = .ok (reached s steps [id]) s := by
  have hmatch := longestMatch_eq_reached haxis
    (fun step hstep e he => (hassign step hstep).targets e he) hne
  have hsites : sites s id reuse steps = .ok (reached s steps [id], []) := by
    cases reuse with
    | none => exact absurd rfl hreuse
    | single => exact hmatch
    | every => exact hmatch
  rw [buildSteps_eq, hsites]
  exact (if_neg fun hmany => hmany.1 rfl).trans (buildBelowAll_nil _ s)

/-- Steps whose predicates assign are all there once the missing ones were made. -/
theorem buildSteps_again {s : Tree} (h : s.Forest) (hid : id < s.size) {steps : List Step}
    (haxis : ∀ step ∈ steps, step.axis = .child) (hassign : ∀ step ∈ steps, step.Assigns)
    {k : Nat} {found ends : List NodeId} (hl : Longest s steps id k found)
    {new : NodeId → List NodeId} (hsprouts : s.Sprouts new t') (hlt : ∀ d ∈ found, d < s.size)
    (hends : List.Forall₂ (fun d e => ∃ es,
      drafts (s.bindingsAt d) (s.ns? d) (steps.drop k) = some es ∧
        Chain t' s.size es d (new d) e) found ends) (hreuse : reuse ≠ .none) :
    buildSteps id reuse text steps t' = .ok (reached t' steps [id]) t' ∧
      ends ⊆ reached t' steps [id] := by
  have htake : ∀ step ∈ steps.take k, step ∈ steps := fun _ => List.mem_of_mem_take
  have hfound : reached s (steps.take k) [id] = found := by
    have heval := hl.eval
    rw [evalSteps_eq_descend fun step hstep => haxis step (htake step hstep),
      descend_eq fun step hstep => (hassign step (htake step hstep)).assign.targets] at heval
    exact Except.ok.inj heval
  have hsub : ends ⊆ reached t' steps [id] := by
    rw [← List.take_append_drop k steps]
    exact subset_reached h hid (by rwa [List.take_append_drop]) hsprouts (by rwa [hfound])
      (by rwa [hfound])
  refine ⟨buildSteps_of_reached haxis (fun step hstep => (hassign step hstep).assign) ?_ hreuse,
    hsub⟩
  -- something was found, so something was made or found at the end
  intro hnil
  rw [hnil, List.subset_nil] at hsub
  subst hsub
  cases hends
  exact hl.ne_nil rfl

/-- A path of which parts may be used is made below the nodes at which its longest part ends. If all
of it is there, these are the result and nothing is made. If not, several such nodes are refused
where only one may be used, and else each of them gets one more child behind the others, with the
nodes of the missing steps below it; these end at the result. A path whose predicates assign is all
there when it is created once more. -/
theorem create_longest (h : t.Forest) (hid : id < t.size) (hparse : parse text = .ok p)
    (haxis : ∀ step ∈ p.steps, step.axis = .child) {all : List NodeId}
    (hall : evalSteps (t.bound id bindings) p.steps id = .ok all) {k : Nat} {found : List NodeId}
    (hl : Longest (t.bound id bindings) p.steps id k found) (hreuse : reuse ≠ .none) :
    (k = p.steps.length → create id reuse bindings text t = .ok found (t.bound id bindings)) ∧
    (k < p.steps.length → reuse = .single → 1 < found.length →
      create id reuse bindings text t =
        .error (.create (.ambiguous text)) (t.bound id bindings)) ∧
    ∀ ends t', create id reuse bindings text t = .ok ends t' →
      (k < p.steps.length →
        List.Forall₂ (fun d e => ∃ c es, t'.children d = t.children d ++ [c] ∧
          drafts ((t.bound id bindings).bindingsAt d) (t.ns? d) (p.steps.drop k) = some es ∧
          Chain t' t.size es d [c] e) found ends ∧
        ∀ x < t.size, x ∉ found → t'.children x = t.children x) ∧
      ((∀ step ∈ p.steps, Assign step.predicates) →
        ∃ found', create id reuse bindings text t' = .ok found' t' ∧ ends ⊆ found') := by
  have hs := h.bound id bindings
  have hsize : (t.bound id bindings).size = t.size := Tree.size_bound t id bindings
  have hid' : id < (t.bound id bindings).size := by rwa [hsize]
  have hrelative : ∀ step ∈ p.steps, step.axis ≠ .root := fun step hstep he => by
    rw [haxis step hstep] at he
    cases he
  have hsites := sites_eq hl haxis hall hreuse
  have hcreate : ∀ t : Tree, create id reuse bindings text t =
      buildSteps id reuse text p.steps (t.bound id bindings) := fun t => by
    rw [create_eq, (parseForCreate_eq_ok hparse hrelative).2 ⟨rfl, haxis⟩]
  refine ⟨fun hk => ?_, fun hk hsingle hmany => ?_, fun ends t' hok => ?_⟩
  · rw [hcreate, buildSteps_eq, hsites, hk, List.drop_length]
    exact (if_neg fun hmany => hmany.1 rfl).trans (buildBelowAll_nil found _)
  · have hambiguous : Ambiguous reuse found (p.steps.drop k) :=
      ⟨fun hnil => absurd (List.drop_eq_nil_iff.1 hnil) (Nat.not_le.2 hk), hsingle, hmany⟩
    rw [hcreate, buildSteps_eq, hsites]
    exact if_pos hambiguous
  · rw [hcreate] at hok
    obtain ⟨-, hlt⟩ := of_sites hs hid' haxis hsites
    obtain ⟨new, hsprouts, hnew, hends⟩ := of_buildSteps hs hid' haxis hsites hok
    refine ⟨fun hk => ⟨?_, fun x hx hxf => ?_⟩, fun hassign => ?_⟩
    · have hrest : p.steps.drop k ≠ [] := fun hnil =>
        absurd (List.drop_eq_nil_iff.1 hnil) (Nat.not_le.2 hk)
      simpa only [hsize, Tree.children_bound, Tree.ns?_bound] using
        forall₂_cons_of_made hsprouts hlt hrest hends
    · rw [hsprouts.children x (by rwa [hsize]), Tree.children_bound, hnew x hxf, List.append_nil]
    · -- the bindings are there since the first call, so making them again has no effect
      have hsame : t'.bound id bindings = t' := by
        refine Tree.bound_eq_self (e := t.element id) ?_
        rw [hsprouts.element id hid', Tree.bound, Tree.element_modifyElement, if_pos ⟨rfl, hid⟩]
      rw [hcreate, hsame]
      exact ⟨_, buildSteps_again hs hid' haxis (assigns_of_parse hparse hassign) hl hsprouts hlt
        hends hreuse⟩

/-- The first step of the path leads to two nodes, and the second one to none: a node is made below
each of the two, and both are found when the path is created once more. -/
theorem create_longest_twins :
    ∃ ends t', create 0 .every none "b/c" twins = .ok ends t' ∧ ends.length = 2 ∧
      ∃ found, create 0 .every none "b/c" t' = .ok found t' ∧ ends ⊆ found := by
  have hparse : parse "b/c" = .ok ⟨"b/c", [{ axis := .child, name := some "b" },
    { axis := .child, name := some "c" }]⟩ := rfl
  obtain ⟨ends, t', hok⟩ : ∃ ends t', create 0 .every none "b/c" twins = .ok ends t' :=
    ⟨_, _, rfl⟩
  have hl : Longest (twins.bound 0 none) [{ axis := .child, name := some "b" },
      { axis := .child, name := some "c" }] 0 1 [1, 2] := by
    refine ⟨by decide, rfl, by decide, fun j hj more hmore hne => ?_⟩
    by_contra hlt
    obtain rfl : j = 2 := by simp at hj; omega
    cases hmore
    exact hne rfl
  obtain ⟨-, -, hmade⟩ := create_longest forest_twins (by decide) hparse (by decide) rfl hl
    (nofun : Reuse.every ≠ .none)
  obtain ⟨hends, hagain⟩ := hmade ends t' hok
  exact ⟨ends, t', hok, (hends (by decide)).1.length_eq.symm, hagain (by decide)⟩

end Netconf.Path
