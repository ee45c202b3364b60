import Netconf.Proofs.Path.Assignments
import Netconf.Proofs.Path.Readings
import Netconf.Proofs.Path.Scanning

/-!
# Printed paths

The path of a node is a list of pieces, one for each node on the way from the top. It is read back
as a step to a child for each piece (`parse_path`), and the steps lead from the document to the node
and to the nodes with the same names above them (`mem_query_path`).
-/

namespace Netconf

namespace Path

/-! ## Pieces -/

/-- A part of a printed path: a name, and the label in front of it if there is one. -/
structure Piece where
  /-- The label. -/
  label : Option String
  /-- The name. -/
  name : String

namespace Piece

/-- How a piece is written, the slash in front of it apart. -/
def text (w : Piece) : String :=
  match w.label with
  | none => w.name
  | some label => label ++ ":" ++ w.name

/-- The tokens of a piece, the slash in front of it apart. -/
def tokens (w : Piece) : List Token :=
  match w.label with
  | none => [.atom w.name]
  | some label => [.atom label, .colon, .atom w.name]

/-- The step that is read from a piece. -/
def step (w : Piece) : Step := { axis := .child, label := w.label, name := some w.name }

/-- The names in a piece stand for themselves. -/
structure Simple (w : Piece) : Prop where
  /-- The label. -/
  label : ∀ label, w.label = some label → isSimple label = true
  /-- The name. -/
  name : isSimple w.name = true

end Piece

/-- How pieces are written, each behind a slash. -/
def written (ws : List Piece) : List Char := ws.flatMap fun w => '/' :: w.text.toList

/-- The tokens of pieces, each behind a slash. -/
def tokensFrom (ws : List Piece) : List Token := ws.flatMap fun w => .slash :: w.tokens

/-! ## Reading pieces -/

/-- Names end in front of further pieces. -/
theorem ends_written (ws : List Piece) : Ends (written ws) := by
  cases ws with
  | nil => nofun
  | cons w ws => exact .cons (by decide)

/-- A simple name does not start with a sign. -/
theorem head?_ne_of_isSimple {s : String} (hs : isSimple s = true) {c : Char}
    (hc : isLetter c = false) (rest : List Char) : (s.toList ++ rest).head? ≠ some c := by
  obtain ⟨d, ds, heq, hd, -⟩ := exists_cons_of_isSimple hs
  rw [heq]
  rintro ⟨⟩
  rw [hc] at hd
  cases hd

/-- A label, a colon and a name, in front of more. -/
theorem Piece.toList_text_append (label name : String) (rest : List Char) :
    (Piece.text ⟨some label, name⟩).toList ++ rest =
      label.toList ++ ':' :: (name.toList ++ rest) := by
  simp [Piece.text]

/-- A simple piece does not start with a slash. -/
theorem Piece.Simple.head?_ne {w : Piece} (hw : w.Simple) (rest : List Char) :
    (w.text.toList ++ rest).head? ≠ some '/' := by
  obtain ⟨label, name⟩ := w
  cases label with
  | none => exact head?_ne_of_isSimple hw.name rfl rest
  | some label =>
    rw [Piece.toList_text_append]
    exact head?_ne_of_isSimple (hw.label label rfl) rfl _

/-- The tokens of a simple piece, in front of what its name does not go on with. -/
theorem Piece.Simple.tokensIn_eq {w : Piece} (hw : w.Simple) {rest : List Char}
    (hrest : Ends rest) :
    tokensIn (w.text.toList ++ rest) = (tokensIn rest).map (w.tokens ++ ·) := by
  obtain ⟨label, name⟩ := w
  cases label with
  | none => exact tokensIn_name hw.name hrest
  | some label =>
    have hends : Ends (':' :: (name.toList ++ rest)) := .cons (by decide)
    rw [Piece.toList_text_append, tokensIn_name (hw.label label rfl) hends,
      tokensIn_colon (head?_ne_of_isSimple hw.name rfl rest), tokensIn_name hw.name hrest]
    cases tokensIn rest <;> rfl

/-- Simple pieces have their tokens. -/
theorem lexed_written {ws : List Piece} (hws : ∀ w ∈ ws, w.Simple) :
    Lexed (written ws) (tokensFrom ws) := by
  refine .of_tokensIn ?_
  induction ws with
  | nil => rfl
  | cons w ws ih =>
    obtain ⟨hw, hws⟩ := List.forall_mem_cons.1 hws
    have hslash := tokensIn_slash (hw.head?_ne (written ws))
    rw [hw.tokensIn_eq (ends_written ws), ih hws] at hslash
    exact hslash

/-- The tokens of a piece are those of its step. -/
theorem Piece.test (w : Piece) : Test w.tokens w.step := by
  obtain ⟨label, name⟩ := w
  cases label with
  | none => exact .child (.plain name)
  | some label => exact .child (.labelled label name)

/-- The tokens of pieces are those of their steps. -/
theorem steps_tokensFrom (w : Piece) (ws : List Piece) :
    Steps (w.tokens ++ tokensFrom ws) (w.step :: ws.map Piece.step) := by
  induction ws generalizing w with
  | nil => exact .one w.test .nil
  | cons v ws ih =>
    have hmore := Steps.more w.test .nil (ih v)
    rwa [List.append_nil] at hmore

/-- A text of simple pieces is read as their steps from the document. -/
theorem parse_written {text : String} {w : Piece} {ws : List Piece}
    (htext : text.toList = written (w :: ws)) (hws : ∀ v ∈ w :: ws, v.Simple) :
    parse text = .ok ⟨text, .toRoot :: (w :: ws).map Piece.step⟩ := by
  have htokens : Lexed text.toList (tokensFrom (w :: ws)) := htext ▸ lexed_written hws
  have hsteps : parseTokens (tokensFrom (w :: ws)) =
      .ok (.toRoot :: (w :: ws).map Piece.step) := (Written.absolute (steps_tokensFrom w ws)).read
  rw [parse, htokens.tokensOf]
  simp only [hsteps]

/-! ## The pieces of a path -/

/-- The label that a path writes in front of a name: that of the namespace, unless the namespace is
the one of the parent, has no label, or is the default one. -/
def writtenLabel? (defaults : Bindings) : Lineage → Option String
  | [] => none
  | e :: above =>
    if above.head?.map Element.ns = some e.ns then none
    else (e.ns.bind (Lineage.label? (e :: above) defaults)).filter (· ≠ "")

/-- The pieces of the path of a lineage. -/
def pieces (defaults : Bindings) : Lineage → List Piece
  | [] => []
  | e :: above => pieces defaults above ++ [⟨writtenLabel? defaults (e :: above), e.name⟩]

/-- A qualified name is written as a piece. -/
theorem qualifiedName_eq (defaults : Bindings) (e : Element) (above : Lineage) :
    Lineage.qualifiedName (e :: above) defaults =
      Piece.text ⟨(e.ns.bind (Lineage.label? (e :: above) defaults)).filter (· ≠ ""), e.name⟩ := by
  unfold Lineage.qualifiedName
  dsimp only
  cases e.ns.bind (Lineage.label? (e :: above) defaults) with
  | none => rfl
  | some label =>
    by_cases hempty : label = ""
    · subst hempty
      rfl
    · simp [Option.filter, Piece.text, hempty]

/-- A path is written as its pieces. -/
theorem toList_path (defaults : Bindings) (line : Lineage) :
    (line.path defaults).toList = written (pieces defaults line) := by
  induction line with
  | nil => rfl
  | cons e above ih =>
    rw [pieces, written, List.flatMap_append, ← written, ← ih]
    cases above with
    | nil =>
      have hpath : Lineage.path [e] defaults = "/" ++ Lineage.qualifiedName [e] defaults := rfl
      rw [hpath, qualifiedName_eq]
      simp [writtenLabel?, Lineage.path]
    | cons p above =>
      rw [Lineage.path, qualifiedName_eq]
      by_cases hns : p.ns = e.ns
      · simp [writtenLabel?, hns, Piece.text]
      · simp [writtenLabel?, hns]

/-! ## Following pieces -/

variable {t : Tree} {top : NodeId}

/-- Where the steps of pieces lead from the document above a top node. -/
def located (t : Tree) (top : NodeId) : List Piece → List NodeId
  | [] => []
  | w :: ws => reached t (ws.map Piece.step) ([top].filter (w.step.admits t))

/-- One more piece leads on to children. -/
theorem located_concat {ws : List Piece} (hne : ws ≠ []) (w : Piece) :
    located t top (ws ++ [w]) =
      (located t top ws).flatMap fun p => (t.children p).filter (w.step.admits t) := by
  cases ws with
  | nil => exact absurd rfl hne
  | cons v ws =>
    rw [List.cons_append, located, List.map_append, reached_append]
    rfl

/-- The step of a piece has no predicates, and admits what it accepts. -/
theorem Piece.admits_eq (w : Piece) : w.step.admits t = w.step.accepts t :=
  funext fun _ => Bool.and_true _

/-- The step to the document, and the steps of pieces behind it. -/
theorem evalSteps_pieces (t : Tree) (ws : List Piece) (c : NodeId) :
    evalSteps t (.toRoot :: ws.map Piece.step) c = .ok (located t (t.topOf c) ws) := by
  have hroot : Step.toRoot.apply t [.node c] = .ok [.document (t.topOf c)] := rfl
  rw [evalSteps, walk, hroot]
  cases ws with
  | nil => rfl
  | cons w ws =>
    have hfirst : w.step.apply t [.document (t.topOf c)] =
        .ok (([t.topOf c].filter (w.step.admits t)).map .node) := by
      rw [w.admits_eq]
      simp [Step.apply, Step.followAll, Step.follow, Step.filter, filtered, Piece.step]
    have haxis : ∀ step ∈ ws.map Piece.step, step.axis = .child := by
      simp [Piece.step]
    have hfree : ∀ step ∈ ws.map Piece.step, ∀ e ∈ step.predicates, e.target?.isSome = true := by
      simp [Piece.step]
    have hwalk := walk_eq (t := t) haxis ([t.topOf c].filter (w.step.admits t))
    rw [descend_eq hfree] at hwalk
    simp only [List.map_cons, walk, hfirst, hwalk, Except.map, located, filterMap_map_node]

end Path

namespace Tree

open Netconf.Path (Piece Step)

variable {t : Tree} {n : NodeId}

/-- The piece of a node in the paths through it. -/
def piece (t : Tree) (n : NodeId) : Piece :=
  ⟨Path.writtenLabel? t.defaults.bindings (t.lineage n), t.name n⟩

/-- The pieces of the path of a node. -/
def pieces (t : Tree) (n : NodeId) : List Piece := Path.pieces t.defaults.bindings (t.lineage n)

/-- The pieces of a node are those of its parent, and its own. -/
theorem Forest.pieces_eq (h : t.Forest) (n : NodeId) :
    t.pieces n = (t.parent? n).elim [] t.pieces ++ [t.piece n] := by
  rw [pieces, piece, h.lineage_eq, Path.pieces]
  cases t.parent? n <;> rfl

/-- A node that paths can lead to: its name and the label of its namespace are simple, and the label
means the namespace where the node stands. -/
structure Locatable (t : Tree) (n : NodeId) : Prop where
  /-- The name. -/
  name : Path.isSimple (t.name n) = true
  /-- The label, if the namespace has one that is not empty. -/
  label : ∀ ns ∈ t.ns? n, ∀ label ∈ t.labelOf? n ns, label ≠ "" →
    Path.isSimple label = true ∧ t.nsOf? n label = some ns

/-- Whether paths can lead to a node can be computed. -/
instance (t : Tree) (n : NodeId) : Decidable (t.Locatable n) :=
  decidable_of_iff (Path.isSimple (t.name n) = true ∧ ∀ ns ∈ t.ns? n, ∀ label ∈ t.labelOf? n ns,
    label ≠ "" → Path.isSimple label = true ∧ t.nsOf? n label = some ns)
    ⟨fun h => ⟨h.1, h.2⟩, fun h => ⟨h.name, h.label⟩⟩

/-- The label in the piece of a node is one of its namespace. -/
theorem Forest.labelOf?_of_piece (h : t.Forest) {label : String}
    (hlabel : (t.piece n).label = some label) :
    ∃ ns, t.ns? n = some ns ∧ t.labelOf? n ns = some label ∧ label ≠ "" := by
  have hwritten : Path.writtenLabel? t.defaults.bindings (t.lineage n) = some label := hlabel
  unfold labelOf?
  rw [h.lineage_eq] at hwritten ⊢
  rw [Path.writtenLabel?] at hwritten
  split at hwritten
  · cases hwritten
  · obtain ⟨hsome, hne⟩ := Option.filter_eq_some_iff.1 hwritten
    obtain ⟨ns, hns, hof⟩ := Option.bind_eq_some_iff.1 hsome
    exact ⟨ns, hns, hof, by simpa using hne⟩

/-- The piece of a node that can be led to is simple. -/
theorem Forest.simple_piece (h : t.Forest) (hn : t.Locatable n) : (t.piece n).Simple where
  label label hlabel := by
    obtain ⟨ns, hns, hof, hne⟩ := h.labelOf?_of_piece hlabel
    exact (hn.label ns hns label hof hne).1
  name := hn.name

/-- The step of a node that can be led to leads to it. -/
theorem Forest.admits_piece (h : t.Forest) (hn : t.Locatable n) :
    (t.piece n).step.admits t n = true := by
  have haccepts : (t.piece n).step.accepts t n = true := by
    unfold Step.accepts
    simp only [Piece.step]
    refine Bool.and_eq_true_iff.2 ⟨beq_self_eq_true _, ?_⟩
    cases hlabel : (t.piece n).label with
    | none => rfl
    | some label =>
      obtain ⟨ns, hns, hof, hne⟩ := h.labelOf?_of_piece hlabel
      simp [(hn.label ns hns label hof hne).2, hns]
  rw [Step.admits, haccepts]
  rfl

/-- The step of a node leads to nodes of the same name only. -/
theorem name_of_admits_piece {m : NodeId} (hm : (t.piece n).step.admits t m = true) :
    t.name m = t.name n := by
  rw [Step.admits, Bool.and_eq_true] at hm
  have haccepts := hm.1
  unfold Step.accepts at haccepts
  simp only [Piece.step, Bool.and_eq_true, beq_iff_eq] at haccepts
  exact haccepts.1

/-- The pieces of a node lead to it, and to nodes that have the same names on their ways up. -/
theorem Forest.located_pieces (h : t.Forest) (hall : ∀ x ∈ t.upward n, t.Locatable x) :
    n ∈ Path.located t (t.topOf n) (t.pieces n) ∧
      ∀ m ∈ Path.located t (t.topOf n) (t.pieces n),
        (t.lineage m).map Element.name = (t.lineage n).map Element.name := by
  -- from a parent to its children, along the way down from the top
  induction n using h.acyclic.induction with
  | _ n ih =>
    rw [h.upward_eq, List.forall_mem_cons] at hall
    obtain ⟨hn, habove⟩ := hall
    have hadmits := h.admits_piece hn
    rw [h.topOf_eq, h.pieces_eq]
    cases hp : t.parent? n with
    | none =>
      have hlocated : Path.located t n [t.piece n] = [n] := by
        rw [Path.located, List.filter_cons, hadmits]
        rfl
      simp [hlocated]
    | some p =>
      rw [hp] at habove
      obtain ⟨hmem, hnames⟩ := ih p hp habove
      have hne : t.pieces p ≠ [] := by
        rw [h.pieces_eq]
        simp
      simp only [Option.elim_some, Path.located_concat hne]
      refine ⟨List.mem_flatMap.2 ⟨p, hmem, List.mem_filter.2 ⟨h.mem_children_iff.2 hp, hadmits⟩⟩,
        fun m hm => ?_⟩
      -- any other node found has the name of `n`, below a node found for the parent
      obtain ⟨q, hq, hmq⟩ := List.mem_flatMap.1 hm
      obtain ⟨hchild, hm⟩ := List.mem_filter.1 hmq
      have hname : (t.element m).name = (t.element n).name := name_of_admits_piece hm
      rw [h.lineage_eq m, h.lineage_eq n, h.mem_children_iff.1 hchild, hp, List.map_cons,
        List.map_cons, hname]
      exact congrArg _ (hnames q hq)

/-- The pieces of a node are simple where all nodes on its way up can be led to. -/
theorem Forest.simple_pieces (h : t.Forest) (hall : ∀ x ∈ t.upward n, t.Locatable x) :
    ∀ w ∈ t.pieces n, w.Simple := by
  induction n using h.acyclic.induction with
  | _ n ih =>
    rw [h.upward_eq, List.forall_mem_cons] at hall
    obtain ⟨hn, habove⟩ := hall
    rw [h.pieces_eq, List.forall_mem_append, List.forall_mem_singleton]
    refine ⟨?_, h.simple_piece hn⟩
    cases hp : t.parent? n with
    | none => nofun
    | some p =>
      rw [hp] at habove
      exact ih p hp habove

/-- The path of a node is read as the steps of its pieces. -/
theorem Forest.parse_path (h : t.Forest) (hall : ∀ x ∈ t.upward n, t.Locatable x) :
    Path.parse (t.path n) = .ok ⟨t.path n, .toRoot :: (t.pieces n).map Piece.step⟩ := by
  have hsimple := h.simple_pieces hall
  have htext : (t.path n).toList = Path.written (t.pieces n) := Path.toList_path _ _
  cases hpieces : t.pieces n with
  | nil =>
    rw [h.pieces_eq] at hpieces
    exact absurd hpieces (by simp)
  | cons w ws =>
    rw [hpieces] at hsimple htext
    exact Path.parse_written htext hsimple

/-- The path of a node leads back to it from every node of its tree, if paths can lead to all nodes
on its way up. The other nodes that it leads to have the same names on their ways up. -/
theorem mem_query_path (h : t.Forest) {c : NodeId} (htop : t.topOf c = t.topOf n)
    (hall : ∀ x ∈ t.upward n, t.Locatable x) :
    ∃ found, t.query c (t.path n) = .ok found ∧ n ∈ found ∧
      ∀ m ∈ found, (t.lineage m).map Element.name = (t.lineage n).map Element.name := by
  refine ⟨Path.located t (t.topOf n) (t.pieces n), ?_, h.located_pieces hall⟩
  rw [query, h.parse_path hall]
  simp only [Path.eval, Path.evalSteps_pieces, htop]

/-- The tree of a document with two namespaces and three nodes of the same name. -/
def mixed : Tree :=
  ((Tree.empty (.standard 0)).addCopy
    (.mk 0 { ns := some "urn:a", name := "a", bindings := ⟨[⟨"", "urn:a"⟩]⟩ } [
      .mk 0 { ns := some "urn:a", name := "b" } [],
      .mk 0 { ns := some "urn:b", name := "b", bindings := ⟨[⟨"p", "urn:b"⟩]⟩ } [
        .mk 0 { ns := some "urn:b", name := "b" } []]])).1

/-- The path of the innermost node has a label where the namespace changes, and leads back to the
node from another branch of the tree. -/
theorem mem_query_path_mixed : mixed.path 3 = "/a/p:b/b" ∧
    ∃ found, mixed.query 1 (mixed.path 3) = .ok found ∧ 3 ∈ found ∧
      ∀ m ∈ found, (mixed.lineage m).map Element.name = (mixed.lineage 3).map Element.name := by
  refine ⟨rfl, mem_query_path ((forest_empty (.standard 0)).addCopy _) rfl ?_⟩
  decide

end Tree

end Netconf
