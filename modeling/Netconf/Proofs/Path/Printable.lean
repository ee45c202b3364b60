import Netconf.Proofs.Path.Printed
import Netconf.Proofs.Path.Scanning

/-!
# Paths of identifiers

Names and labels are identifiers: a letter or an underscore, and then letters, digits, underscores,
hyphens and dots. A path writes them as they are, but in a path a name starts with a letter and goes
on with what is no dot. An underscore in front of a word is a character that starts no token, and a
dot in a word is a token of its own, behind an atom, where no path has one (`Written.dot_first`). So
the path of a node is read exactly when no word of it starts with an underscore or has a dot, and
then as one step to a child for each node of the chain (`Tree.parse_path_of_identifiers`).
-/

namespace Netconf

namespace Path

variable {c : Char} {cs rest : List Char} {s : String} {ts us vs : List Token} {d : Token}

/-! ## Identifiers -/

/-- Is the text an identifier: a letter or an underscore, and letters, digits, underscores, hyphens
and dots? -/
def isIdentifier (s : String) : Bool :=
  match s.toList with
  | [] => false
  | c :: cs => (isLetter c || c == '_') && cs.all fun d => isNameChar d || d == '.'

/-- The first character of an identifier, and the others. -/
theorem exists_cons_of_isIdentifier (h : isIdentifier s = true) :
    ∃ c cs, s.toList = c :: cs ∧ (isLetter c = true ∨ c = '_') ∧
      ∀ d ∈ cs, isNameChar d = true ∨ d = '.' := by
  unfold isIdentifier at h
  split at h
  · cases h
  next c cs hs =>
  simp only [Bool.and_eq_true, Bool.or_eq_true, beq_iff_eq, List.all_eq_true] at h
  exact ⟨c, cs, hs, h.1, h.2⟩

/-- A path can have the word as it is: the word does not start with an underscore and has no dot. -/
def Unescaped (s : String) : Prop := s.toList.head? ≠ some '_' ∧ '.' ∉ s.toList

instance : DecidablePred Unescaped := fun s =>
  inferInstanceAs (Decidable (s.toList.head? ≠ some '_' ∧ '.' ∉ s.toList))

/-- The identifiers that a path can have as they are, are the simple names. -/
theorem isSimple_iff_unescaped (h : isIdentifier s = true) : isSimple s = true ↔ Unescaped s := by
  obtain ⟨c, cs, hs, hc, hcs⟩ := exists_cons_of_isIdentifier h
  unfold isSimple Unescaped
  rw [hs]
  constructor
  · intro hsimple
    obtain ⟨hletter, hnames⟩ := Bool.and_eq_true_iff.1 hsimple
    have hfirst : c ≠ '_' := by
      rintro rfl
      cases hletter
    have hdot : '.' ∉ c :: cs := by
      intro hmem
      rcases List.mem_cons.1 hmem with rfl | hmem
      · cases hletter
      · cases List.all_eq_true.1 hnames _ hmem
    exact ⟨by simpa using hfirst, hdot⟩
  · rintro ⟨hfirst, hdot⟩
    have hletter : isLetter c = true := hc.resolve_right (by simpa using hfirst)
    have hnames : cs.all isNameChar = true := by
      rw [List.all_eq_true]
      intro d hd
      refine (hcs d hd).resolve_right ?_
      rintro rfl
      exact hdot (List.mem_cons_of_mem _ hd)
    exact Bool.and_eq_true_iff.2 ⟨hletter, hnames⟩

/-- An identifier that is no simple name starts with an underscore, or with a simple name and a
dot. -/
theorem cases_of_not_isSimple (h : isIdentifier s = true) (hnot : isSimple s = false) :
    (∃ cs, s.toList = '_' :: cs) ∨
      ∃ a cs, isSimple a = true ∧ s.toList = a.toList ++ '.' :: cs := by
  obtain ⟨c, cs, hs, hc, hcs⟩ := exists_cons_of_isIdentifier h
  rcases hc with hc | rfl
  · refine .inr ⟨String.ofList (c :: cs.takeWhile isNameChar), ?_⟩
    have hsimple : isSimple (String.ofList (c :: cs.takeWhile isNameChar)) = true := by
      unfold isSimple
      rw [String.toList_ofList]
      exact Bool.and_eq_true_iff.2 ⟨hc, List.all_takeWhile⟩
    rw [String.toList_ofList, hs]
    cases hdrop : cs.dropWhile isNameChar with
    | nil =>
      -- all characters are characters of names, so that the name is simple
      have hall : cs.all isNameChar = true := List.all_eq_true.2 (List.dropWhile_eq_nil_iff.1 hdrop)
      have hsimple : isSimple s = true := by
        unfold isSimple
        rw [hs]
        exact Bool.and_eq_true_iff.2 ⟨hc, hall⟩
      exact absurd (hnot.symm.trans hsimple) Bool.noConfusion
    | cons d more =>
      have hmem : d ∈ cs := (List.dropWhile_sublist isNameChar).subset (hdrop ▸ List.mem_cons_self)
      have hstop : isNameChar d = false := by
        have hhead := List.head_dropWhile_not (l := cs) isNameChar (by rw [hdrop]; simp)
        simpa [hdrop] using hhead
      obtain rfl : d = '.' := (hcs d hmem).resolve_left (by rw [hstop]; exact Bool.noConfusion)
      refine ⟨more, hsimple, ?_⟩
      rw [List.cons_append, ← hdrop, List.takeWhile_append_dropWhile]
  · exact .inl ⟨cs, hs⟩

/-! ## Dots in paths -/

/-- The token is one of those that are made of dots. -/
def Token.IsDots (d : Token) : Prop := d = .dot ∨ d = .dotDot

/-- Dots in the front of a step are all of it. -/
theorem Test.eq_singleton {step : Step} (h : Test ts step) (hd : d.IsDots) (hmem : d ∈ ts) :
    ts = [d] := by
  have hqualified : ∀ {us : List Token} {label : Option String} {name : String},
      Qualified us label name → d ∉ us := by
    rintro us label name (_ | _) hmem <;> rcases hd with rfl | rfl <;> simp at hmem
  cases h with
  | self | parent => rw [List.mem_singleton.1 hmem]
  | child h => exact absurd hmem (hqualified h)
  | on _ h => rcases hd with rfl | rfl <;> simp [hqualified h] at hmem

/-- Dots of a step that no bracket stands in front of are at its front. -/
theorem Test.dot_first {step : Step} {es : List Expr} {ps : List Token} (ht : Test ts step)
    (hp : Predicates ps es) (heq : ts ++ ps = us ++ d :: vs) (hd : d.IsDots)
    (hno : Token.openBracket ∉ us) : us = [] := by
  have hbracket : d ≠ .openBracket := by rcases hd with rfl | rfl <;> nofun
  rcases List.append_eq_append_iff.1 heq with ⟨as, rfl, has⟩ | ⟨as, rfl, has⟩
  · -- they would be among the predicates, behind a bracket
    cases as with
    | nil => exact absurd (hp.head d (by rw [has]; rfl)) hbracket
    | cons a as =>
      have ha : a = .openBracket := hp.head a (by rw [has]; rfl)
      exact absurd (List.mem_append_right _ (ha ▸ List.mem_cons_self)) hno
  · cases as with
    | nil => exact absurd (hp.head d (by rw [List.nil_append] at has; rw [← has]; rfl)) hbracket
    | cons a as =>
      obtain ⟨rfl, -⟩ := List.cons.inj has
      have hall := ht.eq_singleton hd (List.mem_append_right _ List.mem_cons_self)
      cases us with
      | nil => rfl
      | cons u us =>
        have htail := (List.cons.inj hall).2
        simp at htail

/-- A slash in front of what ends in one, or of nothing, ends in one. -/
theorem slash_last_cons (h : ∀ t ∈ us.getLast?, t = Token.slash) :
    ∀ t ∈ (Token.slash :: us).getLast?, t = Token.slash := by
  rw [List.getLast?_cons]
  intro t ht
  cases hlast : us.getLast? with
  | none => simpa [hlast] using ht.symm
  | some u =>
    have hu : u = .slash := h u hlast
    simpa [hlast, hu] using ht.symm

/-- Dots that no bracket stands in front of are behind a slash, or in front. -/
theorem Steps.dot_first {ss : List Step} (h : Steps ts ss) (heq : ts = us ++ d :: vs)
    (hd : d.IsDots) (hno : Token.openBracket ∉ us) : ∀ t ∈ us.getLast?, t = .slash := by
  have hslash : d ≠ .slash := by rcases hd with rfl | rfl <;> nofun
  induction h generalizing us with
  | one ht hp =>
    rw [ht.dot_first hp heq hd hno]
    nofun
  | more ht hp _ ih =>
    rcases List.append_eq_append_iff.1 heq with ⟨as, rfl, has⟩ | ⟨as, has, hrest⟩
    · cases as with
      | nil => exact absurd (List.cons.inj has).1.symm hslash
      | cons a as =>
        obtain ⟨rfl, hvs⟩ := List.cons.inj has
        have hno' : Token.openBracket ∉ as := fun hmem =>
          hno (List.mem_append_right _ (List.mem_cons_of_mem _ hmem))
        rw [List.getLast?_append_of_ne_nil _ (List.cons_ne_nil _ _)]
        exact slash_last_cons (ih hvs hno')
    · cases as with
      | nil => exact absurd (List.cons.inj hrest).1 hslash
      | cons a as =>
        obtain ⟨rfl, -⟩ := List.cons.inj hrest
        rw [ht.dot_first hp has hd hno]
        nofun

/-- In a path, dots that no bracket stands in front of are behind a slash, or in front. -/
theorem Written.dot_first {ss : List Step} (h : Written ts ss) (heq : ts = us ++ d :: vs)
    (hd : d.IsDots) (hno : Token.openBracket ∉ us) : ∀ t ∈ us.getLast?, t = .slash := by
  have hslash : d ≠ .slash := by rcases hd with rfl | rfl <;> nofun
  cases h with
  | relative h => exact h.dot_first heq hd hno
  | root =>
    cases us with
    | nil => exact absurd (List.cons.inj heq).1.symm hslash
    | cons u us => simp at heq
  | absolute h =>
    cases us with
    | nil => nofun
    | cons u us =>
      obtain ⟨rfl, hts⟩ := List.cons.inj heq
      exact slash_last_cons (h.dot_first hts hd fun hmem => hno (List.mem_cons_of_mem _ hmem))

/-! ## Texts with a stray dot -/

/-- The text has no tokens, or dots among them behind an atom, and no bracket in front of those. -/
def Stray (cs : List Char) : Prop :=
  ∀ ts, tokensIn cs = .ok ts → ∃ us a d vs, ts = us ++ .atom a :: d :: vs ∧ Token.IsDots d ∧
    Token.openBracket ∉ us

namespace Stray

/-- More tokens in front, no brackets among them. -/
theorem append (h : Stray rest) (hno : Token.openBracket ∉ us)
    (heq : tokensIn cs = (tokensIn rest).map (us ++ ·)) : Stray cs := by
  intro ts hts
  rw [heq] at hts
  cases hrest : tokensIn rest with
  | error e =>
    rw [hrest] at hts
    cases hts
  | ok more =>
    rw [hrest] at hts
    cases hts
    obtain ⟨vs, a, d, ws, rfl, hd, hvs⟩ := h more hrest
    refine ⟨us ++ vs, a, d, ws, (List.append_assoc _ _ _).symm, hd, fun hmem => ?_⟩
    exact (List.mem_append.1 hmem).elim hno hvs

/-- An underscore starts no token. -/
theorem underscore (cs : List Char) : Stray ('_' :: cs) := by
  intro ts hts
  have hread : readToken '_' cs = .error (.illegalCharacter '_') := by
    show readSign ('_' :: cs) = _
    simp [readSign]
  rw [tokensIn_error rfl hread] at hts
  cases hts

/-- A dot ends a name and is a token of its own, with a second one behind it or without. -/
theorem dot (hs : isSimple s = true) (cs : List Char) : Stray (s.toList ++ '.' :: cs) := by
  have hends : Ends ('.' :: cs) := .cons (by decide)
  have hdots : ∃ d rest, readToken '.' cs = .ok (d, rest) ∧ Token.IsDots d := by
    cases cs with
    | nil => exact ⟨.dot, [], rfl, .inl rfl⟩
    | cons c cs =>
      by_cases hc : c = '.'
      · subst hc
        exact ⟨.dotDot, cs, rfl, .inr rfl⟩
      · refine ⟨.dot, c :: cs, ?_, .inl rfl⟩
        show readSign ('.' :: c :: cs) = _
        simp [readSign, hc]
  obtain ⟨d, rest, hread, hd⟩ := hdots
  intro ts hts
  rw [tokensIn_name hs hends, tokensIn_token rfl hread] at hts
  cases hrest : tokensIn rest with
  | error e =>
    rw [hrest] at hts
    cases hts
  | ok vs =>
    rw [hrest] at hts
    cases hts
    exact ⟨[], s, d, vs, rfl, hd, by simp⟩

/-- An identifier that is no simple name. -/
theorem word (h : isIdentifier s = true) (hnot : isSimple s = false) (rest : List Char) :
    Stray (s.toList ++ rest) := by
  rcases cases_of_not_isSimple h hnot with ⟨cs, hs⟩ | ⟨a, cs, ha, hs⟩
  · rw [hs]
    exact underscore _
  · rw [hs, List.append_assoc]
    exact dot ha _

/-- A text with a stray dot is no path. -/
theorem parse_error (h : Stray s.toList) : ∃ e, parse s = .error e := by
  cases hp : parse s with
  | error e => exact ⟨e, rfl⟩
  | ok p =>
    exfalso
    unfold parse at hp
    split at hp
    · cases hp
    next ts hts =>
    split at hp
    · cases hp
    next ss hss =>
    obtain ⟨us, a, d, vs, rfl, hd, hno⟩ := h ts hts
    have heq : us ++ .atom a :: d :: vs = (us ++ [.atom a]) ++ d :: vs := by simp
    have hlast := (written_of_parseTokens hss).dot_first heq hd (by simpa using hno)
    rw [List.getLast?_concat] at hlast
    cases hlast _ rfl

end Stray

/-! ## Pieces of identifiers -/

namespace Piece

variable {w : Piece}

/-- The name and the label are identifiers. -/
structure OfIdentifiers (w : Piece) : Prop where
  /-- The name. -/
  name : isIdentifier w.name = true
  /-- The label. -/
  label : ∀ label ∈ w.label, isIdentifier label = true

/-- An identifier does not start with a sign. -/
theorem head?_ne_of_isIdentifier (h : isIdentifier s = true) (hletter : isLetter c = false)
    (hc : c ≠ '_') (rest : List Char) : (s.toList ++ rest).head? ≠ some c := by
  obtain ⟨d, ds, hs, hd, -⟩ := exists_cons_of_isIdentifier h
  rw [hs]
  rintro ⟨⟩
  rcases hd with hd | hd
  · rw [hletter] at hd
    cases hd
  · exact hc hd

/-- A piece of identifiers does not start with a slash. -/
theorem OfIdentifiers.head?_ne (h : w.OfIdentifiers) (rest : List Char) :
    (w.text.toList ++ rest).head? ≠ some '/' := by
  obtain ⟨label, name⟩ := w
  cases label with
  | none => exact head?_ne_of_isIdentifier h.name rfl (by decide) rest
  | some label =>
    rw [toList_text_append]
    exact head?_ne_of_isIdentifier (h.label label rfl) rfl (by decide) _

/-- No brackets are among the tokens of a piece. -/
theorem not_mem_tokens (w : Piece) : Token.openBracket ∉ w.tokens := by
  obtain ⟨label, name⟩ := w
  cases label <;> simp [tokens]

/-- A piece of identifiers that is not simple has a stray dot, or no tokens. -/
theorem OfIdentifiers.stray (h : w.OfIdentifiers) (hnot : ¬ w.Simple) (rest : List Char) :
    Stray (w.text.toList ++ rest) := by
  obtain ⟨label, name⟩ := w
  cases label with
  | none =>
    have hname : isSimple name = false := by
      rw [Bool.eq_false_iff]
      exact fun hname => hnot ⟨nofun, hname⟩
    exact .word h.name hname rest
  | some label =>
    rw [toList_text_append]
    by_cases hlabel : isSimple label = true
    · have hname : isSimple name = false := by
        rw [Bool.eq_false_iff]
        exact fun hname => hnot ⟨fun l hl => Option.some.inj hl ▸ hlabel, hname⟩
      have hends : Ends (':' :: (name.toList ++ rest)) := .cons (by decide)
      have hcolon := tokensIn_colon (head?_ne_of_isIdentifier h.name rfl (by decide) rest)
      have hno : Token.openBracket ∉ [.atom label, .colon] := by simp
      refine (Stray.word h.name hname rest).append hno ?_
      rw [tokensIn_name hlabel hends, hcolon]
      cases tokensIn (name.toList ++ rest) <;> rfl
    · exact .word (h.label label rfl) (Bool.eq_false_iff.2 hlabel) _

end Piece

/-- Pieces of identifiers that are not all simple are written with a stray dot, or have no
tokens. -/
theorem stray_written {ws : List Piece} (hws : ∀ w ∈ ws, w.OfIdentifiers)
    (hnot : ¬ ∀ w ∈ ws, w.Simple) : Stray (written ws) := by
  -- up to the first piece that is not simple
  induction ws with
  | nil => exact absurd (fun w hw => nomatch hw) hnot
  | cons w ws ih =>
    obtain ⟨hw, hws⟩ := List.forall_mem_cons.1 hws
    have hwritten : written (w :: ws) = '/' :: (w.text.toList ++ written ws) := rfl
    have hslash := tokensIn_slash (hw.head?_ne (written ws))
    by_cases hsimple : w.Simple
    · have hrest := ih hws fun hall => hnot (List.forall_mem_cons.2 ⟨hsimple, hall⟩)
      have hno : Token.openBracket ∉ .slash :: w.tokens := by simpa using w.not_mem_tokens
      refine hrest.append hno ?_
      rw [hwritten, hslash, hsimple.tokensIn_eq (ends_written ws)]
      cases tokensIn (written ws) <;> rfl
    · have hno : Token.openBracket ∉ [.slash] := by simp
      refine (hw.stray hsimple (written ws)).append hno ?_
      rw [hwritten, hslash]
      rfl

end Path

namespace Tree

open Netconf.Path (Piece Step)

variable {t : Tree} {n : NodeId}

/-- The pieces of a path are those of the nodes of the chain, the top first. -/
theorem Forest.pieces_eq_map (h : t.Forest) (n : NodeId) :
    t.pieces n = (t.ancestry n).map t.piece := by
  induction n using h.acyclic.induction with
  | _ n ih =>
    rw [h.pieces_eq, ancestry, h.upward_eq, List.reverse_cons, List.map_append, List.map_singleton]
    cases hp : t.parent? n with
    | none => rfl
    | some p =>
      rw [Option.elim_some, ih p hp]
      rfl

/-- The names of a node in the paths through it: the label in front of its name, if there is one,
and its name. -/
def words (t : Tree) (n : NodeId) : List String := (t.piece n).label.toList ++ [t.name n]

/-- Where all names and labels that the path of a node writes are identifiers, the path is read
exactly when none of them starts with an underscore or has a dot. It is then read as the step to the
document and one step to a child for each node of the chain, the top first, with the name of the
node and without predicates. -/
theorem parse_path_of_identifiers (h : t.Forest)
    (hwords : ∀ x ∈ t.upward n, ∀ word ∈ t.words x, Path.isIdentifier word = true) :
    ((∀ x ∈ t.upward n, ∀ word ∈ t.words x, Path.Unescaped word) →
      Path.parse (t.path n) = .ok ⟨t.path n, .toRoot :: (t.ancestry n).map fun x =>
        { axis := .child, label := (t.piece x).label, name := some (t.name x),
          predicates := [] }⟩) ∧
    ((¬ ∀ x ∈ t.upward n, ∀ word ∈ t.words x, Path.Unescaped word) →
      ∃ e, Path.parse (t.path n) = .error e) := by
  have hidentifiers : ∀ w ∈ t.pieces n, w.OfIdentifiers := by
    rw [h.pieces_eq_map, List.forall_mem_map]
    intro x hx
    have hall := hwords x (List.mem_reverse.1 hx)
    exact ⟨hall _ (by simp [words, piece]), fun label hlabel => hall _ (by
      rw [words, Option.mem_def.1 hlabel]; simp)⟩
  -- a piece is simple when its words can stand as they are
  have hsimple : (∀ w ∈ t.pieces n, w.Simple) ↔
      ∀ x ∈ t.upward n, ∀ word ∈ t.words x, Path.Unescaped word := by
    rw [h.pieces_eq_map, List.forall_mem_map, ancestry]
    simp only [List.mem_reverse]
    refine forall₂_congr fun x hx => ?_
    have hword : ∀ word ∈ t.words x, (Path.isSimple word = true ↔ Path.Unescaped word) :=
      fun word hmem => Path.isSimple_iff_unescaped (hwords x hx word hmem)
    rw [← forall₂_congr hword, words, List.forall_mem_append, List.forall_mem_singleton]
    simp only [Option.mem_toList]
    exact ⟨fun hs => ⟨hs.label, hs.name⟩, fun hs => ⟨hs.1, hs.2⟩⟩
  have htext : (t.path n).toList = Path.written (t.pieces n) := Path.toList_path _ _
  rw [← hsimple]
  constructor
  · intro hall
    have hne : t.pieces n ≠ [] := by
      rw [h.pieces_eq]
      simp
    obtain ⟨w, ws, hws⟩ := List.exists_cons_of_ne_nil hne
    have hparse := Path.parse_written (hws ▸ htext) (hws ▸ hall)
    rw [← hws, h.pieces_eq_map, List.map_map] at hparse
    exact hparse
  · intro hnot
    have hstray : Path.Stray (t.path n).toList := htext ▸ Path.stray_written hidentifiers hnot
    exact hstray.parse_error

/-- An element with three children: the label of one has a dot, and the name of another. -/
def dotted : Tree :=
  ((Tree.empty (.standard 0)).addCopy
    (.mk 0 { ns := some "urn:a", name := "a-1", bindings := ⟨[⟨"p", "urn:a"⟩]⟩ } [
      .mk 0 { ns := some "urn:b", name := "b_2", bindings := ⟨[⟨"q.r", "urn:b"⟩]⟩ } [],
      .mk 0 { ns := some "urn:a", name := "c.d" } [],
      .mk 0 { ns := some "urn:a", name := "e" } []])).1

/-- The path of the child without dots is read as its chain, and those of the others are not. -/
theorem parse_path_dotted :
    (∀ n < 4, ∀ x ∈ dotted.upward n, ∀ word ∈ dotted.words x, Path.isIdentifier word = true) ∧
      dotted.path 3 = "/p:a-1/e" ∧
      Path.parse "/p:a-1/e" = .ok ⟨"/p:a-1/e", [.toRoot,
        { axis := .child, label := some "p", name := some "a-1" },
        { axis := .child, name := some "e" }]⟩ ∧
      dotted.path 1 = "/p:a-1/q.r:b_2" ∧ (∃ e, Path.parse (dotted.path 1) = .error e) ∧
      dotted.path 2 = "/p:a-1/c.d" ∧ ∃ e, Path.parse (dotted.path 2) = .error e := by
  have hforest : dotted.Forest := (forest_empty (.standard 0)).addCopy _
  have hwords : ∀ n < 4, ∀ x ∈ dotted.upward n, ∀ word ∈ dotted.words x,
      Path.isIdentifier word = true := by decide +kernel
  refine ⟨hwords, rfl, ?_, rfl, ?_, rfl, ?_⟩
  · exact (parse_path_of_identifiers hforest (hwords 3 (by decide))).1 (by decide +kernel)
  · exact (parse_path_of_identifiers hforest (hwords 1 (by decide))).2 (by decide +kernel)
  · exact (parse_path_of_identifiers hforest (hwords 2 (by decide))).2 (by decide +kernel)

/-- A tree of one element without namespace. -/
def single (name : String) : Tree := ((Tree.empty (.standard 0)).create { name }).1

/-- An element whose name is an identifier with a dot is read, and its path is no path. The same
goes for a name with an underscore in front. -/
theorem path_not_read :
    Xml.parse (.standard 0) none "<a.b/>" = .ok ⟨single "a.b", 0⟩ ∧
      Path.isIdentifier "a.b" = true ∧ (single "a.b").path 0 = "/a.b" ∧
      Path.parse "/a.b" = .error (.unexpected [.dot, .atom "b"]) ∧
      Xml.parse (.standard 0) none "<_a/>" = .ok ⟨single "_a", 0⟩ ∧
      Path.isIdentifier "_a" = true ∧ (single "_a").path 0 = "/_a" ∧
      Path.parse "/_a" = .error (.illegalCharacter '_') :=
  ⟨rfl, by decide +kernel, rfl, rfl, rfl, by decide +kernel, rfl, rfl⟩

end Tree

end Netconf
