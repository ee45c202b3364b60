import Mathlib.Data.List.Induction
import Netconf.Proofs.Xml.Building

/-!
# Pieces of written documents

A piece of a written document conveys branches when a reader who meets it below an open element, in
the scope that it was written in, gives the element these branches as its last children
(`Conveys`). There is one rule for each way of writing a piece. Texts are conveyed whatever they
are: the escapes keep them out of the markup, and only the blanks at their ends are lost
(`conveys_enclosed`). A branch conveys what is kept of it for the peer it is written for, which is
all of it without a peer (`conveys_written`, `keptAll_eq`).
-/

namespace Netconf.Xml

/-! ## Texts without the blanks at their ends -/

/-- Dropping what is in a smaller class first changes nothing. -/
theorem dropWhile_dropWhile_of_imp {α : Type} {p q : α → Bool} (h : ∀ x, p x = true → q x = true)
    (xs : List α) : (xs.dropWhile p).dropWhile q = xs.dropWhile q := by
  induction xs with
  | nil => rfl
  | cons x xs ih =>
    by_cases hx : p x = true
    · rw [List.dropWhile_cons_of_pos hx, List.dropWhile_cons_of_pos (h x hx), ih]
    · rw [List.dropWhile_cons_of_neg hx]

/-- The blanks between the parts of markup are blank. -/
theorem isBlank_of_isSpace (c : Char) (h : isSpace c = true) : Text.isBlank c = true := by
  have hwhite : c.isWhitespace = true := by
    simpa [isSpace, Char.isWhitespace, or_assoc] using h
  exact Text.isBlank_of_isWhitespace hwhite

/-- A text is a text without blanks at its end and blanks behind it. -/
theorem exists_trimRight_append (cs : List Char) :
    ∃ bs, cs = trimRight cs ++ bs ∧ ∀ b ∈ bs, isSpace b = true := by
  refine ⟨(cs.reverse.takeWhile isSpace).reverse, ?_, fun b hb => ?_⟩
  · rw [trimRight, ← List.reverse_append, List.takeWhile_append_dropWhile, List.reverse_reverse]
  · exact List.mem_takeWhile_imp (List.mem_reverse.1 hb)

/-- Blanks at the end of a text are trimmed. -/
theorem strip_append_blanks (cs : List Char) {bs : List Char}
    (h : ∀ b ∈ bs, Text.isBlank b = true) : Text.strip (cs ++ bs) = Text.strip cs :=
  dropWhile_ends_append cs h

/-- What the scanner cuts off a run would be trimmed anyway. -/
theorem strip_trimBoth (cs : List Char) : Text.strip (trimBoth cs) = Text.strip cs := by
  obtain ⟨bs, hbs, hblank⟩ := exists_trimRight_append (cs.dropWhile isSpace)
  have hdrop : Text.strip (cs.dropWhile isSpace) = Text.strip cs := by
    rw [Text.strip, dropWhile_dropWhile_of_imp isBlank_of_isSpace, Text.strip]
  calc Text.strip (trimBoth cs)
      = Text.strip (trimBoth cs ++ bs) :=
        (strip_append_blanks _ fun b hb => isBlank_of_isSpace b (hblank b hb)).symm
    _ = Text.strip (cs.dropWhile isSpace) := congrArg Text.strip hbs.symm
    _ = Text.strip cs := hdrop

/-! ## Escaped texts without the blanks at their ends -/

/-- A character is written as itself or as a reference. -/
theorem escapeChar_eq (quotes : Bool) (c : Char) :
    escapeChar quotes c = [c] ∨ ∃ name, escapeChar quotes c = '&' :: (name ++ [';']) := by
  unfold escapeChar
  split
  · exact Or.inr ⟨"amp".toList, rfl⟩
  · exact Or.inr ⟨"lt".toList, rfl⟩
  · exact Or.inr ⟨"gt".toList, rfl⟩
  · split
    · exact Or.inr ⟨"quot".toList, rfl⟩
    · exact Or.inl rfl
  · exact Or.inl rfl

/-- A character is written as itself, or as a reference if it is no blank. -/
theorem escapeChar_of_isSpace (quotes : Bool) (c : Char) :
    escapeChar quotes c = [c] ∨
      isSpace c = false ∧ ∃ name, escapeChar quotes c = '&' :: (name ++ [';']) := by
  rcases escapeChar_eq quotes c with h | h
  · exact Or.inl h
  · cases hc : isSpace c with
    | false => exact Or.inr ⟨rfl, h⟩
    | true =>
      have hspace : c = ' ' ∨ c = '\t' ∨ c = '\r' ∨ c = '\n' := by
        simpa [isSpace, or_assoc] using hc
      rcases hspace with rfl | rfl | rfl | rfl <;> exact Or.inl rfl

/-- The blanks in front of an escaped text are those in front of the text. -/
theorem dropWhile_escape (quotes : Bool) (cs : List Char) :
    (escape quotes cs).dropWhile isSpace = escape quotes (cs.dropWhile isSpace) := by
  induction cs with
  | nil => rfl
  | cons c cs ih =>
    rw [show escape quotes (c :: cs) = escapeChar quotes c ++ escape quotes cs from rfl]
    rcases escapeChar_of_isSpace quotes c with h | ⟨hc, name, h⟩
    · rw [h, List.singleton_append]
      by_cases hc : isSpace c = true
      · rw [List.dropWhile_cons_of_pos hc, List.dropWhile_cons_of_pos hc, ih]
      · rw [List.dropWhile_cons_of_neg hc, List.dropWhile_cons_of_neg hc,
          show escape quotes (c :: cs) = escapeChar quotes c ++ escape quotes cs from rfl, h]
        rfl
    · rw [List.dropWhile_cons_of_neg (by simp [hc]), h, List.cons_append,
        List.dropWhile_cons_of_neg (by decide), ← List.cons_append, ← h]
      rfl

/-- A blank at the end of a text is cut off, and another character is not. -/
theorem trimRight_concat (cs : List Char) (c : Char) :
    trimRight (cs ++ [c]) = if isSpace c then trimRight cs else cs ++ [c] := by
  unfold trimRight
  rw [List.reverse_append, List.reverse_singleton, List.singleton_append, List.dropWhile_cons]
  split
  · rfl
  · rw [List.reverse_cons, List.reverse_reverse]

/-- The blanks at the end of an escaped text are those at the end of the text. -/
theorem trimRight_escape (quotes : Bool) (cs : List Char) :
    trimRight (escape quotes cs) = escape quotes (trimRight cs) := by
  induction cs using List.reverseRecOn with
  | nil => rfl
  | append_singleton cs c ih =>
    have hconcat : escape quotes (cs ++ [c]) = escape quotes cs ++ escapeChar quotes c := by
      simp [escape]
    rw [trimRight_concat, hconcat]
    rcases escapeChar_of_isSpace quotes c with h | ⟨hc, name, h⟩
    · rw [h, trimRight_concat, ih]
      split
      · rfl
      · rw [hconcat, h]
    · rw [hc, if_neg (by decide), hconcat, h, ← List.cons_append, ← List.append_assoc,
        trimRight_concat]
      rfl

/-- Escapes and blanks at the ends do not interfere. -/
theorem trimBoth_escape (quotes : Bool) (cs : List Char) :
    trimBoth (escape quotes cs) = escape quotes (trimBoth cs) := by
  rw [trimBoth, dropWhile_escape, trimRight_escape, trimBoth]

/-- A digit is written as itself. -/
theorem escapeChar_digit (quotes : Bool) {c : Char} (h : c.isDigit = true) :
    escapeChar quotes c = [c] := by
  unfold escapeChar
  split
  all_goals first
    | exact absurd h (by decide)
    | rfl

/-- A decimal number holds no markup. -/
theorem escape_decimal (quotes : Bool) (n : Nat) :
    escape quotes (toString n).toList = (toString n).toList := by
  have hdigit : ∀ c ∈ (toString n).toList, escapeChar quotes c = [c] := fun c hc =>
    escapeChar_digit quotes (Text.isDigit_of_mem_decimal hc)
  rw [escape, List.flatMap_congr hdigit, List.flatMap_singleton']

/-- Whatever a text is, the item of the escaped text brings what is read of the text. -/
theorem bringsText_textItem (text : String) :
    BringsText (textItem (escape false text.toList)) (heard text) := by
  have hstrip : ∀ cs, trimBoth text.toList = cs → heard text = heard (String.ofList cs) := by
    rintro _ rfl
    unfold heard Text.trim
    rw [String.toList_ofList, strip_trimBoth]
  unfold textItem
  rw [trimBoth_escape]
  cases hcs : trimBoth text.toList with
  | nil =>
    rw [hstrip _ hcs]
    exact bringsText_nil
  | cons c cs =>
    have hne : (escape false (c :: cs)).isEmpty = false := by
      rcases escapeChar_eq false c with h | ⟨name, h⟩ <;> simp [escape, h]
    rw [hstrip _ hcs]
    dsimp only
    rw [hne, if_neg Bool.false_ne_true]
    refine bringsText_item ?_
    rw [String.toList_ofList]
    exact unescape_escape false _

/-! ## Pieces -/

/-- The piece `text`, met below an open element in a scope, gives this element the branches as its
last children. -/
def Conveys (scope : Scope) (text : String) (bs : List Branch) : Prop :=
  ∃ items, Scans text.toList items ∧ Brings scope items bs

section Pieces

variable {scope : Scope} {text content : String} {bs cs : List Branch}

/-- Blanks convey nothing. -/
theorem conveys_blanks (scope : Scope) (h : ∀ c ∈ text.toList, isSpace c = true) :
    Conveys scope text [] :=
  ⟨[], scans_blanks h, brings_nil scope⟩

/-- The empty piece conveys nothing. -/
theorem conveys_nil (scope : Scope) : Conveys scope "" [] := conveys_blanks scope nofun

/-- Pieces one behind the other convey their branches one after the other. -/
theorem Conveys.append (h : Conveys scope text bs) (h' : Conveys scope content cs) :
    Conveys scope (text ++ content) (bs ++ cs) := by
  obtain ⟨items, hscans, hbrings⟩ := h
  obtain ⟨items', hscans', hbrings'⟩ := h'
  refine ⟨items ++ items', ?_, hbrings.append hbrings'⟩
  rw [String.toList_append]
  exact hscans.append hscans'

/-- Any number of pieces convey their branches one after the other. -/
theorem conveys_join {α : Type} {write : α → String} {part : α → Branch} (xs : List α)
    (h : ∀ x ∈ xs, Conveys scope (write x) [part x]) :
    Conveys scope (String.join (xs.map write)) (xs.map part) := by
  induction xs with
  | nil => exact conveys_nil scope
  | cons x xs ih =>
    obtain ⟨hx, hxs⟩ := List.forall_mem_cons.1 h
    rw [List.map_cons, String.join_cons]
    exact hx.append (ih hxs)

/-- A piece conveys the same wherever the labels that it relies on mean the same. -/
theorem Conveys.mono {scope' : Scope} (h : Conveys scope text bs)
    (hmeans : ∀ label, label = "" ∨ (scope.ns? label).isSome = true →
      scope'.ns? label = scope.ns? label) : Conveys scope' text bs := by
  obtain ⟨items, hscans, hbrings⟩ := h
  refine ⟨items, hscans, fun s p hat => hbrings { hat with knows := fun label hlabel => ?_ }⟩
  rw [← hmeans label hlabel]
  refine hat.knows label (hlabel.imp_right fun hbound => ?_)
  rwa [hmeans label (Or.inr hbound)]

/-- A piece that relies on no label conveys the same wherever no default namespace is bound. -/
theorem Conveys.anywhere (h : Conveys [] text bs) (hdefault : scope.ns? "" = none) :
    Conveys scope text bs := by
  refine h.mono fun label hlabel => ?_
  rcases hlabel with rfl | hbound
  · exact hdefault
  · cases hbound

end Pieces

/-! ## Elements -/

/-- The start tag with this name and these attributes is `t`, and in a scope it says what `e` is. -/
structure Announces (scope : Scope) (t : Tag) (e : Element) (name attributes : String) : Prop where
  /-- The name is that of the tag. -/
  name : t.name = name
  /-- The attributes are the declarations and the attributes of the tag. -/
  attributes : attributes.toList = t.pairs.flatMap attributeChars
  /-- The tag says what the element is. -/
  tells : t.Tells scope e
  /-- The name of the element is a name. -/
  isName : isName e.name = true
  /-- Nothing is there twice. -/
  orderly : e.Orderly

section Items

variable {name attributes content : String} {ps : List (String × String)} (hname : IsKey name)
  (hkeys : ∀ p ∈ ps, IsKey p.1) (hattributes : attributes.toList = ps.flatMap attributeChars)
include hname hkeys hattributes

/-- The tag of an empty element gives its item. -/
theorem scans_single :
    Scans ("<" ++ name ++ attributes ++ "/>").toList
      [.single name.toList (ps.flatMap attributeChars)] := by
  have hchars : ("<" ++ name ++ attributes ++ "/>").toList =
      '<' :: (name.toList ++ (ps.flatMap attributeChars ++ ['/', '>'])) := by
    simp [hattributes]
  rw [hchars]
  exact scans_tag fun rest => by simpa using readItem_single hname hkeys rest

/-- Tags around a text and a piece give their items around those of the text and the piece. -/
theorem scans_enclosed (text : String) {items : List Markup}
    (hcontent : Scans content.toList items) :
    Scans ("<" ++ name ++ attributes ++ ">" ++ (escapeText text ++ content)
        ++ "</" ++ name ++ ">").toList
      (.opening name.toList (ps.flatMap attributeChars) ::
        (textItem (escape false text.toList) ++ items ++ [.closing name.toList])) := by
  have hopening : Scans ('<' :: (name.toList ++ (ps.flatMap attributeChars ++ ['>'])) ++
      escape false text.toList) (.opening name.toList (ps.flatMap attributeChars) ::
        textItem (escape false text.toList)) :=
    scans_tag_text (fun h => (ne_of_mem_escape h).1 rfl) fun rest => by
      simpa using readItem_opening hname hkeys rest
  have hclosing : Scans ('<' :: '/' :: (name.toList ++ ['>'])) [.closing name.toList] :=
    scans_tag fun rest => by simpa using readItem_closing hname rest
  have hall := (hopening.append hcontent).append hclosing
  simpa [escapeText, hattributes] using hall

end Items

namespace Announces

variable {scope : Scope} {t : Tag} {e : Element} {name attributes content : String}

/-- An element without content conveys the element. -/
theorem conveys_single (h : Announces scope t e name attributes) :
    Conveys scope ("<" ++ name ++ attributes ++ "/>") [.mk 0 { e with value := none } []] := by
  obtain ⟨rfl, hattributes, htells, hname, horderly⟩ := h
  exact ⟨_, scans_single (htells.isKey_name hname) htells.isKey_pairs hattributes,
    brings_single htells hname horderly⟩

/-- Tags around any text and a piece convey the element with what is read of the text and what the
piece conveys. -/
theorem conveys_enclosed (h : Announces scope t e name attributes) (text : String)
    {bs : List Branch} (hcontent : Conveys t.scope content bs) :
    Conveys scope ("<" ++ name ++ attributes ++ ">" ++ (escapeText text ++ content)
        ++ "</" ++ name ++ ">")
      [.mk 0 { e with value := heard text } bs] := by
  obtain ⟨rfl, hattributes, htells, hname, horderly⟩ := h
  obtain ⟨items, hscans, hbrings⟩ := hcontent
  exact ⟨_, scans_enclosed (htells.isKey_name hname) htells.isKey_pairs hattributes text hscans,
    Brings.enclosed htells hname horderly (bringsText_textItem text) hbrings⟩

end Announces

/-! ## Documents -/

/-- Tags around any text and a piece are read as a document with what is read of the text and what
the piece conveys. -/
theorem exists_parse_enclosed {defaults : Registry} {outer inner : Scope}
    {name attributes content : String} {ps : List (String × String)} {e : Element}
    {bindings : Bindings} (hname : IsKey name) (hkeys : ∀ p ∈ ps, IsKey p.1)
    (hattributes : attributes.toList = ps.flatMap attributeChars)
    (hread : readElement (.empty defaults) none none name.toList (ps.flatMap attributeChars) =
      .ok { ns := e.ns, name := e.name, attributes := e.attributes, bindings := bindings })
    (hknows : Knows (.empty defaults) none outer)
    (hmeans : ∀ label, inner.ns? label = (bindings.ns? label).or (outer.ns? label))
    (text : String) {bs : List Branch} (hcontent : Conveys inner content bs) :
    ∃ d, parse defaults none ("<" ++ name ++ attributes ++ ">" ++ (escapeText text ++ content)
        ++ "</" ++ name ++ ">") = .ok d ∧
      (d.tree.branch d.root).shown = (Branch.mk 0 { e with value := heard text } bs).shown := by
  obtain ⟨items, hscans, hbrings⟩ := hcontent
  have hmade := Makes.enclosed hread hknows hmeans (bringsText_textItem text) hbrings
  exact hmade.exists_parse (scans_enclosed hname hkeys hattributes text hscans) (by simp)

/-- An announced element around any text and a piece is read as a document. -/
theorem Announces.exists_parse {t : Tag} {e : Element} {name attributes content : String}
    (h : Announces [] t e name attributes) (r : Nat) (text : String) {bs : List Branch}
    (hcontent : Conveys t.scope content bs) :
    ∃ d, parse (.standard r) none ("<" ++ name ++ attributes ++ ">" ++ (escapeText text ++ content)
        ++ "</" ++ name ++ ">") = .ok d ∧
      (d.tree.branch d.root).shown = (Branch.mk 0 { e with value := heard text } bs).shown := by
  obtain ⟨rfl, hattributes, htells, hname, horderly⟩ := h
  obtain ⟨bindings, hmeans, hread⟩ := htells.readElement_eq hname horderly (knows_standard r)
  exact exists_parse_enclosed (htells.isKey_name hname) htells.isKey_pairs hattributes hread
    (knows_standard r) hmeans text hcontent

/-- An announced element without content is read as a document. -/
theorem Announces.exists_parse_single {t : Tag} {e : Element} {name attributes : String}
    (h : Announces [] t e name attributes) (r : Nat) :
    ∃ d, parse (.standard r) none ("<" ++ name ++ attributes ++ "/>") = .ok d ∧
      (d.tree.branch d.root).shown = (Branch.mk 0 { e with value := none } []).shown := by
  obtain ⟨rfl, hattributes, htells, hname, horderly⟩ := h
  obtain ⟨bindings, -, hread⟩ := htells.readElement_eq hname horderly (knows_standard r)
  exact (makes_single hread).exists_parse
    (scans_single (htells.isKey_name hname) htells.isKey_pairs hattributes) (by simp)

/-! ## Nodes -/

section Nodes

variable {l : Layout} {scope : Scope} {t : Tag} {e : Element} {bs : List Branch}

/-- The end of a line conveys nothing. -/
theorem conveys_lineEnd (l : Layout) (scope : Scope) : Conveys scope (lineEnd l) [] := by
  refine conveys_blanks scope fun c h => ?_
  unfold lineEnd at h
  split at h
  · rw [List.mem_singleton.1 (show c ∈ ['\n'] from h)]
    rfl
  · cases h

/-- The indentation conveys nothing. -/
theorem conveys_indent (l : Layout) (depth : Nat) (scope : Scope) :
    Conveys scope (indent l depth) [] := by
  refine conveys_blanks scope fun c h => ?_
  unfold indent at h
  split at h
  · rw [String.toList_ofList] at h
    rw [(List.mem_replicate.1 h).2]
    rfl
  · cases h

/-- The top of a document is not indented. -/
theorem indent_zero (l : Layout) : indent l 0 = "" := by
  unfold indent
  split <;> rfl

/-- The attributes of a tag, as they are written. -/
def Tag.attributesText (t : Tag) : String := String.ofList (t.pairs.flatMap attributeChars)

/-- A start tag is its name with its attributes. -/
theorem Tag.text_eq (t : Tag) : t.text = "<" ++ t.name ++ t.attributesText := by
  rw [← String.toList_inj, Tag.toList_text]
  simp [Tag.attributesText]

/-- A node with a value or children is written between two tags. -/
theorem elementText_eq {depth : Nat} {value : Option Value} {children : Option String}
    (hsome : value ≠ none ∨ children ≠ none) :
    elementText l depth t value children = indent l depth ++ t.text ++
      (">" ++ ((value.map fun v => escapeText v.wire).getD "")
        ++ ((children.map fun c => c ++ lineEnd l ++ indent l depth).getD "")
        ++ "</" ++ t.name ++ ">") := by
  unfold elementText
  split
  · rcases hsome with hsome | hsome <;> exact absurd rfl hsome
  · rfl

/-- An element with what is read of the text of its value. -/
def asHeard (e : Element) : Element :=
  { e with value := heard ((e.value.map Value.wire).getD "") }

/-- Of an element without value no value is read. -/
theorem asHeard_eq_self (h : e.value = none) : asHeard e = e := by
  have hheard : heard "" = none := by decide
  unfold asHeard
  rw [h, Option.map_none, Option.getD_none, hheard, ← h]

/-- What is read of a legible element shows the same. -/
theorem shown_asHeard (he : e.Legible) : (asHeard e).shown = e.shown := by
  unfold asHeard Element.shown
  cases hv : e.value with
  | none => rfl
  | some v =>
    obtain ⟨hne, htrim⟩ := he.value v hv
    rw [Option.map_some, Option.getD_some, heard, htrim, if_neg hne]
    rfl

/-- The text of a node is the tag of an empty element, or else it is two tags around the text of
the value and a piece that conveys what the text of the children conveys. -/
theorem elementText_cases (children : Option String) (hnone : children = none → bs = [])
    (hchildren : Conveys scope (children.getD "") bs) (t : Tag) (e : Element) (depth : Nat) :
    (elementText l depth t e.value children =
        indent l depth ++ ("<" ++ t.name ++ t.attributesText ++ "/>") ∧ e.value = none ∧ bs = []) ∨
    ∃ inside, Conveys scope inside bs ∧
      elementText l depth t e.value children =
        indent l depth ++ ("<" ++ t.name ++ t.attributesText ++ ">" ++
          (escapeText ((e.value.map Value.wire).getD "") ++ inside) ++ "</" ++ t.name ++ ">") := by
  by_cases hempty : e.value = none ∧ children = none
  · obtain ⟨hvalue, rfl⟩ := hempty
    refine Or.inl ⟨?_, hvalue, hnone rfl⟩
    rw [hvalue, elementText, Tag.text_eq, String.append_assoc]
  · have hinside : Conveys scope
        ((children.map fun c => c ++ lineEnd l ++ indent l depth).getD "") bs := by
      cases children with
      | none => exact hchildren
      | some c =>
        have hblanks := (hchildren.append (conveys_lineEnd l scope)).append
          (conveys_indent l depth scope)
        rwa [List.append_nil, List.append_nil] at hblanks
    have htext : ((e.value.map fun v => escapeText v.wire).getD "") =
        escapeText ((e.value.map Value.wire).getD "") := by
      cases e.value <;> rfl
    refine Or.inr ⟨_, hinside, ?_⟩
    rw [elementText_eq (not_and_or.1 hempty), htext, Tag.text_eq]
    simp only [String.append_assoc]

section Texts

variable (children : Option String) (hnone : children = none → bs = [])
  (hchildren : Conveys t.scope (children.getD "") bs)
include hnone hchildren

/-- The text of a node conveys the node, with what is read of its value and what the text of its
children conveys. -/
theorem conveys_elementText (h : Announces scope t e t.name t.attributesText) (depth : Nat) :
    Conveys scope (elementText l depth t e.value children) [.mk 0 (asHeard e) bs] := by
  have hindent := conveys_indent l depth scope
  obtain ⟨htext, hvalue, rfl⟩ | ⟨inside, hinside, htext⟩ :=
    elementText_cases (l := l) children hnone hchildren t e depth
  · rw [htext, asHeard_eq_self hvalue]
    have hsingle := hindent.append h.conveys_single
    rwa [← hvalue] at hsingle
  · rw [htext]
    exact hindent.append (h.conveys_enclosed _ hinside)

/-- At the top of a document it is read so. -/
theorem exists_parse_elementText (h : Announces [] t e t.name t.attributesText) (r : Nat) :
    ∃ d, parse (.standard r) none (elementText l 0 t e.value children) = .ok d ∧
      (d.tree.branch d.root).shown = (Branch.mk 0 (asHeard e) bs).shown := by
  obtain ⟨htext, hvalue, rfl⟩ | ⟨inside, hinside, htext⟩ :=
    elementText_cases (l := l) children hnone hchildren t e 0
  · rw [htext, indent_zero, String.empty_append, asHeard_eq_self hvalue]
    have hsingle := h.exists_parse_single r
    rwa [← hvalue] at hsingle
  · rw [htext, indent_zero, String.empty_append]
    exact h.exists_parse r _ hinside

end Texts

end Nodes

/-! ## Branches -/

/-- A branch whose names XML can carry, and in which nothing is there twice. -/
def Writable (b : Branch) : Prop := b.All fun c => c.element.Orderly ∧ c.element.Nameable

/-- A branch of orderly elements whose names can be written is writable. -/
theorem writable_of {b : Branch} (horderly : b.Orderly)
    (hnameable : b.All fun c => c.element.Nameable) : Writable b := by
  induction b using Branch.induction with
  | step i e bs ih =>
    obtain ⟨he, hbs⟩ := Branch.all_iff.1 horderly
    obtain ⟨he', hbs'⟩ := Branch.all_iff.1 hnameable
    exact Branch.all_iff.2 ⟨⟨he, he'⟩, fun c hc => ih c hc (hbs c hc) (hbs' c hc)⟩

mutual

/-- What is kept of a branch when it is written, its values as they are read. -/
def kept (l : Layout) (defaults : Bindings) (above : Lineage) (siblings : List Element) :
    Branch → List Branch
  | .mk _ e children =>
    match leavesOut l defaults above siblings e with
    | .ok false =>
      [.mk 0 (asHeard e) (keptAll l defaults (e :: above) (children.map Branch.element) children)]
    | _ => []

/-- What is kept of branches. -/
def keptAll (l : Layout) (defaults : Bindings) (above : Lineage) (siblings : List Element) :
    List Branch → List Branch
  | [] => []
  | b :: bs => kept l defaults above siblings b ++ keptAll l defaults above siblings bs

end

section Branches

variable {l : Layout} {defaults : Bindings}

/-- Without a peer no node is left out. -/
theorem leavesOut_eq (hpeer : l.peer = none) (above : Lineage) (siblings : List Element)
    (e : Element) : leavesOut l defaults above siblings e = .ok false := by
  unfold leavesOut
  rw [hpeer]
  rfl

/-- Without a peer all branches are kept. -/
theorem keptAll_eq (hpeer : l.peer = none) (bs : List Branch) (above : Lineage)
    (siblings : List Element) :
    keptAll l defaults above siblings bs = bs.map fun b => b.bare.mapElements asHeard := by
  refine (Branch.mutualInduction
    (P := fun b => ∀ above siblings,
      kept l defaults above siblings b = [b.bare.mapElements asHeard])
    (Q := fun bs => ∀ above siblings,
      keptAll l defaults above siblings bs = bs.map fun b => b.bare.mapElements asHeard) ?_ ?_
    ?_).2 bs above siblings
  · intro id e children ih above siblings
    rw [kept, leavesOut_eq hpeer]
    dsimp only
    rw [ih, Branch.bare_mk, Branch.mapElements_mk, List.map_map]
    rfl
  · intro above siblings
    rw [keptAll, List.map_nil]
  · intro b bs ihb ihbs above siblings
    rw [keptAll, ihb, ihbs, List.map_cons, List.singleton_append]

/-- Without a peer every branch has a text. -/
theorem exists_writeBranch (hpeer : l.peer = none) (b : Branch) (above : Lineage)
    (siblings : List Element) (scope : Scope) (depth : Nat) :
    ∃ text, writeBranch l defaults above siblings scope depth b = .ok text := by
  refine (Branch.mutualInduction
    (P := fun b => ∀ above siblings scope depth,
      ∃ text, writeBranch l defaults above siblings scope depth b = .ok text)
    (Q := fun bs => ∀ above siblings scope depth,
      ∃ text, writeAll l defaults above siblings scope depth bs = .ok text) ?_ ?_ ?_).1 b above
    siblings scope depth
  · intro id e children ih above siblings scope depth
    rw [writeBranch, leavesOut_eq hpeer]
    dsimp only
    obtain ⟨body, hbody⟩ := ih (e :: above) (children.map Branch.element)
      (Tag.ofElement scope above defaults e).scope (depth + 1)
    exact ⟨_, by rw [hbody]⟩
  · intro above siblings scope depth
    exact ⟨"", rfl⟩
  · intro b bs ihb ihbs above siblings scope depth
    obtain ⟨text, htext⟩ := ihb above siblings scope depth
    obtain ⟨others, hothers⟩ := ihbs above siblings scope depth
    exact ⟨_, by rw [writeAll, htext]; dsimp only; rw [hothers]⟩

/-- The text of a branch whose top is kept is that of its top with the texts of the children. -/
theorem exists_of_writeBranch {above : Lineage} {siblings : List Element} {scope : Scope}
    {depth : Nat} {id : NodeId} {e : Element} {children : List Branch} {text : String}
    (hkept : leavesOut l defaults above siblings e = .ok false)
    (htext : writeBranch l defaults above siblings scope depth (.mk id e children) = .ok text) :
    ∃ body : Option String,
      writeAll l defaults (e :: above) (children.map Branch.element)
          (Tag.ofElement scope above defaults e).scope (depth + 1) children = .ok (body.getD "") ∧
        (body = none → children = []) ∧
          text = elementText l depth (Tag.ofElement scope above defaults e) e.value body := by
  rw [writeBranch, hkept] at htext
  dsimp only at htext
  split at htext
  · cases htext
  · next body hbody =>
    obtain rfl := Except.ok.inj htext
    cases children with
    | nil =>
      obtain rfl := Except.ok.inj hbody
      exact ⟨none, rfl, fun _ => rfl, rfl⟩
    | cons c cs => exact ⟨some body, hbody, nofun, rfl⟩

/-- The tag of a node whose names can be written announces it. -/
theorem announces_ofElement {scope : Scope} {above : Lineage} {e : Element}
    (hdefaults : defaults.Legible) (he : e.Orderly ∧ e.Nameable)
    (habove : ∀ p ∈ above, p.bindings.Legible) (hscope : scope.Sound) :
    Announces scope (Tag.ofElement scope above defaults e) e
      (Tag.ofElement scope above defaults e).name
      (Tag.ofElement scope above defaults e).attributesText :=
  ⟨rfl, String.toList_ofList, Tag.tells_ofElement hscope he.1 he.2 habove hdefaults, he.2.name,
    he.1⟩

/-- The text of a branch, if there is one, conveys what is kept of the branch, and so do the texts
of branches. -/
theorem conveys_written (hdefaults : defaults.Legible) :
    (∀ b, Writable b → ∀ {above : Lineage} {siblings : List Element} {scope : Scope} {depth : Nat}
      {text : String}, (∀ p ∈ above, p.bindings.Legible) → scope.Sound →
        writeBranch l defaults above siblings scope depth b = .ok text →
          Conveys scope text (kept l defaults above siblings b)) ∧
    ∀ bs, (∀ b ∈ bs, Writable b) → ∀ {above : Lineage} {siblings : List Element} {scope : Scope}
      {depth : Nat} {text : String}, (∀ p ∈ above, p.bindings.Legible) → scope.Sound →
        writeAll l defaults above siblings scope depth bs = .ok text →
          Conveys scope text (keptAll l defaults above siblings bs) := by
  refine Branch.mutualInduction ?_ ?_ ?_
  · intro id e children ih hb above siblings scope depth text habove hscope htext
    have hall : (e.Orderly ∧ e.Nameable) ∧ ∀ c ∈ children, Writable c := Branch.all_iff.1 hb
    obtain ⟨he, hchildren⟩ := hall
    rw [kept]
    split
    · next hkept =>
      obtain ⟨body, hbody, hnone, rfl⟩ := exists_of_writeBranch hkept htext
      have hannounces := announces_ofElement hdefaults he habove hscope
      have hinside := ih hchildren (List.forall_mem_cons.2 ⟨he.2.labels, habove⟩)
        hannounces.tells.sound hbody
      refine conveys_elementText body (fun h => ?_) hinside hannounces depth
      rw [hnone h, keptAll]
    · next hnot =>
      rw [writeBranch] at htext
      split at htext
      · cases htext
      · obtain rfl := Except.ok.inj htext
        exact conveys_nil scope
      · next hkept => exact absurd hkept hnot
  · intro _ above siblings scope depth text _ _ htext
    obtain rfl := Except.ok.inj htext
    exact conveys_nil scope
  · intro b bs ihb ihbs hbs above siblings scope depth text habove hscope htext
    obtain ⟨hb, hbs⟩ := List.forall_mem_cons.1 hbs
    rw [writeAll] at htext
    split at htext
    · cases htext
    · next first hfirst =>
      split at htext
      · cases htext
      · next others hothers =>
        obtain rfl := Except.ok.inj htext
        have hall := ((conveys_lineEnd l scope).append (ihb hb habove hscope hfirst)).append
          (ihbs hbs habove hscope hothers)
        exact hall

end Branches

end Netconf.Xml

namespace Netconf.Tree

variable {t : Tree} {id : NodeId}

/-- XML can carry the names in the branch at a node, and the labels bound above it and in the
registry may be bound. -/
structure Nameable (t : Tree) (id : NodeId) : Prop where
  /-- The names in the branch can be written. -/
  branch : (t.branch id).All fun b => b.element.Nameable
  /-- The labels bound on the node and its ancestors may be bound. -/
  above : ∀ e ∈ t.lineage id, e.bindings.Legible
  /-- The labels of the registry may be bound. -/
  registry : t.defaults.bindings.Legible

/-- What is kept of the branch at a node when it is written, its values as they are read. -/
def kept (t : Tree) (id : NodeId) (l : Xml.Layout) : List Branch :=
  let siblings := ((t.parent? id).map fun p => (t.children p).map t.element).getD []
  Xml.kept l t.defaults.bindings (t.lineage id).tail siblings (t.branch id)

/-- The text of a branch, if there is one, conveys what is kept of the branch. -/
theorem Nameable.conveys_encode (h : t.Nameable id) (ht : t.Orderly) {l : Xml.Layout}
    {text : String} (htext : t.encode id l = .ok text) : Xml.Conveys [] text (t.kept id l) :=
  (Xml.conveys_written h.registry).1 _ (Xml.writable_of (ht.branch id) h.branch)
    (fun q hq => h.above q (List.mem_of_mem_tail hq)) (fun _ hm => nomatch hm) htext

end Netconf.Tree
