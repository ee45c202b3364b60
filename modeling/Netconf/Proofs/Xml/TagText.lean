import Netconf.Proofs.Xml.Names
import Netconf.Xml.Writing

/-!
# The text of a tag

A start tag is written as its name and the quoted values of its declarations and attributes, whose
markup is escaped. Read again, it is cut where it ends and not inside a value
(`readItem_opening`, `readItem_single`), and its text behind the name gives the names and values
back (`readAttributes_written`).
-/

namespace Netconf.Xml

/-! ## Escapes -/

/-- Escaped characters are no markup. -/
theorem ne_of_mem_escape {quotes : Bool} {cs : List Char} {c : Char} (h : c ∈ escape quotes cs) :
    c ≠ '<' ∧ c ≠ '>' ∧ (quotes = true → c ≠ '"') := by
  -- a reference has an ampersand, letters and a semicolon
  have hreference : ∀ name : List Char, (∀ d ∈ name, d ≠ '<' ∧ d ≠ '>' ∧ d ≠ '"') →
      c ∈ '&' :: name ++ [';'] → c ≠ '<' ∧ c ≠ '>' ∧ (quotes = true → c ≠ '"') := by
    intro name hname hc
    have hplain : c ≠ '<' ∧ c ≠ '>' ∧ c ≠ '"' := by
      rcases List.mem_append.1 hc with hc | hc
      · rcases List.mem_cons.1 hc with rfl | hc
        · simp
        · exact hname c hc
      · rw [List.mem_singleton.1 hc]
        simp
    exact ⟨hplain.1, hplain.2.1, fun _ => hplain.2.2⟩
  obtain ⟨d, -, hc⟩ := List.mem_flatMap.1 h
  unfold escapeChar at hc
  split at hc
  · exact hreference ['a', 'm', 'p'] (by simp) hc
  · exact hreference ['l', 't'] (by simp) hc
  · exact hreference ['g', 't'] (by simp) hc
  · split at hc
    · exact hreference ['q', 'u', 'o', 't'] (by simp) hc
    · next hquotes =>
      rw [List.mem_singleton.1 hc]
      exact ⟨by simp, by simp, fun h => absurd h hquotes⟩
  · next hamp hlt hgt hquote =>
    rw [List.mem_singleton.1 hc]
    exact ⟨hlt, hgt, fun _ => hquote⟩

/-! ## Names with values -/

/-- The characters of names with labels. -/
def isKeyChar (c : Char) : Bool := isNameChar c || c == ':'

/-- Is the text a name, perhaps with a label in front? -/
def IsKey (s : String) : Prop :=
  ∃ c cs, s.toList = c :: cs ∧ isNameStart c = true ∧ ∀ d ∈ c :: cs, isKeyChar d = true

/-- A name is a key. -/
theorem isKey_of_isName {s : String} (h : isName s = true) : IsKey s := by
  obtain ⟨c, cs, heq, hc, hall⟩ := exists_cons_of_isName h
  exact ⟨c, cs, heq, hc, fun d hd => by simp [isKeyChar, hall d hd]⟩

/-- A name with a label in front is a key. -/
theorem isKey_withLabel {label name : String} (hlabel : label = "" ∨ isName label = true)
    (hname : isName name = true) : IsKey (withLabel label name) := by
  by_cases h : label = ""
  · rw [withLabel, if_pos h]
    exact isKey_of_isName hname
  · obtain ⟨c, cs, heq, hc, hall⟩ := exists_cons_of_isName (hlabel.resolve_left h)
    refine ⟨c, cs ++ ':' :: name.toList, by rw [toList_withLabel h, heq]; rfl, hc, fun d hd => ?_⟩
    have hd' : d ∈ (c :: cs) ++ ':' :: name.toList := hd
    rcases List.mem_append.1 hd' with hd | hd
    · simp [isKeyChar, hall d hd]
    · rcases List.mem_cons.1 hd with rfl | hd
      · decide
      · simp [isKeyChar, isNameChar_of_mem hname hd]

/-- What is no character of keys is not in a key. -/
theorem IsKey.ne_of_mem {s : String} (h : IsKey s) {c d : Char} (hc : c ∈ s.toList)
    (hd : isKeyChar d = false) : c ≠ d := by
  obtain ⟨e, es, heq, -, hall⟩ := h
  rintro rfl
  rw [hall c (heq ▸ hc)] at hd
  cases hd

/-- Keys have no blanks. -/
theorem IsKey.isSpace_eq_false {s : String} (h : IsKey s) {c : Char} (hc : c ∈ s.toList) :
    isSpace c = false := by
  simp [isSpace, h.ne_of_mem hc (d := ' ') (by decide), h.ne_of_mem hc (d := '\t') (by decide),
    h.ne_of_mem hc (d := '\r') (by decide), h.ne_of_mem hc (d := '\n') (by decide)]

/-- A name with its value, as characters. -/
def attributeChars (p : String × String) : List Char :=
  ' ' :: p.1.toList ++ '=' :: '"' :: escape true p.2.toList ++ ['"']

/-- An attribute is written as such characters. -/
theorem toList_attributeText (name value : String) :
    (attributeText name value).toList = attributeChars (name, value) := by
  simp [attributeText, escapeAttribute, attributeChars]

/-- The names and values of a tag: its declarations, and its attributes. -/
def Tag.pairs (t : Tag) : List (String × String) :=
  t.declared.map (fun b => (b.declaration, b.ns)) ++ t.attributes

/-- A start tag as characters. -/
theorem Tag.toList_text (t : Tag) :
    t.text.toList = '<' :: t.name.toList ++ t.pairs.flatMap attributeChars := by
  have hjoin : ∀ ps : List (String × String),
      (String.join (ps.map fun p => attributeText p.1 p.2)).toList = ps.flatMap attributeChars := by
    intro ps
    rw [String.toList_join, List.flatMap_map]
    exact congrArg (List.flatMap · ps) (funext fun p => toList_attributeText p.1 p.2)
  have hdeclared : (t.declared.map fun b => attributeText b.declaration b.ns) =
      (t.declared.map fun b => (b.declaration, b.ns)).map fun p => attributeText p.1 p.2 := by
    rw [List.map_map]
    rfl
  rw [Tag.text, hdeclared, String.toList_append, String.toList_append, String.toList_append, hjoin,
    hjoin, Tag.pairs, List.flatMap_append]
  simp

/-! ## Reading values back -/

/-- What is read of a name with its value. -/
def rawOf (p : String × String) : RawAttribute := ⟨p.1.toList, p.2⟩

/-- A value is read up to its closing quote. -/
theorem readQuotedValue_written {v : List Char} (hv : '"' ∉ v) (rest : List Char) :
    readQuotedValue ('"' :: (v ++ '"' :: rest)) = some (v, rest) := by
  have hother : ∀ c ∈ v, (c != '"') = true := fun c hc => by
    simpa using fun he : c = '"' => hv (he ▸ hc)
  have hspace : ('"' :: (v ++ '"' :: rest)).dropWhile isSpace = '"' :: (v ++ '"' :: rest) := by
    simp [isSpace]
  rw [readQuotedValue, hspace]
  simp [List.takeWhile_append_of_pos hother, List.dropWhile_append_of_pos hother]

/-- A name with its value is read as one attribute, and then what follows. -/
theorem readAttributesFor_cons {p : String × String} (hp : IsKey p.1) {keys : List (List Char)}
    (hnew : p.1.toList ∉ keys) (n : Nat) (rest : List Char) :
    readAttributesFor (n + 1) keys (attributeChars p ++ rest) =
      match readAttributesFor n (p.1.toList :: keys) rest with
      | .error e => .error e
      | .ok others => .ok (rawOf p :: others) := by
  obtain ⟨c, cs, heq, -⟩ := id hp
  have hc : isSpace c = false := hp.isSpace_eq_false (heq ▸ List.mem_cons_self)
  have hin : ∀ d ∈ cs, (d != '=' && !isSpace d) = true := fun d hd => by
    have hd' : d ∈ p.1.toList := heq ▸ List.mem_cons_of_mem c hd
    simp [hp.ne_of_mem hd' (d := '=') (by decide), hp.isSpace_eq_false hd']
  have hchars : attributeChars p ++ rest =
      ' ' :: c :: (cs ++ '=' :: ('"' :: (escape true p.2.toList ++ '"' :: rest))) := by
    simp [attributeChars, heq]
  have hvalue : '"' ∉ escape true p.2.toList := fun h => (ne_of_mem_escape h).2.2 rfl rfl
  have hstart : (attributeChars p ++ rest).dropWhile isSpace =
      c :: (cs ++ '=' :: ('"' :: (escape true p.2.toList ++ '"' :: rest))) := by
    rw [hchars, List.dropWhile_cons_of_pos (by decide), List.dropWhile_cons_of_neg (by simp [hc])]
  rw [readAttributesFor, hstart]
  dsimp only
  rw [List.takeWhile_append_of_pos hin, List.dropWhile_append_of_pos hin]
  have hkeys : keys.contains p.1.toList = false := by simpa using hnew
  simp only [List.takeWhile_cons, List.dropWhile_cons, bne_self_eq_false, Bool.false_and,
    Bool.false_eq_true, if_false, List.append_nil]
  rw [show isSpace '=' = false by decide]
  simp only [Bool.false_eq_true, if_false, hkeys, readQuotedValue_written hvalue, unescape_escape,
    String.ofList_toList, ← heq]
  rfl

/-- The text of a tag behind its name gives the names and values back. -/
theorem readAttributes_written {ps : List (String × String)} (hkeys : ∀ p ∈ ps, IsKey p.1)
    (hnodup : (ps.map (·.1)).Nodup) :
    readAttributes (ps.flatMap attributeChars) = .ok (ps.map rawOf) := by
  have hread : ∀ (ps : List (String × String)) (n : Nat) (keys : List (List Char)),
      ps.length ≤ n → (∀ p ∈ ps, IsKey p.1) → (ps.map (·.1)).Nodup →
      (∀ p ∈ ps, p.1.toList ∉ keys) →
      readAttributesFor n keys (ps.flatMap attributeChars) = .ok (ps.map rawOf) := by
    intro ps
    induction ps with
    | nil => intro n keys _ _ _ _; cases n <;> rfl
    | cons p ps ih =>
      intro n keys hn hkeys hnodup hnew
      obtain ⟨hp, hkeys⟩ := List.forall_mem_cons.1 hkeys
      obtain ⟨hpnew, hnew⟩ := List.forall_mem_cons.1 hnew
      obtain ⟨hpn, hnodup⟩ := List.nodup_cons.1 hnodup
      obtain ⟨n, rfl⟩ := Nat.exists_eq_succ_of_ne_zero
        (Nat.ne_of_gt (Nat.lt_of_lt_of_le (Nat.succ_pos _) hn))
      have hothers : ∀ q ∈ ps, q.1.toList ∉ p.1.toList :: keys := fun q hq hmem => by
        rcases List.mem_cons.1 hmem with heq | hmem
        · exact hpn (List.mem_map.2 ⟨q, hq, String.toList_inj.1 heq⟩)
        · exact hnew q hq hmem
      rw [List.flatMap_cons, readAttributesFor_cons hp hpnew,
        ih n _ (Nat.le_of_succ_le_succ hn) hkeys hnodup hothers]
      rfl
  refine hread ps _ [] ?_ hkeys hnodup fun _ _ => List.not_mem_nil
  -- every attribute is written with at least its quotes
  have hlength : ps.length ≤ (ps.flatMap attributeChars).length := by
    rw [List.length_flatMap]
    induction ps with
    | nil => exact Nat.le_refl 0
    | cons p ps ih =>
      have hps := ih (fun q hq => hkeys q (List.mem_cons_of_mem p hq)) (List.nodup_cons.1 hnodup).2
      simp only [List.map_cons, List.sum_cons, List.length_cons, attributeChars,
        List.length_append] at hps ⊢
      omega
  omega

/-! ## Cutting tags -/

/-- The cut of a tag passes over the characters: they do not end it, and leave no quote open. -/
def Passes (cs : List Char) : Prop :=
  ∀ before rest, cutTag none before (cs ++ rest) = cutTag none (cs.reverse ++ before) rest

/-- A cut passes over two parts one after the other. -/
theorem Passes.append {cs ds : List Char} (hc : Passes cs) (hd : Passes ds) : Passes (cs ++ ds) :=
  fun before rest => by
    rw [List.append_assoc, hc, hd, List.reverse_append, List.append_assoc]

/-- A cut passes over characters that are neither quotes nor the end. -/
theorem passes_of_plain {cs : List Char} (h : ∀ c ∈ cs, c ≠ '>' ∧ c ≠ '\'' ∧ c ≠ '"') :
    Passes cs := by
  intro before rest
  induction cs generalizing before with
  | nil => rfl
  | cons c cs ih =>
    obtain ⟨⟨hend, hsingle, hdouble⟩, hcs⟩ := List.forall_mem_cons.1 h
    rw [List.cons_append, cutTag]
    simp only [hend, hsingle, hdouble, or_self, if_false]
    rw [ih hcs]
    simp

/-- A cut passes over a quoted text. -/
theorem passes_quoted {v : List Char} (h : '"' ∉ v) : Passes ('"' :: (v ++ ['"'])) := by
  have hinside : ∀ (v before rest : List Char), '"' ∉ v →
      cutTag (some '"') before (v ++ '"' :: rest) =
        cutTag none ('"' :: (v.reverse ++ before)) rest := by
    intro v
    induction v with
    | nil => intro before rest _; simp [cutTag]
    | cons c cs ih =>
      intro before rest h
      have hc : c ≠ '"' := fun he => h (by simp [he])
      rw [List.cons_append, cutTag]
      simp only [hc, if_false]
      rw [ih _ _ fun hm => h (List.mem_cons_of_mem c hm)]
      simp
  intro before rest
  have hopen : cutTag none before ('"' :: (v ++ ['"']) ++ rest) =
      cutTag (some '"') ('"' :: before) (v ++ '"' :: rest) := by
    simp [cutTag]
  rw [hopen, hinside v _ rest h]
  simp

/-- A cut passes over a key. -/
theorem IsKey.passes {s : String} (h : IsKey s) : Passes s.toList :=
  passes_of_plain fun _ hc =>
    ⟨h.ne_of_mem hc (by decide), h.ne_of_mem hc (by decide), h.ne_of_mem hc (by decide)⟩

/-- A cut passes over names with their values. -/
theorem passes_attributes {ps : List (String × String)} (h : ∀ p ∈ ps, IsKey p.1) :
    Passes (ps.flatMap attributeChars) := by
  induction ps with
  | nil => exact fun _ _ => rfl
  | cons p ps ih =>
    obtain ⟨hp, hps⟩ := List.forall_mem_cons.1 h
    have hblank : Passes [' '] := passes_of_plain (by simp)
    have hequals : Passes ['='] := passes_of_plain (by simp)
    have hvalue := passes_quoted (v := escape true p.2.toList)
      fun h => (ne_of_mem_escape h).2.2 rfl rfl
    have hone := ((hblank.append hp.passes).append hequals).append hvalue
    have hchars : attributeChars p = [' '] ++ p.1.toList ++ ['='] ++
        '"' :: (escape true p.2.toList ++ ['"']) := by
      simp [attributeChars]
    rw [List.flatMap_cons, hchars]
    exact hone.append (ih hps)

/-- What a cut passes over it cuts off at the sign behind it. -/
theorem Passes.cut {cs : List Char} (h : Passes cs) (rest : List Char) :
    cutTag none [] (cs ++ '>' :: rest) = some (cs, rest) := by
  rw [h]
  simp [cutTag]

/-! ## Blanks -/

/-- Nothing is dropped in front of a character that stays. -/
theorem dropWhile_eq_self {α : Type} {p : α → Bool} {xs : List α}
    (h : ∀ x ∈ xs.head?, p x = false) : xs.dropWhile p = xs := by
  cases xs with
  | nil => rfl
  | cons x xs => exact List.dropWhile_cons_of_neg (by simp [h x rfl])

/-- A text that ends without a blank stays as it is. -/
theorem trimRight_eq_self {cs : List Char} (h : ∀ c ∈ cs.getLast?, isSpace c = false) :
    trimRight cs = cs := by
  rw [trimRight, dropWhile_eq_self fun c hc => h c (by rwa [List.head?_reverse] at hc),
    List.reverse_reverse]

/-! ## Reading tags back -/

/-- The tag that is cut off, unless it is an end tag. -/
theorem readTag_of_cut {cs body rest : List Char} (h : cutTag none [] cs = some (body, rest))
    (hhead : body.head? ≠ some '/') :
    readTag cs =
      let isEmpty := body.getLast? == some '/'
      let inner := if isEmpty then body.dropLast else body
      let name := inner.takeWhile fun c => !isSpace c
      let attributes := inner.dropWhile fun c => !isSpace c
      let item : Markup := if isEmpty then .single name attributes else .opening name attributes
      some (some item, rest) := by
  rw [readTag, h]
  split
  · next heq => cases heq
  · next heq => cases heq; exact absurd rfl hhead
  · next heq => cases heq; rfl

section Tags

variable {name : String} {ps : List (String × String)} (hname : IsKey name)
  (hkeys : ∀ p ∈ ps, IsKey p.1)
include hname

/-- The text behind a tag's name starts with a blank, if there is any. -/
theorem cut_name (ps : List (String × String)) :
    (name.toList ++ ps.flatMap attributeChars).takeWhile (fun c => !isSpace c) = name.toList ∧
      (name.toList ++ ps.flatMap attributeChars).dropWhile (fun c => !isSpace c) =
        ps.flatMap attributeChars := by
  have hin : ∀ c ∈ name.toList, (!isSpace c) = true := fun c hc => by
    rw [hname.isSpace_eq_false hc]
    rfl
  rw [List.takeWhile_append_of_pos hin, List.dropWhile_append_of_pos hin]
  cases ps with
  | nil => simp
  | cons p ps => simp [attributeChars, isSpace]

/-- A text that starts with a name is that of a start tag. -/
theorem readItem_eq_readTag (cs : List Char) :
    readItem (name.toList ++ cs) = readTag (name.toList ++ cs) := by
  obtain ⟨c, more, heq, hc, -⟩ := hname
  have hne : ∀ d : Char, isNameStart d = false → c ≠ d := fun d hd he => by
    rw [he, hd] at hc
    cases hc
  rw [heq, List.cons_append]
  unfold readItem
  split
  all_goals first
    | rfl
    | next h => exact absurd (List.cons.inj h).1 (hne _ (by decide))
    | next h => cases h

/-- A tag with a name does not end like that of an empty element by itself. -/
theorem getLast?_ne (ps : List (String × String)) :
    (name.toList ++ ps.flatMap attributeChars).getLast? ≠ some '/' := by
  intro hlast
  rcases List.eq_nil_or_concat ps with rfl | ⟨qs, q, rfl⟩
  · rw [List.flatMap_nil, List.append_nil] at hlast
    exact hname.ne_of_mem (List.mem_of_getLast? hlast) (by decide) rfl
  · have hquote : name.toList ++ (qs.concat q).flatMap attributeChars =
        name.toList ++ qs.flatMap attributeChars ++
          (' ' :: q.1.toList ++ '=' :: '"' :: escape true q.2.toList) ++ ['"'] := by
      simp [attributeChars, List.concat_eq_append]
    rw [hquote, List.getLast?_append] at hlast
    exact absurd (Option.some.inj hlast) (by decide)

/-- A tag with a name does not start like an end tag. -/
theorem head?_ne (cs : List Char) : (name.toList ++ cs).head? ≠ some '/' := by
  obtain ⟨c, more, heq, -, hall⟩ := id hname
  rw [heq]
  exact fun he => hname.ne_of_mem (heq ▸ List.mem_cons_self) (by decide) (Option.some.inj he)

/-- An end tag is read back. -/
theorem readItem_closing (rest : List Char) :
    readItem ('/' :: (name.toList ++ '>' :: rest)) = some (some (.closing name.toList), rest) := by
  have hslash : Passes ['/'] := passes_of_plain (by simp)
  have hcut := (hslash.append hname.passes).cut rest
  have hclosing : closingName name.toList = name.toList := by
    unfold closingName
    split
    · rfl
    · exact trimRight_eq_self fun c hc => hname.isSpace_eq_false (List.mem_of_getLast? hc)
  show readTag (['/'] ++ name.toList ++ '>' :: rest) = _
  rw [readTag, hcut]
  simp [hclosing]

include hkeys

/-- A start tag is read back. -/
theorem readItem_opening (rest : List Char) :
    readItem (name.toList ++ (ps.flatMap attributeChars ++ '>' :: rest)) =
      some (some (.opening name.toList (ps.flatMap attributeChars)), rest) := by
  have hcut := (hname.passes.append (passes_attributes hkeys)).cut rest
  have hlast : ((name.toList ++ ps.flatMap attributeChars).getLast? == some '/') = false :=
    beq_eq_false_iff_ne.2 (getLast?_ne hname ps)
  obtain ⟨htake, hdrop⟩ := cut_name hname ps
  rw [readItem_eq_readTag hname, ← List.append_assoc, readTag_of_cut hcut (head?_ne hname _)]
  simp only [hlast, Bool.false_eq_true, if_false, htake, hdrop]

/-- The tag of an empty element is read back. -/
theorem readItem_single (rest : List Char) :
    readItem (name.toList ++ (ps.flatMap attributeChars ++ '/' :: '>' :: rest)) =
      some (some (.single name.toList (ps.flatMap attributeChars)), rest) := by
  have hslash : Passes ['/'] := passes_of_plain (by simp)
  have hcut := ((hname.passes.append (passes_attributes hkeys)).append hslash).cut rest
  have hhead : (name.toList ++ ps.flatMap attributeChars ++ ['/']).head? ≠ some '/' := by
    rw [List.append_assoc]
    exact head?_ne hname _
  have hlast :
      ((name.toList ++ ps.flatMap attributeChars ++ ['/']).getLast? == some '/') = true := by
    rw [List.getLast?_concat]
    rfl
  have hchars : name.toList ++ (ps.flatMap attributeChars ++ '/' :: '>' :: rest) =
      name.toList ++ ps.flatMap attributeChars ++ ['/'] ++ '>' :: rest := by
    simp
  obtain ⟨htake, hdrop⟩ := cut_name hname ps
  rw [readItem_eq_readTag hname, hchars, readTag_of_cut hcut hhead]
  simp only [hlast, if_true, List.dropLast_concat, htake, hdrop]

end Tags

end Netconf.Xml
