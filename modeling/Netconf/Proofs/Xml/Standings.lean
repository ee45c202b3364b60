import Mathlib.Data.List.Infix
import Netconf.Xml.Reading

/-!
# Where a reader stands

What a list of items says of the elements that it opens, told from the items alone and without a
tree. Behind some of the items of a text a reader stands inside the elements whose end it has not
met (`standing`). An element has the number of its tag in the text. What every item contributes at
the place where it stands is collected in order by `gather`: the elements that are inside no other
(`tops`) and the runs of text directly inside an element (`runsIn`). `openNames` is the check of the
end tags, which only looks at names.
-/

namespace Netconf.Xml

/-! ## Single items -/

namespace Markup

/-- The name and the attributes in the tag of an element. An end tag has none. -/
def tag? : Markup → Option (List Char × List Char)
  | .opening name attributes => some (name, attributes)
  | .single name attributes => some (name, attributes)
  | _ => none

/-- The characters of a text, its references replaced, or of a section of literal text. -/
def characters? : Markup → Option (List Char)
  | .text cs => unescape cs
  | .literal cs => some cs
  | _ => none

/-- The run of text that an item is: its characters without the blanks at their ends, if that leaves
any. -/
def run? (m : Markup) : Option String :=
  (m.characters?.map fun cs => String.ofList (Text.strip cs)).filter fun run => run != ""

/-- The run of text that characters leave. -/
theorem run?_eq {m : Markup} {cs : List Char} (h : m.characters? = some cs) :
    m.run? = if String.ofList (Text.strip cs) = "" then none
      else some (String.ofList (Text.strip cs)) := by
  rw [run?, h, Option.map_some, Option.filter_some]
  by_cases hempty : String.ofList (Text.strip cs) = "" <;> simp [hempty]

/-- A run of text is no tag. -/
theorem tag?_of_characters {m : Markup} {cs : List Char} (h : m.characters? = some cs) :
    m.tag? = none := by
  cases m <;> first | rfl | cases h

end Markup

/-! ## Standings -/

/-- Where a reader stands behind some items. -/
structure Standing where
  /-- The number of tags so far, which is the number of the next element. -/
  tags : Nat := 0
  /-- The elements whose end is still to come, the innermost first. -/
  inside : List NodeId := []

namespace Standing

/-- Where a reader stands behind one more item. -/
def past (s : Standing) : Markup → Standing
  | .opening _ _ => ⟨s.tags + 1, s.tags :: s.inside⟩
  | .single _ _ => ⟨s.tags + 1, s.inside⟩
  | .closing _ => ⟨s.tags, s.inside.tail⟩
  | .text _ => s
  | .literal _ => s

/-- What items contribute in order, each where it stands. -/
def gather {α : Type} (f : Standing → Markup → List α) : Standing → List Markup → List α
  | _, [] => []
  | s, m :: ms => f s m ++ gather f (s.past m) ms

/-- A run of text leaves the reader where it is. -/
theorem past_of_characters {m : Markup} {cs : List Char} (h : m.characters? = some cs)
    (s : Standing) : s.past m = s := by
  cases m <;> first | rfl | cases h

/-- What one more item contributes comes last. -/
theorem gather_concat {α : Type} (f : Standing → Markup → List α) (s : Standing)
    (ms : List Markup) (m : Markup) :
    gather f s (ms ++ [m]) = gather f s ms ++ f (ms.foldl past s) m := by
  induction ms generalizing s with
  | nil => simp [gather]
  | cons m' ms ih => rw [List.cons_append, gather, ih, gather, List.append_assoc, List.foldl_cons]

end Standing

/-- Where a reader stands behind the first items of a text. -/
def standing (ms : List Markup) : Standing := ms.foldl Standing.past {}

/-- One more item moves the reader past it. -/
theorem standing_concat (ms : List Markup) (m : Markup) :
    standing (ms ++ [m]) = (standing ms).past m := by
  rw [standing, List.foldl_concat, standing]

/-- The elements inside which a reader stands began before, the inner ones after the outer ones. -/
theorem pairwise_inside (ms : List Markup) :
    (standing ms).inside.Pairwise (fun inner outer : Nat => outer < inner) ∧
      ∀ id ∈ (standing ms).inside, id < (standing ms).tags := by
  induction ms using List.reverseRecOn with
  | nil => exact ⟨.nil, fun id hid => absurd hid List.not_mem_nil⟩
  | append_singleton ms m ih =>
    obtain ⟨hsorted, hlt⟩ := ih
    rw [standing_concat]
    cases m with
    | opening name attributes =>
      refine ⟨List.pairwise_cons.2 ⟨hlt, hsorted⟩, fun id hid => ?_⟩
      rcases List.mem_cons.1 hid with rfl | hid
      · exact Nat.lt_succ_self _
      · exact Nat.lt_succ_of_lt (hlt id hid)
    | single name attributes => exact ⟨hsorted, fun id hid => Nat.lt_succ_of_lt (hlt id hid)⟩
    | closing name =>
      exact ⟨hsorted.tail, fun id hid => hlt id (List.mem_of_mem_tail hid)⟩
    | text cs => exact ⟨hsorted, hlt⟩
    | literal cs => exact ⟨hsorted, hlt⟩

/-- What is met in items that end with `m` is `m` behind the others, or is met in these. -/
theorem eq_or_prefix_of_concat {before ms : List Markup} {m m' : Markup}
    (h : before ++ [m'] <+: ms ++ [m]) : (before = ms ∧ m' = m) ∨ before ++ [m'] <+: ms := by
  refine (List.prefix_concat_iff.1 h).imp_left fun heq => ?_
  obtain ⟨hbefore, hm⟩ := List.append_inj' heq rfl
  exact ⟨hbefore, List.singleton_inj.1 hm⟩

/-- What is gathered is contributed by some item, where it stands. -/
theorem Standing.mem_gather {α : Type} {f : Standing → Markup → List α} {ms : List Markup} {x : α} :
    x ∈ gather f {} ms ↔ ∃ before m, before ++ [m] <+: ms ∧ x ∈ f (standing before) m := by
  induction ms using List.reverseRecOn with
  | nil => simp [gather]
  | append_singleton ms m ih =>
    rw [gather_concat, List.mem_append, ih]
    constructor
    · rintro (⟨before, m', hbefore, hx⟩ | hx)
      · exact ⟨before, m', hbefore.trans (List.prefix_append ms [m]), hx⟩
      · exact ⟨ms, m, List.prefix_refl _, hx⟩
    · rintro ⟨before, m', hbefore, hx⟩
      rcases eq_or_prefix_of_concat hbefore with ⟨rfl, rfl⟩ | hbefore
      · exact .inr hx
      · exact .inl ⟨before, m', hbefore, hx⟩

/-- A tag counts. -/
theorem Standing.tags_past {m : Markup} (hm : m.tag?.isSome) (s : Standing) :
    (s.past m).tags = s.tags + 1 := by
  cases m <;> first | rfl | cases hm

/-- What is no tag does not. -/
theorem Standing.tags_past_of_none {m : Markup} (hm : m.tag? = none) (s : Standing) :
    (s.past m).tags = s.tags := by
  cases m <;> first | rfl | cases hm

/-- Behind more items a reader has met no fewer tags. -/
theorem tags_le_tags {before ms : List Markup} (h : before <+: ms) :
    (standing before).tags ≤ (standing ms).tags := by
  induction ms using List.reverseRecOn with
  | nil => rw [List.prefix_nil.1 h]
  | append_singleton ms m ih =>
    rcases List.prefix_concat_iff.1 h with rfl | h
    · exact Nat.le_refl _
    · refine Nat.le_trans (ih h) ?_
      rw [standing_concat]
      cases m with
      | opening name attributes => exact Nat.le_succ _
      | single name attributes => exact Nat.le_succ _
      | closing name => exact Nat.le_refl _
      | text cs => exact Nat.le_refl _
      | literal cs => exact Nat.le_refl _

/-- The number of an element is below the number of the tags that were met with its own. -/
theorem tags_lt_tags {before ms : List Markup} {m : Markup} (h : before ++ [m] <+: ms)
    (hm : m.tag?.isSome) : (standing before).tags < (standing ms).tags := by
  have hle := tags_le_tags h
  rwa [standing_concat, Standing.tags_past hm] at hle

/-! ## What is told of the elements -/

/-- An element that begins inside no other is a top. -/
def topHere (s : Standing) (m : Markup) : List NodeId :=
  if m.tag?.isSome ∧ s.inside = [] then [s.tags] else []

/-- A run of text that stands directly inside an element. -/
def runHere (id : NodeId) (s : Standing) (m : Markup) : List String :=
  if s.inside.head? = some id then m.run?.toList else []

/-- The elements that are inside no other. -/
def tops (ms : List Markup) : List NodeId := Standing.gather topHere {} ms

/-- The runs of text directly inside an element. -/
def runsIn (id : NodeId) (ms : List Markup) : List String := Standing.gather (runHere id) {} ms

/-- Only a tag makes a top. -/
theorem topHere_of_none {m : Markup} (hm : m.tag? = none) (s : Standing) : topHere s m = [] := by
  rw [topHere, if_neg]
  rw [hm]
  exact fun h => absurd h.1 (by simp)

/-- The tops with one more item. -/
theorem tops_concat (ms : List Markup) (m : Markup) :
    tops (ms ++ [m]) = tops ms ++ topHere (standing ms) m :=
  Standing.gather_concat topHere {} ms m

/-- The runs with one more item. -/
theorem runsIn_concat (id : NodeId) (ms : List Markup) (m : Markup) :
    runsIn id (ms ++ [m]) = runsIn id ms ++ runHere id (standing ms) m :=
  Standing.gather_concat (runHere id) {} ms m

/-- The value that runs of text make. -/
def valueOf (runs : List String) : Option Value :=
  if runs = [] then none else some (.text (String.join runs))

/-- A run more is added at the end of the value. -/
theorem valueOf_concat (runs : List String) (run : String) :
    valueOf (runs ++ [run]) = some (.text (((valueOf runs).map Value.wire).getD "" ++ run)) := by
  have hjoin : String.join (runs ++ [run]) = String.join runs ++ run := by simp
  rw [valueOf, if_neg (by simp), hjoin, valueOf]
  split
  · next h => rw [h]; rfl
  · rfl

/-! ## End tags -/

/-- The names of the elements that are open behind items, the innermost first, with `names` open
before; an end tag without the name of the innermost element is refused. -/
def openNames (names : List (List Char)) : List Markup → Option (List (List Char))
  | [] => some names
  | .opening name _ :: ms => openNames (name :: names) ms
  | .closing name :: ms =>
    match names with
    | [] => none
    | innermost :: others => if innermost = name then openNames others ms else none
  | _ :: ms => openNames names ms

/-- The names that are open behind more items. -/
theorem openNames_append (names : List (List Char)) (ms more : List Markup) :
    openNames names (ms ++ more) = (openNames names ms).bind fun names => openNames names more := by
  induction ms generalizing names with
  | nil => rfl
  | cons m ms ih =>
    cases m with
    | opening name attributes => exact ih (name :: names)
    | single name attributes => exact ih names
    | closing name =>
      cases names with
      | nil => rfl
      | cons innermost others =>
        rw [List.cons_append, openNames, openNames]
        split
        · exact ih others
        · rfl
    | text cs => exact ih names
    | literal cs => exact ih names

/-- The names of open elements after runs of text are those before. -/
theorem openNames_of_characters {m : Markup} {cs : List Char} (h : m.characters? = some cs)
    (names : List (List Char)) : openNames names [m] = some names := by
  cases m <;> first | rfl | cases h

end Netconf.Xml
