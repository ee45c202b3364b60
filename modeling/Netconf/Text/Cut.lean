/-!
# Cutting a text at a character

Cutting at the first occurrence of a character, at every occurrence, and after every line end.
Nothing is lost: `cut_eq_append` says that the two parts and the separator are the input again.
-/

namespace Netconf.Text

/-- The parts before and after the first `sep`, if there is one. -/
def cut (sep : Char) : List Char → Option (List Char × List Char)
  | [] => none
  | c :: cs =>
    if c = sep then some ([], cs)
    else (cut sep cs).map fun p => (c :: p.1, p.2)

/-- The parts between the occurrences of `sep`; one part more than there are occurrences. -/
def split (sep : Char) : List Char → List (List Char)
  | [] => [[]]
  | c :: cs =>
    if c = sep then [] :: split sep cs
    else
      match split sep cs with
      | [] => [[c]]
      | part :: parts => (c :: part) :: parts

/-- The lines of a text, each with its line end; only the last one may lack it. -/
def lines : List Char → List (List Char)
  | [] => []
  | c :: cs =>
    if c = '\n' then [c] :: lines cs
    else
      match lines cs with
      | [] => [[c]]
      | line :: rest => (c :: line) :: rest

/-- What follows `head` in `cs`, when `cs` starts with it. -/
def afterHead (head cs : List Char) : Option (List Char) :=
  head.isPrefixOf? cs

/-- The rest of a text after `head`, when the text starts with it. -/
def dropHead? (head s : String) : Option String :=
  (afterHead head.toList s.toList).map String.ofList

/-- The parts of a text before and after the first `sep`, if there is one. -/
def cutOnce (sep : Char) (s : String) : Option (String × String) :=
  (cut sep s.toList).map fun p => (String.ofList p.1, String.ofList p.2)

/-- The two parts and the separator between them are the whole input. -/
theorem cut_eq_append {sep : Char} {cs l r : List Char} (h : cut sep cs = some (l, r)) :
    cs = l ++ sep :: r := by
  induction cs generalizing l with
  | nil => simp [cut] at h
  | cons c cs ih =>
    unfold cut at h
    split at h
    · next hc => simp_all
    · next hc =>
      obtain ⟨⟨l', r'⟩, h', heq⟩ := Option.map_eq_some_iff.1 h
      simp only [Prod.mk.injEq] at heq
      obtain ⟨rfl, rfl⟩ := heq
      simpa using ih h'

/-- The lines of a text are the text. -/
theorem flatten_lines (cs : List Char) : (lines cs).flatten = cs := by
  induction cs with
  | nil => rfl
  | cons c cs ih =>
    unfold lines
    split
    · simp [ih]
    · split
      · next h => simp [h] at ih; simp [ih]
      · next h => simp [h] at ih; simp [ih]

end Netconf.Text
