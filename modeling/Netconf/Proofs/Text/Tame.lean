import Mathlib.Data.List.Chain
import Netconf.Proofs.Text.Decimal
import Netconf.Proofs.Xml.TagText

/-!
# Texts without a marker

The marker of messages contains a bracket directly in front of the sign that closes a tag. `Tame`
texts have no such place, and do not make one when they are put behind anything else, so they can be
put together freely (`Tame.append`). Where the closing sign itself comes next, the text must not end
with a bracket either: such texts are `Sealed`. Escaped texts are tame, and a tag is sealed when its
names have neither sign.
-/

namespace Netconf.Text

/-- No `>` comes directly behind a `]`, and none comes first. -/
def Tame (cs : List Char) : Prop := (']' :: cs).IsChain fun c d => ¬(c = ']' ∧ d = '>')

/-- A tame text that does not end with a `]`. -/
structure Sealed (cs : List Char) : Prop where
  /-- It is tame. -/
  tame : Tame cs
  /-- It does not end with a `]`. -/
  last : cs.getLast? ≠ some ']'

/-- A name that has neither sign. -/
def Guarded (name : String) : Prop := ∀ c ∈ name.toList, c ≠ ']' ∧ c ≠ '>'

variable {cs ds : List Char}

/-- It can be computed whether a text is tame. -/
instance : Decidable (Tame cs) := inferInstanceAs (Decidable (List.IsChain _ _))

/-- It can be computed whether a text is sealed. -/
instance : Decidable (Sealed cs) := decidable_of_iff (Tame cs ∧ cs.getLast? ≠ some ']')
  ⟨fun h => ⟨h.1, h.2⟩, fun h => ⟨h.tame, h.last⟩⟩

/-- It can be computed whether a name is guarded. -/
instance (name : String) : Decidable (Guarded name) := List.decidableBAll _ _

/-- A name from two parts is guarded if both are. -/
theorem Guarded.append {s t : String} (hs : Guarded s) (ht : Guarded t) : Guarded (s ++ t) := by
  intro c hc
  rw [String.toList_append] at hc
  rcases List.mem_append.1 hc with hc | hc
  · exact hs c hc
  · exact ht c hc

/-- A decimal number is guarded. -/
theorem guarded_decimal (n : Nat) : Guarded (toString n) := by
  intro c hc
  have hdigit := isDigit_of_mem_decimal hc
  constructor
  · rintro rfl
    exact absurd hdigit (by decide)
  · rintro rfl
    exact absurd hdigit (by decide)

/-! ## Tame texts -/

/-- Tame texts one behind the other are tame. -/
theorem Tame.append (hc : Tame cs) (hd : Tame ds) : Tame (cs ++ ds) := by
  obtain ⟨hhead, hchain⟩ := List.isChain_cons.1 hd
  refine List.isChain_append.2 ⟨hc, hchain, fun c _ d hmem => ?_⟩
  rintro ⟨-, rfl⟩
  exact hhead _ hmem ⟨rfl, rfl⟩

/-- A text without the closing sign is tame. -/
theorem tame_of_ne (h : ∀ c ∈ cs, c ≠ '>') : Tame cs := by
  have hchain : ∀ b : Char, (b :: cs).IsChain fun c d => ¬(c = ']' ∧ d = '>') := by
    induction cs with
    | nil => exact fun b => List.isChain_singleton b
    | cons c cs ih =>
      obtain ⟨hc, hcs⟩ := List.forall_mem_cons.1 h
      exact fun b => List.isChain_cons_cons.2 ⟨fun hbad => hc hbad.2, ih hcs c⟩
  exact hchain ']'

/-- A tame text has no marker, not even the half of one. -/
theorem Tame.not_infix (h : Tame cs) : ¬ [']', ']', '>'] <:+: cs := by
  rintro ⟨before, after, rfl⟩
  have hchain : ((']' :: before) ++ [']', ']', '>'] ++ after).IsChain
      fun c d => ¬(c = ']' ∧ d = '>') := h
  exact absurd hchain.left_of_append.right_of_append (by decide)

/-- An escaped text is tame. -/
theorem tame_escape (quotes : Bool) (cs : List Char) : Tame (Xml.escape quotes cs) :=
  tame_of_ne fun _ hc => (Xml.ne_of_mem_escape hc).2.1

/-! ## Sealed texts -/

/-- A guarded name is sealed. -/
theorem Guarded.sealed {name : String} (h : Guarded name) : Sealed name.toList where
  tame := tame_of_ne fun c hc => (h c hc).2
  last := fun hlast => (h _ (List.mem_of_mem_getLast? hlast)).1 rfl

/-- A sealed text behind a tame one makes it sealed, unless it is empty. -/
theorem Tame.append_sealed (hc : Tame cs) (hd : Sealed ds) (hne : ds ≠ []) : Sealed (cs ++ ds) where
  tame := hc.append hd.tame
  last := by rw [List.getLast?_append_of_ne_nil _ hne]; exact hd.last

/-- Sealed texts one behind the other are sealed. -/
theorem Sealed.append (hc : Sealed cs) (hd : Sealed ds) : Sealed (cs ++ ds) := by
  by_cases hne : ds = []
  · rwa [hne, List.append_nil]
  · exact hc.tame.append_sealed hd hne

/-- Any number of sealed texts one behind the other are sealed. -/
theorem sealed_flatMap {α : Type} {xs : List α} {f : α → List Char}
    (h : ∀ x ∈ xs, Sealed (f x)) : Sealed (xs.flatMap f) := by
  induction xs with
  | nil => exact ⟨List.isChain_singleton _, by simp⟩
  | cons x xs ih =>
    obtain ⟨hx, hxs⟩ := List.forall_mem_cons.1 h
    exact hx.append (ih hxs)

/-- A tag is closed behind a sealed text, and is sealed with its closing sign. -/
theorem Sealed.close (h : Sealed cs) : Sealed ('<' :: cs ++ ['>']) := by
  have hopen : Sealed (['<'] ++ cs) := Sealed.append (by decide) h
  constructor
  · refine List.isChain_append.2 ⟨hopen.tame, List.isChain_singleton _, fun c hc d hd => ?_⟩
    rintro ⟨rfl, -⟩
    rw [List.cons_append, List.nil_append, List.getLast?_cons_cons] at hc
    exact hopen.last hc
  · rw [List.getLast?_append_of_ne_nil _ (by simp)]
    decide

end Netconf.Text
