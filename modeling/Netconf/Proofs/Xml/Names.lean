import Netconf.Proofs.Text.Cuts
import Netconf.Xml.Reading
import Netconf.Xml.Scope

/-!
# Names

The names that can stand in a tag as they are. They are made of characters that are no markup, so
that a name is read back as a whole, and one with a label in front is cut again where the two were
joined (`splitName_withLabel`).
-/

namespace Netconf.Xml

/-! ## Characters of names -/

/-- A name starts with a letter or a low line; every character beyond ASCII counts as a letter. -/
def isNameStart (c : Char) : Bool := c.isAlpha || c == '_' || decide (128 ≤ c.toNat)

/-- Names go on with letters, digits and some marks. -/
def isNameChar (c : Char) : Bool := isNameStart c || c.isDigit || c == '-' || c == '.'

/-- Is the text a name? -/
def isName (s : String) : Bool :=
  match s.toList with
  | [] => false
  | c :: cs => isNameStart c && cs.all isNameChar

/-- Is the text a label that a tree may bind: the empty one, or a name that is not reserved? -/
def isLabel (s : String) : Bool := s == "" || (isName s && s != "xml" && s != "xmlns")

/-- A name has a first character. -/
theorem exists_cons_of_isName {s : String} (h : isName s = true) :
    ∃ c cs, s.toList = c :: cs ∧ isNameStart c = true ∧ ∀ d ∈ c :: cs, isNameChar d = true := by
  unfold isName at h
  split at h
  · cases h
  · next c cs heq =>
    obtain ⟨hc, hcs⟩ := Bool.and_eq_true_iff.1 h
    refine ⟨c, cs, heq, hc, fun d hd => ?_⟩
    rcases List.mem_cons.1 hd with rfl | hd
    · simp [isNameChar, hc]
    · exact List.all_eq_true.1 hcs d hd

/-- The characters of a name. -/
theorem isNameChar_of_mem {s : String} (h : isName s = true) {c : Char} (hc : c ∈ s.toList) :
    isNameChar c = true := by
  obtain ⟨d, ds, heq, -, hall⟩ := exists_cons_of_isName h
  exact hall c (heq ▸ hc)

/-- A name is not empty. -/
theorem ne_empty_of_isName {s : String} (h : isName s = true) : s ≠ "" := by
  rintro rfl
  exact absurd h (by decide)

/-- What is no character of names is not in a name. -/
theorem not_mem_of_isName {s : String} (h : isName s = true) {c : Char}
    (hc : isNameChar c = false) : c ∉ s.toList := fun hm => by
  rw [isNameChar_of_mem h hm] at hc
  cases hc

/-- A label is empty, or a name that is not reserved. -/
theorem isLabel_iff {s : String} :
    isLabel s = true ↔ s = "" ∨ isName s = true ∧ s ≠ "xml" ∧ s ≠ "xmlns" := by
  simp [isLabel, and_assoc]

/-! ## Names with labels -/

/-- A name with a label in front, as characters. -/
theorem toList_withLabel {label : String} (h : label ≠ "") (name : String) :
    (withLabel label name).toList = label.toList ++ ':' :: name.toList := by
  simp [withLabel, h]

/-- A name alone has no label. -/
theorem splitName_of_isName {name : String} (h : isName name = true) :
    splitName name.toList = ("", name) := by
  rw [splitName, Text.cut_eq_none (not_mem_of_isName h (by decide))]
  simp

/-- A name is cut from its label where the two were joined. -/
theorem splitName_withLabel {label name : String} (hlabel : label = "" ∨ isName label = true)
    (hname : isName name = true) :
    splitName (withLabel label name).toList = (label, name) := by
  by_cases h : label = ""
  · rw [withLabel, if_pos h, splitName_of_isName hname, h]
  · unfold splitName
    have hl : ':' ∉ label.toList :=
      not_mem_of_isName (hlabel.resolve_left h) (by decide)
    rw [toList_withLabel h, Text.cut_append hl]
    simp

end Netconf.Xml
