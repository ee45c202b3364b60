import Mathlib.Data.List.Basic

/-!
# Texts as bytes

The bytes of a text are those of its characters, one after the other, and they tell the text
(`fromUTF8?_eq_some_iff`). A character of ASCII is one byte, and the bytes of the others are none
of ASCII. So where the bytes of an ASCII word stand among the bytes of a text, the word stands in
the text (`exists_of_bytes_eq`).
-/

namespace Netconf.Text

/-- The bytes of a text. -/
def bytes (s : String) : List UInt8 := s.toUTF8.data.toList

/-- The bytes of characters. -/
def encodeAll (cs : List Char) : List UInt8 := cs.flatMap String.utf8EncodeChar

/-- The bytes of a text are those of its characters. -/
theorem bytes_eq (s : String) : bytes s = encodeAll s.toList := by
  have h := String.utf8Encode_toList (b := s)
  rw [bytes, String.toUTF8_eq_toByteArray, ← h]
  simp [List.utf8Encode, encodeAll]

/-- The bytes of characters are those of their parts. -/
theorem encodeAll_append (cs ds : List Char) :
    encodeAll (cs ++ ds) = encodeAll cs ++ encodeAll ds := List.flatMap_append

/-- The bytes of characters are those of the first one and those of the others. -/
theorem encodeAll_cons (c : Char) (cs : List Char) :
    encodeAll (c :: cs) = String.utf8EncodeChar c ++ encodeAll cs := List.flatMap_cons

/-- Only no characters have no bytes. -/
theorem encodeAll_eq_nil {cs : List Char} : encodeAll cs = [] ↔ cs = [] := by
  cases cs with
  | nil => simp [encodeAll]
  | cons c cs => simp [encodeAll_cons]

/-- There are no fewer bytes than characters. -/
theorem length_le_encodeAll (cs : List Char) : cs.length ≤ (encodeAll cs).length := by
  induction cs with
  | nil => exact Nat.le_refl _
  | cons c cs ih =>
    rw [encodeAll_cons, List.length_append, String.length_utf8EncodeChar, List.length_cons]
    have hc := c.utf8Size_pos
    omega

/-- The bytes of a text are those of its parts. -/
theorem bytes_append (s t : String) : bytes (s ++ t) = bytes s ++ bytes t := by
  rw [bytes_eq, bytes_eq, bytes_eq, String.toList_append, encodeAll_append]

/-- Bytes are read as the text whose bytes they are, and are no text else. -/
theorem fromUTF8?_eq_some_iff {bs : List UInt8} {s : String} :
    String.fromUTF8? ⟨bs.toArray⟩ = some s ↔ bytes s = bs := by
  have harray : bytes s = bs ↔ s.toByteArray = ⟨bs.toArray⟩ := by
    constructor
    · rintro rfl
      rfl
    · intro h
      simp [bytes, h]
  rw [harray]
  unfold String.fromUTF8?
  constructor
  · intro h
    split at h
    · cases h
      rfl
    · cases h
  · intro h
    have hvalid : ByteArray.IsValidUTF8 ⟨bs.toArray⟩ := h ▸ s.isValidUTF8
    rw [dif_pos hvalid]
    exact congrArg some (String.toByteArray_inj.1 h.symm)

/-! ## ASCII -/

/-- A byte of ASCII is all that there is of its character. -/
theorem encode_eq_of_mem {c : Char} {b : UInt8} (hb : b < 0x80)
    (h : b ∈ String.utf8EncodeChar c) : String.utf8EncodeChar c = [b] := by
  -- all bytes of a longer character have the highest bit set
  have hhigh : ∀ x m : UInt8, m = 0x80 ∨ m = 0xc0 ∨ m = 0xe0 ∨ m = 0xf0 → ¬ x ||| m < 0x80 := by
    rintro x m (rfl | rfl | rfl | rfl) <;> rw [UInt8.lt_iff_toNat_lt, UInt8.toNat_or]
    all_goals exact Nat.not_lt.2 (Nat.le_trans (by decide) Nat.right_le_or)
  rw [String.utf8EncodeChar_eq_utf8EncodeCharFast] at h ⊢
  unfold String.utf8EncodeCharFast at h ⊢
  dsimp only at h ⊢
  split_ifs at h ⊢ with h1 h2 h3 <;>
    simp only [List.mem_cons, List.not_mem_nil, or_false] at h
  · rw [h]
  · rcases h with rfl | rfl <;> exact absurd hb (hhigh _ _ (by simp))
  · rcases h with rfl | rfl | rfl <;> exact absurd hb (hhigh _ _ (by simp))
  · rcases h with rfl | rfl | rfl | rfl <;> exact absurd hb (hhigh _ _ (by simp))

/-- A byte of ASCII among the bytes of characters is one of the characters. -/
theorem exists_of_encodeAll_eq {cs : List Char} {p q : List UInt8} {b : UInt8} (hb : b < 0x80)
    (h : encodeAll cs = p ++ b :: q) :
    ∃ before c after, cs = before ++ c :: after ∧ String.utf8EncodeChar c = [b] ∧
      encodeAll before = p ∧ encodeAll after = q := by
  induction cs generalizing p with
  | nil => simp [encodeAll] at h
  | cons c cs ih =>
    rw [encodeAll_cons] at h
    rcases List.append_eq_append_iff.1 h with ⟨p', rfl, hp'⟩ | ⟨r, hr, hq⟩
    · obtain ⟨before, d, after, rfl, hd, rfl, rfl⟩ := ih hp'
      exact ⟨c :: before, d, after, rfl, hd, encodeAll_cons c before, rfl⟩
    · cases r with
      | nil =>
        obtain ⟨before, d, after, rfl, hd, hbefore, rfl⟩ := ih (p := []) (by simpa using hq.symm)
        refine ⟨c :: before, d, after, rfl, hd, ?_, rfl⟩
        rw [encodeAll_cons, hbefore, hr, List.append_nil, List.append_nil]
      | cons x r =>
        obtain ⟨rfl, hrest⟩ := List.cons.inj hq
        -- the byte belongs to the first character, so it is all of it
        have hc := encode_eq_of_mem hb (hr ▸ by simp : b ∈ String.utf8EncodeChar c)
        rw [hc] at hr
        cases p with
        | nil =>
          obtain rfl : r = [] := by simpa using hr
          exact ⟨[], c, cs, rfl, hc, rfl, by simpa using hrest.symm⟩
        | cons y p => simp at hr

/-- A character of ASCII is one byte. -/
def IsAscii (c : Char) : Prop := ∃ b < 0x80, String.utf8EncodeChar c = [b]

/-- Characters whose bytes are the same byte are the same. -/
theorem eq_of_encode_eq {c d : Char} (h : String.utf8EncodeChar c = String.utf8EncodeChar d) :
    c = d := by
  have hbytes : bytes (String.singleton c) = bytes (String.singleton d) := by
    simp [bytes_eq, encodeAll, h]
  have hread := fromUTF8?_eq_some_iff.2 hbytes
  rw [fromUTF8?_eq_some_iff.2 rfl] at hread
  have hchars : d = c := by simpa using congrArg String.toList (Option.some.inj hread)
  exact hchars.symm

/-- Where the bytes of characters begin with those of an ASCII word, the characters begin with the
word. -/
theorem exists_of_encodeAll_eq_append {cs w : List Char} {q : List UInt8}
    (hw : ∀ c ∈ w, IsAscii c) (h : encodeAll cs = encodeAll w ++ q) :
    ∃ after, cs = w ++ after ∧ encodeAll after = q := by
  induction w generalizing cs with
  | nil => exact ⟨cs, rfl, h⟩
  | cons c w ih =>
    obtain ⟨⟨b, hb, hc⟩, hrest⟩ := List.forall_mem_cons.1 hw
    have hfirst : encodeAll cs = [] ++ b :: (encodeAll w ++ q) := by
      rw [h, encodeAll_cons, hc]
      rfl
    obtain ⟨before, d, after, rfl, hd, hbefore, hafter⟩ := exists_of_encodeAll_eq hb hfirst
    obtain rfl := encodeAll_eq_nil.1 hbefore
    obtain rfl : d = c := eq_of_encode_eq (hd.trans hc.symm)
    obtain ⟨after, rfl, hq⟩ := ih hrest hafter
    exact ⟨after, rfl, hq⟩

/-- Where the bytes of an ASCII word stand among the bytes of a text, the word stands in the text,
with as many bytes behind it. -/
theorem exists_of_bytes_eq {s w : String} {p q : List UInt8} (hne : w ≠ "")
    (hw : ∀ c ∈ w.toList, IsAscii c) (h : bytes s = p ++ bytes w ++ q) :
    ∃ before after, s.toList = before ++ w.toList ++ after ∧ encodeAll after = q := by
  rw [bytes_eq, bytes_eq] at h
  cases hchars : w.toList with
  | nil => exact absurd (String.toList_eq_nil_iff.1 hchars) hne
  | cons c cs =>
    rw [hchars] at h hw
    obtain ⟨⟨b, hb, hc⟩, hcs⟩ := List.forall_mem_cons.1 hw
    have hfirst : encodeAll s.toList = p ++ b :: (encodeAll cs ++ q) := by
      rw [h, encodeAll_cons, hc]
      simp
    -- the first byte finds the first character, and the others follow it
    obtain ⟨before, d, after, hs, hd, -, hafter⟩ := exists_of_encodeAll_eq hb hfirst
    obtain rfl : d = c := eq_of_encode_eq (hd.trans hc.symm)
    obtain ⟨after, rfl, hq⟩ := exists_of_encodeAll_eq_append hcs hafter
    exact ⟨before, after, by simpa using hs, hq⟩

end Netconf.Text
