import Netconf.Proofs.Text.Bytes

/-!
# Positions among the bytes of a text

A reader that works on the bytes of a text keeps a position and may cut a text out between two of
them, which goes wrong when one of the two is inside a character (`slice?`). A position has
characters ahead of it when the bytes from there on are theirs (`Ahead`). What such a reader finds
out about bytes it finds out about characters, as long as it asks for kinds of characters that all
bytes of a character agree about (`Agreed`), and it cuts between characters then.
-/

namespace Netconf.Text

variable {buf : List UInt8} {i : Nat} {b : UInt8} {c : Char} {cs ds : List Char} {p : Char → Bool}

/-! ## Bytes -/

/-- The byte at a position, as the character of its number. Behind the end all bytes are zero. -/
def byteAt (buf : List UInt8) (i : Nat) : Char := Char.ofUInt8 (buf.getD i 0)

/-- The first position, from a given one on, with a byte that is not of a kind; the end, if there
is none. -/
def skipWhile (p : Char → Bool) (buf : List UInt8) (i : Nat) : Nat :=
  i + ((buf.drop i).takeWhile fun b => p (Char.ofUInt8 b)).length

/-- Does a character begin at the position, or is it the end? -/
def isBoundary (buf : List UInt8) (i : Nat) : Bool :=
  match buf[i]? with
  | some b => decide b.IsUTF8FirstByte
  | none => i == buf.length

/-- The text between two positions; none when one of them is inside a character or behind the
end, or when they are the wrong way round. -/
def slice? (buf : List UInt8) (start stop : Nat) : Option String :=
  if decide (start ≤ stop) && isBoundary buf start && isBoundary buf stop then
    String.fromUTF8? ⟨((buf.take stop).drop start).toArray⟩
  else none

/-! ## The bytes of a character -/

/-- A character below 128 is one byte, of its number. -/
theorem encode_of_lt (hc : c.toNat < 128) : String.utf8EncodeChar c = [c.val.toUInt8] := by
  have hsize : c.utf8Size = 1 := by
    rw [Char.utf8Size_eq_one_iff, UInt32.le_iff_toNat_le]
    exact Nat.le_of_lt_succ hc
  exact String.utf8EncodeChar_eq_singleton hsize

/-- The byte of a character below 128 stands for it. -/
theorem ofUInt8_toUInt8 (hc : c.toNat < 128) : Char.ofUInt8 c.val.toUInt8 = c := by
  apply Char.ext
  apply UInt32.toNat_inj.1
  show c.val.toNat % 2 ^ 8 = c.val.toNat
  exact Nat.mod_eq_of_lt (Nat.lt_trans hc (by decide))

/-- Each byte of a character is the character, or is above ASCII as the character is. -/
theorem ofUInt8_of_mem (h : b ∈ String.utf8EncodeChar c) :
    Char.ofUInt8 b = c ∨ 128 ≤ (Char.ofUInt8 b).toNat ∧ 128 ≤ c.toNat := by
  by_cases hc : c.toNat < 128
  · rw [encode_of_lt hc, List.mem_singleton] at h
    exact .inl (h ▸ ofUInt8_toUInt8 hc)
  · refine .inr ⟨?_, Nat.le_of_not_lt hc⟩
    rw [← Nat.not_lt]
    intro hlow
    have hb : b < 0x80 := UInt8.lt_iff_toNat_lt.2 hlow
    -- a byte of ASCII would be all of the character
    have hone : c.utf8Size = 1 := by
      rw [← String.length_utf8EncodeChar, encode_eq_of_mem hb h, List.length_singleton]
    rw [Char.utf8Size_eq_one_iff, UInt32.le_iff_toNat_le] at hone
    exact hc (Nat.lt_succ_of_le hone)

/-- All bytes of a character are of the kind exactly when the character is. -/
def Agreed (p : Char → Bool) : Prop :=
  ∀ c, ∀ b ∈ String.utf8EncodeChar c, p (Char.ofUInt8 b) = p c

namespace Agreed

/-- A kind of characters of ASCII. -/
theorem of_ascii (h : ∀ c : Char, p c = true → c.toNat < 128) : Agreed p := by
  have hhigh : ∀ c : Char, 128 ≤ c.toNat → p c = false := fun c hc =>
    Bool.eq_false_iff.2 fun hp => Nat.not_lt.2 hc (h c hp)
  intro c b hb
  rcases ofUInt8_of_mem hb with heq | ⟨hbyte, hc⟩
  · rw [heq]
  · rw [hhigh c hc, hhigh _ hbyte]

/-- One character of ASCII. -/
theorem eq_ascii {d : Char} (hd : d.toNat < 128) : Agreed (· == d) :=
  of_ascii fun _ hc => beq_iff_eq.1 hc ▸ hd

/-- All characters but one of ASCII. -/
theorem ne_ascii {d : Char} (hd : d.toNat < 128) : Agreed (· != d) := fun c b hb =>
  congrArg (! ·) (eq_ascii hd c b hb)

/-- The bytes in front that are of the kind are those of the characters in front that are. -/
theorem takeWhile_encodeAll (h : Agreed p) (cs : List Char) :
    ((encodeAll cs).takeWhile fun b => p (Char.ofUInt8 b)) = encodeAll (cs.takeWhile p) := by
  induction cs with
  | nil => rfl
  | cons c cs ih =>
    rw [encodeAll_cons]
    cases hc : p c with
    | true =>
      have hall : ∀ b ∈ String.utf8EncodeChar c, p (Char.ofUInt8 b) = true := fun b hb =>
        (h c b hb).trans hc
      rw [List.takeWhile_append_of_pos hall, ih, List.takeWhile_cons_of_pos hc, encodeAll_cons]
    | false =>
      obtain ⟨b, bs, hbs⟩ := List.exists_cons_of_ne_nil (String.utf8EncodeChar_ne_nil (c := c))
      have hb : p (Char.ofUInt8 b) = false := (h c b (hbs ▸ List.mem_cons_self)).trans hc
      rw [hbs, List.cons_append, List.takeWhile_cons_of_neg (by rw [hb]; exact Bool.false_ne_true),
        List.takeWhile_cons_of_neg (by rw [hc]; exact Bool.false_ne_true)]
      rfl

end Agreed

/-! ## Characters ahead -/

/-- The bytes are those of a text, and from the position on those of the characters. -/
def Ahead (buf : List UInt8) (i : Nat) (cs : List Char) : Prop :=
  ∃ before, buf = encodeAll (before ++ cs) ∧ i = (encodeAll before).length

namespace Ahead

/-- At the start, all characters are ahead. -/
theorem start (s : String) : Ahead (bytes s) 0 s.toList := ⟨[], bytes_eq s, rfl⟩

/-- Behind characters, the others are ahead. -/
theorem skip (h : Ahead buf i (cs ++ ds)) : Ahead buf (i + (encodeAll cs).length) ds := by
  obtain ⟨before, rfl, rfl⟩ := h
  refine ⟨before ++ cs, by rw [List.append_assoc], ?_⟩
  rw [encodeAll_append, List.length_append]

/-- Behind one character, the others are ahead. -/
theorem next (h : Ahead buf i (c :: cs)) : Ahead buf (i + c.utf8Size) cs := by
  have hskip : Ahead buf (i + (encodeAll [c]).length) cs := skip h
  rwa [encodeAll_cons, List.length_append, String.length_utf8EncodeChar] at hskip

/-- A character of ASCII is passed with one step. -/
theorem next_ascii (h : Ahead buf i (c :: cs)) (hc : c.toNat < 128) : Ahead buf (i + 1) cs := by
  have hnext := h.next
  rwa [← String.length_utf8EncodeChar, encode_of_lt hc] at hnext

/-- The bytes from the position on. -/
theorem drop_eq (h : Ahead buf i cs) : buf.drop i = encodeAll cs := by
  obtain ⟨before, rfl, rfl⟩ := h
  rw [encodeAll_append, List.drop_left]

/-- The bytes of the characters reach to the end. -/
theorem length_eq (h : Ahead buf i cs) : buf.length = i + (encodeAll cs).length := by
  obtain ⟨before, rfl, rfl⟩ := h
  rw [encodeAll_append, List.length_append]

/-- What is ahead tells the position. -/
theorem unique {j : Nat} (h : Ahead buf i cs) (hj : Ahead buf j cs) : i = j := by
  have hlen := h.length_eq
  rw [hj.length_eq] at hlen
  exact (Nat.add_right_cancel hlen).symm

/-- At the end, nothing is ahead. -/
theorem length (h : Ahead buf i cs) : Ahead buf buf.length [] := by
  rw [h.length_eq]
  exact skip (by rwa [List.append_nil])

/-- There is a byte at the position exactly when there are characters ahead. -/
theorem lt_length_iff (h : Ahead buf i cs) : i < buf.length ↔ cs ≠ [] := by
  rw [h.length_eq, ne_eq, ← encodeAll_eq_nil, ← List.length_eq_zero_iff]
  omega

/-- The byte at a position with nothing ahead is zero. -/
theorem byteAt_nil (h : Ahead buf i []) : byteAt buf i = '\x00' := by
  have hend : ¬ i < buf.length := by rw [h.lt_length_iff]; simp
  rw [byteAt, List.getD_eq_getElem?_getD, List.getElem?_eq_none (Nat.le_of_not_lt hend)]
  rfl

/-- The byte at a position is the first one of the character ahead. -/
theorem exists_byteAt_cons (h : Ahead buf i (c :: cs)) :
    ∃ b ∈ String.utf8EncodeChar c, byteAt buf i = Char.ofUInt8 b := by
  obtain ⟨b, bs, hbs⟩ := List.exists_cons_of_ne_nil (String.utf8EncodeChar_ne_nil (c := c))
  refine ⟨b, hbs ▸ List.mem_cons_self, ?_⟩
  have hget : (buf.drop i)[0]? = some b := by
    rw [h.drop_eq, encodeAll_cons, hbs]
    rfl
  rw [List.getElem?_drop, Nat.add_zero] at hget
  rw [byteAt, List.getD_eq_getElem?_getD, hget, Option.getD_some]

/-- The byte at a position is of a kind exactly when the character ahead is. -/
theorem agreed (h : Ahead buf i (c :: cs)) (hp : Agreed p) : p (byteAt buf i) = p c := by
  obtain ⟨b, hb, heq⟩ := h.exists_byteAt_cons
  rw [heq, hp c b hb]

/-- The byte at a position is the character ahead, or is above ASCII as that is. -/
theorem byteAt_cons (h : Ahead buf i (c :: cs)) :
    byteAt buf i = c ∨ 128 ≤ (byteAt buf i).toNat ∧ 128 ≤ c.toNat := by
  obtain ⟨b, hb, heq⟩ := h.exists_byteAt_cons
  rw [heq]
  exact ofUInt8_of_mem hb

/-- The byte at a position with a character of ASCII ahead is that character. -/
theorem byteAt_ascii (h : Ahead buf i (c :: cs)) (hc : c.toNat < 128) : byteAt buf i = c :=
  h.byteAt_cons.resolve_right fun hhigh => Nat.not_le.2 hc hhigh.2

/-- Behind the characters of a kind, the others are ahead. -/
theorem skipWhile (h : Ahead buf i cs) (hp : Agreed p) :
    Ahead buf (skipWhile p buf i) (cs.dropWhile p) := by
  rw [Text.skipWhile, h.drop_eq, hp.takeWhile_encodeAll]
  exact skip (by rwa [List.takeWhile_append_dropWhile])

/-- A text may begin or end at the position. -/
theorem isBoundary (h : Ahead buf i cs) : isBoundary buf i = true := by
  have hget : buf[i]? = (encodeAll cs)[0]? := by
    rw [← h.drop_eq, List.getElem?_drop, Nat.add_zero]
  unfold Text.isBoundary
  rw [hget]
  cases cs with
  | nil =>
    have hlen := h.length_eq
    exact beq_iff_eq.2 hlen.symm
  | cons c cs =>
    have hlen : 0 < (String.utf8EncodeChar c).length :=
      List.length_pos_of_ne_nil String.utf8EncodeChar_ne_nil
    rw [encodeAll_cons, List.getElem?_append_left hlen, List.getElem?_eq_getElem hlen]
    exact decide_eq_true UInt8.isUTF8FirstByte_getElem_zero_utf8EncodeChar

/-- What is cut out between two positions are the characters that are ahead at the first one and no
longer at the second. -/
theorem slice?_eq {j : Nat} (h : Ahead buf i (cs ++ ds)) (hj : Ahead buf j ds) :
    slice? buf i j = some (String.ofList cs) := by
  obtain rfl : i + (encodeAll cs).length = j := h.skip.unique hj
  have hcut : (buf.take (i + (encodeAll cs).length)).drop i = encodeAll cs := by
    rw [List.drop_take, Nat.add_sub_cancel_left, h.drop_eq, encodeAll_append, List.take_left]
  have hread : String.fromUTF8? ⟨(encodeAll cs).toArray⟩ = some (String.ofList cs) := by
    rw [fromUTF8?_eq_some_iff, bytes_eq, String.toList_ofList]
  rw [slice?, h.isBoundary, hj.isBoundary, decide_eq_true (Nat.le_add_right _ _), hcut, hread]
  rfl

/-- Nothing is cut out inside a character. -/
example : slice? (bytes "aé") 1 3 = some "é" ∧ slice? (bytes "aé") 1 2 = none := by decide +kernel

end Ahead

end Netconf.Text
