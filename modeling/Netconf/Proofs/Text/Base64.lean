import Netconf.Text.Base64
import Netconf.Text.Blank

/-!
# Base64 is canonical

Decoding undoes encoding (`decode_encode`) and encoding undoes decoding (`encode_of_decode`), group
by group: a group of three bytes is one number of four times six bits, and the bits that the padding
of a shorter last group leaves over are zero on both sides. So the texts that are decoded are those
that are encoded (`decode_eq_some_iff`), each of one list of bytes, and none of them has blanks.
-/

namespace Netconf.Text.Base64

/-! ## Symbols -/

/-- A symbol stands for the low six bits that it was made of. -/
theorem sextet?_symbol (n : Nat) : sextet? (symbol n) = some (n % 64) := by
  have hall : ∀ m < 64, sextet? (alphabet.getD m 'A') = some m := by decide +kernel
  exact hall (n % 64) (Nat.mod_lt n (by decide))

/-- No symbol is the padding. -/
theorem symbol_ne_padding (n : Nat) : (symbol n == '=') = false := by
  have hall : ∀ m < 64, (alphabet.getD m 'A' == '=') = false := by decide +kernel
  exact hall (n % 64) (Nat.mod_lt n (by decide))

/-- No symbol is blank. -/
theorem isBlank_symbol (n : Nat) : isBlank (symbol n) = false := by
  have hall : ∀ m < 64, isBlank (alphabet.getD m 'A') = false := by decide +kernel
  exact hall (n % 64) (Nat.mod_lt n (by decide))

/-- A character that stands for six bits is their symbol. -/
theorem symbol_of_sextet? {c : Char} {n : Nat} (h : sextet? c = some n) :
    n < 64 ∧ symbol n = c := by
  obtain ⟨hn, hc, -⟩ := List.idxOf?_eq_some_iff.1 h
  have hlt : n < 64 := hn
  refine ⟨hlt, ?_⟩
  rw [symbol, Nat.mod_eq_of_lt hlt, List.getD_eq_getElem?_getD, List.getElem?_eq_getElem hn]
  exact hc

/-- A symbol is told by its low six bits. -/
theorem symbol_congr {m n : Nat} (h : m % 64 = n % 64) : symbol m = symbol n := by
  rw [symbol, symbol, h]

/-! ## Decoding what is encoded -/

/-- A byte is the byte of its number. -/
theorem ofNat_eq {n : Nat} {b : UInt8} (h : n % 256 = b.toNat) : UInt8.ofNat n = b := by
  apply UInt8.toNat_inj.1
  rw [UInt8.toNat_ofNat']
  exact h

/-- The four symbols of three bytes stand for these bytes. -/
theorem group_symbols (a b c : UInt8) :
    let n := a.toNat * 65536 + b.toNat * 256 + c.toNat
    group (n / 262144 % 64) (n / 4096 % 64) (n / 64 % 64) (n % 64) = [a, b, c] := by
  have ha := a.toNat_lt
  have hb := b.toNat_lt
  have hc := c.toNat_lt
  simp only [group]
  rw [ofNat_eq (b := a), ofNat_eq (b := b), ofNat_eq (b := c)] <;> omega

section Groups

variable {cw cx cy cz : Char} {w x y z : Nat} (hw : sextet? cw = some w) (hx : sextet? cx = some x)
  (hy : sextet? cy = some y) (hz : sextet? cz = some z)
include hw hx

/-- A last group with two characters of padding is that of one byte. -/
theorem decode_lastOne : decode [cw, cx, '=', '='] = lastOne? w x := by
  simp only [decode, hw, hx, List.isEmpty_nil, beq_self_eq_true, Bool.and_self, if_true,
    Option.bind_eq_bind, Option.bind_some]

include hy

/-- A last group with one character of padding is that of two bytes. -/
theorem decode_lastTwo (hpadding : (cy == '=') = false) :
    decode [cw, cx, cy, '='] = lastTwo? w x y := by
  simp only [decode, hw, hx, hy, hpadding, List.isEmpty_nil, beq_self_eq_true, Bool.and_self,
    if_true, Bool.false_eq_true, if_false, Option.bind_eq_bind, Option.bind_some]

include hz

/-- A group without padding is that of three bytes, and others follow. -/
theorem decode_group (hpadding : (cz == '=') = false) (rest : List Char) :
    decode (cw :: cx :: cy :: cz :: rest) = (decode rest).map (group w x y z ++ ·) := by
  simp only [decode, hw, hx, hy, hz, hpadding, Bool.and_false, Bool.false_eq_true, if_false,
    Option.bind_eq_bind, Option.bind_some]
  cases decode rest <;> rfl

end Groups

/-- Decoding undoes encoding. -/
theorem decode_encode (bytes : List UInt8) : decode (encode bytes) = some bytes := by
  have hsextet := sextet?_symbol
  induction bytes using encode.induct with
  | case1 a b c rest ih =>
    rw [encode, decode_group (hsextet _) (hsextet _) (hsextet _) (hsextet _) (symbol_ne_padding _),
      ih, group_symbols]
    rfl
  | case2 a b =>
    have ha := a.toNat_lt
    have hb := b.toNat_lt
    rw [encode, decode_lastTwo (hsextet _) (hsextet _) (hsextet _) (symbol_ne_padding _), lastTwo?,
      if_pos (by omega), ofNat_eq (b := a), ofNat_eq (b := b)] <;> omega
  | case3 a =>
    have ha := a.toNat_lt
    rw [encode, decode_lastOne (hsextet _) (hsextet _), lastOne?, if_pos (by omega),
      ofNat_eq (b := a)]
    omega
  | case4 => rfl

/-! ## Encoding what is decoded -/

/-- The text of the byte of a last group `wx==`. -/
theorem encode_lastOne {w x : Nat} (hx : x < 64) {bytes : List UInt8}
    (h : lastOne? w x = some bytes) : encode bytes = [symbol w, symbol x, '=', '='] := by
  unfold lastOne? at h
  split at h
  · next hzero =>
    cases h
    rw [encode, UInt8.toNat_ofNat', symbol_congr (n := w) (by omega),
      symbol_congr (m := (w * 64 + x) / 16 % 2 ^ 8 * 16) (n := x) (by omega)]
  · cases h

/-- The text of the bytes of a last group `wxy=`. -/
theorem encode_lastTwo {w x y : Nat} (hw : w < 64) (hx : x < 64) (hy : y < 64)
    {bytes : List UInt8} (h : lastTwo? w x y = some bytes) :
    encode bytes = [symbol w, symbol x, symbol y, '='] := by
  unfold lastTwo? at h
  dsimp only at h
  split at h
  · next hzero =>
    cases h
    have hn : ((w * 64 + x) * 64 + y) / 1024 % 2 ^ 8 * 256 + ((w * 64 + x) * 64 + y) / 4 % 2 ^ 8 =
      ((w * 64 + x) * 64 + y) / 4 := by omega
    simp only [encode, UInt8.toNat_ofNat', hn]
    rw [symbol_congr (n := w) (by omega),
      symbol_congr (m := ((w * 64 + x) * 64 + y) / 4 / 16) (n := x) (by omega),
      symbol_congr (m := ((w * 64 + x) * 64 + y) / 4 * 4) (n := y) (by omega)]
  · cases h

/-- The text of the bytes of a full group, and of others behind them. -/
theorem encode_group {w x y z : Nat} (hw : w < 64) (hx : x < 64) (hy : y < 64) (hz : z < 64)
    (bytes : List UInt8) : encode (group w x y z ++ bytes) =
      symbol w :: symbol x :: symbol y :: symbol z :: encode bytes := by
  generalize hn : ((w * 64 + x) * 64 + y) * 64 + z = n
  have hbytes : n / 65536 % 2 ^ 8 * 65536 + n / 256 % 2 ^ 8 * 256 + n % 2 ^ 8 = n := by omega
  simp only [group, List.cons_append, List.nil_append, encode, UInt8.toNat_ofNat', hn, hbytes]
  rw [symbol_congr (m := n / 262144) (n := w) (by omega),
    symbol_congr (m := n / 4096) (n := x) (by omega),
    symbol_congr (m := n / 64) (n := y) (by omega), symbol_congr (m := n) (n := z) (by omega)]

/-- Encoding undoes decoding: no text but the encoded one is accepted. -/
theorem encode_of_decode {cs : List Char} {bytes : List UInt8} (h : decode cs = some bytes) :
    encode bytes = cs := by
  induction cs using decode.induct generalizing bytes with
  | case1 =>
    cases h
    rfl
  | case2 cw cx cy cz rest ih =>
    simp only [decode, Option.bind_eq_bind, Option.bind_eq_some_iff] at h
    obtain ⟨w, hw, x, hx, h⟩ := h
    obtain ⟨hw', rfl⟩ := symbol_of_sextet? hw
    obtain ⟨hx', rfl⟩ := symbol_of_sextet? hx
    split at h
    · next hlast =>
      rw [Bool.and_eq_true, List.isEmpty_iff, beq_iff_eq] at hlast
      obtain ⟨rfl, rfl⟩ := hlast
      split at h
      · next hy =>
        rw [beq_iff_eq.1 hy]
        exact encode_lastOne hx' h
      · rw [Option.bind_eq_some_iff] at h
        obtain ⟨y, hy, h⟩ := h
        obtain ⟨hy', rfl⟩ := symbol_of_sextet? hy
        exact encode_lastTwo hw' hx' hy' h
    · simp only [Option.bind_eq_some_iff] at h
      obtain ⟨y, hy, z, hz, others, hothers, h⟩ := h
      obtain ⟨hy', rfl⟩ := symbol_of_sextet? hy
      obtain ⟨hz', rfl⟩ := symbol_of_sextet? hz
      cases h
      rw [encode_group hw' hx' hy' hz', ih hothers]
  | case3 cs hnil hcons =>
    rw [decode.eq_3 cs hnil hcons] at h
    cases h

/-- The texts that stand for bytes are those that are written for them. -/
theorem decode_eq_some_iff {cs : List Char} {bytes : List UInt8} :
    decode cs = some bytes ↔ encode bytes = cs :=
  ⟨encode_of_decode, fun h => h ▸ decode_encode bytes⟩

/-- Different bytes have different texts. -/
theorem encode_inj {bytes other : List UInt8} : encode bytes = encode other ↔ bytes = other := by
  rw [← decode_eq_some_iff, decode_encode, Option.some_inj, eq_comm]

/-- No character of the text of bytes is blank. -/
theorem isBlank_of_mem_encode {bytes : List UInt8} {c : Char} (hc : c ∈ encode bytes) :
    isBlank c = false := by
  have hpadding : isBlank '=' = false := by decide
  induction bytes using encode.induct with
  | case1 a b c rest ih =>
    simp only [encode, List.mem_cons] at hc
    rcases hc with rfl | rfl | rfl | rfl | hc
    · exact isBlank_symbol _
    · exact isBlank_symbol _
    · exact isBlank_symbol _
    · exact isBlank_symbol _
    · exact ih hc
  | case2 a b =>
    simp only [encode, List.mem_cons, List.not_mem_nil, or_false] at hc
    rcases hc with rfl | rfl | rfl | rfl
    · exact isBlank_symbol _
    · exact isBlank_symbol _
    · exact isBlank_symbol _
    · exact hpadding
  | case3 a =>
    simp only [encode, List.mem_cons, List.not_mem_nil, or_false] at hc
    rcases hc with rfl | rfl | rfl | rfl
    · exact isBlank_symbol _
    · exact isBlank_symbol _
    · exact hpadding
    · exact hpadding
  | case4 => cases hc

/-- The text of bytes has no blanks at its ends. -/
theorem strip_encode (bytes : List UInt8) : strip (encode bytes) = encode bytes :=
  strip_eq_self fun _ hc => isBlank_of_mem_encode hc

end Netconf.Text.Base64
