import Netconf.Proofs.Text.Base64
import Netconf.Value

/-!
# Values and their wire forms

The sameness of values, which looks at the bytes of binary values, is equality of wire forms
(`Value.same_iff`), since no two binary values have one wire form. It is an equivalence for this
reason. Bytes are found again in their wire form, and a text stands for bytes just when it is their
wire form, blanks at its ends apart (`Value.ofBase64?_eq_some_iff`).
-/

namespace Netconf

namespace Value

/-- Values are the same when their wire forms are. -/
theorem same_iff (v w : Value) : v.same w = true ↔ v.wire = w.wire := by
  unfold same
  split
  · simp [wire]
  · rw [beq_iff_eq, wire, wire, String.ofList_inj, Text.Base64.encode_inj]
  · simp

/-- A text stands for bytes when it is their wire form, blanks at its ends apart. -/
theorem bytesOf?_eq_some_iff {s : String} {bytes : List UInt8} :
    bytesOf? s = some bytes ↔ (binary bytes).wire = Text.trim s := by
  rw [bytesOf?, Text.Base64.decode_eq_some_iff, wire, Text.trim, String.ofList_inj]

/-- The binary value of a text is the one whose wire form it is, blanks at its ends apart. -/
theorem ofBase64?_eq_some_iff {s : String} {v : Value} :
    ofBase64? s = some v ↔ ∃ bytes, v = binary bytes ∧ v.wire = Text.trim s := by
  rw [ofBase64?, Option.map_eq_some_iff]
  constructor
  · rintro ⟨bytes, hbytes, rfl⟩
    exact ⟨bytes, rfl, bytesOf?_eq_some_iff.1 hbytes⟩
  · rintro ⟨bytes, rfl, hwire⟩
    exact ⟨bytes, bytesOf?_eq_some_iff.2 hwire, rfl⟩

/-- Blanks around the text do not matter, but bits left over by the padding do. -/
example : ofBase64? "\n 3q2+7w== " = some (binary [0xDE, 0xAD, 0xBE, 0xEF]) ∧
    ofBase64? "3q2+7x==" = none := by decide +kernel

/-- The wire form of bytes stands for them. -/
theorem bytesOf?_wire (bytes : List UInt8) : bytesOf? (binary bytes).wire = some bytes := by
  rw [bytesOf?_eq_some_iff, wire, Text.trim, String.toList_ofList, Text.Base64.strip_encode]

/-- Values are the same when their wire forms are, which makes sameness an equivalence. The wire
form of bytes is decoded to these bytes, also when it was read as a text. A text is decoded only if
it is, blanks at its ends apart, the wire form of the result. -/
theorem wire_faithful :
    (∀ v w : Value, v.same w = true ↔ v.wire = w.wire) ∧
      (Equivalence fun v w : Value => v.same w = true) ∧
      (∀ bytes, ofBase64? (binary bytes).wire = some (binary bytes) ∧
        (text (binary bytes).wire).bytes? = some bytes) ∧
      ∀ s v, ofBase64? s = some v ↔ ∃ bytes, v = binary bytes ∧ v.wire = Text.trim s := by
  refine ⟨same_iff, ⟨fun v => ?_, fun h => ?_, fun h h' => ?_⟩, fun bytes => ⟨?_, ?_⟩,
    fun s v => ofBase64?_eq_some_iff⟩
  · exact (same_iff v v).2 rfl
  · exact (same_iff _ _).2 ((same_iff _ _).1 h).symm
  · exact (same_iff _ _).2 (((same_iff _ _).1 h).trans ((same_iff _ _).1 h'))
  · rw [ofBase64?, bytesOf?_wire, Option.map_some]
  · exact bytesOf?_wire bytes

end Value

/-- The wire form of an optional value. -/
def wire? (v : Option Value) : Option String := v.map Value.wire

/-- Optional values are the same when their wire forms are. -/
theorem sameValue_iff (v w : Option Value) : sameValue v w = true ↔ wire? v = wire? w := by
  cases v <;> cases w <;> simp [sameValue, wire?, Value.same_iff]

end Netconf
