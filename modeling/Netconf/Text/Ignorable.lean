import Netconf.Text.Ranges

/-!
# Ignorable characters

The characters of the Unicode property `Default_Ignorable_Code_Point`, version 17.0: fillers,
joiners, selectors and the like, which are invisible where they are not understood. Some of them are
letters by their category. `isIgnorable_iff` says that the look-up finds what the table holds.
-/

namespace Netconf.Text

/-- The ranges of the property `Default_Ignorable_Code_Point`, both ends included. -/
def ignorableRanges : List (Nat × Nat) :=
  [(0xAD, 0xAD), (0x34F, 0x34F), (0x61C, 0x61C), (0x115F, 0x1160), (0x17B4, 0x17B5),
    (0x180B, 0x180F), (0x200B, 0x200F), (0x202A, 0x202E), (0x2060, 0x206F), (0x3164, 0x3164),
    (0xFE00, 0xFE0F), (0xFEFF, 0xFEFF), (0xFFA0, 0xFFA0), (0xFFF0, 0xFFF8), (0x1BCA0, 0x1BCA3),
    (0x1D173, 0x1D17A), (0xE0000, 0xE0FFF)]

/-- Is a character invisible where it is not understood? -/
def isIgnorable (c : Char) : Bool := inRanges ignorableRanges c.toNat

/-- The ranges follow each other in ascending order. -/
theorem ascending_ignorableRanges : ascending ignorableRanges = true := by decide

/-- A character is ignorable exactly when one of the ranges holds it. -/
theorem isIgnorable_iff (c : Char) :
    isIgnorable c = true ↔ ∃ r ∈ ignorableRanges, r.1 ≤ c.toNat ∧ c.toNat ≤ r.2 :=
  inRanges_iff ascending_ignorableRanges c.toNat

end Netconf.Text
