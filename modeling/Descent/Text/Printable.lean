import Descent.Text.Unassigned

/-!
# Printable characters

A code point is shown as it is unless it is a control, a format character, a separator other than
the space, a surrogate, for private use, or unassigned. The table is that of Unicode 14.0.
-/

namespace Descent.Text

/-- The ranges of the assigned code points that are shown by an escape. -/
def hiddenRanges : List Range :=
  [⟨0x0, 0x1F⟩, ⟨0x7F, 0xA0⟩, ⟨0xAD, 0xAD⟩, ⟨0x600, 0x605⟩, ⟨0x61C, 0x61C⟩, ⟨0x6DD, 0x6DD⟩,
   ⟨0x70F, 0x70F⟩, ⟨0x890, 0x891⟩, ⟨0x8E2, 0x8E2⟩, ⟨0x1680, 0x1680⟩, ⟨0x180E, 0x180E⟩,
   ⟨0x2000, 0x200F⟩, ⟨0x2028, 0x202F⟩, ⟨0x205F, 0x2064⟩, ⟨0x2066, 0x206F⟩, ⟨0x3000, 0x3000⟩,
   ⟨0xD800, 0xF8FF⟩, ⟨0xFEFF, 0xFEFF⟩, ⟨0xFFF9, 0xFFFB⟩, ⟨0x110BD, 0x110BD⟩, ⟨0x110CD, 0x110CD⟩,
   ⟨0x13430, 0x13438⟩, ⟨0x1BCA0, 0x1BCA3⟩, ⟨0x1D173, 0x1D17A⟩, ⟨0xE0001, 0xE0001⟩,
   ⟨0xE0020, 0xE007F⟩, ⟨0xF0000, 0xFFFFD⟩, ⟨0x100000, 0x10FFFD⟩]

/-- Whether the code point is shown as it is. -/
def isPrintable (u : Nat) : Bool :=
  !Range.anyHolds hiddenRanges u && !isUnassigned u

end Descent.Text
