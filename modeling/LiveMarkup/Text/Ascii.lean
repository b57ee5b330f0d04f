/-!
# ASCII letters

Tag names are compared without regard to the case of ASCII letters, and markup inside a tag is
read byte by byte. This file holds the byte classes and the case-insensitive comparison. Letters
outside ASCII are never folded: `É` and `é` are different tags.
-/

namespace LiveMarkup

/-- The text with every ASCII letter in lower case. -/
def lowerAscii (s : String) : List Char := s.toList.map Char.toLower

/-- Whether two texts are equal up to the case of ASCII letters. -/
def equalIgnoringCase (s t : String) : Bool := lowerAscii s == lowerAscii t

theorem equalIgnoringCase_iff {s t : String} :
    equalIgnoringCase s t = true ↔ lowerAscii s = lowerAscii t := by
  simp [equalIgnoringCase]

@[simp] theorem equalIgnoringCase_self (s : String) : equalIgnoringCase s s = true := by
  simp [equalIgnoringCase]

theorem equalIgnoringCase_comm (s t : String) : equalIgnoringCase s t = equalIgnoringCase t s := by
  rw [Bool.eq_iff_iff, equalIgnoringCase_iff, equalIgnoringCase_iff, eq_comm]

namespace Byte

/-- An ASCII digit or letter. -/
def isAlphanumeric (b : UInt8) : Bool :=
  (0x30 ≤ b && b ≤ 0x39) || (0x41 ≤ b && b ≤ 0x5A) || (0x61 ≤ b && b ≤ 0x7A)

/-- A byte of a tag name: a digit, a letter, `_` or `-`. -/
def isTagByte (b : UInt8) : Bool := isAlphanumeric b || b == 0x5F || b == 0x2D

/-- A byte of an attribute name: a tag byte, `:`, `@` or `.`. -/
def isNameByte (b : UInt8) : Bool := isTagByte b || b == 0x3A || b == 0x40 || b == 0x2E

/-- A byte that separates the parts of a tag: the white space among the first 256 characters.
The bytes 0x85 and 0xA0 separate wherever they stand, also within a longer character. -/
def isSeparator (b : UInt8) : Bool := (9 ≤ b && b ≤ 13) || b == 0x20 || b == 0x85 || b == 0xA0

/-- An ASCII capital in lower case, any other byte as it is. -/
def lower (b : UInt8) : UInt8 := if 0x41 ≤ b && b ≤ 0x5A then b + 32 else b

end Byte

end LiveMarkup
