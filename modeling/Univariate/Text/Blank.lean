import Univariate.Text.Ranges

/-!
# Blanks

The characters with the Unicode property White_Space, and the text that
remains when the blanks at both ends are taken off.
-/

namespace Univariate

namespace Text

/-- All blanks. -/
def blankRanges : List (Nat × Nat) :=
  [
   (9, 13), (32, 32), (133, 133), (160, 160), (5760, 5760), (8192, 8202),
   (8232, 8233), (8239, 8239), (8287, 8287), (12288, 12288)]

/-- The character has the property White_Space. -/
def isBlank (c : Char) : Bool := Ranges.covers blankRanges c.toNat

theorem ascending_blankRanges : Ranges.Ascending blankRanges := by decide

/-- A blank is a character of one of the ranges. -/
theorem isBlank_iff (c : Char) : isBlank c = true ↔ Ranges.Contains blankRanges c.toNat :=
  Ranges.covers_iff ascending_blankRanges c.toNat

/-- The text without the blanks at its two ends. -/
def trim (text : List Char) : List Char :=
  ((text.dropWhile isBlank).reverse.dropWhile isBlank).reverse

end Text

end Univariate
