import Ilang.Text.Range
/-!
# Blanks

The characters that separate tokens: those with the Unicode property White_Space, as of Unicode
17.0.
-/
namespace Ilang.Text

/-- White space code points above ASCII. -/
def blankRanges : List (Nat × Nat) :=
  [(0x85, 0x85), (0xa0, 0xa0), (0x1680, 0x1680), (0x2000, 0x200a), (0x2028, 0x2029),
  (0x202f, 0x202f), (0x205f, 0x205f), (0x3000, 0x3000)]

/-- Whether a character is white space. -/
def isBlank (c : Char) : Bool :=
  c = ' ' || (0x09 ≤ c.toNat && c.toNat ≤ 0x0d) ||
    (0x80 ≤ c.toNat && inRanges blankRanges c.toNat)

end Ilang.Text
