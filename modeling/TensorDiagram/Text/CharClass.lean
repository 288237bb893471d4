/-!
# Classes of characters

Membership of a character in a class is membership of its code point in a table of closed ranges.
Below code point 1536 the table of word characters is complete; above it follows the blocks of the
scripts.
-/

namespace TensorDiagram.Text

/-- A closed range of code points. -/
abbrev CodeRange := Nat × Nat

/-- Whether some range of the table holds the character. -/
def inRanges (table : List CodeRange) (c : Char) : Bool :=
  table.any fun range => range.1 ≤ c.toNat && c.toNat ≤ range.2

/-- The characters that separate words. -/
def blankRanges : List CodeRange :=
  [(9, 13), (28, 32), (133, 133), (160, 160), (0x1680, 0x1680), (0x2000, 0x200A),
   (0x2028, 0x2029), (0x202F, 0x202F), (0x205F, 0x205F), (0x3000, 0x3000)]

/-- Whether the character separates words. -/
def isBlank (c : Char) : Bool :=
  inRanges blankRanges c

/-- Controls, invisible format characters, separators other than the blank, and private use. -/
def unprintableRanges : List CodeRange :=
  [(0, 0x1F), (0x7F, 0xA0), (0xAD, 0xAD), (0x600, 0x605), (0x61C, 0x61C), (0x6DD, 0x6DD),
   (0x70F, 0x70F), (0x890, 0x891), (0x8E2, 0x8E2), (0x1680, 0x1680), (0x180E, 0x180E),
   (0x2000, 0x200F), (0x2028, 0x202F), (0x205F, 0x206F), (0x3000, 0x3000), (0xD800, 0xF8FF),
   (0xFEFF, 0xFEFF), (0xFFF9, 0xFFFB), (0x110BD, 0x110BD), (0x110CD, 0x110CD),
   (0x13430, 0x13438), (0x1BCA0, 0x1BCA3), (0x1D173, 0x1D17A), (0xE0001, 0x10FFFF)]

/-- Whether the character can stand in a quoted text as it is. -/
def isPrintable (c : Char) : Bool :=
  !inRanges unprintableRanges c

/-- Decimal digits. -/
def digitRanges : List CodeRange :=
  [(0x30, 0x39), (0x660, 0x669), (0x6F0, 0x6F9), (0x7C0, 0x7C9), (0x966, 0x96F), (0x9E6, 0x9EF),
   (0xA66, 0xA6F), (0xAE6, 0xAEF), (0xB66, 0xB6F), (0xBE6, 0xBEF), (0xC66, 0xC6F),
   (0xCE6, 0xCEF), (0xD66, 0xD6F), (0xE50, 0xE59), (0xED0, 0xED9), (0xF20, 0xF29),
   (0x1040, 0x1049), (0x17E0, 0x17E9), (0x1810, 0x1819), (0xFF10, 0xFF19), (0x1D7CE, 0x1D7FF)]

/-- Whether the character is a decimal digit. -/
def isDigit (c : Char) : Bool :=
  inRanges digitRanges c

/-- Letters, digits, other numerals and the underscore. -/
def wordRanges : List CodeRange :=
  [(0x30, 0x39), (0x41, 0x5A), (0x5F, 0x5F), (0x61, 0x7A), (0xAA, 0xAA), (0xB2, 0xB3),
   (0xB5, 0xB5), (0xB9, 0xBA), (0xBC, 0xBE), (0xC0, 0xD6), (0xD8, 0xF6), (0xF8, 0x2C1),
   (0x2C6, 0x2D1), (0x2E0, 0x2E4), (0x2EC, 0x2EC), (0x2EE, 0x2EE), (0x370, 0x374),
   (0x376, 0x377), (0x37A, 0x37D), (0x37F, 0x37F), (0x386, 0x386), (0x388, 0x38A),
   (0x38C, 0x38C), (0x38E, 0x3A1), (0x3A3, 0x3F5), (0x3F7, 0x481), (0x48A, 0x52F),
   (0x531, 0x556), (0x559, 0x559), (0x560, 0x588), (0x5D0, 0x5EA), (0x5EF, 0x5F2),
   (0x620, 0x64A), (0x660, 0x669), (0x66E, 0x66F), (0x671, 0x6D3), (0x6D5, 0x6D5),
   (0x6E5, 0x6E6), (0x6EE, 0x6FC), (0x6FF, 0x6FF), (0x710, 0x710), (0x712, 0x72F),
   (0x74D, 0x7A5), (0x7C0, 0x7EA), (0x800, 0x815), (0x840, 0x858), (0x860, 0x8C9),
   (0x904, 0x939), (0x958, 0x961), (0x966, 0x96F), (0x971, 0x980), (0x985, 0x9B9),
   (0x9DC, 0x9E1), (0x9E6, 0x9F1), (0xA05, 0xA39), (0xA59, 0xA5E), (0xA66, 0xA6F),
   (0xA72, 0xA74), (0xA85, 0xAB9), (0xAE6, 0xAEF), (0xB05, 0xB39), (0xB66, 0xB6F),
   (0xB83, 0xBB9), (0xBE6, 0xBF2), (0xC05, 0xC39), (0xC66, 0xC6F), (0xC85, 0xCB9),
   (0xCE6, 0xCEF), (0xD04, 0xD3A), (0xD66, 0xD78), (0xD7A, 0xDC6), (0xE01, 0xE30),
   (0xE40, 0xE46), (0xE50, 0xE59), (0xE81, 0xEB0), (0xEC0, 0xEC6), (0xED0, 0xED9),
   (0xF20, 0xF33), (0xF40, 0xF6C), (0x1000, 0x102A), (0x1040, 0x1049), (0x1050, 0x1055),
   (0x10A0, 0x10FA), (0x10FC, 0x135A), (0x1369, 0x137C), (0x1380, 0x138F), (0x13A0, 0x13FD),
   (0x1401, 0x166C), (0x166F, 0x167F), (0x1681, 0x169A), (0x16A0, 0x16EA), (0x16EE, 0x16F8),
   (0x1700, 0x1711), (0x1780, 0x17B3), (0x17E0, 0x17E9), (0x1810, 0x1878), (0x1D00, 0x1DBF),
   (0x1E00, 0x1FBC), (0x1FC2, 0x1FCC), (0x1FD0, 0x1FDB), (0x1FE0, 0x1FEC), (0x1FF2, 0x1FFC),
   (0x2070, 0x2071), (0x2074, 0x2079), (0x207F, 0x2089), (0x2090, 0x209C), (0x2102, 0x2102),
   (0x2107, 0x2107), (0x210A, 0x2113), (0x2115, 0x2115), (0x2119, 0x211D), (0x2124, 0x2124),
   (0x2126, 0x2126), (0x2128, 0x2128), (0x212A, 0x212D), (0x212F, 0x2139), (0x213C, 0x213F),
   (0x2145, 0x2149), (0x214E, 0x214E), (0x2150, 0x2189), (0x2460, 0x249B), (0x24EA, 0x24FF),
   (0x2776, 0x2793), (0x2C00, 0x2CE4), (0x2CEB, 0x2CEE), (0x2D00, 0x2D6F), (0x2D80, 0x2DDE),
   (0x3005, 0x3007), (0x3021, 0x3029), (0x3031, 0x3035), (0x3038, 0x303C), (0x3041, 0x3096),
   (0x309D, 0x309F), (0x30A1, 0x30FA), (0x30FC, 0x318E), (0x3192, 0x3195), (0x31A0, 0x31BF),
   (0x31F0, 0x31FF), (0x3400, 0x4DBF), (0x4E00, 0xA48C), (0xA4D0, 0xA4FD), (0xA500, 0xA60C),
   (0xA610, 0xA66E), (0xA67F, 0xA69D), (0xA6A0, 0xA6EF), (0xA717, 0xA71F), (0xA722, 0xA788),
   (0xA78B, 0xA801), (0xAC00, 0xD7A3), (0xF900, 0xFAD9), (0xFB00, 0xFB06), (0xFB13, 0xFB17),
   (0xFB1D, 0xFBB1), (0xFBD3, 0xFD3D), (0xFD50, 0xFDFB), (0xFE70, 0xFEFC), (0xFF10, 0xFF19),
   (0xFF21, 0xFF3A), (0xFF41, 0xFF5A), (0xFF66, 0xFFDC), (0x10000, 0x100FA),
   (0x10280, 0x1056F), (0x10600, 0x10785), (0x1D400, 0x1D6C0), (0x1D6C2, 0x1D6DA),
   (0x1D6DC, 0x1D6FA), (0x1D6FC, 0x1D714), (0x1D716, 0x1D734), (0x1D736, 0x1D74E),
   (0x1D750, 0x1D76E), (0x1D770, 0x1D788), (0x1D78A, 0x1D7A8), (0x1D7AA, 0x1D7C2),
   (0x1D7C4, 0x1D7CB), (0x1D7CE, 0x1D7FF), (0x20000, 0x3134A)]

/-- Whether the character is part of a word. -/
def isWordChar (c : Char) : Bool :=
  inRanges wordRanges c

/-- Whether the character is part of a word and no decimal digit. -/
def isLetter (c : Char) : Bool :=
  isWordChar c && !isDigit c

end TensorDiagram.Text
