import CharRom.Scan

/-!
# Glyphs and rows

A glyph is eight rows of eight pixels, and a row is one byte whose most significant bit is the
leftmost pixel. A glyph knows its index in the ROM, from which its byte offset follows, and it
prints as a hex-dump line: the offset, then its eight bytes.

Numbers are written as positional numerals, most significant digit first and with no leading
zeros, padded with zeros up to a least width: counts and row numbers in decimal, offsets and bytes
in uppercase hexadecimal. Printed text is a run of pieces, each plain or accented. Without colour
the pieces are simply joined; with colour each accented piece is set bold green on black by the
terminal's graphic rendition codes and the plain pieces stay as they are. Both renderings come from
the same pieces, so the coloured text is the plain one with exactly the accented pieces wrapped.
-/

namespace CharRom.Numeral

/-- The digit for a value below sixteen: `0` to `9`, then the capitals `A` to `F`. -/
def digitChar (d : Nat) : Char :=
  if d < 10 then Char.ofNat (48 + d) else Char.ofNat (55 + d)

/-- The numeral of `n` in base `base`, for a base of at least two; zero is `0`. -/
def digits (base n : Nat) : List Char :=
  if n < base ∨ base < 2 then [digitChar n]
  else digits base (n / base) ++ [digitChar (n % base)]
termination_by n
decreasing_by exact Nat.div_lt_self (by omega) (by omega)

/-- The decimal numeral of `n`. -/
def decimal (n : Nat) : List Char := digits 10 n

/-- The uppercase hexadecimal numeral of `n`. -/
def hex (n : Nat) : List Char := digits 16 n

/-- Zeros in front of `cs` until it is `width` characters long; a longer numeral is kept whole. -/
def padded (width : Nat) (cs : List Char) : List Char :=
  List.replicate (width - cs.length) '0' ++ cs

theorem length_padded (width : Nat) (cs : List Char) :
    (padded width cs).length = max width cs.length := by
  simp only [padded, List.length_append, List.length_replicate]
  omega

end CharRom.Numeral

namespace CharRom

/-- A run of text that is either shown as it is or set apart when colour is on. -/
inductive Piece where
  | plain (text : List Char)
  | accent (text : List Char)
  deriving DecidableEq, Repr

namespace Piece

/-- The code that starts bold green on black. -/
def accentOn : List Char := "\x1b[32;40;1m".toList

/-- The code that ends every style. -/
def accentOff : List Char := "\x1b[0m".toList

/-- The characters of a piece, style aside. -/
def text : Piece → List Char
  | plain t => t
  | accent t => t

/-- A piece as shown: accented text is wrapped in the style codes when colour is on. -/
def render (color : Bool) : Piece → List Char
  | plain t => t
  | accent t => if color then accentOn ++ t ++ accentOff else t

/-- Pieces shown one after another. -/
def renderAll (color : Bool) (pieces : List Piece) : List Char :=
  pieces.flatMap (render color)

@[simp]
theorem render_false (p : Piece) : p.render false = p.text := by
  cases p <;> rfl

end Piece

end CharRom

namespace CharRom

/-- One row of a glyph: eight pixels, the most significant bit leftmost. -/
structure Row where
  bits : UInt8
  deriving DecidableEq, Repr

namespace Row

/-- Column `column` is lit when bit `7 - column` of the byte is one; a row has no column past
the eighth. -/
def isSet (row : Row) (column : Nat) : Bool :=
  decide (column < 8) && row.bits.toNat.testBit (7 - column)

/-- The eight pixels, left to right. -/
def pixels (row : Row) : List Bool :=
  (List.range 8).map row.isSet

/-- A scan over the pixels, left to right. -/
def scan (row : Row) : Scan Bool :=
  Scan.ofList row.pixels

theorem length_pixels (row : Row) : row.pixels.length = 8 := by
  simp [pixels]

/-- The pixels of a row are the bits of its byte, the most significant first. -/
theorem pixels_eq_testBit (b : UInt8) :
    (Row.mk b).pixels = (List.range 8).map fun c => b.toNat.testBit (7 - c) := by
  apply List.map_congr_left
  intro c hc
  simp [isSet, List.mem_range.1 hc]

end Row

/-- Glyph `index` of a ROM: its eight row bytes, top to bottom. -/
structure Glyph where
  index : Nat
  rows : Vector UInt8 8
  deriving DecidableEq, Repr

namespace Glyph

/-- Where the glyph's bytes start in the ROM. -/
def offset (g : Glyph) : Nat := 8 * g.index

/-- The eight bytes, top row first. -/
def bytes (g : Glyph) : List UInt8 := g.rows.toList

/-- Row `r` of the glyph. -/
def row (g : Glyph) (r : Fin 8) : Row := ⟨g.rows.get r⟩

/-- Row `r`, if the glyph has one. -/
def row? (g : Glyph) (r : Nat) : Option Row :=
  if h : r < 8 then some (g.row ⟨r, h⟩) else none

/-- A scan over the rows, top to bottom. -/
def scan (g : Glyph) : Scan Row :=
  Scan.ofList (g.bytes.map Row.mk)

/-- The hex-dump line: `0x` and the offset in at least four uppercase hexadecimal digits, set
apart, then a space and two hexadecimal digits for each byte. -/
def dump (g : Glyph) : List Piece :=
  [.accent ('0' :: 'x' :: Numeral.padded 4 (Numeral.hex g.offset)),
    .plain (g.bytes.flatMap fun b => ' ' :: Numeral.padded 2 (Numeral.hex b.toNat))]

end Glyph

end CharRom
