import CharRom.Rom

/-!
# Layouts, batches and sheets

A layout says how a sheet draws its glyphs: how many stand side by side on a line, the character
for a lit pixel and for a dark one, and whether headers and offsets are coloured. The default draws
four glyphs a line with a full block for lit pixels and a space for dark ones, without colour.

A sheet draws its range of glyphs a few at a time, side by side. The batches of width `p` cover
`first ..= last` from the left: they start at `first`, `first + p`, `first + 2p`, … as long as
the start is no later than `last`, and each ends `p - 1` after its start or at `last`, whichever
comes first. So every batch but the last holds exactly `p` glyphs.

A sheet is a checked range of a ROM's glyphs with a layout. `Sheet.new?` checks, in this order,
that the layout puts at least one glyph on a line, that the range is not inverted, and that its
last glyph lies inside the ROM; every glyph before it then does too.

The text of a sheet is a line with the number of glyphs and the glyphs per line; for a single
glyph, its hex-dump line; then for every batch a blank line, the header `charIdx = N` with the
batch's first index, and eight lines, one per pixel row: the row number in two digits, then for
each glyph of the batch a space and its row drawn as cells. The headers, the row numbers and the
dump's offset are the accented pieces, coloured when the layout asks for colour.
-/

namespace CharRom

/-- How a sheet draws its glyphs. -/
structure Layout where
  /-- Glyphs drawn side by side on one line. -/
  perLine : Nat := 4
  /-- The character for a lit pixel. -/
  fill : Char := '█'
  /-- The character for a dark pixel. -/
  blank : Char := ' '
  /-- Whether headers, row numbers and offsets are coloured. -/
  color : Bool := false
  deriving DecidableEq, Repr

namespace Layout

instance : Inhabited Layout := ⟨{}⟩

/-- The same layout with `n` glyphs a line. -/
def withPerLine (l : Layout) (n : Nat) : Layout := { l with perLine := n }

/-- The same layout drawing lit pixels with `#` when `ascii` holds, with a full block otherwise. -/
def withAscii (l : Layout) (ascii : Bool) : Layout :=
  { l with fill := if ascii then '#' else '█' }

/-- The same layout, coloured or not. -/
def withColor (l : Layout) (color : Bool) : Layout := { l with color := color }

/-- The same layout with another character for lit pixels. -/
def withFill (l : Layout) (c : Char) : Layout := { l with fill := c }

/-- The same layout with another character for dark pixels. -/
def withBlank (l : Layout) (c : Char) : Layout := { l with blank := c }

/-- A row drawn as text: each pixel is its character followed by a space. -/
def cells (l : Layout) (row : Row) : List Char :=
  row.pixels.flatMap fun lit => [if lit then l.fill else l.blank, ' ']

theorem length_cells (l : Layout) (row : Row) : (l.cells row).length = 16 := by
  simp only [cells, Row.pixels, List.length_flatMap, List.map_map]
  rfl

end Layout

end CharRom

namespace CharRom

/-- The glyph indices `first ..= last` drawn side by side on one block of lines. -/
structure Batch where
  first : Nat
  last : Nat
  deriving DecidableEq, Repr

namespace Batch

/-- The indices of the batch, in order. -/
def indices (b : Batch) : List Nat :=
  List.range' b.first (b.last + 1 - b.first)

/-- The batches of width `p` that cover `first ..= last`; none when `p` is zero. -/
def cover (p first last : Nat) : List Batch :=
  if 0 < p ∧ first ≤ last then ⟨first, min (first + p - 1) last⟩ :: cover p (first + p) last
  else []
termination_by last + 1 - first

theorem cover_eq_nil {p first last : Nat} (h : p = 0 ∨ last < first) :
    cover p first last = [] := by
  rw [cover, if_neg (by omega)]

theorem cover_eq_cons {p first last : Nat} (hp : 0 < p) (h : first ≤ last) :
    cover p first last = ⟨first, min (first + p - 1) last⟩ :: cover p (first + p) last := by
  rw [cover, if_pos ⟨hp, h⟩]

end Batch

end CharRom

namespace CharRom

/-- A range `first ..= last` of a ROM's glyphs, all present, with a layout of at least one glyph
a line. -/
structure Sheet where
  rom : Rom
  first : Nat
  last : Nat
  layout : Layout
  perLine_pos : 0 < layout.perLine
  first_le_last : first ≤ last
  last_lt_glyphCount : last < rom.glyphCount

namespace Sheet

/-- The sheet of glyphs `first ..= last` of `rom`, or the first check it fails. -/
def new? (rom : Rom) (first last : Nat) (layout : Layout) : Except Fault Sheet :=
  if hp : layout.perLine = 0 then .error .zeroPerLine
  else if hr : last < first then .error (.invertedRange first last)
  else
    match hg : rom.glyph? last with
    | .ok _ => .ok ⟨rom, first, last, layout, Nat.pos_of_ne_zero hp, Nat.le_of_not_lt hr,
        Rom.lt_glyphCount_of_glyph?_eq_ok hg⟩
    | .error e => .error e

/-- The number of glyphs on the sheet. -/
def count (s : Sheet) : Nat := s.last - s.first + 1

/-- The batches the sheet is drawn in. -/
def batches (s : Sheet) : List Batch :=
  Batch.cover s.layout.perLine s.first s.last

/-- The opening line: how many glyphs, and how many a line. -/
def summary (s : Sheet) : Piece :=
  .plain (Numeral.decimal s.count ++ " chars in total, ".toList ++
    Numeral.decimal s.layout.perLine ++ " per line.\n".toList)

/-- Row `r` of a batch's glyphs as one line: the row number, then each glyph's cells. -/
def rowLine (l : Layout) (glyphs : List Glyph) (r : Fin 8) : List Piece :=
  [.accent (Numeral.padded 2 (Numeral.decimal r.val)),
    .plain (glyphs.flatMap (fun g => ' ' :: l.cells (g.row r)) ++ ['\n'])]

/-- A batch drawn as a block: a blank line, its header, then its eight pixel rows. -/
def block (s : Sheet) (b : Batch) : List Piece :=
  let glyphs := b.indices.map s.rom.glyphAt
  [.plain ['\n'], .accent ("charIdx = ".toList ++ Numeral.decimal b.first), .plain ['\n']] ++
    (List.finRange 8).flatMap (rowLine s.layout glyphs)

/-- The hex-dump line of a single-glyph sheet, and nothing for a longer one. -/
def dumpLine (s : Sheet) : List Piece :=
  if s.first = s.last then (s.rom.glyphAt s.first).dump ++ [.plain ['\n']] else []

/-- The whole sheet as pieces of text. -/
def pieces (s : Sheet) : List Piece :=
  s.summary :: s.dumpLine ++ s.batches.flatMap s.block

/-! The drawing itself looks every glyph up again and reads its rows by number, and either lookup
failing stops it with the formatter's error, which carries no reason. The range was checked when the
sheet was made, so neither does: `write` is `pieces` on every sheet. -/

/-- Glyph `index` as the drawing looks it up. -/
def glyph? (s : Sheet) (index : Nat) : Option Glyph :=
  (s.rom.glyph? index).toOption

/-- Row `r` of a batch's glyphs as the drawing writes it: a glyph without row `r` stops it. -/
def writeRow (l : Layout) (glyphs : List Glyph) (r : Nat) : Option (List Piece) := do
  let cells ← glyphs.mapM fun g => (g.row? r).map fun row => ' ' :: l.cells row
  pure [.accent (Numeral.padded 2 (Numeral.decimal r)), .plain (cells.flatten ++ ['\n'])]

/-- A batch as the drawing writes it: the header, then the batch's glyphs looked up in order and
its eight pixel rows. -/
def writeBlock (s : Sheet) (b : Batch) : Option (List Piece) := do
  let glyphs ← b.indices.mapM s.glyph?
  let rows ← (List.range 8).mapM (writeRow s.layout glyphs)
  pure ([.plain ['\n'], .accent ("charIdx = ".toList ++ Numeral.decimal b.first), .plain ['\n']] ++
    rows.flatten)

/-- The sheet as the drawing writes it: the opening line, the hex-dump line of a single glyph,
then every batch. -/
def write (s : Sheet) : Option (List Piece) := do
  let dump ← if s.first = s.last then (s.glyph? s.first).map fun g => g.dump ++ [.plain ['\n']]
    else pure []
  let blocks ← s.batches.mapM s.writeBlock
  pure (s.summary :: dump ++ blocks.flatten)

/-- The text of the sheet, coloured as its layout says; a drawing that stopped would leave none. -/
def text (s : Sheet) : String :=
  String.ofList (Piece.renderAll s.layout.color (s.write.getD []))

end Sheet

end CharRom
