import CharRom.Proofs.Drawing
import CharRom.Proofs.Numerals

/-!
# The plain text of a sheet

A sheet's text without colour, stated from the ROM's bytes alone: the count line; for a single
glyph its hex-dump line; then for every batch `k` a blank line, the header with the batch's first
index `first + k * p`, and eight pixel rows in which every glyph of the batch shows the bits of its
row byte from the most significant down. The numbers are written with `toString` and
`Nat.toDigits`, not with the sheet's own numerals.

`Sheet.text_eq_plainText` shows that a sheet prints exactly this. It takes the batches'
closed form, the numerals' agreement with the standard library and the pixel order of a row
together.
-/

namespace CharRom

namespace PlainText

/-- A number in at least `width` uppercase hexadecimal digits. -/
def hexPadded (width n : Nat) : String :=
  String.ofList (((Nat.toDigits 16 n).map Char.toUpper).leftpad width '0')

/-- The hex-dump line of glyph `i` of the bytes `d`, without its newline. -/
def dump (d : Array UInt8) (i : Nat) : String :=
  "0x" ++ hexPadded 4 (8 * i) ++
    String.join ((List.range 8).map fun j => " " ++ hexPadded 2 (d[8 * i + j]!).toNat)

/-- Pixel `c` of a row byte `b`: the fill when bit `7 - c` is set, the blank otherwise. -/
def cell (L : Layout) (b : UInt8) (c : Nat) : String :=
  String.singleton (if b.toNat.testBit (7 - c) then L.fill else L.blank) ++ " "

/-- Pixel row `r` of glyphs `lo ..= hi`. -/
def row (d : Array UInt8) (L : Layout) (lo hi r : Nat) : String :=
  String.ofList ((toString r).toList.leftpad 2 '0') ++
    String.join ((List.range' lo (hi + 1 - lo)).map fun i =>
      " " ++ String.join ((List.range 8).map (cell L d[8 * i + r]!))) ++ "\n"

/-- Batch `k` of glyphs `first ..= last`, with `L.perLine` glyphs to a batch. -/
def block (d : Array UInt8) (L : Layout) (first last k : Nat) : String :=
  let lo := first + k * L.perLine
  "\n" ++ "charIdx = " ++ toString lo ++ "\n" ++
    String.join ((List.range 8).map (row d L lo (min (lo + L.perLine - 1) last)))

/-- Glyphs `first ..= last` of the bytes `d`, drawn with `L` and without colour. -/
def sheet (d : Array UInt8) (first last : Nat) (L : Layout) : String :=
  let n := last - first + 1
  toString n ++ " chars in total, " ++ toString L.perLine ++ " per line.\n" ++
    (if first = last then dump d first ++ "\n" else "") ++
    String.join ((List.range ((n + L.perLine - 1) / L.perLine)).map (block d L first last))

end PlainText

namespace Rom

theorem glyphAt_bytes (rom : Rom) (i : Nat) :
    (rom.glyphAt i).bytes = (List.range 8).map fun r => rom.bytes.getD (8 * i + r) 0 := by
  rw [Glyph.bytes, glyphAt, Vector.toList_ofFn, List.ofFn_eq_map,
    ← List.map_coe_finRange_eq_range, List.map_map]
  rfl

theorem glyphAt_row (rom : Rom) (i : Nat) (r : Fin 8) :
    (rom.glyphAt i).row r = ⟨rom.bytes.getD (8 * i + r) 0⟩ := by
  show Row.mk (Vector.ofFn fun r : Fin 8 => rom.bytes.getD (8 * i + r.val) 0)[r.val] = _
  rw [Vector.getElem_ofFn]

theorem getD_eq_getElem! (rom : Rom) (o : Nat) : rom.bytes.getD o 0 = rom.bytes[o]! := rfl

@[simp]
theorem glyphAt_offset (rom : Rom) (i : Nat) : (rom.glyphAt i).offset = 8 * i := rfl

end Rom

theorem Layout.cells_eq (L : Layout) (row : Row) :
    L.cells row = (String.join ((List.range 8).map (PlainText.cell L row.bits))).toList := by
  rw [String.toList_join, List.flatMap_map, Layout.cells, Row.pixels, List.flatMap_map]
  apply List.flatMap_congr
  intro c hc
  have hc8 : c < 8 := List.mem_range.1 hc
  simp [PlainText.cell, Row.isSet, hc8, String.toList_append]

namespace Sheet

theorem renderAll_false (pieces : List Piece) :
    Piece.renderAll false pieces = pieces.flatMap Piece.text := by
  have hrender : Piece.render false = Piece.text := funext Piece.render_false
  rw [Piece.renderAll, hrender]

theorem summary_text (s : Sheet) :
    s.summary.text = (toString s.count ++ " chars in total, " ++ toString s.layout.perLine ++
      " per line.\n").toList := by
  simp only [summary, Piece.text, Numeral.decimal_eq_toString, String.toList_append,
    List.append_assoc]

theorem dump_text (rom : Rom) (i : Nat) :
    (rom.glyphAt i).dump.flatMap Piece.text = (PlainText.dump rom.bytes i).toList := by
  simp only [Glyph.dump, Rom.glyphAt_bytes, Rom.glyphAt_offset, Rom.getD_eq_getElem!,
    PlainText.dump, PlainText.hexPadded, Numeral.hex_eq_toDigits, Numeral.padded_eq_leftpad,
    String.toList_append, String.toList_join, String.toList_ofList, List.flatMap_map,
    List.flatMap_cons, List.flatMap_nil, Piece.text, List.append_nil]
  rfl

theorem rowLine_text (l : Layout) (rom : Rom) (b : Batch) (r : Fin 8) :
    (rowLine l (b.indices.map rom.glyphAt) r).flatMap Piece.text =
      (PlainText.row rom.bytes l b.first b.last r).toList := by
  simp only [rowLine, PlainText.row, Piece.text, List.flatMap_cons, List.flatMap_nil,
    List.append_nil, List.flatMap_map, Rom.glyphAt_row, Rom.getD_eq_getElem!, Layout.cells_eq,
    Numeral.padded_eq_leftpad, Numeral.decimal_eq_toString, String.toList_append,
    String.toList_join, String.toList_ofList, List.append_assoc]
  rfl

theorem block_text (s : Sheet) (k : Nat) :
    (s.block (Batch.nth s.layout.perLine s.first s.last k)).flatMap Piece.text =
      (PlainText.block s.rom.bytes s.layout s.first s.last k).toList := by
  simp only [block, PlainText.block, List.flatMap_append, List.flatMap_assoc, rowLine_text,
    Piece.text, List.flatMap_cons, List.flatMap_nil, List.append_nil, String.toList_append,
    String.toList_join, Numeral.decimal_eq_toString, List.append_assoc,
    ← List.map_coe_finRange_eq_range, List.flatMap_map]
  rfl

theorem pieces_text (s : Sheet) :
    s.pieces.flatMap Piece.text = s.summary.text ++ s.dumpLine.flatMap Piece.text ++
      s.batches.flatMap fun b => (s.block b).flatMap Piece.text := by
  rw [pieces, List.cons_append, List.flatMap_cons, List.flatMap_append, List.flatMap_assoc,
    List.append_assoc]

theorem dumpLine_text (s : Sheet) :
    s.dumpLine.flatMap Piece.text =
      (if s.first = s.last then PlainText.dump s.rom.bytes s.first ++ "\n" else "").toList := by
  unfold dumpLine
  split
  · rw [List.flatMap_append, dump_text, String.toList_append]
    rfl
  · rfl

theorem batches_text (s : Sheet) :
    s.batches.flatMap (fun b => (s.block b).flatMap Piece.text) =
      (String.join ((List.range ((s.count + s.layout.perLine - 1) / s.layout.perLine)).map
        (PlainText.block s.rom.bytes s.layout s.first s.last))).toList := by
  have hcount : Batch.countFor s.layout.perLine (s.last + 1 - s.first) =
      (s.count + s.layout.perLine - 1) / s.layout.perLine := by
    have hrange := s.first_le_last
    rw [Batch.countFor, count, show s.last - s.first + 1 = s.last + 1 - s.first by omega]
  rw [batches, Batch.cover_eq_map_nth s.perLine_pos, hcount, List.flatMap_map,
    String.toList_join, List.flatMap_map]
  exact List.flatMap_congr fun k _ => block_text s k

/-- Without colour, a sheet prints the text its bytes and layout describe. -/
theorem text_eq_sheet (s : Sheet) (hcolor : s.layout.color = false) :
    s.text = PlainText.sheet s.rom.bytes s.first s.last s.layout := by
  rw [text_eq, hcolor, renderAll_false,
    ← String.ofList_toList (s := PlainText.sheet s.rom.bytes s.first s.last s.layout)]
  congr 1
  rw [pieces_text, summary_text, dumpLine_text, batches_text, PlainText.sheet]
  simp only [String.toList_append, List.append_assoc]
  rfl

/-- **The plain text of a sheet.** For every range `first ..= last` of a ROM's glyphs and every
layout of at least one glyph a line without colour, the sheet is made, drawing it never stops, and
its text is the one `PlainText.sheet` states from the ROM's bytes. -/
theorem text_eq_plainText (rom : Rom) (first last : Nat) (layout : Layout)
    (hp : 0 < layout.perLine) (hcolor : layout.color = false) (hrange : first ≤ last)
    (hlast : last < rom.glyphCount) :
    ∃ s, Sheet.new? rom first last layout = .ok s ∧ s.write.isSome ∧
      s.text = PlainText.sheet rom.bytes first last layout := by
  refine ⟨_, new?_of_lt_glyphCount hp hrange hlast, ?_, ?_⟩
  · rw [write_eq_some]
    rfl
  · exact text_eq_sheet ⟨rom, first, last, layout, hp, hrange, hlast⟩ hcolor

example : (Sheet.new? ⟨#[0x80, 0, 0, 0, 0, 0, 0, 0xff]⟩ 0 0 (({} : Layout).withAscii true)).map
    Sheet.text = .ok ("1 chars in total, 4 per line.\n0x0000 80 00 00 00 00 00 00 FF\n\n" ++
      "charIdx = 0\n00 #               \n01                 \n02                 \n" ++
      "03                 \n04                 \n05                 \n06                 \n" ++
      "07 # # # # # # # # \n") := by
  decide +kernel

theorem text_eq_plainText_one_a_line :
    ∃ s, Sheet.new? ⟨Array.replicate 16 0x81⟩ 0 1 (({} : Layout).withPerLine 1) = .ok s ∧
      s.write.isSome ∧
      s.text = PlainText.sheet (Array.replicate 16 0x81) 0 1 (({} : Layout).withPerLine 1) :=
  text_eq_plainText ⟨Array.replicate 16 0x81⟩ 0 1 (({} : Layout).withPerLine 1) (by decide) rfl
    (by decide) (by decide)

end Sheet

end CharRom
