import CharRom.Proofs.Batches
import CharRom.Proofs.RangeChecks
import Mathlib.Data.List.FinRange

/-!
# Drawing a sheet never stops

The drawing looks every glyph of a batch up again and reads its rows by number, and either lookup
failing would stop it with the formatter's error. On a sheet neither fails: every batch lies inside
the sheet's range, which was checked when the sheet was made, and a glyph has all eight rows. So
`write` gives exactly the pieces `pieces` describes, and a sheet's text is their rendering.
-/

namespace CharRom

theorem mapM_eq_some_map {α β : Type} {f : α → Option β} {g : α → β} :
    ∀ {l : List α}, (∀ x ∈ l, f x = some (g x)) → l.mapM f = some (l.map g)
  | [], _ => rfl
  | x :: xs, h => by
    rw [List.mapM_cons, h x List.mem_cons_self,
      mapM_eq_some_map fun y hy => h y (List.mem_cons_of_mem x hy)]
    rfl

namespace Sheet

variable (s : Sheet)

theorem glyph?_of_le_last {i : Nat} (h : i ≤ s.last) : s.glyph? i = some (s.rom.glyphAt i) := by
  have hlast := s.last_lt_glyphCount
  rw [glyph?, Rom.glyph?_eq_ok (by omega)]
  rfl

theorem mem_range_of_mem_batch {b : Batch} (hb : b ∈ s.batches) {i : Nat} (hi : i ∈ b.indices) :
    s.first ≤ i ∧ i ≤ s.last :=
  Batch.mem_range_of_mem_indices s.perLine_pos hb hi

theorem writeRow_eq (l : Layout) (glyphs : List Glyph) (r : Fin 8) :
    writeRow l glyphs r = some (rowLine l glyphs r) := by
  have hcells : ∀ g ∈ glyphs,
      ((g.row? r).map fun row => ' ' :: l.cells row) = some (' ' :: l.cells (g.row r)) := by
    intro g _
    simp [Glyph.row?]
  rw [writeRow, mapM_eq_some_map hcells]
  simp [rowLine, List.flatMap_def]

theorem writeBlock_eq {b : Batch} (hb : b ∈ s.batches) : s.writeBlock b = some (s.block b) := by
  have hglyphs : b.indices.mapM s.glyph? = some (b.indices.map s.rom.glyphAt) :=
    mapM_eq_some_map fun i hi => s.glyph?_of_le_last (s.mem_range_of_mem_batch hb hi).2
  have hrows : ∀ glyphs, (List.range 8).mapM (writeRow s.layout glyphs) =
      some ((List.finRange 8).map (rowLine s.layout glyphs)) := by
    intro glyphs
    rw [← List.map_coe_finRange_eq_range, List.mapM_map]
    exact mapM_eq_some_map fun r _ => writeRow_eq s.layout glyphs r
  rw [writeBlock, hglyphs]
  simp [hrows, block, List.flatMap_def]

/-- **Drawing a sheet never stops.** Neither the glyph lookup nor the row lookup fails. -/
theorem write_eq_some : s.write = some s.pieces := by
  have hblocks : s.batches.mapM s.writeBlock = some (s.batches.map s.block) :=
    mapM_eq_some_map fun b hb => s.writeBlock_eq hb
  unfold write
  split
  · rename_i hsingle
    rw [s.glyph?_of_le_last s.first_le_last]
    simp [hblocks, pieces, dumpLine, hsingle, List.flatMap_def]
  · rename_i hlong
    simp [hblocks, pieces, dumpLine, hlong, List.flatMap_def]

theorem text_eq : s.text = String.ofList (Piece.renderAll s.layout.color s.pieces) := by
  rw [text, write_eq_some]
  rfl

end Sheet

end CharRom
