import CharRom.Proofs.PlainText

/-!
# A sheet shows exactly the glyphs of its range

A sheet's text reads the ROM only through the glyphs of its range: two ROMs that hold the same
bytes from the range's first glyph to its last give the same text, whatever their lengths and
their other bytes. The text also loses none of those bytes when it has something to lose them
through: every pixel lands on a character of its own, so with a fill unlike the blank the pixels
can be read back, and a single glyph's hex-dump line spells its bytes out in two digits each.

Reading back is cancellation. Every piece of the text has a length fixed by the sheet's shape, so
equal texts split into equal pieces, down to the one character of a pixel (`eq_of_flatMap_eq`).
-/

namespace CharRom

theorem eq_of_flatMap_eq {α β : Type} {f g : α → List β} :
    ∀ {l : List α}, l.flatMap f = l.flatMap g → (∀ x ∈ l, (f x).length = (g x).length) →
      ∀ x ∈ l, f x = g x
  | [], _, _, x, hx => absurd hx List.not_mem_nil
  | y :: l, h, hlen, x, hx => by
    rw [List.flatMap_cons, List.flatMap_cons] at h
    obtain ⟨hhead, htail⟩ := List.append_inj h (hlen y List.mem_cons_self)
    rcases List.mem_cons.1 hx with rfl | hmem
    · exact hhead
    · exact eq_of_flatMap_eq htail (fun z hz => hlen z (List.mem_cons_of_mem y hz)) x hmem

namespace Row

theorem eq_of_isSet_eq {a b : Row} (h : ∀ c < 8, a.isSet c = b.isSet c) : a = b := by
  have hbits : a.bits.toNat = b.bits.toNat := by
    apply Nat.eq_of_testBit_eq
    intro i
    by_cases hi : i < 8
    · have hc := h (7 - i) (by omega)
      simpa [isSet, show 7 - i < 8 by omega, show 7 - (7 - i) = i by omega] using hc
    · have hwide : 2 ^ 8 ≤ 2 ^ i := Nat.pow_le_pow_right (by decide) (by omega)
      rw [Nat.testBit_lt_two_pow (Nat.lt_of_lt_of_le a.bits.toNat_lt hwide),
        Nat.testBit_lt_two_pow (Nat.lt_of_lt_of_le b.bits.toNat_lt hwide)]
  cases a
  cases b
  congr
  exact UInt8.toNat_inj.1 hbits

end Row

theorem Layout.cells_injective {l : Layout} (hne : l.fill ≠ l.blank) {a b : Row}
    (h : l.cells a = l.cells b) : a = b := by
  unfold Layout.cells Row.pixels at h
  rw [List.flatMap_map, List.flatMap_map] at h
  have hcell := eq_of_flatMap_eq h (fun _ _ => rfl)
  apply Row.eq_of_isSet_eq
  intro c hc
  have hchar := hcell c (List.mem_range.2 hc)
  simp only [List.cons.injEq, and_true] at hchar
  cases ha : a.isSet c <;> cases hb : b.isSet c <;> simp_all [Ne.symm hne]

namespace Piece

theorem renderAll_append (c : Bool) (l₁ l₂ : List Piece) :
    renderAll c (l₁ ++ l₂) = renderAll c l₁ ++ renderAll c l₂ :=
  List.flatMap_append

end Piece

namespace Rom

theorem getD_eq_of_byte?_eq {a b : Rom} {o : Nat} (h : a.byte? o = b.byte? o) :
    a.bytes.getD o 0 = b.bytes.getD o 0 := by
  simp only [byte?] at h
  simp [h]

theorem byte?_eq_of_getD_eq {a b : Rom} {o : Nat} (ha : o < a.size) (hb : o < b.size)
    (h : a.bytes.getD o 0 = b.bytes.getD o 0) : a.byte? o = b.byte? o := by
  have ha' : o < a.bytes.size := ha
  have hb' : o < b.bytes.size := hb
  simp only [byte?, Array.getElem?_eq_getElem ha', Array.getElem?_eq_getElem hb']
  simpa [ha', hb'] using h

theorem glyphAt_eq_of_byte?_eq {a b : Rom} {i : Nat}
    (h : ∀ r < 8, a.byte? (8 * i + r) = b.byte? (8 * i + r)) : a.glyphAt i = b.glyphAt i := by
  unfold glyphAt
  congr 2
  funext r
  exact getD_eq_of_byte?_eq (h r r.isLt)

end Rom

namespace Sheet

variable {sa sb : Sheet}

section SameRange

variable (hfirst : sa.first = sb.first) (hlast : sa.last = sb.last)
  (hlayout : sa.layout = sb.layout)
include hfirst hlast hlayout

theorem summary_eq_of_range : sa.summary = sb.summary := by
  unfold summary count
  rw [hfirst, hlast, hlayout]

theorem batches_eq_of_range : sa.batches = sb.batches := by
  unfold batches
  rw [hfirst, hlast, hlayout]

theorem pieces_eq_of_glyphAt_eq
    (hglyph : ∀ i, sa.first ≤ i → i ≤ sa.last → sa.rom.glyphAt i = sb.rom.glyphAt i) :
    sa.pieces = sb.pieces := by
  have hdump : sa.dumpLine = sb.dumpLine := by
    unfold dumpLine
    rw [hglyph sa.first (Nat.le_refl _) sa.first_le_last, hfirst, hlast]
  have hblock : ∀ b ∈ sa.batches, sa.block b = sb.block b := by
    intro b hb
    unfold block
    have hglyphs : b.indices.map sa.rom.glyphAt = b.indices.map sb.rom.glyphAt :=
      List.map_congr_left fun i hi =>
        hglyph i (sa.mem_range_of_mem_batch hb hi).1 (sa.mem_range_of_mem_batch hb hi).2
    rw [hglyphs, hlayout]
  unfold pieces
  rw [summary_eq_of_range hfirst hlast hlayout, hdump, List.flatMap_congr hblock,
    batches_eq_of_range hfirst hlast hlayout]

/-- Two sheets of one range and layout print the same text when their ROMs agree on the bytes of
the range's glyphs. -/
theorem text_eq_of_window
    (hwindow : ∀ o, 8 * sa.first ≤ o → o < 8 * sa.last + 8 → sa.rom.byte? o = sb.rom.byte? o) :
    sa.text = sb.text := by
  have hpieces : sa.pieces = sb.pieces := by
    apply pieces_eq_of_glyphAt_eq hfirst hlast hlayout
    intro i hi hil
    apply Rom.glyphAt_eq_of_byte?_eq
    intro r hr
    exact hwindow _ (by omega) (by omega)
  rw [text_eq, text_eq, hpieces, hlayout]

end SameRange

/-! ### Reading the bytes back

The text splits at fixed places. The count line and the headers are the same for both sheets; the
dump's bytes take three characters each, and a glyph's row in a batch takes seventeen, a space and
two per pixel. So equal texts give equal rows, and equal rows give equal bytes. -/

theorem renderAll_pieces (c : Bool) (s : Sheet) :
    Piece.renderAll c s.pieces = s.summary.render c ++ Piece.renderAll c s.dumpLine ++
      s.batches.flatMap fun b => Piece.renderAll c (s.block b) := by
  simp only [pieces, Piece.renderAll, List.cons_append, List.flatMap_cons, List.flatMap_append,
    List.flatMap_assoc, List.append_assoc]

theorem renderAll_rowLine (c : Bool) (l : Layout) (glyphs : List Glyph) (r : Fin 8) :
    Piece.renderAll c (rowLine l glyphs r) =
      (Piece.accent (Numeral.padded 2 (Numeral.decimal r))).render c ++
        (glyphs.flatMap fun g => ' ' :: l.cells (g.row r)) ++ ['\n'] := by
  simp [rowLine, Piece.renderAll, Piece.render]

theorem length_cellsLine (l : Layout) (glyphs : List Glyph) (r : Fin 8) :
    (glyphs.flatMap fun g => ' ' :: l.cells (g.row r)).length = 17 * glyphs.length := by
  induction glyphs with
  | nil => rfl
  | cons g gs ih =>
    rw [List.flatMap_cons, List.length_append, ih, List.length_cons, List.length_cons,
      Layout.length_cells]
    omega

theorem renderAll_block (c : Bool) (s : Sheet) (b : Batch) :
    Piece.renderAll c (s.block b) =
      Piece.renderAll c [.plain ['\n'], .accent ("charIdx = ".toList ++ Numeral.decimal b.first),
        .plain ['\n']] ++
      (List.finRange 8).flatMap fun r =>
        Piece.renderAll c (rowLine s.layout (b.indices.map s.rom.glyphAt) r) := by
  rw [block, Piece.renderAll_append, Piece.renderAll, Piece.renderAll, List.flatMap_assoc]
  rfl

theorem length_renderAll_rowLine (c : Bool) (l : Layout) (glyphs : List Glyph) (r : Fin 8) :
    (Piece.renderAll c (rowLine l glyphs r)).length =
      ((Piece.accent (Numeral.padded 2 (Numeral.decimal r))).render c).length +
        17 * glyphs.length + 1 := by
  rw [renderAll_rowLine, List.length_append, List.length_append, length_cellsLine]
  rfl

/-- A row's length depends only on how many glyphs its batch has, not on which. -/
theorem length_renderAll_rowLine_map (c : Bool) (l : Layout) (f g : Nat → Glyph) (is : List Nat)
    (r : Fin 8) :
    (Piece.renderAll c (rowLine l (is.map f) r)).length =
      (Piece.renderAll c (rowLine l (is.map g) r)).length := by
  rw [length_renderAll_rowLine, length_renderAll_rowLine, List.length_map, List.length_map]

theorem length_bytesLine (g : Glyph) :
    (g.bytes.flatMap fun b => ' ' :: Numeral.padded 2 (Numeral.hex b.toNat)).length = 24 := by
  have hbyte : ∀ b : UInt8, (' ' :: Numeral.padded 2 (Numeral.hex b.toNat)).length = 3 :=
    fun b => by rw [List.length_cons, Numeral.length_padded_hex_byte (UInt8.toNat_lt b)]
  simp [List.length_flatMap, hbyte, Glyph.bytes]

theorem renderAll_dumpLine_of_eq (c : Bool) (s : Sheet) (hsingle : s.first = s.last) :
    Piece.renderAll c s.dumpLine =
      (Piece.accent ('0' :: 'x' :: Numeral.padded 4 (Numeral.hex (8 * s.first)))).render c ++
        ((s.rom.glyphAt s.first).bytes.flatMap fun b =>
          ' ' :: Numeral.padded 2 (Numeral.hex b.toNat)) ++ ['\n'] := by
  rw [dumpLine, if_pos hsingle, Glyph.dump]
  simp [Piece.renderAll, Piece.render]

section SameRange

variable (hfirst : sa.first = sb.first) (hlast : sa.last = sb.last)
  (hlayout : sa.layout = sb.layout)
include hfirst hlast hlayout

omit hlayout in
theorem length_renderAll_dumpLine (c : Bool) :
    (Piece.renderAll c sa.dumpLine).length = (Piece.renderAll c sb.dumpLine).length := by
  by_cases hsingle : sa.first = sa.last
  · rw [renderAll_dumpLine_of_eq c sa hsingle, renderAll_dumpLine_of_eq c sb (by omega), hfirst,
      List.length_append, List.length_append, List.length_append, List.length_append,
      length_bytesLine, length_bytesLine]
  · have hsa : sa.dumpLine = [] := if_neg hsingle
    have hsb : sb.dumpLine = [] := if_neg (by omega)
    rw [hsa, hsb]

theorem renderAll_parts_eq {c : Bool}
    (h : Piece.renderAll c sa.pieces = Piece.renderAll c sb.pieces) :
    Piece.renderAll c sa.dumpLine = Piece.renderAll c sb.dumpLine ∧
      ∀ b ∈ sa.batches, Piece.renderAll c (sa.block b) = Piece.renderAll c (sb.block b) := by
  rw [renderAll_pieces, renderAll_pieces, summary_eq_of_range hfirst hlast hlayout,
    List.append_assoc, List.append_assoc, ← batches_eq_of_range hfirst hlast hlayout] at h
  obtain ⟨hdump, hblocks⟩ :=
    List.append_inj (List.append_cancel_left h) (length_renderAll_dumpLine hfirst hlast c)
  refine ⟨hdump, eq_of_flatMap_eq hblocks ?_⟩
  intro b _
  -- a block is as long as its header and its rows, and a row as long as its batch is wide
  rw [renderAll_block, renderAll_block, List.length_append, List.length_append, hlayout,
    List.length_flatMap, List.length_flatMap]
  congr 2
  exact List.map_congr_left fun r _ => length_renderAll_rowLine_map c _ _ _ _ r

end SameRange

theorem row_eq_of_renderAll_block_eq (hlayout : sa.layout = sb.layout)
    (hne : sa.layout.fill ≠ sa.layout.blank) {c : Bool} {b : Batch}
    (h : Piece.renderAll c (sa.block b) = Piece.renderAll c (sb.block b)) {i : Nat}
    (hi : i ∈ b.indices) (r : Fin 8) :
    (sa.rom.glyphAt i).row r = (sb.rom.glyphAt i).row r := by
  rw [renderAll_block, renderAll_block, hlayout] at h
  have hrows := eq_of_flatMap_eq (List.append_cancel_left h) fun r _ =>
    length_renderAll_rowLine_map c sb.layout sa.rom.glyphAt sb.rom.glyphAt b.indices r
  have hrow := hrows r (List.mem_finRange r)
  rw [renderAll_rowLine, renderAll_rowLine] at hrow
  have hcells := List.append_cancel_left (List.append_cancel_right hrow)
  rw [List.flatMap_map, List.flatMap_map] at hcells
  have hglyph := eq_of_flatMap_eq hcells (fun j _ => by
    rw [List.length_cons, List.length_cons, Layout.length_cells, Layout.length_cells]) i hi
  rw [hlayout] at hne
  exact Layout.cells_injective hne (List.cons.inj hglyph).2

theorem getD_eq_of_renderAll_dumpLine_eq (hfirst : sa.first = sb.first)
    (hsingle : sa.first = sa.last) (hlast : sa.last = sb.last) {c : Bool}
    (h : Piece.renderAll c sa.dumpLine = Piece.renderAll c sb.dumpLine) {r : Nat} (hr : r < 8) :
    sa.rom.bytes.getD (8 * sa.first + r) 0 = sb.rom.bytes.getD (8 * sa.first + r) 0 := by
  rw [renderAll_dumpLine_of_eq c sa hsingle, renderAll_dumpLine_of_eq c sb (by omega),
    hfirst] at h
  have hbytes := List.append_cancel_left (List.append_cancel_right h)
  rw [Rom.glyphAt_bytes, Rom.glyphAt_bytes, List.flatMap_map, List.flatMap_map] at hbytes
  have hbyte := eq_of_flatMap_eq hbytes (fun j _ => by
    rw [List.length_cons, List.length_cons, Numeral.length_padded_hex_byte (UInt8.toNat_lt _),
      Numeral.length_padded_hex_byte (UInt8.toNat_lt _)]) r (List.mem_range.2 hr)
  have hnat := Numeral.padded_hex_byte_injective (UInt8.toNat_lt _) (UInt8.toNat_lt _)
    (List.cons.inj hbyte).2
  rw [hfirst]
  exact UInt8.toNat_inj.1 hnat

theorem lt_size_of_le_last (s : Sheet) {o : Nat} (ho : o < 8 * s.last + 8) : o < s.rom.size := by
  have hlast := s.last_lt_glyphCount
  unfold Rom.glyphCount at hlast
  omega

/-- Two sheets of one range and layout whose texts agree show the same bytes, when the fill
differs from the blank or the range is a single glyph. -/
theorem window_eq_of_text_eq (hfirst : sa.first = sb.first) (hlast : sa.last = sb.last)
    (hlayout : sa.layout = sb.layout)
    (hshown : sa.layout.fill ≠ sa.layout.blank ∨ sa.first = sa.last) (htext : sa.text = sb.text) :
    ∀ o, 8 * sa.first ≤ o → o < 8 * sa.last + 8 → sa.rom.byte? o = sb.rom.byte? o := by
  have hrender : Piece.renderAll sa.layout.color sa.pieces =
      Piece.renderAll sa.layout.color sb.pieces := by
    rw [text_eq, text_eq, ← hlayout] at htext
    exact String.ofList_inj.1 htext
  obtain ⟨hdump, hblocks⟩ := renderAll_parts_eq hfirst hlast hlayout hrender
  intro o hlow hhigh
  apply Rom.byte?_eq_of_getD_eq (lt_size_of_le_last sa hhigh)
    (lt_size_of_le_last sb (by omega))
  rcases hshown with hne | hsingle
  · -- byte `o` is row `o % 8` of glyph `o / 8`, which some batch draws
    obtain ⟨b, hb, hi⟩ := Batch.exists_mem_cover sa.perLine_pos
      (show sa.first ≤ o / 8 by omega) (show o / 8 ≤ sa.last by omega)
    have hrow := row_eq_of_renderAll_block_eq hlayout hne (hblocks b hb) hi
      ⟨o % 8, Nat.mod_lt _ (by decide)⟩
    rw [Rom.glyphAt_row, Rom.glyphAt_row, Row.mk.injEq] at hrow
    rwa [show 8 * (o / 8) + o % 8 = o by omega] at hrow
  · have hbyte := getD_eq_of_renderAll_dumpLine_eq hfirst hsingle hlast hdump
      (show o - 8 * sa.first < 8 by omega)
    rwa [show 8 * sa.first + (o - 8 * sa.first) = o by omega] at hbyte

/-- **A sheet shows exactly the glyphs of its range.** Take two ROMs `a` and `b` of any lengths
on which one range and layout make sheets. If the ROMs hold the same bytes from the range's first
glyph to its last, the sheets print the same text. Conversely, when the fill differs from the
blank, or the range is one glyph, shown by its hex dump, equal texts mean equal bytes there. -/
theorem text_eq_iff_window (a b : Rom) (first last : Nat) (layout : Layout) (sa sb : Sheet)
    (ha : Sheet.new? a first last layout = .ok sa) (hb : Sheet.new? b first last layout = .ok sb) :
    ((∀ o, 8 * first ≤ o → o < 8 * last + 8 → a.byte? o = b.byte? o) → sa.text = sb.text) ∧
    (layout.fill ≠ layout.blank ∨ first = last → sa.text = sb.text →
      ∀ o, 8 * first ≤ o → o < 8 * last + 8 → a.byte? o = b.byte? o) := by
  obtain ⟨rfl, rfl, rfl, rfl⟩ := eq_of_new?_eq_ok ha
  obtain ⟨rfl, hfirst, hlast, hlayout⟩ := eq_of_new?_eq_ok hb
  exact ⟨text_eq_of_window hfirst.symm hlast.symm hlayout.symm,
    window_eq_of_text_eq hfirst.symm hlast.symm hlayout.symm⟩

theorem text_eq_iff_window_other_bytes :
    ∃ sa sb,
      Sheet.new? ⟨Array.replicate 16 0 ++ #[0x18, 0x3c, 0x66, 0x7e, 0x66, 0x66, 0x66, 0x00] ++
        Array.replicate 8 0⟩ 2 2 {} = .ok sa ∧
      Sheet.new? ⟨Array.replicate 16 0xa5 ++ #[0x18, 0x3c, 0x66, 0x7e, 0x66, 0x66, 0x66, 0x00] ++
        Array.replicate 13 0xa5⟩ 2 2 {} = .ok sb ∧
      sa.text = sb.text := by
  obtain ⟨sa, ha⟩ : ∃ sa, Sheet.new? ⟨Array.replicate 16 0 ++
      #[0x18, 0x3c, 0x66, 0x7e, 0x66, 0x66, 0x66, 0x00] ++ Array.replicate 8 0⟩ 2 2 {} = .ok sa :=
    ⟨_, new?_of_lt_glyphCount (by decide) (Nat.le_refl 2) (by decide)⟩
  obtain ⟨sb, hb⟩ : ∃ sb, Sheet.new? ⟨Array.replicate 16 0xa5 ++
      #[0x18, 0x3c, 0x66, 0x7e, 0x66, 0x66, 0x66, 0x00] ++ Array.replicate 13 0xa5⟩ 2 2 {} =
      .ok sb :=
    ⟨_, new?_of_lt_glyphCount (by decide) (Nat.le_refl 2) (by decide)⟩
  refine ⟨sa, sb, ha, hb, (text_eq_iff_window _ _ 2 2 {} sa sb ha hb).1 ?_⟩
  intro o hlow hhigh
  interval_cases o <;> decide

end Sheet

end CharRom
