import CharRom.Proofs.Window

/-!
# Colour wraps exactly the accents

With colour on, a sheet prints its plain text with three kinds of places set bold green on black:
the hex dump's offset `0x…`, the header `charIdx = N` of every batch (the blank line before it and
the line break after it stay outside), and every two-digit row number. `StyledText.sheet` states
the text from the ROM's bytes with a `mark` applied at exactly those places, and nowhere else; a
sheet prints it with the terminal's wrapping as `mark` when its layout asks for colour, and with
the identity otherwise (`Sheet.text_eq_styled`).

Deleting every graphic-rendition sequence `ESC [ params m` from the coloured text then gives the
plain text back, whatever the fill and blank characters are. A pixel's character is always
followed by a space, so even an escape character drawn as a pixel starts no sequence; every other
character of the plain text is a digit, a letter or fixed punctuation. `Sgr.Inert` names the texts
that deletion passes over unchanged, and the sheet's pieces are all of that kind.
-/

namespace CharRom

namespace StyledText

/-- The terminal's codes that set `t` bold green on black and end the style after it. -/
def sgr (t : String) : String := "\x1b[32;40;1m" ++ t ++ "\x1b[0m"

/-- An accented text: wrapped when colour is on, as it is otherwise. -/
def accent (color : Bool) : String → String := if color then sgr else id

section Template

variable (mark : String → String)

/-- The hex-dump line of glyph `i` of the bytes `d`, without its newline, its offset marked. -/
def dump (d : Array UInt8) (i : Nat) : String :=
  mark ("0x" ++ PlainText.hexPadded 4 (8 * i)) ++
    String.join ((List.range 8).map fun j => " " ++ PlainText.hexPadded 2 (d[8 * i + j]!).toNat)

/-- Pixel row `r` of glyphs `lo ..= hi`, its row number marked. -/
def row (d : Array UInt8) (L : Layout) (lo hi r : Nat) : String :=
  mark (String.ofList ((toString r).toList.leftpad 2 '0')) ++
    String.join ((List.range' lo (hi + 1 - lo)).map fun i =>
      " " ++ String.join ((List.range 8).map (PlainText.cell L d[8 * i + r]!))) ++ "\n"

/-- Batch `k` of glyphs `first ..= last`, its header marked. -/
def block (d : Array UInt8) (L : Layout) (first last k : Nat) : String :=
  let lo := first + k * L.perLine
  "\n" ++ mark ("charIdx = " ++ toString lo) ++ "\n" ++
    String.join ((List.range 8).map (row mark d L lo (min (lo + L.perLine - 1) last)))

/-- Glyphs `first ..= last` of the bytes `d` drawn with `L`, with the offset, the headers and the
row numbers marked. -/
def sheet (d : Array UInt8) (first last : Nat) (L : Layout) : String :=
  let n := last - first + 1
  toString n ++ " chars in total, " ++ toString L.perLine ++ " per line.\n" ++
    (if first = last then dump mark d first ++ "\n" else "") ++
    String.join ((List.range ((n + L.perLine - 1) / L.perLine)).map (block mark d L first last))

/-- The template does not read whether the layout is coloured. -/
@[simp]
theorem sheet_withColor (d : Array UInt8) (first last : Nat) (L : Layout) (c : Bool) :
    sheet mark d first last (L.withColor c) = sheet mark d first last L := rfl

end Template

@[simp]
theorem accent_true : accent true = sgr := rfl

@[simp]
theorem accent_false : accent false = id := rfl

end StyledText

/-! ### Deleting graphic-rendition sequences -/

namespace Sgr

/-- The characters that may stand between `ESC [` and the final `m` of a sequence. -/
def isParam (c : Char) : Bool := c.isDigit || c == ';'

/-- What follows an escape character's sequence, when one starts right after it: `[`, the
parameters, then the final `m`. -/
def afterSequence? (cs : List Char) : Option (List Char) :=
  match cs with
  | '[' :: body =>
    match body.dropWhile isParam with
    | 'm' :: rest => some rest
    | _ => none
  | _ => none

theorem length_lt_of_afterSequence? {cs rest : List Char} (h : afterSequence? cs = some rest) :
    rest.length < cs.length := by
  unfold afterSequence? at h
  split at h
  · rename_i body
    split at h
    · rename_i rest' hdrop
      cases h
      have hsuffix := (List.dropWhile_suffix isParam (l := body)).length_le
      rw [hdrop] at hsuffix
      simp only [List.length_cons] at hsuffix ⊢
      omega
    · cases h
  · cases h

/-- A text with every sequence `ESC [ params m` deleted, read from the left. -/
def strip : List Char → List Char
  | [] => []
  | c :: cs =>
    if c = '\x1b' then
      match _h : afterSequence? cs with
      | some rest => strip rest
      | none => c :: strip cs
    else c :: strip cs
termination_by cs => cs.length
decreasing_by
  · have := length_lt_of_afterSequence? _h
    simp only [List.length_cons]
    omega
  · simp
  · simp

@[simp]
theorem strip_nil : strip [] = [] := by
  rw [strip]

theorem strip_cons_of_ne {c : Char} (hc : c ≠ '\x1b') (cs : List Char) :
    strip (c :: cs) = c :: strip cs := by
  rw [strip, if_neg hc]

theorem strip_of_afterSequence? {cs rest : List Char} (h : afterSequence? cs = some rest) :
    strip ('\x1b' :: cs) = strip rest := by
  rw [strip, if_pos rfl]
  split
  · next rest' h' =>
    rw [h] at h'
    cases h'
    rfl
  · next h' =>
    rw [h] at h'
    cases h'

theorem strip_esc_of_afterSequence?_eq_none {cs : List Char} (h : afterSequence? cs = none) :
    strip ('\x1b' :: cs) = '\x1b' :: strip cs := by
  rw [strip, if_pos rfl]
  split
  · next rest' h' =>
    rw [h] at h'
    cases h'
  · rfl

theorem afterSequence?_of_ne {c : Char} (hc : c ≠ '[') (cs : List Char) :
    afterSequence? (c :: cs) = none := by
  unfold afterSequence?
  split
  · next body heq =>
    cases heq
    exact absurd rfl hc
  · rfl

/-- The code that starts the accent style is one whole sequence. -/
theorem strip_accentOn (rest : List Char) : strip (Piece.accentOn ++ rest) = strip rest := by
  have hcode : Piece.accentOn = ['\x1b', '[', '3', '2', ';', '4', '0', ';', '1', 'm'] := by decide
  rw [hcode]
  exact strip_of_afterSequence? rfl

/-- The code that ends the style is one whole sequence. -/
theorem strip_accentOff (rest : List Char) : strip (Piece.accentOff ++ rest) = strip rest := by
  have hcode : Piece.accentOff = ['\x1b', '[', '0', 'm'] := by decide
  rw [hcode]
  exact strip_of_afterSequence? rfl

/-- A text that deleting sequences passes over unchanged, whatever follows it. -/
def Inert (t : List Char) : Prop := ∀ rest, strip (t ++ rest) = t ++ strip rest

theorem inert_nil : Inert [] := fun _ => rfl

theorem Inert.append {t u : List Char} (ht : Inert t) (hu : Inert u) : Inert (t ++ u) := by
  intro rest
  rw [List.append_assoc, ht, hu, List.append_assoc]

theorem Inert.cons {c : Char} {t : List Char} (hc : c ≠ '\x1b') (ht : Inert t) :
    Inert (c :: t) := by
  intro rest
  rw [List.cons_append, strip_cons_of_ne hc, ht, List.cons_append]

theorem inert_of_all : ∀ {t : List Char}, t.all (· != '\x1b') = true → Inert t
  | [], _ => inert_nil
  | c :: _, h => by
    rw [List.all_cons, Bool.and_eq_true, bne_iff_ne] at h
    exact (inert_of_all h.2).cons h.1

/-- A pixel's character is followed by a space, so it starts no sequence, even when it is the
escape character. -/
theorem inert_cell (c : Char) : Inert [c, ' '] := by
  by_cases hc : c = '\x1b'
  · intro rest
    subst hc
    show strip ('\x1b' :: ' ' :: rest) = '\x1b' :: ' ' :: strip rest
    rw [strip_esc_of_afterSequence?_eq_none (afterSequence?_of_ne (by decide) rest),
      strip_cons_of_ne (by decide)]
  · exact (inert_of_all (by decide) : Inert [' ']).cons hc

theorem inert_flatMap {α : Type} {f : α → List Char} :
    ∀ {l : List α}, (∀ x ∈ l, Inert (f x)) → Inert (l.flatMap f)
  | [], _ => inert_nil
  | x :: l, h => by
    rw [List.flatMap_cons]
    exact (h x List.mem_cons_self).append (inert_flatMap fun y hy => h y (List.mem_cons_of_mem x hy))

/-- Deleting the sequences from pieces rendered in colour leaves them rendered without, when every
piece's own text is inert. -/
theorem strip_renderAll {ps : List Piece} (h : ∀ p ∈ ps, Inert p.text) (rest : List Char) :
    strip (Piece.renderAll true ps ++ rest) = Piece.renderAll false ps ++ strip rest := by
  induction ps with
  | nil => rfl
  | cons p ps ih =>
    have hps := ih fun q hq => h q (List.mem_cons_of_mem p hq)
    have hp := h p List.mem_cons_self
    simp only [Piece.renderAll, List.flatMap_cons, List.append_assoc] at hps ⊢
    cases p with
    | plain t =>
      have ht : Inert t := hp
      rw [Piece.render, Piece.render, ht, hps]
    | accent t =>
      have ht : Inert t := hp
      -- the two codes are deleted whole and the accented text passes through
      rw [Piece.render, Piece.render_false, if_pos rfl, List.append_assoc, List.append_assoc,
        strip_accentOn, ht, strip_accentOff, hps]
      rfl

end Sgr

namespace Numeral

theorem inert_digits {base : Nat} (hbase : 2 ≤ base) (hbase16 : base ≤ 16) (n : Nat) :
    Sgr.Inert (digits base n) := by
  apply Sgr.inert_of_all
  rw [List.all_eq_true]
  intro c hc
  obtain ⟨d, hd, rfl⟩ := mem_digits hbase hc
  have hd16 : d < 16 := by omega
  interval_cases d <;> decide

theorem inert_decimal (n : Nat) : Sgr.Inert (decimal n) := inert_digits (by decide) (by decide) n

theorem inert_hex (n : Nat) : Sgr.Inert (hex n) := inert_digits (by decide) (by decide) n

theorem inert_padded {cs : List Char} (width : Nat) (h : Sgr.Inert cs) :
    Sgr.Inert (padded width cs) :=
  (Sgr.inert_of_all (List.all_eq_true.2 fun c hc => by
    rw [List.eq_of_mem_replicate hc]
    decide)).append h

end Numeral

/-! ### The sheet prints the template -/

namespace Piece

theorem render_accent (c : Bool) (t : String) :
    (Piece.accent t.toList).render c = (StyledText.accent c t).toList := by
  cases c
  · rfl
  · show accentOn ++ t.toList ++ accentOff = (StyledText.sgr t).toList
    rw [StyledText.sgr, String.toList_append, String.toList_append]
    rfl

end Piece

namespace Sheet

theorem renderAll_dumpLine_eq_styled (c : Bool) (s : Sheet) :
    Piece.renderAll c s.dumpLine =
      (if s.first = s.last then StyledText.dump (StyledText.accent c) s.rom.bytes s.first ++ "\n"
        else "").toList := by
  by_cases hsingle : s.first = s.last
  · have hoffset : '0' :: 'x' :: Numeral.padded 4 (Numeral.hex (8 * s.first)) =
        ("0x" ++ PlainText.hexPadded 4 (8 * s.first)).toList := by
      simp [PlainText.hexPadded, Numeral.hex_eq_toDigits, Numeral.padded_eq_leftpad,
        String.toList_append]
    rw [renderAll_dumpLine_of_eq c s hsingle, if_pos hsingle, hoffset, Piece.render_accent]
    simp only [StyledText.dump, Rom.glyphAt_bytes, Rom.getD_eq_getElem!, PlainText.hexPadded,
      Numeral.hex_eq_toDigits, Numeral.padded_eq_leftpad, String.toList_append,
      String.toList_join, String.toList_ofList, List.flatMap_map, List.append_assoc]
    rfl
  · rw [dumpLine, if_neg hsingle, if_neg hsingle]
    rfl

theorem renderAll_rowLine_eq_styled (c : Bool) (l : Layout) (rom : Rom) (b : Batch) (r : Fin 8) :
    Piece.renderAll c (rowLine l (b.indices.map rom.glyphAt) r) =
      (StyledText.row (StyledText.accent c) rom.bytes l b.first b.last r).toList := by
  have hnumber : Numeral.padded 2 (Numeral.decimal r) =
      (String.ofList ((toString r.val).toList.leftpad 2 '0')).toList := by
    rw [String.toList_ofList, Numeral.decimal_eq_toString, Numeral.padded_eq_leftpad]
  have hspace : " ".toList = [' '] := rfl
  have hnewline : "\n".toList = ['\n'] := rfl
  rw [renderAll_rowLine, hnumber, Piece.render_accent]
  simp only [StyledText.row, List.flatMap_map, Rom.glyphAt_row, Rom.getD_eq_getElem!,
    Layout.cells_eq, String.toList_append, String.toList_join, List.append_assoc, hspace, hnewline,
    Batch.indices, List.singleton_append]

theorem renderAll_block_eq_styled (c : Bool) (s : Sheet) (k : Nat) :
    Piece.renderAll c (s.block (Batch.nth s.layout.perLine s.first s.last k)) =
      (StyledText.block (StyledText.accent c) s.rom.bytes s.layout s.first s.last k).toList := by
  have hheader : Piece.renderAll c [.plain ['\n'],
      .accent ("charIdx = ".toList ++ Numeral.decimal (s.first + k * s.layout.perLine)),
      .plain ['\n']] =
      ("\n" ++ StyledText.accent c ("charIdx = " ++ toString (s.first + k * s.layout.perLine)) ++
        "\n").toList := by
    rw [Numeral.decimal_eq_toString, ← String.toList_append, Piece.renderAll, List.flatMap_cons,
      List.flatMap_cons, List.flatMap_cons, Piece.render_accent]
    simp only [String.toList_append, List.flatMap_nil, List.append_nil, List.append_assoc]
    rfl
  rw [renderAll_block, Batch.nth, hheader]
  simp only [renderAll_rowLine_eq_styled, StyledText.block, String.toList_append,
    String.toList_join, ← List.map_coe_finRange_eq_range, List.flatMap_map]

theorem renderAll_batches_eq_styled (c : Bool) (s : Sheet) :
    s.batches.flatMap (fun b => Piece.renderAll c (s.block b)) =
      (String.join ((List.range ((s.count + s.layout.perLine - 1) / s.layout.perLine)).map
        (StyledText.block (StyledText.accent c) s.rom.bytes s.layout s.first s.last))).toList := by
  have hcount : Batch.countFor s.layout.perLine (s.last + 1 - s.first) =
      (s.count + s.layout.perLine - 1) / s.layout.perLine := by
    have hrange := s.first_le_last
    rw [Batch.countFor, count, show s.last - s.first + 1 = s.last + 1 - s.first by omega]
  rw [batches, Batch.cover_eq_map_nth s.perLine_pos, hcount, List.flatMap_map,
    String.toList_join, List.flatMap_map]
  exact List.flatMap_congr fun k _ => renderAll_block_eq_styled c s k

/-- Coloured or not, a sheet's pieces show the template, marked as the colour says. -/
theorem renderAll_pieces_eq_styled (c : Bool) (s : Sheet) :
    Piece.renderAll c s.pieces =
      (StyledText.sheet (StyledText.accent c) s.rom.bytes s.first s.last s.layout).toList := by
  rw [renderAll_pieces, renderAll_dumpLine_eq_styled, renderAll_batches_eq_styled]
  have hsummary : s.summary.render c = s.summary.text := rfl
  rw [hsummary, summary_text, StyledText.sheet]
  simp only [count, String.toList_append, List.append_assoc]

/-- A sheet prints the template with its accents wrapped when its layout is coloured, and with
them as they are otherwise. -/
theorem text_eq_styled (s : Sheet) :
    s.text = StyledText.sheet (StyledText.accent s.layout.color) s.rom.bytes s.first s.last
      s.layout := by
  rw [text_eq, renderAll_pieces_eq_styled, String.ofList_toList]

/-! ### Deleting the codes gives the plain text back -/

theorem inert_summary (s : Sheet) : Sgr.Inert s.summary.text :=
  (((Numeral.inert_decimal _).append (Sgr.inert_of_all (by decide))).append
    (Numeral.inert_decimal _)).append (Sgr.inert_of_all (by decide))

theorem inert_dumpLine (s : Sheet) : ∀ p ∈ s.dumpLine, Sgr.Inert p.text := by
  intro p hp
  unfold dumpLine at hp
  split at hp
  · simp only [Glyph.dump, List.cons_append, List.nil_append, List.mem_cons, List.not_mem_nil,
      or_false] at hp
    rcases hp with rfl | rfl | rfl
    · exact (Sgr.inert_of_all (by decide) : Sgr.Inert ['0', 'x']).append
        (Numeral.inert_padded 4 (Numeral.inert_hex _))
    · exact Sgr.inert_flatMap fun b _ =>
        (Numeral.inert_padded 2 (Numeral.inert_hex _)).cons (by decide)
    · exact Sgr.inert_of_all (by decide)
  · exact absurd hp List.not_mem_nil

theorem inert_rowLine (l : Layout) (glyphs : List Glyph) (r : Fin 8) :
    ∀ p ∈ rowLine l glyphs r, Sgr.Inert p.text := by
  intro p hp
  simp only [rowLine, List.mem_cons, List.not_mem_nil, or_false] at hp
  rcases hp with rfl | rfl
  · exact Numeral.inert_padded 2 (Numeral.inert_decimal _)
  · -- each glyph's row is a space, then a character and a space per pixel
    refine (Sgr.inert_flatMap fun g _ => ?_).append (Sgr.inert_of_all (by decide))
    exact (Sgr.inert_flatMap fun lit _ => Sgr.inert_cell _ : Sgr.Inert (l.cells (g.row r))).cons
      (by decide)

theorem inert_block (s : Sheet) (b : Batch) : ∀ p ∈ s.block b, Sgr.Inert p.text := by
  intro p hp
  simp only [block, List.mem_append, List.mem_cons, List.not_mem_nil, or_false,
    List.mem_flatMap] at hp
  rcases hp with (rfl | rfl | rfl) | ⟨r, -, hr⟩
  · exact Sgr.inert_of_all (by decide)
  · exact (Sgr.inert_of_all (by decide)).append (Numeral.inert_decimal _)
  · exact Sgr.inert_of_all (by decide)
  · exact inert_rowLine _ _ r p hr

theorem inert_pieces (s : Sheet) : ∀ p ∈ s.pieces, Sgr.Inert p.text := by
  intro p hp
  simp only [pieces, List.cons_append, List.mem_cons, List.mem_append, List.mem_flatMap] at hp
  rcases hp with rfl | hdump | ⟨b, -, hb⟩
  · exact s.inert_summary
  · exact s.inert_dumpLine p hdump
  · exact s.inert_block b p hb

/-- Deleting the sequences from a sheet's coloured rendering leaves its plain one. -/
theorem strip_renderAll_pieces (s : Sheet) :
    Sgr.strip (Piece.renderAll true s.pieces) = Piece.renderAll false s.pieces := by
  simpa using Sgr.strip_renderAll s.inert_pieces []

/-- **Colour wraps exactly the accents.** For every ROM, range and layout a sheet accepts, the
sheet drawn in colour and the one drawn without are both made, and print the same template of the
ROM's bytes: in colour with the dump's offset, every batch header and every row number wrapped in
the codes for bold green on black and for the end of style, without colour with nothing wrapped.
Deleting every graphic-rendition sequence from the coloured text gives the plain text, whatever the
fill and the blank. -/
theorem colour_wraps_accents (rom : Rom) (first last : Nat) (layout : Layout) (s : Sheet)
    (h : Sheet.new? rom first last layout = .ok s) :
    ∃ sc sp, Sheet.new? rom first last (layout.withColor true) = .ok sc ∧
      Sheet.new? rom first last (layout.withColor false) = .ok sp ∧
      sc.text = StyledText.sheet StyledText.sgr rom.bytes first last layout ∧
      sp.text = StyledText.sheet id rom.bytes first last layout ∧
      Sgr.strip sc.text.toList = sp.text.toList := by
  obtain ⟨rfl, rfl, rfl, rfl⟩ := eq_of_new?_eq_ok h
  -- colour changes no check, so both sheets are made
  let sc : Sheet := { s with layout := s.layout.withColor true, perLine_pos := s.perLine_pos }
  let sp : Sheet := { s with layout := s.layout.withColor false, perLine_pos := s.perLine_pos }
  refine ⟨sc, sp, new?_of_lt_glyphCount sc.perLine_pos sc.first_le_last sc.last_lt_glyphCount,
    new?_of_lt_glyphCount sp.perLine_pos sp.first_le_last sp.last_lt_glyphCount, ?_, ?_, ?_⟩
  · rw [text_eq_styled]
    rfl
  · rw [text_eq_styled]
    rfl
  · rw [text_eq, text_eq, String.toList_ofList, String.toList_ofList]
    show Sgr.strip (Piece.renderAll true sc.pieces) = Piece.renderAll false sp.pieces
    rw [strip_renderAll_pieces, renderAll_pieces_eq_styled, renderAll_pieces_eq_styled]
    rfl

/-- Even with the escape character as the fill and `[` as the blank, deleting the codes gives the
plain text back. -/
theorem colour_wraps_accents_escape_pixels :
    ∃ sc sp,
      Sheet.new? ⟨#[0x12, 0x34, 0x56, 0x78, 0x9a, 0xbc, 0xde, 0xf0]⟩ 0 0
          (({ fill := '\x1b', blank := '[' } : Layout).withColor true) = .ok sc ∧
      Sheet.new? ⟨#[0x12, 0x34, 0x56, 0x78, 0x9a, 0xbc, 0xde, 0xf0]⟩ 0 0
          (({ fill := '\x1b', blank := '[' } : Layout).withColor false) = .ok sp ∧
      sc.text = StyledText.sheet StyledText.sgr #[0x12, 0x34, 0x56, 0x78, 0x9a, 0xbc, 0xde, 0xf0] 0 0
        { fill := '\x1b', blank := '[' } ∧
      sp.text = StyledText.sheet id #[0x12, 0x34, 0x56, 0x78, 0x9a, 0xbc, 0xde, 0xf0] 0 0
        { fill := '\x1b', blank := '[' } ∧
      Sgr.strip sc.text.toList = sp.text.toList :=
  colour_wraps_accents _ 0 0 _ _ (new?_of_lt_glyphCount (by decide) (by decide) (by decide))

end Sheet

end CharRom
