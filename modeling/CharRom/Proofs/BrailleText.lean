import CharRom.Proofs.PlainText
import Mathlib.Algebra.Order.BigOperators.Group.List
import Mathlib.Data.List.TakeWhile
import Mathlib.Tactic.IntervalCases

/-!
# The braille preview, pixel by pixel

`BrailleText.text` states the preview of `n` glyphs from the ROM's bytes alone. Pixel `(x, y)` of
the strip is lit when `y < 8`, `x < 9n`, `x % 9 < 8` and bit `7 - x % 9` of row `y` of glyph
`first + x / 9` is set, the ninth column of every glyph being the gap. Line `R` has `9n / 2 + 1`
characters; character `C` covers pixel columns `2C`, `2C + 1` and rows `4R` to `4R + 3`, and is
`U+2800` plus the sum of the dots of its lit pixels, or a space when none is lit. Of the three
lines, those at the end that hold no dot are dropped, and the rest are joined by newlines.

`Braille.preview_draws_strip_until_wrap` shows that the preview prints exactly this for every ROM
and every range of at most `14563` glyphs, all present, and that the bound is tight. Up to that
many glyphs the strip is at most `2^17` pixels wide, so every pixel column lands in its own cell
column and the canvas is as wide as the strip; the canvas's cell-by-cell OR of dots is then the
sum the statement names, the dots of one cell being distinct bits. One glyph more and a solid ROM
shows the difference: the canvas has no more than `2^16` cell columns, and the first line it prints
is shorter than the `65539` characters the statement asks for.
-/

namespace CharRom

namespace BrailleText

/-- Pixel `(x, y)` of the strip of `n` glyphs from glyph `first` of the bytes `d`. -/
def pixel (d : Array UInt8) (first n x y : Nat) : Bool :=
  decide (y < 8) && decide (x < 9 * n) && decide (x % 9 < 8) &&
    (d[8 * (first + x / 9) + y]!).toNat.testBit (7 - x % 9)

/-- The dot of a pixel in its cell, by the pixel's row and column in the cell. -/
def dotValues : List (List Nat) := [[0x01, 0x08], [0x02, 0x10], [0x04, 0x20], [0x40, 0x80]]

/-- The pixels of cell `(R, C)`: columns `2C` and `2C + 1` of rows `4R` to `4R + 3`. -/
def cellPixels (R C : Nat) : List (Nat × Nat) :=
  (List.range 4).flatMap fun dy => (List.range 2).map fun dx => (2 * C + dx, 4 * R + dy)

section Strip

variable (d : Array UInt8) (first n : Nat)

/-- Whether some pixel of cell `(R, C)` is lit. -/
def lit (R C : Nat) : Bool := (cellPixels R C).any fun p => pixel d first n p.1 p.2

/-- The sum of the dots of the lit pixels of cell `(R, C)`. -/
def dots (R C : Nat) : Nat :=
  ((cellPixels R C).map fun p =>
    if pixel d first n p.1 p.2 then (dotValues[p.2 % 4]!)[p.1 % 2]! else 0).sum

/-- Character `C` of line `R`. -/
def char (R C : Nat) : Char := if lit d first n R C then Char.ofNat (0x2800 + dots d first n R C) else ' '

/-- Line `R`: `9n / 2 + 1` characters. -/
def line (R : Nat) : List Char := (List.range (9 * n / 2 + 1)).map (char d first n R)

/-- Whether line `R` holds a dot. -/
def lineLit (R : Nat) : Bool := (List.range (9 * n / 2 + 1)).any (lit d first n R)

/-- The lines shown: lines `0`, `1`, `2` without those at the end that hold no dot. -/
def rows : List Nat := ((List.range 3).reverse.dropWhile fun R => !lineLit d first n R).reverse

/-- The preview: the lines shown, joined by newlines. -/
def text : String := String.ofList (['\n'].intercalate ((rows d first n).map (line d first n)))

end Strip

/-! ### A cell read position by position

The pixels of a cell are read row by row, left then right: position `k < 8` is column `k % 2` of
row `k / 2`, and its dot is `cellDot k`. -/

/-- The dot of position `k` of a cell. -/
def cellDot (k : Nat) : Nat := (dotValues[k / 2]!)[k % 2]!

theorem cellDot_pos {k : Nat} (hk : k < 8) : 0 < cellDot k := by
  interval_cases k <;> decide

theorem cellPixels_eq (R C : Nat) :
    cellPixels R C = (List.range 8).map fun k => (2 * C + k % 2, 4 * R + k / 2) := rfl

theorem dotValues_cellPixel {k : Nat} (hk : k < 8) (R C : Nat) :
    (dotValues[(4 * R + k / 2) % 4]!)[(2 * C + k % 2) % 2]! = cellDot k := by
  rw [show (4 * R + k / 2) % 4 = k / 2 by omega, show (2 * C + k % 2) % 2 = k % 2 by omega]
  rfl

section Strip

variable (d : Array UInt8) (first n : Nat)

theorem lit_eq (R C : Nat) :
    lit d first n R C = (List.range 8).any fun k => pixel d first n (2 * C + k % 2) (4 * R + k / 2) := by
  rw [lit, cellPixels_eq, List.any_map]
  rfl

theorem dots_eq (R C : Nat) :
    dots d first n R C = ((List.range 8).map fun k =>
      if pixel d first n (2 * C + k % 2) (4 * R + k / 2) then cellDot k else 0).sum := by
  rw [dots, cellPixels_eq, List.map_map]
  congr 1
  apply List.map_congr_left
  intro k hk
  simp only [Function.comp_apply, dotValues_cellPixel (List.mem_range.1 hk)]

/-- A cell's dots sum to nothing exactly when none of its pixels is lit: every dot counts. -/
theorem dots_eq_zero_iff (R C : Nat) : dots d first n R C = 0 ↔ lit d first n R C = false := by
  rw [dots_eq, List.sum_eq_zero_iff_forall_eq_nat, lit_eq, List.any_eq_false]
  simp only [List.mem_map, List.mem_range, forall_exists_index, and_imp,
    forall_apply_eq_imp_iff₂]
  apply forall₂_congr
  intro k hk
  have hdot := cellDot_pos hk
  split
  · next hpix => simpa [hpix] using Nat.pos_iff_ne_zero.1 hdot
  · next hpix => simp [hpix]

/-- A cell's dots fit in a byte: they are the eight distinct bits of one. -/
theorem dots_le (R C : Nat) : dots d first n R C ≤ 255 := by
  rw [dots_eq]
  calc ((List.range 8).map fun k =>
          if pixel d first n (2 * C + k % 2) (4 * R + k / 2) then cellDot k else 0).sum
      ≤ ((List.range 8).map cellDot).sum := List.sum_le_sum fun k _ => by split <;> omega
    _ = 255 := by decide

theorem toNat_char (R C : Nat) :
    (char d first n R C).toNat = if lit d first n R C then 0x2800 + dots d first n R C else 32 := by
  unfold char
  split
  · have hvalid : (0x2800 + dots d first n R C).isValidChar :=
      Or.inl (by have := dots_le d first n R C; omega)
    rw [Char.ofNat, dif_pos hvalid]
    rfl
  · rfl

/-- A character shows nothing, a space or the empty braille cell, exactly when no pixel of its
cell is lit. -/
theorem char_blank_eq (R C : Nat) :
    (char d first n R C == ' ' || char d first n R C == Char.ofNat 0x2800) = !lit d first n R C := by
  have hcode := toNat_char d first n R C
  cases hlit : lit d first n R C
  · simp [char, hlit]
  · have hdots : dots d first n R C ≠ 0 := fun h => by
      rw [dots_eq_zero_iff] at h
      simp [hlit] at h
    rw [hlit, if_pos rfl] at hcode
    have hspace : char d first n R C ≠ ' ' := fun h => by
      rw [h] at hcode
      have hcode' : (' ' : Char).toNat = 32 := rfl
      omega
    have hblank : char d first n R C ≠ Char.ofNat 0x2800 := fun h => by
      rw [h] at hcode
      have hcode' : (Char.ofNat 0x2800).toNat = 0x2800 := rfl
      omega
    simp [hspace, hblank]

/-- A line is blank, in the sense the preview trims by, exactly when it holds no dot. -/
theorem isBlankLine_line (R : Nat) :
    Braille.isBlankLine (line d first n R) = !lineLit d first n R := by
  rw [Braille.isBlankLine, line, lineLit, List.all_map]
  simp only [Function.comp_def, char_blank_eq, List.all_eq_not_any_not, Bool.not_not]

theorem not_mem_newline_line (R : Nat) : '\n' ∉ line d first n R := by
  intro hmem
  obtain ⟨C, -, hC⟩ := List.mem_map.1 hmem
  have hcode := toNat_char d first n R C
  rw [hC] at hcode
  have hnewline : ('\n' : Char).toNat = 10 := rfl
  split at hcode <;> omega

@[simp]
theorem length_line (R : Nat) : (line d first n R).length = 9 * n / 2 + 1 := by
  simp [line]

/-- A cell's character is the canvas's character for its dots. -/
theorem cellChar_dots (R C : Nat) : Braille.cellChar (dots d first n R C) = char d first n R C := by
  unfold Braille.cellChar char
  by_cases hlit : lit d first n R C = true
  · rw [if_neg fun h => by simp [(dots_eq_zero_iff d first n R C).1 h] at hlit, if_pos hlit]
  · rw [if_pos ((dots_eq_zero_iff d first n R C).2 (by simpa using hlit)), if_neg hlit]

/-- No glyph, no dot: the preview of nothing is empty. -/
theorem text_zero : text d first 0 = "" := by
  have hdark : ∀ R, lineLit d first 0 R = false := by
    intro R
    simp [lineLit, lit, pixel]
  simp [text, rows, hdark, List.range_succ]

/-- When the top line holds a dot, the text starts with it and nothing else before its end. -/
theorem takeWhile_text (h : lineLit d first n 0 = true) :
    (text d first n).toList.takeWhile (· != '\n') = line d first n 0 := by
  obtain ⟨rest, hrows⟩ : ∃ rest, rows d first n = 0 :: rest := by
    unfold rows
    cases h1 : lineLit d first n 1 <;> cases h2 : lineLit d first n 2 <;>
      simp [List.range_succ, h, h1, h2]
  have hline : ∀ c ∈ line d first n 0, (c != '\n') = true := by
    intro c hc
    have := not_mem_newline_line d first n 0
    simp only [bne_iff_ne, ne_eq]
    exact fun hc' => this (hc' ▸ hc)
  rw [text, String.toList_ofList, hrows, List.map_cons]
  cases rest with
  | nil =>
    rw [List.map_nil, List.intercalate_singleton]
    exact List.takeWhile_eq_self_iff.2 hline
  | cons R rest =>
    rw [List.map_cons, List.intercalate_cons_cons, List.append_assoc,
      List.takeWhile_append_of_pos hline]
    simp

end Strip

end BrailleText

namespace Braille

theorem dot_eq_cellDot {k : Nat} (hk : k < 8) (r c : Nat) :
    dot (2 * c + k % 2) (4 * r + k / 2) = BrailleText.cellDot k := by
  have hy : (4 * r + k / 2) % 4 = k / 2 := by omega
  have hx : (2 * c + k % 2) % 2 = k % 2 := by omega
  unfold dot
  rw [hx, hy]
  interval_cases k <;> rfl

/-- Bits that do not overlap add up: their OR is their sum. -/
theorem or_eq_add_of_and_eq_zero {a b : Nat} (h : a &&& b = 0) : a ||| b = a + b := by
  -- in a word wide enough for both, adding bits that do not overlap makes no carry
  have hwide : ∀ m ≤ a + b, m < 2 ^ (a + b) := fun _ hm => Nat.lt_of_le_of_lt hm Nat.lt_two_pow_self
  have ha := hwide a (Nat.le_add_right a b)
  have hb := hwide b (Nat.le_add_left b a)
  have hdisjoint : BitVec.ofNat (a + b) a &&& BitVec.ofNat (a + b) b = 0#(a + b) := by
    apply BitVec.eq_of_toNat_eq
    simp [Nat.mod_eq_of_lt ha, Nat.mod_eq_of_lt hb, h]
  have hsum := BitVec.toNat_add_of_and_eq_zero hdisjoint
  rw [BitVec.add_eq_or_of_and_eq_zero _ _ hdisjoint, BitVec.toNat_or] at hsum
  simpa [Nat.mod_eq_of_lt ha, Nat.mod_eq_of_lt hb] using hsum

/-- ORing in, one after another, values that share no bit with each other nor with the start adds
them to it. -/
theorem foldl_or_eq_add_sum (p : Nat → Bool) (v : Nat → Nat) :
    ∀ (l : List Nat) (acc : Nat), l.Pairwise (fun a b => v a &&& v b = 0) →
      (∀ a ∈ l, acc &&& v a = 0) →
      l.foldl (fun acc k => if p k then acc ||| v k else acc) acc =
        acc + (l.map fun k => if p k then v k else 0).sum
  | [], acc, _, _ => by simp
  | a :: l, acc, hpair, hacc => by
    obtain ⟨ha, hl⟩ := List.pairwise_cons.1 hpair
    have hrest : ∀ b ∈ l, acc &&& v b = 0 := fun b hb => hacc b (List.mem_cons_of_mem a hb)
    rw [List.foldl_cons, List.map_cons, List.sum_cons]
    by_cases hp : p a
    · -- the new value's bits are fresh, and what it adds to keeps clear of the later ones
      have hfresh : ∀ b ∈ l, (acc ||| v a) &&& v b = 0 := fun b hb => by
        rw [Nat.and_or_distrib_right, hrest b hb, ha b hb]
        rfl
      rw [if_pos hp, foldl_or_eq_add_sum p v l _ hl hfresh,
        or_eq_add_of_and_eq_zero (hacc a List.mem_cons_self), if_pos hp, Nat.add_assoc]
    · rw [if_neg hp, foldl_or_eq_add_sum p v l acc hl hrest, if_neg hp, Nat.zero_add]

/-- Setting a cell's dots one after another ORs in distinct bits, so it adds them up. -/
theorem foldl_or_eq_sum (p : Nat → Bool) (v : Nat → Nat)
    (hv : ∀ k < 8, v k = BrailleText.cellDot k) :
    (List.range 8).foldl (fun acc k => if p k then acc ||| v k else acc) 0 =
      ((List.range 8).map fun k => if p k then v k else 0).sum := by
  -- the eight dots of a cell are eight different bits
  have hdots : (List.range 8).Pairwise
      (fun a b => BrailleText.cellDot a &&& BrailleText.cellDot b = 0) := by decide
  have hdisjoint : (List.range 8).Pairwise (fun a b => v a &&& v b = 0) :=
    hdots.imp_of_mem fun ha hb h => by
      rwa [hv _ (List.mem_range.1 ha), hv _ (List.mem_range.1 hb)]
  rw [foldl_or_eq_add_sum p v _ 0 hdisjoint (fun a _ => Nat.zero_and _), Nat.zero_add]

/-- Lines with the blank ones at the end dropped keep only lines they were given. -/
theorem mem_of_mem_trimBlankLines {lines : List (List Char)} {l : List Char}
    (h : l ∈ trimBlankLines lines) : l ∈ lines := by
  rw [trimBlankLines, List.mem_reverse] at h
  exact List.mem_reverse.1 ((List.dropWhile_suffix isBlankLine).subset h)

/-- The first line of lines joined by newlines is no longer than the first of them. -/
theorem length_takeWhile_intercalate_le (lines : List (List Char)) :
    ((['\n'].intercalate lines).takeWhile (· != '\n')).length ≤ (lines.headD []).length := by
  match lines with
  | [] => simp
  | [l] =>
    rw [List.intercalate_singleton]
    exact (List.takeWhile_prefix _).length_le
  | l :: l' :: rest =>
    rw [List.intercalate_cons_cons, List.append_assoc, List.takeWhile_append]
    split
    · simp
    · exact (List.takeWhile_prefix _).length_le

namespace Strip

/-- The strip of the `n` glyphs of a ROM from glyph `first`. -/
def ofRange (rom : Rom) (first n : Nat) : Strip := ⟨((List.range' first n).map rom.glyphAt).toArray⟩

theorem width_ofRange (rom : Rom) (first n : Nat) : (ofRange rom first n).width = 9 * n := by
  simp [ofRange, width]

/-- The strip of a ROM's glyphs lights exactly the pixels the ROM's bytes say. -/
theorem lit_ofRange (rom : Rom) (first n x y : Nat) :
    (ofRange rom first n).lit x y = BrailleText.pixel rom.bytes first n x y := by
  unfold lit BrailleText.pixel
  by_cases hx : x < 9 * n
  · have hslot : (ofRange rom first n).glyphs[x / 9]? = some (rom.glyphAt (first + x / 9)) := by
      simp [ofRange, show x / 9 < n by omega]
    rw [hslot]
    by_cases hy : y < 8
    · have hzero : (default : UInt8) = 0 := rfl
      simp [Glyph.row?, hy, hx, Row.isSet, Rom.glyphAt_row, Array.getElem!_eq_getD, hzero]
    · simp [Glyph.row?, hy]
  · have hslot : (ofRange rom first n).glyphs[x / 9]? = none := by
      simp [ofRange]
      omega
    rw [hslot]
    simp [hx]

theorem folds_eq_one {s : Strip} (hpos : 0 < s.width) (hnarrow : s.width ≤ 2 * columnSpan) :
    s.folds = 1 := by
  unfold folds
  unfold columnSpan at hnarrow ⊢
  omega

theorem cell_eq_of_folds_eq_one {s : Strip} (h : s.folds = 1) (r c : Nat) :
    s.cell r c = (List.range 8).foldl (fun acc k =>
      if s.lit (2 * c + k % 2) (4 * r + k / 2) then acc ||| dot (2 * c + k % 2) (4 * r + k / 2)
      else acc) 0 := by
  unfold cell
  rw [h]
  simp only [List.range_one, List.foldl_cons, List.foldl_nil, Nat.mul_zero, Nat.zero_add]

/-- While the strip is at most `2^17` pixels wide, a cell holds the sum of the dots of its lit
pixels. -/
theorem cell_ofRange (rom : Rom) (first : Nat) {n : Nat} (hpos : 0 < n) (hsmall : n ≤ 14563)
    (r c : Nat) : (ofRange rom first n).cell r c = BrailleText.dots rom.bytes first n r c := by
  have hwidth := width_ofRange rom first n
  have hfolds : (ofRange rom first n).folds = 1 :=
    folds_eq_one (by omega) (by unfold columnSpan; omega)
  rw [cell_eq_of_folds_eq_one hfolds, foldl_or_eq_sum _ _ fun k hk => dot_eq_cellDot hk r c,
    BrailleText.dots_eq]
  congr 1
  apply List.map_congr_left
  intro k hk
  rw [lit_ofRange, dot_eq_cellDot (List.mem_range.1 hk)]

/-- The value a scan keeps, the last item that passed or the start, is one of them. -/
theorem mem_foldl_last (q : Nat → Bool) :
    ∀ (l : List Nat) (init : Nat), l.foldl (fun m c => if q c then c else m) init ∈ init :: l
  | [], init => List.mem_cons_self
  | c :: l, init => by
    rw [List.foldl_cons]
    rcases List.mem_cons.1 (mem_foldl_last q l (if q c then c else init)) with h | h
    · rw [h]
      split <;> simp
    · exact List.mem_cons_of_mem _ (List.mem_cons_of_mem _ h)

theorem lastLitColumn_cases (s : Strip) :
    s.lastLitColumn = 0 ∨ s.lastLitColumn < min columnSpan ((s.width + 1) / 2) := by
  rcases List.mem_cons.1 (mem_foldl_last _ (List.range (min columnSpan ((s.width + 1) / 2))) 0)
    with h | h
  · exact Or.inl h
  · exact Or.inr (List.mem_range.1 h)

/-- The frame is never wider than the canvas's sixteen-bit column numbers reach. -/
theorem columns_le (s : Strip) : s.columns ≤ columnSpan := by
  have hlast := lastLitColumn_cases s
  unfold columns canvasWidth
  unfold columnSpan at hlast ⊢
  omega

/-- A strip narrower than `2^17` pixels is framed one cell column wider than half its width. -/
theorem columns_of_lt {s : Strip} (hnarrow : s.width < 2 * columnSpan) :
    s.columns = s.width / 2 + 1 := by
  have hlast := lastLitColumn_cases s
  unfold columns canvasWidth
  unfold columnSpan at hlast hnarrow ⊢
  omega

theorem length_of_mem_frame (s : Strip) {l : List Char} (h : l ∈ s.frame) :
    l.length = s.columns := by
  unfold frame at h
  obtain ⟨r, -, rfl⟩ := List.mem_map.1 h
  simp

theorem frame_ofRange (rom : Rom) (first : Nat) {n : Nat} (hpos : 0 < n) (hsmall : n ≤ 14563) :
    (ofRange rom first n).frame = (List.range 3).map (BrailleText.line rom.bytes first n) := by
  have hcolumns : (ofRange rom first n).columns = 9 * n / 2 + 1 := by
    rw [columns_of_lt (by rw [width_ofRange]; unfold columnSpan; omega), width_ofRange]
  unfold frame
  rw [hcolumns]
  apply List.map_congr_left
  intro r _
  apply List.map_congr_left
  intro c _
  rw [cell_ofRange rom first hpos hsmall, BrailleText.cellChar_dots]

theorem trimBlankLines_lines (d : Array UInt8) (first n : Nat) :
    trimBlankLines ((List.range 3).map (BrailleText.line d first n)) =
      (BrailleText.rows d first n).map (BrailleText.line d first n) := by
  have hblank : isBlankLine ∘ BrailleText.line d first n = fun R => !BrailleText.lineLit d first n R :=
    funext (BrailleText.isBlankLine_line d first n)
  rw [trimBlankLines, ← List.map_reverse, List.dropWhile_map, hblank, ← List.map_reverse]
  rfl

/-- Up to `14563` glyphs, the strip of a ROM's glyphs draws the text its bytes describe. -/
theorem draw_ofRange (rom : Rom) (first : Nat) {n : Nat} (hpos : 0 < n) (hsmall : n ≤ 14563) :
    (ofRange rom first n).draw = BrailleText.text rom.bytes first n := by
  rw [draw, frame_ofRange rom first hpos hsmall, trimBlankLines_lines]
  rfl

/-- Whatever the strip, the first line drawn is at most `2^16` characters long. -/
theorem length_takeWhile_draw_le (s : Strip) :
    (s.draw.toList.takeWhile (· != '\n')).length ≤ columnSpan := by
  rw [draw, String.toList_ofList]
  refine (length_takeWhile_intercalate_le _).trans ?_
  cases htrim : trimBlankLines s.frame with
  | nil => simp
  | cons l rest =>
    have hl : l ∈ s.frame := mem_of_mem_trimBlankLines (htrim ▸ List.mem_cons_self)
    rw [List.headD_cons, length_of_mem_frame s hl]
    exact columns_le s

end Strip

/-- Up to `14563` glyphs, all present, the preview prints the text the ROM's bytes describe. -/
theorem preview_eq_text {rom : Rom} {first last : Nat}
    (hpresent : ∀ i, first ≤ i → i ≤ last → i < rom.glyphCount)
    (hsmall : last + 1 - first ≤ 14563) :
    preview rom first last = .ok (BrailleText.text rom.bytes first (last + 1 - first)) := by
  by_cases hrange : first ≤ last
  · have hlast := hpresent last hrange (Nat.le_refl last)
    rw [preview_eq, if_neg (by omega)]
    exact congrArg Except.ok (Strip.draw_ofRange rom first (by omega) hsmall)
  · rw [preview_of_lt (by omega), show last + 1 - first = 0 by omega, BrailleText.text_zero]

/-- Past the canvas's `2^16` cell columns, a range whose top line holds a dot is previewed
otherwise than its bytes describe: the first line printed is too short. -/
theorem preview_ne_text_of_wide {rom : Rom} {first last : Nat}
    (hpresent : ∀ i, first ≤ i → i ≤ last → i < rom.glyphCount)
    (hwide : columnSpan < 9 * (last + 1 - first) / 2 + 1)
    (htop : BrailleText.lineLit rom.bytes first (last + 1 - first) 0 = true) :
    preview rom first last ≠ .ok (BrailleText.text rom.bytes first (last + 1 - first)) := by
  intro h
  have hrange : first ≤ last := by
    unfold columnSpan at hwide
    omega
  have hlast := hpresent last hrange (Nat.le_refl last)
  rw [preview_eq, if_neg (by omega)] at h
  have hdraw : (Strip.ofRange rom first (last + 1 - first)).draw = _ := Except.ok.inj h
  have hfirstLine := Strip.length_takeWhile_draw_le (Strip.ofRange rom first (last + 1 - first))
  rw [hdraw, BrailleText.takeWhile_text _ _ _ htop, BrailleText.length_line] at hfirstLine
  omega

/-- A ROM of `8 * n` bytes holds `n` glyphs. -/
theorem glyphCount_replicate (n : Nat) (v : UInt8) :
    (⟨Array.replicate (8 * n) v⟩ : Rom).glyphCount = n := by
  rw [Rom.glyphCount, Rom.size, Array.size_replicate]
  omega

/-- A solid ROM lights the top left pixel of its first glyph. -/
theorem lineLit_solid (n : Nat) (hn : 0 < n) :
    BrailleText.lineLit (Array.replicate (8 * n) 0xff) 0 n 0 = true := by
  have hpixel : BrailleText.pixel (Array.replicate (8 * n) 0xff) 0 n 0 0 = true := by
    have hbit : Nat.testBit 255 7 = true := by decide
    simp [BrailleText.pixel, hbit, hn]
  have hcell : BrailleText.lit (Array.replicate (8 * n) 0xff) 0 n 0 0 = true :=
    List.any_eq_true.2 ⟨(0, 0), by decide, hpixel⟩
  exact List.any_eq_true.2 ⟨0, List.mem_range.2 (by omega), hcell⟩

/-- **The preview draws the strip, up to the canvas's wrap.** For every ROM and every range of
at most `14563` glyphs, all present, the braille preview prints `BrailleText.text`: the lines of
cells of the strip's lit pixels, each `9n / 2 + 1` characters long, a cell showing `U+2800` plus
the sum of its dots, with the trailing lines that hold no dot dropped. The bound is tight: a
solid ROM of `14564` glyphs is previewed otherwise, its columns past `2^16` cells folded back. -/
theorem preview_draws_strip_until_wrap :
    (∀ (rom : Rom) (first last : Nat), (∀ i, first ≤ i → i ≤ last → i < rom.glyphCount) →
      last + 1 - first ≤ 14563 →
      preview rom first last = .ok (BrailleText.text rom.bytes first (last + 1 - first))) ∧
    ∃ (rom : Rom) (first last : Nat), last + 1 - first = 14564 ∧
      (∀ i, first ≤ i → i ≤ last → i < rom.glyphCount) ∧
      preview rom first last ≠ .ok (BrailleText.text rom.bytes first (last + 1 - first)) := by
  refine ⟨fun rom first last hpresent hsmall => preview_eq_text hpresent hsmall, ?_⟩
  -- a solid ROM of `14564` glyphs
  have hpresent :
      ∀ i, 0 ≤ i → i ≤ 14563 → i < (⟨Array.replicate (8 * 14564) 0xff⟩ : Rom).glyphCount :=
    fun i _ hi => by rw [glyphCount_replicate]; omega
  refine ⟨⟨Array.replicate (8 * 14564) 0xff⟩, 0, 14563, rfl, hpresent, ?_⟩
  exact preview_ne_text_of_wide hpresent (by decide) (lineLit_solid 14564 (by decide))

example : preview ⟨Array.replicate 8 0xff⟩ 0 0 = .ok "⣿⣿⣿⣿ \n⣿⣿⣿⣿ " := by
  decide +kernel

theorem preview_draws_strip_until_wrap_solid_glyph :
    preview ⟨Array.replicate (8 * 1) 0xff⟩ 0 0 =
      .ok (BrailleText.text (Array.replicate (8 * 1) 0xff) 0 1) :=
  preview_draws_strip_until_wrap.1 ⟨Array.replicate (8 * 1) 0xff⟩ 0 0
    (fun i _ hi => by rw [glyphCount_replicate]; omega) (by decide)

end Braille

end CharRom
