import CharRom.Rom

/-!
# Braille previews

A compact drawing of a range of glyphs in braille characters. The glyphs are set side by side in a
strip, nine pixel columns apart, so that one dark column separates neighbours. A braille cell
covers two pixel columns and four pixel rows, and its character is `U+2800` plus the dots of its
lit pixels; a cell with no lit pixel is a space.

The canvas numbers its cell columns in sixteen bits: pixel column `x` lands in cell column
`(x / 2) mod 2^16`, and the canvas is `(9n / 2) mod 2^16` cells wide for `n` glyphs. A strip
wider than `2^17` pixels therefore folds back onto its start, and a cell then gathers the dots of
every pixel that lands in it. The frame is three cells tall (the canvas is two tall and its frame
runs one row past) and as wide as the canvas or its last lit column, whichever is further out.
Blank lines at the end are dropped and the rest joined by newlines.
-/

namespace CharRom.Braille

/-- The dot that pixel `(x, y)` lights in its cell: the left column holds dots `0x01`, `0x02`,
`0x04` from the top, the right column `0x08`, `0x10`, `0x20`, and the bottom pair is `0x40`,
`0x80`. -/
def dot (x y : Nat) : Nat :=
  match y % 4, x % 2 with
  | 0, 0 => 0x01
  | 0, _ => 0x08
  | 1, 0 => 0x02
  | 1, _ => 0x10
  | 2, 0 => 0x04
  | 2, _ => 0x20
  | _, 0 => 0x40
  | _, _ => 0x80

/-- How many cell columns a canvas numbers: columns are sixteen-bit numbers. -/
def columnSpan : Nat := 65536

/-- The cell column of pixel column `x`. -/
def columnOf (x : Nat) : Nat := x / 2 % columnSpan

/-- The pixel columns that `cell` gathers for column `c` all land in column `c`. -/
theorem columnOf_gathered {k c d : Nat} (hc : c < columnSpan) (hd : d < 2) :
    columnOf (2 * columnSpan * k + 2 * c + d) = c := by
  unfold columnOf columnSpan at *
  omega

/-- Bit `j` of values ORed in one after another is set exactly when it was set at the start or in
one of the values ORed in. -/
theorem testBit_foldl_or {β : Type} (q : β → Bool) (f : β → Nat) (j : Nat) :
    ∀ (l : List β) (init : Nat),
      (l.foldl (fun acc a => if q a then acc ||| f a else acc) init).testBit j =
        (init.testBit j || l.any fun a => q a && (f a).testBit j)
  | [], init => by simp
  | a :: l, init => by
    rw [List.foldl_cons, testBit_foldl_or q f j l, List.any_cons]
    cases hq : q a <;> simp [Nat.testBit_or, Bool.or_assoc]

/-- The character of a cell with dots `bits`: a space when it has none. -/
def cellChar (bits : Nat) : Char :=
  if bits = 0 then ' ' else Char.ofNat (0x2800 + bits)

/-- Whether a line shows nothing: only spaces and empty braille cells. -/
def isBlankLine (line : List Char) : Bool :=
  line.all fun c => c == ' ' || c == Char.ofNat 0x2800

/-- Lines with the blank ones at the end dropped. -/
def trimBlankLines (lines : List (List Char)) : List (List Char) :=
  (lines.reverse.dropWhile isBlankLine).reverse

/-- Glyphs set side by side, nine pixel columns apart. -/
structure Strip where
  glyphs : Array Glyph

namespace Strip

/-- The strip's width in pixels. -/
def width (s : Strip) : Nat := 9 * s.glyphs.size

/-- Pixel `(x, y)` is lit: column `x % 9` of row `y` of glyph `x / 9`, the ninth column being
the gap. -/
def lit (s : Strip) (x y : Nat) : Bool :=
  match s.glyphs[x / 9]? with
  | some g =>
    match g.row? y with
    | some row => row.isSet (x % 9)
    | none => false
  | none => false

/-- How many times the strip's pixel columns wrap around the canvas's cell columns. -/
def folds (s : Strip) : Nat := (s.width + 2 * columnSpan - 1) / (2 * columnSpan)

/-- The dots of cell `(r, c)`: every lit pixel landing there, at pixel columns
`2c + 2^17 k` and `2c + 2^17 k + 1` and pixel rows `4r` to `4r + 3`. -/
def cell (s : Strip) (r c : Nat) : Nat :=
  (List.range s.folds).foldl (fun acc k =>
    (List.range 8).foldl (fun acc d =>
      let x := 2 * columnSpan * k + 2 * c + d % 2
      let y := 4 * r + d / 2
      if s.lit x y then acc ||| dot x y else acc) acc) 0

theorem lt_width_of_lit {s : Strip} {x y : Nat} (h : s.lit x y = true) : x < s.width := by
  unfold lit at h
  cases hslot : s.glyphs[x / 9]? with
  | none => simp [hslot] at h
  | some g =>
    obtain ⟨hx, -⟩ := Array.getElem?_eq_some_iff.1 hslot
    unfold width
    omega

/-- A cell holds the dots the canvas sets pixel by pixel: bit `j` of cell `(r, c)` is set exactly
when some lit pixel that lands in that cell, pixel column `x` in cell column `columnOf x` and
pixel row `y` in cell row `y / 4`, has bit `j` in its dot. -/
theorem testBit_cell (s : Strip) {r c : Nat} (hc : c < columnSpan) (j : Nat) :
    (s.cell r c).testBit j = true ↔
      ∃ x y, s.lit x y = true ∧ columnOf x = c ∧ y / 4 = r ∧ (dot x y).testBit j = true := by
  -- the cell's two folds run over the pixels it gathers, fold by fold and position by position
  have hcell : s.cell r c = ((List.range s.folds).flatMap fun k => (List.range 8).map fun d =>
      (2 * columnSpan * k + 2 * c + d % 2, 4 * r + d / 2)).foldl
        (fun acc q => if s.lit q.1 q.2 then acc ||| dot q.1 q.2 else acc) 0 := by
    simp only [cell, List.foldl_flatMap, List.foldl_map]
  rw [hcell, testBit_foldl_or, Nat.zero_testBit, Bool.false_or, List.any_eq_true]
  constructor
  · rintro ⟨q, hq, hbit⟩
    obtain ⟨k, -, d, hd, rfl⟩ : ∃ k, k < s.folds ∧ ∃ d, d < 8 ∧
        (2 * columnSpan * k + 2 * c + d % 2, 4 * r + d / 2) = q := by
      simpa using hq
    simp only [Bool.and_eq_true] at hbit
    exact ⟨_, _, hbit.1, columnOf_gathered hc (Nat.mod_lt d (by decide)), by omega, hbit.2⟩
  · rintro ⟨x, y, hlit, hcol, hrow, hbit⟩
    -- pixel `x` lies in fold `x / 2^17`, at position `2 (y % 4) + x % 2` of the cell
    have hx := lt_width_of_lit hlit
    have hfold : x / (2 * columnSpan) < s.folds := by
      unfold folds
      unfold columnSpan at *
      omega
    have hx' : 2 * columnSpan * (x / (2 * columnSpan)) + 2 * c + (2 * (y % 4) + x % 2) % 2 = x := by
      unfold columnOf columnSpan at *
      omega
    have hy' : 4 * r + (2 * (y % 4) + x % 2) / 2 = y := by omega
    refine ⟨(x, y), List.mem_flatMap.2 ⟨_, List.mem_range.2 hfold,
      List.mem_map.2 ⟨2 * (y % 4) + x % 2, List.mem_range.2 (by omega), ?_⟩⟩, ?_⟩
    · rw [hx', hy']
    · simp [hlit, hbit]

/-- The canvas's own width in cells. -/
def canvasWidth (s : Strip) : Nat := s.width / 2 % columnSpan

/-- The last cell column with a lit cell in it, or zero when none has. -/
def lastLitColumn (s : Strip) : Nat :=
  (List.range (min columnSpan ((s.width + 1) / 2))).foldl
    (fun m c => if s.cell 0 c != 0 || s.cell 1 c != 0 then c else m) 0

/-- The number of cell columns the frame shows. -/
def columns (s : Strip) : Nat := max s.canvasWidth s.lastLitColumn + 1

/-- The frame's three lines, top first. -/
def frame (s : Strip) : List (List Char) :=
  let n := s.columns
  (List.range 3).map fun r => (List.range n).map fun c => cellChar (s.cell r c)

/-- The drawing: the frame without blank lines at the end, lines joined by newlines. -/
def draw (s : Strip) : String :=
  String.ofList (['\n'].intercalate (trimBlankLines s.frame))

end Strip

/-- The braille preview of glyphs `first ..= last`, all of which must be present; an empty range
draws nothing. -/
def preview (rom : Rom) (first last : Nat) : Except Fault String := do
  let glyphs ← rom.glyphs? first last
  pure (Strip.draw ⟨glyphs.toArray⟩)

end CharRom.Braille
