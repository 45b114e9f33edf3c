import CharRom.Braille
import CharRom.Sheet

/-!
# Checking a range of glyphs

Two paths check that a range of glyphs lies inside a ROM. A sheet looks up only the range's last
glyph; the braille preview looks up every glyph in order and stops at the first one missing. The
glyphs present are exactly those below the glyph count, a prefix of the indices, so the two paths
refuse the same non-empty ranges: when the last glyph is present every earlier one is, and when it
is not, the first one missing is the later of the range's start and the glyph count.

They differ on inverted ranges, which a sheet refuses and the preview draws as the empty text, and
in the index they report.
-/

namespace CharRom

namespace Rom

theorem glyph?_eq_ok {rom : Rom} {i : Nat} (h : i < rom.glyphCount) :
    rom.glyph? i = .ok (rom.glyphAt i) := by
  rw [glyph?_eq, if_pos h]

theorem glyph?_eq_error {rom : Rom} {i : Nat} (h : rom.glyphCount ≤ i) :
    rom.glyph? i = .error (.glyphOutOfRange i rom.glyphCount rom.size) := by
  rw [glyph?_eq, if_neg (by omega)]

theorem glyphs?_go_eq (rom : Rom) (last i : Nat) :
    glyphs?.go rom last i = if i ≤ last ∧ rom.glyphCount ≤ last then
      .error (.glyphOutOfRange (max i rom.glyphCount) rom.glyphCount rom.size)
    else .ok ((List.range' i (last + 1 - i)).map rom.glyphAt) := by
  fun_induction glyphs?.go rom last i with
  | case1 i hi ih =>
    by_cases hg : i < rom.glyphCount
    · rw [glyph?_eq_ok hg, ih]
      by_cases hend : rom.glyphCount ≤ last
      · -- glyph `i` is there, so the first one missing lies further on, at the glyph count
        rw [if_pos ⟨by omega, hend⟩, if_pos ⟨hi, hend⟩, Nat.max_eq_right (by omega),
          Nat.max_eq_right (by omega)]
        rfl
      · rw [if_neg (by omega), if_neg (by omega),
          show last + 1 - i = (last + 1 - (i + 1)) + 1 by omega, List.range'_succ]
        rfl
    · rw [glyph?_eq_error (by omega), if_pos ⟨hi, by omega⟩, Nat.max_eq_left (by omega)]
      rfl
  | case2 i hi =>
    rw [if_neg (by omega), show last + 1 - i = 0 by omega]
    rfl

/-- Collecting glyphs `first ..= last` fails at the first glyph missing, the later of `first` and
the glyph count, and otherwise gives every glyph of the range in order. -/
theorem glyphs?_eq (rom : Rom) (first last : Nat) :
    rom.glyphs? first last = if first ≤ last ∧ rom.glyphCount ≤ last then
      .error (.glyphOutOfRange (max first rom.glyphCount) rom.glyphCount rom.size)
    else .ok ((List.range' first (last + 1 - first)).map rom.glyphAt) :=
  glyphs?_go_eq rom last first

end Rom

namespace Sheet

variable {rom : Rom} {first last : Nat} {layout : Layout}

theorem new?_of_perLine_eq_zero (h : layout.perLine = 0) :
    Sheet.new? rom first last layout = .error .zeroPerLine := by
  rw [new?, dif_pos h]

theorem new?_of_lt (hp : 0 < layout.perLine) (h : last < first) :
    Sheet.new? rom first last layout = .error (.invertedRange first last) := by
  rw [new?, dif_neg (by omega), dif_pos h]

theorem new?_of_glyphCount_le (hp : 0 < layout.perLine) (hrange : first ≤ last)
    (h : rom.glyphCount ≤ last) :
    Sheet.new? rom first last layout =
      .error (.glyphOutOfRange last rom.glyphCount rom.size) := by
  unfold new?
  rw [dif_neg (by omega), dif_neg (by omega)]
  split
  · rename_i g hg
    exact absurd (Rom.lt_glyphCount_of_glyph?_eq_ok hg) (by omega)
  · rename_i e hg
    rw [Rom.glyph?_eq_error h] at hg
    cases hg
    rfl

theorem new?_of_lt_glyphCount (hp : 0 < layout.perLine) (hrange : first ≤ last)
    (h : last < rom.glyphCount) :
    Sheet.new? rom first last layout = .ok ⟨rom, first, last, layout, hp, hrange, h⟩ := by
  unfold new?
  rw [dif_neg (by omega), dif_neg (by omega)]
  split
  · rfl
  · rename_i e hg
    rw [Rom.glyph?_eq_ok h] at hg
    cases hg

/-- A sheet is made exactly of what was asked for. -/
theorem eq_of_new?_eq_ok {s : Sheet} (h : Sheet.new? rom first last layout = .ok s) :
    s.rom = rom ∧ s.first = first ∧ s.last = last ∧ s.layout = layout := by
  by_cases hp : layout.perLine = 0
  · rw [new?_of_perLine_eq_zero hp] at h
    cases h
  by_cases hrange : last < first
  · rw [new?_of_lt (by omega) hrange] at h
    cases h
  by_cases hg : last < rom.glyphCount
  · rw [new?_of_lt_glyphCount (by omega) (by omega) hg] at h
    cases h
    exact ⟨rfl, rfl, rfl, rfl⟩
  · rw [new?_of_glyphCount_le (by omega) (by omega) (by omega)] at h
    cases h

/-- With at least one glyph a line, a sheet refuses an inverted range, then a range whose last
glyph is missing, and is made otherwise. -/
theorem new?_of_perLine_pos (hp : 0 < layout.perLine) :
    Sheet.new? rom first last layout =
      if hr : last < first then .error (.invertedRange first last)
      else if hg : last < rom.glyphCount then
        .ok ⟨rom, first, last, layout, hp, Nat.le_of_not_lt hr, hg⟩
      else .error (.glyphOutOfRange last rom.glyphCount rom.size) := by
  split
  · next hr => exact new?_of_lt hp hr
  · split
    · next hr hg => exact new?_of_lt_glyphCount hp (by omega) hg
    · next hr hg => exact new?_of_glyphCount_le hp (by omega) (by omega)

theorem new?_eq_zeroPerLine_iff :
    Sheet.new? rom first last layout = .error .zeroPerLine ↔ layout.perLine = 0 := by
  refine ⟨fun h => ?_, new?_of_perLine_eq_zero⟩
  rcases Nat.eq_zero_or_pos layout.perLine with hzero | hp
  · exact hzero
  · -- every other outcome is a range fault or a sheet
    rw [new?_of_perLine_pos hp] at h
    split at h
    · cases h
    · split at h <;> cases h

theorem new?_eq_invertedRange_iff (hp : 0 < layout.perLine) :
    Sheet.new? rom first last layout = .error (.invertedRange first last) ↔ last < first := by
  rw [new?_of_perLine_pos hp]
  split
  · next hr => simp [hr]
  · next hr => split <;> simp [hr]

theorem new?_eq_glyphOutOfRange_iff (hp : 0 < layout.perLine) (hrange : first ≤ last) :
    Sheet.new? rom first last layout = .error (.glyphOutOfRange last rom.glyphCount rom.size) ↔
      rom.glyphCount ≤ last := by
  rw [new?_of_perLine_pos hp, dif_neg (by omega)]
  split
  · next hg => simp [Nat.not_le.2 hg]
  · next hg => simp [Nat.le_of_not_lt hg]

/-- Every glyph up to the last one a sheet was made with is present: the glyphs present are those
below the glyph count. -/
theorem glyph?_eq_ok_of_le_last (s : Sheet) {i : Nat} (hi : i ≤ s.last) :
    s.rom.glyph? i = .ok (s.rom.glyphAt i) :=
  Rom.glyph?_eq_ok (Nat.lt_of_le_of_lt hi s.last_lt_glyphCount)

theorem count_pos (s : Sheet) : 1 ≤ s.count := by
  unfold count
  omega

/-- A sheet holds no more glyphs than its ROM, so counting them cannot overflow a word the ROM's
glyph count fits in. -/
theorem count_le_glyphCount (s : Sheet) : s.count ≤ s.rom.glyphCount := by
  have hlast := s.last_lt_glyphCount
  unfold count
  omega

/-- **How a sheet checks its range.** A sheet refuses a layout of no glyphs a line, and only that
with `zeroPerLine`; otherwise an inverted range, and only that with `invertedRange`; otherwise a
range whose last glyph is missing, and only that with `glyphOutOfRange` naming the last glyph.
Any other request makes the sheet of exactly that range and layout, on which every glyph of the
range is present and the count is between one and the ROM's glyph count. -/
theorem new?_checks_in_order (rom : Rom) (first last : Nat) (layout : Layout) :
    (Sheet.new? rom first last layout = .error .zeroPerLine ↔ layout.perLine = 0) ∧
    (0 < layout.perLine →
      (Sheet.new? rom first last layout = .error (.invertedRange first last) ↔ last < first)) ∧
    (0 < layout.perLine → first ≤ last →
      (Sheet.new? rom first last layout = .error (.glyphOutOfRange last rom.glyphCount rom.size) ↔
        rom.glyphCount ≤ last)) ∧
    (0 < layout.perLine → first ≤ last → last < rom.glyphCount →
      ∃ s, Sheet.new? rom first last layout = .ok s ∧
        s.rom = rom ∧ s.first = first ∧ s.last = last ∧ s.layout = layout ∧
        (∀ i, first ≤ i → i ≤ last → rom.glyph? i = .ok (rom.glyphAt i)) ∧
        s.count = last - first + 1 ∧ 1 ≤ s.count ∧ s.count ≤ rom.glyphCount) := by
  refine ⟨new?_eq_zeroPerLine_iff, new?_eq_invertedRange_iff, new?_eq_glyphOutOfRange_iff, ?_⟩
  intro hp hrange hlast
  let s : Sheet := ⟨rom, first, last, layout, hp, hrange, hlast⟩
  refine ⟨s, new?_of_lt_glyphCount hp hrange hlast, rfl, rfl, rfl, rfl, ?_, rfl, s.count_pos,
    s.count_le_glyphCount⟩
  intro i _ hi
  exact s.glyph?_eq_ok_of_le_last hi

/-- A range that ends at the largest word is refused for its last glyph, not counted. -/
theorem new?_checks_in_order_top :
    Sheet.new? ⟨Array.replicate 32 0⟩ 0 18446744073709551615 {} =
      .error (.glyphOutOfRange 18446744073709551615 4 32) :=
  ((new?_checks_in_order ⟨Array.replicate 32 0⟩ 0 18446744073709551615 {}).2.2.1 (by decide)
    (by decide)).2 (by decide)

end Sheet

namespace Braille

theorem preview_eq (rom : Rom) (first last : Nat) :
    preview rom first last = if first ≤ last ∧ rom.glyphCount ≤ last then
      .error (.glyphOutOfRange (max first rom.glyphCount) rom.glyphCount rom.size)
    else .ok (Strip.draw ⟨((List.range' first (last + 1 - first)).map rom.glyphAt).toArray⟩) := by
  unfold preview
  rw [Rom.glyphs?_eq]
  split <;> rfl

theorem preview_of_lt {rom : Rom} {first last : Nat} (h : last < first) :
    preview rom first last = .ok "" := by
  rw [preview_eq, if_neg (by omega), show last + 1 - first = 0 by omega, List.range'_zero,
    List.map_nil]
  rfl

/-- Every range a sheet accepts, the preview draws. -/
theorem exists_preview_of_new?_eq_ok {rom : Rom} {first last : Nat} {layout : Layout} {s : Sheet}
    (h : Sheet.new? rom first last layout = .ok s) : ∃ text, preview rom first last = .ok text := by
  -- a sheet's range ends below the glyph count, so no glyph of it is missing
  have hlast := s.last_lt_glyphCount
  obtain ⟨hrom, -, hs, -⟩ := Sheet.eq_of_new?_eq_ok h
  rw [preview_eq, if_neg (by rw [← hrom, ← hs]; omega)]
  exact ⟨_, rfl⟩

/-- **The preview and the sheet check a range alike.** The preview of `first ..= last` fails
exactly when the range is not inverted and runs past the glyph count, and then names the first
glyph missing, where a sheet names the range's last glyph. An inverted range draws as the empty
text where a sheet refuses it. So every range a sheet accepts, the preview draws. -/
theorem preview_checks_range_as_sheet (rom : Rom) (first last : Nat) (layout : Layout) :
    (first ≤ last → rom.glyphCount ≤ last →
      preview rom first last =
        .error (.glyphOutOfRange (max first rom.glyphCount) rom.glyphCount rom.size) ∧
      (0 < layout.perLine → Sheet.new? rom first last layout =
        .error (.glyphOutOfRange last rom.glyphCount rom.size))) ∧
    ((last < first ∨ last < rom.glyphCount) → ∃ text, preview rom first last = .ok text) ∧
    (last < first → preview rom first last = .ok "" ∧
      (0 < layout.perLine →
        Sheet.new? rom first last layout = .error (.invertedRange first last))) ∧
    (∀ s, Sheet.new? rom first last layout = .ok s →
      ∃ text, preview rom s.first s.last = .ok text) := by
  refine ⟨?_, ?_, ?_, ?_⟩
  · intro hrange hpast
    refine ⟨?_, fun hp => Sheet.new?_of_glyphCount_le hp hrange hpast⟩
    rw [preview_eq, if_pos ⟨hrange, hpast⟩]
  · intro hin
    rw [preview_eq, if_neg (by omega)]
    exact ⟨_, rfl⟩
  · intro hinv
    exact ⟨preview_of_lt hinv, fun hp => Sheet.new?_of_lt hp hinv⟩
  · intro s hs
    obtain ⟨-, hfirst, hlast, -⟩ := Sheet.eq_of_new?_eq_ok hs
    rw [hfirst, hlast]
    exact exists_preview_of_new?_eq_ok hs

theorem preview_checks_range_as_sheet_past_end :
    preview ⟨Array.replicate 16 0⟩ 1 3 = .error (.glyphOutOfRange 2 2 16) ∧
      Sheet.new? ⟨Array.replicate 16 0⟩ 1 3 {} = .error (.glyphOutOfRange 3 2 16) := by
  have h := (preview_checks_range_as_sheet ⟨Array.replicate 16 0⟩ 1 3 {}).1
    (by decide) (by decide)
  exact ⟨h.1, h.2 (by decide)⟩

end Braille

end CharRom
