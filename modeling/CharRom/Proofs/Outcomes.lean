import CharRom.Cli.Run
import CharRom.Proofs.RangeChecks
import Mathlib.Tactic.SplitIfs

/-!
# How a run of the viewer ends

Whatever its arguments and whatever the file system answers, a run of the viewer ends in one of
five ways, decided in this order: the command line cannot be read (status 255, the fault and the
usage text on the error stream); help is asked for (status 0, the usage text); the ROM file cannot
be read (status 1); the range or the layout is refused (status 1, after the line that reports the
bytes read); or the sheet is printed (status 0), with the braille preview after it when asked for.

A refusal comes from the three checks a sheet makes, in their order, and `rangeFault?` states them
on the command line's own values: glyphs per line given as zero, a last index given below the
first, and a last index, or the first when none is given, at or past the ROM's glyph count. Once
the sheet is accepted the preview cannot fail, so no run prints part of a sheet and then fails.
-/

namespace CharRom

namespace Invocation

/-- The first check that refuses the range and layout of `inv` on a ROM of `size` bytes. -/
def rangeFault? (inv : Invocation) (size : Nat) : Option Fault :=
  let last := inv.last.getD inv.first
  if inv.perLine = some 0 then some .zeroPerLine
  else if last < inv.first then some (.invertedRange inv.first last)
  else if size / 8 ≤ last then some (.glyphOutOfRange last (size / 8) size)
  else none

theorem layout_perLine (inv : Invocation) : inv.layout.perLine = inv.perLine.getD 4 := rfl

theorem perLine_pos {inv : Invocation} (h : inv.perLine ≠ some 0) : 0 < inv.layout.perLine := by
  rw [layout_perLine]
  cases hp : inv.perLine with
  | none => decide
  | some n =>
    rw [hp] at h
    simp only [Option.getD_some]
    exact Nat.pos_of_ne_zero fun hn => h (hn ▸ rfl)

variable {inv : Invocation} {bytes : Array UInt8}

theorem new?_of_rangeFault?_eq_some {fault : Fault} (h : inv.rangeFault? bytes.size = some fault) :
    Sheet.new? ⟨bytes⟩ inv.first (inv.last.getD inv.first) inv.layout = .error fault := by
  unfold rangeFault? at h
  dsimp only at h
  split_ifs at h with hzero hinverted hpast
  · cases h
    apply Sheet.new?_of_perLine_eq_zero
    rw [layout_perLine, hzero]
    rfl
  · cases h
    exact Sheet.new?_of_lt (perLine_pos hzero) hinverted
  · cases h
    exact Sheet.new?_of_glyphCount_le (perLine_pos hzero) (by omega) hpast

theorem new?_of_rangeFault?_eq_none (h : inv.rangeFault? bytes.size = none) :
    ∃ sheet, Sheet.new? ⟨bytes⟩ inv.first (inv.last.getD inv.first) inv.layout = .ok sheet := by
  unfold rangeFault? at h
  dsimp only at h
  split_ifs at h with hzero hinverted hpast
  exact ⟨_, Sheet.new?_of_lt_glyphCount (perLine_pos hzero) (by omega) (by
    show inv.last.getD inv.first < bytes.size / 8
    omega)⟩

end Invocation

namespace Run

/-- How a run on the arguments `args` ends, the file system answering with `read`: the five ways,
in the order the run decides between them. -/
def Ends (args : List String) (read : String → Except IoFault (Array UInt8)) (o : Outcome) :
    Prop :=
  match Invocation.parse? args with
  | .error e => o = ⟨255, "", "chargen: " ++ e.message ++ "\n" ++ Usage.text "chargen" ++ "\n"⟩
  | .ok inv =>
    if inv.help then o = ⟨0, Usage.text "chargen" ++ "\n", ""⟩
    else
      match read inv.file with
      | .error cause => o = ⟨1, "", "chargen: " ++ (Fault.unreadable inv.file cause).message ++ "\n"⟩
      | .ok bytes =>
        let readLine := "Read " ++ toString bytes.size ++ " bytes from " ++ inv.file ++ "\n"
        let last := inv.last.getD inv.first
        match inv.rangeFault? bytes.size with
        | some fault =>
          Sheet.new? ⟨bytes⟩ inv.first last inv.layout = .error fault ∧
            o = ⟨1, readLine, "chargen: " ++ fault.message ++ "\n"⟩
        | none =>
          ∃ sheet preview, Sheet.new? ⟨bytes⟩ inv.first last inv.layout = .ok sheet ∧
            Braille.preview ⟨bytes⟩ inv.first last = .ok preview ∧
            o = ⟨0, readLine ++ sheet.text ++ (if inv.braille then "\n" ++ preview ++ "\n" else ""),
              ""⟩

variable {inv : Invocation} {bytes : Array UInt8}

theorem draw_of_rangeFault?_eq_some {fault : Fault} (h : inv.rangeFault? bytes.size = some fault) :
    draw inv (.ok bytes) =
      failed ("Read " ++ toString bytes.size ++ " bytes from " ++ inv.file ++ "\n") fault := by
  simp only [draw, Invocation.range, Invocation.new?_of_rangeFault?_eq_some h]
  rfl

theorem draw_of_new?_eq_ok {sheet : Sheet} {preview : String}
    (hnew : Sheet.new? ⟨bytes⟩ inv.first (inv.last.getD inv.first) inv.layout = .ok sheet)
    (hpreview : Braille.preview ⟨bytes⟩ inv.first (inv.last.getD inv.first) = .ok preview) :
    draw inv (.ok bytes) = ⟨0, "Read " ++ toString bytes.size ++ " bytes from " ++ inv.file ++
      "\n" ++ sheet.text ++ (if inv.braille then "\n" ++ preview ++ "\n" else ""), ""⟩ := by
  -- the preview is asked of the sheet's own range, which is the one on the command line
  obtain ⟨-, hfirst, hlast, -⟩ := Sheet.eq_of_new?_eq_ok hnew
  simp only [draw, Invocation.range, hnew, hfirst, hlast, hpreview]
  cases inv.braille
  · simp only [Bool.false_eq_true, if_false, String.append_empty]
    rfl
  · simp only [if_true, String.append_assoc]
    rfl

/-- **How a run of the viewer ends.** For every command line and every state of the file system,
the run ends in the one of its five ways that the arguments, the file and the checks on the range
select; a run that draws a sheet always succeeds, with the preview after it when asked for. -/
theorem finish_start_ends (args : List String) (read : String → Except IoFault (Array UInt8)) :
    Ends args read (finish (start "chargen" args) read) := by
  unfold Ends
  cases hparse : Invocation.parse? args with
  | error e =>
    simp only [start, hparse, finish]
    rfl
  | ok inv =>
    by_cases hhelp : inv.help
    · simp only [start, hparse, hhelp, finish, if_true]
    · simp only [start, hparse, hhelp, finish, Bool.false_eq_true, if_false]
      cases hread : read inv.file with
      | error cause =>
        rfl
      | ok bytes =>
        dsimp only
        split
        · rename_i fault hfault
          exact ⟨Invocation.new?_of_rangeFault?_eq_some hfault, draw_of_rangeFault?_eq_some hfault⟩
        · rename_i hfault
          obtain ⟨sheet, hnew⟩ := Invocation.new?_of_rangeFault?_eq_none hfault
          obtain ⟨preview, hpreview⟩ := Braille.exists_preview_of_new?_eq_ok hnew
          exact ⟨sheet, preview, hnew, hpreview, draw_of_new?_eq_ok hnew hpreview⟩

end Run

end CharRom
