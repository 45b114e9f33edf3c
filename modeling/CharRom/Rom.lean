import CharRom.Fault
import CharRom.Glyph

/-!
# Character ROMs

A character ROM is a run of bytes read eight at a time: glyph `i` is bytes `8 * i` to
`8 * i + 7`, and trailing bytes that do not fill a glyph belong to none. Looking a glyph up
succeeds exactly when its eight bytes lie inside the ROM; `glyphs?` collects a range of glyphs in
order and stops at the first one missing.
-/

namespace CharRom

/-- The bytes of a character ROM. -/
structure Rom where
  bytes : Array UInt8
  deriving DecidableEq, Repr, Inhabited

namespace Rom

/-- The number of bytes. -/
def size (rom : Rom) : Nat := rom.bytes.size

/-- Whether the ROM holds no bytes. -/
def isEmpty (rom : Rom) : Bool := rom.bytes.isEmpty

/-- The number of whole glyphs. -/
def glyphCount (rom : Rom) : Nat := rom.size / 8

/-- Glyph `index` as the ROM's bytes give it, bytes past the end reading as zero. -/
def glyphAt (rom : Rom) (index : Nat) : Glyph :=
  ⟨index, Vector.ofFn fun r => rom.bytes.getD (8 * index + r.val) 0⟩

/-- Glyph `index`, when its eight bytes lie inside the ROM. -/
def glyph? (rom : Rom) (index : Nat) : Except Fault Glyph :=
  if 8 * index + 8 ≤ rom.size then .ok (rom.glyphAt index)
  else .error (.glyphOutOfRange index rom.glyphCount rom.size)

/-- Glyphs `first` to `last` in order, or the fault of the first one missing. -/
def glyphs? (rom : Rom) (first last : Nat) : Except Fault (List Glyph) :=
  go first
where
  /-- Glyphs `i` to `last`. -/
  go (i : Nat) : Except Fault (List Glyph) :=
    if i ≤ last then do
      let g ← rom.glyph? i
      let rest ← go (i + 1)
      pure (g :: rest)
    else pure []
  termination_by last + 1 - i

/-- Byte `i`, if the ROM has one. -/
def byte? (rom : Rom) (i : Nat) : Option UInt8 := rom.bytes[i]?

/-- Bytes `lo` up to but not including `hi`, when `lo ≤ hi` and both lie within the ROM. -/
def slice? (rom : Rom) (lo hi : Nat) : Option (Array UInt8) :=
  if lo ≤ hi ∧ hi ≤ rom.size then some (rom.bytes.extract lo hi) else none

/-- The size in bytes and in glyphs, as a sentence. -/
def summary (rom : Rom) : String :=
  toString rom.size ++ " bytes (" ++ toString rom.glyphCount ++ " glyphs)"

/-- The size in bytes and in glyphs, as a record. -/
def describe (rom : Rom) : String :=
  "Rom \x7b len: " ++ toString rom.size ++ ", glyphs: " ++ toString rom.glyphCount ++ " \x7d"

/-- A glyph is found exactly when its index is below the glyph count, and it is then the glyph the
ROM's bytes give. -/
theorem glyph?_eq (rom : Rom) (index : Nat) :
    rom.glyph? index = if index < rom.glyphCount then .ok (rom.glyphAt index)
      else .error (.glyphOutOfRange index rom.glyphCount rom.size) := by
  unfold glyph?
  by_cases h : 8 * index + 8 ≤ rom.size
  · rw [if_pos h, if_pos (by unfold glyphCount; omega)]
  · rw [if_neg h, if_neg (by unfold glyphCount; omega)]

theorem lt_glyphCount_of_glyph?_eq_ok {rom : Rom} {index : Nat} {g : Glyph}
    (h : rom.glyph? index = .ok g) : index < rom.glyphCount := by
  unfold glyph? at h
  split at h
  · unfold glyphCount
    omega
  · cases h

end Rom

end CharRom
