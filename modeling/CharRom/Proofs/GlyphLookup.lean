import CharRom.Proofs.PlainText
import CharRom.Proofs.ScanQueues

/-!
# Looking glyphs up

Glyph `i` of a ROM is bytes `8 * i` to `8 * i + 7`. The lookup checks that these lie inside the
ROM with one comparison, which holds exactly when `i` is below the number of whole glyphs,
`size / 8`: the bytes after the last whole glyph belong to no glyph, and the glyphs found are a
prefix of the indices. A glyph found reads its bytes, its rows and its row scan straight from the
ROM (`Glyph.ReadsFrom`).

On sixty-four-bit words the same lookup is a chain of steps that can each fail: the offset `i * 8`
and the end `offset + 8` by checked arithmetic, then the slice between them. On every ROM whose
size is a word, the chain gives exactly the bytes the lookup gives (`glyph?_bytes_eq_checkedSlice?`):
an index large enough to overflow either step lies past the ROM anyway.
-/

namespace CharRom

namespace Rom

/-- The bytes of glyph `i` taken step by step on sixty-four-bit words: the offset `i * 8` and the
end `offset + 8` by checked arithmetic, then the slice between them, which has to hold eight
bytes. -/
def checkedSlice? (rom : Rom) (i : Nat) : Option (Array UInt8) :=
  (checkedWord (i * 8)).bind fun offset =>
    (checkedWord (offset + 8)).bind fun stop =>
      (rom.slice? offset stop).bind fun bytes => if bytes.size = 8 then some bytes else none

end Rom

/-- Glyph `g` is glyph `i` of `rom` as the ROM's bytes give it: index `i` at offset `8 * i`; its
eight bytes end within the ROM's whole glyphs and are its bytes `8 * i` to `8 * i + 7`; row `r` is
byte `8 * i + r` for `r < 8`, and there is no row past the eighth; its rows scan as the queue of
those bytes, the top one first. -/
structure Glyph.ReadsFrom (g : Glyph) (rom : Rom) (i : Nat) : Prop where
  index_eq : g.index = i
  offset_eq : g.offset = 8 * i
  end_le : g.offset + 8 ≤ rom.size - rom.size % 8
  slice?_eq : rom.slice? (8 * i) (8 * i + 8) = some g.bytes.toArray
  row?_of_lt : ∀ r < 8, ∃ b, rom.byte? (8 * i + r) = some b ∧ g.row? r = some ⟨b⟩
  row?_of_le : ∀ r, 8 ≤ r → g.row? r = none
  scan_answersAs : g.scan.AnswersAs ((rom.bytes.extract (8 * i) (8 * i + 8)).toList.map Row.mk)

theorem Glyph.row?_eq_none {g : Glyph} {r : Nat} (h : 8 ≤ r) : g.row? r = none := by
  rw [Glyph.row?, dif_neg (by omega)]

namespace Rom

variable {rom : Rom} {i : Nat}

theorem lt_glyphCount_iff : i < rom.glyphCount ↔ 8 * i + 8 ≤ rom.size := by
  unfold glyphCount
  omega

theorem exists_glyph?_eq_ok_iff : (∃ g, rom.glyph? i = .ok g) ↔ i < rom.glyphCount := by
  refine ⟨fun ⟨_, hg⟩ => lt_glyphCount_of_glyph?_eq_ok hg, fun h => ⟨_, glyph?_eq_ok h⟩⟩

theorem glyphAt_bytes_eq_extract (h : 8 * i + 8 ≤ rom.size) :
    (rom.glyphAt i).bytes = (rom.bytes.extract (8 * i) (8 * i + 8)).toList := by
  have hsize : rom.size = rom.bytes.size := rfl
  rw [glyphAt_bytes]
  apply List.ext_getElem
  · simp
    omega
  · intro r h1 _
    have hin : 8 * i + r < rom.bytes.size := by
      have hr : r < 8 := by simpa using h1
      omega
    simp [hin]

theorem slice?_glyphAt (h : 8 * i + 8 ≤ rom.size) :
    rom.slice? (8 * i) (8 * i + 8) = some (rom.glyphAt i).bytes.toArray := by
  rw [slice?, if_pos ⟨by omega, h⟩, glyphAt_bytes_eq_extract h, Array.toArray_toList]

theorem byte?_eq_some {o : Nat} (h : o < rom.size) : rom.byte? o = some rom.bytes[o] :=
  Array.getElem?_eq_getElem h

/-- Every glyph below the glyph count reads its bytes, rows and row scan from the ROM. -/
theorem glyphAt_readsFrom (h : i < rom.glyphCount) : (rom.glyphAt i).ReadsFrom rom i := by
  have hin : 8 * i + 8 ≤ rom.size := lt_glyphCount_iff.1 h
  -- the glyph's eight bytes end at a multiple of eight, so before the trailing partial glyph
  have hend : 8 * i + 8 ≤ rom.size - rom.size % 8 := by omega
  refine ⟨rfl, rfl, hend, slice?_glyphAt hin, fun r hr => ?_, fun r hr => Glyph.row?_eq_none hr,
    ?_⟩
  · have hbyte : 8 * i + r < rom.bytes.size := by
      have : rom.size = rom.bytes.size := rfl
      omega
    refine ⟨rom.bytes[8 * i + r], byte?_eq_some hbyte, ?_⟩
    rw [Glyph.row?, dif_pos hr, glyphAt_row]
    simp [hbyte]
  · rw [← glyphAt_bytes_eq_extract hin]
    exact Scan.answersAs_ofList _

theorem checkedSlice?_eq_none (h : rom.size < 8 * i + 8) : rom.checkedSlice? i = none := by
  -- the offset or the end overflows, or else the slice would end past the ROM
  unfold checkedSlice?
  by_cases hmul : i * 8 < 2 ^ 64
  · rw [checkedWord_of_lt hmul, Option.bind_some]
    by_cases hadd : i * 8 + 8 < 2 ^ 64
    · rw [checkedWord_of_lt hadd, Option.bind_some, slice?, if_neg (by omega), Option.bind_none]
    · rw [checkedWord_of_le (Nat.le_of_not_lt hadd), Option.bind_none]
  · rw [checkedWord_of_le (Nat.le_of_not_lt hmul), Option.bind_none]

theorem checkedSlice?_eq_some (hsize : rom.size < 2 ^ 64) (h : 8 * i + 8 ≤ rom.size) :
    rom.checkedSlice? i = some (rom.glyphAt i).bytes.toArray := by
  have hslice : rom.slice? (i * 8) (i * 8 + 8) = some (rom.glyphAt i).bytes.toArray := by
    rw [Nat.mul_comm i 8]
    exact slice?_glyphAt h
  unfold checkedSlice?
  rw [checkedWord_of_lt (by omega), Option.bind_some, checkedWord_of_lt (by omega),
    Option.bind_some, hslice, Option.bind_some, if_pos (by simp [Glyph.bytes])]

/-- On a ROM whose size is a sixty-four-bit word, the lookup gives exactly the bytes the checked
chain gives, and fails exactly where it fails. -/
theorem glyph?_bytes_eq_checkedSlice? (hsize : rom.size < 2 ^ 64) :
    (rom.glyph? i).toOption.map (·.bytes.toArray) = rom.checkedSlice? i := by
  by_cases h : i < rom.glyphCount
  · rw [glyph?_eq_ok h, checkedSlice?_eq_some hsize (lt_glyphCount_iff.1 h)]
    rfl
  · rw [glyph?_eq_error (Nat.le_of_not_lt h),
      checkedSlice?_eq_none (Nat.lt_of_not_le (mt lt_glyphCount_iff.2 h))]
    rfl

end Rom

/-- **Looking a glyph up.** Glyph `i` of a ROM is found exactly when `i` is below the number of
whole glyphs, `size / 8`, and the glyph found reads its bytes `8 * i` to `8 * i + 7`, which lie
within the whole glyphs, along with its rows and its row scan. Any other index is refused with the
fault naming it, the glyph count and the size. The glyphs found are a prefix of the indices, and on
a ROM whose size is a sixty-four-bit word the lookup agrees with the checked chain of offset, end
and slice, so no index overflows it. -/
theorem glyph?_reads_whole_glyphs (rom : Rom) (i : Nat) :
    ((∃ g, rom.glyph? i = .ok g) ↔ i < rom.size / 8) ∧
    (∀ g, rom.glyph? i = .ok g → g.ReadsFrom rom i) ∧
    (rom.size / 8 ≤ i → rom.glyph? i = .error (.glyphOutOfRange i (rom.size / 8) rom.size)) ∧
    (∀ j ≤ i, (∃ g, rom.glyph? i = .ok g) → ∃ g, rom.glyph? j = .ok g) ∧
    (rom.size < 2 ^ 64 →
      (rom.glyph? i).toOption.map (·.bytes.toArray) = rom.checkedSlice? i) := by
  refine ⟨Rom.exists_glyph?_eq_ok_iff, fun g hg => ?_, fun h => Rom.glyph?_eq_error h,
    fun j hj hi => ?_, Rom.glyph?_bytes_eq_checkedSlice?⟩
  · have h := Rom.lt_glyphCount_of_glyph?_eq_ok hg
    rw [Rom.glyph?_eq_ok h] at hg
    cases hg
    exact Rom.glyphAt_readsFrom h
  · -- a smaller index is below the glyph count too
    have h := Rom.exists_glyph?_eq_ok_iff.1 hi
    exact Rom.exists_glyph?_eq_ok_iff.2 (by omega)

/-- The last index whose offset is a word but whose end is not is refused by the chain, where
the end overflows, and by the lookup alike. -/
theorem glyph?_reads_whole_glyphs_last_word :
    (⟨Array.replicate 19 0⟩ : Rom).glyph? 2305843009213693951 =
        .error (.glyphOutOfRange 2305843009213693951 2 19) ∧
      (⟨Array.replicate 19 0⟩ : Rom).checkedSlice? 2305843009213693951 = none := by
  have h := glyph?_reads_whole_glyphs ⟨Array.replicate 19 0⟩ 2305843009213693951
  have herror := h.2.2.1 (by decide)
  refine ⟨herror, ?_⟩
  rw [← h.2.2.2.2 (by decide), herror]
  rfl

end CharRom
