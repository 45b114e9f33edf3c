import CharRom.Sheet
import Mathlib.Tactic.Ring

/-!
# Batches cover their range

The batches of width `p` over `first ..= last` are, numbered from zero, the ranges
`first + k * p ..= min (first + k * p + p - 1) last` for `k` below the number of batches, which is
`N / p` rounded up for the `N = last + 1 - first` glyphs of the range. Read in order, their indices
are exactly `first ..= last`, so each glyph of the range is drawn in one batch and no other glyph
is drawn at all.
-/

namespace CharRom.Batch

/-- The number of batches of width `p` over `n` glyphs: `n / p` rounded up. -/
def countFor (p n : Nat) : Nat := (n + p - 1) / p

/-- Batch `k` of width `p` over `first ..= last`. -/
def nth (p first last k : Nat) : Batch := ⟨first + k * p, min (first + k * p + p - 1) last⟩

theorem countFor_succ {p n : Nat} (hp : 0 < p) (hn : 0 < n) :
    countFor p n = countFor p (n - p) + 1 := by
  unfold countFor
  have hsplit : n + p - 1 = (n - 1) + p := by omega
  rw [hsplit, Nat.add_div_right _ hp]
  by_cases hle : p ≤ n
  · rw [show n - p + p - 1 = n - 1 by omega]
  · rw [Nat.div_eq_of_lt (show n - 1 < p by omega),
      Nat.div_eq_of_lt (show n - p + p - 1 < p by omega)]

theorem nth_succ (p first last k : Nat) : nth p first last (k + 1) = nth p (first + p) last k := by
  have hfirst : first + (k + 1) * p = first + p + k * p := by ring
  simp only [nth, hfirst]

/-- The batches are batch `0`, batch `1`, … up to the number of batches. -/
theorem cover_eq_map_nth {p : Nat} (hp : 0 < p) (first last : Nat) :
    cover p first last = (List.range (countFor p (last + 1 - first))).map (nth p first last) := by
  fun_induction cover p first last with
  | case1 first hcond ih =>
    have hcount : countFor p (last + 1 - first) = countFor p (last + 1 - (first + p)) + 1 := by
      rw [countFor_succ hp (by omega), show last + 1 - first - p = last + 1 - (first + p) by omega]
    rw [ih, hcount, List.range_succ_eq_map, List.map_cons, List.map_map]
    congr 1
    · simp [nth]
    · apply List.map_congr_left
      intro k _
      exact (nth_succ p first last k).symm
  | case2 first hcond =>
    have hempty : last + 1 - first = 0 := by omega
    rw [hempty]
    simp [countFor, Nat.div_eq_of_lt (show p - 1 < p by omega)]

/-- Read in order, the batches' indices are exactly `first ..= last`. -/
theorem flatMap_indices_cover {p : Nat} (hp : 0 < p) (first last : Nat) :
    (cover p first last).flatMap indices = List.range' first (last + 1 - first) := by
  fun_induction cover p first last with
  | case1 first hcond ih =>
    rw [List.flatMap_cons, ih]
    unfold indices
    dsimp only
    by_cases hfull : first + p - 1 ≤ last
    · rw [Nat.min_eq_left hfull, show first + p - 1 + 1 - first = p by omega,
        List.range'_append_1, show p + (last + 1 - (first + p)) = last + 1 - first by omega]
    · rw [Nat.min_eq_right (by omega), show last + 1 - (first + p) = 0 by omega,
        List.range'_zero, List.append_nil]
  | case2 first hcond =>
    rw [show last + 1 - first = 0 by omega, List.range'_zero, List.flatMap_nil]

theorem mem_flatMap_indices_cover {p : Nat} (hp : 0 < p) {first last i : Nat} :
    i ∈ (cover p first last).flatMap indices ↔ first ≤ i ∧ i ≤ last := by
  rw [flatMap_indices_cover hp, List.mem_range'_1]
  omega

theorem mem_range_of_mem_indices {p first last : Nat} (hp : 0 < p) {b : Batch}
    (hb : b ∈ cover p first last) {i : Nat} (hi : i ∈ b.indices) : first ≤ i ∧ i ≤ last :=
  (mem_flatMap_indices_cover hp).1 (List.mem_flatMap.2 ⟨b, hb, hi⟩)

theorem exists_mem_cover {p first last : Nat} (hp : 0 < p) {i : Nat} (hfirst : first ≤ i)
    (hlast : i ≤ last) : ∃ b ∈ cover p first last, i ∈ b.indices :=
  List.mem_flatMap.1 ((mem_flatMap_indices_cover hp).2 ⟨hfirst, hlast⟩)

theorem lt_countFor_iff {p n k : Nat} (hp : 0 < p) : k < countFor p n ↔ k * p < n := by
  unfold countFor
  rw [Nat.lt_iff_add_one_le, Nat.le_div_iff_mul_le hp, Nat.add_mul, Nat.one_mul]
  omega

theorem length_cover {p : Nat} (hp : 0 < p) (first last : Nat) :
    (cover p first last).length = countFor p (last + 1 - first) := by
  rw [cover_eq_map_nth hp, List.length_map, List.length_range]

theorem getElem_cover {p : Nat} (hp : 0 < p) {first last k : Nat}
    (hk : k < (cover p first last).length) :
    (cover p first last)[k] = nth p first last k := by
  simp [cover_eq_map_nth hp]

theorem length_indices_nth (p first last k : Nat) :
    (nth p first last k).indices.length = min (first + k * p + p - 1) last + 1 - (first + k * p) := by
  simp [nth, indices]

/-- Every batch before the last is full. -/
theorem length_indices_nth_of_succ_lt {p first last k : Nat} (hp : 0 < p)
    (hk : k + 1 < countFor p (last + 1 - first)) : (nth p first last k).indices.length = p := by
  have hfull : (k + 1) * p < last + 1 - first := (lt_countFor_iff hp).1 hk
  rw [Nat.add_mul, Nat.one_mul] at hfull
  rw [length_indices_nth]
  omega

/-- The last batch holds what the full ones leave. -/
theorem length_indices_nth_pred {p first last : Nat} (hp : 0 < p) (hrange : first ≤ last) :
    (nth p first last (countFor p (last + 1 - first) - 1)).indices.length =
      last + 1 - first - (countFor p (last + 1 - first) - 1) * p := by
  have hpos : 0 < countFor p (last + 1 - first) := (lt_countFor_iff hp).2 (by omega)
  -- batch `count - 1` starts inside the range, and batch `count` would not
  have hin : (countFor p (last + 1 - first) - 1) * p < last + 1 - first :=
    (lt_countFor_iff hp).1 (by omega)
  have hout : last + 1 - first ≤ (countFor p (last + 1 - first) - 1 + 1) * p := by
    rw [Nat.sub_add_cancel hpos]
    exact Nat.not_lt.1 fun h => Nat.lt_irrefl _ ((lt_countFor_iff hp).2 h)
  rw [Nat.add_mul, Nat.one_mul] at hout
  rw [length_indices_nth]
  omega

theorem getLast?_cover {p first last : Nat} (hp : 0 < p) (hrange : first ≤ last) :
    (cover p first last).getLast? =
      some (nth p first last (countFor p (last + 1 - first) - 1)) := by
  have hpos : 0 < countFor p (last + 1 - first) := (lt_countFor_iff hp).2 (by omega)
  rw [cover_eq_map_nth hp, List.getLast?_map, List.getLast?_range, if_neg (by omega),
    Option.map_some]

theorem first_le_last_nth {p first last k : Nat} (hp : 0 < p)
    (hk : k < countFor p (last + 1 - first)) :
    (nth p first last k).first ≤ (nth p first last k).last := by
  have hin : k * p < last + 1 - first := (lt_countFor_iff hp).1 hk
  simp only [nth]
  omega

theorem last_lt_first_nth {p first last i j : Nat} (hp : 0 < p) (hij : i < j) :
    (nth p first last i).last < (nth p first last j).first := by
  have hstep : (i + 1) * p ≤ j * p := Nat.mul_le_mul_right p hij
  rw [Nat.add_mul, Nat.one_mul] at hstep
  simp only [nth]
  omega

/-- **Batches partition their range.** For every range `first ..= last` of `n` glyphs and every
width `p` of at least one, there are `n / p` rounded up batches, batch `k` runs from
`first + k * p` to `first + k * p + p - 1` or to `last`, whichever comes first; each batch is
non-empty and ends before the next begins; read in order their indices are exactly the range;
every batch but the last holds `p` glyphs and the last holds the rest. -/
theorem cover_partitions_range (p first last : Nat) (hp : 0 < p) (hrange : first ≤ last) :
    (cover p first last).length = countFor p (last - first + 1) ∧
    (∀ k (hk : k < (cover p first last).length),
      (cover p first last)[k] = ⟨first + k * p, min (first + k * p + p - 1) last⟩) ∧
    (∀ b ∈ cover p first last, b.first ≤ b.last) ∧
    (cover p first last).Pairwise (fun a b => a.last < b.first) ∧
    (cover p first last).flatMap indices = List.range' first (last - first + 1) ∧
    (∀ k (hk : k + 1 < (cover p first last).length), (cover p first last)[k].indices.length = p) ∧
    (cover p first last).getLast?.map (fun b => b.indices.length) =
      some (last - first + 1 - (countFor p (last - first + 1) - 1) * p) := by
  have hn : last - first + 1 = last + 1 - first := by omega
  have hcover := cover_eq_map_nth hp first last
  rw [hn]
  refine ⟨length_cover hp first last, fun k hk => getElem_cover hp hk, ?_, ?_,
    flatMap_indices_cover hp first last, ?_, ?_⟩
  · intro b hb
    rw [hcover, List.mem_map] at hb
    obtain ⟨k, hk, rfl⟩ := hb
    exact first_le_last_nth hp (List.mem_range.1 hk)
  · rw [hcover, List.pairwise_map]
    exact List.pairwise_lt_range.imp fun hij => last_lt_first_nth hp hij
  · intro k hk
    rw [getElem_cover hp, length_indices_nth_of_succ_lt hp (by rwa [← length_cover hp])]
  · rw [getLast?_cover hp hrange, Option.map_some, length_indices_nth_pred hp hrange]

example : cover 4 3 12 = [⟨3, 6⟩, ⟨7, 10⟩, ⟨11, 12⟩] := by decide +kernel

/-- A width as large as a word holds the whole range in one batch. -/
theorem cover_partitions_range_word_width :
    (cover (2 ^ 64 - 1) 2 15).length = 1 ∧
      (cover (2 ^ 64 - 1) 2 15).flatMap indices = List.range' 2 14 := by
  obtain ⟨hlength, -, -, -, hindices, -, -⟩ :=
    cover_partitions_range (2 ^ 64 - 1) 2 15 (by decide) (by decide)
  exact ⟨hlength.trans (by decide), hindices⟩

end CharRom.Batch

/-! ### On sixty-four-bit words

The machine computes the batches on sixty-four-bit words. The first indices come from stepping
through the range: each step is a checked addition, and the walk ends when the addition overflows
or passes `last`. Each batch's end is an addition that saturates at the largest word, capped at
`last`. On every range of words this is `cover`: a step that would overflow lies past `last`
anyway, and so does an end that saturates. -/

namespace CharRom

/-- Sixty-four-bit arithmetic that checks for overflow: the result, or nothing once it passes the
largest word. -/
def checkedWord (n : Nat) : Option Nat :=
  if n < 2 ^ 64 then some n else none

/-- Sixty-four-bit arithmetic that saturates: the result, or the largest word once it passes it. -/
def saturatingWord (n : Nat) : Nat := min n (2 ^ 64 - 1)

theorem checkedWord_of_lt {n : Nat} (h : n < 2 ^ 64) : checkedWord n = some n := if_pos h

theorem checkedWord_of_le {n : Nat} (h : 2 ^ 64 ≤ n) : checkedWord n = none := if_neg (by omega)

namespace Batch

/-- The batches of width `p` over `first ..= last` as sixty-four-bit code makes them: the first
indices are `first` and then each one before plus `p`, for as long as that addition, checked,
neither overflows nor passes `last`; each batch ends `p - 1` after its first index, the addition
saturating at the largest word, or at `last`, whichever comes first. -/
def coverWord (p first last : Nat) : List Batch :=
  if 0 < p ∧ first ≤ last then
    ⟨first, min (saturatingWord (first + (p - 1))) last⟩ ::
      if (checkedWord (first + p)).isSome then coverWord p (first + p) last else []
  else []
termination_by last + 1 - first

/-- On a range of words the batches the machine makes are `cover`'s: a step that overflows lies
past `last` anyway, and so does an end that saturates. -/
theorem coverWord_eq_cover {p first last : Nat} (hlast : last < 2 ^ 64) :
    coverWord p first last = cover p first last := by
  fun_induction cover p first last with
  | case1 first hcond ih =>
    rw [coverWord, if_pos hcond]
    -- the end saturates only past the largest word, which is past `last`
    have hend : min (saturatingWord (first + (p - 1))) last = min (first + p - 1) last := by
      unfold saturatingWord
      omega
    rw [hend]
    congr 1
    by_cases hstep : first + p < 2 ^ 64
    · rw [checkedWord_of_lt hstep, Option.isSome_some, if_pos rfl, ih]
    · -- the step overflows, so it lies past `last` and `cover` has nothing more either
      rw [checkedWord_of_le (Nat.le_of_not_lt hstep), Option.isSome_none, if_neg Bool.false_ne_true,
        cover_eq_nil (Or.inr (by omega))]
  | case2 first hcond =>
    rw [coverWord, if_neg hcond]

end Batch

end CharRom
