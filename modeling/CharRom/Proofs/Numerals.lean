import CharRom.Glyph
import Mathlib.Tactic.IntervalCases

/-!
# Numerals against the standard library

The sheet writes its counts with `Numeral.decimal` and its offsets and bytes with
`Numeral.hex`. Both are the standard library's `Nat.toDigits`, the hexadecimal one upper-cased,
so a text stated with `toString` and `Nat.toDigits` is the text the sheet writes.

A byte's two padded hexadecimal digits are its high and its low nibble, which makes the byte
readable back from them: `padded_hex_byte_injective`.
-/

namespace CharRom.Numeral

theorem digits_eq_map_toDigits {base : Nat} (hbase : 2 ≤ base) {f : Char → Char}
    (hf : ∀ d < base, digitChar d = f (Nat.digitChar d)) (n : Nat) :
    digits base n = (Nat.toDigits base n).map f := by
  induction n using Nat.strong_induction_on with
  | _ n ih =>
    rw [digits, Nat.toDigits_eq_if (by omega)]
    by_cases hn : n < base
    · rw [if_pos (Or.inl hn), if_pos hn, List.map_singleton, hf n hn]
    · have hlt : n / base < n := Nat.div_lt_self (by omega) (by omega)
      rw [if_neg (by omega), if_neg hn, List.map_append, ih _ hlt, List.map_singleton,
        hf _ (Nat.mod_lt _ (by omega))]

/-- Every character of a numeral is the digit of a value below the base. -/
theorem mem_digits {base : Nat} (hbase : 2 ≤ base) {c : Char} {n : Nat}
    (hc : c ∈ digits base n) : ∃ d < base, c = digitChar d := by
  induction n using Nat.strong_induction_on with
  | _ n ih =>
    rw [digits] at hc
    by_cases hn : n < base
    · rw [if_pos (Or.inl hn), List.mem_singleton] at hc
      exact ⟨n, hn, hc⟩
    · rw [if_neg (by omega), List.mem_append, List.mem_singleton] at hc
      rcases hc with hhigh | hlow
      · exact ih _ (Nat.div_lt_self (by omega) (by omega)) hhigh
      · exact ⟨_, Nat.mod_lt _ (by omega), hlow⟩

theorem decimal_eq_toString (n : Nat) : decimal n = (toString n).toList := by
  have hdigit : ∀ d < 10, digitChar d = id (Nat.digitChar d) := by
    intro d hd
    interval_cases d <;> rfl
  rw [decimal, digits_eq_map_toDigits (by decide) hdigit, List.map_id, Nat.toString_eq_repr,
    Nat.toList_repr]

theorem hex_eq_toDigits (n : Nat) : hex n = (Nat.toDigits 16 n).map Char.toUpper := by
  apply digits_eq_map_toDigits (by decide)
  intro d hd
  interval_cases d <;> rfl

theorem padded_eq_leftpad (width : Nat) (cs : List Char) :
    padded width cs = cs.leftpad width '0' := rfl

theorem toNat_digitChar {d : Nat} (hd : d < 16) :
    (digitChar d).toNat = if d < 10 then 48 + d else 55 + d := by
  interval_cases d <;> rfl

theorem digitChar_injective {d e : Nat} (hd : d < 16) (he : e < 16)
    (h : digitChar d = digitChar e) : d = e := by
  have hnat := congrArg Char.toNat h
  rw [toNat_digitChar hd, toNat_digitChar he] at hnat
  split_ifs at hnat <;> omega

/-- A byte's padded hexadecimal numeral is its high nibble's digit, then its low nibble's. -/
theorem padded_hex_byte {n : Nat} (hn : n < 256) :
    padded 2 (hex n) = [digitChar (n / 16), digitChar (n % 16)] := by
  unfold hex
  by_cases hlow : n < 16
  · rw [digits, if_pos (Or.inl hlow), Nat.div_eq_of_lt hlow, Nat.mod_eq_of_lt hlow]
    rfl
  · rw [digits, if_neg (by omega), digits, if_pos (Or.inl (by omega))]
    rfl

theorem length_padded_hex_byte {n : Nat} (hn : n < 256) : (padded 2 (hex n)).length = 2 := by
  rw [padded_hex_byte hn]
  rfl

theorem padded_hex_byte_injective {n m : Nat} (hn : n < 256) (hm : m < 256)
    (h : padded 2 (hex n) = padded 2 (hex m)) : n = m := by
  rw [padded_hex_byte hn, padded_hex_byte hm] at h
  obtain ⟨hhigh, hlow⟩ : digitChar (n / 16) = digitChar (m / 16) ∧
      digitChar (n % 16) = digitChar (m % 16) := by
    simpa using h
  have hdiv := digitChar_injective (by omega) (by omega) hhigh
  have hmod := digitChar_injective (Nat.mod_lt _ (by decide)) (Nat.mod_lt _ (by decide)) hlow
  omega

end CharRom.Numeral
