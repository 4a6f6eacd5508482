import Owl.Model.Runtime.Strings
import Owl.ToMathlib.Except

/-! # Slices of text

The bounds of a slice are 61-bit integers, but the start is narrowed to an `int` before it is compared
with the end. A start that does not fit can look like one before the end, and even before the text; where the
difference wraps around, it is negative again and the slice stops as it should.
-/

namespace Owl.Runtime

variable {text : Bytes} {start stop : Term}

/-- A slice has the bytes between its bounds where there are any, and stops with its error otherwise. -/
def SlicesExactly (text : Bytes) (start stop : Term) : Prop :=
  let first := (intOf start).toNat
  let last := min (intOf stop).toNat text.length
  stringSlice text start stop =
    if first < last then .ok ((text.drop first).take (last - first))
    else .error (.stopped "Slice size must be more over 0")

/-- Text without a zero byte that is short enough for an `int`; the heap has 131070 bytes. -/
structure IsText (text : Bytes) : Prop where
  ended : ∀ c ∈ text, c ≠ 0
  short : text.length < 2 ^ 31

theorem toInt_of_lt {word : ℕ} (small : word < 2 ^ 31) : toInt word = word := by
  rw [toInt]
  omega

private theorem textOf_append_zero {buffer : Bytes} (ended : ∀ c ∈ buffer, c ≠ 0) : textOf (buffer ++ [0]) = buffer := by
  rw [textOf, List.takeWhile_append_of_pos (by simpa using ended)]
  simp

private theorem wrapInt_of_fits {value : ℤ} (lower : -2 ^ 31 ≤ value) (upper : value < 2 ^ 31) : wrapInt value = value := by
  rw [wrapInt]
  omega

/-- A slice whose bounds fit. -/
private theorem stringSlice_of_lt (isText : IsText text) (small : (intOf start).toNat < 2 ^ 31) :
    SlicesExactly text start stop := by
  have short := isText.short
  have le : min (intOf stop).toNat text.length ≤ text.length := min_le_right ..
  have fits : toInt (min (intOf stop).toNat text.length) = min (intOf stop).toNat text.length := toInt_of_lt (by omega)
  unfold SlicesExactly stringSlice
  dsimp only
  rw [toInt_of_lt small, fits]
  generalize min (intOf stop).toNat text.length = last at le ⊢
  generalize (intOf start).toNat = first at small ⊢
  rw [wrapInt_of_fits (by omega) (by omega)]
  by_cases some' : first < last
  · rw [if_neg (by omega), copyFrom, if_pos (by omega), Except.ok_bind, if_pos some']
    have size : ((last : ℤ) - first).toNat = last - first := by omega
    have inside : ((text ++ [0]).drop first).take (last - first) = (text.drop first).take (last - first) := by
      rw [List.drop_append_of_le_length (by omega), List.take_append_of_le_length (by simp; omega)]
    rw [Int.toNat_natCast, size, inside, textOf_append_zero]
    · rfl
    · exact fun c member => isText.ended c (List.mem_of_mem_drop (List.mem_of_mem_take member))
  · rw [if_pos (by omega), if_neg some']
    rfl

/-- The size that is computed for a start from `2 ^ 31` on is not positive exactly when the low word of the start is
no smaller than the end and no larger than the end and half the words. -/
private theorem wrapInt_lt_one_iff {last word : ℕ} (small : last < 2 ^ 31) :
    wrapInt (last - toInt word) < 1 ↔ last ≤ word % 2 ^ 32 ∧ word % 2 ^ 32 ≤ last + 2 ^ 31 := by
  rw [wrapInt, toInt]
  omega

/-- A slice is exact if and only if its start fits an `int`, or the low word of the start is from the end on by at
most half the words. -/
theorem slicesExactly_iff (isText : IsText text) :
    SlicesExactly text start stop ↔ (intOf start).toNat < 2 ^ 31 ∨
      min (intOf stop).toNat text.length ≤ (intOf start).toNat % 2 ^ 32 ∧
        (intOf start).toNat % 2 ^ 32 ≤ min (intOf stop).toNat text.length + 2 ^ 31 := by
  by_cases small : (intOf start).toNat < 2 ^ 31
  · exact iff_of_true (stringSlice_of_lt isText small) (.inl small)
  have short := isText.short
  have le : min (intOf stop).toNat text.length ≤ text.length := min_le_right ..
  have fits : toInt (min (intOf stop).toNat text.length) = min (intOf stop).toNat text.length := toInt_of_lt (by omega)
  rw [or_iff_right small]
  unfold SlicesExactly stringSlice
  dsimp only
  rw [fits]
  have after : ¬ (intOf start).toNat < min (intOf stop).toNat text.length := by omega
  rw [if_neg after]
  generalize min (intOf stop).toNat text.length = last at le ⊢
  rw [← wrapInt_lt_one_iff (Nat.lt_of_le_of_lt le short)]
  generalize toInt (intOf start).toNat = first
  constructor
  · intro stops
    by_contra before
    rw [if_neg before, copyFrom] at stops
    split_ifs at stops
    · cases stops
    · cases stops
  · intro negative
    rw [if_pos negative]
    rfl

/-- `"ab"` from 2 ^ 32 on: the start becomes 0, and the whole text is returned. -/
theorem slicesExactly_fails : ¬ ∀ text start stop, IsText text → SlicesExactly text start stop := by
  intro exact'
  have isText : IsText [97, 98] := ⟨by simp, by decide⟩
  exact absurd (exact' [97, 98] (intFrom 4294967296) (intFrom 2) isText) (by unfold SlicesExactly; decide)

/-- `"ab"` from 2 ^ 31 to 2: the difference of the bounds wraps around, and the error is the right one. -/
theorem slicesExactly_last : SlicesExactly [97, 98] (intFrom 2147483648) (intFrom 2) :=
  (slicesExactly_iff ⟨by simp, by decide⟩).mpr (.inr (by decide))

end Owl.Runtime
