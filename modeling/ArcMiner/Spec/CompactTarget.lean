import Mathlib.Tactic.IntervalCases

/-! Numbers in compact form: a size in bytes and the leading three of them.

The size is the least one that leaves the top bit free, so a form has no sign. All but
the leading bytes are cut off.
-/

namespace ArcMiner.Spec

structure Compact (number size mantissa : Nat) : Prop where
  above : 2 * number < 256 ^ size
  below : 256 ^ size ≤ 512 * number
  leading : mantissa = number * 256 ^ (3 - size) / 256 ^ (size - 3)

namespace Compact

def expand (size mantissa : Nat) : Nat := mantissa * 256 ^ (size - 3) / 256 ^ (3 - size)

variable {number size mantissa : Nat}

theorem long_size (k : Nat) : 256 ^ (k + 3) = 2 ^ 24 * 256 ^ k := by
  rw [Nat.pow_add, Nat.mul_comm]
  rfl

theorem expand_long (k mantissa : Nat) : expand (k + 3) mantissa = mantissa * 256 ^ k := by
  rw [expand, Nat.sub_eq_zero_of_le (Nat.le_add_left 3 k), Nat.pow_zero, Nat.div_one, Nat.add_sub_cancel]

theorem long_leading {k : Nat} (leading : mantissa = number * 256 ^ (3 - (k + 3)) / 256 ^ (k + 3 - 3)) :
    mantissa = number / 256 ^ k ∧ mantissa * 256 ^ k ≤ number ∧ number < (mantissa + 1) * 256 ^ k := by
  rw [Nat.sub_eq_zero_of_le (Nat.le_add_left 3 k), Nat.pow_zero, Nat.mul_one, Nat.add_sub_cancel] at leading
  refine ⟨leading, ?_, ?_⟩
  · rw [leading]
    exact Nat.div_mul_le_self number (256 ^ k)
  · rw [leading, Nat.succ_mul]
    exact Nat.lt_div_mul_add (Nat.pow_pos (by decide))

theorem short_or_long (form : Compact number size mantissa) :
    (size ≤ 3 ∧ mantissa = number * 256 ^ (3 - size) ∧ expand size mantissa = number) ∨
    ∃ k, size = k + 3 ∧ expand size mantissa = mantissa * 256 ^ k := by
  have leading := form.leading
  rcases Nat.le_total size 3 with short | long
  · refine .inl ⟨short, ?_⟩
    rw [Nat.sub_eq_zero_of_le short, Nat.pow_zero, Nat.div_one] at leading
    refine ⟨leading, ?_⟩
    rw [expand, leading, Nat.sub_eq_zero_of_le short, Nat.pow_zero, Nat.mul_one]
    exact Nat.mul_div_cancel _ (Nat.pow_pos (by decide))
  · obtain ⟨k, rfl⟩ := Nat.exists_eq_add_of_le' long
    exact .inr ⟨k, rfl, expand_long k mantissa⟩

theorem mantissa_lt (form : Compact number size mantissa) : mantissa < 2 ^ 23 := by
  have above := form.above
  rcases form.short_or_long with ⟨short, leading, -⟩ | ⟨k, rfl, -⟩
  · rw [leading]
    interval_cases size <;> omega
  · obtain ⟨cut, -⟩ := long_leading form.leading
    rw [cut, Nat.div_lt_iff_lt_mul (Nat.pow_pos (by decide))]
    rw [long_size] at above
    omega

theorem le_mantissa (form : Compact number size mantissa) : 2 ^ 15 ≤ mantissa := by
  have below := form.below
  rcases form.short_or_long with ⟨short, leading, -⟩ | ⟨k, rfl, -⟩
  · rw [leading]
    interval_cases size <;> omega
  · obtain ⟨cut, -⟩ := long_leading form.leading
    rw [cut, Nat.le_div_iff_mul_le (Nat.pow_pos (by decide))]
    rw [long_size] at below
    omega

theorem expand_le (form : Compact number size mantissa) : expand size mantissa ≤ number := by
  rcases form.short_or_long with ⟨-, -, exact⟩ | ⟨k, rfl, expanded⟩
  · exact exact.le
  · rw [expanded]
    exact (long_leading form.leading).2.1

theorem cut_lt (form : Compact number size mantissa) : (number - expand size mantissa) * 2 ^ 15 < number := by
  have atLeast := form.le_mantissa
  rcases form.short_or_long with ⟨short, leading, exact⟩ | ⟨k, rfl, expanded⟩
  · rw [exact, Nat.sub_self, Nat.zero_mul, Nat.pos_iff_ne_zero]
    rintro rfl
    rw [Nat.zero_mul] at leading
    omega
  · obtain ⟨-, low, high⟩ := long_leading form.leading
    have head : 2 ^ 15 * 256 ^ k ≤ mantissa * 256 ^ k := Nat.mul_le_mul_right _ atLeast
    rw [Nat.succ_mul] at high
    rw [expanded]
    omega

theorem of_expand (form : Compact number size mantissa) : Compact (expand size mantissa) size mantissa := by
  have atLeast := form.le_mantissa
  rcases form.short_or_long with ⟨-, -, exact⟩ | ⟨k, rfl, expanded⟩
  · rw [exact]
    exact form
  · have head : 2 ^ 15 * 256 ^ k ≤ mantissa * 256 ^ k := Nat.mul_le_mul_right _ atLeast
    refine ⟨?_, ?_, ?_⟩
    · exact (Nat.mul_le_mul_left 2 form.expand_le).trans_lt form.above
    · rw [expanded, long_size]
      omega
    · rw [expanded, Nat.add_sub_cancel, Nat.sub_eq_zero_of_le (Nat.le_add_left 3 k), Nat.pow_zero, Nat.mul_one]
      exact (Nat.mul_div_cancel mantissa (Nat.pow_pos (by decide))).symm

section leading
variable {length leading : Nat} (bytes : leading = number * 256 ^ (3 - length) / 256 ^ (length - 3))
include bytes

theorem of_free (some : 2 ^ 16 ≤ leading) (free : leading < 2 ^ 23) : Compact number length leading := by
  rcases Nat.lt_or_ge length 3 with short | long
  · refine ⟨?_, ?_, bytes⟩ <;> interval_cases length <;> omega
  · obtain ⟨k, rfl⟩ := Nat.exists_eq_add_of_le' long
    obtain ⟨-, atLeast, below⟩ := long_leading bytes
    have low : 2 ^ 16 * 256 ^ k ≤ leading * 256 ^ k := Nat.mul_le_mul_right _ some
    have high : (leading + 1) * 256 ^ k ≤ 2 ^ 23 * 256 ^ k := Nat.mul_le_mul_right _ free
    refine ⟨?_, ?_, bytes⟩
    · rw [long_size]
      omega
    · rw [long_size]
      omega

theorem of_taken (taken : 2 ^ 23 ≤ leading) (three : leading < 2 ^ 24) : Compact number (length + 1) (leading / 256) := by
  rcases Nat.lt_or_ge length 3 with short | long
  · refine ⟨?_, ?_, ?_⟩ <;> interval_cases length <;> omega
  · obtain ⟨k, rfl⟩ := Nat.exists_eq_add_of_le' long
    obtain ⟨cut, atLeast, below⟩ := long_leading bytes
    have low : 2 ^ 23 * 256 ^ k ≤ leading * 256 ^ k := Nat.mul_le_mul_right _ taken
    have high : (leading + 1) * 256 ^ k ≤ 2 ^ 24 * 256 ^ k := Nat.mul_le_mul_right _ three
    have next : 256 ^ (k + 1 + 3) = 2 ^ 24 * (256 ^ k * 256) := long_size (k + 1)
    rw [Nat.add_right_comm]
    refine ⟨?_, ?_, ?_⟩
    · rw [next]
      omega
    · rw [next]
      omega
    · rw [cut, Nat.div_div_eq_div_mul, Nat.sub_eq_zero_of_le (Nat.le_add_left 3 _), Nat.pow_zero, Nat.mul_one,
        Nat.add_sub_cancel, Nat.pow_succ]

end leading

/-- A larger number has a larger size, or the same size and no smaller leading bytes. -/
theorem mono {number' size' mantissa' : Nat} (form : Compact number size mantissa)
    (form' : Compact number' size' mantissa') (le : number ≤ number') :
    size < size' ∨ size = size' ∧ mantissa ≤ mantissa' := by
  rcases Nat.lt_trichotomy size size' with less | rfl | more
  · exact .inl less
  · rw [form.leading, form'.leading]
    exact .inr ⟨rfl, Nat.div_le_div_right (Nat.mul_le_mul_right _ le)⟩
  · -- the smaller number would need more bytes than the larger one has
    have bytes : 256 * 256 ^ size' ≤ 256 ^ size := by
      rw [← Nat.pow_succ']
      exact Nat.pow_le_pow_right (by decide) more
    have below := form.below
    have above := form'.above
    omega

end Compact
end ArcMiner.Spec
