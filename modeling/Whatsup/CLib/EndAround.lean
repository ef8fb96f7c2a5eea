import Mathlib.Data.Nat.ModEq
import Mathlib.Tactic.Common
import Mathlib.Tactic.Ring

/-!
# Sums with an end-around carry

A one's complement adder adds the carry out of the top digit to the lowest digit. What it makes of a
sum is the residue modulo the largest number of the width, in which that number and not zero stands
for the multiples other than zero: `endAround`.

`endAround_congr` is the rule of use: two sums that are congruent, and zero together, come to the
same. `fold_eq_endAround` says that two rounds of adding the carries are enough.
-/

set_option autoImplicit false
set_option relaxedAutoImplicit false

namespace CLib

/-- The residue of a number modulo another, which itself stands for its multiples other than
zero. -/
def endAround (m n : ℕ) : ℕ :=
  if n = 0 then 0 else (n - 1) % m + 1

@[simp]
theorem endAround_zero (m : ℕ) : endAround m 0 = 0 := rfl

/-- Only zero comes to zero. -/
@[simp]
theorem endAround_eq_zero_iff {m n : ℕ} : endAround m n = 0 ↔ n = 0 := by
  unfold endAround
  split_ifs with hzero
  · simp [hzero]
  · simp [hzero]

/-- Assumes: a number in the width. It comes to itself. -/
theorem endAround_of_le {m n : ℕ} (h : n ≤ m) : endAround m n = n := by
  unfold endAround
  split_ifs with hzero
  · exact hzero.symm
  · rw [Nat.mod_eq_of_lt (by omega)]
    omega

/-- Assumes: a width. Every number comes to one in the width. -/
theorem endAround_le {m : ℕ} (hm : 0 < m) (n : ℕ) : endAround m n ≤ m := by
  unfold endAround
  split_ifs
  · exact Nat.zero_le m
  · exact Nat.succ_le_of_lt (Nat.mod_lt _ hm)

/-- A number is congruent to what it comes to. -/
theorem endAround_modEq (m n : ℕ) : endAround m n ≡ n [MOD m] := by
  unfold endAround
  split_ifs with hzero
  · rw [hzero]
  · have hpred : (n - 1) % m + 1 ≡ n - 1 + 1 [MOD m] := (Nat.mod_modEq _ _).add_right 1
    rwa [Nat.sub_add_cancel (Nat.pos_of_ne_zero hzero)] at hpred

/-- Assumes: congruent numbers, which are zero together. They come to the same. -/
theorem endAround_congr {m a b : ℕ} (hmod : a ≡ b [MOD m]) (hzero : a = 0 ↔ b = 0) : endAround m a =
    endAround m b := by
  unfold endAround
  by_cases ha : a = 0
  · rw [if_pos ha, if_pos (hzero.mp ha)]
  · rw [if_neg ha, if_neg fun hb ↦ ha (hzero.mpr hb)]
    have hpred : a - 1 ≡ b - 1 [MOD m] := by
      refine Nat.ModEq.add_right_cancel' 1 ?_
      rwa [Nat.sub_add_cancel (Nat.pos_of_ne_zero ha),
        Nat.sub_add_cancel (Nat.pos_of_ne_zero fun hb ↦ ha (hzero.mpr hb))]
    rw [hpred]

/-- Assumes: a width. The multiples other than zero are what comes to the largest number. -/
theorem endAround_eq_self_iff {m : ℕ} (hm : 0 < m) {n : ℕ} : endAround m n = m ↔ n ≠ 0 ∧ m ∣ n := by
  constructor
  · intro h
    refine ⟨fun hzero ↦ ?_, ?_⟩
    · rw [hzero, endAround_zero] at h
      exact absurd h hm.ne
    · have hmod := endAround_modEq m n
      rw [h] at hmod
      exact (Nat.modEq_zero_iff_dvd.mp (hmod.symm.trans (Nat.modEq_zero_iff_dvd.mpr dvd_rfl)))
  · rintro ⟨hpos, hdvd⟩
    have hmod : n ≡ m [MOD m] :=
      (Nat.modEq_zero_iff_dvd.mpr hdvd).trans (Nat.modEq_zero_iff_dvd.mpr dvd_rfl).symm
    rw [endAround_congr hmod ⟨fun h ↦ absurd h hpos, fun h ↦ absurd h hm.ne'⟩,
      endAround_of_le le_rfl]

/-- Assumes: a number of two digits. When the carries are added twice, it comes to its end-around
value. -/
theorem fold_eq_endAround {m n : ℕ} (h : n < (m + 1) * (m + 1)) :
    (n / (m + 1) + n % (m + 1) + (n / (m + 1) + n % (m + 1)) / (m + 1)) % (m + 1) =
      endAround m n := by
  have hhigh : n / (m + 1) ≤ m := Nat.lt_succ_iff.mp (Nat.div_lt_of_lt_mul h)
  have hlow : n % (m + 1) ≤ m := Nat.lt_succ_iff.mp (Nat.mod_lt _ (Nat.succ_pos m))
  have hsplit := Nat.div_add_mod n (m + 1)
  generalize n / (m + 1) = high at hhigh hsplit ⊢
  generalize n % (m + 1) = low at hlow hsplit ⊢
  have hmod : n ≡ high + low [MOD m] := by
    rw [← hsplit, show (m + 1) * high + low = m * high + (high + low) by ring]
    exact Nat.ModEq.trans ((Nat.modEq_zero_iff_dvd.mpr (dvd_mul_right m high)).add_right _)
      (by rw [Nat.zero_add])
  have hzero : n = 0 ↔ high + low = 0 := by
    constructor
    · rintro rfl
      have hparts := Nat.add_eq_zero_iff.mp hsplit
      rcases Nat.mul_eq_zero.mp hparts.1 with hm | hhigh
      · exact absurd hm (Nat.succ_ne_zero m)
      · rw [hhigh, hparts.2]
    · intro hsum
      have hhigh : high = 0 := by omega
      have hlow : low = 0 := by omega
      rw [← hsplit, hhigh, hlow, Nat.mul_zero]
  rw [endAround_congr hmod hzero]
  by_cases hcarry : high + low ≤ m
  · rw [Nat.div_eq_of_lt (Nat.lt_succ_of_le hcarry), Nat.add_zero,
      Nat.mod_eq_of_lt (Nat.lt_succ_of_le hcarry),
      endAround_of_le hcarry]
  · have hone : (high + low) / (m + 1) = 1 := (Nat.div_eq_iff (Nat.succ_pos m)).mpr (by omega)
    have hnext : high + low - m ≡ high + low [MOD m] := by
      have hstep : high + low - m + m ≡ high + low - m + 0 [MOD m] :=
        Nat.ModEq.add_left _ (Nat.modEq_zero_iff_dvd.mpr dvd_rfl)
      rw [Nat.sub_add_cancel (by omega), Nat.add_zero] at hstep
      exact hstep.symm
    rw [hone, ← endAround_congr hnext (by omega), endAround_of_le (by omega),
      Nat.mod_eq_sub_mod (by omega),
      Nat.mod_eq_of_lt (by omega)]
    omega

end CLib
