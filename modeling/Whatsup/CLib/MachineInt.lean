import Mathlib.Tactic.Common
import Mathlib.Data.Int.Order.Basic

/-!
# Machine integers of a 64-bit C implementation

A C `int` has 32 bits and an `unsigned long` has 64. A value of either type is modelled by the
mathematical integer it stands for, and every operation that can leave the type wraps explicitly:
`toInt`, `toUint` and `toUlong` are the conversions of an integer to `int`, `unsigned int` and
`unsigned long`, and `ulongAdd`, `ulongSub` are the operations of `unsigned long`. `toInt_eq_self`
and `ulongSub_eq_sub` say when nothing wraps; `toInt_toInt_add` lets a counter that wraps at every
step be read as one that wraps once.
-/

set_option autoImplicit false
set_option relaxedAutoImplicit false

namespace CLib

/-! ### `int` -/

/-- Conversion of an integer to a 32-bit `int`: the representative modulo `2 ^ 32` between
`-2 ^ 31` and `2 ^ 31 - 1`. -/
def toInt (value : ℤ) : ℤ :=
  value.bmod 4294967296

/-- Assumes: a value in the range of `int`. The conversion keeps it. -/
theorem toInt_eq_self {value : ℤ} (hlow : -2147483648 ≤ value) (hhigh : value < 2147483648) :
    toInt value = value :=
  Int.bmod_eq_of_le (by omega) (by omega)

@[simp]
theorem toInt_zero : toInt 0 = 0 :=
  toInt_eq_self (by decide) (by decide)

/-- A counter that is converted before an addition gives the same `int` as one that is not. -/
@[simp]
theorem toInt_toInt_add (value step : ℤ) : toInt (toInt value + step) = toInt (value + step) :=
  Int.bmod_add_bmod

/-- Every `int` is at least `-2 ^ 31`. -/
theorem neg_le_toInt (value : ℤ) : -2147483648 ≤ toInt value := by
  have hbound := Int.le_bmod (x := value) (m := 4294967296) (by decide)
  exact hbound

/-- Every `int` is below `2 ^ 31`. -/
theorem toInt_lt (value : ℤ) : toInt value < 2147483648 := by
  have hbound := Int.bmod_lt (x := value) (m := 4294967296) (by decide)
  exact hbound

/-- Conversion to `int` does not enlarge a natural number. -/
theorem toInt_natCast_le (value : ℕ) : toInt value ≤ value := by
  rw [toInt, Int.bmod_def]
  split_ifs <;> omega

/-- Assumes: a natural number below `2 ^ 32`. If its conversion to `int` is not negative, it is an
`int`. -/
theorem lt_of_toInt_nonneg {value : ℕ} (h : value < 4294967296) (hnonneg : 0 ≤ toInt value) :
    value < 2147483648 := by
  rw [toInt, Int.bmod_def] at hnonneg
  split_ifs at hnonneg <;> omega

/-- `abs`: the absolute value as an `int`; that of the least `int` is itself. -/
def intAbs (value : ℤ) : ℤ :=
  toInt value.natAbs

/-! ### `unsigned int` and `unsigned long` -/

/-- Conversion of an integer to `unsigned int`. -/
def toUint (value : ℤ) : ℕ :=
  (value % 4294967296).toNat

/-- Assumes: a value in the range of `unsigned int`. The conversion keeps it. -/
theorem toUint_natCast {value : ℕ} (h : value < 4294967296) : toUint value = value := by
  unfold toUint
  omega

/-- A number that is converted to `int` before an addition gives the same `unsigned int` as one that
is not. -/
theorem toUint_toInt_add (value step : ℤ) : toUint (toInt value + step) =
    toUint (value + step) := by
  have hmod : (value.bmod 4294967296 + step) % 4294967296 = (value + step) % 4294967296 :=
    Int.emod_add_cancel_right step |>.mpr Int.bmod_emod
  rw [toUint, toInt, hmod]
  rfl

/-- Conversion of an integer to `unsigned long`. -/
def toUlong (value : ℤ) : ℕ :=
  (value % 18446744073709551616).toNat

/-- Assumes: a value in the range of `unsigned long`. The conversion keeps it. -/
theorem toUlong_natCast {value : ℕ} (h : value < 18446744073709551616) : toUlong value = value := by
  unfold toUlong
  omega

/-- `ULONG_MAX`. -/
def ulongMax : ℕ := 18446744073709551615

/-- Addition of `unsigned long`. -/
def ulongAdd (left right : ℕ) : ℕ :=
  (left + right) % 18446744073709551616

/-- Subtraction of `unsigned long`, for operands that are themselves `unsigned long`. -/
def ulongSub (left right : ℕ) : ℕ :=
  if right ≤ left then left - right else left + 18446744073709551616 - right

/-- Assumes: a subtrahend that is not larger. The subtraction does not wrap. -/
theorem ulongSub_eq_sub {left right : ℕ} (h : right ≤ left) :
    ulongSub left right = left - right :=
  if_pos h

/-- Assumes: two numbers that differ by less than `2 ^ 31`. Their difference as an `unsigned long`,
converted to `int`, is their difference. -/
theorem toInt_ulongSub {left right : ℕ} (hleft : left < right + 2147483648)
    (hright : right < left + 2147483648) : toInt (ulongSub left right) = left - right := by
  unfold ulongSub
  split_ifs with h
  · rw [toInt_eq_self (by omega) (by omega)]
    omega
  · have hwrap : ((left + 18446744073709551616 - right : ℕ) : ℤ) =
        (left - right) + (4294967296 : ℕ) * 4294967296 := by omega
    rw [hwrap, toInt, Int.add_mul_bmod_self_left]
    exact toInt_eq_self (by omega) (by omega)

/-- The difference from a number that is converted to `unsigned long` is, as an `int`, the
difference from the number. -/
theorem toInt_ulongSub_toUlong (left : ℕ) (right : ℤ) : toInt (ulongSub left (toUlong right)) =
    toInt (left - right) := by
  have hwrap : ∃ wraps : ℤ, (ulongSub left (toUlong right) : ℤ) = (left - right) +
      (4294967296 : ℕ) * wraps := by
    unfold ulongSub toUlong
    split_ifs with h
    · exact ⟨4294967296 * (right / 18446744073709551616), by omega⟩
    · exact ⟨4294967296 * (right / 18446744073709551616 + 1), by omega⟩
  obtain ⟨wraps, hwraps⟩ := hwrap
  rw [hwraps, toInt, toInt, Int.add_mul_bmod_self_left]

theorem toInt_toUlong_sub (left right : ℤ) : toInt (toUlong left - right) =
    toInt (left - right) := by
  have hwrap : (toUlong left : ℤ) - right =
      (left - right) + (4294967296 : ℕ) * (4294967296 * -(left / 18446744073709551616)) := by
    unfold toUlong
    omega
  rw [hwrap, toInt, toInt, Int.add_mul_bmod_self_left]

/-- The least `int` is the conversion of the odd multiples of `2 ^ 31`. -/
theorem toInt_eq_least_iff (value : ℤ) : toInt value = -2147483648 ↔
    value % 4294967296 = 2147483648 := by
  unfold toInt Int.bmod
  simp only
  split_ifs <;> omega

/-- The conversion to `int` takes the other sign with its value, in absolute value. -/
theorem natAbs_toInt_neg (value : ℤ) : (toInt (-value)).natAbs = (toInt value).natAbs := by
  unfold toInt Int.bmod
  simp only
  split_ifs <;> omega

/-- The conversion to `int` is the distance from the nearest multiple of `2 ^ 32`. -/
theorem le_natAbs_toInt_iff (value : ℤ) (bound : ℕ) :
    bound ≤ (toInt value).natAbs ↔ ∀ wraps : ℤ, bound ≤ (value - wraps * 4294967296).natAbs := by
  have hnearest : ∀ wraps : ℤ, (toInt value).natAbs ≤ (value - wraps * 4294967296).natAbs := by
    intro wraps
    unfold toInt Int.bmod
    simp only
    split_ifs <;> omega
  have hreached : ∃ wraps : ℤ, toInt value = value - wraps * 4294967296 := by
    unfold toInt Int.bmod
    simp only
    split_ifs
    · exact ⟨value / 4294967296, by omega⟩
    · exact ⟨value / 4294967296 + 1, by omega⟩
  constructor
  · exact fun h wraps ↦ Nat.le_trans h (hnearest wraps)
  · intro h
    obtain ⟨wraps, hwraps⟩ := hreached
    rw [hwraps]
    exact h wraps

/-- The absolute value of an `int`: that of the least one is itself. -/
theorem intAbs_toInt (value : ℤ) :
    intAbs (toInt value) =
      if toInt value = -2147483648 then -2147483648 else ((toInt value).natAbs : ℤ) := by
  have hlow := neg_le_toInt value
  have hhigh := toInt_lt value
  unfold intAbs
  split_ifs with hleast
  · rw [hleast]
    decide
  · exact toInt_eq_self (by omega) (by omega)

/-- A sum converted to `int` does not depend on whether a summand has wrapped as an `unsigned
long`. -/
theorem toInt_add_wrapped (value number : ℕ) :
    toInt ((value + number % 18446744073709551616 : ℕ) : ℤ) = toInt ((value + number : ℕ) : ℤ) := by
  have hwraps : ((value + number : ℕ) : ℤ) =
      ((value + number % 18446744073709551616 : ℕ) : ℤ) +
        (4294967296 : ℕ) * (4294967296 * (number / 18446744073709551616 : ℕ)) := by omega
  rw [hwraps, toInt, toInt, Int.add_mul_bmod_self_left]

/-- Assumes: a bound and a value that are not `ULONG_MAX` and 0. The bound is one less than the
value, in wrapping arithmetic, exactly when the value is its successor. -/
theorem eq_ulongSub_one_iff {bound value : ℕ} (h : bound = ulongMax → value ≠ 0) :
    bound = ulongSub value 1 ↔ value = bound + 1 := by
  unfold ulongMax at h
  unfold ulongSub
  split_ifs <;> omega

end CLib
