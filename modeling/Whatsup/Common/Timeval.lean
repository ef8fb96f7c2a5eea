import Whatsup.CLib.MachineInt

/-!
# Time values

`struct timeval` and the operations of `timeval.c` on it. Seconds and microseconds are `long`.

For times that are normalized the operations are those on microseconds: `timevalGt_iff`,
`timevalAddMs_normalized` and `timevalSub_normalized`. `timevalMillisecondCalc_eq` says when the
conversion to milliseconds does not overflow.
-/

set_option autoImplicit false
set_option relaxedAutoImplicit false

namespace Whatsup

open CLib

/-- `struct timeval`. -/
structure Timeval where
  tvSec : ℤ
  tvUsec : ℤ
deriving DecidableEq

/-- `timeval_gt`. -/
def timevalGt (a b : Timeval) : Bool :=
  if a.tvSec = b.tvSec then b.tvUsec < a.tvUsec else b.tvSec < a.tvSec

/-- `timeval_add`. -/
def timevalAdd (a b : Timeval) : Timeval :=
  let sec := a.tvSec + b.tvSec
  let usec := a.tvUsec + b.tvUsec
  if 1000000 ≤ usec then { tvSec := sec + 1, tvUsec := usec - 1000000 }
  else { tvSec := sec, tvUsec := usec }

/-- `timeval_sub`: zero if the first is not larger. -/
def timevalSub (a b : Timeval) : Timeval :=
  if timevalGt a b then
    let sec := a.tvSec - b.tvSec
    let usec := a.tvUsec - b.tvUsec
    if usec < 0 then { tvSec := sec - 1, tvUsec := usec + 1000000 }
    else { tvSec := sec, tvUsec := usec }
  else { tvSec := 0, tvUsec := 0 }

/-- `timeval_millisecond_init`. -/
def timevalMillisecondInit (ms : ℕ) : Timeval :=
  { tvSec := (ms / 1000 : ℕ), tvUsec := ((ms - ms / 1000 * 1000) * 1000 : ℕ) }

/-- `timeval_add_ms`. -/
def timevalAddMs (a : Timeval) (ms : ℕ) : Timeval :=
  timevalAdd a (timevalMillisecondInit ms)

/-- `timeval_millisecond_calc`: the milliseconds as an `unsigned int`, rounded up. -/
def timevalMillisecondCalc (a : Timeval) : ℕ :=
  let whole := toUint (a.tvSec * 1000)
  let t := toUint (whole + a.tvUsec.tdiv 1000)
  if a.tvUsec.tmod 1000 ≠ 0 then toUint (t + 1) else t

/-! ### Microseconds -/

/-- The time in microseconds. -/
def Timeval.micros (tv : Timeval) : ℤ :=
  tv.tvSec * 1000000 + tv.tvUsec

/-- A time that is not negative, with less than a second of microseconds. -/
structure Timeval.Normalized (tv : Timeval) : Prop where
  sec_nonneg : 0 ≤ tv.tvSec
  usec_nonneg : 0 ≤ tv.tvUsec
  usec_lt : tv.tvUsec < 1000000

instance (tv : Timeval) : Decidable tv.Normalized :=
  decidable_of_iff (0 ≤ tv.tvSec ∧ 0 ≤ tv.tvUsec ∧ tv.tvUsec < 1000000)
    ⟨fun h ↦ ⟨h.1, h.2.1, h.2.2⟩, fun h ↦ ⟨h.sec_nonneg, h.usec_nonneg, h.usec_lt⟩⟩

theorem timevalGt_iff {a b : Timeval} (ha : a.Normalized) (hb : b.Normalized) :
    timevalGt a b = true ↔ b.micros < a.micros := by
  obtain ⟨-, hlow, hhigh⟩ := ha
  obtain ⟨-, hlow', hhigh'⟩ := hb
  unfold timevalGt Timeval.micros
  split_ifs <;> simp only [decide_eq_true_eq] <;> omega

theorem timevalAdd_normalized {a b : Timeval} (ha : a.Normalized) (hb : b.Normalized) :
    (timevalAdd a b).Normalized ∧ (timevalAdd a b).micros = a.micros + b.micros := by
  obtain ⟨hsec, hlow, hhigh⟩ := ha
  obtain ⟨hsec', hlow', hhigh'⟩ := hb
  unfold timevalAdd Timeval.micros
  simp only
  split_ifs
  · exact ⟨⟨by simp only; omega, by simp only; omega, by simp only; omega⟩, by simp only; omega⟩
  · exact ⟨⟨by simp only; omega, by simp only; omega, by simp only; omega⟩, by simp only; omega⟩

/-- Adding milliseconds adds a thousand microseconds for each. -/
theorem timevalAddMs_normalized {a : Timeval} (ha : a.Normalized) (ms : ℕ) :
    (timevalAddMs a ms).Normalized ∧ (timevalAddMs a ms).micros = a.micros + 1000 * ms := by
  have hms : (timevalMillisecondInit ms).Normalized ∧ (timevalMillisecondInit ms).micros =
      1000 * ms := by
    unfold timevalMillisecondInit Timeval.micros
    exact ⟨⟨by simp only; omega, by simp only; omega, by simp only; omega⟩, by simp only; omega⟩
  obtain ⟨hnormalized, hmicros⟩ := timevalAdd_normalized ha hms.1
  exact ⟨hnormalized, by rw [timevalAddMs, hmicros, hms.2]⟩

/-- Assumes: a time that is not behind another. Their difference is that in microseconds. -/
theorem timevalSub_normalized {a b : Timeval} (ha : a.Normalized) (hb : b.Normalized)
    (hle : b.micros ≤ a.micros) :
    (timevalSub a b).Normalized ∧ (timevalSub a b).micros = a.micros - b.micros := by
  have hgt := timevalGt_iff ha hb
  obtain ⟨-, hlow, hhigh⟩ := ha
  obtain ⟨-, hlow', hhigh'⟩ := hb
  unfold timevalSub
  by_cases hlater : timevalGt a b = true
  · have hlt := hgt.mp hlater
    rw [if_pos hlater]
    unfold Timeval.micros at hlt ⊢
    simp only
    split_ifs
    · exact ⟨⟨by simp only; omega, by simp only; omega, by simp only; omega⟩, by simp only; omega⟩
    · exact ⟨⟨by simp only; omega, by simp only; omega, by simp only; omega⟩, by simp only; omega⟩
  · have hnlt := hgt.not.mp hlater
    rw [if_neg hlater]
    exact ⟨⟨le_rfl, le_rfl, by decide⟩, by change (0 : ℤ) = _; omega⟩

/-- Assumes: a time of at most as many milliseconds as an `unsigned int` holds. They are counted,
without an overflow on the way, and rounded up. -/
theorem timevalMillisecondCalc_eq {a : Timeval} (ha : a.Normalized)
    (hsmall : a.micros ≤ 1000 * 4294967295) :
    (timevalMillisecondCalc a : ℤ) = a.tvSec * 1000 + (a.tvUsec + 999) / 1000 := by
  obtain ⟨hsec, hlow, hhigh⟩ := ha
  obtain ⟨sec, hsec⟩ := Int.eq_ofNat_of_zero_le hsec
  obtain ⟨usec, husec⟩ := Int.eq_ofNat_of_zero_le hlow
  unfold Timeval.micros at hsmall
  rw [hsec, husec] at hsmall
  rw [husec] at hhigh
  have hdiv : a.tvUsec.tdiv 1000 = ((usec / 1000 : ℕ) : ℤ) := by rw [husec]; rfl
  have hmod : a.tvUsec.tmod 1000 = ((usec % 1000 : ℕ) : ℤ) := by rw [husec]; rfl
  have hwhole : toUint (a.tvSec * 1000) = sec * 1000 := by
    rw [hsec]
    exact @toUint_natCast (sec * 1000) (by omega)
  have ht : toUint ((sec * 1000 : ℕ) + ((usec / 1000 : ℕ) : ℤ)) = sec * 1000 + usec / 1000 :=
    @toUint_natCast (sec * 1000 + usec / 1000) (by omega)
  unfold timevalMillisecondCalc
  simp only [hwhole, hdiv, hmod, ht]
  split_ifs with hrest
  · have hround : toUint ((sec * 1000 + usec / 1000 : ℕ) + 1) = sec * 1000 + usec / 1000 + 1 :=
      @toUint_natCast (sec * 1000 + usec / 1000 + 1) (by omega)
    rw [hround, hsec, husec]
    omega
  · rw [hsec, husec]
    omega

end Whatsup
