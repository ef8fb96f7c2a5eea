import Mathlib.Tactic.Common
import Mathlib.Data.List.Basic
import Mathlib.Data.List.TakeWhile
import Mathlib.Data.Nat.Digits.Defs
import Whatsup.CLib.MachineInt

/-!
# Decimal numerals as `printf` writes them and `strtoul` reads them

`padded` is the conversion `%0*lu`: the decimal digits of a number, padded with zeros up to a
width. `padded_eq_padded_iff` says when two widths write a number alike, `padded_inj` that a
numeral determines its number, and `padded_ofDigitChars` that every digit string is the numeral of
its value at its own width. `strtoul` is the conversion back, with its optional blanks and sign
and its saturation; `strtoul_padded` is the round trip.
-/

set_option autoImplicit false
set_option relaxedAutoImplicit false

namespace CLib

/-! ### Numbers of digits -/

/-- The number of decimal digits of a number; zero has one. -/
def numDigits (number : ℕ) : ℕ :=
  (Nat.toDigits 10 number).length

/-- A number has at least one digit. -/
theorem numDigits_pos (number : ℕ) : 0 < numDigits number :=
  Nat.length_toDigits_pos

/-- Assumes: a positive number of digits. A number has at most so many digits exactly when it is
below that power of ten. -/
theorem numDigits_le_iff {number count : ℕ} (hcount : 0 < count) :
    numDigits number ≤ count ↔ number < 10 ^ count :=
  Nat.length_toDigits_le_iff (by decide) hcount

/-- A number has more than `count` digits exactly when it is at least `10 ^ count`, zero digits
being too few for zero as well. -/
theorem lt_numDigits_iff {number count : ℕ} (hcount : 0 < count) :
    count < numDigits number ↔ 10 ^ count ≤ number := by
  have h : numDigits number ≤ count ↔ number < 10 ^ count := numDigits_le_iff hcount
  omega

/-- A larger number has at least as many digits. -/
theorem numDigits_mono {small large : ℕ} (h : small ≤ large) :
    numDigits small ≤ numDigits large :=
  (numDigits_le_iff (numDigits_pos large)).mpr
    (lt_of_le_of_lt h ((numDigits_le_iff (numDigits_pos large)).mp le_rfl))

/-- Division by ten drops one digit of a number of at least two. -/
theorem numDigits_div_ten {number : ℕ} (h : 10 ≤ number) :
    numDigits number = numDigits (number / 10) + 1 := by
  unfold numDigits
  rw [Nat.toDigits_of_base_le (by decide) h]
  simp

/-- A number below ten has one digit. -/
theorem numDigits_of_lt_ten {number : ℕ} (h : number < 10) : numDigits number = 1 := by
  unfold numDigits
  rw [Nat.toDigits_of_lt_base h]
  rfl

/-! ### `%0*lu` -/

/-- The conversion `%0*lu`: the digits of a number, padded with zeros up to a width. -/
def padded (width number : ℕ) : List Char :=
  List.replicate (width - numDigits number) '0' ++ Nat.toDigits 10 number

/-- A numeral is as long as its width, and never shorter than its digits. -/
theorem length_padded (width number : ℕ) :
    (padded width number).length = max width (numDigits number) := by
  unfold padded
  rw [List.length_append, List.length_replicate]
  change width - numDigits number + numDigits number = _
  omega

/-- A numeral is not empty. -/
theorem padded_ne_nil (width number : ℕ) : padded width number ≠ [] := by
  simp [padded]

/-- A numeral consists of digits. -/
theorem isDigit_of_mem_padded {width number : ℕ} {c : Char} (h : c ∈ padded width number) :
    c.isDigit = true := by
  rcases List.mem_append.mp h with hzero | hdigit
  · rw [List.eq_of_mem_replicate hzero]
    rfl
  · exact Nat.isDigit_of_mem_toDigits (by decide) (by decide) hdigit

/-- The value of a numeral is its number. -/
theorem ofDigitChars_padded (width number : ℕ) :
    Nat.ofDigitChars 10 (padded width number) 0 = number := by
  rw [padded, Nat.ofDigitChars_append, Nat.ofDigitChars_replicate_zero, Nat.mul_zero,
    Nat.ofDigitChars_ten_toDigits]

/-- A numeral determines its number, whatever the widths. -/
theorem padded_inj {width width' number number' : ℕ}
    (h : padded width number = padded width' number') : number = number' := by
  rw [← ofDigitChars_padded width number, h, ofDigitChars_padded]

/-- Two widths write a number alike exactly when they ask for the same number of zeros. -/
theorem padded_eq_padded_iff {width width' number : ℕ} :
    padded width number = padded width' number ↔
      width - numDigits number = width' - numDigits number := by
  constructor
  · intro h
    have hlength := congrArg List.length h
    rw [length_padded, length_padded] at hlength
    omega
  · intro h
    unfold padded
    rw [h]

/-! ### Values of digit strings -/

/-- A digit character stands for a number below ten. -/
theorem digit_toNat_bounds {c : Char} (h : c.isDigit = true) :
    48 ≤ c.toNat ∧ c.toNat ≤ 57 := by
  unfold Char.isDigit at h
  simp only [Bool.and_eq_true, decide_eq_true_eq] at h
  exact h

/-- The value of a digit string is below the power of ten of its length. -/
theorem ofDigitChars_lt {s : List Char} (h : ∀ c ∈ s, c.isDigit = true) :
    Nat.ofDigitChars 10 s 0 < 10 ^ s.length := by
  induction s with
  | nil => simp
  | cons c rest ih =>
    have hc := digit_toNat_bounds (h c List.mem_cons_self)
    have hrest := ih fun d hd ↦ h d (List.mem_cons_of_mem c hd)
    rw [Nat.ofDigitChars_cons, Nat.ofDigitChars_eq_ofDigitChars_zero, List.length_cons, pow_succ]
    have hzero : '0'.toNat = 48 := rfl
    have hbound : c.toNat - 48 ≤ 9 := by omega
    have hmul := Nat.mul_le_mul_left (10 ^ rest.length) hbound
    rw [hzero, Nat.mul_zero, Nat.zero_add]
    omega

/-- Assumes: two digit strings of one length and one value. They are the same string. -/
theorem eq_of_ofDigitChars_eq {s t : List Char} (hs : ∀ c ∈ s, c.isDigit = true)
    (ht : ∀ c ∈ t, c.isDigit = true) (hlength : s.length = t.length)
    (hvalue : Nat.ofDigitChars 10 s 0 = Nat.ofDigitChars 10 t 0) : s = t := by
  induction s generalizing t with
  | nil => exact (List.length_eq_zero_iff.mp hlength.symm).symm
  | cons c rest ih =>
    cases t with
    | nil => simp at hlength
    | cons d tail =>
      have hc := digit_toNat_bounds (hs c List.mem_cons_self)
      have hd := digit_toNat_bounds (ht d List.mem_cons_self)
      have hrest : ∀ e ∈ rest, e.isDigit = true := fun e he ↦ hs e (List.mem_cons_of_mem c he)
      have htail : ∀ e ∈ tail, e.isDigit = true := fun e he ↦ ht e (List.mem_cons_of_mem d he)
      have hlengths : rest.length = tail.length := by simpa using hlength
      have hrestLt := ofDigitChars_lt hrest
      have htailLt := ofDigitChars_lt htail
      rw [Nat.ofDigitChars_cons, Nat.ofDigitChars_cons, Nat.ofDigitChars_eq_ofDigitChars_zero,
        Nat.ofDigitChars_eq_ofDigitChars_zero (l := tail), hlengths] at hvalue
      rw [hlengths] at hrestLt
      have hzero : '0'.toNat = 48 := rfl
      rw [hzero, Nat.mul_zero, Nat.zero_add, Nat.zero_add] at hvalue
      -- the leading digits are the quotients, the remaining values the remainders
      have hdiv : c.toNat - 48 = d.toNat - 48 := by
        have hleft := Nat.mul_add_div (Nat.pos_of_ne_zero (by positivity :
          (10 ^ tail.length : ℕ) ≠ 0)) (c.toNat - 48) (Nat.ofDigitChars 10 rest 0)
        have hright := Nat.mul_add_div (Nat.pos_of_ne_zero (by positivity :
          (10 ^ tail.length : ℕ) ≠ 0)) (d.toNat - 48) (Nat.ofDigitChars 10 tail 0)
        rw [Nat.div_eq_of_lt hrestLt] at hleft
        rw [Nat.div_eq_of_lt htailLt] at hright
        rw [hvalue] at hleft
        omega
      rw [hdiv] at hvalue
      have hchar : c = d := Char.toNat_inj.mp (by omega)
      rw [hchar, ih hrest htail hlengths (by omega)]

/-- Assumes: a nonempty digit string. It is the numeral of its value at its own width. -/
theorem padded_ofDigitChars {s : List Char} (hs : ∀ c ∈ s, c.isDigit = true) (hne : s ≠ []) :
    padded s.length (Nat.ofDigitChars 10 s 0) = s := by
  refine eq_of_ofDigitChars_eq (fun c hc ↦ isDigit_of_mem_padded hc) hs ?_
    (ofDigitChars_padded _ _)
  have hlength : 0 < s.length := List.length_pos_iff.mpr hne
  have hdigits := (numDigits_le_iff hlength).mpr (ofDigitChars_lt hs)
  rw [length_padded]
  omega

/-! ### `isspace`, `strtoul`, `strtol` -/

/-- `isspace` in the C locale. -/
def isSpace (c : Char) : Bool :=
  c = ' ' || c = '\t' || c = '\n' || c = '\x0b' || c = '\x0c' || c = '\r'

/-- `strtoul(s, &end, 10)`: the value and the text from `end` on. Blanks and one sign may precede
the digits, a negative value is negated as an `unsigned long`, a value out of range is `ULONG_MAX`,
and without a digit nothing is consumed. -/
def strtoul (s : List Char) : ℕ × List Char :=
  let text := s.dropWhile isSpace
  let negative : Bool := text.head? = some '-'
  let unsigned := if text.head? = some '-' ∨ text.head? = some '+' then text.tail else text
  let digits := unsigned.takeWhile Char.isDigit
  let value := Nat.ofDigitChars 10 digits 0
  if digits = [] then (0, s)
  else if ulongMax < value then (ulongMax, unsigned.dropWhile Char.isDigit)
  else (if negative then ulongSub 0 value else value, unsigned.dropWhile Char.isDigit)

/-- `atol`: the value of the digits behind optional blanks and one sign, saturated as a `long`. -/
def atol (s : List Char) : ℤ :=
  let text := s.dropWhile isSpace
  let unsigned := if text.head? = some '-' ∨ text.head? = some '+' then text.tail else text
  let value : ℤ := Nat.ofDigitChars 10 (unsigned.takeWhile Char.isDigit) 0
  if text.head? = some '-' then max (-9223372036854775808)
    (-value) else min value 9223372036854775807

/-- The value of a digit in a base up to 16; other characters have the value 16. -/
def digitValue (c : Char) : ℕ :=
  if c.isDigit then c.toNat - 48
  else if 'a' ≤ c.toLower ∧ c.toLower ≤ 'f' then c.toLower.toNat - 87
  else 16

/-- `strtol(s, &end, 0)`: the value, whether `errno` is set, and the text from `end` on. Blanks and
one sign may precede the digits, a prefix gives their base, a value out of range is the nearest
`long`, and without a digit nothing is consumed. -/
def strtol (s : List Char) : ℤ × Bool × List Char :=
  let text := s.dropWhile isSpace
  let unsigned := if text.head? = some '-' ∨ text.head? = some '+' then text.tail else text
  let (base, digits) :=
    match unsigned with
    | '0' :: x :: c :: rest => if x.toLower = 'x' ∧
      digitValue c < 16 then (16, c :: rest) else (8, unsigned)
    | '0' :: _ => (8, unsigned)
    | _ => (10, unsigned)
  let number : ℤ :=
    (digits.takeWhile (digitValue · < base)).foldl (fun value c ↦ value * base + digitValue c) 0
  let value := if text.head? = some '-' then -number else number
  let rest := digits.dropWhile (digitValue · < base)
  if digits.takeWhile (digitValue · < base) = [] then (0, false, s)
  else if value < -9223372036854775808 then (-9223372036854775808, true, rest)
  else if 9223372036854775807 < value then (9223372036854775807, true, rest)
  else (value, false, rest)

/-- A digit is neither a blank nor a sign. -/
theorem not_isSpace_of_isDigit {c : Char} (h : c.isDigit = true) :
    isSpace c = false ∧ c ≠ '-' ∧ c ≠ '+' := by
  have hbounds := digit_toNat_bounds h
  have hne : ∀ d : Char, d.toNat < 48 → c ≠ d := fun d hd hcd ↦ by
    rw [hcd] at hbounds
    omega
  refine ⟨?_, hne '-' (by decide), hne '+' (by decide)⟩
  simp only [isSpace, Bool.or_eq_false_iff, decide_eq_false_iff_not]
  exact ⟨⟨⟨⟨⟨hne ' ' (by decide), hne '\t' (by decide)⟩, hne '\n' (by decide)⟩,
    hne '\x0b' (by decide)⟩, hne '\x0c' (by decide)⟩, hne '\r' (by decide)⟩

/-- The value of `strtoul` is an `unsigned long`. -/
theorem strtoul_le (s : List Char) : (strtoul s).1 ≤ ulongMax := by
  unfold strtoul
  extract_lets text negative unsigned digits value
  have hnegated : value ≤ ulongMax → ulongSub 0 value ≤ ulongMax := by
    unfold ulongMax ulongSub
    split_ifs <;> omega
  split_ifs with hnone hbig hsign
  · exact Nat.zero_le _
  · exact le_rfl
  · exact hnegated (not_lt.mp hbig)
  · exact not_lt.mp hbig

/-- Assumes: a nonempty digit string, followed by text that does not start with a digit. `strtoul`
reads its value, saturated, and stops at that text. -/
theorem strtoul_digits_append {s rest : List Char} (hs : ∀ c ∈ s, c.isDigit = true)
    (hne : s ≠ []) (hrest : rest.takeWhile Char.isDigit = []) :
    strtoul (s ++ rest) = (min (Nat.ofDigitChars 10 s 0) ulongMax, rest) := by
  obtain ⟨c, tail, rfl⟩ := List.exists_cons_of_ne_nil hne
  have hc := not_isSpace_of_isDigit (hs c List.mem_cons_self)
  have htake : ((c :: tail) ++ rest).takeWhile Char.isDigit = c :: tail := by
    rw [List.takeWhile_append_of_pos hs, hrest, List.append_nil]
  have hdrop : ((c :: tail) ++ rest).dropWhile Char.isDigit = rest := by
    rw [List.dropWhile_append_of_pos hs]
    have hsplit := List.takeWhile_append_dropWhile (p := Char.isDigit) (l := rest)
    rwa [hrest, List.nil_append] at hsplit
  have hblank : ((c :: tail) ++ rest).dropWhile isSpace = (c :: tail) ++ rest := by
    rw [List.cons_append, List.dropWhile_cons, hc.1]
    rfl
  have hsign : ¬(((c :: tail) ++ rest).head? = some '-' ∨
      ((c :: tail) ++ rest).head? = some '+') := by
    simp [hc.2.1, hc.2.2]
  have hminus : ¬((c :: tail) ++ rest).head? = some '-' := fun h ↦ hsign (Or.inl h)
  simp only [strtoul, hblank, if_neg hsign, htake, hdrop, if_neg (List.cons_ne_nil c tail)]
  split_ifs with hlarge
  · rw [min_eq_right hlarge.le]
  · simp only [decide_eq_true_eq] at *
    contradiction
  · rw [min_eq_left (not_lt.mp hlarge)]

/-- Assumes: a nonempty digit string. `strtoul` reads all of it. -/
theorem strtoul_digits {s : List Char} (hs : ∀ c ∈ s, c.isDigit = true) (hne : s ≠ []) :
    strtoul s = (min (Nat.ofDigitChars 10 s 0) ulongMax, []) := by
  have h := strtoul_digits_append hs hne (by rfl : List.takeWhile Char.isDigit [] = [])
  rwa [List.append_nil] at h

/-- Assumes: a digit string. `atol` reads its value, saturated. -/
theorem atol_digits {s : List Char} (hs : ∀ c ∈ s, c.isDigit = true) :
    atol s = min (Nat.ofDigitChars 10 s 0 : ℤ) 9223372036854775807 := by
  have hblank : s.dropWhile isSpace = s := by
    cases s with
    | nil => rfl
    | cons c tail =>
      rw [List.dropWhile_cons_of_neg (by
        simp [(not_isSpace_of_isDigit (hs c List.mem_cons_self)).1])]
  have hsign : s.head? ≠ some '-' ∧ s.head? ≠ some '+' := by
    cases s with
    | nil => exact ⟨by simp, by simp⟩
    | cons c tail =>
      have hc := (not_isSpace_of_isDigit (hs c List.mem_cons_self)).2
      exact ⟨by simpa using hc.1, by simpa using hc.2⟩
  have htake : s.takeWhile Char.isDigit = s := List.takeWhile_eq_self_iff.mpr hs
  simp only [atol, hblank, if_neg hsign.1, if_neg (not_or.mpr hsign), htake]

/-- The value of `atol` is a `long`. -/
theorem atol_bounds (s : List Char) : -9223372036854775808 ≤ atol s ∧
    atol s ≤ 9223372036854775807 := by
  unfold atol
  extract_lets text unsigned value
  have hvalue : 0 ≤ value := Int.natCast_nonneg _
  split_ifs <;> omega

/-- Assumes: an `unsigned long`. Reading what `%0*lu` wrote gives it back. -/
theorem strtoul_padded (width : ℕ) {number : ℕ} (h : number ≤ ulongMax) :
    strtoul (padded width number) = (number, []) := by
  rw [strtoul_digits (fun c hc ↦ isDigit_of_mem_padded hc) (padded_ne_nil width number),
    ofDigitChars_padded, min_eq_left h]

end CLib
