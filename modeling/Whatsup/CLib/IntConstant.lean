import Whatsup.CLib.Numeral

/-!
# Integer constants as `strtol` reads them

`IntConstant` is an integer constant of C without a suffix, decimal, octal or hexadecimal, with its
value, and `SignedConstant` one with an optional sign. With the base 0 `strtol` reads to the end the
texts that are a signed constant behind blanks (`strtol_constant`), with its value, if that is a
`long`, and no others (`strtol_rest`), the empty text aside.
-/

set_option autoImplicit false
set_option relaxedAutoImplicit false

namespace CLib

/-! ### Constants -/

/-- The value of digits in a base. -/
def digitsValue (base : ℕ) (digits : List Char) : ℤ :=
  digits.foldl (fun value c ↦ value * base + digitValue c) 0

/-- An integer constant without a suffix, and its value. -/
inductive IntConstant : List Char → ℤ → Prop
  | decimal {c : Char} {digits : List Char} (hc : c ≠ '0')
    (hdigits : ∀ d ∈ c :: digits, digitValue d < 10) :
    IntConstant (c :: digits) (digitsValue 10 (c :: digits))
  | octal {digits : List Char} (hdigits : ∀ d ∈ digits, digitValue d < 8) :
    IntConstant ('0' :: digits) (digitsValue 8 digits)
  | hexadecimal {x c : Char} {digits : List Char} (hx : x.toLower = 'x')
    (hdigits : ∀ d ∈ c :: digits, digitValue d < 16) :
    IntConstant ('0' :: x :: c :: digits) (digitsValue 16 (c :: digits))

/-- One with an optional sign. -/
inductive SignedConstant : List Char → ℤ → Prop
  | unsigned {text : List Char} {value : ℤ} (h : IntConstant text value) : SignedConstant text value
  | positive {text : List Char} {value : ℤ} (h : IntConstant text value) :
    SignedConstant ('+' :: text) value
  | negative {text : List Char} {value : ℤ} (h : IntConstant text value) :
    SignedConstant ('-' :: text) (-value)

/-- A constant does not start with a blank or with a sign. -/
theorem IntConstant.head {text : List Char} {value : ℤ} (h : IntConstant text value) :
    ∃ c rest, text = c :: rest ∧ isSpace c = false ∧ c ≠ '-' ∧ c ≠ '+' := by
  cases h with
  | @decimal c digits hc hdigits =>
    have hdigit := hdigits c List.mem_cons_self
    have hne : ∀ d, 10 ≤ digitValue d → c ≠ d := fun d hd hcd ↦ by
      rw [hcd] at hdigit
      omega
    refine ⟨c, digits, rfl, ?_, hne '-' (by decide), hne '+' (by decide)⟩
    simp only [isSpace, Bool.or_eq_false_iff, decide_eq_false_iff_not]
    exact ⟨⟨⟨⟨⟨hne ' ' (by decide), hne '\t' (by decide)⟩, hne '\n' (by decide)⟩,
      hne '\x0b' (by decide)⟩,
      hne '\x0c' (by decide)⟩, hne '\r' (by decide)⟩
  | octal => exact ⟨'0', _, rfl, by decide, by decide, by decide⟩
  | hexadecimal => exact ⟨'0', _, rfl, by decide, by decide, by decide⟩

/-- Nor does a signed one start with a blank. -/
theorem SignedConstant.dropWhile {text : List Char} {value : ℤ} (h : SignedConstant text value) :
    text.dropWhile isSpace = text := by
  cases h with
  | unsigned h =>
    obtain ⟨c, rest, rfl, hc, -⟩ := h.head
    exact List.dropWhile_cons_of_neg (by simp [hc])
  | positive => exact List.dropWhile_cons_of_neg (by decide)
  | negative => exact List.dropWhile_cons_of_neg (by decide)

/-! ### The base -/

/-- The base that the start of a number stands for, and the digits. -/
def strtolBase (unsigned : List Char) : ℕ × List Char :=
  match unsigned with
  | '0' :: x :: c :: rest => if x.toLower = 'x' ∧
    digitValue c < 16 then (16, c :: rest) else (8, unsigned)
  | '0' :: _ => (8, unsigned)
  | _ => (10, unsigned)

/-- A number behind its sign. -/
def strtolUnsigned (text : List Char) : List Char :=
  if text.head? = some '-' ∨ text.head? = some '+' then text.tail else text

theorem strtol_eq (s : List Char) :
    strtol s =
      let text := s.dropWhile isSpace
      let base := (strtolBase (strtolUnsigned text)).1
      let digits := (strtolBase (strtolUnsigned text)).2
      let number := digitsValue base (digits.takeWhile (digitValue · < base))
      let value := if text.head? = some '-' then -number else number
      let rest := digits.dropWhile (digitValue · < base)
      if digits.takeWhile (digitValue · < base) = [] then (0, false, s)
      else if value < -9223372036854775808 then (-9223372036854775808, true, rest)
      else if 9223372036854775807 < value then (9223372036854775807, true, rest)
      else (value, false, rest) :=
  rfl

theorem strtolBase_decimal {c : Char} (hc : c ≠ '0') (rest : List Char) : strtolBase (c :: rest) =
    (10, c :: rest) := by
  unfold strtolBase
  split <;> simp_all

/-- A number that starts with a zero is octal, if it is not hexadecimal. -/
theorem strtolBase_zero (rest : List Char) :
    (∃ x c tail, rest = x :: c :: tail ∧ x.toLower = 'x' ∧ digitValue c < 16 ∧
      strtolBase ('0' :: rest) = (16, c :: tail)) ∨
      (∀ x c tail, rest = x :: c :: tail → ¬(x.toLower = 'x' ∧ digitValue c < 16)) ∧
        strtolBase ('0' :: rest) = (8, '0' :: rest) := by
  rcases rest with _ | ⟨x, _ | ⟨c, tail⟩⟩
  · exact Or.inr ⟨fun _ _ _ h ↦ absurd h (by simp), rfl⟩
  · exact Or.inr ⟨fun _ _ _ h ↦ absurd h (by simp), rfl⟩
  · by_cases h : x.toLower = 'x' ∧ digitValue c < 16
    · exact Or.inl ⟨x, c, tail, rfl, h.1, h.2, if_pos h⟩
    · refine Or.inr ⟨fun x' c' tail' heq ↦ ?_, if_neg h⟩
      obtain ⟨rfl, hrest⟩ := List.cons.inj heq
      obtain ⟨rfl, rfl⟩ := List.cons.inj hrest
      exact h

/-- The letter of a hexadecimal constant is no digit. -/
theorem not_digitValue_lt {x : Char} (h : x.toLower = 'x') : ¬digitValue x < 16 := by
  unfold digitValue
  split_ifs with hdigit hletter
  · have hbounds := digit_toNat_bounds hdigit
    have hlower : x.toLower = x := dif_neg fun hupper ↦ by
      have hcapital : 'A'.toNat ≤ x.toNat := hupper.1
      have hletter : 'A'.toNat = 65 := rfl
      omega
    rw [← hlower, h] at hbounds
    exact absurd hbounds.2 (by decide)
  · rw [h] at hletter
    exact absurd hletter.2 (by decide)
  · omega

/-- A text is a constant if it has digits, and all of them are digits of their base. -/
theorem intConstant_iff {text : List Char} {value : ℤ} :
    IntConstant text value ↔ (strtolBase text).2 ≠ [] ∧
    (∀ d ∈ (strtolBase text).2, digitValue d < (strtolBase text).1) ∧
      value = digitsValue (strtolBase text).1 (strtolBase text).2 := by
  constructor
  · intro h
    cases h with
    | decimal hc hdigits =>
      rw [strtolBase_decimal hc]
      exact ⟨List.cons_ne_nil _ _, hdigits, rfl⟩
    | @octal digits hdigits =>
      rcases strtolBase_zero digits with ⟨x, c, tail, rfl, hx, -, -⟩ | ⟨-, hbase⟩
      · exact absurd (hdigits x List.mem_cons_self) fun hless ↦ not_digitValue_lt hx (by omega)
      · rw [hbase]
        exact ⟨List.cons_ne_nil _ _, List.forall_mem_cons.mpr ⟨show digitValue '0' < 8 by
          decide, hdigits⟩, rfl⟩
    | @hexadecimal x c digits hx hdigits =>
      have hbase : strtolBase ('0' :: x :: c :: digits) = (16, c :: digits) :=
        if_pos ⟨hx, hdigits c List.mem_cons_self⟩
      rw [hbase]
      exact ⟨List.cons_ne_nil _ _, hdigits, rfl⟩
  · rintro ⟨hne, hdigits, rfl⟩
    cases text with
    | nil => exact absurd rfl hne
    | cons c rest =>
      by_cases hc : c = '0'
      · subst hc
        rcases strtolBase_zero rest with ⟨x, c, tail, rfl, hx, -, hbase⟩ | ⟨-, hbase⟩
        · rw [hbase] at hdigits ⊢
          exact .hexadecimal hx hdigits
        · rw [hbase] at hdigits ⊢
          exact .octal (List.forall_mem_cons.mp hdigits).2
      · rw [strtolBase_decimal hc] at hdigits ⊢
        exact .decimal hc hdigits

/-- A text is a signed constant if it is a constant behind its sign. -/
theorem signedConstant_iff {text : List Char} {value : ℤ} :
    SignedConstant text value ↔ ∃ number, IntConstant (strtolUnsigned text) number ∧
      value = if text.head? = some '-' then -number else number := by
  constructor
  · intro h
    cases h with
    | unsigned h =>
      obtain ⟨c, rest, rfl, -, hminus, hplus⟩ := h.head
      have hunsigned : strtolUnsigned (c :: rest) = c :: rest := if_neg (by simp [hminus, hplus])
      exact ⟨value, hunsigned.symm ▸ h, (if_neg (by simp [hminus])).symm⟩
    | positive h => exact ⟨value, h, rfl⟩
    | @negative _ number h => exact ⟨number, h, rfl⟩
  · rintro ⟨number, h, rfl⟩
    cases text with
    | nil => exact .unsigned h
    | cons c rest =>
      by_cases hminus : c = '-'
      · subst hminus
        exact .negative h
      by_cases hplus : c = '+'
      · subst hplus
        exact .positive h
      · have hunsigned : strtolUnsigned (c :: rest) = c :: rest := if_neg (by simp [hminus, hplus])
        rw [hunsigned] at h
        rw [if_neg (by simp [hminus])]
        exact .unsigned h

/-- A text is a signed constant with one value at most. -/
theorem SignedConstant.value_eq {text : List Char} {value value' : ℤ}
    (h : SignedConstant text value)
    (h' : SignedConstant text value') : value = value' := by
  obtain ⟨number, hnumber, rfl⟩ := signedConstant_iff.mp h
  obtain ⟨number', hnumber', rfl⟩ := signedConstant_iff.mp h'
  rw [(intConstant_iff.mp hnumber).2.2, (intConstant_iff.mp hnumber').2.2]

/-! ### What `strtol` reads -/

/-- Assumes: a signed constant behind blanks. It is read to its end; `errno` is set if its value is
no `long`. -/
theorem strtol_constant {s : List Char} {value : ℤ}
    (h : SignedConstant (s.dropWhile isSpace) value) :
    strtol s =
      if value < -9223372036854775808 then (-9223372036854775808, true, [])
      else if 9223372036854775807 < value then (9223372036854775807, true, [])
      else (value, false, []) := by
  obtain ⟨number, hconstant, rfl⟩ := signedConstant_iff.mp h
  obtain ⟨hne, hdigits, rfl⟩ := intConstant_iff.mp hconstant
  have hdigits : ∀ d ∈ (strtolBase (strtolUnsigned (s.dropWhile isSpace))).2,
      decide (digitValue d < (strtolBase (strtolUnsigned (s.dropWhile isSpace))).1) = true :=
    fun d hd ↦ decide_eq_true (hdigits d hd)
  rw [strtol_eq]
  simp only [List.takeWhile_eq_self_iff.mpr hdigits,
    List.dropWhile_eq_nil_iff.mpr hdigits, if_neg hne]

/-- Assumes: a text that is not empty, and not a signed constant behind blanks. It is not read to
its end. -/
theorem strtol_rest {s : List Char} (hne : s ≠ [])
    (h : ¬∃ value, SignedConstant (s.dropWhile isSpace) value) :
    (strtol s).2.2 ≠ [] := by
  intro hend
  rw [strtol_eq] at hend
  simp only at hend
  revert h hend
  generalize hdigits : (strtolBase (strtolUnsigned (s.dropWhile isSpace))).2 = digits
  generalize hbase : (strtolBase (strtolUnsigned (s.dropWhile isSpace))).1 = base
  intro h hend
  have hall : digits.takeWhile (digitValue · < base) ≠ [] ∧
      digits.dropWhile (digitValue · < base) = [] := by
    by_cases hnone : digits.takeWhile (digitValue · < base) = []
    · rw [if_pos hnone] at hend
      exact absurd hend hne
    · rw [if_neg hnone] at hend
      refine ⟨hnone, ?_⟩
      split_ifs at hend <;> exact hend
  refine h ⟨_, signedConstant_iff.mpr ⟨_, intConstant_iff.mpr ⟨?_, fun d hd ↦ ?_, rfl⟩, rfl⟩⟩
  · rw [hdigits]
    rintro rfl
    exact hall.1 rfl
  · rw [hdigits] at hd
    rw [hbase]
    exact of_decide_eq_true (List.dropWhile_eq_nil_iff.mp hall.2 d hd)

end CLib
