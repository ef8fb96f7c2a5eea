import Whatsup.Hostlist.Order
import Whatsup.Hostlist.Print

/-!
# Printing ranges as they are written

The widths of two ranges may differ though they write all numbers of their ranges alike.
`hostlist_ranged_string` prints what is written: `hostlistRangedString_congr` says that lists of
ranges that are written alike (`HostRange.normal`) are printed alike, for every buffer, and
`rangedText_congr` that their texts are the same.
-/

set_option autoImplicit false
set_option relaxedAutoImplicit false

namespace Whatsup

open CLib

/-! ### Ranges -/

/-- The numbers of a range are written as the range as it is written writes them. -/
theorem padded_digits {hr : HostRange} {number : ℕ} (h : hr.lo ≤ number) :
    padded hr.digits number = padded hr.width number := by
  have hdigits := numDigits_mono h
  rw [padded_eq_padded_iff]
  unfold HostRange.digits
  omega

theorem numberText_normal (hr : HostRange) : numberText hr.normal = numberText hr := by
  change (if hr.singlehost then [] else if hr.lo < hr.hi then padded hr.digits hr.lo ++ '-' ::
    padded hr.digits hr.hi
    else padded hr.digits hr.lo) = _
  unfold numberText
  rw [padded_digits le_rfl]
  by_cases hseveral : hr.lo < hr.hi
  · rw [padded_digits hseveral.le]
  · simp only [hseveral, if_false]

theorem hostrangeNumstr_normal (hr : HostRange) (n : ℕ) (buf : List Char) (pos : ℕ) :
    hostrangeNumstr hr.normal n buf pos = hostrangeNumstr hr n buf pos := by
  have hlo : padded hr.normal.width hr.lo = padded hr.width hr.lo := padded_digits le_rfl
  unfold hostrangeNumstr
  rw [HostRange.singlehost_normal, HostRange.lo_normal, HostRange.hi_normal, hlo]
  by_cases hseveral : hr.lo < hr.hi
  · have hhi : padded hr.normal.width hr.hi = padded hr.width hr.hi := padded_digits hseveral.le
    rw [hhi]
  · simp only [hseveral, and_false, if_false]

theorem bracketedRound_normal (bracketNeeded : Bool) (n : ℕ) (hr : HostRange) (len : ℕ)
    (buf : List Char) :
    bracketedRound bracketNeeded n hr.normal len buf =
      bracketedRound bracketNeeded n hr len buf := by
  unfold bracketedRound
  rw [hostrangeNumstr_normal]

theorem isBracketNeeded_normal (hr : HostRange) (rest : List HostRange) :
    isBracketNeeded hr.normal (rest.map HostRange.normal).head? =
      isBracketNeeded hr rest.head? := by
  cases rest <;> rfl

/-! ### Groups -/

/-- What the printing of a group leaves, with the ranges from `start` on as they are written. -/
def normalStart (printed : ℕ × List HostRange × List Char) : ℕ × List HostRange × List Char :=
  (printed.1, printed.2.1.map HostRange.normal, printed.2.2)

theorem bracketedLoop_normal (bracketNeeded : Bool) (n : ℕ) (rest : List HostRange) :
    ∀ (hr : HostRange) (len : ℕ) (buf : List Char),
      bracketedLoop bracketNeeded n hr.normal (rest.map HostRange.normal) len buf =
        (bracketedLoop bracketNeeded n hr rest len buf).map normalStart := by
  induction rest with
  | nil =>
    intro hr len buf
    rw [List.map_nil, bracketedLoop, bracketedLoop, bracketedRound_normal]
    cases bracketedRound bracketNeeded n hr len buf with
    | none => rfl
    | some round =>
      obtain ⟨len', stop, buf'⟩ := round
      cases stop <;> rfl
  | cons next rest ih =>
    intro hr len buf
    rw [List.map_cons, bracketedLoop, bracketedLoop, bracketedRound_normal]
    cases bracketedRound bracketNeeded n hr len buf with
    | none => rfl
    | some round =>
      obtain ⟨len', stop, buf'⟩ := round
      cases stop with
      | true => rfl
      | false =>
        have hwithin : hostrangeWithinRange next.normal hr.normal = hostrangeWithinRange next hr :=
          rfl
        simp only [Option.bind_eq_bind, Option.bind_some, Bool.false_eq_true, if_false, hwithin]
        split_ifs
        · exact ih next len' buf'
        · rfl

theorem getBracketedList_normal (hr : HostRange) (rest : List HostRange) (n : ℕ) (buf : List Char) :
    getBracketedList hr.normal (rest.map HostRange.normal) n buf =
      (getBracketedList hr rest n buf).map normalStart := by
  have hopened : ∀ (bracketNeeded : Bool) (opened : ℕ × List Char),
      ((bracketedLoop bracketNeeded n hr.normal (rest.map HostRange.normal) opened.1 opened.2).bind
          fun looped ↦
        (closeBracketed bracketNeeded n looped.1 looped.2.2).bind fun buf ↦
          some (looped.1, looped.2.1, buf)) =
      ((bracketedLoop bracketNeeded n hr rest opened.1 opened.2).bind fun looped ↦
        (closeBracketed bracketNeeded n looped.1 looped.2.2).bind fun buf ↦
          some (looped.1, looped.2.1, buf)).map
          normalStart := by
    intro bracketNeeded opened
    rw [bracketedLoop_normal]
    cases bracketedLoop bracketNeeded n hr rest opened.1 opened.2 with
    | none => rfl
    | some looped =>
      simp only [Option.map_some, Option.bind_some, normalStart]
      cases closeBracketed bracketNeeded n looped.1 looped.2.2 <;> rfl
  unfold getBracketedList
  rw [isBracketNeeded_normal, HostRange.pfx_normal]
  cases snprintf buf 0 n hr.pfx with
  | none => rfl
  | some printed =>
    simp only [Option.bind_eq_bind, Option.bind_some]
    split_ifs
    · rfl
    · cases putChar printed.2 printed.1 '[' with
      | none => rfl
      | some opened => exact hopened _ opened
    · exact hopened _ printed

/-! ### Lists -/

theorem rangedLoop_normal (n rounds : ℕ) :
    ∀ (ranges : List HostRange) (len : ℕ) (buf : List Char),
      rangedLoop n rounds (ranges.map HostRange.normal) len buf =
        rangedLoop n rounds ranges len buf := by
  induction rounds with
  | zero => exact fun _ _ _ ↦ rfl
  | succ rounds ih =>
    intro ranges len buf
    cases ranges with
    | nil => rfl
    | cons hr rest =>
      rw [List.map_cons, rangedLoop, rangedLoop]
      split_ifs
      · rfl
      · rw [getBracketedList_normal]
        cases getBracketedList hr rest (n - len) (buf.drop len) with
        | none => rfl
        | some listed =>
          have hlen : (normalStart listed).1 = listed.1 := rfl
          have hbuf : (normalStart listed).2.2 = listed.2.2 := rfl
          have hstart : (normalStart listed).2.1 ≠ [] ↔ listed.2.1 ≠ [] := List.map_eq_nil_iff.not
          have hlater : ∀ len buf, rangedLoop n rounds (normalStart listed).2.1 len buf =
              rangedLoop n rounds listed.2.1 len buf :=
            ih _
          simp only [Option.map_some, Option.bind_eq_bind, Option.bind_some, hlen, hbuf,
            hstart, hlater]

/-- Assumes: ranges that are written alike. The lists are printed alike. -/
theorem hostlistRangedString_congr {hl hl' : Hostlist}
    (h : hl'.ranges.map HostRange.normal = hl.ranges.map HostRange.normal) (n : ℕ)
    (buf : List Char) :
    hostlistRangedString hl' n buf = hostlistRangedString hl n buf := by
  have hlength : hl'.ranges.length = hl.ranges.length := by
    rw [← List.length_map HostRange.normal, h, List.length_map]
  unfold hostlistRangedString
  rw [← rangedLoop_normal n _ hl'.ranges, h, rangedLoop_normal, hlength]

/-- Splitting the images of a list. -/
theorem splitBy_map {α β : Type} (f : α → β) (related : β → β → Bool) (items : List α) :
    (items.map f).splitBy related =
      (items.splitBy fun a b ↦ related (f a) (f b)).map (List.map f) := by
  have hflatten : items.map f =
      ((items.splitBy fun a b ↦ related (f a) (f b)).map (List.map f)).flatten := by
    rw [← List.map_flatten, List.flatten_splitBy]
  rw [hflatten, List.splitBy_flatten]
  · intro hnil
    obtain ⟨group, hgroup, hempty⟩ := List.mem_map.mp hnil
    exact List.ne_nil_of_mem_splitBy hgroup (List.map_eq_nil_iff.mp hempty)
  · intro group hgroup
    obtain ⟨items', hitems, rfl⟩ := List.mem_map.mp hgroup
    exact (List.isChain_map f).mpr (List.isChain_of_mem_splitBy hitems)
  · refine (List.isChain_map _).mpr ((List.isChain_getLast_head_splitBy _ items).imp ?_)
    rintro group group' ⟨hne, hne', hapart⟩
    exact ⟨by simpa using hne, by simpa using hne', by simpa using hapart⟩

/-- The text of ranges is that of the ranges as they are written. -/
theorem rangedText_normal (ranges : List HostRange) : rangedText (ranges.map HostRange.normal) =
    rangedText ranges := by
  have hgroup : ∀ group : List HostRange, groupText (group.map HostRange.normal) =
      groupText group := by
    intro group
    cases group with
    | nil => rfl
    | cons hr rest =>
      rw [List.map_cons, groupText, groupText, isBracketNeeded_normal, HostRange.pfx_normal,
        numberText_normal,
        ← List.map_cons, List.map_map]
      simp only [Function.comp_def, numberText_normal]
  unfold rangedText
  rw [splitBy_map, List.map_map]
  simp only [Function.comp_def, hgroup]
  rfl

/-- Assumes: ranges that are written alike. Their texts are the same. -/
theorem rangedText_congr {ranges ranges' : List HostRange}
    (h : ranges'.map HostRange.normal = ranges.map HostRange.normal) :
    rangedText ranges' = rangedText ranges := by
  rw [← rangedText_normal, h, rangedText_normal]

end Whatsup
