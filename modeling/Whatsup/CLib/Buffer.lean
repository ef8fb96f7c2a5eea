import Mathlib.Tactic.Common
import Mathlib.Data.List.Basic

/-!
# Character buffers and `snprintf`

A C buffer is the list of its cells. A write to an index outside is the outcome `none`: it is
undefined in C. `snprintf` cuts what it prints to the room it is given and returns the length of
the whole text. Texts are printed one behind the other; `snprintf_printed` and `writeChar_printed`
say that a text that fits stands behind what was printed before.
-/

set_option autoImplicit false
set_option relaxedAutoImplicit false

namespace CLib

/-! ### Definitions -/

/-- `buf[pos] = c`. -/
def writeChar (buf : List Char) (pos : ℕ) (c : Char) : Option (List Char) :=
  if pos < buf.length then some (buf.set pos c) else none

/-- `snprintf(buf + pos, room, "%s", text)`: the length of the text, and the buffer, into which at
most `room` characters are written, the terminator included. -/
def snprintf (buf : List Char) (pos room : ℕ) (text : List Char) : Option (ℕ × List Char) :=
  if room = 0 then some (text.length, buf)
  else
    let out := text.take (room - 1) ++ ['\x00']
    if pos + out.length ≤ buf.length then
      some (text.length, buf.take pos ++ out ++ buf.drop (pos + out.length))
    else none

/-- `strcat`, for an array of so many characters: the string behind it, unless it and its terminator
do not fit. -/
def strcat (size : ℕ) (buf text : List Char) : Option (List Char) :=
  if buf.length + text.length < size then some (buf ++ text) else none

/-- Addition of two `int` that are not negative; `none` if the sum is no `int`, which is undefined
in C. -/
def intAdd (left right : ℕ) : Option ℕ :=
  if left + right < 2147483648 then some (left + right) else none

/-! ### What has been printed -/

/-- Assumes: a sum that is defined. It is the sum. -/
theorem eq_add_of_intAdd {left right sum : ℕ} (h : intAdd left right = some sum) :
    sum = left + right := by
  unfold intAdd at h
  split_ifs at h with hint
  exact (Option.some.inj h).symm

/-- Assumes: a buffer that starts with a text. Writing a character right behind it makes the buffer
start with the text and the character. -/
theorem writeChar_printed {buf buf' text : List Char} {c : Char} (htext : text <+: buf)
    (h : writeChar buf text.length c = some buf') : text ++ [c] <+: buf' := by
  obtain ⟨rest, rfl⟩ := htext
  unfold writeChar at h
  split_ifs at h with hpos
  obtain rfl := Option.some.inj h
  rw [List.length_append] at hpos
  obtain ⟨d, tail, rfl⟩ := List.exists_cons_of_ne_nil (List.ne_nil_of_length_pos
    (show 0 < rest.length by omega))
  exact ⟨tail, by simp⟩

/-- Assumes: a buffer that starts with a text. Writing a character anywhere behind it keeps the
text. -/
theorem writeChar_keeps {buf buf' text : List Char} {pos : ℕ} {c : Char} (htext : text <+: buf)
    (hpos : text.length ≤ pos) (h : writeChar buf pos c = some buf') : text <+: buf' := by
  obtain ⟨rest, rfl⟩ := htext
  unfold writeChar at h
  split_ifs at h with hlt
  obtain rfl := Option.some.inj h
  rw [List.set_append_right _ _ hpos]
  exact ⟨_, rfl⟩

/-- The length that `snprintf` returns. -/
theorem snprintf_length {buf buf' text : List Char} {pos room len : ℕ}
    (h : snprintf buf pos room text = some (len, buf')) : len = text.length := by
  unfold snprintf at h
  split_ifs at h with hroom
  · exact (Prod.mk.inj (Option.some.inj h)).1.symm
  · simp only at h
    split_ifs at h with hfits
    exact (Prod.mk.inj (Option.some.inj h)).1.symm

/-- Assumes: a buffer that starts with a text, and a new text that fits into the room behind it.
After `snprintf` the buffer starts with both. -/
theorem snprintf_printed {buf buf' text new : List Char} {room len : ℕ} (htext : text <+: buf)
    (h : snprintf buf text.length room new = some (len, buf')) (hfits : new.length < room) :
    text ++ new <+: buf' := by
  obtain ⟨rest, rfl⟩ := htext
  unfold snprintf at h
  rw [if_neg (by omega)] at h
  simp only at h
  split_ifs at h with hinside
  obtain rfl := (Prod.mk.inj (Option.some.inj h)).2
  rw [List.take_left, List.take_of_length_le (by omega), List.append_assoc, List.append_assoc]
  exact (List.prefix_append_right_inj text).mpr (List.prefix_append _ _)

/-- A position behind the buffer. The write is undefined. -/
theorem writeChar_outside {buf : List Char} {pos : ℕ} (c : Char) (h : buf.length ≤ pos) :
    writeChar buf pos c = none :=
  if_neg (by omega)

/-- Assumes: a buffer that starts with a text and has the room behind it. `snprintf` behind the text
succeeds, whether or not the new text fits, and keeps the size of the buffer and the text. -/
theorem snprintf_inside {buf text : List Char} (room : ℕ) (new : List Char) (htext : text <+: buf)
    (hroom : text.length + room ≤ buf.length) :
    ∃ buf', snprintf buf text.length room new = some (new.length, buf') ∧ buf'.length = buf.length ∧
      text <+: buf' := by
  unfold snprintf
  by_cases hzero : room = 0
  · exact ⟨buf, if_pos hzero, rfl, htext⟩
  · have hout : (new.take (room - 1) ++ ['\x00']).length ≤ room := by
      rw [List.length_append, List.length_take, List.length_singleton]
      omega
    rw [if_neg hzero]
    refine ⟨_, if_pos (by omega), ?_, ?_⟩
    · rw [List.length_append, List.length_append, List.length_take, List.length_drop]
      omega
    · obtain ⟨rest, rfl⟩ := htext
      rw [List.take_left, List.append_assoc]
      exact List.prefix_append _ _

end CLib
