import Mathlib.Data.List.Basic
import Mathlib.Data.List.TakeWhile
import Mathlib.Algebra.Order.Group.Nat
import Mathlib.Tactic.Common

/-!
# Reading and writing descriptors

What `read` gives on a descriptor is a sequence of events: a character, an interruption by a signal,
or a failure, and the end of the file behind the last of them. `fd_read_line` reads up to a line
end, up to the size of its buffer or up to the end of the file, and passes interruptions.
`fd_write_n` writes a text in as many parts as `write` takes.

`Delivers` says that a sequence of events delivers a text, with any interruptions in between;
`fdReadLine_line` that the first line of such a text is read whole. `fdReadN_sends` says that
`fd_read_n` gives the start of what is sent, whatever the pieces are in which it comes.
`fdWriteN_sent` says that a write that does not fail sends its text, and `fdWriteN_sends_part` that
any other sends the start of it.
-/

set_option autoImplicit false
set_option relaxedAutoImplicit false

namespace Whatsup

/-- The string in a buffer: up to the first NUL. -/
def cString (buf : List Char) : List Char :=
  buf.takeWhile (· ≠ '\x00')

theorem takeWhile_ne_eq_self {c : Char} {text : List Char} (h : c ∉ text) :
    text.takeWhile (· ≠ c) = text := by
  refine List.takeWhile_eq_self_iff.mpr fun other hmem ↦ decide_eq_true ?_
  rintro rfl
  exact h hmem

/-- What one `read` of one character gives. -/
inductive ReadEvent
  | byte (c : Char)
  | interrupted
  | failed
deriving DecidableEq

/-- `fd_read_line`, for a buffer with room for so many characters and the terminator: the characters
read and the events that are left, or a failure. -/
def fdReadLine : ℕ → List ReadEvent → Option (List Char × List ReadEvent)
  | 0, events => some ([], events)
  | _ + 1, [] => some ([], [])
  | room + 1, .byte c :: events =>
    if c = '\n' then some ([c], events)
    else (fdReadLine room events).map fun result ↦ (c :: result.1, result.2)
  | room + 1, .interrupted :: events => fdReadLine (room + 1) events
  | _ + 1, .failed :: _ => none

/-- Every character of a line takes an event. -/
theorem fdReadLine_length {events rest : List ReadEvent} {line : List Char} {room : ℕ}
    (h : fdReadLine room events = some (line, rest)) :
    line.length + rest.length ≤ events.length := by
  fun_induction fdReadLine room events generalizing line with
  | case1 events =>
    obtain ⟨rfl, rfl⟩ := Prod.mk.inj (Option.some.inj h)
    exact (Nat.zero_add _).le
  | case2 room =>
    obtain ⟨rfl, rfl⟩ := Prod.mk.inj (Option.some.inj h)
    exact le_rfl
  | case3 room events =>
    obtain ⟨rfl, rfl⟩ := Prod.mk.inj (Option.some.inj h)
    exact (Nat.add_comm _ _).le
  | case4 room c events _ ih =>
    obtain ⟨⟨line', rest'⟩, hread, hresult⟩ := Option.map_eq_some_iff.mp h
    obtain ⟨rfl, rfl⟩ := Prod.mk.inj hresult
    simpa only [List.length_cons, Nat.add_right_comm] using Nat.succ_le_succ (ih hread)
  | case5 room events ih => exact (ih h).trans (Nat.le_succ _)
  | case6 => exact absurd h (by simp)

/-- A sequence of events delivers a text: its characters are the text, and no read fails. -/
inductive Delivers : List ReadEvent → List Char → Prop
  | nil : Delivers [] []
  | byte {events : List ReadEvent} {text : List Char} (c : Char) (h : Delivers events text) :
    Delivers (.byte c :: events) (c :: text)
  | interrupted {events : List ReadEvent} {text : List Char} (h : Delivers events text) :
    Delivers (.interrupted :: events) text

/-- A text whose characters come one after another is delivered. -/
theorem delivers_map_byte (text : List Char) : Delivers (text.map .byte) text := by
  induction text with
  | nil => exact .nil
  | cons c text ih => exact .byte c ih

/-- Assumes: events that deliver a line with its end and further text, and room for the line. The
line is read, and the events that are left deliver the further text. -/
theorem fdReadLine_line {events : List ReadEvent} {whole : List Char} (h : Delivers events whole) :
    ∀ {line rest : List Char} {room : ℕ}, whole = line ++ '\n' :: rest → (∀ c ∈ line, c ≠ '\n') →
      line.length < room →
      ∃ events', fdReadLine room events = some (line ++ ['\n'], events') ∧
        Delivers events' rest := by
  induction h with
  | nil => exact fun hwhole _ _ ↦ absurd hwhole.symm (by simp)
  | @byte events text c hdelivers ih =>
    intro line rest room hwhole hline hroom
    obtain ⟨room, rfl⟩ := Nat.exists_eq_add_of_lt hroom
    cases line with
    | nil =>
      obtain ⟨rfl, rfl⟩ := List.cons.inj hwhole
      exact ⟨events, by simp [fdReadLine], hdelivers⟩
    | cons first line =>
      obtain ⟨rfl, hrest⟩ := List.cons.inj hwhole
      obtain ⟨hfirst, hline⟩ := List.forall_mem_cons.mp hline
      obtain ⟨events', hread, hdelivers'⟩ := @ih line rest (line.length + room + 1) hrest hline
        (by omega)
      refine ⟨events', ?_, hdelivers'⟩
      have hsize : (c :: line).length + room + 1 = line.length + room + 1 + 1 := by
        rw [List.length_cons]
        omega
      rw [hsize, fdReadLine, if_neg hfirst, hread]
      rfl
  | interrupted hdelivers ih =>
    intro line rest room hwhole hline hroom
    obtain ⟨room, rfl⟩ := Nat.exists_eq_add_of_lt hroom
    rw [fdReadLine]
    exact ih hwhole hline hroom

/-- Assumes: events that deliver the start of a line and no more, and room for it. All of it is
read. -/
theorem fdReadLine_last {events : List ReadEvent} {line : List Char} (h : Delivers events line) :
    ∀ {room : ℕ}, (∀ c ∈ line, c ≠ '\n') → line.length < room →
      fdReadLine room events = some (line, []) := by
  induction h with
  | nil =>
    intro room _ hroom
    obtain ⟨room, rfl⟩ := Nat.exists_eq_add_of_lt hroom
    rfl
  | @byte events text c hdelivers ih =>
    intro room hline hroom
    obtain ⟨room, rfl⟩ := Nat.exists_eq_add_of_lt hroom
    obtain ⟨hc, hline⟩ := List.forall_mem_cons.mp hline
    have hread := @ih (text.length + room + 1) hline (by omega)
    have hsize : (c :: text).length + room + 1 = text.length + room + 1 + 1 := by
      rw [List.length_cons]
      omega
    rw [hsize, fdReadLine, if_neg hc, hread]
    rfl
  | interrupted hdelivers ih =>
    intro room hline hroom
    obtain ⟨room, rfl⟩ := Nat.exists_eq_add_of_lt hroom
    rw [fdReadLine]
    exact ih hline hroom

/-- Assumes: events that deliver nothing. The end of the file is read. -/
theorem fdReadLine_end {events : List ReadEvent} {text : List Char} (h : Delivers events text)
    (htext : text = []) (room : ℕ) : fdReadLine (room + 1) events = some ([], []) := by
  induction h with
  | nil => rfl
  | byte c _ _ => exact absurd htext (by simp)
  | interrupted _ ih => exact ih htext

/-! ### `fd_read_n` -/

/-- What a `read` of many characters finds: text that has come in, of which it takes as much as it
asks for, an interruption, or a failure. It is the end of the file at a text of no characters, and
behind the last event. -/
inductive InputEvent
  | data (text : List Char)
  | interrupted
  | failed
deriving DecidableEq

/-- `fd_read_n`: the characters read and the events that are left, or a failure. -/
def fdReadN : ℕ → List InputEvent → Option (List Char × List InputEvent)
  | 0, events => some ([], events)
  | _ + 1, [] => some ([], [])
  | nleft + 1, .data text :: events =>
    if text = [] then some ([], events)
    else if nleft + 1 < text.length then some (text.take (nleft + 1),
      .data (text.drop (nleft + 1)) :: events)
    else (fdReadN (nleft + 1 - text.length) events).map fun result ↦ (text ++ result.1, result.2)
  | nleft + 1, .interrupted :: events => fdReadN (nleft + 1) events
  | _ + 1, .failed :: _ => none

/-- A sequence of events sends a text: its pieces, none of which is empty, make up the text, and no
read fails. -/
inductive Sends : List InputEvent → List Char → Prop
  | nil : Sends [] []
  | data {events : List InputEvent} {text : List Char} (piece : List Char) (hpiece : piece ≠ [])
    (h : Sends events text) :
    Sends (.data piece :: events) (piece ++ text)
  | interrupted {events : List InputEvent} {text : List Char} (h : Sends events text) :
    Sends (.interrupted :: events) text

/-- Assumes: events that send a text. `fd_read_n` gives its start, and the events that are left send
the rest. -/
theorem fdReadN_sends {events : List InputEvent} {text : List Char} (h : Sends events text) :
    ∀ n, ∃ events', fdReadN n events = some (text.take n, events') ∧
      Sends events' (text.drop n) := by
  induction h with
  | nil =>
    intro n
    refine ⟨[], ?_, ?_⟩
    · cases n <;> rfl
    · rw [List.drop_nil]
      exact .nil
  | @data events text piece hpiece hsends ih =>
    intro n
    cases n with
    | zero => exact ⟨_, rfl, .data piece hpiece hsends⟩
    | succ nleft =>
      rw [fdReadN, if_neg hpiece]
      by_cases hmore : nleft + 1 < piece.length
      · -- the piece is cut, and its rest is read the next time
        refine ⟨.data (piece.drop (nleft + 1)) :: events, ?_, ?_⟩
        · rw [if_pos hmore, List.take_append_of_le_length hmore.le]
        · rw [List.drop_append_of_le_length hmore.le]
          exact .data _ (fun hempty ↦ by rw [List.drop_eq_nil_iff] at hempty; omega) hsends
      · obtain ⟨events', hread, hsends'⟩ := ih (nleft + 1 - piece.length)
        refine ⟨events', ?_, ?_⟩
        · rw [if_neg hmore, hread, List.take_append, List.take_of_length_le (not_lt.mp hmore)]
          rfl
        · rw [List.drop_append, List.drop_eq_nil_of_le (not_lt.mp hmore), List.nil_append]
          exact hsends'
  | @interrupted events text hsends ih =>
    intro n
    cases n with
    | zero => exact ⟨_, rfl, .interrupted hsends⟩
    | succ nleft => exact ih (nleft + 1)

/-! ### `fd_write_n` -/

/-- What one `write` gives: a number of characters it has taken, an interruption, or a failure,
which is `EPIPE` if the other side is gone. -/
inductive WriteEvent
  | wrote (count : ℕ)
  | interrupted
  | failed (epipe : Bool)
deriving DecidableEq

/-- What `fd_write_n` does: the text it has sent, and either the events that are left or the
failure. -/
structure Written where
  sent : List Char
  result : Except Bool (List WriteEvent)

/-- `fd_write_n`. Behind the last event every `write` takes the whole text. -/
def fdWriteN (text : List Char) : List WriteEvent → Written
  | [] => { sent := text, result := .ok [] }
  | event :: events =>
    if text = [] then { sent := [], result := .ok (event :: events) }
    else
      match event with
      | .wrote count =>
        let written := fdWriteN (text.drop count) events
        { sent := text.take count ++ written.sent, result := written.result }
      | .interrupted => fdWriteN text events
      | .failed epipe => { sent := [], result := .error epipe }

/-- Whatever comes of a write, it sends a start of its text. -/
theorem fdWriteN_sends_part (text : List Char) (events : List WriteEvent) :
    (fdWriteN text events).sent <+: text := by
  fun_induction fdWriteN text events with
  | case1 => exact List.prefix_rfl
  | case2 => exact List.nil_prefix
  | case3 text events _ count _ ih =>
    obtain ⟨rest, hrest⟩ := ih
    exact ⟨rest, by rw [List.append_assoc, hrest, List.take_append_drop]⟩
  | case4 text events _ ih => exact ih
  | case5 => exact List.nil_prefix

/-- Assumes: a write that does not fail. It sends its text. -/
theorem fdWriteN_sent {text : List Char} {events rest : List WriteEvent}
    (h : (fdWriteN text events).result = .ok rest) : (fdWriteN text events).sent = text := by
  fun_induction fdWriteN text events with
  | case1 => rfl
  | case2 event events => rfl
  | case3 text events _ count _ ih => rw [ih h, List.take_append_drop]
  | case4 text events _ ih => exact ih h
  | case5 text events _ epipe => exact absurd h (by simp)

/-- Assumes: events none of which is a failure. The write does not fail, and the events that are
left are from behind. -/
theorem exists_fdWriteN (text : List Char) {events : List WriteEvent}
    (h : ∀ epipe, .failed epipe ∉ events) :
    ∃ rest, (fdWriteN text events).result = .ok rest ∧ rest <:+ events := by
  fun_induction fdWriteN text events with
  | case1 => exact ⟨[], rfl, List.suffix_rfl⟩
  | case2 event events => exact ⟨_, rfl, List.suffix_rfl⟩
  | case3 text events _ count _ ih =>
    obtain ⟨rest, hrest, hsuffix⟩ := ih fun epipe hmem ↦ h epipe (List.mem_cons_of_mem _ hmem)
    exact ⟨rest, hrest, hsuffix.trans (List.suffix_cons _ _)⟩
  | case4 text events _ ih =>
    obtain ⟨rest, hrest, hsuffix⟩ := ih fun epipe hmem ↦ h epipe (List.mem_cons_of_mem _ hmem)
    exact ⟨rest, hrest, hsuffix.trans (List.suffix_cons _ _)⟩
  | case5 text events _ epipe => exact absurd List.mem_cons_self (h epipe)

end Whatsup
