import Mathlib.Data.List.SplitBy
import Whatsup.CLib.Buffer
import Whatsup.Hostlist.Push

/-!
# The ranged string of a hostlist

`hostlist_ranged_string` prints a list range by range. Adjacent ranges of one prefix share a pair of
brackets, `prefix[n-m,k]`; every number is padded to the width of its own range. The text goes into
a buffer of a given size, in which each step tests the room that is left.

`hostlistRangedString_printed` gives the text of a call that succeeds, `rangedText`: the ranges fall
into the longest runs that can be printed together, and the texts of these groups (`GroupText`)
stand in the buffer with commas between them.
-/

set_option autoImplicit false
set_option relaxedAutoImplicit false

namespace Whatsup

open CLib

/-! ### The printer -/

/-- `hostrange_numstr(hr, n, buf + pos)`. -/
def hostrangeNumstr (hr : HostRange) (n : ℕ) (buf : List Char) (pos : ℕ) :
    Option (ℕ × List Char) :=
  if hr.singlehost = true ∨ n = 0 then some (0, buf)
  else do
    let (len, buf) ← snprintf buf pos n (padded hr.width hr.lo)
    if len < n ∧ hr.lo < hr.hi then do
      let (len2, buf) ← snprintf buf (pos + len) (n - len) ('-' :: padded hr.width hr.hi)
      return (len + len2, buf)
    else return (len, buf)

/-- `_is_bracket_needed`, for a range and the one behind it, if there is one. -/
def isBracketNeeded (h1 : HostRange) (h2 : Option HostRange) : Bool :=
  1 < hostrangeCount h1 || h2.any (hostrangeWithinRange h1)

/-- `buf[len++] = c`. -/
def putChar (buf : List Char) (len : ℕ) (c : Char) : Option (ℕ × List Char) := do
  let buf ← writeChar buf len c
  return (len + 1, buf)

/-- The body of the loop of `_get_bracketed_list` for one range: the length printed, whether the
loop is left by `break`, and the buffer. -/
def bracketedRound (bracketNeeded : Bool) (n : ℕ) (hr : HostRange) (len : ℕ) (buf : List Char) :
    Option (ℕ × Bool × List Char) := do
  let (m, buf) ← hostrangeNumstr hr (n - len) buf len
  let len ← intAdd len m
  if n ≤ len then return (len, true, buf)
  else if bracketNeeded then do
    let (len, buf) ← putChar buf len ','
    return (len, false, buf)
  else return (len, false, buf)

/-- The loop of `_get_bracketed_list` from the current range on: the length printed, the ranges from
`start` on, and the buffer. -/
def bracketedLoop (bracketNeeded : Bool) (n : ℕ) (hr : HostRange) :
    List HostRange → ℕ → List Char → Option (ℕ × List HostRange × List Char)
  | [], len, buf => do
    let (len, stop, buf) ← bracketedRound bracketNeeded n hr len buf
    return (len, if stop then [hr] else [], buf)
  | next :: rest, len, buf => do
    let (len, stop, buf) ← bracketedRound bracketNeeded n hr len buf
    if stop then return (len, hr :: next :: rest, buf)
    else if hostrangeWithinRange next hr then bracketedLoop bracketNeeded n next rest len buf
    else return (len, next :: rest, buf)

/-- The end of `_get_bracketed_list`: the last comma becomes the closing bracket, and the buffer is
terminated. -/
def closeBracketed (bracketNeeded : Bool) (n len : ℕ) (buf : List Char) : Option (List Char) :=
  if bracketNeeded = true ∧ len < n ∧ 0 < len then do
    let buf ← writeChar buf (len - 1) ']'
    writeChar buf len '\x00'
  else if n ≤ len then
    if 0 < n then writeChar buf (n - 1) '\x00' else some buf
  else writeChar buf len '\x00'

/-- `_get_bracketed_list` for the ranges from `start` on, of which there is at least one. -/
def getBracketedList (hr : HostRange) (rest : List HostRange) (n : ℕ) (buf : List Char) :
    Option (ℕ × List HostRange × List Char) := do
  let bracketNeeded := isBracketNeeded hr rest.head?
  let (len, buf) ← snprintf buf 0 n hr.pfx
  if n < len then return (n, hr :: rest, buf)
  else do
    let (len, buf) ← if bracketNeeded = true ∧ len < n then putChar buf len '[' else pure (len, buf)
    let (len, start, buf) ← bracketedLoop bracketNeeded n hr rest len buf
    let buf ← closeBracketed bracketNeeded n len buf
    return (len, start, buf)

/-- The loop of `hostlist_ranged_string`. A round that leaves room in the buffer passes a range, so
that the number of ranges bounds the rounds. -/
def rangedLoop (n : ℕ) : ℕ → List HostRange → ℕ → List Char → Option (ℕ × List Char)
  | 0, _, len, buf => some (len, buf)
  | _ + 1, [], len, buf => some (len, buf)
  | rounds + 1, hr :: rest, len, buf =>
    if n ≤ len then some (len, buf)
    else do
      let (m, start, tail) ← getBracketedList hr rest (n - len) (buf.drop len)
      let buf := buf.take len ++ tail
      let len ← intAdd len m
      let (len, buf) ← if 0 < len ∧ len < n ∧
        start ≠ [] then putChar buf len ',' else pure (len, buf)
      rangedLoop n rounds start len buf

/-- `hostlist_ranged_string`: the length of the text, or `-1` if it does not fit, and the buffer. -/
def hostlistRangedString (hl : Hostlist) (n : ℕ) (buf : List Char) : Option (ℤ × List Char) := do
  let (len, buf) ← rangedLoop n hl.ranges.length hl.ranges 0 buf
  if n ≤ len then do
    let buf ← if 0 < n then writeChar buf (n - 1) '\x00' else pure buf
    return (-1, buf)
  else do
    let buf ← writeChar buf len '\x00'
    return ((len : ℤ), buf)

/-! ### The text -/

/-- The numbers of a range as `hostrange_numstr` prints them. -/
def numberText (hr : HostRange) : List Char :=
  if hr.singlehost then []
  else if hr.lo < hr.hi then padded hr.width hr.lo ++ '-' :: padded hr.width hr.hi
  else padded hr.width hr.lo

/-- The text of consecutive ranges that are printed together: one range of at most one host without
brackets, or ranges of one prefix in one pair of brackets. -/
inductive GroupText : List HostRange → List Char → Prop
  | single {hr : HostRange} (hcount : hostrangeCount hr ≤ 1) :
    GroupText [hr] (hr.pfx ++ numberText hr)
  | bracketed {pfx : List Char} {group : List HostRange} (hne : group ≠ [])
    (hgroup : ∀ hr ∈ group, hr.pfx = pfx ∧ hr.singlehost = false) :
    GroupText group (pfx ++ '[' :: [','].intercalate (group.map numberText) ++ [']'])

/-- The text of ranges that are printed together: in one pair of brackets, or a single range without
brackets. -/
def groupText : List HostRange → List Char
  | [] => []
  | hr :: rest =>
    if isBracketNeeded hr rest.head? then
      hr.pfx ++ '[' :: [','].intercalate ((hr :: rest).map numberText) ++ [']']
    else hr.pfx ++ numberText hr

/-- The text of ranges: the longest runs of ranges that are printed together, with commas between
them. -/
def rangedText (ranges : List HostRange) : List Char :=
  [','].intercalate ((ranges.splitBy hostrangeWithinRange).map groupText)

/-- Joining at least two texts. -/
theorem intercalate_cons_cons (sep first second : List Char) (rest : List (List Char)) :
    sep.intercalate (first :: second :: rest) =
      first ++ (sep ++ sep.intercalate (second :: rest)) := by
  simp [List.intercalate]

/-- Assumes: at least one text. Texts that are each followed by a comma are the joined texts and a
comma. -/
theorem flatMap_comma {α : Type} (f : α → List Char) {items : List α} (hne : items ≠ []) :
    (items.flatMap fun item ↦ f item ++ [',']) = [','].intercalate (items.map f) ++ [','] := by
  induction items with
  | nil => exact absurd rfl hne
  | cons first rest ih =>
    cases rest with
    | nil => simp [List.intercalate]
    | cons second rest =>
      rw [List.flatMap_cons, ih (List.cons_ne_nil _ _), List.map_cons, List.map_cons, List.map_cons,
        intercalate_cons_cons]
      simp

/-- Assumes: a buffer that starts with a text. `hostrange_numstr` behind it prints the numbers of
the range, unless it fills the room it is given. -/
theorem hostrangeNumstr_printed {hr : HostRange} {room len : ℕ} {buf buf' text : List Char}
    (htext : text <+: buf) (h : hostrangeNumstr hr room buf text.length = some (len, buf'))
    (hroom : len < room) : len = (numberText hr).length ∧ text ++ numberText hr <+: buf' := by
  unfold hostrangeNumstr at h
  unfold numberText
  split_ifs at h with hnone
  · obtain ⟨rfl, rfl⟩ := Prod.mk.inj (Option.some.inj h)
    have hsingle : hr.singlehost = true := hnone.resolve_right (by omega)
    rw [if_pos hsingle]
    exact ⟨rfl, by rwa [List.append_nil]⟩
  · rw [if_neg (fun hsingle ↦ hnone (Or.inl hsingle))]
    simp only [Option.bind_eq_bind, Option.bind_eq_some_iff] at h
    obtain ⟨⟨len1, buf1⟩, hfirst, h⟩ := h
    obtain rfl := snprintf_length hfirst
    simp only at h
    split_ifs at h with hmore
    · obtain ⟨⟨len2, buf2⟩, hsecond, h⟩ := Option.bind_eq_some_iff.mp h
      obtain ⟨rfl, rfl⟩ := Prod.mk.inj (Option.some.inj h)
      obtain rfl := snprintf_length hsecond
      rw [if_pos hmore.2, ← List.append_assoc]
      rw [← List.length_append] at hsecond
      exact ⟨by rw [List.length_append],
        snprintf_printed (snprintf_printed htext hfirst hmore.1) hsecond (by omega)⟩
    · obtain ⟨rfl, rfl⟩ := Prod.mk.inj (Option.some.inj h)
      rw [if_neg (fun hlt ↦ hmore ⟨hroom, hlt⟩)]
      exact ⟨rfl, snprintf_printed htext hfirst hroom⟩

/-- Assumes: a buffer that starts with a text. `putChar` behind it adds the character. -/
theorem putChar_printed {buf buf' text : List Char} {c : Char} {len : ℕ} (htext : text <+: buf)
    (h : putChar buf text.length c = some (len, buf')) :
    len = (text ++ [c]).length ∧ text ++ [c] <+: buf' := by
  obtain ⟨buf1, hwrite, hreturn⟩ := Option.bind_eq_some_iff.mp h
  obtain ⟨rfl, rfl⟩ := Prod.mk.inj (Option.some.inj hreturn)
  exact ⟨by rw [List.length_append, List.length_singleton], writeChar_printed htext hwrite⟩

/-- Two ranges are printed in one pair of brackets exactly when neither is a single host and their
prefixes are equal. -/
theorem hostrangeWithinRange_eq_true_iff {h1 h2 : HostRange} :
    hostrangeWithinRange h1 h2 = true ↔
      h1.pfx = h2.pfx ∧ h1.singlehost = false ∧ h2.singlehost = false := by
  unfold hostrangeWithinRange
  split_ifs with hpfxCmp
  · rw [hostrangePrefixCmp_eq_zero_iff] at hpfxCmp
    rw [← hpfxCmp.2]
    simp [hpfxCmp.1]
  · rw [hostrangePrefixCmp_eq_zero_iff] at hpfxCmp
    exact ⟨fun h ↦ absurd h (by decide), fun h ↦ absurd ⟨h.1, h.2.1.trans h.2.2.symm⟩ hpfxCmp⟩

/-- Two ranges are printed in one pair of brackets in either order. -/
theorem hostrangeWithinRange_comm (h1 h2 : HostRange) :
    hostrangeWithinRange h1 h2 = hostrangeWithinRange h2 h1 := by
  rw [Bool.eq_iff_iff, hostrangeWithinRange_eq_true_iff, hostrangeWithinRange_eq_true_iff]
  exact ⟨fun h ↦ ⟨h.1.symm, h.2.2, h.2.1⟩, fun h ↦ ⟨h.1.symm, h.2.2, h.2.1⟩⟩

/-- What the loop of `_get_bracketed_list` prints for one range. -/
def loopText (bracketNeeded : Bool) (hr : HostRange) : List Char :=
  numberText hr ++ if bracketNeeded then [','] else []

/-- A round of the loop that is left by `break` has filled the buffer. -/
theorem bracketedRound_stop {bracketNeeded : Bool} {n len len' : ℕ} {hr : HostRange}
    {buf buf' : List Char}
    (h : bracketedRound bracketNeeded n hr len buf = some (len', true, buf')) : n ≤ len' := by
  obtain ⟨⟨m, buf1⟩, -, h⟩ := Option.bind_eq_some_iff.mp h
  obtain ⟨sum, -, h⟩ := Option.bind_eq_some_iff.mp h
  simp only at h
  split_ifs at h with hfull hcomma
  · obtain ⟨rfl, -⟩ := Prod.mk.inj (Option.some.inj h)
    exact hfull
  · obtain ⟨⟨len2, buf2⟩, -, h⟩ := Option.bind_eq_some_iff.mp h
    simp [pure] at h
  · simp [pure] at h

/-- Assumes: a buffer that starts with a text. A round of the loop that goes on prints one range
behind the text. -/
theorem bracketedRound_printed {bracketNeeded : Bool} {n len' : ℕ} {hr : HostRange}
    {text buf buf' : List Char} (htext : text <+: buf)
    (h : bracketedRound bracketNeeded n hr text.length buf = some (len', false, buf')) :
    len' = (text ++ loopText bracketNeeded hr).length ∧
      text ++ loopText bracketNeeded hr <+: buf' := by
  obtain ⟨⟨m, buf1⟩, hnumbers, h⟩ := Option.bind_eq_some_iff.mp h
  obtain ⟨len, hadd, h⟩ := Option.bind_eq_some_iff.mp h
  obtain rfl := eq_add_of_intAdd hadd
  simp only at h
  split_ifs at h with hfull hcomma
  · simp [pure] at h
  · obtain ⟨rfl, hprinted⟩ := hostrangeNumstr_printed htext hnumbers (by omega)
    obtain ⟨⟨len, buf2⟩, hput, h⟩ := Option.bind_eq_some_iff.mp h
    simp only [pure, Option.some.injEq, Prod.mk.injEq] at h
    obtain ⟨rfl, -, rfl⟩ := h
    rw [← List.length_append] at hput
    have hcommaPut := putChar_printed hprinted hput
    rw [List.append_assoc] at hcommaPut
    rwa [loopText, if_pos hcomma]
  · obtain ⟨rfl, hprinted⟩ := hostrangeNumstr_printed htext hnumbers (by omega)
    simp only [pure, Option.some.injEq, Prod.mk.injEq] at h
    obtain ⟨rfl, -, rfl⟩ := h
    rw [loopText, if_neg hcomma, List.append_nil]
    exact ⟨by rw [List.length_append], hprinted⟩

/-- Assumes: a buffer that starts with a text, and a loop that does not fill the buffer. It prints
consecutive ranges behind the text: one range, or ranges of one prefix that are not single hosts;
and stops at one that does not belong to them. -/
theorem bracketedLoop_printed {bracketNeeded : Bool} {n len' : ℕ} {start : List HostRange}
    {buf' : List Char} (rest : List HostRange) :
    ∀ (hr : HostRange) (text buf : List Char), text <+: buf →
      bracketedLoop bracketNeeded n hr rest text.length buf = some (len', start, buf') → len' < n →
      ∃ group, hr :: rest = hr :: group ++ start ∧
        (∀ last ∈ (hr :: group).getLast?, ∀ next ∈ start.head?,
          hostrangeWithinRange last next = false) ∧
        (group ≠ [] → ∀ h ∈ hr :: group, h.pfx = hr.pfx ∧ h.singlehost = false) ∧
        len' = (text ++ (hr :: group).flatMap (loopText bracketNeeded)).length ∧
        text ++ (hr :: group).flatMap (loopText bracketNeeded) <+: buf' := by
  induction rest with
  | nil =>
    intro hr text buf htext h hroom
    obtain ⟨⟨len1, stop, buf1⟩, hround, h⟩ := Option.bind_eq_some_iff.mp h
    simp only [pure, Option.some.injEq, Prod.mk.injEq] at h
    obtain ⟨rfl, rfl, rfl⟩ := h
    cases stop with
    | true => exact absurd (bracketedRound_stop hround) (by omega)
    | false =>
      obtain ⟨hlen, hprinted⟩ := bracketedRound_printed htext hround
      exact ⟨[], rfl, by simp, fun hne ↦ absurd rfl hne, by simpa using hlen, by
        simpa using hprinted⟩
  | cons next rest ih =>
    intro hr text buf htext h hroom
    obtain ⟨⟨len1, stop, buf1⟩, hround, h⟩ := Option.bind_eq_some_iff.mp h
    cases stop with
    | true =>
      simp only [pure, if_true, Option.some.injEq, Prod.mk.injEq] at h
      obtain ⟨rfl, -⟩ := h
      exact absurd (bracketedRound_stop hround) (by omega)
    | false =>
      obtain ⟨rfl, hprinted⟩ := bracketedRound_printed htext hround
      simp only [Bool.false_eq_true, if_false] at h
      split_ifs at h with hwithin
      · obtain ⟨group, hsplit, hstop, hgroup, hlen, hbuf⟩ := ih next _ buf1 hprinted h hroom
        obtain ⟨hpfx, hnext, hhr⟩ := hostrangeWithinRange_eq_true_iff.mp hwithin
        refine ⟨next :: group, by rw [hsplit]; rfl, hstop, fun _ h hmem ↦ ?_, ?_, ?_⟩
        · rcases List.mem_cons.mp hmem with rfl | hlater
          · exact ⟨rfl, hhr⟩
          · rcases List.mem_cons.mp hlater with rfl | hmore
            · exact ⟨hpfx, hnext⟩
            · have hfound := hgroup (List.ne_nil_of_mem hmore) h hlater
              exact ⟨hfound.1.trans hpfx, hfound.2⟩
        · rw [hlen, List.flatMap_cons (x := hr), List.append_assoc]
        · rwa [List.flatMap_cons (x := hr), ← List.append_assoc]
      · simp only [pure, Option.some.injEq, Prod.mk.injEq] at h
        obtain ⟨rfl, rfl, rfl⟩ := h
        refine ⟨[], rfl, fun last hlast later hlater ↦ ?_, fun hne ↦ absurd rfl hne, by simp,
          by simpa using hprinted⟩
        obtain rfl := Option.some.inj hlast
        obtain rfl := Option.some.inj hlater
        rw [hostrangeWithinRange_comm]
        simpa using hwithin

/-- A round of the loop never shortens what was printed. -/
theorem bracketedRound_le {bracketNeeded stop : Bool} {n len len' : ℕ} {hr : HostRange}
    {buf buf' : List Char}
    (h : bracketedRound bracketNeeded n hr len buf = some (len', stop, buf')) : len ≤ len' := by
  obtain ⟨⟨m, buf1⟩, -, h⟩ := Option.bind_eq_some_iff.mp h
  obtain ⟨sum, hadd, h⟩ := Option.bind_eq_some_iff.mp h
  obtain rfl := eq_add_of_intAdd hadd
  simp only at h
  split_ifs at h with hfull hcomma
  · obtain ⟨rfl, -⟩ := Prod.mk.inj (Option.some.inj h)
    omega
  · obtain ⟨⟨len2, buf2⟩, hput, h⟩ := Option.bind_eq_some_iff.mp h
    obtain ⟨buf3, -, hput⟩ := Option.bind_eq_some_iff.mp hput
    simp only [pure, Option.some.injEq, Prod.mk.injEq] at h hput
    omega
  · obtain ⟨rfl, -⟩ := Prod.mk.inj (Option.some.inj h)
    omega

/-- The loop of `_get_bracketed_list` never shortens what was printed. -/
theorem bracketedLoop_le {bracketNeeded : Bool} {n len' : ℕ} {start : List HostRange}
    {buf' : List Char} (rest : List HostRange) :
    ∀ (hr : HostRange) (len : ℕ) (buf : List Char),
      bracketedLoop bracketNeeded n hr rest len buf = some (len', start, buf') → len ≤ len' := by
  induction rest with
  | nil =>
    intro hr len buf h
    obtain ⟨⟨len1, stop, buf1⟩, hround, h⟩ := Option.bind_eq_some_iff.mp h
    obtain ⟨rfl, -⟩ := Prod.mk.inj (Option.some.inj h)
    exact bracketedRound_le hround
  | cons next rest ih =>
    intro hr len buf h
    obtain ⟨⟨len1, stop, buf1⟩, hround, h⟩ := Option.bind_eq_some_iff.mp h
    have hle := bracketedRound_le hround
    simp only at h
    split_ifs at h with hstop hwithin
    · obtain ⟨rfl, -⟩ := Prod.mk.inj (Option.some.inj h)
      exact hle
    · exact hle.trans (ih next len1 buf1 h)
    · obtain ⟨rfl, -⟩ := Prod.mk.inj (Option.some.inj h)
      exact hle

/-- Assumes: a buffer that starts with a nonempty text and a comma, and room behind it. Closing the
brackets replaces the comma. -/
theorem closeBracketed_comma {n len : ℕ} {text buf buf' : List Char} (htext : text ++ [','] <+: buf)
    (hlen : len = (text ++ [',']).length) (hroom : len < n)
    (h : closeBracketed true n len buf = some buf') : text ++ [']'] <+: buf' := by
  rw [List.length_append, List.length_singleton] at hlen
  rw [closeBracketed, if_pos ⟨rfl, hroom, by omega⟩] at h
  obtain ⟨buf1, hbracket, hend⟩ := Option.bind_eq_some_iff.mp h
  rw [show len - 1 = text.length by omega] at hbracket
  refine writeChar_keeps (writeChar_printed ((List.prefix_append _ _).trans htext) hbracket) ?_ hend
  rw [List.length_append, List.length_singleton]
  omega

/-- Assumes: a group of ranges at the start of some ranges, which ends before a range that does not
belong to it. Its first range needs brackets in the group if it does in all the ranges. -/
theorem isBracketNeeded_group {hr : HostRange} {rest group start : List HostRange}
    (hsplit : hr :: rest = hr :: group ++ start)
    (hstop : ∀ last ∈ (hr :: group).getLast?, ∀ next ∈ start.head?,
      hostrangeWithinRange last next = false) :
    isBracketNeeded hr group.head? = isBracketNeeded hr rest.head? := by
  obtain rfl : rest = group ++ start := (List.cons.inj hsplit).2
  cases group with
  | nil =>
    unfold isBracketNeeded
    rw [List.nil_append]
    cases start with
    | nil => rfl
    | cons next later =>
      rw [List.head?_cons, Option.any_some, hstop hr rfl next rfl]
      rfl
  | cons next later => rfl

/-- Assumes: a group of ranges at the start of some ranges, printed together, which ends before a
range that does not belong to it. It is the first of the longest runs. -/
theorem splitBy_group {hr : HostRange} {rest group start : List HostRange}
    (hsplit : hr :: rest = hr :: group ++ start)
    (hstop : ∀ last ∈ (hr :: group).getLast?, ∀ next ∈ start.head?,
      hostrangeWithinRange last next = false)
    (hmany : group ≠ [] → ∀ h ∈ hr :: group, h.pfx = hr.pfx ∧ h.singlehost = false) :
    (hr :: rest).splitBy hostrangeWithinRange = (hr :: group) ::
      start.splitBy hostrangeWithinRange := by
  have hchain : (hr :: group).IsChain fun h1 h2 ↦ hostrangeWithinRange h1 h2 = true := by
    by_cases hnil : group = []
    · rw [hnil]
      exact List.isChain_singleton _
    · refine (List.pairwise_iff_forall_sublist.mpr fun {h1 h2} hsub ↦ ?_).isChain
      have h1_mem := hmany hnil h1 (hsub.subset (by simp))
      have h2_mem := hmany hnil h2 (hsub.subset (by simp))
      exact hostrangeWithinRange_eq_true_iff.mpr ⟨h1_mem.1.trans h2_mem.1.symm, h1_mem.2, h2_mem.2⟩
  rw [hsplit, List.splitBy_append hstop, List.splitBy_of_isChain (List.cons_ne_nil _ _) hchain,
    List.singleton_append]

/-- The longest runs of ranges that are printed together are groups. -/
theorem groupText_spec {ranges group : List HostRange}
    (h : group ∈ ranges.splitBy hostrangeWithinRange) :
    GroupText group (groupText group) := by
  have hchain := List.isChain_of_mem_splitBy h
  obtain ⟨hr, rest, rfl⟩ := List.exists_cons_of_ne_nil (List.ne_nil_of_mem_splitBy h)
  simp only [groupText]
  split_ifs with hneeded
  · refine GroupText.bracketed (List.cons_ne_nil _ _) ?_
    cases rest with
    | nil =>
      refine List.forall_mem_singleton.mpr ⟨rfl, ?_⟩
      by_contra hsingle
      rw [Bool.not_eq_false] at hsingle
      rw [isBracketNeeded, hostrangeCount, if_pos hsingle] at hneeded
      exact absurd hneeded (by simp)
    | cons next later =>
      have : IsTrans HostRange fun h1 h2 ↦ hostrangeWithinRange h1 h2 = true :=
          ⟨fun h1 h2 h3 h12 h23 ↦ by
        rw [hostrangeWithinRange_eq_true_iff] at h12 h23 ⊢
        exact ⟨h12.1.trans h23.1, h12.2.1, h23.2.2⟩⟩
      have htogether := (List.pairwise_cons.mp hchain.pairwise).1
      have hfirst := hostrangeWithinRange_eq_true_iff.mp (htogether next List.mem_cons_self)
      refine List.forall_mem_cons.mpr ⟨⟨rfl, hfirst.2.1⟩, fun other hmem ↦ ?_⟩
      have hother := hostrangeWithinRange_eq_true_iff.mp (htogether other hmem)
      exact ⟨hother.1.symm, hother.2.2⟩
  · have hnone : rest = [] := by
      cases rest with
      | nil => rfl
      | cons next later =>
        refine absurd ?_ hneeded
        rw [isBracketNeeded, List.head?_cons, Option.any_some, (List.isChain_cons_cons.mp hchain).1,
          Bool.or_true]
    subst hnone
    refine GroupText.single ?_
    simpa [isBracketNeeded] using hneeded

/-- Assumes: a call of `_get_bracketed_list` that leaves room in the buffer. It prints a group of
consecutive ranges, the first of the longest runs, at the start of the buffer. -/
theorem getBracketedList_printed {hr : HostRange} {rest start : List HostRange} {n len : ℕ}
    {buf buf' : List Char} (h : getBracketedList hr rest n buf = some (len, start, buf'))
    (hroom : len < n) :
    ∃ group, hr :: rest = group ++ start ∧ group ≠ [] ∧
      (hr :: rest).splitBy hostrangeWithinRange = group :: start.splitBy hostrangeWithinRange ∧
      len = (groupText group).length ∧ groupText group <+: buf' := by
  obtain ⟨⟨len1, buf1⟩, hpfx, h⟩ := Option.bind_eq_some_iff.mp h
  obtain rfl := snprintf_length hpfx
  simp only at h
  split_ifs at h with hlong hbracket
  · obtain ⟨rfl, -⟩ := Prod.mk.inj (Option.some.inj h)
    omega
  · obtain ⟨⟨len2, buf2⟩, hopen, h⟩ := Option.bind_eq_some_iff.mp h
    obtain ⟨⟨len3, start3, buf3⟩, hloop, h⟩ := Option.bind_eq_some_iff.mp h
    obtain ⟨buf4, hclose, h⟩ := Option.bind_eq_some_iff.mp h
    simp only [Option.some.injEq, Prod.mk.injEq, pure] at h
    obtain ⟨rfl, rfl, rfl⟩ := h
    simp only [hbracket.1] at hloop hclose
    have hprinted : [] ++ hr.pfx <+: buf1 :=
      snprintf_printed List.nil_prefix hpfx hbracket.2
    rw [List.nil_append] at hprinted
    obtain ⟨rfl, hprinted⟩ := putChar_printed hprinted hopen
    obtain ⟨group, hsplit, hstop, hmany, rfl, hbuf⟩ :=
      bracketedLoop_printed rest hr _ buf2 hprinted hloop hroom
    have htexts : (hr :: group).flatMap (loopText true) =
        [','].intercalate ((hr :: group).map numberText) ++ [','] :=
      flatMap_comma numberText (List.cons_ne_nil _ _)
    rw [htexts, ← List.append_assoc] at hbuf hclose hroom
    rw [htexts, ← List.append_assoc]
    have hfinal := closeBracketed_comma hbuf rfl hroom hclose
    have hneeded : isBracketNeeded hr group.head? = true :=
      (isBracketNeeded_group hsplit hstop).trans hbracket.1
    have htext : groupText (hr :: group) =
        hr.pfx ++ '[' :: [','].intercalate ((hr :: group).map numberText) ++ [']'] := if_pos hneeded
    refine ⟨hr :: group, hsplit, List.cons_ne_nil _ _, splitBy_group hsplit hstop hmany, ?_, ?_⟩
    · rw [htext]
      simp
    · rw [htext]
      simpa using hfinal
  · obtain ⟨⟨len2, buf2⟩, hsame, h⟩ := Option.bind_eq_some_iff.mp h
    obtain ⟨⟨len3, start3, buf3⟩, hloop, h⟩ := Option.bind_eq_some_iff.mp h
    obtain ⟨buf4, hclose, h⟩ := Option.bind_eq_some_iff.mp h
    simp only [Option.some.injEq, Prod.mk.injEq, pure] at h hsame
    obtain ⟨rfl, rfl, rfl⟩ := h
    obtain ⟨rfl, rfl⟩ := hsame
    have hle := bracketedLoop_le rest hr _ buf1 hloop
    have hnone : isBracketNeeded hr rest.head? = false := by
      by_contra hneeded
      exact hbracket ⟨by simpa using hneeded, lt_of_le_of_lt hle hroom⟩
    simp only [hnone] at hloop hclose
    have hprinted : [] ++ hr.pfx <+: buf1 :=
      snprintf_printed List.nil_prefix hpfx (lt_of_le_of_lt hle hroom)
    rw [List.nil_append] at hprinted
    obtain ⟨group, hsplit, hstop, hmany, rfl, hbuf⟩ :=
      bracketedLoop_printed rest hr _ buf1 hprinted hloop hroom
    have hneeded := (isBracketNeeded_group hsplit hstop).trans hnone
    have hrun := splitBy_group hsplit hstop hmany
    simp only [isBracketNeeded, Bool.or_eq_false_iff, decide_eq_false_iff_not, not_lt] at hnone
    have hnil : group = [] := by
      by_contra hne
      obtain ⟨next, tail, rfl⟩ := List.exists_cons_of_ne_nil hne
      have hhead : rest = next :: (tail ++ start3) := (List.cons.inj hsplit).2
      have hwithin : hostrangeWithinRange hr next = true :=
        hostrangeWithinRange_eq_true_iff.mpr ⟨(hmany hne next (by simp)).1.symm,
          (hmany hne hr (by simp)).2, (hmany hne next (by simp)).2⟩
      have hfalse := hnone.2
      rw [hhead, List.head?_cons, Option.any_some, hwithin] at hfalse
      exact absurd hfalse (by decide)
    subst hnil
    have htext : hr.pfx ++ [hr].flatMap (loopText false) = hr.pfx ++ numberText hr := by
      simp [loopText]
    have hplain : groupText [hr] = hr.pfx ++ numberText hr := if_neg (by simpa using hneeded)
    rw [htext] at hbuf hclose hroom
    rw [htext]
    rw [closeBracketed, if_neg (fun h ↦ absurd h.1 (by decide)), if_neg (by omega)] at hclose
    refine ⟨[hr], hsplit, List.cons_ne_nil _ _, hrun, by rw [hplain], ?_⟩
    rw [hplain]
    exact writeChar_keeps hbuf le_rfl hclose

/-- The text of a group whose names are not empty is not empty. -/
theorem GroupText.text_ne_nil {group : List HostRange} {text : List Char}
    (h : GroupText group text) (hnames : ∀ hr ∈ group, hr.pfx ++ numberText hr ≠ []) :
    text ≠ [] := by
  cases h with
  | single hcount => exact hnames _ (List.mem_singleton_self _)
  | bracketed hne hgroup => simp

/-- Assumes: a first range whose name is not empty. The text of its group is not empty. -/
theorem groupText_ne_nil {hr : HostRange} {rest : List HostRange}
    (hname : hr.pfx ++ numberText hr ≠ []) :
    groupText (hr :: rest) ≠ [] := by
  rw [groupText]
  split_ifs
  · simp
  · exact hname

/-- Assumes: a full buffer. The loop of `hostlist_ranged_string` stops. -/
theorem rangedLoop_full {n len : ℕ} (hfull : n ≤ len) (rounds : ℕ) (ranges : List HostRange)
    (buf : List Char) : rangedLoop n rounds ranges len buf = some (len, buf) := by
  cases rounds with
  | zero => rfl
  | succ rounds =>
    cases ranges with
    | nil => rfl
    | cons hr rest => rw [rangedLoop, if_pos hfull]

/-- The loop of `hostlist_ranged_string` stops at the end of the ranges. -/
theorem rangedLoop_nil (n rounds len : ℕ) (buf : List Char) :
    rangedLoop n rounds [] len buf = some (len, buf) := by
  cases rounds <;> rfl

/-- Assumes: a buffer that starts with a text, which is not empty unless the first name is not,
enough rounds, and a loop that does not fill the buffer. It prints the text of the ranges behind the
text, in groups. -/
theorem rangedLoop_printed {n len' : ℕ} {buf' : List Char} (rounds : ℕ) :
    ∀ (ranges : List HostRange) (text buf : List Char), text <+: buf → ranges.length ≤ rounds →
      (0 < text.length ∨ ∀ hr ∈ ranges.head?, hr.pfx ++ numberText hr ≠ []) →
      rangedLoop n rounds ranges text.length buf = some (len', buf') → len' < n →
      len' = (text ++ rangedText ranges).length ∧ text ++ rangedText ranges <+: buf' := by
  have hempty : rangedText [] = [] := rfl
  induction rounds with
  | zero =>
    intro ranges text buf htext hlength _ h _
    obtain rfl := List.length_eq_zero_iff.mp (Nat.le_zero.mp hlength)
    obtain ⟨rfl, rfl⟩ := Prod.mk.inj (Option.some.inj h)
    rw [hempty, List.append_nil]
    exact ⟨rfl, htext⟩
  | succ rounds ih =>
    intro ranges text buf htext hlength hnames h hroom
    cases ranges with
    | nil =>
      obtain ⟨rfl, rfl⟩ := Prod.mk.inj (Option.some.inj h)
      rw [hempty, List.append_nil]
      exact ⟨rfl, htext⟩
    | cons hr rest =>
      rw [rangedLoop] at h
      split_ifs at h with hfull
      · obtain ⟨rfl, -⟩ := Prod.mk.inj (Option.some.inj h)
        omega
      · obtain ⟨⟨m, start, tail⟩, hlist, h⟩ := Option.bind_eq_some_iff.mp h
        obtain ⟨len, hadd, h⟩ := Option.bind_eq_some_iff.mp h
        obtain rfl := eq_add_of_intAdd hadd
        have hm : m < n - text.length := by
          by_contra hlarge
          have hstop : ¬(0 < text.length + m ∧ text.length + m < n ∧ start ≠ []) := by omega
          simp only [if_neg hstop] at h
          change rangedLoop n rounds start (text.length + m) (buf.take text.length ++ tail) = _ at h
          rw [rangedLoop_full (by omega)] at h
          obtain ⟨rfl, -⟩ := Prod.mk.inj (Option.some.inj h)
          omega
        obtain ⟨group, hsplit, hne, hruns, rfl, hnew⟩ := getBracketedList_printed hlist hm
        have htake : buf.take text.length = text := List.prefix_iff_eq_take.mp htext |>.symm
        have hprinted : text ++ groupText group <+: buf.take text.length ++ tail := by
          rw [htake]
          exact (List.prefix_append_right_inj text).mpr hnew
        rw [← List.length_append] at h
        have hpositive : 0 < text.length + (groupText group).length := by
          rcases hnames with hpos | hname
          · omega
          · obtain ⟨first, later, rfl⟩ := List.exists_cons_of_ne_nil hne
            obtain rfl : hr = first := (List.cons.inj hsplit).1
            have hpos :=
              List.length_pos_iff.mpr (show groupText (hr :: later) ≠
              [] from groupText_ne_nil (hname hr rfl))
            omega
        by_cases hstart : start = []
        · subst hstart
          simp only [ne_eq, not_true_eq_false, and_false, if_false] at h
          change rangedLoop n rounds [] _ _ = _ at h
          rw [rangedLoop_nil] at h
          obtain ⟨rfl, rfl⟩ := Prod.mk.inj (Option.some.inj h)
          have htext : rangedText (hr :: rest) = groupText group := by
            rw [rangedText, hruns]
            simp [List.intercalate]
          rw [htext]
          exact ⟨rfl, hprinted⟩
        · have hcomma : 0 < (text ++ groupText group).length ∧
            (text ++ groupText group).length < n ∧
              start ≠ [] := by
            rw [List.length_append]
            exact ⟨by omega, by omega, hstart⟩
          simp only [if_pos hcomma] at h
          obtain ⟨⟨len, buf2⟩, hput, h⟩ := Option.bind_eq_some_iff.mp h
          obtain ⟨rfl, hprinted⟩ := putChar_printed hprinted hput
          have hlengths := congrArg List.length hsplit
          have hgroupLength := List.length_pos_iff.mpr hne
          rw [List.length_append] at hlengths
          obtain ⟨hlen, hbuf⟩ := ih start _ buf2 hprinted (by omega) (Or.inl (by simp)) h hroom
          have hjoin : text ++ rangedText (hr :: rest) =
              text ++ groupText group ++ [','] ++ rangedText start := by
            have hlater := List.splitBy_ne_nil (r := hostrangeWithinRange).mpr hstart
            obtain ⟨first, later, hfirst⟩ := List.exists_cons_of_ne_nil hlater
            rw [rangedText, rangedText, hruns, hfirst, List.map_cons, List.map_cons,
              intercalate_cons_cons]
            simp
          rw [hjoin]
          exact ⟨hlen, hbuf⟩

/-- Assumes: a list whose names are not empty, printed with a result that is not negative. The
buffer starts with the text of its ranges and a NUL, for which there was room, and the result is the
length of the text. -/
theorem hostlistRangedString_printed {hl : Hostlist} {n : ℕ} {buf buf' : List Char} {len : ℤ}
    (hnames : ∀ hr ∈ hl.ranges, hr.pfx ++ numberText hr ≠ [])
    (h : hostlistRangedString hl n buf = some (len, buf')) (hfits : 0 ≤ len) :
    len = (rangedText hl.ranges).length ∧ (rangedText hl.ranges).length < n ∧
      rangedText hl.ranges ++ ['\x00'] <+: buf' := by
  obtain ⟨⟨len', buf1⟩, hloop, h⟩ := Option.bind_eq_some_iff.mp h
  simp only at h
  split_ifs at h with hfull hn
  · obtain ⟨buf2, -, h⟩ := Option.bind_eq_some_iff.mp h
    obtain ⟨rfl, -⟩ := Prod.mk.inj (Option.some.inj h)
    exact absurd hfits (by decide)
  · obtain ⟨buf2, -, h⟩ := Option.bind_eq_some_iff.mp h
    obtain ⟨rfl, -⟩ := Prod.mk.inj (Option.some.inj h)
    exact absurd hfits (by decide)
  · obtain ⟨buf2, hend, h⟩ := Option.bind_eq_some_iff.mp h
    obtain ⟨rfl, rfl⟩ := Prod.mk.inj (Option.some.inj h)
    obtain ⟨hlen, hbuf⟩ :=
      rangedLoop_printed hl.ranges.length hl.ranges [] buf List.nil_prefix le_rfl
        (Or.inr fun hr hmem ↦ hnames hr (List.mem_of_mem_head? hmem)) hloop (by omega)
    rw [List.nil_append] at hlen hbuf
    subst hlen
    exact ⟨rfl, by omega, writeChar_printed hbuf hend⟩

end Whatsup
