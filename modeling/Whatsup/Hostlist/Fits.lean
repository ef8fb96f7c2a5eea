import Whatsup.Hostlist.Print

/-!
# Texts that fit into the buffer

`hostlist_ranged_string` returns the length of the text if the text and its terminator fit into the
buffer. Each step of the printer is one lemma here: if what it prints leaves room, it succeeds,
returns the length of what it prints, and the buffer keeps its size. `hostlistRangedString_fits`
puts them together.
-/

set_option autoImplicit false
set_option relaxedAutoImplicit false

namespace Whatsup

open CLib

/-! ### The parts of a group -/

/-- Assumes: a position inside the buffer. The character is written. -/
theorem writeChar_fits (buf : List Char) (pos : ℕ) (c : Char) (h : pos < buf.length) :
    ∃ buf', writeChar buf pos c = some buf' ∧ buf'.length = buf.length :=
  ⟨buf.set pos c, if_pos h, List.length_set⟩

/-- Assumes: a position inside the buffer. The character is put. -/
theorem putChar_fits (buf : List Char) (pos : ℕ) (c : Char) (h : pos < buf.length) :
    ∃ buf', putChar buf pos c = some (pos + 1, buf') ∧ buf'.length = buf.length := by
  obtain ⟨buf', hwrite, hlength⟩ := writeChar_fits buf pos c h
  refine ⟨buf', ?_, hlength⟩
  unfold putChar
  rw [hwrite]
  rfl

/-- Assumes: a text shorter than its room, and a buffer that has the room. The text is printed. -/
theorem snprintf_fits (buf : List Char) (pos room : ℕ) (text : List Char)
    (hfits : text.length < room)
    (hroom : pos + room ≤ buf.length) :
    ∃ buf', snprintf buf pos room text = some (text.length, buf') ∧ buf'.length = buf.length := by
  have htake : text.take (room - 1) = text := List.take_of_length_le (by omega)
  have hout : pos + (text ++ ['\x00']).length ≤ buf.length := by
    rw [List.length_append, List.length_singleton]
    omega
  refine ⟨buf.take pos ++ (text ++ ['\x00']) ++ buf.drop (pos + (text ++ ['\x00']).length), ?_, ?_⟩
  · unfold snprintf
    rw [if_neg (by omega)]
    simp only [htake, if_pos hout]
  · rw [List.length_append, List.length_append, List.length_take, List.length_drop]
    omega

/-- Assumes: room for the numbers of a range. They are printed. -/
theorem hostrangeNumstr_fits (hr : HostRange) (room : ℕ) (buf : List Char) (pos : ℕ)
    (hfits : (numberText hr).length < room) (hroom : pos + room ≤ buf.length) :
    ∃ buf', hostrangeNumstr hr room buf pos = some ((numberText hr).length, buf') ∧
      buf'.length = buf.length := by
  unfold numberText at hfits ⊢
  unfold hostrangeNumstr
  by_cases hsingle : hr.singlehost = true
  · rw [if_pos (Or.inl hsingle), if_pos hsingle]
    exact ⟨buf, rfl, rfl⟩
  · rw [if_neg hsingle] at hfits ⊢
    rw [if_neg (by rintro (h | h); exacts [hsingle h, by omega])]
    by_cases hmore : hr.lo < hr.hi
    · rw [if_pos hmore, List.length_append] at hfits
      obtain ⟨buf1, hfirst, hlength1⟩ := snprintf_fits buf pos room (padded hr.width hr.lo)
        (by omega) hroom
      obtain ⟨buf2, hsecond, hlength2⟩ :=
        snprintf_fits buf1 (pos + (padded hr.width hr.lo).length)
          (room - (padded hr.width hr.lo).length)
          ('-' :: padded hr.width hr.hi) (by omega) (by omega)
      refine ⟨buf2, ?_, hlength2.trans hlength1⟩
      rw [hfirst, if_pos hmore]
      simp only [Option.bind_eq_bind, Option.bind_some]
      rw [if_pos ⟨by omega, hmore⟩, hsecond, List.length_append]
      rfl
    · rw [if_neg hmore] at hfits ⊢
      obtain ⟨buf1, hfirst, hlength1⟩ :=
        snprintf_fits buf pos room (padded hr.width hr.lo) hfits hroom
      refine ⟨buf1, ?_, hlength1⟩
      rw [hfirst]
      simp only [Option.bind_eq_bind, Option.bind_some]
      rw [if_neg fun h ↦ hmore h.2]
      rfl

/-- Assumes: a sum that is an `int`. It is defined. -/
theorem intAdd_eq {left right : ℕ} (h : left + right < 2147483648) : intAdd left right =
    some (left + right) :=
  if_pos h

section Room

variable {n limit : ℕ} (hint : limit < 2147483648) (hlimit : limit ≤ n)
include hint hlimit

/-- Assumes: room for what a round of the loop prints. The round goes on. -/
theorem bracketedRound_fits (bracketNeeded : Bool) (hr : HostRange) (len : ℕ) (buf : List Char)
    (hfits : len + (loopText bracketNeeded hr).length < limit) (hn : n ≤ buf.length) :
    ∃ buf', bracketedRound bracketNeeded n hr len buf =
      some (len + (loopText bracketNeeded hr).length, false, buf') ∧
      buf'.length = buf.length := by
  unfold loopText at hfits ⊢
  rw [List.length_append] at hfits ⊢
  obtain ⟨buf1, hnumbers, hlength1⟩ :=
    hostrangeNumstr_fits hr (n - len) buf len (by omega) (by omega)
  unfold bracketedRound
  rw [hnumbers]
  simp only [Option.bind_eq_bind, Option.bind_some]
  rw [intAdd_eq (by omega)]
  simp only [Option.bind_some]
  rw [if_neg (by omega)]
  cases bracketNeeded with
  | false => exact ⟨buf1, rfl, hlength1⟩
  | true =>
    simp only [if_true, List.length_singleton] at hfits ⊢
    obtain ⟨buf2, hput, hlength2⟩ :=
      putChar_fits buf1 (len + (numberText hr).length) ',' (by omega)
    refine ⟨buf2, ?_, hlength2.trans hlength1⟩
    rw [hput]
    rfl

/-- Assumes: ranges that are printed together, which end before a range that is not, and room for
what the loop prints for them. The loop prints them all. -/
theorem bracketedLoop_fits (bracketNeeded : Bool) (start group : List HostRange) :
    ∀ (hr : HostRange) (len : ℕ) (buf : List Char),
      (hr :: group).IsChain (fun h1 h2 ↦ hostrangeWithinRange h1 h2 = true) →
      (∀ last ∈ (hr :: group).getLast?, ∀ next ∈ start.head?,
        hostrangeWithinRange last next = false) →
      len + ((hr :: group).flatMap (loopText bracketNeeded)).length < limit → n ≤ buf.length →
      ∃ buf', bracketedLoop bracketNeeded n hr (group ++ start) len buf =
          some (len + ((hr :: group).flatMap (loopText bracketNeeded)).length, start, buf') ∧
        buf'.length = buf.length := by
  induction group with
  | nil =>
    intro hr len buf _ hstop hfits hn
    rw [List.flatMap_cons, List.flatMap_nil, List.append_nil] at hfits ⊢
    obtain ⟨buf1, hround, hlength⟩ :=
      bracketedRound_fits hint hlimit bracketNeeded hr len buf hfits hn
    refine ⟨buf1, ?_, hlength⟩
    rw [List.nil_append]
    cases start with
    | nil =>
      rw [bracketedLoop, hround]
      rfl
    | cons next later =>
      have hother : hostrangeWithinRange next hr = false := by
        rw [hostrangeWithinRange_comm]
        exact hstop hr rfl next rfl
      rw [bracketedLoop, hround]
      simp [hother]
  | cons next group ih =>
    intro hr len buf hchain hstop hfits hn
    obtain ⟨hwithin, hchain⟩ := List.isChain_cons_cons.mp hchain
    rw [List.flatMap_cons, List.length_append] at hfits ⊢
    obtain ⟨buf1, hround, hlength1⟩ :=
      bracketedRound_fits hint hlimit bracketNeeded hr len buf (by omega) hn
    obtain ⟨buf2, hloop, hlength2⟩ := ih next (len + (loopText bracketNeeded hr).length) buf1 hchain
      (by rwa [List.getLast?_cons_cons] at hstop) (by omega) (by omega)
    refine ⟨buf2, ?_, hlength2.trans hlength1⟩
    rw [hostrangeWithinRange_comm] at hwithin
    rw [List.cons_append, bracketedLoop, hround]
    simp only [Option.bind_eq_bind, Option.bind_some, Bool.false_eq_true, if_false,
      hwithin, if_true]
    rw [hloop, add_assoc]

/-- Assumes: ranges that are printed together, which end before a range that is not, and room for
their text. `_get_bracketed_list` prints them all. -/
theorem getBracketedList_fits {hr : HostRange} {group start : List HostRange} (buf : List Char)
    (hchain : (hr :: group).IsChain (fun h1 h2 ↦ hostrangeWithinRange h1 h2 = true))
    (hstop : ∀ last ∈ (hr :: group).getLast?, ∀ next ∈ start.head?,
      hostrangeWithinRange last next = false)
    (hfits : (groupText (hr :: group)).length < limit) (hn : n ≤ buf.length) :
    ∃ buf', getBracketedList hr (group ++ start) n buf = some ((groupText (hr :: group)).length,
      start, buf') ∧
      buf'.length = buf.length := by
  have hsame :=
    isBracketNeeded_group (show hr :: (group ++ start) = hr :: group ++ start from rfl) hstop
  have htext : groupText (hr :: group) =
      if isBracketNeeded hr (group ++ start).head? = true then
        hr.pfx ++ '[' :: [','].intercalate ((hr :: group).map numberText) ++ [']']
      else hr.pfx ++ numberText hr := by
    rw [← hsame]
    rfl
  unfold getBracketedList
  rw [htext] at hfits ⊢
  by_cases hneeded : isBracketNeeded hr (group ++ start).head? = true
  · rw [if_pos hneeded] at hfits ⊢
    have htexts : ((hr :: group).flatMap (loopText true)).length =
        ([','].intercalate ((hr :: group).map numberText)).length + 1 := by
      have hcommas : (hr :: group).flatMap (loopText true) =
          [','].intercalate ((hr :: group).map numberText) ++ [','] :=
        flatMap_comma numberText (List.cons_ne_nil _ _)
      rw [hcommas, List.length_append, List.length_singleton]
    simp only [List.length_append, List.length_cons, List.length_nil] at hfits ⊢
    obtain ⟨buf1, hpfx, hlength1⟩ := snprintf_fits buf 0 n hr.pfx (by omega) (by omega)
    obtain ⟨buf2, hopen, hlength2⟩ := putChar_fits buf1 hr.pfx.length '[' (by omega)
    obtain ⟨buf3, hloop, hlength3⟩ := bracketedLoop_fits hint hlimit true start group hr
      (hr.pfx.length + 1) buf2 hchain hstop (by omega) (by omega)
    obtain ⟨buf4, hbracket, hlength4⟩ := writeChar_fits buf3
      (hr.pfx.length + 1 + ((hr :: group).flatMap (loopText true)).length - 1) ']' (by omega)
    obtain ⟨buf5, hend, hlength5⟩ := writeChar_fits buf4
      (hr.pfx.length + 1 + ((hr :: group).flatMap (loopText true)).length) '\x00' (by omega)
    have hclose :
      closeBracketed true n (hr.pfx.length + 1 + ((hr :: group).flatMap (loopText true)).length)
      buf3 =
        some buf5 := by
      rw [closeBracketed, if_pos ⟨rfl, by omega, by omega⟩, hbracket]
      exact hend
    refine ⟨buf5, ?_, by omega⟩
    rw [hpfx]
    simp only [Option.bind_eq_bind, Option.bind_some]
    rw [if_neg (by omega), hneeded, if_pos ⟨rfl, by omega⟩, hopen]
    simp only [Option.bind_some, hloop, hclose]
    refine congrArg some (Prod.ext ?_ rfl)
    omega
  · rw [if_neg hneeded] at hfits ⊢
    obtain rfl : group = [] := by
      by_contra hne
      obtain ⟨next, tail, rfl⟩ := List.exists_cons_of_ne_nil hne
      refine hneeded ?_
      rw [isBracketNeeded, List.cons_append, List.head?_cons, Option.any_some,
        (List.isChain_cons_cons.mp hchain).1, Bool.or_true]
    have hnumbers : ([hr].flatMap (loopText false)).length = (numberText hr).length := by
      simp [loopText]
    rw [List.length_append] at hfits ⊢
    obtain ⟨buf1, hpfx, hlength1⟩ := snprintf_fits buf 0 n hr.pfx (by omega) (by omega)
    obtain ⟨buf3, hloop, hlength3⟩ := bracketedLoop_fits hint hlimit false start [] hr
      hr.pfx.length buf1 hchain hstop (by omega) (by omega)
    rw [hnumbers] at hloop
    obtain ⟨buf4, hend, hlength4⟩ := writeChar_fits buf3
      (hr.pfx.length + (numberText hr).length) '\x00' (by omega)
    have hclose : closeBracketed false n (hr.pfx.length + (numberText hr).length) buf3 =
        some buf4 := by
      rw [closeBracketed, if_neg (fun h ↦ absurd h.1 (by decide)), if_neg (by omega)]
      exact hend
    refine ⟨buf4, ?_, by omega⟩
    rw [hpfx]
    simp only [Option.bind_eq_bind, Option.bind_some]
    rw [if_neg (by omega), Bool.eq_false_iff.mpr hneeded, if_neg (fun h ↦ absurd h.1 (by decide))]
    simp only [pure, Option.bind_some, hloop, hclose]

/-! ### The whole text -/

omit hint hlimit in
/-- Some ranges start with a longest run of ranges that are printed together. -/
theorem exists_run (rest : List HostRange) :
    ∀ hr : HostRange, ∃ group start, rest = group ++ start ∧
      (hr :: group).IsChain (fun h1 h2 ↦ hostrangeWithinRange h1 h2 = true) ∧
      (∀ last ∈ (hr :: group).getLast?, ∀ next ∈ start.head?,
        hostrangeWithinRange last next = false) ∧
      (hr :: rest).splitBy hostrangeWithinRange = (hr :: group) ::
        start.splitBy hostrangeWithinRange := by
  induction rest with
  | nil => exact fun hr ↦ ⟨[], [], rfl, List.isChain_singleton _, by simp, rfl⟩
  | cons next rest ih =>
    intro hr
    by_cases hwithin : hostrangeWithinRange hr next = true
    · obtain ⟨group, start, rfl, hchain, hstop, hsplit⟩ := ih next
      have hlonger : (hr :: next :: group).IsChain fun h1 h2 ↦ hostrangeWithinRange h1 h2 = true :=
        List.isChain_cons_cons.mpr ⟨hwithin, hchain⟩
      have hstop' : ∀ last ∈ (hr :: next :: group).getLast?, ∀ later ∈ start.head?,
          hostrangeWithinRange last later = false := by
        rwa [List.getLast?_cons_cons]
      refine ⟨next :: group, start, rfl, hlonger, hstop', ?_⟩
      rw [show hr :: next :: (group ++ start) = hr :: next :: group ++ start from rfl,
        List.splitBy_append hstop',
        List.splitBy_of_isChain (List.cons_ne_nil _ _) hlonger, List.singleton_append]
    · have hstop : ∀ last ∈ [hr].getLast?, ∀ later ∈ (next :: rest).head?,
          hostrangeWithinRange last later = false := by
        intro last hlast later hlater
        obtain rfl := Option.some.inj hlast
        obtain rfl := Option.some.inj hlater
        exact Bool.eq_false_iff.mpr hwithin
      refine ⟨[], next :: rest, rfl, List.isChain_singleton _, hstop, ?_⟩
      rw [show hr :: next :: rest = [hr] ++ next :: rest from rfl, List.splitBy_append hstop,
        List.splitBy_of_isChain (List.cons_ne_nil _ _) (List.isChain_singleton _),
          List.singleton_append]

omit hint hlimit in
/-- The text of ranges is that of the first run, and behind a comma that of the others, if there are
others. -/
theorem rangedText_run {hr : HostRange} {rest group start : List HostRange}
    (hsplit : (hr :: rest).splitBy hostrangeWithinRange = (hr :: group) ::
      start.splitBy hostrangeWithinRange) :
    rangedText (hr :: rest) =
      groupText (hr :: group) ++ if start = [] then [] else ',' :: rangedText start := by
  rw [rangedText, hsplit]
  split_ifs with hstart
  · rw [hstart]
    simp [List.intercalate]
  · obtain ⟨first, later, hfirst⟩ :=
      List.exists_cons_of_ne_nil (List.splitBy_ne_nil (r := hostrangeWithinRange).mpr hstart)
    rw [rangedText, hfirst, List.map_cons, List.map_cons, intercalate_cons_cons,
      List.singleton_append]

/-- Assumes: something printed or a first name that is not empty, enough rounds, and room for the
text of the ranges. The loop of `hostlist_ranged_string` prints all of it. -/
theorem rangedLoop_fits (rounds : ℕ) :
    ∀ (ranges : List HostRange) (len : ℕ) (buf : List Char), ranges.length ≤ rounds →
      (0 < len ∨ ∀ hr ∈ ranges.head?, hr.pfx ++ numberText hr ≠ []) →
      len + (rangedText ranges).length < limit →
      n ≤ buf.length →
      ∃ buf', rangedLoop n rounds ranges len buf = some (len + (rangedText ranges).length, buf') ∧
        buf'.length = buf.length := by
  induction rounds with
  | zero =>
    intro ranges len buf hlength _ _ _
    obtain rfl := List.length_eq_zero_iff.mp (Nat.le_zero.mp hlength)
    exact ⟨buf, rfl, rfl⟩
  | succ rounds ih =>
    intro ranges len buf hlength hnames hfits hn
    cases ranges with
    | nil => exact ⟨buf, rfl, rfl⟩
    | cons hr rest =>
      obtain ⟨group, start, rfl, hchain, hstop, hsplit⟩ := exists_run rest hr
      have htext := congrArg List.length (rangedText_run hsplit)
      rw [List.length_append] at htext
      have hpositive : 0 < len + (groupText (hr :: group)).length := by
        rcases hnames with hpos | hname
        · omega
        · have hpos :=
            List.length_pos_iff.mpr (show groupText (hr :: group) ≠
            [] from groupText_ne_nil (hname hr rfl))
          omega
      obtain ⟨buf1, hlist, hlength1⟩ :=
        getBracketedList_fits (show limit - len < 2147483648 by omega)
        (show limit - len ≤ n - len by omega) (buf.drop len) hchain hstop (by omega)
          (by rw [List.length_drop]; omega)
      have hjoined : (buf.take len ++ buf1).length = buf.length := by
        rw [List.length_append, List.length_take, hlength1, List.length_drop]
        omega
      rw [rangedLoop, if_neg (by omega), hlist]
      simp only [Option.bind_eq_bind, Option.bind_some]
      rw [intAdd_eq (by omega)]
      simp only [Option.bind_some]
      by_cases hstart : start = []
      · subst hstart
        rw [if_pos rfl, List.length_nil] at htext
        refine ⟨buf.take len ++ buf1, ?_, hjoined⟩
        rw [if_neg (by simp)]
        change rangedLoop n rounds [] _ _ = _
        rw [rangedLoop_nil]
        exact congrArg (fun total ↦ some (len + total, buf.take len ++ buf1)) htext.symm
      · rw [if_neg hstart, List.length_cons] at htext
        obtain ⟨buf2, hput, hlength2⟩ := putChar_fits (buf.take len ++ buf1)
          (len + (groupText (hr :: group)).length) ',' (by omega)
        simp only [List.length_cons, List.length_append] at hlength
        obtain ⟨buf3, hloop, hlength3⟩ :=
          ih start (len + (groupText (hr :: group)).length + 1) buf2 (by omega)
          (Or.inl (by omega)) (by omega) (by omega)
        refine ⟨buf3, ?_, hlength3.trans (hlength2.trans hjoined)⟩
        rw [if_pos ⟨by omega, by omega, hstart⟩, hput]
        simp only [Option.bind_some, hloop]
        exact congrArg (fun total ↦ some (total, buf3)) (by omega)

end Room

/-- Assumes: a list whose names are not empty, and a buffer with room for its text and the
terminator. The text is printed. -/
theorem hostlistRangedString_fits {n : ℕ} (hint : n < 2147483648) {hl : Hostlist} {buf : List Char}
    (hnames : ∀ hr ∈ hl.ranges, hr.pfx ++ numberText hr ≠ [])
    (hfits : (rangedText hl.ranges).length < n)
    (hn : n ≤ buf.length) :
    ∃ buf', hostlistRangedString hl n buf = some (((rangedText hl.ranges).length : ℤ), buf') := by
  obtain ⟨buf1, hloop, hlength1⟩ :=
    rangedLoop_fits hint le_rfl hl.ranges.length hl.ranges 0 buf le_rfl
    (Or.inr fun hr hmem ↦ hnames hr (List.mem_of_mem_head? hmem)) (by omega) hn
  rw [Nat.zero_add] at hloop
  obtain ⟨buf2, hend, -⟩ := writeChar_fits buf1 (rangedText hl.ranges).length '\x00' (by omega)
  refine ⟨buf2, ?_⟩
  unfold hostlistRangedString
  rw [hloop]
  simp only [Option.bind_eq_bind, Option.bind_some]
  rw [if_neg (by omega), hend]
  rfl

/-! ### The length of the text -/

/-- Assumes: numbers that are at most the lengths of some texts. Their sum is at most the length of
the joined texts. -/
theorem sum_le_length_intercalate {α : Type} {f : α → ℕ} {text : α → List Char} {items : List α}
    (h : ∀ item ∈ items, f item ≤ (text item).length) :
    (items.map f).sum ≤ ([','].intercalate (items.map text)).length := by
  induction items with
  | nil => exact Nat.zero_le _
  | cons first rest ih =>
    obtain ⟨hfirst, hrest⟩ := List.forall_mem_cons.mp h
    have hlater := ih hrest
    cases rest with
    | nil => simpa [List.intercalate] using hfirst
    | cons second rest =>
      rw [List.map_cons (f := text), List.map_cons (f := text), intercalate_cons_cons,
        List.length_append,
        List.length_append, List.map_cons, List.sum_cons]
      rw [List.map_cons (f := text)] at hlater
      omega

/-- Assumes: a group of ranges with nonempty names. Its text is at least as long as it has
ranges. -/
theorem GroupText.length_le {group : List HostRange} {text : List Char} (h : GroupText group text)
    (hnames : ∀ hr ∈ group, hr.pfx ++ numberText hr ≠ []) : group.length ≤ text.length := by
  cases h with
  | @single hr hcount => exact List.length_pos_iff.mpr (hnames hr (List.mem_singleton_self hr))
  | @bracketed pfx group hne hgroup =>
    have hnumbers : ∀ hr ∈ group, 1 ≤ (numberText hr).length := fun hr hmem ↦ by
      rw [numberText, if_neg (by simp [(hgroup hr hmem).2])]
      split_ifs
      · rw [List.length_append, List.length_cons]
        omega
      · exact List.length_pos_iff.mpr (padded_ne_nil _ _)
    have hsum := sum_le_length_intercalate hnumbers
    rw [List.map_const', List.sum_replicate_nat, mul_one] at hsum
    simp only [List.length_append, List.length_cons]
    omega

/-- Assumes: ranges with nonempty names. Their text is at least as long as there are ranges. -/
theorem length_le_rangedText {ranges : List HostRange}
    (hnames : ∀ hr ∈ ranges, hr.pfx ++ numberText hr ≠ []) :
    ranges.length ≤ (rangedText ranges).length := by
  have hgroups : ∀ group ∈ ranges.splitBy hostrangeWithinRange, group.length ≤
      (groupText group).length :=
    fun group hgroup ↦ (groupText_spec hgroup).length_le fun hr hmem ↦ hnames hr (by
      rw [← List.flatten_splitBy hostrangeWithinRange ranges]
      exact List.mem_flatten.mpr ⟨group, hgroup, hmem⟩)
  have hsum := sum_le_length_intercalate hgroups
  rwa [← List.length_flatten, List.flatten_splitBy] at hsum

end Whatsup
