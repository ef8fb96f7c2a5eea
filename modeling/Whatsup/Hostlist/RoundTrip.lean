import Whatsup.CLib.Outcome
import Whatsup.Hostlist.Parse
import Whatsup.Hostlist.Print

/-!
# Reading a printed list back

`whatsup` prints a loaded list with `hostlist_ranged_string` and parses the text with
`hostlist_create` before it counts or compares. The parser derives prefixes, suffixes and widths
from the text again and merges ranges as it pushes them, so that the ranges of the new list differ
from those of the old one in general.

`hosts_hostlistCreate_ranged` says that the names do not: whenever the text is accepted, the new
list denotes the names of the old one in the same order. It is assembled from what the parser does
with the text of one range (`parseSingleRange_numberText`), with a pair of brackets
(`parseRangeList_texts`), with one token (`createToken_group`) and with the whole text
(`createLoop_groups`).

`hostlistCreate_rangedText_iff` says when the text is accepted: if no pair of brackets holds more
than 10240 ranges, and no range more than 16384 hosts.
-/

set_option autoImplicit false
set_option relaxedAutoImplicit false

namespace Whatsup

open CLib

/-! ### Lists that are printed -/

/-- Bounds in order and below `2 ^ 63`, prefixes without separators and brackets, and names that are
neither empty nor longer than 64 characters. -/
structure Hostlist.Printable (hl : Hostlist) : Prop where
  bounds : ∀ hr ∈ hl.ranges, hr.lo ≤ hr.hi ∧ hr.hi < 9223372036854775808
  pfx_plain : ∀ hr ∈ hl.ranges, ∀ c ∈ hr.pfx, isSep c = false ∧ c ≠ '[' ∧ c ≠ ']'
  name_length : ∀ name ∈ hl.hosts, name ≠ [] ∧ name.length ≤ 64

/-- The text of a range of a list that is printed is not empty. -/
theorem Hostlist.Printable.name_ne_nil {hl : Hostlist} (hprintable : hl.Printable) {hr : HostRange}
    (hmem : hr ∈ hl.ranges) : hr.pfx ++ numberText hr ≠ [] := by
  intro hnil
  obtain ⟨hpfx, hnumber⟩ := List.append_eq_nil_iff.mp hnil
  have hsingle : hr.singlehost = true := by
    by_contra hsingle
    unfold numberText at hnumber
    rw [if_neg hsingle] at hnumber
    split_ifs at hnumber with hmore
    · simp at hnumber
    · exact padded_ne_nil _ _ hnumber
  refine (hprintable.name_length [] ?_).1 rfl
  exact List.mem_flatMap.mpr ⟨hr, hmem, by rw [HostRange.hosts, if_pos hsingle, hpfx]; simp⟩

/-- A character of the numbers of a range is a digit or the dash between them. -/
theorem mem_numberText {hr : HostRange} {c : Char} (h : c ∈ numberText hr) :
    c.isDigit = true ∨ c = '-' := by
  unfold numberText at h
  split_ifs at h with hsingle hmore
  · exact absurd h List.not_mem_nil
  · rcases List.mem_append.mp h with hlo | hhi
    · exact Or.inl (isDigit_of_mem_padded hlo)
    · rcases List.mem_cons.mp hhi with hdash | hhi
      · exact Or.inr hdash
      · exact Or.inl (isDigit_of_mem_padded hhi)
  · exact Or.inl (isDigit_of_mem_padded h)

/-- A digit is neither a separator nor a bracket nor a dash. -/
theorem plain_of_isDigit {c : Char} (h : c.isDigit = true) :
    isSep c = false ∧ c ≠ '[' ∧ c ≠ ']' ∧ c ≠ '-' := by
  have hbounds := digit_toNat_bounds h
  have hne : ∀ d : Char, (d.toNat < 48 ∨ 57 < d.toNat) → c ≠ d := fun d hd hcd ↦ by
    rw [hcd] at hbounds
    omega
  refine ⟨?_, hne _ (by decide), hne _ (by decide), hne _ (by decide)⟩
  simp only [isSep, Bool.or_eq_false_iff, decide_eq_false_iff_not]
  exact ⟨⟨hne _ (by decide), hne _ (by decide)⟩, hne _ (by decide)⟩

/-- The numbers of a range contain neither separators nor brackets. -/
theorem plain_of_mem_numberText {hr : HostRange} {c : Char} (h : c ∈ numberText hr) :
    isSep c = false ∧ c ≠ '[' ∧ c ≠ ']' := by
  rcases mem_numberText h with hdigit | rfl
  · exact ⟨(plain_of_isDigit hdigit).1, (plain_of_isDigit hdigit).2.1,
      (plain_of_isDigit hdigit).2.2.1⟩
  · decide

/-! ### One range and one pair of brackets -/

/-- The range the parser reads from the numbers of a range: the width is that of the lower bound as
it is printed. -/
def reread (hr : HostRange) : Range :=
  { lo := hr.lo, hi := hr.hi, width := (padded hr.width hr.lo).length }

/-- Assumes: bounds in order and below `2 ^ 63`, and a range that is not a single host. Its numbers
are read back, unless there are too many of them. -/
theorem parseSingleRange_numberText {hr : HostRange}
    (hbounds : hr.lo ≤ hr.hi ∧ hr.hi < 9223372036854775808) (hsingle : hr.singlehost = false) :
    parseSingleRange (numberText hr) =
      if maxRange < hostrangeCount hr then .error .tooManyHosts else .ok (reread hr) := by
  obtain ⟨hle, hhi⟩ := hbounds
  have hdash : ∀ c ∈ padded hr.width hr.lo, c ≠ '-' := fun c hc ↦
    (plain_of_isDigit (isDigit_of_mem_padded hc)).2.2.2
  have hreadLo : strtoul (padded hr.width hr.lo) = (hr.lo, []) :=
    strtoul_padded _ (by unfold ulongMax; omega)
  have hreadHi : strtoul (padded hr.width hr.hi) = (hr.hi, []) :=
    strtoul_padded _ (by unfold ulongMax; omega)
  have hneLo := padded_ne_nil hr.width hr.lo
  have hneHi := padded_ne_nil hr.width hr.hi
  unfold numberText hostrangeCount
  rw [hsingle, if_neg Bool.false_ne_true, if_neg Bool.false_ne_true]
  by_cases hmore : hr.lo < hr.hi
  · obtain ⟨hfront, hback⟩ := cut_append (padded hr.width hr.hi) hdash
    have hhead : (padded hr.width hr.hi).head? ≠ some '-' := fun hc ↦
      (plain_of_isDigit (isDigit_of_mem_padded (List.mem_of_mem_head? hc))).2.2.2 rfl
    rw [if_pos hmore]
    simp only [parseSingleRange, hfront, hback, List.tail_cons, hreadLo, hreadHi, if_neg hhead,
      hneLo.symm, hneHi, hneHi.symm, ne_eq, not_true_eq_false, not_false_eq_true, if_true, if_false,
      and_false, or_self, not_lt.mpr hle]
    rfl
  · obtain ⟨hfront, hback⟩ := cut_self hdash
    have heq : hr.hi = hr.lo := by omega
    rw [if_neg hmore]
    simp only [parseSingleRange, hfront, hback, List.tail_nil, hreadLo, hneLo.symm, List.head?_nil,
      reduceCtorEq, ne_eq, not_true_eq_false, if_false, false_and, or_self, lt_irrefl, heq, reread]

/-- Assumes: a range that is not a single host. The range read back denotes its hosts. -/
theorem hosts_reread {hr : HostRange} (hsingle : hr.singlehost = false) :
    (hostrangeCreate hr.pfx (reread hr).lo (reread hr).hi (reread hr).width).hosts = hr.hosts := by
  unfold HostRange.hosts hostrangeCreate reread
  simp only [hsingle, Bool.false_eq_true, if_false]
  refine List.map_congr_left fun number hnumber ↦ ?_
  have hdigits := numDigits_mono (List.mem_range'_1.mp hnumber).1
  congr 1
  rw [padded_eq_padded_iff, length_padded]
  omega

/-- Assumes: bounds in order and below `2 ^ 63`, and no single hosts. The text between two brackets
is read back exactly if there is room for its ranges and none has too many hosts. -/
theorem parseRangeList_texts (group : List HostRange) :
    ∀ (room : ℕ) (ranges : List Range), group ≠ [] →
      (∀ hr ∈ group, (hr.lo ≤ hr.hi ∧ hr.hi < 9223372036854775808) ∧ hr.singlehost = false) →
      (parseRangeList room ([','].intercalate (group.map numberText)) = .ok ranges ↔
        (group.length ≤ room ∧ ∀ hr ∈ group, hostrangeCount hr ≤ maxRange) ∧
        ranges = group.map reread) := by
  induction group with
  | nil => intro room ranges hne; exact absurd rfl hne
  | cons hr rest ih =>
    intro room ranges _ hgroup
    obtain ⟨⟨hbounds, hsingle⟩, hrest⟩ := List.forall_mem_cons.mp hgroup
    have hcomma : ∀ c ∈ numberText hr, c ≠ ',' := fun c hc heq ↦ by
      have hplain := (plain_of_mem_numberText hc).1
      rw [heq] at hplain
      exact absurd hplain (by decide)
    have hfirst := parseSingleRange_numberText hbounds hsingle
    rw [List.forall_mem_cons, List.length_cons, List.map_cons, ← not_lt (a := maxRange)]
    cases room with
    | zero => simp [parseRangeList]
    | succ room =>
      cases rest with
      | nil =>
        obtain ⟨hfront, hback⟩ := cut_self hcomma
        rw [List.map_cons, List.map_nil, List.intercalate_singleton, parseRangeList, hfront,
          hback, hfirst]
        split_ifs with hmany
        · simp [hmany]
        · simp [hmany, eq_comm]
      | cons next rest =>
        obtain ⟨hfront, hback⟩ :=
          cut_append ([','].intercalate ((next :: rest).map numberText)) hcomma
        rw [List.map_cons, List.map_cons, intercalate_cons_cons, ← List.map_cons,
          List.singleton_append, parseRangeList, hfront, hback, hfirst]
        split_ifs with hmany
        · simp [hmany]
        · simp only [Nat.add_le_add_iff_right, hmany, not_false_eq_true, true_and]
          cases hlist : parseRangeList room ([','].intercalate ((next :: rest).map numberText)) with
          | error failure =>
            have hrefused : ¬((next :: rest).length ≤ room ∧ ∀ hr ∈ next :: rest,
                hostrangeCount hr ≤ maxRange) :=
              fun hlimits ↦ by
                have haccepted := (ih room _ (List.cons_ne_nil _ _) hrest).mpr ⟨hlimits, rfl⟩
                rw [hlist] at haccepted
                exact absurd haccepted (by simp)
            simp only [hrefused, false_and, reduceCtorEq]
          | ok tail =>
            obtain ⟨hlimits, rfl⟩ := (ih room tail (List.cons_ne_nil _ _) hrest).mp hlist
            simp only [hlimits.1, true_and, Except.ok.injEq, eq_comm (a := ranges)]
            exact (and_iff_right hlimits.2).symm

/-! ### One token -/

/-- Assumes: bounds in order and below `2 ^ 63`, and at most one host. The range denotes the name
that is printed for it. -/
theorem hosts_of_count_le {hr : HostRange} (hbounds : hr.lo ≤ hr.hi ∧ hr.hi < 9223372036854775808)
    (hcount : hostrangeCount hr ≤ 1) : hr.hosts = [hr.pfx ++ numberText hr] := by
  unfold HostRange.hosts numberText
  unfold hostrangeCount ulongAdd at hcount
  obtain ⟨hle, hhi⟩ := hbounds
  rw [ulongSub_eq_sub hle] at hcount
  split_ifs at hcount ⊢ with hsingle hmore
  · rw [List.append_nil]
  · omega
  · rw [show hr.hi + 1 - hr.lo = 1 by omega, List.range'_one, List.map_singleton]

/-- A character of joined texts is a comma or stands in one of the texts. -/
theorem mem_intercalate {texts : List (List Char)} {c : Char} (h : c ∈ [','].intercalate texts) :
    c = ',' ∨ ∃ text ∈ texts, c ∈ text := by
  induction texts with
  | nil => exact absurd h (by simp [List.intercalate])
  | cons first rest ih =>
    cases rest with
    | nil => exact Or.inr ⟨first, by simp, by simpa [List.intercalate] using h⟩
    | cons second rest =>
      rw [intercalate_cons_cons] at h
      rcases List.mem_append.mp h with hfirst | hlater
      · exact Or.inr ⟨first, List.mem_cons_self, hfirst⟩
      · rcases List.mem_append.mp hlater with hcomma | hlater
        · exact Or.inl (List.mem_singleton.mp hcomma)
        · exact (ih hlater).imp_right fun ⟨text, hmem, hc⟩ ↦
            ⟨text, List.mem_cons_of_mem _ hmem, hc⟩

/-- The text between two brackets contains no brackets. -/
theorem bracket_free_numbers {group : List HostRange} {c : Char}
    (h : c ∈ [','].intercalate (group.map numberText)) : c ≠ '[' ∧ c ≠ ']' := by
  rcases mem_intercalate h with rfl | ⟨text, htext, hc⟩
  · decide
  · obtain ⟨hr, -, rfl⟩ := List.mem_map.mp htext
    exact (plain_of_mem_numberText hc).2

/-- Assumes: a group of ranges with plain prefixes and nonempty names. Its text does not start with
a separator. -/
theorem GroupText.head_plain {group : List HostRange} {text : List Char} (h : GroupText group text)
    (hpfx : ∀ hr ∈ group, ∀ c ∈ hr.pfx, isSep c = false ∧ c ≠ '[' ∧ c ≠ ']') :
    ∀ c ∈ text.head?, isSep c = false := by
  cases h with
  | @single hr hcount =>
    intro c hc
    rcases List.mem_append.mp (List.mem_of_mem_head? hc) with hpfxCmp | hnumber
    · exact (hpfx hr (List.mem_singleton_self _) c hpfxCmp).1
    · exact (plain_of_mem_numberText hnumber).1
  | @bracketed pfx group hne hgroup =>
    obtain ⟨hr, rest, rfl⟩ := List.exists_cons_of_ne_nil hne
    have hplain := hpfx hr List.mem_cons_self
    rw [(hgroup hr List.mem_cons_self).1] at hplain
    intro c hc
    cases pfx with
    | nil =>
      obtain rfl : '[' = c := by simpa using hc
      decide
    | cons d tail =>
      obtain rfl : d = c := by simpa using hc
      exact (hplain d List.mem_cons_self).1

/-- Assumes: a group of ranges with plain prefixes, whose text is followed by nothing or by a comma.
The tokenizer stops right behind the text. -/
theorem tokSpan_group {group : List HostRange} {text rest : List Char} (h : GroupText group text)
    (hpfx : ∀ hr ∈ group, ∀ c ∈ hr.pfx, isSep c = false ∧ c ≠ '[' ∧ c ≠ ']')
    (hrest : rest = [] ∨ ∃ more, rest = ',' :: more) :
    tokSpan (text ++ rest) 0 = (text, rest) := by
  have hstop : tokSpan rest 0 = ([], rest) := by
    rcases hrest with rfl | ⟨more, rfl⟩
    · rfl
    · rw [tokSpan, if_neg (by decide)]
  cases h with
  | @single hr hcount =>
    have hplain : ∀ c ∈ hr.pfx ++ numberText hr, isSep c = false ∧ c ≠ '[' ∧ c ≠ ']' := by
      intro c hc
      rcases List.mem_append.mp hc with hpfxCmp | hnumber
      · exact hpfx hr (List.mem_singleton_self _) c hpfxCmp
      · exact plain_of_mem_numberText hnumber
    rw [tokSpan_append rest (fun c hc ↦ (hplain c hc).2) (Or.inr fun c hc ↦ (hplain c hc).1), hstop,
      List.append_nil]
  | @bracketed pfx group hne hgroup =>
    obtain ⟨hr, tail, rfl⟩ := List.exists_cons_of_ne_nil hne
    have hplain := hpfx hr List.mem_cons_self
    rw [(hgroup hr List.mem_cons_self).1] at hplain
    have hclose : tokSpan (']' :: rest) 1 = ([']'], rest) := by
      rw [tokSpan, if_pos (Or.inl (by decide))]
      simp [hstop]
    have hbody : tokSpan ([','].intercalate ((hr :: tail).map numberText) ++ ']' :: rest) 1 =
        ([','].intercalate ((hr :: tail).map numberText) ++ [']'], rest) := by
      rw [tokSpan_append _ (fun c hc ↦ bracket_free_numbers hc) (Or.inl (by decide)), hclose]
    have hopen : tokSpan ('[' :: ([','].intercalate ((hr :: tail).map numberText) ++ ']' :: rest))
      0 =
        ('[' :: ([','].intercalate ((hr :: tail).map numberText) ++ [']']), rest) := by
      rw [tokSpan, if_pos (Or.inr (by decide))]
      simp only [if_true, zero_add, hbody]
    have hwhole : pfx ++ '[' :: [','].intercalate ((hr :: tail).map numberText) ++ [']'] ++ rest =
        pfx ++ ('[' :: ([','].intercalate ((hr :: tail).map numberText) ++ ']' :: rest)) := by
      simp
    rw [hwhole, tokSpan_append _ (fun c hc ↦ (hplain c hc).2) (Or.inr fun c hc ↦ (hplain c hc).1),
      hopen]
    simp

/-- Assumes: a text without brackets. As a token it is pushed, cut to 1023 characters. -/
theorem createToken_unbracketed {text : List Char} (hplain : ∀ c ∈ text, c ≠ '[' ∧ c ≠ ']')
    (new : Hostlist) :
    createToken text new = .ok (hostlistPushHost new (text.take 1023)) := by
  rw [createToken, if_neg (fun hmem ↦ (hplain _ hmem).1 rfl),
    if_neg (fun hmem ↦ (hplain _ hmem).2 rfl)]

/-- Assumes: a prefix without opening bracket and ranges without closing bracket. As a token the
bracketed ranges are pushed if they are accepted. -/
theorem createToken_bracketed {pfx body : List Char} (hpfx : ∀ c ∈ pfx, c ≠ '[')
    (hbody : ∀ c ∈ body, c ≠ ']')
    (new : Hostlist) :
    createToken (pfx ++ '[' :: body ++ [']']) new =
      (parseRangeList maxRanges body).map (pushRangeList new pfx) := by
  obtain ⟨hpre, hpost⟩ := cut_append (body ++ [']']) hpfx
  obtain ⟨hinside, hclosing⟩ := @cut_append ']' body [] hbody
  have hwhole : pfx ++ '[' :: body ++ [']'] = pfx ++ '[' :: (body ++ [']']) := by
    simp
  rw [hwhole, createToken, if_pos (by simp)]
  simp only [hpre, hpost, List.tail_cons, hinside, hclosing]
  rw [if_pos (by simp)]
  cases parseRangeList maxRanges body <;> rfl

/-- What the parser accepts in one pair of brackets: not too many ranges, and none of too many
hosts. -/
def GroupAccepted (group : List HostRange) : Prop :=
  group.length ≤ maxRanges ∧ ∀ hr ∈ group, hostrangeCount hr ≤ maxRange

instance (group : List HostRange) : Decidable (GroupAccepted group) :=
  decidable_of_iff (group.length ≤ maxRanges ∧
    (group.all fun hr ↦ decide (hostrangeCount hr ≤ maxRange)) = true)
    (by simp [GroupAccepted])

/-- Assumes: a group of ranges of a list that is printed. Its text is accepted as a token exactly if
the group is. -/
theorem createToken_group_iff {group : List HostRange} {text : List Char} (h : GroupText group text)
    (hbounds : ∀ hr ∈ group, hr.lo ≤ hr.hi ∧ hr.hi < 9223372036854775808)
    (hpfx : ∀ hr ∈ group, ∀ c ∈ hr.pfx, isSep c = false ∧ c ≠ '[' ∧ c ≠ ']') (new : Hostlist) :
    (∃ new', createToken text new = .ok new') ↔ GroupAccepted group := by
  cases h with
  | @single hr hcount =>
    have hplain : ∀ c ∈ hr.pfx ++ numberText hr, c ≠ '[' ∧ c ≠ ']' := by
      intro c hc
      rcases List.mem_append.mp hc with hpfxCmp | hnumber
      · exact (hpfx hr (List.mem_singleton_self _) c hpfxCmp).2
      · exact (plain_of_mem_numberText hnumber).2
    refine iff_of_true ⟨_, createToken_unbracketed hplain new⟩ ⟨by simp [maxRanges], ?_⟩
    exact List.forall_mem_singleton.mpr (hcount.trans (by decide))
  | @bracketed pfx group hne hgroup =>
    obtain ⟨hr, tail, rfl⟩ := List.exists_cons_of_ne_nil hne
    have hplain := hpfx hr List.mem_cons_self
    rw [(hgroup hr List.mem_cons_self).1] at hplain
    have hlimits := fun ranges ↦ parseRangeList_texts (hr :: tail) maxRanges ranges hne
      fun r hmem ↦ ⟨hbounds r hmem, (hgroup r hmem).2⟩
    rw [createToken_bracketed (fun c hc ↦ (hplain c hc).2.1) fun c hc ↦ (bracket_free_numbers hc).2]
    constructor
    · rintro ⟨new', hcreate⟩
      obtain ⟨ranges, hlist, -⟩ := map_eq_ok.mp hcreate
      exact ((hlimits ranges).mp hlist).1
    · intro haccepted
      exact ⟨_, map_eq_ok.mpr ⟨_, (hlimits _).mpr ⟨haccepted, rfl⟩, rfl⟩⟩

/-- Assumes: a group of ranges of a list that is printed, whose text is accepted as a token. What is
pushed are valid ranges of the hosts of the group, and canonical ones if the group is canonical. -/
theorem createToken_group {group : List HostRange} {text : List Char} {new new' : Hostlist}
    (h : GroupText group text)
    (hbounds : ∀ hr ∈ group, hr.lo ≤ hr.hi ∧ hr.hi < 9223372036854775808)
    (hpfx : ∀ hr ∈ group, ∀ c ∈ hr.pfx, isSep c = false ∧ c ≠ '[' ∧ c ≠ ']')
    (hlength : ∀ name ∈ hostsOf group, name.length ≤ 64)
    (hcreate : createToken text new = .ok new') :
    ∃ pushed : List HostRange, new' = pushed.foldl hostlistPushRange new ∧
      hostsOf pushed = hostsOf group ∧
      (∀ hr ∈ pushed, hr.Valid) ∧ ((∀ hr ∈ group, hr.Canonical) → ∀ hr ∈ pushed, hr.Canonical) := by
  cases h with
  | @single hr hcount =>
    have hhosts := hosts_of_count_le (hbounds hr (List.mem_singleton_self _)) hcount
    have hplain : ∀ c ∈ hr.pfx ++ numberText hr, c ≠ '[' ∧ c ≠ ']' := by
      intro c hc
      rcases List.mem_append.mp hc with hpfxCmp | hnumber
      · exact (hpfx hr (List.mem_singleton_self _) c hpfxCmp).2
      · exact (plain_of_mem_numberText hnumber).2
    have hshort := hlength (hr.pfx ++ numberText hr) (by simp [hhosts])
    rw [createToken_unbracketed hplain, List.take_of_length_le (by omega)] at hcreate
    obtain ⟨range, hpush, hname, hcanonical⟩ := hostlistPushHost_range new (hr.pfx ++ numberText hr)
    refine ⟨[range], ?_, by simp [hhosts, hname], List.forall_mem_singleton.mpr hcanonical.toValid,
      fun _ ↦ List.forall_mem_singleton.mpr hcanonical⟩
    rw [← Except.ok.inj hcreate, hpush]
    rfl
  | @bracketed pfx group hne hgroup =>
    obtain ⟨hr, tail, rfl⟩ := List.exists_cons_of_ne_nil hne
    have hplain := hpfx hr List.mem_cons_self
    rw [(hgroup hr List.mem_cons_self).1] at hplain
    rw [createToken_bracketed (fun c hc ↦ (hplain c hc).2.1) fun c hc ↦
      (bracket_free_numbers hc).2] at hcreate
    obtain ⟨ranges, hlist, rfl⟩ := map_eq_ok.mp hcreate
    obtain rfl := ((parseRangeList_texts _ maxRanges ranges hne
      fun r hmem ↦ ⟨hbounds r hmem, (hgroup r hmem).2⟩).mp hlist).2
    refine ⟨(hr :: tail).map fun r ↦ hostrangeCreate pfx r.lo r.hi (reread r).width, ?_, ?_, ?_, ?_⟩
    · rw [List.foldl_map]
      unfold pushRangeList
      rw [List.foldl_map]
      rfl
    · rw [hostsOf, hostsOf, List.flatMap_map]
      refine List.flatMap_congr fun r hmem ↦ ?_
      obtain ⟨rfl, hsingle⟩ := hgroup r hmem
      exact hosts_reread hsingle
    · refine List.forall_mem_map.mpr fun r hmem ↦ ?_
      have hr_bounds := hbounds r hmem
      exact ⟨hr_bounds.1, lt_trans hr_bounds.2 (by decide), fun h ↦ Bool.noConfusion h⟩
    · refine fun hcanonical ↦ List.forall_mem_map.mpr fun r hmem ↦ ?_
      have hr_canonical := hcanonical r hmem
      obtain ⟨rfl, hsingle⟩ := hgroup r hmem
      exact canonical_hostrangeCreate _ hr_canonical.lo_le_hi hr_canonical.hi_le
        (hr_canonical.pfx_end hsingle)

/-! ### The whole text -/

/-- A group of ranges of a list that is printed, and its text. -/
structure PrintedGroup (group : List HostRange × List Char) : Prop where
  text : GroupText group.1 group.2
  bounds : ∀ hr ∈ group.1, hr.lo ≤ hr.hi ∧ hr.hi < 9223372036854775808
  pfx_plain : ∀ hr ∈ group.1, ∀ c ∈ hr.pfx, isSep c = false ∧ c ≠ '[' ∧ c ≠ ']'
  name_ne_nil : ∀ hr ∈ group.1, hr.pfx ++ numberText hr ≠ []
  name_length : ∀ name ∈ hostsOf group.1, name.length ≤ 64

/-- Assumes: groups of ranges of a list that is printed. Their text does not start with a
separator. -/
theorem head_plain_groups {groups : List (List HostRange × List Char)}
    (hgroups : ∀ group ∈ groups, PrintedGroup group) :
    ∀ c ∈ ([','].intercalate (groups.map Prod.snd)).head?, isSep c = false := by
  cases groups with
  | nil => exact fun c hc ↦ absurd hc (by simp [List.intercalate])
  | cons group rest =>
    have hgroup := hgroups group List.mem_cons_self
    obtain ⟨c, tail, hc⟩ := List.exists_cons_of_ne_nil (hgroup.text.text_ne_nil hgroup.name_ne_nil)
    refine fun d hd ↦ hgroup.text.head_plain hgroup.pfx_plain d ?_
    rw [hc]
    cases rest with
    | nil => simpa [List.intercalate, hc] using hd
    | cons next rest =>
      rw [List.map_cons, List.map_cons, intercalate_cons_cons, hc] at hd
      simpa using hd

/-- Assumes: groups of ranges of a list that is printed. The first token of their text is the text
of the first group. -/
theorem nextTok_groups {group : List HostRange × List Char}
    {rest : List (List HostRange × List Char)}
    (hgroups : ∀ other ∈ group :: rest, PrintedGroup other) :
    nextTok ([','].intercalate ((group :: rest).map Prod.snd)) =
      some (group.2, [','].intercalate (rest.map Prod.snd)) := by
  obtain ⟨hgroup, hrest⟩ := List.forall_mem_cons.mp hgroups
  -- what follows the first token: nothing, or a comma and the text of the other groups
  obtain ⟨behind, htext, hbehind, hskip⟩ : ∃ behind,
      [','].intercalate ((group :: rest).map Prod.snd) = group.2 ++ behind ∧
      (behind = [] ∨ ∃ more, behind = ',' :: more) ∧
      behind.dropWhile isSep = [','].intercalate (rest.map Prod.snd) := by
    cases rest with
    | nil => exact ⟨[], by simp [List.intercalate], Or.inl rfl, by simp [List.intercalate]⟩
    | cons next later =>
      refine ⟨',' :: [','].intercalate ((next :: later).map Prod.snd), ?_, Or.inr ⟨_, rfl⟩, ?_⟩
      · rw [List.map_cons, List.map_cons, intercalate_cons_cons]
        rfl
      · rw [List.dropWhile_cons_of_pos (by decide)]
        exact dropWhile_isSep_eq (head_plain_groups hrest)
  have hne := hgroup.text.text_ne_nil hgroup.name_ne_nil
  have hstart := dropWhile_isSep_eq (head_plain_groups hgroups)
  rw [htext] at hstart ⊢
  rw [nextTok, hstart, tokSpan_group hgroup.text hgroup.pfx_plain hbehind]
  simp only [if_neg (List.append_ne_nil_of_left_ne_nil hne behind), hskip]

/-- Assumes: groups of ranges of a list that is printed, and enough rounds for their text. The text
of the first takes one of the rounds. -/
theorem createLoop_group {group : List HostRange × List Char}
    {rest : List (List HostRange × List Char)}
    (hgroups : ∀ other ∈ group :: rest, PrintedGroup other) {rounds : ℕ}
    (hlength : ([','].intercalate ((group :: rest).map Prod.snd)).length ≤ rounds)
    (new : Hostlist) :
    ∃ rounds', ([','].intercalate (rest.map Prod.snd)).length ≤ rounds' ∧
      createLoop rounds ([','].intercalate ((group :: rest).map Prod.snd)) new =
        (createToken group.2 new).bind (createLoop rounds'
          ([','].intercalate (rest.map Prod.snd))) := by
  have hgroup := hgroups group List.mem_cons_self
  have hpositive := List.length_pos_iff.mpr (hgroup.text.text_ne_nil hgroup.name_ne_nil)
  have hlonger : ([','].intercalate (rest.map Prod.snd)).length + group.2.length ≤
      ([','].intercalate ((group :: rest).map Prod.snd)).length := by
    cases rest with
    | nil => simp [List.intercalate]
    | cons next later =>
      rw [List.map_cons (a := group), List.map_cons (a := next), intercalate_cons_cons,
        List.length_append,
        List.length_append]
      omega
  cases rounds with
  | zero => omega
  | succ rounds =>
    refine ⟨rounds, by omega, ?_⟩
    rw [createLoop, nextTok_groups hgroups]
    simp only
    cases createToken group.2 new <;> rfl

/-- Assumes: groups of ranges of a list that is printed, enough rounds, and a text of the groups
that is accepted. What is pushed are valid ranges of the hosts of the groups, in order, and
canonical ones if the groups are canonical. -/
theorem createLoop_groups (groups : List (List HostRange × List Char)) :
    ∀ (rounds : ℕ) (new new' : Hostlist), (∀ group ∈ groups, PrintedGroup group) →
      ([','].intercalate (groups.map Prod.snd)).length ≤ rounds →
      createLoop rounds ([','].intercalate (groups.map Prod.snd)) new = .ok new' →
      ∃ pushed : List HostRange, new' = pushed.foldl hostlistPushRange new ∧
        hostsOf pushed = hostsOf (groups.map Prod.fst).flatten ∧ (∀ hr ∈ pushed, hr.Valid) ∧
        ((∀ group ∈ groups, ∀ hr ∈ group.1, hr.Canonical) → ∀ hr ∈ pushed, hr.Canonical) := by
  induction groups with
  | nil =>
    intro rounds new new' _ _ h
    have hnew : new' = new := by
      cases rounds <;> exact (Except.ok.inj h).symm
    exact ⟨[], hnew, rfl, fun hr hmem ↦ absurd hmem List.not_mem_nil, fun _ hr hmem ↦
      absurd hmem List.not_mem_nil⟩
  | cons group rest ih =>
    intro rounds new new' hgroups hlength h
    obtain ⟨rounds', hlength', hround⟩ := createLoop_group hgroups hlength new
    obtain ⟨hgroup, hrest⟩ := List.forall_mem_cons.mp hgroups
    rw [hround] at h
    obtain ⟨new1, hcreate, hlater⟩ := bind_eq_ok.mp h
    obtain ⟨first, rfl, hfirst, hfirst_valid, hfirst_canonical⟩ :=
      createToken_group hgroup.text hgroup.bounds hgroup.pfx_plain hgroup.name_length hcreate
    obtain ⟨later, rfl, hhosts, hlater_valid, hlater_canonical⟩ :=
      ih rounds' _ new' hrest hlength' hlater
    refine ⟨first ++ later, List.foldl_append.symm, ?_, ?_, fun hcanonical ↦ ?_⟩
    · rw [hostsOf_append, hfirst, hhosts]
      simp
    · exact List.forall_mem_append.mpr ⟨hfirst_valid, hlater_valid⟩
    · obtain ⟨hnow, hthen⟩ := List.forall_mem_cons.mp hcanonical
      exact List.forall_mem_append.mpr ⟨hfirst_canonical hnow, hlater_canonical hthen⟩

/-- Assumes: groups of ranges of a list that is printed, and enough rounds. The text of the groups
is accepted exactly if every group is. -/
theorem createLoop_groups_iff (groups : List (List HostRange × List Char)) :
    ∀ (rounds : ℕ) (new : Hostlist), (∀ group ∈ groups, PrintedGroup group) →
      ([','].intercalate (groups.map Prod.snd)).length ≤ rounds →
      ((∃ new', createLoop rounds ([','].intercalate (groups.map Prod.snd)) new = .ok new') ↔
        ∀ group ∈ groups, GroupAccepted group.1) := by
  induction groups with
  | nil =>
    intro rounds new _ _
    refine iff_of_true ⟨new, ?_⟩ fun group hmem ↦ absurd hmem List.not_mem_nil
    cases rounds <;> rfl
  | cons group rest ih =>
    intro rounds new hgroups hlength
    obtain ⟨rounds', hlength', hround⟩ := createLoop_group hgroups hlength new
    obtain ⟨hgroup, hrest⟩ := List.forall_mem_cons.mp hgroups
    rw [hround, List.forall_mem_cons,
      ← createToken_group_iff hgroup.text hgroup.bounds hgroup.pfx_plain new]
    constructor
    · rintro ⟨new', h⟩
      obtain ⟨new1, hcreate, hlater⟩ := bind_eq_ok.mp h
      exact ⟨⟨new1, hcreate⟩, (ih rounds' new1 hrest hlength').mp ⟨new', hlater⟩⟩
    · rintro ⟨⟨new1, hcreate⟩, hlater⟩
      obtain ⟨new', hcreated⟩ := (ih rounds' new1 hrest hlength').mpr hlater
      exact ⟨new', bind_eq_ok.mpr ⟨new1, hcreate, hcreated⟩⟩

/-- The longest runs of ranges of a list that is printed are groups. -/
theorem Hostlist.Printable.printedGroup {hl : Hostlist} (hprintable : hl.Printable) :
    ∀ group ∈ (hl.ranges.splitBy hostrangeWithinRange).map fun group ↦ (group, groupText group),
      PrintedGroup group := by
  intro group hmem
  obtain ⟨run, hrun, rfl⟩ := List.mem_map.mp hmem
  have hinside : ∀ hr ∈ run, hr ∈ hl.ranges := fun hr hr_mem ↦ by
    rw [← List.flatten_splitBy hostrangeWithinRange hl.ranges]
    exact List.mem_flatten.mpr ⟨run, hrun, hr_mem⟩
  refine ⟨groupText_spec hrun, fun hr hr_mem ↦ hprintable.bounds hr (hinside hr hr_mem),
    fun hr hr_mem ↦ hprintable.pfx_plain hr (hinside hr hr_mem),
    fun hr hr_mem ↦ hprintable.name_ne_nil (hinside hr hr_mem), fun name hname ↦ ?_⟩
  obtain ⟨hr, hr_mem, hname⟩ := List.mem_flatMap.mp hname
  exact (hprintable.name_length name (List.mem_flatMap.mpr ⟨hr, hinside hr hr_mem, hname⟩)).2

/-- The text of a list is that of its groups. -/
theorem rangedText_eq (ranges : List HostRange) :
    rangedText ranges = [','].intercalate
      (((ranges.splitBy hostrangeWithinRange).map fun group ↦
        (group, groupText group)).map Prod.snd) := by
  rw [rangedText, List.map_map]
  rfl

/-- Assumes: a list that can be printed, whose text is accepted. The list read back denotes the same
names in the same order, and it is canonical if the printed list is. -/
theorem hostlistCreate_rangedText {hl new : Hostlist} (hprintable : hl.Printable)
    (haccept : hostlistCreate (rangedText hl.ranges) = .ok new) :
    new.hosts = hl.hosts ∧ (hl.Canonical → new.Canonical) := by
  rw [rangedText_eq, hostlistCreate] at haccept
  obtain ⟨pushed, rfl, hhosts, hvalid, hcanonical⟩ :=
    createLoop_groups _ _ hostlistNew new hprintable.printedGroup le_rfl haccept
  refine ⟨?_, fun hl_canonical ↦
    foldl_hostlistPushRange_canonical pushed hostlistNew hostlistNew_canonical
    (hcanonical (List.forall_mem_map.mpr fun run hrun hr hmem ↦
      hl_canonical.ranges_canonical hr ?_))⟩
  · rw [(foldl_hostlistPushRange_spec pushed hostlistNew hostlistNew_canonical.toValid hvalid).1,
      hosts_hostlistNew,
      List.nil_append, hhosts, List.map_map]
    exact congrArg hostsOf
      ((congrArg List.flatten (List.map_id _)).trans (List.flatten_splitBy _ _))
  · rw [← List.flatten_splitBy hostrangeWithinRange hl.ranges]
    exact List.mem_flatten.mpr ⟨run, hrun, hmem⟩

/-- Every pair of brackets in the text of a list is accepted. -/
def Hostlist.Rereadable (hl : Hostlist) : Prop :=
  ∀ group ∈ hl.ranges.splitBy hostrangeWithinRange, GroupAccepted group

/-- Assumes: a list that can be printed. Its text is accepted exactly if every pair of brackets in
it is. -/
theorem hostlistCreate_rangedText_iff {hl : Hostlist} (hprintable : hl.Printable) :
    (∃ new, hostlistCreate (rangedText hl.ranges) = .ok new) ↔ hl.Rereadable := by
  rw [rangedText_eq, hostlistCreate,
    createLoop_groups_iff _ _ hostlistNew hprintable.printedGroup le_rfl,
    List.forall_mem_map]
  rfl

/-- Assumes: a list with bounds in order and below `2 ^ 63`, prefixes without separators and
brackets, and names that are neither empty nor longer than 64 characters; a buffer in which its
ranged string fits; and a text that `hostlist_create` accepts. The list read back denotes the same
names in the same order. -/
theorem hosts_hostlistCreate_ranged {hl new : Hostlist} {n : ℕ} {buf buf' : List Char} {len : ℤ}
    (hprintable : hl.Printable) (hprint : hostlistRangedString hl n buf = some (len, buf'))
    (hfits : 0 ≤ len) (haccept : hostlistCreate (buf'.take len.toNat) = .ok new) :
    new.hosts = hl.hosts := by
  obtain ⟨rfl, -, hbuf⟩ :=
    hostlistRangedString_printed (fun hr hmem ↦ hprintable.name_ne_nil hmem) hprint hfits
  have htext : buf'.take (rangedText hl.ranges).length = rangedText hl.ranges :=
    (List.prefix_iff_eq_take.mp ((List.prefix_append _ _).trans hbuf)).symm
  rw [Int.toNat_natCast, htext] at haccept
  exact (hostlistCreate_rangedText hprintable haccept).1

/-- The hosts `n9`, `n10`, `n007`, `n008` and `a`, printed into 18 characters, which the text just
fills; the two padded ranges come back as one. -/
theorem hosts_hostlistCreate_ranged_mixed :
    Hostlist.hosts ⟨[hostrangeCreate ['n'] 9 10 1, hostrangeCreate ['n'] 7 8 3,
      hostrangeCreateSingle ['a']], 5⟩ =
    Hostlist.hosts ⟨[hostrangeCreate ['n'] 9 10 1, hostrangeCreate ['n'] 7 7 3,
      hostrangeCreate ['n'] 8 8 3, hostrangeCreateSingle ['a']], 5⟩ :=
  have hprint : hostlistRangedString ⟨[hostrangeCreate ['n'] 9 10 1, hostrangeCreate ['n'] 7 7 3,
      hostrangeCreate ['n'] 8 8 3, hostrangeCreateSingle ['a']], 5⟩ 18 (List.replicate 18 'x') =
      some (17, "n[9-10,007,008],a".toList ++ ['\x00']) := by decide
  have hpfx : ∀ hr ∈ [hostrangeCreate ['n'] 9 10 1, hostrangeCreate ['n'] 7 7 3,
      hostrangeCreate ['n'] 8 8 3, hostrangeCreateSingle ['a']], hr.pfx = ['n'] ∨
          hr.pfx = ['a'] := by
    decide
  hosts_hostlistCreate_ranged ⟨by decide, fun hr hmem c hc ↦ by
    rcases hpfx hr hmem with h | h
    · rw [h, List.mem_singleton] at hc
      exact hc ▸ by decide
    · rw [h, List.mem_singleton] at hc
      exact hc ▸ by decide, by decide⟩ hprint (by decide) (by decide)

end Whatsup
