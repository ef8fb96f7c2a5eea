import Whatsup.Hostlist.NameOrder
import Whatsup.Hostlist.NodeStrings

/-!
# The length of the hosts of a text

`length_le_of_mem_namedHosts` says that a text names no host that is longer than itself, unless it
names all numbers up to `ULONG_MAX`. A range of at most `MAX_RANGE` numbers has numerals that are
hardly longer than that of its lower bound, and the brackets and the dash make up for them. So the
hosts of what is pushed to a list of a handle fit where a node name fits.
-/

set_option autoImplicit false
set_option relaxedAutoImplicit false

namespace Whatsup

open CLib

/-! ### Numerals -/

/-- Assumes: a text without a minus sign that `strtoul` takes a number from. The number has no more
digits than the text has characters. -/
theorem numDigits_strtoul {text : List Char} (hdash : '-' ∉ text)
    (hread : (strtoul text).2 ≠ text) :
    numDigits (strtoul text).1 ≤ text.length := by
  have hminus : (text.dropWhile isSpace).head? ≠ some '-' := fun hhead ↦
    hdash ((List.dropWhile_suffix _).subset (List.mem_of_mem_head? hhead))
  have hlength : (unsigned text).length ≤ text.length := by
    have hstart : (text.dropWhile isSpace).length ≤ text.length :=
      (List.dropWhile_suffix _).length_le
    unfold unsigned
    split_ifs
    · rw [List.length_tail]
      omega
    · exact hstart
  rw [strtoul_unsigned hminus] at hread ⊢
  split_ifs at hread ⊢ with hnone
  · exact absurd rfl hread
  · have hdigits :=
      (List.takeWhile_prefix (l := unsigned text) Char.isDigit).length_le.trans hlength
    have hvalue := (numDigits_le_iff (List.length_pos_of_ne_nil hnone)).mpr
      (ofDigitChars_lt fun c hc ↦ List.mem_takeWhile_imp hc)
    exact (numDigits_mono (min_le_left _ _)).trans (hvalue.trans hdigits)

/-- Assumes: a range that `_parse_single_range` accepts, of at most `MAX_RANGE` numbers. Its
numerals are not more than two characters longer than its text. -/
theorem length_parseSingleRange {str : List Char} {range : Range}
    (h : parseSingleRange str = .ok range)
    (hsize : range.hi < range.lo + maxRange) : max range.width (numDigits range.hi) ≤
      str.length + 2 := by
  unfold parseSingleRange at h
  extract_lets front back at h
  have hfront : front.length ≤ str.length := (List.takeWhile_prefix _).length_le
  have hdash : '-' ∉ front := fun hmem ↦ absurd (List.mem_takeWhile_imp hmem) (by simp)
  have hback : back ≠ [] → front.length + 2 ≤ str.length := fun hne ↦ by
    have hwhole :=
      congrArg List.length (List.takeWhile_append_dropWhile (p := fun c ↦ decide (c ≠ '-'))
      (l := str))
    have hpositive : 0 < (str.dropWhile (· ≠ '-')).tail.length := List.length_pos_of_ne_nil hne
    change (str.takeWhile (· ≠ '-')).length + 2 ≤ _
    rw [List.length_append] at hwhole
    rw [List.length_tail] at hpositive
    omega
  simp only at h
  generalize hupper : (if back ≠ [] then strtoul back else strtoul front) = upper at h
  split_ifs at h with hsign hlower hread horder hmany
  obtain rfl := Except.ok.inj h
  have hlo := numDigits_strtoul hdash hlower
  simp only at hsize ⊢
  refine max_le (hfront.trans (Nat.le_add_right _ _)) ?_
  by_cases hopen : back = []
  · rw [if_neg (not_not.mpr hopen)] at hupper
    rw [← hupper]
    exact hlo.trans (hfront.trans (Nat.le_add_right _ _))
  · -- `MAX_RANGE` numbers on there are at most four digits more, and the text has two more
    have hpositive : 0 < front.length := lt_of_lt_of_le (numDigits_pos _) hlo
    have hlow := (numDigits_le_iff hpositive).mp hlo
    have hten : 10 ≤ 10 ^ front.length := Nat.le_self_pow hpositive.ne' 10
    have hbound : upper.1 < 10 ^ (front.length + 4) := by
      rw [Nat.pow_add]
      unfold maxRange at hsize
      omega
    have hlength := hback hopen
    exact ((numDigits_le_iff (Nat.succ_pos _)).mpr hbound).trans (by omega)

/-- Assumes: ranges that `_parse_range_list` accepts. The numerals of one that has at most
`MAX_RANGE` numbers are not more than two characters longer than the text. -/
theorem length_parseRangeList (room : ℕ) :
    ∀ {str : List Char} {ranges : List Range}, parseRangeList room str = .ok ranges →
      ∀ range ∈ ranges,
      range.hi < range.lo + maxRange → max range.width (numDigits range.hi) ≤ str.length + 2 := by
  induction room with
  | zero => exact fun h ↦ absurd h (by simp [parseRangeList])
  | succ room ih =>
    intro str ranges h
    have hpiece : (str.takeWhile (· ≠ ',')).length ≤ str.length :=
      (List.takeWhile_prefix _).length_le
    have hrest : (str.dropWhile (· ≠ ',')).length ≤ str.length :=
      (List.dropWhile_suffix _).length_le
    rw [parseRangeList] at h
    cases hfirst : parseSingleRange (str.takeWhile (· ≠ ',')) with
    | error failure =>
      rw [hfirst] at h
      exact absurd h (by simp)
    | ok first =>
      have hholds : first.hi < first.lo + maxRange → max first.width (numDigits first.hi) ≤
          str.length + 2 :=
        fun hsize ↦ (length_parseSingleRange hfirst hsize).trans (Nat.add_le_add_right hpiece 2)
      rw [hfirst] at h
      cases hlater : str.dropWhile (· ≠ ',') with
      | nil =>
        rw [hlater] at h
        obtain rfl := Except.ok.inj h
        exact List.forall_mem_singleton.mpr hholds
      | cons comma rest =>
        rw [hlater] at h
        rw [hlater, List.length_cons] at hrest
        cases hlist : parseRangeList room rest with
        | error failure =>
          simp only [hlist] at h
          exact absurd h (by simp)
        | ok more =>
          simp only [hlist] at h
          obtain rfl := Except.ok.inj h
          refine List.forall_mem_cons.mpr ⟨hholds, fun range hrange hsize ↦ ?_⟩
          exact (ih hlist range hrange hsize).trans (by omega)

/-! ### Tokens and texts -/

/-- The parts of a token with brackets are not longer than the token. -/
theorem length_token {tok : List Char} (hopen : '[' ∈ tok) (hclose : ']' ∈ behindOpening tok) :
    (tok.takeWhile (· ≠ '[')).length + (rangesText tok).length + (suffixText tok).length + 2 =
      tok.length := by
  have hsplit : ∀ (c : Char) (text : List Char), c ∈ text →
      (text.takeWhile (· ≠ c)).length + (text.dropWhile (· ≠ c)).tail.length + 1 = text.length := by
    intro c text hmem
    have hwhole :=
      congrArg List.length (List.takeWhile_append_dropWhile (p := fun d ↦ decide (d ≠ c))
      (l := text))
    have hne : text.dropWhile (· ≠ c) ≠ [] := fun hnil ↦ by
      simpa using List.dropWhile_eq_nil_iff.mp hnil c hmem
    have hpositive := List.length_pos_of_ne_nil hne
    rw [List.length_append] at hwhole
    rw [List.length_tail]
    omega
  have hfront := hsplit '[' tok hopen
  have hback := hsplit ']' (behindOpening tok) hclose
  change _ + (behindOpening tok).length + 1 = _ at hfront
  unfold rangesText suffixText
  omega

/-- The tokens of a text are not longer than the text. -/
theorem length_splitLevel (text : List Char) : ∀ level : ℤ, ∀ tok ∈ splitLevel level text,
    tok.length ≤ text.length := by
  induction text with
  | nil => exact fun level ↦ List.forall_mem_singleton.mpr le_rfl
  | cons c rest ih =>
    intro level
    rw [splitLevel]
    split_ifs
    · exact List.forall_mem_cons.mpr ⟨Nat.zero_le _, fun tok htok ↦
        (ih 0 tok htok).trans (Nat.le_succ _)⟩
    all_goals
      intro tok htok
      generalize hpieces : splitLevel _ rest = pieces at htok
      have hshort : ∀ tok ∈ pieces, tok.length ≤ rest.length := hpieces ▸ ih _
      cases pieces with
      | nil => exact absurd htok List.not_mem_nil
      | cons first later =>
        obtain ⟨hfirst, hlater⟩ := List.forall_mem_cons.mp hshort
        rcases List.mem_cons.mp htok with rfl | htok
        · exact Nat.succ_le_succ hfirst
        · exact (hlater tok htok).trans (Nat.le_succ _)

/-- The hosts that one of the ranges denotes are hosts of the ranges. -/
theorem sublist_hostsOf {ranges all : List HostRange} (h : ranges.Sublist all) :
    (hostsOf ranges).Sublist (hostsOf all) := by
  induction h with
  | slnil => exact .slnil
  | cons hr _ ih => exact ih.trans (List.sublist_append_right _ _)
  | cons_cons hr _ ih => exact (List.Sublist.refl _).append ih

/-- Assumes: a token with brackets. It pushes all numbers of each of its ranges. -/
theorem size_le_length_pushedBy {tok : List Char} (hopen : '[' ∈ tok) {range : Range}
    (h : range ∈ acceptedRanges tok) :
    range.hi + 1 - range.lo ≤ (hostsOf (pushedBy tok)).length := by
  unfold pushedBy
  rw [if_pos hopen]
  split_ifs
  · have hone :
      (hostsOf (suffixedFrom (tok.takeWhile (· ≠ '[')) (suffixText tok) range range.lo)).length =
        range.hi + 1 - range.lo := by
      unfold hostsOf suffixedFrom
      rw [List.flatMap_map, List.length_flatMap]
      simp [HostRange.hosts, hostrangeCreateSingle]
    refine hone.symm.le.trans (sublist_hostsOf ?_).length_le
    exact List.sublist_flatten_of_mem (List.mem_map_of_mem h)
  · refine le_trans (le_of_eq ?_)
      (sublist_hostsOf (List.singleton_sublist.mpr (List.mem_map_of_mem h))).length_le
    rw [hostsOf, List.flatMap_cons, List.flatMap_nil, List.append_nil, HostRange.length_hosts rfl]
    rfl

/-- Assumes: an accepted token that pushes less than `2 ^ 31` hosts. None of them is longer than the
token. -/
theorem length_le_of_mem_pushedBy {tok : List Char} (hwell : WellFormed tok)
    (hsmall : (hostsOf (pushedBy tok)).length < 2 ^ 31) {host : List Char}
    (h : host ∈ hostsOf (pushedBy tok)) :
    host.length ≤ tok.length := by
  by_cases hopen : '[' ∈ tok
  · obtain ⟨hnone, -⟩ | ⟨ranges, hbracketed⟩ := hwell
    · exact absurd hopen hnone
    have haccepted : acceptedRanges tok = ranges := by rw [acceptedRanges, hbracketed.2.2]
    have hlength := length_token hopen hbracketed.2.1
    have hnumeral : ∀ range ∈ ranges, ∀ number ≤ range.hi,
        (padded range.width number).length ≤ (rangesText tok).length + 2 := by
      intro range hrange number hnumber
      have hfew := size_le_length_pushedBy hopen (haccepted ▸ hrange)
      obtain ⟨-, -, hsize⟩ :=
        parseRangeList_forall (fun _ _ h ↦ parseSingleRange_size h) _ _ _ hbracketed.2.2
          range hrange
      have hnarrow : range.hi < range.lo + maxRange := by
        refine hsize.resolve_right fun hall ↦ ?_
        rw [hall.1, hall.2] at hfew
        unfold ulongMax at hfew
        omega
      rw [length_padded]
      exact (max_le_max le_rfl (numDigits_mono hnumber)).trans
        (length_parseRangeList _ hbracketed.2.2 range hrange hnarrow)
    obtain ⟨hr, hr_mem, hhost⟩ := List.mem_flatMap.mp h
    unfold pushedBy at hr_mem
    rw [if_pos hopen, haccepted] at hr_mem
    split_ifs at hr_mem with hsuffix
    · obtain ⟨range, hrange, hr_mem⟩ := List.mem_flatMap.mp hr_mem
      obtain ⟨number, hnumber, rfl⟩ := List.mem_map.mp hr_mem
      obtain rfl := List.mem_singleton.mp hhost
      have hwidth := hnumeral range hrange number (by have := List.mem_range'_1.mp hnumber; omega)
      change (List.take 4095 _).length ≤ _
      rw [List.length_take, List.length_append, List.length_append]
      omega
    · obtain ⟨range, hrange, rfl⟩ := List.mem_map.mp hr_mem
      obtain ⟨number, -, hnumber, rfl⟩ := (HostRange.mem_hosts_iff rfl).mp hhost
      have hwidth := hnumeral range hrange number hnumber
      change (tok.takeWhile (· ≠ '[') ++ padded range.width number).length ≤ _
      rw [List.length_append]
      omega
  · unfold pushedBy at h
    rw [if_neg hopen, hostsOf, List.flatMap_cons, List.flatMap_nil, List.append_nil,
      (hostRange_spec _).1] at h
    rw [List.mem_singleton.mp h]
    exact (List.take_prefix 1023 tok).length_le

/-- Assumes: a text that names less than `2 ^ 31` hosts. None of them is longer than the text. -/
theorem length_le_of_mem_namedHosts {node : List Char} (hsmall : (namedHosts node).length < 2 ^ 31)
    {host : List Char}
    (h : host ∈ namedHosts node) : host.length ≤ node.length := by
  unfold namedHosts at hsmall h
  cases hcreate : hostlistCreate node with
  | error failure =>
    rw [hcreate] at h
    exact absurd h List.not_mem_nil
  | ok new =>
    rw [hcreate] at hsmall h
    obtain ⟨hr, hr_mem, hhost⟩ := List.mem_flatMap.mp h
    obtain ⟨tok, htok, hr_mem⟩ := List.mem_flatMap.mp hr_mem
    have hwell := wellFormed_of_createTokens (by rwa [← createLoop_eq _ node _ le_rfl]) tok htok
    have hpart : (pushedBy tok).Sublist (pushedRanges node) :=
      List.sublist_flatten_of_mem (List.mem_map_of_mem htok)
    refine (length_le_of_mem_pushedBy hwell
      (lt_of_le_of_lt (sublist_hostsOf hpart).length_le hsmall)
      (List.mem_flatMap.mpr ⟨hr, hr_mem, hhost⟩)).trans ?_
    exact length_splitLevel node 0 tok (List.mem_of_mem_filter htok)

end Whatsup
