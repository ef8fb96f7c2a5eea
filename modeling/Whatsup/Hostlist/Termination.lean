import Whatsup.Hostlist.Collected
import Whatsup.Hostlist.LooseNotation

/-!
# Whether `hostlist_create` returns

The tokenizer takes at least one character of the text in each round, and a token has at most
`MAX_RANGES` ranges. A range without a suffix behind it is pushed at once; one with a suffix host by
host, in a loop that counts an `unsigned long` up to its upper bound. `parseSingleRange_size` is
what the wrapping test of the size lets pass: at most `MAX_RANGE` hosts, or all `2 ^ 64` numbers.

`createToken_malformed` and `createToken_wellFormed` say what becomes of a token. `terminates_iff`
puts them together: the call returns, after at most `MAX_RANGE` pushes for each range, exactly if no
token that it reaches has a suffix and a range up to `ULONG_MAX` (`Counting`).
-/

set_option autoImplicit false
set_option relaxedAutoImplicit false

namespace Whatsup

open CLib

/-! ### Tokens -/

/-- The text between the brackets of a token. -/
def rangesText (tok : List Char) : List Char :=
  (behindOpening tok).takeWhile (· ≠ ']')

/-- The text behind the brackets of a token. -/
def suffixText (tok : List Char) : List Char :=
  ((behindOpening tok).dropWhile (· ≠ ']')).tail

/-- A token with ranges in brackets, which are accepted. -/
def Bracketed (tok : List Char) (ranges : List Range) : Prop :=
  '[' ∈ tok ∧ ']' ∈ behindOpening tok ∧ parseRangeList maxRanges (rangesText tok) = .ok ranges

/-- A token that is accepted: without brackets, or with ranges in brackets. -/
def WellFormed (tok : List Char) : Prop :=
  ('[' ∉ tok ∧ ']' ∉ tok) ∨ ∃ ranges, Bracketed tok ranges

/-- A token whose ranges are expanded in front of a suffix, one of them up to `ULONG_MAX`. -/
def Counting (tok : List Char) : Prop :=
  suffixText tok ≠ [] ∧ ∃ ranges, Bracketed tok ranges ∧ ∃ range ∈ ranges, range.hi = ulongMax

/-- The tokens of a text pushed in order. -/
def createTokens (toks : List (List Char)) (new : Hostlist) : Except CreateFailure Hostlist :=
  toks.foldlM (fun new tok ↦ createToken tok new) new

/-! ### Ranges -/

/-- Assumes: a range that `_parse_single_range` accepts. Its bounds are in order, and it has at most
`MAX_RANGE` numbers or all there are. -/
theorem parseSingleRange_size {str : List Char} {range : Range}
    (h : parseSingleRange str = .ok range) :
    range.lo ≤ range.hi ∧ range.hi ≤ ulongMax ∧
      (range.hi < range.lo + maxRange ∨ range.lo = 0 ∧ range.hi = ulongMax) := by
  obtain ⟨-, hmax⟩ := parseSingleRange_le h
  unfold parseSingleRange at h
  extract_lets front back at h
  simp only at h
  generalize (if back ≠ [] then strtoul back else strtoul front) = upper at h
  split_ifs at h with hdash hlower hupper horder hsize
  obtain rfl := Except.ok.inj h
  have hle : (strtoul front).1 ≤ upper.1 := not_lt.mp horder
  rw [ulongSub_eq_sub hle, ulongAdd] at hsize
  unfold ulongMax at hmax ⊢
  unfold maxRange at hsize ⊢
  simp only at hmax ⊢
  exact ⟨hle, hmax, by omega⟩

/-- The single hosts that the loop of `_push_range_list_with_suffix` pushes from a number of a range
on. -/
def suffixedFrom (pfx sfx : List Char) (range : Range) (j : ℕ) : List HostRange :=
  (List.range' j (range.hi + 1 - j)).map fun number ↦
    hostrangeCreateSingle ((pfx ++ padded range.width number ++ sfx).take 4095)

/-- Assumes: a range below `ULONG_MAX` and enough rounds. The loop on its numbers ends, and has
pushed a host for each. -/
theorem pushSuffixedLoop_ends {pfx sfx : List Char} {range : Range} (hmax : range.hi < ulongMax)
    (rounds : ℕ) :
    ∀ (j : ℕ) (hl : Hostlist), range.hi + 1 - j < rounds →
      pushSuffixedLoop pfx sfx range rounds j hl =
        some ((suffixedFrom pfx sfx range j).foldl hostlistPushRange hl) := by
  induction rounds with
  | zero => exact fun j hl h ↦ absurd h (Nat.not_lt_zero _)
  | succ rounds ih =>
    intro j hl hrounds
    rw [pushSuffixedLoop]
    split_ifs with hle
    · have hnext : ulongAdd j 1 = j + 1 := by
        unfold ulongMax at hmax
        unfold ulongAdd
        omega
      simp only [hnext]
      rw [ih _ _ (by omega), suffixedFrom, suffixedFrom, show range.hi + 1 - j = range.hi +
        1 - (j + 1) + 1 by omega,
        List.range'_succ, List.map_cons, List.foldl_cons]
    · rw [suffixedFrom, show range.hi + 1 - j = 0 by omega]
      rfl

/-- Assumes: a range up to `ULONG_MAX`. The loop on its numbers does not end in any number of
rounds. -/
theorem pushSuffixedLoop_endless {pfx sfx : List Char} {range : Range} (hmax : range.hi = ulongMax)
    (rounds : ℕ) :
    ∀ (j : ℕ) (hl : Hostlist), j ≤ ulongMax →
      pushSuffixedLoop pfx sfx range rounds j hl = none := by
  induction rounds with
  | zero => exact fun _ _ _ ↦ rfl
  | succ rounds ih =>
    intro j hl hj
    rw [pushSuffixedLoop, if_pos (by omega)]
    exact ih _ _ (by unfold ulongAdd ulongMax; omega)

/-- Assumes: accepted ranges. Pushing them with a suffix does not return exactly if one of them goes
up to `ULONG_MAX`. -/
theorem pushRangeListWithSuffix_eq_none_iff {pfx sfx : List Char} (ranges : List Range) :
    ∀ hl : Hostlist, (∀ range ∈ ranges, range.lo ≤ range.hi ∧ range.hi ≤ ulongMax) →
      (pushRangeListWithSuffix pfx sfx ranges hl = none ↔
        ∃ range ∈ ranges, range.hi = ulongMax) := by
  induction ranges with
  | nil => exact fun hl _ ↦ ⟨fun h ↦ absurd h (by simp [pushRangeListWithSuffix]), fun h ↦
    absurd h (by simp)⟩
  | cons range ranges ih =>
    intro hl hbounds
    obtain ⟨⟨horder, hmax⟩, hlater⟩ := List.forall_mem_cons.mp hbounds
    rw [pushRangeListWithSuffix, List.exists_mem_cons_iff]
    by_cases hends : range.hi = ulongMax
    · rw [pushSuffixedLoop_endless hends _ _ _ (by omega)]
      exact iff_of_true rfl (Or.inl hends)
    · rw [pushSuffixedLoop_ends (by omega) _ _ _ (by unfold ulongMax at hmax; omega),
        or_iff_right hends]
      exact ih _ hlater

/-! ### What becomes of a token -/

/-- The parser of one range returns. -/
theorem parseSingleRange_ne_diverges (str : List Char) : parseSingleRange str ≠
    .error .diverges := by
  unfold parseSingleRange
  extract_lets front back
  simp only
  split_ifs <;> simp

/-- The parser of the ranges between two brackets returns. -/
theorem parseRangeList_ne_diverges (room : ℕ) : ∀ str : List Char, parseRangeList room str ≠
    .error .diverges := by
  induction room with
  | zero => exact fun str ↦ by simp [parseRangeList]
  | succ room ih =>
    intro str h
    rw [parseRangeList_succ] at h
    cases hfirst : parseSingleRange (str.takeWhile (· ≠ ',')) with
    | error failure =>
      rw [hfirst] at h
      obtain rfl := Except.error.inj h
      exact parseSingleRange_ne_diverges _ hfirst
    | ok first =>
      rw [hfirst] at h
      cases hrest : str.dropWhile (· ≠ ',') with
      | nil =>
        rw [hrest] at h
        exact absurd h (by simp [Except.bind])
      | cons comma rest =>
        rw [hrest] at h
        cases hmore : parseRangeList room rest with
        | error failure =>
          simp only [Except.bind, hmore] at h
          obtain rfl := Except.error.inj h
          exact ih rest hmore
        | ok ranges => simp [Except.bind, hmore] at h

/-- Assumes: a token whose ranges are not accepted, or that is not balanced. It is refused, whatever
the list. -/
theorem createToken_malformed {tok : List Char} (h : ¬ WellFormed tok) (new : Hostlist) :
    ∃ failure, createToken tok new = .error failure ∧ failure ≠ .diverges := by
  by_cases hopen : '[' ∈ tok
  · by_cases hclose : ']' ∈ behindOpening tok
    · rw [createToken_eq hopen hclose]
      cases hparse : parseRangeList maxRanges ((behindOpening tok).takeWhile (· ≠ ']')) with
      | error failure =>
        exact ⟨failure, rfl, fun heq ↦
          parseRangeList_ne_diverges _ _ (hparse.trans (congrArg _ heq))⟩
      | ok ranges => exact absurd (Or.inr ⟨ranges, hopen, hclose, hparse⟩) h
    · exact ⟨.unmatchedBracket, by rw [createToken, if_pos hopen]; exact if_neg hclose, by decide⟩
  · have hclose : ']' ∈ tok := by
      by_contra hclose
      exact h (Or.inl ⟨hopen, hclose⟩)
    exact ⟨.unmatchedBracket, by rw [createToken, if_neg hopen, if_pos hclose], by decide⟩

/-- Assumes: an accepted token. It is pushed, unless the call does not return because of a range up
to `ULONG_MAX` in front of a suffix. -/
theorem createToken_wellFormed {tok : List Char} (h : WellFormed tok) (new : Hostlist) :
    createToken tok new = .error .diverges ∧ Counting tok ∨
      (∃ new', createToken tok new = .ok new') ∧ ¬ Counting tok := by
  rcases h with ⟨hopen, hclose⟩ | ⟨ranges, hopen, hclose, hparse⟩
  · right
    refine ⟨⟨_, by rw [createToken, if_neg hopen, if_neg hclose]⟩, ?_⟩
    rintro ⟨-, ranges, ⟨hbracket, -⟩, -⟩
    exact hopen hbracket
  · have hbounds := parseRangeList_forall (fun _ _ h ↦ parseSingleRange_size h) _ _ _ hparse
    have hcounting : Counting tok ↔ suffixText tok ≠ [] ∧ ∃ range ∈ ranges, range.hi =
        ulongMax := by
      refine and_congr_right fun _ ↦ ⟨?_, fun h ↦ ⟨ranges, ⟨hopen, hclose, hparse⟩, h⟩⟩
      rintro ⟨other, ⟨-, -, hother⟩, h⟩
      obtain rfl : ranges = other := Except.ok.inj (hparse.symm.trans hother)
      exact h
    have hcreate := createToken_eq hopen hclose new
    rw [show parseRangeList maxRanges ((behindOpening tok).takeWhile (· ≠ ']')) =
      .ok ranges from hparse] at hcreate
    unfold suffixText at hcounting
    generalize ((behindOpening tok).dropWhile (· ≠ ']')).tail = sfx at hcreate hcounting
    rw [hcreate, hcounting, Except.bind]
    by_cases hsuffix : sfx ≠ []
    · have hnone : pushRangeListWithSuffix (tok.takeWhile (· ≠ '[')) sfx ranges new = none ↔
          ∃ range ∈ ranges, range.hi = ulongMax :=
        pushRangeListWithSuffix_eq_none_iff ranges new fun range hmem ↦
          ⟨(hbounds range hmem).1, (hbounds range hmem).2.1⟩
      rw [if_pos hsuffix]
      cases hpush : pushRangeListWithSuffix (tok.takeWhile (· ≠ '[')) sfx ranges new with
      | none => exact Or.inl ⟨rfl, hsuffix, hnone.mp hpush⟩
      | some new' =>
        exact Or.inr ⟨⟨new', rfl⟩, fun h ↦ absurd ((hnone.mpr h.2).symm.trans hpush) (by simp)⟩
    · rw [if_neg hsuffix]
      exact Or.inr ⟨⟨_, rfl⟩, fun h ↦ hsuffix h.1⟩

/-! ### What becomes of a text -/

/-- Assumes: enough rounds. The loop of `_hostlist_create_bracketed` pushes the tokens of the text
in order. -/
theorem createLoop_eq (rounds : ℕ) :
    ∀ (text : List Char) (new : Hostlist), text.length ≤ rounds →
      createLoop rounds text new = createTokens (looseTokens text) new := by
  induction rounds with
  | zero =>
    intro text new hlength
    obtain rfl := List.length_eq_zero_iff.mp (Nat.le_zero.mp hlength)
    rfl
  | succ rounds ih =>
    intro text new hlength
    rw [createLoop]
    rcases nextTok_loose text with ⟨hnext, htokens⟩ | ⟨tok, rest, hnext, htokens, hshorter⟩
    · rw [hnext, htokens]
      rfl
    · rw [hnext, htokens]
      simp only
      rw [createTokens, List.foldlM_cons]
      cases createToken tok new with
      | error failure => rfl
      | ok new' => exact ih rest new' (by omega)

/-- Pushing tokens does not return exactly if there is a range up to `ULONG_MAX` in front of a
suffix, with only accepted tokens before. -/
theorem createTokens_diverges_iff (toks : List (List Char)) :
    ∀ new : Hostlist, createTokens toks new = .error .diverges ↔
      ∃ front tok back, toks = front ++ tok :: back ∧ (∀ other ∈ front, WellFormed other) ∧
        Counting tok := by
  induction toks with
  | nil =>
    refine fun new ↦ iff_of_false (fun h ↦ absurd h (by simp [createTokens, pure, Except.pure])) ?_
    rintro ⟨front, tok, back, hsplit, -⟩
    simp at hsplit
  | cons tok toks ih =>
    intro new
    rw [createTokens, List.foldlM_cons]
    by_cases hwell : WellFormed tok
    · rcases createToken_wellFormed hwell new with ⟨hcreate,
        hcounting⟩ | ⟨⟨new', hcreate⟩, hcounting⟩
      · rw [hcreate]
        exact iff_of_true rfl ⟨[], tok, toks, rfl, fun _ h ↦ absurd h List.not_mem_nil, hcounting⟩
      · rw [hcreate]
        refine (ih new').trans ⟨?_, ?_⟩
        · rintro ⟨front, other, back, rfl, hfront, hother⟩
          exact ⟨tok :: front, other, back, rfl, List.forall_mem_cons.mpr ⟨hwell, hfront⟩, hother⟩
        · rintro ⟨front, other, back, hsplit, hfront, hother⟩
          cases front with
          | nil =>
            obtain ⟨rfl, -⟩ := List.cons.inj hsplit
            exact absurd hother hcounting
          | cons first front =>
            obtain ⟨rfl, rfl⟩ := List.cons.inj hsplit
            exact ⟨front, other, back, rfl, (List.forall_mem_cons.mp hfront).2, hother⟩
    · obtain ⟨failure, hcreate, hreturns⟩ := createToken_malformed hwell new
      rw [hcreate]
      refine iff_of_false (fun h ↦ hreturns (Except.error.inj h)) ?_
      rintro ⟨front, other, back, hsplit, hfront, hother⟩
      cases front with
      | nil =>
        obtain ⟨rfl, -⟩ := List.cons.inj hsplit
        obtain ⟨-, ranges, hbracketed, -⟩ := hother
        exact hwell (Or.inr ⟨ranges, hbracketed⟩)
      | cons first front =>
        obtain ⟨rfl, -⟩ := List.cons.inj hsplit
        exact hwell (hfront _ List.mem_cons_self)

/-! ### Termination -/

/-- The call of `hostlist_create` on a text ends: more rounds than characters do not change what the
tokenizer finds, the call returns, and the expansion of a range in front of a suffix ends after at
most `MAX_RANGE` pushes, whenever the call comes to it. -/
structure Terminates (str : List Char) : Prop where
  tokens : ∀ rounds, str.length ≤ rounds → createLoop rounds str hostlistNew = hostlistCreate str
  returns : hostlistCreate str ≠ .error .diverges
  pushes : ∀ front tok back ranges, looseTokens str = front ++ tok :: back →
    (∀ other ∈ front, WellFormed other) →
    Bracketed tok ranges → suffixText tok ≠ [] → ∀ range ∈ ranges, ∀ hl, ∃ hl',
      pushSuffixedLoop (tok.takeWhile (· ≠ '[')) (suffixText tok) range (maxRange + 1) range.lo
        hl = some hl'

/-- A call of `hostlist_create` ends exactly if no token with only accepted tokens before it has a
suffix and a range up to `ULONG_MAX`. -/
theorem terminates_iff (str : List Char) :
    Terminates str ↔
      ¬ ∃ front tok back, looseTokens str = front ++ tok :: back ∧
      (∀ other ∈ front, WellFormed other) ∧ Counting tok := by
  have hcreate : hostlistCreate str = createTokens (looseTokens str) hostlistNew :=
    createLoop_eq _ str _ le_rfl
  have hdiverges := createTokens_diverges_iff (looseTokens str) hostlistNew
  rw [← hcreate] at hdiverges
  constructor
  · exact fun hterminates hcounting ↦ hterminates.returns (hdiverges.mpr hcounting)
  · intro hnone
    refine ⟨fun rounds hrounds ↦ ?_, fun h ↦ hnone (hdiverges.mp h), ?_⟩
    · rw [createLoop_eq rounds str _ hrounds, hcreate]
    · intro front tok back ranges hsplit hfront hbracketed hsuffix range hmem hl
      obtain ⟨horder, hmax, hsize⟩ :=
        parseRangeList_forall (fun _ _ h ↦ parseSingleRange_size h) _ _ _ hbracketed.2.2
        range hmem
      have hends : range.hi ≠ ulongMax := fun hends ↦
        hnone ⟨front, tok, back, hsplit, hfront, hsuffix, ranges, hbracketed, range, hmem, hends⟩
      refine ⟨_, pushSuffixedLoop_ends (by omega) _ _ _ ?_⟩
      unfold maxRange at hsize ⊢
      omega

/-- The text `n[18446744073709551615]x`. -/
def countingText : List Char :=
  "n[18446744073709551615]x".toList

/-- The only token of the text has a suffix and a range up to `ULONG_MAX`. -/
theorem counting_countingText : looseTokens countingText = [countingText] ∧
    Counting countingText := by
  refine ⟨by decide, by decide, [⟨ulongMax, ulongMax, 20⟩], ⟨by decide, by decide, rfl⟩, _,
    List.mem_singleton_self _, rfl⟩

/-- The call of `hostlist_create` on the text does not end. -/
theorem not_terminates_countingText : ¬ Terminates countingText := by
  intro hterminates
  obtain ⟨htokens, hsuffix, ranges, hbracketed, range, hmem, hmax⟩ := counting_countingText
  obtain ⟨horder, -, -⟩ :=
    parseRangeList_forall (fun _ _ h ↦ parseSingleRange_size h) _ _ _ hbracketed.2.2 range hmem
  obtain ⟨hl', hloop⟩ :=
    hterminates.pushes [] countingText [] ranges htokens (fun _ h ↦ absurd h List.not_mem_nil)
    hbracketed hsuffix range hmem hostlistNew
  rw [pushSuffixedLoop_endless hmax _ _ _ (by omega)] at hloop
  exact absurd hloop (by simp)

end Whatsup
