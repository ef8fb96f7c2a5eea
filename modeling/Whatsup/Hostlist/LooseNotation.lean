import Whatsup.Hostlist.Notation

/-!
# What the parser takes for a host expression

The parser is looser than the notation. A number may follow blanks and a plus sign, a range may be
open at its end, and only the first opening bracket of a token and the first closing one behind it
count. `looseExpression` is this notation.

`createLoop_loose` says that the parser accepts exactly these texts and pushes the names they
denote, unless a token is so long that it is cut or has further brackets, a number is so large that
it saturates, or a bound has other characters around its digits. `createToken_loose` is the step for
one token.
-/

set_option autoImplicit false
set_option relaxedAutoImplicit false

namespace Whatsup

open CLib

/-! ### The notation -/

/-- The text of a number without the blanks and the plus sign in front of it. -/
def unsigned (text : List Char) : List Char :=
  if (text.dropWhile isSpace).head? =
    some '+' then (text.dropWhile isSpace).tail else text.dropWhile isSpace

/-- The number that a text of digits stands for, behind blanks and a plus sign. -/
def looseNumeral (text : List Char) : Option ℕ :=
  numeral (unsigned text)

/-- The text of the lower bound of a range. -/
def lowerText (piece : List Char) : List Char :=
  piece.takeWhile (· ≠ '-')

/-- The text of the upper bound of a range, empty if the range is a number or open. -/
def upperText (piece : List Char) : List Char :=
  (piece.dropWhile (· ≠ '-')).tail

/-- The upper bound of a range: that of its text, or the lower bound if there is no text. -/
def upperBound (piece : List Char) : Option ℕ :=
  if upperText piece = [] then looseNumeral (lowerText piece) else looseNumeral (upperText piece)

/-- The range that a text between two brackets or commas stands for: bounds in order, and not too
many hosts. -/
def looseRange (piece : List Char) : Option Range :=
  match looseNumeral (lowerText piece), upperBound piece with
  | some lo, some hi =>
    if lo ≤ hi ∧ hi - lo < maxRange then some ⟨lo, hi, (lowerText piece).length⟩ else none
  | _, _ => none

/-- The text behind the first opening bracket. -/
def behindOpening (tok : List Char) : List Char :=
  (tok.dropWhile (· ≠ '[')).tail

/-- The ranges of a token, between the first opening bracket and the first closing one behind it. -/
def rangeTexts (tok : List Char) : List (List Char) :=
  ((behindOpening tok).takeWhile (· ≠ ']')).splitOn ','

/-- What a token stands for. -/
def looseToken (tok : List Char) : Option HostToken :=
  if '[' ∈ tok then
    if ']' ∈ behindOpening tok ∧ (rangeTexts tok).length ≤ maxRanges then
      ((rangeTexts tok).mapM looseRange).map
        (.bracketed (tok.takeWhile (· ≠ '[')) · ((behindOpening tok).dropWhile (· ≠ ']')).tail)
    else none
  else if ']' ∈ tok then none
  else some (.single tok)

/-- The pieces of a text between separators where no bracket is open, given the opening brackets
less the closing ones before it. -/
def splitLevel : ℤ → List Char → List (List Char)
  | _, [] => [[]]
  | level, c :: rest =>
    if level = 0 ∧ isSep c = true then [] :: splitLevel 0 rest
    else
      (splitLevel (if c = '[' then level + 1 else if c = ']' then level - 1 else level)
        rest).modifyHead (c :: ·)

/-- The tokens of a text. -/
def looseTokens (text : List Char) : List (List Char) :=
  (splitLevel 0 text).filter (· ≠ [])

/-- What a text of hosts consists of, if the parser takes it for one. -/
def looseExpression (text : List Char) : Option (List HostToken) :=
  (looseTokens text).mapM looseToken

example : looseExpression "n[1-, +3]x".toList = some [.bracketed ['n'] [⟨1, 1, 1⟩, ⟨3, 3, 3⟩]
    ['x']] := by
  decide

/-! ### Texts that are read as they stand -/

/-- A range whose bounds are below `ULONG_MAX`, with nothing between the digits of the lower one and
the dash and no minus sign behind blanks in the upper one. -/
structure RegularRange (piece : List Char) : Prop where
  lower_lt : ∀ lo ∈ looseNumeral (lowerText piece), lo < ulongMax
  upper_lt : ∀ hi ∈ looseNumeral (upperText piece), hi < ulongMax
  lower_digits : looseNumeral (lowerText piece) = none → upperText piece ≠ [] →
    ∀ c ∈ (unsigned (lowerText piece)).head?, c.isDigit = false
  upper_sign : (upperText piece).head? ≠ some '-' →
    ((upperText piece).dropWhile isSpace).head? ≠ some '-'

/-- A token of less than 1023 characters without brackets, or one of regular ranges, without further
brackets in its prefix or suffix; if it has a suffix, its names have less than 4096 characters. -/
structure RegularToken (tok : List Char) : Prop where
  single : '[' ∉ tok → tok.length < 1023
  ranges : '[' ∈ tok → ∀ piece ∈ rangeTexts tok, RegularRange piece
  brackets : ∀ pfx ranges sfx, looseToken tok = some (.bracketed pfx ranges sfx) → '[' ∉ sfx ∧
    ']' ∉ pfx ++ sfx
  names : ∀ pfx ranges sfx, looseToken tok = some (.bracketed pfx ranges sfx) → sfx ≠ [] →
    ∀ name ∈ HostToken.names (.bracketed pfx ranges sfx), name.length < 4096

/-- A text of regular tokens. -/
def RegularText (text : List Char) : Prop :=
  ∀ tok ∈ looseTokens text, RegularToken tok

/-! ### Numbers -/

/-- Text that `strtoul` reads, without a minus sign in front. -/
theorem strtoul_unsigned {text : List Char} (h : (text.dropWhile isSpace).head? ≠ some '-') :
    strtoul text =
      if (unsigned text).takeWhile Char.isDigit = [] then (0, text)
      else (min (Nat.ofDigitChars 10 ((unsigned text).takeWhile Char.isDigit) 0) ulongMax,
        (unsigned text).dropWhile Char.isDigit) := by
  have hunsigned : (if (text.dropWhile isSpace).head? = some '+' then
      (text.dropWhile isSpace).tail else text.dropWhile isSpace) = unsigned text := rfl
  unfold strtoul
  simp only [h, false_or, hunsigned, decide_false, Bool.false_eq_true, if_false]
  split_ifs with hnone hlarge
  · rfl
  · rw [min_eq_right hlarge.le]
  · rw [min_eq_left (not_lt.mp hlarge)]

/-- A number of the loose notation has no minus sign in front. -/
theorem head_of_looseNumeral {text : List Char} {n : ℕ} (h : looseNumeral text = some n) :
    (text.dropWhile isSpace).head? ≠ some '-' := by
  intro hminus
  unfold looseNumeral numeral at h
  split_ifs at h with hdigits
  have hsame : unsigned text = text.dropWhile isSpace := by
    unfold unsigned
    rw [hminus, if_neg (by decide)]
  rw [hsame] at hdigits
  have hdigit := List.all_eq_true.mp hdigits.2 '-' (List.mem_of_mem_head? hminus)
  exact absurd hdigit (by decide)

/-- Assumes: a number of the loose notation that is an `unsigned long`. `strtoul` reads all of
it. -/
theorem strtoul_of_looseNumeral {text : List Char} {n : ℕ} (h : looseNumeral text = some n)
    (hn : n ≤ ulongMax) :
    strtoul text = (n, []) := by
  rw [strtoul_unsigned (head_of_looseNumeral h)]
  unfold looseNumeral numeral at h
  split_ifs at h with hdigits
  obtain ⟨hne, hall⟩ := hdigits
  have hall' : ∀ c ∈ unsigned text, c.isDigit = true := List.all_eq_true.mp hall
  rw [List.takeWhile_eq_self_iff.mpr hall', List.dropWhile_eq_nil_iff.mpr hall', if_neg hne,
    Option.some.inj h,
    min_eq_left hn]

/-- Assumes: a text that is no number of the loose notation and has no minus sign in front.
`strtoul` reads nothing, or not all of it. -/
theorem strtoul_of_not_looseNumeral {text : List Char} (h : looseNumeral text = none)
    (hminus : (text.dropWhile isSpace).head? ≠ some '-') : (strtoul text).2 = text ∨
      (strtoul text).2 ≠ [] := by
  rw [strtoul_unsigned hminus]
  split_ifs with hnone
  · exact Or.inl rfl
  · refine Or.inr fun hall ↦ ?_
    have hdigits : (unsigned text).all Char.isDigit = true :=
      List.all_eq_true.mpr (List.dropWhile_eq_nil_iff.mp hall)
    have hne : unsigned text ≠ [] := fun hnil ↦ hnone (by rw [hnil]; rfl)
    rw [looseNumeral, numeral, if_pos ⟨hne, hdigits⟩] at h
    exact absurd h (by simp)

/-- Assumes: a text that does not start with a digit behind blanks and a plus sign, and has no minus
sign in front. `strtoul` reads nothing. -/
theorem strtoul_of_no_digit {text : List Char} (h : ∀ c ∈ (unsigned text).head?, c.isDigit = false)
    (hminus : (text.dropWhile isSpace).head? ≠ some '-') : (strtoul text).2 = text := by
  have hnone : (unsigned text).takeWhile Char.isDigit = [] := by
    cases hunsigned : unsigned text with
    | nil => rfl
    | cons c rest => rw [List.takeWhile_cons_of_neg (by simp [h c (by rw [hunsigned]; rfl)])]
  rw [strtoul_unsigned hminus, if_pos hnone]

/-! ### Ranges -/

/-- A failure of `hostlist_create`: it returns, and gives no list. -/
def Refused {α : Type} (outcome : Except CreateFailure α) : Prop :=
  ∃ failure, outcome = .error failure ∧ failure ≠ .diverges

/-- The outcome of the parser on a text that is read as a value or as nothing. -/
def Reads {α : Type} (outcome : Except CreateFailure α) : Option α → Prop
  | some value => outcome = .ok value
  | none => Refused outcome

/-- The front of a text has no dash. -/
theorem dash_notMem_lowerText (piece : List Char) : '-' ∉ lowerText piece := fun hmem ↦
  absurd (List.mem_takeWhile_imp hmem) (by decide)

/-- The lower bound of a range has no minus sign in front. -/
theorem head_lowerText (piece : List Char) : ((lowerText piece).dropWhile isSpace).head? ≠
    some '-' := fun h ↦
  dash_notMem_lowerText piece ((List.dropWhile_sublist isSpace).subset (List.mem_of_mem_head? h))

/-- `_parse_single_range` on the texts of the two bounds. -/
theorem parseSingleRange_eq (piece : List Char) :
    parseSingleRange piece =
      if (upperText piece).head? = some '-' then .error .invalidRange
      else if (strtoul (lowerText piece)).2 = lowerText piece then .error .invalidRange
      else
        let bound :=
          if upperText piece ≠ [] then strtoul (upperText piece) else strtoul (lowerText piece)
        if (upperText piece ≠ [] ∧ bound.2 = upperText piece) ∨
          bound.2 ≠ [] then .error .invalidRange
        else if bound.1 < (strtoul (lowerText piece)).1 then .error .invalidRange
        else if maxRange < ulongAdd (ulongSub bound.1 (strtoul (lowerText piece)).1) 1 then .error
          .tooManyHosts
        else .ok { lo := (strtoul (lowerText piece)).1, hi := bound.1, width :=
            (lowerText piece).length } :=
  rfl

/-- An invalid range is refused. -/
theorem refused_invalidRange {α : Type} : Refused (.error .invalidRange : Except CreateFailure α) :=
  ⟨_, rfl, by decide⟩

/-- No number is an empty text. -/
theorem ne_nil_of_looseNumeral {text : List Char} {n : ℕ} (h : looseNumeral text = some n) :
    text ≠ [] := by
  rintro rfl
  exact absurd h (by rw [show looseNumeral [] = none by decide]; simp)

/-- Assumes: a regular range whose lower bound is no number. `_parse_single_range` refuses it. -/
theorem parseSingleRange_lower {piece : List Char} (hregular : RegularRange piece)
    (hlower : looseNumeral (lowerText piece) = none) : parseSingleRange piece =
      .error .invalidRange := by
  rw [parseSingleRange_eq]
  by_cases hopen : upperText piece = []
  · simp only [hopen, List.head?_nil, reduceCtorEq, if_false, ne_eq, not_true_eq_false,
      false_and, false_or]
    rcases strtoul_of_not_looseNumeral hlower (head_lowerText piece) with hnothing | hrest
    · rw [if_pos hnothing]
    · rw [if_pos hrest, ite_self]
  · rw [if_pos (strtoul_of_no_digit (hregular.lower_digits hlower hopen) (head_lowerText piece)),
      ite_self]

/-- Assumes: a range whose lower bound is a number and whose upper bound is not.
`_parse_single_range` refuses it. -/
theorem parseSingleRange_upper {piece : List Char} (hregular : RegularRange piece)
    (hopen : upperText piece ≠ [])
    (hupper : looseNumeral (upperText piece) = none) : parseSingleRange piece =
      .error .invalidRange := by
  rw [parseSingleRange_eq]
  split_ifs with hminus hnothing
  · rfl
  · rfl
  · simp only [ne_eq, hopen, not_false_eq_true, true_and]
    rw [if_pos (strtoul_of_not_looseNumeral hupper (hregular.upper_sign hminus))]

/-- Assumes: a range whose bounds are numbers below `ULONG_MAX`. `_parse_single_range` accepts it if
the bounds are in order and there are not too many hosts. -/
theorem parseSingleRange_bounds {piece : List Char} {lo hi : ℕ}
    (hlower : looseNumeral (lowerText piece) = some lo)
    (hupper : upperBound piece = some hi) (hlo : lo < ulongMax) (hhi : hi < ulongMax) :
    parseSingleRange piece =
      if hi < lo then .error .invalidRange
      else if maxRange ≤ hi - lo then .error .tooManyHosts
      else .ok ⟨lo, hi, (lowerText piece).length⟩ := by
  have hread := strtoul_of_looseNumeral hlower hlo.le
  have hne := (ne_nil_of_looseNumeral hlower).symm
  have hcount : lo ≤ hi → (maxRange < ulongAdd (ulongSub hi lo) 1 ↔
      maxRange ≤ hi - lo) := fun hle ↦ by
    unfold ulongMax at hhi
    rw [ulongSub_eq_sub hle, ulongAdd]
    omega
  have hlast : (if hi < lo then (.error .invalidRange : Except CreateFailure Range)
      else if maxRange < ulongAdd (ulongSub hi lo) 1 then .error .tooManyHosts
      else .ok ⟨lo, hi, (lowerText piece).length⟩) =
      if hi < lo then .error .invalidRange
      else if maxRange ≤ hi - lo then .error .tooManyHosts
      else .ok ⟨lo, hi, (lowerText piece).length⟩ := by
    split_ifs with horder htoo htoo' htoo'
    · rfl
    · rfl
    · exact absurd ((hcount (not_lt.mp horder)).mp htoo) htoo'
    · exact absurd ((hcount (not_lt.mp horder)).mpr htoo') htoo
    · rfl
  unfold upperBound at hupper
  rw [parseSingleRange_eq, hread, ← hlast]
  by_cases hopen : upperText piece = []
  · rw [if_pos hopen, hlower] at hupper
    obtain rfl := Option.some.inj hupper
    simp only [hopen, List.head?_nil, reduceCtorEq, if_false, ne_eq,
      not_true_eq_false, false_and, or_self, hne]
  · rw [if_neg hopen] at hupper
    have hsign : (upperText piece).head? ≠ some '-' := fun h ↦ by
      refine head_of_looseNumeral hupper ?_
      obtain ⟨rest, hrest⟩ := List.head?_eq_some_iff.mp h
      rw [hrest]
      rfl
    simp only [strtoul_of_looseNumeral hupper hhi.le, hsign, hne, hopen, Ne.symm hopen, ne_eq,
      not_false_eq_true, if_true,
      if_false, not_true_eq_false, and_false, or_self]

/-- Assumes: a regular range. `_parse_single_range` reads it as it stands. -/
theorem parseSingleRange_loose {piece : List Char} (hregular : RegularRange piece) :
    Reads (parseSingleRange piece) (looseRange piece) := by
  unfold looseRange
  cases hlower : looseNumeral (lowerText piece) with
  | none =>
    rw [parseSingleRange_lower hregular hlower]
    exact refused_invalidRange
  | some lo =>
    cases hupper : upperBound piece with
    | none =>
      unfold upperBound at hupper
      split_ifs at hupper with hopen
      · exact absurd (hlower.symm.trans hupper) (by simp)
      · rw [parseSingleRange_upper hregular hopen hupper]
        exact refused_invalidRange
    | some hi =>
      have hlo := hregular.lower_lt lo hlower
      have hhi : hi < ulongMax := by
        unfold upperBound at hupper
        split_ifs at hupper with hopen
        · exact hregular.lower_lt hi hupper
        · exact hregular.upper_lt hi hupper
      rw [parseSingleRange_bounds hlower hupper hlo hhi]
      simp only
      rcases lt_or_ge hi lo with horder | horder
      · rw [if_pos horder, if_neg fun h ↦ absurd h.1 (not_le.mpr horder)]
        exact refused_invalidRange
      · rw [if_neg (not_lt.mpr horder)]
        rcases lt_or_ge (hi - lo) maxRange with hfew | hmany
        · rw [if_neg (not_le.mpr hfew), if_pos ⟨horder, hfew⟩]
          rfl
        · rw [if_pos hmany, if_neg fun h ↦ absurd h.2 (not_lt.mpr hmany)]
          exact ⟨_, rfl, by decide⟩

/-- The pieces of a text at a character: the whole text, or what stands in front of the first such
character and the pieces of what follows it. -/
theorem splitOn_cases (d : Char) (text : List Char) :
    (d ∉ text ∧ text.splitOn d = [text]) ∨
      ∃ front rest, text = front ++ d :: rest ∧ d ∉ front ∧
        text.splitOn d = front :: rest.splitOn d := by
  by_cases hmem : d ∈ text
  · obtain ⟨front, rest, rfl, hfront⟩ := List.eq_append_cons_of_mem hmem
    exact Or.inr ⟨front, rest, rfl, hfront, List.splitOn_append_cons_self_of_not_mem hfront rest⟩
  · exact Or.inl ⟨hmem, List.splitOn_eq_singleton hmem⟩

/-- Text without a character, cut at that character. -/
theorem cut_notMem {d : Char} {front : List Char} (rest : List Char) (h : d ∉ front) :
    (front ++ d :: rest).takeWhile (· ≠ d) = front ∧ (front ++ d :: rest).dropWhile (· ≠ d) =
      d :: rest :=
  cut_append rest fun _ hc heq ↦ h (heq ▸ hc)

/-- Assumes: an outcome that is read as a value or as nothing, and a next step that is read behind
each value. So is the sequence of both. -/
theorem Reads.bind {α β : Type} {outcome : Except CreateFailure α} {reading : Option α}
    {f : α → Except CreateFailure β}
    {g : α → Option β} (h : Reads outcome reading) (hnext : ∀ value, reading = some value →
      Reads (f value) (g value)) :
    Reads (outcome.bind f) (reading.bind g) := by
  cases reading with
  | none =>
    obtain ⟨failure, rfl, hreturns⟩ := h
    exact ⟨failure, rfl, hreturns⟩
  | some value =>
    obtain rfl : outcome = .ok value := h
    exact hnext value rfl

/-- `_parse_range_list` reads the first range, and then the others. -/
theorem parseRangeList_succ (room : ℕ) (body : List Char) :
    parseRangeList (room + 1) body = (parseSingleRange (body.takeWhile (· ≠ ','))).bind fun range ↦
      match body.dropWhile (· ≠ ',') with
      | [] => .ok [range]
      | _ :: rest => (parseRangeList room rest).bind fun ranges ↦ .ok (range :: ranges) := by
  rw [parseRangeList]
  cases parseSingleRange (body.takeWhile (· ≠ ',')) with
  | error failure => rfl
  | ok range =>
    cases body.dropWhile (· ≠ ',') with
    | nil => rfl
    | cons c rest =>
      simp only [Except.bind]
      cases parseRangeList room rest <;> rfl

/-- Assumes: regular ranges between commas, for which there is room. `_parse_range_list` reads them
as they stand. -/
theorem parseRangeList_loose (room : ℕ) :
    ∀ body : List Char, (∀ piece ∈ body.splitOn ',', RegularRange piece) →
      (body.splitOn ',').length ≤ room →
      Reads (parseRangeList room body) ((body.splitOn ',').mapM looseRange) := by
  induction room with
  | zero =>
    intro body _ hroom
    have hpositive := List.length_pos_iff.mpr (List.splitOn_ne_nil ',' body)
    omega
  | succ room ih =>
    intro body hregular hroom
    rw [parseRangeList_succ]
    rcases splitOn_cases ',' body with ⟨hcomma, hsplit⟩ | ⟨front, rest, rfl, hcomma, hsplit⟩
    · obtain ⟨htake, hdrop⟩ := @cut_self ',' body fun _ hc heq ↦ hcomma (heq ▸ hc)
      rw [hsplit] at hregular ⊢
      rw [htake, hdrop, List.mapM_cons, List.mapM_nil]
      exact (parseSingleRange_loose (hregular _ (List.mem_singleton_self _))).bind fun range _ ↦ rfl
    · obtain ⟨htake, hdrop⟩ := cut_notMem rest hcomma
      rw [hsplit] at hregular hroom ⊢
      obtain ⟨hpiece, hpieces⟩ := List.forall_mem_cons.mp hregular
      rw [List.length_cons] at hroom
      rw [htake, hdrop, List.mapM_cons]
      exact (parseSingleRange_loose hpiece).bind fun range _ ↦
        (ih rest hpieces (by omega)).bind fun ranges _ ↦ rfl

/-- Assumes: regular ranges between commas, for which there is no room. `_parse_range_list` refuses
them. -/
theorem parseRangeList_many (room : ℕ) :
    ∀ body : List Char, (∀ piece ∈ body.splitOn ',', RegularRange piece) →
      room < (body.splitOn ',').length →
      Refused (parseRangeList room body) := by
  induction room with
  | zero => exact fun body _ _ ↦ ⟨_, rfl, by decide⟩
  | succ room ih =>
    intro body hregular hroom
    rw [parseRangeList_succ]
    rcases splitOn_cases ',' body with ⟨hcomma, hsplit⟩ | ⟨front, rest, rfl, hcomma, hsplit⟩
    · rw [hsplit, List.length_singleton] at hroom
      omega
    · obtain ⟨htake, hdrop⟩ := cut_notMem rest hcomma
      rw [hsplit] at hregular hroom
      obtain ⟨hpiece, hpieces⟩ := List.forall_mem_cons.mp hregular
      rw [List.length_cons] at hroom
      rw [htake, hdrop]
      have hfirst := parseSingleRange_loose hpiece
      cases hread : looseRange front with
      | none =>
        rw [hread] at hfirst
        obtain ⟨failure, hfailure, hreturns⟩ := hfirst
        exact ⟨failure, by rw [hfailure]; rfl, hreturns⟩
      | some range =>
        rw [hread] at hfirst
        change parseSingleRange _ = .ok range at hfirst
        obtain ⟨failure, hfailure, hreturns⟩ := ih rest hpieces (by omega)
        exact ⟨failure, by rw [hfirst]; simp only [Except.bind, hfailure], hreturns⟩

/-! ### Tokens -/

/-- Assumes: a valid list, a range whose numbers from `number` on are below `ULONG_MAX`, enough
rounds, and names of less than 4096 characters. The loop of `_push_range_list_with_suffix` pushes
the names of these numbers. -/
theorem pushSuffixedLoop_spec {pfx sfx : List Char} {range : Range} (hhi : range.hi < ulongMax)
    (hnames : ∀ name ∈ range.names pfx sfx, name.length < 4096) (rounds : ℕ) :
    ∀ (number : ℕ) (hl : Hostlist), range.lo ≤ number → range.hi + 1 - number < rounds → hl.Valid →
      ∃ hl', pushSuffixedLoop pfx sfx range rounds number hl = some hl' ∧
        hl'.hosts = hl.hosts ++
          (List.range' number (range.hi + 1 - number)).map (fun number ↦
            pfx ++ padded range.width number ++ sfx) ∧
        hl'.Valid := by
  induction rounds with
  | zero => exact fun number hl _ hrounds _ ↦ absurd hrounds (Nat.not_lt_zero _)
  | succ rounds ih =>
    intro number hl hlo hrounds hvalid
    rw [pushSuffixedLoop]
    split_ifs with hle
    · have hname : pfx ++ padded range.width number ++ sfx ∈ range.names pfx sfx :=
        List.mem_map.mpr ⟨number, List.mem_range'_1.mpr ⟨hlo, by omega⟩, rfl⟩
      have hnext : ulongAdd number 1 = number + 1 := by
        unfold ulongMax at hhi
        unfold ulongAdd
        omega
      have hshort := hnames _ hname
      obtain ⟨hhosts, hpushed⟩ := hostlistPushRange_spec hvalid
        (canonical_hostrangeCreateSingle
          ((pfx ++ padded range.width number ++ sfx).take 4095)).toValid
      obtain ⟨hl', hloop, hhosts', hvalid'⟩ := ih (number + 1) _ (by omega) (by omega) hpushed
      refine ⟨hl', by rw [hnext]; exact hloop, ?_, hvalid'⟩
      rw [hhosts', hhosts, List.append_assoc, show range.hi + 1 - number = range.hi +
        1 - (number + 1) + 1 by omega,
        List.range'_succ, List.map_cons, List.take_of_length_le (by omega)]
      rfl
    · refine ⟨hl, rfl, ?_, hvalid⟩
      rw [show range.hi + 1 - number = 0 by omega]
      simp

/-- Assumes: a valid list, and ranges below `ULONG_MAX` whose names have less than 4096 characters.
Pushing the ranges with a suffix pushes their names. -/
theorem pushRangeListWithSuffix_spec {pfx sfx : List Char} (ranges : List Range) :
    ∀ hl : Hostlist, hl.Valid →
      (∀ range ∈ ranges, range.hi < ulongMax ∧ ∀ name ∈ range.names pfx sfx, name.length < 4096) →
      ∃ hl', pushRangeListWithSuffix pfx sfx ranges hl = some hl' ∧
        hl'.hosts = hl.hosts ++ ranges.flatMap (Range.names pfx sfx) ∧ hl'.Valid := by
  induction ranges with
  | nil => exact fun hl hvalid _ ↦ ⟨hl, rfl, by simp, hvalid⟩
  | cons range ranges ih =>
    intro hl hvalid hranges
    obtain ⟨⟨hhi, hnames⟩, hlater⟩ := List.forall_mem_cons.mp hranges
    have hrounds : range.hi + 1 - range.lo < 18446744073709551617 := by
      unfold ulongMax at hhi
      omega
    obtain ⟨hl1, hloop, hhosts, hvalid1⟩ :=
      pushSuffixedLoop_spec hhi hnames _ range.lo hl le_rfl hrounds hvalid
    obtain ⟨hl2, hrest, hhosts2, hvalid2⟩ := ih hl1 hvalid1 hlater
    refine ⟨hl2, ?_, ?_, hvalid2⟩
    · rw [pushRangeListWithSuffix, hloop]
      exact hrest
    · rw [hhosts2, hhosts, List.flatMap_cons, List.append_assoc]
      rfl

/-- The bounds of a regular range are in order and below `ULONG_MAX`. -/
theorem bounds_of_looseRange {piece : List Char} {range : Range} (hregular : RegularRange piece)
    (h : looseRange piece = some range) : range.lo ≤ range.hi ∧ range.hi < ulongMax := by
  unfold looseRange at h
  cases hlower : looseNumeral (lowerText piece) with
  | none => simp [hlower] at h
  | some lo =>
    cases hupper : upperBound piece with
    | none => simp [hlower, hupper] at h
    | some hi =>
      simp only [hlower, hupper] at h
      split_ifs at h with hboth
      obtain rfl := Option.some.inj h
      refine ⟨hboth.1, ?_⟩
      unfold upperBound at hupper
      split_ifs at hupper with hopen
      · exact hregular.lower_lt hi hupper
      · exact hregular.upper_lt hi hupper

/-- The names of ranges read between two brackets without a suffix are the hosts of the pushed
ranges. -/
theorem hostsOf_ranges (pfx : List Char) (ranges : List Range) :
    hostsOf (ranges.map fun range ↦ hostrangeCreate pfx range.lo range.hi range.width) =
      ranges.flatMap (Range.names pfx []) := by
  rw [hostsOf, List.flatMap_map]
  refine List.flatMap_congr fun range _ ↦ ?_
  unfold HostRange.hosts hostrangeCreate Range.names
  simp

/-- Assumes: a token with an opening bracket and a closing one behind it. Its ranges are parsed, and
pushed with the suffix if there is one. -/
theorem createToken_eq {tok : List Char} (hopen : '[' ∈ tok) (hclose : ']' ∈ behindOpening tok)
    (new : Hostlist) :
    createToken tok new =
      (parseRangeList maxRanges ((behindOpening tok).takeWhile (· ≠ ']'))).bind fun ranges ↦
        if ((behindOpening tok).dropWhile (· ≠ ']')).tail ≠ [] then
          match pushRangeListWithSuffix (tok.takeWhile (· ≠ '['))
            ((behindOpening tok).dropWhile (· ≠ ']')).tail ranges new with
          | none => .error .diverges
          | some new' => .ok new'
        else .ok (pushRangeList new (tok.takeWhile (· ≠ '[')) ranges) := by
  have hclose' : ']' ∈ (tok.dropWhile (· ≠ '[')).tail := hclose
  rw [createToken, if_pos hopen]
  simp only [if_pos hclose']
  change _ = (parseRangeList maxRanges ((tok.dropWhile (· ≠ '[')).tail.takeWhile (· ≠ ']'))).bind _
  cases parseRangeList maxRanges ((tok.dropWhile (· ≠ '[')).tail.takeWhile (· ≠ ']')) <;> rfl

/-- Assumes: a valid list, and ranges in order and below `ULONG_MAX` whose names, if there is a
suffix, have less than 4096 characters. Pushing the ranges with what stands behind the closing
bracket pushes their names. -/
theorem pushRanges_spec {new : Hostlist} (hvalid : new.Valid) (pfx sfx : List Char)
    {ranges : List Range}
    (hbounds : ∀ range ∈ ranges, range.lo ≤ range.hi ∧ range.hi < ulongMax)
    (hnames : sfx ≠ [] → ∀ name ∈ HostToken.names (.bracketed pfx ranges sfx), name.length < 4096) :
    ∃ new', (if sfx ≠ [] then
          match pushRangeListWithSuffix pfx sfx ranges new with
          | none => .error .diverges
          | some new' => .ok new'
        else .ok (pushRangeList new pfx ranges) : Except CreateFailure Hostlist) = .ok new' ∧
      new'.hosts = new.hosts ++ HostToken.names (.bracketed pfx ranges sfx) ∧ new'.Valid := by
  by_cases hsuffix : sfx = []
  · rw [if_neg (not_not.mpr hsuffix), hsuffix]
    have hpushed : pushRangeList new pfx ranges =
        (ranges.map fun range ↦ hostrangeCreate pfx range.lo range.hi range.width).foldl
            hostlistPushRange new := by
      rw [List.foldl_map]
      rfl
    obtain ⟨hhosts, hvalid'⟩ := foldl_hostlistPushRange_spec
      (ranges.map fun range ↦ hostrangeCreate pfx range.lo range.hi range.width) new hvalid
      (List.forall_mem_map.mpr fun range hrange ↦
        show (hostrangeCreate pfx range.lo range.hi range.width).Valid from
          ⟨(hbounds range hrange).1, (hbounds range hrange).2, fun h ↦ Bool.noConfusion h⟩)
    rw [← hpushed] at hhosts hvalid'
    exact ⟨_, rfl, hhosts.trans (congrArg (new.hosts ++ ·) (hostsOf_ranges pfx ranges)), hvalid'⟩
  · rw [if_pos hsuffix]
    obtain ⟨new', hpush, hhosts, hvalid'⟩ := pushRangeListWithSuffix_spec ranges new hvalid
        fun range hrange ↦
      ⟨(hbounds range hrange).2, fun name hname ↦
        hnames hsuffix name (List.mem_flatMap.mpr ⟨range, hrange, hname⟩)⟩
    exact ⟨new', by rw [hpush], hhosts, hvalid'⟩

/-- Assumes: a valid list and a regular token with an opening bracket and a closing one behind
it. -/
theorem createToken_ranges {tok : List Char} {new : Hostlist} (hvalid : new.Valid)
    (hregular : RegularToken tok)
    (hopen : '[' ∈ tok) (hclose : ']' ∈ behindOpening tok) :
    (∀ read, looseToken tok = some read →
      ∃ new', createToken tok new = .ok new' ∧ new'.hosts = new.hosts ++ read.names ∧ new'.Valid) ∧
      (looseToken tok = none → Refused (createToken tok new)) := by
  have hranges := hregular.ranges hopen
  have hnames := hregular.names
  rw [createToken_eq hopen hclose]
  unfold looseToken at hnames ⊢
  simp only [if_pos hopen, hclose, true_and] at hnames ⊢
  by_cases hroom : (rangeTexts tok).length ≤ maxRanges
  · simp only [if_pos hroom] at hnames ⊢
    have hparsed := parseRangeList_loose maxRanges _ hranges hroom
    change Reads _ ((rangeTexts tok).mapM looseRange) at hparsed
    cases hread : (rangeTexts tok).mapM looseRange with
    | none =>
      rw [hread] at hparsed
      obtain ⟨failure, hfailure, hreturns⟩ := hparsed
      exact ⟨fun read h ↦ absurd h (by simp), fun _ ↦ ⟨failure, by rw [hfailure]; rfl, hreturns⟩⟩
    | some ranges =>
      rw [hread] at hparsed hnames
      change parseRangeList _ _ = .ok ranges at hparsed
      have hbounds : ∀ range ∈ ranges, range.lo ≤ range.hi ∧ range.hi < ulongMax :=
          fun range hrange ↦ by
        obtain ⟨piece, hpiece, hread⟩ := exists_of_mem_mapM hread hrange
        exact bounds_of_looseRange (hranges piece hpiece) hread
      refine ⟨fun read h ↦ ?_, fun h ↦ absurd h (by simp)⟩
      obtain rfl := Option.some.inj h
      rw [hparsed]
      exact pushRanges_spec hvalid _ _ hbounds fun hsuffix ↦ hnames _ _ _ rfl hsuffix
  · rw [if_neg hroom]
    refine ⟨fun read h ↦ absurd h (by simp), fun _ ↦ ?_⟩
    obtain ⟨failure, hfailure, hreturns⟩ :=
      parseRangeList_many maxRanges _ hranges (not_le.mp hroom)
    exact ⟨failure, by rw [hfailure]; rfl, hreturns⟩

/-- Assumes: a valid list and a regular token. `_hostlist_create_bracketed` reads the token as it
stands, pushes its names and keeps the list valid. -/
theorem createToken_loose {tok : List Char} {new : Hostlist} (hvalid : new.Valid)
    (hregular : RegularToken tok) :
    (∀ read, looseToken tok = some read →
      ∃ new', createToken tok new = .ok new' ∧ new'.hosts = new.hosts ++ read.names ∧ new'.Valid) ∧
      (looseToken tok = none → Refused (createToken tok new)) := by
  have hunmatched : Refused (.error .unmatchedBracket : Except CreateFailure Hostlist) :=
    ⟨_, rfl, by decide⟩
  by_cases hopen : '[' ∈ tok
  · by_cases hclose : ']' ∈ behindOpening tok
    · exact createToken_ranges hvalid hregular hopen hclose
    · have hnone : ']' ∉ (tok.dropWhile (· ≠ '[')).tail := hclose
      unfold looseToken createToken
      simp only [if_pos hopen,
        if_neg (show ¬(']' ∈ behindOpening tok ∧ (rangeTexts tok).length ≤ maxRanges) from
        fun h ↦ hclose h.1), if_neg hnone]
      exact ⟨fun read hread ↦ absurd hread (by simp), fun _ ↦ hunmatched⟩
  · unfold looseToken createToken
    rw [if_neg hopen, if_neg hopen]
    by_cases hclose : ']' ∈ tok
    · rw [if_pos hclose, if_pos hclose]
      exact ⟨fun read hread ↦ absurd hread (by simp), fun _ ↦ hunmatched⟩
    · rw [if_neg hclose, if_neg hclose]
      have hlength := hregular.single hopen
      refine ⟨fun read hread ↦ ?_, fun hread ↦ absurd hread (by simp)⟩
      obtain rfl := Option.some.inj hread
      obtain ⟨hhosts, hvalid'⟩ := hostlistPushHost_valid hvalid tok
      exact ⟨_, by rw [List.take_of_length_le (by omega)], hhosts, hvalid'⟩

/-! ### The tokens of a text -/

/-- The first piece of a text is the token that `_next_tok` finds, and the others are those behind
the separator. -/
theorem splitLevel_eq (text : List Char) :
    ∀ level : ℤ, splitLevel level text =
      (tokSpan text level).1 :: (match (tokSpan text level).2 with
        | [] => []
        | _ :: rest => splitLevel 0 rest) ∧
      ∀ c ∈ (tokSpan text level).2.head?, isSep c = true := by
  induction text with
  | nil => exact fun level ↦ ⟨rfl, fun c hc ↦ absurd hc (by simp [tokSpan])⟩
  | cons c rest ih =>
    intro level
    rw [splitLevel, tokSpan]
    by_cases hsep : level = 0 ∧ isSep c = true
    · rw [if_pos hsep, if_neg (by simp [hsep.1, hsep.2])]
      refine ⟨rfl, fun d hd ↦ ?_⟩
      obtain rfl := Option.some.inj hd
      exact hsep.2
    · have hpass : level ≠ 0 ∨ isSep c = false := by
        by_cases hlevel : level = 0
        · exact Or.inr (by simpa [hlevel] using hsep)
        · exact Or.inl hlevel
      rw [if_neg hsep, if_pos hpass]
      obtain ⟨hsplit, hstop⟩ :=
        ih (if c = '[' then level + 1 else if c = ']' then level - 1 else level)
      rw [hsplit]
      exact ⟨rfl, hstop⟩

/-- A token and what follows it are the text. -/
theorem length_tokSpan (text : List Char) :
    ∀ level : ℤ, (tokSpan text level).1.length + (tokSpan text level).2.length = text.length := by
  induction text with
  | nil => exact fun _ ↦ rfl
  | cons c rest ih =>
    intro level
    rw [tokSpan]
    by_cases hpass : level ≠ 0 ∨ isSep c = false
    · have hrest := ih (if c = '[' then level + 1 else if c = ']' then level - 1 else level)
      rw [if_pos hpass]
      simp only [List.length_cons]
      omega
    · rw [if_neg hpass, List.length_nil, Nat.zero_add]

/-- A separator in front of a text does not change its tokens. -/
theorem looseTokens_cons {c : Char} (h : isSep c = true) (text : List Char) :
    looseTokens (c :: text) = looseTokens text := by
  unfold looseTokens
  rw [splitLevel, if_pos ⟨rfl, h⟩]
  simp

/-- Separators in front of a text do not change its tokens. -/
theorem looseTokens_dropWhile (text : List Char) : looseTokens (text.dropWhile isSep) =
    looseTokens text := by
  induction text with
  | nil => rfl
  | cons c rest ih =>
    by_cases hsep : isSep c = true
    · rw [List.dropWhile_cons_of_pos hsep, ih, looseTokens_cons hsep]
    · rw [List.dropWhile_cons_of_neg hsep]

/-- What `_next_tok` finds: the first token and a shorter text of the others, or nothing if there is
no token. -/
theorem nextTok_loose (text : List Char) :
    nextTok text = none ∧ looseTokens text = [] ∨
      ∃ tok rest, nextTok text = some (tok, rest) ∧ looseTokens text = tok :: looseTokens rest ∧
        rest.length < text.length := by
  have hlength := (List.dropWhile_suffix isSep (l := text)).length_le
  rw [← looseTokens_dropWhile]
  unfold nextTok
  cases hstart : text.dropWhile isSep with
  | nil => exact Or.inl ⟨if_pos rfl, rfl⟩
  | cons c later =>
    right
    have hsep : isSep c = false := by
      have hhead := List.head?_dropWhile_not isSep text
      rw [hstart] at hhead
      exact hhead
    have htok : (tokSpan (c :: later) 0).1 ≠ [] := by
      rw [tokSpan, if_pos (Or.inr hsep)]
      exact List.cons_ne_nil _ _
    have hparts : (tokSpan (c :: later) 0).1.length + (tokSpan (c :: later) 0).2.length =
        (c :: later).length :=
      length_tokSpan (c :: later) 0
    have hpositive := List.length_pos_iff.mpr htok
    have hshorter := (List.dropWhile_suffix isSep (l := (tokSpan (c :: later) 0).2)).length_le
    obtain ⟨hsplit, hstop⟩ := splitLevel_eq (c :: later) 0
    rw [hstart] at hlength
    refine ⟨_, _, if_neg (List.cons_ne_nil _ _), ?_, by omega⟩
    rw [looseTokens, hsplit, List.filter_cons_of_pos (by simpa using htok), looseTokens_dropWhile]
    cases hafter : (tokSpan (c :: later) 0).2 with
    | nil => rfl
    | cons d rest =>
      rw [looseTokens_cons (hstop d (by rw [hafter]; rfl))]
      rfl

/-- Assumes: a valid list, a text of regular tokens, and enough rounds. The loop of
`_hostlist_create_bracketed` reads the tokens as they stand and pushes their names. -/
theorem createLoop_loose (rounds : ℕ) :
    ∀ (text : List Char) (new : Hostlist), new.Valid → RegularText text → text.length ≤ rounds →
      (∀ toks, looseExpression text = some toks →
        ∃ new', createLoop rounds text new = .ok new' ∧
          new'.hosts = new.hosts ++ toks.flatMap HostToken.names) ∧
        (looseExpression text = none → Refused (createLoop rounds text new)) := by
  induction rounds with
  | zero =>
    intro text new _ _ hlength
    obtain rfl := List.length_eq_zero_iff.mp (Nat.le_zero.mp hlength)
    refine ⟨fun toks htoks ↦ ?_, fun htoks ↦ absurd htoks (by decide)⟩
    obtain rfl : [] = toks := Option.some.inj htoks
    exact ⟨new, rfl, by simp⟩
  | succ rounds ih =>
    intro text new hvalid hregular hlength
    unfold looseExpression RegularText at *
    rw [createLoop]
    rcases nextTok_loose text with ⟨hnext, htokens⟩ | ⟨tok, rest, hnext, htokens, hshorter⟩
    · rw [hnext, htokens]
      refine ⟨fun toks htoks ↦ ?_, fun htoks ↦ absurd htoks (by simp)⟩
      obtain rfl : [] = toks := Option.some.inj htoks
      exact ⟨new, rfl, by simp⟩
    · rw [htokens] at hregular
      obtain ⟨htok, hrest⟩ := List.forall_mem_cons.mp hregular
      rw [hnext, htokens, List.mapM_cons]
      simp only
      obtain ⟨hreads, hrefuses⟩ := createToken_loose hvalid htok
      cases hread : looseToken tok with
      | none =>
        obtain ⟨failure, hfailure, hreturns⟩ := hrefuses hread
        rw [hfailure]
        exact ⟨fun toks htoks ↦ absurd htoks (by simp), fun _ ↦ ⟨failure, rfl, hreturns⟩⟩
      | some read =>
        obtain ⟨new1, hcreate, hhosts, hvalid1⟩ := hreads read hread
        rw [hcreate]
        obtain ⟨hmore, hnone⟩ := ih rest new1 hvalid1 hrest (by omega)
        cases hreadRest : (looseTokens rest).mapM looseToken with
        | none =>
          exact ⟨fun toks htoks ↦ absurd htoks (by simp), fun _ ↦ hnone hreadRest⟩
        | some later =>
          refine ⟨fun toks htoks ↦ ?_, fun htoks ↦ absurd htoks (by simp)⟩
          obtain rfl : read :: later = toks := Option.some.inj htoks
          obtain ⟨new2, hcreate2, hhosts2⟩ := hmore later hreadRest
          exact ⟨new2, hcreate2, by rw [hhosts2, hhosts, List.flatMap_cons, List.append_assoc]⟩

end Whatsup
