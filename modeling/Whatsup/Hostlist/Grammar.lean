import Whatsup.Hostlist.LooseNotation

/-!
# Which host expressions the parser accepts

A text of the notation is one of the loose notation and denotes the same there,
`looseExpression_of_expression`, as long as it is within the limits of the parser.
`hostlistCreate_loose` says what `hostlist_create` makes of a text: it gives the names that the text
denotes in the loose notation, and `NULL` if it denotes none.
-/

set_option autoImplicit false
set_option relaxedAutoImplicit false

namespace Whatsup

open CLib

/-! ### Texts of the notation -/

/-- Assumes: text without brackets in front of a text that is one piece. It has no separators. -/
theorem plain_of_onePiece {front : List Char} (rest : List Char)
    (hbrackets : ∀ c ∈ front, c ≠ '[' ∧ c ≠ ']')
    (h : (splitOutside false (front ++ rest)).length = 1) : ∀ c ∈ front, isSep c = false := by
  induction front with
  | nil => exact fun c hc ↦ absurd hc List.not_mem_nil
  | cons c front ih =>
    obtain ⟨hc, hfront⟩ := List.forall_mem_cons.mp hbrackets
    rw [List.cons_append, splitOutside] at h
    by_cases hsep : isSep c = true
    · rw [if_pos ⟨rfl, hsep⟩, List.length_cons] at h
      have hpositive := List.length_pos_iff.mpr (splitOutside_ne_nil false (front ++ rest))
      omega
    · rw [if_neg (fun h ↦ hsep h.2), if_neg hc.1, if_neg hc.2, List.length_modifyHead] at h
      exact List.forall_mem_cons.mpr ⟨by simpa using hsep, ih hfront h⟩

/-- The first of the pieces of a text: the whole text, or what stands in front of a separator. It is
one piece. -/
theorem splitOutside_cases (text : List Char) :
    ∀ inside : Bool, ∃ piece, splitOutside inside piece = [piece] ∧
      ((splitOutside inside text = [piece] ∧ text = piece) ∨
        ∃ c rest, isSep c = true ∧ text = piece ++ c :: rest ∧
          splitOutside inside text = piece :: splitOutside false rest) := by
  induction text with
  | nil => exact fun inside ↦ ⟨[], by cases inside <;> rfl, Or.inl ⟨by cases inside <;> rfl, rfl⟩⟩
  | cons c rest ih =>
    intro inside
    by_cases hsep : inside = false ∧ isSep c = true
    · refine ⟨[], by cases inside <;> rfl, Or.inr ⟨c, rest, hsep.2, rfl, ?_⟩⟩
      rw [splitOutside, if_pos hsep]
    · obtain ⟨piece, hone, hpieces⟩ :=
        ih (if c = '[' then true else if c = ']' then false else inside)
      refine ⟨c :: piece, ?_, ?_⟩
      · rw [splitOutside, if_neg hsep, hone]
        rfl
      · rw [splitOutside, if_neg hsep]
        rcases hpieces with ⟨hlast, rfl⟩ | ⟨d, later, hd, rfl, hmore⟩
        · exact Or.inl ⟨by rw [hlast]; rfl, rfl⟩
        · exact Or.inr ⟨d, later, hd, rfl, by rw [hmore]; rfl⟩

/-- A text that stays in one piece at level zero, whatever follows it. -/
def WholeLevel (text : List Char) : Prop :=
  ∀ rest, splitLevel 0 (text ++ rest) = (splitLevel 0 rest).modifyHead (text ++ ·)

/-- Assumes: a stretch of text without brackets, inside brackets or without separators. It belongs
to the first piece. -/
theorem splitLevel_append {level : ℤ} {text : List Char} (rest : List Char)
    (hbrackets : ∀ c ∈ text, c ≠ '[' ∧ c ≠ ']') (hseps : level ≠ 0 ∨ ∀ c ∈ text, isSep c = false) :
    splitLevel level (text ++ rest) = (splitLevel level rest).modifyHead (text ++ ·) := by
  induction text with
  | nil => exact (congrFun List.modifyHead_id _).symm
  | cons c text ih =>
    have hc := hbrackets c List.mem_cons_self
    have hpass : ¬(level = 0 ∧ isSep c = true) := by
      rintro ⟨hlevel, hsep⟩
      rcases hseps with hin | hplain
      · exact hin hlevel
      · exact absurd ((hplain c List.mem_cons_self).symm.trans hsep) (by decide)
    rw [List.cons_append, splitLevel, if_neg hpass, if_neg hc.1, if_neg hc.2,
      ih (fun d hd ↦ hbrackets d (List.mem_cons_of_mem c hd))
        (hseps.imp_right fun h d hd ↦ h d (List.mem_cons_of_mem c hd)), List.modifyHead_modifyHead]
    rfl

/-- Assumes: pieces that stay whole at level zero. Counting the brackets cuts the text at the same
places. -/
theorem splitLevel_eq_splitOutside (length : ℕ) :
    ∀ text : List Char, text.length ≤ length →
      (∀ piece ∈ splitOutside false text, WholeLevel piece) →
      splitLevel 0 text = splitOutside false text := by
  induction length with
  | zero =>
    intro text hlength _
    rw [List.length_eq_zero_iff.mp (Nat.le_zero.mp hlength)]
    rfl
  | succ length ih =>
    intro text hlength hwhole
    obtain ⟨piece, -, ⟨hpieces, rfl⟩ | ⟨c, rest, hsep, rfl, hpieces⟩⟩ :=
      splitOutside_cases text false
    · have hone := hwhole text (by rw [hpieces]; exact List.mem_singleton_self text) []
      rw [List.append_nil] at hone
      rw [hone, hpieces]
      exact congrArg (fun text ↦ [text]) (List.append_nil text)
    · rw [hpieces] at hwhole ⊢
      obtain ⟨hpiece, hlater⟩ := List.forall_mem_cons.mp hwhole
      rw [List.length_append, List.length_cons] at hlength
      rw [hpiece (c :: rest), splitLevel, if_pos ⟨rfl, hsep⟩, ih rest (by omega) hlater,
        List.modifyHead_cons,
        List.append_nil]

/-- A text that stands for hosts: a name without brackets, or ranges between brackets, with a prefix
and a suffix without brackets. -/
theorem hostToken_cases {tok : List Char} {read : HostToken} (h : hostToken tok = some read) :
    (read = .single tok ∧ ∀ c ∈ tok, c ≠ '[' ∧ c ≠ ']') ∨
      ∃ pfx body sfx ranges, tok = pfx ++ '[' :: (body ++ ']' :: sfx) ∧
        read = .bracketed pfx ranges sfx ∧
        (body.splitOn ',').mapM rangeOf = some ranges ∧ (∀ c ∈ pfx, c ≠ '[' ∧ c ≠ ']') ∧
        (∀ c ∈ body, c ≠ '[' ∧ c ≠ ']') ∧ ∀ c ∈ sfx, c ≠ '[' ∧ c ≠ ']' := by
  have hfree : ∀ {text : List Char}, '[' ∉ text → ']' ∉ text → ∀ c ∈ text, c ≠ '[' ∧ c ≠ ']' :=
    fun hopen hclose c hc ↦ ⟨fun heq ↦ hopen (heq ▸ hc), fun heq ↦ hclose (heq ▸ hc)⟩
  unfold hostToken at h
  rcases splitOn_cases '[' tok with ⟨hopen, hsplit⟩ | ⟨pfx, rest, rfl, hpfx, hsplit⟩
  · rw [hsplit] at h
    simp only at h
    split_ifs at h with hclose
    exact Or.inl ⟨(Option.some.inj h).symm, hfree hopen hclose⟩
  · rw [hsplit] at h
    rcases splitOn_cases '[' rest with ⟨hrest, hmore⟩ | ⟨front, later, rfl, -, hmore⟩
    · rw [hmore] at h
      simp only at h
      rcases splitOn_cases ']' rest with ⟨-, hlast⟩ | ⟨body, sfx, rfl, hbody, hlast⟩
      · rw [hlast] at h
        exact absurd h (by simp)
      · rw [hlast] at h
        rcases splitOn_cases ']' sfx with ⟨hsfx, hend⟩ | ⟨front, later, rfl, -, hend⟩
        · rw [hend] at h
          simp only at h
          split_ifs at h with hclose
          obtain ⟨ranges, hranges, rfl⟩ := Option.map_eq_some_iff.mp h
          refine Or.inr ⟨pfx, body, sfx, ranges, rfl, rfl, hranges, hfree hpfx hclose,
            hfree ?_ hbody, hfree ?_ hsfx⟩
          · exact fun hmem ↦ hrest (List.mem_append_left _ hmem)
          · exact fun hmem ↦ hrest (List.mem_append_right _ (List.mem_cons_of_mem _ hmem))
        · obtain ⟨first, others, hne⟩ := List.exists_cons_of_ne_nil (List.splitOn_ne_nil ']' later)
          rw [hend, hne] at h
          exact absurd h (by simp)
    · obtain ⟨first, others, hne⟩ := List.exists_cons_of_ne_nil (List.splitOn_ne_nil '[' later)
      rw [hmore, hne] at h
      exact absurd h (by simp)

/-- Assumes: one piece of a text that stands for hosts. It stays whole when brackets are counted. -/
theorem wholeLevel_of_hostToken {tok : List Char} {read : HostToken}
    (hone : splitOutside false tok = [tok])
    (h : hostToken tok = some read) : WholeLevel tok := by
  have hlength : (splitOutside false tok).length = 1 := by rw [hone]; rfl
  rcases hostToken_cases h with ⟨-, hfree⟩ | ⟨pfx, body, sfx, ranges, rfl, -, -, hpfx, hbody, hsfx⟩
  · have hplain := plain_of_onePiece [] hfree (by rwa [List.append_nil])
    exact fun rest ↦ splitLevel_append rest hfree (Or.inr hplain)
  · have hpfx_plain := plain_of_onePiece _ hpfx hlength
    have hsfx_plain : ∀ c ∈ sfx, isSep c = false := by
      refine plain_of_onePiece [] hsfx ?_
      have hwhole :=
        (whole_plain fun c hc ↦ ⟨hpfx_plain c hc, hpfx c hc⟩).append (whole_bracketed hbody) sfx
      have htok : pfx ++ ('[' :: body ++ [']']) ++ sfx = pfx ++ '[' :: (body ++ ']' :: sfx) := by
        simp
      rw [htok] at hwhole
      rwa [hwhole, List.length_modifyHead, ← List.append_nil sfx] at hlength
    intro rest
    have htok : pfx ++ '[' :: (body ++ ']' :: sfx) ++ rest = pfx ++ '[' ::
      (body ++ ']' :: (sfx ++ rest)) := by simp
    have hopen : ∀ text, splitLevel 0 ('[' :: text) = (splitLevel 1 text).modifyHead ('[' :: ·) :=
      fun text ↦ rfl
    have hclose : ∀ text, splitLevel 1 (']' :: text) = (splitLevel 0 text).modifyHead (']' :: ·) :=
      fun text ↦ rfl
    rw [htok, splitLevel_append _ hpfx (Or.inr hpfx_plain), hopen,
      splitLevel_append _ hbody (Or.inl (by decide)),
      hclose, splitLevel_append _ hsfx (Or.inr hsfx_plain), List.modifyHead_modifyHead,
        List.modifyHead_modifyHead,
      List.modifyHead_modifyHead, List.modifyHead_modifyHead]
    congr 1
    funext piece
    simp

/-- The pieces of a text are one piece each. -/
theorem onePiece_of_mem (length : ℕ) :
    ∀ text : List Char, text.length ≤ length → ∀ piece ∈ splitOutside false text,
      splitOutside false piece = [piece] := by
  induction length with
  | zero =>
    intro text hlength piece hpiece
    rw [List.length_eq_zero_iff.mp (Nat.le_zero.mp hlength)] at hpiece
    rw [List.mem_singleton.mp hpiece]
    rfl
  | succ length ih =>
    intro text hlength other hother
    obtain ⟨piece, hone, ⟨hpieces, rfl⟩ | ⟨c, rest, hsep, rfl, hpieces⟩⟩ :=
      splitOutside_cases text false
    · rw [hpieces] at hother
      rw [List.mem_singleton.mp hother, hpieces]
    · rw [hpieces] at hother
      rw [List.length_append, List.length_cons] at hlength
      rcases List.mem_cons.mp hother with rfl | hother
      · exact hone
      · exact ih rest (by omega) other hother

/-- The limits of the parser: at most 10240 ranges between two brackets, and at most 16384 hosts in
a range. -/
def HostToken.WithinLimits : HostToken → Prop
  | .single _ => True
  | .bracketed _ ranges _ => ranges.length ≤ maxRanges ∧
    ∀ range ∈ ranges, range.hi - range.lo < maxRange

/-- A numeral is a number of the loose notation. -/
theorem looseNumeral_of_numeral {text : List Char} {n : ℕ} (h : numeral text = some n) :
    looseNumeral text = some n := by
  have hunsigned : unsigned text = text := by
    unfold numeral at h
    split_ifs at h with hdigits
    obtain ⟨c, rest, rfl⟩ := List.exists_cons_of_ne_nil hdigits.1
    have hc := not_isSpace_of_isDigit (List.all_eq_true.mp hdigits.2 c List.mem_cons_self)
    have hstart : (c :: rest).dropWhile isSpace = c :: rest :=
      List.dropWhile_cons_of_neg (by simp [hc.1])
    rw [unsigned, hstart, if_neg (by simp [hc.2.2])]
  rw [looseNumeral, hunsigned, h]

/-- Assumes: a range of the notation with not too many hosts. The parser takes it for the same
range. -/
theorem looseRange_of_rangeOf {piece : List Char} {range : Range} (h : rangeOf piece = some range)
    (hhosts : range.hi - range.lo < maxRange) : looseRange piece = some range := by
  unfold rangeOf at h
  rcases splitOn_cases '-' piece with ⟨hdash, hsplit⟩ | ⟨n, rest, rfl, hdash, hsplit⟩
  · rw [hsplit] at h
    simp only at h
    obtain ⟨lo, hlo, rfl⟩ := Option.map_eq_some_iff.mp h
    obtain ⟨htake, hdrop⟩ := @cut_self '-' piece fun _ hc heq ↦ hdash (heq ▸ hc)
    have hlower : lowerText piece = piece := htake
    have hupper : upperText piece = [] := by rw [upperText, hdrop]; rfl
    rw [looseRange, upperBound, if_pos hupper, hlower, looseNumeral_of_numeral hlo]
    exact if_pos ⟨le_rfl, hhosts⟩
  · obtain ⟨htake, hdrop⟩ := cut_notMem rest hdash
    have hlower : lowerText (n ++ '-' :: rest) = n := htake
    have hupper : upperText (n ++ '-' :: rest) = rest := by rw [upperText, hdrop]; rfl
    rw [hsplit] at h
    rcases splitOn_cases '-' rest with ⟨-, hlast⟩ | ⟨m, later, rfl, -, hlast⟩
    · rw [hlast] at h
      simp only at h
      cases hlo : numeral n with
      | none => simp [hlo] at h
      | some lo =>
        cases hhi : numeral rest with
        | none => simp [hlo, hhi] at h
        | some hi =>
          simp only [hlo, hhi] at h
          split_ifs at h with horder
          obtain rfl := Option.some.inj h
          have hread := looseNumeral_of_numeral hhi
          rw [looseRange, upperBound, hlower, hupper, if_neg (ne_nil_of_looseNumeral hread), hread,
            looseNumeral_of_numeral hlo]
          exact if_pos ⟨horder, hhosts⟩
    · obtain ⟨first, others, hne⟩ := List.exists_cons_of_ne_nil (List.splitOn_ne_nil '-' later)
      rw [hlast, hne] at h
      exact absurd h (by simp)

/-- Assumes: a piece of the notation within the limits of the parser. The parser takes it for the
same. -/
theorem looseToken_of_hostToken {tok : List Char} {read : HostToken} (h : hostToken tok = some read)
    (hlimits : read.WithinLimits) : looseToken tok = some read := by
  rcases hostToken_cases h with ⟨rfl, hfree⟩ | ⟨pfx, body, sfx, ranges, rfl, rfl, hranges,
    hpfx, hbody, -⟩
  · rw [looseToken, if_neg fun hmem ↦ (hfree _ hmem).1 rfl, if_neg fun hmem ↦ (hfree _ hmem).2 rfl]
  · obtain ⟨htake, hdrop⟩ := cut_notMem (body ++ ']' :: sfx) fun hmem ↦ (hpfx _ hmem).1 rfl
    have hbehind : behindOpening (pfx ++ '[' :: (body ++ ']' :: sfx)) = body ++ ']' :: sfx := by
      rw [behindOpening, hdrop]
      rfl
    obtain ⟨hinside, hend⟩ := cut_notMem sfx fun hmem ↦ (hbody _ hmem).2 rfl
    have htexts : rangeTexts (pfx ++ '[' :: (body ++ ']' :: sfx)) = body.splitOn ',' := by
      rw [rangeTexts, hbehind, hinside]
    have hloose : (body.splitOn ',').mapM looseRange = some ranges :=
      mapM_imp hranges fun piece _ range hrange hread ↦
        looseRange_of_rangeOf hread (hlimits.2 range hrange)
    have hlength : (body.splitOn ',').length ≤ maxRanges :=
      (mapM_eq_some_iff.mp hranges).length_eq ▸ hlimits.1
    rw [looseToken, if_pos (by simp), htexts, hbehind, if_pos ⟨by simp, hlength⟩, hloose,
      htake, hend]
    rfl

/-- Assumes: a text of the notation within the limits of the parser. The parser takes it for the
same. -/
theorem looseExpression_of_expression {text : List Char} {toks : List HostToken}
    (h : expression text = some toks)
    (hlimits : ∀ tok ∈ toks, tok.WithinLimits) : looseExpression text = some toks := by
  have hpieces : splitLevel 0 text = splitOutside false text := by
    refine splitLevel_eq_splitOutside text.length text le_rfl fun piece hpiece ↦ ?_
    by_cases hempty : piece = []
    · rw [hempty]
      exact fun rest ↦ (congrFun List.modifyHead_id _).symm
    · obtain ⟨read, hread⟩ : ∃ read, hostToken piece = some read := by
        have hmem : piece ∈ tokens text := List.mem_filter.mpr ⟨hpiece, decide_eq_true hempty⟩
        obtain ⟨read, -, hread⟩ := exists_of_mapM_mem h hmem
        exact ⟨read, hread⟩
      exact wholeLevel_of_hostToken (onePiece_of_mem text.length text le_rfl piece hpiece) hread
  rw [looseExpression, looseTokens, hpieces]
  exact mapM_imp h fun tok _ read hread hsome ↦ looseToken_of_hostToken hsome (hlimits read hread)

/-! ### Acceptance -/

/-- Assumes: a text of regular tokens. `hostlist_create` accepts it exactly if it is one of the
loose notation, and gives the names that it denotes there; a text of the notation within the limits
of the parser denotes the same in both. -/
theorem hostlistCreate_loose {text : List Char} (hregular : RegularText text) :
    (∀ toks, looseExpression text = some toks →
      ∃ new, hostlistCreate text = .ok new ∧ new.hosts = toks.flatMap HostToken.names) ∧
      (looseExpression text = none → Refused (hostlistCreate text)) ∧
      ∀ toks, expression text = some toks → (∀ tok ∈ toks, tok.WithinLimits) →
        looseExpression text = some toks := by
  obtain ⟨hreads, hrefuses⟩ :=
    createLoop_loose text.length text hostlistNew hostlistNew_canonical.toValid hregular le_rfl
  exact ⟨hreads, hrefuses, fun toks ↦ looseExpression_of_expression⟩

/-- A text with an open range, and with a blank and a sign in front of a number. -/
theorem regularText_open : RegularText "n[1-, +3]x".toList := by
  have htokens : looseTokens "n[1-, +3]x".toList = ["n[1-, +3]x".toList] := by decide
  have hpieces : rangeTexts "n[1-, +3]x".toList = ["1-".toList, " +3".toList] := by decide
  have hread : looseToken "n[1-, +3]x".toList = some (.bracketed ['n'] [⟨1, 1, 1⟩, ⟨3, 3, 3⟩]
    ['x']) := by decide
  intro tok htok
  rw [htokens, List.mem_singleton] at htok
  subst htok
  refine ⟨by decide, fun _ ↦ ?_, ?_, ?_⟩
  · rw [hpieces]
    intro piece hpiece
    rcases List.mem_cons.mp hpiece with rfl | hpiece
    · exact ⟨by decide, by decide, by decide, by decide⟩
    · rw [List.mem_singleton.mp hpiece]
      exact ⟨by decide, by decide, by decide, by decide⟩
  · rw [hread]
    rintro pfx ranges sfx heq
    obtain ⟨rfl, -, rfl⟩ := HostToken.bracketed.inj (Option.some.inj heq)
    decide
  · rw [hread]
    rintro pfx ranges sfx heq -
    obtain ⟨rfl, rfl, rfl⟩ := HostToken.bracketed.inj (Option.some.inj heq)
    decide

/-- `hostlistCreate_loose` at that text. -/
theorem hostlistCreate_loose_open :
    RegularText "n[1-, +3]x".toList ∧
      ∃ new, hostlistCreate "n[1-, +3]x".toList = .ok new ∧
        new.hosts = ["n1x".toList, "n003x".toList] :=
  ⟨regularText_open,
    (hostlistCreate_loose regularText_open).1 [.bracketed ['n'] [⟨1, 1, 1⟩, ⟨3, 3, 3⟩] ['x']]
      (by decide)⟩

/-- The accepted texts are not those of the notation: a range may be open at its end. -/
theorem hostlistCreate_accepts_open :
    ¬∀ text, (∃ new, hostlistCreate text = .ok new) ↔
      ∃ toks, expression text = some toks ∧ ∀ tok ∈ toks, tok.WithinLimits := by
  intro hclaim
  obtain ⟨toks, htoks, -⟩ := (hclaim "n[1-]".toList).mp ⟨_, rfl⟩
  have hnone : expression "n[1-]".toList = none := by decide
  rw [hnone] at htoks
  exact absurd htoks (by simp)

end Whatsup
