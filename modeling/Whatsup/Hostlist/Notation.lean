import Whatsup.Hostlist.Filled

/-!
# The notation of host lists

What a text of hosts means, as the manual of `whatsup` and hostlist.h describe it: hosts are
separated by commas, blanks and tabs outside brackets, and `prefix[n-m,l-k,...]` stands for the
prefix with each of the numbers, written as long as the lower bound of their range. `denotedNames`
is the list of names, in order; it is defined without the parser, and has no bounds on the numbers.

`denotedNames_rangedText` says that the text `hostlist_ranged_string` prints denotes the names of
the list.
-/

set_option autoImplicit false
set_option relaxedAutoImplicit false

namespace Whatsup

open CLib

/-! ### Hosts and ranges -/

/-- The number that a text of digits stands for. -/
def numeral (text : List Char) : Option ℕ :=
  if text ≠ [] ∧ text.all Char.isDigit then some (Nat.ofDigitChars 10 text 0) else none

/-- The range that a text between two brackets or commas stands for: a number, or two in order. -/
def rangeOf (text : List Char) : Option Range :=
  match text.splitOn '-' with
  | [n] => (numeral n).map fun lo ↦ ⟨lo, lo, n.length⟩
  | [n, m] =>
    match numeral n, numeral m with
    | some lo, some hi => if lo ≤ hi then some ⟨lo, hi, n.length⟩ else none
    | _, _ => none
  | _ => none

/-- One of the hosts or bracketed lists of a text. -/
inductive HostToken
  | single (host : List Char)
  | bracketed (pfx : List Char) (ranges : List Range) (sfx : List Char)
deriving DecidableEq

/-- What a piece of the text stands for: a name without brackets, or ranges between two brackets
with a prefix and a suffix without brackets. -/
def hostToken (tok : List Char) : Option HostToken :=
  match tok.splitOn '[' with
  | [host] => if ']' ∈ host then none else some (.single host)
  | [pfx, rest] =>
    match rest.splitOn ']' with
    | [body, sfx] =>
      if ']' ∈ pfx then none else ((body.splitOn ',').mapM rangeOf).map (.bracketed pfx · sfx)
    | _ => none
  | _ => none

/-- The names that the numbers of a range give with a prefix and a suffix. -/
def Range.names (pfx sfx : List Char) (range : Range) : List (List Char) :=
  (List.range' range.lo (range.hi + 1 - range.lo)).map fun number ↦
    pfx ++ padded range.width number ++ sfx

/-- The names that a piece of the text stands for. -/
def HostToken.names : HostToken → List (List Char)
  | .single host => [host]
  | .bracketed pfx ranges sfx => ranges.flatMap (Range.names pfx sfx)

/-! ### Texts -/

/-- The pieces of a text between separators outside brackets, for a text that starts inside or
outside. -/
def splitOutside : Bool → List Char → List (List Char)
  | _, [] => [[]]
  | inside, c :: rest =>
    if inside = false ∧ isSep c = true then [] :: splitOutside false rest
    else (splitOutside (if c = '[' then true else if c = ']' then false else inside)
      rest).modifyHead (c :: ·)

/-- The hosts and bracketed lists of a text. -/
def tokens (text : List Char) : List (List Char) :=
  (splitOutside false text).filter (· ≠ [])

/-- What a text of hosts consists of, if it is one. -/
def expression (text : List Char) : Option (List HostToken) :=
  (tokens text).mapM hostToken

/-- The names that a text of hosts denotes, if it is one. -/
def denotedNames (text : List Char) : Option (List (List Char)) :=
  (expression text).map (List.flatMap HostToken.names)

example : denotedNames "foo[7,09-10], bar".toList = some ["foo7".toList, "foo09".toList,
    "foo10".toList, "bar".toList] := by
  decide

example : denotedNames "foo[7".toList = none := by
  decide

/-! ### Cutting a text -/

/-- A text has at least one piece. -/
theorem splitOutside_ne_nil (inside : Bool) (text : List Char) : splitOutside inside text ≠ [] := by
  induction text generalizing inside with
  | nil => cases inside <;> exact List.cons_ne_nil _ _
  | cons c rest ih =>
    rw [splitOutside]
    split_ifs
    · exact List.cons_ne_nil _ _
    all_goals exact fun h ↦ ih _ (List.modifyHead_eq_nil_iff.mp h)

/-- Assumes: a stretch of text without brackets, inside brackets or without separators. It belongs
to the first piece. -/
theorem splitOutside_append {inside : Bool} {text : List Char} (rest : List Char)
    (hbrackets : ∀ c ∈ text, c ≠ '[' ∧ c ≠ ']')
    (hseps : inside = true ∨ ∀ c ∈ text, isSep c = false) :
    splitOutside inside (text ++ rest) = (splitOutside inside rest).modifyHead (text ++ ·) := by
  induction text with
  | nil => exact (congrFun List.modifyHead_id _).symm
  | cons c text ih =>
    have hc := hbrackets c List.mem_cons_self
    have hpass : ¬(inside = false ∧ isSep c = true) := by
      rintro ⟨hout, hsep⟩
      rcases hseps with hin | hplain
      · exact absurd (hin.symm.trans hout) (by decide)
      · exact absurd ((hplain c List.mem_cons_self).symm.trans hsep) (by decide)
    rw [List.cons_append, splitOutside, if_neg hpass, if_neg hc.1, if_neg hc.2,
      ih (fun d hd ↦ hbrackets d (List.mem_cons_of_mem c hd))
        (hseps.imp_right fun h d hd ↦ h d (List.mem_cons_of_mem c hd)), List.modifyHead_modifyHead]
    rfl

/-- A text that stays in one piece, whatever follows it. -/
def Whole (text : List Char) : Prop :=
  ∀ rest, splitOutside false (text ++ rest) = (splitOutside false rest).modifyHead (text ++ ·)

/-- Text without brackets and separators stays in one piece. -/
theorem whole_plain {text : List Char} (h : ∀ c ∈ text, isSep c = false ∧ c ≠ '[' ∧ c ≠ ']') :
    Whole text :=
  fun rest ↦ splitOutside_append rest (fun c hc ↦ (h c hc).2) (Or.inr fun c hc ↦ (h c hc).1)

/-- Two texts that stay in one piece stay in one piece together. -/
theorem Whole.append {text text' : List Char} (h : Whole text) (h' : Whole text') :
    Whole (text ++ text') := by
  intro rest
  rw [List.append_assoc, h, h', List.modifyHead_modifyHead]
  congr 1
  funext piece
  exact (List.append_assoc text text' piece).symm

/-- Text between two brackets stays in one piece. -/
theorem whole_bracketed {body : List Char} (h : ∀ c ∈ body, c ≠ '[' ∧ c ≠ ']') :
    Whole ('[' :: body ++ [']']) := by
  intro rest
  have hclose : splitOutside true (']' :: rest) = (splitOutside false rest).modifyHead (']' :: ·) :=
    rfl
  have hopen : splitOutside false ('[' :: (body ++ ']' :: rest)) =
      (splitOutside true (body ++ ']' :: rest)).modifyHead ('[' :: ·) := rfl
  have hwhole : '[' :: body ++ [']'] ++ rest = '[' :: (body ++ ']' :: rest) := by simp
  rw [hwhole, hopen, splitOutside_append _ h (Or.inl rfl), hclose, List.modifyHead_modifyHead,
    List.modifyHead_modifyHead]
  congr 1
  funext piece
  simp

/-- Assumes: texts that stay in one piece each, at least one. Joined by commas they are the pieces
of the whole. -/
theorem splitOutside_intercalate {texts : List (List Char)} (hne : texts ≠ [])
    (h : ∀ text ∈ texts, Whole text) :
    splitOutside false ([','].intercalate texts) = texts := by
  induction texts with
  | nil => exact absurd rfl hne
  | cons first rest ih =>
    obtain ⟨hfirst, hrest⟩ := List.forall_mem_cons.mp h
    cases rest with
    | nil =>
      have hone := hfirst []
      rw [List.append_nil] at hone
      rw [List.intercalate_singleton, hone]
      simp [splitOutside]
    | cons second rest =>
      have hcomma : ∀ tail, splitOutside false (',' :: tail) = [] :: splitOutside false tail :=
        fun tail ↦ rfl
      rw [intercalate_cons_cons, hfirst, List.singleton_append, hcomma,
        ih (List.cons_ne_nil _ _) hrest, List.modifyHead_cons, List.append_nil]

/-- Assumes: texts that stay in one piece each and are not empty. Joined by commas they are the
hosts and bracketed lists of the whole. -/
theorem tokens_intercalate {texts : List (List Char)} (h : ∀ text ∈ texts, Whole text ∧ text ≠ []) :
    tokens ([','].intercalate texts) = texts := by
  by_cases hne : texts = []
  · rw [hne]
    rfl
  · rw [tokens, splitOutside_intercalate hne fun text hmem ↦ (h text hmem).1]
    exact List.filter_eq_self.mpr fun text hmem ↦ decide_eq_true (h text hmem).2

/-! ### The text of a list -/

/-- A padded number is a numeral. -/
theorem numeral_padded (width number : ℕ) : numeral (padded width number) = some number := by
  have hdigits : (padded width number).all Char.isDigit = true :=
    List.all_eq_true.mpr fun c hc ↦ isDigit_of_mem_padded hc
  rw [numeral, if_pos ⟨padded_ne_nil width number, hdigits⟩, ofDigitChars_padded]

/-- Assumes: a range with bounds in order that is not a single host. Its numbers are a range between
two brackets. -/
theorem rangeOf_numberText {hr : HostRange} (hle : hr.lo ≤ hr.hi)
    (hsingle : hr.singlehost = false) :
    rangeOf (numberText hr) = some (reread hr) := by
  have hdash : ∀ number, '-' ∉ padded hr.width number := fun number hmem ↦
    (plain_of_isDigit (isDigit_of_mem_padded hmem)).2.2.2 rfl
  unfold numberText rangeOf
  rw [if_neg (by simp [hsingle])]
  split_ifs with hmore
  · rw [List.splitOn_append_cons_self_of_not_mem (hdash hr.lo),
      List.splitOn_eq_singleton (hdash hr.hi)]
    simp only [numeral_padded, if_pos hle]
    rfl
  · have heq : hr.hi = hr.lo := by omega
    rw [List.splitOn_eq_singleton (hdash hr.lo)]
    simp only [numeral_padded, reread, heq]
    rfl

/-- Assumes: steps that give a value each, with the names of their items. So does their sequence. -/
theorem exists_mapM_some {α β γ : Type} {f : α → Option β} {names : β → List γ}
    {names' : α → List γ} {items : List α}
    (h : ∀ item ∈ items, ∃ value, f item = some value ∧ names value = names' item) :
    ∃ values, items.mapM f = some values ∧ values.flatMap names = items.flatMap names' := by
  induction items with
  | nil => exact ⟨[], rfl, rfl⟩
  | cons item items ih =>
    obtain ⟨⟨value, hvalue, hnames⟩, hitems⟩ := List.forall_mem_cons.mp h
    obtain ⟨values, hvalues, hrest⟩ := ih hitems
    refine ⟨value :: values, ?_, by rw [List.flatMap_cons, List.flatMap_cons, hnames, hrest]⟩
    rw [List.mapM_cons, hvalue, hvalues]
    rfl

/-- A range read back from the numbers of a range gives the hosts of that range. -/
theorem names_reread {hr : HostRange} (hsingle : hr.singlehost = false) :
    Range.names hr.pfx [] (reread hr) = hr.hosts := by
  rw [← hosts_reread hsingle]
  unfold Range.names HostRange.hosts hostrangeCreate
  simp

/-- Assumes: a group of ranges with bounds in order and below `2 ^ 63` and with plain prefixes. Its
text stands for its hosts. -/
theorem hostToken_group {group : List HostRange} {text : List Char} (h : GroupText group text)
    (hbounds : ∀ hr ∈ group, hr.lo ≤ hr.hi ∧ hr.hi < 9223372036854775808)
    (hpfx : ∀ hr ∈ group, ∀ c ∈ hr.pfx, isSep c = false ∧ c ≠ '[' ∧ c ≠ ']') :
    ∃ tok, hostToken text = some tok ∧ tok.names = hostsOf group := by
  cases h with
  | @single hr hcount =>
    have hhr := List.mem_singleton_self hr
    have hplain : ∀ c ∈ hr.pfx ++ numberText hr, c ≠ '[' ∧ c ≠ ']' := fun c hc ↦
      (List.mem_append.mp hc).elim (fun hc ↦ (hpfx hr hhr c hc).2) fun hc ↦
        (plain_of_mem_numberText hc).2
    refine ⟨.single (hr.pfx ++ numberText hr), ?_, ?_⟩
    · rw [hostToken, List.splitOn_eq_singleton fun hmem ↦ (hplain _ hmem).1 rfl]
      exact if_neg fun hmem ↦ (hplain _ hmem).2 rfl
    · rw [hostsOf_cons, hosts_of_count_le (hbounds hr hhr) hcount]
      rfl
  | @bracketed pfx group hne hgroup =>
    obtain ⟨first, tail, rfl⟩ := List.exists_cons_of_ne_nil hne
    have hplain := hpfx first List.mem_cons_self
    rw [(hgroup first List.mem_cons_self).1] at hplain
    have hbody : ∀ c ∈ [','].intercalate ((first :: tail).map numberText), c ≠ '[' ∧ c ≠ ']' :=
      fun c hc ↦ bracket_free_numbers hc
    have hopen :
      (pfx ++ '[' :: ([','].intercalate ((first :: tail).map numberText) ++ ']' ::
      [])).splitOn '[' =
        [pfx, [','].intercalate ((first :: tail).map numberText) ++ ']' :: []] := by
      rw [List.splitOn_append_cons_self_of_not_mem fun hmem ↦ (hplain _ hmem).2.1 rfl,
        List.splitOn_eq_singleton]
      intro hmem
      rcases List.mem_append.mp hmem with hmem | hmem
      · exact (hbody _ hmem).1 rfl
      · exact absurd hmem (by decide)
    have hclose : ([','].intercalate ((first :: tail).map numberText) ++ ']' :: []).splitOn ']' =
        [[','].intercalate ((first :: tail).map numberText), []] := by
      rw [List.splitOn_append_cons_self_of_not_mem fun hmem ↦ (hbody _ hmem).2 rfl]
      rfl
    have hcommas : ([','].intercalate ((first :: tail).map numberText)).splitOn ',' =
        (first :: tail).map numberText := by
      refine List.splitOn_intercalate ',' (fun text hmem hcomma ↦ ?_) (by simp)
      obtain ⟨hr, -, rfl⟩ := List.mem_map.mp hmem
      exact absurd (plain_of_mem_numberText hcomma).1 (by decide)
    have hranges : ((first :: tail).map numberText).mapM rangeOf =
        some ((first :: tail).map reread) := by
      rw [List.mapM_map]
      exact mapM_eq_some fun hr hmem ↦ rangeOf_numberText (hbounds hr hmem).1 (hgroup hr hmem).2
    have hwhole : pfx ++ '[' :: [','].intercalate ((first :: tail).map numberText) ++ [']'] =
        pfx ++ '[' :: ([','].intercalate ((first :: tail).map numberText) ++ ']' :: []) := by
      simp
    refine ⟨.bracketed pfx ((first :: tail).map reread) [], ?_, ?_⟩
    · rw [hwhole, hostToken, hopen]
      simp only [hclose]
      rw [if_neg fun hmem ↦ (hplain _ hmem).2.2 rfl, hcommas, hranges]
      rfl
    · rw [HostToken.names, hostsOf, List.flatMap_map]
      refine List.flatMap_congr fun hr hmem ↦ ?_
      obtain ⟨rfl, hsingle⟩ := hgroup hr hmem
      exact names_reread hsingle

/-- A group of ranges with plain prefixes stays in one piece. -/
theorem whole_group {group : List HostRange} {text : List Char} (h : GroupText group text)
    (hpfx : ∀ hr ∈ group, ∀ c ∈ hr.pfx, isSep c = false ∧ c ≠ '[' ∧ c ≠ ']') : Whole text := by
  cases h with
  | @single hr hcount =>
    exact whole_plain fun c hc ↦ (List.mem_append.mp hc).elim
      (fun hc ↦ hpfx hr (List.mem_singleton_self hr) c hc) plain_of_mem_numberText
  | @bracketed pfx group hne hgroup =>
    obtain ⟨first, tail, rfl⟩ := List.exists_cons_of_ne_nil hne
    have hplain := hpfx first List.mem_cons_self
    rw [(hgroup first List.mem_cons_self).1] at hplain
    rw [List.append_assoc]
    exact (whole_plain hplain).append (whole_bracketed fun c hc ↦ bracket_free_numbers hc)

/-- Assumes: a list that can be printed. Its text denotes its names, in order. -/
theorem denotedNames_rangedText {hl : Hostlist} (hprintable : hl.Printable) :
    denotedNames (rangedText hl.ranges) = some hl.hosts := by
  have hinside : ∀ group ∈ hl.ranges.splitBy hostrangeWithinRange, ∀ hr ∈ group, hr ∈ hl.ranges :=
    fun group hgroup hr hmem ↦ by
      rw [← List.flatten_splitBy hostrangeWithinRange hl.ranges]
      exact List.mem_flatten.mpr ⟨group, hgroup, hmem⟩
  have htokens : tokens (rangedText hl.ranges) =
      (hl.ranges.splitBy hostrangeWithinRange).map groupText := by
    refine tokens_intercalate fun text hmem ↦ ?_
    obtain ⟨group, hgroup, rfl⟩ := List.mem_map.mp hmem
    exact ⟨whole_group (groupText_spec hgroup) fun hr hr_mem ↦
      hprintable.pfx_plain hr (hinside group hgroup hr hr_mem),
      (groupText_spec hgroup).text_ne_nil fun hr hr_mem ↦
        hprintable.name_ne_nil (hinside group hgroup hr hr_mem)⟩
  obtain ⟨toks, htoks, hnames⟩ := exists_mapM_some (f := hostToken ∘ groupText) (fun group hgroup ↦
    hostToken_group (groupText_spec hgroup)
      (fun hr hmem ↦ hprintable.bounds hr (hinside group hgroup hr hmem))
      fun hr hmem ↦ hprintable.pfx_plain hr (hinside group hgroup hr hmem))
  have hflatten : (hl.ranges.splitBy hostrangeWithinRange).flatMap hostsOf = hl.hosts := by
    refine Eq.trans ?_ (congrArg hostsOf (List.flatten_splitBy hostrangeWithinRange hl.ranges))
    rw [hostsOf, ← List.flatMap_id, List.flatMap_assoc]
    rfl
  rw [denotedNames, expression, htokens, List.mapM_map, htoks, Option.map_some, hnames, hflatten]

end Whatsup
