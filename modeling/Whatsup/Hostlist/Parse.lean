import Whatsup.Hostlist.Push

/-!
# Host expressions

`hostlist_create` cuts its argument into tokens at commas, blanks and tabs outside brackets, expands
a bracketed token into ranges, and pushes everything in order. A token `prefix[ranges]suffix` with a
nonempty suffix is pushed host by host, in a loop on an `unsigned long` that ends only below
`ULONG_MAX`; a call that does not return is the outcome `diverges`.

`hostlistCreate_singleton` and `hostlistPush_name` give the calls on one bracket-free name, which is
how names reach the node lists; `tokSpan_append` is how the tokenizer passes over a stretch of text.
-/

set_option autoImplicit false
set_option relaxedAutoImplicit false

namespace Whatsup

open CLib

/-! ### Tokens -/

/-- The separators `"\t, "` of `hostlist_create`. -/
def isSep (c : Char) : Bool :=
  c = '\t' || c = ',' || c = ' '

/-- The scan of `_next_tok` for the end of a token: the token and the text from there on. -/
def tokSpan : List Char → ℤ → List Char × List Char
  | [], _ => ([], [])
  | c :: rest, level =>
    if level ≠ 0 ∨ isSep c = false then
      let level' := if c = '[' then level + 1 else if c = ']' then level - 1 else level
      (c :: (tokSpan rest level').1, (tokSpan rest level').2)
    else ([], c :: rest)

/-- `_next_tok`: the next token and the text behind the separators that follow it. -/
def nextTok (str : List Char) : Option (List Char × List Char) :=
  let start := str.dropWhile isSep
  if start = [] then none
  else some ((tokSpan start 0).1, (tokSpan start 0).2.dropWhile isSep)

/-! ### Ranges -/

/-- `struct _range`. -/
structure Range where
  lo : ℕ
  hi : ℕ
  width : ℕ
deriving DecidableEq

/-- The ways `hostlist_create` fails to give a list: `NULL` for a malformed range, a range of too
many hosts, too many ranges or unbalanced brackets, or no return at all. -/
inductive CreateFailure
  | invalidRange
  | tooManyHosts
  | tooManyRanges
  | unmatchedBracket
  | diverges
deriving DecidableEq

/-- `_parse_single_range`. The part before the first `-` gives the lower bound and the width, the
part behind it the upper bound; the end of a conversion is compared with its start. -/
def parseSingleRange (str : List Char) : Except CreateFailure Range :=
  let front := str.takeWhile (· ≠ '-')
  let back := (str.dropWhile (· ≠ '-')).tail
  if back.head? = some '-' then .error .invalidRange
  else
    let (lo, q) := strtoul front
    if q = front then .error .invalidRange
    else
      let (hi, q') := if back ≠ [] then strtoul back else (lo, q)
      if (back ≠ [] ∧ q' = back) ∨ q' ≠ [] then .error .invalidRange
      else if hi < lo then .error .invalidRange
      else if maxRange < ulongAdd (ulongSub hi lo) 1 then .error .tooManyHosts
      else .ok { lo := lo, hi := hi, width := front.length }

/-- `_parse_range_list`, with the number of ranges for which there is room. -/
def parseRangeList : ℕ → List Char → Except CreateFailure (List Range)
  | 0, _ => .error .tooManyRanges
  | room + 1, str =>
    match parseSingleRange (str.takeWhile (· ≠ ',')) with
    | .error failure => .error failure
    | .ok range =>
      match str.dropWhile (· ≠ ',') with
      | [] => .ok [range]
      | _ :: rest =>
        match parseRangeList room rest with
        | .error failure => .error failure
        | .ok ranges => .ok (range :: ranges)

/-- `_push_range_list`. -/
def pushRangeList (hl : Hostlist) (pfx : List Char) (ranges : List Range) : Hostlist :=
  ranges.foldl (fun hl range ↦ hostlistPushHr hl pfx range.lo range.hi range.width) hl

/-- The loop of `_push_range_list_with_suffix` on the numbers of one range. The counter has `2 ^ 64`
values, so that a loop that has not ended after as many rounds never ends. -/
def pushSuffixedLoop (pfx sfx : List Char) (range : Range) :
    ℕ → ℕ → Hostlist → Option Hostlist
  | 0, _, _ => none
  | rounds + 1, j, hl =>
    if j ≤ range.hi then
      let host := (pfx ++ padded range.width j ++ sfx).take 4095
      pushSuffixedLoop pfx sfx range rounds (ulongAdd j 1)
        (hostlistPushRange hl (hostrangeCreateSingle host))
    else some hl

/-- `_push_range_list_with_suffix`. -/
def pushRangeListWithSuffix (pfx sfx : List Char) : List Range → Hostlist → Option Hostlist
  | [], hl => some hl
  | range :: ranges, hl =>
    match pushSuffixedLoop pfx sfx range 18446744073709551617 range.lo hl with
    | none => none
    | some hl' => pushRangeListWithSuffix pfx sfx ranges hl'

/-! ### `hostlist_create`, `hostlist_push` -/

/-- What `_hostlist_create_bracketed` does with one token. A token without brackets goes through a
buffer of 1024 characters. -/
def createToken (tok : List Char) (new : Hostlist) : Except CreateFailure Hostlist :=
  if '[' ∈ tok then
    let pfx := tok.takeWhile (· ≠ '[')
    let p := (tok.dropWhile (· ≠ '[')).tail
    if ']' ∈ p then
      let q := (p.dropWhile (· ≠ ']')).tail
      match parseRangeList maxRanges (p.takeWhile (· ≠ ']')) with
      | .error failure => .error failure
      | .ok ranges =>
        if q ≠ [] then
          match pushRangeListWithSuffix pfx q ranges new with
          | none => .error .diverges
          | some new' => .ok new'
        else .ok (pushRangeList new pfx ranges)
    else .error .unmatchedBracket
  else if ']' ∈ tok then .error .unmatchedBracket
  else .ok (hostlistPushHost new (tok.take 1023))

/-- The loop of `_hostlist_create_bracketed` over the tokens. Every token takes at least one
character, so that the length of the text bounds the rounds. -/
def createLoop : ℕ → List Char → Hostlist → Except CreateFailure Hostlist
  | 0, _, new => .ok new
  | rounds + 1, str, new =>
    match nextTok str with
    | none => .ok new
    | some (tok, str') =>
      match createToken tok new with
      | .error failure => .error failure
      | .ok new' => createLoop rounds str' new'

/-- `hostlist_create`, for an argument that is not `NULL`; `hostlist_create(NULL)` is
`hostlistNew`. -/
def hostlistCreate (str : List Char) : Except CreateFailure Hostlist :=
  createLoop str.length str hostlistNew

/-- `hostlist_push`: the number of hosts pushed, or `0` if the text is no host expression; `none` if
the call does not return. -/
def hostlistPush (hl : Hostlist) (hosts : List Char) : Option (ℤ × Hostlist) :=
  match hostlistCreate hosts with
  | .error .diverges => none
  | .error _ => some (0, hl)
  | .ok new => some (new.nhosts, (hostlistPushList hl new).2)

/-- Host expressions pushed in order onto a list, as callers of `hostlist_push` collect them; `none`
if one of the calls does not return. -/
def pushAll : List (List Char) → Hostlist → Option Hostlist
  | [], hl => some hl
  | hosts :: rest, hl =>
    match hostlistPush hl hosts with
    | none => none
    | some (_, hl') => pushAll rest hl'

/-- Assumes: text without a character. Cutting at the first occurrence of the character behind the
text gives the text and what starts with the character. -/
theorem cut_append {d : Char} {front : List Char} (rest : List Char) (h : ∀ c ∈ front, c ≠ d) :
    (front ++ d :: rest).takeWhile (· ≠ d) = front ∧
      (front ++ d :: rest).dropWhile (· ≠ d) = d :: rest := by
  have hfront : ∀ c ∈ front, decide (c ≠ d) = true := fun c hc ↦ decide_eq_true (h c hc)
  rw [List.takeWhile_append_of_pos hfront, List.dropWhile_append_of_pos hfront]
  simp

/-- Assumes: text without a character. Cutting at the character gives the whole text. -/
theorem cut_self {d : Char} {text : List Char} (h : ∀ c ∈ text, c ≠ d) :
    text.takeWhile (· ≠ d) = text ∧ text.dropWhile (· ≠ d) = [] := by
  have htext : ∀ c ∈ text, decide (c ≠ d) = true := fun c hc ↦ decide_eq_true (h c hc)
  exact ⟨List.takeWhile_eq_self_iff.mpr htext, List.dropWhile_eq_nil_iff.mpr htext⟩

/-! ### Bracket-free names -/

/-- A nonempty host name of at most 64 characters without comma, space, tab or brackets. -/
structure PlainName (name : List Char) : Prop where
  ne_nil : name ≠ []
  length_le : name.length ≤ 64
  plain : ∀ c ∈ name, isSep c = false ∧ c ≠ '[' ∧ c ≠ ']'

instance plainName_decidable (name : List Char) : Decidable (PlainName name) :=
  decidable_of_iff (name ≠ [] ∧ name.length ≤ 64 ∧
      (name.all fun c ↦ !isSep c && !decide (c = '[') && !decide (c = ']')) = true)
    ⟨fun h ↦ ⟨h.1, h.2.1, fun c hc ↦ by
        have hplain := List.all_eq_true.mp h.2.2 c hc
        simpa [and_assoc] using hplain⟩,
      fun h ↦ ⟨h.ne_nil, h.length_le, List.all_eq_true.mpr fun c hc ↦ by
        have hplain := h.plain c hc
        simpa [and_assoc] using hplain⟩⟩

/-- Assumes: a stretch of text without brackets, inside brackets or without separators. The
tokenizer passes over it. -/
theorem tokSpan_append {text : List Char} (rest : List Char) {level : ℤ}
    (hbrackets : ∀ c ∈ text, c ≠ '[' ∧ c ≠ ']')
    (hseps : level ≠ 0 ∨ ∀ c ∈ text, isSep c = false) :
    tokSpan (text ++ rest) level =
      (text ++ (tokSpan rest level).1, (tokSpan rest level).2) := by
  induction text with
  | nil => rfl
  | cons c text ih =>
    have hpass : level ≠ 0 ∨ isSep c = false :=
      hseps.imp_right fun h ↦ h c List.mem_cons_self
    have hc := hbrackets c List.mem_cons_self
    rw [List.cons_append, tokSpan, if_pos hpass]
    simp only [if_neg hc.1, if_neg hc.2]
    rw [ih (fun d hd ↦ hbrackets d (List.mem_cons_of_mem c hd))
      (hseps.imp_right fun h d hd ↦ h d (List.mem_cons_of_mem c hd))]
    rfl

/-- Assumes: text that does not start with a separator. There is no separator to skip. -/
theorem dropWhile_isSep_eq {text : List Char} (h : ∀ c ∈ text.head?, isSep c = false) :
    text.dropWhile isSep = text := by
  cases text with
  | nil => rfl
  | cons c rest => rw [List.dropWhile_cons, h c rfl]; rfl

/-- Assumes: a plain name. It is one token. -/
theorem nextTok_plain {name : List Char} (hname : PlainName name) :
    nextTok name = some (name, []) := by
  have hstart : name.dropWhile isSep = name :=
    dropWhile_isSep_eq fun c hc ↦ (hname.plain c (List.mem_of_mem_head? hc)).1
  have hspan : tokSpan (name ++ []) 0 = (name ++ (tokSpan [] 0).1, (tokSpan [] 0).2) :=
    tokSpan_append [] (fun c hc ↦ (hname.plain c hc).2)
      (Or.inr fun c hc ↦ (hname.plain c hc).1)
  rw [List.append_nil] at hspan
  unfold nextTok
  rw [hstart]
  simp only [if_neg hname.ne_nil, hspan, tokSpan, List.append_nil, List.dropWhile_nil]

/-- Assumes: a plain name. As a token it is pushed as it stands. -/
theorem createToken_plain {name : List Char} (hname : PlainName name) (new : Hostlist) :
    createToken name new = .ok (hostlistPushHost new name) := by
  have hopen : '[' ∉ name := fun h ↦ (hname.plain _ h).2.1 rfl
  have hclose : ']' ∉ name := fun h ↦ (hname.plain _ h).2.2 rfl
  have hlength := hname.length_le
  rw [createToken, if_neg hopen, if_neg hclose, List.take_of_length_le (by omega)]

/-- Assumes: a plain name. `hostlist_create` of it is the list of that one name. -/
theorem hostlistCreate_singleton {name : List Char} (hname : PlainName name) :
    hostlistCreate name = .ok (hostlistPushHost hostlistNew name) := by
  obtain ⟨c, rest, rfl⟩ := List.exists_cons_of_ne_nil hname.ne_nil
  rw [hostlistCreate, List.length_cons, createLoop, nextTok_plain hname]
  simp only [createToken_plain hname]
  cases rest with
  | nil => rfl
  | cons d rest => rfl

/-- Assumes: a plain name. `hostlist_push` returns 1 and pushes the range that the name makes on a
new list. -/
theorem hostlistPush_plain {name : List Char} (hname : PlainName name) (hl : Hostlist) :
    hostlistPush hl name =
      some (1, (hostlistPushHost hostlistNew name).ranges.foldl hostlistPushRange hl) := by
  obtain ⟨hnew, hnew_canonical⟩ := hostlistPushHost_spec hostlistNew_canonical name
  have hcount : (hostlistPushHost hostlistNew name).nhosts = 1 := by
    rw [hnew_canonical.nhosts_eq, hnew, hosts_hostlistNew, List.nil_append,
      List.length_singleton]
    exact toInt_eq_self (by decide) (by decide)
  rw [hostlistPush, hostlistCreate_singleton hname]
  simp only [hcount, hostlistPushList_snd]

/-- Assumes: a canonical list and a plain name. `hostlist_push` returns 1, appends the name and
keeps the list canonical. -/
theorem hostlistPush_name {hl : Hostlist} (hcanonical : hl.Canonical) {name : List Char}
    (hname : PlainName name) :
    ∃ hl', hostlistPush hl name = some (1, hl') ∧ hl'.hosts = hl.hosts ++ [name] ∧
      hl'.Canonical := by
  obtain ⟨hnew, hnew_canonical⟩ := hostlistPushHost_spec hostlistNew_canonical name
  refine ⟨_, hostlistPush_plain hname hl, ?_, ?_⟩
  · rw [(foldl_hostlistPushRange_spec _ hl hcanonical.toValid hnew_canonical.ranges_valid).1]
    congr 1
  · exact foldl_hostlistPushRange_canonical _ hl hcanonical hnew_canonical.ranges_canonical

/-- Assumes: plain names and a canonical list. Pushing them appends them and keeps the list
canonical. -/
theorem pushAll_spec (names : List (List Char)) :
    ∀ hl : Hostlist, hl.Canonical → (∀ name ∈ names, PlainName name) →
      ∃ hl', pushAll names hl = some hl' ∧ hl'.hosts = hl.hosts ++ names ∧ hl'.Canonical := by
  induction names with
  | nil => exact fun hl hcanonical _ ↦ ⟨hl, rfl, (List.append_nil _).symm, hcanonical⟩
  | cons name rest ih =>
    intro hl hcanonical hplain
    obtain ⟨hname, hrest⟩ := List.forall_mem_cons.mp hplain
    obtain ⟨hl', hpush, hhosts, hcanonical'⟩ := hostlistPush_name hcanonical hname
    obtain ⟨hl'', hpushes, hhosts', hcanonical''⟩ := ih hl' hcanonical' hrest
    refine ⟨hl'', ?_, ?_, hcanonical''⟩
    · rw [pushAll, hpush]
      exact hpushes
    · rw [hhosts', hhosts, List.append_assoc, List.singleton_append]

end Whatsup
