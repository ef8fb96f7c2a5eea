import Whatsup.Command.InputNodes
import Whatsup.Hostlist.Uniq
import Whatsup.Pingd.Modules

/-!
# The nodes of a command line

The nodes that `whatsup` is asked about stand on its command line, or behind `-` on its standard
input, which may come in any pieces. `_cmdline_parse` pushes them as they come and removes
duplicates at the end. `cmdlineNodes_iff` says when this ends well, that it makes no difference
where the words come from, and that the list then has each of their names once.
-/

set_option autoImplicit false
set_option relaxedAutoImplicit false

namespace Whatsup

open CLib

/-! ### Words -/

/-- The ways in which the nodes do not come to be: a name with a domain, a word that is no host
expression, a call of `hostlist_push` that does not return, a standard input that cannot be read or
is too long, or a failed assertion of the sort. -/
inductive CmdlineExit
  | domain
  | improper
  | endless
  | stdinFailed
  | stdinOverflow
  | sort (fault : SortFault)
deriving DecidableEq

/-- `_push_inputted_nodes`. -/
def pushInputtedNodes (inputted : Hostlist) (nodes : List Char) : Except CmdlineExit Hostlist :=
  if '.' ∈ nodes then .error .domain
  else
    match hostlistPush inputted nodes with
    | none => .error .endless
    | some (pushed, inputted) => if pushed = 0 then .error .improper else .ok inputted

/-- The loop of `_cmdline_parse` over the arguments behind the options. -/
def pushArguments : List (List Char) → Hostlist → Except CmdlineExit Hostlist
  | [], inputted => .ok inputted
  | nodes :: args, inputted => do
    let inputted ← pushInputtedNodes inputted nodes
    pushArguments args inputted

/-- The delimiters that `_read_nodes_from_stdin` gives to `strtok`. -/
def isDelim (c : Char) : Bool :=
  c = ' ' || c = '\t' || c = '\n'

/-- `strtok`: the next token of a string, and what is left behind the delimiter at its end. -/
def strtok (str : List Char) : Option (List Char × List Char) :=
  let start := str.dropWhile isDelim
  if start = [] then none
  else some (start.takeWhile (!isDelim ·), (start.dropWhile (!isDelim ·)).tail)

/-- The loop of `_read_nodes_from_stdin`. Every token takes at least one character, so that the
length of the text bounds the rounds. -/
def strtokLoop : ℕ → List Char → Hostlist → Except CmdlineExit Hostlist
  | 0, _, _ => .error .endless
  | rounds + 1, str, inputted =>
    match strtok str with
    | none => .ok inputted
    | some (ptr, str) => do
      let inputted ← pushInputtedNodes inputted ptr
      strtokLoop rounds str inputted

/-- `_read_nodes_from_stdin`. -/
def readNodesFromStdin (stdin : List InputEvent) (inputted : Hostlist) :
    Except CmdlineExit Hostlist :=
  match fdReadN whatsupBufferlen stdin with
  | none => .error .stdinFailed
  | some (text, _) =>
    if text.length = whatsupBufferlen then .error .stdinOverflow
    else if 0 < text.length then strtokLoop (text.length + 1) (cString text) inputted
    else .ok inputted

/-- The nodes that `_cmdline_parse` takes from the arguments behind the options, if there are
any. -/
def argumentNodes (args : List (List Char)) (stdin : List InputEvent) :
    Except CmdlineExit Hostlist :=
  if args.head? = some ['-'] then readNodesFromStdin stdin hostlistNew else pushArguments
    args hostlistNew

/-- The end of `_cmdline_parse`, behind its options. -/
def cmdlineNodes (ndebug : Bool) (qsort : List HostRange → List HostRange) (args : List (List Char))
    (stdin : List InputEvent) :
    Except CmdlineExit Hostlist :=
  if args = [] then .ok hostlistNew
  else do
    let inputted ← argumentNodes args stdin
    (hostlistUniq ndebug qsort inputted).mapError .sort

/-! ### The words of a text -/

/-- The words of a text between delimiters. -/
def wordsOf (text : List Char) : List (List Char) :=
  (text.splitOnP isDelim).filter (· ≠ [])

/-- The words that are pushed: those of the standard input, or the arguments. -/
def givenWords (args : List (List Char)) (text : List Char) : List (List Char) :=
  if args.head? = some ['-'] then wordsOf (cString text) else args

/-- Delimiters in front of a text make no word. -/
theorem wordsOf_dropWhile (text : List Char) : wordsOf (text.dropWhile isDelim) = wordsOf text := by
  induction text with
  | nil => rfl
  | cons c rest ih =>
    by_cases hdelim : isDelim c = true
    · rw [List.dropWhile_cons_of_pos hdelim, ih]
      unfold wordsOf
      rw [List.splitOnP_cons_eq_if_modifyHead, if_pos hdelim, List.filter_cons_of_neg (by simp)]
    · rw [List.dropWhile_cons_of_neg hdelim]

/-- A text that does not start with a delimiter starts with a word. -/
theorem wordsOf_cons {c : Char} {rest : List Char} (hc : isDelim c = false) :
    wordsOf (c :: rest) = (c :: rest).takeWhile (!isDelim ·) ::
      wordsOf ((c :: rest).dropWhile (!isDelim ·)).tail := by
  have hfront : ∀ d ∈ (c :: rest).takeWhile (!isDelim ·), isDelim d = false := fun d hd ↦ by
    simpa using List.mem_takeWhile_imp hd
  have hne : (c :: rest).takeWhile (!isDelim ·) ≠ [] := by
    rw [List.takeWhile_cons_of_pos (by simp [hc])]
    exact List.cons_ne_nil _ _
  have hsplit := List.takeWhile_append_dropWhile (p := (!isDelim ·)) (l := c :: rest)
  cases hbehind : (c :: rest).dropWhile (!isDelim ·) with
  | nil =>
    rw [hbehind, List.append_nil] at hsplit
    conv_lhs => rw [← hsplit]
    unfold wordsOf
    rw [List.splitOnP_eq_singleton hfront, List.filter_cons_of_pos (by simpa using hne)]
    rfl
  | cons d later =>
    have hd : isDelim d = true := by
      have hhead := List.head_dropWhile_not (!isDelim ·) (hbehind ▸ List.cons_ne_nil d later)
      simpa [hbehind] using hhead
    rw [hbehind] at hsplit
    conv_lhs => rw [← hsplit]
    unfold wordsOf
    rw [List.splitOnP_append_cons _ _ hd, List.splitOnP_eq_singleton hfront, List.singleton_append,
      List.filter_cons_of_pos (by simpa using hne), List.tail_cons]

/-- `strtok` gives the words of a text one by one. -/
theorem strtok_words (str : List Char) :
    (strtok str = none ∧ wordsOf str = []) ∨
      ∃ ptr rest, strtok str = some (ptr, rest) ∧ wordsOf str = ptr :: wordsOf rest ∧
        rest.length < str.length := by
  have hle := List.length_dropWhile_le isDelim str
  rw [strtok, ← wordsOf_dropWhile]
  cases hstart : str.dropWhile isDelim with
  | nil => exact Or.inl ⟨rfl, rfl⟩
  | cons c rest =>
    have hc : isDelim c = false := by
      have hhead := List.head_dropWhile_not isDelim (hstart ▸ List.cons_ne_nil c rest)
      simpa [hstart] using hhead
    refine Or.inr ⟨_, _, if_neg (List.cons_ne_nil _ _), wordsOf_cons hc, ?_⟩
    have hrest := List.length_dropWhile_le (!isDelim ·) (c :: rest)
    rw [hstart, List.length_cons] at hle
    rw [List.length_tail, List.dropWhile_cons_of_pos (by simp [hc])] at *
    have hlater := List.length_dropWhile_le (!isDelim ·) rest
    omega

/-- Assumes: enough rounds. The loop over the tokens pushes the words as the loop over arguments
does. -/
theorem strtokLoop_eq (rounds : ℕ) :
    ∀ (str : List Char) (inputted : Hostlist), str.length < rounds →
      strtokLoop rounds str inputted = pushArguments (wordsOf str) inputted := by
  induction rounds with
  | zero => exact fun _ _ h ↦ absurd h (Nat.not_lt_zero _)
  | succ rounds ih =>
    intro str inputted hrounds
    rw [strtokLoop]
    rcases strtok_words str with ⟨hnone, hwords⟩ | ⟨ptr, rest, hsome, hwords, hshorter⟩
    · rw [hnone, hwords]
      rfl
    · rw [hsome, hwords, pushArguments]
      simp only [ih rest _ (by omega)]

/-- Assumes: a standard input that sends a text. What does not fit is refused; otherwise the words
of the text are pushed. -/
theorem readNodesFromStdin_eq {stdin : List InputEvent} {text : List Char}
    (hsends : Sends stdin text) (inputted : Hostlist) :
    readNodesFromStdin stdin inputted =
      if whatsupBufferlen ≤ text.length then .error .stdinOverflow else pushArguments
        (wordsOf (cString text)) inputted := by
  obtain ⟨rest, hread, -⟩ := fdReadN_sends hsends whatsupBufferlen
  unfold readNodesFromStdin
  rw [hread]
  simp only [List.length_take]
  by_cases hlong : whatsupBufferlen ≤ text.length
  · rw [if_pos (Nat.min_eq_left hlong), if_pos hlong]
  · rw [if_neg (by omega), if_neg hlong, List.take_of_length_le (by omega),
      Nat.min_eq_right (by omega)]
    split_ifs with hpos
    · exact strtokLoop_eq _ _ _ (Nat.lt_succ_of_le (List.takeWhile_prefix _).length_le)
    · rw [List.length_eq_zero_iff.mp (by omega : text.length = 0)]
      rfl

/-! ### The nodes that are pushed -/

/-- A word that is pushed: a host expression without a domain, of hosts whose number is not 0 as an
`int`. -/
def AcceptedWord (word : List Char) : Prop :=
  '.' ∉ word ∧ accepted word = true

/-- Assumes: a valid list and words whose ranges end below `ULONG_MAX`. They are pushed exactly if
each is accepted, and then their hosts are appended in order. -/
theorem pushArguments_iff (words : List (List Char)) :
    ∀ hl : Hostlist, hl.Valid → (∀ word ∈ words, BelowMax word) →
      ((∃ hl', pushArguments words hl = .ok hl') ↔ ∀ word ∈ words, AcceptedWord word) ∧
        ∀ hl', pushArguments words hl = .ok hl' → hl'.Valid ∧
          hl'.hosts = hl.hosts ++ words.flatMap nodeHosts := by
  induction words with
  | nil =>
    intro hl hvalid _
    refine ⟨iff_of_true ⟨hl, rfl⟩ fun word hword ↦ absurd hword List.not_mem_nil, fun hl' hrun ↦ ?_⟩
    obtain rfl := Except.ok.inj hrun
    exact ⟨hvalid, (List.append_nil _).symm⟩
  | cons word words ih =>
    intro hl hvalid hbelow
    obtain ⟨hword, hwords⟩ := List.forall_mem_cons.mp hbelow
    obtain ⟨pushed, hl1, hpush, hzero, hvalid1, hhosts, -⟩ := hostlistPush_belowMax hvalid hword
    obtain ⟨hiff, hrest⟩ := ih hl1 hvalid1 hwords
    have hfirst : ∀ hl2, pushInputtedNodes hl word = .ok hl2 ↔ AcceptedWord word ∧ hl2 = hl1 := by
      intro hl2
      unfold pushInputtedNodes AcceptedWord
      rw [hpush]
      by_cases hdomain : '.' ∈ word
      · simp [hdomain]
      · by_cases hpushed : pushed = 0
        · simp [hdomain, hpushed, hzero.mp hpushed]
        · have haccepted : accepted word = true := by simpa using mt hzero.mpr hpushed
          simp [hdomain, hpushed, haccepted, eq_comm]
    rw [List.forall_mem_cons, ← hiff]
    simp only [pushArguments, bind_eq_ok, hfirst]
    constructor
    · constructor
      · rintro ⟨hl', hl2, ⟨haccepted, rfl⟩, hrun⟩
        exact ⟨haccepted, hl', hrun⟩
      · rintro ⟨haccepted, hl', hrun⟩
        exact ⟨hl', hl1, ⟨haccepted, rfl⟩, hrun⟩
    · rintro hl' ⟨hl2, ⟨-, rfl⟩, hrun⟩
      obtain ⟨hvalid', hhosts'⟩ := hrest hl' hrun
      exact ⟨hvalid', by rw [hhosts', hhosts, List.append_assoc, List.flatMap_cons]⟩

/-- Assumes: a tallied list. Pushing words keeps it tallied. -/
theorem tallied_pushArguments (words : List (List Char)) :
    ∀ hl hl' : Hostlist, hl.Tallied → pushArguments words hl = .ok hl' → hl'.Tallied := by
  induction words with
  | nil =>
    intro hl hl' htallied hrun
    obtain rfl := Except.ok.inj hrun
    exact htallied
  | cons word words ih =>
    intro hl hl' htallied hrun
    obtain ⟨hl1, hfirst, hrun⟩ := bind_eq_ok.mp hrun
    refine ih hl1 hl' ?_ hrun
    unfold pushInputtedNodes at hfirst
    split_ifs at hfirst
    cases hpush : hostlistPush hl word with
    | none =>
      rw [hpush] at hfirst
      exact absurd hfirst (by simp)
    | some result =>
      rw [hpush] at hfirst
      simp only at hfirst
      split_ifs at hfirst
      obtain rfl := Except.ok.inj hfirst
      exact tallied_hostlistPush htallied hpush

/-! ### Without duplicates -/

/-- Assumes: ranges that the loop of `hostlist_uniq` is to join, and that end below `ULONG_MAX`.
What it leaves is valid. -/
theorem uniqLoop_valid (ndebug : Bool) (rest : List HostRange) :
    ∀ (h : HostRange) (nhosts : ℤ), Uniquable (h :: rest) → (∀ hr ∈ h :: rest, hr.hi < ulongMax) →
      ∀ result, uniqLoop ndebug h rest nhosts = .ok result → ∀ hr ∈ result.1, hr.Valid := by
  induction rest with
  | nil =>
    intro h nhosts hu hends result hrun hr hmem
    obtain rfl := Except.ok.inj hrun
    rw [List.mem_singleton.mp hmem]
    exact (hu.sound h List.mem_cons_self).valid (hends h List.mem_cons_self)
  | cons next rest ih =>
    intro h nhosts hu hends result hrun
    obtain ⟨hend, hendNext, hendRest⟩ := by simpa only [List.forall_mem_cons] using hends
    have hsound := hu.sound h List.mem_cons_self
    have hsoundNext := hu.sound next (by simp)
    have horder := (List.pairwise_cons.mp hu.sorted).1 next List.mem_cons_self
    have hcomparable := hu.comparable h List.mem_cons_self next (by simp)
    rw [uniqLoop] at hrun
    by_cases hjoin : Joinable h next
    · obtain ⟨ndup, g, next', hresult, hjoined⟩ :=
        hostrangeJoin_of_joinable ndebug hsound hsoundNext
        horder hcomparable hjoin (hu.length_lt List.mem_cons_self) (hu.length_lt (by simp))
      rw [hresult] at hrun
      simp only [Int.natCast_nonneg, if_true] at hrun
      have hendUnion : g.hi < ulongMax := hjoined.hi_le.trans_lt (max_lt hend hendNext)
      exact ih g _ (hu.join hjoined) (List.forall_mem_cons.mpr ⟨hendUnion, hendRest⟩) result hrun
    · obtain ⟨g, next', hresult, hkept⟩ := hostrangeJoin_of_not_joinable ndebug hsound hsoundNext
        horder hcomparable hjoin
      rw [hresult] at hrun
      simp only [Int.reduceNeg, Int.reduceLE, if_false] at hrun
      have hendKept : g.hi < ulongMax := by
        rwa [← g.hi_normal, hkept.normal1, HostRange.hi_normal]
      have hendNext' : next'.hi < ulongMax := by
        rwa [← next'.hi_normal, hkept.normal2, HostRange.hi_normal]
      cases hlater : uniqLoop ndebug next' rest nhosts with
      | error fault =>
        rw [hlater] at hrun
        exact absurd hrun (by simp [Except.map])
      | ok later =>
        rw [hlater] at hrun
        obtain rfl := Except.ok.inj hrun
        exact List.forall_mem_cons.mpr ⟨hkept.sound1.valid hendKept,
          ih next' _ (hu.skip hkept) (List.forall_mem_cons.mpr ⟨hendNext', hendRest⟩) later hlater⟩

/-- Assumes: an exact list of valid ranges. The removal of duplicates leaves valid ranges. -/
theorem hostlistUniq_valid {qsort : List HostRange → List HostRange}
    (hqsort : IsSort hostrangeCmp qsort) {ndebug : Bool}
    {hl hl' : Hostlist} (hexact : hl.Exact) (hsound : ∀ hr ∈ hl.ranges, hr.Sound)
    (hvalid : ∀ hr ∈ hl.ranges, hr.Valid)
    (hrun : hostlistUniq ndebug qsort hl = .ok hl') : ∀ hr ∈ hl'.ranges, hr.Valid := by
  have huniquable := uniquable_qsort hqsort hexact hsound
  have hends : ∀ hr ∈ qsort hl.ranges, hr.hi < ulongMax := fun hr hmem ↦ by
    obtain ⟨hr', hmem', hnormal⟩ := List.mem_map.mp ((perm_normal_qsort hqsort hl.ranges).subset
      (List.mem_map_of_mem hmem))
    rw [← hr.hi_normal, ← hnormal, HostRange.hi_normal]
    exact (hvalid hr' hmem').hi_lt
  unfold hostlistUniq at hrun
  split_ifs at hrun
  · obtain rfl := Except.ok.inj hrun
    exact hvalid
  · cases hsorted : qsort hl.ranges with
    | nil =>
      rw [hsorted] at hrun
      obtain rfl := Except.ok.inj hrun
      exact fun hr hmem ↦ absurd hmem List.not_mem_nil
    | cons first rest =>
      rw [hsorted] at hrun huniquable hends
      simp only at hrun
      cases hloop : uniqLoop ndebug first rest hl.nhosts with
      | error fault =>
        rw [hloop] at hrun
        exact absurd hrun (by simp [Except.map])
      | ok result =>
        rw [hloop] at hrun
        obtain rfl := Except.ok.inj hrun
        exact uniqLoop_valid ndebug rest first _ huniquable hends result hloop

/-! ### The nodes as they are asked about -/

/-- A name that ends in at most 14 digits, which is what `hostlist_next` has room for. -/
def ShortSuffix (name : List Char) : Prop :=
  (name.reverse.takeWhile Char.isDigit).length ≤ 14

instance (name : List Char) : Decidable (ShortSuffix name) :=
  inferInstanceAs (Decidable (_ ≤ _))

/-- Assumes: names that end in at most 14 digits. The iterator gives them as they are. -/
theorem cutHosts_of_shortSuffix {hl : Hostlist} (hshort : ∀ name ∈ hl.hosts, ShortSuffix name) :
    hl.cutHosts = hl.hosts := by
  refine List.flatMap_congr fun hr hmem ↦ ?_
  unfold HostRange.cutHosts HostRange.hosts
  split_ifs with hsingle
  · rfl
  · refine List.map_congr_left fun number hnumber ↦ ?_
    have hname : hr.pfx ++ padded hr.width number ∈ hl.hosts := by
      refine List.mem_flatMap.mpr ⟨hr, hmem, ?_⟩
      unfold HostRange.hosts
      rw [if_neg hsingle]
      exact List.mem_map_of_mem hnumber
    have hdigits := hshort _ hname
    rw [ShortSuffix, List.reverse_append, List.takeWhile_append_of_pos fun c hc ↦
      isDigit_of_mem_padded (List.mem_reverse.mp hc),
      List.length_append, List.length_reverse] at hdigits
    rw [List.take_of_length_le (by omega)]

/-- A name as `whatsup` can ask about it. -/
structure AskableName (name : List Char) : Prop where
  plain : PlainName name
  nul_free : '\x00' ∉ name
  short : ShortSuffix name

/-- Assumes: arguments, and a standard input that sends a text; words whose ranges end below
`ULONG_MAX`; and, once they are pushed, an exact list without a name clash. The nodes come to be
exactly if the standard input, should it be read, fits into the buffer, and every word is accepted.
Each name of the words is then in the list once, and if all of them can be asked about, the list is
one that `_output_mode` works with. -/
theorem cmdlineNodes_iff {args : List (List Char)} (hargs : args ≠ []) {stdin : List InputEvent}
    {text : List Char}
    (hsends : Sends stdin text) (hbelow : ∀ word ∈ givenWords args text, BelowMax word)
    {ndebug : Bool}
    {qsort : List HostRange → List HostRange} (hqsort : IsSort hostrangeCmp qsort)
    (hclear : ∀ hl, pushArguments (givenWords args text) hostlistNew = .ok hl → hl.Exact ∧
      ¬NameClash hl.ranges) :
    ((∃ inputted, cmdlineNodes ndebug qsort args stdin = .ok inputted) ↔
        (args.head? = some ['-'] → text.length < whatsupBufferlen) ∧ ∀ word ∈ givenWords args text,
          AcceptedWord word) ∧
      ∀ inputted, cmdlineNodes ndebug qsort args stdin = .ok inputted →
        inputted.hosts.Nodup ∧ (∀ name, name ∈ inputted.hosts ↔ ∃ word ∈ givenWords args text,
          name ∈ nodeHosts word) ∧
          (inputted.hosts ≠ [] → (∀ name ∈ inputted.hosts, AskableName name) →
            inputted.Given ∧ inputted.cutHosts = inputted.hosts) := by
  obtain ⟨hiff, hhosts⟩ :=
    pushArguments_iff (givenWords args text) hostlistNew hostlistNew_canonical.toValid hbelow
  -- the words are pushed, wherever they come from
  have harguments : ∀ hl, argumentNodes args stdin = .ok hl ↔
      (args.head? = some ['-'] → text.length < whatsupBufferlen) ∧
          pushArguments (givenWords args text) hostlistNew = .ok hl := by
    intro hl
    unfold argumentNodes givenWords
    split_ifs with hdash
    · rw [readNodesFromStdin_eq hsends]
      split_ifs with hlong
      · simp [hdash, hlong]
      · simp [hdash, not_le.mp hlong]
    · simp [hdash]
  have huniq : ∀ hl, pushArguments (givenWords args text) hostlistNew = .ok hl →
      ∃ inputted, hostlistUniq ndebug qsort hl = .ok inputted ∧ UniqueAs hl inputted ∧
          ∀ hr ∈ inputted.ranges, hr.Valid := by
    intro hl hpush
    obtain ⟨hexact, hclash⟩ := hclear hl hpush
    obtain ⟨hsound, hcount⟩ :=
      (tallied_pushArguments _ _ _ tallied_hostlistNew hpush).sound hexact.toOrderly
    obtain ⟨inputted, hrun, hunique⟩ := hostlistUniq_spec hqsort ndebug hexact hsound hcount
    exact ⟨inputted, hrun, hunique.mpr hclash,
      hostlistUniq_valid hqsort hexact hsound (hhosts hl hpush).1.ranges_valid hrun⟩
  simp only [cmdlineNodes, if_neg hargs, bind_eq_ok, mapError_eq_ok, harguments]
  constructor
  · rw [← hiff]
    constructor
    · rintro ⟨inputted, hl, ⟨hfits, hpush⟩, -⟩
      exact ⟨hfits, hl, hpush⟩
    · rintro ⟨hfits, hl, hpush⟩
      obtain ⟨inputted, hrun, -⟩ := huniq hl hpush
      exact ⟨inputted, hl, ⟨hfits, hpush⟩, hrun⟩
  · rintro inputted ⟨hl, ⟨-, hpush⟩, hrun⟩
    obtain ⟨other, hother, hunique, hvalid⟩ := huniq hl hpush
    obtain rfl := Except.ok.inj (hrun.symm.trans hother)
    obtain ⟨-, hpushed⟩ := hhosts hl hpush
    refine ⟨hunique.nodup, fun name ↦ ?_, fun hne hask ↦ ?_⟩
    · rw [hunique.mem_hosts, hpushed, hosts_hostlistNew, List.nil_append, List.mem_flatMap]
    · have hcut := cutHosts_of_shortSuffix fun name hname ↦ (hask name hname).short
      refine ⟨⟨hvalid, ?_, ?_, ?_, ?_⟩, hcut⟩
      · exact hcut ▸ fun name hname ↦ (hask name hname).plain
      · exact hcut ▸ fun name hname ↦ (hask name hname).nul_free
      · exact hcut ▸ hunique.nodup
      · rw [hostlistCount, hunique.nhosts_eq]
        exact_mod_cast List.length_pos_iff.mpr hne

/-- A standard input in two pieces, with an interruption, that gives a node twice. -/
def twicePieces : List InputEvent :=
  [.data "n1 n[2-".toList, .interrupted, .data "3]\nn1\n".toList]

theorem sends_twicePieces : Sends twicePieces "n1 n[2-3]\nn1\n".toList :=
  .data "n1 n[2-".toList (by decide) (.interrupted (.data "3]\nn1\n".toList (by decide) .nil))

/-- `whatsup -` with that standard input. -/
theorem cmdlineNodes_iff_twice :
    ((∃ inputted, cmdlineNodes false (insertionSort hostrangeCmp) ["-".toList] twicePieces =
      .ok inputted) ↔
        (["-".toList].head? = some ['-'] → "n1 n[2-3]\nn1\n".toList.length < whatsupBufferlen) ∧
          ∀ word ∈ givenWords ["-".toList] "n1 n[2-3]\nn1\n".toList, AcceptedWord word) ∧
      ∀ inputted, cmdlineNodes false (insertionSort hostrangeCmp) ["-".toList] twicePieces =
        .ok inputted →
        inputted.hosts.Nodup ∧
          (∀ name, name ∈ inputted.hosts ↔
            ∃ word ∈ givenWords ["-".toList] "n1 n[2-3]\nn1\n".toList, name ∈ nodeHosts word) ∧
          (inputted.hosts ≠ [] → (∀ name ∈ inputted.hosts, AskableName name) →
            inputted.Given ∧ inputted.cutHosts = inputted.hosts) := by
  have hwords : givenWords ["-".toList] "n1 n[2-3]\nn1\n".toList =
    ["n1".toList, "n[2-3]".toList, "n1".toList] := by decide
  have hpushed : pushArguments ["n1".toList, "n[2-3]".toList, "n1".toList] hostlistNew =
      .ok ⟨[hostrangeCreate "n".toList 1 3 1, hostrangeCreate "n".toList 1 1 1], 4⟩ := by rfl
  have hbelow : ∀ word ∈ ["n1".toList, "n[2-3]".toList, "n1".toList], BelowMax word := by
    intro word hword tok htok ranges hbracketed
    have hparse := hbracketed.2.2
    simp only [List.mem_cons, List.not_mem_nil, or_false] at hword
    rcases hword with rfl | rfl | rfl
    · obtain rfl : tok = "n1".toList := by simpa using (show tok ∈ ["n1".toList] from htok)
      exact absurd hbracketed.1 (by decide)
    · obtain rfl : tok = "n[2-3]".toList := by simpa using (show tok ∈ ["n[2-3]".toList] from htok)
      obtain rfl :=
        Except.ok.inj
        ((show parseRangeList maxRanges (rangesText "n[2-3]".toList) =
        .ok [⟨2, 3, 1⟩] from rfl).symm.trans hparse)
      decide
    · obtain rfl : tok = "n1".toList := by simpa using (show tok ∈ ["n1".toList] from htok)
      exact absurd hbracketed.1 (by decide)
  refine cmdlineNodes_iff (by decide) sends_twicePieces (hwords ▸ hbelow) isSort_insertionSort ?_
  rw [hwords, hpushed]
  rintro hl hsame
  obtain rfl := Except.ok.inj hsame
  exact ⟨⟨⟨by decide +kernel, by decide +kernel⟩, by decide +kernel⟩, by decide +kernel⟩

end Whatsup
