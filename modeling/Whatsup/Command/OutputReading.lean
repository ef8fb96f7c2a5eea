import Whatsup.Command.Output

/-!
# Reading what `whatsup` prints

A script reads the output of `whatsup`: it splits it at line ends and at the character between the
names, or takes it for a host expression, and the counts for numbers. `outputMode_reads` says that
this gives what was to be printed, in every format: exactly the nodes that are up and those that are
down, and their numbers. It also says when there is an output at all.
-/

set_option autoImplicit false
set_option relaxedAutoImplicit false

namespace Whatsup

open CLib

/-! ### Names in a buffer -/

/-- Assumes: rounds for all commas. The loop puts the separator in place of each. -/
theorem convertCommas_eq {separator : Char} (hseparator : separator ≠ ',') (rounds : ℕ) :
    ∀ tbuf : List Char, tbuf.count ',' ≤ rounds →
      convertCommas separator rounds tbuf = tbuf.map fun c ↦ if c = ',' then separator else c := by
  have hnone : ∀ tbuf : List Char, ',' ∉ tbuf →
      tbuf.map (fun c ↦ if c = ',' then separator else c) = tbuf := by
    intro tbuf hmem
    refine (List.map_congr_left fun c hc ↦ ?_).trans tbuf.map_id
    exact if_neg fun (h : c = ',') ↦ hmem (h ▸ hc)
  induction rounds with
  | zero =>
    intro tbuf hcount
    rw [convertCommas, hnone tbuf (List.count_eq_zero.mp (Nat.le_zero.mp hcount))]
  | succ rounds ih =>
    intro tbuf hcount
    rw [convertCommas]
    cases hfind : tbuf.findIdx? (· = ',') with
    | none =>
      rw [hnone tbuf fun hmem ↦ ?_]
      have hall := List.findIdx?_eq_none_iff.mp hfind ',' hmem
      simp at hall
    | some ptr =>
      obtain ⟨hlt, hcomma, -⟩ := List.findIdx?_eq_some_iff_getElem.mp hfind
      have hsplit : tbuf = tbuf.take ptr ++ ',' :: tbuf.drop (ptr + 1) := by
        rw [← of_decide_eq_true hcomma, List.getElem_cons_drop, List.take_append_drop]
      have hset : tbuf.set ptr separator = tbuf.take ptr ++ separator :: tbuf.drop (ptr + 1) :=
        List.set_eq_take_append_cons_drop.trans (if_pos hlt)
      simp only
      rw [ih, hset]
      · conv_rhs => rw [hsplit]
        simp
      · rw [hset, List.count_append, List.count_cons_of_ne hseparator]
        rw [hsplit, List.count_append, List.count_cons_self] at hcount
        omega

/-- Assumes: texts without commas. With another separator in place of the commas, they are joined by
that. -/
theorem map_intercalate {separator : Char} {names : List (List Char)}
    (hcomma : ∀ name ∈ names, ',' ∉ name) :
    ([','].intercalate names).map (fun c ↦ if c = ',' then separator else c) =
      [separator].intercalate names := by
  have hname : ∀ name : List Char, ',' ∉ name →
      name.map (fun c ↦ if c = ',' then separator else c) = name := fun name hmem ↦
    (List.map_congr_left fun c hc ↦ if_neg fun (h : c = ',') ↦ hmem (h ▸ hc)).trans name.map_id
  induction names with
  | nil => rfl
  | cons first rest ih =>
    obtain ⟨hfirst, hrest⟩ := List.forall_mem_cons.mp hcomma
    cases rest with
    | nil => rw [List.intercalate_singleton, List.intercalate_singleton, hname first hfirst]
    | cons second rest =>
      rw [intercalate_cons_cons, intercalate_cons_cons, List.map_append, List.map_append, ih hrest,
        hname first hfirst]
      rfl

/-- A canonical list has no range whose loop goes on for ever. -/
theorem Hostlist.Canonical.bounds {hl : Hostlist} (hcanonical : hl.Canonical) :
    ∀ hr ∈ hl.ranges, hr.lo ≤ hr.hi ∧ hr.hi ≤ ulongMax ∧ ¬hr.Endless := fun hr hmem ↦ by
  have hr_canonical := hcanonical.ranges_canonical hr hmem
  have hhi := hr_canonical.hi_le
  have hsmall : maxHostSuffix < ulongMax := by decide
  refine ⟨hr_canonical.lo_le_hi, by omega, fun hends ↦ ?_⟩
  rw [hends.2] at hhi
  omega

section

variable {hl : Hostlist} (hcanonical : hl.Canonical) {n : ℕ} {buf : List Char}
    (hbuf : buf.length = n) (hint : n < 2147483648)

include hcanonical hbuf hint

/-- Assumes: a canonical list whose text fits. `hostlist_deranged_string` writes it. -/
theorem hostlistDerangedString_fits (hfits : (derangedText hl.ranges).length < n) :
    ∃ len buf', hostlistDerangedString hl n buf = some (len, buf') ∧ 0 ≤ len ∧
      derangedText hl.ranges ++ ['\x00'] <+: buf' := by
  by_cases hempty : hl.ranges = []
  · obtain ⟨buf1, hend, -⟩ := writeChar_fits buf 0 '\x00' (by omega)
    have htext : derangedText hl.ranges = [] := by rw [hempty]; rfl
    refine ⟨0, buf1, ?_, le_rfl, ?_⟩
    · unfold hostlistDerangedString
      rw [hempty, derangedLoop]
      simp only [Option.bind_eq_bind, Option.bind_some, Nat.zero_sub, hend]
      rw [if_neg (by simp; omega)]
      rfl
    · rw [htext]
      exact writeChar_printed (List.nil_prefix : [] <+: buf) hend
  · have hlo : ∀ hr ∈ hl.ranges, hr.lo ≤ hr.hi := fun hr hmem ↦ (hcanonical.bounds hr hmem).1
    have hlength := length_punctuated hlo hempty
    obtain ⟨buf1, hloop, hsize, hprinted⟩ :=
      derangedLoop_start hlo (fun hr hmem ↦ (hcanonical.bounds hr hmem).2.1) hbuf
      (List.append_nil _).symm (fun hr hmem ↦ (hcanonical.bounds hr hmem).2.2) (by omega) (by omega)
    obtain ⟨buf2, hend, -⟩ := writeChar_fits buf1 (derangedText hl.ranges).length '\x00' (by omega)
    rw [hlength, derangedLoop] at hloop
    rw [punctuated_hostsOf hlo hempty] at hprinted
    refine ⟨(derangedText hl.ranges).length, buf2, ?_, Int.natCast_nonneg _,
      writeChar_printed ((List.prefix_append _ _).trans hprinted) hend⟩
    rw [hostlistDerangedString, hloop]
    simp only [Option.bind_eq_bind, Option.bind_some, Nat.add_sub_cancel, hend]
    rw [if_neg (by simp; omega)]
    rfl

/-- Assumes: a canonical list, printed with a result that is not negative. The text fits. -/
theorem derangedText_lt (hn : 0 < n) {len : ℤ} {buf' : List Char}
    (h : hostlistDerangedString hl n buf = some (len, buf'))
    (hlen : 0 ≤ len) : (derangedText hl.ranges).length < n := by
  by_contra hlong
  have hlo : ∀ hr ∈ hl.ranges, hr.lo ≤ hr.hi := fun hr hmem ↦ (hcanonical.bounds hr hmem).1
  have hmax : ∀ hr ∈ hl.ranges, hr.hi ≤ ulongMax := fun hr hmem ↦ (hcanonical.bounds hr hmem).2.1
  have hne : hl.ranges ≠ [] := by
    intro hempty
    rw [hempty] at hlong
    exact hlong hn
  have hlength := length_punctuated hlo hne
  obtain ⟨⟨len1, truncated, buf1⟩, hloop, h⟩ := Option.bind_eq_some_iff.mp h
  by_cases hoverruns : Overruns n hl.ranges
  · rw [derangedLoop_overruns hlo hmax hbuf (Or.inl hint) hoverruns] at hloop
    exact absurd hloop (by simp)
  · obtain ⟨buf2, hcut, -⟩ :=
      derangedLoop_truncates hlo hmax hbuf hn hint hoverruns (Or.inr (by omega))
    obtain ⟨rfl, rfl, rfl⟩ : n = len1 ∧ true = truncated ∧ buf2 = buf1 := by
      simpa using hcut.symm.trans hloop
    obtain ⟨buf3, -, h⟩ := Option.bind_eq_some_iff.mp h
    rw [if_pos (Or.inl rfl)] at h
    exact absurd ((Prod.mk.inj (Option.some.inj h)).1 ▸ hlen) (by decide)

end

/-! ### What `_output_nodes` prints -/

/-- A list of plain names without NUL or line ends, as whatsup makes it of a text. -/
structure Hostlist.Listed (hl : Hostlist) (text : List Char) : Prop where
  created : hostlistCreate text = .ok hl
  canonical : hl.Canonical
  plain : ∀ name ∈ hl.hosts, PlainName name
  nul_free : ∀ name ∈ hl.hosts, '\x00' ∉ name

/-- The names of a list, joined by a separator. -/
def joined (separator : Char) (names : List (List Char)) : List Char :=
  [separator].intercalate names

/-- A plain name has no comma. -/
theorem PlainName.no_comma {name : List Char} (h : PlainName name) : ',' ∉ name := fun hmem ↦
  absurd (h.plain ',' hmem).1 (by decide)

/-- Assumes: a text of plain names. With a separator, `_output_nodes` prints the names exactly if
they fit into the buffer with commas between them; between them and at the end stands what is to
stand there. -/
theorem outputNodes_eq_ok {hl : Hostlist} {nodebuf : List Char} (hlisted : hl.Listed nodebuf)
    {options : WhatsupOptions}
    {separator : Char} (hseparator : options.outputType.separator = some separator)
    {text : List Char} :
    outputNodes options nodebuf = .ok text ↔ (derangedText hl.ranges).length < whatsupBufferlen ∧
      text = (if options.updownOutput = .upAndDown ∧ separator = '\n' then ['\n'] else []) ++
        joined separator hl.hosts ++ ['\n'] := by
  have hbuf : clearedBuffer.length = whatsupBufferlen := List.length_replicate
  have hint : whatsupBufferlen < 2147483648 := by decide
  have hcomma : ∀ name ∈ hl.hosts, ',' ∉ name :=
    fun name hname ↦ (hlisted.plain name hname).no_comma
  have hmap : createListed nodebuf = .ok hl := by
    rw [createListed, hlisted.created]
    rfl
  have hnames : ∀ buf', derangedText hl.ranges ++ ['\x00'] <+: buf' →
      (if separator ≠ ',' then convertCommas separator (cString buf').length (cString buf')
        else cString buf') =
        joined separator hl.hosts := by
    rintro buf' ⟨rest, hrest⟩
    have hstring : cString buf' = derangedText hl.ranges := by
      rw [List.append_assoc, List.singleton_append] at hrest
      rw [← hrest]
      refine (cut_append rest fun c hc hnull ↦ ?_).1
      rw [hnull] at hc
      rcases mem_intercalate hc with hsep | ⟨name, hname, hmem⟩
      · exact absurd hsep (by decide)
      · exact hlisted.nul_free name hname hmem
    rw [hstring]
    split_ifs with hsep
    · rw [convertCommas_eq hsep _ _ List.count_le_length]
      exact map_intercalate hcomma
    · rw [not_not.mp hsep]
      rfl
  unfold outputNodes
  rw [hseparator]
  simp only [hmap, bind, Except.bind]
  constructor
  · intro hrun
    cases hprint : hostlistDerangedString hl whatsupBufferlen clearedBuffer with
    | none =>
      rw [hprint] at hrun
      exact absurd hrun (by simp)
    | some printed =>
      rw [hprint] at hrun
      simp only at hrun
      by_cases hneg : printed.1 < 0
      · rw [if_pos hneg] at hrun
        exact absurd hrun (by simp)
      · have hfits :=
          derangedText_lt hlisted.canonical hbuf hint (by decide) hprint (not_lt.mp hneg)
        obtain ⟨len, buf', hother, -, hprefix⟩ :=
          hostlistDerangedString_fits hlisted.canonical hbuf hint hfits
        obtain rfl := Option.some.inj (hprint.symm.trans hother)
        rw [if_neg hneg, hnames buf' hprefix] at hrun
        exact ⟨hfits, (Except.ok.inj hrun).symm⟩
  · rintro ⟨hfits, rfl⟩
    obtain ⟨len, buf', hprint, hlen, hprefix⟩ :=
      hostlistDerangedString_fits hlisted.canonical hbuf hint hfits
    rw [hprint]
    simp only
    rw [if_neg (not_lt.mpr hlen), hnames buf' hprefix]

/-! ### Numbers -/

/-- Assumes: a positive number and enough rounds. `_log10` counts the digits behind the first. -/
theorem log10Loop_add_one (rounds : ℕ) :
    ∀ num count, 0 < num → num ≤ rounds → log10Loop rounds num count + 1 =
      count + numDigits num := by
  induction rounds with
  | zero => exact fun num _ hpos hle ↦ absurd hpos (by omega)
  | succ rounds ih =>
    intro num count hpos hle
    rw [log10Loop]
    split_ifs with hmore
    · rw [ih (num / 10) (count + 1) hmore (by omega), numDigits_div_ten (by omega : 10 ≤ num)]
      omega
    · rw [numDigits_of_lt_ten (by omega)]

/-- The number of digits of a count. -/
theorem log10_add_one (count : ℕ) : log10 count + 1 = numDigits count := by
  rcases Nat.eq_zero_or_pos count with rfl | hpos
  · rfl
  · rw [log10, if_pos (by exact_mod_cast hpos), Int.toNat_natCast,
      log10Loop_add_one count count 0 hpos le_rfl, Nat.zero_add]

/-- Both counts are written as wide as the larger one. -/
theorem formatWidth_eq (upCount downCount : ℕ) : formatWidth upCount downCount =
    numDigits (max upCount downCount) := by
  unfold formatWidth
  split_ifs with hmore
  · rw [log10_add_one, max_eq_left (by omega)]
  · rw [log10_add_one, max_eq_right (by omega)]

/-- A count in decimal. -/
theorem decimal_natCast (count : ℕ) : decimal count = padded 0 count := by
  rw [decimal, if_neg (by omega), padded, Nat.zero_sub]
  rfl

/-- The two counts stand in one column. -/
theorem length_countText (up : Bool) {upCount downCount : ℕ} (endstr : List Char) {count : ℕ}
    (hcount : count = upCount ∨ count = downCount) :
    (countText up (formatWidth upCount downCount) endstr count).length =
      6 + numDigits (max upCount downCount) + endstr.length := by
  have hle : numDigits count ≤ numDigits (max upCount downCount) := numDigits_mono (by omega)
  have hdigits : (decimal count).length = numDigits count := by
    rw [decimal_natCast, length_padded]
    omega
  have hwidth : (decimalIn (formatWidth upCount downCount) count).length =
      numDigits (max upCount downCount) := by
    rw [decimalIn, List.length_append, List.length_replicate, hdigits, formatWidth_eq]
    omega
  rw [countText, List.length_append, List.length_append, hwidth]
  cases up <;> rfl

/-! ### A script that reads the output -/

/-- Names between separators. -/
def readNames (separator : Char) (text : List Char) : List (List Char) :=
  if text = [] then [] else text.splitOn separator

/-- The nodes of a text. -/
def readNodes (outputType : OutputType) (text : List Char) : Option (List (List Char)) :=
  match outputType.separator with
  | none => denotedNames text
  | some separator => some (readNames separator text)

/-- The number in a line behind a colon, and what is behind the number, a colon and a blank. -/
def readLabelled (line : List Char) : Option (ℕ × List Char) :=
  let number := (((line.dropWhile (· ≠ ':')).drop 1).dropWhile (· = ' '))
  (numeral (number.takeWhile Char.isDigit)).map fun count ↦
    (count, (number.dropWhile Char.isDigit).drop 2)

/-- The number in a line behind a blank. -/
def readCountLine (line : List Char) : Option ℕ :=
  numeral (((line.dropWhile (· ≠ ' ')).drop 1).takeWhile Char.isDigit)

/-- The numbers of two lines, with the nodes behind them. -/
def readTwoLines (outputType : OutputType) (text : List Char) :
    Option ((ℕ × List (List Char)) × (ℕ × List (List Char))) :=
  match text.splitOn '\n' with
  | [upLine, downLine, []] => do
    let (upCount, upText) ← readLabelled upLine
    let (downCount, downText) ← readLabelled downLine
    let upNames ← readNodes outputType upText
    let downNames ← readNodes outputType downText
    return ((upCount, upNames), (downCount, downNames))
  | _ => none

/-- The numbers and the nodes of two blocks of lines, with a node in each line. -/
def readTwoBlocks (text : List Char) : Option ((ℕ × List (List Char)) × (ℕ × List (List Char))) :=
  match text.splitOn '\n' with
  | [] => none
  | upLine :: lines =>
    match (lines.dropWhile (· ≠ [])).dropWhile (· = []) with
    | [] => none
    | downLine :: later => do
      let upCount ← readCountLine upLine
      let downCount ← readCountLine downLine
      return ((upCount, lines.takeWhile (· ≠ [])), (downCount, later.takeWhile (· ≠ [])))

/-- The numbers and the nodes of an output that has both. -/
def readBoth (outputType : OutputType) (text : List Char) :
    Option ((ℕ × List (List Char)) × (ℕ × List (List Char))) :=
  if outputType = .newline then readTwoBlocks text else readTwoLines outputType text

/-- The numbers of two lines. -/
def readCounts (text : List Char) : Option (ℕ × ℕ) :=
  match text.splitOn '\n' with
  | [upLine, downLine, []] => do
    let (upCount, _) ← readLabelled upLine
    let (downCount, _) ← readLabelled downLine
    return (upCount, downCount)
  | _ => none

/-- The output is read as the nodes that are up and those that are down, as far as the options ask
for them. -/
def WhatsupOptions.Reads (options : WhatsupOptions) (text : List Char)
    (upNames downNames : List (List Char)) : Prop :=
  match options.countOnlyOutput, options.updownOutput with
  | false, .upAndDown => readBoth options.outputType text =
    some ((upNames.length, upNames), (downNames.length, downNames))
  | false, .upNodes => readNodes options.outputType text.dropLast = some upNames
  | false, .downNodes => readNodes options.outputType text.dropLast = some downNames
  | true, .upAndDown => readCounts text = some (upNames.length, downNames.length)
  | true, .upNodes => numeral text.dropLast = some upNames.length
  | true, .downNodes => numeral text.dropLast = some downNames.length

/-! ### Reading back -/

/-- Assumes: names that are not empty and do not have the separator. Joined by it, they are read
back. -/
theorem readNames_joined {separator : Char} {names : List (List Char)}
    (h : ∀ name ∈ names, name ≠ [] ∧ separator ∉ name) :
    readNames separator (joined separator names) = names := by
  unfold readNames joined
  cases names with
  | nil => rfl
  | cons first rest =>
    have hne : [separator].intercalate (first :: rest) ≠ [] := by
      have hfirst := (h first List.mem_cons_self).1
      cases rest with
      | nil => rwa [List.intercalate_singleton]
      | cons second rest => exact fun hnil ↦ hfirst (List.append_eq_nil_iff.mp hnil).1
    rw [if_neg hne, List.splitOn_intercalate separator (fun name hname ↦ (h name hname).2)
      (List.cons_ne_nil _ _)]

/-- What is neither a digit nor a notation nor in a name is not in a text. -/
theorem mem_rangedText {hl : Hostlist} (hfilled : hl.Filled) {c : Char}
    (h : c ∈ rangedText hl.ranges) :
    c.isDigit = true ∨ c ∈ [',', '-', '[', ']'] ∨ ∃ name ∈ hl.hosts, c ∈ name := by
  have hnumber : ∀ hr, c ∈ numberText hr → c.isDigit = true ∨ c ∈ [',', '-', '[', ']'] :=
      fun hr hmem ↦
    (mem_numberText hmem).imp_right fun hdash ↦ by rw [hdash]; decide
  rcases mem_intercalate h with rfl | ⟨text, htext, hmem⟩
  · exact Or.inr (Or.inl (by decide))
  · obtain ⟨group, hgroup, rfl⟩ := List.mem_map.mp htext
    have hpfx : ∀ hr ∈ group, c ∈ hr.pfx → ∃ name ∈ hl.hosts, c ∈ name := fun hr hr_mem hc ↦ by
      have hinside : hr ∈ hl.ranges := by
        rw [← List.flatten_splitBy hostrangeWithinRange hl.ranges]
        exact List.mem_flatten.mpr ⟨group, hgroup, hr_mem⟩
      obtain ⟨name, hname, hstart⟩ :=
        HostRange.exists_host (hfilled.canonical.ranges_canonical hr hinside).lo_le_hi
      exact ⟨name, List.mem_flatMap.mpr ⟨hr, hinside, hname⟩, hstart.subset hc⟩
    cases group with
    | nil => exact absurd hmem List.not_mem_nil
    | cons hr rest =>
      rw [groupText] at hmem
      split_ifs at hmem with hbracket
      · rw [List.append_assoc] at hmem
        rcases List.mem_append.mp hmem with hmem | hmem
        · exact Or.inr (Or.inr (hpfx hr List.mem_cons_self hmem))
        · rcases List.mem_cons.mp hmem with rfl | hmem
          · exact Or.inr (Or.inl (by decide))
          · rcases List.mem_append.mp hmem with hmem | hmem
            · rcases mem_intercalate hmem with rfl | ⟨text, htext, hmem⟩
              · exact Or.inr (Or.inl (by decide))
              · obtain ⟨other, -, rfl⟩ := List.mem_map.mp htext
                exact (hnumber other hmem).imp_right Or.inl
            · rw [List.mem_singleton.mp hmem]
              exact Or.inr (Or.inl (by decide))
      · rcases List.mem_append.mp hmem with hmem | hmem
        · exact Or.inr (Or.inr (hpfx hr List.mem_cons_self hmem))
        · exact (hnumber hr hmem).imp_right Or.inl

/-- A count behind a label and blanks is read back, with what is behind it. -/
theorem readLabelled_countText (up : Bool) (width count : ℕ) {rest : List Char}
    (hrest : ∀ c ∈ rest.head?, c.isDigit = false) :
    readLabelled (countText up width [] count ++ rest) = some (count, rest.drop 2) := by
  have hlabel : (countText up width [] count ++ rest).dropWhile (· ≠ ':') =
      (if up then ":   ".toList else ": ".toList) ++ (decimalIn width count ++ rest) := by
    cases up <;> simp [countText]
  have hdigit : ∀ c ∈ padded 0 count, c.isDigit = true := fun c hc ↦ isDigit_of_mem_padded hc
  obtain ⟨first, digits, hfirst⟩ := List.exists_cons_of_ne_nil (padded_ne_nil 0 count)
  have hblank : first ≠ ' ' := by
    rintro rfl
    exact absurd (hdigit ' ' (by rw [hfirst]; exact List.mem_cons_self)) (by decide)
  have hnumber :
    (((if up then ":   ".toList else ": ".toList) ++ (decimalIn width count ++ rest)).drop
    1).dropWhile (· = ' ') =
      padded 0 count ++ rest := by
    have hblanks : ∀ n : ℕ, (List.replicate n ' ' ++ (padded 0 count ++ rest)).dropWhile (· = ' ') =
        padded 0 count ++ rest := by
      intro n
      rw [List.dropWhile_append_of_pos fun c hc ↦ by simp [List.eq_of_mem_replicate hc], hfirst,
        List.cons_append,
        List.dropWhile_cons_of_neg (by simpa using hblank)]
    have hpadded := decimal_natCast count
    cases up with
    | true =>
      have h := hblanks (3 + (width - (decimal count).length))
      rw [← List.replicate_append_replicate, List.append_assoc] at h
      rw [decimalIn, List.append_assoc, hpadded] at *
      exact h
    | false =>
      have h := hblanks (1 + (width - (decimal count).length))
      rw [← List.replicate_append_replicate, List.append_assoc] at h
      rw [decimalIn, List.append_assoc, hpadded] at *
      exact h
  have htail : rest.takeWhile Char.isDigit = [] ∧ rest.dropWhile Char.isDigit = rest := by
    cases rest with
    | nil => exact ⟨rfl, rfl⟩
    | cons c rest =>
      have hc := hrest c rfl
      exact ⟨List.takeWhile_cons_of_neg (by simp [hc]), List.dropWhile_cons_of_neg (by simp [hc])⟩
  unfold readLabelled
  simp only [hlabel, hnumber]
  rw [List.takeWhile_append_of_pos hdigit, List.dropWhile_append_of_pos hdigit, htail.1, htail.2,
    List.append_nil, numeral_padded]
  rfl

/-- A count between a blank and a colon is read back. -/
theorem readCountLine_countLine (up : Bool) (count : ℕ) : readCountLine (countLine up count) =
    some count := by
  have hlabel : (countLine up count).dropWhile (· ≠ ' ') = ' ' :: (padded 0 count ++ [':']) := by
    rw [← decimal_natCast]
    cases up <;> simp [countLine]
  unfold readCountLine
  rw [hlabel, List.drop_one, List.tail_cons, List.takeWhile_append_of_pos fun c hc ↦
    isDigit_of_mem_padded hc]
  exact (congrArg numeral (List.append_nil _)).trans (numeral_padded 0 count)

/-! ### Lines -/

/-- A count has no line end in it. -/
theorem line_free_decimal (count : ℕ) : '\n' ∉ decimal count := fun hmem ↦ by
  rw [decimal_natCast] at hmem
  exact absurd (isDigit_of_mem_padded hmem) (by decide)

/-- A count behind a label and blanks has no line end in it. -/
theorem line_free_countText (up : Bool) (width count : ℕ) : '\n' ∉ countText up width [] count := by
  rw [countText, List.append_nil]
  refine List.not_mem_append (by cases up <;> decide)
    (List.not_mem_append (fun hmem ↦ ?_) (line_free_decimal count))
  exact absurd (List.eq_of_mem_replicate hmem) (by decide)

/-- A text behind a count. -/
theorem countText_append (up : Bool) (width count : ℕ) (endstr : List Char) :
    countText up width endstr count = countText up width [] count ++ endstr := by
  simp [countText]

/-- A list as it is made of a text that denotes its names, without line ends. -/
structure Hostlist.Shown (hl : Hostlist) (nodebuf : List Char) :
    Prop extends hl.Listed nodebuf where
  denoted : denotedNames nodebuf = some hl.hosts
  text_line_free : '\n' ∉ nodebuf
  names_line_free : ∀ name ∈ hl.hosts, '\n' ∉ name

/-- The text of the nodes without the line end behind it. -/
def shownText (outputType : OutputType) (hl : Hostlist) (nodebuf : List Char) : List Char :=
  match outputType.separator with
  | none => nodebuf
  | some separator => joined separator hl.hosts

section

variable {hl : Hostlist} {nodebuf : List Char} (hshown : hl.Shown nodebuf)

include hshown

/-- Assumes: a text of plain names. `_output_nodes` prints them exactly if they fit, should the
names be separated. -/
theorem outputNodes_shown {options : WhatsupOptions} {text : List Char} :
    outputNodes options nodebuf = .ok text ↔
      (options.outputType = .hostrange ∨ (derangedText hl.ranges).length < whatsupBufferlen) ∧
        text = (if options.updownOutput = .upAndDown ∧ options.outputType =
          .newline then ['\n'] else []) ++
          shownText options.outputType hl nodebuf ++ ['\n'] := by
  cases htype : options.outputType with
  | hostrange =>
    have hseparator : options.outputType.separator = none := by rw [htype]; rfl
    rw [outputNodes, hseparator]
    simp [shownText, OutputType.separator, eq_comm]
  | comma =>
    rw [outputNodes_eq_ok hshown.toListed (show options.outputType.separator = some ',' by
      rw [htype]; rfl)]
    simp [shownText, OutputType.separator]
  | newline =>
    rw [outputNodes_eq_ok hshown.toListed (show options.outputType.separator = some '\n' by
      rw [htype]; rfl)]
    simp [shownText, OutputType.separator]
  | space =>
    rw [outputNodes_eq_ok hshown.toListed (show options.outputType.separator = some ' ' by
      rw [htype]; rfl)]
    simp [shownText, OutputType.separator]

/-- No name is empty or has a separator in it. -/
theorem Hostlist.Shown.apart {outputType : OutputType} {separator : Char}
    (hseparator : outputType.separator = some separator) :
    ∀ name ∈ hl.hosts, name ≠ [] ∧ separator ∉ name := by
  intro name hname
  have hplain := hshown.plain name hname
  refine ⟨hplain.ne_nil, fun hmem ↦ ?_⟩
  cases outputType with
  | hostrange => exact absurd hseparator (by simp [OutputType.separator])
  | comma =>
    obtain rfl := Option.some.inj hseparator
    exact hplain.no_comma hmem
  | newline =>
    obtain rfl := Option.some.inj hseparator
    exact hshown.names_line_free name hname hmem
  | space =>
    obtain rfl := Option.some.inj hseparator
    exact absurd (hplain.plain ' ' hmem).1 (by decide)

/-- The text of the nodes is read back. -/
theorem readNodes_shownText (outputType : OutputType) :
    readNodes outputType (shownText outputType hl nodebuf) = some hl.hosts := by
  unfold readNodes shownText
  cases hseparator : outputType.separator with
  | none => exact hshown.denoted
  | some separator => exact congrArg some (readNames_joined (hshown.apart hseparator))

/-- Unless the nodes stand in lines of their own, their text is one line. -/
theorem line_free_shownText {outputType : OutputType} (htype : outputType ≠ .newline) :
    '\n' ∉ shownText outputType hl nodebuf := by
  have hjoined : ∀ separator, separator ≠ '\n' → '\n' ∉ joined separator hl.hosts := by
    intro separator hne hmem
    rw [joined, ← map_intercalate fun name hname ↦ (hshown.plain name hname).no_comma] at hmem
    obtain ⟨c, hc, hline⟩ := List.mem_map.mp hmem
    split_ifs at hline with hcomma
    · exact hne hline
    · obtain ⟨name, hname, hmem⟩ := (mem_intercalate hc).resolve_left hcomma
      exact hshown.names_line_free name hname (hline ▸ hmem)
  cases outputType with
  | hostrange => exact hshown.text_line_free
  | comma => exact hjoined ',' (by decide)
  | newline => exact absurd rfl htype
  | space => exact hjoined ' ' (by decide)

end

/-! ### Both kinds of nodes -/

/-- The counts and the texts of two lists. -/
structure NodeTexts.Shows (texts : NodeTexts) (upList downList : Hostlist) : Prop where
  up : upList.Shown (cString texts.upNodes)
  down : downList.Shown (cString texts.downNodes)
  upCount : texts.upCount = upList.hosts.length
  downCount : texts.downCount = downList.hosts.length

/-- Assumes: two lines without line ends in them. They are split again. -/
theorem splitOn_twoLines {first second : List Char} (hfirst : '\n' ∉ first)
    (hsecond : '\n' ∉ second) :
    (first ++ '\n' :: (second ++ ['\n'])).splitOn '\n' = [first, second, []] := by
  rw [List.splitOn_append_cons_self_of_not_mem hfirst,
    List.splitOn_append_cons_self_of_not_mem hsecond, List.splitOn_nil]

/-- Names in lines of their own, as a script splits them: no names are one empty line. -/
theorem splitOn_joined {names : List (List Char)} (h : ∀ name ∈ names, '\n' ∉ name) :
    (joined '\n' names).splitOn '\n' = if names = [] then [[]] else names := by
  split_ifs with hnames
  · rw [hnames]
    rfl
  · exact List.splitOn_intercalate '\n' h hnames

/-- Assumes: names that are not empty. In front of an empty line they are all the lines that are not
empty. -/
theorem takeWhile_nameLines {names : List (List Char)} (h : ∀ name ∈ names, name ≠ [])
    (lines : List (List Char)) :
    ((if names = [] then [[]] else names) ++ [] :: lines).takeWhile (· ≠ []) = names ∧
      (((if names = [] then [[]] else names) ++ [] :: lines).dropWhile (· ≠ [])).dropWhile (· =
        []) =
        lines.dropWhile (· = []) := by
  split_ifs with hnames
  · rw [hnames]
    exact ⟨rfl, rfl⟩
  · have hall : ∀ name ∈ names, (decide (name ≠ [])) = true :=
      fun name hname ↦ decide_eq_true (h name hname)
    rw [List.takeWhile_append_of_pos hall, List.dropWhile_append_of_pos hall]
    exact ⟨List.append_nil names, rfl⟩

section

variable {upList downList : Hostlist} {texts : NodeTexts} (hshows : texts.Shows upList downList)

include hshows

/-- The two lines with the counts and the nodes are read back. -/
theorem readTwoLines_eq {outputType : OutputType} (htype : outputType ≠ .newline) (width : ℕ) :
    readTwoLines outputType
        (countText true width ": ".toList texts.upCount ++
          (shownText outputType upList (cString texts.upNodes) ++ ['\n']) ++
          (countText false width ": ".toList texts.downCount ++
            (shownText outputType downList (cString texts.downNodes) ++ ['\n']))) =
      some ((upList.hosts.length, upList.hosts), (downList.hosts.length, downList.hosts)) := by
  have hline : ∀ (up : Bool) (count : ℕ) {text : List Char}, '\n' ∉ text →
      '\n' ∉ countText up width [] count ++ (": ".toList ++ text) ∧
        readLabelled (countText up width [] count ++ (": ".toList ++ text)) =
            some (count, text) := by
    intro up count text htext
    refine ⟨List.not_mem_append (line_free_countText up width count)
      (List.not_mem_append (by decide) htext), ?_⟩
    rw [readLabelled_countText up width count fun c hc ↦ by
      obtain rfl := Option.some.inj (show some ':' = some c from hc)
      rfl]
    rfl
  obtain ⟨hupLine, hup⟩ := hline true upList.hosts.length (line_free_shownText hshows.up htype)
  obtain ⟨hdownLine, hdown⟩ :=
    hline false downList.hosts.length (line_free_shownText hshows.down htype)
  have hsplit := splitOn_twoLines hupLine hdownLine
  rw [hshows.upCount, hshows.downCount, countText_append true, countText_append false]
  simp only [List.append_assoc, List.cons_append, List.nil_append] at hsplit hup hdown ⊢
  unfold readTwoLines
  rw [hsplit]
  simp only [hup, hdown, readNodes_shownText hshows.up, readNodes_shownText hshows.down,
    Option.bind_eq_bind, Option.bind_some]
  rfl

/-- The two blocks of lines with the counts and the nodes are read back. -/
theorem readTwoBlocks_eq :
    readTwoBlocks (countLine true texts.upCount ++ ('\n' :: (joined '\n' upList.hosts ++ ['\n']) ++
        '\n' :: (countLine false texts.downCount ++ '\n' ::
          (joined '\n' downList.hosts ++ ['\n'])))) =
      some ((upList.hosts.length, upList.hosts), (downList.hosts.length, downList.hosts)) := by
  have hcount : ∀ (up : Bool) (count : ℕ), '\n' ∉ countLine up count := fun up count ↦ by
    rw [countLine]
    exact List.not_mem_append (List.not_mem_append (by cases up <;> decide)
      (line_free_decimal count)) (by decide)
  have hdownLine : countLine false downList.hosts.length ≠ [] := by simp [countLine]
  have hsplit :
    (countLine true upList.hosts.length ++ '\n' ::
    (joined '\n' upList.hosts ++ '\n' :: ([] ++ '\n' ::
        (countLine false downList.hosts.length ++ '\n' ::
          (joined '\n' downList.hosts ++ ['\n']))))).splitOn '\n' =
      countLine true upList.hosts.length ::
        ((if upList.hosts = [] then [[]] else upList.hosts) ++ [] ::
        countLine false downList.hosts.length ::
            ((if downList.hosts = [] then [[]] else downList.hosts) ++ [[]])) := by
    rw [List.splitOn_append_cons_self_of_not_mem (hcount _ _), List.splitOn_append_cons_self,
      splitOn_joined hshows.up.names_line_free, List.splitOn_append_cons_self_of_not_mem
        List.not_mem_nil,
      List.splitOn_append_cons_self_of_not_mem (hcount _ _), List.splitOn_append_cons_self,
      splitOn_joined hshows.down.names_line_free, List.splitOn_nil]
  obtain ⟨hupNames, hrest⟩ :=
    takeWhile_nameLines (fun name hname ↦ (hshows.up.plain name hname).ne_nil)
    (countLine false downList.hosts.length ::
      ((if downList.hosts = [] then [[]] else downList.hosts) ++ [[]]))
  obtain ⟨hdownNames, -⟩ :=
    takeWhile_nameLines (fun name hname ↦ (hshows.down.plain name hname).ne_nil) []
  rw [List.dropWhile_cons_of_neg (by simpa using hdownLine)] at hrest
  rw [hshows.upCount, hshows.downCount]
  simp only [List.append_assoc, List.cons_append, List.nil_append] at hsplit ⊢
  unfold readTwoBlocks
  rw [hsplit]
  simp only [hrest, hupNames, hdownNames, readCountLine_countLine, Option.bind_eq_bind,
    Option.bind_some]
  rfl

/-- The two lines with the counts are read back. -/
theorem readCounts_eq (width : ℕ) :
    readCounts (countText true width ['\n'] texts.upCount ++ countText false width ['\n']
      texts.downCount) =
      some (upList.hosts.length, downList.hosts.length) := by
  have hline : ∀ (up : Bool) (count : ℕ), readLabelled (countText up width [] count) =
      some (count, []) := fun up count ↦ by
    have h :=
      readLabelled_countText up width count (show ∀ c ∈ ([] : List Char).head?,
      c.isDigit = false by simp)
    rwa [List.append_nil] at h
  have hsplit := splitOn_twoLines (line_free_countText true width upList.hosts.length)
    (line_free_countText false width downList.hosts.length)
  rw [hshows.upCount, hshows.downCount, countText_append true, countText_append false]
  simp only [List.append_assoc, List.cons_append, List.nil_append] at hsplit ⊢
  unfold readCounts
  rw [hsplit]
  simp only [hline, Option.bind_eq_bind, Option.bind_some]
  rfl

end

/-! ### The output of a loaded handle -/

/-- The names that are printed one by one fit into the buffer with commas between them. -/
def WhatsupOptions.Fits (options : WhatsupOptions) (upList downList : Hostlist) : Prop :=
  options.countOnlyOutput = true ∨ options.outputType = .hostrange ∨
    (options.updownOutput ≠ .downNodes → (derangedText upList.ranges).length < whatsupBufferlen) ∧
      (options.updownOutput ≠ .upNodes → (derangedText downList.ranges).length < whatsupBufferlen)

section

variable {upList downList : Hostlist} {texts : NodeTexts} (hshows : texts.Shows upList downList)
    {options : WhatsupOptions}

include hshows

/-- Assumes: texts of plain names. There is an output of the nodes exactly if their names fit. -/
theorem exists_outputBoth (hcounts : options.countOnlyOutput = false) :
    (∃ text, outputBoth options texts = .ok text) ↔ options.Fits upList downList := by
  have hup : (∃ text, outputNodes options (cString texts.upNodes) = .ok text) ↔
      options.outputType = .hostrange ∨ (derangedText upList.ranges).length < whatsupBufferlen :=
    ⟨fun ⟨_, h⟩ ↦ ((outputNodes_shown hshows.up).mp h).1, fun h ↦
      ⟨_, (outputNodes_shown hshows.up).mpr ⟨h, rfl⟩⟩⟩
  have hdown : (∃ text, outputNodes options (cString texts.downNodes) = .ok text) ↔
      options.outputType = .hostrange ∨ (derangedText downList.ranges).length < whatsupBufferlen :=
    ⟨fun ⟨_, h⟩ ↦ ((outputNodes_shown hshows.down).mp h).1, fun h ↦
      ⟨_, (outputNodes_shown hshows.down).mpr ⟨h, rfl⟩⟩⟩
  unfold outputBoth WhatsupOptions.Fits
  rw [hcounts]
  cases options.updownOutput with
  | upNodes =>
    rw [hup]
    simp
  | downNodes =>
    rw [hdown]
    simp
  | upAndDown =>
    have hboth : (∃ text, (do
        let upText ← outputNodes options (cString texts.upNodes)
        let downText ← outputNodes options (cString texts.downNodes)
        return outputCount options texts true ++ upText ++
          (if options.outputType = .newline then ['\n'] else []) ++
          outputCount options texts false ++ downText : Except OutputExit (List Char)) = .ok text) ↔
        (∃ text, outputNodes options (cString texts.upNodes) = .ok text) ∧
          ∃ text, outputNodes options (cString texts.downNodes) = .ok text := by
      constructor
      · rintro ⟨text, h⟩
        obtain ⟨upText, hupText, h⟩ := bind_eq_ok.mp h
        obtain ⟨downText, hdownText, -⟩ := bind_eq_ok.mp h
        exact ⟨⟨upText, hupText⟩, downText, hdownText⟩
      · rintro ⟨⟨upText, hupText⟩, downText, hdownText⟩
        exact ⟨_, bind_eq_ok.mpr ⟨upText, hupText, bind_eq_ok.mpr ⟨downText, hdownText, rfl⟩⟩⟩
    simp only
    rw [hboth, hup, hdown, ← or_and_left]
    simp

/-- Assumes: texts of plain names. An output of the nodes is read back. -/
theorem outputBoth_reads (hcounts : options.countOnlyOutput = false) {text : List Char}
    (hrun : outputBoth options texts = .ok text) :
      options.Reads text upList.hosts downList.hosts := by
  unfold outputBoth at hrun
  unfold WhatsupOptions.Reads
  rw [hcounts]
  cases hupdown : options.updownOutput with
  | upNodes =>
    rw [hupdown] at hrun
    obtain ⟨-, rfl⟩ := (outputNodes_shown hshows.up).mp hrun
    rw [hupdown, if_neg (by simp), List.nil_append, List.dropLast_concat]
    exact readNodes_shownText hshows.up _
  | downNodes =>
    rw [hupdown] at hrun
    obtain ⟨-, rfl⟩ := (outputNodes_shown hshows.down).mp hrun
    rw [hupdown, if_neg (by simp), List.nil_append, List.dropLast_concat]
    exact readNodes_shownText hshows.down _
  | upAndDown =>
    rw [hupdown] at hrun
    obtain ⟨upText, hupText, hrun⟩ := bind_eq_ok.mp hrun
    obtain ⟨downText, hdownText, hdone⟩ := bind_eq_ok.mp hrun
    obtain ⟨-, rfl⟩ := (outputNodes_shown hshows.up).mp hupText
    obtain ⟨-, rfl⟩ := (outputNodes_shown hshows.down).mp hdownText
    rw [← Except.ok.inj hdone]
    unfold readBoth outputCount
    by_cases htype : options.outputType = .newline
    · simp only [htype, if_true, hupdown, and_self]
      have hread := readTwoBlocks_eq hshows
      simp only [shownText, OutputType.separator, List.append_assoc, List.cons_append,
        List.nil_append] at hread ⊢
      exact hread
    · simp only [htype, if_false, hupdown, and_false, List.nil_append, List.append_nil, if_true]
      have hread := readTwoLines_eq hshows htype (formatWidth texts.upCount texts.downCount)
      simp only [List.append_assoc] at hread ⊢
      exact hread

/-- Assumes: texts of plain names. An output of the counts is read back. -/
theorem outputCounts_reads (hcounts : options.countOnlyOutput = true) :
    options.Reads (outputCounts options texts) upList.hosts downList.hosts := by
  have hnumeral : ∀ count : ℕ, numeral (decimal count ++ ['\n']).dropLast = some count :=
      fun count ↦ by
    rw [List.dropLast_concat, decimal_natCast, numeral_padded]
  unfold WhatsupOptions.Reads outputCounts
  rw [hcounts]
  cases options.updownOutput with
  | upNodes =>
    simp only [hshows.upCount]
    exact hnumeral _
  | downNodes =>
    simp only [hshows.downCount]
    exact hnumeral _
  | upAndDown => exact readCounts_eq hshows _

/-- Assumes: texts of plain names, and an output that is not of times. There is one exactly if the
names fit, and it is read back. -/
theorem outputText_reads (htimes : options.lastUpTime = false) (timebuf : ℕ → List Char)
    (w : World) :
    ((∃ text, outputText timebuf options texts w = .ok text) ↔ options.Fits upList downList) ∧
      ∀ text, outputText timebuf options texts w = .ok text →
        options.Reads text upList.hosts downList.hosts := by
  unfold outputText
  rw [htimes, if_neg Bool.false_ne_true]
  cases hcounts : options.countOnlyOutput with
  | true =>
    rw [if_pos rfl]
    refine ⟨iff_of_true ⟨_, rfl⟩ (Or.inl hcounts), fun text hrun ↦ ?_⟩
    rw [← Except.ok.inj hrun]
    exact outputCounts_reads hshows hcounts
  | false =>
    rw [if_neg Bool.false_ne_true]
    exact ⟨exists_outputBoth hshows hcounts, fun text hrun ↦ outputBoth_reads hshows hcounts hrun⟩

end

/-- The nodes that `whatsup` is asked about, with a status: the given ones, if there are any, or
else all. -/
def World.asked (c : Cluster) (names : Bool → List (List Char)) (w : World) (inputted : Hostlist)
    (up : Bool) : List (List Char) :=
  if 0 < hostlistCount inputted then w.given c names inputted up else names up

/-- Assumes: a filled list without NUL and line ends in its names, and a list made of its text. The
text denotes its names. -/
theorem shown_of_printed {hl new : Hostlist} {text : List Char} (hfilled : hl.Filled)
    (hchars : ∀ name ∈ hl.hosts, '\x00' ∉ name ∧ '\n' ∉ name)
    (htext : cString text = rangedText hl.ranges)
    (hfits : (rangedText hl.ranges).length < whatsupBufferlen)
    (hcreate : hostlistCreate (cString text) = .ok new) :
    new.Shown (cString text) ∧ new.hosts = hl.hosts ∧ hostlistCount new = new.hosts.length := by
  have hread := readBack_of_accepted hfilled hfits (createNodes_eq_ok.mpr (htext ▸ hcreate))
  refine ⟨⟨⟨hcreate, hread.canonical, ?_, ?_⟩, ?_, ?_, ?_⟩, hread.hosts_eq, ?_⟩
  · exact hread.hosts_eq ▸ hfilled.plain
  · exact hread.hosts_eq ▸ fun name hname ↦ (hchars name hname).1
  · rw [htext, hread.hosts_eq]
    exact denotedNames_rangedText hfilled.printable
  · rw [htext]
    intro hmem
    rcases mem_rangedText hfilled hmem with hdigit | hnotation | ⟨name, hname, hmem⟩
    · exact absurd hdigit (by decide)
    · exact absurd hnotation (by decide)
    · exact (hchars name hname).2 hmem
  · exact hread.hosts_eq ▸ fun name hname ↦ (hchars name hname).2
  · rw [hostlistCount, hread.canonical.nhosts_eq]
    exact toInt_eq_self (by omega) (by exact_mod_cast hread.small)

section

variable {c : Cluster} {names : Bool → List (List Char)} {w : World} {inputted : Hostlist}
  (hgiven : 0 < hostlistCount inputted → inputted.Given) {sorting : Sorting}
    (hqsort : IsSort hostrangeCmp sorting.qsort)
  (hqueried : w.Queried c names) (hchars : ∀ up, ∀ name ∈ w.asked c names inputted up,
    '\x00' ∉ name ∧ '\n' ∉ name)

include hgiven hqsort hqueried hchars

/-- What `_get_nodes` gives denotes the nodes that are asked about. -/
theorem getNodesOf_shown {up : Bool} {count : ℤ} {text : List Char} {w' : World}
    (hrun : getNodesOf sorting inputted up clearedBuffer w = .ok (count, text, w')) :
    w'.Queried c names ∧ w'.lib = w.lib ∧ ∃ new : Hostlist, new.Shown (cString text) ∧
      new.hosts.Perm (w.asked c names inputted up) ∧ count = new.hosts.length := by
  by_cases hcounted : 0 < hostlistCount inputted
  · obtain ⟨hqueried', hlib, -, sorted, new, hsorted, haccepted, htext, hcreate, hperm, hcount⟩ :=
      getNodesOf_spec (hgiven hcounted) hqsort hqueried hrun
    obtain ⟨hfilled, hsortedPerm, -⟩ := hsorted.spec (hgiven hcounted) hqsort
    have hasked : w.asked c names inputted up = w.given c names inputted up := if_pos hcounted
    obtain ⟨hshown, -, -⟩ := shown_of_printed hfilled
      (fun name hname ↦ hchars up name (hasked ▸ hsortedPerm.mem_iff.mp hname)) htext
        haccepted.1 hcreate
    exact ⟨hqueried', hlib, new, hshown, hasked ▸ hperm, hcount⟩
  · have hasked : w.asked c names inputted up = names up := if_neg hcounted
    obtain ⟨hl, hnodes, hfilled, hhosts⟩ := hqueried.lists up
    obtain ⟨⟨buf, w1⟩, hget, hrun⟩ := bind_eq_ok.mp hrun
    obtain ⟨new, hcreate, hdone⟩ := bind_eq_ok.mp hrun
    obtain ⟨rfl, hrest⟩ := Prod.mk.inj (Except.ok.inj hdone)
    obtain ⟨rfl, rfl⟩ := Prod.mk.inj hrest
    rw [getNodesText, if_neg hcounted, mapError_eq_ok, getAllNodes] at hget
    rw [mapError_eq_ok, createNodes_eq_ok] at hcreate
    cases hstring : getNodesString up (some clearedBuffer) whatsupBufferlen w with
    | error fault =>
      rw [hstring] at hget
      exact absurd hget (by simp)
    | ok answer =>
      obtain ⟨_ | given, w2⟩ := answer
      · rw [hstring] at hget
        exact absurd hget (by simp)
      · rw [hstring] at hget
        obtain ⟨rfl, rfl⟩ := Prod.mk.inj (Except.ok.inj hget)
        obtain ⟨-, rfl, len, hprint, hlen⟩ := getNodesString_some hnodes hstring
        have hnul : ∀ name ∈ hl.hosts, '\x00' ∉ name ∧ '\n' ∉ name := fun name hname ↦
          hchars up name (by rwa [hasked, ← hhosts])
        have htext := cString_printed hfilled (fun name hname ↦ (hnul name hname).1) hprint hlen
        obtain ⟨-, hfits, -⟩ :=
          hostlistRangedString_printed (fun hr hmem ↦
          hfilled.printable.name_ne_nil hmem) hprint hlen
        obtain ⟨hshown, hsame, hcount⟩ := shown_of_printed hfilled hnul htext hfits hcreate
        refine ⟨⟨hqueried.loaded, hqueried.cluster, hqueried.lists.congr (fun side ↦ by
          cases side <;> rfl) fun _ ↦ rfl,
          hqueried.small⟩, rfl, new, hshown, ?_, hcount⟩
        rw [hsame, hhosts, hasked]

/-- The counts and texts of `_output_mode` are those of the nodes that are asked about. -/
theorem getBothNodes_shows {texts : NodeTexts} {w' : World}
    (hrun : getBothNodes sorting inputted w = .ok (texts, w')) :
    ∃ upList downList : Hostlist, texts.Shows upList downList ∧
      upList.hosts.Perm (w.asked c names inputted true) ∧
      downList.hosts.Perm (w.asked c names inputted false) := by
  obtain ⟨⟨upCount, upText, w1⟩, hup, hrun⟩ := bind_eq_ok.mp hrun
  obtain ⟨⟨downCount, downText, w2⟩, hdown, hdone⟩ := bind_eq_ok.mp hrun
  obtain ⟨rfl, -⟩ := Prod.mk.inj (Except.ok.inj hdone)
  obtain ⟨hqueried1, hlib, upList, hupShown, hupPerm, hupCount⟩ :=
    getNodesOf_shown hgiven hqsort hqueried hchars hup
  have hsame : ∀ side, w1.asked c names inputted side = w.asked c names inputted side :=
      fun side ↦ by
    unfold World.asked World.given World.status
    rw [hlib]
  obtain ⟨-, -, downList, hdownShown, hdownPerm, hdownCount⟩ :=
    getNodesOf_shown hgiven hqsort hqueried1 (fun side ↦ (hsame side).symm ▸ hchars side) hdown
  exact ⟨upList, downList, ⟨hupShown, hdownShown, hupCount, hdownCount⟩, hupPerm,
    hsame false ▸ hdownPerm⟩

end

/-- Assumes: a clean load; if nodes are given, plain and distinct ones; no NUL or line end in a name
that is asked about; and not the output of times. There is an output exactly if the texts of the
nodes come to be, and, should they be printed one by one, the names that are to be printed fit into
the buffer. It is read back as the nodes that are asked about, and the exit value is that of their
numbers. -/
theorem outputMode_reads {c : Cluster} {env : LoadEnv} {args : LoadArgs} {w w' : World}
    (hload : CleanLoad c env args w w')
    {options : WhatsupOptions} (hgiven : 0 < hostlistCount options.inputtedNodes →
      options.inputtedNodes.Given)
    (hchars : ∀ up, ∀ name ∈ w'.asked c (fun up ↦ c.names up w'.reports) options.inputtedNodes up,
      '\x00' ∉ name ∧ '\n' ∉ name)
    (htimes : options.lastUpTime = false) {sorting : Sorting}
    (hqsort : IsSort hostrangeCmp sorting.qsort)
    (timebuf : ℕ → List Char) :
    ((∃ result, outputMode sorting timebuf options w' = .ok result) ↔
        ∃ texts w'' upList downList, getBothNodes sorting options.inputtedNodes w' =
          .ok (texts, w'') ∧
          hostlistCreate (cString texts.upNodes) = .ok upList ∧
          hostlistCreate (cString texts.downNodes) = .ok downList ∧
          options.Fits upList downList) ∧
      ∀ text exit, outputMode sorting timebuf options w' = .ok (text, exit) →
        ∃ upNames downNames,
          upNames.Perm (w'.asked c (fun up ↦ c.names up w'.reports) options.inputtedNodes true) ∧
          downNames.Perm (w'.asked c (fun up ↦ c.names up w'.reports) options.inputtedNodes false) ∧
          options.Reads text upNames downNames ∧
          exit = exitVal upNames.length downNames.length options.updownOutput := by
  obtain ⟨names, hqueried, hperm, -⟩ := hload.queried
  have hasked : ∀ up, (w'.asked c names options.inputtedNodes up).Perm
      (w'.asked c (fun up ↦ c.names up w'.reports) options.inputtedNodes up) := fun up ↦ by
    unfold World.asked World.given
    split_ifs
    · rw [List.filter_congr fun node _ ↦
        World.status_congr (fun side name ↦ (hperm side).mem_iff) up node]
    · exact hperm up
  have hboth : ∀ {texts : NodeTexts} {w'' : World}, getBothNodes sorting options.inputtedNodes w' =
    .ok (texts, w'') →
      ∃ upList downList : Hostlist, texts.Shows upList downList ∧
        upList.hosts.Perm (w'.asked c (fun up ↦ c.names up w'.reports) options.inputtedNodes true) ∧
        downList.hosts.Perm (w'.asked c (fun up ↦ c.names up w'.reports) options.inputtedNodes
            false) := fun hrun ↦ by
    obtain ⟨upList, downList, hshows, hup, hdown⟩ := getBothNodes_shows hgiven hqsort hqueried
      (fun up name hname ↦ hchars up name ((hasked up).mem_iff.mp hname)) hrun
    exact ⟨upList, downList, hshows, hup.trans (hasked true), hdown.trans (hasked false)⟩
  constructor
  · constructor
    · rintro ⟨result, hrun⟩
      obtain ⟨⟨texts, w''⟩, hget, hrun⟩ := bind_eq_ok.mp hrun
      obtain ⟨text, htext, -⟩ := bind_eq_ok.mp hrun
      rw [mapError_eq_ok] at hget
      obtain ⟨upList, downList, hshows, -⟩ := hboth hget
      exact ⟨texts, w'', upList, downList, hget, hshows.up.created, hshows.down.created,
        (outputText_reads hshows htimes timebuf w'').1.mp ⟨text, htext⟩⟩
    · rintro ⟨texts, w'', upList, downList, hget, hupCreate, hdownCreate, hfits⟩
      obtain ⟨upList', downList', hshows, -⟩ := hboth hget
      obtain rfl := Except.ok.inj (hupCreate.symm.trans hshows.up.created)
      obtain rfl := Except.ok.inj (hdownCreate.symm.trans hshows.down.created)
      obtain ⟨text, htext⟩ := (outputText_reads hshows htimes timebuf w'').1.mpr hfits
      exact ⟨_, bind_eq_ok.mpr ⟨_, mapError_eq_ok.mpr hget, bind_eq_ok.mpr ⟨text, htext, rfl⟩⟩⟩
  · intro text exit hrun
    obtain ⟨⟨texts, w''⟩, hget, hrun⟩ := bind_eq_ok.mp hrun
    obtain ⟨text', htext, hdone⟩ := bind_eq_ok.mp hrun
    obtain ⟨rfl, rfl⟩ := Prod.mk.inj (Except.ok.inj hdone)
    rw [mapError_eq_ok] at hget
    obtain ⟨upList, downList, hshows, hup, hdown⟩ := hboth hget
    refine ⟨upList.hosts, downList.hosts, hup, hdown,
      (outputText_reads hshows htimes timebuf w'').2 _ htext, ?_⟩
    rw [hshows.upCount, hshows.downCount]

/-- Two hosts in the hostsfile, of which one is reported, all nodes, up and down, with commas. -/
theorem outputMode_reads_twoHosts :
    ∃ w', loadData twoHostsEnv plainArgs startWorld = .ok (0, w') ∧
      ((∃ result, outputMode ⟨false, insertionSort hostrangeCmp, 4⟩ (fun _ ↦ [])
        ⟨.upAndDown, .comma, false, false, hostlistNew⟩ w' =
            .ok result) ↔
          ∃ texts w'' upList downList, getBothNodes ⟨false, insertionSort hostrangeCmp, 4⟩
            hostlistNew w' = .ok (texts, w'') ∧
            hostlistCreate (cString texts.upNodes) = .ok upList ∧
            hostlistCreate (cString texts.downNodes) = .ok downList ∧
            WhatsupOptions.Fits ⟨.upAndDown, .comma, false, false, hostlistNew⟩ upList downList) ∧
        ∀ text exit, outputMode ⟨false, insertionSort hostrangeCmp, 4⟩ (fun _ ↦ [])
              ⟨.upAndDown, .comma, false, false, hostlistNew⟩ w' = .ok (text, exit) →
          ∃ upNames downNames,
            upNames.Perm (w'.asked (.hostsfile ["n1".toList, "n2".toList])
              (fun up ↦ (Cluster.hostsfile ["n1".toList, "n2".toList]).names up w'.reports)
                hostlistNew true) ∧
            downNames.Perm (w'.asked (.hostsfile ["n1".toList, "n2".toList])
              (fun up ↦ (Cluster.hostsfile ["n1".toList, "n2".toList]).names up w'.reports)
                hostlistNew false) ∧
            WhatsupOptions.Reads ⟨.upAndDown, .comma, false, false, hostlistNew⟩ text
              upNames downNames ∧
              exit = exitVal upNames.length downNames.length .upAndDown := by
  have hsummary : loadSummary (loadData twoHostsEnv plainArgs startWorld) =
      some (0, some (.hostsfile ["n1".toList, "n2".toList]), [.addUpNode "n1".toList], 1) := by
        decide +kernel
  obtain ⟨w', hload, hc, hcalls, -⟩ := exists_of_loadSummary hsummary
  have hcount : ¬0 < hostlistCount hostlistNew := by decide
  have hclean : CleanLoad (.hostsfile ["n1".toList, "n2".toList]) twoHostsEnv plainArgs
      startWorld w' := by
    refine ⟨isSort_insertionSort, rfl, hload, hc, ?_, by decide, ?_, ?_⟩
    · rw [hcalls]
      decide
    · rw [hcalls]
      decide
    · rw [hcalls]
      decide
  refine ⟨w', hload, outputMode_reads hclean (fun h ↦ absurd h hcount)
    (fun up ↦ ?_) rfl isSort_insertionSort (fun _ ↦ [])⟩
  rw [World.asked, if_neg hcount, hcalls]
  cases up <;> decide

end Whatsup
