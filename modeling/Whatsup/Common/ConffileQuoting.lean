import Whatsup.Common.ConffileLines

/-!
# Quoted arguments

A line that is made of an option name and of quoted arguments, with every backslash, hash and quote
in them escaped, goes through the comment stripper (`conffileRemoveComments_quotedArgs`), the
continuation check (`logicalLines_quotedLine`) and the tokenizer (`conffileParseArgs_quoted`) as it
is meant, so that the arguments are handed to the callback of a list of strings as they were
(`conffileParse_quoted`).
-/

set_option autoImplicit false
set_option relaxedAutoImplicit false

namespace Whatsup

open CLib

/-! ### Quoting -/

/-- A character of an argument, escaped. -/
def escapeChar (c : Char) : List Char :=
  if c = '\\' ∨ c = '#' ∨ c = '"' then ['\\', c] else [c]

/-- An argument in quotes. -/
def quoted (arg : List Char) : List Char :=
  '"' :: (arg.flatMap escapeChar ++ ['"'])

/-- Quoted arguments, each behind its blanks. -/
def quotedArgs (args : List (List Char × List Char)) : List Char :=
  args.flatMap fun arg ↦ arg.1 ++ quoted arg.2

/-- Arguments with the blanks in front of them: neither has a line end, an argument no NUL and less
than 1023 characters. -/
def Quotable (args : List (List Char × List Char)) : Prop :=
  ∀ arg ∈ args, (arg.1 ≠ [] ∧ ∀ c ∈ arg.1, isSpace c = true ∧ c ≠ '\n') ∧
    arg.2.length < 1023 ∧ '\n' ∉ arg.2 ∧ '\x00' ∉ arg.2

/-- A name that a line can start with: without blanks and comments, and with less than 255
characters. -/
def LineName (name : List Char) : Prop :=
  name ≠ [] ∧ name.length < 255 ∧ (∀ c ∈ name, isSpace c = false ∧ c ≠ '\x00') ∧
    conffileRemoveComments false name = name

instance (args : List (List Char × List Char)) : Decidable (Quotable args) :=
  decidable_of_iff (args.all fun arg ↦ (arg.1 ≠ [] && arg.1.all fun c ↦ isSpace c && c ≠ '\n') &&
    (arg.2.length < 1023 && ('\n' ∉ arg.2 && '\x00' ∉ arg.2))) (by simp [Quotable])

instance (name : List Char) : Decidable (LineName name) :=
  decidable_of_iff
    (name ≠ [] && (name.length < 255 && ((name.all fun c ↦ !isSpace c && c ≠ '\x00') &&
    conffileRemoveComments false name = name))) (by simp [LineName])

theorem quotedArgs_cons (arg : List Char × List Char) (args : List (List Char × List Char)) :
    quotedArgs (arg :: args) = arg.1 ++ '"' :: (arg.2.flatMap escapeChar ++ '"' ::
      quotedArgs args) := by
  simp [quotedArgs, quoted]

theorem mem_escapeChar {c d : Char} (h : d ∈ escapeChar c) : d = '\\' ∨ d = c := by
  unfold escapeChar at h
  split_ifs at h
  · simpa using h
  · exact Or.inr (List.mem_singleton.mp h)

theorem mem_quoted {c : Char} {arg : List Char} (h : c ∈ quoted arg) : c = '"' ∨ c = '\\' ∨
    c ∈ arg := by
  rcases List.mem_cons.mp h with h | h
  · exact Or.inl h
  · rcases List.mem_append.mp h with h | h
    · obtain ⟨d, hd, hc⟩ := List.mem_flatMap.mp h
      rcases mem_escapeChar hc with hc | rfl
      · exact Or.inr (Or.inl hc)
      · exact Or.inr (Or.inr hd)
    · exact Or.inl (List.mem_singleton.mp h)

/-! ### The comment stripper -/

/-- A text that no comment is taken from leaves the stripper in one state for whatever follows. -/
theorem conffileRemoveComments_append {previousIsEscape : Bool} {text : List Char}
    (h : conffileRemoveComments previousIsEscape text = text) :
    ∃ state, ∀ rest, conffileRemoveComments previousIsEscape (text ++ rest) =
      text ++ conffileRemoveComments state rest := by
  induction text generalizing previousIsEscape with
  | nil => exact ⟨previousIsEscape, fun _ ↦ rfl⟩
  | cons c text ih =>
    rw [conffileRemoveComments] at h
    split_ifs at h with hescape hcomment
    · obtain ⟨state, hstate⟩ := ih (List.cons.inj h).2
      exact ⟨state, fun rest ↦ by
        rw [List.cons_append, conffileRemoveComments, if_pos hescape, hstate]; rfl⟩
    · obtain ⟨state, hstate⟩ := ih (List.cons.inj h).2
      exact ⟨state, fun rest ↦ by
        rw [List.cons_append, conffileRemoveComments, if_neg hescape, if_neg hcomment, hstate]; rfl⟩

/-- A character that is neither a backslash nor a hash stays, and ends an escape. -/
theorem conffileRemoveComments_cons {c : Char} (hescape : c ≠ '\\') (hcomment : c ≠ '#')
    (previousIsEscape : Bool)
    (rest : List Char) :
    conffileRemoveComments previousIsEscape (c :: rest) =
      c :: conffileRemoveComments false rest := by
  rw [conffileRemoveComments, if_neg fun h ↦ hescape h.1, if_neg fun h ↦ hcomment h.1]

theorem conffileRemoveComments_escaped (arg rest : List Char) :
    conffileRemoveComments false (arg.flatMap escapeChar ++ rest) =
      arg.flatMap escapeChar ++ conffileRemoveComments false rest := by
  induction arg with
  | nil => rfl
  | cons c arg ih =>
    rw [List.flatMap_cons, List.append_assoc, List.append_assoc, ← ih, escapeChar]
    split_ifs with hc
    · rcases hc with rfl | rfl | rfl <;> rfl
    · obtain ⟨hescape, hc⟩ := not_or.mp hc
      exact conffileRemoveComments_cons hescape (not_or.mp hc).1 false _

theorem conffileRemoveComments_blanks {blanks : List Char} (h : ∀ c ∈ blanks, isSpace c = true)
    (previousIsEscape : Bool)
    (rest : List Char) :
    ∃ state, conffileRemoveComments previousIsEscape (blanks ++ rest) = blanks ++
      conffileRemoveComments state rest := by
  induction blanks generalizing previousIsEscape with
  | nil => exact ⟨previousIsEscape, rfl⟩
  | cons c blanks ih =>
    obtain ⟨hc, hblanks⟩ := List.forall_mem_cons.mp h
    obtain ⟨state, hstate⟩ := ih hblanks false
    have hescape : c ≠ '\\' := fun h ↦ absurd (h ▸ hc) (by decide)
    have hcomment : c ≠ '#' := fun h ↦ absurd (h ▸ hc) (by decide)
    exact ⟨state, by
      rw [List.cons_append, conffileRemoveComments_cons hescape hcomment, hstate]; rfl⟩

/-- No comment is taken from quoted arguments. -/
theorem conffileRemoveComments_quotedArgs {args : List (List Char × List Char)}
    (h : ∀ arg ∈ args, ∀ c ∈ arg.1, isSpace c = true) (previousIsEscape : Bool) :
    conffileRemoveComments previousIsEscape (quotedArgs args) = quotedArgs args := by
  induction args generalizing previousIsEscape with
  | nil => rfl
  | cons arg args ih =>
    obtain ⟨harg, hargs⟩ := List.forall_mem_cons.mp h
    rw [quotedArgs_cons]
    obtain ⟨state, hstate⟩ := conffileRemoveComments_blanks harg previousIsEscape
      ('"' :: (arg.2.flatMap escapeChar ++ '"' :: quotedArgs args))
    rw [hstate, conffileRemoveComments_cons (by decide) (by decide), conffileRemoveComments_escaped,
      conffileRemoveComments_cons (by decide) (by decide), ih hargs]

/-! ### The tokenizer -/

/-- An argument ends at the end of the line, or at a blank that is not quoted. -/
theorem conffileParseArg_end {linebuf : List Char} (h : ∀ c ∈ linebuf.head?, isSpace c = true)
    (arglen : ℕ) :
    conffileParseArg arglen false linebuf = .ok ([], linebuf) := by
  rw [conffileParseArg.eq_def]
  cases linebuf with
  | nil => rfl
  | cons c linebuf => exact if_pos ⟨rfl, h c rfl⟩

theorem conffileParseArg_quote (arglen : ℕ) (quoteFlag : Bool) (linebuf : List Char) :
    conffileParseArg arglen quoteFlag ('"' :: linebuf) = conffileParseArg arglen (!quoteFlag)
      linebuf := by
  rw [conffileParseArg.eq_def]
  exact (if_neg (by simp [isSpace])).trans (if_pos rfl)

/-- Assumes: room for one more character. One that has to be escaped is read behind a backslash. -/
theorem conffileParseArg_escape {d : Char} (hd : d = '\\' ∨ d = '#' ∨ d = '"') {arglen : ℕ}
    (hroom : arglen + 1 < 1023)
    (quoteFlag : Bool) (linebuf : List Char) :
    conffileParseArg arglen quoteFlag ('\\' :: d :: linebuf) =
      (conffileParseArg (arglen + 1) quoteFlag linebuf).map fun parsed ↦
        (d :: parsed.1, parsed.2) := by
  have hvalid : ¬(d ≠ '\\' ∧ d ≠ '#' ∧ d ≠ '"') := by tauto
  rw [conffileParseArg.eq_def]
  simp only [isSpace]
  rw [if_neg (by simp), if_neg (by decide), if_pos trivial, if_neg hvalid, if_neg hroom.ne]

/-- Assumes: room for one more character. Any other is read as it is in quotes. -/
theorem conffileParseArg_char {c : Char} (hc : ¬(c = '\\' ∨ c = '#' ∨ c = '"')) {arglen : ℕ}
    (hroom : arglen + 1 < 1023)
    (linebuf : List Char) :
    conffileParseArg arglen true (c :: linebuf) =
      (conffileParseArg (arglen + 1) true linebuf).map fun parsed ↦ (c :: parsed.1, parsed.2) := by
  obtain ⟨hescape, hc⟩ := not_or.mp hc
  rw [conffileParseArg.eq_def]
  simp only
  rw [if_neg (by simp), if_neg (not_or.mp hc).2, if_neg hescape, if_neg hroom.ne]

/-- Assumes: less than 1023 characters, and the end or a blank behind the closing quote. The
argument is read up to that. -/
theorem conffileParseArg_escaped {rest : List Char} (hrest : ∀ c ∈ rest.head?, isSpace c = true)
    (arg : List Char) :
    ∀ {arglen : ℕ}, arglen + arg.length < 1023 →
      conffileParseArg arglen true (arg.flatMap escapeChar ++ '"' :: rest) = .ok (arg, rest) := by
  induction arg with
  | nil =>
    intro arglen _
    rw [List.flatMap_nil, List.nil_append, conffileParseArg_quote]
    exact conffileParseArg_end hrest arglen
  | cons c arg ih =>
    intro arglen hlength
    rw [List.length_cons] at hlength
    rw [List.flatMap_cons, List.append_assoc, escapeChar]
    split_ifs with hc
    · rw [List.cons_append, List.cons_append, List.nil_append,
        conffileParseArg_escape hc (by omega), ih (by omega)]
      rfl
    · rw [List.cons_append, List.nil_append, conffileParseArg_char hc (by omega), ih (by omega)]
      rfl

/-- Quoted arguments start with a blank. -/
theorem isSpace_head_quotedArgs {args : List (List Char × List Char)} (h : Quotable args) :
    ∀ c ∈ (quotedArgs args).head?, isSpace c = true := by
  cases args with
  | nil => exact fun c hc ↦ absurd hc (by simp [quotedArgs])
  | cons arg args =>
    obtain ⟨⟨hne, hblanks⟩, -⟩ := h arg List.mem_cons_self
    obtain ⟨blank, blanks, hcons⟩ := List.exists_cons_of_ne_nil hne
    intro c hc
    rw [quotedArgs_cons, hcons] at hc
    obtain rfl : blank = c := Option.some.inj hc
    exact (hblanks blank (hcons ▸ List.mem_cons_self)).1

/-- Quoted arguments are read as they were, if there is room for them. -/
theorem conffileParseArgs_quoted {args : List (List Char × List Char)} (h : Quotable args) :
    ∀ {room : ℕ}, args.length ≤ room → conffileParseArgs room (quotedArgs args) =
      .ok (args.map Prod.snd) := by
  induction args with
  | nil =>
    intro room _
    rw [conffileParseArgs.eq_def]
    rfl
  | cons arg args ih =>
    intro room hroom
    obtain ⟨room, rfl⟩ := Nat.exists_eq_add_of_le' ((Nat.succ_le_succ (Nat.zero_le _)).trans hroom)
    obtain ⟨harg, hargs⟩ := List.forall_mem_cons.mp h
    have hdrop : (quotedArgs (arg :: args)).dropWhile isSpace =
        '"' :: (arg.2.flatMap escapeChar ++ '"' :: quotedArgs args) := by
      rw [quotedArgs_cons, List.dropWhile_append_of_pos fun c hc ↦ (harg.1.2 c hc).1]
      exact List.dropWhile_cons_of_neg (by decide)
    rw [conffileParseArgs.eq_def, hdrop, if_neg (List.cons_ne_nil _ _)]
    simp only
    rw [conffileParseArg_quote, Bool.not_false,
        conffileParseArg_escaped (isSpace_head_quotedArgs hargs) arg.2 (by
      rw [Nat.zero_add]
      exact harg.2.1)]
    simp only
    split_ifs with hend
    · have hnil : args = [] := by
        cases args with
        | nil => rfl
        | cons other args => exact absurd hend (by simp [quotedArgs_cons])
      rw [hnil]
      rfl
    · rw [ih hargs (Nat.le_of_succ_le_succ hroom)]
      rfl

/-! ### The line -/

/-- A name and quoted arguments, of which there is one, behind it. -/
theorem quotedLine_last {args : List (List Char × List Char)} (hne : args ≠ []) (name : List Char) :
    ∃ front, name ++ quotedArgs args = front ++ ['"'] := by
  obtain ⟨first, arg, rfl⟩ := List.eq_nil_or_concat args |>.resolve_left hne
  exact ⟨name ++ (quotedArgs first ++ (arg.1 ++ '"' :: arg.2.flatMap escapeChar)), by
    simp [quotedArgs, quoted]⟩

theorem rdropWhile_quotedLine {args : List (List Char × List Char)} (hne : args ≠ [])
    (name : List Char) :
    (name ++ quotedArgs args).rdropWhile isSpace = name ++ quotedArgs args := by
  obtain ⟨front, hfront⟩ := quotedLine_last hne name
  rw [hfront]
  exact List.rdropWhile_concat_neg _ _ _ (by decide)

/-- Such a line goes through the comment stripper. -/
theorem conffileTrim_quotedLine {name ends : List Char} {args : List (List Char × List Char)}
    (hname : LineName name)
    (hargs : Quotable args) (hne : args ≠ []) (hends : ∀ c ∈ ends, isSpace c = true) :
    conffileTrim (name ++ quotedArgs args ++ ends) = name ++ quotedArgs args := by
  obtain ⟨state, hstate⟩ := conffileRemoveComments_append hname.2.2.2
  have hcomment : conffileRemoveComments false (name ++ quotedArgs args) =
      name ++ quotedArgs args := by
    rw [hstate, conffileRemoveComments_quotedArgs fun arg hmem c hc ↦ ((hargs arg hmem).1.2 c hc).1]
  unfold conffileTrim conffileRemoveTrailingWhitespace
  rw [rdropWhile_append_blanks _ hends, rdropWhile_quotedLine hne, hcomment,
    rdropWhile_quotedLine hne]

theorem newline_notMem_quotedLine {name : List Char} {args : List (List Char × List Char)}
    (hname : LineName name)
    (hargs : Quotable args) : '\n' ∉ name ++ quotedArgs args := by
  intro hmem
  rcases List.mem_append.mp hmem with hmem | hmem
  · exact absurd (hname.2.2.1 _ hmem).1 (by decide)
  · obtain ⟨arg, harg, hmem⟩ := List.mem_flatMap.mp hmem
    rcases List.mem_append.mp hmem with hmem | hmem
    · exact ((hargs arg harg).1.2 _ hmem).2 rfl
    · rcases mem_quoted hmem with h | h | h
      · exact absurd h (by decide)
      · exact absurd h (by decide)
      · exact (hargs arg harg).2.2.1 h

theorem nul_notMem_quotedLine {name : List Char} {args : List (List Char × List Char)}
    (hname : LineName name)
    (hargs : Quotable args) : '\x00' ∉ name ++ quotedArgs args := by
  intro hmem
  rcases List.mem_append.mp hmem with hmem | hmem
  · exact (hname.2.2.1 _ hmem).2 rfl
  · obtain ⟨arg, harg, hmem⟩ := List.mem_flatMap.mp hmem
    rcases List.mem_append.mp hmem with hmem | hmem
    · exact absurd ((hargs arg harg).1.2 _ hmem).1 (by decide)
    · rcases mem_quoted hmem with h | h | h
      · exact absurd h (by decide)
      · exact absurd h (by decide)
      · exact (hargs arg harg).2.2.2 h

/-- Assumes: a line with its end, or without one at the end of the file, that fits in the buffer. It
is the only logical line. -/
theorem logicalLines_quotedLine {name ends : List Char} {args : List (List Char × List Char)}
    (hname : LineName name)
    (hargs : Quotable args) (hne : args ≠ []) (hends : ends = [] ∨ ends = ['\n'])
    (hsize : (name ++ quotedArgs args ++ ends).length < 32767) :
    logicalLines [] (textLines (name ++ quotedArgs args ++ ends)) =
      [.ok (name ++ quotedArgs args)] := by
  have hnewline := newline_notMem_quotedLine hname hargs
  have hnil : name ++ quotedArgs args ≠ [] := fun h ↦ hname.1 (List.append_eq_nil_iff.mp h).1
  have hlines : textLines (name ++ quotedArgs args ++ ends) =
      [name ++ quotedArgs args ++ ends] := by
    rcases hends with rfl | rfl
    · rw [List.append_nil, textLines_line hnewline, if_neg hnil]
    · exact textLines_append_newline hnewline []
  have hspace : ∀ c ∈ ends, isSpace c = true := by
    rcases hends with rfl | rfl
    · exact fun c hc ↦ absurd hc List.not_mem_nil
    · exact fun c hc ↦ by rw [List.mem_singleton.mp hc]; rfl
  have hroom : ¬(32767 ≤ (name ++ quotedArgs args ++ ends).length ∨
      32768 ≤ (name ++ quotedArgs args ++ ends).length + ([] : List Char).length) := by
    rw [List.length_nil]
    omega
  have hescape : ¬(name ++ quotedArgs args).getLast? = some '\\' := by
    obtain ⟨front, hfront⟩ := quotedLine_last hne name
    rw [hfront, List.getLast?_concat]
    decide
  rw [hlines, logicalLines, if_neg hroom, List.nil_append,
    conffileTrim_quotedLine hname hargs hne hspace, if_neg hnil,
    if_neg hescape]
  rfl

/-- The counters of the options are zero behind `_setup`. -/
theorem count_setup {D : Type} {cf : Conffile D} {option : ConffileOption D}
    (h : option ∈ cf.options) (st : ConffileState D) :
    (st.setup cf).count option.countPtr = 0 := by
  unfold ConffileState.setup ConffileState.count
  cases hptr : option.countPtr with
  | none => rfl
  | some ptr => exact if_pos ⟨option, h, hptr⟩

theorem count_increment {D : Type} (st : ConffileState D) (ptr : ℕ) (other : Option ℕ) :
    (st.increment (some ptr)).count other = if other = some ptr then toInt (st.count other + 1)
      else st.count other := by
  unfold ConffileState.increment ConffileState.count
  cases other with
  | none => rfl
  | some other =>
    by_cases h : other = ptr
    · rw [h, if_pos rfl]
      exact Function.update_self _ _ _
    · rw [if_neg fun hother ↦ h (Option.some.inj hother)]
      exact Function.update_of_ne h _ _

section Doubles

variable {D : Type} [Zero D] (strtod : List Char → D × Bool × List Char)

/-- Assumes: a list of strings of any length, under the name of the line. Its arguments are handed
to the callback. -/
theorem conffileParseline_quoted {cf : Conffile D} {option : ConffileOption D} {name : List Char}
    {args : List (List Char × List Char)} (hname : LineName name) (hargs : Quotable args)
    (hne : args ≠ [])
    (hcount : args.length ≤ 64) (hoption : cf.options.find? (·.named cf.flags name) = some option)
    (htype : option.optionType = .listString) (hlist : option.optionTypeArg < 0)
    (st : ConffileState D)
    (hmax : ¬(0 < option.maxCount ∧
      option.maxCount < (st.increment option.countPtr).count option.countPtr)) :
    conffileParseline strtod cf (name ++ quotedArgs args) st =
      (st.increment option.countPtr).callback cf option
        { ConffileData.zero with stringlist := args.map Prod.snd } := by
  have hstart :
    conffileMovePastWhitespace (conffileRemoveTrailingWhitespace (name ++ quotedArgs args)) =
      name ++ quotedArgs args := by
    unfold conffileMovePastWhitespace conffileRemoveTrailingWhitespace cString
    rw [rdropWhile_quotedLine hne, takeWhile_ne_eq_self (nul_notMem_quotedLine hname hargs)]
    obtain ⟨c, rest, rfl⟩ := List.exists_cons_of_ne_nil hname.1
    exact List.dropWhile_cons_of_neg (by simp [(hname.2.2.1 c List.mem_cons_self).1])
  have hletters : ∀ c ∈ name, (!isSpace c) = true := fun c hc ↦ by rw [(hname.2.2.1 c hc).1]; rfl
  have hhead := isSpace_head_quotedArgs hargs
  obtain ⟨blank, rest, hcons⟩ : ∃ blank rest, quotedArgs args = blank :: rest := by
    obtain ⟨arg, args, rfl⟩ := List.exists_cons_of_ne_nil hne
    exact List.exists_cons_of_ne_nil (by simp [quotedArgs_cons])
  have hblank : isSpace blank = true := hhead blank (by rw [hcons]; rfl)
  have htake : (name ++ quotedArgs args).takeWhile (!isSpace ·) = name := by
    rw [List.takeWhile_append_of_pos hletters, hcons]
    simp [hblank]
  have hdrop : (name ++ quotedArgs args).dropWhile (!isSpace ·) = quotedArgs args := by
    rw [List.dropWhile_append_of_pos hletters, hcons]
    simp [hblank]
  have hnil : name ++ quotedArgs args ≠ [] := fun h ↦ hname.1 (List.append_eq_nil_iff.mp h).1
  have hnumargs : checkNumargs option (args.map Prod.snd).length = none := by
    have hpos := List.length_pos_of_ne_nil hne
    simp [checkNumargs, htype, hne, hlist.le]
  unfold conffileParseline
  simp only [hstart, htake, hdrop, if_neg hnil, if_neg (not_le.mpr hname.2.1), hoption]
  unfold conffileParseOption
  rw [if_neg (by simp [htype]), if_neg hmax, conffileParseArgs_quoted hargs hcount]
  simp only [hnumargs, htype, conffileData]

/-- What has been called behind a parse of such a line: the callback of the option, with the
arguments as they were. -/
def quotedCall (cf : Conffile D) (option : ConffileOption D) (args : List (List Char)) :
    ConffileCall D :=
  ⟨{ ConffileData.zero with stringlist := args }, option.optionname, .listString, option.optionPtr,
    option.optionData,
    cf.appPtr, cf.appData⟩

/-- Assumes: a list of strings of any length, whose callback accepts the arguments, in legitimate
options of which the file has enough. A file with the name and the quoted arguments is parsed, and
the arguments are handed to the callback. -/
theorem conffileParse_quoted {cf : Conffile D} (hcf : cf.Legitimate) (option : ConffileOption D)
    (name ends : List Char)
    (args : List (List Char × List Char)) {events : List ReadEvent}
    (hoption : cf.options.find? (·.named cf.flags name) = some option)
    (htype : option.optionType = .listString)
    (hlist : option.optionTypeArg < 0) (hname : LineName name) (hargs : Quotable args)
    (hne : args ≠ [])
    (hcount : args.length ≤ 64) (hends : ends = [] ∨ ends = ['\n'])
    (hsize : (name ++ quotedArgs args ++ ends).length < 32767)
    (hevents : Delivers events (name ++ quotedArgs args ++ ends)) (st : ConffileState D)
    (hrequired : ∀ other ∈ cf.options, other.requiredCount ≤ if other.countPtr =
      option.countPtr then 1 else 0)
    (hcallback : ∀ callbackFunc ∈ option.callbackFunc,
      0 ≤ (callbackFunc (st.calls ++ [quotedCall cf option (args.map Prod.snd)])).1) :
    (conffileParse strtod (some 0x0a1b2c3d) cf (.opened events) st).1 = 0 ∧
      (conffileParse strtod (some 0x0a1b2c3d) cf (.opened events) st).2.calls =
        st.calls ++ [quotedCall cf option (args.map Prod.snd)] := by
  have hmem := List.mem_of_find?_eq_some hoption
  have hlegitimate := List.all_eq_true.mp hcf.2.1 option hmem
  obtain ⟨ptr, hptr⟩ := option.exists_countPtr hlegitimate (by simp [htype])
  obtain ⟨callbackFunc, hfunc⟩ := option.exists_callbackFunc hlegitimate (by simp [htype])
  have hcountOf : ∀ other ∈ cf.options,
    ((st.setup cf).increment option.countPtr).count other.countPtr =
      if other.countPtr = option.countPtr then 1 else 0 := fun other hother ↦ by
    rw [hptr, count_increment, count_setup hother]
    rfl
  have hmax :
      ¬(0 < option.maxCount ∧
      option.maxCount < ((st.setup cf).increment option.countPtr).count option.countPtr) := by
    rw [hcountOf option hmem, if_pos rfl]
    omega
  have hvalue := hcallback callbackFunc hfunc
  have hcalled : (((st.setup cf).increment option.countPtr).callback cf option
      { ConffileData.zero with stringlist := args.map Prod.snd }) =
      ({ (st.setup cf).increment option.countPtr with
          calls := st.calls ++ [quotedCall cf option (args.map Prod.snd)]
          errnum := (callbackFunc (st.calls ++ [quotedCall cf option (args.map Prod.snd)])).2.getD
              .success }, true) := by
    unfold ConffileState.callback
    rw [hfunc, hptr]
    simp only [htype]
    exact if_neg (not_lt.mpr hvalue)
  have hparsed : parseLines strtod cf [.ok (name ++ quotedArgs args)] (st.setup cf) =
      ({ (st.setup cf).increment option.countPtr with
          calls := st.calls ++ [quotedCall cf option (args.map Prod.snd)]
          errnum := (callbackFunc (st.calls ++ [quotedCall cf option (args.map Prod.snd)])).2.getD
              .success }, true) := by
    rw [parseLines, conffileParseline_quoted strtod hname hargs hne hcount hoption htype hlist
      _ hmax, hcalled]
    rfl
  rw [conffileParse_eq strtod hcf hevents, logicalLines_quotedLine hname hargs hne hends hsize,
    hparsed, if_pos rfl]
  unfold ConffileState.finish
  rw [if_neg]
  · exact ⟨rfl, rfl⟩
  · intro hfew
    obtain ⟨other, hother, hless⟩ := List.any_eq_true.mp hfew
    obtain ⟨-, hless⟩ := Bool.and_eq_true_iff.mp hless
    have hcount : ((st.setup cf).increment option.countPtr).count other.countPtr <
        other.requiredCount :=
      of_decide_eq_true hless
    rw [hcountOf other hother] at hcount
    exact absurd (hrequired other hother) (not_le.mpr hcount)

end Doubles

/-- A list of strings of any length. -/
def stringsOption (name : List Char) : ConffileOption ℤ :=
  ⟨some name, .listString, -1, some fun _ ↦ (0, none), 1, 0, some 0, none, 0⟩

/-- A parse with that option. -/
def stringsParse (name text : List Char) : ℤ × ConffileState ℤ :=
  conffileParse (fun _ ↦ (0, false, [])) (some 0x0a1b2c3d) ⟨[stringsOption name], none, 0, 0⟩
    (.opened (text.map .byte))
    ⟨.success, fun _ ↦ 0, []⟩

/-- Arguments with blanks, with every character that has to be escaped, and without any. -/
theorem conffileParse_quoted_hostnames :
    (stringsParse "hostnames".toList "hostnames  \"a b\"\t\"x\\#\\\"\\\\\" \"\"\n".toList).1 = 0 ∧
      (stringsParse "hostnames".toList
        "hostnames  \"a b\"\t\"x\\#\\\"\\\\\" \"\"\n".toList).2.calls =
        [quotedCall ⟨[stringsOption "hostnames".toList], none, 0, 0⟩
          (stringsOption "hostnames".toList)
          ["a b".toList, "x#\"\\".toList, []]] :=
  conffileParse_quoted (fun _ ↦ (0, false, [])) (by decide)
    (stringsOption "hostnames".toList) "hostnames".toList "\n".toList
    [("  ".toList, "a b".toList), ("\t".toList, "x#\"\\".toList), (" ".toList, [])] rfl rfl (by
      decide) (by decide)
    (by decide) (by decide) (by decide) (Or.inr rfl) (by decide) (delivers_map_byte _)
      ⟨.success, fun _ ↦ 0, []⟩ (by decide)
    (fun callbackFunc hfunc ↦ by obtain rfl := Option.some.inj hfunc; exact le_rfl)

/-- A name with a hash in it: the hash starts a comment. -/
theorem conffileParse_hashName :
    ¬ ∀ (strtod : List Char → ℤ × Bool × List Char) (cf : Conffile ℤ) (option : ConffileOption ℤ)
      (name ends : List Char)
      (args : List (List Char × List Char)) (events : List ReadEvent) (st : ConffileState ℤ),
      cf.Legitimate → cf.options.find? (·.named cf.flags name) = some option →
      option.optionType = .listString →
      option.optionTypeArg < 0 → Quotable args → args ≠ [] → args.length ≤ 64 → ends = [] ∨
        ends = ['\n'] →
      (name ++ quotedArgs args ++ ends).length < 32767 →
      Delivers events (name ++ quotedArgs args ++ ends) →
      (∀ other ∈ cf.options, other.requiredCount ≤ if other.countPtr =
        option.countPtr then 1 else 0) →
      (∀ callbackFunc ∈ option.callbackFunc,
        0 ≤ (callbackFunc (st.calls ++ [quotedCall cf option (args.map Prod.snd)])).1) →
      (conffileParse strtod (some 0x0a1b2c3d) cf (.opened events) st).1 = 0 ∧
        (conffileParse strtod (some 0x0a1b2c3d) cf (.opened events) st).2.calls =
          st.calls ++ [quotedCall cf option (args.map Prod.snd)] := by
  intro h
  have hfails : (stringsParse "a#b".toList "a#b \"x\"\n".toList).1 = -1 := by
    unfold stringsParse
    rw [conffileParse_eq _ (by decide) (delivers_map_byte _)]
    decide
  have hholds :=
    (h (fun _ ↦ (0, false, [])) ⟨[stringsOption "a#b".toList], none, 0, 0⟩
    (stringsOption "a#b".toList) "a#b".toList
    "\n".toList [(" ".toList, "x".toList)] _ ⟨.success, fun _ ↦ 0, []⟩ (by decide) rfl rfl (by
      decide) (by decide)
    (by decide) (by decide) (Or.inr rfl) (by decide)
      (delivers_map_byte "a#b \"x\"\n".toList) (by decide)
    (fun callbackFunc hfunc ↦ by obtain rfl := Option.some.inj hfunc; exact le_rfl)).1
  exact absurd (hfails.symm.trans hholds) (by decide)

end Whatsup
