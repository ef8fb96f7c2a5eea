import Whatsup.Hostlist.Fits
import Whatsup.Nodeupdown.Listing

/-!
# The nodes that `whatsup` counts

`_get_nodes` of `whatsup.c` asks the library for the nodes that are up or down as text, parses the
text with `hostlist_create`, and counts the hosts of the new list; it leaves the program if the text
is no host expression. The nodes of the command line and the modules that convert node names are
left out: this is the call for all nodes of the cluster.

`getNodes_iff` says when the call succeeds on a list that was filled with host names: if no pair of
brackets of its text holds more than 10240 ranges, and no range more than 16384 hosts.
-/

set_option autoImplicit false
set_option relaxedAutoImplicit false

namespace Whatsup

open CLib

/-- `WHATSUP_BUFFERLEN`. -/
def whatsupBufferlen : ℕ := 65536

/-- The ways in which `whatsup` does not go on: `err_exit` because the library gives no text,
`hostlist_create` that gives no list or does not return, or a fault inside the library. -/
inductive WhatsupExit
  | nodesString
  | hostlistCreate (failure : CreateFailure)
  | fault (fault : LibFault)

/-- `_get_all_nodes`: the buffer with the text. -/
def getAllNodes (up : Bool) (buf : List Char) (w : World) :
    Except WhatsupExit (List Char × World) :=
  match getNodesString up (some buf) whatsupBufferlen w with
  | .error fault => .error (.fault fault)
  | .ok (none, _) => .error .nodesString
  | .ok (some buf, w) => .ok (buf, w)

/-- `hostlist_create` of a text that `whatsup` has from the library, or `err_exit`. -/
def createNodes (text : List Char) : Except WhatsupExit Hostlist :=
  (hostlistCreate text).mapError .hostlistCreate

/-- `_get_nodes`: the count, and the buffer with the text. -/
def getNodes (up : Bool) (buf : List Char) (w : World) :
    Except WhatsupExit (ℤ × List Char × World) := do
  let (buf, w) ← getAllNodes up buf w
  let hl ← createNodes (cString buf)
  return (hostlistCount hl, buf, w)

/-! ### Texts that are accepted -/

/-- A text is accepted by `whatsup` exactly if `hostlist_create` gives a list. -/
theorem createNodes_eq_ok {text : List Char} {hl : Hostlist} :
    createNodes text = .ok hl ↔ hostlistCreate text = .ok hl := by
  unfold createNodes
  cases hostlistCreate text <;> simp [Except.mapError]

/-- Assumes: a list of a handle filled with bracket-free names of at most 64 characters, whose text
the library gives on the buffer of `whatsup`. The text is a host expression, and `_get_nodes` counts
its hosts, exactly if no pair of brackets in it holds more than 10240 ranges and no range more than
16384 hosts. -/
theorem getNodes_iff {w w' : World} {up : Bool} {hl : Hostlist} {buf text : List Char}
    (hnodes : w.handle.nodes up = some hl) (hfilled : hl.Filled)
    (hnul : ∀ name ∈ hl.hosts, '\x00' ∉ name)
    (hstring : getNodesString up (some buf) whatsupBufferlen w = .ok (some text, w')) :
    (∃ new, hostlistCreate (cString text) = .ok new ∧ getNodes up buf w =
      .ok (hostlistCount new, text, w')) ↔
      hl.Rereadable := by
  obtain ⟨-, -, len, hprint, hfits⟩ := getNodesString_some hnodes hstring
  have htext := cString_printed hfilled hnul hprint hfits
  have hget : getAllNodes up buf w = .ok (text, w') := by
    unfold getAllNodes
    rw [hstring]
  rw [← hostlistCreate_rangedText_iff hfilled.printable, htext]
  constructor
  · rintro ⟨new, hcreate, -⟩
    exact ⟨new, hcreate⟩
  · rintro ⟨new, hcreate⟩
    refine ⟨new, hcreate, bind_eq_ok.mpr ⟨_, hget, ?_⟩⟩
    refine bind_eq_ok.mpr ⟨new, ?_, rfl⟩
    rw [createNodes_eq_ok]
    exact htext.symm ▸ hcreate

/-! ### Consecutive names -/

/-- The list of `n1`, `n2` and so on: one range. -/
def consecutive (count : ℕ) : Hostlist :=
  ⟨[hostrangeCreate ['n'] 1 count 1], count⟩

/-- The range that `hostlist_push_host` makes of a name with a number. -/
theorem ranges_hostlistPushHost_new {pfx : List Char} (hpfx : NoTrailingDigit pfx) (width : ℕ)
    {number : ℕ}
    (hnumber : number ≤ maxHostSuffix) :
    (hostlistPushHost hostlistNew (pfx ++ padded width number)).ranges =
      [hostrangeCreate pfx number number (padded width number).length] := by
  unfold hostlistPushHost
  rw [hostnameCreate_numeral hpfx width hnumber]
  rfl

/-- A number that a suffix can have makes a plain name. -/
theorem plainName_numeral {number : ℕ} (hnumber : number ≤ maxHostSuffix) :
    PlainName (['n'] ++ padded 1 number) := by
  refine ⟨by simp, ?_, fun c hc ↦ ?_⟩
  · have hshort : numDigits number ≤ 8 :=
      (numDigits_le_iff (by decide)).mpr (lt_of_le_of_lt hnumber (by decide))
    rw [List.length_append, length_padded, List.length_singleton]
    omega
  · rcases List.mem_append.mp hc with hc | hc
    · rw [List.mem_singleton.mp hc]
      decide
    · have hplain := plain_of_isDigit (isDigit_of_mem_padded hc)
      exact ⟨hplain.1, hplain.2.1, hplain.2.2.1⟩

/-- Assumes: a count that a suffix can have. Pushing the next name makes the range longer by one. -/
theorem hostlistPush_consecutive {count : ℕ} (hcount : count < maxHostSuffix) :
    hostlistPush (consecutive count) (['n'] ++ padded 1 (count + 1)) =
      some (1, consecutive (count + 1)) := by
  have hdigits : (padded 1 (count + 1)).length = numDigits (count + 1) := by
    rw [length_padded, max_eq_right (numDigits_pos _)]
  -- the width of the range serves the next number as well
  have hcombine : widthEquiv 1 1 (count + 1) (numDigits (count + 1)) = (true, 1, 1) := by
    have hpositive := numDigits_pos (count + 1)
    unfold widthEquiv
    simp only [zeroPadded_eq, numDigits_of_lt_ten (show 1 < 10 by decide)]
    split_ifs with hboth hn hm hone
    · omega
    · rfl
    · omega
    · rw [show numDigits (count + 1) = 1 by omega]
    · omega
  have hsub : ulongSub (count + 1) 1 = count := by
    rw [ulongSub_eq_sub (by omega), Nat.add_sub_cancel]
  have hone : hostrangeCount (hostrangeCreate ['n'] (count + 1) (count + 1)
      (numDigits (count + 1))) = 1 := by
    unfold hostrangeCount hostrangeCreate ulongAdd
    rw [if_neg Bool.false_ne_true, ulongSub_eq_sub le_rfl, Nat.sub_self]
  have hint : toInt ((count : ℤ) + (1 : ℕ)) = ((count + 1 : ℕ) : ℤ) := by
    have hsmall : maxHostSuffix = 33554432 := rfl
    exact toInt_eq_self (by omega) (by omega)
  rw [hostlistPush_plain (plainName_numeral hcount),
    ranges_hostlistPushHost_new (show NoTrailingDigit ['n'] from rfl) 1 hcount, hdigits]
  refine congrArg (fun hl ↦ some (1, hl)) ?_
  rw [List.foldl_cons, List.foldl_nil]
  unfold hostlistPushRange
  rw [hone]
  simp only [consecutive, List.getLast?_singleton, hostrangeWidthCombine, hostrangeCreate,
    hcombine, hsub,
    hostrangePrefixCmp, strcmp, if_true, sub_self, and_self, List.dropLast_singleton,
      List.nil_append, hint,
    Nat.succ_eq_add_one]

/-- Assumes: a count that a suffix can have. The list of so many consecutive names is filled. -/
theorem filled_consecutive {count : ℕ} (hpos : 0 < count) (hcount : count ≤ maxHostSuffix) :
    (consecutive count).Filled := by
  induction count with
  | zero => omega
  | succ count ih =>
    rcases Nat.eq_zero_or_pos count with rfl | hpos'
    · exact .push .new (plainName_numeral hcount)
        (show hostlistPush hostlistNew _ = some (1, consecutive 1) by rfl)
    · exact .push (ih hpos' (by omega)) (plainName_numeral hcount) (hostlistPush_consecutive hcount)

/-- A buffer of `whatsup`, zeroed. -/
def clearedBuffer : List Char :=
  List.replicate whatsupBufferlen '\x00'

/-- Assumes: consecutive names whose text fits into the buffer. The library gives it. -/
theorem getNodesString_consecutive (count : ℕ) (hpos : 0 < count) (hcount : count ≤ maxHostSuffix)
    (hfits : (rangedText (consecutive count).ranges).length < whatsupBufferlen) :
    ∃ text w', getNodesString true (some clearedBuffer) whatsupBufferlen
      (listedWorld (consecutive count)) =
      .ok (some text, w') := by
  have hnames : ∀ hr ∈ (consecutive count).ranges, hr.pfx ++ numberText hr ≠ [] := fun hr hmem ↦
    (filled_consecutive hpos hcount).printable.name_ne_nil hmem
  obtain ⟨text, hprint⟩ := hostlistRangedString_fits (show whatsupBufferlen < 2147483648 by
    decide) hnames hfits
    (show whatsupBufferlen ≤ clearedBuffer.length from List.length_replicate.ge)
  exact ⟨text, _, getNodesString_eq ⟨rfl, rfl⟩ rfl (by decide) hprint (Int.natCast_nonneg _)⟩

/-- The text of `n1`, `n2` and `n3` is accepted. -/
theorem getNodes_iff_three :
    ∃ text w', getNodesString true (some clearedBuffer) whatsupBufferlen
      (listedWorld (consecutive 3)) =
        .ok (some text, w') ∧
      ((∃ new, hostlistCreate (cString text) = .ok new ∧
          getNodes true clearedBuffer (listedWorld (consecutive 3)) =
            .ok (hostlistCount new, text, w')) ↔
        (consecutive 3).Rereadable) := by
  obtain ⟨text, w', hstring⟩ := getNodesString_consecutive 3 (by decide) (by decide) (by decide)
  exact ⟨text, w', hstring,
    getNodes_iff rfl (filled_consecutive (by decide) (by decide)) (by decide) hstring⟩

/-- The text that the library gives is not always accepted: that of `n1` to `n16385` is
`n[1-16385]`, which `hostlist_create` takes for an error. -/
theorem getNodes_refuses :
    ¬∀ (w w' : World) (up : Bool) (hl : Hostlist) (buf text : List Char),
      w.handle.nodes up = some hl → hl.Filled → (∀ name ∈ hl.hosts, '\x00' ∉ name) →
      getNodesString up (some buf) whatsupBufferlen w = .ok (some text, w') →
      ∃ new, hostlistCreate (cString text) = .ok new := by
  intro h
  have hfilled : (consecutive 16385).Filled := filled_consecutive (by decide) (by decide)
  obtain ⟨text, w', hstring⟩ := getNodesString_consecutive 16385 (by decide) (by decide) (by decide)
  have hnul : ∀ name ∈ (consecutive 16385).hosts, '\x00' ∉ name := fun name hname hmem ↦ by
    obtain ⟨hr, hr_mem, hname⟩ := List.mem_flatMap.mp hname
    obtain rfl := List.mem_singleton.mp hr_mem
    obtain ⟨number, -, -, rfl⟩ := (HostRange.mem_hosts_iff rfl).mp hname
    rcases List.mem_append.mp hmem with hmem | hmem
    · exact absurd hmem (by decide)
    · exact absurd (isDigit_of_mem_padded hmem) (by decide)
  obtain ⟨-, -, len, hprint, hfits⟩ := getNodesString_some rfl hstring
  have haccepted := h _ _ true _ _ _ rfl hfilled hnul hstring
  rw [cString_printed hfilled hnul hprint hfits, hostlistCreate_rangedText_iff hfilled.printable]
    at haccepted
  have hgroup := haccepted (consecutive 16385).ranges (by decide)
  exact absurd (hgroup.2 _ (List.mem_singleton_self _)) (by decide)

end Whatsup
