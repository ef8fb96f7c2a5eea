import Whatsup.Hostlist.Notation
import Whatsup.Nodeupdown.Query

/-!
# The nodes of a loaded handle as text and as a list

`nodeupdown_get_up_nodes_string` prints the ranges of a list, and `nodeupdown_get_up_nodes_list`
copies the names that an iterator gives. `copyNodes_eq` is what the second one copies.
`nodesList_iff` compares the two: the copied names are those that the text denotes, and as many as
the count says, exactly if no range is padded to more than 14 characters and there are less than
`2 ^ 31` names.
-/

set_option autoImplicit false
set_option relaxedAutoImplicit false

namespace Whatsup

open CLib

/-! ### Copied names -/

/-- Behind the last name nothing is copied. -/
theorem copyNodes_end {hl : Hostlist} {i : HostlistIterator} (entries : List (Option Unit))
    (h : (hostlistNext hl i).1 = none) : copyNodes hl i entries = .ok [] := by
  have hpair : hostlistNext hl i = (none, (hostlistNext hl i).2) := Prod.ext h rfl
  unfold copyNodes
  rw [hpair]

/-- A name for which there is no entry is an overflow. -/
theorem copyNodes_full {hl : Hostlist} {i i' : HostlistIterator} {name : List Char}
    (h : hostlistNext hl i = (some name, i')) : copyNodes hl i [] = .error .overflow := by
  unfold copyNodes
  rw [h]

/-- A name that fits into its entry is copied. -/
theorem copyNodes_copy {hl : Hostlist} {i i' : HostlistIterator} {name : List Char}
    (entries : List (Option Unit))
    (h : hostlistNext hl i = (some name, i')) (hname : name.length ≤ 64) :
    copyNodes hl i (some () :: entries) = (copyNodes hl i' entries).map (name :: ·) := by
  conv_lhs => unfold copyNodes
  rw [h]
  exact if_neg (not_lt.mpr hname)

/-- Assumes: ranges that can be walked along, an iterator that stands in the list, names ahead of it
that fit into their entries, and an array without NULL pointers. The names ahead are copied, if the
array has room for them. -/
theorem copyNodes_ahead {hl : Hostlist} (hwalk : ∀ hr ∈ hl.ranges, hr.Walkable) (room : ℕ) :
    ∀ i : HostlistIterator, i.Stands hl → (∀ name ∈ i.ahead hl, name.length ≤ 64) →
      copyNodes hl i (List.replicate room (some ())) =
        if (i.ahead hl).length ≤ room then .ok (i.ahead hl) else .error .overflow := by
  induction room with
  | zero =>
    intro i hstands _
    rcases hostlistNext_spec hwalk hstands with ⟨hahead, hnext⟩ | ⟨name, i', hnext, -, hahead⟩
    · rw [copyNodes_end _ hnext, hahead]
      rfl
    · rw [List.replicate_zero, copyNodes_full hnext, hahead, if_neg (by simp)]
  | succ room ih =>
    intro i hstands hshort
    rcases hostlistNext_spec hwalk hstands with ⟨hahead, hnext⟩ | ⟨name, i', hnext,
      hstands', hahead⟩
    · rw [copyNodes_end _ hnext, hahead]
      rfl
    · rw [hahead] at hshort ⊢
      obtain ⟨hname, hnames⟩ := List.forall_mem_cons.mp hshort
      rw [List.replicate_succ, copyNodes_copy _ hnext hname, ih i' hstands' hnames]
      simp only [List.length_cons, Nat.add_le_add_iff_right]
      split_ifs <;> rfl

/-- A name of an iteration is not longer than the host it is cut from. -/
theorem length_le_of_mem_cutHosts {hl : Hostlist} {bound : ℕ}
    (h : ∀ name ∈ hl.hosts, name.length ≤ bound) :
    ∀ name ∈ hl.cutHosts, name.length ≤ bound := by
  intro name hname
  obtain ⟨hr, hr_mem, hname⟩ := List.mem_flatMap.mp hname
  have hhosts : ∀ host ∈ hr.hosts, host.length ≤ bound := fun host hhost ↦
    h host (List.mem_flatMap.mpr ⟨hr, hr_mem, hhost⟩)
  unfold HostRange.cutHosts at hname
  unfold HostRange.hosts at hhosts
  split_ifs at hname hhosts with hsingle
  · exact hhosts name hname
  · obtain ⟨number, hnumber, rfl⟩ := List.mem_map.mp hname
    refine le_trans ?_ (hhosts _ (List.mem_map_of_mem hnumber))
    rw [List.length_append, List.length_append, List.length_take]
    omega

/-- Assumes: ranges that can be walked along, hosts of at most 64 characters, and an array without
NULL pointers. The names of the list, with cut suffixes, are copied, if the array has room for
them. -/
theorem copyNodes_eq {hl : Hostlist} (hwalk : ∀ hr ∈ hl.ranges, hr.Walkable)
    (hshort : ∀ name ∈ hl.hosts, name.length ≤ 64) (room : ℕ) :
    copyNodes hl hostlistIteratorCreate (List.replicate room (some ())) =
      if hl.hosts.length ≤ room then .ok hl.cutHosts else .error .overflow := by
  obtain ⟨hstands, hahead⟩ := hostlistIteratorCreate_spec hl
  have hcopied := copyNodes_ahead hwalk room _ hstands
  rw [hahead, hl.length_cutHosts] at hcopied
  exact hcopied (length_le_of_mem_cutHosts hshort)

/-! ### Queries on a loaded handle -/

/-- A handle that can be queried. -/
def World.Loaded (w : World) : Prop :=
  w.handle.magic = magicNum ∧ w.handle.loadState = .loaded

/-- The entry check of a query passes exactly for a loaded handle, and leaves it as it is. -/
theorem loadedHandleErrorCheck_some {w w' : World} {value : Unit} :
    loadedHandleErrorCheck w = .ok (some value, w') ↔ w.Loaded ∧ w' = w := by
  unfold loadedHandleErrorCheck World.Loaded
  split_ifs with hmagic
  · simp [hmagic]
  · cases hstate : w.handle.loadState <;> simp [not_not.mp hmagic, eq_comm]

/-- A list of a handle that is there. -/
theorem theNodes_eq {w : World} {up : Bool} {hl : Hostlist} (h : w.handle.nodes up = some hl) :
    theNodes up w = .ok (some hl, w) := by
  unfold theNodes
  rw [h]

/-- Assumes: a text that `_get_nodes_string` gives. The handle is loaded and keeps all but its error
number, and the text is that of its list. -/
theorem getNodesString_some {w w' : World} {up : Bool} {hl : Hostlist} {buf text : List Char}
    {buflen : ℤ}
    (hnodes : w.handle.nodes up = some hl)
    (h : getNodesString up (some buf) buflen w = .ok (some text, w')) :
    w.Loaded ∧ w' = w.setErrnum .success ∧
      ∃ len, hostlistRangedString hl buflen.toNat buf = some (len, text) ∧ 0 ≤ len := by
  obtain ⟨_, w1, hcheck, hrest⟩ := attempt_bind_some.mp h
  obtain ⟨hloaded, rfl⟩ := loadedHandleErrorCheck_some.mp hcheck
  simp only at hrest
  split_ifs at hrest with hlen
  · simp [failWith, Attempt.giveUp] at hrest
  · obtain ⟨hl', w2, hlist, h⟩ := attempt_bind_some.mp hrest
    rw [theNodes_eq hnodes] at hlist
    obtain ⟨rfl, rfl⟩ : hl = hl' ∧ w1 = w2 := by simpa using hlist
    refine ⟨hloaded, ?_⟩
    cases hprint : hostlistRangedString hl buflen.toNat buf with
    | none =>
      rw [hprint] at h
      exact absurd h (by simp [Attempt.fault])
    | some printed =>
      obtain ⟨len, buf'⟩ := printed
      rw [hprint] at h
      simp only at h
      split_ifs at h with hnegative
      · simp [failWith, Attempt.giveUp] at h
      · obtain ⟨rfl, rfl⟩ : buf' = text ∧ w1.setErrnum .success = w' := by
          simpa [succeed, Attempt.update, bind, Attempt.andThen, pure] using h
        exact ⟨rfl, len, rfl, not_lt.mp hnegative⟩

/-- Assumes: a loaded handle, a buffer that is not empty, and a list whose text fits into it. The
text is given. -/
theorem getNodesString_eq {w : World} {up : Bool} {hl : Hostlist} {buf text : List Char}
    {buflen : ℤ} {len : ℤ}
    (hloaded : w.Loaded) (hnodes : w.handle.nodes up = some hl) (hbuflen : 0 < buflen)
    (hprint : hostlistRangedString hl buflen.toNat buf = some (len, text)) (hfits : 0 ≤ len) :
    getNodesString up (some buf) buflen w = .ok (some text, w.setErrnum .success) := by
  have hcheck : loadedHandleErrorCheck w = .ok (some (), w) :=
    loadedHandleErrorCheck_some.mpr ⟨hloaded, rfl⟩
  change Attempt.andThen _ _ w = _
  rw [Attempt.andThen, hcheck]
  simp only [if_neg (not_le.mpr hbuflen)]
  change Attempt.andThen _ _ w = _
  rw [Attempt.andThen, theNodes_eq hnodes]
  simp only [hprint, if_neg (not_lt.mpr hfits)]
  rfl

/-- A filled list can be walked along. -/
theorem Hostlist.Filled.walkable {hl : Hostlist} (h : hl.Filled) : ∀ hr ∈ hl.ranges, hr.Walkable :=
  fun hr hmem ↦ (h.canonical.ranges_valid hr hmem).walkable

/-- Assumes: a loaded handle with a list of hosts of at most 64 characters that can be walked along,
and an array without NULL pointers that is not empty. The names of the list, with cut suffixes, are
copied, if there is room for them. -/
theorem getNodesList_eq {w : World} {up : Bool} {hl : Hostlist} (hloaded : w.Loaded)
    (hnodes : w.handle.nodes up = some hl) (hwalk : ∀ hr ∈ hl.ranges, hr.Walkable)
    (hshort : ∀ name ∈ hl.hosts, name.length ≤ 64) {room : ℕ} (hroom : 0 < room) :
    getNodesList up (some (List.replicate room (some ()))) w =
      if hl.hosts.length ≤ room then .ok (some hl.cutHosts, w.setErrnum .success)
      else .ok (none, w.setErrnum .overflow) := by
  have hcheck : loadedHandleErrorCheck w = .ok (some (), w) :=
    loadedHandleErrorCheck_some.mpr ⟨hloaded, rfl⟩
  have hlength : ¬(List.replicate room (some ())).length = 0 := by
    rw [List.length_replicate]
    omega
  change Attempt.andThen _ _ w = _
  rw [Attempt.andThen, hcheck]
  simp only [if_neg hlength]
  change Attempt.andThen _ _ w = _
  rw [Attempt.andThen, theNodes_eq hnodes]
  simp only [copyNodes_eq hwalk hshort]
  split_ifs <;> rfl

/-- The count of a list of a loaded handle. -/
theorem nodeCount_eq {w : World} {up : Bool} {hl : Hostlist} (hloaded : w.Loaded)
    (hnodes : w.handle.nodes up = some hl) : nodeCount up w =
      .ok (some hl.nhosts, w.setErrnum .success) := by
  have hcheck : loadedHandleErrorCheck w = .ok (some (), w) :=
    loadedHandleErrorCheck_some.mpr ⟨hloaded, rfl⟩
  change Attempt.andThen _ _ w = _
  rw [Attempt.andThen, hcheck]
  change Attempt.andThen _ _ w = _
  rw [Attempt.andThen, theNodes_eq hnodes]
  rfl

/-! ### The text of a list -/

/-- A character of the text of a group is one of its prefixes or its notation, none of which is
NUL. -/
theorem nul_notMem_group {group : List HostRange} {text : List Char} (h : GroupText group text)
    (hpfx : ∀ hr ∈ group, '\x00' ∉ hr.pfx) : '\x00' ∉ text := by
  have hnumber : ∀ hr, '\x00' ∉ numberText hr := fun hr hmem ↦ by
    rcases mem_numberText hmem with hdigit | hdash
    · exact absurd hdigit (by decide)
    · exact absurd hdash (by decide)
  cases h with
  | @single hr hcount =>
    intro hmem
    exact (List.mem_append.mp hmem).elim (hpfx hr (List.mem_singleton_self hr)) (hnumber hr)
  | @bracketed pfx group hne hgroup =>
    obtain ⟨first, tail, rfl⟩ := List.exists_cons_of_ne_nil hne
    have hfirst := hpfx first List.mem_cons_self
    rw [(hgroup first List.mem_cons_self).1] at hfirst
    intro hmem
    rw [List.append_assoc] at hmem
    rcases List.mem_append.mp hmem with hmem | hmem
    · exact hfirst hmem
    · rcases List.mem_cons.mp hmem with hopen | hmem
      · exact absurd hopen (by decide)
      · rcases List.mem_append.mp hmem with hmem | hclose
        · rcases mem_intercalate hmem with hcomma | ⟨text, htext, hmem⟩
          · exact absurd hcomma (by decide)
          · obtain ⟨hr, -, rfl⟩ := List.mem_map.mp htext
            exact hnumber hr hmem
        · exact absurd hclose (by decide)

/-- Assumes: a filled list of names without NUL. Its text has no NUL. -/
theorem nul_notMem_rangedText {hl : Hostlist} (hfilled : hl.Filled)
    (hnul : ∀ name ∈ hl.hosts, '\x00' ∉ name) :
    '\x00' ∉ rangedText hl.ranges := by
  intro hmem
  rcases mem_intercalate hmem with hcomma | ⟨text, htext, hmem⟩
  · exact absurd hcomma (by decide)
  · obtain ⟨group, hgroup, rfl⟩ := List.mem_map.mp htext
    refine nul_notMem_group (groupText_spec hgroup) (fun hr hr_mem hpfx ↦ ?_) hmem
    have hinside : hr ∈ hl.ranges := by
      rw [← List.flatten_splitBy hostrangeWithinRange hl.ranges]
      exact List.mem_flatten.mpr ⟨group, hgroup, hr_mem⟩
    obtain ⟨name, hname, hstart⟩ :=
      HostRange.exists_host (hfilled.canonical.ranges_canonical hr hinside).lo_le_hi
    exact hnul name (List.mem_flatMap.mpr ⟨hr, hinside, hname⟩) (hstart.subset hpfx)

/-- Assumes: a filled list of names without NUL, printed with a result that is not negative. The
string in the buffer is the text of its ranges. -/
theorem cString_printed {hl : Hostlist} (hfilled : hl.Filled)
    (hnul : ∀ name ∈ hl.hosts, '\x00' ∉ name) {n : ℕ}
    {buf text : List Char} {len : ℤ} (hprint : hostlistRangedString hl n buf = some (len, text))
    (hfits : 0 ≤ len) :
    cString text = rangedText hl.ranges := by
  have hnames : ∀ hr ∈ hl.ranges, hr.pfx ++ numberText hr ≠ [] :=
    fun hr hmem ↦ hfilled.printable.name_ne_nil hmem
  obtain ⟨-, -, rest, hrest⟩ := hostlistRangedString_printed hnames hprint hfits
  rw [List.append_assoc, List.singleton_append] at hrest
  rw [← hrest]
  refine (cut_append rest fun c hc hnull ↦ ?_).1
  rw [hnull] at hc
  exact nul_notMem_rangedText hfilled hnul hc

/-! ### The two queries -/

/-- Assumes: a list of a handle filled with bracket-free names of at most 64 characters, a buffer in
which its text fits, and an array without NULL pointers that is not empty and has room for its
names. The copied names are those that the text denotes, and as many as the count says, exactly if
no range of the list is padded to more than 14 characters and the list has less than `2 ^ 31`
names. -/
theorem nodesList_iff {w w' : World} {up : Bool} {hl : Hostlist} {buf text : List Char}
    {buflen : ℤ} {room : ℕ}
    (hnodes : w.handle.nodes up = some hl) (hfilled : hl.Filled)
    (hnul : ∀ name ∈ hl.hosts, '\x00' ∉ name)
    (hstring : getNodesString up (some buf) buflen w = .ok (some text, w')) (hroom : 0 < room)
    (hlarge : hl.hosts.length ≤ room) :
    (∃ names count w1 w2, getNodesList up (some (List.replicate room (some ()))) w =
      .ok (some names, w1) ∧
        nodeCount up w = .ok (some count, w2) ∧ denotedNames (cString text) = some names ∧
        count = names.length) ↔
      hl.FitsSuffix ∧ hl.hosts.length < 2 ^ 31 := by
  obtain ⟨hloaded, -, len, hprint, hfits⟩ := getNodesString_some hnodes hstring
  rw [cString_printed hfilled hnul hprint hfits, denotedNames_rangedText hfilled.printable,
    getNodesList_eq hloaded hnodes hfilled.walkable (fun name hname ↦
      (hfilled.plain name hname).length_le) hroom,
    if_pos hlarge, nodeCount_eq hloaded hnodes,
    hfilled.canonical.nhosts_eq, ← cutHosts_eq_hosts_iff hfilled.canonical]
  have hlow := toInt_lt (hl.hosts.length : ℤ)
  constructor
  · rintro ⟨names, count, w1, w2, hlist, hcount, hdenoted, hlength⟩
    obtain ⟨rfl, -⟩ : hl.cutHosts = names ∧ w.setErrnum .success = w1 := by simpa using hlist
    obtain ⟨rfl, -⟩ : toInt hl.hosts.length = count ∧ w.setErrnum .success = w2 := by
      simpa using hcount
    rw [hl.length_cutHosts] at hlength
    exact ⟨(Option.some.inj hdenoted).symm, by omega⟩
  · rintro ⟨hsame, hsmall⟩
    refine ⟨_, _, _, _, rfl, rfl, congrArg some hsame.symm, ?_⟩
    rw [hl.length_cutHosts]
    exact toInt_eq_self (by omega) (by omega)

/-- A world with a loaded handle and a list of nodes that are up. -/
def listedWorld (hl : Hostlist) : World :=
  ⟨.unused,
    { newHandle with loadState := .loaded, upNodes := some hl, downNodes := some hostlistNew }, []⟩

/-- The list of `n[07-08],login,n[9-10]`. -/
def shortSuffixes : Hostlist :=
  ⟨[hostrangeCreate ['n'] 7 8 2, hostrangeCreateSingle "login".toList,
    hostrangeCreate ['n'] 9 10 1], 5⟩

theorem filled_shortSuffixes : shortSuffixes.Filled := by
  have hplain : ∀ name ∈ ["n07".toList, "n08".toList, "login".toList, "n9".toList, "n10".toList],
      PlainName name := by
    decide
  simp only [List.forall_mem_cons] at hplain
  obtain ⟨hfirst, hsecond, hthird, hfourth, hlast, -⟩ := hplain
  exact .push
    (.push (.push (.push (.push .new hfirst (show hostlistPush hostlistNew _ = some (1, _) by rfl))
    hsecond (show hostlistPush _ _ = some (1, _) by rfl)) hthird (show hostlistPush _ _ =
      some (1, _) by rfl))
    hfourth (show hostlistPush _ _ = some (1, _) by rfl)) hlast (show hostlistPush _ _ =
      some (1, shortSuffixes) by rfl)

/-- The text of the list, and its names. -/
theorem nodesList_iff_short :
    ∃ text w', getNodesString true (some (List.replicate 30 'x')) 30 (listedWorld shortSuffixes) =
      .ok (some text, w') ∧
      ((∃ names count w1 w2,
          getNodesList true (some (List.replicate 6 (some ()))) (listedWorld shortSuffixes) =
            .ok (some names, w1) ∧
          nodeCount true (listedWorld shortSuffixes) = .ok (some count, w2) ∧
          denotedNames (cString text) = some names ∧
          count = names.length) ↔
        shortSuffixes.FitsSuffix ∧ shortSuffixes.hosts.length < 2 ^ 31) := by
  obtain ⟨text, w', hstring⟩ : ∃ text w',
    getNodesString true (some (List.replicate 30 'x')) 30 (listedWorld shortSuffixes) =
      .ok (some text, w') := ⟨_, _, rfl⟩
  exact ⟨text, w', hstring, nodesList_iff rfl filled_shortSuffixes (by decide) hstring (by decide)
    (by decide)⟩

/-- The list of a name whose suffix is padded to 15 characters. -/
def longSuffix : Hostlist :=
  ⟨[hostrangeCreate ['n'] 1 1 15], 1⟩

theorem filled_longSuffix : longSuffix.Filled :=
  .push .new (show PlainName "n000000000000001".toList by decide)
    (show hostlistPush hostlistNew "n000000000000001".toList = some (1, _) by rfl)

/-- The copied names are not always those that the text denotes: the suffix of `n000000000000001` is
cut before its last digit. -/
theorem nodesList_cuts :
    ¬∀ (w w' : World) (up : Bool) (hl : Hostlist) (buf text : List Char) (buflen : ℤ) (room : ℕ),
      w.handle.nodes up = some hl → hl.Filled → (∀ name ∈ hl.hosts, '\x00' ∉ name) →
      getNodesString up (some buf) buflen w = .ok (some text, w') → 0 < room →
      hl.hosts.length ≤ room →
      ∃ names count w1 w2, getNodesList up (some (List.replicate room (some ()))) w =
        .ok (some names, w1) ∧
        nodeCount up w = .ok (some count, w2) ∧ denotedNames (cString text) = some names ∧
        count = names.length := by
  intro h
  have hfilled := filled_longSuffix
  obtain ⟨text, w', hstring⟩ : ∃ text w',
    getNodesString true (some (List.replicate 20 'x')) 20 (listedWorld longSuffix) =
        .ok (some text, w') :=
    ⟨_, _, rfl⟩
  have hnul : ∀ name ∈ longSuffix.hosts, '\x00' ∉ name := by decide
  obtain ⟨names, count, w1, w2, hlist, -, hdenoted, -⟩ :=
    h _ _ true longSuffix _ _ _ 1 rfl hfilled hnul hstring (by decide) (by decide)
  obtain ⟨hloaded, -, len, hprint, hfits⟩ := getNodesString_some rfl hstring
  rw [cString_printed hfilled hnul hprint hfits,
    denotedNames_rangedText hfilled.printable] at hdenoted
  rw [getNodesList_eq hloaded rfl hfilled.walkable (fun name hname ↦
    (hfilled.plain name hname).length_le) (by decide),
    if_pos (by decide)] at hlist
  obtain ⟨rfl, -⟩ : longSuffix.cutHosts = names ∧ _ := by simpa using hlist
  exact absurd (Option.some.inj hdenoted) (by decide)

end Whatsup
