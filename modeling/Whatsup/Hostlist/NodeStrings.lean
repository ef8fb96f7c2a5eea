import Whatsup.Hostlist.Tally

/-!
# Node strings

A node string is a host expression as it comes from a user or from a module, and goes to
`hostlist_push`. `accepted` says when the push does not return 0, and `namedHosts` which hosts the
string names: those of the ranges that its tokens push. `nodeHosts` are the hosts of the list that
`hostlist_create` makes of it, which are the same unless a range from 0 is joined to one that ends
at `ULONG_MAX`.

`hosts_pushedNode` says that `hostlist_push` appends the hosts that a string names if nothing wraps
around so (`NodeUnwrapped`), and that hosts are lost otherwise. `hosts_pushedNodes_iff` says it of
strings pushed in order.
-/

set_option autoImplicit false
set_option relaxedAutoImplicit false

namespace Whatsup

open CLib

/-! ### The hosts of a node string -/

/-- The hosts that a node string names; none, if it is no host expression. -/
def nodeHosts (node : List Char) : List (List Char) :=
  match hostlistCreate node with
  | .ok new => new.hosts
  | .error _ => []

/-- A node string that `hostlist_push` does not return 0 for: a host expression, of hosts whose
number is not 0 as an `int`. -/
def accepted (node : List Char) : Bool :=
  match hostlistCreate node with
  | .ok new => decide (new.nhosts ≠ 0)
  | .error _ => false

/-- A text all of whose ranges end below `ULONG_MAX`. -/
def BelowMax (str : List Char) : Prop :=
  ∀ tok ∈ looseTokens str, ∀ ranges, Bracketed tok ranges → ∀ range ∈ ranges, range.hi < ulongMax

/-- Assumes: an accepted text whose ranges end below `ULONG_MAX`. The ranges that it pushes are
valid. -/
theorem valid_pushedRanges {str : List Char} (hwell : ∀ tok ∈ looseTokens str, WellFormed tok)
    (hbelow : BelowMax str) :
    ∀ hr ∈ pushedRanges str, hr.Valid := by
  intro hr hmem
  have hproper := proper_pushedRanges hwell
    (fun tok htok ranges hbracketed range hrange hall ↦
      absurd hall.2 (hbelow tok htok ranges hbracketed range hrange).ne) hr hmem
  refine ⟨hproper.lo_le_hi, ?_, hproper.single⟩
  obtain ⟨tok, htok, hmem⟩ := List.mem_flatMap.mp hmem
  unfold pushedBy at hmem
  split_ifs at hmem with hopen hsuffix
  · obtain ⟨range, -, hmem⟩ := List.mem_flatMap.mp hmem
    obtain ⟨number, -, rfl⟩ := List.mem_map.mp hmem
    exact show 0 < ulongMax by decide
  · obtain ⟨range, hrange, rfl⟩ := List.mem_map.mp hmem
    obtain ⟨hnone, -⟩ | ⟨ranges, hbracketed⟩ := hwell tok htok
    · exact absurd hopen hnone
    · rw [acceptedRanges, hbracketed.2.2] at hrange
      exact hbelow tok htok ranges hbracketed range hrange
  · obtain rfl := List.mem_singleton.mp hmem
    unfold hostRange
    rcases hostnameCreate_cases (tok.take 1023) with ⟨-, hsuffix, -⟩ | ⟨pfx, suffix, -, hpfx, -, -,
      hmax, hcreate⟩
    · rw [hsuffix]
      exact show 0 < ulongMax by decide
    · rw [hcreate]
      exact (canonical_hostrangeCreate suffix.length le_rfl hmax hpfx).hi_lt

/-- Assumes: a text whose ranges end below `ULONG_MAX`. `hostlist_create` of it returns, and gives a
valid list if it gives one. -/
theorem hostlistCreate_belowMax {node : List Char} (hbelow : BelowMax node) :
    hostlistCreate node ≠ .error .diverges ∧ ∀ new, hostlistCreate node = .ok new → new.Valid := by
  have hcreate : hostlistCreate node = createTokens (looseTokens node) hostlistNew :=
    createLoop_eq _ node _ le_rfl
  refine ⟨fun hdiverges ↦ ?_, fun new hnew ↦ ?_⟩
  · rw [hcreate, createTokens_diverges_iff] at hdiverges
    obtain ⟨front, tok, back, hsplit, -, -, ranges, hbracketed, range, hrange, hmax⟩ := hdiverges
    exact absurd hmax (hbelow tok (by simp [hsplit]) ranges hbracketed range hrange).ne
  · have hwell := wellFormed_of_createTokens (hcreate.symm.trans hnew)
    rw [hostlistCreate_pushes hnew]
    exact (foldl_hostlistPushRange_spec _ _ hostlistNew_canonical.toValid
      (valid_pushedRanges hwell hbelow)).2

/-- A valid list denotes no hosts exactly if it has no ranges. -/
theorem Hostlist.Valid.hosts_eq_nil_iff {hl : Hostlist} (hvalid : hl.Valid) : hl.hosts = [] ↔
    hl.ranges = [] := by
  refine ⟨fun h ↦ ?_, fun h ↦ by rw [Hostlist.hosts, h, hostsOf_nil]⟩
  by_contra hne
  obtain ⟨hr, rest, hranges⟩ := List.exists_cons_of_ne_nil hne
  have hbounds := (hvalid.ranges_valid hr (by simp [hranges])).lo_le_hi
  rw [Hostlist.hosts, hranges, hostsOf_cons, List.append_eq_nil_iff] at h
  have hempty := h.1
  unfold HostRange.hosts at hempty
  split_ifs at hempty
  rw [List.map_eq_nil_iff, List.range'_eq_nil_iff] at hempty
  omega

/-- Assumes: a valid list and a text whose ranges end below `ULONG_MAX`. The push returns, and 0
only if the text is not accepted; it appends the hosts of the text, and leaves the list as it is if
there are none. -/
theorem hostlistPush_belowMax {hosts : Hostlist} (hvalid : hosts.Valid) {node : List Char}
    (hbelow : BelowMax node) :
    ∃ pushed hosts', hostlistPush hosts node = some (pushed, hosts') ∧
      (pushed = 0 ↔ accepted node = false) ∧
      hosts'.Valid ∧ hosts'.hosts = hosts.hosts ++ nodeHosts node ∧
      (nodeHosts node = [] → hosts' = hosts) := by
  obtain ⟨hreturns, hnew⟩ := hostlistCreate_belowMax hbelow
  unfold hostlistPush accepted nodeHosts
  cases hcreate : hostlistCreate node with
  | error failure =>
    cases failure with
    | diverges => exact absurd hcreate hreturns
    | _ => exact ⟨_, _, rfl, by simp, hvalid, (List.append_nil _).symm, fun _ ↦ rfl⟩
  | ok new =>
    have hnew_valid := hnew new hcreate
    obtain ⟨hhosts, hvalid'⟩ :=
      foldl_hostlistPushRange_spec new.ranges hosts hvalid hnew_valid.ranges_valid
    rw [← hostlistPushList_snd] at hhosts hvalid'
    refine ⟨_, _, rfl, by simp, hvalid', hhosts, fun hempty ↦ ?_⟩
    rw [hostlistPushList_snd, hnew_valid.hosts_eq_nil_iff.mp hempty, List.foldl_nil]

/-! ### Pushes that do not wrap around -/

/-- Ranges are pushed in order, and none that starts at 0 is joined to one that ends at
`ULONG_MAX`. -/
def Unwrapped : List HostRange → Hostlist → Prop
  | [], _ => True
  | hr :: rest, hl => ¬hl.Wraps hr ∧ Unwrapped rest (hostlistPushRange hl hr)

/-- Whether pushes wrap around is decided push by push. -/
def decideUnwrapped : ∀ (ranges : List HostRange) (hl : Hostlist), Decidable (Unwrapped ranges hl)
  | [], _ => isTrue trivial
  | hr :: rest, hl =>
    have := decideUnwrapped rest (hostlistPushRange hl hr)
    inferInstanceAs (Decidable (¬hl.Wraps hr ∧ Unwrapped rest (hostlistPushRange hl hr)))

instance (ranges : List HostRange) (hl : Hostlist) : Decidable (Unwrapped ranges hl) :=
  decideUnwrapped ranges hl

/-- A sound list is tallied. -/
theorem Hostlist.Sound.tallied {hl : Hostlist} (hsound : hl.Sound) : hl.Tallied :=
  ⟨fun hr hmem ↦ (hsound.ranges_sound hr hmem).toMade,
    hsound.nhosts_eq.trans (toInt_sum_count hsound.ranges_sound).symm⟩

/-- The hosts of a list whose names are those of another one and of a range. -/
theorem hosts_of_marks {hl hl' : Hostlist} {hr : HostRange} (h : hl'.marks = hl.marks ++ hr.marks) :
    hl'.hosts = hl.hosts ++ hr.hosts := by
  have hnames := congrArg (List.map Prod.fst) h
  have hown : hr.marks.map Prod.fst = hr.hosts := by
    rw [HostRange.marks, List.map_map]
    exact List.map_id _
  rwa [List.map_append, Hostlist.map_fst_marks, Hostlist.map_fst_marks, hown] at hnames

/-- Assumes: a sound list and sound ranges, whose pushes do not wrap around. Their names are
appended. -/
theorem foldl_hostlistPushRange_sound (ranges : List HostRange) :
    ∀ hl : Hostlist, hl.Sound → (∀ hr ∈ ranges, hr.Sound) → Unwrapped ranges hl →
      (ranges.foldl hostlistPushRange hl).marks = hl.marks ++ marksOf ranges ∧
        (ranges.foldl hostlistPushRange hl).Sound := by
  induction ranges with
  | nil => exact fun hl hl_sound _ _ ↦ ⟨by simp, hl_sound⟩
  | cons hr rest ih =>
    intro hl hl_sound hsound hunwrapped
    obtain ⟨hhr, hrest⟩ := List.forall_mem_cons.mp hsound
    obtain ⟨hmarks, hnext⟩ := hostlistPushRange_sound hl_sound hhr hunwrapped.1
    obtain ⟨hlast, hlast_sound⟩ := ih _ hnext hrest hunwrapped.2
    exact ⟨by rw [List.foldl_cons, hlast, hmarks, marksOf_cons, List.append_assoc], hlast_sound⟩

/-- Assumes: a list and ranges as they are made. Pushing the ranges denotes no more hosts than there
were. -/
theorem length_foldl_hostlistPushRange (ranges : List HostRange) :
    ∀ hl : Hostlist, hl.Tallied → (∀ hr ∈ ranges, hr.Made) →
      (ranges.foldl hostlistPushRange hl).hosts.length ≤ hl.hosts.length +
        (hostsOf ranges).length := by
  induction ranges with
  | nil => exact fun hl _ _ ↦ le_rfl
  | cons hr rest ih =>
    intro hl htallied hmade
    obtain ⟨hhr, hrest⟩ := List.forall_mem_cons.mp hmade
    have hfirst := (length_hostlistPushRange htallied.made hhr).1
    have hlast := ih _ (tallied_hostlistPushRange htallied hhr) hrest
    rw [List.foldl_cons, hostsOf_cons, List.length_append]
    omega

/-- Assumes: a sound list and sound ranges, whose pushes wrap around. Hosts are lost. -/
theorem length_foldl_of_wrapped (ranges : List HostRange) :
    ∀ hl : Hostlist, hl.Sound → (∀ hr ∈ ranges, hr.Sound) → ¬Unwrapped ranges hl →
      (ranges.foldl hostlistPushRange hl).hosts.length < hl.hosts.length +
        (hostsOf ranges).length := by
  induction ranges with
  | nil => exact fun hl _ _ hwrapped ↦ absurd trivial hwrapped
  | cons hr rest ih =>
    intro hl hl_sound hsound hwrapped
    obtain ⟨hhr, hrest⟩ := List.forall_mem_cons.mp hsound
    rw [List.foldl_cons, hostsOf_cons, List.length_append]
    by_cases hfirst : hl.Wraps hr
    · have hlost := (length_hostlistPushRange hl_sound.tallied.made hhr.toMade).2
        (fun r hmem ↦ (hl_sound.ranges_sound r hmem).lo_le_hi) hfirst
      have hlast := length_foldl_hostlistPushRange rest _
        (tallied_hostlistPushRange hl_sound.tallied hhr.toMade) fun r hmem ↦ (hrest r hmem).toMade
      omega
    · obtain ⟨hmarks, hnext⟩ := hostlistPushRange_sound hl_sound hhr hfirst
      have hlost := ih _ hnext hrest fun h ↦ hwrapped ⟨hfirst, h⟩
      have hlength := congrArg List.length (hosts_of_marks hmarks)
      rw [List.length_append] at hlength
      omega

/-- A push leaves a range at least. -/
theorem ranges_hostlistPushRange_ne_nil (hl : Hostlist) (hr : HostRange) :
    (hostlistPushRange hl hr).ranges ≠ [] := by
  rcases hostlistPushRange_cases hl hr with happend | ⟨front, tail, -, -, -, -, hjoined⟩
  · simp [happend]
  · simp [hjoined]

/-- Pushing ranges leaves no range exactly if there was none and none is pushed. -/
theorem ranges_foldl_eq_nil_iff (ranges : List HostRange) :
    ∀ hl : Hostlist, (ranges.foldl hostlistPushRange hl).ranges = [] ↔ hl.ranges = [] ∧
      ranges = [] := by
  induction ranges with
  | nil => exact fun hl ↦ (and_iff_left rfl).symm
  | cons hr rest ih =>
    intro hl
    rw [List.foldl_cons, ih]
    exact iff_of_false (fun h ↦ ranges_hostlistPushRange_ne_nil hl hr h.1) fun h ↦
      List.cons_ne_nil _ _ h.2

/-! ### The hosts that a node string names -/

/-- The hosts that a node string names: those of the ranges that it pushes; none, if it is no host
expression. -/
def namedHosts (node : List Char) : List (List Char) :=
  match hostlistCreate node with
  | .ok _ => hostsOf (pushedRanges node)
  | .error _ => []

/-- The hosts that a node string names, each with whether it is a single host of its list. -/
def namedMarks (node : List Char) : List (List Char × Bool) :=
  match hostlistCreate node with
  | .ok _ => marksOf (pushedRanges node)
  | .error _ => []

/-- The names of the marks are the hosts that are named. -/
@[simp]
theorem map_fst_namedMarks (node : List Char) : (namedMarks node).map Prod.fst =
    namedHosts node := by
  unfold namedMarks namedHosts
  split
  · exact map_fst_marksOf _
  · rfl

/-- The names of the marks of node strings are the hosts that they name. -/
theorem map_fst_flatMap_namedMarks (nodes : List (List Char)) :
    (nodes.flatMap namedMarks).map Prod.fst = nodes.flatMap namedHosts := by
  rw [List.map_flatMap]
  exact List.flatMap_congr fun node _ ↦ map_fst_namedMarks node

/-- The list behind `hostlist_push` of a node string, should the call return. -/
def pushedNode (hosts : Hostlist) (node : List Char) : Hostlist :=
  match hostlistCreate node with
  | .ok new => new.ranges.foldl hostlistPushRange hosts
  | .error _ => hosts

/-- The pushes of a node string do not wrap around, neither those into the list that
`hostlist_create` makes of it, nor those of the ranges of that list. -/
def NodeUnwrapped (hosts : Hostlist) (node : List Char) : Prop :=
  match hostlistCreate node with
  | .ok new => Unwrapped (pushedRanges node) hostlistNew ∧ Unwrapped new.ranges hosts
  | .error _ => True

instance (hosts : Hostlist) (node : List Char) : Decidable (NodeUnwrapped hosts node) := by
  unfold NodeUnwrapped
  cases hostlistCreate node <;> infer_instance

/-- The pushes of node strings in order do not wrap around. -/
def NodesUnwrapped : List (List Char) → Hostlist → Prop
  | [], _ => True
  | node :: nodes, hosts => NodeUnwrapped hosts node ∧ NodesUnwrapped nodes (pushedNode hosts node)

/-- Whether the pushes of node strings wrap around is decided string by string. -/
def decideNodesUnwrapped : ∀ (nodes : List (List Char)) (hosts : Hostlist),
    Decidable (NodesUnwrapped nodes hosts)
  | [], _ => isTrue trivial
  | node :: nodes, hosts =>
    have := decideNodesUnwrapped nodes (pushedNode hosts node)
    inferInstanceAs
      (Decidable (NodeUnwrapped hosts node ∧ NodesUnwrapped nodes (pushedNode hosts node)))

instance (nodes : List (List Char)) (hosts : Hostlist) : Decidable (NodesUnwrapped nodes hosts) :=
  decideNodesUnwrapped nodes hosts

/-- The range of a name is sound. -/
theorem sound_hostRange (str : List Char) : (hostRange str).Sound := by
  unfold hostRange
  rcases hostnameCreate_cases str with ⟨-, hsuffix, -⟩ | ⟨pfx, suffix, -, hpfx, -, -, hmax, hcreate⟩
  · rw [hsuffix]
    exact ⟨made_hostrangeCreateSingle str, le_rfl⟩
  · rw [hcreate]
    have hcanonical := canonical_hostrangeCreate suffix.length le_rfl hmax hpfx
    exact ⟨made_hostrangeCreate pfx suffix.length hcanonical.hi_lt.le hcanonical.hi_lt.le, le_rfl⟩

/-- Assumes: accepted tokens. The ranges that they push are sound. -/
theorem sound_pushedRanges {str : List Char} (hwell : ∀ tok ∈ looseTokens str, WellFormed tok) :
    ∀ hr ∈ pushedRanges str, hr.Sound := by
  intro hr hmem
  obtain ⟨tok, htok, hmem⟩ := List.mem_flatMap.mp hmem
  unfold pushedBy at hmem
  split_ifs at hmem with hopen hsuffix
  · obtain ⟨range, -, hmem⟩ := List.mem_flatMap.mp hmem
    obtain ⟨number, -, rfl⟩ := List.mem_map.mp hmem
    exact ⟨made_hostrangeCreateSingle _, le_rfl⟩
  · obtain ⟨range, hrange, rfl⟩ := List.mem_map.mp hmem
    obtain ⟨hnone, -⟩ | ⟨ranges, hbracketed⟩ := hwell tok htok
    · exact absurd hopen hnone
    · rw [acceptedRanges, hbracketed.2.2] at hrange
      obtain ⟨horder, hmax, -⟩ :=
        parseRangeList_forall (fun _ _ h ↦ parseSingleRange_size h) _ _ _ hbracketed.2.2
          range hrange
      exact ⟨made_hostrangeCreate _ _ (horder.trans hmax) hmax, horder⟩
  · obtain rfl := List.mem_singleton.mp hmem
    exact sound_hostRange _

/-- Assumes: a host expression. The ranges that it pushes are sound. -/
theorem sound_of_hostlistCreate {node : List Char} {new : Hostlist}
    (hcreate : hostlistCreate node = .ok new) :
    ∀ hr ∈ pushedRanges node, hr.Sound :=
  sound_pushedRanges (wellFormed_of_createTokens (by rwa [← createLoop_eq _ node _ le_rfl]))

/-- A sound range denotes a host. -/
theorem HostRange.Sound.hosts_ne_nil {hr : HostRange} (hsound : hr.Sound) : hr.hosts ≠ [] := by
  have hbounds := hsound.lo_le_hi
  unfold HostRange.hosts
  split_ifs
  · exact List.cons_ne_nil _ _
  · rw [ne_eq, List.map_eq_nil_iff, List.range'_eq_nil_iff]
    omega

/-- Assumes: a host expression. It names no host exactly if the list that is made of it has no
range. -/
theorem namedHosts_eq_nil_iff {node : List Char} {new : Hostlist}
    (hcreate : hostlistCreate node = .ok new) :
    namedHosts node = [] ↔ new.ranges = [] := by
  have hsound := sound_of_hostlistCreate hcreate
  have hnamed : namedHosts node = hostsOf (pushedRanges node) := by rw [namedHosts, hcreate]
  rw [hnamed, hostlistCreate_pushes hcreate, ranges_foldl_eq_nil_iff]
  refine ⟨fun h ↦ ⟨rfl, List.eq_nil_iff_forall_not_mem.mpr fun hr hmem ↦ ?_⟩, fun h ↦ by
    rw [h.2, hostsOf_nil]⟩
  exact (hsound hr hmem).hosts_ne_nil (List.flatMap_eq_nil_iff.mp h hr hmem)

/-- An accepted node string names a host. -/
theorem namedHosts_ne_nil {node : List Char} (h : accepted node = true) : namedHosts node ≠ [] := by
  unfold accepted at h
  cases hcreate : hostlistCreate node with
  | error failure =>
    rw [hcreate] at h
    exact absurd h (by simp)
  | ok new =>
    rw [hcreate] at h
    intro hnone
    have hcount := (tallied_createLoop _ _ _ _ tallied_hostlistNew hcreate).nhosts_eq
    rw [(namedHosts_eq_nil_iff hcreate).mp hnone] at hcount
    exact of_decide_eq_true h (hcount.trans toInt_zero)

/-- `hostlist_push` returns unless `hostlist_create` does not; it returns 0 exactly if the string is
not accepted. -/
theorem hostlistPush_eq (hosts : Hostlist) (node : List Char) :
    (hostlistCreate node = .error .diverges ∧ hostlistPush hosts node = none) ∨
      hostlistCreate node ≠ .error .diverges ∧
        ∃ pushed, hostlistPush hosts node = some (pushed, pushedNode hosts node) ∧
          (pushed = 0 ↔ accepted node = false) := by
  unfold hostlistPush pushedNode accepted
  cases hcreate : hostlistCreate node with
  | error failure =>
    cases failure with
    | diverges => exact Or.inl ⟨rfl, rfl⟩
    | _ => exact Or.inr ⟨by simp, 0, rfl, by simp⟩
  | ok new => exact Or.inr ⟨by simp, new.nhosts, by simp [hostlistPushList_snd], by simp⟩

/-- A push leaves no range exactly if there was none and the string names no host. -/
theorem ranges_pushedNode_eq_nil_iff (hosts : Hostlist) (node : List Char) :
    (pushedNode hosts node).ranges = [] ↔ hosts.ranges = [] ∧ namedHosts node = [] := by
  cases hcreate : hostlistCreate node with
  | error failure => simp [pushedNode, namedHosts, hcreate]
  | ok new =>
    rw [namedHosts_eq_nil_iff hcreate, pushedNode, hcreate]
    exact ranges_foldl_eq_nil_iff new.ranges hosts

/-- Assumes: a tallied list. Behind the push of a string it is tallied, and denotes no more hosts
than it did and than the string names. -/
theorem tallied_pushedNode {hosts : Hostlist} (htallied : hosts.Tallied) (node : List Char) :
    (pushedNode hosts node).Tallied ∧ (pushedNode hosts node).hosts.length ≤ hosts.hosts.length +
      (namedHosts node).length := by
  unfold pushedNode namedHosts
  cases hcreate : hostlistCreate node with
  | error failure => exact ⟨htallied, le_rfl⟩
  | ok new =>
    have hnew : new.Tallied := tallied_createLoop _ _ _ _ tallied_hostlistNew hcreate
    have hcreated := length_foldl_hostlistPushRange _ _ tallied_hostlistNew
      fun hr hmem ↦ (sound_of_hostlistCreate hcreate hr hmem).toMade
    have hpushed := length_foldl_hostlistPushRange new.ranges hosts htallied hnew.made
    rw [← hostlistCreate_pushes hcreate, hosts_hostlistNew, List.length_nil,
      Nat.zero_add] at hcreated
    change (hostsOf new.ranges).length ≤ _ at hcreated
    refine ⟨?_, by simp only; omega⟩
    refine List.foldlRecOn new.ranges hostlistPushRange htallied fun hl hl_tallied hr hmem ↦ ?_
    exact tallied_hostlistPushRange hl_tallied (hnew.made hr hmem)

/-- Assumes: a sound list, and a string whose pushes do not wrap around. The names of the string are
appended and the list stays sound. -/
theorem marks_pushedNode {hosts : Hostlist} (hsound : hosts.Sound) {node : List Char}
    (hunwrapped : NodeUnwrapped hosts node) :
    (pushedNode hosts node).marks = hosts.marks ++ namedMarks node ∧
    (pushedNode hosts node).Sound := by
  unfold NodeUnwrapped at hunwrapped
  unfold pushedNode namedMarks
  cases hcreate : hostlistCreate node with
  | error failure => exact ⟨(List.append_nil _).symm, hsound⟩
  | ok new =>
    rw [hcreate] at hunwrapped
    have hranges := sound_of_hostlistCreate hcreate
    obtain ⟨hnamed, hnew⟩ :=
      foldl_hostlistPushRange_sound _ _ hostlistNew_sound hranges hunwrapped.1
    rw [← hostlistCreate_pushes hcreate] at hnamed hnew
    change marksOf new.ranges = [] ++ _ at hnamed
    rw [List.nil_append] at hnamed
    simp only
    rw [← hnamed]
    exact foldl_hostlistPushRange_sound _ _ hsound hnew.ranges_sound hunwrapped.2

/-- Assumes: a sound list. If the pushes of a string do not wrap around, the hosts that it names are
appended and the list stays sound; otherwise hosts are lost. -/
theorem hosts_pushedNode {hosts : Hostlist} (hsound : hosts.Sound) (node : List Char) :
    (NodeUnwrapped hosts node →
      (pushedNode hosts node).hosts = hosts.hosts ++ namedHosts node ∧
      (pushedNode hosts node).Sound) ∧
    (¬NodeUnwrapped hosts node → (pushedNode hosts node).hosts.length < hosts.hosts.length +
      (namedHosts node).length) := by
  constructor
  · intro hunwrapped
    obtain ⟨hmarks, hpushed⟩ := marks_pushedNode hsound hunwrapped
    have hnames := congrArg (List.map Prod.fst) hmarks
    rw [List.map_append, Hostlist.map_fst_marks, Hostlist.map_fst_marks,
      map_fst_namedMarks] at hnames
    exact ⟨hnames, hpushed⟩
  · unfold NodeUnwrapped pushedNode namedHosts
    cases hcreate : hostlistCreate node with
    | error failure => exact fun h ↦ absurd trivial h
    | ok new =>
      intro hwrapped
      have hranges := sound_of_hostlistCreate hcreate
      have hpushes := hostlistCreate_pushes hcreate
      simp only at hwrapped ⊢
      by_cases hcreated : Unwrapped (pushedRanges node) hostlistNew
      · obtain ⟨hnamed, hnew⟩ :=
          foldl_hostlistPushRange_sound _ _ hostlistNew_sound hranges hcreated
        rw [← hpushes] at hnamed hnew
        have hlost := length_foldl_of_wrapped _ _ hsound hnew.ranges_sound fun hlater ↦
          hwrapped ⟨hcreated, hlater⟩
        have hsame : hostsOf new.ranges = hostsOf (pushedRanges node) := by
          rw [← map_fst_marksOf, ← map_fst_marksOf]
          exact congrArg (List.map Prod.fst) hnamed
        rwa [hsame] at hlost
      · have hlost := length_foldl_of_wrapped _ _ hostlistNew_sound hranges hcreated
        have hmade := (tallied_createLoop _ _ _ _ tallied_hostlistNew hcreate).made
        have hpushed := length_foldl_hostlistPushRange new.ranges hosts hsound.tallied hmade
        rw [← hpushes, hosts_hostlistNew, List.length_nil, Nat.zero_add] at hlost
        change (hostsOf new.ranges).length < _ at hlost
        omega

/-- Assumes: a tallied list. Behind the pushes of strings it denotes no more hosts than it did and
than the strings name. -/
theorem length_foldl_pushedNode (nodes : List (List Char)) :
    ∀ hosts : Hostlist, hosts.Tallied →
      (nodes.foldl pushedNode hosts).hosts.length ≤ hosts.hosts.length +
        (nodes.flatMap namedHosts).length := by
  induction nodes with
  | nil => exact fun hosts _ ↦ le_rfl
  | cons node nodes ih =>
    intro hosts htallied
    obtain ⟨hnext, hle⟩ := tallied_pushedNode htallied node
    have hlater := ih _ hnext
    rw [List.foldl_cons, List.flatMap_cons, List.length_append]
    omega

/-- Assumes: a sound list, and strings whose pushes do not wrap around. Their names are appended and
the list stays sound. -/
theorem marks_pushedNodes (nodes : List (List Char)) :
    ∀ hosts : Hostlist, hosts.Sound → NodesUnwrapped nodes hosts →
      (nodes.foldl pushedNode hosts).marks = hosts.marks ++ nodes.flatMap namedMarks ∧
      (nodes.foldl pushedNode hosts).Sound := by
  induction nodes with
  | nil => exact fun hosts hsound _ ↦ ⟨by simp, hsound⟩
  | cons node nodes ih =>
    intro hosts hsound hunwrapped
    obtain ⟨hmarks, hnext⟩ := marks_pushedNode hsound hunwrapped.1
    obtain ⟨hlast, hlast_sound⟩ := ih _ hnext hunwrapped.2
    exact ⟨by rw [List.foldl_cons, hlast, hmarks, List.flatMap_cons, List.append_assoc],
      hlast_sound⟩

/-- Assumes: a sound list. Strings pushed in order append the hosts that they name exactly if the
pushes do not wrap around; and then the list stays sound. -/
theorem hosts_pushedNodes_iff (nodes : List (List Char)) :
    ∀ hosts : Hostlist, hosts.Sound →
      ((nodes.foldl pushedNode hosts).hosts = hosts.hosts ++ nodes.flatMap namedHosts ↔
        NodesUnwrapped nodes hosts) ∧
        (NodesUnwrapped nodes hosts → (nodes.foldl pushedNode hosts).Sound) := by
  induction nodes with
  | nil => exact fun hosts hsound ↦ ⟨iff_of_true (by simp) trivial, fun _ ↦ hsound⟩
  | cons node nodes ih =>
    intro hosts hsound
    obtain ⟨happends, hlost⟩ := hosts_pushedNode hsound node
    rw [List.foldl_cons, List.flatMap_cons, ← List.append_assoc]
    by_cases hfirst : NodeUnwrapped hosts node
    · obtain ⟨hhosts, hnext⟩ := happends hfirst
      obtain ⟨hiff, hlast⟩ := ih _ hnext
      rw [← hhosts, hiff]
      exact ⟨(and_iff_right hfirst).symm, fun h ↦ hlast h.2⟩
    · have hrest := length_foldl_pushedNode nodes _ (tallied_pushedNode hsound.tallied node).1
      have hless := hlost hfirst
      refine ⟨iff_of_false (fun hsame ↦ ?_) fun h ↦ hfirst h.1, fun h ↦ absurd h.1 hfirst⟩
      have hlengths := congrArg List.length hsame
      rw [List.length_append, List.length_append] at hlengths
      omega

end Whatsup
