import Whatsup.Hostlist.HostLengths
import Whatsup.Nodeupdown.Answers

/-!
# The size of the array for node names

`nodeupdown_nodelist_create` makes an array with as many entries as the clusterlist module counts
nodes. The manual promises that it can store all the nodes of either list. `roomy_iff` says when it
does: always with the default module, which counts the lists, and with the hostsfile module if the
file has as many hosts as each of the lists has. With plain names that is so if the file has a host
and no name is added twice (`length_names_le_of_once`); a line such as `n[1-3]` counts as one.
-/

set_option autoImplicit false
set_option relaxedAutoImplicit false

namespace Whatsup

open CLib

/-- The array that `nodeupdown_nodelist_create` makes is large enough: it has as many entries as
either list is said to have nodes, and a list that is not empty is copied into it without an
overflow and without an error about the arguments. -/
def World.Roomy (w : World) : Prop :=
  ∃ numnodes w1, nodelistCreate w = .ok (some numnodes, w1) ∧ ∀ up,
    (∀ count w2, nodeCount up w1 = .ok (some count, w2) → count ≤ numnodes) ∧
      ∀ hl, w.handle.nodes up = some hl → hl.hosts ≠ [] → ∀ w2,
        getNodesList up (some (List.replicate numnodes.toNat (some ()))) w1 = .ok (none, w2) →
          w2.handle.errnum ≠ .overflow ∧ w2.handle.errnum ≠ .parameters

/-- The number of entries of the array. -/
theorem nodelistCreate_eq {w : World} (hloaded : w.Loaded) :
    nodelistCreate w = .ok (some w.handle.numnodes, w.setErrnum .success) :=
  attempt_bind_some.mpr ⟨(), w, loadedHandleErrorCheck_some.mpr ⟨hloaded, rfl⟩,
    attempt_bind_some.mpr ⟨_, w, rfl, rfl⟩⟩

/-- A list that can be copied: its ranges can be walked along, its hosts fit into the entries of an
array, and it counts them. -/
structure Hostlist.Copyable (hl : Hostlist) : Prop where
  walkable : ∀ hr ∈ hl.ranges, hr.Walkable
  short : ∀ name ∈ hl.hosts, name.length ≤ 64
  counted : hl.nhosts = hl.hosts.length

/-- A filled list of less than `2 ^ 31` names can be copied. -/
theorem Hostlist.Filled.copyable {hl : Hostlist} (h : hl.Filled)
    (hsmall : hl.hosts.length < 2 ^ 31) : hl.Copyable := by
  refine ⟨h.walkable, fun name hname ↦ (h.plain name hname).length_le, ?_⟩
  rw [h.canonical.nhosts_eq, toInt_eq_self (by omega) (by omega)]

/-- A sound list of less than `2 ^ 31` hosts of at most 64 characters can be copied. -/
theorem Hostlist.Sound.copyable {hl : Hostlist} (h : hl.Sound) (hsmall : hl.hosts.length < 2 ^ 31)
    (hshort : ∀ name ∈ hl.hosts, name.length ≤ 64) : hl.Copyable := by
  refine ⟨fun hr hmem ↦ ?_, hshort, by rw [h.nhosts_eq, toInt_eq_self (by omega) (by omega)]⟩
  have hsound := h.ranges_sound hr hmem
  refine ⟨hsound.lo_le_hi, hsound.hi_le, ?_, fun hsingle ↦
    ⟨(hsound.single hsingle).1, (hsound.single hsingle).2.1⟩⟩
  unfold ulongMax
  cases hsingle : hr.singlehost with
  | true =>
    rw [(hsound.single hsingle).2.1]
    exact lt_of_le_of_lt (Nat.sub_le _ _) (by decide)
  | false =>
    have hpart : hr.hosts.length ≤ hl.hosts.length :=
      (sublist_hostsOf (List.singleton_sublist.mpr hmem)).length_le.trans'
      (le_of_eq (by rw [hostsOf, List.flatMap_cons, List.flatMap_nil, List.append_nil]))
    rw [HostRange.length_hosts hsingle] at hpart
    omega

/-- Assumes: a loaded handle with lists of given sizes that can be copied. The array is large enough
exactly if it has as many entries as either list has hosts. -/
theorem roomy_iff_length {sizes : Bool → ℕ} {w : World} (hloaded : w.Loaded)
    (hlists : ∀ up, ∃ hl, w.handle.nodes up = some hl ∧ hl.Copyable ∧ hl.hosts.length = sizes up)
    (hnumnodes : 0 ≤ w.handle.numnodes) : w.Roomy ↔ ∀ up, (sizes up : ℤ) ≤ w.handle.numnodes := by
  have hset : (w.setErrnum .success).Loaded := hloaded
  have hsame : ∀ up, (w.setErrnum .success).handle.nodes up = w.handle.nodes up := fun up ↦ by
    cases up <;> rfl
  constructor
  · rintro ⟨numnodes, w1, hcreate, hroomy⟩ up
    rw [nodelistCreate_eq hloaded] at hcreate
    obtain ⟨hvalue, rfl⟩ := Prod.mk.inj (Except.ok.inj hcreate)
    obtain rfl := Option.some.inj hvalue
    obtain ⟨hl, hnodes, hcopyable, hsize⟩ := hlists up
    rw [← hsize, ← hcopyable.counted]
    exact (hroomy up).1 hl.nhosts _ (nodeCount_eq hset ((hsame up).trans hnodes))
  · intro hfits
    refine ⟨_, _, nodelistCreate_eq hloaded, fun up ↦ ?_⟩
    obtain ⟨hl, hnodes, hcopyable, hsize⟩ := hlists up
    have hlength := hfits up
    rw [← hsize] at hlength
    constructor
    · intro count w2 hrun
      rw [nodeCount_eq hset ((hsame up).trans hnodes), hcopyable.counted] at hrun
      rw [← Option.some.inj (Prod.mk.inj (Except.ok.inj hrun)).1]
      exact hlength
    · intro other hother hne w2 hrun
      obtain rfl := Option.some.inj (hnodes.symm.trans hother)
      have hpositive := List.length_pos_of_ne_nil hne
      rw [getNodesList_eq hset ((hsame up).trans hnodes) hcopyable.walkable
        hcopyable.short (by omega),
        if_pos (by omega)] at hrun
      exact absurd hrun (by simp)

/-! ### Lists of plain names -/

/-- A call adds a name to one list at most. -/
theorem Cluster.length_entries_add_le (c : Cluster) (calls : List BackendCall) :
    (c.entries true calls).length + (c.entries false calls).length ≤ calls.length := by
  induction calls with
  | nil => exact le_rfl
  | cons call calls ih =>
    have hone : c.added true call = none ∨ c.added false call = none := by
      cases call with
      | addUpNode node => exact Or.inr rfl
      | addDownNode node => exact Or.inl rfl
      | addLastUpTime node time => exact Or.inl rfl
    have hcons : ∀ up, (c.entries up (call :: calls)).length ≤ (c.entries up calls).length + 1 ∧
        (c.added up call = none → (c.entries up (call :: calls)).length =
            (c.entries up calls).length) := by
      intro up
      unfold Cluster.entries
      cases hadded : c.added up call with
      | none => rw [List.filterMap_cons_none hadded]; exact ⟨Nat.le_succ _, fun _ ↦ rfl⟩
      | some name =>
        rw [List.filterMap_cons_some hadded]; exact ⟨le_rfl, fun h ↦ absurd h (by simp)⟩
    rw [List.length_cons]
    rcases hone with hnone | hnone
    · have hup := (hcons true).2 hnone
      have hdown := (hcons false).1
      omega
    · have hup := (hcons true).1
      have hdown := (hcons false).2 hnone
      omega

/-- A name that is added is one of the cluster. -/
theorem Cluster.contains_of_mem_entries {c : Cluster} {up : Bool} {calls : List BackendCall}
    {name : List Char}
    (h : name ∈ c.entries up calls) : name ≠ [] ∧ c.contains name = true := by
  obtain ⟨call, -, hadded⟩ := List.mem_filterMap.mp h
  obtain ⟨report, -, hentry⟩ := Option.bind_eq_some_iff.mp hadded
  have hname := (Option.filter_eq_some_iff.mp hentry).2
  simpa using hname

/-- Assumes: a cluster with hosts, and calls that add no name twice. Neither list has more names
than there are hosts. -/
theorem length_names_le_of_once {c : Cluster} {calls : List BackendCall} (hhosts : c.hosts ≠ [])
    (honce : (c.entries true calls ++ c.entries false calls).Nodup) (up : Bool) :
    (c.names up calls).length ≤ c.hosts.length := by
  have hnodup : (c.names up calls).Nodup := by
    have hnames := List.nodup_append.mp (Cluster.nodup_names honce)
    cases up
    · exact hnames.2.1
    · exact hnames.1
  refine (hnodup.subperm fun name hname ↦ ?_).length_le
  have heither : name ∈ c.names true calls ∨ name ∈ c.names false calls := by
    cases up
    · exact Or.inr hname
    · exact Or.inl hname
  rcases Cluster.mem_names.mp heither with hadded | hhost
  · have hcontains : c.contains name = true :=
      (List.mem_append.mp hadded).elim (fun h ↦ (Cluster.contains_of_mem_entries h).2)
        fun h ↦ (Cluster.contains_of_mem_entries h).2
    simpa [Cluster.contains, hhosts] using hcontains
  · exact hhost

/-- Assumes: less than `2 ^ 31` calls and hosts. The array for node names of a handle that holds
plain names is large enough exactly if the default module is loaded, or the file has as many hosts
as each of the lists has names. -/
theorem World.Holds.roomy_names {c : Cluster} {w : World} (h : w.Holds c)
    (hsmall : w.reports.length + c.hosts.length < 2 ^ 31) :
    w.Roomy ↔ c = .default ∨ ∀ up, (c.names up w.reports).length ≤ c.hosts.length := by
  have hlists : ∀ up, ∃ hl, w.handle.nodes up = some hl ∧ hl.Copyable ∧
      hl.hosts.length = (c.names up w.reports).length := by
    intro up
    obtain ⟨hl, hnodes, hfilled, hperm⟩ := h.lists up
    have hbound := c.length_names_le up w.reports
    rw [← hperm.length_eq] at hbound
    exact ⟨hl, hnodes, hfilled.copyable (lt_of_le_of_lt hbound hsmall), hperm.length_eq⟩
  rw [roomy_iff_length h.loaded hlists h.numnodes_nonneg]
  cases c with
  | default =>
    refine iff_of_true (fun up ↦ ?_) (Or.inl rfl)
    have hlength : (Cluster.default.names true w.reports).length +
      (Cluster.default.names false w.reports).length ≤
        w.reports.length := by
      simpa [Cluster.names, Cluster.hosts, undiscovered] using Cluster.length_entries_add_le
        .default w.reports
    have hnumnodes : w.handle.numnodes =
        (Cluster.default.names true w.reports).length +
            (Cluster.default.names false w.reports).length := by
      rw [h.numnodes]
      exact toInt_eq_self (by omega) (by omega)
    rw [hnumnodes]
    cases up <;> omega
  | hostsfile hosts =>
    have hnumnodes : w.handle.numnodes = hosts.length := by
      change _ + hosts.length < _ at hsmall
      rw [h.numnodes]
      exact toInt_eq_self (by omega) (by omega)
    simp only [reduceCtorEq, false_or, hnumnodes, Nat.cast_le]
    rfl

/-! ### Any texts -/

/-- A name of a cluster fits into a buffer for node names. -/
theorem Cluster.length_entry {c : Cluster} {node name : List Char} (h : c.entry node = some name) :
    name.length ≤ 64 := by
  have hname := (Option.filter_eq_some_iff.mp h).1
  cases c with
  | default =>
    change (if node.length ≤ 64 then some node else none) = some name at hname
    split_ifs at hname with hlength
    rwa [← Option.some.inj hname]
  | hostsfile hosts => simpa using (Option.filter_eq_some_iff.mp hname).2

/-- A text of a node that is not known is the text of a node. -/
theorem mem_undiscoveredTexts {entry : List Char → Option (List Char)} {text : List Char}
    (nodes : List (List Char)) :
    ∀ known, text ∈ undiscoveredTexts entry known nodes → ∃ node ∈ nodes, entry node =
      some text := by
  induction nodes with
  | nil => exact fun known h ↦ absurd h List.not_mem_nil
  | cons node nodes ih =>
    intro known h
    rw [undiscoveredTexts] at h
    split_ifs at h
    · obtain ⟨other, hother, hentry⟩ := ih known h
      exact ⟨other, List.mem_cons_of_mem _ hother, hentry⟩
    · rcases List.mem_append.mp h with hown | hlater
      · exact ⟨node, List.mem_cons_self, Option.mem_toList.mp hown⟩
      · obtain ⟨other, hother, hentry⟩ := ih _ hlater
        exact ⟨other, List.mem_cons_of_mem _ hother, hentry⟩

/-- The texts of a load with a module of the sources have at most 64 characters. -/
theorem Cluster.length_texts {c : Cluster} {up : Bool} {calls : List BackendCall} {text : List Char}
    (h : text ∈ c.membership.texts up calls) : text.length ≤ 64 := by
  rcases List.mem_append.mp h with hentry | hnot
  · obtain ⟨call, -, hadded⟩ := List.mem_filterMap.mp hentry
    obtain ⟨report, -, hentry⟩ := Option.bind_eq_some_iff.mp hadded
    exact Cluster.length_entry hentry
  · cases up with
    | true => exact absurd hnot List.not_mem_nil
    | false =>
      obtain ⟨node, -, hentry⟩ := mem_undiscoveredTexts _ _ hnot
      exact Cluster.length_entry hentry

/-- Assumes: regular texts. Each host that they name for one of the lists has at most 64
characters. -/
theorem Cluster.length_hosts {c : Cluster} {up : Bool} {calls : List BackendCall}
    (hregular : c.membership.Regular calls)
    {host : List Char} (h : host ∈ c.membership.hosts up calls) : host.length ≤ 64 := by
  obtain ⟨text, htext, hhost⟩ := List.mem_flatMap.mp h
  have hpart : (namedHosts text).length ≤ (c.membership.hosts up calls).length :=
    (List.sublist_flatten_of_mem (List.mem_map_of_mem htext)).length_le
  exact (length_le_of_mem_namedHosts (lt_of_le_of_lt hpart (hregular up).small) hhost).trans
    (Cluster.length_texts htext)

/-- Assumes: regular texts. The lists of a load count the hosts that the texts name. -/
theorem Membership.Regular.nhosts_eq {m : Membership} {calls : List BackendCall}
    (h : m.Regular calls) (up : Bool) :
    (m.lists calls up).nhosts = (m.hosts up calls).length := by
  have hsmall := (h up).small
  rw [((h up).marks_alike (h.alike up)).1.nhosts_eq, (h up).hosts_alike (h.alike up),
    Membership.hosts,
    toInt_eq_self (by omega) (by omega)]

/-- Assumes: a handle in a world without reports, and a load with a clusterlist module of the
sources that succeeds. If no push wraps around, with less than `2 ^ 31` hosts a list and in the
file, the array for node names is large enough exactly if the default module is loaded, or the file
has as many hosts as the texts of each of the lists name. If the names that are added are plain, and
the hosts of the file are plain unless they are empty, it is large enough exactly if the default
module is loaded, or the file has as many hosts as each of the lists has names; that is so if it has
hosts and no name is added twice. -/
theorem roomy_iff {c : Cluster} {env : LoadEnv} {args : LoadArgs} {w w' : World}
    (hqsort : IsSort hostrangeCmp env.qsort) (hstart : w.reports = [])
    (hload : loadData env args w = .ok (0, w'))
    (hc : w'.lib.cluster = some c) :
    (c.membership.Regular w'.reports → c.hosts.length < 2 ^ 31 →
      (w'.Roomy ↔ c = .default ∨ ∀ up, (c.membership.hosts up w'.reports).length ≤
        c.hosts.length)) ∧
      ((∀ up, ∀ name ∈ c.entries up w'.reports, PlainName name) →
        (∀ host ∈ c.hosts, host ≠ [] → PlainName host) →
        w'.reports.length + c.hosts.length < 2 ^ 31 →
        (w'.Roomy ↔ c = .default ∨ ∀ up, (c.names up w'.reports).length ≤ c.hosts.length) ∧
          (c.hosts ≠ [] → (c.entries true w'.reports ++ c.entries false w'.reports).Nodup →
            w'.Roomy)) := by
  refine ⟨fun hregular hlines ↦ ?_, fun hplain hhosts hsmall ↦ ?_⟩
  · obtain ⟨m, hm, hsorts⟩ := loadData_sorts hstart hload
    obtain rfl := Option.some.inj ((membership_of_cluster hc).symm.trans hm)
    have hdenotes := hsorts.denotes hqsort hregular
    have hlists : ∀ up, ∃ hl, w'.handle.nodes up = some hl ∧ hl.Copyable ∧
        hl.hosts.length = (c.membership.hosts up w'.reports).length := by
      intro up
      obtain ⟨hl, hnodes, -⟩ := hdenotes up
      obtain ⟨hsound, hperm⟩ := hdenotes.perm_hosts hnodes
      exact ⟨hl, hnodes, hsound.copyable (hperm.length_eq ▸ (hregular up).small)
        fun name hname ↦ Cluster.length_hosts hregular (hperm.mem_iff.mp hname), hperm.length_eq⟩
    have hnumnodes := hsorts.numnodes c hc
    have hnonneg := hsorts.numnodes_nonneg
    rw [roomy_iff_length hsorts.loaded hlists hnonneg]
    rw [hnumnodes] at hnonneg ⊢
    cases c with
    | default =>
      -- a number of nodes that is not negative has not wrapped around
      refine iff_of_true (fun up ↦ ?_) (Or.inl rfl)
      have hup := (hregular true).small
      have hdown := (hregular false).small
      change (Cluster.default.membership.hosts true w'.reports).length < _ at hup
      change (Cluster.default.membership.hosts false w'.reports).length < _ at hdown
      rw [Cluster.counted, hregular.nhosts_eq, hregular.nhosts_eq, ← Nat.cast_add] at hnonneg ⊢
      have hsum := lt_of_toInt_nonneg (by omega) hnonneg
      rw [toInt_eq_self (by omega) (by omega)]
      cases up <;> omega
    | hostsfile hosts =>
      change hosts.length < _ at hlines
      rw [Cluster.counted, toInt_eq_self (by omega) (by omega)]
      simp only [reduceCtorEq, false_or, Nat.cast_le]
      rfl
  · have hiff := (loadData_lists hqsort hstart hc hplain hhosts hsmall hload).roomy_names hsmall
    exact ⟨hiff, fun hne honce ↦ hiff.mpr (Or.inr fun up ↦ length_names_le_of_once hne honce up)⟩

/-- The array behind a load with two hosts in the hostsfile, of which one is reported, and behind
one with a line of two hosts. -/
theorem roomy_iff_twoHosts :
    (∃ w', loadData twoHostsEnv plainArgs startWorld = .ok (0, w') ∧
      w'.lib.cluster = some (.hostsfile ["n1".toList, "n2".toList]) ∧ w'.Roomy) ∧
      ∃ w', loadData rangeLineEnv plainArgs startWorld = .ok (0, w') ∧
        w'.lib.cluster = some (.hostsfile ["n[1-2]".toList, "login".toList]) ∧ w'.Roomy := by
  constructor
  · have hsummary : loadSummary (loadData twoHostsEnv plainArgs startWorld) =
        some (0, some (.hostsfile ["n1".toList, "n2".toList]), [.addUpNode "n1".toList], 1) := by
          decide +kernel
    obtain ⟨w', hload, hc, hcalls, -⟩ := exists_of_loadSummary hsummary
    have honce : ((Cluster.hostsfile ["n1".toList, "n2".toList]).entries true w'.reports ++
        (Cluster.hostsfile ["n1".toList, "n2".toList]).entries false w'.reports).Nodup := by
      rw [hcalls]
      decide
    refine ⟨w', hload, hc, ((roomy_iff isSort_insertionSort rfl hload hc).2 ?_ (by decide) ?_).2 (by
      decide) honce⟩
    · rw [hcalls]
      decide
    · rw [hcalls]
      decide
  · have hsummary : loadSummary (loadData rangeLineEnv plainArgs startWorld) =
        some (0, some (.hostsfile ["n[1-2]".toList, "login".toList]), [.addUpNode "login".toList],
          1) := by decide +kernel
    obtain ⟨w', hload, hc, hcalls, -⟩ := exists_of_loadSummary hsummary
    refine ⟨w', hload, hc,
      ((roomy_iff isSort_insertionSort rfl hload hc).1 ?_ (by decide)).mpr (Or.inr ?_)⟩
    · rw [hcalls]
      exact fun up ↦ ⟨by cases up <;> decide +kernel, by cases up <;> decide +kernel⟩
    · rw [hcalls]
      exact fun up ↦ by cases up <;> decide +kernel

/-- With an empty hostsfile the array has no entries, and a node that has been reported does not
fit. -/
theorem not_roomy_emptyFile : ∃ w', loadData emptyFileEnv plainArgs startWorld = .ok (0, w') ∧
    ¬w'.Roomy := by
  have hsummary : loadSummary (loadData emptyFileEnv plainArgs startWorld) =
      some (0, some (.hostsfile []), [.addUpNode "n1".toList], 1) := by decide +kernel
  have hasked : askTwo nodelistCreate (nodeCount true)
    (loadData emptyFileEnv plainArgs startWorld) =
      some (some 0, some 1) := by decide +kernel
  obtain ⟨w', hload, -⟩ := exists_of_loadSummary hsummary
  rw [hload] at hasked
  obtain ⟨w1, w2, hcreate, hcount⟩ := exists_of_askTwo hasked
  refine ⟨w', hload, ?_⟩
  rintro ⟨numnodes, w3, hcreate', hroomy⟩
  obtain ⟨hvalue, rfl⟩ := Prod.mk.inj (Except.ok.inj (hcreate.symm.trans hcreate'))
  obtain rfl := Option.some.inj hvalue
  exact absurd ((hroomy true).1 1 w2 hcount) (by decide)

end Whatsup
