import Whatsup.Nodeupdown.Answers
import Whatsup.Nodeupdown.HostsfileLines

/-!
# Nodes that a load files as up or down

`World.Classifies` says that a load has put every host that the hostsfile lists, and nothing else,
on the right list: a host that is reported up is up, and one that is reported down or not at all is
down. `classifies_iff` says when that is so. The load works with the hosts of the lines that it can
read (`readableHosts`), and these have to be all that the file lists. If there is no such line,
every report is taken, and the reported names have to be what the file lists.
-/

set_option autoImplicit false
set_option relaxedAutoImplicit false

namespace Whatsup

open CLib

/-! ### The hosts of the file and the reports -/

/-- The hosts that a hostsfile lists, in their short form, whatever comes of reading it. -/
def listedHosts (events : List ReadEvent) : List (List Char) :=
  (textLines (fileText events)).filterMap lineHost

/-- The hosts of the lines that can be read: those in front of the first read that fails and of the
first line that does not fit in the buffer. -/
def readableHosts (events : List ReadEvent) : List (List Char) :=
  (fitting 65535 (fileLines events).1).filterMap lineHost

/-- The complete lines in front of a read that fails are lines of the file. -/
theorem fileLines_start (events : List ReadEvent) :
    (fileLines events).1 <+: textLines (fileText events) := by
  fun_induction fileLines events with
  | case1 => exact List.prefix_rfl
  | case2 events ih =>
    rw [fileText, textLines, if_pos rfl]
    exact (List.prefix_cons_inj _).mpr ih
  | case3 c events hc failed hlines ih =>
    cases failed with
    | true => exact List.nil_prefix
    | false =>
      have hfailed : .failed ∉ events := fun hmem ↦
        absurd ((fileLines_failed events).mpr hmem) (by simp [hlines])
      have htext := hlines.symm.trans (fileLines_text events hfailed)
      rw [fileText, textLines, if_neg hc, ← (Prod.mk.inj htext).1]
      exact List.prefix_rfl
  | case4 c events hc line lines failed hlines ih =>
    rw [hlines] at ih
    obtain ⟨others, htext⟩ := ih
    rw [fileText, textLines, if_neg hc, ← htext]
    exact ⟨others, rfl⟩
  | case5 events ih => exact ih
  | case6 => exact List.nil_prefix

/-- What can be read is listed. -/
theorem readableHosts_sublist (events : List ReadEvent) :
    (readableHosts events).Sublist (listedHosts events) :=
  (((List.takeWhile_prefix _).trans (fileLines_start events)).sublist).filterMap lineHost

/-- The setup of the hostsfile module, if it succeeds, reads these hosts. -/
theorem hostsRead_opened {env : LoadEnv} {events : List ReadEvent} {hosts : List (List Char)}
    (hfile : env.hostsfile = .opened events) (h : env.hostsRead = some hosts) : hosts =
      readableHosts events := by
  have hread : readHostsfile 65536 events =
      loadLines 65535 (fileLines events).2 (fileLines events).1 :=
    readHostsfile_eq_loadLines 65534 rfl
  unfold LoadEnv.hostsRead at h
  rw [hfile] at h
  simp only at h
  split_ifs at h with hvalue
  rw [hread] at hvalue h
  rw [← Option.some.inj h, loadLines_hosts _ _ _ hvalue, readableHosts]

/-- What calls report, in order: whether a node is up, and its name up to the first dot. -/
def shortReports (calls : List BackendCall) : List (Bool × List Char) :=
  calls.filterMap fun call ↦ call.report.map fun report ↦ (report.1, report.2.takeWhile (· ≠ '.'))

/-- Assumes: a name of at most 64 characters. The hostsfile module cuts it at its first dot. -/
theorem nodename_hostsfile (hosts : List (List Char)) {node : List Char} (h : node.length ≤ 64) :
    (Cluster.hostsfile hosts).nodename node = some (node.takeWhile (· ≠ '.')) := by
  have hname : shortNodename node = some (node.takeWhile (· ≠ '.')) := by
    unfold shortNodename
    by_cases hdot : '.' ∈ node
    · simp only [List.take_of_length_le h, if_pos hdot]
    · rw [if_neg hdot, takeWhile_ne_eq_self hdot]
  rw [Cluster.nodename, hname, Option.filter_some, if_pos]
  exact decide_eq_true ((List.takeWhile_prefix _).length_le.trans h)

/-- The name that a report adds to one of the lists, if it adds one. -/
def Cluster.taken (c : Cluster) (up : Bool) (report : Bool × List Char) : Option (List Char) :=
  if report.1 = up ∧ report.2 ≠ [] ∧ c.contains report.2 = true then some report.2 else none

theorem Cluster.taken_eq_some {c : Cluster} {up : Bool} {report : Bool × List Char}
    {name : List Char} :
    c.taken up report = some name ↔ report = (up, name) ∧ name ≠ [] ∧ c.contains name = true := by
  unfold Cluster.taken
  constructor
  · intro h
    split_ifs at h with htaken
    obtain rfl := Option.some.inj h
    exact ⟨Prod.ext htaken.1 rfl, htaken.2⟩
  · rintro ⟨rfl, htaken⟩
    exact if_pos ⟨rfl, htaken⟩

/-- Assumes: reported names of at most 64 characters. The names that are added are those of the
short reports. -/
theorem entries_hostsfile (hosts : List (List Char)) (up : Bool) {calls : List BackendCall}
    (h : ∀ call ∈ calls, ∀ report ∈ call.report, report.2.length ≤ 64) :
    (Cluster.hostsfile hosts).entries up calls =
      (shortReports calls).filterMap ((Cluster.hostsfile hosts).taken up) := by
  rw [shortReports, List.filterMap_filterMap, Cluster.entries]
  refine List.filterMap_congr fun call hcall ↦ ?_
  unfold Cluster.added
  cases hreport : call.report with
  | none => rfl
  | some report =>
    have hname := nodename_hostsfile hosts (h call hcall report hreport)
    by_cases hside : report.1 = up
    · simp [Cluster.entry, Cluster.taken, hname, hside, Option.filter_some]
    · simp [Cluster.taken, hside]

/-- Assumes: reported names of at most 64 characters, and no short name that is reported twice. No
name is added twice. -/
theorem nodup_entries_hostsfile (hosts : List (List Char)) {calls : List BackendCall}
    (hshort : ∀ call ∈ calls, ∀ report ∈ call.report, report.2.length ≤ 64)
    (honce : ((shortReports calls).map Prod.snd).Nodup) :
    ((Cluster.hostsfile hosts).entries true calls ++ (Cluster.hostsfile hosts).entries false
      calls).Nodup := by
  rw [entries_hostsfile hosts true hshort, entries_hostsfile hosts false hshort]
  have hside : ∀ up, ((shortReports calls).filterMap ((Cluster.hostsfile hosts).taken up)).Nodup :=
      fun up ↦
    honce.of_map.filterMap fun report other name hname hother ↦
      (Cluster.taken_eq_some.mp hname).1.trans (Cluster.taken_eq_some.mp hother).1.symm
  refine List.Nodup.append (hside true) (hside false) fun name hup hdown ↦ ?_
  obtain ⟨report, hreport, hname⟩ := List.mem_filterMap.mp hup
  obtain ⟨other, hother, hname'⟩ := List.mem_filterMap.mp hdown
  obtain rfl := (Cluster.taken_eq_some.mp hname).1
  obtain rfl := (Cluster.taken_eq_some.mp hname').1
  exact absurd (List.inj_on_of_nodup_map honce hreport hother rfl) (by simp)

/-! ### What belongs on the lists -/

/-- Whether a host belongs on a list by the reports: it is reported so, or, for the nodes that are
down, not at all. -/
def FiledAs (calls : List BackendCall) (up : Bool) (name : List Char) : Prop :=
  (up, name) ∈ shortReports calls ∨ up = false ∧ ∀ side, (side, name) ∉ shortReports calls

/-- A list denotes the names with a property, each once, and counts them. -/
def Hostlist.ListsOnce (hl : Hostlist) (belongs : List Char → Prop) : Prop :=
  hl.hosts.Nodup ∧ hostlistCount hl = hl.hosts.length ∧ ∀ name, name ∈ hl.hosts ↔ belongs name

/-- The lists of a handle denote exactly the given hosts, each on the list on which it belongs by
the reports. -/
def World.Classifies (hosts : List (List Char)) (w : World) : Prop :=
  ∀ up, ∃ hl, w.handle.nodes up = some hl ∧ hl.ListsOnce fun name ↦ name ∈ hosts ∧
    FiledAs w.reports up name

/-- The names on which a load works: the hosts that have been read or, if there are none, whatever
is reported. -/
def Worked (hosts : List (List Char)) (calls : List BackendCall) (name : List Char) : Prop :=
  name ∈ hosts ∨ hosts = [] ∧ name ≠ [] ∧ ∃ up, (up, name) ∈ shortReports calls

/-- Every name belongs on a list. -/
theorem exists_filedAs (calls : List BackendCall) (name : List Char) : ∃ up,
    FiledAs calls up name := by
  by_cases hreported : ∃ up, (up, name) ∈ shortReports calls
  · obtain ⟨up, hup⟩ := hreported
    exact ⟨up, Or.inl hup⟩
  · exact ⟨false, Or.inr ⟨rfl, not_exists.mp hreported⟩⟩

/-- Assumes: hosts that have names, and reported names of at most 64 characters. The names of a list
are those on which the load works, where they belong. -/
theorem mem_names_hostsfile {hosts : List (List Char)} {calls : List BackendCall}
    (hnames : ∀ host ∈ hosts, host ≠ [])
    (hshort : ∀ call ∈ calls, ∀ report ∈ call.report, report.2.length ≤ 64) (up : Bool)
    (name : List Char) :
    name ∈ (Cluster.hostsfile hosts).names up calls ↔ Worked hosts calls name ∧
    FiledAs calls up name := by
  have hentries : ∀ side, name ∈ (Cluster.hostsfile hosts).entries side calls ↔
      Worked hosts calls name ∧ (side, name) ∈ shortReports calls := by
    intro side
    rw [entries_hostsfile hosts side hshort, List.mem_filterMap]
    constructor
    · rintro ⟨report, hreport, htaken⟩
      obtain ⟨rfl, hne, hcontains⟩ := Cluster.taken_eq_some.mp htaken
      refine ⟨?_, hreport⟩
      rcases (Bool.or_eq_true _ _).mp hcontains with hnone | hhost
      · exact Or.inr ⟨of_decide_eq_true hnone, hne, side, hreport⟩
      · exact Or.inl (List.contains_iff_mem.mp hhost)
    · rintro ⟨hworked, hreport⟩
      refine ⟨(side, name), hreport, Cluster.taken_eq_some.mpr ⟨rfl, ?_⟩⟩
      rcases hworked with hhost | ⟨hnone, hne, -⟩
      · exact ⟨hnames name hhost, by simp [Cluster.contains, Cluster.hosts, hhost]⟩
      · exact ⟨hne, by simp [Cluster.contains, Cluster.hosts, hnone]⟩
  unfold Cluster.names FiledAs
  cases up with
  | true => simp [hentries]
  | false =>
    rw [if_neg (by simp), List.mem_append, mem_undiscovered, List.mem_append, hentries true,
      hentries false]
    change _ ∨ name ∈ hosts ∧ _ ↔ _
    simp only [Bool.forall_bool, true_and]
    constructor
    · rintro (⟨hworked, hreport⟩ | ⟨hhost, hnot⟩)
      · exact ⟨hworked, Or.inl hreport⟩
      · exact ⟨Or.inl hhost, Or.inr ⟨fun h ↦ hnot (Or.inr ⟨Or.inl hhost, h⟩), fun h ↦
          hnot (Or.inl ⟨Or.inl hhost, h⟩)⟩⟩
    · rintro ⟨hworked, hreport | ⟨hdown, hup⟩⟩
      · exact Or.inl ⟨hworked, hreport⟩
      · refine Or.inr ⟨?_, fun h ↦ h.elim (fun h ↦ hup h.2) fun h ↦ hdown h.2⟩
        refine hworked.resolve_right ?_
        rintro ⟨-, -, side, hreport⟩
        cases side
        · exact hdown hreport
        · exact hup hreport

/-- Assumes: reported names of at most 64 characters, no short name that is reported twice, and less
than `2 ^ 31` calls and hosts. The lists of a loaded handle are right for some hosts exactly if
those are the names on which the load works. -/
theorem World.Holds.classifies_of_worked {hosts listed : List (List Char)} {w : World}
    (h : w.Holds (.hostsfile hosts))
    (hshort : ∀ call ∈ w.reports, ∀ report ∈ call.report, report.2.length ≤ 64)
    (honce : ((shortReports w.reports).map Prod.snd).Nodup)
    (hsmall : w.reports.length + hosts.length < 2 ^ 31) :
    w.Classifies listed ↔ ∀ name, name ∈ listed ↔ Worked hosts w.reports name := by
  have hnames : ∀ host ∈ hosts, host ≠ [] := fun host hmem ↦ (h.hosts_plain host hmem).1.ne_nil
  have hnodup :=
    List.nodup_append.mp (Cluster.nodup_names (nodup_entries_hostsfile hosts hshort honce))
  constructor
  · intro hclassifies name
    obtain ⟨up, hfiled⟩ := exists_filedAs w.reports name
    obtain ⟨hl, hnodes, -, -, hmem⟩ := hclassifies up
    obtain ⟨hl', hnodes', -, hperm⟩ := h.lists up
    obtain rfl := Option.some.inj (hnodes.symm.trans hnodes')
    have hboth :=
      (hmem name).symm.trans (hperm.mem_iff.trans (mem_names_hostsfile hnames hshort up name))
    exact ⟨fun hlisted ↦ (hboth.mp ⟨hlisted, hfiled⟩).1, fun hworked ↦
      (hboth.mpr ⟨hworked, hfiled⟩).1⟩
  · intro hlisted up
    obtain ⟨hl, hnodes, hfilled, hperm⟩ := h.lists up
    refine ⟨hl, hnodes, hperm.nodup_iff.mpr ?_, ?_, fun name ↦ ?_⟩
    · cases up
      · exact hnodup.2.1
      · exact hnodup.1
    · have hlength : hl.hosts.length < 2 ^ 31 := by
        rw [hperm.length_eq]
        exact lt_of_le_of_lt (Cluster.length_names_le _ up w.reports) hsmall
      rw [hostlistCount, hfilled.canonical.nhosts_eq]
      exact toInt_eq_self (by omega) (by omega)
    · have hmem := mem_names_hostsfile hnames hshort up name
      rw [← hlisted name] at hmem
      exact hperm.mem_iff.trans hmem

/-! ### A load with the hostsfile module -/

/-- Assumes: a short name of letters, digits, dashes and underscores that is not empty. It is
plain. -/
theorem plainName_of_word {name : List Char} (hne : name ≠ []) (hlength : name.length ≤ 64)
    (hword : ∀ c ∈ name, c.isAlphanum = true ∨ c = '-' ∨ c = '_') : PlainName name := by
  refine ⟨hne, hlength, fun c hc ↦ ?_⟩
  have hother : ∀ d : Char, (d.isAlphanum = false ∧ d ≠ '-' ∧ d ≠ '_') → c ≠ d := by
    rintro d ⟨hnot, hdash, hunderscore⟩ rfl
    rcases hword c hc with h | h | h
    · exact absurd (hnot.symm.trans h) (by simp)
    · exact hdash h
    · exact hunderscore h
  have htab := hother '\t' (by decide)
  have hcomma := hother ',' (by decide)
  have hblank := hother ' ' (by decide)
  exact ⟨by simp [isSep, htab, hcomma, hblank], hother '[' (by decide), hother ']' (by decide)⟩

/-- A host that is listed has at most 64 characters. -/
theorem length_le_of_listed {events : List ReadEvent} {name : List Char}
    (h : name ∈ listedHosts events) :
    name.length ≤ 64 := by
  obtain ⟨line, -, hline⟩ := List.mem_filterMap.mp h
  unfold lineHost at hline
  split at hline
  · rename_i host
    obtain rfl := Option.some.inj hline
    exact (hostsfileLine_host host).2
  · exact absurd hline (by simp)
  · exact absurd hline (by simp)

/-- A load that succeeds with the hostsfile module has hosts, which it counts at its end. -/
theorem exists_cluster {env : LoadEnv} {args : LoadArgs} {w w' : World}
    (hload : loadData env args w = .ok (0, w'))
    (hmodule : w'.lib.clusterlist.info = some .hostsfile) : ∃ hosts, w'.lib.cluster =
      some (.hostsfile hosts) := by
  obtain ⟨-, -, hbody⟩ := loadData_ok hload
  obtain ⟨_, w1, -, hrun⟩ := attempt_bind_some.mp hbody
  obtain ⟨_, w2, -, hrun⟩ := attempt_bind_some.mp hrun
  obtain ⟨_, w3, -, hrun⟩ := attempt_bind_some.mp hrun
  obtain ⟨_, w4, -, hrun⟩ := attempt_bind_some.mp hrun
  obtain ⟨_, w5, -, hrun⟩ := attempt_bind_some.mp hrun
  obtain ⟨_, w6, hcount, hend⟩ := attempt_bind_some.mp hrun
  have hlib : w'.lib = w5.lib := by
    obtain ⟨-, rfl⟩ := Prod.mk.inj (Except.ok.inj hend)
    exact congrArg Prod.fst (frame_countNodes _ _ _ hcount)
  obtain ⟨numnodes, w7, hnumnodes, -⟩ := attempt_bind_some.mp hcount
  rw [clusterlistModuleGetNumnodes, ← hlib, hmodule] at hnumnodes
  obtain ⟨hosts, w8, hhosts, -⟩ := attempt_bind_some.mp hnumnodes
  rw [hostsfileHosts, ← hlib] at hhosts
  cases hread : w'.lib.hosts with
  | none =>
    rw [hread] at hhosts
    exact absurd hhosts (by simp)
  | some hosts => exact ⟨hosts, by rw [Library.cluster, hmodule, hread]; rfl⟩

/-- Assumes: a handle in a world without reports, a load with the hostsfile module that succeeds,
listed hosts of letters, digits, dashes and underscores, reported names of at most 64 characters, no
short name that is reported twice, and less than `2 ^ 31` calls and hosts. The load files exactly
the listed hosts by their reports if they are the names on which it works, that is, if every listed
host can be read or no host can be read and those that are reported are the listed ones. That is
necessary, too, if a host can be read or the reported names are plain. -/
theorem classifies_iff {env : LoadEnv} {args : LoadArgs} {w w' : World} {events : List ReadEvent}
    (hqsort : IsSort hostrangeCmp env.qsort) (hstart : w.reports = [])
    (hload : loadData env args w = .ok (0, w'))
    (hmodule : w'.lib.clusterlist.info = some .hostsfile) (hfile : env.hostsfile = .opened events)
    (hword : ∀ host ∈ listedHosts events, ∀ c ∈ host, c.isAlphanum = true ∨ c = '-' ∨ c = '_')
    (hshort : ∀ call ∈ w'.reports, ∀ report ∈ call.report, report.2.length ≤ 64)
    (honce : ((shortReports w'.reports).map Prod.snd).Nodup)
    (hsmall : w'.reports.length + (readableHosts events).length < 2 ^ 31) :
    ((∀ name, name ∈ listedHosts events ↔ Worked (readableHosts events) w'.reports name) →
        w'.Classifies (listedHosts events)) ∧
      ((readableHosts events ≠ [] ∨ ∀ report ∈ shortReports w'.reports, report.2 ≠ [] →
        PlainName report.2) →
        w'.Classifies (listedHosts events) →
        ∀ name, name ∈ listedHosts events ↔ Worked (readableHosts events) w'.reports name) := by
  obtain ⟨hosts, hc⟩ := exists_cluster hload hmodule
  obtain rfl := hostsRead_opened hfile ((loadData_knows hstart hload).hosts hosts hc)
  have hlisted : ∀ name ∈ listedHosts events, name ≠ [] → PlainName name := fun name hmem hne ↦
    plainName_of_word hne (length_le_of_listed hmem) (hword name hmem)
  have hentries : ∀ up, ∀ name ∈ (Cluster.hostsfile (readableHosts events)).entries up w'.reports,
      name ≠ [] ∧ (up, name) ∈ shortReports w'.reports ∧
          (readableHosts events = [] ∨ name ∈ readableHosts events) := by
    intro up name hmem
    rw [entries_hostsfile _ up hshort, List.mem_filterMap] at hmem
    obtain ⟨report, hreport, htaken⟩ := hmem
    obtain ⟨rfl, hne, hcontains⟩ := Cluster.taken_eq_some.mp htaken
    exact ⟨hne, hreport, ((Bool.or_eq_true _ _).mp hcontains).imp of_decide_eq_true
      List.contains_iff_mem.mp⟩
  have hread : ∀ host ∈ readableHosts events, host ≠ [] → PlainName host := fun host hmem ↦
    hlisted host ((readableHosts_sublist events).subset hmem)
  have hiff : (∀ up, ∀ name ∈ (Cluster.hostsfile (readableHosts events)).entries up w'.reports,
    PlainName name) →
      (w'.Classifies (listedHosts events) ↔
        ∀ name, name ∈ listedHosts events ↔ Worked (readableHosts events) w'.reports name) :=
            fun hplain ↦
    (loadData_lists hqsort hstart hc hplain hread hsmall hload).classifies_of_worked hshort
      honce hsmall
  constructor
  · intro hworked
    refine (hiff fun up name hmem ↦ ?_).mpr hworked
    obtain ⟨hne, hreport, hwhere⟩ := hentries up name hmem
    refine hlisted name ((hworked name).mpr ?_) hne
    exact hwhere.elim (fun hnone ↦ Or.inr ⟨hnone, hne, up, hreport⟩) Or.inl
  · intro hreported
    refine (hiff fun up name hmem ↦ ?_).mp
    obtain ⟨hne, hreport, hwhere⟩ := hentries up name hmem
    rcases hwhere with hnone | hhost
    · exact hreported.resolve_left (fun h ↦ h hnone) _ hreport hne
    · exact hread name hhost hne

/-- The listed hosts are filed if one of them is reported. -/
theorem classifies_iff_twoHosts : ∃ w', loadData twoHostsEnv plainArgs startWorld = .ok (0, w') ∧
    w'.Classifies ["n1".toList, "n2".toList] := by
  have hsummary : loadSummary (loadData twoHostsEnv plainArgs startWorld) =
      some (0, some (.hostsfile ["n1".toList, "n2".toList]), [.addUpNode "n1".toList], 1) := by
        decide +kernel
  obtain ⟨w', hload, hc, hcalls, -⟩ := exists_of_loadSummary hsummary
  have hinfo : w'.lib.clusterlist.info = some .hostsfile := by
    rcases cluster_cases hc with ⟨-, hdefault⟩ | ⟨_, hinfo, -⟩
    · exact absurd hdefault (by simp)
    · exact hinfo
  have hlisted : listedHosts ("n1\nn2\n".toList.map .byte) = ["n1".toList, "n2".toList] := by decide
  have hread : readableHosts ("n1\nn2\n".toList.map .byte) = ["n1".toList, "n2".toList] := by decide
  have hwhen :=
    (@classifies_iff twoHostsEnv plainArgs startWorld w' ("n1\nn2\n".toList.map .byte)
    isSort_insertionSort rfl
    hload hinfo rfl (by rw [hlisted]; simp) (by rw [hcalls]; decide) (by rw [hcalls]; decide)
      (by rw [hcalls, hread]; decide)).1
  rw [hlisted, hread] at hwhen
  refine ⟨w', hload, hwhen fun name ↦ ?_⟩
  simp [Worked]

/-- A load depends on the hostsfile only through what reading it gives. -/
theorem loadData_congr_file (env : LoadEnv) {events events' : List ReadEvent}
    (h : readHostsfile 65536 events = readHostsfile 65536 events') :
    loadData { env with hostsfile := .opened events } =
      loadData { env with hostsfile := .opened events' } := by
  have hsetup : clusterlistModuleSetup { env with hostsfile := .opened events } =
      clusterlistModuleSetup { env with hostsfile := .opened events' } := by
    funext w
    unfold clusterlistModuleSetup hostsfileClusterlistSetup
    simp only [h]
  have hmodules : loadModules { env with hostsfile := .opened events } =
      loadModules { env with hostsfile := .opened events' } := by
    funext args
    unfold loadModules
    rw [hsetup]
    rfl
  funext args w
  unfold loadData loadBody
  rw [hmodules]
  rfl

/-- A hostsfile with two hosts and a comment between them. -/
def commentFile (comment : List Char) : List Char :=
  "n1\n".toList ++ '#' :: (comment ++ "\nn2\n".toList)

/-- A load with that file, in which the first host is reported up. -/
def commentEnv (comment : List Char) : LoadEnv :=
  plainEnv (plainBackend fun _ _ ↦ ⟨[.addUpNode "n1".toList], ⟨0, none⟩⟩)
    (some (commentFile comment))

theorem fileText_map_byte (text : List Char) : fileText (text.map .byte) = text := by
  induction text with
  | nil => rfl
  | cons c text ih => exact congrArg (c :: ·) ih

/-- Assumes: a comment of one line without a NUL. Both hosts are listed, and a comment that does not
fit in the buffer ends the reading. -/
theorem commentFile_hosts {comment : List Char} (hline : '\n' ∉ comment) (hnul : '\x00' ∉ comment) :
    listedHosts ((commentFile comment).map .byte) = ["n1".toList, "n2".toList] ∧
      (65533 ≤ comment.length → readHostsfile 65536 ((commentFile comment).map .byte) =
        ⟨["n1".toList], 0, true⟩) := by
  have hcomment : '\n' ∉ '#' :: comment :=
    fun h ↦ (List.mem_cons.mp h).elim (absurd · (by decide)) hline
  have htext : textLines (commentFile comment) =
      ["n1\n".toList, '#' :: comment ++ ['\n'], "n2\n".toList] := by
    rw [commentFile]
    refine (@textLines_append_newline "n1".toList (by decide) _).trans ?_
    exact congrArg _ ((textLines_append_newline hcomment "n2\n".toList).trans rfl)
  have hblank : hostsfileLine ('#' :: comment ++ ['\n']) = .blank := by
    have hnul' : '\x00' ∉ '#' :: comment ++ ['\n'] := by
      simp only [List.cons_append, List.mem_cons, List.mem_append, List.not_mem_nil,
        or_false, not_or]
      exact ⟨by decide, hnul, by decide⟩
    rw [hostsfileLine_eq hnul' rfl]
    exact if_pos rfl
  have hfirst : hostsfileLine "n1\n".toList = .host "n1".toList := by decide
  constructor
  · rw [listedHosts, fileText_map_byte, htext]
    simp only [List.filterMap_cons, lineHost, hfirst, hblank]
    decide
  · intro hlong
    have hlines : fileLines ((commentFile comment).map .byte) =
        (["n1\n".toList, '#' :: comment ++ ['\n'], "n2\n".toList], false) := by
      rw [fileLines_text _ (by simp), fileText_map_byte, htext]
    rw [readHostsfile_eq_loadLines 65534 hlines, loadLines, if_neg (by decide), hfirst, loadLines,
      if_pos (by simp only [List.length_append, List.length_cons, List.length_nil]; omega)]

/-- A comment that does not fit in the buffer: the host behind it is on neither list. -/
theorem not_classifies_longComment :
    listedHosts ((commentFile (List.replicate 65533 '-')).map .byte) = ["n1".toList, "n2".toList] ∧
      ∃ w', loadData (commentEnv (List.replicate 65533 '-')) plainArgs startWorld = .ok (0, w') ∧
        w'.lib.clusterlist.info = some .hostsfile ∧ w'.reports = [.addUpNode "n1".toList] ∧
        ¬w'.Classifies ["n1".toList, "n2".toList] := by
  have hother : ∀ c : Char, c ≠ '-' → c ∉ List.replicate 65533 '-' :=
    fun c hc hmem ↦ hc (List.eq_of_mem_replicate hmem)
  obtain ⟨hlisted, hread⟩ := commentFile_hosts (hother '\n' (by decide)) (hother '\x00' (by decide))
  refine ⟨hlisted, ?_⟩
  -- Reading it comes to the same as reading a file in which a read fails behind the first line.
  have hfailed : readHostsfile 65536 ("n1\n".toList.map .byte ++ [.failed]) =
      ⟨["n1".toList], 0, true⟩ :=
    (readHostsfile_eq_loadLines 65534 rfl).trans (by decide)
  have hsame :=
    loadData_congr_file (commentEnv []) ((hread (by rw [List.length_replicate])).trans hfailed.symm)
  have hsummary :
    loadSummary
    (loadData { commentEnv [] with hostsfile := .opened ("n1\n".toList.map .byte ++ [.failed]) }
      plainArgs startWorld) = some (0, some (.hostsfile ["n1".toList]), [.addUpNode "n1".toList],
        1) := by decide +kernel
  have hview :
    ((loadData { commentEnv [] with hostsfile := .opened ("n1\n".toList.map .byte ++ [.failed]) }
    plainArgs
      startWorld).toOption.map fun loaded ↦
        (loaded.1, (loaded.2.handle.nodes false).map Hostlist.hosts)) =
      some (0, some []) := by decide +kernel
  obtain ⟨w', hload, hc, hreports, -⟩ := exists_of_loadSummary hsummary
  rw [hload] at hview
  have hdown : (w'.handle.nodes false).map Hostlist.hosts = some [] :=
    (Prod.mk.inj (Option.some.inj hview)).2
  refine ⟨w', ?_, ?_, hreports, fun hclassifies ↦ ?_⟩
  · rw [← hsame] at hload
    exact hload
  · rcases cluster_cases hc with ⟨-, hdefault⟩ | ⟨_, hinfo, -⟩
    · exact absurd hdefault (by simp)
    · exact hinfo
  · obtain ⟨hl, hnodes, -, -, hmem⟩ := hclassifies false
    rw [hnodes] at hdown
    have hn2 : "n2".toList ∈ hl.hosts :=
      (hmem _).mpr ⟨by decide, Or.inr ⟨rfl, by rw [hreports]; decide⟩⟩
    rw [Option.some.inj hdown] at hn2
    exact absurd hn2 List.not_mem_nil

end Whatsup
