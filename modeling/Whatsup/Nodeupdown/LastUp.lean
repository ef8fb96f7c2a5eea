import Whatsup.Nodeupdown.LoadedLists

/-!
# Last up times

The hash table of a handle holds, under every name, the first time that a call of the backend gives
for it (`World.Timed`); every part of a load keeps this (`loadData_timed`). A node is listed under
the text that the clusterlist module gives for it (`Library.listing`), but its time is kept under
the name that is reported. `timesFound_iff` says when the times are found under the listed names.
-/

set_option autoImplicit false
set_option relaxedAutoImplicit false

namespace Whatsup

open CLib

/-! ### The times of the calls -/

/-- The time that a call gives for a name. -/
def BackendCall.time (node : List Char) : BackendCall → Option ℕ
  | .addLastUpTime other time => if other = node then some time else none
  | _ => none

/-- The first time that calls give for a name. -/
def firstTime (calls : List BackendCall) (node : List Char) : Option ℕ :=
  calls.findSome? (BackendCall.time node)

theorem firstTime_concat (calls : List BackendCall) (call : BackendCall) (node : List Char) :
    firstTime (calls ++ [call]) node = (firstTime calls node).or (call.time node) := by
  rw [firstTime, List.findSome?_append, List.findSome?_singleton]
  rfl

/-- The hash table of the handle holds the first times of the calls so far. -/
def World.Timed (w : World) : Prop :=
  ∃ table, w.handle.lastUpTimes = some table ∧ table.buckets ≠ [] ∧
    ∀ node, hashFind hashKeyString table node = firstTime w.reports node

/-- The part of a world on which that depends. -/
def World.timing (w : World) : Option (HashTable (List Char) ℕ) × List BackendCall :=
  (w.handle.lastUpTimes, w.reports)

theorem timing_setErrnum (errnum : Errnum) (w : World) : (w.setErrnum errnum).timing = w.timing :=
    rfl

theorem timing_setNodes (up : Bool) (hl : Hostlist) (w : World) : (w.setNodes up hl).timing =
    w.timing := by
  cases up <;> rfl

theorem World.Timed.of_timing {w w' : World} (htiming : w'.timing = w.timing) (h : w.Timed) :
    w'.Timed := by
  obtain ⟨htable, hreports⟩ := Prod.mk.inj htiming
  obtain ⟨table, hheld, hbuckets, hfind⟩ := h
  exact ⟨table, htable.trans hheld, hbuckets, fun node ↦ by rw [hreports]; exact hfind node⟩

/-! ### One call -/

/-- Assumes: a handle that is set up. A time is kept under its name unless there is one. -/
theorem timed_addLastUpTime {w w' : World} {node : List Char} {time : ℕ} {value : Option Unit}
    (hstate : w.handle.loadState = .setup) (h : w.Timed)
    (hrun : nodeupdownAddLastUpTime node time { w with reports := w.reports ++
      [.addLastUpTime node time] } =
      .ok (value, w')) : w'.Timed := by
  obtain ⟨table, hheld, hbuckets, hfind⟩ := h
  change Attempt.andThen setupHandleErrorCheck _ _ = _ at hrun
  unfold Attempt.andThen setupHandleErrorCheck at hrun
  rw [if_pos hstate] at hrun
  simp only [insertLastUpTime, hheld] at hrun
  cases hinsert : hashInsert hashKeyString table node time with
  | none =>
    rw [hinsert] at hrun
    obtain ⟨-, rfl⟩ := Prod.mk.inj (Except.ok.inj hrun)
    have hkept : firstTime w.reports node ≠ none := by
      intro hnone
      obtain ⟨table', htable'⟩ := exists_hashInsert ((hfind node).trans hnone) time
      exact absurd (hinsert.symm.trans htable') (by simp)
    refine ⟨table, hheld, hbuckets, fun other ↦ (hfind other).trans ?_⟩
    change _ = firstTime (w.reports ++ [_]) other
    rw [firstTime_concat, BackendCall.time]
    split_ifs with hsame
    · obtain ⟨old, hold⟩ := Option.ne_none_iff_exists'.mp hkept
      rw [← hsame, hold]
      rfl
    · rw [Option.or_none]
  | some table' =>
    rw [hinsert] at hrun
    obtain ⟨-, rfl⟩ := Prod.mk.inj (Except.ok.inj hrun)
    obtain ⟨hbuckets', hfind'⟩ := hashFind_hashInsert hbuckets hinsert
    have hnew : firstTime w.reports node = none := by
      rw [← hfind]
      unfold hashInsert at hinsert
      split_ifs at hinsert with hthere
      exact Option.not_isSome_iff_eq_none.mp hthere
    refine ⟨table', rfl, hbuckets', fun other ↦ (hfind' other).trans ?_⟩
    change _ = firstTime (w.reports ++ [_]) other
    rw [firstTime_concat, BackendCall.time, hfind]
    by_cases hsame : other = node
    · rw [if_pos hsame, if_pos hsame.symm, hsame, hnew]
      rfl
    · rw [if_neg hsame, if_neg (Ne.symm hsame), Option.or_none]

/-- Assumes: a handle that is set up. Every call keeps the times. -/
theorem timed_backendCall {call : BackendCall} {w w' : World} {value : Option Unit}
    (hstate : w.handle.loadState = .setup) (h : w.Timed)
    (hrun : call.run { w with reports := w.reports ++ [call] } = .ok (value, w')) : w'.Timed := by
  have hreport : ∀ up node, (∀ other, call.time other = none) →
      addNode up node { w with reports := w.reports ++ [call] } = .ok (value, w') → w'.Timed := by
    intro up node htime hrun
    refine World.Timed.of_timing (preserves_addNode timing_setNodes timing_setErrnum up node
      _ _ _ hrun) ?_
    obtain ⟨table, hheld, hbuckets, hfind⟩ := h
    refine ⟨table, hheld, hbuckets, fun other ↦ (hfind other).trans ?_⟩
    change _ = firstTime (w.reports ++ [call]) other
    rw [firstTime_concat, htime, Option.or_none]
  cases call with
  | addUpNode node => exact hreport true node (fun _ ↦ rfl) hrun
  | addDownNode node => exact hreport false node (fun _ ↦ rfl) hrun
  | addLastUpTime node time => exact timed_addLastUpTime hstate h hrun

/-! ### A load -/

/-- A handle that is set up, with the times of the calls so far. -/
structure World.Timing (w : World) : Prop where
  state : w.handle.loadState = .setup
  timed : w.Timed

/-- What the backend finds on its servers keeps the times. -/
theorem timing_getUpdownData (args : LoadArgs) (conffile module : NodeupdownConfig)
    (port timeoutLen : ℤ) :
    Leads World.Timing World.Timing (getUpdownData args conffile module port timeoutLen) := by
  have hnumber : NumberFree World.Timing := fun errnum w ↦
    propext ⟨fun h ↦ ⟨h.state, h.timed.of_timing rfl⟩, fun h ↦ ⟨h.state, h.timed.of_timing rfl⟩⟩
  have hcall : ∀ (call : BackendCall) (w w' : World) (value : Option Unit), w.Timing →
      call.run { w with reports := w.reports ++ [call] } = .ok (value, w') → w'.Timing := by
    intro call w w' value h hrun
    have hframe := frame_backendCall call _ _ _ hrun
    exact ⟨(congrArg (fun frame ↦ frame.2.2.2) hframe).trans h.state,
      timed_backendCall h.state h.timed hrun⟩
  exact leads_getUpdownData hnumber (fun calls w value w' h hrun ↦
    (runCalls_keeps hcall calls h hrun).1) args conffile
    module port timeoutLen

theorem timing_finishLoad (env : LoadEnv) : Preserves World.timing (finishLoad env) := by
  refine (preserves_sortNodes timing_setNodes env true).bind fun _ ↦ ?_
  refine (preserves_sortNodes timing_setNodes env false).bind fun _ ↦ ?_
  refine Preserves.bind ?_ fun _ ↦ preserves_update fun _ ↦ rfl
  refine (preserves_getNumnodes timing_setErrnum).bind fun numnodes ↦
      Preserves.bind (preserves_update ?_) fun _ ↦
    preserves_unlessNegative numnodes
  exact fun _ ↦ rfl

/-- Assumes: a handle in a world without reports. A load that succeeds leaves the first times of the
calls that have been made, whatever clusterlist module is loaded. -/
theorem loadData_timed {env : LoadEnv} {args : LoadArgs} {w w' : World} (hstart : w.reports = [])
    (hload : loadData env args w = .ok (0, w')) : w'.Timed ∧ w'.Loaded := by
  obtain ⟨hmagic, -, hbody⟩ := loadData_ok hload
  obtain ⟨_, w1, hinit, hrest⟩ := attempt_bind_some.mp hbody
  have hinit1 : w1.reports = [] ∧ w1.handle.magic = magicNum := by
    unfold initializeLtdl at hinit
    split_ifs at hinit
    · obtain ⟨-, rfl⟩ := Prod.mk.inj (Except.ok.inj hinit)
      exact ⟨hstart, hmagic⟩
    · exact absurd hinit (by simp)
  have howner := owner_loadRest env args _ _ _ hrest
  obtain ⟨configs, w2, hmodules, hrun⟩ := attempt_bind_some.mp hrest
  obtain ⟨_, w3, hnodes, hfinish⟩ := attempt_bind_some.mp hrun
  obtain ⟨port, w4, hport, hnodes⟩ := attempt_bind_some.mp hnodes
  obtain ⟨timeoutLen, w5, htimeout, hnodes⟩ := attempt_bind_some.mp hnodes
  obtain ⟨_, w6, hservers, hcompare⟩ := attempt_bind_some.mp hnodes
  obtain ⟨hreports2, -, -, hstate2, -, -, htimes2⟩ := loadModules_spec hmodules
  have htimed2 : w2.Timed := by
    refine ⟨_, htimes2, buckets_hashCreate_ne_nil 2048, fun node ↦ ?_⟩
    rw [hashFind_hashCreate, hreports2, hinit1.1]
    rfl
  have hframe5 : w5.frame = w2.frame :=
    (preserves_resolveTimeoutLen frame_setErrnum _ _ _ _ _ _ htimeout).trans
      (preserves_resolvePort frame_setErrnum _ _ _ _ _ _ hport)
  have htiming5 : w5.timing = w2.timing :=
    (preserves_resolveTimeoutLen timing_setErrnum _ _ _ _ _ _ htimeout).trans
      (preserves_resolvePort timing_setErrnum _ _ _ _ _ _ hport)
  have h5 : w5.Timing :=
    ⟨(congrArg (fun frame ↦ frame.2.2.2) hframe5).trans hstate2, htimed2.of_timing htiming5⟩
  have h6 : w6.Timing := timing_getUpdownData args _ _ _ _ _ _ _ h5 hservers
  have htiming3 := preserves_compareToClusterlist timing_setNodes timing_setErrnum _ _ _ hcompare
  have htiming := timing_finishLoad env _ _ _ hfinish
  refine ⟨h6.timed.of_timing (htiming.trans htiming3), (congrArg Prod.fst howner).trans hinit1.2,
    (finishLoad_loaded hfinish).1⟩

/-! ### The query -/

/-- Assumes: a loaded handle with the times of some calls. A query finds the first time of a name,
and nothing else. -/
theorem lastUpTime_iff {w : World} (hloaded : w.Loaded) (htimed : w.Timed) {node : List Char}
    {time : ℕ} :
    (∃ w', lastUpTime (some node) w = .ok (some time, w')) ↔
      firstTime w.reports node = some time := by
  obtain ⟨table, hheld, -, hfind⟩ := htimed
  have hcheck : loadedHandleErrorCheck w = .ok (some (), w) :=
    loadedHandleErrorCheck_some.mpr ⟨hloaded, rfl⟩
  have hquery : lastUpTime (some node) w = findLastUpTime node w := by
    change Attempt.andThen loadedHandleErrorCheck _ w = _
    rw [Attempt.andThen, hcheck]
  rw [hquery, findLastUpTime, hheld, ← hfind]
  simp only
  split_ifs with hempty
  · rw [hashFind_of_isEmpty hempty]
    simp
  · cases hashFind hashKeyString table node with
    | none => simp
    | some found => simp [succeed, bind, Attempt.andThen, Attempt.update, pure]

/-! ### Listed names -/

/-- The text under which a report of a node is listed, if it is: that which the clusterlist module
gives for a node of its cluster. -/
def Library.listing (lib : Library) (node : List Char) : Option (List Char) :=
  match lib.clusterlist.info with
  | some (.foreign info) =>
    if 0 < (info.isNodeInCluster node).value then (info.getNodename node).value else none
  | _ => lib.cluster.bind fun c ↦ c.entry node

/-- With a module of the sources it is what a report adds to a list. -/
theorem listing_eq_entry {lib : Library} {c : Cluster} (hc : lib.cluster = some c)
    (node : List Char) :
    lib.listing node = c.entry node := by
  unfold Library.listing
  rcases cluster_cases hc with ⟨hinfo, rfl⟩ | ⟨hosts, hinfo, -, rfl⟩
  · rw [hinfo, hc]
    rfl
  · rw [hinfo, hc]
    rfl

/-! ### Reports with times -/

/-- A node that a backend reports together with its last up time, as the cerebro backend does. -/
structure TimedReport where
  up : Bool
  node : List Char
  time : ℕ

/-- The calls by which it reports the node. -/
def TimedReport.calls (r : TimedReport) : List BackendCall :=
  [if r.up then .addUpNode r.node else .addDownNode r.node, .addLastUpTime r.node r.time]

theorem firstTime_cons (r : TimedReport) (reports : List TimedReport) (name : List Char) :
    firstTime ((r :: reports).flatMap TimedReport.calls) name =
      if r.node = name then some r.time else firstTime
        (reports.flatMap TimedReport.calls) name := by
  obtain ⟨up, node, time⟩ := r
  cases up <;> by_cases hname : node = name <;>
    simp [firstTime, TimedReport.calls, List.findSome?_cons, BackendCall.time, hname]

/-- Assumes: reports of different nodes. The first time of a name is the time of the node of that
name. -/
theorem firstTime_iff {reports : List TimedReport} (honce : (reports.map TimedReport.node).Nodup)
    {name : List Char}
    {time : ℕ} : firstTime (reports.flatMap TimedReport.calls) name = some time ↔
      ∃ r ∈ reports, r.node = name ∧ r.time = time := by
  induction reports with
  | nil => simp [firstTime]
  | cons r reports ih =>
    obtain ⟨hnot, honce⟩ := List.nodup_cons.mp honce
    rw [firstTime_cons]
    split_ifs with hname
    · constructor
      · exact fun htime ↦ ⟨r, List.mem_cons_self, hname, Option.some.inj htime⟩
      · rintro ⟨other, hmem, hother, rfl⟩
        rcases List.mem_cons.mp hmem with rfl | hmem
        · rfl
        · exact absurd (List.mem_map.mpr ⟨other, hmem, hother.trans hname.symm⟩) hnot
    · rw [ih honce, List.exists_mem_cons_iff]
      exact (or_iff_right fun h ↦ hname h.1).symm

/-- The names for which a text stands. -/
def textNames (text : List Char) : List (List Char) :=
  ((hostlistPush hostlistNew text).map fun pushed ↦ pushed.2.hosts).getD []

theorem textNames_plain {name : List Char} (hname : PlainName name) : textNames name = [name] := by
  obtain ⟨hl, hpush, hhosts, -⟩ := hostlistPush_name hostlistNew_canonical hname
  rw [textNames, hpush, Option.map_some, Option.getD_some, hhosts, hosts_hostlistNew]
  rfl

/-- A node that has been reported is listed under a name: its text stands for the name, which is in
the list. -/
def World.ListsAs (w : World) (r : TimedReport) (name : List Char) : Prop :=
  (∃ text, w.lib.listing r.node = some text ∧ name ∈ textNames text) ∧
    ∃ hl, w.handle.nodes r.up = some hl ∧ name ∈ hl.hosts

/-- The time of every node that is reported is found under every name under which the node is
listed. -/
def World.TimesFound (w : World) (reports : List TimedReport) : Prop :=
  ∀ r ∈ reports, ∀ name, w.ListsAs r name → ∃ w', lastUpTime (some name) w = .ok (some r.time, w')

/-- The name of a node is its own name. -/
theorem Cluster.entry_entry {c : Cluster} {node name : List Char} (h : c.entry node = some name) :
    c.entry name = some name := by
  rw [Cluster.entry, Option.filter_eq_some_iff] at h
  have hname : c.nodename name = some name := by
    cases c with
    | default =>
      obtain ⟨hname, -⟩ := h
      rw [Cluster.nodename] at hname
      split_ifs at hname with hlength
      obtain rfl := Option.some.inj hname
      exact if_pos hlength
    | hostsfile hosts =>
      obtain ⟨hname, -⟩ := h
      rw [Cluster.nodename, Option.filter_eq_some_iff] at hname
      refine nodename_host ?_ (by simpa using hname.2)
      have hshort := hname.1
      unfold shortNodename at hshort
      simp only at hshort
      split_ifs at hshort with hdot
      · obtain rfl := Option.some.inj hshort
        exact fun hmem ↦ absurd (List.mem_takeWhile_imp hmem) (by simp)
      · exact Option.some.inj hshort ▸ hdot
  rw [Cluster.entry, hname, Option.filter_some, if_pos h.2]

/-- Assumes: a partial map that takes no value twice on a list. It takes a value at one entry
only. -/
theorem eq_of_nodup_filterMap {α β : Type} {f : α → Option β} {l : List α}
    (h : (l.filterMap f).Nodup) {a b : α} {x : β}
    (ha : a ∈ l) (hb : b ∈ l) (hfa : f a = some x) (hfb : f b = some x) : a = b := by
  have hsymm : Std.Symm fun a b ↦ ∀ x, f a = some x → ∀ y, f b = some y → x ≠ y :=
    ⟨fun a b hab x hx y hy ↦ (hab y hy x hx).symm⟩
  by_contra hne
  exact (List.pairwise_filterMap.mp h).forall ha hb hne x hfa x hfb rfl

/-- Assumes: the calls of some reports. A node that is reported is among the names that they add. -/
theorem mem_entries {c : Cluster} {reports : List TimedReport} {r : TimedReport} {name : List Char}
    (hr : r ∈ reports)
    (hname : c.entry r.node = some name) : name ∈
      c.entries r.up (reports.flatMap TimedReport.calls) := by
  refine List.mem_filterMap.mpr ⟨if r.up then .addUpNode r.node else .addDownNode r.node,
    List.mem_flatMap.mpr ⟨r, hr, List.mem_cons_self⟩, ?_⟩
  obtain ⟨up, node, time⟩ := r
  cases up <;> exact hname

/-- Assumes: a handle in a world without reports, and a load that succeeds, in which a backend
reports different nodes with their times. The times are found under the listed names exactly if each
of these names is one that has been reported, with the same time. With a clusterlist module of the
sources, plain names and no node listed twice, this is so exactly if every node is listed under the
name under which it is reported. -/
theorem timesFound_iff {env : LoadEnv} {args : LoadArgs} {w w' : World} {reports : List TimedReport}
    (hqsort : IsSort hostrangeCmp env.qsort) (hstart : w.reports = [])
    (hload : loadData env args w = .ok (0, w'))
    (hreports : w'.reports = reports.flatMap TimedReport.calls)
    (honce : (reports.map TimedReport.node).Nodup) :
    (w'.TimesFound reports ↔ ∀ r ∈ reports, ∀ name, w'.ListsAs r name →
      ∃ other ∈ reports, other.node = name ∧ other.time = r.time) ∧
    ∀ c, w'.lib.cluster = some c → (∀ up, ∀ name ∈ c.entries up w'.reports, PlainName name) →
      (∀ host ∈ c.hosts, host ≠ [] → PlainName host) → w'.reports.length + c.hosts.length < 2 ^ 31 →
      (reports.filterMap fun r ↦ c.entry r.node).Nodup →
      (w'.TimesFound reports ↔ ∀ r ∈ reports, ∀ name, c.entry r.node = some name →
        name = r.node) := by
  obtain ⟨htimed, hloaded⟩ := loadData_timed hstart hload
  have hfound : w'.TimesFound reports ↔ ∀ r ∈ reports, ∀ name, w'.ListsAs r name →
      ∃ other ∈ reports, other.node = name ∧ other.time = r.time := by
    refine forall₂_congr fun r _ ↦ forall₂_congr fun name _ ↦ ?_
    rw [lastUpTime_iff hloaded htimed, hreports, firstTime_iff honce]
  refine ⟨hfound, fun c hc hplain hhosts hsmall hlisted ↦ hfound.trans ?_⟩
  have hholds := loadData_lists hqsort hstart hc hplain hhosts hsmall hload
  have hlisting := fun node ↦ listing_eq_entry hc node
  have hname_plain : ∀ r ∈ reports, ∀ name, c.entry r.node = some name → PlainName name :=
      fun r hr name hname ↦
    hplain r.up name (by rw [hreports]; exact mem_entries hr hname)
  constructor
  · intro hall r hr name hname
    have hlists : w'.ListsAs r name := by
      refine ⟨⟨name, (hlisting _).trans hname, ?_⟩, ?_⟩
      · rw [textNames_plain (hname_plain r hr name hname)]
        exact List.mem_singleton_self name
      · obtain ⟨hl, hnodes, -, hperm⟩ := hholds.lists r.up
        refine ⟨hl, hnodes, hperm.mem_iff.mpr (List.mem_append_left _ ?_)⟩
        rw [hreports]
        exact mem_entries hr hname
    obtain ⟨other, hother, rfl, -⟩ := hall r hr name hlists
    have hsame : other = r :=
      eq_of_nodup_filterMap hlisted hother hr (Cluster.entry_entry hname) hname
    rw [hsame]
  · rintro hsame r hr name ⟨⟨text, htext, hmem⟩, -⟩
    rw [hlisting] at htext
    rw [textNames_plain (hname_plain r hr text htext), List.mem_singleton] at hmem
    exact ⟨r, hr, ((hsame r hr text htext).symm.trans hmem.symm), rfl⟩

/-- A hostsfile, and a backend that reports nodes with their times. -/
def timedEnv (hostsfile : List Char) (reports : List TimedReport) : LoadEnv :=
  plainEnv (plainBackend fun _ _ ↦ ⟨reports.flatMap TimedReport.calls, ⟨0, none⟩⟩) (some hostsfile)

/-- Reports of three hosts under their own names, and one of a host under its full name. -/
def ownNames : List TimedReport :=
  [⟨true, "n2".toList, 5⟩, ⟨false, "n1".toList, 3⟩, ⟨true, "login".toList, 5⟩]

def fullName : List TimedReport := [⟨true, "n1.net".toList, 5⟩]

/-- The times of nodes that are reported under the names of the hosts are found. -/
theorem timesFound_iff_ownNames :
    ∃ w', loadData (timedEnv "n1\nn2\nlogin\nn3\n".toList ownNames) plainArgs startWorld =
      .ok (0, w') ∧
      w'.TimesFound ownNames := by
  have hsummary :
    loadSummary (loadData (timedEnv "n1\nn2\nlogin\nn3\n".toList ownNames) plainArgs startWorld) =
      some (0, some (.hostsfile ["n1".toList, "n2".toList, "login".toList, "n3".toList]),
        ownNames.flatMap TimedReport.calls, 1) := by decide +kernel
  obtain ⟨w', hload, hc, hcalls, -⟩ := exists_of_loadSummary hsummary
  have hiff := (timesFound_iff isSort_insertionSort rfl hload hcalls (by decide)).2 _ hc (by
    rw [hcalls]; decide)
    (by decide) (by rw [hcalls]; decide) (by decide)
  exact ⟨w', hload, hiff.mpr (by decide)⟩

/-- The time of a node that is reported under its full name is not found under the name of the
host. -/
theorem timesFound_fullName : ∃ w', loadData (timedEnv "n1\n".toList fullName) plainArgs
    startWorld = .ok (0, w') ∧
    w'.reports = fullName.flatMap TimedReport.calls ∧ ¬w'.TimesFound fullName := by
  have hlists : ((loadData (timedEnv "n1\n".toList fullName) plainArgs startWorld).toOption.map
      fun loaded ↦
      (loaded.1, loaded.2.reports, loaded.2.lib.listing "n1.net".toList)) =
      some (0, fullName.flatMap TimedReport.calls, some "n1".toList) := by decide +kernel
  have hasked : ((loadData (timedEnv "n1\n".toList fullName) plainArgs startWorld).toOption.map
      fun loaded ↦
      (loaded.1, (loaded.2.handle.nodes true).map Hostlist.hosts,
        (lastUpTime (some "n1".toList) loaded.2).toOption.map Prod.fst)) =
      some (0, some ["n1".toList], some none) := by decide +kernel
  obtain ⟨w', hload, hseen⟩ :=
    exists_of_view (fun w ↦ (w.reports, w.lib.listing "n1.net".toList)) hlists
  obtain ⟨hcalls, hlisting⟩ := Prod.mk.inj hseen
  rw [hload] at hasked
  obtain ⟨-, hnodes, hquery⟩ : (0 : ℤ) = 0 ∧ (w'.handle.nodes true).map Hostlist.hosts =
    some ["n1".toList] ∧
      (lastUpTime (some "n1".toList) w').toOption.map Prod.fst = some none := by
    simpa only [Except.toOption, Option.map_some, Option.some.injEq, Prod.mk.injEq] using hasked
  refine ⟨w', hload, hcalls, fun hfound ↦ ?_⟩
  obtain ⟨hl, hup, hhosts⟩ := Option.map_eq_some_iff.mp hnodes
  obtain ⟨w1, hone⟩ := hfound ⟨true, "n1.net".toList, 5⟩ List.mem_cons_self "n1".toList
    ⟨⟨"n1".toList, hlisting, by decide⟩, hl, hup, by rw [hhosts]; exact List.mem_singleton_self _⟩
  rw [hone] at hquery
  exact absurd hquery (by simp [Except.toOption])

end Whatsup
