import Whatsup.Nodeupdown.Listing
import Whatsup.Nodeupdown.PushedLists
import Whatsup.Nodeupdown.Undo

/-!
# The lists of a loaded handle

What `nodeupdown_load_data` leaves in a handle if it succeeds with a clusterlist module of the
sources. The lists denote the names of `Cluster.names`: what the calls of the backend have added,
and the hosts that no one has reported, in some order. The number of nodes is `Cluster.numnodes`.

`loadData_lists` is the result, `World.Holds` what it says. Its assumptions are that the names that
are added are plain, and that there are less than `2 ^ 31` calls and hosts.
-/

set_option autoImplicit false
set_option relaxedAutoImplicit false

namespace Whatsup

open CLib

/-! ### What a load finds -/

/-- The hosts that the setup of the hostsfile module reads, if it succeeds. -/
def LoadEnv.hostsRead (env : LoadEnv) : Option (List (List Char)) :=
  match env.hostsfile with
  | .missing => some []
  | .failed => none
  | .opened events =>
    if (readHostsfile 65536 events).value < 0 then none else some (readHostsfile 65536 events).hosts

/-- The configuration file of an environment, if it can be read. -/
def LoadEnv.fileConfig (env : LoadEnv) : Option NodeupdownConfig :=
  match env.conffile with
  | .parsed config => some config
  | .missing => some noConfig
  | _ => none

/-- A host of the hostsfile is a line up to its first dot. -/
theorem hostsfileLine_host {line name : List Char} (h : hostsfileLine line = .host name) :
    '.' ∉ name ∧ name.length ≤ 64 := by
  unfold hostsfileLine at h
  split at h
  · exact absurd h (by simp)
  · rename_i hostPtr _
    split_ifs at h with hblank hlong
    obtain rfl := HostsfileLine.host.inj h
    refine ⟨fun hdot ↦ ?_, (List.takeWhile_prefix _).length_le.trans (not_lt.mp hlong)⟩
    exact absurd (List.mem_takeWhile_imp hdot) (by simp)

/-- The hosts that are read are short names. -/
theorem mem_readHostsfile (buflen : ℕ) (events : List ReadEvent) :
    ∀ host ∈ (readHostsfile buflen events).hosts, '.' ∉ host ∧ host.length ≤ 64 := by
  fun_induction readHostsfile buflen events with
  | case1 => exact fun host h ↦ absurd h List.not_mem_nil
  | case2 => exact fun host h ↦ absurd h List.not_mem_nil
  | case3 _ _ _ _ _ _ ih => exact ih
  | case4 => exact fun host h ↦ absurd h List.not_mem_nil
  | case5 _ _ _ _ _ _ hline _ ih =>
    intro host hmem
    rcases List.mem_cons.mp hmem with rfl | hmem
    · exact hostsfileLine_host hline
    · exact ih host hmem

/-- The hosts that a setup has read are short names. -/
theorem mem_hostsRead {env : LoadEnv} {hosts : List (List Char)} (h : env.hostsRead = some hosts) :
    ∀ host ∈ hosts, '.' ∉ host ∧ host.length ≤ 64 := by
  unfold LoadEnv.hostsRead at h
  split at h
  · obtain rfl := Option.some.inj h
    exact fun host hmem ↦ absurd hmem List.not_mem_nil
  · exact absurd h (by simp)
  · split_ifs at h
    obtain rfl := Option.some.inj h
    exact mem_readHostsfile _ _

/-- What a load has found out about the cluster, with the reports so far. -/
def World.known (w : World) : Option ClusterlistInfo × Option (List (List Char)) × ℕ ×
    List BackendCall :=
  (w.lib.clusterlist.info, w.lib.hosts, w.lib.clusterlistModuleFound, w.reports)

theorem known_setErrnum (errnum : Errnum) (w : World) : (w.setErrnum errnum).known = w.known := rfl

theorem known_backendModuleLoad (env : LoadEnv) (module : Option (List Char)) :
    Preserves World.known (backendModuleLoad env module) := by
  intro w value w' h
  unfold backendModuleLoad at h
  split at h
  · obtain ⟨rfl, rfl⟩ := h
    rfl
  · simp only at h
    split_ifs at h <;> obtain ⟨rfl, rfl⟩ := h <;> rfl

theorem known_configModuleLoad (env : LoadEnv) : Preserves World.known (configModuleLoad env) := by
  intro w value w' h
  unfold configModuleLoad at h
  simp only at h
  split_ifs at h <;> obtain ⟨rfl, rfl⟩ := h <;> rfl

/-- A module that is found is counted. -/
theorem clusterlistModuleLoad_known {env : LoadEnv} {module : Option (List Char)} {w w' : World}
    {value : Unit}
    (hrun : clusterlistModuleLoad env module w = .ok (some value, w')) :
    w'.reports = w.reports ∧
    (w'.lib.clusterlistModuleFound = 0 → w'.lib.clusterlist.info = some .default) := by
  unfold clusterlistModuleLoad at hrun
  split at hrun
  · exact absurd hrun (by simp)
  · simp only at hrun
    split_ifs at hrun <;> obtain ⟨-, rfl⟩ := hrun
    · exact ⟨rfl, fun h ↦ absurd h (Nat.succ_ne_zero _)⟩
    · exact ⟨rfl, fun _ ↦ rfl⟩

/-- A setup that succeeds leaves the module and what has been read. -/
theorem clusterlistModuleSetup_known {env : LoadEnv} {w w' : World} {value : Unit}
    (hrun : clusterlistModuleSetup env w = .ok (some value, w')) :
    w'.reports = w.reports ∧ w'.lib.clusterlistModuleFound = w.lib.clusterlistModuleFound ∧
      w'.lib.clusterlist.info = w.lib.clusterlist.info ∧
      ∀ hosts, w'.lib.cluster = some (.hostsfile hosts) → env.hostsRead = some hosts := by
  have hno : ∀ {v : World}, v.lib.clusterlist.info ≠ some .hostsfile → ∀ hosts,
      v.lib.cluster = some (.hostsfile hosts) → env.hostsRead = some hosts := by
    intro v hinfo hosts hc
    rcases cluster_cases hc with ⟨-, hdefault⟩ | ⟨_, hother, -, -⟩
    · exact absurd hdefault (by simp)
    · exact absurd hother hinfo
  unfold clusterlistModuleSetup at hrun
  split at hrun
  · exact absurd hrun (by simp)
  · rename_i hinfo
    obtain ⟨-, rfl⟩ := Prod.mk.inj (Except.ok.inj hrun)
    exact ⟨rfl, rfl, rfl, hno (by simp [hinfo])⟩
  · rename_i hinfo
    have hread : ∀ {v : World} {hosts : List (List Char)}, v.lib.clusterlist.info =
      some .hostsfile →
        v.lib.hosts = some hosts → env.hostsRead = some hosts →
        ∀ others, v.lib.cluster = some (.hostsfile others) → env.hostsRead = some others := by
      intro v hosts hv hhosts hread others hc
      rw [Library.cluster, hv, hhosts] at hc
      obtain rfl : hosts = others := by simpa using hc
      exact hread
    unfold hostsfileClusterlistSetup at hrun
    split at hrun
    · rename_i hfile
      obtain ⟨-, rfl⟩ := Prod.mk.inj (Except.ok.inj hrun)
      exact ⟨rfl, rfl, rfl, hread hinfo rfl (by rw [LoadEnv.hostsRead, hfile])⟩
    · exact absurd hrun (by simp)
    · rename_i events hfile
      simp only at hrun
      by_cases hnegative : (readHostsfile 65536 events).value < 0
      · rw [if_pos hnegative] at hrun
        exact absurd hrun (by simp)
      · have hhosts : env.hostsRead = some (readHostsfile 65536 events).hosts := by
          rw [LoadEnv.hostsRead, hfile]
          exact if_neg hnegative
        rw [if_neg hnegative] at hrun
        split_ifs at hrun <;> obtain ⟨-, rfl⟩ := Prod.mk.inj (Except.ok.inj hrun)
        · exact ⟨rfl, rfl, rfl, hread hinfo rfl hhosts⟩
        · exact ⟨rfl, rfl, rfl, hread hinfo rfl hhosts⟩
  · rename_i info hinfo
    have hknown :=
      ((preserves_callModule known_setErrnum _).bind preserves_unlessNegative) w
      (some value) w' hrun
    obtain ⟨hsame, -, hfound, hreports⟩ : w'.lib.clusterlist.info = w.lib.clusterlist.info ∧
      w'.lib.hosts = w.lib.hosts ∧
        w'.lib.clusterlistModuleFound = w.lib.clusterlistModuleFound ∧ w'.reports = w.reports := by
      simpa only [World.known, Prod.mk.injEq] using hknown
    exact ⟨hreports, hfound, hsame, hno (by simp [hsame, hinfo])⟩

/-- What holds of the clusterlist module from its setup on: it is the default one unless one has
been found, and the hosts of the hostsfile are those that have been read. -/
structure World.Knows (env : LoadEnv) (w : World) : Prop where
  found : w.lib.clusterlistModuleFound = 0 → w.lib.clusterlist.info = some .default
  hosts : ∀ hosts, w.lib.cluster = some (.hostsfile hosts) → env.hostsRead = some hosts

/-- That depends on what is known about the cluster. -/
theorem World.Knows.of_known {env : LoadEnv} {w w' : World} (hknown : w'.known = w.known)
    (h : w.Knows env) :
    w'.Knows env := by
  obtain ⟨hinfo, hhosts, hfound, -⟩ : w'.lib.clusterlist.info = w.lib.clusterlist.info ∧
    w'.lib.hosts = w.lib.hosts ∧
      w'.lib.clusterlistModuleFound = w.lib.clusterlistModuleFound ∧ w'.reports = w.reports := by
    simpa only [World.known, Prod.mk.injEq] using hknown
  have hcluster : w'.lib.cluster = w.lib.cluster := by
    rw [Library.cluster, Library.cluster, hinfo, hhosts]
  exact ⟨fun h0 ↦ hinfo.trans (h.found (hfound.symm.trans h0)), fun hosts hc ↦
    h.hosts hosts (hcluster.symm.trans hc)⟩

/-- The modules and allocations of a load that succeeds leave a handle that is set up, with empty
lists and no last up times. -/
theorem loadModules_spec {env : LoadEnv} {args : LoadArgs} {w w' : World}
    {configs : NodeupdownConfig × NodeupdownConfig}
    (hrun : loadModules env args w = .ok (some configs, w')) :
    w'.reports = w.reports ∧ env.fileConfig = some configs.1 ∧ w'.Knows env ∧
    w'.handle.loadState = .setup ∧
      w'.handle.upNodes = some hostlistNew ∧ w'.handle.downNodes = some hostlistNew ∧
      w'.handle.lastUpTimes = some (hashCreate 2048) := by
  obtain ⟨conffile, w1, hconffile, hrun⟩ := attempt_bind_some.mp hrun
  obtain ⟨_, w2, hbackend, hrun⟩ := attempt_bind_some.mp hrun
  obtain ⟨_, w3, hsetup, hrun⟩ := attempt_bind_some.mp hrun
  obtain ⟨preferred, w4, hpreferred, hrun⟩ := attempt_bind_some.mp hrun
  obtain ⟨_, w5, hclusterlist, hrun⟩ := attempt_bind_some.mp hrun
  obtain ⟨_, w6, hclusterlistSetup, hrun⟩ := attempt_bind_some.mp hrun
  obtain ⟨_, w7, hconfig, hrun⟩ := attempt_bind_some.mp hrun
  obtain ⟨_, w8, hconfigSetup, hrun⟩ := attempt_bind_some.mp hrun
  obtain ⟨module, w9, hloadConfig, hrun⟩ := attempt_bind_some.mp hrun
  obtain ⟨_, w10, hallocate, hend⟩ := attempt_bind_some.mp hrun
  obtain ⟨hconfigs, rfl⟩ := Prod.mk.inj (Except.ok.inj hend)
  obtain rfl := Option.some.inj hconfigs
  have hfile : env.fileConfig = some conffile := by
    unfold readConffile at hconffile
    unfold LoadEnv.fileConfig
    cases hread : env.conffile with
    | parsed config =>
      rw [hread] at hconffile
      exact (Prod.mk.inj (Except.ok.inj hconffile)).1
    | missing =>
      rw [hread] at hconffile
      exact (Prod.mk.inj (Except.ok.inj hconffile)).1
    | parseError | outmem | failed =>
      rw [hread] at hconffile
      exact absurd hconffile (by simp [failWith, Attempt.giveUp])
  have hreports : ∀ {v v' : World}, v'.known = v.known → v'.reports = v.reports := fun h ↦
    congrArg (fun known ↦ known.2.2.2) h
  have hbefore : w4.reports = w.reports := by
    have h1 := hreports (preserves_readConffile known_setErrnum env _ _ _ hconffile)
    have h2 := hreports (known_backendModuleLoad env _ _ _ _ hbackend)
    have h3 :=
      hreports (((preserves_withBackend known_setErrnum _).bind preserves_unlessNegative)
      _ _ _ hsetup)
    have h4 := hreports (preserves_withBackend known_setErrnum _ _ _ _ hpreferred)
    exact h4.trans (h3.trans (h2.trans h1))
  obtain ⟨hreports5, hfound⟩ := clusterlistModuleLoad_known hclusterlist
  obtain ⟨hreports6, hfoundSame, hinfo, hhosts⟩ := clusterlistModuleSetup_known hclusterlistSetup
  have hknows : w6.Knows env := ⟨fun h0 ↦ hinfo.trans (hfound (hfoundSame.symm.trans h0)), hhosts⟩
  have hafter : w9.known = w6.known := by
    have h7 := known_configModuleLoad env _ _ _ hconfig
    have h8 :=
      ((preserves_withConfig known_setErrnum _).bind preserves_unlessNegative) _ _ _ hconfigSetup
    have h9 := preserves_configModuleLoadConfig known_setErrnum _ _ _ hloadConfig
    exact h9.trans (h8.trans h7)
  unfold allocateNodes at hallocate
  split_ifs at hallocate
  · obtain ⟨-, rfl⟩ := Prod.mk.inj (Except.ok.inj hallocate)
    exact ⟨(hreports hafter).trans (hreports6.trans (hreports5.trans hbefore)), hfile,
      hknows.of_known hafter, rfl, rfl,
      rfl, rfl⟩
  · exact absurd hallocate (by simp)
  · exact absurd hallocate (by simp)
  · exact absurd hallocate (by simp)

/-! ### What a load leaves -/

/-- The names of one of the lists behind a load: those that the calls have added, and behind them,
for the nodes that are down, the hosts of the cluster that no call has added. -/
def Cluster.names (c : Cluster) (up : Bool) (calls : List BackendCall) : List (List Char) :=
  c.entries up calls ++ if up then [] else undiscovered (c.entries true calls ++
    c.entries false calls) c.hosts

/-- The number of nodes that the clusterlist module gives: the names of both lists, or the hosts of
the file, as an `int`. -/
def Cluster.numnodes (c : Cluster) (calls : List BackendCall) : ℤ :=
  match c with
  | .default => toInt ((c.names true calls).length + (c.names false calls).length)
  | .hostsfile hosts => toInt hosts.length

/-- What a load with a clusterlist module of the sources leaves in the handle. -/
structure World.Holds (c : Cluster) (w : World) : Prop where
  loaded : w.Loaded
  cluster : w.lib.cluster = some c
  lists : ∀ up, ∃ hl, w.handle.nodes up = some hl ∧ hl.Filled ∧ hl.hosts.Perm (c.names up w.reports)
  numnodes : w.handle.numnodes = c.numnodes w.reports
  numnodes_nonneg : 0 ≤ w.handle.numnodes
  hosts_plain : ∀ host ∈ c.hosts, PlainName host ∧ '.' ∉ host

/-- There are not more added names than calls. -/
theorem Cluster.length_entries_le (c : Cluster) (up : Bool) (calls : List BackendCall) :
    (c.entries up calls).length ≤ calls.length :=
  List.length_filterMap_le _ _

/-- Assumes: a handle being filled that holds plain names, and hosts that are plain unless they are
empty. If the comparison with the cluster succeeds, the lists hold what they are to hold. -/
theorem compareToClusterlist_lists {c : Cluster} {env : LoadEnv} {w w' : World}
    (hfilling : w.Filling c)
    (hknows : w.Knows env) (hplain : ∀ up, ∀ name ∈ c.entries up w.reports, PlainName name)
    (hhosts : ∀ host ∈ c.hosts, host ≠ [] → PlainName host)
    (hsmall : w.reports.length + c.hosts.length < 2 ^ 31)
    (hrun : clusterlistModuleCompareToClusterlist w = .ok (some (), w')) :
    w'.Lists (fun up ↦ c.names up w.reports) ∧ ∀ host ∈ c.hosts, PlainName host ∧ '.' ∉ host := by
  have hlists := hfilling.reported hplain
  unfold clusterlistModuleCompareToClusterlist at hrun
  rcases cluster_cases hfilling.cluster with ⟨hinfo, rfl⟩ | ⟨hosts, hinfo, hread, rfl⟩
  · rw [hinfo] at hrun
    obtain ⟨-, rfl⟩ := Prod.mk.inj (Except.ok.inj hrun)
    refine ⟨hlists.congr (fun _ ↦ rfl) fun up ↦ ?_, fun host h ↦ absurd h List.not_mem_nil⟩
    simp [Cluster.names, Cluster.hosts, undiscovered]
  · rw [hinfo] at hrun
    have hshort := mem_hostsRead (hknows.hosts hosts hfilling.cluster)
    obtain ⟨others, w1, hothers, hchecks⟩ := attempt_bind_some.mp hrun
    rw [hostsfileHosts, hread] at hothers
    obtain ⟨hsame, rfl⟩ := Prod.mk.inj (Except.ok.inj hothers)
    obtain rfl := Option.some.inj hsame
    have hbound : ∀ up, ((Cluster.hostsfile hosts).entries up w.reports).length + hosts.length <
        2 ^ 31 := fun up ↦
      lt_of_le_of_lt (Nat.add_le_add_right (Cluster.length_entries_le _ up _) _) hsmall
    obtain ⟨hown, hlists'⟩ :=
      notDiscoveredChecks_lists hosts hfilling.cluster hfilling.state hlists hbound
      (fun host hmem ↦ ⟨hmem, (hshort host hmem).1, (hshort host hmem).2, hhosts host hmem⟩) hchecks
    exact ⟨hlists', fun host hmem ↦ ⟨hown host hmem, (hshort host hmem).1⟩⟩

/-- All that the sort of a list of the handle can do. -/
theorem sortNodes_ok {env : LoadEnv} {up : Bool} {w w' : World} {value : Option Unit}
    (hrun : sortNodes env up w = .ok (value, w')) :
    ∃ hl hl', w.handle.nodes up = some hl ∧ hostlistSort env.ndebug env.qsort env.rounds hl =
      some (.ok hl') ∧
      w' = w.setNodes up hl' := by
  change Attempt.andThen (theNodes up) _ w = _ at hrun
  unfold Attempt.andThen theNodes at hrun
  cases hnodes : w.handle.nodes up with
  | none =>
    rw [hnodes] at hrun
    exact absurd hrun (by simp)
  | some hl =>
    rw [hnodes] at hrun
    simp only at hrun
    cases hsort : hostlistSort env.ndebug env.qsort env.rounds hl with
    | none =>
      rw [hsort] at hrun
      exact absurd hrun (by simp [Attempt.fault])
    | some sorted =>
      cases sorted with
      | error failure =>
        rw [hsort] at hrun
        exact absurd hrun (by simp [Attempt.fault])
      | ok hl' =>
        rw [hsort] at hrun
        obtain ⟨-, rfl⟩ := Prod.mk.inj (Except.ok.inj hrun)
        exact ⟨hl, hl', rfl, hsort, rfl⟩

/-- Counting the nodes changes nothing but the error number. -/
theorem getNumnodes_world {w w' : World} {numnodes : ℤ}
    (hrun : clusterlistModuleGetNumnodes w = .ok (some numnodes, w')) : ∃ errnum, w' =
      w.setErrnum errnum := by
  have hdefault : Preserves id defaultClusterlistGetNumnodes :=
      (preserves_theNodes true).bind fun _ ↦
    (preserves_theNodes false).bind fun _ ↦ preserves_pure _
  have hhostsfile : Preserves id hostsfileClusterlistGetNumnodes :=
    preserves_hostsfileHosts.bind fun _ ↦ preserves_pure _
  unfold clusterlistModuleGetNumnodes at hrun
  split at hrun
  · exact absurd hrun (by simp)
  · exact ⟨w.handle.errnum, hdefault _ _ _ hrun⟩
  · exact ⟨w.handle.errnum, hhostsfile _ _ _ hrun⟩
  · rename_i info _
    obtain rfl := (Prod.mk.inj (Except.ok.inj hrun)).2
    cases info.getNumnodes.errnum with
    | none => exact ⟨w.handle.errnum, rfl⟩
    | some errnum =>
      unfold World.noteErrnum
      simp only
      split_ifs
      · exact ⟨errnum, rfl⟩
      · exact ⟨w.handle.errnum, rfl⟩

/-- The number of nodes that a clusterlist module of the sources gives, for the lists of a
handle. -/
def Cluster.counted (c : Cluster) (lists : Bool → Hostlist) : ℤ :=
  match c with
  | .default => toInt ((lists true).nhosts + (lists false).nhosts)
  | .hostsfile hosts => toInt hosts.length

/-- The number of nodes that a clusterlist module of the sources gives. -/
theorem getNumnodes_counts {c : Cluster} {w w' : World} {numnodes : ℤ} {lists : Bool → Hostlist}
    (hc : w.lib.cluster = some c) (hhas : w.Has lists)
    (hrun : clusterlistModuleGetNumnodes w = .ok (some numnodes, w')) : numnodes =
      c.counted lists := by
  unfold clusterlistModuleGetNumnodes at hrun
  rcases cluster_cases hc with ⟨hinfo, rfl⟩ | ⟨hosts, hinfo, hread, rfl⟩
  · rw [hinfo] at hrun
    obtain ⟨up, w1, hup, hrun⟩ := attempt_bind_some.mp hrun
    rw [theNodes_eq (hhas true)] at hup
    obtain ⟨hsame, rfl⟩ := Prod.mk.inj (Except.ok.inj hup)
    obtain rfl := Option.some.inj hsame
    obtain ⟨down, w2, hdown, hend⟩ := attempt_bind_some.mp hrun
    rw [theNodes_eq (hhas false)] at hdown
    obtain rfl := Option.some.inj (Prod.mk.inj (Except.ok.inj hdown)).1
    exact (Option.some.inj (Prod.mk.inj (Except.ok.inj hend)).1).symm
  · rw [hinfo] at hrun
    obtain ⟨others, w1, hothers, hend⟩ := attempt_bind_some.mp hrun
    rw [hostsfileHosts, hread] at hothers
    obtain rfl := Option.some.inj (Prod.mk.inj (Except.ok.inj hothers)).1
    exact (Option.some.inj (Prod.mk.inj (Except.ok.inj hend)).1).symm

/-- Assumes: lists that denote the names of a load. The clusterlist module gives their number. -/
theorem getNumnodes_eq {c : Cluster} {w w' : World} {numnodes : ℤ} {calls : List BackendCall}
    (hc : w.lib.cluster = some c)
    (hlists : ∀ up, ∃ hl, w.handle.nodes up = some hl ∧ hl.Filled ∧
      hl.hosts.Perm (c.names up calls))
    (hrun : clusterlistModuleGetNumnodes w = .ok (some numnodes, w')) : numnodes =
      c.numnodes calls := by
  choose lists hhas hfilled hperm using hlists
  have hcount : ∀ up, (lists up).nhosts = toInt ((c.names up calls).length : ℤ) := fun up ↦ by
    rw [(hfilled up).canonical.nhosts_eq, (hperm up).length_eq]
  rw [getNumnodes_counts hc hhas hrun]
  cases c with
  | default =>
    rw [Cluster.counted, hcount, hcount, toInt_toInt_add, add_comm, toInt_toInt_add, add_comm]
    rfl
  | hostsfile hosts => rfl

/-- The world behind the last part of a load that succeeds. -/
def World.finish (up down : Hostlist) (numnodes : ℤ) (w : World) : World :=
  { w with
    handle := { w.handle with
      upNodes := some up
      downNodes := some down
      numnodes := numnodes
      loadState := .loaded
      errnum := .success } }

/-- All that the last part of a load does if it succeeds: it sorts both lists and counts the
nodes. -/
theorem finishLoad_ok {env : LoadEnv} {w w' : World} (hrun : finishLoad env w = .ok (some (), w')) :
    ∃ up up' down down' numnodes v, w.handle.nodes true = some up ∧
      hostlistSort env.ndebug env.qsort env.rounds up = some (.ok up') ∧
      w.handle.nodes false = some down ∧
      hostlistSort env.ndebug env.qsort env.rounds down = some (.ok down') ∧
      clusterlistModuleGetNumnodes ((w.setNodes true up').setNodes false down') =
        .ok (some numnodes, v) ∧
      0 ≤ numnodes ∧ w' = w.finish up' down' numnodes := by
  obtain ⟨_, w1, hup, hrun⟩ := attempt_bind_some.mp hrun
  obtain ⟨_, w2, hdown, hrun⟩ := attempt_bind_some.mp hrun
  obtain ⟨_, w3, hcount, hend⟩ := attempt_bind_some.mp hrun
  obtain ⟨up, up', hupNodes, hupSort, rfl⟩ := sortNodes_ok hup
  obtain ⟨down, down', hdownNodes, hdownSort, rfl⟩ := sortNodes_ok hdown
  obtain ⟨numnodes, w4, hnumnodes, hcount⟩ := attempt_bind_some.mp hcount
  obtain ⟨_, w5, hupdate, hnegative⟩ := attempt_bind_some.mp hcount
  obtain ⟨errnum, hw4⟩ := getNumnodes_world hnumnodes
  obtain ⟨-, rfl⟩ := Prod.mk.inj (Except.ok.inj hupdate)
  obtain ⟨-, rfl⟩ := Prod.mk.inj (Except.ok.inj hend)
  unfold unlessNegative at hnegative
  split_ifs at hnegative with hsign
  · exact absurd hnegative (by simp [Attempt.giveUp])
  · obtain ⟨-, rfl⟩ := Prod.mk.inj (Except.ok.inj hnegative)
    refine ⟨up, up', down, down', numnodes, w4, hupNodes, hupSort, hdownNodes, hdownSort, hnumnodes,
      not_lt.mp hsign, ?_⟩
    rw [hw4]
    rfl

/-- Assumes: a handle whose lists hold the names of a load. The last part of a load, if it succeeds,
sorts them and counts the nodes. -/
theorem finishLoad_holds {c : Cluster} {env : LoadEnv} {w w' : World}
    (hqsort : IsSort hostrangeCmp env.qsort)
    (hc : w.lib.cluster = some c) (hmagic : w.handle.magic = magicNum)
    (hlists : w.Lists fun up ↦ c.names up w.reports)
    (hhosts : ∀ host ∈ c.hosts, PlainName host ∧ '.' ∉ host)
    (hrun : finishLoad env w = .ok (some (), w')) : w'.Holds c := by
  obtain ⟨up, up', down, down', numnodes, v, hupNodes, hupSort, hdownNodes, hdownSort, hnumnodes,
      hsign, rfl⟩ :=
    finishLoad_ok hrun
  have hsorted : ∀ side, ∃ hl, ((w.setNodes true up').setNodes false down').handle.nodes side =
    some hl ∧ hl.Filled ∧
      hl.hosts.Perm (c.names side w.reports) := by
    intro side
    obtain ⟨hl, hnodes, hfilled, hnames⟩ := hlists side
    cases side with
    | true =>
      obtain rfl := Option.some.inj (hnodes.symm.trans hupNodes)
      exact ⟨up', rfl, hfilled.sort hqsort hupSort,
        (hostlistSort_ok hqsort hfilled.canonical hupSort).2.trans (List.Perm.of_eq hnames)⟩
    | false =>
      obtain rfl : hl = down := Option.some.inj (hnodes.symm.trans hdownNodes)
      exact ⟨down', rfl, hfilled.sort hqsort hdownSort,
        (hostlistSort_ok hqsort hfilled.canonical hdownSort).2.trans (List.Perm.of_eq hnames)⟩
  have hcount :=
    getNumnodes_eq (w := (w.setNodes true up').setNodes false down') hc hsorted hnumnodes
  exact ⟨⟨hmagic, rfl⟩, hc, fun side ↦ by cases side <;> exact hsorted _, hcount, hsign, hhosts⟩

/-- A load succeeds if its handle is not loaded and its body succeeds. -/
theorem loadData_ok {env : LoadEnv} {args : LoadArgs} {w w' : World}
    (hload : loadData env args w = .ok (0, w')) :
    w.handle.magic = magicNum ∧ w.handle.loadState = .unloaded ∧ loadBody env args w =
      .ok (some (), w') := by
  unfold loadData at hload
  by_cases hmagic : w.handle.magic = magicNum
  · cases hstate : w.handle.loadState with
    | unloaded =>
      have hcheck : unloadedHandleErrorCheck w.handle = (true, w.handle) := by
        simp [unloadedHandleErrorCheck, hmagic, hstate]
      simp only [hcheck, not_true_eq_false, if_false] at hload
      split at hload
      · exact absurd hload (by simp)
      · exact absurd hload (by simp)
      · rename_i hbody
        obtain ⟨-, rfl⟩ := Prod.mk.inj (Except.ok.inj hload)
        exact ⟨hmagic, rfl, hbody⟩
    | setup => simp [unloadedHandleErrorCheck, hmagic, hstate] at hload
    | loaded => simp [unloadedHandleErrorCheck, hmagic, hstate] at hload
  · simp [unloadedHandleErrorCheck, hmagic] at hload

/-- The parts of a load that succeeds: it starts with a handle that is set up with empty lists,
which the servers fill, compares it with the cluster, and ends. -/
structure LoadParts (env : LoadEnv) (args : LoadArgs)
    (configs : NodeupdownConfig × NodeupdownConfig) (port timeoutLen : ℤ)
    (start filled compared loaded : World) : Prop where
  start_state : start.handle.loadState = .setup
  start_nodes : ∀ up, start.handle.nodes up = some hostlistNew
  start_reports : start.reports = []
  start_lib : start.lib = loaded.lib
  fileConfig : env.fileConfig = some configs.1
  moduleConfig : ∃ info, loaded.lib.config.info = some info ∧ info.config = configs.2
  servers : getUpdownData args configs.1 configs.2 port timeoutLen start = .ok (some (), filled)
  filled_state : filled.handle.loadState = .setup
  filled_knows : filled.Knows env
  filled_reports : filled.reports = loaded.reports
  filled_lib : filled.lib = loaded.lib
  comparison : clusterlistModuleCompareToClusterlist filled = .ok (some (), compared)
  compared_reports : compared.reports = loaded.reports
  compared_lib : compared.lib = loaded.lib
  compared_magic : compared.handle.magic = magicNum
  finished : finishLoad env compared = .ok (some (), loaded)

/-- A function of the config module is one of the module that is loaded. -/
theorem withConfig_some {α : Type} {reply : ConfigInfo → Reply α} {w w' : World} {value : α}
    (hrun : withConfig reply w = .ok (some value, w')) : ∃ info, w.lib.config.info = some info ∧
    (reply info).value = value := by
  unfold withConfig at hrun
  cases hinfo : w.lib.config.info with
  | none =>
    rw [hinfo] at hrun
    exact absurd hrun (by simp)
  | some info =>
    rw [hinfo] at hrun
    exact ⟨info, rfl, Option.some.inj (Prod.mk.inj (Except.ok.inj hrun)).1⟩

/-- The configurations of a load are those of the file and of the config module. -/
theorem loadModules_configs {env : LoadEnv} {args : LoadArgs} {w w' : World}
    {configs : NodeupdownConfig × NodeupdownConfig}
    (hrun : loadModules env args w = .ok (some configs, w')) :
    ∃ info, w'.lib.config.info = some info ∧ info.config = configs.2 := by
  obtain ⟨conffile, w1, -, hrun⟩ := attempt_bind_some.mp hrun
  obtain ⟨_, w2, -, hrun⟩ := attempt_bind_some.mp hrun
  obtain ⟨_, w3, -, hrun⟩ := attempt_bind_some.mp hrun
  obtain ⟨preferred, w4, -, hrun⟩ := attempt_bind_some.mp hrun
  obtain ⟨_, w5, -, hrun⟩ := attempt_bind_some.mp hrun
  obtain ⟨_, w6, -, hrun⟩ := attempt_bind_some.mp hrun
  obtain ⟨_, w7, -, hrun⟩ := attempt_bind_some.mp hrun
  obtain ⟨_, w8, -, hrun⟩ := attempt_bind_some.mp hrun
  obtain ⟨module, w9, hloadConfig, hrun⟩ := attempt_bind_some.mp hrun
  obtain ⟨_, w10, hallocate, hend⟩ := attempt_bind_some.mp hrun
  obtain ⟨hconfigs, rfl⟩ := Prod.mk.inj (Except.ok.inj hend)
  obtain rfl := Option.some.inj hconfigs
  obtain ⟨_, w11, -, hgiven⟩ := attempt_bind_some.mp hloadConfig
  obtain ⟨info, hinfo, hconfig⟩ := withConfig_some hgiven
  have hlib9 : w9.lib = w11.lib := preserves_withConfig lib_setErrnum _ _ _ _ hgiven
  have hlib10 : w10.lib = w9.lib := by
    unfold allocateNodes at hallocate
    split_ifs at hallocate <;> obtain ⟨-, rfl⟩ := Prod.mk.inj (Except.ok.inj hallocate) <;> rfl
  exact ⟨info, by rw [hlib10, hlib9, hinfo], hconfig⟩

theorem lib_finishLoad (env : LoadEnv) : Preserves World.lib (finishLoad env) := by
  refine (preserves_sortNodes lib_setNodes env true).bind fun _ ↦ ?_
  refine (preserves_sortNodes lib_setNodes env false).bind fun _ ↦ ?_
  exact (frame_countNodes.comp Prod.fst).bind fun _ ↦ preserves_update fun _ ↦ rfl

theorem reports_finishLoad (env : LoadEnv) : Preserves World.reports (finishLoad env) := by
  refine (preserves_sortNodes reports_setNodes env true).bind fun _ ↦ ?_
  refine (preserves_sortNodes reports_setNodes env false).bind fun _ ↦ Preserves.bind ?_ fun _ ↦
    preserves_update fun _ ↦ rfl
  refine (preserves_getNumnodes reports_setErrnum).bind fun numnodes ↦
      Preserves.bind (preserves_update ?_) fun _ ↦
    preserves_unlessNegative numnodes
  exact fun w ↦ rfl

/-- Assumes: a handle in a world without reports. A load that succeeds has these parts. -/
theorem loadData_parts {env : LoadEnv} {args : LoadArgs} {w w' : World} (hstart : w.reports = [])
    (hload : loadData env args w = .ok (0, w')) :
    ∃ configs port timeoutLen start filled compared,
      LoadParts env args configs port timeoutLen start filled compared w' := by
  obtain ⟨hmagic, -, hbody⟩ := loadData_ok hload
  obtain ⟨_, w1, hinit, hrun⟩ := attempt_bind_some.mp hbody
  obtain ⟨configs, w2, hmodules, hrun⟩ := attempt_bind_some.mp hrun
  obtain ⟨_, w3, hnodes, hfinish⟩ := attempt_bind_some.mp hrun
  obtain ⟨port, w4, hport, hnodes⟩ := attempt_bind_some.mp hnodes
  obtain ⟨timeoutLen, w5, htimeout, hnodes⟩ := attempt_bind_some.mp hnodes
  obtain ⟨_, w6, hservers, hcompare⟩ := attempt_bind_some.mp hnodes
  have hinit1 : w1.reports = [] ∧ w1.handle.magic = magicNum := by
    unfold initializeLtdl at hinit
    split_ifs at hinit
    · obtain ⟨-, rfl⟩ := Prod.mk.inj (Except.ok.inj hinit)
      exact ⟨hstart, hmagic⟩
    · exact absurd hinit (by simp)
  obtain ⟨hreports2, hfile, hknows2, hstate2, hup2, hdown2, -⟩ := loadModules_spec hmodules
  have hmagic2 : w2.handle.magic = magicNum :=
    (congrArg Prod.fst (owner_loadModules env args _ _ _ hmodules)).trans hinit1.2
  have hcontent : w5.content = w2.content :=
    (preserves_resolveTimeoutLen content_setErrnum _ _ _ _ _ _ htimeout).trans
      (preserves_resolvePort content_setErrnum _ _ _ _ _ _ hport)
  have hframe5 : w5.frame = w2.frame := congrArg Prod.fst hcontent
  have hframe6 := frame_getUpdownData args _ _ _ _ _ _ _ hservers
  have hframe3 := preserves_compareToClusterlist frame_setNodes frame_setErrnum _ _ _ hcompare
  have hlib6 : w6.lib = w5.lib := congrArg Prod.fst hframe6
  have hlib3 : w3.lib = w6.lib := congrArg Prod.fst hframe3
  have hlib : w'.lib = w3.lib := lib_finishLoad env _ _ _ hfinish
  have hlib2 : w2.lib = w'.lib :=
    ((hlib.trans (hlib3.trans hlib6)).trans (congrArg Prod.fst hframe5)).symm
  have hstate5 : w5.handle.loadState = .setup :=
    (congrArg (fun frame ↦ frame.2.2.2) hframe5).trans hstate2
  have hstate6 : w6.handle.loadState = .setup :=
    (congrArg (fun frame ↦ frame.2.2.2) hframe6).trans hstate5
  have hknown5 : w5.Knows env := hknows2.of_known
    (congrArg (fun content ↦
      (content.1.1.clusterlist.info, content.1.1.hosts, content.1.1.clusterlistModuleFound,
      content.2.1)) hcontent)
  have hreports3 := preserves_compareToClusterlist reports_setNodes reports_setErrnum _ _ _ hcompare
  have hreports : w'.reports = w3.reports := reports_finishLoad env _ _ _ hfinish
  refine ⟨configs, port, timeoutLen, w5, w6, w3, hstate5, fun up ↦ ?_, ?_, ?_, hfile,
    hlib2 ▸ loadModules_configs hmodules,
    hservers, hstate6, ?_, ?_, ?_, hcompare, ?_, ?_, ?_, hfinish⟩
  · rw [show w5.handle.nodes = w2.handle.nodes from congrArg (fun content ↦ content.2.2) hcontent]
    cases up
    · exact hdown2
    · exact hup2
  · exact (congrArg (fun content ↦ content.2.1) hcontent).trans (hreports2.trans hinit1.1)
  · rw [hlib, hlib3, hlib6]
  · refine ⟨fun h0 ↦ ?_, fun hosts hhosts ↦ hknown5.hosts hosts (hlib6 ▸ hhosts)⟩
    rw [hlib6] at h0 ⊢
    exact hknown5.found h0
  · exact (hreports.trans hreports3).symm
  · rw [hlib, hlib3]
  · exact hreports.symm
  · exact hlib.symm
  · have hmagic5 : w5.handle.magic = w2.handle.magic := congrArg (fun frame ↦ frame.2.1) hframe5
    have hmagic6 : w6.handle.magic = w5.handle.magic := congrArg (fun frame ↦ frame.2.1) hframe6
    have hmagic3 : w3.handle.magic = w6.handle.magic := congrArg (fun frame ↦ frame.2.1) hframe3
    rw [hmagic3, hmagic6, hmagic5, hmagic2]

section

variable {env : LoadEnv} {args : LoadArgs} {configs : NodeupdownConfig × NodeupdownConfig}
    {port timeoutLen : ℤ}
  {start filled compared loaded : World}

/-- Assumes: a load with a clusterlist module of the sources. The handle in front of the servers is
one being filled, that holds nothing. -/
theorem LoadParts.start_filling (parts : LoadParts env args configs port timeoutLen start filled
    compared loaded)
    {c : Cluster} (hc : loaded.lib.cluster = some c) : start.Filling c := by
  refine ⟨parts.start_lib ▸ hc, parts.start_state, fun _ side ↦
    ⟨hostlistNew, parts.start_nodes side, .new, ?_⟩⟩
  rw [parts.start_reports]
  rfl

/-- Assumes: a load with a clusterlist module of the sources. The servers have filled the handle. -/
theorem LoadParts.filled_filling (parts : LoadParts env args configs port timeoutLen start filled
    compared loaded)
    {c : Cluster} (hc : loaded.lib.cluster = some c) : filled.Filling c :=
  filling_getUpdownData args _ _ _ _ _ _ _ (parts.start_filling hc) parts.servers

end

/-- Assumes: a handle in a world without reports, a load with a clusterlist module of the sources
that succeeds, plain names that are added, hosts of the file that are plain unless they are empty,
and less than `2 ^ 31` calls and hosts. The load leaves the names that have been added, and the
hosts that no one has reported. -/
theorem loadData_lists {c : Cluster} {env : LoadEnv} {args : LoadArgs} {w w' : World}
    (hqsort : IsSort hostrangeCmp env.qsort) (hstart : w.reports = [])
    (hc : w'.lib.cluster = some c)
    (hplain : ∀ up, ∀ name ∈ c.entries up w'.reports, PlainName name)
    (hhosts : ∀ host ∈ c.hosts, host ≠ [] → PlainName host)
    (hsmall : w'.reports.length + c.hosts.length < 2 ^ 31)
    (hload : loadData env args w = .ok (0, w')) : w'.Holds c := by
  obtain ⟨configs, port, timeoutLen, start, filled, compared, parts⟩ := loadData_parts hstart hload
  obtain ⟨hlists, hown⟩ := compareToClusterlist_lists (parts.filled_filling hc) parts.filled_knows
    (parts.filled_reports ▸ hplain) hhosts (parts.filled_reports ▸ hsmall) parts.comparison
  rw [parts.filled_reports, ← parts.compared_reports] at hlists
  exact finishLoad_holds hqsort (parts.compared_lib ▸ hc) parts.compared_magic hlists hown
    parts.finished

/-- Assumes: a handle in a world without reports, and a load that succeeds. The module is the
default one unless one has been found, and the hosts of the hostsfile are those that have been
read. -/
theorem loadData_knows {env : LoadEnv} {args : LoadArgs} {w w' : World} (hstart : w.reports = [])
    (hload : loadData env args w = .ok (0, w')) : w'.Knows env := by
  obtain ⟨configs, port, timeoutLen, start, filled, compared, parts⟩ := loadData_parts hstart hload
  refine ⟨fun h0 ↦ ?_, fun hosts hhosts ↦
    parts.filled_knows.hosts hosts (parts.filled_lib ▸ hhosts)⟩
  rw [← parts.filled_lib] at h0 ⊢
  exact parts.filled_knows.found h0

/-! ### A load in a new process -/

/-- A new handle in a new process. -/
def startWorld : World :=
  Process.start.world newHandle

/-- What a load comes to: its value, and a view of the world behind it. -/
theorem exists_of_view {α : Type} (view : World → α) {outcome : Except LibFault (ℤ × World)}
    {rv : ℤ} {seen : α}
    (h : (outcome.toOption.map fun loaded ↦ (loaded.1, view loaded.2)) = some (rv, seen)) :
    ∃ w', outcome = .ok (rv, w') ∧ view w' = seen := by
  cases outcome with
  | error failure => exact absurd h (by simp [Except.toOption])
  | ok loaded =>
    obtain ⟨rfl, rfl⟩ := Prod.mk.inj (Option.some.inj h)
    exact ⟨loaded.2, rfl, rfl⟩

/-- What a load comes to, in short: its value, the cluster, the calls of the backend, and how many
clusterlist modules have been found. -/
def loadSummary (outcome : Except LibFault (ℤ × World)) :
    Option (ℤ × Option Cluster × List BackendCall × ℕ) :=
  outcome.toOption.map fun loaded ↦
    (loaded.1, loaded.2.lib.cluster, loaded.2.reports, loaded.2.lib.clusterlistModuleFound)

theorem exists_of_loadSummary {outcome : Except LibFault (ℤ × World)} {rv : ℤ} {c : Option Cluster}
    {calls : List BackendCall} {found : ℕ} (h : loadSummary outcome = some (rv, c, calls, found)) :
    ∃ w', outcome = .ok (rv, w') ∧ w'.lib.cluster = c ∧ w'.reports = calls ∧
      w'.lib.clusterlistModuleFound = found := by
  obtain ⟨w', hload, hseen⟩ := exists_of_view
    (fun w ↦ (w.lib.cluster, w.reports, w.lib.clusterlistModuleFound)) h
  exact ⟨w', hload, by simpa only [Prod.mk.injEq] using hseen⟩

/-- What two calls behind a load return. -/
def askTwo {α β : Type} (first : Nodeupdown α) (second : Nodeupdown β)
    (outcome : Except LibFault (ℤ × World)) :
    Option (Option α × Option β) :=
  outcome.toOption.bind fun loaded ↦
    (first loaded.2).toOption.bind fun one ↦ (second one.2).toOption.map fun two ↦ (one.1, two.1)

theorem exists_of_askTwo {α β : Type} {first : Nodeupdown α} {second : Nodeupdown β}
    {rv : ℤ} {w : World}
    {one : Option α} {two : Option β} (h : askTwo first second (.ok (rv, w)) = some (one, two)) :
    ∃ w1 w2, first w = .ok (one, w1) ∧ second w1 = .ok (two, w2) := by
  obtain ⟨loaded, hloaded, h⟩ := Option.bind_eq_some_iff.mp h
  obtain rfl := Option.some.inj hloaded
  obtain ⟨⟨one, w1⟩, hone, h⟩ := Option.bind_eq_some_iff.mp h
  obtain ⟨⟨two, w2⟩, htwo, h⟩ := Option.map_eq_some_iff.mp h
  obtain ⟨rfl, rfl⟩ := Prod.mk.inj h
  have hok : ∀ {γ : Type} {outcome : Except LibFault γ} {value : γ}, outcome.toOption = some value →
      outcome = .ok value := by
    intro γ outcome value hvalue
    cases outcome with
    | error failure => exact absurd hvalue (by simp [Except.toOption])
    | ok other => exact congrArg Except.ok (Option.some.inj hvalue)
  exact ⟨w1, w2, hok hone, hok htwo⟩

end Whatsup
