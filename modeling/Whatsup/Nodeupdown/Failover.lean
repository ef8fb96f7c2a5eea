import Whatsup.Nodeupdown.Answers
import Whatsup.Nodeupdown.ModuleChoice

/-!
# Failing over to another server

`nodeupdown_load_data` tries the configured servers in turn. A server that fails may have delivered
records before, and the backend has added their nodes to the lists of the handle while it read them:
they stay when the next server is tried.

`loadData_failover` says that the calls of a load are those of the servers that failed and, behind
them, those of the server that answered, and `loadData_alone` that a load from one server has the
calls of that server. `failover_iff` says when nothing of the former is left in the lists: if, of
the nodes of the cluster, the failed servers have reported none as up, and as down only hosts that
are down without them, each once.
-/

set_option autoImplicit false
set_option relaxedAutoImplicit false

namespace Whatsup

open CLib

/-! ### The pingd backend as a module -/

/-- What the pingd backend finds at a server: what can be read if a connection is made, the clock,
and the error number that is set if it fails. -/
structure ServerAnswer where
  connection : Option (List ReadEvent)
  gettimeofday : Option Timeval
  errnum : Option Errnum

/-- `backend_module_info` of the pingd backend, for the answers of the servers, by the number of the
call, the host name and the port, and for the name of the own host. -/
def pingdBackendModuleInfo (servers : ℕ → List Char → ℤ → ServerAnswer)
    (gethostname : Option (List Char)) : BackendInfo where
  backendModuleName := "pingd".toList
  defaultHostname := ⟨gethostname, if gethostname.isSome then none else some .internal⟩
  defaultPort := ⟨9125, none⟩
  defaultTimeoutLen := ⟨60, none⟩
  preferredClusterlistModule := ⟨none, none⟩
  setup := ⟨0, none⟩
  cleanup := ⟨0, none⟩
  getUpdownData attempt hostname port timeoutLen _ :=
    let answer := servers attempt hostname port
    let run := pingdBackendGetUpdownData answer.connection answer.gettimeofday (toUint timeoutLen)
    ⟨run.1, ⟨run.2, if run.2 < 0 then answer.errnum else none⟩⟩

/-! ### The servers that are tried -/

/-- The calls of the servers that fail, and those of the first one that does not, for what the
backend does in each attempt. Empty names are passed. -/
def failover (run : ℕ → List Char → BackendRun) :
    ℕ → List (List Char) → Option (List BackendCall × List BackendCall)
  | _, [] => none
  | attempt, hostname :: hostnames =>
    if hostname = [] then failover run (attempt + 1) hostnames
    else if (run attempt hostname).reply.value < 0 then
      (failover run (attempt + 1) hostnames).map fun calls ↦
        ((run attempt hostname).calls ++ calls.1, calls.2)
    else some ([], (run attempt hostname).calls)

/-- The configured host names: those of the configuration file or, without them, those of the config
module. -/
def LoadEnv.configuredHostnames (env : LoadEnv) (lib : Library) : Option (List (List Char)) :=
  match env.fileConfig, lib.config.info with
  | some conffile, some info =>
    if conffile.hostnamesFlag then some conffile.hostnames
    else if info.config.hostnamesFlag then some info.config.hostnames
    else none
  | _, _ => none

/-- What a backend finds on a server leaves the library as it is. -/
theorem lib_getUpdownDataCall (attempt : ℕ) (hostname : List Char) (port timeoutLen : ℤ)
    (reserved : Option (List Char)) :
    Preserves World.lib (backendModuleGetUpdownData attempt hostname port timeoutLen reserved) := by
  intro w value w' h
  have hcalls : ∀ calls, Leads (fun v ↦ v.lib = w.lib) (fun v ↦ v.lib = w.lib) (runCalls calls) :=
    fun calls v value v' hv hrun ↦ (runCalls_keeps (P := fun v ↦ v.lib = w.lib)
      (fun call v v' value hv hrun ↦
        (congrArg Prod.fst (frame_backendCall call _ _ _ hrun)).trans hv) calls hv hrun).1
  exact leads_getUpdownDataCall (fun _ _ ↦ rfl) hcalls attempt hostname port timeoutLen reserved w
    value w' rfl h

/-- Assumes: a backend. If the loop over the servers ends with one that answers, what has been
reported are the calls of those that failed and of that one. -/
theorem tryHostnames_reports {port timeoutLen : ℤ} {reserved : Option (List Char)}
    {info : BackendInfo}
    (hostnames : List (List Char)) :
    ∀ {attempt : ℕ} {w w' : World}, w.lib.backend.info = some info →
      tryHostnames port timeoutLen reserved attempt hostnames w = .ok (some (), w') →
      ∃ failed found, failover (fun attempt hostname ↦
        info.getUpdownData attempt hostname port timeoutLen reserved) attempt
          hostnames = some (failed, found) ∧ w'.reports = w.reports ++ (failed ++ found) := by
  induction hostnames with
  | nil => exact fun _ hrun ↦ absurd hrun (by simp [tryHostnames])
  | cons hostname hostnames ih =>
    intro attempt w w' hinfo hrun
    rw [tryHostnames] at hrun
    rw [failover]
    split_ifs at hrun ⊢ with hempty hnegative
    · exact ih hinfo hrun
    · -- the server fails: what it has delivered stays in front
      cases hserver : backendModuleGetUpdownData attempt hostname port timeoutLen reserved w with
      | error failure => exact absurd (hserver ▸ hrun) (by simp)
      | ok result =>
        obtain ⟨value, w1⟩ := result
        obtain ⟨hreports, hvalue⟩ := getUpdownDataCall_reports hinfo hserver
        obtain rfl := hvalue.mpr hnegative
        rw [hserver] at hrun
        have hinfo1 : w1.lib.backend.info = some info := by
          rw [lib_getUpdownDataCall _ _ _ _ _ _ _ _ hserver, hinfo]
        obtain ⟨failed, found, hfailover, hreports'⟩ := ih hinfo1 hrun
        refine ⟨_, found, by rw [hfailover]; rfl, ?_⟩
        rw [hreports', hreports, List.append_assoc, List.append_assoc]
    · cases hserver : backendModuleGetUpdownData attempt hostname port timeoutLen reserved w with
      | error failure => exact absurd (hserver ▸ hrun) (by simp)
      | ok result =>
        obtain ⟨value, w1⟩ := result
        obtain ⟨hreports, hvalue⟩ := getUpdownDataCall_reports hinfo hserver
        rw [hserver] at hrun
        cases value with
        | none => exact absurd (hvalue.mp rfl) hnegative
        | some _ =>
          obtain ⟨-, rfl⟩ := Prod.mk.inj (Except.ok.inj hrun)
          exact ⟨[], _, rfl, hreports⟩

/-! ### The calls of a load -/

/-- Assumes: a handle in a world without reports, a load that succeeds, and configured host names
that it tries. Its calls are those of the servers that failed and, behind them, of the one that
answered. -/
theorem loadData_failover {env : LoadEnv} {args : LoadArgs} {w w' : World}
    {hostnames : List (List Char)}
    {backend : BackendInfo} (hstart : w.reports = []) (hload : loadData env args w = .ok (0, w'))
    (hbackend : w'.lib.backend.info = some backend) (hargs : args.hostname = none)
    (hnames : env.configuredHostnames w'.lib = some hostnames) :
    ∃ port timeoutLen failed found, failover (fun attempt hostname ↦
        backend.getUpdownData attempt hostname port timeoutLen args.module) 0 hostnames =
          some (failed, found) ∧
      w'.reports = failed ++ found := by
  obtain ⟨configs, port, timeoutLen, start, filled, compared, parts⟩ := loadData_parts hstart hload
  obtain ⟨info, hinfo, hconfig⟩ := parts.moduleConfig
  have hservers := parts.servers
  rw [LoadEnv.configuredHostnames, parts.fileConfig, hinfo] at hnames
  rw [getUpdownData, hargs, ← hconfig] at hservers
  have htried : tryHostnames port timeoutLen args.module 0 hostnames start =
      .ok (some (), filled) := by
    simp only at hnames hservers
    split_ifs at hnames hservers <;> obtain rfl := Option.some.inj hnames <;> exact hservers
  obtain ⟨failed, found, hfailover, hreports⟩ :=
    tryHostnames_reports hostnames (parts.start_lib ▸ hbackend) htried
  refine ⟨port, timeoutLen, failed, found, hfailover, ?_⟩
  rw [← parts.filled_reports, hreports, parts.start_reports, List.nil_append]

/-- Assumes: a handle in a world without reports, and a load from one server that succeeds. Its
calls are those of the server. -/
theorem loadData_alone {env : LoadEnv} {args : LoadArgs} {w w' : World} {hostname : List Char}
    {backend : BackendInfo} (hstart : w.reports = []) (hload : loadData env args w = .ok (0, w'))
    (hbackend : w'.lib.backend.info = some backend) (hargs : args.hostname = some hostname) :
    ∃ port timeoutLen, w'.reports =
      (backend.getUpdownData 0 hostname port timeoutLen args.module).calls := by
  obtain ⟨configs, port, timeoutLen, start, filled, compared, parts⟩ := loadData_parts hstart hload
  have hserver := parts.servers
  rw [getUpdownData, hargs] at hserver
  obtain ⟨hreports, -⟩ := getUpdownDataCall_reports (parts.start_lib ▸ hbackend) hserver
  refine ⟨port, timeoutLen, ?_⟩
  rw [← parts.filled_reports, hreports, parts.start_reports, List.nil_append]

/-! ### What the failed servers leave -/

/-- The calls of failed servers leave nothing in the lists, in front of the calls of the server that
answers: what they report as up names no host, and what they report as down names hosts that are
down without these calls because no one has reported them. -/
structure LeavesNothing (m : Membership) (failed found : List BackendCall) : Prop where
  up : (m.entries true failed).flatMap namedHosts = []
  down : ((m.entries false failed).flatMap namedHosts ++
    (m.unreported (failed ++ found)).flatMap namedHosts).Perm
    ((m.unreported found).flatMap namedHosts)

/-- The same for plain names: the failed servers add no node as up, and as down only hosts of the
cluster that the other calls do not add, each once. -/
structure OnlyUnreported (c : Cluster) (failed found : List BackendCall) : Prop where
  up : c.entries true failed = []
  once : (c.entries false failed).Nodup
  down : ∀ name ∈ c.entries false failed, name ∈ c.hosts ∧ name ∉ c.entries true found ++
    c.entries false found

/-- Two loads have left the same nodes in each list. -/
def SameNodes (w v : World) : Prop :=
  ∀ up, ∃ hl hl', w.handle.nodes up = some hl ∧ v.handle.nodes up = some hl' ∧
    hl.hosts.Perm hl'.hosts

/-- Names added in front take the place of undiscovered hosts exactly if they are such hosts, each
once. -/
theorem perm_undiscovered_iff (known failed hosts : List (List Char)) :
    (failed ++ undiscovered (known ++ failed) hosts).Perm (undiscovered known hosts) ↔
      failed.Nodup ∧ ∀ name ∈ failed, name ∈ hosts ∧ name ∉ known := by
  constructor
  · intro hperm
    refine ⟨(List.nodup_append.mp (hperm.nodup_iff.mpr (nodup_undiscovered hosts known))).1,
      fun name hname ↦ ?_⟩
    exact (mem_undiscovered hosts known).mp (hperm.mem_iff.mp (List.mem_append_left _ hname))
  · rintro ⟨hnodup, hundiscovered⟩
    have hdisjoint : failed.Disjoint (undiscovered (known ++ failed) hosts) :=
        fun name hname hother ↦
      ((mem_undiscovered hosts _).mp hother).2 (List.mem_append_right _ hname)
    refine (List.perm_ext_iff_of_nodup (hnodup.append (nodup_undiscovered hosts _) hdisjoint)
      (nodup_undiscovered hosts known)).mpr fun name ↦ ?_
    rw [List.mem_append, mem_undiscovered, mem_undiscovered, List.mem_append]
    constructor
    · exact fun h ↦ h.elim (hundiscovered name) fun h ↦ ⟨h.1, fun hknown ↦ h.2 (Or.inl hknown)⟩
    · intro h
      by_cases hfailed : name ∈ failed
      · exact Or.inl hfailed
      · exact Or.inr ⟨h.1, fun hmem ↦ hmem.elim h.2 hfailed⟩

/-- The calls of the failed servers leave the names as they are without them exactly if they add
unreported hosts only. -/
theorem perm_names_iff (c : Cluster) (failed found : List BackendCall) :
    (∀ up, (c.names up (failed ++ found)).Perm (c.names up found)) ↔
      OnlyUnreported c failed found := by
  have hup : (c.names true (failed ++ found)).Perm (c.names true found) ↔
      c.entries true failed = [] := by
    simp only [Cluster.names, if_true, List.append_nil, Cluster.entries_append]
    refine ⟨fun hperm ↦ ?_, fun h ↦ by rw [h, List.nil_append]⟩
    have hlength := hperm.length_eq
    rw [List.length_append] at hlength
    exact List.eq_nil_of_length_eq_zero (by omega)
  have hdown : c.entries true failed = [] →
    ((c.names false (failed ++ found)).Perm (c.names false found) ↔
      (c.entries false failed).Nodup ∧ ∀ name ∈ c.entries false failed, name ∈ c.hosts ∧
        name ∉ c.entries true found ++ c.entries false found) := by
    intro hnone
    rw [← perm_undiscovered_iff]
    simp only [Cluster.names, Bool.false_eq_true, if_false, Cluster.entries_append, hnone,
      List.nil_append]
    rw [undiscovered_congr c.hosts (c.entries true found ++
      (c.entries false failed ++ c.entries false found))
      (c.entries true found ++ c.entries false found ++ c.entries false failed) fun name ↦ by
        simp only [List.mem_append, or_assoc, or_comm (a := name ∈ c.entries false failed)]]
    generalize undiscovered (c.entries true found ++ c.entries false found ++
      c.entries false failed) c.hosts = rest
    have hswap : (c.entries false failed ++ c.entries false found ++ rest).Perm
        (c.entries false found ++ (c.entries false failed ++ rest)) := by
      rw [← List.append_assoc]
      exact List.perm_append_comm.append_right rest
    exact (hswap.congr_left _).trans (List.perm_append_left_iff _)
  rw [Bool.forall_bool, hup]
  constructor
  · rintro ⟨hfalse, htrue⟩
    obtain ⟨honce, hhosts⟩ := (hdown htrue).mp hfalse
    exact ⟨htrue, honce, hhosts⟩
  · rintro ⟨htrue, honce, hhosts⟩
    exact ⟨(hdown htrue).mpr ⟨honce, hhosts⟩, htrue⟩

/-- The calls of the failed servers leave the hosts as they are without them exactly if they leave
nothing. -/
theorem perm_hosts_iff (m : Membership) (failed found : List BackendCall) :
    (∀ up, (m.hosts up (failed ++ found)).Perm (m.hosts up found)) ↔
      LeavesNothing m failed found := by
  have hup : (m.hosts true (failed ++ found)).Perm (m.hosts true found) ↔
      (m.entries true failed).flatMap namedHosts = [] := by
    simp only [Membership.hosts, Membership.texts, if_true, List.append_nil,
      Membership.entries_append, List.flatMap_append]
    refine ⟨fun hperm ↦ ?_, fun h ↦ by rw [h, List.nil_append]⟩
    have hlength := hperm.length_eq
    rw [List.length_append] at hlength
    exact List.eq_nil_of_length_eq_zero (by omega)
  have hdown : (m.hosts false (failed ++ found)).Perm (m.hosts false found) ↔
      ((m.entries false failed).flatMap namedHosts ++
        (m.unreported (failed ++ found)).flatMap namedHosts).Perm
        ((m.unreported found).flatMap namedHosts) := by
    simp only [Membership.hosts, Membership.texts, Bool.false_eq_true, if_false,
      Membership.entries_append,
      List.flatMap_append]
    generalize (m.unreported (failed ++ found)).flatMap namedHosts = rest
    have hswap :
      ((m.entries false failed).flatMap namedHosts ++ (m.entries false found).flatMap namedHosts ++
      rest).Perm
        ((m.entries false found).flatMap namedHosts ++
            ((m.entries false failed).flatMap namedHosts ++ rest)) := by
      rw [← List.append_assoc]
      exact List.perm_append_comm.append_right rest
    exact (hswap.congr_left _).trans (List.perm_append_left_iff _)
  rw [Bool.forall_bool, hup, hdown]
  exact ⟨fun h ↦ ⟨h.2, h.1⟩, fun h ↦ ⟨h.down, h.up⟩⟩

/-! ### Failover -/

/-- Two handles whose lists denote the hosts of texts have the same nodes exactly if the texts name
the same hosts. -/
theorem sameNodes_iff {w v : World} {texts texts' : Bool → List (List Char)} (hw : w.Denotes texts)
    (hv : v.Denotes texts') :
    SameNodes w v ↔
      ∀ up, ((texts up).flatMap namedHosts).Perm ((texts' up).flatMap namedHosts) := by
  refine forall_congr' fun up ↦ ?_
  obtain ⟨hl, hnodes, -⟩ := hw up
  obtain ⟨hl', hnodes', -⟩ := hv up
  have hperm := (hw.perm_hosts hnodes).2
  have hperm' := (hv.perm_hosts hnodes').2
  constructor
  · rintro ⟨other, other', hother, hother', hsame⟩
    obtain rfl := Option.some.inj (hnodes.symm.trans hother)
    obtain rfl := Option.some.inj (hnodes'.symm.trans hother')
    exact (hperm.symm.trans hsame).trans hperm'
  · exact fun hsame ↦ ⟨hl, hl', hnodes, hnodes', (hperm.trans hsame).trans hperm'.symm⟩

/-- Two handles that hold plain names have the same nodes exactly if the names are the same. -/
theorem sameNodes_names_iff {c : Cluster} {w v : World} (hw : w.Holds c) (hv : v.Holds c) :
    SameNodes w v ↔ ∀ up, (c.names up w.reports).Perm (c.names up v.reports) := by
  refine forall_congr' fun up ↦ ?_
  obtain ⟨hl, hnodes, -, hperm⟩ := hw.lists up
  obtain ⟨hl', hnodes', -, hperm'⟩ := hv.lists up
  constructor
  · rintro ⟨other, other', hother, hother', hsame⟩
    obtain rfl := Option.some.inj (hnodes.symm.trans hother)
    obtain rfl := Option.some.inj (hnodes'.symm.trans hother')
    exact (hperm.symm.trans hsame).trans hperm'
  · exact fun hsame ↦ ⟨hl, hl', hnodes, hnodes', (hperm.trans hsame).trans hperm'.symm⟩

/-- Assumes: failed servers whose calls push nothing. The lists of the load are those of a load
without these calls, with the same sorts, whatever has been pushed. -/
theorem World.Sorts.sameNodes {m : Membership} {env env' : LoadEnv}
    {failed found : List BackendCall} {w v : World}
    (hw : w.Sorts env (m.lists (failed ++ found))) (hv : v.Sorts env' (m.lists found))
    (hnothing : ∀ up, m.entries up failed = []) (hndebug : env'.ndebug = env.ndebug)
    (hqsort : env'.qsort = env.qsort) :
    SameNodes w v := by
  have hlists : m.lists (failed ++ found) = m.lists found := by
    unfold Membership.lists
    simp only [Membership.entries_append, hnothing, List.nil_append]
  intro up
  obtain ⟨hl, hsort, hnodes⟩ := hw.sorted up
  obtain ⟨hl', hsort', hnodes'⟩ := hv.sorted up
  rw [hlists] at hsort
  rw [hndebug, hqsort] at hsort'
  obtain rfl := Except.ok.inj (hostlistSort_unique hsort hsort')
  exact ⟨hl, hl, hnodes, hnodes', List.Perm.refl _⟩

/-- Assumes: a handle in a world without reports, and a load with the pingd backend that succeeds by
one of the configured servers, with any clusterlist module. It is compared with a load with this
module in which what the server that answered has delivered is all that is reported, as in a load
from that server alone. If no push wraps around and there are less than `2 ^ 31` hosts, the lists
are the same exactly if the servers that failed have left nothing. If what these servers have
delivered pushes nothing, the lists are the same in any case. With a module of the sources, plain
names that are added and hosts of the file that are plain unless they are empty, the lists are the
same exactly if the servers that failed have added unreported hosts only. -/
theorem failover_iff {env : LoadEnv} {args : LoadArgs} {w w' : World} {hostnames : List (List Char)}
    {servers : ℕ → List Char → ℤ → ServerAnswer} {gethostname : Option (List Char)}
    (hqsort : IsSort hostrangeCmp env.qsort) (hstart : w.reports = [])
    (hload : loadData env args w = .ok (0, w'))
    (hbackend : w'.lib.backend.info = some (pingdBackendModuleInfo servers gethostname))
    (hargs : args.hostname = none) (hnames : env.configuredHostnames w'.lib = some hostnames) :
    ∃ m port timeoutLen failed found, w'.lib.membership = some m ∧ failover (fun attempt hostname ↦
        (pingdBackendModuleInfo servers gethostname).getUpdownData attempt hostname port timeoutLen
          args.module) 0 hostnames =
          some (failed, found) ∧ w'.reports = failed ++ found ∧
      ∀ env' args' v v', IsSort hostrangeCmp env'.qsort → v.reports = [] →
        loadData env' args' v = .ok (0, v') →
        v'.lib.membership = some m → v'.reports = found →
        (m.Regular (failed ++ found) → m.Regular found →
          (SameNodes w' v' ↔ LeavesNothing m failed found)) ∧
          ((∀ up, m.entries up failed = []) → env'.ndebug = env.ndebug → env'.qsort = env.qsort →
            SameNodes w' v') ∧
          ∀ c, w'.lib.cluster = some c → v'.lib.cluster = some c →
            (∀ up, ∀ name ∈ c.entries up (failed ++ found), PlainName name) →
            (∀ host ∈ c.hosts, host ≠ [] → PlainName host) →
            (failed ++ found).length + c.hosts.length < 2 ^ 31 →
            (SameNodes w' v' ↔ OnlyUnreported c failed found) := by
  obtain ⟨port, timeoutLen, failed, found, hfailover, hreports⟩ :=
    loadData_failover hstart hload hbackend hargs hnames
  obtain ⟨m, hm, hsorts⟩ := loadData_sorts hstart hload
  refine ⟨m, port, timeoutLen, failed, found, hm, hfailover, hreports, ?_⟩
  intro env' args' v v' hqsort' hstart' hload' hm' hfound
  obtain ⟨other, hother, hsorts'⟩ := loadData_sorts hstart' hload'
  obtain rfl := Option.some.inj (hm'.symm.trans hother)
  rw [hreports] at hsorts
  rw [hfound] at hsorts'
  refine ⟨fun hregular hregular' ↦ ?_, hsorts.sameNodes hsorts',
    fun c hc hc' hplain hhosts hsmall ↦ ?_⟩
  · rw [← perm_hosts_iff]
    exact sameNodes_iff (hsorts.denotes hqsort hregular) (hsorts'.denotes hqsort' hregular')
  · have hholds :=
      loadData_lists hqsort hstart hc (hreports ▸ hplain) hhosts (hreports ▸ hsmall) hload
    have hholds' := loadData_lists hqsort' hstart' hc' (hfound ▸ fun up name hname ↦ hplain up name
      (by rw [Cluster.entries_append]; exact List.mem_append_right _ hname)) hhosts (by
        rw [List.length_append] at hsmall
        rw [hfound]
        omega) hload'
    rw [sameNodes_names_iff hholds hholds', hreports, hfound, perm_names_iff]

/-- A connection over which a text can be read, at second 100. -/
def answerOf (text : List Char) : ServerAnswer :=
  ⟨some (text.map .byte), some ⟨100, 0⟩, some .internal⟩

/-- Two servers `a` and `b`. -/
def twoServers (first second : ServerAnswer) : ℕ → List Char → ℤ → ServerAnswer :=
  fun _ hostname _ ↦ if hostname = "a".toList then first else second

/-- The two servers are configured, and there is a hostsfile. -/
def twoServersEnv (first second : ServerAnswer) (file : List Char) : LoadEnv :=
  { plainEnv (pingdBackendModuleInfo (twoServers first second) none) (some file) with
    conffile :=
      .parsed { noConfig with hostnames := ["a".toList, "b".toList], hostnamesFlag := true } }

/-- The arguments of a load from server `b` alone. -/
def aloneArgs : LoadArgs :=
  { plainArgs with hostname := some "b".toList }

/-- The backend of a load with two servers is that of pingd. -/
theorem backend_twoServers {first second : ServerAnswer} {file : List Char} {args : LoadArgs}
    {w' : World}
    (hsome : w'.lib.backend.info.isSome = true)
    (hload : loadData (twoServersEnv first second file) args startWorld = .ok (0, w')) :
    w'.lib.backend.info = some (pingdBackendModuleInfo (twoServers first second) none) := by
  obtain ⟨info, hinfo⟩ := Option.isSome_iff_exists.mp hsome
  have hall : ∀ info, w'.lib.backend.info = some info →
      info = pingdBackendModuleInfo (twoServers first second) none := by
    refine loadData_offered (P := (· = pingdBackendModuleInfo (twoServers first second) none))
      ?_ ?_ ?_ hload
    · exact fun entry hentry ↦ absurd hentry List.not_mem_nil
    · intro entry hentry object info hfile hoffered
      rcases List.mem_cons.mp hentry with rfl | hentry
      · obtain rfl := ModuleFile.opened.inj hfile
        exact (Option.some.inj (Option.some.inj hoffered)).symm
      · obtain rfl := List.mem_singleton.mp hentry
        obtain rfl := ModuleFile.opened.inj hfile
        exact absurd hoffered (by simp)
    · exact fun info h ↦
        absurd h (by
          simp [startWorld, Process.world, Process.start, Library.unused, ModuleSlot.null])
  rw [hinfo, hall info hinfo]

/-- Of two servers of which the first fails and the second does not, the calls are those of the one
and those of the other. -/
theorem failover_pair {run : ℕ → List Char → BackendRun} {failed found : List BackendCall}
    (h : failover run 0 ["a".toList, "b".toList] = some (failed, found))
    (hfirst : (run 0 "a".toList).reply.value < 0)
    (hsecond : ¬(run 1 "b".toList).reply.value < 0) :
    failed = (run 0 "a".toList).calls ∧ found = (run 1 "b".toList).calls := by
  rw [failover, if_neg (by decide), if_pos hfirst, failover, if_neg (by decide),
    if_neg hsecond] at h
  obtain ⟨rfl, rfl⟩ := Prod.mk.inj (Option.some.inj h)
  exact ⟨List.append_nil _, rfl⟩

/-- The calls that the backend makes for the text of a server, and whether it fails. -/
theorem getUpdownData_answerOf {servers : ℕ → List Char → ℤ → ServerAnswer}
    {gethostname : Option (List Char)} {attempt : ℕ}
    {hostname text : List Char} {port : ℤ} (timeoutLen : ℤ) (reserved : Option (List Char))
    {records : List (List Char × ℕ)} {value : ℤ}
    (hserver : servers attempt hostname port = answerOf text)
    (hread : readPingRecords (text.map .byte) = (records, value)) :
    ((pingdBackendModuleInfo servers gethostname).getUpdownData attempt hostname port timeoutLen
      reserved).calls =
        records.map (fun record ↦ pingdReport ⟨100, 0⟩ (toUint timeoutLen) record.1 record.2) ∧
      ((pingdBackendModuleInfo servers gethostname).getUpdownData attempt hostname port timeoutLen
        reserved).reply.value =
        value := by
  have hrun : pingdBackendGetUpdownData (some (text.map .byte)) (some ⟨100, 0⟩)
    (toUint timeoutLen) =
      (records.map (fun record ↦ pingdReport ⟨100, 0⟩ (toUint timeoutLen) record.1 record.2),
          value) := by
    rw [pingdBackendGetUpdownData, readPingData_eq, hread]
  unfold pingdBackendModuleInfo
  simp only [hserver, answerOf, hrun]
  exact ⟨trivial, trivial⟩

/-- Whether a load has found a backend, and the servers that are configured. -/
def configuredView (env : LoadEnv) (outcome : Except LibFault (ℤ × World)) :
    Option (ℤ × Bool × Option (List (List Char))) :=
  outcome.toOption.map fun loaded ↦
    (loaded.1, loaded.2.lib.backend.info.isSome, env.configuredHostnames loaded.2.lib)

/-- What a load with a backend comes to, seen from its summary and from the servers. -/
theorem exists_of_configuredView {env : LoadEnv} {outcome : Except LibFault (ℤ × World)}
    {c : Option Cluster}
    {calls : List BackendCall} {found : ℕ} {names : Option (List (List Char))}
    (hsummary : loadSummary outcome = some (0, c, calls, found))
    (hview : configuredView env outcome = some (0, true, names)) :
    ∃ w', outcome = .ok (0, w') ∧ w'.lib.cluster = c ∧ w'.reports = calls ∧
      w'.lib.backend.info.isSome = true ∧ env.configuredHostnames w'.lib = names := by
  obtain ⟨w', hload, hc, hcalls, -⟩ := exists_of_loadSummary hsummary
  rw [hload] at hview
  obtain ⟨-, hsome, hnames⟩ := by simpa only [Prod.mk.injEq] using Option.some.inj hview
  exact ⟨w', hload, hc, hcalls, hsome, hnames⟩

/-- The first server cannot be reached. -/
def unreachableEnv : LoadEnv :=
  twoServersEnv ⟨none, none, some .connect⟩ (answerOf "n2 100\n".toList) "n1\nn2\n".toList

/-- The first server reports a host as down and breaks off, and a line of the file names several
hosts. -/
def sharedLineEnv : LoadEnv :=
  twoServersEnv (answerOf "login 20\nn1\n".toList) (answerOf []) "n[1-2]\nlogin\n".toList

/-- A server that cannot be reached leaves nothing: the load is one from the second server alone. So
does one that reports a host as down that the second server does not report, next to a line of
ranges. -/
theorem failover_iff_unreachable :
    (∃ w' v', loadData unreachableEnv plainArgs startWorld = .ok (0, w') ∧
        loadData unreachableEnv aloneArgs startWorld = .ok (0, v') ∧ SameNodes w' v') ∧
      ∃ w' v', loadData sharedLineEnv plainArgs startWorld = .ok (0, w') ∧
        loadData sharedLineEnv aloneArgs startWorld = .ok (0, v') ∧ SameNodes w' v' := by
  constructor
  · have hsummary : loadSummary (loadData unreachableEnv plainArgs startWorld) =
          some (0, some (.hostsfile ["n1".toList, "n2".toList]), [.addUpNode "n2".toList], 1) := by
            decide +kernel
    have halone : loadSummary (loadData unreachableEnv aloneArgs startWorld) =
          some (0, some (.hostsfile ["n1".toList, "n2".toList]), [.addUpNode "n2".toList], 1) := by
            decide +kernel
    obtain ⟨w', hload, hc, hcalls, hsome, hnames⟩ :=
      exists_of_configuredView hsummary (by decide +kernel :
      configuredView unreachableEnv _ = some (0, true, some ["a".toList, "b".toList]))
    obtain ⟨v', hload', hc', hcalls', -⟩ := exists_of_loadSummary halone
    obtain ⟨m, port, timeoutLen, failed, found, hm, hfailover, hreports, hsame⟩ :=
      failover_iff isSort_insertionSort rfl hload (backend_twoServers hsome hload) rfl hnames
    obtain rfl := Option.some.inj ((membership_of_cluster hc).symm.trans hm)
    have hread : readPingRecords ("n2 100\n".toList.map .byte) = ([("n2".toList, 100)], 0) := by
      decide +kernel
    obtain ⟨hfailed, -⟩ := failover_pair hfailover
      (show (-1 : ℤ) < 0 by decide)
      (by rw [(getUpdownData_answerOf timeoutLen _ rfl hread).2]; decide)
    have hnone : failed = [] := hfailed
    refine ⟨w', v', hload, hload',
      (hsame _ _ _ _ isSort_insertionSort rfl hload' (membership_of_cluster hc') ?_).2.1
      (fun up ↦ by rw [hnone]; rfl) rfl rfl⟩
    rw [hcalls', ← hcalls, hreports, hnone, List.nil_append]
  · have hsummary : loadSummary (loadData sharedLineEnv plainArgs startWorld) =
          some (0, some (.hostsfile ["n[1-2]".toList, "login".toList]),
              [.addDownNode "login".toList], 1) := by
      decide +kernel
    have halone : loadSummary (loadData sharedLineEnv aloneArgs startWorld) =
          some (0, some (.hostsfile ["n[1-2]".toList, "login".toList]), [], 1) := by decide +kernel
    obtain ⟨w', hload, hc, hcalls, hsome, hnames⟩ :=
      exists_of_configuredView hsummary (by decide +kernel :
      configuredView sharedLineEnv _ = some (0, true, some ["a".toList, "b".toList]))
    obtain ⟨v', hload', hc', hcalls', -⟩ := exists_of_loadSummary halone
    obtain ⟨m, port, timeoutLen, failed, found, hm, hfailover, hreports, hsame⟩ :=
      failover_iff isSort_insertionSort rfl hload (backend_twoServers hsome hload) rfl hnames
    obtain rfl := Option.some.inj ((membership_of_cluster hc).symm.trans hm)
    have hread : readPingRecords ("login 20\nn1\n".toList.map .byte) =
      ([("login".toList, 20)], -1) := by decide +kernel
    have hempty : readPingRecords (([] : List Char).map .byte) = ([], 0) := by decide +kernel
    obtain ⟨-, hfound⟩ := failover_pair hfailover
      (by rw [(getUpdownData_answerOf timeoutLen _ rfl hread).2]; decide)
      (by rw [(getUpdownData_answerOf timeoutLen _ rfl hempty).2]; decide)
    rw [(getUpdownData_answerOf timeoutLen _ rfl hempty).1] at hfound
    obtain rfl : found = [] := hfound
    obtain rfl : [.addDownNode "login".toList] = failed :=
      (hcalls.symm.trans hreports).trans (List.append_nil _)
    refine ⟨w', v', hload, hload',
      ((hsame _ _ _ _ isSort_insertionSort rfl hload' (membership_of_cluster hc') hcalls').1
      ?_ ?_).mpr ⟨by decide +kernel, by decide +kernel⟩⟩
    · exact fun up ↦ ⟨by cases up <;> decide +kernel, by cases up <;> decide +kernel⟩
    · exact fun up ↦ ⟨by cases up <;> decide +kernel, by cases up <;> decide +kernel⟩

/-- A server that reports a node as up and then breaks off. -/
def breaksOff : ServerAnswer :=
  answerOf "n1 100\nn1\n".toList

/-- The node that the first server has reported before it breaks off stays up, although the second
server alone does not report it. -/
theorem not_sameNodes_breaksOff :
    pingdBackendGetUpdownData breaksOff.connection breaksOff.gettimeofday 60 =
      ([.addUpNode "n1".toList], -1) ∧
      ∃ w' v', loadData (twoServersEnv breaksOff (answerOf "n2 100\n".toList) "n1\nn2\n".toList)
        plainArgs startWorld =
          .ok (0, w') ∧
        loadData (twoServersEnv breaksOff (answerOf "n2 100\n".toList) "n1\nn2\n".toList) aloneArgs
          startWorld = .ok (0, v') ∧
          ¬SameNodes w' v' := by
  have hboth :
    ((loadData (twoServersEnv breaksOff (answerOf "n2 100\n".toList) "n1\nn2\n".toList) plainArgs
      startWorld).toOption.map fun loaded ↦
        (loaded.1, (loaded.2.handle.nodes true).map Hostlist.hosts)) =
        some (0, some ["n1".toList, "n2".toList]) := by decide +kernel
  have halone :
    ((loadData (twoServersEnv breaksOff (answerOf "n2 100\n".toList) "n1\nn2\n".toList) aloneArgs
      startWorld).toOption.map fun loaded ↦
        (loaded.1, (loaded.2.handle.nodes true).map Hostlist.hosts)) =
        some (0, some ["n2".toList]) := by decide +kernel
  obtain ⟨w', hload, hup⟩ := exists_of_view (fun w ↦ (w.handle.nodes true).map Hostlist.hosts) hboth
  obtain ⟨v', hload', hup'⟩ :=
    exists_of_view (fun w ↦ (w.handle.nodes true).map Hostlist.hosts) halone
  refine ⟨by decide +kernel, w', v', hload, hload', fun hsame ↦ ?_⟩
  obtain ⟨hl, hl', hnodes, hnodes', hperm⟩ := hsame true
  rw [hnodes] at hup
  rw [hnodes'] at hup'
  have hlength := hperm.length_eq
  rw [Option.some.inj hup, Option.some.inj hup'] at hlength
  exact absurd hlength (by decide)

end Whatsup
