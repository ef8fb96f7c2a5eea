import Whatsup.Hostlist.Filled
import Whatsup.Nodeupdown.Teardown

/-!
# What reports add to the lists of a handle

A `Cluster` is what the default or the hostsfile clusterlist module knows: nothing, or the hosts of
its file. It decides which name a report adds to a list of the handle, if it adds one
(`Cluster.entry`), and which hosts are added because no one has reported them (`undiscovered`).

`addNode_cases` says all that `_add_node` can do. `filling_runCalls` says that the lists hold what
the reports so far add, and `notDiscoveredChecks_lists` what the search for nodes without a report
adds to them. The names that are added are assumed to be plain.
-/

set_option autoImplicit false
set_option relaxedAutoImplicit false

namespace Whatsup

open CLib

/-! ### Clusters -/

/-- The default clusterlist module, or the hostsfile module with the hosts that it has read. -/
inductive Cluster
  | default
  | hostsfile (hosts : List (List Char))
deriving DecidableEq

/-- The cluster of the clusterlist module that is loaded, if it is the default or the hostsfile
module. -/
def Library.cluster (lib : Library) : Option Cluster :=
  match lib.clusterlist.info with
  | some .default => some .default
  | some .hostsfile => lib.hosts.map .hostsfile
  | _ => none

/-- The hosts of a cluster, as far as they are known. -/
def Cluster.hosts : Cluster → List (List Char)
  | .default => []
  | .hostsfile hosts => hosts

/-- The name under which a node is looked up and added: the hostsfile module cuts it at its first
dot. A name of more than 64 characters does not fit its buffer. -/
def Cluster.nodename : Cluster → List Char → Option (List Char)
  | .default, node => if node.length ≤ 64 then some node else none
  | .hostsfile _, node => (shortNodename node).filter fun name ↦ name.length ≤ 64

/-- Whether a name is one of the cluster. Without any hosts it is. -/
def Cluster.contains (c : Cluster) (name : List Char) : Bool :=
  c.hosts = [] || c.hosts.contains name

/-- The name that a report of a node adds to a list, if it adds one. -/
def Cluster.entry (c : Cluster) (node : List Char) : Option (List Char) :=
  (c.nodename node).filter fun name ↦ name ≠ [] && c.contains name

/-- What a call of a backend reports: whether a node is up, and which one. -/
def BackendCall.report : BackendCall → Option (Bool × List Char)
  | .addUpNode node => some (true, node)
  | .addDownNode node => some (false, node)
  | .addLastUpTime _ _ => none

/-- The name that a call adds to one of the lists, if it adds one. -/
def Cluster.added (c : Cluster) (up : Bool) (call : BackendCall) : Option (List Char) :=
  (call.report.filter fun report ↦ report.1 = up).bind fun report ↦ c.entry report.2

/-- The names that calls add to one of the lists. -/
def Cluster.entries (c : Cluster) (up : Bool) (calls : List BackendCall) : List (List Char) :=
  calls.filterMap (c.added up)

theorem Cluster.entries_append (c : Cluster) (up : Bool) (front back : List BackendCall) :
    c.entries up (front ++ back) = c.entries up front ++ c.entries up back :=
  List.filterMap_append

/-- The hosts that are not known, each at its first occurrence. -/
def undiscovered : List (List Char) → List (List Char) → List (List Char)
  | _, [] => []
  | known, host :: hosts =>
    if host ∈ known then undiscovered known hosts else host :: undiscovered (known ++ [host]) hosts

/-- The undiscovered hosts are those that are not known. -/
theorem mem_undiscovered {name : List Char} (hosts : List (List Char)) :
    ∀ known, name ∈ undiscovered known hosts ↔ name ∈ hosts ∧ name ∉ known := by
  induction hosts with
  | nil => exact fun known ↦ by simp [undiscovered]
  | cons host hosts ih =>
    intro known
    rw [undiscovered]
    by_cases hknown : host ∈ known
    · rw [if_pos hknown, ih, List.mem_cons]
      constructor
      · exact fun h ↦ ⟨Or.inr h.1, h.2⟩
      · rintro ⟨rfl | hmem, hnot⟩
        · exact absurd hknown hnot
        · exact ⟨hmem, hnot⟩
    · rw [if_neg hknown, List.mem_cons, ih, List.mem_cons, List.mem_append, List.mem_singleton]
      constructor
      · rintro (rfl | ⟨hmem, hnot⟩)
        · exact ⟨Or.inl rfl, hknown⟩
        · exact ⟨Or.inr hmem, fun h ↦ hnot (Or.inl h)⟩
      · rintro ⟨hname, hnot⟩
        by_cases heq : name = host
        · exact Or.inl heq
        · exact Or.inr ⟨hname.resolve_left heq, fun h ↦ h.elim hnot heq⟩

/-- No host is undiscovered twice. -/
theorem nodup_undiscovered (hosts : List (List Char)) : ∀ known,
    (undiscovered known hosts).Nodup := by
  induction hosts with
  | nil => exact fun known ↦ List.nodup_nil
  | cons host hosts ih =>
    intro known
    rw [undiscovered]
    split_ifs
    · exact ih known
    · exact List.nodup_cons.mpr ⟨fun h ↦ ((mem_undiscovered hosts _).mp h).2 (by simp), ih _⟩

/-- What is known twice does not matter for what is undiscovered. -/
theorem undiscovered_congr (hosts : List (List Char)) :
    ∀ known known', (∀ name, name ∈ known ↔ name ∈ known') →
      undiscovered known hosts = undiscovered known' hosts := by
  induction hosts with
  | nil => exact fun _ _ _ ↦ rfl
  | cons host hosts ih =>
    intro known known' hsame
    rw [undiscovered, undiscovered, ih known known' hsame]
    simp only [hsame host]
    rw [ih (known ++ [host]) (known' ++ [host]) fun name ↦ by
      rw [List.mem_append, List.mem_append, hsame name]]

/-! ### The cluster and the module -/

/-- The cluster is the default one, or that of the hosts that have been read. -/
theorem cluster_cases {lib : Library} {c : Cluster} (h : lib.cluster = some c) :
    (lib.clusterlist.info = some .default ∧ c = .default) ∨
      ∃ hosts, lib.clusterlist.info = some .hostsfile ∧ lib.hosts = some hosts ∧
        c = .hostsfile hosts := by
  unfold Library.cluster at h
  split at h
  · rename_i hinfo
    exact Or.inl ⟨hinfo, (Option.some.inj h).symm⟩
  · rename_i hinfo
    obtain ⟨hosts, hhosts, rfl⟩ := Option.map_eq_some_iff.mp h
    exact Or.inr ⟨hosts, hinfo, hhosts, rfl⟩
  · exact absurd h (by simp)

/-- Whether a node is in the cluster, if that can be told. -/
theorem isNodeInCluster_ok {w w' : World} {c : Cluster} {node : List Char} {value : Option Bool}
    (hc : w.lib.cluster = some c)
    (hrun : clusterlistModuleIsNodeInCluster node w = .ok (value, w')) :
    w' = w ∧ ∃ inCluster, value = some inCluster ∧
      ∀ name ∈ c.nodename node, c.contains name = inCluster := by
  unfold clusterlistModuleIsNodeInCluster at hrun
  rcases cluster_cases hc with ⟨hinfo, rfl⟩ | ⟨hosts, hinfo, hhosts, rfl⟩
  · rw [hinfo] at hrun
    obtain ⟨rfl, rfl⟩ := Prod.mk.inj (Except.ok.inj hrun)
    exact ⟨rfl, true, rfl, fun _ _ ↦ rfl⟩
  · rw [hinfo] at hrun
    have hread : hostsfileHosts w = .ok (some hosts, w) := by rw [hostsfileHosts, hhosts]
    change Attempt.andThen hostsfileHosts _ w = _ at hrun
    rw [Attempt.andThen, hread] at hrun
    by_cases hempty : hosts = []
    · simp only [if_pos hempty] at hrun
      obtain ⟨rfl, rfl⟩ := Prod.mk.inj (Except.ok.inj hrun)
      exact ⟨rfl, true, rfl, fun _ _ ↦ by simp [Cluster.contains, Cluster.hosts, hempty]⟩
    · simp only [if_neg hempty] at hrun
      change Attempt.andThen (shorten node) _ w = _ at hrun
      unfold Attempt.andThen shorten at hrun
      cases hshort : shortNodename node with
      | none =>
        rw [hshort] at hrun
        exact absurd hrun (by simp [Attempt.fault])
      | some name =>
        rw [hshort] at hrun
        obtain ⟨rfl, rfl⟩ := Prod.mk.inj (Except.ok.inj hrun)
        refine ⟨rfl, hosts.contains name, rfl, fun other hother ↦ ?_⟩
        rw [Cluster.nodename, hshort, Option.mem_def, Option.filter_eq_some_iff] at hother
        obtain rfl := Option.some.inj hother.1
        simp [Cluster.contains, Cluster.hosts, hempty]

/-- The name of a node, or an error if it does not fit its buffer. -/
theorem getNodename_ok {w w' : World} {c : Cluster} {node : List Char} {value : Option (List Char)}
    (hc : w.lib.cluster = some c) (hrun : clusterlistModuleGetNodename node w = .ok (value, w')) :
    value = c.nodename node ∧ w' = if value = none then w.setErrnum .internal else w := by
  unfold clusterlistModuleGetNodename at hrun
  rcases cluster_cases hc with ⟨hinfo, rfl⟩ | ⟨hosts, hinfo, -, rfl⟩
  · rw [hinfo] at hrun
    exact clusterlistCopyNodename_ok hrun
  · rw [hinfo] at hrun
    change Attempt.andThen (shorten node) _ w = _ at hrun
    unfold Attempt.andThen shorten at hrun
    rw [Cluster.nodename]
    cases hshort : shortNodename node with
    | none =>
      rw [hshort] at hrun
      exact absurd hrun (by simp [Attempt.fault])
    | some name =>
      rw [hshort] at hrun
      obtain ⟨hvalue, hw'⟩ := clusterlistCopyNodename_ok hrun
      refine ⟨hvalue.trans ?_, hw'⟩
      simp only [Option.filter_some, decide_eq_true_eq]

/-- Whether a node with a name is in the cluster. -/
theorem isNodeInCluster_eq {w : World} {c : Cluster} {node name : List Char}
    (hc : w.lib.cluster = some c)
    (hname : c.nodename node = some name) :
    clusterlistModuleIsNodeInCluster node w = .ok (some (c.contains name), w) := by
  unfold clusterlistModuleIsNodeInCluster
  rcases cluster_cases hc with ⟨hinfo, rfl⟩ | ⟨hosts, hinfo, hhosts, rfl⟩
  · rw [hinfo]
    rfl
  · rw [Cluster.nodename, Option.filter_eq_some_iff] at hname
    rw [hinfo]
    refine attempt_bind_some.mpr ⟨hosts, w, by rw [hostsfileHosts, hhosts], ?_⟩
    split_ifs with hempty
    · simp [Cluster.contains, Cluster.hosts, hempty, pure]
    · refine attempt_bind_some.mpr ⟨name, w, by rw [shorten, hname.1]; rfl, ?_⟩
      simp [Cluster.contains, Cluster.hosts, hempty, pure]

/-- The name of a node that has one. -/
theorem getNodename_eq {w : World} {c : Cluster} {node name : List Char}
    (hc : w.lib.cluster = some c)
    (hname : c.nodename node = some name) : clusterlistModuleGetNodename node w =
      .ok (some name, w) := by
  unfold clusterlistModuleGetNodename
  rcases cluster_cases hc with ⟨hinfo, rfl⟩ | ⟨hosts, hinfo, -, rfl⟩
  · rw [hinfo]
    rw [Cluster.nodename] at hname
    split_ifs at hname with hlength
    obtain rfl := Option.some.inj hname
    exact clusterlistCopyNodename_eq hlength w
  · rw [Cluster.nodename, Option.filter_eq_some_iff] at hname
    rw [hinfo]
    exact attempt_bind_some.mpr ⟨name, w, by rw [shorten, hname.1]; rfl,
      clusterlistCopyNodename_eq (by simpa using hname.2) w⟩

/-! ### One report -/

theorem nodes_setNodes (w : World) (up side : Bool) (hl : Hostlist) :
    (w.setNodes up hl).handle.nodes side = if side = up then some hl else w.handle.nodes side := by
  cases up <;> cases side <;> rfl

/-- The empty text names no host. -/
theorem hostlistPush_nil (hl : Hostlist) : hostlistPush hl [] = some (0, hl) := by
  have hcreate : hostlistCreate [] = .ok hostlistNew := rfl
  rw [hostlistPush, hcreate]
  simp only [hostlistPushList_snd]
  rfl

/-- All that a push to a list of the handle can do. -/
theorem pushNode_ok {w w' : World} {up : Bool} {name : List Char} {value : Option ℤ}
    (hrun : pushNode up name w = .ok (value, w')) :
    ∃ hl count hl', w.handle.nodes up = some hl ∧ hostlistPush hl name = some (count, hl') ∧
      value = some count ∧
      w' = w.setNodes up hl' := by
  change Attempt.andThen (theNodes up) _ w = _ at hrun
  unfold Attempt.andThen theNodes at hrun
  cases hnodes : w.handle.nodes up with
  | none =>
    rw [hnodes] at hrun
    exact absurd hrun (by simp)
  | some hl =>
    rw [hnodes] at hrun
    simp only at hrun
    cases hpush : hostlistPush hl name with
    | none =>
      rw [hpush] at hrun
      exact absurd hrun (by simp [Attempt.fault])
    | some pushed =>
      rw [hpush] at hrun
      obtain ⟨rfl, rfl⟩ := Prod.mk.inj (Except.ok.inj hrun)
      exact ⟨hl, pushed.1, pushed.2, rfl, hpush, rfl, rfl⟩

/-- Assumes: a handle that is set up, with a module of the sources. All that `_add_node` can do: a
node that is not in the cluster is passed, one with a name that is too long is an error, and any
other name is pushed. -/
theorem addNode_cases {w w' : World} {c : Cluster} {up : Bool} {node : List Char}
    {value : Option Unit}
    (hc : w.lib.cluster = some c) (hstate : w.handle.loadState = .setup)
    (hrun : addNode up node w = .ok (value, w')) :
    (value = some () ∧ w' = w ∧ ∀ name ∈ c.nodename node, c.contains name = false) ∨
      (value = none ∧ w' = w.setErrnum .internal ∧ c.nodename node = none) ∨
      ∃ name hl count hl', c.nodename node = some name ∧ c.contains name = true ∧
        w.handle.nodes up = some hl ∧
        hostlistPush hl name = some (count, hl') ∧
        ((count = 0 ∧ value = none ∧ w' = (w.setNodes up hl').setErrnum .outmem) ∨
          (count ≠ 0 ∧ value = some () ∧ w' = w.setNodes up hl')) := by
  change Attempt.andThen setupHandleErrorCheck _ w = _ at hrun
  unfold Attempt.andThen setupHandleErrorCheck at hrun
  rw [if_pos hstate] at hrun
  simp only at hrun
  change Attempt.andThen (clusterlistModuleIsNodeInCluster node) _ w = _ at hrun
  unfold Attempt.andThen at hrun
  cases hin : clusterlistModuleIsNodeInCluster node w with
  | error failure =>
    rw [hin] at hrun
    exact absurd hrun (by simp)
  | ok result =>
    obtain ⟨told, w1⟩ := result
    obtain ⟨rfl, inCluster, rfl, hcontains⟩ := isNodeInCluster_ok hc hin
    rw [hin] at hrun
    cases inCluster with
    | false =>
      obtain ⟨rfl, rfl⟩ := Prod.mk.inj (Except.ok.inj hrun)
      exact Or.inl ⟨rfl, rfl, hcontains⟩
    | true =>
      right
      change Attempt.andThen (clusterlistModuleGetNodename node) _ w1 = _ at hrun
      unfold Attempt.andThen at hrun
      cases hname : clusterlistModuleGetNodename node w1 with
      | error failure =>
        rw [hname] at hrun
        exact absurd hrun (by simp)
      | ok result =>
        obtain ⟨given, w2⟩ := result
        obtain ⟨rfl, rfl⟩ := getNodename_ok hc hname
        rw [hname] at hrun
        cases hgiven : c.nodename node with
        | none =>
          rw [hgiven] at hrun
          obtain ⟨rfl, rfl⟩ := Prod.mk.inj (Except.ok.inj hrun)
          exact Or.inl ⟨rfl, rfl, rfl⟩
        | some name =>
          right
          rw [hgiven] at hrun
          simp only [reduceCtorEq, if_false] at hrun
          change Attempt.andThen (pushNode up name) _ w1 = _ at hrun
          unfold Attempt.andThen at hrun
          cases hpushNode : pushNode up name w1 with
          | error failure =>
            rw [hpushNode] at hrun
            exact absurd hrun (by simp)
          | ok result =>
            obtain ⟨told, w3⟩ := result
            obtain ⟨hl, count, hl', hnodes, hpush, rfl, rfl⟩ := pushNode_ok hpushNode
            rw [hpushNode] at hrun
            refine ⟨name, hl, count, hl', rfl, hcontains name hgiven, hnodes, hpush, ?_⟩
            simp only at hrun
            split_ifs at hrun with hzero <;> obtain ⟨rfl, rfl⟩ := Prod.mk.inj (Except.ok.inj hrun)
            · exact Or.inl ⟨hzero, rfl, rfl⟩
            · exact Or.inr ⟨hzero, rfl, rfl⟩

/-! ### The lists of a handle -/

/-- The lists of a handle are there, they are filled with plain names, and they denote given
names. -/
def World.Lists (w : World) (names : Bool → List (List Char)) : Prop :=
  ∀ side, ∃ hl, w.handle.nodes side = some hl ∧ hl.Filled ∧ hl.hosts = names side

/-- Which names the lists denote depends on the lists only. -/
theorem World.Lists.congr {w w' : World} {names names' : Bool → List (List Char)}
    (h : w.Lists names)
    (hnodes : ∀ side, w'.handle.nodes side = w.handle.nodes side)
    (hnames : ∀ side, names' side = names side) :
    w'.Lists names' := by
  intro side
  obtain ⟨hl, hside, hfilled, hhosts⟩ := h side
  exact ⟨hl, (hnodes side).trans hside, hfilled, hhosts.trans (hnames side).symm⟩

/-- Assumes: a handle that is set up, with a module of the sources, and a report that adds plain
names only. The name of the report is added. If the report is no error, it is added if the node is
in the cluster. -/
theorem addNode_lists {w w' : World} {c : Cluster} {up : Bool} {node : List Char}
    {value : Option Unit}
    {names : Bool → List (List Char)} (hc : w.lib.cluster = some c)
    (hstate : w.handle.loadState = .setup)
    (hlists : w.Lists names) (hplain : ∀ name ∈ c.entry node, PlainName name)
    (hrun : addNode up node w = .ok (value, w')) :
    w'.Lists (fun side ↦ names side ++ if side = up then (c.entry node).toList else []) ∧
      (value = some () → ∀ name ∈ c.nodename node, c.contains name = true →
        c.entry node = some name) := by
  rcases addNode_cases hc hstate hrun with ⟨-, rfl, hnot⟩ | ⟨rfl, rfl, hlong⟩ |
    ⟨name, hl, count, hl', hname, hcontains, hnodes, hpush, hend⟩
  · have hentry : c.entry node = none := by
      rw [Cluster.entry, Option.filter_eq_none_iff]
      intro name hname
      simp [hnot name hname]
    refine ⟨hlists.congr (fun _ ↦ rfl) fun side ↦ ?_, fun _ name hname hin ↦ ?_⟩
    · simp [hentry]
    · rw [hnot name hname] at hin
      exact absurd hin (by decide)
  · have hentry : c.entry node = none := by rw [Cluster.entry, hlong, Option.filter_none]
    exact ⟨hlists.congr (fun side ↦ by cases side <;> rfl) fun side ↦ by simp [hentry],
      fun h ↦ absurd h (by simp)⟩
  · by_cases hempty : name = []
    · have hentry : c.entry node = none := by
        rw [Cluster.entry, hname, hempty]
        rfl
      rw [hempty, hostlistPush_nil] at hpush
      obtain ⟨rfl, rfl⟩ := Prod.mk.inj (Option.some.inj hpush)
      rcases hend with ⟨-, rfl, rfl⟩ | ⟨hzero, -, -⟩
      · refine ⟨hlists.congr (fun side ↦ ?_) fun side ↦ by simp [hentry], fun h ↦
          absurd h (by simp)⟩
        change ((w.setNodes up hl).handle.nodes side) = _
        rw [nodes_setNodes]
        split_ifs with hside
        · rw [hside, hnodes]
        · rfl
      · exact absurd rfl hzero
    · have hentry : c.entry node = some name := by
        rw [Cluster.entry, hname, Option.filter_some, if_pos (by simp [hempty, hcontains])]
      obtain ⟨old, hold, hfilled, hhosts⟩ := hlists up
      obtain rfl := Option.some.inj (hold.symm.trans hnodes)
      have hplain := hplain name hentry
      obtain ⟨pushed, hpushed, hhosts', -⟩ := hostlistPush_name hfilled.canonical hplain
      obtain ⟨rfl, rfl⟩ := Prod.mk.inj (Option.some.inj (hpushed.symm.trans hpush))
      rcases hend with ⟨hzero, -, -⟩ | ⟨-, rfl, rfl⟩
      · exact absurd hzero (by decide)
      · refine ⟨fun side ↦ ?_, fun _ other hother _ ↦ ?_⟩
        · rw [nodes_setNodes]
          split_ifs with hside
          · exact ⟨pushed, rfl, hfilled.push hplain hpush, by simp [hhosts', hhosts, hside, hentry]⟩
          · obtain ⟨other, hother, hfilled', hsame⟩ := hlists side
            exact ⟨other, hother, hfilled', by simp [hsame, hside]⟩
        · rw [hentry, ← hname]
          exact hother

/-- Assumes: a handle that is set up. `nodeupdown_add_last_up_time` leaves the lists as they are. -/
theorem addLastUpTime_nodes {w w' : World} {node : List Char} {time : ℕ} {value : Option Unit}
    (hstate : w.handle.loadState = .setup)
    (hrun : nodeupdownAddLastUpTime node time w = .ok (value, w')) :
    w'.handle.nodes = w.handle.nodes ∧ w'.reports = w.reports := by
  change Attempt.andThen setupHandleErrorCheck _ w = _ at hrun
  unfold Attempt.andThen setupHandleErrorCheck at hrun
  rw [if_pos hstate] at hrun
  simp only at hrun
  unfold insertLastUpTime at hrun
  split at hrun
  · obtain ⟨rfl, rfl⟩ := Prod.mk.inj (Except.ok.inj hrun)
    exact ⟨funext fun side ↦ by cases side <;> rfl, rfl⟩
  · split at hrun <;> obtain ⟨rfl, rfl⟩ := Prod.mk.inj (Except.ok.inj hrun) <;>
      exact ⟨funext fun side ↦ by cases side <;> rfl, rfl⟩

/-- Assumes: a handle that is set up, with a module of the sources, and a call that adds plain names
only. The names of the call are added. -/
theorem backendCall_lists {w w' : World} {c : Cluster} {call : BackendCall} {value : Option Unit}
    {names : Bool → List (List Char)} (hc : w.lib.cluster = some c)
    (hstate : w.handle.loadState = .setup)
    (hlists : w.Lists names) (hplain : ∀ side, ∀ name ∈ c.added side call, PlainName name)
    (hrun : call.run w = .ok (value, w')) : w'.Lists fun side ↦
      names side ++ (c.added side call).toList := by
  have hreport : ∀ (up : Bool) (node : List Char), call.report = some (up, node) →
      addNode up node w = .ok (value, w') → w'.Lists fun side ↦
          names side ++ (c.added side call).toList := by
    intro up node hcall hrun
    have hadded : ∀ side, c.added side call = if side = up then c.entry node else none := by
      intro side
      rw [Cluster.added, hcall, Option.filter_some]
      by_cases hside : side = up
      · simp [hside]
      · rw [if_neg hside, if_neg (by simpa using Ne.symm hside)]
        rfl
    have hentry : ∀ name ∈ c.entry node, PlainName name := fun name hname ↦
      hplain up name (by rw [hadded, if_pos rfl]; exact hname)
    refine (addNode_lists hc hstate hlists hentry hrun).1.congr (fun _ ↦ rfl) fun side ↦ ?_
    rw [hadded]
    split_ifs <;> rfl
  cases call with
  | addUpNode node => exact hreport true node rfl hrun
  | addDownNode node => exact hreport false node rfl hrun
  | addLastUpTime node time =>
    have hadded : ∀ side, c.added side (.addLastUpTime node time) = none := fun _ ↦ rfl
    refine hlists.congr (fun side ↦ congrFun (addLastUpTime_nodes hstate hrun).1 side) fun side ↦ ?_
    rw [hadded]
    exact List.append_nil _

/-! ### The reports of a backend -/

/-- The lists of a handle hold what the reports so far add, provided that these are plain names. -/
def World.Reported (c : Cluster) (w : World) : Prop :=
  (∀ side, ∀ name ∈ c.entries side w.reports, PlainName name) → w.Lists fun side ↦
    c.entries side w.reports

/-- A handle that is being filled: it is set up, with a module of the sources, and its lists hold
what has been reported. -/
structure World.Filling (c : Cluster) (w : World) : Prop where
  cluster : w.lib.cluster = some c
  state : w.handle.loadState = .setup
  reported : w.Reported c

/-- The part of a world that a handle being filled depends on. -/
def World.content (w : World) : (Library × ℕ × Bool × LoadState) × List BackendCall ×
    (Bool → Option Hostlist) :=
  (w.frame, w.reports, w.handle.nodes)

/-- What leaves the content as it is leaves a handle being filled. -/
theorem World.Filling.of_content {c : Cluster} {w w' : World} (hcontent : w'.content = w.content)
    (h : w.Filling c) :
    w'.Filling c := by
  obtain ⟨hframe, hreports, hnodes⟩ : w'.frame = w.frame ∧ w'.reports = w.reports ∧
      w'.handle.nodes = w.handle.nodes := by
    simpa only [World.content, Prod.mk.injEq] using hcontent
  have hlib : w'.lib = w.lib := congrArg Prod.fst hframe
  have hstate : w'.handle.loadState = w.handle.loadState :=
    congrArg (fun frame ↦ frame.2.2.2) hframe
  refine ⟨hlib ▸ h.cluster, hstate.trans h.state, fun hplain ↦ ?_⟩
  rw [hreports] at hplain ⊢
  exact (h.reported hplain).congr (fun side ↦ congrFun hnodes side) fun _ ↦ rfl

/-- Calls of a backend fill the handle. -/
theorem filling_runCalls {c : Cluster} (calls : List BackendCall) :
    ∀ {w w' : World} {value : Option Unit}, w.Filling c → runCalls calls w = .ok (value, w') →
      w'.Filling c := by
  induction calls with
  | nil =>
    rintro w _ _ hfilling ⟨rfl, rfl⟩
    exact hfilling
  | cons call calls ih =>
    intro w w' value hfilling hrun
    rw [runCalls] at hrun
    split at hrun
    · exact absurd hrun (by simp)
    · rename_i told w1 hcall
      have hframe := frame_backendCall call _ _ _ hcall
      have hlib : w1.lib = w.lib := congrArg Prod.fst hframe
      have hstate : w1.handle.loadState = w.handle.loadState :=
        congrArg (fun frame ↦ frame.2.2.2) hframe
      have hreports : w1.reports = w.reports ++ [call] :=
        reports_backendCall call { w with reports := w.reports ++ [call] } told w1 hcall
      refine ih ⟨hlib ▸ hfilling.cluster, hstate.trans hfilling.state, fun hplain ↦ ?_⟩ hrun
      have hentries : ∀ side, c.entries side w1.reports = c.entries side w.reports ++
          (c.added side call).toList := by
        intro side
        rw [hreports, Cluster.entries_append]
        cases hadded : c.added side call <;> simp [Cluster.entries, hadded]
      have hold : w.Lists fun side ↦ c.entries side w.reports :=
        hfilling.reported fun side name hname ↦
          hplain side name (by rw [hentries]; exact List.mem_append_left _ hname)
      have hadded : ∀ side, ∀ name ∈ c.added side call, PlainName name := fun side name hname ↦
        hplain side name (by
          rw [hentries]; exact List.mem_append_right _ (Option.mem_toList.mpr hname))
      exact (backendCall_lists (w := { w with reports := w.reports ++ [call] }) hfilling.cluster
        hfilling.state
        hold hadded hcall).congr (fun _ ↦ rfl) hentries

theorem content_setErrnum (errnum : Errnum) (w : World) : (w.setErrnum errnum).content =
    w.content := rfl

/-- The calls that a backend makes for a server are reported, and a run that ends with a negative
value is an error. -/
theorem getUpdownDataCall_reports {w w' : World} {value : Option Unit} {attempt : ℕ}
    {hostname : List Char}
    {port timeoutLen : ℤ} {reserved : Option (List Char)} {info : BackendInfo}
    (hinfo : w.lib.backend.info = some info)
    (hrun : backendModuleGetUpdownData attempt hostname port timeoutLen reserved w =
      .ok (value, w')) :
    w'.reports = w.reports ++ (info.getUpdownData attempt hostname port timeoutLen reserved).calls ∧
      (value = none ↔
        (info.getUpdownData attempt hostname port timeoutLen reserved).reply.value < 0) := by
  unfold backendModuleGetUpdownData at hrun
  rw [hinfo] at hrun
  simp only at hrun
  generalize info.getUpdownData attempt hostname port timeoutLen reserved = run at hrun ⊢
  change Attempt.andThen (runCalls run.calls) _ w = _ at hrun
  unfold Attempt.andThen at hrun
  cases hcalls : runCalls run.calls w with
  | error failure =>
    rw [hcalls] at hrun
    exact absurd hrun (by simp)
  | ok result =>
    obtain ⟨told, w1⟩ := result
    have hreports := reports_runCalls run.calls hcalls
    obtain rfl := runCalls_some hcalls
    rw [hcalls] at hrun
    have hcontent :=
      ((preserves_callModule content_setErrnum run.reply).bind preserves_unlessNegative) w1
      value w' hrun
    refine ⟨(congrArg (fun content ↦ content.2.1) hcontent).trans hreports, ?_⟩
    change (if run.reply.value < 0 then Attempt.giveUp id else pure () : Nodeupdown Unit)
      _ = _ at hrun
    split_ifs at hrun with hnegative <;> obtain ⟨rfl, rfl⟩ := Prod.mk.inj (Except.ok.inj hrun)
    · exact iff_of_true rfl hnegative
    · exact iff_of_false (by simp) hnegative

/-- The data of the one or more servers fill the handle. -/
theorem filling_getUpdownData {c : Cluster} (args : LoadArgs) (conffile module : NodeupdownConfig)
    (port timeoutLen : ℤ) :
    Leads (World.Filling c) (World.Filling c)
      (getUpdownData args conffile module port timeoutLen) := by
  have hnumber : NumberFree (World.Filling c) := fun errnum w ↦
    propext ⟨.of_content (content_setErrnum errnum w).symm,
      .of_content (content_setErrnum errnum w)⟩
  exact leads_getUpdownData hnumber (fun calls _ _ _ hfilling hrun ↦
    filling_runCalls calls hfilling hrun) args
    conffile module port timeoutLen

/-! ### Nodes without a report -/

/-- All that a search in a list of the handle can do. -/
theorem findNode_ok {w w' : World} {up : Bool} {name : List Char} {value : Option ℤ}
    (hrun : findNode up name w = .ok (value, w')) :
    ∃ hl, w.handle.nodes up = some hl ∧ value = some (hostlistFind hl name).1 ∧
      w' = w.setNodes up (hostlistFind hl name).2 := by
  change Attempt.andThen (theNodes up) _ w = _ at hrun
  unfold Attempt.andThen theNodes at hrun
  cases hnodes : w.handle.nodes up with
  | none =>
    rw [hnodes] at hrun
    exact absurd hrun (by simp)
  | some hl =>
    rw [hnodes] at hrun
    obtain ⟨rfl, rfl⟩ := Prod.mk.inj (Except.ok.inj hrun)
    exact ⟨hl, rfl, rfl, rfl⟩

/-- Assumes: a canonical list of less than `2 ^ 31` names. A search finds a name exactly if the list
denotes it. -/
theorem hostlistFind_mem {hl : Hostlist} (hcanonical : hl.Canonical)
    (hsmall : hl.hosts.length < 2 ^ 31) (name : List Char) :
    (0 ≤ (hostlistFind hl name).1 ↔ name ∈ hl.hosts) ∧
    ((hostlistFind hl name).1 ≠ -1 ↔ name ∈ hl.hosts) := by
  rw [(hostlistFind_spec hcanonical name).1]
  split_ifs with hmem
  · have hposition := List.idxOf_lt_length_iff.mpr hmem
    rw [toInt_eq_self (by omega) (by omega)]
    exact ⟨iff_of_true (by omega) hmem, iff_of_true (by omega) hmem⟩
  · exact ⟨iff_of_false (by decide) hmem, iff_of_false (fun h ↦ h rfl) hmem⟩

/-- Assumes: lists that denote less than `2 ^ 31` names each. A search finds a name exactly if the
list denotes it, and what the lists denote stays. -/
theorem findNode_lists {w w' : World} {up : Bool} {name : List Char} {value : Option ℤ}
    {names : Bool → List (List Char)}
    (hlists : w.Lists names) (hsmall : (names up).length < 2 ^ 31)
    (hrun : findNode up name w = .ok (value, w')) :
    w'.Lists names ∧ ∃ found, value = some found ∧ (0 ≤ found ↔ name ∈ names up) ∧
    (found ≠ -1 ↔ name ∈ names up) := by
  obtain ⟨hl, hnodes, rfl, rfl⟩ := findNode_ok hrun
  obtain ⟨own, hown, hfilled, hhosts⟩ := hlists up
  obtain rfl := Option.some.inj (hown.symm.trans hnodes)
  constructor
  · intro side
    rw [nodes_setNodes]
    split_ifs with hside
    · exact ⟨_, rfl, hfilled.find name, by
        rw [(hostlistFind_spec hfilled.canonical name).2.1, hhosts, hside]⟩
    · exact hlists side
  · refine ⟨_, rfl, ?_⟩
    rw [← hhosts] at hsmall ⊢
    exact hostlistFind_mem hfilled.canonical hsmall name

/-- The host of a cluster under its own name: without a dot, and of at most 64 characters. -/
theorem nodename_host {hosts : List (List Char)} {host : List Char} (hdot : '.' ∉ host)
    (hlength : host.length ≤ 64) :
    (Cluster.hostsfile hosts).nodename host = some host := by
  rw [Cluster.nodename, shortNodename, if_neg hdot, Option.filter_some,
    if_pos (by simpa using hlength)]

/-- Assumes: a handle being filled that holds less than `2 ^ 31` names a list, and a host of the
hostsfile under its short name, which is plain unless it is empty. A check that succeeds adds the
host to the nodes that are down if it has not been reported. -/
theorem notDiscoveredCheck_lists {w w' : World} {hosts : List (List Char)} {host : List Char}
    {names : Bool → List (List Char)} (hc : w.lib.cluster = some (.hostsfile hosts))
    (hstate : w.handle.loadState = .setup) (hlists : w.Lists names)
    (hsmall : ∀ up, (names up).length < 2 ^ 31)
    (hhost : host ∈ hosts) (hdot : '.' ∉ host) (hlength : host.length ≤ 64)
    (hplain : host ≠ [] → PlainName host)
    (hrun : nodeupdownNotDiscoveredCheck host w = .ok (some (), w')) :
    PlainName host ∧ w'.Lists fun up ↦
      names up ++ if up then [] else undiscovered (names true ++ names false) [host] := by
  have hknown : ∀ {v : World}, v.Lists names → (host ∈ names true ∨ host ∈ names false) →
    PlainName host ∧
      v.Lists fun up ↦ names up ++ if up then [] else undiscovered (names true ++ names false)
          [host] := by
    intro v hv hmem
    constructor
    · have hplain_of : ∀ side, host ∈ names side → PlainName host := fun side hside ↦ by
        obtain ⟨hl, -, hfilled, hhosts⟩ := hlists side
        exact hfilled.plain host (hhosts ▸ hside)
      exact hmem.elim (hplain_of true) (hplain_of false)
    · refine hv.congr (fun _ ↦ rfl) fun up ↦ ?_
      rw [undiscovered, if_pos (List.mem_append.mpr hmem), undiscovered, ite_self, List.append_nil]
  obtain ⟨_, w1, hcheck, hsearch⟩ := attempt_bind_some.mp hrun
  have hsame : w1 = w := by
    unfold setupHandleErrorCheck at hcheck
    rw [if_pos hstate] at hcheck
    exact (Prod.mk.inj (Except.ok.inj hcheck)).2.symm
  subst hsame
  obtain ⟨inUp, w2, hfindUp, hrun⟩ := attempt_bind_some.mp hsearch
  have hframe1 := preserves_findNode frame_setNodes true host _ _ _ hfindUp
  obtain ⟨hlists1, _, hfound, hmemUp, -⟩ := findNode_lists hlists (hsmall true) hfindUp
  obtain rfl := Option.some.inj hfound
  split_ifs at hrun with hup
  · obtain ⟨-, rfl⟩ := Prod.mk.inj (Except.ok.inj hrun)
    exact hknown hlists1 (Or.inl (hmemUp.mp hup))
  · obtain ⟨inDown, w3, hfindDown, hrun⟩ := attempt_bind_some.mp hrun
    have hframe2 := preserves_findNode frame_setNodes false host _ _ _ hfindDown
    obtain ⟨hlists2, _, hfound, hmemDown, -⟩ := findNode_lists hlists1 (hsmall false) hfindDown
    obtain rfl := Option.some.inj hfound
    split_ifs at hrun with hdown
    · obtain ⟨-, rfl⟩ := Prod.mk.inj (Except.ok.inj hrun)
      exact hknown hlists2 (Or.inr (hmemDown.mp hdown))
    · have hframe := hframe2.trans hframe1
      have hlib : w3.lib = w1.lib := congrArg Prod.fst hframe
      have hstate3 : w3.handle.loadState = .setup :=
        (congrArg (fun frame ↦ frame.2.2.2) hframe).trans hstate
      have hcontains : (Cluster.hostsfile hosts).contains host = true := by
        simp [Cluster.contains, Cluster.hosts, hhost]
      have hname : (Cluster.hostsfile hosts).nodename host = some host := nodename_host hdot hlength
      have hentryPlain : ∀ name ∈ (Cluster.hostsfile hosts).entry host, PlainName name := by
        intro name hentry
        rw [Cluster.entry, hname, Option.mem_def, Option.filter_eq_some_iff] at hentry
        obtain ⟨hsame, hne⟩ := hentry
        obtain rfl := Option.some.inj hsame
        exact hplain (by simpa using (Bool.and_eq_true_iff.mp hne).1)
      obtain ⟨hlists3, hadded⟩ := addNode_lists (hlib ▸ hc) hstate3 hlists2 hentryPlain hrun
      have hentry := hadded rfl host hname hcontains
      refine ⟨hentryPlain host hentry, hlists3.congr (fun _ ↦ rfl) fun up ↦ ?_⟩
      have hnot : host ∉ names true ++ names false := fun hmem ↦
        (List.mem_append.mp hmem).elim (fun h ↦ hup (hmemUp.mpr h)) fun h ↦ hdown (hmemDown.mpr h)
      rw [undiscovered, if_neg hnot, undiscovered, hentry]
      cases up <;> rfl

/-- Assumes: a handle being filled, with less than `2 ^ 31` names and hosts together, and hosts of
the hostsfile under their short names, which are plain unless they are empty. If the checks succeed,
the hosts that have not been reported are down. -/
theorem notDiscoveredChecks_lists {hosts : List (List Char)} (nodes : List (List Char)) :
    ∀ {w w' : World} {names : Bool → List (List Char)}, w.lib.cluster = some (.hostsfile hosts) →
      w.handle.loadState = .setup → w.Lists names →
      (∀ up, (names up).length + nodes.length < 2 ^ 31) →
      (∀ host ∈ nodes, host ∈ hosts ∧ '.' ∉ host ∧ host.length ≤ 64 ∧
        (host ≠ [] → PlainName host)) →
      notDiscoveredChecks nodes w = .ok (some (), w') →
      (∀ host ∈ nodes, PlainName host) ∧ w'.Lists fun up ↦
        names up ++ if up then [] else undiscovered (names true ++ names false) nodes := by
  induction nodes with
  | nil =>
    rintro w w' names - - hlists - - hrun
    obtain ⟨-, rfl⟩ := Prod.mk.inj (Except.ok.inj hrun)
    exact ⟨fun host h ↦ absurd h List.not_mem_nil, hlists.congr (fun _ ↦ rfl) fun up ↦ by
      simp [undiscovered]⟩
  | cons host nodes ih =>
    intro w w' names hc hstate hlists hsmall hnodes hrun
    obtain ⟨⟨hhost, hdot, hlength, hplain⟩, hrest⟩ := List.forall_mem_cons.mp hnodes
    obtain ⟨_, w1, hcheck, hrun⟩ := attempt_bind_some.mp hrun
    have hframe := preserves_notDiscoveredCheck frame_setNodes frame_setErrnum host _ _ _ hcheck
    have hlib : w1.lib = w.lib := congrArg Prod.fst hframe
    have hstate1 : w1.handle.loadState = .setup :=
      (congrArg (fun frame ↦ frame.2.2.2) hframe).trans hstate
    obtain ⟨hown, hlists1⟩ := notDiscoveredCheck_lists hc hstate hlists
      (fun up ↦ lt_of_le_of_lt (Nat.le_add_right _ _) (hsmall up)) hhost hdot hlength hplain hcheck
    have hone : (undiscovered (names true ++ names false) [host]).length ≤ 1 := by
      rw [undiscovered, undiscovered, undiscovered]
      split_ifs <;> simp
    obtain ⟨hothers, hlists'⟩ := ih (hlib ▸ hc) hstate1 hlists1 (fun up ↦ by
      have hbound := hsmall up
      rw [List.length_cons] at hbound
      cases up <;> simp <;> omega) hrest hrun
    refine ⟨List.forall_mem_cons.mpr ⟨hown, hothers⟩, hlists'.congr (fun _ ↦ rfl) fun up ↦ ?_⟩
    cases up with
    | true => simp
    | false =>
      simp only [Bool.false_eq_true, if_false, if_true, List.append_nil]
      rw [undiscovered, undiscovered, undiscovered, undiscovered]
      split_ifs with hknown
      · simp
      · simp [List.append_assoc]

end Whatsup
