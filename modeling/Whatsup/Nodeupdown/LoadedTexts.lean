import Whatsup.Hostlist.SortKeeps
import Whatsup.Nodeupdown.LoadedLists

/-!
# The lists of a loaded handle, for any texts

What `nodeupdown_load_data` leaves in a handle if it succeeds, with any clusterlist module and for
whatever texts are pushed. `loadData_sorts` says it exactly: the lists behind the calls of the
backend and the comparison with the cluster (`Membership.lists`), sorted. `loadData_denotes` says
what these lists denote where no push wraps around and there are less than `2 ^ 31` hosts: those
that the texts of the calls name, and those of the nodes that are found nowhere among them
(`Membership.texts`).
-/

set_option autoImplicit false
set_option relaxedAutoImplicit false

namespace Whatsup

open CLib

/-! ### Handles that texts are pushed to -/

/-- A handle that is being filled: it is set up, with a clusterlist module, and the texts of the
calls so far have been pushed to its lists. -/
structure World.Pushed (m : Membership) (w : World) : Prop where
  membership : w.lib.membership = some m
  state : w.handle.loadState = .setup
  lists : w.Has fun up ↦ pushedNodes (m.entries up w.reports)

/-- What leaves the content as it is leaves such a handle. -/
theorem World.Pushed.of_content {m : Membership} {w w' : World} (hcontent : w'.content = w.content)
    (h : w.Pushed m) : w'.Pushed m := by
  obtain ⟨hframe, hreports, hnodes⟩ :
      w'.frame = w.frame ∧ w'.reports = w.reports ∧ w'.handle.nodes = w.handle.nodes := by
    simpa only [World.content, Prod.mk.injEq] using hcontent
  have hlib : w'.lib = w.lib := congrArg Prod.fst hframe
  have hstate : w'.handle.loadState = w.handle.loadState :=
    congrArg (fun frame ↦ frame.2.2.2) hframe
  exact ⟨hlib ▸ h.membership, hstate.trans h.state, h.lists.congr hnodes fun _ ↦ by rw [hreports]⟩

/-- Calls of a backend push their texts. -/
theorem pushed_runCalls {m : Membership} {calls : List BackendCall} {w w' : World}
    {value : Option Unit}
    (h : w.Pushed m) (hrun : runCalls calls w = .ok (value, w')) : w'.Pushed m := by
  have hframe : w'.frame = w.frame := (runCalls_keeps (P := fun v ↦ v.frame = w.frame)
    (fun call v v' value hv hcall ↦ (frame_backendCall call _ _ _ hcall).trans hv) calls rfl hrun).1
  have hlib : w'.lib = w.lib := congrArg Prod.fst hframe
  have hstate : w'.handle.loadState = w.handle.loadState :=
    congrArg (fun frame ↦ frame.2.2.2) hframe
  refine ⟨hlib ▸ h.membership, hstate.trans h.state, ?_⟩
  refine (has_runCalls calls h.membership h.state h.lists hrun).congr rfl fun side ↦ ?_
  rw [reports_runCalls calls hrun, Membership.entries_append, pushedNodes, pushedNodes,
    List.foldl_append]

/-- The data of the one or more servers are pushed. -/
theorem pushed_getUpdownData {m : Membership} (args : LoadArgs) (conffile module : NodeupdownConfig)
    (port timeoutLen : ℤ) :
    Leads (World.Pushed m) (World.Pushed m)
      (getUpdownData args conffile module port timeoutLen) := by
  have hnumber : NumberFree (World.Pushed m) := fun errnum w ↦
    propext ⟨.of_content (content_setErrnum errnum w).symm,
      .of_content (content_setErrnum errnum w)⟩
  exact leads_getUpdownData hnumber (fun _ _ _ _ h hrun ↦ pushed_runCalls h hrun) args
    conffile module
    port timeoutLen

/-! ### What a load leaves -/

/-- The lists behind the calls of a backend and the comparison with the cluster, before they are
sorted. -/
def Membership.lists (m : Membership) (calls : List BackendCall) : Bool → Hostlist :=
  m.checks.foldl m.checked fun up ↦ pushedNodes (m.entries up calls)

/-- The lists of a loaded handle are given ones, sorted, and its number of nodes is that of the
clusterlist module. -/
structure World.Sorts (env : LoadEnv) (lists : Bool → Hostlist) (w : World) : Prop where
  loaded : w.Loaded
  sorted : ∀ up, ∃ hl, hostlistSort env.ndebug env.qsort env.rounds (lists up) = some (.ok hl) ∧
    w.handle.nodes up = some hl
  numnodes : ∀ c, w.lib.cluster = some c → w.handle.numnodes = c.counted lists
  numnodes_nonneg : 0 ≤ w.handle.numnodes

/-- Assumes: a handle with given lists. The last part of a load, if it succeeds, sorts them. -/
theorem finishLoad_sorts {env : LoadEnv} {w w' : World} {lists : Bool → Hostlist}
    (hhas : w.Has lists)
    (hmagic : w.handle.magic = magicNum) (hrun : finishLoad env w = .ok (some (), w')) :
    w'.Sorts env lists := by
  obtain ⟨up, up', down, down', numnodes, v, hup, hupSort, hdown, hdownSort, hnumnodes,
      hsign, rfl⟩ :=
    finishLoad_ok hrun
  obtain rfl := Option.some.inj ((hhas true).symm.trans hup)
  obtain rfl := Option.some.inj ((hhas false).symm.trans hdown)
  refine ⟨⟨hmagic, rfl⟩, fun side ↦ ?_, fun c hc ↦ ?_, hsign⟩
  · cases side with
    | true => exact ⟨up', hupSort, rfl⟩
    | false => exact ⟨down', hdownSort, rfl⟩
  · have hsorted : ((w.setNodes true up').setNodes false down').Has fun up ↦
        if up then up' else down' := by
      intro side
      cases side <;> rfl
    have hcount :=
      getNumnodes_counts (w := (w.setNodes true up').setNodes false down') hc hsorted hnumnodes
    refine hcount.trans ?_
    unfold Cluster.counted
    simp only [if_true, Bool.false_eq_true, if_false, nhosts_hostlistSort hupSort,
      nhosts_hostlistSort hdownSort]

/-- Assumes: a handle in a world without reports, and a load that succeeds. It has a clusterlist
module, and leaves the lists behind the calls of the backend and the comparison with the cluster,
sorted. -/
theorem loadData_sorts {env : LoadEnv} {args : LoadArgs} {w w' : World} (hstart : w.reports = [])
    (hload : loadData env args w = .ok (0, w')) :
    ∃ m, w'.lib.membership = some m ∧ w'.Sorts env (m.lists w'.reports) := by
  obtain ⟨configs, port, timeoutLen, start, filled, compared, parts⟩ := loadData_parts hstart hload
  obtain ⟨m, hm⟩ := exists_membership parts.comparison
  have hstart_pushed : start.Pushed m := by
    refine ⟨by rw [parts.start_lib, ← parts.filled_lib, hm], parts.start_state, fun up ↦ ?_⟩
    rw [parts.start_reports]
    exact parts.start_nodes up
  have hfilled := pushed_getUpdownData args _ _ _ _ _ _ _ hstart_pushed parts.servers
  have hcompared := has_compareToClusterlist hm parts.filled_state hfilled.lists parts.comparison
  rw [parts.filled_reports] at hcompared
  exact ⟨m, parts.filled_lib ▸ hm, finishLoad_sorts hcompared parts.compared_magic parts.finished⟩

/-! ### What the lists denote -/

/-- The texts of both lists of a load are regular. -/
def Membership.Regular (m : Membership) (calls : List BackendCall) : Prop :=
  ∀ up, Whatsup.Regular (m.texts up calls)

/-- Assumes: regular texts. The lists of a load are like those of the texts. -/
theorem Membership.Regular.alike {m : Membership} {calls : List BackendCall} (h : m.Regular calls)
    (up : Bool) : (pushedNodes (m.texts up calls)).Alike (m.lists calls up) :=
  alike_checks m m.checks (fun _ ↦ .refl _) (fun _ ↦ List.mem_append) h up

/-- The lists of a handle denote the hosts that given texts name. -/
def World.Denotes (texts : Bool → List (List Char)) (w : World) : Prop :=
  ∀ up, ∃ hl, w.handle.nodes up = some hl ∧ hl.Sound ∧ hl.marks.Perm ((texts up).flatMap namedMarks)

/-- Assumes: regular texts. The sorted lists of a load denote the hosts that the texts name. -/
theorem World.Sorts.denotes {env : LoadEnv} {m : Membership} {calls : List BackendCall} {w : World}
    (hqsort : IsSort hostrangeCmp env.qsort) (h : w.Sorts env (m.lists calls))
    (hregular : m.Regular calls) : w.Denotes fun up ↦ m.texts up calls := by
  intro up
  obtain ⟨hl, hsort, hnodes⟩ := h.sorted up
  obtain ⟨hsound, hmarks⟩ := (hregular up).marks_alike (hregular.alike up)
  obtain ⟨hsorted, hperm⟩ := hostlistSort_sound hqsort hsound hsort
  exact ⟨hl, hnodes, hsorted, hperm.trans (List.Perm.of_eq hmarks)⟩

/-- Assumes: a handle in a world without reports, a load that succeeds, and regular texts. The lists
of the handle denote the hosts that the texts name. -/
theorem loadData_denotes {m : Membership} {env : LoadEnv} {args : LoadArgs} {w w' : World}
    (hqsort : IsSort hostrangeCmp env.qsort) (hstart : w.reports = [])
    (hm : w'.lib.membership = some m)
    (hregular : m.Regular w'.reports) (hload : loadData env args w = .ok (0, w')) :
    w'.Loaded ∧ w'.Denotes fun up ↦ m.texts up w'.reports := by
  obtain ⟨other, hother, hsorts⟩ := loadData_sorts hstart hload
  obtain rfl := Option.some.inj (hm.symm.trans hother)
  exact ⟨hsorts.loaded, hsorts.denotes hqsort hregular⟩

/-- The hosts of a list that denotes the hosts of texts. -/
theorem World.Denotes.perm_hosts {texts : Bool → List (List Char)} {w : World}
    (h : w.Denotes texts) {up : Bool}
    {hl : Hostlist} (hnodes : w.handle.nodes up = some hl) :
    hl.Sound ∧ hl.hosts.Perm ((texts up).flatMap namedHosts) := by
  obtain ⟨own, hown, hsound, hmarks⟩ := h up
  obtain rfl := Option.some.inj (hown.symm.trans hnodes)
  refine ⟨hsound, ?_⟩
  have hnames := hmarks.map Prod.fst
  rwa [Hostlist.map_fst_marks, map_fst_flatMap_namedMarks] at hnames

end Whatsup
