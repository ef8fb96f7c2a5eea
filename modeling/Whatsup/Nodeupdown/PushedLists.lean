import Whatsup.Hostlist.Found
import Whatsup.Nodeupdown.Reports

/-!
# What reports push, for any clusterlist module

A `Membership` is what a clusterlist module decides: the text under which a reported node is pushed
to a list of the handle, if it is, and the nodes that the module looks for when everything has been
reported. The default and the hostsfile module have one (`Cluster.membership`), and so has a module
outside of the sources.

The texts that are pushed need not be names: a line such as `n[1-2]` is pushed as it stands, and
names two hosts. `has_runCalls` and `has_compareToClusterlist` say which lists calls of a backend
and a comparison with the cluster leave, whatever the texts are. `alike_checks` says what these
lists are made of, if no push wraps around: the texts that are reported, and those of the nodes that
a search does not find among them (`undiscoveredTexts`).
-/

set_option autoImplicit false
set_option relaxedAutoImplicit false

namespace Whatsup

open CLib

/-! ### Membership -/

/-- What a clusterlist module decides: the text under which a node is pushed, if it is, and the
nodes that it looks for when everything has been reported. -/
structure Membership where
  entry : List Char → Option (List Char)
  checks : List (List Char)

/-- The membership of the default or the hostsfile module. -/
def Cluster.membership (c : Cluster) : Membership where
  entry := c.entry
  checks := c.hosts

/-- The membership of a module that is not part of the sources. -/
def ForeignClusterlist.membership (info : ForeignClusterlist) : Membership where
  entry node :=
    if 0 < (info.isNodeInCluster node).value then (info.getNodename node).value.filter
      (· ≠ []) else none
  checks := info.compareToClusterlist.checks

/-- The membership of the clusterlist module that is loaded. -/
def Library.membership (lib : Library) : Option Membership :=
  match lib.clusterlist.info with
  | some (.foreign info) => some info.membership
  | _ => lib.cluster.map Cluster.membership

/-- The text that a call pushes to one of the lists, if it pushes one. -/
def Membership.added (m : Membership) (up : Bool) (call : BackendCall) : Option (List Char) :=
  (call.report.filter fun report ↦ report.1 = up).bind fun report ↦ m.entry report.2

/-- The texts that calls push to one of the lists. -/
def Membership.entries (m : Membership) (up : Bool) (calls : List BackendCall) : List (List Char) :=
  calls.filterMap (m.added up)

theorem Membership.entries_append (m : Membership) (up : Bool) (front back : List BackendCall) :
    m.entries up (front ++ back) = m.entries up front ++ m.entries up back :=
  List.filterMap_append

/-- The texts that a cluster has pushed are the names that it adds. -/
@[simp]
theorem Cluster.entries_membership (c : Cluster) (up : Bool) (calls : List BackendCall) :
    c.membership.entries up calls = c.entries up calls := rfl

theorem membership_of_cluster {lib : Library} {c : Cluster} (h : lib.cluster = some c) :
    lib.membership = some c.membership := by
  unfold Library.membership
  split
  · rename_i info hinfo
    rw [Library.cluster, hinfo] at h
    exact absurd h (by simp)
  · rw [h]
    rfl

/-- A membership is that of a cluster, or of a module that is not part of the sources. -/
theorem membership_cases {lib : Library} {m : Membership} (h : lib.membership = some m) :
    (∃ c, lib.cluster = some c ∧ m = c.membership) ∨
      ∃ info, lib.clusterlist.info = some (.foreign info) ∧ m = info.membership := by
  unfold Library.membership at h
  split at h
  · rename_i info hinfo
    exact Or.inr ⟨info, hinfo, (Option.some.inj h).symm⟩
  · obtain ⟨c, hc, rfl⟩ := Option.map_eq_some_iff.mp h
    exact Or.inl ⟨c, hc, rfl⟩

/-! ### One report -/

theorem nodes_noteErrnum (w : World) (errnum : Option Errnum) : (w.noteErrnum errnum).handle.nodes =
    w.handle.nodes := by
  cases errnum with
  | none => rfl
  | some errnum =>
    unfold World.noteErrnum
    simp only
    split_ifs <;> rfl

/-- What a module outside of the sources says of a node. -/
theorem isNodeInCluster_foreign {w : World} {info : ForeignClusterlist}
    (hinfo : w.lib.clusterlist.info = some (.foreign info)) (node : List Char) :
    clusterlistModuleIsNodeInCluster node w =
      .ok (if (info.isNodeInCluster node).value < 0 then none
        else some (decide ((info.isNodeInCluster node).value ≠ 0)),
        w.noteErrnum (info.isNodeInCluster node).errnum) := by
  unfold clusterlistModuleIsNodeInCluster
  rw [hinfo]
  change Attempt.andThen _ (fun value ↦ Attempt.andThen _ _) _ = _
  simp only [Attempt.andThen, callModule, unlessNegative]
  split_ifs <;> rfl

/-- The name that a module outside of the sources gives a node. -/
theorem getNodename_foreign {w : World} {info : ForeignClusterlist}
    (hinfo : w.lib.clusterlist.info = some (.foreign info)) (node : List Char) :
    clusterlistModuleGetNodename node w =
      .ok ((info.getNodename node).value, w.noteErrnum (info.getNodename node).errnum) := by
  unfold clusterlistModuleGetNodename
  rw [hinfo]
  change Attempt.andThen _ _ _ = _
  simp only [Attempt.andThen, callModule]
  cases (info.getNodename node).value <;> rfl

/-- Assumes: a handle that is set up, with a module of the sources. `_add_node` leaves the lists,
and then the node has no text, or it pushes the name of the node to one of them. -/
theorem addNode_cluster {w w' : World} {c : Cluster} {up : Bool} {node : List Char}
    {value : Option Unit}
    (hc : w.lib.cluster = some c) (hstate : w.handle.loadState = .setup)
    (hrun : addNode up node w = .ok (value, w')) :
    (c.entry node = none ∧ w'.handle.nodes = w.handle.nodes) ∨
      ∃ name hl count hl', c.entry node = (some name).filter (· ≠ []) ∧
        w.handle.nodes up = some hl ∧ hostlistPush hl name = some (count, hl') ∧
        w'.handle.nodes = (w.setNodes up hl').handle.nodes := by
  rcases addNode_cases hc hstate hrun with ⟨-, rfl, hnot⟩ | ⟨-, rfl, hlong⟩ |
    ⟨name, hl, count, hl', hname, hcontains, hnodes, hpush, hend⟩
  · refine Or.inl ⟨Option.filter_eq_none_iff.mpr fun name hname ↦ ?_, rfl⟩
    simp [hnot name hname]
  · exact Or.inl ⟨by rw [Cluster.entry, hlong, Option.filter_none], rfl⟩
  · refine Or.inr ⟨name, hl, count, hl', ?_, hnodes, hpush, ?_⟩
    · rw [Cluster.entry, hname, Option.filter_some, Option.filter_some]
      simp only [hcontains, Bool.and_true]
    · rcases hend with ⟨-, -, rfl⟩ | ⟨-, -, rfl⟩ <;> rfl

/-- Assumes: a handle that is set up, with a module outside of the sources. `_add_node` leaves the
lists, and then the node has no text, or it pushes the name that the module gives to one of them. -/
theorem addNode_foreign {w w' : World} {info : ForeignClusterlist} {up : Bool} {node : List Char}
    {value : Option Unit}
    (hinfo : w.lib.clusterlist.info = some (.foreign info)) (hstate : w.handle.loadState = .setup)
    (hrun : addNode up node w = .ok (value, w')) :
    (info.membership.entry node = none ∧ w'.handle.nodes = w.handle.nodes) ∨
      ∃ name hl count hl', info.membership.entry node = (some name).filter (· ≠ []) ∧
        w.handle.nodes up = some hl ∧ hostlistPush hl name = some (count, hl') ∧
        w'.handle.nodes = (w.setNodes up hl').handle.nodes := by
  change Attempt.andThen setupHandleErrorCheck _ w = _ at hrun
  unfold Attempt.andThen setupHandleErrorCheck at hrun
  rw [if_pos hstate] at hrun
  simp only at hrun
  change Attempt.andThen (clusterlistModuleIsNodeInCluster node) _ w = _ at hrun
  rw [Attempt.andThen, isNodeInCluster_foreign hinfo] at hrun
  by_cases hpositive : 0 < (info.isNodeInCluster node).value
  · have hsome : ¬(info.isNodeInCluster node).value < 0 := by omega
    have hyes : decide ((info.isNodeInCluster node).value ≠ 0) = true := decide_eq_true (by omega)
    have hentry : info.membership.entry node = (info.getNodename node).value.filter (· ≠ []) :=
      if_pos hpositive
    have hinfo1 : (w.noteErrnum (info.isNodeInCluster node).errnum).lib.clusterlist.info =
        some (.foreign info) := by
      rw [lib_noteErrnum, hinfo]
    rw [if_neg hsome, hyes] at hrun
    change Attempt.andThen (clusterlistModuleGetNodename node) _ _ = _ at hrun
    rw [Attempt.andThen, getNodename_foreign hinfo1] at hrun
    cases hgiven : (info.getNodename node).value with
    | none =>
      rw [hgiven] at hrun hentry
      obtain ⟨-, rfl⟩ := Prod.mk.inj (Except.ok.inj hrun)
      exact Or.inl ⟨hentry, (nodes_noteErrnum _ _).trans (nodes_noteErrnum _ _)⟩
    | some name =>
      rw [hgiven] at hrun hentry
      simp only at hrun
      change Attempt.andThen (pushNode up name) _ _ = _ at hrun
      unfold Attempt.andThen at hrun
      cases hpushNode :
        pushNode up name ((w.noteErrnum (info.isNodeInCluster node).errnum).noteErrnum
          (info.getNodename node).errnum) with
      | error failure =>
        rw [hpushNode] at hrun
        exact absurd hrun (by simp)
      | ok result =>
        obtain ⟨told, w3⟩ := result
        obtain ⟨hl, count, hl', hnodes, hpush, rfl, rfl⟩ := pushNode_ok hpushNode
        rw [hpushNode] at hrun
        have hbefore : w.handle.nodes up = some hl := by
          rw [← hnodes, nodes_noteErrnum, nodes_noteErrnum]
        refine Or.inr ⟨name, hl, count, hl', hentry, hbefore, hpush, ?_⟩
        funext side
        simp only at hrun
        split_ifs at hrun <;> obtain ⟨-, rfl⟩ := Prod.mk.inj (Except.ok.inj hrun)
        · change (World.setNodes up hl' _).handle.nodes side = _
          rw [nodes_setNodes, nodes_setNodes, nodes_noteErrnum, nodes_noteErrnum]
        · rw [nodes_setNodes, nodes_setNodes, nodes_noteErrnum, nodes_noteErrnum]
  · refine Or.inl ⟨if_neg hpositive, ?_⟩
    split_ifs at hrun with hnegative
    · obtain ⟨-, rfl⟩ := Prod.mk.inj (Except.ok.inj hrun)
      exact nodes_noteErrnum _ _
    · have hno : decide ((info.isNodeInCluster node).value ≠ 0) = false :=
        decide_eq_false (by omega)
      rw [hno] at hrun
      obtain ⟨-, rfl⟩ := Prod.mk.inj (Except.ok.inj hrun)
      exact nodes_noteErrnum _ _

/-- A push of the empty text leaves the lists as they are. -/
theorem nodes_setNodes_nil {w : World} {up : Bool} {hl hl' : Hostlist} {count : ℤ}
    (hnodes : w.handle.nodes up = some hl) (hpush : hostlistPush hl [] = some (count, hl')) :
    (w.setNodes up hl').handle.nodes = w.handle.nodes := by
  rw [hostlistPush_nil] at hpush
  obtain ⟨-, rfl⟩ := Prod.mk.inj (Option.some.inj hpush)
  funext side
  rw [nodes_setNodes]
  split_ifs with hside
  · rw [hside, hnodes]
  · rfl

/-- Assumes: a handle that is set up, with a clusterlist module. All that `_add_node` can do to the
lists: it leaves them, and then the node has no text, or it pushes the text of the node to one of
them. -/
theorem addNode_entry {w w' : World} {m : Membership} {up : Bool} {node : List Char}
    {value : Option Unit}
    (hm : w.lib.membership = some m) (hstate : w.handle.loadState = .setup)
    (hrun : addNode up node w = .ok (value, w')) :
    (m.entry node = none ∧ w'.handle.nodes = w.handle.nodes) ∨
      ∃ name hl count hl', m.entry node = some name ∧ w.handle.nodes up = some hl ∧
        hostlistPush hl name = some (count, hl') ∧
        w'.handle.nodes = (w.setNodes up hl').handle.nodes := by
  have hgiven : (m.entry node = none ∧ w'.handle.nodes = w.handle.nodes) ∨
      ∃ name hl count hl', m.entry node = (some name).filter (· ≠ []) ∧
        w.handle.nodes up = some hl ∧ hostlistPush hl name = some (count, hl') ∧
        w'.handle.nodes = (w.setNodes up hl').handle.nodes := by
    rcases membership_cases hm with ⟨c, hc, rfl⟩ | ⟨info, hinfo, rfl⟩
    · exact addNode_cluster hc hstate hrun
    · exact addNode_foreign hinfo hstate hrun
  obtain hnone | ⟨name, hl, count, hl', hentry, hnodes, hpush, hlists⟩ := hgiven
  · exact Or.inl hnone
  · by_cases hempty : name = []
    · subst hempty
      exact Or.inl ⟨hentry, hlists.trans (nodes_setNodes_nil hnodes hpush)⟩
    · refine Or.inr ⟨name, hl, count, hl', ?_, hnodes, hpush, hlists⟩
      rw [hentry, Option.filter_some, if_pos (by simpa using hempty)]

/-! ### The lists of a handle -/

/-- The lists of a handle are there, and they are given lists. -/
def World.Has (w : World) (lists : Bool → Hostlist) : Prop :=
  ∀ side, w.handle.nodes side = some (lists side)

theorem World.Has.congr {w w' : World} {lists lists' : Bool → Hostlist} (h : w.Has lists)
    (hnodes : w'.handle.nodes = w.handle.nodes) (hlists : ∀ side, lists' side = lists side) :
      w'.Has lists' := by
  intro side
  rw [hnodes, h side, hlists]

/-- Assumes: a handle that is set up, with a clusterlist module. The text of a report is pushed. -/
theorem has_addNode {w w' : World} {m : Membership} {up : Bool} {node : List Char}
    {value : Option Unit}
    {lists : Bool → Hostlist} (hm : w.lib.membership = some m)
    (hstate : w.handle.loadState = .setup)
    (hhas : w.Has lists) (hrun : addNode up node w = .ok (value, w')) :
    w'.Has fun side ↦ (if side = up then (m.entry node).toList else []).foldl pushedNode
      (lists side) := by
  rcases addNode_entry hm hstate hrun with ⟨hnone, hsame⟩ | ⟨name, hl, count, hl', hentry, hnodes,
    hpush, hsame⟩
  · exact hhas.congr hsame fun side ↦ by simp [hnone]
  · intro side
    rw [hsame, nodes_setNodes]
    beta_reduce
    split_ifs with hside
    · subst hside
      obtain rfl := Option.some.inj ((hhas side).symm.trans hnodes)
      rw [hentry, Option.toList_some]
      rcases hostlistPush_eq (lists side) name with ⟨-, hnone⟩ | ⟨-, pushed, hsome, -⟩
      · exact absurd (hnone.symm.trans hpush) (by simp)
      · exact congrArg some (Prod.mk.inj (Option.some.inj (hsome.symm.trans hpush))).2.symm
    · exact hhas side

/-- Assumes: a handle that is set up, with a clusterlist module. The text of a call is pushed. -/
theorem has_backendCall {w w' : World} {m : Membership} {call : BackendCall} {value : Option Unit}
    {lists : Bool → Hostlist} (hm : w.lib.membership = some m)
    (hstate : w.handle.loadState = .setup)
    (hhas : w.Has lists) (hrun : call.run w = .ok (value, w')) :
    w'.Has fun side ↦ (m.added side call).toList.foldl pushedNode (lists side) := by
  have hreport : ∀ (up : Bool) (node : List Char), call.report = some (up, node) →
      addNode up node w = .ok (value, w') →
      w'.Has fun side ↦ (m.added side call).toList.foldl pushedNode (lists side) := by
    intro up node hcall hrun
    refine (has_addNode hm hstate hhas hrun).congr rfl fun side ↦ ?_
    rw [Membership.added, hcall, Option.filter_some]
    by_cases hside : side = up
    · simp [hside]
    · rw [if_neg hside, if_neg (by simpa using Ne.symm hside)]
      rfl
  cases call with
  | addUpNode node => exact hreport true node rfl hrun
  | addDownNode node => exact hreport false node rfl hrun
  | addLastUpTime node time => exact hhas.congr (addLastUpTime_nodes hstate hrun).1 fun side ↦ rfl

/-- Assumes: a handle that is set up, with a clusterlist module. Calls of a backend push their
texts. -/
theorem has_runCalls {m : Membership} (calls : List BackendCall) :
    ∀ {w w' : World} {value : Option Unit} {lists : Bool → Hostlist}, w.lib.membership = some m →
      w.handle.loadState = .setup → w.Has lists → runCalls calls w = .ok (value, w') →
      w'.Has fun side ↦ (m.entries side calls).foldl pushedNode (lists side) := by
  induction calls with
  | nil =>
    rintro w _ _ lists - - hhas ⟨rfl, rfl⟩
    exact hhas
  | cons call calls ih =>
    intro w w' value lists hm hstate hhas hrun
    rw [runCalls] at hrun
    split at hrun
    · exact absurd hrun (by simp)
    · rename_i told w1 hcall
      have hframe := frame_backendCall call _ _ _ hcall
      have hlib : w1.lib = w.lib := congrArg Prod.fst hframe
      have hstate1 : w1.handle.loadState = w.handle.loadState :=
        congrArg (fun frame ↦ frame.2.2.2) hframe
      have hhas1 :=
        has_backendCall (w := { w with reports := w.reports ++ [call] }) hm hstate hhas hcall
      refine (ih (hlib ▸ hm) (hstate1.trans hstate) hhas1 hrun).congr rfl fun side ↦ ?_
      rw [← List.foldl_append]
      cases hadded : m.added side call <;> simp [Membership.entries, hadded]

/-! ### Nodes that are not reported -/

/-- The lists behind the check of a node: searches may overwrite widths, and the text of a node that
is in neither list is pushed to the second one. -/
def Membership.checked (m : Membership) (lists : Bool → Hostlist) (node : List Char) :
    Bool → Hostlist :=
  let inUp := hostlistFind (lists true) node
  let inDown := hostlistFind (lists false) node
  if 0 ≤ inUp.1 then fun up ↦ if up then inUp.2 else lists false
  else if 0 ≤ inDown.1 then fun up ↦ if up then inUp.2 else inDown.2
  else fun up ↦ if up then inUp.2 else (m.entry node).toList.foldl pushedNode inDown.2

/-- All that a search in a list of a handle does. -/
theorem has_findNode {w w' : World} {up : Bool} {name : List Char} {value : Option ℤ}
    {lists : Bool → Hostlist}
    (hhas : w.Has lists) (hrun : findNode up name w = .ok (value, w')) :
    value = some (hostlistFind (lists up) name).1 ∧
      w'.Has fun side ↦ if side = up then (hostlistFind (lists up) name).2 else lists side := by
  obtain ⟨hl, hnodes, rfl, rfl⟩ := findNode_ok hrun
  obtain rfl := Option.some.inj ((hhas up).symm.trans hnodes)
  refine ⟨rfl, fun side ↦ ?_⟩
  rw [nodes_setNodes]
  beta_reduce
  split_ifs
  · rfl
  · exact hhas side

/-- Assumes: a handle that is set up, with a clusterlist module. A check leaves the lists that are
checked. -/
theorem has_notDiscoveredCheck {w w' : World} {m : Membership} {node : List Char}
    {value : Option Unit}
    {lists : Bool → Hostlist} (hm : w.lib.membership = some m)
    (hstate : w.handle.loadState = .setup)
    (hhas : w.Has lists) (hrun : nodeupdownNotDiscoveredCheck node w = .ok (value, w')) :
    w'.Has (m.checked lists node) := by
  unfold Membership.checked
  change Attempt.andThen setupHandleErrorCheck _ w = _ at hrun
  unfold Attempt.andThen setupHandleErrorCheck at hrun
  rw [if_pos hstate] at hrun
  simp only at hrun ⊢
  change Attempt.andThen (findNode true node) _ w = _ at hrun
  unfold Attempt.andThen at hrun
  cases hfindUp : findNode true node w with
  | error failure =>
    rw [hfindUp] at hrun
    exact absurd hrun (by simp)
  | ok result =>
    obtain ⟨told, w1⟩ := result
    obtain ⟨rfl, hhas1⟩ := has_findNode hhas hfindUp
    have hframe1 := preserves_findNode frame_setNodes true node _ _ _ hfindUp
    rw [hfindUp] at hrun
    simp only at hrun
    by_cases hup : 0 ≤ (hostlistFind (lists true) node).1
    · rw [if_pos hup] at hrun ⊢
      obtain ⟨-, rfl⟩ := Prod.mk.inj (Except.ok.inj hrun)
      exact hhas1.congr rfl fun side ↦ by cases side <;> rfl
    · rw [if_neg hup] at hrun ⊢
      change Attempt.andThen (findNode false node) _ w1 = _ at hrun
      unfold Attempt.andThen at hrun
      cases hfindDown : findNode false node w1 with
      | error failure =>
        rw [hfindDown] at hrun
        exact absurd hrun (by simp)
      | ok result =>
        obtain ⟨told, w2⟩ := result
        obtain ⟨rfl, hhas2⟩ := has_findNode hhas1 hfindDown
        have hframe2 := (preserves_findNode frame_setNodes false node _ _ _ hfindDown).trans hframe1
        rw [hfindDown] at hrun
        simp only [Bool.false_eq_true, if_false] at hrun hhas2
        by_cases hdown : 0 ≤ (hostlistFind (lists false) node).1
        · rw [if_pos hdown] at hrun ⊢
          obtain ⟨-, rfl⟩ := Prod.mk.inj (Except.ok.inj hrun)
          exact hhas2.congr rfl fun side ↦ by cases side <;> rfl
        · rw [if_neg hdown] at hrun ⊢
          have hlib : w2.lib = w.lib := congrArg Prod.fst hframe2
          have hstate2 : w2.handle.loadState = .setup :=
            (congrArg (fun frame ↦ frame.2.2.2) hframe2).trans hstate
          exact (has_addNode (hlib ▸ hm) hstate2 hhas2 hrun).congr rfl fun side ↦ by
            cases side <;> rfl

/-- Assumes: a handle that is set up, with a clusterlist module. Checks whose values are ignored
leave the lists that are checked in order. -/
theorem has_runChecks {m : Membership} (nodes : List (List Char)) :
    ∀ {w w' : World} {value : Option Unit} {lists : Bool → Hostlist}, w.lib.membership = some m →
      w.handle.loadState = .setup → w.Has lists → runChecks nodes w = .ok (value, w') →
      w'.Has (nodes.foldl m.checked lists) := by
  induction nodes with
  | nil =>
    rintro w _ _ lists - - hhas ⟨rfl, rfl⟩
    exact hhas
  | cons node nodes ih =>
    intro w w' value lists hm hstate hhas hrun
    rw [runChecks] at hrun
    split at hrun
    · exact absurd hrun (by simp)
    · rename_i told w1 hcheck
      have hframe := preserves_notDiscoveredCheck frame_setNodes frame_setErrnum node _ _ _ hcheck
      have hlib : w1.lib = w.lib := congrArg Prod.fst hframe
      have hstate1 : w1.handle.loadState = .setup :=
        (congrArg (fun frame ↦ frame.2.2.2) hframe).trans hstate
      exact ih (hlib ▸ hm) hstate1 (has_notDiscoveredCheck hm hstate hhas hcheck) hrun

/-- Checks that all succeed are checks whose values are ignored. -/
theorem runChecks_of_notDiscoveredChecks (nodes : List (List Char)) :
    ∀ {w w' : World}, notDiscoveredChecks nodes w = .ok (some (), w') →
      runChecks nodes w = .ok (some (), w') := by
  induction nodes with
  | nil => exact fun hrun ↦ hrun
  | cons node nodes ih =>
    intro w w' hrun
    obtain ⟨_, w1, hcheck, hrun⟩ := attempt_bind_some.mp hrun
    rw [runChecks, hcheck]
    exact ih hrun

/-- Assumes: a handle that is set up, with a clusterlist module. A comparison with the cluster that
succeeds leaves the lists behind its checks. -/
theorem has_compareToClusterlist {w w' : World} {m : Membership} {lists : Bool → Hostlist}
    (hm : w.lib.membership = some m) (hstate : w.handle.loadState = .setup) (hhas : w.Has lists)
    (hrun : clusterlistModuleCompareToClusterlist w = .ok (some (), w')) :
      w'.Has (m.checks.foldl m.checked lists) := by
  unfold clusterlistModuleCompareToClusterlist at hrun
  rcases membership_cases hm with ⟨c, hc, rfl⟩ | ⟨info, hinfo, rfl⟩
  · rcases cluster_cases hc with ⟨hinfo, rfl⟩ | ⟨hosts, hinfo, hread, rfl⟩
    · rw [hinfo] at hrun
      obtain ⟨-, rfl⟩ := Prod.mk.inj (Except.ok.inj hrun)
      exact hhas
    · rw [hinfo] at hrun
      obtain ⟨others, w1, hothers, hchecks⟩ := attempt_bind_some.mp hrun
      rw [hostsfileHosts, hread] at hothers
      obtain ⟨hsame, rfl⟩ := Prod.mk.inj (Except.ok.inj hothers)
      obtain rfl := Option.some.inj hsame
      exact has_runChecks hosts hm hstate hhas (runChecks_of_notDiscoveredChecks hosts hchecks)
  · rw [hinfo] at hrun
    obtain ⟨_, w1, hchecks, hend⟩ := attempt_bind_some.mp hrun
    refine (has_runChecks _ hm hstate hhas hchecks).congr ?_ fun _ ↦ rfl
    obtain ⟨value, w2, hcall, hvalue⟩ := attempt_bind_some.mp hend
    obtain ⟨-, rfl⟩ := Prod.mk.inj (Except.ok.inj hcall)
    unfold unlessNegative at hvalue
    split_ifs at hvalue
    · exact absurd hvalue (by simp [Attempt.giveUp])
    · obtain ⟨-, rfl⟩ := Prod.mk.inj (Except.ok.inj hvalue)
      exact nodes_noteErrnum _ _

/-- A comparison with the cluster that succeeds is made by a clusterlist module. -/
theorem exists_membership {w w' : World}
    (hrun : clusterlistModuleCompareToClusterlist w = .ok (some (), w')) :
    ∃ m, w.lib.membership = some m := by
  unfold clusterlistModuleCompareToClusterlist at hrun
  unfold Library.membership Library.cluster
  cases hinfo : w.lib.clusterlist.info with
  | none =>
    rw [hinfo] at hrun
    exact absurd hrun (by simp)
  | some info =>
    rw [hinfo] at hrun
    cases info with
    | default => exact ⟨_, rfl⟩
    | hostsfile =>
      obtain ⟨hosts, w1, hread, -⟩ := attempt_bind_some.mp hrun
      unfold hostsfileHosts at hread
      cases hhosts : w.lib.hosts with
      | none =>
        rw [hhosts] at hread
        exact absurd hread (by simp)
      | some hosts => exact ⟨_, rfl⟩
    | foreign info => exact ⟨_, rfl⟩

/-! ### What the lists are made of -/

/-- The names that searches find among the hosts that texts name. -/
def foundIn (texts : List (List Char)) : List (List Char) :=
  foundNames (texts.flatMap namedMarks)

@[simp]
theorem foundIn_append (front back : List (List Char)) : foundIn (front ++ back) = foundIn front ++
    foundIn back := by
  unfold foundIn
  rw [List.flatMap_append, foundNames_append]

/-- The texts of the nodes that are not known, in order; the names of a text that is pushed are
known from then on. -/
def undiscoveredTexts (entry : List Char → Option (List Char)) :
    List (List Char) → List (List Char) → List (List Char)
  | _, [] => []
  | known, node :: nodes =>
    if node ∈ known then undiscoveredTexts entry known nodes
    else (entry node).toList ++ undiscoveredTexts entry (known ++ foundIn (entry node).toList) nodes

/-- The texts of the nodes that are found nowhere among what the calls push. -/
def Membership.unreported (m : Membership) (calls : List BackendCall) : List (List Char) :=
  undiscoveredTexts m.entry (foundIn (m.entries true calls) ++ foundIn (m.entries false calls))
    m.checks

/-- The texts of one of the lists behind a load: those that the calls push, and behind them, for the
nodes that are down, those of the nodes that are found nowhere by then. -/
def Membership.texts (m : Membership) (up : Bool) (calls : List BackendCall) : List (List Char) :=
  m.entries up calls ++ if up then [] else m.unreported calls

/-- The pushes of the texts of both lists do not wrap around. -/
def Membership.Unwrapped (m : Membership) (calls : List BackendCall) : Prop :=
  ∀ up, NodesUnwrapped (m.texts up calls) hostlistNew

instance (m : Membership) (calls : List BackendCall) : Decidable (m.Unwrapped calls) :=
  inferInstanceAs (Decidable (∀ up, NodesUnwrapped (m.texts up calls) hostlistNew))

/-- The hosts that the texts of one of the lists name. -/
def Membership.hosts (m : Membership) (up : Bool) (calls : List BackendCall) : List (List Char) :=
  (m.texts up calls).flatMap namedHosts

/-- The pushes of texts do not wrap around if those of the first ones do not, nor those of the
others behind them. -/
theorem nodesUnwrapped_append (front back : List (List Char)) :
    ∀ hosts : Hostlist, NodesUnwrapped (front ++ back) hosts ↔
      NodesUnwrapped front hosts ∧ NodesUnwrapped back (front.foldl pushedNode hosts) := by
  induction front with
  | nil => exact fun hosts ↦ (and_iff_right trivial).symm
  | cons node front ih =>
    intro hosts
    rw [List.cons_append, NodesUnwrapped, NodesUnwrapped, ih, List.foldl_cons, and_assoc]

/-- Texts whose pushes do not wrap around, and which name less than `2 ^ 31` hosts. -/
structure Regular (texts : List (List Char)) : Prop where
  unwrapped : NodesUnwrapped texts hostlistNew
  small : (texts.flatMap namedHosts).length < 2 ^ 31

/-- The first ones of regular texts are regular. -/
theorem Regular.of_append {front back : List (List Char)} (h : Regular (front ++ back)) :
    Regular front := by
  refine ⟨((nodesUnwrapped_append front back _).mp h.unwrapped).1, lt_of_le_of_lt ?_ h.small⟩
  rw [List.flatMap_append, List.length_append]
  exact Nat.le_add_right _ _

/-- Assumes: regular texts. A list like that of the texts is sound, and denotes what they name. -/
theorem Regular.marks_alike {texts : List (List Char)} (h : Regular texts) {hl : Hostlist}
    (halike : (pushedNodes texts).Alike hl) : hl.Sound ∧ hl.marks = texts.flatMap namedMarks := by
  obtain ⟨hmarks, hsound⟩ := marks_pushedNodes_new h.unwrapped
  exact ⟨halike.sound hsound, halike.marks_eq.trans hmarks⟩

/-- Assumes: regular texts. A list like that of the texts denotes the hosts that they name. -/
theorem Regular.hosts_alike {texts : List (List Char)} (h : Regular texts) {hl : Hostlist}
    (halike : (pushedNodes texts).Alike hl) : hl.hosts = texts.flatMap namedHosts := by
  rw [← Hostlist.map_fst_marks, (h.marks_alike halike).2, map_fst_flatMap_namedMarks]

/-- Assumes: regular texts. A search in a list like that of the texts finds the names that are found
among what they name. -/
theorem Regular.hostlistFind_iff {texts : List (List Char)} (h : Regular texts) {hl : Hostlist}
    (halike : (pushedNodes texts).Alike hl) (name : List Char) :
    0 ≤ (hostlistFind hl name).1 ↔ name ∈ foundIn texts := by
  obtain ⟨hsound, hmarks⟩ := h.marks_alike halike
  rw [(hostlistFind_found hsound ((h.hosts_alike halike).symm ▸ h.small) name).1, hmarks, foundIn]

/-- Pushing the text of a node, if it has one, leaves a list like that of the texts. -/
theorem alike_foldl_pushedNode {texts : List (List Char)} {hl : Hostlist}
    (halike : (pushedNodes texts).Alike hl)
    (text : Option (List Char)) :
      (pushedNodes (texts ++ text.toList)).Alike (text.toList.foldl pushedNode hl) := by
  cases text with
  | none => simpa using halike
  | some text =>
    rw [Option.toList_some, pushedNodes_concat]
    exact halike.pushedNode (tallied_pushedNodes texts) text

/-- Assumes: lists like those of regular texts. Checks leave lists like those of the texts and of
the nodes that are not known. -/
theorem alike_checks (m : Membership) (nodes : List (List Char)) :
    ∀ {texts : Bool → List (List Char)} {lists : Bool → Hostlist} {known : List (List Char)},
      (∀ up, (pushedNodes (texts up)).Alike (lists up)) →
      (∀ name, name ∈ known ↔ name ∈ foundIn (texts true) ∨ name ∈ foundIn (texts false)) →
      (∀ up, Regular (texts up ++ if up then [] else undiscoveredTexts m.entry known nodes)) →
      ∀ up, (pushedNodes (texts up ++ if up then [] else undiscoveredTexts m.entry known
        nodes)).Alike
        (nodes.foldl m.checked lists up) := by
  induction nodes with
  | nil =>
    intro texts lists known halike _ _ up
    simpa [undiscoveredTexts] using halike up
  | cons node nodes ih =>
    intro texts lists known halike hknown hregular
    have hfound := fun side ↦ (hregular side).of_append.hostlistFind_iff (halike side) node
    have hsearch := fun side ↦ (halike side).trans (alike_hostlistFind (lists side) node)
    rw [List.foldl_cons]
    rw [undiscoveredTexts] at hregular ⊢
    by_cases hmem : node ∈ known
    · rw [if_pos hmem] at hregular ⊢
      refine ih (fun side ↦ ?_) hknown hregular
      unfold Membership.checked
      rcases (hknown node).mp hmem with hup | hdown
      · simp only [if_pos ((hfound true).mpr hup)]
        cases side
        · exact halike false
        · exact hsearch true
      · by_cases hup : 0 ≤ (hostlistFind (lists true) node).1
        · simp only [if_pos hup]
          cases side
          · exact halike false
          · exact hsearch true
        · simp only [if_neg hup, if_pos ((hfound false).mpr hdown)]
          cases side
          · exact hsearch false
          · exact hsearch true
    · rw [if_neg hmem] at hregular ⊢
      obtain ⟨hup, hdown⟩ := not_or.mp ((hknown node).not.mp hmem)
      have halike' : ∀ side,
        (pushedNodes (texts side ++ if side then [] else (m.entry node).toList)).Alike
          (m.checked lists node side) := by
        intro side
        unfold Membership.checked
        simp only [if_neg ((hfound true).not.mpr hup), if_neg ((hfound false).not.mpr hdown)]
        cases side
        · exact alike_foldl_pushedNode (hsearch false) (m.entry node)
        · simpa using hsearch true
      have hsplit : ∀ side, (texts side ++ if side then [] else (m.entry node).toList ++
          undiscoveredTexts m.entry (known ++ foundIn (m.entry node).toList) nodes) =
          (texts side ++ if side then [] else (m.entry node).toList) ++
            if side then [] else undiscoveredTexts m.entry
                (known ++ foundIn (m.entry node).toList) nodes := by
        intro side
        cases side <;> simp
      intro up
      rw [hsplit]
      refine ih halike' (fun name ↦ ?_) (fun side ↦ hsplit side ▸ hregular side) up
      simp [hknown name, or_assoc]

end Whatsup
