import Whatsup.Hostlist.Parse
import Whatsup.Nodeupdown.Hostsfile

/-!
# The functions that modules call

The functions of the clusterlist module that is loaded, as `nodeupdown_module.c` passes them on, and
the functions of `nodeupdown_devel.c` by which a backend adds nodes to the lists of a handle and a
clusterlist module checks which nodes have not been reported.
-/

set_option autoImplicit false
set_option relaxedAutoImplicit false

namespace Whatsup

open CLib

/-! ### The clusterlist module -/

/-- `clusterlist_module_setup`. -/
def clusterlistModuleSetup (env : LoadEnv) : Nodeupdown Unit := fun w ↦
  match w.lib.clusterlist.info with
  | none => .ok (none, w.setErrnum .internal)
  | some .default => .ok (some (), w)
  | some .hostsfile => hostsfileClusterlistSetup env w
  | some (.foreign info) => (callModule info.setup >>= unlessNegative) w

/-- `clusterlist_module_is_node_in_cluster`. -/
def clusterlistModuleIsNodeInCluster (node : List Char) : Nodeupdown Bool := fun w ↦
  match w.lib.clusterlist.info with
  | none => .ok (none, w.setErrnum .internal)
  | some .default => .ok (some true, w)
  | some .hostsfile => hostsfileClusterlistIsNodeInCluster node w
  | some (.foreign info) =>
    let reply := info.isNodeInCluster node
    (callModule reply >>= fun value ↦ unlessNegative value >>= fun _ ↦ pure (value ≠ 0 : Bool)) w

/-- The name that a clusterlist module gives, if it gives one. -/
def givenNodename : Option (List Char) → Nodeupdown (List Char)
  | none => Attempt.giveUp id
  | some nodename => pure nodename

/-- `clusterlist_module_get_nodename`, into a buffer of 65 characters. -/
def clusterlistModuleGetNodename (node : List Char) : Nodeupdown (List Char) := fun w ↦
  match w.lib.clusterlist.info with
  | none => .ok (none, w.setErrnum .internal)
  | some .default => clusterlistCopyNodename node w
  | some .hostsfile => hostsfileClusterlistGetNodename node w
  | some (.foreign info) =>
    (callModule (info.getNodename node) >>= givenNodename) w

/-! ### The lists of the handle -/

/-- One of the two lists of a handle. -/
def Handle.nodes (handle : Handle) (up : Bool) : Option Hostlist :=
  if up then handle.upNodes else handle.downNodes

/-- The handle with another list. -/
def Handle.setNodes (handle : Handle) (up : Bool) (hl : Hostlist) : Handle :=
  if up then { handle with upNodes := some hl } else { handle with downNodes := some hl }

/-- The world with another list in its handle. -/
def World.setNodes (up : Bool) (hl : Hostlist) (w : World) : World :=
  { w with handle := w.handle.setNodes up hl }

/-- A list of the handle, whose use is a fault if it is NULL. -/
def theNodes (up : Bool) : Nodeupdown Hostlist := fun w ↦
  match w.handle.nodes up with
  | none => .error .nullPointer
  | some hl => .ok (some hl, w)

/-- `hostlist_find` on a list of the handle, which keeps what it rewrites. -/
def findNode (up : Bool) (node : List Char) : Nodeupdown ℤ := do
  let hl ← theNodes up
  let found := hostlistFind hl node
  Attempt.update (World.setNodes up found.2)
  pure found.1

/-- `hostlist_push` to a list of the handle. -/
def pushNode (up : Bool) (node : List Char) : Nodeupdown ℤ := do
  let hl ← theNodes up
  match hostlistPush hl node with
  | none => Attempt.fault .endless
  | some pushed => do
    Attempt.update (World.setNodes up pushed.2)
    pure pushed.1

/-- `_setup_handle_error_check`, for a handle with the right magic number. -/
def setupHandleErrorCheck : Nodeupdown Unit := fun w ↦
  if w.handle.loadState = .setup then .ok (some (), w) else .ok (none, w.setErrnum .internal)

/-- The end of `_add_node`, for a node of the cluster. -/
def addClusterNode (up : Bool) (node : List Char) : Nodeupdown Unit := do
  let buffer ← clusterlistModuleGetNodename node
  let rv ← pushNode up buffer
  if rv = 0 then Attempt.giveUp (World.setErrnum .outmem) else pure ()

/-- `_add_node`. -/
def addNode (up : Bool) (node : List Char) : Nodeupdown Unit := do
  setupHandleErrorCheck
  let rv ← clusterlistModuleIsNodeInCluster node
  if rv then addClusterNode up node else pure ()

/-- `nodeupdown_add_up_node`. -/
def nodeupdownAddUpNode (node : List Char) : Nodeupdown Unit :=
  addNode true node

/-- `nodeupdown_add_down_node`. -/
def nodeupdownAddDownNode (node : List Char) : Nodeupdown Unit :=
  addNode false node

/-- The end of `nodeupdown_add_last_up_time`. -/
def insertLastUpTime (node : List Char) (lastUpTime : ℕ) : Nodeupdown Unit := fun w ↦
  match w.handle.lastUpTimes with
  | none => .ok (none, w.setErrnum .outmem)
  | some table =>
    match hashInsert hashKeyString table node lastUpTime with
    | none => .ok (none, w.setErrnum .backendModule)
    | some table => .ok (some (), { w with handle := { w.handle with lastUpTimes := some table } })

/-- `nodeupdown_add_last_up_time`. -/
def nodeupdownAddLastUpTime (node : List Char) (lastUpTime : ℕ) : Nodeupdown Unit := do
  setupHandleErrorCheck
  insertLastUpTime node lastUpTime

/-- `nodeupdown_not_discovered_check`. The second list is searched only if the first one lacks the
node. -/
def nodeupdownNotDiscoveredCheck (node : List Char) : Nodeupdown Unit := do
  setupHandleErrorCheck
  let inUp ← findNode true node
  if 0 ≤ inUp then pure ()
  else do
    let inDown ← findNode false node
    if 0 ≤ inDown then pure () else nodeupdownAddDownNode node

/-! ### What a backend and a clusterlist module do with them -/

/-- A call of a backend. -/
def BackendCall.run : BackendCall → Nodeupdown Unit
  | .addUpNode node => nodeupdownAddUpNode node
  | .addDownNode node => nodeupdownAddDownNode node
  | .addLastUpTime node lastUpTime => nodeupdownAddLastUpTime node lastUpTime

/-- The calls that a backend makes, whose values it ignores. -/
def runCalls : List BackendCall → Nodeupdown Unit
  | [], w => .ok (some (), w)
  | call :: calls, w =>
    match call.run { w with reports := w.reports ++ [call] } with
    | .error failure => .error failure
    | .ok (_, w) => runCalls calls w

/-- `backend_module_get_updown_data`, for the number of the call within the load. -/
def backendModuleGetUpdownData (attempt : ℕ) (hostname : List Char) (port timeoutLen : ℤ)
    (reserved : Option (List Char)) : Nodeupdown Unit := fun w ↦
  match w.lib.backend.info with
  | none => .ok (none, w.setErrnum .internal)
  | some info =>
    let run := info.getUpdownData attempt hostname port timeoutLen reserved
    (runCalls run.calls >>= fun _ ↦ callModule run.reply >>= unlessNegative) w

/-- The loop over the nodes of the hostsfile: it stops at a check that fails. -/
def notDiscoveredChecks : List (List Char) → Nodeupdown Unit
  | [] => pure ()
  | node :: nodes => do
    nodeupdownNotDiscoveredCheck node
    notDiscoveredChecks nodes

/-- The checks that a clusterlist module makes, whose values it ignores. -/
def runChecks : List (List Char) → Nodeupdown Unit
  | [], w => .ok (some (), w)
  | node :: nodes, w =>
    match nodeupdownNotDiscoveredCheck node w with
    | .error failure => .error failure
    | .ok (_, w) => runChecks nodes w

/-- `hostsfile_clusterlist_compare_to_clusterlist`. -/
def hostsfileClusterlistCompareToClusterlist : Nodeupdown Unit := do
  let hosts ← hostsfileHosts
  notDiscoveredChecks hosts

/-- `clusterlist_module_compare_to_clusterlist`. -/
def clusterlistModuleCompareToClusterlist : Nodeupdown Unit := fun w ↦
  match w.lib.clusterlist.info with
  | none => .ok (none, w.setErrnum .internal)
  | some .default => .ok (some (), w)
  | some .hostsfile => hostsfileClusterlistCompareToClusterlist w
  | some (.foreign info) =>
    let run := info.compareToClusterlist
    (runChecks run.checks >>= fun _ ↦ callModule run.reply >>= unlessNegative) w

/-- `default_clusterlist_get_numnodes`. -/
def defaultClusterlistGetNumnodes : Nodeupdown ℤ := do
  let up ← theNodes true
  let down ← theNodes false
  pure (toInt (hostlistCount up + hostlistCount down))

/-- `hostsfile_clusterlist_get_numnodes`. -/
def hostsfileClusterlistGetNumnodes : Nodeupdown ℤ := do
  let hosts ← hostsfileHosts
  pure (toInt hosts.length)

/-- `clusterlist_module_get_numnodes`. -/
def clusterlistModuleGetNumnodes : Nodeupdown ℤ := fun w ↦
  match w.lib.clusterlist.info with
  | none => .ok (none, w.setErrnum .internal)
  | some .default => defaultClusterlistGetNumnodes w
  | some .hostsfile => hostsfileClusterlistGetNumnodes w
  | some (.foreign info) => callModule info.getNumnodes w

end Whatsup
