import Whatsup.Hostlist.Iterator
import Whatsup.Hostlist.Print
import Whatsup.Nodeupdown.Load

/-!
# Queries on a loaded handle

The functions of `nodeupdown.c` that read a handle: whether a node is up or down, how many nodes
are, and which ones, as text and as a list. A query is an attempt that gives up where the source
returns `-1`. The lists of the handle may be rewritten by a search, so that a query, too, has a
world behind it.
-/

set_option autoImplicit false
set_option relaxedAutoImplicit false

namespace Whatsup

open CLib

/-- `_loaded_handle_error_check`. -/
def loadedHandleErrorCheck : Nodeupdown Unit := fun w ↦
  if w.handle.magic ≠ magicNum then .ok (none, w)
  else
    match w.handle.loadState with
    | .unloaded => .ok (none, w.setErrnum .notloaded)
    | .setup => .ok (none, w.setErrnum .internal)
    | .loaded => .ok (some (), w)

/-- `handle->errnum = NODEUPDOWN_ERR_SUCCESS`, and the value of the query. -/
def succeed {α : Type} (value : α) : Nodeupdown α := do
  Attempt.update (World.setErrnum .success)
  pure value

/-- The name under which `_is_node` looks a node up, if a clusterlist module was found. -/
def clusterNodename (node : List Char) : Nodeupdown (List Char) := do
  let rv ← clusterlistModuleIsNodeInCluster node
  if rv then clusterlistModuleGetNodename node else failWith .notfound

/-- The name under which `_is_node` looks a node up, if no clusterlist module was found. -/
def knownNodename (node : List Char) : Nodeupdown (List Char) := do
  let inUp ← findNode true node
  if 0 ≤ inUp then pure node
  else do
    let inDown ← findNode false node
    if 0 ≤ inDown then pure node else failWith .notfound

/-- The name under which `_is_node` looks a node up. -/
def queryNodename (node : List Char) : Nodeupdown (List Char) := fun w ↦
  if w.lib.clusterlistModuleFound ≠ 0 then clusterNodename node w else knownNodename node w

/-- `_is_node`: one or zero. -/
def isNode (up : Bool) (node : Option (List Char)) : Nodeupdown ℤ := do
  loadedHandleErrorCheck
  match node with
  | none => failWith .parameters
  | some node => do
    let nodename ← queryNodename node
    let temp ← findNode up nodename
    succeed (if temp ≠ -1 then 1 else 0)

/-- `_node_count`. -/
def nodeCount (up : Bool) : Nodeupdown ℤ := do
  loadedHandleErrorCheck
  let hl ← theNodes up
  succeed (hostlistCount hl)

/-- `_get_nodes_string`: the buffer behind a call that succeeds. -/
def getNodesString (up : Bool) (buf : Option (List Char)) (buflen : ℤ) :
    Nodeupdown (List Char) := do
  loadedHandleErrorCheck
  match buf with
  | none => failWith .parameters
  | some buf =>
    if buflen ≤ 0 then failWith .parameters
    else do
      let hl ← theNodes up
      match hostlistRangedString hl buflen.toNat buf with
      | none => Attempt.fault .nullPointer
      | some (len, buf) => if len < 0 then failWith .overflow else succeed buf

/-- The loop of `_get_nodes_list`: the names copied into the entries of the array from here on, of
which `none` is a NULL pointer. -/
def copyNodes (hl : Hostlist) : HostlistIterator → List (Option Unit) →
    Except Errnum (List (List Char))
  | i, entries =>
    match entries, hostlistNext hl i with
    | _, (none, _) => .ok []
    | [], (some _, _) => .error .overflow
    | none :: _, (some _, _) => .error .nullptr
    | some () :: entries, (some nodename, i) =>
      if 64 < nodename.length then .error .overflow
      else (copyNodes hl i entries).map (nodename :: ·)

/-- `_get_nodes_list`, for an array of which the first `len` entries are given: the names it copies,
whose number it returns. -/
def getNodesList (up : Bool) (list : Option (List (Option Unit))) :
    Nodeupdown (List (List Char)) := do
  loadedHandleErrorCheck
  match list with
  | none => failWith .parameters
  | some entries =>
    if entries.length = 0 then failWith .parameters
    else do
      let hl ← theNodes up
      match copyNodes hl hostlistIteratorCreate entries with
      | .error errnum => failWith errnum
      | .ok names => succeed names

/-- The last up time that the hash table of the handle holds for a node. -/
def findLastUpTime (node : List Char) : Nodeupdown ℕ := fun w ↦
  match w.handle.lastUpTimes with
  | none => .ok (none, w.setErrnum .notfound)
  | some table =>
    if table.buckets.all List.isEmpty then .ok (none, w.setErrnum .notsupported)
    else
      match hashFind hashKeyString table node with
      | none => .ok (none, w.setErrnum .notfound)
      | some time => succeed time w

/-- `nodeupdown_last_up_time`. -/
def lastUpTime (node : Option (List Char)) : Nodeupdown ℕ := do
  loadedHandleErrorCheck
  match node with
  | none => failWith .parameters
  | some node => findLastUpTime node

/-- `nodeupdown_nodelist_create`, whose allocations succeed: the number of entries of the new
array. -/
def nodelistCreate : Nodeupdown ℤ := do
  loadedHandleErrorCheck
  let numnodes ← Attempt.look fun w ↦ w.handle.numnodes
  succeed numnodes

end Whatsup
