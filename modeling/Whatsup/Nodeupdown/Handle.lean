import Whatsup.CLib.HashTable
import Whatsup.CLib.Outcome
import Whatsup.Hostlist.Sort
import Whatsup.Nodeupdown.BackendPingd

/-!
# Handles and modules of libnodeupdown

The data of libnodeupdown: the handle, the functions that its modules offer, and the module
pointers, which `nodeupdown_module.c` keeps once for the whole process.

A module outside the sources is a record of what its functions return; what such a function does to
the handle is to set its error number. The value of a function and the number it sets are a `Reply`.
The default and the hostsfile clusterlist modules are not such records: their functions are modelled
on their own. A `World` is what a function of the library works on, the process and one handle.
-/

set_option autoImplicit false
set_option relaxedAutoImplicit false

namespace Whatsup

open CLib

/-! ### The handle -/

/-- The error codes of nodeupdown.h. -/
inductive Errnum
  | success
  | nullhandle
  | connect
  | connectTimeout
  | hostname
  | isloaded
  | notloaded
  | overflow
  | parameters
  | nullptr
  | outmem
  | notfound
  | notsupported
  | backendModule
  | clusterlistModule
  | configModule
  | confParse
  | confInput
  | confInternal
  | magic
  | internal
  | errnumrange
deriving DecidableEq

/-- The load states of a handle. -/
inductive LoadState
  | unloaded
  | setup
  | loaded
deriving DecidableEq

/-- `struct nodeupdown`. -/
structure Handle where
  magic : ℕ
  errnum : Errnum
  loadState : LoadState
  ltdlInitialized : Bool
  upNodes : Option Hostlist
  downNodes : Option Hostlist
  lastUpTimes : Option (HashTable (List Char) ℕ)
  numnodes : ℤ

/-- `NODEUPDOWN_MAGIC_NUM`. -/
def magicNum : ℕ := 0xfeedbeef

/-- `_initialize_handle`. -/
def initializeHandle (handle : Handle) : Handle :=
  { handle with
    magic := magicNum
    loadState := .unloaded
    ltdlInitialized := false
    upNodes := none
    downNodes := none
    lastUpTimes := none
    numnodes := 0 }

/-- A handle with its error number left out. -/
def Handle.forgetErrnum (handle : Handle) : Handle :=
  { handle with errnum := .success }

/-! ### Modules -/

/-- What a function of a module does: its value, and the error number it sets, if it sets one. -/
structure Reply (α : Type) where
  value : α
  errnum : Option Errnum

/-- What `get_updown_data` of a backend does: the calls it makes, and how it ends. -/
structure BackendRun where
  calls : List BackendCall
  reply : Reply ℤ

/-- `struct nodeupdown_backend_module_info`. What `get_updown_data` finds may differ from call to
call, so it is given the number of the call within a load, besides the host name, the port, the
timeout and the name of the module. -/
structure BackendInfo where
  backendModuleName : List Char
  defaultHostname : Reply (Option (List Char))
  defaultPort : Reply ℤ
  defaultTimeoutLen : Reply ℤ
  preferredClusterlistModule : Reply (Option (List Char))
  setup : Reply ℤ
  cleanup : Reply ℤ
  getUpdownData : ℕ → List Char → ℤ → ℤ → Option (List Char) → BackendRun

/-- What `compare_to_clusterlist` of a clusterlist module does: the nodes it checks with
`nodeupdown_not_discovered_check`, and how it ends. -/
structure ClusterlistRun where
  checks : List (List Char)
  reply : Reply ℤ

/-- A clusterlist module that is not part of the sources. -/
structure ForeignClusterlist where
  clusterlistModuleName : List Char
  setup : Reply ℤ
  cleanup : Reply ℤ
  getNumnodes : Reply ℤ
  isNodeInCluster : List Char → Reply ℤ
  getNodename : List Char → Reply (Option (List Char))
  compareToClusterlist : ClusterlistRun

/-- `struct nodeupdown_clusterlist_module_info`: the module it describes. -/
inductive ClusterlistInfo
  | default
  | hostsfile
  | foreign (info : ForeignClusterlist)

/-- `struct nodeupdown_config`. -/
structure NodeupdownConfig where
  hostnames : List (List Char)
  hostnamesFlag : Bool
  port : ℤ
  portFlag : Bool
  timeoutLen : ℤ
  timeoutLenFlag : Bool

/-- A `struct nodeupdown_config` that is zeroed. -/
def noConfig : NodeupdownConfig :=
  ⟨[], false, 0, false, 0, false⟩

/-- `struct nodeupdown_config_module_info`. -/
structure ConfigInfo where
  configModuleName : List Char
  setup : Reply ℤ
  cleanup : Reply ℤ
  loadConfig : Reply ℤ
  config : NodeupdownConfig

/-- `default_config_module_info`. -/
def defaultConfigModuleInfo : ConfigInfo :=
  ⟨"default".toList, ⟨0, none⟩, ⟨0, none⟩, ⟨0, none⟩, noConfig⟩

/-- The two pointers to a module: its handle, which is the name of its file, and its description. -/
structure ModuleSlot (ι : Type) where
  dlHandle : Option (List Char)
  info : Option ι

/-- Pointers that are NULL. -/
def ModuleSlot.null {ι : Type} : ModuleSlot ι :=
  ⟨none, none⟩

/-! ### The process -/

/-- What the process keeps outside its handles: the static variables of `nodeupdown_module.c`, the
list `hosts` of the hostsfile module, and how often libltdl has been initialized. -/
structure Library where
  backend : ModuleSlot BackendInfo
  clusterlist : ModuleSlot ClusterlistInfo
  config : ModuleSlot ConfigInfo
  clusterlistModuleFound : ℕ
  hosts : Option (List (List Char))
  ltdlCount : ℕ

/-- A process in which nothing is loaded. -/
def Library.unused : Library :=
  ⟨.null, .null, .null, 0, none, 0⟩

/-- What a function of the library works on. `reports` are the calls that the backend has made in
the load that is under way: no function reads them. -/
structure World where
  lib : Library
  handle : Handle
  reports : List BackendCall

/-- Ways in which a call does not return: undefined behaviour, a failed assertion, or a loop that
does not end. -/
inductive LibFault
  | nullPointer
  | sort (failure : SortFault)
  | endless
  | overflow

/-- A function of the library that returns, as its cleanup, with a negative value gives up. -/
abbrev Nodeupdown (α : Type) : Type :=
  Attempt LibFault World α

/-- The world with another error number in its handle. -/
def World.setErrnum (errnum : Errnum) (w : World) : World :=
  { w with handle := { w.handle with errnum := errnum } }

/-- The world behind a function of a module that sets an error number, or none.
`nodeupdown_set_errnum` leaves memory that is no handle as it is. -/
def World.noteErrnum (w : World) : Option Errnum → World
  | none => w
  | some errnum => if w.handle.magic = magicNum then w.setErrnum errnum else w

/-- The call of a function of a module: its value, with the error number it sets. -/
def callModule {α : Type} (reply : Reply α) : Nodeupdown α :=
  fun w ↦ .ok (some reply.value, w.noteErrnum reply.errnum)

/-- A negative value of a function of a module is given up on. -/
def unlessNegative (value : ℤ) : Nodeupdown Unit :=
  if value < 0 then Attempt.giveUp id else pure ()

end Whatsup
