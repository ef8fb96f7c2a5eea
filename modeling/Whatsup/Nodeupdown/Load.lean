import Whatsup.Nodeupdown.Devel

/-!
# Loading data into a handle

`nodeupdown_load_data`, `_free_handle_data` and the functions that create and destroy handles. The
body of `nodeupdown_load_data` behind the entry check is `loadBody`, an attempt that gives up where
the source jumps to its cleanup.

A process has handles at addresses. Address none is the NULL pointer, and an address without a
handle is memory that the process does not own: using either is a fault. A handle with a wrong magic
number is memory that can be read and written, but is no handle.
-/

set_option autoImplicit false
set_option relaxedAutoImplicit false

namespace Whatsup

open CLib

/-! ### The parts of a load -/

/-- The arguments of `nodeupdown_load_data`. -/
structure LoadArgs where
  hostname : Option (List Char)
  port : ℤ
  timeoutLen : ℤ
  module : Option (List Char)

/-- Give up with an error number. -/
def failWith {α : Type} (errnum : Errnum) : Nodeupdown α :=
  Attempt.giveUp (World.setErrnum errnum)

/-- `lt_dlinit`, noted in the handle. -/
def initializeLtdl (env : LoadEnv) : Nodeupdown Unit := fun w ↦
  if env.ltDlinit then
    .ok (some (),
      { w with
        lib := { w.lib with ltdlCount := w.lib.ltdlCount + 1 }
        handle := { w.handle with ltdlInitialized := true } })
  else .ok (none, w.setErrnum .internal)

/-- `_read_conffile`. A file that does not exist is no error. -/
def readConffile (env : LoadEnv) : Nodeupdown NodeupdownConfig :=
  match env.conffile with
  | .parsed config => pure config
  | .missing => pure noConfig
  | .parseError => failWith .confParse
  | .outmem => failWith .outmem
  | .failed => failWith .confInternal

/-- The lists and the hash table of the handle, each of which may fail to be allocated. -/
def allocateNodes (env : LoadEnv) : Nodeupdown Unit := fun w ↦
  if ¬env.allocations.1 then .ok (none, w.setErrnum .outmem)
  else
    let w := { w with handle := { w.handle with upNodes := some hostlistNew } }
    if ¬env.allocations.2.1 then .ok (none, w.setErrnum .outmem)
    else
      let w := { w with handle := { w.handle with downNodes := some hostlistNew } }
      if ¬env.allocations.2.2 then .ok (none, w.setErrnum .outmem)
      else
        .ok (some (),
          { w with
            handle :=
              { w.handle with lastUpTimes := some (hashCreate 2048), loadState := .setup } })

/-- A configured value, if it is set: it must be positive. -/
def configured (flag : Bool) (value : ℤ) (errnum : Errnum) (otherwise : Nodeupdown ℤ) :
    Nodeupdown ℤ :=
  if flag then if value ≤ 0 then failWith errnum else pure value else otherwise

/-- `backend_module_default_port`, which must be positive. -/
def defaultPort : Nodeupdown ℤ := fun w ↦
  match w.lib.backend.info with
  | none => .ok (none, w.setErrnum .backendModule)
  | some info =>
    let w := w.noteErrnum info.defaultPort.errnum
    if info.defaultPort.value ≤ 0 then .ok (none, w.setErrnum .backendModule)
    else .ok (some info.defaultPort.value, w)

/-- `backend_module_default_timeout_len`, which must not be negative. -/
def defaultTimeoutLen : Nodeupdown ℤ := fun w ↦
  match w.lib.backend.info with
  | none => .ok (none, w.setErrnum .backendModule)
  | some info =>
    let w := w.noteErrnum info.defaultTimeoutLen.errnum
    if info.defaultTimeoutLen.value < 0 then .ok (none, w.setErrnum .backendModule)
    else .ok (some info.defaultTimeoutLen.value, w)

/-- The port: the argument, the configuration file, the config module or the backend. -/
def resolvePort (conffile module : NodeupdownConfig) (port : ℤ) : Nodeupdown ℤ :=
  if port ≤ 0 then
    configured conffile.portFlag conffile.port .confInput
      (configured module.portFlag module.port .configModule defaultPort)
  else pure port

/-- The timeout: the argument, the configuration file, the config module or the backend. -/
def resolveTimeoutLen (conffile module : NodeupdownConfig) (timeoutLen : ℤ) : Nodeupdown ℤ :=
  if timeoutLen ≤ 0 then
    configured conffile.timeoutLenFlag conffile.timeoutLen .confInput
      (configured module.timeoutLenFlag module.timeoutLen .configModule defaultTimeoutLen)
  else pure timeoutLen

/-- The loop over configured host names: the first server from which data can be had ends it. A
server that fails is passed with whatever it has added to the lists. -/
def tryHostnames (port timeoutLen : ℤ) (reserved : Option (List Char)) :
    ℕ → List (List Char) → Nodeupdown Unit
  | _, [], w => .ok (none, w.setErrnum .connect)
  | attempt, hostname :: hostnames, w =>
    if hostname = [] then tryHostnames port timeoutLen reserved (attempt + 1) hostnames w
    else
      match backendModuleGetUpdownData attempt hostname port timeoutLen reserved w with
      | .error failure => .error failure
      | .ok (some (), w) => .ok (some (), w)
      | .ok (none, w) => tryHostnames port timeoutLen reserved (attempt + 1) hostnames w

/-- `backend_module_default_hostname`, which must not be NULL. -/
def defaultHostname : Nodeupdown (List Char) :=
  withBackend BackendInfo.defaultHostname >>= fun
    | none => Attempt.giveUp id
    | some hostname => pure hostname

/-- The data of the one or more servers. -/
def getUpdownData (args : LoadArgs) (conffile module : NodeupdownConfig) (port timeoutLen : ℤ) :
    Nodeupdown Unit :=
  match args.hostname with
  | some hostname => backendModuleGetUpdownData 0 hostname port timeoutLen args.module
  | none =>
    if conffile.hostnamesFlag then tryHostnames port timeoutLen args.module 0 conffile.hostnames
    else if module.hostnamesFlag then tryHostnames port timeoutLen args.module 0 module.hostnames
    else do
      let hostname ← defaultHostname
      backendModuleGetUpdownData 0 hostname port timeoutLen args.module

/-- `hostlist_sort` of a list of the handle. -/
def sortNodes (env : LoadEnv) (up : Bool) : Nodeupdown Unit := do
  let hl ← theNodes up
  match hostlistSort env.ndebug env.qsort env.rounds hl with
  | none => Attempt.fault .endless
  | some (.error failure) => Attempt.fault (.sort failure)
  | some (.ok hl) => Attempt.update (World.setNodes up hl)

/-- The number of nodes, kept in the handle, which must not be negative. -/
def countNodes : Nodeupdown Unit := do
  let numnodes ← clusterlistModuleGetNumnodes
  Attempt.update fun w ↦ { w with handle := { w.handle with numnodes := numnodes } }
  unlessNegative numnodes

/-- The first part of a load: configuration, modules and allocations. -/
def loadModules (env : LoadEnv) (args : LoadArgs) :
    Nodeupdown (NodeupdownConfig × NodeupdownConfig) := do
  let conffile ← readConffile env
  backendModuleLoad env args.module
  backendModuleSetup
  let preferred ← withBackend BackendInfo.preferredClusterlistModule
  clusterlistModuleLoad env preferred
  clusterlistModuleSetup env
  configModuleLoad env
  configModuleSetup
  let module ← configModuleLoadConfig
  allocateNodes env
  pure (conffile, module)

/-- The second part of a load: what the backend reports, and the nodes it does not report. -/
def loadNodes (args : LoadArgs) (conffile module : NodeupdownConfig) : Nodeupdown Unit := do
  let port ← resolvePort conffile module args.port
  let timeoutLen ← resolveTimeoutLen conffile module args.timeoutLen
  getUpdownData args conffile module port timeoutLen
  clusterlistModuleCompareToClusterlist

/-- The last part of a load: the sorts and the number of nodes. -/
def finishLoad (env : LoadEnv) : Nodeupdown Unit := do
  sortNodes env true
  sortNodes env false
  countNodes
  Attempt.update fun w ↦
    { w with handle := { w.handle with loadState := .loaded, errnum := .success } }

/-- `nodeupdown_load_data`, from the entry check up to the cleanup. -/
def loadBody (env : LoadEnv) (args : LoadArgs) : Nodeupdown Unit := do
  initializeLtdl env
  let configs ← loadModules env args
  loadNodes args configs.1 configs.2
  finishLoad env

/-! ### The cleanup -/

/-- The value of the cleanup function of a module, which is ignored: the error number it sets. -/
def cleanupErrnum {ι : Type} (slot : ModuleSlot ι) (cleanup : ι → Option Errnum) : Option Errnum :=
  slot.info.bind cleanup

/-- What the cleanup of a clusterlist module sets. -/
def ClusterlistInfo.cleanupErrnum : ClusterlistInfo → Option Errnum
  | .foreign info => info.cleanup.errnum
  | _ => none

/-- The list `hosts` behind the cleanup of the clusterlist module. -/
def hostsAfterCleanup (lib : Library) : Option (List (List Char)) :=
  match lib.clusterlist.info with
  | some .hostsfile => none
  | _ => lib.hosts

/-- `_free_handle_data`, for a handle that can be used. -/
def freeHandleData (w : World) : World :=
  let w := w.noteErrnum (cleanupErrnum w.lib.backend fun info ↦ info.cleanup.errnum)
  let w := w.setLib { w.lib with backend := .null }
  let w := w.noteErrnum (cleanupErrnum w.lib.clusterlist ClusterlistInfo.cleanupErrnum)
  let w := w.setLib
    { w.lib with hosts := hostsAfterCleanup w.lib, clusterlist := .null, clusterlistModuleFound := 0
      }
  let w := w.noteErrnum (cleanupErrnum w.lib.config fun info ↦ info.cleanup.errnum)
  let w := w.setLib
    { w.lib with
      config := .null
      ltdlCount := if w.handle.ltdlInitialized then w.lib.ltdlCount - 1 else w.lib.ltdlCount }
  { w with handle := initializeHandle w.handle }

/-! ### Processes -/

/-- A process: the library and the handles at their addresses. -/
structure Process where
  lib : Library
  handles : ℕ → Option Handle

/-- The process as it starts. -/
def Process.start : Process :=
  ⟨.unused, fun _ ↦ none⟩

/-- The process behind a call that worked on the handle at an address. -/
def Process.put (process : Process) (address : ℕ) (w : World) : Process :=
  { lib := w.lib, handles := Function.update process.handles address (some w.handle) }

@[simp]
theorem Process.lib_put (process : Process) (address : ℕ) (w : World) :
    (process.put address w).lib = w.lib := rfl

@[simp]
theorem Process.handles_put_self (process : Process) (address : ℕ) (w : World) :
    (process.put address w).handles address = some w.handle :=
  Function.update_self _ _ _

/-- What a call on the handle at an address works on. -/
def Process.world (process : Process) (handle : Handle) : World :=
  { lib := process.lib, handle := handle, reports := [] }

/-- A handle that `nodeupdown_handle_create` makes. -/
def newHandle : Handle :=
  ⟨magicNum, .success, .unloaded, false, none, none, none, 0⟩

/-- `nodeupdown_handle_create`, at the address that `malloc` gives, if it gives one. Memory that is
in use is not given. -/
def nodeupdownHandleCreate (address : Option ℕ) (process : Process) : Option ℕ × Process :=
  match address with
  | none => (none, process)
  | some address =>
    if (process.handles address).isSome then (none, process)
    else
      (some address,
        { process with handles := Function.update process.handles address (some newHandle) })

/-- `_unloaded_handle_error_check`, for a handle: whether it passes, and its error number. -/
def unloadedHandleErrorCheck (handle : Handle) : Bool × Handle :=
  if handle.magic ≠ magicNum then (false, handle)
  else
    match handle.loadState with
    | .loaded => (false, { handle with errnum := .isloaded })
    | .setup => (false, { handle with errnum := .internal })
    | .unloaded => (true, handle)

/-- `nodeupdown_load_data` on a world whose handle can be used: its value, and the world behind it.
The entry check, too, is followed by the cleanup if it fails. -/
def loadData (env : LoadEnv) (args : LoadArgs) (w : World) : Except LibFault (ℤ × World) :=
  let check := unloadedHandleErrorCheck w.handle
  let w := { w with handle := check.2 }
  if ¬check.1 then .ok (-1, freeHandleData w)
  else
    match loadBody env args w with
    | .error failure => .error failure
    | .ok (none, w) => .ok (-1, freeHandleData w)
    | .ok (some (), w) => .ok (0, w)

/-- `nodeupdown_load_data`. The entry check turns the NULL pointer away without using it, but the
cleanup that follows uses it. -/
def nodeupdownLoadData (env : LoadEnv) (args : LoadArgs) (pointer : Option ℕ) (process : Process) :
    Except LibFault (ℤ × Process) :=
  match pointer with
  | none => .error .nullPointer
  | some address =>
    match process.handles address with
    | none => .error .nullPointer
    | some handle =>
      (loadData env args (process.world handle)).map fun result ↦
        (result.1, process.put address result.2)

/-- `nodeupdown_handle_destroy`. The handle is freed. -/
def nodeupdownHandleDestroy (pointer : Option ℕ) (process : Process) :
    Except LibFault (ℤ × Process) :=
  match pointer with
  | none => .ok (-1, process)
  | some address =>
    match process.handles address with
    | none => .error .nullPointer
    | some handle =>
      if handle.magic ≠ magicNum then .ok (-1, process)
      else
        .ok (0,
          { lib := (freeHandleData (process.world handle)).lib
            handles := Function.update process.handles address none })

end Whatsup
