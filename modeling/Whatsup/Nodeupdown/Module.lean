import Whatsup.Nodeupdown.Handle

/-!
# Finding and loading modules

The search of `nodeupdown_module.c` for a module in a directory, by its name or by the signature of
its name, and the functions that load and unload the three modules. A directory is the sequence of
its entries as `readdir` gives them, each with what comes of opening the file.

A candidate whose description is incomplete is refused after its pointers have been stored: the
pointers are NULL from then on, whatever they were.
-/

set_option autoImplicit false
set_option relaxedAutoImplicit false

namespace Whatsup

open CLib

/-! ### Directories -/

/-- A shared object: under each of the three symbols a description, an incomplete one, or
nothing. -/
structure SharedObject where
  backendModuleInfo : Option (Option BackendInfo)
  clusterlistModuleInfo : Option (Option ClusterlistInfo)
  configModuleInfo : Option (Option ConfigInfo)

/-- What comes of a file: `stat` fails, `lt_dlopen` fails, or it is opened. -/
inductive ModuleFile
  | gone
  | unloadable
  | opened (object : SharedObject)

/-- An entry of a directory. -/
structure DirEntry where
  dName : List Char
  file : ModuleFile

section

variable {ι : Type} (sym : SharedObject → Option (Option ι))

/-- `_load_module` with its callback: whether the module is loaded, and the pointers behind it. -/
def loadModule (entry : DirEntry) (slot : ModuleSlot ι) : Bool × ModuleSlot ι :=
  match entry.file with
  | .gone | .unloadable => (false, slot)
  | .opened object =>
    match sym object with
    | none => (false, slot)
    | some none => (false, .null)
    | some (some info) => (true, ⟨some entry.dName, some info⟩)

/-- The first of some candidates that is loaded. -/
def loadFirst : List DirEntry → ModuleSlot ι → Bool × ModuleSlot ι
  | [], slot => (false, slot)
  | entry :: entries, slot =>
    let loaded := loadModule sym entry slot
    if loaded.1 then loaded else loadFirst entries loaded.2

/-- `_find_known_module`: the entries with the names of the list, in the order of the list. -/
def findKnownModule (dir : Option (List DirEntry)) (modulesList : List (List Char))
    (slot : ModuleSlot ι) : Bool × ModuleSlot ι :=
  match dir with
  | none => (false, slot)
  | some entries =>
    loadFirst sym (modulesList.flatMap fun name ↦ entries.filter fun entry ↦
      entry.dName = name) slot

/-- Whether a file name starts with a signature and has `.so` from its first dot on. -/
def isUnknownModule (signature dName : List Char) : Bool :=
  signature.isPrefixOf dName && dName.dropWhile (· ≠ '.') = ".so".toList

/-- `_find_unknown_module`. -/
def findUnknownModule (dir : Option (List DirEntry)) (signature : List Char) (slot : ModuleSlot ι) :
    Bool × ModuleSlot ι :=
  match dir with
  | none => (false, slot)
  | some entries =>
    loadFirst sym (entries.filter fun entry ↦ isUnknownModule signature entry.dName) slot

/-- `_find_module`, in a build with or without assertions. `buildDir` is
`NODEUPDOWN_MODULE_BUILDDIR "/.libs"`. -/
def findModule (ndebug : Bool) (buildDir moduleDir : Option (List DirEntry))
    (modulesList : List (List Char)) (signature : List Char) (slot : ModuleSlot ι) :
    Bool × ModuleSlot ι :=
  let built := if ndebug then (false, slot) else findKnownModule sym buildDir modulesList slot
  if built.1 then built
  else
    let known := findKnownModule sym moduleDir modulesList built.2
    if known.1 then known else findUnknownModule sym moduleDir signature known.2

/-! ### What a search can find -/

/-- What is offered under a symbol by the files of some entries has a property. -/
def Offer (P : ι → Prop) (entries : List DirEntry) : Prop :=
  ∀ entry ∈ entries, ∀ object info, entry.file = .opened object →
    sym object = some (some info) → P info

variable {sym} {P : ι → Prop}

theorem loadModule_info {entry : DirEntry} {slot : ModuleSlot ι}
    (hentry : ∀ object info, entry.file = .opened object → sym object = some (some info) → P info)
    (hslot : ∀ info, slot.info = some info → P info) :
    ∀ info, (loadModule sym entry slot).2.info = some info → P info := by
  unfold loadModule
  split
  · exact hslot
  · exact hslot
  · rename_i object hfile
    split
    · exact hslot
    · rintro _ ⟨⟩
    · rename_i hsym
      rintro _ ⟨⟩
      exact hentry object _ hfile hsym

/-- The entries that are tried are tried one after another, each with the pointers that the last one
left. -/
theorem loadFirst_info {entries : List DirEntry} (hentries : Offer sym P entries)
    {slot : ModuleSlot ι}
    (hslot : ∀ info, slot.info = some info → P info) :
    ∀ info, (loadFirst sym entries slot).2.info = some info → P info := by
  induction entries generalizing slot with
  | nil => exact hslot
  | cons entry entries ih =>
    have hloaded := loadModule_info (hentries entry List.mem_cons_self) hslot
    simp only [loadFirst]
    split_ifs
    · exact hloaded
    · exact ih (fun entry hmem ↦ hentries entry (List.mem_cons_of_mem _ hmem)) hloaded

theorem findKnownModule_info {dir : Option (List DirEntry)} {modulesList : List (List Char)}
    (hdir : Offer sym P (dir.getD [])) {slot : ModuleSlot ι}
    (hslot : ∀ info, slot.info = some info → P info) :
    ∀ info, (findKnownModule sym dir modulesList slot).2.info = some info → P info := by
  unfold findKnownModule
  split
  · exact hslot
  · refine loadFirst_info (fun entry hmem ↦ ?_) hslot
    obtain ⟨name, -, hmem⟩ := List.mem_flatMap.mp hmem
    exact hdir entry (List.mem_of_mem_filter hmem)

theorem findUnknownModule_info {dir : Option (List DirEntry)} {signature : List Char}
    (hdir : Offer sym P (dir.getD [])) {slot : ModuleSlot ι}
    (hslot : ∀ info, slot.info = some info → P info) :
    ∀ info, (findUnknownModule sym dir signature slot).2.info = some info → P info := by
  unfold findUnknownModule
  split
  · exact hslot
  · exact loadFirst_info (fun entry hmem ↦ hdir entry (List.mem_of_mem_filter hmem)) hslot

/-- Assumes: a property of the module that the pointers describe, if any, and of all modules in the
two directories. The module that is found has it, too, and so has one whose pointers are left
behind. -/
theorem findModule_info (ndebug : Bool) {buildDir moduleDir : Option (List DirEntry)}
    (modulesList : List (List Char)) (signature : List Char)
    (hbuild : Offer sym P (buildDir.getD []))
    (hmodule : Offer sym P (moduleDir.getD [])) {slot : ModuleSlot ι}
    (hslot : ∀ info, slot.info = some info → P info) :
    ∀ info, (findModule sym ndebug buildDir moduleDir modulesList signature slot).2.info =
      some info →
      P info := by
  have hbuilt : ∀ info, (if ndebug then (false, slot) else
      findKnownModule sym buildDir modulesList slot).2.info = some info → P info := by
    split_ifs
    · exact hslot
    · exact findKnownModule_info hbuild hslot
  simp only [findModule]
  generalize (if ndebug then (false, slot) else findKnownModule sym buildDir modulesList slot) =
    built at hbuilt ⊢
  have hknown : ∀ info, (findKnownModule sym moduleDir modulesList built.2).2.info =
      some info → P info :=
    findKnownModule_info hmodule hbuilt
  split_ifs
  · exact hbuilt
  · exact hknown
  · exact findUnknownModule_info hmodule hknown

end

/-! ### The environment of a load -/

/-- What `conffile_parse` of the configuration file comes to. -/
inductive ConffileResult
  | parsed (config : NodeupdownConfig)
  | missing
  | parseError
  | outmem
  | failed

/-- What `open` of the hostsfile comes to: what can be read from it, that it does not exist, or an
error. -/
inductive HostsfileOpen
  | opened (events : List ReadEvent)
  | missing
  | failed

/-- What the system gives a load. -/
structure LoadEnv where
  /-- The library is built with `NDEBUG`. -/
  ndebug : Bool
  /-- `lt_dlinit` succeeds. -/
  ltDlinit : Bool
  conffile : ConffileResult
  buildDir : Option (List DirEntry)
  moduleDir : Option (List DirEntry)
  hostsfile : HostsfileOpen
  /-- The allocations of the two lists and of the hash table succeed. -/
  allocations : Bool × Bool × Bool
  qsort : List HostRange → List HostRange
  /-- A bound on the rounds of a sort. -/
  rounds : ℕ

/-! ### The three modules -/

/-- The world with another library. -/
def World.setLib (lib : Library) (w : World) : World :=
  { w with lib := lib }

/-- `snprintf(modulebuf, 1024, "nodeupdown_%s_%s.so", ...)`, if the name fits. -/
def moduleFileName (signature module : List Char) : Option (List Char) :=
  let name := signature ++ module ++ ".so".toList
  if name.length < 1024 then some name else none

/-- `backend_modules`. -/
def backendModules : List (List Char) :=
  ["nodeupdown_backend_cerebro.so".toList, "nodeupdown_backend_ganglia.so".toList,
    "nodeupdown_backend_pingd.so".toList]

/-- `clusterlist_modules`. -/
def clusterlistModules : List (List Char) :=
  ["nodeupdown_clusterlist_gendersllnl.so".toList, "nodeupdown_clusterlist_genders.so".toList,
    "nodeupdown_clusterlist_hostsfile.so".toList]

/-- `config_modules`. -/
def configModules : List (List Char) :=
  ["nodeupdown_config_chaos.so".toList]

/-- `BACKEND_MODULE_SIGNATURE`. -/
def backendModuleSignature : List Char := "nodeupdown_backend_".toList

/-- `CLUSTERLIST_MODULE_SIGNATURE`. -/
def clusterlistModuleSignature : List Char := "nodeupdown_clusterlist_".toList

/-- `CONFIG_MODULE_SIGNATURE`. -/
def configModuleSignature : List Char := "nodeupdown_config_".toList

/-- The file names that are searched for: that of the module asked for, if it fits its buffer, or
the known ones. -/
def moduleNames (known : List (List Char)) (signature : List Char) :
    Option (List Char) → Option (List (List Char))
  | none => some known
  | some module => (moduleFileName signature module).map ([·])

/-- `backend_module_load`. -/
def backendModuleLoad (env : LoadEnv) (module : Option (List Char)) : Nodeupdown Unit := fun w ↦
  match moduleNames backendModules backendModuleSignature module with
  | none => .ok (none, w.setErrnum .backendModule)
  | some names =>
    let found :=
      findModule SharedObject.backendModuleInfo env.ndebug env.buildDir env.moduleDir names
      backendModuleSignature w.lib.backend
    let w := w.setLib { w.lib with backend := found.2 }
    if found.1 then .ok (some (), w) else .ok (none, w.setErrnum .backendModule)

/-- `clusterlist_module_load`. Without a name the default module takes the place of one that is not
found. -/
def clusterlistModuleLoad (env : LoadEnv) (module : Option (List Char)) : Nodeupdown Unit := fun w ↦
  match moduleNames clusterlistModules clusterlistModuleSignature module with
  | none => .ok (none, w.setErrnum .clusterlistModule)
  | some names =>
    let found :=
      findModule SharedObject.clusterlistModuleInfo env.ndebug env.buildDir env.moduleDir names
      clusterlistModuleSignature w.lib.clusterlist
    if found.1 then
      .ok (some (), w.setLib
        { w.lib with
          clusterlist := found.2
          clusterlistModuleFound := w.lib.clusterlistModuleFound + 1 })
    else if module.isSome then
      .ok (none, (w.setLib { w.lib with clusterlist := found.2 }).setErrnum .clusterlistModule)
    else
      .ok (some (), w.setLib
        { w.lib with clusterlist := { found.2 with info := some .default } })

/-- `config_module_load`. -/
def configModuleLoad (env : LoadEnv) : Nodeupdown Unit := fun w ↦
  let found := findModule SharedObject.configModuleInfo env.ndebug env.buildDir env.moduleDir
    configModules configModuleSignature w.lib.config
  if found.1 then .ok (some (), w.setLib { w.lib with config := found.2 })
  else
    .ok (some (), w.setLib
      { w.lib with config := { found.2 with info := some defaultConfigModuleInfo } })

/-- A function of the backend, which is an internal error without a backend. -/
def withBackend {α : Type} (reply : BackendInfo → Reply α) : Nodeupdown α := fun w ↦
  match w.lib.backend.info with
  | none => .ok (none, w.setErrnum .internal)
  | some info => callModule (reply info) w

/-- A function of the config module, which is an internal error without one. -/
def withConfig {α : Type} (reply : ConfigInfo → Reply α) : Nodeupdown α := fun w ↦
  match w.lib.config.info with
  | none => .ok (none, w.setErrnum .internal)
  | some info => callModule (reply info) w

/-- `backend_module_setup`. -/
def backendModuleSetup : Nodeupdown Unit :=
  withBackend BackendInfo.setup >>= unlessNegative

/-- `config_module_setup`. -/
def configModuleSetup : Nodeupdown Unit :=
  withConfig ConfigInfo.setup >>= unlessNegative

/-- `config_module_load_config`, and the configuration that is filled in. -/
def configModuleLoadConfig : Nodeupdown NodeupdownConfig := do
  withConfig ConfigInfo.loadConfig >>= unlessNegative
  withConfig fun info ↦ ⟨info.config, none⟩

end Whatsup
