import Whatsup.Nodeupdown.Preserved

/-!
# What a load leaves behind

A load that fails is undone by `_free_handle_data`. `World.frame` is what the cleanup depends on:
the magic number of the handle, who has initialized libltdl, and whether the list of the hostsfile
module belongs to the module that is loaded. Every part of a load but the first ones leaves it as it
is, so that the cleanup ends in a process in which nothing is loaded (`freeHandleData_sound`), and a
load of a fresh handle either loads it or leaves nothing behind (`loadData_fresh`).
-/

set_option autoImplicit false
set_option relaxedAutoImplicit false

namespace Whatsup

open CLib

/-! ### The frame of a world -/

/-- What no call of a backend and no check of a clusterlist module changes: the process, and who the
handle belongs to. -/
def World.frame (w : World) : Library × ℕ × Bool × LoadState :=
  (w.lib, w.handle.magic, w.handle.ltdlInitialized, w.handle.loadState)

@[simp]
theorem frame_setErrnum (errnum : Errnum) (w : World) : (w.setErrnum errnum).frame = w.frame := rfl

@[simp]
theorem frame_noteErrnum (w : World) (errnum : Option Errnum) : (w.noteErrnum errnum).frame =
    w.frame := by
  unfold World.noteErrnum
  split
  · rfl
  · split_ifs <;> rfl

@[simp]
theorem frame_setNodes (up : Bool) (hl : Hostlist) (w : World) : (w.setNodes up hl).frame =
    w.frame := by
  cases up <;> rfl

/-! ### Modules -/

/-- What the cleanup of a handle depends on: the magic number of the handle, who has initialized
libltdl, and whether the list of the hostsfile module belongs to the module that is loaded. -/
def World.core (w : World) : ℕ × Bool × ℕ × Option (List (List Char)) × Option ClusterlistInfo :=
  (w.handle.magic, w.handle.ltdlInitialized, w.lib.ltdlCount, w.lib.hosts, w.lib.clusterlist.info)

theorem core_setErrnum (errnum : Errnum) (w : World) : (w.setErrnum errnum).core = w.core := rfl

theorem core_setNodes (up : Bool) (hl : Hostlist) (w : World) : (w.setNodes up hl).core =
    w.core := by
  cases up <;> rfl

/-- What leaves the frame as it is leaves the core as it is. -/
theorem core_of_frame {α : Type} {attempt : Nodeupdown α} (h : Preserves World.frame attempt) :
    Preserves World.core attempt :=
  h.comp fun frame ↦ (frame.2.1, frame.2.2.1, frame.1.ltdlCount, frame.1.hosts,
    frame.1.clusterlist.info)

theorem core_backendModuleLoad (env : LoadEnv) (module : Option (List Char)) :
    Preserves World.core (backendModuleLoad env module) := by
  intro w value w' h
  unfold backendModuleLoad at h
  split at h
  · obtain ⟨rfl, rfl⟩ := h
    rfl
  · simp only at h
    split_ifs at h <;> obtain ⟨rfl, rfl⟩ := h <;> rfl

theorem core_configModuleLoad (env : LoadEnv) : Preserves World.core (configModuleLoad env) := by
  intro w value w' h
  unfold configModuleLoad at h
  simp only at h
  split_ifs at h <;> obtain ⟨rfl, rfl⟩ := h <;> rfl

theorem core_allocateNodes (env : LoadEnv) : Preserves World.core (allocateNodes env) := by
  intro w value w' h
  unfold allocateNodes at h
  split_ifs at h <;> obtain ⟨rfl, rfl⟩ := h <;> rfl

/-- The loading of a clusterlist module leaves all but the module as it is. -/
theorem clusterlistModuleLoad_core {env : LoadEnv} {module : Option (List Char)} {w w' : World}
    {value : Option Unit} (h : clusterlistModuleLoad env module w = .ok (value, w')) :
    w'.handle.magic = w.handle.magic ∧ w'.handle.ltdlInitialized = w.handle.ltdlInitialized ∧
      w'.lib.ltdlCount = w.lib.ltdlCount ∧ w'.lib.hosts = w.lib.hosts := by
  unfold clusterlistModuleLoad at h
  split at h
  · obtain ⟨rfl, rfl⟩ := h
    exact ⟨rfl, rfl, rfl, rfl⟩
  · simp only at h
    split_ifs at h <;> obtain ⟨rfl, rfl⟩ := h <;> exact ⟨rfl, rfl, rfl, rfl⟩

/-! ### Nodes -/

theorem frame_backendCall (call : BackendCall) : Preserves World.frame call.run := by
  cases call with
  | addUpNode node => exact preserves_addNode frame_setNodes frame_setErrnum true node
  | addDownNode node => exact preserves_addNode frame_setNodes frame_setErrnum false node
  | addLastUpTime node time =>
    refine (preserves_setupHandleErrorCheck frame_setErrnum).bind fun _ ↦ fun w value w' h ↦ ?_
    unfold insertLastUpTime at h
    split at h
    · obtain ⟨rfl, rfl⟩ := h
      rfl
    · split at h <;> obtain ⟨rfl, rfl⟩ := h <;> rfl

theorem frame_getUpdownData (args : LoadArgs) (conffile module : NodeupdownConfig)
    (port timeoutLen : ℤ) :
    Preserves World.frame (getUpdownData args conffile module port timeoutLen) := by
  intro w value w' h
  have hnumber : NumberFree fun v ↦ v.frame = w.frame := fun _ _ ↦ rfl
  have hcalls : ∀ calls, Leads (fun v ↦ v.frame = w.frame) (fun v ↦ v.frame = w.frame)
      (runCalls calls) :=
    fun calls v value v' hv hrun ↦ (runCalls_keeps (P := fun v ↦ v.frame = w.frame)
      (fun call v v' value hv hrun ↦ (frame_backendCall call _ _ _ hrun).trans hv) calls hv hrun).1
  exact leads_getUpdownData hnumber hcalls args conffile module port timeoutLen w value w' rfl h

/-- What a backend reports and a clusterlist module checks leaves the frame as it is. -/
theorem frame_loadNodes (args : LoadArgs) (conffile module : NodeupdownConfig) :
    Preserves World.frame (loadNodes args conffile module) :=
  (preserves_resolvePort frame_setErrnum conffile module args.port).bind fun _ ↦
    (preserves_resolveTimeoutLen frame_setErrnum conffile module args.timeoutLen).bind fun _ ↦
      (frame_getUpdownData args conffile module _ _).bind fun _ ↦
        preserves_compareToClusterlist frame_setNodes frame_setErrnum

theorem frame_countNodes : Preserves World.frame countNodes := by
  refine (preserves_getNumnodes frame_setErrnum).bind fun numnodes ↦
      Preserves.bind (preserves_update ?_) fun _ ↦
    preserves_unlessNegative numnodes
  exact fun w ↦ rfl

/-! ### The cleanup -/

@[simp]
theorem lib_noteErrnum (w : World) (errnum : Option Errnum) : (w.noteErrnum errnum).lib = w.lib :=
  congrArg Prod.fst (frame_noteErrnum w errnum)

@[simp]
theorem forgetErrnum_noteErrnum (w : World) (errnum : Option Errnum) :
    (w.noteErrnum errnum).handle.forgetErrnum = w.handle.forgetErrnum := by
  unfold World.noteErrnum
  split
  · rfl
  · split_ifs <;> rfl

@[simp]
theorem ltdlInitialized_noteErrnum (w : World) (errnum : Option Errnum) :
    (w.noteErrnum errnum).handle.ltdlInitialized = w.handle.ltdlInitialized :=
  congrArg (fun frame ↦ frame.2.2.1) (frame_noteErrnum w errnum)

@[simp]
theorem lib_setLib (lib : Library) (w : World) : (w.setLib lib).lib = lib := rfl

@[simp]
theorem handle_setLib (lib : Library) (w : World) : (w.setLib lib).handle = w.handle := rfl

/-- An initialized handle is a new one but for its error number. -/
theorem forgetErrnum_initializeHandle (handle : Handle) :
    (initializeHandle handle).forgetErrnum = newHandle := rfl

/-- What holds of a world throughout a load: its handle is the only one that has initialized
libltdl, if it has, and the list of the hostsfile module is there only if this module is loaded. -/
structure World.Sound (w : World) : Prop where
  magic : w.handle.magic = magicNum
  ltdl : w.lib.ltdlCount = if w.handle.ltdlInitialized then 1 else 0
  hosts : w.lib.hosts ≠ none → w.lib.clusterlist.info = some .hostsfile

/-- Soundness depends on the core. -/
theorem World.Sound.of_core {w w' : World} (hcore : w'.core = w.core) (h : w.Sound) : w'.Sound := by
  unfold World.core at hcore
  simp only [Prod.mk.injEq] at hcore
  obtain ⟨hmagic, hltdl, hcount, hhosts, hinfo⟩ := hcore
  exact ⟨hmagic.trans h.magic, by rw [hcount, hltdl, h.ltdl], by rw [hhosts, hinfo]; exact h.hosts⟩

/-- The cleanup drops a list that belongs to the hostsfile module. -/
theorem hostsAfterCleanup_none {lib : Library}
    (h : lib.hosts ≠ none → lib.clusterlist.info = some .hostsfile) :
      hostsAfterCleanup lib = none := by
  unfold hostsAfterCleanup
  split
  · rfl
  · rename_i hinfo
    by_contra hne
    exact hinfo (h hne)

/-- The cleanup of a sound world leaves nothing loaded and a handle that is new but for its error
number. -/
theorem freeHandleData_sound {w : World} (h : w.Sound) :
    (freeHandleData w).lib = Library.unused ∧ (freeHandleData w).handle.forgetErrnum =
      newHandle := by
  refine ⟨?_, forgetErrnum_initializeHandle _⟩
  have hhosts : hostsAfterCleanup w.lib = none := hostsAfterCleanup_none h.hosts
  have hltdl := h.ltdl
  unfold freeHandleData
  simp only [lib_noteErrnum, lib_setLib, ltdlInitialized_noteErrnum, handle_setLib]
  have hcount : (if w.handle.ltdlInitialized = true then w.lib.ltdlCount - 1 else w.lib.ltdlCount) =
      0 := by
    split_ifs at hltdl ⊢ <;> omega
  rw [hcount]
  exact congrArg (fun hosts ↦ (⟨.null, .null, .null, 0, hosts, 0⟩ : Library)) hhosts

/-! ### A load of a fresh handle -/

/-- What holds of a world in a load until the clusterlist module is set up. -/
def World.Early (w : World) : Prop :=
  w.Sound ∧ w.lib.hosts = none ∧ w.handle.ltdlInitialized = true

/-- What holds of a world in a load from then on. -/
def World.Late (w : World) : Prop :=
  w.Sound ∧ w.handle.ltdlInitialized = true

theorem World.Early.late {w : World} (h : w.Early) : w.Late :=
  ⟨h.1, h.2.2⟩

/-- What leaves the core as it is keeps a world early. -/
theorem early_of_core {α : Type} {attempt : Nodeupdown α} (h : Preserves World.core attempt) :
    Leads World.Early World.Early attempt := by
  refine h.leads fun w w' hcore hw ↦ ⟨hw.1.of_core hcore, ?_, ?_⟩
  · exact (congrArg (fun core ↦ core.2.2.2.1) hcore).trans hw.2.1
  · exact (congrArg (fun core ↦ core.2.1) hcore).trans hw.2.2

/-- What leaves the core as it is keeps a world late. -/
theorem late_of_core {α : Type} {attempt : Nodeupdown α} (h : Preserves World.core attempt) :
    Leads World.Late World.Late attempt :=
  h.leads fun _ _ hcore hw ↦ ⟨hw.1.of_core hcore, (congrArg (fun core ↦ core.2.1) hcore).trans hw.2⟩

/-- Until then no list belongs to a module, so that any module may be loaded. -/
theorem early_clusterlistModuleLoad (env : LoadEnv) (module : Option (List Char)) :
    Leads World.Early World.Early (clusterlistModuleLoad env module) := by
  rintro w value w' ⟨hsound, hhosts, hltdl⟩ h
  obtain ⟨hmagic, hltdl', hcount, hhosts'⟩ := clusterlistModuleLoad_core h
  exact ⟨⟨hmagic.trans hsound.magic, by rw [hcount, hltdl', hsound.ltdl],
    fun hne ↦ absurd (hhosts'.trans hhosts) hne⟩, hhosts'.trans hhosts, hltdl'.trans hltdl⟩

/-- The list that the setup fills belongs to the hostsfile module. -/
theorem late_clusterlistModuleSetup (env : LoadEnv) :
    Leads World.Early World.Late (clusterlistModuleSetup env) := by
  rintro w value w' hearly h
  unfold clusterlistModuleSetup at h
  split at h
  · obtain ⟨rfl, rfl⟩ := h
    exact ⟨hearly.1.of_core (core_setErrnum _ w), hearly.2.2⟩
  · obtain ⟨rfl, rfl⟩ := h
    exact hearly.late
  · rename_i hinfo
    -- whatever comes of the file, the world is the old one but for the list and the error number
    have hfilled : ∀ hosts, (w.setLib { w.lib with hosts := some hosts }).Late := fun hosts ↦
      ⟨⟨hearly.1.magic, hearly.1.ltdl, fun _ ↦ hinfo⟩, hearly.2.2⟩
    have hset : ∀ (v : World) errnum, v.Late → (v.setErrnum errnum).Late := fun v errnum hv ↦
      ⟨hv.1.of_core (core_setErrnum errnum v), hv.2⟩
    unfold hostsfileClusterlistSetup at h
    simp only at h
    split at h
    · obtain ⟨rfl, rfl⟩ := h
      exact hfilled []
    · obtain ⟨rfl, rfl⟩ := h
      exact hset _ _ (hfilled [])
    · split_ifs at h <;> obtain ⟨rfl, rfl⟩ := h
      · exact hset _ _ (hfilled _)
      · exact hfilled _
      · exact hset _ _ (hfilled _)
      · exact hfilled _
  · exact late_of_core ((preserves_callModule core_setErrnum _).bind preserves_unlessNegative) w
      value w'
      hearly.late h

/-- A fresh handle in a process in which nothing is loaded. -/
structure World.Fresh (w : World) : Prop where
  lib : w.lib = Library.unused
  handle : w.handle.forgetErrnum = newHandle

/-- The first step of a load. -/
theorem initializeLtdl_fresh {env : LoadEnv} {w w' : World} {value : Option Unit} (h : w.Fresh)
    (hrun : initializeLtdl env w = .ok (value, w')) :
    (value = some () ∧ w'.Early) ∨ (value = none ∧ w'.Sound) := by
  have hmagic : w.handle.magic = magicNum := congrArg Handle.magic h.handle
  have hltdl : w.handle.ltdlInitialized = false := congrArg Handle.ltdlInitialized h.handle
  unfold initializeLtdl at hrun
  split_ifs at hrun <;> obtain ⟨rfl, rfl⟩ := hrun
  · refine Or.inl ⟨rfl, ⟨hmagic, ?_, ?_⟩, ?_, rfl⟩
    · simp [h.lib, Library.unused]
    · simp [h.lib, Library.unused]
    · simp [h.lib, Library.unused]
  · refine Or.inr ⟨rfl, hmagic, ?_, ?_⟩
    · simp [World.setErrnum, h.lib, hltdl, Library.unused]
    · simp [World.setErrnum, h.lib, Library.unused]

/-- The modules and allocations of a load. -/
theorem late_loadModules (env : LoadEnv) (args : LoadArgs) :
    Leads World.Early World.Late (loadModules env args) := by
  have hlate : ∀ {w : World}, w.Early → w.Late := fun h ↦ h.late
  refine (early_of_core (preserves_readConffile core_setErrnum env)).bind (fun _ ↦ hlate)
    fun conffile ↦ ?_
  refine (early_of_core (core_backendModuleLoad env args.module)).bind (fun _ ↦ hlate) fun _ ↦ ?_
  refine (early_of_core
    ((preserves_withBackend core_setErrnum _).bind preserves_unlessNegative)).bind
    (fun _ ↦ hlate) fun _ ↦ ?_
  refine (early_of_core (preserves_withBackend core_setErrnum _)).bind (fun _ ↦ hlate)
    fun preferred ↦ ?_
  refine (early_clusterlistModuleLoad env preferred).bind (fun _ ↦ hlate) fun _ ↦ ?_
  refine (late_clusterlistModuleSetup env).bind (fun _ ↦ id) fun _ ↦ ?_
  refine (late_of_core (core_configModuleLoad env)).bind (fun _ ↦ id) fun _ ↦ ?_
  refine (late_of_core ((preserves_withConfig core_setErrnum _).bind preserves_unlessNegative)).bind
    (fun _ ↦ id) fun _ ↦ ?_
  refine (late_of_core (preserves_configModuleLoadConfig core_setErrnum)).bind (fun _ ↦ id)
    fun module ↦ ?_
  exact (late_of_core (core_allocateNodes env)).bind (fun _ ↦ id) fun _ ↦
    late_of_core (preserves_pure _)

theorem late_finishLoad (env : LoadEnv) : Leads World.Late World.Late (finishLoad env) := by
  refine (late_of_core (preserves_sortNodes core_setNodes env true)).bind (fun _ ↦ id) fun _ ↦ ?_
  refine (late_of_core (preserves_sortNodes core_setNodes env false)).bind (fun _ ↦ id) fun _ ↦ ?_
  refine (late_of_core (core_of_frame frame_countNodes)).bind (fun _ ↦ id) fun _ ↦ ?_
  exact late_of_core (preserves_update fun w ↦ rfl)

/-- A load that ends well leaves its handle loaded. -/
theorem finishLoad_loaded {env : LoadEnv} {w w' : World}
    (h : finishLoad env w = .ok (some (), w')) :
    w'.handle.loadState = .loaded ∧ w'.handle.errnum = .success := by
  obtain ⟨_, w1, -, h⟩ := attempt_bind_some.mp h
  obtain ⟨_, w2, -, h⟩ := attempt_bind_some.mp h
  obtain ⟨_, w3, -, h⟩ := attempt_bind_some.mp h
  obtain ⟨-, rfl⟩ := h
  exact ⟨rfl, rfl⟩

/-- What the body of a load comes to on a fresh handle: a handle that is loaded, or a world that the
cleanup can deal with. -/
theorem loadBody_fresh {env : LoadEnv} {args : LoadArgs} {w w' : World} {value : Option Unit}
    (h : w.Fresh)
    (hrun : loadBody env args w = .ok (value, w')) :
    w'.Sound ∧ (value = some () → w'.Late ∧ w'.handle.loadState = .loaded ∧ w'.handle.errnum =
      .success) := by
  cases value with
  | some value =>
    obtain ⟨_, w1, hinit, hrun⟩ := attempt_bind_some.mp hrun
    obtain ⟨configs, w2, hmodules, hrun⟩ := attempt_bind_some.mp hrun
    obtain ⟨_, w3, hnodes, hfinish⟩ := attempt_bind_some.mp hrun
    have hearly : w1.Early := by
      rcases initializeLtdl_fresh h hinit with ⟨-, hearly⟩ | ⟨hnone, -⟩
      · exact hearly
      · exact absurd hnone (by simp)
    have hlate := late_loadModules env args w1 _ w2 hearly hmodules
    have hlate' := late_of_core (core_of_frame (frame_loadNodes args _ _)) w2 _ w3 hlate hnodes
    have hlate'' := late_finishLoad env w3 _ w' hlate' hfinish
    exact ⟨hlate''.1, fun _ ↦ ⟨hlate'', finishLoad_loaded hfinish⟩⟩
  | none =>
    refine ⟨?_, fun hnone ↦ absurd hnone (by simp)⟩
    rcases attempt_bind_none.mp hrun with hinit | ⟨_, w1, hinit, hrun⟩
    · rcases initializeLtdl_fresh h hinit with ⟨hsome, -⟩ | ⟨-, hsound⟩
      · exact absurd hsome (by simp)
      · exact hsound
    · have hearly : w1.Early := by
        rcases initializeLtdl_fresh h hinit with ⟨-, hearly⟩ | ⟨hnone, -⟩
        · exact hearly
        · exact absurd hnone (by simp)
      have hrest : Leads World.Early World.Late (loadModules env args >>= fun configs ↦
          loadNodes args configs.1 configs.2 >>= fun _ ↦ finishLoad env) :=
        (late_loadModules env args).bind (fun _ ↦ id) fun configs ↦
          (late_of_core (core_of_frame (frame_loadNodes args _ _))).bind (fun _ ↦ id) fun _ ↦
            late_finishLoad env
      exact (hrest w1 _ w' hearly hrun).1

/-- What a load comes to on a fresh handle: it returns zero, with the handle loaded, or it returns
`-1`, and the world is as fresh as before. -/
theorem loadData_fresh {env : LoadEnv} {args : LoadArgs} {w w' : World} {rv : ℤ} (h : w.Fresh)
    (hrun : loadData env args w = .ok (rv, w')) :
    (rv = 0 ∧ w'.Late ∧ w'.handle.loadState = .loaded ∧ w'.handle.errnum = .success) ∨
      (rv = -1 ∧ w'.Fresh) := by
  have hcheck : unloadedHandleErrorCheck w.handle = (true, w.handle) := by
    have hmagic : w.handle.magic = magicNum := congrArg Handle.magic h.handle
    have hstate : w.handle.loadState = .unloaded := congrArg Handle.loadState h.handle
    simp [unloadedHandleErrorCheck, hmagic, hstate]
  unfold loadData at hrun
  simp only [hcheck, not_true_eq_false, if_false] at hrun
  split at hrun
  · exact absurd hrun (by simp)
  · rename_i hbody
    obtain ⟨rfl, rfl⟩ := Prod.mk.inj (Except.ok.inj hrun)
    obtain ⟨hlib, hhandle⟩ := freeHandleData_sound (loadBody_fresh h hbody).1
    exact Or.inr ⟨rfl, hlib, hhandle⟩
  · rename_i hbody
    obtain ⟨rfl, rfl⟩ := Prod.mk.inj (Except.ok.inj hrun)
    exact Or.inl ⟨rfl, (loadBody_fresh h hbody).2 rfl⟩

end Whatsup
