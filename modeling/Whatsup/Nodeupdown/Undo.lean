import Whatsup.Nodeupdown.Errnum
import Whatsup.Nodeupdown.Independence
import Mathlib.Data.Finset.Card

/-!
# Failed loads are undone

In every process that a run of calls comes to, libltdl has been initialized once for each loaded
handle, and without a loaded handle no module is loaded (`Process.Kept`). A load that fails leaves
such a process as it was, but for the error number of its handle; `failedLoads_undone` says so of
any number of failed loads in a row, and that a later load comes to what it comes to on a new
handle.
-/

set_option autoImplicit false
set_option relaxedAutoImplicit false

namespace Whatsup

open CLib

/-! ### Who has initialized libltdl -/

/-- The magic number of a handle, whether it has initialized libltdl, and how often this has been
done. -/
def World.owner (w : World) : ℕ × Bool × ℕ :=
  (w.handle.magic, w.handle.ltdlInitialized, w.lib.ltdlCount)

theorem owner_of_core {α : Type} {attempt : Nodeupdown α} (h : Preserves World.core attempt) :
    Preserves World.owner attempt :=
  h.comp fun core ↦ (core.1, core.2.1, core.2.2.1)

theorem owner_clusterlistModuleLoad (env : LoadEnv) (module : Option (List Char)) :
    Preserves World.owner (clusterlistModuleLoad env module) := by
  intro w value w' h
  obtain ⟨hmagic, hltdl, hcount, -⟩ := clusterlistModuleLoad_core h
  rw [World.owner, hmagic, hltdl, hcount]
  rfl

theorem owner_loadModules (env : LoadEnv) (args : LoadArgs) :
    Preserves World.owner (loadModules env args) := by
  refine (owner_of_core (preserves_readConffile core_setErrnum env)).bind fun conffile ↦ ?_
  refine (owner_of_core (core_backendModuleLoad env args.module)).bind fun _ ↦ ?_
  refine (owner_of_core
    ((preserves_withBackend core_setErrnum _).bind preserves_unlessNegative)).bind fun _ ↦ ?_
  refine (owner_of_core (preserves_withBackend core_setErrnum _)).bind fun preferred ↦ ?_
  refine (owner_clusterlistModuleLoad env preferred).bind fun _ ↦ ?_
  refine (preserves_clusterlistModuleSetup (fun _ _ ↦ rfl) env fun _ _ ↦ rfl).bind fun _ ↦ ?_
  refine (owner_of_core (core_configModuleLoad env)).bind fun _ ↦ ?_
  refine (owner_of_core
    ((preserves_withConfig core_setErrnum _).bind preserves_unlessNegative)).bind fun _ ↦ ?_
  refine (owner_of_core (preserves_configModuleLoadConfig core_setErrnum)).bind fun module ↦ ?_
  exact (owner_of_core (core_allocateNodes env)).bind fun _ ↦ preserves_pure _

theorem owner_finishLoad (env : LoadEnv) : Preserves World.owner (finishLoad env) := by
  refine (owner_of_core (preserves_sortNodes core_setNodes env true)).bind fun _ ↦ ?_
  refine (owner_of_core (preserves_sortNodes core_setNodes env false)).bind fun _ ↦ ?_
  refine (owner_of_core (core_of_frame frame_countNodes)).bind fun _ ↦ ?_
  exact preserves_update fun w ↦ rfl

/-- The parts of a load behind the initialization of libltdl. -/
theorem owner_loadRest (env : LoadEnv) (args : LoadArgs) :
    Preserves World.owner (loadModules env args >>= fun configs ↦
      loadNodes args configs.1 configs.2 >>= fun _ ↦ finishLoad env) :=
  (owner_loadModules env args).bind fun _ ↦
    (owner_of_core (core_of_frame (frame_loadNodes args _ _))).bind fun _ ↦ owner_finishLoad env

/-! ### The cleanup -/

theorem modules_freeHandleData (w : World) : (freeHandleData w).lib.modules =
    Library.unused.modules := by
  simp only [freeHandleData, lib_noteErrnum, lib_setLib]
  rfl

theorem forgetErrnum_freeHandleData (w : World) : (freeHandleData w).handle.forgetErrnum =
    newHandle :=
  forgetErrnum_initializeHandle _

theorem ltdlCount_freeHandleData (w : World) : (freeHandleData w).lib.ltdlCount =
    if w.handle.ltdlInitialized then w.lib.ltdlCount - 1 else w.lib.ltdlCount := by
  simp [freeHandleData]

/-! ### A load of a handle that is not loaded -/

/-- The check for a handle that is not loaded passes. -/
theorem unloadedHandleErrorCheck_fresh {handle : Handle} (h : handle.forgetErrnum = newHandle) :
    unloadedHandleErrorCheck handle = (true, handle) := by
  have hmagic : handle.magic = magicNum := congrArg Handle.magic h
  have hstate : handle.loadState = .unloaded := congrArg Handle.loadState h
  simp [unloadedHandleErrorCheck, hmagic, hstate]

/-- What `nodeupdown_load_data` makes of what its body comes to. -/
def endLoad : Except LibFault (Option Unit × World) → Except LibFault (ℤ × World)
  | .error failure => .error failure
  | .ok (none, w) => .ok (-1, freeHandleData w)
  | .ok (some (), w) => .ok (0, w)

/-- The load of a handle that is not loaded, from its body on. -/
theorem loadData_of_fresh {env : LoadEnv} {args : LoadArgs} {w : World}
    (h : w.handle.forgetErrnum = newHandle) :
    loadData env args w = endLoad (loadBody env args w) := by
  unfold loadData
  simp only [unloadedHandleErrorCheck_fresh h, not_true_eq_false, if_false]
  rcases loadBody env args w with failure | ⟨_ | _, w'⟩ <;> rfl

/-- What the body of a load makes of the owner of the handle. -/
theorem loadBody_owner {env : LoadEnv} {args : LoadArgs} {w w' : World} {value : Option Unit}
    (h : w.handle.forgetErrnum = newHandle) (hrun : loadBody env args w = .ok (value, w')) :
    w'.owner = (magicNum, true, w.lib.ltdlCount + 1) ∨
      (value = none ∧ w'.owner = (magicNum, false, w.lib.ltdlCount)) := by
  have hmagic : w.handle.magic = magicNum := congrArg Handle.magic h
  have hltdl : w.handle.ltdlInitialized = false := congrArg Handle.ltdlInitialized h
  by_cases hinit : env.ltDlinit
  · have hstart : initializeLtdl env w = .ok (some (), { w with
        lib := { w.lib with ltdlCount := w.lib.ltdlCount + 1 }
        handle := { w.handle with ltdlInitialized := true } }) := if_pos hinit
    have hrest : loadBody env args w = (loadModules env args >>= fun configs ↦
        loadNodes args configs.1 configs.2 >>= fun _ ↦ finishLoad env) { w with
          lib := { w.lib with ltdlCount := w.lib.ltdlCount + 1 }
          handle := { w.handle with ltdlInitialized := true } } := by
      change Attempt.andThen (initializeLtdl env) _ w = _
      unfold Attempt.andThen
      rw [hstart]
    rw [hrest] at hrun
    refine Or.inl ((owner_loadRest env args _ value w' hrun).trans ?_)
    exact congrArg (fun magic ↦ (magic, true, w.lib.ltdlCount + 1)) hmagic
  · have hstart : initializeLtdl env w = .ok (none, w.setErrnum .internal) := if_neg hinit
    have hrest : loadBody env args w = .ok (none, w.setErrnum .internal) :=
      attempt_bind_none.mpr (Or.inl hstart)
    rw [hrest] at hrun
    obtain ⟨rfl, rfl⟩ := Prod.mk.inj (Except.ok.inj hrun)
    refine Or.inr ⟨rfl, ?_⟩
    change (w.handle.magic, w.handle.ltdlInitialized, w.lib.ltdlCount) = _
    rw [hmagic, hltdl]

/-- The body of a load that comes to its end has loaded the handle. -/
theorem loadBody_loaded {env : LoadEnv} {args : LoadArgs} {w w' : World}
    (hrun : loadBody env args w = .ok (some (), w')) : w'.handle.loadState = .loaded := by
  obtain ⟨_, w1, -, hrun⟩ := attempt_bind_some.mp hrun
  obtain ⟨configs, w2, -, hrun⟩ := attempt_bind_some.mp hrun
  obtain ⟨_, w3, -, hfinish⟩ := attempt_bind_some.mp hrun
  exact (finishLoad_loaded hfinish).1

/-- What a load comes to on a handle that is not loaded, whatever the modules: the handle is loaded
and libltdl initialized once more, or nothing is left behind. -/
theorem loadData_owner {env : LoadEnv} {args : LoadArgs} {w w' : World} {rv : ℤ}
    (h : w.handle.forgetErrnum = newHandle) (hrun : loadData env args w = .ok (rv, w')) :
    (rv = 0 ∧ w'.handle.loadState = .loaded ∧ w'.owner = (magicNum, true, w.lib.ltdlCount + 1)) ∨
      (rv = -1 ∧ w'.handle.forgetErrnum = newHandle ∧ w'.lib.modules = Library.unused.modules ∧
        w'.lib.ltdlCount = w.lib.ltdlCount) := by
  rw [loadData_of_fresh h] at hrun
  rcases hbody : loadBody env args w with failure | ⟨_ | _, v⟩ <;> rw [hbody] at hrun
  · exact absurd hrun (by simp [endLoad])
  · obtain ⟨rfl, rfl⟩ := Prod.mk.inj (Except.ok.inj hrun)
    refine Or.inr ⟨rfl, forgetErrnum_freeHandleData _, modules_freeHandleData _, ?_⟩
    rw [ltdlCount_freeHandleData]
    rcases loadBody_owner h hbody with howner | ⟨-, howner⟩
    · obtain ⟨-, hltdl, hcount⟩ : _ ∧ v.handle.ltdlInitialized = true ∧
          v.lib.ltdlCount = w.lib.ltdlCount + 1 := by
        simpa only [World.owner, Prod.mk.injEq] using howner
      rw [hltdl, if_pos rfl, hcount, Nat.add_sub_cancel]
    · obtain ⟨-, hltdl, hcount⟩ : _ ∧ v.handle.ltdlInitialized = false ∧
          v.lib.ltdlCount = w.lib.ltdlCount := by
        simpa only [World.owner, Prod.mk.injEq] using howner
      rw [hltdl, if_neg Bool.false_ne_true, hcount]
  · obtain ⟨rfl, rfl⟩ := Prod.mk.inj (Except.ok.inj hrun)
    refine Or.inl ⟨rfl, loadBody_loaded hbody, ?_⟩
    rcases loadBody_owner h hbody with howner | ⟨hnone, -⟩
    · exact howner
    · exact absurd hnone (by simp)

/-! ### Every run of calls -/

/-- A handle that is new but for its error number, or loaded and the one that has initialized
libltdl. -/
def Handle.Kept (handle : Handle) : Prop :=
  handle.forgetErrnum = newHandle ∨
    (handle.loadState = .loaded ∧ handle.magic = magicNum ∧ handle.ltdlInitialized = true)

/-- What holds of every process that a run of calls comes to. -/
structure Process.Kept (process : Process) : Prop where
  handles : ∀ address handle, process.handles address = some handle → handle.Kept
  /-- libltdl has been initialized once for each loaded handle. -/
  ltdlCount : ∃ loaded : Finset ℕ, (∀ address, address ∈ loaded ↔ process.Loaded address) ∧
    process.lib.ltdlCount = loaded.card
  modules : (∀ address, ¬process.Loaded address) → process.lib.modules = Library.unused.modules

/-- One if a handle is there and loaded. -/
def loadCount (handle : Option Handle) : ℕ :=
  if handle.map Handle.loadState = some .loaded then 1 else 0

/-- What a call makes of the modules and of its handle. -/
structure KeptBy (lib lib' : Library) (before after : Option Handle) : Prop where
  handle : ∀ handle, after = some handle → handle.Kept
  ltdlCount : lib'.ltdlCount + loadCount before = lib.ltdlCount + loadCount after
  modules : ¬LoadedHandle after → lib'.modules = Library.unused.modules ∨
    (lib'.modules = lib.modules ∧ ¬LoadedHandle before)

theorem loadCount_of_fresh {handle : Handle} (h : handle.forgetErrnum = newHandle) :
    loadCount (some handle) = 0 :=
  if_neg (not_loaded_of_fresh h)

theorem loadCount_of_loaded {handle : Handle} (h : handle.loadState = .loaded) :
    loadCount (some handle) = 1 :=
  if_pos (congrArg some h)

/-- A call that frees the data of its handle. -/
theorem keptBy_free {lib : Library} {handle : Handle} {after : Option Handle} (errnum : Errnum)
    (hhandle : handle.Kept) (hcount : loadCount (some handle) ≤ lib.ltdlCount)
    (hafter : ∀ h, after = some h → h.forgetErrnum = newHandle) :
    KeptBy lib (freeHandleData ⟨lib, { handle with errnum := errnum }, []⟩).lib (some handle)
      after := by
  have hzero : loadCount after = 0 := by
    cases after with
    | none => rfl
    | some h => exact loadCount_of_fresh (hafter h rfl)
  refine ⟨fun h hh ↦ Or.inl (hafter h hh), ?_, fun _ ↦ Or.inl (modules_freeHandleData _)⟩
  rw [ltdlCount_freeHandleData, hzero]
  rcases hhandle with hfresh | ⟨hstate, -, hltdl⟩
  · have hltdl : handle.ltdlInitialized = false := congrArg Handle.ltdlInitialized hfresh
    simp [hltdl, loadCount_of_fresh hfresh]
  · rw [loadCount_of_loaded hstate] at hcount ⊢
    simp only [hltdl, if_true]
    omega

/-- What a load makes of the modules and of its handle. -/
theorem loadData_kept {env : LoadEnv} {args : LoadArgs} {lib : Library} {handle : Handle}
    {rv : ℤ} {w : World}
    (hhandle : handle.Kept) (hcount : loadCount (some handle) ≤ lib.ltdlCount)
    (hload : loadData env args ⟨lib, handle, []⟩ = .ok (rv, w)) :
    KeptBy lib w.lib (some handle) (some w.handle) := by
  rcases id hhandle with hfresh | ⟨hstate, hmagic, hltdl⟩
  · rcases loadData_owner hfresh hload with ⟨-, hstate, howner⟩ | ⟨-, hfresh', hmodules, hsame⟩
    · simp only [World.owner, Prod.mk.injEq] at howner
      obtain ⟨hmagic, hltdl, hcount'⟩ := howner
      refine ⟨?_, ?_, fun hnot ↦ absurd (congrArg some hstate) hnot⟩
      · rintro _ ⟨⟩
        exact Or.inr ⟨hstate, hmagic, hltdl⟩
      · rw [hcount', loadCount_of_fresh hfresh, loadCount_of_loaded hstate]
    · refine ⟨?_, ?_, fun _ ↦ Or.inl hmodules⟩
      · rintro _ ⟨⟩
        exact Or.inl hfresh'
      · rw [hsame, loadCount_of_fresh hfresh, loadCount_of_fresh hfresh']
  · have hcheck : unloadedHandleErrorCheck handle =
        (false, { handle with errnum := .isloaded }) := by
      simp [unloadedHandleErrorCheck, hmagic, hstate]
    unfold loadData at hload
    simp only [hcheck, Bool.false_eq_true, not_false_eq_true, if_true] at hload
    obtain ⟨-, rfl⟩ := Prod.mk.inj (Except.ok.inj hload)
    refine keptBy_free .isloaded hhandle hcount ?_
    rintro _ ⟨⟩
    exact forgetErrnum_freeHandleData _

/-- What a query makes of the modules and of its handle. -/
theorem query_kept {asked : Query} {lib : Library} {handle : Handle}
    {answer : Option Answer} {w : World}
    (hhandle : handle.Kept) (hrun : asked.run ⟨lib, handle, []⟩ = .ok (answer, w)) :
    KeptBy lib w.lib (some handle) (some w.handle) := by
  have hframe := frame_query asked _ _ _ hrun
  simp only [World.frame, Prod.mk.injEq] at hframe
  obtain ⟨hlib, hmagic, hltdl, hstate⟩ := hframe
  have hcount : loadCount (some w.handle) = loadCount (some handle) := by
    simp only [loadCount, Option.map_some, hstate]
  refine ⟨?_, by rw [hlib, hcount], fun hnot ↦ Or.inr ⟨by rw [hlib], ?_⟩⟩
  · rintro _ ⟨⟩
    rcases hhandle with hfresh | ⟨hloaded, hright, hinit⟩
    · rw [query_fresh asked (w := ⟨lib, handle, []⟩) hfresh] at hrun
      obtain ⟨-, rfl⟩ := Prod.mk.inj (Except.ok.inj hrun)
      exact Or.inl hfresh
    · exact Or.inr ⟨hstate.trans hloaded, hmagic.trans hright, hltdl.trans hinit⟩
  · rwa [LoadedHandle, Option.map_some, hstate] at hnot

/-- What every call makes of the modules and of its handle. -/
theorem effect_kept {call : ApiCall} {address : ℕ} {lib lib' : Library}
    {before after : Option Handle}
    {answer : Answer} (hbefore : ∀ handle, before = some handle → handle.Kept)
    (hcount : loadCount before ≤ lib.ltdlCount)
    (heffect : call.effect address lib before = .ok (answer, lib', after)) :
      KeptBy lib lib' before after := by
  cases before with
  | none =>
    cases call with
    | create =>
      obtain ⟨-, rfl, rfl⟩ := heffect
      refine ⟨?_, rfl, fun _ ↦ Or.inr ⟨rfl, by simp [LoadedHandle]⟩⟩
      rintro _ ⟨⟩
      exact Or.inl rfl
    | load => exact absurd heffect (by simp [ApiCall.effect])
    | query => exact absurd heffect (by simp [ApiCall.effect])
    | destroy => exact absurd heffect (by simp [ApiCall.effect])
  | some handle =>
    have hself := hbefore handle rfl
    cases call with
    | create =>
      obtain ⟨-, rfl, rfl⟩ := heffect
      exact ⟨hbefore, rfl, fun hnot ↦ Or.inr ⟨rfl, hnot⟩⟩
    | load pointer env args =>
      obtain ⟨⟨rv, w⟩, hload, hresult⟩ := map_eq_ok.mp heffect
      obtain ⟨-, rfl, rfl⟩ := hresult
      exact loadData_kept hself hcount hload
    | query pointer asked =>
      obtain ⟨⟨value, w⟩, hquery, hresult⟩ := map_eq_ok.mp heffect
      obtain ⟨-, rfl, rfl⟩ := hresult
      exact query_kept hself hquery
    | destroy pointer =>
      have hmagic : handle.magic = magicNum := by
        rcases hself with hfresh | ⟨-, hmagic, -⟩
        · exact congrArg Handle.magic hfresh
        · exact hmagic
      simp only [ApiCall.effect, hmagic, ne_eq, not_true_eq_false, if_false] at heffect
      obtain ⟨-, rfl, rfl⟩ := heffect
      exact keptBy_free handle.errnum hself hcount (by rintro _ ⟨⟩)

/-- The loaded handles behind a call on the handle at an address. -/
theorem exists_loaded {process next : Process} {address : ℕ} {loaded : Finset ℕ}
    (hloaded : ∀ other, other ∈ loaded ↔ process.Loaded other)
    (hothers : ∀ other, other ≠ address → next.handles other = process.handles other) :
    ∃ loaded' : Finset ℕ, (∀ other, other ∈ loaded' ↔ next.Loaded other) ∧
      loaded'.card + loadCount (process.handles address) = loaded.card +
        loadCount (next.handles address) := by
  have hbefore : loadCount (process.handles address) = if address ∈ loaded then 1 else 0 := by
    simp only [hloaded, Process.Loaded, loadCount]
  have hothers' : ∀ other, other ≠ address → (next.Loaded other ↔ other ∈ loaded) :=
      fun other hne ↦ by
    rw [hloaded, Process.Loaded, Process.Loaded, hothers other hne]
  by_cases hafter : next.Loaded address
  · refine ⟨insert address loaded, fun other ↦ ?_, ?_⟩
    · by_cases hother : other = address
      · subst hother
        simp [hafter]
      · rw [Finset.mem_insert, hothers' other hother]
        simp [hother]
    · have hone : loadCount (next.handles address) = 1 := if_pos hafter
      rw [hbefore, hone, Finset.card_insert_eq_ite]
      split_ifs <;> omega
  · refine ⟨loaded.erase address, fun other ↦ ?_, ?_⟩
    · by_cases hother : other = address
      · subst hother
        simp [hafter]
      · rw [Finset.mem_erase, hothers' other hother]
        simp [hother]
    · have hzero : loadCount (next.handles address) = 0 := if_neg hafter
      rw [hbefore, hzero, Finset.card_erase_eq_ite]
      split_ifs with hmem
      · have hpos := Finset.card_pos.mpr ⟨address, hmem⟩
        omega
      · rfl

/-- Every call keeps what holds of a process. -/
theorem Process.Kept.step {process next : Process} {call : ApiCall} {answer : Answer}
    (h : process.Kept)
    (hrun : call.run process = .ok (answer, next)) : next.Kept := by
  cases hpointer : call.pointer with
  | none =>
    have hsame : next = process := by
      cases call with
      | create =>
        obtain rfl : _ = none := hpointer
        exact (Prod.mk.inj (Except.ok.inj hrun)).2.symm
      | load => 
        obtain rfl : _ = none := hpointer
        exact absurd hrun (by simp [ApiCall.run, nodeupdownLoadData, Except.map])
      | query =>
        obtain rfl : _ = none := hpointer
        exact (Prod.mk.inj (Except.ok.inj hrun)).2.symm
      | destroy =>
        obtain rfl : _ = none := hpointer
        exact (Prod.mk.inj (Except.ok.inj hrun)).2.symm
    rw [hsame]
    exact h
  | some address =>
    obtain ⟨heffect, hothers⟩ := effect_of_run hpointer hrun
    obtain ⟨loaded, hloaded, hcard⟩ := h.ltdlCount
    have hcount : loadCount (process.handles address) ≤ process.lib.ltdlCount := by
      unfold loadCount
      split_ifs with hstate
      · rw [hcard]
        exact Finset.card_pos.mpr ⟨address, (hloaded address).mpr hstate⟩
      · exact Nat.zero_le _
    have hkept := effect_kept (fun handle hhandle ↦ h.handles address handle hhandle) hcount heffect
    obtain ⟨loaded', hloaded', hcard'⟩ := exists_loaded hloaded hothers
    refine ⟨fun other handle hother ↦ ?_, ⟨loaded', hloaded', ?_⟩, fun hnone ↦ ?_⟩
    · by_cases hsame : other = address
      · subst hsame
        exact hkept.handle handle hother
      · rw [hothers other hsame] at hother
        exact h.handles other handle hother
    · have hltdl := hkept.ltdlCount
      omega
    · rcases hkept.modules (hnone address) with hnull | ⟨hmodules, hnot⟩
      · exact hnull
      · refine hmodules.trans (h.modules fun other ↦ ?_)
        by_cases hsame : other = address
        · subst hsame
          exact hnot
        · have hother := hnone other
          rwa [Process.Loaded, hothers other hsame] at hother

/-- What holds of every process that a run of calls comes to. -/
theorem Process.Reachable.kept {process : Process} (h : process.Reachable) : process.Kept := by
  obtain ⟨calls, answers, hrun⟩ := h
  refine foldlM_ok (P := fun _ run ↦ run.1.Kept) (fun _ call run run' hkept hstep ↦ ?_) []
    (s := (Process.start, [])) ?_ hrun
  · obtain ⟨⟨answer, next⟩, hcall, rfl⟩ := map_eq_ok.mp hstep
    exact hkept.step hcall
  · refine ⟨by rintro _ _ ⟨⟩, ⟨∅, fun address ↦ ?_, rfl⟩, fun _ ↦ rfl⟩
    simp [Process.Loaded, Process.start]

/-! ### Failed loads -/

/-- What is left of loads that failed, on the handle at an address: at most an error number. -/
structure Undone (address : ℕ) (process process' : Process) : Prop where
  handle : ∃ handle handle', process.handles address = some handle ∧
    process'.handles address = some handle' ∧ handle'.forgetErrnum = handle.forgetErrnum
  others : ∀ other, other ≠ address → process'.handles other = process.handles other
  modules : process'.lib.modules = process.lib.modules
  /-- As many calls of `lt_dlinit` have succeeded as there were calls of `lt_dlexit`. -/
  ltdlCount : process'.lib.ltdlCount = process.lib.ltdlCount

theorem Undone.refl {address : ℕ} {process : Process} {handle : Handle}
    (h : process.handles address = some handle) : Undone address process process :=
  ⟨⟨handle, handle, h, h, rfl⟩, fun _ _ ↦ rfl, rfl, rfl⟩

theorem Undone.trans {address : ℕ} {process process' process'' : Process}
    (h : Undone address process process')
    (h' : Undone address process' process'') : Undone address process process'' := by
  obtain ⟨handle, middle, hhandle, hmiddle, hsame⟩ := h.handle
  obtain ⟨middle', handle', hmiddle', hhandle', hsame'⟩ := h'.handle
  obtain rfl := Option.some_inj.mp (hmiddle.symm.trans hmiddle')
  exact ⟨⟨handle, handle', hhandle, hhandle', hsame'.trans hsame⟩,
    fun other hne ↦ (h'.others other hne).trans (h.others other hne), h'.modules.trans h.modules,
    h'.ltdlCount.trans h.ltdlCount⟩

/-- What a load of a handle that is not loaded comes to does not depend on the error number of the
handle, and if it fails it has set it. -/
theorem loadData_told {env : LoadEnv} {args : LoadArgs} (henv : env.Honest args) {w : World}
    (hmodules : w.lib.modules = Library.unused.modules)
    (hfresh : w.handle.forgetErrnum = newHandle) :
    ∃ result, (∀ errnum, loadData env args (w.setErrnum errnum) = result) ∧
      ∀ w', result = .ok (-1, w') → w'.handle.errnum ≠ .success := by
  have hhonest : w.Honest := by
    obtain ⟨hbackend, hclusterlist, hconfig, -⟩ : _ ∧ _ ∧ _ ∧ _ := by
      simpa only [Library.modules, Library.unused, Prod.mk.injEq] using hmodules
    refine ⟨congrArg Handle.magic hfresh, ?_, ?_, ?_⟩
    · rw [hbackend]; rintro _ ⟨⟩
    · rw [hclusterlist]; rintro _ ⟨⟩
    · rw [hconfig]; rintro _ ⟨⟩
  obtain ⟨body, hbody, htold⟩ := loadBody_told henv hhonest hmodules hfresh
  have hload : ∀ errnum, loadData env args (w.setErrnum errnum) = endLoad body := fun errnum ↦ by
    rw [loadData_of_fresh (w := w.setErrnum errnum) hfresh, hbody errnum]
  refine ⟨_, hload, fun w' hfailed ↦ ?_⟩
  rcases body with failure | ⟨_ | _, v⟩
  · exact absurd hfailed (by simp [endLoad])
  · obtain ⟨-, rfl⟩ := Prod.mk.inj (Except.ok.inj hfailed)
    obtain ⟨hv, hset⟩ := htold v rfl
    exact told_freeHandleData hv hset
  · exact absurd hfailed (by simp [endLoad])

/-- One load on a handle that is not loaded, in a process without modules. -/
theorem failedLoad_undone {process process' : Process} {address : ℕ} {handle : Handle}
    (hhandle : process.handles address = some handle) (hfresh : handle.forgetErrnum = newHandle)
    (hmodules : process.lib.modules = Library.unused.modules) {env : LoadEnv} {args : LoadArgs}
    (henv : env.Honest args) {answer : Answer}
    (hrun : (ApiCall.load (some address) env args).run process = .ok (answer, process')) :
    answer = .number 0 ∨ (answer = .number (-1) ∧ Undone address process process' ∧
      ∃ handle', process'.handles address = some handle' ∧ handle'.errnum ≠ .success) := by
  have hon : (ApiCall.load (some address) env args).On address := rfl
  obtain ⟨heffect, hothers⟩ := effect_of_run hon hrun
  rw [hhandle] at heffect
  obtain ⟨⟨rv, w⟩, hload, hresult⟩ := map_eq_ok.mp heffect
  simp only [Prod.mk.injEq] at hresult
  obtain ⟨hanswer, hlib, hhandle'⟩ := hresult
  rcases loadData_owner hfresh hload with ⟨hrv, -⟩ | ⟨hrv, hfresh', hnull, hcount⟩
  · exact Or.inl (by rw [← hanswer, hrv])
  · refine Or.inr ⟨by rw [← hanswer, hrv],
      ⟨⟨handle, w.handle, hhandle, hhandle'.symm, ?_⟩, hothers, ?_, ?_⟩,
      w.handle, hhandle'.symm, ?_⟩
    · exact hfresh'.trans hfresh.symm
    · rw [← hlib, hnull, hmodules]
    · rw [← hlib, hcount]
    · obtain ⟨result, hsame, htold⟩ :=
        loadData_told henv (w := ⟨process.lib, handle, []⟩) hmodules hfresh
      rw [hrv] at hload
      exact htold w ((hsame handle.errnum).symm.trans hload)

/-- A load on a handle that is new but for its error number comes to what it comes to on a new
handle. -/
theorem load_eq_of_fresh {process : Process} {address : ℕ} {handle : Handle}
    (hhandle : process.handles address = some handle) (hfresh : handle.forgetErrnum = newHandle)
    (hmodules : process.lib.modules = Library.unused.modules) {env : LoadEnv} {args : LoadArgs}
    (henv : env.Honest args) :
    nodeupdownLoadData env args (some address) process = nodeupdownLoadData env args (some address)
      { process with handles := Function.update process.handles address (some newHandle) } := by
  obtain ⟨result, hsame, -⟩ := loadData_told henv (w := ⟨process.lib, handle, []⟩) hmodules hfresh
  have hnew : loadData env args ⟨process.lib, newHandle, []⟩ =
      loadData env args ⟨process.lib, handle, []⟩ := by
    have hset : (⟨process.lib, newHandle, []⟩ : World) =
        World.setErrnum .success ⟨process.lib, handle, []⟩ := by
      rw [← hfresh]
      rfl
    rw [hset, hsame .success]
    exact (hsame handle.errnum).symm
  simp only [nodeupdownLoadData, hhandle, Function.update_self, Process.world, Process.put,
    Function.update_idem, hnew]

/-- A run notes every call behind those noted before. -/
theorem apiRun_subset {calls : List ApiCall} {process process' : Process}
    {before after : List (ApiCall × Answer)}
    (hrun : calls.foldlM apiStep (process, before) = .ok (process', after)) : ∀ answer ∈ before,
      answer ∈ after := by
  refine foldlM_ok (P := fun _ run ↦ ∀ answer ∈ before, answer ∈ run.2)
    (fun _ call run run' hkept hstep ↦ ?_) []
    (s := (process, before)) (fun _ ↦ id) hrun
  obtain ⟨⟨answer, next⟩, -, rfl⟩ := map_eq_ok.mp hstep
  exact fun answer hmem ↦ List.mem_append_left _ (hkept answer hmem)

/-- Some calls in a row that load a handle that is not loaded, in a process without modules, and all
of which fail. -/
theorem failedLoads_run {address : ℕ} {attempts : List (LoadEnv × LoadArgs)}
    (hhonest : ∀ attempt ∈ attempts, attempt.1.Honest attempt.2) {process process' : Process}
    {handle : Handle}
    (hhandle : process.handles address = some handle) (hfresh : handle.forgetErrnum = newHandle)
    (hmodules : process.lib.modules = Library.unused.modules)
    {before after : List (ApiCall × Answer)}
    (hrun : (attempts.map fun attempt ↦
      ApiCall.load (some address) attempt.1 attempt.2).foldlM apiStep
      (process, before) = .ok (process', after))
    (hfailed : ∀ answer ∈ after, answer.2 ≠ .number 0) :
    (∀ answer ∈ after, answer ∈ before ∨ answer.2 = .number (-1)) ∧
    Undone address process process' ∧
      (attempts ≠ [] → ∃ handle', process'.handles address = some handle' ∧
        handle'.errnum ≠ .success) := by
  induction attempts generalizing process before handle with
  | nil =>
    obtain ⟨rfl, rfl⟩ := Prod.mk.inj (Except.ok.inj hrun)
    exact ⟨fun _ ↦ Or.inl, Undone.refl hhandle, fun hne ↦ absurd rfl hne⟩
  | cons attempt attempts ih =>
    rw [List.map_cons, List.foldlM_cons] at hrun
    obtain ⟨⟨middle, noted⟩, hstep, hrest⟩ := bind_eq_ok.mp hrun
    obtain ⟨⟨answer, _⟩, hcall, hnoted⟩ := map_eq_ok.mp hstep
    obtain ⟨rfl, rfl⟩ := Prod.mk.inj hnoted
    have hnoted : (ApiCall.load (some address) attempt.1 attempt.2, answer) ∈ after :=
      apiRun_subset hrest _ (by simp)
    rcases failedLoad_undone hhandle hfresh hmodules (hhonest attempt List.mem_cons_self) hcall with
      hzero | ⟨hanswer, hundone, htold⟩
    · exact absurd hzero (hfailed _ hnoted)
    · obtain ⟨_, hmiddle, hhandle', hafter, hsame⟩ := hundone.handle
      obtain rfl := Option.some_inj.mp (hhandle.symm.trans hhandle')
      obtain ⟨hanswers, hrests, htolds⟩ :=
        ih (fun attempt hmem ↦ hhonest attempt (List.mem_cons_of_mem _ hmem))
        hafter (hsame.trans hfresh) (hundone.modules.trans hmodules) hrest
      refine ⟨fun later hmem ↦ ?_, hundone.trans hrests, fun _ ↦ ?_⟩
      · rcases hanswers later hmem with hbefore | hfailed'
        · rcases List.mem_append.mp hbefore with hbefore | hself
          · exact Or.inl hbefore
          · rw [List.mem_singleton] at hself
            exact Or.inr (by rw [hself, hanswer])
        · exact Or.inr hfailed'
      · by_cases hlast : attempts = []
        · subst hlast
          obtain ⟨rfl, rfl⟩ := Prod.mk.inj (Except.ok.inj hrest)
          exact htold
        · exact htolds hlast

/-- Assumes: a process that some run of calls comes to, a handle in it that is not loaded, and no
other handle that is; and some calls in a row that load the handle, every one of which fails, with
modules that set an error number when they fail. Every call returns `-1`; the handle has an error
number, and all else is as before; and a later load comes to what it comes to on a new handle. -/
theorem failedLoads_undone {process process' : Process} (hprocess : process.Reachable) {address : ℕ}
    {handle : Handle} (hhandle : process.handles address = some handle)
    (hunloaded : handle.loadState = .unloaded) (hothers : ∀ other, other ≠ address →
      ¬process.Loaded other)
    {attempts : List (LoadEnv × LoadArgs)} (hattempts : attempts ≠ [])
    (hhonest : ∀ attempt ∈ attempts, attempt.1.Honest attempt.2) {answers : List (ApiCall × Answer)}
    (hrun : (attempts.map fun attempt ↦
      ApiCall.load (some address) attempt.1 attempt.2).foldlM apiStep
      (process, []) = .ok (process', answers))
    (hfailed : ∀ answer ∈ answers, answer.2 ≠ .number 0) :
    (∀ answer ∈ answers, answer.2 = .number (-1)) ∧ Undone address process process' ∧
      (∃ handle', process'.handles address = some handle' ∧ handle'.errnum ≠ .success) ∧
      ∀ env args, env.Honest args →
        nodeupdownLoadData env args (some address) process' =
          nodeupdownLoadData env args (some address)
          { process' with handles := Function.update process'.handles address (some newHandle) } :=
            by
  have hkept := hprocess.kept
  have hfresh : handle.forgetErrnum = newHandle := by
    rcases hkept.handles address handle hhandle with hfresh | ⟨hloaded, -⟩
    · exact hfresh
    · exact absurd (hunloaded.symm.trans hloaded) (by decide)
  have hmodules : process.lib.modules = Library.unused.modules := by
    refine hkept.modules fun other ↦ ?_
    by_cases hsame : other = address
    · subst hsame
      rw [Process.Loaded, hhandle]
      exact not_loaded_of_fresh hfresh
    · exact hothers other hsame
  obtain ⟨hanswers, hundone, htold⟩ := failedLoads_run hhonest hhandle hfresh hmodules hrun hfailed
  obtain ⟨_, handle', hhandle', hafter, hsame⟩ := hundone.handle
  obtain rfl := Option.some_inj.mp (hhandle.symm.trans hhandle')
  exact ⟨fun answer hmem ↦ (hanswers answer hmem).resolve_left (by simp), hundone, htold hattempts,
      fun env args henv ↦
    load_eq_of_fresh hafter (hsame.trans hfresh) (hundone.modules.trans hmodules) henv⟩

/-! ### A handle that cannot be loaded -/

/-- The environment of a load in which libltdl cannot be initialized. -/
def noLtdlEnv : LoadEnv :=
  { plainEnv (plainBackend fun _ _ ↦ ⟨[], ⟨0, none⟩⟩) none with ltDlinit := false }

/-- The environment of a load whose modules are loaded and set up, and whose backend reports a node
and then fails. -/
def failingEnv : LoadEnv :=
  plainEnv (plainBackend fun _ _ ↦ ⟨[.addUpNode "n1".toList], ⟨-1, some .connect⟩⟩) none

/-- Assumes: a small environment but for what fails, in which no load gets to its count. It is
honest. -/
theorem honest_of_fails {env : LoadEnv} {args : LoadArgs} {run : BackendRun}
    (hreply : run.reply.Honest Failed)
    (hbuild : env.buildDir = none)
    (hmodule : env.moduleDir = some (plainModules (plainBackend fun _ _ ↦ run) false))
    (hfails : ∀ w, ∃ w', loadSorted env args w = .ok (none, w')) : env.Honest args := by
  have hzero : (⟨0, none⟩ : Reply ℤ).Honest Failed := ⟨by simp, fun h ↦ absurd h (by simp [Failed])⟩
  have hbackend : (plainBackend fun _ _ ↦ run).Honest :=
    ⟨⟨by simp [plainBackend], fun h ↦ absurd h (by simp [plainBackend])⟩, hzero, hzero,
      fun _ _ _ _ _ ↦ hreply⟩
  refine ⟨⟨?_, ?_, ?_⟩, fun w w' _ _ hrun ↦ ?_⟩
  · rw [hbuild, hmodule]
    simp only [List.mem_cons, List.not_mem_nil, or_false, forall_eq_or_imp, forall_eq, plainModules]
    refine ⟨by simp [Offer], fun entry hentry object info hfile hinfo ↦ ?_⟩
    simp only [Option.getD_some, List.mem_cons, Bool.false_eq_true, if_false, List.not_mem_nil,
      or_false] at hentry
    subst hentry
    obtain ⟨rfl⟩ := hfile
    obtain ⟨rfl⟩ := hinfo
    exact hbackend
  · rw [hbuild, hmodule]
    simp only [List.mem_cons, List.not_mem_nil, or_false, forall_eq_or_imp, forall_eq, plainModules]
    refine ⟨by simp [Offer], fun entry hentry object info hfile hinfo ↦ ?_⟩
    simp only [Option.getD_some, List.mem_cons, Bool.false_eq_true, if_false, List.not_mem_nil,
      or_false] at hentry
    subst hentry
    obtain ⟨rfl⟩ := hfile
    exact absurd hinfo (by simp)
  · rw [hbuild, hmodule]
    simp only [List.mem_cons, List.not_mem_nil, or_false, forall_eq_or_imp, forall_eq, plainModules]
    refine ⟨by simp [Offer], fun entry hentry object info hfile hinfo ↦ ?_⟩
    simp only [Option.getD_some, List.mem_cons, Bool.false_eq_true, if_false, List.not_mem_nil,
      or_false] at hentry
    subst hentry
    obtain ⟨rfl⟩ := hfile
    exact absurd hinfo (by simp)
  · obtain ⟨w'', hnone⟩ := hfails w
    exact absurd (hrun.symm.trans hnone) (by simp)

/-- Two loads that fail, one at libltdl and one behind its modules. -/
theorem failedLoads_undone_twice :
    ∃ (process process' : Process) (answers : List (ApiCall × Answer)),
    process.Reachable ∧ Undone 0 process process' ∧ (∀ answer ∈ answers, answer.2 = .number (-1)) ∧
      answers.length = 2 := by
  have hltdl : noLtdlEnv.Honest plainArgs :=
    honest_of_fails ⟨by simp, fun h ↦ absurd h (by simp [Failed])⟩ rfl rfl fun w ↦
      ⟨_, attempt_bind_none.mpr (Or.inl rfl)⟩
  have hfailing : failingEnv.Honest plainArgs :=
    honest_of_fails ⟨by simp, fun _ ↦ by simp⟩ rfl rfl fun w ↦ ⟨_, rfl⟩
  let process : Process := (nodeupdownHandleCreate (some 0) Process.start).2
  have hprocess : process.Reachable := ⟨[.create (some 0)], _, rfl⟩
  have hrun : ∃ run,
    (([(noLtdlEnv, plainArgs), (failingEnv, plainArgs)] : List (LoadEnv × LoadArgs)).map
      fun attempt ↦ ApiCall.load (some 0) attempt.1 attempt.2).foldlM apiStep (process, []) =
        .ok run ∧
        run.2.map Prod.snd = [.number (-1), .number (-1)] := ⟨_, rfl, rfl⟩
  obtain ⟨⟨process', answers⟩, hrun, hvalues⟩ := hrun
  have hfailed : ∀ answer ∈ answers, (answer : ApiCall × Answer).2 ≠ .number 0 := by
    intro answer hmem hzero
    have hmem' := List.mem_map_of_mem (f := Prod.snd) hmem
    rw [hvalues, hzero] at hmem'
    exact absurd hmem' (by decide)
  have hhandle : process.handles 0 = some newHandle := rfl
  have hothers : ∀ other, other ≠ 0 → ¬process.Loaded other := fun other hne hloaded ↦ by
    simp only [Process.Loaded, process, nodeupdownHandleCreate, Process.start] at hloaded
    simp [hne] at hloaded
  have hhonest : ∀ attempt ∈ [(noLtdlEnv, plainArgs), (failingEnv, plainArgs)],
      attempt.1.Honest attempt.2 := by
    intro attempt hmem
    rcases List.mem_cons.mp hmem with rfl | hmem
    · exact hltdl
    · rw [List.mem_singleton.mp hmem]
      exact hfailing
  obtain ⟨hanswers, hundone, -⟩ :=
    failedLoads_undone hprocess hhandle rfl hothers (by simp) hhonest hrun hfailed
  refine ⟨process, process', answers, hprocess, hundone, hanswers, ?_⟩
  have hlength := congrArg List.length hvalues
  simpa using hlength

end Whatsup
