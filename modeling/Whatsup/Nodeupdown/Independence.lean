import Whatsup.Nodeupdown.Calls
import Whatsup.Nodeupdown.Teardown

/-!
# Two handles in one process

The modules of libnodeupdown belong to the process, not to a handle: a load or a destruction of one
handle replaces or unloads the modules that another handle, which is loaded, goes by.
`handles_independent` says that nothing else ties two handles together. In a run in which each of
them is loaded and destroyed only while the other is not loaded, a handle answers as if the other
one were not there.
-/

set_option autoImplicit false
set_option relaxedAutoImplicit false

namespace Whatsup

open CLib

/-! ### Queries leave the process as it is -/

theorem frame_loadedHandleErrorCheck : Preserves World.frame loadedHandleErrorCheck := by
  intro w value w' h
  unfold loadedHandleErrorCheck at h
  split_ifs at h
  · obtain ⟨rfl, rfl⟩ := h
    rfl
  · split at h <;> obtain ⟨rfl, rfl⟩ := h <;> rfl

theorem frame_succeed {α : Type} (value : α) : Preserves World.frame (succeed value) :=
  (preserves_update fun w ↦ frame_setErrnum .success w).bind fun _ ↦ preserves_pure _

theorem frame_clusterNodename (node : List Char) :
    Preserves World.frame (clusterNodename node) := by
  refine (preserves_isNodeInCluster frame_setErrnum node).bind fun rv ↦ ?_
  split_ifs
  · exact preserves_getNodename frame_setErrnum node
  · exact preserves_failWith frame_setErrnum _

theorem frame_knownNodename (node : List Char) : Preserves World.frame (knownNodename node) := by
  refine (preserves_findNode frame_setNodes true node).bind fun inUp ↦ ?_
  split_ifs
  · exact preserves_pure _
  · refine (preserves_findNode frame_setNodes false node).bind fun inDown ↦ ?_
    split_ifs
    · exact preserves_pure _
    · exact preserves_failWith frame_setErrnum _

theorem frame_queryNodename (node : List Char) : Preserves World.frame (queryNodename node) := by
  intro w value w' h
  unfold queryNodename at h
  split_ifs at h
  · exact frame_clusterNodename node w value w' h
  · exact frame_knownNodename node w value w' h

theorem frame_isNode (up : Bool) (node : Option (List Char)) :
    Preserves World.frame (isNode up node) := by
  refine frame_loadedHandleErrorCheck.bind fun _ ↦ ?_
  split
  · exact preserves_failWith frame_setErrnum _
  · exact (frame_queryNodename _).bind fun nodename ↦
        (preserves_findNode frame_setNodes up nodename).bind fun _ ↦
      frame_succeed _

theorem frame_getNodesString (up : Bool) (buf : Option (List Char)) (buflen : ℤ) :
    Preserves World.frame (getNodesString up buf buflen) := by
  refine frame_loadedHandleErrorCheck.bind fun _ ↦ ?_
  split
  · exact preserves_failWith frame_setErrnum _
  · split_ifs
    · exact preserves_failWith frame_setErrnum _
    · refine (preserves_theNodes up).bind fun hl ↦ ?_
      split
      · exact preserves_fault _
      · split_ifs
        · exact preserves_failWith frame_setErrnum _
        · exact frame_succeed _

theorem frame_getNodesList (up : Bool) (list : Option (List (Option Unit))) :
    Preserves World.frame (getNodesList up list) := by
  refine frame_loadedHandleErrorCheck.bind fun _ ↦ ?_
  split
  · exact preserves_failWith frame_setErrnum _
  · split_ifs
    · exact preserves_failWith frame_setErrnum _
    · refine (preserves_theNodes up).bind fun hl ↦ ?_
      split
      · exact preserves_failWith frame_setErrnum _
      · exact frame_succeed _

theorem frame_findLastUpTime (node : List Char) : Preserves World.frame (findLastUpTime node) := by
  intro w value w' h
  unfold findLastUpTime at h
  split at h
  · obtain ⟨rfl, rfl⟩ := h
    rfl
  · split_ifs at h
    · obtain ⟨rfl, rfl⟩ := h
      rfl
    · split at h
      · obtain ⟨rfl, rfl⟩ := h
        rfl
      · exact frame_succeed _ w value w' h

theorem frame_lastUpTime (node : Option (List Char)) : Preserves World.frame (lastUpTime node) := by
  refine frame_loadedHandleErrorCheck.bind fun _ ↦ ?_
  split
  · exact preserves_failWith frame_setErrnum _
  · exact frame_findLastUpTime _

/-- No query changes the frame. -/
theorem frame_query (query : Query) : Preserves World.frame query.run := by
  cases query with
  | isNode up node => exact (frame_isNode up node).map _
  | nodeCount up =>
    exact (frame_loadedHandleErrorCheck.bind fun _ ↦ (preserves_theNodes up).bind fun _ ↦
      frame_succeed _).map _
  | nodesString up buf buflen => exact (frame_getNodesString up buf buflen).map _
  | nodesList up list => exact (frame_getNodesList up list).map _
  | lastUpTime node => exact (frame_lastUpTime node).map _
  | nodelistCreate =>
    exact (frame_loadedHandleErrorCheck.bind fun _ ↦ (preserves_look _).bind fun _ ↦
      frame_succeed _).map _

/-- Assumes: an attempt that starts with the check for a loaded handle, on a fresh handle. It gives
up there. -/
theorem bind_loadedCheck_fresh {α : Type} (rest : Unit → Nodeupdown α) {w : World}
    (h : w.handle.forgetErrnum = newHandle) :
    (loadedHandleErrorCheck >>= rest) w = .ok (none, w.setErrnum .notloaded) := by
  have hmagic : w.handle.magic = magicNum := congrArg Handle.magic h
  have hstate : w.handle.loadState = .unloaded := congrArg Handle.loadState h
  refine attempt_bind_none.mpr (Or.inl ?_)
  simp [loadedHandleErrorCheck, hmagic, hstate]

/-- A query on a fresh handle fails, whatever the process. -/
theorem query_fresh (query : Query) {w : World} (h : w.handle.forgetErrnum = newHandle) :
    query.run w = .ok (none, w.setErrnum .notloaded) := by
  cases query <;> exact attempt_bind_none.mpr (Or.inl (bind_loadedCheck_fresh _ h))

/-! ### Two runs -/

/-- The pointer that a call is made with; of the creation of a handle, the one it may return. -/
def ApiCall.pointer : ApiCall → Option ℕ
  | .create address => address
  | .load pointer _ _ => pointer
  | .query pointer _ => pointer
  | .destroy pointer => pointer

/-- A call on the handle at an address. -/
def ApiCall.On (address : ℕ) (call : ApiCall) : Prop :=
  call.pointer = some address

instance (address : ℕ) : DecidablePred (ApiCall.On address) :=
  fun call ↦ inferInstanceAs (Decidable (call.pointer = some address))

/-- The calls of a run on the handle at an address, with what the application sees of them. -/
def answersOn (address : ℕ) (answers : List (ApiCall × Answer)) : List (ApiCall × Answer) :=
  answers.filter fun answer ↦ answer.1.On address

/-- The handle at an address is loaded. -/
def Process.Loaded (process : Process) (address : ℕ) : Prop :=
  (process.handles address).map Handle.loadState = some .loaded

instance (process : Process) (address : ℕ) : Decidable (process.Loaded address) :=
  inferInstanceAs (Decidable ((process.handles address).map Handle.loadState = some .loaded))

/-- A call that leaves the modules of a loaded handle to it: `h2` is loaded or destroyed while `h1`
is not loaded, and `h1` is loaded while `h2` is not. -/
def Undisturbed (h1 h2 : ℕ) (process : Process) : ApiCall → Prop
  | .load pointer _ _ =>
    (pointer = some h2 → ¬process.Loaded h1) ∧ (pointer = some h1 → ¬process.Loaded h2)
  | .destroy pointer => pointer = some h2 → ¬process.Loaded h1
  | _ => True

instance (h1 h2 : ℕ) (process : Process) (call : ApiCall) :
    Decidable (Undisturbed h1 h2 process call) :=
  match call with
  | .load pointer _ _ =>
    inferInstanceAs (Decidable ((pointer = some h2 → ¬process.Loaded h1) ∧
      (pointer = some h1 → ¬process.Loaded h2)))
  | .destroy pointer => inferInstanceAs (Decidable (pointer = some h2 → ¬process.Loaded h1))
  | .create _ | .query _ _ => inferInstanceAs (Decidable True)

/-- Every call of a run leaves the modules of a loaded handle to it. -/
def UndisturbedRun (h1 h2 : ℕ) : Process → List ApiCall → Prop
  | _, [] => True
  | process, call :: calls =>
    Undisturbed h1 h2 process call ∧
      ∀ result ∈ (call.run process).toOption, UndisturbedRun h1 h2 result.2 calls

instance decidableUndisturbedRun (h1 h2 : ℕ) :
    ∀ (process : Process) (calls : List ApiCall), Decidable (UndisturbedRun h1 h2 process calls)
  | _, [] => inferInstanceAs (Decidable True)
  | process, call :: calls =>
    have : ∀ process, Decidable (UndisturbedRun h1 h2 process calls) := fun process ↦
      decidableUndisturbedRun h1 h2 process calls
    inferInstanceAs (Decidable (Undisturbed h1 h2 process call ∧
      ∀ result ∈ (call.run process).toOption, UndisturbedRun h1 h2 result.2 calls))

/-! ### One call -/

/-- What a call on the handle at an address does: it works on the modules of the process and on this
handle. -/
def ApiCall.effect (address : ℕ) (call : ApiCall) (lib : Library) (handle : Option Handle) :
    Except LibFault (Answer × Library × Option Handle) :=
  match call, handle with
  | .create _, none => .ok (.pointer (some address), lib, some newHandle)
  | .create _, some handle => .ok (.pointer none, lib, some handle)
  | .load _ env args, some handle =>
    (loadData env args ⟨lib, handle, []⟩).map fun result ↦
      (.number result.1, result.2.lib, some result.2.handle)
  | .query _ asked, some handle =>
    (asked.run ⟨lib, handle, []⟩).map fun result ↦
      (result.1.getD (.number (-1)), result.2.lib, some result.2.handle)
  | .destroy _, some handle =>
    if handle.magic ≠ magicNum then .ok (.number (-1), lib, some handle)
    else .ok (.number 0, (freeHandleData ⟨lib, handle, []⟩).lib, none)
  | _, none => .error .nullPointer

theorem update_eq_of_eq {handles : ℕ → Option Handle} {address : ℕ} {handle : Option Handle}
    (h : handles address = handle) : Function.update handles address handle = handles := by
  rw [← h, Function.update_eq_self]

/-- A call on the handle at an address depends on the modules and on this handle, and leaves all
others alone. -/
theorem run_eq_effect {call : ApiCall} {address : ℕ} (process : Process) (hon : call.On address) :
    call.run process = (call.effect address process.lib (process.handles address)).map fun result ↦
      (result.1, ⟨result.2.1, Function.update process.handles address result.2.2⟩) := by
  cases call with
  | create =>
    obtain rfl : _ = some address := hon
    cases hhandle : process.handles address with
    | none => simp [ApiCall.run, ApiCall.effect, nodeupdownHandleCreate, hhandle, Except.map]
    | some handle =>
      simp [ApiCall.run, ApiCall.effect, nodeupdownHandleCreate, hhandle, Except.map,
        update_eq_of_eq hhandle]
  | load pointer env args =>
    obtain rfl : pointer = some address := hon
    cases hhandle : process.handles address with
    | none => simp [ApiCall.run, ApiCall.effect, nodeupdownLoadData, hhandle, Except.map]
    | some handle =>
      simp only [ApiCall.run, ApiCall.effect, nodeupdownLoadData, hhandle, Process.world,
        Process.put]
      cases loadData env args ⟨process.lib, handle, []⟩ <;> rfl
  | query pointer asked =>
    obtain rfl : pointer = some address := hon
    cases hhandle : process.handles address with
    | none => simp [ApiCall.run, ApiCall.effect, nodeupdownQuery, hhandle, Except.map]
    | some handle =>
      simp only [ApiCall.run, ApiCall.effect, nodeupdownQuery, hhandle, Process.world, Process.put]
      cases asked.run ⟨process.lib, handle, []⟩ <;> rfl
  | destroy pointer =>
    obtain rfl : pointer = some address := hon
    cases hhandle : process.handles address with
    | none => simp [ApiCall.run, ApiCall.effect, nodeupdownHandleDestroy, hhandle, Except.map]
    | some handle =>
      simp only [ApiCall.run, ApiCall.effect, nodeupdownHandleDestroy, hhandle, Process.world]
      split_ifs
      · simp [Except.map, update_eq_of_eq hhandle]
      · rfl

/-- What a call that returns has done. -/
theorem effect_of_run {call : ApiCall} {address : ℕ} {process next : Process} {answer : Answer}
    (hon : call.On address) (hrun : call.run process = .ok (answer, next)) :
    call.effect address process.lib (process.handles address) =
        .ok (answer, next.lib, next.handles address) ∧
      ∀ other, other ≠ address → next.handles other = process.handles other := by
  rw [run_eq_effect process hon] at hrun
  cases heffect : call.effect address process.lib (process.handles address) with
  | error failure => simp [heffect, Except.map] at hrun
  | ok result =>
    rw [heffect] at hrun
    obtain ⟨rfl, rfl⟩ := Prod.mk.inj (Except.ok.inj hrun)
    exact ⟨by simp, fun other hne ↦ Function.update_of_ne hne _ _⟩

/-- A call runs where what it works on is the same. -/
theorem run_of_effect {call : ApiCall} {address : ℕ} {process : Process} {answer : Answer}
    {lib : Library}
    {handle : Option Handle} (hon : call.On address)
    (heffect : call.effect address process.lib (process.handles address) =
      .ok (answer, lib, handle)) :
    ∃ next, call.run process = .ok (answer, next) ∧ next.lib = lib ∧ next.handles address =
      handle := by
  rw [run_eq_effect process hon, heffect]
  exact ⟨_, rfl, rfl, Function.update_self _ _ _⟩

/-! ### One handle -/

/-- What is known of a handle, if there is one, and of the modules: it is new but for its error
number, or it is loaded and the modules are as its load has left them. -/
def Steady (lib : Library) (handle : Option Handle) : Prop :=
  ∀ h, handle = some h → h.forgetErrnum = newHandle ∨
    (h.loadState = .loaded ∧ World.Late ⟨lib, h, []⟩)

/-- A handle that is there and loaded. -/
def LoadedHandle (handle : Option Handle) : Prop :=
  handle.map Handle.loadState = some .loaded

/-- The reports that a world holds do not matter. -/
theorem World.Late.of_world {w : World} {reports : List BackendCall} (h : w.Late) :
    World.Late ⟨w.lib, w.handle, reports⟩ :=
  ⟨⟨h.1.magic, h.1.ltdl, h.1.hosts⟩, h.2⟩

theorem World.Fresh.sound {w : World} (h : w.Fresh) : w.Sound := by
  have hmagic : w.handle.magic = magicNum := congrArg Handle.magic h.handle
  have hltdl : w.handle.ltdlInitialized = false := congrArg Handle.ltdlInitialized h.handle
  exact ⟨hmagic, by simp [h.lib, hltdl, Library.unused], by simp [h.lib, Library.unused]⟩

theorem not_loaded_of_fresh {handle : Handle} (h : handle.forgetErrnum = newHandle) :
    ¬LoadedHandle (some handle) := by
  have hstate : handle.loadState = .unloaded := congrArg Handle.loadState h
  simp [LoadedHandle, hstate]

/-- A steady handle that is not loaded is new but for its error number. -/
theorem Steady.fresh {lib : Library} {handle : Handle} (h : Steady lib (some handle))
    (hloaded : ¬LoadedHandle (some handle)) : handle.forgetErrnum = newHandle := by
  rcases h handle rfl with hfresh | ⟨hstate, -⟩
  · exact hfresh
  · exact absurd (by simp [LoadedHandle, hstate]) hloaded

/-- A handle that is not loaded stays steady whatever becomes of the modules. -/
theorem Steady.of_not_loaded {lib lib' : Library} {handle : Option Handle} (h : Steady lib handle)
    (hloaded : ¬LoadedHandle handle) : Steady lib' handle := by
  rintro handle rfl
  exact Or.inl (h.fresh hloaded)

theorem steady_of_fresh {lib : Library} {handle : Handle} (h : handle.forgetErrnum = newHandle) :
    Steady lib (some handle) := by
  rintro _ ⟨⟩
  exact Or.inl h

/-- A query leaves the modules alone, and a handle steady. -/
theorem query_steady {asked : Query} {lib : Library} {handle : Handle}
    {answer : Option Answer} {w : World}
    (hsteady : Steady lib (some handle)) (hrun : asked.run ⟨lib, handle, []⟩ = .ok (answer, w)) :
    w.lib = lib ∧ Steady w.lib (some w.handle) ∧
      (LoadedHandle (some w.handle) ↔ LoadedHandle (some handle)) := by
  have hframe := frame_query asked _ _ _ hrun
  have hlib : w.lib = lib := congrArg Prod.fst hframe
  have hstate : w.handle.loadState = handle.loadState := congrArg (fun frame ↦ frame.2.2.2) hframe
  refine ⟨hlib, ?_, by simp [LoadedHandle, hstate]⟩
  rcases hsteady handle rfl with hfresh | ⟨hloaded, hlate⟩
  · rw [query_fresh asked (w := ⟨lib, handle, []⟩) hfresh] at hrun
    obtain ⟨-, rfl⟩ := Prod.mk.inj (Except.ok.inj hrun)
    exact steady_of_fresh hfresh
  · rintro _ ⟨⟩
    exact Or.inr ⟨hstate.trans hloaded,
      (late_of_core (core_of_frame (frame_query asked)) _ _ w hlate hrun).of_world⟩

/-- A load leaves a handle steady, and a process in which nothing is loaded unless the handle is. -/
theorem loadData_steady {env : LoadEnv} {args : LoadArgs} {lib : Library} {handle : Handle}
    {rv : ℤ} {w : World}
    (hsteady : Steady lib (some handle)) (hunused : ¬LoadedHandle (some handle) →
      lib = Library.unused)
    (hload : loadData env args ⟨lib, handle, []⟩ = .ok (rv, w)) :
    Steady w.lib (some w.handle) ∧ (¬LoadedHandle (some w.handle) → w.lib = Library.unused) := by
  rcases hsteady handle rfl with hfresh | ⟨hstate, hlate⟩
  · rcases loadData_fresh ⟨hunused (not_loaded_of_fresh hfresh), hfresh⟩ hload with
      ⟨-, hlate, hstate, -⟩ | ⟨-, hfresh'⟩
    · refine ⟨?_, fun hloaded ↦ absurd (by simp [LoadedHandle, hstate]) hloaded⟩
      rintro _ ⟨⟩
      exact Or.inr ⟨hstate, hlate.of_world⟩
    · exact ⟨steady_of_fresh hfresh'.handle, fun _ ↦ hfresh'.lib⟩
  · have hcheck : unloadedHandleErrorCheck handle =
        (false, { handle with errnum := .isloaded }) := by
      have hmagic : handle.magic = magicNum := hlate.1.magic
      simp [unloadedHandleErrorCheck, hmagic, hstate]
    unfold loadData at hload
    simp only [hcheck, Bool.false_eq_true, not_false_eq_true, if_true] at hload
    obtain ⟨-, rfl⟩ := Prod.mk.inj (Except.ok.inj hload)
    have hsound : World.Sound ⟨lib, { handle with errnum := .isloaded }, []⟩ :=
      ⟨hlate.1.magic, hlate.1.ltdl, hlate.1.hosts⟩
    obtain ⟨hlib, hhandle⟩ := freeHandleData_sound hsound
    exact ⟨steady_of_fresh hhandle, fun _ ↦ hlib⟩

/-- Assumes: a steady handle in a process in which nothing is loaded if the handle is not. So it is
behind every call on the handle. -/
theorem effect_steady {call : ApiCall} {address : ℕ} {lib lib' : Library}
    {handle handle' : Option Handle}
    {answer : Answer} (hsteady : Steady lib handle) (hunused : ¬LoadedHandle handle →
      lib = Library.unused)
    (heffect : call.effect address lib handle = .ok (answer, lib', handle')) :
    Steady lib' handle' ∧ (¬LoadedHandle handle' → lib' = Library.unused) := by
  cases handle with
  | none =>
    cases call with
    | create =>
      obtain ⟨-, rfl, rfl⟩ := heffect
      exact ⟨steady_of_fresh rfl, fun _ ↦ hunused (by simp [LoadedHandle])⟩
    | load => exact absurd heffect (by simp [ApiCall.effect])
    | query => exact absurd heffect (by simp [ApiCall.effect])
    | destroy => exact absurd heffect (by simp [ApiCall.effect])
  | some handle =>
    have hsound : World.Sound ⟨lib, handle, []⟩ := by
      rcases hsteady handle rfl with hfresh | ⟨-, hlate⟩
      · exact World.Fresh.sound ⟨hunused (not_loaded_of_fresh hfresh), hfresh⟩
      · exact hlate.1
    cases call with
    | create =>
      obtain ⟨-, rfl, rfl⟩ := heffect
      exact ⟨hsteady, hunused⟩
    | load pointer env args =>
      obtain ⟨⟨rv, w⟩, hload, hresult⟩ := map_eq_ok.mp heffect
      obtain ⟨-, rfl, rfl⟩ := hresult
      exact loadData_steady hsteady hunused hload
    | query pointer asked =>
      obtain ⟨⟨value, w⟩, hquery, hresult⟩ := map_eq_ok.mp heffect
      obtain ⟨-, rfl, rfl⟩ := hresult
      obtain ⟨hlib, hsteady', hiff⟩ := query_steady hsteady hquery
      exact ⟨hsteady', fun hloaded ↦ hlib.trans (hunused fun h ↦ hloaded (hiff.mpr h))⟩
    | destroy pointer =>
      have hmagic : handle.magic = magicNum := hsound.magic
      simp only [ApiCall.effect, hmagic, ne_eq, not_true_eq_false, if_false] at heffect
      obtain ⟨-, rfl, rfl⟩ := heffect
      exact ⟨by rintro _ ⟨⟩, fun _ ↦ (freeHandleData_sound hsound).1⟩

/-- Assumes: a steady handle that is not loaded, and a call on it that is no load. The handle stays
so, and the call does the same in a process in which nothing is loaded. -/
theorem effect_bystander {call : ApiCall} {address : ℕ} {lib lib' : Library}
    {handle handle' : Option Handle}
    {answer : Answer} (hsteady : Steady lib handle) (hloaded : ¬LoadedHandle handle)
    (hload : ∀ pointer env args, call ≠ .load pointer env args)
    (heffect : call.effect address lib handle = .ok (answer, lib', handle')) :
    Steady lib' handle' ∧ ¬LoadedHandle handle' ∧
      call.effect address Library.unused handle = .ok (answer, Library.unused, handle') := by
  cases handle with
  | none =>
    cases call with
    | create =>
      obtain ⟨rfl, rfl, rfl⟩ := heffect
      exact ⟨steady_of_fresh rfl, not_loaded_of_fresh rfl, rfl⟩
    | load => exact absurd heffect (by simp [ApiCall.effect])
    | query => exact absurd heffect (by simp [ApiCall.effect])
    | destroy => exact absurd heffect (by simp [ApiCall.effect])
  | some handle =>
    have hfresh := hsteady.fresh hloaded
    cases call with
    | create =>
      obtain ⟨rfl, rfl, rfl⟩ := heffect
      exact ⟨hsteady, hloaded, rfl⟩
    | load pointer env args => exact absurd rfl (hload pointer env args)
    | query pointer asked =>
      have hrun : ∀ lib, asked.run ⟨lib, handle, []⟩ =
          .ok (none, World.setErrnum .notloaded ⟨lib, handle, []⟩) := fun lib ↦
        query_fresh asked (w := ⟨lib, handle, []⟩) hfresh
      simp only [ApiCall.effect, hrun, Except.map] at heffect ⊢
      obtain ⟨rfl, rfl, rfl⟩ := heffect
      exact ⟨steady_of_fresh hfresh, not_loaded_of_fresh hfresh, rfl⟩
    | destroy pointer =>
      have hmagic : handle.magic = magicNum := congrArg Handle.magic hfresh
      have hsound : World.Sound ⟨Library.unused, handle, []⟩ := World.Fresh.sound ⟨rfl, hfresh⟩
      simp only [ApiCall.effect, hmagic, ne_eq, not_true_eq_false, if_false,
        (freeHandleData_sound hsound).1] at heffect ⊢
      obtain ⟨rfl, rfl, rfl⟩ := heffect
      exact ⟨by rintro _ ⟨⟩, by simp [LoadedHandle], rfl⟩

/-- The cleanup of a handle that is not loaded spares the modules of one that is. -/
theorem freeHandleData_late {lib : Library} {handle other : Handle}
    (hfresh : handle.forgetErrnum = newHandle)
    (hlate : World.Late ⟨lib, other, []⟩) :
    World.Late ⟨(freeHandleData ⟨lib, handle, []⟩).lib, other, []⟩ := by
  have hltdl : handle.ltdlInitialized = false := congrArg Handle.ltdlInitialized hfresh
  have hhosts : (freeHandleData ⟨lib, handle, []⟩).lib.hosts = none := by
    simp only [freeHandleData, lib_noteErrnum, lib_setLib]
    exact hostsAfterCleanup_none hlate.1.hosts
  refine ⟨⟨hlate.1.magic, ?_, ?_⟩, hlate.2⟩
  · have hcount : (freeHandleData ⟨lib, handle, []⟩).lib.ltdlCount = lib.ltdlCount := by
      simp [freeHandleData, hltdl]
    exact hcount.trans hlate.1.ltdl
  · exact fun hne ↦ absurd hhosts hne

/-! ### Two handles -/

/-- What relates a process to the one in which nothing is done with `h2`. -/
structure LeavesOut (h1 h2 : ℕ) (process process' : Process) : Prop where
  handles : process'.handles h1 = process.handles h1
  steady1 : Steady process.lib (process.handles h1)
  steady2 : Steady process.lib (process.handles h2)
  apart : ¬(process.Loaded h1 ∧ process.Loaded h2)
  /-- The modules are those of `h1`, unless `h2` is loaded. -/
  lib : ¬process.Loaded h2 → process'.lib = process.lib
  /-- Without `h2` the process holds nothing, unless `h1` is loaded. -/
  unused : ¬process.Loaded h1 → process'.lib = Library.unused

/-- A call that neither loads nor destroys leaves the modules alone. -/
theorem effect_lib {call : ApiCall} {address : ℕ} {lib lib' : Library}
    {handle handle' : Option Handle}
    {answer : Answer} (hload : ∀ pointer env args, call ≠ .load pointer env args)
    (hdestroy : ∀ pointer, call ≠ .destroy pointer)
    (heffect : call.effect address lib handle = .ok (answer, lib', handle')) : lib' = lib := by
  cases call with
  | create => cases handle <;> exact (Prod.mk.inj (Prod.mk.inj (Except.ok.inj heffect)).2).1.symm
  | load pointer env args => exact absurd rfl (hload pointer env args)
  | destroy pointer => exact absurd rfl (hdestroy pointer)
  | query pointer asked =>
    cases handle with
    | none => exact absurd heffect (by simp [ApiCall.effect])
    | some handle =>
      obtain ⟨⟨value, w⟩, hquery, hresult⟩ := map_eq_ok.mp heffect
      obtain ⟨-, rfl, -⟩ := hresult
      exact congrArg Prod.fst (frame_query asked _ _ _ hquery)

/-- The modules of a loaded handle are spared by a call on a handle that is not loaded, unless it is
a load. -/
theorem effect_spares {call : ApiCall} {address : ℕ} {lib lib' : Library}
    {handle handle' other : Option Handle}
    {answer : Answer} (hsteady : Steady lib handle) (hloaded : ¬LoadedHandle handle)
    (hother : Steady lib other)
    (hload : ∀ pointer env args, call ≠ .load pointer env args)
    (heffect : call.effect address lib handle = .ok (answer, lib', handle')) :
      Steady lib' other := by
  by_cases hdestroy : ∃ pointer, call = .destroy pointer
  · obtain ⟨pointer, rfl⟩ := hdestroy
    cases handle with
    | none => exact absurd heffect (by simp [ApiCall.effect])
    | some handle =>
      have hfresh := hsteady.fresh hloaded
      have hmagic : handle.magic = magicNum := congrArg Handle.magic hfresh
      simp only [ApiCall.effect, hmagic, ne_eq, not_true_eq_false, if_false] at heffect
      obtain ⟨-, rfl, -⟩ := heffect
      rintro other rfl
      exact (hother other rfl).imp_right fun ⟨hstate, hlate⟩ ↦
        ⟨hstate, freeHandleData_late hfresh hlate⟩
  · rw [effect_lib hload (fun pointer h ↦ hdestroy ⟨pointer, h⟩) heffect]
    exact hother

/-- One call on `h2`: the process in which nothing is done with `h2` stands still. -/
theorem LeavesOut.step_other {h1 h2 : ℕ} {process process' next : Process} {call : ApiCall}
    {answer : Answer}
    (hne : h1 ≠ h2) (h : LeavesOut h1 h2 process process') (hon : call.On h2)
    (hcall : Undisturbed h1 h2 process call) (hrun : call.run process = .ok (answer, next)) :
    LeavesOut h1 h2 next process' := by
  obtain ⟨heffect, hothers⟩ := effect_of_run hon hrun
  have hsame : next.handles h1 = process.handles h1 := hothers h1 hne
  have hpointer : call.pointer = some h2 := hon
  by_cases hloaded : process.Loaded h1
  · have hload : ∀ pointer env args, call ≠ .load pointer env args := by
      rintro pointer env args rfl
      exact hcall.1 hpointer hloaded
    have hdestroy : ∀ pointer, call ≠ .destroy pointer := by
      rintro pointer rfl
      exact hcall hpointer hloaded
    have hnot : ¬process.Loaded h2 := fun h2loaded ↦ h.apart ⟨hloaded, h2loaded⟩
    obtain ⟨hsteady2, hnot2, -⟩ := effect_bystander h.steady2 hnot hload heffect
    have hlib := effect_lib hload hdestroy heffect
    refine ⟨by rw [hsame, h.handles], by rw [hlib, hsame]; exact h.steady1, hsteady2,
      fun hboth ↦ hnot2 hboth.2, fun _ ↦ by rw [hlib, h.lib hnot], fun hnot1 ↦ ?_⟩
    exact absurd (by unfold Process.Loaded at hloaded ⊢; rwa [hsame]) hnot1
  · have hnot1 : ¬next.Loaded h1 := by
      unfold Process.Loaded at hloaded ⊢
      rwa [hsame]
    have hunused := h.unused hloaded
    obtain ⟨hsteady2, hunused2⟩ := effect_steady h.steady2
      (fun hnot2 ↦ (h.lib hnot2).symm.trans hunused) heffect
    exact ⟨by rw [hsame, h.handles], by rw [hsame]; exact h.steady1.of_not_loaded hloaded, hsteady2,
      fun hboth ↦ hnot1 hboth.1, fun hnot2 ↦ hunused.trans (hunused2 hnot2).symm, fun _ ↦ hunused⟩

/-- One call on `h1`: it does the same in the process in which nothing is done with `h2`. -/
theorem LeavesOut.step_self {h1 h2 : ℕ} {process process' next : Process} {call : ApiCall}
    {answer : Answer}
    (hne : h1 ≠ h2) (h : LeavesOut h1 h2 process process') (hon : call.On h1)
    (hcall : Undisturbed h1 h2 process call) (hrun : call.run process = .ok (answer, next)) :
    ∃ next', call.run process' = .ok (answer, next') ∧ LeavesOut h1 h2 next next' := by
  obtain ⟨heffect, hothers⟩ := effect_of_run hon hrun
  have hsame : next.handles h2 = process.handles h2 := hothers h2 hne.symm
  have hpointer : call.pointer = some h1 := hon
  by_cases hloaded : process.Loaded h2
  · have hload : ∀ pointer env args, call ≠ .load pointer env args := by
      rintro pointer env args rfl
      exact hcall.2 hpointer hloaded
    have hnot : ¬process.Loaded h1 := fun h1loaded ↦ h.apart ⟨h1loaded, hloaded⟩
    obtain ⟨hsteady1, hnot1, heffect'⟩ := effect_bystander h.steady1 hnot hload heffect
    rw [← h.handles, ← h.unused hnot] at heffect'
    obtain ⟨next', hrun', hlib', hhandle'⟩ := run_of_effect hon heffect'
    refine ⟨next', hrun', hhandle', hsteady1, ?_, fun hboth ↦ hnot1 hboth.1, fun hnot2 ↦
      ?_, fun _ ↦ ?_⟩
    · rw [hsame]
      exact effect_spares h.steady1 hnot h.steady2 hload heffect
    · exact absurd (by unfold Process.Loaded at hloaded ⊢; rwa [hsame]) hnot2
    · exact hlib'.trans (h.unused hnot)
  · have hnot2 : ¬next.Loaded h2 := by
      unfold Process.Loaded at hloaded ⊢
      rwa [hsame]
    obtain ⟨hsteady1, hunused1⟩ := effect_steady h.steady1
      (fun hnot1 ↦ (h.lib hloaded).symm.trans (h.unused hnot1)) heffect
    rw [← h.handles, ← h.lib hloaded] at heffect
    obtain ⟨next', hrun', hlib', hhandle'⟩ := run_of_effect hon heffect
    exact ⟨next', hrun', hhandle', hsteady1, by rw [hsame]; exact h.steady2.of_not_loaded hloaded,
      fun hboth ↦ hnot2 hboth.2, fun _ ↦ hlib', fun hnot1 ↦ hlib'.trans (hunused1 hnot1)⟩

/-! ### Whole runs -/

/-- The start of a process. -/
theorem leavesOut_start (h1 h2 : ℕ) : LeavesOut h1 h2 Process.start Process.start := by
  refine ⟨rfl, ?_, ?_, ?_, fun _ ↦ rfl, fun _ ↦ rfl⟩
  · rintro _ ⟨⟩
  · rintro _ ⟨⟩
  · rintro ⟨⟨⟩, -⟩

/-- What holds between a run and the same run without the calls on `h2`, whatever they start
from. -/
theorem LeavesOut.run {h1 h2 : ℕ} (hne : h1 ≠ h2) {calls : List ApiCall}
    (hcalls : ∀ call ∈ calls, call.On h1 ∨ call.On h2) {process process' next : Process}
    {before after : List (ApiCall × Answer)} (h : LeavesOut h1 h2 process process')
    (hundisturbed : UndisturbedRun h1 h2 process calls)
    (hrun : calls.foldlM apiStep (process, before) = .ok (next, after)) :
    ∃ next', (calls.filter (ApiCall.On h1)).foldlM apiStep (process', answersOn h1 before) =
      .ok (next', answersOn h1 after) ∧ LeavesOut h1 h2 next next' := by
  induction calls generalizing process process' before with
  | nil =>
    obtain ⟨rfl, rfl⟩ := Prod.mk.inj (Except.ok.inj hrun)
    exact ⟨process', rfl, h⟩
  | cons call calls ih =>
    rw [List.foldlM_cons] at hrun
    obtain ⟨⟨middle, noted⟩, hstep, hrest⟩ := bind_eq_ok.mp hrun
    obtain ⟨⟨answer, _⟩, hcall, hnoted⟩ := map_eq_ok.mp hstep
    obtain ⟨rfl, rfl⟩ := Prod.mk.inj hnoted
    have hcalls' : ∀ call ∈ calls, call.On h1 ∨ call.On h2 := fun call hmem ↦
      hcalls call (List.mem_cons_of_mem _ hmem)
    have hundisturbed' := hundisturbed.2 (answer, _) (by rw [hcall]; rfl)
    by_cases hon : call.On h1
    · obtain ⟨middle', hcall', hmiddle⟩ := h.step_self hne hon hundisturbed.1 hcall
      obtain ⟨next', hrest', hnext⟩ := ih hcalls' hmiddle hundisturbed' hrest
      refine ⟨next', ?_, hnext⟩
      have hnoted' : answersOn h1 (before ++ [(call, answer)]) = answersOn h1 before ++
          [(call, answer)] := by
        simp [answersOn, hon]
      rw [hnoted'] at hrest'
      rw [List.filter_cons_of_pos (by simpa using hon), List.foldlM_cons]
      exact bind_eq_ok.mpr ⟨_, map_eq_ok.mpr ⟨_, hcall', rfl⟩, hrest'⟩
    · have hon2 := (hcalls call List.mem_cons_self).resolve_left hon
      have hmiddle := h.step_other hne hon2 hundisturbed.1 hcall
      obtain ⟨next', hrest', hnext⟩ := ih hcalls' hmiddle hundisturbed' hrest
      refine ⟨next', ?_, hnext⟩
      have hnoted' : answersOn h1 (before ++ [(call, answer)]) = answersOn h1 before := by
        simp [answersOn, hon]
      rw [hnoted'] at hrest'
      rwa [List.filter_cons_of_neg (by simpa using hon)]

/-- Assumes: a run of calls on two handles that leaves the modules of a loaded handle to it. Every
call on the first handle returns what it returns in the run in which all calls on the second are
left out, and the handle is the same behind both. -/
theorem handles_independent {h1 h2 : ℕ} (hne : h1 ≠ h2) {calls : List ApiCall}
    (hcalls : ∀ call ∈ calls, call.On h1 ∨ call.On h2)
    (hundisturbed : UndisturbedRun h1 h2 Process.start calls) {process : Process}
    {answers : List (ApiCall × Answer)}
    (hrun : runApi Process.start calls = .ok (process, answers)) :
    ∃ process', runApi Process.start (calls.filter (ApiCall.On h1)) =
      .ok (process', answersOn h1 answers) ∧
      process'.handles h1 = process.handles h1 := by
  obtain ⟨process', hrun', hprocess⟩ := (leavesOut_start h1 h2).run hne hcalls hundisturbed hrun
  exact ⟨process', hrun', hprocess.handles⟩

/-! ### Two handles of one application -/

/-- The hostsfile module with one node, which the backend reports up. -/
def oneNodeEnv : LoadEnv :=
  plainEnv (plainBackend fun _ _ ↦ ⟨[.addUpNode "n1".toList], ⟨0, none⟩⟩) (some "n1\n".toList)

/-- The second handle has come and gone before the first one is loaded. -/
def callsInTurn : List ApiCall :=
  [.create (some 0), .create (some 1), .load (some 1) oneNodeEnv plainArgs, .destroy (some 1),
    .load (some 0) oneNodeEnv plainArgs, .query (some 0) (.isNode true (some "n1.site".toList))]

/-- The second handle comes and goes while the first one is loaded. -/
def callsAcross : List ApiCall :=
  [.create (some 0), .create (some 1), .load (some 0) oneNodeEnv plainArgs,
    .load (some 1) oneNodeEnv plainArgs, .destroy (some 1),
    .query (some 0) (.isNode true (some "n1.site".toList))]

/-- What the calls of a run on the handle at an address return. -/
def returned (address : ℕ) (run : Except LibFault (Process × List (ApiCall × Answer))) :
    Option (List Answer) :=
  run.toOption.map fun run ↦ (answersOn address run.2).map Prod.snd

/-- A run that returns something comes to an end. -/
theorem exists_of_returned {address : ℕ} {run : Except LibFault (Process × List (ApiCall × Answer))}
    {values : List Answer} (h : returned address run = some values) :
    ∃ process answers, run = .ok (process, answers) ∧ (answersOn address answers).map Prod.snd =
      values := by
  cases run with
  | error failure => exact absurd h (by simp [returned, Except.toOption])
  | ok run => exact ⟨run.1, run.2, rfl, Option.some_inj.mp h⟩

/-- The first handle answers as if the second had not been there. -/
theorem handles_independent_inTurn :
    UndisturbedRun 0 1 Process.start callsInTurn ∧ ∃ process answers,
      runApi Process.start callsInTurn = .ok (process, answers) ∧
        ∃ process', runApi Process.start (callsInTurn.filter (ApiCall.On 0)) =
          .ok (process', answersOn 0 answers) ∧ process'.handles 0 = process.handles 0 := by
  have hcalls : ∀ call ∈ callsInTurn, call.On 0 ∨ call.On 1 := by decide
  have hundisturbed : UndisturbedRun 0 1 Process.start callsInTurn := by decide +kernel
  have hreturned : returned 0 (runApi Process.start callsInTurn) =
      some [.pointer (some 0), .number 0, .number 1] := by decide +kernel
  obtain ⟨process, answers, hrun, -⟩ := exists_of_returned hreturned
  exact ⟨hundisturbed, process, answers, hrun,
    handles_independent (by decide) hcalls hundisturbed hrun⟩

/-- The first handle, still loaded, no longer knows a node by its long name: the answers differ. -/
theorem handles_not_independent :
    ¬∀ calls : List ApiCall, (∀ call ∈ calls, call.On 0 ∨ call.On 1) → ∀ process answers,
      runApi Process.start calls = .ok (process, answers) → ∃ process',
        runApi Process.start (calls.filter (ApiCall.On 0)) =
          .ok (process', answersOn 0 answers) := by
  intro h
  have hacross : returned 0 (runApi Process.start callsAcross) =
      some [.pointer (some 0), .number 0, .number (-1)] := by decide +kernel
  have halone : returned 0 (runApi Process.start (callsAcross.filter (ApiCall.On 0))) =
      some [.pointer (some 0), .number 0, .number 1] := by decide +kernel
  obtain ⟨process, answers, hrun, hanswers⟩ := exists_of_returned hacross
  obtain ⟨process', hrun'⟩ := h callsAcross (by decide) process answers hrun
  have hsame : answersOn 0 (answersOn 0 answers) = answersOn 0 answers := by simp [answersOn]
  rw [hrun', returned, Except.toOption, Option.map_some, hsame, hanswers] at halone
  exact absurd (Option.some_inj.mp halone) (by decide)

end Whatsup
