import Whatsup.Nodeupdown.Calls

/-!
# The entry check of a load

`nodeupdown_load_data` jumps to its cleanup when the entry check fails, too. The cleanup frees the
data of the handle and initializes it, so that a load turned away undoes an earlier one, makes a
handle of memory that is none, and uses the NULL pointer. `not_turnedAway` says that no call whose
entry check fails leaves the process as it was.
-/

set_option autoImplicit false
set_option relaxedAutoImplicit false

namespace Whatsup

open CLib

/-- The pointers that the entry check is to turn away: NULL, one to memory with a wrong magic
number, and one to a handle that is loaded. -/
def EntryCheckFails (process : Process) : Option ℕ → Prop
  | none => True
  | some address => ∃ handle, process.handles address = some handle ∧
      (handle.magic ≠ magicNum ∨ handle.loadState = .loaded)

/-- A call that is turned away: it returns `-1`, and nothing changes but the error number of the
handle. -/
def TurnedAway (process : Process) (pointer : Option ℕ)
    (outcome : Except LibFault (ℤ × Process)) : Prop :=
  ∃ process', outcome = .ok (-1, process') ∧ process'.lib = process.lib ∧
    ∀ address, if pointer = some address
      then (process'.handles address).map Handle.forgetErrnum =
        (process.handles address).map Handle.forgetErrnum
      else process'.handles address = process.handles address

/-- Behind a failed entry check the handle is initialized. -/
theorem loadData_entryCheckFails {env : LoadEnv} {args : LoadArgs} {w : World}
    (h : w.handle.magic ≠ magicNum ∨ w.handle.loadState = .loaded) :
    ∃ w', loadData env args w = .ok (-1, w') ∧ w'.handle.magic = magicNum ∧
      w'.handle.loadState = .unloaded := by
  have hcheck : (unloadedHandleErrorCheck w.handle).1 = false := by
    unfold unloadedHandleErrorCheck
    split_ifs with hmagic
    · rfl
    · rw [h.resolve_left hmagic]
  unfold loadData
  simp only [hcheck, Bool.false_eq_true, not_false_eq_true, if_true]
  exact ⟨_, rfl, rfl, rfl⟩

/-- A call on memory that is no handle or on a loaded handle changes more than its error number. -/
theorem not_turnedAway_of_handle (env : LoadEnv) (args : LoadArgs) {process : Process} {address : ℕ}
    {handle : Handle} (hhandle : process.handles address = some handle)
    (hfails : handle.magic ≠ magicNum ∨ handle.loadState = .loaded) :
    ¬TurnedAway process (some address) (nodeupdownLoadData env args (some address) process) := by
  rintro ⟨process', houtcome, -, hhandles⟩
  obtain ⟨w', hload, hmagic, hstate⟩ :=
    @loadData_entryCheckFails env args (process.world handle) hfails
  simp only [nodeupdownLoadData, hhandle, hload, Except.map, Except.ok.injEq, Prod.mk.injEq,
    true_and] at houtcome
  subst houtcome
  have hsame := hhandles address
  rw [if_pos rfl, Process.handles_put_self, hhandle, Option.map_some, Option.map_some,
    Option.some_inj] at hsame
  rcases hfails with hfails | hfails
  · exact hfails ((congrArg Handle.magic hsame).symm.trans hmagic)
  · have hloaded := (congrArg Handle.loadState hsame).symm.trans hstate
    exact absurd (hfails.symm.trans hloaded) (by decide)

/-- Assumes: a pointer that the entry check is to turn away. The call is not turned away, whatever
the process. -/
theorem not_turnedAway (env : LoadEnv) (args : LoadArgs) {process : Process} {pointer : Option ℕ}
    (h : EntryCheckFails process pointer) :
    ¬TurnedAway process pointer (nodeupdownLoadData env args pointer process) := by
  cases pointer with
  | none =>
    rintro ⟨process', houtcome, -⟩
    exact absurd houtcome (by simp [nodeupdownLoadData])
  | some address =>
    obtain ⟨handle, hhandle, hfails⟩ := h
    exact not_turnedAway_of_handle env args hhandle hfails

/-- A process with one handle. -/
def processOf (handle : Handle) : Process :=
  { Process.start with handles := fun address ↦ if address = 0 then some handle else none }

/-- An environment in which a load succeeds without a node. -/
def quietEnv : LoadEnv :=
  plainEnv (plainBackend fun _ _ ↦ ⟨[], ⟨0, none⟩⟩) none

/-- A loaded handle, one with a wrong magic number and the NULL pointer are used. -/
theorem not_turnedAway_three :
    (EntryCheckFails (processOf { newHandle with loadState := .loaded }) (some 0) ∧
      ¬TurnedAway (processOf { newHandle with loadState := .loaded }) (some 0)
        (nodeupdownLoadData quietEnv plainArgs (some 0)
          (processOf { newHandle with loadState := .loaded }))) ∧
    (EntryCheckFails (processOf { newHandle with magic := 1 }) (some 0) ∧
      ¬TurnedAway (processOf { newHandle with magic := 1 }) (some 0)
        (nodeupdownLoadData quietEnv plainArgs (some 0)
          (processOf { newHandle with magic := 1 }))) ∧
    EntryCheckFails Process.start none ∧
      ¬TurnedAway Process.start none (nodeupdownLoadData quietEnv plainArgs none Process.start) :=
  have hloaded : EntryCheckFails (processOf { newHandle with loadState := .loaded }) (some 0) :=
    ⟨_, rfl, Or.inr rfl⟩
  have hmagic : EntryCheckFails (processOf { newHandle with magic := 1 }) (some 0) :=
    ⟨_, rfl, Or.inl (show (1 : ℕ) ≠ magicNum by decide)⟩
  ⟨⟨hloaded, not_turnedAway quietEnv plainArgs hloaded⟩,
    ⟨hmagic, not_turnedAway quietEnv plainArgs hmagic⟩, trivial,
    not_turnedAway quietEnv plainArgs trivial⟩

/-- A handle that is created, loaded and loaded a second time: the second load undoes the first. -/
theorem secondLoad_not_turnedAway :
    ∃ process, process.Reachable ∧ EntryCheckFails process (some 0) ∧
      ¬TurnedAway process (some 0) (nodeupdownLoadData
        (plainEnv (plainBackend fun _ _ ↦ ⟨[.addUpNode "n1".toList], ⟨0, none⟩⟩) none)
          plainArgs (some 0)
        process) := by
  let env := plainEnv (plainBackend fun _ _ ↦ ⟨[.addUpNode "n1".toList], ⟨0, none⟩⟩) none
  have hrun : ∃ run, runApi Process.start [.create (some 0), .load (some 0) env plainArgs] =
    .ok run ∧
      (run.1.handles 0).map Handle.loadState = some .loaded := ⟨_, rfl, rfl⟩
  obtain ⟨⟨process, answers⟩, hrun, hloaded⟩ := hrun
  obtain ⟨handle, hhandle, hstate⟩ := Option.map_eq_some_iff.mp hloaded
  exact ⟨process, ⟨_, answers, hrun⟩, ⟨handle, hhandle, Or.inr hstate⟩,
    not_turnedAway_of_handle env plainArgs hhandle (Or.inr hstate)⟩

end Whatsup
