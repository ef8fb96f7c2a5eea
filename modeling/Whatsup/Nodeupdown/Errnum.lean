import Whatsup.Nodeupdown.Teardown

/-!
# Error numbers of a load

No part of a load reads the error number of its handle, and a part that fails has set it, given
modules that do so when they fail. `Tells` says both of a part of a load, and `loadBody_told` of a
whole load of a fresh handle: what comes of it does not depend on the error number that the handle
has before.
-/

set_option autoImplicit false
set_option relaxedAutoImplicit false

namespace Whatsup

open CLib

/-! ### Honest modules -/

/-- The module pointers and flags of `nodeupdown_module.c`. -/
def Library.modules (lib : Library) :
    ModuleSlot BackendInfo × ModuleSlot ClusterlistInfo × ModuleSlot ConfigInfo × ℕ :=
  (lib.backend, lib.clusterlist, lib.config, lib.clusterlistModuleFound)

/-- A function of a module that sets an error number if it fails, and never the one of success. -/
def Reply.Honest {α : Type} (failed : α → Prop) (reply : Reply α) : Prop :=
  reply.errnum ≠ some .success ∧ (failed reply.value → reply.errnum ≠ none)

/-- The value of a function that failed. -/
def Failed (value : ℤ) : Prop :=
  value < 0

/-- A backend module that sets an error number when it fails. -/
structure BackendInfo.Honest (info : BackendInfo) : Prop where
  defaultHostname : info.defaultHostname.Honest (· = none)
  setup : info.setup.Honest Failed
  cleanup : info.cleanup.Honest Failed
  getUpdownData : ∀ attempt hostname port timeoutLen reserved,
    (info.getUpdownData attempt hostname port timeoutLen reserved).reply.Honest Failed

/-- A clusterlist module that sets an error number when it fails. -/
structure ForeignClusterlist.Honest (info : ForeignClusterlist) : Prop where
  setup : info.setup.Honest Failed
  cleanup : info.cleanup.Honest Failed
  getNumnodes : info.getNumnodes.Honest Failed
  isNodeInCluster : ∀ node, (info.isNodeInCluster node).Honest Failed
  getNodename : ∀ node, (info.getNodename node).Honest (· = none)
  compareToClusterlist : info.compareToClusterlist.reply.Honest Failed

/-- A config module that sets an error number when it fails. -/
structure ConfigInfo.Honest (info : ConfigInfo) : Prop where
  setup : info.setup.Honest Failed
  cleanup : info.cleanup.Honest Failed
  loadConfig : info.loadConfig.Honest Failed

/-- A handle whose magic number is right, and loaded modules that set an error number when they
fail. -/
structure World.Honest (w : World) : Prop where
  magic : w.handle.magic = magicNum
  backend : ∀ info, w.lib.backend.info = some info → info.Honest
  clusterlist : ∀ info, w.lib.clusterlist.info = some (.foreign info) → info.Honest
  config : ∀ info, w.lib.config.info = some info → info.Honest

/-- Honesty depends on the frame. -/
theorem World.Honest.of_frame {w w' : World} (hframe : w'.frame = w.frame) (h : w.Honest) :
    w'.Honest := by
  unfold World.frame at hframe
  simp only [Prod.mk.injEq] at hframe
  obtain ⟨hlib, hmagic, -, -⟩ := hframe
  exact ⟨hmagic.trans h.magic, by rw [hlib]; exact h.backend, by rw [hlib]; exact h.clusterlist,
    by rw [hlib]; exact h.config⟩

theorem World.Honest.setErrnum {w : World} (h : w.Honest) (errnum : Errnum) :
    (w.setErrnum errnum).Honest :=
  h.of_frame (frame_setErrnum errnum w)

/-! ### Parts that tell -/

/-- A part of a load that does not read the error number of the handle and sets it when it gives
up. -/
abbrev Tells {α : Type} (attempt : Nodeupdown α) : Prop :=
  Candid World.setErrnum World.Honest (fun w ↦ w.handle.errnum ≠ .success) attempt

section

variable {α β : Type}

theorem Tells.bind {first : Nodeupdown α} {second : α → Nodeupdown β} (hfirst : Tells first)
    (hsecond : ∀ value, Tells (second value)) : Tells (first >>= second) :=
  Candid.bind (fun w ↦ ⟨w.handle.errnum, rfl⟩) (fun errnum _ h ↦ h.setErrnum errnum) hfirst hsecond

theorem Tells.run {attempt : Nodeupdown α} (h : Tells attempt) {w w' : World} {value : Option α}
    (hw : w.Honest)
    (hrun : attempt w = .ok (value, w')) : w'.Honest ∧
    (value = none → w'.handle.errnum ≠ .success) :=
  Candid.run (fun w ↦ ⟨w.handle.errnum, rfl⟩) (fun errnum _ h ↦ h.setErrnum errnum) h hw hrun

theorem tells_pure (value : α) : Tells (pure value : Nodeupdown α) :=
  candid_pure value

theorem tells_fault (failure : LibFault) : Tells (Attempt.fault failure : Nodeupdown α) :=
  candid_fault failure

/-- A part that gives up with an error number. -/
theorem tells_failWith (errnum : Errnum) (h : errnum ≠ .success) :
    Tells (failWith errnum : Nodeupdown α) :=
  candid_giveUp (fun _ _ ↦ rfl) fun _ hw ↦ ⟨hw.setErrnum errnum, h⟩

/-- Assumes: on each honest world the part does what some part does that tells. It tells. -/
theorem tells_of_cases {attempt : Nodeupdown α} (h : ∀ w : World, w.Honest → ∃ like : Nodeupdown α,
    Tells like ∧
    ∀ errnum, attempt (w.setErrnum errnum) = like (w.setErrnum errnum)) : Tells attempt :=
  candid_of_cases h

/-- The call of a function of a module. -/
theorem tells_callModule (reply : Reply α) : Tells (callModule reply) := by
  intro w hw
  cases herrnum : reply.errnum with
  | none =>
    refine Or.inr ⟨reply.value, w, hw, fun c ↦ ?_⟩
    rw [callModule, herrnum, World.noteErrnum]
  | some errnum =>
    refine Or.inl ⟨.ok (some reply.value, w.setErrnum errnum), fun c ↦ ?_, ?_⟩
    · have hmagic : (w.setErrnum c).handle.magic = magicNum := hw.magic
      rw [callModule, herrnum, World.noteErrnum, if_pos hmagic]
      rfl
    · rintro _ _ ⟨rfl, rfl⟩
      exact ⟨hw.setErrnum errnum, by simp⟩

/-- The call of a function of a module whose failure is given up on. -/
theorem tells_replied {reply : Reply α} {failed : α → Prop} (hreply : reply.Honest failed)
    (next : α → Nodeupdown β)
    (hfailed : ∀ value, failed value → next value = Attempt.giveUp id)
    (hnext : ∀ value, ¬failed value → Tells (next value)) : Tells (callModule reply >>= next) := by
  intro w hw
  by_cases hvalue : failed reply.value
  · obtain ⟨errnum, herrnum⟩ := Option.ne_none_iff_exists'.mp (hreply.2 hvalue)
    have hne : errnum ≠ .success := by
      rintro rfl
      exact hreply.1 herrnum
    refine Or.inl ⟨.ok (none, w.setErrnum errnum), fun c ↦ ?_, ?_⟩
    · have hmagic : (w.setErrnum c).handle.magic = magicNum := hw.magic
      refine attempt_bind_none.mpr (Or.inr ⟨reply.value, w.setErrnum errnum, ?_, ?_⟩)
      · rw [callModule, herrnum, World.noteErrnum, if_pos hmagic]
        rfl
      · rw [hfailed _ hvalue]
        rfl
    · rintro _ _ ⟨rfl, rfl⟩
      exact ⟨hw.setErrnum errnum, fun _ ↦ hne⟩
  · refine tells_of_cases (fun v hv ↦
      ⟨callModule reply >>= fun _ ↦ next reply.value, ?_, fun c ↦ ?_⟩) w hw
    · exact (tells_callModule reply).bind fun _ ↦ hnext _ hvalue
    · rfl

/-- The call of a function of a module that must not be negative. -/
theorem tells_unlessNegative {reply : Reply ℤ} (hreply : reply.Honest Failed) :
    Tells (callModule reply >>= unlessNegative) := by
  refine tells_replied hreply _ (fun value hvalue ↦ if_pos hvalue) fun value hvalue ↦ ?_
  rw [unlessNegative, if_neg (show ¬value < 0 from hvalue)]
  exact tells_pure _

/-- The next step after a function of the backend. -/
theorem tells_withBackend {reply : BackendInfo → Reply α} {next : α → Nodeupdown β}
    (h : ∀ info : BackendInfo, info.Honest → Tells (callModule (reply info) >>= next)) :
    Tells (withBackend reply >>= next) := by
  refine tells_of_cases fun w hw ↦ ?_
  cases hinfo : w.lib.backend.info with
  | none =>
    refine ⟨failWith .internal, tells_failWith _ (by decide), fun c ↦
      attempt_bind_none.mpr (Or.inl ?_)⟩
    have hinfo' : (w.setErrnum c).lib.backend.info = none := hinfo
    rw [withBackend, hinfo']
  | some info =>
    refine ⟨_, h info (hw.backend info hinfo), fun c ↦ ?_⟩
    have hinfo' : (w.setErrnum c).lib.backend.info = some info := hinfo
    have hsame : withBackend reply (w.setErrnum c) = callModule (reply info) (w.setErrnum c) := by
      rw [withBackend, hinfo']
    change Attempt.andThen _ _ _ = Attempt.andThen _ _ _
    unfold Attempt.andThen
    rw [hsame]

/-- The next step after a function of the config module. -/
theorem tells_withConfig {reply : ConfigInfo → Reply α} {next : α → Nodeupdown β}
    (h : ∀ info : ConfigInfo, info.Honest → Tells (callModule (reply info) >>= next)) :
    Tells (withConfig reply >>= next) := by
  refine tells_of_cases fun w hw ↦ ?_
  cases hinfo : w.lib.config.info with
  | none =>
    refine ⟨failWith .internal, tells_failWith _ (by decide), fun c ↦
      attempt_bind_none.mpr (Or.inl ?_)⟩
    have hinfo' : (w.setErrnum c).lib.config.info = none := hinfo
    rw [withConfig, hinfo']
  | some info =>
    refine ⟨_, h info (hw.config info hinfo), fun c ↦ ?_⟩
    have hinfo' : (w.setErrnum c).lib.config.info = some info := hinfo
    have hsame : withConfig reply (w.setErrnum c) = callModule (reply info) (w.setErrnum c) := by
      rw [withConfig, hinfo']
    change Attempt.andThen _ _ _ = Attempt.andThen _ _ _
    unfold Attempt.andThen
    rw [hsame]

/-- The value of a function of the config module. -/
theorem tells_withConfigValue (reply : ConfigInfo → Reply α) : Tells (withConfig reply) := by
  refine tells_of_cases fun w hw ↦ ?_
  have hlib : ∀ errnum, (w.setErrnum errnum).lib = w.lib := fun _ ↦ rfl
  cases hinfo : w.lib.config.info with
  | none =>
    exact ⟨_, tells_failWith .internal (by decide), fun c ↦ by rw [withConfig, hlib, hinfo]; rfl⟩
  | some info => exact ⟨_, tells_callModule (reply info), fun c ↦ by rw [withConfig, hlib, hinfo]⟩

end

/-! ### Nodes -/

/-- What works on the lists of the handle and on the modules. -/
theorem tells_update {f : World → World}
    (hset : ∀ w errnum, f (w.setErrnum errnum) = (f w).setErrnum errnum)
    (hframe : ∀ w, (f w).frame = w.frame) : Tells (Attempt.update f) :=
  candid_update hset fun w hw ↦ hw.of_frame (hframe w)

theorem setNodes_setErrnum (up : Bool) (hl : Hostlist) (w : World) (errnum : Errnum) :
    (w.setErrnum errnum).setNodes up hl = (w.setNodes up hl).setErrnum errnum := by
  cases up <;> rfl

theorem tells_setNodes (up : Bool) (hl : Hostlist) :
    Tells (Attempt.update (World.setNodes up hl)) :=
  tells_update (fun w errnum ↦ setNodes_setErrnum up hl w errnum) (frame_setNodes up hl)

theorem tells_theNodes (up : Bool) : Tells (theNodes up) := by
  refine tells_of_cases fun w hw ↦ ?_
  have hnodes : ∀ errnum, (w.setErrnum errnum).handle.nodes up = w.handle.nodes up :=
      fun errnum ↦ by
    cases up <;> rfl
  cases hhl : w.handle.nodes up with
  | none => exact ⟨_, tells_fault .nullPointer, fun c ↦ by rw [theNodes, hnodes, hhl]; rfl⟩
  | some hl => exact ⟨_, tells_pure hl, fun c ↦ by rw [theNodes, hnodes, hhl]; rfl⟩

theorem tells_findNode (up : Bool) (node : List Char) : Tells (findNode up node) :=
  (tells_theNodes up).bind fun _ ↦ (tells_setNodes up _).bind fun _ ↦ tells_pure _

theorem tells_pushNode (up : Bool) (node : List Char) : Tells (pushNode up node) := by
  refine (tells_theNodes up).bind fun hl ↦ ?_
  split
  · exact tells_fault _
  · exact (tells_setNodes up _).bind fun _ ↦ tells_pure _

theorem tells_setupHandleErrorCheck : Tells setupHandleErrorCheck := by
  refine tells_of_cases fun w hw ↦ ?_
  by_cases hstate : w.handle.loadState = .setup
  · exact ⟨_, tells_pure (), fun c ↦ if_pos hstate⟩
  · exact ⟨_, tells_failWith .internal (by decide), fun c ↦ if_neg hstate⟩

theorem tells_hostsfileHosts : Tells hostsfileHosts := by
  refine tells_of_cases fun w hw ↦ ?_
  have hlib : ∀ errnum, (w.setErrnum errnum).lib.hosts = w.lib.hosts := fun _ ↦ rfl
  cases hhosts : w.lib.hosts with
  | none => exact ⟨_, tells_fault .nullPointer, fun c ↦ by rw [hostsfileHosts, hlib, hhosts]; rfl⟩
  | some hosts => exact ⟨_, tells_pure hosts, fun c ↦ by rw [hostsfileHosts, hlib, hhosts]; rfl⟩

theorem tells_shorten (node : List Char) : Tells (shorten node) := by
  unfold shorten
  split
  · exact tells_fault _
  · exact tells_pure _

theorem tells_copyNodename (node : List Char) : Tells (clusterlistCopyNodename node) := by
  unfold clusterlistCopyNodename
  split_ifs
  · exact tells_failWith _ (by decide)
  · exact tells_fault _
  · exact tells_pure _

/-- A value is passed on unless it is one of a function that failed. -/
theorem tells_unlessNegative_then {α : Type} {reply : Reply ℤ} (hreply : reply.Honest Failed)
    (f : ℤ → α) :
    Tells (callModule reply >>= fun value ↦ unlessNegative value >>= fun _ ↦ pure (f value)) := by
  refine tells_replied hreply _ (fun value hvalue ↦ ?_) fun value hvalue ↦ ?_
  · rw [unlessNegative, if_pos (show value < 0 from hvalue)]
    rfl
  · rw [unlessNegative, if_neg (show ¬value < 0 from hvalue)]
    exact (tells_pure _).bind fun _ ↦ tells_pure _

theorem tells_hostsfileIsNodeInCluster (node : List Char) :
    Tells (hostsfileClusterlistIsNodeInCluster node) := by
  refine tells_hostsfileHosts.bind fun hosts ↦ ?_
  split_ifs
  · exact tells_pure _
  · exact (tells_shorten node).bind fun _ ↦ tells_pure _

theorem tells_isNodeInCluster (node : List Char) :
    Tells (clusterlistModuleIsNodeInCluster node) := by
  refine tells_of_cases fun w hw ↦ ?_
  rcases hinfo : w.lib.clusterlist.info with _ | _ | _ | info
  · exact ⟨_, tells_failWith .internal (by decide), fun c ↦ by
      rw [clusterlistModuleIsNodeInCluster, lib_setErrnum, hinfo]; rfl⟩
  · exact ⟨_, tells_pure true, fun c ↦ by
      rw [clusterlistModuleIsNodeInCluster, lib_setErrnum, hinfo]; rfl⟩
  · exact ⟨_, tells_hostsfileIsNodeInCluster node, fun c ↦ by
      rw [clusterlistModuleIsNodeInCluster, lib_setErrnum, hinfo]⟩
  · have htells := tells_unlessNegative_then ((hw.clusterlist info hinfo).isNodeInCluster node)
      fun value ↦ (value ≠ 0 : Bool)
    exact ⟨_, htells, fun c ↦ by rw [clusterlistModuleIsNodeInCluster, lib_setErrnum, hinfo]⟩

theorem tells_getNodename (node : List Char) : Tells (clusterlistModuleGetNodename node) := by
  refine tells_of_cases fun w hw ↦ ?_
  rcases hinfo : w.lib.clusterlist.info with _ | _ | _ | info
  · exact ⟨_, tells_failWith .internal (by decide), fun c ↦ by
      rw [clusterlistModuleGetNodename, lib_setErrnum, hinfo]; rfl⟩
  · exact ⟨_, tells_copyNodename node, fun c ↦ by
      rw [clusterlistModuleGetNodename, lib_setErrnum, hinfo]⟩
  · exact ⟨_, (tells_shorten node).bind fun nodename ↦ tells_copyNodename nodename, fun c ↦ by
      rw [clusterlistModuleGetNodename, lib_setErrnum, hinfo]; rfl⟩
  · refine ⟨_, tells_replied ((hw.clusterlist info hinfo).getNodename node) givenNodename ?_ ?_,
      fun c ↦ by rw [clusterlistModuleGetNodename, lib_setErrnum, hinfo]⟩
    · rintro _ rfl
      rfl
    · rintro (_ | nodename) hvalue
      · exact absurd rfl hvalue
      · exact tells_pure nodename

theorem tells_addNode (up : Bool) (node : List Char) : Tells (addNode up node) := by
  refine tells_setupHandleErrorCheck.bind fun _ ↦ (tells_isNodeInCluster node).bind fun rv ↦ ?_
  split_ifs
  · refine (tells_getNodename node).bind fun buffer ↦
      (tells_pushNode up buffer).bind fun pushed ↦ ?_
    split_ifs
    · exact tells_failWith _ (by decide)
    · exact tells_pure _
  · exact tells_pure _

theorem tells_insertLastUpTime (node : List Char) (time : ℕ) :
    Tells (insertLastUpTime node time) := by
  refine tells_of_cases fun w hw ↦ ?_
  have htable : ∀ errnum, (w.setErrnum errnum).handle.lastUpTimes = w.handle.lastUpTimes :=
    fun _ ↦ rfl
  cases hhandle : w.handle.lastUpTimes with
  | none =>
    exact ⟨_, tells_failWith .outmem (by decide), fun c ↦ by
      rw [insertLastUpTime, htable, hhandle]; rfl⟩
  | some table =>
    cases hinsert : hashInsert hashKeyString table node time with
    | none =>
      exact ⟨_, tells_failWith .backendModule (by decide), fun c ↦ by
        rw [insertLastUpTime, htable, hhandle]; simp only [hinsert]; rfl⟩
    | some table =>
      exact ⟨_,
        tells_update (f := fun w ↦ { w with handle := { w.handle with lastUpTimes := some table } })
        (fun _ _ ↦ rfl) fun _ ↦ rfl, fun c ↦ by
          rw [insertLastUpTime, htable, hhandle]; simp only [hinsert]; rfl⟩

theorem tells_backendCall (call : BackendCall) : Tells call.run := by
  cases call with
  | addUpNode node => exact tells_addNode true node
  | addDownNode node => exact tells_addNode false node
  | addLastUpTime node time =>
    exact tells_setupHandleErrorCheck.bind fun _ ↦ tells_insertLastUpTime node time

/-! ### Servers -/

section

variable {α β : Type}

theorem Tells.whatever {first : Nodeupdown α} (hfirst : Tells first)
    (next : Option α → Nodeupdown β)
    (hnext : ∀ value, Tells (next value)) : Tells (first.whatever next) :=
  Candid.whatever (fun w ↦ ⟨w.handle.errnum, rfl⟩)
    (fun errnum _ h ↦ h.setErrnum errnum) hfirst hnext

end

theorem tells_runCalls (calls : List BackendCall) : Tells (runCalls calls) := by
  induction calls with
  | nil => exact tells_pure ()
  | cons call calls ih =>
    have hnote : Tells (Attempt.update fun w : World ↦ { w with reports := w.reports ++ [call] }) :=
      tells_update (fun _ _ ↦ rfl) fun _ ↦ rfl
    have hcall := hnote.bind fun _ ↦ (tells_backendCall call).whatever _ fun _ ↦ ih
    refine tells_of_cases fun w hw ↦ ⟨_, hcall, fun c ↦ ?_⟩
    rw [runCalls]
    change _ = Attempt.whatever call.run (fun _ ↦ runCalls calls) _
    unfold Attempt.whatever
    cases call.run { w.setErrnum c with reports := (w.setErrnum c).reports ++ [call] } <;> rfl

theorem tells_getUpdownDataCall (attempt : ℕ) (hostname : List Char) (port timeoutLen : ℤ)
    (reserved : Option (List Char)) :
    Tells (backendModuleGetUpdownData attempt hostname port timeoutLen reserved) := by
  refine tells_of_cases fun w hw ↦ ?_
  cases hinfo : w.lib.backend.info with
  | none =>
    exact ⟨_, tells_failWith .internal (by decide), fun c ↦ by
      rw [backendModuleGetUpdownData, lib_setErrnum, hinfo]; rfl⟩
  | some info =>
    have hreply := (hw.backend info hinfo).getUpdownData attempt hostname port timeoutLen reserved
    exact ⟨_, (tells_runCalls _).bind fun _ ↦ tells_unlessNegative hreply, fun c ↦ by
      rw [backendModuleGetUpdownData, lib_setErrnum, hinfo]⟩

theorem tells_tryHostnames (port timeoutLen : ℤ) (reserved : Option (List Char))
    (hostnames : List (List Char)) :
    ∀ attempt, Tells (tryHostnames port timeoutLen reserved attempt hostnames) := by
  induction hostnames with
  | nil => exact fun attempt ↦ tells_of_cases fun w hw ↦ ⟨_, tells_failWith .connect (by decide),
      fun c ↦ rfl⟩
  | cons hostname hostnames ih =>
    intro attempt
    by_cases hempty : hostname = []
    · exact tells_of_cases fun w hw ↦
        ⟨_, ih (attempt + 1), fun c ↦ by rw [tryHostnames, if_pos hempty]⟩
    · have hserver := (tells_getUpdownDataCall attempt hostname port timeoutLen reserved).whatever
        (fun value ↦ if value.isSome then pure ()
          else tryHostnames port timeoutLen reserved (attempt + 1) hostnames)
        (by rintro (_ | _); exacts [ih (attempt + 1), tells_pure ()])
      refine tells_of_cases fun w hw ↦ ⟨_, hserver, fun c ↦ ?_⟩
      rw [tryHostnames, if_neg hempty]
      unfold Attempt.whatever
      cases backendModuleGetUpdownData attempt hostname port timeoutLen reserved
          (w.setErrnum c) with
      | error failure => rfl
      | ok result =>
        obtain ⟨_ | _, v⟩ := result <;> rfl

theorem tells_configured {flag : Bool} {value : ℤ} {errnum : Errnum} {otherwise : Nodeupdown ℤ}
    (herrnum : errnum ≠ .success) (h : Tells otherwise) :
      Tells (configured flag value errnum otherwise) := by
  unfold configured
  split_ifs
  · exact tells_failWith errnum herrnum
  · exact tells_pure _
  · exact h

/-- A function of the backend whose value is given up on with an error number of the library. -/
theorem tells_checked (reply : BackendInfo → Reply ℤ) {attempt : Nodeupdown ℤ} (accepted : ℤ → Prop)
    [DecidablePred accepted] (hnone : ∀ w : World, w.lib.backend.info = none →
      attempt w = .ok (none, w.setErrnum .backendModule))
    (hsome : ∀ (w : World) info, w.lib.backend.info = some info → attempt w =
      if accepted (reply info).value then .ok (some (reply info).value,
        w.noteErrnum (reply info).errnum)
      else .ok (none, (w.noteErrnum (reply info).errnum).setErrnum .backendModule)) :
        Tells attempt := by
  refine tells_of_cases fun w hw ↦ ?_
  cases hinfo : w.lib.backend.info with
  | none => exact ⟨_, tells_failWith .backendModule (by decide), fun c ↦ hnone _ hinfo⟩
  | some info =>
    refine ⟨_, (tells_callModule (reply info)).bind fun value ↦
      (show Tells (if accepted value then pure value else failWith .backendModule) from ?_), fun c ↦
        ?_⟩
    · split_ifs
      · exact tells_pure _
      · exact tells_failWith _ (by decide)
    · refine (hsome (w.setErrnum c) info hinfo).trans ?_
      change _ = (if accepted (reply info).value then pure _ else failWith _ : Nodeupdown ℤ) _
      split_ifs <;> rfl

theorem tells_defaultPort : Tells defaultPort := by
  refine tells_checked BackendInfo.defaultPort (fun value ↦ ¬value ≤ 0) (fun w h ↦ ?_)
    fun w info h ↦ ?_
  · rw [defaultPort, h]
  · rw [defaultPort, h]
    simp only [ite_not]

theorem tells_defaultTimeoutLen : Tells defaultTimeoutLen := by
  refine tells_checked BackendInfo.defaultTimeoutLen (fun value ↦ ¬value < 0) (fun w h ↦ ?_)
    fun w info h ↦ ?_
  · rw [defaultTimeoutLen, h]
  · rw [defaultTimeoutLen, h]
    simp only [ite_not]

theorem tells_resolvePort (conffile module : NodeupdownConfig) (port : ℤ) :
    Tells (resolvePort conffile module port) := by
  unfold resolvePort
  split_ifs
  · exact tells_configured (by decide) (tells_configured (by decide) tells_defaultPort)
  · exact tells_pure _

theorem tells_resolveTimeoutLen (conffile module : NodeupdownConfig) (timeoutLen : ℤ) :
    Tells (resolveTimeoutLen conffile module timeoutLen) := by
  unfold resolveTimeoutLen
  split_ifs
  · exact tells_configured (by decide) (tells_configured (by decide) tells_defaultTimeoutLen)
  · exact tells_pure _

theorem tells_defaultHostname : Tells defaultHostname := by
  refine tells_withBackend fun info hinfo ↦ tells_replied hinfo.defaultHostname _ ?_ ?_
  · rintro _ rfl
    rfl
  · rintro (_ | hostname) hvalue
    · exact absurd rfl hvalue
    · exact tells_pure hostname

theorem tells_getUpdownData (args : LoadArgs) (conffile module : NodeupdownConfig)
    (port timeoutLen : ℤ) :
    Tells (getUpdownData args conffile module port timeoutLen) := by
  unfold getUpdownData
  split
  · exact tells_getUpdownDataCall _ _ _ _ _
  · split_ifs
    · exact tells_tryHostnames _ _ _ _ _
    · exact tells_tryHostnames _ _ _ _ _
    · exact tells_defaultHostname.bind fun _ ↦ tells_getUpdownDataCall _ _ _ _ _

/-! ### The clusterlist comparison -/

theorem tells_notDiscoveredCheck (node : List Char) :
    Tells (nodeupdownNotDiscoveredCheck node) := by
  refine tells_setupHandleErrorCheck.bind fun _ ↦ (tells_findNode true node).bind fun inUp ↦ ?_
  split_ifs
  · exact tells_pure _
  · refine (tells_findNode false node).bind fun inDown ↦ ?_
    split_ifs
    · exact tells_pure _
    · exact tells_addNode false node

theorem tells_notDiscoveredChecks (nodes : List (List Char)) :
    Tells (notDiscoveredChecks nodes) := by
  induction nodes with
  | nil => exact tells_pure _
  | cons node nodes ih => exact (tells_notDiscoveredCheck node).bind fun _ ↦ ih

theorem tells_runChecks (nodes : List (List Char)) : Tells (runChecks nodes) := by
  induction nodes with
  | nil => exact tells_pure ()
  | cons node nodes ih =>
    have hcheck := (tells_notDiscoveredCheck node).whatever _ fun _ ↦ ih
    refine tells_of_cases fun w hw ↦ ⟨_, hcheck, fun c ↦ ?_⟩
    rw [runChecks]
    unfold Attempt.whatever
    cases nodeupdownNotDiscoveredCheck node (w.setErrnum c) <;> rfl

theorem tells_compareToClusterlist : Tells clusterlistModuleCompareToClusterlist := by
  refine tells_of_cases fun w hw ↦ ?_
  rcases hinfo : w.lib.clusterlist.info with _ | _ | _ | info
  · exact ⟨_, tells_failWith .internal (by decide), fun c ↦ by
      rw [clusterlistModuleCompareToClusterlist, lib_setErrnum, hinfo]; rfl⟩
  · exact ⟨_, tells_pure (), fun c ↦ by
      rw [clusterlistModuleCompareToClusterlist, lib_setErrnum, hinfo]; rfl⟩
  · exact ⟨_, tells_hostsfileHosts.bind fun hosts ↦ tells_notDiscoveredChecks hosts, fun c ↦ by
      rw [clusterlistModuleCompareToClusterlist, lib_setErrnum, hinfo]; rfl⟩
  · have hreply := (hw.clusterlist info hinfo).compareToClusterlist
    exact ⟨_, (tells_runChecks _).bind fun _ ↦ tells_unlessNegative hreply, fun c ↦ by
      rw [clusterlistModuleCompareToClusterlist, lib_setErrnum, hinfo]⟩

/-- What a backend reports and a clusterlist module checks. -/
theorem tells_loadNodes (args : LoadArgs) (conffile module : NodeupdownConfig) :
    Tells (loadNodes args conffile module) :=
  (tells_resolvePort conffile module args.port).bind fun _ ↦
    (tells_resolveTimeoutLen conffile module args.timeoutLen).bind fun _ ↦
      (tells_getUpdownData args conffile module _ _).bind fun _ ↦ tells_compareToClusterlist

theorem tells_sortNodes (env : LoadEnv) (up : Bool) : Tells (sortNodes env up) := by
  refine (tells_theNodes up).bind fun hl ↦ ?_
  split
  · exact tells_fault _
  · exact tells_fault _
  · exact tells_setNodes up _

/-! ### Modules -/

/-- The entries of the directories in which modules are looked for. -/
structure LoadEnv.HonestModules (env : LoadEnv) : Prop where
  backend : ∀ dir ∈ [env.buildDir, env.moduleDir],
    Offer SharedObject.backendModuleInfo BackendInfo.Honest (dir.getD [])
  clusterlist : ∀ dir ∈ [env.buildDir, env.moduleDir],
    Offer SharedObject.clusterlistModuleInfo (fun info ↦ ∀ foreign, info = .foreign foreign →
      foreign.Honest)
      (dir.getD [])
  config : ∀ dir ∈ [env.buildDir, env.moduleDir],
    Offer SharedObject.configModuleInfo ConfigInfo.Honest (dir.getD [])

theorem tells_readConffile (env : LoadEnv) : Tells (readConffile env) := by
  unfold readConffile
  split
  · exact tells_pure _
  · exact tells_pure _
  · exact tells_failWith _ (by decide)
  · exact tells_failWith _ (by decide)
  · exact tells_failWith _ (by decide)

/-- The world with other module pointers, all of them honest. -/
theorem tells_setLib {f : Library → Library} (hf : ∀ w : World, w.Honest →
    (w.setLib (f w.lib)).Honest) :
    Tells (Attempt.update fun w : World ↦ w.setLib (f w.lib)) :=
  candid_update (fun _ _ ↦ rfl) hf

theorem tells_backendModuleLoad {env : LoadEnv} (henv : env.HonestModules)
    (module : Option (List Char)) :
    Tells (backendModuleLoad env module) := by
  refine tells_of_cases fun w hw ↦ ?_
  cases hnames : moduleNames backendModules backendModuleSignature module with
  | none =>
    exact ⟨_, tells_failWith .backendModule (by decide), fun c ↦ by
      rw [backendModuleLoad, hnames]; rfl⟩
  | some names =>
    have hinfo :=
      findModule_info env.ndebug names backendModuleSignature (henv.backend env.buildDir (by simp))
      (henv.backend env.moduleDir (by simp)) hw.backend
    generalize hfound : findModule SharedObject.backendModuleInfo env.ndebug env.buildDir
      env.moduleDir
      names backendModuleSignature w.lib.backend = found at hinfo
    have hset := tells_setLib (f := fun lib ↦ { lib with backend := found.2 }) fun v hv ↦
      ⟨hv.magic, hinfo, hv.clusterlist, hv.config⟩
    refine ⟨_, hset.bind fun _ ↦
      (show Tells (if found.1 then pure () else failWith .backendModule) from ?_),
      fun c ↦ ?_⟩
    · split_ifs
      · exact tells_pure _
      · exact tells_failWith _ (by decide)
    · rw [backendModuleLoad, hnames, lib_setErrnum]
      simp only [hfound]
      change _ = (if found.1 then pure () else failWith _ : Nodeupdown Unit) _
      split_ifs <;> rfl

theorem tells_clusterlistModuleLoad {env : LoadEnv} (henv : env.HonestModules)
    (module : Option (List Char)) :
    Tells (clusterlistModuleLoad env module) := by
  refine tells_of_cases fun w hw ↦ ?_
  cases hnames : moduleNames clusterlistModules clusterlistModuleSignature module with
  | none =>
    exact ⟨_, tells_failWith .clusterlistModule (by decide), fun c ↦ by
      rw [clusterlistModuleLoad, hnames]; rfl⟩
  | some names =>
    have hslot : ∀ info, w.lib.clusterlist.info = some info →
        ∀ foreign, info = .foreign foreign → foreign.Honest := by
      rintro _ hinfo foreign rfl
      exact hw.clusterlist foreign hinfo
    have hinfo := findModule_info env.ndebug names clusterlistModuleSignature
      (henv.clusterlist env.buildDir (by simp)) (henv.clusterlist env.moduleDir (by simp)) hslot
    generalize hfound : findModule SharedObject.clusterlistModuleInfo env.ndebug env.buildDir
      env.moduleDir
      names clusterlistModuleSignature w.lib.clusterlist = found at hinfo
    have hhonest : ∀ foreign, found.2.info = some (.foreign foreign) → foreign.Honest :=
      fun foreign h ↦ hinfo _ h foreign rfl
    by_cases hone : found.1
    · refine ⟨_, tells_setLib (f := fun lib ↦ { lib with
        clusterlist := found.2, clusterlistModuleFound := lib.clusterlistModuleFound + 1 })
            fun v hv ↦
          ⟨hv.magic, hv.backend, hhonest, hv.config⟩, fun c ↦ ?_⟩
      rw [clusterlistModuleLoad, hnames, lib_setErrnum]
      simp only [hfound, hone, if_true]
      rfl
    · by_cases hasked : module.isSome
      · refine ⟨_, (tells_setLib (f := fun lib ↦ { lib with clusterlist := found.2 }) fun v hv ↦
          ⟨hv.magic, hv.backend, hhonest, hv.config⟩).bind fun _ ↦
            tells_failWith (α := Unit) .clusterlistModule (by decide), fun c ↦ ?_⟩
        rw [clusterlistModuleLoad, hnames, lib_setErrnum]
        simp only [hfound, hone, hasked, if_true]
        rfl
      · refine ⟨_, tells_setLib (f := fun lib ↦
          { lib with clusterlist := { found.2 with info := some .default } }) fun v hv ↦
            ⟨hv.magic, hv.backend, ?_, hv.config⟩, fun c ↦ ?_⟩
        · rintro _ ⟨⟩
        · rw [clusterlistModuleLoad, hnames, lib_setErrnum]
          simp only [hfound, hone, hasked]
          rfl

theorem tells_clusterlistModuleSetup (env : LoadEnv) : Tells (clusterlistModuleSetup env) := by
  refine tells_of_cases fun w hw ↦ ?_
  rcases hinfo : w.lib.clusterlist.info with _ | _ | _ | info
  · exact ⟨_, tells_failWith .internal (by decide), fun c ↦ by
      rw [clusterlistModuleSetup, lib_setErrnum, hinfo]; rfl⟩
  · exact ⟨_, tells_pure (), fun c ↦ by rw [clusterlistModuleSetup, lib_setErrnum, hinfo]; rfl⟩
  · have hfill : ∀ hosts, Tells (Attempt.update fun w : World ↦
        w.setLib { w.lib with hosts := some hosts }) :=
      fun hosts ↦ tells_setLib (f := fun lib ↦ { lib with hosts := some hosts }) fun v hv ↦
        ⟨hv.magic, hv.backend, hv.clusterlist, hv.config⟩
    have hsame : ∀ c, clusterlistModuleSetup env (w.setErrnum c) =
        hostsfileClusterlistSetup env (w.setErrnum c) :=
      fun c ↦ by rw [clusterlistModuleSetup, lib_setErrnum, hinfo]
    cases hfile : env.hostsfile with
    | missing => exact ⟨_, hfill [], fun c ↦ by rw [hsame, hostsfileClusterlistSetup, hfile]; rfl⟩
    | failed =>
      exact ⟨_, (hfill []).bind fun _ ↦ tells_failWith (α := Unit) .clusterlistModule (by decide),
        fun c ↦ by rw [hsame, hostsfileClusterlistSetup, hfile]; rfl⟩
    | opened events =>
      have hfailed := readHostsfile_failed 65536 events
      generalize hresult : readHostsfile 65536 events = result at hfailed
      by_cases hset : result.failed
      · have hover : Tells fun v : World ↦ .ok (some (), v.setErrnum .clusterlistModule) :=
            fun v hv ↦
          Or.inl ⟨.ok (some (), v.setErrnum .clusterlistModule), fun c ↦ rfl, by
            rintro _ _ ⟨rfl, rfl⟩
            exact ⟨hv.setErrnum _, by simp⟩⟩
        by_cases hnegative : result.value < 0
        · refine ⟨_, (hfill result.hosts).bind fun _ ↦
            tells_failWith (α := Unit) .clusterlistModule (by decide), fun c ↦ ?_⟩
          rw [hsame, hostsfileClusterlistSetup, hfile]
          simp only [hresult, hset, hnegative, if_true]
          rfl
        · refine ⟨_, (hfill result.hosts).bind fun _ ↦ hover, fun c ↦ ?_⟩
          rw [hsame, hostsfileClusterlistSetup, hfile]
          simp only [hresult, hset, hnegative, if_true, if_false]
          rfl
      · have hnegative : ¬result.value < 0 := fun h ↦ hset (hfailed h)
        refine ⟨_, hfill result.hosts, fun c ↦ ?_⟩
        rw [hsame, hostsfileClusterlistSetup, hfile]
        simp only [hresult, hset, hnegative, if_false]
        rfl
  · have hreply := (hw.clusterlist info hinfo).setup
    exact ⟨_, tells_unlessNegative hreply, fun c ↦ by
      rw [clusterlistModuleSetup, lib_setErrnum, hinfo]⟩

theorem tells_configModuleLoad {env : LoadEnv} (henv : env.HonestModules) :
    Tells (configModuleLoad env) := by
  refine tells_of_cases fun w hw ↦ ?_
  have hinfo := findModule_info env.ndebug configModules configModuleSignature
    (henv.config env.buildDir (by simp)) (henv.config env.moduleDir (by simp)) hw.config
  generalize hfound : findModule SharedObject.configModuleInfo env.ndebug env.buildDir env.moduleDir
    configModules configModuleSignature w.lib.config = found at hinfo
  by_cases hone : found.1
  · refine ⟨_, tells_setLib (f := fun lib ↦ { lib with config := found.2 }) fun v hv ↦
      ⟨hv.magic, hv.backend, hv.clusterlist, hinfo⟩, fun c ↦ ?_⟩
    rw [configModuleLoad, lib_setErrnum]
    simp only [hfound, hone, if_true]
    rfl
  · refine ⟨_, tells_setLib (f := fun lib ↦
      { lib with config := { found.2 with info := some defaultConfigModuleInfo } }) fun v hv ↦
        ⟨hv.magic, hv.backend, hv.clusterlist, ?_⟩, fun c ↦ ?_⟩
    · rintro _ ⟨⟩
      have hzero : (⟨0, none⟩ : Reply ℤ).Honest Failed :=
        ⟨by simp, fun h ↦ absurd h (by simp [Failed])⟩
      exact ⟨hzero, hzero, hzero⟩
    · rw [configModuleLoad, lib_setErrnum]
      simp only [hfound, hone]
      rfl

/-- The step of an allocation: the handle holds what is allocated, or the load fails. -/
theorem tells_allocation (granted : Prop) [Decidable granted] {f : World → World}
    (hset : ∀ w errnum, f (w.setErrnum errnum) = (f w).setErrnum errnum)
    (hlib : ∀ w, (f w).lib = w.lib)
    (hmagic : ∀ w, (f w).handle.magic = w.handle.magic) {next : Nodeupdown Unit}
    (hnext : Tells next) :
    Tells fun w ↦ if ¬granted then .ok (none, w.setErrnum .outmem) else next (f w) := by
  have hupdate : Tells (Attempt.update f) := candid_update hset fun w hw ↦
    ⟨(hmagic w).trans hw.magic, by rw [hlib]; exact hw.backend, by rw [hlib]; exact hw.clusterlist,
      by rw [hlib]; exact hw.config⟩
  refine tells_of_cases fun w hw ↦ ?_
  by_cases hgranted : granted
  · exact ⟨_, hupdate.bind fun _ ↦ hnext, fun c ↦ if_neg (not_not_intro hgranted)⟩
  · exact ⟨_, tells_failWith .outmem (by decide), fun c ↦ if_pos hgranted⟩

theorem tells_allocateNodes (env : LoadEnv) : Tells (allocateNodes env) :=
  tells_allocation (env.allocations.1 = true)
    (f := fun w ↦ { w with handle := { w.handle with upNodes := some hostlistNew } })
    (fun _ _ ↦ rfl) (fun _ ↦ rfl) (fun _ ↦ rfl) <|
  tells_allocation (env.allocations.2.1 = true)
    (f := fun w ↦ { w with handle := { w.handle with downNodes := some hostlistNew } })
    (fun _ _ ↦ rfl) (fun _ ↦ rfl) (fun _ ↦ rfl) <|
  tells_allocation (env.allocations.2.2 = true)
    (f := fun w ↦ { w with
      handle := { w.handle with lastUpTimes := some (hashCreate 2048), loadState := .setup } })
    (fun _ _ ↦ rfl) (fun _ ↦ rfl) (fun _ ↦ rfl) (tells_pure ())

/-- The first part of a load. -/
theorem tells_loadModules {env : LoadEnv} (henv : env.HonestModules) (args : LoadArgs) :
    Tells (loadModules env args) := by
  refine (tells_readConffile env).bind fun conffile ↦
    (tells_backendModuleLoad henv args.module).bind fun _ ↦ ?_
  refine Tells.bind (tells_withBackend fun info hinfo ↦ tells_unlessNegative hinfo.setup) fun _ ↦ ?_
  refine tells_withBackend fun info hinfo ↦ (tells_callModule _).bind fun preferred ↦ ?_
  refine (tells_clusterlistModuleLoad henv preferred).bind fun _ ↦ ?_
  refine (tells_clusterlistModuleSetup env).bind fun _ ↦
    (tells_configModuleLoad henv).bind fun _ ↦ ?_
  refine Tells.bind (tells_withConfig fun info hinfo ↦ tells_unlessNegative hinfo.setup) fun _ ↦ ?_
  refine Tells.bind (Tells.bind (tells_withConfig fun info hinfo ↦
    tells_unlessNegative hinfo.loadConfig)
    fun _ ↦ tells_withConfigValue _) fun module ↦ (tells_allocateNodes env).bind fun _ ↦
      tells_pure _

/-! ### A whole load -/

theorem tells_initializeLtdl (env : LoadEnv) : Tells (initializeLtdl env) := by
  refine tells_of_cases fun w hw ↦ ?_
  by_cases hinit : env.ltDlinit
  · refine ⟨_, candid_update (f := fun w : World ↦ { w with
      lib := { w.lib with ltdlCount := w.lib.ltdlCount + 1 }
      handle := { w.handle with ltdlInitialized := true } }) (fun _ _ ↦ rfl)
      (fun v hv ↦ ⟨hv.magic, hv.backend, hv.clusterlist, hv.config⟩), fun c ↦ ?_⟩
    exact if_pos hinit
  · exact ⟨_, tells_failWith .internal (by decide), fun c ↦ if_neg hinit⟩

/-- `nodeupdown_load_data` from the entry check up to the sorts. -/
def loadSorted (env : LoadEnv) (args : LoadArgs) : Nodeupdown Unit := do
  initializeLtdl env
  let configs ← loadModules env args
  loadNodes args configs.1 configs.2
  sortNodes env true
  sortNodes env false

/-- The number of nodes and the end of a load. -/
def countAndEnd : Nodeupdown Unit := do
  countNodes
  Attempt.update fun w ↦
    { w with handle := { w.handle with loadState := .loaded, errnum := .success } }

theorem loadBody_eq (env : LoadEnv) (args : LoadArgs) :
    loadBody env args = loadSorted env args >>= fun _ ↦ countAndEnd := by
  simp only [loadBody, loadSorted, finishLoad, countAndEnd, attempt_bind_assoc]

theorem tells_loadSorted {env : LoadEnv} (henv : env.HonestModules) (args : LoadArgs) :
    Tells (loadSorted env args) :=
  (tells_initializeLtdl env).bind fun _ ↦ (tells_loadModules henv args).bind fun _ ↦
    (tells_loadNodes args _ _).bind fun _ ↦ (tells_sortNodes env true).bind fun _ ↦
      tells_sortNodes env false

theorem tells_getNumnodes : Tells clusterlistModuleGetNumnodes := by
  refine tells_of_cases fun w hw ↦ ?_
  rcases hinfo : w.lib.clusterlist.info with _ | _ | _ | info
  · exact ⟨_, tells_failWith .internal (by decide), fun c ↦ by
      rw [clusterlistModuleGetNumnodes, lib_setErrnum, hinfo]; rfl⟩
  · exact ⟨_, (tells_theNodes true).bind fun _ ↦ (tells_theNodes false).bind fun _ ↦
        tells_pure _, fun c ↦ by
      rw [clusterlistModuleGetNumnodes, lib_setErrnum, hinfo]; rfl⟩
  · exact ⟨_, tells_hostsfileHosts.bind fun _ ↦ tells_pure _, fun c ↦ by
      rw [clusterlistModuleGetNumnodes, lib_setErrnum, hinfo]; rfl⟩
  · exact ⟨_, tells_callModule _, fun c ↦ by
      rw [clusterlistModuleGetNumnodes, lib_setErrnum, hinfo]⟩

/-- A count of the nodes that fails has set an error number. -/
def CountTold (w : World) : Prop :=
  ∀ numnodes w', clusterlistModuleGetNumnodes w = .ok (some numnodes, w') → numnodes < 0 →
    w'.handle.errnum ≠ .success

/-- The modules that a load may come to use set an error number when they fail. The default and the
hostsfile module set none when they count their nodes: it is a failure of theirs if the number is
too large for its type. -/
structure LoadEnv.Honest (env : LoadEnv) (args : LoadArgs) : Prop where
  modules : env.HonestModules
  count : ∀ w w' : World, w.lib.modules = Library.unused.modules →
    w.handle.forgetErrnum = newHandle →
    loadSorted env args w = .ok (some (), w') → CountTold w'

/-- What the count of the nodes and the end of a load come to. -/
theorem countAndEnd_eq (w : World) : countAndEnd w =
    match clusterlistModuleGetNumnodes w with
    | .error failure => .error failure
    | .ok (none, w') => .ok (none, w')
    | .ok (some numnodes, w') =>
      if numnodes < 0 then .ok (none, { w' with handle := { w'.handle with numnodes := numnodes } })
      else
        .ok (some (), { w' with
          handle := { w'.handle with numnodes := numnodes, loadState := .loaded, errnum :=
              .success } }) := by
  change Attempt.andThen (Attempt.andThen clusterlistModuleGetNumnodes _) _ w = _
  unfold Attempt.andThen
  rcases clusterlistModuleGetNumnodes w with failure | ⟨_ | numnodes, w'⟩
  · rfl
  · rfl
  · by_cases hnegative : numnodes < 0
    · have hstop : unlessNegative numnodes = Attempt.giveUp id := if_pos hnegative
      simp only [hnegative, if_true, hstop]
      rfl
    · have hpass : unlessNegative numnodes = pure () := if_neg hnegative
      simp only [hnegative, if_false, hpass]
      rfl

/-- Assumes: an honest world, and a count that tells if it fails. The end of a load tells if it
gives up. -/
theorem countAndEnd_told {w w' : World} (hw : w.Honest) (hcount : CountTold w)
    (h : countAndEnd w = .ok (none, w')) : w'.Honest ∧ w'.handle.errnum ≠ .success := by
  rw [countAndEnd_eq] at h
  split at h
  · exact absurd h (by simp)
  · rename_i w1 hnumnodes
    obtain ⟨-, rfl⟩ := Prod.mk.inj (Except.ok.inj h)
    obtain ⟨hhonest, htold⟩ := tells_getNumnodes.run hw hnumnodes
    exact ⟨hhonest, htold rfl⟩
  · rename_i numnodes w1 hnumnodes
    split_ifs at h with hnegative
    · obtain ⟨-, rfl⟩ := Prod.mk.inj (Except.ok.inj h)
      obtain ⟨hhonest, -⟩ := tells_getNumnodes.run hw hnumnodes
      exact ⟨⟨hhonest.magic, hhonest.backend, hhonest.clusterlist, hhonest.config⟩,
        hcount numnodes w1 hnumnodes hnegative⟩
    · exact absurd h (by simp)

/-- Assumes: an honest world, and a count that tells if it fails, whatever the error number. The end
of a load does not depend on the error number. -/
theorem countAndEnd_setErrnum {w : World} (hw : w.Honest) (hcount : ∀ errnum,
    CountTold (w.setErrnum errnum)) :
    ∃ result, ∀ errnum, countAndEnd (w.setErrnum errnum) = result := by
  rcases tells_getNumnodes w hw with ⟨result, hresult, -⟩ | ⟨numnodes, w', -, hresult⟩
  · exact ⟨_, fun errnum ↦ by rw [countAndEnd_eq, hresult errnum]⟩
  · have hpositive : ¬numnodes < 0 := fun hnegative ↦
      hcount .success numnodes _ (hresult .success) hnegative rfl
    refine ⟨.ok (some (), { w' with
      handle := { w'.handle with numnodes := numnodes, loadState := .loaded, errnum := .success }
        }),
      fun errnum ↦ ?_⟩
    rw [countAndEnd_eq, hresult errnum]
    simp only [hpositive, if_false]
    rfl

/-- Assumes: a handle that is new but for its error number, in a process without modules. What comes
of the body of a load does not depend on the error number, and if it gives up it has set it. -/
theorem loadBody_told {env : LoadEnv} {args : LoadArgs} (henv : env.Honest args) {w : World}
    (hw : w.Honest)
    (hmodules : w.lib.modules = Library.unused.modules)
    (hfresh : w.handle.forgetErrnum = newHandle) :
    ∃ result, (∀ errnum, loadBody env args (w.setErrnum errnum) = result) ∧
      ∀ w', result = .ok (none, w') → w'.Honest ∧ w'.handle.errnum ≠ .success := by
  have hbody : ∀ v, loadBody env args v = Attempt.andThen (loadSorted env args)
      (fun _ ↦ countAndEnd) v :=
    fun v ↦ congrFun (loadBody_eq env args) v
  rcases tells_loadSorted henv.modules args w hw with ⟨result, hresult, htold⟩ | ⟨_, s, hs, hresult⟩
  · refine ⟨loadBody env args w, fun errnum ↦ ?_, fun w' hend ↦ ?_⟩
    · rw [hbody, hbody]
      unfold Attempt.andThen
      rw [hresult errnum, show loadSorted env args w = result from hresult w.handle.errnum]
    · rw [loadBody_eq] at hend
      have hsame : loadSorted env args w = result := hresult w.handle.errnum
      rcases attempt_bind_none.mp hend with hstop | ⟨_, s, hstart, hrest⟩
      · obtain ⟨hhonest, hset⟩ := htold none w' (hsame.symm.trans hstop)
        exact ⟨hhonest, hset rfl⟩
      · exact countAndEnd_told (htold _ s (hsame.symm.trans hstart)).1 (henv.count w s hmodules
          hfresh hstart) hrest
  · have hcount : ∀ errnum, CountTold (s.setErrnum errnum) := fun errnum ↦
      henv.count (w.setErrnum errnum) _ hmodules hfresh (hresult errnum)
    obtain ⟨result, hend⟩ := countAndEnd_setErrnum hs hcount
    have hwhole : ∀ errnum, loadBody env args (w.setErrnum errnum) = result := fun errnum ↦ by
      rw [hbody]
      unfold Attempt.andThen
      rw [hresult errnum]
      exact hend errnum
    refine ⟨result, hwhole, fun w' hnone ↦ ?_⟩
    exact countAndEnd_told (hs.setErrnum .success) (hcount .success) ((hend .success).trans hnone)

theorem told_noteErrnum {w : World} {errnum : Option Errnum} (htold : w.handle.errnum ≠ .success)
    (herrnum : errnum ≠ some .success) : (w.noteErrnum errnum).handle.errnum ≠ .success := by
  unfold World.noteErrnum
  split
  · exact htold
  · rename_i errnum
    split_ifs
    · exact fun h ↦ herrnum (congrArg some h)
    · exact htold

/-- The cleanup function of a module does not say success. -/
theorem cleanupErrnum_ne {ι : Type} (slot : ModuleSlot ι) (cleanup : ι → Option Errnum)
    (h : ∀ info, slot.info = some info → cleanup info ≠ some .success) :
    cleanupErrnum slot cleanup ≠ some .success := by
  unfold cleanupErrnum
  cases hinfo : slot.info with
  | none => simp
  | some info => simpa using h info hinfo

/-- The cleanup of a handle leaves the error number of what failed, or one that a cleanup function
sets. -/
theorem told_freeHandleData {w : World} (hw : w.Honest) (htold : w.handle.errnum ≠ .success) :
    (freeHandleData w).handle.errnum ≠ .success := by
  have hbackend := cleanupErrnum_ne w.lib.backend (fun info ↦ info.cleanup.errnum)
    fun info hinfo ↦ (hw.backend info hinfo).cleanup.1
  have hclusterlist := cleanupErrnum_ne w.lib.clusterlist ClusterlistInfo.cleanupErrnum
    (by
      rintro (_ | _ | info) hinfo
      · simp [ClusterlistInfo.cleanupErrnum]
      · simp [ClusterlistInfo.cleanupErrnum]
      · exact (hw.clusterlist info hinfo).cleanup.1)
  have hconfig := cleanupErrnum_ne w.lib.config (fun info ↦ info.cleanup.errnum)
    fun info hinfo ↦ (hw.config info hinfo).cleanup.1
  have hfirst := told_noteErrnum htold hbackend
  unfold freeHandleData
  simp only [lib_noteErrnum, lib_setLib]
  exact told_noteErrnum (told_noteErrnum hfirst hclusterlist) hconfig

end Whatsup
