import Whatsup.Nodeupdown.Load

/-!
# What the parts of a load leave as they are

Most parts of a load note error numbers and do nothing else. They leave every part of a world as it
is that does not depend on the error number (`NumberFree`). Those that find and add nodes rewrite
the lists of the handle, too, and leave as it is what does not depend on the lists either
(`ListFree`).
-/

set_option autoImplicit false
set_option relaxedAutoImplicit false

namespace Whatsup

open CLib

variable {α γ : Type} {part : World → γ}

/-- A part of a world that does not depend on the error number of the handle. -/
def NumberFree (part : World → γ) : Prop :=
  ∀ errnum w, part (World.setErrnum errnum w) = part w

/-- A part of a world that does not depend on the lists of the handle. -/
def ListFree (part : World → γ) : Prop :=
  ∀ up hl w, part (World.setNodes up hl w) = part w

/-! ### Steps that read -/

theorem preserves_unlessNegative (value : ℤ) : Preserves part (unlessNegative value) := by
  unfold unlessNegative
  split_ifs
  · exact preserves_giveUp fun _ ↦ rfl
  · exact preserves_pure _

theorem preserves_theNodes (up : Bool) : Preserves part (theNodes up) := by
  intro w value w' h
  unfold theNodes at h
  split at h
  · exact absurd h (by simp)
  · obtain ⟨rfl, rfl⟩ := h
    rfl

theorem preserves_hostsfileHosts : Preserves part hostsfileHosts := by
  intro w value w' h
  unfold hostsfileHosts at h
  split at h
  · exact absurd h (by simp)
  · obtain ⟨rfl, rfl⟩ := h
    rfl

theorem preserves_shorten (node : List Char) : Preserves part (shorten node) := by
  unfold shorten
  split
  · exact preserves_fault _
  · exact preserves_pure _

/-! ### Steps that note an error number -/

section

variable (hnumber : NumberFree part)

include hnumber

theorem NumberFree.noteErrnum (w : World) (errnum : Option Errnum) : part (w.noteErrnum errnum) =
    part w := by
  unfold World.noteErrnum
  split
  · rfl
  · split_ifs
    · exact hnumber _ w
    · rfl

theorem preserves_failWith (errnum : Errnum) : Preserves part (failWith errnum : Nodeupdown α) :=
  preserves_giveUp (hnumber errnum)

theorem preserves_callModule (reply : Reply α) : Preserves part (callModule reply) := by
  rintro w _ _ ⟨rfl, rfl⟩
  exact hnumber.noteErrnum w reply.errnum

theorem preserves_withBackend (reply : BackendInfo → Reply α) :
    Preserves part (withBackend reply) := by
  intro w value w' h
  unfold withBackend at h
  split at h
  · obtain ⟨rfl, rfl⟩ := h
    exact hnumber _ w
  · exact preserves_callModule hnumber _ w value w' h

theorem preserves_withConfig (reply : ConfigInfo → Reply α) :
    Preserves part (withConfig reply) := by
  intro w value w' h
  unfold withConfig at h
  split at h
  · obtain ⟨rfl, rfl⟩ := h
    exact hnumber _ w
  · exact preserves_callModule hnumber _ w value w' h

theorem preserves_configModuleLoadConfig : Preserves part configModuleLoadConfig :=
  ((preserves_withConfig hnumber _).bind preserves_unlessNegative).bind fun _ ↦
    preserves_withConfig hnumber _

theorem preserves_readConffile (env : LoadEnv) : Preserves part (readConffile env) := by
  unfold readConffile
  split
  · exact preserves_pure _
  · exact preserves_pure _
  · exact preserves_failWith hnumber _
  · exact preserves_failWith hnumber _
  · exact preserves_failWith hnumber _

theorem preserves_configured {flag : Bool} {value : ℤ} {errnum : Errnum} {otherwise : Nodeupdown ℤ}
    (h : Preserves part otherwise) : Preserves part (configured flag value errnum otherwise) := by
  unfold configured
  split_ifs
  · exact preserves_failWith hnumber errnum
  · exact preserves_pure _
  · exact h

theorem preserves_defaultPort : Preserves part defaultPort := by
  intro w value w' h
  unfold defaultPort at h
  split at h
  · obtain ⟨rfl, rfl⟩ := h
    exact hnumber _ w
  · simp only at h
    split_ifs at h <;> obtain ⟨rfl, rfl⟩ := h
    · exact (hnumber _ _).trans (hnumber.noteErrnum w _)
    · exact hnumber.noteErrnum w _

theorem preserves_defaultTimeoutLen : Preserves part defaultTimeoutLen := by
  intro w value w' h
  unfold defaultTimeoutLen at h
  split at h
  · obtain ⟨rfl, rfl⟩ := h
    exact hnumber _ w
  · simp only at h
    split_ifs at h <;> obtain ⟨rfl, rfl⟩ := h
    · exact (hnumber _ _).trans (hnumber.noteErrnum w _)
    · exact hnumber.noteErrnum w _

theorem preserves_resolvePort (conffile module : NodeupdownConfig) (port : ℤ) :
    Preserves part (resolvePort conffile module port) := by
  unfold resolvePort
  split_ifs
  · exact preserves_configured hnumber
      (preserves_configured hnumber (preserves_defaultPort hnumber))
  · exact preserves_pure _

theorem preserves_resolveTimeoutLen (conffile module : NodeupdownConfig) (timeoutLen : ℤ) :
    Preserves part (resolveTimeoutLen conffile module timeoutLen) := by
  unfold resolveTimeoutLen
  split_ifs
  · exact preserves_configured hnumber
      (preserves_configured hnumber (preserves_defaultTimeoutLen hnumber))
  · exact preserves_pure _

theorem preserves_defaultHostname : Preserves part defaultHostname := by
  refine (preserves_withBackend hnumber _).bind fun hostname ↦ ?_
  split
  · exact preserves_giveUp fun _ ↦ rfl
  · exact preserves_pure _

theorem preserves_setupHandleErrorCheck : Preserves part setupHandleErrorCheck := by
  intro w value w' h
  unfold setupHandleErrorCheck at h
  split_ifs at h <;> obtain ⟨rfl, rfl⟩ := h
  · rfl
  · exact hnumber _ w

theorem preserves_isNodeInCluster (node : List Char) :
    Preserves part (clusterlistModuleIsNodeInCluster node) := by
  intro w value w' h
  unfold clusterlistModuleIsNodeInCluster at h
  split at h
  · obtain ⟨rfl, rfl⟩ := h
    exact hnumber _ w
  · obtain ⟨rfl, rfl⟩ := h
    rfl
  · refine (preserves_hostsfileHosts.bind fun hosts ↦ ?_) w value w' h
    split_ifs
    · exact preserves_pure _
    · exact (preserves_shorten node).bind fun _ ↦ preserves_pure _
  · exact ((preserves_callModule hnumber _).bind fun value ↦
        (preserves_unlessNegative value).bind fun _ ↦
      preserves_pure _) w value w' h

theorem preserves_copyNodename (node : List Char) :
    Preserves part (clusterlistCopyNodename node) := by
  unfold clusterlistCopyNodename
  split_ifs
  · exact preserves_giveUp (hnumber _)
  · exact preserves_fault _
  · exact preserves_pure _

theorem preserves_getNodename (node : List Char) :
    Preserves part (clusterlistModuleGetNodename node) := by
  intro w value w' h
  unfold clusterlistModuleGetNodename at h
  split at h
  · obtain ⟨rfl, rfl⟩ := h
    exact hnumber _ w
  · exact preserves_copyNodename hnumber node w value w' h
  · exact ((preserves_shorten node).bind fun nodename ↦ preserves_copyNodename hnumber nodename)
      w value w' h
  · refine ((preserves_callModule hnumber _).bind fun nodename ↦ ?_) w value w' h
    cases nodename with
    | none => exact preserves_giveUp fun _ ↦ rfl
    | some nodename => exact preserves_pure _

/-- Assumes, besides: a part that does not depend on the list of the hostsfile module. The setup of
the clusterlist module leaves it as it is. -/
theorem preserves_clusterlistModuleSetup (env : LoadEnv)
    (hhosts : ∀ hosts w, part (World.setLib { w.lib with hosts := hosts } w) = part w) :
    Preserves part (clusterlistModuleSetup env) := by
  intro w value w' h
  unfold clusterlistModuleSetup at h
  split at h
  · obtain ⟨rfl, rfl⟩ := h
    exact hnumber _ w
  · obtain ⟨rfl, rfl⟩ := h
    rfl
  · unfold hostsfileClusterlistSetup at h
    simp only at h
    split at h
    · obtain ⟨rfl, rfl⟩ := h
      exact hhosts _ w
    · obtain ⟨rfl, rfl⟩ := h
      exact (hnumber _ _).trans (hhosts _ w)
    · split_ifs at h <;> obtain ⟨rfl, rfl⟩ := h
      · exact (hnumber _ _).trans (hhosts _ w)
      · exact hhosts _ w
      · exact (hnumber _ _).trans (hhosts _ w)
      · exact hhosts _ w
  · exact ((preserves_callModule hnumber _).bind preserves_unlessNegative) w value w' h

theorem preserves_getNumnodes : Preserves part clusterlistModuleGetNumnodes := by
  intro w value w' h
  unfold clusterlistModuleGetNumnodes at h
  split at h
  · obtain ⟨rfl, rfl⟩ := h
    exact hnumber _ w
  · exact ((preserves_theNodes true).bind fun _ ↦ (preserves_theNodes false).bind fun _ ↦
      preserves_pure _) w value w' h
  · exact (preserves_hostsfileHosts.bind fun _ ↦ preserves_pure _) w value w' h
  · exact preserves_callModule hnumber _ w value w' h

end

/-! ### Steps that change the lists -/

section

variable (hlist : ListFree part)

include hlist

theorem preserves_findNode (up : Bool) (node : List Char) : Preserves part (findNode up node) :=
  (preserves_theNodes up).bind fun _ ↦ (preserves_update fun w ↦ hlist up _ w).bind fun _ ↦
    preserves_pure _

theorem preserves_pushNode (up : Bool) (node : List Char) : Preserves part (pushNode up node) := by
  refine (preserves_theNodes up).bind fun hl ↦ ?_
  split
  · exact preserves_fault _
  · exact (preserves_update fun w ↦ hlist up _ w).bind fun _ ↦ preserves_pure _

theorem preserves_sortNodes (env : LoadEnv) (up : Bool) : Preserves part (sortNodes env up) := by
  refine (preserves_theNodes up).bind fun hl ↦ ?_
  split
  · exact preserves_fault _
  · exact preserves_fault _
  · exact preserves_update fun w ↦ hlist up _ w

variable (hnumber : NumberFree part)

include hnumber

theorem preserves_addNode (up : Bool) (node : List Char) : Preserves part (addNode up node) := by
  refine (preserves_setupHandleErrorCheck hnumber).bind fun _ ↦
    (preserves_isNodeInCluster hnumber node).bind fun rv ↦ ?_
  split_ifs
  · refine (preserves_getNodename hnumber node).bind fun buffer ↦
      (preserves_pushNode hlist up buffer).bind fun pushed ↦ ?_
    split_ifs
    · exact preserves_giveUp (hnumber _)
    · exact preserves_pure _
  · exact preserves_pure _

theorem preserves_notDiscoveredCheck (node : List Char) :
    Preserves part (nodeupdownNotDiscoveredCheck node) := by
  refine (preserves_setupHandleErrorCheck hnumber).bind fun _ ↦
    (preserves_findNode hlist true node).bind fun inUp ↦ ?_
  split_ifs
  · exact preserves_pure _
  · refine (preserves_findNode hlist false node).bind fun inDown ↦ ?_
    split_ifs
    · exact preserves_pure _
    · exact preserves_addNode hlist hnumber false node

theorem preserves_notDiscoveredChecks (nodes : List (List Char)) :
    Preserves part (notDiscoveredChecks nodes) := by
  induction nodes with
  | nil => exact preserves_pure _
  | cons node nodes ih => exact (preserves_notDiscoveredCheck hlist hnumber node).bind fun _ ↦ ih

theorem preserves_runChecks (nodes : List (List Char)) : Preserves part (runChecks nodes) := by
  induction nodes with
  | nil =>
    rintro w _ _ ⟨rfl, rfl⟩
    rfl
  | cons node nodes ih =>
    intro w value w' h
    rw [runChecks] at h
    split at h
    · exact absurd h (by simp)
    · rename_i hcheck
      exact (ih _ value w' h).trans (preserves_notDiscoveredCheck hlist hnumber node _ _ _ hcheck)

/-- The comparison with the cluster adds nodes to the lists. -/
theorem preserves_compareToClusterlist : Preserves part clusterlistModuleCompareToClusterlist := by
  intro w value w' h
  unfold clusterlistModuleCompareToClusterlist at h
  split at h
  · obtain ⟨rfl, rfl⟩ := h
    exact hnumber _ w
  · obtain ⟨rfl, rfl⟩ := h
    rfl
  · exact (preserves_hostsfileHosts.bind fun hosts ↦
      preserves_notDiscoveredChecks hlist hnumber hosts) w value w' h
  · exact ((preserves_runChecks hlist hnumber _).bind fun _ ↦ (preserves_callModule hnumber _).bind
      preserves_unlessNegative) w value w' h

end

/-! ### The calls of a backend -/

section

variable {P : World → Prop}

/-- Assumes: a property that every call keeps. The calls of a backend keep it, and their values are
ignored. -/
theorem runCalls_keeps
    (hcall : ∀ (call : BackendCall) (w w' : World) (value : Option Unit), P w →
      call.run { w with reports := w.reports ++ [call] } = .ok (value, w') → P w')
    (calls : List BackendCall) :
    ∀ {w w' : World} {value : Option Unit}, P w → runCalls calls w = .ok (value, w') →
        P w' ∧ value = some () := by
  induction calls with
  | nil =>
    rintro w _ _ hw ⟨rfl, rfl⟩
    exact ⟨hw, rfl⟩
  | cons call calls ih =>
    intro w w' value hw hrun
    rw [runCalls] at hrun
    split at hrun
    · exact absurd hrun (by simp)
    · rename_i told w1 hfirst
      exact ih (hcall call w w1 told hw hfirst) hrun

/-- The values of the calls are ignored. -/
theorem runCalls_some {calls : List BackendCall} {w w' : World} {value : Option Unit}
    (hrun : runCalls calls w = .ok (value, w')) : value = some () :=
  (runCalls_keeps (P := fun _ ↦ True) (fun _ _ _ _ _ _ ↦ trivial) calls trivial hrun).2

theorem leads_of_preserves {attempt : Nodeupdown α} (h : Preserves P attempt) : Leads P P attempt :=
  h.leads fun _ _ hsame hw ↦ hsame.mpr hw

variable (hnumber : NumberFree P) (hcalls : ∀ calls, Leads P P (runCalls calls))

include hnumber hcalls

/-- Assumes, as the next lemmas: a property that does not depend on the error number and that the
calls of a backend keep. What the backend finds on a server keeps it. -/
theorem leads_getUpdownDataCall (attempt : ℕ) (hostname : List Char) (port timeoutLen : ℤ)
    (reserved : Option (List Char)) :
    Leads P P (backendModuleGetUpdownData attempt hostname port timeoutLen reserved) := by
  intro w value w' hw h
  unfold backendModuleGetUpdownData at h
  split at h
  · obtain ⟨rfl, rfl⟩ := h
    exact (hnumber _ w).mpr hw
  · have hreply : ∀ reply : Reply ℤ, Leads P P (callModule reply >>= unlessNegative) := fun reply ↦
      leads_of_preserves ((preserves_callModule hnumber reply).bind preserves_unlessNegative)
    exact ((hcalls _).bind (fun _ ↦ id) fun _ ↦ hreply _) w value w' hw h

/-- The servers of a list keep it, whether they fail or not. -/
theorem leads_tryHostnames (port timeoutLen : ℤ) (reserved : Option (List Char))
    (hostnames : List (List Char)) :
    ∀ attempt, Leads P P (tryHostnames port timeoutLen reserved attempt hostnames) := by
  induction hostnames with
  | nil =>
    rintro attempt w _ _ hw ⟨rfl, rfl⟩
    exact (hnumber _ w).mpr hw
  | cons hostname hostnames ih =>
    intro attempt w value w' hw h
    rw [tryHostnames] at h
    split_ifs at h
    · exact ih _ w value w' hw h
    · have hserver :=
        leads_getUpdownDataCall hnumber hcalls attempt hostname port timeoutLen reserved
      split at h
      · exact absurd h (by simp)
      · rename_i hcall
        obtain ⟨rfl, rfl⟩ := h
        exact hserver _ _ _ hw hcall
      · rename_i hcall
        exact ih _ _ value w' (hserver _ _ _ hw hcall) h

/-- The data of the one or more servers keep it. -/
theorem leads_getUpdownData (args : LoadArgs) (conffile module : NodeupdownConfig)
    (port timeoutLen : ℤ) :
    Leads P P (getUpdownData args conffile module port timeoutLen) := by
  unfold getUpdownData
  split
  · exact leads_getUpdownDataCall hnumber hcalls _ _ _ _ _
  · split_ifs
    · exact leads_tryHostnames hnumber hcalls _ _ _ _ _
    · exact leads_tryHostnames hnumber hcalls _ _ _ _ _
    · exact (leads_of_preserves (preserves_defaultHostname hnumber)).bind (fun _ ↦ id)
          fun hostname ↦
        leads_getUpdownDataCall hnumber hcalls _ _ _ _ _

end

/-! ### The library and the reports -/

theorem lib_setErrnum (errnum : Errnum) (w : World) : (w.setErrnum errnum).lib = w.lib := rfl

theorem lib_setNodes (up : Bool) (hl : Hostlist) (w : World) : (w.setNodes up hl).lib = w.lib := rfl

theorem reports_setErrnum (errnum : Errnum) (w : World) : (w.setErrnum errnum).reports =
    w.reports := rfl

theorem reports_setNodes (up : Bool) (hl : Hostlist) (w : World) : (w.setNodes up hl).reports =
    w.reports := rfl

/-- A call makes no other call. -/
theorem reports_backendCall (call : BackendCall) : Preserves World.reports call.run := by
  cases call with
  | addUpNode node => exact preserves_addNode reports_setNodes reports_setErrnum true node
  | addDownNode node => exact preserves_addNode reports_setNodes reports_setErrnum false node
  | addLastUpTime node time =>
    refine (preserves_setupHandleErrorCheck reports_setErrnum).bind fun _ ↦ fun w value w' h ↦ ?_
    unfold insertLastUpTime at h
    split at h
    · obtain ⟨rfl, rfl⟩ := h
      rfl
    · split at h <;> obtain ⟨rfl, rfl⟩ := h <;> rfl

/-- Calls of a backend are reported in order. -/
theorem reports_runCalls (calls : List BackendCall) :
    ∀ {w w' : World} {value : Option Unit}, runCalls calls w = .ok (value, w') →
      w'.reports = w.reports ++ calls := by
  induction calls with
  | nil =>
    rintro w _ _ ⟨rfl, rfl⟩
    exact (List.append_nil _).symm
  | cons call calls ih =>
    intro w w' value hrun
    rw [runCalls] at hrun
    split at hrun
    · exact absurd hrun (by simp)
    · rename_i told w1 hcall
      have hreports : w1.reports = w.reports ++ [call] :=
        reports_backendCall call { w with reports := w.reports ++ [call] } told w1 hcall
      rw [ih hrun, hreports, List.append_assoc, List.singleton_append]

end Whatsup
