import Whatsup.Hostlist.NodeStrings
import Whatsup.Hostlist.Uniq
import Whatsup.Nodeupdown.Module

/-!
# The clusterlist modules of pingd

Without nodes in its configuration pingd asks its clusterlist modules, one after the other until one
succeeds. `_load_nodes` pushes the nodes of a module one by one into `conf.hosts`, and gives up
where a push returns 0: what has been pushed stays, and the next module is asked.

`Harmless` is the condition under which a module is taken as a whole or not at all
(`allOrNothing_of_harmless`, and `harmless_of_allOrNothing` for the other direction).
`tryModules_decided` carries it through a sequence of modules, of which only those that are tried
have to be harmless: the hosts are those of the first one that succeeds. `pingdModuleLoad_eq` says
which modules pingd tries.
-/

set_option autoImplicit false
set_option relaxedAutoImplicit false

namespace Whatsup

open CLib

/-! ### Modules and their files -/

/-- What comes of `struct pingd_clusterlist_module_info`: whether its name and functions are there,
the value of `setup`, and what `get_nodes` gives, a negative value or that many node strings. -/
structure ClusterlistModule where
  complete : Bool
  setup : ℤ
  getNodes : Option (List (List Char))
deriving DecidableEq

/-- The loop of `_load_nodes` over the nodes, up to the first push that returns 0; `none` if a push
does not return. -/
def pushNodes : List (List Char) → Hostlist → Option (ℤ × Hostlist)
  | [], hosts => some (0, hosts)
  | node :: nodes, hosts =>
    match hostlistPush hosts node with
    | none => none
    | some (pushed, hosts') => if pushed = 0 then some (-1, hosts') else pushNodes nodes hosts'

/-- `_load_nodes`: its value, and `conf.hosts` behind it. -/
def pingdLoadNodes (module : ClusterlistModule) (hosts : Hostlist) : Option (ℤ × Hostlist) :=
  if module.complete = false then some (-1, hosts)
  else if module.setup < 0 then some (-1, hosts)
  else
    match module.getNodes with
    | none => some (-1, hosts)
    | some nodes => pushNodes nodes hosts

/-- What a file is to `_load_module`: `stat`, `lt_dlopen` or `lt_dlsym` fails, or it has a
module. -/
inductive PingdModuleFile
  | missing
  | unloadable
  | noSymbol
  | opened (module : ClusterlistModule)
deriving DecidableEq

/-- pingd's `_load_module`. -/
def pingdLoadModule (file : PingdModuleFile) (hosts : Hostlist) : Option (ℤ × Hostlist) :=
  match file with
  | .missing | .unloadable | .noSymbol => some (-1, hosts)
  | .opened module =>
    match pingdLoadNodes module hosts with
    | none => none
    | some (rv, hosts') => if rv < 0 then some (-1, hosts') else some (0, hosts')

/-- The loops over files, up to the first one that is loaded. -/
def tryModules : List PingdModuleFile → Hostlist → Option (ℤ × Hostlist)
  | [], hosts => some (-1, hosts)
  | file :: files, hosts =>
    match pingdLoadModule file hosts with
    | none => none
    | some (rv, hosts') => if rv = 0 then some (rv, hosts') else tryModules files hosts'

/-! ### Directories -/

/-- `clusterlist_modules`. -/
def pingdClusterlistModules : List (List Char) :=
  ["pingd_clusterlist_genders.so".toList, "pingd_clusterlist_hostsfile.so".toList]

/-- `CLUSTERLIST_MODULE_SIGNATURE`. -/
def pingdClusterlistSignature : List Char :=
  "pingd_clusterlist".toList

/-- What comes of `opendir`: there is no such directory, another failure, or the names of its
entries. -/
inductive PingdDirectory
  | absent
  | unreadable
  | entries (names : List (List Char))

/-- What pingd finds: the kind of build, whether `lt_dlinit` succeeds, the files in the build
directory and in `PINGD_MODULE_DIR` by their names, and the latter as a directory. -/
structure PingdEnv where
  ndebug : Bool
  ltDlinit : Bool
  buildFile : List Char → PingdModuleFile
  moduleFile : List Char → PingdModuleFile
  moduleDir : PingdDirectory

/-- What a part of the setup comes to: it does not return, pingd exits, or a value and `conf.hosts`
behind it. -/
inductive PingdStart
  | endless
  | exits
  | returns (rv : ℤ) (hosts : Hostlist)
deriving DecidableEq

/-- A part of the setup in which pingd does not exit. -/
def PingdStart.ofOption : Option (ℤ × Hostlist) → PingdStart
  | none => .endless
  | some (rv, hosts) => .returns rv hosts

/-- A part of the setup and, if it returns a value that is not 0, the next one. -/
def PingdStart.orElse (first : PingdStart) (next : Hostlist → PingdStart) : PingdStart :=
  match first with
  | .endless => .endless
  | .exits => .exits
  | .returns rv hosts => if rv = 0 then .returns rv hosts else next hosts

/-- `_load_builddir_modules`. -/
def loadBuilddirModules (env : PingdEnv) (hosts : Hostlist) : PingdStart :=
  .ofOption (tryModules (pingdClusterlistModules.map env.buildFile) hosts)

/-- `_load_known_modules`. -/
def loadKnownModules (env : PingdEnv) (hosts : Hostlist) : PingdStart :=
  .ofOption (tryModules (pingdClusterlistModules.map env.moduleFile) hosts)

/-- `_load_unknown_modules`. -/
def loadUnknownModules (env : PingdEnv) (hosts : Hostlist) : PingdStart :=
  match env.moduleDir with
  | .absent => .returns (-1) hosts
  | .unreadable => .exits
  | .entries names =>
    .ofOption
      (tryModules ((names.filter (isUnknownModule pingdClusterlistSignature)).map env.moduleFile)
      hosts)

/-- `_module_load`, which has no value of its own. -/
def pingdModuleLoad (env : PingdEnv) (hosts : Hostlist) : PingdStart :=
  if hostlistCount hosts ≠ 0 then .returns 0 hosts
  else if env.ltDlinit = false then .returns (-1) hosts
  else
    let built := if env.ndebug then .returns (-1) hosts else loadBuilddirModules env hosts
    (built.orElse (loadKnownModules env)).orElse (loadUnknownModules env)

/-- The end of `pingd_config_setup`, from `_module_load` on: the hosts that pingd starts with, if it
starts. -/
def pingdConfigSetupHosts (qsort : List HostRange → List HostRange) (env : PingdEnv)
    (hosts : Hostlist) :
    Option (Except SortFault Hostlist) :=
  match pingdModuleLoad env hosts with
  | .endless | .exits => none
  | .returns _ hosts' =>
    if hostlistCount hosts' = 0 then none else some (hostlistUniq env.ndebug qsort hosts')

/-! ### One module -/

/-- The node strings that pingd comes to push for a module. -/
def ClusterlistModule.pushes (module : ClusterlistModule) : List (List Char) :=
  if module.complete = true ∧ 0 ≤ module.setup then module.getNodes.getD [] else []

/-- The first of the node strings is refused: `hostlist_push` returns 0, and there is no host in
it. -/
def RefusedFirst (nodes : List (List Char)) : Prop :=
  ∃ node ∈ nodes.head?, hostlistCreate node ≠ .error .diverges ∧ accepted node = false ∧
    namedHosts node = []

/-- Node strings that pingd can try without harm: all are accepted, and no range from 0 is joined to
one that ends at `ULONG_MAX`; or the first one is refused. -/
def Harmless (nodes : List (List Char)) (hosts : Hostlist) : Prop :=
  ((∀ node ∈ nodes, accepted node = true) ∧ NodesUnwrapped nodes hosts) ∨ RefusedFirst nodes

/-- A module is taken as a whole or not at all: 0 is returned, and the hosts that its node strings
name are appended in order, or -1, and `conf.hosts` is unchanged. -/
def AllOrNothing (module : ClusterlistModule) (hosts : Hostlist) : Prop :=
  ∃ rv hosts', pingdLoadNodes module hosts = some (rv, hosts') ∧
    ((rv = 0 ∧
      (∃ nodes, module.getNodes = some nodes ∧ hosts'.hosts = hosts.hosts ++
      nodes.flatMap namedHosts)) ∨
      (rv = -1 ∧ hosts' = hosts))

/-- Assumes: accepted strings in front. They are pushed, and the loop goes on behind them. -/
theorem pushNodes_append (front back : List (List Char)) :
    ∀ hosts : Hostlist, (∀ node ∈ front, accepted node = true) →
      pushNodes (front ++ back) hosts = pushNodes back (front.foldl pushedNode hosts) := by
  induction front with
  | nil => exact fun hosts _ ↦ rfl
  | cons node front ih =>
    intro hosts haccepted
    obtain ⟨hnode, hfront⟩ := List.forall_mem_cons.mp haccepted
    rcases hostlistPush_eq hosts node with ⟨hdiverges, -⟩ | ⟨-, pushed, hpush, hzero⟩
    · rw [accepted, hdiverges] at hnode
      exact absurd hnode (by simp)
    · rw [List.cons_append, pushNodes, hpush]
      simp only
      rw [if_neg (by simp [hzero, hnode]), ih _ hfront, List.foldl_cons]

/-- Assumes: a string that is not accepted. The loop ends at it, if the push returns. -/
theorem pushNodes_refused {node : List Char} (hrefused : accepted node = false)
    (back : List (List Char)) (hosts : Hostlist) :
    (hostlistCreate node = .error .diverges ∧ pushNodes (node :: back) hosts = none) ∨
      hostlistCreate node ≠ .error .diverges ∧ pushNodes (node :: back) hosts =
        some (-1, pushedNode hosts node) := by
  rcases hostlistPush_eq hosts node with ⟨hdiverges, hpush⟩ | ⟨hreturns, pushed, hpush, hzero⟩
  · exact Or.inl ⟨hdiverges, by rw [pushNodes, hpush]⟩
  · refine Or.inr ⟨hreturns, ?_⟩
    rw [pushNodes, hpush]
    simp only
    rw [if_pos (hzero.mpr hrefused)]

/-- All node strings are accepted, or there is a first one that is not. -/
theorem accepted_or_first (nodes : List (List Char)) :
    (∀ node ∈ nodes, accepted node = true) ∨ ∃ front node back, nodes = front ++ node :: back ∧
      (∀ other ∈ front, accepted other = true) ∧ accepted node = false := by
  induction nodes with
  | nil => exact Or.inl (by simp)
  | cons first nodes ih =>
    cases hfirst : accepted first with
    | false => exact Or.inr ⟨[], first, nodes, rfl, by simp, hfirst⟩
    | true =>
      refine ih.imp (fun h ↦ List.forall_mem_cons.mpr ⟨hfirst, h⟩) ?_
      rintro ⟨front, node, back, rfl, hfront, hnode⟩
      exact ⟨first :: front, node, back, rfl, List.forall_mem_cons.mpr ⟨hfirst, hfront⟩, hnode⟩

/-- The nodes of a module are pushed, or the module fails before. -/
theorem pingdLoadNodes_cases (module : ClusterlistModule) (hosts : Hostlist) :
    (∃ nodes, module.getNodes = some nodes ∧ module.pushes = nodes ∧ pingdLoadNodes module hosts =
      pushNodes nodes hosts) ∨
      (module.pushes = [] ∧ pingdLoadNodes module hosts = some (-1, hosts)) := by
  unfold ClusterlistModule.pushes pingdLoadNodes
  by_cases hcomplete : module.complete = true
  · by_cases hsetup : 0 ≤ module.setup
    · rw [if_pos ⟨hcomplete, hsetup⟩, if_neg (by simp [hcomplete]), if_neg (by omega)]
      cases hnodes : module.getNodes with
      | none => exact Or.inr ⟨rfl, rfl⟩
      | some nodes => exact Or.inl ⟨nodes, rfl, rfl, rfl⟩
    · rw [if_neg (by simp [hsetup]), if_neg (by simp [hcomplete]), if_pos (by omega)]
      exact Or.inr ⟨rfl, rfl⟩
  · rw [if_neg (by simp [hcomplete]), if_pos (by simpa using hcomplete)]
    exact Or.inr ⟨rfl, rfl⟩

/-- The module is there and gives node strings that are all accepted. -/
def ClusterlistModule.Succeeds (module : ClusterlistModule) : Prop :=
  module.complete = true ∧ 0 ≤ module.setup ∧ ∃ nodes, module.getNodes = some nodes ∧
    ∀ node ∈ nodes, accepted node = true

/-- Assumes: a sound list, and a module whose node strings are harmless. If it succeeds, the hosts
that its node strings name are appended in order; otherwise it fails and leaves `conf.hosts` as it
is. -/
theorem pingdLoadNodes_of_harmless {module : ClusterlistModule} {hosts : Hostlist}
    (hsound : hosts.Sound)
    (hharmless : Harmless module.pushes hosts) :
    (module.Succeeds ∧ ∃ nodes hosts', module.getNodes = some nodes ∧ pingdLoadNodes module hosts =
      some (0, hosts') ∧
        hosts'.hosts = hosts.hosts ++ nodes.flatMap namedHosts) ∨
      ¬module.Succeeds ∧ pingdLoadNodes module hosts = some (-1, hosts) := by
  by_cases hsucceeds : module.Succeeds
  · obtain ⟨hcomplete, hsetup, nodes, hnodes, haccepted⟩ := hsucceeds
    have hpushes : module.pushes = nodes := by
      unfold ClusterlistModule.pushes
      rw [if_pos ⟨hcomplete, hsetup⟩, hnodes, Option.getD_some]
    have hload : pingdLoadNodes module hosts = pushNodes nodes hosts := by
      unfold pingdLoadNodes
      rw [if_neg (by simp [hcomplete]), if_neg (by omega), hnodes]
    have hunwrapped : NodesUnwrapped nodes hosts := by
      rw [hpushes] at hharmless
      refine (hharmless.resolve_right ?_).2
      rintro ⟨node, hnode, -, hrefused, -⟩
      rw [haccepted node (List.mem_of_mem_head? hnode)] at hrefused
      exact absurd hrefused (by simp)
    have hrun := pushNodes_append nodes [] hosts haccepted
    rw [List.append_nil, ← hload] at hrun
    exact Or.inl ⟨⟨hcomplete, hsetup, nodes, hnodes, haccepted⟩, nodes, _, hnodes, hrun,
      (hosts_pushedNodes_iff nodes hosts hsound).1.mpr hunwrapped⟩
  · refine Or.inr ⟨hsucceeds, ?_⟩
    rcases pingdLoadNodes_cases module hosts with ⟨nodes, hnodes, hpushes, hload⟩ | ⟨-, hload⟩
    · rw [hpushes] at hharmless
      rcases hharmless with ⟨haccepted, -⟩ | ⟨node, hnode, hreturns, hrefused, hnone⟩
      · -- a module that is there and gives accepted strings succeeds
        unfold ClusterlistModule.pushes at hpushes
        unfold ClusterlistModule.Succeeds at hsucceeds
        by_cases hthere : module.complete = true ∧ 0 ≤ module.setup
        · exact absurd ⟨hthere.1, hthere.2, nodes, hnodes, haccepted⟩ hsucceeds
        · unfold pingdLoadNodes
          by_cases hcomplete : module.complete = true
          · rw [if_neg (by simp [hcomplete]), if_pos (by simpa [hcomplete] using hthere)]
          · rw [if_pos (by simpa using hcomplete)]
      · obtain ⟨back, rfl⟩ := List.head?_eq_some_iff.mp hnode
        rcases pushNodes_refused hrefused back hosts with ⟨hdiverges, -⟩ | ⟨-, hrun⟩
        · exact absurd hdiverges hreturns
        · rw [hload, hrun]
          unfold pushedNode
          unfold namedHosts at hnone
          cases hcreate : hostlistCreate node with
          | error failure => rfl
          | ok new =>
            have hranges :=
              (namedHosts_eq_nil_iff hcreate).mp (by
                rw [namedHosts, hcreate]; simpa [hcreate] using hnone)
            simp only [hranges, List.foldl_nil]
    · exact hload

/-- Assumes: a sound list, and a module whose node strings are harmless. It is taken as a whole or
not at all. -/
theorem allOrNothing_of_harmless {module : ClusterlistModule} {hosts : Hostlist}
    (hsound : hosts.Sound)
    (hharmless : Harmless module.pushes hosts) : AllOrNothing module hosts := by
  rcases pingdLoadNodes_of_harmless hsound hharmless with ⟨-, nodes, hosts', hnodes, hload,
    hhosts⟩ | ⟨-, hload⟩
  · exact ⟨0, hosts', hload, Or.inl ⟨rfl, nodes, hnodes, hhosts⟩⟩
  · exact ⟨-1, hosts, hload, Or.inr ⟨rfl, rfl⟩⟩

/-- Assumes: strings whose pushes leave no range. They name no host. -/
theorem namedHosts_of_foldl_eq_nil (nodes : List (List Char)) :
    ∀ hosts : Hostlist, (nodes.foldl pushedNode hosts).ranges = [] →
      ∀ node ∈ nodes, namedHosts node = [] := by
  induction nodes using List.reverseRecOn with
  | nil => exact fun hosts _ ↦ by simp
  | append_singleton nodes node ih =>
    intro hosts h
    rw [List.foldl_append] at h
    obtain ⟨hranges, hnode⟩ := (ranges_pushedNode_eq_nil_iff _ node).mp h
    exact List.forall_mem_append.mpr ⟨ih hosts hranges, List.forall_mem_singleton.mpr hnode⟩

/-- Assumes: strings pushed onto a list without ranges, or so that nothing wraps around, that leave
the list as it is. They name no host. -/
theorem namedHosts_of_unchanged {nodes : List (List Char)} {hosts : Hostlist} (hsound : hosts.Sound)
    (hfine : hosts.ranges = [] ∨ NodesUnwrapped nodes hosts)
    (hsame : nodes.foldl pushedNode hosts = hosts) :
    ∀ node ∈ nodes, namedHosts node = [] := by
  rcases hfine with hempty | hunwrapped
  · exact namedHosts_of_foldl_eq_nil nodes hosts (by rw [hsame, hempty])
  · have hhosts := (hosts_pushedNodes_iff nodes hosts hsound).1.mpr hunwrapped
    rw [hsame] at hhosts
    exact List.flatMap_eq_nil_iff.mp (List.self_eq_append_right.mp hhosts)

/-- Pushes that do not wrap around do not on the way. -/
theorem NodesUnwrapped.of_append {front back : List (List Char)} :
    ∀ {hosts : Hostlist}, NodesUnwrapped (front ++ back) hosts → NodesUnwrapped front hosts := by
  induction front with
  | nil => exact fun _ ↦ trivial
  | cons node front ih => exact fun h ↦ ⟨h.1, ih h.2⟩

/-- Assumes: a sound list that is empty, or node strings whose pushes do not wrap around. A module
that is taken as a whole or not at all is harmless. -/
theorem harmless_of_allOrNothing {module : ClusterlistModule} {hosts : Hostlist}
    (hsound : hosts.Sound)
    (hfine : hosts.ranges = [] ∨ NodesUnwrapped module.pushes hosts)
    (h : AllOrNothing module hosts) :
    Harmless module.pushes hosts := by
  obtain ⟨rv, hosts', hrun, hcase⟩ := h
  rcases pingdLoadNodes_cases module hosts with ⟨nodes, hnodes, hpushes, hload⟩ | ⟨hpushes, hload⟩
  · rw [hpushes] at hfine ⊢
    rw [hload] at hrun
    rcases accepted_or_first nodes with haccepted | ⟨front, node, back, rfl, hfront, hrefused⟩
    · have hall := pushNodes_append nodes [] hosts haccepted
      rw [List.append_nil, hrun] at hall
      obtain ⟨rfl, rfl⟩ := Prod.mk.inj (Option.some.inj hall)
      obtain ⟨-, nodes', hnodes', hhosts⟩ := hcase.resolve_right fun h ↦ absurd h.1 (by decide)
      obtain rfl := Option.some.inj (hnodes.symm.trans hnodes')
      exact Or.inl ⟨haccepted, (hosts_pushedNodes_iff nodes hosts hsound).1.mp hhosts⟩
    · rw [pushNodes_append front _ hosts hfront] at hrun
      rcases pushNodes_refused hrefused back (front.foldl pushedNode hosts) with ⟨-,
        hnone⟩ | ⟨hreturns, hends⟩
      · exact absurd (hrun.symm.trans hnone) (by simp)
      · obtain ⟨rfl, rfl⟩ := Prod.mk.inj (Option.some.inj (hrun.symm.trans hends))
        obtain ⟨-, hsame⟩ := hcase.resolve_left fun h ↦ absurd h.1 (by decide)
        have hunchanged : (front ++ [node]).foldl pushedNode hosts = hosts := by
          rw [List.foldl_append]
          exact hsame
        have hnamed := namedHosts_of_unchanged hsound (hfine.imp_right fun h ↦
          NodesUnwrapped.of_append (show NodesUnwrapped ((front ++ [node]) ++ back) hosts by
            simpa using h)) hunchanged
        -- an accepted string in front would name a host
        have hfirst : front = [] := List.eq_nil_iff_forall_not_mem.mpr fun other hother ↦
          namedHosts_ne_nil (hfront other hother) (hnamed other (List.mem_append_left _ hother))
        subst hfirst
        exact Or.inr ⟨node, rfl, hreturns, hrefused, hnamed node (by simp)⟩
  · rw [hpushes]
    exact Or.inl ⟨by simp, trivial⟩

/-! ### A sequence of modules -/

/-- The file is loaded: it has a module that succeeds. -/
def PingdModuleFile.Succeeds : PingdModuleFile → Prop
  | .missing | .unloadable | .noSymbol => False
  | .opened module => module.Succeeds

/-- Trying the files in turn comes to a module: no file in front of it succeeds. -/
def Tried (files : List PingdModuleFile) (module : ClusterlistModule) : Prop :=
  ∃ front back, files = front ++ .opened module :: back ∧ ∀ file ∈ front, ¬file.Succeeds

/-- A file of a module that fails and leaves `conf.hosts` as it is. -/
def FailsCleanly (hosts : Hostlist) (file : PingdModuleFile) : Prop :=
  pingdLoadModule file hosts = some (-1, hosts)

/-- What trying files in turn should come to: all fail, and `conf.hosts` is as it was; or the hosts
that the node strings of the first one that succeeds name are appended. -/
def Decided (files : List PingdModuleFile) (hosts : Hostlist) (rv : ℤ) (hosts' : Hostlist) : Prop :=
  (rv = -1 ∧ hosts' = hosts ∧ ∀ file ∈ files, FailsCleanly hosts file) ∨
    (rv = 0 ∧ ∃ front module nodes back, files = front ++ .opened module :: back ∧
      (∀ file ∈ front, FailsCleanly hosts file) ∧
      pingdLoadModule (.opened module) hosts = some (0, hosts') ∧ module.getNodes = some nodes ∧
      hosts'.hosts = hosts.hosts ++ nodes.flatMap namedHosts)

/-- Assumes: a sound list, and a file whose module, should it have one, is harmless. It fails
cleanly without success, or it is loaded. -/
theorem pingdLoadModule_cases {file : PingdModuleFile} {hosts : Hostlist} (hsound : hosts.Sound)
    (hharmless : ∀ module, file = .opened module → Harmless module.pushes hosts) :
    (¬file.Succeeds ∧ FailsCleanly hosts file) ∨ ∃ module nodes hosts', file = .opened module ∧
      pingdLoadModule file hosts = some (0, hosts') ∧ module.getNodes = some nodes ∧
      hosts'.hosts = hosts.hosts ++ nodes.flatMap namedHosts := by
  cases file with
  | missing => exact Or.inl ⟨id, rfl⟩
  | unloadable => exact Or.inl ⟨id, rfl⟩
  | noSymbol => exact Or.inl ⟨id, rfl⟩
  | opened module =>
    rcases pingdLoadNodes_of_harmless hsound (hharmless module rfl) with
      ⟨-, nodes, hosts', hnodes, hload, hhosts⟩ | ⟨hfails, hload⟩
    · exact Or.inr ⟨module, nodes, hosts', rfl, by rw [pingdLoadModule, hload]; rfl, hnodes, hhosts⟩
    · exact Or.inl ⟨hfails, by rw [FailsCleanly, pingdLoadModule, hload]; rfl⟩

/-- Assumes: a sound list, and files of which the modules that are tried are harmless. The first one
that succeeds decides. -/
theorem tryModules_decided (files : List PingdModuleFile) {hosts : Hostlist} (hsound : hosts.Sound)
    (hharmless : ∀ module, Tried files module → Harmless module.pushes hosts) :
    ∃ rv hosts', tryModules files hosts = some (rv, hosts') ∧ Decided files hosts rv hosts' := by
  induction files with
  | nil => exact ⟨-1, hosts, rfl, Or.inl ⟨rfl, rfl, fun _ h ↦ absurd h List.not_mem_nil⟩⟩
  | cons file files ih =>
    have hfirst : ∀ module, file = .opened module → Harmless module.pushes hosts := fun module h ↦
      hharmless module ⟨[], files, by rw [h]; rfl, by simp⟩
    rcases pingdLoadModule_cases hsound hfirst with
      ⟨hfile, hfails⟩ | ⟨module, nodes, hosts', rfl, hload, hnodes, hhosts⟩
    · obtain ⟨rv, hosts', hrest, hdecided⟩ := ih fun module ⟨front, back, hsplit, hfront⟩ ↦
        hharmless module ⟨file :: front, back, by
          rw [hsplit]; rfl, List.forall_mem_cons.mpr ⟨hfile, hfront⟩⟩
      refine ⟨rv, hosts', by rw [tryModules, hfails]; exact hrest, ?_⟩
      rcases hdecided with ⟨hrv, hsame, hall⟩ | ⟨hrv, front, module, nodes, back, hsplit, hfront,
        hload, hnodes, hhosts⟩
      · exact Or.inl ⟨hrv, hsame, List.forall_mem_cons.mpr ⟨hfails, hall⟩⟩
      · exact Or.inr ⟨hrv, file :: front, module, nodes, back, by rw [hsplit]; rfl,
          List.forall_mem_cons.mpr ⟨hfails, hfront⟩, hload, hnodes, hhosts⟩
    · refine ⟨0, hosts', by rw [tryModules, hload]; rfl,
        Or.inr ⟨rfl, [], module, nodes, files, rfl, ?_, hload, hnodes, hhosts⟩⟩
      exact fun _ h ↦ absurd h List.not_mem_nil

/-- Trying more files goes on behind the first ones, if none of them is loaded. -/
theorem tryModules_append (files files' : List PingdModuleFile) :
    ∀ hosts : Hostlist, PingdStart.ofOption (tryModules (files ++ files') hosts) =
      (PingdStart.ofOption (tryModules files hosts)).orElse fun hosts ↦
        .ofOption (tryModules files' hosts) := by
  induction files with
  | nil => exact fun hosts ↦ rfl
  | cons file files ih =>
    intro hosts
    rw [List.cons_append, tryModules, tryModules]
    rcases pingdLoadModule file hosts with _ | ⟨rv, hosts'⟩
    · rfl
    · simp only
      split_ifs with hrv
      · simp [PingdStart.ofOption, PingdStart.orElse, hrv]
      · exact ih hosts'

/-- The files of clusterlist modules that pingd tries, in order. -/
def PingdEnv.candidates (env : PingdEnv) : List PingdModuleFile :=
  if env.ltDlinit then
    (if env.ndebug then [] else pingdClusterlistModules.map env.buildFile) ++
      pingdClusterlistModules.map env.moduleFile ++
      match env.moduleDir with
      | .entries names =>
        (names.filter (isUnknownModule pingdClusterlistSignature)).map env.moduleFile
      | _ => []
  else []

/-- Assumes: no configured hosts. pingd tries its candidates in order, unless it exits because the
directory of the modules cannot be opened. -/
theorem pingdModuleLoad_eq (env : PingdEnv) {hosts : Hostlist} (hcount : hostlistCount hosts = 0) :
    (env.moduleDir = .unreadable ∧ pingdModuleLoad env hosts = .exits) ∨
      pingdModuleLoad env hosts = .ofOption (tryModules env.candidates hosts) := by
  unfold pingdModuleLoad PingdEnv.candidates
  rw [if_neg (by simp [hcount])]
  by_cases hinit : env.ltDlinit = true
  · rw [if_neg (by simp [hinit]), if_pos hinit, tryModules_append]
    have hfirst :
      PingdStart.ofOption
      (tryModules ((if env.ndebug = true then [] else pingdClusterlistModules.map env.buildFile) ++
        pingdClusterlistModules.map env.moduleFile) hosts) =
        (if env.ndebug = true then .returns (-1) hosts else loadBuilddirModules env hosts).orElse
            (loadKnownModules env) := by
      rw [tryModules_append]
      split_ifs <;> rfl
    rw [hfirst]
    simp only
    generalize (if env.ndebug = true then PingdStart.returns (-1) hosts else loadBuilddirModules env
      hosts).orElse
      (loadKnownModules env) = first
    unfold loadUnknownModules
    cases hdir : env.moduleDir with
    | absent => exact Or.inr rfl
    | entries names => exact Or.inr rfl
    | unreadable =>
      rcases first with _ | _ | ⟨rv, hosts'⟩
      · exact Or.inr rfl
      · exact Or.inr rfl
      · by_cases hrv : rv = 0
        · exact Or.inr (by simp [PingdStart.orElse, hrv])
        · exact Or.inl ⟨rfl, by simp [PingdStart.orElse, hrv]⟩
  · rw [if_pos (by simpa using hinit), if_neg hinit]
    exact Or.inr rfl

/-- Assumes: candidates of which those that are tried are harmless. If pingd starts, it starts with
the hosts of the first candidate that succeeds, once each. -/
theorem pingdConfigSetupHosts_decided (qsort : List HostRange → List HostRange) (env : PingdEnv)
    (hharmless : ∀ module, Tried env.candidates module → Harmless module.pushes hostlistNew) :
    pingdConfigSetupHosts qsort env hostlistNew = none ∨
      ∃ hosts', pingdConfigSetupHosts qsort env hostlistNew =
        some (hostlistUniq env.ndebug qsort hosts') ∧
        Decided env.candidates hostlistNew 0 hosts' := by
  unfold pingdConfigSetupHosts
  rcases pingdModuleLoad_eq env (show hostlistCount hostlistNew = 0 from rfl) with ⟨-,
    hexits⟩ | hload
  · exact Or.inl (by rw [hexits])
  · obtain ⟨rv, hosts', htry, hdecided⟩ :=
      tryModules_decided env.candidates hostlistNew_sound hharmless
    rw [hload, htry]
    simp only [PingdStart.ofOption]
    split_ifs with hcount
    · exact Or.inl rfl
    · obtain ⟨-, rfl, -⟩ | ⟨rfl, hfirst⟩ := hdecided
      · exact absurd rfl hcount
      · exact Or.inr ⟨hosts', rfl, Or.inr ⟨rfl, hfirst⟩⟩

/-! ### What the modules add -/

/-- Assumes: a sound list `conf.hosts`. A module that is harmless is taken as a whole or not at all,
and only such a module is if `conf.hosts` is empty or no push of its node strings wraps around; in a
sequence of modules, of which those that are tried are harmless, the first one that succeeds
decides; and so it does among those that pingd tries when it has no hosts. -/
theorem clusterlistModules_iff {hosts : Hostlist} (hsound : hosts.Sound) :
    (∀ module : ClusterlistModule, Harmless module.pushes hosts → AllOrNothing module hosts) ∧
    (∀ module : ClusterlistModule, hosts.ranges = [] ∨ NodesUnwrapped module.pushes hosts →
      AllOrNothing module hosts → Harmless module.pushes hosts) ∧
    (∀ files : List PingdModuleFile, (∀ module, Tried files module → Harmless module.pushes hosts) →
      ∃ rv hosts', tryModules files hosts = some (rv, hosts') ∧ Decided files hosts rv hosts') ∧
    (∀ env : PingdEnv, hostlistCount hosts = 0 →
      (∀ module, Tried env.candidates module → Harmless module.pushes hosts) →
      (env.moduleDir = .unreadable ∧ pingdModuleLoad env hosts = .exits) ∨
        ∃ rv hosts', pingdModuleLoad env hosts = .returns rv hosts' ∧
          Decided env.candidates hosts rv hosts') := by
  refine ⟨fun module ↦ allOrNothing_of_harmless hsound, fun module ↦
    harmless_of_allOrNothing hsound,
    fun files ↦ tryModules_decided files hsound, fun env hcount hharmless ↦ ?_⟩
  rcases pingdModuleLoad_eq env hcount with hexits | hload
  · exact Or.inl hexits
  · obtain ⟨rv, hosts', htry, hdecided⟩ := tryModules_decided env.candidates hsound hharmless
    exact Or.inr ⟨rv, hosts', by rw [hload, htry]; rfl, hdecided⟩

/-- A module with the given node strings. -/
def givingModule (nodes : List (List Char)) : ClusterlistModule :=
  { complete := true, setup := 0, getNodes := some nodes }

/-- A module whose first node string is refused, one that is taken, and one that is not tried any
more and would do harm. -/
def threeModules : List ClusterlistModule :=
  [givingModule ["n[2-1]".toList, "c".toList],
    givingModule ["b[1-2]".toList, "n[18446744073709551615]".toList],
    givingModule ["a".toList, []]]

/-- The three modules tried in turn, and the first two of them by themselves. -/
theorem clusterlistModules_iff_three :
    (∀ module ∈ threeModules.take 2, AllOrNothing module hostlistNew) ∧
      (AllOrNothing (givingModule ["b[1-2]".toList, "n[18446744073709551615]".toList]) hostlistNew →
        Harmless ["b[1-2]".toList, "n[18446744073709551615]".toList] hostlistNew) ∧
      ∃ rv hosts', tryModules (threeModules.map .opened) hostlistNew = some (rv, hosts') ∧
        Decided (threeModules.map .opened) hostlistNew rv hosts' := by
  have hrefused : Harmless ["n[2-1]".toList, "c".toList] hostlistNew :=
    Or.inr ⟨_, rfl, by decide +kernel, by decide +kernel, by decide +kernel⟩
  have htaken : Harmless ["b[1-2]".toList, "n[18446744073709551615]".toList] hostlistNew :=
    Or.inl ⟨by decide +kernel, by decide +kernel⟩
  have hsucceeds : (givingModule ["b[1-2]".toList, "n[18446744073709551615]".toList]).Succeeds :=
    ⟨rfl, le_rfl, _, rfl, by decide +kernel⟩
  obtain ⟨hsingle, hconverse, hsequence, -⟩ := clusterlistModules_iff hostlistNew_sound
  refine ⟨?_, hconverse _ (Or.inl rfl), hsequence _ ?_⟩
  · exact List.forall_mem_cons.mpr ⟨hsingle _ hrefused,
      List.forall_mem_singleton.mpr (hsingle _ htaken)⟩
  · rintro module ⟨front, back, hsplit, hfront⟩
    match front, hsplit with
    | [], hsplit =>
      obtain rfl := PingdModuleFile.opened.inj (List.cons.inj hsplit).1
      exact hrefused
    | [_], hsplit =>
      obtain rfl := PingdModuleFile.opened.inj (List.cons.inj (List.cons.inj hsplit).2).1
      exact htaken
    | _ :: file :: _, hsplit =>
      obtain rfl : .opened (givingModule ["b[1-2]".toList, "n[18446744073709551615]".toList]) =
          file :=
        (List.cons.inj (List.cons.inj hsplit).2).1
      exact absurd hsucceeds (hfront (.opened _) (List.mem_cons_of_mem _ List.mem_cons_self))

/-- A module whose second node string is empty. -/
def spoiledModule : ClusterlistModule :=
  givingModule ["a".toList, []]

/-- The module fails and its first node stays: when the next module succeeds, the hosts are those of
both. -/
theorem not_allOrNothing_spoiledModule :
    ¬ AllOrNothing spoiledModule hostlistNew ∧
      ∃ hosts', tryModules [.opened spoiledModule, .opened (givingModule ["b".toList])]
        hostlistNew = some (0, hosts') ∧
        hosts'.hosts = ["a".toList, "b".toList] := by
  have hload : pingdLoadNodes spoiledModule hostlistNew =
    some (-1, hostlistPushHost hostlistNew "a".toList) := by decide
  refine ⟨?_, _, rfl, by decide⟩
  rintro ⟨rv, hosts', hrun, hcase⟩
  obtain ⟨rfl, rfl⟩ := Prod.mk.inj (Option.some.inj (hload.symm.trans hrun))
  rcases hcase with ⟨habsurd, -⟩ | ⟨-, hsame⟩
  · exact absurd habsurd (by decide)
  · exact absurd hsame (by decide)

end Whatsup
