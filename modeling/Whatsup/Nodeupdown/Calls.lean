import Whatsup.CLib.ComparisonSort
import Whatsup.Nodeupdown.Query

/-!
# Sequences of calls

An application calls the functions of libnodeupdown on its handles, one after another. An `ApiCall`
is a call with its arguments and, where the call depends on the world outside the process, with what
that world gives; an `Answer` is what the application sees of it. `runApi` is a run of calls.
-/

set_option autoImplicit false
set_option relaxedAutoImplicit false

namespace Whatsup

open CLib

/-- A query on a handle. -/
inductive Query
  | isNode (up : Bool) (node : Option (List Char))
  | nodeCount (up : Bool)
  | nodesString (up : Bool) (buf : Option (List Char)) (buflen : ℤ)
  | nodesList (up : Bool) (list : Option (List (Option Unit)))
  | lastUpTime (node : Option (List Char))
  | nodelistCreate

/-- What a call returns: a number, the text in a buffer, the names in an array, or a pointer. -/
inductive Answer
  | number (value : ℤ)
  | text (buf : List Char)
  | names (list : List (List Char))
  | pointer (address : Option ℕ)
deriving DecidableEq

/-- A query that succeeds. -/
def Query.run : Query → Nodeupdown Answer
  | .isNode up node => Answer.number <$> Whatsup.isNode up node
  | .nodeCount up => Answer.number <$> Whatsup.nodeCount up
  | .nodesString up buf buflen => Answer.text <$> getNodesString up buf buflen
  | .nodesList up list => Answer.names <$> getNodesList up list
  | .lastUpTime node => Functor.map (fun time : ℕ ↦ Answer.number time) (Whatsup.lastUpTime node)
  | .nodelistCreate => Answer.number <$> Whatsup.nodelistCreate

/-- A query: every one turns the NULL pointer away, and returns `-1` where it gives up. -/
def nodeupdownQuery (query : Query) (pointer : Option ℕ) (process : Process) :
    Except LibFault (Answer × Process) :=
  match pointer with
  | none => .ok (.number (-1), process)
  | some address =>
    match process.handles address with
    | none => .error .nullPointer
    | some handle =>
      match query.run (process.world handle) with
      | .error failure => .error failure
      | .ok (answer, w) => .ok (answer.getD (.number (-1)), process.put address w)

/-- A call of an application. -/
inductive ApiCall
  | create (address : Option ℕ)
  | load (pointer : Option ℕ) (env : LoadEnv) (args : LoadArgs)
  | query (pointer : Option ℕ) (query : Query)
  | destroy (pointer : Option ℕ)

/-- A call: what the application sees, and the process behind it. -/
def ApiCall.run : ApiCall → Process → Except LibFault (Answer × Process)
  | .create address, process =>
    let created := nodeupdownHandleCreate address process
    .ok (.pointer created.1, created.2)
  | .load pointer env args, process =>
    (nodeupdownLoadData env args pointer process).map fun result ↦ (.number result.1, result.2)
  | .query pointer asked, process => nodeupdownQuery asked pointer process
  | .destroy pointer, process =>
    (nodeupdownHandleDestroy pointer process).map fun result ↦ (.number result.1, result.2)

/-- One call of a run, noted with what the application sees of it. -/
def apiStep (run : Process × List (ApiCall × Answer)) (call : ApiCall) :
    Except LibFault (Process × List (ApiCall × Answer)) :=
  (call.run run.1).map fun result ↦ (result.2, run.2 ++ [(call, result.1)])

/-- A run of calls: every call with what the application sees of it, and the process behind them. -/
def runApi (process : Process) (calls : List ApiCall) :
    Except LibFault (Process × List (ApiCall × Answer)) :=
  calls.foldlM apiStep (process, [])

/-! ### A small environment -/

/-- The pingd backend with what it finds on each of its servers in place of the network. -/
def plainBackend (getUpdownData : ℕ → List Char → BackendRun) : BackendInfo where
  backendModuleName := "pingd".toList
  defaultHostname := ⟨some "localhost".toList, none⟩
  defaultPort := ⟨9125, none⟩
  defaultTimeoutLen := ⟨60, none⟩
  preferredClusterlistModule := ⟨none, none⟩
  setup := ⟨0, none⟩
  cleanup := ⟨0, none⟩
  getUpdownData attempt hostname _ _ _ := getUpdownData attempt hostname

/-- A file name of a module, and what it describes. -/
def plainModules (backend : BackendInfo) (hostsfile : Bool) : List DirEntry :=
  ⟨"nodeupdown_backend_pingd.so".toList, .opened ⟨some (some backend), none, none⟩⟩ ::
    if hostsfile then
      [⟨"nodeupdown_clusterlist_hostsfile.so".toList, .opened ⟨none, some (some .hostsfile), none⟩⟩]
    else []

/-- An environment in which nothing fails: a backend, and a text in the hostsfile if the hostsfile
module is installed. -/
def plainEnv (backend : BackendInfo) (hostsfile : Option (List Char)) : LoadEnv where
  ndebug := true
  ltDlinit := true
  conffile := .missing
  buildDir := none
  moduleDir := some (plainModules backend hostsfile.isSome)
  hostsfile := .opened ((hostsfile.getD []).map .byte)
  allocations := (true, true, true)
  qsort := insertionSort hostrangeCmp
  rounds := 100

/-- The arguments of a load that leaves everything to the defaults. -/
def plainArgs : LoadArgs :=
  ⟨none, 0, 0, none⟩

/-- A process that some run of calls comes to. -/
def Process.Reachable (process : Process) : Prop :=
  ∃ calls answers, runApi Process.start calls = .ok (process, answers)

end Whatsup
