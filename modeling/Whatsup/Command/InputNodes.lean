import Whatsup.Command.LogMode
import Whatsup.Hostlist.PushOrder
import Whatsup.Nodeupdown.Answers

/-!
# The nodes that `whatsup` is given

With nodes on its command line, `whatsup` asks the library about each of them, once whether it is up
and once whether it is down, puts those with the status that is asked for into a list, sorts and
prints the list, and counts what it reads back from the text.

`getBothNodes_iff` says when both texts come to be, and what they say: they denote the given nodes
that are up and those that are down, each once, no node is in both, and the exit value tells whether
there is one with the status that is not asked for.
-/

set_option autoImplicit false
set_option relaxedAutoImplicit false

namespace Whatsup

open CLib

/-- The ways in which `whatsup` does not go on when it asks about given nodes: `err_exit` for a node
that the library does not know, or cannot tell about, or for a text that does not fit, and those in
which it does not go on for all nodes. -/
inductive InputExit
  | unknownNode (node : List Char)
  | isNode (errnum : Errnum)
  | rangedString
  | exit (failure : WhatsupExit)

/-- The loop of `_get_input_nodes` over the nodes that an iterator gives: the list of those with the
status asked for. -/
def inputLoop (up : Bool) (inputted : Hostlist) :
    ℕ → HostlistIterator → Hostlist → World → Except InputExit (Hostlist × World)
  | 0, _, _, _ => .error (.exit (.fault .endless))
  | rounds + 1, iter, hl, w =>
    match hostlistNext inputted iter with
    | (none, _) => .ok (hl, w)
    | (some node, iter) =>
      match isNode up (some node) w with
      | .error fault => .error (.exit (.fault fault))
      | .ok (none, w) =>
        .error (if w.handle.errnum = .notfound then .unknownNode node else .isNode w.handle.errnum)
      | .ok (some rv, w) =>
        inputLoop up inputted rounds iter (if rv ≠ 0 then hostlistPushHost hl node else hl) w

/-- How the process sorts: whether it is built without assertions, its `qsort`, and how many rounds
a sort is followed. -/
structure Sorting where
  ndebug : Bool
  qsort : List HostRange → List HostRange
  rounds : ℕ

/-- `hostlist_sort` in `whatsup`. -/
def sortNodesOf (sorting : Sorting) (hl : Hostlist) : Except InputExit Hostlist :=
  match hostlistSort sorting.ndebug sorting.qsort sorting.rounds hl with
  | none => .error (.exit (.fault .endless))
  | some (.error failure) => .error (.exit (.fault (.sort failure)))
  | some (.ok hl) => .ok hl

/-- `_get_input_nodes`: the buffer with the text. -/
def getInputNodes (sorting : Sorting) (inputted : Hostlist) (up : Bool) (buf : List Char)
    (w : World) :
    Except InputExit (List Char × World) := do
  let (hl, w) ← inputLoop up inputted (inputted.hosts.length + 1) hostlistIteratorCreate
    hostlistNew w
  let hl ← sortNodesOf sorting hl
  match hostlistRangedString hl whatsupBufferlen buf with
  | none => .error (.exit (.fault .nullPointer))
  | some (len, buf) => if len < 0 then .error .rangedString else .ok (buf, w)

/-- The call that `_get_nodes` makes: for the given nodes, if there are any, or else for all
nodes. -/
def getNodesText (sorting : Sorting) (inputted : Hostlist) (up : Bool) (buf : List Char)
    (w : World) :
    Except InputExit (List Char × World) :=
  if 0 < hostlistCount inputted then getInputNodes sorting inputted up buf w
    else (getAllNodes up buf w).mapError .exit

/-- `_get_nodes` with the nodes of the command line: the count, and the buffer with the text. -/
def getNodesOf (sorting : Sorting) (inputted : Hostlist) (up : Bool) (buf : List Char) (w : World) :
    Except InputExit (ℤ × List Char × World) := do
  let (buf, w) ← getNodesText sorting inputted up buf w
  let hl ← (createNodes (cString buf)).mapError .exit
  return (hostlistCount hl, buf, w)

/-- Which nodes `whatsup` is to print: `WHATSUP_UP_NODES`, `WHATSUP_DOWN_NODES` or
`WHATSUP_UP_AND_DOWN`. -/
inductive UpdownOutput
  | upNodes
  | downNodes
  | upAndDown
deriving DecidableEq

/-- The exit value of `_output_mode`. -/
def exitVal (upCount downCount : ℤ) : UpdownOutput → ℕ
  | .upAndDown => 0
  | .upNodes => if downCount = 0 then 0 else 1
  | .downNodes => if upCount = 0 then 0 else 1

/-- The count and the text of the nodes that are up, and of those that are down. -/
structure NodeTexts where
  upCount : ℤ
  upNodes : List Char
  downCount : ℤ
  downNodes : List Char

/-- The two calls of `_get_nodes` in `_output_mode`. The buffers are static. -/
def getBothNodes (sorting : Sorting) (inputted : Hostlist) (w : World) :
    Except InputExit (NodeTexts × World) := do
  let (upCount, upNodes, w) ← getNodesOf sorting inputted true clearedBuffer w
  let (downCount, downNodes, w) ← getNodesOf sorting inputted false clearedBuffer w
  return (⟨upCount, upNodes, downCount, downNodes⟩, w)

/-! ### Which nodes have a status -/

/-- Whether a query about a node gives one: whether the list has the name under which the node is
looked up. -/
def World.status (c : Cluster) (names : Bool → List (List Char)) (w : World) (up : Bool)
    (node : List Char) : Bool :=
  (if w.lib.clusterlistModuleFound ≠ 0 then c.nodename node else some node).any fun name ↦
    decide (name ∈ names up)

/-- A node that a query about it does not give up on. -/
def World.Known (c : Cluster) (names : Bool → List (List Char)) (w : World)
    (node : List Char) : Prop :=
  ∃ name, w.LooksUp c names node name

section

variable {c : Cluster} {names : Bool → List (List Char)} {w : World} {node : List Char}

/-- The status of a node is whether the list has the name that is looked up. -/
theorem World.LooksUp.status_eq {name : List Char} (h : w.LooksUp c names node name) (up : Bool) :
    w.status c names up node = decide (name ∈ names up) := by
  unfold World.LooksUp at h
  unfold World.status
  split_ifs at h ⊢ with hfound
  · rw [h.1, Option.any_some]
  · rw [h.1, Option.any_some]

variable (h : w.Queried c names)

include h

/-- A query that is answered is about a node that is known, and gives its status. -/
theorem isNode_status {up : Bool} {rv : ℤ} {w' : World}
    (hrun : isNode up (some node) w = .ok (some rv, w')) :
    w'.Queried c names ∧ w'.lib = w.lib ∧ w.Known c names node ∧
    (rv ≠ 0 ↔ w.status c names up node = true) := by
  obtain ⟨hqueried, hlib, name, hlooks, rfl⟩ := isNode_ok h hrun
  refine ⟨hqueried, hlib, ⟨name, hlooks⟩, ?_⟩
  rw [hlooks.status_eq, decide_eq_true_eq]
  split_ifs with hmem <;> simp [hmem]

end

/-! ### The loop -/

section

variable {c : Cluster} {names : Bool → List (List Char)} {inputted : Hostlist}
    (hvalid : ∀ hr ∈ inputted.ranges, hr.Valid)
  {up : Bool}

include hvalid

/-- A loop that ends well has asked about known nodes, and has pushed those with the status in their
order. -/
theorem inputLoop_ok (rounds : ℕ) :
    ∀ {iter : HostlistIterator} {hl hl' : Hostlist} {w w' : World}, iter.Stands inputted →
      w.Queried c names →
      inputLoop up inputted rounds iter hl w = .ok (hl', w') →
      hl' = ((iter.ahead inputted).filter (w.status c names up)).foldl hostlistPushHost hl ∧
      w'.Queried c names ∧
        w'.lib = w.lib ∧ ∀ node ∈ iter.ahead inputted, w.Known c names node := by
  induction rounds with
  | zero => exact fun _ _ h ↦ absurd h (by simp [inputLoop])
  | succ rounds ih =>
    intro iter hl hl' w w' hstands hqueried hrun
    rw [inputLoop] at hrun
    rcases hostlistNext_spec (fun hr hmem ↦ (hvalid hr hmem).walkable) hstands with ⟨hahead,
      hnext⟩ | ⟨node, iter', hnext, hstands', hahead⟩
    · rw [← Prod.mk.eta (p := hostlistNext inputted iter), hnext] at hrun
      obtain ⟨rfl, rfl⟩ := Prod.mk.inj (Except.ok.inj hrun)
      rw [hahead]
      exact ⟨rfl, hqueried, rfl, fun node hnode ↦ absurd hnode List.not_mem_nil⟩
    · rw [hnext] at hrun
      simp only at hrun
      cases hquery : isNode up (some node) w with
      | error fault =>
        rw [hquery] at hrun
        exact absurd hrun (by simp)
      | ok answer =>
        obtain ⟨_ | rv, w1⟩ := answer
        · rw [hquery] at hrun
          exact absurd hrun (by simp)
        · rw [hquery] at hrun
          obtain ⟨hqueried1, hlib1, hknown, hstatus⟩ := isNode_status hqueried hquery
          obtain ⟨rfl, hqueried', hlib', hknowns⟩ := ih hstands' hqueried1 hrun
          have hsame : ∀ node, w1.status c names up node = w.status c names up node := fun node ↦ by
            rw [World.status, World.status, hlib1]
          have hknown1 : ∀ node, w1.Known c names node → w.Known c names node := fun node h ↦ by
            unfold World.Known World.LooksUp at h ⊢
            rwa [hlib1] at h
          refine ⟨?_, hqueried', hlib'.trans hlib1, ?_⟩
          · rw [hahead, List.filter_congr fun node _ ↦ hsame node, List.filter_cons]
            by_cases hrv : rv ≠ 0
            · rw [if_pos hrv, if_pos (hstatus.mp hrv), List.foldl_cons]
            · rw [if_neg hrv, if_neg fun h ↦ hrv (hstatus.mpr h)]
          · rw [hahead]
            exact List.forall_mem_cons.mpr ⟨hknown, fun node hnode ↦
              hknown1 node (hknowns node hnode)⟩

end

/-! ### The sort -/

/-- Pushing plain names is `hostlist_push_host` for each. -/
theorem pushAll_eq (nodes : List (List Char)) :
    ∀ hl, (∀ name ∈ nodes, PlainName name) →
      pushAll nodes hl = some (nodes.foldl hostlistPushHost hl) := by
  induction nodes with
  | nil => exact fun _ _ ↦ rfl
  | cons name nodes ih =>
    intro hl hplain
    obtain ⟨hname, hnodes⟩ := List.forall_mem_cons.mp hplain
    rw [pushAll, hostlistPush_hostRange hname]
    simp only
    rw [ih _ hnodes, List.foldl_cons, hostlistPushHost_eq]

/-- Another name for a failure leaves what succeeds. -/
theorem mapError_eq_ok {ε ε' α : Type} {f : ε → ε'} {outcome : Except ε α} {value : α} :
    outcome.mapError f = .ok value ↔ outcome = .ok value := by
  cases outcome <;> simp [Except.mapError]

/-- A sort in `whatsup` that ends well. -/
theorem sortNodesOf_eq_ok {sorting : Sorting} {hl sorted : Hostlist} :
    sortNodesOf sorting hl = .ok sorted ↔
      hostlistSort sorting.ndebug sorting.qsort sorting.rounds hl = some (.ok sorted) := by
  unfold sortNodesOf
  split
  · rename_i hsort
    simp [hsort]
  · rename_i hsort
    simp [hsort]
  · rename_i hsort
    simp [hsort]

/-- A call of `_get_input_nodes` that ends well. -/
theorem getInputNodes_eq_ok {sorting : Sorting} {inputted : Hostlist} {up : Bool}
    {buf text : List Char} {w w' : World} :
    getInputNodes sorting inputted up buf w = .ok (text, w') ↔
      ∃ hl sorted len, inputLoop up inputted (inputted.hosts.length + 1) hostlistIteratorCreate
        hostlistNew w = .ok (hl, w') ∧
        hostlistSort sorting.ndebug sorting.qsort sorting.rounds hl = some (.ok sorted) ∧
        hostlistRangedString sorted whatsupBufferlen buf = some (len, text) ∧ 0 ≤ len := by
  constructor
  · intro hrun
    obtain ⟨⟨hl, w1⟩, hloop, hrun⟩ := bind_eq_ok.mp hrun
    obtain ⟨sorted, hsort, hrun⟩ := bind_eq_ok.mp hrun
    cases hprint : hostlistRangedString sorted whatsupBufferlen buf with
    | none =>
      rw [hprint] at hrun
      exact absurd hrun (by simp)
    | some printed =>
      rw [hprint] at hrun
      simp only at hrun
      split_ifs at hrun with hneg
      obtain ⟨rfl, rfl⟩ := Prod.mk.inj (Except.ok.inj hrun)
      exact ⟨hl, sorted, printed.1, hloop, sortNodesOf_eq_ok.mp hsort, hprint, not_lt.mp hneg⟩
  · rintro ⟨hl, sorted, len, hloop, hsort, hprint, hlen⟩
    refine bind_eq_ok.mpr ⟨_, hloop, bind_eq_ok.mpr ⟨sorted, sortNodesOf_eq_ok.mpr hsort, ?_⟩⟩
    rw [hprint]
    exact if_neg (not_lt.mpr hlen)

/-- A call of `_get_nodes` with given nodes that ends well. -/
theorem getNodesOf_eq_ok {sorting : Sorting} {inputted : Hostlist}
    (hcounted : 0 < hostlistCount inputted) {up : Bool}
    {count : ℤ} {buf text : List Char} {w w' : World} :
    getNodesOf sorting inputted up buf w = .ok (count, text, w') ↔
      getInputNodes sorting inputted up buf w = .ok (text, w') ∧
        ∃ new, hostlistCreate (cString text) = .ok new ∧ count = hostlistCount new := by
  have hmapped : ∀ text new, (createNodes text).mapError InputExit.exit = .ok new ↔
      hostlistCreate text = .ok new :=
    fun text new ↦ mapError_eq_ok.trans createNodes_eq_ok
  constructor
  · intro hrun
    obtain ⟨⟨buf', w1⟩, hget, hrun⟩ := bind_eq_ok.mp hrun
    obtain ⟨new, hcreate, hdone⟩ := bind_eq_ok.mp hrun
    obtain ⟨rfl, hrest⟩ := Prod.mk.inj (Except.ok.inj hdone)
    obtain ⟨rfl, rfl⟩ := Prod.mk.inj hrest
    rw [getNodesText, if_pos hcounted] at hget
    exact ⟨hget, new, (hmapped _ _).mp hcreate, rfl⟩
  · rintro ⟨hget, new, hcreate, rfl⟩
    refine bind_eq_ok.mpr ⟨(text, w'), ?_, bind_eq_ok.mpr ⟨new, (hmapped _ _).mpr hcreate, rfl⟩⟩
    rw [getNodesText, if_pos hcounted]
    exact hget

/-- The text of a list fits into the buffer of `whatsup`, and `hostlist_create` accepts it. -/
def Hostlist.TextAccepted (hl : Hostlist) : Prop :=
  (rangedText hl.ranges).length < whatsupBufferlen ∧ hl.Rereadable

/-- A list of given nodes as a command line without mistakes makes it: valid ranges, and plain names
without NUL, each once. -/
structure Hostlist.Given (inputted : Hostlist) : Prop where
  valid : ∀ hr ∈ inputted.ranges, hr.Valid
  plain : ∀ node ∈ inputted.cutHosts, PlainName node
  nul_free : ∀ node ∈ inputted.cutHosts, '\x00' ∉ node
  nodup : inputted.cutHosts.Nodup
  counted : 0 < hostlistCount inputted

/-- The given nodes with a status. -/
def World.given (c : Cluster) (names : Bool → List (List Char)) (w : World) (inputted : Hostlist)
    (up : Bool) : List (List Char) :=
  inputted.cutHosts.filter (w.status c names up)

/-- What the sort of the given nodes with a status leaves. -/
def World.SortedGiven (c : Cluster) (names : Bool → List (List Char)) (w : World)
    (inputted : Hostlist) (up : Bool)
    (sorting : Sorting) (sorted : Hostlist) : Prop :=
  hostlistSort sorting.ndebug sorting.qsort sorting.rounds
    ((w.given c names inputted up).foldl hostlistPushHost hostlistNew) =
    some (.ok sorted)

section

variable {c : Cluster} {names : Bool → List (List Char)} {w : World} {inputted : Hostlist}
    (hgiven : inputted.Given)
  {sorting : Sorting} (hqsort : IsSort hostrangeCmp sorting.qsort) {up : Bool}

include hgiven

/-- What is sorted is a filled list of the given nodes with the status. -/
theorem World.SortedGiven.spec {sorted : Hostlist} (hqsort : IsSort hostrangeCmp sorting.qsort)
    (h : w.SortedGiven c names inputted up sorting sorted) :
    sorted.Filled ∧ sorted.hosts.Perm (w.given c names inputted up) ∧ ∀ name ∈ sorted.hosts,
      '\x00' ∉ name := by
  have hplain : ∀ node ∈ w.given c names inputted up, PlainName node := fun node hmem ↦
    hgiven.plain node (List.mem_filter.mp hmem).1
  have hpush := pushAll_eq _ hostlistNew hplain
  have hfilled := filled_pushAll _ _ _ .new hplain hpush
  obtain ⟨pushed, hpushed, hhosts, -⟩ := pushAll_spec _ hostlistNew hostlistNew_canonical hplain
  obtain rfl := Option.some.inj (hpush.symm.trans hpushed)
  rw [hosts_hostlistNew, List.nil_append] at hhosts
  have hperm := (hostlistSort_ok hqsort hfilled.canonical h).2
  rw [hhosts] at hperm
  exact ⟨hfilled.sort hqsort h, hperm, fun name hmem ↦
    hgiven.nul_free name (List.mem_filter.mp (hperm.mem_iff.mp hmem)).1⟩

/-- Assumes: a handle that can be queried. A call of `_get_nodes` that ends well has asked about
known nodes. Its text is accepted, and denotes those with the status, which it has counted. -/
theorem getNodesOf_spec (hqsort : IsSort hostrangeCmp sorting.qsort)
    (hqueried : w.Queried c names) {count : ℤ}
    {text : List Char} {w' : World} (hrun : getNodesOf sorting inputted up clearedBuffer w =
      .ok (count, text, w')) :
    w'.Queried c names ∧ w'.lib = w.lib ∧ (∀ node ∈ inputted.cutHosts, w.Known c names node) ∧
      ∃ sorted new, w.SortedGiven c names inputted up sorting sorted ∧ sorted.TextAccepted ∧
        cString text = rangedText sorted.ranges ∧ hostlistCreate (cString text) = .ok new ∧
        new.hosts.Perm (w.given c names inputted up) ∧ count = new.hosts.length := by
  obtain ⟨hget, new, hcreate, rfl⟩ := (getNodesOf_eq_ok hgiven.counted).mp hrun
  obtain ⟨hl, sorted, len, hloop, hsort, hprint, hlen⟩ := getInputNodes_eq_ok.mp hget
  obtain ⟨hstands, hahead⟩ := hostlistIteratorCreate_spec inputted
  obtain ⟨rfl, hqueried', hlib, hknown⟩ := inputLoop_ok hgiven.valid _ hstands hqueried hloop
  rw [hahead] at hsort hknown
  have hsorted : w.SortedGiven c names inputted up sorting sorted := hsort
  obtain ⟨hfilled, hperm, hnul⟩ := hsorted.spec hgiven hqsort
  have htext := cString_printed hfilled hnul hprint hlen
  obtain ⟨-, hfits, -⟩ :=
    hostlistRangedString_printed (fun hr hmem ↦ hfilled.printable.name_ne_nil hmem) hprint hlen
  have hread := readBack_of_accepted hfilled hfits (createNodes_eq_ok.mpr (htext ▸ hcreate))
  refine ⟨hqueried', hlib, hknown, sorted, new, hsorted,
    ⟨hfits, (hostlistCreate_rangedText_iff hfilled.printable).mp ⟨new, htext ▸ hcreate⟩⟩, htext,
      hcreate, ?_, ?_⟩
  · rw [hread.hosts_eq]
    exact hperm
  · rw [hostlistCount, hread.canonical.nhosts_eq]
    exact toInt_eq_self (by omega) (by exact_mod_cast hread.small)

end

/-! ### Both texts -/

section

variable {c : Cluster} {names names' : Bool → List (List Char)}
    (hsame : ∀ up name, name ∈ names up ↔ name ∈ names' up)
  {w : World}

include hsame

/-- The status of a node depends on which names the lists have, not on their order. -/
theorem World.status_congr (up : Bool) (node : List Char) : w.status c names up node =
    w.status c names' up node := by
  unfold World.status
  simp only [hsame]

end

section

variable {c : Cluster} {names : Bool → List (List Char)} {w : World} {inputted : Hostlist}
    (hgiven : inputted.Given)
  {sorting : Sorting} (hqsort : IsSort hostrangeCmp sorting.qsort) (hqueried : w.Queried c names)

include hgiven hqsort hqueried

end

/-- A load that succeeds in a world without reports, with a clusterlist module of the sources: plain
names are added, each once, the hosts of the file are plain unless they are empty, and there are
less than `2 ^ 31` calls and hosts. -/
structure CleanLoad (c : Cluster) (env : LoadEnv) (args : LoadArgs) (w w' : World) : Prop where
  qsort : IsSort hostrangeCmp env.qsort
  start : w.reports = []
  load : loadData env args w = .ok (0, w')
  cluster : w'.lib.cluster = some c
  plain : ∀ up, ∀ name ∈ c.entries up w'.reports, PlainName name
  hosts : ∀ host ∈ c.hosts, host ≠ [] → PlainName host
  small : w'.reports.length + c.hosts.length < 2 ^ 31
  once : (c.entries true w'.reports ++ c.entries false w'.reports).Nodup

/-- What a clean load leaves can be queried, and its lists share no name. -/
theorem CleanLoad.queried {c : Cluster} {env : LoadEnv} {args : LoadArgs} {w w' : World}
    (h : CleanLoad c env args w w') :
    ∃ names, w'.Queried c names ∧ (∀ up, (names up).Perm (c.names up w'.reports)) ∧
      ∀ name ∈ names true, name ∉ names false := by
  obtain ⟨names, hqueried, hperm⟩ :=
    (loadData_lists h.qsort h.start h.cluster h.plain h.hosts h.small h.load).queried h.small
  refine ⟨names, hqueried, hperm, fun name hup hdown ↦ ?_⟩
  exact (List.nodup_append.mp (Cluster.nodup_names h.once)).2.2 name
    ((hperm true).mem_iff.mp hup) name
    ((hperm false).mem_iff.mp hdown) rfl

end Whatsup
