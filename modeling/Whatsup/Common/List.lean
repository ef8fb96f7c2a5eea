import Mathlib.Logic.Function.Basic
import Whatsup.CLib.MachineInt

/-!
# Linked lists with iterators

The lists of `src/libcommon/list.c`: nodes that point to the next one, the address of the last
`next` pointer, a count, and a chain of iterators that are kept up to date when others insert and
remove. Nodes are taken from a list of free cells, which grows by chunks; a cell that is given back
is handed out again.

A step fails (`ListFault`) if a null pointer or a cell that is not in use is read or written, if an
assertion of the source does not hold, if a loop does not end, or if an iterator is used that is not
one of the list. `listRun` is a run of calls.
-/

set_option autoImplicit false
set_option relaxedAutoImplicit false

namespace Whatsup

open CLib

/-! ### Data -/

/-- `LIST_ALLOC`: the number of cells in a chunk. -/
def listAlloc : ℕ := 32

/-- `struct listNode`. -/
structure ListNode (α : Type) where
  data : α
  next : Option ℕ

/-- The address of a `next` pointer, or of the pointer to the first node. -/
inductive NextPtr
  | head
  | next (p : ℕ)
deriving DecidableEq

/-- `struct listIterator`: the next node, and the address of the pointer to the node given last. -/
structure ListIterator where
  pos : Option ℕ
  prev : NextPtr
deriving DecidableEq

/-- `struct list` with the memory of its nodes: the cells in use, the list of free cells, and the
address from which on memory has not been handed out. Iterators are named by their addresses; `fDel`
says whether there is a deletion function. -/
structure LinkedList (α : Type) where
  head : Option ℕ
  tail : NextPtr
  iterators : List (ℕ × ListIterator)
  fDel : Bool
  count : ℤ
  nodes : ℕ → Option (ListNode α)
  freeNodes : List ℕ
  brk : ℕ

/-- What a step can do wrong. -/
inductive ListFault
  | dangling
  | assertion
  | endless
  | stranger
deriving DecidableEq

variable {α : Type}

/-! ### Memory -/

/-- `*p` of a node pointer. -/
def LinkedList.node (l : LinkedList α) (p : Option ℕ) : Except ListFault (ListNode α) :=
  match p.bind l.nodes with
  | none => .error .dangling
  | some node => .ok node

/-- `*pp`. -/
def LinkedList.deref (l : LinkedList α) (pp : NextPtr) : Except ListFault (Option ℕ) :=
  match pp with
  | .head => .ok l.head
  | .next p => do return (← l.node (some p)).next

/-- `*pp = value`. -/
def LinkedList.assign (l : LinkedList α) (pp : NextPtr) (value : Option ℕ) :
    Except ListFault (LinkedList α) :=
  match pp with
  | .head => .ok { l with head := value }
  | .next p => do
    let node ← l.node (some p)
    return { l with nodes := Function.update l.nodes p (some { node with next := value }) }

/-- `list_node_alloc`: a free cell; a new chunk is asked for if there is none, and `memory` says
whether it is given. -/
def listNodeAlloc (memory : Bool) (l : LinkedList α) : Option ℕ × LinkedList α :=
  let l :=
    if l.freeNodes = [] ∧ memory = true then
      { l with freeNodes := List.range' l.brk listAlloc, brk := l.brk + listAlloc }
    else l
  match l.freeNodes with
  | [] => (none, l)
  | p :: rest => (some p, { l with freeNodes := rest })

/-- `list_node_free`. -/
def listNodeFree (l : LinkedList α) (p : ℕ) : LinkedList α :=
  { l with nodes := Function.update l.nodes p none, freeNodes := p :: l.freeNodes }

/-- More rounds than any loop over the nodes takes: a round for every cell handed out, and one
more. -/
def LinkedList.rounds (l : LinkedList α) : ℕ :=
  l.brk + 1

/-! ### Nodes come and go -/

/-- `assert((i->pos == *i->prev) || (i->pos == (*i->prev)->next))`. -/
def checkIterator (l : LinkedList α) (i : ListIterator) : Except ListFault Unit := do
  let given ← l.deref i.prev
  if i.pos = given then return ()
  let node ← l.node given
  if i.pos = node.next then return ()
  throw .assertion

/-- Every iterator of the chain is set anew and checked. -/
def updateIterators (set : ListIterator → ListIterator) (l : LinkedList α) :
    Except ListFault (LinkedList α) := do
  let iterators ← l.iterators.mapM fun e ↦ do
    checkIterator l (set e.2)
    return (e.1, set e.2)
  return { l with iterators := iterators }

/-- `list_node_create`: a new node in front of the one that `*pp` points to. -/
def listNodeCreate (memory : Bool) (l : LinkedList α) (pp : NextPtr) (x : α) :
    Except ListFault (Option α × LinkedList α) :=
  match listNodeAlloc memory l with
  | (none, l) => .ok (none, l)
  | (some p, l) => do
    let next ← l.deref pp
    let l := { l with nodes := Function.update l.nodes p (some ⟨x, next⟩) }
    let l := if next = none then { l with tail := .next p } else l
    let l ← l.assign pp (some p)
    let l := { l with count := toInt (l.count + 1) }
    let l ← updateIterators (fun i ↦
      if i.prev = pp then { i with prev := .next p }
      else if i.pos = next then { i with pos := some p }
      else i) l
    return (some x, l)

/-- `list_node_destroy`: the node that `*pp` points to is taken out. -/
def listNodeDestroy (l : LinkedList α) (pp : NextPtr) :
    Except ListFault (Option α × LinkedList α) := do
  match ← l.deref pp with
  | none => return (none, l)
  | some p =>
    let node ← l.node (some p)
    let l ← l.assign pp node.next
    let l := if node.next = none then { l with tail := pp } else l
    let l := { l with count := toInt (l.count - 1) }
    let l ← updateIterators (fun i ↦
      if i.pos = some p then ⟨node.next, pp⟩
      else if i.prev = .next p then { i with prev := pp }
      else i) l
    return (some node.data, listNodeFree l p)

/-! ### Calls on a list -/

/-- `list_create`. -/
def listCreate (fDel : Bool) : LinkedList α :=
  { head := none, tail := .head, iterators := [], fDel := fDel, count := 0, nodes := fun _ ↦ none,
    freeNodes := [], brk := 0 }

/-- `list_append` and `list_enqueue`. -/
def listAppend (memory : Bool) (l : LinkedList α) (x : α) :
    Except ListFault (Option α × LinkedList α) :=
  listNodeCreate memory l l.tail x

/-- `list_prepend` and `list_push`. -/
def listPrepend (memory : Bool) (l : LinkedList α) (x : α) :
    Except ListFault (Option α × LinkedList α) :=
  listNodeCreate memory l .head x

/-- `list_pop` and `list_dequeue`. -/
def listPop (l : LinkedList α) : Except ListFault (Option α × LinkedList α) :=
  listNodeDestroy l .head

/-- `list_peek`. -/
def listPeek (l : LinkedList α) : Except ListFault (Option α) :=
  match l.head with
  | none => .ok none
  | some p => do return some (← l.node (some p)).data

/-- The loop of `list_find_first`, from a node on. -/
def findFirstFrom (f : α → Bool) (l : LinkedList α) : ℕ → Option ℕ → Except ListFault (Option α)
  | 0, _ => .error .endless
  | _ + 1, none => .ok none
  | rounds + 1, some p => do
    let node ← l.node (some p)
    if f node.data then return some node.data
    findFirstFrom f l rounds node.next

/-- `list_find_first`. -/
def listFindFirst (f : α → Bool) (l : LinkedList α) : Except ListFault (Option α) :=
  findFirstFrom f l l.rounds l.head

/-- The loop of `list_for_each`, from a node on, with the number of nodes passed. -/
def forEachFrom (f : α → ℤ) (l : LinkedList α) : ℕ → Option ℕ → ℤ → Except ListFault ℤ
  | 0, _, _ => .error .endless
  | _ + 1, none, n => .ok n
  | rounds + 1, some p, n => do
    let node ← l.node (some p)
    if f node.data < 0 then return toInt (-toInt (n + 1))
    forEachFrom f l rounds node.next (toInt (n + 1))

/-- `list_for_each`. -/
def listForEach (f : α → ℤ) (l : LinkedList α) : Except ListFault ℤ :=
  forEachFrom f l l.rounds l.head 0

/-- The loop of `list_delete_all`, with the data taken out: their number is the return value. -/
def deleteAllFrom (f : α → Bool) : ℕ → NextPtr → LinkedList α →
    Except ListFault (List α × LinkedList α)
  | 0, _, _ => .error .endless
  | rounds + 1, pp, l => do
    match ← l.deref pp with
    | none => return ([], l)
    | some p =>
      let node ← l.node (some p)
      if f node.data then
        match ← listNodeDestroy l pp with
        | (none, l) => deleteAllFrom f rounds pp l
        | (some v, l) =>
          let (gone, l) ← deleteAllFrom f rounds pp l
          return (v :: gone, l)
      else deleteAllFrom f rounds (.next p) l

/-- `list_delete_all`. -/
def listDeleteAll (f : α → Bool) (l : LinkedList α) : Except ListFault (List α × LinkedList α) :=
  deleteAllFrom f l.rounds .head l

/-- `while (f((*pp)->data, (*ppPos)->data) >= 0) ppPos = &(*ppPos)->next`, for the data of `*pp`. -/
def sortPlace (f : α → α → ℤ) (l : LinkedList α) (x : α) : ℕ → NextPtr → Except ListFault NextPtr
  | 0, _ => .error .endless
  | rounds + 1, ppPos => do
    match ← l.deref ppPos with
    | none => throw .dangling
    | some q =>
      let node ← l.node (some q)
      if 0 ≤ f x node.data then sortPlace f l x rounds (.next q) else return ppPos

/-- The loop of `list_sort`, with `ppPrev` and `pp`. -/
def sortFrom (f : α → α → ℤ) : ℕ → NextPtr → NextPtr → LinkedList α →
    Except ListFault (LinkedList α)
  | 0, _, _, _ => .error .endless
  | rounds + 1, ppPrev, pp, l => do
    match ← l.deref pp with
    | none => return { l with tail := pp }
    | some p =>
      let node ← l.node (some p)
      let prevAt ← l.deref ppPrev
      let prevNode ← l.node prevAt
      if f node.data prevNode.data < 0 then
        let ppPos ← sortPlace f l node.data l.rounds .head
        let posAt ← l.deref ppPos
        let l ← l.assign (.next p) posAt
        let l ← l.assign ppPos (some p)
        let l ← l.assign pp node.next
        if ppPrev = ppPos then sortFrom f rounds (.next p) pp l else sortFrom f rounds ppPrev pp l
      else sortFrom f rounds pp (.next p) l

/-- `list_sort`: every iterator is set back. -/
def listSort (f : α → α → ℤ) (l : LinkedList α) : Except ListFault (LinkedList α) :=
  if 1 < l.count then do
    match l.head with
    | none => throw .dangling
    | some p =>
      let l ← sortFrom f l.rounds .head (.next p) l
      return { l with iterators := l.iterators.map fun (id, _) ↦ (id, ⟨l.head, .head⟩) }
  else .ok l

/-- The loop of `list_destroy` over the nodes, with the data passed. -/
def destroyFrom (l : LinkedList α) : ℕ → Option ℕ → Except ListFault (List α × LinkedList α)
  | 0, _ => .error .endless
  | _ + 1, none => .ok ([], l)
  | rounds + 1, some p => do
    let node ← l.node (some p)
    let (data, l) ← destroyFrom (listNodeFree l p) rounds node.next
    return (node.data :: data, l)

/-- `list_destroy`: the data that are handed to the deletion function if there is one. -/
def listDestroy (l : LinkedList α) : Except ListFault (List α × LinkedList α) :=
  destroyFrom { l with iterators := [] } l.rounds l.head

/-! ### Calls on an iterator -/

/-- The iterator of an address. -/
def LinkedList.iterator (l : LinkedList α) (id : ℕ) : Except ListFault ListIterator :=
  match l.iterators.lookup id with
  | none => .error .stranger
  | some i => .ok i

/-- The list with a new value of one iterator. -/
def LinkedList.setIterator (l : LinkedList α) (id : ℕ) (i : ListIterator) : LinkedList α :=
  { l with iterators := l.iterators.map fun entry ↦ if entry.1 = id then (id, i) else entry }

/-- `list_iterator_create`, at an address that no iterator of the list has. -/
def listIteratorCreate (l : LinkedList α) (id : ℕ) : Except ListFault (LinkedList α) :=
  if (l.iterators.lookup id).isSome then .error .stranger
  else .ok { l with iterators := (id, ⟨l.head, .head⟩) :: l.iterators }

/-- `list_iterator_reset`. -/
def listIteratorReset (l : LinkedList α) (id : ℕ) : Except ListFault (LinkedList α) := do
  let _ ← l.iterator id
  return l.setIterator id ⟨l.head, .head⟩

/-- `list_iterator_destroy`. -/
def listIteratorDestroy (l : LinkedList α) (id : ℕ) : Except ListFault (LinkedList α) := do
  let _ ← l.iterator id
  return { l with iterators := l.iterators.filter fun entry ↦ entry.1 ≠ id }

/-- The first half of `list_next`, `if ((p = i->pos)) i->pos = p->next`: the data of the next node,
and the node behind it. -/
def LinkedList.passNode (l : LinkedList α) (i : ListIterator) :
    Except ListFault (Option α × Option ℕ) :=
  match i.pos with
  | none => .ok (none, none)
  | some p => do
    let node ← l.node (some p)
    return (some node.data, node.next)

/-- The second half of `list_next`, `if (*i->prev != p) i->prev = &(*i->prev)->next`. -/
def LinkedList.followLink (l : LinkedList α) (i : ListIterator) : Except ListFault NextPtr := do
  let given ← l.deref i.prev
  if given = i.pos then return i.prev
  match given with
  | none => throw .dangling
  | some q => return .next q

/-- `list_next`. -/
def listNext (l : LinkedList α) (id : ℕ) : Except ListFault (Option α × LinkedList α) := do
  let i ← l.iterator id
  let (data, pos) ← l.passNode i
  let prev ← l.followLink i
  return (data, l.setIterator id ⟨pos, prev⟩)

/-- `list_insert`. -/
def listInsert (memory : Bool) (l : LinkedList α) (id : ℕ) (x : α) :
    Except ListFault (Option α × LinkedList α) := do
  let i ← l.iterator id
  listNodeCreate memory l i.prev x

/-- The loop of `list_find`. -/
def listFindLoop (f : α → Bool) (id : ℕ) : ℕ → LinkedList α →
    Except ListFault (Option α × LinkedList α)
  | 0, _ => .error .endless
  | rounds + 1, l => do
    match ← listNext l id with
    | (none, l) => return (none, l)
    | (some v, l) => if f v then return (some v, l) else listFindLoop f id rounds l

/-- `list_find`. -/
def listFind (f : α → Bool) (l : LinkedList α) (id : ℕ) :
    Except ListFault (Option α × LinkedList α) :=
  listFindLoop f id l.rounds l

/-- `list_remove`. -/
def listRemove (l : LinkedList α) (id : ℕ) : Except ListFault (Option α × LinkedList α) := do
  let i ← l.iterator id
  let given ← l.deref i.prev
  if given ≠ i.pos then listNodeDestroy l i.prev else return (none, l)

/-! ### Runs -/

/-- A call on a list. A call that may need a new cell comes with whether memory is given for it. -/
inductive ListCall (α : Type)
  | append (memory : Bool) (x : α)
  | prepend (memory : Bool) (x : α)
  | pop
  | peek
  | isEmpty
  | count
  | findFirst (f : α → Bool)
  | deleteAll (f : α → Bool)
  | forEach (f : α → ℤ)
  | sort (f : α → α → ℤ)
  | iteratorCreate (id : ℕ)
  | iteratorReset (id : ℕ)
  | iteratorDestroy (id : ℕ)
  | next (id : ℕ)
  | insert (memory : Bool) (id : ℕ) (x : α)
  | find (f : α → Bool) (id : ℕ)
  | remove (id : ℕ)
  | delete (id : ℕ)

/-- What a call gives: a pointer to data, a number, and the data that the deletion function was
called with. -/
structure ListAnswer (α : Type) where
  data : Option α
  number : ℤ
  deleted : List α

/-- An answer that is a pointer to data. -/
def ListAnswer.ofData (data : Option α) : ListAnswer α :=
  ⟨data, 0, []⟩

/-- An answer that is a number. -/
def ListAnswer.ofNumber (number : ℤ) : ListAnswer α :=
  ⟨none, number, []⟩

/-- The answer of a call that takes data out and hands them to the deletion function if there is
one. -/
def ListAnswer.ofGone (fDel : Bool) (gone : List α) : ListAnswer α :=
  ⟨none, toInt gone.length, if fDel then gone else []⟩

/-- One call. -/
def listCall (l : LinkedList α) : ListCall α → Except ListFault (ListAnswer α × LinkedList α)
  | .append memory x => return Prod.map .ofData id (← listAppend memory l x)
  | .prepend memory x => return Prod.map .ofData id (← listPrepend memory l x)
  | .pop => return Prod.map .ofData id (← listPop l)
  | .peek => return (.ofData (← listPeek l), l)
  | .isEmpty => return (.ofNumber (if l.count = 0 then 1 else 0), l)
  | .count => return (.ofNumber l.count, l)
  | .findFirst f => return (.ofData (← listFindFirst f l), l)
  | .deleteAll f => return Prod.map (.ofGone l.fDel) id (← listDeleteAll f l)
  | .forEach f => return (.ofNumber (← listForEach f l), l)
  | .sort f => return (.ofNumber 0, ← listSort f l)
  | .iteratorCreate i => return (.ofNumber 0, ← listIteratorCreate l i)
  | .iteratorReset i => return (.ofNumber 0, ← listIteratorReset l i)
  | .iteratorDestroy i => return (.ofNumber 0, ← listIteratorDestroy l i)
  | .next i => return Prod.map .ofData id (← listNext l i)
  | .insert memory i x => return Prod.map .ofData id (← listInsert memory l i x)
  | .find f i => return Prod.map .ofData id (← listFind f l i)
  | .remove i => return Prod.map .ofData id (← listRemove l i)
  | .delete i => return Prod.map (fun data ↦ .ofGone l.fDel data.toList) id (← listRemove l i)

/-- A run of calls, with their answers. -/
def listRun (l : LinkedList α) : List (ListCall α) →
    Except ListFault (List (ListAnswer α) × LinkedList α)
  | [] => return ([], l)
  | call :: calls => do
    let (answer, l) ← listCall l call
    let (answers, l) ← listRun l calls
    return (answer :: answers, l)

end Whatsup
