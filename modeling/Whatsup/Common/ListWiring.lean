import Mathlib.Data.List.InsertIdx
import Mathlib.Data.List.Range
import Whatsup.CLib.Cursor
import Whatsup.Common.List

/-!
# Where the pointers of a linked list lead

`Wired l cells target` says that the memory of a list holds the given cells, and that the pointer in
front of the `m`-th of them leads to `target m`. A store to a pointer changes one value of `target`
(`Wired.assign`), and the order of the cells is read off the targets in the end (`Wired.relabel`),
so that an insertion, a removal and a move of a node are each a few changes of `target`. `Stored` is
what holds of a list between the calls: the pointers lead from each cell to the next, and every cell
handed out is either one of the list or free.

`stored_listNodeAlloc` is how a cell is handed out, and `updateIterators_ok` how the iterators
follow when a node comes or goes.
-/

set_option autoImplicit false
set_option relaxedAutoImplicit false

namespace Whatsup

open CLib

variable {α : Type}

/-! ### Positions and addresses -/

/-- The address of a cell, or the null pointer at the end. -/
def cellAddr (cells : List (ℕ × α)) (m : ℕ) : Option ℕ :=
  cells[m]?.map Prod.fst

/-- The address of the pointer in front of a cell. -/
def cellLink (cells : List (ℕ × α)) : ℕ → NextPtr
  | 0 => .head
  | m + 1 =>
    match cells[m]? with
    | none => .head
    | some cell => .next cell.1

/-- The iterator that a cursor on the cells is. -/
def iteratorAt (cells : List (ℕ × α)) (c : Cursor) : ListIterator :=
  ⟨cellAddr cells c.pos, cellLink cells c.link⟩

theorem cellLink_succ {cells : List (ℕ × α)} {m : ℕ} {cell : ℕ × α} (h : cells[m]? = some cell) :
    cellLink cells (m + 1) = .next cell.1 := by
  rw [cellLink, h]

theorem cellAddr_eq_some {cells : List (ℕ × α)} {m p : ℕ} (h : cellAddr cells m = some p) :
    ∃ x, cells[m]? = some (p, x) := by
  obtain ⟨cell, hcell, rfl⟩ := Option.map_eq_some_iff.mp h
  exact ⟨cell.2, hcell⟩

theorem cellAddr_eq_none {cells : List (ℕ × α)} {m : ℕ} : cellAddr cells m = none ↔
    cells.length ≤ m := by
  rw [cellAddr, Option.map_eq_none_iff, List.getElem?_eq_none_iff]

/-- Assumes: different addresses. Two positions hold one cell only if they are one. -/
theorem index_unique {cells : List (ℕ × α)} (hnodup : (cells.map Prod.fst).Nodup) {i j : ℕ}
    {cell other : ℕ × α}
    (hi : cells[i]? = some cell) (hj : cells[j]? = some other)
    (hsame : cell.1 = other.1) : i = j := by
  have hlt := (List.getElem?_eq_some_iff.mp hi).1
  refine (List.getElem?_inj (by simpa using hlt) hnodup).mp ?_
  rw [List.getElem?_map, List.getElem?_map, hi, hj, Option.map_some, Option.map_some, hsame]

/-- Assumes: different addresses and positions within the cells. Their addresses are the same only
if the positions are. -/
theorem cellAddr_inj {cells : List (ℕ × α)} (hnodup : (cells.map Prod.fst).Nodup) {i j : ℕ}
    (hi : i ≤ cells.length)
    (hj : j ≤ cells.length) : cellAddr cells i = cellAddr cells j ↔ i = j := by
  refine ⟨fun h ↦ ?_, fun h ↦ by rw [h]⟩
  cases hcell : cellAddr cells i with
  | none =>
    have hend := cellAddr_eq_none.mp hcell
    have hend' := cellAddr_eq_none.mp (h.symm.trans hcell)
    omega
  | some p =>
    obtain ⟨x, hx⟩ := cellAddr_eq_some hcell
    obtain ⟨y, hy⟩ := cellAddr_eq_some (h.symm.trans hcell)
    exact index_unique hnodup hx hy rfl

/-- Assumes: different addresses and positions within the cells. The pointers in front of them are
the same only if the positions are. -/
theorem cellLink_inj {cells : List (ℕ × α)} (hnodup : (cells.map Prod.fst).Nodup) {i j : ℕ}
    (hi : i ≤ cells.length)
    (hj : j ≤ cells.length) : cellLink cells i = cellLink cells j ↔ i = j := by
  refine ⟨fun h ↦ ?_, fun h ↦ by rw [h]⟩
  have hcell : ∀ m, m + 1 ≤ cells.length → ∃ cell, cells[m]? = some cell := fun m hm ↦
    ⟨cells[m], List.getElem?_eq_getElem (by omega)⟩
  cases i with
  | zero =>
    cases j with
    | zero => rfl
    | succ j =>
      obtain ⟨cell, hat⟩ := hcell j hj
      rw [cellLink_succ hat] at h
      cases h
  | succ i =>
    obtain ⟨cell, hat⟩ := hcell i hi
    rw [cellLink_succ hat] at h
    cases j with
    | zero => cases h
    | succ j =>
      obtain ⟨other, hat'⟩ := hcell j hj
      rw [cellLink_succ hat'] at h
      rw [index_unique hnodup hat hat' (NextPtr.next.inj h)]

section Insert

variable {cells : List (ℕ × α)} {m : ℕ} (hm : m ≤ cells.length) (cell : ℕ × α) (j : ℕ)

include hm

theorem cellAddr_insertIdx : cellAddr (cells.insertIdx m cell) j =
    if j < m then cellAddr cells j else if j = m then some cell.1 else cellAddr cells (j - 1) := by
  unfold cellAddr
  rw [List.getElem?_insertIdx]
  split_ifs <;> first | rfl | omega

theorem cellLink_insertIdx : cellLink (cells.insertIdx m cell) j =
    if j ≤ m then cellLink cells j else if j = m + 1 then .next cell.1 else cellLink cells
      (j - 1) := by
  cases j with
  | zero => rw [if_pos (Nat.zero_le m)]; rfl
  | succ j =>
    rw [cellLink, List.getElem?_insertIdx]
    split_ifs with h1 h2 h3 h4 h5 h6 h7 <;> first | rfl | omega | skip
    obtain ⟨k, rfl⟩ : ∃ k, j = k + 1 := ⟨j - 1, by omega⟩
    rfl

end Insert

theorem cellAddr_eraseIdx (cells : List (ℕ × α)) (m j : ℕ) :
    cellAddr (cells.eraseIdx m) j = if j < m then cellAddr cells j else cellAddr cells (j + 1) := by
  unfold cellAddr
  rw [List.getElem?_eraseIdx]
  split_ifs <;> rfl

theorem cellLink_eraseIdx (cells : List (ℕ × α)) (m j : ℕ) :
    cellLink (cells.eraseIdx m) j = if j ≤ m then cellLink cells j else cellLink cells (j + 1) := by
  cases j with
  | zero => rw [if_pos (Nat.zero_le m)]; rfl
  | succ j =>
    rw [cellLink, List.getElem?_eraseIdx]
    split_ifs <;> first | rfl | omega

/-! ### Reading and storing pointers -/

/-- The memory of a list holds the cells, and the pointer in front of the `m`-th leads to
`target m`. -/
structure Wired (l : LinkedList α) (cells : List (ℕ × α)) (target : ℕ → Option ℕ) : Prop where
  nodup : (cells.map Prod.fst).Nodup
  head : l.head = target 0
  nodes : ∀ m cell, cells[m]? = some cell → l.nodes cell.1 = some ⟨cell.2, target (m + 1)⟩

/-- The pointers lead from each cell to the next. -/
def Linked (l : LinkedList α) (cells : List (ℕ × α)) : Prop :=
  Wired l cells (cellAddr cells)

/-- A node of the list as it is read. -/
theorem Wired.node {l : LinkedList α} {cells : List (ℕ × α)} {target : ℕ → Option ℕ}
    (h : Wired l cells target) {m : ℕ}
    {cell : ℕ × α} (hcell : cells[m]? = some cell) : l.node (some cell.1) =
      .ok ⟨cell.2, target (m + 1)⟩ := by
  unfold LinkedList.node
  rw [Option.bind_some, h.nodes m cell hcell]

/-- Assumes: a position within the cells. The pointer in front of it leads to its target. -/
theorem Wired.deref {l : LinkedList α} {cells : List (ℕ × α)} {target : ℕ → Option ℕ}
    (h : Wired l cells target) {m : ℕ}
    (hm : m ≤ cells.length) : l.deref (cellLink cells m) = .ok (target m) := by
  cases m with
  | zero => exact congrArg Except.ok h.head
  | succ m =>
    have hcell : cells[m]? = some cells[m] := List.getElem?_eq_getElem hm
    rw [cellLink_succ hcell, LinkedList.deref, h.node hcell]
    rfl

/-- Assumes: a position within the cells. A store to the pointer in front of it changes its target,
and nothing but the pointer to the first node and the nodes. -/
theorem Wired.assign {l : LinkedList α} {cells : List (ℕ × α)} {target : ℕ → Option ℕ}
    (h : Wired l cells target) {m : ℕ}
    (hm : m ≤ cells.length) (value : Option ℕ) :
    ∃ head nodes, l.assign (cellLink cells m) value = .ok { l with head := head, nodes := nodes } ∧
      Wired { l with head := head, nodes := nodes } cells (Function.update target m value) ∧
      ∀ p, p ∉ cells.map Prod.fst → nodes p = l.nodes p := by
  cases m with
  | zero =>
    refine ⟨value, l.nodes, rfl, ⟨h.nodup, (Function.update_self 0 value target).symm,
      fun m cell hcell ↦ ?_⟩, fun _ _ ↦ rfl⟩
    rw [Function.update_of_ne (Nat.succ_ne_zero m)]
    exact h.nodes m cell hcell
  | succ m =>
    have hcell : cells[m]? = some cells[m] := List.getElem?_eq_getElem hm
    refine ⟨l.head, Function.update l.nodes cells[m].1 (some ⟨cells[m].2, value⟩), ?_,
      ⟨h.nodup, ?_, fun i cell hi ↦ ?_⟩,
      fun p hp ↦ Function.update_of_ne (fun heq ↦ hp ?_) _ _⟩
    · rw [cellLink_succ hcell, LinkedList.assign, h.node hcell]
      rfl
    · rw [Function.update_of_ne (Nat.succ_ne_zero m).symm]
      exact h.head
    · change Function.update l.nodes cells[m].1 _ cell.1 = _
      by_cases hsame : i = m
      · subst hsame
        obtain rfl := Option.some.inj (hcell.symm.trans hi)
        rw [Function.update_self, Function.update_self]
      · rw [Function.update_of_ne fun heq ↦ hsame (index_unique h.nodup hi hcell heq),
          Function.update_of_ne fun heq ↦ hsame (Nat.succ.inj heq)]
        exact h.nodes i cell hi
    · rw [heq]
      exact List.mem_map_of_mem (List.mem_of_getElem? hcell)

/-- Assumes: cells in another order, or some of them, such that the targets lead from each to the
next. The pointers of the list lead from each of these cells to the next. -/
theorem Wired.relabel {l : LinkedList α} {cells cells' : List (ℕ × α)} {target : ℕ → Option ℕ}
    (h : Wired l cells target)
    (hnodup : (cells'.map Prod.fst).Nodup) (hhead : target 0 = cellAddr cells' 0)
    (hnext : ∀ m cell, cells'[m]? = some cell → ∃ i, cells[i]? = some cell ∧
      target (i + 1) = cellAddr cells' (m + 1)) :
    Linked l cells' := by
  refine ⟨hnodup, h.head.trans hhead, fun m cell hcell ↦ ?_⟩
  obtain ⟨i, hi, htarget⟩ := hnext m cell hcell
  rw [h.nodes i cell hi, htarget]

/-- A list whose pointer to the first node and whose nodes are the same is wired alike. -/
theorem Wired.congr {l l' : LinkedList α} {cells : List (ℕ × α)} {target : ℕ → Option ℕ}
    (h : Wired l cells target)
    (hhead : l'.head = l.head) (hnodes : l'.nodes = l.nodes) : Wired l' cells target :=
  ⟨h.nodup, hhead.trans h.head, fun m cell hcell ↦ by rw [hnodes]; exact h.nodes m cell hcell⟩

/-! ### A list between the calls -/

/-- What holds of a list between the calls: the pointers lead from each cell to the next and at last
to the end, the count is that of the cells, and every cell handed out is one of the list or free. -/
structure Stored (l : LinkedList α) (cells : List (ℕ × α)) : Prop where
  linked : Linked l cells
  tail : l.tail = cellLink cells cells.length
  count : l.count = toInt cells.length
  memory : (cells.map Prod.fst ++ l.freeNodes).Perm (List.range l.brk)
  unused : ∀ p, p ∉ cells.map Prod.fst → l.nodes p = none

/-- A new list has no cells. -/
theorem stored_listCreate (fDel : Bool) : Stored (listCreate fDel : LinkedList α) [] :=
  ⟨⟨List.nodup_nil, rfl, fun m cell h ↦ by simp at h⟩, rfl, toInt_zero.symm, List.Perm.refl _,
    fun _ _ ↦ rfl⟩

/-- The loops over the cells have a round for each of them, and one more. -/
theorem Stored.length_lt_rounds {l : LinkedList α} {cells : List (ℕ × α)} (h : Stored l cells) :
    cells.length < l.rounds := by
  have hlength := h.memory.length_eq
  rw [List.length_append, List.length_map, List.length_range] at hlength
  unfold LinkedList.rounds
  omega

/-- Assumes: a list between the calls. A cell is handed out if one is free or memory is given, and
only then; it is none of the list. -/
theorem stored_listNodeAlloc {l : LinkedList α} {cells : List (ℕ × α)} (h : Stored l cells)
    (memory : Bool) :
    l.freeNodes = [] ∧ memory = false ∧ listNodeAlloc memory l = (none, l) ∨
      ∃ p freeNodes brk, (l.freeNodes ≠ [] ∨ memory = true) ∧
        listNodeAlloc memory l = (some p, { l with freeNodes := freeNodes, brk := brk }) ∧
        (p :: (cells.map Prod.fst ++ freeNodes)).Perm (List.range brk) ∧
        freeNodes.length = (if l.freeNodes = [] then listAlloc else l.freeNodes.length) - 1 := by
  have hmemory := h.memory
  cases hfree : l.freeNodes with
  | nil =>
    rw [hfree, List.append_nil] at hmemory
    cases memory with
    | false => exact Or.inl ⟨rfl, rfl, by simp [listNodeAlloc, hfree]⟩
    | true =>
      refine Or.inr ⟨l.brk, List.range' (l.brk + 1) (listAlloc - 1), l.brk + listAlloc,
        Or.inr rfl, ?_, ?_, ?_⟩
      · simp only [listNodeAlloc, hfree, and_self, if_true]
        rfl
      · -- the chunk follows what was handed out before
        have hrange : List.range (l.brk + listAlloc) =
            List.range l.brk ++ l.brk :: List.range' (l.brk + 1) (listAlloc - 1) := by
          rw [List.range_eq_range', List.range_eq_range', ← List.range'_append_1, Nat.zero_add]
          rfl
        rw [hrange]
        exact (hmemory.append_right _).cons _ |>.trans List.perm_middle.symm
      · rw [List.length_range', if_pos rfl]
  | cons p rest =>
    refine Or.inr ⟨p, rest, l.brk, Or.inl (List.cons_ne_nil p rest), ?_, ?_, ?_⟩
    · simp [listNodeAlloc, hfree]
    · rw [hfree] at hmemory
      exact List.perm_middle.symm.trans hmemory
    · rw [if_neg (List.cons_ne_nil p rest), List.length_cons, Nat.add_sub_cancel]

/-- Assumes: iterators that are cursors, each of which is set to another cursor on cells that are
linked. The iterators are set to these, and no assertion fails. -/
theorem updateIterators_ok {l : LinkedList α} {cells' : List (ℕ × α)} (hlinked : Linked l cells')
    (set : ListIterator → ListIterator) (old : Cursor → ListIterator) (move : Cursor → Cursor) :
    ∀ cursors : List (ℕ × Cursor), l.iterators = cursors.map (fun e ↦ (e.1, old e.2)) →
      (∀ e ∈ cursors, (move e.2).Within cells'.length ∧
        set (old e.2) = iteratorAt cells' (move e.2)) →
      updateIterators set l = .ok { l with iterators := cursors.map fun e ↦
        (e.1, iteratorAt cells' (move e.2)) } := by
  have hcheck : ∀ c : Cursor, c.Within cells'.length → checkIterator l (iteratorAt cells' c) =
      .ok () := by
    intro c hwithin
    have hle := hwithin.pos_le
    have hlink := Cursor.link_cases hwithin
    unfold checkIterator iteratorAt
    rw [hlinked.deref (by omega)]
    simp only [bind, Except.bind, pure, Except.pure]
    split_ifs with hsame
    · rfl
    · -- the cursor holds the item before its next one
      have hheld : c.link + 1 = c.pos := by
        rcases hlink with ⟨-, hat⟩ | ⟨-, hbehind⟩
        · exact absurd (by rw [hat]) hsame
        · exact hbehind
      have hcell : cells'[c.link]? = some cells'[c.link] := List.getElem?_eq_getElem (by omega)
      rw [cellAddr, hcell, Option.map_some, hlinked.node hcell, hheld]
      simp
  intro cursors hiterators hset
  unfold updateIterators
  suffices hmap : (l.iterators.mapM fun e ↦ do
      checkIterator l (set e.2)
      return (e.1, set e.2)) =
          Except.ok (cursors.map fun e ↦ (e.1, iteratorAt cells' (move e.2))) by
    rw [hmap]
    rfl
  rw [hiterators]
  clear hiterators
  induction cursors with
  | nil => rfl
  | cons e rest ih =>
    obtain ⟨⟨hwithin, heq⟩, hrest⟩ := List.forall_mem_cons.mp hset
    rw [List.map_cons, List.mapM_cons, ih hrest]
    simp only [heq, hcheck _ hwithin]
    rfl

end Whatsup
