import Mathlib.Data.List.Perm.Basic
import Whatsup.Common.ListItems
import Whatsup.Common.ListWiring

/-!
# Nodes of a linked list come and go

`Represents l cells s` connects a linked list with the abstract list: the cells hold the items, and
the iterators are the cursors. `listNodeCreate_represents` and `listNodeDestroy_represents` are the
two functions of `list.c` through which every insertion and removal goes: they do what the abstract
list says, to every iterator, and neither reads a cell that is not in use nor fails an assertion.
-/

set_option autoImplicit false
set_option relaxedAutoImplicit false

namespace Whatsup

open CLib

variable {α : Type}

/-- A linked list with its cells is the abstract list. -/
structure Represents (l : LinkedList α) (cells : List (ℕ × α)) (s : ItemList α) : Prop where
  stored : Stored l cells
  items : cells.map Prod.snd = s.items
  iterators : l.iterators = s.cursors.map fun e ↦ (e.1, iteratorAt cells e.2)
  within : ∀ e ∈ s.cursors, e.2.Within s.items.length
  fDel : l.fDel = s.fDel
  spare : l.freeNodes.length = s.spare

/-- A new list is the empty sequence. -/
theorem represents_listCreate (fDel : Bool) : Represents (listCreate fDel : LinkedList α) []
    (ItemList.empty fDel) :=
  ⟨stored_listCreate fDel, rfl, rfl, fun _ h ↦ absurd h List.not_mem_nil, rfl, rfl⟩

/-- There are as many cells as items. -/
theorem Represents.length_eq {l : LinkedList α} {cells : List (ℕ × α)} {s : ItemList α}
    (h : Represents l cells s) :
    cells.length = s.items.length := by
  rw [← h.items, List.length_map]

/-- The item in a cell. -/
theorem Represents.getElem? {l : LinkedList α} {cells : List (ℕ × α)} {s : ItemList α}
    (h : Represents l cells s) (m : ℕ) :
    s.items[m]? = cells[m]?.map Prod.snd := by
  rw [← h.items, List.getElem?_map]

/-- Assumes: a cell of the list. It is in use. -/
theorem mem_of_getElem? {cells : List (ℕ × α)} {m : ℕ} {cell : ℕ × α} (h : cells[m]? = some cell) :
    cell.1 ∈ cells.map Prod.fst :=
  List.mem_map_of_mem (List.mem_of_getElem? h)

/-! ### Insertion -/

/-- What the iterator of a cursor is set to when a cell is put in at a position. -/
theorem iteratorAt_inserted {cells : List (ℕ × α)} (hnodup : (cells.map Prod.fst).Nodup) {m : ℕ}
    (hm : m ≤ cells.length)
    (cell : ℕ × α) {c : Cursor} (hwithin : c.Within cells.length) :
    (if (iteratorAt cells c).prev =
      cellLink cells m then { iteratorAt cells c with prev := .next cell.1 }
      else if (iteratorAt cells c).pos =
        cellAddr cells m then { iteratorAt cells c with pos := some cell.1 }
      else iteratorAt cells c) = iteratorAt (cells.insertIdx m cell) (c.inserted m) := by
  have hle := hwithin.pos_le
  have hlink := Cursor.link_cases hwithin
  unfold iteratorAt
  simp only [cellLink_inj hnodup (show c.link ≤ cells.length by omega) hm,
    cellAddr_inj hnodup hle hm, cellAddr_insertIdx hm,
    cellLink_insertIdx hm]
  rw [Cursor.link_inserted hwithin]
  unfold Cursor.inserted
  rcases Nat.lt_trichotomy c.link m with hlt | rfl | hgt
  · rw [if_neg (show ¬ c.link = m by omega), if_neg (show ¬ m ≤ c.link by omega)]
    simp only [if_neg (show ¬ m ≤ c.link by omega), if_pos (show c.link ≤ m by omega)]
    split_ifs <;> first | rfl | omega
  · simp only [le_refl, if_true, if_neg (show ¬ c.link + 1 ≤ c.link by omega),
      if_neg (show ¬ c.pos + 1 < c.link by omega),
      if_neg (show ¬ c.pos + 1 = c.link by omega), Nat.add_sub_cancel]
  · rw [if_neg (show ¬ c.link = m by omega), if_neg (show ¬ c.pos = m by omega)]
    simp only [if_pos hgt.le, if_neg (show ¬ c.link + 1 ≤ m by omega),
      if_neg (show ¬ c.link + 1 = m + 1 by omega),
      if_neg (show ¬ c.pos + 1 < m by omega), if_neg (show ¬ c.pos + 1 = m by omega),
        Nat.add_sub_cancel]

/-- Assumes: a list whose pointers lead from each cell to the next, a new cell behind them whose
pointer leads to the cell at a position, and the pointer in front of that position leading to the
new cell. The pointers lead from each cell to the next, with the new cell at the position. -/
theorem Wired.insert {l : LinkedList α} {cells : List (ℕ × α)} {m : ℕ} {cell : ℕ × α}
    (hm : m ≤ cells.length)
    (h : Wired l (cells ++ [cell])
      (Function.update (Function.update (cellAddr cells) (cells.length + 1) (cellAddr cells m)) m
        (some cell.1))) :
    Linked l (cells.insertIdx m cell) := by
  refine h.relabel ?_ ?_ fun j other hother ↦ ?_
  · have hperm := (List.perm_insertIdx cell cells hm).map Prod.fst
    refine hperm.nodup_iff.mpr ?_
    have hnodup := h.nodup
    rw [List.map_append, List.map_singleton] at hnodup
    exact (List.perm_append_singleton cell.1 _).nodup_iff.mp hnodup
  · rw [cellAddr_insertIdx hm]
    by_cases hzero : m = 0
    · rw [hzero, Function.update_self, if_neg (lt_irrefl 0), if_pos rfl]
    · rw [Function.update_of_ne (Ne.symm hzero), Function.update_of_ne (by omega),
        if_pos (by omega)]
  · rw [List.getElem?_insertIdx] at hother
    rw [cellAddr_insertIdx hm]
    split_ifs at hother with hbefore hat hroom
    · -- a cell in front of the new one
      have hlt := (List.getElem?_eq_some_iff.mp hother).1
      refine ⟨j, by rw [List.getElem?_append_left hlt]; exact hother, ?_⟩
      by_cases hnext : j + 1 = m
      · rw [hnext, Function.update_self, if_neg (lt_irrefl m), if_pos rfl]
      · rw [Function.update_of_ne hnext, Function.update_of_ne (by omega), if_pos (by omega)]
    · -- the new cell
      refine ⟨cells.length, by rw [List.getElem?_concat_length]; exact hother, ?_⟩
      rw [Function.update_of_ne (by omega), Function.update_self, if_neg (by omega),
        if_neg (by omega), hat,
        Nat.add_sub_cancel]
    · -- a cell behind it
      have hlt := (List.getElem?_eq_some_iff.mp hother).1
      refine ⟨j - 1, by rw [List.getElem?_append_left hlt]; exact hother, ?_⟩
      rw [Function.update_of_ne (by omega), Function.update_of_ne (by omega), if_neg (by omega),
        if_neg (by omega)]
      congr 1
      omega

/-- Assumes: a list whose pointers lead from each cell to the next, and another address. A node that
is written there is a cell more. -/
theorem Linked.extend {l : LinkedList α} {cells : List (ℕ × α)} (h : Linked l cells) {p : ℕ}
    (hp : p ∉ cells.map Prod.fst) (x : α)
    (next : Option ℕ) :
    Wired { l with nodes := Function.update l.nodes p (some ⟨x, next⟩) } (cells ++ [(p, x)])
      (Function.update (cellAddr cells) (cells.length + 1) next) := by
  refine ⟨?_, ?_, fun j cell hat ↦ ?_⟩
  · rw [List.map_append, List.map_singleton]
    exact (List.perm_append_singleton p _).nodup_iff.mpr (List.nodup_cons.mpr ⟨hp, h.nodup⟩)
  · rw [Function.update_of_ne (Nat.succ_ne_zero _).symm]
    exact h.head
  · change Function.update l.nodes p _ cell.1 = _
    rcases Nat.lt_or_ge j cells.length with hlt | hge
    · rw [List.getElem?_append_left hlt] at hat
      rw [Function.update_of_ne fun heq : cell.1 = p ↦ hp (heq ▸ mem_of_getElem? hat),
        Function.update_of_ne (by omega)]
      exact h.nodes j cell hat
    · have hlt := (List.getElem?_eq_some_iff.mp hat).1
      rw [List.length_append, List.length_singleton] at hlt
      obtain rfl : j = cells.length := by omega
      rw [List.getElem?_concat_length] at hat
      obtain rfl := Option.some.inj hat
      rw [Function.update_self, Function.update_self]

/-- Assumes: a position of the list. `list_node_create` puts an item there if there is a cell for
it. -/
theorem listNodeCreate_represents {l : LinkedList α} {cells : List (ℕ × α)} {s : ItemList α}
    (h : Represents l cells s) {m : ℕ}
    (hm : m ≤ cells.length) (memory : Bool) (x : α) :
    ∃ l' cells', listNodeCreate memory l (cellLink cells m) x = .ok ((s.insertAt memory m x).1,
      l') ∧
      Represents l' cells' (s.insertAt memory m x).2 := by
  have hspare : s.spare = 0 ↔ l.freeNodes = [] := by
    rw [← h.spare, List.length_eq_zero_iff]
  rcases stored_listNodeAlloc h.stored memory with
    ⟨hfree, hmemory, halloc⟩ | ⟨p, freeNodes, brk, hcell, halloc, hperm, hlength⟩
  · refine ⟨l, cells, ?_, ?_⟩
    · unfold listNodeCreate ItemList.insertAt
      rw [halloc, if_pos ⟨hspare.mpr hfree, hmemory⟩]
    · rw [ItemList.insertAt, if_pos ⟨hspare.mpr hfree, hmemory⟩]
      exact h
  · have hroom : ¬ (s.spare = 0 ∧ memory = false) := by
      rw [hspare]
      rintro ⟨hfree, hmemory⟩
      rcases hcell with hcell | hcell
      · exact hcell hfree
      · exact Bool.false_ne_true (hmemory.symm.trans hcell)
    have hused : p ∉ cells.map Prod.fst := by
      have hnodup := hperm.nodup_iff.mpr List.nodup_range
      exact fun hmem ↦ (List.nodup_cons.mp hnodup).1 (List.mem_append_left _ hmem)
    -- the new node, and the pointer that leads to it
    have hlinked := h.stored.linked
    have hderef : LinkedList.deref { l with freeNodes := freeNodes, brk := brk }
        (cellLink cells m) = .ok (cellAddr cells m) :=
      Wired.deref (hlinked.congr rfl rfl) hm
    have hnew : ∀ tail, Wired { l with
          tail := tail, nodes := Function.update l.nodes p (some ⟨x, cellAddr cells m⟩),
            freeNodes := freeNodes, brk := brk }
        (cells ++ [(p, x)]) (Function.update (cellAddr cells) (cells.length + 1)
            (cellAddr cells m)) := fun tail ↦
      (hlinked.extend hused x (cellAddr cells m)).congr rfl rfl
    have hend : cellLink (cells ++ [(p, x)]) m = cellLink cells m := by
      cases m with
      | zero => rfl
      | succ m => rw [cellLink, cellLink, List.getElem?_append_left hm]
    -- the last pointer is that of the new node if it was put in at the end
    let tail : NextPtr := if cellAddr cells m = none then .next p else l.tail
    obtain ⟨head, nodes, hassign, hwired, hothers⟩ :=
      (hnew tail).assign (m := m) (by rw [List.length_append]; omega) (some p)
    have hinserted : ∀ iterators count, Linked (α := α)
        ⟨head, tail, iterators, l.fDel, count, nodes, freeNodes, brk⟩ (cells.insertIdx m (p, x)) :=
            fun iterators count ↦
      Wired.congr (Wired.insert hm (show Wired _ (cells ++ [(p, x)]) _ from hwired)) rfl rfl
    have hlen : (cells.insertIdx m (p,
      x)).length = cells.length + 1 := List.length_insertIdx_of_le_length hm _
    have hupdate := updateIterators_ok (hinserted l.iterators (toInt (l.count + 1)))
      (fun i ↦ if i.prev = cellLink cells m then { i with prev := .next p }
        else if i.pos = cellAddr cells m then { i with pos := some p } else i)
      (iteratorAt cells) (Cursor.inserted m) s.cursors h.iterators fun e he ↦ by
        have hwithin := h.within e he
        rw [← h.length_eq] at hwithin
        rw [hlen]
        exact ⟨hwithin.inserted m, iteratorAt_inserted hlinked.nodup hm (p, x) hwithin⟩
    refine ⟨⟨head, tail,
        s.cursors.map fun e ↦ (e.1, iteratorAt (cells.insertIdx m (p, x)) (e.2.inserted m)),
        l.fDel, toInt (l.count + 1), nodes, freeNodes, brk⟩, cells.insertIdx m (p, x), ?_,
      ⟨⟨hinserted _ _, ?_, ?_, ?_, fun q hq ↦ ?_⟩, ?_, ?_, ?_, ?_, ?_⟩⟩
    · rw [ItemList.insertAt, if_neg hroom]
      unfold listNodeCreate
      rw [halloc]
      simp only [hderef, bind, Except.bind]
      rw [hend] at hassign
      rw [show (if cellAddr cells m = none then
            { l with tail := NextPtr.next p,
                     nodes := Function.update l.nodes p (some ⟨x, cellAddr cells m⟩),
                     freeNodes := freeNodes, brk := brk }
          else { l with nodes := Function.update l.nodes p (some ⟨x, cellAddr cells m⟩),
                        freeNodes := freeNodes, brk := brk }) =
        ({ l with tail := tail,
                  nodes := Function.update l.nodes p (some ⟨x, cellAddr cells m⟩),
                  freeNodes := freeNodes, brk := brk } : LinkedList α) from by
          simp only [tail]
          split_ifs <;> rfl, hassign]
      simp only [hupdate]
      rfl
    · change tail = _
      rw [hlen, cellLink_insertIdx hm, if_neg (show ¬ cells.length + 1 ≤ m by omega)]
      simp only [tail, cellAddr_eq_none, Nat.add_sub_cancel]
      split_ifs <;> first | rfl | omega | exact h.stored.tail
    · change toInt (l.count + 1) = _
      rw [h.stored.count, toInt_toInt_add, hlen]
      rfl
    · have hsame := (List.perm_insertIdx (p, x) cells hm).map Prod.fst
      exact (hsame.append_right freeNodes).trans hperm
    · change nodes q = none
      have hq' : q ∉ (cells ++ [(p, x)]).map Prod.fst := fun hmem ↦ hq (by
        refine (((List.perm_insertIdx (p, x) cells hm).trans (List.perm_append_singleton
          _ _).symm).map Prod.fst).mem_iff.mpr ?_
        exact hmem)
      rw [hothers q hq']
      rw [List.map_append, List.map_singleton, List.mem_append, List.mem_singleton, not_or] at hq'
      change Function.update l.nodes p _ q = none
      rw [Function.update_of_ne hq'.2]
      exact h.stored.unused q hq'.1
    · rw [ItemList.insertAt, if_neg hroom, List.map_insertIdx, h.items]
    · rw [ItemList.insertAt, if_neg hroom, List.map_map]
      rfl
    · rw [ItemList.insertAt, if_neg hroom]
      intro e he
      obtain ⟨old, hold, rfl⟩ := List.mem_map.mp he
      have hm' : m ≤ s.items.length := h.length_eq ▸ hm
      rw [List.length_insertIdx_of_le_length hm']
      exact (h.within old hold).inserted m
    · rw [ItemList.insertAt, if_neg hroom]
      exact h.fDel
    · rw [ItemList.insertAt, if_neg hroom]
      change freeNodes.length = _
      rw [hlength, h.spare]
      simp only [hspare]

/-! ### Removal -/

/-- What the iterator of a cursor is set to when the cell at a position is taken out. -/
theorem iteratorAt_erased {cells : List (ℕ × α)} (hnodup : (cells.map Prod.fst).Nodup) {m : ℕ}
    {cell : ℕ × α}
    (hcell : cells[m]? = some cell) {c : Cursor} (hwithin : c.Within cells.length) :
    (if (iteratorAt cells c).pos = some cell.1 then ⟨cellAddr cells (m + 1), cellLink cells m⟩
      else if (iteratorAt cells c).prev =
        .next cell.1 then { iteratorAt cells c with prev := cellLink cells m }
      else iteratorAt cells c) = iteratorAt (cells.eraseIdx m) (c.erased m) := by
  have hle := hwithin.pos_le
  have hm := (List.getElem?_eq_some_iff.mp hcell).1
  have hlink := Cursor.link_cases hwithin
  have haddr : cellAddr cells m = some cell.1 := by rw [cellAddr, hcell, Option.map_some]
  unfold iteratorAt
  simp only [← haddr, ← cellLink_succ hcell, cellLink_inj hnodup (show c.link ≤ cells.length by
    omega) (Nat.succ_le_of_lt hm),
    cellAddr_inj hnodup hle hm.le, cellAddr_eraseIdx, cellLink_eraseIdx, Cursor.link_erased hwithin]
  unfold Cursor.erased
  by_cases hpos : c.pos = m
  · rw [if_pos hpos, if_neg (show ¬ m < c.link by omega), if_pos (show m ≤ c.pos by omega),
      if_neg (show ¬ m < c.link by omega), if_pos (show m ≤ c.pos by omega)]
    simp
  · rw [if_neg hpos]
    by_cases hprev : c.link = m + 1
    · rw [if_pos hprev]
      simp only [if_pos (show m < c.link by omega), if_neg (show ¬ c.pos - 1 < m by omega),
        if_pos (show c.link - 1 ≤ m by omega)]
      congr 2 <;> omega
    · rw [if_neg hprev]
      by_cases hbefore : m < c.link
      · simp only [if_pos hbefore, if_neg (show ¬ c.pos - 1 < m by omega),
          if_neg (show ¬ c.link - 1 ≤ m by omega)]
        congr 2 <;> omega
      · simp only [if_neg hbefore]
        by_cases hheld : m ≤ c.pos
        · -- the item that the cursor gave last
          simp only [if_pos hheld, lt_irrefl, if_false, le_refl, if_true]
          congr 2 <;> omega
        · simp only [if_neg hheld, if_pos (show c.pos < m by omega),
            if_pos (show c.link ≤ m by omega)]

/-- Assumes: a list whose pointers lead from each cell to the next, but for one, which leads past
the next. The pointers lead from each cell to the next if that one is left out. -/
theorem Wired.erase {l : LinkedList α} {cells : List (ℕ × α)} {m : ℕ}
    (h : Wired l cells (Function.update (cellAddr cells) m (cellAddr cells (m + 1)))) :
      Linked l (cells.eraseIdx m) := by
  refine h.relabel ?_ ?_ fun j cell hcell ↦ ?_
  · exact h.nodup.sublist ((List.eraseIdx_sublist cells m).map Prod.fst)
  · rw [cellAddr_eraseIdx]
    by_cases hzero : m = 0
    · rw [hzero, Function.update_self, if_neg (lt_irrefl 0)]
    · rw [Function.update_of_ne (Ne.symm hzero), if_pos (by omega)]
  · rw [List.getElem?_eraseIdx] at hcell
    rw [cellAddr_eraseIdx]
    split_ifs at hcell with hbefore
    · refine ⟨j, hcell, ?_⟩
      by_cases hnext : j + 1 = m
      · rw [hnext, Function.update_self, if_neg (lt_irrefl m)]
      · rw [Function.update_of_ne hnext, if_pos (by omega)]
    · refine ⟨j + 1, hcell, ?_⟩
      rw [Function.update_of_ne (by omega), if_neg (by omega)]

/-- Assumes: a position of the list. `list_node_destroy` takes the item there out, if there is
one. -/
theorem listNodeDestroy_represents {l : LinkedList α} {cells : List (ℕ × α)} {s : ItemList α}
    (h : Represents l cells s) {m : ℕ}
    (hm : m ≤ cells.length) :
    ∃ l', listNodeDestroy l (cellLink cells m) = .ok ((s.eraseAt m).1, l') ∧
      Represents l' (cells.eraseIdx m) (s.eraseAt m).2 := by
  have hlinked := h.stored.linked
  cases hcell : cells[m]? with
  | none =>
    have hnone : s.items[m]? = none := by rw [h.getElem?, hcell, Option.map_none]
    refine ⟨l, ?_, ?_⟩
    · unfold listNodeDestroy ItemList.eraseAt
      rw [hlinked.deref hm, hnone, cellAddr, hcell]
      rfl
    · rw [ItemList.eraseAt, hnone, List.eraseIdx_of_length_le (List.getElem?_eq_none_iff.mp hcell)]
      exact h
  | some cell =>
    have hlt := (List.getElem?_eq_some_iff.mp hcell).1
    have hsome : s.items[m]? = some cell.2 := by rw [h.getElem?, hcell, Option.map_some]
    have hderef : l.deref (cellLink cells m) = .ok (some cell.1) := by
      rw [hlinked.deref hm, cellAddr, hcell, Option.map_some]
    obtain ⟨head, nodes, hassign, hwired, hothers⟩ :=
      Wired.assign hlinked hm (cellAddr cells (m + 1))
    -- the last pointer is the one in front of the cell if that was the last
    let tail : NextPtr := if cellAddr cells (m + 1) = none then cellLink cells m else l.tail
    have herased : ∀ iterators count, Linked (α := α)
        ⟨head, tail, iterators, l.fDel, count, nodes, l.freeNodes, l.brk⟩ (cells.eraseIdx m) :=
            fun iterators count ↦
      (Wired.erase hwired).congr rfl rfl
    have hlen : (cells.eraseIdx m).length = cells.length - 1 := List.length_eraseIdx_of_lt hlt
    have hupdate := updateIterators_ok (herased l.iterators (toInt (l.count - 1)))
      (fun i ↦ if i.pos = some cell.1 then ⟨cellAddr cells (m + 1), cellLink cells m⟩
        else if i.prev = .next cell.1 then { i with prev := cellLink cells m } else i)
      (iteratorAt cells) (Cursor.erased m) s.cursors h.iterators fun e he ↦ by
        have hwithin := h.within e he
        rw [← h.length_eq] at hwithin
        rw [hlen]
        exact ⟨hwithin.erased hlt, iteratorAt_erased hlinked.nodup hcell hwithin⟩
    -- the cell is free, and none of the others is
    have hperm : (cell.1 :: (cells.eraseIdx m).map Prod.fst).Perm (cells.map Prod.fst) := by
      have hsplit := List.getElem_cons_eraseIdx_perm hlt
      rw [(List.getElem?_eq_some_iff.mp hcell).2] at hsplit
      exact hsplit.map Prod.fst
    have hgone : cell.1 ∉ (cells.eraseIdx m).map Prod.fst :=
      (List.nodup_cons.mp (hperm.nodup_iff.mpr hlinked.nodup)).1
    refine ⟨⟨head, tail, s.cursors.map fun e ↦ (e.1, iteratorAt (cells.eraseIdx m) (e.2.erased m)),
      l.fDel,
      toInt (l.count - 1), Function.update nodes cell.1 none, cell.1 :: l.freeNodes, l.brk⟩, ?_,
      ⟨⟨⟨(herased [] 0).nodup, (herased [] 0).head, fun j other hother ↦ ?_⟩, ?_, ?_, ?_, fun q hq ↦
        ?_⟩, ?_, ?_, ?_, ?_, ?_⟩⟩
    · rw [ItemList.eraseAt, hsome]
      unfold listNodeDestroy
      rw [hderef]
      simp only [bind, Except.bind, hlinked.node hcell, hassign]
      rw [show (if cellAddr cells (m + 1) = none then
            ({ l with head := head, nodes := nodes, tail := cellLink cells m } : LinkedList α)
          else { l with head := head, nodes := nodes }) =
        { l with head := head, nodes := nodes, tail := tail } from by
          simp only [tail]
          split_ifs <;> rfl]
      simp only [hupdate]
      rfl
    · change Function.update nodes cell.1 none other.1 = _
      rw [Function.update_of_ne fun heq : other.1 = cell.1 ↦ hgone (heq ▸ mem_of_getElem? hother)]
      exact (herased [] 0).nodes j other hother
    · change tail = _
      rw [hlen, cellLink_eraseIdx]
      simp only [tail, cellAddr_eq_none]
      split_ifs with hlast hle hle
      · congr 1
        omega
      · omega
      · omega
      · rw [h.stored.tail]
        congr 1
        omega
    · change toInt (l.count - 1) = _
      rw [h.stored.count, Int.sub_eq_add_neg, toInt_toInt_add, hlen]
      congr 1
      omega
    · exact List.perm_middle.trans ((hperm.append_right l.freeNodes).trans h.stored.memory)
    · change Function.update nodes cell.1 none q = none
      by_cases hsame : q = cell.1
      · rw [hsame, Function.update_self]
      · have hother : q ∉ cells.map Prod.fst := fun hmem ↦ by
          rcases List.mem_cons.mp (hperm.mem_iff.mpr hmem) with heq | hmem
          · exact hsame heq
          · exact hq hmem
        rw [Function.update_of_ne hsame, hothers q hother]
        exact h.stored.unused q hother
    · rw [ItemList.eraseAt, hsome, ← List.eraseIdx_map, h.items]
    · rw [ItemList.eraseAt, hsome, List.map_map]
      rfl
    · rw [ItemList.eraseAt, hsome]
      intro e he
      obtain ⟨old, hold, rfl⟩ := List.mem_map.mp he
      have hlt' : m < s.items.length := h.length_eq ▸ hlt
      rw [List.length_eraseIdx_of_lt hlt']
      exact (h.within old hold).erased hlt'
    · rw [ItemList.eraseAt, hsome]
      exact h.fDel
    · rw [ItemList.eraseAt, hsome]
      change l.freeNodes.length + 1 = s.spare + 1
      rw [h.spare]

end Whatsup
