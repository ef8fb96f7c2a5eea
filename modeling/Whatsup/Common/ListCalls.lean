import Whatsup.CLib.Outcome
import Whatsup.Common.ListSort

/-!
# Linked lists do what sequences with cursors do

Every call of `list.h` on a linked list does what it means for the abstract list, and leaves the two
connected (`listCall_represents`). So a whole run of calls from an empty list gives the answers of
the abstract list, whatever memory is given and whatever iterators are under way, and no cell is
touched that is not in use and no assertion fails (`listRun_represents`, `listRun_eq`). At the end
every cell can be given back (`listDestroy_represents`).
-/

set_option autoImplicit false
set_option relaxedAutoImplicit false

namespace Whatsup

open CLib

variable {α : Type}

/-! ### Iterators by their addresses -/

/-- The value under a key, when all values are mapped. -/
theorem lookup_map {β γ : Type} (g : β → γ) (key : ℕ) : ∀ entries : List (ℕ × β),
    (entries.map fun e ↦ (e.1, g e.2)).lookup key = (entries.lookup key).map g
  | [] => rfl
  | e :: rest => by
    rw [List.map_cons, List.lookup_cons, List.lookup_cons, lookup_map g key rest]
    cases key == e.1 <;> rfl

/-- A value found under a key is in the table. -/
theorem mem_of_lookup {β : Type} {key : ℕ} {value : β} : ∀ {entries : List (ℕ × β)},
    entries.lookup key = some value → (key, value) ∈ entries
  | [], h => by simp at h
  | e :: rest, h => by
    rw [List.lookup_cons] at h
    cases hkey : key == e.1 with
    | true =>
      rw [hkey] at h
      obtain rfl := Option.some.inj h
      rw [beq_iff_eq.mp hkey]
      exact List.mem_cons_self
    | false =>
      rw [hkey] at h
      exact List.mem_cons_of_mem _ (mem_of_lookup h)

section

variable {l : LinkedList α} {cells : List (ℕ × α)} {s : ItemList α} (h : Represents l cells s)

include h

/-- The iterator of an address is the cursor of that address. -/
theorem Represents.iterator {id : ℕ} {c : Cursor} (hc : s.cursors.lookup id = some c) :
    l.iterator id = .ok (iteratorAt cells c) := by
  unfold LinkedList.iterator
  rw [h.iterators, lookup_map, hc]
  rfl

/-- A cursor of the list is within its items. -/
theorem Represents.within_of_lookup {id : ℕ} {c : Cursor} (hc : s.cursors.lookup id = some c) :
    c.Within cells.length := by
  rw [h.length_eq]
  exact h.within _ (mem_of_lookup hc)

/-- Assumes: a cursor within the items. The iterator of an address is set to it. -/
theorem Represents.setIterator (id : ℕ) {c : Cursor} (hwithin : c.Within cells.length) :
    Represents (l.setIterator id (iteratorAt cells c)) cells (s.setCursor id c) := by
  refine ⟨⟨h.stored.linked.congr rfl rfl, h.stored.tail, h.stored.count, h.stored.memory,
    h.stored.unused⟩, h.items, ?_,
    fun e he ↦ ?_, h.fDel, h.spare⟩
  · change (l.iterators.map fun entry ↦ if entry.1 = id then (id, iteratorAt cells c) else entry) =
      _
    rw [h.iterators, ItemList.setCursor, List.map_map, List.map_map]
    refine List.map_congr_left fun e _ ↦ ?_
    simp only [Function.comp]
    split_ifs <;> rfl
  · obtain ⟨old, hold, rfl⟩ := List.mem_map.mp he
    split_ifs
    · rw [h.length_eq] at hwithin
      exact hwithin
    · exact h.within old hold

/-- `list_iterator_create`. -/
theorem listIteratorCreate_represents {id : ℕ} (hid : s.cursors.lookup id = none) :
    ∃ l', listIteratorCreate l id = .ok l' ∧
      Represents l' cells { s with cursors := (id, Cursor.start) :: s.cursors } := by
  refine ⟨{ l with iterators := (id, ⟨l.head, .head⟩) :: l.iterators }, ?_,
    ⟨⟨h.stored.linked.congr rfl rfl, h.stored.tail, h.stored.count, h.stored.memory,
      h.stored.unused⟩, h.items, ?_,
      fun e he ↦ ?_, h.fDel, h.spare⟩⟩
  · unfold listIteratorCreate
    rw [h.iterators, lookup_map, hid]
    rfl
  · have hhead : l.head = cellAddr cells 0 := h.stored.linked.head
    change (id, (⟨l.head, .head⟩ : ListIterator)) :: l.iterators = _
    rw [hhead, h.iterators]
    rfl
  · rcases List.mem_cons.mp he with rfl | he
    · exact Cursor.within_start _
    · exact h.within e he

/-- `list_iterator_reset`. -/
theorem listIteratorReset_represents {id : ℕ} {c : Cursor} (hc : s.cursors.lookup id = some c) :
    ∃ l', listIteratorReset l id = .ok l' ∧ Represents l' cells (s.setCursor id Cursor.start) := by
  refine ⟨_, ?_, h.setIterator id (Cursor.within_start _)⟩
  have hhead : l.head = cellAddr cells 0 := h.stored.linked.head
  unfold listIteratorReset
  rw [h.iterator hc, hhead]
  rfl

/-- `list_iterator_destroy`. -/
theorem listIteratorDestroy_represents {id : ℕ} {c : Cursor} (hc : s.cursors.lookup id = some c) :
    ∃ l', listIteratorDestroy l id = .ok l' ∧
      Represents l' cells { s with cursors := s.cursors.filter fun e ↦ e.1 ≠ id } := by
  refine ⟨{ l with iterators := l.iterators.filter fun entry ↦ entry.1 ≠ id }, ?_,
    ⟨⟨h.stored.linked.congr rfl rfl, h.stored.tail, h.stored.count, h.stored.memory,
      h.stored.unused⟩, h.items, ?_,
      fun e he ↦ h.within e (List.mem_of_mem_filter he), h.fDel, h.spare⟩⟩
  · unfold listIteratorDestroy
    rw [h.iterator hc]
    rfl
  · change (l.iterators.filter fun entry ↦ decide (entry.1 ≠ id)) = _
    rw [h.iterators, List.filter_map]
    rfl

/-- `list_next`: the next item, and the iterator behind it. -/
theorem listNext_represents {id : ℕ} {c : Cursor} (hc : s.cursors.lookup id = some c) :
    ∃ l', listNext l id = .ok ((nextItem s.items c).1, l') ∧
      Represents l' cells (s.setCursor id (nextItem s.items c).2) := by
  have hwithin := h.within_of_lookup hc
  have hle := hwithin.pos_le
  have hlink := Cursor.link_cases hwithin
  have hlinked := h.stored.linked
  have hlinkAfter : (c.advance s.items.length).link = c.pos := by
    unfold Cursor.advance Cursor.link
    split_ifs <;> simp
  -- the pointer in front of the next item, behind the call
  have hfollow : l.followLink (iteratorAt cells c) = .ok (cellLink cells c.pos) := by
    unfold LinkedList.followLink iteratorAt
    rw [hlinked.deref (show c.link ≤ cells.length by omega)]
    simp only [bind, Except.bind,
      cellAddr_inj hlinked.nodup (show c.link ≤ cells.length by omega) hle]
    split_ifs with hsame
    · rw [hsame]
      rfl
    · have hat : cells[c.link]? = some cells[c.link] := List.getElem?_eq_getElem (by omega)
      rw [cellAddr, hat, Option.map_some, show c.pos = c.link + 1 by omega, cellLink_succ hat]
      rfl
  have hpass : l.passNode (iteratorAt cells c) =
      .ok ((nextItem s.items c).1, cellAddr cells (c.advance s.items.length).pos) := by
    unfold LinkedList.passNode iteratorAt nextItem
    rw [h.getElem?]
    cases hcell : cells[c.pos]? with
    | none =>
      have hend : ¬ c.pos < s.items.length := by
        rw [← h.length_eq]
        exact not_lt.mpr (List.getElem?_eq_none_iff.mp hcell)
      have haddr : cellAddr cells c.pos = none := by rw [cellAddr, hcell, Option.map_none]
      rw [Cursor.advance, if_neg hend]
      simp only [haddr]
      rfl
    | some cell =>
      have hlt : c.pos < s.items.length := by
        rw [← h.length_eq]
        exact (List.getElem?_eq_some_iff.mp hcell).1
      have haddr : cellAddr cells c.pos = some cell.1 := by rw [cellAddr, hcell, Option.map_some]
      rw [Cursor.advance, if_pos hlt]
      simp only [haddr, hlinked.node hcell, bind, Except.bind]
      rfl
  refine ⟨_, ?_, h.setIterator id ?_⟩
  · unfold listNext
    rw [h.iterator hc]
    simp only [bind, Except.bind, hpass, hfollow]
    rw [nextItem, iteratorAt, hlinkAfter]
    rfl
  · rw [nextItem, ← h.length_eq]
    exact hwithin.advance

/-- `list_remove`: the item that the iterator gave last, if it is still there. -/
theorem listRemove_represents {id : ℕ} {c : Cursor} (hc : s.cursors.lookup id = some c) :
    ∃ l' cells', listRemove l id = .ok ((s.removeHeld c).1, l') ∧
      Represents l' cells' (s.removeHeld c).2 := by
  have hwithin := h.within_of_lookup hc
  have hle := hwithin.pos_le
  have hlink := Cursor.link_cases hwithin
  have hlinked := h.stored.linked
  have hgiven : (cellAddr cells c.link ≠ cellAddr cells c.pos) ↔ c.held = true := by
    rw [ne_eq, cellAddr_inj hlinked.nodup (show c.link ≤ cells.length by omega) hle]
    rcases hlink with ⟨hheld, hat⟩ | ⟨hheld, hbehind⟩ <;> rw [hheld] <;> simp <;> omega
  unfold listRemove ItemList.removeHeld
  rw [h.iterator hc]
  simp only [bind, Except.bind]
  rw [show (iteratorAt cells c).pos = cellAddr cells c.pos from rfl,
    show (iteratorAt cells c).prev = cellLink cells c.link from rfl,
    hlinked.deref (show c.link ≤ cells.length by omega)]
  simp only [hgiven]
  split_ifs with hheld
  · obtain ⟨l', hdestroy, hrep⟩ :=
      listNodeDestroy_represents h (show c.link ≤ cells.length by omega)
    exact ⟨l', _, hdestroy, hrep⟩
  · exact ⟨l, cells, rfl, h⟩

/-! ### Loops that only read -/

/-- `list_peek`. -/
theorem listPeek_represents : listPeek l = .ok s.items.head? := by
  have hhead : l.head = cellAddr cells 0 := h.stored.linked.head
  unfold listPeek
  rw [hhead, ← h.items]
  cases hcells : cells with
  | nil => rfl
  | cons cell rest =>
    have hcell : cells[0]? = some cell := by rw [hcells]; rfl
    rw [show cellAddr (cell :: rest) 0 = some cell.1 from rfl]
    simp only [h.stored.linked.node hcell, bind, Except.bind]
    rfl

/-- The loop of `list_find_first`, from a position on. -/
theorem findFirstFrom_eq (f : α → Bool) (rounds : ℕ) :
    ∀ m, m ≤ cells.length → cells.length < m + rounds →
      findFirstFrom f l rounds (cellAddr cells m) = .ok ((s.items.drop m).find? f) := by
  induction rounds with
  | zero =>
    intro m hm hrounds
    omega
  | succ rounds ih =>
    intro m hm hrounds
    have hitem := h.getElem? m
    cases hcell : cells[m]? with
    | none =>
      rw [hcell, Option.map_none, List.getElem?_eq_none_iff] at hitem
      rw [cellAddr, hcell, Option.map_none, findFirstFrom, List.drop_eq_nil_of_le hitem]
      rfl
    | some cell =>
      rw [hcell, Option.map_some] at hitem
      obtain ⟨hlt, hat⟩ := List.getElem?_eq_some_iff.mp hitem
      rw [cellAddr, hcell, Option.map_some, findFirstFrom, List.drop_eq_getElem_cons hlt, hat,
        List.find?_cons]
      simp only [h.stored.linked.node hcell, bind, Except.bind]
      cases hf : f cell.2 with
      | true => rfl
      | false => exact ih (m + 1) (List.getElem?_eq_some_iff.mp hcell).1 (by omega)

/-- `list_find_first`. -/
theorem listFindFirst_represents (f : α → Bool) : listFindFirst f l = .ok (s.items.find? f) := by
  have hhead : l.head = cellAddr cells 0 := h.stored.linked.head
  unfold listFindFirst
  rw [hhead, findFirstFrom_eq h f l.rounds 0 (Nat.zero_le _)
    (by have := h.stored.length_lt_rounds; omega), List.drop_zero]

/-- The loop of `list_for_each`, from a position on. -/
theorem forEachFrom_eq (f : α → ℤ) (rounds : ℕ) :
    ∀ m n, m ≤ cells.length → cells.length < m + rounds →
      forEachFrom f l rounds (cellAddr cells m) n = .ok (forEachCount f (s.items.drop m) n) := by
  induction rounds with
  | zero =>
    intro m n hm hrounds
    omega
  | succ rounds ih =>
    intro m n hm hrounds
    have hitem := h.getElem? m
    cases hcell : cells[m]? with
    | none =>
      rw [hcell, Option.map_none, List.getElem?_eq_none_iff] at hitem
      rw [cellAddr, hcell, Option.map_none, forEachFrom, List.drop_eq_nil_of_le hitem]
      rfl
    | some cell =>
      rw [hcell, Option.map_some] at hitem
      obtain ⟨hlt, hat⟩ := List.getElem?_eq_some_iff.mp hitem
      rw [cellAddr, hcell, Option.map_some, forEachFrom, List.drop_eq_getElem_cons hlt, hat,
        forEachCount]
      simp only [h.stored.linked.node hcell, bind, Except.bind]
      split_ifs
      · rfl
      · exact ih (m + 1) _ (List.getElem?_eq_some_iff.mp hcell).1 (by omega)

/-- `list_for_each`. -/
theorem listForEach_represents (f : α → ℤ) : listForEach f l = .ok (forEachCount f s.items 0) := by
  have hhead : l.head = cellAddr cells 0 := h.stored.linked.head
  unfold listForEach
  rw [hhead, forEachFrom_eq h f l.rounds 0 0 (Nat.zero_le _)
    (by have := h.stored.length_lt_rounds; omega), List.drop_zero]

end

/-! ### Loops that change the list -/

/-- A cursor that is set is found. -/
theorem lookup_setCursor {s : ItemList α} {id : ℕ} {c : Cursor} (hc : s.cursors.lookup id = some c)
    (c' : Cursor) :
    (s.setCursor id c').cursors.lookup id = some c' := by
  have hentries : ∀ entries : List (ℕ × Cursor), entries.lookup id = some c →
      (entries.map fun e ↦ if e.1 = id then (id, c') else e).lookup id = some c' := by
    intro entries
    induction entries with
    | nil => exact fun h ↦ by simp at h
    | cons e rest ih =>
      intro h
      rw [List.map_cons, List.lookup_cons]
      rw [List.lookup_cons] at h
      by_cases hkey : e.1 = id
      · rw [if_pos hkey]
        simp
      · have hother : (id == e.1) = false := by simpa using Ne.symm hkey
        rw [if_neg hkey, hother]
        rw [hother] at h
        exact ih h
  exact hentries s.cursors hc

/-- The last value that a cursor is set to counts. -/
theorem setCursor_setCursor (s : ItemList α) (id : ℕ) (c c' : Cursor) :
    (s.setCursor id c).setCursor id c' = s.setCursor id c' := by
  unfold ItemList.setCursor
  simp only [List.map_map]
  congr 1
  refine List.map_congr_left fun e _ ↦ ?_
  simp only [Function.comp]
  split_ifs <;> simp_all

/-- Assumes: enough rounds. The loop of `list_find` stops at the next item with the property. -/
theorem listFindLoop_represents (f : α → Bool) {id : ℕ} (rounds : ℕ) :
    ∀ {l : LinkedList α} {cells : List (ℕ × α)} {s : ItemList α} {c : Cursor},
      Represents l cells s →
      s.cursors.lookup id = some c → s.items.length < c.pos + rounds →
      ∃ l', listFindLoop f id rounds l = .ok ((findItem f s.items c).1, l') ∧
        Represents l' cells (s.setCursor id (findItem f s.items c).2) := by
  induction rounds with
  | zero =>
    intro l cells s c h hc hrounds
    have hle := (h.within_of_lookup hc).pos_le
    rw [h.length_eq] at hle
    omega
  | succ rounds ih =>
    intro l cells s c h hc hrounds
    obtain ⟨l1, hnext, hrep⟩ := listNext_represents h hc
    rw [listFindLoop]
    simp only [hnext, bind, Except.bind]
    cases hitem : s.items[c.pos]? with
    | none =>
      have hend := List.getElem?_eq_none_iff.mp hitem
      have hpos : c.pos = s.items.length := by
        have hle := (h.within_of_lookup hc).pos_le
        rw [h.length_eq] at hle
        omega
      have hfind : findItem f s.items c = (none, ⟨s.items.length, false⟩) := by
        rw [findItem, List.drop_eq_nil_of_le hend]
        rfl
      rw [nextItem, hitem, Cursor.advance, if_neg (by omega), hpos] at hrep
      rw [nextItem, hitem, hfind]
      exact ⟨l1, rfl, hrep⟩
    | some v =>
      obtain ⟨hlt, hat⟩ := List.getElem?_eq_some_iff.mp hitem
      rw [nextItem, Cursor.advance, if_pos hlt] at hrep
      rw [nextItem, hitem]
      simp only
      have hdrop : s.items.drop c.pos = v :: s.items.drop (c.pos + 1) := by
        rw [List.drop_eq_getElem_cons hlt, hat]
      cases hf : f v with
      | true =>
        have hfind : findItem f s.items c = (some v, ⟨c.pos + 1, true⟩) := by
          rw [findItem, hdrop, List.findIdx?_cons, hf]
          simp [hitem]
        rw [hfind]
        exact ⟨l1, rfl, hrep⟩
      | false =>
        have hfind : findItem f s.items c = findItem f s.items ⟨c.pos + 1, true⟩ := by
          rw [findItem, hdrop, List.findIdx?_cons, hf, findItem]
          cases (s.items.drop (c.pos + 1)).findIdx? f with
          | none => rfl
          | some k => simp [show c.pos + 1 + k = c.pos + (k + 1) by omega]
        obtain ⟨l2, hrun, hrep2⟩ := ih hrep (lookup_setCursor hc _)
          (show s.items.length < c.pos + 1 + rounds by omega)
        rw [setCursor_setCursor] at hrep2
        rw [hfind]
        exact ⟨l2, hrun, hrep2⟩

/-- `list_find`. -/
theorem listFind_represents {l : LinkedList α} {cells : List (ℕ × α)} {s : ItemList α}
    (h : Represents l cells s) (f : α → Bool)
    {id : ℕ} {c : Cursor} (hc : s.cursors.lookup id = some c) :
    ∃ l', listFind f l id = .ok ((findItem f s.items c).1, l') ∧
      Represents l' cells (s.setCursor id (findItem f s.items c).2) := by
  refine listFindLoop_represents f l.rounds h hc ?_
  have hlt := h.stored.length_lt_rounds
  rw [h.length_eq] at hlt
  omega

/-- Assumes: the items from a position on, and enough rounds. The loop of `list_delete_all` takes
those with the property out. -/
theorem deleteAllFrom_represents (f : α → Bool) (rest : List α) :
    ∀ (rounds m : ℕ) {l : LinkedList α} {cells : List (ℕ × α)} {s : ItemList α},
      Represents l cells s → m ≤ cells.length →
      s.items.drop m = rest → rest.length < rounds →
      ∃ l' cells', deleteAllFrom f rounds (cellLink cells m) l =
        .ok ((ItemList.eraseAll f rest m s).1, l') ∧
        Represents l' cells' (ItemList.eraseAll f rest m s).2 := by
  induction rest with
  | nil =>
    intro rounds m l cells s h hm hdrop hrounds
    obtain ⟨rounds, rfl⟩ : ∃ more, rounds = more + 1 := ⟨rounds - 1, by simp at hrounds; omega⟩
    have hend : cells.length ≤ m := by
      rw [h.length_eq]
      exact List.drop_eq_nil_iff.mp hdrop
    refine ⟨l, cells, ?_, h⟩
    rw [deleteAllFrom, h.stored.linked.deref hm, cellAddr_eq_none.mpr hend]
    rfl
  | cons x rest ih =>
    intro rounds m l cells s h hm hdrop hrounds
    obtain ⟨rounds, rfl⟩ : ∃ more, rounds = more + 1 := ⟨rounds - 1, by simp at hrounds; omega⟩
    rw [List.length_cons] at hrounds
    have hitem : s.items[m]? = some x := by
      rw [← Nat.add_zero m, ← List.getElem?_drop, hdrop]
      rfl
    have hrest : s.items.drop (m + 1) = rest := by
      rw [← List.drop_drop, hdrop, List.drop_succ_cons, List.drop_zero]
    obtain ⟨cell, hcell, rfl⟩ := Option.map_eq_some_iff.mp ((h.getElem? m).symm.trans hitem)
    have hlt := (List.getElem?_eq_some_iff.mp hcell).1
    have hderef : l.deref (cellLink cells m) = .ok (some cell.1) := by
      rw [h.stored.linked.deref hm, cellAddr, hcell, Option.map_some]
    rw [deleteAllFrom, hderef]
    simp only [h.stored.linked.node hcell, bind, Except.bind]
    cases hf : f cell.2 with
    | true =>
      obtain ⟨l1, hdestroy, hrep⟩ := listNodeDestroy_represents h hm
      have herase : (s.eraseAt m).1 = some cell.2 := by rw [ItemList.eraseAt, hitem]
      have hgone : (s.eraseAt m).2.items.drop m = rest := by
        rw [ItemList.eraseAt, hitem]
        change (s.items.eraseIdx m).drop m = rest
        rw [← hrest]
        refine List.ext_getElem? fun i ↦ ?_
        rw [List.getElem?_drop, List.getElem?_drop, List.getElem?_eraseIdx_of_ge (by omega)]
        congr 1
        omega
      obtain ⟨l2, cells2, hrun, hrep2⟩ :=
        ih rounds m hrep (by rw [List.length_eraseIdx_of_lt hlt]; omega) hgone (by omega)
      rw [cellLink_eraseIdx, if_pos le_rfl] at hrun
      rw [ItemList.eraseAll, if_pos hf, hdestroy, herase]
      simp only [if_true, hrun]
      exact ⟨l2, cells2, rfl, hrep2⟩
    | false =>
      obtain ⟨l2, cells2, hrun, hrep2⟩ := ih rounds (m + 1) h (by omega) hrest (by omega)
      rw [cellLink_succ hcell] at hrun
      rw [ItemList.eraseAll, hf]
      exact ⟨l2, cells2, hrun, hrep2⟩

/-- `list_delete_all`. -/
theorem listDeleteAll_represents {l : LinkedList α} {cells : List (ℕ × α)} {s : ItemList α}
    (h : Represents l cells s)
    (f : α → Bool) :
    ∃ l' cells', listDeleteAll f l = .ok ((ItemList.eraseAll f s.items 0 s).1, l') ∧
      Represents l' cells' (ItemList.eraseAll f s.items 0 s).2 := by
  refine deleteAllFrom_represents f s.items l.rounds 0 h (Nat.zero_le _) (List.drop_zero) ?_
  rw [← h.length_eq]
  exact h.stored.length_lt_rounds

/-! ### Runs -/

/-- Assumes: a call that is defined for the abstract list. The linked list gives the same answer and
stays connected with it. -/
theorem listCall_represents {l : LinkedList α} {cells : List (ℕ × α)} {s : ItemList α}
    (h : Represents l cells s)
    {call : ListCall α} {answer : ListAnswer α} {s' : ItemList α}
    (hcall : s.call call = some (answer, s')) :
    ∃ l' cells', listCall l call = .ok (answer, l') ∧ Represents l' cells' s' := by
  -- a call that succeeds with the value of the abstract call
  have hdone : ∀ {β : Type} {step : Except ListFault (β × LinkedList α)} {value : β × ItemList α}
    (g : β → ListAnswer α),
      (∃ l' cells', step = .ok (value.1, l') ∧ Represents l' cells' value.2) →
        some (Prod.map g id value) = some (answer, s') →
      ∃ l' cells', (do return Prod.map g id (← step)) = Except.ok (answer, l') ∧
          Represents l' cells' s' := by
    rintro β step value g ⟨l', cells', rfl, hrep⟩ hvalue
    obtain ⟨rfl, rfl⟩ := Prod.mk.inj (Option.some.inj hvalue)
    exact ⟨l', cells', rfl, hrep⟩
  have hend : cellLink cells cells.length = l.tail := h.stored.tail.symm
  cases call with
  | append memory x =>
    refine hdone _ ?_ hcall
    have hcreate := listNodeCreate_represents h le_rfl memory x
    rw [hend, h.length_eq] at hcreate
    exact hcreate
  | prepend memory x => exact hdone _ (listNodeCreate_represents h (Nat.zero_le _) memory x) hcall
  | pop =>
    obtain ⟨l', hpop, hrep⟩ := listNodeDestroy_represents h (Nat.zero_le _)
    exact hdone _ ⟨l', _, hpop, hrep⟩ hcall
  | peek =>
    obtain ⟨rfl, rfl⟩ := Prod.mk.inj (Option.some.inj hcall)
    refine ⟨l, cells, ?_, h⟩
    rw [listCall, listPeek_represents h]
    rfl
  | isEmpty =>
    obtain ⟨rfl, rfl⟩ := Prod.mk.inj (Option.some.inj hcall)
    refine ⟨l, cells, ?_, h⟩
    rw [listCall, h.stored.count, h.length_eq]
    rfl
  | count =>
    obtain ⟨rfl, rfl⟩ := Prod.mk.inj (Option.some.inj hcall)
    refine ⟨l, cells, ?_, h⟩
    rw [listCall, h.stored.count, h.length_eq]
    rfl
  | findFirst f =>
    obtain ⟨rfl, rfl⟩ := Prod.mk.inj (Option.some.inj hcall)
    refine ⟨l, cells, ?_, h⟩
    rw [listCall, listFindFirst_represents h]
    rfl
  | deleteAll f =>
    have hgone := hdone (.ofGone l.fDel) (listDeleteAll_represents h f)
    rw [h.fDel] at hgone
    obtain ⟨l', cells', hrun, hrep⟩ := hgone hcall
    refine ⟨l', cells', ?_, hrep⟩
    rw [listCall, h.fDel]
    exact hrun
  | forEach f =>
    obtain ⟨rfl, rfl⟩ := Prod.mk.inj (Option.some.inj hcall)
    refine ⟨l, cells, ?_, h⟩
    rw [listCall, listForEach_represents h]
    rfl
  | sort f =>
    obtain ⟨rfl, rfl⟩ := Prod.mk.inj (Option.some.inj hcall)
    obtain ⟨l', cells', hsort, hrep⟩ := listSort_represents h f
    refine ⟨l', cells', ?_, hrep⟩
    rw [listCall, hsort]
    rfl
  | iteratorCreate i =>
    rw [ItemList.call] at hcall
    cases hlookup : s.cursors.lookup i with
    | some c =>
      rw [hlookup] at hcall
      exact absurd hcall (by simp)
    | none =>
      rw [hlookup] at hcall
      obtain ⟨rfl, rfl⟩ := Prod.mk.inj (Option.some.inj hcall)
      obtain ⟨l', hcreate, hrep⟩ := listIteratorCreate_represents h hlookup
      refine ⟨l', cells, ?_, hrep⟩
      rw [listCall, hcreate]
      rfl
  | iteratorReset i =>
    obtain ⟨c, hlookup, hcall⟩ := Option.bind_eq_some_iff.mp hcall
    obtain ⟨rfl, rfl⟩ := Prod.mk.inj (Option.some.inj hcall)
    obtain ⟨l', hreset, hrep⟩ := listIteratorReset_represents h hlookup
    refine ⟨l', cells, ?_, hrep⟩
    rw [listCall, hreset]
    rfl
  | iteratorDestroy i =>
    obtain ⟨c, hlookup, hcall⟩ := Option.bind_eq_some_iff.mp hcall
    obtain ⟨rfl, rfl⟩ := Prod.mk.inj (Option.some.inj hcall)
    obtain ⟨l', hdestroy, hrep⟩ := listIteratorDestroy_represents h hlookup
    refine ⟨l', cells, ?_, hrep⟩
    rw [listCall, hdestroy]
    rfl
  | next i =>
    obtain ⟨c, hlookup, hcall⟩ := Option.bind_eq_some_iff.mp hcall
    obtain ⟨l', hnext, hrep⟩ := listNext_represents h hlookup
    exact @hdone _ _ ((nextItem s.items c).1, s.setCursor i (nextItem s.items c).2) .ofData ⟨l',
      cells, hnext, hrep⟩ hcall
  | insert memory i x =>
    obtain ⟨c, hlookup, hcall⟩ := Option.bind_eq_some_iff.mp hcall
    have hwithin := h.within_of_lookup hlookup
    have hle := hwithin.pos_le
    have hlink := Cursor.link_cases hwithin
    refine hdone .ofData ?_ hcall
    rw [listInsert, h.iterator hlookup]
    exact listNodeCreate_represents h (show c.link ≤ cells.length by omega) memory x
  | find f i =>
    obtain ⟨c, hlookup, hcall⟩ := Option.bind_eq_some_iff.mp hcall
    obtain ⟨l', hfind, hrep⟩ := listFind_represents h f hlookup
    exact @hdone _ _ ((findItem f s.items c).1, s.setCursor i (findItem f s.items c).2) .ofData ⟨l',
      cells, hfind, hrep⟩ hcall
  | remove i =>
    obtain ⟨c, hlookup, hcall⟩ := Option.bind_eq_some_iff.mp hcall
    exact hdone .ofData (listRemove_represents h hlookup) hcall
  | delete i =>
    obtain ⟨c, hlookup, hcall⟩ := Option.bind_eq_some_iff.mp hcall
    have hgone := hdone (fun data ↦ .ofGone l.fDel data.toList) (listRemove_represents h hlookup)
    rw [h.fDel] at hgone
    obtain ⟨l', cells', hrun, hrep⟩ := hgone hcall
    refine ⟨l', cells', ?_, hrep⟩
    rw [listCall, h.fDel]
    exact hrun

/-- Assumes: calls that are defined for the abstract list. The linked list gives the same answers
and stays connected with it. -/
theorem listRun_represents (calls : List (ListCall α)) :
    ∀ {l : LinkedList α} {cells : List (ℕ × α)} {s s' : ItemList α} {answers : List (ListAnswer α)},
      Represents l cells s →
      s.run calls = some (answers, s') → ∃ l' cells', listRun l calls = .ok (answers, l') ∧
      Represents l' cells' s' := by
  induction calls with
  | nil =>
    intro l cells s s' answers h hrun
    obtain ⟨rfl, rfl⟩ := Prod.mk.inj (Option.some.inj hrun)
    exact ⟨l, cells, rfl, h⟩
  | cons call calls ih =>
    intro l cells s s' answers h hrun
    obtain ⟨⟨answer, s1⟩, hcall, hrest⟩ := Option.bind_eq_some_iff.mp hrun
    obtain ⟨⟨others, s2⟩, hothers, hdone⟩ := Option.bind_eq_some_iff.mp hrest
    obtain ⟨rfl, rfl⟩ := Prod.mk.inj (Option.some.inj hdone)
    obtain ⟨l1, cells1, hfirst, hrep1⟩ := listCall_represents h hcall
    obtain ⟨l2, cells2, hlater, hrep2⟩ := ih hrep1 hothers
    refine ⟨l2, cells2, ?_, hrep2⟩
    rw [listRun, hfirst]
    simp only [bind, Except.bind, hlater]
    rfl

/-- Assumes: cells that each lead to the next, and enough rounds. The loop of `list_destroy` passes
their items and gives every cell back. -/
theorem destroyFrom_ok (rest : List (ℕ × α)) :
    ∀ (rounds : ℕ) (l : LinkedList α), (rest.map Prod.fst).Nodup →
      (∀ m cell, rest[m]? = some cell → l.nodes cell.1 = some ⟨cell.2, cellAddr rest (m + 1)⟩) →
      rest.length < rounds →
      ∃ l', destroyFrom l rounds (cellAddr rest 0) = .ok (rest.map Prod.snd, l') ∧ l'.brk = l.brk ∧
        l'.freeNodes = (rest.map Prod.fst).reverse ++ l.freeNodes ∧
        ∀ p, l'.nodes p = if p ∈ rest.map Prod.fst then none else l.nodes p := by
  induction rest with
  | nil =>
    intro rounds l _ _ hrounds
    obtain ⟨rounds, rfl⟩ : ∃ more, rounds = more + 1 := ⟨rounds - 1, by simp at hrounds; omega⟩
    exact ⟨l, rfl, rfl, rfl, fun _ ↦ rfl⟩
  | cons cell rest ih =>
    intro rounds l hnodup hnodes hrounds
    obtain ⟨rounds, rfl⟩ : ∃ more, rounds = more + 1 := ⟨rounds - 1, by simp at hrounds; omega⟩
    rw [List.map_cons, List.nodup_cons] at hnodup
    have hnode : l.node (some cell.1) = .ok ⟨cell.2, cellAddr rest 0⟩ := by
      unfold LinkedList.node
      rw [Option.bind_some, hnodes 0 cell rfl]
      rfl
    obtain ⟨l', hrun, hbrk, hfree, hfreed⟩ :=
        ih rounds (listNodeFree l cell.1) hnodup.2 (fun m other hother ↦ by
      change Function.update l.nodes cell.1 none other.1 = _
      rw [Function.update_of_ne fun heq : other.1 = cell.1 ↦
        hnodup.1 (heq ▸ mem_of_getElem? hother)]
      exact hnodes (m + 1) other hother) (by rw [List.length_cons] at hrounds; omega)
    refine ⟨l', ?_, hbrk, ?_, fun p ↦ ?_⟩
    · rw [show cellAddr (cell :: rest) 0 = some cell.1 from rfl, destroyFrom, hnode]
      simp only [bind, Except.bind, hrun]
      rfl
    · rw [hfree, List.map_cons, List.reverse_cons, List.append_assoc]
      rfl
    · rw [hfreed p, List.map_cons]
      change (if p ∈ rest.map Prod.fst then none else Function.update l.nodes cell.1 none p) = _
      by_cases hsame : p = cell.1
      · rw [hsame, if_neg hnodup.1, Function.update_self, if_pos List.mem_cons_self]
      · rw [Function.update_of_ne hsame]
        simp only [List.mem_cons, hsame, false_or]

/-- `list_destroy` passes the items of a list in their order and gives back every cell that was
handed out. -/
theorem listDestroy_represents {l : LinkedList α} {cells : List (ℕ × α)} {s : ItemList α}
    (h : Represents l cells s) :
    ∃ l', listDestroy l = .ok (s.items, l') ∧ (∀ p, l'.nodes p = none) ∧
      l'.freeNodes.Perm (List.range l'.brk) := by
  have hlinked := h.stored.linked
  obtain ⟨l', hrun, hbrk, hfree, hfreed⟩ :=
    destroyFrom_ok cells l.rounds { l with iterators := [] } hlinked.nodup
    hlinked.nodes h.stored.length_lt_rounds
  refine ⟨l', ?_, fun p ↦ ?_, ?_⟩
  · rw [← h.items, ← hrun]
    exact congrArg (destroyFrom { l with iterators := [] } l.rounds) hlinked.head
  · rw [hfreed p]
    split_ifs with hmem
    · rfl
    · exact h.stored.unused p hmem
  · rw [hfree, hbrk]
    exact ((List.reverse_perm _).append_right _).trans h.stored.memory

/-- Assumes: calls on a new list, none of which uses an iterator that is not one of the list. The
run gives the answers of the abstract list: no null pointer and no cell that is not in use is read
or written, no assertion fails and every loop ends. `list_destroy` then passes the items that are
left in their order, and every cell that was handed out is given back once. -/
theorem listRun_eq {fDel : Bool} {calls : List (ListCall α)} {answers : List (ListAnswer α)}
    {s : ItemList α}
    (hrun : (ItemList.empty fDel).run calls = some (answers, s)) :
    ∃ l l', listRun (listCreate fDel) calls = .ok (answers, l) ∧ listDestroy l = .ok (s.items, l') ∧
      (∀ p, l'.nodes p = none) ∧ l'.freeNodes.Perm (List.range l'.brk) := by
  obtain ⟨l, cells, hcalls, hrep⟩ := listRun_represents calls (represents_listCreate fDel) hrun
  obtain ⟨l', hdestroy, hnodes, hfree⟩ := listDestroy_represents hrep
  exact ⟨l, l', hcalls, hdestroy, hnodes, hfree⟩

/-- Two items, of which an iterator gives and removes the first. -/
theorem listRun_eq_two :
    ∃ l l', listRun (listCreate true) [.append true 1, .append true 2, .iteratorCreate 0, .next 0,
      .remove 0, .peek] =
        .ok ([.ofData (some 1), .ofData (some 2), .ofNumber 0, .ofData (some 1), .ofData (some 1),
          .ofData (some 2)], l) ∧
      listDestroy l = .ok ([2], l') ∧ (∀ p, l'.nodes p = none) ∧
      l'.freeNodes.Perm (List.range l'.brk) :=
  listRun_eq (s := ⟨[2], [(0, ⟨0, false⟩)], true, listAlloc - 1⟩) rfl

/-- Assumes: a run of calls from a new list that leaves fewer items than `int` counts, and an order.
`list_sort` leaves a list whose items are the same, in order, and those that are equal to one
another in the order in which they were put. -/
theorem listSort_sorts {fDel : Bool} {calls : List (ListCall α)} {answers : List (ListAnswer α)}
    {s : ItemList α} {f : α → α → ℤ}
    (hrun : (ItemList.empty fDel).run calls = some (answers, s))
    (hlen : s.items.length < 2147483648) (hf : IsComparison f) :
    ∃ l l' l'' items, listRun (listCreate fDel) calls = .ok (answers, l) ∧ listSort f l = .ok l' ∧
      listDestroy l' = .ok (items, l'') ∧ items.Perm s.items ∧
      (items.Pairwise fun x y ↦ f x y ≤ 0) ∧
      ∀ a, items.filter (fun z ↦ decide (f a z = 0)) = s.items.filter fun z ↦
        decide (f a z = 0) := by
  obtain ⟨l, cells, hcalls, hrep⟩ := listRun_represents calls (represents_listCreate fDel) hrun
  obtain ⟨l', cells', hsort, hrep'⟩ := listSort_represents hrep f
  obtain ⟨l'', hdestroy, -, -⟩ := listDestroy_represents hrep'
  refine ⟨l, l', l'', (s.sort f).items, hcalls, hsort, hdestroy, ?_⟩
  rw [ItemList.sort, toInt_eq_self (by omega) (by omega)]
  split_ifs with hmany
  · exact sortItems_spec hf s.items
  · refine ⟨List.Perm.refl _, ?_, fun a ↦ rfl⟩
    cases hitems : s.items with
    | nil => exact List.Pairwise.nil
    | cons x rest =>
      rw [hitems, List.length_cons] at hmany
      rw [List.length_eq_zero_iff.mp (by omega : rest.length = 0)]
      exact List.pairwise_singleton _ _

/-- Numbers compared by their tens. -/
theorem listSort_sorts_tens :
    ∃ l l' l'' items, listRun (listCreate false) [.append true 31, .append true 12, .append true 35,
      .append true 11] =
        .ok ([.ofData (some 31), .ofData (some 12), .ofData (some 35), .ofData (some 11)], l) ∧
      listSort (fun x y : ℤ ↦ x / 10 - y / 10) l = .ok l' ∧ listDestroy l' = .ok (items, l'') ∧
      items.Perm [31, 12, 35, 11] ∧
      (items.Pairwise fun x y ↦ x / 10 - y / 10 ≤ 0) ∧
      ∀ a, items.filter (fun z ↦ decide (a / 10 - z / 10 = 0)) = [31, 12, 35, 11].filter fun z ↦
        decide (a / 10 - z / 10 = 0) :=
  listSort_sorts (s := ⟨[31, 12, 35, 11], [], false, listAlloc - 4⟩) rfl (by decide)
    ⟨fun x y ↦ by omega, fun x y z hxy hyz ↦ by omega⟩

end Whatsup
