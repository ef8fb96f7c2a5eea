import Mathlib.Data.List.TakeWhile
import Whatsup.Common.ListNodes

/-!
# Sorting a linked list

`list_sort` takes each node that is less than the one before it out of its place and puts it in
front of the first node that it is less than, by three stores to pointers. `listSort_represents`
says that this is `sortItems` on the items, for every comparison function, and that the iterators
are all set back.

`sortItems_spec` says what that is if the function is an order: the same items, in order, and those
that are equal to one another in the order in which they were.
-/

set_option autoImplicit false
set_option relaxedAutoImplicit false

namespace Whatsup

open CLib

variable {α : Type}

/-! ### The move of a node -/

/-- The pointers behind the stores with which the node at position `n` is moved to position `k`. -/
def movedTarget (cells : List (ℕ × α)) (n k p : ℕ) : ℕ → Option ℕ :=
  Function.update (Function.update (Function.update (cellAddr cells) (n + 1) (cellAddr cells k))
    k (some p)) n
    (cellAddr cells (n + 1))

/-- Assumes: two positions of the list, the first in front of the second, and the pointers as the
stores leave them. The pointers lead from each cell to the next when the cell of the second position
is put to the first. -/
theorem Wired.moved {l : LinkedList α} {cells : List (ℕ × α)} {n k : ℕ} {cell : ℕ × α}
    (hcell : cells[n]? = some cell)
    (hk : k < n) (h : Wired l cells (movedTarget cells n k cell.1)) :
    Linked l ((cells.eraseIdx n).insertIdx k cell) := by
  have hn := (List.getElem?_eq_some_iff.mp hcell).1
  have hlen : (cells.eraseIdx n).length = cells.length - 1 := List.length_eraseIdx_of_lt hn
  have hk' : k ≤ (cells.eraseIdx n).length := by omega
  have haddr : ∀ j, cellAddr ((cells.eraseIdx n).insertIdx k cell) j =
      if j < k then cellAddr cells j else if j = k then some cell.1
        else if j ≤ n then cellAddr cells (j - 1) else cellAddr cells j := by
    intro j
    rw [cellAddr_insertIdx hk', cellAddr_eraseIdx, cellAddr_eraseIdx]
    split_ifs <;> first | rfl | omega | (congr 1; omega)
  refine h.relabel ?_ ?_ fun j other hother ↦ ?_
  · have hsplit := List.getElem_cons_eraseIdx_perm hn
    rw [(List.getElem?_eq_some_iff.mp hcell).2] at hsplit
    have hperm := ((List.perm_insertIdx cell _ hk').trans hsplit).map Prod.fst
    exact hperm.nodup_iff.mpr h.nodup
  · rw [haddr]
    unfold movedTarget
    by_cases hzero : k = 0
    · rw [hzero, Function.update_of_ne (by omega), Function.update_self,
        if_neg (lt_irrefl 0), if_pos rfl]
    · rw [Function.update_of_ne (by omega), Function.update_of_ne (Ne.symm hzero),
        Function.update_of_ne (by omega),
        if_pos (by omega)]
  · rw [haddr]
    rw [List.getElem?_insertIdx, List.getElem?_eraseIdx, List.getElem?_eraseIdx] at hother
    unfold movedTarget
    split_ifs at hother with hfront _ hat hroom hbehind
    · -- a cell in front of both positions
      refine ⟨j, hother, ?_⟩
      rw [Function.update_of_ne (by omega)]
      by_cases hnext : j + 1 = k
      · rw [hnext, Function.update_self, if_neg (lt_irrefl k), if_pos rfl]
      · rw [Function.update_of_ne hnext, Function.update_of_ne (by omega), if_pos (by omega)]
    · omega
    · -- the cell that is moved
      obtain rfl := Option.some.inj hother
      refine ⟨n, hcell, ?_⟩
      rw [Function.update_of_ne (by omega), Function.update_of_ne (by omega), Function.update_self,
        if_neg (by omega),
        if_neg (by omega), if_pos (by omega), hat, Nat.add_sub_cancel]
    · -- a cell between the positions
      refine ⟨j - 1, hother, ?_⟩
      rw [show j - 1 + 1 = j by omega, if_neg (by omega), if_neg (by omega)]
      by_cases hlast : j = n
      · rw [hlast, Function.update_self, if_neg (by omega)]
      · rw [Function.update_of_ne hlast, Function.update_of_ne (by omega),
          Function.update_of_ne (by omega), if_pos (by omega),
          Nat.add_sub_cancel]
    · -- a cell behind both positions
      rw [show j - 1 + 1 = j by omega] at hother
      refine ⟨j, hother, ?_⟩
      rw [Function.update_of_ne (by omega), Function.update_of_ne (by omega),
        Function.update_of_ne (by omega), if_neg (by omega),
        if_neg (by omega), if_neg (by omega)]

/-- Assumes: a list whose pointers lead from each cell to the next, and two positions, the first in
front of the second. The three stores of the sort succeed and move the cell. -/
theorem Linked.move {l : LinkedList α} {cells : List (ℕ × α)} (h : Linked l cells) {n k : ℕ}
    {cell : ℕ × α}
    (hcell : cells[n]? = some cell) (hk : k < n) :
    ∃ l1 l2 head nodes, l.assign (.next cell.1) (cellAddr cells k) = .ok l1 ∧
      l1.assign (cellLink cells k) (some cell.1) = .ok l2 ∧
      l2.assign (cellLink cells n) (cellAddr cells (n + 1)) =
        .ok { l with head := head, nodes := nodes } ∧
      Linked { l with head := head, nodes := nodes } ((cells.eraseIdx n).insertIdx k cell) ∧
      ∀ p, p ∉ cells.map Prod.fst → nodes p = l.nodes p := by
  have hn := (List.getElem?_eq_some_iff.mp hcell).1
  obtain ⟨head1, nodes1, hassign1, hwired1, hothers1⟩ := Wired.assign h (Nat.succ_le_of_lt hn)
    (cellAddr cells k)
  obtain ⟨head2, nodes2, hassign2, hwired2, hothers2⟩ :=
    hwired1.assign (show k ≤ cells.length by omega) (some cell.1)
  obtain ⟨head3, nodes3, hassign3, hwired3, hothers3⟩ :=
    hwired2.assign hn.le (cellAddr cells (n + 1))
  rw [cellLink_succ hcell] at hassign1
  refine ⟨_, _, head3, nodes3, hassign1, hassign2, hassign3, Wired.moved hcell hk hwired3,
    fun p hp ↦ ?_⟩
  rw [hothers3 p hp]
  exact (hothers2 p hp).trans (hothers1 p hp)

/-! ### The loops -/

/-- Assumes: a list whose pointers lead from each cell to the next, an item that is not less than
those up to a position and less than the one there, and enough rounds. The inner loop stops
there. -/
theorem sortPlace_ok {l : LinkedList α} {cells : List (ℕ × α)} (h : Linked l cells) {f : α → α → ℤ}
    {x : α} {k : ℕ}
    (hfront : ∀ j cell, j < k → cells[j]? = some cell → 0 ≤ f x cell.2)
    {there : ℕ × α} (hthere : cells[k]? = some there) (hless : f x there.2 < 0) (rounds : ℕ) :
    ∀ i, i ≤ k → k < i + rounds → sortPlace f l x rounds (cellLink cells i) =
      .ok (cellLink cells k) := by
  have hk := (List.getElem?_eq_some_iff.mp hthere).1
  induction rounds with
  | zero => intro i hi hrounds; omega
  | succ rounds ih =>
    intro i hi hrounds
    have hcell : cells[i]? = some cells[i] := List.getElem?_eq_getElem (by omega)
    rw [sortPlace, h.deref (by omega), cellAddr, hcell, Option.map_some]
    simp only [bind, Except.bind, h.node hcell]
    by_cases hlast : i = k
    · subst hlast
      rw [Option.some.inj (hcell.symm.trans hthere), if_neg (not_le.mpr hless)]
      rfl
    · rw [if_pos (hfront i _ (by omega) hcell), ← cellLink_succ hcell]
      exact ih (i + 1) (by omega) (by omega)

/-- Comparison of cells by their items. -/
def byItem (f : α → α → ℤ) (c d : ℕ × α) : ℤ :=
  f c.2 d.2

/-- Assumes: an item less than the last of a sequence. -/
theorem placeItem_pos {β : Type} {f : β → β → ℤ} {sorted : List β} {x y : β}
    (hlast : sorted.getLast? = some y) (hless : f x y < 0) :
    placeItem f sorted x =
      sorted.takeWhile (fun z ↦ decide (0 ≤ f x z)) ++ x :: sorted.dropWhile (fun z ↦
        decide (0 ≤ f x z)) := by
  rw [placeItem, hlast]
  exact if_pos hless

/-- Assumes: an item not less than the last of a sequence. -/
theorem placeItem_neg {β : Type} {f : β → β → ℤ} {sorted : List β} {x y : β}
    (hlast : sorted.getLast? = some y)
    (hless : ¬ f x y < 0) : placeItem f sorted x = sorted ++ [x] := by
  rw [placeItem, hlast]
  exact if_neg hless

/-- An item is put in between two parts of a sequence. -/
theorem insertIdx_length {β : Type} (x : β) (back : List β) : ∀ front : List β,
    (front ++ back).insertIdx front.length x = front ++ x :: back
  | [] => rfl
  | y :: front => by
    rw [List.cons_append, List.length_cons, List.insertIdx_succ_cons, insertIdx_length x back front,
      List.cons_append]

/-- Assumes: an item less than the last of a sequence. It is put into the sequence in front of the
first item that it is less than. -/
theorem placeItem_less {β : Type} {f : β → β → ℤ} {sorted : List β} {x y : β}
    (hlast : sorted.getLast? = some y) (hless : f x y < 0) :
    ∃ (k : ℕ) (there : β), sorted[k]? = some there ∧ f x there < 0 ∧
      (∀ j z, j < k → sorted[j]? = some z → 0 ≤ f x z) ∧
      placeItem f sorted x = sorted.insertIdx k x := by
  have hplace := placeItem_pos hlast hless
  have hsplit := List.takeWhile_append_dropWhile (p := fun z ↦ decide (0 ≤ f x z)) (l := sorted)
  generalize hfront : sorted.takeWhile (fun z ↦ decide (0 ≤ f x z)) = front at *
  cases hback : sorted.dropWhile (fun z ↦ decide (0 ≤ f x z)) with
  | nil =>
    -- not all of the items are passed, since the last is not
    rw [hback, List.append_nil] at hsplit
    have hmem : y ∈ front := hsplit ▸ List.mem_of_getLast? hlast
    rw [← hfront] at hmem
    have hnot : 0 ≤ f x y := by simpa using List.mem_takeWhile_imp hmem
    omega
  | cons there back =>
    rw [hback] at hsplit hplace
    have hthere : ¬ 0 ≤ f x there := by
      have hne := List.head_dropWhile_not (fun z ↦ decide (0 ≤ f x z)) (l := sorted)
        (by rw [hback]; simp)
      simpa [hback] using hne
    refine ⟨front.length, there, ?_, not_le.mp hthere, fun j z hj hz ↦ ?_, ?_⟩
    · rw [← hsplit, List.getElem?_append_right le_rfl, Nat.sub_self]
      rfl
    · rw [← hsplit, List.getElem?_append_left hj] at hz
      have hmem := List.mem_of_getElem? hz
      rw [← hfront] at hmem
      simpa using List.mem_takeWhile_imp hmem
    · rw [hplace, ← hsplit, insertIdx_length]

/-- What `list_sort` makes of the cells. -/
def sortCells (f : α → α → ℤ) (sorted rest : List (ℕ × α)) : List (ℕ × α) :=
  rest.foldl (placeItem (byItem f)) sorted

/-- Assumes: a list whose pointers lead from each cell to the next, the first of them passed and
sorted, and enough rounds. The outer loop puts the others to their places, and sets the last
pointer. -/
theorem sortFrom_ok (f : α → α → ℤ) (rest : List (ℕ × α)) :
    ∀ (rounds : ℕ) (l : LinkedList α) (sorted : List (ℕ × α)), sorted ≠ [] →
      Linked l (sorted ++ rest) → rest.length < rounds →
      (sorted ++ rest).length < l.rounds →
      ∃ head nodes, sortFrom f rounds (cellLink (sorted ++ rest) (sorted.length - 1))
        (cellLink (sorted ++ rest) sorted.length) l =
          .ok { l with
            head := head, nodes := nodes, tail :=
              cellLink (sortCells f sorted rest) (sortCells f sorted rest).length } ∧
        Linked { l with head := head, nodes := nodes } (sortCells f sorted rest) ∧
        ∀ p, p ∉ (sorted ++ rest).map Prod.fst → nodes p = l.nodes p := by
  induction rest with
  | nil =>
    intro rounds l sorted _ hlinked hrounds _
    obtain ⟨rounds, rfl⟩ : ∃ more, rounds = more + 1 := ⟨rounds - 1, by simp at hrounds; omega⟩
    rw [List.append_nil] at hlinked ⊢
    refine ⟨l.head, l.nodes, ?_, hlinked, fun _ _ ↦ rfl⟩
    rw [sortFrom, hlinked.deref le_rfl, cellAddr_eq_none.mpr le_rfl]
    rfl
  | cons cell rest ih =>
    intro rounds l sorted hne hlinked hrounds hmemory
    obtain ⟨rounds, rfl⟩ : ∃ more, rounds = more + 1 := ⟨rounds - 1, by simp at hrounds; omega⟩
    have hpos := List.length_pos_of_ne_nil hne
    have hlen : (sorted ++ cell :: rest).length = sorted.length + rest.length + 1 := by
      rw [List.length_append, List.length_cons]
      omega
    have hcell : (sorted ++ cell :: rest)[sorted.length]? = some cell := by
      rw [List.getElem?_append_right le_rfl, Nat.sub_self]
      rfl
    -- the last of the sorted cells
    obtain ⟨last, hlast⟩ : ∃ last, sorted.getLast? = some last :=
      ⟨_, List.getLast?_eq_some_getLast hne⟩
    have hprev : (sorted ++ cell :: rest)[sorted.length - 1]? = some last := by
      rw [List.getElem?_append_left (by omega), ← hlast, List.getLast?_eq_getElem?]
    have hnode := hlinked.node hcell
    have hprevNode := hlinked.node hprev
    rw [sortFrom, hlinked.deref (by omega), hlinked.deref (by omega), cellAddr, hcell,
      cellAddr, hprev]
    simp only [Option.map_some, bind, Except.bind, hnode, hprevNode]
    have hcells : sortCells f sorted (cell :: rest) =
      sortCells f (placeItem (byItem f) sorted cell) rest := rfl
    by_cases hless : f cell.2 last.2 < 0
    · obtain ⟨k, there, hthere, hlt, hfront, hplace⟩ :=
        placeItem_less (f := byItem f) (x := cell) hlast hless
      have hk := (List.getElem?_eq_some_iff.mp hthere).1
      have hsearch := sortPlace_ok hlinked (f := f) (x := cell.2) (k := k)
        (fun j other hj hother ↦
          hfront j other hj (by rwa [List.getElem?_append_left (by omega)] at hother))
        (by rw [List.getElem?_append_left hk]; exact hthere) hlt l.rounds 0 (Nat.zero_le k)
          (by omega)
      obtain ⟨l1, l2, head, nodes, hstore1, hstore2, hstore3, hmoved, hothers⟩ :=
        hlinked.move hcell hk
      -- the cells behind the stores
      have hcells' : ((sorted ++ cell :: rest).eraseIdx sorted.length).insertIdx k cell =
          placeItem (byItem f) sorted cell ++ rest := by
        rw [hplace, List.eraseIdx_append_of_length_le le_rfl, Nat.sub_self, List.eraseIdx_cons_zero]
        refine List.ext_getElem? fun j ↦ ?_
        have hlong : (sorted.insertIdx k cell).length = sorted.length + 1 :=
          List.length_insertIdx_of_le_length hk.le _
        rw [List.getElem?_insertIdx, List.getElem?_append, List.getElem?_append,
          List.getElem?_append, hlong,
          List.getElem?_insertIdx, List.length_append]
        split_ifs <;> first | rfl | omega | (congr 1; omega)
      rw [hcells'] at hmoved
      have hlong : (placeItem (byItem f) sorted cell).length = sorted.length + 1 := by
        rw [hplace, List.length_insertIdx_of_le_length hk.le]
      have hlink : ∀ j, cellLink (placeItem (byItem f) sorted cell ++ rest) j =
          if j ≤ k then cellLink (sorted ++ cell :: rest) j else if j = k + 1 then .next cell.1
            else if j ≤ sorted.length + 1 then cellLink (sorted ++ cell :: rest) (j - 1)
            else cellLink (sorted ++ cell :: rest) j := by
        intro j
        have hk' : k ≤ ((sorted ++ cell :: rest).eraseIdx sorted.length).length := by
          rw [List.length_eraseIdx_of_lt (by omega)]
          omega
        rw [← hcells', cellLink_insertIdx hk', cellLink_eraseIdx, cellLink_eraseIdx]
        split_ifs <;> first | rfl | omega | (congr 1; omega)
      have hperm : (placeItem (byItem f) sorted cell ++ rest).Perm (sorted ++ cell :: rest) := by
        rw [hplace]
        exact ((List.perm_insertIdx cell sorted hk.le).append_right rest).trans
          List.perm_middle.symm
      obtain ⟨head', nodes', hrun, hsorted, hothers'⟩ :=
        ih rounds { l with head := head, nodes := nodes }
        (placeItem (byItem f) sorted cell) (fun hnil ↦ by rw [hnil] at hlong; simp at hlong) hmoved
        (by rw [List.length_cons] at hrounds; omega) (by rw [hperm.length_eq]; exact hmemory)
      refine ⟨head', nodes', ?_, hsorted, fun p hp ↦ ?_⟩
      · have hsearch' : sortPlace f l cell.2 l.rounds .head =
          .ok (cellLink (sorted ++ cell :: rest) k) := hsearch
        rw [if_pos hless, hsearch']
        simp only [hlinked.deref (show k ≤ (sorted ++ cell :: rest).length by omega), hstore1,
          hstore2, hstore3]
        simp only [cellLink_inj hlinked.nodup (show sorted.length - 1 ≤
          (sorted ++ cell :: rest).length by omega)
          (show k ≤ (sorted ++ cell :: rest).length by omega)]
        rw [hlong, Nat.add_sub_cancel, hlink, hlink, if_neg (show ¬ sorted.length ≤ k by omega),
          if_neg (show ¬ sorted.length + 1 ≤ k by omega),
            if_neg (show ¬ sorted.length + 1 = k + 1 by omega),
          if_pos le_rfl, if_pos (show sorted.length ≤ sorted.length + 1 by omega),
            Nat.add_sub_cancel] at hrun
        rw [hcells]
        split_ifs with hnear
        · rw [if_pos (show sorted.length = k + 1 by omega)] at hrun
          exact hrun
        · rw [if_neg (show ¬ sorted.length = k + 1 by omega)] at hrun
          exact hrun
      · rw [hothers' p fun hmem ↦ hp ((hperm.map Prod.fst).mem_iff.mp hmem)]
        exact hothers p hp
    · have hplace : placeItem (byItem f) sorted cell = sorted ++ [cell] := placeItem_neg hlast hless
      have hsplit : sorted ++ [cell] ++ rest = sorted ++ cell :: rest := by simp
      obtain ⟨head, nodes, hrun, hsorted, hothers⟩ := ih rounds l (sorted ++ [cell]) (by simp)
        (by rw [hsplit]; exact hlinked) (by rw [List.length_cons] at hrounds; omega)
          (by rw [hsplit]; exact hmemory)
      rw [hsplit, List.length_append, List.length_singleton, Nat.add_sub_cancel,
        cellLink_succ hcell] at hrun
      rw [hsplit] at hothers
      rw [if_neg hless, hcells, hplace]
      exact ⟨head, nodes, hrun, hsorted, hothers⟩

/-- The items of the sorted cells are the sorted items. -/
theorem map_sortCells (f : α → α → ℤ) (rest : List (ℕ × α)) :
    ∀ sorted : List (ℕ × α),
      (sortCells f sorted rest).map Prod.snd = (rest.map Prod.snd).foldl (placeItem f)
        (sorted.map Prod.snd) := by
  have hplace : ∀ (sorted : List (ℕ × α)) (cell : ℕ × α),
      (placeItem (byItem f) sorted cell).map Prod.snd =
          placeItem f (sorted.map Prod.snd) cell.2 := by
    intro sorted cell
    cases hlast : sorted.getLast? with
    | none =>
      rw [List.getLast?_eq_none_iff.mp hlast]
      rfl
    | some last =>
      have hlast' : (sorted.map Prod.snd).getLast? = some last.2 := by
        rw [List.getLast?_map, hlast, Option.map_some]
      by_cases hless : f cell.2 last.2 < 0
      · rw [placeItem_pos hlast' hless, placeItem_pos (f := byItem f) hlast hless, List.map_append,
          List.map_cons,
          List.takeWhile_map, List.dropWhile_map]
        rfl
      · rw [placeItem_neg hlast' hless, placeItem_neg (f := byItem f) hlast hless, List.map_append,
          List.map_singleton]
  induction rest with
  | nil => exact fun _ ↦ rfl
  | cons cell rest ih =>
    intro sorted
    rw [List.map_cons, List.foldl_cons, ← hplace]
    exact ih _

/-- A sort of the cells gives all of them. -/
theorem perm_foldl_placeItem {β : Type} (f : β → β → ℤ) (rest : List β) :
    ∀ sorted : List β, (rest.foldl (placeItem f) sorted).Perm (sorted ++ rest) := by
  have hplace : ∀ (sorted : List β) (x : β), (placeItem f sorted x).Perm (sorted ++ [x]) := by
    intro sorted x
    cases hlast : sorted.getLast? with
    | none =>
      rw [List.getLast?_eq_none_iff.mp hlast]
      exact List.Perm.refl _
    | some y =>
      by_cases hless : f x y < 0
      · rw [placeItem_pos hlast hless]
        refine List.perm_middle.trans ?_
        rw [List.takeWhile_append_dropWhile]
        exact (List.perm_append_singleton x sorted).symm
      · rw [placeItem_neg hlast hless]
  induction rest with
  | nil =>
    intro sorted
    rw [List.foldl_nil, List.append_nil]
  | cons x rest ih =>
    intro sorted
    rw [List.foldl_cons]
    refine (ih _).trans (((hplace sorted x).append_right rest).trans ?_)
    rw [List.append_assoc]
    exact List.Perm.refl _

/-- `list_sort` sorts the items and sets all cursors back. -/
theorem listSort_represents {l : LinkedList α} {cells : List (ℕ × α)} {s : ItemList α}
    (h : Represents l cells s)
    (f : α → α → ℤ) : ∃ l' cells', listSort f l = .ok l' ∧ Represents l' cells' (s.sort f) := by
  unfold listSort ItemList.sort
  rw [h.stored.count, h.length_eq]
  by_cases hmany : 1 < toInt s.items.length
  · have hcount := toInt_natCast_le s.items.length
    cases hcells : cells with
    | nil =>
      have hlen := h.length_eq
      rw [hcells, List.length_nil] at hlen
      omega
    | cons cell rest =>
      subst hcells
      have hhead : l.head = some cell.1 := h.stored.linked.head
      obtain ⟨head, nodes, hrun, hlinked, hothers⟩ := sortFrom_ok f rest l.rounds l [cell]
        (List.cons_ne_nil _ _)
        h.stored.linked (by have := h.stored.length_lt_rounds; rw [List.length_cons] at this; omega)
        h.stored.length_lt_rounds
      have hrun' : sortFrom f l.rounds .head (.next cell.1) l = _ := hrun
      have hperm : (sortCells f [cell] rest).Perm (cell :: rest) :=
        perm_foldl_placeItem (byItem f) rest [cell]
      have hsorted : sortItems f s.items = (sortCells f [cell] rest).map Prod.snd := by
        rw [map_sortCells, ← h.items]
        rfl
      rw [if_pos hmany, if_pos hmany, hhead]
      simp only [hrun', bind, Except.bind]
      refine ⟨_, sortCells f [cell] rest, rfl, ⟨⟨hlinked.congr rfl rfl, rfl, ?_, ?_, fun p hp ↦ ?_⟩,
        hsorted.symm, ?_, ?_,
        h.fDel, h.spare⟩⟩
      · change l.count = _
        rw [h.stored.count, hperm.length_eq]
      · exact ((hperm.map Prod.fst).append_right _).trans h.stored.memory
      · have hp' : p ∉ (cell :: rest).map Prod.fst :=
          fun hmem ↦ hp ((hperm.map Prod.fst).mem_iff.mpr hmem)
        exact (hothers p hp').trans (h.stored.unused p hp')
      · change (l.iterators.map fun e ↦ (e.1, (⟨head, .head⟩ : ListIterator))) = _
        rw [h.iterators, List.map_map, List.map_map]
        refine List.map_congr_left fun e _ ↦ ?_
        have hfirst : head = cellAddr (sortCells f [cell] rest) 0 := hlinked.head
        rw [hfirst]
        rfl
      · intro e he
        obtain ⟨old, -, rfl⟩ := List.mem_map.mp he
        exact Cursor.within_start _
  · rw [if_neg hmany, if_neg hmany]
    exact ⟨l, cells, rfl, h⟩

/-! ### Comparison functions that are orders -/

/-- A comparison function as `list.h` asks for it: the signs of both directions fit, and the order
is transitive. -/
structure IsComparison {β : Type} (f : β → β → ℤ) : Prop where
  swap : ∀ x y, f x y < 0 ↔ 0 < f y x
  trans : ∀ x y z, f x y ≤ 0 → f y z ≤ 0 → f x z ≤ 0

/-- Assumes: an order, and three items. What is less than an item is less than all that follow. -/
theorem IsComparison.lt_of_lt_of_le {β : Type} {f : β → β → ℤ} (hf : IsComparison f) {x y z : β}
    (hxy : f x y < 0)
    (hyz : f y z ≤ 0) : f x z < 0 := by
  by_contra hnot
  have hzx : f z x ≤ 0 := not_lt.mp fun hpos ↦ hnot ((hf.swap x z).mpr hpos)
  have hyx := hf.trans y z x hyz hzx
  have hback := (hf.swap x y).mp hxy
  omega

/-- Assumes: an order, and three items. What is at most an item that is less than another is less
than that. -/
theorem IsComparison.lt_of_le_of_lt {β : Type} {f : β → β → ℤ} (hf : IsComparison f) {x y z : β}
    (hxy : f x y ≤ 0)
    (hyz : f y z < 0) : f x z < 0 := by
  by_contra hnot
  have hzx : f z x ≤ 0 := not_lt.mp fun hpos ↦ hnot ((hf.swap x z).mpr hpos)
  have hzy := hf.trans z x y hzx hxy
  have hback := (hf.swap y z).mp hyz
  omega

/-- Assumes: an order and a sorted sequence. With an item put in it is sorted, and the item comes
behind those that it is equal to. -/
theorem placeItem_spec {β : Type} {f : β → β → ℤ} (hf : IsComparison f) {sorted : List β}
    (hsorted : sorted.Pairwise fun x y ↦ f x y ≤ 0) (x : β) :
    ((placeItem f sorted x).Pairwise fun x y ↦ f x y ≤ 0) ∧
      ∀ a, (placeItem f sorted x).filter (fun z ↦ decide (f a z = 0)) =
        (sorted ++ [x]).filter fun z ↦ decide (f a z = 0) := by
  have hle : ∀ a b, 0 ≤ f a b → f b a ≤ 0 := fun a b hab ↦ not_lt.mp fun hpos ↦
    not_le.mpr ((hf.swap a b).mpr hpos) hab
  cases hlast : sorted.getLast? with
  | none =>
    rw [List.getLast?_eq_none_iff.mp hlast]
    exact ⟨List.pairwise_singleton _ _, fun _ ↦ rfl⟩
  | some y =>
    by_cases hless : f x y < 0
    · rw [placeItem_pos hlast hless]
      have hsplit := List.takeWhile_append_dropWhile (p := fun z ↦ decide (0 ≤ f x z)) (l := sorted)
      have hfront : ∀ z ∈ sorted.takeWhile (fun z ↦ decide (0 ≤ f x z)), 0 ≤ f x z := fun z hz ↦ by
        simpa using List.mem_takeWhile_imp hz
      have hback : ∀ z ∈ sorted.dropWhile (fun z ↦ decide (0 ≤ f x z)), f x z < 0 := by
        cases hrest : sorted.dropWhile (fun z ↦ decide (0 ≤ f x z)) with
        | nil => exact fun z hz ↦ absurd hz List.not_mem_nil
        | cons there back =>
          have hthere : f x there < 0 := by
            have hne := List.head_dropWhile_not (fun z ↦ decide (0 ≤ f x z)) (l := sorted)
              (by rw [hrest]; simp)
            simpa [hrest] using hne
          rw [hrest] at hsplit
          rw [← hsplit] at hsorted
          have hlater := (List.pairwise_cons.mp (List.pairwise_append.mp hsorted).2.1).1
          intro z hz
          rcases List.mem_cons.mp hz with rfl | hz
          · exact hthere
          · exact hf.lt_of_lt_of_le hthere (hlater z hz)
      generalize sorted.takeWhile (fun z ↦ decide (0 ≤ f x z)) = front at *
      generalize sorted.dropWhile (fun z ↦ decide (0 ≤ f x z)) = back at *
      subst hsplit
      obtain ⟨hfrontSorted, hbackSorted, hacross⟩ := List.pairwise_append.mp hsorted
      constructor
      · refine List.pairwise_append.mpr ⟨hfrontSorted,
          List.pairwise_cons.mpr ⟨fun z hz ↦ (hback z hz).le, hbackSorted⟩,
          fun z hz w hw ↦ ?_⟩
        rcases List.mem_cons.mp hw with rfl | hw
        · exact hle _ _ (hfront z hz)
        · exact hacross z hz w hw
      · intro a
        by_cases ha : f a x = 0
        · -- what follows is greater than the item, and so not equal to `a`
          have hnone : back.filter (fun z ↦ decide (f a z = 0)) = [] := by
            rw [List.filter_eq_nil_iff]
            intro z hz
            have hlt := hf.lt_of_le_of_lt ha.le (hback z hz)
            simp only [decide_eq_true_eq]
            omega
          simp [List.filter_append, ha, hnone]
        · simp [List.filter_append, ha]
    · rw [placeItem_neg hlast hless]
      refine ⟨List.pairwise_append.mpr ⟨hsorted, List.pairwise_singleton _ _, fun z hz w hw ↦ ?_⟩,
        fun _ ↦ rfl⟩
      rw [List.mem_singleton.mp hw]
      have hyx : f y x ≤ 0 := hle _ _ (not_lt.mp hless)
      obtain ⟨front, hfront⟩ := List.getLast?_eq_some_iff.mp hlast
      rw [hfront] at hsorted hz
      rcases List.mem_append.mp hz with hz | hz
      · exact hf.trans z y x
          ((List.pairwise_append.mp hsorted).2.2 z hz y (List.mem_singleton.mpr rfl)) hyx
      · rwa [List.mem_singleton.mp hz]

/-- Assumes: an order. The sort gives the same items, in order, and those that are equal to one
another in the order in which they were. -/
theorem sortItems_spec {β : Type} {f : β → β → ℤ} (hf : IsComparison f) (items : List β) :
    (sortItems f items).Perm items ∧ ((sortItems f items).Pairwise fun x y ↦ f x y ≤ 0) ∧
      ∀ a, (sortItems f items).filter (fun z ↦ decide (f a z = 0)) = items.filter fun z ↦
        decide (f a z = 0) := by
  have hfold : ∀ (rest sorted : List β), (sorted.Pairwise fun x y ↦ f x y ≤ 0) →
      ((rest.foldl (placeItem f) sorted).Pairwise fun x y ↦ f x y ≤ 0) ∧
        ∀ a, (rest.foldl (placeItem f) sorted).filter (fun z ↦ decide (f a z = 0)) =
          (sorted ++ rest).filter fun z ↦ decide (f a z = 0) := by
    intro rest
    induction rest with
    | nil => exact fun sorted hsorted ↦ ⟨hsorted, fun a ↦ by rw [List.append_nil, List.foldl_nil]⟩
    | cons x rest ih =>
      intro sorted hsorted
      obtain ⟨hplaced, hclass⟩ := placeItem_spec hf hsorted x
      refine ⟨(ih _ hplaced).1, fun a ↦ ?_⟩
      rw [List.foldl_cons, (ih _ hplaced).2 a, List.filter_append, hclass a, ← List.filter_append,
        List.append_assoc]
      rfl
  exact ⟨perm_foldl_placeItem f items [], (hfold items [] List.Pairwise.nil).1,
    (hfold items [] List.Pairwise.nil).2⟩

end Whatsup
