import Mathlib.Data.List.InsertIdx
import Mathlib.Tactic.Common

/-!
# Sequences with cursors

A cursor goes through a sequence while items are inserted and erased, by itself and by others. It
knows the position of the next item, and whether the item before it is the one that it gave last.
`Cursor.inserted` and `Cursor.erased` say where a cursor stands behind an insertion and a removal.

`drop_inserted` and `drop_erased` say what that does to the items ahead of a cursor: an insertion in
front of the item given last and a removal of what is passed leave them alone, and all else happens
among them. So the items with some property that is never inserted and never erased are gone through
as if nothing had happened (`filter_drop_inserted`, `filter_drop_erased`).
-/

set_option autoImplicit false
set_option relaxedAutoImplicit false

namespace CLib

/-- A cursor: the position of the next item, and whether the item before it was given last and is
still there. -/
structure Cursor where
  pos : ℕ
  held : Bool
deriving DecidableEq

namespace Cursor

/-- A cursor in front of the first item. -/
def start : Cursor :=
  ⟨0, false⟩

/-- The position of the item that was given last, or of the next item if there is none such. -/
def link (c : Cursor) : ℕ :=
  c.pos - c.held.toNat

/-- What holds of every cursor on a sequence of so many items. -/
structure Within (c : Cursor) (size : ℕ) : Prop where
  pos_le : c.pos ≤ size
  held_pos : c.held = true → 0 < c.pos

/-- The cursor behind the next item; at the end it lets go of the last item. -/
def advance (size : ℕ) (c : Cursor) : Cursor :=
  if c.pos < size then ⟨c.pos + 1, true⟩ else ⟨c.pos, false⟩

/-- The cursor when an item is inserted at a position. -/
def inserted (m : ℕ) (c : Cursor) : Cursor :=
  if m ≤ c.link then ⟨c.pos + 1, c.held⟩ else c

/-- The cursor when the item at a position is erased. -/
def erased (m : ℕ) (c : Cursor) : Cursor :=
  if m < c.link then ⟨c.pos - 1, c.held⟩ else if m ≤ c.pos then ⟨m, false⟩ else c

/-! ### Positions -/

/-- The next item is the one the link leads to, or the one behind it. -/
theorem link_cases {c : Cursor} {size : ℕ} (hwithin : c.Within size) :
    c.held = false ∧ c.link = c.pos ∨ c.held = true ∧ c.link + 1 = c.pos := by
  unfold link
  cases hheld : c.held with
  | false => exact Or.inl ⟨rfl, Nat.sub_zero _⟩
  | true =>
    have hpos := hwithin.held_pos hheld
    refine Or.inr ⟨rfl, ?_⟩
    rw [Bool.toNat_true]
    omega

/-- A cursor in front of the first item is within every sequence. -/
theorem within_start (size : ℕ) : start.Within size :=
  ⟨Nat.zero_le _, fun h ↦ Bool.noConfusion h⟩

/-- Going on keeps a cursor within its sequence. -/
theorem Within.advance {c : Cursor} {size : ℕ} (hwithin : c.Within size) :
    (c.advance size).Within size := by
  unfold Cursor.advance
  split_ifs with hlt
  · exact ⟨hlt, fun _ ↦ Nat.succ_pos _⟩
  · exact ⟨hwithin.pos_le, fun h ↦ Bool.noConfusion h⟩

/-- An insertion keeps a cursor within the longer sequence. -/
theorem Within.inserted {c : Cursor} {size : ℕ} (hwithin : c.Within size) (m : ℕ) :
    (c.inserted m).Within (size + 1) := by
  have hle := hwithin.pos_le
  unfold Cursor.inserted
  split_ifs
  · exact ⟨by dsimp only; omega, fun _ ↦ Nat.succ_pos _⟩
  · exact ⟨by omega, hwithin.held_pos⟩

/-- Assumes: an item of the sequence. Its removal keeps a cursor within the shorter sequence. -/
theorem Within.erased {c : Cursor} {size m : ℕ} (hwithin : c.Within size) (hm : m < size) :
    (c.erased m).Within (size - 1) := by
  have hle := hwithin.pos_le
  have hlink := link_cases hwithin
  unfold Cursor.erased
  split_ifs with hbefore hthere
  · refine ⟨by dsimp only; omega, fun hheld ↦ ?_⟩
    dsimp only at hheld ⊢
    rw [hheld] at hlink
    simp only [Bool.true_eq_false, false_and, true_and, false_or] at hlink
    omega
  · exact ⟨by dsimp only; omega, fun h ↦ Bool.noConfusion h⟩
  · exact ⟨by omega, hwithin.held_pos⟩

/-- Assumes: a cursor within a sequence. Where its link leads behind an insertion. -/
theorem link_inserted {c : Cursor} {size : ℕ} (hwithin : c.Within size) (m : ℕ) :
    (c.inserted m).link = if m ≤ c.link then c.link + 1 else c.link := by
  rcases link_cases hwithin with ⟨hheld, hlink⟩ | ⟨hheld, hlink⟩
  · unfold Cursor.inserted
    split_ifs
    · simp only [link, hheld, Bool.toNat_false] at *
      omega
    · rfl
  · unfold Cursor.inserted
    split_ifs
    · simp only [link, hheld, Bool.toNat_true] at *
      omega
    · rfl

/-- Assumes: a cursor within a sequence. Where its link leads behind a removal. -/
theorem link_erased {c : Cursor} {size : ℕ} (hwithin : c.Within size) (m : ℕ) :
    (c.erased m).link = if m < c.link then c.link - 1 else if m ≤ c.pos then m else c.link := by
  rcases link_cases hwithin with ⟨hheld, hlink⟩ | ⟨hheld, hlink⟩
  · unfold Cursor.erased
    split_ifs
    · simp only [link, hheld, Bool.toNat_false] at *
      omega
    · rfl
    · rfl
  · unfold Cursor.erased
    split_ifs
    · simp only [link, hheld, Bool.toNat_true]
    · rfl
    · rfl

/-! ### The items ahead -/

variable {α : Type}

/-- Assumes: a cursor and a position within a sequence. The items ahead of the cursor behind an
insertion there. -/
theorem drop_inserted {c : Cursor} {items : List α} (hwithin : c.Within items.length)
    (m : ℕ) (x : α) :
    (items.insertIdx m x).drop (c.inserted m).pos =
      if m ≤ c.link then items.drop c.pos else (items.drop c.pos).insertIdx (m - c.pos) x := by
  have hle := hwithin.pos_le
  have hlink := link_cases hwithin
  unfold Cursor.inserted
  split_ifs with hm
  · refine List.ext_getElem? fun i ↦ ?_
    rw [List.getElem?_drop, List.getElem?_drop, List.getElem?_insertIdx_of_gt (by
      dsimp only; omega)]
    exact congrArg (items[·]?) (by dsimp only; omega)
  · obtain ⟨k, rfl⟩ : ∃ k, m = c.pos + k := ⟨m - c.pos, by omega⟩
    refine List.ext_getElem? fun i ↦ ?_
    rw [List.getElem?_drop, List.getElem?_insertIdx, List.getElem?_insertIdx, List.length_drop,
      Nat.add_sub_cancel_left]
    simp only [List.getElem?_drop]
    split_ifs <;> first | omega | rfl | exact congrArg (items[·]?) (by omega)

/-- Assumes: a cursor within a sequence. The items ahead of the cursor behind a removal. -/
theorem drop_erased {c : Cursor} {items : List α} (hwithin : c.Within items.length) (m : ℕ) :
    (items.eraseIdx m).drop (c.erased m).pos =
      if c.pos ≤ m then (items.drop c.pos).eraseIdx (m - c.pos) else items.drop c.pos := by
  have hlink := link_cases hwithin
  refine List.ext_getElem? fun i ↦ ?_
  rw [List.getElem?_drop, List.getElem?_eraseIdx]
  unfold Cursor.erased
  split_ifs with hbefore hpast hlater hthere hpast' hlater' hpast'' hlater''
  all_goals simp only [List.getElem?_drop, List.getElem?_eraseIdx] at *
  all_goals try split_ifs
  all_goals first | omega | rfl | exact congrArg (items[·]?) (by omega)

/-- Assumes: an item without a property. Inserting it ahead of a cursor or behind it leaves the
items ahead with the property as they are. -/
theorem filter_drop_inserted {c : Cursor} {items : List α} (hwithin : c.Within items.length)
    {p : α → Bool} {x : α}
    (hx : p x = false) (m : ℕ) :
    ((items.insertIdx m x).drop (c.inserted m).pos).filter p = (items.drop c.pos).filter p := by
  have hinsert : ∀ (k : ℕ) (later : List α), (later.insertIdx k x).filter p = later.filter p := by
    intro k
    induction k with
    | zero => exact fun later ↦ List.filter_cons_of_neg (by simp [hx])
    | succ k ih =>
      intro later
      cases later with
      | nil => rfl
      | cons y later => rw [List.insertIdx_succ_cons, List.filter_cons, List.filter_cons, ih later]
  rw [drop_inserted hwithin]
  split_ifs
  · rfl
  · exact hinsert _ _

/-- Assumes: an item without a property. Erasing it leaves the items ahead with the property as they
are. -/
theorem filter_drop_erased {c : Cursor} {items : List α} (hwithin : c.Within items.length)
    {p : α → Bool} {m : ℕ}
    (hm : ∀ x ∈ items[m]?, p x = false) :
    ((items.eraseIdx m).drop (c.erased m).pos).filter p = (items.drop c.pos).filter p := by
  have herase : ∀ (later : List α) (k : ℕ), (∀ x ∈ later[k]?, p x = false) →
      (later.eraseIdx k).filter p = later.filter p := by
    intro later
    induction later with
    | nil => exact fun _ _ ↦ rfl
    | cons y later ih =>
      intro k hk
      cases k with
      | zero =>
        rw [List.eraseIdx_cons_zero, List.filter_cons_of_neg (by simp [hk y (by simp)])]
      | succ k =>
        rw [List.eraseIdx_cons_succ, List.filter_cons, List.filter_cons, ih k (by simpa using hk)]
  rw [drop_erased hwithin]
  split_ifs with hlater
  · refine herase _ _ fun x hx ↦ hm x ?_
    rwa [List.getElem?_drop, Nat.add_sub_cancel' hlater] at hx
  · rfl

end Cursor

end CLib
