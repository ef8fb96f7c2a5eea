import Whatsup.CLib.Cursor
import Whatsup.Common.List

/-!
# What a list with iterators is for

The abstract list: a sequence of items, and cursors that others' insertions and removals leave in
their places. There are no nodes and no pointers; of the memory it is known only how many cells are
spare, since that decides whether a call that inserts can fail.

`ItemList.call` is what each call of `src/libcommon/list.h` means for such a list. It is undefined
where an iterator is used that is not one of the list.
-/

set_option autoImplicit false
set_option relaxedAutoImplicit false

namespace Whatsup

open CLib

/-- A sequence of items with cursors. -/
structure ItemList (α : Type) where
  items : List α
  cursors : List (ℕ × Cursor)
  fDel : Bool
  spare : ℕ

/-- The empty sequence. -/
def ItemList.empty {α : Type} (fDel : Bool) : ItemList α :=
  ⟨[], [], fDel, 0⟩

variable {α : Type}

/-- An item is inserted at a position, if there is a cell for it. -/
def ItemList.insertAt (memory : Bool) (m : ℕ) (x : α) (s : ItemList α) : Option α × ItemList α :=
  if s.spare = 0 ∧ memory = false then (none, s)
  else (some x, { s with
    items := s.items.insertIdx m x
    cursors := s.cursors.map fun e ↦ (e.1, e.2.inserted m)
    spare := (if s.spare = 0 then listAlloc else s.spare) - 1 })

/-- The item at a position is taken out. -/
def ItemList.eraseAt (m : ℕ) (s : ItemList α) : Option α × ItemList α :=
  match s.items[m]? with
  | none => (none, s)
  | some x => (some x, { s with
    items := s.items.eraseIdx m
    cursors := s.cursors.map fun e ↦ (e.1, e.2.erased m)
    spare := s.spare + 1 })

/-- The items of a rest that starts at a position are taken out if they have a property. -/
def ItemList.eraseAll (f : α → Bool) : List α → ℕ → ItemList α → List α × ItemList α
  | [], _, s => ([], s)
  | x :: rest, m, s =>
    if f x then
      let (gone, s) := eraseAll f rest m (s.eraseAt m).2
      (x :: gone, s)
    else eraseAll f rest (m + 1) s

/-- The answer of `list_for_each`: the number of items up to the first that is answered with a
negative number, which makes the answer negative, or else of all. -/
def forEachCount (f : α → ℤ) : List α → ℤ → ℤ
  | [], n => n
  | x :: rest, n => if f x < 0 then toInt (-toInt (n + 1)) else forEachCount f rest (toInt (n + 1))

/-- An item is put into a sequence that is sorted: behind the last item unless it is less than that,
and then in front of the first item that it is less than. -/
def placeItem (f : α → α → ℤ) (sorted : List α) (x : α) : List α :=
  match sorted.getLast? with
  | none => [x]
  | some y =>
    if f x y < 0 then sorted.takeWhile (fun z ↦ decide (0 ≤ f x z)) ++ x ::
      sorted.dropWhile (fun z ↦ decide (0 ≤ f x z))
    else sorted ++ [x]

/-- The items, one by one put into a sorted sequence. -/
def sortItems (f : α → α → ℤ) (items : List α) : List α :=
  items.foldl (placeItem f) []

/-- A sort sets all cursors back. -/
def ItemList.sort (f : α → α → ℤ) (s : ItemList α) : ItemList α :=
  if 1 < toInt s.items.length then
    { s with items := sortItems f s.items, cursors := s.cursors.map fun e ↦ (e.1, Cursor.start) }
  else s

/-- The list with another value of one cursor. -/
def ItemList.setCursor (s : ItemList α) (id : ℕ) (c : Cursor) : ItemList α :=
  { s with cursors := s.cursors.map fun e ↦ if e.1 = id then (id, c) else e }

/-- The next item of a cursor, and the cursor behind it. -/
def nextItem (items : List α) (c : Cursor) : Option α × Cursor :=
  (items[c.pos]?, c.advance items.length)

/-- The next item of a cursor that has a property, and the cursor behind it. -/
def findItem (f : α → Bool) (items : List α) (c : Cursor) : Option α × Cursor :=
  match (items.drop c.pos).findIdx? f with
  | none => (none, ⟨items.length, false⟩)
  | some k => (items[c.pos + k]?, ⟨c.pos + k + 1, true⟩)

/-- The item that a cursor gave last is taken out. -/
def ItemList.removeHeld (s : ItemList α) (c : Cursor) : Option α × ItemList α :=
  if c.held then s.eraseAt c.link else (none, s)

/-- What a call means. -/
def ItemList.call (s : ItemList α) : ListCall α → Option (ListAnswer α × ItemList α)
  | .append memory x => some (Prod.map .ofData id (s.insertAt memory s.items.length x))
  | .prepend memory x => some (Prod.map .ofData id (s.insertAt memory 0 x))
  | .pop => some (Prod.map .ofData id (s.eraseAt 0))
  | .peek => some (.ofData s.items.head?, s)
  | .isEmpty => some (.ofNumber (if toInt s.items.length = 0 then 1 else 0), s)
  | .count => some (.ofNumber (toInt s.items.length), s)
  | .findFirst f => some (.ofData (s.items.find? f), s)
  | .deleteAll f => some (Prod.map (.ofGone s.fDel) id (ItemList.eraseAll f s.items 0 s))
  | .forEach f => some (.ofNumber (forEachCount f s.items 0), s)
  | .sort f => some (.ofNumber 0, s.sort f)
  | .iteratorCreate i =>
    if (s.cursors.lookup i).isSome then none
    else some (.ofNumber 0, { s with cursors := (i, Cursor.start) :: s.cursors })
  | .iteratorReset i => do
    let _ ← s.cursors.lookup i
    return (.ofNumber 0, s.setCursor i Cursor.start)
  | .iteratorDestroy i => do
    let _ ← s.cursors.lookup i
    return (.ofNumber 0, { s with cursors := s.cursors.filter fun e ↦ e.1 ≠ i })
  | .next i => do
    let c ← s.cursors.lookup i
    let (data, c) := nextItem s.items c
    return (.ofData data, s.setCursor i c)
  | .insert memory i x => do
    let c ← s.cursors.lookup i
    return Prod.map .ofData id (s.insertAt memory c.link x)
  | .find f i => do
    let c ← s.cursors.lookup i
    let (data, c) := findItem f s.items c
    return (.ofData data, s.setCursor i c)
  | .remove i => do
    let c ← s.cursors.lookup i
    return Prod.map .ofData id (s.removeHeld c)
  | .delete i => do
    let c ← s.cursors.lookup i
    return Prod.map (fun data ↦ .ofGone s.fDel data.toList) id (s.removeHeld c)

/-- A run of calls. -/
def ItemList.run (s : ItemList α) : List (ListCall α) → Option (List (ListAnswer α) × ItemList α)
  | [] => some ([], s)
  | call :: calls => do
    let (answer, s) ← s.call call
    let (answers, s) ← run s calls
    return (answer :: answers, s)

end Whatsup
