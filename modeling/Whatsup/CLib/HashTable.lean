import Mathlib.Data.List.Basic
import Mathlib.Tactic.Common
import Whatsup.CLib.MachineInt

/-!
# Chained hash tables

A table of buckets, each a list of keys with their data, newest first. A key is kept in the bucket
that its hash value selects. An insertion fails if the key is there already.

`hashFind_hashInsert` is the rule of use: behind an insertion a search finds the new data under the
new key, and what it found before under every other key.
-/

set_option autoImplicit false
set_option relaxedAutoImplicit false

namespace CLib

/-- A table of buckets. -/
structure HashTable (κ β : Type) where
  buckets : List (List (κ × β))

/-- `hash_key_string`: the hash value of a string. -/
def hashKeyString (str : List Char) : ℕ :=
  str.foldl (fun hval c ↦ toUint (hval + (31 * hval + c.toNat))) 0

section

variable {κ β : Type}

/-- An empty table of a size, or of a default size if that is zero. -/
def hashCreate (size : ℕ) : HashTable κ β :=
  { buckets := List.replicate (if size = 0 then 1213 else size) [] }

/-- A new table has buckets. -/
theorem buckets_hashCreate_ne_nil (size : ℕ) : (hashCreate size : HashTable κ β).buckets ≠ [] := by
  refine List.ne_nil_of_length_pos ?_
  rw [hashCreate, List.length_replicate]
  split_ifs with hsize
  · exact Nat.succ_pos _
  · exact Nat.pos_of_ne_zero hsize

variable [DecidableEq κ] (hash : κ → ℕ)

/-- The bucket of a key. -/
def HashTable.slot (table : HashTable κ β) (key : κ) : ℕ :=
  hash key % table.buckets.length

/-- The data under a key. -/
def hashFind (table : HashTable κ β) (key : κ) : Option β :=
  ((table.buckets.getD (table.slot hash key) []).find? fun node ↦ node.1 = key).map Prod.snd

/-- The table with new data under a key, unless there are data under the key already. -/
def hashInsert (table : HashTable κ β) (key : κ) (data : β) : Option (HashTable κ β) :=
  if (hashFind hash table key).isSome then none
  else some { buckets := table.buckets.modify (table.slot hash key) ((key, data) :: ·) }

variable {hash}

/-- A new table has no data. -/
theorem hashFind_hashCreate (size : ℕ) (key : κ) :
    hashFind hash (hashCreate size : HashTable κ β) key = none := by
  unfold hashFind hashCreate
  rw [List.getD_eq_getElem?_getD, List.getElem?_replicate]
  split_ifs <;> rfl

/-- A table whose buckets are all empty has no data. -/
theorem hashFind_of_isEmpty {table : HashTable κ β}
    (h : table.buckets.all List.isEmpty = true) (key : κ) :
    hashFind hash table key = none := by
  have hbucket : table.buckets.getD (table.slot hash key) [] = [] := by
    rw [List.getD_eq_getElem?_getD]
    cases hget : table.buckets[table.slot hash key]? with
    | none => rfl
    | some bucket =>
      exact List.isEmpty_iff.mp (List.all_eq_true.mp h bucket (List.mem_of_getElem? hget))
  rw [hashFind, hbucket]
  rfl

/-- Assumes: a table without data under a key. An insertion under the key succeeds. -/
theorem exists_hashInsert {table : HashTable κ β} {key : κ} (h : hashFind hash table key = none)
    (data : β) : ∃ table', hashInsert hash table key data = some table' :=
  ⟨_, if_neg (by simp [h])⟩

/-- Assumes: an insertion into a table with buckets. The new table has buckets, and a search finds
the new data under the new key and the old data under the others. -/
theorem hashFind_hashInsert {table table' : HashTable κ β} {key : κ} {data : β}
    (hbuckets : table.buckets ≠ []) (h : hashInsert hash table key data = some table') :
    table'.buckets ≠ [] ∧ ∀ key', hashFind hash table' key' =
      if key' = key then some data else hashFind hash table key' := by
  unfold hashInsert at h
  split_ifs at h
  obtain rfl := Option.some.inj h
  refine ⟨by simpa using hbuckets, fun key' ↦ ?_⟩
  have hlt : table.slot hash key < table.buckets.length :=
    Nat.mod_lt _ (List.length_pos_of_ne_nil hbuckets)
  unfold hashFind
  have hslot : HashTable.slot hash
      { buckets := table.buckets.modify (table.slot hash key) ((key, data) :: ·) } key' =
      table.slot hash key' := by
    unfold HashTable.slot
    rw [List.length_modify]
  rw [hslot, List.getD_eq_getElem?_getD, List.getD_eq_getElem?_getD, List.getElem?_modify]
  by_cases hkey : key' = key
  · rw [if_pos hkey, hkey, List.getElem?_eq_getElem hlt]
    simp
  · have hskip : ∀ bucket : List (κ × β),
        ((key, data) :: bucket).find? (fun node ↦ node.1 = key') =
          bucket.find? fun node ↦ node.1 = key' := fun bucket ↦
      List.find?_cons_of_neg (by simpa using Ne.symm hkey)
    rw [if_neg hkey]
    cases table.buckets[table.slot hash key']? with
    | none => rfl
    | some bucket =>
      by_cases hsame : table.slot hash key = table.slot hash key'
      · simp [hsame, hskip]
      · simp [hsame]

end

end CLib
