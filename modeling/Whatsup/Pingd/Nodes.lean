import Mathlib.Data.List.Nodup
import Whatsup.CLib.HashTable
import Whatsup.CLib.MachineInt
import Whatsup.CLib.Numeral
import Whatsup.CLib.Outcome
import Whatsup.Common.Timeval

/-!
# The host table of pingd

`_nodes_setup` appends an entry for every configured host to the list `nodes` and files it in the
hash table `nodes_index` under the text of its address. pingd exits if a host cannot be resolved or
if two hosts have one address.

The index holds positions in the list where the source has pointers to the entries.
`PingdNodes.Indexed` is the invariant of the pair: a search for the text of an address finds the
entry with that address. `nodesSetup_ok` says that a table of hosts with pairwise distinct addresses
is set up, with the hosts in their order.
-/

set_option autoImplicit false
set_option relaxedAutoImplicit false

namespace Whatsup

open CLib

/-! ### Addresses -/

/-- `struct in_addr`: the four bytes of an address. -/
structure InAddr where
  byte1 : Fin 256
  byte2 : Fin 256
  byte3 : Fin 256
  byte4 : Fin 256
deriving DecidableEq

/-- The bytes of an address may be written as numerals. -/
instance neZero_256 : NeZero 256 :=
  ⟨by decide⟩

/-- `inet_ntoa`: an address in dotted decimal notation. -/
def inetNtoa (addr : InAddr) : List Char :=
  padded 0 addr.byte1 ++ '.' :: (padded 0 addr.byte2 ++ '.' ::
    (padded 0 addr.byte3 ++ '.' :: padded 0 addr.byte4))

/-- Assumes: two texts that are equal up to a separator behind their numerals. The numbers and what
follows the separators are equal. -/
theorem padded_separator_inj {number number' : ℕ} {rest rest' : List Char}
    (h : padded 0 number ++ '.' :: rest = padded 0 number' ++ '.' :: rest') :
    number = number' ∧ rest = rest' := by
  have htake : ∀ (value : ℕ) (tail : List Char),
      (padded 0 value ++ '.' :: tail).takeWhile Char.isDigit = padded 0 value := fun value tail ↦ by
    rw [List.takeWhile_append_of_pos fun c hc ↦ isDigit_of_mem_padded hc]
    exact List.append_nil _
  have hnumeral : padded 0 number = padded 0 number' := by
    rw [← htake number rest, h, htake]
  rw [hnumeral] at h
  exact ⟨padded_inj hnumeral, (List.cons.inj (List.append_cancel_left h)).2⟩

/-- The text of an address determines the address. -/
theorem inetNtoa_inj {addr addr' : InAddr} (h : inetNtoa addr = inetNtoa addr') : addr = addr' := by
  obtain ⟨h1, h⟩ := padded_separator_inj h
  obtain ⟨h2, h⟩ := padded_separator_inj h
  obtain ⟨h3, h⟩ := padded_separator_inj h
  obtain ⟨byte1, byte2, byte3, byte4⟩ := addr
  obtain rfl := Fin.ext h1
  obtain rfl := Fin.ext h2
  obtain rfl := Fin.ext h3
  obtain rfl := Fin.ext (padded_inj h)
  rfl

/-! ### The table -/

/-- Assumes: a list whose entries have pairwise distinct keys, and the position of a key. Changing
the entry there is changing the entry with that key. -/
theorem modify_eq_map_of_nodup {α κ : Type} [DecidableEq κ] {xs : List α} {key : α → κ}
    {k : κ} {i : ℕ}
    (hxs : (xs.map key).Nodup) (hi : xs[i]?.map key = some k) (f : α → α) :
    xs.modify i f = xs.map fun x ↦ if key x = k then f x else x := by
  refine List.ext_getElem? fun j ↦ ?_
  rw [List.getElem?_modify, List.getElem?_map]
  cases hj : xs[j]? with
  | none => rfl
  | some x =>
    by_cases hij : i = j
    · subst hij
      rw [hj] at hi
      simp only [Option.map_some, Option.some_inj] at hi
      simp [hi]
    · have hlt : i < (xs.map key).length := by
        by_contra hge
        rw [List.length_map] at hge
        rw [List.getElem?_eq_none (not_lt.mp hge)] at hi
        exact absurd hi (by simp)
      have hne : key x ≠ k := by
        rintro rfl
        refine hij ((List.getElem?_inj hlt hxs).mp ?_)
        rw [List.getElem?_map, List.getElem?_map, hi, hj, Option.map_some]
      simp [hij, hne]

/-- `struct pingd_info`. -/
structure PingdInfo where
  hostname : List Char
  destaddr : InAddr
  sequenceNumber : ℕ
  lastReceived : Timeval
deriving DecidableEq

/-- `nodes` and `nodes_index`. -/
structure PingdNodes where
  nodes : List PingdInfo
  nodesIndex : HashTable (List Char) ℕ

/-- The errors at which pingd exits. -/
inductive PingdExit
  | gethostbyname
  | duplicateHostIp
  | hashInsert
  | clockGettime
  | sendto
  | poll
  | recvfrom
  | gettimeofday
  | accept
  | lineTooLong
  | fdWriteN
deriving DecidableEq

/-- The loop body of `_nodes_setup`, for a host and the address that `gethostbyname` finds for
it. -/
def nodesSetupHost (table : PingdNodes) (host : List Char × Option InAddr) :
    Except PingdExit PingdNodes :=
  match host.2 with
  | none => .error .gethostbyname
  | some addr =>
    let info : PingdInfo :=
      { hostname := host.1, destaddr := addr, sequenceNumber := 0, lastReceived := ⟨0, 0⟩ }
    let ip := inetNtoa addr
    if (hashFind hashKeyString table.nodesIndex ip).isSome then .error .duplicateHostIp
    else
      match hashInsert hashKeyString table.nodesIndex ip table.nodes.length with
      | none => .error .hashInsert
      | some index => .ok { nodes := table.nodes ++ [info], nodesIndex := index }

/-- `_nodes_setup`, for the value of `nodes_count` and the names that the iterator over `conf.hosts`
yields, each with the answer of `gethostbyname`. -/
def nodesSetup (nodesCount : ℕ) (hosts : List (List Char × Option InAddr)) :
    Except PingdExit PingdNodes :=
  hosts.foldlM nodesSetupHost { nodes := [], nodesIndex := hashCreate nodesCount }

/-- The invariant of the table: a search for the text of an address finds the entry with that
address. -/
structure PingdNodes.Indexed (table : PingdNodes) : Prop where
  buckets : table.nodesIndex.buckets ≠ []
  found : ∀ addr i, hashFind hashKeyString table.nodesIndex (inetNtoa addr) = some i ↔
    table.nodes[i]?.map PingdInfo.destaddr = some addr

/-- An address is not found exactly when no entry has it. -/
theorem PingdNodes.Indexed.hashFind_eq_none_iff {table : PingdNodes} (h : table.Indexed)
    {addr : InAddr} :
    hashFind hashKeyString table.nodesIndex (inetNtoa addr) = none ↔
      addr ∉ table.nodes.map PingdInfo.destaddr := by
  rw [Option.eq_none_iff_forall_ne_some, ← not_exists, not_iff_not, List.mem_iff_getElem?]
  refine exists_congr fun i ↦ ?_
  rw [h.found, List.getElem?_map]

/-- Assumes: an indexed table and a host at an address that no entry has. The host is appended, and
the new table is indexed. -/
theorem nodesSetupHost_ok {table : PingdNodes} (h : table.Indexed) (host : List Char)
    {addr : InAddr}
    (haddr : addr ∉ table.nodes.map PingdInfo.destaddr) :
    ∃ table', nodesSetupHost table (host, some addr) = .ok table' ∧ table'.Indexed ∧
      table'.nodes = table.nodes ++ [⟨host, addr, 0, ⟨0, 0⟩⟩] := by
  have hnone := h.hashFind_eq_none_iff.mpr haddr
  obtain ⟨index, hinsert⟩ := exists_hashInsert hnone table.nodes.length
  obtain ⟨hbuckets, hfind⟩ := hashFind_hashInsert h.buckets hinsert
  refine ⟨⟨table.nodes ++ [⟨host, addr, 0, ⟨0, 0⟩⟩], index⟩, ?_, ⟨hbuckets, fun other i ↦ ?_⟩, rfl⟩
  · simp [nodesSetupHost, hnone, hinsert]
  · rw [hfind]
    by_cases hother : other = addr
    · subst hother
      rw [if_pos rfl, Option.some_inj]
      constructor
      · rintro rfl
        simp
      · intro hentry
        rcases lt_trichotomy i table.nodes.length with hlt | rfl | hgt
        · rw [List.getElem?_append_left hlt, ← List.getElem?_map] at hentry
          exact absurd (List.mem_of_getElem? hentry) haddr
        · rfl
        · rw [List.getElem?_eq_none (by simpa using Nat.succ_le_of_lt hgt)] at hentry
          exact absurd hentry (by simp)
    · rw [if_neg fun htext ↦ hother (inetNtoa_inj htext), h.found]
      rcases lt_trichotomy i table.nodes.length with hlt | rfl | hgt
      · rw [List.getElem?_append_left hlt]
      · simp [Ne.symm hother]
      · rw [List.getElem?_eq_none hgt.le,
          List.getElem?_eq_none (by simpa using Nat.succ_le_of_lt hgt)]

/-- Assumes: hosts with pairwise distinct addresses. They are set up in their order, and the table
is indexed. -/
theorem nodesSetup_ok (nodesCount : ℕ) {hosts : List (List Char × InAddr)}
    (hhosts : (hosts.map Prod.snd).Nodup) :
    ∃ table, nodesSetup nodesCount (hosts.map fun host ↦ (host.1, some host.2)) = .ok table ∧
      table.Indexed ∧ table.nodes = hosts.map fun host ↦ ⟨host.1, host.2, 0, ⟨0, 0⟩⟩ := by
  unfold nodesSetup
  rw [List.foldlM_map]
  refine exists_foldlM_ok (fun (done : List (List Char × InAddr)) (table : PingdNodes) ↦
    table.Indexed ∧
    table.nodes = done.map fun host ↦ ⟨host.1, host.2, 0, ⟨0, 0⟩⟩) [] ?_ ⟨⟨?_, ?_⟩, rfl⟩
  · rintro before host after table hsplit ⟨hindexed, hnodes⟩
    have haddr : host.2 ∉ table.nodes.map PingdInfo.destaddr := by
      rw [hnodes, List.map_map]
      rw [← List.nil_append hosts, hsplit, List.map_append, List.map_cons] at hhosts
      exact fun hmem ↦ List.disjoint_of_nodup_append hhosts hmem List.mem_cons_self
    obtain ⟨table', hstep, hindexed', hnodes'⟩ := nodesSetupHost_ok hindexed host.1 haddr
    refine ⟨table', hstep, hindexed', ?_⟩
    rw [hnodes', hnodes, List.map_append]
    rfl
  · exact buckets_hashCreate_ne_nil nodesCount
  · exact fun addr i ↦ by simp [hashFind_hashCreate]

end Whatsup
