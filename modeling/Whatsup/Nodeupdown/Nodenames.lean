import Whatsup.Nodeupdown.LoadedLists

/-!
# Node strings and their names

The hostsfile module looks a node up, and names it, by the part of its string in front of the first
dot. Whether there is a dot is asked of the whole string, and where it is of a copy of its first 64
characters. `namedRight_iff` says for which strings that goes well: those with a dot in that copy,
and those without a dot whose length, kept in an `int`, is not taken for that of a name that fits in
the buffer.
-/

set_option autoImplicit false
set_option relaxedAutoImplicit false

namespace Whatsup

open CLib

/-- For a module with these hosts a node string is looked up by the part in front of its first dot,
and that part is its name, or too long for the buffer. -/
def World.NamedRight (hosts : List (List Char)) (node : List Char) (w : World) : Prop :=
  hostsfileClusterlistIsNodeInCluster node w =
    .ok (some (decide (node.takeWhile (· ≠ '.') ∈ hosts)), w) ∧
    hostsfileClusterlistGetNodename node w =
      if (node.takeWhile (· ≠ '.')).length ≤ 64 then .ok (some (node.takeWhile (· ≠ '.')), w)
      else .ok (none, w.setErrnum .internal)

/-- The strings for which that is so: if there is a dot, it is in the copy, and if there is none,
the length passes the check of the copy into the buffer only if there is room. -/
def Nameable (node : List Char) : Prop :=
  if '.' ∈ node then '.' ∈ node.take 64 else node.length ≤ 64 ∨ 65 < (node.length + 1) % 4294967296

instance (node : List Char) : Decidable (Nameable node) :=
  inferInstanceAs (Decidable (if '.' ∈ node then '.' ∈ node.take 64 else
    node.length ≤ 64 ∨ 65 < (node.length + 1) % 4294967296))

/-- A string is cut at its first dot alike in a copy that has the dot. -/
theorem takeWhile_of_mem_take {node : List Char} {room : ℕ} (hcopied : '.' ∈ node.take room) :
    node.takeWhile (· ≠ '.') = (node.take room).takeWhile (· ≠ '.') := by
  have hcut : ((node.take room).takeWhile (· ≠ '.')).length ≠ (node.take room).length :=
      fun hwhole ↦ by
    have hall := (List.takeWhile_prefix (· ≠ '.')).eq_of_length hwhole
    rw [List.takeWhile_eq_self_iff] at hall
    exact absurd (hall '.' hcopied) (by decide)
  conv_lhs => rw [← List.take_append_drop room node, List.takeWhile_append, if_neg hcut]

/-- The short form of a string with a dot, if that is found in the copy. -/
theorem shortNodename_dot {node : List Char} (hdot : '.' ∈ node) :
    shortNodename node = if '.' ∈ node.take 64 then some (node.takeWhile (· ≠ '.')) else none := by
  rw [shortNodename, if_pos hdot]
  by_cases hcopied : '.' ∈ node.take 64
  · simp only [if_pos hcopied, takeWhile_of_mem_take hcopied]
  · simp only [if_neg hcopied]

/-- The short form of a string without a dot is the string. -/
theorem shortNodename_whole {node : List Char} (hdot : '.' ∉ node) :
    shortNodename node = some (node.takeWhile (· ≠ '.')) := by
  rw [shortNodename, if_neg hdot, takeWhile_ne_eq_self hdot]

section

variable {hosts : List (List Char)} {node : List Char} {w : World}

/-- Assumes: a module with hosts. A string without a short form is a fault, and any other is looked
up by it. -/
theorem isNodeInCluster_shortNodename (hhosts : w.lib.hosts = some hosts) (hne : hosts ≠ []) :
    hostsfileClusterlistIsNodeInCluster node w =
      match shortNodename node with
      | none => .error .nullPointer
      | some nodename => .ok (some (decide (nodename ∈ hosts)), w) := by
  have hread : hostsfileHosts w = .ok (some hosts, w) := by rw [hostsfileHosts, hhosts]
  unfold hostsfileClusterlistIsNodeInCluster
  rw [attempt_bind_ok hread, if_neg hne]
  cases hshort : shortNodename node with
  | none => exact attempt_bind_error (by rw [shorten, hshort]; rfl)
  | some nodename =>
    have hshorten : shorten node w = .ok (some nodename, w) := by rw [shorten, hshort]; rfl
    rw [attempt_bind_ok hshorten]
    have hfound : hosts.contains nodename = decide (nodename ∈ hosts) := by simp
    rw [hfound]
    rfl

/-- A string without a short form is a fault, and any other is copied in it. -/
theorem getNodename_shortNodename :
    hostsfileClusterlistGetNodename node w =
      match shortNodename node with
      | none => .error .nullPointer
      | some nodename => clusterlistCopyNodename nodename w := by
  unfold hostsfileClusterlistGetNodename
  cases hshort : shortNodename node with
  | none => exact attempt_bind_error (by rw [shorten, hshort]; rfl)
  | some nodename =>
    have hshorten : shorten node w = .ok (some nodename, w) := by rw [shorten, hshort]; rfl
    rw [attempt_bind_ok hshorten]

/-- A name that does not fit in the buffer is an error, or goes past it. -/
theorem clusterlistCopyNodename_long (hlong : 64 < node.length) :
    clusterlistCopyNodename node w =
      if 65 < (node.length + 1) % 4294967296 then .ok (none, w.setErrnum .internal) else .error
        .overflow := by
  have hlength : toUint (toInt node.length + 1) = (node.length + 1) % 4294967296 := by
    rw [toUint_toInt_add]
    rfl
  rw [clusterlistCopyNodename, hlength, if_pos (show 65 < node.length + 1 by omega)]
  split_ifs <;> rfl

/-- Assumes: a hostsfile module with hosts. A node string is looked up and named by the part in
front of its first dot exactly if a dot that it has is among its first 64 characters, and it has
one, or at most 64 characters, or a length that is not taken for that of a name that fits. -/
theorem namedRight_iff (hhosts : w.lib.hosts = some hosts) (hne : hosts ≠ []) :
    w.NamedRight hosts node ↔ Nameable node := by
  unfold World.NamedRight Nameable
  rw [isNodeInCluster_shortNodename hhosts hne, getNodename_shortNodename]
  by_cases hdot : '.' ∈ node
  · rw [if_pos hdot, shortNodename_dot hdot]
    by_cases hcopied : '.' ∈ node.take 64
    · have hlength : (node.takeWhile (· ≠ '.')).length ≤ 64 := by
        rw [takeWhile_of_mem_take hcopied]
        exact (List.takeWhile_prefix _).length_le.trans (List.length_take_le 64 node)
      rw [if_pos hcopied, if_pos hlength]
      exact iff_of_true ⟨rfl, clusterlistCopyNodename_eq hlength w⟩ hcopied
    · rw [if_neg hcopied]
      exact iff_of_false (fun h ↦ absurd h.1 (by simp)) hcopied
  · rw [if_neg hdot, shortNodename_whole hdot, takeWhile_ne_eq_self hdot]
    by_cases hfits : node.length ≤ 64
    · rw [if_pos hfits]
      exact iff_of_true ⟨rfl, clusterlistCopyNodename_eq hfits w⟩ (Or.inl hfits)
    · rw [if_neg hfits]
      simp only [true_and, hfits, false_or, clusterlistCopyNodename_long (not_le.mp hfits)]
      split_ifs with hcheck
      · exact iff_of_true rfl hcheck
      · exact iff_of_false (by simp) hcheck

end

/-- The hostsfile module with one host. -/
def oneHostWorld : World :=
  startWorld.setLib { Library.unused with hosts := some ["n1".toList] }

/-- A node string with a domain. -/
theorem namedRight_iff_domain : oneHostWorld.NamedRight ["n1".toList] "n1.net".toList :=
  (namedRight_iff rfl (by decide)).mpr (by decide)

/-- A dot behind the first 64 characters is not found in the copy. -/
theorem not_namedRight_longName :
    ¬oneHostWorld.NamedRight ["n1".toList] (List.replicate 64 'n' ++ ".net".toList) := by
  rintro ⟨hlookup, -⟩
  have hfault : hostsfileClusterlistIsNodeInCluster (List.replicate 64 'n' ++ ".net".toList)
    oneHostWorld =
      .error .nullPointer := rfl
  exact absurd (hfault.symm.trans hlookup) (by simp)

end Whatsup
