import Whatsup.Nodeupdown.Module

/-!
# The hostsfile clusterlist module

The functions of `nodeupdown_clusterlist_hostsfile.c`: reading the file line by line into the list
`hosts`, and looking a node up in that list by its name up to the first dot.

A line is taken as it stands in the buffer, with the characters behind a comment or trailing blanks
already zeroed; `cString` is what a C string function sees of it. The list is NULL, and reading it a
fault, as long as the module is not set up.
-/

set_option autoImplicit false
set_option relaxedAutoImplicit false

namespace Whatsup

open CLib

/-! ### Reading the file -/

/-- `_readline`, for a buffer of a size: a line, or a failure, if reading fails or the line fills
the buffer. -/
def readline (buflen : ℕ) (events : List ReadEvent) : Option (List Char × List ReadEvent) :=
  match fdReadLine (buflen - 1) events with
  | none => none
  | some (line, rest) => if buflen - 1 ≤ line.length then none else some (line, rest)

/-- `_remove_comments`. -/
def removeComments (buf : List Char) : List Char :=
  if '#' ∈ cString buf then buf.takeWhile (· ≠ '#') else buf

/-- `_remove_trailing_whitespace`. -/
def removeTrailingWhitespace (buf : List Char) : List Char :=
  buf.rdropWhile isSpace

/-- `_move_past_whitespace`, for a string that is not blank. -/
def movePastWhitespace (buf : List Char) : Option (List Char) :=
  let rest := (cString buf).dropWhile isSpace
  if rest = [] then none else some rest

/-- What a line of the hostsfile comes to: nothing, a host name in its short form, or an error. -/
inductive HostsfileLine
  | blank
  | host (name : List Char)
  | malformed
deriving DecidableEq

/-- The loop body of `hostsfile_clusterlist_setup`, for a line that was read. -/
def hostsfileLine (line : List Char) : HostsfileLine :=
  match movePastWhitespace (removeTrailingWhitespace (removeComments line)) with
  | none => .blank
  | some hostPtr =>
    if ' ' ∈ hostPtr ∨ '\t' ∈ hostPtr then .malformed
    else if 64 < hostPtr.length then .malformed
    else .host (hostPtr.takeWhile (· ≠ '.'))

/-- What reading the hostsfile comes to: the hosts that are appended, the value of the setup, and
whether an error number has been set. -/
structure HostsfileRead where
  hosts : List (List Char)
  value : ℤ
  failed : Bool
deriving DecidableEq

/-- The loop of `hostsfile_clusterlist_setup`. A line that cannot be read ends it, too, and is no
error. -/
def readHostsfile (buflen : ℕ) (events : List ReadEvent) : HostsfileRead :=
  match _hread : readline buflen events with
  | none => ⟨[], 0, true⟩
  | some (line, rest) =>
    if _hline : line = [] then ⟨[], 0, false⟩
    else
      match hostsfileLine line with
      | .blank => readHostsfile buflen rest
      | .malformed => ⟨[], -1, true⟩
      | .host name =>
        let others := readHostsfile buflen rest
        { others with hosts := name :: others.hosts }
termination_by events.length
decreasing_by
  all_goals
    have hshorter : rest.length < events.length := by
      unfold readline at _hread
      split at _hread
      · exact absurd _hread (by simp)
      · rename_i hline
        split_ifs at _hread
        obtain ⟨rfl, rfl⟩ := Prod.mk.inj (Option.some.inj _hread)
        have hlength := fdReadLine_length hline
        have hpos := List.length_pos_of_ne_nil _hline
        omega
    exact hshorter

/-- A setup that fails has set an error number. -/
theorem readHostsfile_failed (buflen : ℕ) (events : List ReadEvent)
    (h : (readHostsfile buflen events).value < 0) :
    (readHostsfile buflen events).failed = true := by
  fun_induction readHostsfile buflen events with
  | case1 => rfl
  | case2 => exact absurd h (by simp)
  | case3 _ _ _ _ _ _ ih => exact ih h
  | case4 => rfl
  | case5 _ _ _ _ _ _ _ _ ih => exact ih h

/-- `hostsfile_clusterlist_setup`. The list is made first and stays, whatever comes of the file. -/
def hostsfileClusterlistSetup (env : LoadEnv) : Nodeupdown Unit := fun w ↦
  let filled := fun hosts ↦ w.setLib { w.lib with hosts := some hosts }
  match env.hostsfile with
  | .missing => .ok (some (), filled [])
  | .failed => .ok (none, (filled []).setErrnum .clusterlistModule)
  | .opened events =>
    let result := readHostsfile 65536 events
    let w := filled result.hosts
    let w := if result.failed then w.setErrnum .clusterlistModule else w
    if result.value < 0 then .ok (none, w) else .ok (some (), w)

/-! ### Looking nodes up -/

/-- The name of a node up to its first dot. Only the first 64 characters are copied before the dot
is looked for; if it is not among them a NULL pointer is written to. -/
def shortNodename (node : List Char) : Option (List Char) :=
  if '.' ∈ node then
    let nodebuf := node.take 64
    if '.' ∈ nodebuf then some (nodebuf.takeWhile (· ≠ '.')) else none
  else some node

/-- The list `hosts`, whose use is a fault if it is NULL. -/
def hostsfileHosts : Nodeupdown (List (List Char)) := fun w ↦
  match w.lib.hosts with
  | none => .error .nullPointer
  | some hosts => .ok (some hosts, w)

/-- The short form of a name, or a fault. -/
def shorten (node : List Char) : Nodeupdown (List Char) :=
  match shortNodename node with
  | none => Attempt.fault .nullPointer
  | some nodename => pure nodename

/-- `hostsfile_clusterlist_is_node_in_cluster`. -/
def hostsfileClusterlistIsNodeInCluster (node : List Char) : Nodeupdown Bool := do
  let hosts ← hostsfileHosts
  if hosts = [] then pure true
  else do
    let nodename ← shorten node
    pure (hosts.contains nodename)

/-- `_nodeupdown_clusterlist_copy_nodename`, into a buffer of 65 characters. The length is kept in
an `int`: with a name whose length that cannot hold, the check can pass, and the copy goes past the
buffer. -/
def clusterlistCopyNodename (node : List Char) : Nodeupdown (List Char) :=
  if 65 < toUint (toInt node.length + 1) then Attempt.giveUp (World.setErrnum .internal)
  else if 65 < node.length + 1 then Attempt.fault .overflow
  else pure node

/-- A name that fits in the buffer is copied. -/
theorem clusterlistCopyNodename_eq {node : List Char} (h : node.length ≤ 64) (w : World) :
    clusterlistCopyNodename node w = .ok (some node, w) := by
  have hsmall : node.length + 1 < 4294967296 := by omega
  have hroom : ¬65 < node.length + 1 := by omega
  have hlength : toUint (toInt node.length + 1) = node.length + 1 :=
    (toUint_toInt_add _ 1).trans (toUint_natCast hsmall)
  rw [clusterlistCopyNodename, hlength, if_neg hroom, if_neg hroom]
  rfl

/-- If it returns, a name that fits has been copied, or one that does not fit is an error. -/
theorem clusterlistCopyNodename_ok {node : List Char} {value : Option (List Char)} {w w' : World}
    (hrun : clusterlistCopyNodename node w = .ok (value, w')) :
    (value = if node.length ≤ 64 then some node else none) ∧
    w' = if value = none then w.setErrnum .internal else w := by
  by_cases hfits : node.length ≤ 64
  · obtain ⟨rfl, rfl⟩ :=
      Prod.mk.inj (Except.ok.inj (hrun.symm.trans (clusterlistCopyNodename_eq hfits w)))
    exact ⟨(if_pos hfits).symm, rfl⟩
  · unfold clusterlistCopyNodename at hrun
    rw [if_pos (show 65 < node.length + 1 by omega)] at hrun
    split_ifs at hrun
    · obtain ⟨rfl, rfl⟩ := Prod.mk.inj (Except.ok.inj hrun)
      exact ⟨(if_neg hfits).symm, rfl⟩
    · exact absurd hrun (by simp [Attempt.fault])

/-- `hostsfile_clusterlist_get_nodename`. -/
def hostsfileClusterlistGetNodename (node : List Char) : Nodeupdown (List Char) := do
  let nodename ← shorten node
  clusterlistCopyNodename nodename

end Whatsup
