import Whatsup.Hostlist.NodeStrings
import Whatsup.Hostlist.Order

/-!
# Pushes and searches of any host expressions

The lists of a handle are filled with host expressions in any order, and searched in between. A
search may overwrite widths, so that the list is not the one that the pushes alone would make; it is
one like it (`Hostlist.Alike`).

`hostlistFind_found` says which names a search finds in a sound list: the single hosts, and the
hosts of the ranges that have a valid suffix (`foundNames`). `Hostlist.Alike.pushedNode` says that
later pushes leave lists alike that were alike, so that a search finds what it would find behind the
pushes alone.
-/

set_option autoImplicit false
set_option relaxedAutoImplicit false

namespace Whatsup

open CLib

/-! ### Lists alike -/

/-- The names of a range that is rewritten are marked as before. -/
theorem HostRange.Rewrites.marks_eq {hr hr' : HostRange} (h : hr.Rewrites hr') : hr'.marks =
    hr.marks := by
  have hsame : hr'.singlehost = hr.singlehost := by rw [h.eq_setWidth]
  unfold HostRange.marks
  rw [h.hosts_eq, hsame]

/-- A sound range stays sound. -/
theorem HostRange.Rewrites.sound {hr hr' : HostRange} (h : hr.Rewrites hr') (hsound : hr.Sound) :
    hr'.Sound := by
  rw [h.eq_setWidth]
  refine ⟨⟨fun hsingle ↦ ?_, hsound.lo_le, hsound.hi_le⟩, hsound.lo_le_hi⟩
  obtain ⟨hlo, hhi, hwidth⟩ := hsound.single hsingle
  exact ⟨hlo, hhi, (h.single_width hsingle).trans hwidth⟩

theorem HostRange.Rewrites.trans {h1 h2 h3 : HostRange} (h : h1.Rewrites h2) (h' : h2.Rewrites h3) :
    h1.Rewrites h3 := by
  have hsame := h.eq_setWidth
  have hsingle : h2.singlehost = h1.singlehost := by rw [hsame]
  have hlo : h2.lo = h1.lo := by rw [hsame]
  refine ⟨?_, fun h1_single ↦ ?_, fun number hle ↦ ?_⟩
  · rw [h'.eq_setWidth, hsame]
  · exact (h'.single_width (hsingle.trans h1_single)).trans (h.single_width h1_single)
  · exact (h'.padded_eq number (hlo.trans_le hle)).trans (h.padded_eq number hle)

/-- A range that is rewritten has the key it had. -/
theorem HostRange.Rewrites.key_eq {hr hr' : HostRange} (h : hr.Rewrites hr') : hr'.key =
    hr.key := by
  have hnormal : hr'.normal = hr.normal := by
    rw [h.eq_setWidth]
    exact HostRange.normal_setWidth (h.padded_eq hr.lo le_rfl)
  rw [← HostRange.key_normal, hnormal, HostRange.key_normal]

/-- Two lists that differ in widths only, which write the same hosts. -/
structure Hostlist.Alike (hl hl' : Hostlist) : Prop where
  nhosts_eq : hl'.nhosts = hl.nhosts
  rewrites : List.Forall₂ HostRange.Rewrites hl.ranges hl'.ranges

theorem Hostlist.Alike.refl (hl : Hostlist) : hl.Alike hl :=
  ⟨rfl, List.forall₂_same.mpr fun hr _ ↦ .refl hr⟩

/-- Ranges that are rewritten denote the same names. -/
theorem marksOf_of_rewrites {ranges ranges' : List HostRange}
    (h : List.Forall₂ HostRange.Rewrites ranges ranges') :
    marksOf ranges' = marksOf ranges := by
  induction h with
  | nil => rfl
  | cons hfirst _ ih => rw [marksOf_cons, marksOf_cons, hfirst.marks_eq, ih]

/-- Sound ranges that are rewritten are sound. -/
theorem sound_of_rewrites {ranges ranges' : List HostRange}
    (h : List.Forall₂ HostRange.Rewrites ranges ranges') :
    (∀ hr ∈ ranges, hr.Sound) → ∀ hr ∈ ranges', hr.Sound := by
  induction h with
  | nil => exact fun hsound ↦ hsound
  | cons hfirst _ ih =>
    intro hsound
    obtain ⟨hhr, hrest⟩ := List.forall_mem_cons.mp hsound
    exact List.forall_mem_cons.mpr ⟨hfirst.sound hhr, ih hrest⟩

/-- A list like another one denotes the same names. -/
theorem Hostlist.Alike.marks_eq {hl hl' : Hostlist} (h : hl.Alike hl') : hl'.marks = hl.marks :=
  marksOf_of_rewrites h.rewrites

/-- A list like another one denotes the same hosts. -/
theorem Hostlist.Alike.hosts_eq {hl hl' : Hostlist} (h : hl.Alike hl') : hl'.hosts = hl.hosts := by
  rw [← Hostlist.map_fst_marks, h.marks_eq, Hostlist.map_fst_marks]

/-- A list like a sound one is sound. -/
theorem Hostlist.Alike.sound {hl hl' : Hostlist} (h : hl.Alike hl') (hsound : hl.Sound) :
    hl'.Sound :=
  ⟨sound_of_rewrites h.rewrites hsound.ranges_sound, by
    rw [h.nhosts_eq, hsound.nhosts_eq, h.hosts_eq]⟩

theorem Hostlist.Alike.trans {h1 h2 h3 : Hostlist} (h : h1.Alike h2) (h' : h2.Alike h3) :
    h1.Alike h3 := by
  refine ⟨h'.nhosts_eq.trans h.nhosts_eq, ?_⟩
  have hcompose := h.rewrites
  have hlater := h'.rewrites
  generalize h1.ranges = ranges1 at hcompose
  generalize h2.ranges = ranges2 at hcompose hlater
  generalize h3.ranges = ranges3 at hlater
  clear h h'
  induction hcompose generalizing ranges3 with
  | nil =>
    cases hlater
    exact .nil
  | cons hfirst _ ih =>
    cases hlater with
    | cons hsecond hrest => exact .cons (hfirst.trans hsecond) (ih _ hrest)

/-! ### Searches -/

/-- A name that is found is one that is denoted. -/
theorem mem_of_mem_foundNames {name : List Char} {marks : List (List Char × Bool)}
    (h : name ∈ foundNames marks) :
    name ∈ marks.map Prod.fst := by
  obtain ⟨mark, hmark, rfl⟩ := List.mem_map.mp h
  exact List.mem_map_of_mem (List.mem_of_mem_filter hmark)

/-- The names of a range are its hosts. -/
theorem HostRange.map_fst_marks (hr : HostRange) : hr.marks.map Prod.fst = hr.hosts := by
  rw [HostRange.marks, List.map_map]
  exact List.map_id _

/-- The loop of `hostlist_find` rewrites the ranges. -/
theorem findLoop_rewrites (name : List Char) (ranges : List HostRange) :
    ∀ count : ℤ, List.Forall₂ HostRange.Rewrites ranges
      (findLoop (hostnameCreate name) ranges count).2 := by
  induction ranges with
  | nil => exact fun count ↦ .nil
  | cons hr rest ih =>
    intro count
    have hrewrites := (hostrangeHnWithin_spec hr name).2
    rw [findLoop]
    simp only
    split_ifs
    · exact .cons hrewrites (List.forall₂_same.mpr fun other _ ↦ .refl other)
    · exact .cons hrewrites (ih _)

/-- A search leaves a list like it. -/
theorem alike_hostlistFind (hl : Hostlist) (name : List Char) : hl.Alike (hostlistFind hl name).2 :=
  ⟨rfl, findLoop_rewrites name hl.ranges 0⟩

/-- Assumes: sound ranges. From a count on, the loop of `hostlist_find` gives the count plus a
position among the remaining hosts, as an `int`, if the name is one that is found, and `-1` if it is
not. -/
theorem findLoop_found (name : List Char) (ranges : List HostRange) :
    ∀ count : ℕ, (∀ hr ∈ ranges, hr.Sound) →
      (name ∈ foundNames (marksOf ranges) → ∃ position < (hostsOf ranges).length,
        (findLoop (hostnameCreate name) ranges (toInt count)).1 =
          toInt ((count + position : ℕ) : ℤ)) ∧
      (name ∉ foundNames (marksOf ranges) →
        (findLoop (hostnameCreate name) ranges (toInt count)).1 = -1) := by
  induction ranges with
  | nil => exact fun count _ ↦ ⟨fun h ↦ absurd h List.not_mem_nil, fun _ ↦ rfl⟩
  | cons hr rest ih =>
    intro count hsound
    obtain ⟨hhr, hrest⟩ := List.forall_mem_cons.mp hsound
    obtain ⟨hanswer, hrewrites⟩ := hostrangeHnWithin_spec hr name
    rw [findLoop]
    simp only [marksOf_cons, foundNames_append, List.mem_append, hostsOf_cons, List.length_append]
    by_cases hfound : name ∈ foundNames hr.marks
    · have hmem : name ∈ hr.hosts := hr.map_fst_marks ▸ mem_of_mem_foundNames hfound
      have hposition := List.idxOf_lt_length_iff.mpr hmem
      rw [hanswer, if_pos hfound, if_pos (Int.natCast_nonneg _), toInt_toInt_add]
      exact ⟨fun _ ↦ ⟨hr.hosts.idxOf name, by omega, by push_cast; rfl⟩, fun h ↦
        absurd (Or.inl hfound) h⟩
    · have hcount :
        toInt (toInt count + hostrangeCount (hostrangeHnWithin hr (hostnameCreate name)).2) =
          toInt ((count + hr.hosts.length : ℕ) : ℤ) := by
        have hadd := (hrewrites.sound hhr).toInt_add_count count
        rw [hrewrites.hosts_eq] at hadd
        rw [toInt_toInt_add, ← hadd]
        push_cast
        rfl
      obtain ⟨hlater, hnone⟩ := ih (count + hr.hosts.length) hrest
      rw [hanswer, if_neg hfound, if_neg (by decide), hcount]
      refine ⟨fun h ↦ ?_, fun h ↦ hnone fun hmem ↦ h (Or.inr hmem)⟩
      obtain ⟨position, hless, hvalue⟩ := hlater (h.resolve_left hfound)
      exact ⟨hr.hosts.length + position, by omega, by rw [hvalue, Nat.add_assoc]⟩

/-- Assumes: a sound list of less than `2 ^ 31` hosts. A search tells whether the name is one that
is found. -/
theorem hostlistFind_found {hl : Hostlist} (hsound : hl.Sound) (hsmall : hl.hosts.length < 2 ^ 31)
    (name : List Char) :
    (0 ≤ (hostlistFind hl name).1 ↔ name ∈ foundNames hl.marks) ∧
      ((hostlistFind hl name).1 ≠ -1 ↔ name ∈ foundNames hl.marks) := by
  obtain ⟨hfound, hnone⟩ := findLoop_found name hl.ranges 0 hsound.ranges_sound
  rw [Nat.cast_zero, toInt_zero] at hfound hnone
  change (name ∈ foundNames hl.marks → ∃ position < hl.hosts.length, (hostlistFind hl name).1 =
    _) at hfound
  change name ∉ foundNames hl.marks → (hostlistFind hl name).1 = -1 at hnone
  by_cases hmem : name ∈ foundNames hl.marks
  · obtain ⟨position, hless, hvalue⟩ := hfound hmem
    rw [Nat.zero_add, toInt_eq_self (by omega) (by omega)] at hvalue
    rw [hvalue]
    exact ⟨iff_of_true (by omega) hmem, iff_of_true (by omega) hmem⟩
  · rw [hnone hmem]
    exact ⟨iff_of_false (by decide) hmem, iff_of_false (fun h ↦ h rfl) hmem⟩

/-! ### Pushes -/

/-- Rewritten ranges have a last one that is rewritten, if there is one. -/
theorem rewrites_concat {ranges ranges' : List HostRange}
    (h : List.Forall₂ HostRange.Rewrites ranges ranges') :
    (ranges = [] ∧ ranges' = []) ∨ ∃ front tail front' tail', ranges = front ++ [tail] ∧
    ranges' = front' ++ [tail'] ∧
      List.Forall₂ HostRange.Rewrites front front' ∧ tail.Rewrites tail' := by
  induction h with
  | nil => exact Or.inl ⟨rfl, rfl⟩
  | @cons hr hr' rest rest' hfirst hrest ih =>
    right
    rcases ih with ⟨rfl, rfl⟩ | ⟨front, tail, front', tail', rfl, rfl, hfront, htail⟩
    · exact ⟨[], hr, [], hr', rfl, rfl, .nil, hfirst⟩
    · exact ⟨hr :: front, tail, hr' :: front', tail', rfl, rfl, .cons hfirst hfront, htail⟩

/-- Whether a range goes on in another one does not depend on how the first is written. -/
theorem HostRange.Rewrites.joins_iff {tail tail' : HostRange} (h : tail.Rewrites tail')
    (hr : HostRange) :
    tail'.Joins hr ↔ tail.Joins hr := by
  have hcombine : (hostrangeWidthCombine tail' hr).1 = (hostrangeWidthCombine tail hr).1 :=
    combine_congr_key h.key_eq rfl
  have hpfx : tail'.pfx = tail.pfx := by rw [h.eq_setWidth]
  have hsingle : tail'.singlehost = tail.singlehost := by rw [h.eq_setWidth]
  have hhi : tail'.hi = tail.hi := by rw [h.eq_setWidth]
  unfold HostRange.Joins
  rw [hostrangePrefixCmp_eq_zero_iff, hostrangePrefixCmp_eq_zero_iff, hpfx, hsingle, hhi, hcombine]

/-- Combining two widths that can be combined rewrites the first range. -/
theorem rewrites_hostrangeWidthCombine {h1 h2 : HostRange}
    (hcombine : (hostrangeWidthCombine h1 h2).1 = true) :
    ∃ width, (hostrangeWidthCombine h1 h2).2.1 = { h1 with width := width } ∧
      ∀ number, h1.lo ≤ number → padded width number = padded h1.width number := by
  obtain ⟨width, hresult, hwidth, -⟩ :=
    widthEquiv_of_eq_true (show (widthEquiv h1.lo h1.width h2.lo h2.width).1 = true from hcombine)
  exact ⟨width, by rw [hostrangeWidthCombine, hresult], hwidth⟩

/-- Assumes: a range that goes on in another one, as it was written and rewritten. The joined ranges
are written alike, unless they are single hosts. -/
theorem HostRange.Rewrites.join {tail tail' hr : HostRange} (h : tail.Rewrites tail')
    (hjoins : tail.Joins hr)
    (hsingle : tail.singlehost = false) :
    HostRange.Rewrites { (hostrangeWidthCombine tail hr).2.1 with hi := hr.hi }
      { (hostrangeWidthCombine tail' hr).2.1 with hi := hr.hi } := by
  obtain ⟨width, hjoined, hwidth⟩ := rewrites_hostrangeWidthCombine hjoins.2.2
  obtain ⟨width', hjoined', hwidth'⟩ :=
    rewrites_hostrangeWidthCombine ((h.joins_iff hr).mpr hjoins).2.2
  have hlo : tail'.lo = tail.lo := by rw [h.eq_setWidth]
  rw [hjoined, hjoined']
  refine ⟨?_, fun hs ↦ absurd (hsingle.symm.trans hs) (by decide), fun number hle ↦ ?_⟩
  · rw [h.eq_setWidth]
  · exact (hwidth' number (hlo.trans_le hle)).trans
      ((h.padded_eq number hle).trans (hwidth number hle).symm)

/-- A range that is not a single host as it goes on in one made as it is to be. -/
theorem HostRange.Joins.not_single {tail hr : HostRange} (h : tail.Joins hr) (htail : tail.Made)
    (hhr : hr.Made) :
    tail.singlehost = false := by
  by_contra hsingle
  obtain ⟨-, hhi, -⟩ := htail.single (by simpa using hsingle)
  obtain ⟨hlo, -, -⟩ :=
    hhr.single ((hostrangePrefixCmp_eq_zero_iff.mp h.1).2 ▸ by simpa using hsingle)
  have hnext := h.2.1
  rw [hhi, hlo] at hnext
  exact absurd hnext (by decide)

/-- Assumes: lists alike of ranges as they are made. A push leaves them alike. -/
theorem Hostlist.Alike.pushRange {hl hl' : Hostlist} (h : hl.Alike hl')
    (hmade : ∀ r ∈ hl.ranges, r.Made)
    {hr : HostRange} (hr_made : hr.Made) :
      (hostlistPushRange hl hr).Alike (hostlistPushRange hl' hr) := by
  refine ⟨by rw [nhosts_hostlistPushRange, nhosts_hostlistPushRange, h.nhosts_eq], ?_⟩
  rcases rewrites_concat h.rewrites with ⟨hnone, hnone'⟩ | ⟨front, tail, front', tail', hfront,
    hfront', hrest, htail⟩
  · rw [hostlistPushRange_append (by simp [hnone]), hostlistPushRange_append (by simp [hnone']),
      hnone, hnone']
    exact .cons (.refl _) .nil
  · by_cases hjoins : tail.Joins hr
    · rw [hostlistPushRange_join hfront hjoins,
        hostlistPushRange_join hfront' ((htail.joins_iff hr).mpr hjoins)]
      have hsingle := hjoins.not_single (hmade tail (by simp [hfront])) hr_made
      exact List.rel_append hrest (.cons (htail.join hjoins hsingle) .nil)
    · have hnot : ∀ last ∈ hl.ranges.getLast?, ¬last.Joins hr := fun last hlast ↦ by
        rw [hfront, List.getLast?_concat] at hlast
        rwa [← Option.some.inj hlast]
      have hnot' : ∀ last ∈ hl'.ranges.getLast?, ¬last.Joins hr := fun last hlast ↦ by
        rw [hfront', List.getLast?_concat] at hlast
        rw [← Option.some.inj hlast, htail.joins_iff]
        exact hjoins
      rw [hostlistPushRange_append hnot, hostlistPushRange_append hnot']
      exact List.rel_append h.rewrites (.cons (.refl _) .nil)

/-- Assumes: tallied lists alike. Pushing a host expression leaves them alike. -/
theorem Hostlist.Alike.pushedNode {hl hl' : Hostlist} (h : hl.Alike hl') (htallied : hl.Tallied)
    (node : List Char) :
    (Whatsup.pushedNode hl node).Alike (Whatsup.pushedNode hl' node) := by
  unfold Whatsup.pushedNode
  cases hcreate : hostlistCreate node with
  | error failure => exact h
  | ok new =>
    have hnew : ∀ hr ∈ new.ranges, hr.Made :=
      (tallied_createLoop _ _ _ _ tallied_hostlistNew hcreate).made
    simp only
    generalize new.ranges = ranges at hnew
    induction ranges generalizing hl hl' with
    | nil => exact h
    | cons hr rest ih =>
      obtain ⟨hhr, hrest⟩ := List.forall_mem_cons.mp hnew
      exact ih (h.pushRange htallied.made hhr) (tallied_hostlistPushRange htallied hhr) hrest

/-- The list of host expressions that are pushed in order, should the calls return. -/
def pushedNodes (nodes : List (List Char)) : Hostlist :=
  nodes.foldl pushedNode hostlistNew

theorem pushedNodes_concat (nodes : List (List Char)) (node : List Char) :
    pushedNodes (nodes ++ [node]) = pushedNode (pushedNodes nodes) node := by
  rw [pushedNodes, List.foldl_append]
  rfl

/-- The list of host expressions is tallied. -/
theorem tallied_pushedNodes (nodes : List (List Char)) : (pushedNodes nodes).Tallied :=
  List.foldlRecOn nodes pushedNode tallied_hostlistNew fun _ htallied node _ ↦
    (tallied_pushedNode htallied node).1

/-- Assumes: host expressions whose pushes do not wrap around. The list of them is sound and denotes
what they name. -/
theorem marks_pushedNodes_new {nodes : List (List Char)}
    (hunwrapped : NodesUnwrapped nodes hostlistNew) :
    (pushedNodes nodes).marks = nodes.flatMap namedMarks ∧ (pushedNodes nodes).Sound := by
  obtain ⟨hmarks, hsound⟩ := marks_pushedNodes nodes hostlistNew hostlistNew_sound hunwrapped
  exact ⟨hmarks, hsound⟩

end Whatsup
