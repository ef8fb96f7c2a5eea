import Whatsup.Hostlist.Overlap
import Whatsup.Hostlist.Parse

/-!
# Runs of `hostlist_sort`

The loop of `hostlist_coalesce` works from the end of the array: behind the current neighbours the
array is settled (`reaches_scan` passes such a part). A split hands its last piece on to the right,
where it may overlap the next range in turn, until the part is settled again with one more range in
front (`settles_or_fails`). If a piece comes out of order on the way, the loop fails, and the array
had a padding clash.

`hostlistSort_spec` puts the rounds together: without a padding clash the sort ends with the same
names, and `hostlistSort_clash`: with one it fails. `hostlistSort_iff` is the whole statement for a
list of pushed host names.
-/

set_option autoImplicit false
set_option relaxedAutoImplicit false

namespace Whatsup

open CLib

/-! ### Passing a settled part -/

/-- Assumes: a settled part of the array. The loop passes it from its end to its start without
splitting anything. -/
theorem reaches_scan (ndebug : Bool) (chain : List HostRange) :
    ∀ (front : List HostRange) (h : HostRange) (back : List HostRange),
      (∀ hr ∈ h :: chain, hr.Canonical) → Settled (h :: chain) →
      ∃ h' chain', Reaches (coalesceBody ndebug)
          (front.length + chain.length, front ++ h :: (chain ++ back))
          (front.length, front ++ h' :: (chain' ++ back)) ∧
        (h' :: chain').map HostRange.normal = (h :: chain).map HostRange.normal ∧
        ∀ hr ∈ h' :: chain', hr.Canonical := by
  induction chain with
  | nil => exact fun front h back hcanonical _ ↦ ⟨h, [], Reaches.refl, rfl, hcanonical⟩
  | cons next chain ih =>
    intro front h back hcanonical hsettled
    obtain ⟨hpair, hrest⟩ := List.isChain_cons_cons.mp hsettled
    obtain ⟨hh, hcanonicalRest⟩ := List.forall_mem_cons.mp hcanonical
    obtain ⟨next', chain', hreach, hnormal, hcanonical'⟩ :=
      ih (front ++ [h]) next back hcanonicalRest hrest
    obtain ⟨hnext, hchain⟩ := List.cons.inj hnormal
    obtain ⟨hnextCanonical, hchainCanonical⟩ := List.forall_mem_cons.mp hcanonical'
    have horder : h.key ≤ next'.key := by
      rw [← HostRange.key_normal next', hnext, HostRange.key_normal]
      exact hpair.1
    obtain ⟨h2, next2, hstep, hwritten⟩ := coalesceBody_skip ndebug hh hnextCanonical horder
      ((HostRange.overlaps_congr rfl hnext).not.mpr hpair.2) front (chain' ++ back)
    refine ⟨h2, next2 :: chain', ?_, ?_, ?_⟩
    · refine Reaches.tail ?_ hstep
      simpa [Nat.add_comm, Nat.add_left_comm] using hreach
    · rw [List.map_cons, List.map_cons, List.map_cons, List.map_cons, hwritten.normal1,
        hwritten.normal2, hnext, hchain]
    · exact List.forall_mem_cons.mpr ⟨hwritten.canonical1,
        List.forall_mem_cons.mpr ⟨hwritten.canonical2, hchainCanonical⟩⟩

/-! ### One more range -/

/-- What becomes of the ranges behind the front of an array, from a state of the loop on: when the
loop gets back to the front they are settled, or the loop fails and the array has a padding
clash. -/
def SettlesOrFails (ndebug : Bool) (start : ℕ × List HostRange) (front ranges : List HostRange) :
    Prop :=
  (∃ h' tail', Reaches (coalesceBody ndebug) start (front.length, front ++ h' :: tail') ∧
    Settled (h' :: tail') ∧ (∀ hr ∈ h' :: tail', hr.Canonical) ∧
    (∀ hr ∈ ranges.head?, h'.key = hr.key) ∧
    (hostsOf (h' :: tail')).Perm (hostsOf ranges) ∧
    (PaddingClash (front ++ h' :: tail') ↔ PaddingClash (front ++ ranges))) ∨
  ∃ state failure, Reaches (coalesceBody ndebug) start state ∧
    coalesceBody ndebug state = .fault failure ∧ PaddingClash (front ++ ranges)

/-- Assumes: a state that the loop reaches, and ranges that are written like others. What becomes of
them from there on becomes of the others. -/
theorem SettlesOrFails.congr {ndebug : Bool} {start state : ℕ × List HostRange}
    {front ranges ranges' : List HostRange} (h : SettlesOrFails ndebug state front ranges')
    (hreach : Reaches (coalesceBody ndebug) start state)
    (hnormal : ranges'.map HostRange.normal = ranges.map HostRange.normal) :
    SettlesOrFails ndebug start front ranges := by
  have hclash : PaddingClash (front ++ ranges') ↔ PaddingClash (front ++ ranges) :=
    paddingClash_congr (by rw [List.map_append, hnormal, List.map_append])
  rcases h with ⟨h', tail', hlater, hsettled, hcanonical, hkey, hperm, hsame⟩ |
    ⟨state', failure, hlater, hfault, hbad⟩
  · refine Or.inl ⟨h', tail', hreach.trans hlater, hsettled, hcanonical, fun hr hmem ↦ ?_,
      hostsOf_congr hnormal ▸ hperm, hsame.trans hclash⟩
    cases ranges' with
    | nil => exact absurd hmem (by simp [List.map_eq_nil_iff.mp hnormal.symm])
    | cons head' rest' =>
      cases ranges with
      | nil => exact absurd hmem (by simp)
      | cons head rest =>
        obtain rfl : head = hr := by simpa using hmem
        rw [hkey head' rfl, ← HostRange.key_normal, (List.cons.inj hnormal).1, HostRange.key_normal]
  · exact Or.inr ⟨state', failure, hreach.trans hlater, hfault, hclash.mp hbad⟩

/-- Assumes: a split whose last piece is in order with what follows, and what becomes of the last
piece in front of that. The split ranges settle or fail accordingly. -/
theorem settlesOrFails_of_split {ndebug : Bool} {start : ℕ × List HostRange}
    {front tail : List HostRange} {h1 h2 : HostRange} (hsplit : Splittable h1 h2)
    (hfront : ∀ hr ∈ front, hr.key ≤ h1.key)
    (htail : ∀ hr ∈ tail, (splitLast h1 h2).key ≤ hr.key)
    (hlast : SettlesOrFails ndebug start (front ++ splitInit h1 h2) (splitLast h1 h2 :: tail)) :
    SettlesOrFails ndebug start front (h1 :: h2 :: tail) := by
  have hclash := hsplit.paddingClash_array_iff hfront htail
  rw [splitRanges_eq, List.append_assoc, List.singleton_append, ← List.append_assoc] at hclash
  rcases hlast with ⟨last, tail', hreach, hsettled, hcanonical, hkey, hperm,
    hsame⟩ | ⟨state, failure,
    hreach, hfault, hbad⟩
  · left
    -- the pieces before the last one are passed on the way to the front
    have hpieces : Settled (splitInit h1 h2 ++ [splitLast h1 h2]) := by
      rw [← splitRanges_eq]
      exact hsplit.settled
    have hall : Settled (splitInit h1 h2 ++ last :: tail') :=
      hpieces.append hsettled (hkey _ rfl)
    obtain ⟨inserted, hinserted⟩ : ∃ inserted, splitInit h1 h2 =
        { h1 with hi := h2.lo } :: inserted := ⟨_, rfl⟩
    have hinit : ∀ hr ∈ splitInit h1 h2, hr.Canonical := fun hr hmem ↦
      (hsplit.piece (by rw [splitRanges_eq]; exact List.mem_append_left _ hmem)).1
    have hscan : Settled ({ h1 with hi := h2.lo } :: (inserted ++ [last])) := by
      have hsplitAt : splitInit h1 h2 ++ last :: tail' =
          ({ h1 with hi := h2.lo } :: (inserted ++ [last])) ++ tail' := by
        rw [hinserted]
        simp
      rw [hsplitAt] at hall
      exact List.IsChain.left_of_append hall
    obtain ⟨first, chain, hpass, hnormal, hpassCanonical⟩ :=
      reaches_scan ndebug (inserted ++ [last]) front { h1 with hi := h2.lo } tail' (by
        intro hr hmem
        have hcases : hr ∈ splitInit h1 h2 ∨ hr = last := by
          rw [hinserted]
          simpa [or_assoc] using hmem
        rcases hcases with hpiece | rfl
        · exact hinit hr hpiece
        · exact hcanonical _ List.mem_cons_self) hscan
    have hnormalAll : (first :: (chain ++ tail')).map HostRange.normal =
        (splitInit h1 h2 ++ last :: tail').map HostRange.normal := by
      have happend := congrArg (· ++ tail'.map HostRange.normal) hnormal
      rw [hinserted]
      simpa using happend
    refine ⟨first, chain ++ tail', hreach.trans ?_, (settled_congr hnormalAll).mpr hall,
      ?_, ?_, ?_, ?_⟩
    · have hstart : (front ++ splitInit h1 h2).length = front.length +
          (inserted ++ [last]).length := by
        rw [hinserted]
        simp
      rw [hstart, hinserted]
      simpa using hpass
    · intro hr hmem
      rcases List.mem_append.mp (show hr ∈ (first :: chain) ++ tail' from hmem) with hold | hnew
      · exact hpassCanonical hr hold
      · exact hcanonical hr (List.mem_cons_of_mem _ hnew)
    · intro hr hmem
      obtain rfl : h1 = hr := by simpa using hmem
      rw [← HostRange.key_normal, (List.cons.inj hnormal).1, HostRange.key_normal]
      rfl
    · have hpieces : hostsOf (splitInit h1 h2) ++ hostsOf (splitLast h1 h2 :: tail) =
          hostsOf (splitRanges h1 h2) ++ hostsOf tail := by
        rw [splitRanges_eq, ← hostsOf_append, ← hostsOf_append]
        simp
      have hpair : hostsOf [h1, h2] ++ hostsOf tail = hostsOf (h1 :: h2 :: tail) :=
        (hostsOf_append _ _).symm
      rw [hostsOf_congr hnormalAll, hostsOf_append, ← hpair]
      exact (hperm.append_left _).trans (hpieces ▸ hsplit.perm_hostsOf.append_right _)
    · rw [← hclash, ← hsame]
      refine paddingClash_congr ?_
      rw [List.map_append, hnormalAll]
      simp
  · exact Or.inr ⟨state, failure, hreach, hfault, hclash.mp hbad⟩

/-- Assumes: a split whose last piece comes out of order with what follows it. The loop passes what
follows, fails at the last piece, and the array has a padding clash. -/
theorem settlesOrFails_of_disorder {ndebug : Bool} {front rest : List HostRange}
    {h1 h2 next : HostRange} (hsplit : Splittable h1 h2) (hfront : ∀ hr ∈ front, hr.key ≤ h1.key)
    (hsettled : Settled (h2 :: next :: rest)) (hcanonical : ∀ hr ∈ next :: rest, hr.Canonical)
    (hdisorder : ¬(splitLast h1 h2).key ≤ next.key) :
    SettlesOrFails ndebug
      ((front ++ (splitRanges h1 h2 ++ next :: rest)).length - 1,
        front ++ (splitRanges h1 h2 ++ next :: rest)) front (h1 :: h2 :: next :: rest) := by
  obtain ⟨⟨horder, hoverlap⟩, hrest⟩ := List.isChain_cons_cons.mp hsettled
  have hsorted := (Settled.pairwise hsettled)
  have hnextLe := (List.pairwise_cons.mp (List.pairwise_cons.mp hsorted).2).1
  obtain ⟨hlastOverlap, hclash⟩ := hsplit.paddingClash_of_disorder horder hoverlap hdisorder hnextLe
  have hlast : (splitLast h1 h2).Canonical :=
    (hsplit.piece (by rw [splitRanges_eq]; simp)).1
  obtain ⟨next', rest', hreach, hnormal, hcanonical'⟩ :=
    reaches_scan ndebug rest (front ++ splitRanges h1 h2) next [] hcanonical hrest
  have hnext : next'.normal = next.normal := (List.cons.inj hnormal).1
  have hnextKey : next'.key = next.key := by
    rw [← HostRange.key_normal, hnext, HostRange.key_normal]
  obtain ⟨failure, hfault⟩ := coalesceBody_fault ndebug hlast (hcanonical' next' List.mem_cons_self)
    (hnextKey ▸ hdisorder) ((HostRange.overlaps_congr rfl hnext).mpr hlastOverlap)
    (front ++ splitInit h1 h2) rest'
  refine Or.inr ⟨_, failure, ?_, hfault, hclash.append ?_⟩
  · have hstart : (front ++ (splitRanges h1 h2 ++ next :: rest)).length - 1 =
        (front ++ splitRanges h1 h2).length + rest.length := by
      simp
      omega
    have hend : (front ++ splitInit h1 h2).length + 1 = (front ++ splitRanges h1 h2).length := by
      rw [splitRanges_eq]
      simp
      omega
    rw [hstart, hend]
    simpa [splitRanges_eq] using hreach
  · intro a ha b hb
    refine (hfront a ha).trans ?_
    have h12 : h1.key ≤ h2.key := hsplit.overlaps.key_le_iff.mpr hsplit.lo_le
    rcases List.mem_cons.mp hb with rfl | hb
    · exact le_rfl
    rcases List.mem_cons.mp hb with rfl | hb
    · exact h12
    · exact h12.trans ((List.pairwise_cons.mp hsorted).1 b hb)

/-- A single canonical range at the end of an array is settled. -/
theorem settlesOrFails_single {ndebug : Bool} {front : List HostRange} {h : HostRange}
    (hcanonical : h.Canonical) :
    SettlesOrFails ndebug (front.length, front ++ [h]) front [h] :=
  Or.inl ⟨h, [], Reaches.refl, List.isChain_singleton _, List.forall_mem_singleton.mpr hcanonical,
    by simp, List.Perm.refl _, Iff.rfl⟩

/-- Assumes: a range in front of a settled part, in order and without overlap. The part is settled
with the range. -/
theorem settlesOrFails_of_skip {ndebug : Bool} {front rest : List HostRange} {h next : HostRange}
    (hcanonical : ∀ hr ∈ h :: next :: rest, hr.Canonical) (hsettled : Settled (next :: rest))
    (horder : h.key ≤ next.key) (hoverlap : ¬h.Overlaps next) :
    SettlesOrFails ndebug (front.length + 1, front ++ h :: next :: rest) front
      (h :: next :: rest) := by
  obtain ⟨hh, hnextCanonical, hrestCanonical⟩ :=
    (List.forall_mem_cons.mp hcanonical).imp_right List.forall_mem_cons.mp
  obtain ⟨h1, h2, hstep, hwritten⟩ :=
    coalesceBody_skip ndebug hh hnextCanonical horder hoverlap front rest
  have hnormal : (h1 :: h2 :: rest).map HostRange.normal =
      (h :: next :: rest).map HostRange.normal := by
    rw [List.map_cons, List.map_cons, hwritten.normal1, hwritten.normal2]
    rfl
  have hsettledAll : Settled (h :: next :: rest) :=
    List.isChain_cons_cons.mpr ⟨⟨horder, hoverlap⟩, hsettled⟩
  have hcanonicalAll : ∀ hr ∈ h1 :: h2 :: rest, hr.Canonical :=
    List.forall_mem_cons.mpr ⟨hwritten.canonical1,
      List.forall_mem_cons.mpr ⟨hwritten.canonical2, hrestCanonical⟩⟩
  exact SettlesOrFails.congr (Or.inl ⟨h1, h2 :: rest, Reaches.refl,
    (settled_congr hnormal).mpr hsettledAll, hcanonicalAll, by simp, .refl _, Iff.rfl⟩)
    (Reaches.refl.tail hstep) hnormal

/-- Assumes: two ranges that overlap, in order, in front of a settled part, and what becomes of a
range in front of a shorter settled part. The part settles with the two ranges or the loop fails. -/
theorem settlesOrFails_of_overlap {ndebug : Bool} {front rest : List HostRange} {h next : HostRange}
    (hcanonical : ∀ hr ∈ h :: next :: rest, hr.Canonical) (hsettled : Settled (next :: rest))
    (horder : h.key ≤ next.key) (hfront : ∀ hr ∈ front, hr.key ≤ h.key) (hoverlap : h.Overlaps next)
    (hshorter : ∀ (front' : List HostRange) (h' third : HostRange) (rest' : List HostRange),
      rest'.length < rest.length → (∀ hr ∈ h' :: third :: rest', hr.Canonical) →
      Settled (third :: rest') → h'.key ≤ third.key → (∀ hr ∈ front', hr.key ≤ h'.key) →
      SettlesOrFails ndebug (front'.length + 1, front' ++ h' :: third :: rest') front'
        (h' :: third :: rest')) :
    SettlesOrFails ndebug (front.length + 1, front ++ h :: next :: rest) front
      (h :: next :: rest) := by
  obtain ⟨hh, hnextCanonical, hrestCanonical⟩ :=
    (List.forall_mem_cons.mp hcanonical).imp_right List.forall_mem_cons.mp
  obtain ⟨h1, h2, hstep, hwritten, hwidth⟩ :=
    coalesceBody_split ndebug hh hnextCanonical horder hoverlap front rest
  have hsplit : Splittable h1 h2 := ⟨hwritten.canonical1, hwritten.canonical2,
    hwritten.overlaps hoverlap,
    (hwritten.overlaps hoverlap).key_le_iff.mp (hwritten.key_le_iff.mpr horder), hwidth⟩
  have hkey1 : h1.key = h.key := by
    rw [← HostRange.key_normal, hwritten.normal1, HostRange.key_normal]
  have hfront1 : ∀ hr ∈ front, hr.key ≤ h1.key := hkey1 ▸ hfront
  refine SettlesOrFails.congr ?_ (Reaches.refl.tail hstep)
    (show (h1 :: h2 :: rest).map HostRange.normal = (h :: next :: rest).map HostRange.normal by
      rw [List.map_cons, List.map_cons, hwritten.normal1, hwritten.normal2]
      rfl)
  have hlastCanonical : (splitLast h1 h2).Canonical := (hsplit.piece (by simp [splitRanges_eq])).1
  have hinitLe : ∀ hr ∈ front ++ splitInit h1 h2, hr.key ≤ (splitLast h1 h2).key := by
    have hpieces := (List.pairwise_append.mp (splitRanges_eq h1 h2 ▸ hsplit.settled).pairwise).2.2
    intro hr hmem
    rcases List.mem_append.mp hmem with hbefore | hpiece
    · exact (hfront1 hr hbefore).trans
        (hpieces { h1 with hi := h2.lo } List.mem_cons_self _ List.mem_cons_self)
    · exact hpieces hr hpiece _ List.mem_cons_self
  cases rest with
  | nil =>
    refine settlesOrFails_of_split hsplit hfront1 (fun hr hmem ↦ absurd hmem List.not_mem_nil) ?_
    have hsingle := @settlesOrFails_single ndebug (front ++ splitInit h1 h2) _ hlastCanonical
    simpa [splitRanges_eq] using hsingle
  | cons third rest =>
    have hsettled2 : Settled (h2 :: third :: rest) :=
      (settled_congr (by rw [List.map_cons, hwritten.normal2]; rfl)).mpr hsettled
    by_cases hafter : (splitLast h1 h2).key ≤ third.key
    · have hsettled3 := (List.isChain_cons_cons.mp hsettled2).2
      have hthirdLe := (List.pairwise_cons.mp (Settled.pairwise hsettled3)).1
      refine settlesOrFails_of_split hsplit hfront1 (List.forall_mem_cons.mpr
        ⟨hafter, fun hr hmem ↦ hafter.trans (hthirdLe hr hmem)⟩) ?_
      -- the loop comes to the last piece and what follows it
      obtain ⟨third', rest', hscan, hnormal, hcanonical'⟩ := reaches_scan ndebug rest
        (front ++ splitInit h1 h2 ++ [splitLast h1 h2]) third [] hrestCanonical hsettled3
      have hlength : rest'.length = rest.length := by
        simpa using congrArg List.length (List.cons.inj hnormal).2
      have hthirdKey : third'.key = third.key := by
        rw [← HostRange.key_normal, (List.cons.inj hnormal).1, HostRange.key_normal]
      have hlater := hshorter (front ++ splitInit h1 h2) (splitLast h1 h2) third' rest'
        (by rw [hlength]; exact Nat.lt_succ_self _)
        (List.forall_mem_cons.mpr ⟨hlastCanonical, hcanonical'⟩)
          ((settled_congr hnormal).mpr hsettled3)
        (hthirdKey ▸ hafter) hinitLe
      refine SettlesOrFails.congr hlater ?_
        (by rw [List.map_cons, hnormal]; rfl)
      have hstart : (front ++ (splitRanges h1 h2 ++ third :: rest)).length - 1 =
          (front ++ splitInit h1 h2 ++ [splitLast h1 h2]).length + rest.length := by
        simp [splitRanges_eq]
        omega
      rw [hstart, splitRanges_eq]
      simpa [Nat.add_assoc] using hscan
    · exact settlesOrFails_of_disorder hsplit hfront1 hsettled2 hrestCanonical hafter

/-- Assumes: a range in front of a settled part, in order. When the loop comes to the range, the
part settles with it or the loop fails. -/
theorem settles_or_fails (ndebug : Bool) (size : ℕ) :
    ∀ (front : List HostRange) (h next : HostRange) (rest : List HostRange), rest.length < size →
      (∀ hr ∈ h :: next :: rest, hr.Canonical) → Settled (next :: rest) → h.key ≤ next.key →
      (∀ hr ∈ front, hr.key ≤ h.key) →
      SettlesOrFails ndebug (front.length + 1, front ++ h :: next :: rest) front
        (h :: next :: rest) := by
  induction size with
  | zero => exact fun _ _ _ _ hsize ↦ absurd hsize (Nat.not_lt_zero _)
  | succ size ih =>
    intro front h next rest hsize hcanonical hsettled horder hfront
    by_cases hoverlap : h.Overlaps next
    · refine settlesOrFails_of_overlap hcanonical hsettled horder hfront hoverlap ?_
      exact fun front' h' third rest' hlength ↦ ih front' h' third rest' (by omega)
    · exact settlesOrFails_of_skip hcanonical hsettled horder hoverlap

/-! ### Sorted arrays -/

/-- Assumes: a canonical array in order. From its end on, each part behind a front settles, or the
loop fails. -/
theorem settlesOrFails_of_sorted (ndebug : Bool) (tail : List HostRange) :
    ∀ (front : List HostRange) (h : HostRange), (∀ hr ∈ h :: tail, hr.Canonical) →
      (front ++ h :: tail).Pairwise (fun h1 h2 ↦ h1.key ≤ h2.key) →
      SettlesOrFails ndebug (front.length + tail.length, front ++ h :: tail) front (h :: tail) := by
  induction tail with
  | nil => exact fun front h hcanonical _ ↦ settlesOrFails_single (hcanonical h List.mem_cons_self)
  | cons next tail ih =>
    intro front h hcanonical hsorted
    obtain ⟨hh, hnextCanonical⟩ := List.forall_mem_cons.mp hcanonical
    have hparts := List.pairwise_append.mp hsorted
    have htail := ih (front ++ [h]) next hnextCanonical (by simpa using hsorted)
    rw [List.append_assoc, List.singleton_append, List.length_append, List.length_singleton,
      Nat.add_assoc, Nat.add_comm 1] at htail
    rw [List.length_cons]
    rcases htail with ⟨next', tail', hreach, hsettled, hcanonical', hkey, hperm, hsame⟩ | ⟨state,
      failure, hreach, hfault, hbad⟩
    · have horder : h.key ≤ next'.key := by
        rw [hkey next rfl]
        exact (List.pairwise_cons.mp hparts.2.1).1 next List.mem_cons_self
      have hstep := settles_or_fails ndebug (tail'.length + 1) front h next' tail'
        (Nat.lt_succ_self _) (List.forall_mem_cons.mpr ⟨hh, hcanonical'⟩) hsettled horder
        fun hr hmem ↦ hparts.2.2 hr hmem h List.mem_cons_self
      rw [List.append_assoc, List.singleton_append, List.length_append] at hreach
      rw [List.append_assoc, List.append_assoc, List.singleton_append,
        List.singleton_append] at hsame
      rcases hstep with ⟨h', rest', hlater, hsettled', hcanonical'', hkey', hperm',
        hsame'⟩ | ⟨state,
        failure, hlater, hfault, hbad⟩
      · refine Or.inl ⟨h', rest', hreach.trans hlater, hsettled', hcanonical'',
          fun hr hmem ↦ hkey' hr hmem, hperm'.trans ?_, hsame'.trans hsame⟩
        rw [hostsOf_cons, hostsOf_cons h]
        exact hperm.append_left _
      · exact Or.inr ⟨state, failure, hreach.trans hlater, hfault, hsame.mp hbad⟩
    · exact Or.inr ⟨state, failure, hreach, hfault, by simpa using hbad⟩

/-! ### `hostlist_collapse` -/

/-- Assumes: two canonical ranges that are joined. The joined range is canonical. -/
theorem canonical_join {h1 h2 : HostRange} (hcanonical1 : h1.Canonical) (hcanonical2 : h2.Canonical)
    (hpfxCmp : hostrangePrefixCmp h1 h2 = 0) (hnext : h1.hi = ulongSub h2.lo 1)
    (hcombine : (hostrangeWidthCombine h1 h2).1 = true) :
    HostRange.Canonical { (hostrangeWidthCombine h1 h2).2.1 with hi := h2.hi } := by
  obtain ⟨hsingle, hle, -⟩ :=
    hcanonical1.toValid.hosts_join hcanonical2.toValid hpfxCmp hnext hcombine
  have hnot : h1.singlehost = true → False := fun h ↦ absurd (hsingle.symm.trans h) (by decide)
  exact ⟨⟨hle, hcanonical2.hi_lt, fun h ↦ (hnot h).elim⟩, hcanonical2.hi_le, hcanonical1.pfx_end,
    fun h ↦ (hnot h).elim⟩

/-- Assumes: canonical ranges. Joining neighbours keeps the hosts and their order, and leaves
canonical ranges. -/
theorem hostlistCollapse_spec (ranges : List HostRange) (h : ∀ hr ∈ ranges, hr.Canonical) :
    hostsOf (hostlistCollapse ranges) = hostsOf ranges ∧
      ∀ hr ∈ hostlistCollapse ranges, hr.Canonical := by
  induction ranges with
  | nil => exact ⟨rfl, h⟩
  | cons hprev rest ih =>
    obtain ⟨hprevCanonical, hrest⟩ := List.forall_mem_cons.mp h
    obtain ⟨hhosts, hcanonical⟩ := ih hrest
    rw [hostlistCollapse]
    cases hcollapsed : hostlistCollapse rest with
    | nil =>
      rw [hcollapsed] at hhosts
      exact ⟨by rw [hostsOf_cons hprev rest, ← hhosts, hostsOf_cons],
        List.forall_mem_singleton.mpr hprevCanonical⟩
    | cons hnext tail =>
      rw [hcollapsed] at hhosts hcanonical
      obtain ⟨hnextCanonical, htail⟩ := List.forall_mem_cons.mp hcanonical
      have hkept : hostsOf (hprev :: hnext :: tail) = hostsOf (hprev :: rest) := by
        rw [hostsOf_cons hprev rest, ← hhosts, hostsOf_cons]
      simp only
      split_ifs with hadjacent hcombine
      · obtain ⟨-, -, hjoined⟩ := hprevCanonical.toValid.hosts_join
          hnextCanonical.toValid hadjacent.1 hadjacent.2 hcombine
        refine ⟨?_, List.forall_mem_cons.mpr ⟨canonical_join hprevCanonical hnextCanonical
          hadjacent.1 hadjacent.2 hcombine, htail⟩⟩
        rw [← hkept, hostsOf_cons, hostsOf_cons, hostsOf_cons, ← List.append_assoc]
        exact congrArg (· ++ _) hjoined
      · obtain ⟨hnormal1, hnormal2⟩ := normal_hostrangeWidthCombine hprev hnext
        obtain ⟨hwritten1, hwritten2⟩ := canonical_hostrangeWidthCombine hprevCanonical
          hnextCanonical (hostrangePrefixCmp_eq_zero_iff.mp hadjacent.1).2
        refine ⟨?_, List.forall_mem_cons.mpr ⟨hwritten1, List.forall_mem_cons.mpr
          ⟨hwritten2, htail⟩⟩⟩
        rw [← hkept]
        refine hostsOf_congr ?_
        rw [List.map_cons, List.map_cons, hnormal1, hnormal2]
        rfl
      · exact ⟨hkept, List.forall_mem_cons.mpr ⟨hprevCanonical, hcanonical⟩⟩

/-! ### `hostlist_sort` -/

section

variable {qsort : List HostRange → List HostRange} (hqsort : IsSort hostrangeCmp qsort)

include hqsort

/-- Assumes: canonical ranges. The array that `qsort` leaves is in order, denotes the same hosts,
has a padding clash if the array before had one, and has canonical ranges. -/
theorem qsort_spec {ranges : List HostRange} (h : ∀ hr ∈ ranges, hr.Canonical) :
    (qsort ranges).Pairwise (fun h1 h2 ↦ h1.key ≤ h2.key) ∧
      (hostsOf (qsort ranges)).Perm (hostsOf ranges) ∧
      (PaddingClash (qsort ranges) ↔ PaddingClash ranges) ∧
      ∀ hr ∈ qsort ranges, hr.Canonical := by
  have hperm := perm_normal_qsort hqsort ranges
  have hnormal : ∀ list : List HostRange,
      PaddingClash list ↔ PaddingClash (list.map HostRange.normal) := fun list ↦
    paddingClash_congr (by simp [Function.comp_def])
  refine ⟨hqsort.sorted _ _ respects_hostrangeCmp ranges h, perm_hostsOf_of_normal hperm, ?_,
    (hqsort.compared ranges).forall_mem (fun _ _ ↦ canonical_hostrangeCmp) h⟩
  rw [hnormal, hnormal ranges, paddingClash_perm hperm]

/-- Assumes: canonical ranges. `hostlist_coalesce` of the sorted array settles it or fails. -/
theorem coalesce_settles_or_fails (ndebug : Bool) {ranges : List HostRange}
    (h : ∀ hr ∈ ranges, hr.Canonical) :
    (∃ settled, Halts (coalesceBody ndebug) ((qsort ranges).length - 1, qsort ranges)
      (.ok settled) ∧
      Settled settled ∧ (hostsOf settled).Perm (hostsOf ranges) ∧ (∀ hr ∈ settled, hr.Canonical) ∧
      ¬PaddingClash ranges) ∨
    ∃ failure, Halts (coalesceBody ndebug) ((qsort ranges).length - 1, qsort ranges)
      (.error failure) ∧ PaddingClash ranges := by
  obtain ⟨hsorted, hperm, hclash, hcanonical⟩ := qsort_spec hqsort h
  cases hq : qsort ranges with
  | nil =>
    rw [hq] at hperm hclash
    refine Or.inl ⟨[], halts_of_result rfl, List.isChain_nil, hperm, by simp, ?_⟩
    rw [← hclash]
    exact Settled.not_paddingClash List.isChain_nil
  | cons first rest =>
    rw [hq] at hsorted hperm hclash hcanonical
    have hrun := settlesOrFails_of_sorted ndebug rest [] first hcanonical (by simpa using hsorted)
    simp only [List.length_nil, Nat.zero_add, List.nil_append] at hrun
    rw [List.length_cons, Nat.add_sub_cancel]
    rcases hrun with ⟨h', tail', hreach, hsettled, hsettledCanonical, -, hhosts, hsame⟩ | ⟨state,
      failure, hreach, hfault, hbad⟩
    · refine Or.inl ⟨h' :: tail', ?_, hsettled, hhosts.trans hperm, hsettledCanonical, ?_⟩
      · exact (halts_iff_of_reaches hreach).mpr (halts_of_result rfl)
      · rw [← hclash]
        exact hsame.not.mp hsettled.not_paddingClash
    · exact Or.inr ⟨failure, (halts_iff_of_reaches hreach).mpr (halts_of_fault hfault),
        hclash.mp hbad⟩

/-- Assumes: a canonical list without a padding clash. The sort ends, with the same hosts in some
order, a canonical list and the same count. -/
theorem hostlistSort_spec (ndebug : Bool) {hl : Hostlist} (hcanonical : hl.Canonical)
    (hclash : ¬PaddingClash hl.ranges) :
    ∃ rounds hl', hostlistSort ndebug qsort rounds hl = some (.ok hl') ∧ hl'.hosts.Perm hl.hosts ∧
      hl'.Canonical := by
  unfold hostlistSort hostlistCoalesce
  by_cases hshort : hl.ranges.length ≤ 1
  · exact ⟨0, hl, if_pos hshort, .refl _, hcanonical⟩
  · rcases coalesce_settles_or_fails hqsort ndebug hcanonical.ranges_canonical with
      ⟨settled, ⟨rounds, hrun⟩, -, hperm, hsettled, -⟩ | ⟨failure, -, hbad⟩
    · obtain ⟨hhosts, hcollapsed⟩ := hostlistCollapse_spec settled hsettled
      have hhostsPerm : (hostsOf (hostlistCollapse settled)).Perm hl.hosts := hhosts ▸ hperm
      refine ⟨rounds, { hl with ranges := hostlistCollapse settled }, ?_, hhostsPerm,
        ⟨⟨fun hr hmem ↦ (hcollapsed hr hmem).toValid, ?_⟩, hcollapsed⟩⟩
      · rw [if_neg hshort]
        simp only [hrun]
        rfl
      · exact hcanonical.nhosts_eq.trans (congrArg (fun n : ℕ ↦ toInt n) hhostsPerm.length_eq.symm)
    · exact absurd hbad hclash

/-- Assumes: a canonical list with a padding clash. The sort does not end well. -/
theorem hostlistSort_clash (ndebug : Bool) {hl : Hostlist} (hcanonical : hl.Canonical)
    (hclash : PaddingClash hl.ranges) (rounds : ℕ) (hl' : Hostlist) :
    hostlistSort ndebug qsort rounds hl ≠ some (.ok hl') := by
  unfold hostlistSort hostlistCoalesce
  have hlong : ¬hl.ranges.length ≤ 1 := by
    intro hshort
    obtain ⟨hr, hmem, hsingle, hpadded, hcount⟩ := hclash
    have hle := hl.ranges.countP_le_length
      (p := fun other ↦ decide (Reaching hl.ranges hr.pfx hr.digits other))
    omega
  rcases coalesce_settles_or_fails hqsort ndebug hcanonical.ranges_canonical with
    ⟨settled, -, -, -, -, hnone⟩ | ⟨failure, hfails, -⟩
  · exact absurd hclash hnone
  · intro hsorted
    rw [if_neg hlong, Option.map_eq_some_iff] at hsorted
    obtain ⟨outcome, hrun, hok⟩ := hsorted
    obtain rfl := hfails.unique ⟨rounds, hrun⟩
    exact absurd hok (by simp [Except.map])

end

/-- The outcome of a sort does not depend on the bound on the rounds. -/
theorem hostlistSort_unique {ndebug : Bool} {qsort : List HostRange → List HostRange}
    {rounds rounds' : ℕ} {hl : Hostlist} {outcome outcome' : Except SortFault Hostlist}
    (h : hostlistSort ndebug qsort rounds hl = some outcome)
    (h' : hostlistSort ndebug qsort rounds' hl = some outcome') : outcome = outcome' := by
  unfold hostlistSort hostlistCoalesce at h h'
  by_cases hshort : hl.ranges.length ≤ 1
  · rw [if_pos hshort] at h h'
    exact Option.some.inj (h.symm.trans h')
  · rw [if_neg hshort, Option.map_eq_some_iff] at h h'
    obtain ⟨ending, hrun, rfl⟩ := h
    obtain ⟨ending', hrun', rfl⟩ := h'
    rw [Halts.unique ⟨rounds, hrun⟩ ⟨rounds', hrun'⟩]

/-! ### Pushed names -/

/-- What the sort of a list is to leave: ranges with bounds in order, a count that is the sum of the
sizes of the ranges, and the same names as often as before. -/
structure SortedAs (hl hl' : Hostlist) : Prop where
  bounds : ∀ hr ∈ hl'.ranges, hr.lo ≤ hr.hi
  nhosts_eq : hl'.nhosts = ((hl'.ranges.map hostrangeCount).sum : ℕ)
  hosts_perm : hl'.hosts.Perm hl.hosts

/-- Assumes: valid ranges. The sum of their sizes is the number of hosts. -/
theorem sum_hostrangeCount {ranges : List HostRange} (h : ∀ hr ∈ ranges, hr.Valid) :
    (ranges.map hostrangeCount).sum = (hostsOf ranges).length := by
  unfold hostsOf
  rw [List.length_flatMap]
  exact congrArg List.sum (List.map_congr_left fun hr hmem ↦ (h hr hmem).hostrangeCount_eq)

/-- Assumes: a list of pushed plain names. Its sort ends, without a failed assertion and with the
list as it is to be, exactly when there are less than `2 ^ 31` names and the list has no padding
clash. -/
theorem hostlistSort_iff {qsort : List HostRange → List HostRange}
    (hqsort : IsSort hostrangeCmp qsort) (ndebug : Bool) {names : List (List Char)} {hl : Hostlist}
    (hplain : ∀ name ∈ names, PlainName name) (hpush : pushAll names hostlistNew = some hl) :
    (∃ rounds hl', hostlistSort ndebug qsort rounds hl = some (.ok hl') ∧ SortedAs hl hl') ↔
      names.length < 2 ^ 31 ∧ ¬PaddingClash hl.ranges := by
  obtain ⟨pushed, hpushed, hhosts, hcanonical⟩ :=
    pushAll_spec names hostlistNew hostlistNew_canonical hplain
  obtain rfl := Option.some.inj (hpush.symm.trans hpushed)
  rw [hosts_hostlistNew, List.nil_append] at hhosts
  by_cases hclash : PaddingClash hl.ranges
  · refine iff_of_false ?_ fun h ↦ h.2 hclash
    rintro ⟨rounds, hl', hsort, -⟩
    exact hostlistSort_clash hqsort ndebug hcanonical hclash rounds hl' hsort
  · obtain ⟨rounds, hl', hsort, hperm, hcanonical'⟩ :=
      hostlistSort_spec hqsort ndebug hcanonical hclash
    have hlength : hl'.hosts.length = names.length := by rw [hperm.length_eq, hhosts]
    have hsum : (hl'.ranges.map hostrangeCount).sum = names.length := by
      rw [sum_hostrangeCount hcanonical'.ranges_valid, ← hlength]
      rfl
    constructor
    · rintro ⟨rounds', other, hother, hsorted⟩
      obtain rfl := Except.ok.inj (hostlistSort_unique hsort hother)
      have hcount := hsorted.nhosts_eq
      rw [hsum, hcanonical'.nhosts_eq, hlength] at hcount
      have hlt := toInt_lt (names.length : ℤ)
      exact ⟨by omega, hclash⟩
    · rintro ⟨hsmall, -⟩
      refine ⟨rounds, hl', hsort, fun hr hmem ↦ (hcanonical'.ranges_valid hr hmem).lo_le_hi, ?_,
        hperm⟩
      rw [hsum, hcanonical'.nhosts_eq, hlength]
      exact toInt_eq_self (by omega) (by omega)

/-- The sort of overlapping ranges with a zero-padded one behind them. -/
theorem hostlistSort_iff_mixed :
    (∃ hl, pushAll ["a8".toList, "a9".toList, "a8".toList, "a09".toList] hostlistNew = some hl ∧
      ((∃ rounds hl', hostlistSort false (insertionSort hostrangeCmp) rounds hl = some (.ok hl') ∧
        SortedAs hl hl') ↔
        ["a8".toList, "a9".toList, "a8".toList, "a09".toList].length < 2 ^ 31 ∧
          ¬PaddingClash hl.ranges)) :=
  ⟨_, rfl, hostlistSort_iff isSort_insertionSort false (by decide) rfl⟩

/-- The names of two runs past `9`, and of a host whose suffix is padded to two digits. -/
def clashingNames : List (List Char) :=
  ["node8".toList, "node9".toList, "node10".toList, "node9".toList, "node10".toList,
    "node09".toList]

/-- The sort of the clashing names fails: with assertions that of `hostrange_intersect` does, and
without them a freed range is read. Neither build has a run that ends well. -/
theorem hostlistSort_fails :
    (∀ name ∈ clashingNames, PlainName name) ∧ ∃ hl, pushAll clashingNames hostlistNew = some hl ∧
      (∃ rounds, hostlistSort false (insertionSort hostrangeCmp) rounds hl =
        some (.error .assertion)) ∧
      (∃ rounds, hostlistSort true (insertionSort hostrangeCmp) rounds hl =
        some (.error .useAfterFree)) ∧
      ∀ ndebug rounds hl', hostlistSort ndebug (insertionSort hostrangeCmp) rounds hl ≠
        some (.ok hl') := by
  obtain ⟨hl, hpush⟩ : ∃ hl, pushAll clashingNames hostlistNew = some hl := ⟨_, rfl⟩
  have hasserts : hostlistSort false (insertionSort hostrangeCmp) 40 hl =
      some (.error .assertion) := by
    obtain rfl := Option.some.inj hpush
    decide +kernel
  have hreads : hostlistSort true (insertionSort hostrangeCmp) 40 hl =
      some (.error .useAfterFree) := by
    obtain rfl := Option.some.inj hpush
    decide +kernel
  refine ⟨by decide, hl, hpush, ⟨40, hasserts⟩, ⟨40, hreads⟩, fun ndebug rounds hl' hsort ↦ ?_⟩
  cases ndebug with
  | false => exact absurd (hostlistSort_unique hasserts hsort) (by simp)
  | true => exact absurd (hostlistSort_unique hreads hsort) (by simp)

end Whatsup
