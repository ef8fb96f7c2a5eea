import Whatsup.Hostlist.RoundTrip
import Whatsup.Hostlist.SortRun

/-!
# Lists filled with host names

The lists of a handle are made empty, filled with `hostlist_push`, searched with `hostlist_find` and
sorted with `hostlist_sort`, in any order. `Hostlist.Filled` is what comes of that if every name
pushed is bracket-free and of at most 64 characters.

`Hostlist.Filled.canonical` and `Hostlist.Filled.plain` are what holds of every such list: its
ranges are canonical, and it denotes plain names only. So every such list can be printed
(`Hostlist.Filled.printable`).
-/

set_option autoImplicit false
set_option relaxedAutoImplicit false

namespace Whatsup

open CLib

/-- The lists that pushes of plain names, searches and sorts that succeed make. -/
inductive Hostlist.Filled : Hostlist → Prop
  | new : Hostlist.Filled hostlistNew
  | push {hl hl' : Hostlist} {name : List Char} {count : ℤ} (hfilled : hl.Filled)
    (hname : PlainName name)
    (hpush : hostlistPush hl name = some (count, hl')) : Hostlist.Filled hl'
  | find {hl : Hostlist} (hfilled : hl.Filled) (hostname : List Char) :
    Hostlist.Filled (hostlistFind hl hostname).2
  | sort {hl hl' : Hostlist} {ndebug : Bool} {qsort : List HostRange → List HostRange} {rounds : ℕ}
    (hfilled : hl.Filled) (hqsort : IsSort hostrangeCmp qsort)
    (hsort : hostlistSort ndebug qsort rounds hl = some (.ok hl')) : Hostlist.Filled hl'

/-- Assumes: a canonical list whose sort succeeds. The list is canonical afterwards, and denotes the
same names in some order. -/
theorem hostlistSort_ok {ndebug : Bool} {qsort : List HostRange → List HostRange} {rounds : ℕ}
    {hl hl' : Hostlist} (hqsort : IsSort hostrangeCmp qsort) (hcanonical : hl.Canonical)
    (hsort : hostlistSort ndebug qsort rounds hl = some (.ok hl')) :
    hl'.Canonical ∧ hl'.hosts.Perm hl.hosts := by
  by_cases hclash : PaddingClash hl.ranges
  · exact absurd hsort (hostlistSort_clash hqsort ndebug hcanonical hclash rounds hl')
  · obtain ⟨rounds', sorted, hsorted, hperm, hkept⟩ :=
      hostlistSort_spec hqsort ndebug hcanonical hclash
    obtain rfl := Except.ok.inj (hostlistSort_unique hsorted hsort)
    exact ⟨hkept, hperm⟩

/-- A filled list is canonical, and every name it denotes is plain. -/
theorem Hostlist.Filled.spec {hl : Hostlist} (h : hl.Filled) :
    hl.Canonical ∧ ∀ name ∈ hl.hosts, PlainName name := by
  induction h with
  | new => exact ⟨hostlistNew_canonical, fun name hmem ↦ absurd hmem List.not_mem_nil⟩
  | @push hl hl' name count hfilled hname hpush ih =>
    obtain ⟨pushed, hpushed, hhosts, hcanonical⟩ := hostlistPush_name ih.1 hname
    obtain rfl := (Prod.mk.inj (Option.some.inj (hpush.symm.trans hpushed))).2
    refine ⟨hcanonical, fun other hmem ↦ ?_⟩
    rw [hhosts] at hmem
    rcases List.mem_append.mp hmem with hold | hnew
    · exact ih.2 other hold
    · rwa [List.mem_singleton.mp hnew]
  | find hfilled hostname ih =>
    obtain ⟨-, hhosts, hcanonical⟩ := hostlistFind_spec ih.1 hostname
    exact ⟨hcanonical, hhosts ▸ ih.2⟩
  | sort hfilled hqsort hsort ih =>
    obtain ⟨hcanonical, hperm⟩ := hostlistSort_ok hqsort ih.1 hsort
    exact ⟨hcanonical, fun name hmem ↦ ih.2 name (hperm.mem_iff.mp hmem)⟩

/-- A filled list is canonical. -/
theorem Hostlist.Filled.canonical {hl : Hostlist} (h : hl.Filled) : hl.Canonical :=
  h.spec.1

/-- A filled list denotes plain names. -/
theorem Hostlist.Filled.plain {hl : Hostlist} (h : hl.Filled) : ∀ name ∈ hl.hosts, PlainName name :=
  h.spec.2

/-- Assumes: plain names and a filled list. Pushing the names leaves a filled list. -/
theorem filled_pushAll (names : List (List Char)) :
    ∀ hl hl' : Hostlist, hl.Filled → (∀ name ∈ names, PlainName name) →
      pushAll names hl = some hl' →
      hl'.Filled := by
  induction names with
  | nil =>
    intro hl hl' hfilled _ hpush
    obtain rfl := Option.some.inj hpush
    exact hfilled
  | cons name names ih =>
    intro hl hl' hfilled hplain hpush
    obtain ⟨hname, hnames⟩ := List.forall_mem_cons.mp hplain
    rw [pushAll] at hpush
    cases hfirst : hostlistPush hl name with
    | none =>
      rw [hfirst] at hpush
      exact absurd hpush (by simp)
    | some pushed =>
      rw [hfirst] at hpush
      exact ih _ hl' (hfilled.push hname hfirst) hnames hpush

/-- Assumes: a range with bounds in order. Its prefix starts one of its names. -/
theorem HostRange.exists_host {hr : HostRange} (hle : hr.lo ≤ hr.hi) : ∃ name ∈ hr.hosts,
    hr.pfx <+: name := by
  rcases Bool.eq_false_or_eq_true hr.singlehost with hsingle | hsingle
  · exact ⟨hr.pfx, by rw [HostRange.hosts, if_pos hsingle]; simp, List.prefix_rfl⟩
  · exact ⟨_, (HostRange.mem_hosts_iff hsingle).mpr ⟨hr.lo, le_rfl, hle, rfl⟩,
      List.prefix_append _ _⟩

/-- A filled list can be printed and read back. -/
theorem Hostlist.Filled.printable {hl : Hostlist} (h : hl.Filled) : hl.Printable where
  bounds hr hmem := by
    have hcanonical := h.canonical.ranges_canonical hr hmem
    exact ⟨hcanonical.lo_le_hi, lt_of_le_of_lt hcanonical.hi_le (by decide)⟩
  pfx_plain hr hmem c hc := by
    obtain ⟨name, hname, hstart⟩ :=
      HostRange.exists_host (h.canonical.ranges_canonical hr hmem).lo_le_hi
    exact (h.plain name (List.mem_flatMap.mpr ⟨hr, hmem, hname⟩)).plain c (hstart.subset hc)
  name_length name hname := ⟨(h.plain name hname).ne_nil, (h.plain name hname).length_le⟩

end Whatsup
