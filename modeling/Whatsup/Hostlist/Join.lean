import Whatsup.Hostlist.Sort

/-!
# Joining two ranges

`hostrange_join` joins two ranges in order if they have one prefix and widths that can be combined
and the second does not start behind the end of the first: its result is then the number of hosts
that both denote, and the first range becomes the union. Else the result is `-1`.

`hostrangeJoin_of_joinable` and `hostrangeJoin_of_not_joinable` say what a call does to two sound
ranges in order, of less than `2 ^ 31` hosts each.
-/

set_option autoImplicit false
set_option relaxedAutoImplicit false

namespace Whatsup

open CLib

/-! ### The function -/

/-- What `hostrange_join` does behind its assertion: its result, and the ranges as the call leaves
them. -/
def hostrangeJoined (h1 h2 : HostRange) : ℤ × HostRange × HostRange :=
  if hostrangePrefixCmp h1 h2 = 0 then
    let (combine, h1, h2) := hostrangeWidthCombine h1 h2
    if combine then
      if h1.singlehost && h2.singlehost then (1, h1, h2)
      else if h1.hi = ulongSub h2.lo 1 then (0, { h1 with hi := h2.hi }, h2)
      else if h2.lo ≤ h1.hi then
        if h1.hi < h2.hi then
          (toInt (ulongAdd (ulongSub h1.hi h2.lo) 1), { h1 with hi := h2.hi }, h2)
        else (toInt (hostrangeCount h2), h1, h2)
      else (-1, h1, h2)
    else (-1, h1, h2)
  else (-1, h1, h2)

/-- `hostrange_join`. Without `NDEBUG` the order of the ranges is asserted, which may overwrite
their widths. -/
def hostrangeJoin (ndebug : Bool) (h1 h2 : HostRange) :
    Except SortFault (ℤ × HostRange × HostRange) :=
  let (order, h1, h2) := if ndebug then (0, h1, h2) else hostrangeCmp h1 h2
  if 0 < order then .error .assertion else .ok (hostrangeJoined h1 h2)

/-! ### Sound ranges -/

/-- A single host is written with one digit, which is never used. -/
theorem HostRange.Sound.digits_single {hr : HostRange} (h : hr.Sound)
    (hsingle : hr.singlehost = true) : hr.digits = 1 := by
  unfold HostRange.digits
  rw [(h.single hsingle).2.2, (h.single hsingle).1]
  rfl

/-- Assumes: a sound range, and a width that is zero if it is a single host. The range of that width
is sound. -/
theorem HostRange.Sound.setWidth {hr : HostRange} (h : hr.Sound) {width : ℕ}
    (hwidth : hr.singlehost = true → width = 0) : HostRange.Sound { hr with width := width } where
  single hsingle := ⟨(h.single hsingle).1, (h.single hsingle).2.1, hwidth hsingle⟩
  lo_le := h.lo_le
  hi_le := h.hi_le
  lo_le_hi := h.lo_le_hi

/-- Two ranges after a call: as they were written before it, and sound. -/
structure KeptSound (h1 h2 g1 g2 : HostRange) : Prop where
  normal1 : g1.normal = h1.normal
  normal2 : g2.normal = h2.normal
  sound1 : g1.Sound
  sound2 : g2.Sound

/-- Assumes: sound ranges of one prefix. Combining their widths keeps them. -/
theorem keptSound_hostrangeWidthCombine {h1 h2 : HostRange} (hsound1 : h1.Sound)
    (hsound2 : h2.Sound) (hsame : h1.singlehost = h2.singlehost) :
    KeptSound h1 h2 (hostrangeWidthCombine h1 h2).2.1 (hostrangeWidthCombine h1 h2).2.2 := by
  obtain ⟨hnormal1, hnormal2⟩ := normal_hostrangeWidthCombine h1 h2
  have hwidths : h1.singlehost = true → (hostrangeWidthCombine h1 h2).2.1.width = 0 ∧
      (hostrangeWidthCombine h1 h2).2.2.width = 0 := by
    intro hsingle
    have hwidth1 := (hsound1.single hsingle).2.2
    have hwidth2 := (hsound2.single (hsame ▸ hsingle)).2.2
    have hresult : widthEquiv h1.lo h1.width h2.lo h2.width = (true, h1.width, h2.width) := by
      unfold widthEquiv
      simp [hwidth1, hwidth2]
    unfold hostrangeWidthCombine
    rw [hresult]
    exact ⟨hwidth1, hwidth2⟩
  exact ⟨hnormal1, hnormal2, hsound1.setWidth fun h ↦ (hwidths h).1,
    hsound2.setWidth fun h ↦ (hwidths (hsame.trans h)).2⟩

/-- Assumes: sound ranges. A comparison keeps them. -/
theorem keptSound_hostrangeCmp {h1 h2 : HostRange} (hsound1 : h1.Sound) (hsound2 : h2.Sound) :
    KeptSound h1 h2 (hostrangeCmp h1 h2).2.1 (hostrangeCmp h1 h2).2.2 := by
  rw [snd_hostrangeCmp]
  split_ifs with hpfxCmp
  · exact keptSound_hostrangeWidthCombine hsound1 hsound2
      (hostrangePrefixCmp_eq_zero_iff.mp hpfxCmp).2
  · exact ⟨rfl, rfl, hsound1, hsound2⟩

/-! ### What a call does -/

/-- Two ranges in order are joined: they have one prefix and widths that can be combined, and the
second starts at the latest behind the end of the first. -/
def Joinable (h1 h2 : HostRange) : Prop :=
  h1.pfx = h2.pfx ∧ h1.singlehost = h2.singlehost ∧ (hostrangeWidthCombine h1 h2).1 = true ∧
    (h1.singlehost = true ∨ h2.lo ≤ h1.hi + 1)

/-- Assumes: ranges as they are written. Whether they are joined depends on them alone. -/
theorem joinable_congr {h1 h2 g1 g2 : HostRange} (hnormal1 : g1.normal = h1.normal)
    (hnormal2 : g2.normal = h2.normal) : Joinable g1 g2 ↔ Joinable h1 h2 := by
  have hkey1 : g1.key = h1.key := by rw [← HostRange.key_normal, hnormal1, HostRange.key_normal]
  have hkey2 : g2.key = h2.key := by rw [← HostRange.key_normal, hnormal2, HostRange.key_normal]
  obtain ⟨hpfx1, hsingle1, -, -⟩ := HostRange.key_eq_iff.mp hkey1
  obtain ⟨hpfx2, hsingle2, -, hlo2⟩ := HostRange.key_eq_iff.mp hkey2
  have hhi : g1.hi = h1.hi := by rw [← HostRange.hi_normal, hnormal1, HostRange.hi_normal]
  unfold Joinable
  rw [hpfx1, hpfx2, hsingle1, hsingle2, combine_congr_key hkey1 hkey2, hlo2, hhi]

/-- The first range becomes the union of the two, and the result is the number of hosts of both. -/
structure Joined (h1 h2 g : HostRange) (ndup : ℕ) : Prop where
  sound : g.Sound
  key_eq : g.key = h1.key
  hi_le : g.hi ≤ max h1.hi h2.hi
  mem_hosts : ∀ name, name ∈ g.hosts ↔ name ∈ h1.hosts ∨ name ∈ h2.hosts
  length_eq : g.hosts.length + ndup = h1.hosts.length + h2.hosts.length

/-- Assumes: two ranges in order, the second of which starts at the latest behind the end of the
first, and a width that writes their numbers as they do. The range of that width up to the later end
is the union. -/
theorem joined_of_width {h1 h2 : HostRange} {width ndup : ℕ} (hsound1 : h1.Sound)
    (hsound2 : h2.Sound) (hsingle1 : h1.singlehost = false) (hsingle2 : h2.singlehost = false)
    (hpfx : h1.pfx = h2.pfx) (hlo : h1.lo ≤ h2.lo) (hnext : h2.lo ≤ h1.hi + 1)
    (hwidth1 : ∀ number, h1.lo ≤ number → padded width number = padded h1.width number)
    (hwidth2 : ∀ number, h2.lo ≤ number → padded width number = padded h2.width number)
    (hndup : ndup + max h1.hi h2.hi = h1.hi + h2.hi + 1 - h2.lo) :
    Joined h1 h2 { h1 with width := width, hi := max h1.hi h2.hi } ndup := by
  have hle1 := hsound1.lo_le_hi
  have hle2 := hsound2.lo_le_hi
  have hnot : h1.singlehost = true → False := fun h ↦ absurd (hsingle1.symm.trans h) (by decide)
  refine ⟨⟨⟨fun h ↦ (hnot h).elim, hsound1.lo_le, max_le hsound1.hi_le hsound2.hi_le⟩,
    le_max_of_le_left hle1⟩, ?_, le_rfl, fun name ↦ ?_, ?_⟩
  · have hdigits := (padded_eq_padded_iff).mp (hwidth1 h1.lo le_rfl)
    refine HostRange.key_eq_iff.mpr ⟨rfl, rfl, ?_, rfl⟩
    unfold HostRange.digits
    simp only
    omega
  · rw [HostRange.mem_hosts_iff hsingle1, HostRange.mem_hosts_iff hsingle2,
      HostRange.mem_hosts_iff
        (show HostRange.singlehost { h1 with width := width, hi := max h1.hi h2.hi }
        = false from hsingle1)]
    simp only
    constructor
    · rintro ⟨number, hlow, hhigh, rfl⟩
      rcases Nat.lt_or_ge h1.hi number with hlater | hearlier
      · have hlow2 : h2.lo ≤ number := by omega
        exact Or.inr ⟨number, hlow2, by omega, by rw [← hpfx, hwidth2 number hlow2]⟩
      · exact Or.inl ⟨number, hlow, hearlier, by rw [hwidth1 number hlow]⟩
    · rintro (⟨number, hlow, hhigh, rfl⟩ | ⟨number, hlow, hhigh, rfl⟩)
      · exact ⟨number, hlow, le_max_of_le_left hhigh, by rw [hwidth1 number hlow]⟩
      · exact ⟨number, hlo.trans hlow, le_max_of_le_right hhigh, by
          rw [← hpfx, hwidth2 number hlow]⟩
  · rw [HostRange.length_hosts hsingle1, HostRange.length_hosts hsingle2,
      HostRange.length_hosts
        (show HostRange.singlehost { h1 with width := width, hi := max h1.hi h2.hi }
        = false from hsingle1)]
    simp only
    omega

/-- Assumes: two single hosts that are joined. Behind the assertion the first is kept, and one host
is counted twice. -/
theorem hostrangeJoined_single {h1 h2 : HostRange} (hsound1 : h1.Sound) (hsound2 : h2.Sound)
    (hjoin : Joinable h1 h2) (hsingle : h1.singlehost = true) :
    ∃ g1 g2, hostrangeJoined h1 h2 = (1, g1, g2) ∧ Joined h1 h2 g1 1 := by
  obtain ⟨hpfx, hsame, hcombine, -⟩ := hjoin
  have hpfxCmp : hostrangePrefixCmp h1 h2 = 0 := hostrangePrefixCmp_eq_zero_iff.mpr ⟨hpfx, hsame⟩
  have hsingle2 : h2.singlehost = true := hsame ▸ hsingle
  have hhosts1 : h1.hosts = [h1.pfx] := if_pos hsingle
  have hhosts2 : h2.hosts = [h1.pfx] := hpfx ▸ if_pos hsingle2
  have hkept := keptSound_hostrangeWidthCombine hsound1 hsound2 hsame
  unfold hostrangeJoined
  simp only [hpfxCmp, if_true]
  generalize hostrangeWidthCombine h1 h2 = combined at hcombine hkept ⊢
  obtain ⟨combine, g1, g2⟩ := combined
  simp only at hcombine hkept ⊢
  have hsingles : g1.singlehost = true ∧ g2.singlehost = true := by
    rw [← HostRange.singlehost_normal g1, ← HostRange.singlehost_normal g2, hkept.normal1,
      hkept.normal2]
    exact ⟨hsingle, hsingle2⟩
  have hkeptHosts : g1.hosts = [h1.pfx] := by
    rw [← HostRange.hosts_normal, hkept.normal1, HostRange.hosts_normal, hhosts1]
  refine ⟨g1, g2, ?_, hkept.sound1, ?_, ?_, fun name ↦ ?_, ?_⟩
  · simp only [hcombine, hsingles, Bool.and_self, if_true]
  · rw [← HostRange.key_normal, hkept.normal1, HostRange.key_normal]
  · rw [← HostRange.hi_normal, hkept.normal1, HostRange.hi_normal]
    exact le_max_left _ _
  · rw [hkeptHosts, hhosts1, hhosts2, or_self]
  · rw [hkeptHosts, hhosts1, hhosts2, List.length_singleton]

/-- Assumes: sound ranges in order that are joined and are not single hosts, of less than `2 ^ 31`
hosts each. Behind the assertion the first becomes the union. -/
theorem hostrangeJoined_range {h1 h2 : HostRange} (hsound1 : h1.Sound) (hsound2 : h2.Sound)
    (horder : h1.key ≤ h2.key) (hjoin : Joinable h1 h2) (hsingle : h1.singlehost = false)
    (hsmall1 : h1.hosts.length < 2147483648) (hsmall2 : h2.hosts.length < 2147483648) :
    ∃ (ndup : ℕ) (g1 g2 : HostRange), hostrangeJoined h1 h2 = ((ndup : ℤ), g1, g2) ∧
      Joined h1 h2 g1 ndup := by
  obtain ⟨hpfx, hsame, hcombine, hnear⟩ := hjoin
  have hpfxCmp : hostrangePrefixCmp h1 h2 = 0 := hostrangePrefixCmp_eq_zero_iff.mpr ⟨hpfx, hsame⟩
  obtain ⟨width, hresult, hwidth1, hwidth2⟩ := widthEquiv_of_eq_true hcombine
  have hcombined : hostrangeWidthCombine h1 h2 =
      (true, { h1 with width := width }, { h2 with width := width }) := by
    unfold hostrangeWidthCombine
    rw [hresult]
  have hsingle2 := hsame ▸ hsingle
  have hle1 := hsound1.lo_le_hi
  have hle2 := hsound2.lo_le_hi
  have hmax1 := hsound1.hi_le
  have hlo := (HostRange.key_le_iff_of_combine hpfx hsame hcombine).mp horder
  have hstart : h2.lo ≤ h1.hi + 1 := hnear.resolve_left (by simp [hsingle])
  have hcount2 := hsound2.hostrangeCount_eq (hsmall2.trans (by decide))
  rw [HostRange.length_hosts hsingle2] at hcount2 hsmall2
  rw [HostRange.length_hosts hsingle] at hsmall1
  have hbehind : h1.hi = ulongMax → h2.lo ≠ 0 := by
    unfold ulongMax
    omega
  have hjoined := fun (ndup : ℕ) (hndup : ndup + max h1.hi h2.hi = h1.hi + h2.hi + 1 - h2.lo) ↦
    joined_of_width hsound1 hsound2 hsingle hsingle2 hpfx hlo hstart hwidth1 hwidth2 hndup
  have hwritten2 : hostrangeCount { h2 with width := width } = hostrangeCount h2 := rfl
  unfold hostrangeJoined
  simp only [hpfxCmp, hcombined, if_true, hsingle, Bool.false_and, Bool.false_eq_true, if_false,
    eq_ulongSub_one_iff hbehind, hwritten2, hcount2]
  rw [hsingle] at hjoined
  split_ifs with hadjacent hoverlap hlonger
  · refine ⟨0, _, _, rfl, ?_⟩
    have hunion := hjoined 0 (by omega)
    rwa [max_eq_right (by omega)] at hunion
  · refine ⟨h1.hi + 1 - h2.lo, { h1 with hi := h2.hi, width := width, singlehost := false },
      { h2 with width := width }, ?_, ?_⟩
    · have hexact : ulongAdd (ulongSub h1.hi h2.lo) 1 = h1.hi + 1 - h2.lo := by
        rw [ulongSub_eq_sub hoverlap]
        unfold ulongAdd
        unfold ulongMax at hmax1
        omega
      rw [hexact, toInt_eq_self (by omega) (by omega)]
    · have hunion := hjoined (h1.hi + 1 - h2.lo) (by omega)
      rwa [max_eq_right (by omega)] at hunion
  · refine ⟨h2.hi + 1 - h2.lo, { h1 with width := width, singlehost := false },
      { h2 with width := width }, ?_, ?_⟩
    · rw [toInt_eq_self (by omega) (by omega)]
    · have hunion := hjoined (h2.hi + 1 - h2.lo) (by omega)
      rwa [max_eq_left (by omega)] at hunion
  · omega

/-- Assumes: sound ranges in order that are not joined. Behind the assertion the result is `-1`, and
the ranges are kept. -/
theorem hostrangeJoined_none {h1 h2 : HostRange} (hsound1 : h1.Sound) (hsound2 : h2.Sound)
    (hjoin : ¬Joinable h1 h2) :
    ∃ g1 g2, hostrangeJoined h1 h2 = (-1, g1, g2) ∧ KeptSound h1 h2 g1 g2 := by
  unfold hostrangeJoined
  by_cases hpfxCmp : hostrangePrefixCmp h1 h2 = 0
  · obtain ⟨hpfx, hsame⟩ := hostrangePrefixCmp_eq_zero_iff.mp hpfxCmp
    refine ⟨_, _, ?_, keptSound_hostrangeWidthCombine hsound1 hsound2 hsame⟩
    simp only [hpfxCmp, if_true]
    cases hcombine : (hostrangeWidthCombine h1 h2).1 with
    | false => simp only [Bool.false_eq_true, if_false]
    | true =>
      have hends : ¬(h1.singlehost = true ∨ h2.lo ≤ h1.hi + 1) := fun h ↦
        hjoin ⟨hpfx, hsame, hcombine, h⟩
      obtain ⟨hsingle, hfar⟩ := not_or.mp hends
      have hsingle1 : (hostrangeWidthCombine h1 h2).2.1.singlehost = false :=
        Bool.eq_false_iff.mpr hsingle
      have hhi1 : (hostrangeWidthCombine h1 h2).2.1.hi = h1.hi := rfl
      have hlo2 : (hostrangeWidthCombine h1 h2).2.2.lo = h2.lo := rfl
      have hbehind : h1.hi = ulongMax → h2.lo ≠ 0 := fun _ ↦ by omega
      simp only [hsingle1, Bool.false_and, Bool.false_eq_true, if_false, if_true, hhi1, hlo2,
        eq_ulongSub_one_iff hbehind]
      rw [if_neg (by omega), if_neg (by omega)]
  · exact ⟨h1, h2, by simp only [if_neg hpfxCmp], rfl, rfl, hsound1, hsound2⟩

/-- Assumes: sound, comparable ranges in order. The assertion passes and keeps the ranges. -/
theorem hostrangeJoin_eq (ndebug : Bool) {h1 h2 : HostRange} (hsound1 : h1.Sound)
    (hsound2 : h2.Sound) (horder : h1.key ≤ h2.key) (hcomparable : h1.Comparable h2) :
    ∃ g1 g2, hostrangeJoin ndebug h1 h2 = .ok (hostrangeJoined g1 g2) ∧ KeptSound h1 h2 g1 g2 := by
  cases ndebug with
  | true => exact ⟨h1, h2, rfl, rfl, rfl, hsound1, hsound2⟩
  | false =>
    refine ⟨_, _, ?_, keptSound_hostrangeCmp hsound1 hsound2⟩
    have hpass : ¬0 < (hostrangeCmp h1 h2).1 :=
      not_lt.mpr ((hostrangeCmp_nonpos_iff hcomparable).mpr horder)
    unfold hostrangeJoin
    simp only [Bool.false_eq_true, if_false, if_neg hpass]

/-- Assumes: ranges that are written like others. Their union is the union of the others. -/
theorem Joined.congr {h1 h2 g1 g2 g : HostRange} {ndup : ℕ} (h : Joined g1 g2 g ndup)
    (hkept : KeptSound h1 h2 g1 g2) : Joined h1 h2 g ndup := by
  have hhosts1 : g1.hosts = h1.hosts := by
    rw [← HostRange.hosts_normal, hkept.normal1, HostRange.hosts_normal]
  have hhosts2 : g2.hosts = h2.hosts := by
    rw [← HostRange.hosts_normal, hkept.normal2, HostRange.hosts_normal]
  refine ⟨h.sound, ?_, ?_, hhosts1 ▸ hhosts2 ▸ h.mem_hosts, hhosts1 ▸ hhosts2 ▸ h.length_eq⟩
  · rw [h.key_eq, ← HostRange.key_normal, hkept.normal1, HostRange.key_normal]
  · rw [← HostRange.hi_normal h1, ← HostRange.hi_normal h2, ← hkept.normal1, ← hkept.normal2,
      HostRange.hi_normal, HostRange.hi_normal]
    exact h.hi_le

/-- Assumes: sound, comparable ranges in order that are joined, of less than `2 ^ 31` hosts each.
The first becomes the union. -/
theorem hostrangeJoin_of_joinable (ndebug : Bool) {h1 h2 : HostRange} (hsound1 : h1.Sound)
    (hsound2 : h2.Sound) (horder : h1.key ≤ h2.key) (hcomparable : h1.Comparable h2)
    (hjoin : Joinable h1 h2)
    (hsmall1 : h1.hosts.length < 2147483648) (hsmall2 : h2.hosts.length < 2147483648) :
    ∃ (ndup : ℕ) (g1 g2 : HostRange), hostrangeJoin ndebug h1 h2 = .ok ((ndup : ℤ), g1, g2) ∧
      Joined h1 h2 g1 ndup := by
  obtain ⟨f1, f2, hresult, hkept⟩ := hostrangeJoin_eq ndebug hsound1 hsound2 horder hcomparable
  have hjoin' : Joinable f1 f2 := (joinable_congr hkept.normal1 hkept.normal2).mpr hjoin
  rw [hresult]
  rcases Bool.eq_false_or_eq_true f1.singlehost with hsingle | hsingle
  · obtain ⟨g1, g2, hunion, hjoined⟩ :=
      hostrangeJoined_single hkept.sound1 hkept.sound2 hjoin' hsingle
    exact ⟨1, g1, g2, by rw [hunion, Nat.cast_one], hjoined.congr hkept⟩
  · have horder' : f1.key ≤ f2.key := by
      rw [← HostRange.key_normal f1, ← HostRange.key_normal f2, hkept.normal1, hkept.normal2]
      simpa using horder
    have hlength1 : f1.hosts.length < 2147483648 := by
      rwa [← HostRange.hosts_normal f1, hkept.normal1, HostRange.hosts_normal]
    have hlength2 : f2.hosts.length < 2147483648 := by
      rwa [← HostRange.hosts_normal f2, hkept.normal2, HostRange.hosts_normal]
    obtain ⟨ndup, g1, g2, hunion, hjoined⟩ :=
      hostrangeJoined_range hkept.sound1 hkept.sound2 horder' hjoin' hsingle hlength1 hlength2
    exact ⟨ndup, g1, g2, by rw [hunion], hjoined.congr hkept⟩

/-- Assumes: sound, comparable ranges in order that are not joined. The result is `-1`, and the
ranges are kept. -/
theorem hostrangeJoin_of_not_joinable (ndebug : Bool) {h1 h2 : HostRange} (hsound1 : h1.Sound)
    (hsound2 : h2.Sound) (horder : h1.key ≤ h2.key) (hcomparable : h1.Comparable h2)
    (hjoin : ¬Joinable h1 h2) :
    ∃ g1 g2, hostrangeJoin ndebug h1 h2 = .ok (-1, g1, g2) ∧ KeptSound h1 h2 g1 g2 := by
  obtain ⟨f1, f2, hresult, hkept⟩ := hostrangeJoin_eq ndebug hsound1 hsound2 horder hcomparable
  obtain ⟨g1, g2, hnone, hkept'⟩ := hostrangeJoined_none hkept.sound1 hkept.sound2
    ((joinable_congr hkept.normal1 hkept.normal2).not.mpr hjoin)
  exact ⟨g1, g2, by rw [hresult, hnone], hkept'.normal1.trans hkept.normal1,
    hkept'.normal2.trans hkept.normal2, hkept'.sound1, hkept'.sound2⟩

end Whatsup
