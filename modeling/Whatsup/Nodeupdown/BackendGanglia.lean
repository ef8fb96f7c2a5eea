import Whatsup.Nodeupdown.BackendPingd
import Whatsup.Nodeupdown.Handle

/-!
# The ganglia backend

The ganglia backend connects to a gmond, has its answer parsed as XML, and reports every host of it
up or down when its element starts. The parser is expat, which is not part of the sources: an answer
is what comes of each read, with the elements that start in it.

The attributes of an element are the entries of an array in front of its NULL. `trueAge_iff` says
when this backend and the one of pingd both compare the distance of two seconds with the timeout.
-/

set_option autoImplicit false
set_option relaxedAutoImplicit false

namespace Whatsup

open CLib

/-! ### The backend -/

/-- `struct parse_vars`. Of the handle there is the error number that has been set, if one has. -/
structure ParseVars where
  errnum : Option Errnum
  timeoutLen : ℤ
  localtime : ℕ
  parseError : ℕ
deriving DecidableEq

/-- Ways in which the handler of an element does not return: it reads an entry behind the NULL of
its array, or a string at NULL. -/
inductive XmlFault
  | beyondEnd
  | nullPointer
deriving DecidableEq

/-- An entry of an array of attributes, of which the one behind the last is NULL. -/
def attrAt (attr : List (List Char)) (i : ℕ) : Except XmlFault (Option (List Char)) :=
  if h : i < attr.length then .ok (some attr[i])
  else if i = attr.length then .ok none
  else .error .beyondEnd

/-- A string in an array of attributes. -/
def attrText (attr : List (List Char)) (i : ℕ) : Except XmlFault (List Char) :=
  match attrAt attr i with
  | .error failure => .error failure
  | .ok none => .error .nullPointer
  | .ok (some text) => .ok text

/-- The loop that counts the attributes. -/
def countAttrs (attr : List (List Char)) (attrCount : ℕ) : Except XmlFault ℕ :=
  match _hname : attrAt attr (attrCount * 2) with
  | .error failure => .error failure
  | .ok none => .ok attrCount
  | .ok (some _) =>
    match attrAt attr (attrCount * 2 + 1) with
    | .error failure => .error failure
    | .ok none => .ok attrCount
    | .ok (some _) => countAttrs attr (attrCount + 1)
termination_by attr.length - attrCount * 2
decreasing_by
  have hlt : attrCount * 2 < attr.length := by
    by_contra hnot
    unfold attrAt at _hname
    rw [dif_neg hnot] at _hname
    split_ifs at _hname
    exact absurd _hname (by simp)
  omega

/-- The call for a host: `abs(pv->localtime - reported) < pv->timeout_len`. -/
def gangliaReport (pv : ParseVars) (hostname : List Char) (reported : ℕ) : BackendCall :=
  if intAbs (toInt (ulongSub pv.localtime reported)) < pv.timeoutLen then .addUpNode hostname
  else .addDownNode hostname

/-- The parse variables behind an error. -/
def ParseVars.fail (pv : ParseVars) : ParseVars :=
  { pv with errnum := some .backendModule, parseError := pv.parseError + 1 }

/-- The second that an element gives: the fifth attribute, or the seventh if that is no number or
zero. It is an error if there is none. -/
def reportedSecond (attr : List (List Char)) (attrCount : ℕ) : Except XmlFault (Option ℕ) := do
  let text ← attrText attr 5
  let reported := toUlong (atol text)
  if reported ≠ 0 then pure (some reported)
  else if attrCount < 4 then pure none
  else do
    let text ← attrText attr 7
    pure (some (toUlong (atol text)))

/-- `_xml_parse_start`: the parse variables behind it, and the calls that it makes. -/
def xmlParseStart (pv : ParseVars) (e1 : List Char) (attr : List (List Char)) :
    Except XmlFault (ParseVars × List BackendCall) :=
  if pv.parseError ≠ 0 then .ok (pv, [])
  else if "HOST".toList ≠ e1 then .ok (pv, [])
  else do
    let attrCount ← countAttrs attr 0
    let unpaired ← attrAt attr (attrCount * 2)
    if unpaired.isSome ∨ attrCount < 3 then pure (pv.fail, [])
    else do
      let reported ← reportedSecond attr attrCount
      match reported with
      | none => pure (pv.fail, [])
      | some reported => do
        let hostname ← attrText attr 1
        pure (pv, [gangliaReport pv hostname reported])

/-- What comes of a read of the answer: `XML_GetBuffer` or `read` fails, or some elements start, and
`XML_ParseBuffer` succeeds or not. -/
inductive XmlRead
  | failed
  | parsed (elements : List (List Char × List (List Char))) (accepted : Bool)

/-- The elements that start in a buffer. -/
def startElements : ParseVars → List (List Char × List (List Char)) →
    Except XmlFault (ParseVars × List BackendCall)
  | pv, [] => .ok (pv, [])
  | pv, (e1, attr) :: elements => do
    let started ← xmlParseStart pv e1 attr
    let others ← startElements started.1 elements
    pure (others.1, started.2 ++ others.2)

/-- The loop of `ganglia_backend_get_updown_data`: the calls that it makes, its value, and the parse
variables. Where the reads end, the answer ends. -/
def readXml : ParseVars → List XmlRead → Except XmlFault (List BackendCall × ℤ × ParseVars)
  | pv, [] => .ok ([], 0, pv)
  | pv, .failed :: _ => .ok ([], -1, { pv with errnum := some .internal })
  | pv, .parsed elements accepted :: reads => do
    let started ← startElements pv elements
    if ¬accepted then pure (started.2, -1, { started.1 with errnum := some .internal })
    else if started.1.parseError ≠ 0 then pure (started.2, -1, started.1)
    else do
      let others ← readXml started.1 reads
      pure (started.2 ++ others.1, others.2.1, others.2.2)

/-- The parse variables of a new parse. -/
def parseVars (tv : Timeval) (timeoutLen : ℕ) : ParseVars :=
  ⟨none, toInt timeoutLen, toUlong tv.tvSec, 0⟩

/-- `ganglia_backend_get_updown_data`, for a connection with what comes of the reads and the value
of `gettimeofday`: the calls that it makes, and its value. -/
def gangliaBackendGetUpdownData (connection : Option (List XmlRead)) (tv : Option Timeval)
    (timeoutLen : ℕ) :
    Except XmlFault (List BackendCall × ℤ) :=
  match connection, tv with
  | some reads, some tv => (readXml (parseVars tv timeoutLen) reads).map fun result ↦
    (result.1, result.2.1)
  | _, _ => .ok ([], -1)

/-! ### The comparisons -/

/-- The backend of pingd calls a host up if the difference of the seconds, as an `int`, is near
zero. -/
theorem pingdReport_up_iff (tv : Timeval) (timeoutLen : ℕ) (hostname : List Char) (reported : ℤ) :
    pingdReport tv timeoutLen hostname (toUlong reported) = .addUpNode hostname ↔
      (toInt (tv.tvSec - reported)).natAbs < timeoutLen := by
  have hneg : (toInt (reported - tv.tvSec)).natAbs = (toInt (tv.tvSec - reported)).natAbs := by
    rw [← natAbs_toInt_neg, neg_sub]
  have hlow := neg_le_toInt (reported - tv.tvSec)
  have hhigh := toInt_lt (reported - tv.tvSec)
  have hdifference : toInt (ulongSub (toUlong reported) (toUlong tv.tvSec)) =
      toInt (reported - tv.tvSec) := by
    rw [toInt_ulongSub_toUlong, toInt_toUlong_sub]
  have habs : toUint (intAbs (toInt (reported - tv.tvSec))) =
      (toInt (reported - tv.tvSec)).natAbs := by
    rw [intAbs_toInt]
    unfold toUint
    split_ifs <;> omega
  rw [pingdReport, hdifference, habs, hneg]
  split_ifs with hnear
  · exact iff_of_true rfl hnear
  · exact iff_of_false (by simp) hnear

/-- Assumes: a positive timeout. So does the ganglia backend, but for a difference that is the least
`int`: it is its own absolute value, which is negative. -/
theorem gangliaReport_up_iff (tv : Timeval) {timeoutLen : ℕ} (hostname : List Char) (reported : ℤ)
    (hpos : 1 ≤ timeoutLen) (htimeout : timeoutLen < 2147483648) :
    gangliaReport (parseVars tv timeoutLen) hostname (toUlong reported) = .addUpNode hostname ↔
      toInt (tv.tvSec - reported) = -2147483648 ∨ (toInt (tv.tvSec - reported)).natAbs <
        timeoutLen := by
  have hlen : toInt (timeoutLen : ℤ) = timeoutLen := toInt_eq_self (by omega) (by omega)
  have habs : intAbs (toInt (ulongSub (toUlong tv.tvSec) (toUlong reported))) < toInt timeoutLen ↔
      toInt (tv.tvSec - reported) = -2147483648 ∨ (toInt (tv.tvSec - reported)).natAbs <
          timeoutLen := by
    rw [toInt_ulongSub_toUlong, toInt_toUlong_sub, intAbs_toInt, hlen]
    split_ifs <;> omega
  rw [← habs]
  unfold gangliaReport parseVars
  simp only
  split_ifs with hnear
  · exact iff_of_true rfl hnear
  · exact iff_of_false (by simp) hnear

/-- Both backends call a host up exactly if it has reported within the timeout. -/
def TrueAge (tv : Timeval) (timeoutLen : ℕ) (hostname : List Char) (reported : ℤ) : Prop :=
  (pingdReport tv timeoutLen hostname (toUlong reported) = .addUpNode hostname ↔
      (tv.tvSec - reported).natAbs < timeoutLen) ∧
    (gangliaReport (parseVars tv timeoutLen) hostname (toUlong reported) = .addUpNode hostname ↔
      (tv.tvSec - reported).natAbs < timeoutLen)

/-- Assumes: a positive timeout that is an `int`. The two backends call a host up by its true age
exactly if the seconds differ by less than `2 ^ 31`, or their difference is not nearer than the
timeout to any multiple of `2 ^ 32` and no odd multiple of `2 ^ 31`. They agree exactly if the
difference is no odd multiple of `2 ^ 31`. -/
theorem trueAge_iff (tv : Timeval) {timeoutLen : ℕ} (hostname : List Char) (reported : ℤ)
    (hpos : 1 ≤ timeoutLen)
    (htimeout : timeoutLen < 2147483648) :
    (TrueAge tv timeoutLen hostname reported ↔ (tv.tvSec - reported).natAbs < 2147483648 ∨
      ((∀ wraps : ℤ, timeoutLen ≤ (tv.tvSec - reported - wraps * 4294967296).natAbs) ∧
        (tv.tvSec - reported) % 4294967296 ≠ 2147483648)) ∧
    (pingdReport tv timeoutLen hostname (toUlong reported) =
        gangliaReport (parseVars tv timeoutLen) hostname (toUlong reported) ↔
      (tv.tvSec - reported) % 4294967296 ≠ 2147483648) := by
  have hpingd := pingdReport_up_iff tv timeoutLen hostname reported
  have hganglia := gangliaReport_up_iff tv hostname reported hpos htimeout
  have hleast := toInt_eq_least_iff (tv.tvSec - reported)
  have hsmall : (tv.tvSec - reported).natAbs < 2147483648 → toInt (tv.tvSec - reported) =
      tv.tvSec - reported := fun h ↦
    toInt_eq_self (by omega) (by omega)
  have hbound := neg_le_toInt (tv.tvSec - reported)
  have hequal : pingdReport tv timeoutLen hostname (toUlong reported) =
      gangliaReport (parseVars tv timeoutLen) hostname (toUlong reported) ↔
        (pingdReport tv timeoutLen hostname (toUlong reported) = .addUpNode hostname ↔
          gangliaReport (parseVars tv timeoutLen) hostname (toUlong reported) =
              .addUpNode hostname) := by
    unfold pingdReport gangliaReport
    split_ifs <;> simp
  rw [hequal, TrueAge, hpingd, hganglia, ← le_natAbs_toInt_iff]
  simp only [ne_eq, ← hleast]
  generalize toInt (tv.tvSec - reported) = difference at hsmall hbound ⊢
  refine ⟨⟨fun ⟨hpingd, hganglia⟩ ↦ ?_, ?_⟩, by omega⟩
  · by_cases hnear : (tv.tvSec - reported).natAbs < 2147483648
    · exact Or.inl hnear
    · exact Or.inr ⟨by omega, by omega⟩
  · rintro (hnear | ⟨hfar, hodd⟩)
    · have hsame := hsmall hnear
      omega
    · by_cases hnear : (tv.tvSec - reported).natAbs < 2147483648
      · have hsame := hsmall hnear
        omega
      · omega

/-- Two seconds that are near each other. -/
theorem trueAge_iff_near : TrueAge ⟨1700000000, 0⟩ 60 "n1".toList 1699999970 ∧
    pingdReport ⟨1700000000, 0⟩ 60 "n1".toList (toUlong 1699999970) =
      gangliaReport (parseVars ⟨1700000000, 0⟩ 60) "n1".toList (toUlong 1699999970) :=
  ⟨(trueAge_iff ⟨1700000000, 0⟩ "n1".toList 1699999970 (by decide) (by decide)).1.mpr
    (Or.inl (by decide)),
    (trueAge_iff ⟨1700000000, 0⟩ "n1".toList 1699999970 (by decide) (by decide)).2.mpr (by decide)⟩

/-- A host whose clock is `2 ^ 32` seconds ahead is up for both backends. -/
theorem trueAge_wraps : ¬TrueAge ⟨1700000000, 0⟩ 60 "n1".toList 5994967296 := by
  intro h
  exact absurd (h.1.mp (by decide)) (by decide)

/-! ### Elements -/

theorem attrAt_of_lt {attr : List (List Char)} {i : ℕ} (h : i < attr.length) : attrAt attr i =
    .ok (some attr[i]) :=
  dif_pos h

theorem attrAt_end (attr : List (List Char)) : attrAt attr attr.length = .ok none := by
  rw [attrAt, dif_neg (lt_irrefl _), if_pos rfl]

theorem attrText_of_lt {attr : List (List Char)} {i : ℕ} (h : i < attr.length) : attrText attr i =
    .ok attr[i] := by
  rw [attrText, attrAt_of_lt h]

/-- The loop counts the pairs of entries, and reads none behind the NULL. -/
theorem countAttrs_eq (attr : List (List Char)) (attrCount : ℕ) (h : attrCount * 2 ≤ attr.length) :
    countAttrs attr attrCount = .ok (attr.length / 2) := by
  fun_induction countAttrs attr attrCount with
  | case1 attrCount failure hname =>
    rcases Nat.lt_or_eq_of_le h with hlt | hend
    · exact absurd ((attrAt_of_lt hlt).symm.trans hname) (by simp)
    · rw [hend, attrAt_end] at hname
      exact absurd hname (by simp)
  | case2 attrCount hname =>
    rcases Nat.lt_or_eq_of_le h with hlt | hend
    · exact absurd ((attrAt_of_lt hlt).symm.trans hname) (by simp)
    · rw [← hend, Nat.mul_div_cancel _ (by decide)]
  | case3 attrCount name hname failure hvalue =>
    have hlt : attrCount * 2 < attr.length := by
      refine lt_of_le_of_ne h fun hend ↦ ?_
      rw [hend, attrAt_end] at hname
      exact absurd hname (by simp)
    rcases Nat.lt_or_eq_of_le (Nat.succ_le_of_lt hlt) with hlt' | hend
    · exact absurd ((attrAt_of_lt hlt').symm.trans hvalue) (by simp)
    · rw [show attrCount * 2 + 1 = attr.length from hend, attrAt_end] at hvalue
      exact absurd hvalue (by simp)
  | case4 attrCount name hname hvalue =>
    have hlt : attrCount * 2 < attr.length := by
      refine lt_of_le_of_ne h fun hend ↦ ?_
      rw [hend, attrAt_end] at hname
      exact absurd hname (by simp)
    rcases Nat.lt_or_eq_of_le (Nat.succ_le_of_lt hlt) with hlt' | hend
    · exact absurd ((attrAt_of_lt hlt').symm.trans hvalue) (by simp)
    · congr 1
      omega
  | case5 attrCount name hname value hvalue ih =>
    refine ih ?_
    by_contra hnot
    have hcases : attrCount * 2 = attr.length ∨ attrCount * 2 + 1 = attr.length := by omega
    rcases hcases with hend | hend
    · rw [hend, attrAt_end] at hname
      exact absurd hname (by simp)
    · rw [hend, attrAt_end] at hvalue
      exact absurd hvalue (by simp)

/-- An element of a host with an attribute that has no value, or with less than three attributes, is
an error. -/
theorem xmlParseStart_malformed {pv : ParseVars} {attr : List (List Char)} (hpv : pv.parseError = 0)
    (h : attr.length % 2 = 1 ∨ attr.length < 6) : xmlParseStart pv "HOST".toList attr =
      .ok (pv.fail, []) := by
  have hnext : ∃ entry, attrAt attr (attr.length / 2 * 2) = .ok entry ∧
      (entry.isSome ∨ attr.length / 2 < 3) := by
    rcases Nat.lt_or_eq_of_le (Nat.div_mul_le_self attr.length 2) with hlt | hend
    · exact ⟨_, attrAt_of_lt hlt, Or.inl rfl⟩
    · exact ⟨none, by rw [hend, attrAt_end], Or.inr (by omega)⟩
  obtain ⟨entry, hentry, hfails⟩ := hnext
  unfold xmlParseStart
  rw [if_neg (not_not.mpr hpv), if_neg (not_not.mpr rfl), countAttrs_eq attr 0 (Nat.zero_le _)]
  simp only [bind, Except.bind, hentry, if_pos hfails]
  rfl

/-- Assumes: an element of a host whose attributes have values, and which has at least three. It is
reported with the number of its third attribute, or of its fourth if that one is zero; and it is an
error if there is none. -/
theorem xmlParseStart_paired {pv : ParseVars} {attr : List (List Char)} (hpv : pv.parseError = 0)
    (hpaired : attr.length % 2 = 0) (hthree : 6 ≤ attr.length) :
    xmlParseStart pv "HOST".toList attr =
      if atol attr[5] ≠ 0 then .ok (pv, [gangliaReport pv attr[1] (toUlong (atol attr[5]))])
      else if h : attr.length < 8 then .ok (pv.fail, [])
      else .ok (pv, [gangliaReport pv attr[1] (toUlong (atol attr[7]))]) := by
  have hend : attr.length / 2 * 2 = attr.length := by omega
  have hzero : toUlong (atol attr[5]) ≠ 0 ↔ atol attr[5] ≠ 0 := by
    have hbounds := atol_bounds attr[5]
    unfold toUlong
    omega
  unfold xmlParseStart
  rw [if_neg (not_not.mpr hpv), if_neg (not_not.mpr rfl), countAttrs_eq attr 0 (Nat.zero_le _)]
  simp only [bind, Except.bind, hend, attrAt_end]
  rw [if_neg (by simp; omega)]
  simp only [reportedSecond, bind, Except.bind, attrText_of_lt (show 5 < attr.length by
    omega), hzero]
  split_ifs with hnumber hshort hshort hshort
  · simp only [pure, Except.pure, attrText_of_lt (show 1 < attr.length by omega)]
  · rfl
  · omega
  · omega
  · simp only [pure, Except.pure, attrText_of_lt (show 1 < attr.length by omega),
      attrText_of_lt (show 7 < attr.length by omega)]

/-- No handler of an element reads an entry behind the NULL of its array, or a string at NULL. -/
theorem xmlParseStart_ok (pv : ParseVars) (e1 : List Char) (attr : List (List Char)) :
    ∃ result, xmlParseStart pv e1 attr = .ok result := by
  by_cases hpv : pv.parseError = 0
  · by_cases he1 : "HOST".toList = e1
    · subst he1
      by_cases hmalformed : attr.length % 2 = 1 ∨ attr.length < 6
      · exact ⟨_, xmlParseStart_malformed hpv hmalformed⟩
      · rw [xmlParseStart_paired hpv (by omega) (by omega)]
        split_ifs <;> exact ⟨_, rfl⟩
    · exact ⟨_, by rw [xmlParseStart, if_neg (not_not.mpr hpv), if_pos he1]⟩
  · exact ⟨_, if_pos hpv⟩

/-! ### Numbers that a report tells apart -/

/-- A report depends on its second modulo `2 ^ 32`. -/
theorem gangliaReport_congr (pv : ParseVars) (hostname : List Char) {left right : ℤ}
    (h : (4294967296 : ℤ) ∣ left - right) :
    gangliaReport pv hostname (toUlong left) = gangliaReport pv hostname (toUlong right) := by
  obtain ⟨wraps, hwraps⟩ := h
  have hsame : toInt (pv.localtime - left) = toInt (pv.localtime - right) := by
    have hsum : (pv.localtime : ℤ) - left = (pv.localtime - right) + (4294967296 : ℕ) * -wraps := by
      omega
    rw [hsum, toInt, toInt, Int.add_mul_bmod_self_left]
  rw [gangliaReport, gangliaReport, toInt_ulongSub_toUlong, toInt_ulongSub_toUlong, hsame]

/-- Two seconds that differ modulo `2 ^ 32` are reported differently at some time, with a timeout of
one or two. -/
theorem exists_gangliaReport_ne (hostname : List Char) {left right : ℤ}
    (h : ¬(4294967296 : ℤ) ∣ left - right) :
    ∃ pv : ParseVars, pv.parseError = 0 ∧
      gangliaReport pv hostname (toUlong left) ≠ gangliaReport pv hostname (toUlong right) := by
  have hne : ∀ (now timeoutLen : ℤ), ¬intAbs (toInt (now - left)) < timeoutLen →
    intAbs (toInt (now - right)) < timeoutLen →
      gangliaReport ⟨none, timeoutLen, toUlong now, 0⟩ hostname (toUlong left) ≠
        gangliaReport ⟨none, timeoutLen, toUlong now, 0⟩ hostname (toUlong right) := by
    intro now timeoutLen hdown hup
    rw [gangliaReport, gangliaReport]
    simp only
    rw [toInt_ulongSub_toUlong, toInt_ulongSub_toUlong, toInt_toUlong_sub, toInt_toUlong_sub,
      if_neg hdown, if_pos hup]
    simp
  have hdistance : toInt (right - left) ≠ 0 := by
    unfold toInt Int.bmod
    simp only
    split_ifs <;> omega
  by_cases hleast : toInt (right - left) = -2147483648
  · -- the least `int` is near every second, but not the one next to it
    refine ⟨⟨none, 2, toUlong (right + 1), 0⟩, rfl, hne (right + 1) 2 ?_ ?_⟩
    · have hnext : toInt (right + 1 - left) = -2147483647 := by
        rw [show right + 1 - left = right - left + 1 by omega, ← toInt_toInt_add, hleast]
        decide
      rw [hnext]
      decide
    · rw [show right + 1 - right = 1 by omega]
      decide
  · refine ⟨⟨none, 1, toUlong right, 0⟩, rfl, hne right 1 ?_ ?_⟩
    · rw [intAbs_toInt, if_neg hleast]
      omega
    · rw [sub_self]
      decide

/-! ### Elements of hosts -/

/-- The attributes of an element of a host, in either layout of gmond: `NAME`, `IP`, perhaps `TAGS`,
then `REPORTED`, and others. -/
def hostAttrs (name ip : List Char) (tags : Option (List Char)) (reported : List Char)
    (others : List (List Char × List Char)) : List (List Char) :=
  ["NAME".toList, name, "IP".toList, ip] ++ (tags.elim [] fun text ↦ ["TAGS".toList, text]) ++
    ["REPORTED".toList, reported] ++ others.flatMap fun other ↦ [other.1, other.2]

/-- An element is reported as one call, for a host and with a number, whatever the clock and the
timeout. -/
def ReportedAs (attr : List (List Char)) (hostname : List Char) (number : ℕ) : Prop :=
  ∀ pv : ParseVars, pv.parseError = 0 →
    xmlParseStart pv "HOST".toList attr = .ok (pv, [gangliaReport pv hostname (toUlong number)])

/-- The number that is taken for that of `REPORTED`: that of the tags, unless it is zero. -/
def takenNumber (tags : Option (List Char)) (reported : List Char) : ℤ :=
  match tags with
  | none => atol reported
  | some text => if atol text ≠ 0 then atol text else atol reported

/-- The handler takes the text of the tags for the number if it starts with one that is not zero. -/
theorem xmlParseStart_hostAttrs {pv : ParseVars} (hpv : pv.parseError = 0) (name ip : List Char)
    (tags : Option (List Char)) {reported : List Char} (others : List (List Char × List Char))
    (hpos : atol reported ≠ 0) :
    xmlParseStart pv "HOST".toList (hostAttrs name ip tags reported others) =
      .ok (pv, [gangliaReport pv name (toUlong (takenNumber tags reported))]) := by
  have hothers : (others.flatMap fun other ↦ [other.1, other.2]).length % 2 = 0 := by
    induction others with
    | nil => rfl
    | cons other others ih =>
      rw [List.flatMap_cons, List.length_append]
      simp only [List.length_cons, List.length_nil]
      omega
  cases tags with
  | none =>
    have hlength : (hostAttrs name ip none reported others).length =
        (others.flatMap fun other ↦ [other.1, other.2]).length + 6 := by simp [hostAttrs]
    rw [xmlParseStart_paired hpv (by omega) (by omega)]
    have hfifth : (hostAttrs name ip none reported others)[5] = reported := rfl
    rw [hfifth, if_pos hpos]
    rfl
  | some text =>
    have hlength : (hostAttrs name ip (some text) reported others).length =
        (others.flatMap fun other ↦ [other.1, other.2]).length + 8 := by simp [hostAttrs]
    rw [xmlParseStart_paired hpv (by omega) (by omega)]
    have hfifth : (hostAttrs name ip (some text) reported others)[5] = text := rfl
    rw [hfifth, dif_neg (by omega), takenNumber]
    split_ifs <;> rfl

/-- Assumes: a positive decimal number in `REPORTED`. An element of a host is reported with it
exactly if the tags, if there are any, do not start with a number that differs from it modulo
`2 ^ 32`, unless that one is zero, and if it is a `long`, or is like the largest one modulo
`2 ^ 32`, where it is read. An element with an attribute without a value, or with less than three,
is an error and is not reported. No entry behind the NULL is read. -/
theorem reportedAs_iff {name ip reported : List Char} {tags : Option (List Char)}
    {others : List (List Char × List Char)}
    (hdigits : ∀ c ∈ reported, c.isDigit = true) (hpos : 0 < Nat.ofDigitChars 10 reported 0) :
    (ReportedAs (hostAttrs name ip tags reported others) name (Nat.ofDigitChars 10 reported 0) ↔
      (∀ text ∈ tags, atol text = 0 ∨
        (4294967296 : ℤ) ∣ atol text - Nat.ofDigitChars 10 reported 0) ∧
        ((∀ text ∈ tags, atol text = 0) → Nat.ofDigitChars 10 reported 0 ≤ 9223372036854775807 ∨
          (4294967296 : ℤ) ∣ 9223372036854775807 - Nat.ofDigitChars 10 reported 0)) ∧
    (∀ (pv : ParseVars) (attr : List (List Char)), pv.parseError = 0 → attr.length % 2 = 1 ∨
      attr.length < 6 →
      xmlParseStart pv "HOST".toList attr = .ok (pv.fail, [])) ∧
    ∀ pv e1 attr, ∃ result, xmlParseStart pv e1 attr = .ok result := by
  refine ⟨?_, fun pv attr hpv hmalformed ↦ xmlParseStart_malformed hpv hmalformed, xmlParseStart_ok⟩
  have hatol := atol_digits hdigits
  have hnonzero : atol reported ≠ 0 := by omega
  generalize Nat.ofDigitChars 10 reported 0 = number at hpos hatol ⊢
  have htaken : ReportedAs (hostAttrs name ip tags reported others) name number ↔
      (4294967296 : ℤ) ∣ takenNumber tags reported - number := by
    constructor
    · intro hall
      by_contra hnot
      obtain ⟨pv, hpv, hne⟩ := exists_gangliaReport_ne name hnot
      have hsame :=
        (xmlParseStart_hostAttrs hpv name ip tags others hnonzero).symm.trans (hall pv hpv)
      exact hne (by simpa using hsame)
    · intro hdvd pv hpv
      rw [xmlParseStart_hostAttrs hpv name ip tags others hnonzero,
        gangliaReport_congr pv name hdvd]
  have hlong : (4294967296 : ℤ) ∣ atol reported - number ↔
      number ≤ 9223372036854775807 ∨ (4294967296 : ℤ) ∣ 9223372036854775807 - number := by
    rw [hatol]
    omega
  rw [htaken]
  cases tags with
  | none =>
    rw [takenNumber, hlong]
    simp
  | some text =>
    by_cases hzero : atol text = 0
    · rw [takenNumber, if_neg (not_not.mpr hzero), hlong]
      simp [hzero]
    · rw [takenNumber, if_pos hzero]
      simp [hzero]

/-- Tags that are no number. -/
theorem reportedAs_iff_rack :
    ReportedAs (hostAttrs "n1".toList "10.0.0.1".toList (some "rack".toList) "1700000000".toList [])
      "n1".toList
      (Nat.ofDigitChars 10 "1700000000".toList 0) :=
  (reportedAs_iff (List.all_eq_true.mp (by decide)) (by decide)).1.mpr ⟨by decide, by decide⟩

/-- Tags that start with a number. -/
theorem reportedAs_numericTags :
    ¬ReportedAs (hostAttrs "n1".toList "10.0.0.1".toList (some "12rack".toList) "1700000000".toList
      []) "n1".toList
      (Nat.ofDigitChars 10 "1700000000".toList 0) := by
  intro h
  have hcalls :=
    (xmlParseStart_hostAttrs (show (⟨none, 60, 1700000000, 0⟩ : ParseVars).parseError =
    0 from rfl) "n1".toList
    "10.0.0.1".toList (some "12rack".toList) [] (show atol "1700000000".toList ≠ 0 by
      decide)).symm.trans
      (h ⟨none, 60, 1700000000, 0⟩ rfl)
  exact absurd hcalls (by decide)

/-! ### Answers -/

/-- Assumes: a handler that flags no error. It leaves the parse variables, and makes one call for a
host and none for another element. -/
theorem xmlParseStart_calls {pv pv' : ParseVars} {e1 : List Char} {attr : List (List Char)}
    {calls : List BackendCall}
    (h : xmlParseStart pv e1 attr = .ok (pv', calls)) (hpv' : pv'.parseError = 0) :
    pv' = pv ∧ calls.length = if e1 = "HOST".toList then 1 else 0 := by
  by_cases hpv : pv.parseError = 0
  · by_cases he1 : e1 = "HOST".toList
    · subst he1
      rw [if_pos rfl]
      by_cases hmalformed : attr.length % 2 = 1 ∨ attr.length < 6
      · rw [xmlParseStart_malformed hpv hmalformed] at h
        obtain ⟨rfl, -⟩ := Prod.mk.inj (Except.ok.inj h)
        exact absurd hpv' (Nat.succ_ne_zero _)
      · rw [xmlParseStart_paired hpv (by omega) (by omega)] at h
        split_ifs at h <;> obtain ⟨rfl, rfl⟩ := Prod.mk.inj (Except.ok.inj h)
        · exact ⟨rfl, rfl⟩
        · exact absurd hpv' (Nat.succ_ne_zero _)
        · exact ⟨rfl, rfl⟩
    · rw [xmlParseStart, if_neg (not_not.mpr hpv), if_pos (Ne.symm he1)] at h
      obtain ⟨rfl, rfl⟩ := Prod.mk.inj (Except.ok.inj h)
      exact ⟨rfl, (if_neg he1).symm⟩
  · rw [xmlParseStart, if_pos hpv] at h
    obtain ⟨rfl, -⟩ := Prod.mk.inj (Except.ok.inj h)
    exact absurd hpv' hpv

/-- So do the handlers of some elements. -/
theorem startElements_calls (elements : List (List Char × List (List Char))) :
    ∀ {pv pv' : ParseVars} {calls : List BackendCall}, startElements pv elements =
      .ok (pv', calls) → pv'.parseError = 0 →
      pv' = pv ∧ calls.length = elements.countP fun element ↦ element.1 = "HOST".toList := by
  induction elements with
  | nil =>
    intro pv pv' calls h _
    obtain ⟨rfl, rfl⟩ := Prod.mk.inj (Except.ok.inj h)
    exact ⟨rfl, rfl⟩
  | cons element elements ih =>
    intro pv pv' calls h hpv'
    obtain ⟨started, hstarted, h⟩ := bind_eq_ok.mp h
    obtain ⟨others, hothers, h⟩ := bind_eq_ok.mp h
    obtain ⟨rfl, rfl⟩ := Prod.mk.inj (Except.ok.inj h)
    obtain ⟨hsame, hcount⟩ := ih hothers hpv'
    obtain ⟨hsame', hone⟩ := xmlParseStart_calls hstarted (hsame ▸ hpv')
    refine ⟨hsame.trans hsame', ?_⟩
    rw [List.length_append, hone, hcount, List.countP_cons, add_comm]
    simp only [decide_eq_true_eq]

/-- The elements of a read. -/
def XmlRead.elements : XmlRead → List (List Char × List (List Char))
  | .failed => []
  | .parsed elements _ => elements

/-- A backend that succeeds has made one call for every element of a host. -/
theorem readXml_calls (reads : List XmlRead) :
    ∀ {pv pv' : ParseVars} {calls : List BackendCall}, readXml pv reads = .ok (calls, 0, pv') →
      calls.length = (reads.flatMap XmlRead.elements).countP fun element ↦
        element.1 = "HOST".toList := by
  induction reads with
  | nil =>
    intro pv pv' calls h
    obtain ⟨rfl, -⟩ := Prod.mk.inj (Except.ok.inj h)
    rfl
  | cons read reads ih =>
    intro pv pv' calls h
    cases read with
    | failed => exact absurd (Prod.mk.inj (Prod.mk.inj (Except.ok.inj h)).2).1 (by decide)
    | parsed elements accepted =>
      obtain ⟨started, hstarted, h⟩ := bind_eq_ok.mp h
      have hends : ∀ {made : List BackendCall} {pv pv' : ParseVars},
          (pure (made, -1, pv) : Except XmlFault (List BackendCall × ℤ × ParseVars)) ≠
              .ok (calls, 0, pv') := fun h ↦
        absurd (Prod.mk.inj (Prod.mk.inj (Except.ok.inj h)).2).1 (by decide)
      cases accepted with
      | false => exact absurd h hends
      | true =>
        by_cases herror : started.1.parseError = 0
        · simp only [not_true_eq_false, if_false, herror, ne_eq] at h
          obtain ⟨others, hothers, h⟩ := bind_eq_ok.mp h
          obtain ⟨rfl, hend⟩ := Prod.mk.inj (Except.ok.inj h)
          obtain ⟨hvalue, -⟩ := Prod.mk.inj hend
          obtain ⟨-, hcount⟩ := startElements_calls elements hstarted herror
          have hrest : others.1.length = _ := ih (by rw [hothers, ← hvalue])
          rw [List.length_append, hcount, hrest, List.flatMap_cons, List.countP_append]
          rfl
        · simp only [not_true_eq_false, if_false, herror, ne_eq, not_false_eq_true, if_true] at h
          exact absurd h hends

end Whatsup
