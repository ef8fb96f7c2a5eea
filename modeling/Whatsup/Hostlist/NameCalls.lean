import Whatsup.Hostlist.Delete
import Whatsup.Hostlist.NodeStrings

/-!
# A hostlist is a list of names, whatever is called

The abstract model of a node list is a plain list of names, see `runOps_eq` for the calls that only
add. `runListCalls_eq` is the refinement for all calls that add, look up, number and take out: for
every sequence of them, the range-compressed list gives after each call the answer of the plain
list, and denotes that list. Neither the merging nor the splitting of ranges is visible, and no
assertion fails.
-/

set_option autoImplicit false
set_option relaxedAutoImplicit false

namespace Whatsup

open CLib

/-! ### Calls -/

/-- The calls on a hostlist that are modelled. -/
inductive HostlistCall
  | push (name : List Char)
  | pushHost (name : List Char)
  | find (hostname : List Char)
  | count
  | nth (n : ℤ)
  | deleteNth (n : ℤ)
  | deleteHost (hostname : List Char)
  | delete (hosts : List Char)
  | pop
  | shift
deriving DecidableEq

/-- Whether a call adds a name. -/
def HostlistCall.adds : HostlistCall → Bool
  | .push _ => true
  | .pushHost _ => true
  | _ => false

/-- What a call gives: a number or a name. -/
inductive HostlistAnswer
  | number (n : ℤ)
  | name (name : Option (List Char))
deriving DecidableEq

/-- One call on a hostlist: its answer and the list afterwards; `none` if it does not return, fails
an assertion or writes behind a buffer. -/
def HostlistCall.run (ndebug : Bool) : HostlistCall → Hostlist → Option (HostlistAnswer × Hostlist)
  | .push name, hl => (hostlistPush hl name).map fun result ↦ (.number result.1, result.2)
  | .pushHost name, hl => some (.number 1, hostlistPushHost hl name)
  | .find hostname, hl => some (.number (hostlistFind hl hostname).1, (hostlistFind hl hostname).2)
  | .count, hl => some (.number (hostlistCount hl), hl)
  | .nth n, hl => (hostlistNth hl n).map fun name ↦ (.name name, hl)
  | .deleteNth n, hl => (hostlistDeleteNth ndebug hl n).map fun hl ↦ (.number 1, hl)
  | .deleteHost hostname, hl => (hostlistDeleteHost ndebug hl hostname).map fun result ↦
    (.number result.1, result.2)
  | .delete hosts, hl => (hostlistDelete ndebug hl hosts).map fun result ↦
    (.number result.1, result.2)
  | .pop, hl => (hostlistPop hl).map fun result ↦ (.name result.1, result.2)
  | .shift, hl => (hostlistShift hl).map fun result ↦ (.name result.1, result.2)

/-- One call on a plain list of names; `none` if it is called with a number that it is not made
for. -/
def HostlistCall.runNames : HostlistCall → List (List Char) →
    Option (HostlistAnswer × List (List Char))
  | .push name, names => some (.number 1, names ++ [name])
  | .pushHost name, names => some (.number 1, names ++ [name])
  | .find hostname, names =>
    some (.number (if hostname ∈ names then (names.idxOf hostname : ℤ) else -1), names)
  | .count, names => some (.number names.length, names)
  | .nth n, names => if 0 ≤ n ∧ n < 2147483648 then some (.name names[n.toNat]?, names) else none
  | .deleteNth n, names =>
    if 0 ≤ n ∧ n < names.length then some (.number 1, names.eraseIdx n.toNat) else none
  | .deleteHost hostname, names =>
    some (.number (if hostname ∈ names then 1 else 0), names.erase hostname)
  | .delete hosts, names =>
    some (.number (eraseNames (nodeHosts hosts) names).1, (eraseNames (nodeHosts hosts) names).2)
  | .pop, names => some (.name names.getLast?, names.dropLast)
  | .shift, names => some (.name names.head?, names.tail)

/-- A sequence of calls on a hostlist: the answers, and the list behind them. -/
def runListCalls (ndebug : Bool) : List HostlistCall → Hostlist →
    Option (List HostlistAnswer × Hostlist)
  | [], hl => some ([], hl)
  | call :: calls, hl =>
    match call.run ndebug hl with
    | none => none
    | some (answer, hl) => (runListCalls ndebug calls hl).map fun result ↦
      (answer :: result.1, result.2)

/-- A sequence of calls on a plain list of names: the answers, and the list behind them. -/
def runListCallNames : List HostlistCall → List (List Char) →
    Option (List HostlistAnswer × List (List Char))
  | [], names => some ([], names)
  | call :: calls, names =>
    match call.runNames names with
    | none => none
    | some (answer, names) => (runListCallNames calls names).map fun result ↦
      (answer :: result.1, result.2)

/-- The texts that calls are given: names that are added are plain, and what is to be taken out
together is a host expression that makes a canonical list of less than `2 ^ 31` names. -/
structure HostlistCall.Given (call : HostlistCall) : Prop where
  push : ∀ name, call = .push name → PlainName name
  pushHost : ∀ name, call = .pushHost name → PlainName name
  delete : ∀ hosts, call = .delete hosts → ∃ new, hostlistCreate hosts = .ok new ∧ new.Canonical ∧
    new.hosts.length < 2147483648

/-! ### Refinement -/

/-- What holds of a hostlist between calls: it is canonical, its names are plain, and there are less
than `2 ^ 31`. -/
structure Hostlist.Plain (hl : Hostlist) : Prop where
  canonical : hl.Canonical
  plain : ∀ name ∈ hl.hosts, PlainName name
  small : hl.hosts.length < 2147483648

/-- Taking names out leaves names that were there. -/
theorem eraseNames_subset (hosts names : List (List Char)) :
    (eraseNames hosts names).2 ⊆ names := by
  induction hosts with
  | nil => exact List.Subset.refl _
  | cons host hosts ih => exact List.Subset.trans List.erase_subset ih

/-- Assumes: a call with the texts that it is made for. It adds at most one name, and that is
plain. -/
theorem HostlistCall.Given.names {call : HostlistCall} (h : call.Given)
    {names names' : List (List Char)} {answer : HostlistAnswer}
    (hrun : call.runNames names = some (answer, names')) :
    names'.length ≤ names.length + (if call.adds then 1 else 0) ∧ ∀ name ∈ names', name ∈ names ∨
      PlainName name := by
  have hkept : names' ⊆ names → ∀ name ∈ names', name ∈ names ∨ PlainName name :=
    fun hsub name hname ↦ Or.inl (hsub hname)
  have hadded : ∀ {name : List Char}, PlainName name → ∀ other ∈ names ++ [name], other ∈ names ∨
      PlainName other :=
    fun {name} hname other hother ↦ (List.mem_append.mp hother).imp_right fun hmem ↦ by
      rw [List.mem_singleton.mp hmem]; exact hname
  cases call with
  | push name =>
    obtain ⟨-, rfl⟩ := Prod.mk.inj (Option.some.inj hrun)
    exact ⟨List.length_append.le, hadded (h.push name rfl)⟩
  | pushHost name =>
    obtain ⟨-, rfl⟩ := Prod.mk.inj (Option.some.inj hrun)
    exact ⟨List.length_append.le, hadded (h.pushHost name rfl)⟩
  | find hostname =>
    obtain ⟨-, rfl⟩ := Prod.mk.inj (Option.some.inj hrun)
    exact ⟨le_rfl, hkept (List.Subset.refl _)⟩
  | count =>
    obtain ⟨-, rfl⟩ := Prod.mk.inj (Option.some.inj hrun)
    exact ⟨le_rfl, hkept (List.Subset.refl _)⟩
  | nth n =>
    rw [HostlistCall.runNames] at hrun
    split_ifs at hrun
    obtain ⟨-, rfl⟩ := Prod.mk.inj (Option.some.inj hrun)
    exact ⟨le_rfl, hkept (List.Subset.refl _)⟩
  | deleteNth n =>
    rw [HostlistCall.runNames] at hrun
    split_ifs at hrun
    obtain ⟨-, rfl⟩ := Prod.mk.inj (Option.some.inj hrun)
    exact ⟨List.length_eraseIdx_le _ _, hkept (List.eraseIdx_subset)⟩
  | deleteHost hostname =>
    obtain ⟨-, rfl⟩ := Prod.mk.inj (Option.some.inj hrun)
    exact ⟨List.length_erase_le, hkept (List.erase_subset)⟩
  | delete hosts =>
    obtain ⟨-, rfl⟩ := Prod.mk.inj (Option.some.inj hrun)
    have hcount := eraseNames_count (nodeHosts hosts) names
    exact ⟨show (eraseNames (nodeHosts hosts) names).2.length ≤ names.length by
      omega, hkept (eraseNames_subset _ _)⟩
  | pop =>
    obtain ⟨-, rfl⟩ := Prod.mk.inj (Option.some.inj hrun)
    exact ⟨(List.length_dropLast ▸ Nat.sub_le _ _ : names.dropLast.length ≤ names.length),
      hkept (List.dropLast_subset _)⟩
  | shift =>
    obtain ⟨-, rfl⟩ := Prod.mk.inj (Option.some.inj hrun)
    exact ⟨(List.length_tail ▸ Nat.sub_le _ _ : names.tail.length ≤ names.length),
      hkept (List.tail_sublist _).subset⟩

/-- Assumes: a list of plain names, and a call with the texts that it is made for, which a plain
list answers. The hostlist gives that answer, and denotes the plain list behind it. -/
theorem HostlistCall.run_eq (ndebug : Bool) {hl : Hostlist} (h : hl.Plain) {call : HostlistCall}
    (hgiven : call.Given)
    {answer : HostlistAnswer} {names : List (List Char)}
    (hnames : call.runNames hl.hosts = some (answer, names)) :
    ∃ hl', call.run ndebug hl = some (answer, hl') ∧ hl'.hosts = names ∧ hl'.Canonical := by
  have hsmall := h.small
  cases call with
  | push name =>
    obtain ⟨rfl, rfl⟩ := Prod.mk.inj (Option.some.inj hnames)
    obtain ⟨hl', hpush, hhosts, hcanonical⟩ := hostlistPush_name h.canonical (hgiven.push name rfl)
    exact ⟨hl', by rw [HostlistCall.run, hpush]; rfl, hhosts, hcanonical⟩
  | pushHost name =>
    obtain ⟨rfl, rfl⟩ := Prod.mk.inj (Option.some.inj hnames)
    obtain ⟨hhosts, hcanonical⟩ := hostlistPushHost_spec h.canonical name
    exact ⟨_, rfl, hhosts, hcanonical⟩
  | find hostname =>
    obtain ⟨rfl, rfl⟩ := Prod.mk.inj (Option.some.inj hnames)
    obtain ⟨hfound, hhosts, hcanonical⟩ := hostlistFind_spec h.canonical hostname
    refine ⟨_, ?_, hhosts, hcanonical⟩
    rw [HostlistCall.run, hfound]
    split_ifs with hmem
    · have hidx := List.idxOf_lt_length_iff.mpr hmem
      rw [toInt_eq_self (by omega) (by omega)]
    · rfl
  | count =>
    obtain ⟨rfl, rfl⟩ := Prod.mk.inj (Option.some.inj hnames)
    refine ⟨hl, ?_, rfl, h.canonical⟩
    rw [HostlistCall.run, hostlistCount, h.canonical.nhosts_eq, toInt_eq_self (by omega) (by omega)]
  | nth n =>
    rw [HostlistCall.runNames] at hnames
    split_ifs at hnames with hn
    obtain ⟨rfl, rfl⟩ := Prod.mk.inj (Option.some.inj hnames)
    have hrun :=
      hostlistNth_spec h.canonical hsmall (fun name hname ↦
      (h.plain name hname).length_le.trans (by decide))
      (show n.toNat < 2147483648 by omega)
    rw [Int.toNat_of_nonneg hn.1] at hrun
    exact ⟨hl, by rw [HostlistCall.run, hrun]; rfl, rfl, h.canonical⟩
  | deleteNth n =>
    rw [HostlistCall.runNames] at hnames
    split_ifs at hnames with hn
    obtain ⟨rfl, rfl⟩ := Prod.mk.inj (Option.some.inj hnames)
    obtain ⟨hl', hrun, hhosts, hcanonical⟩ :=
      hostlistDeleteNth_spec h.canonical hsmall (show n.toNat < hl.hosts.length by omega)
      ndebug
    rw [Int.toNat_of_nonneg hn.1] at hrun
    exact ⟨hl', by rw [HostlistCall.run, hrun]; rfl, hhosts, hcanonical⟩
  | deleteHost hostname =>
    obtain ⟨rfl, rfl⟩ := Prod.mk.inj (Option.some.inj hnames)
    obtain ⟨hl', hrun, hhosts, hcanonical⟩ :=
      hostlistDeleteHost_spec h.canonical hsmall hostname ndebug
    exact ⟨hl', by rw [HostlistCall.run, hrun]; rfl, hhosts, hcanonical⟩
  | delete hosts =>
    obtain ⟨rfl, rfl⟩ := Prod.mk.inj (Option.some.inj hnames)
    obtain ⟨new, hcreate, htmp, htmp_small⟩ := hgiven.delete hosts rfl
    obtain ⟨hl', hrun, hhosts, hcanonical⟩ :=
      hostlistDelete_spec h.canonical hsmall hcreate htmp htmp_small ndebug
    have hsame : nodeHosts hosts = new.hosts := by rw [nodeHosts, hcreate]
    exact ⟨hl', by rw [HostlistCall.run, hrun, hsame]; rfl, hsame ▸ hhosts, hcanonical⟩
  | pop =>
    obtain ⟨rfl, rfl⟩ := Prod.mk.inj (Option.some.inj hnames)
    obtain ⟨hl', hrun, hhosts, hcanonical⟩ := hostlistPop_spec h.canonical hsmall
    exact ⟨hl', by rw [HostlistCall.run, hrun]; rfl, hhosts, hcanonical⟩
  | shift =>
    obtain ⟨rfl, rfl⟩ := Prod.mk.inj (Option.some.inj hnames)
    obtain ⟨hl', hrun, hhosts, hcanonical⟩ := hostlistShift_spec h.canonical hsmall
    exact ⟨hl', by rw [HostlistCall.run, hrun]; rfl, hhosts, hcanonical⟩

/-- Assumes: a list of plain names, and calls with the texts that they are made for, which a plain
list answers and which do not add too many names. The hostlist gives these answers, and denotes the
plain list behind them. -/
theorem runListCalls_names (ndebug : Bool) (calls : List HostlistCall) :
    ∀ {hl : Hostlist} {answers : List HostlistAnswer} {names : List (List Char)}, hl.Plain →
      (∀ call ∈ calls, call.Given) →
      hl.hosts.length + calls.countP HostlistCall.adds < 2147483648 →
      runListCallNames calls hl.hosts = some (answers, names) →
      ∃ hl', runListCalls ndebug calls hl = some (answers, hl') ∧ hl'.hosts = names ∧
        hl'.Plain := by
  induction calls with
  | nil =>
    intro hl answers names h _ _ hrun
    obtain ⟨rfl, rfl⟩ := Prod.mk.inj (Option.some.inj hrun)
    exact ⟨hl, rfl, rfl, h⟩
  | cons call calls ih =>
    intro hl answers names h hgiven hfew hrun
    obtain ⟨hcall, hcalls⟩ := List.forall_mem_cons.mp hgiven
    rw [List.countP_cons] at hfew
    rw [runListCallNames] at hrun
    cases hnames : call.runNames hl.hosts with
    | none =>
      rw [hnames] at hrun
      exact absurd hrun (by simp)
    | some result =>
      obtain ⟨answer, names1⟩ := result
      rw [hnames] at hrun
      obtain ⟨⟨answers', names'⟩, hrest, heq⟩ := Option.map_eq_some_iff.mp hrun
      obtain ⟨rfl, rfl⟩ := Prod.mk.inj heq
      obtain ⟨hlength, hplain⟩ := hcall.names hnames
      obtain ⟨hl1, hstep, rfl, hcanonical⟩ := HostlistCall.run_eq ndebug h hcall hnames
      have h1 : hl1.Plain :=
        ⟨hcanonical, fun name hname ↦ (hplain name hname).elim (h.plain name) id, by omega⟩
      obtain ⟨hl', hlater, hhosts, h'⟩ := ih h1 hcalls (by omega) hrest
      refine ⟨hl', ?_, hhosts, h'⟩
      rw [runListCalls, hstep]
      simp only [hlater, Option.map_some]

/-- Assumes: calls with the texts that they are made for, which a plain list of names answers, less
than `2 ^ 31` of them adding a name. From a new hostlist on, every call gives the answer of the
plain list: no assertion fails, no buffer is too short, and every loop ends. Behind the calls the
hostlist denotes the plain list, with the right count. -/
theorem runListCalls_eq (ndebug : Bool) {calls : List HostlistCall}
    (hgiven : ∀ call ∈ calls, call.Given)
    (hfew : calls.countP HostlistCall.adds < 2147483648) {answers : List HostlistAnswer}
    {names : List (List Char)}
    (hrun : runListCallNames calls [] = some (answers, names)) :
    ∃ hl, runListCalls ndebug calls hostlistNew = some (answers, hl) ∧ hl.hosts = names ∧
      hl.Canonical ∧
      hostlistCount hl = names.length := by
  have hnew : hostlistNew.Plain :=
    ⟨hostlistNew_canonical, fun name hname ↦ absurd hname List.not_mem_nil, by decide⟩
  have hroom : hostlistNew.hosts.length + calls.countP HostlistCall.adds < 2147483648 := by
    rw [hosts_hostlistNew, List.length_nil, Nat.zero_add]
    exact hfew
  obtain ⟨hl, hcalls, rfl, h⟩ := runListCalls_names ndebug calls hnew hgiven hroom hrun
  have hsmall := h.small
  exact ⟨hl, hcalls, rfl, h.canonical, by
    rw [hostlistCount, h.canonical.nhosts_eq, toInt_eq_self (by omega) (by omega)]⟩

/-- The calls of the case below. -/
def mixedCalls : List HostlistCall :=
  [.push "n1".toList, .push "n2".toList, .pushHost "n3".toList, .deleteNth 1, .push "n2".toList,
    .find "n3".toList, .nth 2,
    .delete "n[1-2]".toList, .pop, .count]

/-- Three names make one range, which is split when the second one is taken out; two names go
together, and the last one is popped. -/
theorem runListCalls_eq_mixed :
    ∃ hl, runListCalls false mixedCalls hostlistNew =
        some ([.number 1, .number 1, .number 1, .number 1, .number 1, .number 1,
          .name (some "n2".toList), .number 2,
          .name (some "n3".toList), .number 0], hl) ∧
      hl.hosts = [] ∧ hl.Canonical ∧ hostlistCount hl = 0 := by
  refine @runListCalls_eq false mixedCalls (fun call hmem ↦ ⟨?_, ?_, ?_⟩)
    (by decide) _ _ (by decide)
  · rintro name rfl
    simp only [mixedCalls, List.mem_cons, List.not_mem_nil, or_false, HostlistCall.push.injEq,
      reduceCtorEq, false_or] at hmem
    rcases hmem with rfl | rfl | rfl <;> decide
  · rintro name rfl
    simp only [mixedCalls, List.mem_cons, List.not_mem_nil, or_false, HostlistCall.pushHost.injEq,
      reduceCtorEq, false_or] at hmem
    subst hmem
    decide
  · rintro hosts rfl
    simp only [mixedCalls, List.mem_cons, List.not_mem_nil, or_false, HostlistCall.delete.injEq,
      reduceCtorEq, false_or] at hmem
    subst hmem
    refine ⟨{
      ranges := [{ pfx := ['n'], lo := 1, hi := 2, width := 1, singlehost := false }], nhosts :=
      2 }, by decide,
      ⟨⟨?_, by decide⟩, ?_⟩, by decide⟩
    · exact fun hr hmem ↦ by
        rw [List.mem_singleton.mp hmem]
        exact ⟨by decide, by decide, by decide⟩
    · exact fun hr hmem ↦ by
        rw [List.mem_singleton.mp hmem]
        exact ⟨⟨by decide, by decide, by decide⟩, by decide, fun _ ↦ rfl, by decide⟩

end Whatsup
