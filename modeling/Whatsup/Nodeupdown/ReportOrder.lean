import Whatsup.Hostlist.PushOrder
import Whatsup.Nodeupdown.Calls
import Whatsup.Nodeupdown.LoadedTexts

/-!
# Loads and the order of the reports

Two loads with the same clusterlist module, whose backends report the same in different orders. If
the texts that they push are plain names, their lists hold the same names (`filled_lists`), and
`getNodesString_of_perm` says that they are printed alike for every buffer if the names have no
carry clash. With one they need not be: `not_sameText_clash` has the reports of `node9`, `node10`
and `node09` in two orders.
-/

set_option autoImplicit false
set_option relaxedAutoImplicit false

namespace Whatsup

open CLib

/-! ### The names of a load -/

/-- The names under which the nodes that are not known are pushed, in order; a name that is pushed
is known from then on. -/
def undiscoveredNames (entry : List Char → Option (List Char)) :
    List (List Char) → List (List Char) → List (List Char)
  | _, [] => []
  | known, node :: nodes =>
    if node ∈ known then undiscoveredNames entry known nodes
    else (entry node).toList ++ undiscoveredNames entry (known ++ (entry node).toList) nodes

/-- The names of one of the lists behind a load, if all that is pushed are plain names. -/
def Membership.names (m : Membership) (up : Bool) (calls : List BackendCall) : List (List Char) :=
  m.entries up calls ++ if up then []
    else undiscoveredNames m.entry (m.entries true calls ++ m.entries false calls) m.checks

/-- It does not matter in which order the known names are. -/
theorem undiscoveredNames_congr {entry : List Char → Option (List Char)}
    (nodes : List (List Char)) :
    ∀ {known known' : List (List Char)}, (∀ name, name ∈ known ↔ name ∈ known') →
      undiscoveredNames entry known nodes = undiscoveredNames entry known' nodes := by
  induction nodes with
  | nil => exact fun _ ↦ rfl
  | cons node nodes ih =>
    intro known known' hsame
    rw [undiscoveredNames, undiscoveredNames, ih hsame]
    rw [ih fun name ↦ show name ∈ known ++ (entry node).toList ↔
      name ∈ known' ++ (entry node).toList by rw [List.mem_append, List.mem_append, hsame]]
    simp only [hsame]

/-- The names of a list do not depend on the order of the calls, but for their order. -/
theorem Membership.names_perm (m : Membership) (up : Bool) {calls calls' : List BackendCall}
    (h : calls'.Perm calls) : (m.names up calls').Perm (m.names up calls) := by
  have hentries : ∀ side, (m.entries side calls').Perm (m.entries side calls) :=
    fun side ↦ h.filterMap _
  have hknown : undiscoveredNames m.entry (m.entries true calls' ++ m.entries false calls')
      m.checks = undiscoveredNames m.entry (m.entries true calls ++ m.entries false calls)
        m.checks :=
    undiscoveredNames_congr _ fun _ ↦ ((hentries true).append (hentries false)).mem_iff
  unfold Membership.names
  rw [hknown]
  exact (hentries up).append_right _

/-! ### The lists of a load -/

/-- Assumes: a filled list and plain names. Pushing them leaves a filled list of the names behind
those of the list. -/
theorem filled_foldl_pushedNode (names : List (List Char)) :
    ∀ {hl : Hostlist}, hl.Filled → (∀ name ∈ names, PlainName name) →
      (names.foldl pushedNode hl).Filled ∧
        (names.foldl pushedNode hl).hosts = hl.hosts ++ names := by
  induction names with
  | nil => exact fun hfilled _ ↦ ⟨hfilled, (List.append_nil _).symm⟩
  | cons name names ih =>
    intro hl hfilled hplain
    obtain ⟨hname, hnames⟩ := List.forall_mem_cons.mp hplain
    obtain ⟨hl', hpush, hhosts, -⟩ := hostlistPush_name hfilled.canonical hname
    have hpushed : pushedNode hl name = hl' := by
      rcases hostlistPush_eq hl name with ⟨-, hnone⟩ | ⟨-, count, hsome, -⟩
      · exact absurd (hnone.symm.trans hpush) (by simp)
      · exact (Prod.mk.inj (Option.some.inj (hsome.symm.trans hpush))).2
    obtain ⟨hlast, hall⟩ := ih (hpushed ▸ hfilled.push hname hpush) hnames
    rw [List.foldl_cons]
    exact ⟨hlast, by rw [hall, hpushed, hhosts, List.append_assoc, List.singleton_append]⟩

/-- Assumes: filled lists of less than `2 ^ 31` names each, and a node that is pushed under a plain
name, if at all. The check of the node leaves filled lists, and adds the name if no list has the
node. -/
theorem filled_checked {m : Membership} {node : List Char} {lists : Bool → Hostlist}
    (hfilled : ∀ up, (lists up).Filled) (hplain : ∀ name ∈ m.entry node, PlainName name)
    (hsmall : ∀ up, (lists up).hosts.length < 2 ^ 31) (up : Bool) :
    (m.checked lists node up).Filled ∧ (m.checked lists node up).hosts = (lists up).hosts ++
      if up then [] else if node ∈ (lists true).hosts ++ (lists false).hosts then []
        else (m.entry node).toList := by
  have hfound := fun side ↦ (hostlistFind_mem (hfilled side).canonical (hsmall side) node).1
  have hkept := fun side ↦ (hostlistFind_spec (hfilled side).canonical node).2.1
  have hsearched := fun side ↦ (hfilled side).find node
  unfold Membership.checked
  by_cases hup : node ∈ (lists true).hosts
  · rw [if_pos ((hfound true).mpr hup), if_pos (List.mem_append_left _ hup)]
    cases up
    · exact ⟨hfilled false, (List.append_nil _).symm⟩
    · exact ⟨hsearched true, (hkept true).trans (List.append_nil _).symm⟩
  · rw [if_neg ((hfound true).not.mpr hup)]
    by_cases hdown : node ∈ (lists false).hosts
    · rw [if_pos ((hfound false).mpr hdown), if_pos (List.mem_append_right _ hdown)]
      cases up
      · exact ⟨hsearched false, (hkept false).trans (List.append_nil _).symm⟩
      · exact ⟨hsearched true, (hkept true).trans (List.append_nil _).symm⟩
    · rw [if_neg ((hfound false).not.mpr hdown),
        if_neg (List.mem_append.not.mpr (not_or.mpr ⟨hup, hdown⟩))]
      cases up
      · obtain ⟨hpushed, hhosts⟩ := filled_foldl_pushedNode (m.entry node).toList (hsearched false)
          fun name hname ↦ hplain name (Option.mem_toList.mp hname)
        exact ⟨hpushed, hhosts.trans (congrArg (· ++ _) (hkept false))⟩
      · exact ⟨hsearched true, (hkept true).trans (List.append_nil _).symm⟩

/-- Assumes: filled lists, and nodes that are pushed under plain names, less than `2 ^ 31` together
with those of a list. The checks of the nodes leave filled lists, and add the undiscovered names. -/
theorem filled_checks (m : Membership) (nodes : List (List Char)) :
    ∀ {lists : Bool → Hostlist}, (∀ up, (lists up).Filled) →
      (∀ node ∈ nodes, ∀ name ∈ m.entry node, PlainName name) →
      (∀ up, (lists up).hosts.length + nodes.length < 2 ^ 31) → ∀ up,
      (nodes.foldl m.checked lists up).Filled ∧
        (nodes.foldl m.checked lists up).hosts = (lists up).hosts ++ if up then []
          else undiscoveredNames m.entry ((lists true).hosts ++ (lists false).hosts) nodes := by
  induction nodes with
  | nil => exact fun hfilled _ _ up ↦ ⟨hfilled up, by cases up <;> simp [undiscoveredNames]⟩
  | cons node nodes ih =>
    intro lists hfilled hplain hsmall up
    obtain ⟨hnode, hnodes⟩ := List.forall_mem_cons.mp hplain
    have hchecked := filled_checked hfilled hnode fun side ↦ lt_of_le_of_lt (Nat.le_add_right _ _)
      (hsmall side)
    have hmore : ((m.entry node).toList : List (List Char)).length ≤ 1 := by
      cases m.entry node <;> simp
    have hroom : ∀ side, (m.checked lists node side).hosts.length + nodes.length < 2 ^ 31 := by
      intro side
      have hbound := hsmall side
      rw [List.length_cons] at hbound
      rw [(hchecked side).2, List.length_append]
      split_ifs
      · exact lt_of_le_of_lt (by simp) hbound
      · exact lt_of_le_of_lt (by simp) hbound
      · omega
    have hlater := ih (fun side ↦ (hchecked side).1) hnodes hroom up
    rw [List.foldl_cons]
    refine ⟨hlater.1, hlater.2.trans ?_⟩
    rw [(hchecked up).2, (hchecked true).2, (hchecked false).2, undiscoveredNames]
    by_cases hknown : node ∈ (lists true).hosts ++ (lists false).hosts
    · cases up <;> simp [hknown]
    · cases up <;> simp [hknown]

/-- Assumes: plain names that are pushed, less than `2 ^ 31`. The lists of a load, before they are
sorted, are filled lists of its names. -/
theorem filled_lists {m : Membership} {calls : List BackendCall}
    (hplain : ∀ up, ∀ name ∈ m.entries up calls, PlainName name)
    (hchecks : ∀ node ∈ m.checks, ∀ name ∈ m.entry node, PlainName name)
    (hsmall : calls.length + m.checks.length < 2 ^ 31) (up : Bool) :
    (m.lists calls up).Filled ∧ (m.lists calls up).hosts = m.names up calls := by
  have hreported := fun side ↦ filled_foldl_pushedNode (m.entries side calls) .new (hplain side)
  obtain ⟨hfilled, hhosts⟩ := filled_checks m m.checks (fun side ↦ (hreported side).1) hchecks
    (fun side ↦ by
      have hle : (m.entries side calls).length ≤ calls.length := List.length_filterMap_le _ _
      rw [(hreported side).2, List.length_append, hosts_hostlistNew, List.length_nil]
      omega) up
  refine ⟨hfilled, hhosts.trans ?_⟩
  rw [(hreported up).2, (hreported true).2, (hreported false).2, hosts_hostlistNew]
  rfl

/-! ### The text -/

/-- Assumes: two loaded handles whose lists are written alike. Their texts are given alike. -/
theorem getNodesString_congr {w v : World} {up : Bool} {hl hl' : Hostlist} (hw : w.Loaded)
    (hv : v.Loaded)
    (hnodes : w.handle.nodes up = some hl) (hnodes' : v.handle.nodes up = some hl')
    (hnormal : hl'.ranges.map HostRange.normal = hl.ranges.map HostRange.normal)
    (buf : Option (List Char)) (buflen : ℤ) :
    (getNodesString up buf buflen v).map Prod.fst =
      (getNodesString up buf buflen w).map Prod.fst := by
  have hcheck : loadedHandleErrorCheck w = .ok (some (), w) :=
    loadedHandleErrorCheck_some.mpr ⟨hw, rfl⟩
  have hcheck' : loadedHandleErrorCheck v = .ok (some (), v) :=
    loadedHandleErrorCheck_some.mpr ⟨hv, rfl⟩
  unfold getNodesString
  rw [attempt_bind_ok hcheck', attempt_bind_ok hcheck]
  cases buf with
  | none => rfl
  | some buf =>
    simp only
    by_cases hlen : buflen ≤ 0
    · simp only [if_pos hlen]
      rfl
    · simp only [if_neg hlen]
      rw [attempt_bind_ok (theNodes_eq hnodes'), attempt_bind_ok (theNodes_eq hnodes),
        hostlistRangedString_congr hnormal]
      cases hostlistRangedString hl buflen.toNat buf with
      | none => rfl
      | some printed =>
        simp only
        split_ifs <;> rfl

/-- Assumes: two loads in worlds without reports that succeed with the same clusterlist module, the
same reports in two orders, plain names that are pushed, less than `2 ^ 31` calls and nodes that the
module looks for, and no carry clash among the names of a list. The list is given as the same text
by both handles, for every buffer. -/
theorem getNodesString_of_perm {m : Membership} {env env' : LoadEnv} {args args' : LoadArgs}
    {w w' v v' : World}
    (hqsort : IsSort hostrangeCmp env.qsort) (hqsort' : IsSort hostrangeCmp env'.qsort)
    (hstart : w.reports = []) (hstart' : v.reports = [])
    (hload : loadData env args w = .ok (0, w')) (hload' : loadData env' args' v = .ok (0, v'))
    (hm : w'.lib.membership = some m) (hm' : v'.lib.membership = some m)
    (horder : v'.reports.Perm w'.reports)
    (hplain : ∀ up, ∀ name ∈ m.entries up w'.reports, PlainName name)
    (hchecks : ∀ node ∈ m.checks, ∀ name ∈ m.entry node, PlainName name)
    (hsmall : w'.reports.length + m.checks.length < 2 ^ 31)
    {up : Bool} (hclash : ¬CarryClash (m.names up w'.reports)) (buf : Option (List Char))
    (buflen : ℤ) :
    (getNodesString up buf buflen v').map Prod.fst =
      (getNodesString up buf buflen w').map Prod.fst := by
  have hplain' : ∀ side, ∀ name ∈ m.entries side v'.reports, PlainName name := fun side name hmem ↦
    hplain side name ((horder.filterMap (m.added side)).mem_iff.mp hmem)
  obtain ⟨m1, hm1, hsorts⟩ := loadData_sorts hstart hload
  obtain ⟨m2, hm2, hsorts'⟩ := loadData_sorts hstart' hload'
  obtain rfl := Option.some.inj (hm.symm.trans hm1)
  obtain rfl := Option.some.inj (hm'.symm.trans hm2)
  obtain ⟨hfilled, hnames⟩ := filled_lists hplain hchecks hsmall up
  obtain ⟨hfilled', hnames'⟩ :=
    filled_lists hplain' hchecks (horder.length_eq.symm ▸ hsmall) up
  obtain ⟨sorted, hsort, hnodes⟩ := hsorts.sorted up
  obtain ⟨sorted', hsort', hnodes'⟩ := hsorts'.sorted up
  refine getNodesString_congr hsorts.loaded hsorts'.loaded hnodes hnodes' ?_ buf buflen
  refine normal_eq_of_filled hqsort hqsort' hfilled hfilled' ?_ (by rwa [hnames]) hsort hsort'
  rw [hnames, hnames']
  exact m.names_perm up horder

/-- A load with the default clusterlist module, whose backend reports nodes up in an order. -/
def orderEnv (nodes : List String) : LoadEnv :=
  plainEnv (plainBackend fun _ _ ↦ ⟨nodes.map fun node ↦ .addUpNode node.toList, ⟨0, none⟩⟩) none

/-- A load with a hostsfile of four nodes, whose backend reports nodes up in an order. -/
def fourNodesEnv (nodes : List String) : LoadEnv :=
  plainEnv (plainBackend fun _ _ ↦ ⟨nodes.map fun node ↦ .addUpNode node.toList, ⟨0, none⟩⟩)
    (some "node8\nnode9\nnode10\nnode11\n".toList)

/-- Two orders of the reports of `node9`, `node10` and `node8`, next to a node that is not
reported: both lists are printed alike. -/
theorem getNodesString_of_perm_three :
    ∃ w' v', loadData (fourNodesEnv ["node9", "node10", "node8"]) plainArgs startWorld =
        .ok (0, w') ∧
      loadData (fourNodesEnv ["node8", "node10", "node9"]) plainArgs startWorld = .ok (0, v') ∧
      ∀ up buf buflen, (getNodesString up buf buflen v').map Prod.fst =
        (getNodesString up buf buflen w').map Prod.fst := by
  obtain ⟨w', hload, hc, hcalls, -⟩ := exists_of_loadSummary
    (show loadSummary (loadData (fourNodesEnv ["node9", "node10", "node8"]) plainArgs startWorld) =
      some (0, some (.hostsfile (["node8", "node9", "node10", "node11"].map String.toList)),
        ["node9", "node10", "node8"].map fun node ↦ .addUpNode node.toList, 1) by decide +kernel)
  obtain ⟨v', hload', hc', hcalls', -⟩ := exists_of_loadSummary
    (show loadSummary (loadData (fourNodesEnv ["node8", "node10", "node9"]) plainArgs startWorld) =
      some (0, some (.hostsfile (["node8", "node9", "node10", "node11"].map String.toList)),
        ["node8", "node10", "node9"].map fun node ↦ .addUpNode node.toList, 1) by decide +kernel)
  refine ⟨w', v', hload, hload', fun up buf buflen ↦ ?_⟩
  exact getNodesString_of_perm isSort_insertionSort isSort_insertionSort rfl rfl hload hload'
    (membership_of_cluster hc) (membership_of_cluster hc') (by rw [hcalls, hcalls']; decide)
    (by rw [hcalls]; decide) (by decide) (by rw [hcalls]; decide)
    (by rw [hcalls]; cases up <;> decide) buf buflen

/-- The text of the nodes that are up behind a load. -/
def loadedText (outcome : Except LibFault (ℤ × World)) : Option (ℤ × Option (List Char)) :=
  outcome.toOption.map fun loaded ↦
    (loaded.1, (getNodesString true (some (List.replicate 20 'x')) 20 loaded.2).toOption.bind
      fun result ↦ result.1.map cString)

theorem exists_of_loadedText {outcome : Except LibFault (ℤ × World)} {rv : ℤ} {text : List Char}
    (h : loadedText outcome = some (rv, some text)) :
    ∃ w' given w'', outcome = .ok (rv, w') ∧
      getNodesString true (some (List.replicate 20 'x')) 20 w' = .ok (some given, w'') ∧
      cString given = text := by
  obtain ⟨w', hload, hseen⟩ := exists_of_view
    (fun w ↦ (getNodesString true (some (List.replicate 20 'x')) 20 w).toOption.bind fun result ↦
      result.1.map cString) h
  refine ⟨w', ?_⟩
  cases hgiven : getNodesString true (some (List.replicate 20 'x')) 20 w' with
  | error failure =>
    simp only [hgiven] at hseen
    exact absurd hseen (by simp [Except.toOption])
  | ok result =>
    obtain ⟨given, w''⟩ := result
    simp only [hgiven] at hseen
    obtain ⟨buf, hbuf, htext⟩ :=
      Option.map_eq_some_iff.mp (show given.map cString = some text from hseen)
    obtain rfl : given = some buf := hbuf
    exact ⟨buf, w'', hload, rfl, htext⟩

/-- Reports of distinct plain names in two orders, which the default module files, with different
texts. -/
theorem not_sameText_clash :
    ["node9", "node10", "node09"].Nodup ∧
    (∀ node ∈ ["node9", "node10", "node09"], PlainName node.toList) ∧
      ["node09", "node10", "node9"].Perm ["node9", "node10", "node09"] ∧
      ∃ w' v' given given' w'' v'', loadData (orderEnv ["node9", "node10", "node09"]) plainArgs
        startWorld = .ok (0, w') ∧
        loadData (orderEnv ["node09", "node10", "node9"]) plainArgs startWorld = .ok (0, v') ∧
        getNodesString true (some (List.replicate 20 'x')) 20 w' = .ok (some given, w'') ∧
        getNodesString true (some (List.replicate 20 'x')) 20 v' = .ok (some given', v'') ∧
        cString given = "node[9-10,09]".toList ∧ cString given' = "node[9,09-10]".toList ∧
        cString given' ≠ cString given := by
  obtain ⟨w', given, w'', hload, hgiven, htext⟩ := exists_of_loadedText
    (show loadedText (loadData (orderEnv ["node9", "node10", "node09"]) plainArgs startWorld) =
      some (0, some "node[9-10,09]".toList) by decide +kernel)
  obtain ⟨v', given', v'', hload', hgiven', htext'⟩ := exists_of_loadedText
    (show loadedText (loadData (orderEnv ["node09", "node10", "node9"]) plainArgs startWorld) =
      some (0, some "node[9,09-10]".toList) by decide +kernel)
  refine ⟨by decide, by decide, by decide, w', v', given, given', w'', v'', hload, hload', hgiven,
    hgiven', htext, htext', ?_⟩
  rw [htext, htext']
  decide

end Whatsup
