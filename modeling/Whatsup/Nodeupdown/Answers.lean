import Whatsup.Nodeupdown.Independence
import Whatsup.Nodeupdown.LoadedTexts

/-!
# The answers to the two queries about a node

`nodeupdown_is_node_up` and `nodeupdown_is_node_down` look a name up in two lists. `answers_iff`
says when their answers about a node fit together, so that exactly one of them is one: if the name
under which the node is looked up is found in exactly one of the lists. With plain names that is
always so, unless the hostsfile module has read no host. Then every node is one of the cluster, and
a node that no one has reported is neither up nor down. A line of the hostsfile such as `n[1-2]` is
a name of the cluster that is in neither list, and its hosts are down even if they are reported up.
-/

set_option autoImplicit false
set_option relaxedAutoImplicit false

namespace Whatsup

open CLib

/-- The answers of the two queries about a node, one after the other; `none` is the value `-1`. -/
def World.Answers (w : World) (node : List Char) (up down : Option ℤ) : Prop :=
  ∃ w1 w2, isNode true (some node) w = .ok (up, w1) ∧ isNode false (some node) w1 = .ok (down, w2)

/-- If neither answer about a node is `-1`, exactly one of them is one, and the other is zero. -/
def World.Consistent (w : World) (node : List Char) : Prop :=
  ∀ up down, w.Answers node (some up) (some down) → up = 1 ∧ down = 0 ∨ up = 0 ∧ down = 1

/-! ### One query -/

/-- A kind of lists that searches keep, and in which they find given names. -/
structure FindsIn (kind : Hostlist → Prop) (found : List (List Char)) : Prop where
  keeps : ∀ hl, kind hl → ∀ name, kind (hostlistFind hl name).2
  nonneg_iff : ∀ hl, kind hl → ∀ name, 0 ≤ (hostlistFind hl name).1 ↔ name ∈ found
  ne_iff : ∀ hl, kind hl → ∀ name, (hostlistFind hl name).1 ≠ -1 ↔ name ∈ found

/-- The name under which a query looks a node up: a name of the cluster, or, if no clusterlist
module has been found, a name that is found in one of the lists. -/
def World.LooksUp (c : Cluster) (names : Bool → List (List Char)) (w : World)
    (node name : List Char) : Prop :=
  if w.lib.clusterlistModuleFound ≠ 0 then c.nodename node = some name ∧ c.contains name = true
  else name = node ∧ ∃ up, node ∈ names up

/-- A loaded handle with a module of the sources, whose lists are of kinds in which given names are
found. -/
structure World.Searched (c : Cluster) (kind : Bool → Hostlist → Prop)
    (found : Bool → List (List Char)) (w : World) :
    Prop where
  loaded : w.Loaded
  cluster : w.lib.cluster = some c
  lists : ∀ up, ∃ hl, w.handle.nodes up = some hl ∧ kind up hl
  findsIn : ∀ up, FindsIn (kind up) (found up)

section

variable {c : Cluster} {kind : Bool → Hostlist → Prop} {found : Bool → List (List Char)} {w : World}

/-- A search in a list of such a handle. -/
theorem findNode_searched (h : w.Searched c kind found) (up : Bool) (name : List Char) :
    ∃ answer w', findNode up name w = .ok (some answer, w') ∧ w'.Searched c kind found ∧
      w'.lib = w.lib ∧
      (0 ≤ answer ↔ name ∈ found up) ∧ (answer ≠ -1 ↔ name ∈ found up) := by
  obtain ⟨hl, hnodes, hkind⟩ := h.lists up
  refine ⟨_, _, attempt_bind_some.mpr ⟨hl, w, theNodes_eq hnodes, rfl⟩,
    ⟨?_, ?_, fun side ↦ ?_, h.findsIn⟩, ?_,
    (h.findsIn up).nonneg_iff hl hkind name, (h.findsIn up).ne_iff hl hkind name⟩
  · cases up <;> exact h.loaded
  · cases up <;> exact h.cluster
  · by_cases hside : side = up
    · refine ⟨_, (nodes_setNodes w up side _).trans (if_pos hside), ?_⟩
      rw [hside]
      exact (h.findsIn up).keeps hl hkind name
    · obtain ⟨other, hother, hother_kind⟩ := h.lists side
      exact ⟨other, (nodes_setNodes w up side _).trans ((if_neg hside).trans hother), hother_kind⟩
  · cases up <;> rfl

/-- All that a search in a list of such a handle can do. -/
theorem findNode_answer (h : w.Searched c kind found) {up : Bool} {name : List Char}
    {value : Option ℤ} {w' : World}
    (hrun : findNode up name w = .ok (value, w')) :
    ∃ answer, value = some answer ∧ w'.Searched c kind found ∧ w'.lib = w.lib ∧
      (0 ≤ answer ↔ name ∈ found up) ∧
      (answer ≠ -1 ↔ name ∈ found up) := by
  obtain ⟨answer, w1, hfind, hsearched⟩ := findNode_searched h up name
  obtain ⟨rfl, rfl⟩ := Prod.mk.inj (Except.ok.inj (hfind.symm.trans hrun))
  exact ⟨answer, rfl, hsearched⟩

/-- The name that is found is that under which the node is to be looked up. -/
theorem queryNodename_ok {node name : List Char} {w' : World} (h : w.Searched c kind found)
    (hrun : queryNodename node w = .ok (some name, w')) :
    w'.Searched c kind found ∧ w'.lib = w.lib ∧ w.LooksUp c found node name := by
  unfold queryNodename at hrun
  unfold World.LooksUp
  split_ifs at hrun ⊢ with hfound
  · obtain ⟨rv, w1, hin, hgiven⟩ := attempt_bind_some.mp hrun
    obtain ⟨rfl, inCluster, hrv, hcontains⟩ := isNodeInCluster_ok h.cluster hin
    obtain rfl := Option.some.inj hrv
    split_ifs at hgiven with hcluster
    · obtain ⟨hname, hw'⟩ := getNodename_ok h.cluster hgiven
      rw [if_neg (by simp)] at hw'
      exact ⟨hw' ▸ h, by rw [hw'], hname.symm, (hcontains name hname.symm).trans hcluster⟩
    · exact absurd hgiven (by simp [failWith, Attempt.giveUp])
  · obtain ⟨inUp, w1, hup, hrun⟩ := attempt_bind_some.mp hrun
    obtain ⟨_, hvalue, hsearched1, hlib1, hmemUp, -⟩ := findNode_answer h hup
    obtain rfl := Option.some.inj hvalue
    split_ifs at hrun with hinUp
    · obtain ⟨hname, rfl⟩ := Prod.mk.inj (Except.ok.inj hrun)
      exact ⟨hsearched1, hlib1, (Option.some.inj hname).symm, true, hmemUp.mp hinUp⟩
    · obtain ⟨inDown, w2, hdown, hrun⟩ := attempt_bind_some.mp hrun
      obtain ⟨_, hvalue, hsearched2, hlib2, hmemDown, -⟩ := findNode_answer hsearched1 hdown
      obtain rfl := Option.some.inj hvalue
      split_ifs at hrun with hinDown
      · obtain ⟨hname, rfl⟩ := Prod.mk.inj (Except.ok.inj hrun)
        exact ⟨hsearched2, hlib2.trans hlib1, (Option.some.inj hname).symm, false,
          hmemDown.mp hinDown⟩
      · exact absurd hrun (by simp [failWith, Attempt.giveUp])

/-- Assumes: a node that has a name to look it up under. It is found. -/
theorem queryNodename_eq {node name : List Char} (h : w.Searched c kind found)
    (hlooks : w.LooksUp c found node name) :
    ∃ w', queryNodename node w = .ok (some name, w') ∧ w'.Searched c kind found := by
  unfold World.LooksUp at hlooks
  unfold queryNodename
  split_ifs at hlooks ⊢ with hfound
  · refine ⟨w, attempt_bind_some.mpr ⟨true, w, ?_, ?_⟩, h⟩
    · rw [isNodeInCluster_eq h.cluster hlooks.1, hlooks.2]
    · rw [if_pos rfl, getNodename_eq h.cluster hlooks.1]
  · obtain ⟨rfl, side, hside⟩ := hlooks
    obtain ⟨inUp, w1, hup, hsearched1, -, hmemUp, -⟩ := findNode_searched h true name
    by_cases hinUp : 0 ≤ inUp
    · refine ⟨w1, attempt_bind_some.mpr ⟨inUp, w1, hup, ?_⟩, hsearched1⟩
      rw [if_pos hinUp]
      rfl
    · obtain ⟨inDown, w2, hdown, hsearched2, -, hmemDown, -⟩ :=
        findNode_searched hsearched1 false name
      refine ⟨w2, attempt_bind_some.mpr ⟨inUp, w1, hup, ?_⟩, hsearched2⟩
      rw [if_neg hinUp]
      refine attempt_bind_some.mpr ⟨inDown, w2, hdown, ?_⟩
      cases side with
      | true => exact absurd (hmemUp.mpr hside) hinUp
      | false =>
        rw [if_pos (hmemDown.mpr hside)]
        rfl

/-- An answer that is not `-1` says whether the name of the node is found in the list. -/
theorem isNode_answer {up : Bool} {node : List Char} {answer : ℤ} {w' : World}
    (h : w.Searched c kind found)
    (hrun : isNode up (some node) w = .ok (some answer, w')) :
    w'.Searched c kind found ∧ w'.lib = w.lib ∧
      ∃ name, w.LooksUp c found node name ∧ answer = if name ∈ found up then 1 else 0 := by
  obtain ⟨_, w1, hcheck, hrest⟩ := attempt_bind_some.mp hrun
  obtain ⟨-, rfl⟩ := loadedHandleErrorCheck_some.mp hcheck
  obtain ⟨name, w2, hname, hrest⟩ := attempt_bind_some.mp hrest
  obtain ⟨temp, w3, hfind, hend⟩ := attempt_bind_some.mp hrest
  obtain ⟨hsearched2, hlib2, hlooks⟩ := queryNodename_ok h hname
  obtain ⟨_, hvalue, hsearched3, hlib3, -, hmem⟩ := findNode_answer hsearched2 hfind
  obtain rfl := Option.some.inj hvalue
  obtain ⟨hanswer, rfl⟩ := Prod.mk.inj (Except.ok.inj hend)
  refine ⟨⟨hsearched3.loaded, hsearched3.cluster, fun side ↦ ?_, hsearched3.findsIn⟩,
    hlib3.trans hlib2, name, hlooks, ?_⟩
  · obtain ⟨hl, hnodes, hkind⟩ := hsearched3.lists side
    exact ⟨hl, by cases side <;> exact hnodes, hkind⟩
  · rw [← Option.some.inj hanswer]
    simp only [hmem]

/-- Assumes: a node that has a name to look it up under. The query about the node has an answer that
is not `-1`. -/
theorem exists_isNode {node name : List Char} (up : Bool) (h : w.Searched c kind found)
    (hlooks : w.LooksUp c found node name) : ∃ answer w', isNode up (some node) w =
      .ok (some answer, w') := by
  obtain ⟨w1, hquery, hsearched1⟩ := queryNodename_eq h hlooks
  obtain ⟨answer, w2, hfind, -⟩ := findNode_searched hsearched1 up name
  exact ⟨_, _, attempt_bind_some.mpr ⟨(), w, loadedHandleErrorCheck_some.mpr ⟨h.loaded, rfl⟩,
    attempt_bind_some.mpr ⟨name, w1, hquery, attempt_bind_some.mpr ⟨answer, w2, hfind, rfl⟩⟩⟩⟩

/-- A node is looked up under one name only. -/
theorem World.LooksUp.unique {node name other : List Char} (h : w.LooksUp c found node name)
    (hother : w.LooksUp c found node other) : other = name := by
  unfold World.LooksUp at h hother
  split_ifs at h hother
  · exact Option.some.inj (hother.1.symm.trans h.1)
  · exact hother.1.trans h.1.symm

/-- The name under which a node is looked up, if it has one, is found in exactly one of the
lists. -/
def World.ListedOnce (c : Cluster) (found : Bool → List (List Char)) (w : World)
    (node : List Char) : Prop :=
  ∀ name, w.LooksUp c found node name → (name ∈ found true ↔ name ∉ found false)

/-- The answers about a node fit together exactly if it is found in exactly one of the lists. -/
theorem World.Searched.consistent_iff (h : w.Searched c kind found) (node : List Char) :
    w.Consistent node ↔ w.ListedOnce c found node := by
  have hkept : ∀ {v : World} {name : List Char}, v.lib = w.lib →
      (v.LooksUp c found node name ↔ w.LooksUp c found node name) :=
    fun hlib ↦ by rw [World.LooksUp, World.LooksUp, hlib]
  constructor
  · intro hconsistent name hlooks
    obtain ⟨up, w1, hup⟩ := exists_isNode true h hlooks
    obtain ⟨hsearched1, hlib, other, hother, rfl⟩ := isNode_answer h hup
    obtain ⟨down, w2, hdown⟩ := exists_isNode false hsearched1 ((hkept hlib).mpr hlooks)
    obtain ⟨-, -, third, hthird, rfl⟩ := isNode_answer hsearched1 hdown
    obtain rfl := hlooks.unique hother
    obtain rfl := hother.unique ((hkept hlib).mp hthird)
    have hone := hconsistent _ _ ⟨w1, w2, hup, hdown⟩
    by_cases hmemUp : third ∈ found true <;> by_cases hmemDown : third ∈ found false <;>
      simp [hmemUp, hmemDown] at hone ⊢
  · rintro honce up down ⟨w1, w2, hup, hdown⟩
    obtain ⟨hsearched1, hlib, name, hlooks, rfl⟩ := isNode_answer h hup
    obtain ⟨-, -, other, hother, rfl⟩ := isNode_answer hsearched1 hdown
    obtain rfl := hlooks.unique ((hkept hlib).mp hother)
    by_cases hmem : other ∈ found true
    · exact Or.inl ⟨if_pos hmem, if_neg ((honce other hlooks).mp hmem)⟩
    · exact Or.inr ⟨if_neg hmem, if_pos (not_not.mp ((honce other hlooks).not.mp hmem))⟩

end

/-! ### Lists of plain names -/

/-- A loaded handle with a module of the sources, whose lists denote given names, less than `2 ^ 31`
each. -/
structure World.Queried (c : Cluster) (names : Bool → List (List Char)) (w : World) : Prop where
  loaded : w.Loaded
  cluster : w.lib.cluster = some c
  lists : w.Lists names
  small : ∀ up, (names up).length < 2 ^ 31

section

variable {c : Cluster} {names : Bool → List (List Char)} {w : World}

/-- Such a handle is one in which the names of the lists are found. -/
theorem World.Queried.searched (h : w.Queried c names) :
    w.Searched c (fun up hl ↦ hl.Filled ∧ hl.hosts = names up) names := by
  refine ⟨h.loaded, h.cluster, h.lists, fun up ↦
    ⟨fun hl hkind name ↦ ?_, fun hl hkind name ↦ ?_, fun hl hkind name ↦ ?_⟩⟩
  · exact ⟨hkind.1.find name, (hostlistFind_spec hkind.1.canonical name).2.1.trans hkind.2⟩
  all_goals
    obtain ⟨hfilled, hhosts⟩ := hkind
    have hsmall := h.small up
    rw [← hhosts] at hsmall ⊢
    obtain ⟨hnonneg, hne⟩ := hostlistFind_mem hfilled.canonical hsmall name
  · exact hnonneg
  · exact hne

/-- Assumes: less than `2 ^ 31` names a list. A handle in which the names of filled lists are found
is such a handle. -/
theorem World.Searched.queried
    (h : w.Searched c (fun up hl ↦ hl.Filled ∧ hl.hosts = names up) names)
    (hsmall : ∀ up, (names up).length < 2 ^ 31) : w.Queried c names :=
  ⟨h.loaded, h.cluster, h.lists, hsmall⟩

/-- An answer that is not `-1` says whether the list denotes the name of the node. -/
theorem isNode_ok {w' : World} {up : Bool} {node : List Char} {answer : ℤ} (h : w.Queried c names)
    (hrun : isNode up (some node) w = .ok (some answer, w')) :
    w'.Queried c names ∧ w'.lib = w.lib ∧
      ∃ name, w.LooksUp c names node name ∧ answer = if name ∈ names up then 1 else 0 := by
  obtain ⟨hsearched, hlib, hanswer⟩ := isNode_answer h.searched hrun
  exact ⟨hsearched.queried h.small, hlib, hanswer⟩

end

/-! ### Both queries -/

/-- There are not more undiscovered hosts than hosts. -/
theorem length_undiscovered_le (hosts : List (List Char)) :
    ∀ known, (undiscovered known hosts).length ≤ hosts.length := by
  induction hosts with
  | nil => exact fun _ ↦ le_rfl
  | cons host hosts ih =>
    intro known
    rw [undiscovered]
    split_ifs
    · exact (ih known).trans (Nat.le_succ _)
    · exact Nat.succ_le_succ (ih _)

/-- A list of a loaded handle has no more names than there are calls and hosts. -/
theorem Cluster.length_names_le (c : Cluster) (up : Bool) (calls : List BackendCall) :
    (c.names up calls).length ≤ calls.length + c.hosts.length := by
  have hentries := c.length_entries_le up calls
  have hundiscovered :=
    length_undiscovered_le c.hosts (c.entries true calls ++ c.entries false calls)
  unfold Cluster.names
  rw [List.length_append]
  split_ifs
  · exact Nat.add_le_add hentries (Nat.zero_le _)
  · exact Nat.add_le_add hentries hundiscovered

/-- A loaded handle can be queried. -/
theorem World.Holds.queried {c : Cluster} {w : World} (h : w.Holds c)
    (hsmall : w.reports.length + c.hosts.length < 2 ^ 31) :
    ∃ names, w.Queried c names ∧ ∀ up, (names up).Perm (c.names up w.reports) := by
  choose hl hnodes hfilled hperm using h.lists
  refine ⟨fun up ↦ (hl up).hosts,
    ⟨h.loaded, h.cluster, fun up ↦ ⟨hl up, hnodes up, hfilled up, rfl⟩, fun up ↦ ?_⟩, hperm⟩
  rw [(hperm up).length_eq]
  exact lt_of_le_of_lt (c.length_names_le up w.reports) hsmall

/-- Assumes: no name is added twice. No name is in both lists, or twice in one. -/
theorem Cluster.nodup_names {c : Cluster} {calls : List BackendCall}
    (honce : (c.entries true calls ++ c.entries false calls).Nodup) :
      (c.names true calls ++ c.names false calls).Nodup := by
  have hnames : c.names true calls ++ c.names false calls =
    (c.entries true calls ++ c.entries false calls) ++
      undiscovered (c.entries true calls ++ c.entries false calls) c.hosts := by
    simp [Cluster.names]
  rw [hnames]
  refine List.Nodup.append honce (nodup_undiscovered _ _) fun name hadded hnot ↦ ?_
  exact ((mem_undiscovered _ _).mp hnot).2 hadded

/-- The names of the lists are those that have been added and the hosts. -/
theorem Cluster.mem_names {c : Cluster} {calls : List BackendCall} {name : List Char} :
    (name ∈ c.names true calls ∨ name ∈ c.names false calls) ↔
      name ∈ c.entries true calls ++ c.entries false calls ∨ name ∈ c.hosts := by
  have hnames : name ∈ c.names true calls ∨ name ∈ c.names false calls ↔
      name ∈ c.entries true calls ++ c.entries false calls ∨
        name ∈ undiscovered (c.entries true calls ++ c.entries false calls) c.hosts := by
    simp [Cluster.names, or_assoc]
  rw [hnames, mem_undiscovered]
  constructor
  · exact fun h ↦ h.imp_right fun h ↦ h.1
  · intro h
    by_cases hadded : name ∈ c.entries true calls ++ c.entries false calls
    · exact Or.inl hadded
    · exact Or.inr ⟨h.resolve_left hadded, hadded⟩

/-- Assumes: less than `2 ^ 31` calls and hosts, and no name that is added twice. In a handle that
holds plain names, the answers about a node fit together exactly if no clusterlist module has been
found, or the hostsfile has hosts, or the name of the node, if it has one, has been added. -/
theorem World.Holds.consistent_iff {c : Cluster} {w : World} (h : w.Holds c)
    (hsmall : w.reports.length + c.hosts.length < 2 ^ 31)
    (honce : (c.entries true w.reports ++ c.entries false w.reports).Nodup) (node : List Char) :
    w.Consistent node ↔ w.lib.clusterlistModuleFound = 0 ∨ c.hosts ≠ [] ∨
      ∀ name ∈ c.nodename node, name ∈ c.entries true w.reports ++ c.entries false w.reports := by
  obtain ⟨names, hqueried, hperm⟩ := h.queried hsmall
  have hmem : ∀ name, (∃ up, name ∈ names up) ↔
      name ∈ c.entries true w.reports ++ c.entries false w.reports ∨ name ∈ c.hosts := by
    intro name
    rw [← Cluster.mem_names, Bool.exists_bool, (hperm true).mem_iff, (hperm false).mem_iff, or_comm]
  have hdisjoint : ∀ name, name ∈ names true → name ∉ names false := by
    intro name hup hdown
    rw [(hperm true).mem_iff] at hup
    rw [(hperm false).mem_iff] at hdown
    exact (List.nodup_append.mp (Cluster.nodup_names honce)).2.2 name hup name hdown rfl
  rw [hqueried.searched.consistent_iff]
  constructor
  · intro hlisted
    by_contra hnot
    obtain ⟨hfound, hempty, hunknown⟩ : w.lib.clusterlistModuleFound ≠ 0 ∧ c.hosts = [] ∧
        ∃ name ∈ c.nodename node, name ∉ c.entries true w.reports ++ c.entries false w.reports := by
      simpa only [not_or, not_not, not_forall, exists_prop] using hnot
    obtain ⟨name, hname, hadded⟩ := hunknown
    have hcontains : c.contains name = true := by simp [Cluster.contains, hempty]
    have hneither : ∀ up, name ∉ names up := fun up h ↦ by
      rcases (hmem name).mp ⟨up, h⟩ with hentry | hhost
      · exact hadded hentry
      · rw [hempty] at hhost
        exact List.not_mem_nil hhost
    have hlooks : w.LooksUp c names node name := by
      rw [World.LooksUp, if_pos hfound]
      exact ⟨hname, hcontains⟩
    exact hneither true ((hlisted name hlooks).mpr (hneither false))
  · intro hwhen name hlooks
    have hside : ∃ side, name ∈ names side := by
      unfold World.LooksUp at hlooks
      split_ifs at hlooks with hfound
      · refine (hmem name).mpr ?_
        rcases hwhen with hnone | hhosts | hadded
        · exact absurd hnone hfound
        · right
          simpa [Cluster.contains, hhosts] using hlooks.2
        · exact Or.inl (hadded name hlooks.1)
      · obtain ⟨rfl, hside⟩ := hlooks
        exact hside
    obtain ⟨side, hside⟩ := hside
    cases side with
    | true => exact iff_of_true hside (hdisjoint name hside)
    | false => exact iff_of_false (fun hup ↦ hdisjoint name hup hside) (not_not.mpr hside)

/-! ### Any texts -/

/-- Names that are found are found in another order of the hosts, too. -/
theorem perm_foundNames {marks marks' : List (List Char × Bool)} (h : marks.Perm marks') :
    (foundNames marks).Perm (foundNames marks') :=
  (h.filter _).map _

/-- Assumes: a loaded handle with a module of the sources, whose lists denote what texts name, less
than `2 ^ 31` hosts each. The names that are found among these hosts are found in the lists. -/
theorem World.Denotes.searched {c : Cluster} {texts : Bool → List (List Char)} {w : World}
    (h : w.Denotes texts)
    (hloaded : w.Loaded) (hc : w.lib.cluster = some c)
    (hsmall : ∀ up, ((texts up).flatMap namedHosts).length < 2 ^ 31) :
    w.Searched c (fun up hl ↦ hl.Sound ∧ hl.marks.Perm ((texts up).flatMap namedMarks)) fun up ↦
      foundIn (texts up) := by
  have hfound : ∀ up hl, hl.Sound ∧ hl.marks.Perm ((texts up).flatMap namedMarks) → ∀ name,
      (0 ≤ (hostlistFind hl name).1 ↔ name ∈ foundIn (texts up)) ∧
        ((hostlistFind hl name).1 ≠ -1 ↔ name ∈ foundIn (texts up)) := by
    rintro up hl ⟨hsound, hmarks⟩ name
    have hlength := (hmarks.map Prod.fst).length_eq
    rw [Hostlist.map_fst_marks, map_fst_flatMap_namedMarks] at hlength
    obtain ⟨hnonneg, hne⟩ := hostlistFind_found hsound (hlength ▸ hsmall up) name
    rw [foundIn, hnonneg, hne, (perm_foundNames hmarks).mem_iff]
    exact ⟨Iff.rfl, Iff.rfl⟩
  refine ⟨hloaded, hc, h, fun up ↦
    ⟨fun hl hkind name ↦ ?_, fun hl hkind name ↦ (hfound up hl hkind name).1,
    fun hl hkind name ↦ (hfound up hl hkind name).2⟩⟩
  have halike := alike_hostlistFind hl name
  exact ⟨halike.sound hkind.1, halike.marks_eq ▸ hkind.2⟩

/-- Assumes: a handle in a world without reports, and a load with a clusterlist module of the
sources that succeeds. If no push wraps around and there are less than `2 ^ 31` hosts, the answers
about a node fit together exactly if the name under which it is looked up is found in one of the
lists only: among the hosts that the texts of the nodes reported up name, or among those that the
texts of the nodes reported down and of the hosts that are found nowhere name. If the names that are
added are plain, each once, and the hosts of the file are plain unless they are empty, that is so
exactly if no clusterlist module has been found, or the hostsfile has hosts, or the name of the
node, if it has one, has been added. -/
theorem answers_iff {c : Cluster} {env : LoadEnv} {args : LoadArgs} {w w' : World}
    (hqsort : IsSort hostrangeCmp env.qsort) (hstart : w.reports = [])
    (hload : loadData env args w = .ok (0, w'))
    (hc : w'.lib.cluster = some c) (node : List Char) :
    (c.membership.Regular w'.reports →
      (w'.Consistent node ↔
        w'.ListedOnce c (fun up ↦ foundIn (c.membership.texts up w'.reports)) node)) ∧
      ((∀ up, ∀ name ∈ c.entries up w'.reports, PlainName name) →
        (∀ host ∈ c.hosts, host ≠ [] → PlainName host) →
        w'.reports.length + c.hosts.length < 2 ^ 31 →
        (c.entries true w'.reports ++ c.entries false w'.reports).Nodup →
        (w'.Consistent node ↔ w'.lib.clusterlistModuleFound = 0 ∨ c.hosts ≠ [] ∨
          ∀ name ∈ c.nodename node, name ∈ c.entries true w'.reports ++
            c.entries false w'.reports)) := by
  refine ⟨fun hregular ↦ ?_, fun hplain hhosts hsmall honce ↦ ?_⟩
  · obtain ⟨hloaded, hdenotes⟩ :=
      loadData_denotes hqsort hstart (membership_of_cluster hc) hregular hload
    exact (hdenotes.searched hloaded hc fun up ↦ (hregular up).small).consistent_iff node
  · exact (loadData_lists hqsort hstart hc hplain hhosts hsmall hload).consistent_iff hsmall honce
      node

/-- Two hosts in the hostsfile, of which one is reported. -/
def twoHostsEnv : LoadEnv :=
  plainEnv (plainBackend fun _ _ ↦ ⟨[.addUpNode "n1".toList], ⟨0, none⟩⟩) (some "n1\nn2\n".toList)

/-- Ranges in a line of the hostsfile, and a host that is reported. -/
def rangeLineEnv : LoadEnv :=
  plainEnv (plainBackend fun _ _ ↦ ⟨[.addUpNode "login".toList], ⟨0, none⟩⟩)
    (some "n[1-2]\nlogin\n".toList)

/-- The answers about a host that is not reported fit together, and so do those about a host next to
a line of ranges; those about the line do not. -/
theorem answers_iff_twoHosts :
    (∃ w', loadData twoHostsEnv plainArgs startWorld = .ok (0, w') ∧ w'.Consistent "n2".toList) ∧
      ∃ w', loadData rangeLineEnv plainArgs startWorld = .ok (0, w') ∧
        w'.Consistent "login".toList ∧
        ¬w'.Consistent "n[1-2]".toList := by
  constructor
  · have hsummary : loadSummary (loadData twoHostsEnv plainArgs startWorld) =
        some (0, some (.hostsfile ["n1".toList, "n2".toList]), [.addUpNode "n1".toList], 1) := by
          decide +kernel
    obtain ⟨w', hload, hc, hcalls, -⟩ := exists_of_loadSummary hsummary
    refine ⟨w', hload,
      ((answers_iff isSort_insertionSort rfl hload hc _).2 ?_ ?_ ?_ ?_).mpr (Or.inr (Or.inl ?_))⟩
    · rw [hcalls]
      decide
    · decide
    · rw [hcalls]
      decide
    · rw [hcalls]
      decide
    · decide
  · have hsummary : loadSummary (loadData rangeLineEnv plainArgs startWorld) =
        some (0, some (.hostsfile ["n[1-2]".toList, "login".toList]), [.addUpNode "login".toList],
          1) := by decide +kernel
    obtain ⟨w', hload, hc, hcalls, hfound⟩ := exists_of_loadSummary hsummary
    have hregular : (Cluster.hostsfile ["n[1-2]".toList, "login".toList]).membership.Regular
        w'.reports := by
      rw [hcalls]
      exact fun up ↦ ⟨by cases up <;> decide +kernel, by cases up <;> decide +kernel⟩
    have hlooks : ∀ node name, w'.LooksUp (.hostsfile ["n[1-2]".toList, "login".toList])
          (fun up ↦ foundIn ((Cluster.hostsfile
            ["n[1-2]".toList, "login".toList]).membership.texts up w'.reports)) node name ↔
        (Cluster.hostsfile ["n[1-2]".toList, "login".toList]).nodename node = some name ∧
          (Cluster.hostsfile ["n[1-2]".toList, "login".toList]).contains name = true := by
      intro node name
      rw [World.LooksUp, if_pos (by rw [hfound]; decide)]
    refine ⟨w', hload, ((answers_iff isSort_insertionSort rfl hload hc _).1 hregular).mpr
      fun name hname ↦ ?_,
      fun hconsistent ↦ ?_⟩
    · obtain rfl : "login".toList = name :=
        Option.some.inj ((by decide : _ = some "login".toList).symm.trans
        ((hlooks _ _).mp hname).1)
      rw [hcalls]
      decide +kernel
    · have hlisted := ((answers_iff isSort_insertionSort rfl hload hc _).1 hregular).mp hconsistent
        "n[1-2]".toList
        ((hlooks _ _).mpr (by decide))
      rw [hcalls] at hlisted
      exact absurd hlisted (by decide +kernel)

/-- An empty hostsfile, and one node that is reported. -/
def emptyFileEnv : LoadEnv :=
  plainEnv (plainBackend fun _ _ ↦ ⟨[.addUpNode "n1".toList], ⟨0, none⟩⟩) (some [])

/-- With an empty hostsfile a node that no one has reported is neither up nor down. -/
theorem answers_emptyFile : ∃ w', loadData emptyFileEnv plainArgs startWorld = .ok (0, w') ∧
    ¬w'.Consistent "n2".toList := by
  have hsummary : loadSummary (loadData emptyFileEnv plainArgs startWorld) =
      some (0, some (.hostsfile []), [.addUpNode "n1".toList], 1) := by decide +kernel
  have hasked : askTwo (isNode true (some "n2".toList)) (isNode false (some "n2".toList))
      (loadData emptyFileEnv plainArgs startWorld) = some (some 0, some 0) := by decide +kernel
  obtain ⟨w', hload, -⟩ := exists_of_loadSummary hsummary
  rw [hload] at hasked
  exact ⟨w', hload, fun h ↦ absurd (h 0 0 (exists_of_askTwo hasked)) (by decide)⟩

end Whatsup
