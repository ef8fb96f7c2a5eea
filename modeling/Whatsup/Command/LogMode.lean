import Mathlib.Algebra.Group.Action.Defs
import Mathlib.Algebra.Order.BigOperators.Group.List
import Mathlib.Logic.Function.Basic
import Whatsup.Command.GetNodes

/-!
# The log mode of `whatsup`

In log mode `whatsup` polls the cluster again and again. It prints the nodes that are up and those
that are down, parses both texts back, and writes a line for every node of a new list that the same
list of the poll before does not have. The time in a line, the log file and the pause between two
polls are left out.

`logMode_replays` says what the lines are good for: replayed from the first poll, they give every
node of every later poll the state it has there. It needs that `hostlist_next` gives the names of
the lists, so that no numeric suffix is longer than 14 characters. `newNodes_ahead` is the loop
that picks the nodes of a line, and `logPoll_eq_ok` one poll.
-/

set_option autoImplicit false
set_option relaxedAutoImplicit false

namespace Whatsup

open CLib

/-! ### Polls -/

/-- A line of the log: a node, and whether it is up. -/
structure LogLine where
  node : List Char
  up : Bool
deriving DecidableEq

/-- The loop over the nodes of a new list: those that the old list does not have, and the old list,
which the searches may rewrite. Without rounds left it does not end. -/
def newNodes (new : Hostlist) : ℕ → HostlistIterator → Hostlist →
    Option (List (List Char) × Hostlist)
  | 0, _, _ => none
  | rounds + 1, itr, old =>
    match hostlistNext new itr with
    | (none, _) => some ([], old)
    | (some node, itr) =>
      let (found, old) := hostlistFind old node
      (newNodes new rounds itr old).map fun rest ↦
        (if found < 0 then node :: rest.1 else rest.1, rest.2)

/-- The lists of the poll before: the nodes that were up and those that were down. -/
structure KnownNodes where
  upnodes : Hostlist
  downnodes : Hostlist

/-- The lines for the nodes of a new list. -/
def logNew (up : Bool) (new old : Hostlist) : Except WhatsupExit (List LogLine) :=
  match newNodes new (new.hosts.length + 1) hostlistIteratorCreate old with
  | none => .error (.fault .endless)
  | some (nodes, _) => .ok (nodes.map fun node ↦ ⟨node, up⟩)

/-- The lines of a round: none the first time, when there are no lists of the poll before. -/
def linesFor (known : Option KnownNodes) (new : KnownNodes) : Except WhatsupExit (List LogLine) :=
  match known with
  | none => .ok []
  | some known => do
    let upLines ← logNew true new.upnodes known.upnodes
    let downLines ← logNew false new.downnodes known.downnodes
    return upLines ++ downLines

/-- One round of `_log_mode` behind `nodeupdown_load_data`: the lines it writes, and the new
lists. -/
def logPoll (known : Option KnownNodes) (w : World) :
    Except WhatsupExit (List LogLine × KnownNodes) := do
  let (upnodesbuf, w) ← getAllNodes true clearedBuffer w
  let (downnodesbuf, _) ← getAllNodes false clearedBuffer w
  let upnodes ← createNodes (cString upnodesbuf)
  let downnodes ← createNodes (cString downnodesbuf)
  let lines ← linesFor known ⟨upnodes, downnodes⟩
  return (lines, ⟨upnodes, downnodes⟩)

/-- The rounds of `_log_mode`, on what the loads of the rounds leave behind: the lines of each
round. -/
def logMode : Option KnownNodes → List World → Except WhatsupExit (List (List LogLine))
  | _, [] => .ok []
  | known, w :: polls => do
    let (lines, known) ← logPoll known w
    let logs ← logMode (some known) polls
    return lines :: logs

/-! ### The loop over a new list -/

/-- Assumes: valid ranges of the new list and an iterator that stands in it, a canonical old list of
less than `2 ^ 31` names, and enough rounds. The loop picks the names ahead that the old list does
not have, and the old list denotes what it did. -/
theorem newNodes_ahead {new : Hostlist} (hvalid : ∀ hr ∈ new.ranges, hr.Valid) (rounds : ℕ) :
    ∀ (itr : HostlistIterator) (old : Hostlist), itr.Stands new → old.Canonical →
      old.hosts.length < 2147483648 →
      (itr.ahead new).length < rounds →
      ∃ old', newNodes new rounds itr old =
        some ((itr.ahead new).filter (· ∉ old.hosts), old') := by
  induction rounds with
  | zero => exact fun itr old _ _ _ hrounds ↦ absurd hrounds (Nat.not_lt_zero _)
  | succ rounds ih =>
    intro itr old hstands hcanonical hsmall hrounds
    rw [newNodes]
    rcases hostlistNext_spec (fun hr hmem ↦ (hvalid hr hmem).walkable) hstands with ⟨hahead,
      hnext⟩ | ⟨node, itr', hnext, hstands', hahead⟩
    · rw [← Prod.mk.eta (p := hostlistNext new itr), hnext, hahead]
      exact ⟨old, rfl⟩
    · obtain ⟨hfound, hhosts, hcanonical'⟩ := hostlistFind_spec hcanonical node
      rw [hahead, List.length_cons] at hrounds
      obtain ⟨old', hrest⟩ := ih itr' _ hstands' hcanonical' (hhosts.symm ▸ hsmall) (by omega)
      refine ⟨old', ?_⟩
      rw [hnext]
      simp only [hrest, Option.map_some, hahead, hhosts, hfound]
      by_cases hmem : node ∈ old.hosts
      · have hidx := List.idxOf_lt_length_iff.mpr hmem
        have hint : toInt (old.hosts.idxOf node : ℤ) = old.hosts.idxOf node :=
          toInt_eq_self (by omega) (by omega)
        rw [if_pos hmem, hint, if_neg (by omega), List.filter_cons_of_neg (by simpa using hmem)]
      · rw [if_neg hmem, if_pos (by decide), List.filter_cons_of_pos (by simpa using hmem)]

/-- A name whose numeric suffix, if it has one, has at most 14 characters. -/
def FitsName (name : List Char) : Prop :=
  ∀ suffix ∈ (hostnameCreate name).suffix, suffix.length ≤ 14

instance (name : List Char) : Decidable (FitsName name) :=
  decidable_of_iff ((hostnameCreate name).suffix.all fun suffix ↦ decide (suffix.length ≤ 14))
    (by simp [FitsName, Option.all_eq_true])

/-- Assumes: a canonical list of names whose suffixes have at most 14 characters. An iterator gives
its names. -/
theorem cutHosts_of_fitsName {hl : Hostlist} (hcanonical : hl.Canonical)
    (hfits : ∀ name ∈ hl.hosts, FitsName name) :
    hl.cutHosts = hl.hosts := by
  refine (cutHosts_eq_hosts_iff hcanonical).mpr fun hr hmem ↦ ?_
  have hr_canonical := hcanonical.ranges_canonical hr hmem
  rcases Bool.eq_false_or_eq_true hr.singlehost with hsingle | hsingle
  · rw [hr_canonical.single_width hsingle]
    exact Nat.zero_le 14
  · have hname : hr.pfx ++ padded hr.width hr.lo ∈ hl.hosts :=
      List.mem_flatMap.mpr ⟨hr, hmem, (HostRange.mem_hosts_iff hsingle).mpr
        ⟨hr.lo, le_rfl, hr_canonical.lo_le_hi, rfl⟩⟩
    have hshort := hfits _ hname (padded hr.width hr.lo) (by
      rw [hostnameCreate_numeral (hr_canonical.pfx_end hsingle) _
        (hr_canonical.lo_le_hi.trans hr_canonical.hi_le)]
      rfl)
    rw [length_padded] at hshort
    omega

/-- Assumes: canonical lists, the old one of less than `2 ^ 31` names. The loop picks the names that
the iterator gives and the old list does not have. -/
theorem logNew_eq {up : Bool} {new old : Hostlist} (hnew : new.Canonical) (hold : old.Canonical)
    (hsmall : old.hosts.length < 2147483648) :
    logNew up new old = .ok ((new.cutHosts.filter (· ∉ old.hosts)).map fun node ↦ ⟨node, up⟩) := by
  obtain ⟨hstands, hahead⟩ := hostlistIteratorCreate_spec new
  obtain ⟨old', hloop⟩ :=
    newNodes_ahead hnew.ranges_valid (new.hosts.length + 1) _ old hstands hold hsmall
    (by rw [hahead, new.length_cutHosts]; omega)
  unfold logNew
  rw [hloop, hahead]

/-! ### Lists that are read back -/

/-- Assumes: a filled list whose text is accepted and fits into the buffer of `whatsup`. It has less
than `2 ^ 31` names. -/
theorem length_hosts_lt {hl : Hostlist} (hfilled : hl.Filled) (haccepted : hl.Rereadable)
    (hfits : (rangedText hl.ranges).length < whatsupBufferlen) : hl.hosts.length < 2147483648 := by
  have hranges := length_le_rangedText fun hr hmem ↦ hfilled.printable.name_ne_nil hmem
  have hcounts : ∀ hr ∈ hl.ranges, hr.hosts.length ≤ maxRange := fun hr hmem ↦ by
    rw [← List.flatten_splitBy hostrangeWithinRange hl.ranges] at hmem
    obtain ⟨group, hgroup, hr_mem⟩ := List.mem_flatten.mp hmem
    rw [← (hfilled.canonical.ranges_valid hr (by
      rw [← List.flatten_splitBy hostrangeWithinRange hl.ranges]
      exact hmem)).hostrangeCount_eq]
    exact (haccepted group hgroup).2 hr hr_mem
  have hsum : hl.hosts.length ≤ hl.ranges.length * maxRange := by
    have hcard := List.sum_le_card_nsmul (hl.ranges.map fun hr ↦ hr.hosts.length) maxRange
      (List.forall_mem_map.mpr hcounts)
    rwa [List.length_map, smul_eq_mul, ← List.length_flatMap] at hcard
  unfold whatsupBufferlen at hfits
  unfold maxRange at hsum
  omega

/-- What is known of a list after a poll: it is canonical, and it denotes the names of the list that
was printed, less than `2 ^ 31`. -/
structure ReadBack (hl known : Hostlist) : Prop where
  canonical : known.Canonical
  hosts_eq : known.hosts = hl.hosts
  small : known.hosts.length < 2147483648

/-- Assumes: a filled list whose text fits into the buffer of `whatsup`. If the text is accepted,
the list is read back. -/
theorem readBack_of_accepted {hl known : Hostlist} (hfilled : hl.Filled)
    (hfits : (rangedText hl.ranges).length < whatsupBufferlen)
    (hcreate : createNodes (rangedText hl.ranges) = .ok known) : ReadBack hl known := by
  rw [createNodes_eq_ok] at hcreate
  obtain ⟨hhosts, hcanonical⟩ := hostlistCreate_rangedText hfilled.printable hcreate
  refine ⟨hcanonical hfilled.canonical, hhosts, hhosts ▸ length_hosts_lt hfilled ?_ hfits⟩
  exact (hostlistCreate_rangedText_iff hfilled.printable).mp ⟨known, hcreate⟩

/-! ### One poll -/

/-- What a load of log mode leaves behind: a loaded handle with disjoint lists of bracket-free names
of at most 64 characters. -/
structure Poll where
  world : World
  nodes : Bool → Hostlist
  loaded : world.Loaded
  nodes_eq : ∀ up, world.handle.nodes up = some (nodes up)
  filled : ∀ up, (nodes up).Filled
  nul_free : ∀ up, ∀ name ∈ (nodes up).hosts, '\x00' ∉ name
  disjoint : ∀ name ∈ (nodes true).hosts, name ∉ (nodes false).hosts

/-- The texts of a poll fit into the buffers of `whatsup`, and they are accepted. -/
def Poll.Accepted (poll : Poll) : Prop :=
  ∀ up, (rangedText (poll.nodes up).ranges).length < whatsupBufferlen ∧ (poll.nodes up).Rereadable

/-- The list of the poll before of the nodes that were up, or of those that were down. -/
def KnownNodes.nodes (known : KnownNodes) (up : Bool) : Hostlist :=
  if up then known.upnodes else known.downnodes

/-- The lists of the poll before are those of a poll, read back. -/
def KnownNodes.Stands (known : KnownNodes) (poll : Poll) : Prop :=
  ∀ up, ReadBack (poll.nodes up) (known.nodes up)

/-- Assumes: a world with the lists of a poll. The library gives the text of a list exactly if it
fits into the buffer, and keeps all but the error number. -/
theorem getAllNodes_ok {poll : Poll} {w w' : World} {up : Bool} {text : List Char}
    (hnodes : w.handle.nodes up = some (poll.nodes up))
    (h : getAllNodes up clearedBuffer w = .ok (text, w')) :
    w' = w.setErrnum .success ∧ cString text = rangedText (poll.nodes up).ranges ∧
      (rangedText (poll.nodes up).ranges).length < whatsupBufferlen := by
  unfold getAllNodes at h
  cases hstring : getNodesString up (some clearedBuffer) whatsupBufferlen w with
  | error fault =>
    rw [hstring] at h
    exact absurd h (by simp)
  | ok answer =>
    obtain ⟨found, w1⟩ := answer
    rw [hstring] at h
    cases found with
    | none => exact absurd h (by simp)
    | some buf =>
      obtain ⟨rfl, rfl⟩ : buf = text ∧ w1 = w' := by simpa using h
      obtain ⟨-, hworld, len, hprint, hlen⟩ := getNodesString_some hnodes hstring
      exact ⟨hworld, cString_printed (poll.filled up) (poll.nul_free up) hprint hlen,
        (hostlistRangedString_printed (fun hr hmem ↦ (poll.filled up).printable.name_ne_nil hmem)
          hprint hlen).2.1⟩

/-- Assumes: a world with the lists of a poll, whose text fits into the buffer. The library gives
it. -/
theorem exists_getAllNodes {poll : Poll} {w : World} {up : Bool} (hloaded : w.Loaded)
    (hnodes : w.handle.nodes up = some (poll.nodes up))
    (hfits : (rangedText (poll.nodes up).ranges).length < whatsupBufferlen) :
    ∃ text, getAllNodes up clearedBuffer w = .ok (text, w.setErrnum .success) := by
  have hnames : ∀ hr ∈ (poll.nodes up).ranges, hr.pfx ++ numberText hr ≠ [] := fun hr hmem ↦
    (poll.filled up).printable.name_ne_nil hmem
  obtain ⟨text, hprint⟩ := hostlistRangedString_fits (show whatsupBufferlen < 2147483648 by
    decide) hnames hfits
    (show whatsupBufferlen ≤ clearedBuffer.length from List.length_replicate.ge)
  refine ⟨text, ?_⟩
  unfold getAllNodes
  rw [getNodesString_eq hloaded hnodes (show (0 : ℤ) < whatsupBufferlen by
    decide) hprint (Int.natCast_nonneg _)]

/-- A round of `_log_mode` on what a poll leaves behind succeeds exactly if both texts fit, both are
accepted, and the lines can be written. -/
theorem logPoll_eq_ok {known : Option KnownNodes} {poll : Poll} {lines : List LogLine}
    {new : KnownNodes} :
    logPoll known poll.world = .ok (lines, new) ↔
      (∀ up, (rangedText (poll.nodes up).ranges).length < whatsupBufferlen ∧
        createNodes (rangedText (poll.nodes up).ranges) = .ok (new.nodes up)) ∧
      linesFor known new = .ok lines := by
  have hloaded : (poll.world.setErrnum .success).Loaded := poll.loaded
  have hdown : (poll.world.setErrnum .success).handle.nodes false = some (poll.nodes false) :=
    poll.nodes_eq false
  constructor
  · intro h
    obtain ⟨⟨upbuf, w1⟩, hupbuf, h⟩ := bind_eq_ok.mp h
    obtain ⟨rfl, huptext, hupfits⟩ := getAllNodes_ok (poll.nodes_eq true) hupbuf
    obtain ⟨⟨downbuf, w2⟩, hdownbuf, h⟩ := bind_eq_ok.mp h
    obtain ⟨-, hdowntext, hdownfits⟩ := getAllNodes_ok hdown hdownbuf
    obtain ⟨upnodes, hup, h⟩ := bind_eq_ok.mp h
    obtain ⟨downnodes, hdown, h⟩ := bind_eq_ok.mp h
    obtain ⟨lines', hlines, h⟩ := bind_eq_ok.mp h
    obtain ⟨rfl, rfl⟩ : lines' = lines ∧ ⟨upnodes, downnodes⟩ = new := by
      simpa using Except.ok.inj h
    rw [huptext] at hup
    rw [hdowntext] at hdown
    exact ⟨Bool.rec ⟨hdownfits, hdown⟩ ⟨hupfits, hup⟩, hlines⟩
  · rintro ⟨hlists, hlines⟩
    obtain ⟨hupfits, hup⟩ := hlists true
    obtain ⟨hdownfits, hdowncreate⟩ := hlists false
    obtain ⟨upbuf, hupbuf⟩ := exists_getAllNodes poll.loaded (poll.nodes_eq true) hupfits
    obtain ⟨downbuf, hdownbuf⟩ := exists_getAllNodes hloaded hdown hdownfits
    refine bind_eq_ok.mpr ⟨_, hupbuf, bind_eq_ok.mpr ⟨_, hdownbuf, ?_⟩⟩
    refine bind_eq_ok.mpr ⟨new.upnodes, ?_,
      bind_eq_ok.mpr ⟨new.downnodes, ?_, bind_eq_ok.mpr ⟨lines, hlines, rfl⟩⟩⟩
    · rw [(getAllNodes_ok (poll.nodes_eq true) hupbuf).2.1]
      exact hup
    · rw [(getAllNodes_ok hdown hdownbuf).2.1]
      exact hdowncreate

/-! ### Replaying the lines -/

/-- What is known of the nodes: up, down, or nothing. -/
abbrev NodeStates :=
  List Char → Option Bool

/-- The states after some lines: each sets the state of its node. -/
def replay (states : NodeStates) (lines : List LogLine) : NodeStates :=
  lines.foldl (fun states line ↦ Function.update states line.node (some line.up)) states

/-- The states that the lists of a poll give. -/
def Poll.states (poll : Poll) : NodeStates := fun node ↦
  if node ∈ (poll.nodes true).hosts then some true else if node ∈
    (poll.nodes false).hosts then some false else none

/-- Every node of the lists of a poll has the state that the poll gives it. -/
def Agrees (states : NodeStates) (poll : Poll) : Prop :=
  ∀ up, ∀ node ∈ (poll.nodes up).hosts, states node = some up

/-- What the lines of the rounds say: replayed from the first poll, they give every node of every
poll its state, and each names a node that the same list of the poll before does not have. -/
structure Replays (first : Poll) (polls : List Poll) (logs : List (List LogLine)) : Prop where
  length_eq : logs.length = (first :: polls).length
  agrees : ∀ k poll, (first :: polls)[k]? = some poll →
    Agrees (replay first.states (logs.take (k + 1)).flatten) poll
  fresh : ∀ k previous lines, (first :: polls)[k]? = some previous → logs[k + 1]? = some lines →
    ∀ line ∈ lines, line.node ∉ (previous.nodes line.up).hosts
  silent : logs.head? = some []

/-- Lines that do not name a node leave its state. -/
theorem replay_of_notMem {node : List Char} (lines : List LogLine) :
    ∀ states : NodeStates, (∀ line ∈ lines, line.node ≠ node) →
      replay states lines node = states node := by
  induction lines with
  | nil => exact fun states _ ↦ rfl
  | cons line lines ih =>
    intro states h
    obtain ⟨hline, hlines⟩ := List.forall_mem_cons.mp h
    exact (ih _ hlines).trans (Function.update_of_ne hline.symm _ _)

/-- Assumes: lines that name a node, and only with one state. It has that state behind them. -/
theorem replay_of_mem {node : List Char} {up : Bool} (lines : List LogLine) :
    ∀ states : NodeStates, (∀ line ∈ lines, line.node = node → line.up = up) →
      (∃ line ∈ lines, line.node = node) →
      replay states lines node = some up := by
  induction lines with
  | nil => exact fun states _ hmem ↦ absurd hmem (by simp)
  | cons line lines ih =>
    intro states hsame hmem
    obtain ⟨hline, hlines⟩ := List.forall_mem_cons.mp hsame
    by_cases hlater : ∃ other ∈ lines, other.node = node
    · exact ih _ hlines hlater
    · have hnow : line.node = node := by
        obtain ⟨other, hother, hnode⟩ := hmem
        rcases List.mem_cons.mp hother with rfl | hother
        · exact hnode
        · exact absurd ⟨other, hother, hnode⟩ hlater
      refine (replay_of_notMem lines _ fun other hother hnode ↦
        hlater ⟨other, hother, hnode⟩).trans ?_
      change Function.update states line.node (some line.up) node = some up
      rw [hnow, hline hnow, Function.update_self]

/-- The lines for the nodes of a list that the same list of the poll before does not have. -/
def Poll.newLines (poll previous : Poll) (up : Bool) : List LogLine :=
  ((poll.nodes up).hosts.filter (· ∉ (previous.nodes up).hosts)).map fun node ↦ ⟨node, up⟩

/-- A line for a new node of a poll. -/
theorem Poll.mem_newLines {poll previous : Poll} {up : Bool} {line : LogLine} :
    line ∈ poll.newLines previous up ↔
      line.up = up ∧ line.node ∈ (poll.nodes up).hosts ∧ line.node ∉ (previous.nodes up).hosts := by
  unfold Poll.newLines
  simp only [List.mem_map, List.mem_filter, decide_eq_true_eq]
  constructor
  · rintro ⟨node, ⟨hnode, hnew⟩, rfl⟩
    exact ⟨rfl, hnode, hnew⟩
  · rintro ⟨rfl, hnode, hnew⟩
    exact ⟨line.node, ⟨hnode, hnew⟩, rfl⟩

/-- A node is in one list of a poll only. -/
theorem Poll.up_eq {poll : Poll} {up up' : Bool} {node : List Char}
    (h : node ∈ (poll.nodes up).hosts)
    (h' : node ∈ (poll.nodes up').hosts) : up = up' := by
  cases up <;> cases up'
  · rfl
  · exact absurd h (poll.disjoint node h')
  · exact absurd h' (poll.disjoint node h)
  · rfl

/-- Assumes: states that agree with a poll. Behind the lines for the new nodes of the next poll they
agree with that. -/
theorem replay_newLines {states : NodeStates} {previous : Poll} (h : Agrees states previous)
    (poll : Poll) :
    Agrees (replay states (poll.newLines previous true ++ poll.newLines previous false)) poll := by
  intro up node hnode
  have hsame : ∀ line ∈ poll.newLines previous true ++ poll.newLines previous false, line.node =
      node → line.up = up := by
    intro line hline heq
    obtain ⟨up', hline⟩ : ∃ up', line ∈ poll.newLines previous up' :=
      (List.mem_append.mp hline).elim (fun h ↦ ⟨true, h⟩) fun h ↦ ⟨false, h⟩
    obtain ⟨rfl, hmem, -⟩ := Poll.mem_newLines.mp hline
    exact Poll.up_eq (heq ▸ hmem) hnode
  by_cases hknown : node ∈ (previous.nodes up).hosts
  · by_cases hnamed : ∃ line ∈ poll.newLines previous true ++ poll.newLines previous false,
      line.node = node
    · exact replay_of_mem _ states hsame hnamed
    · rw [replay_of_notMem _ states fun line hline heq ↦ hnamed ⟨line, hline, heq⟩]
      exact h up node hknown
  · refine replay_of_mem _ states hsame ⟨⟨node, up⟩, ?_, rfl⟩
    have hline : (⟨node, up⟩ : LogLine) ∈ poll.newLines previous up :=
      Poll.mem_newLines.mpr ⟨rfl, hnode, hknown⟩
    cases up
    · exact List.mem_append_right _ hline
    · exact List.mem_append_left _ hline

/-! ### Runs -/

/-- No node of a poll has a numeric suffix of more than 14 characters. -/
def Poll.FitsNames (poll : Poll) : Prop :=
  ∀ up, ∀ name ∈ (poll.nodes up).hosts, FitsName name

/-- Assumes: lists of the poll before, and a poll without long suffixes that is read back. The lines
are those for its new nodes. -/
theorem linesFor_eq {known new : KnownNodes} {previous poll : Poll} (hknown : known.Stands previous)
    (hnew : new.Stands poll) (hfits : poll.FitsNames) :
    linesFor (some known) new =
      .ok (poll.newLines previous true ++ poll.newLines previous false) := by
  have hlist : ∀ up, logNew up (new.nodes up) (known.nodes up) = .ok (poll.newLines previous up) :=
      fun up ↦ by
    rw [logNew_eq (hnew up).canonical (hknown up).canonical (hknown up).small,
      cutHosts_of_fitsName (hnew up).canonical ((hnew up).hosts_eq ▸ hfits up), (hnew up).hosts_eq,
        (hknown up).hosts_eq]
    rfl
  unfold linesFor
  exact bind_eq_ok.mpr ⟨_, hlist true, bind_eq_ok.mpr ⟨_, hlist false, rfl⟩⟩

/-- A round that succeeds reads its poll back. -/
theorem stands_of_logPoll {known : Option KnownNodes} {poll : Poll} {lines : List LogLine}
    {new : KnownNodes}
    (h : logPoll known poll.world = .ok (lines, new)) : new.Stands poll := fun up ↦
  readBack_of_accepted (poll.filled up) ((logPoll_eq_ok.mp h).1 up).1 ((logPoll_eq_ok.mp h).1 up).2

/-- Assumes: lists of a poll before, if there was one. A round succeeds exactly if the texts of its
poll fit and are accepted. -/
theorem exists_logPoll_iff {known : Option KnownNodes} {poll : Poll}
    (hknown : ∀ lists ∈ known, ∃ previous, KnownNodes.Stands lists previous) :
    (∃ lines new, logPoll known poll.world = .ok (lines, new)) ↔ poll.Accepted := by
  have hcreated : ∀ up, (∃ hl, createNodes (rangedText (poll.nodes up).ranges) = .ok hl) ↔
      (poll.nodes up).Rereadable :=
    fun up ↦ by
      rw [← hostlistCreate_rangedText_iff (poll.filled up).printable]
      exact exists_congr fun hl ↦ createNodes_eq_ok
  constructor
  · rintro ⟨lines, new, h⟩ up
    obtain ⟨hfits, hcreate⟩ := (logPoll_eq_ok.mp h).1 up
    exact ⟨hfits, (hcreated up).mp ⟨_, hcreate⟩⟩
  · intro haccepted
    obtain ⟨upnodes, hup⟩ := (hcreated true).mpr (haccepted true).2
    obtain ⟨downnodes, hdown⟩ := (hcreated false).mpr (haccepted false).2
    have hlists : ∀ up, (rangedText (poll.nodes up).ranges).length < whatsupBufferlen ∧
        createNodes (rangedText (poll.nodes up).ranges) =
            .ok (KnownNodes.nodes ⟨upnodes, downnodes⟩ up) :=
      Bool.rec ⟨(haccepted false).1, hdown⟩ ⟨(haccepted true).1, hup⟩
    obtain ⟨lines, hlines⟩ : ∃ lines, linesFor known ⟨upnodes, downnodes⟩ = .ok lines := by
      cases known with
      | none => exact ⟨[], rfl⟩
      | some lists =>
        obtain ⟨previous, hlists_stand⟩ := hknown lists rfl
        have hlist : ∀ up, ∃ lines, logNew up (KnownNodes.nodes ⟨upnodes, downnodes⟩ up)
            (lists.nodes up) = .ok lines :=
          fun up ↦ ⟨_,
            logNew_eq (readBack_of_accepted (poll.filled up) (hlists up).1 (hlists up).2).canonical
            (hlists_stand up).canonical (hlists_stand up).small⟩
        obtain ⟨upLines, hupLines⟩ := hlist true
        obtain ⟨downLines, hdownLines⟩ := hlist false
        exact ⟨upLines ++ downLines,
          bind_eq_ok.mpr ⟨_, hupLines, bind_eq_ok.mpr ⟨_, hdownLines, rfl⟩⟩⟩
    exact ⟨lines, ⟨upnodes, downnodes⟩, logPoll_eq_ok.mpr ⟨hlists, hlines⟩⟩

/-- Assumes: lists of a poll before, if there was one. The rounds succeed exactly if the texts of
all polls fit and are accepted. -/
theorem exists_logMode_iff (polls : List Poll) :
    ∀ known : Option KnownNodes, (∀ lists ∈ known, ∃ previous, KnownNodes.Stands lists previous) →
      ((∃ logs, logMode known (polls.map Poll.world) = .ok logs) ↔
        ∀ poll ∈ polls, poll.Accepted) := by
  induction polls with
  | nil => exact fun known _ ↦ iff_of_true ⟨[], rfl⟩ fun poll hmem ↦ absurd hmem List.not_mem_nil
  | cons poll polls ih =>
    intro known hknown
    have hnext : ∀ {lines : List LogLine} {new : KnownNodes}, logPoll known poll.world =
      .ok (lines, new) →
        ∀ lists ∈ some new, ∃ previous, KnownNodes.Stands lists previous := fun h lists hlists ↦ by
      obtain rfl := Option.some.inj hlists
      exact ⟨poll, stands_of_logPoll h⟩
    rw [List.forall_mem_cons, ← exists_logPoll_iff hknown]
    constructor
    · rintro ⟨logs, h⟩
      obtain ⟨⟨lines, new⟩, hround, h⟩ := bind_eq_ok.mp h
      obtain ⟨later, hlater, -⟩ := bind_eq_ok.mp h
      exact ⟨⟨lines, new, hround⟩, (ih (some new) (hnext hround)).mp ⟨later, hlater⟩⟩
    · rintro ⟨⟨lines, new, hround⟩, haccepted⟩
      obtain ⟨later, hlater⟩ := (ih (some new) (hnext hround)).mpr haccepted
      exact ⟨lines :: later, bind_eq_ok.mpr ⟨_, hround, bind_eq_ok.mpr ⟨later, hlater, rfl⟩⟩⟩

/-- Replaying lines and then more lines. -/
theorem replay_append (states : NodeStates) (lines more : List LogLine) :
    replay states (lines ++ more) = replay (replay states lines) more :=
  List.foldl_append

/-- Assumes: lists of a poll before and states that agree with it, and polls without long suffixes.
If the rounds succeed, their lines replayed on these states agree with each poll in turn, and each
line names a node that is new in its list. -/
theorem logMode_follows (polls : List Poll) :
    ∀ (known : KnownNodes) (previous : Poll) (states : NodeStates) (logs : List (List LogLine)),
      known.Stands previous → Agrees states previous → (∀ poll ∈ polls, poll.FitsNames) →
      logMode (some known) (polls.map Poll.world) = .ok logs →
      logs.length = polls.length ∧
        (∀ k poll, polls[k]? = some poll →
          Agrees (replay states (logs.take (k + 1)).flatten) poll) ∧
        ∀ (k : ℕ) (before : Poll) (lines : List LogLine), (previous :: polls)[k]? = some before →
          logs[k]? = some lines → ∀ line ∈ lines, line.node ∉ (before.nodes line.up).hosts := by
  induction polls with
  | nil =>
    intro known previous states logs _ _ _ h
    obtain rfl := Except.ok.inj h
    exact ⟨rfl, fun k poll hk ↦ absurd hk (by simp), fun k before lines _ hk ↦ absurd hk (by simp)⟩
  | cons poll polls ih =>
    intro known previous states logs hknown hstates hfits h
    obtain ⟨hpoll, hpolls⟩ := List.forall_mem_cons.mp hfits
    obtain ⟨⟨lines, new⟩, hround, h⟩ := bind_eq_ok.mp h
    obtain ⟨later, hlater, h⟩ := bind_eq_ok.mp h
    obtain rfl := Except.ok.inj h
    have hnew := stands_of_logPoll hround
    obtain rfl : poll.newLines previous true ++ poll.newLines previous false = lines :=
      Except.ok.inj ((linesFor_eq hknown hnew hpoll).symm.trans (logPoll_eq_ok.mp hround).2)
    have hagrees := replay_newLines hstates poll
    obtain ⟨hlength, hreplay, hfresh⟩ := ih new poll _ later hnew hagrees hpolls hlater
    refine ⟨congrArg (· + 1) hlength, fun k other hk ↦ ?_, fun k before lines hbefore hk ↦ ?_⟩
    · cases k with
      | zero =>
        obtain rfl := Option.some.inj hk
        simpa using hagrees
      | succ k =>
        rw [List.take_succ_cons, List.flatten_cons, replay_append]
        exact hreplay k other hk
    · cases k with
      | zero =>
        obtain rfl := Option.some.inj hbefore
        obtain rfl := Option.some.inj hk
        intro line hline
        obtain ⟨up', hline⟩ : ∃ up', line ∈ poll.newLines previous up' :=
          (List.mem_append.mp hline).elim (fun h ↦ ⟨true, h⟩) fun h ↦ ⟨false, h⟩
        obtain ⟨rfl, -, hnew⟩ := Poll.mem_newLines.mp hline
        exact hnew
      | succ k => exact hfresh k before lines hbefore hk

/-- The states that a poll gives agree with it. -/
theorem agrees_states (poll : Poll) : Agrees poll.states poll := by
  intro up node hnode
  unfold Poll.states
  cases up with
  | true => rw [if_pos hnode]
  | false => rw [if_neg fun h ↦ poll.disjoint node h hnode, if_pos hnode]

/-- Assumes: a run of log mode in which every poll loads disjoint lists of bracket-free names of at
most 64 characters, none with a numeric suffix of more than 14. The rounds go through exactly if the
texts of all polls fit and are accepted, and then the lines replay the states of all polls. -/
theorem logMode_replays {first : Poll} {polls : List Poll}
    (hfits : ∀ poll ∈ first :: polls, poll.FitsNames) :
    ((∃ logs, logMode none ((first :: polls).map Poll.world) = .ok logs) ↔ ∀ poll ∈ first :: polls,
      poll.Accepted) ∧
      ∀ logs, logMode none ((first :: polls).map Poll.world) = .ok logs →
        Replays first polls logs := by
  refine ⟨exists_logMode_iff (first :: polls) none fun lists hlists ↦ absurd hlists (by simp),
    fun logs h ↦ ?_⟩
  obtain ⟨⟨lines, new⟩, hround, h⟩ := bind_eq_ok.mp h
  obtain ⟨later, hlater, h⟩ := bind_eq_ok.mp h
  obtain rfl := Except.ok.inj h
  obtain rfl : [] = lines := Except.ok.inj (logPoll_eq_ok.mp hround).2
  obtain ⟨hlength, hreplay, hfresh⟩ :=
    logMode_follows polls new first first.states later (stands_of_logPoll hround)
    (agrees_states first) (List.forall_mem_cons.mp hfits).2 hlater
  refine ⟨congrArg (· + 1) hlength, fun k poll hk ↦ ?_, hfresh, rfl⟩
  cases k with
  | zero =>
    obtain rfl := Option.some.inj hk
    exact agrees_states first
  | succ k =>
    rw [List.take_succ_cons, List.flatten_cons, List.nil_append]
    exact hreplay k poll hk

/-- The poll of two filled lists of disjoint names. -/
def pollOf (up down : Hostlist) (hup : up.Filled) (hdown : down.Filled)
    (hnul : ∀ name ∈ up.hosts ++ down.hosts, '\x00' ∉ name)
    (hdisjoint : ∀ name ∈ up.hosts, name ∉ down.hosts) : Poll where
  world := ⟨.unused,
    { newHandle with loadState := .loaded, upNodes := some up, downNodes := some down }, []⟩
  nodes side := if side then up else down
  loaded := ⟨rfl, rfl⟩
  nodes_eq side := by cases side <;> rfl
  filled side := by cases side <;> assumption
  nul_free side := by
    cases side
    · exact fun name hname ↦ hnul name (List.mem_append_right _ hname)
    · exact fun name hname ↦ hnul name (List.mem_append_left _ hname)
  disjoint := hdisjoint

/-- A poll with five nodes up, and one with them down. -/
def shortPolls : Poll × Poll :=
  (pollOf shortSuffixes hostlistNew filled_shortSuffixes .new (by decide) (by decide),
    pollOf hostlistNew shortSuffixes .new filled_shortSuffixes (by decide) (by decide))

/-- The five nodes go down. -/
theorem logMode_replays_short :
    ((∃ logs, logMode none ([shortPolls.1, shortPolls.2].map Poll.world) = .ok logs) ↔
        ∀ poll ∈ [shortPolls.1, shortPolls.2], poll.Accepted) ∧
      ∀ logs, logMode none ([shortPolls.1, shortPolls.2].map Poll.world) = .ok logs →
        Replays shortPolls.1 [shortPolls.2] logs :=
  logMode_replays (List.forall_mem_cons.mpr ⟨fun up ↦ by
      cases up <;> decide, List.forall_mem_singleton.mpr fun up ↦ by
    cases up <;> decide⟩)

/-- A poll with `n000000000000001` down, and one with `n000000000000001` up. -/
def longPolls : Poll × Poll :=
  (pollOf hostlistNew longSuffix .new filled_longSuffix (by decide) (by decide),
    pollOf longSuffix hostlistNew filled_longSuffix .new (by decide) (by decide))

/-- The lines do not always replay the states: when `n000000000000001` comes up, the line says that
`n00000000000000` does. -/
theorem logMode_cuts :
    ¬∀ (first : Poll) (polls : List Poll) (logs : List (List LogLine)),
      logMode none ((first :: polls).map Poll.world) = .ok logs → Replays first polls logs := by
  intro h
  have hfirst : logPoll none longPolls.1.world = .ok ([], ⟨hostlistNew, longSuffix⟩) :=
    logPoll_eq_ok.mpr ⟨Bool.rec ⟨by decide, rfl⟩ ⟨by decide, rfl⟩, rfl⟩
  have hsecond : logPoll (some ⟨hostlistNew, longSuffix⟩) longPolls.2.world =
      .ok ([⟨"n00000000000000".toList, true⟩], ⟨longSuffix, hostlistNew⟩) :=
    logPoll_eq_ok.mpr ⟨Bool.rec ⟨by decide, rfl⟩ ⟨by decide, rfl⟩, rfl⟩
  have hrun : logMode none ([longPolls.1, longPolls.2].map Poll.world) =
      .ok [[], [⟨"n00000000000000".toList, true⟩]] :=
    bind_eq_ok.mpr ⟨_, hfirst, bind_eq_ok.mpr ⟨[[⟨"n00000000000000".toList, true⟩]],
      bind_eq_ok.mpr ⟨_, hsecond, rfl⟩, rfl⟩⟩
  have hstate := (h longPolls.1 [longPolls.2] _ hrun).agrees 1 longPolls.2 rfl true
    "n000000000000001".toList (by decide)
  exact absurd hstate (by decide)

end Whatsup
