import Whatsup.Common.Fd
import Whatsup.Pingd.Nodes

/-!
# The loop of pingd

A round of `pingd_loop` sends pings to all hosts if it is time to, waits in `poll`, takes in a
datagram if one is there, and answers a client if one is there. What the system gives pingd in a
round is a `LoopInput`; each part of it that stands for a system call is `none` where the call
fails, and pingd exits then.

The checksum and the layout of a ping are left out: a ping is the address it goes to and its
sequence number. `lastHeard` says what the loop is for, in terms of the inputs alone: the second at
which a datagram from an address last came in. `pingdRun_tracks` says that in every run that does
not exit the table holds, under every host, the second at which its address was last heard.
-/

set_option autoImplicit false
set_option relaxedAutoImplicit false

namespace Whatsup

open CLib

/-! ### System calls -/

/-- What a `poll` that does not fail gives: its value, and `POLLIN` on the two sockets. -/
structure PollResult where
  num : ℕ
  pingIn : Bool
  serverIn : Bool
deriving DecidableEq

/-- What the system gives pingd in one round. -/
structure LoopInput where
  /-- The monotonic clock at the start of the round. -/
  now : Option Timeval
  /-- The position of the first host to which `sendto` fails. -/
  sendtoFails : Option ℕ
  /-- The monotonic clock behind the sweep. -/
  swept : Option Timeval
  poll : Option PollResult
  /-- The address from which the datagram comes. -/
  recvfrom : Option InAddr
  /-- The clock of the wall when the datagram is taken in. -/
  gettimeofday : Option Timeval
  accept : Bool
  /-- What the successive `write` to the client give. -/
  writes : List WriteEvent

/-- The state of the loop. -/
structure PingdState where
  table : PingdNodes
  pingdNextSend : Timeval

/-- A ping: the address it is sent to, and its sequence number. -/
structure Ping where
  destaddr : InAddr
  sequenceNumber : ℕ
deriving DecidableEq

/-- What pingd sends to a client, and whether that is all of the answer. -/
structure Response where
  text : List Char
  complete : Bool
deriving DecidableEq

/-- What a round does to the world. -/
structure RoundOutput where
  pings : Option (List Ping)
  pollTimeout : ℕ
  response : Option Response
deriving DecidableEq

/-! ### The parts of a round -/

/-- `_icmp_ping_build`. -/
def icmpPingBuild (info : PingdInfo) : Ping × PingdInfo :=
  (⟨info.destaddr, info.sequenceNumber⟩,
    { info with sequenceNumber := (info.sequenceNumber + 1) % 65536 })

/-- `_pingd_send_pings`. -/
def pingdSendPings (nodes : List PingdInfo) (sendtoFails : Option ℕ) :
    Except PingdExit (List Ping × List PingdInfo) :=
  if sendtoFails.any (· < nodes.length) then .error .sendto
  else .ok (nodes.map fun info ↦ (icmpPingBuild info).1, nodes.map fun info ↦
    (icmpPingBuild info).2)

/-- `_receive_ping`. -/
def receivePing (table : PingdNodes) (input : LoopInput) : Except PingdExit PingdNodes :=
  match input.recvfrom with
  | none => .error .recvfrom
  | some addr =>
    match hashFind hashKeyString table.nodesIndex (inetNtoa addr) with
    | none => .ok table
    | some i =>
      match input.gettimeofday with
      | none => .error .gettimeofday
      | some tv =>
        .ok { table with nodes := table.nodes.modify i fun info ↦ { info with lastReceived := tv } }

/-- A line of the answer to a client: a host name and a second. -/
def pingLine (hostname : List Char) (second : ℕ) : List Char :=
  hostname ++ ' ' :: (padded 0 second ++ ['\n'])

/-- The line of an entry. -/
def PingdInfo.line (info : PingdInfo) : List Char :=
  pingLine info.hostname (toUlong info.lastReceived.tvSec)

/-- The loop of `_send_ping_data`. -/
def sendPingDataLoop : List PingdInfo → List WriteEvent → Except PingdExit Response
  | [], _ => .ok { text := [], complete := true }
  | info :: nodes, writes =>
    if 1024 ≤ info.line.length then .error .lineTooLong
    else
      let written := fdWriteN info.line writes
      match written.result with
      | .error true => .ok { text := written.sent, complete := false }
      | .error false => .error .fdWriteN
      | .ok writes => do
        let response ← sendPingDataLoop nodes writes
        pure { response with text := written.sent ++ response.text }

/-- `_send_ping_data`. -/
def sendPingData (nodes : List PingdInfo) (input : LoopInput) : Except PingdExit Response :=
  if input.accept then sendPingDataLoop nodes input.writes else .error .accept

/-- The first part of a round: the sweep of pings, if it is time for one. The clock that the rest of
the round goes by is the last one read. -/
def pingdSweep (pingPeriod : ℕ) (st : PingdState) (input : LoopInput) :
    Except PingdExit (PingdState × Timeval × Option (List Ping)) :=
  match input.now with
  | none => .error .clockGettime
  | some now =>
    if timevalGt now st.pingdNextSend then do
      let (pings, nodes) ← pingdSendPings st.table.nodes input.sendtoFails
      match input.swept with
      | none => .error .clockGettime
      | some now =>
        pure (⟨{ st.table with nodes := nodes }, timevalAddMs now pingPeriod⟩, now, some pings)
    else pure (st, now, none)

/-- A datagram, if one is there. -/
def servePing (table : PingdNodes) (input : LoopInput) (poll : PollResult) :
    Except PingdExit PingdNodes :=
  if poll.pingIn then receivePing table input else .ok table

/-- A client, if one is there. -/
def serveClient (nodes : List PingdInfo) (input : LoopInput) (poll : PollResult) :
    Except PingdExit (Option Response) :=
  if poll.serverIn then (sendPingData nodes input).map some else .ok none

/-- The last part of a round: a datagram and a client, if they are there. -/
def pingdServe (table : PingdNodes) (input : LoopInput) (poll : PollResult) :
    Except PingdExit (PingdNodes × Option Response) :=
  if poll.num = 0 then .ok (table, none)
  else do
    let table ← servePing table input poll
    let response ← serveClient table.nodes input poll
    pure (table, response)

/-- One round of `pingd_loop`. -/
def pingdRound (pingPeriod : ℕ) (st : PingdState) (input : LoopInput) :
    Except PingdExit (PingdState × RoundOutput) := do
  let (st, now, pings) ← pingdSweep pingPeriod st input
  let timeout := timevalMillisecondCalc (timevalSub st.pingdNextSend now)
  match input.poll with
  | none => .error .poll
  | some poll =>
    let (table, response) ← pingdServe st.table input poll
    pure ({ st with table := table },
      { pings := pings, pollTimeout := timeout, response := response })

/-- A run of `pingd_loop`, for a sequence of inputs: the state behind it and the outputs of the
rounds. -/
def pingdRun (pingPeriod : ℕ) (st : PingdState) (inputs : List LoopInput) :
    Except PingdExit (PingdState × List RoundOutput) :=
  inputs.foldlM (fun (st, outputs) input ↦ do
    let (st, output) ← pingdRound pingPeriod st input
    pure (st, outputs ++ [output])) (st, [])

/-! ### What was heard -/

/-- The datagram that is there: the address it comes from, and the clock of the wall when it is
taken in. -/
def LoopInput.datagram (input : LoopInput) : Option (InAddr × Timeval) :=
  match input.recvfrom, input.gettimeofday with
  | some addr, some tv => some (addr, tv)
  | _, _ => none

/-- The datagram that a round takes in, for what `poll` gives. -/
def LoopInput.heard (input : LoopInput) (poll : PollResult) : Option (InAddr × Timeval) :=
  if poll.num ≠ 0 ∧ poll.pingIn = true then input.datagram else none

/-- The seconds at which addresses were last heard, with one more datagram. -/
def hear (seconds : InAddr → ℤ) : Option (InAddr × Timeval) → InAddr → ℤ
  | none => seconds
  | some (sender, tv) => Function.update seconds sender tv.tvSec

/-- The second at which a datagram from an address last came in, zero if none has. -/
def lastHeard (inputs : List LoopInput) : InAddr → ℤ :=
  inputs.foldl (fun seconds input ↦ hear seconds (input.poll.bind input.heard)) fun _ ↦ 0

/-- One more round: its datagram is the last one from its address. -/
theorem lastHeard_append (inputs : List LoopInput) (input : LoopInput) :
    lastHeard (inputs ++ [input]) = hear (lastHeard inputs) (input.poll.bind input.heard) := by
  unfold lastHeard
  rw [List.foldl_append]
  rfl

/-! ### The table tracks what was heard -/

/-- What a client is told of an entry, and its address. -/
def PingdInfo.record (info : PingdInfo) : List Char × InAddr × ℤ :=
  (info.hostname, info.destaddr, info.lastReceived.tvSec)

/-- The invariant of the loop: the table holds the hosts in their order, each with the second at
which its address was last heard. -/
structure PingdNodes.Tracks (hosts : List (List Char × InAddr)) (seconds : InAddr → ℤ)
    (table : PingdNodes) : Prop where
  indexed : table.Indexed
  records : table.nodes.map PingdInfo.record = hosts.map fun host ↦ (host.1, host.2, seconds host.2)

/-- The addresses of the entries are those of the hosts. -/
theorem PingdNodes.Tracks.map_destaddr {table : PingdNodes} {hosts : List (List Char × InAddr)}
    {seconds : InAddr → ℤ} (h : table.Tracks hosts seconds) :
    table.nodes.map PingdInfo.destaddr = hosts.map Prod.snd := by
  have haddrs := congrArg (List.map fun record ↦ record.2.1) h.records
  rwa [List.map_map, List.map_map] at haddrs

/-- The index stays right if no entry changes its address. -/
theorem PingdNodes.Indexed.congr {table : PingdNodes} (h : table.Indexed) {nodes : List PingdInfo}
    (hnodes : nodes.map PingdInfo.destaddr = table.nodes.map PingdInfo.destaddr) :
    PingdNodes.Indexed { table with nodes := nodes } where
  buckets := h.buckets
  found addr i := by
    rw [h.found, ← List.getElem?_map, ← List.getElem?_map, hnodes]

/-- Records tell addresses. -/
theorem map_destaddr_of_records {nodes nodes' : List PingdInfo}
    (h : nodes.map PingdInfo.record = nodes'.map PingdInfo.record) :
    nodes.map PingdInfo.destaddr = nodes'.map PingdInfo.destaddr := by
  have haddrs := congrArg (List.map fun record ↦ record.2.1) h
  rwa [List.map_map, List.map_map] at haddrs

/-- Assumes: a sweep that succeeds. It keeps the invariant. -/
theorem pingdSweep_tracks {pingPeriod : ℕ} {st st' : PingdState} {input : LoopInput} {now : Timeval}
    {pings : Option (List Ping)} {hosts : List (List Char × InAddr)} {seconds : InAddr → ℤ}
    (h : st.table.Tracks hosts seconds)
    (hsweep : pingdSweep pingPeriod st input = .ok (st', now, pings)) :
    st'.table.Tracks hosts seconds := by
  unfold pingdSweep at hsweep
  cases hnow : input.now with
  | none => simp [hnow] at hsweep
  | some start =>
    simp only [hnow] at hsweep
    split_ifs at hsweep
    · obtain ⟨⟨sent, nodes⟩, hsend, hsweep⟩ := bind_eq_ok.mp hsweep
      have hnodes : nodes = st.table.nodes.map fun info ↦ (icmpPingBuild info).2 := by
        unfold pingdSendPings at hsend
        split_ifs at hsend
        exact (Prod.mk.inj (Except.ok.inj hsend)).2.symm
      cases hswept : input.swept with
      | none => simp [hswept] at hsweep
      | some swept =>
        simp only [hswept] at hsweep
        obtain ⟨rfl, -⟩ := Prod.mk.inj (Except.ok.inj hsweep)
        have hrecords : nodes.map PingdInfo.record = st.table.nodes.map PingdInfo.record := by
          rw [hnodes, List.map_map]
          rfl
        exact ⟨h.indexed.congr (map_destaddr_of_records hrecords), hrecords.trans h.records⟩
    · obtain ⟨rfl, -⟩ := Prod.mk.inj (Except.ok.inj hsweep)
      exact h

/-- Assumes: hosts with pairwise distinct addresses, and a datagram that is taken in. The table
tracks the datagram, too. -/
theorem receivePing_tracks {table table' : PingdNodes} {input : LoopInput}
    {hosts : List (List Char × InAddr)} {seconds : InAddr → ℤ} (hhosts : (hosts.map Prod.snd).Nodup)
    (h : table.Tracks hosts seconds) (hreceive : receivePing table input = .ok table') :
    table'.Tracks hosts (hear seconds input.datagram) := by
  have hdest := h.map_destaddr
  unfold receivePing at hreceive
  cases hsender : input.recvfrom with
  | none => simp [hsender] at hreceive
  | some sender =>
    simp only [hsender] at hreceive
    cases hfind : hashFind hashKeyString table.nodesIndex (inetNtoa sender) with
    | none =>
      simp only [hfind] at hreceive
      obtain rfl := Except.ok.inj hreceive
      have hforeign := h.indexed.hashFind_eq_none_iff.mp hfind
      rw [hdest] at hforeign
      refine ⟨h.indexed, h.records.trans (List.map_congr_left fun host hhost ↦ ?_)⟩
      -- a datagram from an address outside the table changes no second of a host
      have hne : host.2 ≠ sender := fun heq ↦ hforeign (heq ▸ List.mem_map_of_mem hhost)
      cases hclock : input.gettimeofday with
      | none => simp [LoopInput.datagram, hsender, hclock, hear]
      | some tv => simp [LoopInput.datagram, hsender, hclock, hear, Function.update_of_ne hne]
    | some i =>
      simp only [hfind] at hreceive
      cases hclock : input.gettimeofday with
      | none => simp [hclock] at hreceive
      | some tv =>
        simp only [hclock] at hreceive
        obtain rfl := Except.ok.inj hreceive
        have hentry := (h.indexed.found sender i).mp hfind
        have hmodify := modify_eq_map_of_nodup (hdest ▸ hhosts) hentry fun info ↦
          { info with lastReceived := tv }
        have hrecords : (table.nodes.modify i fun info ↦ { info with lastReceived := tv }).map
            PingdInfo.record =
            (table.nodes.map PingdInfo.record).map fun record ↦
              if record.2.1 = sender then (record.1, record.2.1, tv.tvSec) else record := by
          rw [hmodify, List.map_map, List.map_map]
          refine List.map_congr_left fun info _ ↦ ?_
          by_cases hinfo : info.destaddr = sender <;> simp [hinfo, PingdInfo.record]
        rw [h.records, List.map_map] at hrecords
        refine ⟨h.indexed.congr ?_, hrecords.trans (List.map_congr_left fun host _ ↦ ?_)⟩
        · rw [hmodify, List.map_map]
          refine List.map_congr_left fun info _ ↦ ?_
          by_cases hinfo : info.destaddr = sender <;> simp [hinfo]
        · by_cases hhost : host.2 = sender <;>
            simp [LoopInput.datagram, hsender, hclock, hear, hhost]

/-- Assumes: hosts with pairwise distinct addresses, and the last part of a round, which succeeds.
The table tracks the datagram that is taken in, and a response is sent from that table. -/
theorem pingdServe_tracks {table table' : PingdNodes} {input : LoopInput} {poll : PollResult}
    {response : Option Response} {hosts : List (List Char × InAddr)} {seconds : InAddr → ℤ}
    (hhosts : (hosts.map Prod.snd).Nodup) (h : table.Tracks hosts seconds)
    (hserve : pingdServe table input poll = .ok (table', response)) :
    table'.Tracks hosts (hear seconds (input.heard poll)) ∧
      ∀ sent, response = some sent → sendPingData table'.nodes input = .ok sent := by
  unfold pingdServe at hserve
  unfold LoopInput.heard
  split_ifs at hserve with hnum
  · obtain ⟨rfl, rfl⟩ := Prod.mk.inj (Except.ok.inj hserve)
    rw [if_neg fun hheard ↦ hheard.1 hnum]
    exact ⟨h, fun sent hsent ↦ absurd hsent (by simp)⟩
  · obtain ⟨middle, hreceive, hserve⟩ := bind_eq_ok.mp hserve
    obtain ⟨answer, hanswer, hserve⟩ := bind_eq_ok.mp hserve
    obtain ⟨rfl, rfl⟩ := Prod.mk.inj (Except.ok.inj hserve)
    constructor
    · unfold servePing at hreceive
      split_ifs at hreceive with hin
      · rw [if_pos ⟨hnum, hin⟩]
        exact receivePing_tracks hhosts h hreceive
      · obtain rfl := Except.ok.inj hreceive
        rw [if_neg fun hheard ↦ hin hheard.2]
        exact h
    · rintro sent rfl
      unfold serveClient at hanswer
      split_ifs at hanswer
      · cases hsend : sendPingData middle.nodes input with
        | error fault => simp [hsend, Except.map] at hanswer
        | ok value => simpa [hsend, Except.map] using hanswer
      · exact absurd (Except.ok.inj hanswer) (by simp)

/-- Assumes: hosts with pairwise distinct addresses, and a round that succeeds. The table tracks the
datagram of the round, and a response is sent from that table. -/
theorem pingdRound_tracks {pingPeriod : ℕ} {st st' : PingdState} {input : LoopInput}
    {output : RoundOutput}
    {hosts : List (List Char × InAddr)} {seconds : InAddr → ℤ} (hhosts : (hosts.map Prod.snd).Nodup)
    (h : st.table.Tracks hosts seconds)
    (hround : pingdRound pingPeriod st input = .ok (st', output)) :
    st'.table.Tracks hosts (hear seconds (input.poll.bind input.heard)) ∧
      ∀ sent, output.response = some sent → sendPingData st'.table.nodes input = .ok sent := by
  unfold pingdRound at hround
  obtain ⟨⟨swept, now, pings⟩, hsweep, hround⟩ := bind_eq_ok.mp hround
  cases hpoll : input.poll with
  | none => simp [hpoll] at hround
  | some poll =>
    simp only [hpoll] at hround
    obtain ⟨⟨table, response⟩, hserve, hround⟩ := bind_eq_ok.mp hround
    obtain ⟨rfl, rfl⟩ := Prod.mk.inj (Except.ok.inj hround)
    exact pingdServe_tracks hhosts (pingdSweep_tracks h hsweep) hserve

/-- Assumes: hosts with pairwise distinct addresses, and a run that does not exit. The table tracks
what was heard in the run. -/
theorem pingdRun_tracks {pingPeriod : ℕ} {st st' : PingdState} {inputs : List LoopInput}
    {outputs : List RoundOutput} {hosts : List (List Char × InAddr)}
    (hhosts : (hosts.map Prod.snd).Nodup)
    (h : st.table.Tracks hosts (lastHeard []))
    (hrun : pingdRun pingPeriod st inputs = .ok (st', outputs)) :
    st'.table.Tracks hosts (lastHeard inputs) := by
  have hkept := foldlM_ok (fun done (reached : PingdState × List RoundOutput) ↦
    reached.1.table.Tracks hosts (lastHeard done)) ?_ [] h hrun
  · exact hkept
  · rintro done input ⟨before, outputs⟩ ⟨after, outputs'⟩ hbefore hstep
    obtain ⟨⟨reached, output⟩, hround, hstep⟩ := bind_eq_ok.mp hstep
    obtain ⟨rfl, -⟩ := Prod.mk.inj (Except.ok.inj hstep)
    rw [lastHeard_append]
    exact (pingdRound_tracks hhosts hbefore hround).1

/-! ### What a client is sent -/

/-- A response that is complete has a line for every entry. -/
theorem sendPingDataLoop_complete {nodes : List PingdInfo} {writes : List WriteEvent}
    {text : List Char}
    (h : sendPingDataLoop nodes writes = .ok ⟨text, true⟩) : text =
      nodes.flatMap PingdInfo.line := by
  induction nodes generalizing writes text with
  | nil => exact (Response.mk.inj (Except.ok.inj h)).1.symm
  | cons info nodes ih =>
    rw [sendPingDataLoop] at h
    split_ifs at h
    cases hwrite : (fdWriteN info.line writes).result with
    | error epipe =>
      cases epipe <;> simp [hwrite] at h
    | ok rest =>
      simp only [hwrite] at h
      obtain ⟨⟨tail, complete⟩, hloop, h⟩ := bind_eq_ok.mp h
      obtain ⟨rfl, rfl⟩ := Response.mk.inj (Except.ok.inj h)
      rw [List.flatMap_cons, fdWriteN_sent hwrite, ih hloop]

/-- Assumes: a table that tracks seconds. A complete response tells them of every host, in order. -/
theorem PingdNodes.Tracks.response {table : PingdNodes} {hosts : List (List Char × InAddr)}
    {seconds : InAddr → ℤ} {input : LoopInput} {text : List Char} (h : table.Tracks hosts seconds)
    (hsend : sendPingData table.nodes input = .ok ⟨text, true⟩) :
    text = hosts.flatMap fun host ↦ pingLine host.1 (toUlong (seconds host.2)) := by
  unfold sendPingData at hsend
  split_ifs at hsend
  have hlines :=
    congrArg (List.flatMap fun record ↦ pingLine record.1 (toUlong record.2.2)) h.records
  rw [List.flatMap_map, List.flatMap_map] at hlines
  exact (sendPingDataLoop_complete hsend).trans hlines

end Whatsup
