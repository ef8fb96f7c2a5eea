import Mathlib.Data.List.Induction
import Whatsup.Nodeupdown.BackendPingd
import Whatsup.Pingd.Loop

/-!
# From the datagrams to the reports

pingd and the pingd backend together: what a client reports of the hosts after a whole run of pingd,
whatever datagrams came in and whichever clients were answered before. `pingd_reports` is the
result: a client that reads a complete response reports every host of the table once, in order, and
up exactly when its address was last heard within the timeout.
-/

set_option autoImplicit false
set_option relaxedAutoImplicit false

namespace Whatsup

open CLib

/-- The state in which `pingd_loop` starts, for the table that was set up. -/
def pingdStart (table : PingdNodes) : PingdState :=
  { table := table, pingdNextSend := ⟨0, 0⟩ }

/-- What a host deserves at a second, last heard at another: to be reported up within the
timeout. -/
def reportByAge (now lastSecond : ℤ) (timeoutLen : ℕ) (hostname : List Char) : BackendCall :=
  if (now - lastSecond).natAbs < timeoutLen then .addUpNode hostname else .addDownNode hostname

/-- A clock that shows a second from zero on and below `2 ^ 31`. -/
def Timeval.InRange (tv : Timeval) : Prop :=
  0 ≤ tv.tvSec ∧ tv.tvSec < 2147483648

instance (tv : Timeval) : Decidable tv.InRange :=
  inferInstanceAs (Decidable (_ ∧ _))

/-- Assumes: clocks of the wall in range. So is every second at which an address was last heard. -/
theorem lastHeard_inRange {rounds : List LoopInput}
    (hclock : ∀ round ∈ rounds, ∀ tv ∈ round.gettimeofday, tv.InRange) (addr : InAddr) :
    0 ≤ lastHeard rounds addr ∧ lastHeard rounds addr < 2147483648 := by
  induction rounds using List.reverseRecOn with
  | nil => exact ⟨le_rfl, (by decide : (0 : ℤ) < 2147483648)⟩
  | append_singleton rounds round ih =>
    have hbefore := ih fun r hr ↦ hclock r (List.mem_append_left _ hr)
    have hnow := hclock round (List.mem_append_right _ List.mem_cons_self)
    rw [lastHeard_append]
    cases hheard : round.poll.bind round.heard with
    | none => exact hbefore
    | some datagram =>
      obtain ⟨sender, tv⟩ := datagram
      have htv : round.gettimeofday = some tv := by
        obtain ⟨poll, -, hheard⟩ := Option.bind_eq_some_iff.mp hheard
        unfold LoopInput.heard LoopInput.datagram at hheard
        split_ifs at hheard
        split at hheard
        · rename_i hclock
          rw [hclock, (Prod.mk.inj (Option.some.inj hheard)).2]
        · exact absurd hheard (by simp)
      rw [hear, Function.update_apply]
      split_ifs
      · exact hnow tv htv
      · exact hbefore

/-- Assumes: a second from zero on and below `2 ^ 31`. Its conversion to `unsigned long` keeps
it. -/
theorem toUlong_of_inRange {second : ℤ} (h : 0 ≤ second ∧ second < 2147483648) :
    toUlong second < 2147483648 ∧ (toUlong second : ℤ) = second := by
  obtain ⟨value, rfl⟩ := Int.eq_ofNat_of_zero_le h.1
  rw [toUlong_natCast (by omega)]
  omega

/-- Assumes: a run with a last output. It is a run up to the last round, and that round. -/
theorem pingdRun_last {pingPeriod : ℕ} {st st' : PingdState} {rounds : List LoopInput}
    {outputs : List RoundOutput} {output : RoundOutput}
    (h : pingdRun pingPeriod st rounds = .ok (st', outputs ++ [output])) :
    ∃ before input middle, rounds = before ++ [input] ∧
      pingdRun pingPeriod st before = .ok (middle, outputs) ∧
      pingdRound pingPeriod middle input = .ok (st', output) := by
  induction rounds using List.reverseRecOn with
  | nil => exact absurd (Prod.mk.inj (Except.ok.inj h)).2 (by simp)
  | append_singleton before input =>
    unfold pingdRun at h
    rw [List.foldlM_append] at h
    obtain ⟨⟨middle, earlier⟩, hrun, hlast⟩ := bind_eq_ok.mp h
    rw [List.foldlM_cons] at hlast
    obtain ⟨reached, hlast, hdone⟩ := bind_eq_ok.mp hlast
    obtain rfl := Except.ok.inj hdone
    obtain ⟨⟨after, last⟩, hround, hlast⟩ := bind_eq_ok.mp hlast
    obtain ⟨rfl, houtputs⟩ := Prod.mk.inj (Except.ok.inj hlast)
    obtain ⟨rfl, houtput⟩ := List.append_inj' houtputs rfl
    obtain rfl := (List.cons.inj houtput).1
    exact ⟨before, input, middle, rfl, hrun, hround⟩

/-- Assumes: a table of hosts with pairwise distinct addresses and with names that a record can
carry. pingd sets the table up. In every run whose last round sends a client a complete response,
with clocks of the wall in range, a client that reads it at a second in range makes exactly one call
for every host, in order: up if the last datagram from the address of the host came in within the
timeout of that second, down otherwise. -/
theorem pingd_reports (nodesCount pingPeriod timeoutLen : ℕ) {hosts : List (List Char × InAddr)}
    (haddrs : (hosts.map Prod.snd).Nodup) (hnames : ∀ host ∈ hosts, WireName host.1) :
    ∃ table, nodesSetup nodesCount (hosts.map fun host ↦ (host.1, some host.2)) = .ok table ∧
      ∀ (rounds : List LoopInput) (st : PingdState) (outputs : List RoundOutput)
        (output : RoundOutput)
        (text : List Char) (events : List ReadEvent) (tv : Timeval),
        pingdRun pingPeriod (pingdStart table) rounds = .ok (st, outputs ++ [output]) →
        output.response = some ⟨text, true⟩ →
        (∀ round ∈ rounds, ∀ tv ∈ round.gettimeofday, tv.InRange) →
        Delivers events text → tv.InRange →
        pingdBackendGetUpdownData (some events) (some tv) timeoutLen =
          (hosts.map fun host ↦ reportByAge tv.tvSec (lastHeard rounds host.2) timeoutLen host.1,
            0) := by
  obtain ⟨table, hsetup, hindexed, hnodes⟩ := nodesSetup_ok nodesCount haddrs
  refine ⟨table, hsetup,
    fun rounds st outputs output text events tv hrun hresponse hclock hevents htv ↦ ?_⟩
  have hstart : (pingdStart table).table.Tracks hosts (lastHeard []) := by
    refine ⟨hindexed, ?_⟩
    rw [pingdStart, hnodes, List.map_map]
    rfl
  obtain ⟨before, input, middle, rfl, hbefore, hround⟩ := pingdRun_last hrun
  obtain ⟨htracks, hsend⟩ := pingdRound_tracks haddrs (pingdRun_tracks haddrs hstart hbefore) hround
  rw [← lastHeard_append] at htracks
  have htext := htracks.response (hsend _ hresponse)
  have hseconds := fun addr ↦ toUlong_of_inRange (lastHeard_inRange hclock addr)
  -- the response is the text of the records of the hosts
  let records := hosts.map fun host ↦ (host.1, toUlong (lastHeard (before ++ [input]) host.2))
  have hrecords : ∀ record ∈ records, WireName record.1 ∧ record.2 ≤ ulongMax := by
    intro record hrecord
    obtain ⟨host, hhost, rfl⟩ := List.mem_map.mp hrecord
    have hmax : 2147483648 ≤ ulongMax := by decide
    exact ⟨hnames host hhost, (hseconds host.2).1.le.trans hmax⟩
  have hdelivers : Delivers events (records.flatMap fun record ↦ wireRecord record.1 record.2) := by
    rw [List.flatMap_map]
    exact htext ▸ hevents
  rw [pingdBackendGetUpdownData, readPingData_lines tv timeoutLen hrecords hdelivers, List.map_map]
  refine congrArg (·, 0) (List.map_congr_left fun host _ ↦ ?_)
  rw [Function.comp_apply, pingdReport_eq timeoutLen host.1 (hseconds host.2).1 htv.1 htv.2,
    (hseconds host.2).2, reportByAge]

/-- Two hosts. -/
def twoHosts : List (List Char × InAddr) :=
  [(['n', '1'], ⟨10, 0, 0, 1⟩), (['n', '2'], ⟨10, 0, 0, 2⟩)]

/-- Two rounds: in the first pings are sent and a datagram from the first host comes in, at second
100; in the second a client is answered. -/
def twoRounds : List LoopInput :=
  [⟨some ⟨5, 0⟩, none, some ⟨5, 1⟩, some ⟨1, true, false⟩, some ⟨10, 0, 0, 1⟩,
    some ⟨100, 7⟩, true, []⟩,
    ⟨some ⟨5, 2⟩, none, none, some ⟨1, false, true⟩, none, none, true, [.interrupted, .wrote 2]⟩]

/-- The answer in the second round. -/
def twoLines : List Char :=
  pingLine ['n', '1'] 100 ++ pingLine ['n', '2'] 0

/-- At second 130 and for a timeout of 60 the client reports the first host up and the second one
down. -/
theorem pingd_reports_two :
    ∃ table st outputs, nodesSetup 2 (twoHosts.map fun host ↦ (host.1, some host.2)) = .ok table ∧
      pingdRun 1000 (pingdStart table) twoRounds =
        .ok (st, outputs ++ [⟨none, 1000, some ⟨twoLines, true⟩⟩]) ∧
      pingdBackendGetUpdownData (some (twoLines.map .byte)) (some ⟨130, 0⟩) 60 =
        ([.addUpNode ['n', '1'], .addDownNode ['n', '2']], 0) := by
  obtain ⟨table, hsetup, hreports⟩ :=
    @pingd_reports 2 1000 60 twoHosts (by decide) (by decide)
  have hrun : ∃ run, (nodesSetup 2 (twoHosts.map fun host ↦ (host.1, some host.2)) >>= fun table ↦
      pingdRun 1000 (pingdStart table) twoRounds) = .ok run ∧
      run.2 = [⟨some [⟨⟨10, 0, 0, 1⟩, 0⟩, ⟨⟨10, 0, 0, 2⟩, 0⟩], 1000, none⟩] ++
        [⟨none, 1000, some ⟨twoLines, true⟩⟩] := ⟨_, rfl, rfl⟩
  obtain ⟨⟨st, outputs⟩, hrun, rfl⟩ := hrun
  obtain ⟨table', hsetup', hrun⟩ := bind_eq_ok.mp hrun
  obtain rfl := Except.ok.inj (hsetup'.symm.trans hsetup)
  exact ⟨table', st, _, hsetup, hrun, hreports twoRounds st _ _ twoLines (twoLines.map .byte)
    ⟨130, 0⟩ hrun
    rfl (by decide) (delivers_map_byte twoLines) (by decide)⟩

end Whatsup
