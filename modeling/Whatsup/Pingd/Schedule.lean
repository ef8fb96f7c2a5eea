import Whatsup.Pingd.EndToEnd

/-!
# The schedule of the sweeps

When pingd sends its pings and how long it waits in `poll`. In every run the time of the next sweep
is the period behind the clock reading after the last one (`pingdRun_nextSend`). `pingdRun_schedule`
says what follows in every round of every run, for clock readings that do not decrease: a sweep is
more than the period behind the one before it, and `poll` is given the time that is left until the
next one, rounded up to a millisecond, which is at most the period.
-/

set_option autoImplicit false
set_option relaxedAutoImplicit false

namespace Whatsup

open CLib

/-! ### Clock readings -/

/-- The clock readings of a round, of which the second is made if there is a sweep. -/
def LoopInput.readings (input : LoopInput) (pings : Option (List Ping)) : List Timeval :=
  input.now.toList ++ if pings.isSome then input.swept.toList else []

/-- The clock readings of rounds, in order. -/
def clockReadings (rounds : List (LoopInput × RoundOutput)) : List Timeval :=
  rounds.flatMap fun round ↦ round.1.readings round.2.pings

/-- A clock that does not go back. -/
def Monotonic (readings : List Timeval) : Prop :=
  (∀ tv ∈ readings, tv.Normalized) ∧ readings.Pairwise fun earlier later ↦
    earlier.micros ≤ later.micros

instance (readings : List Timeval) : Decidable (Monotonic readings) :=
  inferInstanceAs (Decidable (_ ∧ _))

/-- The clock reading after the last sweep of some rounds, if there is one. -/
def lastSwept (rounds : List (LoopInput × RoundOutput)) : Option Timeval :=
  (rounds.filterMap fun round ↦ if round.2.pings.isSome then round.1.swept else none).getLast?

/-- The reading after a sweep is one of the readings. -/
theorem mem_clockReadings_of_lastSwept {rounds : List (LoopInput × RoundOutput)} {swept : Timeval}
    (h : lastSwept rounds = some swept) : swept ∈ clockReadings rounds := by
  obtain ⟨round, hround, hswept⟩ := List.mem_filterMap.mp (List.mem_of_getLast? h)
  refine List.mem_flatMap.mpr ⟨round, hround, List.mem_append_right _ ?_⟩
  split_ifs at hswept ⊢ with hpings
  rw [hswept]
  exact List.mem_singleton_self swept

/-- A reading in front of the last one is not later. -/
theorem Monotonic.le_of_mem {readings : List Timeval} {earlier later : Timeval}
    (h : Monotonic (readings ++ [later]))
    (hmem : earlier ∈ readings) : earlier.micros ≤ later.micros :=
  (List.pairwise_append.mp h.2).2.2 earlier hmem later (List.mem_singleton_self later)

/-! ### The next sweep -/

/-- The time of the next sweep behind some rounds. -/
def nextSendAfter (pingPeriod : ℕ) (rounds : List (LoopInput × RoundOutput)) : Timeval :=
  match lastSwept rounds with
  | none => ⟨0, 0⟩
  | some swept => timevalAddMs swept pingPeriod

/-- All that the first part of a round does to the time of the next sweep. -/
theorem pingdSweep_nextSend {pingPeriod : ℕ} {st st' : PingdState} {input : LoopInput}
    {now : Timeval}
    {pings : Option (List Ping)} (hsweep : pingdSweep pingPeriod st input = .ok (st', now, pings)) :
    (pings = none ∧ st'.pingdNextSend = st.pingdNextSend ∧ input.now = some now ∧
        timevalGt now st.pingdNextSend = false) ∨
      ∃ start, pings.isSome = true ∧ input.now = some start ∧ input.swept = some now ∧
        st'.pingdNextSend = timevalAddMs now pingPeriod := by
  unfold pingdSweep at hsweep
  cases hnow : input.now with
  | none => simp [hnow] at hsweep
  | some start =>
    simp only [hnow] at hsweep
    split_ifs at hsweep with hlater
    · obtain ⟨⟨sent, nodes⟩, -, hsweep⟩ := bind_eq_ok.mp hsweep
      cases hswept : input.swept with
      | none => simp [hswept] at hsweep
      | some swept =>
        simp only [hswept] at hsweep
        obtain ⟨rfl, hrest⟩ := Prod.mk.inj (Except.ok.inj hsweep)
        obtain ⟨rfl, rfl⟩ := Prod.mk.inj hrest
        exact Or.inr ⟨start, rfl, rfl, rfl, rfl⟩
    · obtain ⟨rfl, hrest⟩ := Prod.mk.inj (Except.ok.inj hsweep)
      obtain ⟨rfl, rfl⟩ := Prod.mk.inj hrest
      exact Or.inl ⟨rfl, rfl, rfl, (Bool.not_eq_true _).mp hlater⟩

/-- Assumes: a first part of a round that is no quiet one: it has sent pings, or exits in a sweep.
Its clock reading is later than the time of the next sweep. -/
theorem timevalGt_of_sweeps {pingPeriod : ℕ} {st : PingdState} {input : LoopInput} {start : Timeval}
    (hstart : input.now = some start)
    (hsweeps : ∀ st' now, pingdSweep pingPeriod st input ≠ .ok (st', now, none)) :
    timevalGt start st.pingdNextSend = true := by
  by_contra hnot
  refine hsweeps st start ?_
  unfold pingdSweep
  rw [hstart]
  simp only [if_neg hnot]
  rfl

/-- A round that succeeds has a first part, and waits as long as that says. -/
theorem pingdRound_sweep {pingPeriod : ℕ} {st st' : PingdState} {input : LoopInput}
    {output : RoundOutput}
    (hround : pingdRound pingPeriod st input = .ok (st', output)) :
    ∃ swept now, pingdSweep pingPeriod st input = .ok (swept, now, output.pings) ∧
      st'.pingdNextSend = swept.pingdNextSend ∧
      output.pollTimeout = timevalMillisecondCalc (timevalSub swept.pingdNextSend now) := by
  unfold pingdRound at hround
  obtain ⟨⟨swept, now, pings⟩, hsweep, hround⟩ := bind_eq_ok.mp hround
  cases hpoll : input.poll with
  | none => simp [hpoll] at hround
  | some poll =>
    simp only [hpoll] at hround
    obtain ⟨⟨table, response⟩, -, hround⟩ := bind_eq_ok.mp hround
    obtain ⟨rfl, rfl⟩ := Prod.mk.inj (Except.ok.inj hround)
    exact ⟨swept, now, hsweep, rfl, rfl⟩

/-- One more round. -/
theorem nextSendAfter_append {pingPeriod : ℕ} {rounds : List (LoopInput × RoundOutput)}
    {st st' : PingdState}
    {input : LoopInput} {output : RoundOutput}
    (hnext : st.pingdNextSend = nextSendAfter pingPeriod rounds)
    (hround : pingdRound pingPeriod st input = .ok (st', output)) :
    st'.pingdNextSend = nextSendAfter pingPeriod (rounds ++ [(input, output)]) := by
  obtain ⟨swept, now, hsweep, hsame, -⟩ := pingdRound_sweep hround
  rw [hsame, nextSendAfter, lastSwept, List.filterMap_append]
  rcases pingdSweep_nextSend hsweep with ⟨hpings, hkept, -, -⟩ | ⟨start, hpings, -, hswept, hset⟩
  · simp only [List.filterMap_cons, hpings, Option.isSome_none, Bool.false_eq_true, if_false,
      List.filterMap_nil,
      List.append_nil]
    rw [hkept, hnext]
    rfl
  · simp [hpings, hswept, hset]

/-- Behind every run the next sweep is the period behind the reading after the last one, and at once
if there was none. -/
theorem pingdRun_nextSend {pingPeriod : ℕ} {table : PingdNodes} {st : PingdState}
    {inputs : List LoopInput}
    {outputs : List RoundOutput} (hrun : pingdRun pingPeriod (pingdStart table) inputs =
      .ok (st, outputs)) :
    outputs.length = inputs.length ∧ st.pingdNextSend =
      nextSendAfter pingPeriod (inputs.zip outputs) := by
  have hkept := foldlM_ok (fun done (reached : PingdState × List RoundOutput) ↦
    reached.2.length = done.length ∧ reached.1.pingdNextSend =
      nextSendAfter pingPeriod (done.zip reached.2)) ?_ []
    (show [].length = [].length ∧ (pingdStart table).pingdNextSend =
      nextSendAfter pingPeriod [] from ⟨rfl, rfl⟩) hrun
  · exact hkept
  · rintro done input ⟨before, outputs⟩ ⟨after, outputs'⟩ ⟨hlength, hnext⟩ hstep
    obtain ⟨⟨reached, output⟩, hround, hstep⟩ := bind_eq_ok.mp hstep
    obtain ⟨rfl, rfl⟩ := Prod.mk.inj (Except.ok.inj hstep)
    refine ⟨by simp [hlength], ?_⟩
    rw [List.zip_append hlength.symm]
    exact nextSendAfter_append hnext hround

/-! ### Sweeps and waits -/

/-- A wait that begins at a time and is to end at the next sweep: it does not end before that, and
less than a millisecond behind it, is at most the period, and is the time that is left, converted to
milliseconds without an overflow. -/
structure WaitsInTime (pingPeriod : ℕ) (nextSend now : Timeval) (timeout : ℕ) : Prop where
  reaches : nextSend.micros ≤ now.micros + 1000 * timeout
  tight : 1000 * timeout < nextSend.micros - now.micros + 1000
  le_period : timeout ≤ pingPeriod
  exact : (timeout : ℤ) = (timevalSub nextSend now).tvSec * 1000 +
    ((timevalSub nextSend now).tvUsec + 999) / 1000

/-- Assumes: a time that is not behind the next sweep, and at most the period before it, which is an
`int`. The wait is in time. -/
theorem waitsInTime_of_le {pingPeriod : ℕ} (hperiod : pingPeriod ≤ 2147483647)
    {nextSend now : Timeval}
    (hnext : nextSend.Normalized) (hnow : now.Normalized) (hle : now.micros ≤ nextSend.micros)
    (hnear : nextSend.micros ≤ now.micros + 1000 * pingPeriod) :
    WaitsInTime pingPeriod nextSend now (timevalMillisecondCalc (timevalSub nextSend now)) := by
  obtain ⟨hsub, hmicros⟩ := timevalSub_normalized hnext hnow hle
  have hcalc := timevalMillisecondCalc_eq hsub (by omega)
  obtain ⟨-, hlow, hhigh⟩ := hsub
  unfold Timeval.micros at hmicros hle hnear
  refine ⟨?_, ?_, ?_, hcalc⟩
  · unfold Timeval.micros
    omega
  · unfold Timeval.micros
    omega
  · omega

/-- Assumes: a clock that does not go back. The time of the next sweep is normalized, and at most
the period behind the clock. -/
theorem nextSendAfter_near {pingPeriod : ℕ} {rounds : List (LoopInput × RoundOutput)}
    {now : Timeval}
    (hclock : Monotonic (clockReadings rounds ++ [now])) :
    (nextSendAfter pingPeriod rounds).Normalized ∧
      (nextSendAfter pingPeriod rounds).micros ≤ now.micros + 1000 * pingPeriod := by
  have hnow : now.Normalized := hclock.1 now (by simp)
  cases hlast : lastSwept rounds with
  | none =>
    rw [nextSendAfter, hlast]
    obtain ⟨hsec, husec, -⟩ := hnow
    refine ⟨⟨le_rfl, le_rfl, show (0 : ℤ) < 1000000 by decide⟩, ?_⟩
    change (0 : ℤ) ≤ _
    unfold Timeval.micros
    omega
  | some swept =>
    have hmem := mem_clockReadings_of_lastSwept hlast
    obtain ⟨hnormalized, hmicros⟩ :=
      timevalAddMs_normalized (hclock.1 swept (List.mem_append_left _ hmem)) pingPeriod
    have hle := hclock.le_of_mem hmem
    rw [nextSendAfter, hlast]
    exact ⟨hnormalized, by simp only; omega⟩

/-- Assumes: a run that does not exit, and a clock that does not go back. A reading that is later
than the time of the next sweep is more than the period behind the last sweep of the run. -/
theorem lastSwept_lt_of_timevalGt {pingPeriod : ℕ} {rounds : List (LoopInput × RoundOutput)}
    {start swept : Timeval} (hclock : Monotonic (clockReadings rounds ++ [start]))
    (hlater : timevalGt start (nextSendAfter pingPeriod rounds) = true)
    (hswept : lastSwept rounds = some swept) :
    swept.micros + 1000 * pingPeriod < start.micros := by
  obtain ⟨hnormalized, -⟩ := @nextSendAfter_near pingPeriod _ _ hclock
  have hsweptNormalized :=
    hclock.1 swept (List.mem_append_left _ (mem_clockReadings_of_lastSwept hswept))
  have hlt := (timevalGt_iff (hclock.1 start (by simp)) hnormalized).mp hlater
  rw [nextSendAfter, hswept] at hlt
  simp only at hlt
  rwa [(timevalAddMs_normalized hsweptNormalized pingPeriod).2] at hlt

/-- Assumes: a clock that does not go back over some readings and a round. Nor does it up to the
first reading of the round. -/
theorem Monotonic.of_readings {readings : List Timeval} {input : LoopInput}
    {pings : Option (List Ping)} {start : Timeval} (hstart : input.now = some start)
    (h : Monotonic (readings ++ input.readings pings)) : Monotonic (readings ++ [start]) := by
  obtain ⟨rest, hrest⟩ : ∃ rest, input.readings pings = start :: rest := by
    unfold LoopInput.readings
    rw [hstart]
    exact ⟨_, rfl⟩
  rw [hrest, ← List.singleton_append, ← List.append_assoc] at h
  exact ⟨fun tv htv ↦ h.1 tv (List.mem_append_left _ htv), (List.pairwise_append.mp h.2).1⟩

/-- Assumes: a period that is an `int`, a run that does not exit and what the system gives the round
behind it, with clock readings that do not go back. If that round sends pings, the reading that
triggers them is more than the period behind the reading after the last sweep of the run, and so it
is if the round exits in its sweep. The round waits in time, whether it succeeds or exits behind its
sweep. -/
theorem pingdRun_schedule {pingPeriod : ℕ} {table : PingdNodes} {st : PingdState}
    {inputs : List LoopInput} {outputs : List RoundOutput} (hperiod : pingPeriod ≤ 2147483647)
    (hrun : pingdRun pingPeriod (pingdStart table) inputs = .ok (st, outputs)) (input : LoopInput) :
    (∀ st' output, pingdRound pingPeriod st input = .ok (st', output) →
        output.pings.isSome = true →
        Monotonic (clockReadings (inputs.zip outputs) ++ input.readings output.pings) →
        ∃ start, input.now = some start ∧ ∀ swept ∈ lastSwept (inputs.zip outputs),
          swept.micros + 1000 * pingPeriod < start.micros) ∧
      (∀ start, input.now = some start →
        (∀ st' now, pingdSweep pingPeriod st input ≠ .ok (st', now, none)) →
        Monotonic (clockReadings (inputs.zip outputs) ++ [start]) →
        ∀ swept ∈ lastSwept (inputs.zip outputs),
          swept.micros + 1000 * pingPeriod < start.micros) ∧
      (∀ st' now pings, pingdSweep pingPeriod st input = .ok (st', now, pings) →
        Monotonic (clockReadings (inputs.zip outputs) ++ input.readings pings) →
        (input.readings pings).getLast? = some now ∧
          WaitsInTime pingPeriod st'.pingdNextSend now
            (timevalMillisecondCalc (timevalSub st'.pingdNextSend now))) ∧
      ∀ st' output, pingdRound pingPeriod st input = .ok (st', output) →
        Monotonic (clockReadings (inputs.zip outputs) ++ input.readings output.pings) →
        ∃ now, (input.readings output.pings).getLast? = some now ∧
          WaitsInTime pingPeriod st'.pingdNextSend now output.pollTimeout := by
  obtain ⟨-, hnext⟩ := pingdRun_nextSend hrun
  have hsweeps : ∀ start, input.now = some start →
      (∀ st' now, pingdSweep pingPeriod st input ≠ .ok (st', now, none)) →
      Monotonic (clockReadings (inputs.zip outputs) ++ [start]) →
      ∀ swept ∈ lastSwept (inputs.zip outputs),
        swept.micros + 1000 * pingPeriod < start.micros := by
    intro start hstart hsweeps hclock swept hswept
    have hlater := timevalGt_of_sweeps hstart hsweeps
    rw [hnext] at hlater
    exact lastSwept_lt_of_timevalGt hclock hlater hswept
  have hwaits : ∀ st' now pings, pingdSweep pingPeriod st input = .ok (st', now, pings) →
      Monotonic (clockReadings (inputs.zip outputs) ++ input.readings pings) →
      (input.readings pings).getLast? = some now ∧
        WaitsInTime pingPeriod st'.pingdNextSend now
          (timevalMillisecondCalc (timevalSub st'.pingdNextSend now)) := by
    intro st' now pings hsweep hclock
    rcases pingdSweep_nextSend hsweep with
      ⟨rfl, hkept, hnow, hnot⟩ | ⟨start, hpings, hstart, hswept, hset⟩
    · have hreadings : input.readings none = [now] := by simp [LoopInput.readings, hnow]
      rw [hreadings] at hclock ⊢
      obtain ⟨hnormalized, hnear⟩ := @nextSendAfter_near pingPeriod _ _ hclock
      have hnowNormalized : now.Normalized := hclock.1 now (by simp)
      rw [hnext] at hkept hnot
      have hle : now.micros ≤ (nextSendAfter pingPeriod (inputs.zip outputs)).micros := by
        by_contra hlater
        have hgt := (timevalGt_iff hnowNormalized hnormalized).mpr (not_le.mp hlater)
        exact absurd (hnot.symm.trans hgt) (by decide)
      rw [hkept]
      exact ⟨rfl, waitsInTime_of_le hperiod hnormalized hnowNormalized hle hnear⟩
    · have hreadings : input.readings pings = [start, now] := by
        simp [LoopInput.readings, hstart, hswept, hpings]
      rw [hreadings] at hclock ⊢
      have hnowNormalized : now.Normalized := hclock.1 now (by simp)
      obtain ⟨hnormalized, hmicros⟩ := timevalAddMs_normalized hnowNormalized pingPeriod
      rw [hset]
      exact ⟨rfl, waitsInTime_of_le hperiod hnormalized hnowNormalized (by omega) (by omega)⟩
  refine ⟨fun st' output hround hpings hclock ↦ ?_, hsweeps, hwaits,
    fun st' output hround hclock ↦ ?_⟩
  · obtain ⟨swept, now, hsweep, -, -⟩ := pingdRound_sweep hround
    rcases pingdSweep_nextSend hsweep with ⟨hnone, -, -, -⟩ | ⟨start, -, hstart, -, -⟩
    · rw [hnone] at hpings
      exact absurd hpings (by decide)
    · refine ⟨start, hstart, hsweeps start hstart (fun st'' now' hquiet ↦ ?_)
        (hclock.of_readings hstart)⟩
      rw [hsweep] at hquiet
      rw [(Prod.mk.inj (Prod.mk.inj (Except.ok.inj hquiet)).2).2] at hpings
      exact absurd hpings (by decide)
  · obtain ⟨swept, now, hsweep, hsame, htimeout⟩ := pingdRound_sweep hround
    obtain ⟨hlast, hwait⟩ := hwaits swept now output.pings hsweep hclock
    rw [hsame, htimeout]
    exact ⟨now, hlast, hwait⟩

/-- A round with a sweep behind second 5, and one half a second later, in which no ping is due. -/
def quietRounds : List LoopInput :=
  [⟨some ⟨5, 0⟩, none, some ⟨5, 10⟩, some ⟨0, false, false⟩, none, none, true, []⟩,
    ⟨some ⟨5, 500000⟩, none, none, some ⟨0, false, false⟩, none, none, true, []⟩]

/-- A round in which pings are due again. -/
def dueRound : LoopInput :=
  ⟨some ⟨6, 11⟩, none, some ⟨6, 12⟩, some ⟨0, false, false⟩, none, none, true, []⟩

/-- Two hosts are pinged again more than a second behind the first sweep, and the wait behind the
second sweep is in time. -/
theorem pingdRun_schedule_two :
    ∃ table st outputs st' output,
      nodesSetup 2 (twoHosts.map fun host ↦ (host.1, some host.2)) = .ok table ∧
      pingdRun 1000 (pingdStart table) quietRounds = .ok (st, outputs) ∧
      pingdRound 1000 st dueRound = .ok (st', output) ∧
      output.pings = some [⟨⟨10, 0, 0, 1⟩, 1⟩, ⟨⟨10, 0, 0, 2⟩, 1⟩] ∧
      (∃ start, dueRound.now = some start ∧ (5000010 : ℤ) + 1000 * 1000 < start.micros) ∧
      ∃ now, WaitsInTime 1000 st'.pingdNextSend now output.pollTimeout := by
  have hrun : ∃ table st outputs st' output,
      nodesSetup 2 (twoHosts.map fun host ↦ (host.1, some host.2)) = .ok table ∧
      pingdRun 1000 (pingdStart table) quietRounds = .ok (st, outputs) ∧
      pingdRound 1000 st dueRound = .ok (st', output) ∧
      outputs = [⟨some [⟨⟨10, 0, 0, 1⟩, 0⟩, ⟨⟨10, 0, 0, 2⟩, 0⟩], 1000, none⟩, ⟨none, 501, none⟩] ∧
      output = ⟨some [⟨⟨10, 0, 0, 1⟩, 1⟩, ⟨⟨10, 0, 0, 2⟩, 1⟩], 1000, none⟩ :=
    ⟨_, _, _, _, _, rfl, rfl, rfl, rfl, rfl⟩
  obtain ⟨table, st, outputs, st', output, hsetup, hrun, hround, rfl, rfl⟩ := hrun
  obtain ⟨hsweeps, -, -, hwaits⟩ := pingdRun_schedule (by decide) hrun dueRound
  obtain ⟨start, hstart, hlast⟩ := hsweeps _ _ hround rfl (by decide)
  obtain ⟨now, -, hwait⟩ := hwaits _ _ hround (by decide)
  exact ⟨table, st, _, st', _, hsetup, hrun, hround, rfl,
    ⟨start, hstart, hlast ⟨5, 10⟩ rfl⟩, now, hwait⟩

end Whatsup
