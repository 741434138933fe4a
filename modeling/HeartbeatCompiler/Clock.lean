import HeartbeatCompiler.ChunkControl
import Mathlib.Algebra.BigOperators.Ring.Finset
import Mathlib.Algebra.Group.Action.Defs
import Mathlib.Algebra.Order.BigOperators.Group.Finset
import Mathlib.Data.Fintype.Card

/-!
# `HeartbeatCompiler.Clock`: the timer of a worker

Under software polling each worker has a timestamp. A poll reads the cycle counter and answers
that a heartbeat is due if the timestamp is an interval old or more. Only `task_memory_reset`
writes the timestamp, when a task starts on the worker. A heartbeat that the handler declines
therefore stays due.

`TimerRun` is a run of any number of workers, each with a cycle counter that does not go back.
`heartbeat_rate` is the bound that heartbeat scheduling rests on: the promotions that a worker
carries on itself are an interval apart.

The build that counts heartbeats (`BEATS_STATS`) moves the timestamp in the poll
(`heartbeatPollingStats`). `beats_stats_bounded` states what it counts.
-/

set_option autoImplicit false

namespace HeartbeatCompiler

/-! ### The timer -/

/-- The `thread_local` variables of the timer: the reading at which the worker
last started a task, and the interval between heartbeats, which nothing
changes. -/
structure Timer where
  timestamp : Nat
  heartbeatInterval : Nat
  deriving DecidableEq

namespace Timer

/-- The timer of a new worker. The timestamp is zero, which lies far in the
past for any counter that has run for an interval. -/
def initial : Timer := ⟨0, 3000000 / 1000 * 100⟩

/-- `heartbeat_polling` at the reading `now` of the cycle counter. The sum of
timestamp and interval is a word, and both are compared unsigned. -/
def heartbeatPolling (tr : Timer) (now : Nat) : Bool :=
  if ult now (wadd tr.timestamp tr.heartbeatInterval) then false else true

/-- What `task_memory_reset` does to the timer. It is called when a task
starts, on the worker that runs it. -/
def reset (tr : Timer) (now : Nat) : Timer := { tr with timestamp := now }

/-- A heartbeat is due if the timestamp is an interval old. -/
theorem heartbeatPolling_iff {tr : Timer} {now : Nat}
    (h : tr.timestamp + tr.heartbeatInterval < 2 ^ 64) :
    tr.heartbeatPolling now = true ↔ tr.timestamp + tr.heartbeatInterval ≤ now := by
  unfold heartbeatPolling
  rw [wadd_of_lt h, ← not_lt, ← ult_iff]
  split <;> simp_all

end Timer

/-! ### Runs of the workers -/

/-- What a worker does with its timer: it polls, which comes with the answer,
or it starts a task. The reading of its cycle counter is part of either. -/
inductive TimerEvent
  | poll (now : Nat) (heartbeat : Bool)
  | reset (now : Nat)
  deriving DecidableEq

/-- The timers, and the last reading of each worker's cycle counter. The
counters of different workers are not related. -/
structure TimerState (W : Type) where
  timer : W → Timer
  clock : W → Nat

variable {W : Type} [DecidableEq W]

/-- One step of one worker. The only assumption is that the cycle counter of a
worker does not go back. -/
inductive TimerStep : TimerState W → W × TimerEvent → TimerState W → Prop
  | poll {s : TimerState W} {k : W} {now : Nat} : s.clock k ≤ now →
      TimerStep s (k, .poll now ((s.timer k).heartbeatPolling now))
        { s with clock := Function.update s.clock k now }
  | reset {s : TimerState W} {k : W} {now : Nat} : s.clock k ≤ now →
      TimerStep s (k, .reset now)
        { s with
            timer := Function.update s.timer k ((s.timer k).reset now)
            clock := Function.update s.clock k now }

/-- A run of the workers, in any interleaving, with what happens in it. -/
inductive TimerRun : TimerState W → List (W × TimerEvent) → TimerState W → Prop
  | nil (s : TimerState W) : TimerRun s [] s
  | cons {s s' s'' : TimerState W} {e : W × TimerEvent} {es : List (W × TimerEvent)} :
      TimerStep s e s' → TimerRun s' es s'' → TimerRun s (e :: es) s''

/-- The events of the worker `k`, in their order. -/
def eventsOf (k : W) (es : List (W × TimerEvent)) : List TimerEvent :=
  es.filterMap fun e => if e.1 = k then some e.2 else none

/-- The promotions that a worker carries on itself: its poll detects a
heartbeat, and before it polls again it starts a task. The flag says that the
last poll has detected a heartbeat and no task was started since. -/
def promotionCount : Bool → List TimerEvent → Nat
  | _, .poll _ heartbeat :: es => promotionCount heartbeat es
  | detected, .reset _ :: es => (if detected then 1 else 0) + promotionCount false es
  | _, [] => 0

/-- The reading at the last start of a task, or `timestamp` if there was none.
-/
def lastReset (timestamp : Nat) (es : List TimerEvent) : Nat :=
  es.foldl (fun last e => match e with
    | .poll _ _ => last
    | .reset now => now) timestamp

/-! ### One worker -/

/-- The steps of one worker, from its timestamp and its last reading to `ts'`
and `clock'`. It is what a run of all workers looks like to one of them, since
the timers are `thread_local`. -/
inductive WorkerRun (interval ts' clock' : Nat) : Nat → Nat → List TimerEvent → Prop
  | nil : WorkerRun interval ts' clock' ts' clock' []
  | poll {ts clock now : Nat} {es : List TimerEvent} : clock ≤ now →
      WorkerRun interval ts' clock' ts now es →
      WorkerRun interval ts' clock' ts clock
        (.poll now (Timer.heartbeatPolling ⟨ts, interval⟩ now) :: es)
  | reset {ts clock now : Nat} {es : List TimerEvent} : clock ≤ now →
      WorkerRun interval ts' clock' now now es →
      WorkerRun interval ts' clock' ts clock (.reset now :: es)

namespace WorkerRun

variable {interval ts clock ts' clock' : Nat} {es : List TimerEvent}

/-- Readings do not go back. -/
theorem clock_le (h : WorkerRun interval ts' clock' ts clock es) : clock ≤ clock' := by
  induction h with
  | nil => exact le_refl _
  | poll hle _ ih => exact hle.trans ih
  | reset hle _ ih => exact hle.trans ih

/-- The timestamp does not get ahead of the counter. -/
theorem past (h : WorkerRun interval ts' clock' ts clock es) (hts : ts ≤ clock) :
    ts' ≤ clock' := by
  induction h with
  | nil => exact hts
  | poll hle _ ih => exact ih (hts.trans hle)
  | reset _ _ ih => exact ih (le_refl _)

/-- Each promotion moves the timestamp by an interval. -/
theorem promotionCount_le (h : WorkerRun interval ts' clock' ts clock es) (hts : ts ≤ clock)
    (hword : clock' + interval < 2 ^ 64) {detected : Bool}
    (hdetected : detected = true → ts + interval ≤ clock) :
    ts + promotionCount detected es * interval ≤ ts' := by
  induction h generalizing detected with
  | nil => simp [promotionCount]
  | @poll ts clock now es hle hrun ih =>
      refine ih (hts.trans hle) fun hheartbeat => ?_
      have hnow := hrun.clock_le
      exact (Timer.heartbeatPolling_iff (show ts + interval < 2 ^ 64 by omega)).mp hheartbeat
  | @reset ts clock now es hle hrun ih =>
      have hnone : false = true → now + interval ≤ now := nofun
      have hrest := ih (le_refl _) hnone
      rw [promotionCount, Nat.add_mul]
      -- A reset counts only if the poll before it has detected a beat, which was then an
      -- interval past the timestamp.
      cases detected with
      | true =>
          have := hdetected rfl
          simp only [if_true, Nat.one_mul]
          omega
      | false =>
          simp only [Bool.false_eq_true, if_false, Nat.zero_mul]
          omega

/-- From any moment on: the first promotion may come at once. -/
theorem promotionCount_sub_one_le (h : WorkerRun interval ts' clock' ts clock es)
    (hts : ts ≤ clock) (hword : clock' + interval < 2 ^ 64) (detected : Bool) :
    clock + (promotionCount detected es - 1) * interval ≤ clock' := by
  induction h generalizing detected with
  | nil => simp [promotionCount]
  | @poll ts clock now es hle hrun ih =>
      have := ih (hts.trans hle) (Timer.heartbeatPolling ⟨ts, interval⟩ now)
      exact (Nat.add_le_add_right hle _).trans this
  | @reset ts clock now es hle hrun ih =>
      rw [promotionCount]
      -- The first promotion is the one that may come at once: from its reset on the stronger
      -- bound holds.
      cases detected with
      | true =>
          have hnone : false = true → now + interval ≤ now := nofun
          have hrest := hrun.promotionCount_le (le_refl _) hword hnone
          have hpast := hrun.past (le_refl _)
          simp only [if_true, Nat.add_sub_cancel_left]
          omega
      | false =>
          have := ih (le_refl _) false
          simp only [Bool.false_eq_true, if_false, Nat.zero_add]
          omega

/-- A poll says how old the last start of a task is. -/
theorem poll_iff {pre post : List TimerEvent} {now : Nat} {heartbeat : Bool}
    (h : WorkerRun interval ts' clock' ts clock (pre ++ .poll now heartbeat :: post))
    (hts : ts ≤ clock) (hword : clock' + interval < 2 ^ 64) :
    heartbeat = true ↔ lastReset ts pre + interval ≤ now := by
  induction pre generalizing ts clock with
  | nil =>
      cases h with
      | poll hle hrun =>
          have hnow := hrun.clock_le
          exact Timer.heartbeatPolling_iff (show ts + interval < 2 ^ 64 by omega)
  | cons e pre ih =>
      cases h with
      | poll hle hrun => exact ih hrun (hts.trans hle)
      | reset hle hrun => exact ih hrun (le_refl _)

end WorkerRun

/-! ### All workers -/

variable {s s' : TimerState W} {es : List (W × TimerEvent)}

/-- The interval stays. -/
theorem TimerStep.interval {e : W × TimerEvent} (h : TimerStep s e s') (k : W) :
    (s'.timer k).heartbeatInterval = (s.timer k).heartbeatInterval := by
  cases h with
  | poll _ => rfl
  | @reset k' now _ =>
      by_cases hk : k = k'
      · subst hk
        simp [Timer.reset]
      · simp [Function.update_of_ne hk]

/-- The events of a worker are a run of this worker: the timers are
thread-local. So a statement about many workers is proved for one of them. -/
theorem TimerRun.worker (h : TimerRun s es s') (k : W) :
    (s'.timer k).heartbeatInterval = (s.timer k).heartbeatInterval ∧
      WorkerRun (s.timer k).heartbeatInterval (s'.timer k).timestamp (s'.clock k)
        (s.timer k).timestamp (s.clock k) (eventsOf k es) := by
  induction h with
  | nil s => exact ⟨rfl, .nil⟩
  | @cons s s' s'' e es hstep hrun ih =>
      obtain ⟨hinterval, hworker⟩ := ih
      have hsame := hstep.interval k
      refine ⟨hinterval.trans hsame, ?_⟩
      rw [hsame] at hworker
      cases hstep with
      | @poll k' now hle =>
          -- An event of another worker leaves this one's timer and clock alone, and is filtered
          -- out.
          by_cases hk : k' = k
          · subst hk
            simp only [eventsOf, List.filterMap_cons, if_true]
            simp only [Function.update_self] at hworker
            exact .poll hle hworker
          · simpa [eventsOf, hk, Function.update_of_ne (Ne.symm hk)] using hworker
      | @reset k' now hle =>
          by_cases hk : k' = k
          · subst hk
            simp only [eventsOf, List.filterMap_cons, if_true]
            simp only [Function.update_self, Timer.reset] at hworker
            exact .reset hle hworker
          · simpa [eventsOf, hk, Function.update_of_ne (Ne.symm hk)] using hworker

/-- Heartbeats are an interval apart. In every run of the workers, from any
moment on: a poll detects a heartbeat if and only if the last task started on
its worker an interval ago or earlier, so one that is declined stays due; and
of the promotions that a worker carries on itself, all but the first take an
interval each. The cycle counter of a worker does not go back (`TimerRun`),
and an interval after its last reading it has not wrapped (`hword`). -/
theorem heartbeat_rate [Fintype W] {s₀ : TimerState W} {es₀ : List (W × TimerEvent)}
    {interval elapsed : Nat} (hs₀ : ∀ k, s₀.timer k = .initial)
    (hinterval : interval = Timer.initial.heartbeatInterval) (h₀ : TimerRun s₀ es₀ s)
    (h : TimerRun s es s') (helapsed : ∀ k, s'.clock k ≤ s.clock k + elapsed)
    (hword : ∀ k, s'.clock k + interval < 2 ^ 64) :
    (∀ k pre now heartbeat post, eventsOf k es = pre ++ .poll now heartbeat :: post →
      (heartbeat = true ↔ lastReset (s.timer k).timestamp pre + interval ≤ now)) ∧
    (∀ k, (promotionCount false (eventsOf k es) - 1) * interval ≤ elapsed) ∧
    (∑ k, promotionCount false (eventsOf k es)) * interval ≤
      Fintype.card W * (elapsed + interval) := by
  -- The run before gives the one thing needed of the moment `s`: no timestamp lies in the
  -- future.
  have hpast : ∀ k, (s.timer k).timestamp ≤ s.clock k := by
    intro k
    refine (h₀.worker k).2.past ?_
    rw [hs₀ k]
    exact Nat.zero_le _
  have hworker : ∀ k, WorkerRun interval (s'.timer k).timestamp (s'.clock k)
      (s.timer k).timestamp (s.clock k) (eventsOf k es) := by
    intro k
    have hsame : (s.timer k).heartbeatInterval = interval := by
      rw [(h₀.worker k).1, hs₀ k, hinterval]
    exact hsame ▸ (h.worker k).2
  have hrate : ∀ k, (promotionCount false (eventsOf k es) - 1) * interval ≤ elapsed := by
    intro k
    have := (hworker k).promotionCount_sub_one_le (hpast k) (hword k) false
    have := helapsed k
    omega
  refine ⟨fun k pre now heartbeat post hes => ?_, hrate, ?_⟩
  · exact (hes ▸ hworker k).poll_iff (hpast k) (hword k)
  · rw [Finset.sum_mul, ← smul_eq_mul, ← Finset.card_univ]
    refine Finset.sum_le_card_nsmul _ _ _ fun k _ => ?_
    have := hrate k
    rw [Nat.sub_one_mul] at this
    omega

/-- Two workers. The first is promoted at its first poll, since a new worker
has the timestamp zero, and again an interval after its task has started. -/
def twoWorkers : List (Bool × TimerEvent) :=
  [(true, .poll 500000 true), (true, .reset 500010), (false, .reset 500020),
    (true, .poll 800009 false), (true, .poll 800010 true), (true, .reset 800020)]

/-- Together the two workers find at most as many beats as fit twice into the
clock and one more interval. -/
theorem heartbeat_rate_two : ∃ s s', TimerRun s twoWorkers s' ∧
    (∑ k, promotionCount false (eventsOf k twoWorkers)) * 300000 ≤ 2 * (300020 + 300000) := by
  have hrun : ∃ s', TimerRun ⟨fun _ => .initial, fun _ => 500000⟩ twoWorkers s' ∧
      ∀ k : Bool, s'.clock k ≤ 800020 :=
    ⟨_, .cons (.poll (by decide)) (.cons (.reset (by decide)) (.cons (.reset (by decide))
      (.cons (.poll (by decide)) (.cons (.poll (by decide)) (.cons (.reset (by decide))
        (.nil _)))))), by decide⟩
  obtain ⟨s', h, hclock⟩ := hrun
  have hword : ∀ k, s'.clock k + 300000 < 2 ^ 64 := by
    intro k
    have := hclock k
    omega
  have helapsed : ∀ k, s'.clock k ≤ 500000 + 300020 := hclock
  exact ⟨_, s', h, (heartbeat_rate (fun _ => rfl) rfl (.nil _) h helapsed hword).2.2⟩

/-! ### The build that counts heartbeats -/

/-- The counters of `BEATS_STATS`: all polls, those that have detected a
heartbeat, and the heartbeats that have passed. -/
structure BeatsStats where
  polls : Nat
  detectedHeartbeats : Nat
  totalHeartbeats : Nat
  deriving DecidableEq

namespace Timer

/-- The loop of `heartbeat_polling`: the timestamp moves to the last beat
before `now`, one interval in each turn, and the beats are counted. The fuel
bounds the turns; the loop of the source has no other bound than the readings.
-/
def elapse (now : Nat) : Nat → Timer → Nat → Option (Timer × Nat)
  | 0, _, _ => none
  | fuel + 1, tr, quotient =>
    if ult now (wadd tr.timestamp tr.heartbeatInterval) then some (tr, quotient)
    else elapse now fuel (tr.reset (wadd tr.timestamp tr.heartbeatInterval)) (wadd quotient 1)

/-- `heartbeat_polling` under `BEATS_STATS` with adaptive control. The polling
count of the task is incremented before it is compared. Of several beats that
have passed at once two are counted if the task could not poll more often, and
all of them otherwise. -/
def heartbeatPollingStats (fuel : Nat) (tr : Timer) (stats : BeatsStats) (tm : AccTaskMemory)
    (now : Nat) : Option (Bool × Timer × BeatsStats) :=
  let stats := { stats with polls := wadd stats.polls 1 }
  let tm := tm.polled
  if ult now (wadd tr.timestamp tr.heartbeatInterval) then some (false, tr, stats)
  else do
    let stats := { stats with detectedHeartbeats := wadd stats.detectedHeartbeats 1 }
    let (tr, quotient) ← tr.elapse now fuel 0
    -- A task with the least chunk size cannot poll more often.
    let beats := if 2 ≤ quotient ∧ (tm.chunksize = 1 ∨ tm.pollingCount = 1) then 2 else quotient
    some (true, tr, { stats with totalHeartbeats := wadd stats.totalHeartbeats beats })

/-- The loop ends, and it divides: the timestamp moves by all intervals that
fit, and their number is counted. -/
theorem elapse_eq {ts interval now fuel quotient : Nat} (hts : ts ≤ now) (hpos : 0 < interval)
    (hword : now + interval < 2 ^ 64) (hfuel : (now - ts) / interval < fuel)
    (hquotient : quotient + (now - ts) / interval < 2 ^ 64) :
    elapse now fuel ⟨ts, interval⟩ quotient = some
      (⟨ts + (now - ts) / interval * interval, interval⟩, quotient + (now - ts) / interval) := by
  induction fuel generalizing ts quotient with
  | zero => exact absurd hfuel (Nat.not_lt_zero _)
  | succ fuel ih =>
      have hadd : wadd ts interval = ts + interval := wadd_of_lt (by omega)
      unfold elapse
      simp only [hadd, Timer.reset]
      -- By induction on the fuel, with the timestamp moving up: the loop ends when less than an
      -- interval is left.
      by_cases hlt : now < ts + interval
      · rw [if_pos (ult_iff.mpr hlt), Nat.div_eq_of_lt (show now - ts < interval by omega)]
        simp
      · -- One more interval fits, and the rest of the loop divides what is then left.
        have hdiv : (now - ts) / interval = (now - (ts + interval)) / interval + 1 := by
          rw [Nat.sub_add_eq, ← Nat.div_eq_sub_div hpos (by omega)]
        generalize hq : (now - (ts + interval)) / interval = q at hdiv
        rw [hdiv] at hfuel hquotient ⊢
        have hrest : elapse now fuel ⟨ts + interval, interval⟩ (quotient + 1) = _ :=
          ih (by omega) (by rw [hq]; omega) (by rw [hq]; omega)
        rw [if_neg fun h => hlt (ult_iff.mp h), wadd_of_lt (by omega), hrest, hq, Nat.add_mul,
          Nat.one_mul]
        simp only [Option.some.injEq, Prod.mk.injEq, Timer.mk.injEq, and_true]
        omega

end Timer

/-- What the worker does: it polls for a task, or it starts one. -/
inductive BeatsEvent
  | poll (tm : AccTaskMemory) (now : Nat)
  | reset (now : Nat)

/-- The reading of an event. -/
def BeatsEvent.now : BeatsEvent → Nat
  | poll _ now => now
  | reset now => now

/-- One event. The counters are not changed when a task starts. -/
def beatsStep (fuel : Nat) : Timer × BeatsStats → BeatsEvent → Option (Timer × BeatsStats)
  | (tr, stats), .poll tm now =>
    (tr.heartbeatPollingStats fuel stats tm now).map fun answer => answer.2
  | (tr, stats), .reset now => some (tr.reset now, stats)

/-- Is the event a poll? -/
def BeatsEvent.isPoll : BeatsEvent → Bool
  | poll _ _ => true
  | reset _ => false

/-- What holds of the counters after each event: they are in order, and each
beat that is counted takes an interval between `first` and the timestamp. -/
structure BeatsInvariant (interval first polls clock : Nat) (tr : Timer) (stats : BeatsStats) :
    Prop where
  heartbeatInterval : tr.heartbeatInterval = interval
  timestamp : tr.timestamp ≤ clock
  polls : stats.polls = polls
  detected_le_polls : stats.detectedHeartbeats ≤ stats.polls
  detected_le_total : stats.detectedHeartbeats ≤ stats.totalHeartbeats
  total : first + stats.totalHeartbeats * interval ≤ tr.timestamp

variable {interval first polls clock fuel : Nat} {tr : Timer} {stats : BeatsStats}

/-- A poll counts itself and the beats since the timestamp, which it moves to
the last beat. -/
theorem BeatsInvariant.poll (h : BeatsInvariant interval first polls clock tr stats)
    (hpos : 0 < interval) (hfuel : 2 ^ 64 ≤ fuel) (hpolls : polls + 1 < 2 ^ 64)
    (tm : AccTaskMemory) {now : Nat} (hnow : clock ≤ now) (hword : now + interval < 2 ^ 64) :
    ∃ tr' stats', beatsStep fuel (tr, stats) (.poll tm now) = some (tr', stats') ∧
      BeatsInvariant interval first (polls + 1) now tr' stats' ∧
      now < tr'.timestamp + interval := by
  obtain ⟨ts, interval'⟩ := tr
  obtain ⟨p, detected, total⟩ := stats
  obtain ⟨rfl, hts, rfl, hdp, hdt, htotal⟩ := h
  dsimp only at *
  have hts' := hts.trans hnow
  have hp : wadd p 1 = p + 1 := wadd_of_lt hpolls
  have hadd : wadd ts interval' = ts + interval' := wadd_of_lt (by omega)
  simp only [beatsStep, Timer.heartbeatPollingStats, hp, hadd]
  by_cases hlt : now < ts + interval'
  · rw [if_pos (ult_iff.mpr hlt)]
    exact ⟨_, _, rfl, ⟨rfl, hts', rfl, by dsimp only; omega, hdt, htotal⟩, hlt⟩
  · -- at least one beat has passed, and the beats fit between the timestamp and now
    have hq : 1 ≤ (now - ts) / interval' := (Nat.one_le_div_iff hpos).mpr (by omega)
    have hqle := Nat.div_mul_le_self (now - ts) interval'
    have hqlt := Nat.lt_div_mul_add (a := now - ts) hpos
    have hfit : (now - ts) / interval' ≤ (now - ts) / interval' * interval' :=
      Nat.le_mul_of_pos_right _ hpos
    have helapse : Timer.elapse now fuel ⟨ts, interval'⟩ 0 = _ :=
      Timer.elapse_eq hts' hpos hword (by omega) (by omega)
    generalize (now - ts) / interval' = q at hq hqle hqlt hfit helapse
    rw [if_neg fun h => hlt (ult_iff.mp h), helapse, Nat.zero_add]
    simp only [Option.bind_eq_bind, Option.bind_some, Option.map_some]
    generalize hbeats : (if 2 ≤ q ∧ (tm.polled.chunksize = 1 ∨ tm.polled.pollingCount = 1)
      then 2 else q) = beats
    have hbeats_pos : 1 ≤ beats := by
      rw [← hbeats]
      split <;> omega
    have hbeats_le : beats ≤ q := by
      rw [← hbeats]
      split <;> omega
    have hmul : beats * interval' ≤ q * interval' := Nat.mul_le_mul_right _ hbeats_le
    have htotal' : first + (total + beats) * interval' ≤ ts + q * interval' := by
      rw [Nat.add_mul]
      omega
    have hfit' : total + beats ≤ (total + beats) * interval' := Nat.le_mul_of_pos_right _ hpos
    have ht : wadd total beats = total + beats := wadd_of_lt (by omega)
    have hd : wadd detected 1 = detected + 1 := wadd_of_lt (by omega)
    rw [ht, hd]
    refine ⟨_, _, rfl, ⟨rfl, ?_, rfl, ?_, ?_, htotal'⟩, ?_⟩ <;> dsimp only <;> omega

/-- A task that starts takes the reading. -/
theorem BeatsInvariant.reset (h : BeatsInvariant interval first polls clock tr stats)
    {now : Nat} (hnow : clock ≤ now) :
    BeatsInvariant interval first polls now (tr.reset now) stats where
  heartbeatInterval := h.heartbeatInterval
  timestamp := le_refl _
  polls := h.polls
  detected_le_polls := h.detected_le_polls
  detected_le_total := h.detected_le_total
  total := (h.total.trans h.timestamp).trans hnow

/-- So do runs, by induction on the events. After the last poll the timestamp
is less than an interval old. -/
theorem BeatsInvariant.run {es : List BeatsEvent}
    (h : BeatsInvariant interval first polls clock tr stats) (hpos : 0 < interval)
    (hfuel : 2 ^ 64 ≤ fuel) (hpolls : polls + es.length < 2 ^ 64)
    (hsorted : (clock :: es.map BeatsEvent.now).Pairwise (· ≤ ·))
    (hword : ∀ e ∈ es, e.now + interval < 2 ^ 64) :
    ∃ tr' stats', es.foldlM (beatsStep fuel) (tr, stats) = some (tr', stats') ∧
      BeatsInvariant interval first (polls + es.countP BeatsEvent.isPoll)
        ((es.map BeatsEvent.now).getLastD clock) tr' stats' ∧
      ∀ pre tm now, es = pre ++ [.poll tm now] → now < tr'.timestamp + interval := by
  induction es generalizing tr stats polls clock with
  | nil => exact ⟨tr, stats, rfl, h, fun pre tm now hes => by simp at hes⟩
  | cons e es ih =>
      rw [List.map_cons, List.pairwise_cons] at hsorted
      have hnow : clock ≤ e.now := hsorted.1 _ List.mem_cons_self
      have hlater : ∀ e ∈ es, e.now + interval < 2 ^ 64 :=
        fun e' he' => hword e' (List.mem_cons_of_mem e he')
      rw [List.length_cons] at hpolls
      -- One event, from the lemma about its kind.
      have hstep : ∃ tr' stats', beatsStep fuel (tr, stats) e = some (tr', stats') ∧
          BeatsInvariant interval first (polls + if e.isPoll then 1 else 0) e.now tr' stats' ∧
          (e.isPoll = true → e.now < tr'.timestamp + interval) := by
        cases e with
        | poll tm now =>
            obtain ⟨tr', stats', hrun, hinv, hlt⟩ := h.poll hpos hfuel (by omega) tm hnow
              (hword _ List.mem_cons_self)
            exact ⟨tr', stats', hrun, hinv, fun _ => hlt⟩
        | reset now => exact ⟨_, _, rfl, h.reset hnow, nofun⟩
      obtain ⟨tr₁, stats₁, hrun₁, hinv₁, hlt₁⟩ := hstep
      obtain ⟨tr₂, stats₂, hrun₂, hinv₂, hlt₂⟩ := ih hinv₁ (by split <;> omega) hsorted.2 hlater
      refine ⟨tr₂, stats₂, ?_, ?_, fun pre tm now hes => ?_⟩
      · rw [List.foldlM_cons, hrun₁]
        exact hrun₂
      · rw [List.countP_cons, ← Nat.add_assoc, Nat.add_right_comm, List.map_cons,
          List.getLastD_cons]
        exact hinv₂
      · -- The bound after the last poll is that of the last event, wherever in the list it
        -- comes.
        cases pre with
        | nil =>
            obtain ⟨rfl, rfl⟩ := List.cons.inj hes
            obtain ⟨rfl, rfl⟩ := Prod.mk.inj (Option.some.inj hrun₂)
            exact hlt₁ rfl
        | cons _ pre => exact hlt₂ pre tm now (List.cons.inj hes).2

/-- What the counters say of a single worker that starts a task at `first`:
several workers would increment them without synchronisation. The loop of each
poll ends. No more heartbeats are detected than there are polls, nor than are
counted; those that are counted fit between `first` and the last reading, so
the rate that is printed is at most one. After a poll the timestamp is less
than an interval old: with the counters, unlike without them, a heartbeat that
is declined is not detected again. The cycle counter does not go back
(`hsorted`) and does not wrap within an interval after a reading (`hword`),
and there are fewer polls than a counter holds. -/
theorem beats_stats_bounded {es : List BeatsEvent}
    (hinterval : interval = Timer.initial.heartbeatInterval) (hfuel : 2 ^ 64 ≤ fuel)
    (hlen : es.length < 2 ^ 64) (hsorted : (first :: es.map BeatsEvent.now).Pairwise (· ≤ ·))
    (hword : ∀ e ∈ es, e.now + interval < 2 ^ 64) :
    ∃ tr stats, (BeatsEvent.reset first :: es).foldlM (beatsStep fuel) (.initial, ⟨0, 0, 0⟩) =
        some (tr, stats) ∧
      stats.polls = es.countP BeatsEvent.isPoll ∧
      stats.detectedHeartbeats ≤ stats.polls ∧
      stats.detectedHeartbeats ≤ stats.totalHeartbeats ∧
      first + stats.totalHeartbeats * interval ≤ (es.map BeatsEvent.now).getLastD first ∧
      ∀ pre tm now, es = pre ++ [.poll tm now] →
        tr.timestamp ≤ now ∧ now < tr.timestamp + interval := by
  have hstart : BeatsInvariant interval first 0 first (Timer.initial.reset first) ⟨0, 0, 0⟩ :=
    ⟨hinterval.symm, le_refl _, rfl, le_refl _, le_refl _, by simp [Timer.reset]⟩
  have hpos : 0 < interval := by
    rw [hinterval]
    decide
  obtain ⟨tr, stats, hrun, hinv, hlt⟩ := hstart.run hpos hfuel (by omega) hsorted hword
  refine ⟨tr, stats, hrun, by rw [hinv.polls, Nat.zero_add], hinv.detected_le_polls,
    hinv.detected_le_total, hinv.total.trans hinv.timestamp, fun pre tm now hes => ?_⟩
  have hlast : (es.map BeatsEvent.now).getLastD first = now := by
    rw [hes, List.map_append]
    exact List.getLastD_concat ..
  exact ⟨hlast ▸ hinv.timestamp, hlt pre tm now hes⟩

/-- A heartbeat that a task with the least chunk size detects two intervals
late. -/
def lateHeartbeat : List BeatsEvent := [.poll ⟨⟨0, 1, 1⟩, 4⟩ 600007]

/-- The late heartbeat is counted without the two intervals it missed being
lost, and the deadline after it lies ahead of the clock again. -/
theorem beats_stats_bounded_late : ∃ tr stats,
    (BeatsEvent.reset 0 :: lateHeartbeat).foldlM (beatsStep (2 ^ 64)) (.initial, ⟨0, 0, 0⟩) =
        some (tr, stats) ∧
      stats.detectedHeartbeats ≤ stats.totalHeartbeats ∧ 600007 < tr.timestamp + 300000 := by
  have hsorted : (0 :: lateHeartbeat.map BeatsEvent.now).Pairwise (· ≤ ·) := by
    simp [lateHeartbeat]
  obtain ⟨tr, stats, hrun, _, _, hle, _, hlt⟩ := beats_stats_bounded
    (show 300000 = Timer.initial.heartbeatInterval from rfl) (le_refl (2 ^ 64))
    (show lateHeartbeat.length < 2 ^ 64 by decide) hsorted
    (by simp [lateHeartbeat, BeatsEvent.now])
  exact ⟨tr, stats, hrun, hle, (hlt [] _ _ rfl).2⟩

end HeartbeatCompiler
