import HeartbeatCompiler.Task
import Mathlib.Algebra.Order.Floor.Semifield
import Mathlib.Data.List.Induction
import Mathlib.Data.Rat.Floor
import Mathlib.Tactic.Common

/-!
# `HeartbeatCompiler.ChunkControl`: adaptive chunk-size control

With adaptive control each worker keeps a chunk size, a heartbeat count and the extremum of
the polling counts of the current window (`Worker`). A promotion updates them
(`runtimeMemoryUpdate`), a task copies the chunk size when it starts (`taskMemoryReset`), and
the leaf loop counts it down (`TaskMemory.afterChunk`). The division and the product of
`runtime_memory_update` are those of the rationals here.

`AccRun` is a run of any number of workers and tasks. `window_exact` states what a window of
promotions does to the chunk size of a worker. The heartbeat count is a word: when it wraps,
the windows stay in step only if their size divides `2 ^ 64`.
-/

set_option autoImplicit false

namespace HeartbeatCompiler

/-! ### The extremum of a window -/

/-- `ACC_MINIMAL` or `ACC_MAXIMAL`: whether a worker keeps the least or the
greatest polling count of a window. -/
inductive AccMode
  | minimal
  | maximal
  deriving DecidableEq

namespace AccMode

/-- The value of `polling_count` at the start of a window, which no promotion
leaves in place: every count is at most the one and at least the other. -/
def sentinel : AccMode → Nat
  | minimal => 2 ^ 63 - 1
  | maximal => 0

/-- The new `polling_count` of a worker for a task with the polling count `p`.
The comparison is strict in both modes. -/
def track (mode : AccMode) (acc p : Nat) : Nat :=
  match mode with
  | minimal => if p < acc then p else acc
  | maximal => if acc < p then p else acc

/-- The order whose least element is wanted. -/
def le (mode : AccMode) (p q : Nat) : Prop :=
  match mode with
  | minimal => p ≤ q
  | maximal => q ≤ p

/-- `m` is the least, or the greatest, element of `ps`. -/
def IsExtremum (mode : AccMode) (ps : List Nat) (m : Nat) : Prop :=
  m ∈ ps ∧ ∀ p ∈ ps, mode.le m p

variable {mode : AccMode} {p q r : Nat}

/-- Two ratios that are at most each other in the order of the mode are equal.
-/
theorem le_antisymm (hpq : mode.le p q) (hqp : mode.le q p) : p = q := by
  cases mode with
  | minimal => exact Nat.le_antisymm hpq hqp
  | maximal => exact Nat.le_antisymm hqp hpq

/-- The order of the mode is transitive. -/
theorem le_trans (hpq : mode.le p q) (hqr : mode.le q r) : mode.le p r := by
  cases mode with
  | minimal => exact Nat.le_trans hpq hqr
  | maximal => exact Nat.le_trans hqr hpq

/-- The sentinel comes last among the polling counts. -/
theorem le_sentinel (hp : p < 2 ^ 63) : mode.le p mode.sentinel := by
  cases mode with
  | minimal => exact Nat.le_sub_one_of_lt hp
  | maximal => exact Nat.zero_le p

/-- `track` takes the better one of its arguments. -/
theorem track_spec (mode : AccMode) (acc p : Nat) :
    mode.le (mode.track acc p) acc ∧ mode.le (mode.track acc p) p ∧
      (mode.track acc p = acc ∨ mode.track acc p = p) := by
  cases mode with
  | minimal =>
      simp only [le, track]
      split <;> omega
  | maximal =>
      simp only [le, track]
      split <;> omega

/-- The tracked value is the sentinel or one of the polling counts, and at
most each. -/
theorem foldl_track (mode : AccMode) (acc : Nat) (ps : List Nat) :
    mode.le (ps.foldl mode.track acc) acc ∧ (∀ p ∈ ps, mode.le (ps.foldl mode.track acc) p) ∧
      (ps.foldl mode.track acc = acc ∨ ps.foldl mode.track acc ∈ ps) := by
  induction ps generalizing acc with
  | nil => exact ⟨by cases mode <;> exact Nat.le_refl _, by simp, .inl rfl⟩
  | cons p ps ih =>
      obtain ⟨hacc, hp, heq⟩ := mode.track_spec acc p
      obtain ⟨hle, hall, hmem⟩ := ih (mode.track acc p)
      rw [List.foldl_cons]
      refine ⟨le_trans hle hacc, fun q hq => ?_, ?_⟩
      · rcases List.mem_cons.mp hq with rfl | hq
        · exact le_trans hle hp
        · exact hall q hq
      · rcases hmem with hmem | hmem
        · rcases heq with heq | heq
          · exact .inl (hmem.trans heq)
          · exact .inr (by rw [hmem, heq]; exact List.mem_cons_self)
        · exact .inr (List.mem_cons_of_mem p hmem)

/-- From the sentinel on, the tracked value is the extremum: the sentinel does
not enter. -/
theorem isExtremum_foldl (mode : AccMode) {ps : List Nat} (hne : ps ≠ [])
    (hps : ∀ p ∈ ps, p < 2 ^ 63) : mode.IsExtremum ps (ps.foldl mode.track mode.sentinel) := by
  obtain ⟨_, hall, hmem⟩ := mode.foldl_track mode.sentinel ps
  refine ⟨?_, hall⟩
  rcases hmem with hmem | hmem
  · obtain ⟨p, hp⟩ := List.exists_mem_of_ne_nil ps hne
    have heq : ps.foldl mode.track mode.sentinel = p := by
      refine le_antisymm (hall p hp) ?_
      rw [hmem]
      exact le_sentinel (hps p hp)
    rw [heq]
    exact hp
  · exact hmem

end AccMode

/-! ### The memory of a worker and of a task -/

/-- What a worker thread keeps in its `thread_local` variables. The sliding
window and the target ratio are read from the environment at the start, the
other three change with the promotions. -/
structure Worker where
  heartbeatCount : Nat
  pollingCount : Nat
  chunksize : Nat
  slidingWindowSize : Nat
  targetPollingRatio : Nat
  deriving DecidableEq

/-- The memory of a task with the field that adaptive control adds, the polls
since the task was started. -/
structure AccTaskMemory extends TaskMemory where
  pollingCount : Nat
  deriving DecidableEq

namespace Worker

/-- Count a promotion of a task: one more heartbeat, and its polling count if
it is more extreme. -/
def record (mode : AccMode) (wk : Worker) (tm : AccTaskMemory) : Worker :=
  { wk with
      heartbeatCount := wadd wk.heartbeatCount 1
      pollingCount := mode.track wk.pollingCount tm.pollingCount }

/-- The product `u_t * chunksize` of the two `double` values, here exact. What
is stored is the whole part of it, or one. -/
def newChunksize (wk : Worker) : ℚ :=
  (wk.pollingCount : ℚ) / wk.targetPollingRatio * wk.chunksize

/-- The promotion that was counted last ends a window. The count is a word
that wraps around, so windows are aligned to the wrapped count. -/
def WindowEnds (wk : Worker) : Prop := wk.heartbeatCount % wk.slidingWindowSize = 0

/-- Whether an update closes the window is decided by counting. -/
instance (wk : Worker) : Decidable wk.WindowEnds := inferInstanceAs (Decidable (_ = _))

end Worker

/-- `runtime_memory_update`, which the handler calls at each heartbeat. At the
end of a window the worker forms its new chunk size and starts the next window
with the sentinel. -/
def runtimeMemoryUpdate (mode : AccMode) (wk : Worker) (tm : AccTaskMemory) : Worker :=
  let wk := wk.record mode tm
  if wk.WindowEnds then
    { wk with
        chunksize := if 0 < ⌊wk.newChunksize⌋₊ then ⌊wk.newChunksize⌋₊ else 1
        pollingCount := mode.sentinel }
  else wk

/-- `task_memory_reset` on the worker `wk`: the task takes over the chunk size
that the worker has at this time and keeps it until it is started anew. -/
def taskMemoryReset (wk : Worker) (startingLevel : Nat) : AccTaskMemory where
  startingLevel := startingLevel
  chunksize := wk.chunksize
  remainingChunksize := wk.chunksize
  pollingCount := 0

/-- What `heartbeat_polling` does to the memory of the task, whether a
heartbeat is detected or not. -/
def AccTaskMemory.polled (tm : AccTaskMemory) : AccTaskMemory :=
  { tm with pollingCount := wadd tm.pollingCount 1 }

/-- What `update_and_has_remaining_chunksize` does to the memory of the task:
a chunk that was done starts a new one, and a chunk that the end of a row cut
short leaves the rest to the next row. -/
def TaskMemory.afterChunk (tm : TaskMemory) (iterations chunksize : Nat) : TaskMemory :=
  if iterations = chunksize then { tm with remainingChunksize := tm.chunksize }
  else { tm with remainingChunksize := wsub tm.remainingChunksize iterations }

/-- The program of the leaf loop does the same. -/
theorem updateAndHasRemainingChunksize_eq (n : Nest) (t : Path) (iterations chunksize : Nat) :
    n.updateAndHasRemainingChunksize t iterations chunksize = (do
      ForkJoin.Prog.modify (S := n.sig) (Loc.tmem t)
        fun tm : TaskMemory => tm.afterChunk iterations chunksize
      pure (decide (iterations ≠ chunksize))) := rfl

/-! ### One worker -/

section Worker

variable {mode : AccMode} {wk : Worker}

/-- The window size and the ratio stay. -/
@[simp] theorem runtimeMemoryUpdate_fixed (mode : AccMode) (wk : Worker) (tm : AccTaskMemory) :
    (runtimeMemoryUpdate mode wk tm).slidingWindowSize = wk.slidingWindowSize ∧
      (runtimeMemoryUpdate mode wk tm).targetPollingRatio = wk.targetPollingRatio ∧
      (runtimeMemoryUpdate mode wk tm).heartbeatCount = wadd wk.heartbeatCount 1 := by
  simp only [runtimeMemoryUpdate]
  split <;> exact ⟨rfl, rfl, rfl⟩

/-- A promotion inside a window counts and tracks. -/
theorem runtimeMemoryUpdate_inside {tm : AccTaskMemory}
    (h : ¬ (wk.record mode tm).WindowEnds) :
    runtimeMemoryUpdate mode wk tm = wk.record mode tm := if_neg h

/-- The chunk size at the end of a window. -/
theorem runtimeMemoryUpdate_end {tm : AccTaskMemory} (h : (wk.record mode tm).WindowEnds) :
    (runtimeMemoryUpdate mode wk tm).pollingCount = mode.sentinel ∧
      (runtimeMemoryUpdate mode wk tm).chunksize = max 1
        (wk.chunksize * mode.track wk.pollingCount tm.pollingCount / wk.targetPollingRatio) := by
  have hfloor : ⌊(wk.record mode tm).newChunksize⌋₊ =
      wk.chunksize * mode.track wk.pollingCount tm.pollingCount / wk.targetPollingRatio := by
    rw [← Nat.floor_div_eq_div (K := ℚ), Nat.cast_mul]
    refine congrArg Nat.floor ?_
    rw [Worker.newChunksize, Worker.record]
    ring
  simp only [runtimeMemoryUpdate, if_pos h, hfloor, true_and]
  split <;> omega

/-- The heartbeat count after some promotions. -/
theorem heartbeatCount_foldl (mode : AccMode) (wk : Worker) (tms : List AccTaskMemory)
    (h : wk.heartbeatCount < 2 ^ 64) :
    (tms.foldl (runtimeMemoryUpdate mode) wk).heartbeatCount =
      (wk.heartbeatCount + tms.length) % 2 ^ 64 := by
  induction tms using List.reverseRecOn with
  | nil => exact (Nat.mod_eq_of_lt h).symm
  | append_singleton tms tm ih =>
      rw [List.foldl_append, List.foldl_cons, List.foldl_nil,
        (runtimeMemoryUpdate_fixed mode _ tm).2.2, ih, wadd, List.length_append,
        List.length_singleton]
      omega

/-- A run of updates changes neither the size of the window nor the target
ratio: both are set when the worker is created and only read afterwards. -/
theorem foldl_fixed (mode : AccMode) (wk : Worker) (tms : List AccTaskMemory) :
    (tms.foldl (runtimeMemoryUpdate mode) wk).slidingWindowSize = wk.slidingWindowSize ∧
      (tms.foldl (runtimeMemoryUpdate mode) wk).targetPollingRatio = wk.targetPollingRatio := by
  induction tms using List.reverseRecOn with
  | nil => exact ⟨rfl, rfl⟩
  | append_singleton tms tm ih =>
      rw [List.foldl_append, List.foldl_cons, List.foldl_nil]
      have hfixed := runtimeMemoryUpdate_fixed mode
        (tms.foldl (runtimeMemoryUpdate mode) wk) tm
      exact ⟨hfixed.1.trans ih.1, hfixed.2.1.trans ih.2⟩

/-- `count` promotions later the count of a worker is a multiple of the window
size exactly if it is without the wrap. This is what the wrap of the count may
spoil. -/
def InStep (wk : Worker) (count : Nat) : Prop :=
  ∀ c ≤ count, (wk.heartbeatCount + c) % 2 ^ 64 % wk.slidingWindowSize =
    c % wk.slidingWindowSize

/-- Inside a window the chunk size stays and the extremum is tracked. -/
theorem foldl_inside (mode : AccMode) (tms : List AccTaskMemory)
    (hcount : wk.heartbeatCount < 2 ^ 64)
    (hstep : InStep wk tms.length) (hlen : tms.length < wk.slidingWindowSize) :
    (tms.foldl (runtimeMemoryUpdate mode) wk).chunksize = wk.chunksize ∧
      (tms.foldl (runtimeMemoryUpdate mode) wk).pollingCount =
        (tms.map (·.pollingCount)).foldl mode.track wk.pollingCount := by
  induction tms using List.reverseRecOn with
  | nil => exact ⟨rfl, rfl⟩
  | append_singleton tms tm ih =>
      rw [List.length_append, List.length_singleton] at hstep hlen
      obtain ⟨hchunk, hpoll⟩ := ih (fun c hc => hstep c (by omega)) (by omega)
      have hinside : ¬ ((tms.foldl (runtimeMemoryUpdate mode) wk).record mode tm).WindowEnds := by
        have hmod := hstep (tms.length + 1) (le_refl _)
        rw [Nat.mod_eq_of_lt hlen] at hmod
        simp only [Worker.WindowEnds, Worker.record, heartbeatCount_foldl mode wk tms hcount,
          foldl_fixed, wadd, Nat.mod_add_mod, Nat.add_assoc, hmod]
        exact Nat.succ_ne_zero _
      rw [List.foldl_append, List.foldl_cons, List.foldl_nil, List.map_append, List.foldl_append,
        runtimeMemoryUpdate_inside hinside]
      exact ⟨hchunk, congrArg (mode.track · tm.pollingCount) hpoll⟩

/-- A whole window from the sentinel on. The promotions but the last leave the
chunk size alone, and the last one finds the extremum of the polling counts of
all of them. -/
theorem foldl_window {tms : List AccTaskMemory} (hcount : wk.heartbeatCount < 2 ^ 64)
    (hpoll : wk.pollingCount = mode.sentinel) (hstep : InStep wk tms.length)
    (hpos : 0 < wk.slidingWindowSize) (hlen : tms.length = wk.slidingWindowSize)
    (hps : ∀ tm ∈ tms, tm.pollingCount < 2 ^ 63) :
    (tms.foldl (runtimeMemoryUpdate mode) wk).pollingCount = mode.sentinel ∧
      ∃ m, mode.IsExtremum (tms.map (·.pollingCount)) m ∧
        (tms.foldl (runtimeMemoryUpdate mode) wk).chunksize =
          max 1 (wk.chunksize * m / wk.targetPollingRatio) := by
  -- The last promotion of the window is the one that ends it.
  obtain ⟨front, tm, rfl⟩ : ∃ front tm, tms = front ++ [tm] := by
    rcases List.eq_nil_or_concat tms with rfl | ⟨front, tm, htms⟩
    · simp only [List.length_nil] at hlen
      omega
    · exact ⟨front, tm, by rw [htms, List.concat_eq_append]⟩
  rw [List.length_append, List.length_singleton] at hstep hlen
  obtain ⟨hchunk, htrack⟩ := foldl_inside mode front hcount
    (fun c hc => hstep c (by omega)) (by omega)
  have hend : ((front.foldl (runtimeMemoryUpdate mode) wk).record mode tm).WindowEnds := by
    have hmod := hstep (front.length + 1) (le_refl _)
    rw [hlen, Nat.mod_self] at hmod
    simpa only [Worker.WindowEnds, Worker.record, heartbeatCount_foldl mode wk front hcount,
      foldl_fixed, wadd, Nat.mod_add_mod, Nat.add_assoc, hlen] using hmod
  obtain ⟨hreset, hnew⟩ := runtimeMemoryUpdate_end hend
  rw [List.foldl_append, List.foldl_cons, List.foldl_nil]
  refine ⟨hreset, _, mode.isExtremum_foldl (by simp) (List.forall_mem_map.mpr hps), ?_⟩
  rw [hnew, hchunk, htrack, hpoll, (foldl_fixed mode wk front).2, List.map_append,
    List.foldl_append]
  rfl

/-- Windows that start at a multiple of their size are in step as long as the
count does not wrap, and for ever if their size divides `2 ^ 64`. -/
theorem inStep_of_count (count : Nat) {j : Nat}
    (hcount : wk.heartbeatCount = j * wk.slidingWindowSize % 2 ^ 64)
    (hfew : j * wk.slidingWindowSize + count < 2 ^ 64 ∨ wk.slidingWindowSize ∣ 2 ^ 64) :
    InStep wk count := by
  intro c hc
  have hmod : (j * wk.slidingWindowSize + c) % wk.slidingWindowSize = c % wk.slidingWindowSize :=
    Nat.mul_add_mod_self_right j wk.slidingWindowSize c
  rw [hcount, Nat.mod_add_mod]
  rcases hfew with hfew | hdvd
  · rw [Nat.mod_eq_of_lt (b := 2 ^ 64) (by omega), hmod]
  · rw [Nat.mod_mod_of_dvd _ hdvd, hmod]

/-- After any number of windows the tracked value is the sentinel again, so
that every window starts as the first one did. -/
theorem foldl_windows (mode : AccMode) (j : Nat) {tms : List AccTaskMemory}
    (hcount : wk.heartbeatCount = 0)
    (hpoll : wk.pollingCount = mode.sentinel) (hpos : 0 < wk.slidingWindowSize)
    (hlen : tms.length = j * wk.slidingWindowSize)
    (hfew : tms.length < 2 ^ 64 ∨ wk.slidingWindowSize ∣ 2 ^ 64)
    (hps : ∀ tm ∈ tms, tm.pollingCount < 2 ^ 63) :
    (tms.foldl (runtimeMemoryUpdate mode) wk).pollingCount = mode.sentinel := by
  induction j generalizing tms with
  | zero =>
      obtain rfl : tms = [] := List.eq_nil_of_length_eq_zero (by omega)
      exact hpoll
  | succ j ih =>
      -- The last window starts after `j` others.
      obtain ⟨front, last, rfl, hfront⟩ : ∃ front last, tms = front ++ last ∧
          front.length = j * wk.slidingWindowSize :=
        ⟨tms.take (j * wk.slidingWindowSize), tms.drop (j * wk.slidingWindowSize),
          (List.take_append_drop _ tms).symm, by
            rw [List.length_take, hlen]
            exact Nat.min_eq_left (Nat.mul_le_mul_right _ (Nat.le_succ j))⟩
      rw [List.length_append, Nat.succ_mul] at hlen
      rw [List.length_append] at hfew
      have hlast : last.length = wk.slidingWindowSize := by omega
      have hfixed := (foldl_fixed mode wk front).1
      have hcount' := heartbeatCount_foldl mode wk front (by omega)
      rw [hcount, Nat.zero_add, hfront] at hcount'
      rw [List.foldl_append]
      refine (foldl_window (hcount' ▸ Nat.mod_lt _ (by decide)) (ih hfront ?_ ?_)
        (inStep_of_count last.length (j := j) (by rw [hcount', hfixed]) (by rw [hfixed]; omega))
        (by rw [hfixed]; exact hpos) (by rw [hfixed]; exact hlast) ?_).1
      · exact hfew.imp_left fun h => by omega
      · exact fun tm htm => hps tm (List.mem_append_left last htm)
      · exact fun tm htm => hps tm (List.mem_append_right front htm)

end Worker

/-! ### Workers and tasks -/

/-- What happens in a run of the workers `W` and the tasks `T`. A promotion is
recorded with the memory that the task has then. -/
inductive AccEvent (W T : Type)
  | poll (t : T)
  | promotion (k : W) (tm : AccTaskMemory)
  | reset (k : W) (t : T)
  | chunk (t : T)

/-- The memories of the workers, and of the tasks that have been started. A
task is not bound to a worker, since it may be stolen. -/
structure AccState (W T : Type) where
  worker : W → Worker
  tmem : T → Option AccTaskMemory

/-- The memories of the tasks whose promotion the worker `k` handled. -/
def promotionsOf {W T : Type} [DecidableEq W] (k : W) (es : List (AccEvent W T)) :
    List AccTaskMemory :=
  es.filterMap fun e =>
    match e with
    | .promotion k' tm => if k' = k then some tm else none
    | _ => none

/-- The iterations of the chunk that starts at `i`: `high - low` of the slice,
where `high` is cut at the bound. -/
def chunkIterations (tm : TaskMemory) (i maxIter : Nat) : Nat :=
  wsub (umin (wadd i tm.remainingChunksize) maxIter) i

section Run

variable {W T : Type} [DecidableEq W] [DecidableEq T]

/-- One step: any task polls, is promoted by any worker, is started by any
worker or finishes a chunk of its leaf loop. The worker forms its new chunk
size at the end of a window only, and there it has to fit into a word: the
conversion of a larger product is undefined. -/
inductive AccStep (mode : AccMode) : AccState W T → AccEvent W T → AccState W T → Prop
  | poll {s : AccState W T} {t : T} {tm : AccTaskMemory} : s.tmem t = some tm →
      AccStep mode s (.poll t) { s with tmem := Function.update s.tmem t (some tm.polled) }
  | promotion {s : AccState W T} {t : T} {tm : AccTaskMemory} (k : W) : s.tmem t = some tm →
      tm.pollingCount < 2 ^ 63 →
      (((s.worker k).record mode tm).WindowEnds →
        ((s.worker k).record mode tm).newChunksize < 2 ^ 64) →
      AccStep mode s (.promotion k tm)
        { s with
            worker := Function.update s.worker k (runtimeMemoryUpdate mode (s.worker k) tm) }
  | reset {s : AccState W T} (k : W) (t : T) (startingLevel : Nat) :
      AccStep mode s (.reset k t)
        { s with
            tmem := Function.update s.tmem t (some (taskMemoryReset (s.worker k) startingLevel)) }
  | chunk {s : AccState W T} {t : T} {tm : AccTaskMemory} {i maxIter : Nat} :
      s.tmem t = some tm → maxIter < 2 ^ 64 → ult i maxIter = true →
      AccStep mode s (.chunk t)
        { s with
            tmem := Function.update s.tmem t (some
              { tm with
                  toTaskMemory := tm.afterChunk (chunkIterations tm.toTaskMemory i maxIter)
                    tm.remainingChunksize }) }

/-- A run, in any order of polls, promotions, starts and chunks, with what
happens in it. -/
inductive AccRun (mode : AccMode) : AccState W T → List (AccEvent W T) → AccState W T → Prop
  | nil (s : AccState W T) : AccRun mode s [] s
  | cons {s s' s'' : AccState W T} {e : AccEvent W T} {es : List (AccEvent W T)} :
      AccStep mode s e s' → AccRun mode s' es s'' → AccRun mode s (e :: es) s''

/-- The state before the first task is started. The bounds on the chunk size,
the window size and the ratio are those of sensible settings; the source does
not check them:

- `heartbeatCount`, `pollingCount`: the counters have their initial values;
- `chunksize_pos`, `chunksize_lt`: the static chunk size is a positive word;
- `window_pos`, `ratio_pos`: what is read from the environment is positive;
- `tmem`: no task has been started. -/
structure AccState.Initial (mode : AccMode) (s : AccState W T) : Prop where
  heartbeatCount : ∀ k, (s.worker k).heartbeatCount = 0
  pollingCount : ∀ k, (s.worker k).pollingCount = mode.sentinel
  chunksize_pos : ∀ k, 1 ≤ (s.worker k).chunksize
  chunksize_lt : ∀ k, (s.worker k).chunksize < 2 ^ 64
  window_pos : ∀ k, 1 ≤ (s.worker k).slidingWindowSize
  ratio_pos : ∀ k, 1 ≤ (s.worker k).targetPollingRatio
  tmem : ∀ t, s.tmem t = none

variable {mode : AccMode} {s s' s₁ s₂ : AccState W T}

/-- One step updates each worker with the promotions it handled. -/
theorem AccStep.worker {e : AccEvent W T} (h : AccStep mode s e s') (k : W) :
    s'.worker k = (promotionsOf k [e]).foldl (runtimeMemoryUpdate mode) (s.worker k) ∧
      ∀ tm ∈ promotionsOf k [e], tm.pollingCount < 2 ^ 63 := by
  cases h with
  | poll _ => exact ⟨rfl, by simp [promotionsOf]⟩
  | @promotion _ tm k' _ hp _ =>
      by_cases hk : k' = k
      · subst hk
        simpa [promotionsOf] using hp
      · simp [promotionsOf, hk, Function.update_of_ne (Ne.symm hk)]
  | reset _ _ _ => exact ⟨rfl, by simp [promotionsOf]⟩
  | chunk _ _ _ => exact ⟨rfl, by simp [promotionsOf]⟩

/-- So does a run. -/
theorem AccRun.worker {es : List (AccEvent W T)} (h : AccRun mode s es s') (k : W) :
    s'.worker k = (promotionsOf k es).foldl (runtimeMemoryUpdate mode) (s.worker k) ∧
      ∀ tm ∈ promotionsOf k es, tm.pollingCount < 2 ^ 63 := by
  induction h with
  | nil s => exact ⟨rfl, by simp [promotionsOf]⟩
  | @cons s s' s'' e es hstep _ ih =>
      obtain ⟨hworker, hps⟩ := hstep.worker k
      have hcons : promotionsOf k (e :: es) = promotionsOf k [e] ++ promotionsOf k es := by
        rw [promotionsOf, promotionsOf, promotionsOf, ← List.filterMap_append,
          List.singleton_append]
      rw [hcons, List.foldl_append, ← hworker]
      refine ⟨ih.1, fun tm htm => ?_⟩
      rcases List.mem_append.mp htm with htm | htm
      · exact hps tm htm
      · exact ih.2 tm htm

/-- A run goes on where another one stopped. -/
theorem AccRun.append {es₁ es₂ : List (AccEvent W T)} (h₁ : AccRun mode s es₁ s₁)
    (h₂ : AccRun mode s₁ es₂ s₂) : AccRun mode s (es₁ ++ es₂) s₂ := by
  induction h₁ with
  | nil _ => exact h₂
  | cons hstep _ ih => exact .cons hstep (ih h₂)

/-- The chunk sizes are positive, and a task never has more than its chunk
left. So a chunk always makes progress. -/
structure ChunksPositive (s : AccState W T) : Prop where
  worker : ∀ k, 1 ≤ (s.worker k).chunksize ∧ (s.worker k).chunksize < 2 ^ 64
  tmem : ∀ t tm, s.tmem t = some tm → 1 ≤ tm.remainingChunksize ∧
    tm.remainingChunksize ≤ tm.chunksize ∧ tm.chunksize < 2 ^ 64

/-- A chunk has at most the iterations that are left. -/
theorem chunkIterations_le {tm : TaskMemory} {i maxIter : Nat}
    (hsize : tm.remainingChunksize < 2 ^ 64) (hmax : maxIter < 2 ^ 64)
    (hi : ult i maxIter = true) : chunkIterations tm i maxIter ≤ tm.remainingChunksize := by
  have hlt := ult_iff.mp hi
  simp only [chunkIterations, umin_eq, wadd, wsub]
  omega

/-- What is left of a chunk after a part of it. -/
theorem afterChunk_bounds {tm : TaskMemory} {iterations : Nat} (hpos : 1 ≤ tm.remainingChunksize)
    (hle : tm.remainingChunksize ≤ tm.chunksize) (hlt : tm.chunksize < 2 ^ 64)
    (hit : iterations ≤ tm.remainingChunksize) :
    1 ≤ (tm.afterChunk iterations tm.remainingChunksize).remainingChunksize ∧
      (tm.afterChunk iterations tm.remainingChunksize).remainingChunksize ≤ tm.chunksize ∧
      (tm.afterChunk iterations tm.remainingChunksize).chunksize = tm.chunksize := by
  unfold TaskMemory.afterChunk
  split
  · exact ⟨Nat.le_trans hpos hle, le_refl _, rfl⟩
  · simp only [wsub_of_le hit (Nat.lt_of_le_of_lt hle hlt)]
    exact ⟨by omega, by omega, trivial⟩

/-- A promotion keeps the chunk size of the worker positive. -/
theorem runtimeMemoryUpdate_chunksize {wk : Worker} {tm : AccTaskMemory}
    (h : 1 ≤ wk.chunksize ∧ wk.chunksize < 2 ^ 64)
    (hfit : (wk.record mode tm).WindowEnds → (wk.record mode tm).newChunksize < 2 ^ 64) :
    1 ≤ (runtimeMemoryUpdate mode wk tm).chunksize ∧
      (runtimeMemoryUpdate mode wk tm).chunksize < 2 ^ 64 := by
  simp only [runtimeMemoryUpdate]
  split
  · rename_i hend
    have hfloor : ⌊(wk.record mode tm).newChunksize⌋₊ < 2 ^ 64 :=
      (Nat.floor_lt' (by decide)).mpr (by exact_mod_cast hfit hend)
    dsimp only
    split <;> omega
  · exact h

/-- What holds of the memories of all tasks, after one of them was replaced. -/
theorem forall_tmem_update {P : AccTaskMemory → Prop} {f : T → Option AccTaskMemory} {t : T}
    {tm : AccTaskMemory} (hf : ∀ t tm, f t = some tm → P tm) (htm : P tm) :
    ∀ t' tm', Function.update f t (some tm) t' = some tm' → P tm' := by
  refine (Function.forall_update_iff f fun _ v => ∀ tm', v = some tm' → P tm').mpr ⟨?_, ?_⟩
  · rintro _ ⟨⟩
    exact htm
  · exact fun t' _ => hf t'

/-- A step keeps the chunk sizes positive. -/
theorem AccStep.chunksPositive {e : AccEvent W T} (h : AccStep mode s e s')
    (hs : ChunksPositive s) : ChunksPositive s' := by
  cases h with
  | @poll t tm htm => exact ⟨hs.worker, forall_tmem_update hs.tmem (hs.tmem t tm htm)⟩
  | @promotion t tm k _ _ hfit =>
      refine ⟨?_, hs.tmem⟩
      exact (Function.forall_update_iff s.worker
        fun _ wk => 1 ≤ wk.chunksize ∧ wk.chunksize < 2 ^ 64).mpr
        ⟨runtimeMemoryUpdate_chunksize (hs.worker k) hfit, fun k' _ => hs.worker k'⟩
  | reset k t startingLevel =>
      exact ⟨hs.worker, forall_tmem_update hs.tmem
        ⟨(hs.worker k).1, le_refl _, (hs.worker k).2⟩⟩
  | @chunk t tm i maxIter htm hmax hi =>
      obtain ⟨hpos, hle, hlt⟩ := hs.tmem t tm htm
      obtain ⟨hpos', hle', heq⟩ := afterChunk_bounds hpos hle hlt
        (chunkIterations_le (by omega) hmax hi)
      exact ⟨hs.worker, forall_tmem_update hs.tmem ⟨hpos', heq.symm ▸ hle', heq.symm ▸ hlt⟩⟩

/-- So does a run. -/
theorem AccRun.chunksPositive {es : List (AccEvent W T)} (h : AccRun mode s es s')
    (hs : ChunksPositive s) : ChunksPositive s' := by
  induction h with
  | nil s => exact hs
  | cons hstep _ ih => exact ih (hstep.chunksPositive hs)

omit [DecidableEq W] [DecidableEq T] in
/-- An initial state of the runtime has only positive chunk sizes, so that the
invariant of the run holds at its start. -/
theorem AccState.Initial.chunksPositive (h : s.Initial mode) : ChunksPositive s where
  worker k := ⟨h.chunksize_pos k, h.chunksize_lt k⟩
  tmem t tm htm := by rw [h.tmem t] at htm; cases htm

/-- Chunk-size control over every run. As long as a worker handles fewer than
`2 ^ 64` promotions, or if its window size divides `2 ^ 64`, its chunk size
changes at the end of a window only, and then to what the extremum of this
window gives. The chunk of a task is never empty. -/
theorem window_exact {es₁ es₂ : List (AccEvent W T)} (hs : s.Initial mode)
    (h₁ : AccRun mode s es₁ s₁) (h₂ : AccRun mode s₁ es₂ s₂) :
    (∀ k j, (promotionsOf k es₁).length = j * (s.worker k).slidingWindowSize →
      ((promotionsOf k es₁).length + (promotionsOf k es₂).length < 2 ^ 64 ∨
        (s.worker k).slidingWindowSize ∣ 2 ^ 64) →
      ((promotionsOf k es₂).length < (s.worker k).slidingWindowSize →
        (s₂.worker k).chunksize = (s₁.worker k).chunksize) ∧
      ((promotionsOf k es₂).length = (s.worker k).slidingWindowSize →
        ∃ m, mode.IsExtremum ((promotionsOf k es₂).map (·.pollingCount)) m ∧
          (s₂.worker k).chunksize =
            max 1 ((s₁.worker k).chunksize * m / (s.worker k).targetPollingRatio))) ∧
    ∀ t tm, s₂.tmem t = some tm →
      1 ≤ tm.remainingChunksize ∧ tm.remainingChunksize ≤ tm.chunksize := by
  refine ⟨fun k j hlen hfew => ?_, fun t tm htm => ?_⟩
  · obtain ⟨hw₁, hp₁⟩ := h₁.worker k
    obtain ⟨hw₂, hp₂⟩ := h₂.worker k
    obtain ⟨hsize, hratio⟩ := foldl_fixed mode (s.worker k) (promotionsOf k es₁)
    -- The first run ends at a window's end: its number of promotions is a multiple of the size,
    -- and the sentinel is back in place.
    have hcount := heartbeatCount_foldl mode (s.worker k) (promotionsOf k es₁)
      (by rw [hs.heartbeatCount k]; decide)
    rw [hs.heartbeatCount k, Nat.zero_add, hlen, ← hsize, ← hw₁] at hcount
    have hpoll := foldl_windows mode j (hs.heartbeatCount k) (hs.pollingCount k)
      (hs.window_pos k) hlen (hfew.imp_left fun h => by omega) hp₁
    rw [← hw₁] at hpoll hsize hratio
    have hlt : (s₁.worker k).heartbeatCount < 2 ^ 64 := hcount ▸ Nat.mod_lt _ (by decide)
    -- In the second run the wrapping count and the true one agree modulo the size, by either of
    -- the two assumptions.
    have hstep := inStep_of_count (promotionsOf k es₂).length hcount
      (by rwa [hsize, ← hlen])
    rw [hw₂, ← hsize, ← hratio]
    refine ⟨fun hin => (foldl_inside mode _ hlt hstep hin).1, fun hend => ?_⟩
    exact (foldl_window hlt hpoll hstep (by rw [hsize]; exact hs.window_pos k) hend hp₂).2
  · have hpositive := h₂.chunksPositive (h₁.chunksPositive hs.chunksPositive)
    obtain ⟨hpos, hle, _⟩ := hpositive.tmem t tm htm
    exact ⟨hpos, hle⟩

end Run

/-! ### The heartbeat count wraps -/

/-- A worker with the window size `size`, before any task. -/
def firstState (size : Nat) : AccState Unit Unit where
  worker _ := ⟨0, AccMode.maximal.sentinel, 8, size, 2⟩
  tmem _ := none

/-- The worker of `firstState`, with any size of window from 1 on, is an
initial state. -/
theorem firstState_initial {size : Nat} (h : 1 ≤ size) :
    (firstState size).Initial .maximal where
  heartbeatCount _ := rfl
  pollingCount _ := rfl
  chunksize_pos _ := show 1 ≤ 8 by decide
  chunksize_lt _ := show 8 < 2 ^ 64 by decide
  window_pos _ := h
  ratio_pos _ := show 1 ≤ 2 by decide
  tmem _ := rfl

/-- A task starts, polls `p` times and is promoted. -/
def taskCycle (p : Nat) : List (AccEvent Unit Unit) :=
  .reset () () :: (List.replicate p (.poll ()) ++ [.promotion () ⟨⟨0, 8, 8⟩, p⟩])

/-- A worker whose tasks have polled twice keeps its chunk size. -/
structure Steady (wk : Worker) : Prop where
  chunksize : wk.chunksize = 8
  ratio : wk.targetPollingRatio = 2
  pollingCount : wk.pollingCount ≤ 2

/-- The run of a few polls. -/
theorem polls_run (p : Nat) : ∀ {s : AccState Unit Unit} {tm : AccTaskMemory},
    s.tmem () = some tm → tm.pollingCount + p < 2 ^ 64 → ∃ s',
      AccRun .maximal s (List.replicate p (.poll ())) s' ∧ s'.worker = s.worker ∧
        s'.tmem () = some { tm with pollingCount := tm.pollingCount + p } := by
  induction p with
  | zero => exact fun htm _ => ⟨_, .nil _, rfl, htm⟩
  | succ p ih =>
      intro s tm htm hlt
      have hpolled : tm.polled.pollingCount = tm.pollingCount + 1 := wadd_of_lt (by omega)
      obtain ⟨s', hrun, hworker, htm'⟩ := ih
        (s := { s with tmem := Function.update s.tmem () (some tm.polled) })
        (Function.update_self () _ s.tmem) (by omega)
      refine ⟨s', .cons (.poll htm) hrun, hworker, ?_⟩
      rw [htm', hpolled, Nat.add_assoc, Nat.add_comm 1 p]
      rfl

/-- The run of a cycle, from a worker that keeps its chunk size. The worker is
updated once, with the polls of this cycle. -/
theorem cycle_run {s : AccState Unit Unit} {p : Nat} (hs : Steady (s.worker ()))
    (hp : p < 2 ^ 32) : ∃ s', AccRun .maximal s (taskCycle p) s' ∧
      s'.worker () = runtimeMemoryUpdate .maximal (s.worker ()) ⟨⟨0, 8, 8⟩, p⟩ := by
  obtain ⟨s', hrun, hworker, htm⟩ := polls_run p
    (s := { s with tmem := Function.update s.tmem () (some (taskMemoryReset (s.worker ()) 0)) })
    (Function.update_self () _ s.tmem) (by simp only [taskMemoryReset]; omega)
  have htm' : s'.tmem () = some ⟨⟨0, 8, 8⟩, p⟩ := by
    simp only [htm, taskMemoryReset, hs.chunksize, Nat.zero_add]
  have hworker' : s'.worker () = s.worker () := congrFun hworker ()
  refine ⟨_, .cons (.reset () () 0)
    (hrun.append (.cons (.promotion () htm' ?_ fun _ => ?_) (.nil _))), ?_⟩
  · dsimp only
    omega
  · -- The product is four times the tracked count.
    have htrack : AccMode.maximal.track (s.worker ()).pollingCount p ≤ 2 ^ 32 := by
      have := hs.pollingCount
      simp only [AccMode.track]
      split <;> omega
    have hle : ((AccMode.maximal.track (s.worker ()).pollingCount p : Nat) : ℚ) ≤ 2 ^ 32 := by
      exact_mod_cast htrack
    rw [hworker', Worker.newChunksize, Worker.record, hs.ratio, hs.chunksize]
    push_cast
    linarith
  · rw [← hworker']
    exact Function.update_self () _ s'.worker

/-- Two polls are what the ratio asks for. -/
theorem Steady.update {wk : Worker} (h : Steady wk) :
    Steady (runtimeMemoryUpdate .maximal wk ⟨⟨0, 8, 8⟩, 2⟩) := by
  have htrack : AccMode.maximal.track wk.pollingCount 2 = 2 := by
    have := h.pollingCount
    simp only [AccMode.track]
    split <;> omega
  have hratio := (runtimeMemoryUpdate_fixed .maximal wk ⟨⟨0, 8, 8⟩, 2⟩).2.1.trans h.ratio
  by_cases hend : (wk.record .maximal ⟨⟨0, 8, 8⟩, 2⟩).WindowEnds
  · obtain ⟨hpoll, hchunk⟩ := runtimeMemoryUpdate_end hend
    rw [h.chunksize, h.ratio] at hchunk
    simp only [htrack] at hchunk
    exact ⟨hchunk, hratio, hpoll ▸ Nat.zero_le 2⟩
  · refine ⟨?_, hratio, ?_⟩ <;> rw [runtimeMemoryUpdate_inside hend]
    · exact h.chunksize
    · exact htrack.le

/-- Any number of cycles with two polls. -/
theorem cycles_run (n : Nat) : ∀ {s : AccState Unit Unit}, Steady (s.worker ()) → ∃ s',
    AccRun .maximal s (List.replicate n (taskCycle 2)).flatten s' ∧ Steady (s'.worker ()) := by
  induction n with
  | zero => exact fun hs => ⟨_, .nil _, hs⟩
  | succ n ih =>
      intro s hs
      obtain ⟨s₁, h₁, hw₁⟩ := cycle_run (p := 2) hs (by decide)
      obtain ⟨s₂, h₂, hs₂⟩ := ih (hw₁ ▸ hs.update)
      refine ⟨s₂, ?_, hs₂⟩
      rw [List.replicate_succ, List.flatten_cons]
      exact h₁.append h₂

/-- The promotion of a cycle. -/
theorem promotionsOf_taskCycle (p : Nat) : promotionsOf () (taskCycle p) = [⟨⟨0, 8, 8⟩, p⟩] := by
  have hpolls : promotionsOf () (List.replicate p (.poll () : AccEvent Unit Unit)) = [] := by
    simp [promotionsOf]
  rw [taskCycle, promotionsOf, List.filterMap_cons_none rfl, List.filterMap_append]
  exact congrArg (· ++ _) hpolls

/-- A run of `n` whole task cycles has `n` promotions, whatever the number of
polls of a cycle. -/
theorem promotionsOf_cycles (n p : Nat) :
    (promotionsOf () (List.replicate n (taskCycle p)).flatten).length = n := by
  induction n with
  | zero => rfl
  | succ n ih =>
      rw [List.replicate_succ, List.flatten_cons, promotionsOf, List.filterMap_append,
        List.length_append]
      exact (congrArg₂ (· + ·) (congrArg List.length (promotionsOf_taskCycle p)) ih).trans
        (Nat.add_comm 1 n)

/-- With windows of three promotions the count wraps inside a window. After `2
^ 64 - 1` promotions, a multiple of three, the first promotion of the next
window already changes the chunk size. -/
theorem windows_wrap : ∃ s₁ s₂,
    AccRun .maximal (firstState 3) (List.replicate (2 ^ 64 - 1) (taskCycle 2)).flatten s₁ ∧
      AccRun .maximal s₁ (taskCycle 4) s₂ ∧
      (promotionsOf () (List.replicate (2 ^ 64 - 1) (taskCycle 2)).flatten).length =
        (2 ^ 64 - 1) / 3 * 3 ∧
      (promotionsOf () (taskCycle 4)).length < 3 ∧
      (s₂.worker ()).chunksize ≠ (s₁.worker ()).chunksize := by
  obtain ⟨s₁, h₁, hs₁⟩ := cycles_run (2 ^ 64 - 1) (s := firstState 3)
    ⟨rfl, rfl, Nat.zero_le 2⟩
  obtain ⟨s₂, h₂, hw₂⟩ := cycle_run (p := 4) hs₁ (by decide)
  have hlen := promotionsOf_cycles (2 ^ 64 - 1) 2
  refine ⟨s₁, s₂, h₁, h₂, hlen.trans (by decide), by rw [promotionsOf_taskCycle]; decide, ?_⟩
  have hcount : (s₁.worker ()).heartbeatCount = 2 ^ 64 - 1 := by
    rw [(h₁.worker ()).1, heartbeatCount_foldl _ _ _ (show 0 < 2 ^ 64 by decide), hlen]
    rfl
  -- The next promotion wraps the count to zero, which every size divides.
  have hend : ((s₁.worker ()).record .maximal ⟨⟨0, 8, 8⟩, 4⟩).WindowEnds := by
    simp only [Worker.WindowEnds, Worker.record, hcount, wadd]
    exact Nat.zero_mod _
  have htrack : AccMode.maximal.track (s₁.worker ()).pollingCount 4 = 4 := by
    have := hs₁.pollingCount
    simp only [AccMode.track]
    split <;> omega
  rw [hw₂, (runtimeMemoryUpdate_end hend).2, hs₁.chunksize, hs₁.ratio]
  simp only [htrack]
  decide

/-- Windows of one promotion: a task that polled four times doubles the chunk
size. -/
theorem window_exact_first : ∃ s, AccRun .maximal (firstState 1) (taskCycle 4) s ∧
    (s.worker ()).chunksize = 16 := by
  obtain ⟨s, h, _⟩ := cycle_run (s := firstState 1) (p := 4) ⟨rfl, rfl, Nat.zero_le 2⟩
    (by decide)
  obtain ⟨m, hm, hchunk⟩ := ((window_exact (firstState_initial (le_refl 1)) (.nil _) h).1 () 0
    rfl (.inr (one_dvd _))).2 (congrArg List.length (promotionsOf_taskCycle 4))
  rw [promotionsOf_taskCycle] at hm
  obtain rfl : m = 4 := List.mem_singleton.mp hm.1
  exact ⟨s, h, hchunk⟩

end HeartbeatCompiler
