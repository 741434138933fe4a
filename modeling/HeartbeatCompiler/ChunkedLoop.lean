import HeartbeatCompiler.ForkJoin.Exec
import HeartbeatCompiler.ForkJoin.Wp
import HeartbeatCompiler.Task
import Mathlib.Algebra.GroupWithZero.Nat
import Mathlib.Data.List.Chain

/-!
# `HeartbeatCompiler.ChunkedLoop`: the chunked leaf loop and the plain one

`executeLoopInChunk` makes two loops of the leaf loop: the outer one steps by what is left of
the current chunk, the inner one by one. Both leaf loops are run here with an oracle in place
of the handler and with the exit block cut down to a record of what reaches it.

`LeafTrace` says what a leaf loop does but for its polls. The plain loop can do all of it
(`LeafTrace.run`), and the chunked loop does nothing else (`chunkedLoop_traced`), so every run
of the chunked loop is a run of the plain one (`chunked_refines_plain`).

`Paced` ties the task memory to the number of iterations since it was reset. The chunked loop
keeps it, so the polls of a sequence of activations come after every multiple of the chunk
size (`polls_on_beat`).
-/

set_option autoImplicit false

namespace HeartbeatCompiler

open ForkJoin Prog

variable {n : Nest}

/-! ### The loops with an oracle for a handler -/

namespace Nest

variable (n : Nest)

/-- An oracle in place of the handler: any return code that is not negative,
chosen anew at each call. What the handler does to the memory is not seen by
the loop, apart from the code. -/
def oracleHandler (f : Frame) (v : List Nat) : Prog n.sig Ret := do
  log (S := n.sig) (.handlerCalled f v)
  let rc ← answer
  pure ⟨rc, none⟩

/-- The exit block cut down to a record of what reaches it: the code and the
private copies. -/
def recordExit (g : Activation) (r : Ret) (acc : n.Values g.level) : Prog n.sig Ret := do
  log (S := n.sig) (.exited g r acc)
  pure r

/-- The leaf loops with the oracle. -/
def oracleBody : n.sig.Proc → Prog n.sig n.sig.Res := n.bodyWith n.oracleHandler n.recordExit

end Nest

/-! ### What a leaf loop does -/

/-- An event that is no poll. The plain loop and the chunked loop poll at
different times, so polls are left out when they are compared. -/
def Event.visible : Event n → Bool
  | .polled _ => false
  | _ => true

/-- The events of a trace but the polls. -/
def visible (τ : n.sig.Trace) : List (Event n) := (τ.map Prod.fst).filter Event.visible

/-- The visible events of two traces one after the other. -/
@[simp]
theorem visible_append (τ τ' : n.sig.Trace) : visible (τ ++ τ') = visible τ ++ visible τ' := by
  simp [visible]

/-- A poll is left out. -/
@[simp]
theorem visible_cons (e : n.sig.Event × n.sig.Store) (τ : n.sig.Trace) :
    visible (e :: τ) = if Event.visible e.1 then e.1 :: visible τ else visible τ := by
  simp [visible, List.filter_cons]

/-- Nothing is visible of the empty trace. -/
@[simp]
theorem visible_nil : visible ([] : n.sig.Trace) = [] := rfl

/-- What a leaf loop does from iteration `i` on, but for its polls. The
handler may be called only if `ran` says that an iteration has just been run;
a code above zero ends the loop, and with the code `0` it goes on. Both the
plain and the chunked loop are shown to do just this. -/
inductive LeafTrace (g : Activation) : Bool → Nat → n.Values g.level → List (Event n) → Ret → Prop
  | done {ran : Bool} {i : Nat} {acc : n.Values g.level} : ¬ i < g.maxIter →
      LeafTrace g ran i acc [.exited g ⟨0, none⟩ acc] ⟨0, none⟩
  | leaf {ran : Bool} {i : Nat} {acc : n.Values g.level} {es : List (Event n)} {r : Ret} :
      i < g.maxIter →
      LeafTrace g true (i + 1) (n.accumulate g.level (g.outer ++ [i]) acc) es r →
      LeafTrace g ran i acc (.leaf (g.outer ++ [i]) :: es) r
  | declined {i : Nat} {acc : n.Values g.level} {es : List (Event n)} {r : Ret} :
      LeafTrace g false (i + 1) acc es r →
      LeafTrace g true (i + 1) acc (.handlerCalled g.toFrame (g.outer ++ [i]) ::
        .returned g ⟨0, none⟩ :: es) r
  | ended {i rc : Nat} {acc : n.Values g.level} : 0 < rc →
      LeafTrace g true (i + 1) acc [.handlerCalled g.toFrame (g.outer ++ [i]),
        .returned g ⟨rc, none⟩, .exited g ⟨rc, none⟩ acc] ⟨rc, none⟩

/-- What the plain loop does after the body of iteration `i`: the polling
block, the handler block, and the latch or the exit. -/
def Nest.afterLeaf (n : Nest) (g : Activation) (i : Nat) (acc : n.Values g.level) :
    Prog n.sig Ret := do
  let heartbeat ← n.heartbeatPolling g
  if heartbeat = 0 then invoke (S := n.sig) (.leafLoop g (wadd i 1) acc)
  else do
    let r ← n.loopHandler g i
    if 0 < r.rc then invoke (S := n.sig) (.loopExit g r acc)
    else invoke (S := n.sig) (.leafLoop g (wadd i 1) acc)

/-- A program has a run that shows `es` and returns `r`, whatever the store
is. The polls and the oracle may be answered as the run needs it. -/
def Nest.May (n : Nest) (p : Prog n.sig Ret) (es : List (Event n)) (r : Ret) : Prop :=
  ∀ σ : n.sig.Store, ∃ τ σ', Steps n.oracleBody (.run p) σ τ (.run (.ret r)) σ' ∧
    visible τ = es

namespace Nest.May

variable {p : Prog n.sig Ret} {es : List (Event n)} {r : Ret}

/-- An event is shown, unless it is a poll. -/
theorem log {e : Event n} {k : PUnit → Prog n.sig Ret} (h : n.May (k ⟨⟩) es r) :
    n.May (Prog.log (S := n.sig) e >>= k) (if e.visible then e :: es else es) r := by
  intro σ
  obtain ⟨τ, σ', hs, rfl⟩ := h σ
  exact ⟨[(e, σ)] ++ τ, σ', .head (.emit (S := n.sig) e (k ⟨⟩) σ) hs, visible_cons _ _⟩

/-- Some answer of the oracle gives the run. -/
theorem answer {k : Nat → Prog n.sig Ret} (i : Nat) (h : n.May (k i) es r) :
    n.May (Prog.answer >>= k) es r := by
  intro σ
  obtain ⟨τ, σ', hs, hτ⟩ := h σ
  exact ⟨τ, σ', .head (.ask _ i σ) hs, hτ⟩

/-- Writing a row shows nothing. -/
theorem setRow {c : Path} {l : Nat} {f : Row → Row} {k : PUnit → Prog n.sig Ret}
    (h : n.May (k ⟨⟩) es r) : n.May (n.setRow c l f >>= k) es r := by
  intro σ
  obtain ⟨τ, σ', hs, hτ⟩ := h (Function.update σ (.cxts c)
    (Function.update (σ (.cxts c)) l (f (σ (.cxts c) l))))
  exact ⟨τ, σ', .head (.access (S := n.sig) (Loc.cxts c) _ _ σ) hs, hτ⟩

/-- A call shows what its procedure shows. -/
theorem call {q : Proc n} {k : Ret → Prog n.sig Ret} (h : n.May (n.oracleBody q >>= k) es r) :
    n.May (Prog.invoke (S := n.sig) q >>= k) es r := by
  intro σ
  obtain ⟨τ, σ', hs, hτ⟩ := h σ
  exact ⟨τ, σ', .head (.call (S := n.sig) q _ σ) hs, hτ⟩

/-- So does a call at the end. -/
theorem tail {q : Proc n} (h : n.May (n.oracleBody q) es r) :
    n.May (Prog.invoke (S := n.sig) q) es r :=
  call (k := Prog.ret) (by rwa [bind_eq, bind_ret])

/-- A tail call does what its procedure does. -/
theorem tail_iff {q : Proc n} :
    n.May (Prog.invoke (S := n.sig) q) es r ↔ n.May (n.oracleBody q) es r := by
  refine ⟨fun h σ => ?_, tail⟩
  obtain ⟨τ, σ', hs, hτ⟩ := h σ
  cases hs with
  | head hstep hs =>
      cases hstep
      rw [bind_ret] at hs
      exact ⟨_, σ', hs, by simpa using hτ⟩

/-- The exit block. -/
theorem loopExit (g : Activation) (r : Ret) (acc : n.Values g.level) :
    n.May (Prog.invoke (S := n.sig) (.loopExit g r acc)) [.exited g r acc] r := by
  have hret : n.May (pure r) [] r := fun σ => ⟨[], σ, .refl _ _, rfl⟩
  exact tail (log (e := .exited g r acc) (k := fun _ => pure r) hret)

/-- The handler block, with an oracle that returns any code. The start of the
row is stored before the call, so the two events are emitted in a store that
has it. -/
theorem loopHandler {g : Activation} {i : Nat} (rc : Nat) {k : Ret → Prog n.sig Ret}
    (h : n.May (k ⟨rc, none⟩) es r) : n.May (n.loopHandler g i >>= k)
      (.handlerCalled g.toFrame (g.outer ++ [i]) :: .returned g ⟨rc, none⟩ :: es) r := by
  rw [Nest.loopHandler, bind_bind]
  refine setRow ?_
  rw [bind_bind]
  refine call ?_
  show n.May (n.oracleHandler g.toFrame (g.outer ++ [i]) >>= _) _ _
  rw [Nest.oracleHandler, bind_bind]
  refine log (e := .handlerCalled g.toFrame (g.outer ++ [i])) ?_
  rw [bind_bind]
  refine answer rc ?_
  rw [pure_bind, bind_bind]
  exact log (e := .returned g ⟨rc, none⟩) h

/-- Where no iteration has just been run, or the poll reports nothing, the
loop goes on. -/
theorem goOn {g : Activation} {ran : Bool} {i : Nat} {acc : n.Values g.level} (hi : i < 2 ^ 63)
    (h : n.May (n.leafLoop g i acc) es r) :
    (ran = false → n.May (n.leafLoop g i acc) es r) ∧
      (ran = true → ∀ k, i = k + 1 → n.May (n.afterLeaf g k acc) es r) := by
  refine ⟨fun _ => h, fun _ k hk => ?_⟩
  have hnext : wadd k 1 = i := by rw [wadd_of_lt (by omega), hk]
  rw [Nest.afterLeaf, Nest.heartbeatPolling, bind_bind]
  refine log (e := .polled g) (answer 0 ?_)
  rw [if_pos rfl, hnext]
  exact tail h

end Nest.May

namespace LeafTrace

variable {g : Activation} {ran : Bool} {i : Nat} {acc : n.Values g.level} {es : List (Event n)}
  {r : Ret}

/-- Nothing is lost if an iteration has just been run. -/
theorem weaken (h : LeafTrace g false i acc es r) : LeafTrace g ran i acc es r := by
  cases h with
  | done hi => exact .done hi
  | leaf hi h => exact .leaf hi h

/-- The plain loop can do all of it. A poll of the plain loop may be answered
as the trace needs it, with a heartbeat exactly where the trace has a call of
the handler. -/
theorem may (h : LeafTrace g ran i acc es r) (hmax : g.maxIter < 2 ^ 63) (hi : i < 2 ^ 63) :
    (ran = false → n.May (n.leafLoop g i acc) es r) ∧
      (ran = true → ∀ k, i = k + 1 → n.May (n.afterLeaf g k acc) es r) := by
  induction h with
  -- Each case runs the plain loop to the next event: `done` fails the test, `leaf` passes it,
  -- and the two calls of the handler come after a poll that reports a heartbeat.
  | done hlt =>
      refine Nest.May.goOn hi ?_
      rw [Nest.leafLoop, if_neg (by rwa [slt_iff hi hmax])]
      exact .loopExit g _ _
  | @leaf ran i acc es r hlt h ih =>
      refine Nest.May.goOn hi ?_
      rw [Nest.leafLoop, if_pos ((slt_iff hi hmax).mpr hlt)]
      exact Nest.May.log (e := .leaf (g.outer ++ [i])) ((ih (by omega)).2 rfl i rfl)
  | @declined i acc es r h ih =>
      refine ⟨fun hran => (by cases hran), fun _ k hk => ?_⟩
      obtain rfl : i = k := Nat.succ.inj hk
      rw [Nest.afterLeaf, Nest.heartbeatPolling, bind_bind]
      refine Nest.May.log (e := .polled g) (Nest.May.answer 1 ?_)
      rw [if_neg Nat.one_ne_zero]
      refine Nest.May.loopHandler 0 (Nest.May.tail ?_)
      rw [wadd_of_lt (by omega)]
      exact (ih hi).1 rfl
  | @ended i rc acc hrc =>
      refine ⟨fun hran => (by cases hran), fun _ k hk => ?_⟩
      obtain rfl : i = k := Nat.succ.inj hk
      rw [Nest.afterLeaf, Nest.heartbeatPolling, bind_bind]
      refine Nest.May.log (e := .polled g) (Nest.May.answer 1 ?_)
      rw [if_neg Nat.one_ne_zero]
      refine Nest.May.loopHandler rc ?_
      rw [if_pos (Int.natCast_pos.mpr hrc)]
      exact .loopExit g _ _

end LeafTrace

/-! ### Polls -/

/-- An iteration or a poll, of which the beats of a trace consist. -/
inductive Beat
  | leaf
  | poll
  deriving DecidableEq

/-- The beat that an event reports. -/
def Event.beat : Event n → Option Beat
  | .leaf _ => some .leaf
  | .polled _ => some .poll
  | _ => none

/-- The iterations and the polls of a trace. -/
def beats (τ : n.sig.Trace) : List Beat := τ.filterMap fun e => Event.beat e.1

/-- There is no beat in the empty trace. -/
@[simp]
theorem beats_nil : beats ([] : n.sig.Trace) = [] := rfl

/-- The beats of two traces one after the other. -/
@[simp]
theorem beats_append (τ τ' : n.sig.Trace) : beats (τ ++ τ') = beats τ ++ beats τ' := by
  simp [beats]

/-- The poll that is due after `m` iterations, at each multiple of the chunk
size. -/
def due (C m : Nat) : List Beat := if C ∣ m then [.poll] else []

/-- `k` iterations, after `m` others, with a poll after every multiple of `C`.
The count goes on over rows, since the rest of a chunk is kept in the task
memory. -/
def cadence (C : Nat) : (m k : Nat) → List Beat
  | _, 0 => []
  | m, k + 1 => .leaf :: (due C (m + 1) ++ cadence C (m + 1) k)

/-- The cadence goes on where it stopped. -/
theorem cadence_add (C m k k' : Nat) :
    cadence C m (k + k') = cadence C m k ++ cadence C (m + k) k' := by
  induction k generalizing m with
  | zero => rw [Nat.zero_add, Nat.add_zero, cadence, List.nil_append]
  | succ k ih =>
      rw [Nat.succ_add, cadence, ih, cadence, List.cons_append, List.append_assoc,
        show m + 1 + k = m + (k + 1) by omega]

/-- The task memory after `m` iterations with chunks of size `C`: what remains
of the chunk is determined by `m`. -/
structure Paced (C m : Nat) (tm : TaskMemory) : Prop where
  chunksize : tm.chunksize = C
  remaining : tm.remainingChunksize = C - m % C

namespace Paced

variable {C m k : Nat} {tm : TaskMemory}

/-- What remains of a chunk is positive and at most the chunk. -/
theorem bounds (h : Paced C m tm) (hC : 0 < C) :
    1 ≤ tm.remainingChunksize ∧ tm.remainingChunksize ≤ C := by
  have hlt := Nat.mod_lt m hC
  rw [h.remaining]
  omega

/-- A chunk that is not used up has no multiple of the chunk size inside. -/
theorem not_dvd (h : Paced C m tm) (hk : 0 < k) (hlt : k < tm.remainingChunksize) :
    ¬ C ∣ m + k := by
  rw [h.remaining] at hlt
  rw [Nat.dvd_iff_mod_eq_zero, Nat.add_mod, Nat.mod_eq_of_lt (by omega : k < C),
    Nat.mod_eq_of_lt (by omega)]
  omega

/-- A chunk that is used up ends at a multiple of the chunk size. -/
theorem dvd (h : Paced C m tm) (hC : 0 < C) : C ∣ m + tm.remainingChunksize := by
  have hlt := Nat.mod_lt m hC
  have hdiv := Nat.mod_add_div m C
  refine ⟨m / C + 1, ?_⟩
  rw [h.remaining, Nat.mul_add, Nat.mul_one]
  omega

/-- The update after the whole chunk. -/
theorem reset (h : Paced C m tm) (hC : 0 < C) :
    Paced C (m + tm.remainingChunksize) { tm with remainingChunksize := tm.chunksize } where
  chunksize := h.chunksize
  remaining := by rw [Nat.mod_eq_zero_of_dvd (h.dvd hC), Nat.sub_zero]; exact h.chunksize

/-- The update after a part of the chunk. -/
theorem shorten (h : Paced C m tm) (hC : C < 2 ^ 63) (hlt : k < tm.remainingChunksize) :
    Paced C (m + k) { tm with remainingChunksize := wsub tm.remainingChunksize k } where
  chunksize := h.chunksize
  remaining := by
    have hrem := h.remaining
    have hmod : (m + k) % C = m % C + k := by
      rw [Nat.add_mod, Nat.mod_eq_of_lt (by omega : k < C), Nat.mod_eq_of_lt (by omega)]
    simp only
    rw [wsub_of_le (by omega) (by omega), hrem, hmod]
    omega

end Paced

/-! ### The chunked loop -/

/-- What every event of the loop is to satisfy: the chunk sizes are in range,
and the handler finds the last iteration stored as the start of its row. The
second part is what a split at this point relies on. -/
def OnPace (g : Activation) (C : Nat) (e : n.sig.Event × n.sig.Store) : Prop :=
  (1 ≤ (e.2 (.tmem g.tmem)).remainingChunksize ∧ (e.2 (.tmem g.tmem)).remainingChunksize ≤ C) ∧
  match e.1 with
  | .handlerCalled _ v => ∃ i, v = g.outer ++ [i] ∧ (e.2 (.cxts g.cxts) g.level).start = some i
  | _ => True

/-- The loop has returned: what it did from iteration `i` on, `m` iterations
after the reset. It has polled in the cadence of its chunks, and unless it was
ended by a promotion it has run all iterations that were left. -/
structure LoopPost (g : Activation) (C m : Nat) (ran : Bool) (i : Nat) (acc : n.Values g.level)
    (r : Ret) (s : n.sig.Store) (τ : n.sig.Trace) : Prop where
  trace : LeafTrace g ran i acc (visible τ) r
  paced : ∃ k, beats τ = (if ran then due C m else []) ++ cadence C m k ∧
    Paced C (m + k) (s (.tmem g.tmem)) ∧ (r.rc ≤ 0 → k = g.maxIter - i)

namespace LoopPost

variable {g : Activation} {C m i : Nat} {ran : Bool} {acc : n.Values g.level} {r : Ret}
  {s : n.sig.Store} {τ : n.sig.Trace}

/-- The loop is left at the bound, when no poll is due. -/
theorem exited (hi : ¬ i < g.maxIter) (hdue : ran = true → due C m = [])
    (hp : Paced C m (s (.tmem g.tmem))) (σ : n.sig.Store) :
    LoopPost g C m ran i acc ⟨0, none⟩ s [(.exited g ⟨0, none⟩ acc, σ)] where
  trace := .done hi
  paced := by
    refine ⟨0, ?_, hp, fun _ => by omega⟩
    cases ran with
    | false => rfl
    | true => rw [if_pos rfl, hdue rfl]; rfl

/-- An iteration in front. A poll that was due before it must have been made. -/
theorem leaf (h : LoopPost g C (m + 1) true (i + 1)
    (n.accumulate g.level (g.outer ++ [i]) acc) r s τ) (hi : i < g.maxIter)
    (hdue : ran = true → due C m = []) (σ : n.sig.Store) :
    LoopPost g C m ran i acc r s ([(.leaf (g.outer ++ [i]), σ)] ++ τ) where
  trace := .leaf hi h.trace
  paced := by
    obtain ⟨k, hb, hp, hk⟩ := h.paced
    refine ⟨k + 1, ?_, by rwa [show m + (k + 1) = m + 1 + k by omega], fun hr => ?_⟩
    · have hnone : (if ran then due C m else []) = [] := by
        cases ran with
        | false => rfl
        | true => exact hdue rfl
      rw [beats_append, hb, hnone]
      rfl
    · have := hk hr
      omega

/-- The poll that is due, without a heartbeat. -/
theorem polled (h : LoopPost g C m false i acc r s τ) (hdue : C ∣ m) (σ : n.sig.Store) :
    LoopPost g C m true i acc r s ([(.polled g, σ)] ++ τ) where
  trace := h.trace.weaken
  paced := by
    obtain ⟨k, hb, hp, hk⟩ := h.paced
    refine ⟨k, ?_, hp, hk⟩
    rw [beats_append, hb, if_pos rfl, due, if_pos hdue]
    rfl

/-- The poll that is due, with a handler that declines. -/
theorem declined (h : LoopPost g C m false (i + 1) acc r s τ) (hdue : C ∣ m)
    (σ σ' σ'' : n.sig.Store) :
    LoopPost g C m true (i + 1) acc r s ([(.polled g, σ)] ++
      ([(.handlerCalled g.toFrame (g.outer ++ [i]), σ')] ++
        ([(.returned g ⟨0, none⟩, σ'')] ++ τ))) where
  trace := .declined h.trace
  paced := (h.polled hdue σ).paced

/-- The poll that is due, with a handler that promotes: the loop is left. -/
theorem ended {rc : Nat} (hrc : 0 < rc) (hdue : C ∣ m) (hp : Paced C m (s (.tmem g.tmem)))
    (σ σ' σ'' σ''' : n.sig.Store) :
    LoopPost g C m true (i + 1) acc ⟨rc, none⟩ s ([(.polled g, σ)] ++
      ([(.handlerCalled g.toFrame (g.outer ++ [i]), σ')] ++
        ([(.returned g ⟨rc, none⟩, σ'')] ++ [(.exited g ⟨rc, none⟩ acc, σ''')]))) where
  trace := .ended hrc
  paced := by
    refine ⟨0, ?_, hp, fun hr => absurd (show (rc : Int) ≤ 0 from hr) (by omega)⟩
    rw [if_pos rfl, due, if_pos hdue]
    rfl

end LoopPost

/-- A loop is correct from the store `σ` on: a weakest precondition in which
each event satisfies `OnPace` and nothing is asked of the accesses. -/
abbrev LoopCorrect (g : Activation) (C : Nat) (p : Prog n.sig Ret) (σ : n.sig.Store)
    (Q : n.sig.Post) : Prop :=
  Wp n.oracleBody (fun _ => True) (OnPace g C) (fun _ _ => True) ∅ Set.univ Set.univ (.run p) σ Q

namespace LoopCorrect

variable {g : Activation} {C m i : Nat} {acc : n.Values g.level} {σ : n.sig.Store}
  {Q : n.sig.Post}

/-- Nothing interferes with an event. -/
theorem log {e : Event n} {k : PUnit → Prog n.sig Ret} (he : OnPace g C (e, σ))
    (h : LoopCorrect g C (k ⟨⟩) σ (Q.after [(e, σ)])) :
    LoopCorrect g C (Prog.log (S := n.sig) e >>= k) σ Q := by
  refine Wp.log_bind (S := n.sig) fun _ s hs => ?_
  obtain rfl : s = σ := funext fun x => (hs x trivial).symm
  exact ⟨he, h⟩

/-- Nothing interferes with the return. -/
theorem ret {r : Ret} (h : Q r σ []) : LoopCorrect g C (pure r) σ Q := by
  refine Wp.ret (S := n.sig) fun s hs => ?_
  obtain rfl : s = σ := funext fun x => (hs x trivial).symm
  exact h

/-- The exit block. -/
theorem loopExit {r : Ret} (hp : Paced C m (σ (.tmem g.tmem))) (hC : 0 < C)
    (h : Q r σ [(.exited g r acc, σ)]) :
    LoopCorrect g C (Prog.invoke (S := n.sig) (.loopExit g r acc)) σ Q :=
  Wp.invoke (S := n.sig) (log ⟨hp.bounds hC, trivial⟩ (ret h))

/-- The handler block, with an oracle that returns any code. -/
theorem loopHandler {k : Ret → Prog n.sig Ret} (hp : Paced C m (σ (.tmem g.tmem))) (hC : 0 < C)
    (h : ∀ rc : Nat, ∀ σ', σ' (.tmem g.tmem) = σ (.tmem g.tmem) →
      LoopCorrect g C (k ⟨rc, none⟩) σ'
        (Q.after ([(.handlerCalled g.toFrame (g.outer ++ [i]), σ')] ++
          [(.returned g ⟨rc, none⟩, σ')]))) :
    LoopCorrect g C (n.loopHandler g i >>= k) σ Q := by
  rw [Nest.loopHandler, bind_bind]
  refine Wp.modify_bind (S := n.sig) (Set.mem_univ _) (Set.mem_univ _) (fun _ _ => trivial) ?_
  -- the store with the start of the row set, which is the store of the two events
  generalize hσ' : Function.update σ (Loc.cxts g.cxts) _ = σ'
  have htm : σ' (.tmem g.tmem) = σ (.tmem g.tmem) := by
    rw [← hσ', Function.update_of_ne (by simp)]
  have hpace : Paced C m (σ' (.tmem g.tmem)) := htm ▸ hp
  have hstart : (σ' (.cxts g.cxts) g.level).start = some i := by simp [← hσ']
  rw [bind_bind]
  refine Wp.call (S := n.sig) ?_
  show LoopCorrect g C (n.oracleHandler g.toFrame (g.outer ++ [i])) σ' _
  rw [Nest.oracleHandler]
  refine log ⟨hpace.bounds hC, i, rfl, hstart⟩ (Wp.answer_bind (S := n.sig) fun rc => ret ?_)
  have hret := h rc σ' htm
  rw [← Sig.Post.after_after] at hret
  have hgood : OnPace g C (Event.returned g ⟨rc, none⟩, σ') := ⟨hpace.bounds hC, trivial⟩
  show LoopCorrect g C ((Prog.log (S := n.sig) (.returned g ⟨rc, none⟩) >>= fun _ =>
    pure ⟨rc, none⟩) >>= k) σ' _
  rw [bind_bind]
  exact log hgood hret

end LoopCorrect

/-- The iterations of a chunk from `low` on, and the poll after it. Inside the
chunk no poll is due; at its end one is due exactly if all of the chunk was
done, since then the number of iterations is a multiple of the chunk size. -/
theorem chunkLoop_traced {g : Activation} {C m i high : Nat} {σ : n.sig.Store} (hC : 0 < C)
    (hC' : C < 2 ^ 63) (hmax : g.maxIter < 2 ^ 63) (hp : Paced C m (σ (.tmem g.tmem)))
    (hi : i < g.maxIter)
    (hhigh : high = min (i + (σ (.tmem g.tmem)).remainingChunksize) g.maxIter)
    (hgo : ∀ {acc : n.Values g.level} {σ' : n.sig.Store},
      high = i + (σ (.tmem g.tmem)).remainingChunksize →
      Paced C (m + (high - i)) (σ' (.tmem g.tmem)) →
      LoopCorrect g C (n.chunkedLoop g high acc) σ'
        (LoopPost g C (m + (high - i)) false high acc)) (k : Nat) :
    ∀ (low : Nat) (acc : n.Values g.level), high - low = k → i ≤ low → low ≤ high →
      LoopCorrect g C
        (n.chunkLoop g i (σ (.tmem g.tmem)).remainingChunksize high low acc) σ
        (LoopPost g C (m + (low - i)) (decide (i < low)) low acc) := by
  obtain ⟨hpos, hrem⟩ := hp.bounds hC
  -- Inside the chunk no poll is due.
  have hdue : ∀ {low : Nat}, low < high → decide (i < low) = true → due C (m + (low - i)) = [] := by
    intro low hlow hilow
    have hlt : i < low := of_decide_eq_true hilow
    rw [due, if_neg (hp.not_dvd (by omega) (by omega))]
  -- The induction is on the number of iterations left in the chunk.
  induction k with
  | zero =>
      intro low acc hk hil hlow
      obtain rfl : low = high := by omega
      have hult : ¬ ult low low = true := by
        rw [ult_iff]
        exact lt_irrefl low
      have hilow : decide (i < low) = true := decide_eq_true (by omega)
      rw [Nest.chunkLoop, if_neg hult, wsub_of_le hil (by omega),
        Nest.updateAndHasRemainingChunksize, bind_bind, hilow]
      refine Wp.modify_bind (S := n.sig) (Set.mem_univ _) (Set.mem_univ _) (fun _ _ => trivial) ?_
      rw [pure_bind]
      generalize hσ' : Function.update σ (Loc.tmem g.tmem) _ = σ'
      by_cases hfull : low - i = (σ (.tmem g.tmem)).remainingChunksize
      · have htm : Paced C (m + (low - i)) (σ' (.tmem g.tmem)) := by
          rw [← hσ', Function.update_self, if_pos hfull, hfull]
          exact hp.reset hC
        have hdvd : C ∣ m + (low - i) := by
          rw [hfull]
          exact hp.dvd hC
        rw [decide_eq_false fun hne => hne hfull, if_neg (by simp),
          wadd_of_lt (by omega), show i + (σ (.tmem g.tmem)).remainingChunksize = low by omega,
          wsub_of_le (by omega) (by omega)]
        have hcont : ∀ σ'' : n.sig.Store, σ'' (.tmem g.tmem) = σ' (.tmem g.tmem) →
            LoopCorrect g C (Prog.invoke (S := n.sig) (.chunkedLoop g low acc)) σ''
              (LoopPost g C (m + (low - i)) false low acc) := fun σ'' htm' =>
          Wp.invoke (S := n.sig) (hgo (by omega) (htm' ▸ htm))
        rw [Nest.heartbeatPolling, bind_bind]
        refine LoopCorrect.log ⟨htm.bounds hC, trivial⟩
          (Wp.answer_bind (S := n.sig) fun heartbeat => ?_)
        by_cases hpoll : heartbeat = 0
        · rw [if_pos hpoll]
          exact (hcont σ' rfl).mono fun r s τ h => h.polled hdvd σ'
        · rw [if_neg hpoll]
          obtain ⟨last, hlast⟩ : ∃ last, low = last + 1 := ⟨low - 1, by omega⟩
          subst hlast
          refine LoopCorrect.loopHandler htm hC fun rc σ'' htm' => ?_
          rw [Sig.Post.after_after]
          by_cases hrc : 0 < rc
          · rw [if_pos (Int.natCast_pos.mpr hrc)]
            refine LoopCorrect.loopExit (htm' ▸ htm) hC ?_
            exact LoopPost.ended hrc hdvd (htm' ▸ htm) σ' σ'' σ'' σ''
          · obtain rfl : rc = 0 := by omega
            rw [if_neg (by simp)]
            exact (hcont σ'' htm').mono fun r s τ h => h.declined hdvd σ' σ'' σ''
      · have htm : Paced C (m + (low - i)) (σ' (.tmem g.tmem)) := by
          rw [← hσ', Function.update_self, if_neg hfull]
          exact hp.shorten hC' (by omega)
        rw [decide_eq_true hfull, if_pos rfl]
        refine LoopCorrect.loopExit htm hC (LoopPost.exited (by omega) (fun _ => ?_) htm σ')
        rw [due, if_neg (hp.not_dvd (by omega) (by omega))]
  | succ k ih =>
      intro low acc hk hil hlow
      rw [Nest.chunkLoop, if_pos (ult_iff.mpr (by omega : low < high))]
      refine LoopCorrect.log ⟨hp.bounds hC, trivial⟩ ?_
      rw [wadd_of_lt (by omega)]
      refine Wp.invoke (S := n.sig)
        ((ih _ _ (by omega) (by omega) (by omega)).mono fun r s τ h => ?_)
      rw [decide_eq_true (by omega : i < low + 1), show m + (low + 1 - i) = m + (low - i) + 1 by
        omega] at h
      exact h.leaf (by omega) (hdue (by omega)) σ

/-- The chunked leaf loop from iteration `i` on. The iterations that are left
bound the number of chunks, as no chunk is empty. -/
theorem chunkedLoop_traced {g : Activation} {C : Nat} (hC : 0 < C) (hC' : C < 2 ^ 63)
    (hmax : g.maxIter < 2 ^ 63) (k : Nat) :
    ∀ {m i : Nat} (acc : n.Values g.level) {σ : n.sig.Store}, g.maxIter - i ≤ k → i < 2 ^ 63 →
      Paced C m (σ (.tmem g.tmem)) →
      LoopCorrect g C (n.chunkedLoop g i acc) σ (LoopPost g C m false i acc) := by
  -- A chunk is not empty, so every pass has fewer iterations left.
  induction k with
  | zero =>
      intro m i acc σ hk hi hp
      rw [Nest.chunkedLoop, if_neg (by rw [ult_iff]; omega)]
      exact LoopCorrect.loopExit hp hC (LoopPost.exited (by omega) (by simp) hp σ)
  | succ k ih =>
      intro m i acc σ hk hi hp
      obtain ⟨hpos, hrem⟩ := hp.bounds hC
      rw [Nest.chunkedLoop]
      by_cases hlt : i < g.maxIter
      · rw [if_pos (ult_iff.mpr hlt)]
        refine Wp.read_bind (S := n.sig) (Set.mem_univ _) (fun _ _ => trivial) ?_
        have hsum : wadd i (σ (.tmem g.tmem)).remainingChunksize =
            i + (σ (.tmem g.tmem)).remainingChunksize := wadd_of_lt (by omega)
        simp only [umin_eq, hsum]
        have hloop := chunkLoop_traced hC hC' hmax hp hlt rfl
          (fun _ h => ih _ (by omega) (by omega) h) _ i acc rfl (le_refl i) (by omega)
        rw [decide_eq_false (lt_irrefl i), Nat.sub_self, Nat.add_zero] at hloop
        exact Wp.invoke (S := n.sig) hloop
      · rw [if_neg (by rw [ult_iff]; exact hlt)]
        exact LoopCorrect.loopExit hp hC (LoopPost.exited hlt (by simp) hp σ)

/-! ### Every run -/

/-- The iterations that are run. -/
def leaves (es : List (Event n)) : List (List Nat) :=
  es.filterMap fun e => match e with
    | .leaf v => some v
    | _ => none

/-- Neighbours of a trace: a call of the handler follows the iteration it
reports. -/
def HandledAfter (e e' : Event n) : Prop := ∀ f v, e' = .handlerCalled f v → e = .leaf v

/-- The private copies after the iterations `i` up to `i + k`, each of which
adds its contribution. -/
def Nest.accumulateFrom (n : Nest) (g : Activation) (i k : Nat) (acc : n.Values g.level) :
    n.Values g.level :=
  (List.range' i k).foldl (fun acc x => n.accumulate g.level (g.outer ++ [x]) acc) acc

namespace LeafTrace

variable {g : Activation} {ran : Bool} {i : Nat} {acc : n.Values g.level} {es : List (Event n)}
  {r : Ret}

/-- The handler is called right after an iteration, and with it. -/
theorem handledAfter (h : LeafTrace g ran i acc es r) :
    ∀ e, (ran = true → e = .leaf (g.outer ++ [i - 1])) → (e :: es).IsChain HandledAfter := by
  induction h with
  | done _ =>
      intro e _
      simp [HandledAfter]
  | leaf _ _ ih =>
      intro e _
      refine .cons_cons (by simp [HandledAfter]) (ih _ fun _ => by simp)
  | declined _ ih =>
      -- the event before the call is the iteration that was just run, by `he`
      intro e he
      refine .cons_cons ?_ (.cons_cons (by simp [HandledAfter]) (ih _ (by simp)))
      rintro f v ⟨rfl, rfl⟩
      exact he rfl
  | ended _ =>
      intro e he
      refine .cons_cons ?_ (by simp [HandledAfter])
      rintro f v ⟨rfl, rfl⟩
      exact he rfl

/-- What is run, in which order, and what reaches the exit. This reads a trace
of the inductive kind as lists of iterations, so that the claim does not
mention it. -/
theorem explicit (h : LeafTrace g ran i acc es r) : ∃ e, i ≤ e ∧ e ≤ max i g.maxIter ∧
    leaves es = (List.range' i (e - i)).map (fun x => g.outer ++ [x]) ∧
    es.getLast? = some (.exited g r (n.accumulateFrom g i (e - i) acc)) ∧
    (r = ⟨0, none⟩ ∧ e = max i g.maxIter ∨ 0 < r.rc ∧ (ran = false → i < e) ∧
      ∃ f, .handlerCalled f (g.outer ++ [e - 1]) ∈ es ∧ .returned g r ∈ es) := by
  -- `e` is the iteration at which the loop ends; an iteration in front adds one to the list, and
  -- a declined call nothing
  induction h with
  | @done ran i acc hi =>
      exact ⟨i, le_refl i, by omega, by simp [leaves], by simp [Nest.accumulateFrom],
        .inl ⟨rfl, by omega⟩⟩
  | @leaf ran i acc es r hi h ih =>
      obtain ⟨e, hle, hmax, hleaves, hlast, hend⟩ := ih
      have hsub : e - i = (e - (i + 1)) + 1 := by omega
      refine ⟨e, by omega, by omega, ?_, ?_, ?_⟩
      · rw [hsub, List.range'_succ, List.map_cons, ← hleaves]
        rfl
      · rw [hsub, Nest.accumulateFrom, List.range'_succ, List.foldl_cons]
        rw [List.getLast?_cons, hlast]
        rfl
      · rcases hend with ⟨hr, he⟩ | ⟨hrc, -, f, hf, hret⟩
        · exact .inl ⟨hr, by omega⟩
        · exact .inr ⟨hrc, fun _ => by omega, f, List.mem_cons_of_mem _ hf,
            List.mem_cons_of_mem _ hret⟩
  | @declined i acc es r h ih =>
      obtain ⟨e, hle, hmax, hleaves, hlast, hend⟩ := ih
      refine ⟨e, hle, hmax, hleaves, ?_, ?_⟩
      · rw [List.getLast?_cons, List.getLast?_cons, hlast]
        rfl
      · rcases hend with hend | ⟨hrc, hlt, f, hf, hret⟩
        · exact .inl hend
        · exact .inr ⟨hrc, fun _ => hlt rfl, f, by simp [hf], by simp [hret]⟩
  | @ended i rc acc hrc =>
      exact ⟨i + 1, le_refl _, by omega, by simp [leaves], by simp [Nest.accumulateFrom],
        .inr ⟨Int.natCast_pos.mpr hrc, by simp, g.toFrame, by simp, by simp⟩⟩

end LeafTrace

/-- For every start and bound below `2 ^ 63`, every task memory with a chunk
in range, every poll and every handler: the chunked loop ends and does not get
stuck; it runs its iterations one by one up to the bound, or up to a call of
the handler that returned a positive code; at each call of the handler the
last iteration is stored as the start of the row; and what reaches the exit is
what the plain loop delivers after the same iterations. -/
theorem chunked_refines_plain (n : Nest) (g : Activation) (a : Nat) (acc : n.Values g.level)
    (σ : n.sig.Store) (ha : a < 2 ^ 63) (hmax : g.maxIter < 2 ^ 63)
    (hpos : 1 ≤ (σ (.tmem g.tmem)).remainingChunksize)
    (hrem : (σ (.tmem g.tmem)).remainingChunksize ≤ (σ (.tmem g.tmem)).chunksize)
    (hC : (σ (.tmem g.tmem)).chunksize < 2 ^ 63) :
    Acc (fun y x : Conf n.sig × n.sig.Store => ∃ ℓ, Step n.oracleBody x.1 x.2 ℓ y.1 y.2)
      (.run (n.chunkedLoop g a acc), σ) ∧
    (∀ τ c σ', Steps n.oracleBody (.run (n.chunkedLoop g a acc)) σ τ c σ' →
      ¬ c.Faulty ∧ (visible τ).IsChain HandledAfter ∧
      ∀ f v s, (Event.handlerCalled f v, s) ∈ τ →
        ∃ i, v = g.outer ++ [i] ∧ (s (.cxts g.cxts) g.level).start = some i) ∧
    ∀ τ r σ', Steps n.oracleBody (.run (n.chunkedLoop g a acc)) σ τ (.run (.ret r)) σ' →
      (∃ e, a ≤ e ∧ e ≤ max a g.maxIter ∧
        leaves (visible τ) = (List.range' a (e - a)).map (fun i => g.outer ++ [i]) ∧
        (visible τ).getLast? = some (.exited g r (n.accumulateFrom g a (e - a) acc)) ∧
        (r = ⟨0, none⟩ ∧ e = max a g.maxIter ∨ 0 < r.rc ∧ a < e ∧
          ∃ f, .handlerCalled f (g.outer ++ [e - 1]) ∈ visible τ ∧ .returned g r ∈ visible τ)) ∧
      ∃ τ' σ'', Steps n.oracleBody (.run (n.leafLoop g a acc)) σ τ' (.run (.ret r)) σ'' ∧
        visible τ' = visible τ := by
  -- The chunk that is left over is as if some iterations of it had been run.
  have hp : Paced (σ (.tmem g.tmem)).chunksize
      ((σ (.tmem g.tmem)).chunksize - (σ (.tmem g.tmem)).remainingChunksize)
      (σ (.tmem g.tmem)) := ⟨rfl, by rw [Nat.mod_eq_of_lt (by omega)]; omega⟩
  have hloop := chunkedLoop_traced (by omega) hC hmax _ acc (le_refl _) ha hp
  have htrace : ∀ τ r σ', Steps n.oracleBody (.run (n.chunkedLoop g a acc)) σ τ
      (.run (.ret r)) σ' → LeafTrace g false a acc (visible τ) r := fun τ r σ' h =>
    (hloop.finished h fun _ _ => trivial).trace
  refine ⟨hloop.acc fun _ => trivial, fun τ c σ' h => ⟨hloop.not_faulty h fun _ _ => trivial, ?_,
    fun f v s he => (hloop.good_of_steps h (fun _ _ => trivial) _ he).2⟩, fun τ r σ' h => ⟨?_, ?_⟩⟩
  · obtain ⟨τ', r, σ'', h'⟩ := (hloop.steps h fun _ _ => trivial).completes fun _ => trivial
    have hchain := (htrace _ _ _ (h.trans h')).handledAfter (.polled g) (by simp)
    rw [visible_append] at hchain
    exact hchain.of_cons.left_of_append
  · obtain ⟨e, hle, hmax', hleaves, hlast, hend⟩ := (htrace _ _ _ h).explicit
    exact ⟨e, hle, hmax', hleaves, hlast, hend.imp_right fun hr => ⟨hr.1, hr.2.1 rfl, hr.2.2⟩⟩
  · exact ((htrace _ _ _ h).may hmax ha).1 rfl σ

/-- A single loop of five iterations with a sum. -/
def fiveNest : Nest := .uniform 1 5 false (fun _ => 1) (.add 8) 0

/-- Its only activation. -/
def fiveActivation : Activation :=
  ⟨⟨[], 0, [], [], 0⟩, fun _ => Row.uninitialised, [], 5, .original⟩

/-- A store with `remaining` iterations left of a chunk of three. -/
def fiveStore (remaining : Nat) : fiveNest.sig.Store :=
  Function.update fiveNest.blank (Loc.tmem []) (⟨0, 3, remaining⟩ : TaskMemory)

/-- The handler declines after the second iteration and promotes after the
fifth one. -/
theorem chunked_refines_plain_five : ∃ τ r σ', Steps fiveNest.oracleBody
    (.run (fiveNest.chunkedLoop fiveActivation 0 (fiveNest.privateCopies 0))) (fiveStore 2) τ
      (.run (.ret r)) σ' ∧ r.rc = 1 ∧
    ∃ τ' σ'', Steps fiveNest.oracleBody
      (.run (fiveNest.leafLoop fiveActivation 0 (fiveNest.privateCopies 0))) (fiveStore 2) τ'
      (.run (.ret r)) σ'' ∧ visible τ' = visible τ := by
  have hexec : (exec fiveNest.oracleBody 200 [1, 0, 1, 1] (fiveNest.chunkedLoop fiveActivation 0
      (fiveNest.privateCopies 0)) (fiveStore 2)).any (fun o => decide (o.1.rc = 1)) = true := by
    decide +kernel
  obtain ⟨r, σ', answers, τ, hrun, hcheck⟩ := exec_exists hexec
  exact ⟨τ, r, σ', hrun, of_decide_eq_true hcheck, ((chunked_refines_plain fiveNest fiveActivation
    0 _ (fiveStore 2) (by decide) (by decide) (by decide) (by decide) (by decide)).2.2 τ r σ'
    hrun).2⟩

/-! ### Sequences of activations -/

/-- Activations of chunked leaf loops that follow each other on the task
memory `t`, with the numbers of their iterations and their beats, where no
handler reports a promotion. Between two of them the store may change in any
way that keeps the task memory. -/
inductive Activations (n : Nest) (t : Path) :
    n.sig.Store → List Nat → List Beat → n.sig.Store → Prop
  | nil (σ : n.sig.Store) : Activations n t σ [] [] σ
  | snoc {σ σ₁ σ₂ σ₃ : n.sig.Store} {counts : List Nat} {bs : List Beat} {g : Activation}
      {a : Nat} {acc : n.Values g.level} {τ : n.sig.Trace} {r : Ret} :
      Activations n t σ counts bs σ₁ → σ₂ (.tmem t) = σ₁ (.tmem t) → g.tmem = t →
      a < 2 ^ 63 → g.maxIter < 2 ^ 63 →
      Steps n.oracleBody (.run (n.chunkedLoop g a acc)) σ₂ τ (.run (.ret r)) σ₃ →
      (∀ ret, .returned g ret ∈ visible τ → ret.rc = 0) →
      Activations n t σ (counts ++ [g.maxIter - a]) (bs ++ beats τ) σ₃

/-- The polls of a cadence. -/
theorem count_cadence (C m k : Nat) : (cadence C m k).count .poll = (m + k) / C - m / C := by
  induction k generalizing m with
  | zero => simp [cadence]
  | succ k ih =>
      have hle : (m + 1) / C ≤ (m + 1 + k) / C := Nat.div_le_div_right (by omega)
      rw [cadence, List.count_cons, List.count_append, ih, due, ← Nat.add_assoc,
        Nat.add_right_comm m k 1]
      -- one more iteration adds a poll exactly if the quotient grows
      by_cases hdvd : C ∣ m + 1
      · have hdiv := Nat.succ_div_of_dvd hdvd
        rw [if_pos hdvd]
        simp
        omega
      · have hdiv := Nat.succ_div_of_not_dvd hdvd
        rw [if_neg hdvd]
        simp
        omega

/-- After a reset with chunk size `C`: whatever the activations that follow,
there is a poll right after each iteration whose number, counted over all of
them, is a multiple of `C`, and no other poll; what remains of the chunk is
what is missing to the next multiple, and it is positive and at most `C`
whenever the next loop does something. -/
theorem polls_on_beat (n : Nest) (t : Path) (C : Nat) (hC : 0 < C) (hC' : C < 2 ^ 63)
    (σ σ' : n.sig.Store) (counts : List Nat) (bs : List Beat)
    (hreset : (σ (.tmem t)).chunksize = C ∧ (σ (.tmem t)).remainingChunksize = C)
    (h : Activations n t σ counts bs σ') :
    bs = cadence C 0 counts.sum ∧ bs.count .poll = counts.sum / C ∧
    (σ' (.tmem t)).remainingChunksize = C - counts.sum % C ∧
    ∀ (g : Activation) (a : Nat) (acc : n.Values g.level), g.tmem = t → a < 2 ^ 63 →
      g.maxIter < 2 ^ 63 → ∀ τ c σ'', Steps n.oracleBody (.run (n.chunkedLoop g a acc)) σ' τ c σ'' →
      ¬ c.Faulty ∧ ∀ e ∈ τ, 1 ≤ (e.2 (.tmem t)).remainingChunksize ∧
        (e.2 (.tmem t)).remainingChunksize ≤ C := by
  -- The induction is on the activations: each goes on with the chunk that the one before has
  -- left, and the cadence with it.
  have hpaced : bs = cadence C 0 counts.sum ∧ Paced C counts.sum (σ' (.tmem t)) := by
    induction h with
    | nil => exact ⟨rfl, hreset.1, by rw [hreset.2]; simp⟩
    | @snoc σ₁ σ₂ σ₃ counts bs g a acc τ r _ htm hg ha hmax hs hno ih =>
        obtain ⟨hbs, hp⟩ := ih
        subst hg
        rw [← htm] at hp
        have hpost := (chunkedLoop_traced hC hC' hmax _ acc (le_refl _) ha hp).finished hs
          fun _ _ => trivial
        obtain ⟨k, hbeats, hp', hk⟩ := hpost.paced
        obtain ⟨e, -, -, -, -, hend⟩ := hpost.trace.explicit
        -- no promotion was reported, so the loop went on to its bound
        have hrc : r.rc ≤ 0 := by
          rcases hend with ⟨rfl, -⟩ | ⟨hrc, -, f, -, hret⟩
          · exact le_refl _
          · exact (hno r hret).le
        obtain rfl := hk hrc
        rw [List.sum_append, List.sum_singleton]
        refine ⟨?_, hp'⟩
        rw [cadence_add, hbs, hbeats, Nat.zero_add]
        rfl
  obtain ⟨hbs, hp⟩ := hpaced
  refine ⟨hbs, ?_, hp.remaining, fun g a acc hg ha hmax τ c σ'' hs => ?_⟩
  · rw [hbs, count_cadence]
    simp
  · subst hg
    have hloop := chunkedLoop_traced hC hC' hmax _ acc (le_refl _) ha hp
    exact ⟨hloop.not_faulty hs fun _ _ => trivial, fun e he =>
      (hloop.good_of_steps hs (fun _ _ => trivial) e he).1⟩

/-- Five iterations in chunks of three are polled once. -/
theorem polls_on_beat_five : ∃ bs σ', Activations fiveNest [] (fiveStore 3) [5] bs σ' ∧
    bs = [.leaf, .leaf, .leaf, .poll, .leaf, .leaf] := by
  have hexec : (exec fiveNest.oracleBody 200 [] (fiveNest.chunkedLoop fiveActivation 0
      (fiveNest.privateCopies 0)) (fiveStore 3)).any (fun o =>
        (visible o.2.2.2).all fun e => match e with
          | .returned _ _ => false
          | _ => true) = true := by decide +kernel
  obtain ⟨r, σ', answers, τ, hrun, hcheck⟩ := exec_exists hexec
  have h : Activations fiveNest [] (fiveStore 3) ([] ++ [5 - 0]) ([] ++ beats τ) σ' :=
    .snoc (g := fiveActivation) (.nil _) rfl rfl (by decide) (by decide) hrun fun ret hret => by
      simpa using List.all_eq_true.mp hcheck _ hret
  exact ⟨_, σ', h, (polls_on_beat fiveNest [] 3 (by decide) (by decide) _ _ _ _ ⟨rfl, rfl⟩ h).1⟩

end HeartbeatCompiler
