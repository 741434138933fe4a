import HeartbeatCompiler.ChunkedLoop
import HeartbeatCompiler.ChunkedSlice
import HeartbeatCompiler.ForkJoin.Returns

/-!
# `HeartbeatCompiler.SliceProgram`: the chunked slice and the procedures of the leaf loop

The tasks run the procedures `chunkedLoop` and `chunkLoop`, and the pass builds a graph of
blocks. Here the graph is a refinement of the procedures: a run of the slice is a run of
`chunkedLoop` with the same polls, the same calls of the handler and the same result
(`slice_refines_procedures`), so what holds of every run of the procedures holds of the slice.

The induction is on the length of the run. Control is at the header of the slice or at the
header of the chunk whenever a procedure is called (`At`), and the blocks between two such
places do what the procedure does before its next call.
-/

set_option autoImplicit false

namespace HeartbeatCompiler

open ForkJoin Prog Flow SliceBlock LoopCFG

variable {n : Nest} {B β : Type} [DecidableEq B] {L : LoopCFG B} {M : Nat → Sem B β}
  {g : Activation} {acc : β → n.Values g.level} {done : β → List (List Nat)}

/-! ### What is seen of a run -/

/-- The iteration at which the handler is called, if the event is such a call.
-/
def Event.handled : Event n → Option (List Nat)
  | .handlerCalled _ v => some v
  | _ => none

/-- The iteration of the leaf loop that is executed, if the event is one. -/
def Event.executed : Event n → Option (List Nat)
  | .leaf v => some v
  | _ => none

/-- The event is a poll. -/
def Event.isPolled : Event n → Bool
  | .polled _ => true
  | _ => false

/-- The body adds an iteration to the private copies in `acc`. `done` is the
list of the iterations that were run. The accumulators are updated by the
blocks of the body, before the latch: the header and the latch are the loop
control only, as in `plainSem`. -/
def Computes (L : LoopCFG B) (M : Nat → Sem B β) (g : Activation) (acc : β → n.Values g.level)
    (done : β → List (List Nat)) : Prop :=
  ∀ i s, ∃ tr s', Flow.Runs L.terminator (M i) L.EndsIteration L.entry s tr L.latchBB s' ∧
    acc s' = n.accumulate g.level (g.outer ++ [i]) (acc s) ∧
    done s' = done s ++ [g.outer ++ [i]]

/-- The slice goes from `st` to `st'`, and the program through the events `τ`
to the store `σ'`:

- `executed`: the same iterations are run, in the same order;
- `polled`: there are as many polls;
- `handled`: the handler is called with the same iterations;
- `tmem`: the task memory is the same in the end;
- `exited`: the last event is the exit block, with the code and the private
  copies that the slice has then. -/
structure SameRun (g : Activation) (acc : β → n.Values g.level) (done : β → List (List Nat))
    (st st' : ChunkState β) (τ : n.sig.Trace) (σ' : n.sig.Store) : Prop where
  executed : done st'.body = done st.body ++ τ.filterMap fun e => Event.executed e.1
  polled : st'.polls = st.polls + τ.countP fun e => Event.isPolled e.1
  handled : st'.stored.map (fun i => g.outer ++ [i]) =
    st.stored.map (fun i => g.outer ++ [i]) ++ τ.filterMap fun e => Event.handled e.1
  tmem : σ' (.tmem g.tmem) = st'.tmem
  exited : ∃ τ₁ σ₁, τ = τ₁ ++ [(.exited g ⟨st'.returnCode, none⟩ (acc st'.body), σ₁)]

namespace SameRun

variable {st st₁ st' : ChunkState β} {τ : n.sig.Trace} {σ σ' : n.sig.Store}

/-- A step of the slice in which the program does nothing that is seen. -/
theorem silent (h : SameRun g acc done st₁ st' τ σ') (hbody : st₁.body = st.body)
    (hpolls : st₁.polls = st.polls) (hstored : st₁.stored = st.stored) :
    SameRun g acc done st st' τ σ' where
  executed := hbody ▸ h.executed
  polled := hpolls ▸ h.polled
  handled := hstored ▸ h.handled
  tmem := h.tmem
  exited := h.exited

/-- An event of the program. -/
theorem cons (h : SameRun g acc done st₁ st' τ σ') (e : Event n) (σ : n.sig.Store)
    (hdone : done st₁.body = done st.body ++ (Event.executed e).toList)
    (hpolls : st₁.polls = st.polls + if Event.isPolled e then 1 else 0)
    (hstored : st₁.stored.map (fun i => g.outer ++ [i]) =
      st.stored.map (fun i => g.outer ++ [i]) ++ (Event.handled e).toList) :
    SameRun g acc done st st' ((e, σ) :: τ) σ' where
  executed := by
    rw [h.executed, hdone, List.append_assoc]
    cases he : Event.executed e <;> simp [he]
  polled := by
    rw [h.polled, hpolls, List.countP_cons, Nat.add_assoc]
    exact congrArg (st.polls + ·) (Nat.add_comm _ _)
  handled := by
    rw [h.handled, hstored, List.append_assoc]
    cases he : Event.handled e <;> simp [he]
  tmem := h.tmem
  exited := by
    obtain ⟨τ₁, σ₁, rfl⟩ := h.exited
    exact ⟨(e, σ) :: τ₁, σ₁, rfl⟩

/-- The exit block. -/
theorem exit (htmem : σ (.tmem g.tmem) = st.tmem) :
    SameRun g acc done st st [(.exited g ⟨st.returnCode, none⟩ (acc st.body), σ)] σ where
  executed := by simp [Event.executed]
  polled := by simp [Event.isPolled]
  handled := by simp [Event.handled]
  tmem := htmem
  exited := ⟨[], σ, rfl⟩

end SameRun

/-! ### The simulation -/

/-- Where a procedure of the leaf loop is called: the header of the loop, and
the header of the loop over a chunk. The blocks in between belong to the
procedure of the header before them. -/
inductive At (L : LoopCFG B) (g : Activation) (acc : β → n.Values g.level) :
    SliceBlock B → ChunkState β → Prog n.sig Ret → Prop
  | loop (st : ChunkState β) :
      At L g acc (source L.header) st (n.chunkedLoop g st.iv (acc st.body))
  | chunk (st : ChunkState β) :
      At L g acc chunkLoopHeaderBlock st
        (n.chunkLoop g st.iv st.chunksize st.high st.low (acc st.body))

/-- A run of the program that goes with the run of the slice from `st` to
`st'` and returns its code. -/
def Follows (g : Activation) (acc : β → n.Values g.level) (done : β → List (List Nat))
    (p : Prog n.sig Ret) (σ : n.sig.Store) (st st' : ChunkState β) : Prop :=
  ∃ τ σ', Returns n.oracleBody p σ τ ⟨st'.returnCode, none⟩ σ' ∧
    SameRun g acc done st st' τ σ'

/-- The runs of the slice to `st'` in fewer than `k` blocks are followed. It
is the hypothesis of the induction on the length of a run, over both headers
at once. -/
def FollowsBelow (L : LoopCFG B) (M : Nat → Sem B β) (g : Activation)
    (acc : β → n.Values g.level) (done : β → List (List Nat)) (beats : Nat → Option Int)
    (st' : ChunkState β) (k : Nat) : Prop :=
  ∀ {x : SliceBlock B} {st : ChunkState β} {tr : List (SliceBlock B)} {p : Prog n.sig Ret}
    {σ : n.sig.Store}, tr.length < k →
    L.SliceRuns M g.maxIter beats x st tr (source L.loopExitBB) st' → At L g acc x st p →
    σ (.tmem g.tmem) = st.tmem → Follows g acc done p σ st st'

section Simulation

variable {maxIter : Nat} {beats : Nat → Option Int} {st st' : ChunkState β}
  {p : Prog n.sig Ret} {σ : n.sig.Store} {tr : List (SliceBlock B)} {x : SliceBlock B}

/-- The exit block, reached with the code `rc`. -/
theorem follows_exit (acc : β → n.Values g.level) (done : β → List (List Nat))
    (st' : ChunkState β) {rc : Int} {a : n.Values g.level} (hrc : st'.returnCode = rc)
    (hacc : acc st'.body = a) (htmem : σ (.tmem g.tmem) = st'.tmem) :
    Follows g acc done (Prog.invoke (S := n.sig) (.loopExit g ⟨rc, none⟩ a)) σ st' st' := by
  subst hrc hacc
  exact ⟨_, σ, .tail (.log (.ret _ σ)), .exit htmem⟩

/-- What `chunkLoop` does when all of a chunk was done: it polls, calls the
handler with the last iteration of the chunk on a heartbeat, and goes on
behind the chunk or to the exit. -/
def Nest.afterChunk (n : Nest) (g : Activation) (i chunksize low : Nat) (acc : n.Values g.level) :
    Prog n.sig Ret := do
  let heartbeat ← n.heartbeatPolling g
  if heartbeat = 0 then invoke (S := n.sig) (.chunkedLoop g (wadd i chunksize) acc)
  else do
    let r ← n.loopHandler g (wsub low 1)
    if 0 < r.rc then invoke (S := n.sig) (.loopExit g r acc)
    else invoke (S := n.sig) (.chunkedLoop g (wadd i chunksize) acc)

/-- The store in which the handler is called: the last iteration that was run
is the start of the row. -/
def Nest.storeStart (n : Nest) (g : Activation) (i : Nat) (σ : n.sig.Store) : n.sig.Store :=
  Function.update σ (.cxts g.cxts)
    (Function.update (σ (.cxts g.cxts)) g.level { σ (.cxts g.cxts) g.level with start := some i })

/-- Storing the start of the level leaves the task memories alone. -/
@[simp] theorem Nest.storeStart_tmem (n : Nest) (g : Activation) (i : Nat) (σ : n.sig.Store)
    (t : Path) : n.storeStart g i σ (.tmem t) = σ (.tmem t) :=
  Function.update_of_ne (by simp) _ _

/-- The handler block, when the oracle answers `k`. -/
theorem returns_loopHandler {i k : Nat} {τ : n.sig.Trace} {r : Ret} {σ' : n.sig.Store}
    {rest : Ret → Prog n.sig Ret}
    (h : Returns n.oracleBody (rest ⟨k, none⟩) (n.storeStart g i σ) τ r σ') :
    Returns n.oracleBody (n.loopHandler g i >>= rest) σ
      ((.handlerCalled g.toFrame (g.outer ++ [i]), n.storeStart g i σ) ::
        (.returned g ⟨k, none⟩, n.storeStart g i σ) :: τ) r σ' := by
  rw [Nest.loopHandler, Prog.bind_bind]
  -- the start is stored, the oracle answers for the handler, and the events of both are logged
  refine .modify ?_
  rw [Prog.bind_bind]
  refine .call ?_
  show Returns _ (n.oracleHandler g.toFrame (g.outer ++ [i]) >>= _) _ _ _ _
  rw [Nest.oracleHandler, Prog.bind_bind]
  refine .log ?_
  rw [Prog.bind_bind]
  refine .answer k ?_
  rw [Prog.pure_bind, Prog.bind_bind]
  exact .log h

/-- The polling block and the handler block, with what comes after them by
induction on the length of the run. -/
theorem follows_polling (hL : L.Chunkable) (hbeats : ∀ k rc, beats k = some rc → 0 ≤ rc)
    (h : L.SliceRuns M g.maxIter beats pollingBlock st tr (source L.loopExitBB) st')
    (htmem : σ (.tmem g.tmem) = st.tmem)
    (ih : FollowsBelow L M g acc done beats st' tr.length) :
    Follows g acc done (n.afterChunk g st.iv st.chunksize st.low (acc st.body)) σ st st' := by
  obtain ⟨tr₁, rfl, h₁⟩ := (L.slice_polling M g.maxIter beats st).rest h rfl
  rw [Nest.afterChunk, Nest.heartbeatPolling, Prog.bind_bind]
  -- a poll without a heartbeat goes to the latch; one with a heartbeat calls the handler first
  cases hbeat : beats st.polls with
  | none =>
      rw [hbeat] at h₁
      -- no call of the handler: the latch, and `ih` from the header on
      obtain ⟨tr₂, rfl, h₂⟩ := (hL.slice_latch M g.maxIter beats _).rest h₁ rfl
      obtain ⟨τ, σ', hret, hsame⟩ :=
        ih (by simp only [List.length_append, List.length_cons]; omega) h₂ (.loop _) htmem
      refine ⟨_, σ', .log (.answer 0 ?_), hsame.cons (.polled g) σ (List.append_nil _).symm rfl
        (List.append_nil _).symm⟩
      rw [if_pos rfl]
      exact .tail hret
  | some rc =>
      rw [hbeat] at h₁
      obtain ⟨tr₂, rfl, h₂⟩ := (L.slice_loopHandler M g.maxIter beats _).rest h₁ rfl
      obtain ⟨k, rfl⟩ := Int.eq_ofNat_of_zero_le (hbeats _ _ hbeat)
      have htmem₂ : n.storeStart g (wsub st.low 1) σ (.tmem g.tmem) = st.tmem :=
        (n.storeStart_tmem ..).trans htmem
      -- the run after the handler block
      obtain ⟨τ, σ', hret, hsame⟩ : Follows g acc done
          (if 0 < (k : Int) then Prog.invoke (S := n.sig) (.loopExit g ⟨k, none⟩ (acc st.body))
            else Prog.invoke (S := n.sig)
              (.chunkedLoop g (wadd st.iv st.chunksize) (acc st.body)))
          (n.storeStart g (wsub st.low 1) σ)
          { st with
              heartbeat := some (k : Int)
              polls := st.polls + 1
              stored := st.stored ++ [wsub st.low 1]
              returnCode := k } st' := by
        split at h₂
        · rename_i hrc
          have hpos : 0 < (k : Int) := hrc
          rw [if_pos hpos]
          obtain ⟨-, -, rfl⟩ := h₂.of_stop rfl
          exact follows_exit acc done _ rfl rfl htmem₂
        · rename_i hrc
          have hpos : ¬ 0 < (k : Int) := hrc
          rw [if_neg hpos]
          obtain ⟨tr₃, rfl, h₃⟩ := (hL.slice_latch M g.maxIter beats _).rest h₂ rfl
          obtain ⟨τ, σ', hret, hsame⟩ :=
            ih (by simp only [List.length_append, List.length_cons]; omega) h₃ (.loop _) htmem₂
          exact ⟨τ, σ', .tail hret, hsame.silent rfl rfl rfl⟩
      have hreturned := hsame.cons (.returned g ⟨k, none⟩) (n.storeStart g (wsub st.low 1) σ)
        (List.append_nil _).symm rfl (List.append_nil _).symm
      have hhandled : SameRun g acc done { st with polls := st.polls + 1 } st' _ σ' :=
        hreturned.cons (.handlerCalled g.toFrame (g.outer ++ [wsub st.low 1]))
          (n.storeStart g (wsub st.low 1) σ) (List.append_nil _).symm rfl
          (List.map_append (f := fun i => g.outer ++ [i]))
      refine ⟨_, σ', .log (.answer 1 ?_), hhandled.cons (.polled g) σ (List.append_nil _).symm rfl
        (List.append_nil _).symm⟩
      rw [if_neg Nat.one_ne_zero]
      exact returns_loopHandler hret

/-- The header, and the block before a chunk. -/
theorem follows_header (hL : L.Chunkable)
    (h : L.SliceRuns M g.maxIter beats (source L.header) st tr (source L.loopExitBB) st')
    (htmem : σ (.tmem g.tmem) = st.tmem) (ih : FollowsBelow L M g acc done beats st' tr.length) :
    Follows g acc done (n.chunkedLoop g st.iv (acc st.body)) σ st st' := by
  obtain ⟨tr₁, rfl, h₁⟩ := (hL.slice_header M g.maxIter beats st).rest h rfl
  rw [Nest.chunkedLoop]
  -- with something left the preheader comes next and then the header of the chunk, which is
  -- where `ih` applies; otherwise the slice leaves the loop
  by_cases hlt : ult st.iv g.maxIter = true
  · rw [if_pos hlt] at h₁ ⊢
    obtain ⟨tr₂, rfl, h₂⟩ := (L.slice_preheader M g.maxIter beats _).rest h₁ rfl
    obtain ⟨τ, σ', hret, hsame⟩ :=
      ih (by simp only [List.length_append, List.length_cons]; omega) h₂ (.chunk _) htmem
    refine ⟨τ, σ', .read ?_, hsame.silent rfl rfl rfl⟩
    rw [htmem]
    exact .tail hret
  · rw [if_neg hlt] at h₁ ⊢
    obtain ⟨-, -, rfl⟩ := h₁.of_stop rfl
    obtain ⟨τ, σ', hret, hsame⟩ := follows_exit acc done { st with returnCode := 0 } rfl rfl htmem
    exact ⟨τ, σ', hret, hsame.silent rfl rfl rfl⟩

/-- The header of a chunk, with the body or with the end of the chunk. In
either case fewer blocks of the run are left. -/
theorem follows_chunkHeader (hL : L.Chunkable) (hM : Computes L M g acc done)
    (hbeats : ∀ k rc, beats k = some rc → 0 ≤ rc)
    (h : L.SliceRuns M g.maxIter beats chunkLoopHeaderBlock st tr (source L.loopExitBB) st')
    (htmem : σ (.tmem g.tmem) = st.tmem) (ih : FollowsBelow L M g acc done beats st' tr.length) :
    Follows g acc done
      (n.chunkLoop g st.iv st.chunksize st.high st.low (acc st.body)) σ st st' := by
  obtain ⟨tr₁, rfl, h₁⟩ := (L.slice_chunkHeader M g.maxIter beats st).rest h rfl
  rw [Nest.chunkLoop]
  by_cases hlt : ult st.low st.high = true
  · rw [if_pos hlt] at h₁ ⊢
    -- the body is run once, then control is back at this block
    obtain ⟨trb, s', hbody, hacc, hdone⟩ := hM st.low st.body
    obtain ⟨trb', hbody', -⟩ := hL.slice_body g.maxIter beats hbody
    obtain ⟨tr₂, rfl, h₂⟩ := hbody'.rest h₁ rfl
    obtain ⟨tr₃, rfl, h₃⟩ := (L.slice_chunkLatch M g.maxIter beats _).rest h₂ rfl
    obtain ⟨τ, σ', hret, hsame⟩ :=
      ih (by simp only [List.length_append, List.length_cons]; omega) h₃ (.chunk _) htmem
    dsimp only at hret
    rw [hacc] at hret
    refine ⟨_, σ', .log (.tail hret), hsame.cons (.leaf _) σ hdone rfl ?_⟩
    exact (List.append_nil _).symm
  · rw [if_neg hlt] at h₁ ⊢
    obtain ⟨tr₂, rfl, h₂⟩ := (L.slice_chunkExit M g.maxIter beats st).rest h₁ rfl
    rw [updateAndHasRemainingChunksize_eq, Prog.bind_bind]
    have htmem₂ : Function.update σ (.tmem g.tmem)
        ((σ (.tmem g.tmem)).afterChunk (wsub st.high st.iv) st.chunksize)
        (.tmem g.tmem) = st.tmem.afterChunk (wsub st.high st.iv) st.chunksize := by
      rw [Function.update_self, htmem]
    by_cases hfull : wsub st.high st.iv = st.chunksize
    · rw [if_pos hfull] at h₂
      have hbelow : FollowsBelow L M g acc done beats st' tr₂.length := fun hlt =>
        ih (by simp only [List.length_append, List.length_cons]; omega)
      obtain ⟨τ, σ', hret, hsame⟩ := follows_polling hL hbeats h₂ htmem₂ hbelow
      refine ⟨τ, σ', .modify ?_, hsame.silent rfl rfl rfl⟩
      rw [Prog.pure_bind, if_neg (by simpa using hfull)]
      exact hret
    · -- what remains of the chunk is left to the next slice, without a poll
      rw [if_neg hfull] at h₂
      obtain ⟨-, -, rfl⟩ := h₂.of_stop rfl
      obtain ⟨τ, σ', hret, hsame⟩ := follows_exit acc done
        { st with
          tmem := st.tmem.afterChunk (wsub st.high st.iv) st.chunksize
          returnCode := 0 } rfl rfl htmem₂
      refine ⟨τ, σ', .modify ?_, hsame.silent rfl rfl rfl⟩
      rw [Prog.pure_bind, if_pos (by simpa using hfull)]
      exact hret

/-- Every run of the slice from a place where a procedure is called is
followed by the procedure. -/
theorem follows_slice (hL : L.Chunkable) (hM : Computes L M g acc done)
    (hbeats : ∀ k rc, beats k = some rc → 0 ≤ rc)
    (h : L.SliceRuns M g.maxIter beats x st tr (source L.loopExitBB) st')
    (hx : At L g acc x st p) (htmem : σ (.tmem g.tmem) = st.tmem) :
    Follows g acc done p σ st st' := by
  -- The induction is on the length of the run of the slice: each case follows it to the next
  -- place where a procedure is called, which is at least one block later.
  induction hn : tr.length using Nat.strong_induction_on generalizing x st p σ tr with
  | _ N ih =>
      subst hn
      have hbelow : FollowsBelow L M g acc done beats st' tr.length :=
        fun hlt h hx htmem => ih _ hlt h hx htmem rfl
      cases hx with
      | loop => exact follows_header hL h htmem hbelow
      | chunk => exact follows_chunkHeader hL hM hbeats h htmem hbelow

end Simulation

/-- The graph that the pass builds implements the procedure of the chunked
leaf loop. For every body that adds its iteration to the private copies, every
chunk size, overflow included, and every sequence of heartbeats and return
codes: a run of the slice is a run of `chunkedLoop` with its iterations, its
polls, its calls of the handler, its task memory and its result. -/
theorem slice_refines_procedures (L : LoopCFG B) (hL : L.Chunkable) (n : Nest) (g : Activation)
    (M : Nat → Sem B β) (acc : β → n.Values g.level) (done : β → List (List Nat))
    (hM : Computes L M g acc done) (beats : Nat → Option Int)
    (hbeats : ∀ k rc, beats k = some rc → 0 ≤ rc) (st : ChunkState β) (σ : n.sig.Store)
    (htmem : σ (.tmem g.tmem) = st.tmem) :
    ∃ G, L.executeLoopInChunk L.applyLeaf = some G ∧
      ∀ tr st', Flow.Runs G (L.chunkSem M g.maxIter beats) (· = source L.loopExitBB)
          (source L.header) st tr (source L.loopExitBB) st' →
        ∃ τ σ', Steps n.oracleBody (.run (n.chunkedLoop g st.iv (acc st.body))) σ τ
            (.run (.ret ⟨st'.returnCode, none⟩)) σ' ∧
          SameRun g acc done st st' τ σ' :=
  ⟨_, executeLoopInChunk_eq hL.header_ne_body hL.header,
    fun _ _ h => follows_slice hL hM hbeats h (.loop st) htmem⟩

/-- The body of a loop with a sum, in one block. -/
def summing : Nat → Sem (Fin 5) (fiveNest.Values 0 × List (List Nat)) := fun i =>
  { exec := fun _ s => (fiveNest.accumulate 0 [i] s.1, s.2 ++ [[i]])
    decide := fun _ _ => 0 }

/-- The one block of the body adds its iteration. -/
theorem summing_computes : Computes straightLoop summing fiveActivation Prod.fst Prod.snd := by
  intro i s
  refine ⟨[2], (summing i).exec 2 s, .step (t := 3) ?_ rfl (.refl _ _), rfl, rfl⟩
  rintro (h | h | h) <;> exact absurd h (by decide)

/-- Two iterations are left of a chunk of three. The handler declines after
the second iteration and promotes after the fifth one. -/
theorem slice_refines_procedures_five : ∃ τ σ' st', Steps fiveNest.oracleBody
    (.run (fiveNest.chunkedLoop fiveActivation 0 (fiveNest.privateCopies 0))) (fiveStore 2) τ
      (.run (.ret ⟨1, none⟩)) σ' ∧
    SameRun fiveActivation Prod.fst Prod.snd
      (beforeChunk ⟨0, 3, 2⟩ (fiveNest.privateCopies 0, [])) st' τ σ' ∧ st'.stored = [1, 4] := by
  -- the answer of the first handler call is 0, a decline, and those of the others are 1
  let beats : Nat → Option Int := fun k => if k = 0 then some 0 else some 1
  have hbeats : ∀ k rc, beats k = some rc → 0 ≤ rc := by
    intro k rc h
    dsimp only [beats] at h
    split at h <;> cases h <;> decide
  have hslice : (Flow.run (straightLoop.chunkedSlice 2 4)
      (straightLoop.chunkSem summing 5 beats) (· = source straightLoop.loopExitBB) 40
      (source straightLoop.header) (beforeChunk ⟨0, 3, 2⟩ (fiveNest.privateCopies 0, []))).any
        (fun o => decide (o.2.returnCode = 1 ∧ o.2.stored = [1, 4])) = true := by
    decide +kernel
  obtain ⟨⟨x, st'⟩, hrun, hcheck⟩ := (Option.any_eq_true _ _).mp hslice
  -- the run of the slice is computed, and the theorem gives the run of the procedures
  obtain ⟨hrc, hstored⟩ := of_decide_eq_true hcheck
  obtain ⟨rfl, tr, hruns⟩ := exists_runs hrun
  obtain ⟨G, hG, h⟩ := slice_refines_procedures straightLoop chunkable_straight fiveNest
    fiveActivation summing Prod.fst Prod.snd summing_computes beats hbeats
    (beforeChunk ⟨0, 3, 2⟩ (fiveNest.privateCopies 0, [])) (fiveStore 2) rfl
  obtain rfl : G = straightLoop.chunkedSlice 2 4 :=
    Option.some.inj (hG.symm.trans (executeLoopInChunk_eq (by decide) rfl))
  obtain ⟨τ, σ', hsteps, hsame⟩ := h tr st' hruns
  have hone : st'.returnCode = 1 := hrc
  rw [hone] at hsteps
  exact ⟨τ, σ', st', hsteps, hsame, hstored⟩

end HeartbeatCompiler
