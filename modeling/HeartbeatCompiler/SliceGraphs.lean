import HeartbeatCompiler.ChunkedSlice
import HeartbeatCompiler.Execution
import HeartbeatCompiler.ForkJoin.Simulation

/-!
# `HeartbeatCompiler.SliceGraphs`: the generated program with the graphs of its slices

`Nest.body` runs the loop of a slice as a procedure. The pass builds a graph of blocks for it:
`applyLeaf` for a leaf loop, `executeLoopInChunk` after it for a chunked one, and `linkCaller`
for a loop with a nested call. `Nest.graphBody` is the generated program in which each slice
enters the graph of its loop, and each block is a procedure. The handler forks such slices, so
they run side by side.

`graphs_implement_nest`: the two programs have the same runs, in every interleaving and with
every answer of the polls. What was proved of the runs of the procedures holds of the graphs.

A loop with its code is a `LoopCode`: the blocks, what those of the body compute, and that
an iteration of the body adds the contributions of the iteration to the private copies.
-/

set_option autoImplicit false

namespace HeartbeatCompiler

open ForkJoin Prog Flow SliceBlock

/-- The kinds of slices: those that call the slice of the next level, and the
leaf, with chunks or without. -/
inductive SliceKind
  | caller
  | leaf
  | chunkedLeaf
  deriving DecidableEq

/-- The code of the loop of level `l`: a loop that the pass chunks
(`LoopCFG.Chunkable`), whose header and latch hold the loop control only. The
last block of the body ends in a branch to the latch; it is the one that calls
the nested loop. An iteration of the body adds the contributions of the
iteration to the private copies, so the accumulators are updated in the body,
not in the latch. -/
structure LoopCode (n : Nest) (l : Nat) where
  B : Type
  [decEq : DecidableEq B]
  β : Type
  cfg : LoopCFG B
  chunkable : cfg.Chunkable
  last : successor0 (cfg.terminator cfg.bodyBB) = some cfg.latchBB
  /-- What the blocks of the body compute in an iteration. -/
  body : List Nat → Sem B β
  /-- The private copies of the live-outs. -/
  acc : β → n.Values l
  /-- The state at the start of the loop, given the outer indices and the private copies. -/
  init : List Nat → n.Values l → β
  acc_init : ∀ v a, acc (init v a) = a
  computes : ∀ v s, ∃ tr s', Flow.Runs cfg.terminator (body v) cfg.EndsIteration cfg.entry s tr
    cfg.latchBB s' ∧ acc s' = n.accumulate l v (acc s)

attribute [instance] LoopCode.decEq

variable {n : Nest}

/-- The graph that the pass builds for a slice, by the transformation of its
kind. -/
def LoopCode.graph {l : Nat} (c : LoopCode n l) : SliceKind → Option (Graph (SliceBlock c.B))
  | .caller => c.cfg.linkCaller c.cfg.bodyBB
  | .leaf => some c.cfg.applyLeaf
  | .chunkedLeaf => c.cfg.executeLoopInChunk c.cfg.applyLeaf

/-- The values of a slice: its induction variable, the return code so far, and
what its body works on. The last three are those of the blocks for the chunks.
-/
structure SliceState (β : Type) where
  iv : Nat
  returnCode : Ret
  body : β
  chunksize : Nat
  high : Nat
  low : Nat

/-- The procedures of the generated program, and the blocks of its slices.
Each block is a procedure of its own, called with the values that it reads. -/
inductive GraphProc (n : Nest) (code : (l : Nat) → LoopCode n l)
  | proc (p : Proc n)
  | block (kind : SliceKind) (g : Activation) (x : SliceBlock (code g.level).B)
      (st : SliceState (code g.level).β)

namespace Nest

variable (n) (code : (l : Nat) → LoopCode n l)

/-- The operations of the generated program, with the blocks of the slices as
procedures. -/
abbrev graphSig : Sig := n.sig.withProc (GraphProc n code)

/-- A slice enters the graph of its loop at the header. The loop over a chunk
is entered in the middle of the graph, with the values that its preheader has
computed. -/
def enter : Proc n → GraphProc n code
  | .nestLoop g i acc =>
      .block .caller g (source (code g.level).cfg.header)
        ⟨i, ⟨0, none⟩, (code g.level).init g.outer acc, 0, 0, 0⟩
  | .leafLoop g i acc =>
      .block .leaf g (source (code g.level).cfg.header)
        ⟨i, ⟨0, none⟩, (code g.level).init g.outer acc, 0, 0, 0⟩
  | .chunkedLoop g i acc =>
      .block .chunkedLeaf g (source (code g.level).cfg.header)
        ⟨i, ⟨0, none⟩, (code g.level).init g.outer acc, 0, 0, 0⟩
  | .chunkLoop g i chunksize high low acc =>
      .block .chunkedLeaf g chunkLoopHeaderBlock
        ⟨i, ⟨0, none⟩, (code g.level).init g.outer acc, chunksize, high, low⟩
  | p => .proc p

/-- Code that is the same in both programs. It calls the graph of a loop where
the other program calls the procedure of the loop. -/
def lift {α : Type} (m : Prog n.sig α) : Prog (n.graphSig code) α :=
  Prog.mapProc (S := n.sig) (P := Proc n) (n.enter code) m

end Nest

/-! ### The blocks -/

namespace SliceKind

variable {β : Type}

/-- The iteration that the body runs: `low` replaces the induction variable in
a chunk. -/
def iteration (kind : SliceKind) (st : SliceState β) : Nat :=
  if kind = .chunkedLeaf then st.low else st.iv

/-- The header tests the induction variable against the bound of the slice. -/
def test (kind : SliceKind) (i maxIter : Nat) : Bool :=
  if kind = .chunkedLeaf then ult i maxIter else slt i maxIter

/-- What the latch adds to the induction variable. -/
def stepSize (kind : SliceKind) (st : SliceState β) : Nat :=
  if kind = .chunkedLeaf then st.chunksize else 1

/-- What the handler block stores in `START_ITER`. -/
def lastIteration (kind : SliceKind) (st : SliceState β) : Nat :=
  if kind = .chunkedLeaf then wsub st.low 1 else st.iv

end SliceKind

namespace Nest

variable (n) {β : Type}

/-- The call of the nested slice, with what stands around it in the last block
of the body. A block ends with its values and its decision, which is the
successor that its terminator takes. -/
def callBlock (g : Activation) (st : SliceState β) : Prog n.sig (SliceState β × Nat) := do
  let v := g.outer ++ [st.iv]
  log (S := n.sig) (.pre v)
  n.storeCallee g st.iv v
  let r ← Prog.invoke (S := n.sig)
    (.slice ⟨.nested g.level st.iv g.maxIter :: g.path, g.level + 1, g.cxts, g.tmem, 0⟩)
  log (S := n.sig) (.returned g r)
  n.readNestedResult g v
  log (S := n.sig) (.post v)
  -- a positive code ends the loop, and it is the code of this slice too
  pure ({ st with returnCode := r }, if 0 < r.rc then 0 else 1)

/-- The last block of the body: the call of the nested slice, or in a leaf
loop the work of the iteration. -/
def lastBlock (kind : SliceKind) (g : Activation) (st : SliceState β) :
    Prog n.sig (SliceState β × Nat) :=
  if kind = .caller then n.callBlock g st
  else do
    log (S := n.sig) (.leaf (g.outer ++ [kind.iteration st]))
    pure (st, 0)

variable (code : (l : Nat) → LoopCode n l)

/-- A block of the source. The header and the latch hold the loop control, the
last block of the body the call, and the other blocks only compute. -/
def sourceBlock (kind : SliceKind) (g : Activation) (b : (code g.level).B)
    (st : SliceState (code g.level).β) : Prog n.sig (SliceState (code g.level).β × Nat) :=
  let c := code g.level
  if b = c.cfg.header then
    -- the return code is 0 where the header leaves the loop
    pure ({ st with returnCode := ⟨0, none⟩ }, if kind.test st.iv g.maxIter then 0 else 1)
  else if b = c.cfg.latchBB then pure ({ st with iv := wadd st.iv (kind.stepSize st) }, 0)
  else
    let v := g.outer ++ [kind.iteration st]
    let st' := { st with body := (c.body v).exec b st.body }
    if b = c.cfg.bodyBB then n.lastBlock kind g st'
    else pure (st', (c.body v).decide b st'.body)

/-- What a block of a slice does, with the values and the decision at its end.
The blocks that the pass adds are those of the polling, of the handler and of
the chunks. -/
def blockEffect (kind : SliceKind) (g : Activation) (x : SliceBlock (code g.level).B)
    (st : SliceState (code g.level).β) : Prog n.sig (SliceState (code g.level).β × Nat) :=
  match x with
  | source b => n.sourceBlock code kind g b st
  | pollingBlock => do
      let heartbeat ← n.heartbeatPolling g
      pure (st, if heartbeat = 0 then 1 else 0)
  | loopHandlerBlock => do
      let r ← n.loopHandler g (kind.lastIteration st)
      pure ({ st with returnCode := r }, if 0 < r.rc then 0 else 1)
  | chunkLoopPreheaderBlock => do
      -- `get_chunksize`
      let tm : TaskMemory ← read (S := n.sig) (Loc.tmem g.tmem)
      let chunksize := tm.remainingChunksize
      pure ({ st with
        chunksize := chunksize
        high := umin (wadd st.iv chunksize) g.maxIter
        low := st.iv }, 0)
  | chunkLoopHeaderBlock => pure (st, if ult st.low st.high then 0 else 1)
  | chunkLoopLatchBlock => pure ({ st with low := wadd st.low 1 }, 0)
  | chunkLoopExitBlock => do
      -- a chunk that the bound cut short leaves the loop without a poll
      let remaining ← n.updateAndHasRemainingChunksize g.tmem (wsub st.high st.iv) st.chunksize
      pure ({ st with returnCode := ⟨0, none⟩ }, if remaining then 0 else 1)

/-- Control goes to the block that the terminator of `x` selects in the graph
of the slice. There is no step if the graph was not built or has no such
successor. -/
def goto (kind : SliceKind) (g : Activation) (x : SliceBlock (code g.level).B)
    (o : SliceState (code g.level).β × Nat) : Prog (n.graphSig code) Ret := do
  let graph ← Prog.load ((code g.level).graph kind)
  let y ← Prog.load ((graph x).target o.2)
  invoke (S := n.graphSig code) (.block kind g y o.1)

/-- The procedures of the program with the graphs. A slice that has reached
the exit of its loop goes on as the program without graphs does, and any other
block is run and left. -/
def graphBody : GraphProc n code → Prog (n.graphSig code) Ret
  | .proc p => n.lift code (n.body p)
  | .block kind g x st =>
      if x = source (code g.level).cfg.loopExitBB then
        invoke (S := n.graphSig code)
          (.proc (.loopExit g st.returnCode ((code g.level).acc st.body)))
      else do
        let o ← n.lift code (n.blockEffect code kind g x st)
        n.goto code kind g x o

end Nest

/-! ### The graphs -/

namespace LoopCode

variable {l : Nat} (c : LoopCode n l)

/-- The graph that is built, written out. `graph` is shown to return it for
every loop that can be chunked. -/
def built : SliceKind → Graph (SliceBlock c.B)
  | .caller => Function.update c.cfg.cloned (source c.cfg.bodyBB)
      (.condBr (source c.cfg.loopExitBB) (source c.cfg.latchBB))
  | .leaf => c.cfg.applyLeaf
  | .chunkedLeaf => c.cfg.chunkedSlice c.cfg.entry c.cfg.loopExitBB

/-- The pass finds what it looks for, so the graph of every kind of slice is
built. -/
theorem graph_eq (kind : SliceKind) : c.graph kind = some (c.built kind) := by
  cases kind with
  | caller => exact LoopCFG.linkCaller_eq c.last
  | leaf => rfl
  | chunkedLeaf =>
      exact LoopCFG.executeLoopInChunk_eq c.chunkable.header_ne_body c.chunkable.header

/-- All blocks of the source but the header and the last one of the body keep
their terminators. -/
theorem built_source (kind : SliceKind) {b : c.B} (hbody : b ≠ c.cfg.bodyBB)
    (hheader : b ≠ c.cfg.header) :
    c.built kind (source b) = (c.cfg.terminator b).map source := by
  cases kind with
  | caller =>
      have hne : source b ≠ source c.cfg.bodyBB := fun h => hbody (SliceBlock.source.inj h)
      exact Function.update_of_ne hne _ _
  | leaf => exact LoopCFG.applyLeaf_source hbody
  | chunkedLeaf => exact (if_neg hbody).trans (if_neg hheader)

/-- The header of a chunked slice goes to the preheader of the chunk, the
other headers to the body; all of them leave the loop otherwise. -/
theorem built_header (kind : SliceKind) : c.built kind (source c.cfg.header) =
    .condBr (if kind = .chunkedLeaf then chunkLoopPreheaderBlock else source c.cfg.entry)
      (source c.cfg.loopExitBB) := by
  have hbody : c.cfg.header ≠ c.cfg.bodyBB := c.chunkable.header_ne_body.symm
  have hmap : (c.cfg.terminator c.cfg.header).map source =
      .condBr (source c.cfg.entry) (source c.cfg.loopExitBB) := by
    rw [c.chunkable.header]
    rfl
  cases kind with
  | caller =>
      have hne : source c.cfg.header ≠ source c.cfg.bodyBB :=
        fun h => hbody (SliceBlock.source.inj h)
      exact (Function.update_of_ne hne _ _).trans hmap
  | leaf => exact (LoopCFG.applyLeaf_source hbody).trans hmap
  | chunkedLeaf => exact (if_neg hbody).trans (if_pos rfl)

/-- The latch goes back to the header. -/
theorem built_latch (kind : SliceKind) :
    c.built kind (source c.cfg.latchBB) = .br (source c.cfg.header) := by
  rw [c.built_source kind LoopCFG.bodyBB_ne_latch.symm LoopCFG.latch_ne_header, c.chunkable.latch]
  rfl

end LoopCode

/-! ### The blocks and the procedures -/

section Blocks

variable {code : (l : Nat) → LoopCode n l}

/-- The procedure for the place that a slice is at. Only the headers stand for
procedures; the other blocks are run on the way from one to the next. -/
inductive Stands (code : (l : Nat) → LoopCode n l) : GraphProc n code → Proc n → Prop
  | proc (p : Proc n) : Stands code (.proc p) p
  | nestLoop (g : Activation) (st : SliceState (code g.level).β) :
      Stands code (.block .caller g (source (code g.level).cfg.header) st)
        (.nestLoop g st.iv ((code g.level).acc st.body))
  | leafLoop (g : Activation) (st : SliceState (code g.level).β) :
      Stands code (.block .leaf g (source (code g.level).cfg.header) st)
        (.leafLoop g st.iv ((code g.level).acc st.body))
  | chunkedLoop (g : Activation) (st : SliceState (code g.level).β) :
      Stands code (.block .chunkedLeaf g (source (code g.level).cfg.header) st)
        (.chunkedLoop g st.iv ((code g.level).acc st.body))
  | chunkLoop (g : Activation) (st : SliceState (code g.level).β) :
      Stands code (.block .chunkedLeaf g chunkLoopHeaderBlock st)
        (.chunkLoop g st.iv st.chunksize st.high st.low ((code g.level).acc st.body))

/-- The program with the graphs performs the operations of the procedures, in
the same order and with the same values. -/
abbrev Implements (code : (l : Nat) → LoopCode n l) {α : Type} (m : Prog (n.graphSig code) α)
    (m' : Prog n.sig α) : Prop :=
  Prog.Simulates (S := n.sig) (Stands code) (n.graphBody code) n.body m m'

/-- A slice enters its graph where its loop is called. -/
theorem stands_enter (p : Proc n) : Stands code (n.enter code p) p := by
  -- the private copies that a slice carries are those that it is called with, by `acc_init`
  cases p with
  | nestLoop g i acc =>
      have h : Stands code _ _ := .nestLoop g
        ⟨i, ⟨0, none⟩, (code g.level).init g.outer acc, 0, 0, 0⟩
      rwa [(code g.level).acc_init] at h
  | leafLoop g i acc =>
      have h : Stands code _ _ := .leafLoop g
        ⟨i, ⟨0, none⟩, (code g.level).init g.outer acc, 0, 0, 0⟩
      rwa [(code g.level).acc_init] at h
  | chunkedLoop g i acc =>
      have h : Stands code _ _ := .chunkedLoop g
        ⟨i, ⟨0, none⟩, (code g.level).init g.outer acc, 0, 0, 0⟩
      rwa [(code g.level).acc_init] at h
  | chunkLoop g i chunksize high low acc =>
      have h : Stands code _ _ := .chunkLoop g
        ⟨i, ⟨0, none⟩, (code g.level).init g.outer acc, chunksize, high, low⟩
      rwa [(code g.level).acc_init] at h
  | _ => exact .proc _

/-- Code outside the graphs performs its own operations. -/
theorem implements_lift {α : Type} (m : Prog n.sig α) : Implements code (n.lift code m) m :=
  Prog.Simulates.mapProc (S := n.sig) stands_enter m

/-- An operation of a block, which the procedure performs too. -/
theorem Implements.next {α β : Type} {m : Prog n.sig α} {k : α → Prog n.sig β}
    {f : β → Prog (n.graphSig code) Ret} {k' : α → Prog n.sig Ret}
    (h : ∀ a, Implements code (n.lift code (k a) >>= f) (k' a)) :
    Implements code (n.lift code (m >>= k) >>= f) (m >>= k') := by
  have hlift : n.lift code (m >>= k) = n.lift code m >>= fun a => n.lift code (k a) :=
    Prog.mapProc_bind (S := n.sig) _ m k
  rw [hlift, Prog.bind_bind]
  exact (implements_lift m).bind h

section Steps

variable {kind : SliceKind} {g : Activation} {st : SliceState (code g.level).β}
  {x y z : SliceBlock (code g.level).B} {m : Prog n.sig Ret}

/-- The terminator of a block. -/
theorem goto_eq {d : Nat} (h : ((code g.level).built kind x).target d = some y) :
    n.goto code kind g x (st, d) =
      Prog.invoke (S := n.graphSig code) (.block kind g y st) := by
  rw [Nest.goto, (code g.level).graph_eq, Prog.load, Prog.bind_eq, Prog.bind, h]
  rfl

/-- A block other than the exit block. -/
theorem Implements.block (hx : x ≠ source (code g.level).cfg.loopExitBB)
    (h : Implements code
      (n.lift code (n.blockEffect code kind g x st) >>= n.goto code kind g x) m) :
    Implements code (n.graphBody code (.block kind g x st)) m := by
  rw [Nest.graphBody, if_neg hx]
  exact h

/-- A block that performs no operation. -/
theorem Implements.silent {st' : SliceState (code g.level).β} {d : Nat}
    (hx : x ≠ source (code g.level).cfg.loopExitBB)
    (heffect : n.blockEffect code kind g x st = pure (st', d))
    (ht : ((code g.level).built kind x).target d = some y)
    (h : Implements code (Prog.invoke (S := n.graphSig code) (.block kind g y st')) m) :
    Implements code (n.graphBody code (.block kind g x st)) m := by
  refine Implements.block hx ?_
  rw [heffect]
  show Implements code (n.goto code kind g x (st', d)) m
  rwa [goto_eq ht]

/-- The exit block. -/
theorem Implements.exit :
    Implements code (Prog.invoke (S := n.graphSig code)
        (.block kind g (source (code g.level).cfg.loopExitBB) st))
      (Prog.invoke (S := n.sig) (.loopExit g st.returnCode ((code g.level).acc st.body))) := by
  refine Prog.Simulates.invoke_left (S := n.sig) ?_
  rw [Nest.graphBody, if_pos rfl]
  exact Prog.Simulates.invoke (S := n.sig) (.proc _)

/-- The header. -/
theorem Implements.header
    (hlt : kind.test st.iv g.maxIter = true → Implements code
      (Prog.invoke (S := n.graphSig code) (.block kind g
        (if kind = .chunkedLeaf then chunkLoopPreheaderBlock else source (code g.level).cfg.entry)
        { st with returnCode := ⟨0, none⟩ })) m)
    (hge : ¬ kind.test st.iv g.maxIter = true →
      m = Prog.invoke (S := n.sig) (.loopExit g ⟨0, none⟩ ((code g.level).acc st.body))) :
    Implements code
      (n.graphBody code (.block kind g (source (code g.level).cfg.header) st)) m := by
  have hx := LoopCFG.source_ne_exit (code g.level).cfg.header_mem
  have heffect : n.blockEffect code kind g (source (code g.level).cfg.header) st =
      pure ({ st with returnCode := ⟨0, none⟩ }, if kind.test st.iv g.maxIter then 0 else 1) :=
    if_pos rfl
  -- the block computes nothing but the return code; its test selects the edge
  by_cases htest : kind.test st.iv g.maxIter = true
  · rw [if_pos htest] at heffect
    refine Implements.silent hx heffect ?_ (hlt htest)
    rw [LoopCode.built_header, Terminator.target_condBr_zero]
  · rw [if_neg htest] at heffect
    rw [hge htest]
    refine Implements.silent hx heffect ?_ Implements.exit
    rw [LoopCode.built_header, Terminator.target_condBr_one]

/-- The latch. -/
theorem Implements.latch
    (h : Implements code (Prog.invoke (S := n.graphSig code)
      (.block kind g (source (code g.level).cfg.header)
        { st with iv := wadd st.iv (kind.stepSize st) })) m) :
    Implements code (Prog.invoke (S := n.graphSig code)
      (.block kind g (source (code g.level).cfg.latchBB) st)) m := by
  have hx := LoopCFG.source_ne_exit (code g.level).cfg.latch_mem
  have heffect : n.blockEffect code kind g (source (code g.level).cfg.latchBB) st =
      pure ({ st with iv := wadd st.iv (kind.stepSize st) }, 0) :=
    (if_neg LoopCFG.latch_ne_header).trans (if_pos rfl)
  refine Prog.Simulates.invoke_left (S := n.sig) (Implements.silent hx heffect ?_ h)
  rw [LoopCode.built_latch, Terminator.target_br]

/-- The blocks of the body, up to the last one, compute and do nothing that
can be seen. -/
theorem Implements.body {b : (code g.level).B} {s s' : (code g.level).β}
    {tr : List (code g.level).B}
    (hruns : Flow.Runs (code g.level).cfg.terminator
      ((code g.level).body (g.outer ++ [kind.iteration st])) (code g.level).cfg.EndsIteration b s
      tr (code g.level).cfg.latchBB s') (hb : ¬ (code g.level).cfg.EndsIteration b)
    (h : Implements code (n.lift code (n.lastBlock kind g { st with body := s' }) >>=
      n.goto code kind g (source (code g.level).cfg.bodyBB)) m) :
    Implements code (Prog.invoke (S := n.graphSig code)
      (.block kind g (source b) { st with body := s })) m := by
  generalize hd : (code g.level).cfg.latchBB = d at hruns
  induction hruns with
  | refl b s => exact absurd (.inl hd.symm) hb
  | @step b t d s s' tr _ ht hrest ih =>
      subst hd
      have hheader : b ≠ (code g.level).cfg.header := fun heq => hb (.inr (.inl heq))
      have hlatch : b ≠ (code g.level).cfg.latchBB := fun heq => hb (.inl heq)
      have hexit : source b ≠ source (code g.level).cfg.loopExitBB :=
        fun heq => hb (.inr (.inr (SliceBlock.source.inj heq)))
      refine Prog.Simulates.invoke_left (S := n.sig) ?_
      by_cases hbody : b = (code g.level).cfg.bodyBB
      · -- the iteration ends after the last block
        subst hbody
        obtain rfl := (code g.level).chunkable.body t (Terminator.mem_of_target ht)
        obtain ⟨-, -, rfl⟩ := hrest.of_stop LoopCFG.endsIteration_latch
        refine Implements.block hexit ?_
        have heffect : n.blockEffect code kind g (source (code g.level).cfg.bodyBB)
            { st with body := s } = n.lastBlock kind g { st with
              body := ((code g.level).body (g.outer ++ [kind.iteration st])).exec
                (code g.level).cfg.bodyBB s } :=
          (if_neg hheader).trans ((if_neg hlatch).trans (if_pos rfl))
        rw [heffect]
        exact h
      · have hends : ¬ (code g.level).cfg.EndsIteration t := by
          intro hends
          obtain ⟨-, heq, -⟩ := hrest.of_stop hends
          exact hbody (LoopCFG.eq_bodyBB (heq ▸ Terminator.mem_of_target ht))
        refine Implements.silent (y := source t) hexit
          ((if_neg hheader).trans ((if_neg hlatch).trans (if_neg hbody))) ?_ (ih hends h rfl)
        rw [LoopCode.built_source _ kind hbody hheader, Terminator.target_map]
        exact congrArg (Option.map source) ht

end Steps

/-- Iteration `i` of the body, from its first block to its last one. -/
theorem Implements.iteration {kind : SliceKind} {g : Activation}
    {st : SliceState (code g.level).β} {m : Prog n.sig Ret} {i : Nat} (hi : kind.iteration st = i)
    (h : ∀ s, (code g.level).acc s = n.accumulate g.level (g.outer ++ [i])
        ((code g.level).acc st.body) →
      Implements code (n.lift code (n.lastBlock kind g { st with body := s }) >>=
        n.goto code kind g (source (code g.level).cfg.bodyBB)) m) :
    Implements code (Prog.invoke (S := n.graphSig code)
      (.block kind g (source (code g.level).cfg.entry) st)) m := by
  subst hi
  obtain ⟨tr, s, hruns, hacc⟩ :=
    (code g.level).computes (g.outer ++ [kind.iteration st]) st.body
  exact Implements.body hruns (code g.level).chunkable.entry_not_ends (h s hacc)

end Blocks

end HeartbeatCompiler
