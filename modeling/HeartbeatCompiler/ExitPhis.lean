import HeartbeatCompiler.LoopSurgery
import HeartbeatCompiler.Partial

/-!
# `HeartbeatCompiler.ExitPhis`: the PHIs of the exit block

The exit block of a slice has a PHI for the return code and one for each live-out. `apply`,
the call of a nested loop and the chunking each add an edge to that block, and each must add
an entry to these PHIs. `SliceTask.Complete` says that the entries are those of the
predecessors and that their values are right: for a live-out in every run of the slice, the
value accumulated in the iterations run so far.

The handler and the chunk take the value of the update of the accumulator at the end of the
body. So the place of the update matters: in the latch it is not run before these edges, and
in the header it is run once for each chunk only.

The call of a nested loop takes the value for its edge from the edge of the handler, which
only leaf loops have, and asserts that it is there. So the pass stops at every loop with
a live-out that is not a leaf loop (`exit_phis_complete_iff`).
-/

set_option autoImplicit false

namespace HeartbeatCompiler

open Flow SliceBlock

/-- The values that the PHIs of one live-out, or of the return code, refer to.
In the clone `update` is the instruction that adds the contribution of an
iteration, and `liveOutPhi` the PHI that chunking puts in the header of the
chunk. -/
inductive SSAValue where
  | zero
  | promotionHandlerReturnCode
  | nestedLoopReturnCode
  | identityValue
  | accumulatingPhi
  | update
  | liveOutPhi
  deriving DecidableEq

/-- A PHI node with an entry for each edge, in the order in which they were
added. The code accesses the entries both by their place and by their block. -/
structure Phi (K : Type) where
  incoming : List (K × SSAValue)

namespace Phi

variable {K : Type} [DecidableEq K]

/-- The number of entries. -/
def getNumIncomingValues (phi : Phi K) : Nat := phi.incoming.length

/-- The value of an entry, by its place. -/
def getIncomingValue (phi : Phi K) (i : Nat) : Option SSAValue := phi.incoming[i]?.map Prod.snd

/-- The value of the first entry for a block. The code asserts that there is
one; here a missing entry is `none`, and the pass stops. -/
def getIncomingValueForBlock (phi : Phi K) (b : K) : Option SSAValue :=
  (phi.incoming.find? fun e => e.1 = b).map Prod.snd

/-- A new entry at the end. -/
def addIncoming (phi : Phi K) (v : SSAValue) (b : K) : Phi K := ⟨phi.incoming ++ [(b, v)]⟩

/-- Another value for an entry, by its place. -/
def setIncomingValue (phi : Phi K) (i : Nat) (v : SSAValue) : Phi K :=
  ⟨phi.incoming.modify i fun e => (e.1, v)⟩

/-- Another value for the entries of a block, which must have one. -/
def setIncomingValueForBlock (phi : Phi K) (b : K) (v : SSAValue) : Option (Phi K) :=
  if phi.incoming.any fun e => e.1 = b then
    some ⟨phi.incoming.map fun e => if e.1 = b then (b, v) else e⟩
  else none

end Phi

/-- The order of the two entries of the PHI that accumulates a live-out. The
code takes the entry at place 1 to be that of the latch. -/
inductive EntryOrder where
  | preHeaderFirst
  | latchFirst
  deriving DecidableEq

/-- A live-out of a loop before the pass: the order of the entries of the PHI
that accumulates it, and the block of the instruction that adds the
contribution of an iteration. Both are left open by the checks of the pass. -/
structure LiveOut (B : Type) where
  order : EntryOrder
  updateBB : B

/-- The loops of a nest before the pass, with the live-outs of each and the
block of the call of the next one. Nothing but the header has an edge to the
exit block, and a nested loop has at most one live-out. The PHI that
accumulates a live-out takes its update from the latch, so every path from the
header to the latch runs the update. -/
structure NestCFG where
  numLevels : Nat
  Block : Nat → Type
  decEq : ∀ l, DecidableEq (Block l)
  loop : ∀ l, LoopCFG (Block l)
  liveOuts : ∀ l, List (LiveOut (Block l))
  call : ∀ l, Block l
  chunkLoopIterations : Bool
  exit_pred : ∀ l b, (loop l).loopExitBB ∈ ((loop l).terminator b).successors →
    b = (loop l).header
  nested_liveOuts : ∀ l, 0 < l → (liveOuts l).length ≤ 1
  update_dominates : ∀ l, ∀ o ∈ liveOuts l,
    Dominates (loop l).terminator (loop l).header o.updateBB (loop l).latchBB

attribute [instance] NestCFG.decEq

/-- A block of the slice task of a level. -/
abbrev NestCFG.TaskBlock (N : NestCFG) := Σ l, SliceBlock (N.Block l)

/-- The PHIs of a live-out: in the exit block, in the header and in the header
of the chunk, and the block of its update. In the body the accumulator is read
through `bodyUse`, which is what chunking replaces there. -/
structure LiveOutPhis (K : Type) where
  updateBB : K
  liveOutPhiAtLoopExitBlock : Phi K
  accumulatingPhi : Phi K
  liveOutPhi : Phi K
  bodyUse : SSAValue

/-- A slice task on its way through the pass: the terminators of its blocks,
the PHI of the return code and those of its live-outs. -/
structure SliceTask (N : NestCFG) (l : Nat) where
  terminators : Graph (SliceBlock (N.Block l))
  returnCodePhiInst : Phi N.TaskBlock
  liveOuts : List (LiveOutPhis N.TaskBlock)

namespace NestCFG

variable (N : NestCFG) (l : Nat)

/-- The loop calls no other one. -/
def isLeafLoop : Prop := l + 1 = N.numLevels

/-- The levels of a nest are compared. -/
instance : Decidable (N.isLeafLoop l) := inferInstanceAs (Decidable (_ = _))

/-- The PHIs of a live-out in the clone: the exit block has the edge of the
header. The entry of the preheader is the identity, since the private copies
start there. -/
def clonedLiveOut (o : LiveOut (N.Block l)) : LiveOutPhis N.TaskBlock where
  updateBB := ⟨l, source o.updateBB⟩
  liveOutPhiAtLoopExitBlock := ⟨[(⟨l, source (N.loop l).header⟩, .accumulatingPhi)]⟩
  accumulatingPhi :=
    match o.order with
    | .preHeaderFirst => ⟨[(⟨l, source (N.loop l).preHeader⟩, .identityValue),
        (⟨l, source (N.loop l).latchBB⟩, .update)]⟩
    | .latchFirst => ⟨[(⟨l, source (N.loop l).latchBB⟩, .update),
        (⟨l, source (N.loop l).preHeader⟩, .identityValue)]⟩
  liveOutPhi := ⟨[]⟩
  bodyUse := .accumulatingPhi

/-- The new edge from the handler block, in `apply`: the value of the
accumulator at the end of the body, which is taken from its entry at place 1.
The guards are the assertions of the code. -/
def applyLiveOut (v : LiveOutPhis N.TaskBlock) : Option (LiveOutPhis N.TaskBlock) := do
  guard (v.liveOutPhiAtLoopExitBlock.getNumIncomingValues = 1)
  let inLoopPreHeader ← v.liveOutPhiAtLoopExitBlock.getIncomingValue 0
  guard (inLoopPreHeader = .accumulatingPhi ∧ v.accumulatingPhi.getNumIncomingValues = 2)
  let value ← v.accumulatingPhi.getIncomingValue 1
  return { v with
    liveOutPhiAtLoopExitBlock :=
      v.liveOutPhiAtLoopExitBlock.addIncoming value ⟨l, loopHandlerBlock⟩ }

/-- `apply`: the clone, and in a leaf loop the edge from the handler block
with its entries. A loop with a nested call gets no such edge since the change
that the source dates 07/30. -/
def applySlice : Option (SliceTask N l) := do
  let returnCode : Phi N.TaskBlock := ⟨[(⟨l, source (N.loop l).header⟩, .zero)]⟩
  let cloned := (N.liveOuts l).map (N.clonedLiveOut l)
  if N.isLeafLoop l then
    let liveOuts ← cloned.mapM (N.applyLiveOut l)
    return ⟨(N.loop l).applyLeaf,
      returnCode.addIncoming .promotionHandlerReturnCode ⟨l, loopHandlerBlock⟩, liveOuts⟩
  else
    return ⟨(N.loop l).cloned, returnCode, cloned⟩

/-- The new edge from the block of the nested call: the value of the edge from
the handler block of the callee. The guard is the assertion that such an edge
exists. -/
def linkLiveOut (v : LiveOutPhis N.TaskBlock) : Option (LiveOutPhis N.TaskBlock) := do
  guard (v.liveOutPhiAtLoopExitBlock.getNumIncomingValues = 2)
  let value ← v.liveOutPhiAtLoopExitBlock.getIncomingValueForBlock ⟨l + 1, loopHandlerBlock⟩
  return { v with
    liveOutPhiAtLoopExitBlock :=
      v.liveOutPhiAtLoopExitBlock.addIncoming value ⟨l, source (N.call l)⟩ }

/-- `invokeHeartbeatFunctionAsideCallerLoop` in the task of the caller: the
branch behind the nested call, and the entries for its edge to the exit block.
-/
def linkSlice (task : SliceTask N l) : Option (SliceTask N l) := do
  guard ((N.liveOuts (l + 1)).length > 0 → (N.liveOuts (l + 1)).length = 1)
  let terminators ← (N.loop l).linkCaller (N.call l)
  let liveOuts ← task.liveOuts.mapM (N.linkLiveOut l)
  return ⟨terminators, task.returnCodePhiInst.addIncoming .nestedLoopReturnCode
    ⟨l, source (N.call l)⟩, liveOuts⟩

/-- The PHIs of a live-out in a chunked loop. The accumulator of the header
now comes from the header of the chunk, and so do the values on the edges that
leave from the end of a chunk. -/
def chunkLiveOut (v : LiveOutPhis N.TaskBlock) : Option (LiveOutPhis N.TaskBlock) := do
  let value ← v.accumulatingPhi.getIncomingValue 1
  let atExit ← v.liveOutPhiAtLoopExitBlock.setIncomingValueForBlock ⟨l, loopHandlerBlock⟩
    .liveOutPhi
  return { v with
    liveOutPhiAtLoopExitBlock := atExit.addIncoming .liveOutPhi ⟨l, chunkLoopExitBlock⟩
    accumulatingPhi := v.accumulatingPhi.setIncomingValue 1 .liveOutPhi
    liveOutPhi := ⟨[(⟨l, chunkLoopPreheaderBlock⟩, .accumulatingPhi),
      (⟨l, chunkLoopLatchBlock⟩, value)]⟩
    bodyUse := if v.bodyUse = .accumulatingPhi then .liveOutPhi else v.bodyUse }

/-- `executeLoopInChunk`: the graph of the chunked loop, the entries for its
new exit edge, and the PHIs of the live-outs. The values that they take up are
the ones `apply` has put there. -/
def chunkSlice (task : SliceTask N l) : Option (SliceTask N l) := do
  let terminators ← (N.loop l).executeLoopInChunk task.terminators
  let liveOuts ← task.liveOuts.mapM (N.chunkLiveOut l)
  return ⟨terminators, task.returnCodePhiInst.addIncoming .zero ⟨l, chunkLoopExitBlock⟩, liveOuts⟩

/-- The slice task of a level after the pass; `none` if one of its assertions
fails. -/
def sliceTask : Option (SliceTask N l) := do
  let task ← N.applySlice l
  if N.isLeafLoop l then
    if N.chunkLoopIterations then N.chunkSlice l task else return task
  else
    N.linkSlice l task

end NestCFG

/-! ### Runs -/

/-- The values of one live-out. `contribution` is what the iteration in
progress adds, `before` what was accumulated before it and `now` what is
accumulated in the iterations run so far. -/
structure AccumulatorState (V : Type) where
  accumulatingPhi : V
  update : V
  liveOutPhi : V
  contribution : V
  before : V
  now : V

/-- What a value of the code stands for in a state. The other values are
return codes. -/
def AccumulatorState.eval {V : Type} (s : AccumulatorState V) (identity : V) :
    SSAValue → Option V
  | .identityValue => some identity
  | .accumulatingPhi => some s.accumulatingPhi
  | .update => some s.update
  | .liveOutPhi => some s.liveOutPhi
  | _ => none

section Runs

variable {N : NestCFG} {l : Nat} {V : Type}

/-- The value through which a block of the source reads the accumulator. The
uses in the body are those that the chunking replaces; header and latch keep
theirs. -/
def LiveOutPhis.use (v : LiveOutPhis N.TaskBlock) (b : N.Block l) : SSAValue :=
  if b = (N.loop l).header ∨ b = (N.loop l).latchBB then .accumulatingPhi else v.bodyUse

/-- Running the block `b` after `p`. The headers start an iteration, with the
contribution `x`; the first iteration of a chunk is the one that the header
started. The block of the update adds the contribution to the accumulator that
it reads. At the end of the body the iteration is run, which is what `now`
records. -/
def LiveOutPhis.enter (v : LiveOutPhis N.TaskBlock) (op : V → V → V) (identity x : V)
    (p b : SliceBlock (N.Block l)) (s : AccumulatorState V) : Option (AccumulatorState V) :=
  match b with
  | source b => do
      let s ←
        if b = (N.loop l).header then do
          let value ← v.accumulatingPhi.getIncomingValueForBlock ⟨l, p⟩
          let acc ← s.eval identity value
          pure { s with accumulatingPhi := acc, contribution := x, before := s.now }
        else pure s
      let s ←
        if (⟨l, source b⟩ : N.TaskBlock) = v.updateBB then do
          let acc ← s.eval identity (v.use b)
          pure { s with update := op acc s.contribution }
        else pure s
      pure (if b = (N.loop l).bodyBB then { s with now := op s.before s.contribution } else s)
  | chunkLoopHeaderBlock => do
      let value ← v.liveOutPhi.getIncomingValueForBlock ⟨l, p⟩
      let acc ← s.eval identity value
      let contribution := if p = chunkLoopPreheaderBlock then s.contribution else x
      return { s with liveOutPhi := acc, contribution := contribution, before := s.now }
  | _ => some s

/-- The states at the end of a block in the runs of a slice, until it leaves
the loop. Every branch may go either way, so that these are the states of all
runs and of some more. -/
inductive SliceTask.Reach (task : SliceTask N l) (v : LiveOutPhis N.TaskBlock)
    (op : V → V → V) (identity : V) : SliceBlock (N.Block l) → AccumulatorState V → Prop
  | start {s s' : AccumulatorState V} (x : V) : s.now = identity →
      v.enter op identity x (source (N.loop l).preHeader) (source (N.loop l).header) s = some s' →
      Reach task v op identity (source (N.loop l).header) s'
  | step {b c : SliceBlock (N.Block l)} {s s' : AccumulatorState V} (x : V) :
      Reach task v op identity b s → c ∈ (task.terminators b).successors →
      c ≠ source (N.loop l).loopExitBB → v.enter op identity x b c s = some s' →
      Reach task v op identity c s'

/-- The return code of an edge to the exit block. -/
def NestCFG.edgeCode (N : NestCFG) (l : Nat) : SliceBlock (N.Block l) → SSAValue
  | loopHandlerBlock => .promotionHandlerReturnCode
  | source b => if l + 1 < N.numLevels ∧ b = N.call l then .nestedLoopReturnCode else .zero
  | _ => .zero

/-- There is one entry for each predecessor of the exit block, and there are
no others: otherwise the function is not well formed. -/
def SliceTask.Covers (task : SliceTask N l) (phi : Phi N.TaskBlock) : Prop :=
  (phi.incoming.map Prod.fst).Nodup ∧ ∀ b, b ∈ phi.incoming.map Prod.fst ↔
    ∃ c ∈ predecessors (N.loop l).sliceBlocks task.terminators (source (N.loop l).loopExitBB),
      b = ⟨l, c⟩

/-- The PHIs of the exit block are complete:

- `returnCode`, `liveOut`: each of them has an entry for each predecessor of
  the block, once;
- `returnCode_value`: an entry of the first has the return code of its edge;
- `liveOut_value`: when a run takes an edge, the entry of a live-out is
  computed there and is what was accumulated so far, over all values and
  operators. -/
structure SliceTask.Complete (task : SliceTask N l) : Prop where
  returnCode : task.Covers task.returnCodePhiInst
  returnCode_value : ∀ b v, (⟨l, b⟩, v) ∈ task.returnCodePhiInst.incoming → v = N.edgeCode l b
  liveOut : ∀ v ∈ task.liveOuts, task.Covers v.liveOutPhiAtLoopExitBlock
  liveOut_value : ∀ v ∈ task.liveOuts, ∀ (V : Type) (op : V → V → V) (identity : V)
    (b : SliceBlock (N.Block l)) (s : AccumulatorState V), task.Reach v op identity b s →
    source (N.loop l).loopExitBB ∈ (task.terminators b).successors →
    ∃ value, v.liveOutPhiAtLoopExitBlock.getIncomingValueForBlock ⟨l, b⟩ = some value ∧
      s.eval identity value = some s.now

end Runs

/-- The place of an update in a loop that is chunked: each iteration of a
chunk runs it:

- `header`: it is not in the header, which is run once for each chunk only;
- `body`: a path from the latch to the end of the body does not miss the
  update; a latch that only goes back to the header has no such path. -/
structure LoopCFG.ChunkPlace {B : Type} [DecidableEq B] (L : LoopCFG B) (u : B) : Prop where
  header : u ≠ L.header
  body : Dominates L.terminator L.latchBB u L.bodyBB

/-! ### The tasks that the pass makes -/

/-- The entry of the accumulator that the code takes for that of the latch:
the update, or the identity if the latch comes first. -/
def EntryOrder.second : EntryOrder → SSAValue
  | .preHeaderFirst => .update
  | .latchFirst => .identityValue

namespace NestCFG

variable (N : NestCFG) (l : Nat)

/-- The PHIs of a live-out of a leaf loop after `apply`, which has then added
the edge of the handler. -/
def leafLiveOut (o : LiveOut (N.Block l)) : LiveOutPhis N.TaskBlock :=
  { N.clonedLiveOut l o with
    liveOutPhiAtLoopExitBlock := ⟨[(⟨l, source (N.loop l).header⟩, .accumulatingPhi),
      (⟨l, loopHandlerBlock⟩, o.order.second)]⟩ }

/-- For a clone the assertions of `apply` hold, and the value it takes is the
second entry. -/
theorem applyLiveOut_cloned (o : LiveOut (N.Block l)) :
    N.applyLiveOut l (N.clonedLiveOut l o) = some (N.leafLiveOut l o) := by
  obtain ⟨_ | _, _⟩ := o <;> rfl

/-- The slice task of a leaf loop after `apply`. -/
def leafTask : SliceTask N l where
  terminators := (N.loop l).applyLeaf
  returnCodePhiInst := ⟨[(⟨l, source (N.loop l).header⟩, .zero),
    (⟨l, loopHandlerBlock⟩, .promotionHandlerReturnCode)]⟩
  liveOuts := (N.liveOuts l).map (N.leafLiveOut l)

/-- The PHIs of a live-out of a chunked loop: the header's edge keeps the
accumulator of the header, the handler's and the chunk's edge have the PHI of
the chunk. -/
def chunkedLiveOut (o : LiveOut (N.Block l)) : LiveOutPhis N.TaskBlock where
  updateBB := ⟨l, source o.updateBB⟩
  liveOutPhiAtLoopExitBlock := ⟨[(⟨l, source (N.loop l).header⟩, .accumulatingPhi),
    (⟨l, loopHandlerBlock⟩, .liveOutPhi), (⟨l, chunkLoopExitBlock⟩, .liveOutPhi)]⟩
  accumulatingPhi := (N.clonedLiveOut l o).accumulatingPhi.setIncomingValue 1 .liveOutPhi
  liveOutPhi := ⟨[(⟨l, chunkLoopPreheaderBlock⟩, .accumulatingPhi),
    (⟨l, chunkLoopLatchBlock⟩, o.order.second)]⟩
  bodyUse := .liveOutPhi

/-- After `apply` the chunking finds its entries. -/
theorem chunkLiveOut_leaf (o : LiveOut (N.Block l)) :
    N.chunkLiveOut l (N.leafLiveOut l o) = some (N.chunkedLiveOut l o) := by
  obtain ⟨_ | _, _⟩ := o <;>
    simp [chunkLiveOut, leafLiveOut, clonedLiveOut, chunkedLiveOut, Phi.getIncomingValue,
      Phi.setIncomingValueForBlock, Phi.addIncoming, EntryOrder.second]

/-- The slice task of a chunked loop. -/
def chunkedTask : SliceTask N l where
  terminators := (N.loop l).chunkedSlice (N.loop l).entry (N.loop l).loopExitBB
  returnCodePhiInst := ⟨[(⟨l, source (N.loop l).header⟩, .zero),
    (⟨l, loopHandlerBlock⟩, .promotionHandlerReturnCode), (⟨l, chunkLoopExitBlock⟩, .zero)]⟩
  liveOuts := (N.liveOuts l).map (N.chunkedLiveOut l)

/-- The task of a caller without live-outs, in which the call goes on to `t`. -/
def callerTask (t : N.Block l) : SliceTask N l where
  terminators := Function.update (N.loop l).cloned (source (N.call l))
    (.condBr (source (N.loop l).loopExitBB) (source t))
  returnCodePhiInst := ⟨[(⟨l, source (N.loop l).header⟩, .zero),
    (⟨l, source (N.call l)⟩, .nestedLoopReturnCode)]⟩
  liveOuts := []

variable {N l}

/-- What `apply` makes of a leaf loop. -/
theorem applySlice_leaf (h : N.isLeafLoop l) : N.applySlice l = some (N.leafTask l) := by
  have hmap : ((N.liveOuts l).map (N.clonedLiveOut l)).mapM (N.applyLiveOut l) =
      some ((N.liveOuts l).map (N.leafLiveOut l)) := by
    rw [List.mapM_map]
    exact Partial.mapM_eq_map fun o _ => N.applyLiveOut_cloned l o
  rw [applySlice, if_pos h, hmap]
  rfl

/-- A leaf loop that is not chunked is left as `apply` made it. -/
theorem sliceTask_leaf (h : N.isLeafLoop l) (hchunk : N.chunkLoopIterations = false) :
    N.sliceTask l = some (N.leafTask l) := by
  rw [sliceTask, applySlice_leaf h]
  simp [h, hchunk]

/-- A leaf loop that is chunked goes on to `executeLoopInChunk`. -/
theorem sliceTask_chunked (h : N.isLeafLoop l) (hchunk : N.chunkLoopIterations = true) :
    N.sliceTask l = N.chunkSlice l (N.leafTask l) := by
  rw [sliceTask, applySlice_leaf h]
  simp [h, hchunk]

/-- The chunking succeeds if the last block of the body is not the header. -/
theorem chunkSlice_eq {t f : N.Block l} (hne : (N.loop l).bodyBB ≠ (N.loop l).header)
    (hterm : (N.loop l).terminator (N.loop l).header = .condBr t f) :
    N.chunkSlice l (N.leafTask l) = some { N.chunkedTask l with
      terminators := (N.loop l).chunkedSlice t f } := by
  have hmap : (N.leafTask l).liveOuts.mapM (N.chunkLiveOut l) =
      some ((N.liveOuts l).map (N.chunkedLiveOut l)) := by
    rw [leafTask, List.mapM_map]
    exact Partial.mapM_eq_map fun o _ => N.chunkLiveOut_leaf l o
  have hcfg : (N.loop l).executeLoopInChunk (N.leafTask l).terminators =
      some ((N.loop l).chunkedSlice t f) := LoopCFG.executeLoopInChunk_eq hne hterm
  rw [chunkSlice, hcfg, hmap]
  rfl

/-- A loop that calls another one and has a live-out has one entry for it
where two are expected. -/
theorem linkLiveOut_cloned (o : LiveOut (N.Block l)) :
    N.linkLiveOut l (N.clonedLiveOut l o) = none := by
  obtain ⟨_ | _, _⟩ := o <;> rfl

/-- A loop that calls another one is cloned and linked to it. -/
theorem sliceTask_caller (h : ¬ N.isLeafLoop l) : N.sliceTask l = N.linkSlice l
    ⟨(N.loop l).cloned, ⟨[(⟨l, source (N.loop l).header⟩, .zero)]⟩,
      (N.liveOuts l).map (N.clonedLiveOut l)⟩ := by
  simp [sliceTask, applySlice, h]

/-- With a live-out in the loop of the caller, the assertion on its exit PHI
fails. -/
theorem linkSlice_of_liveOut (h : ¬ N.isLeafLoop l) (hlive : N.liveOuts l ≠ []) :
    N.sliceTask l = none := by
  have hmap : ((N.liveOuts l).map (N.clonedLiveOut l)).mapM (N.linkLiveOut l) = none := by
    rw [List.mapM_map]
    exact Partial.mapM_eq_none hlive fun o _ => linkLiveOut_cloned o
  rw [sliceTask_caller h, linkSlice, hmap]
  cases (N.loop l).linkCaller (N.call l) <;> simp

/-- Without one, the call gets its branch. -/
theorem linkSlice_eq (h : ¬ N.isLeafLoop l) (hlive : N.liveOuts l = []) {t : N.Block l}
    (ht : successor0 ((N.loop l).terminator (N.call l)) = some t) :
    N.sliceTask l = some (N.callerTask l t) := by
  have hguard : (N.liveOuts (l + 1)).length > 0 → (N.liveOuts (l + 1)).length = 1 := by
    intro hpos
    have := N.nested_liveOuts (l + 1) (Nat.succ_pos l)
    omega
  rw [sliceTask_caller h, linkSlice, LoopCFG.linkCaller_eq ht, hlive, guard, if_pos hguard]
  rfl

/-- A call in a block that does not end in a branch instruction has no
successor to go to. -/
theorem linkSlice_of_other (h : ¬ N.isLeafLoop l)
    (ht : successor0 ((N.loop l).terminator (N.call l)) = none) : N.sliceTask l = none := by
  rw [sliceTask_caller h, linkSlice, LoopCFG.linkCaller_eq_none ht]
  simp

end NestCFG

/-! ### The edges to the exit block -/

section Edges

variable {N : NestCFG} {l : Nat} {task : SliceTask N l} {x : SliceBlock (N.Block l)}

/-- The predecessors of the exit block are the blocks with an edge to it. -/
theorem covers_iff {phi : Phi N.TaskBlock} : task.Covers phi ↔
    (phi.incoming.map Prod.fst).Nodup ∧ ∀ b, b ∈ phi.incoming.map Prod.fst ↔
      ∃ c, source (N.loop l).loopExitBB ∈ (task.terminators c).successors ∧ b = ⟨l, c⟩ := by
  simp only [SliceTask.Covers, mem_predecessors, LoopCFG.mem_sliceBlocks, true_and]

/-- An entry of a PHI that covers the predecessors comes from one. -/
theorem SliceTask.Covers.edge {phi : Phi N.TaskBlock} (h : task.Covers phi)
    (hx : (⟨l, x⟩ : N.TaskBlock) ∈ phi.incoming.map Prod.fst) :
    source (N.loop l).loopExitBB ∈ (task.terminators x).successors := by
  obtain ⟨c, hc, heq⟩ := ((covers_iff.mp h).2 _).mp hx
  obtain rfl : x = c := by simpa using heq
  exact hc

/-- The header leaves the loop. -/
theorem exit_mem_header :
    (N.loop l).loopExitBB ∈ ((N.loop l).terminator (N.loop l).header).successors := by
  rcases (N.loop l).governed with hterm | hterm <;> simp [hterm, Terminator.successors]

/-- Only the header leaves the source loop. -/
theorem exit_mem_iff {b : N.Block l} :
    (N.loop l).loopExitBB ∈ ((N.loop l).terminator b).successors ↔ b = (N.loop l).header := by
  constructor
  · exact N.exit_pred l b
  · rintro rfl
    exact exit_mem_header

/-- The exit block is not in the loop. -/
theorem exit_ne_latch : (N.loop l).loopExitBB ≠ (N.loop l).latchBB :=
  fun h => (N.loop l).exit_notMem (h ▸ (N.loop l).latch_mem)

/-- A leaf slice is left from the header and from the handler block. -/
theorem exit_mem_leaf (hne : (N.loop l).bodyBB ≠ (N.loop l).header) :
    source (N.loop l).loopExitBB ∈ ((N.loop l).applyLeaf x).successors ↔
      x = source (N.loop l).header ∨ x = loopHandlerBlock := by
  cases x with
  | source b =>
      -- of the clones, only the last block of the body has another terminator than in the source
      by_cases hb : b = (N.loop l).bodyBB
      · simp [hb, LoopCFG.applyLeaf_bodyBB, Terminator.successors, hne]
      · simp [LoopCFG.applyLeaf_source hb, exit_mem_iff]
  | _ => simp [LoopCFG.applyLeaf, LoopCFG.cloned, Terminator.successors, exit_ne_latch]

/-- A chunked slice is left from the end of a chunk too. -/
theorem exit_mem_chunked (hne : (N.loop l).bodyBB ≠ (N.loop l).header) :
    source (N.loop l).loopExitBB ∈ ((N.loop l).chunkedSlice (N.loop l).entry
      (N.loop l).loopExitBB x).successors ↔
      x = source (N.loop l).header ∨ x = loopHandlerBlock ∨ x = chunkLoopExitBlock := by
  cases x with
  | source b =>
      -- two clones have new terminators: the last block of the body and the header
      by_cases hb : b = (N.loop l).bodyBB
      · simp [hb, LoopCFG.chunkedSlice, Terminator.successors, hne]
      · by_cases hh : b = (N.loop l).header
        · simp [hh, hne.symm, LoopCFG.chunkedSlice, Terminator.successors]
        · simp [hb, hh, LoopCFG.chunkedSlice, exit_mem_iff]
  | _ =>
      simp [LoopCFG.chunkedSlice, Terminator.successors, exit_ne_latch,
        LoopCFG.entry_ne_exit.symm]

/-- The slice of a caller is left from the header and from the block of the
call. -/
theorem exit_mem_caller {t : N.Block l} :
    source (N.loop l).loopExitBB ∈ ((N.callerTask l t).terminators x).successors ↔
      x = source (N.loop l).header ∨ x = source (N.call l) := by
  by_cases hx : x = source (N.call l)
  · simp [hx, NestCFG.callerTask, Terminator.successors]
  · have hcloned : (N.callerTask l t).terminators x = (N.loop l).cloned x :=
      Function.update_of_ne hx _ _
    rw [hcloned]
    cases x with
    | source b =>
        have hb : b ≠ N.call l := fun h => hx (congrArg source h)
        simp [LoopCFG.cloned, exit_mem_iff, hb]
    | _ => simp [LoopCFG.cloned, Terminator.successors]

end Edges


/-! ### What is accumulated -/

section Accumulated

variable {N : NestCFG} {l : Nat} {V : Type} {op : V → V → V} {identity x : V}
  {s s' : AccumulatorState V} {b c : SliceBlock (N.Block l)}

/-- What a state at `b` says of the update in the iteration that is run: it
was run, or control came to `b` without running it, from one of the blocks
that `starts` names. Where the update dominates `b`, only the first is left. -/
def Updated (L : LoopCFG (N.Block l)) (starts : N.Block l → Prop) (u : N.Block l) (op : V → V → V)
    (s : AccumulatorState V) (b : N.Block l) : Prop :=
  s.update = op s.before s.contribution ∨
    ∃ a, starts a ∧ u ≠ a ∧ Avoids L.terminator u a b

/-- In a leaf slice that is not chunked. The PHI has what was accumulated
before the iteration; after the body the update has the accumulated value. -/
def LeafInvariant (L : LoopCFG (N.Block l)) (u : N.Block l) (op : V → V → V)
    (s : AccumulatorState V) : SliceBlock (N.Block l) → Prop
  | source b => b ∈ L.loopBlocks ∧ s.accumulatingPhi = s.before ∧
      (b = L.header → s.before = s.now) ∧
      (b = L.bodyBB ∨ b = L.latchBB → s.now = op s.before s.contribution) ∧
      Updated L (· = L.header) u op s b
  | pollingBlock | loopHandlerBlock => s.accumulatingPhi = s.before ∧
      s.now = op s.before s.contribution ∧ s.update = s.now
  | _ => True

/-- A clone in the loop is entered from one of its predecessors in the loop. -/
theorem loop_edge {b t : N.Block l} (hb : b ∈ (N.loop l).loopBlocks)
    (hbody : b ≠ (N.loop l).bodyBB) (ht : t ∈ ((N.loop l).terminator b).successors)
    (hexit : t ≠ (N.loop l).loopExitBB) : t ∈ (N.loop l).loopBlocks ∧ t ≠ (N.loop l).latchBB ∧
      (t = (N.loop l).header → b = (N.loop l).latchBB) := by
  refine ⟨?_, ?_, ?_⟩
  · by_contra hmem
    exact hexit ((N.loop l).oneExit b hb t ht hmem)
  · rintro rfl
    exact hbody (LoopCFG.eq_bodyBB ht)
  · rintro rfl
    exact (N.loop l).oneLatch b hb ht

/-- The preheader is not in the loop. -/
theorem preHeader_ne_latch : (N.loop l).preHeader ≠ (N.loop l).latchBB :=
  fun h => (N.loop l).preHeader_notMem (h ▸ (N.loop l).latch_mem)

/-! The blocks, one by one. -/

/-- The header starts an iteration. Its PHI takes the entry of the block
before. -/
theorem enter_header {v : LiveOutPhis N.TaskBlock} {u : N.Block l} {value : SSAValue} {w : V}
    (hv : v.updateBB = ⟨l, source u⟩) (hne : (N.loop l).bodyBB ≠ (N.loop l).header)
    (hvalue : v.accumulatingPhi.getIncomingValueForBlock ⟨l, b⟩ = some value)
    (hacc : s.eval identity value = some w) :
    v.enter op identity x b (source (N.loop l).header) s = some { s with
      accumulatingPhi := w
      update := if (N.loop l).header = u then op w x else s.update
      contribution := x
      before := s.now } := by
  have huse : v.use (N.loop l).header = .accumulatingPhi := if_pos (.inl rfl)
  -- the update may stand in the header itself; then it reads the PHI that was just set
  by_cases hu : (N.loop l).header = u
  · subst hu
    simp only [LiveOutPhis.enter, hvalue, hv, huse, hne.symm, if_true, if_false,
      Option.bind_eq_bind, Option.bind_some, Option.pure_def, hacc]
    rfl
  · have hsource : (⟨l, source (N.loop l).header⟩ : N.TaskBlock) ≠ ⟨l, source u⟩ := by
      simp [hu]
    simp only [LiveOutPhis.enter, hvalue, hv, hu, hsource, hne.symm, if_true, if_false,
      Option.bind_eq_bind, Option.bind_some, Option.pure_def, hacc]

/-- Every other block of the loop runs the update if it holds it, and ends the
iteration if it is the last one of the body. -/
theorem enter_source {v : LiveOutPhis N.TaskBlock} {t u : N.Block l} {w : V}
    (hv : v.updateBB = ⟨l, source u⟩) (ht : t ≠ (N.loop l).header)
    (hacc : t = u → s.eval identity (v.use t) = some w) :
    v.enter op identity x b (source t) s = some { s with
      update := if t = u then op w s.contribution else s.update
      now := if t = (N.loop l).bodyBB then op s.before s.contribution else s.now } := by
  -- whether the block holds the update, and whether it ends the body
  by_cases hu : t = u
  · have hsource : (⟨l, source t⟩ : N.TaskBlock) = ⟨l, source u⟩ := by rw [hu]
    simp only [LiveOutPhis.enter, ht, hv, if_pos hsource, if_pos hu, if_false,
      Option.bind_eq_bind, Option.bind_some, Option.pure_def, hacc hu]
    by_cases hbody : t = (N.loop l).bodyBB
    · simp only [if_pos hbody]
    · simp only [if_neg hbody]
  · have hsource : (⟨l, source t⟩ : N.TaskBlock) ≠ ⟨l, source u⟩ := by simp [hu]
    simp only [LiveOutPhis.enter, ht, hv, if_neg hsource, if_neg hu, if_false,
      Option.bind_eq_bind, Option.bind_some, Option.pure_def]
    by_cases hbody : t = (N.loop l).bodyBB
    · simp only [if_pos hbody]
    · simp only [if_neg hbody]

/-- The header of a chunk, after the block before the chunk or after its
latch. -/
theorem enter_chunkHeader {v : LiveOutPhis N.TaskBlock} {value : SSAValue} {w : V}
    (hvalue : v.liveOutPhi.getIncomingValueForBlock ⟨l, b⟩ = some value)
    (hacc : s.eval identity value = some w) :
    v.enter op identity x b (chunkLoopHeaderBlock (B := N.Block l)) s = some { s with
      liveOutPhi := w
      contribution := if b = chunkLoopPreheaderBlock then s.contribution else x
      before := s.now } := by
  simp only [LiveOutPhis.enter, hvalue]
  show (s.eval identity value).bind _ = _
  rw [hacc]
  rfl

/-- A leaf slice that is not chunked reads the PHI of the header everywhere. -/
theorem use_leaf (o : LiveOut (N.Block l)) (t : N.Block l) :
    (N.leafLiveOut l o).use t = .accumulatingPhi := by
  rw [LiveOutPhis.use]
  exact ite_self _

/-- The body of a chunk reads the PHI of the header of the chunk. -/
theorem use_chunked (o : LiveOut (N.Block l)) {t : N.Block l} (hheader : t ≠ (N.loop l).header)
    (hlatch : t ≠ (N.loop l).latchBB) : (N.chunkedLiveOut l o).use t = .liveOutPhi := by
  rw [LiveOutPhis.use, if_neg (by simp [hheader, hlatch])]
  rfl

section Update

variable {L : LoopCFG (N.Block l)} {starts : N.Block l → Prop} {u : N.Block l}

/-- The update of a block that is entered from `b`, when it reads the
accumulator. -/
theorem Updated.step {b t : N.Block l} {now : V} (h : Updated L starts u op s b)
    (ht : t ∈ (L.terminator b).successors) :
    Updated L starts u op { s with
      update := if t = u then op s.before s.contribution else s.update
      now := now } t := by
  by_cases hu : t = u
  · exact .inl (if_pos hu)
  · rcases h with h | ⟨a, ha, hne, havoids⟩
    · exact .inl ((if_neg hu).trans h)
    · exact .inr ⟨a, ha, hne, havoids.tail ⟨ht, hu⟩⟩

/-- It was run where control cannot come to without it. -/
theorem Updated.of_dominates {b : N.Block l} (h : Updated L starts u op s b)
    (hdom : ∀ a, starts a → Dominates L.terminator a u b) :
    s.update = op s.before s.contribution :=
  h.resolve_right fun ⟨a, ha, hne, havoids⟩ => hdom a ha hne havoids

/-- What dominates the latch is the latch or dominates the end of the body. -/
theorem dominates_bodyBB (hdom : Dominates L.terminator L.header u L.latchBB)
    (hu : u ≠ L.latchBB) : Dominates L.terminator L.header u L.bodyBB :=
  fun hne havoids => hdom hne (havoids.tail ⟨LoopCFG.latch_mem_successors, hu.symm⟩)

end Update

variable {o : LiveOut (N.Block l)}

/-- The latch of a slice that is not chunked, after the polling block or the
handler block. -/
theorem leafInvariant_latch (hu : o.updateBB ≠ (N.loop l).latchBB)
    (h : LeafInvariant (N.loop l) o.updateBB op s pollingBlock)
    (henter : (N.leafLiveOut l o).enter op identity x b (source (N.loop l).latchBB) s = some s') :
    LeafInvariant (N.loop l) o.updateBB op s' (source (N.loop l).latchBB) := by
  rw [enter_source (w := identity) rfl LoopCFG.latch_ne_header fun hh => absurd hh.symm hu,
    if_neg hu.symm, if_neg LoopCFG.bodyBB_ne_latch.symm] at henter
  obtain rfl := Option.some.inj henter
  exact ⟨(N.loop l).latch_mem, h.1, fun hh => absurd hh LoopCFG.latch_ne_header, fun _ => h.2.1,
    .inl (h.2.2.trans h.2.1)⟩

/-- The invariant holds after each block of a leaf slice. The update is known
to have run at the end of the body, since it dominates the latch and is not in
it. -/
theorem leafInvariant_step (hne : (N.loop l).bodyBB ≠ (N.loop l).header)
    (ho : o ∈ N.liveOuts l) (horder : o.order = .preHeaderFirst)
    (hu : o.updateBB ≠ (N.loop l).latchBB)
    (h : LeafInvariant (N.loop l) o.updateBB op s b)
    (hc : c ∈ ((N.loop l).applyLeaf b).successors) (hexit : c ≠ source (N.loop l).loopExitBB)
    (henter : (N.leafLiveOut l o).enter op identity x b c s = some s') :
    LeafInvariant (N.loop l) o.updateBB op s' c := by
  have hdom := N.update_dominates l o ho
  cases b with
  | source b =>
      obtain ⟨hb, hphi, hheader, hnow, hupdated⟩ := h
      by_cases hbody : b = (N.loop l).bodyBB
      · -- The body is followed by the polling block.
        subst hbody
        rw [LoopCFG.applyLeaf_bodyBB] at hc
        obtain rfl := List.mem_singleton.mp hc
        obtain rfl := Option.some.inj henter
        have hend := hnow (.inl rfl)
        have hupdate : s.update = op s.before s.contribution :=
          hupdated.of_dominates fun a ha => ha ▸ dominates_bodyBB hdom hu
        exact ⟨hphi, hend, hupdate.trans hend.symm⟩
      · rw [LoopCFG.applyLeaf_source hbody, Terminator.successors_map, List.mem_map] at hc
        obtain ⟨t, ht, rfl⟩ := hc
        obtain ⟨hmem, htl, hback⟩ := loop_edge hb hbody ht fun he => hexit (congrArg source he)
        by_cases hth : t = (N.loop l).header
        · -- The latch is followed by the header, whose PHI takes the update.
          have hbl := hback hth
          subst hth hbl
          have hvalue : (N.leafLiveOut l o).accumulatingPhi.getIncomingValueForBlock
              ⟨l, source (N.loop l).latchBB⟩ = some .update := by
            simp [NestCFG.leafLiveOut, NestCFG.clonedLiveOut, horder,
              Phi.getIncomingValueForBlock, preHeader_ne_latch]
          rw [enter_header (w := s.update) rfl hne hvalue rfl] at henter
          obtain rfl := Option.some.inj henter
          have hupdate : s.update = op s.before s.contribution :=
            hupdated.of_dominates fun a ha => ha ▸ hdom
          have hlatch := hupdate.trans (hnow (.inr rfl)).symm
          refine ⟨hmem, hlatch, fun _ => rfl, by simp [hne.symm, htl], ?_⟩
          by_cases huh : (N.loop l).header = o.updateBB
          · exact .inl ((if_pos huh).trans (congrArg (op · x) hlatch))
          · exact .inr ⟨_, rfl, Ne.symm huh, .refl⟩
        · -- A block of the body, after the header or after another one.
          have huse : s.eval identity ((N.leafLiveOut l o).use t) = some s.before := by
            rw [use_leaf]
            exact congrArg some hphi
          rw [enter_source rfl hth fun _ => huse] at henter
          obtain rfl := Option.some.inj henter
          refine ⟨hmem, hphi, fun hh => absurd hh hth, ?_, hupdated.step ht⟩
          rintro (hb' | hl)
          · exact if_pos hb'
          · exact absurd hl htl
  | pollingBlock =>
      rw [LoopCFG.applyLeaf_pollingBlock] at hc
      simp only [Terminator.successors, List.mem_cons, List.not_mem_nil, or_false] at hc
      rcases hc with rfl | rfl
      · obtain rfl := Option.some.inj henter
        exact h
      · exact leafInvariant_latch hu h henter
  | loopHandlerBlock =>
      simp only [LoopCFG.applyLeaf, Function.update_self, Terminator.successors, List.mem_cons,
        List.not_mem_nil, or_false] at hc
      obtain rfl := hc.resolve_left hexit
      exact leafInvariant_latch hu h henter
  | _ =>
      simp [LoopCFG.applyLeaf, LoopCFG.cloned, Terminator.successors] at hc

/-- The invariant holds in every run, by induction on the run. -/
theorem leafInvariant_of_reach (hne : (N.loop l).bodyBB ≠ (N.loop l).header)
    (ho : o ∈ N.liveOuts l) (horder : o.order = .preHeaderFirst)
    (hu : o.updateBB ≠ (N.loop l).latchBB)
    (h : (N.leafTask l).Reach (N.leafLiveOut l o) op identity b s) :
    LeafInvariant (N.loop l) o.updateBB op s b := by
  induction h with
  | @start s s' x hnow henter =>
      -- the header is entered from the preheader, whose entry is the identity
      have hvalue : (N.leafLiveOut l o).accumulatingPhi.getIncomingValueForBlock
          ⟨l, source (N.loop l).preHeader⟩ = some .identityValue := by
        simp [NestCFG.leafLiveOut, NestCFG.clonedLiveOut, horder, Phi.getIncomingValueForBlock]
      rw [enter_header (w := identity) rfl hne hvalue rfl] at henter
      obtain rfl := Option.some.inj henter
      refine ⟨(N.loop l).header_mem, hnow.symm, fun _ => rfl, ?_, ?_⟩
      · simp [hne.symm, LoopCFG.latch_ne_header.symm]
      · by_cases huh : (N.loop l).header = o.updateBB
        · exact .inl ((if_pos huh).trans (congrArg (op · x) hnow.symm))
        · exact .inr ⟨_, rfl, Ne.symm huh, .refl⟩
  | step x _ hc hexit henter ih =>
      exact leafInvariant_step hne ho horder hu ih hc hexit henter

/-- In a chunked slice the PHI in the header of the chunk takes the place of
the accumulator. The body is entered from the headers, and from the latch if
the latch has an edge to it. -/
def ChunkInvariant (L : LoopCFG (N.Block l)) (u : N.Block l) (op : V → V → V)
    (s : AccumulatorState V) : SliceBlock (N.Block l) → Prop
  | source b => b ∈ L.loopBlocks ∧ (b = L.header → s.accumulatingPhi = s.now) ∧
      (b ≠ L.header → s.liveOutPhi = s.before ∧
        Updated L (fun a => a = L.header ∨ a = L.latchBB) u op s b) ∧
      (b = L.bodyBB → s.now = op s.before s.contribution) ∧
      (b = L.latchBB → s.liveOutPhi = s.now)
  | pollingBlock | loopHandlerBlock | chunkLoopExitBlock | chunkLoopHeaderBlock =>
      s.liveOutPhi = s.before ∧ s.liveOutPhi = s.now
  | chunkLoopPreheaderBlock => s.accumulatingPhi = s.now
  | chunkLoopLatchBlock => s.update = s.now

/-- A block between the headers and the latches. -/
theorem chunkInvariant_enter {b' t : N.Block l} (hmem : t ∈ (N.loop l).loopBlocks)
    (hheader : t ≠ (N.loop l).header) (hlatch : t ≠ (N.loop l).latchBB)
    (h : s.liveOutPhi = s.before)
    (hupdated : Updated (N.loop l) (fun a => a = (N.loop l).header ∨ a = (N.loop l).latchBB)
      o.updateBB op s b')
    (ht : t ∈ ((N.loop l).terminator b').successors)
    (henter : (N.chunkedLiveOut l o).enter op identity x b (source t) s = some s') :
    ChunkInvariant (N.loop l) o.updateBB op s' (source t) := by
  have huse : s.eval identity ((N.chunkedLiveOut l o).use t) = some s.before := by
    rw [use_chunked o hheader hlatch]
    exact congrArg some h
  rw [enter_source rfl hheader fun _ => huse] at henter
  obtain rfl := Option.some.inj henter
  exact ⟨hmem, fun hh => absurd hh hheader, fun _ => ⟨h, hupdated.step ht⟩, fun hb => if_pos hb,
    fun hl => absurd hl hlatch⟩

/-- The latch of a chunked slice runs no update. -/
theorem chunkInvariant_latch (hu : o.updateBB ≠ (N.loop l).latchBB)
    (h : s.liveOutPhi = s.before ∧ s.liveOutPhi = s.now)
    (henter : (N.chunkedLiveOut l o).enter op identity x b (source (N.loop l).latchBB) s =
      some s') :
    ChunkInvariant (N.loop l) o.updateBB op s' (source (N.loop l).latchBB) := by
  rw [enter_source (w := identity) rfl LoopCFG.latch_ne_header fun hh => absurd hh.symm hu,
    if_neg hu.symm, if_neg LoopCFG.bodyBB_ne_latch.symm] at henter
  obtain rfl := Option.some.inj henter
  exact ⟨(N.loop l).latch_mem, fun hh => absurd hh LoopCFG.latch_ne_header,
    fun _ => ⟨h.1, .inr ⟨_, .inr rfl, hu, .refl⟩⟩,
    fun hb => absurd hb LoopCFG.bodyBB_ne_latch.symm, fun _ => h.2⟩

/-- The header has an edge to the first block of the body. -/
theorem entry_mem_successors (hterm : (N.loop l).terminator (N.loop l).header =
    .condBr (N.loop l).entry (N.loop l).loopExitBB) :
    (N.loop l).entry ∈ ((N.loop l).terminator (N.loop l).header).successors := by
  simp [hterm, Terminator.successors]

/-- The invariant holds after each block of a chunked slice. Between two
iterations of a chunk control is at its header, whose PHI takes the update; so
the update must have been run in each of them, on the paths from the header
and on those from the latch. -/
theorem chunkInvariant_step (hne : (N.loop l).bodyBB ≠ (N.loop l).header)
    (hterm : (N.loop l).terminator (N.loop l).header =
      .condBr (N.loop l).entry (N.loop l).loopExitBB)
    (ho : o ∈ N.liveOuts l) (horder : o.order = .preHeaderFirst)
    (hu : o.updateBB ≠ (N.loop l).latchBB) (hplace : (N.loop l).ChunkPlace o.updateBB)
    (h : ChunkInvariant (N.loop l) o.updateBB op s b)
    (hc : c ∈ ((N.chunkedTask l).terminators b).successors)
    (hexit : c ≠ source (N.loop l).loopExitBB)
    (henter : (N.chunkedLiveOut l o).enter op identity x b c s = some s') :
    ChunkInvariant (N.loop l) o.updateBB op s' c := by
  have hdom := N.update_dominates l o ho
  cases b with
  | source b =>
      obtain ⟨hmem, hphi, hbefore, hnow, hlatch⟩ := h
      by_cases hbody : b = (N.loop l).bodyBB
      · -- The body is followed by the latch of the chunk.
        subst hbody
        simp [NestCFG.chunkedTask, LoopCFG.chunkedSlice, Terminator.successors] at hc
        subst hc
        obtain rfl := Option.some.inj henter
        have hupdate : s.update = op s.before s.contribution := by
          refine (hbefore hne).2.of_dominates ?_
          rintro a (rfl | rfl)
          · exact dominates_bodyBB hdom hu
          · exact hplace.body
        exact hupdate.trans (hnow rfl).symm
      by_cases hh : b = (N.loop l).header
      · subst hh
        simp [NestCFG.chunkedTask, LoopCFG.chunkedSlice, Terminator.successors, hbody, hexit] at hc
        subst hc
        obtain rfl := Option.some.inj henter
        exact hphi rfl
      have hclone : (N.chunkedTask l).terminators (source b) =
          ((N.loop l).terminator b).map source := by
        simp [NestCFG.chunkedTask, LoopCFG.chunkedSlice, hbody, hh]
      rw [hclone, Terminator.successors_map, List.mem_map] at hc
      obtain ⟨t, ht, rfl⟩ := hc
      obtain ⟨htmem, htl, hback⟩ := loop_edge hmem hbody ht fun he => hexit (congrArg source he)
      by_cases hth : t = (N.loop l).header
      · -- The header takes the value of the chunks that were run.
        have hbl := hback hth
        subst hth hbl
        have hvalue : (N.chunkedLiveOut l o).accumulatingPhi.getIncomingValueForBlock
            ⟨l, source (N.loop l).latchBB⟩ = some .liveOutPhi := by
          simp [NestCFG.chunkedLiveOut, NestCFG.clonedLiveOut, horder, Phi.setIncomingValue,
            Phi.getIncomingValueForBlock, preHeader_ne_latch]
        rw [enter_header (w := s.liveOutPhi) rfl hne hvalue rfl] at henter
        obtain rfl := Option.some.inj henter
        exact ⟨htmem, fun _ => hlatch rfl, fun hh => absurd rfl hh, fun hb => absurd hb.symm hne,
          fun hl => absurd hl htl⟩
      · -- Another block of the body.
        exact chunkInvariant_enter htmem hth htl (hbefore hh).1 (hbefore hh).2 ht henter
  | pollingBlock =>
      simp [NestCFG.chunkedTask, LoopCFG.chunkedSlice, Terminator.successors] at hc
      rcases hc with rfl | rfl
      · obtain rfl := Option.some.inj henter
        exact h
      · exact chunkInvariant_latch hu h henter
  | loopHandlerBlock =>
      simp [NestCFG.chunkedTask, LoopCFG.chunkedSlice, Terminator.successors, hexit] at hc
      subst hc
      exact chunkInvariant_latch hu h henter
  | chunkLoopPreheaderBlock =>
      simp [NestCFG.chunkedTask, LoopCFG.chunkedSlice, Terminator.successors] at hc
      subst hc
      have hvalue : (N.chunkedLiveOut l o).liveOutPhi.getIncomingValueForBlock
          ⟨l, chunkLoopPreheaderBlock⟩ = some .accumulatingPhi := by
        simp [NestCFG.chunkedLiveOut, Phi.getIncomingValueForBlock]
      rw [enter_chunkHeader (w := s.accumulatingPhi) hvalue rfl] at henter
      obtain rfl := Option.some.inj henter
      exact ⟨h, h⟩
  | chunkLoopHeaderBlock =>
      simp [NestCFG.chunkedTask, LoopCFG.chunkedSlice, Terminator.successors] at hc
      rcases hc with rfl | rfl
      · -- The header is not a loop of its own, and the body is not the latch.
        have hheader := entry_mem_successors hterm
        have hself : (N.loop l).entry ≠ (N.loop l).header := fun heq =>
          LoopCFG.latch_ne_header
            ((N.loop l).oneLatch _ (N.loop l).header_mem (heq ▸ hheader)).symm
        have hlatch : (N.loop l).entry ≠ (N.loop l).latchBB := fun heq =>
          hne (LoopCFG.eq_bodyBB (heq ▸ hheader)).symm
        exact chunkInvariant_enter (N.loop l).entry_mem hself hlatch h.1
          (.inr ⟨_, .inl rfl, hplace.header, .refl⟩) hheader henter
      · obtain rfl := Option.some.inj henter
        exact h
  | chunkLoopLatchBlock =>
      simp [NestCFG.chunkedTask, LoopCFG.chunkedSlice, Terminator.successors] at hc
      subst hc
      have hvalue : (N.chunkedLiveOut l o).liveOutPhi.getIncomingValueForBlock
          ⟨l, chunkLoopLatchBlock⟩ = some .update := by
        simp [NestCFG.chunkedLiveOut, Phi.getIncomingValueForBlock, horder, EntryOrder.second]
      rw [enter_chunkHeader (w := s.update) hvalue rfl] at henter
      obtain rfl := Option.some.inj henter
      exact ⟨h, h⟩
  | chunkLoopExitBlock =>
      simp [NestCFG.chunkedTask, LoopCFG.chunkedSlice, Terminator.successors, hexit] at hc
      subst hc
      obtain rfl := Option.some.inj henter
      exact h

/-- The invariant holds in every run, by induction on the run. -/
theorem chunkInvariant_of_reach (hne : (N.loop l).bodyBB ≠ (N.loop l).header)
    (hterm : (N.loop l).terminator (N.loop l).header =
      .condBr (N.loop l).entry (N.loop l).loopExitBB)
    (ho : o ∈ N.liveOuts l) (horder : o.order = .preHeaderFirst)
    (hu : o.updateBB ≠ (N.loop l).latchBB) (hplace : (N.loop l).ChunkPlace o.updateBB)
    (h : (N.chunkedTask l).Reach (N.chunkedLiveOut l o) op identity b s) :
    ChunkInvariant (N.loop l) o.updateBB op s b := by
  induction h with
  | @start s s' x hnow henter =>
      -- the entry of the preheader is still the identity: the chunking has replaced the other
      -- one
      have hvalue : (N.chunkedLiveOut l o).accumulatingPhi.getIncomingValueForBlock
          ⟨l, source (N.loop l).preHeader⟩ = some .identityValue := by
        simp [NestCFG.chunkedLiveOut, NestCFG.clonedLiveOut, horder, Phi.setIncomingValue,
          Phi.getIncomingValueForBlock]
      rw [enter_header (w := identity) rfl hne hvalue rfl] at henter
      obtain rfl := Option.some.inj henter
      exact ⟨(N.loop l).header_mem, fun _ => hnow.symm, fun hh => absurd rfl hh,
        fun hb => absurd hb.symm hne, fun hl => absurd hl.symm LoopCFG.latch_ne_header⟩
  | step x _ hc hexit henter ih =>
      exact chunkInvariant_step hne hterm ho horder hu hplace ih hc hexit henter

end Accumulated

/-! ### Complete tasks -/

section Complete

open NestCFG

variable {N : NestCFG} {l : Nat}

/-- In a leaf loop the edges of the source have the code 0. -/
theorem edgeCode_source_leaf (h : N.isLeafLoop l) (b : N.Block l) :
    N.edgeCode l (source b) = .zero :=
  if_neg fun hlt => absurd h (Nat.ne_of_lt hlt.1)

/-- A leaf slice is complete if its accumulators have their entries in the
expected order and are not updated in the latch. The invariant holds along
every run, and at each edge to the exit it gives the value that the incoming
entry asks for. -/
theorem leafTask_complete (h : N.isLeafLoop l) (hne : (N.loop l).bodyBB ≠ (N.loop l).header)
    (hplace : ∀ o ∈ N.liveOuts l, o.order = .preHeaderFirst ∧
      o.updateBB ≠ (N.loop l).latchBB) : (N.leafTask l).Complete where
  returnCode := by
    refine covers_iff.mpr ⟨by simp [NestCFG.leafTask], fun b => ?_⟩
    simp [NestCFG.leafTask, exit_mem_leaf hne, or_and_right, exists_or]
  returnCode_value := by
    intro b v hv
    simp only [NestCFG.leafTask, List.mem_cons, Prod.mk.injEq, Sigma.mk.injEq, heq_eq_eq,
      true_and, List.not_mem_nil, or_false] at hv
    rcases hv with ⟨rfl, rfl⟩ | ⟨rfl, rfl⟩
    · exact (edgeCode_source_leaf h _).symm
    · rfl
  liveOut := by
    intro v hv
    obtain ⟨o, -, rfl⟩ := List.mem_map.mp hv
    refine covers_iff.mpr ⟨by simp [NestCFG.leafLiveOut], fun b => ?_⟩
    simp [NestCFG.leafLiveOut, NestCFG.leafTask, exit_mem_leaf hne, or_and_right, exists_or]
  liveOut_value := by
    intro v hv V op identity b s hreach hexit
    obtain ⟨o, ho, rfl⟩ := List.mem_map.mp hv
    obtain ⟨horder, hu⟩ := hplace o ho
    have hinv := leafInvariant_of_reach hne ho horder hu hreach
    -- From the header the loop is left between two iterations, with the PHI; from the handler
    -- block after the body, with the update.
    rcases (exit_mem_leaf hne).mp hexit with rfl | rfl
    · refine ⟨.accumulatingPhi, by simp [NestCFG.leafLiveOut, Phi.getIncomingValueForBlock], ?_⟩
      exact congrArg some (hinv.2.1.trans (hinv.2.2.1 rfl))
    · refine ⟨.update, by simp [NestCFG.leafLiveOut, Phi.getIncomingValueForBlock, horder,
        EntryOrder.second], ?_⟩
      exact congrArg some hinv.2.2

/-- A chunked slice is complete if, moreover, each iteration of a chunk runs
the updates. There are three edges to the exit block, from the header, from
the handler and from the end of a chunk. -/
theorem chunkedTask_complete (h : N.isLeafLoop l) (hne : (N.loop l).bodyBB ≠ (N.loop l).header)
    (hterm : (N.loop l).terminator (N.loop l).header =
      .condBr (N.loop l).entry (N.loop l).loopExitBB)
    (hplace : ∀ o ∈ N.liveOuts l, o.order = .preHeaderFirst ∧
      o.updateBB ≠ (N.loop l).latchBB ∧ (N.loop l).ChunkPlace o.updateBB) :
    (N.chunkedTask l).Complete where
  returnCode := by
    refine covers_iff.mpr ⟨by simp [NestCFG.chunkedTask], fun b => ?_⟩
    simp [NestCFG.chunkedTask, exit_mem_chunked hne, or_and_right, exists_or]
  returnCode_value := by
    intro b v hv
    simp only [NestCFG.chunkedTask, List.mem_cons, Prod.mk.injEq, Sigma.mk.injEq, heq_eq_eq,
      true_and, List.not_mem_nil, or_false] at hv
    rcases hv with ⟨rfl, rfl⟩ | ⟨rfl, rfl⟩ | ⟨rfl, rfl⟩
    · exact (edgeCode_source_leaf h _).symm
    · rfl
    · rfl
  liveOut := by
    intro v hv
    obtain ⟨o, -, rfl⟩ := List.mem_map.mp hv
    refine covers_iff.mpr ⟨by simp [NestCFG.chunkedLiveOut], fun b => ?_⟩
    simp [NestCFG.chunkedLiveOut, NestCFG.chunkedTask, exit_mem_chunked hne, or_and_right,
      exists_or]
  liveOut_value := by
    intro v hv V op identity b s hreach hexit
    obtain ⟨o, ho, rfl⟩ := List.mem_map.mp hv
    obtain ⟨horder, hu, hchunk⟩ := hplace o ho
    have hinv := chunkInvariant_of_reach hne hterm ho horder hu hchunk hreach
    -- the header has the outer PHI, the handler block and the end of a chunk have the PHI of the
    -- header of the chunk
    rcases (exit_mem_chunked hne).mp hexit with rfl | rfl | rfl
    · refine ⟨.accumulatingPhi, by simp [NestCFG.chunkedLiveOut, Phi.getIncomingValueForBlock], ?_⟩
      exact congrArg some (hinv.2.1 rfl)
    · refine ⟨.liveOutPhi, by simp [NestCFG.chunkedLiveOut, Phi.getIncomingValueForBlock], ?_⟩
      exact congrArg some hinv.2
    · refine ⟨.liveOutPhi, by simp [NestCFG.chunkedLiveOut, Phi.getIncomingValueForBlock], ?_⟩
      exact congrArg some hinv.2

/-- The slice of a caller is complete if the call is not in the header. -/
theorem callerTask_complete (h : l + 1 < N.numLevels) {t : N.Block l}
    (hne : N.call l ≠ (N.loop l).header) : (N.callerTask l t).Complete where
  returnCode := by
    refine covers_iff.mpr ⟨by simp [NestCFG.callerTask, hne.symm], fun b => ?_⟩
    simp only [exit_mem_caller]
    simp [NestCFG.callerTask, or_and_right, exists_or]
  returnCode_value := by
    intro b v hv
    simp only [NestCFG.callerTask, List.mem_cons, Prod.mk.injEq, Sigma.mk.injEq, heq_eq_eq,
      true_and, List.not_mem_nil, or_false] at hv
    -- the header, or the block of the call with the code of the nested loop
    rcases hv with ⟨rfl, rfl⟩ | ⟨rfl, rfl⟩
    · exact (if_neg fun hc => hne hc.2.symm).symm
    · exact (if_pos ⟨h, rfl⟩).symm
  liveOut := by simp [NestCFG.callerTask]
  liveOut_value := by simp [NestCFG.callerTask]

/-! ### Incomplete tasks -/

/-- If the header has no edge to the exit block any more, the return code has
an entry too many. -/
theorem not_complete_of_header {task : SliceTask N l} (hheader : source (N.loop l).loopExitBB ∉
      (task.terminators (source (N.loop l).header)).successors)
    (hrc : (⟨l, source (N.loop l).header⟩ : N.TaskBlock) ∈
      task.returnCodePhiInst.incoming.map Prod.fst) : ¬ task.Complete :=
  fun h => hheader (h.returnCode.edge hrc)

section Paths

variable {task : SliceTask N l} {v : LiveOutPhis N.TaskBlock} {u a : N.Block l}
  {stop : N.Block l → Prop} {V : Type} {op : V → V → V} {identity : V} {s : AccumulatorState V}
  {p : SliceBlock (N.Block l)}

/-- A run of the slice follows a path of the source to the end of the body. It
ends the iteration that the state had begun, and runs the update only if the
path does. -/
theorem exists_reach_bodyBB
    (hclone : ∀ b, b ≠ (N.loop l).bodyBB → b ≠ (N.loop l).header →
      task.terminators (source b) = ((N.loop l).terminator b).map source)
    (hv : v.updateBB = ⟨l, source u⟩)
    (huse : ∀ t (s : AccumulatorState V), ∃ acc, s.eval identity (v.use (l := l) t) = some acc)
    (hstop : ∀ c, (N.loop l).EndsIteration c → stop c) (ha : a ≠ (N.loop l).bodyBB)
    (hs : task.Reach v op identity p s)
    (hp : ∀ t ∈ ((N.loop l).terminator a).successors, ¬ stop t →
      source t ∈ (task.terminators p).successors)
    (hpath : Reaches (N.loop l).terminator stop a (N.loop l).bodyBB) :
    ∃ w, task.Reach v op identity (source (N.loop l).bodyBB)
      { s with update := w, now := op s.before s.contribution } ∧ (stop u → w = s.update) := by
  -- One more block of the path, after the block `q`.
  have hnext : ∀ q c w, task.Reach v op identity q { s with update := w } →
      source c ∈ (task.terminators q).successors → ¬ stop c → (stop u → w = s.update) →
      ∃ w, task.Reach v op identity (source c) { s with
        update := w
        now := if c = (N.loop l).bodyBB then op s.before s.contribution else s.now } ∧
        (stop u → w = s.update) := by
    intro q c w hq hc hcs hw
    have hheader : c ≠ (N.loop l).header := fun h => hcs (hstop c (.inr (.inl h)))
    have hexit : source c ≠ source (N.loop l).loopExitBB := fun h =>
      hcs (hstop c (.inr (.inr (SliceBlock.source.inj h))))
    obtain ⟨acc, hacc⟩ := huse c { s with update := w }
    refine ⟨_, hq.step identity hc hexit (enter_source hv hheader fun _ => hacc), fun hus => ?_⟩
    rw [if_neg fun (h : c = u) => hcs (h ▸ hus)]
    exact hw hus
  have hfollow : ∀ b, Reaches (N.loop l).terminator stop a b →
      b = a ∨ (∃ w, task.Reach v op identity (source b) { s with update := w } ∧
        (stop u → w = s.update) ∧ b ≠ (N.loop l).bodyBB ∧ ¬ stop b) ∨
      ∃ w, task.Reach v op identity (source (N.loop l).bodyBB)
        { s with update := w, now := op s.before s.contribution } ∧ (stop u → w = s.update) := by
    intro b hb
    induction hb with
    | refl => exact .inl rfl
    | @tail b c _ hedge ih =>
        refine .inr ?_
        -- The run is at the end of the body, or one block before `c`.
        have hcase : (∃ w, task.Reach v op identity (source c) { s with
              update := w
              now := if c = (N.loop l).bodyBB then op s.before s.contribution else s.now } ∧
              (stop u → w = s.update)) ∨
            ∃ w, task.Reach v op identity (source (N.loop l).bodyBB)
              { s with update := w, now := op s.before s.contribution } ∧
              (stop u → w = s.update) := by
          rcases ih with rfl | ⟨w, hw, hsame, hbody, hbs⟩ | hend
          · exact .inl (hnext p c s.update hs (hp c hedge.1 hedge.2) hedge.2 fun _ => rfl)
          · have hc : source c ∈ (task.terminators (source b)).successors := by
              rw [hclone b hbody fun h => hbs (hstop b (.inr (.inl h))),
                Terminator.successors_map]
              exact List.mem_map_of_mem hedge.1
            exact .inl (hnext _ c w hw hc hedge.2 hsame)
          · exact .inr hend
        rcases hcase with ⟨w, hw, hsame⟩ | hend
        · by_cases hc : c = (N.loop l).bodyBB
          · subst hc
            rw [if_pos rfl] at hw
            exact .inr ⟨w, hw, hsame⟩
          · rw [if_neg hc] at hw
            exact .inl ⟨w, hw, hsame, hc, hedge.2⟩
        · exact .inr hend
  rcases hfollow _ hpath with h | ⟨_, _, _, hbody, _⟩ | h
  · exact absurd h.symm ha
  · exact absurd rfl hbody
  · exact h

end Paths

/-- The value that an edge to the exit block delivers, when the sum of the
contributions is accumulated in natural numbers. -/
theorem SliceTask.Complete.sum_value {task : SliceTask N l} (h : task.Complete)
    {v : LiveOutPhis N.TaskBlock} (hv : v ∈ task.liveOuts) {b : SliceBlock (N.Block l)}
    {s : AccumulatorState Nat} (hs : task.Reach v (· + ·) 0 b s)
    (hexit : source (N.loop l).loopExitBB ∈ (task.terminators b).successors) {e : SSAValue}
    (he : v.liveOutPhiAtLoopExitBlock.getIncomingValueForBlock ⟨l, b⟩ = some e) :
    s.eval 0 e = some s.now := by
  obtain ⟨value, hvalue, heval⟩ := h.liveOut_value v hv Nat (· + ·) 0 b s hs hexit
  rwa [Option.some.inj (he.symm.trans hvalue)]

/-- The edge of the handler block in a leaf slice asks for an update that is
run before the latch, and for the entries in the order that the code expects. -/
theorem place_of_leaf_complete (h : (N.leafTask l).Complete)
    (hne : (N.loop l).bodyBB ≠ (N.loop l).header) {o : LiveOut (N.Block l)}
    (ho : o ∈ N.liveOuts l) : o.order = .preHeaderFirst ∧ o.updateBB ≠ (N.loop l).latchBB := by
  have hvalue : (N.leafLiveOut l o).accumulatingPhi.getIncomingValueForBlock
      ⟨l, source (N.loop l).preHeader⟩ = some .identityValue := by
    obtain ⟨_ | _, _⟩ := o <;> simp [NestCFG.leafLiveOut, NestCFG.clonedLiveOut,
      Phi.getIncomingValueForBlock, preHeader_ne_latch.symm]
  -- One iteration, which contributes 1.
  have hstart : (N.leafTask l).Reach (N.leafLiveOut l o) (· + ·) 0 (source (N.loop l).header) _ :=
    .start (s := ⟨0, 0, 0, 0, 0, 0⟩) 1 rfl (enter_header (w := 0) rfl hne hvalue rfl)
  obtain ⟨w, hbody, hsame⟩ := exists_reach_bodyBB (fun b hb _ => LoopCFG.applyLeaf_source hb) rfl
    (fun t s => ⟨_, by rw [use_leaf]; rfl⟩) (fun _ => id) hne.symm hstart
    (fun t ht _ => by
      have hclone : (N.leafTask l).terminators (source (N.loop l).header) =
          ((N.loop l).terminator (N.loop l).header).map source :=
        LoopCFG.applyLeaf_source hne.symm
      rw [hclone, Terminator.successors_map]
      exact List.mem_map_of_mem ht) LoopCFG.reaches_bodyBB
  have hpoll : (N.leafTask l).Reach (N.leafLiveOut l o) (· + ·) 0 pollingBlock _ :=
    hbody.step 0 (by simp [leafTask, LoopCFG.applyLeaf_bodyBB, Terminator.successors])
      (by simp) rfl
  have hhandler : (N.leafTask l).Reach (N.leafLiveOut l o) (· + ·) 0 loopHandlerBlock _ :=
    hpoll.step 0 (by simp [leafTask, LoopCFG.applyLeaf_pollingBlock, Terminator.successors])
      (by simp) rfl
  have heval := h.sum_value (List.mem_map_of_mem ho) hhandler
    ((exit_mem_leaf hne).mpr (.inr rfl)) (e := o.order.second)
    (by simp [leafLiveOut, Phi.getIncomingValueForBlock])
  cases horder : o.order with
  | latchFirst =>
      -- The edge has the identity.
      rw [horder] at heval
      simp [EntryOrder.second, AccumulatorState.eval] at heval
  | preHeaderFirst =>
      refine ⟨rfl, fun hu => ?_⟩
      -- The edge has the update, which was not run.
      have hw := hsame (.inl hu)
      rw [if_neg fun hh : (N.loop l).header = o.updateBB =>
        LoopCFG.latch_ne_header (hu.symm.trans hh.symm)] at hw
      rw [horder] at heval
      simp [EntryOrder.second, AccumulatorState.eval, hw] at heval

section Chunked

variable {o : LiveOut (N.Block l)} {s : AccumulatorState Nat}

/-- In a complete chunked slice the entry of the latch is the second one. -/
theorem order_of_chunked_complete (h : (N.chunkedTask l).Complete)
    (hne : (N.loop l).bodyBB ≠ (N.loop l).header) (ho : o ∈ N.liveOuts l) :
    o.order = .preHeaderFirst := by
  cases horder : o.order with
  | preHeaderFirst => rfl
  | latchFirst =>
      -- The entry of the preheader was replaced: the loop starts at a value that is not set.
      have hvalue : (N.chunkedLiveOut l o).accumulatingPhi.getIncomingValueForBlock
          ⟨l, source (N.loop l).preHeader⟩ = some .liveOutPhi := by
        simp [chunkedLiveOut, clonedLiveOut, horder, Phi.setIncomingValue,
          Phi.getIncomingValueForBlock, preHeader_ne_latch.symm]
      have hstart : (N.chunkedTask l).Reach (N.chunkedLiveOut l o) (· + ·) 0
          (source (N.loop l).header) _ :=
        .start (s := ⟨0, 0, 1, 0, 0, 0⟩) 0 rfl (enter_header (w := 1) rfl hne hvalue rfl)
      have heval := h.sum_value (List.mem_map_of_mem ho) hstart
        ((exit_mem_chunked hne).mpr (.inl rfl)) (e := .accumulatingPhi)
        (by simp [chunkedLiveOut, Phi.getIncomingValueForBlock])
      simp [AccumulatorState.eval] at heval

/-- The header of the first chunk, when the first iteration contributes `x`. -/
theorem reach_chunkHeader (hne : (N.loop l).bodyBB ≠ (N.loop l).header)
    (horder : o.order = .preHeaderFirst) (x : Nat) :
    (N.chunkedTask l).Reach (N.chunkedLiveOut l o) (· + ·) 0 chunkLoopHeaderBlock
      ⟨0, if (N.loop l).header = o.updateBB then x else 0, 0, x, 0, 0⟩ := by
  have hvalue : (N.chunkedLiveOut l o).accumulatingPhi.getIncomingValueForBlock
      ⟨l, source (N.loop l).preHeader⟩ = some .identityValue := by
    simp [chunkedLiveOut, clonedLiveOut, horder, Phi.setIncomingValue,
      Phi.getIncomingValueForBlock]
  have hstart : (N.chunkedTask l).Reach (N.chunkedLiveOut l o) (· + ·) 0
      (source (N.loop l).header) _ :=
    .start (s := ⟨0, 0, 0, 0, 0, 0⟩) x rfl (enter_header (w := 0) rfl hne hvalue rfl)
  have hpre : (N.chunkedTask l).Reach (N.chunkedLiveOut l o) (· + ·) 0
      chunkLoopPreheaderBlock _ :=
    hstart.step 0 (by simp [chunkedTask, LoopCFG.chunkedSlice, hne.symm, Terminator.successors])
      (by simp) rfl
  have hphi : (N.chunkedLiveOut l o).liveOutPhi.getIncomingValueForBlock
      ⟨l, chunkLoopPreheaderBlock⟩ = some .accumulatingPhi := by
    simp [chunkedLiveOut, Phi.getIncomingValueForBlock]
  have hhead := hpre.step 0 (by simp [chunkedTask, LoopCFG.chunkedSlice, Terminator.successors])
    (by simp) (enter_chunkHeader hphi rfl)
  simpa using hhead

/-- At the header of a chunk the PHI has what was accumulated, since the chunk
may end there. -/
theorem chunkHeader_value (h : (N.chunkedTask l).Complete)
    (hne : (N.loop l).bodyBB ≠ (N.loop l).header) (ho : o ∈ N.liveOuts l)
    (hs : (N.chunkedTask l).Reach (N.chunkedLiveOut l o) (· + ·) 0 chunkLoopHeaderBlock s) :
    s.liveOutPhi = s.now := by
  have hexit : (N.chunkedTask l).Reach (N.chunkedLiveOut l o) (· + ·) 0 chunkLoopExitBlock s :=
    hs.step 0 (by simp [chunkedTask, LoopCFG.chunkedSlice, Terminator.successors]) (by simp) rfl
  have heval := h.sum_value (List.mem_map_of_mem ho) hexit
    ((exit_mem_chunked hne).mpr (.inr (.inr rfl))) (e := .liveOutPhi)
    (by simp [chunkedLiveOut, Phi.getIncomingValueForBlock])
  exact Option.some.inj heval

/-- From the end of the body the run comes to the header of the chunk again,
whose PHI takes the update. -/
theorem reach_next_chunkHeader (horder : o.order = .preHeaderFirst) (x : Nat)
    (hs : (N.chunkedTask l).Reach (N.chunkedLiveOut l o) (· + ·) 0
      (source (N.loop l).bodyBB) s) :
    (N.chunkedTask l).Reach (N.chunkedLiveOut l o) (· + ·) 0 chunkLoopHeaderBlock
      { s with liveOutPhi := s.update, contribution := x, before := s.now } := by
  have hlatch : (N.chunkedTask l).Reach (N.chunkedLiveOut l o) (· + ·) 0 chunkLoopLatchBlock s :=
    hs.step 0 (by simp [chunkedTask, LoopCFG.chunkedSlice, Terminator.successors]) (by simp) rfl
  have hphi : (N.chunkedLiveOut l o).liveOutPhi.getIncomingValueForBlock
      ⟨l, chunkLoopLatchBlock⟩ = some .update := by
    simp [chunkedLiveOut, Phi.getIncomingValueForBlock, horder, EntryOrder.second]
  have hhead := hlatch.step x (by simp [chunkedTask, LoopCFG.chunkedSlice, Terminator.successors])
    (by simp) (enter_chunkHeader hphi rfl)
  simpa using hhead

/-- The blocks of the body are those of the source, up to the last one. -/
theorem chunkedTask_clone {b : N.Block l} (hbody : b ≠ (N.loop l).bodyBB)
    (hheader : b ≠ (N.loop l).header) :
    (N.chunkedTask l).terminators (source b) = ((N.loop l).terminator b).map source := by
  simp [chunkedTask, LoopCFG.chunkedSlice, hbody, hheader]

/-- The accumulator that a block reads has a value. -/
theorem exists_use_chunked (t : N.Block l) (s : AccumulatorState Nat) :
    ∃ acc, s.eval 0 ((N.chunkedLiveOut l o).use t) = some acc := by
  rw [LiveOutPhis.use]
  split
  · exact ⟨_, rfl⟩
  · exact ⟨_, rfl⟩

/-- An iteration of a chunk that does not run the update: the PHI of the next
one has the old value of the update. -/
theorem reach_chunkHeader_of_ends (hne : (N.loop l).bodyBB ≠ (N.loop l).header)
    (hterm : (N.loop l).terminator (N.loop l).header =
      .condBr (N.loop l).entry (N.loop l).loopExitBB)
    (horder : o.order = .preHeaderFirst) (hu : (N.loop l).EndsIteration o.updateBB) (x : Nat)
    (hs : (N.chunkedTask l).Reach (N.chunkedLiveOut l o) (· + ·) 0 chunkLoopHeaderBlock s) :
    (N.chunkedTask l).Reach (N.chunkedLiveOut l o) (· + ·) 0 chunkLoopHeaderBlock
      ⟨s.accumulatingPhi, s.update, s.update, x, s.before + s.contribution,
        s.before + s.contribution⟩ := by
  -- the path through the body misses the update, so its value is still the old one
  obtain ⟨w, hbody, hsame⟩ := exists_reach_bodyBB (fun _ => chunkedTask_clone) rfl
    exists_use_chunked (fun _ => id) hne.symm hs
    (fun t ht hend => by
      simp only [hterm, Terminator.successors, List.mem_cons, List.not_mem_nil, or_false] at ht
      obtain rfl := ht.resolve_right fun he => hend (.inr (.inr he))
      simp [chunkedTask, LoopCFG.chunkedSlice, Terminator.successors]) LoopCFG.reaches_bodyBB
  obtain rfl := hsame hu
  exact reach_next_chunkHeader horder x hbody

/-- A path from the latch to the end of the body that misses the update, and
does not come to the header: past the header every path runs it. -/
theorem reaches_of_avoids {u : N.Block l} (hu : u ≠ (N.loop l).latchBB)
    (hdom : Dominates (N.loop l).terminator (N.loop l).header u (N.loop l).latchBB)
    (hheader : u ≠ (N.loop l).header)
    (h : Avoids (N.loop l).terminator u (N.loop l).latchBB (N.loop l).bodyBB) :
    Reaches (N.loop l).terminator (fun c => (N.loop l).EndsIteration c ∨ c = u)
      (N.loop l).latchBB (N.loop l).bodyBB := by
  -- along the path: it has not been at the header so far, or it has come to the end of the body
  -- already, or it goes on from the header without the update
  have hpath : ∀ b, Avoids (N.loop l).terminator u (N.loop l).latchBB b →
      Reaches (N.loop l).terminator (fun c => (N.loop l).EndsIteration c ∨ c = u)
        (N.loop l).latchBB b ∧ b ≠ (N.loop l).header ∨
      Reaches (N.loop l).terminator (fun c => (N.loop l).EndsIteration c ∨ c = u)
        (N.loop l).latchBB (N.loop l).bodyBB ∨
      Avoids (N.loop l).terminator u (N.loop l).header b := by
    intro b hb
    induction hb with
    | refl => exact .inl ⟨.refl, LoopCFG.latch_ne_header⟩
    | @tail b c _ hedge ih =>
        rcases ih with ⟨ih, hbh⟩ | ih | ih
        · by_cases hend : (N.loop l).EndsIteration c
          · rcases hend with rfl | rfl | rfl
            · exact .inr (.inl (LoopCFG.eq_bodyBB hedge.1 ▸ ih))
            · exact .inr (.inr .refl)
            · exact absurd (N.exit_pred l b hedge.1) hbh
          · refine .inl ⟨ih.tail ⟨hedge.1, ?_⟩, fun h => hend (.inr (.inl h))⟩
            exact fun h => h.elim hend hedge.2
        · exact .inr (.inl ih)
        · exact .inr (.inr (ih.tail hedge))
  -- the last case cannot be, since the update dominates the end of the body
  rcases hpath _ h with h | h | h
  · exact h.1
  · exact h
  · exact absurd h (dominates_bodyBB hdom hu hheader)

/-- A complete chunked slice has its updates in each iteration of a chunk.
Otherwise there is a run that comes to the header of a chunk without the
contribution of an iteration. -/
theorem place_of_chunked_complete (h : (N.chunkedTask l).Complete)
    (hne : (N.loop l).bodyBB ≠ (N.loop l).header)
    (hterm : (N.loop l).terminator (N.loop l).header =
      .condBr (N.loop l).entry (N.loop l).loopExitBB) (ho : o ∈ N.liveOuts l) :
    o.updateBB ≠ (N.loop l).latchBB ∧ (N.loop l).ChunkPlace o.updateBB := by
  have horder := order_of_chunked_complete h hne ho
  -- Two iterations, of which the second one contributes.
  have hends : ¬ (N.loop l).EndsIteration o.updateBB := by
    intro hends
    have hfirst := reach_chunkHeader (o := o) hne horder 0
    have hthird := reach_chunkHeader_of_ends hne hterm horder hends 0
      (reach_chunkHeader_of_ends hne hterm horder hends 1 hfirst)
    simpa using chunkHeader_value h hne ho hthird
  have hlatch : o.updateBB ≠ (N.loop l).latchBB := fun hu => hends (.inl hu)
  have hheader : o.updateBB ≠ (N.loop l).header := fun hu => hends (.inr (.inl hu))
  refine ⟨hlatch, hheader, fun _ havoids => ?_⟩
  -- The chunk ends at once, and the latch goes on in the body.
  have hstart := reach_chunkHeader (o := o) hne horder 1
  rw [if_neg hheader.symm] at hstart
  have hexit := hstart.step (c := chunkLoopExitBlock) 0
    (by simp [chunkedTask, LoopCFG.chunkedSlice, Terminator.successors]) (by simp) rfl
  have hpoll := hexit.step (c := pollingBlock) 0
    (by simp [chunkedTask, LoopCFG.chunkedSlice, Terminator.successors]) (by simp) rfl
  have hback := hpoll.step (c := source (N.loop l).latchBB) 0
    (by simp [chunkedTask, LoopCFG.chunkedSlice, Terminator.successors])
    (by simp [exit_ne_latch.symm])
    (enter_source (w := 0) rfl LoopCFG.latch_ne_header fun hu => absurd hu.symm hlatch)
  rw [if_neg hlatch.symm, if_neg LoopCFG.bodyBB_ne_latch.symm] at hback
  obtain ⟨w, hbody, hsame⟩ := exists_reach_bodyBB (fun _ => chunkedTask_clone) rfl
    exists_use_chunked (fun _ => .inl) LoopCFG.bodyBB_ne_latch.symm hback
    (fun t ht _ => by
      rw [chunkedTask_clone LoopCFG.bodyBB_ne_latch.symm LoopCFG.latch_ne_header,
        Terminator.successors_map]
      exact List.mem_map_of_mem ht)
    (reaches_of_avoids hlatch (N.update_dominates l o ho) hheader havoids)
  have hnext := reach_next_chunkHeader horder 0 hbody
  simpa [hsame (.inr rfl)] using chunkHeader_value h hne ho hnext

end Chunked

/-! ### The slices of a nest -/

/-- When the slice of a leaf loop is complete. For each condition that fails
there is a run to the exit block with a value that is wrong or not computed. -/
theorem leaf_complete_iff (h : N.isLeafLoop l) :
    (∃ task, N.sliceTask l = some task ∧ task.Complete) ↔
      (∀ o ∈ N.liveOuts l, o.order = .preHeaderFirst ∧ o.updateBB ≠ (N.loop l).latchBB ∧
        (N.chunkLoopIterations = true → (N.loop l).ChunkPlace o.updateBB)) ∧
      (N.loop l).bodyBB ≠ (N.loop l).header ∧
      (N.chunkLoopIterations = true → (N.loop l).terminator (N.loop l).header =
        .condBr (N.loop l).entry (N.loop l).loopExitBB) := by
  cases hchunk : N.chunkLoopIterations with
  | false =>
      rw [sliceTask_leaf h hchunk]
      constructor
      · rintro ⟨_, hsome, hcomplete⟩
        obtain rfl := Option.some.inj hsome
        have hne : (N.loop l).bodyBB ≠ (N.loop l).header := by
          intro heq
          refine not_complete_of_header ?_ (by simp [leafTask]) hcomplete
          rw [← heq]
          simp [leafTask, LoopCFG.applyLeaf_bodyBB, Terminator.successors]
        refine ⟨fun o ho => ?_, hne, fun hfalse => absurd hfalse Bool.false_ne_true⟩
        obtain ⟨horder, hu⟩ := place_of_leaf_complete hcomplete hne ho
        exact ⟨horder, hu, fun hfalse => absurd hfalse Bool.false_ne_true⟩
      · rintro ⟨hplace, hne, -⟩
        exact ⟨_, rfl, leafTask_complete h hne fun o ho =>
          ⟨(hplace o ho).1, (hplace o ho).2.1⟩⟩
  | true =>
      rw [sliceTask_chunked h hchunk]
      constructor
      · rintro ⟨task, hsome, hcomplete⟩
        have hne : (N.loop l).bodyBB ≠ (N.loop l).header := by
          intro heq
          have hnone : (N.loop l).executeLoopInChunk (N.leafTask l).terminators = none :=
            LoopCFG.executeLoopInChunk_header heq
          rw [chunkSlice, hnone] at hsome
          cases hsome
        rcases (N.loop l).governed with hterm | hterm <;> rw [chunkSlice_eq hne hterm] at hsome <;>
          obtain rfl := Option.some.inj hsome
        · refine ⟨fun o ho => ?_, hne, fun _ => hterm⟩
          obtain ⟨hu, hplace⟩ := place_of_chunked_complete hcomplete hne hterm ho
          exact ⟨order_of_chunked_complete hcomplete hne ho, hu, fun _ => hplace⟩
        · -- The edge of the header to the exit block was redirected to the chunk.
          refine absurd hcomplete (not_complete_of_header ?_ (by simp [chunkedTask]))
          simp [LoopCFG.chunkedSlice, hne.symm, Terminator.successors,
            LoopCFG.entry_ne_exit.symm]
      · rintro ⟨hplace, hne, hterm⟩
        exact ⟨_, chunkSlice_eq hne (hterm rfl), chunkedTask_complete h hne (hterm rfl) fun o ho =>
          ⟨(hplace o ho).1, (hplace o ho).2.1, (hplace o ho).2.2 rfl⟩⟩

/-- When the slice of a caller is complete. It has no live-out then, so what
is left to check are the return codes of its exit block. -/
theorem caller_complete_iff (h : l + 1 < N.numLevels) :
    (∃ task, N.sliceTask l = some task ∧ task.Complete) ↔
      N.liveOuts l = [] ∧ N.call l ≠ (N.loop l).header ∧
      (successor0 ((N.loop l).terminator (N.call l))).isSome := by
  have hleaf : ¬ N.isLeafLoop l := Nat.ne_of_lt h
  constructor
  · rintro ⟨task, hsome, hcomplete⟩
    -- the pass stops at a live-out of the caller, and at a call that no branch follows
    have hlive : N.liveOuts l = [] := by
      by_contra hne
      rw [linkSlice_of_liveOut hleaf hne] at hsome
      cases hsome
    cases ht : successor0 ((N.loop l).terminator (N.call l)) with
    | none =>
        rw [linkSlice_of_other hleaf ht] at hsome
        cases hsome
    | some t =>
        rw [linkSlice_eq hleaf hlive ht] at hsome
        obtain rfl := Option.some.inj hsome
        refine ⟨hlive, fun heq => ?_, rfl⟩
        -- The header would have two entries.
        have hnodup := hcomplete.returnCode.1
        simp [callerTask, heq] at hnodup
  · rintro ⟨hlive, hne, hsome⟩
    obtain ⟨t, ht⟩ := Option.isSome_iff_exists.mp hsome
    exact ⟨_, linkSlice_eq hleaf hlive ht, callerTask_complete h hne⟩

end Complete

/-- The slices of all levels have complete PHIs in their exit blocks if and
only if no loop that calls another one has a live-out, calls and bodies lie
between header and latch, the code finds the entry of the latch and the
successor in the body where it looks for them, and the update of an
accumulator is run before the edges that take its value: not in the latch, and
in a chunked loop in each iteration of a chunk. -/
theorem exit_phis_complete_iff (N : NestCFG) :
    (∀ l < N.numLevels, ∃ task, N.sliceTask l = some task ∧ task.Complete) ↔
      (∀ l, l + 1 < N.numLevels → N.liveOuts l = [] ∧ N.call l ≠ (N.loop l).header ∧
        (successor0 ((N.loop l).terminator (N.call l))).isSome) ∧
      ∀ l, l + 1 = N.numLevels →
        (∀ o ∈ N.liveOuts l, o.order = .preHeaderFirst ∧ o.updateBB ≠ (N.loop l).latchBB ∧
          (N.chunkLoopIterations = true → (N.loop l).ChunkPlace o.updateBB)) ∧
        (N.loop l).bodyBB ≠ (N.loop l).header ∧
        (N.chunkLoopIterations = true → (N.loop l).terminator (N.loop l).header =
          .condBr (N.loop l).entry (N.loop l).loopExitBB) := by
  constructor
  · intro h
    exact ⟨fun l hl => (caller_complete_iff hl).mp (h l (Nat.lt_of_succ_lt hl)),
      fun l hl => (leaf_complete_iff hl).mp (h l (hl ▸ Nat.lt_succ_self l))⟩
  · rintro ⟨hcaller, hleaf⟩ l hl
    -- every level but the last one calls the next one
    rcases Nat.lt_or_eq_of_le (Nat.succ_le_of_lt hl) with hlt | heq
    · exact (caller_complete_iff hlt).mpr (hcaller l hlt)
    · exact (leaf_complete_iff heq).mpr (hleaf l heq)

/-- The straight loop is left from its header. -/
theorem straightLoop_exit_pred (_ : Nat) : ∀ b : Fin 5, straightLoop.loopExitBB ∈
    (straightLoop.terminator b).successors → b = straightLoop.header := by decide

/-- A nest with live-outs at the root only has none in its nested loops. -/
theorem root_liveOuts_length {B : Type} (l : Nat) (os : List (LiveOut B)) (hl : 0 < l) :
    (if l = 0 then os else []).length ≤ 1 := by
  simp [Nat.ne_of_gt hl]

/-- The body of the straight loop is the only way to its latch. -/
theorem straightLoop_dominates : Dominates straightLoop.terminator straightLoop.header
    straightLoop.bodyBB straightLoop.latchBB := by
  -- Without the body, the header only goes to the exit.
  have hstep : ∀ b c : Fin 5, c ∈ (straightLoop.terminator b).successors →
      c ≠ straightLoop.bodyBB → b = straightLoop.header ∨ b = straightLoop.loopExitBB →
      c = straightLoop.header ∨ c = straightLoop.loopExitBB := by decide
  have hpath : ∀ b, Avoids straightLoop.terminator straightLoop.bodyBB straightLoop.header b →
      b = straightLoop.header ∨ b = straightLoop.loopExitBB := by
    intro b hb
    induction hb with
    | refl => exact .inl rfl
    | tail _ hedge ih => exact hstep _ _ hedge.1 hedge.2 ih
  exact fun _ h => absurd (hpath _ h) (by decide)

/-- Two loops, with a sum over the iterations of the root loop: the least nest
on which the pass stops. -/
def rootSumNest : NestCFG where
  numLevels := 2
  Block _ := Fin 5
  decEq _ := inferInstance
  loop _ := straightLoop
  liveOuts l := if l = 0 then [⟨.preHeaderFirst, straightLoop.bodyBB⟩] else []
  call _ := straightLoop.entry
  chunkLoopIterations := false
  exit_pred := straightLoop_exit_pred
  nested_liveOuts := fun l hl => root_liveOuts_length l _ hl
  update_dominates := by
    intro l o ho
    split at ho
    · obtain rfl := List.mem_singleton.mp ho
      exact straightLoop_dominates
    · cases ho

/-- The pass stops at the root loop. -/
theorem root_live_out_asserts : ¬ ∀ l < rootSumNest.numLevels,
    ∃ task, rootSumNest.sliceTask l = some task ∧ task.Complete := by
  intro h
  obtain ⟨task, htask, -⟩ := h 0 (by decide)
  have hnone : rootSumNest.sliceTask 0 = none := rfl
  rw [hnone] at htask
  cases htask

end HeartbeatCompiler
