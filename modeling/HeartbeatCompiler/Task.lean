import HeartbeatCompiler.Nest
import Mathlib.Logic.Function.Basic

/-!
# `HeartbeatCompiler.Task`: the generated tasks

The code that runs a nest: the slice task of every level, the leftover tasks,
`promotion_handler` and the original function, as fork–join programs. Each function of the
generated code and each loop header is a procedure (`Nest.body`).

A slice task keeps the loop bounds, the outer indices and the private copies of its
live-outs in registers, which are arguments of its loops here. A leaf loop polls after every
iteration, or after every chunk if it is chunked; a heartbeat is an answer other than zero.
`Nest.bodyWith` leaves the handler and the exit block open, so that the loops can be studied
with other ones in their place.
-/

set_option autoImplicit false

namespace HeartbeatCompiler

open ForkJoin Prog

namespace Nest

variable (n : Nest)

/-! ### The context -/

/-- Change the cache line of level `l` in the context `c`. Each store of an
entry is a step of its own. -/
def setRow (c : Path) (l : Nat) (f : Row → Row) : Prog n.sig PUnit :=
  modify (S := n.sig) (Loc.cxts c) fun rows : Nat → Row => Function.update rows l (f (rows l))

/-- A slice task of level `l` loads its environment of live-ins. The indices
of the outer loops are such live-ins, so that only the root loop may have
none. -/
def hasLiveIn (l : Nat) : Bool := l ≠ 0 || n.rootLiveIn

/-- How `LIVE_OUT_ENV` of level `l` leads to the reduction arrays in `q`:
directly when there is one live-out, through an array of pointers when there
are more. -/
def liveOutPtr (l : Nat) (q : Block) : LiveOutPtr :=
  if n.numLiveOuts l = 1 then .array q else .env q

/-- Allocate the first `size` slots of the reduction arrays of level `l` in
`q`. What is in them does not change: an alloca is not initialised. Only the
ghost log starts anew. -/
def allocateSlots (l : Nat) (q : Block) : Nat → Prog n.sig PUnit
  | 0 => pure ⟨⟩
  | i + 1 => do
      allocateSlots l q i
      modify (S := n.sig) (Loc.reduction l q i) fun s : Slots n l => { s with log := [] }

/-- Allocate and fill the array of pointers, if level `l` needs one: it has as
many reduction arrays as the loop has live-outs. -/
def allocatePointers (l : Nat) (q : Block) : Prog n.sig PUnit :=
  if n.numLiveOuts l = 1 then pure ⟨⟩ else write (S := n.sig) (Loc.liveOutEnv q) (some q)

/-- Allocate reduction arrays of level `l` in `q` and store them in the
context `c`. The arrays have one slot for the result of a nested call and two
slots for the tasks of a split. -/
def allocateLiveOuts (c : Path) (l : Nat) (q : Block) (size : Nat) : Prog n.sig PUnit :=
  if n.numLiveOuts l = 0 then pure ⟨⟩
  else do
    n.allocateSlots l q size
    n.allocatePointers l q
    n.setRow c l fun row => { row with liveOut := some (n.liveOutPtr l q) }

/-- `task_memory_reset`: the level to start from, and for a chunked loop a
whole chunk. -/
def taskMemoryReset (t : Path) (startingLevel : Nat) : Prog n.sig PUnit :=
  modify (S := n.sig) (Loc.tmem t) fun tm : TaskMemory =>
    match n.chunk with
    | none => { tm with startingLevel := startingLevel }
    | some chunksize => ⟨startingLevel, chunksize, chunksize⟩

/-! ### The entry block of a slice task -/

/-- Load the live-ins: the outer indices, and for the root loop the entries of
its own. The entries are loaded through the pointer in the row, from wherever
it points to. A nested slice faults if nobody has stored them. -/
def loadLiveIns (f : Frame) (rows : Nat → Row) : Prog n.sig (List Nat) :=
  if n.hasLiveIn f.level then do
    let q ← load (rows f.level).liveIn
    log (S := n.sig) (.loadedLiveIn q)
    let entries ← read (S := n.sig) (Loc.liveInEnv q)
    log (S := n.sig) (.loadedEntries f.level entries)
    if f.level = 0 then pure [] else load entries
  else pure []

/-- Load the reduction arrays that the row leads to, as they are when the
slice is entered. Later loads of the exit block go through this register and
not through the row. -/
def loadLiveOuts (f : Frame) (rows : Nat → Row) : Prog n.sig Block :=
  if n.numLiveOuts f.level = 0 then pure .original
  else do
    let p ← load (rows f.level).liveOut
    log (S := n.sig) (.loadedLiveOut p.block)
    match p with
    | .array q => pure q
    | .env q => do
        let q' ← read (S := n.sig) (Loc.liveOutEnv q)
        load q'

/-- Allocate the environments of the slice that this activation calls, once
for all iterations, and store them in the row of the next level. A leaf calls
no slice. -/
def allocateCallee (f : Frame) : Prog n.sig PUnit :=
  if f.level = n.leafLevel then pure ⟨⟩
  else do
    write (S := n.sig) (Loc.liveInEnv (.callee f.path)) none
    n.setRow f.cxts (f.level + 1) fun row => { row with liveIn := some (.callee f.path) }
    n.allocateLiveOuts f.cxts (f.level + 1) (.callee f.path) 1

/-- The private copies start at the identity of their reduction, not at the
value that the live-out has before the loop. -/
def privateCopies (l : Nat) : n.Values l := fun j => (n.reduction l j).identity

/-- The loop of a slice task. Only the leaf loop polls, and only it is
chunked. -/
def loop (g : Activation) (i : Nat) (acc : n.Values g.level) : Proc n :=
  if g.level = n.leafLevel then
    if n.chunk.isSome then .chunkedLoop g i acc else .leafLoop g i acc
  else .nestLoop g i acc

/-- The slice task of a level, up to its loop: the range, the live-ins and the
arrays to report to are loaded from the context. Then the row gets the arrays
for the tasks that may be split off, and the next one the environments for the
nested call. -/
def slice (f : Frame) : Prog n.sig Ret := do
  write (S := n.sig) (Loc.alive f.path) true
  let rows ← read (S := n.sig) (Loc.cxts f.cxts)
  let startIter ← load (rows f.level).start
  let maxIter ← load (rows f.level).max
  let outer ← n.loadLiveIns f rows
  let liveOut ← n.loadLiveOuts f rows
  n.allocateLiveOuts f.cxts f.level (.kids f.path) 2
  n.allocateCallee f
  invoke (S := n.sig) (n.loop ⟨f, rows, outer, maxIter, liveOut⟩ startIter
    (n.privateCopies f.level))

/-! ### The loops -/

/-- The private copies after iteration `v`: one operation with what the
iteration contributes. The update lies in the body, before the poll. -/
def accumulate (l : Nat) (v : List Nat) (acc : n.Values l) : n.Values l :=
  fun j => (n.reduction l j).op (acc j) (n.contribution l v j)

/-- Read what the nested call returned for the live-out of its loop: slot 0 of
the array that was allocated for it. -/
def readNestedResult (g : Activation) (v : List Nat) : Prog n.sig PUnit :=
  if n.numLiveOuts (g.level + 1) = 0 then pure ⟨⟩
  else do
    let s : Slots n (g.level + 1) ←
      read (S := n.sig) (Loc.reduction (g.level + 1) (.callee g.path) 0)
    log (S := n.sig) (.nestedResult (g.level + 1) v s.values)

/-- Store what the slice called in iteration `v` finds in its row, and the
iteration itself. The handler reads the latter if it is called further in: it
is the iteration in progress of this level. -/
def storeCallee (g : Activation) (i : Nat) (v : List Nat) : Prog n.sig PUnit := do
  write (S := n.sig) (Loc.liveInEnv (.callee g.path)) (some v)
  n.setRow g.cxts g.level fun row => { row with start := some i }
  n.setRow g.cxts (g.level + 1) fun row => { row with start := some (n.startIter v) }
  n.setRow g.cxts (g.level + 1) fun row => { row with max := some (n.maxIter v) }

/-- The loop of a level with a nested loop. After the nested call the rest of
the iteration runs in any case; a positive return code then leaves the loop,
since a promotion has given its rest away. -/
def nestLoop (g : Activation) (i : Nat) (acc : n.Values g.level) : Prog n.sig Ret :=
  if slt i g.maxIter then do
    let v := g.outer ++ [i]
    log (S := n.sig) (.pre v)
    n.storeCallee g i v
    let r ← invoke (S := n.sig)
      (.slice ⟨.nested g.level i g.maxIter :: g.path, g.level + 1, g.cxts, g.tmem, 0⟩)
    log (S := n.sig) (.returned g r)
    n.readNestedResult g v
    log (S := n.sig) (.post v)
    let acc := n.accumulate g.level v acc
    if 0 < r.rc then invoke (S := n.sig) (.loopExit g r acc)
    else invoke (S := n.sig) (.nestLoop g (wadd i 1) acc)
  else invoke (S := n.sig) (.loopExit g ⟨0, none⟩ acc)

/-- `heartbeat_polling`. The answer is free: whether a beat is due is a matter
of the clock. -/
def heartbeatPolling (g : Activation) : Prog n.sig Nat := do
  log (S := n.sig) (.polled g)
  answer

/-- The handler block: iteration `i` was the last one that was run. Its number
is stored for the handler, which splits what lies behind it. -/
def loopHandler (g : Activation) (i : Nat) : Prog n.sig Ret := do
  n.setRow g.cxts g.level fun row => { row with start := some i }
  let r ← invoke (S := n.sig) (.promotionHandler g.toFrame (g.outer ++ [i]))
  log (S := n.sig) (.returned g r)
  pure r

/-- The leaf loop without chunking: the body, a poll, and the handler if the
poll detects a beat. A positive return code leaves the loop. -/
def leafLoop (g : Activation) (i : Nat) (acc : n.Values g.level) : Prog n.sig Ret :=
  if slt i g.maxIter then do
    log (S := n.sig) (.leaf (g.outer ++ [i]))
    let acc := n.accumulate g.level (g.outer ++ [i]) acc
    let heartbeat ← n.heartbeatPolling g
    if heartbeat = 0 then invoke (S := n.sig) (.leafLoop g (wadd i 1) acc)
    else do
      let r ← n.loopHandler g i
      if 0 < r.rc then invoke (S := n.sig) (.loopExit g r acc)
      else invoke (S := n.sig) (.leafLoop g (wadd i 1) acc)
  else invoke (S := n.sig) (.loopExit g ⟨0, none⟩ acc)

/-- `update_and_has_remaining_chunksize`: after a whole chunk the next one is
a whole chunk too, after a part of it the next slice of the task goes on with
the rest. The result is true in the second case. -/
def updateAndHasRemainingChunksize (t : Path) (iterations chunksize : Nat) :
    Prog n.sig Bool := do
  modify (S := n.sig) (Loc.tmem t) fun tm : TaskMemory =>
    if iterations = chunksize then { tm with remainingChunksize := tm.chunksize }
    else { tm with remainingChunksize := wsub tm.remainingChunksize iterations }
  pure (decide (iterations ≠ chunksize))

/-- The outer loop of a chunked leaf loop: one pass for each chunk. The header
test is the unsigned one that the chunking leaves there, and the chunk ends at
the bound at the latest. -/
def chunkedLoop (g : Activation) (i : Nat) (acc : n.Values g.level) : Prog n.sig Ret :=
  if ult i g.maxIter then do
    let tm : TaskMemory ← read (S := n.sig) (Loc.tmem g.tmem)
    let chunksize := tm.remainingChunksize
    let high := umin (wadd i chunksize) g.maxIter
    invoke (S := n.sig) (.chunkLoop g i chunksize high i acc)
  else invoke (S := n.sig) (.loopExit g ⟨0, none⟩ acc)

/-- The inner loop: the iterations `low` up to `high` of the chunk that starts
at `i`. When the chunk is cut by the bound the loop is left without a poll,
else the task polls and the handler is told the last iteration that was run. -/
def chunkLoop (g : Activation) (i chunksize high low : Nat) (acc : n.Values g.level) :
    Prog n.sig Ret :=
  if ult low high then do
    log (S := n.sig) (.leaf (g.outer ++ [low]))
    invoke (S := n.sig) (.chunkLoop g i chunksize high (wadd low 1)
      (n.accumulate g.level (g.outer ++ [low]) acc))
  else do
    let remaining ← n.updateAndHasRemainingChunksize g.tmem (wsub high i) chunksize
    if remaining then invoke (S := n.sig) (.loopExit g ⟨0, none⟩ acc)
    else do
      let heartbeat ← n.heartbeatPolling g
      if heartbeat = 0 then invoke (S := n.sig) (.chunkedLoop g (wadd i chunksize) acc)
      else do
        let r ← n.loopHandler g (wsub low 1)
        if 0 < r.rc then invoke (S := n.sig) (.loopExit g r acc)
        else invoke (S := n.sig) (.chunkedLoop g (wadd i chunksize) acc)

/-! ### The exit block of a slice task -/

/-- Read slot `i` of the reduction arrays for the kids. The ghost log records
the read and is reported as it was found. -/
def readSlot (g : Activation) (i : Nat) : Prog n.sig (n.Values g.level) := do
  let s : Slots n g.level ← fetch (S := n.sig) (Loc.reduction g.level (.kids g.path) i)
    fun s : Slots n g.level => { s with log := s.log ++ [.read] }
  log (S := n.sig) (.slotRead g i s.log)
  pure s.values

/-- The private copies with the partial results of the tasks that were split
off. Return code 0: no task was. Above 1: an outer level was split, and only
the leftover task has run a part of this loop. At 1: this level was split, and
both tasks have. The merge is an integer addition for every live-out. -/
def reduceKids (g : Activation) (rc : Int) (acc : n.Values g.level) :
    Prog n.sig (n.Values g.level) :=
  if rc < 1 then pure acc
  else do
    let first ← n.readSlot g 0
    if 1 < rc then pure fun j => acc j + first j
    else do
      let second ← n.readSlot g 1
      pure fun j => acc j + first j + second j

/-- Store the partial results and restore `LIVE_OUT_ENV`: the row led to the
arrays for the kids while the activation ran, and its callers expect it to
lead to theirs. -/
def reduceLiveOuts (g : Activation) (rc : Int) (acc : n.Values g.level) : Prog n.sig PUnit :=
  if n.numLiveOuts g.level = 0 then pure ⟨⟩
  else do
    let sum ← n.reduceKids g rc acc
    modify (S := n.sig) (Loc.reduction g.level g.liveOut g.myIndex) fun s : Slots n g.level =>
      ⟨sum, s.log ++ [.written g.path]⟩
    n.setRow g.cxts g.level fun row => { row with liveOut := (g.entry g.level).liveOut }

/-- The exit block. The return code counts the levels that are still to be
left, one fewer for each activation that returns. -/
def loopExit (g : Activation) (r : Ret) (acc : n.Values g.level) : Prog n.sig Ret := do
  log (S := n.sig) (.exited g r acc)
  n.reduceLiveOuts g r.rc acc
  write (S := n.sig) (Loc.alive g.path) false
  log (S := n.sig) (.left g ⟨r.rc - 1, r.ended⟩)
  pure ⟨r.rc - 1, r.ended⟩

/-! ### The promotion handler and the tasks it forks -/

/-- The first level from `level` on, among the next `fuel` ones, with at least
two iterations between `START_ITER` and `MAX_ITER`: the one in progress and
one that can be given away. The difference is unsigned. The outer `Option` is
a fault: an entry that was never stored. -/
def splittingLevel (rows : Nat → Row) : (fuel level : Nat) → Option (Option Nat)
  | 0, _ => some none
  | fuel + 1, level =>
      match (rows level).start, (rows level).max with
      | some start, some max =>
          if 2 ≤ wsub max start then some (some level) else splittingLevel rows fuel (level + 1)
      | _, _ => none

/-- The first iteration of the second task, when `low` is in progress: the
middle of what lies behind it. -/
def splitPoint (low high : Nat) : Nat := wadd (wadd low 1) high / 2

/-- The frame of the first half of a split of the leaf level: the same context
and task memory, with slot 0 to report to. -/
def firstFrame (f : Frame) : Frame := { f with path := .first :: f.path, myIndex := 0 }

/-- The frame in which the leftover task of a split at level `s` runs its
blocks from `level` on: it keeps the context and the task memory of the task
it comes from, and reports to slot 0. -/
def leftoverFrame (f : Frame) (s level : Nat) : Frame :=
  { f with path := .leftover s level :: f.path, level := level, myIndex := 0 }

/-- The frame of the second half of the split of level `s`. It has a context
and a task memory of its own, and reports to slot 1. -/
def secondFrame (f : Frame) (s : Nat) : Frame :=
  ⟨.second s :: f.path, s, .second s :: f.path, .second s :: f.path, 1⟩

/-- Increment `START_ITER` of level `l` in the context `c`: the iteration in
progress is not to be run again. -/
def incrementStart (c : Path) (l : Nat) : Prog n.sig PUnit := do
  let rows : Nat → Row ← read (S := n.sig) (Loc.cxts c)
  let start ← load (rows l).start
  n.setRow c l fun row => { row with start := some (wadd start 1) }

/-- Fork the two tasks of a split at level `s`. If this is the level of the
caller, the first task is the other half of its range; else it is a leftover
task, which first finishes the levels below `s`. -/
def forkTasks (f : Frame) (s : Nat) : Prog n.sig PUnit :=
  if s = f.level then do
    n.incrementStart f.cxts f.level
    fork2join (S := n.sig) (.firstTask f) (.secondTask f s)
  else fork2join (S := n.sig) (.leftoverTask f s) (.secondTask f s)

/-- Split level `s` of the context and run the two tasks with `fork`: the
context of the second task is new, and both contexts get their half of the
range at `s`. Both lead to the same environments. The fork is a parameter,
since the program may call its tasks directly or by the tables. -/
def splitWith (fork : Frame → Nat → Prog n.sig PUnit) (f : Frame) (v : List Nat)
    (rows : Nat → Row) (s : Nat) : Prog n.sig Ret := do
  let low ← load (rows s).start
  let high ← load (rows s).max
  let mid := splitPoint low high
  log (S := n.sig) (.promoted f s mid high (v.take s ++ [mid]))
  write (S := n.sig) (Loc.cxts (secondFrame f s).cxts) fun _ => Row.uninitialised
  n.setRow (secondFrame f s).cxts s fun _ =>
    ⟨some mid, some high, (rows s).liveIn, (rows s).liveOut⟩
  n.setRow f.cxts s fun row => { row with max := some mid }
  fork f s
  pure ⟨(f.level : Int) - s + 1, some s⟩

/-- `promotion_handler`, called by a leaf activation after iteration `v`, with
the given fork. It looks from the starting level of the task down to the level
of the caller, and declines if no level can be split. -/
def promotionHandlerWith (fork : Frame → Nat → Prog n.sig PUnit) (f : Frame) (v : List Nat) :
    Prog n.sig Ret := do
  log (S := n.sig) (.handlerCalled f v)
  let tm : TaskMemory ← read (S := n.sig) (Loc.tmem f.tmem)
  let rows : Nat → Row ← read (S := n.sig) (Loc.cxts f.cxts)
  let s ← load (splittingLevel rows (f.level + 1 - tm.startingLevel) tm.startingLevel)
  match s with
  | none => do
      log (S := n.sig) (.declined f)
      pure ⟨0, none⟩
  | some s => n.splitWith fork f v rows s

/-- `promotion_handler` when it calls its tasks directly. -/
def promotionHandler : Frame → List Nat → Prog n.sig Ret := n.promotionHandlerWith n.forkTasks

/-- The first half of a split at the leaf level. The task memory is reset, so
that the next promotion in this task starts at the leaf: the levels above it
belong to the caller. -/
def firstTask (f : Frame) : Prog n.sig Ret := do
  n.taskMemoryReset f.tmem f.level
  invoke (S := n.sig) (.slice (firstFrame f))

/-- The leftover task from the level of `f` to level `s`: the levels below `s`
are finished from the inside out, and `s` itself up to its new bound. -/
def leftoverTask (f : Frame) (s : Nat) : Prog n.sig Ret := do
  n.taskMemoryReset f.tmem s
  invoke (S := n.sig) (.leftoverBlock f s f.level)

/-- The block of the leftover task that invokes the slice of `level`. A
positive return code ends the task early: a promotion inside of the slice has
taken the levels that are left. -/
def leftoverBlock (f : Frame) (s level : Nat) : Prog n.sig Ret := do
  n.incrementStart f.cxts level
  let r ← invoke (S := n.sig) (.slice (leftoverFrame f s level))
  if level = s then pure r
  else if 0 < r.rc then pure r
  else invoke (S := n.sig) (.leftoverBlock f s (level - 1))

/-- The second task of a split at level `s`, with a task memory of its own on
the stack of the task. -/
def secondTask (f : Frame) (s : Nat) : Prog n.sig Ret := do
  n.taskMemoryReset (secondFrame f s).tmem s
  invoke (S := n.sig) (.slice (secondFrame f s))

/-! ### The original function -/

/-- The environment of the live-ins of the root loop. It is stored in the
context, but its entries are not filled: `populateLiveInEnvironment` is
commented out in the root path. -/
def allocateRootLiveIns : Prog n.sig PUnit :=
  if n.rootLiveIn then do
    write (S := n.sig) (Loc.liveInEnv .original) none
    n.setRow [] 0 fun row => { row with liveIn := some .original }
  else pure ⟨⟩

/-- Merge the initial values with the slot the root slice has written. This is
the one merge that uses the operator of the reduction. -/
def reduceRoot : Prog n.sig PUnit :=
  if n.numLiveOuts 0 = 0 then pure ⟨⟩
  else do
    let s : Slots n 0 ← read (S := n.sig) (Loc.reduction 0 .original 0)
    log (S := n.sig) (.result fun j => (n.reduction 0 j).op (n.initial 0 [] j) (s.values j))

/-- The original function, with the root loop replaced by a call of its slice.
The context has room for every level, and only the row of the root loop is
filled here. -/
def original : Prog n.sig Ret := do
  write (S := n.sig) (Loc.cxts []) fun _ => Row.uninitialised
  n.setRow [] 0 fun row => { row with start := some (n.startIter []) }
  n.setRow [] 0 fun row => { row with max := some (n.maxIter []) }
  n.allocateRootLiveIns
  n.allocateLiveOuts [] 0 .original 1
  n.taskMemoryReset [] 0
  let r ← invoke (S := n.sig) (.slice ⟨[], 0, [], [], 0⟩)
  n.reduceRoot
  pure r

/-- The procedures, over a handler and an exit block: the parts that a variant
of the program replaces. -/
def bodyWith (handler : Frame → List Nat → Prog n.sig Ret)
    (exit : (g : Activation) → Ret → n.Values g.level → Prog n.sig Ret) :
    Proc n → Prog n.sig Ret
  | .original => n.original
  | .slice f => n.slice f
  | .nestLoop g i acc => n.nestLoop g i acc
  | .leafLoop g i acc => n.leafLoop g i acc
  | .chunkedLoop g i acc => n.chunkedLoop g i acc
  | .chunkLoop g i chunksize high low acc => n.chunkLoop g i chunksize high low acc
  | .loopExit g r acc => exit g r acc
  | .promotionHandler f v => handler f v
  | .firstTask f => n.firstTask f
  | .leftoverTask f s => n.leftoverTask f s
  | .leftoverBlock f s level => n.leftoverBlock f s level
  | .secondTask f s => n.secondTask f s

/-- The generated program: every procedure with its code. -/
def body : n.sig.Proc → Prog n.sig n.sig.Res := n.bodyWith n.promotionHandler n.loopExit

/-- The original function at its start. -/
def start : Conf n.sig := .run n.original

end Nest

end HeartbeatCompiler
