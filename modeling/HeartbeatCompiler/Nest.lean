import HeartbeatCompiler.ForkJoin.Prog
import HeartbeatCompiler.Word
import Mathlib.Data.Int.Basic
import Mathlib.Data.List.Basic

/-!
# `HeartbeatCompiler.Nest`: the loop nest and the memory of the tasks

`Nest` is a nest of unit-step loops as the pass receives it: the bounds of every level as
functions of the outer indices, the live-outs of every level with their reductions, and
whether the leaf loop is chunked.

The rest of the module is what the generated code keeps in memory: the context, with one
cache line for each level (`Row`), the task memory, the live-in and live-out environments
and the reduction arrays. Everything that is allocated is named by the activation whose
frame it lies in, and an activation is named by the chain of calls that leads to it (`Path`).
No chain of calls occurs twice in a run, so no name is used twice.

A reduction array has one slot for each cache line. The slots with one index of all the
arrays of a block form one location (`Loc.reduction`), with a value for each live-out.
-/

set_option autoImplicit false

namespace HeartbeatCompiler

open ForkJoin

/-! ### The source program -/

/-- An associative and commutative integer reduction with its identity. The
pass starts a private copy at the identity (`privateCopies`), and what an
iteration does to a live-out is an operation with its contribution. The exit
block does not look at `op`: it merges partial results by an integer addition,
whatever the reduction is. -/
structure Reduction (w : Nat) where
  op : BitVec w → BitVec w → BitVec w
  identity : BitVec w
  assoc : ∀ x y z, op (op x y) z = op x (op y z)
  comm : ∀ x y, op x y = op y x
  identity_op : ∀ x, op identity x = x

/-- Wrapping integer addition. It is the reduction for which the merges of the
exit block are the ones that the source asks for. -/
def Reduction.add (w : Nat) : Reduction w where
  op x y := x + y
  identity := 0
  assoc := BitVec.add_assoc
  comm := BitVec.add_comm
  identity_op := BitVec.zero_add

/-- A nest of `numLevels` loops, one for each level. The level of a loop is
the number of loops around it. The code of an iteration is abstract: what is
left of it is that it runs (the events of `Event`) and what it adds to the
live-outs of its level. Bounds may depend on the indices of the outer loops,
as they do in a triangular nest. They are below `2 ^ 63`, where the signed and
the unsigned compare of the loop headers agree. -/
structure Nest where
  numLevels : Nat
  numLevels_pos : 0 < numLevels
  /-- The bounds of a loop, given the indices of the loops around it. -/
  startIter : List Nat → Nat
  maxIter : List Nat → Nat
  startIter_lt : ∀ v, startIter v < 2 ^ 63
  maxIter_lt : ∀ v, maxIter v < 2 ^ 63
  /-- The root loop has a live-in in the environment of its own. -/
  rootLiveIn : Bool
  numLiveOuts : Nat → Nat
  width : (l : Nat) → Fin (numLiveOuts l) → Nat
  reduction : (l : Nat) → (j : Fin (numLiveOuts l)) → Reduction (width l j)
  /-- The values of the live-outs before the loop, given the outer indices. -/
  initial : (l : Nat) → List Nat → (j : Fin (numLiveOuts l)) → BitVec (width l j)
  /-- What an iteration contributes to the live-outs of its level. -/
  contribution : (l : Nat) → List Nat → (j : Fin (numLiveOuts l)) → BitVec (width l j)
  /-- The chunk size, if the leaf loop is chunked. -/
  chunk : Option Nat
  chunk_bounds : ∀ c ∈ chunk, 1 ≤ c ∧ c < 2 ^ 63

/-- One value for each live-out of level `l`: the private copies of an
activation, the slots of one index, or the result of the loop. -/
abbrev Nest.Values (n : Nest) (l : Nat) : Type :=
  (j : Fin (n.numLiveOuts l)) → BitVec (n.width l j)

/-- The level of the leaf loop, which is the only one that polls and the only
one that may be chunked. -/
def Nest.leafLevel (n : Nest) : Nat := n.numLevels - 1

/-! ### The memory of the tasks -/

/-- How an activation of a slice task was called: from iteration `i` of an
activation at `level` whose bound is `maxIter`, from the block of `level` of a
leftover task, or as one of the halves of a split. The data of a site are
ghosts, by which the activations of a run get different names. -/
inductive Site
  | nested (level i maxIter : Nat)
  | leftover (splittingLevel level : Nat)
  | first
  | second (splittingLevel : Nat)
  deriving DecidableEq

/-- The chain of calls that leads to an activation, the last call first. The
suffixes of a path are the activations on the stack below it, also across the
forks of a promotion, where they stay alive until both tasks have returned. -/
abbrev Path := List Site

/-- What is allocated together: by the original function, by an activation for
the slice it calls, or by an activation for the tasks that are split off it. A
pointer to an environment is the block that it points to. -/
inductive Block
  | original
  | callee (π : Path)
  | kids (π : Path)
  deriving DecidableEq

/-- The activation in whose frame a block lies; none for the original
function. The arrays are allocas, so that a block is gone when its owner
returns. -/
def Block.owner : Block → Option Path
  | original => none
  | callee π => some π
  | kids π => some π

/-- An entry `LIVE_OUT_ENV`: a reduction array, or an array of pointers to
some. The first is what the pass stores when the loop has a single live-out,
the second when it has several. -/
inductive LiveOutPtr
  | array (q : Block)
  | env (q : Block)
  deriving DecidableEq

/-- The block a live-out pointer points into, on either layout. -/
def LiveOutPtr.block : LiveOutPtr → Block
  | array q => q
  | env q => q

/-- The cache line of one level in a context: `START_ITER`, `MAX_ITER`,
`LIVE_IN_ENV` and `LIVE_OUT_ENV`. An entry is `none` until it is stored, since
the context is an alloca; a load of such an entry is a fault of the program. -/
structure Row where
  start : Option Nat
  max : Option Nat
  liveIn : Option Block
  liveOut : Option LiveOutPtr
  deriving DecidableEq

/-- A cache line nothing was stored in. The second task of a split gets a
context of such lines and one that is filled. -/
def Row.uninitialised : Row := ⟨none, none, none, none⟩

/-- `task_memory_t`: where the handler starts to look for a level to split,
and the chunk sizes of the task. The polling count is read by the chunk-size
control only and is part of its own model. -/
structure TaskMemory where
  startingLevel : Nat
  chunksize : Nat
  remainingChunksize : Nat
  deriving DecidableEq

/-- A ghost record of what happened to a slot of a reduction array: a task has
written its partial result there, or the exit block has read it. -/
inductive SlotAccess
  | written (π : Path)
  | read
  deriving DecidableEq

/-- The slots with one index: a value for each live-out, and what happened to
them since they were allocated. The log has no counterpart in the source. It
is what the results about slots that are written and read once speak of. -/
structure Slots (n : Nest) (l : Nat) where
  values : n.Values l
  log : List SlotAccess

/-- The locations of the store. Contexts and task memories are named by the
activation or the task that allocates them, the environments by their blocks.
The last kind of location is a ghost: whether the frame of an activation is
still there. -/
inductive Loc
  | cxts (c : Path)
  | tmem (t : Path)
  | liveInEnv (q : Block)
  | liveOutEnv (q : Block)
  | reduction (l : Nat) (q : Block) (i : Nat)
  | alive (π : Path)
  deriving DecidableEq

/-- What a location holds. A live-in environment holds the indices of the
loops around its level; an array of pointers holds the block its pointers lead
to. -/
@[reducible]
def Nest.Val (n : Nest) : Loc → Type
  | .cxts _ => Nat → Row
  | .tmem _ => TaskMemory
  | .liveInEnv _ => Option (List Nat)
  | .liveOutEnv _ => Option Block
  | .reduction l _ _ => Slots n l
  | .alive _ => Bool

/-! ### Procedures and events -/

/-- What a slice task is called with: its level, the context, the task memory
and `myIndex`, the slot that it is to report to. The path names the
activation. -/
structure Frame where
  path : Path
  level : Nat
  cxts : Path
  tmem : Path
  myIndex : Nat

/-- An activation of a slice task after its entry block: the context as it was
found, the outer indices, the exit bound and the reduction arrays it loaded
from there. These are registers of the generated code, so that a later change
of the context does not change them. -/
structure Activation extends Frame where
  entry : Nat → Row
  outer : List Nat
  maxIter : Nat
  liveOut : Block

/-- A return code, with the level that was split by the promotion it reports.
The code alone is what the program sees; `ended` is a ghost that says where
the code comes from. -/
structure Ret where
  rc : Int
  ended : Option Nat
  deriving DecidableEq

/-- The functions of the generated code and the headers of their loops: a loop
is a procedure that calls itself, with the induction variable and the private
copies as its arguments. -/
inductive Proc (n : Nest)
  | original
  | slice (f : Frame)
  | nestLoop (g : Activation) (i : Nat) (acc : n.Values g.level)
  | leafLoop (g : Activation) (i : Nat) (acc : n.Values g.level)
  | chunkedLoop (g : Activation) (i : Nat) (acc : n.Values g.level)
  | chunkLoop (g : Activation) (i chunksize high low : Nat) (acc : n.Values g.level)
  | loopExit (g : Activation) (ret : Ret) (acc : n.Values g.level)
  | promotionHandler (f : Frame) (v : List Nat)
  | firstTask (f : Frame)
  | leftoverTask (f : Frame) (splittingLevel : Nat)
  | leftoverBlock (f : Frame) (splittingLevel level : Nat)
  | secondTask (f : Frame) (splittingLevel : Nat)

/-- What is observed of a run. A vector names an iteration by the indices of
all its loops. The first three events are the work of the program; the others
are what the results about the runtime speak of, such as the calls of the
handler and the accesses to the slots. -/
inductive Event (n : Nest)
  /-- The code of an iteration before and after the nested call, and the leaf body. -/
  | pre (v : List Nat)
  | post (v : List Nat)
  | leaf (v : List Nat)
  /-- A pointer or the entries that the entry block of a slice task loads. -/
  | loadedLiveIn (q : Block)
  | loadedLiveOut (q : Block)
  | loadedEntries (l : Nat) (entries : Option (List Nat))
  | polled (g : Activation)
  | handlerCalled (f : Frame) (v : List Nat)
  | declined (f : Frame)
  /-- The iteration `v` is the first one of the second task, whose exit bound is `high`. -/
  | promoted (f : Frame) (splittingLevel mid high : Nat) (v : List Nat)
  /-- A nested call or a call of the handler has returned to an activation. -/
  | returned (g : Activation) (ret : Ret)
  | exited (g : Activation) (ret : Ret) (acc : n.Values g.level)
  | slotRead (g : Activation) (i : Nat) (log : List SlotAccess)
  | left (g : Activation) (ret : Ret)
  | nestedResult (l : Nat) (v : List Nat) (x : n.Values l)
  | result (x : n.Values 0)

/-- The signature of the generated program: its locations and what they hold,
its procedures and its events. -/
abbrev Nest.sig (n : Nest) : Sig where
  Loc := Loc
  Val := n.Val
  Proc := Proc n
  Res := Ret
  Event := Event n

/-- The locations of the signature are those of the runtime, whatever the
nest. -/
instance (n : Nest) : DecidableEq n.sig.Loc := inferInstanceAs (DecidableEq Loc)

/-! ### Small nests -/

/-- Zero is below the bound of the indices. -/
theorem Nest.zero_lt_bound : (0 : Nat) < 2 ^ 63 := by decide

/-- So is three, which the nests of the examples use. -/
theorem Nest.three_lt_bound : (3 : Nat) < 2 ^ 63 := by decide

/-- `numLevels` loops of `size` iterations each, where every iteration
contributes 1 to each live-out. The concrete runs of the development are runs
of such nests. -/
def Nest.uniform (numLevels size : Nat) (rootLiveIn : Bool) (numLiveOuts : Nat → Nat)
    (r : Reduction 8) (initial : BitVec 8) (hlevels : 0 < numLevels := by decide)
    (hsize : size < 2 ^ 63 := by decide) : Nest where
  numLevels := numLevels
  numLevels_pos := hlevels
  startIter _ := 0
  maxIter _ := size
  startIter_lt _ := by decide
  maxIter_lt _ := hsize
  rootLiveIn := rootLiveIn
  numLiveOuts := numLiveOuts
  width _ _ := 8
  reduction _ _ := r
  initial _ _ _ := initial
  contribution _ _ _ := 1
  chunk := none
  chunk_bounds := nofun

/-- A single loop from `a` to `b` with the reductions `r` and a contribution
for each index. -/
def Nest.single {m : Nat} {w : Fin m → Nat} (r : (j : Fin m) → Reduction (w j)) (a b : Nat)
    (ha : a < 2 ^ 63) (hb : b < 2 ^ 63) (initial : (j : Fin m) → BitVec (w j))
    (contribution : Nat → (j : Fin m) → BitVec (w j)) : Nest where
  numLevels := 1
  numLevels_pos := Nat.one_pos
  startIter _ := a
  maxIter _ := b
  startIter_lt _ := ha
  maxIter_lt _ := hb
  rootLiveIn := false
  numLiveOuts _ := m
  width _ := w
  reduction _ := r
  initial _ _ := initial
  contribution _ v := contribution (v.getD 0 0)
  chunk := none
  chunk_bounds := nofun

/-- A store to start from. The results hold for every store: the program
stores what it loads. -/
def Nest.blank (n : Nest) : n.sig.Store
  | .cxts _ => fun _ => Row.uninitialised
  | .tmem _ => ⟨0, 0, 0⟩
  | .liveInEnv _ => none
  | .liveOutEnv _ => none
  | .reduction _ _ _ => ⟨fun _ => 0, []⟩
  | .alive _ => false

end HeartbeatCompiler
