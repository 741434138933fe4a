import HeartbeatCompiler.ForkJoin.Wp
import HeartbeatCompiler.History
import HeartbeatCompiler.Scope
import HeartbeatCompiler.Task
import Mathlib.Algebra.BigOperators.Intervals

/-!
# `HeartbeatCompiler.Contract`: what a call is promised and what it promises

The specification of the tasks as pre- and postconditions. `SlicePre` is what holds when a
slice task is called on the range `[a, b)` with outer indices `v`: its own row of the
context, its environments, and for every suspended level the row, the environments and the
slots that a promotion would hand out (`Suspended`). `SlicePost` is what holds when it
returns: its own range has been run, and if a promotion split a level above it, so has
everything that was left of the levels from there on (`Resumed`).

The slots of the reductions are followed at the levels in a set `T`, and the values in them at
those in `T.exact`; a nest is `Mergeable` at `T` if the additions with which the tasks merge
partial results are what the operators of the latter levels would give. `Allowed` marks the
promotions that keep the slots of the levels in `T` apart, and `Good` is what each event of a
run is to satisfy.
-/

set_option autoImplicit false

namespace HeartbeatCompiler

open ForkJoin Prog

variable (n : Nest) (T : Tracked)

/-! ### Merges -/

/-- At the levels in `T.exact` the additions of the exit block merge as the
operator would, if there are promotions. This is all that the proofs ask of an
operator; an addition satisfies it, and without promotions so does every
operator:

- `liveOut`: the levels that are tracked have live-outs;
- `accessed`: the slots of all levels with live-outs may be accessed;
- `three`: three parts, which meet at the level that was split;
- `two`: two parts, which meet below it. The root loop merges none of these,
  since nothing is further out. -/
structure Mergeable : Prop where
  liveOut : ∀ l ∈ T, n.numLiveOuts l ≠ 0
  accessed : ∀ l, n.numLiveOuts l ≠ 0 → l ∈ T.accessed
  three : T.promotes → ∀ l ∈ T.exact, ∀ j x y z,
    (n.reduction l j).op ((n.reduction l j).op x y) z = x + y + z
  two : T.promotes → ∀ l ∈ T.exact, l ≠ 0 → ∀ j x y, (n.reduction l j).op x y = x + y

/-- The task that writes slot `i` of the block `q` at level `l`: slot 0
belongs to the first half or to a block of a leftover task, slot 1 to the
second task. It was forked above the activation whose kids the block is for. -/
def IsChild (q : Block) (l i : Nat) (ρ : Path) : Prop :=
  ∃ π, q = .kids π ∧ match ρ with
    | .second s :: ρ => i = 1 ∧ s = l ∧ π <:+ ρ
    | .leftover _ level :: ρ => i = 0 ∧ level = l ∧ π <:+ ρ
    | .first :: ρ => i = 0 ∧ l = n.leafLevel ∧ π <:+ ρ
    | _ => False

/-! ### What is handed over -/

variable {n} in
/-- The row of level `l` leads to the environments of an activation with outer
indices `u`, in frames that are in `C`: the live-ins are filled (the root
loop's are not), and the pointers to the reduction arrays are stored. -/
structure EnvReady (C : Set Path) (σ : n.sig.Store) (l : Nat) (u : List Nat) (row : Row) :
    Prop where
  liveIn : n.hasLiveIn l = true → ∃ q : Block, row.liveIn = some q ∧ q.Above C ∧
    σ (.liveInEnv q) = if l = 0 then none else some u
  liveOut : n.numLiveOuts l ≠ 0 → ∃ q : Block, row.liveOut = some (n.liveOutPtr l q) ∧
    q.Above C ∧ (n.numLiveOuts l ≠ 1 → σ (.liveOutEnv q) = some q)

variable {n} in
/-- The suspended levels, from the lowest one of the current branch on: their
rows hold the iteration in progress and the bound, and their slots have not
been touched. It is what a promotion further in may rely on when it gives one
of these levels away. -/
structure Suspended (C : Set Path) (π : Path) (c : Path) (v : List Nat) (σ : n.sig.Store) :
    Prop where
  start : ∀ l, π.low n.leafLevel ≤ l → l < v.length →
    (σ (.cxts c) l).start = some (index v l)
  max : ∀ l, π.low n.leafLevel ≤ l → l < v.length →
    (σ (.cxts c) l).max = some (bound (σ (.cxts c)) l)
  lt : ∀ l, π.low n.leafLevel ≤ l → l < v.length →
    index v l < bound (σ (.cxts c)) l ∧ bound (σ (.cxts c)) l < 2 ^ 63
  env : ∀ l, π.low n.leafLevel ≤ l → l < v.length →
    EnvReady C σ l (v.take l) (σ (.cxts c) l)
  kids : ∀ l, π.low n.leafLevel ≤ l → l < v.length → n.numLiveOuts l ≠ 0 →
    ∃ ρ ∈ C, arrays (σ (.cxts c)) l = .kids ρ
  fresh : ∀ l ∈ T, ∀ q i, PendingSlot n.leafLevel π v (σ (.cxts c)) (l, q, i) →
    (σ (.reduction l q i)).log = []

/-- The chunk sizes in the task memory are in range: a chunk is never empty,
the rest of one is no longer than a whole one, and adding a chunk to an index
below the bound does not wrap. -/
def ChunkReady (tm : TaskMemory) : Prop :=
  n.chunk.isSome → 1 ≤ tm.remainingChunksize ∧ tm.remainingChunksize ≤ tm.chunksize ∧
    tm.chunksize < 2 ^ 63

/-- What a task may rely on in its task memory:

- `low_le`: the starting level is no level that others have to finish;
- `empty`: the levels above `startingLevel` have nothing left, which is why
  the handler may begin its search there;
- `chunk`: the chunk sizes are in range. -/
structure TmemReady (low : Nat) (v : List Nat) (rows : Nat → Row) (tm : TaskMemory) : Prop where
  low_le : low ≤ tm.startingLevel
  empty : ∀ l, low ≤ l → l < v.length → l < tm.startingLevel → bound rows l ≤ index v l + 1
  chunk : ChunkReady n tm

/-- What is left of the suspended level `l`: the iterations behind the one in
progress, with all that they run. -/
def Nest.rest (v : List Nat) (rows : Nat → Row) (l : Nat) : Multiset Work :=
  ↑(n.iterations (v.take l) (index v l + 1) (bound rows l))

/-- What is left of the suspended levels from `s` on. A promotion that splits
`s` has run exactly this when it returns. -/
def Nest.restFrom (v : List Nat) (rows : Nat → Row) (s : Nat) : Multiset Work :=
  ∑ l ∈ Finset.Ico s v.length, n.rest v rows l

variable {n} in
/-- The suspended levels after a call that ran them from `cut` on: nothing has
changed below `cut`, the slots from there on hold the partial results, and if
there was a promotion, the levels below `cut` had nothing left. At the cut
itself the two slots together hold the total of the rest (`split`), and at
each level further in slot 0 does (`done`). -/
structure Resumed (π : Path) (c : Path) (v : List Nat) (σ s : n.sig.Store) (cut : Nat) :
    Prop where
  rows : ∀ l, l < cut → s (.cxts c) l = σ (.cxts c) l
  env : cut < v.length → (s (.cxts c) cut).liveIn = (σ (.cxts c) cut).liveIn ∧
    (s (.cxts c) cut).liveOut = (σ (.cxts c) cut).liveOut
  kept : ∀ l ∈ T, l < cut → ∀ q i, PendingSlot n.leafLevel π v (σ (.cxts c)) (l, q, i) →
    s (.reduction l q i) = σ (.reduction l q i)
  apart : cut < v.length → cut < π.base n.leafLevel →
    ∀ l ∈ T, π.low n.leafLevel ≤ l → cut < l
  done : ∀ l ∈ T, cut < l → l < v.length → ∀ q, q = arrays (σ (.cxts c)) l →
    (l ∈ T.exact → (s (.reduction l q 0)).values =
        n.total (v.take l) l (index v l + 1) (bound (σ (.cxts c)) l)) ∧
      ∃ ρ, (s (.reduction l q 0)).log = [.written ρ] ∧ IsChild n q l 0 ρ
  kept_second : ∀ l ∈ T, cut < l → l < v.length → π.base n.leafLevel ≤ l →
    ∀ q, q = arrays (σ (.cxts c)) l → s (.reduction l q 1) = σ (.reduction l q 1)
  split : cut ∈ T → cut < v.length → ∀ q, q = arrays (σ (.cxts c)) cut →
    (cut ∈ T.exact → ∀ j, (n.reduction cut j).op ((s (.reduction cut q 0)).values j)
        ((s (.reduction cut q 1)).values j) =
      n.total (v.take cut) cut (index v cut + 1) (bound (σ (.cxts c)) cut) j) ∧
      (∃ ρ, (s (.reduction cut q 0)).log = [.written ρ] ∧ IsChild n q cut 0 ρ) ∧
      ∃ ρ, (s (.reduction cut q 1)).log = [.written ρ] ∧ IsChild n q cut 1 ρ

/-- The number of pieces of code that a slice with suspended levels from `s`
on may run: its own and those that a promotion inside of it may run. Every
call has a smaller load than its caller, which is the measure of the main
induction. -/
def Nest.load (v : List Nat) (rows : Nat → Row) (s a b : Nat) : Nat :=
  (n.iterations v a b).length + (n.restFrom v rows s).card

/-! ### Slices -/

variable {n} in
/-- A slice task is called on `[a, b)` with outer indices `v`:

- `length`, `level_le`, `base_le`, `low_le_base`, `tmem_eq`, `cxts_suffix`:
  the frame is consistent with its path;
- `start`, `max`, `start_lt`, `max_lt`: the row of its level holds the range,
  which is far from a wrap;
- `env`: the row leads to the environments, and these are filled;
- `pending`, `suspended`: the levels further out are suspended with an
  iteration in progress each;
- `tmem`, `own_empty`: the levels above the starting level have nothing left;
- `alive`: the callers are alive. -/
structure SlicePre (f : Frame) (v : List Nat) (a b : Nat) (σ : n.sig.Store) : Prop where
  length : v.length = f.level
  level_le : f.level ≤ n.leafLevel
  base_le : f.path.base n.leafLevel ≤ f.level
  low_le_base : f.path.low n.leafLevel ≤ f.path.base n.leafLevel
  tmem_eq : f.tmem = f.cxts
  cxts_suffix : f.cxts <:+ f.path
  start : (σ (.cxts f.cxts) f.level).start = some a
  max : (σ (.cxts f.cxts) f.level).max = some b
  start_lt : a < 2 ^ 63
  max_lt : b < 2 ^ 63
  env : EnvReady f.path.callers σ f.level v (σ (.cxts f.cxts) f.level)
  pending : Pending n.leafLevel f.path v (σ (.cxts f.cxts))
  suspended : Suspended T f.path.callers f.path f.cxts v σ
  tmem : TmemReady n (f.path.low n.leafLevel) v (σ (.cxts f.cxts)) (σ (.tmem f.cxts))
  own_empty : f.level < (σ (.tmem f.cxts)).startingLevel → b ≤ a
  alive : ∀ ρ ∈ f.path.callers, σ (.alive ρ) = true

/-- The first iteration of a range, if there is one. It is started by the call
itself and so is not the first one of a task that was promoted inside of it. -/
def firstOf (v : List Nat) (a b : Nat) : Multiset (List Nat) := if a < b then {v ++ [a]} else 0

/-- The level up to which a call has left the suspended levels alone: the one
that was split, or its own level if none was. -/
def Ret.cut (r : Ret) (l : Nat) : Nat := r.ended.getD l

variable {n} in
/-- A slice task has returned:

- `rc`, `ended_le`, `promotes`: its code counts the levels that its callers
  have to leave, up to the level that a promotion has split;
- `resumed`: the levels further out are as they were, or have been run to
  their end by that promotion;
- `env`: if none of them was split, the own row leads where it led before;
- `empty`: what was passed over on the way had nothing left;
- `low_le`, `chunk`: the task memory can be used by the caller again;
- `slot`: its slot holds the total of its range, written once;
- `runs`: the trace has run the range and what a promotion has taken from the
  levels around it. -/
structure SlicePost (f : Frame) (v : List Nat) (a b : Nat) (σ : n.sig.Store) (r : Ret)
    (s : n.sig.Store) (τ : n.sig.Trace) : Prop where
  rc : r.rc = r.ended.elim (-1) fun l => (f.level : Int) - l
  ended_le : ∀ l ∈ r.ended, f.path.low n.leafLevel ≤ l ∧ l ≤ f.level
  promotes : r.ended.isSome → T.promotes
  resumed : Resumed T f.path f.cxts v σ s (r.cut f.level)
  env : r.cut f.level = f.level →
    (s (.cxts f.cxts) f.level).liveIn = (σ (.cxts f.cxts) f.level).liveIn ∧
    (s (.cxts f.cxts) f.level).liveOut = (σ (.cxts f.cxts) f.level).liveOut
  empty : ∀ l, f.path.low n.leafLevel ≤ l → l < r.cut f.level →
    (l < (s (.tmem f.cxts)).startingLevel ∨ r.ended.isSome) →
    bound (σ (.cxts f.cxts)) l ≤ index v l + 1
  low_le : f.path.low n.leafLevel ≤ (s (.tmem f.cxts)).startingLevel
  chunk : ChunkReady n (s (.tmem f.cxts))
  slot : f.level ∈ T → ∀ q, q = arrays (σ (.cxts f.cxts)) f.level →
    (f.level ∈ T.exact → (s (.reduction f.level q f.myIndex)).values = n.total v f.level a b) ∧
    (s (.reduction f.level q f.myIndex)).log =
      (σ (.reduction f.level q f.myIndex)).log ++ [.written f.path]
  runs : Executes v (firstOf v a b) (n.iterations v a b)
    (n.restFrom v (σ (.cxts f.cxts)) (r.cut f.level)) τ

/-! ### The handler and the leftover tasks -/

variable {n} in
/-- The handler is called by the leaf activation `f` after the iteration `v`.
For the handler the level of its caller is one more suspended level: its row
holds the last iteration that was run:

- `level_eq`, `length`, `base_le`, `low_le_base`, `tmem_eq`, `cxts_suffix`:
  the frame is that of a leaf loop and consistent with its path;
- `pending`, `suspended`: all levels are suspended, with their indices in `v`;
- `tmem`: the levels above the starting level have nothing left;
- `alive`: the activations on the stack are alive, the caller of the handler
  among them. -/
structure HandlerPre (f : Frame) (v : List Nat) (σ : n.sig.Store) : Prop where
  level_eq : f.level = n.leafLevel
  length : v.length = n.numLevels
  base_le : f.path.base n.leafLevel ≤ f.level
  low_le_base : f.path.low n.leafLevel ≤ f.path.base n.leafLevel
  tmem_eq : f.tmem = f.cxts
  cxts_suffix : f.cxts <:+ f.path
  pending : Pending n.leafLevel f.path (v.take f.level) (σ (.cxts f.cxts))
  suspended : Suspended T {ρ | ρ <:+ f.path} f.path f.cxts v σ
  tmem : TmemReady n (f.path.low n.leafLevel) v (σ (.cxts f.cxts)) (σ (.tmem f.cxts))
  alive : ∀ ρ, ρ <:+ f.path → σ (.alive ρ) = true

variable {n} in
/-- The handler has returned:

- `rc`, `ended_le`, `promotes`: its code is 0, or tells its caller how many
  levels to leave, one more than lie below the level that was split;
- `resumed`: the tasks that it forked have run all that was left of the levels
  from the split on;
- `declined`: if it declined, the task memory has not changed either;
- `empty`: there was nothing left further out than the level that was split;
- `low_le`, `chunk`: the task memory can be used by the caller again;
- `runs`: the trace has run what was left, and nothing if the handler
  declined. -/
structure HandlerPost (f : Frame) (v : List Nat) (σ : n.sig.Store) (r : Ret)
    (s : n.sig.Store) (τ : n.sig.Trace) : Prop where
  rc : r.rc = r.ended.elim 0 fun l => (f.level : Int) - l + 1
  ended_le : ∀ l ∈ r.ended, f.path.low n.leafLevel ≤ l ∧ l ≤ f.level
  promotes : r.ended.isSome → T.promotes
  resumed : Resumed T f.path f.cxts v σ s (r.cut v.length)
  declined : r.ended = none → s (.tmem f.cxts) = σ (.tmem f.cxts)
  empty : ∀ l, f.path.low n.leafLevel ≤ l → l < r.cut v.length → r.ended.isSome →
    bound (σ (.cxts f.cxts)) l ≤ index v l + 1
  low_le : f.path.low n.leafLevel ≤ (s (.tmem f.cxts)).startingLevel
  chunk : ChunkReady n (s (.tmem f.cxts))
  runs : Executes (v.take f.level) 0 [] (n.restFrom v (σ (.cxts f.cxts)) (r.cut v.length)) τ

variable {n} in
/-- The block of `level` of a leftover task, split at level `s`, is about to
run:

- `le_level`, `level_le`, `length`, `tmem_eq`, `cxts_suffix`: the frame is
  that of the leaf loop that was promoted;
- `pending`: the blocks that come later are suspended, whatever the rows from
  their level on are then;
- `start`, `max`, `lt`: the levels from `s` to `level` are still as they were
  suspended;
- `env`, `kids`: their environments are filled, and their arrays are in frames
  of the callers;
- `fresh`: the slots 0 of these arrays are still to be written;
- `tmem`: the levels above the starting level have nothing left;
- `alive`: the activations that wait for the task are alive. -/
structure LeftoverPre (f : Frame) (v : List Nat) (s level : Nat) (σ : n.sig.Store) : Prop where
  le_level : s ≤ level
  level_le : level ≤ n.leafLevel
  length : v.length = n.numLevels
  tmem_eq : f.tmem = f.cxts
  cxts_suffix : f.cxts <:+ f.path
  pending : ∀ k, s ≤ k → k ≤ level → ∀ rows : Nat → Row,
    (∀ l, l < k → rows l = σ (.cxts f.cxts) l) →
    Pending n.leafLevel (.leftover s k :: f.path) (v.take k) rows
  start : ∀ l, s ≤ l → l ≤ level → (σ (.cxts f.cxts) l).start = some (index v l)
  max : ∀ l, s ≤ l → l ≤ level →
    (σ (.cxts f.cxts) l).max = some (bound (σ (.cxts f.cxts)) l)
  lt : ∀ l, s ≤ l → l ≤ level →
    index v l < bound (σ (.cxts f.cxts)) l ∧ bound (σ (.cxts f.cxts)) l < 2 ^ 63
  env : ∀ l, s ≤ l → l ≤ level →
    EnvReady {ρ | ρ <:+ f.path} σ l (v.take l) (σ (.cxts f.cxts) l)
  kids : ∀ l, s ≤ l → l ≤ level → n.numLiveOuts l ≠ 0 →
    ∃ ρ, ρ <:+ f.path ∧ arrays (σ (.cxts f.cxts)) l = .kids ρ
  fresh : ∀ l ∈ T, s ≤ l → l ≤ level → ∀ q, q = arrays (σ (.cxts f.cxts)) l →
    (σ (.reduction l q 0)).log = []
  tmem : TmemReady n s (v.take (level + 1)) (σ (.cxts f.cxts)) (σ (.tmem f.cxts))
  alive : ∀ ρ, ρ <:+ f.path → σ (.alive ρ) = true

variable {n} in
/-- A leftover task has returned from its blocks from `level` down to `s`:

- `rows`: the rows further out have not changed;
- `env`: the row of `s` leads where it led before;
- `done`: each of these levels has its total in slot 0, written once by its
  block;
- `low_le`, `chunk`: the task memory can be used again;
- `runs`: the trace has run what was left of these levels. -/
structure LeftoverPost (f : Frame) (v : List Nat) (s level : Nat) (σ : n.sig.Store)
    (σ' : n.sig.Store) (τ : n.sig.Trace) : Prop where
  rows : ∀ l, l < s → σ' (.cxts f.cxts) l = σ (.cxts f.cxts) l
  env : (σ' (.cxts f.cxts) s).liveIn = (σ (.cxts f.cxts) s).liveIn ∧
    (σ' (.cxts f.cxts) s).liveOut = (σ (.cxts f.cxts) s).liveOut
  done : ∀ l ∈ T, s ≤ l → l ≤ level → ∀ q, q = arrays (σ (.cxts f.cxts)) l →
    (l ∈ T.exact → (σ' (.reduction l q 0)).values =
        n.total (v.take l) l (index v l + 1) (bound (σ (.cxts f.cxts)) l)) ∧
      ∃ ρ, (σ' (.reduction l q 0)).log = [.written ρ] ∧ IsChild n q l 0 ρ
  low_le : s ≤ (σ' (.tmem f.cxts)).startingLevel
  chunk : ChunkReady n (σ' (.tmem f.cxts))
  runs : Runs (v.take level) 0 (n.restFrom (v.take (level + 1)) (σ (.cxts f.cxts)) s) τ

/-! ### Events -/

/-- The promotions that keep the slots of the levels in `T` apart: a promotion
made in a block of a leftover task and splitting a level that is left to the
later blocks may only do so if no level in `T` lies between the splitting
levels. Otherwise two tasks would write slot 0 of such a level. -/
def Allowed : n.sig.Event → Prop
  | .promoted f s _ _ _ => T.promotes ∧
      (s < f.path.base n.leafLevel → ∀ l ∈ T, f.path.low n.leafLevel ≤ l → s < l)
  | _ => True

variable {n} in
/-- An activation leaves with return code `r`:

- `rc`, `ended_le`: the code counts the levels up to the one that was split;
- `rows`: the rows that its callers will read again are as it found them;
- `env`: if it was not cut, its own row leads where it led before;
- `slot`: its slot holds the total of the range it was called on;
- `kids`: of the slots for its kids each was written once and read once, or
  not used at all. -/
structure LeftGood (g : Activation) (r : Ret) (σ : n.sig.Store) : Prop where
  rc : r.rc = r.ended.elim (-1) fun l => (g.level : Int) - l
  ended_le : ∀ l ∈ r.ended, l ≤ g.level
  rows : ∀ l : Nat, (l : Int) < g.level - Max.max r.rc 0 → σ (.cxts g.cxts) l = g.entry l
  env : r.rc ≤ 0 → (σ (.cxts g.cxts) g.level).liveIn = (g.entry g.level).liveIn ∧
    (σ (.cxts g.cxts) g.level).liveOut = (g.entry g.level).liveOut
  slot : g.level ∈ T.exact → ∀ a b, (g.entry g.level).start = some a →
    (g.entry g.level).max = some b →
    (σ (.reduction g.level (arrays g.entry g.level) g.myIndex)).values =
      n.total g.outer g.level a b
  kids : g.level ∈ T → ∀ i, i < 2 → (σ (.reduction g.level (.kids g.path) i)).log = [] ∨
    ∃ ρ, (σ (.reduction g.level (.kids g.path) i)).log = [.written ρ, .read] ∧
      IsChild n (.kids g.path) g.level i ρ

/-- What each event of a run is to satisfy, with the store at its emission.
These are the facts that the results on runs are read off from: an invariant
of the whole run is stated as what its events report. -/
def Good (e : n.sig.Event × n.sig.Store) : Prop :=
  match e.1 with
  | .loadedLiveIn q => ∀ ρ, q.owner = some ρ → e.2 (.alive ρ) = true
  | .loadedLiveOut q => ∀ ρ, q.owner = some ρ → e.2 (.alive ρ) = true
  | .loadedEntries l entries => n.hasLiveIn l = true ∧ (entries = none ↔ l = 0)
  | .handlerCalled f _ => ∀ x ∈ n.unstartedAt f (e.2 (.cxts f.cxts)),
      (e.2 (.tmem f.tmem)).startingLevel ≤ x.1 ∧ x.1 ≤ f.level
  | .declined f => n.unstartedAt f (e.2 (.cxts f.cxts)) = []
  | .promoted f s mid high v => f.path.base n.leafLevel ≤ n.leafLevel ∧ mid < high ∧
      (∃ u, u.length = s ∧ v = u ++ [mid]) ∧
      (∃ x ∈ n.unstartedAt f (e.2 (.cxts f.cxts)), x.1 = s) ∧
      ∀ x ∈ n.unstartedAt f (e.2 (.cxts f.cxts)), s ≤ x.1
  | .returned g r => 0 < r.rc ↔ ∃ l ∈ r.ended, l ≤ g.level
  | .left g r => LeftGood T g r e.2
  | .slotRead g i log => g.level ∈ T →
      ∃ ρ, log = [.written ρ] ∧ IsChild n (.kids g.path) g.level i ρ
  | .nestedResult l v x => l ∈ T.exact → x = n.total v l (n.startIter v) (n.maxIter v)
  | .result x => 0 ∈ T.exact → ∀ j, x j = (n.reduction 0 j).op (n.initial 0 [] j)
      (n.total [] 0 (n.startIter []) (n.maxIter []) j)
  | _ => True

/-! ### Live frames -/

/-- The activation in whose frame a location lies, if it is in the frame of
one. Contexts and task memories are not counted here: they outlive the tasks
that use them. -/
def Loc.owner : Loc → Option Path
  | .liveInEnv q => q.owner
  | .liveOutEnv q => q.owner
  | .reduction _ q _ => q.owner
  | _ => none

/-- The frame in which `x` lies has not been left, so that the access is to
memory that is still there. -/
def Live (σ : n.sig.Store) (x : Loc) : Prop := ∀ ρ, x.owner = some ρ → σ (.alive ρ) = true

variable {n} in
/-- The frame of `owner` has not been left, and no other task leaves it: the
entry that says so is among what the task relies on. -/
def Held (rel : Set Loc) (σ : n.sig.Store) (owner : Option Path) : Prop :=
  ∀ ρ, owner = some ρ → Loc.alive ρ ∈ rel ∧ σ (.alive ρ) = true

namespace Held

variable {n} {rel : Set Loc} {σ σ' : n.sig.Store} {owner : Option Path}

/-- A frame that is held is alive, whatever the other tasks do. -/
theorem live {x : Loc} (h : Held rel σ x.owner) : ∀ s, Agree rel σ s → Live n s x :=
  fun s hs ρ hρ => by
    rw [← hs _ (h ρ hρ).1]
    exact (h ρ hρ).2

/-- What is in no frame of an activation. -/
theorem none : Held rel σ none := fun _ hρ => nomatch hρ

/-- A frame that no other task leaves, and that was not left. -/
theorem some {ρ : Path} (hρ : Loc.alive ρ ∈ rel) (h : σ (.alive ρ) = true) :
    Held rel σ (.some ρ) := by
  rintro _ ⟨⟩
  exact ⟨hρ, h⟩

/-- The frame stays held while nobody leaves it. -/
theorem congr (h : Held rel σ owner) (hσ : ∀ ρ, σ' (.alive ρ) = σ (.alive ρ)) :
    Held rel σ' owner :=
  fun ρ hρ => ⟨(h ρ hρ).1, (hσ ρ).trans (h ρ hρ).2⟩

end Held

variable {n} in
/-- The task is correct, relies on `rel` and changes at most `mod`: an
instance of the weakest precondition of the library, with the promotions in
`T` allowed and every event good. -/
abbrev CorrectIn (rel mod : Set Loc) (p : Prog n.sig Ret) (σ : n.sig.Store) (Q : n.sig.Post) :
    Prop :=
  Wp n.body (Allowed n T) (Good n T) (Live n) T.free rel mod (.run p) σ Q

variable {n} in
/-- The task is correct in its scope, which says what it relies on and what it
may change. -/
abbrev Correct (S : Scope) (p : Prog n.sig Ret) (σ : n.sig.Store) (Q : n.sig.Post) : Prop :=
  CorrectIn T (S.rel T) (S.mod T) p σ Q

/-- Slices with less than `M` to run are correct. The proof of all slices is
by induction on `M`, and the cases use this for the slices that they call. -/
def SliceSpec (M : Nat) : Prop :=
  ∀ (f : Frame) (v : List Nat) (a b : Nat) (σ : n.sig.Store), SlicePre T f v a b σ →
    n.load v (σ (.cxts f.cxts)) (f.path.low n.leafLevel) a b < M →
    Correct T (f.scope n.leafLevel v (σ (.cxts f.cxts))) (n.slice f) σ (SlicePost T f v a b σ)

/-! ### The rules in the scope of a branch -/

namespace Correct

variable {n T} {S : Scope} {σ : n.sig.Store} {Q : n.sig.Post} {α : Type}

/-- The return, from any store that looks the same. -/
theorem ret {r : Ret} (h : ∀ s, Agree (S.rel T) σ s → Q r s []) :
    Correct T S (pure r) σ Q :=
  Wp.ret h

/-- Reading what the scope relies on. -/
theorem read {x : Loc} {k : n.Val x → Prog n.sig Ret} (hx : x ∈ S.rel T)
    (hl : Held (S.rel T) σ x.owner) (h : Correct T S (k (σ x)) σ Q) :
    Correct T S (Prog.read (S := n.sig) x >>= k) σ Q :=
  Wp.read_bind (S := n.sig) hx hl.live h

/-- Reading what others may change. -/
theorem read_unknown {x : Loc} {k : n.Val x → Prog n.sig Ret} (hx : x ∉ S.rel T)
    (hf : x ∈ T.free) (hx' : x ∈ S.mod T) (hl : Held (S.rel T) σ x.owner)
    (h : ∀ v, Correct T S (k v) σ Q) :
    Correct T S (Prog.read (S := n.sig) x >>= k) σ Q :=
  Wp.access_unknown (S := n.sig) hx hf hx' hl.live h

/-- Changing what the scope relies on and may change. -/
theorem modify {x : Loc} {f : n.Val x → n.Val x} {k : PUnit → Prog n.sig Ret}
    (hx : x ∈ S.rel T) (hx' : x ∈ S.mod T) (hl : Held (S.rel T) σ x.owner)
    (h : Correct T S (k ⟨⟩) (Function.update σ x (f (σ x))) Q) :
    Correct T S (Prog.modify (S := n.sig) x f >>= k) σ Q :=
  Wp.modify_bind (S := n.sig) hx hx' hl.live h

/-- Changing what others may change too. -/
theorem modify_unknown {x : Loc} {f : n.Val x → n.Val x} {k : PUnit → Prog n.sig Ret}
    (hx : x ∉ S.rel T) (hf : x ∈ T.free) (hx' : x ∈ S.mod T) (hl : Held (S.rel T) σ x.owner)
    (h : Correct T S (k ⟨⟩) σ Q) :
    Correct T S (Prog.modify (S := n.sig) x f >>= k) σ Q :=
  Wp.modify_unknown_bind (S := n.sig) hx hf hx' hl.live h

/-- Writing what the scope relies on and may change. -/
theorem write {x : Loc} {v : n.Val x} {k : PUnit → Prog n.sig Ret}
    (hx : x ∈ S.rel T) (hx' : x ∈ S.mod T) (hl : Held (S.rel T) σ x.owner)
    (h : Correct T S (k ⟨⟩) (Function.update σ x v) Q) :
    Correct T S (Prog.write (S := n.sig) x v >>= k) σ Q :=
  Wp.write_bind (S := n.sig) hx hx' hl.live h

/-- Reading and changing in one step. -/
theorem fetch {x : Loc} {f : n.Val x → n.Val x} {k : n.Val x → Prog n.sig Ret}
    (hx : x ∈ S.rel T) (hx' : x ∈ S.mod T) (hl : Held (S.rel T) σ x.owner)
    (h : Correct T S (k (σ x)) (Function.update σ x (f (σ x))) Q) :
    Correct T S (Prog.fetch (S := n.sig) x f >>= k) σ Q :=
  Wp.fetch_bind (S := n.sig) hx hx' hl.live h

/-- Reading and changing what others may change too. -/
theorem fetch_unknown {x : Loc} {f : n.Val x → n.Val x} {k : n.Val x → Prog n.sig Ret}
    (hx : x ∉ S.rel T) (hf : x ∈ T.free) (hx' : x ∈ S.mod T) (hl : Held (S.rel T) σ x.owner)
    (h : ∀ v, Correct T S (k v) σ Q) :
    Correct T S (Prog.fetch (S := n.sig) x f >>= k) σ Q :=
  Wp.fetch_unknown_bind (S := n.sig) hx hf hx' hl.live h

/-- A lookup that is known to succeed. -/
theorem load {o : Option α} {a : α} {k : α → Prog n.sig Ret} (ho : o = some a)
    (h : Correct T S (k a) σ Q) : Correct T S (Prog.load o >>= k) σ Q :=
  Wp.load_bind ho h

/-- Any answer of a poll. -/
theorem answer {k : Nat → Prog n.sig Ret} (h : ∀ i, Correct T S (k i) σ Q) :
    Correct T S (Prog.answer >>= k) σ Q :=
  Wp.answer_bind h

/-- An event: it must be good in the store in which it happens. -/
theorem log {e : Event n} {k : PUnit → Prog n.sig Ret}
    (h : Allowed n T e → ∀ s, Agree (S.rel T) σ s → Good n T (e, s) ∧
      Correct T S (k ⟨⟩) σ (Q.after [(e, s)])) :
    Correct T S (Prog.log (S := n.sig) e >>= k) σ Q :=
  Wp.log_bind (S := n.sig) h

/-- A call in a scope of its own. -/
theorem call {S₁ : Scope} (hS : S₁.Le T S) {p : Proc n} {k : Ret → Prog n.sig Ret}
    {Q₁ : n.sig.Post} (hp : Correct T S₁ (n.body p) σ Q₁)
    (hk : ∀ r s τ, Q₁ r s τ → (∀ x ∈ S.rel T, x ∉ S₁.mod T → s x = σ x) →
      Correct T S (k r) s (Q.after τ)) :
    Correct T S (Prog.invoke (S := n.sig) p >>= k) σ Q :=
  Wp.invoke_bind (S := n.sig) hS.rel_subset hS.mod_subset hp hk

/-- A call at the end, in the same scope. -/
theorem tail {p : Proc n} (h : Correct T S (n.body p) σ Q) :
    Correct T S (Prog.invoke (S := n.sig) p) σ Q :=
  Wp.invoke (S := n.sig) h

/-- A last call in a scope of its own. -/
theorem last {S₁ : Scope} (hS : S₁.Le T S) {p : Proc n} {Q₁ : n.sig.Post}
    (hp : Correct T S₁ (n.body p) σ Q₁)
    (hk : ∀ r s τ, Q₁ r s τ → (∀ x ∈ S.rel T, x ∉ S₁.mod T → s x = σ x) → Q r s τ) :
    Correct T S (Prog.invoke (S := n.sig) p) σ Q :=
  tail ((Wp.frame hp hS.rel_subset hS.mod_subset).mono fun r s τ h => hk r s τ h.1 h.2)

/-- Two tasks side by side, in scopes of their own that are apart from each
other. -/
theorem fork {S₁ S₂ : Scope} (h₁ : S₁.Le T S) (h₂ : S₂.Le T S) (h₁₂ : S₁.Apart T S₂)
    (h₂₁ : S₂.Apart T S₁) {p q : Proc n} {k : PUnit → Prog n.sig Ret} {Q₁ Q₂ : n.sig.Post}
    (hp : Correct T S₁ (n.body p) σ Q₁) (hq : Correct T S₂ (n.body q) σ Q₂)
    (hk : ∀ r r' s τ₁ τ₂ τ, Q₁ r s τ₁ → Q₂ r' s τ₂ → Shuffle τ₁ τ₂ τ →
      (∀ x ∈ S.rel T, x ∉ S₁.mod T → x ∉ S₂.mod T → s x = σ x) →
      Correct T S (k ⟨⟩) s (Q.after τ)) :
    Correct T S (Prog.fork2join (S := n.sig) p q >>= k) σ Q :=
  Wp.fork2join_bind (S := n.sig) h₁.rel_subset h₂.rel_subset h₁.mod_subset h₂.mod_subset
    h₁₂.disjoint h₂₁.disjoint hp hq hk

/-- Storing into a row of the own context. -/
theorem setRow {c : Path} {l : Nat} {f : Row → Row} {k : PUnit → Prog n.sig Ret}
    (hc : c = S.task ∨ c ∈ S.own)
    (h : Correct T S (k ⟨⟩)
      (Function.update σ (.cxts c) (Function.update (σ (.cxts c)) l (f (σ (.cxts c) l)))) Q) :
    Correct T S (n.setRow c l f >>= k) σ Q :=
  modify (x := Loc.cxts c) hc hc .none h

/-- Incrementing a start that was stored. -/
theorem incrementStart {c : Path} {l start : Nat} {k : PUnit → Prog n.sig Ret}
    (hc : c = S.task ∨ c ∈ S.own) (hstart : (σ (.cxts c) l).start = some start)
    (h : Correct T S (k ⟨⟩) (Function.update σ (.cxts c) (Function.update (σ (.cxts c)) l
      { σ (.cxts c) l with start := some (wadd start 1) })) Q) :
    Correct T S (n.incrementStart c l >>= k) σ Q := by
  simp only [Nest.incrementStart, bind_bind]
  exact read (x := Loc.cxts c) hc .none (load hstart (setRow hc h))

/-- A poll is recorded and answered. -/
theorem heartbeatPolling {g : Activation} {k : Nat → Prog n.sig Ret}
    (h : ∀ s heartbeat, Correct T S (k heartbeat) σ (Q.after [(Event.polled g, s)])) :
    Correct T S (n.heartbeatPolling g >>= k) σ Q := by
  rw [Nest.heartbeatPolling, bind_bind]
  exact log fun _ s _ => ⟨trivial, answer (h s)⟩

end Correct

/-- After a reset the task memory is as a task that starts at `level` expects
it. -/
theorem taskMemoryReset_bind {n : Nest} {T : Tracked} {rel mod : Set Loc} {σ : n.sig.Store}
    {Q : n.sig.Post} {t : Path} {level : Nat} {k : PUnit → Prog n.sig Ret}
    (hrel : Loc.tmem t ∈ rel) (hmod : Loc.tmem t ∈ mod)
    (h : ∀ tm : TaskMemory, tm.startingLevel = level → ChunkReady n tm →
      CorrectIn T rel mod (k ⟨⟩) (Function.update σ (.tmem t) tm) Q) :
    CorrectIn T rel mod (n.taskMemoryReset t level >>= k) σ Q := by
  refine Wp.modify_bind (S := n.sig) hrel hmod Held.none.live (h _ ?_ ?_)
  · cases n.chunk <;> rfl
  · intro hchunk
    obtain ⟨c, hc⟩ := Option.isSome_iff_exists.mp hchunk
    obtain ⟨h₁, h₂⟩ := n.chunk_bounds c hc
    rw [hc]
    exact ⟨h₁, le_refl c, h₂⟩

end HeartbeatCompiler
