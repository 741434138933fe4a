import HeartbeatCompiler.Execution
import HeartbeatCompiler.ForkJoin.Calls
import HeartbeatCompiler.LeftoverTable

/-!
# `HeartbeatCompiler.Tables`: calls through the generated tables

The handler does not name the tasks it runs: it is passed the arrays `sliceTasks` and
`leftoverTasks` and the function `leftover_task_index_selector`, and picks an entry by level.
`Nest.body` calls the tasks directly. Here the two arrays and the selector are built as the
pass builds them (`LeveledNest.tables`), and `Nest.tableBody` is the program that goes through
them. A lookup that finds nothing is a fault.

`WellLeveled` says which levels a procedure may be called with, and every call keeps to it, so
each lookup finds the task of the level (`table_calls_agree`).
-/

set_option autoImplicit false

namespace HeartbeatCompiler

open ForkJoin Prog

variable {L : Type}

/-! ### The tables -/

/-- What the root function passes to the handler: the slices by level, the
leftover tasks, and the selector of their index. A nest with one level has no
leftover tasks, and null pointers in their place. -/
structure TaskTables (L : Type) where
  sliceTasks : List L
  leftoverTasks : Option (List (LeftoverTask L))
  leftoverTaskIndexSelector : Option (Nat → Nat → Option Nat)

namespace LeveledNest

variable (N : LeveledNest L)

/-- `createSliceTasks`: the loop of each level, from the root down. It fails
if a level has none. -/
def createSliceTasks : Option (List L) := (List.range N.numLevels).mapM N.levelToLoop

/-- The tables at the end of the pass. The selector is run with as much fuel
as it has blocks. -/
def tables (fuel : Nat) : Option (TaskTables L) := do
  let sliceTasks ← N.createSliceTasks
  if 1 < N.numLevels then
    let leftoverTasks ← N.leftoverTasks fuel
    let selector := HeartbeatCompiler.leftoverTaskIndexSelector N.leftoverTasksPairs
    return ⟨sliceTasks, some leftoverTasks, some fun r s =>
      selector.run r s (N.leftoverTasksPairs.length + 3) .entry .entry⟩
  else return ⟨sliceTasks, none, none⟩

end LeveledNest

/-- `leftover_tasks[leftover_selector(receivingLevel, splittingLevel)]`. A
null pointer, a selector that does not return and an index that is out of
range all give nothing. -/
def TaskTables.leftoverTask (t : TaskTables L) (receivingLevel splittingLevel : Nat) :
    Option (LeftoverTask L) := do
  let selector ← t.leftoverTaskIndexSelector
  let leftoverTasks ← t.leftoverTasks
  let i ← selector receivingLevel splittingLevel
  leftoverTasks[i]?

/-! ### The program that goes through them -/

namespace Nest

variable (n : Nest) (loopToLevel : L → Nat) (t : TaskTables L)

/-- The fork of a split. The leftover task is selected before the fork and is
run in it. At the level of the leaf there is none, and the first task starts
at the next iteration. -/
def tableForkTasks (f : Frame) (s : Nat) : Prog n.sig PUnit :=
  if s = f.level then do
    n.incrementStart f.cxts f.level
    fork2join (S := n.sig) (.firstTask f) (.secondTask f s)
  else do
    let _ ← Prog.load (t.leftoverTask f.level s)
    fork2join (S := n.sig) (.leftoverTask f s) (.secondTask f s)

/-- `promotion_handler` with the fork above. All else is as in the program
without tables. -/
def tablePromotionHandler : Frame → List Nat → Prog n.sig Ret :=
  n.promotionHandlerWith (n.tableForkTasks t)

/-- `slice_tasks[level]`, called with the arguments in `f`. The slice that is
called has the level of the loop found there, whatever the index is. -/
def tableSlice (f : Frame) (level : Nat) : Prog n.sig Ret := do
  let loop ← Prog.load t.sliceTasks[level]?
  invoke (S := n.sig) (.slice { f with level := loopToLevel loop })

/-- `slice_tasks[receivingLevel]` of the first task, from the table, after the
reset of its task memory. -/
def tableFirstTask (f : Frame) : Prog n.sig Ret := do
  n.taskMemoryReset f.tmem f.level
  n.tableSlice loopToLevel t (firstFrame f) f.level

/-- `slice_tasks[splittingLevel]` of the second task, from the table, after
the reset of its task memory. -/
def tableSecondTask (f : Frame) (s : Nat) : Prog n.sig Ret := do
  n.taskMemoryReset (secondFrame f s).tmem s
  n.tableSlice loopToLevel t (secondFrame f s) s

/-- The leftover task that the selector returns, from its first block on,
which is the block that its entry branches to. -/
def tableLeftoverTask (f : Frame) (s : Nat) : Prog n.sig Ret := do
  n.taskMemoryReset f.tmem s
  let task ← Prog.load (t.leftoverTask f.level s)
  invoke (S := n.sig) (.leftoverBlock f s task.entry)

/-- The block of `level` in the leftover task that was selected, as the
generator has built it. -/
def tableLeftoverBlock (f : Frame) (s level : Nat) : Prog n.sig Ret := do
  let task ← Prog.load (t.leftoverTask f.level s)
  let b ← Prog.load (task.blocks.lookup level)
  b.prog loopToLevel n f s

/-- The generated program with its tables. Only the procedures that call
through a table differ from those of `body`. -/
def tableBody : n.sig.Proc → Prog n.sig n.sig.Res
  | .promotionHandler f v => n.tablePromotionHandler t f v
  | .firstTask f => n.tableFirstTask loopToLevel t f
  | .leftoverTask f s => n.tableLeftoverTask t f s
  | .leftoverBlock f s level => n.tableLeftoverBlock loopToLevel t f s level
  | .secondTask f s => n.tableSecondTask loopToLevel t f s
  | p => n.body p

end Nest

/-! ### The levels that procedures are called with -/

/-- The levels with which a procedure may be called. The program keeps to
them, so no table is read out of range. -/
def Proc.WellLeveled (n : Nest) : Proc n → Prop
  | .original => True
  | .slice f => f.level ≤ n.leafLevel
  | .nestLoop g _ _ => g.level < n.leafLevel
  | .leafLoop g _ _ => g.level = n.leafLevel
  | .chunkedLoop g _ _ => g.level = n.leafLevel
  | .chunkLoop g _ _ _ _ _ => g.level = n.leafLevel
  | .loopExit _ _ _ => True
  | .promotionHandler f _ => f.level = n.leafLevel
  | .firstTask f => f.level = n.leafLevel
  | .leftoverTask f s => f.level = n.leafLevel ∧ s < f.level
  | .leftoverBlock f s level => f.level = n.leafLevel ∧ s < f.level ∧ s ≤ level ∧ level ≤ f.level
  | .secondTask f s => f.level = n.leafLevel ∧ s ≤ f.level

namespace Nest

variable {n : Nest} {P : Proc n → Prop}

/-! The parts of a task that call nothing. -/

/-- Allocating the slots of a level calls nothing. -/
theorem allocateSlots_calls (l : Nat) (q : Block) (size : Nat) :
    (n.allocateSlots l q size).Calls P := by
  induction size with
  | zero => exact .pure _
  | succ size ih => exact ih.bind fun _ => fun _ => trivial

/-- Allocating the array of pointers calls nothing. -/
theorem allocatePointers_calls (l : Nat) (q : Block) : (n.allocatePointers l q).Calls P := by
  unfold allocatePointers
  split
  · exact .pure _
  · exact fun _ => trivial

/-- Allocating the live-out environment calls nothing. -/
theorem allocateLiveOuts_calls (c : Path) (l : Nat) (q : Block) (size : Nat) :
    (n.allocateLiveOuts c l q size).Calls P := by
  unfold allocateLiveOuts
  split
  · exact .pure _
  · exact (allocateSlots_calls l q size).bind fun _ =>
      (allocatePointers_calls l q).bind fun _ _ => trivial

/-- Loading the live-ins calls nothing. -/
theorem loadLiveIns_calls (f : Frame) (rows : Nat → Row) : (n.loadLiveIns f rows).Calls P := by
  unfold loadLiveIns
  split
  · refine .load fun q _ => .log (.read fun entries => .log ?_)
    split
    · exact .pure _
    · cases entries <;> trivial
  · exact .pure _

/-- Loading the live-outs calls nothing. -/
theorem loadLiveOuts_calls (f : Frame) (rows : Nat → Row) :
    (n.loadLiveOuts f rows).Calls P := by
  unfold loadLiveOuts
  split
  · exact .pure _
  · refine .load fun p _ => .log ?_
    cases p with
    | array q => exact .pure q
    | env q => exact .read fun q' => by cases q' <;> trivial

/-- Allocating for the callee calls nothing. -/
theorem allocateCallee_calls (f : Frame) : (n.allocateCallee f).Calls P := by
  unfold allocateCallee
  split
  · exact .pure _
  · exact fun _ _ => allocateLiveOuts_calls f.cxts (f.level + 1) (.callee f.path) 1

/-- Reading the result of the nested loop calls nothing. -/
theorem readNestedResult_calls (g : Activation) (v : List Nat) :
    (n.readNestedResult g v).Calls P := by
  unfold readNestedResult
  split
  · exact .pure _
  · exact fun _ => trivial

/-- Merging the slots of the kids calls nothing. -/
theorem reduceKids_calls (g : Activation) (rc : Int) (acc : n.Values g.level) :
    (n.reduceKids g rc acc).Calls P := by
  unfold reduceKids
  split
  · exact .pure _
  · intro first
    show Prog.Calls (S := n.sig) P (if 1 < rc then _ else _)
    split
    · exact .pure _
    · exact fun _ => trivial

/-- Merging at the exit calls nothing. -/
theorem reduceLiveOuts_calls (g : Activation) (rc : Int) (acc : n.Values g.level) :
    (n.reduceLiveOuts g rc acc).Calls P := by
  unfold reduceLiveOuts
  split
  · exact .pure _
  · exact (reduceKids_calls g rc acc).bind fun _ _ _ => trivial

/-- Merging in the root function calls nothing. -/
theorem reduceRoot_calls : (n.reduceRoot).Calls P := by
  unfold reduceRoot
  split
  · exact .pure _
  · exact fun _ => trivial

/-- Allocating the live-in environment of the root calls nothing. -/
theorem allocateRootLiveIns_calls : (n.allocateRootLiveIns).Calls P := by
  unfold allocateRootLiveIns
  split
  · exact fun _ _ => trivial
  · exact .pure _

/-- Starting after the current iteration calls nothing. -/
theorem incrementStart_calls (c : Path) (l : Nat) : (n.incrementStart c l).Calls P :=
  .read fun _ => .load fun _ _ _ => trivial

/-- The splitting level is one of the levels that are tried. -/
theorem splittingLevel_le {rows : Nat → Row} {fuel level s : Nat}
    (h : splittingLevel rows fuel level = some (some s)) : level ≤ s ∧ s < level + fuel := by
  induction fuel generalizing level with
  | zero => cases h
  | succ fuel ih =>
      unfold splittingLevel at h
      split at h
      · split at h
        · cases h
          omega
        · have := ih h
          omega
      · cases h

/-- The loop that a slice runs is called with the level of the slice. -/
theorem loop_wellLeveled {g : Activation} (h : g.level ≤ n.leafLevel) (i : Nat)
    (acc : n.Values g.level) : (n.loop g i acc).WellLeveled n := by
  unfold loop
  split
  · split <;> assumption
  · show g.level < n.leafLevel
    omega

/-- The handler is called by leaf activations. -/
theorem loopHandler_calls {g : Activation} (h : g.level = n.leafLevel) (i : Nat) :
    (n.loopHandler g i).Calls (Proc.WellLeveled n) :=
  fun _ => ⟨h, fun _ => trivial⟩

/-- Every procedure calls others with the levels they may be called with. So
all calls of a run are, as the first one is. -/
theorem body_calls (p : Proc n) (hp : p.WellLeveled n) :
    (n.body p).Calls (Proc.WellLeveled n) := by
  -- procedure by procedure; only the calls matter, since the levels are those of the frame
  cases p with
  | original =>
      refine fun _ _ _ => allocateRootLiveIns_calls.bind fun _ =>
        (allocateLiveOuts_calls [] 0 .original 1).bind fun _ _ => ⟨Nat.zero_le _, fun r => ?_⟩
      exact reduceRoot_calls.bind fun _ => .pure r
  | slice f =>
      refine fun _ => .read fun rows => .load fun startIter _ => .load fun maxIter _ => ?_
      refine (loadLiveIns_calls f rows).bind fun outer => (loadLiveOuts_calls f rows).bind fun q =>
        (allocateLiveOuts_calls f.cxts f.level (.kids f.path) 2).bind fun _ =>
        (allocateCallee_calls f).bind fun _ => .invoke
          (loop_wellLeveled (g := ⟨f, rows, outer, maxIter, q⟩) hp startIter _)
  | nestLoop g i acc =>
      have hg : g.level < n.leafLevel := hp
      show Prog.Calls (S := n.sig) _ (n.nestLoop g i acc)
      unfold nestLoop
      split
      · refine fun _ _ _ _ => ⟨show g.level + 1 ≤ n.leafLevel from hg, fun r => ?_⟩
        refine (readNestedResult_calls g _).bind fun _ => ?_
        show Prog.Calls (S := n.sig) _ (if 0 < r.rc then _ else _)
        split
        · exact .invoke trivial
        · exact .invoke hg
      · exact .invoke trivial
  | leafLoop g i acc =>
      show Prog.Calls (S := n.sig) _ (n.leafLoop g i acc)
      unfold leafLoop
      split
      · refine fun heartbeat => ?_
        show Prog.Calls (S := n.sig) _ (if heartbeat = 0 then _ else _)
        split
        · exact .invoke hp
        · refine (loopHandler_calls hp i).bind fun r => ?_
          split
          · exact .invoke trivial
          · exact .invoke hp
      · exact .invoke trivial
  | chunkedLoop g i acc =>
      show Prog.Calls (S := n.sig) _ (n.chunkedLoop g i acc)
      unfold chunkedLoop
      split
      · exact .read fun tm => .invoke hp
      · exact .invoke trivial
  | chunkLoop g i chunksize high low acc =>
      show Prog.Calls (S := n.sig) _ (n.chunkLoop g i chunksize high low acc)
      unfold chunkLoop
      split
      · exact .log (.invoke hp)
      · refine fun _ => ?_
        show Prog.Calls (S := n.sig) _ (if decide _ = true then _ else _)
        split
        · exact .invoke trivial
        · refine fun heartbeat => ?_
          show Prog.Calls (S := n.sig) _ (if heartbeat = 0 then _ else _)
          split
          · exact .invoke hp
          · refine (loopHandler_calls hp _).bind fun r => ?_
            split
            · exact .invoke trivial
            · exact .invoke hp
  | loopExit g r acc => exact (reduceLiveOuts_calls g r.rc acc).bind fun _ _ => trivial
  | promotionHandler f v =>
      have hf : f.level = n.leafLevel := hp
      refine fun tm => .read fun rows => .load fun split hsplit => ?_
      cases split with
      | none => trivial
      | some s =>
          have hs : s ≤ f.level := by
            have := splittingLevel_le hsplit
            omega
          refine .load fun low _ => .load fun high _ => fun _ _ _ => ?_
          show Prog.Calls (S := n.sig) _ (n.forkTasks f s >>= fun _ => _)
          refine Calls.bind ?_ fun _ => .pure _
          unfold forkTasks
          split
          · exact (incrementStart_calls f.cxts f.level).bind fun _ =>
              .fork2join hf ⟨hf, by omega⟩
          · exact .fork2join ⟨hf, by omega⟩ ⟨hf, by omega⟩
  | firstTask f => exact fun _ => .invoke (show f.level ≤ n.leafLevel from hp.le)
  | leftoverTask f s => exact fun _ => .invoke ⟨hp.1, hp.2, hp.2.le, le_refl _⟩
  | leftoverBlock f s level =>
      obtain ⟨hf, hs, hle, hlevel⟩ := hp
      refine (incrementStart_calls f.cxts level).bind fun _ =>
        ⟨show level ≤ n.leafLevel by omega, fun r => ?_⟩
      show Prog.Calls (S := n.sig) _ (if level = s then _ else _)
      split
      · exact .pure r
      · split
        · exact .pure r
        · exact .invoke ⟨hf, hs, by omega, by omega⟩
  | secondTask f s =>
      obtain ⟨hf, hs⟩ := hp
      exact fun _ => .invoke (show s ≤ n.leafLevel by omega)

end Nest

/-! ### What the lookups find -/

/-- The tables hold the tasks that the program without them calls:

- `slice`: for each level the loop of this level;
- `leftover`: for each pair of levels the task between them, with a block for
  each level on the way. -/
structure TaskTables.Agrees (t : TaskTables L) (N : LeveledNest L) : Prop where
  slice : ∀ l, l < N.numLevels → ∃ loop, t.sliceTasks[l]? = some loop ∧ N.loopToLevel loop = l
  leftover : ∀ r s, s < r → r < N.numLevels → ∃ task, t.leftoverTask r s = some task ∧
    task.entry = r ∧ ∀ l, s ≤ l → l ≤ r → ∃ b, task.blocks.lookup l = some b ∧ N.IsBlock s l b

namespace LeveledNest

variable (N : LeveledNest L)

/-- `sliceTasks` has the loop of level `l` at index `l`. -/
theorem createSliceTasks_eq : ∃ loops, N.createSliceTasks = some loops ∧
    ∀ l, l < N.numLevels → ∃ loop, loops[l]? = some loop ∧ N.loopToLevel loop = l := by
  obtain ⟨loops, hloops, -⟩ := Partial.mapM_eq_some (f := N.levelToLoop)
    fun l (hl : l ∈ List.range N.numLevels) =>
      (N.inverse l (List.mem_range.mp hl)).imp fun _ h => h.1
  refine ⟨loops, hloops, fun l hl => ?_⟩
  obtain ⟨loop, hget, hloop⟩ := Partial.getElem?_of_mapM hloops (List.getElem?_range hl)
  obtain ⟨loop', hloop', hlevel⟩ := N.inverse l hl
  obtain rfl := Option.some.inj (hloop.symm.trans hloop')
  exact ⟨loop, hget, hlevel⟩

/-- The selector and the array of leftover tasks agree. -/
theorem leftoverTask_eq {fuel r s : Nat} (hfuel : N.numLevels < fuel)
    {tasks : List (LeftoverTask L)} (htasks : N.leftoverTasks fuel = some tasks) (hs : s < r)
    (hr : r < N.numLevels) : ∃ i task,
      (leftoverTaskIndexSelector N.leftoverTasksPairs).run r s
        (N.leftoverTasksPairs.length + 3) .entry .entry = some i ∧ tasks[i]? = some task ∧
      task.entry = r ∧
      ∀ l, s ≤ l → l ≤ r → ∃ b, task.blocks.lookup l = some b ∧ N.IsBlock s l b := by
  obtain ⟨i, hi⟩ := List.mem_iff_getElem?.mp (N.mem_leftoverTasksPairs.mpr ⟨hs, hr⟩)
  obtain ⟨task, hget, hcreated⟩ := Partial.getElem?_of_mapM htasks hi
  obtain ⟨task', htask', _, hentry, hblocks⟩ := N.createLeftoverTask_eq hfuel hs hr
  obtain rfl := Option.some.inj (hcreated.symm.trans htask')
  exact ⟨i, task, selector_run N.leftoverTasksPairs_nodup hi, hget, hentry, hblocks⟩

/-- The tables are built, and they agree with the nest. -/
theorem tables_eq {fuel : Nat} (hfuel : N.numLevels < fuel) :
    ∃ t, N.tables fuel = some t ∧ t.Agrees N := by
  obtain ⟨loops, hloops, hslice⟩ := N.createSliceTasks_eq
  obtain ⟨tasks, htasks, -⟩ := N.leftoverTasks_eq hfuel
  unfold tables
  rw [hloops]
  by_cases hmany : 1 < N.numLevels
  · rw [htasks]
    simp only [Option.bind_eq_bind, Option.bind_some, if_pos hmany]
    refine ⟨_, rfl, hslice, fun r s hs hr => ?_⟩
    obtain ⟨i, task, hi, hget, hrest⟩ := N.leftoverTask_eq hfuel htasks hs hr
    refine ⟨task, ?_, hrest⟩
    unfold TaskTables.leftoverTask
    simp only [Option.bind_eq_bind, Option.bind_some, hi]
    exact hget
  · simp only [Option.bind_eq_bind, Option.bind_some, if_neg hmany]
    exact ⟨_, rfl, hslice, fun r s hs hr => absurd hr (by omega)⟩

end LeveledNest

/-- What follows a load may be changed where the value is. -/
theorem load_congr {S : Sig} {α β : Type} {o : Option α} {k k' : α → Prog S β}
    (h : ∀ a, o = some a → k a = k' a) : (Prog.load o >>= k) = (Prog.load o >>= k') := by
  cases o with
  | none => rfl
  | some a => exact h a rfl

namespace Nest

variable {n : Nest} {N : LeveledNest L} {t : TaskTables L}

/-- The selected leftover task exists, so the fork is that of the handler. -/
theorem tableForkTasks_eq (ht : t.Agrees N) (hlevels : N.numLevels = n.numLevels) {f : Frame}
    {s : Nat} (hf : f.level = n.leafLevel) (hs : s ≤ f.level) :
    n.tableForkTasks t f s = n.forkTasks f s := by
  unfold tableForkTasks forkTasks
  split
  · rfl
  · have hpos := n.numLevels_pos
    rw [leafLevel] at hf
    obtain ⟨task, htask, -⟩ := ht.leftover f.level s (by omega) (by omega)
    rw [htask]
    rfl

/-- The handler only forks at levels up to that of its frame. -/
theorem promotionHandlerWith_congr {fork fork' : Frame → Nat → Prog n.sig PUnit} {f : Frame}
    (h : ∀ s ≤ f.level, fork f s = fork' f s) (v : List Nat) :
    n.promotionHandlerWith fork f v = n.promotionHandlerWith fork' f v := by
  unfold promotionHandlerWith
  congr 1
  funext _
  congr 1
  funext tm
  congr 1
  funext rows
  refine load_congr fun split hsplit => ?_
  cases split with
  | none => rfl
  | some s =>
      have hs := splittingLevel_le hsplit
      simp only [splitWith, h s (by omega)]

/-- The selected leftover tasks are the ones that the handler is to fork. -/
theorem tablePromotionHandler_eq (ht : t.Agrees N) (hlevels : N.numLevels = n.numLevels)
    {f : Frame} (hf : f.level = n.leafLevel) (v : List Nat) :
    n.tablePromotionHandler t f v = n.promotionHandler f v :=
  promotionHandlerWith_congr (fun _ hs => tableForkTasks_eq ht hlevels hf hs) v

/-- The slice of a level is the one in the table. -/
theorem tableSlice_eq (ht : t.Agrees N) {f : Frame} {level : Nat} (hlevel : level < N.numLevels)
    (hf : f.level = level) :
    n.tableSlice N.loopToLevel t f level = invoke (S := n.sig) (.slice f) := by
  obtain ⟨loop, hloop, hl⟩ := ht.slice level hlevel
  unfold tableSlice
  rw [hloop, ← hf] at *
  show invoke (S := n.sig) (.slice { f with level := N.loopToLevel loop }) = _
  rw [hl]

/-- The program with the tables calls what the program without them calls,
procedure by procedure. -/
theorem tableBody_eq (ht : t.Agrees N) (hlevels : N.numLevels = n.numLevels) (p : Proc n)
    (hp : p.WellLeveled n) : n.tableBody N.loopToLevel t p = n.body p := by
  have hpos := n.numLevels_pos
  have hleaf : n.leafLevel + 1 = N.numLevels := by
    rw [leafLevel]
    omega
  -- the five procedures that look something up; each lookup finds the task of the level
  cases p with
  | promotionHandler f v => exact tablePromotionHandler_eq ht hlevels hp v
  | firstTask f =>
      have hf : f.level = n.leafLevel := hp
      show n.tableFirstTask N.loopToLevel t f = n.firstTask f
      have hslice : n.tableSlice N.loopToLevel t (firstFrame f) f.level
          = invoke (S := n.sig) (.slice (firstFrame f)) := tableSlice_eq ht (by omega) rfl
      unfold tableFirstTask firstTask
      rw [hslice]
  | secondTask f s =>
      obtain ⟨hf, hs⟩ : f.level = n.leafLevel ∧ s ≤ f.level := hp
      show n.tableSecondTask N.loopToLevel t f s = n.secondTask f s
      have hslice : n.tableSlice N.loopToLevel t (secondFrame f s) s
          = invoke (S := n.sig) (.slice (secondFrame f s)) := tableSlice_eq ht (by omega) rfl
      unfold tableSecondTask secondTask
      rw [hslice]
  | leftoverTask f s =>
      obtain ⟨hf, hs⟩ : f.level = n.leafLevel ∧ s < f.level := hp
      obtain ⟨task, htask, hentry, -⟩ := ht.leftover f.level s hs (by omega)
      show n.tableLeftoverTask t f s = n.leftoverTask f s
      unfold tableLeftoverTask leftoverTask
      rw [htask, ← hentry]
      rfl
  | leftoverBlock f s level =>
      obtain ⟨hf, hs, hle, hlevel⟩ :
        f.level = n.leafLevel ∧ s < f.level ∧ s ≤ level ∧ level ≤ f.level := hp
      obtain ⟨task, htask, -, hblocks⟩ := ht.leftover f.level s hs (by omega)
      obtain ⟨b, hlookup, hb⟩ := hblocks level hle hlevel
      have hlt := N.numLevels_lt
      show n.tableLeftoverBlock N.loopToLevel t f s level = n.leftoverBlock f s level
      unfold tableLeftoverBlock
      rw [htask]
      show (Prog.load (task.blocks.lookup level) >>= fun b => b.prog N.loopToLevel n f s) = _
      rw [hlookup]
      exact hb.prog_eq hle (by omega) n f
  | _ => rfl

end Nest

/-- For every nest and every order of its loops the pass builds the tables,
and the program that calls its tasks through them has the runs of the program
that calls them directly. No lookup fails: no run faults. -/
theorem table_calls_agree (n : Nest) (N : LeveledNest L) (hlevels : N.numLevels = n.numLevels)
    {fuel : Nat} (hfuel : N.numLevels < fuel) : ∃ t, N.tables fuel = some t ∧
      ∀ σ τ c σ', (Steps (n.tableBody N.loopToLevel t) n.start σ τ c σ' ↔ n.Run σ τ c σ') ∧
        (Steps (n.tableBody N.loopToLevel t) n.start σ τ c σ' → ¬ c.Faulty) := by
  obtain ⟨t, ht, hagrees⟩ := N.tables_eq hfuel
  have hstart : n.start.Calls (Proc.WellLeveled n) := Nest.body_calls (n := n) .original trivial
  -- on the levels that are called the bodies are equal, so the runs are
  have hruns : ∀ {σ τ c σ'},
      Steps (n.tableBody N.loopToLevel t) n.start σ τ c σ' ↔ n.Run σ τ c σ' :=
    steps_congr_body (Nest.tableBody_eq hagrees hlevels) Nest.body_calls hstart
  exact ⟨t, ht, fun σ τ c σ' => ⟨hruns, fun h => (hruns.mp h).not_faulty⟩⟩

/-- Three loops of four iterations each. -/
def cubeNest : Nest := .uniform 3 4 false (fun _ => 0) (.add 8) 0

/-- A run with a promotion that splits the outermost level, so that the
leftover task from the innermost level goes through both tables. -/
theorem table_calls_agree_cube : ∃ t, threeLoops.tables 4 = some t ∧ ∃ τ r σ',
    Steps (cubeNest.tableBody threeLoops.loopToLevel t) cubeNest.start cubeNest.blank τ
      (.run (.ret r)) σ' ∧ (promotions τ).card = 1 := by
  have hexec : (exec cubeNest.body 1000 [1] cubeNest.original cubeNest.blank).any (fun o =>
      decide ((o.2.2.2.filterMap fun e => Event.promotion e.1).length = 1)) = true := by
    decide +kernel
  obtain ⟨r, σ', answers, τ, hrun, hcheck⟩ := exec_exists hexec
  obtain ⟨t, ht, h⟩ := table_calls_agree cubeNest threeLoops rfl (show 3 < 4 by decide)
  exact ⟨t, ht, τ, r, σ', (h _ _ _ _).1.mpr hrun, of_decide_eq_true hcheck⟩

end HeartbeatCompiler
