import HeartbeatCompiler.Partial
import HeartbeatCompiler.Task
import Mathlib.Data.List.Nodup
import Mathlib.Data.List.Perm.Basic
import Mathlib.Data.List.Range

/-!
# `HeartbeatCompiler.LeftoverTable`: generation of the leftover tasks and of their selector

`createLeftoverTasks` builds one leftover task for each pair of a receiving level and a lower
splitting level, in the order in which the set of loops is enumerated, and a selector that
maps a pair to the index of its task: a chain of compare blocks whose last block is the
default. The level counters are unsigned words that count down (`levelsFrom`).

`selector_agrees` connects the two: the selector returns the index of the task for the pair,
and this task calls the slices from the receiving level down. `InvokingBlock.prog_eq` states
that the blocks are those of `Nest.leftoverBlock`.
-/

set_option autoImplicit false

namespace HeartbeatCompiler

variable {L : Type}

/-- A nest after the analysis of its levels: the loops in the order in which
the set of pointers is iterated, the level of each loop, and the loop of each
level. The order is arbitrary, since it is that of addresses; `perm` and
`inverse` are what the analysis has established, one loop for each level from
`0` on. -/
structure LeveledNest (L : Type) where
  nestID : Nat
  loops : List L
  loopToLevel : L → Nat
  levelToLoop : Nat → Option L
  numLevels : Nat
  numLevels_lt : numLevels < 2 ^ 64
  perm : (loops.map loopToLevel).Perm (List.range numLevels)
  inverse : ∀ l < numLevels, ∃ loop, levelToLoop l = some loop ∧ loopToLevel loop = l

/-! ### The leftover tasks -/

/-- The counter of the two `for` loops from `receivingLevel` down to
`splittingLevel`. The counter is unsigned, so after level `0` it wraps around
to the largest word: the condition therefore tests both ends, and a descent to
the root ends by `level ≤ receivingLevel`. The fuel bounds the number of
turns. -/
def levelsFrom (receivingLevel splittingLevel : Nat) : (fuel level : Nat) → Option (List Nat)
  | 0, _ => none
  | fuel + 1, level =>
      if splittingLevel ≤ level ∧ level ≤ receivingLevel then
        (levelsFrom receivingLevel splittingLevel fuel (wsub level 1)).map (level :: ·)
      else some []

/-- The levels `r`, `r - 1`, .., `s`, which `levelsFrom` is shown to compute. -/
def descending (r s : Nat) : List Nat := (List.range' s (r + 1 - s)).reverse

/-- A block of a leftover task, `loop_level` in the generated code. It
increments `START_ITER` of the level `row` in the context, since the iteration
in progress belongs to the task that was interrupted there, and calls the
slice of the loop `callee`. The block after it is that of the level `next`, or
the exit block if there is none; it is also left for the exit block if the
slice returned a code above zero. -/
structure InvokingBlock (L : Type) where
  row : Nat
  callee : L
  next : Option Nat

/-- A leftover task: the level of the block that its entry block branches to,
and the block of each level, `levelToInvokingBlock`. -/
structure LeftoverTask (L : Type) where
  name : String
  entry : Nat
  blocks : List (Nat × InvokingBlock L)

namespace LeveledNest

variable (N : LeveledNest L)

/-- The name of the function of a leftover task, by which the module finds or
creates it. Two tasks of one name would share one function. -/
def leftoverName (receivingLevel splittingLevel : Nat) : String :=
  "HEARTBEAT_nest" ++ toString N.nestID ++ "_loop_" ++ toString receivingLevel ++ "_" ++
    toString splittingLevel ++ "_leftover"

/-- The block of `level`. The loop is looked up in `levelToLoop`, and `row` is
its level by `loopToLevel`, as the source computes it. Without a loop of the
level the assertion on its transformation fails. -/
def invokingBlock (splittingLevel level : Nat) : Option (InvokingBlock L) :=
  (N.levelToLoop level).map fun loop =>
    ⟨N.loopToLevel loop, loop, if level ≠ splittingLevel then some (wsub level 1) else none⟩

/-- The leftover task from `receivingLevel` to `splittingLevel`: first the
list of its levels, then the block of each of them. -/
def createLeftoverTask (fuel : Nat) (pair : Nat × Nat) : Option (LeftoverTask L) := do
  let levels ← levelsFrom pair.1 pair.2 fuel pair.1
  let blocks ← levels.mapM fun level => (N.invokingBlock pair.2 level).map (level, ·)
  pure ⟨N.leftoverName pair.1 pair.2, pair.1, blocks⟩

/-- `leftoverTasksPairs`: the pairs in the order in which the tasks are
created. The two loops go over the same set. The root loop receives nothing,
and only a loop of a lower level is split. -/
def leftoverTasksPairs : List (Nat × Nat) :=
  N.loops.flatMap fun receivingLoop =>
    if N.loopToLevel receivingLoop = 0 then []
    else N.loops.flatMap fun splittingLoop =>
      if N.loopToLevel receivingLoop ≤ N.loopToLevel splittingLoop then []
      else [(N.loopToLevel receivingLoop, N.loopToLevel splittingLoop)]

/-- The array `leftoverTasks`, whose entry `i` is the task of the pair `i`.
The handler calls into it by the index that the selector returns. -/
def leftoverTasks (fuel : Nat) : Option (List (LeftoverTask L)) :=
  N.leftoverTasksPairs.mapM (N.createLeftoverTask fuel)

end LeveledNest

/-! ### The selector -/

/-- The blocks of the selector: its entry, its exit, and one for each leftover
task. -/
inductive Label
  | entry
  | exit
  | index (i : Nat)
  deriving DecidableEq

/-- How a block ends. The condition of `condBr` is the `select` that compares
the two arguments with a pair; it is `none` if the branch is built before any
`select` was. -/
inductive Terminator
  | br (target : Label)
  | condBr (select : Option (Nat × Nat)) (ifTrue ifFalse : Label)

/-- The exit block. It returns the constant `0` when there is one leftover
task, and otherwise the value of `indexPHI`, which has an incoming value for
each block of a task. -/
inductive ExitBlock
  | ret (value : Nat)
  | retPHI (incoming : List (Label × Nat))

/-- The selector function: the terminator of each block that has one, and its
exit block. -/
structure Selector where
  terminator : Label → Option Terminator
  exitBlock : ExitBlock

/-- The selector under construction. `entryBlockBuilder`, `prevBuilder` and
`currentBuilder` are pointers to one builder, so what is created through any
of them is added to the block `insertPoint`. `prevSelect` is not initialised
in the source, here it is `none`. -/
structure SelectorBuilder where
  insertPoint : Label
  terminator : Label → Option Terminator
  prevSelect : Option (Nat × Nat)
  indexPHI : List (Label × Nat)

namespace SelectorBuilder

/-- End the block of the insertion point. -/
def create (b : SelectorBuilder) (t : Terminator) : SelectorBuilder :=
  { b with terminator := Function.update b.terminator b.insertPoint (some t) }

/-- Add the block of the task `i`. For the first one the branch to the exit
block, which the entry block ended with, is replaced by a branch to it; each
later one is the false branch of the comparison made in the block before. The
last block compares nothing and branches to the exit block. -/
def addCase (pairs : List (Nat × Nat)) (b : SelectorBuilder) (i : Nat) : SelectorBuilder :=
  let b := b.create (if i = 0 then .br (.index i) else .condBr b.prevSelect .exit (.index i))
  let b := { b with insertPoint := .index i }
  let b := if i + 1 ≠ pairs.length then { b with prevSelect := pairs[i]? }
    else b.create (.br .exit)
  { b with indexPHI := b.indexPHI ++ [(.index i, i)] }

/-- The builder before the first case. -/
def init : SelectorBuilder :=
  ⟨.entry, Function.update (fun _ => none) .entry (some (.br .exit)), none, []⟩

/-- The builder after the first `k` cases. -/
def built (pairs : List (Nat × Nat)) (k : Nat) : SelectorBuilder :=
  (List.range k).foldl (addCase pairs) init

end SelectorBuilder

/-- `leftoverTaskIndexSelector`, the function that gives the index of the
leftover task of a pair. With one task the entry block goes to the exit block,
which returns `0`. -/
def leftoverTaskIndexSelector (pairs : List (Nat × Nat)) : Selector :=
  if pairs.length = 1 then ⟨SelectorBuilder.init.terminator, .ret 0⟩
  else
    let b := SelectorBuilder.built pairs pairs.length
    ⟨b.terminator, .retPHI b.indexPHI⟩

namespace Selector

/-- Run the selector from the block `label` on, which was entered from the
block `pred`. A PHI without an incoming value for `pred` and a block without a
terminator give nothing. -/
def run (sel : Selector) (receivingLevel splittingLevel : Nat) :
    (fuel : Nat) → (pred label : Label) → Option Nat
  | 0, _, _ => none
  | fuel + 1, pred, label =>
      if label = .exit then
        match sel.exitBlock with
        | .ret value => some value
        | .retPHI incoming => incoming.lookup pred
      else
        match sel.terminator label with
        | some (.br target) => run sel receivingLevel splittingLevel fuel label target
        | some (.condBr (some pair) ifTrue ifFalse) =>
            run sel receivingLevel splittingLevel fuel label
              (if receivingLevel = pair.1 ∧ splittingLevel = pair.2 then ifTrue else ifFalse)
        | _ => none

end Selector

/-! ### Running a leftover task -/

/-- The memory that a leftover task works on: the entries `START_ITER` of a
context, one for each level, and all other memory, of which nothing is
assumed. -/
structure Memory (M : Type) where
  start : Nat → Nat
  rest : M

/-- `START_ITER` of the level `row` is incremented, as an unsigned word. -/
def Memory.increment {M : Type} (σ : Memory M) (row : Nat) : Memory M :=
  { σ with start := Function.update σ.start row (wadd (σ.start row) 1) }

/-- What a leftover task does, in order: it increments `START_ITER` of a row,
and it calls a slice, which returns a code. -/
inductive TaskEvent (L : Type)
  | increment (row : Nat)
  | call (callee : L) (rc : Int)

namespace LeftoverTask

variable {M : Type}

/-- Run a leftover task from the block of `level` on. The slices are a
parameter and may do anything to the memory, also to the start iterations of
other levels. The events and the memory that the last slice has left are the
result. -/
def run (task : LeftoverTask L) (slices : L → Memory M → Int × Memory M) :
    (fuel level : Nat) → Memory M → Option (List (TaskEvent L) × Memory M)
  | 0, _, _ => none
  | fuel + 1, level, σ => do
      let b ← task.blocks.lookup level
      let (rc, σ) := slices b.callee (σ.increment b.row)
      let events := [TaskEvent.increment b.row, TaskEvent.call b.callee rc]
      match b.next with
      | none => pure (events, σ)
      | some next =>
          if 0 < rc then pure (events, σ)
          else do
            let (later, σ) ← run task slices fuel next σ
            pure (events ++ later, σ)

end LeftoverTask

/-! ### The counters -/

/-- The levels below the first one. -/
theorem descending_cons {r s : Nat} (h : s < r) : descending r s = r :: descending (r - 1) s := by
  have hlen : r + 1 - s = (r - 1 + 1 - s) + 1 := by omega
  rw [descending, descending, hlen, List.range'_concat, List.reverse_append,
    List.reverse_singleton, List.singleton_append]
  congr 1
  omega

/-- The levels from `s` down to `s` are `s` alone. -/
theorem descending_self (s : Nat) : descending s s = [s] := by
  rw [descending, Nat.add_sub_cancel_left]
  rfl

/-- The levels from `r` down to `s` are those between the two, both included. -/
theorem mem_descending {r s l : Nat} : l ∈ descending r s ↔ s ≤ l ∧ l ≤ r := by
  rw [descending, List.mem_reverse, List.mem_range'_1]
  omega

/-- The counter runs through all levels and stops, also after level zero. -/
theorem levelsFrom_eq {r s : Nat} (hr : r + 1 < 2 ^ 64) (k : Nat) : ∀ {fuel level : Nat},
    level = s + k → level ≤ r → k + 1 < fuel →
      levelsFrom r s fuel level = some (descending level s) := by
  -- The induction is on the number of levels that are left.
  induction k with
  | zero =>
      intro fuel level hlevel hr' hfuel
      obtain ⟨fuel, rfl⟩ : ∃ m, fuel = m + 2 := ⟨fuel - 2, by omega⟩
      obtain rfl : level = s := hlevel
      have hstop : ¬ (level ≤ wsub level 1 ∧ wsub level 1 ≤ r) := by
        simp only [wsub]
        omega
      rw [levelsFrom, if_pos ⟨le_refl level, hr'⟩, levelsFrom, if_neg hstop, descending_self]
      rfl
  | succ k ih =>
      intro fuel level hlevel hr' hfuel
      obtain ⟨fuel, rfl⟩ : ∃ m, fuel = m + 1 := ⟨fuel - 1, by omega⟩
      have hsub : wsub level 1 = level - 1 := wsub_of_le (by omega) (by omega)
      rw [levelsFrom, if_pos ⟨by omega, hr'⟩, hsub, ih (by omega) (by omega) (by omega),
        descending_cons (r := level) (by omega)]
      rfl

/-! ### The table of tasks -/

/-- The digits of a number end at the next underscore. -/
theorem digits_append_inj {m m' : Nat} {xs ys : List Char}
    (h : Nat.toDigits 10 m ++ '_' :: xs = Nat.toDigits 10 m' ++ '_' :: ys) :
    m = m' ∧ xs = ys := by
  have htake (n : Nat) (zs : List Char) :
      (Nat.toDigits 10 n ++ '_' :: zs).takeWhile (· != '_') = Nat.toDigits 10 n := by
    rw [List.takeWhile_append_of_pos fun c hc => ?_]
    · simp
    · rw [bne_iff_ne]
      rintro rfl
      exact Nat.underscore_not_in_toDigits hc
  have hdigits : Nat.toDigits 10 m = Nat.toDigits 10 m' := by
    rw [← htake m xs, h, htake]
  refine ⟨?_, ?_⟩
  · rw [← Nat.ofDigitChars_ten_toDigits (n := m), hdigits, Nat.ofDigitChars_ten_toDigits]
  · rw [hdigits] at h
    exact (List.cons.inj (List.append_cancel_left h)).2

namespace LeveledNest

variable (N : LeveledNest L)

/-- The levels of the loops, in the order of the set. -/
def order : List Nat := N.loops.map N.loopToLevel

/-- The levels of the loops are those of the nest, each of them and no other. -/
theorem mem_order {l : Nat} : l ∈ N.order ↔ l < N.numLevels :=
  N.perm.mem_iff.trans List.mem_range

/-- No two loops have the same level. -/
theorem order_nodup : N.order.Nodup := N.perm.nodup_iff.mpr List.nodup_range

/-- The pairs depend on the levels only. -/
theorem leftoverTasksPairs_eq : N.leftoverTasksPairs = N.order.flatMap fun r =>
    if r = 0 then [] else N.order.flatMap fun s => if r ≤ s then [] else [(r, s)] := by
  simp only [leftoverTasksPairs, order, List.flatMap_map]

/-- There is a pair for each two levels. -/
theorem mem_leftoverTasksPairs {r s : Nat} :
    (r, s) ∈ N.leftoverTasksPairs ↔ s < r ∧ r < N.numLevels := by
  simp only [leftoverTasksPairs_eq, List.mem_flatMap, mem_order]
  constructor
  · rintro ⟨r', hr', h⟩
    by_cases hzero : r' = 0
    · simp [hzero] at h
    · rw [if_neg hzero, List.mem_flatMap] at h
      obtain ⟨s', _, h⟩ := h
      by_cases hle : r' ≤ s'
      · simp [hle] at h
      · rw [if_neg hle, List.mem_singleton, Prod.mk.injEq] at h
        obtain ⟨rfl, rfl⟩ := h
        exact ⟨Nat.lt_of_not_le hle, hr'⟩
  · rintro ⟨hlt, hr⟩
    refine ⟨r, hr, ?_⟩
    rw [if_neg (by omega), List.mem_flatMap]
    exact ⟨s, N.mem_order.mpr (by omega), by
      rw [if_neg (by omega)]
      exact List.mem_singleton_self _⟩

/-- No pair occurs twice. -/
theorem leftoverTasksPairs_nodup : N.leftoverTasksPairs.Nodup := by
  rw [leftoverTasksPairs_eq]
  have hrow (r : Nat) (p : Nat × Nat) : p ∈ (if r = 0 then [] else N.order.flatMap fun s =>
      if r ≤ s then [] else [(r, s)]) → p.1 = r := by
    split
    · simp
    · intro hp
      obtain ⟨s, _, hp⟩ := List.mem_flatMap.mp hp
      split at hp
      · simp at hp
      · rw [List.mem_singleton.mp hp]
  refine List.nodup_flatMap.mpr ⟨fun r _ => ?_, N.order_nodup.imp fun {r r'} hne => ?_⟩
  · split
    · exact List.nodup_nil
    · refine List.nodup_flatMap.mpr ⟨fun s _ => ?_, N.order_nodup.imp fun {s s'} hne => ?_⟩
      · split <;> simp
      · rw [Function.onFun_apply, List.disjoint_left]
        intro p hp hp'
        split at hp <;> split at hp' <;> simp_all
  · rw [Function.onFun_apply, List.disjoint_left]
    exact fun p hp hp' => hne ((hrow r p hp).symm.trans (hrow r' p hp'))

/-- The digits of the levels in a name. -/
theorem toList_leftoverName (r s : Nat) : (N.leftoverName r s).toList =
    ("HEARTBEAT_nest" ++ toString N.nestID ++ "_loop_").toList ++
      (Nat.toDigits 10 r ++ '_' :: (Nat.toDigits 10 s ++ '_' :: "leftover".toList)) := by
  have hsep : "_".toList = ['_'] := by simp
  have hend : "_leftover".toList = '_' :: "leftover".toList := by simp
  have hr : (toString r).toList = Nat.toDigits 10 r := Nat.toList_repr
  have hs : (toString s).toList = Nat.toDigits 10 s := Nat.toList_repr
  unfold leftoverName
  -- The fixed texts are not to be evaluated.
  generalize "HEARTBEAT_nest" ++ toString N.nestID ++ "_loop_" = front
  generalize "leftover".toList = back at hend ⊢
  rw [String.toList_append, String.toList_append, String.toList_append, String.toList_append,
    hsep, hend, hr, hs]
  simp only [List.append_assoc, List.cons_append, List.nil_append]

/-- Distinct pairs have distinct functions: none of them exists when it is
created. -/
theorem leftoverName_inj {r s r' s' : Nat} (h : N.leftoverName r s = N.leftoverName r' s') :
    r = r' ∧ s = s' := by
  have hchars := congrArg String.toList h
  rw [toList_leftoverName, toList_leftoverName] at hchars
  obtain ⟨hr, hrest⟩ := digits_append_inj (List.append_cancel_left hchars)
  exact ⟨hr, (digits_append_inj hrest).1⟩

end LeveledNest

/-! ### The chain of compare blocks -/

namespace SelectorBuilder

variable {pairs : List (Nat × Nat)}

/-- The blocks of the selector after the first `k` cases:

- `insertPoint`: code is added to the last of them, or to the entry block;
- `entry`: the entry block goes to the first of them;
- `compare`: each but the last compares the arguments with its own pair and
  goes to the next one, or to the exit;
- `prevSelect`: the last comparison is the one that the next case will branch
  on;
- `default`: the block of the last pair compares nothing;
- `indexPHI`: the exit block has an index for each. -/
structure Chain (pairs : List (Nat × Nat)) (k : Nat) (b : SelectorBuilder) : Prop where
  insertPoint : b.insertPoint = if k = 0 then .entry else .index (k - 1)
  entry : 0 < k → b.terminator .entry = some (.br (.index 0))
  compare : ∀ i, i + 1 < k →
    b.terminator (.index i) = some (.condBr pairs[i]? .exit (.index (i + 1)))
  prevSelect : ∀ i, i + 1 = k → k ≠ pairs.length → b.prevSelect = pairs[i]?
  default : ∀ i, i + 1 = k → k = pairs.length →
    b.terminator (.index i) = some (.br .exit)
  indexPHI : b.indexPHI = (List.range k).map fun i => (.index i, i)

/-- How the block before the case `k` ends: the entry block with a branch, the
block of a case with the comparison that it has made. -/
def link (b : SelectorBuilder) (k : Nat) : Terminator :=
  if k = 0 then .br (.index k) else .condBr b.prevSelect .exit (.index k)

/-- A case ends the block before it; the last one also ends its own block. -/
theorem addCase_terminator (b : SelectorBuilder) (k : Nat) : (b.addCase pairs k).terminator =
    if k + 1 ≠ pairs.length then Function.update b.terminator b.insertPoint (some (b.link k))
    else Function.update (Function.update b.terminator b.insertPoint (some (b.link k)))
      (.index k) (some (.br .exit)) := by
  simp only [SelectorBuilder.addCase, create, link]
  split <;> rfl

/-- The other blocks stay. -/
theorem addCase_terminator_of_ne (b : SelectorBuilder) {k : Nat} {label : Label}
    (h : label ≠ .index k) : (b.addCase pairs k).terminator label =
      Function.update b.terminator b.insertPoint (some (b.link k)) label := by
  rw [addCase_terminator]
  split
  · rfl
  · exact Function.update_of_ne h _ _

/-- The next case ends the block before it and is the new insertion point.
What `Chain` says of the earlier blocks is not changed by it. -/
theorem Chain.addCase {k : Nat} {b : SelectorBuilder} (h : Chain pairs k b)
    (hk : k < pairs.length) : Chain pairs (k + 1) (b.addCase pairs k) where
  insertPoint := by
    simp only [SelectorBuilder.addCase]
    split <;> rfl
  entry _ := by
    rw [addCase_terminator_of_ne b (by simp), h.insertPoint]
    -- The first case is linked from the entry; every later one from the compare before it.
    by_cases hzero : k = 0
    · rw [if_pos hzero, Function.update_self, link, if_pos hzero, hzero]
    · rw [if_neg hzero, Function.update_of_ne (by simp), h.entry (Nat.pos_of_ne_zero hzero)]
  compare i hi := by
    rw [addCase_terminator_of_ne b (by simp; omega), h.insertPoint, if_neg (by omega)]
    -- The compare before the new one gets its second successor only now.
    by_cases hlast : i + 1 = k
    · obtain rfl : k - 1 = i := by omega
      rw [Function.update_self, link, if_neg (by omega), h.prevSelect _ hlast (by omega), hlast]
    · rw [Function.update_of_ne (by simp; omega), h.compare i (by omega)]
  prevSelect i hi hne := by
    obtain rfl : i = k := by omega
    simp only [SelectorBuilder.addCase, if_pos hne]
  default i hi heq := by
    obtain rfl : i = k := by omega
    rw [addCase_terminator, if_neg (not_not.mpr heq), Function.update_self]
  indexPHI := by
    rw [List.range_succ, List.map_append, ← h.indexPHI]
    simp only [SelectorBuilder.addCase]
    split <;> rfl

/-- The blocks after any number of cases. -/
theorem chain_built (k : Nat) (hk : k ≤ pairs.length) : Chain pairs k (built pairs k) := by
  induction k with
  | zero =>
      exact ⟨rfl, fun h => absurd h (Nat.lt_irrefl 0), fun i hi => absurd hi (Nat.not_lt_zero _),
        fun i hi => absurd hi (Nat.succ_ne_zero i), fun i hi => absurd hi (Nat.succ_ne_zero i), rfl⟩
  | succ k ih =>
      rw [built, List.range_succ, List.foldl_append]
      exact (ih (by omega)).addCase (by omega)

end SelectorBuilder

/-! ### The index of a pair -/

section Selector

variable {pairs : List (Nat × Nat)}

/-- The value of `indexPHI` for each block. -/
theorem lookup_indexPHI {i : Nat} : ∀ {m : Nat}, i < m →
    ((List.range m).map fun i => (Label.index i, i)).lookup (.index i) = some i := by
  intro m
  induction m with
  | zero => exact fun h => absurd h (Nat.not_lt_zero i)
  | succ m ih =>
      intro h
      rw [List.range_succ, List.map_append, List.lookup_append]
      by_cases him : i < m
      · rw [ih him, Option.some_or]
      · obtain rfl : i = m := by omega
        rw [List.lookup_eq_none_iff.mpr (by simp; omega)]
        simp

/-- The selector of several tasks. -/
theorem leftoverTaskIndexSelector_eq (hone : pairs.length ≠ 1) :
    leftoverTaskIndexSelector pairs = ⟨(SelectorBuilder.built pairs pairs.length).terminator,
      .retPHI ((List.range pairs.length).map fun i => (.index i, i))⟩ := by
  rw [leftoverTaskIndexSelector, if_neg hone]
  dsimp only
  rw [(SelectorBuilder.chain_built pairs.length (le_refl pairs.length)).indexPHI]

/-- The exit block returns the index of the block before it. -/
theorem run_exit {r s fuel i : Nat} (hone : pairs.length ≠ 1) (hi : i < pairs.length) :
    (leftoverTaskIndexSelector pairs).run r s (fuel + 1) (.index i) .exit = some i := by
  rw [Selector.run, if_pos rfl, leftoverTaskIndexSelector_eq hone]
  exact lookup_indexPHI hi

/-- The block of the pair `p`, unless it is the last one. -/
theorem run_compare {r s fuel i : Nat} {pred : Label} {p : Nat × Nat}
    (hone : pairs.length ≠ 1) (hi : i + 1 < pairs.length) (hp : pairs[i]? = some p) :
    (leftoverTaskIndexSelector pairs).run r s (fuel + 1) pred (.index i) =
      (leftoverTaskIndexSelector pairs).run r s fuel (.index i)
        (if (r, s) = p then .exit else .index (i + 1)) := by
  have hterm : (leftoverTaskIndexSelector pairs).terminator (.index i) =
      some (.condBr (some p) .exit (.index (i + 1))) := by
    rw [leftoverTaskIndexSelector_eq hone, ← hp]
    exact (SelectorBuilder.chain_built pairs.length (le_refl pairs.length)).compare i hi
  rw [Selector.run, if_neg (by simp), hterm]
  simp only [Prod.ext_iff]

/-- The last block. -/
theorem run_default {r s fuel i : Nat} {pred : Label} (hone : pairs.length ≠ 1)
    (hi : i + 1 = pairs.length) :
    (leftoverTaskIndexSelector pairs).run r s (fuel + 1) pred (.index i) =
      (leftoverTaskIndexSelector pairs).run r s fuel (.index i) .exit := by
  have hterm : (leftoverTaskIndexSelector pairs).terminator (.index i) =
      some (.br .exit) := by
    rw [leftoverTaskIndexSelector_eq hone]
    exact (SelectorBuilder.chain_built pairs.length (le_refl pairs.length)).default i hi rfl
  rw [Selector.run, if_neg (by simp), hterm]

/-- From the block of an earlier pair on, the selector finds the block of the
pair. -/
theorem run_index {r s j : Nat} (hnd : pairs.Nodup) (hj : pairs[j]? = some (r, s))
    (hone : pairs.length ≠ 1) (k : Nat) : ∀ {fuel i : Nat} {pred : Label}, i + k = j →
      k + 1 < fuel →
      (leftoverTaskIndexSelector pairs).run r s fuel pred (.index i) = some j := by
  have hlt : j < pairs.length := (List.getElem?_eq_some_iff.mp hj).1
  -- The induction is on the number of pairs before it.
  induction k with
  | zero =>
      intro fuel i pred hi hfuel
      obtain ⟨fuel, rfl⟩ : ∃ m, fuel = m + 2 := ⟨fuel - 2, by omega⟩
      obtain rfl : i = j := hi
      by_cases hlast : i + 1 = pairs.length
      · rw [run_default hone hlast, run_exit hone hlt]
      · rw [run_compare hone (by omega) hj, if_pos rfl, run_exit hone hlt]
  | succ k ih =>
      intro fuel i pred hi hfuel
      obtain ⟨fuel, rfl⟩ : ∃ m, fuel = m + 1 := ⟨fuel - 1, by omega⟩
      obtain ⟨p, hget⟩ : ∃ p, pairs[i]? = some p := ⟨_, List.getElem?_eq_getElem (by omega)⟩
      have hne : (r, s) ≠ p := by
        rintro rfl
        have := (List.getElem?_inj (by omega) hnd).mp (hget.trans hj.symm)
        omega
      rw [run_compare hone (by omega) hget, if_neg hne]
      exact ih (by omega) (by omega)

/-- The selector returns the index of every pair. -/
theorem selector_run {r s j : Nat} (hnd : pairs.Nodup) (hj : pairs[j]? = some (r, s)) :
    (leftoverTaskIndexSelector pairs).run r s (pairs.length + 3) .entry .entry = some j := by
  have hlt : j < pairs.length := (List.getElem?_eq_some_iff.mp hj).1
  by_cases hone : pairs.length = 1
  · obtain rfl : j = 0 := by omega
    rw [leftoverTaskIndexSelector, if_pos hone, hone]
    rfl
  · have hterm : (leftoverTaskIndexSelector pairs).terminator .entry =
        some (.br (.index 0)) := by
      rw [leftoverTaskIndexSelector_eq hone]
      exact (SelectorBuilder.chain_built pairs.length (le_refl pairs.length)).entry (by omega)
    rw [Selector.run, if_neg (by simp), hterm]
    exact run_index hnd hj hone j (Nat.zero_add j) (by omega)

end Selector

/-! ### The tasks that are created -/

/-- A table made from its keys has an entry for each. -/
theorem lookup_of_forall₂ {β : Type} {P : Nat → β → Prop} {keys : List Nat}
    {table : List (Nat × β)} {l : Nat}
    (h : List.Forall₂ (fun key entry => entry.1 = key ∧ P key entry.2) keys table)
    (hl : l ∈ keys) : ∃ b, table.lookup l = some b ∧ P l b := by
  induction h with
  | nil => cases hl
  | @cons key entry keys table hentry _ ih =>
      obtain ⟨key', b⟩ := entry
      obtain ⟨rfl, hb⟩ := hentry
      by_cases heq : l = key'
      · subst heq
        exact ⟨b, by rw [List.lookup_cons_self], hb⟩
      · obtain ⟨b', hb', hp⟩ := ih ((List.mem_cons.mp hl).resolve_left heq)
        refine ⟨b', ?_, hp⟩
        rw [List.lookup_cons, beq_eq_false_iff_ne.mpr heq]
        exact hb'

namespace LeveledNest

variable (N : LeveledNest L)

/-- The block of the level `level` in the leftover task to `s`:

- `row`: it increments the start of its level;
- `levelToLoop`, `loopToLevel`: it calls the slice of the loop of this level;
- `next`: after it comes the block of the next level out, or the exit after
  that of `s`. -/
structure IsBlock (s level : Nat) (b : InvokingBlock L) : Prop where
  row : b.row = level
  levelToLoop : N.levelToLoop level = some b.callee
  loopToLevel : N.loopToLevel b.callee = level
  next : b.next = if level ≠ s then some (wsub level 1) else none

/-- Every task can be created, with a block for each of its levels. The
assertion on the transformation of a loop does not fail, since each level has
a loop. -/
theorem createLeftoverTask_eq {fuel r s : Nat} (hfuel : N.numLevels < fuel) (hs : s < r)
    (hr : r < N.numLevels) : ∃ task, N.createLeftoverTask fuel (r, s) = some task ∧
      task.name = N.leftoverName r s ∧ task.entry = r ∧
      ∀ l, s ≤ l → l ≤ r → ∃ b, task.blocks.lookup l = some b ∧ N.IsBlock s l b := by
  -- The source's counter is unsigned and goes down; it is compared with `s` before it is
  -- decremented and does not wrap.
  have hlevels : levelsFrom r s fuel r = some (descending r s) := by
    have := N.numLevels_lt
    exact levelsFrom_eq (by omega) (r - s) (by omega) (le_refl r) (by omega)
  have hblock : ∀ l ∈ descending r s, ∃ b, N.invokingBlock s l = some b ∧ N.IsBlock s l b := by
    intro l hl
    have hle := mem_descending.mp hl
    obtain ⟨loop, hloop, hlevel⟩ := N.inverse l (by omega)
    rw [invokingBlock, hloop]
    exact ⟨_, rfl, hlevel, hloop, hlevel, rfl⟩
  obtain ⟨blocks, hblocks, hall⟩ := Partial.mapM_eq_some
    (f := fun level => (N.invokingBlock s level).map (level, ·)) fun l hl => by
      obtain ⟨b, hb, _⟩ := hblock l hl
      exact ⟨(l, b), by rw [hb]; rfl⟩
  refine ⟨⟨N.leftoverName r s, r, blocks⟩, ?_, rfl, rfl, fun l hsl hlr => ?_⟩
  · simp only [createLeftoverTask, hlevels, hblocks, Option.bind_eq_bind, Option.bind_some]
    rfl
  · -- The blocks are stored under their levels, each of which occurs once.
    have htable : List.Forall₂ (fun key entry => entry.1 = key ∧
        N.invokingBlock s key = some entry.2) (descending r s) blocks := by
      refine hall.imp fun key entry h => ?_
      obtain ⟨b, hb, rfl⟩ := Option.map_eq_some_iff.mp h
      exact ⟨rfl, hb⟩
    obtain ⟨b, hlookup, hb⟩ := lookup_of_forall₂
      (P := fun key b => N.invokingBlock s key = some b) htable (mem_descending.mpr ⟨hsl, hlr⟩)
    obtain ⟨b', hb', hspec⟩ := hblock l (mem_descending.mpr ⟨hsl, hlr⟩)
    obtain rfl : b = b' := Option.some.inj (hb.symm.trans hb')
    exact ⟨b, hlookup, hspec⟩

/-- The array of all tasks, in the order of the pairs. -/
theorem leftoverTasks_eq {fuel : Nat} (hfuel : N.numLevels < fuel) :
    ∃ tasks, N.leftoverTasks fuel = some tasks ∧
      List.Forall₂ (fun pair task => N.createLeftoverTask fuel pair = some task)
        N.leftoverTasksPairs tasks := by
  refine Partial.mapM_eq_some fun pair hpair => ?_
  obtain ⟨hs, hr⟩ := N.mem_leftoverTasksPairs.mp hpair
  obtain ⟨task, htask, _⟩ := N.createLeftoverTask_eq hfuel hs hr
  exact ⟨task, htask⟩

/-- The names of the tasks. -/
theorem names_eq {fuel : Nat} {pairs : List (Nat × Nat)} {tasks : List (LeftoverTask L)}
    (h : List.Forall₂ (fun pair task => N.createLeftoverTask fuel pair = some task)
      pairs tasks) :
    tasks.map (·.name) = pairs.map fun pair => N.leftoverName pair.1 pair.2 := by
  induction h with
  | nil => rfl
  | @cons pair task pairs tasks hpair _ ih =>
      simp only [createLeftoverTask, Option.bind_eq_bind, Option.bind_eq_some_iff,
        Option.pure_def, Option.some.injEq] at hpair
      obtain ⟨_, _, _, _, rfl⟩ := hpair
      rw [List.map_cons, List.map_cons, ih]

/-- The tasks are functions of their own. -/
theorem leftoverTasks_names_nodup {fuel : Nat} {tasks : List (LeftoverTask L)}
    (hfuel : N.numLevels < fuel) (htasks : N.leftoverTasks fuel = some tasks) :
    (tasks.map (·.name)).Nodup := by
  obtain ⟨tasks', htasks', hall⟩ := N.leftoverTasks_eq hfuel
  obtain rfl : tasks = tasks' := Option.some.inj (htasks.symm.trans htasks')
  rw [N.names_eq hall]
  refine N.leftoverTasksPairs_nodup.map fun p q h => ?_
  exact Prod.ext_iff.mpr (N.leftoverName_inj h)

end LeveledNest

/-! ### The run of a leftover task -/

namespace LeveledNest

variable (N : LeveledNest L) {M : Type}

/-- What the calls of a leftover task do: each increments `START_ITER` of its
level first. -/
def callEvents (calls : List (L × Int)) : List (TaskEvent L) :=
  calls.flatMap fun c => [.increment (N.loopToLevel c.1), .call c.1 c.2]

/-- The calls take the memory `σ` to `σ'`. Each slice is called on the memory
that the one before it left, with `START_ITER` of its level incremented; its
code and the memory that it leaves are those that `slices` returns there. -/
def Executes (slices : L → Memory M → Int × Memory M) :
    List (L × Int) → Memory M → Memory M → Prop
  | [], σ, σ' => σ' = σ
  | (loop, rc) :: calls, σ, σ' =>
      ∃ σ₁, slices loop (σ.increment (N.loopToLevel loop)) = (rc, σ₁) ∧
        Executes slices calls σ₁ σ'

/-- The calls of a leftover task from the level `r` to the level `s`, run on
the memory `σ`:

- `executes`: each slice is called on the incremented memory of the one before
  it, and its code and the memory it leaves are those it returns there; the
  last one leaves `σ'`;
- `loops`: what is called are the slices of the loops of their levels;
- `levels`: the levels go down from `r` one by one;
- `goes_on`: only the last call may return a code above zero;
- `complete`: all levels down to `s` were called, or the last one returned
  such a code at a level above `s`. -/
structure IsDescent (slices : L → Memory M → Int × Memory M) (r s : Nat)
    (calls : List (L × Int)) (σ σ' : Memory M) : Prop where
  executes : N.Executes slices calls σ σ'
  loops : ∀ c ∈ calls, N.levelToLoop (N.loopToLevel c.1) = some c.1
  levels : calls.map (N.loopToLevel ·.1) <+: descending r s
  goes_on : ∀ c ∈ calls.dropLast, c.2 ≤ 0
  complete : calls.map (N.loopToLevel ·.1) = descending r s ∨
    ∃ c, calls.getLast? = some c ∧ s < N.loopToLevel c.1 ∧ 0 < c.2

/-- The run of one block: `START_ITER` is incremented and the slice is called.
The task ends at the splitting level and after a code above zero, and else
goes on at the next level. -/
theorem run_block {task : LeftoverTask L} {s level : Nat} {b : InvokingBlock L}
    (slices : L → Memory M → Int × Memory M) (hlookup : task.blocks.lookup level = some b)
    (hb : N.IsBlock s level b) (σ : Memory M) : ∃ rc σ',
      slices b.callee (σ.increment (N.loopToLevel b.callee)) = (rc, σ') ∧ ∀ fuel,
      task.run slices (fuel + 1) level σ =
        if level = s ∨ 0 < rc then some (N.callEvents [(b.callee, rc)], σ')
        else (task.run slices fuel (wsub level 1) σ').map fun later =>
          (N.callEvents [(b.callee, rc)] ++ later.1, later.2) := by
  have hrow : N.loopToLevel b.callee = b.row := hb.loopToLevel.trans hb.row.symm
  obtain ⟨rc, σ', hslice⟩ : ∃ rc σ', slices b.callee (σ.increment b.row) = (rc, σ') :=
    ⟨_, _, rfl⟩
  have hevents : N.callEvents [(b.callee, rc)] = [.increment b.row, .call b.callee rc] := by
    rw [← hrow]
    rfl
  refine ⟨rc, σ', hrow ▸ hslice, fun fuel => ?_⟩
  rw [hevents, LeftoverTask.run, hlookup]
  simp only [Option.bind_eq_bind, Option.bind_some, hslice, hb.next]
  -- The block of the splitting level has no successor; every other one branches on the code.
  by_cases hlast : level = s
  · rw [if_neg (not_not.mpr hlast), if_pos (.inl hlast)]
    rfl
  · rw [if_pos hlast]
    by_cases hrc : 0 < rc
    · rw [if_pos (.inr hrc)]
      exact if_pos hrc
    · rw [if_neg (by simp [hlast, hrc])]
      dsimp only
      rw [if_neg hrc]
      cases task.run slices fuel (wsub level 1) σ' <;> rfl

/-- A descent of one call, which is the last one: the splitting level is
reached, or the code is above zero. -/
theorem isDescent_single {slices : L → Memory M → Int × Memory M} {level s : Nat}
    {b : InvokingBlock L} {rc : Int} {σ σ' : Memory M} (hb : N.IsBlock s level b)
    (hslice : slices b.callee (σ.increment (N.loopToLevel b.callee)) = (rc, σ'))
    (hlast : level = s ∨ s < level ∧ 0 < rc) :
    N.IsDescent slices level s [(b.callee, rc)] σ σ' where
  executes := ⟨σ', hslice, rfl⟩
  loops := by simpa [hb.loopToLevel] using hb.levelToLoop
  levels := by
    rcases hlast with rfl | ⟨hlt, -⟩
    · simp [descending_self, hb.loopToLevel]
    · simp [descending_cons hlt, hb.loopToLevel]
  goes_on := by simp
  complete := by
    rcases hlast with rfl | ⟨hlt, hrc⟩
    · exact .inl (by rw [descending_self, List.map_singleton, hb.loopToLevel])
    · exact .inr ⟨(b.callee, rc), rfl, by rwa [hb.loopToLevel], hrc⟩

/-- A call with a code that is not positive, before a descent from the level
below. -/
theorem IsDescent.cons {slices : L → Memory M → Int × Memory M} {level s : Nat}
    {b : InvokingBlock L} {rc : Int} {calls : List (L × Int)} {σ σ₁ σ' : Memory M}
    (h : N.IsDescent slices (level - 1) s calls σ₁ σ') (hb : N.IsBlock s level b)
    (hslice : slices b.callee (σ.increment (N.loopToLevel b.callee)) = (rc, σ₁))
    (hlt : s < level) (hrc : ¬ 0 < rc) (hne : calls ≠ []) :
    N.IsDescent slices level s ((b.callee, rc) :: calls) σ σ' where
  executes := ⟨σ₁, hslice, h.executes⟩
  loops := List.forall_mem_cons.mpr ⟨by simpa [hb.loopToLevel] using hb.levelToLoop, h.loops⟩
  levels := by
    rw [descending_cons hlt, List.map_cons, hb.loopToLevel, List.prefix_cons_inj]
    exact h.levels
  goes_on := by
    rw [List.dropLast_cons_of_ne_nil hne]
    exact List.forall_mem_cons.mpr ⟨show rc ≤ 0 by omega, h.goes_on⟩
  complete := by
    rcases h.complete with h | ⟨c, hc, hlast⟩
    · exact .inl (by rw [descending_cons hlt, List.map_cons, hb.loopToLevel, h])
    · exact .inr ⟨c, by rw [List.getLast?_cons, hc]; rfl, hlast⟩

/-- A leftover task from the block of a level on. The induction is on the
number of levels that are left; a code above zero ends it before the splitting
level. -/
theorem run_descent {task : LeftoverTask L} {r s : Nat}
    (slices : L → Memory M → Int × Memory M)
    (hblocks : ∀ l, s ≤ l → l ≤ r → ∃ b, task.blocks.lookup l = some b ∧ N.IsBlock s l b)
    (hr : r < 2 ^ 64) (k : Nat) : ∀ {fuel level : Nat} (σ : Memory M), level = s + k →
      level ≤ r → k < fuel → ∃ calls σ', calls ≠ [] ∧
        task.run slices fuel level σ = some (N.callEvents calls, σ') ∧
        N.IsDescent slices level s calls σ σ' := by
  induction k with
  | zero =>
      intro fuel level σ hlevel hle hfuel
      obtain ⟨fuel, rfl⟩ : ∃ m, fuel = m + 1 := ⟨fuel - 1, by omega⟩
      -- The splitting level: one call, and the task returns.
      obtain rfl : level = s := hlevel
      obtain ⟨b, hlookup, hb⟩ := hblocks level (le_refl level) hle
      obtain ⟨rc, σ', hslice, hrun⟩ := N.run_block slices hlookup hb σ
      exact ⟨[(b.callee, rc)], σ', by simp, by rw [hrun, if_pos (.inl rfl)],
        N.isDescent_single hb hslice (.inl rfl)⟩
  | succ k ih =>
      intro fuel level σ hlevel hle hfuel
      obtain ⟨fuel, rfl⟩ : ∃ m, fuel = m + 1 := ⟨fuel - 1, by omega⟩
      obtain ⟨b, hlookup, hb⟩ := hblocks level (by omega) hle
      obtain ⟨rc, σ', hslice, hrun⟩ := N.run_block slices hlookup hb σ
      have hlt : s < level := by omega
      -- A code above zero ends the task here, with the levels below it not run.
      by_cases hrc : 0 < rc
      · exact ⟨[(b.callee, rc)], σ', by simp, by rw [hrun, if_pos (.inr hrc)],
          N.isDescent_single hb hslice (.inr ⟨hlt, hrc⟩)⟩
      · -- Otherwise the next level runs on the memory that this call has left.
        have hsub : wsub level 1 = level - 1 := wsub_of_le (by omega) (by omega)
        obtain ⟨calls, σ'', hne, hcalls, hdescent⟩ := ih σ'
          (show level - 1 = s + k by omega) (by omega) (show k < fuel by omega)
        refine ⟨(b.callee, rc) :: calls, σ'', by simp, ?_,
          hdescent.cons N hb hslice hlt hrc hne⟩
        rw [hrun, if_neg (by omega), hsub, hcalls]
        rfl

end LeveledNest

/-- The program of a block in the generated code of the nest `n`. -/
def InvokingBlock.prog (b : InvokingBlock L) (loopToLevel : L → Nat) (n : Nest) (f : Frame)
    (s : Nat) : ForkJoin.Prog n.sig Ret := do
  n.incrementStart f.cxts b.row
  let r ← ForkJoin.Prog.invoke (S := n.sig)
    (.slice (Nest.leftoverFrame f s (loopToLevel b.callee)))
  match b.next with
  | none => pure r
  | some next =>
      if 0 < r.rc then pure r else ForkJoin.Prog.invoke (S := n.sig) (.leftoverBlock f s next)

/-- The blocks that are created are those of the model of the generated code. -/
theorem LeveledNest.IsBlock.prog_eq {N : LeveledNest L} {s level : Nat} {b : InvokingBlock L}
    (h : N.IsBlock s level b) (hs : s ≤ level) (hlevel : level < 2 ^ 64) (n : Nest) (f : Frame) :
    b.prog N.loopToLevel n f s = n.leftoverBlock f s level := by
  rw [InvokingBlock.prog, h.row, h.loopToLevel, h.next, Nest.leftoverBlock]
  by_cases hlast : level = s
  · simp only [hlast, ne_eq, not_true_eq_false, if_false, if_true]
  · have hsub : wsub level 1 = level - 1 := wsub_of_le (by omega) hlevel
    simp only [hlast, ne_eq, not_false_eq_true, if_true, if_false, hsub]

/-- For every nest and every order of its loops, the selector returns for each
two levels the index of the leftover task between them. On every memory and
whatever the slices do, this task increments `START_ITER` and calls the slice
of each level from the upper one down, and ends with the memory that these
calls leave. -/
theorem selector_agrees (N : LeveledNest L) {fuel : Nat} (hfuel : N.numLevels < fuel) :
    ∃ tasks, N.leftoverTasks fuel = some tasks ∧ (tasks.map (·.name)).Nodup ∧
      ∀ r s, s < r → r < N.numLevels → ∃ i task,
        (leftoverTaskIndexSelector N.leftoverTasksPairs).run r s
          (N.leftoverTasksPairs.length + 3) .entry .entry = some i ∧
        tasks[i]? = some task ∧ N.createLeftoverTask fuel (r, s) = some task ∧
        ∀ {M : Type} (slices : L → Memory M → Int × Memory M) (σ : Memory M), ∃ calls σ',
          calls ≠ [] ∧ task.run slices fuel task.entry σ = some (N.callEvents calls, σ') ∧
          N.IsDescent slices r s calls σ σ' := by
  obtain ⟨tasks, htasks, hall⟩ := N.leftoverTasks_eq hfuel
  refine ⟨tasks, htasks, N.leftoverTasks_names_nodup hfuel htasks, fun r s hs hr => ?_⟩
  obtain ⟨i, hi⟩ := List.mem_iff_getElem?.mp (N.mem_leftoverTasksPairs.mpr ⟨hs, hr⟩)
  obtain ⟨task, htask, _, hentry, hblocks⟩ := N.createLeftoverTask_eq hfuel hs hr
  refine ⟨i, task, selector_run N.leftoverTasksPairs_nodup hi, ?_, htask, fun slices σ => ?_⟩
  · obtain ⟨hlen, hget⟩ := List.getElem?_eq_some_iff.mp hi
    have hlen' : i < tasks.length := hall.length_eq ▸ hlen
    -- The tasks are created pair by pair, so that the index of the pair is the index of its
    -- task.
    have hcreated := hall.get hlen hlen'
    rw [List.get_eq_getElem, List.get_eq_getElem, hget, htask] at hcreated
    rw [List.getElem?_eq_getElem hlen', hcreated]
  · have := N.numLevels_lt
    rw [hentry]
    exact N.run_descent slices hblocks (by omega) (r - s) σ (by omega) (le_refl r) (by omega)

/-- Three loops, of which the set enumerates the innermost first. -/
def threeLoops : LeveledNest (Fin 3) where
  nestID := 0
  loops := [2, 0, 1]
  loopToLevel := Fin.val
  levelToLoop l := if h : l < 3 then some ⟨l, h⟩ else none
  numLevels := 3
  numLevels_lt := by decide
  perm := by decide
  inverse l h := ⟨⟨l, h⟩, dif_pos h, rfl⟩

/-- The task from the innermost loop to the outermost one is the first of the
table. -/
theorem selector_agrees_three : ∃ tasks, threeLoops.leftoverTasks 4 = some tasks ∧
    (leftoverTaskIndexSelector threeLoops.leftoverTasksPairs).run 2 0 6 .entry .entry =
      some 0 ∧
    ∃ task, tasks[0]? = some task ∧ threeLoops.createLeftoverTask 4 (2, 0) = some task := by
  obtain ⟨tasks, htasks, _, h⟩ := selector_agrees threeLoops
    (show threeLoops.numLevels < 4 by decide)
  obtain ⟨i, task, hi, htask, hcreated, _⟩ := h 2 0 (by decide) (by decide)
  have hzero : (leftoverTaskIndexSelector threeLoops.leftoverTasksPairs).run 2 0 6 .entry .entry =
      some 0 := by decide
  obtain rfl : i = 0 := Option.some.inj (hi.symm.trans hzero)
  exact ⟨tasks, htasks, hzero, task, htask, hcreated⟩

end HeartbeatCompiler
