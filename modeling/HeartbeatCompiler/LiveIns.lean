import HeartbeatCompiler.ConstantLiveIns
import Mathlib.Data.List.Sort

/-!
# `HeartbeatCompiler.LiveIns`: the slots of the live-ins

A live-in of a loop that does not come from the root function gets a slot in the single
environment of its loop. The caller stores the value there before it calls the slice, and the
slice loads it. What is skipped, what is constant, the index of a slot, the store and the load
are decided in different places.

The semantics of the instructions is arbitrary (`LiveInSem`). A call of a loop is named by the
iterations of the loops around it, the innermost one first. `SlotsFilled` compares a slot with
the source program, and `live_in_slots_filled_iff` says for which nests it holds.
-/

set_option autoImplicit false

namespace HeartbeatCompiler

/-! ### Environments -/

/-- What a live-in of a loop is in the function that holds the loop: an
argument of that function, or an instruction before the loop. -/
inductive Producer where
  | argument (argNo : Nat)
  | instruction (id : Nat)
  deriving DecidableEq

/-- The environment of a loop, as NOELLE computes it. `producer` gives the
value of a live-in, and `exitBlockID` the variable that tells the exit blocks
of the loop apart, if it has several. `boundOnly` says of an instruction that
it has one use and is the start or the exit value, and `inLoop` that it is in
the loop. -/
structure LoopEnvironment where
  liveInIDs : List Nat
  producer : Nat → Producer
  exitBlockID : Option Nat
  boundOnly : Nat → Bool
  inLoop : Nat → Bool

/-- The loops of a nest with their environments. The fields after `env` say
what a live-in is: a value defined outside the loop that is used in it. So
what is an operand of the call of the next loop is in the loop, or it is a
live-in, and a start or exit value is used where the loop is controlled,
besides its uses as an operand of the call. -/
structure LiveInNest where
  chain : LoopChain
  env : Nat → LoopEnvironment
  producer_inj : ∀ l, ∀ id ∈ (env l).liveInIDs, ∀ id' ∈ (env l).liveInIDs,
    (env l).producer id = (env l).producer id' → id = id'
  exit_not_live_in : ∀ l id, (env l).exitBlockID = some id → id ∉ (env l).liveInIDs
  argument_live_in : ∀ (l : Nat) (fn : LoopFunction), chain.fns[l]? = some fn → ∀ i k : Nat,
    fn.callOperands[i]? = some (.argument k) →
    ∃ id ∈ (env l).liveInIDs, (env l).producer id = .argument k
  instruction_live_in : ∀ (l : Nat) (fn : LoopFunction), chain.fns[l]? = some fn → ∀ i j : Nat,
    fn.callOperands[i]? = some (.instruction j) → (env l).inLoop j = false →
    (env l).boundOnly j = false ∧ ∃ id ∈ (env l).liveInIDs, (env l).producer id = .instruction j
  bound_use : ∀ (l : Nat) (fn : LoopFunction), chain.fns[l]? = some fn → ∀ k,
    fn.startValue = .argument k ∨ fn.exitValue = .argument k →
    ∃ u ∈ fn.uses k, ∀ i, u.user ≠ .heartbeatCall i

/-- `std::set::insert` on the elements in ascending order, which is the order
of the iteration that numbers them. -/
def setInsert (id : Nat) (vars : List Nat) : List Nat :=
  if id ∈ vars then vars else vars.orderedInsert (· ≤ ·) id

/-- A cache line of 64 bytes holds eight words. -/
def valuesInCacheLine : Nat := 8

/-- What the entry block of a slice loads for a live-in: a word of its live-in
environment, or an entry of the array of the constant live-ins. -/
inductive LiveInLoad where
  | single (slot : Nat)
  | constant (argIndex : Nat)
  deriving DecidableEq

/-- A value of the slice that calls the next one: the copy of an instruction
of its loop, or a live-in that its entry block has loaded. -/
inductive ParameterClone where
  | instruction (id : Nat)
  | liveIn (load : LiveInLoad)
  deriving DecidableEq

namespace LiveInNest

variable (N : LiveInNest) (maps : LiveInMaps)

/-! ### The environment builder -/

/-- `loopToConstantLiveIns` of a level. Its keys are arguments. -/
def constantLiveIn (l : Nat) : Producer → Option Nat
  | .argument k => maps.loopToConstantLiveIns (l, k)
  | .instruction _ => none

/-- `isConstantLiveInVariable`: the analysis has mapped the live-in to an
argument of the root. -/
def isConstantLiveInVariable (l id : Nat) : Bool :=
  (constantLiveIn maps l ((N.env l).producer id)).isSome

/-- The analysis has skipped the live-in. Only arguments are skipped. -/
def isSkippedLiveIn (l : Nat) : Producer → Bool
  | .argument k => (l, k) ∈ maps.loopToSkippedLiveIns
  | .instruction _ => false

/-- The value has one use and is the start or the exit value. -/
def usedAsBoundOnly (l : Nat) : Producer → Bool
  | .argument k =>
    match N.chain.fns[l]? with
    | some fn => (fn.uses k).length = 1 ∧
        (fn.startValue = .argument k ∨ fn.exitValue = .argument k)
    | none => false
  | .instruction id => (N.env l).boundOnly id

/-- `shouldThisVariableBeSkipped`: the variable needs no slot in the
environment, because the analysis has skipped it, because the loop is
controlled by it alone, or because it is a constant live-in. The slice gets a
bound from its context and a constant live-in from the array of those. -/
def shouldThisVariableBeSkipped (l id : Nat) : Bool :=
  isSkippedLiveIn maps l ((N.env l).producer id) || N.usedAsBoundOnly l ((N.env l).producer id) ||
    N.isConstantLiveInVariable maps l id

/-- `singleVars`, the variables with a slot of their own. Live-ins are not
reduced and live-outs always are, so these are the live-ins that remain, and
the variable of the exit block if there is one. -/
def singleVars (l : Nat) : List Nat :=
  let vars := (N.env l).liveInIDs.foldl (fun vars id =>
    if N.isConstantLiveInVariable maps l id then vars
    else if N.shouldThisVariableBeSkipped maps l id then vars
    else setInsert id vars) []
  match (N.env l).exitBlockID with
  | some id => setInsert id vars
  | none => vars

/-- `initializeBuilder` numbers the variables in the order of the set, so the
index of a variable is its place in it. -/
def singleEnvIDToIndex (l id : Nat) : Nat := (N.singleVars maps l).idxOf id

/-! ### Loads and stores -/

/-- The word that the slice loads. Each variable has a cache line of its own,
so that no two of them are written in one line. -/
def createSingleEnvironmentVariablePointer (l id : Nat) : Nat :=
  N.singleEnvIDToIndex maps l id * valuesInCacheLine

/-- The word that the caller stores. It is computed by another function of the
environment builder than the one for loads. -/
def getLocationOfSingleVariable (l id : Nat) : Nat :=
  N.singleEnvIDToIndex maps l id * valuesInCacheLine

/-- What `generateCodeToLoadLiveInVariables` makes for a live-in: the load of
its slot if it has one, else that of the constant live-in, and nothing for a
variable that is skipped. -/
def loadLiveIn (l id : Nat) : Option LiveInLoad :=
  if id ∈ N.singleVars maps l then
    some (.single (N.createSingleEnvironmentVariablePointer maps l id))
  else (constantLiveIn maps l ((N.env l).producer id)).map .constant

/-- `getCloneOfOriginalLiveIn`: the value that the slice has loaded for a
live-in of the source. It is a lookup in the map of the task, which has no
entry for a live-in that was not loaded. -/
def getCloneOfOriginalLiveIn (l : Nat) (producer : Producer) : Option LiveInLoad :=
  (N.env l).liveInIDs.findSome? fun id =>
    if (N.env l).producer id = producer then N.loadLiveIn maps l id else none

/-- The store for a live-in of the loop that the loop of level `l` calls. The
operand of the call is found by the number of the argument. An instruction is
no argument of the callee, and a constant operand no argument of the caller,
both of which are asserted. A clone that is missing is a null pointer, for
which no store can be built. -/
def linkLiveIn (l id : Nat) : Option (Nat × ParameterClone) :=
  match (N.env (l + 1)).producer id with
  | .instruction _ => none
  | .argument argNo => do
    let caller ← N.chain.fns[l]?
    let callerParameter ← caller.callOperands[argNo]?
    let callerParameterClone ← match callerParameter with
      | .instruction j => if (N.env l).inLoop j then some (.instruction j) else none
      | .argument j => (N.getCloneOfOriginalLiveIn maps l (.argument j)).map .liveIn
      | .constant => none
    return (N.getLocationOfSingleVariable maps (l + 1) id, callerParameterClone)

/-- The stores of `invokeHeartbeatFunctionAsideCallerLoop` in the loop of
level `l`, for the live-ins of the next loop that have a slot. The pass aborts
if one of them cannot be built. -/
def storeLiveIns (l : Nat) : Option (List (Nat × ParameterClone)) :=
  ((N.env (l + 1)).liveInIDs.filter (· ∈ N.singleVars maps (l + 1))).mapM (N.linkLiveIn maps l)

/-- The maps of the analysis and the stores of every loop that calls another
one. There are none for the root loop, which is called by the function of the
program. -/
def linkLiveIns : Option (LiveInMaps × List (List (Nat × ParameterClone))) := do
  let maps ← performConstantLiveInAnalysis N.chain
  let stores ← (List.range N.chain.nested.length).mapM (N.storeLiveIns maps)
  return (maps, stores)

/-! ### What should be stored -/

/-- The body of a loop uses the live-in: neither as a bound nor as an operand
of the call of the next loop only. -/
def BodyUses (l : Nat) (producer : Producer) : Prop :=
  (∃ id ∈ (N.env l).liveInIDs, (N.env l).producer id = producer) ∧
    N.usedAsBoundOnly l producer = false ∧
    ∀ k, producer = .argument k → N.chain.UsedInLoop (l, k)

end LiveInNest

/-- The meaning of the instructions, over any type of values. An instruction
before the loop is computed from the arguments of its function, one in the
loop from the live-ins that the body uses; that it depends on no other live-in
is `body_congr`. Both may depend on the iterations of the loops around it,
since they may read memory. -/
structure LiveInSem (N : LiveInNest) (V : Type) where
  rootArgs : Nat → V
  before : Nat → Nat → (Nat → V) → List Nat → V
  body : Nat → Nat → (Producer → Option V) → List Nat → V
  constantOperand : Nat → Nat → V
  body_congr : ∀ (l id : Nat) (env env' : Producer → Option V) (iterations : List Nat),
    (∀ producer, N.BodyUses l producer → env producer = env' producer) →
    body l id env iterations = body l id env' iterations

namespace LiveInSem

variable {N : LiveInNest} {V : Type} (S : LiveInSem N V)

/-! #### Source program -/

/-- The value of an argument or of an instruction before the loop. -/
def producerValue (l : Nat) (args : Nat → V) (iterations : List Nat) : Producer → V
  | .argument k => args k
  | .instruction id => S.before l id args iterations

/-- The arguments of the loop function that is called in the given iterations,
the innermost first. They are what the program itself computes: the operands
of the call, evaluated in the loop around it. -/
def sourceArgs : List Nat → Nat → V
  | [], k => S.rootArgs k
  | i :: iterations, k =>
    let l := iterations.length
    match N.chain.fns[l]?.bind fun fn => fn.callOperands[k]? with
    | some (.argument j) => sourceArgs iterations j
    | some (.instruction j) =>
      if (N.env l).inLoop j then
        S.body l j (fun producer =>
          some (S.producerValue l (sourceArgs iterations) iterations producer)) (i :: iterations)
      else S.before l j (sourceArgs iterations) iterations
    | _ => S.constantOperand l k

/-- The value of a live-in in the program: it is an argument, or computed from
the arguments. -/
def source (iterations : List Nat) : Producer → V :=
  S.producerValue iterations.length (S.sourceArgs iterations) iterations

/-! #### Slices -/

variable (maps : LiveInMaps)

/-- What a load gives. A slot that was not stored has no value, so that a
slice that reads it is told apart from one that reads a stored word. -/
def loadValue (liveInEnv : Nat → Option V) : LiveInLoad → Option V
  | .single slot => liveInEnv slot
  | .constant argIndex => some (S.rootArgs argIndex)

/-- The live-ins as the slice of a level has loaded them. -/
def loadedLiveIns (l : Nat) (liveInEnv : Nat → Option V) (producer : Producer) : Option V :=
  (N.getCloneOfOriginalLiveIn maps l producer).bind (S.loadValue liveInEnv)

/-- The value that the caller stores for a parameter. -/
def cloneValue (l : Nat) (liveInEnv : Nat → Option V) (iterations : List Nat) :
    ParameterClone → Option V
  | .instruction id => some (S.body l id (S.loadedLiveIns maps l liveInEnv) iterations)
  | .liveIn load => S.loadValue liveInEnv load

/-- The live-in environment of the slice that is called in the given
iterations: what the slice around it has stored before the call. The root
function stores nothing, since its call of `populateLiveInEnvironment` is
commented out. -/
def liveInEnv (stores : List (List (Nat × ParameterClone))) : List Nat → Nat → Option V
  | [] => fun _ => none
  | i :: iterations =>
    let l := iterations.length
    ((stores[l]?).getD []).foldl (fun env store => Function.update env store.1
      (S.cloneValue maps l (liveInEnv stores iterations) (i :: iterations) store.2)) fun _ => none

end LiveInSem

namespace LiveInNest

variable (N : LiveInNest) (maps : LiveInMaps)

/-- The environments of a nest, over every meaning of its instructions:

- `filled`: at every call of its loop the slot of a live-in that is neither
  constant nor skipped holds the value that the live-in has in the program;
- `distinct`: each of them has a slot of its own. -/
structure SlotsFilled (stores : List (List (Nat × ParameterClone))) : Prop where
  filled : ∀ (V : Type) (S : LiveInSem N V) (iterations : List Nat),
    iterations.length < N.chain.fns.length → ∀ id ∈ (N.env iterations.length).liveInIDs,
    N.isConstantLiveInVariable maps iterations.length id = false →
    N.shouldThisVariableBeSkipped maps iterations.length id = false →
    S.liveInEnv maps stores iterations
        (N.createSingleEnvironmentVariablePointer maps iterations.length id) =
      some (S.source iterations ((N.env iterations.length).producer id))
  distinct : ∀ l, ∀ id ∈ N.singleVars maps l, ∀ id' ∈ N.singleVars maps l,
    N.createSingleEnvironmentVariablePointer maps l id =
      N.createSingleEnvironmentVariablePointer maps l id' → id = id'

/-- The live-in is no value that the root function was called with and passed
on, and the loop is not only controlled by it. -/
def NeedsSlot (l : Nat) (producer : Producer) : Prop :=
  N.usedAsBoundOnly l producer = false ∧
    ∀ k a, producer = .argument k → ¬ N.chain.Carried (l, k) a

end LiveInNest

/-! ### Indices -/

/-- Inserting adds one element. -/
theorem mem_setInsert {x id : Nat} {vars : List Nat} :
    x ∈ setInsert id vars ↔ x = id ∨ x ∈ vars := by
  unfold setInsert
  split
  · rename_i hid
    constructor
    · exact .inr
    · rintro (rfl | hx)
      · exact hid
      · exact hx
  · exact List.mem_orderedInsert _

/-- The set has the variables that are neither constant nor skipped, besides
those that were in it. -/
theorem mem_foldl_setInsert {x : Nat} (constant skipped : Nat → Bool) (ids vars : List Nat) :
    x ∈ ids.foldl (fun vars id =>
      if constant id then vars else if skipped id then vars else setInsert id vars) vars ↔
      x ∈ vars ∨ x ∈ ids ∧ constant x = false ∧ skipped x = false := by
  induction ids generalizing vars with
  | nil => simp
  | cons id ids ih =>
      rw [List.foldl_cons, ih, List.mem_cons]
      -- one variable is constant, skipped, or put into the set
      split
      · rename_i hconst
        have hne : ¬ (x = id ∧ constant x = false) := by
          rintro ⟨rfl, hx⟩
          rw [hx] at hconst
          cases hconst
        tauto
      · split
        · rename_i hskip
          have hne : ¬ (x = id ∧ skipped x = false) := by
            rintro ⟨rfl, hx⟩
            rw [hx] at hskip
            cases hskip
          tauto
        · rename_i hconst hskip
          rw [Bool.not_eq_true] at hconst hskip
          have heq : x = id → constant x = false ∧ skipped x = false := by
            rintro rfl
            exact ⟨hconst, hskip⟩
          rw [mem_setInsert]
          tauto

/-- What is found in a list is found at the only place that has it. -/
theorem findSome?_unique {β : Type} {ids : List Nat} {f : Nat → Option β} {id : Nat}
    (hid : id ∈ ids) (h : ∀ id' ∈ ids, id' ≠ id → f id' = none) : ids.findSome? f = f id := by
  induction ids with
  | nil => cases hid
  | cons id' ids ih =>
      rw [List.findSome?_cons]
      by_cases heq : id' = id
      · subst heq
        cases hf : f id' with
        | some b => rfl
        | none =>
            refine List.findSome?_eq_none_iff.mpr fun id₁ hid₁ => ?_
            by_cases h₁ : id₁ = id'
            · exact h₁ ▸ hf
            · exact h id₁ (List.mem_cons_of_mem _ hid₁) h₁
      · rw [h id' List.mem_cons_self heq]
        exact ih ((List.mem_cons.mp hid).resolve_left (Ne.symm heq))
          fun id₁ hid₁ => h id₁ (List.mem_cons_of_mem _ hid₁)

namespace LiveInNest

variable {N : LiveInNest} {maps : LiveInMaps} {l id id' : Nat} {producer : Producer}

/-- A live-in has a slot exactly if it is neither constant nor skipped. The
other variable of the environment is the exit block. -/
theorem mem_singleVars (hid : id ∈ (N.env l).liveInIDs) :
    id ∈ N.singleVars maps l ↔ N.isConstantLiveInVariable maps l id = false ∧
      N.shouldThisVariableBeSkipped maps l id = false := by
  have hfold := mem_foldl_setInsert (x := id) (N.isConstantLiveInVariable maps l)
    (N.shouldThisVariableBeSkipped maps l) (N.env l).liveInIDs []
  unfold singleVars
  split
  · rename_i exitID hexit
    have hne : id ≠ exitID := fun heq => N.exit_not_live_in l exitID hexit (heq ▸ hid)
    rw [mem_setInsert, hfold]
    simp [hid, hne]
  · rw [hfold]
    simp [hid]

/-- Different variables have different slots. -/
theorem slot_inj (hid : id ∈ N.singleVars maps l)
    (h : N.createSingleEnvironmentVariablePointer maps l id =
      N.createSingleEnvironmentVariablePointer maps l id') : id = id' := by
  have hindex : (N.singleVars maps l).idxOf id = (N.singleVars maps l).idxOf id' :=
    Nat.eq_of_mul_eq_mul_right (by decide : 0 < valuesInCacheLine) h
  exact (List.idxOf_inj hid).mp hindex

/-! ### What needs a slot -/

/-- A constant live-in is carried from the root. -/
theorem carried_of_constant (h : performConstantLiveInAnalysis N.chain = some maps) {a : Nat}
    (ha : constantLiveIn maps l producer = some a) :
    ∃ k, producer = .argument k ∧ N.chain.Carried (l, k) a := by
  cases producer with
  | instruction j => cases ha
  | argument k =>
      obtain ⟨hlt, hneeded⟩ := ((LoopChain.analysed_of_perform h).constant (l, k) a).mp ha
      exact ⟨k, rfl, hlt, hneeded.1⟩

/-- What is carried from the root is skipped, and constant if the loop needs
it. -/
theorem isSkippedLiveIn_argument (h : performConstantLiveInAnalysis N.chain = some maps) (k : Nat) :
    isSkippedLiveIn maps l (.argument k) = true ↔ ∃ a, N.chain.Carried (l, k) a := by
  rw [isSkippedLiveIn, decide_eq_true_iff, (LoopChain.analysed_of_perform h).skipped]
  rfl

/-- What needs a slot is what the builder gives one. -/
theorem needsSlot_iff (h : performConstantLiveInAnalysis N.chain = some maps) :
    N.NeedsSlot l ((N.env l).producer id) ↔ N.isConstantLiveInVariable maps l id = false ∧
      N.shouldThisVariableBeSkipped maps l id = false := by
  unfold NeedsSlot shouldThisVariableBeSkipped isConstantLiveInVariable
  simp only [Bool.or_eq_false_iff, Option.isSome_eq_false_iff, Option.isNone_iff_eq_none]
  constructor
  · rintro ⟨hbound, hcarried⟩
    have hconst : constantLiveIn maps l ((N.env l).producer id) = none := by
      by_contra hne
      obtain ⟨a, ha⟩ := Option.ne_none_iff_exists'.mp hne
      obtain ⟨k, hk, hka⟩ := carried_of_constant h ha
      exact hcarried k a hk hka
    refine ⟨hconst, ⟨?_, hbound⟩, hconst⟩
    -- instructions are not skipped, and arguments only if they are carried from the root
    cases hp : (N.env l).producer id with
    | instruction j => rfl
    | argument k =>
        rw [← Bool.not_eq_true, isSkippedLiveIn_argument h]
        rintro ⟨a, ha⟩
        exact hcarried k a hp ha
  · rintro ⟨-, ⟨hskip, hbound⟩, -⟩
    refine ⟨hbound, fun k a hk ha => ?_⟩
    rw [hk, ← Bool.not_eq_true, isSkippedLiveIn_argument h] at hskip
    exact hskip ⟨a, ha⟩

/-- After the analysis the environment has the live-ins that need a slot. -/
theorem mem_singleVars_iff (h : performConstantLiveInAnalysis N.chain = some maps)
    (hid : id ∈ (N.env l).liveInIDs) :
    id ∈ N.singleVars maps l ↔ N.NeedsSlot l ((N.env l).producer id) := by
  rw [mem_singleVars hid, needsSlot_iff h]

/-! ### Loads -/

/-- The load of a live-in is found by its producer, which belongs to no other
one. -/
theorem getCloneOfOriginalLiveIn_producer (hid : id ∈ (N.env l).liveInIDs) :
    N.getCloneOfOriginalLiveIn maps l ((N.env l).producer id) = N.loadLiveIn maps l id := by
  unfold getCloneOfOriginalLiveIn
  rw [findSome?_unique hid fun id' hid' hne => if_neg fun heq =>
    hne (N.producer_inj l id' hid' id hid heq), if_pos rfl]

/-- What is found was loaded for a live-in. -/
theorem exists_of_getCloneOfOriginalLiveIn {load : LiveInLoad}
    (h : N.getCloneOfOriginalLiveIn maps l producer = some load) :
    ∃ id ∈ (N.env l).liveInIDs, (N.env l).producer id = producer ∧
      N.loadLiveIn maps l id = some load := by
  obtain ⟨id, hid, hload⟩ := List.exists_of_findSome?_eq_some h
  by_cases hp : (N.env l).producer id = producer
  · rw [if_pos hp] at hload
    exact ⟨id, hid, hp, hload⟩
  · rw [if_neg hp] at hload
    cases hload

/-- A slice loads what the body of its loop uses. -/
theorem exists_load_of_bodyUses (h : performConstantLiveInAnalysis N.chain = some maps)
    (huses : N.BodyUses l producer) :
    ∃ load, N.getCloneOfOriginalLiveIn maps l producer = some load := by
  obtain ⟨⟨id, hid, rfl⟩, hbound, hused⟩ := huses
  rw [getCloneOfOriginalLiveIn_producer hid, loadLiveIn]
  -- without a slot the live-in is carried from the root and used in the loop, so it is constant
  split
  · exact ⟨_, rfl⟩
  · rename_i hsingle
    rw [mem_singleVars_iff h hid, NeedsSlot, not_and] at hsingle
    obtain ⟨k, a, hk, ha⟩ : ∃ k a, (N.env l).producer id = .argument k ∧
        N.chain.Carried (l, k) a := by
      by_contra hne
      exact hsingle hbound fun k a hk ha => hne ⟨k, a, hk, ha⟩
    have hconst : maps.loopToConstantLiveIns (l, k) = some a :=
      ((LoopChain.analysed_of_perform h).constant (l, k) a).mpr
        ⟨ha.1, ha.2, .inl (hused k hk)⟩
    rw [hk]
    exact ⟨.constant a, congrArg (Option.map _) hconst⟩

/-! ### Stores -/

/-- What is stored for a live-in, if a store is made: the slot is the one that
the slice loads, and the value is a clone of the operand of the call. -/
theorem of_linkLiveIn {store : Nat × ParameterClone} (h : N.linkLiveIn maps l id = some store) :
    store.1 = N.createSingleEnvironmentVariablePointer maps (l + 1) id ∧
    ∃ (k : Nat) (caller : LoopFunction) (operand : CallOperand),
      (N.env (l + 1)).producer id = .argument k ∧ N.chain.fns[l]? = some caller ∧
      caller.callOperands[k]? = some operand ∧
      ((∃ j, operand = .instruction j ∧ (N.env l).inLoop j = true ∧ store.2 = .instruction j) ∨
        ∃ j load, operand = .argument j ∧
          N.getCloneOfOriginalLiveIn maps l (.argument j) = some load ∧
          store.2 = .liveIn load) := by
  unfold linkLiveIn at h
  split at h
  · cases h
  · rename_i k hk
    simp only [Option.bind_eq_bind, Option.bind_eq_some_iff] at h
    obtain ⟨caller, hcaller, operand, hoperand, hstore⟩ := h
    -- constants have no clone; instructions are cloned with the loop; arguments were loaded
    cases operand with
    | constant => cases hstore
    | instruction j =>
        by_cases hj : (N.env l).inLoop j = true
        · simp only [if_pos hj, Option.bind_some, Option.pure_def, Option.some.injEq] at hstore
          subst hstore
          exact ⟨rfl, k, caller, _, hk, hcaller, hoperand, .inl ⟨j, rfl, hj, rfl⟩⟩
        · simp only [if_neg hj, Option.bind_none, reduceCtorEq] at hstore
    | argument j =>
        obtain ⟨clone, hclone, hstore⟩ := Option.bind_eq_some_iff.mp hstore
        obtain ⟨load, hload, rfl⟩ := Option.map_eq_some_iff.mp hclone
        obtain rfl := Option.some.inj hstore
        exact ⟨rfl, k, caller, _, hk, hcaller, hoperand, .inr ⟨j, load, rfl, hload, rfl⟩⟩

/-- Every variable of the callee's environment is stored by the caller. -/
theorem exists_of_storeLiveIns {stores : List (Nat × ParameterClone)}
    (h : N.storeLiveIns maps l = some stores) (hid : id ∈ (N.env (l + 1)).liveInIDs)
    (hsingle : id ∈ N.singleVars maps (l + 1)) :
    ∃ store ∈ stores, N.linkLiveIn maps l id = some store :=
  Partial.exists_of_mapM h (List.mem_filter.mpr ⟨hid, decide_eq_true hsingle⟩)

/-- An operand of the call has another use than the bound of the loop. -/
theorem usedAsBoundOnly_operand {fn : LoopFunction} (hfn : N.chain.fns[l]? = some fn) {i k : Nat}
    (hop : fn.callOperands[i]? = some (.argument k)) :
    N.usedAsBoundOnly l (.argument k) = false := by
  obtain ⟨u, hu, huser⟩ := (N.chain.mem_uses l fn hfn k i).mpr hop
  unfold usedAsBoundOnly
  simp only [hfn, decide_eq_false_iff_not]
  rintro ⟨hone, hbound⟩
  obtain ⟨u', hu', hother⟩ := N.bound_use l fn hfn k hbound
  obtain ⟨u₀, hu₀⟩ := List.length_eq_one_iff.mp hone
  rw [hu₀, List.mem_singleton] at hu hu'
  exact hother i (hu' ▸ hu ▸ huser)

/-- What `apply` asks of the live-ins that need a slot:

- `root`: there are none in the root loop;
- `nested`: in a nested loop each of them is an argument that is not called
  with a constant. -/
structure CallersStore (N : LiveInNest) : Prop where
  root : ∀ id ∈ (N.env 0).liveInIDs, ¬ N.NeedsSlot 0 ((N.env 0).producer id)
  nested : ∀ l < N.chain.nested.length, ∀ id ∈ (N.env (l + 1)).liveInIDs,
    N.NeedsSlot (l + 1) ((N.env (l + 1)).producer id) →
    ∃ (k : Nat) (caller : LoopFunction) (operand : CallOperand),
      (N.env (l + 1)).producer id = .argument k ∧ N.chain.fns[l]? = some caller ∧
      caller.callOperands[k]? = some operand ∧ operand ≠ .constant

/-- An instruction that is not an argument needs no slot in a nest whose
callers store. -/
theorem CallersStore.not_instruction (hcond : N.CallersStore)
    (hl : l < N.chain.fns.length) (hid : id ∈ (N.env l).liveInIDs) {j : Nat}
    (hp : (N.env l).producer id = .instruction j) : (N.env l).boundOnly j = true := by
  by_contra hbound
  have hneeds : N.NeedsSlot l ((N.env l).producer id) := by
    rw [hp]
    exact ⟨Bool.eq_false_iff.mpr hbound, fun k a hk => nomatch hk⟩
  cases l with
  | zero => exact hcond.root id hid hneeds
  | succ l =>
      obtain ⟨k, _, _, hk, -⟩ := hcond.nested l (Nat.lt_of_succ_lt_succ hl) id hid hneeds
      rw [hp] at hk
      cases hk

/-- Under the condition the store of a live-in can be made: the operand has a
clone in the caller, an instruction since it is in the loop and an argument
since it was loaded. -/
theorem exists_linkLiveIn (h : performConstantLiveInAnalysis N.chain = some maps)
    (hcond : N.CallersStore) (hl : l < N.chain.nested.length)
    (hid : id ∈ (N.env (l + 1)).liveInIDs) (hsingle : id ∈ N.singleVars maps (l + 1)) :
    ∃ store, N.linkLiveIn maps l id = some store := by
  have hneeds := (mem_singleVars_iff h hid).mp hsingle
  obtain ⟨k, caller, operand, hk, hcaller, hop, hconst⟩ := hcond.nested l hl id hid hneeds
  have hlevel : l < N.chain.fns.length := Nat.lt_succ_of_lt hl
  unfold linkLiveIn
  simp only [hk, hcaller, hop, Option.bind_eq_bind, Option.bind_some]
  cases operand with
  | constant => exact absurd rfl hconst
  | instruction j =>
      -- an instruction before the loop of the caller would be a live-in of the caller that needs
      -- a slot, which the condition excludes
      by_cases hj : (N.env l).inLoop j = true
      · simp only [if_pos hj]
        exact ⟨_, rfl⟩
      · obtain ⟨hbound, id', hid', hp⟩ :=
          N.instruction_live_in l caller hcaller k j hop (Bool.eq_false_iff.mpr hj)
        rw [hcond.not_instruction hlevel hid' hp] at hbound
        cases hbound
  | argument j =>
      obtain ⟨id', hid', hp⟩ := N.argument_live_in l caller hcaller k j hop
      -- a value that is carried to the caller would be carried to the callee
      have hneeds' : N.NeedsSlot l ((N.env l).producer id') := by
        rw [hp]
        refine ⟨usedAsBoundOnly_operand hcaller hop, fun j' a hj' ha => ?_⟩
        obtain rfl := Producer.argument.inj hj'
        exact hneeds.2 k a hk ⟨ha.1, ha.2.tail ⟨rfl, caller, hcaller, hop⟩⟩
      have hload : N.getCloneOfOriginalLiveIn maps l ((N.env l).producer id') =
          N.loadLiveIn maps l id' := getCloneOfOriginalLiveIn_producer hid'
      rw [hp, loadLiveIn, if_pos ((mem_singleVars_iff h hid').mpr hneeds')] at hload
      simp only [hload, Option.map_some, Option.bind_some]
      exact ⟨_, rfl⟩

/-- Under the condition all stores of a caller can be made. -/
theorem exists_storeLiveIns (h : performConstantLiveInAnalysis N.chain = some maps)
    (hcond : N.CallersStore) (hl : l < N.chain.nested.length) :
    ∃ stores, N.storeLiveIns maps l = some stores := by
  obtain ⟨stores, hstores, -⟩ := Partial.mapM_eq_some (f := N.linkLiveIn maps l) fun id hid => by
    obtain ⟨hid, hsingle⟩ := List.mem_filter.mp hid
    exact exists_linkLiveIn h hcond hl hid (of_decide_eq_true hsingle)
  exact ⟨stores, hstores⟩

end LiveInNest

/-! ### Values -/

namespace LiveInSem

variable {N : LiveInNest} {maps : LiveInMaps} {V : Type} (S : LiveInSem N V)

/-- Every value is `()`. -/
def unit (N : LiveInNest) : LiveInSem N Unit where
  rootArgs _ := ()
  before _ _ _ _ := ()
  body _ _ _ _ := ()
  constantOperand _ _ := ()
  body_congr _ _ _ _ _ _ := rfl

/-- A value that is carried from the root stays the same in the source
program. -/
theorem sourceArgs_of_carried {x : LoopArg} {a : Nat}
    (h : Relation.ReflTransGen N.chain.Passes (0, a) x) (iterations : List Nat)
    (hlength : iterations.length = x.1) : S.sourceArgs iterations x.2 = S.rootArgs a := by
  induction h generalizing iterations with
  | refl =>
      obtain rfl := List.length_eq_zero_iff.mp hlength
      rfl
  | @tail y z _ hpass ih =>
      obtain ⟨hz, fn, hfn, hop⟩ := hpass
      cases iterations with
      | nil => exact absurd (hlength.trans hz).symm (Nat.succ_ne_zero _)
      | cons i iterations =>
          have hy : iterations.length = y.1 := Nat.succ.inj (hlength.trans hz)
          rw [sourceArgs, hy, hfn, Option.bind_some, hop]
          exact ih iterations hy

/-- The loads give the values of the source program if the slots hold them. -/
theorem loadValue_eq (h : performConstantLiveInAnalysis N.chain = some maps)
    {iterations : List Nat} {env : Nat → Option V}
    (henv : ∀ id ∈ (N.env iterations.length).liveInIDs, id ∈ N.singleVars maps iterations.length →
      env (N.createSingleEnvironmentVariablePointer maps iterations.length id) =
        some (S.source iterations ((N.env iterations.length).producer id)))
    {producer : Producer} {load : LiveInLoad}
    (hload : N.getCloneOfOriginalLiveIn maps iterations.length producer = some load) :
    S.loadValue env load = some (S.source iterations producer) := by
  obtain ⟨id, hid, rfl, hid'⟩ := LiveInNest.exists_of_getCloneOfOriginalLiveIn hload
  unfold LiveInNest.loadLiveIn at hid'
  split at hid'
  · rename_i hsingle
    obtain rfl := Option.some.inj hid'
    exact henv id hid hsingle
  · obtain ⟨a, ha, rfl⟩ := Option.map_eq_some_iff.mp hid'
    obtain ⟨k, hk, hcarried⟩ := LiveInNest.carried_of_constant h ha
    rw [hk]
    exact congrArg some (S.sourceArgs_of_carried hcarried.2 iterations rfl).symm

/-- One call: the slots of the caller hold the values, so those of the callee
do. It is the step of the induction along the calls. -/
theorem cloneValue_eq (h : performConstantLiveInAnalysis N.chain = some maps)
    {iterations : List Nat} {env : Nat → Option V}
    (henv : ∀ id ∈ (N.env iterations.length).liveInIDs, id ∈ N.singleVars maps iterations.length →
      env (N.createSingleEnvironmentVariablePointer maps iterations.length id) =
        some (S.source iterations ((N.env iterations.length).producer id)))
    {id : Nat} {store : Nat × ParameterClone}
    (hlink : N.linkLiveIn maps iterations.length id = some store) (i : Nat) :
    S.cloneValue maps iterations.length env (i :: iterations) store.2 =
      some (S.source (i :: iterations) ((N.env (iterations.length + 1)).producer id)) := by
  obtain ⟨-, k, caller, operand, hk, hcaller, hop, hclone⟩ := LiveInNest.of_linkLiveIn hlink
  have hsource : S.source (i :: iterations) (.argument k) =
      S.sourceArgs (i :: iterations) k := rfl
  rw [hk, hsource, sourceArgs, hcaller, Option.bind_some, hop]
  -- the operand is an instruction of the body, which reads the live-ins of the caller, or it is
  -- one of these live-ins
  rcases hclone with ⟨j, rfl, hj, hstore⟩ | ⟨j, load, rfl, hload, hstore⟩
  · have hbody : ∀ producer, N.BodyUses iterations.length producer →
        S.loadedLiveIns maps iterations.length env producer =
          some (S.source iterations producer) := by
      intro producer huses
      obtain ⟨load, hload⟩ := LiveInNest.exists_load_of_bodyUses h huses
      rw [loadedLiveIns, hload, Option.bind_some]
      exact S.loadValue_eq h henv hload
    rw [hstore, cloneValue, S.body_congr iterations.length j _ _ _ hbody]
    exact congrArg some (if_pos hj).symm
  · rw [hstore, cloneValue]
    exact S.loadValue_eq h henv hload

/-- Every slot is filled at every call. The induction is on the calls from the
root on, where there is no slot to fill. -/
theorem liveInEnv_eq (h : performConstantLiveInAnalysis N.chain = some maps)
    (hroot : ∀ id ∈ (N.env 0).liveInIDs, id ∉ N.singleVars maps 0)
    {stores : List (List (Nat × ParameterClone))}
    (hstores : (List.range N.chain.nested.length).mapM (N.storeLiveIns maps) = some stores)
    (iterations : List Nat) (hlength : iterations.length < N.chain.fns.length) :
    ∀ id ∈ (N.env iterations.length).liveInIDs, id ∈ N.singleVars maps iterations.length →
      S.liveInEnv maps stores iterations
        (N.createSingleEnvironmentVariablePointer maps iterations.length id) =
        some (S.source iterations ((N.env iterations.length).producer id)) := by
  induction iterations with
  | nil => exact fun id hid hsingle => absurd hsingle (hroot id hid)
  | cons i iterations ih =>
      intro id hid hsingle
      have hl : iterations.length < N.chain.nested.length := Nat.lt_of_succ_lt_succ hlength
      have henv := ih (Nat.lt_succ_of_lt hl)
      obtain ⟨s, hs, hstore⟩ :=
        Partial.getElem?_of_mapM hstores (List.getElem?_range hl)
      obtain ⟨b, hb, hlink⟩ := LiveInNest.exists_of_storeLiveIns hstore hid hsingle
      have hslot := (LiveInNest.of_linkLiveIn hlink).1
      -- no other store goes to this slot, so the fold over the stores keeps it
      have hunique : ∀ b' ∈ s, b'.1 = b.1 → b' = b := by
        intro b' hb' heq
        obtain ⟨id', hid', hlink'⟩ := Partial.mem_of_mapM hstore hb'
        rw [(LiveInNest.of_linkLiveIn hlink').1, hslot] at heq
        have hsingle' := of_decide_eq_true (List.mem_filter.mp hid').2
        rw [LiveInNest.slot_inj hsingle' heq, hlink, Option.some.injEq] at hlink'
        exact hlink'.symm
      rw [liveInEnv, hs, Option.getD_some, List.length_cons, ← hslot]
      refine (Partial.foldl_update hb hunique _).trans ?_
      exact S.cloneValue_eq h henv hlink i

end LiveInSem

/-- Every slot that a slice of the nest reads is filled if and only if the
analysis meets known callees only and the callers can store the live-ins that
need a slot. -/
theorem live_in_slots_filled_iff (N : LiveInNest) :
    (∃ maps stores, N.linkLiveIns = some (maps, stores) ∧ N.SlotsFilled maps stores) ↔
      (∀ x a, N.chain.Carried x a → N.chain.CalleesKnown x) ∧ N.CallersStore := by
  rw [← LoopChain.performConstantLiveInAnalysis_iff]
  constructor
  · rintro ⟨maps, stores, hlink, hfilled⟩
    obtain ⟨maps', hmaps, hlink⟩ := Option.bind_eq_some_iff.mp hlink
    obtain ⟨stores', hstores, heq⟩ := Option.bind_eq_some_iff.mp hlink
    obtain ⟨rfl, rfl⟩ := Prod.mk.inj (Option.some.inj heq)
    refine ⟨⟨maps', hmaps⟩, fun id hid hneeds => ?_, fun l hl id hid hneeds => ?_⟩
    · -- the environment of the root slice is empty
      have hslot := (LiveInNest.needsSlot_iff hmaps).mp hneeds
      cases hfilled.filled Unit (.unit N) [] (Nat.succ_pos _) id hid hslot.1 hslot.2
    · obtain ⟨s, -, hs⟩ := Partial.exists_of_mapM hstores (List.mem_range.mpr hl)
      obtain ⟨b, -, hb⟩ := LiveInNest.exists_of_storeLiveIns hs hid
        ((LiveInNest.mem_singleVars_iff hmaps hid).mpr hneeds)
      obtain ⟨-, k, caller, operand, hk, hcaller, hop, hclone⟩ := LiveInNest.of_linkLiveIn hb
      refine ⟨k, caller, operand, hk, hcaller, hop, ?_⟩
      rcases hclone with ⟨j, rfl, -⟩ | ⟨j, _, rfl, -⟩ <;> nofun
  · rintro ⟨⟨maps, hmaps⟩, hcond⟩
    obtain ⟨stores, hstores, -⟩ := Partial.mapM_eq_some (f := N.storeLiveIns maps)
      fun l hl => LiveInNest.exists_storeLiveIns hmaps hcond (List.mem_range.mp hl)
    have hroot : ∀ id ∈ (N.env 0).liveInIDs, id ∉ N.singleVars maps 0 := fun id hid hsingle =>
      hcond.root id hid ((LiveInNest.mem_singleVars_iff hmaps hid).mp hsingle)
    refine ⟨maps, stores, ?_, ?_, ?_⟩
    · simp [LiveInNest.linkLiveIns, hmaps, hstores]
    · intro V S iterations hlength id hid hconst hskip
      exact S.liveInEnv_eq hmaps hroot hstores iterations hlength id hid
        ((LiveInNest.mem_singleVars hid).mpr ⟨hconst, hskip⟩)
    · exact fun l id hid id' _ heq => LiveInNest.slot_inj hid heq

/-- One loop whose body uses the product of the two arguments of its function.
-/
def argumentProductNest : LiveInNest where
  chain :=
    { root := ⟨[.integer 64, .integer 64], fun _ => [⟨.instruction, false⟩], .other, .other, []⟩
      nested := []
      mem_uses := fun l fn hfn k i => by
        cases l with
        | succ l => cases hfn
        | zero => obtain rfl := Option.some.inj hfn; simp
      call_external := fun fn hfn k u hu i hi => by
        obtain rfl := List.mem_singleton.mp hfn
        obtain rfl := List.mem_singleton.mp hu
        cases hi
      callee := fun l fn hfn i k hop => by
        cases l with
        | succ l => cases hfn
        | zero => obtain rfl := Option.some.inj hfn; cases hop }
  env _ := ⟨[0], fun _ => .instruction 0, none, fun _ => false, fun _ => false⟩
  producer_inj l id hid id' hid' _ :=
    (List.mem_singleton.mp hid).trans (List.mem_singleton.mp hid').symm
  exit_not_live_in l id hid := nomatch hid
  argument_live_in l fn hfn i k hop := by
    cases l with
    | succ l => cases hfn
    | zero => obtain rfl := Option.some.inj hfn; cases hop
  instruction_live_in l fn hfn i j hop := by
    cases l with
    | succ l => cases hfn
    | zero => obtain rfl := Option.some.inj hfn; cases hop
  bound_use l fn hfn k hbound := by
    cases l with
    | succ l => cases hfn
    | zero =>
        obtain rfl := Option.some.inj hfn
        rcases hbound with hbound | hbound <;> cases hbound

/-- The pass makes its code, and the product is loaded from a slot that was
never stored. -/
theorem root_live_in_not_stored : ∃ maps stores,
    argumentProductNest.linkLiveIns = some (maps, stores) ∧
      ¬ argumentProductNest.SlotsFilled maps stores := by
  refine ⟨_, _, rfl, fun hfilled => ?_⟩
  cases hfilled.filled Unit (.unit argumentProductNest) [] (by decide) 0 (by decide) rfl (by decide)

end HeartbeatCompiler
