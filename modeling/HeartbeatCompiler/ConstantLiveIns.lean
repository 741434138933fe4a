import HeartbeatCompiler.Partial
import Mathlib.Data.Finset.Insert
import Mathlib.Data.Set.Insert
import Mathlib.Logic.Function.Basic
import Mathlib.Logic.Relation
import Mathlib.Tactic.Tauto

/-!
# `HeartbeatCompiler.ConstantLiveIns`: the arguments that come from the root

A nest is a chain of loop functions, each of which calls the next one. The constant live-in
analysis follows each argument of the root function through the calls, and maps the arguments
it meets to its number if the loop uses them. The root function writes these arguments to an
array of 64-bit words, from which the slices load them.

`Passes` is one step of an argument through a call and `Carried` the whole way. A visit of
the analysis is described by what it adds to its maps (`Adds`). The analysis does what it
should unless it meets a call whose callee it does not know (`constant_live_ins_iff`).
-/

set_option autoImplicit false

namespace HeartbeatCompiler

/-! ### Loop functions -/

/-- The type of an argument, as the code that stores and loads it tells types
apart. -/
inductive ArgType where
  | pointer
  | integer (bits : Nat)
  | floatOrDouble
  deriving DecidableEq

/-- An operand of the call of a loop function: an argument of the caller, an
instruction, or a constant. -/
inductive CallOperand where
  | argument (argNo : Nat)
  | instruction (id : Nat)
  | constant
  deriving DecidableEq

/-- What has an argument as an operand. It may be the call of the next loop
function, where `callInstIndex` is the number of the operand; another call; or
any other instruction. `getCalledFunction` gives null for a call through a
pointer, so its callee is not known. -/
inductive ArgUser where
  | heartbeatCall (callInstIndex : Nat)
  | call (knownCallee : Bool)
  | instruction
  deriving DecidableEq

/-- An entry of the use list of an argument: its user, and whether the user is
in the strongly connected component of the loop-governing induction variable.
Such uses control the loop and are not counted as uses in its body. -/
structure ArgUse where
  user : ArgUser
  inductionVariableSCC : Bool
  deriving DecidableEq

/-- The start or the exit value of a loop. A call of `smax` is recognised by
the name of its callee, which is why other calls are told apart by whether
they have one. -/
inductive BoundValue where
  | argument (argNo : Nat)
  | smax (operand : CallOperand)
  | call (knownCallee : Bool)
  | other
  deriving DecidableEq

/-- What the analysis reads of a loop function: the types of its arguments,
the uses of each of them in the order of the use list, the start and the exit
value of its loop, and the operands of the call of the next loop function. -/
structure LoopFunction where
  argTypes : List ArgType
  uses : Nat → List ArgUse
  startValue : BoundValue
  exitValue : BoundValue
  callOperands : List CallOperand

/-- The loop functions of a nest, each of which calls the next one. The fields
say what a use list is: an argument is used by the call of the next function
if and only if it is an operand of it. The calls are no part of the induction
variable, and they are well typed. -/
structure LoopChain where
  root : LoopFunction
  nested : List LoopFunction
  mem_uses : ∀ (l : Nat) (fn : LoopFunction), (root :: nested)[l]? = some fn → ∀ k i,
    (∃ u ∈ fn.uses k, u.user = .heartbeatCall i) ↔ fn.callOperands[i]? = some (.argument k)
  call_external : ∀ fn ∈ root :: nested, ∀ k, ∀ u ∈ fn.uses k, ∀ i,
    u.user = .heartbeatCall i → u.inductionVariableSCC = false
  callee : ∀ (l : Nat) (fn : LoopFunction), (root :: nested)[l]? = some fn → ∀ i k : Nat,
    fn.callOperands[i]? = some (.argument k) → ∃ next : LoopFunction,
      (root :: nested)[l + 1]? = some next ∧ next.argTypes[i]? = fn.argTypes[k]?

/-- The functions from the root on. -/
def LoopChain.fns (N : LoopChain) : List LoopFunction := N.root :: N.nested

/-! ### The analysis -/

/-- An argument of the loop function of a level. -/
abbrev LoopArg := Nat × Nat

/-- The fields of the pass that the analysis fills. An argument is given by
its level and its number. `loopToConstantLiveIns` maps it to the argument of
the root that it gets its value from. -/
structure LiveInMaps where
  loopToSkippedLiveIns : Finset LoopArg
  loopToConstantLiveIns : LoopArg → Option Nat
  constantLiveInsArgIndex : Finset Nat

/-- Before the analysis. -/
def LiveInMaps.empty : LiveInMaps := ⟨∅, fun _ => none, ∅⟩

/-- An argument that is reached from an argument of the root is skipped, also
if it is not used: it gets no slot in the live-in environment of its loop. -/
def LiveInMaps.skip (maps : LiveInMaps) (arg : LoopArg) : LiveInMaps :=
  { maps with loopToSkippedLiveIns := insert arg maps.loopToSkippedLiveIns }

/-- The argument gets its value from argument `argIndex` of the root. An entry
that is there already is overwritten, so the last visit decides. -/
def LiveInMaps.addConstant (maps : LiveInMaps) (arg : LoopArg) (argIndex : Nat) : LiveInMaps :=
  { maps with
    loopToConstantLiveIns := Function.update maps.loopToConstantLiveIns arg (some argIndex)
    constantLiveInsArgIndex := insert argIndex maps.constantLiveInsArgIndex }

/-- Whether a value is a call of `smax` with the argument as its first
operand. The name of the callee is read without a test for null, so a call
through a pointer aborts the compiler. -/
def BoundValue.isSmaxOf (arg : Nat) : BoundValue → Option Bool
  | .call false => none
  | .smax operand => some (operand = .argument arg)
  | _ => some false

/-- `isArgStartOrExitValue`. The start and the exit value themselves are
compared first, then the operands of `smax`, that of the start value before
that of the exit value. A call that is not known aborts the compiler, unless
the answer was found before it. -/
def isArgStartOrExitValue (fn : LoopFunction) (arg : Nat) : Option Bool :=
  if fn.startValue = .argument arg ∨ fn.exitValue = .argument arg then some true
  else do
    if ← fn.startValue.isSmaxOf arg then return true
    fn.exitValue.isSmaxOf arg

/-- One turn of the loop over the uses of `arg`. A use in the component of the
induction variable is passed over. An operand of the call of the next loop is
followed into the callee by `visit`, which is the call of
`constantLiveInToLoop`; any other use makes the argument a constant live-in. -/
def visitUse (callee : Option LoopFunction) (visit : LoopArg → LiveInMaps → Option LiveInMaps)
    (arg : LoopArg) (argIndex : Nat) (maps : LiveInMaps) (use : ArgUse) : Option LiveInMaps :=
  if use.inductionVariableSCC then some maps
  else match use.user with
    | .heartbeatCall callInstIndex => do
      let calleeFn ← callee
      let isBound ← isArgStartOrExitValue calleeFn callInstIndex
      visit (arg.1 + 1, callInstIndex) (if isBound then maps.addConstant arg argIndex else maps)
    | .call false => none
    | .call true | .instruction => some (maps.addConstant arg argIndex)

/-- `constantLiveInToLoop` for the argument `arg` of the first function of the
list. It descends along the nest, one function in each recursive call. -/
def constantLiveInToLoop : List LoopFunction → LoopArg → Nat → LiveInMaps → Option LiveInMaps
  | [], _, _, _ => none
  | fn :: rest, arg, argIndex, maps =>
    if (fn.uses arg.2).length = 0 then some (maps.skip arg)
    else (fn.uses arg.2).foldlM (visitUse rest.head?
      (fun arg maps => constantLiveInToLoop rest arg argIndex maps) arg argIndex) (maps.skip arg)

/-- `performConstantLiveInAnalysis`, without the indices: each argument of the
root function is followed through the nest, in the order of the arguments. -/
def performConstantLiveInAnalysis (N : LoopChain) : Option LiveInMaps :=
  (List.range N.root.argTypes.length).foldlM
    (fun maps argIndex => constantLiveInToLoop N.fns (0, argIndex) argIndex maps) .empty

/-- `constantLiveInsArgIndexToIndex`: the numbers of the arguments are
numbered in turn as the set of them is iterated. The set is unordered, so the
order is a parameter. -/
def constantLiveInsArgIndexToIndex (order : List Nat) : Nat → Option Nat :=
  (order.foldl (fun (state : (Nat → Option Nat) × Nat) argIndex =>
    (Function.update state.1 argIndex (some state.2), state.2 + 1)) (fun _ => none, 0)).1

/-! ### Encoding and decoding -/

/-- The value of an argument. -/
inductive ArgValue where
  | pointer (address : BitVec 64)
  | integer (bits : Nat) (value : BitVec bits)
  | floatOrDouble (value : BitVec 64)
  deriving DecidableEq

/-- The type of a value. -/
def ArgValue.type : ArgValue → ArgType
  | pointer _ => .pointer
  | integer bits _ => .integer bits
  | floatOrDouble _ => .floatOrDouble

/-- The word that the root function stores for a constant live-in. An integer
is sign extended; a floating point value is stored on the stack, and the word
is its address `alloca`. -/
def encodeLiveIn (alloca : BitVec 64) : ArgValue → BitVec 64
  | .pointer address => address
  | .integer _ value => value.signExtend 64
  | .floatOrDouble _ => alloca

/-- What a slice makes of the word. -/
def decodeLiveIn (memory : BitVec 64 → BitVec 64) (word : BitVec 64) : ArgType → ArgValue
  | .pointer => .pointer word
  | .integer bits => .integer bits (word.signExtend bits)
  | .floatOrDouble => .floatOrDouble (memory word)

/-- The array after the root function has stored the entries in the given
order. -/
def storeConstantLiveIns (entries : List (Nat × Nat)) (args : Nat → ArgValue)
    (alloca : Nat → BitVec 64) (array : Nat → BitVec 64) : Nat → BitVec 64 :=
  entries.foldl (fun array entry =>
    Function.update array entry.2 (encodeLiveIn (alloca entry.1) (args entry.1))) array

/-- What the slice of a loop loads for one of its constant live-ins. A key
that is missing reads as 0. -/
def loadConstantLiveIn (maps : LiveInMaps) (argIndexToIndex : Nat → Option Nat)
    (memory : BitVec 64 → BitVec 64) (array : Nat → BitVec 64) (arg : LoopArg)
    (type : ArgType) : ArgValue :=
  let argIndex := (maps.loopToConstantLiveIns arg).getD 0
  let constIndex := (argIndexToIndex argIndex).getD 0
  decodeLiveIn memory (array constIndex) type

/-! ### What should be found -/

namespace LoopChain

variable (N : LoopChain)

/-- The argument `x` is an operand of the call, where it becomes the argument
`y`. -/
def Passes (x y : LoopArg) : Prop :=
  y.1 = x.1 + 1 ∧ ∃ fn : LoopFunction, N.fns[x.1]? = some fn ∧
    fn.callOperands[y.2]? = some (.argument x.2)

/-- The argument number `a` of the root is carried unchanged to `x`. -/
def Carried (x : LoopArg) (a : Nat) : Prop :=
  a < N.root.argTypes.length ∧ Relation.ReflTransGen N.Passes (0, a) x

/-- A use that is neither in the induction variable nor a call of the next
loop function. -/
def UsedInLoop (x : LoopArg) : Prop :=
  ∃ fn : LoopFunction, N.fns[x.1]? = some fn ∧ ∃ u ∈ fn.uses x.2, u.inductionVariableSCC = false ∧
    ∀ i, u.user ≠ .heartbeatCall i

/-- The argument is the start or the exit value, directly or below `smax`. -/
def IsBound (fn : LoopFunction) (arg : Nat) : Prop :=
  fn.startValue = .argument arg ∨ fn.exitValue = .argument arg ∨
    fn.startValue = .smax (.argument arg) ∨ fn.exitValue = .smax (.argument arg)

/-- The argument is passed to the next loop function as one of its bounds. -/
def PassedAsBound (x : LoopArg) : Prop :=
  ∃ (y : LoopArg) (fn : LoopFunction), N.Passes x y ∧ N.fns[y.1]? = some fn ∧ IsBound fn y.2

/-- The type of an argument. -/
def argType (x : LoopArg) : Option ArgType :=
  N.fns[x.1]?.bind fun fn => fn.argTypes[x.2]?

/-- The maps are those of the nest, and every constant live-in is delivered,
for every order in which the numbers, and then the entries, are iterated:

- `mapped`: an argument that gets its value from the root and is needed is
  mapped to the argument it gets it from;
- `carried`: an argument that is mapped does get its value from there;
- `index`: the numbers that are needed, and no others, have an index each,
  from `0` on without gaps;
- `value`: whatever the values of the arguments, a pointer or an integer of at
  most 64 bits that is stored by the root function and loaded by a slice is
  the value of the argument. -/
structure Delivered (maps : LiveInMaps) : Prop where
  mapped : ∀ x a, N.Carried x a → N.UsedInLoop x ∨ N.PassedAsBound x →
    maps.loopToConstantLiveIns x = some a
  carried : ∀ x a, maps.loopToConstantLiveIns x = some a → N.Carried x a
  index : ∀ order : List Nat, order.Nodup →
    (∀ a, a ∈ order ↔ a ∈ maps.constantLiveInsArgIndex) →
    (∀ x a, maps.loopToConstantLiveIns x = some a →
      ∃ i, constantLiveInsArgIndexToIndex order a = some i) ∧
    (∀ a b i, constantLiveInsArgIndexToIndex order a = some i →
      constantLiveInsArgIndexToIndex order b = some i → a = b) ∧
    ∀ i, (∃ a, constantLiveInsArgIndexToIndex order a = some i) ↔ i < order.length
  value : ∀ (order : List Nat) (entries : List (Nat × Nat)), order.Nodup →
    (∀ a, a ∈ order ↔ a ∈ maps.constantLiveInsArgIndex) →
    (∀ a i, (a, i) ∈ entries ↔ constantLiveInsArgIndexToIndex order a = some i) →
    ∀ (args : Nat → ArgValue) (alloca array : Nat → BitVec 64)
      (memory : BitVec 64 → BitVec 64),
    (∀ a t, N.root.argTypes[a]? = some t → (args a).type = t) →
    ∀ x a t, maps.loopToConstantLiveIns x = some a → N.argType x = some t →
      (t = .pointer ∨ ∃ bits ≤ 64, t = .integer bits) →
      loadConstantLiveIn maps (constantLiveInsArgIndexToIndex order) memory
        (storeConstantLiveIns entries args alloca array) x t = args a

/-- No use of the argument outside the induction variable, and no bound of the
next loop that is compared with it, is a call whose callee is not known. -/
def CalleesKnown (x : LoopArg) : Prop :=
  (∀ fn : LoopFunction, N.fns[x.1]? = some fn → ∀ u ∈ fn.uses x.2, u.inductionVariableSCC = false →
    u.user ≠ .call false) ∧
  ∀ (y : LoopArg) (fn : LoopFunction), N.Passes x y → N.fns[y.1]? = some fn →
    isArgStartOrExitValue fn y.2 ≠ none

/-! ### What a visit adds -/

variable {N} {x y z : LoopArg} {a b : Nat} {maps maps' maps'' : LiveInMaps}
  {C C' S S' : Set LoopArg}

/-- What a visit for argument `a` of the root adds to the maps:

- `constant`: the arguments in `C` are mapped to `a`, whatever they were
  mapped to;
- `other`: the others keep their entries;
- `argIndex`: the number `a` is noted if there is one of them;
- `skipped`: the arguments in `S` are skipped besides. -/
structure Adds (C S : Set LoopArg) (a : Nat) (maps maps' : LiveInMaps) : Prop where
  constant : ∀ y ∈ C, maps'.loopToConstantLiveIns y = some a
  other : ∀ y ∉ C, maps'.loopToConstantLiveIns y = maps.loopToConstantLiveIns y
  argIndex : ∀ b, b ∈ maps'.constantLiveInsArgIndex ↔
    b ∈ maps.constantLiveInsArgIndex ∨ b = a ∧ C.Nonempty
  skipped : ∀ y, y ∈ maps'.loopToSkippedLiveIns ↔ y ∈ maps.loopToSkippedLiveIns ∨ y ∈ S

/-- Nothing is added. -/
theorem Adds.refl : Adds ∅ ∅ a maps maps where
  constant y hy := absurd hy (Set.notMem_empty y)
  other _ _ := rfl
  argIndex b := by simp
  skipped y := by simp

/-- One visit after another for the same argument of the root adds both. -/
theorem Adds.trans (h : Adds C S a maps maps') (h' : Adds C' S' a maps' maps'') :
    Adds (C ∪ C') (S ∪ S') a maps maps'' where
  constant y hy := by
    by_cases hy' : y ∈ C'
    · exact h'.constant y hy'
    · rw [h'.other y hy']
      exact h.constant y (hy.resolve_right hy')
  other y hy := by
    rw [h'.other y fun hC => hy (.inr hC), h.other y fun hC => hy (.inl hC)]
  argIndex b := by
    rw [h'.argIndex, h.argIndex, Set.union_nonempty]
    tauto
  skipped y := by
    rw [h'.skipped, h.skipped, Set.mem_union, or_assoc]

/-- The argument that is visited is skipped. -/
theorem adds_skip (x : LoopArg) : Adds ∅ {x} a maps (maps.skip x) where
  constant y hy := absurd hy (Set.notMem_empty y)
  other _ _ := rfl
  argIndex b := by simp [LiveInMaps.skip]
  skipped y := by simp [LiveInMaps.skip, or_comm]

/-- The argument that is visited is mapped. -/
theorem adds_constant (x : LoopArg) : Adds {x} ∅ a maps (maps.addConstant x a) where
  constant y hy := by
    rw [Set.mem_singleton_iff.mp hy]
    exact Function.update_self _ _ _
  other y hy := Function.update_of_ne hy _ _
  argIndex b := by simp [LiveInMaps.addConstant, or_comm]
  skipped y := by simp [LiveInMaps.addConstant]

/-! ### The reachable arguments -/

variable (N) in
/-- The loop needs the value: it uses it, or passes it on as a bound. -/
def Needed (x : LoopArg) : Prop := N.UsedInLoop x ∨ N.PassedAsBound x

variable (N) in
/-- The arguments that get their value from `x`. -/
def reachable (x : LoopArg) : Set LoopArg := {y | Relation.ReflTransGen N.Passes x y}

variable (N) in
/-- The arguments that get their value from `x` and are needed. -/
def neededFrom (x : LoopArg) : Set LoopArg := {y | y ∈ N.reachable x ∧ N.Needed y}

variable (N) in
/-- What a use of `x` adds to the constant live-ins. -/
def useConstants (x : LoopArg) (u : ArgUse) : Set LoopArg :=
  {y | u.inductionVariableSCC = false ∧ ((∀ i, u.user ≠ .heartbeatCall i) ∧ y = x ∨
    ∃ i, u.user = .heartbeatCall i ∧
      ((∃ fn : LoopFunction, N.fns[x.1 + 1]? = some fn ∧ IsBound fn i) ∧ y = x ∨
        y ∈ N.neededFrom (x.1 + 1, i)))}

variable (N) in
/-- What it adds to the skipped live-ins. -/
def useSkipped (x : LoopArg) (u : ArgUse) : Set LoopArg :=
  {y | u.inductionVariableSCC = false ∧
    ∃ i, u.user = .heartbeatCall i ∧ y ∈ N.reachable (x.1 + 1, i)}

/-- An argument is passed on where its use list has the call. -/
theorem passes_iff {fn : LoopFunction} (hfn : N.fns[x.1]? = some fn) :
    N.Passes x y ↔ y.1 = x.1 + 1 ∧ ∃ u ∈ fn.uses x.2, u.user = .heartbeatCall y.2 := by
  unfold Passes
  rw [N.mem_uses x.1 fn hfn x.2 y.2]
  constructor
  · rintro ⟨hy, fn', hfn', hop⟩
    rw [hfn, Option.some.injEq] at hfn'
    exact ⟨hy, hfn' ▸ hop⟩
  · rintro ⟨hy, hop⟩
    exact ⟨hy, fn, hfn, hop⟩

/-- The loop that is called. -/
theorem exists_callee (h : N.Passes x y) : ∃ fn : LoopFunction, N.fns[y.1]? = some fn := by
  obtain ⟨hy, fn, hfn, hop⟩ := h
  obtain ⟨next, hnext, -⟩ := N.callee x.1 fn hfn y.2 x.2 hop
  exact ⟨next, hy ▸ hnext⟩

/-- The call is not in the induction variable, so its use is not left out. -/
theorem external {fn : LoopFunction} (hfn : N.fns[x.1]? = some fn) {u : ArgUse}
    (hu : u ∈ fn.uses x.2) {i : Nat} (hi : u.user = .heartbeatCall i) :
    u.inductionVariableSCC = false :=
  N.call_external fn (List.mem_of_getElem? hfn) x.2 u hu i hi

/-- What is needed below `x` is what the uses of `x` add. -/
theorem neededFrom_eq {fn : LoopFunction} (hfn : N.fns[x.1]? = some fn) :
    N.neededFrom x = {y | ∃ u ∈ fn.uses x.2, y ∈ N.useConstants x u} := by
  ext y
  constructor
  · rintro ⟨hreach, hneeded⟩
    -- `y` is `x` itself, which is used or passed as a bound, or it is reached through a call
    rcases hreach.cases_head with rfl | ⟨z, hz, hreach⟩
    · rcases hneeded with ⟨fn', hfn', u, hu, hscc, hother⟩ | ⟨z, callee, hz, hcallee, hbound⟩
      · rw [hfn, Option.some.injEq] at hfn'
        subst hfn'
        exact ⟨u, hu, hscc, .inl ⟨hother, rfl⟩⟩
      · obtain ⟨hz1, u, hu, hi⟩ := (passes_iff hfn).mp hz
        exact ⟨u, hu, external hfn hu hi,
          .inr ⟨z.2, hi, .inl ⟨⟨callee, hz1 ▸ hcallee, hbound⟩, rfl⟩⟩⟩
    · obtain ⟨hz1, u, hu, hi⟩ := (passes_iff hfn).mp hz
      have hzeq : (x.1 + 1, z.2) = z := Prod.ext hz1.symm rfl
      exact ⟨u, hu, external hfn hu hi, .inr ⟨z.2, hi, .inr ⟨by rw [hzeq]; exact hreach, hneeded⟩⟩⟩
  · rintro ⟨u, hu, hscc, ⟨hother, rfl⟩ | ⟨i, hi, ⟨⟨callee, hcallee, hbound⟩, rfl⟩ | hy⟩⟩
    · exact ⟨.refl, .inl ⟨fn, hfn, u, hu, hscc, hother⟩⟩
    · exact ⟨.refl, .inr ⟨(y.1 + 1, i), callee, (passes_iff hfn).mpr ⟨rfl, u, hu, hi⟩, hcallee,
        hbound⟩⟩
    · exact ⟨.head ((passes_iff hfn).mpr ⟨rfl, u, hu, hi⟩) hy.1, hy.2⟩

/-- What is reached from `x` is `x` and what its uses skip. -/
theorem reachable_eq {fn : LoopFunction} (hfn : N.fns[x.1]? = some fn) :
    N.reachable x = {x} ∪ {y | ∃ u ∈ fn.uses x.2, y ∈ N.useSkipped x u} := by
  ext y
  constructor
  · intro hreach
    rcases Relation.ReflTransGen.cases_head hreach with rfl | ⟨z, hz, hreach⟩
    · exact .inl rfl
    · obtain ⟨hz1, u, hu, hi⟩ := (passes_iff hfn).mp hz
      have hzeq : (x.1 + 1, z.2) = z := Prod.ext hz1.symm rfl
      exact .inr ⟨u, hu, external hfn hu hi, z.2, hi, by rw [hzeq]; exact hreach⟩
  · rintro (rfl | ⟨u, hu, -, i, hi, hy⟩)
    · exact .refl
    · exact .head ((passes_iff hfn).mpr ⟨rfl, u, hu, hi⟩) hy

/-! ### A visit -/

/-- What a test for `smax` that returns has found. -/
theorem isSmaxOf_eq {v : BoundValue} {arg : Nat} {isSmax : Bool}
    (h : v.isSmaxOf arg = some isSmax) : isSmax = true ↔ v = .smax (.argument arg) := by
  cases v with
  | call known => cases known <;> simp_all [BoundValue.isSmaxOf]
  | _ => simp_all [BoundValue.isSmaxOf, eq_comm]

/-- What a test for the bounds that returns has found. -/
theorem isArgStartOrExitValue_eq {fn : LoopFunction} {arg : Nat} {isBound : Bool}
    (h : isArgStartOrExitValue fn arg = some isBound) : isBound = true ↔ IsBound fn arg := by
  unfold isArgStartOrExitValue at h
  unfold IsBound
  split at h
  · rename_i hdirect
    obtain rfl := Option.some.inj h
    tauto
  · rename_i hdirect
    cases hstart : fn.startValue.isSmaxOf arg with
    | none => simp [hstart] at h
    | some isStart =>
        have hs := isSmaxOf_eq hstart
        -- the exit value is tested only if the start value is not `smax` of the argument
        cases isStart with
        | true =>
            simp [hstart] at h
            subst h
            tauto
        | false =>
            have he := isSmaxOf_eq (by simpa [hstart] using h : fn.exitValue.isSmaxOf arg = _)
            tauto

/-- What one use adds, if the visit of the callee adds what it should. A use
by the call of the next loop adds the argument itself only where the callee
has it as a bound. -/
theorem visitUse_adds {fn : LoopFunction} (hfn : N.fns[x.1]? = some fn)
    (hknown : N.CalleesKnown x) {u : ArgUse} (hu : u ∈ fn.uses x.2)
    {visit : LoopArg → LiveInMaps → Option LiveInMaps}
    (hvisit : ∀ y, N.Passes x y → ∀ maps, ∃ maps', visit y maps = some maps' ∧
      Adds (N.neededFrom y) (N.reachable y) a maps maps') (maps : LiveInMaps) :
    ∃ maps', visitUse N.fns[x.1 + 1]? visit x a maps u = some maps' ∧
      Adds (N.useConstants x u) (N.useSkipped x u) a maps maps' := by
  unfold visitUse
  cases hscc : u.inductionVariableSCC with
  | true =>
      have hC : N.useConstants x u = ∅ := by simp [useConstants, hscc]
      have hS : N.useSkipped x u = ∅ := by simp [useSkipped, hscc]
      exact ⟨maps, rfl, hC ▸ hS ▸ .refl⟩
  | false =>
      -- a call of the next loop function is visited in turn, every other use maps the argument
      cases huser : u.user with
      | heartbeatCall i =>
          have hpass : N.Passes x (x.1 + 1, i) := (passes_iff hfn).mpr ⟨rfl, u, hu, huser⟩
          obtain ⟨callee, hcallee⟩ := exists_callee hpass
          obtain ⟨isBound, hbound⟩ := Option.ne_none_iff_exists'.mp (hknown.2 _ _ hpass hcallee)
          have hiff := isArgStartOrExitValue_eq hbound
          obtain ⟨maps', hmaps', hadds⟩ := hvisit _ hpass
            (if isBound then maps.addConstant x a else maps)
          -- first the argument itself, if it is a bound of the callee; then the visit of the
          -- callee
          have hfirst : Adds {y | isBound = true ∧ y = x} ∅ a maps
              (if isBound then maps.addConstant x a else maps) := by
            cases isBound with
            | true => simpa using adds_constant x
            | false => simpa using Adds.refl
          have hC : N.useConstants x u = {y | isBound = true ∧ y = x} ∪
              N.neededFrom (x.1 + 1, i) := by
            have hcallee' : ∀ fn, N.fns[x.1 + 1]? = some fn ↔ callee = fn := by
              intro fn
              rw [hcallee, Option.some.injEq]
            ext y
            simp [useConstants, hscc, huser, hcallee', hiff]
          have hS : N.useSkipped x u = ∅ ∪ N.reachable (x.1 + 1, i) := by
            ext y
            simp [useSkipped, hscc, huser]
          refine ⟨maps', ?_, hC ▸ hS ▸ hfirst.trans hadds⟩
          simp [hcallee, hbound, hmaps']
      | call known =>
          cases known with
          | false => exact absurd huser (hknown.1 fn hfn u hu hscc)
          | true =>
              have hC : N.useConstants x u = {x} := by
                ext y
                simp [useConstants, hscc, huser]
              have hS : N.useSkipped x u = ∅ := by simp [useSkipped, huser]
              exact ⟨_, rfl, hC ▸ hS ▸ adds_constant x⟩
      | instruction =>
          have hC : N.useConstants x u = {x} := by
            ext y
            simp [useConstants, hscc, huser]
          have hS : N.useSkipped x u = ∅ := by simp [useSkipped, huser]
          exact ⟨_, rfl, hC ▸ hS ▸ adds_constant x⟩

/-- What a part of the use list adds: the union of what its uses add. The
order of the uses does not matter to the sets. -/
theorem foldlM_visitUse {fn : LoopFunction} (hfn : N.fns[x.1]? = some fn)
    (hknown : N.CalleesKnown x) {visit : LoopArg → LiveInMaps → Option LiveInMaps}
    (hvisit : ∀ y, N.Passes x y → ∀ maps, ∃ maps', visit y maps = some maps' ∧
      Adds (N.neededFrom y) (N.reachable y) a maps maps') (us : List ArgUse)
    (hus : ∀ u ∈ us, u ∈ fn.uses x.2) (maps : LiveInMaps) :
    ∃ maps', us.foldlM (visitUse N.fns[x.1 + 1]? visit x a) maps = some maps' ∧
      Adds {y | ∃ u ∈ us, y ∈ N.useConstants x u} {y | ∃ u ∈ us, y ∈ N.useSkipped x u} a
        maps maps' := by
  -- along the use list, with the sets that each use adds
  induction us generalizing maps with
  | nil => exact ⟨maps, rfl, by simpa using Adds.refl⟩
  | cons u us ih =>
      obtain ⟨maps₁, hmaps₁, hadds₁⟩ :=
        visitUse_adds hfn hknown (hus u List.mem_cons_self) hvisit maps
      obtain ⟨maps₂, hmaps₂, hadds₂⟩ := ih (fun v hv => hus v (List.mem_cons_of_mem u hv)) maps₁
      refine ⟨maps₂, by simp [hmaps₁, hmaps₂], ?_⟩
      have hC : {y | ∃ v ∈ u :: us, y ∈ N.useConstants x v} =
          N.useConstants x u ∪ {y | ∃ v ∈ us, y ∈ N.useConstants x v} := by
        ext y
        simp
      have hS : {y | ∃ v ∈ u :: us, y ∈ N.useSkipped x v} =
          N.useSkipped x u ∪ {y | ∃ v ∈ us, y ∈ N.useSkipped x v} := by
        ext y
        simp
      exact hC ▸ hS ▸ hadds₁.trans hadds₂

/-- The functions from a level on. -/
theorem drop_eq_cons {l : Nat} {fn fn' : LoopFunction} {rest : List LoopFunction}
    (hrest : N.fns.drop l = fn' :: rest) (hfn : N.fns[l]? = some fn) :
    fn = fn' ∧ N.fns.drop (l + 1) = rest ∧ rest.head? = N.fns[l + 1]? := by
  have hhead : (N.fns.drop l)[0]? = some fn' := by rw [hrest]; rfl
  have htail : N.fns.drop (l + 1) = rest := by
    rw [← List.drop_drop, hrest]
    rfl
  rw [List.getElem?_drop, Nat.add_zero, hfn, Option.some.injEq] at hhead
  exact ⟨hhead, htail, by rw [← htail, List.head?_drop]⟩

/-- A visit maps the arguments that get their value from `x` and are needed,
and skips all that get it. The induction is on the functions from this level
on. -/
theorem constantLiveInToLoop_adds (rest : List LoopFunction) {fn : LoopFunction}
    (hrest : N.fns.drop x.1 = rest) (hfn : N.fns[x.1]? = some fn)
    (hknown : ∀ y ∈ N.reachable x, N.CalleesKnown y) (maps : LiveInMaps) :
    ∃ maps', constantLiveInToLoop rest x a maps = some maps' ∧
      Adds (N.neededFrom x) (N.reachable x) a maps maps' := by
  -- The induction is on the functions from this level on: the visit of a use goes to the next
  -- one.
  induction rest generalizing x fn maps with
  | nil =>
      have hlen : N.fns.length ≤ x.1 := List.drop_eq_nil_iff.mp hrest
      rw [List.getElem?_eq_none hlen] at hfn
      cases hfn
  | cons fn' rest ih =>
      obtain ⟨rfl, htail, hnext⟩ := drop_eq_cons hrest hfn
      have hvisit : ∀ y, N.Passes x y → ∀ maps, ∃ maps',
          constantLiveInToLoop rest y a maps = some maps' ∧
            Adds (N.neededFrom y) (N.reachable y) a maps maps' := by
        intro y hy maps
        obtain ⟨callee, hcallee⟩ := exists_callee hy
        exact ih (by rw [hy.1, htail]) hcallee (fun z hz => hknown z (.head hy hz)) maps
      obtain ⟨maps', hmaps', hadds⟩ := foldlM_visitUse hfn (hknown x .refl) hvisit
        (fn.uses x.2) (fun _ hu => hu) (maps.skip x)
      refine ⟨maps', ?_, ?_⟩
      · rw [constantLiveInToLoop, hnext]
        split
        · -- an argument without uses is skipped before the loop, which would add nothing
          rename_i hzero
          rw [List.length_eq_zero_iff.mp hzero] at hmaps'
          exact hmaps'
        · exact hmaps'
      · have hskip : Adds ∅ {x} a maps (maps.skip x) := adds_skip x
        have htotal := hskip.trans hadds
        rw [Set.empty_union, ← neededFrom_eq hfn, ← reachable_eq hfn] at htotal
        exact htotal

/-- The visit of a use that succeeds. -/
theorem known_of_visitUse {u : ArgUse} {callee : Option LoopFunction}
    {visit : LoopArg → LiveInMaps → Option LiveInMaps}
    (h : visitUse callee visit x a maps u = some maps') (hscc : u.inductionVariableSCC = false) :
    u.user ≠ .call false ∧ ∀ i, u.user = .heartbeatCall i → ∃ fn maps₀,
      callee = some fn ∧ isArgStartOrExitValue fn i ≠ none ∧
        visit (x.1 + 1, i) maps₀ = some maps' := by
  unfold visitUse at h
  rw [hscc] at h
  constructor
  · intro huser
    rw [huser] at h
    cases h
  · intro i huser
    rw [huser] at h
    simp only [Bool.false_eq_true, if_false, Option.bind_eq_bind, Option.bind_eq_some_iff] at h
    obtain ⟨fn, hfn, isBound, hbound, hvisit⟩ := h
    exact ⟨fn, _, hfn, by rw [hbound]; exact nofun, hvisit⟩

/-- A visit that succeeds has met known callees only. It is the other
direction: the analysis does not skip any use on its way. -/
theorem known_of_constantLiveInToLoop (rest : List LoopFunction) {fn : LoopFunction}
    (hrest : N.fns.drop x.1 = rest) (hfn : N.fns[x.1]? = some fn)
    (h : constantLiveInToLoop rest x a maps = some maps') :
    ∀ y ∈ N.reachable x, N.CalleesKnown y := by
  induction rest generalizing x fn maps maps' with
  | nil => cases h
  | cons fn' rest ih =>
      obtain ⟨rfl, htail, hnext⟩ := drop_eq_cons hrest hfn
      rw [constantLiveInToLoop] at h
      -- every turn of the loop over the uses has succeeded, from some maps
      have hall : ∀ u ∈ fn.uses x.2, ∃ c c', visitUse rest.head?
          (fun arg maps => constantLiveInToLoop rest arg a maps) x a c u = some c' := by
        split at h
        · rename_i hzero
          rw [List.length_eq_zero_iff.mp hzero]
          exact fun u hu => absurd hu List.not_mem_nil
        · exact Partial.exists_of_foldlM h
      -- each use of `x` itself has shown its callee, and so has each bound it was compared with
      have hself : N.CalleesKnown x := by
        constructor
        · intro fn₁ hfn₁ u hu hscc
          rw [hfn, Option.some.injEq] at hfn₁
          subst hfn₁
          obtain ⟨c, c', hc⟩ := hall u hu
          exact (known_of_visitUse hc hscc).1
        · intro y callee hy hcallee
          obtain ⟨hy1, u, hu, huser⟩ := (passes_iff hfn).mp hy
          obtain ⟨c, c', hc⟩ := hall u hu
          obtain ⟨fn₂, _, hfn₂, hbound, -⟩ :=
            (known_of_visitUse hc (external hfn hu huser)).2 _ huser
          rw [hnext, ← hy1, hcallee, Option.some.injEq] at hfn₂
          exact hfn₂ ▸ hbound
      intro y hy
      rcases Relation.ReflTransGen.cases_head hy with rfl | ⟨z, hz, hreach⟩
      · exact hself
      · obtain ⟨hz1, u, hu, huser⟩ := (passes_iff hfn).mp hz
        obtain ⟨c, c', hc⟩ := hall u hu
        obtain ⟨_, _, -, -, hvisit⟩ := (known_of_visitUse hc (external hfn hu huser)).2 _ huser
        obtain ⟨callee, hcallee⟩ := exists_callee hz
        have hzeq : (x.1 + 1, z.2) = z := Prod.ext hz1.symm rfl
        rw [hzeq] at hvisit
        exact ih (by rw [hz1, htail]) hcallee hvisit y hreach

/-! ### The whole analysis -/

/-- An operand of a call comes from one argument. -/
theorem Passes.unique (h : N.Passes x z) (h' : N.Passes y z) : x = y := by
  obtain ⟨hz, fn, hfn, hop⟩ := h
  obtain ⟨hz', fn', hfn', hop'⟩ := h'
  have hl : x.1 = y.1 := by omega
  rw [hl, hfn', Option.some.injEq] at hfn
  subst hfn
  rw [hop', Option.some.injEq, CallOperand.argument.injEq] at hop
  exact Prod.ext hl hop.symm

/-- Values are passed to later levels only. -/
theorem level_le (h : Relation.ReflTransGen N.Passes x y) : x.1 ≤ y.1 := by
  induction h with
  | refl => exact Nat.le_refl _
  | tail _ hpass ih =>
      have := hpass.1
      omega

/-- A value comes from one argument of the root. -/
theorem reachable_unique {a b : Nat} (h : Relation.ReflTransGen N.Passes (0, a) x)
    (h' : Relation.ReflTransGen N.Passes (0, b) x) : a = b := by
  induction h with
  | refl =>
      rcases h'.cases_tail with heq | ⟨y, hy, hpass⟩
      · exact congrArg Prod.snd heq
      · exact absurd hpass.1 (Nat.succ_ne_zero _).symm
  | @tail y z hy hpass ih =>
      rcases h'.cases_tail with heq | ⟨y', hy', hpass'⟩
      · rw [heq] at hpass
        exact absurd hpass.1 (Nat.succ_ne_zero _).symm
      · exact ih (hpass.unique hpass' ▸ hy')

variable (N) in
/-- The maps after the arguments of the root below `m`:

- `constant`: an argument is mapped to `a` if it is needed and its value comes
  from there;
- `argIndex`: the numbers of which some argument needs the value;
- `skipped`: all arguments whose value comes from one of these. -/
structure Analysed (m : Nat) (maps : LiveInMaps) : Prop where
  constant : ∀ x a, maps.loopToConstantLiveIns x = some a ↔ a < m ∧ x ∈ N.neededFrom (0, a)
  argIndex : ∀ a, a ∈ maps.constantLiveInsArgIndex ↔ a < m ∧ (N.neededFrom (0, a)).Nonempty
  skipped : ∀ x, x ∈ maps.loopToSkippedLiveIns ↔ ∃ a < m, x ∈ N.reachable (0, a)

/-- Before the first argument nothing is mapped. -/
theorem analysed_empty : N.Analysed 0 .empty where
  constant x a := by simp [LiveInMaps.empty]
  argIndex a := by simp [LiveInMaps.empty]
  skipped x := by simp [LiveInMaps.empty]

/-- The visit of the next argument of the root adds what gets its value from
it. Nothing is overwritten, since an argument has one operand and thus gets
its value from one argument of the root. -/
theorem Analysed.step {m : Nat} (h : N.Analysed m maps)
    (hadds : Adds (N.neededFrom (0, m)) (N.reachable (0, m)) m maps maps') :
    N.Analysed (m + 1) maps' where
  constant x a := by
    -- an argument that is needed from `m` was not mapped before, since a value comes from one
    -- argument of the root
    by_cases hx : x ∈ N.neededFrom (0, m)
    · rw [hadds.constant x hx, Option.some.injEq]
      constructor
      · rintro rfl
        exact ⟨Nat.lt_succ_self m, hx⟩
      · rintro ⟨-, hxa⟩
        exact reachable_unique hx.1 hxa.1
    · rw [hadds.other x hx, h.constant]
      constructor
      · rintro ⟨ha, hxa⟩
        exact ⟨Nat.lt_succ_of_lt ha, hxa⟩
      · rintro ⟨ha, hxa⟩
        refine ⟨Nat.lt_of_le_of_ne (Nat.le_of_lt_succ ha) ?_, hxa⟩
        rintro rfl
        exact hx hxa
  argIndex a := by
    rw [hadds.argIndex, h.argIndex, Nat.lt_succ_iff_lt_or_eq]
    constructor
    · rintro (⟨ha, hne⟩ | ⟨rfl, hne⟩)
      · exact ⟨.inl ha, hne⟩
      · exact ⟨.inr rfl, hne⟩
    · rintro ⟨ha | rfl, hne⟩
      · exact .inl ⟨ha, hne⟩
      · exact .inr ⟨rfl, hne⟩
  skipped x := by
    rw [hadds.skipped, h.skipped]
    constructor
    · rintro (⟨a, ha, hx⟩ | hx)
      · exact ⟨a, Nat.lt_succ_of_lt ha, hx⟩
      · exact ⟨m, Nat.lt_succ_self m, hx⟩
    · rintro ⟨a, ha, hx⟩
      rcases Nat.lt_succ_iff_lt_or_eq.mp ha with ha | rfl
      · exact .inl ⟨a, ha, hx⟩
      · exact .inr hx

/-- The first function is the root. -/
theorem fns_zero : N.fns[0]? = some N.root := rfl

/-- With known callees the analysis goes through, argument by argument. -/
theorem exists_analysed (hknown : ∀ x a, N.Carried x a → N.CalleesKnown x) {m : Nat}
    (hm : m ≤ N.root.argTypes.length) : ∃ maps, (List.range m).foldlM
      (fun maps argIndex => constantLiveInToLoop N.fns (0, argIndex) argIndex maps)
      LiveInMaps.empty = some maps ∧ N.Analysed m maps := by
  induction m with
  | zero => exact ⟨.empty, rfl, analysed_empty⟩
  | succ m ih =>
      obtain ⟨maps, hmaps, han⟩ := ih (Nat.le_of_succ_le hm)
      obtain ⟨maps', hmaps', hadds⟩ := constantLiveInToLoop_adds (x := (0, m)) (a := m) N.fns rfl
        fns_zero (fun y hy => hknown y m ⟨hm, hy⟩) maps
      exact ⟨maps', by simp [List.range_succ, hmaps, hmaps'], han.step hadds⟩

/-- The analysis returns if and only if it meets known callees only. -/
theorem performConstantLiveInAnalysis_iff :
    (∃ maps, performConstantLiveInAnalysis N = some maps) ↔
      ∀ x a, N.Carried x a → N.CalleesKnown x := by
  constructor
  · rintro ⟨maps, h⟩ x a ⟨ha, hx⟩
    obtain ⟨_, _, hvisit⟩ := Partial.exists_of_foldlM h a (List.mem_range.mpr ha)
    exact known_of_constantLiveInToLoop (x := (0, a)) N.fns rfl fns_zero hvisit x hx
  · intro hknown
    obtain ⟨maps, hmaps, -⟩ := exists_analysed hknown (Nat.le_refl _)
    exact ⟨maps, hmaps⟩

/-- An analysis that returns has found the live-ins of all arguments. -/
theorem analysed_of_perform (h : performConstantLiveInAnalysis N = some maps) :
    N.Analysed N.root.argTypes.length maps := by
  obtain ⟨maps', hmaps', han⟩ :=
    exists_analysed (performConstantLiveInAnalysis_iff.mp ⟨maps, h⟩) (Nat.le_refl _)
  obtain rfl : maps' = maps := Option.some.inj (hmaps'.symm.trans h)
  exact han

end LoopChain

/-! ### Indices -/

/-- Indices are given in the order of the iteration, from `n` on. A number
that is not iterated keeps the index it had. -/
theorem foldl_index (order : List Nat) (m : Nat → Option Nat) (n : Nat) (hnodup : order.Nodup)
    (a i : Nat) : ((order.foldl (fun (state : (Nat → Option Nat) × Nat) argIndex =>
      (Function.update state.1 argIndex (some state.2), state.2 + 1)) (m, n)).1 a = some i ↔
        (a ∈ order ∧ ∃ j, order[j]? = some a ∧ i = n + j) ∨ a ∉ order ∧ m a = some i) := by
  induction order generalizing m n with
  | nil => simp
  | cons b order ih =>
      obtain ⟨hb, hnodup⟩ := List.nodup_cons.mp hnodup
      rw [List.foldl_cons, ih _ _ hnodup]
      -- the number at the head gets the index `n` and is not met again; the others are one place
      -- further on
      by_cases ha : a = b
      · subst ha
        simp only [hb, false_and, not_false_eq_true, Function.update_self, Option.some.injEq,
          true_and, false_or, List.mem_cons, not_true_eq_false, or_false]
        constructor
        · rintro rfl
          exact ⟨0, rfl, rfl⟩
        · rintro ⟨j, hj, rfl⟩
          cases j with
          | zero => rfl
          | succ j =>
              rw [List.getElem?_cons_succ] at hj
              exact absurd (List.mem_of_getElem? hj) hb
      · simp only [List.mem_cons, ha, false_or, Function.update_of_ne ha]
        refine or_congr_left (and_congr_right fun _ => ?_)
        constructor
        · rintro ⟨j, hj, rfl⟩
          exact ⟨j + 1, hj, by omega⟩
        · rintro ⟨j, hj, rfl⟩
          cases j with
          | zero => exact absurd (Option.some.inj hj).symm ha
          | succ j => exact ⟨j, hj, by omega⟩

/-- A number has the index of its place in the order. -/
theorem constantLiveInsArgIndexToIndex_iff {order : List Nat} (hnodup : order.Nodup) {a i : Nat} :
    constantLiveInsArgIndexToIndex order a = some i ↔ order[i]? = some a := by
  rw [constantLiveInsArgIndexToIndex, foldl_index order _ 0 hnodup]
  constructor
  · rintro (⟨-, j, hj, rfl⟩ | ⟨-, h⟩)
    · rwa [Nat.zero_add]
    · cases h
  · intro h
    exact .inl ⟨List.mem_of_getElem? h, i, h, (Nat.zero_add i).symm⟩

/-! ### Round trip -/

/-- A word that is written at one place only. -/
theorem storeConstantLiveIns_eq {entries : List (Nat × Nat)} {args : Nat → ArgValue}
    {alloca : Nat → BitVec 64} {a i : Nat} (hmem : (a, i) ∈ entries)
    (hunique : ∀ b, (b, i) ∈ entries → b = a) (array : Nat → BitVec 64) :
    storeConstantLiveIns entries args alloca array i = encodeLiveIn (alloca a) (args a) := by
  have hentry : ∀ e ∈ entries, e.2 = i → e = (a, i) := by
    rintro ⟨b, j⟩ he rfl
    rw [hunique b he]
  exact Partial.foldl_update hmem hentry array

/-- An integer of at most 64 bits comes back from a word. -/
theorem signExtend_signExtend {bits : Nat} (hbits : bits ≤ 64) (v : BitVec bits) :
    (v.signExtend 64).signExtend bits = v := by
  refine BitVec.eq_of_getLsbD_eq fun i hi => ?_
  have h64 : i < 64 := Nat.lt_of_lt_of_le hi hbits
  rw [BitVec.getLsbD_signExtend, BitVec.getLsbD_signExtend]
  simp only [hi, h64, decide_true, if_true, Bool.true_and]

/-- Pointers, and integers of at most 64 bits, survive the casts. -/
theorem decodeLiveIn_encodeLiveIn {memory : BitVec 64 → BitVec 64} {alloca : BitVec 64}
    {v : ArgValue} {t : ArgType} (hv : v.type = t)
    (ht : t = .pointer ∨ ∃ bits ≤ 64, t = .integer bits) :
    decodeLiveIn memory (encodeLiveIn alloca v) t = v := by
  cases v with
  | pointer p => subst hv; rfl
  | integer bits n =>
      subst hv
      rcases ht with ht | ⟨bits', hbits, ht⟩
      · cases ht
      · obtain rfl := ArgType.integer.inj ht
        rw [ArgValue.type, decodeLiveIn, encodeLiveIn, signExtend_signExtend hbits]
  | floatOrDouble v =>
      subst hv
      rcases ht with ht | ⟨bits', hbits, ht⟩ <;> cases ht

namespace LoopChain

variable {N : LoopChain} {maps : LiveInMaps} {x : LoopArg} {a : Nat}

/-- The calls are well typed. -/
theorem Carried.argType (h : N.Carried x a) : N.argType x = N.root.argTypes[a]? := by
  obtain ⟨-, hx⟩ := h
  induction hx with
  | refl => rfl
  | @tail y z _ hpass ih =>
      obtain ⟨hz, fn, hfn, hop⟩ := hpass
      obtain ⟨next, hnext, htype⟩ := N.callee y.1 fn hfn z.2 y.2 hop
      have hnext' : N.fns[z.1]? = some next := by rw [hz]; exact hnext
      rw [← ih, LoopChain.argType, LoopChain.argType, hnext', hfn]
      exact htype

/-- What the analysis finds is delivered, in every order of the sets. The
array is filled and read by the same indices, so what order they were given in
does not matter. -/
theorem delivered_of_perform (h : performConstantLiveInAnalysis N = some maps) :
    N.Delivered maps := by
  have han := analysed_of_perform h
  have hconst : ∀ x a, maps.loopToConstantLiveIns x = some a ↔ N.Carried x a ∧ N.Needed x := by
    intro x a
    rw [han.constant]
    exact ⟨fun ⟨ha, hx, hn⟩ => ⟨⟨ha, hx⟩, hn⟩, fun ⟨⟨ha, hx⟩, hn⟩ => ⟨ha, hx, hn⟩⟩
  have hmem : ∀ x a, maps.loopToConstantLiveIns x = some a →
      a ∈ maps.constantLiveInsArgIndex := by
    intro x a hx
    obtain ⟨ha, hneeded⟩ := (han.constant x a).mp hx
    exact (han.argIndex a).mpr ⟨ha, x, hneeded⟩
  -- every constant live-in has its number in the set, and thus an index
  have hindexed : ∀ order : List Nat, order.Nodup →
      (∀ a, a ∈ order ↔ a ∈ maps.constantLiveInsArgIndex) → ∀ x a,
      maps.loopToConstantLiveIns x = some a →
      ∃ i, constantLiveInsArgIndexToIndex order a = some i := by
    intro order hnodup horder x a hx
    obtain ⟨i, hi⟩ := List.mem_iff_getElem?.mp ((horder a).mpr (hmem x a hx))
    exact ⟨i, (constantLiveInsArgIndexToIndex_iff hnodup).mpr hi⟩
  refine ⟨fun x a hx hn => (hconst x a).mpr ⟨hx, hn⟩, fun x a hx => ((hconst x a).mp hx).1,
    fun order hnodup horder => ⟨hindexed order hnodup horder, ?_, ?_⟩, ?_⟩
  · intro a b i ha hb
    rw [constantLiveInsArgIndexToIndex_iff hnodup] at ha hb
    exact Option.some.inj (ha.symm.trans hb)
  · intro i
    simp only [constantLiveInsArgIndexToIndex_iff hnodup]
    constructor
    · rintro ⟨a, ha⟩
      exact (List.getElem?_eq_some_iff.mp ha).1
    · intro hi
      exact ⟨_, List.getElem?_eq_getElem hi⟩
  · intro order entries hnodup horder hentries args alloca array memory hargs x a t hx ht hint
    obtain ⟨i, hi⟩ := hindexed order hnodup horder x a hx
    -- no other number has this index, so nothing overwrites the word
    have hword : storeConstantLiveIns entries args alloca array i =
        encodeLiveIn (alloca a) (args a) := by
      refine storeConstantLiveIns_eq ((hentries a i).mpr hi) (fun b hb => ?_) array
      rw [hentries, constantLiveInsArgIndexToIndex_iff hnodup] at hb
      rw [constantLiveInsArgIndexToIndex_iff hnodup] at hi
      exact Option.some.inj (hb.symm.trans hi)
    have hroot : N.root.argTypes[a]? = some t :=
      ((hconst x a).mp hx).1.argType.symm.trans ht
    rw [loadConstantLiveIn, hx, Option.getD_some, hi, Option.getD_some, hword]
    exact decodeLiveIn_encodeLiveIn (hargs a t hroot) hint

end LoopChain

/-- The constant live-ins of a nest are found and delivered if and only if the
analysis meets no call through a pointer where it reads the name of the
callee. -/
theorem constant_live_ins_iff (N : LoopChain) :
    (∃ maps, performConstantLiveInAnalysis N = some maps ∧ N.Delivered maps) ↔
      ∀ x a, N.Carried x a → N.CalleesKnown x := by
  rw [← LoopChain.performConstantLiveInAnalysis_iff]
  constructor
  · rintro ⟨maps, hmaps, -⟩
    exact ⟨maps, hmaps⟩
  · rintro ⟨maps, hmaps⟩
    exact ⟨maps, hmaps, LoopChain.delivered_of_perform hmaps⟩

/-- One loop that passes its argument to a function through a pointer. -/
def pointerCallChain : LoopChain where
  root := ⟨[.integer 64], fun k => if k = 0 then [⟨.call false, false⟩] else [], .other, .other, []⟩
  nested := []
  mem_uses l fn hfn k i := by
    cases l with
    | succ l => cases hfn
    | zero =>
        obtain rfl := Option.some.inj hfn
        by_cases hk : k = 0 <;> simp [hk]
  call_external fn hfn k u hu i hi := by
    obtain rfl := List.mem_singleton.mp hfn
    by_cases hk : k = 0 <;> simp_all
  callee l fn hfn i k hop := by
    cases l with
    | succ l => cases hfn
    | zero =>
        obtain rfl := Option.some.inj hfn
        cases hop

/-- The name of the callee is read although it is not known. -/
theorem pointer_call_aborts : ¬ ∃ maps, performConstantLiveInAnalysis pointerCallChain = some maps ∧
    pointerCallChain.Delivered maps := by
  rintro ⟨maps, hmaps, -⟩
  have hnone : performConstantLiveInAnalysis pointerCallChain = none := rfl
  rw [hnone] at hmaps
  cases hmaps

end HeartbeatCompiler
