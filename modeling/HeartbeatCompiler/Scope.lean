import HeartbeatCompiler.Stack
import Mathlib.Data.Set.Disjoint
import Mathlib.Data.Set.Lattice
import Mathlib.Order.CompletePartialOrder

/-!
# `HeartbeatCompiler.Scope`: what a branch owns

A branch of the run owns the frames of the activations it creates, one context with its task
memory, and some slots of reduction arrays that were allocated by others. It reads the
environments in the frames of the activations that are suspended below it, and it changes
nothing outside its own. `Scope.mod` and `Scope.rel` are the two sets of locations; they
shrink along a call (`Scope.Le`) and do not touch across a fork (`Scope.Apart`).

Only the slots of the levels in `T` are accounted for. Those of the other levels may be
changed by every branch and are relied on by none.
-/

set_option autoImplicit false

namespace HeartbeatCompiler

/-- The block lies in the frame of an activation in `X`. -/
def Block.In (q : Block) (X : Set Path) : Prop := ∃ ρ ∈ X, q.owner = some ρ

/-- The block lies in the frame of an activation in `X` or of the original
function. -/
def Block.Above (q : Block) (X : Set Path) : Prop := ∀ ρ, q.owner = some ρ → ρ ∈ X

/-- A block in the frame of an activation in `X` is in one of every larger
set. -/
theorem Block.In.mono {q : Block} {X Y : Set Path} (h : q.In X) (hXY : X ⊆ Y) : q.In Y :=
  h.imp fun _ hρ => ⟨hXY hρ.1, hρ.2⟩

/-- A block in the frame of a caller is in one of the two parts of a union. -/
theorem Block.Above.of_subset {q : Block} {X Y Z : Set Path} (h : q.Above X)
    (hX : X ⊆ Y ∪ Z) : q.In Y ∨ q.Above Z := by
  cases ho : q.owner with
  | none => exact .inr fun ρ hρ => by rw [ho] at hρ; cases hρ
  | some ρ =>
      rcases hX (h ρ ho) with hρ | hρ
      · exact .inl ⟨ρ, hρ, ho⟩
      · exact .inr fun ρ' hρ' => by
          rw [ho] at hρ'
          cases hρ'
          exact hρ

/-- The same where the block may also lie in the frame of the original
function. -/
theorem Block.Above.mono {q : Block} {X Y : Set Path} (h : q.Above X) (hXY : X ⊆ Y) :
    q.Above Y := fun ρ hρ => hXY (h ρ hρ)

/-- A block in the frame of `π` is in the frame of an activation on the stack
of `π`. -/
theorem Block.above_of_owner {q : Block} {π : Path} (h : q.owner = some π) :
    q.Above {ρ | ρ <:+ π} := by
  intro ρ hρ
  rw [h] at hρ
  cases hρ
  exact List.suffix_rfl

/-- A block in the frame of an activation on the stack of `π` is not in a
frame above `π`. -/
theorem Block.Above.not_in {q : Block} {X : Set Path} {π : Path}
    (h : q.Above {ρ | ρ <:+ π}) (hX : ∀ ρ ∈ X, π.length < ρ.length) : ¬ q.In X := by
  rintro ⟨ρ, hρ, ho⟩
  have h₁ := (h ρ ho).length_le
  have h₂ := hX ρ hρ
  omega

/-- The blocks with the reduction arrays that a row leads to. A row without an
entry is said to lead to the original function's; nothing is read through it. -/
def arrays (rows : Nat → Row) (l : Nat) : Block :=
  (rows l).liveOut.elim .original LiveOutPtr.block

/-- The slots for the kids of the suspended levels: slot 0 of every level that
the current branch may still have to run, slot 1 where the current slice is
the one that may be split. A promotion inside of the branch is what may write
them. -/
def PendingSlot (r : Nat) (π : Path) (v : List Nat) (rows : Nat → Row) (x : Nat × Block × Nat) :
    Prop :=
  x.1 < v.length ∧ x.2.1 = arrays rows x.1 ∧
    (x.2.2 = 0 ∧ π.low r ≤ x.1 ∨ x.2.2 = 1 ∧ π.base r ≤ x.1)

/-- What a proof keeps track of: the levels whose slots it follows, those of
them where it also follows the values in the slots, the levels outside which
it shows that no slot is accessed, and whether there are promotions. -/
structure Tracked where
  levels : Set Nat
  exact : Set Nat
  exact_subset : exact ⊆ levels
  accessed : Set Nat
  promotes : Prop

/-- The values are followed wherever the slots are, and every slot may be
accessed. -/
def Tracked.exactly (levels : Set Nat) (promotes : Prop) : Tracked :=
  ⟨levels, levels, Set.Subset.rfl, Set.univ, promotes⟩

/-- A level is in the tracking if its slots are. -/
instance : Membership Nat Tracked := ⟨fun T l => l ∈ T.levels⟩

/-- The slots that are accessed and not accounted for. They may race, and what
is read from them is unknown. -/
def Tracked.free (T : Tracked) : Set Loc := fun x =>
  match x with
  | .reduction l _ _ => l ∉ T ∧ l ∈ T.accessed
  | _ => False

/-- What a branch owns: the frames of the activations that it will call, the
context and the task memory it works in, and the slots of its callers it is to
write. The frames of its callers are read only. -/
structure Scope where
  own : Set Path
  callers : Set Path
  task : Path
  slots : Set (Nat × Block × Nat)

namespace Scope

variable (T : Tracked)

/-- The locations a branch may change: its own frames, its context and task
memory, and the slots it was handed. Slots of levels that are not tracked may
be changed by anyone. -/
def mod (S : Scope) : Set Loc := fun x =>
  match x with
  | .cxts c => c = S.task ∨ c ∈ S.own
  | .tmem t => t = S.task ∨ t ∈ S.own
  | .liveInEnv q => q.In S.own
  | .liveOutEnv q => q.In S.own
  | .reduction l q i => l ∉ T ∨ q.In S.own ∨ (l, q, i) ∈ S.slots
  | .alive ρ => ρ ∈ S.own

/-- The locations a branch relies on: those it may change, the environments of
its callers and that the frames of these are alive. No branch beside it may
change them. -/
def rel (S : Scope) : Set Loc := fun x =>
  match x with
  | .cxts c => c = S.task ∨ c ∈ S.own
  | .tmem t => t = S.task ∨ t ∈ S.own
  | .liveInEnv q => q.In S.own ∨ q.Above S.callers
  | .liveOutEnv q => q.In S.own ∨ q.Above S.callers
  | .reduction l q i => l ∈ T ∧ (q.In S.own ∨ (l, q, i) ∈ S.slots)
  | .alive ρ => ρ ∈ S.own ∨ ρ ∈ S.callers

/-- `S` is the scope of a call made in `S'`:

- `own`: the frames of the callee are the caller's to give;
- `callers`: the caller itself is among the callers of the callee;
- `task`: the context is the same, or one that the caller owns;
- `slots`: the slots that the callee was handed are the caller's, or were
  handed to it. -/
structure Le (S S' : Scope) : Prop where
  own : S.own ⊆ S'.own
  callers : S.callers ⊆ S'.own ∪ S'.callers
  task : S.task = S'.task ∨ S.task ∈ S'.own
  slots : ∀ l q i, l ∈ T → (l, q, i) ∈ S.slots → q.In S'.own ∨ (l, q, i) ∈ S'.slots

/-- Two branches of a fork:

- `own`, `callers`: their frames are different ones, and neither is a caller
  of the other;
- `task`: they work in different contexts;
- `slots`, `slots'`: they were handed different slots, which lie in the frame
  of neither. -/
structure Apart (S S' : Scope) : Prop where
  own : Disjoint S.own S'.own
  callers : Disjoint S.own S'.callers
  task : S.task ≠ S'.task ∧ S.task ∉ S'.own ∧ S'.task ∉ S.own
  slots : ∀ l q i, l ∈ T → (l, q, i) ∈ S.slots → ¬ q.In S'.own ∧ (l, q, i) ∉ S'.slots
  slots' : ∀ l q i, l ∈ T → (l, q, i) ∈ S'.slots → ¬ q.In S.own

variable {T} {S S' : Scope}

/-- A smaller scope may write less. -/
theorem Le.mod_subset (h : Le T S S') : S.mod T ⊆ S'.mod T := by
  intro x hx
  cases x with
  | cxts c => exact hx.elim (fun e => h.task.imp e.trans fun hc => e ▸ hc) fun hc => .inr (h.own hc)
  | tmem t => exact hx.elim (fun e => h.task.imp e.trans fun hc => e ▸ hc) fun hc => .inr (h.own hc)
  | liveInEnv q => exact Block.In.mono hx h.own
  | liveOutEnv q => exact Block.In.mono hx h.own
  | reduction l q i =>
      by_cases hl : l ∈ T
      · rcases hx with hx | hx | hx
        · exact absurd hl hx
        · exact .inr (.inl (hx.mono h.own))
        · exact .inr (h.slots l q i hl hx)
      · exact .inl hl
  | alive ρ => exact h.own hx

/-- A smaller scope may read less: what it reads, the larger one may read as
well. -/
theorem Le.rel_subset (h : Le T S S') : S.rel T ⊆ S'.rel T := by
  intro x hx
  cases x with
  | cxts c => exact hx.elim (fun e => h.task.imp e.trans fun hc => e ▸ hc) fun hc => .inr (h.own hc)
  | tmem t => exact hx.elim (fun e => h.task.imp e.trans fun hc => e ▸ hc) fun hc => .inr (h.own hc)
  | liveInEnv q =>
      exact hx.elim (fun hq => .inl (hq.mono h.own)) fun hq => hq.of_subset h.callers
  | liveOutEnv q =>
      exact hx.elim (fun hq => .inl (hq.mono h.own)) fun hq => hq.of_subset h.callers
  | reduction l q i =>
      exact ⟨hx.1, hx.2.elim (fun hq => .inl (hq.mono h.own)) (h.slots l q i hx.1)⟩
  | alive ρ => exact hx.elim (fun hρ => .inl (h.own hρ)) fun hρ => h.callers hρ

/-- What one branch changes, the other one does not rely on. It is the
condition of the rule for two branches side by side. -/
theorem Apart.disjoint (h : Apart T S S') : Disjoint (S.mod T) (S'.rel T) := by
  -- The other branch relies on the blocks of its own frames and of its callers', none of which
  -- is in a frame of this branch.
  have hno : ∀ q : Block, q.In S.own → ¬ (q.In S'.own ∨ q.Above S'.callers) := by
    rintro q ⟨ρ, hρ, ho⟩ (⟨ρ', hρ', ho'⟩ | hq)
    · rw [ho] at ho'
      cases ho'
      exact Set.disjoint_left.mp h.own hρ hρ'
    · exact Set.disjoint_left.mp h.callers hρ (hq ρ ho)
  rw [Set.disjoint_left]
  intro x hx hx'
  -- The contexts of the two tasks differ, and each lies outside the frames of the other.
  have htask : ∀ c, (c = S.task ∨ c ∈ S.own) → ¬ (c = S'.task ∨ c ∈ S'.own) := by
    rintro c (rfl | hc) (hc' | hc')
    · exact h.task.1 hc'
    · exact h.task.2.1 hc'
    · exact h.task.2.2 (hc' ▸ hc)
    · exact Set.disjoint_left.mp h.own hc hc'
  cases x with
  | cxts c => exact htask c hx hx'
  | tmem t => exact htask t hx hx'
  | liveInEnv q => exact hno q hx hx'
  | liveOutEnv q => exact hno q hx hx'
  | reduction l q i =>
      -- The slots of a level that is not tracked may be written by both; no one relies on them.
      rcases hx with hl | hq | hs
      · exact hl hx'.1
      · rcases hx'.2 with hq' | hs'
        · exact hno q hq (.inl hq')
        · exact h.slots' l q i hx'.1 hs' hq
      · rcases hx'.2 with hq' | hs'
        · exact (h.slots l q i hx'.1 hs).1 hq'
        · exact (h.slots l q i hx'.1 hs).2 hs'
  | alive ρ =>
      rcases hx' with hρ | hρ
      · exact Set.disjoint_left.mp h.own hx hρ
      · exact Set.disjoint_left.mp h.callers hx hρ

end Scope

/-! ### The scopes of the tasks -/

/-- An activation owns the frames above it, its context, the slots it reports
to, and the slots of the levels that are suspended, which a promotion inside
of it may have written. -/
def Frame.scope (r : Nat) (f : Frame) (v : List Nat) (rows : Nat → Row) : Scope where
  own := {ρ | f.path <:+ ρ}
  callers := f.path.callers
  task := f.cxts
  slots := {x | (x.1 = f.level ∧ x.2.1 = arrays rows x.1 ∧ x.2.2 = f.myIndex) ∨
    PendingSlot r f.path v rows x}

/-- A call of the handler by `f` owns the frames above `f` and what is
suspended. The frame of `f` itself belongs to the callers now. -/
def Frame.handlerScope (r : Nat) (f : Frame) (v : List Nat) (rows : Nat → Row) : Scope where
  own := {ρ | f.path <:+ ρ ∧ ρ ≠ f.path}
  callers := {ρ | ρ <:+ f.path}
  task := f.cxts
  slots := {x | PendingSlot r f.path v rows x}

/-- The first branch of a split at level `s`, before the blocks from `level`
down to `s`: it owns all frames above `f` but those of the second task, and
slot 0 of the levels. -/
def Frame.leftoverScope (f : Frame) (s level : Nat) (rows : Nat → Row) : Scope where
  own := {ρ | ∃ x, x ≠ .second s ∧ x :: f.path <:+ ρ}
  callers := {ρ | ρ <:+ f.path}
  task := f.cxts
  slots := {x | s ≤ x.1 ∧ x.1 ≤ level ∧ x.2.1 = arrays rows x.1 ∧ x.2.2 = 0}

/-- The frames a leftover task may own all lie strictly below the frame that
forked it. -/
theorem Frame.leftoverScope_own (f : Frame) (s level : Nat) (rows : Nat → Row) :
    ∀ ρ ∈ (f.leftoverScope s level rows).own, f.path.length < ρ.length := by
  rintro ρ ⟨x, -, hρ⟩
  exact hρ.length_le

end HeartbeatCompiler
