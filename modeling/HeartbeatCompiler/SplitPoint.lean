import HeartbeatCompiler.Task
import Mathlib.Tactic.Common

/-!
# `HeartbeatCompiler.SplitPoint`: the split over all 64-bit words

The handler tests, halves and increments unsigned words that may wrap, while the counter of
the source loop may be signed. `ExactSplit` says that the range after the iteration in
progress is cut in two halves in the order of the counter. It holds exactly if the sum that
is halved does not wrap (`unsigned_split_iff`), and for a signed counter if that sum is not
negative (`signed_split_iff`).
-/

set_option autoImplicit false

namespace HeartbeatCompiler

open Nest

/-- In the order of the counter, read by `value`, the iterations after `low`
up to `high` are split exactly. The iteration `low` is in progress and belongs
to neither half:

- `low_lt`, `lt_high`: the middle lies in the range, so the second half is not
  empty;
- `start`: the next iteration is the first one of the first half;
- `partition`, `apart`: the two halves are the range, and no iteration is in
  both;
- `sizes_le`, `sizes_ge`: their sizes differ by at most one. -/
structure ExactSplit (value : Nat → Int) (low mid high : Nat) : Prop where
  low_lt : value low < value mid
  lt_high : value mid < value high
  start : value (wadd low 1) = value low + 1
  partition : ∀ x, value low < x ∧ x < value high ↔
    (value (wadd low 1) ≤ x ∧ x < value mid ∨ value mid ≤ x ∧ x < value high)
  apart : ∀ x, ¬ ((value (wadd low 1) ≤ x ∧ x < value mid) ∧ value mid ≤ x ∧ x < value high)
  sizes_le : value mid - value (wadd low 1) ≤ value high - value mid + 1
  sizes_ge : value high - value mid ≤ value mid - value (wadd low 1) + 1

/-- A split at the middle is exact. -/
theorem ExactSplit.of_middle {value : Nat → Int} {low mid high : Nat}
    (hstart : value (wadd low 1) = value low + 1) (hlt : value low + 2 ≤ value high)
    (hmid : value mid = (value low + 1 + value high) / 2) : ExactSplit value low mid high where
  low_lt := by omega
  lt_high := by omega
  start := hstart
  partition x := by omega
  apart x := by omega
  sizes_le := by omega
  sizes_ge := by omega

/-- The start of the first task, in the unsigned order. -/
theorem wadd_one_of_lt {low high : Nat} (hhigh : high < 2 ^ 64) (hlt : low < high) :
    wadd low 1 = low + 1 :=
  wadd_of_lt (by omega)

/-- The start of the first task, in the signed order. -/
theorem toSigned_wadd_one {low high : Nat} (hlow : low < 2 ^ 64) (hhigh : high < 2 ^ 64)
    (hlt : toSigned low < toSigned high) : toSigned (wadd low 1) = toSigned low + 1 := by
  simp only [toSigned, wadd] at hlt ⊢
  split at hlt <;> split at hlt <;> split <;> omega

/-- For an unsigned counter the split is exact if and only if the sum does not
wrap. -/
theorem unsigned_split_iff {low high : Nat} (hlow : low < 2 ^ 64) (hhigh : high < 2 ^ 64)
    (hlt : low + 2 ≤ high) :
    ExactSplit (fun x => x) low (splitPoint low high) high ↔ low + 1 + high < 2 ^ 64 := by
  have hstart := wadd_one_of_lt hhigh (by omega : low < high)
  constructor
  · intro h
    by_contra hwrap
    have hmid : splitPoint low high = (low + 1 + high - 2 ^ 64) / 2 := by
      rw [splitPoint, hstart, wadd]
      omega
    have := h.low_lt
    omega
  · intro hsum
    refine .of_middle (by simp only [hstart]; omega) (by omega) ?_
    rw [splitPoint, hstart, wadd_of_lt (by omega)]
    omega

/-- For a signed counter the split is exact if and only if the sum is not
negative. The sum is halved as an unsigned word, which is the half of the
signed sum only then. -/
theorem signed_split_iff {low high : Nat} (hlow : low < 2 ^ 64) (hhigh : high < 2 ^ 64)
    (hlt : toSigned low + 2 ≤ toSigned high) :
    ExactSplit toSigned low (splitPoint low high) high ↔
      0 ≤ toSigned low + 1 + toSigned high := by
  have hstart := toSigned_wadd_one hlow hhigh (by omega)
  -- The halved sum has a zero for its sign bit.
  have hmid : toSigned (splitPoint low high) = splitPoint low high := by
    refine toSigned_of_lt ?_
    have := Nat.mod_lt (wadd low 1 + high) (show 0 < 2 ^ 64 by decide)
    rw [splitPoint, wadd]
    omega
  have hsum : (splitPoint low high : Int) =
      if 0 ≤ toSigned low + 1 + toSigned high then (toSigned low + 1 + toSigned high) / 2
      else (toSigned low + 1 + toSigned high + 2 ^ 64) / 2 := by
    simp only [splitPoint, wadd, toSigned] at hlt ⊢
    split at hlt <;> split at hlt <;> split <;> omega
  constructor
  · intro h
    by_contra hneg
    have hhi := h.lt_high
    rw [if_neg hneg] at hsum
    have hbounds : toSigned high < 2 ^ 63 ∧ -2 ^ 63 ≤ toSigned low := by
      simp only [toSigned]
      split <;> split <;> omega
    omega
  · intro hpos
    refine .of_middle hstart hlt ?_
    rw [hmid, hsum, if_pos hpos]

/-- The level that is chosen has at least two iterations between its entries. -/
theorem two_le_of_splittingLevel {rows : Nat → Row} {s : Nat} (fuel : Nat) :
    ∀ {level : Nat}, splittingLevel rows fuel level = some (some s) →
      ∃ start max, (rows s).start = some start ∧ (rows s).max = some max ∧
        2 ≤ wsub max start := by
  induction fuel with
  | zero => exact fun h => by simp [splittingLevel] at h
  | succ fuel ih =>
      intro level h
      rw [splittingLevel] at h
      split at h
      · rename_i start max hstart hmax
        by_cases htwo : 2 ≤ wsub max start
        · rw [if_pos htwo] at h
          obtain rfl := Option.some.inj (Option.some.inj h)
          exact ⟨start, max, hstart, hmax, htwo⟩
        · rw [if_neg htwo] at h
          exact ih h
      · cases h

/-- The split of every range, over all pairs of 64-bit words: for an unsigned
and for a signed counter it is exact under the condition on the sum and only
then, and a level whose last iteration is in progress is never chosen. -/
theorem split_exact_iff (low high : Nat) (hlow : low < 2 ^ 64) (hhigh : high < 2 ^ 64) :
    (low + 2 ≤ high →
      (ExactSplit (fun x => x) low (splitPoint low high) high ↔ low + 1 + high < 2 ^ 64)) ∧
    (toSigned low + 2 ≤ toSigned high →
      (ExactSplit toSigned low (splitPoint low high) high ↔
        0 ≤ toSigned low + 1 + toSigned high)) ∧
    ∀ rows fuel level s, splittingLevel rows fuel level = some (some s) →
      (rows s).start = some low → (rows s).max ≠ some (wadd low 1) := by
  refine ⟨unsigned_split_iff hlow hhigh, signed_split_iff hlow hhigh, ?_⟩
  intro rows fuel level s h hstart hmax
  obtain ⟨start, max, hs, hm, htwo⟩ := two_le_of_splittingLevel fuel h
  rw [hstart, Option.some.injEq] at hs
  rw [hmax, Option.some.injEq] at hm
  subst hs hm
  simp only [wsub, wadd] at htwo
  omega

/-- The range after 3 up to 8 is split exactly in both orders. -/
theorem split_exact_iff_eight :
    ExactSplit (fun x => x) 3 (splitPoint 3 8) 8 ∧ ExactSplit toSigned 3 (splitPoint 3 8) 8 := by
  have h := split_exact_iff 3 8 (by decide) (by decide)
  exact ⟨(h.1 (by decide)).mpr (by decide), (h.2.1 (by decide)).mpr (by decide)⟩

/-- For a signed counter the range after -4 up to 2 is not split: the middle
is read as `2 ^ 63 - 1`. For an unsigned one the range after `2 ^ 63` up to `2
^ 63 + 4` is not. -/
theorem split_wraps :
    (toSigned (2 ^ 64 - 4) + 2 ≤ toSigned 2 ∧
      ¬ ExactSplit toSigned (2 ^ 64 - 4) (splitPoint (2 ^ 64 - 4) 2) 2) ∧
    ¬ ExactSplit (fun x => x) (2 ^ 63) (splitPoint (2 ^ 63) (2 ^ 63 + 4)) (2 ^ 63 + 4) := by
  refine ⟨⟨by decide, fun h => ?_⟩, fun h => ?_⟩
  · exact absurd h.lt_high (by decide)
  · exact absurd h.low_lt (by decide)

end HeartbeatCompiler
