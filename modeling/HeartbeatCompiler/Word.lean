import Mathlib.Algebra.Group.Int.Defs
import Mathlib.Algebra.Group.Nat.Defs
import Mathlib.Data.Nat.Basic
import Mathlib.Data.Int.Basic

/-!
# `HeartbeatCompiler.Word`: 64-bit words

The counters and context entries of the generated code are `i64` words. A word is a natural
number below `2 ^ 64`; the operations of the code wrap explicitly, and the two orders are
the signed and the unsigned reading of the same bits.
-/

set_option autoImplicit false

namespace HeartbeatCompiler

/-- `add i64`, which wraps around: all counters and bounds of the generated
code are words. -/
def wadd (x y : Nat) : Nat := (x + y) % 2 ^ 64

/-- `sub i64`, which wraps around too. The second argument is reduced first,
so that the difference of natural numbers is exact. -/
def wsub (x y : Nat) : Nat := (x + (2 ^ 64 - y % 2 ^ 64)) % 2 ^ 64

/-- The signed reading of a word, in two's complement. -/
def toSigned (x : Nat) : Int := if x < 2 ^ 63 then x else (x : Int) - 2 ^ 64

/-- `icmp slt`, the comparison of the signed readings. Loops that are not
chunked test with it. -/
def slt (x y : Nat) : Bool := decide (toSigned x < toSigned y)

/-- `icmp ult`, the comparison of the words themselves, which chunked loops
test with. -/
def ult (x y : Nat) : Bool := decide (x < y)

/-- `llvm.umin.i64`, with which the bound of a chunk is cut at the bound of
the loop. -/
def umin (x y : Nat) : Nat := if ult x y then x else y

/-- `llvm.smax.i64`, a call of which LLVM may put into the start or the exit
value of a loop. -/
def smax (x y : Nat) : Nat := if slt x y then y else x

/-- An addition below `2 ^ 64` does not wrap. -/
theorem wadd_of_lt {x y : Nat} (h : x + y < 2 ^ 64) : wadd x y = x + y := Nat.mod_eq_of_lt h

/-- A subtraction that stays above zero does not wrap. -/
theorem wsub_of_le {x y : Nat} (h : y ≤ x) (hx : x < 2 ^ 64) : wsub x y = x - y := by
  have hy : y % 2 ^ 64 = y := Nat.mod_eq_of_lt (lt_of_le_of_lt h hx)
  rw [wsub, hy]
  omega

/-- A non-negative word is read the same way in both orders. -/
theorem toSigned_of_lt {x : Nat} (h : x < 2 ^ 63) : toSigned x = x := if_pos h

/-- On non-negative words `slt` is the order of the numbers. -/
theorem slt_iff {x y : Nat} (hx : x < 2 ^ 63) (hy : y < 2 ^ 63) :
    slt x y = true ↔ x < y := by
  rw [slt, toSigned_of_lt hx, toSigned_of_lt hy, decide_eq_true_iff]
  omega

/-- `ult` is the order of the numbers. -/
theorem ult_iff {x y : Nat} : ult x y = true ↔ x < y := decide_eq_true_iff

/-- `umin` is the minimum of the numbers. -/
theorem umin_eq (x y : Nat) : umin x y = min x y := by
  unfold umin ult
  by_cases h : x < y
  · rw [decide_eq_true h, if_pos rfl, min_eq_left (Nat.le_of_lt h)]
  · rw [decide_eq_false h, if_neg Bool.false_ne_true, min_eq_right (not_lt.mp h)]

end HeartbeatCompiler
