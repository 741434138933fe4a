import HeartbeatCompiler.Reductions
import Mathlib

/-!
# `HeartbeatCompiler.SingleLoop`: the reduction of a single loop

A single loop has no leftover tasks, so each of its slots is written once, and what it delivers
depends on the operators only: the exit blocks merge the partial results with additions.
`single_loop_reduction` says what a run delivers if that is what the operators would give, and
that only for such operators every loop is right.

For the second half a loop of three iterations is run whose contributions are variables
(`Nest.threeResults_eq`). `cbv` evaluates that run; the equations that it makes for definitions of
the library are already there when all of Mathlib is imported.
-/

set_option autoImplicit false

namespace HeartbeatCompiler

open ForkJoin Prog

variable {n : Nest}

/-- Where three partial results are merged as an addition would. -/
def Reduction.MergesAsAddition {w : Nat} (r : Reduction w) : Prop :=
  ∀ x y z, r.op (r.op x y) z = x + y + z

/-- Addition merges as an addition. -/
theorem Reduction.add_mergesAsAddition (w : Nat) : (Reduction.add w).MergesAsAddition :=
  fun _ _ _ => rfl

/-- A loop of three iterations. -/
def Nest.three {m : Nat} {w : Fin m → Nat} (r : (j : Fin m) → Reduction (w j))
    (x y z : (j : Fin m) → BitVec (w j)) : Nest :=
  .single r 0 3 Nest.zero_lt_bound Nest.three_lt_bound (fun j => (r j).identity) fun i j =>
    if i = 0 then x j else if i = 1 then y j else z j

/-- What the run of a loop of three iterations with a heartbeat after the
first one delivers. -/
def Nest.threeResults {m : Nat} {w : Fin m → Nat} (r : (j : Fin m) → Reduction (w j))
    (x y z : (j : Fin m) → BitVec (w j)) : Option (List ((j : Fin m) → BitVec (w j))) :=
  (exec (Nest.three r x y z).body 200 [1] (Nest.three r x y z).original
    (Nest.three r x y z).blank).map fun o =>
      o.2.2.2.filterMap fun e => match e.1 with
        | .result x => some x
        | _ => none

/-- The three contributions are added. -/
theorem Nest.threeResults_eq {k : Nat} {w : Fin (k + 1) → Nat}
    (r : (j : Fin (k + 1)) → Reduction (w j)) (x y z : (j : Fin (k + 1)) → BitVec (w j)) :
    Nest.threeResults r x y z = some [fun j => (r j).op (r j).identity
      ((r j).op (r j).identity (x j) + (r j).op (r j).identity (y j) +
        (r j).op (r j).identity (z j))] := by
  -- One live-out is kept in the context itself, more are reached through an array of pointers.
  cases k with
  | zero => cbv
  | succ k => cbv

/-- If a loop is right whatever its iterations contribute, merging three parts
with additions is right: the loop of three iterations is promoted after the
first one, so its parts are arbitrary values. -/
theorem mergesAsAddition_of_single {m : Nat} {w : Fin m → Nat}
    (r : (j : Fin m) → Reduction (w j))
    (h : ∀ x y z σ τ c σ', (Nest.three r x y z).Run σ τ c σ' → ∀ v s,
      (Event.result v, s) ∈ τ → ∀ j, v j = (r j).op ((Nest.three r x y z).initial 0 [] j)
        ((Nest.three r x y z).total [] 0 0 3 j)) (j : Fin m) : (r j).MergesAsAddition := by
  intro x y z
  obtain ⟨k, rfl⟩ : ∃ k, m = k + 1 := ⟨m - 1, by have := j.isLt; omega⟩
  -- The contributions to the live-out `j`; those to the others do not matter.
  let at_ (x : BitVec (w j)) : (j : Fin (k + 1)) → BitVec (w j) := Function.update 0 j x
  have hres := Nest.threeResults_eq r (at_ x) (at_ y) (at_ z)
  rw [Nest.threeResults, Option.map_eq_some_iff] at hres
  obtain ⟨⟨ret, σ', answers, τ⟩, ho, hτ⟩ := hres
  obtain ⟨⟨e, s⟩, he, hv⟩ := List.mem_filterMap.mp
    (hτ ▸ List.mem_singleton_self _ : _ ∈ List.filterMap _ _)
  cases e with
  | result v =>
      have hright := h (at_ x) (at_ y) (at_ z) _ τ _ σ' (exec_sound ho) v s he j
      obtain rfl := Option.some.inj hv
      have htotal : (Nest.three r (at_ x) (at_ y) (at_ z)).total [] 0 0 3 j =
          (r j).op ((r j).op ((r j).op (r j).identity x) y) z := by
        simp [Nest.total, Nest.three, Nest.single, at_, List.range']
      have hinit : (Nest.three r (at_ x) (at_ y) (at_ z)).initial 0 [] j = (r j).identity := rfl
      rw [htotal, hinit] at hright
      simp only [(r j).identity_op, at_, Function.update_self] at hright
      exact hright.symm
  | _ => cases hv

/-- A single loop delivers the initial value merged with the contributions of
all iterations, if there is no promotion or if merging three parts with
additions is what each operator would give; and only for such operators every
loop that uses them is right. -/
theorem single_loop_reduction (n : Nest) (hone : n.numLevels = 1) :
    (∀ (σ : n.sig.Store) (τ : n.sig.Trace) (c : Conf n.sig) (σ' : n.sig.Store),
      n.Run σ τ c σ' →
      ((∀ e ∈ τ, Event.promotion e.1 = none) ∨
        ∀ j, (n.reduction 0 j).MergesAsAddition) →
      (∀ x s, (Event.result x, s) ∈ τ → ∀ j, x j = (n.reduction 0 j).op (n.initial 0 [] j)
        (n.total [] 0 (n.startIter []) (n.maxIter []) j)) ∧
      (n.numLiveOuts 0 ≠ 0 → ∀ r, c = .run (.ret r) → ∃ x s, (Event.result x, s) ∈ τ)) ∧
    ((∀ a b ha hb initial contribution σ τ c σ',
        (Nest.single (n.reduction 0) a b ha hb initial contribution).Run σ τ c σ' →
        ∀ x s, (Event.result x, s) ∈ τ → ∀ j, x j = (n.reduction 0 j).op (initial j)
          ((Nest.single (n.reduction 0) a b ha hb initial contribution).total [] 0 a b j)) ↔
      ∀ j, (n.reduction 0 j).MergesAsAddition) := by
  -- The first half is needed for the given loop and, in the second half, for every loop with the
  -- same operators.
  have hright : ∀ (n : Nest), n.numLevels = 1 → ∀ (σ : n.sig.Store) (τ : n.sig.Trace)
      (c : Conf n.sig) (σ' : n.sig.Store), n.Run σ τ c σ' →
      ((∀ e ∈ τ, Event.promotion e.1 = none) ∨ ∀ j, (n.reduction 0 j).MergesAsAddition) →
      ∀ x s, (Event.result x, s) ∈ τ → ∀ j, x j = (n.reduction 0 j).op (n.initial 0 [] j)
        (n.total [] 0 (n.startIter []) (n.maxIter []) j) := by
    intro n hone σ τ c σ' h hcond x s he j
    have hm : n.numLiveOuts 0 ≠ 0 := Nat.ne_zero_of_lt j.isLt
    rcases hcond with hno | hadd
    · have hgood := h.good_of_allowed mergeable_unpromoted fun e he' =>
        allowed_unpromoted (hno e he')
      exact (hgood _ he : 0 ∈ n.unpromoted → _) hm j
    · have hleaf : n.leafLevel = 0 := by rw [Nest.leafLevel, hone]
      have hT : Mergeable n (n.promoted {n.leafLevel}) :=
        ⟨fun l hl => hl.2, fun _ _ => trivial, fun _ l hl => by
          obtain rfl : l = 0 := Eq.trans hl.1 hleaf
          exact hadd, fun _ l hl hl0 => absurd (Eq.trans hl.1 hleaf) hl0⟩
      exact (h.good_of_allowed hT h.allowed_leaf _ he : 0 ∈ n.promoted {n.leafLevel} → _)
        ⟨hleaf.symm, hm⟩ j
  constructor
  · intro σ τ c σ' h hcond
    refine ⟨hright n hone σ τ c σ' h hcond, ?_⟩
    rintro hm r rfl
    exact h.finished.result hm
  constructor
  · intro h
    -- Conversely a loop of three iterations with the contributions `x`, `y` and `z` is split
    -- after its first one.
    exact mergesAsAddition_of_single (n.reduction 0) fun x y z σ τ c σ' hrun =>
      h _ _ _ _ _ _ σ τ c σ' hrun
  · intro hadd a b ha hb initial contribution σ τ c σ' hrun
    exact hright (.single (n.reduction 0) a b ha hb initial contribution) rfl σ τ c σ' hrun
      (.inr hadd)

/-- The operator of the product does not merge as an addition, so some loop is
not right. -/
theorem single_loop_reduction_product : productNest.numLevels = 1 ∧
    ¬ ∀ a b ha hb initial contribution σ τ c σ',
      (Nest.single (productNest.reduction 0) a b ha hb initial contribution).Run σ τ c σ' →
      ∀ x s, (Event.result x, s) ∈ τ → ∀ j, x j = (productNest.reduction 0 j).op (initial j)
        ((Nest.single (productNest.reduction 0) a b ha hb initial contribution).total
          [] 0 a b j) := by
  refine ⟨rfl, fun h => ?_⟩
  have hadd := (single_loop_reduction productNest rfl).2.mp h
  exact absurd (hadd ⟨0, Nat.one_pos⟩ 1 1 1) (by decide)

/-- The product is 1; with a heartbeat after the first iteration the loop
delivers 3. -/
theorem productNest_delivers_sum : ∃ τ c σ', productNest.Run productNest.blank τ c σ' ∧
    ∃ x s, (Event.result x, s) ∈ τ ∧ ∀ j, x j = 3 ∧ (productNest.reduction 0 j).op
      (productNest.initial 0 [] j) (productNest.total [] 0 0 3 j) = 1 := by
  obtain ⟨τ, c, σ', hrun, x, s, he, hx⟩ := run_delivers (n := productNest) (k := 3) 200 [1]
    (by decide +kernel)
  have hone : ∀ j, (productNest.reduction 0 j).op (productNest.initial 0 [] j)
      (productNest.total [] 0 0 3 j) = 1 := by decide
  exact ⟨τ, c, σ', hrun, x, s, he, fun j => ⟨BitVec.eq_of_toNat_eq (hx j), hone j⟩⟩

end HeartbeatCompiler
