import HeartbeatCompiler.Execution
import Mathlib.Data.BitVec

/-!
# `HeartbeatCompiler.Reductions`: what the live-outs deliver

The consequences of `start_correct` for the live-outs, for every answer of the polls and
every interleaving. The tasks merge partial results with integer additions, whatever the
operator of the loop is, and the slot a child writes is found through a row that another
activation may have replaced; so most results have a condition. A single loop, with any
operator, is the subject of `SingleLoop`.

* `leaf_slot_holds_sum`: the slots of the leaf loop hold the sums, for additive live-outs.
* `slots_written_once`: for live-outs at several levels, if no promotion in a leftover task
  splits above a level that is left and has a live-out.
* `nested_result_iff`: the value that a nested loop returns to its caller.
-/

set_option autoImplicit false

namespace HeartbeatCompiler

open ForkJoin Prog

variable {n : Nest}

/-! ### Merges that are additions -/

/-- The live-outs of level `l` are added up. It is the operator that the
generated code merges with, whatever the operator of the source is. -/
def Nest.Additive (n : Nest) (l : Nat) : Prop := ∀ j x y, (n.reduction l j).op x y = x + y

/-- The identity of an addition is zero. -/
theorem Nest.Additive.identity {l : Nat} (h : n.Additive l) (j : Fin (n.numLiveOuts l)) :
    (n.reduction l j).identity = 0 := by
  have hid := (n.reduction l j).identity_op 0
  rwa [h, add_zero] at hid

/-- The total of an addition is the sum of the contributions. -/
theorem Nest.Additive.total {l : Nat} (h : n.Additive l) (v : List Nat) (a b : Nat)
    (j : Fin (n.numLiveOuts l)) : n.total v l a b j =
      ((List.range' a (b - a)).map fun i => n.contribution l (v ++ [i]) j).sum := by
  simp only [Nest.total, h j, h.identity j, List.sum_eq_foldl, List.foldl_map]

/-- The levels in `L` that have live-outs, in runs with promotions. A level
without live-outs has no slots to follow. -/
def Nest.promoted (n : Nest) (L : Set Nat) : Tracked :=
  .exactly {l | l ∈ L ∧ n.numLiveOuts l ≠ 0} True

/-- The levels that have live-outs, in runs without promotions. There the
operators do not matter, since nothing is merged. -/
def Nest.unpromoted (n : Nest) : Tracked := .exactly {l | n.numLiveOuts l ≠ 0} False

/-- Where every level of `L` adds, the slots of `L` can be tracked through the
promotions: each merge of a reduction array gives back the value of the part
that was split off. -/
theorem mergeable_promoted {L : Set Nat} (h : ∀ l ∈ L, n.Additive l) :
    Mergeable n (n.promoted L) where
  liveOut _ hl := hl.2
  accessed _ _ := trivial
  three _ l hl j x y z := by rw [h l hl.1, h l hl.1]
  two _ l hl _ j x y := h l hl.1 j x y

/-- Without promotions no array is merged, so that every level can be tracked,
whatever its operators. -/
theorem mergeable_unpromoted : Mergeable n n.unpromoted where
  liveOut _ hl := hl
  accessed _ _ := trivial
  three h := h.elim
  two h := h.elim

/-- An event that is no promotion is allowed. -/
theorem allowed_unpromoted {e : n.sig.Event} (h : Event.promotion e = none) :
    Allowed n n.unpromoted e := by
  cases e with
  | promoted f s mid high v => cases h
  | _ => trivial

namespace Nest.Run

variable {σ σ' : n.sig.Store} {τ : n.sig.Trace} {c : Conf n.sig} {T : Tracked}

/-- The events of a run with allowed promotions are good. -/
theorem good_of_allowed (h : n.Run σ τ c σ') (hT : Mergeable n T)
    (hall : ∀ e ∈ τ, Allowed n T e.1) : ∀ e ∈ τ, Good n T e :=
  (start_correct hT σ).good_of_steps h hall

/-- A promotion splits the leaf level or one above it. -/
theorem base_le (h : n.Run σ τ c σ') {f : Frame} {s mid high : Nat} {v : List Nat}
    {s' : n.sig.Store} (he : (Event.promoted f s mid high v, s') ∈ τ) :
    f.path.base n.leafLevel ≤ n.leafLevel :=
  (h.good _ he).1

/-- The slots of the leaf loop stay apart in every run. -/
theorem allowed_leaf (h : n.Run σ τ c σ') :
    ∀ e ∈ τ, Allowed n (n.promoted {n.leafLevel}) e.1 := by
  rintro ⟨e, s'⟩ he
  cases e with
  | promoted f s mid high v =>
      refine ⟨trivial, fun hs l hl _ => ?_⟩
      obtain rfl : l = n.leafLevel := hl.1
      exact lt_of_lt_of_le hs (h.base_le he)
  | _ => trivial

end Nest.Run

/-! ### The leaf loop -/

/-- For additive live-outs of the leaf loop: when an activation that was
called on `[a, b)` leaves, its slot of the reduction arrays its row led to
holds the sum of the contributions of all iterations in `[a, b)`, and a single
loop delivers the initial value plus that sum. -/
theorem leaf_slot_holds_sum (n : Nest) (hadd : n.Additive n.leafLevel) (σ : n.sig.Store)
    (τ : n.sig.Trace) (c : Conf n.sig) (σ' : n.sig.Store) (h : n.Run σ τ c σ') :
    (∀ g r s, (Event.left g r, s) ∈ τ → g.level = n.leafLevel → ∀ a b,
      (g.entry g.level).start = some a → (g.entry g.level).max = some b → ∀ j,
      (s (.reduction g.level (arrays g.entry g.level) g.myIndex)).values j =
        ((List.range' a (b - a)).map fun i => n.contribution g.level (g.outer ++ [i]) j).sum) ∧
    (n.numLevels = 1 →
      (∀ x s, (Event.result x, s) ∈ τ → ∀ j, x j = n.initial 0 [] j +
        ((List.range' (n.startIter []) (n.maxIter [] - n.startIter [])).map fun i =>
          n.contribution 0 [i] j).sum) ∧
      (n.numLiveOuts 0 ≠ 0 → ∀ r, c = .run (.ret r) → ∃ x s, (Event.result x, s) ∈ τ)) := by
  have hT : Mergeable n (n.promoted {n.leafLevel}) :=
    mergeable_promoted fun l hl => Set.mem_singleton_iff.mp hl ▸ hadd
  -- No promotion can strand a slot of the leaf level, so that it may be tracked in every run.
  have hgood := h.good_of_allowed hT h.allowed_leaf
  refine ⟨fun g r s he hlevel a b ha hb j => ?_, fun hone => ⟨fun x s he j => ?_, ?_⟩⟩
  · have hleft : LeftGood (n.promoted {n.leafLevel}) g r s := hgood _ he
    have hmem : g.level ∈ n.promoted {n.leafLevel} := ⟨hlevel, Nat.ne_zero_of_lt j.isLt⟩
    have hg : n.Additive g.level := hlevel ▸ hadd
    rw [hleft.slot hmem a b ha hb, hg.total]
  · -- With a single loop the leaf is the root loop, whose slot the original function reads.
    have hleaf : n.leafLevel = 0 := by rw [Nest.leafLevel, hone]
    have hmem : 0 ∈ n.promoted {n.leafLevel} := ⟨hleaf.symm, Nat.ne_zero_of_lt j.isLt⟩
    have hg : n.Additive 0 := hleaf ▸ hadd
    have hres := (hgood _ he : 0 ∈ n.promoted {n.leafLevel} → _) hmem j
    rw [hres, hg, hg.total]
    rfl
  · rintro hm r rfl
    exact h.finished.result hm

/-- A single loop of three iterations with two sums, which is split after its
first one. -/
theorem leaf_slot_holds_sum_three : ∃ τ c σ',
    Nest.Run (.uniform 1 3 false (fun _ => 2) (.add 8) 4) (Nest.blank _) τ c σ' ∧
      (promotions τ).card = 1 ∧ (∃ x s, (Event.result x, s) ∈ τ) ∧
      ∀ x s, (Event.result x, s) ∈ τ → ∀ j, x j = 7 := by
  have hexec : (exec (Nest.body (.uniform 1 3 false (fun _ => 2) (.add 8) 4)) 1000 [1]
      (Nest.original _) (Nest.blank _)).any (fun o =>
        decide ((o.2.2.2.filterMap fun e => Event.promotion e.1).length = 1)) = true := by
    decide +kernel
  obtain ⟨r, σ', answers, τ, hrun, hcheck⟩ := exec_exists hexec
  have hsum := (leaf_slot_holds_sum _ (fun _ _ _ => rfl) _ τ _ σ' hrun).2 rfl
  refine ⟨τ, _, σ', hrun, of_decide_eq_true hcheck, hsum.2 (by decide) r rfl, fun x s he j => ?_⟩
  rw [hsum.1 x s he j]
  rfl

/-! ### Live-outs at several levels -/

/-- A promotion made in a block of a leftover task may split a level that is
left to the later blocks, but then the live-out of level `l` does not lie
between the two splitting levels. -/
def SlotsApart (n : Nest) (l : Nat) (e : n.sig.Event) : Prop :=
  match e with
  | .promoted f s _ _ _ => s < f.path.base n.leafLevel → f.path.low n.leafLevel ≤ l → s < l
  | _ => True

/-- An event is allowed for the tracking of `L` if it keeps the slots apart at
the levels of `L` that have live-outs. -/
theorem allowed_promoted {L : Set Nat} {e : n.sig.Event}
    (h : ∀ l ∈ L, n.numLiveOuts l ≠ 0 → SlotsApart n l e) : Allowed n (n.promoted L) e := by
  cases e with
  | promoted f s mid high v => exact ⟨trivial, fun hs l hl hlow => h l hl.1 hl.2 hs hlow⟩
  | _ => trivial

/-- The slots for the kids of an activation at one of the `levels`. A slot
that is read on exit was written once, by the task it stands for, and when the
activation leaves, what was written was read. The two kids are the two tasks
of the fork. -/
def UsedOnce (n : Nest) (levels : Set Nat) (e : n.sig.Event × n.sig.Store) : Prop :=
  match e.1 with
  | .slotRead g i log => g.level ∈ levels →
      ∃ ρ, log = [.written ρ] ∧ IsChild n (.kids g.path) g.level i ρ
  | .left g _ => g.level ∈ levels → ∀ i, i < 2 →
      (e.2 (.reduction g.level (.kids g.path) i)).log = [] ∨
      ∃ ρ, (e.2 (.reduction g.level (.kids g.path) i)).log = [.written ρ, .read] ∧
        IsChild n (.kids g.path) g.level i ρ
  | _ => True

/-- Of a tracked set of levels, a good event in particular writes a slot once
and reads it once. -/
theorem Good.usedOnce {T : Tracked} {levels : Set Nat} {e : n.sig.Event × n.sig.Store}
    (h : Good n T e) (hsub : levels ⊆ T.levels) : UsedOnce n levels e := by
  obtain ⟨e, s⟩ := e
  cases e with
  | slotRead g i log => exact fun hl => h (hsub hl)
  | left g r => exact fun hl => LeftGood.kids h (hsub hl)
  | _ => trivial

/-- The slots of all levels with live-outs are used once, and the original
function reads the initial value plus the sum of all contributions of the root
loop. -/
def SlotsGood (n : Nest) (e : n.sig.Event × n.sig.Store) : Prop :=
  UsedOnce n {l | n.numLiveOuts l ≠ 0} e ∧
  match e.1 with
  | .result x => ∀ j, x j = n.initial 0 [] j +
      ((List.range' (n.startIter []) (n.maxIter [] - n.startIter [])).map fun i =>
        n.contribution 0 [i] j).sum
  | _ => True

/-- For additive live-outs at any levels: in a run in which no promotion made
in a leftover task splits at or above a level with a live-out that is still
left to that task, every slot that is read was written once, by its own task,
and nothing that was written is lost. -/
theorem slots_written_once (n : Nest) (hadd : ∀ l, n.Additive l) (σ : n.sig.Store)
    (τ : n.sig.Trace) (c : Conf n.sig) (σ' : n.sig.Store) (h : n.Run σ τ c σ')
    (hapart : ∀ e ∈ τ, ∀ l, n.numLiveOuts l ≠ 0 → SlotsApart n l e.1) :
    (∀ e ∈ τ, SlotsGood n e) ∧
    (n.numLiveOuts 0 ≠ 0 → ∀ r, c = .run (.ret r) → ∃ x s, (Event.result x, s) ∈ τ) := by
  have hT : Mergeable n (n.promoted Set.univ) := mergeable_promoted fun l _ => hadd l
  have hgood := h.good_of_allowed hT fun e he => allowed_promoted fun l _ => hapart e he l
  have hmem : ∀ l, n.numLiveOuts l ≠ 0 → l ∈ n.promoted Set.univ := fun l hm =>
    ⟨Set.mem_univ l, hm⟩
  refine ⟨?_, fun hm r hc => (hc ▸ h).finished.result hm⟩
  rintro ⟨e, s⟩ he
  have hge := hgood _ he
  refine ⟨hge.usedOnce fun l hm => hmem l hm, ?_⟩
  cases e with
  | result x =>
      intro j
      have hres := (hge : 0 ∈ n.promoted Set.univ → _) (hmem 0 (Nat.ne_zero_of_lt j.isLt)) j
      rw [hres, hadd 0, (hadd 0).total]
      rfl
  | _ => trivial

/-- Two loops of three iterations each, with a live-out at the outer level. -/
def outerSumNest : Nest :=
  .uniform 2 3 false (fun l => if l = 0 then 1 else 0) (.add 8) 0 Nat.two_pos
    Nest.three_lt_bound

/-- Both levels of `outerSumNest` merge by addition. -/
theorem outerSumNest_additive (l : Nat) : outerSumNest.Additive l := fun _ _ _ => rfl

/-- A promotion, if the event is one, splits no level that the leftover task
has from its base on for `l`. It is the condition on runs in a form that can
be evaluated. -/
def Event.splitsBase {n : Nest} (l : Nat) : Event n → Bool
  | .promoted f s _ _ _ => decide (f.path.base l ≤ s)
  | _ => true

/-- A run with one promotion, of the outer level, which keeps the slots apart.
-/
theorem outerSumNest_run : ∃ τ r σ',
    outerSumNest.Run outerSumNest.blank τ (.run (.ret r)) σ' ∧ (promotions τ).card = 1 ∧
      ∀ e ∈ τ, ∀ l, SlotsApart outerSumNest l e.1 := by
  have hexec : (exec outerSumNest.body 1000 [1] outerSumNest.original
      outerSumNest.blank).any (fun o =>
        decide ((o.2.2.2.filterMap fun e => Event.promotion e.1).length = 1) &&
        o.2.2.2.all fun e => Event.splitsBase outerSumNest.leafLevel e.1) = true := by
    decide +kernel
  obtain ⟨r, σ', answers, τ, hrun, hcheck⟩ := exec_exists hexec
  obtain ⟨hone, hbase⟩ := Bool.and_eq_true_iff.mp hcheck
  refine ⟨τ, r, σ', hrun, of_decide_eq_true hone, ?_⟩
  rintro ⟨e, s⟩ he l
  have hall := List.all_eq_true.mp hbase _ he
  cases e with
  | promoted f s mid high v => exact fun hs => absurd (of_decide_eq_true hall) (not_le.mpr hs)
  | _ => trivial

/-- A promotion of the outer level keeps the slots apart. -/
theorem slots_written_once_outerSum : ∃ τ r σ',
    outerSumNest.Run outerSumNest.blank τ (.run (.ret r)) σ' ∧ (promotions τ).card = 1 ∧
      ∀ e ∈ τ, SlotsGood outerSumNest e := by
  obtain ⟨τ, r, σ', hrun, hone, hapart⟩ := outerSumNest_run
  exact ⟨τ, r, σ', hrun, hone, (slots_written_once outerSumNest outerSumNest_additive _ _ _ _
    hrun fun e he l _ => hapart e he l).1⟩

/-- The event is the result of the root loop, `k` in every live-out. -/
def Event.delivers (k : Nat) : Event n → Bool
  | .result x => decide (∀ j, (x j).toNat = k)
  | _ => false

/-- A nest that the evaluator finds to deliver `k` has a run that does. -/
theorem run_delivers {k : Nat} (fuel : Nat) (answers : List Nat)
    (h : (exec n.body fuel answers n.original n.blank).any (fun o =>
      o.2.2.2.any fun e => e.1.delivers k) = true) :
    ∃ τ c σ', n.Run n.blank τ c σ' ∧
      ∃ x s, (Event.result x, s) ∈ τ ∧ ∀ j, (x j).toNat = k := by
  obtain ⟨r, σ', answers', τ, hrun, hcheck⟩ := exec_exists h
  obtain ⟨⟨e, s⟩, he, hfound⟩ := List.any_eq_true.mp hcheck
  cases e with
  | result x => exact ⟨τ, _, σ', hrun, x, s, he, of_decide_eq_true hfound⟩
  | _ => cases hfound

/-- A second promotion, made in the block of the leaf level of a leftover
task, splits the outer level again: its second task writes the slot of the
first one's. -/
theorem slots_overwritten : ∃ τ c σ',
    outerSumNest.Run outerSumNest.blank τ c σ' ∧ (∃ e ∈ τ, ¬ SlotsGood outerSumNest e) ∧
      ∃ x s, (Event.result x, s) ∈ τ ∧ ∀ j, x j ≠ outerSumNest.initial 0 [] j +
        ((List.range' 0 3).map fun i => outerSumNest.contribution 0 [i] j).sum := by
  obtain ⟨τ, c, σ', hrun, x, s, he, hx⟩ := run_delivers (n := outerSumNest) (k := 2) 1000
    [1, 1] (by decide +kernel)
  have htwo : ∀ j, (outerSumNest.initial 0 [] j + ((List.range' 0 3).map fun i =>
      outerSumNest.contribution 0 [i] j).sum).toNat ≠ 2 := by decide
  have hne : ∀ j, x j ≠ outerSumNest.initial 0 [] j +
      ((List.range' 0 3).map fun i => outerSumNest.contribution 0 [i] j).sum :=
    fun j h => htwo j (h ▸ hx j)
  exact ⟨τ, c, σ', hrun, ⟨_, he, fun h => hne ⟨0, by decide⟩ (h.2 ⟨0, by decide⟩)⟩, x, s, he,
    hne⟩

/-! ### A product -/

/-- Wrapping integer multiplication. -/
def Reduction.mul (w : Nat) : Reduction w where
  op x y := x * y
  identity := 1
  assoc := mul_assoc
  comm := mul_comm
  identity_op := one_mul

/-- A single loop of three iterations with a product, to each of which an
iteration contributes 1. -/
def productNest : Nest :=
  .single (fun _ : Fin 1 => .mul 8) 0 3 Nest.zero_lt_bound Nest.three_lt_bound (fun _ => 1)
    fun _ _ => 1

/-! ### The value of a nested loop -/

/-- What a nested loop hands to its caller is the total that starts from the
identity, so the call is right exactly if the initial value does not change
that total: for a sum, if it is zero. This holds in runs without promotions,
and in runs in which the slots of an additive live-out stay apart, as those of
the leaf loop do. -/
theorem nested_result_iff (n : Nest) (l : Nat) (hl : 0 < l) (σ : n.sig.Store) (τ : n.sig.Trace)
    (c : Conf n.sig) (σ' : n.sig.Store) (h : n.Run σ τ c σ')
    (hcond : (∀ e ∈ τ, Event.promotion e.1 = none) ∨
      (n.Additive l ∧ (l = n.leafLevel ∨ ∀ e ∈ τ, SlotsApart n l e.1)))
    (v : List Nat) (x : n.Values l) (s : n.sig.Store)
    (he : (Event.nestedResult l v x, s) ∈ τ) (j : Fin (n.numLiveOuts l)) :
    (x j = (n.reduction l j).op (n.initial l v j)
        (n.total v l (n.startIter v) (n.maxIter v) j) ↔
      (n.reduction l j).op (n.initial l v j) (n.total v l (n.startIter v) (n.maxIter v) j) =
        n.total v l (n.startIter v) (n.maxIter v) j) ∧
    (n.Additive l → (x j = n.initial l v j + n.total v l (n.startIter v) (n.maxIter v) j ↔
      n.initial l v j = 0)) := by
  have hm : n.numLiveOuts l ≠ 0 := Nat.ne_zero_of_lt j.isLt
  have hx : x = n.total v l (n.startIter v) (n.maxIter v) := by
    -- Without promotions every operator can be tracked; with them an additive one, as long as
    -- its slots are not handed over twice.
    rcases hcond with hno | ⟨hadd, hapart⟩
    · have hgood := h.good_of_allowed mergeable_unpromoted fun e he' =>
        allowed_unpromoted (hno e he')
      exact (hgood _ he : l ∈ n.unpromoted → _) hm
    · have hT : Mergeable n (n.promoted {l}) :=
        mergeable_promoted fun k hk => Set.mem_singleton_iff.mp hk ▸ hadd
      have hall : ∀ e ∈ τ, Allowed n (n.promoted {l}) e.1 := by
        rcases hapart with rfl | hapart
        · exact h.allowed_leaf
        · exact fun e he' => allowed_promoted fun k hk _ =>
            Set.mem_singleton_iff.mp hk ▸ hapart e he'
      exact (h.good_of_allowed hT hall _ he : l ∈ n.promoted {l} → _) ⟨rfl, hm⟩
  subst hx
  exact ⟨eq_comm, fun _ => by rw [eq_comm, add_eq_right]⟩

/-- Two loops of two iterations each, with a sum in the leaf loop that starts
at 5. -/
def leafSumNest : Nest :=
  .uniform 2 2 false (fun l => if l = 1 then 1 else 0) (.add 8) 5 Nat.two_pos

/-- A run with a promotion in which the nested calls return the sums without
the 5. -/
theorem leafSumNest_run : ∃ τ r σ', leafSumNest.Run leafSumNest.blank τ (.run (.ret r)) σ' ∧
    (promotions τ).card = 1 ∧ ∃ v x s, (Event.nestedResult 1 v x, s) ∈ τ ∧ ∀ j, x j = 2 := by
  -- The run is computed, with a beat at the second poll.
  have hexec : (exec leafSumNest.body 1000 [0, 1] leafSumNest.original
      leafSumNest.blank).any (fun o =>
        decide ((o.2.2.2.filterMap fun e => Event.promotion e.1).length = 1) &&
        o.2.2.2.any fun e => match e.1 with
          | .nestedResult l _ x => decide (l = 1 ∧ ∀ j, (x j).toNat = 2)
          | _ => false) = true := by decide +kernel
  obtain ⟨r, σ', answers, τ, hrun, hcheck⟩ := exec_exists hexec
  obtain ⟨hone, hany⟩ := Bool.and_eq_true_iff.mp hcheck
  obtain ⟨⟨e, s⟩, he, hfound⟩ := List.any_eq_true.mp hany
  cases e with
  | nestedResult l v x =>
      obtain ⟨rfl, hx⟩ := of_decide_eq_true hfound
      exact ⟨τ, r, σ', hrun, of_decide_eq_true hone, v, x, s, he,
        fun j => BitVec.eq_of_toNat_eq (hx j)⟩
  | _ => cases hfound

/-- A run of `leafSumNest` with one promotion and one nested call: the value
the call delivers is the fold from the initial values exactly where these are
the identity. -/
theorem nested_result_iff_leafSum : ∃ τ c σ', leafSumNest.Run leafSumNest.blank τ c σ' ∧
    (promotions τ).card = 1 ∧ ∃ v x s, (Event.nestedResult 1 v x, s) ∈ τ ∧
      ∀ j, x j = leafSumNest.initial 1 v j + leafSumNest.total v 1 0 2 j ↔
        leafSumNest.initial 1 v j = 0 := by
  obtain ⟨τ, r, σ', hrun, hone, v, x, s, he, -⟩ := leafSumNest_run
  have hadd : leafSumNest.Additive 1 := fun _ _ _ => rfl
  exact ⟨τ, _, σ', hrun, hone, v, x, s, he, fun j => (nested_result_iff leafSumNest 1 Nat.one_pos
    _ _ _ _ hrun (.inr ⟨hadd, .inl rfl⟩) v x s he j).2 hadd⟩

/-- The nested loop would return 7, the initial value and two contributions. -/
theorem nested_result_drops_initial : ∃ τ c σ',
    leafSumNest.Run leafSumNest.blank τ c σ' ∧ ∃ v x s, (Event.nestedResult 1 v x, s) ∈ τ ∧
      ∀ j, x j = 2 ∧ (leafSumNest.reduction 1 j).op (leafSumNest.initial 1 v j)
        (leafSumNest.total v 1 0 2 j) = 7 := by
  obtain ⟨τ, r, σ', hrun, -, v, x, s, he, hx⟩ := leafSumNest_run
  exact ⟨τ, _, σ', hrun, v, x, s, he, fun j => ⟨hx j, rfl⟩⟩

end HeartbeatCompiler
