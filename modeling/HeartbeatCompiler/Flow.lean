import Mathlib.Data.List.Nodup
import Mathlib.Logic.Function.Basic
import Mathlib.Logic.Relation

/-!
# `HeartbeatCompiler.Flow`: control-flow graphs and their runs

A graph gives each block its terminator. What the blocks compute is left open: `Sem` has a
function on the state for each block and a decision at its end. `Runs` is the sequence of
blocks from the start of one block until control is at another one, and does not go on from
a block at which it stops; `Rest` is what follows the terminator of a block.

A semantics that reads its decisions from a script drives a run along any path. Two graphs
that have the same runs for this semantics therefore have the same targets at each block
that can be reached (`target_of_rest`).
-/

set_option autoImplicit false

namespace Flow

variable {B C σ : Type}

/-- How a block ends. `other` is a terminator that is not a branch
instruction, such as a switch or a return; the cast to a branch instruction
fails on it. -/
inductive Terminator (B : Type) where
  | br (target : B)
  | condBr (ifTrue ifFalse : B)
  | other (targets : List B)
  deriving DecidableEq

namespace Terminator

/-- The successors in their order. A block may be there more than once. -/
def successors : Terminator B → List B
  | br t => [t]
  | condBr t f => [t, f]
  | other ts => ts

/-- The successor that a decision selects. A branch on a condition takes its
first one on 0 and its second one on 1; with one successor there is nothing to
decide. -/
def target (T : Terminator B) (i : Nat) : Option B :=
  T.successors[i % T.successors.length]?

/-- The terminator of a clone. -/
def map (f : B → C) : Terminator B → Terminator C
  | br t => br (f t)
  | condBr t e => condBr (f t) (f e)
  | other ts => other (ts.map f)

/-- The successors of a clone. -/
@[simp] theorem successors_map (f : B → C) (T : Terminator B) :
    (T.map f).successors = T.successors.map f := by
  cases T <;> rfl

/-- The target of a clone is the clone of the target. -/
@[simp] theorem target_map (f : B → C) (T : Terminator B) (i : Nat) :
    (T.map f).target i = (T.target i).map f := by
  simp [target]

/-- An unconditional branch has one target. -/
@[simp] theorem target_br (t : B) (i : Nat) : (br t).target i = some t := by
  simp [target, successors, Nat.mod_one]

/-- A branch on a condition takes its first successor on 0. -/
@[simp] theorem target_condBr_zero (t f : B) : (condBr t f).target 0 = some t := rfl

/-- And its second one on 1. -/
@[simp] theorem target_condBr_one (t f : B) : (condBr t f).target 1 = some f := rfl

/-- A target is a successor. -/
theorem mem_of_target {T : Terminator B} {i : Nat} {t : B} (h : T.target i = some t) :
    t ∈ T.successors :=
  List.mem_of_getElem? h

end Terminator

/-- The terminator of each block. -/
abbrev Graph (B : Type) := B → Terminator B

/-- The predecessors of a block, once for each edge. -/
def predecessors [DecidableEq B] (blocks : List B) (G : Graph B) (b : B) : List B :=
  blocks.flatMap fun c => List.replicate ((G c).successors.count b) c

/-- The source of the only edge to a block. -/
def singlePredecessor [DecidableEq B] (blocks : List B) (G : Graph B) (b : B) : Option B :=
  match predecessors blocks G b with
  | [c] => some c
  | _ => none

section Predecessors

variable [DecidableEq B] {blocks : List B} {G : Graph B} {b c d : B}

/-- Predecessors are the blocks with an edge to `b`. -/
theorem mem_predecessors : c ∈ predecessors blocks G b ↔ c ∈ blocks ∧ b ∈ (G c).successors := by
  simp only [predecessors, List.mem_flatMap, List.mem_replicate, ← Nat.pos_iff_ne_zero,
    List.count_pos_iff]
  constructor
  · rintro ⟨_, hc, hb, rfl⟩
    exact ⟨hc, hb⟩
  · rintro ⟨hc, hb⟩
    exact ⟨c, hc, hb, rfl⟩

/-- A single predecessor is the only one, with one edge. -/
theorem predecessors_of_single (h : singlePredecessor blocks G b = some c) :
    predecessors blocks G b = [c] := by
  unfold singlePredecessor at h
  split at h
  · rename_i hp
    rw [hp, Option.some.inj h]
  · cases h

/-- The only predecessor. -/
theorem eq_of_single (h : singlePredecessor blocks G b = some c) (hd : d ∈ blocks)
    (hb : b ∈ (G d).successors) : d = c := by
  have hmem : d ∈ predecessors blocks G b := mem_predecessors.mpr ⟨hd, hb⟩
  rw [predecessors_of_single h] at hmem
  exact List.mem_singleton.mp hmem

/-- A single predecessor is a predecessor. -/
theorem mem_of_single (h : singlePredecessor blocks G b = some c) :
    c ∈ blocks ∧ b ∈ (G c).successors :=
  mem_predecessors.mp (predecessors_of_single h ▸ List.mem_singleton_self c)

/-- The predecessors are those of one block, if no other one has an edge to
`b`. -/
theorem predecessors_eq_replicate (hnodup : blocks.Nodup) (hc : c ∈ blocks)
    (h : ∀ d ∈ blocks, b ∈ (G d).successors → d = c) :
    predecessors blocks G b = List.replicate ((G c).successors.count b) c := by
  obtain ⟨l, r, rfl⟩ := List.append_of_mem hc
  -- the blocks before `c` and after it have no edge to `b`
  have hnone : ∀ ds : List B, (∀ d ∈ ds, d ∈ l ++ c :: r ∧ d ≠ c) →
      (ds.flatMap fun d => List.replicate ((G d).successors.count b) d) = [] := by
    intro ds hds
    refine List.flatMap_eq_nil_iff.mpr fun d hd => ?_
    have hcount : (G d).successors.count b = 0 :=
      List.count_eq_zero.mpr fun hb => (hds d hd).2 (h d (hds d hd).1 hb)
    rw [hcount, List.replicate_zero]
  have hdisj := List.nodup_append.mp hnodup
  have hr := List.nodup_cons.mp hdisj.2.1
  unfold predecessors
  rw [List.flatMap_append, List.flatMap_cons,
    hnone l fun d hd => ⟨by simp [hd], hdisj.2.2 d hd c (by simp)⟩,
    hnone r fun d hd => ⟨by simp [hd], fun hdc => hr.1 (hdc ▸ hd)⟩,
    List.nil_append, List.append_nil]

/-- A new terminator without an edge to `b` adds no predecessor. -/
theorem notMem_successors_update {T : Terminator B} (hT : b ∉ T.successors)
    (h : d ≠ c → b ∉ (G d).successors) : b ∉ (Function.update G c T d).successors := by
  by_cases hd : d = c
  · rw [hd, Function.update_self]
    exact hT
  · rw [Function.update_of_ne hd]
    exact h hd

end Predecessors

/-- What a block does to the state, and the decision at its end. Both are
arbitrary: a result for every `Sem` holds whatever the blocks contain. -/
structure Sem (B σ : Type) where
  exec : B → σ → σ
  decide : B → σ → Nat

/-- The blocks that are run from the start of `b` until control is at the
start of `c`. A run does not go on from a block at which runs stop. -/
inductive Runs (G : Graph B) (M : Sem B σ) (stop : B → Prop) :
    B → σ → List B → B → σ → Prop
  | refl (b : B) (s : σ) : Runs G M stop b s [] b s
  | step {b t c : B} {s s' : σ} {tr : List B} : ¬ stop b →
      (G b).target (M.decide b (M.exec b s)) = some t →
      Runs G M stop t (M.exec b s) tr c s' → Runs G M stop b s (b :: tr) c s'

/-- The blocks that are run from the terminator of `b` until control is at the
start of `c`: a run that begins with a decision. -/
def Rest (G : Graph B) (M : Sem B σ) (stop : B → Prop) (b : B) (s : σ) (tr : List B) (c : B)
    (s' : σ) : Prop :=
  ∃ t, (G b).target (M.decide b s) = some t ∧ Runs G M stop t s tr c s'

variable {G G' : Graph B} {M : Sem B σ} {stop : B → Prop} {a b c d t : B} {s s' : σ}
  {tr : List B}

/-- A run does not go on from a block at which it stops. -/
theorem Runs.of_stop (h : Runs G M stop b s tr c s') (hb : stop b) :
    tr = [] ∧ c = b ∧ s' = s := by
  cases h with
  | refl => exact ⟨rfl, rfl, rfl⟩
  | step hns => exact absurd hb hns

/-- A run to another block begins with the block itself. -/
theorem Runs.head (h : Runs G M stop b s tr c s') (hne : b ≠ c) : ∃ t tr',
    (G b).target (M.decide b (M.exec b s)) = some t ∧ tr = b :: tr' ∧
      Runs G M stop t (M.exec b s) tr' c s' := by
  cases h with
  | refl => exact absurd rfl hne
  | @step _ t _ _ _ tr' _ ht hrest => exact ⟨t, tr', ht, rfl, hrest⟩

/-- A run goes on where another one ended. -/
theorem Runs.trans {tr' : List B} {s'' : σ} (h : Runs G M stop b s tr c s')
    (h' : Runs G M stop c s' tr' d s'') : Runs G M stop b s (tr ++ tr') d s'' := by
  induction h with
  | refl => exact h'
  | step hns ht _ ih => exact .step hns ht (ih h')

/-- A run to a block at which runs stop goes through where another run ended. -/
theorem Runs.rest {tr' : List B} {s'' : σ} (h : Runs G M stop b s tr c s')
    (h' : Runs G M stop b s tr' d s'') (hd : stop d) :
    ∃ tr₂, tr' = tr ++ tr₂ ∧ Runs G M stop c s' tr₂ d s'' := by
  induction h generalizing tr' with
  | refl => exact ⟨tr', rfl, h'⟩
  | step hns ht _ ih =>
      cases h' with
      | refl => exact absurd hd hns
      | step _ ht' hrest =>
          obtain rfl := Option.some.inj (ht.symm.trans ht')
          obtain ⟨tr₂, rfl, hrest₂⟩ := ih hrest
          exact ⟨tr₂, rfl, hrest₂⟩

/-- There is one run to a block at which runs stop. -/
theorem Runs.unique {tr' : List B} {s'' : σ} (h : Runs G M stop b s tr c s') (hc : stop c)
    (h' : Runs G M stop b s tr' d s'') (hd : stop d) : tr' = tr ∧ d = c ∧ s'' = s' := by
  -- the longer run goes on from where the shorter one has stopped, so it does not
  obtain ⟨tr₂, rfl, hrest⟩ := h.rest h' hd
  obtain ⟨rfl, rfl, rfl⟩ := hrest.of_stop hc
  exact ⟨List.append_nil tr, rfl, rfl⟩

/-- The run from `b` to the first block at which runs stop, if `fuel` blocks
are enough. -/
def run (G : Graph B) (M : Sem B σ) (stop : B → Prop) [DecidablePred stop] :
    Nat → B → σ → Option (B × σ)
  | 0, _, _ => none
  | fuel + 1, b, s =>
    if stop b then some (b, s)
    else ((G b).target (M.decide b (M.exec b s))).bind fun t => run G M stop fuel t (M.exec b s)

/-- The result of `run` is that of a run. -/
theorem exists_runs [DecidablePred stop] {fuel : Nat} (h : run G M stop fuel b s = some (c, s')) :
    stop c ∧ ∃ tr, Runs G M stop b s tr c s' := by
  induction fuel generalizing b s with
  | zero => cases h
  | succ fuel ih =>
      rw [run] at h
      split at h
      · rename_i hstop
        obtain ⟨rfl, rfl⟩ := Prod.mk.inj (Option.some.inj h)
        exact ⟨hstop, [], .refl b s⟩
      · rename_i hns
        obtain ⟨t, ht, hrun⟩ := Option.bind_eq_some_iff.mp h
        obtain ⟨hstop, tr, hruns⟩ := ih hrun
        exact ⟨hstop, b :: tr, .step hns ht hruns⟩

/-- A run that may stop earlier. -/
theorem Runs.weaken {stop' : B → Prop} (hstop : ∀ b, stop b → stop' b)
    (h : Runs G M stop' b s tr c s') : Runs G M stop b s tr c s' := by
  induction h with
  | refl b s => exact .refl b s
  | step hns ht _ ih => exact .step (mt (hstop _) hns) ht ih

/-- A run is cut where it comes to a block of a larger set for the first time.
-/
theorem Runs.cut {stop' : B → Prop} (hstop : ∀ b, stop b → stop' b)
    (h : Runs G M stop b s tr c s') (hc : stop c) : ∃ tr₁ d s₁ tr₂,
      Runs G M stop' b s tr₁ d s₁ ∧ stop' d ∧ Runs G M stop d s₁ tr₂ c s' ∧ tr = tr₁ ++ tr₂ := by
  induction h with
  | refl b s => exact ⟨[], b, s, [], .refl b s, hstop b hc, .refl b s, rfl⟩
  | @step b t c s s' tr hns ht hrest ih =>
      -- the run is at such a block now, or later
      by_cases hb : stop' b
      · exact ⟨[], b, s, b :: tr, .refl b s, hb, .step hns ht hrest, rfl⟩
      · obtain ⟨tr₁, d, s₁, tr₂, h₁, hd, h₂, rfl⟩ := ih hc
        exact ⟨b :: tr₁, d, s₁, tr₂, .step hb ht h₁, hd, h₂, rfl⟩

/-- A run of a graph, inside one that has more blocks and more state. -/
theorem Runs.embed {τ : Type} {H : Graph C} {N : Sem C τ} {stop' : C → Prop} {f : B → C}
    {e : σ → τ} (hexec : ∀ b s, ¬ stop b → N.exec (f b) (e s) = e (M.exec b s))
    (htarget : ∀ b s t, ¬ stop b → (G b).target (M.decide b s) = some t →
      (H (f b)).target (N.decide (f b) (e s)) = some (f t))
    (hstop : ∀ b, ¬ stop b → ¬ stop' (f b)) (h : Runs G M stop b s tr c s') :
    Runs H N stop' (f b) (e s) (tr.map f) (f c) (e s') := by
  induction h with
  | refl b s => exact .refl (f b) (e s)
  | @step b t c s s' tr hns ht _ ih =>
      refine .step (hstop b hns) ?_ (by rwa [hexec b s hns])
      rw [hexec b s hns]
      exact htarget b _ t hns ht

/-- Runs depend only on the targets. -/
theorem Runs.mono (hG : ∀ b i, (G b).target i = (G' b).target i)
    (h : Runs G M stop b s tr c s') : Runs G' M stop b s tr c s' := by
  induction h with
  | refl b s => exact .refl b s
  | step hns ht _ ih => exact .step hns (hG _ _ ▸ ht) ih

/-- What follows a terminator depends only on the targets. -/
theorem rest_congr (hG : ∀ b i, (G b).target i = (G' b).target i) :
    Rest G M stop b s tr c s' ↔ Rest G' M stop b s tr c s' := by
  constructor
  · rintro ⟨t, ht, hruns⟩
    exact ⟨t, hG b _ ▸ ht, hruns.mono hG⟩
  · rintro ⟨t, ht, hruns⟩
    exact ⟨t, (hG b _).symm ▸ ht, hruns.mono fun b i => (hG b i).symm⟩

/-- Runs of a graph in which each block stands for a block of another one. -/
theorem Runs.image {H : Graph C} {N : Sem C σ} {stop' : C → Prop} {f : B → C}
    (hexec : ∀ b, N.exec (f b) = M.exec b)
    (htarget : ∀ b s, (H (f b)).target (N.decide (f b) s) = ((G b).target (M.decide b s)).map f)
    (hstop : ∀ b, stop' (f b) ↔ stop b) (h : Runs G M stop b s tr c s') :
    Runs H N stop' (f b) s (tr.map f) (f c) s' := by
  induction h with
  | refl b s => exact .refl (f b) s
  | @step b t c s s' tr hns ht _ ih =>
      have ht' : (H (f b)).target (N.decide (f b) (N.exec (f b) s)) = some (f t) := by
        rw [htarget, hexec, ht, Option.map_some]
      exact .step (mt (hstop b).mp hns) ht' (by rwa [hexec])

/-- `c` is reached from `b` along blocks at which runs do not stop. -/
def Reaches (G : Graph B) (stop : B → Prop) : B → B → Prop :=
  Relation.ReflTransGen fun b c => c ∈ (G b).successors ∧ ¬ stop c

/-- A path from `a` to `b` on which `u` is not run after `a`. -/
def Avoids (G : Graph B) (u : B) : B → B → Prop :=
  Relation.ReflTransGen fun x y => y ∈ (G x).successors ∧ y ≠ u

/-- Every path from `a` to `b` runs `u`; `a` itself is run by every path. The
path may run `u` at its end, so that a block dominates itself. -/
def Dominates (G : Graph B) (a u b : B) : Prop := u ≠ a → ¬ Avoids G u a b

end Flow
