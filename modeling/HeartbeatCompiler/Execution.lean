import HeartbeatCompiler.ForkJoin.Exec
import HeartbeatCompiler.Original

/-!
# `HeartbeatCompiler.Execution`: what a run executes

The consequences of `start_correct` that do not depend on the reductions, for every nest,
every answer of the polls and every interleaving.

* `exactly_once`: a run executes what the sequential nest executes, once.
* `promotion_strands_no_work`: a promotion splits the outermost level with something left.
* `promotions_bounded`: runs end, and there are no more promotions than iterations.
* `activation_contract_iff`: the return codes, the rows and the environments of the
  activations.
-/

set_option autoImplicit false

namespace HeartbeatCompiler

open ForkJoin Prog

/-- Nothing is followed but what is executed, for the results that say nothing
of slots and values. -/
def Tracked.untracked : Tracked := .exactly ∅ True

variable {n : Nest}

/-- With no level tracked there is nothing to merge. -/
theorem mergeable_untracked : Mergeable n .untracked :=
  ⟨fun _ hl => hl.elim, fun _ _ => trivial, fun _ _ hl => hl.elim, fun _ _ hl => hl.elim⟩

/-- Every event is allowed while no level is tracked. -/
theorem allowed_untracked (e : n.sig.Event) : Allowed n .untracked e := by
  cases e with
  | promoted f s mid high v => exact ⟨trivial, fun _ _ hl => hl.elim⟩
  | _ => trivial

/-- A run of the program, from its start. It need not be finished: the
configuration is any that can be reached. -/
abbrev Nest.Run (n : Nest) (σ : n.sig.Store) (τ : n.sig.Trace) (c : Conf n.sig)
    (σ' : n.sig.Store) : Prop :=
  Steps n.body n.start σ τ c σ'

namespace Nest.Run

variable {σ σ' : n.sig.Store} {τ : n.sig.Trace} {c : Conf n.sig} {r : Ret}

/-- Every event of a run is good. -/
theorem good (h : n.Run σ τ c σ') : ∀ e ∈ τ, Good n .untracked e :=
  (start_correct mergeable_untracked σ).good_of_steps h fun e _ => allowed_untracked e.1

/-- No run gets stuck. -/
theorem not_faulty (h : n.Run σ τ c σ') : ¬ c.Faulty :=
  (start_correct mergeable_untracked σ).not_faulty h fun e _ => allowed_untracked e.1

/-- Every run can be completed. -/
theorem completes (h : n.Run σ τ c σ') :
    ∃ τ' r σ'', n.Run σ (τ ++ τ') (.run (.ret r)) σ'' := by
  obtain ⟨τ', r, σ'', hs⟩ := ((start_correct mergeable_untracked σ).steps h
    fun e _ => allowed_untracked e.1).completes allowed_untracked
  exact ⟨τ', r, σ'', h.trans hs⟩

/-- What a run that has returned has done. -/
theorem finished (h : n.Run σ τ (.run (.ret r)) σ') : Finished n τ :=
  (start_correct mergeable_untracked σ).finished h fun e _ => allowed_untracked e.1

/-- There is no infinite run. -/
theorem acc (n : Nest) (σ : n.sig.Store) :
    Acc (fun b a : Conf n.sig × n.sig.Store => ∃ ℓ, Step n.body a.1 a.2 ℓ b.1 b.2)
      (n.start, σ) :=
  (start_correct mergeable_untracked σ).acc allowed_untracked

end Nest.Run

/-! ### The code that is executed -/

/-- A prefix of an ordered trace is ordered. -/
theorem Ordered.of_append {τ τ' : n.sig.Trace} (h : Ordered (τ ++ τ')) : Ordered τ :=
  fun x v σ y heq => h x v σ (y ++ τ') (by rw [heq]; simp)

/-- For every nest, every answer and every interleaving: no run gets stuck or
goes on for ever, and when it has returned, every piece of code of the
sequential nest was executed once and nothing else was. The code after a
nested call is executed only after everything below its iteration. -/
theorem exactly_once (n : Nest) (σ : n.sig.Store) :
    Acc (fun b a : Conf n.sig × n.sig.Store => ∃ ℓ, Step n.body a.1 a.2 ℓ b.1 b.2)
      (n.start, σ) ∧
    (∀ τ c σ', n.Run σ τ c σ' → ¬ c.Faulty ∧ Ordered τ ∧ work τ ≤ ↑n.sequential ∧
      ∃ τ' r σ'', n.Run σ (τ ++ τ') (.run (.ret r)) σ'') ∧
    ∀ τ r σ', n.Run σ τ (.run (.ret r)) σ' → (work τ).Nodup ∧
      ∀ w, w ∈ work τ ↔ w.vector ≠ [] ∧ n.InRangeFrom 0 w.vector ∧ n.HasKind w := by
  refine ⟨Nest.Run.acc n σ, fun τ c σ' h => ?_, fun τ r σ' h => ?_⟩
  · obtain ⟨τ', r, σ'', h'⟩ := h.completes
    have hruns := h'.finished.runs
    refine ⟨h.not_faulty, hruns.ordered.of_append, ?_, τ', r, σ'', h'⟩
    rw [← hruns.work_eq, work_append]
    exact Multiset.le_add_right _ _
  · rw [h.finished.runs.work_eq]
    refine ⟨Multiset.coe_nodup.mpr (Nest.nodup_iterations _ _ _), fun w => ?_⟩
    rw [Multiset.mem_coe, Nest.mem_sequential]

/-- Two loops of three iterations each, without live-outs. -/
def squareNest (rootLiveIn : Bool) : Nest := .uniform 2 3 rootLiveIn (fun _ => 0) (.add 8) 0

/-! ### Promotions -/

/-- What a call of the handler finds and does: what its task has not started
lies between the starting level and the receiving level; the handler declines
only if there is nothing, and otherwise splits the outermost level that has
something. -/
def OutermostFirst (n : Nest) (e : n.sig.Event × n.sig.Store) : Prop :=
  match e.1 with
  | .handlerCalled f _ => ∀ x ∈ n.unstartedAt f (e.2 (.cxts f.cxts)),
      (e.2 (.tmem f.tmem)).startingLevel ≤ x.1 ∧ x.1 ≤ f.level
  | .declined f => n.unstartedAt f (e.2 (.cxts f.cxts)) = []
  | .promoted f s _ _ _ => (∃ x ∈ n.unstartedAt f (e.2 (.cxts f.cxts)), x.1 = s) ∧
      ∀ x ∈ n.unstartedAt f (e.2 (.cxts f.cxts)), s ≤ x.1
  | _ => True

/-- In every run, every call of the handler finds what its task has not
started between the starting level and its own, and splits the outermost level
of it. -/
theorem promotion_strands_no_work (n : Nest) (σ : n.sig.Store) (τ : n.sig.Trace)
    (c : Conf n.sig) (σ' : n.sig.Store) (h : n.Run σ τ c σ') : ∀ e ∈ τ, OutermostFirst n e := by
  rintro ⟨e, s⟩ he
  have hgood := h.good _ he
  cases e with
  | handlerCalled f v => exact hgood
  | declined f => exact hgood
  | promoted f l mid high v => exact ⟨hgood.2.2.2.1, hgood.2.2.2.2⟩
  | _ => trivial

/-- A run of two loops with two promotions, the second one in the leftover
task. -/
theorem promotion_strands_no_work_square : ∃ τ c σ',
    (squareNest false).Run (squareNest false).blank τ c σ' ∧ (promotions τ).card = 2 ∧
      ∀ e ∈ τ, OutermostFirst (squareNest false) e := by
  have hexec : (exec (squareNest false).body 1000 [1, 1] (squareNest false).original
      (squareNest false).blank).any (fun o =>
        decide ((o.2.2.2.filterMap fun e => Event.promotion e.1).length = 2)) = true := by
    decide +kernel
  obtain ⟨r, σ', answers, τ, hrun, hcheck⟩ := exec_exists hexec
  exact ⟨τ, _, σ', hrun, of_decide_eq_true hcheck,
    promotion_strands_no_work _ _ _ _ _ hrun⟩

/-- The iterations of the nest, over all levels, are distinct. -/
theorem nodup_starts_sequential (n : Nest) : (starts ↑n.sequential).Nodup := by
  have hnodup : n.sequential.Nodup := Nest.nodup_iterations _ _ _
  rw [starts, Multiset.filterMap_coe, Multiset.coe_nodup, List.nodup_iff_pairwise_ne,
    List.pairwise_filterMap]
  refine List.Pairwise.imp_of_mem (fun {w w'} hw hw' hne v hv v' hv' => ?_) hnodup
  rintro rfl
  -- The pieces of code that start an iteration are told apart by the level.
  have hkind := (Nest.mem_sequential.mp hw).2.2
  have hkind' := (Nest.mem_sequential.mp hw').2.2
  cases w <;> cases w' <;> simp_all [Work.starts, Nest.HasKind]

/-- Every run ends. Its promotions hand over a range that is not empty, and
the level, the outer indices and the middle of a promotion are an iteration
that no other promotion has. So there are no more promotions than iterations. -/
theorem promotions_bounded (n : Nest) (σ : n.sig.Store) :
    Acc (fun b a : Conf n.sig × n.sig.Store => ∃ ℓ, Step n.body a.1 a.2 ℓ b.1 b.2)
      (n.start, σ) ∧
    (∀ τ c σ', n.Run σ τ c σ' →
      (∀ f s mid high v s', (Event.promoted f s mid high v, s') ∈ τ →
        mid < high ∧ ∃ u, u.length = s ∧ v = u ++ [mid]) ∧
      (promotions τ).Nodup ∧ (promotions τ).card ≤ (starts ↑n.sequential).card) ∧
    ∀ τ r σ', n.Run σ τ (.run (.ret r)) σ' → promotions τ ≤ starts (work τ) := by
  refine ⟨Nest.Run.acc n σ, fun τ c σ' h => ⟨fun f s mid high v s' he => ?_, ?_⟩,
    fun τ r σ' h => ?_⟩
  · have hgood := h.good _ he
    exact ⟨hgood.2.1, hgood.2.2.1⟩
  · obtain ⟨τ', r, σ'', h'⟩ := h.completes
    have hle : promotions τ ≤ starts ↑n.sequential := by
      refine le_trans ?_ ((Multiset.le_add_right _ _).trans h'.finished.runs.promotions_le)
      rw [promotions_append]
      exact Multiset.le_add_right _ _
    exact ⟨Multiset.nodup_of_le hle (nodup_starts_sequential n), Multiset.card_le_card hle⟩
  · have hruns := h.finished.runs
    rw [hruns.work_eq]
    exact (Multiset.le_add_right _ _).trans hruns.promotions_le

/-! ### Activations -/

/-- What an activation finds and leaves: the environments it loads belong to
activations that have not returned, and the entries it loads from there were
stored; it leaves its loop exactly if the promotion that was reported to it
split its level or one above; its return code counts the levels from the one
that was split, and the rows above that level, and the environments of its own
row if it goes on, are as they were. -/
def ActivationGood (n : Nest) (e : n.sig.Event × n.sig.Store) : Prop :=
  match e.1 with
  | .loadedLiveIn q => ∀ ρ, q.owner = some ρ → e.2 (.alive ρ) = true
  | .loadedLiveOut q => ∀ ρ, q.owner = some ρ → e.2 (.alive ρ) = true
  | .loadedEntries _ entries => entries ≠ none
  | .returned g r => 0 < r.rc ↔ ∃ l ∈ r.ended, l ≤ g.level
  | .left g r => r.rc = (r.ended.elim (-1) fun l => (g.level : Int) - l) ∧
      (∀ l ∈ r.ended, l ≤ g.level) ∧
      (∀ l : Nat, (l : Int) < g.level - Max.max r.rc 0 → e.2 (.cxts g.cxts) l = g.entry l) ∧
      (r.rc ≤ 0 → (e.2 (.cxts g.cxts) g.level).liveIn = (g.entry g.level).liveIn ∧
        (e.2 (.cxts g.cxts) g.level).liveOut = (g.entry g.level).liveOut)
  | _ => True

/-- A good event is good for its activation, but for the entries the root
slice loads. -/
theorem Good.activationGood {e : n.sig.Event × n.sig.Store} (h : Good n .untracked e)
    (hroot : n.rootLiveIn = false) : ActivationGood n e := by
  obtain ⟨e, s⟩ := e
  cases e with
  | loadedLiveIn q => exact h
  | loadedLiveOut q => exact h
  | loadedEntries l entries =>
      obtain ⟨hin, hnone⟩ := h
      rintro rfl
      obtain rfl := hnone.mp rfl
      simp [Nest.hasLiveIn, hroot] at hin
  | returned g r => exact h
  | left g r => exact ⟨h.rc, h.ended_le, h.rows, h.env⟩
  | _ => trivial

/-- In every run the entries that are read from a context were stored and
every activation keeps its contract, if and only if the root loop has no
live-in in an environment: the original function allocates that environment
and does not fill it. -/
theorem activation_contract_iff (n : Nest) (σ : n.sig.Store) :
    (∀ τ c σ', n.Run σ τ c σ' → ¬ c.Faulty ∧ ∀ e ∈ τ, ActivationGood n e) ↔
      n.rootLiveIn = false := by
  constructor
  · intro h
    by_contra hroot
    obtain ⟨τ, r, σ', hrun⟩ := (show n.Run σ [] n.start σ from .refl _ _).completes
    obtain ⟨s, hs⟩ := hrun.finished.entries (Bool.eq_true_of_not_eq_false hroot)
    exact (h _ _ _ hrun).2 _ hs rfl
  · exact fun hroot τ c σ' h =>
      ⟨h.not_faulty, fun e he => Good.activationGood (h.good e he) hroot⟩

/-- With a live-in in the environment of the root loop, the root slice loads
an entry that was not stored. -/
theorem root_live_ins_unfilled : ∃ τ c σ',
    (squareNest true).Run (squareNest true).blank τ c σ' ∧
      ∃ e ∈ τ, ¬ ActivationGood (squareNest true) e := by
  have hexec : (exec (squareNest true).body 1000 [] (squareNest true).original
      (squareNest true).blank).any (fun o => o.2.2.2.any fun e => match e.1 with
        | .loadedEntries _ entries => entries.isNone
        | _ => false) = true := by decide +kernel
  obtain ⟨r, σ', answers, τ, hrun, hcheck⟩ := exec_exists hexec
  obtain ⟨e, he, hfound⟩ := List.any_eq_true.mp hcheck
  refine ⟨τ, _, σ', hrun, e, he, ?_⟩
  obtain ⟨e, s⟩ := e
  cases e <;> simp_all [ActivationGood]

end HeartbeatCompiler
