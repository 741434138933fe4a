import HeartbeatCompiler.Reductions

/-!
# `HeartbeatCompiler.Races`: what the tasks share

The tasks of a run share contexts, task memories, environments and reduction arrays without
any lock. These results say where that is safe, for every nest, every answer of the polls,
every interleaving and any operators of the reductions.

* `race_on_slot`: only slots of reduction arrays are raced on, and those of the leaf loop are
  not.
* `slots_race_free`: nor are those of another level, while no promotion made in a leftover
  task splits at or above a level with that live-out that is still left to it.
* `accessed_frames_live`: environments and reduction arrays are accessed only while the
  activation in whose frame they lie has not returned.
* `slots_used_once`: under the same condition each slot that is read was written once, by the
  task it stands for.
-/

set_option autoImplicit false

namespace HeartbeatCompiler

open ForkJoin Prog

variable {n : Nest}

/-- The slots of the levels in `L` that have live-outs, but not the values in
them. Races are about who accesses a slot, so the operators are of no
interest. -/
def Nest.accessed (n : Nest) (L : Set Nat) : Tracked where
  levels := {l | l ∈ L ∧ n.numLiveOuts l ≠ 0}
  exact := ∅
  exact_subset := Set.empty_subset _
  accessed := {l | n.numLiveOuts l ≠ 0}
  promotes := True

/-- Tracking the accesses alone promises nothing about the values, so that no
merge has to give one back. -/
theorem mergeable_accessed (L : Set Nat) : Mergeable n (n.accessed L) where
  liveOut _ hl := hl.2
  accessed _ hl := hl
  three _ _ hl := hl.elim
  two _ _ hl := hl.elim

/-- An event is allowed for it if it keeps the slots apart at the levels of
`L` that have live-outs. -/
theorem allowed_accessed {L : Set Nat} {e : n.sig.Event}
    (h : ∀ l ∈ L, n.numLiveOuts l ≠ 0 → SlotsApart n l e) : Allowed n (n.accessed L) e := by
  cases e with
  | promoted f s mid high v => exact ⟨trivial, fun hs l hl hlow => h l hl.1 hl.2 hs hlow⟩
  | _ => trivial

namespace Nest.Run

variable {σ σ' : n.sig.Store} {τ : n.sig.Trace} {c : Conf n.sig} {T : Tracked}

/-- The slots of the leaf loop stay apart in every run. -/
theorem slotsApart_leaf (h : n.Run σ τ c σ') : ∀ e ∈ τ, SlotsApart n n.leafLevel e.1 := by
  rintro ⟨e, s'⟩ he
  cases e with
  | promoted f s mid high v => exact fun hs _ => lt_of_lt_of_le hs (h.base_le he)
  | _ => trivial

/-- No run reaches a race on a location that is accounted for. -/
theorem free_of_race (h : n.Run σ τ c σ') (hT : Mergeable n T)
    (hall : ∀ e ∈ τ, Allowed n T e.1) {x : Loc} (hx : c.Race (S := n.sig) x) : x ∈ T.free :=
  (start_correct hT σ).free_of_race h hall hx

end Nest.Run

/-- The slots of the levels other than `l` that have live-outs. -/
theorem mem_free_accessed {l : Nat} {x : Loc} (h : x ∈ (n.accessed {l}).free) :
    ∃ k q i, x = .reduction k q i ∧ k ≠ l ∧ n.numLiveOuts k ≠ 0 := by
  cases x with
  | reduction k q i => exact ⟨k, q, i, rfl, fun hk => h.1 ⟨hk, h.2⟩, h.2⟩
  | _ => exact h.elim

/-- In every run, for every nest and any operators: two tasks that run side by
side never race on a context, a task memory, an environment or a frame, nor on
a slot of the leaf loop. What can be raced on is a slot of another level, one
that has live-outs: no task accesses a slot of a level that has none. -/
theorem race_on_slot (n : Nest) (σ : n.sig.Store) (τ : n.sig.Trace) (c : Conf n.sig)
    (σ' : n.sig.Store) (h : n.Run σ τ c σ') (x : Loc) (hx : c.Race (S := n.sig) x) :
    ∃ l q i, x = .reduction l q i ∧ l ≠ n.leafLevel ∧ n.numLiveOuts l ≠ 0 := by
  have hall : ∀ e ∈ τ, Allowed n (n.accessed {n.leafLevel}) e.1 := fun e he =>
    allowed_accessed fun l hl _ => Set.mem_singleton_iff.mp hl ▸ h.slotsApart_leaf e he
  exact mem_free_accessed (h.free_of_race (mergeable_accessed _) hall hx)

/-- The second promotion of the leaf loop of a leftover task splits the outer
level again, before the second task of the first one has reported its result:
both are about to store into the same slot. -/
theorem outerSumNest_race : ∃ τ c σ', outerSumNest.Run outerSumNest.blank τ c σ' ∧
    c.Race (S := outerSumNest.sig) (.reduction 0 (.kids []) 1) := by
  have hplay : (play outerSumNest.body
      [([], 1, 41), ([false], 1, 24), ([true], 0, 44), ([false, true], 0, 44)]
      (outerSumNest.start, outerSumNest.blank)).any (fun o =>
        o.1.raceWith (S := outerSumNest.sig) (.reduction 0 (.kids []) 1)
          fun f => !(f ⟨fun _ => 0, []⟩).log.isEmpty) = true := by decide +kernel
  obtain ⟨⟨c, σ'⟩, ho, hrace⟩ := (Option.any_eq_true _ _).mp hplay
  obtain ⟨τ, hrun⟩ := play_sound ho
  exact ⟨τ, c, σ', hrun, Conf.race_of_raceWith (by rintro f hf rfl; cases hf) hrace⟩

/-- That race is one on a slot, of a level that is not the leaf. -/
theorem race_on_slot_outerSum : ∃ τ c σ' x,
    outerSumNest.Run outerSumNest.blank τ c σ' ∧ c.Race (S := outerSumNest.sig) x ∧
      ∃ l q i, x = .reduction l q i ∧
        l ≠ outerSumNest.leafLevel ∧ outerSumNest.numLiveOuts l ≠ 0 := by
  obtain ⟨τ, c, σ', hrun, hx⟩ := outerSumNest_race
  exact ⟨τ, c, σ', _, hrun, hx, race_on_slot _ _ _ _ _ hrun _ hx⟩

/-- In a run in which no promotion made in a leftover task splits at or above
level `l` while `l` is still left to that task, there is no race on a slot of
level `l`. -/
theorem slots_race_free (n : Nest) (l : Nat) (σ : n.sig.Store)
    (τ : n.sig.Trace) (c : Conf n.sig) (σ' : n.sig.Store) (h : n.Run σ τ c σ')
    (hapart : ∀ e ∈ τ, SlotsApart n l e.1) (q : Block) (i : Nat) :
    ¬ c.Race (S := n.sig) (.reduction l q i) := by
  intro hx
  have hall : ∀ e ∈ τ, Allowed n (n.accessed {l}) e.1 := fun e he =>
    allowed_accessed fun k hk _ => Set.mem_singleton_iff.mp hk ▸ hapart e he
  obtain ⟨k, q', i', heq, hk, -⟩ :=
    mem_free_accessed (h.free_of_race (mergeable_accessed _) hall hx)
  cases heq
  exact hk rfl

/-- The outer level of the two loops. -/
theorem slots_race_free_outerSum : ∃ τ c σ',
    outerSumNest.Run outerSumNest.blank τ c σ' ∧ (promotions τ).card = 1 ∧
      ∀ q i, ¬ c.Race (S := outerSumNest.sig) (.reduction 0 q i) := by
  obtain ⟨τ, r, σ', hrun, hone, hapart⟩ := outerSumNest_run
  exact ⟨τ, _, σ', hrun, hone,
    slots_race_free outerSumNest 0 _ _ _ _ hrun fun e he => hapart e he 0⟩

/-! ### Frames that have been left -/

/-- In every run, for every nest and any operators: an environment or a
reduction array that some task is about to access lies in the frame of an
activation that has not returned. -/
theorem accessed_frames_live (n : Nest) (σ : n.sig.Store) (τ : n.sig.Trace) (c : Conf n.sig)
    (σ' : n.sig.Store) (h : n.Run σ τ c σ') (x : Loc) (hx : c.Accesses (S := n.sig) x) :
    Live n σ' x :=
  (start_correct (mergeable_accessed ∅) σ).live_of_accesses h
    (fun _ _ => allowed_accessed fun _ hl => hl.elim) hx

/-- Both tasks of the race store into the frame of the root activation. -/
theorem accessed_frames_live_outerSum : ∃ τ c σ' x, outerSumNest.Run outerSumNest.blank τ c σ' ∧
    c.Accesses (S := outerSumNest.sig) x ∧ x.owner = some [] ∧ σ' (.alive []) = true := by
  obtain ⟨τ, c, σ', hrun, hx⟩ := outerSumNest_race
  have hacc := hx.accesses
  exact ⟨τ, c, σ', _, hrun, hacc, rfl, accessed_frames_live _ _ _ _ _ hrun _ hacc [] rfl⟩

/-! ### What a slot goes through -/

/-- In every run the slots of the leaf loop are used once, and so are those of
another level while no promotion made in a leftover task splits at or above
that level while it is still left to that task. The operators of the
reductions do not matter. -/
theorem slots_used_once (n : Nest) (l : Nat) (hm : n.numLiveOuts l ≠ 0) (σ : n.sig.Store)
    (τ : n.sig.Trace) (c : Conf n.sig) (σ' : n.sig.Store) (h : n.Run σ τ c σ')
    (hl : l = n.leafLevel ∨ ∀ e ∈ τ, SlotsApart n l e.1) : ∀ e ∈ τ, UsedOnce n {l} e := by
  have hapart : ∀ e ∈ τ, SlotsApart n l e.1 := by
    rcases hl with rfl | hapart
    · exact h.slotsApart_leaf
    · exact hapart
  have hgood := h.good_of_allowed (mergeable_accessed {l}) fun e he =>
    allowed_accessed fun k hk _ => Set.mem_singleton_iff.mp hk ▸ hapart e he
  exact fun e he => (hgood e he).usedOnce fun k hk => ⟨hk, Set.mem_singleton_iff.mp hk ▸ hm⟩

/-- A product over three iterations, which is split after the first one. -/
theorem slots_used_once_product : ∃ τ c σ',
    productNest.Run productNest.blank τ c σ' ∧ (promotions τ).card = 1 ∧
      ∀ e ∈ τ, UsedOnce productNest {0} e := by
  have hexec : (exec productNest.body 1000 [1] productNest.original
      productNest.blank).any (fun o =>
        decide ((o.2.2.2.filterMap fun e => Event.promotion e.1).length = 1)) = true := by
    decide +kernel
  obtain ⟨r, σ', answers, τ, hrun, hcheck⟩ := exec_exists hexec
  exact ⟨τ, _, σ', hrun, of_decide_eq_true hcheck,
    slots_used_once productNest 0 Nat.one_ne_zero _ _ _ _ hrun (.inl rfl)⟩

end HeartbeatCompiler
