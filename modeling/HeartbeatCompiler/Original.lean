import HeartbeatCompiler.Entry
import HeartbeatCompiler.NestLoop
import HeartbeatCompiler.Handler

/-!
# `HeartbeatCompiler.Original`: the whole program

Slices are correct, by induction on what they have to run, and so is the original function
(`start_correct`). With the adequacy of the weakest preconditions this says of every run that
no task gets stuck, that every event is good, and what a finished run has executed.
-/

set_option autoImplicit false

namespace HeartbeatCompiler

open ForkJoin Prog

variable {n : Nest} {T : Tracked}

/-- A specification for the slices with at most `M` iterations holds for
smaller bounds as well. -/
theorem SliceSpec.mono {M M' : Nat} (h : SliceSpec n T M) (hM : M' ≤ M) : SliceSpec n T M' :=
  fun f v a b σ hpre hload => h f v a b σ hpre (lt_of_lt_of_le hload hM)

/-- The loop of an activation, from its first iteration on, of whichever of
the three kinds it is. -/
theorem loop_correct (hT : Mergeable n T) {g : Activation} {v : List Nat} {a b : Nat}
    {σ₀ σ : n.sig.Store} {τ : n.sig.Trace}
    (ih : SliceSpec n T (n.load v (σ₀ (.cxts g.cxts)) (g.path.low n.leafLevel) a b))
    (h : Inside T g v a b a σ₀ σ) (hτ : Executes v 0 [] 0 τ) :
    Correct T (g.toFrame.scope n.leafLevel v (σ₀ (.cxts g.cxts)))
      (n.body (n.loop g a (n.privateCopies g.level))) σ
      (Sig.Post.after (S := n.sig) (SlicePost T g.toFrame v a b σ₀) τ) := by
  have hhandler := HandlerPre.promotionHandler_correct hT ih
  have hacc : n.privateCopies g.level = n.total v g.level a a :=
    (Nest.total_of_le v g.level (le_refl a)).symm
  have hruns : Executes v (firstOf v a a) (n.iterations v a a) 0 τ := by
    rw [firstOf, if_neg (lt_irrefl a), Nest.iterations_of_le v (le_refl a)]
    exact hτ
  rw [Nest.loop]
  -- The three loops of the generated code: the chunked leaf, the plain leaf and a loop around a
  -- nested call. The last one needs the specification of slices, the other two that of the
  -- handler.
  by_cases hleaf : g.level = n.leafLevel
  · rw [if_pos hleaf]
    by_cases hchunk : n.chunk.isSome = true
    · rw [if_pos hchunk]
      exact chunkedLoop_correct hT hleaf hchunk hhandler (b - a) (le_refl _) h hacc hruns
    · rw [if_neg hchunk]
      exact leafLoop_correct hT hleaf hhandler (b - a) rfl h hacc hruns
  · rw [if_neg hleaf]
    have hnest : g.level < n.leafLevel := lt_of_le_of_ne h.pre.level_le hleaf
    exact nestLoop_correct hT hnest ih (b - a) rfl h hacc hruns

/-- Slices are correct. -/
theorem slice_correct (hT : Mergeable n T) (M : Nat) : SliceSpec n T M := by
  -- A slice calls slices with less to run.
  induction M with
  | zero => exact fun f v a b σ _ hload => absurd hload (Nat.not_lt_zero _)
  | succ M ih =>
      intro f v a b σ h hload
      have hle := Nat.le_of_lt_succ hload
      have ih' := ih.mono hle
      exact slice_bind hT h fun liveOut σ' τ hin hτ _ =>
        loop_correct (g := ⟨f, σ (.cxts f.cxts), v, b, liveOut⟩) hT ih' hin hτ

/-- What a finished run has done:

- `runs`: the pieces of the nest, each exactly once and each after what it
  needs;
- `in_order`: in their sequential order up to the first promotion;
- `result`: it has delivered a result if the root loop has live-outs;
- `entries`: with a live-in in the environment of the root loop, an entry was
  loaded that was not stored. -/
structure Finished (n : Nest) (τ : n.sig.Trace) : Prop where
  runs : Runs [] (firstOf [] (n.startIter []) (n.maxIter [])) ↑n.sequential τ
  in_order : InOrder n.sequential τ
  result : n.numLiveOuts 0 ≠ 0 → ∃ x s, (Event.result x, s) ∈ τ
  entries : n.rootLiveIn = true → ∃ s, (Event.loadedEntries 0 none, s) ∈ τ

/-- The frame of the root slice. -/
def rootFrame : Frame := ⟨[], 0, [], [], 0⟩

/-- The store in which the original function calls the root slice:

- `start`, `max`: the row of the root loop has the range of the loop;
- `liveIn`: with live-ins it leads to an environment, and no entry of this was
  stored;
- `liveOut`: with live-outs it leads to the arrays of the original function;
- `startingLevel`, `chunk`: the task memory has been reset. -/
structure RootStore (n : Nest) (T : Tracked) (σ : n.sig.Store) : Prop where
  start : (σ (.cxts []) 0).start = some (n.startIter [])
  max : (σ (.cxts []) 0).max = some (n.maxIter [])
  liveIn : n.rootLiveIn = true → (σ (.cxts []) 0).liveIn = some .original ∧
    σ (.liveInEnv .original) = none
  liveOut : n.numLiveOuts 0 ≠ 0 →
    (σ (.cxts []) 0).liveOut = some (n.liveOutPtr 0 .original) ∧
    (n.numLiveOuts 0 ≠ 1 → σ (.liveOutEnv .original) = some .original)
  startingLevel : (σ (.tmem [])).startingLevel = 0
  chunk : ChunkReady n (σ (.tmem []))

/-- The root slice is called as its contract asks for, with no loop around it
and no outer indices. -/
theorem RootStore.slicePre {σ : n.sig.Store} (h : RootStore n T σ) :
    SlicePre T rootFrame [] (n.startIter []) (n.maxIter []) σ where
  length := rfl
  level_le := Nat.zero_le _
  base_le := le_refl 0
  low_le_base := le_refl 0
  tmem_eq := rfl
  cxts_suffix := List.suffix_rfl
  start := h.start
  max := h.max
  start_lt := n.startIter_lt _
  max_lt := n.maxIter_lt _
  env :=
    { liveIn := fun hin => by
        have hroot : n.rootLiveIn = true := by simpa [Nest.hasLiveIn, rootFrame] using hin
        obtain ⟨h₁, h₂⟩ := h.liveIn hroot
        exact ⟨.original, h₁, fun ρ hρ => (by cases hρ), h₂⟩
      liveOut := fun hm => by
        obtain ⟨h₁, h₂⟩ := h.liveOut hm
        exact ⟨.original, h₁, fun ρ hρ => (by cases hρ), h₂⟩ }
  pending := .root _ _
  suspended :=
    -- Nothing is suspended above the root slice.
    { start := fun l _ hl => absurd hl (Nat.not_lt_zero l)
      max := fun l _ hl => absurd hl (Nat.not_lt_zero l)
      lt := fun l _ hl => absurd hl (Nat.not_lt_zero l)
      env := fun l _ hl => absurd hl (Nat.not_lt_zero l)
      kids := fun l _ hl => absurd hl (Nat.not_lt_zero l)
      fresh := fun l _ q i hslot => absurd hslot.1 (Nat.not_lt_zero l) }
  tmem := ⟨Nat.zero_le _, fun l _ hl => absurd hl (Nat.not_lt_zero l), h.chunk⟩
  own_empty hlt := absurd hlt (by
    rw [show (σ (.tmem rootFrame.cxts)).startingLevel = 0 from h.startingLevel]
    exact Nat.not_lt_zero _)
  alive ρ hρ := hρ.elim

/-- The root slice is correct, and it loads the entries of its environment. -/
theorem RootStore.slice_correct (hT : Mergeable n T) {σ : n.sig.Store} (h : RootStore n T σ) :
    Correct T (rootFrame.scope n.leafLevel [] (σ (.cxts []))) (n.slice rootFrame) σ
      fun r s τ => SlicePost T rootFrame [] (n.startIter []) (n.maxIter []) σ r s τ ∧
        Loaded rootFrame [] τ := by
  refine slice_bind hT h.slicePre fun liveOut σ' τ hin hτ hloaded => ?_
  refine (loop_correct (g := ⟨rootFrame, σ (.cxts []), [], n.maxIter [], liveOut⟩) hT
    (HeartbeatCompiler.slice_correct hT _) hin hτ).mono fun r s τ' hpost => ⟨hpost, fun hl => ?_⟩
  exact (hloaded hl).imp fun _ hs => List.mem_append_left _ hs

/-- The environment for the live-ins of the root loop. -/
theorem allocateRootLiveIns_bind {σ : n.sig.Store} {Q : n.sig.Post} {k : PUnit → Prog n.sig Ret}
    (h : ∀ σ' : n.sig.Store, (∀ x : Loc, x ≠ .cxts [] → x ≠ .liveInEnv .original → σ' x = σ x) →
      (σ' (.cxts []) 0).start = (σ (.cxts []) 0).start →
      (σ' (.cxts []) 0).max = (σ (.cxts []) 0).max →
      (n.rootLiveIn = true → (σ' (.cxts []) 0).liveIn = some .original ∧
        σ' (.liveInEnv .original) = none) →
      CorrectIn T Set.univ Set.univ (k ⟨⟩) σ' Q) :
    CorrectIn T Set.univ Set.univ (n.allocateRootLiveIns >>= k) σ Q := by
  rw [Nest.allocateRootLiveIns]
  by_cases hroot : n.rootLiveIn = true
  · rw [if_pos hroot, bind_bind]
    refine Wp.write_bind (S := n.sig) (Set.mem_univ _) (Set.mem_univ _) Held.none.live ?_
    refine Wp.modify_bind (S := n.sig) (Set.mem_univ _) (Set.mem_univ _) Held.none.live
      (h _ ?_ ?_ ?_ ?_)
    · intro x hx hx'
      rw [Function.update_of_ne hx, Function.update_of_ne hx']
    · simp
    · simp
    · simp
  · rw [if_neg hroot]
    exact h σ (fun _ _ _ => rfl) rfl rfl fun h' => absurd h' hroot

/-- Merging the slot of the root slice with the initial values. -/
theorem reduceRoot_bind {σ : n.sig.Store} {Q : n.sig.Post} {k : PUnit → Prog n.sig Ret}
    (hval : 0 ∈ T.exact → (σ (.reduction 0 .original 0)).values =
      n.total [] 0 (n.startIter []) (n.maxIter []))
    (h : ∀ τ, Executes [] 0 [] 0 τ → (n.numLiveOuts 0 ≠ 0 → ∃ x s, (Event.result x, s) ∈ τ) →
      CorrectIn T Set.univ Set.univ (k ⟨⟩) σ (Q.after τ)) :
    CorrectIn T Set.univ Set.univ (n.reduceRoot >>= k) σ Q := by
  rw [Nest.reduceRoot]
  by_cases hm : n.numLiveOuts 0 = 0
  · rw [if_pos hm]
    exact h [] .nil fun hm' => absurd hm hm'
  · rw [if_neg hm, bind_bind]
    refine Wp.read_bind (S := n.sig) (Set.mem_univ _) Held.none.live ?_
    refine Wp.log_bind (S := n.sig) fun _ s _ => ⟨fun hl j => ?_, ?_⟩
    · show (n.reduction 0 j).op (n.initial 0 [] j) ((σ (.reduction 0 .original 0)).values j) = _
      rw [hval hl]
    · exact h _ (.quiet ⟨rfl, rfl⟩ s) fun _ => ⟨_, s, List.mem_singleton.mpr rfl⟩

/-- The original function, in any store: it allocates the environments, calls
the root slice, and delivers what that has left. From here on no precondition
is left. -/
theorem original_correct (hT : Mergeable n T) (σ : n.sig.Store) :
    CorrectIn T Set.univ Set.univ n.original σ fun _ _ τ => Finished n τ := by
  have hu : ∀ x : Loc, x ∈ (Set.univ : Set Loc) := Set.mem_univ
  rw [Nest.original]
  refine Wp.write_bind (S := n.sig) (hu _) (hu _) Held.none.live ?_
  refine Wp.modify_bind (S := n.sig) (hu _) (hu _) Held.none.live ?_
  refine Wp.modify_bind (S := n.sig) (hu _) (hu _) Held.none.live ?_
  generalize hσ₁ : Function.update _ (Loc.cxts []) _ = σ₁
  have hstart : (σ₁ (.cxts []) 0).start = some (n.startIter []) := by simp [← hσ₁]
  have hmax : (σ₁ (.cxts []) 0).max = some (n.maxIter []) := by simp [← hσ₁]
  refine allocateRootLiveIns_bind fun σ₂ _ hstart₂ hmax₂ hin₂ => ?_
  refine allocateLiveOuts_bind hT (hu _) (hu _) (hu _) (hu _) (fun _ => hu _) (fun _ _ => hu _)
    .none fun σ₃ ha => ?_
  refine taskMemoryReset_bind (hu _) (hu _) fun tm hlevel hchunk => ?_
  generalize hσ₄ : Function.update σ₃ (Loc.tmem []) tm = σ₄
  have hother : ∀ x : Loc, x ≠ .tmem [] → σ₄ x = σ₃ x := fun x hx => by
    rw [← hσ₄, Function.update_of_ne hx]
  have htm : σ₄ (.tmem []) = tm := by rw [← hσ₄, Function.update_self]
  -- The row of the root loop is written in several steps, and the reset of the task memory does
  -- not touch it.
  have hroot : RootStore n T σ₄ := by
    have hrow := ha.row
    rw [← hother _ (by simp)] at hrow
    refine ⟨?_, ?_, fun h => ⟨?_, ?_⟩, fun hm => ⟨?_, fun hm1 => ?_⟩, htm.symm ▸ hlevel,
      htm.symm ▸ hchunk⟩
    · rw [hrow]
      split <;> exact hstart₂.trans hstart
    · rw [hrow]
      split <;> exact hmax₂.trans hmax
    · rw [hrow]
      split <;> exact (hin₂ h).1
    · rw [hother _ (by simp), ha.same _ (by simp) (by simp) (by simp)]
      exact (hin₂ h).2
    · rw [hrow, if_neg hm]
    · rw [hother _ (by simp)]
      exact ha.pointers hm hm1
  refine Wp.invoke_bind (S := n.sig) (Set.subset_univ _) (Set.subset_univ _)
    (hroot.slice_correct hT) fun r s τ ⟨hpost, hloaded⟩ _ => ?_
  have hslot : 0 ∈ T.exact → (s (.reduction 0 .original 0)).values =
      n.total [] 0 (n.startIter []) (n.maxIter []) := fun hexact => by
    have hl := T.exact_subset hexact
    exact (hpost.slot hl .original
      (arrays_of_liveOut (hroot.liveOut (hT.liveOut 0 hl)).1).symm).1 hexact
  refine reduceRoot_bind hslot fun τ' hτ' hresult => ?_
  refine Wp.ret (S := n.sig) fun s' _ => ?_
  -- There is no level above the root loop of which something could be left.
  have hcut : n.restFrom [] (σ₄ (.cxts [])) (r.cut 0) = 0 := restFrom_of_le (Nat.zero_le _)
  have hrun : Executes [] (firstOf [] (n.startIter []) (n.maxIter [])) n.sequential
      (n.restFrom [] (σ₄ (.cxts [])) (r.cut 0)) τ := hpost.runs
  rw [hcut] at hrun
  have hall := hrun.append_silent hτ'
  refine ⟨by simpa [Sig.Post.after] using hall.toRuns,
    by simpa [Sig.Post.after] using hall.in_order, fun hm => ?_, fun hl => ?_⟩
  · obtain ⟨x, s₁, hx⟩ := hresult hm
    exact ⟨x, s₁, by simp [hx]⟩
  · obtain ⟨s₁, hs₁⟩ := hloaded (by simpa [Nest.hasLiveIn, rootFrame] using hl)
    exact ⟨s₁, List.mem_append_left _ hs₁⟩

/-- The program is correct from every store. -/
theorem start_correct (hT : Mergeable n T) (σ : n.sig.Store) :
    Wp n.body (Allowed n T) (Good n T) (Live n) T.free Set.univ Set.univ n.start σ
      fun _ _ τ => Finished n τ :=
  original_correct hT σ

end HeartbeatCompiler
