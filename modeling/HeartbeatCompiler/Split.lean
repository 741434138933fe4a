import HeartbeatCompiler.LeafLoop
import HeartbeatCompiler.Leftover

/-!
# `HeartbeatCompiler.Split`: the tasks of a split

The promotion handler splits the outermost level with an iteration that has not been started
(`splittingLevel_cases`). The first branch of the fork stays in the context of the caller: it
is the first half of the leaf loop, or a leftover task. The second task gets a context of its
own. Both do what a leftover task and a slice are specified to do.
-/

set_option autoImplicit false

namespace HeartbeatCompiler

open ForkJoin Prog

variable {n : Nest} {T : Tracked}

/-! ### The splitting level -/

/-- The splitting level is the first one with something left, if there is one.
Something is left if an iteration after the one in progress is below the
bound. -/
theorem splittingLevel_cases {rows : Nat → Row} {v : List Nat} (fuel : Nat) :
    ∀ level : Nat,
      (∀ l, level ≤ l → l < level + fuel → (rows l).start = some (index v l)) →
      (∀ l, level ≤ l → l < level + fuel → (rows l).max = some (bound rows l)) →
      (∀ l, level ≤ l → l < level + fuel → index v l < bound rows l ∧ bound rows l < 2 ^ 63) →
      (Nest.splittingLevel rows fuel level = some none ∧
        ∀ l, level ≤ l → l < level + fuel → bound rows l ≤ index v l + 1) ∨
      ∃ s, Nest.splittingLevel rows fuel level = some (some s) ∧ level ≤ s ∧
        s < level + fuel ∧ index v s + 1 < bound rows s ∧
        ∀ l, level ≤ l → l < s → bound rows l ≤ index v l + 1 := by
  induction fuel with
  | zero => exact fun _ _ _ _ => .inl ⟨rfl, fun l h₁ h₂ => absurd h₁ (by omega)⟩
  | succ fuel ih =>
      intro level hstart hmax hlt
      have hs := hstart level (le_refl level) (by omega)
      have hm := hmax level (le_refl level) (by omega)
      obtain ⟨hl, hb⟩ := hlt level (le_refl level) (by omega)
      -- By induction on the number of levels still to try, from the outermost inwards. The
      -- subtraction does not wrap, since the iteration in progress is below the bound.
      rw [Nest.splittingLevel, hs, hm]
      simp only [wsub_of_le hl.le (show bound rows level < 2 ^ 64 by omega)]
      by_cases htwo : 2 ≤ bound rows level - index v level
      · rw [if_pos htwo]
        exact .inr ⟨level, rfl, le_refl level, by omega, by omega,
          fun l h₁ h₂ => absurd h₁ (by omega)⟩
      · rw [if_neg htwo]
        have hrest := ih (level + 1) (fun l h₁ h₂ => hstart l (by omega) (by omega))
          (fun l h₁ h₂ => hmax l (by omega) (by omega))
          fun l h₁ h₂ => hlt l (by omega) (by omega)
        -- The level itself has nothing left.
        have hhere : ∀ l, level ≤ l → ¬ level + 1 ≤ l → bound rows l ≤ index v l + 1 :=
          fun l h₁ h₂ => by
            obtain rfl : l = level := by omega
            omega
        rcases hrest with ⟨heq, hempty⟩ | ⟨s, heq, h₁, h₂, h₃, hempty⟩
        · refine .inl ⟨heq, fun l hl₁ hl₂ => ?_⟩
          by_cases hl' : level + 1 ≤ l
          · exact hempty l hl' (by omega)
          · exact hhere l hl₁ hl'
        · refine .inr ⟨s, heq, by omega, by omega, h₃, fun l hl₁ hl₂ => ?_⟩
          by_cases hl' : level + 1 ≤ l
          · exact hempty l hl' hl₂
          · exact hhere l hl₁ hl'

/-- Level `s` is split by a call of the handler by `f` after iteration `v`:

- `low_le`, `le_level`: the level is one of the task;
- `lt`: it has an iteration left after the one in progress;
- `empty`: the levels further out have none;
- `promotes`, `allowed`: the promotion is one of those that the tracking
  allows. -/
structure SplitAt (n : Nest) (T : Tracked) (f : Frame) (v : List Nat) (rows : Nat → Row)
    (s : Nat) : Prop where
  low_le : f.path.low n.leafLevel ≤ s
  le_level : s ≤ f.level
  lt : index v s + 1 < bound rows s
  empty : ∀ l, f.path.low n.leafLevel ≤ l → l < s → bound rows l ≤ index v l + 1
  promotes : T.promotes
  allowed : s < f.path.base n.leafLevel → ∀ l ∈ T, f.path.low n.leafLevel ≤ l → s < l

/-- The middle of what is left of the level that is split, in exact
arithmetic. -/
def middle (v : List Nat) (rows : Nat → Row) (s : Nat) : Nat := (index v s + 1 + bound rows s) / 2

/-- The store in which the two tasks are forked:

- `rows`: the other rows of the old context are as they were;
- `start`, `max`: the row of level `s` has its first half there. At the level
  of the leaf it starts behind the iteration in progress, which no leftover
  task resumes;
- `liveIn`, `liveOut`: the row leads where it led before;
- `second`: the row in the new context has the second half, and leads to the
  same environments;
- `same`: nothing else has changed. -/
structure SplitStore (f : Frame) (v : List Nat) (s : Nat) (σ σ' : n.sig.Store) : Prop where
  rows : ∀ l, l ≠ s → σ' (.cxts f.cxts) l = σ (.cxts f.cxts) l
  start : (σ' (.cxts f.cxts) s).start =
    some (if s = f.level then index v s + 1 else index v s)
  max : (σ' (.cxts f.cxts) s).max = some (middle v (σ (.cxts f.cxts)) s)
  liveIn : (σ' (.cxts f.cxts) s).liveIn = (σ (.cxts f.cxts) s).liveIn
  liveOut : (σ' (.cxts f.cxts) s).liveOut = (σ (.cxts f.cxts) s).liveOut
  second : σ' (.cxts (.second s :: f.path)) s =
    ⟨some (middle v (σ (.cxts f.cxts)) s), some (bound (σ (.cxts f.cxts)) s),
      (σ (.cxts f.cxts) s).liveIn, (σ (.cxts f.cxts) s).liveOut⟩
  same : ∀ x : Loc, x ≠ .cxts f.cxts → x ≠ .cxts (.second s :: f.path) → σ' x = σ x

namespace HandlerPre

variable {f : Frame} {v : List Nat} {s : Nat} {σ σ' : n.sig.Store}

/-- The handler is called with one index for each level up to its own. -/
theorem length_eq (h : HandlerPre T f v σ) : v.length = f.level + 1 := by
  have := n.numLevels_pos
  rw [h.length, h.level_eq, Nest.leafLevel]
  omega

/-- What the task has not started, as the rows of the context say: behind the
iteration in progress of each level the task still has. -/
theorem mem_unstartedAt (h : HandlerPre T f v σ) {x : Nat × Nat} :
    x ∈ n.unstartedAt f (σ (.cxts f.cxts)) ↔ f.path.low n.leafLevel ≤ x.1 ∧ x.1 ≤ f.level ∧
      index v x.1 < x.2 ∧ x.2 < bound (σ (.cxts f.cxts)) x.1 := by
  have hlen := h.length_eq
  have hlow := h.low_le_base.trans h.base_le
  have hrow := rowUnstarted_eq (h.suspended.start f.level hlow (by omega))
    (h.suspended.max f.level hlow (by omega))
  have htake : (v.take f.level).length = f.level := by rw [List.length_take]; omega
  have hpend := h.pending.suspended (σ (.cxts f.cxts)) (fun _ _ => rfl) x
  rw [htake] at hpend
  rw [Nest.unstartedAt, List.mem_append, hrow, mem_iterationsOf, hpend]
  constructor
  · rintro (⟨hx, h₁, h₂⟩ | ⟨h₁, h₂, h₃, h₄⟩)
    · rw [hx]
      exact ⟨hlow, le_refl _, h₁, h₂⟩
    · rw [index_take_of_lt v h₂] at h₃
      exact ⟨h₁, h₂.le, h₃, h₄⟩
  · rintro ⟨h₁, h₂, h₃, h₄⟩
    -- The rows of the suspended levels and the own row are stored in the same context, but the
    -- own one is not part of the pending levels.
    rcases Nat.lt_or_eq_of_le h₂ with hlt | heq
    · refine .inr ⟨h₁, hlt, ?_, h₄⟩
      rwa [index_take_of_lt v hlt]
    · rw [heq] at h₃ h₄
      exact .inl ⟨heq, h₃, h₄⟩

/-- The level that is split, if there is one, among all levels of the task and
not only those from `startingLevel` on. -/
theorem splittingLevel_eq (h : HandlerPre T f v σ) :
    let rows := σ (.cxts f.cxts)
    let startingLevel := (σ (.tmem f.cxts)).startingLevel
    (Nest.splittingLevel rows (f.level + 1 - startingLevel) startingLevel = some none ∧
      ∀ l, f.path.low n.leafLevel ≤ l → l ≤ f.level → bound rows l ≤ index v l + 1) ∨
    ∃ s, Nest.splittingLevel rows (f.level + 1 - startingLevel) startingLevel = some (some s) ∧
      startingLevel ≤ s ∧ s ≤ f.level ∧ index v s + 1 < bound rows s ∧
      ∀ l, f.path.low n.leafLevel ≤ l → l < s → bound rows l ≤ index v l + 1 := by
  intro rows startingLevel
  have hlen := h.length_eq
  have hlow := h.tmem.low_le
  have hcases := splittingLevel_cases (f.level + 1 - startingLevel) startingLevel
    (fun l h₁ h₂ => h.suspended.start l (hlow.trans h₁) (by omega))
    (fun l h₁ h₂ => h.suspended.max l (hlow.trans h₁) (by omega))
    fun l h₁ h₂ => h.suspended.lt l (hlow.trans h₁) (by omega)
  have habove : ∀ l, f.path.low n.leafLevel ≤ l → l ≤ f.level → l < startingLevel →
      bound rows l ≤ index v l + 1 := fun l h₁ h₂ h₃ => h.tmem.empty l h₁ (by omega) h₃
  -- The handler looks from `startingLevel` on; the levels above it are known to be empty.
  rcases hcases with ⟨heq, hempty⟩ | ⟨s, heq, h₁, h₂, h₃, hempty⟩
  · refine .inl ⟨heq, fun l hl₁ hl₂ => ?_⟩
    rcases lt_or_ge l startingLevel with hl | hl
    · exact habove l hl₁ hl₂ hl
    · exact hempty l hl (by omega)
  · refine .inr ⟨s, heq, h₁, by omega, h₃, fun l hl₁ hl₂ => ?_⟩
    rcases lt_or_ge l startingLevel with hl | hl
    · exact habove l hl₁ (by omega) hl
    · exact hempty l hl hl₂

/-! ### The two tasks -/

variable {rows : Nat → Row} {S : Scope}

/-- The middle of a row that is split lies behind the current iteration and
before the bound, so that the second half is not empty. -/
theorem middle_bounds (h : SplitAt n T f v rows s) :
    index v s + 1 ≤ middle v rows s ∧ middle v rows s < bound rows s := by
  have := h.lt
  rw [middle]
  omega

/-- What was left is what is left in the context of the caller and the second
task. -/
theorem restFrom_split (h : HandlerPre T f v σ) (hsplit : SplitAt n T f v (σ (.cxts f.cxts)) s)
    (hs : SplitStore f v s σ σ') :
    n.restFrom v (σ (.cxts f.cxts)) s = n.restFrom v (σ' (.cxts f.cxts)) s +
      ↑(n.iterations (v.take s) (middle v (σ (.cxts f.cxts)) s) (bound (σ (.cxts f.cxts)) s)) := by
  have hlt : s < v.length := by
    have := hsplit.le_level
    rw [h.length_eq]
    omega
  obtain ⟨h₁, h₂⟩ := middle_bounds hsplit
  have hbound : bound (σ' (.cxts f.cxts)) s = middle v (σ (.cxts f.cxts)) s := by
    rw [bound, hs.max, Option.getD_some]
  -- Only the row of `s` was changed; its range is cut at the middle.
  have hdeep : ∑ l ∈ Finset.Ico (s + 1) v.length, n.rest v (σ' (.cxts f.cxts)) l =
      ∑ l ∈ Finset.Ico (s + 1) v.length, n.rest v (σ (.cxts f.cxts)) l :=
    Finset.sum_congr rfl fun l hl => rest_congr (hs.rows l (by
      rw [Finset.mem_Ico] at hl
      omega))
  rw [Nest.restFrom, Nest.restFrom, Finset.sum_eq_sum_Ico_succ_bot hlt,
    Finset.sum_eq_sum_Ico_succ_bot hlt, hdeep, Nest.rest, Nest.rest, hbound,
    ← Nest.iterations_append (v.take s) h₁ h₂.le, ← Multiset.coe_add]
  ac_rfl

/-- The tasks have less to run than the handler was called with. -/
theorem restFrom_low (h : HandlerPre T f v σ) (hsplit : SplitAt n T f v (σ (.cxts f.cxts)) s) :
    n.restFrom v (σ (.cxts f.cxts)) (f.path.low n.leafLevel) =
      n.restFrom v (σ (.cxts f.cxts)) s :=
  restFrom_skip hsplit.low_le (by rw [h.length_eq]; have := hsplit.le_level; omega) hsplit.empty

/-- The environments that were ready before the fork are ready in the tasks. -/
theorem envReady (h : HandlerPre T f v σ) (hs : SplitStore f v s σ σ') {l : Nat} {row : Row}
    (hlow : f.path.low n.leafLevel ≤ l) (hl : l ≤ f.level)
    (hin : row.liveIn = (σ (.cxts f.cxts) l).liveIn)
    (hout : row.liveOut = (σ (.cxts f.cxts) l).liveOut) (tm : TaskMemory) (t : Path) :
    EnvReady {ρ | ρ <:+ f.path} (Function.update σ' (.tmem t) tm) l (v.take l) row :=
  (h.suspended.env l hlow (by rw [h.length_eq]; omega)).congr hin hout
    (fun _ _ => hs.same _ (by simp) (by simp)) fun _ _ => hs.same _ (by simp) (by simp)

/-- The second task is called as the contract of a slice asks for, in a
context of its own that has only the row of the level that was split. -/
theorem slicePre_second (h : HandlerPre T f v σ) (hsplit : SplitAt n T f v (σ (.cxts f.cxts)) s)
    (hs : SplitStore f v s σ σ') {tm : TaskMemory} (hlevel : tm.startingLevel = s)
    (hchunk : ChunkReady n tm) :
    SlicePre T (Nest.secondFrame f s) (v.take s) (middle v (σ (.cxts f.cxts)) s)
      (bound (σ (.cxts f.cxts)) s) (Function.update σ' (.tmem (.second s :: f.path)) tm) := by
  have hlen := h.length_eq
  have hle := hsplit.le_level
  have hlt := (h.suspended.lt s hsplit.low_le (by omega)).2
  have htake : (v.take s).length = s := by rw [List.length_take]; omega
  have hmid := middle_bounds hsplit
  have hrow : Function.update σ' (.tmem (.second s :: f.path)) tm
      (.cxts (.second s :: f.path)) s = _ := hs.second
  have hin : (σ' (.cxts (.second s :: f.path)) s).liveIn = (σ (.cxts f.cxts) s).liveIn := by
    rw [hs.second]
  have hout : (σ' (.cxts (.second s :: f.path)) s).liveOut = (σ (.cxts f.cxts) s).liveOut := by
    rw [hs.second]
  have htm : Function.update σ' (.tmem (.second s :: f.path)) tm
      (.tmem (.second s :: f.path)) = tm := Function.update_self _ _ _
  -- Nothing is suspended in the new context.
  have hnone : ∀ l, s ≤ l → ¬ l < (v.take s).length := by omega
  exact
    { length := htake
      level_le := h.level_eq ▸ hle
      base_le := le_refl s
      low_le_base := le_refl s
      tmem_eq := rfl
      cxts_suffix := List.suffix_rfl
      start := congrArg Row.start hrow
      max := congrArg Row.max hrow
      start_lt := by omega
      max_lt := hlt
      env := h.envReady hs hsplit.low_le hle hin hout _ _
      pending := .second _ _ (by omega) _
      suspended :=
        { start := fun l hsl hl => absurd hl (hnone l hsl)
          max := fun l hsl hl => absurd hl (hnone l hsl)
          lt := fun l hsl hl => absurd hl (hnone l hsl)
          env := fun l hsl hl => absurd hl (hnone l hsl)
          kids := fun l hsl hl => absurd hl (hnone l hsl)
          fresh := fun l _ q i hslot => by
            obtain ⟨hl, -, hi⟩ := hslot
            exact absurd hl (hnone l (hi.elim (fun hi => hi.2) fun hi => hi.2)) }
      tmem :=
        { low_le := (congrArg TaskMemory.startingLevel htm).trans hlevel |>.ge
          empty := fun l hsl hl => absurd hl (hnone l hsl)
          chunk := htm.symm ▸ hchunk }
      own_empty := fun hlt => by
        have hlt' : s < tm.startingLevel := (congrArg TaskMemory.startingLevel htm) ▸ hlt
        omega
      alive := fun ρ hρ => (hs.same _ (by simp) (by simp)).trans (h.alive ρ hρ) }

/-- A slice with nothing suspended has its own range to run. -/
theorem load_of_le {u : List Nat} {a b : Nat} (rows : Nat → Row) (hs : u.length ≤ s) :
    n.load u rows s a b = (n.iterations u a b).length := by
  rw [Nest.load, restFrom_of_le hs, Multiset.card_zero, Nat.add_zero]

/-- What the second task has done:

- `slot`: slot 1 holds the total of its half, and was written by this task
  alone;
- `runs`: its trace has run the half. -/
structure SecondPost (n : Nest) (T : Tracked) (f : Frame) (v : List Nat) (s a b : Nat)
    (q : Block) (σ : n.sig.Store) (τ : n.sig.Trace) : Prop where
  slot : s ∈ T → (s ∈ T.exact → (σ (.reduction s q 1)).values = n.total (v.take s) s a b) ∧
    (σ (.reduction s q 1)).log = [.written (.second s :: f.path)]
  runs : Runs (v.take s) (firstOf (v.take s) a b) ↑(n.iterations (v.take s) a b) τ

/-- The second task runs the second half of the range, and leaves its total in
slot 1 of the level. -/
theorem secondTask_correct {M : Nat} (ih : SliceSpec n T M) (h : HandlerPre T f v σ)
    (hM : (n.restFrom v (σ (.cxts f.cxts)) (f.path.low n.leafLevel)).card < M)
    (hsplit : SplitAt n T f v (σ (.cxts f.cxts)) s) (hs : SplitStore f v s σ σ')
    (hfresh : s ∈ T → (σ (.reduction s (arrays (σ (.cxts f.cxts)) s) 1)).log = []) :
    Correct T ((Nest.secondFrame f s).scope n.leafLevel (v.take s)
      (σ' (.cxts (.second s :: f.path)))) (n.secondTask f s) σ' fun _ =>
      SecondPost n T f v s (middle v (σ (.cxts f.cxts)) s) (bound (σ (.cxts f.cxts)) s)
        (arrays (σ (.cxts f.cxts)) s) := by
  have hlen := h.length_eq
  have hle := hsplit.le_level
  have htake : (v.take s).length = s := by rw [List.length_take]; omega
  have harr : arrays (σ' (.cxts (.second s :: f.path))) s = arrays (σ (.cxts f.cxts)) s := by
    rw [arrays, arrays, hs.second]
  rw [Nest.secondTask]
  refine taskMemoryReset_bind (.inl rfl) (.inl rfl) fun tm hlevel hchunk => ?_
  refine Correct.tail ((ih _ _ _ _ _ (h.slicePre_second hsplit hs hlevel hchunk) ?_).mono
    fun r s' τ hpost => ?_)
  · -- The second half is a part of what was left, and smaller than the bound of the induction.
    refine lt_of_le_of_lt (le_of_eq_of_le (load_of_le _ htake.le) ?_) hM
    rw [h.restFrom_low hsplit, h.restFrom_split hsplit hs, Multiset.card_add, Multiset.coe_card]
    exact Nat.le_add_left _ _
  · -- A promotion inside the second task cannot reach above `s`, as nothing of its task lies
    -- there.
    have hcut : r.cut (Nest.secondFrame f s).level = s := by
      rw [Ret.cut]
      cases he : r.ended with
      | none => rfl
      | some l => exact le_antisymm (hpost.ended_le l he).2 (hpost.ended_le l he).1
    have hslot := hpost.slot
    have hrun := hpost.runs.toRuns
    rw [hcut, restFrom_of_le htake.le, add_zero] at hrun
    refine ⟨fun hl => ?_, hrun⟩
    obtain ⟨hval, hlog⟩ := hslot hl _ harr.symm
    have hempty : (σ' (.reduction s (arrays (σ (.cxts f.cxts)) s) 1)).log = [] := by
      rw [hs.same _ (by simp) (by simp)]
      exact hfresh hl
    refine ⟨hval, hlog.trans ?_⟩
    exact congrArg (· ++ [SlotAccess.written (.second s :: f.path)]) hempty

/-- The first half of the leaf loop is called as the contract of a slice asks
for, in the context of the task that was split. -/
theorem slicePre_first (h : HandlerPre T f v σ)
    (hsplit : SplitAt n T f v (σ (.cxts f.cxts)) f.level) (hs : SplitStore f v f.level σ σ')
    {tm : TaskMemory} (hlevel : tm.startingLevel = f.level) (hchunk : ChunkReady n tm) :
    SlicePre T (Nest.firstFrame f) (v.take f.level) (index v f.level + 1)
      (middle v (σ (.cxts f.cxts)) f.level) (Function.update σ' (.tmem f.cxts) tm) := by
  have hlen := h.length_eq
  have hlow := hsplit.low_le
  have hlt := (h.suspended.lt f.level hlow (by omega)).2
  have htake : (v.take f.level).length = f.level := by rw [List.length_take]; omega
  obtain ⟨h₁, h₂⟩ := middle_bounds hsplit
  have hstart := hs.start
  rw [if_pos rfl] at hstart
  have htm : Function.update σ' (.tmem f.cxts) tm (.tmem f.cxts) = tm :=
    Function.update_self _ _ _
  -- Nothing is suspended that has something left.
  have hnone : ∀ l, n.leafLevel ≤ l → ¬ l < (v.take f.level).length := by
    rw [← h.level_eq]
    omega
  exact
    { length := htake
      level_le := h.level_eq.le
      base_le := h.level_eq.ge
      low_le_base := le_refl _
      tmem_eq := h.tmem_eq
      cxts_suffix := h.cxts_suffix.trans (List.suffix_cons _ _)
      start := hstart
      max := hs.max
      start_lt := by omega
      max_lt := by omega
      env := h.envReady hs hlow (le_refl _) hs.liveIn hs.liveOut _ _
      pending := by
        have habove : ∀ l, l < n.leafLevel → σ' (.cxts f.cxts) l = σ (.cxts f.cxts) l :=
          fun l hl => hs.rows l (by rw [h.level_eq]; omega)
        have hpend := h.pending.first (h.level_eq ▸ hlow) (by rw [htake, h.level_eq]) habove
          fun l hl hl' => by
            rw [← h.level_eq] at hl'
            rw [index_take_of_lt v hl']
            exact hsplit.empty l hl hl'
        have htwice : (v.take f.level).take n.leafLevel = v.take f.level := by
          rw [List.take_take, h.level_eq, Nat.min_self]
        rw [htwice] at hpend
        exact hpend
      suspended :=
        { start := fun l hl hlt => absurd hlt (hnone l hl)
          max := fun l hl hlt => absurd hlt (hnone l hl)
          lt := fun l hl hlt => absurd hlt (hnone l hl)
          env := fun l hl hlt => absurd hlt (hnone l hl)
          kids := fun l hl hlt => absurd hlt (hnone l hl)
          fresh := fun l _ q i hslot => by
            obtain ⟨hlt, -, hi⟩ := hslot
            exact absurd hlt (hnone l (hi.elim (fun hi => hi.2) fun hi => hi.2)) }
      tmem :=
        { low_le := by
            rw [show (Function.update σ' (.tmem f.cxts) tm (.tmem (Nest.firstFrame f).cxts)) = tm
              from htm, hlevel, h.level_eq]
            exact le_refl _
          empty := fun l hl hlt => absurd hlt (hnone l hl)
          chunk := htm.symm ▸ hchunk }
      own_empty := fun hlt => by
        have hlt' : f.level < tm.startingLevel := (congrArg TaskMemory.startingLevel htm) ▸ hlt
        omega
      alive := fun ρ hρ => (hs.same _ (by simp) (by simp)).trans (h.alive ρ hρ) }

/-- A leftover task is called as its contract asks for: it is to finish the
levels from the leaf down to the one that was split, on the rows that the
handler has left. -/
theorem leftoverPre (h : HandlerPre T f v σ) (hsplit : SplitAt n T f v (σ (.cxts f.cxts)) s)
    (hs : SplitStore f v s σ σ') (hne : s ≠ f.level) {tm : TaskMemory}
    (hlevel : tm.startingLevel = s) (hchunk : ChunkReady n tm) :
    LeftoverPre T f v s f.level (Function.update σ' (.tmem f.cxts) tm) := by
  have hlen := h.length_eq
  have hlow := hsplit.low_le
  have hle := hsplit.le_level
  obtain ⟨h₁, h₂⟩ := middle_bounds hsplit
  have hstart := hs.start
  rw [if_neg hne] at hstart
  have hbound : bound (σ' (.cxts f.cxts)) s = middle v (σ (.cxts f.cxts)) s := by
    rw [bound, hs.max, Option.getD_some]
  have htm : Function.update σ' (.tmem f.cxts) tm (.tmem f.cxts) = tm :=
    Function.update_self _ _ _
  -- From here on the rows below `s` are those of the caller, and the row of `s` has the middle
  -- as its bound; each fact about a row splits on which of the two it is.
  have hmax : ∀ l, s ≤ l → l ≤ f.level →
      (σ' (.cxts f.cxts) l).max = some (bound (σ' (.cxts f.cxts)) l) := fun l hsl hl => by
    by_cases hls : l = s
    · rw [hls, hbound]
      exact hs.max
    · rw [bound_congr (hs.rows l hls), hs.rows l hls]
      exact h.suspended.max l (hlow.trans hsl) (by omega)
  have hstarts : ∀ l, s ≤ l → l ≤ f.level →
      (σ' (.cxts f.cxts) l).start = some (index v l) := fun l hsl hl => by
    by_cases hls : l = s
    · rw [hls]
      exact hstart
    · rw [hs.rows l hls]
      exact h.suspended.start l (hlow.trans hsl) (by omega)
  have harr : ∀ l, arrays (σ' (.cxts f.cxts)) l = arrays (σ (.cxts f.cxts)) l := fun l => by
    by_cases hls : l = s
    · rw [hls, arrays, arrays, hs.liveOut]
    · exact arrays_congr (hs.rows l hls)
  exact
    { le_level := hle
      level_le := h.level_eq.le
      length := h.length
      tmem_eq := h.tmem_eq
      cxts_suffix := h.cxts_suffix
      -- The blocks of the leftover task may change the rows below `s` while they run; what the
      -- callers above wait for depends on the rows down to `s` only.
      pending := fun k hsk hk rows hrows => by
        have habove : ∀ l, l < s → rows l = σ (.cxts f.cxts) l :=
          fun l hl => (hrows l (by omega)).trans (hs.rows l (by omega))
        have hpend := h.pending.leftover hlow hsk (by rw [List.length_take]; omega) habove
          (fun l hl hl' => by
            rw [index_take_of_lt v (by omega)]
            exact hsplit.empty l hl hl')
          (fun l hsl hl => by
            rw [index_take_of_lt v (by omega), hrows l hl]
            exact hstarts l hsl (by omega))
          fun l hsl hl => by
            rw [bound_congr (hrows l hl), hrows l hl]
            exact hmax l hsl (by omega)
        rwa [List.take_take, Nat.min_eq_left hk] at hpend
      start := hstarts
      max := hmax
      lt := fun l hsl hl => by
        have hlt := h.suspended.lt l (hlow.trans hsl) (by omega)
        show index v l < bound (σ' (.cxts f.cxts)) l ∧ bound (σ' (.cxts f.cxts)) l < 2 ^ 63
        by_cases hls : l = s
        · rw [hls] at hlt ⊢
          rw [hbound]
          omega
        · rw [bound_congr (hs.rows l hls)]
          exact hlt
      env := fun l hsl hl => by
        refine h.envReady hs (hlow.trans hsl) hl ?_ ?_ _ _
        all_goals
          show _ = _
          by_cases hls : l = s
          · subst hls
            first | exact hs.liveIn | exact hs.liveOut
          · exact congrArg _ (hs.rows l hls)
      kids := fun l hsl hl hm => by
        show ∃ ρ, ρ <:+ f.path ∧ arrays (σ' (.cxts f.cxts)) l = .kids ρ
        rw [harr]
        exact h.suspended.kids l (hlow.trans hsl) (by omega) hm
      fresh := fun l hl hsl hle q hq => by
        refine (congrArg Slots.log (hs.same _ (by simp) (by simp))).trans ?_
        exact h.suspended.fresh l hl q 0 ⟨show l < v.length by omega, hq.trans (harr l),
          .inl ⟨rfl, hlow.trans hsl⟩⟩
      tmem :=
        { low_le := by rw [htm, hlevel]
          empty := fun l hsl hl hlt => by
            rw [htm, hlevel] at hlt
            omega
          chunk := htm.symm ▸ hchunk }
      alive := fun ρ hρ => (hs.same _ (by simp) (by simp)).trans (h.alive ρ hρ) }

/-- The first half works in the scope of a leftover task with one block. -/
theorem firstFrame_le (hlevel : f.level = n.leafLevel) :
    ((Nest.firstFrame f).scope n.leafLevel (v.take f.level) rows).Le T
      (f.leftoverScope f.level f.level rows) where
  own ρ hρ := ⟨.first, by simp, hρ⟩
  callers ρ hρ := .inr hρ
  task := .inl rfl
  slots l q i _ hq := by
    right
    rcases hq with ⟨hl, hq, hi⟩ | ⟨hlt, -, hi⟩
    · obtain rfl : l = f.level := hl
      exact ⟨le_refl _, le_refl _, hq, hi⟩
    · have hle : n.leafLevel ≤ l := hi.elim (fun hi => hi.2) fun hi => hi.2
      simp only [List.length_take] at hlt
      omega

/-- The first half of the leaf loop does what the last block of a leftover
task does, so the two cases of a split have one postcondition. -/
theorem firstTask_correct (hT : Mergeable n T) {M : Nat} (ih : SliceSpec n T M)
    (h : HandlerPre T f v σ)
    (hM : (n.restFrom v (σ (.cxts f.cxts)) (f.path.low n.leafLevel)).card < M)
    (hsplit : SplitAt n T f v (σ (.cxts f.cxts)) f.level)
    (hs : SplitStore f v f.level σ σ') :
    Correct T (f.leftoverScope f.level f.level (σ' (.cxts f.cxts))) (n.firstTask f) σ' fun _ =>
      LeftoverPost T f v f.level f.level σ' := by
  have hlen := h.length_eq
  have htake : (v.take f.level).length = f.level := by rw [List.length_take]; omega
  have hbound : bound (σ' (.cxts f.cxts)) f.level = middle v (σ (.cxts f.cxts)) f.level := by
    rw [bound, hs.max, Option.getD_some]
  have harr : arrays (σ' (.cxts f.cxts)) f.level = arrays (σ (.cxts f.cxts)) f.level := by
    rw [arrays, arrays, hs.liveOut]
  rw [Nest.firstTask, h.tmem_eq]
  refine taskMemoryReset_bind (.inl rfl) (.inl rfl) fun tm hlevel hchunk => ?_
  refine Correct.last (firstFrame_le h.level_eq)
    (ih _ _ _ _ _ (h.slicePre_first hsplit hs hlevel hchunk) ?_) fun r s' τ hpost _ => ?_
  · refine lt_of_le_of_lt (le_of_eq_of_le (load_of_le _ (h.level_eq ▸ htake.le)) ?_) hM
    rw [h.restFrom_low hsplit, h.restFrom_split hsplit hs, ← hbound, Multiset.card_add]
    refine le_of_eq_of_le ?_ (Nat.le_add_right _ _)
    -- What was left after the split is the range of the first half, as nothing else is suspended
    -- with work left.
    have hone : n.restFrom (v.take (f.level + 1)) (σ' (.cxts f.cxts)) f.level = _ :=
      restFrom_take_succ (le_refl f.level) (by omega)
    rw [← hlen, List.take_length, restFrom_of_le htake.le, zero_add] at hone
    rw [hone, Multiset.coe_card]
  · have hcut : r.cut (Nest.firstFrame f).level = f.level := by
      rw [Ret.cut]
      cases he : r.ended with
      | none => rfl
      | some l =>
          have hl := hpost.ended_le l he
          exact le_antisymm hl.2 (h.level_eq.le.trans hl.1)
    have hrows := hpost.resumed.rows
    have henv := hpost.env hcut
    have hslot := hpost.slot
    have hrun := hpost.runs.toRuns
    rw [hcut] at hrows
    rw [hcut, restFrom_of_le htake.le, add_zero] at hrun
    -- The postcondition of a leftover task with the leaf as its only level.
    refine ⟨hrows, henv, fun l hl hle hle' q hq => ?_, h.level_eq.le.trans hpost.low_le,
      hpost.chunk, ?_⟩
    · obtain rfl : l = f.level := le_antisymm hle' hle
      obtain ⟨π, hπ, hkids⟩ := h.suspended.kids f.level hsplit.low_le (by omega)
        (hT.liveOut _ hl)
      obtain ⟨hval, hlog⟩ := hslot hl q hq
      have hempty : (σ' (.reduction f.level q 0)).log = [] := by
        rw [hs.same _ (by simp) (by simp)]
        exact h.suspended.fresh f.level hl q 0
          ⟨show f.level < v.length by omega, hq.trans harr, .inl ⟨rfl, hsplit.low_le⟩⟩
      refine ⟨?_, .first :: f.path, hlog.trans ?_, π, (hq.trans harr).trans hkids, rfl,
        h.level_eq, hπ⟩
      · rw [hbound]
        exact hval
      · exact congrArg (· ++ [SlotAccess.written (.first :: f.path)]) hempty
    · refine (hrun.weaken (Multiset.zero_le _)).congr_work ?_
      rw [restFrom_take_succ (le_refl _) (by omega), restFrom_of_le htake.le, zero_add, hbound]

/-- The leftover task. -/
theorem leftoverTask_correct (hT : Mergeable n T) {M : Nat} (ih : SliceSpec n T M)
    (h : HandlerPre T f v σ)
    (hM : (n.restFrom v (σ (.cxts f.cxts)) (f.path.low n.leafLevel)).card < M)
    (hsplit : SplitAt n T f v (σ (.cxts f.cxts)) s) (hs : SplitStore f v s σ σ')
    (hne : s ≠ f.level) :
    Correct T (f.leftoverScope s f.level (σ' (.cxts f.cxts))) (n.leftoverTask f s) σ' fun _ =>
      LeftoverPost T f v s f.level σ' := by
  have hle := hsplit.le_level
  rw [Nest.leftoverTask, h.tmem_eq]
  refine taskMemoryReset_bind (.inl rfl) (.inl rfl) fun tm hlevel hchunk => ?_
  refine Correct.tail ((leftoverBlock_correct hT ih (f.level - s) (by omega)
    (h.leftoverPre hsplit hs hne hlevel hchunk) ?_).mono fun r s' τ hpost => ?_)
  · refine lt_of_le_of_lt ?_ hM
    rw [h.restFrom_low hsplit, h.restFrom_split hsplit hs, Multiset.card_add, ← h.length_eq,
      List.take_length]
    exact Nat.le_add_right _ _
  · exact ⟨hpost.rows, hpost.env, hpost.done, hpost.low_le, hpost.chunk, hpost.runs⟩

end HandlerPre

end HeartbeatCompiler
