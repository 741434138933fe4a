import HeartbeatCompiler.Activation

/-!
# `HeartbeatCompiler.Leftover`: leftover tasks

The blocks of a leftover task, from the level of the leaf loop down to the splitting level.
Each block calls the slice of its level on what was left of the suspended loop, and the next
block follows unless a promotion in that slice has already run the remaining levels.
-/

set_option autoImplicit false

namespace HeartbeatCompiler

open ForkJoin Prog

variable {n : Nest} {T : Tracked}

/-- What is left from `s` up to a level is what is left below it and of the
level itself. -/
theorem restFrom_take_succ {v : List Nat} {rows : Nat → Row} {s level : Nat} (hs : s ≤ level)
    (hlevel : level < v.length) :
    n.restFrom (v.take (level + 1)) rows s = n.restFrom (v.take level) rows s +
      ↑(n.iterations (v.take level) (index v level + 1) (bound rows level)) := by
  have hlen : (v.take level).length = level := by rw [List.length_take]; omega
  rw [take_succ_eq hlevel, restFrom_concat (by rw [hlen]) (by omega)]

/-- The store in which the block of `level` calls its slice: the row starts
after the iteration in progress, and everything else is as it was. -/
structure BlockStarted (f : Frame) (v : List Nat) (level : Nat) (σ σ' : n.sig.Store) :
    Prop where
  rows : ∀ l, l ≠ level → σ' (.cxts f.cxts) l = σ (.cxts f.cxts) l
  row : σ' (.cxts f.cxts) level =
    { σ (.cxts f.cxts) level with start := some (index v level + 1) }
  same : ∀ x : Loc, x ≠ .cxts f.cxts → σ' x = σ x

namespace BlockStarted

variable {f : Frame} {v : List Nat} {level : Nat} {σ σ' : n.sig.Store}

/-- The bounds of the contexts are those before the block was started. -/
theorem bound_eq (h : BlockStarted f v level σ σ') (l : Nat) :
    bound (σ' (.cxts f.cxts)) l = bound (σ (.cxts f.cxts)) l := by
  by_cases hl : l = level
  · subst hl
    rw [bound, bound, h.row]
  · exact bound_congr (h.rows l hl)

/-- The reduction arrays that the contexts point to are those before the block
was started. -/
theorem arrays_eq (h : BlockStarted f v level σ σ') (l : Nat) :
    arrays (σ' (.cxts f.cxts)) l = arrays (σ (.cxts f.cxts)) l := by
  by_cases hl : l = level
  · subst hl
    rw [arrays, arrays, h.row]
  · exact arrays_congr (h.rows l hl)

/-- The work left from any level on is the one before the block was started. -/
theorem restFrom_eq (h : BlockStarted f v level σ σ') (u : List Nat) (s : Nat) :
    n.restFrom u (σ' (.cxts f.cxts)) s = n.restFrom u (σ (.cxts f.cxts)) s := by
  refine Finset.sum_congr rfl fun l _ => ?_
  rw [Nest.rest, Nest.rest, h.bound_eq]

end BlockStarted

namespace LeftoverPre

variable {f : Frame} {v : List Nat} {s level : Nat} {σ σ' σ'' : n.sig.Store} {r : Ret}
  {τ : n.sig.Trace}

/-- The level the leftover task starts from is one of the levels of the
caller. -/
theorem level_lt (h : LeftoverPre T f v s level σ) : level < v.length := by
  have h₁ := h.level_le
  have h₂ := n.numLevels_pos
  rw [Nest.leafLevel] at h₁
  rw [h.length]
  omega

/-- The prefix of the indices up to that level has its length. -/
theorem length_take (h : LeftoverPre T f v s level σ) : (v.take level).length = level := by
  have := h.level_lt
  rw [List.length_take]
  omega

/-- The environments of the levels that are left are ready. -/
theorem envReady (h : LeftoverPre T f v s level σ) (hb : BlockStarted f v level σ σ') {l : Nat}
    (hsl : s ≤ l) (hl : l ≤ level) :
    EnvReady {ρ | ρ <:+ f.path} σ' l (v.take l) (σ' (.cxts f.cxts) l) := by
  refine (h.env l hsl hl).congr ?_ ?_ (fun q _ => hb.same _ (by simp))
    fun q _ => hb.same _ (by simp)
  all_goals
    by_cases hll : l = level
    · rw [hll, hb.row]
    · rw [hb.rows l hll]

/-- The later blocks are suspended as the loops around a nested call are: each
waits with its own iteration in progress, and runs what comes after that
iteration. -/
theorem suspended (h : LeftoverPre T f v s level σ) (hb : BlockStarted f v level σ σ') :
    Suspended T {ρ | ρ <:+ f.path} (.leftover s level :: f.path) f.cxts (v.take level) σ' where
  start l hsl hl := by
    rw [h.length_take] at hl
    rw [index_take_of_lt v hl, hb.rows l hl.ne]
    exact h.start l hsl hl.le
  max l hsl hl := by
    rw [h.length_take] at hl
    rw [bound_congr (hb.rows l hl.ne), hb.rows l hl.ne]
    exact h.max l hsl hl.le
  lt l hsl hl := by
    rw [h.length_take] at hl
    rw [index_take_of_lt v hl, bound_congr (hb.rows l hl.ne)]
    exact h.lt l hsl hl.le
  env l hsl hl := by
    rw [h.length_take] at hl
    rw [List.take_take, Nat.min_eq_left hl.le]
    exact h.envReady hb hsl hl.le
  kids l hsl hl hm := by
    rw [h.length_take] at hl
    rw [arrays_congr (hb.rows l hl.ne)]
    exact h.kids l hsl hl.le hm
  fresh l hl q i hslot := by
    obtain ⟨hlt, hq, hi⟩ := hslot
    simp only [h.length_take] at hlt hq hi
    -- The pending slots of a leftover task are those with index 0: slot 1 of the levels it runs
    -- was never handed out.
    obtain ⟨rfl, hsl⟩ : i = 0 ∧ s ≤ l :=
      hi.resolve_right fun hi => absurd (show level ≤ l from hi.2) (by omega)
    rw [arrays_congr (hb.rows l hlt.ne)] at hq
    rw [hb.same _ (by simp)]
    exact h.fresh l hl hsl hlt.le q hq

/-- The slice of the block is called as its contract asks for, on the range
from the iteration after the one in progress. -/
theorem slicePre (h : LeftoverPre T f v s level σ) (hb : BlockStarted f v level σ σ') :
    SlicePre T (Nest.leftoverFrame f s level) (v.take level) (index v level + 1)
      (bound (σ (.cxts f.cxts)) level) σ' := by
  have hlen := h.length_take
  have hlt := h.lt level h.le_level (le_refl level)
  exact
    { length := hlen
      level_le := h.level_le
      base_le := le_refl level
      low_le_base := h.le_level
      tmem_eq := h.tmem_eq
      cxts_suffix := h.cxts_suffix.trans (List.suffix_cons _ _)
      start := congrArg Row.start hb.row
      max := (congrArg Row.max hb.row).trans (h.max level h.le_level (le_refl level))
      start_lt := by omega
      max_lt := hlt.2
      env := h.envReady hb h.le_level (le_refl level)
      pending := h.pending level h.le_level (le_refl level) _ fun l hl => hb.rows l hl.ne
      suspended := h.suspended hb
      -- The reset at the start of the task has set `startingLevel` to the splitting level, and
      -- later promotions in its slices have only raised it over levels that are empty.
      tmem := by
        have htmem : σ' (.tmem f.cxts) = σ (.tmem f.cxts) := hb.same _ (by simp)
        show TmemReady n s (v.take level) (σ' (.cxts f.cxts)) (σ' (.tmem f.cxts))
        rw [htmem]
        refine ⟨h.tmem.low_le, fun l hsl hl hlt => ?_, h.tmem.chunk⟩
        rw [hlen] at hl
        have he := h.tmem.empty l hsl (by rw [List.length_take]; have := h.level_lt; omega) hlt
        rw [index_take_of_lt v (by omega)] at he
        rwa [index_take_of_lt v hl, bound_congr (hb.rows l hl.ne)]
      own_empty := fun hlt => by
        rw [show σ' (.tmem (Nest.leftoverFrame f s level).cxts) = σ (.tmem f.cxts) from
          hb.same _ (by simp)] at hlt
        have he := h.tmem.empty level h.le_level
          (by rw [List.length_take]; have := h.level_lt; omega) hlt
        rwa [index_take_of_lt v (Nat.lt_succ_self level)] at he
      alive := fun ρ hρ => (hb.same _ (by simp)).trans (h.alive ρ hρ) }

/-- The slice works inside the scope of the leftover task. -/
theorem slice_le (h : LeftoverPre T f v s level σ) (hb : BlockStarted f v level σ σ') :
    ((Nest.leftoverFrame f s level).scope n.leafLevel (v.take level) (σ' (.cxts f.cxts))).Le T
      (f.leftoverScope s level (σ (.cxts f.cxts))) where
  own ρ hρ := ⟨.leftover s level, by simp, hρ⟩
  callers ρ hρ := .inr hρ
  task := .inl rfl
  slots l q i _ hq := by
    right
    rcases hq with ⟨hl, hq, hi⟩ | ⟨hlt, hq, hi⟩
    · obtain rfl : l = level := hl
      exact ⟨h.le_level, le_refl l, (show q = _ from hq).trans (hb.arrays_eq l), hi⟩
    · simp only [h.length_take] at hlt hq hi
      obtain ⟨rfl, hsl⟩ : i = 0 ∧ s ≤ l :=
        hi.resolve_right fun hi => absurd (show level ≤ l from hi.2) (by omega)
      exact ⟨hsl, hlt.le, (show q = _ from hq).trans (hb.arrays_eq l), rfl⟩

/-- The later blocks work inside the scope of the leftover task. -/
theorem later_le
    (hrows : ∀ l, l < level + 1 → σ'' (.cxts f.cxts) l = σ (.cxts f.cxts) l) :
    (f.leftoverScope s level (σ'' (.cxts f.cxts))).Le T
      (f.leftoverScope s (level + 1) (σ (.cxts f.cxts))) where
  own _ hρ := hρ
  callers _ hρ := .inr hρ
  task := .inl rfl
  slots l q i _ hq := by
    obtain ⟨hsl, hl, hq, hi⟩ := hq
    rw [arrays_congr (hrows l (Nat.lt_succ_of_le hl))] at hq
    exact .inr ⟨hsl, Nat.le_succ_of_le hl, hq, hi⟩

/-- The slice has less to run than the blocks from `level` on. -/
theorem load_eq (h : LeftoverPre T f v s level σ) (hb : BlockStarted f v level σ σ') :
    n.load (v.take level) (σ' (.cxts f.cxts)) s (index v level + 1)
      (bound (σ (.cxts f.cxts)) level) =
      (n.restFrom (v.take (level + 1)) (σ (.cxts f.cxts)) s).card := by
  rw [Nest.load, hb.restFrom_eq, restFrom_take_succ h.le_level h.level_lt, Multiset.card_add,
    Multiset.coe_card, add_comm]

/-- The next block is about to run. The slice that has returned was not cut,
so the rows and slots of the levels further out are as the leftover task was
given them. -/
theorem next (h : LeftoverPre T f v s (level + 1) σ) (hs : s ≤ level)
    (hb : BlockStarted f v (level + 1) σ σ')
    (hpost : SlicePost T (Nest.leftoverFrame f s (level + 1)) (v.take (level + 1))
      (index v (level + 1) + 1) (bound (σ (.cxts f.cxts)) (level + 1)) σ' r σ'' τ)
    (hcut : r.cut (level + 1) = level + 1)
    (hframe : ∀ x ∈ (f.leftoverScope s (level + 1) (σ (.cxts f.cxts))).rel T,
      x ∉ ((Nest.leftoverFrame f s (level + 1)).scope n.leafLevel (v.take (level + 1))
        (σ' (.cxts f.cxts))).mod T → σ'' x = σ' x) :
    LeftoverPre T f v s level σ'' := by
  have hlen := h.length_take
  -- A slice that was not cut has left the rows above its level as they were, and by the frame
  -- condition it has not touched the environments of the callers.
  have hcut' : r.cut (Nest.leftoverFrame f s (level + 1)).level = level + 1 := hcut
  have hres : ∀ l, l < level + 1 → σ'' (.cxts f.cxts) l = σ (.cxts f.cxts) l := fun l hl =>
    (hpost.resumed.rows l (by rw [hcut']; exact hl)).trans (hb.rows l hl.ne)
  have hnot : ∀ q : Block, q.Above {ρ | ρ <:+ f.path} → ¬ q.In
      ((Nest.leftoverFrame f s (level + 1)).scope n.leafLevel (v.take (level + 1))
        (σ' (.cxts f.cxts))).own := fun q hq =>
    hq.not_in fun ρ hρ => hρ.length_le
  have henv : ∀ q : Block, q.Above {ρ | ρ <:+ f.path} →
      σ'' (.liveInEnv q) = σ (.liveInEnv q) ∧ σ'' (.liveOutEnv q) = σ (.liveOutEnv q) :=
    fun q hq => ⟨(hframe (.liveInEnv q) (.inr hq) (hnot q hq)).trans (hb.same _ (by simp)),
      (hframe (.liveOutEnv q) (.inr hq) (hnot q hq)).trans (hb.same _ (by simp))⟩
  exact
    { le_level := hs
      level_le := Nat.le_of_succ_le h.level_le
      length := h.length
      tmem_eq := h.tmem_eq
      cxts_suffix := h.cxts_suffix
      pending := fun k hsk hk rows hrows => h.pending k hsk (Nat.le_succ_of_le hk) rows
        fun l hl => (hrows l hl).trans (hres l (by omega))
      start := fun l hsl hl => by
        rw [hres l (by omega)]
        exact h.start l hsl (by omega)
      max := fun l hsl hl => by
        rw [bound_congr (hres l (by omega)), hres l (by omega)]
        exact h.max l hsl (by omega)
      lt := fun l hsl hl => by
        rw [bound_congr (hres l (by omega))]
        exact h.lt l hsl (by omega)
      env := fun l hsl hl => by
        rw [hres l (by omega)]
        exact (h.env l hsl (by omega)).congr rfl rfl (fun q hq => (henv q hq).1)
          fun q hq => (henv q hq).2
      kids := fun l hsl hl hm => by
        rw [arrays_congr (hres l (by omega))]
        exact h.kids l hsl (by omega) hm
      -- The slots of the blocks to come were pending for the slice that has returned, which kept
      -- them.
      fresh := fun l hl hsl hll q hq => by
        rw [arrays_congr (hres l (by omega))] at hq
        have hslot : PendingSlot n.leafLevel (.leftover s (level + 1) :: f.path)
            (v.take (level + 1)) (σ' (.cxts f.cxts)) (l, q, 0) := by
          refine ⟨?_, ?_, .inl ⟨rfl, hsl⟩⟩
          · rw [hlen]
            exact Nat.lt_succ_of_le hll
          · exact hq.trans (hb.arrays_eq l).symm
        rw [hpost.resumed.kept l hl (by rw [hcut']; omega) q 0 hslot, hb.same _ (by simp)]
        exact h.fresh l hl hsl (by omega) q hq
      tmem :=
        { low_le := hpost.low_le
          empty := fun l hsl hl hlt => by
            rw [hlen] at hl
            have he := hpost.empty l hsl (by rw [hcut']; exact hl) (.inl hlt)
            rw [show bound (σ' (.cxts (Nest.leftoverFrame f s (level + 1)).cxts)) l =
              bound (σ (.cxts f.cxts)) l from hb.bound_eq l] at he
            rwa [bound_congr (hres l hl)]
          chunk := hpost.chunk }
      alive := fun ρ hρ => by
        rw [hframe (.alive ρ) (.inr hρ) fun hρ' => hnot (.kids ρ) (fun ρ' h' => by
          cases h'; exact hρ) ⟨ρ, hρ', rfl⟩, hb.same _ (by simp)]
        exact h.alive ρ hρ }

/-! ### What the blocks have done -/

/-- The slot of the level of the block. -/
theorem slot (hT : Mergeable n T) (h : LeftoverPre T f v s level σ)
    (hb : BlockStarted f v level σ σ')
    (hpost : SlicePost T (Nest.leftoverFrame f s level) (v.take level) (index v level + 1)
      (bound (σ (.cxts f.cxts)) level) σ' r σ'' τ) (hl : level ∈ T) {q : Block}
    (hq : q = arrays (σ (.cxts f.cxts)) level) :
    (level ∈ T.exact → (σ'' (.reduction level q 0)).values =
        n.total (v.take level) level (index v level + 1) (bound (σ (.cxts f.cxts)) level)) ∧
      ∃ ρ, (σ'' (.reduction level q 0)).log = [.written ρ] ∧ IsChild n q level 0 ρ := by
  have hm := hT.liveOut _ hl
  obtain ⟨π, hπ, harr⟩ := h.kids level h.le_level (le_refl level) hm
  obtain ⟨hval, hlog⟩ := hpost.slot hl q (hq.trans (hb.arrays_eq level).symm)
  have hlog' : (σ'' (.reduction level q 0)).log =
      (σ' (.reduction level q 0)).log ++ [.written (.leftover s level :: f.path)] := hlog
  have hfresh : (σ' (.reduction level q 0)).log = [] := by
    rw [hb.same _ (by simp)]
    exact h.fresh level hl h.le_level (le_refl level) q hq
  refine ⟨hval, .leftover s level :: f.path, ?_, π, hq.trans harr, rfl, rfl, hπ⟩
  rw [hlog', hfresh]
  rfl

/-- The block of level `s` is the last one. -/
theorem post_last (hT : Mergeable n T) (h : LeftoverPre T f v s s σ)
    (hb : BlockStarted f v s σ σ')
    (hpost : SlicePost T (Nest.leftoverFrame f s s) (v.take s) (index v s + 1)
      (bound (σ (.cxts f.cxts)) s) σ' r σ'' τ) : LeftoverPost T f v s s σ σ'' τ := by
  -- There is no level of the task above the last one, so that a promotion can only have split
  -- that level itself.
  have hcut : r.cut s = s := by
    rw [Ret.cut]
    cases he : r.ended with
    | none => rfl
    | some l => exact le_antisymm (hpost.ended_le l he).2 (hpost.ended_le l he).1
  have hcut' : r.cut (Nest.leftoverFrame f s s).level = s := hcut
  refine ⟨fun l hl => ?_, ?_, fun l hl hsl hls q hq => ?_, hpost.low_le, hpost.chunk, ?_⟩
  · exact (hpost.resumed.rows l (by rw [hcut']; exact hl)).trans (hb.rows l hl.ne)
  · have hin : (σ' (.cxts f.cxts) s).liveIn = (σ (.cxts f.cxts) s).liveIn := by rw [hb.row]
    have hout : (σ' (.cxts f.cxts) s).liveOut = (σ (.cxts f.cxts) s).liveOut := by rw [hb.row]
    have henv := hpost.env hcut'
    exact ⟨henv.1.trans hin, henv.2.trans hout⟩
  · obtain rfl : l = s := le_antisymm hls hsl
    exact h.slot hT hb hpost hl hq
  · refine (hpost.runs.toRuns.weaken (Multiset.zero_le _)).congr_work ?_
    rw [hcut', restFrom_of_le h.length_take.le, restFrom_take_succ (le_refl s) h.level_lt,
      restFrom_of_le h.length_take.le, add_zero, zero_add]

/-- A promotion made in the slice and splitting a level below has run the
later blocks. Their work is in the traces of the tasks of that promotion, so
the leftover task may leave them out. -/
theorem post_ended (hT : Mergeable n T) (h : LeftoverPre T f v s level σ)
    (hb : BlockStarted f v level σ σ')
    (hpost : SlicePost T (Nest.leftoverFrame f s level) (v.take level) (index v level + 1)
      (bound (σ (.cxts f.cxts)) level) σ' r σ'' τ) {c : Nat} (hr : r.ended = some c)
    (hc : c < level) : LeftoverPost T f v s level σ σ'' τ := by
  have hlen := h.length_take
  have hcut : r.cut (Nest.leftoverFrame f s level).level = c := by rw [Ret.cut, hr]; rfl
  have hsc : s ≤ c := (hpost.ended_le c hr).1
  have hres := hpost.resumed
  rw [hcut] at hres
  refine ⟨fun l hl => ?_, ?_, fun l hl hsl hle q hq => ?_, hpost.low_le, hpost.chunk, ?_⟩
  · exact (hres.rows l (by omega)).trans (hb.rows l (by omega))
  · have hrow : σ' (.cxts f.cxts) s = σ (.cxts f.cxts) s := hb.rows s (by omega)
    -- The row of `s` is above the level that was split, or it is the row of that level.
    rcases Nat.lt_or_eq_of_le hsc with hlt | rfl
    · rw [show σ'' (.cxts f.cxts) s = σ' (.cxts f.cxts) s from hres.rows s hlt, hrow]
      exact ⟨rfl, rfl⟩
    · rw [← hrow]
      exact hres.env (by omega)
  · rcases Nat.lt_or_eq_of_le hle with hlt | rfl
    · -- Nothing in `T` lies between the splitting levels.
      have hcl : c < l := hres.apart (by omega) hc l hl hsl
      have hd := hres.done l hl hcl (by omega) q (hq.trans (hb.arrays_eq l).symm)
      rw [List.take_take, Nat.min_eq_left hle, index_take_of_lt v hlt] at hd
      rwa [show bound (σ' (.cxts (Nest.leftoverFrame f s level).cxts)) l = _ from
        hb.bound_eq l] at hd
    · exact h.slot hT hb hpost hl hq
  · refine (hpost.runs.toRuns.weaken (Multiset.zero_le _)).congr_work ?_
    -- The levels between `s` and the level that was split were empty, which is why they were
    -- passed over.
    have hskip : n.restFrom (v.take level) (σ (.cxts f.cxts)) s =
        n.restFrom (v.take level) (σ (.cxts f.cxts)) c :=
      restFrom_skip hsc (by omega) fun l hsl hlc => by
        rw [← hb.bound_eq l]
        exact hpost.empty l hsl (by rw [hcut]; exact hlc) (.inr (by rw [hr]; rfl))
    rw [hcut, restFrom_take_succ h.le_level h.level_lt, hskip, add_comm]
    exact congrArg (· + _) (hb.restFrom_eq _ _)

/-- The later blocks have returned. What they and the slice before them have
run is together what the task was to run from this level on. -/
theorem post_next (hT : Mergeable n T) (h : LeftoverPre T f v s (level + 1) σ) (hs : s ≤ level)
    (hb : BlockStarted f v (level + 1) σ σ')
    (hpost : SlicePost T (Nest.leftoverFrame f s (level + 1)) (v.take (level + 1))
      (index v (level + 1) + 1) (bound (σ (.cxts f.cxts)) (level + 1)) σ' r σ'' τ)
    (hcut : r.cut (level + 1) = level + 1) {σ₃ : n.sig.Store} {τ' : n.sig.Trace}
    (hlater : LeftoverPost T f v s level σ'' σ₃ τ')
    (hkept : level + 1 ∈ T → ∀ q, q = arrays (σ (.cxts f.cxts)) (level + 1) →
      σ₃ (.reduction (level + 1) q 0) = σ'' (.reduction (level + 1) q 0)) :
    LeftoverPost T f v s (level + 1) σ σ₃ (τ ++ τ') := by
  have hlen := h.length_take
  have hcut' : r.cut (Nest.leftoverFrame f s (level + 1)).level = level + 1 := hcut
  have hres : ∀ l, l < level + 1 → σ'' (.cxts f.cxts) l = σ (.cxts f.cxts) l := fun l hl =>
    (hpost.resumed.rows l (by rw [hcut']; exact hl)).trans (hb.rows l hl.ne)
  refine ⟨fun l hl => ?_, ?_, fun l hl hsl hle q hq => ?_, hlater.low_le, hlater.chunk, ?_⟩
  · exact (hlater.rows l hl).trans (hres l (by omega))
  · rw [← hres s (by omega)]
    exact hlater.env
  · -- The levels above are done by the later blocks, the own level by the slice that returned
    -- before.
    rcases Nat.lt_or_eq_of_le hle with hlt | rfl
    · have hd := hlater.done l hl hsl (by omega) q
        (hq.trans (arrays_congr (hres l hlt)).symm)
      rwa [bound_congr (hres l hlt)] at hd
    · rw [hkept hl q hq]
      exact h.slot hT hb hpost hl hq
  · refine ((hpost.runs.toRuns.weaken (Multiset.zero_le _)).append
      (hlater.runs.mono (List.take_prefix_take_left (Nat.le_succ level)))).congr_work ?_
    rw [hcut', restFrom_of_le (by rw [hlen]), add_zero,
      restFrom_take_succ h.le_level h.level_lt, add_comm]
    refine congrArg (· + _) (restFrom_congr fun l hl => hres l ?_)
    rw [hlen] at hl
    exact hl

end LeftoverPre

/-- A block up to the return of its slice: the increment of the start, the
call by the contract of slices, and the branch on the code. -/
theorem leftoverBlock_bind {M : Nat} (ih : SliceSpec n T M) {f : Frame} {v : List Nat}
    {s level : Nat} {σ : n.sig.Store} {Q : n.sig.Post} (h : LeftoverPre T f v s level σ)
    (hM : (n.restFrom (v.take (level + 1)) (σ (.cxts f.cxts)) s).card < M)
    (hk : ∀ (σ' : n.sig.Store) (r : Ret) (σ'' : n.sig.Store) (τ : n.sig.Trace),
      BlockStarted f v level σ σ' →
      (∀ s', Agree ((f.leftoverScope s level (σ (.cxts f.cxts))).rel T) σ'' s' →
        SlicePost T (Nest.leftoverFrame f s level) (v.take level) (index v level + 1)
          (bound (σ (.cxts f.cxts)) level) σ' r s' τ) →
      (∀ x ∈ (f.leftoverScope s level (σ (.cxts f.cxts))).rel T,
        x ∉ ((Nest.leftoverFrame f s level).scope n.leafLevel (v.take level)
          (σ' (.cxts f.cxts))).mod T → σ'' x = σ' x) →
      Correct T (f.leftoverScope s level (σ (.cxts f.cxts)))
        (if level = s then pure r
          else if 0 < r.rc then pure r
          else invoke (S := n.sig) (.leftoverBlock f s (level - 1))) σ'' (Q.after τ)) :
    Correct T (f.leftoverScope s level (σ (.cxts f.cxts))) (n.leftoverBlock f s level) σ Q := by
  have hlt := h.lt level h.le_level (le_refl level)
  rw [Nest.leftoverBlock]
  refine Correct.incrementStart (.inl rfl) (h.start level h.le_level (le_refl level)) ?_
  generalize hσ' : Function.update σ (Loc.cxts f.cxts) _ = σ'
  -- The increment of the block moves the row past the iteration in progress, and does not wrap.
  have hb : BlockStarted f v level σ σ' := by
    subst hσ'
    refine ⟨fun l hl => ?_, ?_, fun x hx => Function.update_of_ne hx _ _⟩
    · rw [Function.update_self, Function.update_of_ne hl]
    · rw [Function.update_self, Function.update_self, wadd_of_lt (by omega)]
  refine Correct.call (h.slice_le hb) (ih _ _ _ _ σ' (h.slicePre hb) ?_).stable
    fun r σ'' τ hpost hframe => hk σ' r σ'' τ hb (fun s' hs' => ?_) hframe
  · have hload := h.load_eq hb
    rw [← hload] at hM
    exact hM
  · exact hpost s' (hs'.mono (h.slice_le hb).rel_subset)

/-- The blocks of a leftover task from `level` down to `s`. Each calls the
slice of its level, and a code above zero ends the task. -/
theorem leftoverBlock_correct (hT : Mergeable n T) {M : Nat} (ih : SliceSpec n T M) {f : Frame}
    {v : List Nat} {s : Nat} (k : Nat) :
    ∀ {level : Nat} {σ : n.sig.Store}, level = s + k → LeftoverPre T f v s level σ →
      (n.restFrom (v.take (level + 1)) (σ (.cxts f.cxts)) s).card < M →
      Correct T (f.leftoverScope s level (σ (.cxts f.cxts))) (n.leftoverBlock f s level) σ
        fun _ => LeftoverPost T f v s level σ := by
  -- The induction is on the number of blocks after the current one.
  induction k with
  | zero =>
      intro level σ hk h hM
      obtain rfl : s = level := hk.symm
      refine leftoverBlock_bind ih h hM fun σ' r σ'' τ hb hpost _ => ?_
      rw [if_pos rfl]
      refine Correct.ret fun s' hs' => ?_
      rw [Sig.Post.after, List.append_nil]
      exact h.post_last hT hb (hpost s' hs')
  | succ k ihk =>
      intro level' σ hk h hM
      obtain ⟨level, rfl, hlevel⟩ : ∃ level, level' = level + 1 ∧ level = s + k :=
        ⟨s + k, hk, rfl⟩
      have hs : s ≤ level := by omega
      refine leftoverBlock_bind ih h hM fun σ' r σ'' τ hb hpost hframe => ?_
      have hpost₀ := hpost σ'' (.refl _ _)
      have hrc := hpost₀.rc
      have hflevel : (Nest.leftoverFrame f s (level + 1)).level = level + 1 := rfl
      rw [hflevel] at hrc
      rw [if_neg (by omega)]
      -- A code above zero: a promotion in the slice has split a level further out, and the tasks
      -- of that promotion have run the blocks that are skipped here.
      by_cases hpos : 0 < r.rc
      · obtain ⟨c, hr, hc⟩ : ∃ c, r.ended = some c ∧ c < level + 1 := by
          cases he : r.ended with
          | none =>
              rw [hrc, he] at hpos
              exact absurd hpos (by simp)
          | some c =>
              rw [hrc, he, Option.elim_some] at hpos
              exact ⟨c, rfl, by omega⟩
        rw [if_pos hpos]
        refine Correct.ret fun s' hs' => ?_
        rw [Sig.Post.after, List.append_nil]
        exact h.post_ended hT hb (hpost s' hs') hr hc
      · have hcut : r.cut (level + 1) = level + 1 := by
          rw [Ret.cut]
          cases he : r.ended with
          | none => rfl
          | some c =>
              have := (hpost₀.ended_le c he).2
              rw [hflevel] at this
              rw [hrc, he, Option.elim_some] at hpos
              rw [Option.getD_some]
              omega
        -- Otherwise the next block finds the rows further out as they were.
        have hres : ∀ l, l < level + 1 → σ'' (.cxts f.cxts) l = σ (.cxts f.cxts) l :=
          fun l hl => (hpost₀.resumed.rows l (hcut.symm ▸ hl)).trans (hb.rows l hl.ne)
        have hnext := h.next hs hb hpost₀ hcut hframe
        rw [if_neg hpos]
        refine Correct.last (LeftoverPre.later_le hres) (ihk hlevel hnext ?_)
          fun r' σ₃ τ' hlater hframe' => ?_
        · refine lt_of_le_of_lt ?_ hM
          rw [restFrom_take_succ h.le_level h.level_lt, Multiset.card_add]
          refine le_of_eq_of_le (congrArg Multiset.card (restFrom_congr fun l hl => ?_))
            (Nat.le_add_right _ _)
          rw [h.length_take] at hl
          exact hres l hl
        · -- The later blocks work on levels further out and do not write the slot of this one.
          refine h.post_next hT hs hb hpost₀ hcut hlater fun hl q hq => ?_
          refine hframe' _ ⟨hl, .inr ⟨h.le_level, le_refl _, hq, rfl⟩⟩ ?_
          obtain ⟨π, hπ, harr⟩ := h.kids _ h.le_level (le_refl _) (hT.liveOut _ hl)
          have habove : q.Above {ρ | ρ <:+ f.path} := fun ρ hρ => by
            rw [hq, harr] at hρ
            cases hρ
            exact hπ
          rintro (hno | hin | hslot)
          · exact hno hl
          · exact habove.not_in (f.leftoverScope_own s level _) hin
          · exact absurd hslot.2.1 (by simp)

end HeartbeatCompiler
