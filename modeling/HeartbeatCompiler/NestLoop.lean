import HeartbeatCompiler.Exit

/-!
# `HeartbeatCompiler.NestLoop`: the loops around the leaf loop

An iteration of a loop with a nested loop stores the row of the next level, calls its slice,
and goes on or leaves by the return code. The slice may have run more than it was called
for; then the loop is left with what the exit block needs.
-/

set_option autoImplicit false

namespace HeartbeatCompiler

open ForkJoin Prog

variable {n : Nest} {T : Tracked}

/-- The frame of the slice that iteration `i` of `g` calls: it shares the
context and the task memory of its caller and reports to slot 0. -/
def calleeFrame (g : Activation) (i : Nat) : Frame :=
  ⟨.nested g.level i g.maxIter :: g.path, g.level + 1, g.cxts, g.tmem, 0⟩

/-- The row of the next level, as an iteration leaves it for the slice:

- `start`, `max`: the range of the nested loop in this iteration;
- `liveIn`, `entries`: it leads to the live-ins, which were stored before the
  call;
- `liveOut`, `pointers`: it leads to the arrays that were allocated on entry. -/
structure CalleeRow (n : Nest) (g : Activation) (v : List Nat) (σ : n.sig.Store) : Prop where
  start : (σ (.cxts g.cxts) (g.level + 1)).start = some (n.startIter v)
  max : (σ (.cxts g.cxts) (g.level + 1)).max = some (n.maxIter v)
  liveIn : (σ (.cxts g.cxts) (g.level + 1)).liveIn = some (.callee g.path)
  entries : σ (.liveInEnv (.callee g.path)) = some v
  liveOut : n.numLiveOuts (g.level + 1) ≠ 0 →
    (σ (.cxts g.cxts) (g.level + 1)).liveOut =
      some (n.liveOutPtr (g.level + 1) (.callee g.path))
  pointers : n.numLiveOuts (g.level + 1) ≠ 0 → n.numLiveOuts (g.level + 1) ≠ 1 →
    σ (.liveOutEnv (.callee g.path)) = some (.callee g.path)

namespace Inside

variable {g : Activation} {v : List Nat} {a b i : Nat} {σ₀ σ σ' s : n.sig.Store} {r : Ret}
  {acc : n.Values g.level} {τ : n.sig.Trace}

/-- The slice is called as its contract asks for: the row that was stored
before the call is its range, and the loops around it are suspended. -/
theorem slicePre_callee (hT : Mergeable n T) (h : Inside T g v a b i σ₀ σ)
    (hp : InProgress g i σ σ') (hi : i < b) (hnest : g.level < n.leafLevel)
    (hc : CalleeRow n g (v ++ [i]) σ') :
    SlicePre T (calleeFrame g i) (v ++ [i]) (n.startIter (v ++ [i])) (n.maxIter (v ++ [i]))
      σ' where
  length := by
    rw [List.length_append, h.pre.length]
    rfl
  level_le := hnest
  base_le := Nat.le_succ_of_le h.pre.base_le
  low_le_base := h.pre.low_le_base
  tmem_eq := h.pre.tmem_eq
  cxts_suffix := h.pre.cxts_suffix.trans (List.suffix_cons _ _)
  start := hc.start
  max := hc.max
  start_lt := n.startIter_lt _
  max_lt := n.maxIter_lt _
  env :=
    { liveIn := fun _ => ⟨.callee g.path, hc.liveIn, fun ρ hρ => by
        cases hρ
        exact List.suffix_rfl, hc.entries⟩
      liveOut := fun hm => ⟨.callee g.path, hc.liveOut hm, fun ρ hρ => by
        cases hρ
        exact List.suffix_rfl, hc.pointers hm⟩ }
  pending := by
    have hrows : ∀ l, l < v.length → σ' (.cxts g.cxts) l = σ₀ (.cxts g.cxts) l := fun l hl =>
      h.rows_eq hp (h.pre.length ▸ hl)
    have hpend := (h.pre.pending.congr hrows).nested (i := i) (h.bound_eq hp)
    rw [h.pre.length, ← h.maxIter] at hpend
    exact hpend
  suspended :=
    let hs := h.suspended hT hp hi
    ⟨hs.start, hs.max, hs.lt, hs.env, hs.kids, hs.fresh⟩
  tmem := h.tmemReady hp hi
  own_empty hlt := by
    rw [hp.same _ (by simp) (by simp)] at hlt
    have hlt' : g.level + 1 < (σ (.tmem g.cxts)).startingLevel := hlt
    -- The task's own level can only be passed over when the current iteration is its last one.
    have := h.own_empty (by omega)
    omega
  alive ρ hρ := h.alive_callers hp hρ

/-- The slice works inside the scope of its caller. -/
theorem callee_le (hT : Mergeable n T) (h : Inside T g v a b i σ₀ σ)
    (hp : InProgress g i σ σ') (hc : CalleeRow n g (v ++ [i]) σ') :
    ((calleeFrame g i).scope n.leafLevel (v ++ [i]) (σ' (.cxts g.cxts))).Le T
      (g.toFrame.scope n.leafLevel v (σ₀ (.cxts g.cxts))) where
  own ρ hρ := (List.suffix_cons _ _).trans hρ
  callers ρ hρ := by
    rcases Path.suffix_iff.mp hρ with rfl | hρ
    · exact .inl List.suffix_rfl
    · exact .inr hρ
  task := .inl rfl
  slots l q k hl hq := by
    rcases hq with ⟨hl', hq, -⟩ | ⟨hlt, hq, hk⟩
    · obtain rfl : l = g.level + 1 := hl'
      rw [show q = _ from hq, arrays_of_liveOut (hc.liveOut (hT.liveOut _ hl))]
      exact .inl ⟨g.path, List.suffix_rfl, rfl⟩
    · exact h.pendingSlot_owned hT hp hl ⟨hlt, hq, hk⟩

/-- The slice owns frames above the one of its caller. -/
theorem callee_own (g : Activation) (i : Nat) {rows : Nat → Row} :
    ∀ ρ ∈ ((calleeFrame g i).scope n.leafLevel v rows).own, g.path.length < ρ.length :=
  fun _ hρ => hρ.length_le

/-- Of the level of `g` the slice is handed the slots for the kids. -/
theorem callee_slots (hT : Mergeable n T) (h : Inside T g v a b i σ₀ σ)
    (hp : InProgress g i σ σ') (q : Block) (k : Nat) (hl : g.level ∈ T)
    (hq : (g.level, q, k) ∈
      ((calleeFrame g i).scope n.leafLevel (v ++ [i]) (σ' (.cxts g.cxts))).slots) :
    q = .kids g.path := by
  rcases hq with ⟨hl', -, -⟩ | ⟨-, hq, -⟩
  · -- Its own slot is of the next level; what is left are the slots pending above it.
    exact absurd (show g.level = g.level + 1 from hl') (by omega)
  · exact (show q = _ from hq).trans (h.arrays_own hp (hT.liveOut _ hl))

/-- The code of the nested call is positive if and only if a promotion has run
what was left of a loop around it. -/
theorem callee_rc_pos_iff (hpost : SlicePost T (calleeFrame g i) (v ++ [i])
      (n.startIter (v ++ [i])) (n.maxIter (v ++ [i])) σ' r s τ) :
    0 < r.rc ↔ ∃ l ∈ r.ended, l ≤ g.level := by
  have hlevel : (calleeFrame g i).level = g.level + 1 := rfl
  rw [hpost.rc, hlevel]
  cases he : r.ended with
  | none => simp
  | some l =>
      simp only [Option.elim_some, Option.mem_some_iff, exists_eq_left']
      omega

/-- Otherwise the levels around it are as they were. -/
theorem callee_cut (hpost : SlicePost T (calleeFrame g i) (v ++ [i])
      (n.startIter (v ++ [i])) (n.maxIter (v ++ [i])) σ' r s τ) (hrc : ¬ 0 < r.rc) :
    r.cut (g.level + 1) = g.level + 1 := by
  rw [Ret.cut]
  cases he : r.ended with
  | none => rfl
  | some l =>
      have hle : l ≤ g.level + 1 := (hpost.ended_le l he).2
      have hnot : ¬ l ≤ g.level := fun hll =>
        hrc ((callee_rc_pos_iff hpost).mpr ⟨l, he, hll⟩)
      rw [Option.getD_some]
      omega

/-- The slice has returned with a positive code: a promotion has run what was
left of the loop, and the activation leaves it with what its exit block needs.
-/
theorem atExit_of_nested (hT : Mergeable n T) (h : Inside T g v a b i σ₀ σ)
    (hp : InProgress g i σ σ') (hi : i < b)
    (hpost : SlicePost T (calleeFrame g i) (v ++ [i]) (n.startIter (v ++ [i]))
      (n.maxIter (v ++ [i])) σ' r s τ)
    (hframe : ∀ y ∈ (g.toFrame.scope n.leafLevel v (σ₀ (.cxts g.cxts))).rel T,
      y ∉ ((calleeFrame g i).scope n.leafLevel (v ++ [i]) (σ' (.cxts g.cxts))).mod T →
      s y = σ' y) (hpos : 0 < r.rc) {acc : n.Values g.level}
    (hacc : acc = n.total v g.level a (i + 1)) {τ' : n.sig.Trace}
    (hruns : Executes v (firstOf v a (i + 1)) (n.iterations v a (i + 1))
      (n.restFrom (v ++ [i]) (σ' (.cxts g.cxts)) (r.cut (g.level + 1))) τ') :
    AtExit T g v a b σ₀ s r acc τ' := by
  obtain ⟨l, hl, hll⟩ := (callee_rc_pos_iff hpost).mp hpos
  have hlevel : (calleeFrame g i).level = g.level + 1 := rfl
  have hcut : r.cut (g.level + 1) = l := by rw [Ret.cut, hl]; rfl
  have hlow : g.path.low n.leafLevel ≤ l := (hpost.ended_le l hl).1
  have hpr : T.promotes := hpost.promotes (by rw [hl]; rfl)
  have hres : Resumed T g.path g.cxts (v ++ [i]) σ' s l := by
    have hr : Resumed T (calleeFrame g i).path g.cxts (v ++ [i]) σ' s
        (r.cut (g.level + 1)) := hpost.resumed
    rw [hcut] at hr
    exact ⟨hr.rows, hr.env, hr.kept, hr.apart, hr.done, hr.kept_second, hr.split⟩
  have halive := fun ρ (hρ : ρ <:+ g.path) => h.alive_of_frame hp (callee_own g i) hframe hρ
  rw [hcut] at hruns
  refine h.atExit_of_resumed hT hp hi hpr hlow hll hres (fun hl' => ?_) (fun k hk hkl => ?_)
    hpost.low_le hpost.chunk halive hl ?_ hacc hruns
  · -- The slot of the activation is not one that the slice was handed.
    refine hframe _ ⟨hl', .inr (.inl ⟨rfl, h.liveOut (hT.liveOut _ hl'), rfl⟩)⟩ ?_
    exact h.slot_not_mod hT (callee_own g i) (h.callee_slots hT hp) hl'
  · exact hpost.empty k hk (by rw [hlevel, hcut]; exact hkl) (.inr (by rw [hl]; rfl))
  · rw [hpost.rc, hl, hlevel, Option.elim_some]
    omega

/-- The slice has returned and the loop goes on. -/
theorem next_nested (hT : Mergeable n T) (h : Inside T g v a b i σ₀ σ)
    (hp : InProgress g i σ σ') (hi : i < b) (hc : CalleeRow n g (v ++ [i]) σ')
    (hpost : SlicePost T (calleeFrame g i) (v ++ [i]) (n.startIter (v ++ [i]))
      (n.maxIter (v ++ [i])) σ' r s τ) (hcut : r.cut (g.level + 1) = g.level + 1)
    (hframe : ∀ y ∈ (g.toFrame.scope n.leafLevel v (σ₀ (.cxts g.cxts))).rel T,
      y ∉ ((calleeFrame g i).scope n.leafLevel (v ++ [i]) (σ' (.cxts g.cxts))).mod T →
      s y = σ' y) : Inside T g v a b (i + 1) σ₀ s := by
  have hlen := h.pre.length
  have hcut' : r.cut (calleeFrame g i).level = g.level + 1 := hcut
  have hrows : ∀ l, l ≤ g.level → s (.cxts g.cxts) l = σ' (.cxts g.cxts) l := fun l hl =>
    hpost.resumed.rows l (by rw [hcut']; omega)
  -- The nested call has not been cut, so that it has kept the rows and slots of all levels
  -- around it.
  have hkept : ∀ l ∈ T, l ≤ g.level → ∀ q k,
      PendingSlot n.leafLevel g.path (v ++ [i]) (σ' (.cxts g.cxts)) (l, q, k) →
      s (.reduction l q k) = σ' (.reduction l q k) := fun l hl hle q k hq =>
    hpost.resumed.kept l hl (by rw [hcut']; omega) q k hq
  refine h.next hT hp hi (callee_own g i) (h.callee_slots hT hp) hframe hrows hkept ?_ hpost.low_le
    (fun l hlow hl hlt => hpost.empty l hlow (by rw [hcut']; omega) (.inl hlt)) hpost.chunk
  intro hnest
  have henv := hpost.env hcut'
  refine ⟨henv.1.trans hc.liveIn, fun hm => ⟨henv.2.trans (hc.liveOut hm), fun hm1 => ?_⟩⟩
  rw [hframe (.liveOutEnv (.callee g.path)) (.inl ⟨g.path, List.suffix_rfl, rfl⟩)
    ((Block.above_of_owner (q := .callee g.path) rfl).not_in (callee_own g i))]
  exact hc.pointers hm hm1

end Inside

section

variable {g : Activation} {v : List Nat} {a b i : Nat} {σ₀ σ : n.sig.Store}
  {acc : n.Values g.level} {τ : n.sig.Trace}

/-- The stores before the nested call: the iteration in progress as the start
of the own row, and the range and the live-ins of the row below. -/
theorem storeCallee_bind {k : PUnit → Prog n.sig Ret} {Q : n.sig.Post}
    (h : Inside T g v a b i σ₀ σ) (hnest : g.level < n.leafLevel)
    (hk : ∀ σ', InProgress g i σ σ' → CalleeRow n g (v ++ [i]) σ' →
      Correct T (g.toFrame.scope n.leafLevel v (σ₀ (.cxts g.cxts))) (k ⟨⟩) σ' Q) :
    Correct T (g.toFrame.scope n.leafLevel v (σ₀ (.cxts g.cxts)))
      (n.storeCallee g i (v ++ [i]) >>= k) σ Q := by
  have hq : (Block.callee g.path).In (g.toFrame.scope n.leafLevel v (σ₀ (.cxts g.cxts))).own :=
    ⟨g.path, List.suffix_rfl, rfl⟩
  obtain ⟨hin, hout⟩ := h.callee hnest
  simp only [Nest.storeCallee, bind_bind]
  refine Correct.write (.inl hq) hq (.some (.inl List.suffix_rfl) h.alive) ?_
  refine Correct.setRow (.inl rfl) ?_
  refine Correct.setRow (.inl rfl) ?_
  -- The other rows, the row of the loop with its start at the iteration in progress, and the row
  -- of the nested loop.
  refine Correct.setRow (.inl rfl) (hk _ ⟨?_, ?_, ?_⟩ ⟨?_, ?_, ?_, ?_, ?_, ?_⟩)
  · intro l hl
    simp [Function.update_of_ne (show l ≠ g.level + 1 by omega),
      Function.update_of_ne (show l ≠ g.level by omega)]
  · simp
  · intro x hx hx'
    simp [Function.update_of_ne hx, Function.update_of_ne hx']
  · simp
  · simp
  · simpa using hin
  · simp
  · intro hm
    simpa using (hout hm).1
  · intro hm hm1
    simpa using (hout hm).2 hm1

/-- Reading what the nested call returned. -/
theorem readNestedResult_bind {k : PUnit → Prog n.sig Ret} {Q : n.sig.Post} {S : Scope}
    {u : List Nat} (hT : Mergeable n T) (hown : g.path ∈ S.own)
    (halive : σ (.alive g.path) = true)
    (hval : g.level + 1 ∈ T.exact → (σ (.reduction (g.level + 1) (.callee g.path) 0)).values =
      n.total u (g.level + 1) (n.startIter u) (n.maxIter u))
    (hk : ∀ τ, Executes u 0 [] 0 τ → Correct T S (k ⟨⟩) σ (Q.after τ)) :
    Correct T S (n.readNestedResult g u >>= k) σ Q := by
  have hq : (Block.callee g.path).In S.own := ⟨g.path, hown, rfl⟩
  have hheld : Held (S.rel T) σ (Block.callee g.path).owner := .some (.inl hown) halive
  rw [Nest.readNestedResult]
  by_cases hm : n.numLiveOuts (g.level + 1) = 0
  · rw [if_pos hm]
    exact hk [] .nil
  · rw [if_neg hm, bind_bind]
    by_cases hl : g.level + 1 ∈ T
    · refine Correct.read ⟨hl, .inl hq⟩ hheld ?_
      exact Correct.log fun _ s _ => ⟨hval, hk _ (.quiet ⟨rfl, rfl⟩ s)⟩
    · refine Correct.read_unknown (fun hr => hl hr.1) ⟨hl, hT.accessed _ hm⟩ (.inl hl) hheld
        fun x => ?_
      exact Correct.log fun _ s _ => ⟨fun hl' => absurd (T.exact_subset hl') hl,
        hk _ (.quiet ⟨rfl, rfl⟩ s)⟩

/-- The loop of a level with a nested loop, from iteration `i` on. After each
nested call the code decides whether the loop goes on or is left, and a lemma
about each case gives the state after it. -/
theorem nestLoop_correct (hT : Mergeable n T) (hnest : g.level < n.leafLevel)
    (ih : SliceSpec n T (n.load v (σ₀ (.cxts g.cxts)) (g.path.low n.leafLevel) a b)) (k : Nat) :
    ∀ {i : Nat} {acc : n.Values g.level} {σ : n.sig.Store} {τ : n.sig.Trace}, b - i = k →
      Inside T g v a b i σ₀ σ → acc = n.total v g.level a i →
      Executes v (firstOf v a i) (n.iterations v a i) 0 τ →
      Correct T (g.toFrame.scope n.leafLevel v (σ₀ (.cxts g.cxts))) (n.nestLoop g i acc) σ
        (Sig.Post.after (S := n.sig) (SlicePost T g.toFrame v a b σ₀) τ) := by
  -- The induction is on the number of iterations left.
  induction k with
  | zero =>
      intro i acc σ τ hk h hacc hruns
      have hslt : ¬ slt i g.maxIter = true := by
        rw [h.maxIter, slt_iff h.lt_two_pow h.pre.max_lt]
        omega
      rw [Nest.nestLoop, if_neg hslt]
      exact Correct.tail ((h.atExit_of_done hT (by omega) hruns hacc).loopExit_correct hT)
  | succ k ihk =>
      intro i acc σ τ hk h hacc hruns
      have hi : i < b := by omega
      have hai := h.start_le
      have hlen := h.pre.length
      have hlevels : v.length + 1 < n.numLevels := by
        have := hnest
        rw [Nest.leafLevel] at this
        omega
      have hslt : slt i g.maxIter = true := by
        rw [h.maxIter]
        exact (slt_iff h.lt_two_pow h.pre.max_lt).mpr hi
      have hacc' : n.accumulate g.level (v ++ [i]) acc = n.total v g.level a (i + 1) := by
        rw [hacc]
        exact accumulate_total v g.level hai
      rw [Nest.nestLoop, if_pos hslt]
      simp only [h.outer]
      refine Correct.log fun _ s₁ _ => ⟨trivial, ?_⟩
      refine storeCallee_bind h hnest fun σ' hp hc => ?_
      -- The nested call has less to run than its caller: the iteration in progress is a part of
      -- it.
      have hload : n.load (v ++ [i]) (σ' (.cxts g.cxts)) (g.path.low n.leafLevel)
          (n.startIter (v ++ [i])) (n.maxIter (v ++ [i])) <
          n.load v (σ₀ (.cxts g.cxts)) (g.path.low n.leafLevel) a b :=
        load_nested_lt hlevels h.pre.pending.low_le hai hi
          (fun l hl => h.rows_eq hp (by omega)) (h.bound_eq hp)
      refine Correct.call (h.callee_le hT hp hc)
        (ih (calleeFrame g i) _ _ _ σ' (h.slicePre_callee hT hp hi hnest hc) hload)
        fun r s τ' hpost hframe => ?_
      refine Correct.log fun _ s₂ _ => ⟨Inside.callee_rc_pos_iff hpost, ?_⟩
      have halive := fun ρ (hρ : ρ <:+ g.path) =>
        h.alive_of_frame hp (Inside.callee_own g i) hframe hρ
      refine readNestedResult_bind hT List.suffix_rfl (halive _ List.suffix_rfl)
        (fun hexact => ?_) fun τ₂ hτ₂ => ?_
      · have hl := T.exact_subset hexact
        exact (hpost.slot hl _ (arrays_of_liveOut (hc.liveOut (hT.liveOut _ hl))).symm).1 hexact
      refine Correct.log fun _ s₃ _ => ⟨trivial, ?_⟩
      simp only [Sig.Post.after_after]
      -- What has been run: the iteration, and what a promotion has run of the levels above.
      have hslice : Executes (v ++ [i])
          (firstOf (v ++ [i]) (n.startIter (v ++ [i])) (n.maxIter (v ++ [i])))
          (n.below (v ++ [i]))
          (n.restFrom (v ++ [i]) (σ' (.cxts g.cxts)) (r.cut (g.level + 1))) τ' := hpost.runs
      have hbelow :=
        (hslice.append_quiet (e := .returned g r) ⟨rfl, rfl⟩ s₂).append_silent hτ₂
      have hrun := runs_nest hai hlevels hruns hbelow s₁ s₃
      simp only [← List.append_assoc] at hrun ⊢
      -- The branch of the source on the return code, right behind the nested call.
      by_cases hpos : 0 < r.rc
      · rw [if_pos hpos]
        exact Correct.tail
          ((h.atExit_of_nested hT hp hi hpost hframe hpos hacc' hrun).loopExit_correct hT)
      · have hcut := Inside.callee_cut hpost hpos
        have hlen' : (v ++ [i]).length = g.level + 1 := by
          rw [List.length_append, List.length_singleton, hlen]
        rw [hcut, restFrom_of_le hlen'.le] at hrun
        have hnext := h.next_nested hT hp hi hc hpost hcut hframe
        rw [if_neg hpos, wadd_of_lt (by have := h.lt_two_pow; omega)]
        exact Correct.tail (ihk (by omega) hnext hacc' hrun)

end

end HeartbeatCompiler
