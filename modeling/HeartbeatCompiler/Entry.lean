import HeartbeatCompiler.Activation

/-!
# `HeartbeatCompiler.Entry`: the entry block of a slice task

What the pieces of the entry block do to the store, each with what follows it.
-/

set_option autoImplicit false

namespace HeartbeatCompiler

open ForkJoin Prog

variable {n : Nest} {T : Tracked} {S : Scope} {σ : n.sig.Store} {Q : n.sig.Post}

/-- The reduction arrays of level `l` lie in `q`, with `size` slots:

- `same`: nothing but the context, the environment and the slots has changed;
- `rows`: the rows of the other levels have not changed;
- `row`: the row of level `l` leads to the arrays, if there are live-outs;
- `pointers`: with several live-outs it leads there by an environment;
- `fresh`: the slots have not been touched. -/
structure Allocated (T : Tracked) (c : Path) (l : Nat) (q : Block) (size : Nat)
    (σ σ' : n.sig.Store) : Prop where
  same : ∀ x : Loc, x ≠ .cxts c → x ≠ .liveOutEnv q → (∀ i, x ≠ .reduction l q i) → σ' x = σ x
  rows : ∀ l', l' ≠ l → σ' (.cxts c) l' = σ (.cxts c) l'
  row : σ' (.cxts c) l = if n.numLiveOuts l = 0 then σ (.cxts c) l
    else { σ (.cxts c) l with liveOut := some (n.liveOutPtr l q) }
  pointers : n.numLiveOuts l ≠ 0 → n.numLiveOuts l ≠ 1 → σ' (.liveOutEnv q) = some q
  fresh : n.numLiveOuts l ≠ 0 → l ∈ T → ∀ i, i < size → (σ' (.reduction l q i)).log = []

section

variable {rel mod : Set Loc}

/-- The slots of new arrays have not been touched: each has an empty log when
the loop starts. -/
theorem allocateSlots_bind {l : Nat} {q : Block} (hmod : ∀ i, Loc.reduction l q i ∈ mod)
    (hrel : l ∈ T → ∀ i, Loc.reduction l q i ∈ rel) (hacc : l ∈ T.accessed) (size : Nat) :
    ∀ {k : PUnit → Prog n.sig Ret} {σ : n.sig.Store}, Held rel σ q.owner →
      (∀ σ' : n.sig.Store, (∀ x : Loc, (∀ i, x ≠ .reduction l q i) → σ' x = σ x) →
        (l ∈ T → ∀ i, i < size → (σ' (.reduction l q i)).log = []) →
        CorrectIn T rel mod (k ⟨⟩) σ' Q) →
      CorrectIn T rel mod (n.allocateSlots l q size >>= k) σ Q := by
  induction size with
  | zero => exact fun _ h => h _ (fun _ _ => rfl) fun _ i hi => absurd hi (Nat.not_lt_zero i)
  | succ size ih =>
      intro k σ hq h
      rw [Nest.allocateSlots, bind_bind]
      -- By induction on the size: the slot allocated last starts with an empty log, and it is
      -- another one than those before it.
      refine ih hq fun σ' hsame hlog => ?_
      have hq' : Held rel σ' q.owner := hq.congr fun ρ => hsame _ (by simp)
      -- A slot of a level that is not tracked may lie outside what the task relies on; there the
      -- write is of an unknown value.
      by_cases hx : Loc.reduction l q size ∈ rel
      · refine Wp.modify_bind (S := n.sig) hx (hmod size) hq'.live (h _ ?_ ?_)
        · intro x hx
          rw [Function.update_of_ne (hx size), hsame x hx]
        · intro hl i hi
          by_cases hi' : i = size
          · subst hi'
            rw [Function.update_self]
          · rw [Function.update_of_ne (by simpa using hi')]
            exact hlog hl i (by omega)
      · exact Wp.modify_unknown_bind (S := n.sig) hx ⟨fun hl => hx (hrel hl size), hacc⟩ (hmod size)
          hq'.live (h σ' hsame fun hl => absurd (hrel hl size) hx)

/-- Allocating reduction arrays in an own frame. The row, the environment if
there is one, and the slots of the arrays are all that is changed. -/
theorem allocateLiveOuts_bind {c : Path} {l : Nat} {q : Block} {size : Nat}
    {k : PUnit → Prog n.sig Ret} (hT : Mergeable n T) (hc : Loc.cxts c ∈ rel)
    (hc' : Loc.cxts c ∈ mod)
    (hp : Loc.liveOutEnv q ∈ rel) (hp' : Loc.liveOutEnv q ∈ mod)
    (hmod : ∀ i, Loc.reduction l q i ∈ mod) (hrel : l ∈ T → ∀ i, Loc.reduction l q i ∈ rel)
    (hq : Held rel σ q.owner)
    (h : ∀ σ', Allocated T c l q size σ σ' → CorrectIn T rel mod (k ⟨⟩) σ' Q) :
    CorrectIn T rel mod (n.allocateLiveOuts c l q size >>= k) σ Q := by
  rw [Nest.allocateLiveOuts]
  by_cases hm : n.numLiveOuts l = 0
  · rw [if_pos hm]
    exact h σ ⟨fun _ _ _ _ => rfl, fun _ _ => rfl, (if_pos hm).symm, fun h' => absurd hm h',
      fun h' => absurd hm h'⟩
  · rw [if_neg hm, bind_bind]
    refine allocateSlots_bind hmod hrel (hT.accessed _ hm) size hq fun σ₁ hsame₁ hlog₁ => ?_
    rw [bind_bind, Nest.allocatePointers]
    -- With one live-out the row points to the array itself, otherwise to an environment that
    -- points to it.
    by_cases hm1 : n.numLiveOuts l = 1
    · rw [if_pos hm1, pure_bind]
      refine Wp.modify_bind (S := n.sig) hc hc' Held.none.live
        (h _ ⟨?_, ?_, ?_, fun _ h' => absurd hm1 h', ?_⟩)
      · intro x hx _ hx'
        rw [Function.update_of_ne hx, hsame₁ x hx']
      · intro l' hl'
        rw [Function.update_self, Function.update_of_ne hl', hsame₁ _ (by simp)]
      · rw [Function.update_self, Function.update_self, hsame₁ _ (by simp), if_neg hm]
      · intro _ hl i hi
        rw [Function.update_of_ne (by simp)]
        exact hlog₁ hl i hi
    · rw [if_neg hm1]
      refine Wp.write_bind (S := n.sig) hp hp'
        (hq.congr fun ρ => hsame₁ _ (by simp)).live ?_
      refine Wp.modify_bind (S := n.sig) hc hc' Held.none.live
        (h _ ⟨?_, ?_, ?_, ?_, ?_⟩)
      · intro x hx hx₁ hx'
        rw [Function.update_of_ne hx, Function.update_of_ne hx₁, hsame₁ x hx']
      · intro l' hl'
        rw [Function.update_self, Function.update_of_ne hl', Function.update_of_ne (by simp),
          hsame₁ _ (by simp)]
      · rw [Function.update_self, Function.update_self, Function.update_of_ne (by simp),
          hsame₁ _ (by simp), if_neg hm]
      · intro _ _
        rw [Function.update_of_ne (by simp), Function.update_self]
      · intro _ hl i hi
        rw [Function.update_of_ne (by simp), Function.update_of_ne (by simp)]
        exact hlog₁ hl i hi

end

/-- The environments for the slice that `f` calls are allocated:

- `same`: nothing but the context, these environments and their slots has
  changed;
- `rows`: the rows of the other levels have not changed;
- `callee`: the row of the next level leads to them, with an environment of
  pointers if there are several live-outs. -/
structure CalleeAllocated (f : Frame) (σ σ' : n.sig.Store) : Prop where
  same : ∀ x : Loc, x ≠ .cxts f.cxts → x ≠ .liveInEnv (.callee f.path) →
    x ≠ .liveOutEnv (.callee f.path) → (∀ l i, x ≠ .reduction l (.callee f.path) i) →
    σ' x = σ x
  rows : ∀ l, l ≠ f.level + 1 → σ' (.cxts f.cxts) l = σ (.cxts f.cxts) l
  callee : f.level < n.leafLevel →
    (σ' (.cxts f.cxts) (f.level + 1)).liveIn = some (.callee f.path) ∧
    (n.numLiveOuts (f.level + 1) ≠ 0 →
      (σ' (.cxts f.cxts) (f.level + 1)).liveOut =
        some (n.liveOutPtr (f.level + 1) (.callee f.path)) ∧
      (n.numLiveOuts (f.level + 1) ≠ 1 →
        σ' (.liveOutEnv (.callee f.path)) = some (.callee f.path)))

/-- The rule of `allocateCallee`: the frame has to own its contexts and to be
alive, and what follows starts in a store in which the environments of the
callee are allocated. -/
theorem allocateCallee_bind {f : Frame} {k : PUnit → Prog n.sig Ret} (hT : Mergeable n T)
    (hc : f.cxts = S.task) (hown : f.path ∈ S.own) (halive : σ (.alive f.path) = true)
    (h : ∀ σ', CalleeAllocated f σ σ' → Correct T S (k ⟨⟩) σ' Q) :
    Correct T S (n.allocateCallee f >>= k) σ Q := by
  have hq : (Block.callee f.path).In S.own := ⟨f.path, hown, rfl⟩
  have hheld : Held (S.rel T) σ (Block.callee f.path).owner := .some (.inl hown) halive
  rw [Nest.allocateCallee]
  -- The leaf calls no slice and allocates nothing for one.
  by_cases hleaf : f.level = n.leafLevel
  · rw [if_pos hleaf]
    exact h σ ⟨fun _ _ _ _ _ => rfl, fun _ _ => rfl, fun hlt => absurd hleaf hlt.ne⟩
  · rw [if_neg hleaf, bind_bind]
    refine Correct.write (.inl hq) hq hheld ?_
    rw [bind_bind]
    refine Correct.setRow (.inl hc) (allocateLiveOuts_bind hT (.inl hc) (.inl hc) (.inl hq) hq
      (fun _ => .inr (.inl hq)) (fun hl _ => ⟨hl, .inl hq⟩) (hheld.congr fun ρ => ?_)
      fun σ' ha => h σ' ⟨?_, ?_, fun _ => ⟨?_, fun hm => ⟨?_, fun hm1 => ha.pointers hm hm1⟩⟩⟩)
    · rw [Function.update_of_ne (by simp), Function.update_of_ne (by simp)]
    · intro x hx hx₁ hx₂ hx₃
      rw [ha.same x hx hx₂ (hx₃ _), Function.update_of_ne hx, Function.update_of_ne hx₁]
    · intro l hl
      rw [ha.rows l hl, Function.update_self, Function.update_of_ne hl,
        Function.update_of_ne (by simp)]
    · rw [ha.row, Function.update_self, Function.update_self]
      split <;> rfl
    · rw [ha.row, if_neg hm]

section

variable {f : Frame} {v : List Nat} {a b : Nat} {σ₁ : n.sig.Store}

/-- No activation that is suspended below has returned. -/
theorem SlicePre.held (h : SlicePre T f v a b σ)
    (hsame : ∀ x : Loc, x ≠ .alive f.path → σ₁ x = σ x) {q : Block}
    (hq : q.Above f.path.callers) :
    Held ((f.scope n.leafLevel v (σ (.cxts f.cxts))).rel T) σ₁ q.owner := by
  intro ρ hρ
  have hmem := hq ρ hρ
  -- The callers lie strictly below the activation on the stack, so that its own entry, which
  -- marks its frame as alive, is not about them.
  have hne : Loc.alive ρ ≠ .alive f.path := by
    intro heq
    injection heq with heq
    rw [heq] at hmem
    exact Path.not_mem_callers f.path hmem
  refine ⟨.inr hmem, ?_⟩
  rw [hsame _ hne]
  exact h.alive ρ hmem

/-- The entry block of `f` has loaded its entries. -/
def Loaded (f : Frame) (v : List Nat) (τ : n.sig.Trace) : Prop :=
  n.hasLiveIn f.level = true →
    ∃ s, (Event.loadedEntries f.level (if f.level = 0 then none else some v), s) ∈ τ

/-- The rule of `loadLiveIns`: the indices it returns are those of the caller,
as the environments the contexts point to are still the ones the caller
filled. -/
theorem loadLiveIns_bind (h : SlicePre T f v a b σ) {k : List Nat → Prog n.sig Ret}
    (hsame : ∀ x : Loc, x ≠ .alive f.path → σ₁ x = σ x)
    (hk : ∀ τ, Executes v 0 [] 0 τ → Loaded f v τ →
      Correct T (f.scope n.leafLevel v (σ (.cxts f.cxts))) (k v) σ₁ (Q.after τ)) :
    Correct T (f.scope n.leafLevel v (σ (.cxts f.cxts)))
      (n.loadLiveIns f (σ (.cxts f.cxts)) >>= k) σ₁ Q := by
  have hroot : f.level = 0 → v = [] := fun hl => List.length_eq_zero_iff.mp (h.length.trans hl)
  rw [Nest.loadLiveIns]
  by_cases hin : n.hasLiveIn f.level = true
  · obtain ⟨q, hrow, hq, hval⟩ := h.env.liveIn hin
    rw [if_pos hin]
    simp only [bind_bind]
    refine Correct.load hrow ?_
    -- The environment lies in the frame of a caller, which is still on the stack.
    have hheld := h.held hsame hq
    refine Correct.log fun _ s hs => ⟨hheld.live (x := .liveInEnv q) s hs, ?_⟩
    refine Correct.read (.inr hq) hheld ?_
    rw [hsame _ (by simp), hval]
    refine Correct.log fun _ s' _ => ⟨⟨hin, ?_⟩, ?_⟩
    · show (if f.level = 0 then none else some v) = none ↔ f.level = 0
      simp
    · rw [Sig.Post.after_after]
      have hτ := (Executes.quiet (n := n) (v := v) (e := .loadedLiveIn q) ⟨rfl, rfl⟩ s).append_quiet
        (e := .loadedEntries f.level (if f.level = 0 then none else some v)) ⟨rfl, rfl⟩ s'
      have hloaded := hk _ hτ fun _ => ⟨s', by simp⟩
      by_cases hl : f.level = 0
      · rw [if_pos hl, pure_bind, ← hroot hl]
        exact hloaded
      · rw [if_neg hl]
        exact Correct.load (if_neg hl) hloaded
  · -- Only the root loop has no live-in environment. It has no outer indices either.
    have hl : f.level = 0 := by
      by_contra hl
      exact hin (by rw [Nest.hasLiveIn]; simp [hl])
    rw [if_neg hin, pure_bind, ← hroot hl]
    exact hk [] .nil fun h' => absurd h' hin

/-- The rule of `loadLiveOuts`: if the level has live-outs, the block it
returns is the reduction array that the contexts point to. Without live-outs
nothing is known of the block, and nothing is read through it. -/
theorem loadLiveOuts_bind (h : SlicePre T f v a b σ) {k : Block → Prog n.sig Ret}
    (hsame : ∀ x : Loc, x ≠ .alive f.path → σ₁ x = σ x)
    (hk : ∀ q τ, (n.numLiveOuts f.level ≠ 0 → q = arrays (σ (.cxts f.cxts)) f.level) →
      Executes v 0 [] 0 τ →
      Correct T (f.scope n.leafLevel v (σ (.cxts f.cxts))) (k q) σ₁ (Q.after τ)) :
    Correct T (f.scope n.leafLevel v (σ (.cxts f.cxts)))
      (n.loadLiveOuts f (σ (.cxts f.cxts)) >>= k) σ₁ Q := by
  rw [Nest.loadLiveOuts]
  by_cases hm : n.numLiveOuts f.level = 0
  · rw [if_pos hm, pure_bind]
    exact hk _ [] (fun h' => absurd hm h') .nil
  · obtain ⟨q, hrow, hq, hptr⟩ := h.env.liveOut hm
    have harr : q = arrays (σ (.cxts f.cxts)) f.level := (arrays_of_liveOut hrow).symm
    -- Through both layouts the pointer leads to the same block; with one live-out it is read off
    -- at once, with more there is one load in between.
    have hblock : (n.liveOutPtr f.level q).block = q := by
      rw [Nest.liveOutPtr]
      split <;> rfl
    rw [if_neg hm, bind_bind]
    refine Correct.load hrow ?_
    rw [bind_bind, hblock]
    have hheld := h.held hsame hq
    refine Correct.log fun _ s hs => ⟨hheld.live (x := .liveOutEnv q) s hs, ?_⟩
    have hτ := Executes.quiet (n := n) (v := v) (e := .loadedLiveOut q) ⟨rfl, rfl⟩ s
    rw [Nest.liveOutPtr]
    by_cases hm1 : n.numLiveOuts f.level = 1
    · rw [if_pos hm1]
      exact hk q _ (fun _ => harr) hτ
    · rw [if_neg hm1]
      simp only [bind_bind]
      refine Correct.read (.inr hq) hheld ?_
      rw [hsame _ (by simp)]
      exact Correct.load (hptr hm1) (hk q _ (fun _ => harr) hτ)

/-- The slots an activation is handed lie in the frames of its callers. -/
theorem SlicePre.slots_above (hT : Mergeable n T) (h : SlicePre T f v a b σ) {l k : Nat}
    {q : Block} (hl : l ∈ T)
    (hq : (l, q, k) ∈ (f.scope n.leafLevel v (σ (.cxts f.cxts))).slots) :
    q.Above f.path.callers := by
  have hm := hT.liveOut _ hl
  -- The activation is handed its own slot by its caller, and the pending ones of the levels
  -- above by theirs.
  rcases hq with ⟨hl', hq, -⟩ | ⟨hlt, hq, hk⟩
  · obtain rfl : l = f.level := hl'
    obtain ⟨q', hrow, hq', -⟩ := h.env.liveOut hm
    rw [show q = _ from hq, arrays_of_liveOut hrow]
    exact hq'
  · have hlow : f.path.low n.leafLevel ≤ l := by
      have := h.low_le_base
      simp only at hk
      omega
    obtain ⟨q', hrow, hq', -⟩ := (h.suspended.env l hlow hlt).liveOut hm
    rw [show q = _ from hq, arrays_of_liveOut hrow]
    exact hq'

/-- After the entry block the loop is about to run its first iteration. The
precondition of the slice becomes the invariant of its loop, with nothing run
so far. -/
theorem SlicePre.inside (hT : Mergeable n T) (h : SlicePre T f v a b σ)
    {σ₂ σ₃ : n.sig.Store} {liveOut : Block}
    (hsame : ∀ x : Loc, x ≠ .alive f.path → σ₁ x = σ x) (halive : σ₁ (.alive f.path) = true)
    (hout : n.numLiveOuts f.level ≠ 0 → liveOut = arrays (σ (.cxts f.cxts)) f.level)
    (hkids : Allocated T f.cxts f.level (.kids f.path) 2 σ₁ σ₂)
    (hcallee : CalleeAllocated f σ₂ σ₃) :
    Inside T ⟨f, σ (.cxts f.cxts), v, b, liveOut⟩ v a b a σ σ₃ := by
  have hrows₁ : σ₁ (.cxts f.cxts) = σ (.cxts f.cxts) := hsame _ (by simp)
  -- Only the row of the level, the row below it and the frame of the activation have changed.
  have hrows : ∀ l, l < f.level → σ₃ (.cxts f.cxts) l = σ (.cxts f.cxts) l := fun l hl => by
    rw [hcallee.rows l (by omega), hkids.rows l hl.ne, hrows₁]
  have hrow : σ₃ (.cxts f.cxts) f.level = if n.numLiveOuts f.level = 0
      then σ (.cxts f.cxts) f.level
      else { σ (.cxts f.cxts) f.level with
        liveOut := some (n.liveOutPtr f.level (.kids f.path)) } := by
    rw [hcallee.rows f.level (by omega), hkids.row, hrows₁]
  have hother : ∀ x : Loc, x ≠ .cxts f.cxts → x ≠ .alive f.path →
      x ≠ .liveInEnv (.callee f.path) → x ≠ .liveOutEnv (.callee f.path) →
      x ≠ .liveOutEnv (.kids f.path) → (∀ l i, x ≠ .reduction l (.callee f.path) i) →
      (∀ l i, x ≠ .reduction l (.kids f.path) i) → σ₃ x = σ x :=
    fun x h₁ h₂ h₃ h₄ h₅ h₆ h₇ => by
      rw [hcallee.same x h₁ h₃ h₄ h₆, hkids.same x h₁ h₅ (h₇ _), hsame x h₂]
  have htmem : σ₃ (.tmem f.cxts) = σ (.tmem f.cxts) := hother _ (by simp) (by simp) (by simp)
    (by simp) (by simp) (by simp) (by simp)
  -- The blocks of the callers are not in the frame that was entered, which is why what they hold
  -- is the same as at the call.
  have hnot : ∀ q : Block, q.Above f.path.callers → q.owner ≠ some f.path := fun q hq ho =>
    Path.not_mem_callers f.path (hq f.path ho)
  exact
    { pre := h
      entry := rfl
      outer := rfl
      maxIter := rfl
      liveOut := hout
      start_le := le_refl a
      le_max := .inr rfl
      rows := hrows
      max := by
        rw [hrow]
        split
        · exact h.max
        · exact h.max
      row :=
        { liveIn := by rw [hrow]; split <;> rfl
          noLiveOut := fun hm => by rw [hrow, if_pos hm]
          liveOut := fun hm => by rw [hrow, if_neg hm] }
      pointers := fun hm hm1 => by
        rw [hcallee.same _ (by simp) (by simp) (by simp) (by simp)]
        exact hkids.pointers hm hm1
      callee := hcallee.callee
      fresh := fun hl k hk => by
        rw [hcallee.same _ (by simp) (by simp) (by simp) (by simp)]
        exact hkids.fresh (hT.liveOut _ hl) hl k hk
      same := fun x hx => by
        cases x with
        | cxts c => exact hx.elim
        | tmem t => exact hx.elim
        | liveInEnv q =>
            refine hother _ (by simp) (by simp) ?_ (by simp) (by simp) (by simp) (by simp)
            rintro ⟨⟩
            exact hnot _ hx rfl
        | liveOutEnv q =>
            refine hother _ (by simp) (by simp) (by simp) ?_ ?_ (by simp) (by simp)
            · rintro ⟨⟩
              exact hnot _ hx rfl
            · rintro ⟨⟩
              exact hnot _ hx rfl
        | alive ρ =>
            refine hother _ (by simp) ?_ (by simp) (by simp) (by simp) (by simp) (by simp)
            rintro ⟨⟩
            exact Path.not_mem_callers f.path hx
        | reduction l q k =>
            have hq := h.slots_above hT hx.1 hx.2
            refine hother _ (by simp) (by simp) (by simp) (by simp) (by simp) ?_ ?_
            · rintro l' i ⟨⟩
              exact hnot _ hq rfl
            · rintro l' i ⟨⟩
              exact hnot _ hq rfl
      tmem := by
        rw [htmem]
        exact ⟨h.tmem.low_le, fun l hlow hl hlt => by
          rw [bound_congr (hrows l (h.length ▸ hl))]
          exact h.tmem.empty l hlow hl hlt, h.tmem.chunk⟩
      own_empty := fun hlt => by
        rw [htmem] at hlt
        exact h.own_empty hlt
      alive := by
        rw [hcallee.same _ (by simp) (by simp) (by simp) (by simp),
          hkids.same _ (by simp) (by simp) (by simp)]
        exact halive }

/-- A slice task has entered its loop. The rules of the parts of the entry
block are put together here, so that the three loops need not go through it
again. -/
theorem slice_bind (hT : Mergeable n T) (h : SlicePre T f v a b σ)
    (hk : ∀ (liveOut : Block) (σ' : n.sig.Store) (τ : n.sig.Trace),
      Inside T ⟨f, σ (.cxts f.cxts), v, b, liveOut⟩ v a b a σ σ' →
      Executes v 0 [] 0 τ → Loaded f v τ →
      Correct T (f.scope n.leafLevel v (σ (.cxts f.cxts)))
        (n.body (n.loop ⟨f, σ (.cxts f.cxts), v, b, liveOut⟩ a (n.privateCopies f.level))) σ'
        (Q.after τ)) :
    Correct T (f.scope n.leafLevel v (σ (.cxts f.cxts))) (n.slice f) σ Q := by
  have hown : f.path ∈ (f.scope n.leafLevel v (σ (.cxts f.cxts))).own := List.suffix_rfl
  rw [Nest.slice]
  refine Correct.write (.inl hown) hown .none ?_
  -- The entry block runs in the order of the source: enter the frame, load the range and the
  -- environments from the contexts, then allocate the slots for the kids and the environments of
  -- the callee.
  generalize hσ₁ : Function.update σ (Loc.alive f.path) _ = σ₁
  have hsame₁ : ∀ x : Loc, x ≠ .alive f.path → σ₁ x = σ x := fun x hx => by
    rw [← hσ₁, Function.update_of_ne hx]
  have halive₁ : σ₁ (.alive f.path) = true := by rw [← hσ₁, Function.update_self]
  refine Correct.read (.inl rfl) .none ?_
  rw [hsame₁ _ (by simp)]
  refine Correct.load h.start ?_
  refine Correct.load h.max ?_
  refine loadLiveIns_bind h hsame₁ fun τ₁ hτ₁ hloaded => ?_
  refine loadLiveOuts_bind h hsame₁ fun liveOut τ₂ hout hτ₂ => ?_
  have hq : (Block.kids f.path).In (f.scope n.leafLevel v (σ (.cxts f.cxts))).own :=
    ⟨f.path, hown, rfl⟩
  refine allocateLiveOuts_bind hT (.inl rfl) (.inl rfl) (.inl hq) hq (fun _ => .inr (.inl hq))
    (fun hl _ => ⟨hl, .inl hq⟩) (.some (.inl hown) halive₁) fun σ₂ hkids => ?_
  have halive₂ : σ₂ (.alive f.path) = true := by
    rw [hkids.same _ (by simp) (by simp) (by simp)]
    exact halive₁
  refine allocateCallee_bind hT rfl hown halive₂ fun σ₃ hcallee => ?_
  rw [Sig.Post.after_after]
  exact Correct.tail (hk liveOut σ₃ _ (h.inside hT hsame₁ halive₁ hout hkids hcallee)
    (hτ₁.append hτ₂) fun hin => (hloaded hin).imp fun _ hs => List.mem_append_left _ hs)

end

end HeartbeatCompiler
