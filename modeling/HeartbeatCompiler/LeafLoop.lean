import HeartbeatCompiler.Exit

/-!
# `HeartbeatCompiler.LeafLoop`: the leaf loop

The leaf loop, with and without chunking. After an iteration, or after a chunk, it may call
the promotion handler; it goes on if there was no promotion, and otherwise everything that
was left of the loop has been run when the handler returns.
-/

set_option autoImplicit false

namespace HeartbeatCompiler

open ForkJoin Prog

variable {n : Nest} {T : Tracked}

/-- Calls of the handler with less than `M` to run are correct. The leaf loops
use it, and it follows from `SliceSpec` for the same bound. -/
def HandlerSpec (n : Nest) (T : Tracked) (M : Nat) : Prop :=
  ∀ (f : Frame) (v : List Nat) (σ : n.sig.Store), HandlerPre T f v σ →
    (n.restFrom v (σ (.cxts f.cxts)) (f.path.low n.leafLevel)).card < M →
    Correct T (f.handlerScope n.leafLevel v (σ (.cxts f.cxts))) (n.promotionHandler f v) σ
      (HandlerPost T f v σ)

namespace Inside

variable {g : Activation} {v : List Nat} {a b i : Nat} {σ₀ σ σ' s : n.sig.Store} {r : Ret}
  {acc : n.Values g.level} {τ : n.sig.Trace}

/-- The invariant of a later iteration. -/
theorem later (h : Inside T g v a b i σ₀ σ) {k : Nat} (hik : i ≤ k) (hkb : k ≤ b) :
    Inside T g v a b k σ₀ σ :=
  { h with
    start_le := h.start_le.trans hik
    le_max := .inl hkb
    own_empty := fun hlt => (h.own_empty hlt).trans hik }

/-- The invariant with other chunk sizes. It asks only that they are in range,
so polling and chunking can be changed without touching it. -/
theorem setChunk (h : Inside T g v a b i σ₀ σ) {tm : TaskMemory}
    (hlevel : tm.startingLevel = (σ (.tmem g.cxts)).startingLevel)
    (hchunk : 1 ≤ tm.remainingChunksize ∧ tm.remainingChunksize ≤ tm.chunksize ∧
      tm.chunksize < 2 ^ 63) :
    Inside T g v a b i σ₀ (Function.update σ (.tmem g.cxts) tm) where
  pre := h.pre
  entry := h.entry
  outer := h.outer
  maxIter := h.maxIter
  liveOut := h.liveOut
  start_le := h.start_le
  le_max := h.le_max
  rows := h.rows
  max := h.max
  row := ⟨h.row.liveIn, h.row.noLiveOut, h.row.liveOut⟩
  pointers := h.pointers
  callee := h.callee
  fresh := h.fresh
  same x hx := by
    rw [Function.update_of_ne (by rintro rfl; exact hx)]
    exact h.same x hx
  -- Of the task memory the invariant speaks of the starting level and of the bounds of the chunk
  -- only.
  tmem := by
    have he := h.tmem.empty
    rw [← hlevel] at he
    rw [Function.update_self]
    exact ⟨hlevel ▸ h.tmem.low_le, he, fun _ => hchunk⟩
  own_empty hlt := by
    rw [Function.update_self, hlevel] at hlt
    exact h.own_empty hlt
  alive := h.alive

/-! ### The call of the handler -/

/-- The handler is called as its contract asks for. -/
theorem handlerPre (hT : Mergeable n T) (h : Inside T g v a b i σ₀ σ)
    (hp : InProgress g i σ σ') (hi : i < b) (hleaf : g.level = n.leafLevel) :
    HandlerPre T g.toFrame (v ++ [i]) σ' where
  level_eq := hleaf
  length := by
    have := n.numLevels_pos
    rw [Nest.leafLevel] at hleaf
    rw [List.length_append, List.length_singleton, h.pre.length]
    omega
  base_le := h.pre.base_le
  low_le_base := h.pre.low_le_base
  tmem_eq := h.pre.tmem_eq
  cxts_suffix := h.pre.cxts_suffix
  pending := by
    rw [← h.pre.length, List.take_left]
    exact h.pre.pending.congr fun l hl => h.rows_eq hp (h.pre.length ▸ hl)
  suspended := h.suspended hT hp hi
  tmem := h.tmemReady hp hi
  alive ρ hρ := h.alive_callers hp hρ

/-- The handler works inside the scope of the activation. -/
theorem handler_le (hT : Mergeable n T) (h : Inside T g v a b i σ₀ σ)
    (hp : InProgress g i σ σ') :
    (g.toFrame.handlerScope n.leafLevel (v ++ [i]) (σ' (.cxts g.cxts))).Le T
      (g.toFrame.scope n.leafLevel v (σ₀ (.cxts g.cxts))) where
  own ρ hρ := hρ.1
  callers ρ hρ := by
    rcases Path.suffix_iff.mp hρ with rfl | hρ
    · exact .inl List.suffix_rfl
    · exact .inr hρ
  task := .inl rfl
  slots l q k hl hq := h.pendingSlot_owned hT hp hl hq

/-- The handler owns frames above the one of its caller. -/
theorem handler_own (g : Activation) (v : List Nat) (rows : Nat → Row) :
    ∀ ρ ∈ (g.toFrame.handlerScope n.leafLevel v rows).own, g.path.length < ρ.length := by
  rintro ρ ⟨hρ, hne⟩
  refine lt_of_le_of_ne hρ.length_le fun hlen => hne ?_
  exact (hρ.eq_of_length hlen).symm

/-- Of the level of `g` the handler is handed the slots for the kids. -/
theorem handler_slots (hT : Mergeable n T) (h : Inside T g v a b i σ₀ σ)
    (hp : InProgress g i σ σ') (q : Block) (k : Nat) (hl : g.level ∈ T)
    (hq : (g.level, q, k) ∈
      (g.toFrame.handlerScope n.leafLevel (v ++ [i]) (σ' (.cxts g.cxts))).slots) :
    q = .kids g.path :=
  (show q = _ from hq.2.1).trans (h.arrays_own hp (hT.liveOut _ hl))

/-- The handler has declined and the loop goes on. -/
theorem next_leaf (hT : Mergeable n T) (h : Inside T g v a b i σ₀ σ)
    (hp : InProgress g i σ σ') (hi : i < b) (hleaf : g.level = n.leafLevel)
    (hpost : HandlerPost T g.toFrame (v ++ [i]) σ' r s τ) (hr : r.ended = none)
    (hframe : ∀ y ∈ (g.toFrame.scope n.leafLevel v (σ₀ (.cxts g.cxts))).rel T,
      y ∉ (g.toFrame.handlerScope n.leafLevel (v ++ [i]) (σ' (.cxts g.cxts))).mod T →
      s y = σ' y) : Inside T g v a b (i + 1) σ₀ s := by
  have hcut : r.cut (v ++ [i]).length = g.level + 1 := by
    rw [Ret.cut, hr, Option.getD_none, List.length_append, List.length_singleton, h.pre.length]
  have hready := h.tmemReady hp hi
  have htmem : s (.tmem g.cxts) = σ' (.tmem g.cxts) := hpost.declined hr
  refine h.next hT hp hi (handler_own g _ _) (h.handler_slots hT hp) hframe
    (fun l hl => hpost.resumed.rows l (by rw [hcut]; omega))
    (fun l hl hle => hpost.resumed.kept l hl (by rw [hcut]; omega))
    (fun hlt => absurd hlt (by omega)) hpost.low_le (fun l hlow hl hlt => ?_) hpost.chunk
  rw [htmem] at hlt
  refine hready.empty l hlow ?_ hlt
  rw [List.length_append, List.length_singleton, h.pre.length]
  omega

/-- The handler block: after iteration `i` the loop goes on, or leaves with
what the exit block needs. It is the same block in the plain and in the
chunked loop, which differ in what they run before it. -/
theorem loopHandler_bind (hT : Mergeable n T) (h : Inside T g v a b i σ₀ σ) (hi : i < b)
    (hleaf : g.level = n.leafLevel)
    (ih : HandlerSpec n T (n.load v (σ₀ (.cxts g.cxts)) (g.path.low n.leafLevel) a b))
    (hacc : acc = n.total v g.level a (i + 1))
    (hruns : Executes v (firstOf v a (i + 1)) (n.iterations v a (i + 1)) 0 τ)
    {k : Ret → Prog n.sig Ret}
    (hgo : ∀ r s τ', ¬ 0 < r.rc → Inside T g v a b (i + 1) σ₀ s →
      Executes v (firstOf v a (i + 1)) (n.iterations v a (i + 1)) 0 (τ ++ τ') →
      Correct T (g.toFrame.scope n.leafLevel v (σ₀ (.cxts g.cxts))) (k r) s
        (Sig.Post.after (S := n.sig) (SlicePost T g.toFrame v a b σ₀) (τ ++ τ')))
    (hleave : ∀ r s τ', 0 < r.rc → AtExit T g v a b σ₀ s r acc (τ ++ τ') →
      Correct T (g.toFrame.scope n.leafLevel v (σ₀ (.cxts g.cxts))) (k r) s
        (Sig.Post.after (S := n.sig) (SlicePost T g.toFrame v a b σ₀) (τ ++ τ'))) :
    Correct T (g.toFrame.scope n.leafLevel v (σ₀ (.cxts g.cxts))) (n.loopHandler g i >>= k) σ
      (Sig.Post.after (S := n.sig) (SlicePost T g.toFrame v a b σ₀) τ) := by
  have hlen := h.pre.length
  have hlevels : n.numLevels ≤ v.length + 1 := by
    rw [hlen, hleaf, Nest.leafLevel]
    omega
  rw [Nest.loopHandler, bind_bind]
  refine Correct.setRow (.inl rfl) ?_
  generalize hσ' : Function.update σ (Loc.cxts g.cxts) _ = σ'
  -- Before the call the handler block stores the iteration in progress as the start of the row.
  have hp : InProgress g i σ σ' := by
    subst hσ'
    refine ⟨fun l hl => ?_, ?_, fun x hx _ => Function.update_of_ne hx _ _⟩
    · rw [Function.update_self, Function.update_of_ne (by omega)]
    · rw [Function.update_self, Function.update_self]
  have hload : (n.restFrom (v ++ [i]) (σ' (.cxts g.cxts)) (g.path.low n.leafLevel)).card <
      n.load v (σ₀ (.cxts g.cxts)) (g.path.low n.leafLevel) a b :=
    load_handler_lt hlevels h.pre.pending.low_le h.start_le hi
      (fun l hl => h.rows_eq hp (by omega)) (h.bound_eq hp)
  rw [bind_bind, h.outer]
  refine Correct.call (h.handler_le hT hp)
    (ih g.toFrame _ σ' (h.handlerPre hT hp hi hleaf) hload) fun r s τ' hpost hframe => ?_
  have hrc := hpost.rc
  -- The handler splits the level of its caller or one above it, never one below.
  have hgood : 0 < r.rc ↔ ∃ l ∈ r.ended, l ≤ g.level := by
    rw [hrc]
    cases he : r.ended with
    | none => simp
    | some l =>
        have := (hpost.ended_le l he).2
        simp only [Option.elim_some, Option.mem_some_iff, exists_eq_left']
        omega
  rw [bind_bind]
  refine Correct.log fun _ s₁ _ => ⟨hgood, ?_⟩
  simp only [Sig.Post.after_after, List.append_assoc]
  have hquiet : Event.Quiet (n := n) (.returned g r) := ⟨rfl, rfl⟩
  have houter : (v ++ [i]).take g.level = v := by rw [← hlen, List.take_left]
  have hrun := hruns.append ((houter ▸ hpost.runs).append_quiet hquiet s₁)
  rw [add_zero, List.append_nil] at hrun
  -- Declined: the loop goes on with the next iteration.
  cases he : r.ended with
  | none =>
      have hpos : ¬ 0 < r.rc := by rw [hrc, he]; exact lt_irrefl 0
      rw [Ret.cut, he, Option.getD_none, restFrom_of_le (le_refl _)] at hrun
      exact hgo r s _ hpos (h.next_leaf hT hp hi hleaf hpost he hframe) hrun
  | some l =>
      -- Promoted: what was left of the loop has been run, and the activation leaves.
      obtain ⟨hlow, hll⟩ := hpost.ended_le l he
      have hcut : r.cut (v ++ [i]).length = l := by rw [Ret.cut, he]; rfl
      have hres := hpost.resumed
      rw [hcut] at hres hrun
      refine hleave r s _ (hgood.mpr ⟨l, he, hll⟩) ?_
      have halive := fun ρ (hρ : ρ <:+ g.path) =>
        h.alive_of_frame hp (handler_own g _ _) hframe hρ
      refine h.atExit_of_resumed hT hp hi (hpost.promotes (by rw [he]; rfl)) hlow hll hres
        (fun hl => ?_) (fun k hk hkl => ?_) hpost.low_le hpost.chunk halive he
        (by rw [hrc, he]; rfl) hacc hrun
      · refine hframe _ ⟨hl, .inr (.inl ⟨rfl, h.liveOut (hT.liveOut _ hl), rfl⟩)⟩ ?_
        exact h.slot_not_mod hT (handler_own g _ _) (h.handler_slots hT hp) hl
      · exact hpost.empty k hk (by rw [hcut]; exact hkl) (by rw [he]; rfl)

end Inside

section

variable {g : Activation} {v : List Nat} {a b : Nat} {σ₀ : n.sig.Store}

/-- A leaf activation has no nested loop. -/
theorem leaf_levels (hlen : v.length = g.level) (hleaf : g.level = n.leafLevel) :
    n.numLevels ≤ v.length + 1 := by
  rw [hlen, hleaf, Nest.leafLevel]
  omega

/-- The leaf loop without chunking, from iteration `i` on. The invariant of
the step is `Inside`, and the events so far have executed the iterations
before `i`. -/
theorem leafLoop_correct (hT : Mergeable n T) (hleaf : g.level = n.leafLevel)
    (ih : HandlerSpec n T (n.load v (σ₀ (.cxts g.cxts)) (g.path.low n.leafLevel) a b)) (k : Nat) :
    ∀ {i : Nat} {acc : n.Values g.level} {σ : n.sig.Store} {τ : n.sig.Trace}, b - i = k →
      Inside T g v a b i σ₀ σ → acc = n.total v g.level a i →
      Executes v (firstOf v a i) (n.iterations v a i) 0 τ →
      Correct T (g.toFrame.scope n.leafLevel v (σ₀ (.cxts g.cxts))) (n.leafLoop g i acc) σ
        (Sig.Post.after (S := n.sig) (SlicePost T g.toFrame v a b σ₀) τ) := by
  -- The induction is on the number of iterations left.
  induction k with
  | zero =>
      intro i acc σ τ hk h hacc hruns
      have hslt : ¬ slt i g.maxIter = true := by
        rw [h.maxIter, slt_iff h.lt_two_pow h.pre.max_lt]
        omega
      rw [Nest.leafLoop, if_neg hslt]
      exact Correct.tail ((h.atExit_of_done hT (by omega) hruns hacc).loopExit_correct hT)
  | succ k ihk =>
      intro i acc σ τ hk h hacc hruns
      have hi : i < b := by omega
      have hai := h.start_le
      have hslt : slt i g.maxIter = true := by
        rw [h.maxIter]
        exact (slt_iff h.lt_two_pow h.pre.max_lt).mpr hi
      have hnext : wadd i 1 = i + 1 := wadd_of_lt (by have := h.lt_two_pow; omega)
      have hacc' : n.accumulate g.level (v ++ [i]) acc = n.total v g.level a (i + 1) := by
        rw [hacc]
        exact accumulate_total v g.level hai
      rw [Nest.leafLoop, if_pos hslt]
      simp only [h.outer]
      refine Correct.log fun _ s₁ _ => ⟨trivial, ?_⟩
      refine Correct.heartbeatPolling fun s₂ heartbeat => ?_
      have hquiet : Event.Quiet (n := n) (.polled g) := ⟨rfl, rfl⟩
      have hrun := (runs_leaf hai (leaf_levels h.pre.length hleaf) hruns s₁).append_quiet hquiet s₂
      rw [Sig.Post.after_after, Sig.Post.after_after, ← List.append_assoc, hnext]
      -- Without a beat the loop goes on by itself; with one the handler decides.
      by_cases hpoll : heartbeat = 0
      · rw [if_pos hpoll]
        exact Correct.tail (ihk (by omega) (h.later (Nat.le_succ i) hi) hacc' hrun)
      · rw [if_neg hpoll]
        refine h.loopHandler_bind hT hi hleaf ih hacc' hrun (fun r s τ' hpos h' hrun' => ?_)
          fun r s τ' hpos hexit => ?_
        · rw [if_neg hpos]
          exact Correct.tail (ihk (by omega) h' hacc' hrun')
        · rw [if_pos hpos]
          exact Correct.tail (hexit.loopExit_correct hT)

/-- `update_and_has_remaining_chunksize` after `iterations` of the chunk. The
task memory belongs to the task alone, so the change is seen by no other. -/
theorem updateAndHasRemainingChunksize_bind {i iterations : Nat} {σ : n.sig.Store}
    {Q : n.sig.Post} (h : Inside T g v a b i σ₀ σ) (hchunk : n.chunk.isSome)
    {k : Bool → Prog n.sig Ret}
    (hle : iterations ≤ (σ (.tmem g.cxts)).remainingChunksize)
    (hk : ∀ σ', Inside T g v a b i σ₀ σ' →
      Correct T (g.toFrame.scope n.leafLevel v (σ₀ (.cxts g.cxts)))
        (k (decide (iterations ≠ (σ (.tmem g.cxts)).remainingChunksize))) σ' Q) :
    Correct T (g.toFrame.scope n.leafLevel v (σ₀ (.cxts g.cxts)))
      (n.updateAndHasRemainingChunksize g.cxts iterations
        (σ (.tmem g.cxts)).remainingChunksize >>= k) σ Q := by
  obtain ⟨hpos, hrem, hlt⟩ := h.tmem.chunk hchunk
  rw [Nest.updateAndHasRemainingChunksize, bind_bind]
  refine Correct.modify (.inl rfl) (.inl rfl) .none ?_
  rw [pure_bind]
  refine hk _ (h.setChunk ?_ ?_)
  · split <;> rfl
  · -- A chunk that is used up is replaced by a whole one, otherwise the rest is stored; both are
    -- within the bounds.
    by_cases heq : iterations = (σ (.tmem g.cxts)).remainingChunksize
    · rw [if_pos heq]
      simp only
      omega
    · rw [if_neg heq, wsub_of_le hle (by omega)]
      simp only
      omega

/-- The iterations of a chunk from `low` on, and the poll after it. What comes
after the chunk is given as `hgo`, for which the caller has its own induction.
-/
theorem chunkLoop_correct (hT : Mergeable n T) (hleaf : g.level = n.leafLevel)
    (hchunk : n.chunk.isSome)
    (ih : HandlerSpec n T (n.load v (σ₀ (.cxts g.cxts)) (g.path.low n.leafLevel) a b))
    {i chunksize high : Nat} {σ : n.sig.Store} (h : Inside T g v a b i σ₀ σ) (hi : i < b)
    (hsize : chunksize = (σ (.tmem g.cxts)).remainingChunksize)
    (hhigh : high = min (i + chunksize) b)
    (hgo : ∀ {acc : n.Values g.level} {σ : n.sig.Store} {τ : n.sig.Trace},
      high = i + chunksize → Inside T g v a b high σ₀ σ → acc = n.total v g.level a high →
      Executes v (firstOf v a high) (n.iterations v a high) 0 τ →
      Correct T (g.toFrame.scope n.leafLevel v (σ₀ (.cxts g.cxts))) (n.chunkedLoop g high acc) σ
        (Sig.Post.after (S := n.sig) (SlicePost T g.toFrame v a b σ₀) τ)) (k : Nat) :
    ∀ {low : Nat} {acc : n.Values g.level} {τ : n.sig.Trace}, high - low = k → i ≤ low →
      low ≤ high → acc = n.total v g.level a low →
      Executes v (firstOf v a low) (n.iterations v a low) 0 τ →
      Correct T (g.toFrame.scope n.leafLevel v (σ₀ (.cxts g.cxts)))
        (n.chunkLoop g i chunksize high low acc) σ
        (Sig.Post.after (S := n.sig) (SlicePost T g.toFrame v a b σ₀) τ) := by
  obtain ⟨hpos, -, -⟩ := h.tmem.chunk hchunk
  have hb := h.pre.max_lt
  have hai := h.start_le
  -- The induction is on the number of iterations left in the chunk.
  induction k with
  | zero =>
      intro low acc τ hk hil hlow hacc hruns
      obtain rfl : low = high := by omega
      have hult : ¬ ult low low = true := by
        rw [ult_iff]
        exact lt_irrefl low
      rw [Nest.chunkLoop, if_neg hult, wsub_of_le hil (by omega), h.pre.tmem_eq, hsize]
      refine updateAndHasRemainingChunksize_bind h hchunk (by omega) fun σ' h' => ?_
      by_cases hfull : low - i = (σ (.tmem g.cxts)).remainingChunksize
      · rw [decide_eq_false fun hne => hne hfull, if_neg (by simp)]
        have hend : low = i + chunksize := by omega
        rw [← hsize, wadd_of_lt (by omega), ← hend, wsub_of_le (by omega) (by omega)]
        refine Correct.heartbeatPolling fun s₂ heartbeat => ?_
        have hquiet : Event.Quiet (n := n) (.polled g) := ⟨rfl, rfl⟩
        have hrun₂ := hruns.append_quiet hquiet s₂
        rw [Sig.Post.after_after]
        by_cases hpoll : heartbeat = 0
        · rw [if_pos hpoll]
          exact Correct.tail (hgo hend (h'.later hil (by omega)) hacc hrun₂)
        · rw [if_neg hpoll]
          obtain ⟨last, rfl⟩ : ∃ last, low = last + 1 := ⟨low - 1, by omega⟩
          have hlast : Inside T g v a b last σ₀ σ' := h'.later (by omega) (by omega)
          refine hlast.loopHandler_bind hT (by omega) hleaf ih hacc hrun₂
            (fun r s τ' hrc h'' hrun => ?_) fun r s τ' hrc hexit => ?_
          · rw [if_neg hrc]
            exact Correct.tail (hgo hend h'' hacc hrun)
          · rw [if_pos hrc]
            exact Correct.tail (hexit.loopExit_correct hT)
      · rw [decide_eq_true hfull, if_pos rfl]
        have hdone := (h'.later hil (by omega : low ≤ b)).atExit_of_done hT (by omega) hruns hacc
        exact Correct.tail (hdone.loopExit_correct hT)
  | succ k ihk =>
      intro low acc τ hk hil hlow hacc hruns
      have hult : ult low high = true := ult_iff.mpr (by omega)
      rw [Nest.chunkLoop, if_pos hult]
      simp only [h.outer]
      refine Correct.log fun _ s₁ _ => ⟨trivial, ?_⟩
      have hrun := runs_leaf (by omega) (leaf_levels h.pre.length hleaf) hruns s₁
      rw [Sig.Post.after_after, wadd_of_lt (by omega)]
      refine Correct.tail (ihk (by omega) (by omega) (by omega) ?_ hrun)
      rw [hacc]
      exact accumulate_total v g.level (by omega)

/-- The leaf loop with chunking, from iteration `i` on. It meets the same
postcondition as the loop without chunking. -/
theorem chunkedLoop_correct (hT : Mergeable n T) (hleaf : g.level = n.leafLevel)
    (hchunk : n.chunk.isSome)
    (ih : HandlerSpec n T (n.load v (σ₀ (.cxts g.cxts)) (g.path.low n.leafLevel) a b)) (k : Nat) :
    ∀ {i : Nat} {acc : n.Values g.level} {σ : n.sig.Store} {τ : n.sig.Trace}, b - i ≤ k →
      Inside T g v a b i σ₀ σ → acc = n.total v g.level a i →
      Executes v (firstOf v a i) (n.iterations v a i) 0 τ →
      Correct T (g.toFrame.scope n.leafLevel v (σ₀ (.cxts g.cxts))) (n.chunkedLoop g i acc) σ
        (Sig.Post.after (S := n.sig) (SlicePost T g.toFrame v a b σ₀) τ) := by
  -- A chunk is not empty, so every pass has fewer iterations left.
  induction k with
  | zero =>
      intro i acc σ τ hk h hacc hruns
      have hult : ¬ ult i g.maxIter = true := by
        rw [h.maxIter, ult_iff]
        omega
      rw [Nest.chunkedLoop, if_neg hult]
      exact Correct.tail ((h.atExit_of_done hT (by omega) hruns hacc).loopExit_correct hT)
  | succ k ihk =>
      intro i acc σ τ hk h hacc hruns
      obtain ⟨hpos, hrem, hlt⟩ := h.tmem.chunk hchunk
      rw [Nest.chunkedLoop, h.maxIter]
      by_cases hi : i < b
      · rw [if_pos (ult_iff.mpr hi), h.pre.tmem_eq]
        refine Correct.read (.inl rfl) .none ?_
        have hsum : wadd i (σ (.tmem g.cxts)).remainingChunksize =
            i + (σ (.tmem g.cxts)).remainingChunksize :=
          wadd_of_lt (by have := h.lt_two_pow; omega)
        simp only [umin_eq, hsum]
        refine Correct.tail (chunkLoop_correct hT hleaf hchunk ih h hi rfl rfl
          (fun _ h' => ihk (by omega) h') _ rfl (le_refl i) (by omega) hacc hruns)
      · rw [if_neg (by rw [ult_iff]; exact hi)]
        exact Correct.tail ((h.atExit_of_done hT hi hruns hacc).loopExit_correct hT)

end

end HeartbeatCompiler
