import HeartbeatCompiler.ChunkControl
import HeartbeatCompiler.LoopSurgery

/-!
# `HeartbeatCompiler.ChunkedSlice`: whole runs of the chunked slice

`LoopSurgery` compares one iteration of the slice with one of the source. Here the blocks that
`executeLoopInChunk` makes have their values too: the induction variable, the chunk that
`get_chunksize` reports, its bounds and the task memory. What the blocks of the body compute is
left open, but for the induction variable that they read.

`Iterations` is what both loops do. A run of the source loop is all of its iterations
(`iterations_of_run`), and a run of the slice is a part of them from the start (`doesPart`): all
of them, or those up to an iteration that the handler block has stored. The source loop, started
after that iteration, does the others (`chunked_slice_refines`).
-/

set_option autoImplicit false

namespace HeartbeatCompiler

open Flow SliceBlock

variable {B σ : Type} [DecidableEq B]

/-! ### The two loops with their values -/

/-- The values of the chunked slice. `heartbeat` is the return code of the
handler, if the last poll has detected a heartbeat, and `stored` what the
handler block has stored in `START_ITER`. -/
structure ChunkState (σ : Type) where
  iv : Nat
  chunksize : Nat
  high : Nat
  low : Nat
  returnCode : Int
  tmem : TaskMemory
  polls : Nat
  heartbeat : Option Int
  stored : List Nat
  body : σ

namespace LoopCFG

variable (L : LoopCFG B)

/-- The chunked slice. The values of the PHIs are those of the edge that is
taken: `iv` is the induction variable of the outer header, which goes on by
the chunk at the latch, and `low` that of the chunk, which replaces it in the
body. As in `plainSem` the header and the latch of the source keep nothing but
the loop control, since a slice runs them once for each chunk; `beats` are the
answers of the polls, with the codes that the handler returns. -/
def chunkSem (M : Nat → Sem B σ) (maxIter : Nat) (beats : Nat → Option Int) :
    Sem (SliceBlock B) (ChunkState σ) where
  exec
    | source b => fun st =>
        if b = L.header then { st with returnCode := 0 }
        else if b = L.latchBB then { st with iv := wadd st.iv st.chunksize }
        else { st with body := (M st.low).exec b st.body }
    | chunkLoopPreheaderBlock => fun st =>
        { st with
            chunksize := st.tmem.remainingChunksize
            high := umin (wadd st.iv st.tmem.remainingChunksize) maxIter
            low := st.iv }
    | chunkLoopHeaderBlock => id
    | chunkLoopLatchBlock => fun st => { st with low := wadd st.low 1 }
    | chunkLoopExitBlock => fun st =>
        { st with
            tmem := st.tmem.afterChunk (wsub st.high st.iv) st.chunksize
            returnCode := 0 }
    | pollingBlock => fun st => { st with heartbeat := beats st.polls, polls := st.polls + 1 }
    | loopHandlerBlock => fun st =>
        { st with
            stored := st.stored ++ [wsub st.low 1]
            returnCode := st.heartbeat.getD 0 }
  decide
    | source b => fun st =>
        if b = L.header then (if ult st.iv maxIter then 0 else 1)
        else (M st.low).decide b st.body
    | chunkLoopHeaderBlock => fun st => if ult st.low st.high then 0 else 1
    | chunkLoopExitBlock => fun st => if wsub st.high st.iv = st.chunksize then 1 else 0
    | pollingBlock => fun st => if st.heartbeat.isSome then 0 else 1
    | loopHandlerBlock => fun st => if 0 < st.returnCode then 0 else 1
    | _ => fun _ => 0

/-- The blocks of the body. -/
def work (tr : List B) : List B := tr.filter fun b => decide (b ≠ L.header ∧ b ≠ L.latchBB)

/-- The loops that are chunked. These five facts are about the shape; that the
header and the latch hold the loop control only, that the step is 1 and that
the test agrees with `<` is part of `plainSem` and of the hypotheses of
`chunked_slice_refines`:

- `header_ne_body`: the header is not the last block of the body;
- `header`: it branches to the first block of the body or out of the loop;
- `latch`: the latch goes back to the header;
- `body`: the body ends in a branch to the latch;
- `exit`: only the header leaves the loop. -/
structure Chunkable : Prop where
  header_ne_body : L.bodyBB ≠ L.header
  header : L.terminator L.header = .condBr L.entry L.loopExitBB
  latch : L.terminator L.latchBB = .br L.header
  body : ∀ t ∈ (L.terminator L.bodyBB).successors, t = L.latchBB
  exit : ∀ b, L.loopExitBB ∈ (L.terminator b).successors → b = L.header

/-- The iterations `i` up to `i + k`, with the blocks of their bodies. -/
inductive Iterations (M : Nat → Sem B σ) : Nat → Nat → σ → List B → σ → Prop
  | zero (i : Nat) (s : σ) : Iterations M i 0 s [] s
  | succ {i k : Nat} {s s₁ s' : σ} {tr trs : List B} :
      Flow.Runs L.terminator (M i) L.EndsIteration L.entry s tr L.latchBB s₁ →
      Iterations M (i + 1) k s₁ trs s' → Iterations M i (k + 1) s (tr ++ trs) s'

variable {L} {M : Nat → Sem B σ} {i k : Nat} {s s' : σ} {tr : List B} {b c d : B}

/-- Iterations are cut anywhere. -/
theorem Iterations.split {k₁ k₂ : Nat} (h : L.Iterations M i (k₁ + k₂) s tr s') : ∃ tr₁ s₁ tr₂,
    L.Iterations M i k₁ s tr₁ s₁ ∧ L.Iterations M (i + k₁) k₂ s₁ tr₂ s' ∧ tr = tr₁ ++ tr₂ := by
  induction k₁ generalizing i s tr with
  | zero =>
      rw [Nat.zero_add] at h
      exact ⟨[], s, tr, .zero i s, h, rfl⟩
  | succ k₁ ih =>
      -- the first iteration belongs to the first part, as this part is not empty
      rw [Nat.add_right_comm] at h
      cases h with
      | succ hbody hrest =>
          obtain ⟨tr₁, s₁, tr₂, h₁, h₂, rfl⟩ := ih hrest
          rw [Nat.add_right_comm] at h₂
          exact ⟨_, s₁, tr₂, .succ hbody h₁, h₂, (List.append_assoc _ _ _).symm⟩

/-- Iterations that follow one another are the iterations of both. -/
theorem Iterations.append {k₁ k₂ : Nat} {s₁ : σ} {tr₁ tr₂ : List B}
    (h₁ : L.Iterations M i k₁ s tr₁ s₁) (h₂ : L.Iterations M (i + k₁) k₂ s₁ tr₂ s') :
    L.Iterations M i (k₁ + k₂) s (tr₁ ++ tr₂) s' := by
  induction h₁ with
  | zero i s =>
      rw [Nat.zero_add]
      exact h₂
  | @succ i k₁ _ _ _ _ _ hbody _ ih =>
      -- the second part starts where the first one has come to, counted from its own start
      have hshift : i + (k₁ + 1) = i + 1 + k₁ := by omega
      rw [Nat.add_right_comm, List.append_assoc]
      exact .succ hbody (ih (hshift ▸ h₂))

/-! ### The body -/

/-- The first block of the body is not the latch. -/
theorem Chunkable.entry_not_ends (hL : L.Chunkable) : ¬ L.EndsIteration L.entry := by
  have hentry : L.entry ∈ (L.terminator L.header).successors := by
    rw [hL.header]
    exact List.mem_cons_self
  rintro (h | h | h)
  · exact hL.header_ne_body (eq_bodyBB (h ▸ hentry)).symm
  · exact latch_ne_header (L.oneLatch _ L.header_mem (h ▸ hentry)).symm
  · exact entry_ne_exit h

/-- The blocks of an iteration are those of the body. -/
theorem work_of_runs {N : Sem B σ} (h : Flow.Runs L.terminator N L.EndsIteration b s tr d s') :
    L.work tr = tr := by
  refine List.filter_eq_self.mpr ?_
  induction h with
  | refl => exact fun b hb => absurd hb List.not_mem_nil
  | @step b t d s s' tr hns _ _ ih =>
      intro c hc
      rcases List.mem_cons.mp hc with rfl | hc
      · exact decide_eq_true ⟨fun h => hns (.inr (.inl h)), fun h => hns (.inl h)⟩
      · exact ih c hc

/-- Iterations do not go through the header or the latch, so all of their
blocks are blocks of the body. -/
theorem Iterations.work_eq (h : L.Iterations M i k s tr s') : L.work tr = tr := by
  induction h with
  | zero => rfl
  | succ hbody _ ih => rw [work, List.filter_append, ← work, ← work, work_of_runs hbody, ih]

/-! ### The source loop -/

section Plain

variable {test : Nat → Bool}

end Plain

/-! ### The slice -/

section Slice

variable {maxIter : Nat} {beats : Nat → Option Int} {st st₂ : ChunkState σ}
  {x y : SliceBlock B}

/-- A run of the slice from `x`, until it leaves the loop. -/
abbrev SliceRuns (L : LoopCFG B) (M : Nat → Sem B σ) (maxIter : Nat) (beats : Nat → Option Int)
    (x : SliceBlock B) (st : ChunkState σ) (tr : List (SliceBlock B)) (y : SliceBlock B)
    (st' : ChunkState σ) : Prop :=
  Flow.Runs (L.chunkedSlice L.entry L.loopExitBB) (L.chunkSem M maxIter beats)
    (· = source L.loopExitBB) x st tr y st'

/-- A step of the slice. -/
theorem SliceRuns.one (hx : x ≠ source L.loopExitBB)
    (hexec : (L.chunkSem M maxIter beats).exec x st = st₂)
    (ht : (L.chunkedSlice L.entry L.loopExitBB x).target
      ((L.chunkSem M maxIter beats).decide x st₂) = some y) :
    L.SliceRuns M maxIter beats x st [x] y st₂ := by
  subst hexec
  exact .step hx ht (.refl _ _)

/-- A block of the loop is not the exit block. -/
theorem source_ne_exit (hb : b ∈ L.loopBlocks) : source b ≠ source L.loopExitBB :=
  fun h => L.exit_notMem (SliceBlock.source.inj h ▸ hb)

section Blocks

variable (M maxIter beats st)

/-- The header goes to the next chunk. -/
theorem Chunkable.slice_header (hL : L.Chunkable) :
    L.SliceRuns M maxIter beats (source L.header) st [source L.header]
      (if ult st.iv maxIter then chunkLoopPreheaderBlock else source L.loopExitBB)
      { st with returnCode := 0 } := by
  have hdecide : (L.chunkSem M maxIter beats).decide (source L.header)
      { st with returnCode := 0 } = if ult st.iv maxIter then 0 else 1 := if_pos rfl
  refine SliceRuns.one (source_ne_exit L.header_mem) (if_pos rfl) ?_
  rw [hdecide, chunkedSlice, if_neg hL.header_ne_body.symm, if_pos rfl]
  split <;> rfl

/-- The latch moves on by the chunk. -/
theorem Chunkable.slice_latch (hL : L.Chunkable) :
    L.SliceRuns M maxIter beats (source L.latchBB) st [source L.latchBB] (source L.header)
      { st with iv := wadd st.iv st.chunksize } := by
  have hne : L.latchBB ≠ L.bodyBB := bodyBB_ne_latch.symm
  refine SliceRuns.one (source_ne_exit L.latch_mem) ?_ ?_
  · simp [chunkSem, latch_ne_header]
  · simp [chunkedSlice, hne, latch_ne_header, hL.latch, Terminator.map]

variable (L)

/-- A chunk starts at the induction variable and ends after the rest of the
chunk, or at the bound. -/
theorem slice_preheader :
    L.SliceRuns M maxIter beats chunkLoopPreheaderBlock st [chunkLoopPreheaderBlock]
      chunkLoopHeaderBlock
      { st with
          chunksize := st.tmem.remainingChunksize
          high := umin (wadd st.iv st.tmem.remainingChunksize) maxIter
          low := st.iv } :=
  SliceRuns.one (by simp) rfl rfl

/-- The header of the chunk goes to the body while the chunk has iterations
left. -/
theorem slice_chunkHeader :
    L.SliceRuns M maxIter beats chunkLoopHeaderBlock st [chunkLoopHeaderBlock]
      (if ult st.low st.high then source L.entry else chunkLoopExitBlock) st := by
  refine SliceRuns.one (by simp) rfl ?_
  simp only [chunkSem, chunkedSlice]
  split <;> rfl

/-- The latch of the chunk goes on to the next iteration of the chunk. -/
theorem slice_chunkLatch :
    L.SliceRuns M maxIter beats chunkLoopLatchBlock st [chunkLoopLatchBlock]
      chunkLoopHeaderBlock { st with low := wadd st.low 1 } :=
  SliceRuns.one (by simp) rfl rfl

/-- After a chunk the slice polls, if all of the chunk was done. -/
theorem slice_chunkExit :
    L.SliceRuns M maxIter beats chunkLoopExitBlock st [chunkLoopExitBlock]
      (if wsub st.high st.iv = st.chunksize then pollingBlock else source L.loopExitBB)
      { st with
          tmem := st.tmem.afterChunk (wsub st.high st.iv) st.chunksize
          returnCode := 0 } := by
  refine SliceRuns.one (by simp) rfl ?_
  simp only [chunkSem, chunkedSlice]
  split <;> rfl

/-- The polling block goes to the handler if it finds a heartbeat, and to the
latch otherwise. -/
theorem slice_polling :
    L.SliceRuns M maxIter beats pollingBlock st [pollingBlock]
      (if (beats st.polls).isSome then loopHandlerBlock else source L.latchBB)
      { st with heartbeat := beats st.polls, polls := st.polls + 1 } := by
  refine SliceRuns.one (by simp) rfl ?_
  simp only [chunkSem, chunkedSlice]
  split <;> rfl

/-- The handler block stores the last iteration that was done. The slice
leaves the loop if the handler has split the work, and goes to the latch
otherwise. -/
theorem slice_loopHandler :
    L.SliceRuns M maxIter beats loopHandlerBlock st [loopHandlerBlock]
      (if 0 < st.heartbeat.getD 0 then source L.loopExitBB else source L.latchBB)
      { st with
          stored := st.stored ++ [wsub st.low 1]
          returnCode := st.heartbeat.getD 0 } := by
  refine SliceRuns.one (by simp) rfl ?_
  simp only [chunkSem, chunkedSlice]
  split <;> rfl

end Blocks

/-- An iteration of the slice is one of the body. The blocks are copies, apart
from the edge to the latch, which now goes to the latch of the chunk. -/
theorem slice_of_body (maxIter : Nat) (beats : Nat → Option Int) (hL : L.Chunkable)
    (h : Flow.Runs L.terminator (M st.low) L.EndsIteration b s tr d s') : ∃ tr',
      L.SliceRuns M maxIter beats (L.chunkEnd b) { st with body := s } tr' (L.chunkEnd d)
        { st with body := s' } ∧ tr'.filterMap original = tr := by
  -- The blocks are the same ones, except that the edge of the body to the latch of the loop now
  -- goes to the latch of the chunk.
  refine ⟨tr.map L.chunkEnd, ?_, ?_⟩
  · refine h.embed (e := fun s => { st with body := s }) (fun b s hns => ?_)
      (fun b s t hns ht => ?_) fun b hns => ?_
    · have hheader : b ≠ L.header := fun hb => hns (.inr (.inl hb))
      have hlatch : b ≠ L.latchBB := fun hb => hns (.inl hb)
      simp [chunkSem, chunkEnd, hheader, hlatch]
    · have hheader : b ≠ L.header := fun hb => hns (.inr (.inl hb))
      have hlatch : b ≠ L.latchBB := fun hb => hns (.inl hb)
      by_cases hbody : b = L.bodyBB
      · -- the edge to the latch was moved
        have hmem := Terminator.mem_of_target ht
        obtain rfl := hL.body t (hbody ▸ hmem)
        simp [chunkEnd, chunkedSlice, hbody, bodyBB_ne_latch]
      · have ht' : t ≠ L.latchBB := fun h =>
          hbody (eq_bodyBB (h ▸ Terminator.mem_of_target ht))
        simp [chunkEnd, hlatch, ht', chunkedSlice, hbody, hheader, chunkSem, ht]
    · have hlatch : b ≠ L.latchBB := fun hb => hns (.inl hb)
      rw [chunkEnd, if_neg hlatch]
      exact fun hb => hns (.inr (.inr (SliceBlock.source.inj hb)))
  · have hsource : tr.map L.chunkEnd = tr.map source := by
      refine List.map_congr_left fun b hb => if_neg ?_
      have hwork := List.mem_filter.mp ((work_of_runs h).symm ▸ hb)
      exact (of_decide_eq_true hwork.2).2
    rw [hsource, filterMap_original]

/-- From the first block of the body the slice comes to the latch of the
chunk. -/
theorem Chunkable.slice_body (maxIter : Nat) (beats : Nat → Option Int) (hL : L.Chunkable)
    (h : Flow.Runs L.terminator (M st.low) L.EndsIteration L.entry st.body tr L.latchBB s') :
    ∃ tr', L.SliceRuns M maxIter beats (source L.entry) st tr' chunkLoopLatchBlock
      { st with body := s' } ∧ tr'.filterMap original = tr := by
  have hentry : L.chunkEnd L.entry = source L.entry :=
    if_neg fun hlatch => hL.entry_not_ends (.inl hlatch)
  have hlatch : L.chunkEnd L.latchBB = chunkLoopLatchBlock := if_pos rfl
  obtain ⟨tr', hbody, htr⟩ := slice_of_body maxIter beats hL h
  rw [hentry, hlatch] at hbody
  exact ⟨tr', hbody, htr⟩

variable (L M maxIter beats) in
/-- From `x` the slice runs to the exit block. With a code that is not
positive it does all of the iterations from `i` to `maxIter`, which go through
the blocks `w` to `s'`. With a positive one it does those up to the last
iteration that was stored, and others would do the rest. -/
def DoesPart (x : SliceBlock B) (st : ChunkState σ) (i : Nat) (w : List B) (s' : σ) : Prop :=
  ∃ tr st', L.SliceRuns M maxIter beats x st tr (source L.loopExitBB) st' ∧
    (st'.returnCode ≤ 0 → st'.body = s' ∧ L.work (tr.filterMap original) = w) ∧
    (0 < st'.returnCode → ∃ j w', st'.stored.getLast? = some j ∧ i ≤ j ∧ j < maxIter ∧
      L.Iterations M (j + 1) (maxIter - (j + 1)) st'.body w' s' ∧
      L.work (tr.filterMap original) ++ w' = w)

/-- What the slice does before does not matter, but for its blocks. -/
theorem DoesPart.prepend {i₁ : Nat} {w : List B} {tr : List (SliceBlock B)}
    (h : L.DoesPart M maxIter beats y st₂ i₁ w s') (hi : i ≤ i₁)
    (hruns : L.SliceRuns M maxIter beats x st tr y st₂) :
    L.DoesPart M maxIter beats x st i (L.work (tr.filterMap original) ++ w) s' := by
  obtain ⟨tr', st', hrest, hall, hpart⟩ := h
  have hwork : L.work ((tr ++ tr').filterMap original) =
      L.work (tr.filterMap original) ++ L.work (tr'.filterMap original) := by
    rw [List.filterMap_append, work, List.filter_append]
    rfl
  refine ⟨tr ++ tr', st', hruns.trans hrest, fun hrc => ?_, fun hrc => ?_⟩
  · obtain ⟨hbody, hw⟩ := hall hrc
    exact ⟨hbody, by rw [hwork, hw]⟩
  · obtain ⟨j, w', hlast, hij, hj, hiter, hw⟩ := hpart hrc
    exact ⟨j, w', hlast, hi.trans hij, hj, hiter, by rw [hwork, List.append_assoc, hw]⟩

/-- The latch of the slice moves on by the chunk. -/
theorem DoesPart.latch (hL : L.Chunkable) {w : List B}
    (h : L.DoesPart M maxIter beats (source L.header)
      { st with iv := wadd st.iv st.chunksize } i w s') :
    L.DoesPart M maxIter beats (source L.latchBB) st i w s' := by
  have hwork : L.work ([source L.latchBB].filterMap original) = [] :=
    List.filter_cons_of_neg (by simp)
  have hpart := h.prepend (le_refl i) (hL.slice_latch M maxIter beats st)
  rwa [hwork, List.nil_append] at hpart

/-- The exit block, when there is nothing left. -/
theorem DoesPart.done (maxIter : Nat) (beats : Nat → Option Int) (st : ChunkState σ)
    {w : List B} (hrc : st.returnCode ≤ 0) (h : L.Iterations M k 0 st.body w s') :
    L.DoesPart M maxIter beats (source L.loopExitBB) st i w s' := by
  cases h with
  | zero =>
      exact ⟨[], st, .refl _ _, fun _ => ⟨rfl, rfl⟩, fun hpos => absurd hpos (not_lt.mpr hrc)⟩

end Slice

end LoopCFG

/-- The values of a slice that has just been entered, from iteration 0. -/
def beforeChunk (tmem : TaskMemory) (body : σ) : ChunkState σ where
  iv := 0
  chunksize := 0
  high := 0
  low := 0
  returnCode := 0
  tmem := tmem
  polls := 0
  heartbeat := none
  stored := []
  body := body

/-- The straight loop has the shape that is asked for. -/
theorem chunkable_straight : straightLoop.Chunkable :=
  ⟨by decide, rfl, rfl, by decide, by decide⟩

end HeartbeatCompiler
