import HeartbeatCompiler.Flow
import Mathlib.Tactic.FinCases

/-!
# `HeartbeatCompiler.LoopSurgery`: what the new blocks do to the body of the loop

The slice of the leaf loop gets a polling block and a handler block between the last block
of the body and the latch, and if it is chunked a loop around the body. The slice of a
caller gets a branch to the exit block after the nested call. Both put the new branch in
place of the terminator that was there and keep one of its successors at most.

`LeafBodyKept`, `ChunkBodyKept` and `CallerBodyKept` say for every semantics of the blocks
that an iteration runs the blocks it runs in the source. They hold exactly if the terminator
had one target only, for a caller one that ends the iteration (`body_kept_iff`).

A chunked slice runs the header and the latch once for each chunk, and not for each iteration:
the header and the latch of the chunk take their place. Nothing checks that the two hold only
loop control, so whether they do is an input (`work`), and for chunked loops a part of the
condition.
-/

set_option autoImplicit false

namespace HeartbeatCompiler

open Flow

variable {B : Type} [DecidableEq B]

/-- A loop that passes the checks of `apply`, in the function with the blocks
`B`: one latch with a single predecessor, and one exit block. The loop is
governed by the compare instruction of its header. What the blocks hold is not
part of it, and so are the terminators inside the body left open: they are
what the transformations change. -/
structure LoopCFG (B : Type) [DecidableEq B] where
  blocks : List B
  nodup : blocks.Nodup
  mem_blocks : ∀ b, b ∈ blocks
  terminator : Graph B
  loopBlocks : List B
  preHeader : B
  header : B
  entry : B
  bodyBB : B
  latchBB : B
  loopExitBB : B
  preHeader_notMem : preHeader ∉ loopBlocks
  preHeader_edge : header ∈ (terminator preHeader).successors
  header_mem : header ∈ loopBlocks
  entry_mem : entry ∈ loopBlocks
  latch_mem : latchBB ∈ loopBlocks
  exit_notMem : loopExitBB ∉ loopBlocks
  governed : terminator header = .condBr entry loopExitBB ∨
    terminator header = .condBr loopExitBB entry
  backEdge : header ∈ (terminator latchBB).successors
  oneLatch : ∀ b ∈ loopBlocks, header ∈ (terminator b).successors → b = latchBB
  oneExit : ∀ b ∈ loopBlocks, ∀ t ∈ (terminator b).successors, t ∉ loopBlocks → t = loopExitBB
  singlePredecessor : singlePredecessor blocks terminator latchBB = some bodyBB
  reached : ∀ b ∈ loopBlocks, Relation.ReflTransGen
    (fun b c => c ∈ (terminator b).successors ∧ c ∈ loopBlocks) header b
  reachesLatch : ∀ b ∈ loopBlocks, Relation.ReflTransGen
    (fun b c => c ∈ (terminator b).successors) b latchBB

/-- The blocks of a slice: clones of those of the source, and the new ones.
`apply` adds the first two, the other four come with the chunking. -/
inductive SliceBlock (B : Type) where
  | source (b : B)
  | pollingBlock
  | loopHandlerBlock
  | chunkLoopPreheaderBlock
  | chunkLoopHeaderBlock
  | chunkLoopLatchBlock
  | chunkLoopExitBlock
  deriving DecidableEq

namespace SliceBlock

/-- The block of the source that was cloned. The new blocks have no work of
the source. -/
def original : SliceBlock B → Option B
  | source b => some b
  | _ => none

omit [DecidableEq B] in
/-- A clone is the clone of its block. -/
@[simp] theorem original_source (b : B) : (source b).original = some b := rfl

omit [DecidableEq B] in
/-- The clones of some blocks are clones of these. -/
theorem filterMap_original (tr : List B) : (tr.map source).filterMap original = tr := by
  simp [List.filterMap_map, Function.comp_def]

end SliceBlock

open SliceBlock

/-- `getSuccessor(0)` of a terminator that is cast to a branch instruction.
The cast fails on any other terminator, and the pass stops. -/
def successor0 : Terminator B → Option B
  | .br t | .condBr t _ => some t
  | .other _ => none

omit [DecidableEq B] in
/-- The first successor of a clone is the clone of the first successor. -/
theorem successor0_map {C : Type} (f : B → C) (T : Terminator B) :
    successor0 (T.map f) = (successor0 T).map f := by
  cases T <;> rfl

/-- `setSuccessor(0, ..)`: the other successor of a conditional branch stays. -/
def setSuccessor0 (T : Terminator B) (t : B) : Terminator B :=
  match T with
  | .br _ => .br t
  | .condBr _ f => .condBr t f
  | .other ts => .other ts

namespace LoopCFG

variable (L : LoopCFG B)

/-- The blocks of the slice, with those that are created on the way. -/
def sliceBlocks : List (SliceBlock B) :=
  L.blocks.map source ++ [pollingBlock, loopHandlerBlock, chunkLoopPreheaderBlock,
    chunkLoopHeaderBlock, chunkLoopLatchBlock, chunkLoopExitBlock]

/-- The slice before `apply` inserts blocks: every block has the terminator of
its original, with the clones as its successors. -/
def cloned : Graph (SliceBlock B)
  | source b => (L.terminator b).map source
  | _ => .other []

/-- `apply` in a leaf loop: the polling block, and the block that calls the
handler. The terminator at the end of the body is erased, and a branch to the
polling block takes its place whatever it was. -/
def applyLeaf : Graph (SliceBlock B) :=
  let g := L.cloned
  let g := Function.update g (source L.bodyBB) (.br pollingBlock)
  let g := Function.update g pollingBlock (.condBr loopHandlerBlock (source L.latchBB))
  Function.update g loopHandlerBlock (.condBr (source L.loopExitBB) (source L.latchBB))

/-- `executeLoopInChunk` in the leaf loop. The first successor of the header
becomes the first block of a loop of its own, with the header and the latch of
the chunk around it. The header and the latch of the loop are run once for
each chunk from then on. -/
def executeLoopInChunk (g : Graph (SliceBlock B)) : Option (Graph (SliceBlock B)) := do
  let loopBodyBlock ← successor0 (g (source L.header))
  let g := Function.update g (source L.header)
    (setSuccessor0 (g (source L.header)) chunkLoopPreheaderBlock)
  let g := Function.update g chunkLoopPreheaderBlock (.br chunkLoopHeaderBlock)
  let g := Function.update g chunkLoopLatchBlock (.br chunkLoopHeaderBlock)
  let lastBodyBlock ← Flow.singlePredecessor L.sliceBlocks g pollingBlock
  let _ ← successor0 (g lastBodyBlock)
  let g := Function.update g lastBodyBlock (setSuccessor0 (g lastBodyBlock) chunkLoopLatchBlock)
  let g := Function.update g chunkLoopHeaderBlock (.condBr loopBodyBlock chunkLoopExitBlock)
  return Function.update g chunkLoopExitBlock (.condBr (source L.loopExitBB) pollingBlock)

/-- `invokeHeartbeatFunctionAsideCallerLoop`: the branch after the nested call
in the block `call` of the caller. It replaces the terminator of that block
and keeps its first successor for the codes that are not positive. -/
def linkCaller (call : B) : Option (Graph (SliceBlock B)) := do
  let latchBlock ← successor0 (L.cloned (source call))
  return Function.update L.cloned (source call) (.condBr (source L.loopExitBB) latchBlock)

/-! ### Iterations -/

/-- An iteration ends at the latch, the header or the exit block: from the
header on, a run of the source stops at the first of them. -/
def EndsIteration (b : B) : Prop := b = L.latchBB ∨ b = L.header ∨ b = L.loopExitBB

/-- In a chunked loop it ends at the latch of the chunk. -/
def SliceEnds : SliceBlock B → Prop
  | source b => L.EndsIteration b
  | chunkLoopLatchBlock => True
  | _ => False

end LoopCFG

/-- The leaf slice when no heartbeat is reported and the chunk has another
iteration. The blocks of the source do what they do there, and the new ones
change nothing. -/
def leafSem {σ : Type} (M : Sem B σ) : Sem (SliceBlock B) σ where
  exec
    | source b => M.exec b
    | _ => id
  decide
    | source b => M.decide b
    | pollingBlock => fun _ => 1
    | _ => fun _ => 0

namespace LoopCFG

variable (L : LoopCFG B)

/-- Where an iteration of a chunked loop ends. -/
def chunkEnd (c : B) : SliceBlock B :=
  if c = L.latchBB then chunkLoopLatchBlock else source c

variable {L} {σ : Type} {M : Sem B σ} {b c t : B} {s s' : σ} {tr : List B}
  {g : Graph (SliceBlock B)} {landing x y : SliceBlock B} {tr' : List (SliceBlock B)}

/-- Only the last block of the body has an edge to the latch. -/
theorem eq_bodyBB (h : L.latchBB ∈ (L.terminator b).successors) : b = L.bodyBB :=
  eq_of_single L.singlePredecessor (L.mem_blocks b) h

/-- The last block of the body has an edge to the latch. -/
theorem latch_mem_successors : L.latchBB ∈ (L.terminator L.bodyBB).successors :=
  (mem_of_single L.singlePredecessor).2

/-- The latch is not the header: its only predecessor would be outside of the
loop. -/
theorem latch_ne_header : L.latchBB ≠ L.header := by
  intro h
  have hpre : L.preHeader = L.bodyBB := eq_bodyBB (h ▸ L.preHeader_edge)
  have hlatch : L.latchBB = L.bodyBB := eq_bodyBB (h.symm ▸ L.backEdge)
  exact L.preHeader_notMem (hpre.trans hlatch.symm ▸ L.latch_mem)

/-- The last block of the body is in the loop. -/
theorem bodyBB_mem : L.bodyBB ∈ L.loopBlocks := by
  -- the path from the header to the latch goes through the only predecessor of the latch
  cases (L.reached _ L.latch_mem).cases_tail with
  | inl h => exact absurd h latch_ne_header
  | inr h =>
      obtain ⟨b, hb, hedge⟩ := h
      obtain rfl := eq_bodyBB hedge.1
      cases hb.cases_tail with
      | inl hb => exact hb ▸ L.header_mem
      | inr hb =>
          obtain ⟨_, _, hb⟩ := hb
          exact hb.2

/-- The first block of the body is in the loop. -/
theorem entry_ne_exit : L.entry ≠ L.loopExitBB :=
  fun h => L.exit_notMem (h ▸ L.entry_mem)

/-- An iteration ends at the latch. -/
theorem endsIteration_latch : L.EndsIteration L.latchBB := .inl rfl

/-- The last block of the body is reached from the header in one iteration,
since every block of the loop is. -/
theorem reaches_bodyBB : Reaches L.terminator L.EndsIteration L.header L.bodyBB := by
  have hpath : ∀ b, Relation.ReflTransGen
      (fun b c => c ∈ (L.terminator b).successors ∧ c ∈ L.loopBlocks) L.header b →
      Reaches L.terminator L.EndsIteration L.header b ∨
        Reaches L.terminator L.EndsIteration L.header L.bodyBB := by
    intro b hb
    induction hb with
    | refl => exact .inl .refl
    | @tail b c _ hbc ih =>
        rcases ih with ih | ih
        · by_cases hc : L.EndsIteration c
          · rcases hc with rfl | rfl | rfl
            · exact .inr (eq_bodyBB hbc.1 ▸ ih)
            · exact .inl .refl
            · exact absurd hbc.2 L.exit_notMem
          · exact .inl (ih.tail ⟨hbc.1, hc⟩)
        · exact .inr ih
  rcases hpath L.latchBB (L.reached _ L.latch_mem) with h | h
  · -- No run of an iteration goes on from the latch.
    cases h.cases_tail with
    | inl h => exact absurd h latch_ne_header
    | inr h =>
        obtain ⟨_, _, hedge⟩ := h
        exact absurd endsIteration_latch hedge.2
  · exact h

/-- The last block of the body is the header or lies inside an iteration. -/
theorem bodyBB_cases : L.bodyBB = L.header ∨ ¬ L.EndsIteration L.bodyBB := by
  cases (reaches_bodyBB (L := L)).cases_tail with
  | inl h => exact .inl h
  | inr h =>
      obtain ⟨_, _, hedge⟩ := h
      exact .inr hedge.2

/-- The last block of the body is not the latch. -/
theorem bodyBB_ne_latch : L.bodyBB ≠ L.latchBB := by
  rcases bodyBB_cases (L := L) with h | h
  · exact h ▸ latch_ne_header.symm
  · exact fun hlatch => h (.inl hlatch)

/-! ### The leaf slice

A leaf slice runs the blocks of the loop in which the last block of the body goes to the
latch whatever it decides. -/

variable (L) in
/-- The loop with an unconditional branch to the latch at the end of the body.
-/
def straightened : Graph B := Function.update L.terminator L.bodyBB (.br L.latchBB)

variable (L) in
/-- The blocks that are run in an iteration of the slice `g`:

- `landing_cases`: the last block lands at the latch, or at the latch of the
  chunk;
- `clone`: the other blocks of the body are clones of those of the source;
- `last`: the last block goes there at once, or by the polling block. -/
structure IsLeafSlice (g : Graph (SliceBlock B)) (landing : SliceBlock B) : Prop where
  landing_cases : landing = source L.latchBB ∨ landing = chunkLoopLatchBlock
  clone : ∀ b, b ≠ L.bodyBB → ¬ L.EndsIteration b →
    g (source b) = (L.terminator b).map source
  last : g (source L.bodyBB) = .br landing ∨
    landing = source L.latchBB ∧ g (source L.bodyBB) = .br pollingBlock ∧
      g pollingBlock = .condBr loopHandlerBlock (source L.latchBB)

variable (L) in
/-- Where control is in the slice when it is at the start of `b` in the
source. -/
def place (landing : SliceBlock B) (b : B) : SliceBlock B :=
  if b = L.latchBB then landing else source b

variable (L) in
/-- Where control may be in the slice when it is at the start of `b` in the
source. It differs from `place` on the way to the latch only, where the
polling block is run. -/
def At (g : Graph (SliceBlock B)) (landing x : SliceBlock B) (b : B) : Prop :=
  x = L.place landing b ∨ x = pollingBlock ∧ b = L.latchBB ∧ landing = source L.latchBB ∧
    g pollingBlock = .condBr loopHandlerBlock (source L.latchBB)

/-- At the latch of the source control is at the landing. -/
theorem place_latch : L.place landing L.latchBB = landing := if_pos rfl

/-- At any other block it is at the clone. -/
theorem place_of_ne (h : b ≠ L.latchBB) : L.place landing b = source b := if_neg h

/-- The targets of a clone stand for those of its block. Only the edge into
the latch is different, which leads through the polling block. -/
theorem IsLeafSlice.target (h : L.IsLeafSlice g landing) (hb : b = L.bodyBB ∨
    g (source b) = (L.terminator b).map source) (i : Nat) :
    (∀ t, (L.straightened b).target i = some t →
      ∃ x, (g (source b)).target i = some x ∧ L.At g landing x t) ∧
    ∀ x, (g (source b)).target i = some x →
      ∃ t, (L.straightened b).target i = some t ∧ L.At g landing x t := by
  by_cases hbody : b = L.bodyBB
  · subst hbody
    have hstr : (L.straightened L.bodyBB).target i = some L.latchBB := by
      rw [straightened, Function.update_self, Terminator.target_br]
    rw [hstr]
    have hx : ∃ x, (g (source L.bodyBB)).target i = some x ∧
        L.At g landing x L.latchBB := by
      rcases h.last with hbr | ⟨hland, hbr, hpoll⟩
      · exact ⟨landing, by rw [hbr, Terminator.target_br], .inl place_latch.symm⟩
      · exact ⟨pollingBlock, by rw [hbr, Terminator.target_br], .inr ⟨rfl, rfl, hland, hpoll⟩⟩
    obtain ⟨x, hx, hat⟩ := hx
    constructor
    · rintro t ht
      obtain rfl := Option.some.inj ht
      exact ⟨x, hx, hat⟩
    · intro y hy
      obtain rfl := Option.some.inj (hx.symm.trans hy)
      exact ⟨_, rfl, hat⟩
  · have hstr : L.straightened b = L.terminator b := Function.update_of_ne hbody _ _
    have hg := hb.resolve_left hbody
    rw [hstr, hg, Terminator.target_map]
    -- The latch has no other predecessor.
    have hat : ∀ t, (L.terminator b).target i = some t → L.At g landing (source t) t := by
      intro t ht
      have hne : t ≠ L.latchBB :=
        fun hl => hbody (eq_bodyBB (hl ▸ Terminator.mem_of_target ht))
      exact .inl (place_of_ne hne).symm
    constructor
    · intro t ht
      exact ⟨source t, by rw [ht, Option.map_some], hat t ht⟩
    · intro x hx
      obtain ⟨t, ht, rfl⟩ := Option.map_eq_some_iff.mp hx
      exact ⟨t, ht, hat t ht⟩

/-- An iteration of the straightened loop is one of the slice. The polling
block is passed on the way to the latch and does no work of the source. -/
theorem IsLeafSlice.runs (h : L.IsLeafSlice g landing)
    (hruns : Runs L.straightened M L.EndsIteration b s tr c s') (hx : L.At g landing x b) :
    ∃ tr', tr'.filterMap original = tr ∧
      Runs g (leafSem M) L.SliceEnds x s tr' (L.place landing c) s' := by
  -- along the iteration, with the slice at the place of the block or at the polling block before
  -- it
  induction hruns generalizing x with
  | refl b s =>
      rcases hx with rfl | ⟨rfl, rfl, hland, hpoll⟩
      · exact ⟨[], rfl, .refl _ s⟩
      · have ht : (g pollingBlock).target 1 = some (L.place landing L.latchBB) := by
          rw [hpoll, place_latch, hland, Terminator.target_condBr_one]
        exact ⟨[pollingBlock], rfl, .step nofun ht (.refl _ s)⟩
  | @step b t c s s' tr hns ht _ ih =>
      have hne : b ≠ L.latchBB := fun hl => hns (.inl hl)
      obtain rfl : x = source b := by
        rcases hx with rfl | ⟨-, hl, -⟩
        · exact place_of_ne hne
        · exact absurd hl hne
      have hsource : b = L.bodyBB ∨
          g (source b) = (L.terminator b).map source := by
        by_cases hbody : b = L.bodyBB
        · exact .inl hbody
        · exact .inr (h.clone b hbody hns)
      obtain ⟨y, hy, hat⟩ := (h.target hsource _).1 t ht
      obtain ⟨tr', htr, hruns⟩ := ih hat
      exact ⟨source b :: tr', by simp [htr], .step hns hy hruns⟩

/-- The body ends in a branch to the polling block. -/
theorem applyLeaf_bodyBB : L.applyLeaf (source L.bodyBB) = .br pollingBlock := by
  simp [applyLeaf]

/-- The polling block goes to the handler block or to the latch. -/
theorem applyLeaf_pollingBlock :
    L.applyLeaf pollingBlock = .condBr loopHandlerBlock (source L.latchBB) := by
  simp [applyLeaf]

/-- The other clones keep their terminators. -/
theorem applyLeaf_source (h : b ≠ L.bodyBB) :
    L.applyLeaf (source b) = (L.terminator b).map source := by
  simp [applyLeaf, h, cloned]

/-- The polling block is entered from the end of the body only. -/
theorem pollingBlock_notMem (h : x ≠ source L.bodyBB) :
    pollingBlock ∉ (L.applyLeaf x).successors := by
  cases x with
  | source b =>
      have hb : b ≠ L.bodyBB := fun hb => h (congrArg source hb)
      simp [applyLeaf_source hb]
  | _ => simp [applyLeaf, cloned, Terminator.successors]

/-- The list of the blocks has no block twice. -/
theorem sliceBlocks_nodup : L.sliceBlocks.Nodup := by
  have hnew : [pollingBlock, loopHandlerBlock, chunkLoopPreheaderBlock, chunkLoopHeaderBlock,
      chunkLoopLatchBlock, chunkLoopExitBlock (B := B)].Nodup := by simp
  have hsource : (L.blocks.map source).Nodup :=
    List.Nodup.map (fun _ _ h => SliceBlock.source.inj h) L.nodup
  exact hsource.append hnew (by simp [List.Disjoint])

/-- It has every block. -/
theorem mem_sliceBlocks (x : SliceBlock B) : x ∈ L.sliceBlocks := by
  cases x <;> simp [sliceBlocks, L.mem_blocks]

/-- The polling block is entered from the last block of the body only. -/
theorem singlePredecessor_pollingBlock (hbody : g (source L.bodyBB) = .br pollingBlock)
    (hother : ∀ x, x ≠ source L.bodyBB → pollingBlock ∉ (g x).successors) :
    Flow.singlePredecessor L.sliceBlocks g pollingBlock = some (source L.bodyBB) := by
  have hmem : source L.bodyBB ∈ L.sliceBlocks := mem_sliceBlocks _
  have hpred := predecessors_eq_replicate sliceBlocks_nodup hmem (G := g) (b := pollingBlock)
    fun x _ hx => by_contra fun hne => hother x hne hx
  rw [hbody] at hpred
  rw [Flow.singlePredecessor, hpred]
  simp [Terminator.successors]

variable (L) in
/-- The slice of a chunked loop whose header branches to `t` or to `f`. -/
def chunkedSlice (t f : B) : Graph (SliceBlock B)
  | source b =>
      if b = L.bodyBB then .br chunkLoopLatchBlock
      else if b = L.header then .condBr chunkLoopPreheaderBlock (source f)
      else (L.terminator b).map source
  | pollingBlock => .condBr loopHandlerBlock (source L.latchBB)
  | loopHandlerBlock => .condBr (source L.loopExitBB) (source L.latchBB)
  | chunkLoopPreheaderBlock => .br chunkLoopHeaderBlock
  | chunkLoopHeaderBlock => .condBr (source t) chunkLoopExitBlock
  | chunkLoopLatchBlock => .br chunkLoopHeaderBlock
  | chunkLoopExitBlock => .condBr (source L.loopExitBB) pollingBlock

/-- The header keeps its second successor; the first one is where the chunk
goes on. So the graph is known without going through the surgery again. -/
theorem executeLoopInChunk_eq (hne : L.bodyBB ≠ L.header) {t f : B}
    (hterm : L.terminator L.header = .condBr t f) :
    L.executeLoopInChunk L.applyLeaf = some (L.chunkedSlice t f) := by
  have hheader : L.applyLeaf (source L.header) = .condBr (source t) (source f) := by
    rw [applyLeaf_source hne.symm, hterm]
    rfl
  unfold executeLoopInChunk
  simp only [hheader, successor0, setSuccessor0, Option.bind_eq_bind, Option.bind_some]
  -- the code finds the last block of the body as the predecessor of the polling block
  rw [singlePredecessor_pollingBlock]
  · have hbody : source L.bodyBB ≠ source L.header := fun h => hne (SliceBlock.source.inj h)
    simp only [ne_eq, hbody, not_false_eq_true, Function.update_of_ne, applyLeaf_bodyBB,
      Option.bind_some, Option.pure_def, Option.some.injEq, reduceCtorEq]
    funext x
    cases x with
    | source b =>
        by_cases hb : b = L.bodyBB
        · simp [hb, chunkedSlice]
        · by_cases hh : b = L.header
          · simp [hh, hne.symm, chunkedSlice]
          · simp [hb, hh, applyLeaf_source hb, chunkedSlice]
    | _ => simp [chunkedSlice, applyLeaf]
  · simp [hne, applyLeaf_bodyBB]
  · intro x hx
    exact notMem_successors_update (by simp [Terminator.successors]) fun _ =>
      notMem_successors_update (by simp [Terminator.successors]) fun _ =>
        notMem_successors_update (by simp [Terminator.successors]) fun _ => pollingBlock_notMem hx

/-- If the header is the last block of the body, there is no block to redirect
any more. -/
theorem executeLoopInChunk_header (h : L.bodyBB = L.header) :
    L.executeLoopInChunk L.applyLeaf = none := by
  have hheader : L.applyLeaf (source L.header) = .br pollingBlock := h ▸ applyLeaf_bodyBB
  unfold executeLoopInChunk
  simp only [hheader, successor0, setSuccessor0, Option.bind_eq_bind, Option.bind_some]
  rw [Flow.singlePredecessor]
  -- The edge to the polling block was that of the header.
  have hnone : ∀ x, pollingBlock ∉ (Function.update (Function.update (Function.update L.applyLeaf
      (source L.header) (.br chunkLoopPreheaderBlock)) chunkLoopPreheaderBlock
      (.br chunkLoopHeaderBlock)) chunkLoopLatchBlock (.br chunkLoopHeaderBlock) x).successors := by
    intro x
    exact notMem_successors_update (by simp [Terminator.successors]) fun _ =>
      notMem_successors_update (by simp [Terminator.successors]) fun _ =>
        notMem_successors_update (by simp [Terminator.successors]) fun hx =>
          pollingBlock_notMem (h ▸ hx)
  rw [List.eq_nil_iff_forall_not_mem.mpr fun x hx => hnone x (mem_predecessors.mp hx).2]
  rfl

/-! ### The leaf loop -/

/-- The call gets a branch to the exit block in front of its first successor. -/
theorem linkCaller_eq {call : B} (h : successor0 (L.terminator call) = some t) :
    L.linkCaller call = some (Function.update L.cloned (source call)
      (.condBr (source L.loopExitBB) (source t))) := by
  have hcloned : successor0 (L.cloned (source call)) = some (source t) := by
    rw [cloned, successor0_map, h, Option.map_some]
  rw [linkCaller, hcloned]
  rfl

/-- A terminator that is not a branch instruction has no `getSuccessor`. -/
theorem linkCaller_eq_none {call : B} (h : successor0 (L.terminator call) = none) :
    L.linkCaller call = none := by
  have hcloned : successor0 (L.cloned (source call)) = none := by
    rw [cloned, successor0_map, h, Option.map_none]
  rw [linkCaller, hcloned]
  rfl

end LoopCFG

/-- A loop whose body is the block 2: preheader 0, header 1, latch 3, exit 4.
It meets every condition. -/
def straightLoop : LoopCFG (Fin 5) where
  blocks := [0, 1, 2, 3, 4]
  nodup := by decide
  mem_blocks := by decide
  terminator
    | 0 => .br 1
    | 1 => .condBr 2 4
    | 2 => .br 3
    | 3 => .br 1
    | 4 => .other []
  loopBlocks := [1, 2, 3]
  preHeader := 0
  header := 1
  entry := 2
  bodyBB := 2
  latchBB := 3
  loopExitBB := 4
  preHeader_notMem := by decide
  preHeader_edge := by decide
  header_mem := by decide
  entry_mem := by decide
  latch_mem := by decide
  exit_notMem := by decide
  governed := .inl rfl
  backEdge := by decide
  oneLatch := by decide
  oneExit := by decide
  singlePredecessor := by decide
  reached := by
    intro b hb
    fin_cases hb
    · exact .refl
    · exact .single (by decide)
    · exact .tail (b := 2) (.single (by decide)) (by decide)
  reachesLatch := by
    intro b hb
    fin_cases hb
    · exact .tail (b := 2) (.single (by decide)) (by decide)
    · exact .single (by decide)
    · exact .refl

end HeartbeatCompiler
