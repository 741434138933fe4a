import HeartbeatCompiler.Activation

/-!
# `HeartbeatCompiler.Exit`: the exit block of a slice task

The exit block merges the private copies with the slots of the tasks that were split off,
reports the sum to the caller, gives the row its pointer back and counts the return code
down. `AtExit` is what the loops establish for it, `loopExit_correct` that it establishes the
postcondition of the slice.
-/

set_option autoImplicit false

namespace HeartbeatCompiler

open ForkJoin Prog

variable {n : Nest} {T : Tracked}

/-- What was resumed stays so while its rows and slots are left alone. It is
used wherever a task goes on after a promotion below it. -/
theorem Resumed.congr {π c : Path} {v : List Nat} {σ s s' : n.sig.Store} {cut : Nat}
    (h : Resumed T π c v σ s cut) (hlow : cut < v.length → π.low n.leafLevel ≤ cut)
    (hrows : ∀ l, l < cut → s' (.cxts c) l = s (.cxts c) l)
    (hrow : cut < v.length → s' (.cxts c) cut = s (.cxts c) cut)
    (hslots : ∀ l ∈ T, ∀ q i, PendingSlot n.leafLevel π v (σ (.cxts c)) (l, q, i) →
      s' (.reduction l q i) = s (.reduction l q i)) :
    Resumed T π c v σ s' cut where
  rows l hl := (hrows l hl).trans (h.rows l hl)
  env hlt := by
    rw [hrow hlt]
    exact h.env hlt
  kept l hl hlt q i hslot := (hslots l hl q i hslot).trans (h.kept l hl hlt q i hslot)
  apart := h.apart
  done l hl hlt hlv q hq := by
    rw [hslots l hl q 0 ⟨hlv, hq, .inl ⟨rfl, (hlow (by omega)).trans hlt.le⟩⟩]
    exact h.done l hl hlt hlv q hq
  kept_second l hl hlt hlv hbase q hq :=
    (hslots l hl q 1 ⟨hlv, hq, .inr ⟨rfl, hbase⟩⟩).trans
      (h.kept_second l hl hlt hlv hbase q hq)
  split hcut hlt q hq := by
    have hbase : π.base n.leafLevel ≤ cut := by
      by_contra hb
      -- The level that was split is below the base of its task: otherwise slot 0 of that level
      -- would be accounted for twice.
      exact lt_irrefl cut (h.apart hlt (by omega) cut hcut (hlow hlt))
    rw [hslots cut hcut q 0 ⟨hlt, hq, .inl ⟨rfl, hlow hlt⟩⟩,
      hslots cut hcut q 1 ⟨hlt, hq, .inr ⟨rfl, hbase⟩⟩]
    exact h.split hcut hlt q hq

/-- The slots for the kids of `g` were written by their child and read, or not
used. -/
def KidsRead (g : Activation) (σ : n.sig.Store) : Prop :=
  ∀ i, i < 2 → (σ (.reduction g.level (.kids g.path) i)).log = [] ∨
    ∃ ρ, (σ (.reduction g.level (.kids g.path) i)).log = [.written ρ, .read] ∧
      IsChild n (.kids g.path) g.level i ρ

/-- The private copies `acc` and the slots for the kids make up the value `x`,
for a loop that was left because of a promotion that split the level in
`ended`. -/
def Merges (T : Tracked) (g : Activation) (σ : n.sig.Store) (ended : Option Nat)
    (acc x : n.Values g.level) :
    Prop :=
  let first := σ (.reduction g.level (.kids g.path) 0)
  let second := σ (.reduction g.level (.kids g.path) 1)
  match ended with
  | none => (g.level ∈ T.exact → acc = x) ∧ first.log = [] ∧ second.log = []
  | some l =>
      (∃ ρ, first.log = [.written ρ] ∧ IsChild n (.kids g.path) g.level 0 ρ) ∧
      if l < g.level then
        (g.level ∈ T.exact → (fun j => acc j + first.values j) = x) ∧ second.log = []
      else (g.level ∈ T.exact → (fun j => acc j + first.values j + second.values j) = x) ∧
        ∃ ρ, second.log = [.written ρ] ∧ IsChild n (.kids g.path) g.level 1 ρ

/-- The activation `g`, called in `σ₀`, is about to run its exit block in `σ`
with the return code and the private copies `r` and `acc`:

- `pre`, `entry`, `outer`, `liveOut`: it was called as its contract asks for,
  and what it has loaded on entry is from that store;
- `rc`, `ended_le`, `promotes`: the code is 0, or a promotion has split a
  level from its own outwards;
- `resumed`: the levels from the one that was split down to `g` have been run
  to their end by the two tasks, and the rows and slots of the callers are as
  they were;
- `liveIn`, `noLiveOut`: its own row, if it was not cut;
- `merges`: the private copies and the slots of the kids make up the total;
- `slot`: its own slot has not been written yet;
- `empty`: what was passed over had nothing left;
- `low_le`, `chunk`, `alive`: the task memory and the frames can be used
  again;
- `runs`: the trace so far has executed the own range and, after a promotion,
  all that was left below the cut. -/
structure AtExit (T : Tracked) (g : Activation) (v : List Nat) (a b : Nat)
    (σ₀ σ : n.sig.Store) (r : Ret) (acc : n.Values g.level) (τ : n.sig.Trace) : Prop where
  pre : SlicePre T g.toFrame v a b σ₀
  entry : g.entry = σ₀ (.cxts g.cxts)
  outer : g.outer = v
  liveOut : n.numLiveOuts g.level ≠ 0 → g.liveOut = arrays (σ₀ (.cxts g.cxts)) g.level
  rc : r.rc = r.ended.elim 0 fun l => (g.level : Int) - l + 1
  ended_le : ∀ l ∈ r.ended, g.path.low n.leafLevel ≤ l ∧ l ≤ g.level
  promotes : r.ended.isSome → T.promotes
  resumed : Resumed T g.path g.cxts v σ₀ σ (r.cut g.level)
  liveIn : r.cut g.level = g.level →
    (σ (.cxts g.cxts) g.level).liveIn = (σ₀ (.cxts g.cxts) g.level).liveIn
  noLiveOut : r.cut g.level = g.level → n.numLiveOuts g.level = 0 →
    (σ (.cxts g.cxts) g.level).liveOut = (σ₀ (.cxts g.cxts) g.level).liveOut
  merges : g.level ∈ T → Merges T g σ r.ended acc (n.total v g.level a b)
  slot : g.level ∈ T → (σ (.reduction g.level g.liveOut g.myIndex)).log =
    (σ₀ (.reduction g.level g.liveOut g.myIndex)).log
  empty : ∀ l, g.path.low n.leafLevel ≤ l → l < r.cut g.level →
    (l < (σ (.tmem g.cxts)).startingLevel ∨ r.ended.isSome) →
    bound (σ₀ (.cxts g.cxts)) l ≤ index v l + 1
  low_le : g.path.low n.leafLevel ≤ (σ (.tmem g.cxts)).startingLevel
  chunk : ChunkReady n (σ (.tmem g.cxts))
  alive : ∀ ρ, ρ <:+ g.path → σ (.alive ρ) = true
  runs : Executes v (firstOf v a b) (n.iterations v a b)
    (n.restFrom v (σ₀ (.cxts g.cxts)) (r.cut g.level)) τ

section

variable {S : Scope} {σ : n.sig.Store} {Q : n.sig.Post} {g : Activation}

/-- Reading a slot that a child has written. -/
theorem readSlot_bind {i : Nat} {ρ : Path} {k : n.Values g.level → Prog n.sig Ret}
    (hown : g.path ∈ S.own) (halive : σ (.alive g.path) = true) (hl : g.level ∈ T)
    (hlog : (σ (.reduction g.level (.kids g.path) i)).log = [.written ρ])
    (hρ : IsChild n (.kids g.path) g.level i ρ)
    (h : ∀ σ' s : n.sig.Store, (∀ x, x ≠ .reduction g.level (.kids g.path) i → σ' x = σ x) →
      (σ' (.reduction g.level (.kids g.path) i)).log = [.written ρ, .read] →
      Correct T S (k (σ (.reduction g.level (.kids g.path) i)).values) σ'
        (Q.after [(.slotRead g i [.written ρ], s)])) :
    Correct T S (n.readSlot g i >>= k) σ Q := by
  have hq : (Block.kids g.path).In S.own := ⟨g.path, hown, rfl⟩
  rw [Nest.readSlot, bind_bind]
  refine Correct.fetch ⟨hl, .inl hq⟩ (.inr (.inl hq)) (.some (.inl hown) halive) ?_
  rw [bind_bind, hlog]
  refine Correct.log fun _ s _ => ⟨fun _ => ⟨ρ, rfl, hρ⟩, h _ s (fun x hx => ?_) ?_⟩
  · exact Function.update_of_ne hx _ _
  · rw [Function.update_self]
    rfl

/-- Reading a slot of a level that is not followed. -/
theorem readSlot_unknown_bind {i : Nat} {k : n.Values g.level → Prog n.sig Ret}
    (hown : g.path ∈ S.own) (halive : σ (.alive g.path) = true) (hl : g.level ∉ T)
    (hacc : g.level ∈ T.accessed)
    (h : ∀ x log s, Correct T S (k x) σ (Q.after [(.slotRead g i log, s)])) :
    Correct T S (n.readSlot g i >>= k) σ Q := by
  rw [Nest.readSlot, bind_bind]
  refine Correct.fetch_unknown (fun hr => hl hr.1) ⟨hl, hacc⟩ (.inl hl) (.some (.inl hown) halive)
    fun x => ?_
  rw [bind_bind]
  exact Correct.log fun _ s _ => ⟨fun hl' => absurd hl' hl, h x.values x.log s⟩

/-- The sum of the private copies and the slots of the kids. Which slots are
read depends on the return code, and they are the ones that were written: none
without a promotion, one if an outer level was split, two if this one was. -/
theorem reduceKids_bind {rc : Int} {ended : Option Nat} {acc x : n.Values g.level}
    {v : List Nat} {k : n.Values g.level → Prog n.sig Ret} (hown : g.path ∈ S.own)
    (halive : σ (.alive g.path) = true) (hrc : rc = ended.elim 0 fun l => (g.level : Int) - l + 1)
    (hle : ∀ l ∈ ended, l ≤ g.level) (hacc : g.level ∈ T.accessed)
    (hm : g.level ∈ T → Merges T g σ ended acc x)
    (h : ∀ (sum : n.Values g.level) (σ' : n.sig.Store) (τ : n.sig.Trace),
      (∀ y, (∀ i, y ≠ .reduction g.level (.kids g.path) i) → σ' y = σ y) →
      (g.level ∈ T → (g.level ∈ T.exact → sum = x) ∧ KidsRead g σ') → Executes v 0 [] 0 τ →
      Correct T S (k sum) σ' (Q.after τ)) :
    Correct T S (n.reduceKids g rc acc >>= k) σ Q := by
  rw [Nest.reduceKids]
  cases ended with
  | none =>
      -- Return code 0, the loop came to its end: the slots for the kids were never handed out
      -- and the private copies are all there is.
      rw [if_pos (by rw [hrc]; exact Int.zero_lt_one)]
      refine h acc σ [] (fun _ _ => rfl) (fun hl => ?_) .nil
      obtain ⟨h₁, h₂, h₃⟩ := hm hl
      refine ⟨h₁, fun i hi => .inl ?_⟩
      obtain rfl | rfl : i = 0 ∨ i = 1 := by omega
      · exact h₂
      · exact h₃
  | some l =>
      have hll := hle l rfl
      rw [Option.elim_some] at hrc
      rw [if_neg (by omega), bind_bind]
      by_cases hl : g.level ∈ T
      · obtain ⟨⟨ρ, hlog, hρ⟩, hrest⟩ := hm hl
        refine readSlot_bind hown halive hl hlog hρ fun σ₁ s₁ hsame₁ hlog₁ => ?_
        have hne : Loc.reduction g.level (.kids g.path) 1 ≠
            .reduction g.level (.kids g.path) 0 := by
          simp
        -- An outer level was split: only the leftover task ran a part of this loop, in slot 0.
        by_cases hlt : l < g.level
        · rw [if_pos hlt] at hrest
          rw [if_pos (by omega)]
          refine h _ σ₁ _ (fun y hy => hsame₁ y (hy 0)) (fun _ => ⟨hrest.1, fun i hi => ?_⟩)
            (.quiet ⟨rfl, rfl⟩ _)
          obtain rfl | rfl : i = 0 ∨ i = 1 := by omega
          · exact .inr ⟨ρ, hlog₁, hρ⟩
          · exact .inl (by rw [hsame₁ _ hne]; exact hrest.2)
        · -- This level itself was split: the first task filled slot 0 and the second task slot
          -- 1.
          rw [if_neg hlt] at hrest
          obtain ⟨hsum, ρ', hlog', hρ'⟩ := hrest
          rw [if_neg (by omega), bind_bind]
          have halive₁ : σ₁ (.alive g.path) = true := (hsame₁ _ (by simp)).trans halive
          refine readSlot_bind (ρ := ρ') hown halive₁ hl (by rw [hsame₁ _ hne]; exact hlog') hρ'
            fun σ₂ s₂ hsame₂ hlog₂ => ?_
          rw [Sig.Post.after_after]
          refine h _ σ₂ _ (fun y hy => (hsame₂ y (hy 1)).trans (hsame₁ y (hy 0)))
            (fun _ => ⟨?_, fun i hi => ?_⟩)
            ((Executes.quiet ⟨rfl, rfl⟩ _).append_quiet ⟨rfl, rfl⟩ _)
          · rw [hsame₁ _ hne]
            exact hsum
          · obtain rfl | rfl : i = 0 ∨ i = 1 := by omega
            · exact .inr ⟨ρ, by rw [hsame₂ _ hne.symm]; exact hlog₁, hρ⟩
            · exact .inr ⟨ρ', hlog₂, hρ'⟩
      · -- The slots of a level that is not tracked may race; what is read is unknown, and
        -- nothing is claimed of it.
        refine readSlot_unknown_bind hown halive hl hacc fun x₁ log₁ s₁ => ?_
        by_cases hlt : (1 : Int) < rc
        · rw [if_pos hlt]
          exact h _ σ _ (fun _ _ => rfl) (fun hl' => absurd hl' hl) (.quiet ⟨rfl, rfl⟩ _)
        · rw [if_neg hlt, bind_bind]
          refine readSlot_unknown_bind hown halive hl hacc fun x₂ log₂ s₂ => ?_
          rw [Sig.Post.after_after]
          exact h _ σ _ (fun _ _ => rfl) (fun hl' => absurd hl' hl)
            ((Executes.quiet ⟨rfl, rfl⟩ _).append_quiet ⟨rfl, rfl⟩ _)

end

section

variable {g : Activation} {v : List Nat} {a b : Nat} {σ₀ σ σ' : n.sig.Store} {r : Ret}
  {acc : n.Values g.level} {τ : n.sig.Trace}

/-- The exit block has written the sum to the slot the activation was handed:

- `rows`: the other rows are as before;
- `row`: the pointer of the caller has been put back into its own row;
- `tmem`, `slots`: the task memory and the slots of the callers are as before;
- `slot`: its slot holds the sum, and was written by this activation;
- `kids`: the slots for the kids have been read once. -/
structure Reported (T : Tracked) (S : Scope) (g : Activation) (x : n.Values g.level)
    (σ σ' : n.sig.Store) : Prop where
  rows : ∀ l, l ≠ g.level → σ' (.cxts g.cxts) l = σ (.cxts g.cxts) l
  row : σ' (.cxts g.cxts) g.level = if n.numLiveOuts g.level = 0 then σ (.cxts g.cxts) g.level
    else { σ (.cxts g.cxts) g.level with liveOut := (g.entry g.level).liveOut }
  tmem : σ' (.tmem g.cxts) = σ (.tmem g.cxts)
  slots : ∀ l ∈ T, l ≠ g.level → ∀ q i, (l, q, i) ∈ S.slots →
    σ' (.reduction l q i) = σ (.reduction l q i)
  slot : g.level ∈ T →
    (g.level ∈ T.exact → (σ' (.reduction g.level g.liveOut g.myIndex)).values = x) ∧
    (σ' (.reduction g.level g.liveOut g.myIndex)).log =
      (σ (.reduction g.level g.liveOut g.myIndex)).log ++ [.written g.path]
  kids : g.level ∈ T → KidsRead g σ'

/-- What was reported is in the own part of the store, so other tasks do not
change it before it is read. -/
theorem Reported.congr {S : Scope} {x : n.Values g.level} {s : n.sig.Store}
    (hr : Reported T S g x σ σ') (hs : Agree (S.rel T) σ' s) (htask : g.cxts = S.task)
    (hslot : g.level ∈ T → (g.level, g.liveOut, g.myIndex) ∈ S.slots) (hown : g.path ∈ S.own) :
    Reported T S g x σ s := by
  have hcxts := hs (.cxts g.cxts) (.inl htask)
  have hkid : ∀ i, g.level ∈ T → s (.reduction g.level (.kids g.path) i) =
      σ' (.reduction g.level (.kids g.path) i) := fun i hl =>
    (hs (.reduction g.level (.kids g.path) i) ⟨hl, .inl ⟨g.path, hown, rfl⟩⟩).symm
  refine ⟨?_, ?_, ?_, ?_, ?_, ?_⟩
  · intro l hl
    rw [← hcxts]
    exact hr.rows l hl
  · rw [← hcxts]
    exact hr.row
  · rw [← hs (.tmem g.cxts) (.inl htask)]
    exact hr.tmem
  · intro l hl hll q i hq
    rw [← hs (.reduction l q i) ⟨hl, .inr hq⟩]
    exact hr.slots l hl hll q i hq
  · intro hl
    rw [← hs (.reduction g.level g.liveOut g.myIndex) ⟨hl, .inr (hslot hl)⟩]
    exact hr.slot hl
  · intro hl i hi
    rw [hkid i hl]
    exact hr.kids hl i hi

namespace AtExit

/-- The arrays an activation reports to are not its own. -/
theorem liveOut_ne (h : AtExit T g v a b σ₀ σ r acc τ) (hm : n.numLiveOuts g.level ≠ 0) :
    g.liveOut ≠ .kids g.path := by
  obtain ⟨q, h₁, h₂, -⟩ := h.pre.env.liveOut hm
  rw [h.liveOut hm, arrays_of_liveOut h₁]
  rintro rfl
  exact Path.not_mem_callers g.path (h₂ g.path rfl)

/-- The arrays an activation reports to lie in a frame that has not been left.
-/
theorem held_liveOut (h : AtExit T g v a b σ₀ σ r acc τ) (hm : n.numLiveOuts g.level ≠ 0) :
    Held ((g.toFrame.scope n.leafLevel v (σ₀ (.cxts g.cxts))).rel T) σ g.liveOut.owner := by
  obtain ⟨q, h₁, h₂, -⟩ := h.pre.env.liveOut hm
  rw [h.liveOut hm, arrays_of_liveOut h₁]
  exact fun ρ hρ => ⟨.inr (h₂ ρ hρ), h.alive ρ (Path.suffix_iff.mpr (.inr (h₂ ρ hρ)))⟩

/-- The rule of `reduceLiveOuts` for a program that goes on after it: it is
enough that what follows is correct once the sum of the whole range is
reported, with a trace that executes no iteration. -/
theorem reduceLiveOuts_bind (hT : Mergeable n T) (h : AtExit T g v a b σ₀ σ r acc τ)
    {k : PUnit → Prog n.sig Ret} {Q : n.sig.Post}
    (hk : ∀ (σ' : n.sig.Store) (τ' : n.sig.Trace),
      Reported T (g.toFrame.scope n.leafLevel v (σ₀ (.cxts g.cxts))) g
      (n.total v g.level a b) σ σ' → Executes v 0 [] 0 τ' →
      Correct T (g.toFrame.scope n.leafLevel v (σ₀ (.cxts g.cxts))) (k ⟨⟩) σ' (Q.after τ')) :
    Correct T (g.toFrame.scope n.leafLevel v (σ₀ (.cxts g.cxts)))
      (n.reduceLiveOuts g r.rc acc >>= k) σ Q := by
  have hown : g.path ∈ (g.toFrame.scope n.leafLevel v (σ₀ (.cxts g.cxts))).own :=
    List.suffix_rfl
  rw [Nest.reduceLiveOuts]
  by_cases hm : n.numLiveOuts g.level = 0
  · -- Without live-outs the exit block does nothing here, and the level is not tracked either.
    have hno : g.level ∉ T := fun hl => hT.liveOut _ hl hm
    rw [if_pos hm]
    exact hk σ [] ⟨fun _ _ => rfl, (if_pos hm).symm, rfl, fun _ _ _ _ _ _ => rfl,
      fun hl => absurd hl hno, fun hl => absurd hl hno⟩ .nil
  · rw [if_neg hm, bind_bind]
    refine reduceKids_bind (v := v) hown (h.alive _ List.suffix_rfl) h.rc
      (fun l hl => (h.ended_le l hl).2) (hT.accessed _ hm) h.merges
      fun sum σ₁ τ₁ hsame hsum hquiet => ?_
    have hcxts : σ₁ (.cxts g.cxts) = σ (.cxts g.cxts) := hsame _ (by simp)
    have hheld : Held ((g.toFrame.scope n.leafLevel v (σ₀ (.cxts g.cxts))).rel T) σ₁
        g.liveOut.owner := (h.held_liveOut hm).congr fun ρ => hsame _ (by simp)
    rw [bind_bind]
    by_cases hl : g.level ∈ T
    · have hslot : Loc.reduction g.level g.liveOut g.myIndex ∈
          (g.toFrame.scope n.leafLevel v (σ₀ (.cxts g.cxts))).rel T :=
        ⟨hl, .inr (.inl ⟨rfl, h.liveOut hm, rfl⟩)⟩
      -- The slot that is written belongs to the caller, the ones read before to the activation,
      -- so that the write leaves the logs of the latter as they are.
      have hne : ∀ i, Loc.reduction g.level g.liveOut g.myIndex ≠
          .reduction g.level (.kids g.path) i := fun i heq => by
        injection heq with _ hq _
        exact h.liveOut_ne hm hq
      refine Correct.modify hslot (.inr (.inr (.inl ⟨rfl, h.liveOut hm, rfl⟩))) hheld ?_
      refine Correct.setRow (.inl rfl) (hk _ _ ⟨?_, ?_, ?_, ?_, fun _ => ⟨?_, ?_⟩, fun _ => ?_⟩
        hquiet)
      · intro l hll
        rw [Function.update_self, Function.update_of_ne hll, Function.update_of_ne (by simp),
          hcxts]
      · rw [Function.update_self, Function.update_self, Function.update_of_ne (by simp), hcxts,
          if_neg hm]
      · rw [Function.update_of_ne (by simp), Function.update_of_ne (by simp)]
        exact hsame _ (by simp)
      · intro l _ hll q i _
        rw [Function.update_of_ne (by simp), Function.update_of_ne (by simp [hll])]
        exact hsame _ (by simp [hll])
      · rw [Function.update_of_ne (by simp), Function.update_self]
        exact (hsum hl).1
      · rw [Function.update_of_ne (by simp), Function.update_self, hsame _ hne]
      · intro i hi
        rw [Function.update_of_ne (by simp), Function.update_of_ne (hne i).symm]
        exact (hsum hl).2 i hi
    · refine Correct.modify_unknown (fun hr => hl hr.1) ⟨hl, hT.accessed _ hm⟩ (.inl hl) hheld ?_
      refine Correct.setRow (.inl rfl) (hk _ _ ⟨?_, ?_, ?_, ?_, fun hl' => absurd hl' hl,
        fun hl' => absurd hl' hl⟩ hquiet)
      · intro l hll
        rw [Function.update_self, Function.update_of_ne hll, hcxts]
      · rw [Function.update_self, Function.update_self, hcxts, if_neg hm]
      · rw [Function.update_of_ne (by simp)]
        exact hsame _ (by simp)
      · intro l _ hll q i _
        rw [Function.update_of_ne (by simp)]
        exact hsame _ (by simp [hll])

/-- The row of the activation is as it was found, unless it was given away. -/
theorem row_eq (h : AtExit T g v a b σ₀ σ r acc τ)
    (hr : Reported T (g.toFrame.scope n.leafLevel v (σ₀ (.cxts g.cxts))) g
      (n.total v g.level a b) σ σ') (hcut : r.cut g.level = g.level) :
    (σ' (.cxts g.cxts) g.level).liveIn = (σ₀ (.cxts g.cxts) g.level).liveIn ∧
    (σ' (.cxts g.cxts) g.level).liveOut = (σ₀ (.cxts g.cxts) g.level).liveOut := by
  rw [hr.row]
  by_cases hm : n.numLiveOuts g.level = 0
  · rw [if_pos hm]
    exact ⟨h.liveIn hcut, h.noLiveOut hcut hm⟩
  · rw [if_neg hm, h.entry]
    exact ⟨h.liveIn hcut, rfl⟩

/-- An activation at its exit returns a code that cuts at its own level or
above. -/
theorem cut_le (h : AtExit T g v a b σ₀ σ r acc τ) : r.cut g.level ≤ g.level := by
  rw [Ret.cut]
  -- Nothing was split: the code is 0 and the cut is the level of the activation itself.
  cases he : r.ended with
  | none => exact le_refl _
  | some l => exact (h.ended_le l he).2

/-- It cuts at a level the activation is responsible for, never above the
task's own part of the nest. -/
theorem low_le_cut (h : AtExit T g v a b σ₀ σ r acc τ) (hlt : r.cut g.level < v.length) :
    g.path.low n.leafLevel ≤ r.cut g.level := by
  rw [h.pre.length, Ret.cut] at hlt
  rw [Ret.cut]
  cases he : r.ended with
  | none => rw [he] at hlt; exact absurd hlt (lt_irrefl _)
  | some l => exact (h.ended_le l he).1

/-- The suspended levels are as the loops left them. -/
theorem resumed_reported (h : AtExit T g v a b σ₀ σ r acc τ)
    (hr : Reported T (g.toFrame.scope n.leafLevel v (σ₀ (.cxts g.cxts))) g
      (n.total v g.level a b) σ σ') :
    Resumed T g.path g.cxts v σ₀ σ' (r.cut g.level) := by
  refine h.resumed.congr h.low_le_cut (fun l hl => hr.rows l ?_)
    (fun hlt => hr.rows _ ?_) fun l hl q i hslot => ?_
  · have := h.cut_le
    omega
  · rw [h.pre.length] at hlt
    omega
  · have hlt : l < v.length := hslot.1
    exact hr.slots l hl (by rw [← h.pre.length]; omega) q i (.inr hslot)

/-- What an activation has done when it leaves: its code, its rows and its
slot are as its contract says. -/
theorem leftGood (hT : Mergeable n T) (h : AtExit T g v a b σ₀ σ r acc τ)
    (hr : Reported T (g.toFrame.scope n.leafLevel v (σ₀ (.cxts g.cxts))) g
      (n.total v g.level a b) σ σ') :
    LeftGood T g ⟨r.rc - 1, r.ended⟩ σ' where
  rc := by
    rw [h.rc]
    cases r.ended with
    | none => rfl
    | some l => simp
  ended_le l hl := (h.ended_le l hl).2
  rows l hl := by
    -- The return code counts the levels to leave, so that a row above the code is a row above
    -- the cut.
    have hcut : l < r.cut g.level := by
      rw [h.rc] at hl
      rw [Ret.cut]
      cases he : r.ended with
      | none => rw [he] at hl; simp only [Option.elim_none, Option.getD_none] at hl ⊢; omega
      | some k =>
          have := (h.ended_le k he).2
          rw [he] at hl
          simp only [Option.elim_some, Option.getD_some] at hl ⊢
          omega
    rw [h.entry]
    exact (h.resumed_reported hr).rows l hcut
  env hrc := by
    rw [h.entry]
    refine h.row_eq hr ?_
    rw [h.rc] at hrc
    rw [Ret.cut]
    cases he : r.ended with
    | none => rfl
    | some k =>
        have := (h.ended_le k he).2
        rw [he] at hrc
        simp only [Option.elim_some, Option.getD_some] at hrc ⊢
        omega
  slot hexact a' b' ha' hb' := by
    have hl := T.exact_subset hexact
    rw [h.entry] at ha' hb'
    rw [h.pre.start] at ha'
    rw [h.pre.max] at hb'
    cases ha'
    cases hb'
    -- The range in the entry row is the one the activation was called with, and the slot it was
    -- handed has the total of just that range.
    rw [h.entry, ← h.liveOut (hT.liveOut _ hl), (hr.slot hl).1 hexact, h.outer]
  kids hl := hr.kids hl

/-- What an activation promises when it leaves. -/
theorem slicePost (h : AtExit T g v a b σ₀ σ r acc τ) (hT : Mergeable n T)
    (hr : Reported T (g.toFrame.scope n.leafLevel v (σ₀ (.cxts g.cxts))) g
      (n.total v g.level a b) σ σ') {τ' : n.sig.Trace} (hτ : Executes v 0 [] 0 τ') :
    SlicePost T g.toFrame v a b σ₀ ⟨r.rc - 1, r.ended⟩ σ' (τ ++ τ') where
  rc := (h.leftGood hT hr).rc
  ended_le := h.ended_le
  promotes := h.promotes
  resumed := h.resumed_reported hr
  env hcut := h.row_eq hr hcut
  empty l hlow hl hor := h.empty l hlow hl (by rwa [← hr.tmem])
  low_le := by rw [hr.tmem]; exact h.low_le
  chunk := by rw [hr.tmem]; exact h.chunk
  slot hl q hq := by
    rw [← h.liveOut (hT.liveOut _ hl)] at hq
    rw [hq, ← h.slot hl]
    exact hr.slot hl
  runs := by
    exact h.runs.append_silent hτ

/-- The exit block of a slice task establishes the postcondition of the slice.
All ways to leave a loop meet here, in the state that `AtExit` describes. -/
theorem loopExit_correct (hT : Mergeable n T) (h : AtExit T g v a b σ₀ σ r acc τ) :
    Correct T (g.toFrame.scope n.leafLevel v (σ₀ (.cxts g.cxts))) (n.loopExit g r acc) σ
      (Sig.Post.after (S := n.sig) (SlicePost T g.toFrame v a b σ₀) τ) := by
  have hown : g.path ∈ (g.toFrame.scope n.leafLevel v (σ₀ (.cxts g.cxts))).own :=
    List.suffix_rfl
  have hslot : g.level ∈ T → (g.level, g.liveOut, g.myIndex) ∈
      (g.toFrame.scope n.leafLevel v (σ₀ (.cxts g.cxts))).slots := fun hl =>
    .inl ⟨rfl, h.liveOut (hT.liveOut _ hl), rfl⟩
  rw [Nest.loopExit]
  refine Correct.log fun _ s₁ _ => ⟨trivial, ?_⟩
  refine h.reduceLiveOuts_bind hT fun σ₁ τ₁ hr hτ₁ => ?_
  -- Leaving the frame comes last: from here on nothing may touch its environments.
  refine Correct.write (.inl hown) hown .none ?_
  have hr' : Reported T (g.toFrame.scope n.leafLevel v (σ₀ (.cxts g.cxts))) g
      (n.total v g.level a b) σ (Function.update σ₁ (.alive g.path) false) := by
    refine ⟨?_, ?_, ?_, ?_, ?_, ?_⟩
    · exact fun l hl => by rw [Function.update_of_ne (by simp)]; exact hr.rows l hl
    · rw [Function.update_of_ne (by simp)]; exact hr.row
    · rw [Function.update_of_ne (by simp)]; exact hr.tmem
    · exact fun l hl hll q i hq => by
        rw [Function.update_of_ne (by simp)]; exact hr.slots l hl hll q i hq
    · exact fun hl => by rw [Function.update_of_ne (by simp)]; exact hr.slot hl
    · exact fun hl i hi => by rw [Function.update_of_ne (by simp)]; exact hr.kids hl i hi
  refine Correct.log fun _ s₂ hs₂ => ⟨h.leftGood hT (hr'.congr hs₂ rfl hslot hown), ?_⟩
  refine Correct.ret fun s₃ hs₃ => ?_
  -- None of the events of the exit block executes an iteration.
  have hτ : Executes v 0 [] 0
      ([(.exited g r acc, s₁)] ++ τ₁ ++ [(.left g ⟨r.rc - 1, r.ended⟩, s₂)]) := by
    have hrun := ((Executes.quiet (e := .exited g r acc) ⟨rfl, rfl⟩ s₁).append hτ₁).append_quiet
      (e := .left g ⟨r.rc - 1, r.ended⟩) ⟨rfl, rfl⟩ s₂
    simpa using hrun
  have hpost := h.slicePost hT (hr'.congr hs₃ rfl hslot hown) hτ
  simpa [Sig.Post.after] using hpost

end AtExit

end

section

variable {g : Activation} {v : List Nat} {a b i cut : Nat} {σ₀ σ σ' s : n.sig.Store} {r : Ret}
  {acc : n.Values g.level} {τ : n.sig.Trace}

/-- A loop that has come to its end goes to the exit block with return code 0.
Its private copies are the total of the whole range. -/
theorem Inside.atExit_of_done (hT : Mergeable n T) (h : Inside T g v a b i σ₀ σ) (hi : ¬ i < b)
    (hruns : Executes v (firstOf v a i) (n.iterations v a i) 0 τ)
    (hacc : acc = n.total v g.level a i) : AtExit T g v a b σ₀ σ ⟨0, none⟩ acc τ := by
  have hlen := h.pre.length
  -- Either the loop has run to its bound, or its range was empty from the start.
  have hend : i = b ∨ i = a ∧ b ≤ a := by
    have := h.le_max
    omega
  exact
    { pre := h.pre
      entry := h.entry
      outer := h.outer
      liveOut := h.liveOut
      rc := rfl
      ended_le := fun l hl => by cases hl
      promotes := fun hs => by cases hs
      resumed :=
        -- No level was split, so that everything `Resumed` says about the levels from the cut on
        -- is about levels the task does not have.
        { rows := h.rows
          env := fun hlt => absurd hlt (by rw [hlen]; exact lt_irrefl _)
          kept := fun l hl _ q k hq => h.same (.reduction l q k) ⟨hl, .inr hq⟩
          apart := fun hlt => absurd hlt (by rw [hlen]; exact lt_irrefl _)
          done := fun l _ hlt hlv => absurd (lt_trans hlt hlv) (by rw [hlen]; exact lt_irrefl _)
          kept_second := fun l _ hlt hlv =>
            absurd (lt_trans hlt hlv) (by rw [hlen]; exact lt_irrefl _)
          split := fun _ hlt => absurd hlt (by rw [hlen]; exact lt_irrefl _) }
      liveIn := fun _ => h.row.liveIn
      noLiveOut := fun _ => h.row.noLiveOut
      merges := fun hl => by
        refine ⟨fun _ => ?_, h.fresh hl 0 (by omega), h.fresh hl 1 (by omega)⟩
        rw [hacc]
        rcases hend with rfl | ⟨rfl, hba⟩
        · rfl
        · rw [Nest.total_of_le v _ (le_refl i), Nest.total_of_le v _ hba]
      slot := fun hl => by
        rw [h.same (.reduction g.level g.liveOut g.myIndex)
          ⟨hl, .inl ⟨rfl, h.liveOut (hT.liveOut _ hl), rfl⟩⟩]
      empty := fun l hlow hlt hor => by
        rw [← bound_congr (h.rows l hlt)]
        exact h.tmem.empty l hlow (hlen ▸ hlt) (hor.resolve_right (by simp))
      low_le := h.tmem.low_le
      chunk := h.tmem.chunk
      alive := fun ρ hρ => h.alive_suffix hρ
      runs := by
        rw [Ret.cut, Option.getD_none, restFrom_of_le hlen.le]
        rcases hend with rfl | ⟨rfl, hba⟩
        · exact hruns
        · rw [firstOf, if_neg (lt_irrefl i), Nest.iterations_of_le v (le_refl i)] at hruns
          rwa [firstOf, if_neg (not_lt.mpr hba), Nest.iterations_of_le v hba] }

/-- What was resumed from an iteration in progress, seen from the caller of
the activation. The iteration is the last index of the vector and is dropped. -/
theorem Inside.resumed (h : Inside T g v a b i σ₀ σ) (hp : InProgress g i σ σ')
    (hcut : cut ≤ g.level) (hres : Resumed T g.path g.cxts (v ++ [i]) σ' s cut) :
    Resumed T g.path g.cxts v σ₀ s cut := by
  have hlen := h.pre.length
  have hlen' : (v ++ [i]).length = v.length + 1 := by rw [List.length_append]; rfl
  have hrow : ∀ l, l < v.length → σ' (.cxts g.cxts) l = σ₀ (.cxts g.cxts) l := fun l hl =>
    h.rows_eq hp (by omega)
  have hshared : ∀ l ∈ T, ∀ q k,
      PendingSlot n.leafLevel g.path v (σ₀ (.cxts g.cxts)) (l, q, k) →
      σ' (.reduction l q k) = σ₀ (.reduction l q k) := fun l hl q k hq =>
    h.shared_eq hp (.reduction l q k) ⟨hl, .inr hq⟩
  refine ⟨?_, ?_, ?_, ?_, ?_, ?_, ?_⟩
  · -- Every clause reads rows and slots of the callers, which the iteration in progress has left
    -- alone: the clauses for `v ++ [i]` carry over to `v`.
    intro l hl
    rw [hres.rows l hl, hrow l (by omega)]
  · intro hlt
    rw [← hrow cut hlt]
    exact hres.env (by omega)
  · intro l hl hlt q k hq
    rw [hres.kept l hl hlt q k (h.pendingSlot hp hq.1 hq), hshared l hl q k hq]
  · exact fun hlt => hres.apart (by omega)
  · intro l hl hlt hlv q hq
    have hd := hres.done l hl hlt (by omega) q (by rw [hq, arrays_congr (hrow l hlv)])
    rwa [index_append_of_lt i hlv, List.take_append_of_le_length hlv.le,
      bound_congr (hrow l hlv)] at hd
  · intro l hl hlt hlv hbase q hq
    rw [hres.kept_second l hl hlt (by omega) hbase q (by rw [hq, arrays_congr (hrow l hlv)])]
    exact hshared l hl q 1 ⟨hlv, hq, .inr ⟨rfl, hbase⟩⟩
  · intro hcutT hlt q hq
    have hd := hres.split hcutT (by omega) q (by rw [hq, arrays_congr (hrow cut hlt)])
    rwa [index_append_of_lt i hlt, List.take_append_of_le_length hlt.le,
      bound_congr (hrow cut hlt)] at hd

/-- The partial results of a loop that was split or handed out make up its
total. The iterations up to `i` are in the private copies; the others were run
in one part, or in two if this level was split. -/
theorem Inside.merges (hT : Mergeable n T) (h : Inside T g v a b i σ₀ σ)
    (hp : InProgress g i σ σ') (hi : i < b) (hcut : cut ≤ g.level)
    (hpr : T.promotes) (hres : Resumed T g.path g.cxts (v ++ [i]) σ' s cut) (hl : g.level ∈ T)
    (hacc : acc = n.total v g.level a (i + 1)) :
    Merges T g s (some cut) acc (n.total v g.level a b) := by
  have hlen := h.pre.length
  have hai := h.start_le
  have hlen' : (v ++ [i]).length = v.length + 1 := by rw [List.length_append]; rfl
  have hq : Block.kids g.path = arrays (σ' (.cxts g.cxts)) g.level :=
    (h.arrays_own hp (hT.liveOut _ hl)).symm
  have hindex : index (v ++ [i]) g.level = i := by rw [← hlen, index_append_self]
  have htake : (v ++ [i]).take g.level = v := by rw [← hlen, List.take_left]
  have hbound : bound (σ' (.cxts g.cxts)) g.level = b := by rw [← hlen]; exact h.bound_eq hp
  have hbase : g.path.base n.leafLevel ≤ g.level := h.pre.base_le
  -- What the total is made of depends on whether this loop was split or only handed out as a
  -- rest.
  by_cases hlt : cut < g.level
  · obtain ⟨hval, hlog⟩ := hres.done g.level hl hlt (by omega) _ hq
    rw [hindex, htake, hbound] at hval
    refine ⟨hlog, ?_⟩
    rw [if_pos hlt]
    refine ⟨fun hexact => funext fun j => ?_, ?_⟩
    · -- The iterations up to `i` are in the private copies, the rest in slot 0.
      rw [hval hexact, hacc, ← hT.two hpr _ hexact (by omega),
        Nest.total_append v _ (by omega) (by omega)]
    · rw [hres.kept_second g.level hl hlt (by omega) hbase _ hq, hp.same _ (by simp) (by simp)]
      exact h.fresh hl 1 (by omega)
  · obtain rfl : cut = g.level := by omega
    obtain ⟨hval, hlog, hlog'⟩ := hres.split hl (by omega) _ hq
    rw [hindex, htake, hbound] at hval
    refine ⟨hlog, ?_⟩
    rw [if_neg hlt]
    refine ⟨fun hexact => funext fun j => ?_, hlog'⟩
    -- The rest of the loop is itself in two parts: the reduction splits at the middle, and the
    -- merge of the exit block has to be associative over it.
    rw [← hT.three hpr _ hexact, (n.reduction _ j).assoc, hval hexact, hacc,
      Nest.total_append v _ (by omega) (by omega)]

/-- A promotion that split level `l` while iteration `i` was in progress has
run what was left of the loop. The activation goes to its exit block and
leaves the loop, as the positive code tells it to. -/
theorem Inside.atExit_of_resumed {l : Nat} (hT : Mergeable n T)
    (h : Inside T g v a b i σ₀ σ) (hp : InProgress g i σ σ') (hi : i < b)
    (hpr : T.promotes) (hlow : g.path.low n.leafLevel ≤ l) (hl : l ≤ g.level)
    (hres : Resumed T g.path g.cxts (v ++ [i]) σ' s l)
    (hslot : g.level ∈ T → s (.reduction g.level g.liveOut g.myIndex) =
      σ' (.reduction g.level g.liveOut g.myIndex))
    (hempty : ∀ k, g.path.low n.leafLevel ≤ k → k < l →
      bound (σ' (.cxts g.cxts)) k ≤ index (v ++ [i]) k + 1)
    (hlow_le : g.path.low n.leafLevel ≤ (s (.tmem g.cxts)).startingLevel)
    (hchunk : ChunkReady n (s (.tmem g.cxts)))
    (halive : ∀ ρ, ρ <:+ g.path → s (.alive ρ) = true)
    (hr : r.ended = some l) (hrc : r.rc = (g.level : Int) - l + 1)
    (hacc : acc = n.total v g.level a (i + 1))
    (hruns : Executes v (firstOf v a (i + 1)) (n.iterations v a (i + 1))
      (n.restFrom (v ++ [i]) (σ' (.cxts g.cxts)) l) τ) :
    AtExit T g v a b σ₀ s r acc τ := by
  have hlen := h.pre.length
  have hai := h.start_le
  have hlen' : (v ++ [i]).length = v.length + 1 := by rw [List.length_append]; rfl
  -- The code names the level that was split, and the activation is left as far as that level.
  have hcut : ∀ k, r.cut k = l := fun k => by rw [Ret.cut, hr]; rfl
  have hown : l = g.level → (s (.cxts g.cxts) g.level).liveIn =
      (σ' (.cxts g.cxts) g.level).liveIn ∧
      (s (.cxts g.cxts) g.level).liveOut = (σ' (.cxts g.cxts) g.level).liveOut := fun heq => by
    rw [← heq]
    exact hres.env (by omega)
  exact
    { pre := h.pre
      entry := h.entry
      outer := h.outer
      liveOut := h.liveOut
      rc := by rw [hrc, hr]; rfl
      ended_le := fun k hk => by
        rw [hr] at hk
        cases hk
        exact ⟨hlow, hl⟩
      promotes := fun _ => hpr
      resumed := by rw [hcut]; exact h.resumed hp hl hres
      liveIn := fun hlev => by
        rw [(hown (by rw [← hlev, hcut])).1, hp.row]
        exact h.row.liveIn
      noLiveOut := fun hlev hm => by
        rw [(hown (by rw [← hlev, hcut])).2, hp.row]
        exact h.row.noLiveOut hm
      merges := fun hlT => by
        rw [hr]
        exact h.merges hT hp hi hl hpr hres hlT hacc
      slot := fun hlT => by
        have hslot' : Loc.reduction g.level g.liveOut g.myIndex ∈
            (g.toFrame.scope n.leafLevel v (σ₀ (.cxts g.cxts))).shared T :=
          ⟨hlT, .inl ⟨rfl, h.liveOut (hT.liveOut _ hlT), rfl⟩⟩
        rw [hslot hlT, h.shared_eq hp _ hslot']
      empty := fun k hk hklt _ => by
        rw [hcut] at hklt
        have he := hempty k hk hklt
        rwa [bound_congr (h.rows_eq hp (by omega)), index_append_of_lt i (by omega)] at he
      low_le := hlow_le
      chunk := hchunk
      alive := halive
      runs := by
        -- The trace ran the iterations up to `i` before the promotion, and the promotion ran the
        -- others: what is left from level `l` on counts them once, since the row of `g` starts
        -- after `i`.
        have hsplit := Nest.iterations_append (n := n) v (show a ≤ i + 1 by omega)
          (show i + 1 ≤ b by omega)
        refine (hruns.weaken ?_).congr ?_ ?_
        · rw [firstOf, firstOf, if_pos (show a < b by omega), if_pos (show a < i + 1 by omega)]
        · rw [← hsplit]
          exact List.prefix_append _ _
        · rw [hcut, restFrom_concat (h.bound_eq hp) (by omega),
            restFrom_congr fun k hk => h.rows_eq hp (by omega), ← hsplit,
            ← Multiset.coe_add, add_assoc,
            add_comm (n.restFrom v _ l) (↑(n.iterations v (i + 1) b) : Multiset Work)] }

end

end HeartbeatCompiler
