import HeartbeatCompiler.Contract

/-!
# `HeartbeatCompiler.Activation`: inside an activation

The invariant of the loops of a slice task (`Inside`): the rows above are as the activation
found them, and its own row leads to the arrays for its kids. When iteration `i` is in
progress, the level of the activation is one more suspended level (`Inside.suspended`), and
what a call from there has to run is less than what the activation was called with.
-/

set_option autoImplicit false

namespace HeartbeatCompiler

open ForkJoin

variable {n : Nest} {T : Tracked}

/-! ### The work that is left -/

section rest

variable {v : List Nat} {rows rows' : Nat → Row}

/-- One more iteration that was run is set aside at most once. -/
theorem firstOf_succ_le (v : List Nat) {a i : Nat} (h : a ≤ i) :
    firstOf v a (i + 1) ≤ firstOf v a i + {v ++ [i]} := by
  rw [firstOf, if_pos (by omega), firstOf]
  by_cases hai : a < i
  · rw [if_pos hai]
    exact Multiset.le_add_right _ _
  · rw [if_neg hai, show a = i by omega, zero_add]

/-- What is left of a level depends on its row only. -/
theorem rest_congr {l : Nat} (h : rows' l = rows l) : n.rest v rows' l = n.rest v rows l := by
  rw [Nest.rest, Nest.rest, bound, bound, h]

/-- What is left of the levels above depends on their rows only. -/
theorem restFrom_congr {s : Nat} (h : ∀ l, l < v.length → rows' l = rows l) :
    n.restFrom v rows' s = n.restFrom v rows s :=
  Finset.sum_congr rfl fun l hl => rest_congr (h l (Finset.mem_Ico.mp hl).2)

/-- Nothing is left below the iterations that are in progress. -/
theorem restFrom_of_le {s : Nat} (h : v.length ≤ s) : n.restFrom v rows s = 0 := by
  rw [Nest.restFrom, Finset.Ico_eq_empty (by omega), Finset.sum_empty]

/-- A level with nothing left may be skipped. -/
theorem restFrom_skip {s t : Nat} (hst : s ≤ t) (ht : t ≤ v.length)
    (h : ∀ l, s ≤ l → l < t → bound rows l ≤ index v l + 1) :
    n.restFrom v rows s = n.restFrom v rows t := by
  rw [Nest.restFrom, ← Finset.sum_Ico_consecutive _ hst ht, Nest.restFrom]
  rw [Finset.sum_eq_zero fun l hl => ?_, zero_add]
  rw [Finset.mem_Ico] at hl
  rw [Nest.rest, Nest.iterations_of_le _ (h l hl.1 hl.2)]
  rfl

/-- The levels below an iteration in progress, and the rest of its own loop. -/
theorem restFrom_concat {i b s : Nat} (hb : bound rows v.length = b) (hs : s ≤ v.length) :
    n.restFrom (v ++ [i]) rows s = n.restFrom v rows s + ↑(n.iterations v (i + 1) b) := by
  rw [Nest.restFrom, List.length_append, List.length_singleton, Finset.sum_Ico_succ_top hs]
  congr 1
  · refine Finset.sum_congr rfl fun l hl => ?_
    rw [Finset.mem_Ico] at hl
    rw [Nest.rest, Nest.rest, index_append_of_lt i hl.2, List.take_append_of_le_length hl.2.le]
  · rw [Nest.rest, index_append_self, hb, List.take_left]

end rest

/-- A nested call has less to run. -/
theorem load_nested_lt {v : List Nat} {rows rows' : Nat → Row} {s a b i : Nat}
    (hv : v.length + 1 < n.numLevels) (hs : s ≤ v.length) (hai : a ≤ i) (hib : i < b)
    (hrows : ∀ l, l < v.length → rows' l = rows l) (hb : bound rows' v.length = b) :
    n.load (v ++ [i]) rows' s (n.startIter (v ++ [i])) (n.maxIter (v ++ [i])) <
      n.load v rows s a b := by
  have hcut := Nest.iterations_append (n := n) v (show a ≤ i + 1 by omega) (show i + 1 ≤ b by omega)
  rw [Nest.load, Nest.load, restFrom_concat hb hs, restFrom_congr hrows, ← hcut,
    Nest.iterations_succ v hai, Nest.iteration_nest (by simpa using hv), Nest.below]
  simp only [Multiset.card_add, Multiset.coe_card, List.length_append, List.length_cons]
  omega

/-- What the handler is to run after a leaf iteration is less. -/
theorem load_handler_lt {v : List Nat} {rows rows' : Nat → Row} {s a b i : Nat}
    (hv : n.numLevels ≤ v.length + 1) (hs : s ≤ v.length) (hai : a ≤ i) (hib : i < b)
    (hrows : ∀ l, l < v.length → rows' l = rows l) (hb : bound rows' v.length = b) :
    (n.restFrom (v ++ [i]) rows' s).card < n.load v rows s a b := by
  have hcut := Nest.iterations_append (n := n) v (show a ≤ i + 1 by omega) (show i + 1 ≤ b by omega)
  rw [Nest.load, restFrom_concat hb hs, restFrom_congr hrows, ← hcut,
    Nest.iterations_succ v hai, Nest.iteration_leaf (by simpa using hv)]
  simp only [Multiset.card_add, Multiset.coe_card, List.length_append, List.length_singleton]
  omega

/-- The private copies after the iteration in progress. -/
theorem accumulate_total (v : List Nat) (l : Nat) {a i : Nat} (hai : a ≤ i) :
    n.accumulate l (v ++ [i]) (n.total v l a i) = n.total v l a (i + 1) :=
  funext fun j => (Nest.total_succ v l hai j).symm

/-- One more iteration of a loop with a nested loop, with what `R` was run on
the way. -/
theorem runs_nest {v : List Nat} {a i : Nat} {F : Multiset (List Nat)} {R : Multiset Work}
    {τ τ' : n.sig.Trace} (hai : a ≤ i) (hv : v.length + 1 < n.numLevels)
    (h : Executes v (firstOf v a i) (n.iterations v a i) 0 τ)
    (h' : Executes (v ++ [i]) F (n.below (v ++ [i])) R τ') (s s' : n.sig.Store) :
    Executes v (firstOf v a (i + 1)) (n.iterations v a (i + 1)) R
      (τ ++ [(.pre (v ++ [i]), s)] ++ τ' ++ [(.post (v ++ [i]), s')]) := by
  have hpre := (h.append (Executes.pre v i s)).append_below (by simp) h'
  have hbelow : (↑(n.below (v ++ [i])) : Multiset Work) ≤
      (↑(n.iterations v a i ++ [.pre (v ++ [i])] ++ n.below (v ++ [i]) : List Work)) := by
    rw [← Multiset.coe_add]
    exact Multiset.le_add_left _ _
  rw [Nest.iterations_succ v hai, Nest.iteration_nest (by simpa using hv)]
  have hall := (hpre.post (by simp) hbelow s').weaken
    ((firstOf_succ_le v hai).trans (Multiset.le_add_right _ _))
  simpa only [List.append_assoc, List.cons_append, List.nil_append] using hall

/-- One more iteration of the leaf loop. -/
theorem runs_leaf {v : List Nat} {a i : Nat} {τ : n.sig.Trace} (hai : a ≤ i)
    (hv : n.numLevels ≤ v.length + 1) (h : Executes v (firstOf v a i) (n.iterations v a i) 0 τ)
    (s : n.sig.Store) : Executes v (firstOf v a (i + 1)) (n.iterations v a (i + 1)) 0
      (τ ++ [(.leaf (v ++ [i]), s)]) := by
  rw [Nest.iterations_succ v hai, Nest.iteration_leaf (by simpa using hv)]
  exact (h.append (Executes.leaf v i s)).weaken (firstOf_succ_le v hai)

/-! ### The invariant of the loops -/

/-- The locations of others that an activation relies on or reports to: the
environments of its callers and the slots it was handed. -/
def Scope.shared (S : Scope) (T : Tracked) : Set Loc := fun x =>
  match x with
  | .cxts _ => False
  | .tmem _ => False
  | .liveInEnv q => q.Above S.callers
  | .liveOutEnv q => q.Above S.callers
  | .reduction l q i => l ∈ T ∧ (l, q, i) ∈ S.slots
  | .alive ρ => ρ ∈ S.callers

/-- What is shared with the callers is relied on. -/
theorem Scope.shared_subset (S : Scope) (T : Tracked) : S.shared T ⊆ S.rel T := by
  intro x hx
  cases x with
  | cxts c => exact hx.elim
  | tmem t => exact hx.elim
  | liveInEnv q => exact .inr hx
  | liveOutEnv q => exact .inr hx
  | reduction l q i => exact ⟨hx.1, .inr hx.2⟩
  | alive ρ => exact .inr hx

/-- Environments that have not changed are still ready. -/
theorem EnvReady.congr {C : Set Path} {σ σ' : n.sig.Store} {l : Nat} {u : List Nat}
    {row row' : Row} (h : EnvReady C σ l u row) (hin : row'.liveIn = row.liveIn)
    (hout : row'.liveOut = row.liveOut)
    (henv : ∀ q : Block, q.Above C → σ' (.liveInEnv q) = σ (.liveInEnv q))
    (hptr : ∀ q : Block, q.Above C → σ' (.liveOutEnv q) = σ (.liveOutEnv q)) :
    EnvReady C σ' l u row' where
  liveIn hl := by
    obtain ⟨q, h₁, h₂, h₃⟩ := h.liveIn hl
    exact ⟨q, hin.trans h₁, h₂, (henv q h₂).trans h₃⟩
  liveOut hl := by
    obtain ⟨q, h₁, h₂, h₃⟩ := h.liveOut hl
    exact ⟨q, hout.trans h₁, h₂, fun hm => (hptr q h₂).trans (h₃ hm)⟩

/-- Environments that are above some callers are above more of them. -/
theorem EnvReady.mono {C C' : Set Path} {σ : n.sig.Store} {l : Nat} {u : List Nat} {row : Row}
    (h : EnvReady C σ l u row) (hC : C ⊆ C') : EnvReady C' σ l u row where
  liveIn hl := by
    obtain ⟨q, h₁, h₂, h₃⟩ := h.liveIn hl
    exact ⟨q, h₁, fun ρ hρ => hC (h₂ ρ hρ), h₃⟩
  liveOut hl := by
    obtain ⟨q, h₁, h₂, h₃⟩ := h.liveOut hl
    exact ⟨q, h₁, fun ρ hρ => hC (h₂ ρ hρ), h₃⟩

/-- The row of an activation inside its loops leads to the arrays for its
kids, if there are live-outs, and is otherwise as it was found:

- `liveIn`: the live-in environment is that of the caller;
- `noLiveOut`: without live-outs the pointer of the caller is left in place;
- `liveOut`: with live-outs the row points to the arrays in the own frame. -/
structure OwnRow (g : Activation) (σ₀ σ : n.sig.Store) : Prop where
  liveIn : (σ (.cxts g.cxts) g.level).liveIn = (σ₀ (.cxts g.cxts) g.level).liveIn
  noLiveOut : n.numLiveOuts g.level = 0 →
    (σ (.cxts g.cxts) g.level).liveOut = (σ₀ (.cxts g.cxts) g.level).liveOut
  liveOut : n.numLiveOuts g.level ≠ 0 →
    (σ (.cxts g.cxts) g.level).liveOut = some (n.liveOutPtr g.level (.kids g.path))

/-- The activation `g`, called in the store `σ₀` on the range from `a` to `b`,
is about to run iteration `i`. It is the loop invariant of every loop of the
generated code:

- `pre`: the activation was called as its contract asks for;
- `entry`, `outer`, `maxIter`, `liveOut`: what it has loaded on entry is from
  that store;
- `start_le`, `le_max`: the iteration is in the range, or the range was empty;
- `rows`, `max`, `row`: the rows further out are as they were at the call, and
  its own row has its bound and leads to the arrays for its kids;
- `pointers`, `callee`: the environments for the kids and for the slice it
  calls are allocated;
- `fresh`: the slots for its kids are untouched, since no promotion has split
  this loop;
- `same`: what its callers rely on is as it was at the call;
- `tmem`, `own_empty`: the levels above the starting level of its task have
  nothing left;
- `alive`: its frame is on the stack. -/
structure Inside (T : Tracked) (g : Activation) (v : List Nat) (a b i : Nat)
    (σ₀ σ : n.sig.Store) : Prop where
  pre : SlicePre T g.toFrame v a b σ₀
  entry : g.entry = σ₀ (.cxts g.cxts)
  outer : g.outer = v
  maxIter : g.maxIter = b
  liveOut : n.numLiveOuts g.level ≠ 0 → g.liveOut = arrays (σ₀ (.cxts g.cxts)) g.level
  start_le : a ≤ i
  le_max : i ≤ b ∨ i = a
  rows : ∀ l, l < g.level → σ (.cxts g.cxts) l = σ₀ (.cxts g.cxts) l
  max : (σ (.cxts g.cxts) g.level).max = some b
  row : OwnRow g σ₀ σ
  pointers : n.numLiveOuts g.level ≠ 0 → n.numLiveOuts g.level ≠ 1 →
    σ (.liveOutEnv (.kids g.path)) = some (.kids g.path)
  callee : g.level < n.leafLevel →
    (σ (.cxts g.cxts) (g.level + 1)).liveIn = some (.callee g.path) ∧
    (n.numLiveOuts (g.level + 1) ≠ 0 →
      (σ (.cxts g.cxts) (g.level + 1)).liveOut =
        some (n.liveOutPtr (g.level + 1) (.callee g.path)) ∧
      (n.numLiveOuts (g.level + 1) ≠ 1 →
        σ (.liveOutEnv (.callee g.path)) = some (.callee g.path)))
  fresh : g.level ∈ T → ∀ k, k < 2 → (σ (.reduction g.level (.kids g.path) k)).log = []
  same : ∀ x ∈ (g.toFrame.scope n.leafLevel v (σ₀ (.cxts g.cxts))).shared T, σ x = σ₀ x
  tmem : TmemReady n (g.path.low n.leafLevel) v (σ (.cxts g.cxts)) (σ (.tmem g.cxts))
  own_empty : g.level < (σ (.tmem g.cxts)).startingLevel → b ≤ i
  alive : σ (.alive g.path) = true

/-! ### An iteration in progress -/

/-- The store in which iteration `i` of `g` calls a slice or the handler:

- `rows`: the rows further out are those before the iteration;
- `row`: `START_ITER` of its level is `i`, and nothing else in the row was
  stored;
- `same`: outside the context at most the live-ins of the slice were stored. -/
structure InProgress (g : Activation) (i : Nat) (σ σ' : n.sig.Store) : Prop where
  rows : ∀ l, l < g.level → σ' (.cxts g.cxts) l = σ (.cxts g.cxts) l
  row : σ' (.cxts g.cxts) g.level = { σ (.cxts g.cxts) g.level with start := some i }
  same : ∀ x : Loc, x ≠ .cxts g.cxts → x ≠ .liveInEnv (.callee g.path) → σ' x = σ x

/-- The arrays of a level are in its row. -/
theorem arrays_congr {rows rows' : Nat → Row} {l : Nat} (h : rows' l = rows l) :
    arrays rows' l = arrays rows l := by rw [arrays, arrays, h]

/-- The bound of a level is in its row. -/
theorem bound_congr {rows rows' : Nat → Row} {l : Nat} (h : rows' l = rows l) :
    bound rows' l = bound rows l := by rw [bound, bound, h]

/-- The arrays of a level are found through its live-out pointer. -/
theorem arrays_of_liveOut {rows : Nat → Row} {l : Nat} {q : Block}
    (h : (rows l).liveOut = some (n.liveOutPtr l q)) : arrays rows l = q := by
  rw [arrays, h, Nest.liveOutPtr]
  by_cases hm : n.numLiveOuts l = 1
  · rw [if_pos hm]; rfl
  · rw [if_neg hm]; rfl

namespace Inside

variable {g : Activation} {v : List Nat} {a b i : Nat} {σ₀ σ σ' s : n.sig.Store}

/-- The header tests whether there is an iteration left. -/
theorem lt_two_pow (h : Inside T g v a b i σ₀ σ) : i < 2 ^ 63 := by
  have h₁ := h.pre.start_lt
  have h₂ := h.pre.max_lt
  have := h.le_max
  omega

/-- The rows above are as the activation found them. -/
theorem rows_eq (h : Inside T g v a b i σ₀ σ) (hp : InProgress g i σ σ') {l : Nat}
    (hl : l < g.level) : σ' (.cxts g.cxts) l = σ₀ (.cxts g.cxts) l :=
  (hp.rows l hl).trans (h.rows l hl)

/-- The bound of the activation is the one it was called with. -/
theorem bound_eq (h : Inside T g v a b i σ₀ σ) (hp : InProgress g i σ σ') :
    bound (σ' (.cxts g.cxts)) v.length = b := by
  rw [h.pre.length, bound, hp.row, h.max]
  rfl

/-- What the activation shares with its callers is as it was found. -/
theorem shared_eq (h : Inside T g v a b i σ₀ σ) (hp : InProgress g i σ σ') :
    ∀ x ∈ (g.toFrame.scope n.leafLevel v (σ₀ (.cxts g.cxts))).shared T, σ' x = σ₀ x := by
  intro x hx
  refine (hp.same x ?_ ?_).trans (h.same x hx)
  · rintro rfl
    exact hx
  · rintro rfl
    exact Path.not_mem_callers g.path (hx g.path rfl)

/-- The arrays of the level itself are those for its kids. -/
theorem arrays_own (h : Inside T g v a b i σ₀ σ) (hp : InProgress g i σ σ')
    (hm : n.numLiveOuts g.level ≠ 0) : arrays (σ' (.cxts g.cxts)) g.level = .kids g.path :=
  arrays_of_liveOut (by rw [hp.row]; exact h.row.liveOut hm)

/-- The environments of the level itself and of the suspended ones are ready.
Those of the levels above were handed over by the caller and have not been
touched since, and that of the level itself is in its row. -/
theorem envReady (h : Inside T g v a b i σ₀ σ) (hp : InProgress g i σ σ') {l : Nat}
    (hlow : g.path.low n.leafLevel ≤ l) (hl : l < (v ++ [i]).length) :
    EnvReady {ρ | ρ <:+ g.path} σ' l ((v ++ [i]).take l) (σ' (.cxts g.cxts) l) := by
  have hsub : g.path.callers ⊆ {ρ | ρ <:+ g.path} := fun ρ hρ => Path.suffix_iff.mpr (.inr hρ)
  have henv : ∀ q : Block, q.Above g.path.callers → σ' (.liveInEnv q) = σ₀ (.liveInEnv q) :=
    fun q hq => h.shared_eq hp (.liveInEnv q) hq
  have hptr : ∀ q : Block, q.Above g.path.callers → σ' (.liveOutEnv q) = σ₀ (.liveOutEnv q) :=
    fun q hq => h.shared_eq hp (.liveOutEnv q) hq
  rw [List.length_append, List.length_singleton] at hl
  -- a level above, whose environments were handed over, or the level of `g` itself
  rcases Nat.lt_succ_iff_lt_or_eq.mp hl with hl | rfl
  · have hrow := h.rows_eq hp (h.pre.length ▸ hl)
    rw [List.take_append_of_le_length hl.le]
    exact ((h.pre.suspended.env l hlow hl).congr (by rw [hrow]) (by rw [hrow]) henv hptr).mono
      hsub
  · rw [List.take_left, h.pre.length]
    refine ⟨fun hin => ?_, fun hm => ?_⟩
    · obtain ⟨q, h₁, h₂, h₃⟩ := h.pre.env.liveIn hin
      refine ⟨q, ?_, fun ρ hρ => hsub (h₂ ρ hρ), (henv q h₂).trans h₃⟩
      rw [hp.row]
      exact h.row.liveIn.trans h₁
    · refine ⟨.kids g.path, ?_, fun ρ hρ => ?_, fun hm1 => ?_⟩
      · rw [hp.row]
        exact h.row.liveOut hm
      · cases hρ
        exact List.suffix_rfl
      · rw [hp.same _ (by simp) (by simp)]
        exact h.pointers hm hm1

/-- With iteration `i` in progress, the level is suspended as the levels above
are. So a call made in the iteration finds one level more in the state in
which the activation found the others. -/
theorem suspended (hT : Mergeable n T) (h : Inside T g v a b i σ₀ σ)
    (hp : InProgress g i σ σ') (hi : i < b) :
    Suspended T {ρ | ρ <:+ g.path} g.path g.cxts (v ++ [i]) σ' where
  -- for the levels above each field is that of the activation's own precondition; for the level
  -- of `g` it is in its row
  start l hlow hl := by
    rw [List.length_append, List.length_singleton] at hl
    rcases Nat.lt_succ_iff_lt_or_eq.mp hl with hl | rfl
    · rw [h.rows_eq hp (h.pre.length ▸ hl), index_append_of_lt i hl]
      exact h.pre.suspended.start l hlow hl
    · rw [index_append_self, h.pre.length, hp.row]
  max l hlow hl := by
    rw [List.length_append, List.length_singleton] at hl
    rcases Nat.lt_succ_iff_lt_or_eq.mp hl with hl | rfl
    · rw [bound_congr (h.rows_eq hp (h.pre.length ▸ hl)), h.rows_eq hp (h.pre.length ▸ hl)]
      exact h.pre.suspended.max l hlow hl
    · rw [h.bound_eq hp, h.pre.length, hp.row]
      exact h.max
  lt l hlow hl := by
    rw [List.length_append, List.length_singleton] at hl
    rcases Nat.lt_succ_iff_lt_or_eq.mp hl with hl | rfl
    · rw [bound_congr (h.rows_eq hp (h.pre.length ▸ hl)), index_append_of_lt i hl]
      exact h.pre.suspended.lt l hlow hl
    · rw [index_append_self, h.bound_eq hp]
      exact ⟨hi, h.pre.max_lt⟩
  env l hlow hl := h.envReady hp hlow hl
  kids l hlow hl hm := by
    rw [List.length_append, List.length_singleton] at hl
    rcases Nat.lt_succ_iff_lt_or_eq.mp hl with hl | rfl
    · rw [arrays_congr (h.rows_eq hp (h.pre.length ▸ hl))]
      obtain ⟨ρ, hρ, hq⟩ := h.pre.suspended.kids l hlow hl hm
      exact ⟨ρ, Path.suffix_iff.mpr (.inr hρ), hq⟩
    · rw [h.pre.length] at hm ⊢
      exact ⟨g.path, List.suffix_rfl, h.arrays_own hp hm⟩
  fresh l hl q k hslot := by
    obtain ⟨hlt, hq, hk⟩ := hslot
    simp only [List.length_append, List.length_singleton] at hlt hq hk
    rcases Nat.lt_succ_iff_lt_or_eq.mp hlt with hlt | rfl
    · rw [arrays_congr (h.rows_eq hp (h.pre.length ▸ hlt))] at hq
      have hpend : PendingSlot n.leafLevel g.path v (σ₀ (.cxts g.cxts)) (l, q, k) :=
        ⟨hlt, hq, hk⟩
      rw [h.shared_eq hp (.reduction l q k) ⟨hl, .inr hpend⟩]
      exact h.pre.suspended.fresh l hl q k hpend
    · rw [h.pre.length] at hl hq ⊢
      rw [h.arrays_own hp (hT.liveOut _ hl)] at hq
      rw [hq, hp.same _ (by simp) (by simp)]
      exact h.fresh hl k (by omega)

/-- The task memory fits the level that is suspended. -/
theorem tmemReady (h : Inside T g v a b i σ₀ σ) (hp : InProgress g i σ σ') (hi : i < b) :
    TmemReady n (g.path.low n.leafLevel) (v ++ [i]) (σ' (.cxts g.cxts)) (σ' (.tmem g.cxts)) := by
  rw [hp.same (.tmem g.cxts) (by simp) (by simp)]
  refine ⟨h.tmem.low_le, fun l hlow hl hlt => ?_, h.tmem.chunk⟩
  rw [List.length_append, List.length_singleton] at hl
  rcases Nat.lt_succ_iff_lt_or_eq.mp hl with hl | rfl
  · rw [bound_congr (hp.rows l (h.pre.length ▸ hl)), index_append_of_lt i hl]
    exact h.tmem.empty l hlow hl hlt
  · exact absurd (h.own_empty (h.pre.length ▸ hlt)) (by omega)

/-- No activation on the stack has returned. -/
theorem alive_suffix (h : Inside T g v a b i σ₀ σ) {ρ : Path} (hρ : ρ <:+ g.path) :
    σ (.alive ρ) = true := by
  rcases Path.suffix_iff.mp hρ with rfl | hρ
  · exact h.alive
  · rw [h.same (.alive ρ) hρ]
    exact h.pre.alive ρ hρ

/-- No activation on the stack has returned at the call. -/
theorem alive_callers (h : Inside T g v a b i σ₀ σ) (hp : InProgress g i σ σ') {ρ : Path}
    (hρ : ρ <:+ g.path) : σ' (.alive ρ) = true := by
  rw [hp.same _ (by simp) (by simp)]
  exact h.alive_suffix hρ

/-- The arrays an activation reports to lie in the frame of a caller. -/
theorem liveOut_above (h : Inside T g v a b i σ₀ σ) (hm : n.numLiveOuts g.level ≠ 0) :
    g.liveOut.Above g.path.callers := by
  obtain ⟨q, h₁, h₂, -⟩ := h.pre.env.liveOut hm
  rw [h.liveOut hm, arrays_of_liveOut h₁]
  exact h₂

/-- A slot of a suspended level is one of the slots the activation was handed.
-/
theorem pendingSlot (h : Inside T g v a b i σ₀ σ) (hp : InProgress g i σ σ') {l k : Nat}
    {q : Block} (hl : l < v.length)
    (hslot : PendingSlot n.leafLevel g.path v (σ₀ (.cxts g.cxts)) (l, q, k)) :
    PendingSlot n.leafLevel g.path (v ++ [i]) (σ' (.cxts g.cxts)) (l, q, k) := by
  refine ⟨?_, ?_, hslot.2.2⟩
  · rw [List.length_append]
    exact Nat.lt_add_right _ hl
  · rw [arrays_congr (h.rows_eq hp (h.pre.length ▸ hl))]
    exact hslot.2.1

/-- The slots of the suspended levels are handed to the activation, or its
own. -/
theorem pendingSlot_owned (hT : Mergeable n T) (h : Inside T g v a b i σ₀ σ)
    (hp : InProgress g i σ σ') {l k : Nat} {q : Block} (hl : l ∈ T)
    (hslot : PendingSlot n.leafLevel g.path (v ++ [i]) (σ' (.cxts g.cxts)) (l, q, k)) :
    q.In (g.toFrame.scope n.leafLevel v (σ₀ (.cxts g.cxts))).own ∨
      (l, q, k) ∈ (g.toFrame.scope n.leafLevel v (σ₀ (.cxts g.cxts))).slots := by
  obtain ⟨hlt, hq, hk⟩ := hslot
  simp only [List.length_append, List.length_singleton] at hlt hq hk
  rcases Nat.lt_succ_iff_lt_or_eq.mp hlt with hlt | rfl
  · rw [arrays_congr (h.rows_eq hp (h.pre.length ▸ hlt))] at hq
    exact .inr (.inr ⟨hlt, hq, hk⟩)
  · rw [h.pre.length] at hl hq
    rw [h.arrays_own hp (hT.liveOut _ hl)] at hq
    rw [hq]
    exact .inl ⟨g.path, List.suffix_rfl, rfl⟩

/-! ### After a call -/

/-- The slot that `g` reports to is not handed to a call made by `g`. -/
theorem slot_not_mod {S' : Scope} (hT : Mergeable n T) (h : Inside T g v a b i σ₀ σ)
    (hown : ∀ ρ ∈ S'.own, g.path.length < ρ.length)
    (hslots : ∀ q k, g.level ∈ T → (g.level, q, k) ∈ S'.slots → q = .kids g.path)
    (hl : g.level ∈ T) : Loc.reduction g.level g.liveOut g.myIndex ∉ S'.mod T := by
  have habove := h.liveOut_above (hT.liveOut _ hl)
  rintro (hno | hin | hslot)
  · exact hno hl
  · exact (habove.mono fun ρ hρ => Path.suffix_iff.mpr (.inr hρ)).not_in hown hin
  · rw [hslots _ _ hl hslot] at habove
    exact Path.not_mem_callers g.path (habove g.path rfl)

/-- No activation on the stack has returned after a call made by `g`. -/
theorem alive_of_frame {S' : Scope} (h : Inside T g v a b i σ₀ σ) (hp : InProgress g i σ σ')
    (hown : ∀ ρ ∈ S'.own, g.path.length < ρ.length)
    (hframe : ∀ y ∈ (g.toFrame.scope n.leafLevel v (σ₀ (.cxts g.cxts))).rel T,
      y ∉ S'.mod T → s y = σ' y) {ρ : Path} (hρ : ρ <:+ g.path) : s (.alive ρ) = true := by
  have hrel : Loc.alive ρ ∈ (g.toFrame.scope n.leafLevel v (σ₀ (.cxts g.cxts))).rel T := by
    rcases Path.suffix_iff.mp hρ with rfl | hρ
    · exact .inl List.suffix_rfl
    · exact .inr hρ
  rw [hframe _ hrel fun hmod => absurd (hown ρ hmod) (by have := hρ.length_le; omega)]
  exact h.alive_callers hp hρ

/-- What a call made by `g` leaves alone among the environments and slots of
others: all but the slots of the suspended levels. The frames that the call
owns lie above that of `g`, so what is in the frame of a caller is in none of
them. -/
theorem same_of_frame {S' : Scope} (hT : Mergeable n T)
    (h : Inside T g v a b i σ₀ σ) (hp : InProgress g i σ σ')
    (hown : ∀ ρ ∈ S'.own, g.path.length < ρ.length)
    (hslots : ∀ q k, g.level ∈ T → (g.level, q, k) ∈ S'.slots → q = .kids g.path)
    (hframe : ∀ y ∈ (g.toFrame.scope n.leafLevel v (σ₀ (.cxts g.cxts))).rel T,
      y ∉ S'.mod T → s y = σ' y)
    (hkept : ∀ l ∈ T, l < g.level → ∀ q k,
      PendingSlot n.leafLevel g.path (v ++ [i]) (σ' (.cxts g.cxts)) (l, q, k) →
      s (.reduction l q k) = σ' (.reduction l q k)) :
    ∀ y ∈ (g.toFrame.scope n.leafLevel v (σ₀ (.cxts g.cxts))).shared T, s y = σ₀ y := by
  have hnotIn : ∀ q : Block, q.Above g.path.callers → ¬ q.In S'.own := fun q hq =>
    (hq.mono fun ρ hρ => Path.suffix_iff.mpr (.inr hρ)).not_in hown
  intro y hy
  rw [← h.shared_eq hp y hy]
  -- kind by kind: what is in the frame of a caller is not changed by the call, and of the slots
  -- only those of the suspended levels might be, by `hkept`
  cases y with
  | cxts c => exact hy.elim
  | tmem t => exact hy.elim
  | liveInEnv q => exact hframe _ (Scope.shared_subset _ _ hy) (hnotIn q hy)
  | liveOutEnv q => exact hframe _ (Scope.shared_subset _ _ hy) (hnotIn q hy)
  | alive ρ =>
      refine hframe _ (Scope.shared_subset _ _ hy) fun hρ => ?_
      exact hnotIn (.kids ρ) (fun ρ' hρ' => by cases hρ'; exact hy) ⟨ρ, hρ, rfl⟩
  | reduction l q k =>
      obtain ⟨hl, hq⟩ := hy
      rcases hq with ⟨hl', hq, hk⟩ | hq
      · obtain rfl : l = g.level := hl'
        have hq' : q = g.liveOut := (show q = _ from hq).trans (h.liveOut (hT.liveOut _ hl)).symm
        obtain rfl : k = g.myIndex := hk
        refine hframe _ ⟨hl, .inr (.inl ⟨rfl, hq, rfl⟩)⟩ ?_
        rw [hq']
        exact h.slot_not_mod hT hown hslots hl
      · exact hkept l hl (h.pre.length ▸ hq.1) q k (h.pendingSlot hp hq.1 hq)

/-- A call has returned that left the rows and the slots up to the level of
`g` alone, and the loop goes on. This is the one place where the invariant of
a loop is carried from an iteration to the next; the leaf loops and the loops
with a nested call both use it. -/
theorem next {S' : Scope} (hT : Mergeable n T) (h : Inside T g v a b i σ₀ σ)
    (hp : InProgress g i σ σ') (hi : i < b)
    (hown : ∀ ρ ∈ S'.own, g.path.length < ρ.length)
    (hslots : ∀ q k, g.level ∈ T → (g.level, q, k) ∈ S'.slots → q = .kids g.path)
    (hframe : ∀ y ∈ (g.toFrame.scope n.leafLevel v (σ₀ (.cxts g.cxts))).rel T,
      y ∉ S'.mod T → s y = σ' y)
    (hrows : ∀ l, l ≤ g.level → s (.cxts g.cxts) l = σ' (.cxts g.cxts) l)
    (hkept : ∀ l ∈ T, l ≤ g.level → ∀ q k,
      PendingSlot n.leafLevel g.path (v ++ [i]) (σ' (.cxts g.cxts)) (l, q, k) →
      s (.reduction l q k) = σ' (.reduction l q k))
    (hcallee : g.level < n.leafLevel →
      (s (.cxts g.cxts) (g.level + 1)).liveIn = some (.callee g.path) ∧
      (n.numLiveOuts (g.level + 1) ≠ 0 →
        (s (.cxts g.cxts) (g.level + 1)).liveOut =
          some (n.liveOutPtr (g.level + 1) (.callee g.path)) ∧
        (n.numLiveOuts (g.level + 1) ≠ 1 →
          s (.liveOutEnv (.callee g.path)) = some (.callee g.path))))
    (hlow : g.path.low n.leafLevel ≤ (s (.tmem g.cxts)).startingLevel)
    (hempty : ∀ l, g.path.low n.leafLevel ≤ l → l ≤ g.level →
      l < (s (.tmem g.cxts)).startingLevel →
      bound (σ' (.cxts g.cxts)) l ≤ index (v ++ [i]) l + 1)
    (hchunk : ChunkReady n (s (.tmem g.cxts))) : Inside T g v a b (i + 1) σ₀ s := by
  have hlen := h.pre.length
  have hlow' := h.pre.low_le_base.trans h.pre.base_le
  -- the locations of `g` itself are not in the frames that the call owns
  have hself : ∀ q : Block, q.owner = some g.path → ¬ q.In S'.own := fun q hq =>
    (Block.above_of_owner hq).not_in hown
  have hrow := hrows g.level (le_refl _)
  exact
    { pre := h.pre
      entry := h.entry
      outer := h.outer
      maxIter := h.maxIter
      liveOut := h.liveOut
      start_le := Nat.le_succ_of_le h.start_le
      le_max := .inl hi
      rows := fun l hl => (hrows l hl.le).trans (h.rows_eq hp hl)
      max := by rw [hrow, hp.row]; exact h.max
      row :=
        { liveIn := by rw [hrow, hp.row]; exact h.row.liveIn
          noLiveOut := by rw [hrow, hp.row]; exact h.row.noLiveOut
          liveOut := by rw [hrow, hp.row]; exact h.row.liveOut }
      pointers := fun hm hm1 => by
        rw [hframe (.liveOutEnv (.kids g.path)) (.inl ⟨g.path, List.suffix_rfl, rfl⟩)
          (hself _ rfl), hp.same _ (by simp) (by simp)]
        exact h.pointers hm hm1
      callee := hcallee
      fresh := fun hl k hk => by
        have hslot : PendingSlot n.leafLevel g.path (v ++ [i]) (σ' (.cxts g.cxts))
            (g.level, .kids g.path, k) := by
          refine ⟨by simp [hlen], (h.arrays_own hp (hT.liveOut _ hl)).symm, ?_⟩
          have := h.pre.base_le
          simp only
          omega
        rw [hkept g.level hl (le_refl _) _ k hslot, hp.same _ (by simp) (by simp)]
        exact h.fresh hl k hk
      same := h.same_of_frame hT hp hown hslots hframe fun l hl hlt => hkept l hl hlt.le
      tmem :=
        { low_le := hlow
          empty := fun l hl hlt hlt' => by
            rw [bound_congr (hrows l (by omega)), ← index_append_of_lt i hlt]
            exact hempty l hl (by omega) hlt'
          chunk := hchunk }
      own_empty := fun hlt => by
        have he := hempty g.level hlow' (le_refl _) hlt
        have hb : bound (σ' (.cxts g.cxts)) g.level = b := by rw [← hlen]; exact h.bound_eq hp
        have hx : index (v ++ [i]) g.level = i := by rw [← hlen, index_append_self]
        rw [hx] at he
        exact hb ▸ he
      alive := h.alive_of_frame hp hown hframe List.suffix_rfl }

end Inside

end HeartbeatCompiler
