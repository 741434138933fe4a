import HeartbeatCompiler.ForkJoin.Race
import HeartbeatCompiler.ForkJoin.Shuffle
import Mathlib.Data.Set.Disjoint
import Mathlib.Order.CompletePartialOrder
import Mathlib.Data.Set.Lattice

/-!
# `HeartbeatCompiler.ForkJoin.Wp`: total correctness under interference

`Wp body ok good live free rel mod c σ Q` says of the configuration `c`, started in the store `σ`:
whatever the environment does between the steps to the locations outside `rel`, every run
of `c` is finite, never gets stuck, changes only locations in `mod`, emits only `good`
events, and returns with a result, a store and a trace that satisfy `Q`. Its tasks access
only `live` locations and race on none outside `free`.

Nothing is promised about what follows an event that is not `ok`: with a nontrivial `ok`
the statement is about the runs whose events all satisfy it.

The predicate is inductive, so a proof of it contains the proof of termination. Each
operation has one rule, in the order in which a program performs it, and the rules never
mention the interference: a location in `rel` keeps its contents until the task itself
changes it. `Wp.par` is the rule for a fork. Its side conditions say that neither branch
may change what the other one relies on.

The last section is adequacy: what `Wp` says about the runs of `Steps`.
-/

set_option autoImplicit false

namespace HeartbeatCompiler.ForkJoin

variable {S : Sig}

/-- The two stores have the same contents in `X`. It is what a task may rely
on when others have taken steps. -/
def Agree (X : Set S.Loc) (σ σ' : S.Store) : Prop := ∀ x ∈ X, σ x = σ' x

namespace Agree

variable {X Y : Set S.Loc} {σ σ' σ'' : S.Store}

/-- A store agrees with itself. -/
theorem refl (X : Set S.Loc) (σ : S.Store) : Agree X σ σ := fun _ _ => rfl

/-- Agreement goes both ways. -/
theorem symm (h : Agree X σ σ') : Agree X σ' σ := fun x hx => (h x hx).symm

/-- Agreement is transitive. -/
theorem trans (h : Agree X σ σ') (h' : Agree X σ' σ'') : Agree X σ σ'' :=
  fun x hx => (h x hx).trans (h' x hx)

/-- Stores that agree on more agree on less. -/
theorem mono (h : Agree Y σ σ') (hXY : X ⊆ Y) : Agree X σ σ' := fun x hx => h x (hXY hx)

/-- A change outside `X` is not seen in `X`. -/
theorem of_unchanged {M : Set S.Loc} (h : ∀ x ∉ M, σ' x = σ x) (hM : Disjoint M X) :
    Agree X σ σ' :=
  fun x hx => (h x fun hm => Set.disjoint_left.mp hM hm hx).symm

variable [DecidableEq S.Loc]

/-- The same change on both sides keeps the agreement. -/
theorem update (h : Agree X σ σ') (x : S.Loc) (v : S.Val x) :
    Agree X (Function.update σ x v) (Function.update σ' x v) := by
  intro y hy
  by_cases hxy : y = x
  · subst hxy
    simp
  · simp [Function.update_of_ne hxy, h y hy]

/-- A change outside `X` keeps the agreement. -/
theorem update_right (h : Agree X σ σ') {x : S.Loc} (hx : x ∉ X) (v : S.Val x) :
    Agree X σ (Function.update σ' x v) := by
  intro y hy
  have hne : y ≠ x := fun e => hx (e ▸ hy)
  rw [Function.update_of_ne hne, h y hy]

end Agree

variable [DecidableEq S.Loc]

/-- A postcondition: on the result, the store at the return and the trace of
the run. -/
abbrev Sig.Post (S : Sig) : Type := S.Res → S.Store → S.Trace → Prop

/-- What is left of a postcondition after the trace `τ`, which has been
emitted. -/
def Sig.Post.after (Q : S.Post) (τ : S.Trace) : S.Post := fun v s δ => Q v s (τ ++ δ)

omit [DecidableEq S.Loc] in
/-- Nothing was run yet. -/
@[simp]
theorem Sig.Post.after_nil (Q : S.Post) : Q.after [] = Q := rfl

omit [DecidableEq S.Loc] in
/-- One trace after another. -/
@[simp]
theorem Sig.Post.after_after (Q : S.Post) (τ τ' : S.Trace) :
    Sig.Post.after (Q.after τ) τ' = Q.after (τ ++ τ') := by
  funext v s δ
  simp only [Sig.Post.after, List.append_assoc]

/-- Total correctness of a configuration under interference outside `rel`. No
task is at a fault, the next accesses are to `rel` and `free`, and what is
changed lies in `mod`; these hold again after every step, in whatever store
that agrees on `rel` the step is taken, and being inductive the predicate says
that the steps come to an end. Only runs whose events are `ok` count, and
their events are shown to be `good` with the store they are emitted in. A
location that is accessed is `live`. -/
inductive Wp (body : S.Proc → Prog S S.Res) (ok : S.Event → Prop)
    (good : S.Event × S.Store → Prop) (live : S.Store → S.Loc → Prop)
    (free rel mod : Set S.Loc) :
    Conf S → S.Store → S.Post → Prop
  | intro {c : Conf S} {σ : S.Store} {Q : S.Post}
      (safe : ¬ c.Faulty)
      (confined : c.Confined free rel mod)
      (alive : ∀ σ', Agree rel σ σ' → ∀ x, c.Accesses x → live σ' x)
      (done : ∀ σ' v, Agree rel σ σ' → c = .run (.ret v) → Q v σ' [])
      (keep : ∀ σ' ℓ c' σ'', Agree rel σ σ' → Step body c σ' ℓ c' σ'' → (∀ e ∈ ℓ, ok e.1) →
        (∀ x ∉ mod, σ'' x = σ' x) ∧ ∀ e ∈ ℓ, good e)
      (next : ∀ σ' ℓ c' σ'', Agree rel σ σ' → Step body c σ' ℓ c' σ'' → (∀ e ∈ ℓ, ok e.1) →
        Wp body ok good live free rel mod c' σ'' (Q.after ℓ)) :
      Wp body ok good live free rel mod c σ Q

variable {body : S.Proc → Prog S S.Res} {ok : S.Event → Prop}
  {good : S.Event × S.Store → Prop} {live : S.Store → S.Loc → Prop} {free rel mod : Set S.Loc}

namespace Wp

/-! ### Structural rules -/

/-- The environment may have acted before the first step. -/
theorem congr {c : Conf S} {σ σ₁ : S.Store} {Q : S.Post}
    (h : Wp body ok good live free rel mod c σ Q) (hσ : Agree rel σ σ₁) :
    Wp body ok good live free rel mod c σ₁ Q := by
  obtain ⟨safe, confined, alive, done, keep, next⟩ := h
  exact ⟨safe, confined, fun σ' h' => alive σ' (hσ.trans h'),
    fun σ' v h' => done σ' v (hσ.trans h'),
    fun σ' ℓ c' σ'' h' => keep σ' ℓ c' σ'' (hσ.trans h'),
    fun σ' ℓ c' σ'' h' => next σ' ℓ c' σ'' (hσ.trans h')⟩

/-- The rule of consequence. -/
theorem mono {c : Conf S} {σ : S.Store} {Q : S.Post} (h : Wp body ok good live free rel mod c σ Q) :
    ∀ {Q' : S.Post}, (∀ v s δ, Q v s δ → Q' v s δ) → Wp body ok good live free rel mod c σ Q' := by
  induction h with
  | intro safe confined alive done keep _ ih =>
      intro Q' hQ
      exact ⟨safe, confined, alive, fun σ' v h hc => hQ _ _ _ (done σ' v h hc), keep,
        fun σ' ℓ c' σ'' h hs hok => ih σ' ℓ c' σ'' h hs hok fun v s δ => hQ v s (ℓ ++ δ)⟩

/-- A result is returned from every store that looks the same to the task. -/
theorem stable {c : Conf S} {σ : S.Store} {Q : S.Post}
    (h : Wp body ok good live free rel mod c σ Q) :
    Wp body ok good live free rel mod c σ fun v s δ => ∀ s', Agree rel s s' → Q v s' δ := by
  induction h with
  | intro safe confined alive done keep _ ih =>
      exact ⟨safe, confined, alive, fun σ' v h hc s' hs => done s' v (h.trans hs) hc, keep, ih⟩

/-- The frame rule: what the task relies on and may not change stays as it
was. -/
theorem frame {rel' mod' : Set S.Loc} {c : Conf S} {σ : S.Store} {Q : S.Post}
    (h : Wp body ok good live free rel mod c σ Q) (hrel : rel ⊆ rel') (hmod : mod ⊆ mod') :
    Wp body ok good live free rel' mod' c σ
      fun v s δ => Q v s δ ∧ ∀ x ∈ rel', x ∉ mod → s x = σ x := by
  -- the store at the start has to be fixed for the induction, since each step moves on to
  -- another one
  suffices hgen : ∀ σ₀ : S.Store, (∀ x ∈ rel', x ∉ mod → σ x = σ₀ x) →
      Wp body ok good live free rel' mod' c σ
        fun v s δ => Q v s δ ∧ ∀ x ∈ rel', x ∉ mod → s x = σ₀ x from
    hgen σ fun _ _ _ => rfl
  induction h with
  | intro safe confined alive done keep _ ih =>
      intro σ₀ hσ₀
      refine ⟨safe, confined.mono hrel hmod, fun σ' h => alive σ' (h.mono hrel), ?_, ?_, ?_⟩
      · intro σ' v h hc
        exact ⟨done σ' v (h.mono hrel) hc,
          fun x hx hm => (h x hx).symm.trans (hσ₀ x hx hm)⟩
      · intro σ' ℓ c' σ'' h hs hok
        obtain ⟨hk, hg⟩ := keep σ' ℓ c' σ'' (h.mono hrel) hs hok
        exact ⟨fun x hx => hk x fun hm => hx (hmod hm), hg⟩
      · intro σ' ℓ c' σ'' h hs hok
        have hk := (keep σ' ℓ c' σ'' (h.mono hrel) hs hok).1
        exact ih σ' ℓ c' σ'' (h.mono hrel) hs hok σ₀ fun x hx hm =>
          (hk x hm).trans ((h x hx).symm.trans (hσ₀ x hx hm))

/-- Sequencing: the continuation is run from where the first part returned,
with what is left of the postcondition after its trace. -/
theorem bind {c : Conf S} {σ : S.Store} {Q : S.Post} {f : S.Res → Prog S S.Res}
    (h : Wp body ok good live free rel mod c σ fun v s δ =>
      Wp body ok good live free rel mod (.run (f v)) s (Q.after δ)) :
    Wp body ok good live free rel mod (c.bind f) σ Q := by
  generalize hP : (fun v s δ => Wp body ok good live free rel mod (.run (f v)) s (Q.after δ) :
    S.Post) = P at h
  induction h generalizing Q with
  | @intro c σ P safe confined alive done keep next ih =>
      subst hP
      -- either the first part has returned, or the step is one of its own steps
      by_cases hc : ∃ v, c = .run (.ret v)
      · obtain ⟨v, rfl⟩ := hc
        exact done σ v (.refl _ _) rfl
      · have hc' : ∀ v, c ≠ .run (.ret v) := fun v e => hc ⟨v, e⟩
        refine ⟨?_, confined.bind hc' f,
          fun σ' ha x hx => alive σ' ha x (Conf.accesses_of_bind hc' hx), ?_, ?_, ?_⟩
        · intro hf
          apply safe
          cases c with
          | run p => cases p with
            | ret a => exact absurd rfl (hc' a)
            | fault => trivial
            | _ => exact hf
          | par c d k => exact hf
        · intro σ' v _ hv
          cases c with
          | run p => cases p with
            | ret a => exact absurd rfl (hc' a)
            | _ => cases hv
          | par c d k => cases hv
        · intro σ' ℓ c'' σ'' ha hs hok
          obtain ⟨c', hs', rfl⟩ := hs.of_bind hc'
          exact keep σ' ℓ c' σ'' ha hs' hok
        · intro σ' ℓ c'' σ'' ha hs hok
          obtain ⟨c', hs', rfl⟩ := hs.of_bind hc'
          refine ih σ' ℓ c' σ'' ha hs' hok ?_
          funext v s δ
          rw [Sig.Post.after_after]
          rfl

/-! ### One rule for each operation -/

/-- A program that returns. -/
theorem ret {v : S.Res} {σ : S.Store} {Q : S.Post} (h : ∀ σ', Agree rel σ σ' → Q v σ' []) :
    Wp body ok good live free rel mod (.run (.ret v)) σ Q := by
  refine ⟨fun hf => hf, .of_silent (by simp), fun σ' _ x hx => hx.elim, ?_, ?_, ?_⟩
  · intro σ' w ha hv
    cases hv
    exact h σ' ha
  · intro σ' ℓ c' σ'' _ hs
    cases hs
  · intro σ' ℓ c' σ'' _ hs
    cases hs

/-- An access to a location that only this task changes. -/
theorem access {x : S.Loc} {f : S.Val x → S.Val x} {k : S.Val x → Prog S S.Res}
    {σ : S.Store} {Q : S.Post} (hrel : x ∈ rel) (hmod : x ∈ mod)
    (hlive : ∀ σ', Agree rel σ σ' → live σ' x)
    (h : Wp body ok good live free rel mod (.run (k (σ x))) (Function.update σ x (f (σ x))) Q) :
    Wp body ok good live free rel mod (.run (.access x f k)) σ Q := by
  refine ⟨fun hf => hf, .access (.inl hrel) fun _ => hmod, fun σ' ha y hy => hy ▸ hlive σ' ha,
    fun σ' v _ hv => (by cases hv), ?_, ?_⟩
  · intro σ' ℓ c' σ'' _ hs _
    cases hs
    refine ⟨fun y hy => ?_, fun e he => (by cases he)⟩
    have hne : y ≠ x := fun e => hy (e ▸ hmod)
    exact Function.update_of_ne hne _ _
  · intro σ' ℓ c' σ'' ha hs _
    cases hs
    rw [← ha x hrel]
    exact h.congr (ha.update x _)

/-- An access to a location that others may change as well: nothing is known
of what it returns, and nothing can be concluded from what it stores. -/
theorem access_unknown {x : S.Loc} {f : S.Val x → S.Val x} {k : S.Val x → Prog S S.Res}
    {σ : S.Store} {Q : S.Post} (hrel : x ∉ rel) (hfree : x ∈ free)
    (hmod : x ∈ mod) (hlive : ∀ σ', Agree rel σ σ' → live σ' x)
    (h : ∀ v, Wp body ok good live free rel mod (.run (k v)) σ Q) :
    Wp body ok good live free rel mod (.run (.access x f k)) σ Q := by
  refine ⟨fun hf => hf, .access (.inr hfree) fun _ => hmod, fun σ' ha y hy => hy ▸ hlive σ' ha,
    fun σ' v _ hv => (by cases hv), ?_, ?_⟩
  · intro σ' ℓ c' σ'' _ hs _
    cases hs
    refine ⟨fun y hy => ?_, fun e he => (by cases he)⟩
    have hne : y ≠ x := fun e => hy (e ▸ hmod)
    exact Function.update_of_ne hne _ _
  · intro σ' ℓ c' σ'' ha hs _
    cases hs
    exact (h _).congr (ha.update_right hrel _)

/-- Reading a location that the environment leaves alone. -/
theorem read {x : S.Loc} {k : S.Val x → Prog S S.Res} {σ : S.Store} {Q : S.Post}
    (hrel : x ∈ rel) (hlive : ∀ σ', Agree rel σ σ' → live σ' x)
    (h : Wp body ok good live free rel mod (.run (k (σ x))) σ Q) :
    Wp body ok good live free rel mod (.run (.access x id k)) σ Q := by
  refine ⟨fun hf => hf, .access (.inl hrel) fun hf => absurd rfl hf,
    fun σ' ha y hy => hy ▸ hlive σ' ha, fun σ' v _ hv => (by cases hv), ?_, ?_⟩
  · intro σ' ℓ c' σ'' _ hs _
    cases hs
    exact ⟨fun y _ => by simp, fun e he => (by cases he)⟩
  · intro σ' ℓ c' σ'' ha hs _
    cases hs
    rw [← ha x hrel]
    refine h.congr ?_
    simpa [ha x hrel] using ha

/-- Any answer. -/
theorem ask {k : Nat → Prog S S.Res} {σ : S.Store} {Q : S.Post}
    (h : ∀ n, Wp body ok good live free rel mod (.run (k n)) σ Q) :
    Wp body ok good live free rel mod (.run (.ask k)) σ Q := by
  refine ⟨fun hf => hf, .of_silent (by simp), fun σ' _ x hx => hx.elim,
    fun σ' v _ hv => (by cases hv), ?_, ?_⟩
  · intro σ' ℓ c' σ'' _ hs _
    cases hs
    exact ⟨fun _ _ => rfl, fun e he => (by cases he)⟩
  · intro σ' ℓ c' σ'' ha hs _
    cases hs
    exact (h _).congr ha

/-- An event that may happen is good in the store in which it happens. -/
theorem emit {e : S.Event} {k : Prog S S.Res} {σ : S.Store} {Q : S.Post}
    (h : ok e → ∀ σ', Agree rel σ σ' → good (e, σ') ∧
      Wp body ok good live free rel mod (.run k) σ (Q.after [(e, σ')])) :
    Wp body ok good live free rel mod (.run (.emit e k)) σ Q := by
  refine ⟨fun hf => hf, .of_silent (by simp), fun σ' _ x hx => hx.elim,
    fun σ' v _ hv => (by cases hv), ?_, ?_⟩
  · intro σ' ℓ c' σ'' ha hs hok
    cases hs
    refine ⟨fun _ _ => rfl, fun e' he' => ?_⟩
    rw [List.mem_singleton] at he'
    subst he'
    exact (h (hok _ (List.mem_singleton_self _)) _ ha).1
  · intro σ' ℓ c' σ'' ha hs hok
    cases hs
    exact (h (hok _ (List.mem_singleton_self _)) _ ha).2.congr ha

/-- A call runs the body of the procedure, then the continuation. -/
theorem call {p : S.Proc} {k : S.Res → Prog S S.Res} {σ : S.Store} {Q : S.Post}
    (h : Wp body ok good live free rel mod (.run (body p)) σ fun v s δ =>
      Wp body ok good live free rel mod (.run (k v)) s (Q.after δ)) :
    Wp body ok good live free rel mod (.run (.call p k)) σ Q := by
  refine ⟨fun hf => hf, .of_silent (by simp), fun σ' _ x hx => hx.elim,
    fun σ' v _ hv => (by cases hv), ?_, ?_⟩
  · intro σ' ℓ c' σ'' _ hs _
    cases hs
    exact ⟨fun _ _ => rfl, fun e he => (by cases he)⟩
  · intro σ' ℓ c' σ'' ha hs _
    cases hs
    exact (Wp.bind (c := .run (body p)) h).congr ha

/-- Two branches side by side. Neither changes what the other relies on, so
each runs as if it were alone, and the traces of the two are merged. -/
theorem par {rel₁ rel₂ mod₁ mod₂ : Set S.Loc} (hr₁ : rel₁ ⊆ rel) (hr₂ : rel₂ ⊆ rel)
    (hm₁ : mod₁ ⊆ mod) (hm₂ : mod₂ ⊆ mod) (h₁₂ : Disjoint mod₁ rel₂)
    (h₂₁ : Disjoint mod₂ rel₁) {c d : Conf S} {k : Prog S S.Res} {σ : S.Store}
    {Q₁ Q₂ Q : S.Post} (hc : Wp body ok good live free rel₁ mod₁ c σ Q₁)
    (hd : Wp body ok good live free rel₂ mod₂ d σ Q₂)
    (hk : ∀ v w s δ₁ δ₂ δ, Q₁ v s δ₁ → Q₂ w s δ₂ → Shuffle δ₁ δ₂ δ →
      (∀ x ∈ rel, x ∉ mod₁ → x ∉ mod₂ → s x = σ x) →
      Wp body ok good live free rel mod (.run k) s (Q.after δ)) :
    Wp body ok good live free rel mod (.par c d k) σ Q := by
  suffices hgen : ∀ σ₀ : S.Store, (∀ x ∈ rel, x ∉ mod₁ → x ∉ mod₂ → σ x = σ₀ x) →
      (∀ v w s δ₁ δ₂ δ, Q₁ v s δ₁ → Q₂ w s δ₂ → Shuffle δ₁ δ₂ δ →
        (∀ x ∈ rel, x ∉ mod₁ → x ∉ mod₂ → s x = σ₀ x) →
        Wp body ok good live free rel mod (.run k) s (Q.after δ)) →
      Wp body ok good live free rel mod (.par c d k) σ Q from
    hgen σ (fun _ _ _ _ => rfl) hk
  clear hk
  -- The outer induction is on the left branch, the inner one on the right branch.
  induction hc generalizing d Q₂ Q with
  | @intro c σ Q₁ safe₁ confined₁ alive₁ done₁ keep₁ next₁ ih₁ =>
      induction hd generalizing Q with
      | @intro d σ Q₂ safe₂ confined₂ alive₂ done₂ keep₂ next₂ ih₂ =>
          intro σ₀ hσ₀ hk
          refine ⟨fun hf => hf.elim safe₁ safe₂,
            .par hr₁ hr₂ hm₁ hm₂ h₁₂ h₂₁ confined₁ confined₂ k,
            fun σ' ha x hx => hx.elim (alive₁ σ' (ha.mono hr₁) x) (alive₂ σ' (ha.mono hr₂) x),
            fun σ' v _ hv => (by cases hv), ?_, ?_⟩
          · intro σ' ℓ c' σ'' ha hs hok
            cases hs with
            | left _ _ hs =>
                obtain ⟨hkeep, hg⟩ := keep₁ σ' ℓ _ σ'' (ha.mono hr₁) hs hok
                exact ⟨fun x hx => hkeep x fun hm => hx (hm₁ hm), hg⟩
            | right _ _ hs =>
                obtain ⟨hkeep, hg⟩ := keep₂ σ' ℓ _ σ'' (ha.mono hr₂) hs hok
                exact ⟨fun x hx => hkeep x fun hm => hx (hm₂ hm), hg⟩
            | join => exact ⟨fun _ _ => rfl, fun e he => (by cases he)⟩
          · intro σ' ℓ c' σ'' ha hs hok
            cases hs with
            | left _ _ hs =>
                have hkeep := (keep₁ σ' ℓ _ σ'' (ha.mono hr₁) hs hok).1
                have hd : Wp body ok good live free rel₂ mod₂ d σ Q₂ :=
                  Wp.intro safe₂ confined₂ alive₂ done₂ keep₂ next₂
                have hd' : Wp body ok good live free rel₂ mod₂ d σ'' Q₂ :=
                  hd.congr ((ha.mono hr₂).trans (.of_unchanged hkeep h₁₂))
                refine ih₁ σ' ℓ _ σ'' (ha.mono hr₁) hs hok hd' σ₀ ?_ ?_
                · intro x hx hx₁ hx₂
                  rw [hkeep x hx₁, ← ha x hx, hσ₀ x hx hx₁ hx₂]
                · intro v w s δ₁ δ₂ δ hQ₁ hQ₂ hsh hs₀
                  refine (hk v w s (ℓ ++ δ₁) δ₂ (ℓ ++ δ) hQ₁ hQ₂ (hsh.append_left ℓ) hs₀).mono
                    fun u s' δ' h => ?_
                  simpa only [Sig.Post.after, List.append_assoc] using h
            | right _ _ hs =>
                have hkeep := (keep₂ σ' ℓ _ σ'' (ha.mono hr₂) hs hok).1
                have hag : Agree rel₁ σ σ'' :=
                  (ha.mono hr₁).trans (.of_unchanged hkeep h₂₁)
                refine ih₂ σ' ℓ _ σ'' (ha.mono hr₂) hs hok
                  (fun σ₁ h => alive₁ σ₁ (hag.trans h))
                  (fun σ₁ v h hc => done₁ σ₁ v (hag.trans h) hc)
                  (fun σ₁ ℓ₁ c₁ σ₂ h hs hok => keep₁ σ₁ ℓ₁ c₁ σ₂ (hag.trans h) hs hok)
                  (fun σ₁ ℓ₁ c₁ σ₂ h hs hok => next₁ σ₁ ℓ₁ c₁ σ₂ (hag.trans h) hs hok)
                  (fun σ₁ ℓ₁ c₁ σ₂ h hs hok => ih₁ σ₁ ℓ₁ c₁ σ₂ (hag.trans h) hs hok)
                  σ₀ ?_ ?_
                · intro x hx hx₁ hx₂
                  rw [hkeep x hx₂, ← ha x hx, hσ₀ x hx hx₁ hx₂]
                · intro v w s δ₁ δ₂ δ hQ₁ hQ₂ hsh hs₀
                  refine (hk v w s δ₁ (ℓ ++ δ₂) (ℓ ++ δ) hQ₁ hQ₂ (hsh.append_right ℓ) hs₀).mono
                    fun u s' δ' h => ?_
                  simpa only [Sig.Post.after, List.append_assoc] using h
            | join a b =>
                refine (hk a b _ [] [] [] (done₁ _ a (ha.mono hr₁) rfl)
                  (done₂ _ b (ha.mono hr₂) rfl) .done ?_).mono fun u s' δ' h => h
                intro x hx hx₁ hx₂
                rw [← ha x hx, hσ₀ x hx hx₁ hx₂]

/-- A fork starts its two branches and goes on after the join. -/
theorem fork {rel₁ rel₂ mod₁ mod₂ : Set S.Loc} (hr₁ : rel₁ ⊆ rel) (hr₂ : rel₂ ⊆ rel)
    (hm₁ : mod₁ ⊆ mod) (hm₂ : mod₂ ⊆ mod) (h₁₂ : Disjoint mod₁ rel₂)
    (h₂₁ : Disjoint mod₂ rel₁) {p q : S.Proc} {k : Prog S S.Res} {σ : S.Store}
    {Q₁ Q₂ Q : S.Post} (hp : Wp body ok good live free rel₁ mod₁ (.run (body p)) σ Q₁)
    (hq : Wp body ok good live free rel₂ mod₂ (.run (body q)) σ Q₂)
    (hk : ∀ v w s δ₁ δ₂ δ, Q₁ v s δ₁ → Q₂ w s δ₂ → Shuffle δ₁ δ₂ δ →
      (∀ x ∈ rel, x ∉ mod₁ → x ∉ mod₂ → s x = σ x) →
      Wp body ok good live free rel mod (.run k) s (Q.after δ)) :
    Wp body ok good live free rel mod (.run (.fork p q k)) σ Q := by
  refine ⟨fun hf => hf, .of_silent (by simp), fun σ' _ x hx => hx.elim,
    fun σ' v _ hv => (by cases hv), ?_, ?_⟩
  · intro σ' ℓ c' σ'' _ hs _
    cases hs
    exact ⟨fun _ _ => rfl, fun e he => (by cases he)⟩
  · intro σ' ℓ c' σ'' ha hs _
    cases hs
    exact (Wp.par hr₁ hr₂ hm₁ hm₂ h₁₂ h₂₁ hp hq hk).congr ha

/-! ### The rules in a `do` block -/

section block

variable {α : Type} {σ : S.Store} {Q : S.Post}

/-- Reading a location that nobody else changes. -/
theorem read_bind {x : S.Loc} {k : S.Val x → Prog S S.Res} (hrel : x ∈ rel)
    (hlive : ∀ σ', Agree rel σ σ' → live σ' x)
    (h : Wp body ok good live free rel mod (.run (k (σ x))) σ Q) :
    Wp body ok good live free rel mod (.run (Prog.read x >>= k)) σ Q :=
  read hrel hlive h

/-- Changing a location that nobody else changes. -/
theorem modify_bind {x : S.Loc} {f : S.Val x → S.Val x} {k : PUnit → Prog S S.Res}
    (hrel : x ∈ rel) (hmod : x ∈ mod) (hlive : ∀ σ', Agree rel σ σ' → live σ' x)
    (h : Wp body ok good live free rel mod (.run (k ⟨⟩)) (Function.update σ x (f (σ x))) Q) :
    Wp body ok good live free rel mod (.run (Prog.modify x f >>= k)) σ Q :=
  access hrel hmod hlive h

/-- Changing a location that others may change: its value is not known
afterwards. -/
theorem modify_unknown_bind {x : S.Loc} {f : S.Val x → S.Val x} {k : PUnit → Prog S S.Res}
    (hrel : x ∉ rel) (hfree : x ∈ free) (hmod : x ∈ mod)
    (hlive : ∀ σ', Agree rel σ σ' → live σ' x)
    (h : Wp body ok good live free rel mod (.run (k ⟨⟩)) σ Q) :
    Wp body ok good live free rel mod (.run (Prog.modify x f >>= k)) σ Q :=
  access_unknown hrel hfree hmod hlive fun _ => h

/-- Writing a location that nobody else changes. -/
theorem write_bind {x : S.Loc} {v : S.Val x} {k : PUnit → Prog S S.Res}
    (hrel : x ∈ rel) (hmod : x ∈ mod) (hlive : ∀ σ', Agree rel σ σ' → live σ' x)
    (h : Wp body ok good live free rel mod (.run (k ⟨⟩)) (Function.update σ x v) Q) :
    Wp body ok good live free rel mod (.run (Prog.write x v >>= k)) σ Q :=
  access hrel hmod hlive h

/-- Reading and changing a location that nobody else changes. -/
theorem fetch_bind {x : S.Loc} {f : S.Val x → S.Val x} {k : S.Val x → Prog S S.Res}
    (hrel : x ∈ rel) (hmod : x ∈ mod) (hlive : ∀ σ', Agree rel σ σ' → live σ' x)
    (h : Wp body ok good live free rel mod (.run (k (σ x))) (Function.update σ x (f (σ x))) Q) :
    Wp body ok good live free rel mod (.run (Prog.fetch x f >>= k)) σ Q :=
  access hrel hmod hlive h

/-- Reading and changing a location that others may change: the value read can
be any. -/
theorem fetch_unknown_bind {x : S.Loc} {f : S.Val x → S.Val x} {k : S.Val x → Prog S S.Res}
    (hrel : x ∉ rel) (hfree : x ∈ free) (hmod : x ∈ mod)
    (hlive : ∀ σ', Agree rel σ σ' → live σ' x)
    (h : ∀ v, Wp body ok good live free rel mod (.run (k v)) σ Q) :
    Wp body ok good live free rel mod (.run (Prog.fetch x f >>= k)) σ Q :=
  access_unknown hrel hfree hmod hlive h

/-- A value that is there is loaded. -/
theorem load_bind {o : Option α} {a : α} {k : α → Prog S S.Res} (ho : o = some a)
    (h : Wp body ok good live free rel mod (.run (k a)) σ Q) :
    Wp body ok good live free rel mod (.run (Prog.load o >>= k)) σ Q := by
  subst ho
  exact h

/-- Any answer of a poll. -/
theorem answer_bind {k : Nat → Prog S S.Res}
    (h : ∀ n, Wp body ok good live free rel mod (.run (k n)) σ Q) :
    Wp body ok good live free rel mod (.run (Prog.answer >>= k)) σ Q :=
  ask h

/-- An event, from any store that looks the same. -/
theorem log_bind {e : S.Event} {k : PUnit → Prog S S.Res}
    (h : ok e → ∀ σ', Agree rel σ σ' → good (e, σ') ∧
      Wp body ok good live free rel mod (.run (k ⟨⟩)) σ (Q.after [(e, σ')])) :
    Wp body ok good live free rel mod (.run (Prog.log e >>= k)) σ Q :=
  emit h

/-- A call of a procedure that needs and changes less: the rest stays as it
was. -/
theorem invoke_bind {rel₁ mod₁ : Set S.Loc} (hrel : rel₁ ⊆ rel) (hmod : mod₁ ⊆ mod)
    {p : S.Proc} {k : S.Res → Prog S S.Res} {Q₁ : S.Post}
    (hp : Wp body ok good live free rel₁ mod₁ (.run (body p)) σ Q₁)
    (hk : ∀ v s δ, Q₁ v s δ → (∀ x ∈ rel, x ∉ mod₁ → s x = σ x) →
      Wp body ok good live free rel mod (.run (k v)) s (Q.after δ)) :
    Wp body ok good live free rel mod (.run (Prog.invoke p >>= k)) σ Q :=
  call ((hp.frame hrel hmod).mono fun v s δ h => hk v s δ h.1 h.2)

/-- A tail call has the postcondition of the procedure. -/
theorem invoke {p : S.Proc} (h : Wp body ok good live free rel mod (.run (body p)) σ Q) :
    Wp body ok good live free rel mod (.run (Prog.invoke p)) σ Q := by
  refine call (h.stable.mono fun v s δ hQ => ret fun s' hs => ?_)
  simpa only [Sig.Post.after, List.append_nil] using hQ s' hs

/-- Two tasks side by side. Neither changes what the other one relies on, so
each is correct under the interference of the other; at the join the traces
are merged. -/
theorem fork2join_bind {rel₁ rel₂ mod₁ mod₂ : Set S.Loc} (hr₁ : rel₁ ⊆ rel) (hr₂ : rel₂ ⊆ rel)
    (hm₁ : mod₁ ⊆ mod) (hm₂ : mod₂ ⊆ mod) (h₁₂ : Disjoint mod₁ rel₂)
    (h₂₁ : Disjoint mod₂ rel₁) {p q : S.Proc} {k : PUnit → Prog S S.Res}
    {Q₁ Q₂ : S.Post} (hp : Wp body ok good live free rel₁ mod₁ (.run (body p)) σ Q₁)
    (hq : Wp body ok good live free rel₂ mod₂ (.run (body q)) σ Q₂)
    (hk : ∀ v w s δ₁ δ₂ δ, Q₁ v s δ₁ → Q₂ w s δ₂ → Shuffle δ₁ δ₂ δ →
      (∀ x ∈ rel, x ∉ mod₁ → x ∉ mod₂ → s x = σ x) →
      Wp body ok good live free rel mod (.run (k ⟨⟩)) s (Q.after δ)) :
    Wp body ok good live free rel mod (.run (Prog.fork2join p q >>= k)) σ Q :=
  fork hr₁ hr₂ hm₁ hm₂ h₁₂ h₂₁ hp hq hk

end block

/-! ### Adequacy -/

section adequacy

variable {c c' : Conf S} {σ σ' : S.Store} {τ : S.Trace} {Q : S.Post}

/-- What is left of a correct configuration after some steps is correct. -/
theorem steps (h : Wp body ok good live free rel mod c σ Q) (hs : Steps body c σ τ c' σ')
    (hok : ∀ e ∈ τ, ok e.1) :
    Wp body ok good live free rel mod c' σ' (Q.after τ) := by
  induction hs generalizing Q with
  | refl => exact h
  | @head c c₁ c' σ σ₁ σ' ℓ τ hs _ ih =>
      obtain ⟨_, _, _, _, _, next⟩ := h
      have h₁ := ih (next σ ℓ c₁ σ₁ (.refl _ _) hs fun e he => hok e (by simp [he]))
        fun e he => hok e (by simp [he])
      rwa [Sig.Post.after_after] at h₁

/-- Every event of a run is good. -/
theorem good_of_steps (h : Wp body ok good live free rel mod c σ Q) (hs : Steps body c σ τ c' σ')
    (hok : ∀ e ∈ τ, ok e.1) : ∀ e ∈ τ, good e := by
  induction hs generalizing Q with
  | refl => exact fun e he => absurd he (by simp)
  | @head c c₁ c' σ σ₁ σ' ℓ τ hs _ ih =>
      obtain ⟨_, _, _, _, keep, next⟩ := h
      have hℓ : ∀ e ∈ ℓ, ok e.1 := fun e he => hok e (by simp [he])
      intro e he
      rcases List.mem_append.mp he with he | he
      · exact (keep σ ℓ c₁ σ₁ (.refl _ _) hs hℓ).2 e he
      · exact ih (next σ ℓ c₁ σ₁ (.refl _ _) hs hℓ) (fun e he => hok e (by simp [he])) e he

/-- No run gets stuck. -/
theorem not_faulty (h : Wp body ok good live free rel mod c σ Q) (hs : Steps body c σ τ c' σ')
    (hok : ∀ e ∈ τ, ok e.1) : ¬ c'.Faulty := by
  obtain ⟨safe, _, _, _, _, _⟩ := h.steps hs hok
  exact safe

/-- No run reaches a race outside `free`. -/
theorem free_of_race (h : Wp body ok good live free rel mod c σ Q) (hs : Steps body c σ τ c' σ')
    (hok : ∀ e ∈ τ, ok e.1) {x : S.Loc} (hx : c'.Race x) : x ∈ free := by
  obtain ⟨_, confined, _, _, _, _⟩ := h.steps hs hok
  exact confined.race x hx

/-- What is accessed next is live. -/
theorem live_of_accesses (h : Wp body ok good live free rel mod c σ Q)
    (hs : Steps body c σ τ c' σ') (hok : ∀ e ∈ τ, ok e.1) {x : S.Loc} (hx : c'.Accesses x) :
    live σ' x := by
  obtain ⟨_, _, alive, _, _, _⟩ := h.steps hs hok
  exact alive σ' (.refl _ _) x hx

/-- A run that has returned satisfies the postcondition. -/
theorem finished {v : S.Res} (h : Wp body ok good live free rel mod c σ Q)
    (hs : Steps body c σ τ (.run (.ret v)) σ') (hok : ∀ e ∈ τ, ok e.1) : Q v σ' τ := by
  obtain ⟨_, _, _, done, _, _⟩ := h.steps hs hok
  simpa [Sig.Post.after] using done σ' v (.refl _ _) rfl

/-- There is no infinite run, when every event is `ok`. -/
theorem acc (h : Wp body ok good live free rel mod c σ Q) (hall : ∀ e, ok e) :
    Acc (fun b a : Conf S × S.Store => ∃ ℓ, Step body a.1 a.2 ℓ b.1 b.2) (c, σ) := by
  induction h with
  | intro _ _ _ _ _ _ ih =>
      refine ⟨_, ?_⟩
      rintro ⟨c₁, σ₁⟩ ⟨ℓ, hs⟩
      exact ih _ ℓ c₁ σ₁ (.refl _ _) hs fun e _ => hall e.1

/-- Every configuration has a run that returns, when every event is `ok`. -/
theorem completes (h : Wp body ok good live free rel mod c σ Q) (hall : ∀ e, ok e) :
    ∃ τ v σ', Steps body c σ τ (.run (.ret v)) σ' := by
  induction h with
  | @intro c σ Q safe _ _ _ _ _ ih =>
      rcases c.progress body σ with ⟨v, rfl⟩ | hf | ⟨ℓ, c₁, σ₁, hs⟩
      · exact ⟨[], v, σ, .refl _ _⟩
      · exact absurd hf safe
      · obtain ⟨τ, v, σ', hrun⟩ := ih σ ℓ c₁ σ₁ (.refl _ _) hs fun e _ => hall e.1
        exact ⟨_, v, σ', .head hs hrun⟩

end adequacy

end Wp

end HeartbeatCompiler.ForkJoin
