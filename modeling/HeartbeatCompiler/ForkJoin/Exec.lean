import HeartbeatCompiler.ForkJoin.Prog

/-!
# `HeartbeatCompiler.ForkJoin.Exec`: an evaluator for one schedule

`exec` runs a program with the answers in a list and with the branches of a fork one after
the other. It is sound (`exec_sound`): what it computes is a run.
-/

set_option autoImplicit false

namespace HeartbeatCompiler.ForkJoin

variable {S : Sig} [DecidableEq S.Loc] {body : S.Proc → Prog S S.Res}

/-- What an evaluation returns: the result, the store, the answers that are
left and the trace. -/
abbrev Sig.Outcome (S : Sig) : Type := S.Res × S.Store × List Nat × S.Trace

/-- Run a program in one interleaving: of two branches the first one is run to
its end before the second. The answers are taken from a list, and the answer
is 0 when the list is used up. The fuel bounds the number of operations. -/
def exec (body : S.Proc → Prog S S.Res) :
    Nat → List Nat → Prog S S.Res → S.Store → Option S.Outcome
  | 0, _, _, _ => none
  | fuel + 1, answers, p, σ =>
      match p with
      | .ret a => some (a, σ, answers, [])
      | .access x f k => exec body fuel answers (k (σ x)) (Function.update σ x (f (σ x)))
      | .ask k => exec body fuel answers.tail (k (answers.headD 0)) σ
      | .emit e k =>
          (exec body fuel answers k σ).map fun o => (o.1, o.2.1, o.2.2.1, (e, σ) :: o.2.2.2)
      | .call p k => exec body fuel answers ((body p).bind k) σ
      | .fork p q k => do
          let o₁ ← exec body fuel answers (body p) σ
          let o₂ ← exec body fuel o₁.2.2.1 (body q) o₁.2.1
          let o ← exec body fuel o₂.2.2.1 k o₂.2.1
          pure (o.1, o.2.1, o.2.2.1, o₁.2.2.2 ++ (o₂.2.2.2 ++ o.2.2.2))
      | .fault => none

/-- The first branch of a fork may run alone. -/
theorem Steps.left {c c' : Conf S} {σ σ' : S.Store} {τ : S.Trace} (h : Steps body c σ τ c' σ')
    (d : Conf S) (k : Prog S S.Res) : Steps body (.par c d k) σ τ (.par c' d k) σ' := by
  induction h with
  | refl => exact .refl _ _
  | head hs _ ih => exact .head (.left d k hs) ih

/-- The second branch of a fork may run alone. -/
theorem Steps.right {d d' : Conf S} {σ σ' : S.Store} {τ : S.Trace} (h : Steps body d σ τ d' σ')
    (c : Conf S) (k : Prog S S.Res) : Steps body (.par c d k) σ τ (.par c d' k) σ' := by
  induction h with
  | refl => exact .refl _ _
  | head hs _ ih => exact .head (.right c k hs) ih

/-- What the evaluator computes is a run, so statements about all runs can be
tried on it. -/
theorem exec_sound {fuel : Nat} {answers answers' : List Nat} {p : Prog S S.Res}
    {σ σ' : S.Store} {r : S.Res} {τ : S.Trace}
    (h : exec body fuel answers p σ = some (r, σ', answers', τ)) :
    Steps body (.run p) σ τ (.run (.ret r)) σ' := by
  -- By induction on the fuel; the evaluator runs the first branch of a fork to its end before
  -- the second one, which is one of the interleavings.
  induction fuel generalizing answers answers' p σ σ' r τ with
  | zero => simp [exec] at h
  | succ fuel ih =>
      cases p with
      | ret a =>
          simp only [exec, Option.some.injEq, Prod.mk.injEq] at h
          obtain ⟨rfl, rfl, rfl, rfl⟩ := h
          exact .refl _ _
      | access x f k => exact .head (.access x f k σ) (ih h)
      | ask k => exact .head (.ask k _ σ) (ih h)
      | emit e k =>
          simp only [exec, Option.map_eq_some_iff, Prod.mk.injEq] at h
          obtain ⟨⟨r', σ₁, a₁, τ₁⟩, h₁, rfl, rfl, rfl, rfl⟩ := h
          exact .head (.emit e k σ) (ih h₁)
      | call p k => exact .head (.call p k σ) (ih h)
      | fork p q k =>
          simp only [exec, Option.bind_eq_bind, Option.bind_eq_some_iff, Option.pure_def,
            Option.some.injEq, Prod.mk.injEq] at h
          obtain ⟨⟨r₁, σ₁, a₁, τ₁⟩, h₁, ⟨r₂, σ₂, a₂, τ₂⟩, h₂, ⟨r₃, σ₃, a₃, τ₃⟩, h₃, rfl, rfl,
            rfl, rfl⟩ := h
          -- First the left steps, then the right ones, then the join.
          have hfork : Steps body (.par (.run (body p)) (.run (body q)) k) σ (τ₁ ++ (τ₂ ++ τ₃))
              (.run (.ret r₃)) σ₃ :=
            (Steps.left (ih h₁) (.run (body q)) k).trans
              ((Steps.right (ih h₂) (.run (.ret r₁)) k).trans (.head (.join r₁ r₂ k σ₂) (ih h₃)))
          have hall := Steps.head (.fork p q k σ) hfork
          exact hall
      | fault => simp [exec] at h

/-- A check that the evaluator passes is passed by a run. -/
theorem exec_exists {fuel : Nat} {answers : List Nat} {p : Prog S S.Res} {σ : S.Store}
    {check : S.Outcome → Bool} (h : (exec body fuel answers p σ).any check = true) :
    ∃ r σ' answers' τ, Steps body (.run p) σ τ (.run (.ret r)) σ' ∧
      check (r, σ', answers', τ) = true := by
  cases ho : exec body fuel answers p σ with
  | none => simp [ho] at h
  | some o =>
      obtain ⟨r, σ', answers', τ⟩ := o
      rw [ho] at h
      exact ⟨r, σ', answers', τ, exec_sound ho, h⟩

end HeartbeatCompiler.ForkJoin
