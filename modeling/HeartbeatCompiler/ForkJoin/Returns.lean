import HeartbeatCompiler.ForkJoin.Prog

/-!
# `HeartbeatCompiler.ForkJoin.Returns`: one task that runs alone

`Returns body p σ τ r σ'` is a run of the program `p` up to its result. There is one rule for
each operation but a fork, which takes the run of what follows the operation to a run of the
whole. With these rules the run of a program is read off its text.
-/

set_option autoImplicit false

namespace HeartbeatCompiler.ForkJoin

variable {S : Sig} [DecidableEq S.Loc] {α : Type}

/-- A run of `p` that returns `r`, with its trace and the store that it
leaves. -/
abbrev Returns (body : S.Proc → Prog S S.Res) (p : Prog S S.Res) (σ : S.Store) (τ : S.Trace)
    (r : S.Res) (σ' : S.Store) : Prop := Steps body (.run p) σ τ (.run (.ret r)) σ'

namespace Returns

variable {body : S.Proc → Prog S S.Res} {σ σ' : S.Store} {τ : S.Trace} {r : S.Res}

/-- A program that returns does so at once. -/
theorem ret (r : S.Res) (σ : S.Store) : Returns body (pure r) σ [] r σ := .refl _ _

/-- A change of the store. -/
theorem modify {x : S.Loc} {f : S.Val x → S.Val x} {k : PUnit → Prog S S.Res}
    (h : Returns body (k ⟨⟩) (Function.update σ x (f (σ x))) τ r σ') :
    Returns body (Prog.modify x f >>= k) σ τ r σ' :=
  .head (.access x f _ σ) h

/-- A read finds what the store has. -/
theorem read {x : S.Loc} {k : S.Val x → Prog S S.Res} (h : Returns body (k (σ x)) σ τ r σ') :
    Returns body (Prog.read x >>= k) σ τ r σ' := by
  have hstep : Step body (.run (Prog.read x >>= k)) σ [] (.run (k (σ x)))
      (Function.update σ x (id (σ x))) := .access x id k σ
  rw [id, Function.update_eq_self] at hstep
  exact .head hstep h

/-- Some answer. -/
theorem answer {k : Nat → Prog S S.Res} (i : Nat) (h : Returns body (k i) σ τ r σ') :
    Returns body (Prog.answer >>= k) σ τ r σ' :=
  .head (.ask k i σ) h

/-- An event in the trace. -/
theorem log {e : S.Event} {k : PUnit → Prog S S.Res} (h : Returns body (k ⟨⟩) σ τ r σ') :
    Returns body (Prog.log e >>= k) σ ((e, σ) :: τ) r σ' :=
  .head (.emit e (k ⟨⟩) σ) h

/-- A call runs the body of its procedure. -/
theorem call {q : S.Proc} {k : S.Res → Prog S S.Res} (h : Returns body (body q >>= k) σ τ r σ') :
    Returns body (Prog.invoke q >>= k) σ τ r σ' :=
  .head (.call q k σ) h

/-- A tail call. -/
theorem tail {q : S.Proc} (h : Returns body (body q) σ τ r σ') :
    Returns body (Prog.invoke q) σ τ r σ' := by
  have hstep : Step body (.run (Prog.invoke q)) σ [] (.run ((body q).bind Prog.ret)) σ :=
    .call q Prog.ret σ
  rw [Prog.bind_ret] at hstep
  exact .head hstep h

end Returns

end HeartbeatCompiler.ForkJoin
