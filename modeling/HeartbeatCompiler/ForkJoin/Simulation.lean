import HeartbeatCompiler.ForkJoin.Exec
import HeartbeatCompiler.ForkJoin.Race
import Mathlib.Tactic.Choose

/-!
# `HeartbeatCompiler.ForkJoin.Simulation`: programs that differ in their procedures

Two programs that perform the same operations may be cut into procedures in different places.
`Prog.Sim R i p q` relates them: they perform the same operations, call procedures that `R`
relates, and either may enter a procedure that is part of an operation of the other one. Such
an entry is silent. `i` bounds how often `p` does it before its next operation, so `p` does not
do it for ever.

If the bodies of related procedures are related, so are the runs (`Conf.Simulates.steps`), in
any interleaving. The relation is symmetric (`Conf.Simulates.symm`), so both programs have the
same traces and results, get stuck and race in the same runs, and end together.
-/

set_option autoImplicit false

namespace HeartbeatCompiler.ForkJoin

/-- The same operations with other procedures, so that two programs over the
same memory can be compared. -/
abbrev Sig.withProc (S : Sig) (P : Type) : Sig where
  Loc := S.Loc
  Val := S.Val
  Proc := P
  Res := S.Res
  Event := S.Event

variable {S : Sig} {P Q : Type} {α β : Type}

/-- The program with its procedures renamed. -/
def Prog.mapProc (f : P → Q) : Prog (S.withProc P) α → Prog (S.withProc Q) α
  | .ret a => .ret a
  | .access x g k => .access x g fun v => (k v).mapProc f
  | .ask k => .ask fun n => (k n).mapProc f
  | .emit e k => .emit e (k.mapProc f)
  | .call p k => .call (f p) fun r => (k r).mapProc f
  | .fork p q k => .fork (f p) (f q) (k.mapProc f)
  | .fault => .fault

/-- Renaming procedures goes through sequencing. -/
theorem Prog.mapProc_bind (f : P → Q) (m : Prog (S.withProc P) α)
    (k : α → Prog (S.withProc P) β) :
    (m >>= k).mapProc f = m.mapProc f >>= fun a => (k a).mapProc f := by
  rw [bind_eq, bind_eq]
  induction m with
  | ret a => rfl
  | access x g k ih => simp only [Prog.bind, mapProc, ih]
  | ask k ih => simp only [Prog.bind, mapProc, ih]
  | emit e k ih => simp only [Prog.bind, mapProc, ih]
  | call p k ih => simp only [Prog.bind, mapProc, ih]
  | fork p q k ih => simp only [Prog.bind, mapProc, ih]
  | fault => rfl

/-- The bodies of procedures named by `P`. -/
abbrev Sig.Bodies (S : Sig) (P : Type) : Type := P → Prog (S.withProc P) S.Res

variable {R : P → Q → Prop} {b : S.Bodies P} {b' : S.Bodies Q}

/-- The programs perform the same operations. Calls on either side may be
unfolded; on the left this lowers the index, so that the left program cannot
go on for ever without an operation that the other one performs too. -/
inductive Prog.Sim (R : P → Q → Prop) (b : S.Bodies P) (b' : S.Bodies Q) :
    Nat → Prog (S.withProc P) α → Prog (S.withProc Q) α → Prop
  | ret (a : α) : Sim R b b' 0 (.ret a) (.ret a)
  | access (x : S.Loc) (f : S.Val x → S.Val x) {k : S.Val x → Prog (S.withProc P) α}
      {k' : S.Val x → Prog (S.withProc Q) α} (i : S.Val x → Nat) :
      (∀ v, Sim R b b' (i v) (k v) (k' v)) → Sim R b b' 0 (.access x f k) (.access x f k')
  | ask {k : Nat → Prog (S.withProc P) α} {k' : Nat → Prog (S.withProc Q) α} (i : Nat → Nat) :
      (∀ n, Sim R b b' (i n) (k n) (k' n)) → Sim R b b' 0 (.ask k) (.ask k')
  | emit (e : S.Event) {k : Prog (S.withProc P) α} {k' : Prog (S.withProc Q) α} (i : Nat) :
      Sim R b b' i k k' → Sim R b b' 0 (.emit e k) (.emit e k')
  | call {p : P} {q : Q} {k : S.Res → Prog (S.withProc P) α}
      {k' : S.Res → Prog (S.withProc Q) α} (i : S.Res → Nat) :
      R p q → (∀ r, Sim R b b' (i r) (k r) (k' r)) → Sim R b b' 0 (.call p k) (.call q k')
  | fork {p₁ p₂ : P} {q₁ q₂ : Q} {k : Prog (S.withProc P) α} {k' : Prog (S.withProc Q) α}
      (i : Nat) : R p₁ q₁ → R p₂ q₂ → Sim R b b' i k k' →
      Sim R b b' 0 (.fork p₁ p₂ k) (.fork q₁ q₂ k')
  | fault : Sim R b b' 0 .fault .fault
  | left {p : P} {k : S.Res → Prog (S.withProc P) α} {m : Prog (S.withProc Q) α} {i : Nat} :
      Sim R b b' i ((b p).bind k) m → Sim R b b' (i + 1) (.call p k) m
  | right {q : Q} {k : S.Res → Prog (S.withProc Q) α} {m : Prog (S.withProc P) α} {i : Nat} :
      Sim R b b' i m ((b' q).bind k) → Sim R b b' i m (.call q k)

/-- The programs perform the same operations, whatever the index. -/
def Prog.Simulates (R : P → Q → Prop) (b : S.Bodies P) (b' : S.Bodies Q)
    (m : Prog (S.withProc P) α) (m' : Prog (S.withProc Q) α) : Prop :=
  ∃ i, Prog.Sim R b b' i m m'

namespace Prog.Simulates

/-! ### The rules -/

/-- Both return. -/
theorem ret (a : α) : Simulates R b b' (Pure.pure a) (Pure.pure a) := ⟨0, .ret a⟩

/-- Both make the same access. -/
theorem access {x : S.Loc} {f : S.Val x → S.Val x} {k : S.Val x → Prog (S.withProc P) α}
    {k' : S.Val x → Prog (S.withProc Q) α} (h : ∀ v, Simulates R b b' (k v) (k' v)) :
    Simulates R b b' (.access x f k) (.access x f k') := by
  choose i hi using h
  exact ⟨0, .access x f i hi⟩

/-- Both ask the same question. -/
theorem ask {k : Nat → Prog (S.withProc P) α} {k' : Nat → Prog (S.withProc Q) α}
    (h : ∀ n, Simulates R b b' (k n) (k' n)) : Simulates R b b' (.ask k) (.ask k') := by
  choose i hi using h
  exact ⟨0, .ask i hi⟩

/-- Both emit the same event. -/
theorem emit {e : S.Event} {k : Prog (S.withProc P) α} {k' : Prog (S.withProc Q) α}
    (h : Simulates R b b' k k') : Simulates R b b' (.emit e k) (.emit e k') := by
  obtain ⟨i, hi⟩ := h
  exact ⟨0, .emit e i hi⟩

/-- Both call related procedures. -/
theorem call {p : P} {q : Q} {k : S.Res → Prog (S.withProc P) α}
    {k' : S.Res → Prog (S.withProc Q) α} (hpq : R p q)
    (h : ∀ r, Simulates R b b' (k r) (k' r)) : Simulates R b b' (.call p k) (.call q k') := by
  choose i hi using h
  exact ⟨0, .call i hpq hi⟩

/-- Both fork related procedures. -/
theorem fork {p₁ p₂ : P} {q₁ q₂ : Q} {k : Prog (S.withProc P) α} {k' : Prog (S.withProc Q) α}
    (h₁ : R p₁ q₁) (h₂ : R p₂ q₂) (h : Simulates R b b' k k') :
    Simulates R b b' (.fork p₁ p₂ k) (.fork q₁ q₂ k') := by
  obtain ⟨i, hi⟩ := h
  exact ⟨0, .fork i h₁ h₂ hi⟩

/-- Both fault. -/
theorem fault : Simulates R b b' (.fault : Prog (S.withProc P) α) .fault := ⟨0, .fault⟩

/-- The first program makes a call of its own. -/
theorem left {p : P} {k : S.Res → Prog (S.withProc P) α} {m : Prog (S.withProc Q) α}
    (h : Simulates R b b' ((b p).bind k) m) : Simulates R b b' (.call p k) m := by
  obtain ⟨i, hi⟩ := h
  exact ⟨i + 1, .left hi⟩

/-- The second program makes a call of its own. -/
theorem right {q : Q} {k : S.Res → Prog (S.withProc Q) α} {m : Prog (S.withProc P) α}
    (h : Simulates R b b' m ((b' q).bind k)) : Simulates R b b' m (.call q k) := by
  obtain ⟨i, hi⟩ := h
  exact ⟨i, .right hi⟩

/-- What follows related programs is related. -/
theorem bind {m : Prog (S.withProc P) α} {m' : Prog (S.withProc Q) α}
    {f : α → Prog (S.withProc P) β} {f' : α → Prog (S.withProc Q) β} (h : Simulates R b b' m m')
    (hf : ∀ a, Simulates R b b' (f a) (f' a)) : Simulates R b b' (m >>= f) (m' >>= f') := by
  obtain ⟨i, h⟩ := h
  rw [bind_eq, bind_eq]
  induction h with
  | ret a => exact hf a
  | access x g i _ ih => exact access ih
  | ask i _ ih => exact ask ih
  | emit e i _ ih => exact emit ih
  | call i hpq _ ih => exact call hpq ih
  | fork i h₁ h₂ _ ih => exact fork h₁ h₂ ih
  | fault => exact fault
  | left _ ih =>
      refine left ?_
      rw [← bind_assoc]
      exact ih
  | right _ ih =>
      refine right ?_
      rw [← bind_assoc]
      exact ih

/-- The relation goes both ways. -/
theorem symm {m : Prog (S.withProc P) α} {m' : Prog (S.withProc Q) α}
    (h : Simulates R b b' m m') : Simulates (fun q p => R p q) b' b m' m := by
  obtain ⟨i, h⟩ := h
  induction h with
  | ret a => exact ret a
  | access x g i _ ih => exact access ih
  | ask i _ ih => exact ask ih
  | emit e i _ ih => exact emit ih
  | call i hpq _ ih => exact call hpq ih
  | fork i h₁ h₂ _ ih => exact fork h₁ h₂ ih
  | fault => exact fault
  | left _ ih => exact right ih
  | right _ ih => exact left ih

/-- A program with its procedures renamed. -/
theorem mapProc {f : Q → P} (hf : ∀ q, R (f q) q) (m : Prog (S.withProc Q) α) :
    Simulates R b b' (m.mapProc f) m := by
  induction m with
  | ret a => exact ret a
  | access x g k ih => exact access ih
  | ask k ih => exact ask ih
  | emit e k ih => exact emit ih
  | call q k ih => exact call (hf q) ih
  | fork p q k ih => exact fork (hf p) (hf q) ih
  | fault => exact fault

/-- Tail calls of related procedures. -/
theorem invoke {p : P} {q : Q} (hpq : R p q) :
    Simulates R b b' (Prog.invoke (S := S.withProc P) p) (Prog.invoke (S := S.withProc Q) q) :=
  call hpq ret

/-- A tail call is the body of the procedure. -/
theorem invoke_left {p : P} {m : Prog (S.withProc Q) S.Res} (h : Simulates R b b' (b p) m) :
    Simulates R b b' (Prog.invoke (S := S.withProc P) p) m := by
  refine left ?_
  rwa [bind_ret]

end Prog.Simulates

/-! ### Configurations -/

/-- The tasks are related, one by one. The index of a fork is the sum of those
of its branches. -/
inductive Conf.Sim (R : P → Q → Prop) (b : S.Bodies P) (b' : S.Bodies Q) :
    Nat → Conf (S.withProc P) → Conf (S.withProc Q) → Prop
  | run {i : Nat} {m : Prog (S.withProc P) S.Res} {m' : Prog (S.withProc Q) S.Res} :
      Prog.Sim R b b' i m m' → Sim R b b' i (.run m) (.run m')
  | par {i j : Nat} {c d : Conf (S.withProc P)} {c' d' : Conf (S.withProc Q)}
      {k : Prog (S.withProc P) S.Res} {k' : Prog (S.withProc Q) S.Res} :
      Sim R b b' i c c' → Sim R b b' j d d' → Prog.Simulates R b b' k k' →
      Sim R b b' (i + j) (.par c d k) (.par c' d' k')

/-- Configurations that are related, task by task. -/
def Conf.Simulates (R : P → Q → Prop) (b : S.Bodies P) (b' : S.Bodies Q)
    (c : Conf (S.withProc P)) (c' : Conf (S.withProc Q)) : Prop :=
  ∃ i, Conf.Sim R b b' i c c'

/-- Related programs are related configurations. -/
theorem Conf.Simulates.run {m : Prog (S.withProc P) S.Res} {m' : Prog (S.withProc Q) S.Res}
    (h : Prog.Simulates R b b' m m') : Conf.Simulates R b b' (.run m) (.run m') := by
  obtain ⟨i, h⟩ := h
  exact ⟨i, .run h⟩

/-- The relation goes both ways. -/
theorem Conf.Simulates.symm {c : Conf (S.withProc P)} {c' : Conf (S.withProc Q)}
    (h : Conf.Simulates R b b' c c') : Conf.Simulates (fun q p => R p q) b' b c' c := by
  obtain ⟨i, h⟩ := h
  induction h with
  | run h => exact .run (Prog.Simulates.symm ⟨_, h⟩)
  | par _ _ hk ihc ihd =>
      obtain ⟨i, ihc⟩ := ihc
      obtain ⟨j, ihd⟩ := ihd
      exact ⟨i + j, .par ihc ihd hk.symm⟩

/-! ### What is seen of a configuration -/

/-- The operation that is next is the same, if it is one that can be seen: a
return, an access or a fault. -/
structure Prog.Shown (m : Prog (S.withProc P) α) (m' : Prog (S.withProc Q) α) : Prop where
  ret : ∀ a, m = .ret a → m' = .ret a
  access : ∀ x f k, m = .access x f k → ∃ k', m' = .access x f k'
  fault : m = .fault → m' = .fault

/-- The same for all tasks. -/
def Conf.Shown : Conf (S.withProc P) → Conf (S.withProc Q) → Prop
  | .run m, .run m' => m.Shown m'
  | .par c d _, .par c' d' _ => c.Shown c' ∧ d.Shown d'
  | _, _ => False

namespace Conf.Shown

variable {x : S.Loc} {c : Conf (S.withProc P)} {c' : Conf (S.withProc Q)}

/-- What holds of a configuration when it holds of one of its tasks. -/
theorem imp {Φ : Conf (S.withProc P) → Prop} {Ψ : Conf (S.withProc Q) → Prop}
    (hrun : ∀ m m', m.Shown m' → Φ (.run m) → Ψ (.run m'))
    (hpar : ∀ c d k, Φ (.par c d k) → Φ c ∨ Φ d)
    (hpar' : ∀ c d k, Ψ c ∨ Ψ d → Ψ (.par c d k)) (h : c.Shown c') (hc : Φ c) : Ψ c' := by
  induction c generalizing c' with
  | run m =>
      cases c' with
      | run m' => exact hrun m m' h hc
      | par => exact h.elim
  | par c d k ihc ihd =>
      cases c' with
      | run => exact h.elim
      | par c' d' k' => exact hpar' c' d' k' ((hpar c d k hc).imp (ihc h.1) (ihd h.2))

/-- An access that is shown is an access. -/
theorem accesses (h : c.Shown c') (hc : Conf.Accesses (S := S.withProc P) x c) :
    Conf.Accesses (S := S.withProc Q) x c' := by
  refine h.imp (fun m m' hm ha => ?_) (fun _ _ _ => id) (fun _ _ _ => id) hc
  cases m with
  | access y f k =>
      obtain ⟨k', rfl⟩ := hm.access y f k rfl
      exact ha
  | _ => exact ha.elim

/-- A change that is shown is a change. -/
theorem changes (h : c.Shown c') (hc : Conf.Changes (S := S.withProc P) x c) :
    Conf.Changes (S := S.withProc Q) x c' := by
  refine h.imp (fun m m' hm ha => ?_) (fun _ _ _ => id) (fun _ _ _ => id) hc
  cases m with
  | access y f k =>
      obtain ⟨k', rfl⟩ := hm.access y f k rfl
      exact ha
  | _ => exact ha.elim

/-- A race that is shown is a race. -/
theorem race (h : c.Shown c') (hc : Conf.Race (S := S.withProc P) x c) :
    Conf.Race (S := S.withProc Q) x c' := by
  induction c generalizing c' with
  | run m => exact hc.elim
  | par c d k ihc ihd =>
      cases c' with
      | run => exact h.elim
      | par c' d' k' =>
          exact hc.imp (ihc h.1) (Or.imp (ihd h.2) (Or.imp
            (And.imp h.1.changes h.2.accesses) (And.imp h.1.accesses h.2.changes)))

end Conf.Shown

/-! ### Runs -/

section Runs

variable [DecidableEq S.Loc] {σ σ₁ σ' : S.Store} {ℓ τ : S.Trace}

/-- One step or more, as an operation of one side may take several unfoldings
on the other. -/
def Advances (body : S.Proc → Prog S S.Res) (c : Conf S) (σ : S.Store) (τ : S.Trace)
    (c' : Conf S) (σ' : S.Store) : Prop :=
  ∃ c₁ σ₁ ℓ τ', Step body c σ ℓ c₁ σ₁ ∧ Steps body c₁ σ₁ τ' c' σ' ∧ τ = ℓ ++ τ'

namespace Advances

variable {body : S.Proc → Prog S S.Res} {c c₁ c' d : Conf S} {k : Prog S S.Res}

/-- One step that is seen. -/
theorem one (h : Step body c σ ℓ c' σ') : Advances body c σ ℓ c' σ' :=
  ⟨c', σ', ℓ, [], h, .refl c' σ', (List.append_nil ℓ).symm⟩

/-- What advances takes steps. -/
theorem steps (h : Advances body c σ τ c' σ') : Steps body c σ τ c' σ' := by
  obtain ⟨c₁, σ₁, ℓ, τ', hstep, hsteps, rfl⟩ := h
  exact .head hstep hsteps

/-- Silent steps before it. -/
theorem prepend (h : Steps body c σ [] c₁ σ) (h' : Advances body c₁ σ τ c' σ') :
    Advances body c σ τ c' σ' := by
  generalize hτ : ([] : S.Trace) = τ₀ at h
  cases h with
  | refl => exact h'
  | @head _ c₂ _ _ σ₂ _ ℓ τ' hstep hsteps =>
      obtain ⟨rfl, rfl⟩ := List.append_eq_nil_iff.mp hτ.symm
      exact ⟨c₂, σ₂, [], τ, hstep, hsteps.trans h'.steps, rfl⟩

/-- The first task of a fork advances. -/
theorem left (h : Advances body c σ τ c' σ') (d : Conf S) (k : Prog S S.Res) :
    Advances body (.par c d k) σ τ (.par c' d k) σ' := by
  obtain ⟨c₁, σ₁, ℓ, τ', hstep, hsteps, rfl⟩ := h
  exact ⟨_, σ₁, ℓ, τ', .left d k hstep, hsteps.left d k, rfl⟩

/-- The second task of a fork advances. -/
theorem right (h : Advances body d σ τ c' σ') (c : Conf S) (k : Prog S S.Res) :
    Advances body (.par c d k) σ τ (.par c c' k) σ' := by
  obtain ⟨c₁, σ₁, ℓ, τ', hstep, hsteps, rfl⟩ := h
  exact ⟨_, σ₁, ℓ, τ', .right c k hstep, hsteps.right c k, rfl⟩

end Advances

variable {m : Prog (S.withProc P) S.Res} {m' : Prog (S.withProc Q) S.Res}
  {c c₁ : Conf (S.withProc P)} {c' : Conf (S.withProc Q)} {i : Nat}

/-- The other program gets ready for the operation that is next. -/
theorem Prog.Sim.shown (h : Prog.Sim R b b' i m m') (σ : S.Store) :
    ∃ m₁, Steps (S := S.withProc Q) b' (.run m') σ [] (.run m₁) σ ∧ m.Shown m₁ := by
  induction h with
  | ret a => exact ⟨.ret a, .refl _ _, fun _ h => by cases h; rfl, nofun, nofun⟩
  | @access x f k k' =>
      exact ⟨.access x f k', .refl _ _, nofun, fun _ _ _ h => by cases h; exact ⟨k', rfl⟩, nofun⟩
  | fault => exact ⟨.fault, .refl _ _, nofun, nofun, fun _ => rfl⟩
  | right _ ih =>
      obtain ⟨m₁, hsteps, hshown⟩ := ih
      exact ⟨m₁, .head (.call _ _ _) hsteps, hshown⟩
  | _ => exact ⟨_, .refl _ _, nofun, nofun, nofun⟩

/-- What is related to a result returns it. -/
theorem Prog.Sim.returns {a : S.Res} (h : Prog.Sim R b b' i (.ret a) m') (σ : S.Store) :
    Steps (S := S.withProc Q) b' (.run m') σ [] (.run (.ret a)) σ := by
  obtain ⟨m₁, hsteps, hshown⟩ := h.shown σ
  rwa [hshown.ret a rfl] at hsteps

/-- A step of a program: either the other one performs the operation, or the
program enters a procedure and the other one does nothing. -/
theorem Prog.Sim.step (hb : ∀ p q, R p q → Prog.Simulates R b b' (b p) (b' q))
    (h : Prog.Sim R b b' i m m') (hs : Step (S := S.withProc P) b (.run m) σ ℓ c₁ σ₁) :
    (∃ j < i, ℓ = [] ∧ σ₁ = σ ∧ Conf.Sim R b b' j c₁ (.run m')) ∨
      ∃ c₁', Advances (S := S.withProc Q) b' (.run m') σ ℓ c₁' σ₁ ∧
        Conf.Simulates R b b' c₁ c₁' := by
  induction h with
  | ret a => cases hs
  | @access x f k k' i h _ =>
      cases hs
      exact .inr ⟨_, .one (.access _ _ _ _), i _, .run (h _)⟩
  | @ask k k' i h _ =>
      cases hs with
      | ask _ n => exact .inr ⟨_, .one (.ask _ n _), i n, .run (h n)⟩
  | @emit e k k' i h _ =>
      cases hs
      exact .inr ⟨_, .one (.emit _ _ _), i, .run h⟩
  | @call p q k k' i hpq h _ =>
      cases hs
      exact .inr ⟨_, .one (.call _ _ _), .run ((hb p q hpq).bind fun r => ⟨i r, h r⟩)⟩
  | @fork p₁ p₂ q₁ q₂ k k' i h₁ h₂ h _ =>
      cases hs
      obtain ⟨i₁, h₁⟩ := hb p₁ q₁ h₁
      obtain ⟨i₂, h₂⟩ := hb p₂ q₂ h₂
      exact .inr ⟨_, .one (.fork _ _ _ _), i₁ + i₂, .par (.run h₁) (.run h₂) ⟨i, h⟩⟩
  | fault => cases hs
  | @left p k m i h _ =>
      -- a silent step, after which the index is smaller
      cases hs
      exact .inl ⟨i, Nat.lt_succ_self i, rfl, rfl, .run h⟩
  | @right q k m i h ih =>
      -- the other program enters its procedure first, whatever the step is
      have hcall : Step (S := S.withProc Q) b' (.run (.call q k)) σ [] (.run ((b' q).bind k)) σ :=
        .call _ _ _
      rcases ih hs with ⟨j, hj, rfl, rfl, hsim⟩ | ⟨c₁', hadv, hsim⟩
      · refine .inl ⟨j, hj, rfl, rfl, ?_⟩
        cases hsim with
        | run hsim => exact .run (.right hsim)
      · exact .inr ⟨c₁', hadv.prepend (.head hcall (.refl _ _)), hsim⟩

/-- A step of related tasks: the other tasks do the same, or it was a call
that they do not have, after which the index is smaller. -/
theorem Conf.Sim.step (hb : ∀ p q, R p q → Prog.Simulates R b b' (b p) (b' q))
    (h : Conf.Sim R b b' i c c') (hs : Step (S := S.withProc P) b c σ ℓ c₁ σ₁) :
    (∃ j < i, ℓ = [] ∧ σ₁ = σ ∧ Conf.Sim R b b' j c₁ c') ∨
      ∃ c₁', Advances (S := S.withProc Q) b' c' σ ℓ c₁' σ₁ ∧ Conf.Simulates R b b' c₁ c₁' := by
  induction h generalizing ℓ c₁ σ₁ with
  | run h => exact h.step hb hs
  | @par i j c d c' d' k k' hc hd hk ihc ihd =>
      cases hs with
      | left _ _ hs =>
          rcases ihc hs with ⟨i', hi, rfl, rfl, hc₁⟩ | ⟨c₁', hadv, i', hc₁⟩
          · exact .inl ⟨i' + j, by omega, rfl, rfl, .par hc₁ hd hk⟩
          · exact .inr ⟨_, hadv.left d' k', i' + j, .par hc₁ hd hk⟩
      | right _ _ hs =>
          rcases ihd hs with ⟨j', hj, rfl, rfl, hd₁⟩ | ⟨d₁', hadv, j', hd₁⟩
          · exact .inl ⟨i + j', by omega, rfl, rfl, .par hc hd₁ hk⟩
          · exact .inr ⟨_, hadv.right c' k', i + j', .par hc hd₁ hk⟩
      | join a₁ a₂ =>
          -- the other two tasks may have procedures to enter before they return
          cases hc with
          | run hc =>
            cases hd with
            | @run _ _ md hd =>
              have hjoin : Advances (S := S.withProc Q) b'
                  (.par (.run (.ret a₁)) (.run (.ret a₂)) k') σ [] (.run k') σ :=
                .one (.join _ _ _ _)
              have hleft := (hc.returns σ).left (.run md) k'
              have hright := (hd.returns σ).right (.run (.ret a₁)) k'
              exact .inr ⟨_, (hjoin.prepend hright).prepend hleft, .run hk⟩

namespace Conf.Simulates

/-- Related programs have related runs. -/
theorem steps (hb : ∀ p q, R p q → Prog.Simulates R b b' (b p) (b' q))
    (h : Conf.Simulates R b b' c c') (hs : Steps (S := S.withProc P) b c σ τ c₁ σ₁) :
    ∃ c₁', Steps (S := S.withProc Q) b' c' σ τ c₁' σ₁ ∧ Conf.Simulates R b b' c₁ c₁' := by
  induction hs generalizing c' with
  | refl c σ => exact ⟨c', .refl c' σ, h⟩
  | head hstep _ ih =>
      obtain ⟨i, h⟩ := h
      rcases h.step hb hstep with ⟨j, -, rfl, rfl, hsim⟩ | ⟨c₂', hadv, hsim⟩
      · exact ih ⟨j, hsim⟩
      · obtain ⟨c₁', hsteps, hsim₁⟩ := ih hsim
        exact ⟨c₁', hadv.steps.trans hsteps, hsim₁⟩

/-- The other tasks get ready for the operations that are next. -/
theorem shown (h : Conf.Simulates R b b' c c') (σ : S.Store) :
    ∃ c₁, Steps (S := S.withProc Q) b' c' σ [] c₁ σ ∧ c.Shown c₁ := by
  obtain ⟨i, h⟩ := h
  induction h with
  | run h =>
      obtain ⟨m₁, hsteps, hshown⟩ := h.shown σ
      exact ⟨.run m₁, hsteps, hshown⟩
  | @par i j c d c' d' k k' _ _ _ ihc ihd =>
      obtain ⟨c₁, hc, hshownc⟩ := ihc
      obtain ⟨d₁, hd, hshownd⟩ := ihd
      exact ⟨.par c₁ d₁ k', (hc.left d' k').trans (hd.right c₁ k'), hshownc, hshownd⟩

/-- There is no infinite run, if the other program has none. The induction is
on its run, and within it on the index: a step with which it does nothing
makes the index smaller. -/
theorem acc (hb : ∀ p q, R p q → Prog.Simulates R b b' (b p) (b' q))
    (h : Conf.Simulates R b b' c c')
    (hacc : Acc (fun y x : Conf (S.withProc Q) × S.Store =>
      ∃ ℓ, Step (S := S.withProc Q) b' x.1 x.2 ℓ y.1 y.2) (c', σ)) :
    Acc (fun y x : Conf (S.withProc P) × S.Store =>
      ∃ ℓ, Step (S := S.withProc P) b x.1 x.2 ℓ y.1 y.2) (c, σ) := by
  -- a run of the other program goes down in its order
  have hsteps : ∀ {τ : S.Trace} {d d' : Conf (S.withProc Q)} {s s' : S.Store},
      Steps (S := S.withProc Q) b' d s τ d' s' → Relation.ReflTransGen
        (fun y x : Conf (S.withProc Q) × S.Store =>
          ∃ ℓ, Step (S := S.withProc Q) b' x.1 x.2 ℓ y.1 y.2) (d', s') (d, s) := by
    intro τ d d' s s' hs
    induction hs with
    | refl => exact .refl
    | head hstep _ ih => exact ih.tail ⟨_, hstep⟩
  obtain ⟨i, h⟩ := h
  generalize hx : (c', σ) = x at hacc
  induction hacc.transGen generalizing c' σ c i with
  | intro x _ ih =>
      subst hx
      induction i using Nat.strong_induction_on generalizing c with
      | _ i ihi =>
          refine ⟨_, fun y hy => ?_⟩
          obtain ⟨ℓ, hstep⟩ := hy
          rcases h.step hb hstep with ⟨j, hj, -, hσ, hsim⟩ | ⟨c₁', hadv, j, hsim⟩
          · obtain ⟨c₁, σ₁⟩ := y
            subst hσ
            exact ihi j hj hsim
          · obtain ⟨c₂, σ₂, ℓ₁, τ, hfirst, hrest, -⟩ := hadv
            exact ih (c₁', y.2) (.tail' (hsteps hrest) ⟨ℓ₁, hfirst⟩) j hsim rfl
                (hacc.inv_of_transGen (.tail' (hsteps hrest) ⟨ℓ₁, hfirst⟩))

end Conf.Simulates

end Runs

end HeartbeatCompiler.ForkJoin
