import Mathlib.Logic.Function.Basic

/-!
# `HeartbeatCompiler.ForkJoin.Prog`: fork–join programs over a shared store

A small language for tasks that share a store, call procedures, ask the environment for an
answer and fork two procedures that run side by side until both have returned. A program
is a tree of the operations it performs next (`Prog`); procedures recurse through a table
`body`, so programs themselves stay finite objects.

A configuration (`Conf`) is either one running program or a fork whose two branches are
configurations again. `Step` is the interleaving semantics: one step performs one operation
of one task. Each access to the store is atomic and touches one location. `Steps` are the
finite runs, with the trace of the emitted events; an event is recorded with the store at
the moment it is emitted.
-/

set_option autoImplicit false

namespace HeartbeatCompiler.ForkJoin

/-- What a program is built over: locations with the type of their contents,
procedures, the result type of the procedures, and events. Events have no
effect; they are what statements about runs speak of. -/
structure Sig : Type 1 where
  Loc : Type
  Val : Loc → Type
  Proc : Type
  Res : Type
  Event : Type

/-- The contents of all locations. Every location has contents from the start.
-/
abbrev Sig.Store (S : Sig) : Type := (x : S.Loc) → S.Val x

/-- A list of events, each with the store at its emission, so that a statement
about an event may refer to the memory at that time. -/
abbrev Sig.Trace (S : Sig) : Type := List (S.Event × S.Store)

/-- A program with result `α`: a result, or an operation and what to do after
it. An access reads a location and changes it at once. `ask` gets a number
from outside, such as the reading of a clock, and `fork` runs two procedures
before it goes on. There is nothing after a fault. -/
inductive Prog (S : Sig) (α : Type) : Type
  | ret (a : α)
  | access (x : S.Loc) (f : S.Val x → S.Val x) (k : S.Val x → Prog S α)
  | ask (k : Nat → Prog S α)
  | emit (e : S.Event) (k : Prog S α)
  | call (p : S.Proc) (k : S.Res → Prog S α)
  | fork (p q : S.Proc) (k : Prog S α)
  | fault

namespace Prog

variable {S : Sig} {α β γ : Type}

/-- Run `m`, then `f` on its result. -/
def bind : Prog S α → (α → Prog S β) → Prog S β
  | ret a, f => f a
  | access x g k, f => access x g fun v => (k v).bind f
  | ask k, f => ask fun n => (k n).bind f
  | emit e k, f => emit e (k.bind f)
  | call p k, f => call p fun r => (k r).bind f
  | fork p q k, f => fork p q (k.bind f)
  | fault, _ => fault

/-- Programs are a monad, so that the code of the model is written in `do`
blocks. -/
instance : Monad (Prog S) where
  pure := ret
  bind := bind

/-- The bind of the monad is the one of `Prog`. -/
theorem bind_eq (m : Prog S α) (f : α → Prog S β) : m >>= f = m.bind f := rfl

/-- Returning is the program that makes no access. -/
theorem pure_eq (a : α) : (pure a : Prog S α) = ret a := rfl

/-- Sequencing is associative. -/
theorem bind_assoc (m : Prog S α) (f : α → Prog S β) (g : β → Prog S γ) :
    (m.bind f).bind g = m.bind fun a => (f a).bind g := by
  induction m with
  | ret a => rfl
  | access x h k ih => simp only [bind, ih]
  | ask k ih => simp only [bind, ih]
  | emit e k ih => simp only [bind, ih]
  | call p k ih => simp only [bind, ih]
  | fork p q k ih => simp only [bind, ih]
  | fault => rfl

/-- Returning the result changes nothing. -/
theorem bind_ret (m : Prog S α) : m.bind ret = m := by
  induction m with
  | ret a => rfl
  | access x h k ih => simp only [bind, ih]
  | ask k ih => simp only [bind, ih]
  | emit e k ih => simp only [bind, ih]
  | call p k ih => simp only [bind, ih]
  | fork p q k ih => simp only [bind, ih]
  | fault => rfl

/-- A result is handed to what follows. -/
theorem pure_bind (a : α) (f : α → Prog S β) : (pure a : Prog S α) >>= f = f a := rfl

/-- A sequence is run from its first operation. -/
theorem bind_bind (m : Prog S α) (f : α → Prog S β) (g : β → Prog S γ) :
    (m >>= f) >>= g = m >>= fun a => f a >>= g := bind_assoc m f g

/-- The value that is there, or a fault. It stands for the lookups that the
code makes without a test. -/
def load : Option α → Prog S α
  | some a => ret a
  | none => fault

/-- The contents of `x`. -/
def read (x : S.Loc) : Prog S (S.Val x) := access x id ret

/-- Change the contents of `x` by `f`, in one step. -/
def modify (x : S.Loc) (f : S.Val x → S.Val x) : Prog S PUnit := access x f fun _ => ret ⟨⟩

/-- Return the contents of `x` and change them by `f`, in one step, as an
atomic instruction does. -/
def fetch (x : S.Loc) (f : S.Val x → S.Val x) : Prog S (S.Val x) := access x f ret

/-- Set the contents of `x`. -/
def write (x : S.Loc) (v : S.Val x) : Prog S PUnit := modify x fun _ => v

/-- A number chosen by the environment. Statements about all runs hold for
every choice. -/
def answer : Prog S Nat := ask ret

/-- Record an event. -/
def log (e : S.Event) : Prog S PUnit := emit e (ret ⟨⟩)

/-- Call a procedure. -/
def invoke (p : S.Proc) : Prog S S.Res := call p ret

/-- Run two procedures side by side and wait for both. -/
def fork2join (p q : S.Proc) : Prog S PUnit := fork p q (ret ⟨⟩)

end Prog

/-- A running program, or a fork with its two branches and what follows the
join. A branch may fork again, so a configuration is a tree of tasks. -/
inductive Conf (S : Sig) : Type
  | run (p : Prog S S.Res)
  | par (c d : Conf S) (k : Prog S S.Res)

variable {S : Sig}

/-- Some task is stuck at `fault`, whatever the other tasks do. -/
def Conf.Faulty : Conf S → Prop
  | .run .fault => True
  | .run _ => False
  | .par c d _ => c.Faulty ∨ d.Faulty

/-- The configuration with `f` run on its result. -/
def Conf.bind : Conf S → (S.Res → Prog S S.Res) → Conf S
  | .run p, f => .run (p.bind f)
  | .par c d k, f => .par c d (k.bind f)

variable [DecidableEq S.Loc]

/-- One operation of one task. The label is the emitted event, if there is
one. Which of the tasks goes on is not determined, so the runs of a
configuration are all interleavings. A fork is joined when both branches have
returned, and their results are dropped. -/
inductive Step (body : S.Proc → Prog S S.Res) :
    Conf S → S.Store → S.Trace → Conf S → S.Store → Prop
  | access (x : S.Loc) (f : S.Val x → S.Val x) (k : S.Val x → Prog S S.Res) (σ : S.Store) :
      Step body (.run (.access x f k)) σ [] (.run (k (σ x))) (Function.update σ x (f (σ x)))
  | ask (k : Nat → Prog S S.Res) (n : Nat) (σ : S.Store) :
      Step body (.run (.ask k)) σ [] (.run (k n)) σ
  | emit (e : S.Event) (k : Prog S S.Res) (σ : S.Store) :
      Step body (.run (.emit e k)) σ [(e, σ)] (.run k) σ
  | call (p : S.Proc) (k : S.Res → Prog S S.Res) (σ : S.Store) :
      Step body (.run (.call p k)) σ [] (.run ((body p).bind k)) σ
  | fork (p q : S.Proc) (k : Prog S S.Res) (σ : S.Store) :
      Step body (.run (.fork p q k)) σ [] (.par (.run (body p)) (.run (body q)) k) σ
  | left {c c' : Conf S} {σ σ' : S.Store} {ℓ : S.Trace} (d : Conf S) (k : Prog S S.Res) :
      Step body c σ ℓ c' σ' → Step body (.par c d k) σ ℓ (.par c' d k) σ'
  | right {d d' : Conf S} {σ σ' : S.Store} {ℓ : S.Trace} (c : Conf S) (k : Prog S S.Res) :
      Step body d σ ℓ d' σ' → Step body (.par c d k) σ ℓ (.par c d' k) σ'
  | join (a b : S.Res) (k : Prog S S.Res) (σ : S.Store) :
      Step body (.par (.run (.ret a)) (.run (.ret b)) k) σ [] (.run k) σ

/-- A finite run, with the trace of its events. It may stop anywhere. -/
inductive Steps (body : S.Proc → Prog S S.Res) :
    Conf S → S.Store → S.Trace → Conf S → S.Store → Prop
  | refl (c : Conf S) (σ : S.Store) : Steps body c σ [] c σ
  | head {c c₁ c' : Conf S} {σ σ₁ σ' : S.Store} {ℓ τ : S.Trace} :
      Step body c σ ℓ c₁ σ₁ → Steps body c₁ σ₁ τ c' σ' → Steps body c σ (ℓ ++ τ) c' σ'

variable {body : S.Proc → Prog S S.Res}

/-- Runs compose, and so do their traces. -/
theorem Steps.trans {c c₁ c' : Conf S} {σ σ₁ σ' : S.Store} {τ τ' : S.Trace}
    (h : Steps body c σ τ c₁ σ₁) (h' : Steps body c₁ σ₁ τ' c' σ') :
    Steps body c σ (τ ++ τ') c' σ' := by
  induction h with
  | refl => exact h'
  | head hs _ ih =>
      rw [List.append_assoc]
      exact .head hs (ih h')

/-- A configuration has returned, is faulty, or can take a step from every
store. -/
theorem Conf.progress (body : S.Proc → Prog S S.Res) (c : Conf S) (σ : S.Store) :
    (∃ v, c = .run (.ret v)) ∨ c.Faulty ∨ ∃ ℓ c' σ', Step body c σ ℓ c' σ' := by
  induction c with
  | run p =>
      cases p with
      | ret a => exact .inl ⟨a, rfl⟩
      | access x f k => exact .inr (.inr ⟨_, _, _, .access x f k σ⟩)
      | ask k => exact .inr (.inr ⟨_, _, _, .ask k 0 σ⟩)
      | emit e k => exact .inr (.inr ⟨_, _, _, .emit e k σ⟩)
      | call p k => exact .inr (.inr ⟨_, _, _, .call p k σ⟩)
      | fork p q k => exact .inr (.inr ⟨_, _, _, .fork p q k σ⟩)
      | fault => exact .inr (.inl trivial)
  | par c d k ihc ihd =>
      refine .inr ?_
      rcases ihc with ⟨a, rfl⟩ | hf | ⟨ℓ, c', σ', hs⟩
      · rcases ihd with ⟨b, rfl⟩ | hf | ⟨ℓ, d', σ', hs⟩
        · exact .inr ⟨_, _, _, .join a b k σ⟩
        · exact .inl (.inr hf)
        · exact .inr ⟨_, _, _, .right _ k hs⟩
      · exact .inl (.inl hf)
      · exact .inr ⟨_, _, _, .left d k hs⟩

/-- A step of `c.bind f` before `c` has returned is a step of `c`. -/
theorem Step.of_bind {f : S.Res → Prog S S.Res} {c c'' : Conf S} {σ σ' : S.Store}
    {ℓ : S.Trace} (h : Step body (c.bind f) σ ℓ c'' σ') (hc : ∀ v, c ≠ .run (.ret v)) :
    ∃ c', Step body c σ ℓ c' σ' ∧ c'' = c'.bind f := by
  cases c with
  | run p =>
      cases p with
      | ret a => exact absurd rfl (hc a)
      | access x g k => cases h; exact ⟨_, .access x g k σ, rfl⟩
      | ask k => cases h; exact ⟨_, .ask k _ σ, rfl⟩
      | emit e k => cases h; exact ⟨_, .emit e k σ, rfl⟩
      | call p k =>
          cases h
          refine ⟨_, .call p k σ, ?_⟩
          rw [Conf.bind, Prog.bind_assoc]
      | fork p q k => cases h; exact ⟨_, .fork p q k σ, rfl⟩
      | fault => cases h
  | par c d k =>
      cases h with
      | left d k hs => exact ⟨_, .left d _ hs, rfl⟩
      | right c k hs => exact ⟨_, .right c _ hs, rfl⟩
      | join a b k => exact ⟨_, .join a b _ σ, rfl⟩

end HeartbeatCompiler.ForkJoin
