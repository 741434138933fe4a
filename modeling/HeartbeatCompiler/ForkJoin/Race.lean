import HeartbeatCompiler.ForkJoin.Prog
import Mathlib.Data.Set.Disjoint
import Mathlib.Order.CompletePartialOrder
import Mathlib.Data.Set.Lattice

/-!
# `HeartbeatCompiler.ForkJoin.Race`: data races

Two branches of a fork race on a location if both are about to access it and at least one of
the two is about to change it (`Conf.Race`). In `Steps` every access is atomic, so a race
does no harm there; a program without races is one for which this atomicity is no assumption.

`Conf.Confined free rel mod` says what the next operations of a configuration touch: outside
`free` they access only `rel` and race on nothing, and they change only `mod`. Two branches
of which neither changes what the other one relies on are confined together (`Confined.par`).

The last section follows a given schedule (`play`), in order to find a race where there is one.
-/

set_option autoImplicit false

namespace HeartbeatCompiler.ForkJoin

variable {S : Sig}

namespace Conf

/-- Some task is about to access `x`, to read it or to change it. -/
def Accesses (x : S.Loc) : Conf S → Prop
  | .run (.access y _ _) => y = x
  | .run _ => False
  | .par c d _ => c.Accesses x ∨ d.Accesses x

/-- Some task is about to access `x` in order to change it. A read is an
access that changes nothing. -/
def Changes (x : S.Loc) : Conf S → Prop
  | .run (.access y f _) => y = x ∧ f ≠ id
  | .run _ => False
  | .par c d _ => c.Changes x ∨ d.Changes x

/-- Two tasks that run side by side are about to access `x`, and one of them
changes it. Each could be first, so this is a race in the usual sense. -/
def Race (x : S.Loc) : Conf S → Prop
  | .run _ => False
  | .par c d _ => c.Race x ∨ d.Race x ∨ (c.Changes x ∧ d.Accesses x) ∨
      (c.Accesses x ∧ d.Changes x)

/-- What is changed is accessed. -/
theorem Changes.accesses {x : S.Loc} {c : Conf S} (h : c.Changes x) :
    c.Accesses x := by
  induction c with
  | run p => cases p with
    | access y f k => exact h.1
    | _ => exact h.elim
  | par c d k ihc ihd => exact h.imp ihc ihd

/-- What is raced on is accessed. -/
theorem Race.accesses {x : S.Loc} {c : Conf S} (h : c.Race x) : c.Accesses x := by
  induction c with
  | run p => exact h.elim
  | par c d k ihc ihd =>
      rcases h with h | h | ⟨h, -⟩ | ⟨h, -⟩
      · exact .inl (ihc h)
      · exact .inr (ihd h)
      · exact .inl h.accesses
      · exact .inl h

/-- What follows the return of a configuration is not accessed before it. -/
theorem accesses_of_bind {x : S.Loc} {c : Conf S} {f : S.Res → Prog S S.Res}
    (hc : ∀ v, c ≠ .run (.ret v)) (h : (c.bind f).Accesses x) : c.Accesses x := by
  cases c with
  | run p => cases p with
    | ret v => exact absurd rfl (hc v)
    | access y g k => exact h
    | _ => exact h.elim
  | par c d k => exact h

/-- The next operations access `rel`, change `mod` and race on nothing, `free`
apart. It is the part of `Wp` that races are read off from. -/
structure Confined (free rel mod : Set S.Loc) (c : Conf S) : Prop where
  accesses : ∀ x, c.Accesses x → x ∈ rel ∨ x ∈ free
  changes : ∀ x, c.Changes x → x ∈ mod
  race : ∀ x, c.Race x → x ∈ free

variable {free rel mod rel' mod' : Set S.Loc} {c d : Conf S}

namespace Confined

/-- A confined configuration stays confined when it may read and write more. -/
theorem mono (h : c.Confined free rel mod) (hrel : rel ⊆ rel') (hmod : mod ⊆ mod') :
    c.Confined free rel' mod' where
  accesses x hx := (h.accesses x hx).imp_left fun hr => hrel hr
  changes x hx := hmod (h.changes x hx)
  race := h.race

/-- A task that does not access the store next. -/
theorem of_silent {p : Prog S S.Res} (h : ∀ x f k, p ≠ .access x f k) :
    (Conf.run p).Confined free rel mod := by
  cases p with
  | access x f k => exact absurd rfl (h x f k)
  | _ => exact ⟨fun _ hx => hx.elim, fun _ hx => hx.elim, fun _ hx => hx.elim⟩

/-- A single access is confined if it may read its location, and write it
unless it leaves it as it is. The answer decides nothing here: what follows it
is the program's next step. -/
theorem access {x : S.Loc} {f : S.Val x → S.Val x} {k : S.Val x → Prog S S.Res}
    (hrel : x ∈ rel ∨ x ∈ free) (hmod : f ≠ id → x ∈ mod) :
    (Conf.run (.access x f k)).Confined free rel mod where
  accesses y hy := by
    obtain rfl : x = y := hy
    exact hrel
  changes y hy := by
    obtain ⟨rfl, hf⟩ : x = y ∧ f ≠ id := hy
    exact hmod hf
  race _ hy := hy.elim

/-- What follows the return of a configuration does not matter before it. -/
theorem bind (h : c.Confined free rel mod) (hc : ∀ v, c ≠ .run (.ret v))
    (f : S.Res → Prog S S.Res) : (c.bind f).Confined free rel mod := by
  cases c with
  | run p => cases p with
    | ret v => exact absurd rfl (hc v)
    | access x g k => exact ⟨h.accesses, h.changes, h.race⟩
    | _ => exact ⟨fun _ hx => hx.elim, fun _ hx => hx.elim, fun _ hx => hx.elim⟩
  | par c d k => exact ⟨h.accesses, h.changes, h.race⟩

/-- Two branches of which neither changes what the other one relies on. -/
theorem par {rel₁ rel₂ mod₁ mod₂ : Set S.Loc} (hr₁ : rel₁ ⊆ rel) (hr₂ : rel₂ ⊆ rel)
    (hm₁ : mod₁ ⊆ mod) (hm₂ : mod₂ ⊆ mod) (h₁₂ : Disjoint mod₁ rel₂)
    (h₂₁ : Disjoint mod₂ rel₁) (hc : c.Confined free rel₁ mod₁)
    (hd : d.Confined free rel₂ mod₂) (k : Prog S S.Res) :
    (Conf.par c d k).Confined free rel mod where
  accesses x hx := by
    rcases hx with hx | hx
    · exact (hc.accesses x hx).imp_left fun hr => hr₁ hr
    · exact (hd.accesses x hx).imp_left fun hr => hr₂ hr
  changes x hx := hx.elim (fun hx => hm₁ (hc.changes x hx)) fun hx => hm₂ (hd.changes x hx)
  race x hx := by
    rcases hx with hx | hx | ⟨hx, hx'⟩ | ⟨hx', hx⟩
    · exact hc.race x hx
    · exact hd.race x hx
    · exact (hd.accesses x hx').resolve_left
        (Set.disjoint_left.mp h₁₂ (hc.changes x hx))
    · exact (hc.accesses x hx').resolve_left
        (Set.disjoint_left.mp h₂₁ (hd.changes x hx))

end Confined

end Conf

/-! ### A given schedule -/

section Schedule

variable [DecidableEq S.Loc] {body : S.Proc → Prog S S.Res}

/-- One operation of the branch at `path`, in which `true` is the second
branch of a fork. With it the steps of an interleaving are computed. -/
def stepAt (body : S.Proc → Prog S S.Res) (answer : Nat) :
    List Bool → Conf S → S.Store → Option (Conf S × S.Store)
  | [], .run (.access x f k), σ => some (.run (k (σ x)), Function.update σ x (f (σ x)))
  | [], .run (.ask k), σ => some (.run (k answer), σ)
  | [], .run (.emit _ k), σ => some (.run k, σ)
  | [], .run (.call p k), σ => some (.run ((body p).bind k), σ)
  | [], .run (.fork p q k), σ => some (.par (.run (body p)) (.run (body q)) k, σ)
  | [], .par (.run (.ret _)) (.run (.ret _)) k, σ => some (.run k, σ)
  | false :: path, .par c d k, σ => (stepAt body answer path c σ).map fun o => (.par o.1 d k, o.2)
  | true :: path, .par c d k, σ => (stepAt body answer path d σ).map fun o => (.par c o.1 k, o.2)
  | _, _, _ => none

/-- Some operations of the branch at `path`, with one answer for all that ask.
-/
def stepsAt (body : S.Proc → Prog S S.Res) (path : List Bool) (answer : Nat) :
    Nat → Conf S × S.Store → Option (Conf S × S.Store)
  | 0, o => some o
  | k + 1, o => (stepAt body answer path o.1 o.2).bind (stepsAt body path answer k)

/-- The turns of a schedule: a branch, its answers and the number of its
operations. -/
def play (body : S.Proc → Prog S S.Res) :
    List (List Bool × Nat × Nat) → Conf S × S.Store → Option (Conf S × S.Store)
  | [], o => some o
  | (path, answer, k) :: turns, o => (stepsAt body path answer k o).bind (play body turns)

/-- A step that the scheduler computes at a path of the tree of configurations
is a step of the semantics. -/
theorem stepAt_sound {answer : Nat} {path : List Bool} {c : Conf S} {σ : S.Store}
    {o : Conf S × S.Store} (h : stepAt body answer path c σ = some o) :
    ∃ ℓ, Step body c σ ℓ o.1 o.2 := by
  induction path generalizing c o with
  | nil =>
      cases c with
      | run p =>
          cases p with
          | access x f k => cases h; exact ⟨_, .access x f k σ⟩
          | ask k => cases h; exact ⟨_, .ask k answer σ⟩
          | emit e k => cases h; exact ⟨_, .emit e k σ⟩
          | call p k => cases h; exact ⟨_, .call p k σ⟩
          | fork p q k => cases h; exact ⟨_, .fork p q k σ⟩
          | ret a => cases h
          | fault => cases h
      | par c d k =>
          -- Only a fork whose branches have both returned has an operation of its own.
          cases c with
          | par _ _ _ => cases h
          | run p =>
              cases d with
              | par _ _ _ => cases p <;> cases h
              | run q =>
                  cases p with
                  | ret a =>
                      cases q with
                      | ret b => cases h; exact ⟨_, .join a b k σ⟩
                      | _ => cases h
                  | _ => cases h
  | cons b path ih =>
      cases c with
      | run p => cases b <;> cases p <;> cases h
      | par c d k =>
          cases b with
          | false =>
              obtain ⟨o₁, h₁, rfl⟩ := Option.map_eq_some_iff.mp h
              obtain ⟨ℓ, hs⟩ := ih h₁
              exact ⟨ℓ, .left d k hs⟩
          | true =>
              obtain ⟨o₁, h₁, rfl⟩ := Option.map_eq_some_iff.mp h
              obtain ⟨ℓ, hs⟩ := ih h₁
              exact ⟨ℓ, .right c k hs⟩

/-- So are `k` steps of the scheduler at one path. -/
theorem stepsAt_sound {path : List Bool} {answer k : Nat} {o o' : Conf S × S.Store}
    (h : stepsAt body path answer k o = some o') :
    ∃ τ, Steps body o.1 o.2 τ o'.1 o'.2 := by
  induction k generalizing o with
  | zero => cases h; exact ⟨_, .refl _ _⟩
  | succ k ih =>
      obtain ⟨o₁, h₁, h₂⟩ := Option.bind_eq_some_iff.mp h
      obtain ⟨ℓ, hs⟩ := stepAt_sound h₁
      obtain ⟨τ, hrun⟩ := ih h₂
      exact ⟨_, .head hs hrun⟩

/-- What a schedule leads to is reached by a run. -/
theorem play_sound {turns : List (List Bool × Nat × Nat)} {o o' : Conf S × S.Store}
    (h : play body turns o = some o') : ∃ τ, Steps body o.1 o.2 τ o'.1 o'.2 := by
  induction turns generalizing o with
  | nil => cases h; exact ⟨_, .refl _ _⟩
  | cons turn turns ih =>
      obtain ⟨o₁, h₁, h₂⟩ := Option.bind_eq_some_iff.mp h
      obtain ⟨τ, hrun⟩ := stepsAt_sound h₁
      obtain ⟨τ', hrun'⟩ := ih h₂
      exact ⟨_, hrun.trans hrun'⟩

namespace Conf

/-- Some task is about to access `x` with a change that passes the test. -/
def accessesWith (x : S.Loc) (test : (S.Val x → S.Val x) → Bool) : Conf S → Bool
  | .run (.access y f _) => if h : y = x then test (h ▸ f) else false
  | .run _ => false
  | .par c d _ => c.accessesWith x test || d.accessesWith x test

/-- A race on `x` in which both accesses pass the test. -/
def raceWith (x : S.Loc) (test : (S.Val x → S.Val x) → Bool) : Conf S → Bool
  | .run _ => false
  | .par c d _ => c.raceWith x test || d.raceWith x test ||
      (c.accessesWith x test && d.accessesWith x test)

variable {x : S.Loc} {test : (S.Val x → S.Val x) → Bool} {c : Conf S}

/-- An access that is found, with a test that only changes pass. -/
theorem changes_of_accessesWith (htest : ∀ f, test f = true → f ≠ id)
    (h : c.accessesWith x test = true) : c.Changes x := by
  induction c with
  | run p =>
      cases p with
      | access y f k =>
          unfold accessesWith at h
          split at h
          · rename_i hy
            subst hy
            exact ⟨rfl, htest f h⟩
          · cases h
      | _ => cases h
  | par c d k ihc ihd =>
      rcases (Bool.or_eq_true _ _).mp h with h | h
      · exact .inl (ihc h)
      · exact .inr (ihd h)

/-- A race that is found is one. -/
theorem race_of_raceWith (htest : ∀ f, test f = true → f ≠ id)
    (h : c.raceWith x test = true) : c.Race x := by
  induction c with
  | run p => cases h
  | par c d k ihc ihd =>
      rcases (Bool.or_eq_true _ _).mp h with h | h
      · rcases (Bool.or_eq_true _ _).mp h with h | h
        · exact .inl (ihc h)
        · exact .inr (.inl (ihd h))
      · obtain ⟨hc, hd⟩ := (Bool.and_eq_true _ _).mp h
        exact .inr (.inr (.inl ⟨changes_of_accessesWith htest hc,
          (changes_of_accessesWith htest hd).accesses⟩))

end Conf

end Schedule

end HeartbeatCompiler.ForkJoin
