import HeartbeatCompiler.ForkJoin.Prog

/-!
# `HeartbeatCompiler.ForkJoin.Calls`: which procedures a program calls

`Prog.Calls P` says that a program only ever calls and forks procedures in `P`, whatever it
reads and is answered. If the bodies of the procedures in `P` keep to `P`, so does every run
(`Steps.calls`), and two tables of procedures that agree on `P` have the same runs
(`steps_congr_body`).
-/

set_option autoImplicit false

namespace HeartbeatCompiler.ForkJoin

variable {S : Sig} {α β : Type} {P : S.Proc → Prop}

/-- The program calls and forks procedures in `P` only, whatever it reads and
is answered. -/
def Prog.Calls (P : S.Proc → Prop) : Prog S α → Prop
  | .ret _ => True
  | .access _ _ k => ∀ v, (k v).Calls P
  | .ask k => ∀ n, (k n).Calls P
  | .emit _ k => k.Calls P
  | .call p k => P p ∧ ∀ r, (k r).Calls P
  | .fork p q k => P p ∧ P q ∧ k.Calls P
  | .fault => True

namespace Prog.Calls

/-- A program in sequence calls what its parts call. -/
theorem bind {m : Prog S α} {f : α → Prog S β} (hm : m.Calls P) (hf : ∀ a, (f a).Calls P) :
    (m >>= f).Calls P := by
  show (m.bind f).Calls P
  induction m with
  | ret a => exact hf a
  | access x g k ih => exact fun v => ih v (hm v)
  | ask k ih => exact fun n => ih n (hm n)
  | emit e k ih => exact ih hm
  | call p k ih => exact ⟨hm.1, fun r => ih r (hm.2 r)⟩
  | fork p q k ih => exact ⟨hm.1, hm.2.1, ih hm.2.2⟩
  | fault => trivial

/-- Returning calls nothing. -/
theorem pure (a : α) : (Pure.pure a : Prog S α).Calls P := trivial

/-- A value is loaded only if it is there. -/
theorem load {o : Option α} {k : α → Prog S β} (h : ∀ a, o = some a → (k a).Calls P) :
    (Prog.load o >>= k).Calls P := by
  cases o with
  | none => trivial
  | some a => exact h a rfl

/-- Reading calls nothing. -/
theorem read {x : S.Loc} {k : S.Val x → Prog S β} (h : ∀ v, (k v).Calls P) :
    (Prog.read x >>= k).Calls P := h

/-- Changing calls nothing. -/
theorem modify {x : S.Loc} {f : S.Val x → S.Val x} {k : PUnit → Prog S β}
    (h : (k ⟨⟩).Calls P) : (Prog.modify x f >>= k).Calls P := fun _ => h

/-- An event calls nothing. -/
theorem log {e : S.Event} {k : PUnit → Prog S β} (h : (k ⟨⟩).Calls P) :
    (Prog.log e >>= k).Calls P := h

/-- A call is the call of its procedure. -/
theorem invoke {p : S.Proc} (h : P p) : (Prog.invoke p).Calls P := ⟨h, fun _ => trivial⟩

/-- A fork calls both procedures. -/
theorem fork2join {p q : S.Proc} (hp : P p) (hq : P q) : (Prog.fork2join p q).Calls P :=
  ⟨hp, hq, trivial⟩

end Prog.Calls

/-- All tasks call procedures in `P` only. -/
def Conf.Calls (P : S.Proc → Prop) : Conf S → Prop
  | .run p => p.Calls P
  | .par c d k => c.Calls P ∧ d.Calls P ∧ k.Calls P

variable [DecidableEq S.Loc] {body body' : S.Proc → Prog S S.Res} {c c' : Conf S}
  {σ σ' : S.Store} {ℓ τ : S.Trace}

/-- A step keeps to `P`. -/
theorem Step.calls (hbody : ∀ p, P p → (body p).Calls P) (h : Step body c σ ℓ c' σ')
    (hc : c.Calls P) : c'.Calls P := by
  induction h with
  | access x f k σ => exact hc _
  | ask k n σ => exact hc n
  | emit e k σ => exact hc
  | call p k σ => exact (hbody p hc.1).bind hc.2
  | fork p q k σ => exact ⟨hbody p hc.1, hbody q hc.2.1, hc.2.2⟩
  | left d k _ ih => exact ⟨ih hc.1, hc.2⟩
  | right c k _ ih => exact ⟨hc.1, ih hc.2.1, hc.2.2⟩
  | join a b k σ => exact hc.2.2

/-- A run keeps to `P`. -/
theorem Steps.calls (hbody : ∀ p, P p → (body p).Calls P) (h : Steps body c σ τ c' σ')
    (hc : c.Calls P) : c'.Calls P := by
  induction h with
  | refl => exact hc
  | head hs _ ih => exact ih (hs.calls hbody hc)

/-- A step looks up procedures in `P` only. -/
theorem Step.congr_body (heq : ∀ p, P p → body' p = body p) (h : Step body c σ ℓ c' σ')
    (hc : c.Calls P) : Step body' c σ ℓ c' σ' := by
  induction h with
  | access x f k σ => exact .access x f k σ
  | ask k n σ => exact .ask k n σ
  | emit e k σ => exact .emit e k σ
  | call p k σ =>
      rw [← heq p hc.1]
      exact .call p k σ
  | fork p q k σ =>
      rw [← heq p hc.1, ← heq q hc.2.1]
      exact .fork p q k σ
  | left d k _ ih => exact .left d k (ih hc.1)
  | right c k _ ih => exact .right c k (ih hc.2.1)
  | join a b k σ => exact .join a b k σ

/-- Bodies that are equal where they are called have the same runs. -/
theorem Steps.congr_body (heq : ∀ p, P p → body' p = body p)
    (hbody : ∀ p, P p → (body p).Calls P) (h : Steps body c σ τ c' σ') (hc : c.Calls P) :
    Steps body' c σ τ c' σ' := by
  induction h with
  | refl => exact .refl _ _
  | head hs _ ih => exact .head (hs.congr_body heq hc) (ih (hs.calls hbody hc))

/-- Two tables that agree on the procedures that are called have the same
runs. -/
theorem steps_congr_body (heq : ∀ p, P p → body' p = body p)
    (hbody : ∀ p, P p → (body p).Calls P) (hc : c.Calls P) :
    Steps body' c σ τ c' σ' ↔ Steps body c σ τ c' σ' := by
  refine ⟨fun h => ?_, fun h => h.congr_body heq hbody hc⟩
  refine h.congr_body (fun p hp => (heq p hp).symm) (fun p hp => ?_) hc
  rw [heq p hp]
  exact hbody p hp

end HeartbeatCompiler.ForkJoin
