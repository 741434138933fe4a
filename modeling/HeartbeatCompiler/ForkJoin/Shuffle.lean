import Mathlib.Data.List.Perm.Basic
import Mathlib.Data.List.Perm.Lattice

/-!
# `HeartbeatCompiler.ForkJoin.Shuffle`: the merges of two lists

Two tasks that run side by side leave one trace, a merge of their own traces that keeps
the order inside each. `Shuffle t u w` says that `w` is such a merge of `t` and `u`.

* `Shuffle.perm`: a merge is a permutation of the concatenation.
* `Shuffle.filterMap`: a projection of a merge is a merge of the projections.
* `Shuffle.split`: cutting a merge cuts both operands.
-/

set_option autoImplicit false

namespace HeartbeatCompiler.ForkJoin

variable {α β : Type*}

/-- `w` is a merge of `t` and `u` that keeps the order inside `t` and inside
`u`. The trace of a fork is a merge of the traces of its branches. -/
inductive Shuffle : List α → List α → List α → Prop
  | done : Shuffle [] [] []
  | left {t u w : List α} (a : α) : Shuffle t u w → Shuffle (a :: t) u (a :: w)
  | right {t u w : List α} (a : α) : Shuffle t u w → Shuffle t (a :: u) (a :: w)

namespace Shuffle

/-- Merging with the empty list on the left changes nothing. -/
theorem nil_left (u : List α) : Shuffle [] u u := by
  induction u with
  | nil => exact .done
  | cons a u ih => exact .right a ih

/-- Merging with the empty list on the right changes nothing. -/
theorem nil_right (t : List α) : Shuffle t [] t := by
  induction t with
  | nil => exact .done
  | cons a t ih => exact .left a ih

/-- A block in front of the left operand may be run first. -/
theorem append_left (ℓ : List α) {t u w : List α} (h : Shuffle t u w) :
    Shuffle (ℓ ++ t) u (ℓ ++ w) := by
  induction ℓ with
  | nil => exact h
  | cons a ℓ ih => exact .left a ih

/-- A block in front of the right operand may be run first. -/
theorem append_right (ℓ : List α) {t u w : List α} (h : Shuffle t u w) :
    Shuffle t (ℓ ++ u) (ℓ ++ w) := by
  induction ℓ with
  | nil => exact h
  | cons a ℓ ih => exact .right a ih

/-- A merge has the elements of both operands, each as often as they have it
together. -/
theorem perm {t u w : List α} (h : Shuffle t u w) : w.Perm (t ++ u) := by
  induction h with
  | done => exact .nil
  | left a _ ih => exact ih.cons a
  | right a _ ih => exact (ih.cons a).trans List.perm_middle.symm

/-- The elements of a merge are those of its operands. -/
theorem mem_iff {t u w : List α} (h : Shuffle t u w) {a : α} : a ∈ w ↔ a ∈ t ∨ a ∈ u := by
  rw [h.perm.mem_iff, List.mem_append]

/-- Projecting a merge merges the projections. -/
theorem filterMap (f : α → Option β) {t u w : List α} (h : Shuffle t u w) :
    Shuffle (t.filterMap f) (u.filterMap f) (w.filterMap f) := by
  induction h with
  | done => exact .done
  | left a _ ih =>
      cases hf : f a with
      | none => simpa [List.filterMap_cons, hf] using ih
      | some b => simpa [List.filterMap_cons, hf] using ih.left b
  | right a _ ih =>
      cases hf : f a with
      | none => simpa [List.filterMap_cons, hf] using ih
      | some b => simpa [List.filterMap_cons, hf] using ih.right b

/-- A merge that is cut in two cuts both operands, and each half is a merge of
the corresponding halves. -/
theorem split {w : List α} :
    ∀ {t u x y : List α}, Shuffle t u w → w = x ++ y →
      ∃ t₁ t₂ u₁ u₂, t = t₁ ++ t₂ ∧ u = u₁ ++ u₂ ∧ Shuffle t₁ u₁ x ∧ Shuffle t₂ u₂ y := by
  intro t u x y h
  induction h generalizing x with
  | done =>
      intro hw
      obtain ⟨rfl, rfl⟩ := List.append_eq_nil_iff.mp hw.symm
      exact ⟨[], [], [], [], rfl, rfl, .done, .done⟩
  | @left t u w a h ih =>
      intro hw
      -- By induction on the merge: while the first part lasts, the next element goes to the
      -- operand that it came from.
      cases x with
      | nil =>
          have hy : a :: w = y := by simpa using hw
          exact ⟨[], a :: t, [], u, rfl, rfl, .done, hy ▸ h.left a⟩
      | cons b x =>
          obtain ⟨rfl, hw'⟩ := List.cons.inj (by simpa using hw)
          obtain ⟨t₁, t₂, u₁, u₂, rfl, rfl, h₁, h₂⟩ := ih hw'
          exact ⟨a :: t₁, t₂, u₁, u₂, rfl, rfl, h₁.left a, h₂⟩
  | @right t u w a h ih =>
      intro hw
      cases x with
      | nil =>
          have hy : a :: w = y := by simpa using hw
          exact ⟨[], t, [], a :: u, rfl, rfl, .done, hy ▸ h.right a⟩
      | cons b x =>
          obtain ⟨rfl, hw'⟩ := List.cons.inj (by simpa using hw)
          obtain ⟨t₁, t₂, u₁, u₂, rfl, rfl, h₁, h₂⟩ := ih hw'
          exact ⟨t₁, t₂, a :: u₁, u₂, rfl, rfl, h₁.right a, h₂⟩

end Shuffle

end HeartbeatCompiler.ForkJoin
