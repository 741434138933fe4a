import Mathlib.Data.Finset.Card
import Mathlib.Logic.Relation
import Mathlib.Order.WellFoundedSet

/-!
# `HeartbeatCompiler.Forest`: levels and roots of a forest

A forest given by the parent of each node. `Rooted parent x n r` says that `r` is reached from
`x` by `n` steps to the parent and has no parent itself. Level and root of a node are unique,
and they exist on a finite set without cycles. In a tree with one node on each level the
levels are those below the number of nodes (`Rooted.level_lt_card`, `exists_level`).
-/

set_option autoImplicit false

namespace Forest

variable {α : Type} {parent parent' : α → Option α} {x y p r r' : α} {n m : Nat}

/-- `x` has the level `n` and the root `r`, in the forest that `parent` gives:
a root is its own root and has level `0`, a child is one level below its
parent. -/
inductive Rooted (parent : α → Option α) : α → Nat → α → Prop
  | root {x : α} : parent x = none → Rooted parent x 0 x
  | child {x p r : α} {n : Nat} : parent x = some p → Rooted parent p n r →
      Rooted parent x (n + 1) r

/-- The ancestors of a node, with the node itself. -/
def Ancestor (parent : α → Option α) : α → α → Prop :=
  Relation.ReflTransGen fun p x => parent x = some p

/-- No node is above itself. In a finite set this makes every node reach a
root. -/
def Acyclic (parent : α → Option α) : Prop :=
  ∀ x, ¬ Relation.TransGen (fun p x => parent x = some p) x x

/-- The ancestors of a node lie in every set that has the parents of its
nodes. -/
theorem ancestor_mem {s : Finset α} (hclosed : ∀ x p, x ∈ s → parent x = some p → p ∈ s)
    (hx : x ∈ s) (hy : Ancestor parent y x) : y ∈ s := by
  induction hy with
  | refl => exact hx
  | tail _ hpx ih => exact ih (hclosed _ _ hx hpx)

namespace Rooted

/-- A node has one level and one root. -/
theorem unique (h : Rooted parent x n r) (h' : Rooted parent x m r') : n = m ∧ r = r' := by
  induction h generalizing m with
  | root hx =>
      cases h' with
      | root _ => exact ⟨rfl, rfl⟩
      | child hx' _ => rw [hx] at hx'; cases hx'
  | child hx _ ih =>
      cases h' with
      | root hx' => rw [hx] at hx'; cases hx'
      | child hx' h' =>
          rw [hx, Option.some.injEq] at hx'
          subst hx'
          exact ⟨congrArg (· + 1) (ih h').1, (ih h').2⟩

/-- The root is a root. -/
theorem isRoot (h : Rooted parent x n r) : Rooted parent r 0 r := by
  induction h with
  | root hx => exact .root hx
  | child _ _ ih => exact ih

/-- The ancestors have the same root and are not below the node. -/
theorem ancestor (h : Rooted parent x n r) (hy : Ancestor parent y x) :
    ∃ m, m ≤ n ∧ Rooted parent y m r := by
  induction hy generalizing n with
  | refl => exact ⟨n, le_refl n, h⟩
  | @tail p x _ hpx ih =>
      cases h with
      | root hx => rw [hx] at hpx; cases hpx
      | child hx h =>
          rw [hx, Option.some.injEq] at hpx
          subst hpx
          obtain ⟨m, hm, hy⟩ := ih h
          exact ⟨m, Nat.le_succ_of_le hm, hy⟩

/-- No node is above its parent. -/
theorem not_ancestor (hx : parent x = some p) (h : Rooted parent p n r) :
    ¬ Ancestor parent x p := by
  intro hxp
  obtain ⟨m, hm, hx'⟩ := h.ancestor hxp
  have := ((Rooted.child hx h).unique hx').1
  omega

/-- There is an ancestor on each level above the node. -/
theorem exists_ancestor (h : Rooted parent x n r) (hm : m ≤ n) :
    ∃ y, Ancestor parent y x ∧ Rooted parent y m r := by
  induction h with
  | @root x hx =>
      obtain rfl : m = 0 := Nat.le_zero.mp hm
      exact ⟨x, .refl, .root hx⟩
  | @child x p r n hx h ih =>
      by_cases heq : m = n + 1
      · exact ⟨x, .refl, heq ▸ .child hx h⟩
      · obtain ⟨y, hy, hlevel⟩ := ih (by omega)
        exact ⟨y, hy.tail hx, hlevel⟩

/-- Level and root depend on the parents in a set only that has the parents of
its nodes. -/
theorem congr {s : α → Prop} (hclosed : ∀ x p, s x → parent x = some p → s p)
    (heq : ∀ x, s x → parent' x = parent x) (hx : s x) (h : Rooted parent x n r) :
    Rooted parent' x n r := by
  induction h with
  | root hroot => exact .root ((heq _ hx).trans hroot)
  | child hp _ ih => exact .child ((heq _ hx).trans hp) (ih (hclosed _ _ hx hp))

end Rooted

/-- On a finite set without cycles that has the parents of its nodes every
node has a level and a root. -/
theorem exists_rooted (s : Finset α) (hclosed : ∀ x p, x ∈ s → parent x = some p → p ∈ s)
    (hacyclic : Acyclic parent) (hx : x ∈ s) : ∃ n r, Rooted parent x n r := by
  let above : α → α → Prop := Relation.TransGen fun p x => parent x = some p
  have hstrict : IsStrictOrder α above :=
    { irrefl := hacyclic, trans := fun _ _ _ h h' => h.trans h' }
  refine (s.wellFoundedOn (r := above)).induction (P := fun x => ∃ n r, Rooted parent x n r)
    hx fun x hx ih => ?_
  cases hp : parent x with
  | none => exact ⟨0, x, .root hp⟩
  | some p =>
      obtain ⟨n, r, h⟩ := ih p (hclosed x p hx hp) (.single hp)
      exact ⟨n + 1, r, .child hp h⟩

/-- In a finite set that has the parents of its nodes the levels are below its
size. -/
theorem Rooted.level_lt_card {s : Finset α}
    (hclosed : ∀ x p, x ∈ s → parent x = some p → p ∈ s) (hx : x ∈ s)
    (h : Rooted parent x n r) : n < s.card := by
  classical
  -- The ancestors of `x` have all levels up to `n`.
  let level : α → Nat := fun y => if hy : ∃ m, Rooted parent y m r then hy.choose else 0
  have hsurj : Set.SurjOn level s (Finset.range (n + 1)) := by
    intro m hm
    obtain ⟨y, hy, hlevel⟩ := h.exists_ancestor (Nat.le_of_lt_succ (Finset.mem_range.mp hm))
    have hex : ∃ m, Rooted parent y m r := by
      obtain ⟨m', _, hm'⟩ := h.ancestor hy
      exact ⟨m', hm'⟩
    refine ⟨y, ancestor_mem hclosed hx hy, ?_⟩
    rw [show level y = hex.choose from dif_pos hex]
    exact (hex.choose_spec.unique hlevel).1
  have hcard := Finset.card_le_card_of_surjOn level hsurj
  rw [Finset.card_range] at hcard
  exact hcard

/-- A finite set of numbers without gaps is the set of the numbers below its
size. -/
theorem eq_range_of_lower {s : Finset Nat} (h : ∀ n ∈ s, ∀ m, m ≤ n → m ∈ s) :
    s = Finset.range s.card := by
  refine Finset.eq_of_subset_of_card_le (fun n hn => ?_) (by rw [Finset.card_range])
  have hsub : Finset.range (n + 1) ⊆ s := fun m hm =>
    h n hn m (Nat.le_of_lt_succ (Finset.mem_range.mp hm))
  have hcard := Finset.card_le_card hsub
  rw [Finset.card_range] at hcard
  exact Finset.mem_range.mpr hcard

section Tree

variable {s : Finset α}

/-- The levels of a tree with one node on each level. -/
theorem image_level (parent : α → Option α) (level : α → Nat)
    (hclosed : ∀ x p, x ∈ s → parent x = some p → p ∈ s)
    (hlevel : ∀ x ∈ s, Rooted parent x (level x) r)
    (hone : ∀ x ∈ s, ∀ y ∈ s, level x = level y → x = y) :
    s.image level = Finset.range s.card := by
  have hcard : (s.image level).card = s.card :=
    Finset.card_image_of_injOn fun x hx y hy h => hone x hx y hy h
  rw [← hcard]
  refine eq_range_of_lower fun n hn m hm => ?_
  obtain ⟨x, hx, rfl⟩ := Finset.mem_image.mp hn
  obtain ⟨y, hy, hlevel'⟩ := (hlevel x hx).exists_ancestor hm
  have hys : y ∈ s := ancestor_mem hclosed hx hy
  exact Finset.mem_image.mpr ⟨y, hys, ((hlevel y hys).unique hlevel').1⟩

end Tree

end Forest
