import Mathlib.Data.List.Forall2
import Mathlib.Data.List.Induction
import Mathlib.Logic.Function.Basic

/-!
# `HeartbeatCompiler.Partial`: partial functions along a list

`mapM` and `foldlM` in `Option` succeed when every step of theirs does. The lemmas here take
such a run apart, or make one from its steps. A loop of stores is a `foldl` of
`Function.update`.
-/

set_option autoImplicit false

namespace Partial

variable {α β : Type} {f : α → Option β} {as : List α} {bs : List β}

/-- A list of results is what `mapM` returns exactly if it has, place by
place, the results of the members. -/
theorem mapM_iff : as.mapM f = some bs ↔ List.Forall₂ (fun a b => f a = some b) as bs := by
  induction as generalizing bs with
  | nil =>
      rw [List.mapM_nil, List.forall₂_nil_left_iff, Option.pure_def, Option.some.injEq]
      exact eq_comm
  | cons a as ih =>
      rw [List.mapM_cons, List.forall₂_cons_left_iff]
      simp only [Option.bind_eq_bind, Option.bind_eq_some_iff, Option.pure_def, Option.some.injEq]
      constructor
      · rintro ⟨b, hb, bs', hbs', rfl⟩
        exact ⟨b, bs', hb, ih.mp hbs', rfl⟩
      · rintro ⟨b, bs', hb, hbs', rfl⟩
        exact ⟨b, hb, bs', ih.mpr hbs', rfl⟩

/-- A list on which the function is defined. -/
theorem mapM_eq_some (h : ∀ a ∈ as, ∃ b, f a = some b) :
    ∃ bs, as.mapM f = some bs ∧ List.Forall₂ (fun a b => f a = some b) as bs := by
  have hall : ∃ bs, List.Forall₂ (fun a b => f a = some b) as bs := by
    induction as with
    | nil => exact ⟨[], .nil⟩
    | cons a as ih =>
        obtain ⟨b, hb⟩ := h a List.mem_cons_self
        obtain ⟨bs, hbs⟩ := ih fun a' ha' => h a' (List.mem_cons_of_mem a ha')
        exact ⟨b :: bs, .cons hb hbs⟩
  obtain ⟨bs, hbs⟩ := hall
  exact ⟨bs, mapM_iff.mpr hbs, hbs⟩

/-- If `f` succeeds with `g a` at every member, `mapM` is `map` of `g`. -/
theorem mapM_eq_map {g : α → β} (h : ∀ a ∈ as, f a = some (g a)) :
    as.mapM f = some (as.map g) := by
  rw [mapM_iff, List.forall₂_map_right_iff, List.forall₂_same]
  exact h

/-- If `f` fails at every member of a nonempty list, so does `mapM`: the first
member already fails. -/
theorem mapM_eq_none (hne : as ≠ []) (h : ∀ a ∈ as, f a = none) : as.mapM f = none := by
  cases as with
  | nil => exact absurd rfl hne
  | cons a as =>
      rw [List.mapM_cons, h a List.mem_cons_self]
      rfl

/-- The results stand at the places of their arguments. -/
theorem getElem?_of_mapM (h : as.mapM f = some bs) {i : Nat} {a : α} (ha : as[i]? = some a) :
    ∃ b, bs[i]? = some b ∧ f a = some b := by
  have hall := mapM_iff.mp h
  induction hall generalizing i with
  | nil => cases ha
  | cons hb hrest ih =>
      cases i with
      | zero =>
          obtain rfl := Option.some.inj ha
          exact ⟨_, rfl, hb⟩
      | succ i => exact ih (mapM_iff.mpr hrest) ha

/-- Every member has its result among the results. -/
theorem exists_of_mapM (h : as.mapM f = some bs) {a : α} (ha : a ∈ as) :
    ∃ b ∈ bs, f a = some b := by
  obtain ⟨i, hi⟩ := List.mem_iff_getElem?.mp ha
  obtain ⟨b, hb, hab⟩ := getElem?_of_mapM h hi
  exact ⟨b, List.mem_of_getElem? hb, hab⟩

/-- Every result is the one of a member. -/
theorem mem_of_mapM (h : as.mapM f = some bs) {b : β} (hb : b ∈ bs) : ∃ a ∈ as, f a = some b := by
  have hall := mapM_iff.mp h
  induction hall with
  | nil => cases hb
  | @cons a b' as bs hab hrest ih =>
      rcases List.mem_cons.mp hb with rfl | hb
      · exact ⟨a, List.mem_cons_self, hab⟩
      · obtain ⟨a', ha', hfa⟩ := ih (mapM_iff.mpr hrest) hb
        exact ⟨a', List.mem_cons_of_mem a ha', hfa⟩

/-- Every element is met in a loop that succeeds. -/
theorem exists_of_foldlM {g : β → α → Option β} {b b' : β} (h : as.foldlM g b = some b') :
    ∀ a ∈ as, ∃ c c', g c a = some c' := by
  induction as generalizing b with
  | nil => exact fun a ha => absurd ha List.not_mem_nil
  | cons a as ih =>
      rw [List.foldlM_cons, Option.bind_eq_bind, Option.bind_eq_some_iff] at h
      obtain ⟨c, hc, hrest⟩ := h
      intro a' ha'
      rcases List.mem_cons.mp ha' with rfl | ha'
      · exact ⟨b, c, hc⟩
      · exact ih hrest a' ha'

/-- What a loop of stores leaves at a place that one element only is stored
to. -/
theorem foldl_update {ι : Type} [DecidableEq ι] {key : α → ι} {value : α → β} {a : α}
    (ha : a ∈ as) (hunique : ∀ a' ∈ as, key a' = key a → a' = a) (mem : ι → β) :
    as.foldl (fun mem a => Function.update mem (key a) (value a)) mem (key a) = value a := by
  induction as using List.reverseRecOn with
  | nil => exact absurd ha List.not_mem_nil
  | append_singleton as a' ih =>
      rw [List.foldl_append, List.foldl_cons, List.foldl_nil]
      by_cases heq : key a = key a'
      · obtain rfl := hunique a' (List.mem_append_right as (List.mem_singleton_self a')) heq.symm
        exact Function.update_self _ _ _
      · rw [Function.update_of_ne heq]
        refine ih ?_ fun b hb => hunique b (List.mem_append_left _ hb)
        rcases List.mem_append.mp ha with ha | ha
        · exact ha
        · exact absurd (congrArg key (List.mem_singleton.mp ha)) heq

end Partial
