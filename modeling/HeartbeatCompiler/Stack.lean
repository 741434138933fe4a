import HeartbeatCompiler.Nest
import Mathlib.Data.Set.Basic
import Mathlib.Data.List.Infix

/-!
# `HeartbeatCompiler.Stack`: what the suspended calls of a task still have to do

A path is the call stack of an activation, and it tells what the task will run by itself
once the current call has returned: the rest of the loops that are suspended, and the rows
that the leftover tasks have not come to. A promotion that split level `s` makes every
activation suspended below it leave its loop, down to level `s`; `unstarted` carries that
level along the stack.

`Pending` is the invariant that ties the stack to the rows of the context. It has one lemma
for each kind of call.
-/

set_option autoImplicit false

namespace HeartbeatCompiler

/-- The activations that are suspended below the activation `π`: the frames
that are on its stack. -/
def Path.callers : Path → Set Path
  | [] => ∅
  | _ :: π => {ρ | ρ <:+ π}

/-- An activation is not below itself. -/
theorem Path.not_mem_callers (π : Path) : π ∉ π.callers := by
  cases π with
  | nil => exact fun h => h
  | cons x π =>
      intro h
      have hle : (x :: π).length ≤ π.length := List.IsSuffix.length_le h
      rw [List.length_cons] at hle
      omega

/-- The activations on the stack of `π` are `π` itself and its callers. -/
theorem Path.suffix_iff {ρ π : Path} : ρ <:+ π ↔ ρ = π ∨ ρ ∈ π.callers := by
  cases π with
  | nil => simp [Path.callers]
  | cons x π => exact List.suffix_cons_iff

/-- The first level whose row of the context the current branch may still have
to run: the splitting level of the innermost split whose branch the activation
is in. The rows above it belong to the task that was split. `r` is the level
of the leaf loop. -/
def Path.low (r : Nat) : Path → Nat
  | [] => 0
  | .nested _ _ _ :: π => Path.low r π
  | .leftover s _ :: _ => s
  | .first :: _ => r
  | .second s :: _ => s

/-- The level of the slice that the current branch, or the current block of
its leftover task, has called. From there inwards the levels are suspended in
activations of this branch; between `low` and `base` they are left to the
later blocks. -/
def Path.base (r : Nat) : Path → Nat
  | [] => 0
  | .nested _ _ _ :: π => Path.base r π
  | .leftover _ level :: _ => level
  | .first :: _ => r
  | .second s :: _ => s

/-- The iterations `a` up to `b` of level `l`. -/
def iterationsOf (l a b : Nat) : List (Nat × Nat) := (List.range' a (b - a)).map fun x => (l, x)

/-- The iterations of a row after the one in progress, as its two entries say;
none if one is missing. -/
def rowUnstarted (rows : Nat → Row) (l : Nat) : List (Nat × Nat) :=
  match (rows l).start, (rows l).max with
  | some start, some max => iterationsOf l (start + 1) max
  | _, _ => []

/-- The iterations, as pairs of level and index, that the calls suspended on
the stack have not started and will run, if the innermost one is left together
with the activations of level `doom` and deeper. It is read off from the stack
alone: a loop runs the rest of its range, a leftover task the blocks that are
still to come, and a split hides what lies further out. -/
def unstarted (r : Nat) (rows : Nat → Row) : Path → Option Nat → List (Nat × Nat)
  | [], _ => []
  | .nested l i max :: π, doom =>
      (if doom.all (l < ·) then iterationsOf l (i + 1) max else []) ++ unstarted r rows π doom
  | .leftover s level :: π, doom =>
      (if doom.all (level ≤ ·) then (List.range' s (level - s)).flatMap (rowUnstarted rows)
        else []) ++ unstarted r rows π (some s)
  | .first :: π, _ => unstarted r rows π (some r)
  | .second _ :: _, _ => []

/-- What the task of a leaf activation has not started when it calls the
handler: the rest of its own range and what is suspended. The handler does not
strand any of it. -/
def Nest.unstartedAt (n : Nest) (f : Frame) (rows : Nat → Row) : List (Nat × Nat) :=
  rowUnstarted rows f.level ++ unstarted n.leafLevel rows f.path none

/-- The exit bound in a row; of a row without one nothing is claimed. -/
def bound (rows : Nat → Row) (l : Nat) : Nat := (rows l).max.getD 0

/-- The index in progress at a level, the number at its place in the vector of
the iteration. -/
def index (v : List Nat) (l : Nat) : Nat := v.getD l 0

/-- The levels below the length of `v` are suspended at the indices of `v`,
and their rows hold what they still have to run:

- `low_le`: the outermost level of the task has an index in `v`, or is the next
  one;
- `suspended`: what the stack has not started is what the rows say;
- `given`: if all rows down to a level were emptied, leaving the loops there
  strands nothing. -/
structure Pending (r : Nat) (π : Path) (v : List Nat) (rows : Nat → Row) : Prop where
  low_le : π.low r ≤ v.length
  suspended : ∀ rows' : Nat → Row, (∀ l, l < v.length → rows' l = rows l) →
    ∀ x : Nat × Nat, x ∈ unstarted r rows' π none ↔
      π.low r ≤ x.1 ∧ x.1 < v.length ∧ index v x.1 < x.2 ∧ x.2 < bound rows x.1
  given : ∀ (rows' : Nat → Row) (d : Nat), π.low r ≤ d →
    (∀ l, l < v.length → l < d → rows' l = rows l) →
    (∀ l, π.low r ≤ l → l < v.length → l < d → bound rows l ≤ index v l + 1) →
    unstarted r rows' π (some d) = []

/-- The members of `iterationsOf l a b` are the pairs of the level `l` and an
index of `[a, b)`. -/
theorem mem_iterationsOf {l a b : Nat} {x : Nat × Nat} :
    x ∈ iterationsOf l a b ↔ x.1 = l ∧ a ≤ x.2 ∧ x.2 < b := by
  rw [iterationsOf, List.mem_map]
  constructor
  · rintro ⟨y, hy, rfl⟩
    rw [List.mem_range'_1] at hy
    exact ⟨rfl, by omega, by omega⟩
  · rintro ⟨rfl, ha, hb⟩
    exact ⟨x.2, List.mem_range'_1.mpr (by omega), rfl⟩

/-- An empty range has no iterations. -/
theorem iterationsOf_of_le {l a b : Nat} (h : b ≤ a) : iterationsOf l a b = [] := by
  rw [iterationsOf, Nat.sub_eq_zero_of_le h]
  rfl

/-- A row whose start and max slots are both filled leaves the iterations
behind the current one, up to its bound. -/
theorem rowUnstarted_eq {rows : Nat → Row} {l i : Nat} (hs : (rows l).start = some i)
    (hm : (rows l).max = some (bound rows l)) :
    rowUnstarted rows l = iterationsOf l (i + 1) (bound rows l) := by
  rw [rowUnstarted, hs, hm]

/-- The index just appended is the one of the new level. -/
theorem index_append_self (v : List Nat) (i : Nat) : index (v ++ [i]) v.length = i := by
  simp [index]

/-- Appending an index leaves the indices of the outer levels as they are. -/
theorem index_append_of_lt {v : List Nat} {l : Nat} (i : Nat) (h : l < v.length) :
    index (v ++ [i]) l = index v l := by
  simp [index, List.getElem?_append_left h]

/-- A prefix of the indices has the same index at every level it reaches. -/
theorem index_take_of_lt (v : List Nat) {k l : Nat} (h : l < k) :
    index (v.take k) l = index v l := by
  simp [index, List.getElem?_take_of_lt h]

/-- The prefix up to and with the level `l` is the prefix before it, followed
by the index of `l`. -/
theorem take_succ_eq {v : List Nat} {l : Nat} (h : l < v.length) :
    v.take (l + 1) = v.take l ++ [index v l] := by
  rw [List.take_add_one, index, List.getD_eq_getElem?_getD, List.getElem?_eq_getElem h]
  rfl

namespace Pending

variable {r : Nat} {π : Path} {v : List Nat} {rows : Nat → Row}

/-- Only the rows of the suspended levels matter. -/
theorem congr (h : Pending r π v rows) {rows' : Nat → Row}
    (hrows : ∀ l, l < v.length → rows' l = rows l) : Pending r π v rows' where
  low_le := h.low_le
  suspended rows₁ h₁ x := by
    rw [h.suspended rows₁ (fun l hl => (h₁ l hl).trans (hrows l hl)) x]
    refine and_congr_right fun _ => and_congr_right fun hl => ?_
    rw [bound, bound, hrows x.1 hl]
  given rows₁ d hd h₁ hempty :=
    h.given rows₁ d hd (fun l hl hld => (h₁ l hl hld).trans (hrows l hl)) fun l h₂ h₃ h₄ => by
      have := hempty l h₂ h₃ h₄
      rwa [bound, hrows l h₃] at this

/-- Nothing is suspended below the root slice. -/
theorem root (r : Nat) (rows : Nat → Row) : Pending r [] [] rows where
  low_le := le_refl 0
  suspended rows' _ x := by simp [unstarted]
  given rows' d _ _ _ := rfl

/-- Nothing is suspended below a second task. -/
theorem second (r : Nat) (π : Path) {s : Nat} (hs : s ≤ v.length) (rows : Nat → Row) :
    Pending r (.second s :: π) (v.take s) rows where
  low_le := by simp [Path.low, hs]
  suspended rows' _ x := by
    simp only [unstarted, List.not_mem_nil, Path.low, List.length_take, false_iff]
    omega
  given rows' d _ _ _ := rfl

/-- A nested call suspends the loop of its caller: one more level is pending,
with the iteration in progress as its index. -/
theorem nested (h : Pending r π v rows) {i b : Nat} (hb : bound rows v.length = b) :
    Pending r (.nested v.length i b :: π) (v ++ [i]) rows where
  low_le := by
    have := h.low_le
    simp only [Path.low, List.length_append, List.length_singleton]
    omega
  suspended rows' hrows x := by
    have ih := h.suspended rows' fun l hl => hrows l (by simp; omega)
    have hlow := h.low_le
    simp only [unstarted, Option.all_none, if_true, List.mem_append, mem_iterationsOf, ih x,
      List.length_append, List.length_singleton, Path.low]
    -- What is pending around the nested call is what was pending around the loop, and the rest
    -- of the loop itself behind the iteration in progress.
    constructor
    · rintro (⟨hx, h₁, h₂⟩ | ⟨h₁, h₂, h₃, h₄⟩)
      · rw [hx, index_append_self, hb]
        omega
      · rw [index_append_of_lt i h₂]
        omega
    · rintro ⟨h₁, h₂, h₃, h₄⟩
      rcases Nat.lt_succ_iff_lt_or_eq.mp h₂ with hlt | heq
      · rw [index_append_of_lt i hlt] at h₃
        exact .inr ⟨h₁, hlt, h₃, h₄⟩
      · rw [heq, index_append_self] at h₃
        rw [heq, hb] at h₄
        exact .inl ⟨heq, h₃, h₄⟩
  given rows' d hd hrows hempty := by
    have ih := h.given rows' d hd (fun l hl => hrows l (by simp; omega)) fun l h₁ h₂ h₃ => by
      have := hempty l h₁ (by simp; omega) h₃
      rwa [index_append_of_lt i h₂] at this
    rw [unstarted, ih, List.append_nil]
    -- If the loop itself is given away, its rest was empty.
    by_cases hlt : v.length < d
    · have := hempty v.length h.low_le (by simp) hlt
      rw [index_append_self, hb] at this
      rw [iterationsOf_of_le this, ite_self]
    · simp [hlt]

/-- A block of a leftover task suspends the blocks after it. The activations
suspended below the promotion are left, or have nothing to do above the
splitting level. -/
theorem leftover {rows₀ : Nat → Row} (h : Pending r π v rows₀) {s k : Nat}
    (hlow : π.low r ≤ s) (hsk : s ≤ k) (hk : k ≤ v.length)
    (habove : ∀ l, l < s → rows l = rows₀ l)
    (hempty : ∀ l, π.low r ≤ l → l < s → bound rows₀ l ≤ index v l + 1)
    (hstart : ∀ l, s ≤ l → l < k → (rows l).start = some (index v l))
    (hmax : ∀ l, s ≤ l → l < k → (rows l).max = some (bound rows l)) :
    Pending r (.leftover s k :: π) (v.take k) rows := by
  have hlen : (v.take k).length = k := by rw [List.length_take]; omega
  -- What is suspended below the promotion contributes nothing.
  have houter : ∀ rows' : Nat → Row, (∀ l, l < s → rows' l = rows l) →
      unstarted r rows' π (some s) = [] := fun rows' hrows =>
    h.given rows' s hlow (fun l _ hl => (hrows l hl).trans (habove l hl))
      fun l h₁ _ h₃ => hempty l h₁ h₃
  have hrow : ∀ rows' : Nat → Row, (∀ l, l < k → rows' l = rows l) → ∀ l, s ≤ l → l < k →
      rowUnstarted rows' l = iterationsOf l (index v l + 1) (bound rows l) := by
    intro rows' hrows l h₁ h₂
    have hb : bound rows' l = bound rows l := by rw [bound, bound, hrows l h₂]
    rw [rowUnstarted_eq (by rw [hrows l h₂]; exact hstart l h₁ h₂)
      (by rw [hb, hrows l h₂]; exact hmax l h₁ h₂), hb]
  refine ⟨by rw [hlen]; exact hsk, ?_, ?_⟩
  · intro rows' hrows x
    rw [hlen] at hrows ⊢
    rw [unstarted, houter rows' fun l hl => hrows l (by omega), List.append_nil]
    simp only [Option.all_none, if_true, List.mem_flatMap, List.mem_range'_1, Path.low]
    constructor
    · rintro ⟨l, hl, hx⟩
      rw [hrow rows' hrows l hl.1 (by omega), mem_iterationsOf] at hx
      obtain ⟨rfl, h₁, h₂⟩ := hx
      rw [index_take_of_lt v (show x.1 < k by omega)]
      omega
    · rintro ⟨h₁, h₂, h₃, h₄⟩
      rw [index_take_of_lt v h₂] at h₃
      refine ⟨x.1, by omega, ?_⟩
      rw [hrow rows' hrows x.1 h₁ h₂, mem_iterationsOf]
      exact ⟨rfl, h₃, h₄⟩
  · intro rows' d hd hrows hgiven
    rw [hlen] at hrows hgiven
    rw [unstarted, houter rows' fun l hl => hrows l (by omega) (lt_of_lt_of_le hl hd),
      List.append_nil]
    by_cases hkd : k ≤ d
    · have hnil : (List.range' s (k - s)).flatMap (rowUnstarted rows') = [] := by
        rw [List.flatMap_eq_nil_iff]
        intro l hl
        rw [List.mem_range'_1] at hl
        have := hgiven l hl.1 (by omega) (by omega)
        rw [index_take_of_lt v (show l < k by omega)] at this
        rw [hrow rows' (fun l hl => hrows l hl (by omega)) l hl.1 (by omega),
          iterationsOf_of_le this]
      rw [hnil, ite_self]
    · simp [hkd]

/-- The first half of a split at the leaf level suspends nothing that has
something to do. -/
theorem first {rows₀ : Nat → Row} (h : Pending r π v rows₀) (hlow : π.low r ≤ r)
    (hr : r ≤ v.length) (habove : ∀ l, l < r → rows l = rows₀ l)
    (hempty : ∀ l, π.low r ≤ l → l < r → bound rows₀ l ≤ index v l + 1) :
    Pending r (.first :: π) (v.take r) rows := by
  have hlen : (v.take r).length = r := by rw [List.length_take]; omega
  have houter : ∀ rows' : Nat → Row, (∀ l, l < r → rows' l = rows l) →
      unstarted r rows' π (some r) = [] := fun rows' hrows =>
    h.given rows' r hlow (fun l _ hl => (hrows l hl).trans (habove l hl))
      fun l h₁ _ h₃ => hempty l h₁ h₃
  refine ⟨by rw [hlen]; exact le_refl r, ?_, ?_⟩
  · intro rows' hrows x
    rw [hlen] at hrows ⊢
    rw [unstarted, houter rows' hrows]
    simp only [List.not_mem_nil, Path.low, false_iff]
    omega
  · intro rows' d hd hrows _
    rw [hlen] at hrows
    rw [unstarted, houter rows' fun l hl => hrows l hl (lt_of_lt_of_le hl hd)]

end Pending

end HeartbeatCompiler
