import HeartbeatCompiler.Nest
import Mathlib.Data.List.Nodup
import Mathlib.Data.List.Range
import Mathlib.Algebra.Order.Group.Multiset
import Mathlib.Data.Multiset.Filter

/-!
# `HeartbeatCompiler.Sequential`: the sequential nest

What the nest does when its loops run one after another: the list of the pieces of code that
are executed (`Nest.iterations`) and the fold of the contributions to the live-outs of one
level (`Nest.total`). Both are given for a part `[a, b)` of a loop, since this is what a
slice is asked to do, and both split where the range is split.

* `Nest.iterations_append`, `Nest.total_append`: splitting a range.
* `Nest.nodup_iterations`: nothing is executed twice.
* `Nest.mem_sequential`: what is executed are the vectors in range.
-/

set_option autoImplicit false

namespace HeartbeatCompiler

/-- The pieces of code of an iteration: before and after the nested call, or
the leaf body. They are what must be executed exactly once. -/
inductive Work
  | pre (v : List Nat)
  | post (v : List Nat)
  | leaf (v : List Nat)
  deriving DecidableEq

/-- The iteration a piece of code belongs to. -/
def Work.vector : Work → List Nat
  | pre v => v
  | post v => v
  | leaf v => v

/-- The iteration that starts with a piece of code: the first of its pieces,
or the only one at a leaf. -/
def Work.starts : Work → Option (List Nat)
  | pre v => some v
  | post _ => none
  | leaf v => some v

namespace Nest

variable (n : Nest)

/-- The iteration `v`, with `k` levels of loops inside it: what lies before
the nested loop, the iterations of that loop in their order, and what lies
behind it. -/
def iterationAt : Nat → List Nat → List Work
  | 0, v => [.leaf v]
  | k + 1, v =>
      .pre v :: (List.range' (n.startIter v) (n.maxIter v - n.startIter v)).flatMap
        (fun i => iterationAt k (v ++ [i])) ++ [.post v]

/-- The iteration `v`. -/
def iteration (v : List Nat) : List Work := n.iterationAt (n.numLevels - v.length) v

/-- The iterations `a` up to `b` of the loop with outer indices `v`, with all
that they execute. Ranges with `b` at most `a` are empty. -/
def iterations (v : List Nat) (a b : Nat) : List Work :=
  (List.range' a (b - a)).flatMap fun i => n.iteration (v ++ [i])

/-- What is executed inside the iteration `v` of a level with a nested loop. -/
def below (v : List Nat) : List Work := n.iterations v (n.startIter v) (n.maxIter v)

/-- The whole nest, in the order in which the source runs it. This is the
specification that the runs of the generated program are compared with. -/
def sequential : List Work := n.below []

variable {n}

/-- An iteration of the leaf loop is its body. -/
theorem iteration_leaf {v : List Nat} (h : n.numLevels ≤ v.length) :
    n.iteration v = [.leaf v] := by
  rw [iteration, Nat.sub_eq_zero_of_le h, iterationAt]

/-- An iteration of another loop runs the nested loop. -/
theorem iteration_nest {v : List Nat} (h : v.length < n.numLevels) :
    n.iteration v = .pre v :: n.below v ++ [.post v] := by
  obtain ⟨k, hk⟩ : ∃ k, n.numLevels - v.length = k + 1 := ⟨_, (Nat.sub_add_cancel (by omega)).symm⟩
  have hk' : ∀ i : Nat, n.numLevels - (v ++ [i]).length = k := fun i => by
    rw [List.length_append, List.length_singleton]
    omega
  simp only [iteration, hk, iterationAt, below, iterations, hk']

/-- An empty range runs nothing. -/
theorem iterations_of_le (v : List Nat) {a b : Nat} (h : b ≤ a) : n.iterations v a b = [] := by
  rw [iterations, Nat.sub_eq_zero_of_le h]
  rfl

/-- The first iteration comes first. -/
theorem iterations_of_lt (v : List Nat) {a b : Nat} (h : a < b) :
    n.iterations v a b = n.iteration (v ++ [a]) ++ n.iterations v (a + 1) b := by
  obtain ⟨k, hk⟩ : ∃ k, b - a = k + 1 := ⟨b - a - 1, by omega⟩
  rw [iterations, iterations, hk, show b - (a + 1) = k by omega, List.range'_succ,
    List.flatMap_cons]

/-- A range may be cut anywhere. -/
theorem iterations_append (v : List Nat) {a c b : Nat} (hac : a ≤ c) (hcb : c ≤ b) :
    n.iterations v a c ++ n.iterations v c b = n.iterations v a b := by
  rw [iterations, iterations, iterations, ← List.flatMap_append,
    show b - a = (c - a) + (b - c) by omega, ← List.range'_append_1,
    show a + (c - a) = c by omega]

/-- The last iteration comes last. -/
theorem iterations_succ (v : List Nat) {a i : Nat} (h : a ≤ i) :
    n.iterations v a (i + 1) = n.iterations v a i ++ n.iteration (v ++ [i]) := by
  rw [← iterations_append v h (Nat.le_succ i), iterations_of_lt v (Nat.lt_succ_self i),
    iterations_of_le v (le_refl _), List.append_nil]

/-! ### Nothing is executed twice -/

/-- What is executed in an iteration belongs to vectors that extend it. -/
theorem prefix_of_mem_iterationAt {k : Nat} {v : List Nat} {w : Work}
    (h : w ∈ n.iterationAt k v) : v <+: w.vector := by
  induction k generalizing v with
  | zero =>
      rw [iterationAt, List.mem_singleton] at h
      rw [h]
      exact List.prefix_rfl
  | succ k ih =>
      simp only [iterationAt, List.cons_append, List.mem_cons, List.mem_append,
        List.mem_flatMap, List.not_mem_nil, or_false] at h
      rcases h with rfl | ⟨i, _, hi⟩ | rfl
      · exact List.prefix_rfl
      · exact (List.prefix_append v [i]).trans (ih hi)
      · exact List.prefix_rfl

/-- Iterations of one loop have nothing in common. -/
theorem iterationAt_disjoint {k : Nat} {v : List Nat} {i j : Nat} (hij : i ≠ j) :
    List.Disjoint (n.iterationAt k (v ++ [i])) (n.iterationAt k (v ++ [j])) := by
  intro w hi hj
  have h := List.prefix_of_prefix_length_le (prefix_of_mem_iterationAt hi)
    (prefix_of_mem_iterationAt hj) (by simp)
  have heq := h.eq_of_length (by simp)
  exact hij (by simpa using heq)

/-- Nothing is executed twice in an iteration: a piece of code is known by its
index vector and its kind. -/
theorem nodup_iterationAt (k : Nat) (v : List Nat) : (n.iterationAt k v).Nodup := by
  induction k generalizing v with
  | zero => exact List.nodup_singleton _
  | succ k ih =>
      -- What the loop inside executes has longer vectors than the pieces before and behind it.
      have hin : ∀ w ∈ (List.range' (n.startIter v) (n.maxIter v - n.startIter v)).flatMap
          (fun i => n.iterationAt k (v ++ [i])), v.length < w.vector.length := by
        intro w hw
        obtain ⟨i, _, hi⟩ := List.mem_flatMap.mp hw
        have := (prefix_of_mem_iterationAt hi).length_le
        rw [List.length_append, List.length_singleton] at this
        omega
      have hloop : ((List.range' (n.startIter v) (n.maxIter v - n.startIter v)).flatMap
          (fun i => n.iterationAt k (v ++ [i]))).Nodup := by
        rw [List.nodup_flatMap]
        -- By induction on the levels below, each iteration of the loop executes nothing twice;
        -- different iterations differ in the index of this level.
        refine ⟨fun i _ => ih _, ?_⟩
        exact (List.nodup_range' 1).imp fun hij => iterationAt_disjoint hij
      rw [iterationAt, List.cons_append, List.nodup_cons, List.mem_append, List.mem_singleton]
      refine ⟨?_, List.nodup_append.mpr ⟨hloop, List.nodup_singleton _, ?_⟩⟩
      · rintro (hw | hw)
        · exact absurd (hin _ hw) (lt_irrefl _)
        · cases hw
      · intro w hw w' hw' heq
        rw [List.mem_singleton] at hw'
        subst heq hw'
        exact absurd (hin _ hw) (lt_irrefl _)

/-- Nothing is executed twice in a part of a loop. -/
theorem nodup_iterations (v : List Nat) (a b : Nat) : (n.iterations v a b).Nodup := by
  rw [iterations, List.nodup_flatMap]
  refine ⟨fun i _ => nodup_iterationAt _ _, ?_⟩
  refine (List.nodup_range' 1).imp fun hij => ?_
  simp only [iteration, List.length_append, List.length_singleton]
  exact iterationAt_disjoint hij

/-! ### The vectors of the nest -/

variable (n) in
/-- The indices of `v` from position `m` on lie in the ranges of their loops. -/
def InRangeFrom (m : Nat) (v : List Nat) : Prop :=
  ∀ l, m ≤ l → (h : l < v.length) → n.startIter (v.take l) ≤ v[l] ∧ v[l] < n.maxIter (v.take l)

variable (n) in
/-- The piece of code is of the kind that the level of its iteration has. -/
def HasKind : Work → Prop
  | .pre v => v.length < n.numLevels
  | .post v => v.length < n.numLevels
  | .leaf v => v.length = n.numLevels

/-- What an iteration executes: the vectors that extend it, with every further
index in range. The induction is on the levels below. -/
theorem mem_iterationAt {k : Nat} {u : List Nat} (hk : u.length + k = n.numLevels) {w : Work} :
    w ∈ n.iterationAt k u ↔
      u <+: w.vector ∧ n.InRangeFrom u.length w.vector ∧ n.HasKind w := by
  induction k generalizing u with
  | zero =>
      rw [iterationAt, List.mem_singleton]
      constructor
      · rintro rfl
        exact ⟨List.prefix_rfl, fun l hl h => absurd h (not_lt.mpr hl), hk⟩
      · -- At the leaf the only vector is the one of the iteration: the two other kinds have
        -- shorter ones.
        rintro ⟨hu, -, hw⟩
        cases w with
        | leaf v =>
            have : v.length = u.length := by
              have h : v.length = n.numLevels := hw
              omega
            rw [hu.eq_of_length this.symm]
            rfl
        | pre v =>
            have h : v.length < n.numLevels := hw
            have := hu.length_le
            simp only [Work.vector] at this
            omega
        | post v =>
            have h : v.length < n.numLevels := hw
            have := hu.length_le
            simp only [Work.vector] at this
            omega
  | succ k ih =>
      have hlen : ∀ i : Nat, (u ++ [i]).length = u.length + 1 := fun i => by simp
      simp only [iterationAt, List.cons_append, List.mem_cons, List.mem_append,
        List.mem_flatMap, List.mem_range'_1, List.not_mem_nil, or_false]
      constructor
      · rintro (rfl | ⟨i, hi, hw⟩ | rfl)
        · exact ⟨List.prefix_rfl, fun l hl h => absurd h (not_lt.mpr hl),
            show u.length < _ by omega⟩
        · rw [ih (by rw [hlen]; omega)] at hw
          obtain ⟨⟨t, ht⟩, hr, hkind⟩ := hw
          refine ⟨⟨i :: t, by simpa using ht⟩, ?_, hkind⟩
          intro l hl h
          rcases Nat.eq_or_lt_of_le hl with rfl | hl
          · -- The index of this level is `i`, and it is in the range that the vector before it
            -- fixes.
            have htake : w.vector.take u.length = u := by rw [← ht]; simp
            have hget : w.vector[u.length] = i := by simp [← ht]
            rw [htake, hget]
            omega
          · exact hr l (by rw [hlen]; omega) h
        · exact ⟨List.prefix_rfl, fun l hl h => absurd h (not_lt.mpr hl),
            show u.length < _ by omega⟩
      · rintro ⟨⟨t, ht⟩, hr, hkind⟩
        -- An extension by nothing is the piece before or behind the loop; any other starts with
        -- an index of this level.
        cases t with
        | nil =>
            rw [List.append_nil] at ht
            cases w with
            | pre v => exact .inl (by rw [ht]; rfl)
            | post v => exact .inr (.inr (by rw [ht]; rfl))
            | leaf v =>
                have h : v.length = n.numLevels := hkind
                have h' : u = v := ht
                rw [← h'] at h
                omega
        | cons i t =>
            refine .inr (.inl ⟨i, ?_, ?_⟩)
            · have hlt : u.length < w.vector.length := by rw [← ht]; simp
              have := hr u.length (le_refl _) hlt
              have htake : w.vector.take u.length = u := by rw [← ht]; simp
              have hget : w.vector[u.length] = i := by simp [← ht]
              rw [htake, hget] at this
              omega
            · rw [ih (by rw [hlen]; omega)]
              refine ⟨⟨t, by simpa using ht⟩, fun l hl h => hr l ?_ h, hkind⟩
              rw [hlen] at hl
              omega

/-- What the nest executes: the vectors in range, each piece of code at its
own level. -/
theorem mem_sequential {w : Work} :
    w ∈ n.sequential ↔ w.vector ≠ [] ∧ n.InRangeFrom 0 w.vector ∧ n.HasKind w := by
  obtain ⟨k, hk⟩ : ∃ k, n.numLevels = k + 1 := ⟨_, (Nat.sub_add_cancel n.numLevels_pos).symm⟩
  have hseq : n.sequential = n.iterations [] (n.startIter []) (n.maxIter []) := rfl
  simp only [hseq, iterations, List.mem_flatMap, List.mem_range'_1, iteration, List.nil_append,
    List.length_singleton]
  constructor
  · rintro ⟨i, hi, hw⟩
    rw [mem_iterationAt (by simp; omega)] at hw
    obtain ⟨⟨t, ht⟩, hr, hkind⟩ := hw
    refine ⟨fun h => by simp [h] at ht, ?_, hkind⟩
    intro l _ h
    -- The first index is in the range of the outermost loop, the others in those of the levels
    -- below.
    cases l with
    | zero =>
        have hget : w.vector[0] = i := by simp [← ht]
        rw [List.take_zero, hget]
        omega
    | succ l => exact hr (l + 1) (by simp) h
  · rintro ⟨hne, hr, hkind⟩
    obtain ⟨i, t, ht⟩ := List.exists_cons_of_ne_nil hne
    refine ⟨i, ?_, ?_⟩
    · have hpos : 0 < w.vector.length := by rw [ht]; simp
      have := hr 0 (le_refl _) hpos
      have hget : w.vector[0] = i := by simp [ht]
      rw [List.take_zero, hget] at this
      omega
    · rw [mem_iterationAt (by simp; omega)]
      exact ⟨⟨t, by rw [ht]; rfl⟩, fun l _ h => hr l (Nat.zero_le _) h, hkind⟩

/-! ### The reductions -/

variable (n) in
/-- The contributions of the iterations `a` up to `b`, folded from the
identity. Totals of adjacent ranges combine by the operator (`total_append`). -/
def total (v : List Nat) (l a b : Nat) : n.Values l := fun j =>
  (List.range' a (b - a)).foldl
    (fun x i => (n.reduction l j).op x (n.contribution l (v ++ [i]) j)) (n.reduction l j).identity

/-- Nothing adds up to the identity. -/
theorem total_of_le (v : List Nat) (l : Nat) {a b : Nat} (h : b ≤ a) :
    n.total v l a b = fun j => (n.reduction l j).identity := by
  funext j
  rw [total, Nat.sub_eq_zero_of_le h]
  rfl

/-- The next iteration is added on the right. -/
theorem total_succ (v : List Nat) (l : Nat) {a i : Nat} (h : a ≤ i)
    (j : Fin (n.numLiveOuts l)) :
    n.total v l a (i + 1) j =
      (n.reduction l j).op (n.total v l a i j) (n.contribution l (v ++ [i]) j) := by
  rw [total, total, show i + 1 - a = (i - a) + 1 by omega, List.range'_1_concat,
    List.foldl_append, show a + (i - a) = i by omega]
  rfl

/-- A range may be cut anywhere. -/
theorem total_append (v : List Nat) (l : Nat) {a c b : Nat} (hac : a ≤ c) (hcb : c ≤ b)
    (j : Fin (n.numLiveOuts l)) : (n.reduction l j).op (n.total v l a c j) (n.total v l c b j) =
      n.total v l a b j := by
  induction b, hcb using Nat.le_induction with
  | base =>
      rw [total_of_le v l (le_refl c), (n.reduction l j).comm, (n.reduction l j).identity_op]
  | succ b hcb ih =>
      rw [total_succ v l hcb, ← (n.reduction l j).assoc, ih,
        total_succ v l (hac.trans hcb)]

end Nest

end HeartbeatCompiler
