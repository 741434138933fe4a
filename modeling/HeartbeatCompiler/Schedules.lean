import HeartbeatCompiler.Execution

/-!
# `HeartbeatCompiler.Schedules`: in which order a run executes the nest

`exactly_once` says what a run executes; these results say in which order, for every nest,
every answer of the polls and every interleaving.

* `executed_in_order`: a piece of code is executed after everything it needs, so what a
  finished run executes is a linear extension of the order of the nest.
* `sequential_until_promoted`: before its first promotion a run executes the nest in the
  sequential order.
-/

set_option autoImplicit false

namespace HeartbeatCompiler

open ForkJoin

variable {n : Nest}

/-- What a piece of code of the nest needs: that the iterations around it have
been entered, and, if it ends an iteration, that everything in that iteration
has been executed. Two iterations of one loop do not need each other, since
the loops that are compiled are parallel loops. -/
inductive Work.Needs : Work → Work → Prop
  | entered {w : Work} {u : List Nat} (h : w.Within u) : Needs w (.pre u)
  | ended {d : Work} {u : List Nat} (h : u <+: d.vector) (hne : d ≠ .post u) : Needs (.post u) d

/-- What is executed inside an iteration: its parts that are in range. -/
theorem Nest.mem_iteration_of_sequential {u : List Nat} {d : Work} (hd : d ∈ n.sequential)
    (hu : u <+: d.vector) (hlen : u.length ≤ n.numLevels) : d ∈ n.iteration u := by
  obtain ⟨-, hrange, hkind⟩ := Nest.mem_sequential.mp hd
  rw [Nest.iteration, Nest.mem_iterationAt (by omega)]
  exact ⟨hu, fun l hl h => hrange l (Nat.zero_le l) h, hkind⟩

/-- The event that a piece of code in the list of a trace stands for. -/
theorem workList_split {τ : n.sig.Trace} {L₁ L₂ : List Work} {w : Work}
    (h : workList τ = L₁ ++ w :: L₂) :
    ∃ x e y, τ = x ++ e :: y ∧ e.1.work = some w ∧ workList x = L₁ := by
  obtain ⟨x, y, rfl, hx, hy⟩ := List.filterMap_eq_append_iff.mp h
  obtain ⟨z, e, y, rfl, hz, he, -⟩ := List.filterMap_eq_cons_iff.mp hy
  have hnil : workList z = [] := List.filterMap_eq_nil_iff.mpr hz
  refine ⟨x ++ z, e, y, by simp, he, ?_⟩
  rw [workList_append, hnil, List.append_nil]
  exact hx

namespace Nest.Run

variable {σ σ' : n.sig.Store} {τ : n.sig.Trace} {c : Conf n.sig}

/-- The iterations are entered and ended in order. -/
theorem entered_ordered (h : n.Run σ τ c σ') :
    Entered [] τ ∧ Ordered τ ∧ work τ ≤ ↑n.sequential := by
  obtain ⟨τ', r, σ'', h'⟩ := h.completes
  have hruns := h'.finished.runs
  refine ⟨fun x e y w heq => ?_, hruns.ordered.of_append, ?_⟩
  · exact hruns.entered x e (y ++ τ') w (by rw [heq]; simp)
  · rw [← hruns.work_eq, work_append]
    exact Multiset.le_add_right _ _

/-- A piece of code is executed after everything it needs. The contracts of
the activations say so at the places where an iteration is entered and left. -/
theorem mem_of_needs (h : n.Run σ τ c σ') {x y : n.sig.Trace} {e : n.sig.Event × n.sig.Store}
    {w d : Work} (heq : τ = x ++ e :: y) (hw : e.1.work = some w) (hd : d ∈ n.sequential)
    (hneeds : w.Needs d) : d ∈ work x := by
  obtain ⟨hentered, hordered, hle⟩ := h.entered_ordered
  have hpre : ∀ u, Work.pre u ∈ n.sequential → w.Within u → Work.pre u ∈ work x := by
    intro u hu hin
    have hne : u ≠ [] := (Nest.mem_sequential.mp hu).1
    exact (hentered x e y w heq hw u hin hne).resolve_left fun hnil =>
      hne (List.prefix_nil.mp hnil)
  -- A piece needs the entries of the iterations it lies in and, at the end of an iteration, all
  -- that lies inside of it.
  cases hneeds with
  | entered hin => exact hpre _ hd hin
  | @ended d u hu hne =>
      have hmem : Work.post u ∈ n.sequential := by
        have hin : Work.post u ∈ work τ := by
          rw [heq, work_append, show e :: y = (e.1, e.2) :: y from rfl, work_cons, hw]
          simp
        exact Multiset.mem_coe.mp (Multiset.mem_of_le hle hin)
      have hlen : u.length < n.numLevels := (Nest.mem_sequential.mp hmem).2.2
      have hall := Nest.mem_iteration_of_sequential hd hu hlen.le
      rw [Nest.iteration_nest hlen] at hall
      simp only [List.cons_append, List.mem_cons, List.mem_append, List.not_mem_nil,
        or_false] at hall
      -- What lies in the iteration is its entry, something of the nested loop, or the end
      -- itself.
      rcases hall with rfl | hbelow | hend
      · exact hpre u hd ⟨List.prefix_rfl, by simp, by simp⟩
      · obtain ⟨e, s⟩ := e
        cases e with
        | post u' =>
            cases hw
            exact Multiset.mem_of_le (hordered x u s y heq) hbelow
        | _ => cases hw
      · exact absurd hend hne

end Nest.Run

/-- A finished run of two loops with the given answers and number of
promotions. -/
theorem squareNest_run (answers : List Nat) (k : Nat)
    (h : (exec (squareNest false).body 1000 answers (squareNest false).original
      (squareNest false).blank).any (fun o =>
        decide ((o.2.2.2.filterMap fun e => Event.promotion e.1).length = k)) = true) :
    ∃ τ r σ', (squareNest false).Run (squareNest false).blank τ (.run (.ret r)) σ' ∧
      (promotions τ).card = k := by
  obtain ⟨r, σ', rest, τ, hrun, hcheck⟩ := exec_exists h
  exact ⟨τ, r, σ', hrun, of_decide_eq_true hcheck⟩

/-- For every nest, every answer and every interleaving: when a piece of code
is executed, everything of the nest that it needs has been executed. So a
finished run executes the sequential nest in an order that the nest allows. -/
theorem executed_in_order (n : Nest) (σ : n.sig.Store) (τ : n.sig.Trace) (c : Conf n.sig)
    (σ' : n.sig.Store) (h : n.Run σ τ c σ') :
    (∀ x e y w, τ = x ++ e :: y → e.1.work = some w → ∀ d ∈ n.sequential, w.Needs d →
      d ∈ workList x) ∧
    ∀ r, c = .run (.ret r) → (workList τ).Perm n.sequential ∧
      (workList τ).Pairwise fun w d => ¬ w.Needs d := by
  refine ⟨fun x e y w heq hw d hd hneeds => h.mem_of_needs heq hw hd hneeds, ?_⟩
  rintro r rfl
  have hperm : (workList τ).Perm n.sequential :=
    Multiset.coe_eq_coe.mp (h.finished.runs.work_eq)
  refine ⟨hperm, ?_⟩
  have hnodup : (workList τ).Nodup := hperm.nodup_iff.mpr (Nest.nodup_iterations _ _ _)
  suffices hgen : ∀ L₂ L₁ : List Work, workList τ = L₁ ++ L₂ →
      L₂.Pairwise fun w d => ¬ w.Needs d from hgen _ [] rfl
  intro L₂
  induction L₂ with
  | nil => exact fun _ _ => .nil
  | cons w L₂ ih =>
      intro L₁ heq
      refine .cons (fun d hd hneeds => ?_) (ih (L₁ ++ [w]) (by simpa using heq))
      -- What `w` needs has been executed before it, and is not executed again.
      obtain ⟨x, e, y, hτ, hw, hx⟩ := workList_split heq
      have hseq : d ∈ n.sequential := hperm.mem_iff.mp (by rw [heq]; simp [hd])
      have hbefore : d ∈ workList x := h.mem_of_needs hτ hw hseq hneeds
      rw [heq] at hnodup
      exact List.disjoint_of_nodup_append hnodup (hx ▸ hbefore) (List.mem_cons_of_mem w hd)

/-- A run of two loops with two promotions, the second one in the leftover
task. -/
theorem executed_in_order_square : ∃ τ r σ',
    (squareNest false).Run (squareNest false).blank τ (.run (.ret r)) σ' ∧
      (promotions τ).card = 2 ∧ (workList τ).Perm (squareNest false).sequential ∧
      (workList τ).Pairwise fun w d => ¬ w.Needs d := by
  obtain ⟨τ, r, σ', hrun, htwo⟩ := squareNest_run [1, 1] 2 (by decide +kernel)
  exact ⟨τ, r, σ', hrun, htwo, (executed_in_order _ _ _ _ _ hrun).2 r rfl⟩

/-- For every nest, every answer and every interleaving: up to the first
promotion the code of the nest is executed in the sequential order, and a
finished run without promotions executes the sequential nest. -/
theorem sequential_until_promoted (n : Nest) (σ : n.sig.Store) (τ : n.sig.Trace)
    (c : Conf n.sig) (σ' : n.sig.Store) (h : n.Run σ τ c σ') :
    (∀ x y, τ = x ++ y → promotions x = 0 → workList x <+: n.sequential) ∧
    ∀ r, c = .run (.ret r) → promotions τ = 0 → workList τ = n.sequential := by
  have hinitial : ∀ x y, τ = x ++ y → promotions x = 0 → workList x <+: n.sequential := by
    intro x y heq hx
    obtain ⟨τ', r, σ'', h'⟩ := h.completes
    exact h'.finished.in_order x (y ++ τ') (by rw [heq]; simp) hx
  refine ⟨hinitial, ?_⟩
  rintro r rfl hnone
  have hperm : (workList τ).Perm n.sequential :=
    Multiset.coe_eq_coe.mp (h.finished.runs.work_eq)
  exact (hinitial τ [] (by simp) hnone).eq_of_length hperm.length_eq

/-- Two loops, when no poll finds a heartbeat. -/
theorem sequential_until_promoted_square : ∃ τ r σ',
    (squareNest false).Run (squareNest false).blank τ (.run (.ret r)) σ' ∧
      workList τ = (squareNest false).sequential := by
  obtain ⟨τ, r, σ', hrun, hnone⟩ := squareNest_run [] 0 (by decide +kernel)
  exact ⟨τ, r, σ', hrun, (sequential_until_promoted _ _ _ _ _ hrun).2 r rfl
    (Multiset.card_eq_zero.mp hnone)⟩

end HeartbeatCompiler
