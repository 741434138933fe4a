import HeartbeatCompiler.ForkJoin.Shuffle
import HeartbeatCompiler.Sequential

/-!
# `HeartbeatCompiler.History`: what a trace says about the nest

Projections of a trace: the pieces of code it executes (`work`), the iterations that became
the first one of a second task (`promotions`), and the order in which an iteration and what
lies below it are executed (`Ordered`, `Entered`). Each of them is determined by the parts of a
trace, whether these follow each other or are merged.
-/

set_option autoImplicit false

namespace HeartbeatCompiler

open ForkJoin

variable {n : Nest}

/-- The piece of code that an event reports. -/
def Event.work : Event n → Option Work
  | .pre v => some (.pre v)
  | .post v => some (.post v)
  | .leaf v => some (.leaf v)
  | _ => none

/-- The first iteration of the second task that an event reports. Promotions
are named by it. -/
def Event.promotion : Event n → Option (List Nat)
  | .promoted _ _ _ _ v => some v
  | _ => none

/-- The pieces of code a trace executes, in the order of the trace. Of an
interleaving this is one of the orders in which the tasks may have run. -/
def workList (τ : n.sig.Trace) : List Work := τ.filterMap fun e => Event.work e.1

/-- The pieces of code a trace executes, without their order: with their
multiplicities, so that a piece that is run twice counts twice. -/
def work (τ : n.sig.Trace) : Multiset Work := ↑(τ.filterMap fun e => Event.work e.1)

/-- The first iterations of the second tasks, one for each promotion of the
trace. -/
def promotions (τ : n.sig.Trace) : Multiset (List Nat) :=
  ↑(τ.filterMap fun e => Event.promotion e.1)

/-- The iterations that are started by some pieces of code, by their first
pieces. -/
def starts (W : Multiset Work) : Multiset (List Nat) := W.filterMap Work.starts

/-- The empty trace executes nothing. -/
@[simp]
theorem work_nil : work ([] : n.sig.Trace) = 0 := rfl

/-- What two traces execute one after the other. -/
@[simp]
theorem work_append (τ τ' : n.sig.Trace) : work (τ ++ τ') = work τ + work τ' := by
  rw [work, List.filterMap_append, ← Multiset.coe_add]
  rfl

/-- The same, in the order of the traces. -/
theorem workList_append (τ τ' : n.sig.Trace) :
    workList (τ ++ τ') = workList τ ++ workList τ' :=
  List.filterMap_append

/-- The pieces of code without their order. -/
theorem coe_workList (τ : n.sig.Trace) : (↑(workList τ) : Multiset Work) = work τ := rfl

/-- What two traces execute side by side. -/
theorem work_shuffle {τ τ' τ'' : n.sig.Trace} (h : Shuffle τ τ' τ'') :
    work τ'' = work τ + work τ' := by
  rw [← work_append]
  exact Multiset.coe_eq_coe.mpr (h.perm.filterMap _)

/-- The empty trace does not promote. -/
@[simp]
theorem promotions_nil : promotions ([] : n.sig.Trace) = 0 := rfl

/-- The promotions of two traces one after the other. -/
@[simp]
theorem promotions_append (τ τ' : n.sig.Trace) :
    promotions (τ ++ τ') = promotions τ + promotions τ' := by
  rw [promotions, List.filterMap_append, ← Multiset.coe_add]
  rfl

/-- The promotions of two traces side by side. -/
theorem promotions_shuffle {τ τ' τ'' : n.sig.Trace} (h : Shuffle τ τ' τ'') :
    promotions τ'' = promotions τ + promotions τ' := by
  rw [← promotions_append]
  exact Multiset.coe_eq_coe.mpr (h.perm.filterMap _)

/-- An event that neither executes code of the nest nor promotes. -/
def Event.Quiet (e : Event n) : Prop := e.work = none ∧ e.promotion = none

/-- One event executes at most one piece of code. -/
theorem work_cons (e : Event n) (σ : n.sig.Store) (τ : n.sig.Trace) :
    work ((e, σ) :: τ) = (e.work.elim 0 fun w => {w}) + work τ := by
  cases h : e.work with
  | none => simp [work, h]
  | some w => simp [work, h]

/-- One event is at most one promotion. -/
theorem promotions_cons (e : Event n) (σ : n.sig.Store) (τ : n.sig.Trace) :
    promotions ((e, σ) :: τ) = (e.promotion.elim 0 fun v => {v}) + promotions τ := by
  cases h : e.promotion with
  | none => simp [promotions, h]
  | some w => simp [promotions, h]

/-- No code starts no iteration. -/
@[simp]
theorem starts_zero : starts 0 = 0 := rfl

/-- Iterations that two pieces of work start. -/
@[simp]
theorem starts_add (W W' : Multiset Work) : starts (W + W') = starts W + starts W' :=
  Multiset.filterMap_add _ _ _

/-- An iteration is left only after everything below it was executed: the
piece behind a nested loop comes after the whole loop, wherever the tasks of a
promotion have run parts of it. -/
def Ordered (τ : n.sig.Trace) : Prop :=
  ∀ x v σ y, τ = x ++ (Event.post v, σ) :: y → (↑(n.below v) : Multiset Work) ≤ work x

namespace Ordered

variable {τ τ' τ'' : n.sig.Trace}

/-- Nothing is left out of order in the empty trace. -/
theorem nil : Ordered ([] : n.sig.Trace) := by
  intro x v σ y h
  simp at h

/-- Two traces in order, one after the other. -/
theorem append (h : Ordered τ) (h' : Ordered τ') : Ordered (τ ++ τ') := by
  intro x v σ y heq
  -- the end of the iteration is in the second trace, whose own part is enough, or in the first
  -- one
  rcases List.append_eq_append_iff.mp heq with ⟨x', rfl, hx'⟩ | ⟨y', rfl, hy'⟩
  · rw [work_append]
    exact (h' x' v σ y hx').trans (Multiset.le_add_left _ _)
  · cases y' with
    | nil =>
        have hx' : τ' = [] ++ (Event.post v, σ) :: y := by simpa using hy'.symm
        exact (h' [] v σ y hx').trans (Multiset.zero_le _)
    | cons e y' =>
        obtain ⟨rfl, -⟩ := List.cons.inj hy'
        exact h x v σ y' rfl

/-- Two traces in order, side by side. -/
theorem shuffle (h : Ordered τ) (h' : Ordered τ') (hs : Shuffle τ τ' τ'') : Ordered τ'' := by
  intro x v σ y heq
  -- the event comes from one of the two traces, and what came before it there came before it
  -- here
  obtain ⟨t₁, t₂, u₁, u₂, rfl, rfl, h₁, h₂⟩ := hs.split heq
  rw [work_shuffle h₁]
  generalize hy : (Event.post v, σ) :: y = w at h₂
  cases h₂ with
  | done => cases hy
  | left a h₂ =>
      obtain ⟨rfl, -⟩ := List.cons.inj hy
      exact (h t₁ v σ _ rfl).trans (Multiset.le_add_right _ _)
  | right a h₂ =>
      obtain ⟨rfl, -⟩ := List.cons.inj hy
      exact (h' u₁ v σ _ rfl).trans (Multiset.le_add_left _ _)

/-- An event that leaves no iteration. -/
theorem singleton {e : n.sig.Event × n.sig.Store} (h : ∀ v, e.1 ≠ Event.post v) :
    Ordered [e] := by
  intro x v σ y heq
  have hmem : (Event.post v, σ) ∈ [e] := by rw [heq]; simp
  rw [List.mem_singleton] at hmem
  exact absurd (congrArg Prod.fst hmem).symm (h v)

/-- The end of an iteration, after what lies below it. -/
theorem post {v : List Nat} (h : Ordered τ) (hv : (↑(n.below v) : Multiset Work) ≤ work τ)
    (σ : n.sig.Store) : Ordered (τ ++ [(Event.post v, σ)]) := by
  intro x u σ' y heq
  -- either it is the new event, after all of `τ`, or one of `τ`
  rcases List.append_eq_append_iff.mp heq with ⟨x', rfl, hx'⟩ | ⟨y', rfl, hy'⟩
  · cases x' with
    | nil =>
        have hu : u = v := by
          have := (List.cons.inj hx').1
          simpa using (congrArg Prod.fst this).symm
        rw [hu, List.append_nil]
        exact hv
    | cons e x' => simp at hx'
  · cases y' with
    | nil =>
        have hu : (u = v ∧ σ' = σ) ∧ y = [] := by simpa using hy'
        rw [hu.1.1]
        simpa using hv
    | cons e y' =>
        obtain ⟨rfl, -⟩ := List.cons.inj hy'
        exact h x u σ' y' rfl

end Ordered

/-- The piece of code is executed in the iteration `u`, after it was entered. -/
def Work.Within (w : Work) (u : List Nat) : Prop := u <+: w.vector ∧ w ≠ .pre u ∧ w ≠ .leaf u

/-- An iteration is entered before anything in it is executed. The iterations
around `v` are those that have been entered before the trace. -/
def Entered (v : List Nat) (τ : n.sig.Trace) : Prop :=
  ∀ x e y w, τ = x ++ e :: y → e.1.work = some w →
    ∀ u, w.Within u → u ≠ [] → u <+: v ∨ Work.pre u ∈ work x

namespace Entered

variable {v v' : List Nat} {τ τ' τ'' : n.sig.Trace}

/-- Nothing is entered in the empty trace. -/
theorem nil : Entered v ([] : n.sig.Trace) := by
  intro x e y w h
  simp at h

/-- More may have been entered before. -/
theorem mono (h : Entered v τ) (hv : v <+: v') : Entered v' τ :=
  fun x e y w heq hw u hu hnil => (h x e y w heq hw u hu hnil).imp_left fun h => h.trans hv

/-- The second trace goes on where the first one has come to: what the second
one takes as entered was so before, or the first one has entered it. -/
theorem append (h : Entered v τ) (h' : Entered v' τ')
    (hv : ∀ u, u ≠ [] → u <+: v' → u <+: v ∨ Work.pre u ∈ work τ) : Entered v (τ ++ τ') := by
  intro x e y w heq hw u hu hnil
  -- the code is in the second trace, then its own hypothesis or the first trace has the entry;
  -- or it is in the first one
  rcases List.append_eq_append_iff.mp heq with ⟨x', rfl, hx'⟩ | ⟨y', rfl, hy'⟩
  · rw [work_append, Multiset.mem_add]
    rcases h' x' e y w hx' hw u hu hnil with hv' | hx
    · exact (hv u hnil hv').imp_right .inl
    · exact .inr (.inr hx)
  · cases y' with
    | nil =>
        have hx' : τ' = [] ++ e :: y := by simpa using hy'.symm
        rcases h' [] e y w hx' hw u hu hnil with hv' | hx
        · simpa using hv u hnil hv'
        · exact absurd hx (Multiset.notMem_zero _)
    | cons e' y' =>
        obtain ⟨rfl, -⟩ := List.cons.inj hy'
        exact h x e y' w rfl hw u hu hnil

/-- Side by side, each trace has entered what it needs. -/
theorem shuffle (h : Entered v τ) (h' : Entered v τ') (hs : Shuffle τ τ' τ'') :
    Entered v τ'' := by
  intro x e y w heq hw u hu hnil
  obtain ⟨t₁, t₂, u₁, u₂, rfl, rfl, h₁, h₂⟩ := hs.split heq
  rw [work_shuffle h₁, Multiset.mem_add]
  generalize hy : e :: y = z at h₂
  cases h₂ with
  | done => cases hy
  | left a h₂ =>
      obtain ⟨rfl, -⟩ := List.cons.inj hy
      exact (h t₁ e _ w rfl hw u hu hnil).imp_right .inl
  | right a h₂ =>
      obtain ⟨rfl, -⟩ := List.cons.inj hy
      exact (h' u₁ e _ w rfl hw u hu hnil).imp_right .inr

/-- An event that executes no code of the nest. -/
theorem of_work_none {e : n.sig.Event × n.sig.Store} (he : e.1.work = none) :
    Entered v [e] := by
  intro x e' y w heq hw
  have hmem : e' ∈ [e] := by rw [heq]; simp
  rw [List.mem_singleton] at hmem
  rw [hmem, he] at hw
  cases hw

/-- The code that starts an iteration inside `v`. -/
theorem of_starts {e : n.sig.Event × n.sig.Store} {w : Work} {i : Nat} (he : e.1.work = some w)
    (hw : w.starts = some (v ++ [i])) : Entered v [e] := by
  intro x e' y w' heq hw' u hu _
  have hmem : e' ∈ [e] := by rw [heq]; simp
  rw [List.mem_singleton] at hmem
  rw [hmem, he] at hw'
  cases hw'
  obtain ⟨hpre, hne, hne'⟩ := hu
  -- code that starts an iteration is within the iterations around it only
  cases w with
  | pre u' =>
      obtain rfl : u' = v ++ [i] := Option.some.inj hw
      exact .inl ((List.prefix_concat_iff.mp hpre).resolve_left fun h => hne (by rw [h]))
  | post u' => cases hw
  | leaf u' =>
      obtain rfl : u' = v ++ [i] := Option.some.inj hw
      exact .inl ((List.prefix_concat_iff.mp hpre).resolve_left fun h => hne' (by rw [h]))

/-- The code that ends an iteration inside `v`. -/
theorem post {i : Nat} (h : Entered v τ) (hi : Work.pre (v ++ [i]) ∈ work τ) (σ : n.sig.Store) :
    Entered v (τ ++ [(Event.post (v ++ [i]), σ)]) := by
  -- alone, the end of the iteration needs the iteration to be entered, which `τ` has done
  have hpost : Entered (v ++ [i]) ([(Event.post (v ++ [i]), σ)] : n.sig.Trace) := by
    intro x e y w heq hw u hu _
    have hmem : e ∈ [((Event.post (v ++ [i]), σ) : n.sig.Event × n.sig.Store)] := by rw [heq]; simp
    rw [List.mem_singleton] at hmem
    rw [hmem] at hw
    cases hw
    exact .inl hu.1
  refine h.append hpost fun u _ hu => ?_
  rcases List.prefix_concat_iff.mp hu with rfl | hu
  · exact .inr hi
  · exact .inl hu

end Entered

/-- Up to its first promotion the trace executes `L` from its beginning on:
until then there is one task, which runs as the sequential program does. -/
def InOrder (L : List Work) (τ : n.sig.Trace) : Prop :=
  ∀ x y, τ = x ++ y → promotions x = 0 → workList x <+: L

namespace InOrder

variable {L L' : List Work} {τ τ' : n.sig.Trace}

/-- The empty trace executes a beginning of anything. -/
theorem nil : InOrder L ([] : n.sig.Trace) := by
  intro x y h _
  obtain ⟨rfl, rfl⟩ := List.append_eq_nil_iff.mp h.symm
  exact List.nil_prefix

/-- What is a beginning of `L` is one of a longer list. -/
theorem mono (h : InOrder L τ) (hL : L <+: L') : InOrder L' τ :=
  fun x y heq hx => (h x y heq hx).trans hL

/-- The second part goes on where the first one has ended, if that one has run
all of `L`. -/
theorem append (h : InOrder L τ) (hlen : L.length ≤ (workList τ).length) (h' : InOrder L' τ') :
    InOrder (L ++ L') (τ ++ τ') := by
  intro x y heq hx
  -- without a promotion up to here the first trace has none either, so it has run all of `L`
  rcases List.append_eq_append_iff.mp heq with ⟨x', rfl, hx'⟩ | ⟨y', rfl, -⟩
  · rw [promotions_append] at hx
    obtain ⟨hτ, hx₁⟩ := (add_eq_zero_iff_of_nonneg (Multiset.zero_le _) (Multiset.zero_le _)).mp hx
    have hall : workList τ = L := (h τ [] (by simp) hτ).eq_of_length_le hlen
    rw [workList_append, hall]
    exact (List.prefix_append_right_inj L).mpr (h' x' y hx' hx₁)
  · exact (h x y' rfl hx).trans (List.prefix_append L L')

/-- One event that executes a beginning of `L`. -/
theorem singleton {e : n.sig.Event × n.sig.Store} (he : workList [e] <+: L) :
    InOrder L [e] := by
  intro x y heq _
  cases x with
  | nil => exact List.nil_prefix
  | cons e' x =>
      obtain ⟨rfl, hx⟩ := List.cons.inj heq
      obtain ⟨rfl, -⟩ := List.append_eq_nil_iff.mp hx.symm
      exact he

/-- After a promotion nothing is claimed. -/
theorem promoted {e : n.sig.Event × n.sig.Store} {u : List Nat}
    (he : e.1.promotion = some u) : InOrder L (e :: τ) := by
  intro x y heq hx
  cases x with
  | nil => exact List.nil_prefix
  | cons e' x =>
      obtain ⟨rfl, -⟩ := List.cons.inj heq
      rw [show e :: x = (e.1, e.2) :: x from rfl, promotions_cons, he] at hx
      have hzero := ((add_eq_zero_iff_of_nonneg (Multiset.zero_le _) (Multiset.zero_le _)).mp hx).1
      exact absurd hzero (Multiset.singleton_ne_zero u)

end InOrder

/-- The trace executes `W` in order, where the iterations around `v` have been
entered before, and the iterations that became the first one of a second task
are distinct, are started in `W` and are not in `F`. Traces that are merged or
appended run the sum of what they run. -/
structure Runs (v : List Nat) (F : Multiset (List Nat)) (W : Multiset Work) (τ : n.sig.Trace) :
    Prop where
  work_eq : work τ = W
  promotions_le : promotions τ + F ≤ starts W
  ordered : Ordered τ
  entered : Entered v τ

namespace Runs

variable {v u : List Nat} {F F' : Multiset (List Nat)} {W W' : Multiset Work}
  {τ τ' τ'' : n.sig.Trace}

/-- The empty trace. -/
theorem nil : Runs v 0 0 ([] : n.sig.Trace) := ⟨rfl, le_refl _, .nil, .nil⟩

/-- Fewer iterations need to be set aside. -/
theorem weaken (h : Runs v F W τ) (hF : F' ≤ F) : Runs v F' W τ :=
  ⟨h.work_eq, (add_le_add_right hF _).trans h.promotions_le, h.ordered, h.entered⟩

/-- The same work, written in another way. -/
theorem congr_work (h : Runs v F W τ) (hW : W = W') : Runs v F W' τ := hW ▸ h

/-- More iterations may have been entered before. -/
theorem mono (h : Runs v F W τ) (hv : v <+: u) : Runs u F W τ :=
  ⟨h.work_eq, h.promotions_le, h.ordered, h.entered.mono hv⟩

/-- The iterations around `u` have been entered before or are entered by the
first part. -/
theorem append_of_entered (h : Runs v F W τ) (h' : Runs u F' W' τ')
    (hu : ∀ u', u' ≠ [] → u' <+: u → u' <+: v ∨ Work.pre u' ∈ W) :
    Runs v (F + F') (W + W') (τ ++ τ') where
  work_eq := by rw [work_append, h.work_eq, h'.work_eq]
  promotions_le := by
    rw [promotions_append, starts_add, add_add_add_comm]
    exact add_le_add h.promotions_le h'.promotions_le
  ordered := h.ordered.append h'.ordered
  entered := h.entered.append h'.entered (by rw [h.work_eq]; exact hu)

/-- Two traces one after the other, inside the same iterations. -/
theorem append (h : Runs v F W τ) (h' : Runs v F' W' τ') :
    Runs v (F + F') (W + W') (τ ++ τ') :=
  h.append_of_entered h' fun _ _ hu => .inl hu

/-- Two traces side by side, inside the same iterations. -/
theorem shuffle (h : Runs v F W τ) (h' : Runs v F' W' τ') (hs : Shuffle τ τ' τ'') :
    Runs v (F + F') (W + W') τ'' where
  work_eq := by rw [work_shuffle hs, h.work_eq, h'.work_eq]
  promotions_le := by
    rw [promotions_shuffle hs, starts_add, add_add_add_comm]
    exact add_le_add h.promotions_le h'.promotions_le
  ordered := h.ordered.shuffle h'.ordered hs
  entered := h.entered.shuffle h'.entered hs

/-- An event that neither executes code of the nest nor promotes. -/
theorem quiet {e : Event n} (he : e.Quiet) (σ : n.sig.Store) :
    Runs v 0 0 ([(e, σ)] : n.sig.Trace) where
  work_eq := by rw [work_cons, he.1]; rfl
  promotions_le := by rw [promotions_cons, he.2]; exact le_refl _
  ordered := .singleton fun v hv => by
    rw [show e = Event.post v from hv] at he
    exact absurd he.1 (by simp [Event.work])
  entered := .of_work_none he.1

/-- A quiet event at the end. -/
theorem append_quiet (h : Runs v F W τ) {e : Event n} (he : e.Quiet) (σ : n.sig.Store) :
    Runs v F W (τ ++ [(e, σ)]) := by
  simpa using h.append (quiet he σ)

/-- An iteration of the leaf loop. It may still become the first one of a
second task. -/
theorem leaf (v : List Nat) (i : Nat) (σ : n.sig.Store) :
    Runs v {v ++ [i]} {.leaf (v ++ [i])} ([(Event.leaf (v ++ [i]), σ)] : n.sig.Trace) where
  work_eq := rfl
  promotions_le := le_refl _
  ordered := .singleton fun u hu => by cases hu
  entered := .of_starts rfl rfl

/-- The code before the nested call. Its iteration may still become the first
one of a second task. -/
theorem pre (v : List Nat) (i : Nat) (σ : n.sig.Store) :
    Runs v {v ++ [i]} {.pre (v ++ [i])} ([(Event.pre (v ++ [i]), σ)] : n.sig.Trace) where
  work_eq := rfl
  promotions_le := le_refl _
  ordered := .singleton fun u hu => by cases hu
  entered := .of_starts rfl rfl

/-- What is run inside an iteration that has just been entered. -/
theorem append_below (h : Runs v F W τ) {i : Nat} (hi : Work.pre (v ++ [i]) ∈ W)
    (h' : Runs (v ++ [i]) F' W' τ') : Runs v (F + F') (W + W') (τ ++ τ') := by
  refine h.append_of_entered h' fun u _ hu => ?_
  -- the iteration itself was entered by the first part, those around it were before
  rcases List.prefix_concat_iff.mp hu with rfl | hu
  · exact .inr hi
  · exact .inl hu

/-- The end of an iteration, after what lies below it. -/
theorem post (h : Runs v F W τ) {i : Nat} (hpre : Work.pre (v ++ [i]) ∈ W)
    (hi : (↑(n.below (v ++ [i])) : Multiset Work) ≤ W) (σ : n.sig.Store) :
    Runs v F (W + {.post (v ++ [i])}) (τ ++ [(Event.post (v ++ [i]), σ)]) where
  work_eq := by rw [work_append, h.work_eq]; rfl
  promotions_le := by
    have hnone : promotions ([(Event.post (v ++ [i]), σ)] : n.sig.Trace) = 0 := rfl
    rw [promotions_append, starts_add, hnone, add_zero]
    exact h.promotions_le.trans (Multiset.le_add_right _ _)
  ordered := h.ordered.post (by rw [h.work_eq]; exact hi) σ
  entered := h.entered.post (by rw [h.work_eq]; exact hpre) σ

/-- A promotion, when its second task starts with an iteration not accounted
for. -/
theorem promoted {i : List Nat} (h : Runs v ({i} + F) W τ) {e : Event n}
    (hw : e.work = none) (he : e.promotion = some i) (σ : n.sig.Store) :
    Runs v F W ((e, σ) :: τ) where
  work_eq := by rw [work_cons, hw, h.work_eq]; exact zero_add _
  promotions_le := by
    rw [promotions_cons, he]
    refine le_trans (le_of_eq ?_) h.promotions_le
    -- the iteration that was set aside pays for the promotion
    rw [Option.elim_some, add_comm {i} (promotions τ), add_assoc]
  ordered := by
    have hq : Ordered ([(e, σ)] : n.sig.Trace) := .singleton fun u hu => by
      rw [show e = Event.post u from hu] at hw
      exact absurd hw (by simp [Event.work])
    exact hq.append h.ordered
  entered := by
    have hq : Entered v ([(e, σ)] : n.sig.Trace) := .of_work_none hw
    exact hq.append h.entered fun _ _ hu => .inl hu

end Runs

/-- A task has run `L`, and the tasks that were promoted on the way have run
`R`. It has run `L` in order up to the first promotion. -/
structure Executes (v : List Nat) (F : Multiset (List Nat)) (L : List Work) (R : Multiset Work)
    (τ : n.sig.Trace) : Prop extends Runs v F (↑L + R) τ where
  in_order : InOrder L τ

namespace Executes

variable {v : List Nat} {F F' : Multiset (List Nat)} {L L' : List Work} {R R' : Multiset Work}
  {τ τ' : n.sig.Trace}

/-- A task that has run nothing. -/
theorem nil : Executes v 0 [] 0 ([] : n.sig.Trace) := ⟨.nil, .nil⟩

/-- Fewer iterations need to be set aside. -/
theorem weaken (h : Executes v F L R τ) (hF : F' ≤ F) : Executes v F' L R τ :=
  ⟨h.toRuns.weaken hF, h.in_order⟩

/-- A part of what promoted tasks have run belongs to the task itself. -/
theorem congr (h : Executes v F L R τ) (hL : L <+: L')
    (hR : (↑L + R : Multiset Work) = ↑L' + R') : Executes v F L' R' τ :=
  ⟨h.toRuns.congr_work hR, h.in_order.mono hL⟩

/-- What the task has run is part of what the trace executes. -/
theorem length_le (h : Executes v F L R τ) : L.length ≤ (workList τ).length := by
  have hcard := congrArg Multiset.card h.work_eq
  rw [← coe_workList, Multiset.card_add, Multiset.coe_card, Multiset.coe_card] at hcard
  omega

/-- The task goes on; the first part has promoted nothing that has run. -/
theorem append (h : Executes v F L 0 τ) (h' : Executes v F' L' R τ') :
    Executes v (F + F') (L ++ L') R (τ ++ τ') where
  toRuns := (h.toRuns.append h'.toRuns).congr_work (by
    rw [add_zero, ← add_assoc, Multiset.coe_add])
  in_order := h.in_order.append h.length_le h'.in_order

/-- An event that neither executes code of the nest nor promotes. -/
theorem quiet {e : Event n} (he : e.Quiet) (σ : n.sig.Store) :
    Executes v 0 [] 0 ([(e, σ)] : n.sig.Trace) where
  toRuns := .quiet he σ
  in_order := .singleton (by simp [workList, he.1])

/-- A part that executes nothing at the end. -/
theorem append_silent (h : Executes v F L R τ) (h' : Executes v 0 [] 0 τ') :
    Executes v F L R (τ ++ τ') where
  toRuns := by simpa using h.toRuns.append h'.toRuns
  in_order := by simpa using h.in_order.append h.length_le h'.in_order

/-- A quiet event at the end. -/
theorem append_quiet (h : Executes v F L R τ) {e : Event n} (he : e.Quiet) (σ : n.sig.Store) :
    Executes v F L R (τ ++ [(e, σ)]) :=
  h.append_silent (quiet he σ)

/-- An iteration of the leaf loop. -/
theorem leaf (v : List Nat) (i : Nat) (σ : n.sig.Store) :
    Executes v {v ++ [i]} [.leaf (v ++ [i])] 0 ([(Event.leaf (v ++ [i]), σ)] : n.sig.Trace) where
  toRuns := .leaf v i σ
  in_order := .singleton List.prefix_rfl

/-- The code before the nested call. -/
theorem pre (v : List Nat) (i : Nat) (σ : n.sig.Store) :
    Executes v {v ++ [i]} [.pre (v ++ [i])] 0 ([(Event.pre (v ++ [i]), σ)] : n.sig.Trace) where
  toRuns := .pre v i σ
  in_order := .singleton List.prefix_rfl

/-- What is run inside an iteration that has just been entered. -/
theorem append_below (h : Executes v F L 0 τ) {i : Nat} (hi : Work.pre (v ++ [i]) ∈ L)
    (h' : Executes (v ++ [i]) F' L' R τ') : Executes v (F + F') (L ++ L') R (τ ++ τ') where
  toRuns := (h.toRuns.append_below (by simpa using hi) h'.toRuns).congr_work (by
    rw [add_zero, ← add_assoc, Multiset.coe_add])
  in_order := h.in_order.append h.length_le h'.in_order

/-- The end of an iteration, after what lies below it. -/
theorem post (h : Executes v F L R τ) {i : Nat} (hpre : Work.pre (v ++ [i]) ∈ L)
    (hi : (↑(n.below (v ++ [i])) : Multiset Work) ≤ ↑L) (σ : n.sig.Store) :
    Executes v F (L ++ [.post (v ++ [i])]) R (τ ++ [(Event.post (v ++ [i]), σ)]) where
  toRuns := (h.toRuns.post (by simp [hpre]) (hi.trans (Multiset.le_add_right _ _)) σ).congr_work (by
    rw [← Multiset.coe_add, add_right_comm]
    rfl)
  in_order := h.in_order.append h.length_le (.singleton List.prefix_rfl)

/-- A promotion, when its second task starts with an iteration not accounted
for. -/
theorem promoted {i : List Nat} (h : Runs v ({i} + F) R τ) {e : Event n}
    (hw : e.work = none) (he : e.promotion = some i) (σ : n.sig.Store) :
    Executes v F [] R ((e, σ) :: τ) where
  toRuns := (h.promoted hw he σ).congr_work (zero_add R).symm
  in_order := .promoted he

end Executes

end HeartbeatCompiler
