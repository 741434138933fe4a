import HeartbeatCompiler.LeftoverTable
import HeartbeatCompiler.NestAnalysis

/-!
# `HeartbeatCompiler.LevelAnalysis`: the levels of one nest

The level analysis of a nest starts from the loops of the nest only, after `reset`. It finds
the same roots and callers as the analysis of all loops (`IsNest`), and with one loop on each
level its maps between levels and loops are inverse (`exists_leveledNest`). `analyses_agree`
puts both analyses together.
-/

set_option autoImplicit false

namespace HeartbeatCompiler

open Forest

variable {L F : Type} [DecidableEq L] [DecidableEq F]

/-! ### One nest -/

section Nest

variable {S : CallStructure L F} {loops order : List L} {st : Analysis L} {l p r : L}

/-- The loops with one root, in any order: what the level analysis is run on,
nest by nest. -/
structure IsNest (S : CallStructure L F) (loops order : List L) (r : L) : Prop where
  nodup : order.Nodup
  mem_iff : ∀ l, l ∈ order ↔ l ∈ loops ∧ ∃ n, Rooted (S.callerLoop loops) l n r

namespace IsNest

omit [DecidableEq L] in
/-- The caller of a loop is in its nest. -/
theorem callerLoop_mem (h : IsNest S loops order r) (hv : S.Valid loops) (hl : l ∈ order)
    (hp : S.callerLoop loops l = some p) : p ∈ order := by
  obtain ⟨hl', n, hroot⟩ := (h.mem_iff l).mp hl
  cases hroot with
  | root hnone => rw [hnone] at hp; cases hp
  | child hp' hroot =>
      obtain rfl := Option.some.inj (hp'.symm.trans hp)
      exact (h.mem_iff _).mpr ⟨(hv.callerLoop_mem hl' hp).1, _, hroot⟩

omit [DecidableEq L] in
/-- The loops of a nest can be analysed alone. -/
theorem valid (h : IsNest S loops order r) (hv : S.Valid loops) : S.Valid order where
  nodup := h.nodup
  loopFunction_inj l hl l' hl' :=
    hv.loopFunction_inj l ((h.mem_iff l).mp hl).1 l' ((h.mem_iff l').mp hl').1
  outlined l hl := hv.outlined l ((h.mem_iff l).mp hl).1
  caller l hl := by
    obtain ⟨f, hf, ⟨hout, _⟩ | ⟨_, p, _, hpf, _, hp⟩⟩ :=
      hv.callerLoop_cases ((h.mem_iff l).mp hl).1
    · exact ⟨f, hf, fun h => by rw [hout] at h; cases h⟩
    · exact ⟨f, hf, fun _ => ⟨p, h.callerLoop_mem hv hl hp, hpf⟩⟩
  acyclic := hv.acyclic

omit [DecidableEq L] in
/-- The analysis of a nest finds the same callers. -/
theorem callerLoop_eq (h : IsNest S loops order r) (hv : S.Valid loops) (hl : l ∈ order) :
    S.callerLoop order l = S.callerLoop loops l := by
  obtain ⟨f, hf, ⟨hout, hnone⟩ | ⟨hout, p, _, rfl, _, hp⟩⟩ :=
    hv.callerLoop_cases ((h.mem_iff l).mp hl).1
  · rw [hnone, CallStructure.callerLoop, hf]
    exact if_pos hout
  · rw [hp, CallStructure.callerLoop, hf]
    have hnode := CallStructure.Valid.callGraphNodeToLoop_eq (h.valid hv).loopFunction_inj
      (h.callerLoop_mem hv hl hp)
    simp only [hout, Bool.true_eq_false, if_false, hnode]

omit [DecidableEq L] in
/-- The levels and the root of a nest are those of the whole forest. -/
theorem rooted_iff (h : IsNest S loops order r) (hv : S.Valid loops) (hl : l ∈ order) {n : Nat}
    {r' : L} : Rooted (S.callerLoop order) l n r' ↔ Rooted (S.callerLoop loops) l n r' := by
  constructor
  · refine fun h' => h'.congr (s := (· ∈ order)) (fun x p hx hp => ?_)
      (fun x hx => (h.callerLoop_eq hv hx).symm) hl
    exact h.callerLoop_mem hv hx ((h.callerLoop_eq hv hx).symm.trans hp)
  · exact fun h' => h'.congr (s := (· ∈ order)) (fun x p hx hp => h.callerLoop_mem hv hx hp)
      (fun x hx => h.callerLoop_eq hv hx) hl

end IsNest

/-- The maps after `reset`. -/
theorem between_reset (S : CallStructure L F) (order : List L) (st : Analysis L) :
    Between .level S order st.reset where
  sound :=
    { mem := fun l hl => absurd hl (AList.notMem_empty l)
      level := fun l n h => by cases h
      root_mem := fun l hl => absurd hl (AList.notMem_empty l)
      caller := fun l hl => absurd hl (AList.notMem_empty l)
      caller_mem := fun l p hl => absurd hl (AList.notMem_empty l)
      levelToLoop := fun n l h => by cases h
      levelToLoop_mem := fun l n h => by cases h }
  nests := nofun
  callers l _ := AList.notMem_empty l

/-- The maps at the start of the pass. -/
theorem between_empty (S : CallStructure L F) (order : List L) :
    Between .nest S order Analysis.empty where
  sound := (between_reset S order Analysis.empty).sound
  nests _ :=
    { id_iff := fun r id => ⟨nofun, nofun⟩
      id_lt := fun id h => absurd h (AList.notMem_empty id)
      root_root := fun r h => absurd h (AList.notMem_empty r)
      root_mem := fun l r h => by cases h
      loops := fun r id h => by cases h
      loops_root := fun id h => absurd h (AList.notMem_empty id) }
  callers l _ := AList.notMem_empty l

omit [DecidableEq L] in
/-- `highestLevel` is the greatest level. -/
theorem foldl_highest (pairs : List (Sigma fun _ : L => Nat)) : ∀ {acc highest : Nat},
    pairs.foldl (fun highest pair => if highest < pair.2 then pair.2 else highest) acc =
      highest → acc ≤ highest ∧ (∀ pair ∈ pairs, pair.2 ≤ highest) ∧
      (highest = acc ∨ ∃ pair ∈ pairs, pair.2 = highest) := by
  induction pairs with
  | nil =>
      rintro acc _ rfl
      exact ⟨le_refl acc, nofun, .inl rfl⟩
  | cons pair pairs ih =>
      intro acc highest h
      rw [List.foldl_cons] at h
      obtain ⟨hacc, hall, hmem⟩ := ih h
      -- By induction on the list with the accumulator free: the step keeps the greater of the
      -- two, and the rest of the list only raises it.
      have hstep : acc ≤ highest ∧ pair.2 ≤ highest := by
        split at hacc <;> omega
      refine ⟨hstep.1, List.forall_mem_cons.mpr ⟨hstep.2, hall⟩, ?_⟩
      rcases hmem with hmem | ⟨pair', hpair', hmem⟩
      · by_cases hlt : acc < pair.2
        · rw [if_pos hlt] at hmem
          exact .inr ⟨pair, List.mem_cons_self, hmem.symm⟩
        · rw [if_neg hlt] at hmem
          exact .inl hmem
      · exact .inr ⟨pair', List.mem_cons_of_mem pair hpair', hmem⟩

/-- The levels of a nest with one loop on each are those below the number of
loops: no level is left out, as the caller of a loop is one level above it. -/
theorem level_range (hv : S.Valid order) (hb : Between .level S order st)
    (hmem : ∀ l, l ∈ st.loopToLevel ↔ l ∈ order)
    (hroot : ∀ l ∈ order, ∃ n, Rooted (S.callerLoop order) l n r)
    (hone : ∀ l ∈ order, ∀ l' ∈ order, ∀ n, Rooted (S.callerLoop order) l n r →
      Rooted (S.callerLoop order) l' n r → l = l') (n : Nat) :
    n < order.length ↔ ∃ l, st.loopToLevel.lookup l = some n := by
  have hlookup : ∀ l ∈ order, ∃ m, st.loopToLevel.lookup l = some m ∧
      Rooted (S.callerLoop order) l m r := by
    intro l hl
    obtain ⟨m, hm⟩ := hroot l hl
    exact ⟨m, (hb.sound.lookup hm ((hmem l).mpr hl)).1, hm⟩
  -- Levels are depths in the forest of the callers, each of them taken once: the set of levels
  -- is downward closed and has as many members as there are loops.
  have himage := image_level (s := order.toFinset) (r := r) (S.callerLoop order)
    (fun l => (st.loopToLevel.lookup l).getD 0)
    (fun x p hx hp => List.mem_toFinset.mpr (hv.callerLoop_mem (List.mem_toFinset.mp hx) hp).1)
    (fun x hx => by
      obtain ⟨m, hm, hrooted⟩ := hlookup x (List.mem_toFinset.mp hx)
      simp only [hm, Option.getD_some]
      exact hrooted)
    (fun x hx y hy hxy => by
      obtain ⟨m, hm, hrooted⟩ := hlookup x (List.mem_toFinset.mp hx)
      obtain ⟨m', hm', hrooted'⟩ := hlookup y (List.mem_toFinset.mp hy)
      simp only [hm, hm', Option.getD_some] at hxy
      subst hxy
      exact hone x (List.mem_toFinset.mp hx) y (List.mem_toFinset.mp hy) m hrooted hrooted')
  rw [List.toFinset_card_of_nodup hv.nodup] at himage
  rw [← Finset.mem_range, ← himage, Finset.mem_image]
  constructor
  · rintro ⟨l, hl, rfl⟩
    obtain ⟨m, hm, _⟩ := hlookup l (List.mem_toFinset.mp hl)
    exact ⟨l, by simp only [hm, Option.getD_some]⟩
  · rintro ⟨l, hl⟩
    refine ⟨l, List.mem_toFinset.mpr ((hmem l).mp (AList.lookup_isSome.mp (hl ▸ rfl))), ?_⟩
    simp only [hl, Option.getD_some]

/-- With one loop on each level the maps between levels and loops are inverse.
-/
theorem levelToLoop_iff (hb : Between .level S order st)
    (hmem : ∀ l, l ∈ st.loopToLevel ↔ l ∈ order)
    (hroot : ∀ l ∈ order, ∃ n, Rooted (S.callerLoop order) l n r)
    (hone : ∀ l ∈ order, ∀ l' ∈ order, ∀ n, Rooted (S.callerLoop order) l n r →
      Rooted (S.callerLoop order) l' n r → l = l') {n : Nat} :
    st.levelToLoop.lookup n = some l ↔ st.loopToLevel.lookup l = some n := by
  refine ⟨hb.sound.levelToLoop n l, fun hl => ?_⟩
  -- The level was stored for some loop, which can only be `l`.
  obtain ⟨l', hl'⟩ := Option.isSome_iff_exists.mp
    (AList.lookup_isSome.mpr (hb.sound.levelToLoop_mem l n hl))
  have hl'' := hb.sound.levelToLoop n l' hl'
  have hin : ∀ x, st.loopToLevel.lookup x = some n → x ∈ order ∧
      Rooted (S.callerLoop order) x n r := by
    intro x hx
    have hx' := (hmem x).mp (AList.lookup_isSome.mp (hx ▸ rfl))
    obtain ⟨m, hm⟩ := hroot x hx'
    obtain rfl : m = n := Option.some.inj
      ((hb.sound.lookup hm ((hmem x).mpr hx')).1.symm.trans hx)
    exact ⟨hx', hm⟩
  rw [hl', hone l' (hin l' hl'').1 l (hin l hl).1 n (hin l' hl'').2 (hin l hl).2]

/-- The maps of the level analysis are a nest from which the leftover tasks
can be created. It connects the analysis with the generator of the tasks,
which reads these maps. -/
theorem exists_leveledNest (hv : S.Valid order) (hb : Between .level S order st)
    (hmem : ∀ l, l ∈ st.loopToLevel ↔ l ∈ order)
    (hroot : ∀ l ∈ order, ∃ n, Rooted (S.callerLoop order) l n r)
    (hone : ∀ l ∈ order, ∀ l' ∈ order, ∀ n, Rooted (S.callerLoop order) l n r →
      Rooted (S.callerLoop order) l' n r → l = l') (hlt : order.length < 2 ^ 64) :
    ∃ N : LeveledNest L, N.loops = order ∧ N.numLevels = order.length ∧
      (∀ l n, st.loopToLevel.lookup l = some n → N.loopToLevel l = n) ∧
      ∀ n, N.levelToLoop n = st.levelToLoop.lookup n := by
  have hrange := level_range hv hb hmem hroot hone
  have hlevel : ∀ l n, st.loopToLevel.lookup l = some n →
      (st.loopToLevel.lookup l).getD 0 = n := fun l n hl => by rw [hl]; rfl
  have hlookup : ∀ l ∈ order, ∃ n, st.loopToLevel.lookup l = some n := fun l hl =>
    Option.isSome_iff_exists.mp (AList.lookup_isSome.mpr ((hmem l).mpr hl))
  -- Two loops of one level would both be what the inverse map stores there.
  have hnd : (order.map fun l => (st.loopToLevel.lookup l).getD 0).Nodup := by
    refine hv.nodup.map_on fun l hl l' hl' heq => ?_
    obtain ⟨n, hn⟩ := hlookup l hl
    obtain ⟨n', hn'⟩ := hlookup l' hl'
    rw [hlevel l n hn, hlevel l' n' hn'] at heq
    subst heq
    have h := (levelToLoop_iff hb hmem hroot hone).mpr hn
    have h' := (levelToLoop_iff hb hmem hroot hone).mpr hn'
    exact Option.some.inj (h.symm.trans h')
  refine ⟨⟨0, order, fun l => (st.loopToLevel.lookup l).getD 0, fun n => st.levelToLoop.lookup n,
    order.length, hlt, ?_, fun n hn => ?_⟩, rfl, rfl, hlevel, fun _ => rfl⟩
  · refine (List.perm_ext_iff_of_nodup hnd List.nodup_range).mpr fun n => ?_
    rw [List.mem_map, List.mem_range, hrange n]
    constructor
    · rintro ⟨l, hl, rfl⟩
      obtain ⟨n, hn⟩ := hlookup l hl
      exact ⟨l, by rw [hlevel l n hn]; exact hn⟩
    · rintro ⟨l, hl⟩
      exact ⟨l, (hmem l).mp (AList.lookup_isSome.mp (hl ▸ rfl)), hlevel l n hl⟩
  · obtain ⟨l, hl⟩ := (hrange n).mp hn
    exact ⟨l, (levelToLoop_iff hb hmem hroot hone).mpr hl, hlevel l n hl⟩

/-- The level analysis of a nest with one loop on each level. It starts after
a reset, so what the maps held before does not matter, and finds the number of
levels and the root. -/
theorem performLoopLevelAnalysis_spec (hv : S.Valid order) {fuel : Nat}
    (hfuel : order.length < fuel) (st₀ : Analysis L)
    {levels : List (Sigma fun _ : L => Nat) → List (Sigma fun _ : L => Nat)}
    {roots : List (Sigma fun _ : L => L) → List (Sigma fun _ : L => L)}
    (hlevels : ∀ es, (levels es).Perm es) (hroots : ∀ es, (roots es).Perm es)
    (hroot : ∀ l ∈ order, ∃ n, Rooted (S.callerLoop order) l n r)
    (hone : ∀ l ∈ order, ∀ l' ∈ order, ∀ n, Rooted (S.callerLoop order) l n r →
      Rooted (S.callerLoop order) l' n r → l = l') (hne : order ≠ []) :
    ∃ st', S.performLoopLevelAnalysis order fuel st₀.reset levels roots =
        some (st', order.length, r) ∧ Between .level S order st' ∧
      (∀ l, l ∈ st'.loopToLevel ↔ l ∈ order) ∧
      ∀ n l, st'.levelToLoop.lookup n = some l ↔ st'.loopToLevel.lookup l = some n := by
  obtain ⟨st', hst', hb, hmem⟩ :=
    performAnalysis_spec .level hv hfuel (between_reset S order st₀)
  have hrange := level_range hv hb hmem hroot hone
  refine ⟨st', ?_, hb, hmem, fun n l => levelToLoop_iff hb hmem hroot hone⟩
  -- The order in which the map is enumerated is any permutation, so that only what holds of
  -- every order may be used: the maximum and, below, that all roots are the same.
  obtain ⟨highest, hfold⟩ : ∃ highest, (levels st'.loopToLevel.entries).foldl
      (fun highest pair => if highest < pair.2 then pair.2 else highest) 0 = highest :=
    ⟨_, rfl⟩
  -- The levels are those below the number of loops; the highest is the last of them.
  have hhighest : highest + 1 = order.length := by
    have hpos := List.length_pos_iff.mpr hne
    obtain ⟨_, hall, hmax⟩ := foldl_highest _ hfold
    obtain ⟨l, hl⟩ := (hrange (order.length - 1)).mp (by omega)
    have hlast : order.length - 1 ≤ highest := hall ⟨l, order.length - 1⟩
      ((hlevels _).mem_iff.mpr (AList.mem_lookup_iff.mp hl))
    rcases hmax with hmax | ⟨⟨l', n⟩, hpair, rfl⟩
    · omega
    · have hlt : n < order.length :=
        (hrange n).mpr ⟨l', AList.mem_lookup_iff.mpr ((hlevels _).mem_iff.mp hpair)⟩
      dsimp only at hlast ⊢
      omega
  -- The source takes the root of whichever loop comes first and asserts that the others agree.
  have hentries : ∀ pair ∈ st'.loopToRoot.entries, pair.2 = r := by
    intro ⟨l, r'⟩ hpair
    have hl := AList.mem_lookup_iff.mpr hpair
    have hl' := hb.sound.root_mem l
      (AList.lookup_isSome.mp (Option.isSome_iff_exists.mpr ⟨_, hl⟩))
    obtain ⟨m, hm⟩ := hroot l ((hmem l).mp hl')
    exact Option.some.inj (hl.symm.trans (hb.sound.lookup hm hl').2)
  obtain ⟨first, hfirst, rfl⟩ : ∃ first, (roots st'.loopToRoot.entries).head? = some first ∧
      first.2 = r := by
    cases hhead : roots st'.loopToRoot.entries with
    | nil =>
        obtain ⟨l, hl⟩ := List.exists_mem_of_ne_nil order hne
        obtain ⟨m, hm⟩ := hroot l hl
        have hpair := AList.mem_lookup_iff.mp (hb.sound.lookup hm ((hmem l).mpr hl)).2
        rw [← (hroots _).mem_iff, hhead] at hpair
        cases hpair
    | cons first rest =>
        exact ⟨first, rfl, hentries first ((hroots _).mem_iff.mp (hhead ▸ List.mem_cons_self))⟩
  have hst : S.performAnalysis (S.setLoopLevelAndRoot order fuel) order st₀.reset = some st' :=
    hst'
  rw [CallStructure.performLoopLevelAnalysis, hst]
  simp only [Option.bind_eq_bind, Option.bind_some, hfold, hhighest, hfirst]
  rfl

end Nest

/-! ### The two analyses together -/

/-- `l` is `n` calls below the loop `r`, whose function is not called from a
loop function. -/
inductive CallStructure.Depth (S : CallStructure L F) (loops : Finset L) : L → Nat → L → Prop
  | outermost {l : L} {f : F} : l ∈ loops → S.callers (S.loopFunction l) = [f] →
      S.outlined f = false → Depth S loops l 0 l
  | nested {l p r : L} {n : Nat} : l ∈ loops → p ∈ loops →
      S.callers (S.loopFunction l) = [S.loopFunction p] → Depth S loops p n r →
      Depth S loops l (n + 1) r

/-- The loops of a module, as the front end outlines them:

- `loopFunction_inj`, `outlined`: each loop has an outlined function of its
  own;
- `caller`: this function has one caller edge, and an outlined caller is the
  function of a loop;
- `acyclic`: no loop function reaches itself through loop functions;
- `one_per_level`: no nest has two loops of one level. -/
structure CallStructure.WellNested (S : CallStructure L F) (loops : Finset L) : Prop where
  loopFunction_inj : ∀ l ∈ loops, ∀ l' ∈ loops, S.loopFunction l = S.loopFunction l' → l = l'
  outlined : ∀ l ∈ loops, S.outlined (S.loopFunction l) = true
  caller : ∀ l ∈ loops, ∃ f, S.callers (S.loopFunction l) = [f] ∧
    (S.outlined f = true → ∃ p ∈ loops, S.loopFunction p = f)
  acyclic : ∀ f, ¬ Relation.TransGen
    (fun g f => g ∈ S.callers f ∧ S.outlined g = true ∧ S.outlined f = true) f f
  one_per_level : ∀ l l' n r, S.Depth loops l n r → S.Depth loops l' n r → l = l'

/-- The order in which a set is enumerated. The set holds pointers, so nothing
else is known of it. -/
structure Enumerates (order : List L) (loops : Finset L) : Prop where
  nodup : order.Nodup
  mem_iff : ∀ l, l ∈ order ↔ l ∈ loops

section Agreement

variable {S : CallStructure L F} {loops : Finset L} {order : List L} {l r : L}

omit [DecidableEq L] [DecidableEq F] in
/-- A well-nested call structure satisfies what the two analyses assume,
whatever the order in which the loops are listed. -/
theorem CallStructure.WellNested.valid (h : S.WellNested loops) (ho : Enumerates order loops) :
    S.Valid order where
  nodup := ho.nodup
  loopFunction_inj l hl l' hl' :=
    h.loopFunction_inj l ((ho.mem_iff l).mp hl) l' ((ho.mem_iff l').mp hl')
  outlined l hl := h.outlined l ((ho.mem_iff l).mp hl)
  caller l hl := by
    obtain ⟨f, hf, hp⟩ := h.caller l ((ho.mem_iff l).mp hl)
    refine ⟨f, hf, fun hout => ?_⟩
    obtain ⟨p, hp, hpf⟩ := hp hout
    exact ⟨p, (ho.mem_iff p).mpr hp, hpf⟩
  acyclic := h.acyclic

omit [DecidableEq L] in
/-- The depth is the level in the forest of the callers, for any order of the
loops. It takes the statement about the order to one about the set. -/
theorem depth_iff (h : S.WellNested loops) (ho : Enumerates order loops) {n : Nat} :
    S.Depth loops l n r ↔ l ∈ order ∧ Rooted (S.callerLoop order) l n r := by
  have hv := h.valid ho
  constructor
  · -- By induction on the depth: an outermost loop has no caller loop, a nested one has the loop
    -- of its only caller.
    intro hd
    induction hd with
    | @outermost l f hl hf hout =>
        refine ⟨(ho.mem_iff l).mpr hl, .root ?_⟩
        rw [CallStructure.callerLoop, hf]
        exact if_pos hout
    | @nested l p r n hl hp hf _ ih =>
        refine ⟨(ho.mem_iff l).mpr hl, .child ?_ ih.2⟩
        rw [CallStructure.callerLoop, hf]
        simp only [h.outlined p hp, Bool.true_eq_false, if_false]
        exact CallStructure.Valid.callGraphNodeToLoop_eq hv.loopFunction_inj
          ((ho.mem_iff p).mpr hp)
  · -- Conversely by induction on the chain of caller loops.
    rintro ⟨hl, hroot⟩
    induction hroot with
    | @root l hnone =>
        obtain ⟨f, hf, ⟨hout, _⟩ | ⟨_, p, _, _, _, hp⟩⟩ := hv.callerLoop_cases hl
        · exact .outermost ((ho.mem_iff l).mp hl) hf hout
        · rw [hnone] at hp
          cases hp
    | @child l p r n hp _ ih =>
        obtain ⟨hpmem, hf⟩ := hv.callerLoop_mem hl hp
        exact .nested ((ho.mem_iff l).mp hl) ((ho.mem_iff p).mp hpmem) hf (ih hpmem)

/-- The root that is stored for a loop. -/
theorem lookup_loopToRoot_iff {kind : AnalysisKind} {order : List L} {st : Analysis L}
    (hv : S.Valid order) (hb : Between kind S order st)
    (hmem : ∀ l, l ∈ st.loopToLevel ↔ l ∈ order) :
    st.loopToRoot.lookup l = some r ↔ l ∈ order ∧ ∃ n, Rooted (S.callerLoop order) l n r := by
  constructor
  · intro hl
    have hl' := hb.sound.root_mem l (AList.lookup_isSome.mp (hl ▸ rfl))
    obtain ⟨n, r', hroot⟩ := hv.exists_rooted ((hmem l).mp hl')
    obtain rfl : r' = r := Option.some.inj ((hb.sound.lookup hroot hl').2.symm.trans hl)
    exact ⟨(hmem l).mp hl', n, hroot⟩
  · rintro ⟨hl, n, hroot⟩
    exact (hb.sound.lookup hroot ((hmem l).mpr hl)).2

/-- The loops with one number are the nest of one root. -/
theorem nest_of_id {order : List L} {st : Analysis L} {id : Nat} {s : Finset L}
    (hv : S.Valid order) (hb : Between .nest S order st)
    (hmem : ∀ l, l ∈ st.loopToLevel ↔ l ∈ order) (hs : st.nestIDToLoops.lookup id = some s) :
    ∃ r, st.rootToNestID.lookup r = some id ∧
      ∀ l, l ∈ s ↔ l ∈ order ∧ ∃ n, Rooted (S.callerLoop order) l n r := by
  have hn := hb.nests rfl
  obtain ⟨r, hr⟩ := Option.isSome_iff_exists.mp (AList.lookup_isSome.mpr
    (hn.loops_root id (AList.lookup_isSome.mp (hs ▸ rfl))))
  have hr' := (hn.id_iff r id).mpr hr
  obtain ⟨s', hs', hmem'⟩ := hn.loops r id hr'
  obtain rfl : s' = s := Option.some.inj (hs'.symm.trans hs)
  exact ⟨r, hr', fun l => (hmem' l).trans (lookup_loopToRoot_iff hv hb hmem)⟩

/-- Every loop is in the nest of its root. -/
theorem exists_id {order : List L} {st : Analysis L} {n : Nat} (hv : S.Valid order)
    (hb : Between .nest S order st) (hmem : ∀ l, l ∈ st.loopToLevel ↔ l ∈ order)
    (hl : l ∈ order) (hroot : Rooted (S.callerLoop order) l n r) : ∃ id s,
      st.rootToNestID.lookup r = some id ∧ st.nestIDToLoops.lookup id = some s ∧
        ∀ l, l ∈ s ↔ l ∈ order ∧ ∃ n, Rooted (S.callerLoop order) l n r := by
  have hn := hb.nests rfl
  obtain ⟨id, hid⟩ := Option.isSome_iff_exists.mp (AList.lookup_isSome.mpr (hn.root_mem l r
    ((lookup_loopToRoot_iff hv hb hmem).mpr ⟨hl, n, hroot⟩)))
  obtain ⟨s, hs, hmem'⟩ := hn.loops r id hid
  exact ⟨id, s, hid, hs, fun l => (hmem' l).trans (lookup_loopToRoot_iff hv hb hmem)⟩

/-- Both analyses succeed for every order of the loops and of the nests. The
classes of the first are the sets of loops with one outermost loop; the second
gives each loop of a class its depth, and the same root and caller as the
first. -/
theorem analyses_agree (h : S.WellNested loops) (ho : Enumerates order loops) {fuel : Nat}
    (hfuel : loops.card < fuel) : ∃ st,
    S.performLoopNestAnalysis order fuel .empty = some st ∧
    (∀ l ∈ loops, ∃ id s, st.nestIDToLoops.lookup id = some s ∧ l ∈ s ∧
      ∀ id' s', st.nestIDToLoops.lookup id' = some s' → l ∈ s' → id' = id) ∧
    (∀ l ∈ loops, ∀ l' ∈ loops,
      (∃ id s, st.nestIDToLoops.lookup id = some s ∧ l ∈ s ∧ l' ∈ s) ↔
        ∃ r n n', S.Depth loops l n r ∧ S.Depth loops l' n' r) ∧
    ∀ id s, st.nestIDToLoops.lookup id = some s → s ⊆ loops ∧
      ∀ order' : List L, Enumerates order' s → ∀ (st₀ : Analysis L)
        (levels : List (Sigma fun _ : L => Nat) → List (Sigma fun _ : L => Nat))
        (roots : List (Sigma fun _ : L => L) → List (Sigma fun _ : L => L)),
        (∀ es, (levels es).Perm es) → (∀ es, (roots es).Perm es) → ∃ st' r,
          S.performLoopLevelAnalysis order' fuel st₀.reset levels roots =
            some (st', s.card, r) ∧
          (∀ l n, st'.loopToLevel.lookup l = some n ↔ l ∈ s ∧ S.Depth loops l n r) ∧
          (∀ l ∈ s, st'.loopToRoot.lookup l = some r ∧ st.loopToRoot.lookup l = some r ∧
            st'.loopToCallerLoop.lookup l = st.loopToCallerLoop.lookup l) ∧
          ∀ n l, st'.levelToLoop.lookup n = some l ↔ st'.loopToLevel.lookup l = some n := by
  have hv := h.valid ho
  have hlength : order.length = loops.card := by
    rw [← List.toFinset_card_of_nodup ho.nodup]
    exact congrArg Finset.card (Finset.ext fun l => List.mem_toFinset.trans (ho.mem_iff l))
  obtain ⟨st, hst, hb, hmem⟩ :=
    performAnalysis_spec .nest hv (hlength.trans_lt hfuel) (between_empty S order)
  have hdepth {l r : L} {n : Nat} := depth_iff (l := l) (r := r) (n := n) h ho
  -- In order: a loop is in exactly one class; two loops of a class have one root; two loops of
  -- one root are in a class; and the level analysis of a class.
  refine ⟨st, hst, fun l hl => ?_, fun l hl l' hl' => ⟨?_, ?_⟩, fun id s hs => ?_⟩
  · have hl := (ho.mem_iff l).mpr hl
    obtain ⟨n, r, hroot⟩ := hv.exists_rooted hl
    obtain ⟨id, s, hid, hs, hclass⟩ := exists_id hv hb hmem hl hroot
    refine ⟨id, s, hs, (hclass l).mpr ⟨hl, n, hroot⟩, fun id' s' hs' hl' => ?_⟩
    obtain ⟨r', hid', hclass'⟩ := nest_of_id hv hb hmem hs'
    obtain ⟨_, n', hroot'⟩ := (hclass' l).mp hl'
    obtain rfl := (hroot'.unique hroot).2
    exact Option.some.inj (hid'.symm.trans hid)
  · rintro ⟨id, s, hs, hls, hls'⟩
    obtain ⟨r, _, hclass⟩ := nest_of_id hv hb hmem hs
    obtain ⟨hl, n, hroot⟩ := (hclass l).mp hls
    obtain ⟨hl', n', hroot'⟩ := (hclass l').mp hls'
    exact ⟨r, n, n', hdepth.mpr ⟨hl, hroot⟩, hdepth.mpr ⟨hl', hroot'⟩⟩
  · rintro ⟨r, n, n', hd, hd'⟩
    obtain ⟨hl, hroot⟩ := hdepth.mp hd
    obtain ⟨hl', hroot'⟩ := hdepth.mp hd'
    obtain ⟨id, s, _, hs, hclass⟩ := exists_id hv hb hmem hl hroot
    exact ⟨id, s, hs, (hclass l).mpr ⟨hl, n, hroot⟩, (hclass l').mpr ⟨hl', n', hroot'⟩⟩
  · obtain ⟨r, hid, hclass⟩ := nest_of_id hv hb hmem hs
    refine ⟨fun l hl => (ho.mem_iff l).mp ((hclass l).mp hl).1,
      fun order' ho' st₀ levels roots hlevels hroots => ?_⟩
    -- The second analysis sees the loops of the class only, in an order of its own. Inside one
    -- class the caller loops are the same as in the whole program.
    have hnest : IsNest S order order' r :=
      ⟨ho'.nodup, fun l => (ho'.mem_iff l).trans (hclass l)⟩
    have hv' := hnest.valid hv
    have hroot : ∀ l ∈ order', ∃ n, Rooted (S.callerLoop order') l n r := fun l hl => by
      obtain ⟨_, n, hroot⟩ := (hnest.mem_iff l).mp hl
      exact ⟨n, (hnest.rooted_iff hv hl).mpr hroot⟩
    have hone : ∀ l ∈ order', ∀ l' ∈ order', ∀ n, Rooted (S.callerLoop order') l n r →
        Rooted (S.callerLoop order') l' n r → l = l' := by
      intro l hl l' hl' n hroot hroot'
      exact h.one_per_level l l' n r
        (hdepth.mpr ⟨((hnest.mem_iff l).mp hl).1, (hnest.rooted_iff hv hl).mp hroot⟩)
        (hdepth.mpr ⟨((hnest.mem_iff l').mp hl').1, (hnest.rooted_iff hv hl').mp hroot'⟩)
    have hlength' : order'.length = s.card := by
      rw [← List.toFinset_card_of_nodup ho'.nodup]
      exact congrArg Finset.card (Finset.ext fun l => List.mem_toFinset.trans (ho'.mem_iff l))
    have hcard : s.card ≤ loops.card :=
      Finset.card_le_card fun l hl => (ho.mem_iff l).mp ((hclass l).mp hl).1
    -- A class has at least its root, so that the second analysis finds a first entry.
    have hne : order' ≠ [] := by
      have hr := (hb.nests rfl).root_root r (AList.lookup_isSome.mp (hid ▸ rfl))
      have hr' := (hclass r).mpr ((lookup_loopToRoot_iff hv hb hmem).mp hr)
      exact List.ne_nil_of_mem ((ho'.mem_iff r).mpr hr')
    obtain ⟨st', hst', hb', hmem', hinverse⟩ := performLoopLevelAnalysis_spec hv'
      (show order'.length < fuel by omega) st₀ hlevels hroots hroot hone hne
    refine ⟨st', r, hlength' ▸ hst', fun l n => ⟨fun hl => ?_, ?_⟩, fun l hl => ⟨?_, ?_, ?_⟩,
      hinverse⟩
    · have hl' := (hmem' l).mp (AList.lookup_isSome.mp (hl ▸ rfl))
      obtain ⟨m, hm⟩ := hroot l hl'
      obtain rfl : m = n := Option.some.inj
        ((hb'.sound.lookup hm ((hmem' l).mpr hl')).1.symm.trans hl)
      exact ⟨(ho'.mem_iff l).mp hl', hdepth.mpr
        ⟨((hnest.mem_iff l).mp hl').1, (hnest.rooted_iff hv hl').mp hm⟩⟩
    · rintro ⟨hl, hd⟩
      have hl' := (ho'.mem_iff l).mpr hl
      exact (hb'.sound.lookup ((hnest.rooted_iff hv hl').mpr (hdepth.mp hd).2)
        ((hmem' l).mpr hl')).1
    · have hl' := (ho'.mem_iff l).mpr hl
      exact (lookup_loopToRoot_iff hv' hb' hmem').mpr ⟨hl', hroot l hl'⟩
    · exact (lookup_loopToRoot_iff hv hb hmem).mpr ((hclass l).mp hl)
    · have hl' := (ho'.mem_iff l).mpr hl
      rw [hb'.sound.caller l ((hmem' l).mpr hl'), hnest.callerLoop_eq hv hl',
        hb.sound.caller l ((hmem l).mpr ((hclass l).mp hl).1)]

end Agreement

/-- Two nests: the function `3` calls the loops `0` and `2`, and the loop `0`
calls `1`. -/
def twoNests : CallStructure (Fin 3) (Fin 4) where
  loopFunction := Fin.castSucc
  callers f := if f = 1 then [0] else if f = 3 then [] else [3]
  outlined f := f ≠ 3

/-- The two nests of the example are well nested. -/
theorem twoNests_wellNested : twoNests.WellNested Finset.univ where
  loopFunction_inj := by decide
  outlined := by decide
  caller := by decide
  acyclic f hf := by
    have hdown : ∀ g f : Fin 4, g ∈ twoNests.callers f ∧ twoNests.outlined g = true ∧
        twoNests.outlined f = true → g < f := by decide
    have hlt : Relation.TransGen (fun g f : Fin 4 => g < f) f f := hf.lift id hdown
    rw [Relation.transGen_eq_self] at hlt
    exact lt_irrefl f hlt
  one_per_level l l' n r hd hd' := by
    have hone : ∀ l p : Fin 3, twoNests.callers (twoNests.loopFunction l) =
        [twoNests.loopFunction p] → l = 1 := by decide
    cases hd with
    | outermost _ _ _ =>
        cases hd' with
        | outermost _ _ _ => rfl
    | nested _ _ hf _ =>
        cases hd' with
        | nested _ _ hf' _ => rw [hone l _ hf, hone l' _ hf']

/-- With the inner loop enumerated first, the loops `0` and `1` still form one
nest. -/
theorem analyses_agree_two : ∃ st,
    twoNests.performLoopNestAnalysis [1, 2, 0] 4 .empty = some st ∧
    ∃ id s, st.nestIDToLoops.lookup id = some s ∧ (0 : Fin 3) ∈ s ∧ (1 : Fin 3) ∈ s := by
  have horder : Enumerates [1, 2, 0] (Finset.univ : Finset (Fin 3)) := ⟨by decide, by decide⟩
  obtain ⟨st, hst, _, hsame, _⟩ := analyses_agree twoNests_wellNested horder
    (show (Finset.univ : Finset (Fin 3)).card < 4 by decide)
  have hroot : twoNests.Depth Finset.univ 0 0 0 :=
    .outermost (Finset.mem_univ 0) (f := 3) (by decide) (by decide)
  have hnested : twoNests.Depth Finset.univ 1 1 0 :=
    .nested (Finset.mem_univ 1) (Finset.mem_univ 0) (by decide) hroot
  exact ⟨st, hst, (hsame 0 (Finset.mem_univ 0) 1 (Finset.mem_univ 1)).mpr
    ⟨0, 0, 1, hroot, hnested⟩⟩

end HeartbeatCompiler
