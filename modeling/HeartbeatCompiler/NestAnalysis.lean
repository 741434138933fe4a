import HeartbeatCompiler.Forest
import Mathlib.Data.Finset.Image
import Mathlib.Data.List.AList
import Mathlib.Data.List.Nodup
import Mathlib.Data.Finset.Dedup

/-!
# `HeartbeatCompiler.NestAnalysis`: loop nests and loop levels

`performLoopNestAnalysis` sorts the loops of the module into nests, `performLoopLevelAnalysis`
determines the levels of the loops of one nest after `reset`. Both walk from any loop to the
loops that call it and store what they find in maps, which keep it for the loops that come
later (`setLoopAndRoot`). A failed assertion is `none`.

The results are those of the forest of the callers (`Forest.Rooted`), whatever the order in
which the loops are enumerated: `Sound` and `NestSound` say so of the maps at any time, and
`performAnalysis_spec` of the maps in the end.
-/

set_option autoImplicit false

namespace HeartbeatCompiler

open Forest

variable {L F : Type} [DecidableEq L] [DecidableEq F]

/-! ### The analyses -/

/-- What the analyses read of the module: the function of each loop, the
callers on the incoming edges of a function in the call graph, and whether the
name of a function says that it is an outlined loop. A function may be called
by several functions; the analyses assert that a loop function is not. -/
structure CallStructure (L F : Type) where
  loopFunction : L → F
  callers : F → List F
  outlined : F → Bool

/-- The maps that the analyses fill, with the counter of the nests. Both
analyses write the first four; the last four belong to the nest analysis. -/
structure Analysis (L : Type) where
  loopToLevel : AList fun _ : L => Nat
  levelToLoop : AList fun _ : Nat => L
  loopToRoot : AList fun _ : L => L
  loopToCallerLoop : AList fun _ : L => L
  rootToNestID : AList fun _ : L => Nat
  nestIDToRoot : AList fun _ : Nat => L
  nestIDToLoops : AList fun _ : Nat => Finset L
  nestID : Nat

/-- The two analyses differ in what they do for a root and for a nested loop
besides: the nest analysis also numbers the nests and collects their loops. -/
inductive AnalysisKind
  | nest
  | level
  deriving DecidableEq

namespace Analysis

/-- The maps at the start of the pass. -/
def empty : Analysis L := ⟨∅, ∅, ∅, ∅, ∅, ∅, ∅, 0⟩

/-- `reset` between the two analyses: levels, roots and callers are cleared,
and the nests stay. -/
def reset (st : Analysis L) : Analysis L :=
  { st with loopToLevel := ∅, levelToLoop := ∅, loopToRoot := ∅, loopToCallerLoop := ∅ }

/-- The level and the root of a loop are stored, and the loop as the one of
its level. In a module with several nests a later loop of the same level
replaces the earlier one there. -/
def record (st : Analysis L) (ldi : L) (level : Nat) (root : L) : Analysis L :=
  { st with
      loopToLevel := st.loopToLevel.insert ldi level
      levelToLoop := st.levelToLoop.insert level ldi
      loopToRoot := st.loopToRoot.insert ldi root }

/-- A root loop opens a nest: it gets the number of the counter in both
directions, becomes its first loop, and the counter goes on. -/
def openNest (st : Analysis L) (ldi : L) : Analysis L :=
  { st with
      rootToNestID := st.rootToNestID.insert ldi st.nestID
      nestIDToRoot := st.nestIDToRoot.insert st.nestID ldi
      nestIDToLoops := st.nestIDToLoops.insert st.nestID
        (insert ldi ((st.nestIDToLoops.lookup st.nestID).getD ∅))
      nestID := st.nestID + 1 }

/-- A nested loop joins the nest of its root. It fails if the root has no
nest. -/
def joinNest (st : Analysis L) (ldi root : L) : Option (Analysis L) := do
  let id ← st.rootToNestID.lookup root
  pure { st with
    nestIDToLoops := st.nestIDToLoops.insert id
      (insert ldi ((st.nestIDToLoops.lookup id).getD ∅)) }

/-- The caller of a nested loop is stored. -/
def setCaller (st : Analysis L) (ldi callerLDI : L) : Analysis L :=
  { st with loopToCallerLoop := st.loopToCallerLoop.insert ldi callerLDI }

/-- The part for a root loop. It is asserted that neither its level nor its
root is known. -/
def setRoot (kind : AnalysisKind) (st : Analysis L) (ldi : L) : Option (Analysis L) :=
  if ldi ∈ st.loopToLevel ∨ ldi ∈ st.loopToRoot then none
  else
    match kind with
    | .nest => some ((st.record ldi 0 ldi).openNest ldi)
    | .level => some (st.record ldi 0 ldi)

/-- The part for a nested loop once the maps know its caller: its level is one
more than that of the caller, and its root is the same. -/
def setNested (kind : AnalysisKind) (ldi callerLDI : L) (st : Analysis L) :
    Option (Analysis L) := do
  let level ← st.loopToLevel.lookup callerLDI
  let root ← st.loopToRoot.lookup callerLDI
  match kind with
  | .nest => (st.record ldi (level + 1) root).joinNest ldi root
  | .level => some (st.record ldi (level + 1) root)

end Analysis

namespace CallStructure

variable (S : CallStructure L F)

/-- `callGraphNodeToLoop`, filled from the loops in their order, so that the
last loop of a function is the one that is found. -/
def callGraphNodeToLoop (heartbeatLoops : List L) (f : F) : Option L :=
  heartbeatLoops.reverse.find? fun ldi => S.loopFunction ldi = f

/-- `setLoopNestAndRoot` and `setLoopLevelAndRoot`, which are one recursion
with two kinds of entries. The loop function must have one caller. If that is
no outlined loop, the loop is a root; otherwise the loop of the caller is set
first, unless its level is known. The fuel bounds the depth of the recursion,
which the source leaves to the call graph. -/
def setLoopAndRoot (kind : AnalysisKind) (heartbeatLoops : List L) :
    (fuel : Nat) → L → Analysis L → Option (Analysis L)
  | 0, _, _ => none
  | fuel + 1, ldi, st =>
      match S.callers (S.loopFunction ldi) with
      | [callerFunction] =>
          if S.outlined callerFunction = false then st.setRoot kind ldi
          else
            match S.callGraphNodeToLoop heartbeatLoops callerFunction with
            | none => none
            | some callerLDI =>
                if ldi ∈ st.loopToCallerLoop then none
                else if callerLDI ∈ st.loopToLevel then
                  (st.setCaller ldi callerLDI).setNested kind ldi callerLDI
                else if callerLDI ∈ st.loopToRoot then none
                else
                  (setLoopAndRoot kind heartbeatLoops fuel callerLDI
                    (st.setCaller ldi callerLDI)).bind (Analysis.setNested kind ldi callerLDI)
      | _ => none

/-- `setLoopNestAndRoot`. -/
def setLoopNestAndRoot (heartbeatLoops : List L) (fuel : Nat) (ldi : L) (st : Analysis L) :
    Option (Analysis L) :=
  S.setLoopAndRoot .nest heartbeatLoops fuel ldi st

/-- `setLoopLevelAndRoot`. -/
def setLoopLevelAndRoot (heartbeatLoops : List L) (fuel : Nat) (ldi : L) (st : Analysis L) :
    Option (Analysis L) :=
  S.setLoopAndRoot .level heartbeatLoops fuel ldi st

/-- The loop over all loops, with one of the two functions. A loop that was
set while another one was visited is passed over; that its root is known too
is asserted. -/
def visitLoops (setRoot : L → Analysis L → Option (Analysis L)) :
    List L → Analysis L → Option (Analysis L)
  | [], st => some st
  | ldi :: rest, st =>
      if ldi ∈ st.loopToLevel then
        if ldi ∈ st.loopToRoot then visitLoops setRoot rest st else none
      else do
        let st ← setRoot ldi st
        visitLoops setRoot rest st

/-- One analysis: every loop function is outlined, which is asserted first,
all loops are visited, and the maps hold as many levels and roots as there are
loops. -/
def performAnalysis (setRoot : L → Analysis L → Option (Analysis L)) (heartbeatLoops : List L)
    (st : Analysis L) : Option (Analysis L) :=
  if heartbeatLoops.all fun ldi => S.outlined (S.loopFunction ldi) then do
    let st ← visitLoops setRoot heartbeatLoops st
    if heartbeatLoops.length = st.loopToLevel.entries.length ∧
        heartbeatLoops.length = st.loopToRoot.entries.length then some st
    else none
  else none

/-- `performLoopNestAnalysis`. -/
def performLoopNestAnalysis (heartbeatLoops : List L) (fuel : Nat) (st : Analysis L) :
    Option (Analysis L) :=
  S.performAnalysis (S.setLoopNestAndRoot heartbeatLoops fuel) heartbeatLoops st

/-- `performLoopLevelAnalysis`, with `numLevels` and `rootLoop`. The number of
levels is one more than the highest level, and the root is the one of the
first entry of `loopToRoot`. Both maps are unordered, so their entries are
taken in the orders `levels` and `roots`. -/
def performLoopLevelAnalysis (heartbeatLoops : List L) (fuel : Nat) (st : Analysis L)
    (levels : List (Sigma fun _ : L => Nat) → List (Sigma fun _ : L => Nat))
    (roots : List (Sigma fun _ : L => L) → List (Sigma fun _ : L => L)) :
    Option (Analysis L × Nat × L) := do
  let st ← S.performAnalysis (S.setLoopLevelAndRoot heartbeatLoops fuel) heartbeatLoops st
  let highestLevel := (levels st.loopToLevel.entries).foldl
    (fun highest pair => if highest < pair.2 then pair.2 else highest) 0
  let first ← (roots st.loopToRoot.entries).head?
  pure (st, highestLevel + 1, first.2)

end CallStructure

/-! ### The call structure -/

namespace CallStructure

/-- The loop whose function calls the function of a loop; a root loop has
none. It is the parent in the forest whose levels and roots the analyses
compute. -/
def callerLoop (S : CallStructure L F) (heartbeatLoops : List L) (ldi : L) : Option L :=
  match S.callers (S.loopFunction ldi) with
  | [callerFunction] =>
      if S.outlined callerFunction = false then none
      else S.callGraphNodeToLoop heartbeatLoops callerFunction
  | _ => none

/-- What the analyses need of the loops they are given:

- `nodup`: they are a set, in some order;
- `loopFunction_inj`, `outlined`: each has an outlined function of its own;
- `caller`: this function has one caller edge, and an outlined caller is the
  function of a loop;
- `acyclic`: no loop function reaches itself. -/
structure Valid (S : CallStructure L F) (loops : List L) : Prop where
  nodup : loops.Nodup
  loopFunction_inj : ∀ l ∈ loops, ∀ l' ∈ loops, S.loopFunction l = S.loopFunction l' → l = l'
  outlined : ∀ l ∈ loops, S.outlined (S.loopFunction l) = true
  caller : ∀ l ∈ loops, ∃ f, S.callers (S.loopFunction l) = [f] ∧
    (S.outlined f = true → ∃ p ∈ loops, S.loopFunction p = f)
  acyclic : ∀ f, ¬ Relation.TransGen
    (fun g f => g ∈ S.callers f ∧ S.outlined g = true ∧ S.outlined f = true) f f

namespace Valid

variable {S : CallStructure L F} {loops : List L} {l p : L}

omit [DecidableEq L] in
/-- The node of a loop function leads back to the loop. -/
theorem callGraphNodeToLoop_eq
    (hinj : ∀ l ∈ loops, ∀ l' ∈ loops, S.loopFunction l = S.loopFunction l' → l = l')
    (hl : l ∈ loops) : S.callGraphNodeToLoop loops (S.loopFunction l) = some l := by
  cases hfind : S.callGraphNodeToLoop loops (S.loopFunction l) with
  | none =>
      have := List.find?_eq_none.mp hfind l (List.mem_reverse.mpr hl)
      simp at this
  | some l' =>
      rw [callGraphNodeToLoop] at hfind
      have hmem := List.mem_reverse.mp (List.mem_of_find?_eq_some hfind)
      have heq := List.find?_some hfind
      simp only [decide_eq_true_eq] at heq
      rw [hinj l' hmem l hl heq]

omit [DecidableEq L] in
/-- A loop is a root loop, or its caller is one of the loops. -/
theorem callerLoop_cases (h : S.Valid loops) (hl : l ∈ loops) : ∃ f,
    S.callers (S.loopFunction l) = [f] ∧
      (S.outlined f = false ∧ S.callerLoop loops l = none ∨
        S.outlined f = true ∧ ∃ p ∈ loops, S.loopFunction p = f ∧
          S.callGraphNodeToLoop loops f = some p ∧ S.callerLoop loops l = some p) := by
  obtain ⟨f, hf, hcaller⟩ := h.caller l hl
  refine ⟨f, hf, ?_⟩
  cases hout : S.outlined f with
  | false =>
      refine .inl ⟨rfl, ?_⟩
      simp only [callerLoop, hf]
      exact if_pos hout
  | true =>
      obtain ⟨p, hp, rfl⟩ := hcaller hout
      have hnode := callGraphNodeToLoop_eq h.loopFunction_inj hp
      refine .inr ⟨rfl, p, hp, rfl, hnode, ?_⟩
      simp only [callerLoop, hf, hnode]
      exact if_neg (by rw [hout]; decide)

omit [DecidableEq L] in
/-- The caller of a loop is one of the loops. -/
theorem callerLoop_mem (h : S.Valid loops) (hl : l ∈ loops)
    (hp : S.callerLoop loops l = some p) :
    p ∈ loops ∧ S.callers (S.loopFunction l) = [S.loopFunction p] := by
  obtain ⟨f, hf, ⟨_, hnone⟩ | ⟨_, p', hp', rfl, _, hsome⟩⟩ := h.callerLoop_cases hl
  · rw [hnone] at hp
    cases hp
  · rw [hsome, Option.some.injEq] at hp
    subst hp
    exact ⟨hp', hf⟩

/-- Every loop has a level and a root, as going up from caller to caller comes
to an end. -/
theorem exists_rooted (h : S.Valid loops) (hl : l ∈ loops) :
    ∃ n r, Rooted (S.callerLoop loops) l n r := by
  -- The callers outside the loops are cut off, so that there are no cycles anywhere.
  let parent : L → Option L := fun l => if l ∈ loops then S.callerLoop loops l else none
  have hmem : ∀ l p, parent l = some p → l ∈ loops ∧ S.callerLoop loops l = some p := by
    intro l p hp
    by_cases hl : l ∈ loops
    · exact ⟨hl, (if_pos hl).symm.trans hp⟩
    · rw [show parent l = none from if_neg hl] at hp
      cases hp
  have hacyclic : Acyclic parent := by
    intro x hx
    refine h.acyclic (S.loopFunction x) (hx.lift S.loopFunction fun p l hp => ?_)
    obtain ⟨hl, hcaller⟩ := hmem l p hp
    obtain ⟨hp, hcallers⟩ := h.callerLoop_mem hl hcaller
    exact ⟨hcallers ▸ List.mem_singleton_self _, h.outlined p hp, h.outlined l hl⟩
  have hclosed : ∀ x p, x ∈ loops.toFinset → parent x = some p → p ∈ loops.toFinset := by
    intro x p _ hp
    obtain ⟨hx, hp⟩ := hmem x p hp
    exact List.mem_toFinset.mpr (h.callerLoop_mem hx hp).1
  obtain ⟨n, r, hroot⟩ := Forest.exists_rooted loops.toFinset hclosed hacyclic
    (List.mem_toFinset.mpr hl)
  refine ⟨n, r, hroot.congr (s := (· ∈ loops)) (fun x p hx hp => ?_) (fun x hx => ?_) hl⟩
  · exact (h.callerLoop_mem hx (hmem x p hp).2).1
  · exact (if_pos hx).symm

end Valid

end CallStructure

/-! ### The maps -/

/-- The maps hold what is to be known of the loops that were visited:

- `mem`: only loops are visited;
- `level`, `root_mem`: each has its level and its root, and no other loop has
  one;
- `caller`: each has its caller, if there is one;
- `caller_mem`: the caller of a visited loop was visited;
- `levelToLoop`, `levelToLoop_mem`: each level that occurs has a loop of this
  level. -/
structure Sound (S : CallStructure L F) (loops : List L) (st : Analysis L) : Prop where
  mem : ∀ l ∈ st.loopToLevel, l ∈ loops
  level : ∀ l n, st.loopToLevel.lookup l = some n →
    ∃ r, Rooted (S.callerLoop loops) l n r ∧ st.loopToRoot.lookup l = some r
  root_mem : ∀ l ∈ st.loopToRoot, l ∈ st.loopToLevel
  caller : ∀ l ∈ st.loopToLevel, st.loopToCallerLoop.lookup l = S.callerLoop loops l
  caller_mem : ∀ l p, l ∈ st.loopToLevel → S.callerLoop loops l = some p → p ∈ st.loopToLevel
  levelToLoop : ∀ n l, st.levelToLoop.lookup n = some l → st.loopToLevel.lookup l = some n
  levelToLoop_mem : ∀ l n, st.loopToLevel.lookup l = some n → n ∈ st.levelToLoop

/-- What the nest analysis holds besides:

- `id_iff`: roots and numbers are mapped to each other;
- `id_lt`: the number of the next nest is new;
- `root_root`, `root_mem`: the roots of the visited loops, and only these,
  have a number;
- `loops`: a nest holds the loops with its root;
- `loops_root`: every class is that of a nest. -/
structure NestSound (st : Analysis L) : Prop where
  id_iff : ∀ r id, st.rootToNestID.lookup r = some id ↔ st.nestIDToRoot.lookup id = some r
  id_lt : ∀ id ∈ st.nestIDToRoot, id < st.nestID
  root_root : ∀ r ∈ st.rootToNestID, st.loopToRoot.lookup r = some r
  root_mem : ∀ l r, st.loopToRoot.lookup l = some r → r ∈ st.rootToNestID
  loops : ∀ r id, st.rootToNestID.lookup r = some id →
    ∃ s, st.nestIDToLoops.lookup id = some s ∧ ∀ l, l ∈ s ↔ st.loopToRoot.lookup l = some r
  loops_root : ∀ id ∈ st.nestIDToLoops, id ∈ st.nestIDToRoot

section Maps

variable {S : CallStructure L F} {loops : List L} {st : Analysis L} {l p r : L} {n : Nat}

/-- A map after an insertion of a new key. -/
theorem lookup_insert_iff {V : Type} {m : AList fun _ : L => V} {v w : V} (hl : l ∉ m) (x : L) :
    (m.insert l v).lookup x = some w ↔ x = l ∧ v = w ∨ x ≠ l ∧ m.lookup x = some w := by
  by_cases hx : x = l
  · subst hx
    simp [AList.lookup_insert]
  · simp [AList.lookup_insert_ne hx, hx]

/-- The entries of a visited loop. -/
theorem Sound.lookup (h : Sound S loops st) (hroot : Rooted (S.callerLoop loops) l n r)
    (hl : l ∈ st.loopToLevel) :
    st.loopToLevel.lookup l = some n ∧ st.loopToRoot.lookup l = some r := by
  obtain ⟨m, hm⟩ := Option.isSome_iff_exists.mp (AList.lookup_isSome.mpr hl)
  obtain ⟨r', hroot', hr'⟩ := h.level l m hm
  obtain ⟨rfl, rfl⟩ := hroot'.unique hroot
  exact ⟨hm, hr'⟩

/-- The entries of the next loop, whose caller was visited before. What the
maps hold of other loops is not changed, but for the inverse map. -/
theorem Sound.record (h : Sound S loops st) (hl : l ∈ loops) (hnew : l ∉ st.loopToLevel)
    (hroot : Rooted (S.callerLoop loops) l n r)
    (hcaller : st.loopToCallerLoop.lookup l = S.callerLoop loops l)
    (hmem : ∀ p, S.callerLoop loops l = some p → p ∈ st.loopToLevel) :
    Sound S loops (st.record l n r) where
  mem x hx := by
    rcases (AList.mem_insert _).mp hx with rfl | hx
    · exact hl
    · exact h.mem x hx
  level x m hx := by
    rcases (lookup_insert_iff hnew x).mp hx with ⟨rfl, rfl⟩ | ⟨hne, hx⟩
    · exact ⟨r, hroot, AList.lookup_insert _⟩
    · obtain ⟨r', hroot', hr'⟩ := h.level x m hx
      exact ⟨r', hroot', (AList.lookup_insert_ne hne).trans hr'⟩
  root_mem x hx := by
    rcases (AList.mem_insert _).mp hx with rfl | hx
    · exact (AList.mem_insert _).mpr (.inl rfl)
    · exact (AList.mem_insert _).mpr (.inr (h.root_mem x hx))
  caller x hx := by
    rcases (AList.mem_insert _).mp hx with rfl | hx
    · exact hcaller
    · exact h.caller x hx
  caller_mem x p hx hp := by
    refine (AList.mem_insert _).mpr (.inr ?_)
    rcases (AList.mem_insert _).mp hx with rfl | hx
    · exact hmem p hp
    · exact h.caller_mem x p hx hp
  -- The inverse map may lose a loop that has the level of the new one; what it holds stays true.
  levelToLoop m x hx := by
    by_cases hm : m = n
    · subst hm
      obtain rfl : l = x := Option.some.inj ((AList.lookup_insert _).symm.trans hx)
      exact AList.lookup_insert _
    · have hx' := h.levelToLoop m x ((AList.lookup_insert_ne hm).symm.trans hx)
      have hne : x ≠ l := by
        rintro rfl
        exact hnew (AList.lookup_isSome.mp (hx' ▸ rfl))
      exact (AList.lookup_insert_ne hne).trans hx'
  levelToLoop_mem x m hx := by
    rcases (lookup_insert_iff hnew x).mp hx with ⟨rfl, rfl⟩ | ⟨_, hx⟩
    · exact (AList.mem_insert _).mpr (.inl rfl)
    · exact (AList.mem_insert _).mpr (.inr (h.levelToLoop_mem x m hx))

/-- The numbers of different roots are different. -/
theorem NestSound.root_eq (h : NestSound st) {r' : L} {id : Nat}
    (hr : st.rootToNestID.lookup r = some id) (hr' : st.rootToNestID.lookup r' = some id) :
    r = r' :=
  Option.some.inj (((h.id_iff r id).mp hr).symm.trans ((h.id_iff r' id).mp hr'))

/-- A new root opens a nest with a new number. The two maps between roots and
numbers stay inverse to each other. -/
theorem NestSound.openNest (h : NestSound st) (hnew : l ∉ st.loopToRoot) :
    NestSound ((st.record l n l).openNest l) := by
  have hroot : l ∉ st.rootToNestID := fun hl =>
    hnew (AList.lookup_isSome.mp (h.root_root l hl ▸ rfl))
  have hid : st.nestID ∉ st.nestIDToRoot := fun hl => Nat.lt_irrefl _ (h.id_lt _ hl)
  have hloops : st.nestIDToLoops.lookup st.nestID = none :=
    AList.lookup_eq_none.mpr fun hl => hid (h.loops_root _ hl)
  exact
    { id_iff := by
        intro r id
        have hold := h.id_iff r id
        -- The new pair, a new number for an old root, an old number for the new root, and the
        -- old pairs: the middle two do not exist, since both the root and the number are new.
        by_cases hr : r = l <;> by_cases hid' : id = st.nestID
        · subst hr hid'
          simp [Analysis.openNest, Analysis.record, AList.lookup_insert]
        · subst hr
          have hne : ¬ st.nestIDToRoot.lookup id = some r := fun h' => hroot
            (AList.lookup_isSome.mp ((h.id_iff r id).mpr h' ▸ rfl))
          simp [Analysis.openNest, Analysis.record, AList.lookup_insert,
            AList.lookup_insert_ne hid', hne, Ne.symm hid']
        · subst hid'
          have hne : ¬ st.rootToNestID.lookup r = some st.nestID := fun h' => hid
            (AList.lookup_isSome.mp ((h.id_iff r _).mp h' ▸ rfl))
          simp [Analysis.openNest, Analysis.record, AList.lookup_insert,
            AList.lookup_insert_ne hr, hne, Ne.symm hr]
        · simpa [Analysis.openNest, Analysis.record, AList.lookup_insert_ne hr,
            AList.lookup_insert_ne hid'] using hold
      id_lt := by
        intro id hid'
        rcases (AList.mem_insert _).mp hid' with rfl | hid'
        · exact Nat.lt_succ_self _
        · exact Nat.lt_succ_of_lt (h.id_lt id hid')
      root_root := by
        intro r hr
        rcases (AList.mem_insert _).mp hr with rfl | hr
        · exact AList.lookup_insert _
        · exact (lookup_insert_iff hnew r).mpr (.inr ⟨fun heq => hroot (heq ▸ hr),
            h.root_root r hr⟩)
      root_mem := by
        intro x r hx
        rcases (lookup_insert_iff hnew x).mp hx with ⟨_, rfl⟩ | ⟨_, hx⟩
        · exact (AList.mem_insert _).mpr (.inl rfl)
        · exact (AList.mem_insert _).mpr (.inr (h.root_mem x r hx))
      loops := by
        intro r id hr
        rcases (lookup_insert_iff hroot r).mp hr with ⟨rfl, rfl⟩ | ⟨hne, hr⟩
        · refine ⟨_, AList.lookup_insert _, fun x => ?_⟩
          -- The new nest has the new loop alone: no earlier loop has it as root.
          have hempty : (st.nestIDToLoops.lookup st.nestID).getD ∅ = ∅ := by rw [hloops]; rfl
          have hnone : st.loopToRoot.lookup x ≠ some r := fun hx => hroot (h.root_mem x r hx)
          refine Iff.trans ?_ (lookup_insert_iff hnew x).symm
          simp only [Analysis.record, hempty, Finset.mem_insert, Finset.notMem_empty, or_false,
            and_true, hnone, and_false]
        · obtain ⟨s, hs, hmem⟩ := h.loops r id hr
          have hid' : id ≠ st.nestID := by
            rintro rfl
            exact hid (AList.lookup_isSome.mp ((h.id_iff r _).mp hr ▸ rfl))
          refine ⟨s, (AList.lookup_insert_ne hid').trans hs, fun x => ?_⟩
          refine (hmem x).trans (Iff.trans ?_ (lookup_insert_iff hnew x).symm)
          have hx : st.loopToRoot.lookup x = some r → x ≠ l := by
            rintro hx rfl
            exact hnew (AList.lookup_isSome.mp (hx ▸ rfl))
          constructor
          · exact fun h' => .inr ⟨hx h', h'⟩
          · rintro (⟨_, rfl⟩ | ⟨_, h'⟩)
            · exact absurd rfl hne
            · exact h'
      loops_root := by
        intro id hid'
        rcases (AList.mem_insert _).mp hid' with rfl | hid'
        · exact (AList.mem_insert _).mpr (.inl rfl)
        · exact (AList.mem_insert _).mpr (.inr (h.loops_root id hid')) }

/-- A nested loop joins the nest of its root. The root has a number, since it
was visited before, so nothing fails. -/
theorem NestSound.joinNest (h : NestSound st) (hnew : l ∉ st.loopToRoot)
    (hr : st.loopToRoot.lookup p = some r) : ∃ nests,
    (st.record l n r).joinNest l r = some { st.record l n r with nestIDToLoops := nests } ∧
      NestSound { st.record l n r with nestIDToLoops := nests } := by
  have hmemr := h.root_mem p r hr
  obtain ⟨id, hid⟩ := Option.isSome_iff_exists.mp (AList.lookup_isSome.mpr hmemr)
  obtain ⟨s, hs, hmem⟩ := h.loops r id hid
  have hne : r ≠ l := by
    rintro rfl
    exact hnew (AList.lookup_isSome.mp (h.root_root r hmemr ▸ rfl))
  refine ⟨st.nestIDToLoops.insert id (insert l s), ?_, ?_⟩
  · have hs' : ((st.record l n r).nestIDToLoops.lookup id).getD ∅ = s := by
      rw [show (st.record l n r).nestIDToLoops.lookup id = some s from hs]
      rfl
    rw [Analysis.joinNest, show (st.record l n r).rootToNestID.lookup r = some id from hid]
    simp only [Option.bind_eq_bind, Option.bind_some, hs']
    rfl
  · exact
      { id_iff := h.id_iff
        id_lt := h.id_lt
        root_root := by
          intro r' hr'
          refine (lookup_insert_iff hnew r').mpr (.inr ⟨?_, h.root_root r' hr'⟩)
          rintro rfl
          exact hnew (AList.lookup_isSome.mp (h.root_root r' hr' ▸ rfl))
        root_mem := by
          intro x r' hx
          rcases (lookup_insert_iff hnew x).mp hx with ⟨_, rfl⟩ | ⟨_, hx⟩
          · exact hmemr
          · exact h.root_mem x r' hx
        loops := by
          intro r' id' hr'
          -- Only the class of the root grows, by the loop that joins it.
          by_cases hid' : id' = id
          · subst hid'
            obtain rfl : r' = r := h.root_eq hr' hid
            refine ⟨_, AList.lookup_insert _, fun x => ?_⟩
            refine Iff.trans ?_ (lookup_insert_iff hnew x).symm
            rw [Finset.mem_insert, hmem x]
            by_cases hx : x = l
            · simp only [hx, true_or, true_and, ne_eq, not_true_eq_false, false_and, or_false]
            · simp only [hx, false_or, false_and, ne_eq, not_false_eq_true, true_and]
          · obtain ⟨s', hs', hmem'⟩ := h.loops r' id' hr'
            refine ⟨s', (AList.lookup_insert_ne hid').trans hs', fun x => ?_⟩
            refine (hmem' x).trans (Iff.trans ?_ (lookup_insert_iff hnew x).symm)
            -- Another number has another root, so that the new loop is not in its class.
            have hne' : r ≠ r' := by
              rintro rfl
              exact hid' (Option.some.inj (hr'.symm.trans hid))
            by_cases hx : x = l
            · subst hx
              have hnone := AList.lookup_eq_none.mpr hnew
              simp [hnone, hne']
            · simp only [hx, false_and, ne_eq, not_false_eq_true, true_and, false_or]
        loops_root := by
          intro id' hid'
          rcases (AList.mem_insert _).mp hid' with rfl | hid'
          · exact AList.lookup_isSome.mp ((h.id_iff r id').mp hid ▸ rfl)
          · exact h.loops_root id' hid' }

end Maps

/-! ### Visiting a loop -/

section Visit

variable {S : CallStructure L F} {loops : List L} {st st' : Analysis L} {l p r : L} {n : Nat}

/-- What a visit of `l` changes:

- `mem`: the loop is visited then;
- `grows`: no loop is forgotten;
- `new`: only the loop and its callers are new;
- `caller`: of the loops that are not visited then, no caller was stored. -/
structure Visited (parent : L → Option L) (st st' : Analysis L) (l : L) : Prop where
  mem : l ∈ st'.loopToLevel
  grows : ∀ x ∈ st.loopToLevel, x ∈ st'.loopToLevel
  new : ∀ x ∈ st'.loopToLevel, x ∈ st.loopToLevel ∨ Ancestor parent x l
  caller : ∀ x, x ∉ st'.loopToLevel → st'.loopToCallerLoop.lookup x = st.loopToCallerLoop.lookup x

/-- A nested loop gets its level and its root from its caller. -/
theorem setNested_spec (kind : AnalysisKind) (hs : Sound S loops st)
    (hnest : kind = .nest → NestSound st) (hl : l ∈ loops) (hnew : l ∉ st.loopToLevel)
    (hp : S.callerLoop loops l = some p) (hroot : Rooted (S.callerLoop loops) p n r)
    (hmem : p ∈ st.loopToLevel) (hcaller : st.loopToCallerLoop.lookup l = some p) :
    ∃ st', st.setNested kind l p = some st' ∧ Sound S loops st' ∧
      (kind = .nest → NestSound st') ∧ (∀ x, x ∈ st'.loopToLevel ↔ x = l ∨ x ∈ st.loopToLevel) ∧
      st'.loopToCallerLoop = st.loopToCallerLoop := by
  obtain ⟨hlevel, hr⟩ := hs.lookup hroot hmem
  have hs' : Sound S loops (st.record l (n + 1) r) :=
    hs.record hl hnew (.child hp hroot) (hcaller.trans hp.symm)
      (fun p' hp' => Option.some.inj (hp.symm.trans hp') ▸ hmem)
  rw [Analysis.setNested, hlevel, hr]
  cases kind with
  | nest =>
      obtain ⟨nests, hjoin, hnests⟩ := (hnest rfl).joinNest (n := n + 1)
        (fun h => hnew (hs.root_mem l h)) hr
      exact ⟨_, hjoin, ⟨hs'.mem, hs'.level, hs'.root_mem, hs'.caller, hs'.caller_mem,
        hs'.levelToLoop, hs'.levelToLoop_mem⟩, fun _ => hnests, fun x => AList.mem_insert _, rfl⟩
  | level => exact ⟨_, rfl, hs', nofun, fun x => AList.mem_insert _, rfl⟩

/-- The maps before the caller of a loop is visited. -/
theorem Sound.setCaller (hs : Sound S loops st) (hnew : l ∉ st.loopToLevel) :
    Sound S loops (st.setCaller l p) where
  mem := hs.mem
  level := hs.level
  root_mem := hs.root_mem
  caller x hx := by
    have hne : x ≠ l := fun h => hnew (h ▸ hx)
    exact (AList.lookup_insert_ne hne).trans (hs.caller x hx)
  caller_mem := hs.caller_mem
  levelToLoop := hs.levelToLoop
  levelToLoop_mem := hs.levelToLoop_mem

/-- A visit determines the level and the root of a loop, and of its ancestors
that were not visited before. No assertion fails on the way, and the fuel
suffices for the chain of callers. Both analyses are covered, since they only
differ in what they do besides. -/
theorem setLoopAndRoot_spec (kind : AnalysisKind) (hv : S.Valid loops)
    (hroot : Rooted (S.callerLoop loops) l n r) : ∀ {fuel : Nat} {st : Analysis L}, l ∈ loops →
    n < fuel → Sound S loops st → (kind = .nest → NestSound st) → l ∉ st.loopToLevel →
    (∀ a, Ancestor (S.callerLoop loops) a l → a ∉ st.loopToLevel → a ∉ st.loopToCallerLoop) →
    ∃ st', S.setLoopAndRoot kind loops fuel l st = some st' ∧ Sound S loops st' ∧
      (kind = .nest → NestSound st') ∧ Visited (S.callerLoop loops) st st' l := by
  -- The induction goes up to the root.
  induction hroot with
  | @root l hl =>
      intro fuel st hmem hfuel hs hnest hnew hcallers
      obtain ⟨fuel, rfl⟩ : ∃ m, fuel = m + 1 := ⟨fuel - 1, by omega⟩
      obtain ⟨f, hf, ⟨hout, _⟩ | ⟨_, p, _, _, _, hp⟩⟩ := hv.callerLoop_cases hmem
      · have hnewr : l ∉ st.loopToRoot := fun h => hnew (hs.root_mem l h)
        have hs' : Sound S loops (st.record l 0 l) :=
          hs.record hmem hnew (.root hl)
            ((AList.lookup_eq_none.mpr (hcallers l .refl hnew)).trans hl.symm)
            (fun p hp => by rw [hl] at hp; cases hp)
        have hvisited : Visited (S.callerLoop loops) st (st.record l 0 l) l :=
          { mem := (AList.mem_insert _).mpr (.inl rfl)
            grows := fun x hx => (AList.mem_insert _).mpr (.inr hx)
            new := fun x hx => by
              rcases (AList.mem_insert _).mp hx with rfl | hx
              · exact .inr .refl
              · exact .inl hx
            caller := fun x _ => rfl }
        rw [CallStructure.setLoopAndRoot, hf]
        simp only [if_pos hout, Analysis.setRoot, if_neg (not_or.mpr ⟨hnew, hnewr⟩)]
        cases kind with
        | nest =>
            exact ⟨_, rfl, ⟨hs'.mem, hs'.level, hs'.root_mem, hs'.caller, hs'.caller_mem,
              hs'.levelToLoop, hs'.levelToLoop_mem⟩, fun _ => (hnest rfl).openNest hnewr,
              ⟨hvisited.mem, hvisited.grows, hvisited.new, hvisited.caller⟩⟩
        | level => exact ⟨_, rfl, hs', nofun, hvisited⟩
      · rw [hl] at hp
        cases hp
  | @child l p r n hp hroot ih =>
      intro fuel st hmem hfuel hs hnest hnew hcallers
      obtain ⟨fuel, rfl⟩ : ∃ m, fuel = m + 1 := ⟨fuel - 1, by omega⟩
      obtain ⟨f, hf, ⟨_, hnone⟩ | ⟨hout, p', hpmem, rfl, hnode, hsome⟩⟩ :=
        hv.callerLoop_cases hmem
      · rw [hp] at hnone
        cases hnone
      · obtain rfl : p = p' := Option.some.inj (hp.symm.trans hsome)
        have hcaller : (st.setCaller l p).loopToCallerLoop.lookup l = some p :=
          AList.lookup_insert _
        have hnest₁ : kind = .nest → NestSound (st.setCaller l p) := fun h =>
          ⟨(hnest h).id_iff, (hnest h).id_lt, (hnest h).root_root, (hnest h).root_mem,
            (hnest h).loops, (hnest h).loops_root⟩
        rw [CallStructure.setLoopAndRoot, hf]
        simp only [hout, Bool.true_eq_false, if_false, hnode, if_neg (hcallers l .refl hnew)]
        by_cases hvisited : p ∈ st.loopToLevel
        · obtain ⟨st', hst', hs', hnest', hlevels, hcaller'⟩ := setNested_spec kind
            (hs.setCaller hnew) hnest₁ hmem hnew hp hroot hvisited hcaller
          rw [if_pos hvisited]
          refine ⟨st', hst', hs', hnest', (hlevels l).mpr (.inl rfl),
            fun x hx => (hlevels x).mpr (.inr hx), fun x hx => ?_, fun x hx => ?_⟩
          · rcases (hlevels x).mp hx with rfl | hx
            · exact .inr .refl
            · exact .inl hx
          · have hne : x ≠ l := fun h => hx ((hlevels x).mpr (.inl h))
            rw [hcaller']
            exact AList.lookup_insert_ne hne
        · have habove := hroot.not_ancestor hp
          have hpr : p ∉ st.loopToRoot := fun h => hvisited (hs.root_mem p h)
          obtain ⟨st₂, hst₂, hs₂, hnest₂, hgrown⟩ := ih hpmem
            (show n < fuel by omega) (hs.setCaller hnew) hnest₁ hvisited
            (fun a ha hanew hacaller => by
              rcases (AList.mem_insert _).mp hacaller with rfl | hacaller
              · exact habove ha
              · exact hcallers a (ha.tail hp) hanew hacaller)
          have hnew₂ : l ∉ st₂.loopToLevel := fun h =>
            (hgrown.new l h).elim hnew habove
          obtain ⟨st', hst', hs', hnest', hlevels, hcaller'⟩ := setNested_spec kind hs₂ hnest₂
            hmem hnew₂ hp hroot hgrown.mem ((hgrown.caller l hnew₂).trans hcaller)
          rw [if_neg hvisited, if_neg hpr, hst₂]
          refine ⟨st', hst', hs', hnest', (hlevels l).mpr (.inl rfl),
            fun x hx => (hlevels x).mpr (.inr (hgrown.grows x hx)), fun x hx => ?_,
            fun x hx => ?_⟩
          · rcases (hlevels x).mp hx with rfl | hx
            · exact .inr .refl
            · exact (hgrown.new x hx).imp_right fun h => h.tail hp
          · have hne : x ≠ l := fun h => hx ((hlevels x).mpr (.inl h))
            rw [hcaller', hgrown.caller x fun h => hx ((hlevels x).mpr (.inr h))]
            exact AList.lookup_insert_ne hne

/-- The maps between two visits:

- `sound`, `nests`: what is held of the loops that were visited is right;
- `callers`: no caller is known of another loop. Inside a visit one is, as the
  caller is stored before it is visited itself. -/
structure Between (kind : AnalysisKind) (S : CallStructure L F) (loops : List L)
    (st : Analysis L) : Prop where
  sound : Sound S loops st
  nests : kind = .nest → NestSound st
  callers : ∀ l, l ∉ st.loopToLevel → l ∉ st.loopToCallerLoop

/-- The loop over all loops visits each, in any order. Between two visits the
invariant `Between` holds. -/
theorem visitLoops_spec (kind : AnalysisKind) (hv : S.Valid loops) {fuel : Nat}
    (hfuel : loops.length < fuel) : ∀ (rest : List L) {st : Analysis L},
    (∀ l ∈ rest, l ∈ loops) → Between kind S loops st →
    ∃ st', CallStructure.visitLoops (S.setLoopAndRoot kind loops fuel) rest st = some st' ∧
      Between kind S loops st' ∧ (∀ l ∈ st.loopToLevel, l ∈ st'.loopToLevel) ∧
      ∀ l ∈ rest, l ∈ st'.loopToLevel := by
  intro rest
  induction rest with
  | nil => exact fun _ hb => ⟨_, rfl, hb, fun _ h => h, nofun⟩
  | cons l rest ih =>
      intro st hsub hb
      obtain ⟨hl, hrest⟩ := List.forall_mem_cons.mp hsub
      obtain ⟨n, r, hroot⟩ := hv.exists_rooted hl
      rw [CallStructure.visitLoops]
      -- By induction on the loops that are left. A loop may have been visited already, as the
      -- caller of one before it.
      by_cases hvisited : l ∈ st.loopToLevel
      · have hr : l ∈ st.loopToRoot :=
          AList.lookup_isSome.mp ((hb.sound.lookup hroot hvisited).2 ▸ rfl)
        rw [if_pos hvisited, if_pos hr]
        obtain ⟨st', hst', hb', hgrows, hall⟩ := ih hrest hb
        exact ⟨st', hst', hb', hgrows, List.forall_mem_cons.mpr ⟨hgrows l hvisited, hall⟩⟩
      · -- The recursion climbs the chain of caller loops, which is no longer than there are
        -- loops.
        have hlevel : n < loops.length := by
          have hcard := hroot.level_lt_card (s := loops.toFinset)
            (fun x p hx hp => List.mem_toFinset.mpr
              (hv.callerLoop_mem (List.mem_toFinset.mp hx) hp).1)
            (List.mem_toFinset.mpr hl)
          exact Nat.lt_of_lt_of_le hcard (List.toFinset_card_le loops)
        obtain ⟨st₁, hst₁, hs₁, hnest₁, hgrown⟩ := setLoopAndRoot_spec kind hv hroot
          hl (show n < fuel by omega) hb.sound hb.nests hvisited fun a _ ha => hb.callers a ha
        have hb₁ : Between kind S loops st₁ := ⟨hs₁, hnest₁, fun x hx => by
          refine AList.lookup_eq_none.mp ((hgrown.caller x hx).trans ?_)
          exact AList.lookup_eq_none.mpr (hb.callers x fun h => hx (hgrown.grows x h))⟩
        rw [if_neg hvisited, hst₁]
        obtain ⟨st', hst', hb', hgrows, hall⟩ := ih hrest hb₁
        exact ⟨st', hst', hb', fun x hx => hgrows x (hgrown.grows x hx),
          List.forall_mem_cons.mpr ⟨hgrows l hgrown.mem, hall⟩⟩

omit [DecidableEq L] in
/-- A map whose keys are the loops has as many entries. -/
theorem length_entries {V : Type} {m : AList fun _ : L => V} (hnd : loops.Nodup)
    (h : ∀ l, l ∈ m ↔ l ∈ loops) : loops.length = m.entries.length := by
  have hperm : loops.Perm m.keys := (List.perm_ext_iff_of_nodup hnd m.keys_nodup).mpr
    fun l => (h l).symm.trans AList.mem_keys
  rw [hperm.length_eq, AList.keys, List.keys, List.length_map]

/-- An analysis ends with the maps for all loops. -/
theorem performAnalysis_spec (kind : AnalysisKind) (hv : S.Valid loops) {fuel : Nat}
    (hfuel : loops.length < fuel) (hb : Between kind S loops st) :
    ∃ st', S.performAnalysis (S.setLoopAndRoot kind loops fuel) loops st = some st' ∧
      Between kind S loops st' ∧ ∀ l, l ∈ st'.loopToLevel ↔ l ∈ loops := by
  obtain ⟨st', hst', hb', _, hall⟩ := visitLoops_spec kind hv hfuel loops (fun _ h => h) hb
  have hlevels : ∀ l, l ∈ st'.loopToLevel ↔ l ∈ loops := fun l => ⟨hb'.sound.mem l, hall l⟩
  have hroots : ∀ l, l ∈ st'.loopToRoot ↔ l ∈ loops := by
    refine fun l => ⟨fun h => hb'.sound.mem l (hb'.sound.root_mem l h), fun hl => ?_⟩
    obtain ⟨n, r, hroot⟩ := hv.exists_rooted hl
    exact AList.lookup_isSome.mp ((hb'.sound.lookup hroot (hall l hl)).2 ▸ rfl)
  have hout : (loops.all fun ldi => S.outlined (S.loopFunction ldi)) = true :=
    List.all_eq_true.mpr hv.outlined
  refine ⟨st', ?_, hb', hlevels⟩
  rw [CallStructure.performAnalysis, if_pos hout, hst']
  exact if_pos ⟨length_entries hv.nodup hlevels, length_entries hv.nodup hroots⟩

end Visit

end HeartbeatCompiler
