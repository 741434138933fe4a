import HeartbeatCompiler.Split

/-!
# `HeartbeatCompiler.Handler`: the promotion handler

The handler declines, or it forks the two tasks of a split. The tasks do not touch each other
(`HandlerPre.apart`), and together they have run what was left of the suspended levels from
the splitting level on (`HandlerPre.post`).
-/

set_option autoImplicit false

namespace HeartbeatCompiler

open ForkJoin Prog

variable {n : Nest} {T : Tracked}

namespace HandlerPre

variable {f : Frame} {v : List Nat} {s : Nat} {σ σ' σ'' : n.sig.Store} {τ τ₁ τ₂ : n.sig.Trace}

/-! ### What the tasks own -/

/-- A split leaves the reduction arrays of the first half's contexts as they
are. -/
theorem arrays_split (hs : SplitStore f v s σ σ') (l : Nat) :
    arrays (σ' (.cxts f.cxts)) l = arrays (σ (.cxts f.cxts)) l := by
  by_cases hl : l = s
  · rw [hl, arrays, arrays, hs.liveOut]
  · exact arrays_congr (hs.rows l hl)

/-- The second half's contexts point, at the level that is split, to the array
of the first half: the two write different slots of one array. -/
theorem arrays_second (hs : SplitStore f v s σ σ') :
    arrays (σ' (.cxts (.second s :: f.path))) s = arrays (σ (.cxts f.cxts)) s := by
  rw [arrays, arrays, hs.second]

/-- The slots of the levels from `s` on lie in frames on the stack. -/
theorem slots_above (hT : Mergeable n T) (h : HandlerPre T f v σ)
    (hlow : f.path.low n.leafLevel ≤ s) {l : Nat} (hl : l ∈ T) (hsl : s ≤ l) (hle : l ≤ f.level)
    {q : Block} (hq : q = arrays (σ (.cxts f.cxts)) l) : q.Above {ρ | ρ <:+ f.path} := by
  obtain ⟨π, hπ, harr⟩ := h.suspended.kids l (hlow.trans hsl) (by rw [h.length_eq]; omega)
    (hT.liveOut _ hl)
  intro ρ hρ
  rw [hq, harr] at hρ
  cases hρ
  exact hπ

/-- The second task is handed slot 1 of the level that is split. -/
theorem second_slots (hlen : v.length = f.level + 1) (hle : s ≤ f.level) {rows : Nat → Row}
    {x : Nat × Block × Nat}
    (hx : x ∈ ((Nest.secondFrame f s).scope n.leafLevel (v.take s) rows).slots) :
    x = (s, arrays rows s, 1) := by
  obtain ⟨l, q, i⟩ := x
  -- Nothing is suspended in the new context, which leaves no pending slot but its own.
  rcases hx with ⟨hl, hq, hi⟩ | ⟨hlt, -, hi⟩
  · obtain rfl : l = s := hl
    obtain rfl : q = arrays rows l := hq
    obtain rfl : i = 1 := hi
    rfl
  · have hsl : s ≤ l := hi.elim (fun hi => hi.2) fun hi => hi.2
    simp only [List.length_take] at hlt
    omega

/-- The second task owns frames above the one of the handler's caller. -/
theorem second_own (f : Frame) (s : Nat) (v : List Nat) (rows : Nat → Row) :
    ∀ ρ ∈ ((Nest.secondFrame f s).scope n.leafLevel (v.take s) rows).own,
      f.path.length < ρ.length :=
  fun _ hρ => List.IsSuffix.length_le hρ

/-- A level in `T` is split only where its slot 1 is handed over. -/
theorem base_le_of_mem (hsplit : SplitAt n T f v (σ (.cxts f.cxts)) s) (hl : s ∈ T) :
    f.path.base n.leafLevel ≤ s := by
  by_contra hlt
  exact lt_irrefl s (hsplit.allowed (by omega) s hl hsplit.low_le)

/-- The first branch works inside the scope of the handler. -/
theorem leftover_le (h : HandlerPre T f v σ) (hsplit : SplitAt n T f v (σ (.cxts f.cxts)) s)
    (hs : SplitStore f v s σ σ') :
    (f.leftoverScope s f.level (σ' (.cxts f.cxts))).Le T
      (f.handlerScope n.leafLevel v (σ (.cxts f.cxts))) where
  own ρ hρ := by
    obtain ⟨x, -, hx⟩ := hρ
    refine ⟨(List.suffix_cons x f.path).trans hx, ?_⟩
    rintro rfl
    have := hx.length_le
    rw [List.length_cons] at this
    omega
  callers _ hρ := .inr hρ
  task := .inl rfl
  slots l q i _ hq := by
    obtain ⟨hsl, hl, hq, hi⟩ := hq
    have hlt : l < v.length := by rw [h.length_eq]; exact Nat.lt_succ_of_le hl
    exact .inr ⟨hlt, (show q = _ from hq).trans (arrays_split hs l),
      .inl ⟨hi, hsplit.low_le.trans hsl⟩⟩

/-- The second task works inside the scope of the handler. -/
theorem second_le (h : HandlerPre T f v σ) (hsplit : SplitAt n T f v (σ (.cxts f.cxts)) s)
    (hs : SplitStore f v s σ σ') :
    ((Nest.secondFrame f s).scope n.leafLevel (v.take s)
      (σ' (.cxts (.second s :: f.path)))).Le T
      (f.handlerScope n.leafLevel v (σ (.cxts f.cxts))) where
  own ρ hρ := by
    refine ⟨(List.suffix_cons _ f.path).trans hρ, ?_⟩
    rintro rfl
    have := List.IsSuffix.length_le hρ
    rw [show (Nest.secondFrame f s).path.length = f.path.length + 1 from rfl] at this
    omega
  callers _ hρ := .inr hρ
  task := .inr ⟨List.suffix_cons _ _, List.cons_ne_self _ f.path⟩
  slots l q i hl hq := by
    have hx := second_slots h.length_eq hsplit.le_level hq
    cases hx
    have hlt : s < v.length := by rw [h.length_eq]; exact Nat.lt_succ_of_le hsplit.le_level
    exact .inr ⟨hlt, arrays_second hs, .inr ⟨rfl, base_le_of_mem hsplit hl⟩⟩

/-- The two tasks do not touch each other. Their contexts and frames are
different, and of the slots for partial results each is handed its own. -/
theorem apart (hT : Mergeable n T) (h : HandlerPre T f v σ)
    (hsplit : SplitAt n T f v (σ (.cxts f.cxts)) s) (hs : SplitStore f v s σ σ') :
    (f.leftoverScope s f.level (σ' (.cxts f.cxts))).Apart T
        ((Nest.secondFrame f s).scope n.leafLevel (v.take s)
          (σ' (.cxts (.second s :: f.path)))) ∧
      ((Nest.secondFrame f s).scope n.leafLevel (v.take s)
        (σ' (.cxts (.second s :: f.path)))).Apart T
        (f.leftoverScope s f.level (σ' (.cxts f.cxts))) := by
  have hlen := h.length_eq
  have hcxts := h.cxts_suffix.length_le
  have hown := f.leftoverScope_own s f.level (σ' (.cxts f.cxts))
  have hown' := second_own (n := n) f s v (σ' (.cxts (.second s :: f.path)))
  -- The frames of the two tasks are above different calls.
  have hdisj : Disjoint (f.leftoverScope s f.level (σ' (.cxts f.cxts))).own
      ((Nest.secondFrame f s).scope n.leafLevel (v.take s)
        (σ' (.cxts (.second s :: f.path)))).own := by
    rw [Set.disjoint_left]
    rintro ρ ⟨x, hx, hρ⟩ hρ'
    have hρ₂ : .second s :: f.path <:+ ρ := hρ'
    have hlen : (x :: f.path).length = (Site.second s :: f.path).length := rfl
    have heq := (List.suffix_of_suffix_length_le hρ hρ₂ hlen.le).eq_of_length hlen
    exact hx (List.cons.inj heq).1
  have hcallers : ∀ {X : Set Path}, (∀ ρ ∈ X, f.path.length < ρ.length) →
      Disjoint X {ρ | ρ <:+ f.path} := fun hX => by
    rw [Set.disjoint_left]
    intro ρ hρ hρ'
    have h₁ := hX ρ hρ
    have h₂ := List.IsSuffix.length_le hρ'
    omega
  have hslots : ∀ l q i, l ∈ T →
      (l, q, i) ∈ (f.leftoverScope s f.level (σ' (.cxts f.cxts))).slots →
      q.Above {ρ | ρ <:+ f.path} ∧ i = 0 := fun l q i hl hq =>
    ⟨h.slots_above hT hsplit.low_le hl hq.1 hq.2.1
      ((show q = _ from hq.2.2.1).trans (arrays_split hs l)), hq.2.2.2⟩
  have hslots' : ∀ l q i, l ∈ T →
      (l, q, i) ∈ ((Nest.secondFrame f s).scope n.leafLevel (v.take s)
        (σ' (.cxts (.second s :: f.path)))).slots →
      q.Above {ρ | ρ <:+ f.path} ∧ i = 1 := fun l q i hl hq => by
    have hx := second_slots hlen hsplit.le_level hq
    cases hx
    exact ⟨h.slots_above hT hsplit.low_le hl (le_refl s) hsplit.le_level (arrays_second hs), rfl⟩
  have htask : f.cxts ≠ .second s :: f.path := fun heq => by
    rw [heq, List.length_cons] at hcxts
    omega
  have hmem : Site.second s :: f.path ∉
      (f.leftoverScope s f.level (σ' (.cxts f.cxts))).own := fun hρ =>
    Set.disjoint_left.mp hdisj hρ List.suffix_rfl
  have hcxts' : f.cxts ∉ ((Nest.secondFrame f s).scope n.leafLevel (v.take s)
      (σ' (.cxts (.second s :: f.path)))).own := fun hρ => by
    have := hown' _ hρ
    omega
  refine ⟨⟨hdisj, hcallers hown, ⟨htask, hcxts', hmem⟩, ?_, ?_⟩,
    ⟨hdisj.symm, hcallers hown', ⟨htask.symm, hmem, hcxts'⟩, ?_, ?_⟩⟩
  · intro l q i hl hq
    obtain ⟨habove, hi⟩ := hslots l q i hl hq
    refine ⟨habove.not_in hown', fun hq' => ?_⟩
    have := (hslots' l q i hl hq').2
    omega
  · intro l q i hl hq
    exact (hslots' l q i hl hq).1.not_in hown
  · intro l q i hl hq
    obtain ⟨habove, hi⟩ := hslots' l q i hl hq
    refine ⟨habove.not_in hown, fun hq' => ?_⟩
    have := (hslots l q i hl hq').2
    omega
  · intro l q i hl hq
    exact (hslots l q i hl hq).1.not_in hown'

/-! ### What the tasks have done -/

/-- The slots that neither task was handed are as they were: those of the
levels outside the one that is split, and slot 1 of the levels inside it. -/
theorem slot_kept (hT : Mergeable n T) (h : HandlerPre T f v σ)
    (hsplit : SplitAt n T f v (σ (.cxts f.cxts)) s) (hs : SplitStore f v s σ σ')
    (hframe : ∀ x ∈ (f.handlerScope n.leafLevel v (σ (.cxts f.cxts))).rel T,
      x ∉ (f.leftoverScope s f.level (σ' (.cxts f.cxts))).mod T →
      x ∉ ((Nest.secondFrame f s).scope n.leafLevel (v.take s)
        (σ' (.cxts (.second s :: f.path)))).mod T → σ'' x = σ' x) {l i : Nat} {q : Block}
    (hl : l ∈ T) (hq : PendingSlot n.leafLevel f.path v (σ (.cxts f.cxts)) (l, q, i))
    (hno : l < s ∨ i = 1 ∧ s < l) :
    σ'' (.reduction l q i) = σ (.reduction l q i) := by
  have hlow : f.path.low n.leafLevel ≤ l := by
    have := h.low_le_base
    have hi := hq.2.2
    simp only at hi
    omega
  have hlt : l < v.length := hq.1
  have habove : q.Above {ρ | ρ <:+ f.path} :=
    h.slots_above hT (le_refl _) hl hlow (by rw [h.length_eq] at hlt; omega) hq.2.1
  refine (hframe (.reduction l q i) ⟨hl, .inr hq⟩ ?_ ?_).trans (hs.same _ (by simp) (by simp))
  · -- Of the slots of the callers the first branch may write slot 0 of the levels from `s` on.
    rintro (hl' | hin | hslot)
    · exact hl' hl
    · exact habove.not_in (f.leftoverScope_own s f.level _) hin
    · have h₁ : s ≤ l := hslot.1
      have h₂ : i = 0 := hslot.2.2.2
      omega
  · -- The second task may write slot 1 of `s` alone.
    rintro (hl' | hin | hslot)
    · exact hl' hl
    · exact habove.not_in (second_own f s v _) hin
    · have hx := second_slots h.length_eq hsplit.le_level hslot
      injection hx with hx
      omega

/-- The slots at the level that was split make up its total. -/
theorem resumed_split (hT : Mergeable n T) (h : HandlerPre T f v σ)
    (hsplit : SplitAt n T f v (σ (.cxts f.cxts)) s) (hs : SplitStore f v s σ σ')
    (hleft : LeftoverPost T f v s f.level σ' σ'' τ₁)
    (hsecond : SecondPost n T f v s (middle v (σ (.cxts f.cxts)) s)
      (bound (σ (.cxts f.cxts)) s) (arrays (σ (.cxts f.cxts)) s) σ'' τ₂) (hl : s ∈ T) {q : Block}
    (hq : q = arrays (σ (.cxts f.cxts)) s) :
    (s ∈ T.exact → ∀ j, (n.reduction s j).op ((σ'' (.reduction s q 0)).values j)
        ((σ'' (.reduction s q 1)).values j) =
      n.total (v.take s) s (index v s + 1) (bound (σ (.cxts f.cxts)) s) j) ∧
      (∃ ρ, (σ'' (.reduction s q 0)).log = [.written ρ] ∧ IsChild n q s 0 ρ) ∧
      ∃ ρ, (σ'' (.reduction s q 1)).log = [.written ρ] ∧ IsChild n q s 1 ρ := by
  have hle := hsplit.le_level
  obtain ⟨h₁, h₂⟩ := middle_bounds hsplit
  have hbound : bound (σ' (.cxts f.cxts)) s = middle v (σ (.cxts f.cxts)) s := by
    rw [bound, hs.max, Option.getD_some]
  obtain ⟨hval₀, hlog₀⟩ := hleft.done s hl (le_refl s) hle q (hq.trans (arrays_split hs s).symm)
  obtain ⟨hval₁, hlog₁⟩ := hsecond.slot hl
  obtain ⟨π, hπ, hkids⟩ := h.suspended.kids s hsplit.low_le (by rw [h.length_eq]; omega)
    (hT.liveOut _ hl)
  rw [← hq] at hval₁ hlog₁
  refine ⟨fun hexact j => ?_, hlog₀, .second s :: f.path, hlog₁, π, hq.trans hkids, rfl, rfl, hπ⟩
  -- Up to the middle the first branch, from there on the second task: the two totals are
  -- adjacent.
  rw [hval₀ hexact, hval₁ hexact, hbound, Nest.total_append _ _ h₁ h₂.le]

/-- The tasks have run what was left of the suspended levels from the
splitting level on. The postconditions of the two branches are put together,
and their traces in any interleaving. -/
theorem post (hT : Mergeable n T) (h : HandlerPre T f v σ)
    (hsplit : SplitAt n T f v (σ (.cxts f.cxts)) s) (hs : SplitStore f v s σ σ')
    (hleft : LeftoverPost T f v s f.level σ' σ'' τ₁)
    (hsecond : SecondPost n T f v s (middle v (σ (.cxts f.cxts)) s)
      (bound (σ (.cxts f.cxts)) s) (arrays (σ (.cxts f.cxts)) s) σ'' τ₂)
    (hframe : ∀ x ∈ (f.handlerScope n.leafLevel v (σ (.cxts f.cxts))).rel T,
      x ∉ (f.leftoverScope s f.level (σ' (.cxts f.cxts))).mod T →
      x ∉ ((Nest.secondFrame f s).scope n.leafLevel (v.take s)
        (σ' (.cxts (.second s :: f.path)))).mod T → σ'' x = σ' x)
    (hτ : Shuffle τ₁ τ₂ τ) (s₁ s₂ : n.sig.Store) :
    HandlerPost T f v σ ⟨(f.level : Int) - s + 1, some s⟩ σ''
      ([(.handlerCalled f v, s₁), (.promoted f s (middle v (σ (.cxts f.cxts)) s)
        (bound (σ (.cxts f.cxts)) s) (v.take s ++ [middle v (σ (.cxts f.cxts)) s]), s₂)] ++ τ) := by
  have hlen := h.length_eq
  have hle := hsplit.le_level
  have hlow := hsplit.low_le
  have hkept := fun {l i : Nat} {q : Block} =>
    h.slot_kept hT hsplit hs hframe (l := l) (i := i) (q := q)
  refine ⟨rfl, fun l hl => ?_, fun _ => hsplit.promotes, ?_, fun hn => ?_,
    fun l hl hls _ => hsplit.empty l hl hls,
    hlow.trans hleft.low_le, hleft.chunk, ?_⟩
  · cases hl
    exact ⟨hlow, hle⟩
  · refine ⟨fun l hl => ?_, fun _ => ?_, fun l hl hls q i hq => hkept hl hq (.inl hls),
      fun _ hbase => hsplit.allowed hbase, fun l hl hsl hlv q hq => ?_,
      fun l hl hsl hlv hbase q hq => hkept hl ⟨hlv, hq, .inr ⟨rfl, hbase⟩⟩ (.inr ⟨rfl, hsl⟩),
      fun hl _ q hq => h.resumed_split hT hsplit hs hleft hsecond hl hq⟩
    · exact (hleft.rows l hl).trans (hs.rows l (by have : l < s := hl; omega))
    · exact ⟨hleft.env.1.trans hs.liveIn, hleft.env.2.trans hs.liveOut⟩
    · -- Below the level of the split the first branch is alone: the second task has not run
      -- these levels.
      have hsl' : s < l := hsl
      have hd := hleft.done l hl hsl'.le (by omega) q (hq.trans (arrays_split hs l).symm)
      rwa [bound_congr (hs.rows l hsl'.ne')] at hd
  · cases hn
  · have hmid := (middle_bounds hsplit).2
    -- Whatever the interleaving, the trace executes the work of both, and together this is all
    -- that was left of the levels from `s` on.
    have hboth := hleft.runs.shuffle (hsecond.runs.mono (List.take_prefix_take_left hle)) hτ
    rw [firstOf, if_pos hmid, ← hlen, List.take_length, ← h.restFrom_split hsplit hs,
      add_comm 0] at hboth
    have hpromoted := Executes.promoted (e := .promoted f s (middle v (σ (.cxts f.cxts)) s)
      (bound (σ (.cxts f.cxts)) s) (v.take s ++ [middle v (σ (.cxts f.cxts)) s])) hboth rfl rfl s₂
    have hall :=
      (Executes.quiet (n := n) (e := .handlerCalled f v) ⟨rfl, rfl⟩ s₁).append hpromoted
    rw [zero_add] at hall
    exact hall

/-- The handler has done nothing, which is right if nothing is left that could
be handed over. -/
theorem post_declined (h : HandlerPre T f v σ)
    (hs : Agree ((f.handlerScope n.leafLevel v (σ (.cxts f.cxts))).rel T) σ σ'')
    (s₁ s₂ : n.sig.Store) :
    HandlerPost T f v σ ⟨0, none⟩ σ'' [(.handlerCalled f v, s₁), (.declined f, s₂)] := by
  have hcxts := hs (.cxts f.cxts) (.inl rfl)
  have htmem := hs (.tmem f.cxts) (.inl rfl)
  have hcut : Ret.cut ⟨0, none⟩ v.length = v.length := rfl
  refine ⟨rfl, fun l hl => ?_, fun hs => (by cases hs), ?_, fun _ => htmem.symm,
    fun l _ _ hsome => ?_, ?_, ?_, ?_⟩
  · cases hl
  · rw [hcut]
    -- No level is cut, and what `Resumed` says of levels below the cut is about none.
    exact
      { rows := fun l _ => by rw [hcxts]
        env := fun hlt => absurd hlt (lt_irrefl _)
        kept := fun l hl _ q i hq => (hs (.reduction l q i) ⟨hl, .inr hq⟩).symm
        apart := fun hlt => absurd hlt (lt_irrefl _)
        done := fun l _ h₁ h₂ => absurd (lt_trans h₁ h₂) (lt_irrefl _)
        kept_second := fun l _ h₁ h₂ => absurd (lt_trans h₁ h₂) (lt_irrefl _)
        split := fun _ hlt => absurd hlt (lt_irrefl _) }
  · cases hsome
  · rw [← htmem]
    exact h.tmem.low_le
  · rw [← htmem]
    exact h.tmem.chunk
  · rw [hcut, restFrom_of_le (le_refl _)]
    exact (Executes.quiet (e := .handlerCalled f v) ⟨rfl, rfl⟩ s₁).append_quiet
      (e := .declined f) ⟨rfl, rfl⟩ s₂

/-! ### The handler -/

/-- The fork of a split, with `p` as the first branch: the leftover task, or
at the level of the leaf the first half of the loop. It is proved once for
both. -/
theorem fork_correct (hT : Mergeable n T) {M : Nat} (ih : SliceSpec n T M)
    (h : HandlerPre T f v σ)
    (hM : (n.restFrom v (σ (.cxts f.cxts)) (f.path.low n.leafLevel)).card < M)
    (hsplit : SplitAt n T f v (σ (.cxts f.cxts)) s) (hs : SplitStore f v s σ σ') {p : Proc n}
    (hp : Correct T (f.leftoverScope s f.level (σ' (.cxts f.cxts))) (n.body p) σ' fun _ =>
      LeftoverPost T f v s f.level σ') (s₁ s₂ : n.sig.Store) :
    Correct T (f.handlerScope n.leafLevel v (σ (.cxts f.cxts)))
      (fork2join (S := n.sig) p (.secondTask f s) >>= fun _ =>
        pure ⟨(f.level : Int) - s + 1, some s⟩) σ'
      (Sig.Post.after (S := n.sig) (HandlerPost T f v σ)
        [(.handlerCalled f v, s₁), (.promoted f s (middle v (σ (.cxts f.cxts)) s)
          (bound (σ (.cxts f.cxts)) s) (v.take s ++ [middle v (σ (.cxts f.cxts)) s]), s₂)]) := by
  obtain ⟨hap, hap'⟩ := h.apart hT hsplit hs
  have hq := h.secondTask_correct ih hM hsplit hs fun hl =>
    h.suspended.fresh s hl _ 1 ⟨by rw [h.length_eq]; exact Nat.lt_succ_of_le hsplit.le_level, rfl,
      .inr ⟨rfl, base_le_of_mem hsplit hl⟩⟩
  have hle₁ := h.leftover_le hsplit hs
  have hle₂ := h.second_le hsplit hs
  -- The rule of `fork2join` for tasks with scopes apart: each branch is proved alone, and both
  -- postconditions hold at the join.
  refine Correct.fork hle₁ hle₂ hap hap' hp.stable hq.stable
    fun r r' σ'' τ₁ τ₂ τ hleft hsecond hτ hframe => Correct.ret fun σ₃ hσ₃ => ?_
  have hpost := h.post hT hsplit hs (hleft σ₃ (hσ₃.mono hle₁.rel_subset))
    (hsecond σ₃ (hσ₃.mono hle₂.rel_subset))
    (fun x hx h₁ h₂ => (hσ₃ x hx).symm.trans (hframe x hx h₁ h₂)) hτ s₁ s₂
  simpa [Sig.Post.after] using hpost

/-- The second task of a split has a context of its own. -/
theorem cxts_ne_second (h : HandlerPre T f v σ) (s : Nat) :
    Loc.cxts f.cxts ≠ .cxts (.second s :: f.path) := by
  have hcxts := h.cxts_suffix.length_le
  intro heq
  injection heq with heq
  rw [heq, List.length_cons] at hcxts
  omega

/-- The store after the rows of a split were written: `σ₁` has the row of the
second task, and the context of `f` gets the middle as its bound. A split at
an outer level keeps the start. -/
theorem splitStore_outer {σ₁ : n.sig.Store} (h : HandlerPre T f v σ) (hleaf : s ≠ f.level)
    (hstart : (σ (.cxts f.cxts) s).start = some (index v s))
    (hsecond : σ₁ (.cxts (.second s :: f.path)) s = ⟨some (middle v (σ (.cxts f.cxts)) s),
      some (bound (σ (.cxts f.cxts)) s), (σ (.cxts f.cxts) s).liveIn,
      (σ (.cxts f.cxts) s).liveOut⟩)
    (hsame : ∀ x : Loc, x ≠ .cxts (.second s :: f.path) → σ₁ x = σ x) :
    SplitStore f v s σ (Function.update σ₁ (Loc.cxts f.cxts) (Function.update
      (σ₁ (.cxts f.cxts)) s
      { σ₁ (.cxts f.cxts) s with max := some (middle v (σ (.cxts f.cxts)) s) })) := by
  have hne := h.cxts_ne_second s
  -- One goal for each part of the store that the split may have touched.
  refine ⟨fun l hl => ?_, ?_, ?_, ?_, ?_, ?_, fun x hx hx' => ?_⟩
  · simp [Function.update_of_ne hl, hsame _ hne]
  · simp [hleaf, hsame _ hne, hstart]
  · simp
  · simp [hsame _ hne]
  · simp [hsame _ hne]
  · simp [Function.update_of_ne hne.symm, hsecond]
  · rw [Function.update_of_ne hx, hsame x hx']

/-- A split at the leaf level moves the start to the next iteration. The
stores of the handler are followed one by one to the store in which the tasks
are started. -/
theorem splitStore_leaf {σ₁ : n.sig.Store} (h : HandlerPre T f v σ)
    (hword : index v f.level + 1 < 2 ^ 64)
    (hsecond : σ₁ (.cxts (.second f.level :: f.path)) f.level =
      ⟨some (middle v (σ (.cxts f.cxts)) f.level), some (bound (σ (.cxts f.cxts)) f.level),
        (σ (.cxts f.cxts) f.level).liveIn, (σ (.cxts f.cxts) f.level).liveOut⟩)
    (hsame : ∀ x : Loc, x ≠ .cxts (.second f.level :: f.path) → σ₁ x = σ x)
    {σ₂ : n.sig.Store} (hσ₂ : σ₂ = Function.update σ₁ (Loc.cxts f.cxts) (Function.update
      (σ₁ (.cxts f.cxts)) f.level
      { σ₁ (.cxts f.cxts) f.level with
          max := some (middle v (σ (.cxts f.cxts)) f.level) })) :
    SplitStore f v f.level σ (Function.update σ₂ (Loc.cxts f.cxts) (Function.update
      (σ₂ (.cxts f.cxts)) f.level
      { σ₂ (.cxts f.cxts) f.level with start := some (wadd (index v f.level) 1) })) := by
  have hne := h.cxts_ne_second f.level
  -- At the leaf the iteration in progress is not resumed by a leftover task, and the handler
  -- itself moves the start behind it.
  subst hσ₂
  refine ⟨fun l hl => ?_, ?_, ?_, ?_, ?_, ?_, fun x hx hx' => ?_⟩
  · simp [Function.update_of_ne hl, hsame _ hne]
  · simp [wadd_of_lt hword]
  · simp
  · simp [hsame _ hne]
  · simp [hsame _ hne]
  · simp [Function.update_of_ne hne.symm, hsecond]
  · rw [Function.update_of_ne hx, Function.update_of_ne hx, hsame x hx']

/-- A split of level `s`, the outermost one with something left. The two tasks
together have less to run than the task that is split, so the specification of
slices holds for them by induction. -/
theorem split_correct (hT : Mergeable n T) {M : Nat} (ih : SliceSpec n T M)
    (h : HandlerPre T f v σ)
    (hM : (n.restFrom v (σ (.cxts f.cxts)) (f.path.low n.leafLevel)).card < M)
    (hlow : f.path.low n.leafLevel ≤ s) (hle : s ≤ f.level)
    (hlt : index v s + 1 < bound (σ (.cxts f.cxts)) s)
    (hempty : ∀ l, f.path.low n.leafLevel ≤ l → l < s →
      bound (σ (.cxts f.cxts)) l ≤ index v l + 1) (s₁ : n.sig.Store) :
    Correct T (f.handlerScope n.leafLevel v (σ (.cxts f.cxts)))
      (n.splitWith n.forkTasks f v (σ (.cxts f.cxts)) s) σ
      (Sig.Post.after (S := n.sig) (HandlerPost T f v σ) [(.handlerCalled f v, s₁)]) := by
  have hlv : s < v.length := by rw [h.length_eq]; exact Nat.lt_succ_of_le hle
  have hstart := h.suspended.start s hlow hlv
  have hmax := h.suspended.max s hlow hlv
  have hb := (h.suspended.lt s hlow hlv).2
  -- Below `2 ^ 63` neither of the two additions of the split point wraps.
  have hmid : Nest.splitPoint (index v s) (bound (σ (.cxts f.cxts)) s) =
      middle v (σ (.cxts f.cxts)) s := by
    rw [Nest.splitPoint, wadd_of_lt (show index v s + 1 < 2 ^ 64 by omega),
      wadd_of_lt (by omega), middle]
  have hmid' : middle v (σ (.cxts f.cxts)) s < bound (σ (.cxts f.cxts)) s := by
    rw [middle]
    omega
  rw [Nest.splitWith]
  refine Correct.load hstart ?_
  refine Correct.load hmax ?_
  simp only [hmid]
  refine Correct.log fun hallowed s₂ hs₂ => ⟨?_, ?_⟩
  · rw [Good]
    simp only
    rw [← hs₂ (.cxts f.cxts) (.inl rfl)]
    -- The event of the promotion is good: the second range is not empty, it starts at an
    -- iteration that was not started, and no iteration of an outer level was left unstarted.
    refine ⟨h.base_le.trans h.level_eq.le, hmid', ⟨v.take s, ?_, rfl⟩,
      ⟨(s, index v s + 1), h.mem_unstartedAt.mpr ⟨hlow, hle, by simp, hlt⟩, rfl⟩, fun x hx => ?_⟩
    · rw [List.length_take]
      omega
    · obtain ⟨hx₁, -, hx₃, hx₄⟩ := h.mem_unstartedAt.mp hx
      by_contra hxs
      have := hempty x.1 hx₁ (by omega)
      omega
  · -- The assumption about the event decides whether a tracked level may be split here.
    have hsplit : SplitAt n T f v (σ (.cxts f.cxts)) s :=
      ⟨hlow, hle, hlt, hempty, hallowed.1, hallowed.2⟩
    rw [Sig.Post.after_after]
    refine Correct.write (.inr ⟨List.suffix_cons _ _, List.cons_ne_self _ f.path⟩)
      (.inr ⟨List.suffix_cons _ _, List.cons_ne_self _ f.path⟩) .none ?_
    refine Correct.setRow (.inr ⟨List.suffix_cons _ _, List.cons_ne_self _ f.path⟩) ?_
    have hne := h.cxts_ne_second s
    generalize hσ₁ : Function.update (Function.update σ _ _) _ _ = σ₁
    have hsecond : σ₁ (.cxts (.second s :: f.path)) s = ⟨some (middle v (σ (.cxts f.cxts)) s),
        some (bound (σ (.cxts f.cxts)) s), (σ (.cxts f.cxts) s).liveIn,
        (σ (.cxts f.cxts) s).liveOut⟩ := by
      rw [← hσ₁]
      simp [Nest.secondFrame]
    have hsame : ∀ x : Loc, x ≠ .cxts (.second s :: f.path) → σ₁ x = σ x := fun x hx => by
      have hx' : x ≠ .cxts (Nest.secondFrame f s).cxts := hx
      rw [← hσ₁, Function.update_of_ne hx', Function.update_of_ne hx']
    refine Correct.setRow (.inl rfl) ?_
    rw [Nest.forkTasks]
    -- The leaf splits its own range and calls the leaf slice again; an outer level needs the
    -- leftover task, which first finishes the levels below it.
    by_cases hleaf : s = f.level
    · subst hleaf
      rw [if_pos rfl, bind_bind]
      generalize hσ₂ : Function.update σ₁ (Loc.cxts f.cxts) _ = σ₂
      have hcurrent : (σ₂ (.cxts f.cxts) f.level).start = some (index v f.level) := by
        simp [← hσ₂, hsame _ hne, hstart]
      refine Correct.incrementStart (.inl rfl) hcurrent ?_
      have hs := h.splitStore_leaf (by omega) hsecond hsame hσ₂.symm
      exact h.fork_correct (p := .firstTask f) hT ih hM hsplit hs
        (h.firstTask_correct hT ih hM hsplit hs) s₁ s₂
    · rw [if_neg hleaf]
      have hs := h.splitStore_outer hleaf hstart hsecond hsame
      exact h.fork_correct (p := .leftoverTask f s) hT ih hM hsplit hs
        (h.leftoverTask_correct hT ih hM hsplit hs hleaf) s₁ s₂

/-- The promotion handler: it declines, or it splits the outermost level with
something left. -/
theorem promotionHandler_correct (hT : Mergeable n T) {M : Nat} (ih : SliceSpec n T M) :
    HandlerSpec n T M := by
  intro f v σ h hM
  rw [Nest.promotionHandler, Nest.promotionHandlerWith, h.tmem_eq]
  refine Correct.log fun _ s₁ hs₁ => ⟨?_, ?_⟩
  · rw [Good]
    simp only
    rw [h.tmem_eq, ← hs₁ (.cxts f.cxts) (.inl rfl), ← hs₁ (.tmem f.cxts) (.inl rfl)]
    intro x hx
    obtain ⟨hx₁, hx₂, hx₃, hx₄⟩ := h.mem_unstartedAt.mp hx
    refine ⟨?_, hx₂⟩
    by_contra hlt
    -- The levels above `startingLevel` have been emptied by the task, so that it is safe to look
    -- from there on.
    have := h.tmem.empty x.1 hx₁ (by rw [h.length_eq]; omega) (by omega)
    omega
  · refine Correct.read (.inl rfl) .none ?_
    refine Correct.read (.inl rfl) .none ?_
    -- Either no level has two iterations to share, and the handler returns 0, or `s` is the
    -- first that has.
    rcases h.splittingLevel_eq with ⟨heq, hempty⟩ | ⟨s, heq, hs₁', hle, hlt, hempty⟩
    · refine Correct.load heq ?_
      refine Correct.log fun _ s₂ hs₂ => ⟨?_, ?_⟩
      · rw [Good]
        simp only
        rw [← hs₂ (.cxts f.cxts) (.inl rfl), List.eq_nil_iff_forall_not_mem]
        intro x hx
        obtain ⟨hx₁, hx₂, hx₃, hx₄⟩ := h.mem_unstartedAt.mp hx
        have := hempty x.1 hx₁ hx₂
        omega
      · refine Correct.ret fun s' hs' => ?_
        have hpost := h.post_declined hs' s₁ s₂
        simpa [Sig.Post.after] using hpost
    · refine Correct.load heq ?_
      exact h.split_correct hT ih hM (h.tmem.low_le.trans hs₁') hle hlt hempty s₁

end HandlerPre

end HeartbeatCompiler
