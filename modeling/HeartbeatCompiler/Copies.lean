import HeartbeatCompiler.TransformPrison

/-!
# `HeartbeatCompiler.Copies`: the words in the copies of a line

`emit_src_line` and `emit_dst_line` print the two copies of a line. The words of the labels and
tables that the script prints do not occur in the text. The copy of a line is not a part of the
text, though: a substitution can put a suffix before what follows, and so can the replacement
of the signal. `Clean` is what they keep. A word may come up in the middle of a symbol that has
a dot before it, and nowhere else, so no symbol of a copy begins with it (`Clean.not_prefix`).
-/

set_option autoImplicit false

namespace HeartbeatCompiler.TransformPrison

/-! ### The source copy of a line -/

/-- `s/\$__rf_signal/$_/`, the first match only. The source copy puts `$0`
there and the other copy `$1`. -/
def replaceSignalBy (repl : Line) : Line → Line
  | [] => []
  | c :: rest =>
    if rfSignal.isPrefixOf (c :: rest) then repl ++ (c :: rest).drop rfSignal.length
    else c :: replaceSignalBy repl rest

/-- The `__RF_SRC` label of a line. It has the number of the line, also if
lines before it have no label. -/
def rfSrcLabel (i : Nat) (l : Line) : Line :=
  if shouldEmitRfLabel l then s!"__RF_SRC_{i}: ".toList else []

/-- What `emit_src_line` does for the `__rf_signal` check: in the source copy
it never takes the branch to the handler. The newline is put behind the
comment. -/
def updateSrcSignalCheck (l : Line) : Line :=
  if movRegex l then
    replaceSignalBy "$0".toList (chomp l) ++ "  # updated src prison check to $0\n".toList
  else l

/-- `emit_src_line`: the signal check is updated and the `__RF_SRC` label
stands in front. The substitutions of the other copy are not made here. -/
def emitSrcLine (i : Nat) (l : Line) : Line := rfSrcLabel i l ++ updateSrcSignalCheck l

variable {l s w lbl : Line} {labels : List Line} {text : List Char} {c : Char}

/-! ### Reserved words -/

/-- The beginnings of the symbols that the tables need. A program that defines
one of them cannot be assembled with the tables. -/
def reserved : List Line :=
  ["__RF_".toList, "rollforward_table".toList, "rollback_table".toList]

/-- Every occurrence of the word is in a symbol, after a dot. The flag says
that there is a dot before, with nothing but characters of a symbol in
between. Substitutions put their text behind a label, so they keep this. -/
def Clean (w : Line) : Bool → Line → Prop
  | _, [] => True
  | dotted, c :: l =>
    (dotted = false → ¬ w <+: c :: l) ∧ Clean w (c = '.' || (dotted && isLabelChar c)) l

/-- A word that no substitution makes:

- `ne_nil`, `label`: it consists of characters of symbols;
- `dot`: it has no dot, so it is not part of a label that begins with one;
- `digit`: it does not begin with a digit, which a replaced signal ends with. -/
structure IsWord (w : Line) : Prop where
  ne_nil : w ≠ []
  label : ∀ c ∈ w, isLabelChar c = true
  dot : '.' ∉ w
  digit : ∀ d, d.isDigit = true → w.head? ≠ some d

/-- The reserved words are words of this kind. -/
theorem isWord_of_mem_reserved (h : w ∈ reserved) : IsWord w := by
  simp only [reserved, List.mem_cons, List.not_mem_nil, or_false] at h
  rcases h with rfl | rfl | rfl <;>
    exact ⟨by decide, List.all_eq_true.mp (by decide), by decide, by
      rintro d hd heq
      obtain rfl := Option.some.inj heq
      exact absurd hd (by decide)⟩

/-- A character that is in no label is in no word. -/
theorem IsWord.not_mem (hw : IsWord w) (hc : isLabelChar c = false) : c ∉ w := fun h =>
  absurd (hw.label c h) (by simp [hc])

/-- After a dot less is asked for. -/
theorem Clean.mono {d : Bool} (h : Clean w d l) : Clean w true l := by
  induction l generalizing d with
  | nil => trivial
  | cons c l ih =>
      refine ⟨nofun, ?_⟩
      have hrest := ih h.2
      by_cases hc : c = '.'
      · simpa [hc] using hrest
      · -- whatever the flag was before, it may be set or not
        by_cases hlabel : isLabelChar c = true
        · simpa [hc, hlabel] using hrest
        · have hsame := h.2
          simp only [hc, decide_false, hlabel, Bool.and_false, Bool.or_self] at hsame ⊢
          exact hsame

/-- A line that is clean without a dot before it is clean anywhere. -/
theorem Clean.of_false {d : Bool} (h : Clean w false l) : Clean w d l := by
  cases d with
  | false => exact h
  | true => exact h.mono

/-- The beginning of a clean line is clean. -/
theorem Clean.of_prefix {d : Bool} {l' : Line} (h : Clean w d l) (hl : l' <+: l) :
    Clean w d l' := by
  induction l' generalizing l d with
  | nil => trivial
  | cons c l' ih =>
      obtain ⟨rest, rfl⟩ := hl
      exact ⟨fun hd hw => h.1 hd (hw.trans (List.prefix_append _ rest)),
        ih h.2 (List.prefix_append l' rest)⟩

/-- The rest of a clean line is clean after a dot. -/
theorem Clean.drop {d : Bool} (h : Clean w d l) (n : Nat) : Clean w true (l.drop n) := by
  induction n generalizing l d with
  | zero => exact h.mono
  | succ n ih =>
      cases l with
      | nil => trivial
      | cons c l => exact ih h.2

/-- A line without the word is clean. -/
theorem clean_of_not_infix (h : ¬ w <:+: l) (d : Bool) : Clean w d l := by
  induction l generalizing d with
  | nil => trivial
  | cons c l ih =>
      exact ⟨fun _ hw => h hw.isInfix, ih (fun hw => h (hw.trans (List.suffix_cons c l).isInfix)) _⟩

/-- Characters of a symbol after a dot. -/
theorem clean_append_label (hs : ∀ c ∈ s, isLabelChar c = true) (h : Clean w true l) :
    Clean w true (s ++ l) := by
  induction s with
  | nil => exact h
  | cons c s ih =>
      refine ⟨nofun, ?_⟩
      rw [hs c List.mem_cons_self, Bool.true_and, Bool.or_true]
      exact ih fun c' hc' => hs c' (List.mem_cons_of_mem c hc')

/-- Two parts with a character between them that is in no symbol. -/
theorem clean_append_cons (hw : IsWord w) {d : Bool} (hc : isLabelChar c = false)
    (h : Clean w d s) (hl : Clean w false l) : Clean w d (s ++ c :: l) := by
  have hdot : c ≠ '.' := by
    rintro rfl
    exact absurd hc (by decide)
  -- the word does not reach over the character
  have hcut : ∀ before : Line, w <+: before ++ c :: l → w <+: before := fun before =>
    prefix_of_prefix_append_cons (hw.not_mem hc)
  induction s generalizing d with
  | nil =>
      refine ⟨fun _ hpre => hw.ne_nil (List.prefix_nil.mp (hcut [] hpre)), ?_⟩
      simpa [hdot, hc] using hl
  | cons e s ih => exact ⟨fun hd hpre => h.1 hd (hcut (e :: s) hpre), ih h.2⟩

/-- What a substitution leaves alone was there before. -/
theorem prefix_of_prefix_substitute (hlbl : IsLabel lbl) (hw : '.' ∉ w)
    (h : w <+: substitute lbl 0 l) : w <+: l := by
  induction l generalizing w with
  | nil => exact h
  | cons c l ih =>
      cases w with
      | nil => exact List.nil_prefix
      | cons e w =>
          rw [substitute] at h
          split at h
          · obtain ⟨run, rfl, -⟩ := hlbl
            rw [List.cons_append, List.cons_append, List.cons_prefix_cons] at h
            exact absurd (h.1 ▸ List.mem_cons_self) hw
          · rw [List.cons_prefix_cons] at h ⊢
            exact ⟨h.1, ih (fun hmem => hw (List.mem_cons_of_mem e hmem)) h.2⟩

/-- Substitutions keep lines clean. What is put in is a label with a suffix,
so it begins with a dot and makes no word outside of a symbol. -/
theorem clean_substitute (hlbl : IsLabel lbl) (hw : IsWord w) (n : Nat) {d : Bool}
    (h : Clean w d (l.drop n)) : Clean w d (substitute lbl n l) := by
  induction l generalizing n d with
  | nil => cases n <;> trivial
  | cons c l ih =>
      cases n with
      | succ n => exact ih n h
      | zero =>
          rw [List.drop_zero] at h
          -- A match is replaced by the label and the suffix. These begin with a dot, and what
          -- stands between it and the rest are characters of a symbol, so that the rest needs to
          -- be clean only after a dot.
          by_cases hmatch : matchLabel lbl (c :: l) = true
          · have heq : substitute lbl 0 (c :: l) = _ := if_pos hmatch
            rw [heq]
            have hrest : Clean w true (substitute lbl (lbl.length - 1) l) :=
              ih (lbl.length - 1) (h.2.drop _)
            obtain ⟨run, rfl, hrun⟩ := hlbl
            rw [List.append_assoc, List.cons_append]
            refine ⟨fun _ hpre => ?_, ?_⟩
            · obtain ⟨e, w', rfl⟩ := List.exists_cons_of_ne_nil hw.ne_nil
              rw [List.cons_prefix_cons] at hpre
              exact hw.dot (hpre.1 ▸ List.mem_cons_self)
            · have hsuffix : ∀ e ∈ rfSuffix, isLabelChar e = true :=
                List.all_eq_true.mp (by decide)
              exact clean_append_label hrun (clean_append_label hsuffix hrest)
          · have heq : substitute lbl 0 (c :: l) = c :: substitute lbl 0 l := if_neg hmatch
            rw [heq]
            -- no match: a word that begins here would have been here before
            refine ⟨fun hd hpre => h.1 hd ?_, ih 0 h.2⟩
            exact prefix_of_prefix_substitute hlbl hw.dot (heq ▸ hpre)

/-- So do the substitutions of a line. -/
theorem clean_substituteLabels (hw : IsWord w) {d : Bool} (h : Clean w d l) (text : List Char) :
    Clean w d (substituteLabels (localLabels text) l) := by
  have hfold : ∀ (labels : List Line), (∀ lbl ∈ labels, IsLabel lbl) → ∀ l, Clean w d l →
      Clean w d (labels.foldl (fun sl lbl => substitute lbl 0 sl) l) := by
    intro labels hlabels
    induction labels with
    | nil => exact fun l h => h
    | cons first labels ih =>
        exact fun l h => ih (fun lbl h' => hlabels lbl (List.mem_cons_of_mem first h')) _
          (clean_substitute (hlabels first List.mem_cons_self) hw 0 h)
  exact hfold _ (fun lbl hlbl => isLabel_of_mem_found hlbl) l h

/-- What the replacement of the signal leaves alone was there before. -/
theorem prefix_of_prefix_replaceSignal {repl : Line} (hw : '$' ∉ w)
    (h : w <+: replaceSignalBy ('$' :: repl) l) : w <+: l := by
  induction l generalizing w with
  | nil => exact h
  | cons c l ih =>
      cases w with
      | nil => exact List.nil_prefix
      | cons e w =>
          rw [replaceSignalBy] at h
          split at h
          · rw [List.cons_append, List.cons_prefix_cons] at h
            exact absurd (h.1 ▸ List.mem_cons_self) hw
          · rw [List.cons_prefix_cons] at h ⊢
            exact ⟨h.1, ih (fun hmem => hw (List.mem_cons_of_mem e hmem)) h.2⟩

/-- Characters of a symbol without a dot. -/
theorem Clean.of_append (hs : '.' ∉ s) (h : Clean w false (s ++ l)) : Clean w false l := by
  induction s with
  | nil => exact h
  | cons c s ih =>
      have hc : c ≠ '.' := fun hc => hs (hc ▸ List.mem_cons_self)
      refine ih (fun hmem => hs (List.mem_cons_of_mem c hmem)) ?_
      simpa [hc] using h.2

/-- So does the replacement of the signal. The dollar sign ends what was
before it, and no word begins with the digit behind it. -/
theorem clean_replaceSignal (hw : IsWord w) {e : Char} (he : e.isDigit = true) {d : Bool}
    (h : Clean w d l) : Clean w d (replaceSignalBy ['$', e] l) := by
  have hdollar : '$' ∉ w := hw.not_mem rfl
  induction l generalizing d with
  | nil => trivial
  | cons c l ih =>
      by_cases hmatch : rfSignal.isPrefixOf (c :: l) = true
      · have heq : replaceSignalBy ['$', e] (c :: l) =
          '$' :: e :: (c :: l).drop rfSignal.length := if_pos hmatch
        obtain ⟨rest, hrest⟩ := List.isPrefixOf_iff_prefix.mp hmatch
        rw [heq, ← hrest, List.drop_left]
        rw [← hrest] at h
        obtain ⟨first, w', hcons⟩ := List.exists_cons_of_ne_nil hw.ne_nil
        have hdot : e ≠ '.' := by
          rintro rfl
          exact absurd he (by decide)
        -- the dollar sign ends what was before
        have hafter : Clean w false rest := by
          have htail : Clean w false ("__rf_signal".toList ++ rest) := by
            cases d <;> exact h.2
          exact htail.of_append (by decide)
        refine ⟨fun _ hpre => ?_, fun _ hpre => ?_, ?_⟩
        · rw [hcons, List.cons_prefix_cons] at hpre
          exact hdollar (by rw [hcons, hpre.1]; exact List.mem_cons_self)
        · rw [hcons, List.cons_prefix_cons] at hpre
          exact hw.digit e he (by rw [hcons, hpre.1]; rfl)
        · cases d <;> simpa [hdot, isLabelChar, isWord] using hafter
      · have heq : replaceSignalBy ['$', e] (c :: l) = c :: replaceSignalBy ['$', e] l :=
          if_neg hmatch
        rw [heq]
        refine ⟨fun hd hpre => h.1 hd ?_, ih h.2⟩
        exact prefix_of_prefix_replaceSignal hdollar (heq ▸ hpre)

/-- Without its newline a line is a beginning of itself. -/
theorem prefix_chomp (l : Line) : chomp l <+: l := by
  unfold chomp
  split
  · exact List.dropLast_prefix l
  · exact List.prefix_refl l

/-- The replacement in the destination copy is the one with `$1`. -/
theorem replaceSignal_eq (l : Line) : replaceSignal l = replaceSignalBy ['$', '1'] l := by
  induction l with
  | nil => rfl
  | cons c l ih =>
      rw [replaceSignal, replaceSignalBy, ih]
      rfl

/-- The texts that the script adds are clean. -/
theorem clean_constant (hw : w ∈ reserved) (h : ∀ w ∈ reserved, ¬ w <:+: s) :
    Clean w false s := clean_of_not_infix (h w hw) false

/-- The update of the signal check keeps the source copy clean. -/
theorem clean_updateSrcSignalCheck (hw : w ∈ reserved) (h : Clean w false l) :
    Clean w false (updateSrcSignalCheck l) := by
  have hword := isWord_of_mem_reserved hw
  have hcomment : Clean w false " # updated src prison check to $0\n".toList :=
    clean_constant hw (by decide)
  unfold updateSrcSignalCheck
  split
  · exact clean_append_cons hword (show isLabelChar ' ' = false from rfl)
      (clean_replaceSignal hword (show Char.isDigit '0' = true from rfl)
        (h.of_prefix (prefix_chomp l))) hcomment
  · exact h

/-- The update of the signal check keeps the destination copy clean. -/
theorem clean_updateSignalCheck (hw : w ∈ reserved) (h : Clean w false l) :
    Clean w false (updateSignalCheck l) := by
  have hword := isWord_of_mem_reserved hw
  have hcomment : Clean w false " # updated dst prison check to $1\n".toList :=
    clean_constant hw (by decide)
  unfold updateSignalCheck
  split
  · rw [replaceSignal_eq]
    exact clean_append_cons hword (show isLabelChar ' ' = false from rfl)
      (clean_replaceSignal hword (show Char.isDigit '1' = true from rfl)
        (h.of_prefix (prefix_chomp l))) hcomment
  · exact h

/-- A skipped line is clean: the quotes around it are in no symbol. -/
theorem clean_skipped (hw : w ∈ reserved) (h : Clean w false l) :
    Clean w false (skipped l) := by
  have hword := isWord_of_mem_reserved hw
  have hquote : isLabelChar '\x27' = false := rfl
  have hbefore : Clean w false "# skipped ".toList := clean_constant hw (by decide)
  have hafter : Clean w false "\n".toList := clean_constant hw (by decide)
  have hbody := clean_append_cons hword hquote (h.of_prefix (prefix_chomp l)) hafter
  have hall := clean_append_cons hword hquote hbefore hbody
  have hleft : "# skipped '".toList = "# skipped ".toList ++ ['\x27'] := by decide
  have hright : "'\n".toList = '\x27' :: "\n".toList := by decide
  have heq : skipped l = ("# skipped ".toList ++ ['\x27']) ++ chomp l ++ '\x27' :: "\n".toList :=
    congrArg₂ (fun a b => a ++ chomp l ++ b) hleft hright
  rw [heq, List.append_assoc, List.append_assoc, List.singleton_append]
  exact hall

/-- The copies of a clean line, without their labels. -/
theorem clean_copies (hw : w ∈ reserved) (h : ¬ w <:+: l) (text : List Char) :
    Clean w false (updateSrcSignalCheck l) ∧
      Clean w false (updateSignalCheck (if skipRegexp (substituteLabels (localLabels text) l)
        then skipped (substituteLabels (localLabels text) l)
        else substituteLabels (localLabels text) l)) := by
  have hclean := clean_of_not_infix h false
  have hsubst := clean_substituteLabels (isWord_of_mem_reserved hw) hclean text
  refine ⟨clean_updateSrcSignalCheck hw hclean, clean_updateSignalCheck hw ?_⟩
  split
  · exact clean_skipped hw hsubst
  · exact hsubst

/-- No symbol of a clean line begins with the word. A word at the beginning of
a symbol has no dot before it, which a clean line excludes. -/
theorem Clean.not_prefix {m : Mode} {next : Option Char} (h : Clean w false l)
    (hs : .token m s next ∈ symbols l) : ¬ w <+: s := by
  have hfrom : ∀ (text : Line) (mode : Mode) (current : Line),
      (current = [] → Clean w false text) → (∃ d, Clean w d text) →
      (current ≠ [] → ¬ w <+: current ++ text) →
      .token m s next ∈ assembler.lexFrom mode current text → ¬ w <+: s := by
    intro text
    -- Along the text, with the symbol that is open: it does not begin with the word, since it
    -- began where the line was clean without a dot before it.
    induction text with
    | nil =>
        intro mode current _ _ hopen hs
        cases current with
        | nil => cases hs
        | cons c current =>
            rw [Lex.Lexer.lexFrom, Lex.Lexer.close_of_ne_nil (List.cons_ne_nil c current),
              List.mem_singleton, Lex.Item.token.injEq] at hs
            have hnot := hopen (List.cons_ne_nil c current)
            rw [List.append_nil] at hnot
            exact hs.2.1 ▸ hnot
    | cons c text ih =>
        intro mode current hnew hclean hopen hs
        obtain ⟨d, hclean⟩ := hclean
        rw [Lex.Lexer.lexFrom] at hs
        split at hs
        · -- the symbol goes on
          refine ih _ _ (fun hnil => ?_) ⟨_, hclean.2⟩ (fun _ => ?_) hs
          · simp at hnil
          · rw [List.append_assoc, List.singleton_append]
            by_cases hcurrent : current = []
            · subst hcurrent
              exact (hnew rfl).1 rfl
            · exact hopen hcurrent
        · rename_i hc
          -- what ends a symbol, or begins none, is in none
          have hlabel : isLabelChar c = false := by
            by_contra hlabel
            rw [Bool.not_eq_false] at hlabel
            refine hc ?_
            unfold Lex.Lexer.goesOn
            split
            · exact hlabel
            · exact Bool.or_eq_true_iff.mpr (.inl hlabel)
          have hdot : c ≠ '.' := by
            rintro rfl
            exact absurd hlabel (by decide)
          have hrest : Clean w false text := by
            have := hclean.2
            simpa [hdot, hlabel] using this
          rcases List.mem_append.mp hs with hs | hs
          · cases current with
            | nil => cases hs
            | cons e current =>
                rw [Lex.Lexer.close_of_ne_nil (List.cons_ne_nil e current),
                  List.mem_singleton, Lex.Item.token.injEq] at hs
                rw [hs.2.1]
                exact fun hpre => hopen (List.cons_ne_nil e current)
                  (hpre.trans (List.prefix_append _ _))
          · rcases List.mem_cons.mp hs with hs | hs
            · cases hs
            · exact ih _ _ (fun _ => hrest) ⟨_, hrest⟩ (fun hne => absurd rfl hne) hs
  exact hfrom l .code [] (fun _ => h) ⟨_, h⟩ (fun hne => absurd rfl hne) hs

end HeartbeatCompiler.TransformPrison
