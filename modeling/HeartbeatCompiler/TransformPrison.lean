import HeartbeatCompiler.Lex
import Mathlib.Data.List.DropRight
import Mathlib.Data.List.Infix

/-!
# `HeartbeatCompiler.TransformPrison`: the destination copy of the assembly

`transform-prison.pl` copies an assembly text into the rollforward code and gives the local
labels of the copy the suffix `_RF`. `emitDstLine` is its `emit_dst_line`. The script cuts a
line at some delimiters and looks the pieces up among the labels it has found. Each piece that
is a label is then a pattern of a substitution over the whole line, in which `.` stands for
every character.

What should come out is `rename`: the symbols of the assembler that are labels get the suffix,
and nothing else changes. `destination_closed_iff` says for which texts this is so. A line is
taken apart in its symbols; literal substitutions act on each of them alone.
-/

set_option autoImplicit false

namespace HeartbeatCompiler.TransformPrison

/-! ### Regular expressions -/

/-- The characters of a line, the newline included. -/
abbrev Line := List Char

/-- The class `\w` on bytes. -/
def isWord (c : Char) : Bool := c.isAlphanum || c = '_'

/-- The class `\s`. -/
def isSpace (c : Char) : Bool := c ∈ [' ', '\t', '\n', '\x0b', '\x0c', '\r']

/-- The class `[\w.]`, of which the script takes a local label to consist. The
assembler also allows `$`. -/
def isLabelChar (c : Char) : Bool := isWord c || c = '.'

/-- The match of `$localsymbol_regex`, without the colon. The line begins with
the dot, so a label after spaces is not found. -/
def localSymbol : Line → Option Line
  | [] => none
  | c :: rest =>
    let run := rest.takeWhile isLabelChar
    if c = '.' ∧ run ≠ [] ∧ (rest.dropWhile isLabelChar).head? = some ':' then some (c :: run)
    else none

/-- `$globalsymbol_regex` after the spaces: a character that is no dot, one
from a class that leaves out digits, and then a run of characters up to a
colon. -/
def globalSymbolHere : Line → Bool
  | c :: d :: rest => c ≠ '.' && (d.isAlpha || d = '_' || d = '.') &&
      (rest.dropWhile fun e => e.isAlphanum || e = '_' || e = '$' || e = '.').head? = some ':'
  | _ => false

/-- `$globalsymbol_regex`. The character after the spaces may be a space,
since it only must not be a dot; so all ways to divide the spaces are tried. -/
def globalSymbol : Line → Bool
  | [] => false
  | c :: rest => globalSymbolHere (c :: rest) || (isSpace c && globalSymbol rest)

/-- `^\s+`, the name of a directive, and `.+`. Something must follow the name,
which need not be a space. -/
def directive (name : String) (l : Line) : Bool :=
  let rest := l.dropWhile isSpace
  l.head?.any isSpace && name.toList.isPrefixOf rest &&
    (rest.drop name.toList.length).head?.any fun c => c ≠ '\n'

/-- The line defines a global symbol or is one of the directives that must not
be doubled. Such a line is skipped in the destination copy. -/
def skipRegexp (l : Line) : Bool :=
  globalSymbol l || directive ".comm" l || directive ".weakref" l || directive ".weak" l ||
    directive ".set" l || directive ".file" l

/-- The operand that the signal check moves. -/
def rfSignal : Line := "$__rf_signal".toList

/-- `.*\s+\$__rf_signal`. -/
def signalAfterSpace : Line → Bool
  | [] => false
  | c :: rest =>
    (isSpace c && rfSignal.isPrefixOf rest) || (c ≠ '\n' && signalAfterSpace rest)

/-- `$mov_regex`. The letters `mov` may stand anywhere on the line, also
inside a word. -/
def movRegex : Line → Bool
  | [] => false
  | c :: rest =>
    ("mov".toList.isPrefixOf (c :: rest) && signalAfterSpace (rest.drop 2)) || movRegex rest

/-- `s/\$__rf_signal/$1/`, the first match only. -/
def replaceSignal : Line → Line
  | [] => []
  | c :: rest =>
    if rfSignal.isPrefixOf (c :: rest) then "$1".toList ++ (c :: rest).drop rfSignal.length
    else c :: replaceSignal rest

/-! ### The label database -/

/-- The lines of a file, each with its newline; the last one may have none. -/
def readLines : List Char → List Line
  | [] => []
  | c :: text =>
    if c = '\n' then [c] :: readLines text
    else match readLines text with
      | [] => [[c]]
      | l :: ls => (c :: l) :: ls

/-- The keys of the label database: what the regular expression for local
labels finds on the lines, at most one label on each. -/
def localLabels (text : List Char) : List Line := (readLines text).filterMap localSymbol

/-! ### Lines of the destination -/

/-- `should_emit_rf_label`: not for a directive or a local label, which begin
with a dot after the spaces, and not for a line that defines a global symbol. -/
def shouldEmitRfLabel (l : Line) : Bool :=
  if (l.dropWhile isSpace).head? = some '.' then false else !globalSymbol l

/-- The pieces of a line between the matches of `\s+|\:|\,|\-\+\(`. The last
of these is one delimiter of three characters. -/
def fields : Line → List Line
  | [] => [[]]
  | '-' :: '+' :: '(' :: rest => [] :: fields rest
  | c :: rest =>
    if isSpace c then (if rest.head?.any isSpace then fields rest else [] :: fields rest)
    else if c = ':' ∨ c = ',' then [] :: fields rest
    else match fields rest with
      | [] => [[c]]
      | field :: others => (c :: field) :: others

/-- Perl's `split`: empty pieces at the end are dropped, and no others. -/
def split (l : Line) : List Line := (fields l).rdropWhile List.isEmpty

/-- A label as a pattern, at the beginning of a text. The label is not quoted,
so each of its dots matches any character but a newline. -/
def matchLabel : Line → Line → Bool
  | [], _ => true
  | _ :: _, [] => false
  | p :: lbl, c :: rest => (if p = '.' then c ≠ '\n' else p = c) && matchLabel lbl rest

/-- What is put after a local label of the copy. -/
def rfSuffix : Line := "_RF".toList

/-- `s/$_/$_\_RF/g`, after the given number of characters that belong to a
match. What is put there is the label itself, not what has matched. A match
may begin in the middle of a longer symbol. -/
def substitute (lbl : Line) : Nat → Line → Line
  | _, [] => []
  | n + 1, _ :: rest => substitute lbl n rest
  | 0, c :: rest =>
    if matchLabel lbl (c :: rest) then lbl ++ rfSuffix ++ substitute lbl (lbl.length - 1) rest
    else c :: substitute lbl 0 rest

/-- The pieces that are in the hash of the labels, with repetitions and in
their order. -/
def found (labels : List Line) (l : Line) : List Line := (split l).filter (· ∈ labels)

/-- The substitutions of `emit_dst_line`, one for each piece that is a label,
in the order of the pieces. A label that occurs twice among them has two
turns. -/
def substituteLabels (labels : List Line) (l : Line) : Line :=
  (found labels l).foldl (fun sl lbl => substitute lbl 0 sl) l

/-- Perl's `chomp`: a newline at the end is taken away, if there is one. -/
def chomp (l : Line) : Line := if l.getLast? = some '\n' then l.dropLast else l

/-- What is printed in place of a line that is skipped: a comment with the
whole of the line, also of an instruction behind a label. -/
def skipped (sl : Line) : Line := "# skipped '".toList ++ chomp sl ++ "'\n".toList

/-- What is done for the `__rf_signal` check: in the destination copy the
signal becomes `$1`. -/
def updateSignalCheck (sl : Line) : Line :=
  if movRegex sl then
    replaceSignal (chomp sl) ++ "  # updated dst prison check to $1\n".toList
  else sl

/-- The `__RF_DST` label of a line. It stands before the line also if the line
is skipped. -/
def rfDstLabel (i : Nat) (l : Line) : Line :=
  if shouldEmitRfLabel l then s!"__RF_DST_{i}: ".toList else []

/-- `emit_dst_line`: the labels are substituted, a line that must not be
doubled becomes a comment, the signal check is updated, and the `__RF_DST`
label stands in front. Whether the line has a label is decided on the line of
the text, whether it is skipped on the substituted one. -/
def emitDstLine (labels : List Line) (i : Nat) (l : Line) : Line :=
  let sl := substituteLabels labels l
  rfDstLabel i l ++ updateSignalCheck (if skipRegexp sl then skipped sl else sl)

/-- The destination copy, line by line. -/
def destination (text : List Char) : List Line :=
  (readLines text).mapIdx (emitDstLine (localLabels text))

/-! ### Symbols of the assembler -/

/-- Where a line is read: in the code, in a string, after a backslash there,
in a comment. A line begins in the code. -/
inductive Mode where
  | code
  | string
  | escape
  | comment
  deriving DecidableEq

/-- A symbol begins with a letter, a digit, `_` or `.`, and goes on with these
or `$`. -/
def assembler : Lex.Lexer Char Mode where
  start := isLabelChar
  part c := isLabelChar c || c = '$'
  next
    | .code, c => if c = '\x22' then .string else if c = '#' then .comment else .code
    | .string, c => if c = '\x22' then .code else if c = '\x5c' then .escape else .string
    | .escape, _ => .string
    | .comment, _ => .comment
  settle
    | .escape => .string
    | mode => mode

/-- The symbols of a line, with the character after each. A colon there makes
it a definition. -/
def symbols (l : Line) : List (Lex.Item Char Mode) := assembler.lex .code l

/-- A local label is defined where it is followed by a colon. -/
def definition : Lex.Item Char Mode → Option Line
  | .token .code s (some ':') => if s.head? = some '.' then some s else none
  | _ => none

/-- The local labels that a text defines, as the assembler reads it. -/
def definedLabels (text : List Char) : List Line :=
  (readLines text).flatMap fun l => (symbols l).filterMap definition

/-- The line with the suffix at its labels, and nothing else changed: what the
substitutions are meant to do. -/
def rename (labels : List Line) : Line → Line :=
  assembler.mapTokens .code fun mode s =>
    if mode = .code ∧ s ∈ labels then s ++ rfSuffix else s

/-- The lines that are not skipped. Whether a line is skipped is decided after
the substitutions. -/
def keptLines (text : List Char) : List Line :=
  (readLines text).filter fun l => !skipRegexp (substituteLabels (localLabels text) l)

/-- The destination copy is closed under local labels:

- `renamed`: on each line that is kept, the substitutions rename the local
  labels and change nothing else;
- `emitted`: the line is printed so, at the place of its number, with its
  label and the signal check updated;
- `closed`: no symbol of it is a local label of the source any more. -/
structure DestinationClosed (text : List Char) : Prop where
  renamed : ∀ l ∈ keptLines text,
    substituteLabels (localLabels text) l = rename (definedLabels text) l
  emitted : ∀ (i : Nat) (l : Line), (readLines text)[i]? = some l → l ∈ keptLines text →
    (destination text)[i]? =
      some (rfDstLabel i l ++ updateSignalCheck (rename (definedLabels text) l))
  closed : ∀ l ∈ keptLines text, ∀ s next,
    .token .code s next ∈ symbols (rename (definedLabels text) l) → s ∉ definedLabels text

/-! ### When it is -/

/-- Where the substitution finds a match, the text of the label stands. This
excludes what the dots of the pattern match by accident. -/
def LiteralMatches (lbl : Line) : Nat → Line → Prop
  | _, [] => True
  | n + 1, _ :: rest => LiteralMatches lbl n rest
  | 0, c :: rest =>
    if matchLabel lbl (c :: rest) then
      lbl <+: c :: rest ∧ LiteralMatches lbl (lbl.length - 1) rest
    else LiteralMatches lbl 0 rest

/-- The line after the given labels have had their turn: the symbols that
contain one of them have got the suffix. -/
def renamedBy (labels : List Line) : Line → Line :=
  assembler.mapTokens .code fun _ s => if ∃ lbl ∈ labels, lbl <:+: s then s ++ rfSuffix else s

/-- The first occurrence of the label in the symbol is at its end, but for
suffixes that are there already from turns of other labels. -/
def EndsIn (lbl s : Line) : Prop :=
  ∃ (before : Line) (k : Nat), s = before ++ lbl ++ (List.replicate k rfSuffix).flatten ∧
    ∀ p < before.length, ¬ lbl <+: s.drop p

/-- Of the labels, one alone occurs in the symbol, and it does so at its end.
A label whose turn comes later does not occur in the renamed symbol either. -/
def RenamedOnce (labels : List Line) (s : Line) : Prop :=
  ∃ pre lbl post, labels = pre ++ lbl :: post ∧ (∀ other ∈ pre, ¬ other <:+: s) ∧
    EndsIn lbl s ∧ ∀ other ∈ post, ¬ other <:+: s ++ rfSuffix

/-- The labels that are found on a line rename its labels and nothing else:

- `literal`: no dot of a label matches another character;
- `label`: each local label on the line is renamed once;
- `other`: no label that is found occurs in another symbol, in a string or in
  a comment;
- `fresh`: the new name of a label is not a label of the text. -/
structure RollsForward (text : List Char) (l : Line) : Prop where
  literal : ∀ pre lbl post, found (localLabels text) l = pre ++ lbl :: post →
    LiteralMatches lbl 0 (renamedBy pre l)
  label : ∀ s next, .token .code s next ∈ symbols l → s ∈ definedLabels text →
    RenamedOnce (found (localLabels text) l) s
  other : ∀ mode s next, .token mode s next ∈ symbols l →
    ¬ (mode = .code ∧ s ∈ definedLabels text) →
    ∀ lbl ∈ found (localLabels text) l, ¬ lbl <:+: s
  fresh : ∀ s next, .token .code s next ∈ symbols l → s ∈ definedLabels text →
    s ++ rfSuffix ∉ definedLabels text

/-! ### Labels -/

/-- What the script takes for a label: a dot and characters of symbols, none
of which is `$`. -/
def IsLabel (lbl : Line) : Prop := ∃ run, lbl = '.' :: run ∧ ∀ c ∈ run, isLabelChar c = true

variable {lbl l s : Line} {labels pre post : List Line} {c : Char}

/-- What the regular expression finds is a label. -/
theorem isLabel_of_localSymbol (h : localSymbol l = some lbl) : IsLabel lbl := by
  cases l with
  | nil => cases h
  | cons c rest =>
      simp only [localSymbol] at h
      split at h
      · rename_i hmatch
        obtain rfl := Option.some.inj h
        obtain ⟨rfl, -, -⟩ := hmatch
        exact ⟨_, rfl, fun d hd => List.mem_takeWhile_imp hd⟩
      · cases h

/-- The pieces that are looked up in the hash are labels. -/
theorem isLabel_of_mem_found {text : List Char} (h : lbl ∈ found (localLabels text) l) :
    IsLabel lbl := by
  have hmem : lbl ∈ localLabels text := of_decide_eq_true (List.mem_filter.mp h).2
  obtain ⟨l', -, hl'⟩ := List.mem_filterMap.mp hmem
  exact isLabel_of_localSymbol hl'

/-- Labels are not empty. -/
theorem IsLabel.ne_nil (h : IsLabel lbl) : lbl ≠ [] := by
  obtain ⟨run, rfl, -⟩ := h
  exact List.cons_ne_nil _ _

/-- Labels have a dot. -/
theorem IsLabel.dot_mem (h : IsLabel lbl) : '.' ∈ lbl := by
  obtain ⟨run, rfl, -⟩ := h
  exact List.mem_cons_self

/-- Labels are made of characters of labels. -/
theorem IsLabel.isLabelChar (h : IsLabel lbl) (hc : c ∈ lbl) : isLabelChar c = true := by
  obtain ⟨run, rfl, hrun⟩ := h
  rcases List.mem_cons.mp hc with rfl | hc
  · rfl
  · exact hrun c hc

/-- A label matches itself. -/
theorem IsLabel.matchLabel (h : IsLabel lbl) (hl : lbl <+: l) : matchLabel lbl l = true := by
  have hself : ∀ (s rest : Line), (∀ c ∈ s, TransformPrison.isLabelChar c = true) →
      TransformPrison.matchLabel s (s ++ rest) = true := by
    intro s rest hs
    induction s with
    | nil => rfl
    | cons c s ih =>
        have hc : c ≠ '\n' := by
          rintro rfl
          exact absurd (hs _ List.mem_cons_self) (by decide)
        have hrest := ih fun d hd => hs d (List.mem_cons_of_mem c hd)
        simp [TransformPrison.matchLabel, hc, hrest]
  obtain ⟨rest, rfl⟩ := hl
  exact hself lbl rest fun c hc => h.isLabelChar hc

/-! ### Literal substitutions -/

/-- The substitution of the text of the label, in which a dot matches a dot
only. -/
def replaceText (lbl : Line) : Nat → Line → Line
  | _, [] => []
  | n + 1, _ :: rest => replaceText lbl n rest
  | 0, c :: rest =>
    if lbl <+: c :: rest then lbl ++ rfSuffix ++ replaceText lbl (lbl.length - 1) rest
    else c :: replaceText lbl 0 rest

/-- The labels have their turns, each as a literal text. -/
def replaceAll (labels : List Line) (l : Line) : Line :=
  labels.foldl (fun sl lbl => replaceText lbl 0 sl) l

/-- A substitution whose matches are all literal is the literal one. -/
theorem substitute_eq_replaceText (h : IsLabel lbl) {n : Nat} (hl : LiteralMatches lbl n l) :
    substitute lbl n l = replaceText lbl n l := by
  induction l generalizing n with
  | nil => cases n <;> rfl
  | cons c rest ih =>
      cases n with
      | succ n => exact ih hl
      | zero =>
          rw [LiteralMatches] at hl
          rw [substitute, replaceText]
          -- where the pattern matches, the label stands there; where it does not, the label does
          -- not stand there either, since a label matches itself
          split at hl
          · rename_i hmatch
            rw [if_pos hmatch, if_pos hl.1, ih hl.2]
          · rename_i hmatch
            rw [if_neg hmatch, if_neg fun hprefix => hmatch (h.matchLabel hprefix), ih hl]

/-- A match has at most the dots of the label, and as many only if it is the
label. A dot of the pattern that matches another character makes the count
smaller. -/
theorem count_of_matchLabel (h : matchLabel lbl l = true) : ∃ found rest, l = found ++ rest ∧
    found.length = lbl.length ∧ found.count '.' ≤ lbl.count '.' ∧
    (found.count '.' = lbl.count '.' → found = lbl) := by
  induction lbl generalizing l with
  | nil => exact ⟨[], l, rfl, rfl, Nat.le_refl _, fun _ => rfl⟩
  | cons p lbl ih =>
      cases l with
      | nil => cases h
      | cons c l =>
          rw [matchLabel, Bool.and_eq_true] at h
          obtain ⟨found, rest, rfl, hlength, hle, heq⟩ := ih h.2
          refine ⟨c :: found, rest, rfl, congrArg Nat.succ hlength, ?_⟩
          by_cases hpc : p = c
          · subst hpc
            rw [List.count_cons, List.count_cons]
            exact ⟨Nat.add_le_add_right hle _, fun hcount =>
              congrArg _ (heq (Nat.add_right_cancel hcount))⟩
          · -- the dot of the label has matched another character
            have hp : p = '.' := by
              by_contra hp
              have hc := h.1
              rw [if_neg hp, decide_eq_true_iff] at hc
              exact hpc hc
            have hc : c ≠ '.' := fun hc => hpc (hp.trans hc.symm)
            rw [hp, List.count_cons_self, List.count_cons_of_ne hc]
            constructor <;> omega

/-- The suffix has no dot. -/
theorem count_rfSuffix : rfSuffix.count '.' = 0 := by decide

/-- A substitution takes no dot away, and it adds none only if all matches are
literal. So it is enough to count dots to know that nothing was matched by
accident. -/
theorem count_substitute (h : lbl ≠ []) (n : Nat) (l : Line) :
    (l.drop n).count '.' ≤ (substitute lbl n l).count '.' ∧
      ((substitute lbl n l).count '.' = (l.drop n).count '.' → LiteralMatches lbl n l) := by
  induction l generalizing n with
  | nil => cases n <;> exact ⟨Nat.le_refl _, fun _ => trivial⟩
  | cons c rest ih =>
      cases n with
      | succ n => exact ih n
      | zero =>
          rw [List.drop_zero, substitute, LiteralMatches]
          split
          · rename_i hmatch
            -- The match is replaced by the label and the suffix, which have the dots of the
            -- label. If the count is the same, the match has as many, so it is the label.
            obtain ⟨found, rest', hrest, hlength, hle, heq⟩ := count_of_matchLabel hmatch
            have hpos : 0 < lbl.length := List.length_pos_iff.mpr h
            have hdrop : rest.drop (lbl.length - 1) = rest' := by
              have hdrop : (c :: rest).drop lbl.length = rest' := by
                rw [hrest, ← hlength, List.drop_left]
              rwa [← Nat.succ_pred_eq_of_pos hpos, List.drop_succ_cons] at hdrop
            obtain ⟨ihle, iheq⟩ := ih (lbl.length - 1)
            rw [hdrop] at ihle iheq
            rw [hrest, List.count_append, List.count_append, List.count_append, count_rfSuffix]
            refine ⟨by omega, fun hcount => ⟨?_, iheq (by omega)⟩⟩
            rw [← heq (by omega)]
            exact List.prefix_append found rest'
          · obtain ⟨ihle, iheq⟩ := ih 0
            rw [List.drop_zero] at ihle iheq
            rw [List.count_cons, List.count_cons]
            exact ⟨Nat.add_le_add_right ihle _, fun hcount => iheq (Nat.add_right_cancel hcount)⟩

/-- The substitutions of a line take no dot away. -/
theorem count_le_foldl (h : ∀ lbl ∈ labels, IsLabel lbl) (l : Line) :
    l.count '.' ≤ (labels.foldl (fun sl lbl => substitute lbl 0 sl) l).count '.' := by
  induction labels generalizing l with
  | nil => exact Nat.le_refl _
  | cons lbl labels ih =>
      have hstep := (count_substitute (h lbl List.mem_cons_self).ne_nil 0 l).1
      rw [List.drop_zero] at hstep
      exact hstep.trans (ih (fun lbl' h' => h lbl' (List.mem_cons_of_mem lbl h')) _)

/-- Substitutions that add no dot are literal, one after the other: each adds
at least none, so each adds none. -/
theorem literal_of_count (h : ∀ lbl ∈ labels, IsLabel lbl)
    (hcount : (labels.foldl (fun sl lbl => substitute lbl 0 sl) l).count '.' = l.count '.')
    -- the induction is on the labels that have had their turn
    (hlabels : labels = pre ++ lbl :: post) : LiteralMatches lbl 0 (replaceAll pre l) := by
  induction pre generalizing l labels with
  | nil =>
      subst hlabels
      obtain ⟨hle, heq⟩ := count_substitute (h lbl List.mem_cons_self).ne_nil 0 l
      have hrest := count_le_foldl (fun lbl' h' => h lbl' (List.mem_cons_of_mem lbl h'))
        (substitute lbl 0 l)
      rw [List.drop_zero] at hle heq
      rw [List.nil_append, List.foldl_cons] at hcount
      exact heq (by omega)
  | cons first pre ih =>
      subst hlabels
      have hfirst := h first List.mem_cons_self
      have hlater : ∀ lbl' ∈ pre ++ lbl :: post, IsLabel lbl' :=
        fun lbl' h' => h lbl' (List.mem_cons_of_mem first h')
      obtain ⟨hle, heq⟩ := count_substitute hfirst.ne_nil 0 l
      have hrest := count_le_foldl hlater (substitute first 0 l)
      rw [List.drop_zero] at hle heq
      rw [List.cons_append, List.foldl_cons] at hcount
      have hliteral := substitute_eq_replaceText hfirst (heq (by omega))
      have hcount' : ((pre ++ lbl :: post).foldl (fun sl lbl => substitute lbl 0 sl)
          (replaceText first 0 l)).count '.' = (replaceText first 0 l).count '.' := by
        rw [← hliteral]
        omega
      exact ih hlater hcount' rfl

/-- If all matches are literal, the substitutions are the literal ones. -/
theorem foldl_substitute_eq (h : ∀ lbl ∈ labels, IsLabel lbl)
    (hliteral : ∀ pre lbl post, labels = pre ++ lbl :: post →
      LiteralMatches lbl 0 (replaceAll pre l)) :
    labels.foldl (fun sl lbl => substitute lbl 0 sl) l = replaceAll labels l := by
  induction labels generalizing l with
  | nil => rfl
  | cons first labels ih =>
      have hfirst : substitute first 0 l = replaceText first 0 l :=
        substitute_eq_replaceText (h first List.mem_cons_self) (hliteral [] first labels rfl)
      rw [List.foldl_cons, hfirst]
      refine ih (fun lbl' h' => h lbl' (List.mem_cons_of_mem first h')) fun pre lbl post heq => ?_
      exact hliteral (first :: pre) lbl post (congrArg (first :: ·) heq)

/-! ### Symbol by symbol -/

/-- Characters that belong to a match are copied. -/
theorem replaceText_drop (lbl : Line) (n : Nat) (l : Line) :
    replaceText lbl n l = replaceText lbl 0 (l.drop n) := by
  induction l generalizing n with
  | nil => cases n <;> rfl
  | cons c l ih =>
      cases n with
      | zero => rfl
      | succ n => exact ih n

/-- A label in front gets its suffix. -/
theorem replaceText_prefix (h : lbl ≠ []) (l : Line) :
    replaceText lbl 0 (lbl ++ l) = lbl ++ rfSuffix ++ replaceText lbl 0 l := by
  cases lbl with
  | nil => exact absurd rfl h
  | cons c lbl =>
      have hprefix : c :: lbl <+: c :: (lbl ++ l) := List.prefix_append (c :: lbl) l
      have hdrop : (lbl ++ l).drop ((c :: lbl).length - 1) = l := List.drop_left
      rw [List.cons_append, replaceText, if_pos hprefix, replaceText_drop, hdrop]

/-- A label that does not contain the character is on one side of it. -/
theorem prefix_of_prefix_append_cons {before after : Line} (hc : c ∉ lbl)
    (h : lbl <+: before ++ c :: after) : lbl <+: before := by
  by_cases hlength : lbl.length ≤ before.length
  · exact List.prefix_of_prefix_length_le h (List.prefix_append _ _) hlength
  · have hbefore : before ++ [c] <+: lbl := by
      have hleft : before ++ [c] <+: before ++ c :: after :=
        ⟨after, by rw [List.append_assoc, List.singleton_append]⟩
      refine List.prefix_of_prefix_length_le hleft h ?_
      rw [List.length_append, List.length_singleton]
      omega
    exact absurd (hbefore.subset (List.mem_append_right before (List.mem_singleton_self c))) hc

/-- A character that is not in the label cuts the text in two, and each part
is replaced for itself. -/
theorem replaceText_append_cons (h : lbl ≠ []) (hc : c ∉ lbl) (before after : Line) :
    replaceText lbl 0 (before ++ c :: after) =
      replaceText lbl 0 before ++ c :: replaceText lbl 0 after := by
  induction hn : before.length using Nat.strong_induction_on generalizing before with
  | _ n ih =>
    cases before with
    | nil =>
        have hnot : ¬ lbl <+: [] ++ c :: after := fun hprefix =>
          h (List.prefix_nil.mp (prefix_of_prefix_append_cons hc hprefix))
        exact if_neg hnot
    | cons d before =>
        -- By induction on the length before the character: an occurrence of the label ends
        -- before it, since the label does not have it.
        by_cases hprefix : lbl <+: d :: before
        · obtain ⟨rest, hrest⟩ := hprefix
          have hlength : rest.length < n := by
            have hsum := congrArg List.length hrest
            have hpos := List.length_pos_iff.mpr h
            rw [List.length_append] at hsum
            omega
          rw [← hrest, List.append_assoc, replaceText_prefix h, replaceText_prefix h,
            ih rest.length hlength rest rfl]
          simp only [List.append_assoc]
        · have hnot : ¬ lbl <+: (d :: before) ++ c :: after := fun h' =>
            hprefix (prefix_of_prefix_append_cons hc h')
          have hlength : before.length < n := by
            rw [← hn]
            exact Nat.lt_succ_self _
          rw [List.cons_append] at hnot
          rw [List.cons_append, replaceText, if_neg hnot, replaceText, if_neg hprefix,
            ih before.length hlength before rfl, List.cons_append]

/-- A character that ends a symbol is in no label. -/
theorem not_mem_of_goesOn (h : IsLabel lbl) {current : Line}
    (hc : ¬ assembler.goesOn current c = true) : c ∉ lbl := by
  intro hmem
  apply hc
  have hlabel := h.isLabelChar hmem
  unfold Lex.Lexer.goesOn
  split
  · exact hlabel
  · exact Bool.or_eq_true_iff.mpr (.inl hlabel)

/-- A literal substitution acts on the symbols of a text, one by one. -/
theorem replaceText_lexFrom (h : IsLabel lbl) (mode : Mode) (current text : Line) :
    (assembler.lexFrom mode current text).flatMap (Lex.Item.render fun _ s => replaceText lbl 0 s) =
      replaceText lbl 0 (current ++ text) := by
  have hclose : ∀ (mode : Mode) (current : Line) (next : Option Char),
      (Lex.Lexer.close mode current next).flatMap
        (Lex.Item.render fun _ s => replaceText lbl 0 s) = replaceText lbl 0 current := by
    intro mode current next
    cases current with
    | nil => rfl
    | cons c current => exact List.append_nil _
  induction text generalizing mode current with
  | nil => rw [Lex.Lexer.lexFrom, hclose, List.append_nil]
  | cons c text ih =>
      rw [Lex.Lexer.lexFrom]
      split
      · rw [ih, List.append_assoc, List.singleton_append]
      · rename_i hc
        rw [List.flatMap_append, hclose, List.flatMap_cons, ih,
          replaceText_append_cons h.ne_nil (not_mem_of_goesOn h hc)]
        rfl

/-- A literal substitution of a line is one of its symbols. -/
theorem replaceText_eq_mapTokens (h : IsLabel lbl) (l : Line) :
    replaceText lbl 0 l = assembler.mapTokens .code (fun _ s => replaceText lbl 0 s) l :=
  (replaceText_lexFrom h .code [] l).symm

/-- The suffix goes on with a symbol. -/
theorem rfSuffix_part : ∀ d ∈ rfSuffix, assembler.part d = true := List.all_eq_true.mp rfl

/-- A symbol with the suffix put in is a symbol, as the suffix consists of
characters that symbols go on with. -/
theorem keeps_replaceText (h : IsLabel lbl) :
    assembler.Keeps fun _ s => replaceText lbl 0 s := by
  have hlabel : ∀ d ∈ lbl, assembler.part d = true := fun d hd =>
    Bool.or_eq_true_iff.mpr (.inl (h.isLabelChar hd))
  have hpart : ∀ (n : Nat) (s : Line), (∀ d ∈ s, assembler.part d = true) →
      ∀ d ∈ replaceText lbl n s, assembler.part d = true := by
    intro n s hs
    induction s generalizing n with
    | nil => cases n <;> exact fun d hd => absurd hd List.not_mem_nil
    | cons c s ih =>
        have hrest : ∀ d ∈ s, assembler.part d = true :=
          fun d hd => hs d (List.mem_cons_of_mem c hd)
        -- By induction on the symbol, for any number of characters still to be skipped.
        cases n with
        | succ n => exact ih n hrest
        | zero =>
            rw [replaceText]
            split
            · intro d hd
              rcases List.mem_append.mp hd with hd | hd
              · rcases List.mem_append.mp hd with hd | hd
                · exact hlabel d hd
                · exact rfSuffix_part d hd
              · exact ih _ hrest d hd
            · intro d hd
              rcases List.mem_cons.mp hd with rfl | hd
              · exact hs d List.mem_cons_self
              · exact ih 0 hrest d hd
  rintro mode s ⟨c, s', rfl, hc, hs'⟩
  have hall := hpart 0 (c :: s') fun d hd => by
    rcases List.mem_cons.mp hd with rfl | hd
    · exact Bool.or_eq_true_iff.mpr (.inl hc)
    · exact hs' d hd
  show assembler.IsToken (replaceText lbl 0 (c :: s'))
  -- The first character may be that of a label, which is one a symbol can start with, or it
  -- stays.
  by_cases hprefix : lbl <+: c :: s'
  · have heq : replaceText lbl 0 (c :: s') = _ := if_pos hprefix
    obtain ⟨run, rfl, -⟩ := h
    rw [heq] at hall ⊢
    exact ⟨'.', _, rfl, rfl, fun d hd => hall d (List.mem_cons_of_mem _ hd)⟩
  · have heq : replaceText lbl 0 (c :: s') = _ := if_neg hprefix
    rw [heq] at hall ⊢
    exact ⟨c, _, rfl, hc, fun d hd => hall d (List.mem_cons_of_mem _ hd)⟩

/-- So is one after all labels have had their turns. -/
theorem keeps_replaceAll (h : ∀ lbl ∈ labels, IsLabel lbl) :
    assembler.Keeps fun _ s => replaceAll labels s := by
  induction labels with
  | nil => exact fun _ _ hs => hs
  | cons first labels ih =>
      intro mode s hs
      exact ih (fun lbl h' => h lbl (List.mem_cons_of_mem first h')) mode _
        (keeps_replaceText (h first List.mem_cons_self) mode s hs)

/-- Literal substitutions act on each symbol alone. -/
theorem replaceAll_eq_mapTokens (h : ∀ lbl ∈ labels, IsLabel lbl) (l : Line) :
    replaceAll labels l = assembler.mapTokens .code (fun _ s => replaceAll labels s) l := by
  induction labels generalizing l with
  | nil => exact Lex.Lexer.mapTokens_id.symm
  | cons first labels ih =>
      have hfirst := h first List.mem_cons_self
      have hrest := ih (fun lbl h' => h lbl (List.mem_cons_of_mem first h'))
        (replaceText first 0 l)
      calc replaceAll (first :: labels) l
          = assembler.mapTokens .code (fun _ s => replaceAll labels s)
              (replaceText first 0 l) := hrest
        _ = assembler.mapTokens .code (fun _ s => replaceAll labels s)
              (assembler.mapTokens .code (fun _ s => replaceText first 0 s) l) := by
            rw [← replaceText_eq_mapTokens hfirst]
        _ = assembler.mapTokens .code (fun _ s => replaceAll (first :: labels) s) l :=
            Lex.Lexer.mapTokens_mapTokens (keeps_replaceText hfirst)

/-! ### One symbol -/

/-- Where the label does not occur, nothing changes. -/
theorem replaceText_eq_self (h : ¬ lbl <:+: s) : replaceText lbl 0 s = s := by
  induction s with
  | nil => rfl
  | cons c s ih =>
      rw [replaceText, if_neg fun hprefix => h hprefix.isInfix,
        ih fun hin => h (hin.trans (List.suffix_cons c s).isInfix)]

/-- A label that occurs has a first occurrence. -/
theorem exists_first (h : lbl <:+: s) : ∃ before after, s = before ++ lbl ++ after ∧
    ∀ p < before.length, ¬ lbl <+: s.drop p := by
  induction s with
  | nil =>
      obtain rfl := List.infix_nil.mp h
      exact ⟨[], [], rfl, fun p hp => absurd hp (Nat.not_lt_zero p)⟩
  | cons c s ih =>
      by_cases hprefix : lbl <+: c :: s
      · obtain ⟨after, hafter⟩ := hprefix
        exact ⟨[], after, hafter.symm, fun p hp => absurd hp (Nat.not_lt_zero p)⟩
      · obtain ⟨before, after, hs, hfirst⟩ := ih ((List.infix_cons_iff.mp h).resolve_left hprefix)
        refine ⟨c :: before, after, congrArg (c :: ·) hs, fun p hp => ?_⟩
        cases p with
        | zero => exact hprefix
        | succ p => exact hfirst p (Nat.lt_of_succ_lt_succ hp)

/-- The first occurrence of the label gets the suffix, and the rest is
substituted after it. -/
theorem replaceText_first (h : lbl ≠ []) {before after : Line}
    (hs : s = before ++ lbl ++ after) (hfirst : ∀ p < before.length, ¬ lbl <+: s.drop p) :
    replaceText lbl 0 s = before ++ lbl ++ rfSuffix ++ replaceText lbl 0 after := by
  induction before generalizing s with
  | nil =>
      subst hs
      exact replaceText_prefix h after
  | cons c before ih =>
      subst hs
      have hnot : ¬ lbl <+: c :: (before ++ lbl ++ after) := hfirst 0 (Nat.succ_pos _)
      rw [List.cons_append, List.cons_append, replaceText, if_neg hnot,
        ih rfl fun p hp => hfirst (p + 1) (Nat.succ_lt_succ hp)]
      rfl

/-- A substitution takes nothing away. -/
theorem length_le_replaceText (lbl : Line) (n : Nat) (s : Line) :
    (s.drop n).length ≤ (replaceText lbl n s).length := by
  induction s generalizing n with
  | nil => cases n <;> exact Nat.le_refl _
  | cons c s ih =>
      cases n with
      | succ n => exact ih n
      | zero =>
          rw [replaceText]
          split
          · have hrest := ih (lbl.length - 1)
            rw [List.length_drop] at hrest
            rw [List.drop_zero, List.length_append, List.length_append, List.length_cons]
            have hsuffix : rfSuffix.length = 3 := by decide
            omega
          · exact Nat.succ_le_succ (ih 0)

/-- A label that occurs makes the symbol at least one suffix longer. -/
theorem length_replaceText_of_infix (h : lbl ≠ []) (hin : lbl <:+: s) :
    (s ++ rfSuffix).length ≤ (replaceText lbl 0 s).length := by
  obtain ⟨before, after, hs, hfirst⟩ := exists_first hin
  have hrest := length_le_replaceText lbl 0 after
  rw [replaceText_first h hs hfirst, hs]
  simp only [List.length_append, List.drop_zero] at hrest ⊢
  omega

/-- Only suffixes can be moved before a suffix. -/
theorem eq_replicate_of_comm {after : Line} (h : rfSuffix ++ after = after ++ rfSuffix) :
    ∃ k, after = (List.replicate k rfSuffix).flatten := by
  induction hn : after.length using Nat.strong_induction_on generalizing after with
  | _ n ih =>
    match after, h with
    | [], _ => exact ⟨0, rfl⟩
    | [c], h => simp [rfSuffix] at h
    | [c, d], h => simp [rfSuffix] at h
    | c :: d :: e :: after, h =>
        have hhead : [c, d, e] = rfSuffix := by
          simp [rfSuffix] at h ⊢
          exact ⟨h.1.symm, h.2.1.symm, h.2.2.1.symm⟩
        have hafter : c :: d :: e :: after = rfSuffix ++ after := by
          rw [← hhead]
          rfl
        rw [hafter, List.append_assoc, List.append_cancel_left_eq] at h
        obtain ⟨k, hk⟩ := ih after.length (by rw [← hn]; simp only [List.length_cons]; omega) h rfl
        exact ⟨k + 1, by rw [hafter, List.replicate_succ, List.flatten_cons, ← hk]⟩

/-- Suffixes can be put in front of or behind one another. -/
theorem replicate_comm (k : Nat) : rfSuffix ++ (List.replicate k rfSuffix).flatten =
    (List.replicate k rfSuffix).flatten ++ rfSuffix := by
  rw [← List.flatten_cons, ← List.replicate_succ, List.replicate_succ', List.flatten_append,
    List.flatten_singleton]

/-- The substitution gives a symbol one suffix, at its end, if and only if the
label first occurs there. -/
theorem endsIn_iff (h : IsLabel lbl) : replaceText lbl 0 s = s ++ rfSuffix ↔ EndsIn lbl s := by
  constructor
  · intro heq
    -- the label occurs, since the symbol gets longer
    have hin : lbl <:+: s := by
      by_contra hnot
      rw [replaceText_eq_self hnot] at heq
      have hlength := congrArg List.length heq
      have hsuffix : rfSuffix.length = 3 := by decide
      rw [List.length_append] at hlength
      omega
    obtain ⟨before, after, hs, hfirst⟩ := exists_first hin
    rw [replaceText_first h.ne_nil hs hfirst, hs, List.append_assoc, List.append_assoc _ after,
      List.append_cancel_left_eq] at heq
    -- a second occurrence would add a second suffix
    have hafter : ¬ lbl <:+: after := by
      intro hin'
      have hlength := length_replaceText_of_infix h.ne_nil hin'
      have hsum := congrArg List.length heq
      simp only [List.length_append] at hlength hsum
      have hsuffix : rfSuffix.length = 3 := by decide
      omega
    rw [replaceText_eq_self hafter] at heq
    -- what stands after the label commutes with the suffix, so it is made of suffixes
    obtain ⟨k, rfl⟩ := eq_replicate_of_comm heq
    exact ⟨before, k, hs, hfirst⟩
  · rintro ⟨before, k, hs, hfirst⟩
    have hafter : ¬ lbl <:+: (List.replicate k rfSuffix).flatten := by
      intro hin
      obtain ⟨t, ht, hdot⟩ := List.mem_flatten.mp (hin.subset h.dot_mem)
      rw [(List.mem_replicate.mp ht).2] at hdot
      exact absurd hdot (by decide)
    rw [replaceText_first h.ne_nil hs hfirst, replaceText_eq_self hafter, hs,
      List.append_assoc, replicate_comm]
    simp only [List.append_assoc]

/-! ### One symbol and all labels -/

/-- The turns of the labels take nothing away. -/
theorem length_le_replaceAll (labels : List Line) (s : Line) :
    s.length ≤ (replaceAll labels s).length := by
  induction labels generalizing s with
  | nil => exact Nat.le_refl _
  | cons first labels ih =>
      have hfirst := length_le_replaceText first 0 s
      rw [List.drop_zero] at hfirst
      exact hfirst.trans (ih (replaceText first 0 s))

/-- A symbol in which no label occurs stays the same. -/
theorem replaceAll_eq_self (h : ∀ lbl ∈ labels, ¬ lbl <:+: s) : replaceAll labels s = s := by
  induction labels with
  | nil => rfl
  | cons first labels ih =>
      have hrest := ih fun lbl h' => h lbl (List.mem_cons_of_mem first h')
      rw [replaceAll, List.foldl_cons, replaceText_eq_self (h first List.mem_cons_self)]
      exact hrest

/-- A symbol that is as long as before is the same, and no label occurs in it.
-/
theorem not_infix_of_length (h : ∀ lbl ∈ labels, IsLabel lbl)
    (hlength : (replaceAll labels s).length ≤ s.length) : ∀ lbl ∈ labels, ¬ lbl <:+: s := by
  induction labels with
  | nil => exact fun lbl hlbl => absurd hlbl List.not_mem_nil
  | cons first labels ih =>
      have hrest : (replaceAll labels (replaceText first 0 s)).length ≤ s.length := hlength
      have hle := length_le_replaceAll labels (replaceText first 0 s)
      -- the first label would make the symbol longer, and the others take nothing away
      have hfirst : ¬ first <:+: s := by
        intro hin
        have hgrow := length_replaceText_of_infix (h first List.mem_cons_self).ne_nil hin
        have hsuffix : rfSuffix.length = 3 := by decide
        rw [List.length_append] at hgrow
        omega
      rw [replaceText_eq_self hfirst] at hrest
      intro lbl hlbl
      rcases List.mem_cons.mp hlbl with rfl | hlbl
      · exact hfirst
      · exact ih (fun lbl' h' => h lbl' (List.mem_cons_of_mem first h')) hrest lbl hlbl

/-- A symbol stays the same exactly if no label occurs in it. -/
theorem replaceAll_eq_self_iff (h : ∀ lbl ∈ labels, IsLabel lbl) :
    replaceAll labels s = s ↔ ∀ lbl ∈ labels, ¬ lbl <:+: s := by
  constructor
  · exact fun heq => not_infix_of_length h (Nat.le_of_eq (congrArg List.length heq))
  · exact replaceAll_eq_self

/-- A label that ends a symbol occurs in it. -/
theorem EndsIn.isInfix (h : EndsIn lbl s) : lbl <:+: s := by
  obtain ⟨before, k, hs, -⟩ := h
  exact ⟨before, _, hs.symm⟩

/-- A symbol gets one suffix at its end exactly if one label renames it. The
induction is on the labels, in the order of their turns. -/
theorem replaceAll_eq_append_iff (h : ∀ lbl ∈ labels, IsLabel lbl) :
    replaceAll labels s = s ++ rfSuffix ↔ RenamedOnce labels s := by
  constructor
  · intro heq
    induction labels with
    | nil =>
        have hlength := congrArg List.length heq
        have hsuffix : rfSuffix.length = 3 := by decide
        rw [List.length_append] at hlength
        exact absurd hlength (by simp [replaceAll, hsuffix])
    | cons first labels ih =>
        have hlater : ∀ lbl ∈ labels, IsLabel lbl :=
          fun lbl h' => h lbl (List.mem_cons_of_mem first h')
        have hstep : replaceAll labels (replaceText first 0 s) = s ++ rfSuffix := heq
        by_cases hin : first <:+: s
        · -- the first label adds a suffix, so the others add nothing
          have hgrow := length_replaceText_of_infix (h first List.mem_cons_self).ne_nil hin
          rw [← hstep] at hgrow
          have hnone := not_infix_of_length hlater hgrow
          rw [replaceAll_eq_self hnone] at hstep
          rw [hstep] at hnone
          exact ⟨[], first, labels, rfl, fun lbl hlbl => absurd hlbl List.not_mem_nil,
            (endsIn_iff (h first List.mem_cons_self)).mp hstep, hnone⟩
        · rw [replaceText_eq_self hin] at hstep
          obtain ⟨pre, lbl, post, rfl, hpre, hends, hpost⟩ := ih hlater hstep
          refine ⟨first :: pre, lbl, post, rfl, fun other hother => ?_, hends, hpost⟩
          rcases List.mem_cons.mp hother with rfl | hother
          · exact hin
          · exact hpre other hother
  · rintro ⟨pre, lbl, post, rfl, hpre, hends, hpost⟩
    have hlbl := h lbl (List.mem_append_right pre List.mem_cons_self)
    have hbefore : pre.foldl (fun sl lbl => replaceText lbl 0 sl) s = s :=
      replaceAll_eq_self hpre
    rw [replaceAll, List.foldl_append, hbefore, List.foldl_cons, (endsIn_iff hlbl).mpr hends]
    exact replaceAll_eq_self hpost

/-- The symbol while the labels have their turns: it has its suffix as soon as
the label that renames it has had its turn. -/
theorem replaceAll_of_prefix (h : ∀ lbl ∈ labels, IsLabel lbl) (hpre : pre <+: labels)
    (hs : (∀ lbl ∈ labels, ¬ lbl <:+: s) ∨ RenamedOnce labels s) :
    replaceAll pre s = if ∃ lbl ∈ pre, lbl <:+: s then s ++ rfSuffix else s := by
  split
  · rename_i hex
    obtain ⟨other, hother, hin⟩ := hex
    rcases hs with hnone | ⟨first, lbl, post, rfl, hfirst, hends, hpost⟩
    · exact absurd hin (hnone other (hpre.subset hother))
    · -- a label of `pre` occurs, so `pre` reaches at least to the one that renames the symbol
      have hcut : ¬ pre <+: first := fun hle => hfirst other (hle.subset hother) hin
      obtain ⟨mid, rfl⟩ : first ++ [lbl] <+: pre := by
        have hfull : first ++ [lbl] <+: first ++ lbl :: post :=
          ⟨post, by rw [List.append_assoc, List.singleton_append]⟩
        refine List.prefix_of_prefix_length_le hfull hpre ?_
        by_contra hlength
        rw [List.length_append, List.length_singleton] at hlength
        exact hcut (List.prefix_of_prefix_length_le hpre (List.prefix_append _ _) (by omega))
      -- and the labels of `pre` after it have no effect
      have hmid : mid <+: post := by
        rwa [List.append_assoc, List.singleton_append, List.prefix_append_right_inj,
          List.cons_prefix_cons, and_iff_right rfl] at hpre
      refine (replaceAll_eq_append_iff fun lbl' hlbl' => h lbl' (hpre.subset hlbl')).mpr ?_
      exact ⟨first, lbl, mid, by rw [List.append_assoc, List.singleton_append], hfirst, hends,
        fun lbl' hlbl' => hpost lbl' (hmid.subset hlbl')⟩
  · rename_i hnone
    exact replaceAll_eq_self fun lbl hlbl hin => hnone ⟨lbl, hlbl, hin⟩

/-! ### Lines -/

/-- A renamed symbol is a symbol. -/
theorem keeps_rename (labels : List Line) : assembler.Keeps fun mode s =>
    if mode = .code ∧ s ∈ labels then s ++ rfSuffix else s := by
  intro mode s hs
  show assembler.IsToken (if mode = .code ∧ s ∈ labels then s ++ rfSuffix else s)
  split
  · exact hs.append rfSuffix_part
  · exact hs

/-- Renaming keeps the number of dots. -/
theorem count_rename (labels : List Line) (l : Line) :
    (rename labels l).count '.' = l.count '.' := by
  have hid : assembler.mapTokens .code (fun _ s => s) l = l := Lex.Lexer.mapTokens_id
  conv_rhs => rw [← hid]
  rw [rename, Lex.Lexer.mapTokens, Lex.Lexer.mapTokens, List.count_flatMap, List.count_flatMap]
  -- item by item: the suffix has no dot
  congr 2
  funext item
  cases item with
  | char c => rfl
  | token mode s next =>
      show (if mode = .code ∧ s ∈ labels then s ++ rfSuffix else s).count '.' = s.count '.'
      split
      · rw [List.count_append, count_rfSuffix]
        rfl
      · rfl

/-- The substitutions give the renamed line if and only if they are literal
and rename each symbol. It is the condition of the claim for one line, with
any list of labels that are found. -/
theorem foldl_substitute_eq_rename_iff (h : ∀ lbl ∈ labels, IsLabel lbl) (defined : List Line)
    (l : Line) :
    labels.foldl (fun sl lbl => substitute lbl 0 sl) l = rename defined l ↔
      (∀ pre lbl post, labels = pre ++ lbl :: post → LiteralMatches lbl 0 (renamedBy pre l)) ∧
      (∀ s next, .token .code s next ∈ symbols l → s ∈ defined → RenamedOnce labels s) ∧
      ∀ mode s next, .token mode s next ∈ symbols l → ¬ (mode = .code ∧ s ∈ defined) →
        ∀ lbl ∈ labels, ¬ lbl <:+: s := by
  -- what the symbols say of the line while the labels have their turns
  have hstage : (∀ s next, .token .code s next ∈ symbols l → s ∈ defined →
      RenamedOnce labels s) → (∀ mode s next, .token mode s next ∈ symbols l →
      ¬ (mode = .code ∧ s ∈ defined) → ∀ lbl ∈ labels, ¬ lbl <:+: s) →
      ∀ pre, pre <+: labels → replaceAll pre l = renamedBy pre l := by
    intro hlabel hother pre hpre
    rw [replaceAll_eq_mapTokens fun lbl hlbl => h lbl (hpre.subset hlbl)]
    refine Lex.Lexer.mapTokens_congr fun mode s next hs => ?_
    refine replaceAll_of_prefix h hpre ?_
    by_cases hdefined : mode = .code ∧ s ∈ defined
    · obtain ⟨rfl, hdefined⟩ := hdefined
      exact .inr (hlabel s next hs hdefined)
    · exact .inl (hother mode s next hs hdefined)
  constructor
  · intro heq
    -- renaming adds no dot, so all matches were literal and the line can be read symbol by
    -- symbol
    have hliteral : ∀ pre lbl post, labels = pre ++ lbl :: post →
        LiteralMatches lbl 0 (replaceAll pre l) := by
      have hcount := (congrArg (List.count '.') heq).trans (count_rename defined l)
      exact fun pre lbl post => literal_of_count h hcount
    rw [foldl_substitute_eq h hliteral, replaceAll_eq_mapTokens h] at heq
    have hsymbol : ∀ mode s next, .token mode s next ∈ symbols l →
        replaceAll labels s = if mode = .code ∧ s ∈ defined then s ++ rfSuffix else s :=
      fun mode s next hs =>
        Lex.Lexer.eq_of_mapTokens_eq (keeps_replaceAll h) (keeps_rename defined) heq hs
    have hlabel : ∀ s next, .token .code s next ∈ symbols l → s ∈ defined →
        RenamedOnce labels s := by
      intro s next hs hdefined
      rw [← replaceAll_eq_append_iff h, hsymbol .code s next hs, if_pos ⟨rfl, hdefined⟩]
    have hother : ∀ mode s next, .token mode s next ∈ symbols l →
        ¬ (mode = .code ∧ s ∈ defined) → ∀ lbl ∈ labels, ¬ lbl <:+: s := by
      intro mode s next hs hdefined
      rw [← replaceAll_eq_self_iff h, hsymbol mode s next hs, if_neg hdefined]
    refine ⟨fun pre lbl post hlabels => ?_, hlabel, hother⟩
    rw [← hstage hlabel hother pre ⟨lbl :: post, hlabels.symm⟩]
    exact hliteral pre lbl post hlabels
  · rintro ⟨hliteral, hlabel, hother⟩
    -- the literal turns, again symbol by symbol
    have hreplace : labels.foldl (fun sl lbl => substitute lbl 0 sl) l = replaceAll labels l := by
      refine foldl_substitute_eq h fun pre lbl post hlabels => ?_
      rw [hstage hlabel hother pre ⟨lbl :: post, hlabels.symm⟩]
      exact hliteral pre lbl post hlabels
    rw [hreplace, replaceAll_eq_mapTokens h]
    refine Lex.Lexer.mapTokens_congr fun mode s next hs => ?_
    by_cases hdefined : mode = .code ∧ s ∈ defined
    · obtain ⟨rfl, hdefined⟩ := hdefined
      rw [if_pos ⟨rfl, hdefined⟩, replaceAll_eq_append_iff h]
      exact hlabel s next hs hdefined
    · rw [if_neg hdefined, replaceAll_eq_self_iff h]
      exact hother mode s next hs hdefined

/-- The symbols of a renamed line. -/
theorem mem_symbols_rename {labels : List Line} {l t : Line} {next : Option Char} :
    .token .code t next ∈ symbols (rename labels l) ↔ ∃ s, .token .code s next ∈ symbols l ∧
      t = if s ∈ labels then s ++ rfSuffix else s := by
  rw [symbols, rename, Lex.Lexer.lex_mapTokens (keeps_rename labels), List.mem_map]
  constructor
  · rintro ⟨item, hitem, heq⟩
    cases item with
    | char c => cases heq
    | token mode s next' =>
        rw [Lex.Item.map, Lex.Item.token.injEq] at heq
        obtain ⟨rfl, rfl, rfl⟩ := heq
        refine ⟨s, hitem, ?_⟩
        simp only [true_and]
  · rintro ⟨s, hs, rfl⟩
    refine ⟨_, hs, ?_⟩
    simp only [Lex.Item.map, true_and]

/-- A line that rolls forward is renamed by the substitutions. -/
theorem substituteLabels_eq_rename {text : List Char} {l : Line} (h : RollsForward text l) :
    substituteLabels (localLabels text) l = rename (definedLabels text) l :=
  (foldl_substitute_eq_rename_iff (fun _ hlbl => isLabel_of_mem_found hlbl) _ l).mpr
    ⟨h.literal, h.label, h.other⟩

/-- The destination copy is closed under local labels if and only if, on each
line that is not skipped, the labels found by the split rename the labels of
the line and nothing else. -/
theorem destination_closed_iff (text : List Char) :
    DestinationClosed text ↔ ∀ l ∈ keptLines text, RollsForward text l := by
  constructor
  · intro h l hl
    obtain ⟨hliteral, hlabel, hother⟩ := (foldl_substitute_eq_rename_iff
      (fun _ hlbl => isLabel_of_mem_found hlbl) _ l).mp (h.renamed l hl)
    refine ⟨hliteral, hlabel, hother, fun s next hs hdefined => ?_⟩
    refine h.closed l hl _ next (mem_symbols_rename.mpr ⟨s, hs, ?_⟩)
    rw [if_pos hdefined]
  · intro h
    refine ⟨fun l hl => substituteLabels_eq_rename (h l hl), fun i l hi hl => ?_,
      fun l hl t next ht => ?_⟩
    · -- a line of the copy that is not skipped is its renamed line with the label in front
      have hkept : skipRegexp (substituteLabels (localLabels text) l) = false :=
        Bool.not_eq_true' _ ▸ (List.mem_filter.mp hl).2
      rw [substituteLabels_eq_rename (h l hl)] at hkept
      have hemit : emitDstLine (localLabels text) i l =
          rfDstLabel i l ++ updateSignalCheck (rename (definedLabels text) l) := by
        simp only [emitDstLine, substituteLabels_eq_rename (h l hl), hkept, Bool.false_eq_true,
          if_false]
      rw [destination, List.getElem?_mapIdx, hi, Option.map_some, hemit]
    · -- a symbol of the renamed line is a renamed label, which is fresh, or no label at all
      obtain ⟨s, hs, rfl⟩ := mem_symbols_rename.mp ht
      split
      · rename_i hdefined
        exact (h l hl).fresh s next hs hdefined
      · rename_i hdefined
        exact hdefined

/-- A jump through a table whose address is followed by an operand in
parentheses. -/
def jumpTable : List Char :=
  "f:\n\tjmp\t*.L4(,%rdi,8)\n.L4:\n\t.quad\t.L3\n.L3:\n\tret\n".toList

/-- The jump of the copy goes through the table of the source. -/
theorem jump_table_not_renamed : ¬ DestinationClosed jumpTable := by
  intro h
  have hline : "\tjmp\t*.L4(,%rdi,8)\n".toList ∈ keptLines jumpTable := by decide
  exact absurd (h.renamed _ hline) (by decide)

end HeartbeatCompiler.TransformPrison
