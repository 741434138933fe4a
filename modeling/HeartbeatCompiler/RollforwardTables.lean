import HeartbeatCompiler.Copies

/-!
# `HeartbeatCompiler.RollforwardTables`: the tables of the rollforward code

`transform-prison.pl` prints two copies of the assembly text and two tables. A line with code
has the label `__RF_SRC_i` in the source copy and `__RF_DST_i` in the destination copy, and the
tables pair these labels in both orders. `output` is the whole of what is printed.

`rollforward_tables` reads the output as the assembler does: the tables list each line with
code once, and each of their labels is defined once, where the copy of the line stands.
-/

set_option autoImplicit false

namespace HeartbeatCompiler.TransformPrison

/-! ### The output -/

/-- The source copy, line by line, each with its number. -/
def source (text : List Char) : List Line := (readLines text).mapIdx emitSrcLine

/-- The lines that have a label in each copy: those that `shouldEmitRfLabel`
takes for code. The script numbers all lines and prints the labels of these,
so the numbers of the labels are the numbers of the lines. -/
def emitted (text : List Char) : List Nat :=
  (readLines text).zipIdx.filterMap fun line =>
    if shouldEmitRfLabel line.1 then some line.2 else none

/-- A line of a table, with the two addresses of a line with code: where
control comes from, and where it goes to. -/
def tableLine (a b : Line) : Line := "  .quad ".toList ++ a ++ ", ".toList ++ b ++ "\n".toList

/-- The line that defines the number of entries of a table. -/
def sizeLine (name : String) (size : Nat) : Line := s!"{name}: .quad {size}\n".toList

/-- The label of line `i` in the source copy. -/
def rfSrc (i : Nat) : Line := s!"__RF_SRC_{i}".toList

/-- The label of line `i` in the destination copy. -/
def rfDst (i : Nat) : Line := s!"__RF_DST_{i}".toList

/-- What stands between the copies. -/
def beforeDestination : List Line := ["\n".toList, "\n".toList, ".p2align 12\n".toList]

/-- The lines from the end of the destination copy to the label of the first
table. -/
def beforeTables : List Line :=
  ["\n".toList, "\n".toList, ".data\n".toList, ".p2align 12\n".toList,
    ".globl rollforward_table\n".toList]

/-- The lines between the two tables. -/
def betweenTables : List Line := [".p2align 12\n".toList, ".globl rollback_table\n".toList]

/-- The lines between the second table and the sizes. -/
def beforeSizes : List Line :=
  [".p2align 12\n".toList, ".globl rollforward_table_size\n".toList]

/-- What stands after the copies: two tables with the pairs in opposite
orders, and a size for each. Both sizes are counted for the first table only,
since the lines of both are chosen by the same test. -/
def tables (text : List Char) : List Line :=
  beforeTables ++
    "rollforward_table:\n".toList ::
      ((emitted text).map fun i => tableLine (rfSrc i) (rfDst i)) ++ betweenTables ++
    "rollback_table:\n".toList ::
      ((emitted text).map fun i => tableLine (rfDst i) (rfSrc i)) ++ beforeSizes ++
    [sizeLine "rollforward_table_size" (emitted text).length,
      ".globl rollback_table_size\n".toList,
      sizeLine "rollback_table_size" (emitted text).length]

/-- All that is printed, in the order of the `print` statements. -/
def prints (text : List Char) : List Line :=
  source text ++ beforeDestination ++ destination text ++ tables text

/-- The characters that are printed. -/
def output (text : List Char) : List Char := (prints text).flatten

/-! ### What the assembler reads -/

/-- The symbols that a line defines: those in its code that a colon follows.
Symbols in strings and comments are in other modes of the lexer and do not
count. -/
def defines (l : Line) : List Line :=
  (symbols l).filterMap fun
    | .token .code s (some ':') => some s
    | _ => none

/-- The other symbols in its code: those that are referred to, and the names
of instructions and directives. -/
def uses (l : Line) : List Line :=
  (symbols l).filterMap fun
    | .token .code s next => if next = some ':' then none else some s
    | _ => none

/-- The operands of `.quad`, in their order. Other lines have none. -/
def quads (l : Line) : List Line :=
  match uses l with
  | s :: operands => if s = ".quad".toList then operands else []
  | [] => []

/-- The words from a symbol to the next one, which is what a program finds
that reads the table at this symbol: the operands on the line that defines it
and on the lines after it, up to a line that defines something. -/
def dataAt (asm : List Line) (name : Line) : List Line :=
  match asm.dropWhile fun l => !(defines l).contains name with
  | [] => []
  | l :: rest => quads l ++ (rest.takeWhile fun l => (defines l).isEmpty).flatMap quads

/-! ### Lines -/

/-- A line of a text that ends with a newline, and has no other one. -/
def IsLine (l : Line) : Prop := ∃ s, l = s ++ ['\n'] ∧ '\n' ∉ s

variable {l s w lbl : Line} {labels : List Line} {text : List Char} {c : Char} {i : Nat}

/-- A character other than the newline belongs to the line that follows it. -/
theorem readLines_cons_ne (hc : c ≠ '\n') {ls : List Line} {rest : List Char}
    (h : readLines rest = l :: ls) : readLines (c :: rest) = (c :: l) :: ls := by
  rw [readLines, if_neg hc, h]

/-- A text up to its first newline is the first line. -/
theorem readLines_append_newline (hs : '\n' ∉ s) (rest : List Char) :
    readLines (s ++ '\n' :: rest) = (s ++ ['\n']) :: readLines rest := by
  induction s with
  | nil => exact if_pos rfl
  | cons c s ih =>
      have hc : c ≠ '\n' := fun h => hs (h ▸ List.mem_cons_self)
      exact readLines_cons_ne hc (ih fun h => hs (List.mem_cons_of_mem c h))

/-- Lines are read back. -/
theorem readLines_flatten {ls : List Line} (h : ∀ l ∈ ls, IsLine l) :
    readLines ls.flatten = ls := by
  induction ls with
  | nil => rfl
  | cons l ls ih =>
      obtain ⟨s, rfl, hs⟩ := h l List.mem_cons_self
      rw [List.flatten_cons, List.append_assoc, List.singleton_append,
        readLines_append_newline hs, ih fun l' hl' => h l' (List.mem_cons_of_mem _ hl')]

/-- The lines of a text are the text. -/
theorem flatten_readLines (text : List Char) : (readLines text).flatten = text := by
  induction text with
  | nil => rfl
  | cons c text ih =>
      rw [readLines]
      split
      · rw [List.flatten_cons, ih, List.singleton_append]
      · cases h : readLines text with
        | nil =>
            rw [h] at ih
            simp [← ih]
        | cons l ls =>
            rw [h] at ih
            simp [← ih]

/-- What a line has, the text has. -/
theorem infix_of_mem_readLines (h : l ∈ readLines text) : l <:+: text := by
  have hin := List.infix_of_mem_flatten h
  rwa [flatten_readLines] at hin

/-- A text that ends with a newline has complete lines only. Without it the
last line would be joined with the first one of the lines printed after it. -/
theorem isLine_of_mem_readLines (h : text.getLast? = some '\n') (hl : l ∈ readLines text) :
    IsLine l := by
  -- The induction follows `readLines`. A newline is a line of its own before the others; any
  -- other character is put in front of the first line of the rest, which is a complete one by
  -- `ih`, and the rest is not empty because the text ends with a newline.
  induction text generalizing l with
  | nil => cases h
  | cons c text ih =>
      rw [readLines] at hl
      split at hl
      · rename_i hc
        rcases List.mem_cons.mp hl with rfl | hl
        · exact ⟨[], by rw [hc]; rfl, List.not_mem_nil⟩
        · cases text with
          | nil => cases hl
          | cons d text => exact ih (by rwa [List.getLast?_cons_cons] at h) hl
      · rename_i hc
        cases text with
        | nil =>
            rw [List.getLast?_singleton, Option.some.injEq] at h
            -- a last character that is not a newline
            exact absurd h hc
        | cons d text =>
            rw [List.getLast?_cons_cons] at h
            have ih : ∀ l ∈ readLines (d :: text), IsLine l := fun l hl => ih h hl
            cases hread : readLines (d :: text) with
            | nil =>
                have hflat := flatten_readLines (d :: text)
                rw [hread] at hflat
                cases hflat
            | cons first others =>
                rw [hread] at hl ih
                rcases List.mem_cons.mp hl with rfl | hl
                · obtain ⟨s, rfl, hs⟩ := ih _ List.mem_cons_self
                  refine ⟨c :: s, rfl, fun hmem => ?_⟩
                  rcases List.mem_cons.mp hmem with rfl | hmem
                  · exact hc rfl
                  · exact hs hmem
                · exact ih _ (List.mem_cons_of_mem _ hl)

/-! ### The labels of the tables -/

/-- The characters of an interpolated string with one number. -/
theorem toList_interpolate (a b : String) (i : Nat) :
    (toString a ++ toString i ++ toString b).toList =
      a.toList ++ Nat.toDigits 10 i ++ b.toList := by
  rw [String.toList_append, String.toList_append]
  exact congrArg (fun digits => a.toList ++ digits ++ b.toList) Nat.toList_repr

/-- The label is a prefix and the digits of the number. -/
theorem rfSrc_eq (i : Nat) : rfSrc i = "__RF_SRC_".toList ++ Nat.toDigits 10 i := by
  rw [rfSrc, String.toList_append]
  exact congrArg _ Nat.toList_repr

/-- The label is a prefix and the digits of the number. -/
theorem rfDst_eq (i : Nat) : rfDst i = "__RF_DST_".toList ++ Nat.toDigits 10 i := by
  rw [rfDst, String.toList_append]
  exact congrArg _ Nat.toList_repr

/-- The source copy puts the label in front of a line with code. -/
theorem rfSrcLabel_eq (i : Nat) (l : Line) :
    rfSrcLabel i l = if shouldEmitRfLabel l then rfSrc i ++ ": ".toList else [] := by
  rw [rfSrc_eq, rfSrcLabel, toList_interpolate]

/-- The destination copy puts the label in front of a line with code. -/
theorem rfDstLabel_eq (i : Nat) (l : Line) :
    rfDstLabel i l = if shouldEmitRfLabel l then rfDst i ++ ": ".toList else [] := by
  rw [rfDst_eq, rfDstLabel, toList_interpolate]

/-- Digits are characters of a label. -/
theorem digits_label {n : Nat} (hc : c ∈ Nat.toDigits 10 n) : isLabelChar c = true := by
  have hdigit : c.isDigit = true := Nat.isDigit_of_mem_toDigits (by decide) (by decide) hc
  simp [isLabelChar, isWord, Char.isAlphanum, hdigit]

/-- A prefix and a number is a symbol. -/
theorem isToken_number {p : Line} (hp : p ≠ []) (hlabel : ∀ c ∈ p, isLabelChar c = true)
    (n : Nat) : assembler.IsToken (p ++ Nat.toDigits 10 n) := by
  obtain ⟨c, p, rfl⟩ := List.exists_cons_of_ne_nil hp
  refine ⟨c, _, rfl, hlabel c List.mem_cons_self, fun d hd => ?_⟩
  rcases List.mem_append.mp hd with hd | hd
  · exact Bool.or_eq_true_iff.mpr (.inl (hlabel d (List.mem_cons_of_mem c hd)))
  · exact Bool.or_eq_true_iff.mpr (.inl (digits_label hd))

/-- The labels of the source copy are symbols. -/
theorem isToken_rfSrc (i : Nat) : assembler.IsToken (rfSrc i) :=
  rfSrc_eq i ▸ isToken_number (by decide) (List.all_eq_true.mp (by decide)) i

/-- The labels of the destination copy are symbols. -/
theorem isToken_rfDst (i : Nat) : assembler.IsToken (rfDst i) :=
  rfDst_eq i ▸ isToken_number (by decide) (List.all_eq_true.mp (by decide)) i

/-- Different numbers have different digits. -/
theorem toDigits_inj {m n : Nat} (h : Nat.toDigits 10 m = Nat.toDigits 10 n) : m = n := by
  rw [← Nat.ofDigitChars_ten_toDigits (n := m), h, Nat.ofDigitChars_ten_toDigits]

/-- Different lines have different labels in the source copy. -/
theorem rfSrc_inj {i j : Nat} (h : rfSrc i = rfSrc j) : i = j := by
  rw [rfSrc_eq, rfSrc_eq] at h
  exact toDigits_inj (List.append_cancel_left h)

/-- Different lines have different labels in the destination copy. -/
theorem rfDst_inj {i j : Nat} (h : rfDst i = rfDst j) : i = j := by
  rw [rfDst_eq, rfDst_eq] at h
  exact toDigits_inj (List.append_cancel_left h)

/-- No label is in both copies. -/
theorem rfSrc_ne_rfDst (i j : Nat) : rfSrc i ≠ rfDst j := by
  intro h
  rw [rfSrc_eq, rfDst_eq] at h
  -- they differ in the character after `__RF_`
  have hchar := congrArg (fun s => s[5]?) h
  rw [List.getElem?_append_left (by decide), List.getElem?_append_left (by decide)] at hchar
  exact absurd hchar (by decide)

/-! ### What the lines define -/

/-- A symbol before a character that ends it. -/
theorem symbols_token_cons (hs : assembler.IsToken s) (hc : assembler.part c = false)
    (hmode : assembler.next .code c = .code) (l : Line) :
    symbols (s ++ c :: l) = .token .code s (some c) :: .char c :: symbols l := by
  rw [symbols, Lex.Lexer.lex, Lex.Lexer.lexFrom_token_cons hs hc,
    show assembler.settle .code = .code from rfl, hmode]
  rfl

/-- A character that begins no symbol. -/
theorem symbols_cons (hc : assembler.start c = false) (hmode : assembler.next .code c = .code)
    (l : Line) : symbols (c :: l) = .char c :: symbols l := by
  rw [symbols, Lex.Lexer.lex, Lex.Lexer.lexFrom_char hc, hmode]
  rfl

/-- A line with a label in front of it defines one more symbol. -/
theorem defines_label (hs : assembler.IsToken s) (l : Line) :
    defines (s ++ ": ".toList ++ l) = s :: defines l := by
  rw [defines, List.append_assoc, show ": ".toList ++ l = ':' :: ' ' :: l from rfl,
    symbols_token_cons hs rfl rfl, symbols_cons rfl rfl]
  rfl

/-- A line without a symbol that begins with `w` defines no such symbol. -/
theorem not_mem_defines (h : Clean w false l) (hs : w <+: s) : s ∉ defines l := by
  intro hmem
  obtain ⟨item, hitem, heq⟩ := List.mem_filterMap.mp hmem
  split at heq
  · obtain rfl := Option.some.inj heq
    exact h.not_prefix hitem hs
  · cases heq

/-- The symbols of a line of a table. -/
theorem symbols_tableLine {a b : Line} (ha : assembler.IsToken a) (hb : assembler.IsToken b) :
    symbols (tableLine a b) =
      [.char ' ', .char ' ', .token .code ".quad".toList (some ' '), .char ' ',
        .token .code a (some ','), .char ',', .char ' ', .token .code b (some '\n'),
        .char '\n'] := by
  have hquad : assembler.IsToken ".quad".toList :=
    ⟨'.', "quad".toList, by decide, by decide, List.all_eq_true.mp (by decide)⟩
  have hline : tableLine a b =
      ' ' :: ' ' :: (".quad".toList ++ ' ' :: (a ++ ',' :: ' ' :: (b ++ ['\n']))) := by
    show "  .quad ".toList ++ a ++ ", ".toList ++ b ++ "\n".toList = _
    simp
  rw [hline, symbols_cons rfl rfl, symbols_cons rfl rfl, symbols_token_cons hquad rfl rfl,
    symbols_token_cons ha rfl rfl, symbols_cons rfl rfl, symbols_token_cons hb rfl rfl]
  rfl

/-- A line of a table defines nothing. -/
theorem defines_tableLine {a b : Line} (ha : assembler.IsToken a) (hb : assembler.IsToken b) :
    defines (tableLine a b) = [] := by
  rw [defines, symbols_tableLine ha hb]
  rfl

/-- A line of a table has the two words that it is made of. -/
theorem quads_tableLine {a b : Line} (ha : assembler.IsToken a) (hb : assembler.IsToken b) :
    quads (tableLine a b) = [a, b] := by
  have huses : uses (tableLine a b) = [".quad".toList, a, b] := by
    rw [uses, symbols_tableLine ha hb]
    rfl
  rw [quads, huses]
  exact if_pos rfl

/-- The line of a size, cut into its parts. -/
theorem sizeLine_eq (name : String) (size : Nat) : sizeLine name size =
    name.toList ++ ": .quad ".toList ++ Nat.toDigits 10 size ++ "\n".toList := by
  rw [sizeLine, String.toList_append, String.toList_append, String.toList_append]
  exact congrArg (fun digits => name.toList ++ ": .quad ".toList ++ digits ++ "\n".toList)
    Nat.toList_repr

/-- The symbols of the line of a size. -/
theorem symbols_sizeLine {name : String} (hname : assembler.IsToken name.toList) (size : Nat) :
    symbols (sizeLine name size) =
      [.token .code name.toList (some ':'), .char ':', .char ' ',
        .token .code ".quad".toList (some ' '), .char ' ',
        .token .code (Nat.toDigits 10 size) (some '\n'), .char '\n'] := by
  have hquad : assembler.IsToken ".quad".toList :=
    ⟨'.', "quad".toList, by decide, by decide, List.all_eq_true.mp (by decide)⟩
  -- a number has at least one digit, and digits are characters of a symbol
  have hsize : assembler.IsToken (Nat.toDigits 10 size) := by
    obtain ⟨c, digits, hdigits⟩ := List.exists_cons_of_ne_nil
      (Nat.toDigits_ne_nil (n := size) (b := 10))
    have hall : ∀ d ∈ c :: digits, isLabelChar d = true := fun d hd => digits_label (hdigits ▸ hd)
    rw [hdigits]
    exact ⟨c, digits, rfl, hall c List.mem_cons_self, fun d hd =>
      Bool.or_eq_true_iff.mpr (.inl (hall d (List.mem_cons_of_mem c hd)))⟩
  have hline : sizeLine name size = name.toList ++
      ':' :: ' ' :: (".quad".toList ++ ' ' :: (Nat.toDigits 10 size ++ ['\n'])) := by
    rw [sizeLine_eq]
    simp
  rw [hline, symbols_token_cons hname rfl rfl, symbols_cons rfl rfl,
    symbols_token_cons hquad rfl rfl, symbols_token_cons hsize rfl rfl]
  rfl

/-- The line of a size defines the symbol of the size. -/
theorem defines_sizeLine {name : String} (hname : assembler.IsToken name.toList) (size : Nat) :
    defines (sizeLine name size) = [name.toList] := by
  rw [defines, symbols_sizeLine hname size]
  rfl

/-- The line of a size has one word. -/
theorem quads_sizeLine {name : String} (hname : assembler.IsToken name.toList) (size : Nat) :
    quads (sizeLine name size) = [Nat.toDigits 10 size] := by
  have huses : uses (sizeLine name size) = [".quad".toList, Nat.toDigits 10 size] := by
    rw [uses, symbols_sizeLine hname size]
    rfl
  rw [quads, huses]
  exact if_pos rfl

/-! ### The lines that are printed -/

/-- Complete lines, in a form that can be decided for the fixed lines. -/
theorem isLine_iff : IsLine l ↔ l.getLast? = some '\n' ∧ '\n' ∉ l.dropLast := by
  constructor
  · rintro ⟨s, rfl, hs⟩
    rw [List.getLast?_concat, List.dropLast_concat]
    exact ⟨rfl, hs⟩
  · rintro ⟨hlast, hs⟩
    exact ⟨l.dropLast, (List.dropLast_append_getLast? _ hlast).symm, hs⟩

/-- A text without a newline in front of a line gives a line. -/
theorem IsLine.append (h : IsLine l) (hs : '\n' ∉ s) : IsLine (s ++ l) := by
  obtain ⟨t, rfl, ht⟩ := h
  refine ⟨s ++ t, (List.append_assoc _ _ _).symm, fun hmem => ?_⟩
  rcases List.mem_append.mp hmem with hmem | hmem
  · exact hs hmem
  · exact ht hmem

/-- A line without its newline has no newline. -/
theorem IsLine.chomp (h : IsLine l) : '\n' ∉ chomp l := by
  obtain ⟨s, rfl, hs⟩ := h
  rw [TransformPrison.chomp, if_pos (List.getLast?_concat ..), List.dropLast_concat]
  exact hs

/-- Local labels have no newline. -/
theorem IsLabel.newline (h : IsLabel lbl) : '\n' ∉ lbl := fun hmem =>
  absurd (h.isLabelChar hmem) (by decide)

/-- Symbols have no newline. -/
theorem isToken_newline (hs : assembler.IsToken s) : '\n' ∉ s := by
  obtain ⟨c, s, rfl, hc, hs⟩ := hs
  intro hmem
  rcases List.mem_cons.mp hmem with rfl | hmem
  · exact absurd hc (by decide)
  · exact absurd (hs _ hmem) (by decide)

/-- A label does not match the newline. -/
theorem length_le_of_matchLabel (hlbl : '\n' ∉ lbl) (h : matchLabel lbl (s ++ ['\n']) = true) :
    lbl.length ≤ s.length := by
  induction lbl generalizing s with
  | nil => exact Nat.zero_le _
  | cons p lbl ih =>
      cases s with
      | nil =>
          have hp : p ≠ '\n' := fun hp => hlbl (hp ▸ List.mem_cons_self)
          simp [matchLabel, hp] at h
      | cons c s =>
          rw [List.cons_append, matchLabel, Bool.and_eq_true] at h
          exact Nat.succ_le_succ (ih (fun hmem => hlbl (List.mem_cons_of_mem p hmem)) h.2)

/-- Substituting a label in a line gives a line. A label has no newline, and a
match does not extend over one, as a dot does not match it. -/
theorem isLine_substitute (hlbl : IsLabel lbl) (hs : '\n' ∉ s) {n : Nat} (hn : n ≤ s.length) :
    IsLine (substitute lbl n (s ++ ['\n'])) := by
  induction s generalizing n with
  | nil =>
      obtain rfl := Nat.le_zero.mp hn
      obtain ⟨run, rfl, -⟩ := hlbl
      exact ⟨[], by simp [substitute, matchLabel], List.not_mem_nil⟩
  | cons c s ih =>
      have hrest : '\n' ∉ s := fun hmem => hs (List.mem_cons_of_mem c hmem)
      -- `n` characters of a match are still to be copied; at 0 the label is looked for
      cases n with
      | succ n => exact ih hrest (Nat.le_of_succ_le_succ hn)
      | zero =>
          rw [List.cons_append, substitute]
          split
          · rename_i hmatch
            -- the match lies before the newline, so the induction goes on behind it
            have hlength := length_le_of_matchLabel hlbl.newline
              (show matchLabel lbl ((c :: s) ++ ['\n']) = true from hmatch)
            rw [List.length_cons] at hlength
            refine (ih hrest (by omega)).append fun hmem => ?_
            rcases List.mem_append.mp hmem with hmem | hmem
            · exact hlbl.newline hmem
            · exact absurd hmem (by decide)
          · have hc : '\n' ∉ [c] := fun hmem =>
              hs (List.mem_singleton.mp hmem ▸ List.mem_cons_self)
            exact (ih hrest (Nat.zero_le _)).append hc

/-- Substituting all of the labels in a line gives a line. -/
theorem isLine_substituteLabels (h : IsLine l) (text : List Char) :
    IsLine (substituteLabels (localLabels text) l) := by
  -- one label after the other, by induction on the labels
  have hfold : ∀ (labels : List Line), (∀ lbl ∈ labels, IsLabel lbl) → ∀ l, IsLine l →
      IsLine (labels.foldl (fun sl lbl => substitute lbl 0 sl) l) := by
    intro labels hlabels
    induction labels with
    | nil => exact fun l h => h
    | cons first labels ih =>
        rintro _ ⟨s, rfl, hs⟩
        exact ih (fun lbl h' => hlabels lbl (List.mem_cons_of_mem first h')) _
          (isLine_substitute (hlabels first List.mem_cons_self) hs (Nat.zero_le _))
  exact hfold _ (fun lbl hlbl => isLabel_of_mem_found hlbl) l h

/-- Replacing the operand of the signal check adds no newline. -/
theorem newline_replaceSignal {repl : Line} (hrepl : '\n' ∉ repl) (h : '\n' ∉ l) :
    '\n' ∉ replaceSignalBy repl l := by
  induction l with
  | nil => exact h
  | cons c l ih =>
      rw [replaceSignalBy]
      split
      · intro hmem
        rcases List.mem_append.mp hmem with hmem | hmem
        · exact hrepl hmem
        · exact h (List.mem_of_mem_drop hmem)
      · intro hmem
        rcases List.mem_cons.mp hmem with rfl | hmem
        · exact h List.mem_cons_self
        · exact ih (fun hmem => h (List.mem_cons_of_mem c hmem)) hmem

/-- The signal check of the source copy is kept on one line. -/
theorem isLine_updateSrcSignalCheck (h : IsLine l) : IsLine (updateSrcSignalCheck l) := by
  have hcomment : IsLine "  # updated src prison check to $0\n".toList :=
    isLine_iff.mpr (by decide)
  unfold updateSrcSignalCheck
  split
  · exact hcomment.append (newline_replaceSignal (by decide) h.chomp)
  · exact h

/-- The signal check of the destination copy is kept on one line. -/
theorem isLine_updateSignalCheck (h : IsLine l) : IsLine (updateSignalCheck l) := by
  have hcomment : IsLine "  # updated dst prison check to $1\n".toList :=
    isLine_iff.mpr (by decide)
  unfold updateSignalCheck
  split
  · rw [replaceSignal_eq]
    exact hcomment.append (newline_replaceSignal (by decide) h.chomp)
  · exact h

/-- The source copy of a line is a line. -/
theorem isLine_emitSrcLine (h : IsLine l) (i : Nat) : IsLine (emitSrcLine i l) := by
  refine (isLine_updateSrcSignalCheck h).append ?_
  rw [rfSrcLabel_eq]
  split
  · intro hmem
    rcases List.mem_append.mp hmem with hmem | hmem
    · exact isToken_newline (isToken_rfSrc i) hmem
    · exact absurd hmem (by decide)
  · exact List.not_mem_nil

/-- The destination copy of a line is a line, so the copies have as many lines
as the text and stand at the same distance. -/
theorem isLine_emitDstLine (h : IsLine l) (i : Nat) :
    IsLine (emitDstLine (localLabels text) i l) := by
  have hsubst := isLine_substituteLabels h text
  -- a skipped line is printed in a comment that ends with a newline of its own
  have hskipped : IsLine (skipped (substituteLabels (localLabels text) l)) := by
    have hend : IsLine "'\n".toList := isLine_iff.mpr (by decide)
    refine hend.append fun hmem => ?_
    rcases List.mem_append.mp hmem with hmem | hmem
    · exact absurd hmem (by decide)
    · exact hsubst.chomp hmem
  have hbody : IsLine (updateSignalCheck
      (if skipRegexp (substituteLabels (localLabels text) l)
        then skipped (substituteLabels (localLabels text) l)
        else substituteLabels (localLabels text) l)) := by
    refine isLine_updateSignalCheck ?_
    split
    · exact hskipped
    · exact hsubst
  -- the label in front of it has no newline
  refine hbody.append ?_
  rw [rfDstLabel_eq]
  split
  · intro hmem
    rcases List.mem_append.mp hmem with hmem | hmem
    · exact isToken_newline (isToken_rfDst i) hmem
    · exact absurd hmem (by decide)
  · exact List.not_mem_nil

/-! ### Where the labels are -/

/-- The symbols that the tables and their sizes have, by which the runtime
finds them. -/
def tableNames : List Line :=
  ["rollforward_table".toList, "rollback_table".toList, "rollforward_table_size".toList,
    "rollback_table_size".toList]

/-- The names of the tables are symbols. -/
theorem isToken_of_mem_tableNames (h : s ∈ tableNames) : assembler.IsToken s := by
  simp only [tableNames, List.mem_cons, List.not_mem_nil, or_false] at h
  rcases h with rfl | rfl | rfl | rfl <;>
    exact ⟨'r', _, rfl, by decide, List.all_eq_true.mp (by decide)⟩

/-- A line has labels exactly if it is taken for code. -/
theorem mem_emitted : i ∈ emitted text ↔
    ∃ l, (readLines text)[i]? = some l ∧ shouldEmitRfLabel l = true := by
  rw [emitted, List.mem_filterMap]
  constructor
  · rintro ⟨⟨l, j⟩, hmem, heq⟩
    dsimp only at heq
    split at heq
    · rename_i hemit
      obtain rfl := Option.some.inj heq
      exact ⟨l, List.mk_mem_zipIdx_iff_getElem?.mp hmem, hemit⟩
    · cases heq
  · rintro ⟨l, hl, hemit⟩
    exact ⟨(l, i), List.mk_mem_zipIdx_iff_getElem?.mpr hl, if_pos hemit⟩

/-- How often the copies of a line define a symbol: the label of the copy
once, if it has one, and nothing else that the text does not have. -/
theorem count_defines_copies (text : List Char) (hw : w ∈ reserved) (hl : ¬ w <:+: l)
    (hs : w <+: s) :
    ((defines (emitSrcLine i l)).count s =
      if shouldEmitRfLabel l = true ∧ s = rfSrc i then 1 else 0) ∧
    (defines (emitDstLine (localLabels text) i l)).count s =
      if shouldEmitRfLabel l = true ∧ s = rfDst i then 1 else 0 := by
  obtain ⟨hsrc, hdst⟩ := clean_copies hw hl text
  -- the same for both copies: the label in front defines one symbol, the rest none
  have hlabel : ∀ (t body : Line), assembler.IsToken t → Clean w false body →
      (defines ((if shouldEmitRfLabel l = true then t ++ ": ".toList else []) ++ body)).count s =
        if shouldEmitRfLabel l = true ∧ s = t then 1 else 0 := by
    intro t body ht hbody
    have hnone : (defines body).count s = 0 :=
      List.count_eq_zero.mpr (not_mem_defines hbody hs)
    by_cases hemit : shouldEmitRfLabel l = true
    · rw [if_pos hemit, defines_label ht, List.count_cons, hnone, Nat.zero_add]
      by_cases hst : s = t
      · rw [if_pos (beq_iff_eq.mpr hst.symm), if_pos ⟨hemit, hst⟩]
      · rw [if_neg fun h => hst (beq_iff_eq.mp h).symm, if_neg fun h => hst h.2]
    · rw [if_neg hemit, List.nil_append, hnone, if_neg fun h => hemit h.1]
  constructor
  · rw [emitSrcLine, rfSrcLabel_eq]
    exact hlabel _ _ (isToken_rfSrc i) hsrc
  · rw [show emitDstLine (localLabels text) i l = rfDstLabel i l ++ updateSignalCheck _ from rfl,
      rfDstLabel_eq]
    exact hlabel _ _ (isToken_rfDst i) hdst

/-- What the copies of a line define. -/
theorem mem_defines_copies (text : List Char) (hw : w ∈ reserved) (hl : ¬ w <:+: l)
    (hs : w <+: s) :
    (s ∈ defines (emitSrcLine i l) ↔ shouldEmitRfLabel l = true ∧ s = rfSrc i) ∧
      (s ∈ defines (emitDstLine (localLabels text) i l) ↔
        shouldEmitRfLabel l = true ∧ s = rfDst i) := by
  obtain ⟨hsrc, hdst⟩ := count_defines_copies (i := i) text hw hl hs
  rw [← List.count_pos_iff, ← List.count_pos_iff, hsrc, hdst]
  constructor <;> split <;> simp_all

/-- The line `j` defines the symbol, once or more often. -/
def DefinedAt (asm : List Line) (s : Line) (j : Nat) : Prop :=
  ∃ l, asm[j]? = some l ∧ s ∈ defines l

/-- The line that defines a symbol is in the first part or in the second one. -/
theorem definedAt_append {a b : List Line} {j : Nat} : DefinedAt (a ++ b) s j ↔
    DefinedAt a s j ∨ a.length ≤ j ∧ DefinedAt b s (j - a.length) := by
  by_cases hj : j < a.length
  · rw [DefinedAt, List.getElem?_append_left hj]
    exact ⟨.inl, fun h => h.resolve_right fun h => absurd h.1 (Nat.not_le_of_lt hj)⟩
  · rw [DefinedAt, List.getElem?_append_right (Nat.le_of_not_lt hj)]
    constructor
    · exact fun h => .inr ⟨Nat.le_of_not_lt hj, h⟩
    · rintro (⟨l, hl, -⟩ | h)
      · exact absurd (List.getElem?_eq_some_iff.mp hl).1 hj
      · exact h.2

/-- A symbol that no line defines is defined nowhere. -/
theorem not_definedAt {asm : List Line} {j : Nat} (h : ∀ l ∈ asm, s ∉ defines l) :
    ¬ DefinedAt asm s j := fun ⟨l, hl, hs⟩ => h l (List.mem_of_getElem? hl) hs

/-- A symbol that one line defines, and that no line defines twice, is defined
once. It takes what is known line by line to the whole text. -/
theorem count_defines_eq_one {asm : List Line} {j : Nat} (hat : ∀ k, DefinedAt asm s k ↔ k = j)
    (hle : ∀ l ∈ asm, (defines l).count s ≤ 1) : (asm.flatMap defines).count s = 1 := by
  induction asm generalizing j with
  | nil =>
      obtain ⟨l, hl, -⟩ := (hat j).mpr rfl
      cases hl
  | cons l asm ih =>
      rw [List.flatMap_cons, List.count_append]
      cases j with
      | zero =>
          -- No line after this one defines the symbol.
          obtain ⟨_, hl, hmem⟩ := (hat 0).mpr rfl
          obtain rfl := Option.some.inj hl
          have hrest : (asm.flatMap defines).count s = 0 := by
            refine List.count_eq_zero.mpr fun hin => ?_
            obtain ⟨l', hl', hs⟩ := List.mem_flatMap.mp hin
            obtain ⟨k, hk⟩ := List.mem_iff_getElem?.mp hl'
            exact absurd ((hat (k + 1)).mp ⟨l', hk, hs⟩) (Nat.succ_ne_zero k)
          have hone := hle l List.mem_cons_self
          have hpos := List.count_pos_iff.mpr hmem
          omega
      | succ j =>
          have hfirst : (defines l).count s = 0 := List.count_eq_zero.mpr fun hmem =>
            absurd ((hat 0).mp ⟨l, rfl, hmem⟩) (Nat.succ_ne_zero j).symm
          rw [hfirst, Nat.zero_add]
          refine ih (j := j) (fun k => ?_) fun l' hl' => hle l' (List.mem_cons_of_mem _ hl')
          exact (hat (k + 1)).trans Nat.succ_inj

section

variable (htext : ∀ w ∈ reserved, ¬ w <:+: text) (hw : w ∈ reserved)

include htext hw

/-- In each copy the labels are defined at the lines with code and nowhere
else. -/
theorem definedAt_copies (hs : w <+: s) (j : Nat) :
    (DefinedAt (source text) s j ↔ j ∈ emitted text ∧ s = rfSrc j) ∧
      (DefinedAt (destination text) s j ↔ j ∈ emitted text ∧ s = rfDst j) := by
  have hline : ∀ l, (readLines text)[j]? = some l → ¬ w <:+: l := fun l hl hin =>
    htext w hw (hin.trans (infix_of_mem_readLines (List.mem_of_getElem? hl)))
  rw [DefinedAt, DefinedAt, source, destination, List.getElem?_mapIdx, List.getElem?_mapIdx,
    mem_emitted]
  cases hl : (readLines text)[j]? with
  | none => simp
  | some l =>
      obtain ⟨hsrc, hdst⟩ := mem_defines_copies (i := j) text hw (hline l hl) hs
      simp only [Option.map_some, Option.some.injEq, exists_eq_left', hsrc, hdst, and_self]

/-- The copies do not define a table. -/
theorem not_mem_defines_copies (hs : w <+: s) (hname : s ∈ tableNames) :
    ∀ l ∈ source text ++ beforeDestination ++ destination text, s ∉ defines l := by
  intro l hl hmem
  -- the names of the tables begin with `r`, the labels of the copies with `__RF_`
  have hne : ∀ j, s ≠ rfSrc j ∧ s ≠ rfDst j := by
    have hhead : s.head? = some 'r' := by
      simp only [tableNames, List.mem_cons, List.not_mem_nil, or_false] at hname
      rcases hname with rfl | rfl | rfl | rfl <;> decide
    refine fun j => ⟨fun heq => ?_, fun heq => ?_⟩
    · rw [heq, rfSrc_eq, List.head?_append_of_ne_nil _ (by decide)] at hhead
      exact absurd hhead (by decide)
    · rw [heq, rfDst_eq, List.head?_append_of_ne_nil _ (by decide)] at hhead
      exact absurd hhead (by decide)
  rcases List.mem_append.mp hl with hl | hl
  · rcases List.mem_append.mp hl with hl | hl
    · obtain ⟨j, hj⟩ := List.mem_iff_getElem?.mp hl
      exact (hne j).1 ((definedAt_copies htext hw hs j).1.mp ⟨l, hj, hmem⟩).2
    · have hnone : ∀ l ∈ beforeDestination, defines l = [] := by decide
      rw [hnone l hl] at hmem
      cases hmem
  · obtain ⟨j, hj⟩ := List.mem_iff_getElem?.mp hl
    exact (hne j).2 ((definedAt_copies htext hw hs j).2.mp ⟨l, hj, hmem⟩).2

end

/-- The lines after the copies that are always the same. -/
def fixedLines : List Line :=
  beforeTables ++ betweenTables ++ beforeSizes ++
    [".globl rollback_table_size\n".toList, "rollforward_table:\n".toList,
      "rollback_table:\n".toList]

/-- A line after the copies is one of the fixed lines, a line of a table or
the line of a size. -/
theorem mem_tables (h : l ∈ tables text) : l ∈ fixedLines ∨
    (∃ a b, assembler.IsToken a ∧ assembler.IsToken b ∧ l = tableLine a b) ∨
    ∃ name size, name.toList ∈ tableNames ∧ l = sizeLine name size := by
  have htable : ∀ {a b : Nat → Line}, (∀ i, assembler.IsToken (a i)) →
      (∀ i, assembler.IsToken (b i)) → l ∈ (emitted text).map (fun i => tableLine (a i) (b i)) →
      ∃ a b, assembler.IsToken a ∧ assembler.IsToken b ∧ l = tableLine a b := by
    intro a b ha hb hmem
    obtain ⟨i, -, rfl⟩ := List.mem_map.mp hmem
    exact ⟨a i, b i, ha i, hb i, rfl⟩
  simp only [tables, List.mem_append, List.mem_cons, List.not_mem_nil, or_false] at h
  rcases h with (((((h | h | h) | h) | h | h) | h) | h | h | h)
  · exact .inl (by simp [fixedLines, h])
  · exact .inl (by simp [fixedLines, h])
  · exact .inr (.inl (htable isToken_rfSrc isToken_rfDst h))
  · exact .inl (by simp [fixedLines, h])
  · exact .inl (by simp [fixedLines, h])
  · exact .inr (.inl (htable isToken_rfDst isToken_rfSrc h))
  · exact .inl (by simp [fixedLines, h])
  · exact .inr (.inr ⟨_, _, by decide, h⟩)
  · exact .inl (by simp [fixedLines, h])
  · exact .inr (.inr ⟨_, _, by decide, h⟩)

/-- What stands after the copies defines the tables. -/
theorem defines_tables (h : l ∈ tables text) (hs : s ∈ defines l) : s ∈ tableNames := by
  have hfixed : ∀ l ∈ fixedLines, ∀ s ∈ defines l, s ∈ tableNames := by decide
  rcases mem_tables h with h | ⟨a, b, ha, hb, rfl⟩ | ⟨name, size, hname, rfl⟩
  · exact hfixed l h s hs
  · rw [defines_tableLine ha hb] at hs
    cases hs
  · rw [defines_sizeLine (isToken_of_mem_tableNames hname), List.mem_singleton] at hs
    exact hs ▸ hname

/-- The lines after the copies are lines. -/
theorem isLine_tables (h : l ∈ tables text) : IsLine l := by
  have hfixed : ∀ l ∈ fixedLines, l.getLast? = some '\n' ∧ '\n' ∉ l.dropLast := by decide
  have hend : IsLine "\n".toList := isLine_iff.mpr (by decide)
  rcases mem_tables h with h | ⟨a, b, ha, hb, rfl⟩ | ⟨name, size, hname, rfl⟩
  · exact isLine_iff.mpr (hfixed l h)
  · refine hend.append ?_
    have hquad : '\n' ∉ "  .quad ".toList := by decide
    have hcomma : '\n' ∉ ", ".toList := by decide
    simp only [List.mem_append, not_or]
    exact ⟨⟨⟨hquad, isToken_newline ha⟩, hcomma⟩, isToken_newline hb⟩
  · have hname := isToken_newline (isToken_of_mem_tableNames hname)
    have hquad : '\n' ∉ ": .quad ".toList := by decide
    have hsize : '\n' ∉ Nat.toDigits 10 size := fun hmem =>
      absurd (digits_label hmem) (by decide)
    rw [sizeLine_eq]
    refine hend.append ?_
    simp only [List.mem_append, not_or]
    exact ⟨⟨hname, hquad⟩, hsize⟩

/-! ### The tables -/

/-- The words after a symbol that is defined once. -/
theorem dataAt_eq {pre body rest : List Line} {name : Line} (hpre : ∀ x ∈ pre, name ∉ defines x)
    (hl : name ∈ defines l) (hbody : ∀ x ∈ body, defines x = [])
    (hrest : ∀ x, rest.head? = some x → defines x ≠ []) :
    dataAt (pre ++ (l :: body ++ rest)) name = quads l ++ body.flatMap quads := by
  -- nothing before the line defines the symbol, and the body ends where the next symbol is
  -- defined
  have hdrop : (pre ++ (l :: body ++ rest)).dropWhile (fun x => !(defines x).contains name) =
      l :: (body ++ rest) := by
    rw [List.dropWhile_append_of_pos fun x hx => by simpa using hpre x hx, List.cons_append,
      List.dropWhile_cons_of_neg (by simpa using hl)]
  have htake : (body ++ rest).takeWhile (fun x => (defines x).isEmpty) = body := by
    rw [List.takeWhile_append_of_pos fun x hx => by rw [hbody x hx]; rfl]
    cases rest with
    | nil => exact List.append_nil _
    | cons x rest =>
        rw [List.takeWhile_cons_of_neg, List.append_nil]
        exact fun hempty => hrest x rfl (List.isEmpty_iff.mp hempty)
  rw [dataAt, hdrop]
  dsimp only
  rw [htake]

/-- The lines of a table. -/
theorem tableLines {a b : Nat → Line} (ha : ∀ i, assembler.IsToken (a i))
    (hb : ∀ i, assembler.IsToken (b i)) (is : List Nat) :
    (∀ l ∈ is.map fun i => tableLine (a i) (b i), defines l = []) ∧
      (is.map fun i => tableLine (a i) (b i)).flatMap quads = is.flatMap fun i => [a i, b i] := by
  constructor
  · intro l hl
    obtain ⟨i, -, rfl⟩ := List.mem_map.mp hl
    exact defines_tableLine (ha i) (hb i)
  · rw [List.flatMap_map]
    exact List.flatMap_congr fun i _ => quads_tableLine (ha i) (hb i)

/-- Each line is printed as one. -/
theorem readLines_output (hnewline : text.getLast? = some '\n') :
    readLines (output text) = prints text := by
  refine readLines_flatten fun l hl => ?_
  have hbetween : ∀ l ∈ beforeDestination, l.getLast? = some '\n' ∧ '\n' ∉ l.dropLast := by
    decide
  rcases List.mem_append.mp hl with hl | hl
  · rcases List.mem_append.mp hl with hl | hl
    · rcases List.mem_append.mp hl with hl | hl
      · obtain ⟨i, hi, rfl⟩ := List.mem_mapIdx.mp hl
        exact isLine_emitSrcLine (isLine_of_mem_readLines hnewline (List.getElem_mem hi)) i
      · exact isLine_iff.mpr (hbetween l hl)
    · obtain ⟨i, hi, rfl⟩ := List.mem_mapIdx.mp hl
      exact isLine_emitDstLine (isLine_of_mem_readLines hnewline (List.getElem_mem hi)) i
  · exact isLine_tables hl

/-- `__RF_` is one of the words that the text does not have. -/
theorem rf_mem_reserved : "__RF_".toList ∈ reserved := List.mem_cons_self

/-- The only labels of the rollforward code are those of the copies. The text
itself has no symbol of this kind by assumption, and the tables define others.
-/
theorem definedAt_prints (htext : ∀ w ∈ reserved, ¬ w <:+: text) (hs : "__RF_".toList <+: s)
    (j : Nat) : DefinedAt (prints text) s j ↔ ∃ i ∈ emitted text,
      s = rfSrc i ∧ j = i ∨ s = rfDst i ∧ j = (readLines text).length + 3 + i := by
  have hsource : (source text).length = (readLines text).length := List.length_mapIdx
  have hdest : (destination text).length = (readLines text).length := List.length_mapIdx
  have hbefore : ∀ j, ¬ DefinedAt beforeDestination s j := by
    have hnone : ∀ l ∈ beforeDestination, defines l = [] := by decide
    refine fun j => not_definedAt fun l hl hmem => ?_
    rw [hnone l hl] at hmem
    cases hmem
  -- the lines between and after the copies define nothing with this prefix, so the label is in
  -- one of the copies, which start at line 0 and three lines after the end of the first one
  have htables : ∀ j, ¬ DefinedAt (tables text) s j := by
    have hnames : ∀ s ∈ tableNames, ¬ "__RF_".toList <+: s := by decide
    exact fun j => not_definedAt fun l hl hmem => hnames s (defines_tables hl hmem) hs
  rw [prints, definedAt_append, definedAt_append, definedAt_append,
    (definedAt_copies htext rf_mem_reserved hs j).1,
    (definedAt_copies htext rf_mem_reserved hs _).2, List.length_append, hsource,
    show beforeDestination.length = 3 from rfl]
  simp only [hbefore, htables, and_false, or_false]
  constructor
  · rintro (⟨hmem, heq⟩ | ⟨hle, hmem, heq⟩)
    · exact ⟨j, hmem, .inl ⟨heq, rfl⟩⟩
    · exact ⟨_, hmem, .inr ⟨heq, by omega⟩⟩
  · rintro ⟨i, hmem, ⟨heq, rfl⟩ | ⟨heq, rfl⟩⟩
    · exact .inl ⟨hmem, heq⟩
    · rw [Nat.add_sub_cancel_left]
      exact .inr ⟨Nat.le_add_right _ _, hmem, heq⟩

/-- No line defines one of these labels twice. -/
theorem count_defines_prints (htext : ∀ w ∈ reserved, ¬ w <:+: text) (hs : "__RF_".toList <+: s)
    (h : l ∈ prints text) : (defines l).count s ≤ 1 := by
  have hline : ∀ l ∈ readLines text, ¬ "__RF_".toList <:+: l := fun l hl hin =>
    htext _ rf_mem_reserved (hin.trans (infix_of_mem_readLines hl))
  have hzero : ∀ {l}, s ∉ defines l → (defines l).count s ≤ 1 := fun hnot =>
    (List.count_eq_zero.mpr hnot).trans_le (Nat.zero_le 1)
  rcases List.mem_append.mp h with h | h
  · rcases List.mem_append.mp h with h | h
    · rcases List.mem_append.mp h with h | h
      · obtain ⟨i, hi, rfl⟩ := List.mem_mapIdx.mp h
        rw [(count_defines_copies text rf_mem_reserved (hline _ (List.getElem_mem hi)) hs).1]
        split <;> decide
      · have hnone : ∀ l ∈ beforeDestination, defines l = [] := by decide
        exact hzero (hnone l h ▸ List.not_mem_nil)
    · obtain ⟨i, hi, rfl⟩ := List.mem_mapIdx.mp h
      rw [(count_defines_copies text rf_mem_reserved (hline _ (List.getElem_mem hi)) hs).2]
      split <;> decide
  · have hnames : ∀ s ∈ tableNames, ¬ "__RF_".toList <+: s := by decide
    exact hzero fun hmem => hnames s (defines_tables h hmem) hs

/-- Each label is defined once, over all lines that are printed. -/
theorem count_rfSrc_rfDst (htext : ∀ w ∈ reserved, ¬ w <:+: text) {i : Nat}
    (hi : i ∈ emitted text) : ((prints text).flatMap defines).count (rfSrc i) = 1 ∧
      ((prints text).flatMap defines).count (rfDst i) = 1 := by
  have hsrc : "__RF_".toList <+: rfSrc i := by
    rw [rfSrc_eq]
    exact List.IsPrefix.trans (by decide) (List.prefix_append _ _)
  have hdst : "__RF_".toList <+: rfDst i := by
    rw [rfDst_eq]
    exact List.IsPrefix.trans (by decide) (List.prefix_append _ _)
  -- A source label is defined at its line of the first copy, a destination label at the same
  -- line of the second one, behind the three lines in between.
  constructor
  · refine count_defines_eq_one (j := i) (fun k => ?_) fun l => count_defines_prints htext hsrc
    rw [definedAt_prints htext hsrc]
    constructor
    · rintro ⟨i', -, ⟨heq, rfl⟩ | ⟨heq, -⟩⟩
      · exact (rfSrc_inj heq).symm
      · exact absurd heq (rfSrc_ne_rfDst _ _)
    · rintro rfl
      exact ⟨k, hi, .inl ⟨rfl, rfl⟩⟩
  · refine count_defines_eq_one (j := (readLines text).length + 3 + i) (fun k => ?_) fun l =>
      count_defines_prints htext hdst
    rw [definedAt_prints htext hdst]
    constructor
    · rintro ⟨i', -, ⟨heq, -⟩ | ⟨heq, rfl⟩⟩
      · exact absurd heq.symm (rfSrc_ne_rfDst _ _)
      · rw [rfDst_inj heq]
    · rintro rfl
      exact ⟨i, hi, .inr ⟨rfl, rfl⟩⟩

/-- The copies of line `i` are at line `i` and at the same distance after it
for every line. -/
theorem getElem?_prints {i : Nat} (h : (readLines text)[i]? = some l) :
    (prints text)[i]? = some (emitSrcLine i l) ∧
      (prints text)[(readLines text).length + 3 + i]? =
        some (emitDstLine (localLabels text) i l) := by
  have hi : i < (readLines text).length := (List.getElem?_eq_some_iff.mp h).1
  have hsource : (source text).length = (readLines text).length := List.length_mapIdx
  have hbefore : (source text ++ beforeDestination).length = (readLines text).length + 3 := by
    rw [List.length_append, hsource]
    rfl
  have hdest : (destination text).length = (readLines text).length := List.length_mapIdx
  -- the source copy comes first; before the destination copy there are the source copy and three
  -- more lines
  constructor
  · rw [prints, List.append_assoc, List.append_assoc, List.getElem?_append_left (hsource ▸ hi),
      source, List.getElem?_mapIdx, h]
    rfl
  · rw [prints, List.getElem?_append_left (by rw [List.length_append, hbefore, hdest]; omega),
      List.getElem?_append_right (by omega), hbefore, Nat.add_sub_cancel_left, destination,
      List.getElem?_mapIdx, h]
    rfl

/-- A line that defines one symbol, and the lines before the next one that
defines something. -/
structure DataBlock where
  name : Line
  first : Line
  body : List Line

/-- Each of the symbols has the words of its own lines, which end where the
next symbol is defined. -/
theorem dataAt_blocks {pre : List Line} {blocks : List DataBlock} {b : DataBlock}
    (hpre : ∀ x ∈ pre, b.name ∉ defines x)
    (hblocks : ∀ b ∈ blocks, defines b.first = [b.name] ∧ ∀ x ∈ b.body, defines x = [])
    (hnodup : (blocks.map DataBlock.name).Nodup) (hb : b ∈ blocks) :
    dataAt (pre ++ blocks.flatMap fun b => b.first :: b.body) b.name =
      quads b.first ++ b.body.flatMap quads := by
  -- The blocks are cut at the one that is looked for: those before it define other names, and
  -- the next one after it ends its words.
  obtain ⟨before, after, rfl⟩ := List.append_of_mem hb
  rw [List.map_append, List.map_cons, List.nodup_append] at hnodup
  have hsplit : pre ++ (before ++ b :: after).flatMap (fun b => b.first :: b.body) =
      (pre ++ before.flatMap fun b => b.first :: b.body) ++
        (b.first :: b.body ++ after.flatMap fun b => b.first :: b.body) := by
    simp
  rw [hsplit]
  refine dataAt_eq (fun x hx => ?_) ?_ (hblocks b hb).2 fun x hx => ?_
  · rcases List.mem_append.mp hx with hx | hx
    · exact hpre x hx
    · obtain ⟨b', hb', hx⟩ := List.mem_flatMap.mp hx
      obtain ⟨hfirst, hbody⟩ := hblocks b' (List.mem_append_left _ hb')
      rcases List.mem_cons.mp hx with rfl | hx
      · rw [hfirst, List.mem_singleton]
        exact fun heq => hnodup.2.2 b'.name (List.mem_map_of_mem hb') b.name
          List.mem_cons_self heq.symm
      · rw [hbody x hx]
        exact List.not_mem_nil
  · rw [(hblocks b hb).1]
    exact List.mem_singleton_self _
  · cases after with
    | nil => cases hx
    | cons b' after =>
        obtain rfl := Option.some.inj hx
        rw [(hblocks b' (by simp)).1]
        exact List.cons_ne_nil _ _

/-- The tables and their sizes. -/
def dataBlocks (text : List Char) : List DataBlock :=
  [⟨"rollforward_table".toList, "rollforward_table:\n".toList,
      ((emitted text).map fun i => tableLine (rfSrc i) (rfDst i)) ++ betweenTables⟩,
    ⟨"rollback_table".toList, "rollback_table:\n".toList,
      ((emitted text).map fun i => tableLine (rfDst i) (rfSrc i)) ++ beforeSizes⟩,
    ⟨"rollforward_table_size".toList, sizeLine "rollforward_table_size" (emitted text).length,
      [".globl rollback_table_size\n".toList]⟩,
    ⟨"rollback_table_size".toList, sizeLine "rollback_table_size" (emitted text).length, []⟩]

/-- What stands after the copies is made of the blocks. -/
theorem tables_eq (text : List Char) :
    tables text = beforeTables ++ (dataBlocks text).flatMap fun b => b.first :: b.body := by
  simp [tables, dataBlocks]

/-- Each block defines its own name, on its first line only. -/
theorem defines_dataBlocks (text : List Char) : ∀ b ∈ dataBlocks text,
    defines b.first = [b.name] ∧ ∀ x ∈ b.body, defines x = [] := by
  have hfixed : ∀ l ∈ betweenTables ++ beforeSizes ++ [".globl rollback_table_size\n".toList],
      defines l = [] := by decide
  have htable : defines "rollforward_table:\n".toList = ["rollforward_table".toList] ∧
      defines "rollback_table:\n".toList = ["rollback_table".toList] := by decide
  have hforward := (tableLines isToken_rfSrc isToken_rfDst (emitted text)).1
  have hback := (tableLines isToken_rfDst isToken_rfSrc (emitted text)).1
  intro b hb
  simp only [dataBlocks, List.mem_cons, List.not_mem_nil, or_false] at hb
  -- the two tables, then the two sizes
  rcases hb with rfl | rfl | rfl | rfl
  · refine ⟨htable.1, fun x hx => ?_⟩
    rcases List.mem_append.mp hx with hx | hx
    · exact hforward x hx
    · exact hfixed x (by simp [hx])
  · refine ⟨htable.2, fun x hx => ?_⟩
    rcases List.mem_append.mp hx with hx | hx
    · exact hback x hx
    · exact hfixed x (by simp [hx])
  · exact ⟨defines_sizeLine (isToken_of_mem_tableNames (by decide)) _,
      fun x hx => hfixed x (List.mem_append_right _ hx)⟩
  · exact ⟨defines_sizeLine (isToken_of_mem_tableNames (by decide)) _,
      fun x hx => absurd hx List.not_mem_nil⟩

/-- What the assembler finds at the symbols. -/
theorem dataAt_prints (htext : ∀ w ∈ reserved, ¬ w <:+: text) {b : DataBlock}
    (hb : b ∈ dataBlocks text) :
    dataAt (prints text) b.name = quads b.first ++ b.body.flatMap quads := by
  have hnames : (dataBlocks text).map DataBlock.name = tableNames := rfl
  have hname : b.name ∈ tableNames := hnames ▸ List.mem_map_of_mem hb
  -- the names of the tables are reserved, so the copies do not define them
  obtain ⟨w, hw, hpre⟩ : ∃ w ∈ reserved, w <+: b.name := by
    revert hname
    generalize b.name = s
    revert s
    decide
  have hbefore : ∀ l ∈ beforeTables, defines l = [] := by decide
  rw [prints, tables_eq, ← List.append_assoc]
  refine dataAt_blocks (fun x hx => ?_) (defines_dataBlocks text) ?_ hb
  · rcases List.mem_append.mp hx with hx | hx
    · exact not_mem_defines_copies htext hw hpre hname x hx
    · rw [hbefore x hx]
      exact List.not_mem_nil
  · rw [hnames]
    decide

/-- The output of the script, as the assembler reads it. The copies of each
line stand at the same distance. The labels `__RF_SRC_i` and `__RF_DST_i` are
defined for each line with code, at its two copies and nowhere else, there are
no other labels of this kind, and none of these is defined twice. The two
tables pair these labels, in one order and in the other, and their sizes are
the number of lines with code. -/
theorem rollforward_tables (hnewline : text.getLast? = some '\n')
    (htext : ∀ w ∈ reserved, ¬ w <:+: text) :
    (∀ i l, (readLines text)[i]? = some l →
      (readLines (output text))[i]? = some (emitSrcLine i l) ∧
      (readLines (output text))[(readLines text).length + 3 + i]? =
        some (emitDstLine (localLabels text) i l)) ∧
    (∀ s j, "__RF_".toList <+: s → (DefinedAt (readLines (output text)) s j ↔
      ∃ i ∈ emitted text,
        s = rfSrc i ∧ j = i ∨ s = rfDst i ∧ j = (readLines text).length + 3 + i)) ∧
    (∀ i ∈ emitted text, ((readLines (output text)).flatMap defines).count (rfSrc i) = 1 ∧
      ((readLines (output text)).flatMap defines).count (rfDst i) = 1) ∧
    dataAt (readLines (output text)) "rollforward_table".toList =
      (emitted text).flatMap (fun i => [rfSrc i, rfDst i]) ∧
    dataAt (readLines (output text)) "rollback_table".toList =
      (emitted text).flatMap (fun i => [rfDst i, rfSrc i]) ∧
    dataAt (readLines (output text)) "rollforward_table_size".toList =
      [(toString (emitted text).length).toList] ∧
    dataAt (readLines (output text)) "rollback_table_size".toList =
      [(toString (emitted text).length).toList] := by
  have hsize : ∀ name : String, name.toList ∈ tableNames →
      quads (sizeLine name (emitted text).length) = [(toString (emitted text).length).toList] :=
    fun name hname => (quads_sizeLine (isToken_of_mem_tableNames hname) _).trans
      (congrArg (fun digits => [digits]) Nat.toList_repr.symm)
  have hfixed : quads "rollforward_table:\n".toList = [] ∧ quads "rollback_table:\n".toList = [] ∧
      betweenTables.flatMap quads = [] ∧ beforeSizes.flatMap quads = [] ∧
      [".globl rollback_table_size\n".toList].flatMap quads = [] := by decide
  obtain ⟨hforward, hback, hbetween, hsizes, hglobl⟩ := hfixed
  -- from here on the lines are those of `prints`; the four symbols are read block by block
  rw [readLines_output hnewline]
  refine ⟨fun i l h => getElem?_prints h, fun s j hs => definedAt_prints htext hs j,
    fun i hi => count_rfSrc_rfDst htext hi, ?_, ?_, ?_, ?_⟩
  · refine (dataAt_prints htext List.mem_cons_self).trans ?_
    rw [hforward, List.flatMap_append, hbetween, List.append_nil, List.nil_append,
      (tableLines isToken_rfSrc isToken_rfDst (emitted text)).2]
  · refine (dataAt_prints htext (List.mem_cons_of_mem _ List.mem_cons_self)).trans ?_
    rw [hback, List.flatMap_append, hsizes, List.append_nil, List.nil_append,
      (tableLines isToken_rfDst isToken_rfSrc (emitted text)).2]
  · refine (dataAt_prints htext (List.mem_cons_of_mem _ (List.mem_cons_of_mem _
      List.mem_cons_self))).trans ?_
    rw [hglobl, List.append_nil, hsize _ (by decide)]
  · refine (dataAt_prints htext (List.mem_cons_of_mem _ (List.mem_cons_of_mem _
      (List.mem_cons_of_mem _ List.mem_cons_self)))).trans ?_
    rw [List.flatMap_nil, List.append_nil, hsize _ (by decide)]

/-- A loop. -/
def countDown : List Char :=
  "main:\n\tmovl\t$10, %eax\n.L2:\n\tsubl\t$1, %eax\n\tjne\t.L2\n\tret\n".toList

/-- The four lines with code are in the table, in their order. -/
theorem rollforward_tables_countDown :
    dataAt (readLines (output countDown)) "rollforward_table".toList =
      ["__RF_SRC_1".toList, "__RF_DST_1".toList, "__RF_SRC_3".toList, "__RF_DST_3".toList,
        "__RF_SRC_4".toList, "__RF_DST_4".toList, "__RF_SRC_5".toList, "__RF_DST_5".toList] := by
  have hemitted : emitted countDown = [1, 3, 4, 5] := by decide
  rw [(@rollforward_tables countDown (by decide) (by decide)).2.2.2.1, hemitted]
  decide

end HeartbeatCompiler.TransformPrison
