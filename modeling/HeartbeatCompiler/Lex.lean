import Mathlib.Data.List.Basic

/-!
# `HeartbeatCompiler.Lex`: the tokens of a text

A token is a longest run of characters of one class that begins with a character of another
class. A mode is kept along the text (in a string, say), and each token has the mode in which
it begins. `mapTokens` rewrites the tokens and keeps everything else. If tokens are rewritten
to tokens, the result has the new tokens at the same places (`lex_mapTokens`), so that
rewritings compose and can be compared token by token.
-/

set_option autoImplicit false

namespace Lex

variable {α σ : Type}

/-- How a text is cut. A token begins with a `start` character and goes on
with `part` characters. What is between tokens changes the mode by `next`,
character by character, and a token takes the mode `m` to `settle m`. -/
structure Lexer (α σ : Type) where
  start : α → Bool
  part : α → Bool
  next : σ → α → σ
  settle : σ → σ

/-- A token with the mode in which it begins and the character after it, or a
character that is in no token. The items of a text in their order are the
text. -/
inductive Item (α σ : Type) where
  | token (mode : σ) (text : List α) (next : Option α)
  | char (c : α)

/-- Rewrites the text of a token and leaves the rest of the item, so its mode
and the character after it are those of the text it was cut from. -/
def Item.map (g : σ → List α → List α) : Item α σ → Item α σ
  | token mode text next => .token mode (g mode text) next
  | char c => .char c

/-- The text of an item, with the tokens rewritten. -/
def Item.render (g : σ → List α → List α) : Item α σ → List α
  | token mode text _ => g mode text
  | char c => [c]

namespace Lexer

variable (L : Lexer α σ)

/-- The character begins a token, or goes on with the one that is open. -/
def goesOn (current : List α) (c : α) : Bool :=
  if current.isEmpty then L.start c else L.part c

/-- The mode after what is open is closed. -/
def after (mode : σ) (current : List α) : σ :=
  if current.isEmpty then mode else L.settle mode

/-- The token that is open, if one is, with the character that comes next. -/
def close (mode : σ) (current : List α) (next : Option α) : List (Item α σ) :=
  if current.isEmpty then [] else [.token mode current next]

/-- The items of a text of which `current` is open. A token is as long as
possible. -/
def lexFrom : σ → List α → List α → List (Item α σ)
  | mode, current, [] => close mode current none
  | mode, current, c :: text =>
    if L.goesOn current c then lexFrom mode (current ++ [c]) text
    else close mode current (some c) ++
      .char c :: lexFrom (L.next (L.after mode current) c) [] text

/-- The items of a text. -/
def lex (mode : σ) (text : List α) : List (Item α σ) := L.lexFrom mode [] text

/-- The text with its tokens rewritten; everything between them is kept, and
`g` sees the mode of each token. -/
def mapTokens (mode : σ) (g : σ → List α → List α) (text : List α) : List α :=
  (L.lex mode text).flatMap (Item.render g)

/-- A token: a character that begins one, and characters that go on with it. -/
def IsToken (s : List α) : Prop :=
  ∃ c s', s = c :: s' ∧ L.start c = true ∧ ∀ d ∈ s', L.part d = true

/-- Tokens are rewritten to tokens. Then the rewritten text is cut at the same
places. -/
def Keeps (g : σ → List α → List α) : Prop := ∀ mode s, L.IsToken s → L.IsToken (g mode s)

variable {L} {mode : σ} {current s text : List α} {c : α} {g g' : σ → List α → List α}

/-! ### One token -/

/-- Tokens are not empty. -/
theorem IsToken.ne_nil (h : L.IsToken s) : s ≠ [] := by
  obtain ⟨c, s', rfl, -⟩ := h
  exact List.cons_ne_nil c s'

/-- What is open is not empty. -/
theorem isEmpty_eq_false (h : current ≠ []) : current.isEmpty = false :=
  Bool.eq_false_iff.mpr fun hempty => h (List.isEmpty_iff.mp hempty)

/-- An open token goes on with the characters that are part of tokens. -/
theorem goesOn_of_ne_nil (h : current ≠ []) : L.goesOn current c = L.part c := by
  rw [Lexer.goesOn, isEmpty_eq_false h]
  rfl

/-- Closing a token settles the mode. -/
theorem after_of_ne_nil (h : current ≠ []) : L.after mode current = L.settle mode := by
  rw [after, isEmpty_eq_false h]
  rfl

/-- Closing what is open gives its token. -/
theorem close_of_ne_nil (h : current ≠ []) {next : Option α} :
    close mode current next = [.token mode current next] := by
  rw [close, isEmpty_eq_false h]
  rfl

/-- A token with more characters that go on with it is a token. -/
theorem IsToken.append (h : L.IsToken current) (hs : ∀ d ∈ s, L.part d = true) :
    L.IsToken (current ++ s) := by
  obtain ⟨c, s', rfl, hc, hs'⟩ := h
  refine ⟨c, s' ++ s, rfl, hc, fun d hd => ?_⟩
  rcases List.mem_append.mp hd with hd | hd
  · exact hs' d hd
  · exact hs d hd

/-- What is open stays empty or a token. -/
theorem isToken_goesOn (hcurrent : current = [] ∨ L.IsToken current)
    (hc : L.goesOn current c = true) : L.IsToken (current ++ [c]) := by
  rcases hcurrent with rfl | hcurrent
  · exact ⟨c, [], rfl, hc, fun d hd => absurd hd List.not_mem_nil⟩
  · rw [goesOn_of_ne_nil hcurrent.ne_nil] at hc
    exact hcurrent.append fun d hd => List.mem_singleton.mp hd ▸ hc

/-- Characters that go on with the open token are taken into it. -/
theorem lexFrom_part (hcurrent : current ≠ []) (hs : ∀ d ∈ s, L.part d = true) :
    L.lexFrom mode current (s ++ text) = L.lexFrom mode (current ++ s) text := by
  -- each of them is put at the end of the open token
  induction s generalizing current with
  | nil => rw [List.nil_append, List.append_nil]
  | cons c s ih =>
      have hc : L.goesOn current c = true := by
        rw [goesOn_of_ne_nil hcurrent]
        exact hs c List.mem_cons_self
      rw [List.cons_append, lexFrom, if_pos hc,
        ih (List.append_ne_nil_of_right_ne_nil _ (List.cons_ne_nil c []))
          fun d hd => hs d (List.mem_cons_of_mem c hd), List.append_assoc, List.singleton_append]

/-- A token is read to its end. -/
theorem lexFrom_token (hs : L.IsToken s) :
    L.lexFrom mode [] (s ++ text) = L.lexFrom mode s text := by
  obtain ⟨c, s', rfl, hc, hs'⟩ := hs
  rw [List.cons_append, lexFrom, if_pos (show L.goesOn [] c = true from hc), List.nil_append,
    lexFrom_part (List.cons_ne_nil c []) hs']
  rfl

/-- A token before a character that is not part of it. -/
theorem lexFrom_token_cons (hs : L.IsToken s) (hc : L.part c = false) :
    L.lexFrom mode [] (s ++ c :: text) =
      .token mode s (some c) :: .char c :: L.lexFrom (L.next (L.settle mode) c) [] text := by
  have hclosed : ¬ L.goesOn s c = true := by
    rw [goesOn_of_ne_nil hs.ne_nil, hc]
    exact Bool.false_ne_true
  rw [lexFrom_token hs, lexFrom, if_neg hclosed, close_of_ne_nil hs.ne_nil,
    after_of_ne_nil hs.ne_nil]
  rfl

/-- A character that begins no token. -/
theorem lexFrom_char (hc : L.start c = false) :
    L.lexFrom mode [] (c :: text) = .char c :: L.lexFrom (L.next mode c) [] text := by
  have hclosed : ¬ L.goesOn [] c = true := by
    rw [show L.goesOn [] c = L.start c from rfl, hc]
    exact Bool.false_ne_true
  rw [lexFrom, if_neg hclosed]
  rfl

/-! ### Whole texts -/

/-- The items of a text, one after the other, are the text. -/
theorem flatMap_render_lexFrom :
    (L.lexFrom mode current text).flatMap (Item.render fun _ s => s) = current ++ text := by
  -- closing the open token prints it, or nothing if there is none
  have hclose : ∀ (mode : σ) (current : List α) (next : Option α),
      (close mode current next).flatMap (Item.render fun _ s => s) = current := by
    intro mode current next
    unfold close
    split
    · rename_i hempty
      exact (List.isEmpty_iff.mp hempty).symm
    · exact List.flatMap_singleton _ _
  induction text generalizing mode current with
  | nil => rw [lexFrom, hclose, List.append_nil]
  | cons c text ih =>
      rw [lexFrom]
      split
      · rw [ih, List.append_assoc, List.singleton_append]
      · rw [List.flatMap_append, hclose, List.flatMap_cons, ih]
        rfl

/-- Rewriting nothing keeps the text. -/
theorem mapTokens_id : L.mapTokens mode (fun _ s => s) text = text :=
  flatMap_render_lexFrom

/-- The items are tokens, if what is open is empty or a token. -/
theorem isToken_of_mem_lexFrom (hcurrent : current = [] ∨ L.IsToken current) {m : σ}
    {next : Option α} (h : Item.token m s next ∈ L.lexFrom mode current text) : L.IsToken s := by
  have hclose : ∀ {mode : σ} {current : List α} {next' : Option α},
      (current = [] ∨ L.IsToken current) → Item.token m s next ∈ close mode current next' →
      L.IsToken s := by
    rintro mode current next' (rfl | hcurrent) h
    · cases h
    · rw [close_of_ne_nil hcurrent.ne_nil, List.mem_singleton, Item.token.injEq] at h
      exact h.2.1 ▸ hcurrent
  -- the open part stays empty or a token, and it is closed as such
  induction text generalizing mode current with
  | nil => exact hclose hcurrent h
  | cons c text ih =>
      rw [lexFrom] at h
      split at h
      · rename_i hc
        exact ih (.inr (isToken_goesOn hcurrent hc)) h
      · rcases List.mem_append.mp h with h | h
        · exact hclose hcurrent h
        · rcases List.mem_cons.mp h with h | h
          · cases h
          · exact ih (.inl rfl) h

/-- The tokens of a text are tokens. -/
theorem isToken_of_mem {m : σ} {next : Option α} (h : Item.token m s next ∈ L.lex mode text) :
    L.IsToken s :=
  isToken_of_mem_lexFrom (.inl rfl) h

/-- The rewritten text is cut at the same places. So what holds of the tokens
of a text can be said of those of the rewritten one, token by token. -/
theorem lexFrom_render (hg : L.Keeps g) (hcurrent : current = [] ∨ L.IsToken current) :
    L.lexFrom mode [] ((L.lexFrom mode current text).flatMap (Item.render g)) =
      (L.lexFrom mode current text).map (Item.map g) := by
  -- Along the original text. While the open token goes on, nothing is rendered; when it is
  -- closed, the rewritten token is read in one go, and the character after it closes it as
  -- before, since that character is no part of any token.
  induction text generalizing mode current with
  | nil =>
      rcases hcurrent with rfl | hcurrent
      · rfl
      · have ht := hg mode current hcurrent
        have htoken : L.lexFrom mode [] (g mode current ++ []) =
            L.lexFrom mode (g mode current) [] :=
          lexFrom_token ht
        rw [lexFrom, close_of_ne_nil hcurrent.ne_nil, List.flatMap_singleton, Item.render,
          ← List.append_nil (g mode current), htoken, lexFrom, close_of_ne_nil ht.ne_nil]
        rfl
  | cons c text ih =>
      rw [lexFrom]
      split
      · rename_i hc
        exact ih (.inr (isToken_goesOn hcurrent hc))
      · rename_i hc
        rcases hcurrent with rfl | hcurrent
        · -- nothing is open, so the character stands alone in both texts
          rw [show close mode ([] : List α) (some c) = [] from rfl, List.nil_append,
            List.flatMap_cons, List.map_cons, Item.render, List.singleton_append, lexFrom,
            if_neg hc, ih (.inl rfl)]
          rfl
        · have ht := hg mode current hcurrent
          have hclosed : ¬ L.goesOn (g mode current) c = true := by
            rwa [goesOn_of_ne_nil ht.ne_nil, ← goesOn_of_ne_nil hcurrent.ne_nil]
          have hafter : L.after mode (g mode current) = L.after mode current := by
            rw [after_of_ne_nil ht.ne_nil, after_of_ne_nil hcurrent.ne_nil]
          rw [close_of_ne_nil hcurrent.ne_nil, List.singleton_append, List.flatMap_cons,
            List.flatMap_cons, List.map_cons, List.map_cons, Item.render, Item.render,
            List.singleton_append, lexFrom_token ht, lexFrom, if_neg hclosed,
            close_of_ne_nil ht.ne_nil, hafter, ih (.inl rfl)]
          rfl

/-- The rewritten text has the rewritten tokens. -/
theorem lex_mapTokens (hg : L.Keeps g) :
    L.lex mode (L.mapTokens mode g text) = (L.lex mode text).map (Item.map g) :=
  lexFrom_render hg (.inl rfl)

/-- Two rewritings, one after the other, are one. -/
theorem mapTokens_mapTokens (hg : L.Keeps g) :
    L.mapTokens mode g' (L.mapTokens mode g text) =
      L.mapTokens mode (fun m s => g' m (g m s)) text := by
  rw [mapTokens, lex_mapTokens hg, List.flatMap_map, mapTokens]
  congr 1
  funext item
  cases item <;> rfl

/-- Only what the rewritings do on the tokens of the text matters. -/
theorem mapTokens_congr
    (h : ∀ m s next, Item.token m s next ∈ L.lex mode text → g m s = g' m s) :
    L.mapTokens mode g text = L.mapTokens mode g' text := by
  refine List.flatMap_congr fun item hitem => ?_
  cases item with
  | token m s next => exact h m s next hitem
  | char c => rfl

/-- Two rewritings that give the same text rewrite each token in the same way.
-/
theorem eq_of_mapTokens_eq (hg : L.Keeps g) (hg' : L.Keeps g')
    (h : L.mapTokens mode g text = L.mapTokens mode g' text) {m : σ} {next : Option α}
    (hs : Item.token m s next ∈ L.lex mode text) : g m s = g' m s := by
  -- the rewritten tokens can be read off the texts
  have hitems := congrArg (L.lex mode) h
  rw [lex_mapTokens hg, lex_mapTokens hg', List.map_inj_left] at hitems
  exact (Item.token.inj (hitems _ hs)).2.1

end Lexer

end Lex
