import Velr.Query.Scanners

/-!
# Splitting and normalising a query

The scanners of `main.rs` agree (`scanners_agree`). A lexeme that is followed by another reads the
same when the text is cut behind it (`Lexed.cut`), so the lexemes of a statement are those it has in
the query; whitespace behind a text at most makes its last lexeme longer (`tokens_append_spaces`),
so the statements do not depend on what trimming takes away.
-/

namespace Velr.Query

open StrSlice
open Whitespace (isWhitespace trim trimEnd trimStart)

variable {query text rest rest' ws : List Char} {c : Char} {t : Token} {ts a b : List Token}

/-! ## Cutting a text behind a lexeme -/

/-- The lexeme at a character is determined. -/
theorem Lexed.eq (h : Lexed c text t rest) : lexeme c text = (t, rest) := by
  cases h with
  | line text => rfl
  | block text => rfl
  | space text hspace =>
      unfold lexeme
      split
      · cases hspace
      · cases hspace
      · rw [if_pos hspace]
  | semicolon text => rfl
  | quoted text hquote => rcases hquote with rfl | rfl <;> rfl
  | escaped text => rfl
  | plain hline hblock hspace hsemicolon hquote hescape =>
      unfold lexeme
      split
      · cases hline
      · cases hblock
      · rw [if_neg (by rw [hspace]; decide), if_neg hsemicolon, if_neg hquote, if_neg hescape]

/-- A line comment reads the same when the text is cut behind it. -/
theorem lineSpan_cut (h : rest' <+: text.dropWhile (!isBreak ·)) :
    (text.takeWhile (!isBreak ·) ++ rest').takeWhile (!isBreak ·) =
        text.takeWhile (!isBreak ·) ∧
      (text.takeWhile (!isBreak ·) ++ rest').dropWhile (!isBreak ·) = rest' := by
  have hpos : ∀ d ∈ text.takeWhile (!isBreak ·), (!isBreak d) = true :=
    fun d => List.mem_takeWhile_imp
  rw [List.takeWhile_append_of_pos hpos, List.dropWhile_append_of_pos hpos]
  cases rest' with
  | nil => exact ⟨List.append_nil _, rfl⟩
  | cons d rest' =>
      obtain ⟨back, hback⟩ := h
      have hd : (!isBreak d) = false := by
        have hhead := List.head?_dropWhile_not (!isBreak ·) text
        rw [← hback] at hhead
        exact hhead
      constructor
      · rw [List.takeWhile_cons_of_neg (by rw [hd]; decide), List.append_nil]
      · rw [List.dropWhile_cons_of_neg (by rw [hd]; decide)]

/-- What is kept of a text when it is cut behind a span is a front of the text. -/
theorem kept_prefix {kept back : List Char} (happend : kept ++ back = text) (h : rest' <+: back) :
    kept ++ rest' <+: text := by
  rw [← happend]
  exact (List.prefix_append_right_inj kept).mpr h

/-- A block comment reads the same when the text is cut behind it. -/
theorem blockSpan_cut (h : rest' <+: (blockSpan text).2) :
    blockSpan ((blockSpan text).1 ++ rest') = ((blockSpan text).1, rest') := by
  fun_induction blockSpan text with
  | case1 =>
      obtain rfl := List.prefix_nil.mp h
      rfl
  | case2 text => rfl
  | case3 c text hclose ih =>
      have hkept := kept_prefix (blockSpan_append text) h
      rw [List.cons_append, blockSpan, ih h]
      intro back hc hback
      rw [hback] at hkept
      obtain ⟨more, hmore⟩ := hkept
      exact hclose _ hc hmore.symm

/-- So does a quoted string. -/
theorem quotedSpan_cut {quote : Char} (h : rest' <+: (quotedSpan quote text).2) :
    quotedSpan quote ((quotedSpan quote text).1 ++ rest') = ((quotedSpan quote text).1, rest') := by
  fun_induction quotedSpan quote text with
  | case1 =>
      obtain rfl := List.prefix_nil.mp h
      rfl
  | case2 c text ih => rw [List.cons_append, List.cons_append, quotedSpan, ih h]
  | case3 =>
      obtain rfl := List.prefix_nil.mp h
      rfl
  | case4 text hpair hlast =>
      have hquote := ne_backslash hpair hlast
      rw [List.cons_append, List.nil_append, quotedSpan, if_pos rfl]
      · exact fun _ _ hback => absurd hback hquote
      · exact fun hback => absurd hback hquote
  | case5 c text hpair hlast hc ih =>
      have hplain := ne_backslash hpair hlast
      rw [List.cons_append, quotedSpan, if_neg hc, ih h]
      · exact fun _ _ hback => absurd hback hplain
      · exact fun hback => absurd hback hplain

/-- So does an escaped identifier. -/
theorem escapedSpan_cut (h : rest' <+: (escapedSpan text).2) :
    escapedSpan ((escapedSpan text).1 ++ rest') = ((escapedSpan text).1, rest') := by
  fun_induction escapedSpan text with
  | case1 =>
      obtain rfl := List.prefix_nil.mp h
      rfl
  | case2 text ih => rw [List.cons_append, List.cons_append, escapedSpan, ih h]
  | case3 text hpair =>
      rw [List.cons_append, List.nil_append, escapedSpan]
      intro back hback
      rw [hback] at h
      obtain ⟨more, hmore⟩ := h
      exact hpair _ hmore.symm
  | case4 c text hpair hlone ih =>
      rw [List.cons_append, escapedSpan, ih h]
      · exact fun _ hc _ => hlone hc
      · exact fun hc => hlone hc

/-- A text that does not begin with a pattern does not when it is cut. -/
theorem isPrefixOf_kept {pattern : List Char} (h : rest' <+: text)
    (hother : pattern.isPrefixOf (c :: text) = false) :
    pattern.isPrefixOf (c :: rest') = false := by
  rw [Bool.eq_false_iff] at hother ⊢
  intro hprefix
  have hfront : pattern <+: c :: rest' := List.isPrefixOf_iff_prefix.mp hprefix
  exact hother (List.isPrefixOf_iff_prefix.mpr
    (hfront.trans ((List.prefix_cons_inj c).mpr h)))

/-- A lexeme reads the same when the text is cut anywhere behind it. -/
theorem Lexed.cut (h : Lexed c text t rest) (hrest : rest' <+: rest) :
    ∃ tail, t.text = c :: tail ∧ lexeme c (tail ++ rest') = (t, rest') := by
  cases h with
  | line text =>
      obtain ⟨htake, hdrop⟩ := lineSpan_cut hrest
      refine ⟨'/' :: text.takeWhile (!isBreak ·), rfl, ?_⟩
      rw [List.cons_append, (Lexed.line _).eq, htake, hdrop]
  | block text =>
      refine ⟨'*' :: (blockSpan text).1, rfl, ?_⟩
      rw [List.cons_append, (Lexed.block _).eq, blockSpan_cut hrest]
  | space text hspace => exact ⟨[], rfl, (Lexed.space rest' hspace).eq⟩
  | semicolon text => exact ⟨[], rfl, rfl⟩
  | quoted text hquote =>
      refine ⟨(quotedSpan c text).1, rfl, ?_⟩
      rw [(Lexed.quoted _ hquote).eq, quotedSpan_cut hrest]
  | escaped text =>
      refine ⟨(escapedSpan text).1, rfl, ?_⟩
      rw [(Lexed.escaped _).eq, escapedSpan_cut hrest]
  | plain hline hblock hspace hsemicolon hquote hescape =>
      exact ⟨[], rfl, (Lexed.plain (isPrefixOf_kept hrest hline) (isPrefixOf_kept hrest hblock)
        hspace hsemicolon hquote hescape).eq⟩

theorem textOf_cons (t : Token) (ts : List Token) : textOf (t :: ts) = t.text ++ textOf ts :=
  List.flatMap_cons

theorem textOf_append (a b : List Token) : textOf (a ++ b) = textOf a ++ textOf b :=
  List.flatMap_append

theorem textOf_concat (ts : List Token) (t : Token) : textOf (ts ++ [t]) = textOf ts ++ t.text := by
  rw [textOf_append, textOf_cons]
  exact congrArg _ (List.append_nil t.text)

/-- The lexemes of a query make up the query. -/
theorem textOf_tokens (query : List Char) : textOf (tokens query) = query := by
  induction query using tokens.induct with
  | case1 => rw [tokens, textOf, List.flatMap_nil]
  | case2 c text ih => rw [tokens, textOf_cons, ih, lexeme_append]

/-- Lexemes that follow others are those of their own text. -/
theorem tokens_suffix (h : tokens query = a ++ b) : tokens (textOf b) = b := by
  induction query using tokens.induct generalizing a with
  | case1 =>
      obtain ⟨-, rfl⟩ := List.append_eq_nil_iff.mp (h.symm.trans (tokens.eq_1))
      exact tokens.eq_1
  | case2 c text ih =>
      cases a with
      | nil => rw [← List.nil_append b, ← h, textOf_tokens]
      | cons t a =>
          rw [tokens, List.cons_append, List.cons.injEq] at h
          exact ih h.2

/-- The lexemes of the text behind a lexeme are the ones behind it. -/
theorem tokens_behind (h : tokens query = a ++ t :: b) : tokens (textOf b) = b :=
  @tokens_suffix query (a ++ [t]) b (by rw [h, List.append_assoc]; rfl)

/-- Lexemes that others follow are those of their own text. -/
theorem tokens_front (h : tokens query = a ++ b) : tokens (textOf a) = a := by
  induction query using tokens.induct generalizing a with
  | case1 =>
      obtain ⟨rfl, -⟩ := List.append_eq_nil_iff.mp (h.symm.trans (tokens.eq_1))
      exact tokens.eq_1
  | case2 c text ih =>
      cases a with
      | nil => exact tokens.eq_1
      | cons t a =>
          rw [tokens, List.cons_append, List.cons.injEq] at h
          have hbehind : textOf a <+: (lexeme c text).2 := by
            rw [← textOf_tokens (lexeme c text).2, h.2, textOf_append]
            exact List.prefix_append _ _
          obtain ⟨tail, htail, hcut⟩ := (lexed_lexeme c text).cut hbehind
          rw [textOf_cons, ← h.1, htail, List.cons_append, tokens, hcut, ih h.2]

/-! ## Whitespace behind a text -/

/-- A span of a text, and the span when there is more behind the text: it ends where it did, or it
took the whole text and goes on. -/
def Longer (ws : List Char) (span span' : List Char × List Char) : Prop :=
  span' = (span.1, span.2 ++ ws) ∨
    span.2 = [] ∧ ∃ more rest, ws = more ++ rest ∧ span' = (span.1 ++ more, rest)

/-- A span that may be longer stays so behind a character. -/
theorem Longer.cons {span span' : List Char × List Char} (h : Longer ws span span') (c : Char) :
    Longer ws (c :: span.1, span.2) (c :: span'.1, span'.2) := by
  rcases h with rfl | ⟨hrest, more, rest, hws, rfl⟩
  · exact .inl rfl
  · exact .inr ⟨hrest, more, rest, hws, rfl⟩

/-- Whitespace behind a text makes a line comment at its end longer. -/
theorem lineSpan_longer (text ws : List Char) :
    Longer ws (text.takeWhile (!isBreak ·), text.dropWhile (!isBreak ·))
      ((text ++ ws).takeWhile (!isBreak ·), (text ++ ws).dropWhile (!isBreak ·)) := by
  induction text with
  | nil => exact .inr ⟨rfl, _, _, List.takeWhile_append_dropWhile.symm, rfl⟩
  | cons c text ih =>
      cases hc : (!isBreak c) with
      | true =>
          simp only [List.cons_append, List.takeWhile_cons, List.dropWhile_cons, hc, if_true]
          exact ih.cons c
      | false =>
          simp only [List.cons_append, List.takeWhile_cons, List.dropWhile_cons, hc,
            Bool.false_eq_true, if_false]
          exact .inl rfl

/-- So it does a quoted string that is not closed. -/
theorem quotedSpan_longer (quote : Char) (text ws : List Char) :
    Longer ws (quotedSpan quote text) (quotedSpan quote (text ++ ws)) := by
  fun_induction quotedSpan quote text with
  | case1 => exact .inr ⟨rfl, _, _, (quotedSpan_append quote ws).symm, rfl⟩
  | case2 c text ih =>
      rw [List.cons_append, List.cons_append, quotedSpan]
      exact (ih.cons c).cons '\\'
  | case3 =>
      refine .inr ⟨rfl, ?_⟩
      cases ws with
      | nil => exact ⟨[], [], rfl, rfl⟩
      | cons c ws => exact ⟨_, _, congrArg (c :: ·) (quotedSpan_append quote ws).symm, rfl⟩
  | case4 text hpair hlast =>
      have hquote := ne_backslash hpair hlast
      rw [List.cons_append, quotedSpan, if_pos rfl]
      · exact .inl rfl
      · exact fun _ _ hback => absurd hback hquote
      · exact fun hback => absurd hback hquote
  | case5 c text hpair hlast hc ih =>
      have hplain := ne_backslash hpair hlast
      rw [List.cons_append, quotedSpan, if_neg hc]
      · exact ih.cons c
      · exact fun _ _ hback => absurd hback hplain
      · exact fun hback => absurd hback hplain

/-- Whitespace behind a text does not make it begin with another character. -/
theorem head_spaces (hws : ∀ c ∈ ws, isWhitespace c = true) {d : Char}
    (hd : isWhitespace d = false) (h : text ++ ws = d :: rest) : ∃ back, text = d :: back := by
  cases text with
  | nil =>
      have hhead := hws d (by rw [← List.nil_append ws, h]; exact List.mem_cons_self)
      rw [hd] at hhead
      cases hhead
  | cons c text => exact ⟨text, congrArg (· :: text) (List.cons.inj h).1⟩

/-- So it does a block comment that is not closed. -/
theorem blockSpan_longer (hws : ∀ c ∈ ws, isWhitespace c = true) (text : List Char) :
    Longer ws (blockSpan text) (blockSpan (text ++ ws)) := by
  fun_induction blockSpan text with
  | case1 => exact .inr ⟨rfl, _, _, (blockSpan_append ws).symm, rfl⟩
  | case2 text => exact .inl rfl
  | case3 c text hclose ih =>
      rw [List.cons_append, blockSpan]
      · exact ih.cons c
      · intro rest hc hrest
        obtain ⟨back, hback⟩ := head_spaces hws rfl hrest
        exact hclose back hc hback

/-- So it does an escaped identifier that is not closed. -/
theorem escapedSpan_longer (hws : ∀ c ∈ ws, isWhitespace c = true) (text : List Char) :
    Longer ws (escapedSpan text) (escapedSpan (text ++ ws)) := by
  fun_induction escapedSpan text with
  | case1 => exact .inr ⟨rfl, _, _, (escapedSpan_append ws).symm, rfl⟩
  | case2 text ih =>
      rw [List.cons_append, List.cons_append, escapedSpan]
      exact (ih.cons '`').cons '`'
  | case3 text hpair =>
      rw [List.cons_append, escapedSpan]
      · exact .inl rfl
      · intro rest hrest
        obtain ⟨back, hback⟩ := head_spaces hws rfl hrest
        exact hpair back hback
  | case4 c text hpair hlone ih =>
      rw [List.cons_append, escapedSpan]
      · exact ih.cons c
      · exact fun _ hc _ => hlone hc
      · exact fun hc => hlone hc

/-- Whitespace behind a text begins no comment. -/
theorem isPrefixOf_spaces (hws : ∀ c ∈ ws, isWhitespace c = true) {d e : Char}
    (he : isWhitespace e = false) (h : [d, e].isPrefixOf (c :: text) = false) :
    [d, e].isPrefixOf (c :: (text ++ ws)) = false := by
  refine isPrefixOf_pair fun rest hc hrest => ?_
  obtain ⟨back, rfl⟩ := head_spaces hws he hrest
  rw [hc] at h
  simp at h

/-- Whitespace behind a text is behind its first lexeme too, or makes it longer where the lexeme was
the whole text. -/
theorem Lexed.longer (hws : ∀ c ∈ ws, isWhitespace c = true) (h : Lexed c text t rest) :
    lexeme c (text ++ ws) = (t, rest ++ ws) ∨
      rest = [] ∧ t.kind ≠ .semicolon ∧ ∃ more back, ws = more ++ back ∧
        lexeme c (text ++ ws) = (⟨t.kind, t.text ++ more⟩, back) := by
  cases h with
  | line text =>
      rw [List.cons_append, (Lexed.line _).eq]
      rcases lineSpan_longer text ws with hspan | ⟨hrest, more, back, hmore, hspan⟩
      · obtain ⟨hline, hback⟩ := Prod.mk.inj hspan
        rw [hline, hback]
        exact .inl rfl
      · obtain ⟨hline, hback⟩ := Prod.mk.inj hspan
        rw [hline, hback]
        exact .inr ⟨hrest, nofun, more, back, hmore, rfl⟩
  | block text =>
      rw [List.cons_append, (Lexed.block _).eq]
      rcases blockSpan_longer hws text with hspan | ⟨hrest, more, back, hmore, hspan⟩
      · rw [hspan]
        exact .inl rfl
      · rw [hspan]
        exact .inr ⟨hrest, nofun, more, back, hmore, rfl⟩
  | space text hspace => exact .inl (Lexed.space _ hspace).eq
  | semicolon text => exact .inl rfl
  | quoted text hquote =>
      rw [(Lexed.quoted _ hquote).eq]
      rcases quotedSpan_longer c text ws with hspan | ⟨hrest, more, back, hmore, hspan⟩
      · rw [hspan]
        exact .inl rfl
      · rw [hspan]
        exact .inr ⟨hrest, nofun, more, back, hmore, rfl⟩
  | escaped text =>
      rw [(Lexed.escaped _).eq]
      rcases escapedSpan_longer hws text with hspan | ⟨hrest, more, back, hmore, hspan⟩
      · rw [hspan]
        exact .inl rfl
      · rw [hspan]
        exact .inr ⟨hrest, nofun, more, back, hmore, rfl⟩
  | plain hline hblock hspace hsemicolon hquote hescape =>
      exact .inl (Lexed.plain (isPrefixOf_spaces hws rfl hline) (isPrefixOf_spaces hws rfl hblock)
        hspace hsemicolon hquote hescape).eq

/-- The lexemes of whitespace. -/
def spaces (ws : List Char) : List Token := ws.map fun c => ⟨.space, [c]⟩

/-- Whitespace in front of a text is a lexeme for each character. -/
theorem tokens_spaces (hws : ∀ c ∈ ws, isWhitespace c = true) (text : List Char) :
    tokens (ws ++ text) = spaces ws ++ tokens text := by
  induction ws with
  | nil => rfl
  | cons c ws ih =>
      have hlexeme := (Lexed.space (ws ++ text) (hws c List.mem_cons_self)).eq
      rw [List.cons_append, tokens, hlexeme, ih fun d hd => hws d (List.mem_cons_of_mem c hd)]
      rfl

/-- Whitespace behind a text is a lexeme for each character, or begins as a part of its last lexeme.
-/
theorem tokens_append_spaces (hws : ∀ c ∈ ws, isWhitespace c = true) (text : List Char) :
    tokens (text ++ ws) = tokens text ++ spaces ws ∨
      ∃ front t more back, ws = more ++ back ∧ t.kind ≠ .semicolon ∧
        tokens text = front ++ [t] ∧
        tokens (text ++ ws) = front ++ ⟨t.kind, t.text ++ more⟩ :: spaces back := by
  induction text using tokens.induct with
  | case1 =>
      have hspaces := tokens_spaces hws []
      rw [List.append_nil] at hspaces
      refine .inl ?_
      rw [List.nil_append, hspaces, tokens, List.append_nil, List.nil_append]
  | case2 c text ih =>
      rw [List.cons_append, tokens, tokens]
      rcases (lexed_lexeme c text).longer hws with hlexeme |
        ⟨hrest, hkind, more, back, hmore, hlexeme⟩
      · rw [hlexeme]
        rcases ih with ih | ⟨front, t, more, back, hmore, hkind, hfront, hback⟩
        · exact .inl (congrArg _ ih)
        · refine .inr ⟨(lexeme c text).1 :: front, t, more, back, hmore, hkind, ?_, ?_⟩
          · rw [hfront, List.cons_append]
          · rw [hback, List.cons_append]
      · have hback : ∀ d ∈ back, isWhitespace d = true := fun d hd =>
          hws d (by rw [hmore]; exact List.mem_append_right _ hd)
        have hspaces := tokens_spaces hback []
        rw [List.append_nil, tokens, List.append_nil] at hspaces
        refine .inr ⟨[], (lexeme c text).1, more, back, hmore, hkind, ?_, ?_⟩
        · rw [hrest, tokens, List.nil_append]
        · rw [hlexeme, hspaces, List.nil_append]

theorem isSplit_spaces : ∀ t ∈ spaces ws, t.isSplit = false := by
  intro t ht
  obtain ⟨c, -, rfl⟩ := List.mem_map.mp ht
  rfl

theorem textOf_spaces (ws : List Char) : textOf (spaces ws) = ws := by
  induction ws with
  | nil => rfl
  | cons c ws ih => exact congrArg (c :: ·) ih

theorem hasCode_cons (t : Token) (ts : List Token) :
    hasCode (t :: ts) = (!(t.kind == .space || t.kind == .comment) || hasCode ts) :=
  List.any_cons

/-- Two lists of lexemes have code if one of them has. -/
theorem hasCode_append (a b : List Token) : hasCode (a ++ b) = (hasCode a || hasCode b) :=
  List.any_append

/-- Whitespace is no code. -/
theorem hasCode_spaces (ws : List Char) : hasCode (spaces ws) = false := by
  induction ws with
  | nil => rfl
  | cons c ws ih => exact ih

/-- The characters of code but for whitespace, without the semicolons that split. -/
def codeChars (ts : List Token) : List Char :=
  (textOf (ts.filter (·.kind == .code))).filter (!isWhitespace ·)

/-- The characters of code of two lists are those of the first and those of the second. -/
theorem codeChars_append (a b : List Token) : codeChars (a ++ b) = codeChars a ++ codeChars b := by
  rw [codeChars, List.filter_append, textOf_append, List.filter_append]
  rfl

theorem codeChars_spaces (ws : List Char) : codeChars (spaces ws) = [] := by
  induction ws with
  | nil => rfl
  | cons c ws ih => exact ih

/-- Lexemes without code have no characters of code. -/
theorem codeChars_eq_nil (h : hasCode ts = false) : codeChars ts = [] := by
  have hnone : ts.filter (·.kind == .code) = [] := by
    rw [List.filter_eq_nil_iff]
    intro t ht hcode
    rw [hasCode, List.any_eq_false] at h
    refine h t ht ?_
    rw [eq_of_beq hcode]
    rfl
  rw [codeChars, hnone]
  rfl

/-- A lexeme that whitespace makes longer has the same characters of code. -/
theorem codeChars_longer (t : Token) {more : List Char}
    (hmore : ∀ c ∈ more, isWhitespace c = true) :
    codeChars [⟨t.kind, t.text ++ more⟩] = codeChars [t] := by
  have hblank : more.filter (!isWhitespace ·) = [] :=
    List.filter_eq_nil_iff.mpr fun c hc => by rw [hmore c hc]; decide
  cases hkind : t.kind == .code with
  | true => simp [codeChars, hkind, textOf, hblank]
  | false => simp [codeChars, hkind, textOf]

/-- Whitespace behind a text changes neither whether it has code nor which. -/
theorem code_append_spaces (hws : ∀ c ∈ ws, isWhitespace c = true) (text : List Char) :
    hasCode (tokens (text ++ ws)) = hasCode (tokens text) ∧
      codeChars (tokens (text ++ ws)) = codeChars (tokens text) := by
  rcases tokens_append_spaces hws text with h | ⟨front, t, more, back, hmore, hkind, hfront, h⟩
  · rw [h, hasCode_append, hasCode_spaces, Bool.or_false, codeChars_append, codeChars_spaces,
      List.append_nil]
    exact ⟨rfl, rfl⟩
  · have hblank : ∀ c ∈ more, isWhitespace c = true := fun c hc =>
      hws c (by rw [hmore]; exact List.mem_append_left _ hc)
    rw [h, hfront, ← List.singleton_append, hasCode_append, hasCode_append, hasCode_append,
      hasCode_spaces, Bool.or_false, codeChars_append, codeChars_append, codeChars_append,
      codeChars_spaces, List.append_nil, codeChars_longer t hblank]
    exact ⟨rfl, rfl⟩

/-- Whitespace before a text changes neither whether it has code nor which. -/
theorem code_spaces_append (hws : ∀ c ∈ ws, isWhitespace c = true) (text : List Char) :
    hasCode (tokens (ws ++ text)) = hasCode (tokens text) ∧
      codeChars (tokens (ws ++ text)) = codeChars (tokens text) := by
  rw [tokens_spaces hws, hasCode_append, hasCode_spaces, codeChars_append, codeChars_spaces]
  exact ⟨Bool.false_or _, rfl⟩

/-- Trimming takes away no code. -/
theorem code_trim (text : List Char) :
    hasCode (tokens (trim text)) = hasCode (tokens text) ∧
      codeChars (tokens (trim text)) = codeChars (tokens text) := by
  obtain ⟨lead, hlead, hstart⟩ := Whitespace.eq_trimStart text
  obtain ⟨tail, htail, hend⟩ := Whitespace.eq_trimEnd (trimStart text)
  obtain ⟨hcode, hchars⟩ := code_append_spaces htail (trimEnd (trimStart text))
  obtain ⟨hcode', hchars'⟩ := code_spaces_append hlead (trimStart text)
  rw [← hend] at hcode hchars
  rw [← hstart] at hcode' hchars'
  exact ⟨(hcode'.trans hcode).symm, (hchars'.trans hchars).symm⟩

/-! ## Statements and trimming -/

/-- Lexemes without a semicolon are one statement at most. -/
theorem statementsOf_singleton (h : ∀ t ∈ ts, t.isSplit = false) :
    statementsOf ts = [trim (textOf ts)].filter fun statement => hasCode (tokens statement) := by
  rw [statementsOf, List.splitOnP_eq_singleton h]
  rfl

/-- A semicolon splits: the statements are those before and those behind it. -/
theorem statementsOf_append_cons (ht : t.isSplit = true) (a b : List Token) :
    statementsOf (a ++ t :: b) = statementsOf a ++ statementsOf b := by
  rw [statementsOf, List.splitOnP_append_cons _ _ ht, List.map_append, List.filter_append]
  rfl

/-- Only the trimmed text of the lexemes before the first semicolon counts. -/
theorem statementsOf_front {front front' : List Token} (h : ∀ t ∈ front, t.isSplit = false)
    (h' : ∀ t ∈ front', t.isSplit = false)
    (htrim : ∀ text, trim (textOf front ++ text) = trim (textOf front' ++ text)) (ts : List Token) :
    statementsOf (front ++ ts) = statementsOf (front' ++ ts) := by
  induction ts generalizing front front' with
  | nil =>
      have hall := htrim []
      rw [List.append_nil, List.append_nil] at hall ⊢
      rw [statementsOf_singleton h, statementsOf_singleton h', hall]
  | cons t ts ih =>
      cases ht : t.isSplit with
      | true =>
          have hall := htrim []
          rw [List.append_nil, List.append_nil] at hall
          rw [statementsOf_append_cons ht, statementsOf_append_cons ht, statementsOf_singleton h,
            statementsOf_singleton h', hall]
      | false =>
          have hone : ∀ u ∈ [t], u.isSplit = false := fun u hu => by
            rwa [List.mem_singleton.mp hu]
          rw [← List.singleton_append, ← List.append_assoc, ← List.append_assoc]
          refine ih ?_ ?_ fun text => ?_
          · exact List.forall_mem_append.mpr ⟨h, hone⟩
          · exact List.forall_mem_append.mpr ⟨h', hone⟩
          · rw [textOf_append, textOf_append, List.append_assoc, List.append_assoc]
            exact htrim _

/-- Only the trimmed text of the lexemes behind the last semicolon counts. -/
theorem statementsOf_back {back back' : List Token} (h : ∀ t ∈ back, t.isSplit = false)
    (h' : ∀ t ∈ back', t.isSplit = false)
    (htrim : ∀ text, trim (text ++ textOf back) = trim (text ++ textOf back')) (ts : List Token) :
    statementsOf (ts ++ back) = statementsOf (ts ++ back') := by
  suffices hfront : ∀ front : List Token, (∀ t ∈ front, t.isSplit = false) →
      statementsOf (front ++ (ts ++ back)) = statementsOf (front ++ (ts ++ back')) from
    hfront [] (by simp)
  induction ts with
  | nil =>
      intro front hfront
      rw [List.nil_append, List.nil_append,
        statementsOf_singleton (List.forall_mem_append.mpr ⟨hfront, h⟩),
        statementsOf_singleton (List.forall_mem_append.mpr ⟨hfront, h'⟩), textOf_append,
        textOf_append, htrim]
  | cons t ts ih =>
      intro front hfront
      cases ht : t.isSplit with
      | true =>
          rw [List.cons_append, List.cons_append, statementsOf_append_cons ht,
            statementsOf_append_cons ht]
          exact congrArg _ (ih [] (by simp))
      | false =>
          have hone : ∀ u ∈ [t], u.isSplit = false := fun u hu => by
            rwa [List.mem_singleton.mp hu]
          have hmore := ih (front ++ [t]) (List.forall_mem_append.mpr ⟨hfront, hone⟩)
          rwa [List.append_assoc, List.append_assoc] at hmore

/-- Whitespace behind a query does not change its statements. -/
theorem statements_append_spaces (hws : ∀ c ∈ ws, isWhitespace c = true) (text : List Char) :
    statementsOf (tokens (text ++ ws)) = statementsOf (tokens text) := by
  rcases tokens_append_spaces hws text with h | ⟨front, t, more, back, hmore, hkind, hfront, h⟩
  · have hback := @statementsOf_back (spaces ws) [] isSplit_spaces (by simp)
      (fun front => by
        rw [textOf_spaces, Whitespace.trim_append_right hws]
        exact congrArg trim (List.append_nil front).symm) (tokens text)
    rw [h, hback, List.append_nil]
  · rw [h, hfront]
    have hsplit : t.isSplit = false := beq_eq_false_iff_ne.mpr hkind
    refine statementsOf_back ?_ ?_ (fun front => ?_) front
    · exact List.forall_mem_cons.mpr ⟨hsplit, isSplit_spaces⟩
    · exact List.forall_mem_cons.mpr ⟨hsplit, by simp⟩
    · rw [textOf_cons, textOf_cons, textOf_spaces, List.append_assoc, ← hmore,
        ← List.append_assoc, Whitespace.trim_append_right hws]
      exact congrArg (fun text => trim (front ++ text)) (List.append_nil t.text).symm

/-- Neither does whitespace in front of it. -/
theorem statements_spaces_append (hws : ∀ c ∈ ws, isWhitespace c = true) (text : List Char) :
    statementsOf (tokens (ws ++ text)) = statementsOf (tokens text) := by
  rw [tokens_spaces hws]
  exact @statementsOf_front (spaces ws) [] isSplit_spaces (by simp)
    (fun text => by rw [textOf_spaces, Whitespace.trim_append_left hws]; rfl) (tokens text)

theorem statements_trimEnd (text : List Char) :
    statementsOf (tokens (trimEnd text)) = statementsOf (tokens text) := by
  obtain ⟨tail, htail, hend⟩ := Whitespace.eq_trimEnd text
  have h := statements_append_spaces htail (trimEnd text)
  rw [← hend] at h
  exact h.symm

/-- A trimmed query has the same statements. -/
theorem statements_trim (text : List Char) :
    statementsOf (tokens (trim text)) = statementsOf (tokens text) := by
  obtain ⟨lead, hlead, hstart⟩ := Whitespace.eq_trimStart text
  have h := statements_spaces_append hlead (trimStart text)
  rw [← hstart] at h
  exact (statements_trimEnd (trimStart text)).trans h.symm

/-! ## The loops of the program -/

/-- The positions at which the loop of `split_query_statements` stands, with its variables. -/
inductive Reaches (query : List Char) : Nat → Split → Prop where
  | start : Reaches query 0 { statements := [], start := 0 }
  | round {i j : Nat} {st st' : Split} : Reaches query i st → i < len query →
      splitRound query i st = some (.next j st') → Reaches query j st'

/-- The loop of `split_query_statements` stands at a semicolon, where it splits. -/
def SplitsAt (query : List Char) (i : Nat) : Prop :=
  ∃ st rest, Reaches query i st ∧ sliceFrom query i = some (';' :: rest)

variable {i j : Nat} {st st' : Split}

/-- The text of the lexemes from a position on stands at the length of those before. -/
theorem at_tokens (h : tokens query = a ++ b) : At query (len (textOf a)) (textOf b) :=
  ⟨textOf a, by rw [← textOf_append, ← h, textOf_tokens], rfl⟩

/-- A lexeme at the head of those of a text. -/
theorem tokens_cons (h : tokens text = t :: ts) :
    ∃ c rest, text = c :: rest ∧ lexeme c rest = (t, textOf ts) := by
  cases text with
  | nil =>
      rw [tokens] at h
      cases h
  | cons c rest =>
      rw [tokens, List.cons.injEq] at h
      refine ⟨c, rest, rfl, ?_⟩
      rw [← h.1, ← h.2, textOf_tokens]

/-- At a semicolon the loop moves on by one. -/
theorem splitRound_semicolon_next (hat : At query i (';' :: text))
    (h : splitRound query i st = some (.next j st')) : j = i + 1 := by
  rw [splitRound, hat.sliceFrom] at h
  simp only [Option.bind_eq_bind, Option.bind_some] at h
  rw [if_neg (by simp), if_neg (by simp), List.head?_cons, Option.bind_some, if_pos rfl] at h
  obtain ⟨piece, -, h⟩ := Option.bind_eq_some_iff.mp h
  obtain ⟨statements, -, h⟩ := Option.bind_eq_some_iff.mp h
  cases h
  rfl

/-- The loop stands only between lexemes. -/
theorem Reaches.between (h : Reaches query i st) :
    ∃ a b, tokens query = a ++ b ∧ i = len (textOf a) := by
  induction h with
  | start => exact ⟨[], tokens query, rfl, rfl⟩
  | @round i j st st' _ hlt hround ih =>
      obtain ⟨a, b, hab, rfl⟩ := ih
      have hat := at_tokens hab
      cases b with
      | nil =>
          rw [hat.eq_len] at hlt
          exact absurd hlt (Nat.lt_irrefl _)
      | cons t b =>
          obtain ⟨c, text, htext, hlexeme⟩ := tokens_cons (tokens_suffix hab)
          have hlexed := lexed_lexeme c text
          rw [hlexeme] at hlexed
          rw [htext] at hat
          refine ⟨a ++ [t], b, by rw [hab, List.append_assoc]; rfl, ?_⟩
          rw [textOf_concat, len_append]
          by_cases hkind : t.kind = .semicolon
          · have hsemicolon := @lexeme_semicolon text c (by rw [hlexeme]; exact hkind)
            obtain ⟨rfl, hlexeme'⟩ := hsemicolon
            rw [hlexeme] at hlexeme'
            obtain ⟨rfl, -⟩ := Prod.mk.inj hlexeme'
            exact splitRound_semicolon_next hat hround
          · rw [splitRound_eq hat hlexed hkind] at hround
            cases hround
            rfl

/-- The loop stands between any two lexemes, with the text since the last split behind it. -/
theorem reaches_between (h : tokens query = a ++ b) :
    ∃ st front, Reaches query (len (textOf a)) st ∧
      st.start + len (textOf front) = len (textOf a) ∧
        At query st.start (textOf front ++ textOf b) := by
  induction a using List.reverseRecOn generalizing b with
  | nil => exact ⟨_, [], .start, rfl, at_tokens h⟩
  | append_singleton a t ih =>
      rw [List.append_assoc, List.singleton_append] at h
      obtain ⟨st, front, hreach, hstart, hpiece⟩ := ih h
      have hat := at_tokens h
      obtain ⟨c, text, htext, hlexeme⟩ := tokens_cons (tokens_suffix h)
      have hlexed := lexed_lexeme c text
      rw [hlexeme] at hlexed
      have hbehind : len (textOf (a ++ [t])) = len (textOf a) + len t.text := by
        rw [textOf_concat, len_append]
      rw [htext] at hat
      by_cases hkind : t.kind = .semicolon
      · obtain ⟨rfl, hlexeme'⟩ := @lexeme_semicolon text c (by rw [hlexeme]; exact hkind)
        rw [hlexeme] at hlexeme'
        obtain ⟨rfl, hb⟩ := Prod.mk.inj hlexeme'
        have hround := @splitRound_semicolon query text _ hat st (textOf front) _
          (hstart ▸ hpiece.slice) (pushStatement_eq _ _)
        rw [hbehind]
        refine ⟨_, [], hreach.round hat.lt hround, rfl, ?_⟩
        rw [hb]
        exact hat.cons
      · refine ⟨st, front ++ [t], ?_, ?_, ?_⟩
        · rw [hbehind]
          exact hreach.round hat.lt (splitRound_eq hat hlexed hkind st)
        · rw [hbehind, ← hstart, textOf_concat, len_append, Nat.add_assoc]
        · rw [textOf_concat, List.append_assoc, ← textOf_cons]
          exact hpiece

/-- `split_query_statements` splits exactly at the semicolons among the lexemes. -/
theorem splitsAt_iff :
    SplitsAt query i ↔ ∃ a t b, tokens query = a ++ t :: b ∧ t.kind = .semicolon ∧
      i = len (textOf a) := by
  constructor
  · rintro ⟨st, rest, hreach, hslice⟩
    obtain ⟨a, b, hab, rfl⟩ := hreach.between
    rw [(at_tokens hab).sliceFrom, Option.some.injEq] at hslice
    have hb := tokens_suffix hab
    rw [hslice, tokens, (Lexed.semicolon rest).eq] at hb
    exact ⟨a, _, _, by rw [hab, ← hb], rfl, rfl⟩
  · rintro ⟨a, t, b, hab, hkind, rfl⟩
    obtain ⟨st, front, hreach, -, -⟩ := reaches_between hab
    obtain ⟨c, text, htext, hlexeme⟩ := tokens_cons (tokens_suffix hab)
    obtain ⟨rfl, -⟩ := @lexeme_semicolon text c (by rw [hlexeme]; exact hkind)
    exact ⟨st, text, hreach, by rw [(at_tokens hab).sliceFrom, htext]⟩

/-- A terminator is a semicolon without code behind it, or the one found before if there is no code
at all. -/
theorem terminator_eq_some {found : Option Nat} {index : Nat} :
    terminator found index ts = some i ↔
      (∃ a t b, ts = a ++ t :: b ∧ t.kind = .semicolon ∧ hasCode b = false ∧
        i = index + len (textOf a)) ∨ hasCode ts = false ∧ found = some i := by
  induction ts generalizing found index with
  | nil =>
      constructor
      · exact fun h => .inr ⟨rfl, h⟩
      · rintro (⟨a, t, b, h, -⟩ | ⟨-, h⟩)
        · exact absurd h.symm (List.append_ne_nil_of_right_ne_nil a (List.cons_ne_nil t b))
        · exact h
  | cons t ts ih =>
      rw [terminator, ih]
      -- The semicolon stands behind the first lexeme, or it is the first lexeme.
      have hcons : (∃ a t' b, t :: ts = a ++ t' :: b ∧ t'.kind = .semicolon ∧ hasCode b = false ∧
          i = index + len (textOf a)) ↔
          (∃ a t' b, ts = a ++ t' :: b ∧ t'.kind = .semicolon ∧ hasCode b = false ∧
            i = index + len t.text + len (textOf a)) ∨
          t.kind = .semicolon ∧ hasCode ts = false ∧ index = i := by
        constructor
        · rintro ⟨a, t', b, h, hkind, hcode, hi⟩
          cases a with
          | nil =>
              obtain ⟨rfl, rfl⟩ := List.cons.inj h
              exact .inr ⟨hkind, hcode, hi.symm⟩
          | cons u a =>
              obtain ⟨rfl, rfl⟩ := List.cons.inj h
              refine .inl ⟨a, t', b, rfl, hkind, hcode, ?_⟩
              rw [hi, textOf_cons, len_append, Nat.add_assoc]
        · rintro (⟨a, t', b, rfl, hkind, hcode, hi⟩ | ⟨hkind, hcode, hi⟩)
          · refine ⟨t :: a, t', b, rfl, hkind, hcode, ?_⟩
            rw [hi, textOf_cons, len_append, Nat.add_assoc]
          · exact ⟨[], t, ts, rfl, hkind, hcode, hi.symm⟩
      rw [hcons, hasCode_cons]
      cases hkind : t.kind <;> simp [Kind.terminator]

/-- `trailing_statement_terminator` finds the semicolon behind which there is no code. -/
theorem trailingStatementTerminator_iff :
    trailingStatementTerminator query = some (some i) ↔
      ∃ a t b, tokens query = a ++ t :: b ∧ t.kind = .semicolon ∧ hasCode b = false ∧
        i = len (textOf a) := by
  rw [trailingStatementTerminator_eq, Option.some.injEq, terminator_eq_some]
  simp only [Nat.zero_add, reduceCtorEq, and_false, or_false]

/-! ## The scanners agree -/

/-- That is the last offset at which the splitter splits, where `statement_has_code` sees nothing
behind it. -/
theorem trailing_iff_last :
    trailingStatementTerminator query = some (some i) ↔
      SplitsAt query i ∧ (∀ j, SplitsAt query j → j ≤ i) ∧
        ∃ rest, sliceFrom query (i + 1) = some rest ∧ statementHasCode rest = some false := by
  rw [trailingStatementTerminator_iff]
  -- What follows a semicolon of the query, and that it has its own lexemes.
  have hbehind : ∀ {a t b}, tokens query = a ++ t :: b → t.kind = .semicolon →
      sliceFrom query (len (textOf a) + 1) = some (textOf b) ∧
        statementHasCode (textOf b) = some (hasCode b) := by
    intro a t b hab hkind
    obtain ⟨c, text, htext, hlexeme⟩ := tokens_cons (tokens_suffix hab)
    obtain ⟨rfl, hlexeme'⟩ := @lexeme_semicolon text c (by rw [hlexeme]; exact hkind)
    rw [hlexeme] at hlexeme'
    have hat := at_tokens hab
    rw [htext, ← (Prod.mk.inj hlexeme').2] at hat
    rw [statementHasCode_eq, tokens_behind hab]
    exact ⟨hat.cons.sliceFrom, rfl⟩
  constructor
  · rintro ⟨a, t, b, hab, hkind, hcode, rfl⟩
    refine ⟨splitsAt_iff.mpr ⟨a, t, b, hab, hkind, rfl⟩, fun j hj => ?_, _,
      (hbehind hab hkind).1, ?_⟩
    · obtain ⟨a', t', b', hab', hkind', rfl⟩ := splitsAt_iff.mp hj
      rw [hab] at hab'
      rcases List.append_eq_append_iff.mp hab' with ⟨more, rfl, hmore⟩ | ⟨more, rfl, -⟩
      · cases more with
        | nil => rw [List.append_nil]
        | cons u more =>
            -- A semicolon behind this one would be code there.
            rw [List.cons_append, List.cons.injEq] at hmore
            rw [hmore.2, hasCode_append, hasCode_cons, hkind', Bool.or_eq_false_iff] at hcode
            exact absurd hcode.2 (by simp)
      · rw [textOf_append, len_append]
        exact Nat.le_add_right _ _
    · rw [(hbehind hab hkind).2, hcode]
  · rintro ⟨hsplit, -, rest, hrest, hcode⟩
    obtain ⟨a, t, b, hab, hkind, rfl⟩ := splitsAt_iff.mp hsplit
    obtain ⟨hslice, hhas⟩ := hbehind hab hkind
    rw [hslice, Option.some.injEq] at hrest
    rw [← hrest, hhas, Option.some.injEq] at hcode
    exact ⟨a, t, b, hab, hkind, hcode, rfl⟩

/-- Lexemes without code have no statement. -/
theorem statementsOf_blank (hlexed : tokens (textOf b) = b) (h : hasCode b = false) :
    statementsOf b = [] := by
  have hsplit : ∀ t ∈ b, t.isSplit = false := by
    intro t ht
    rw [hasCode, List.any_eq_false] at h
    have hblank := h t ht
    rw [Token.isSplit, beq_eq_false_iff_ne]
    intro hkind
    rw [hkind] at hblank
    exact hblank rfl
  have hcode : hasCode (tokens (trim (textOf b))) = false := by
    rw [(code_trim (textOf b)).1, hlexed, h]
  rw [statementsOf_singleton hsplit, List.filter_singleton, hcode]
  rfl

/-- `normalize_query_for_execution` answers, and its result has the statements of the query. -/
theorem normalize_statements (query : List Char) :
    ∃ normalized, normalizeQueryForExecution query = some normalized ∧
      statementsOf (tokens normalized) = statementsOf (tokens query) := by
  rw [normalizeQueryForExecution, ← statements_trim query]
  generalize trim query = trimmed
  by_cases hblank : trimmed = []
  · exact ⟨trimmed, if_pos hblank, rfl⟩
  · simp only [if_neg hblank]
    rcases hfound : trailingStatementTerminator trimmed with _ | _ | i
    · rw [trailingStatementTerminator_eq] at hfound
      cases hfound
    · exact ⟨trimmed, rfl, rfl⟩
    · obtain ⟨a, t, b, hab, hkind, hcode, rfl⟩ := trailingStatementTerminator_iff.mp hfound
      have htext : trimmed = textOf a ++ textOf (t :: b) := by
        rw [← textOf_append, ← hab, textOf_tokens]
      refine ⟨trimEnd (textOf a), ?_, ?_⟩
      · simp only [Option.bind_eq_bind, Option.bind_some]
        rw [htext, sliceTo_append, Option.map_some]
      · rw [statements_trimEnd, tokens_front hab, hab,
          statementsOf_append_cons (beq_iff_eq.mpr hkind),
          statementsOf_blank (tokens_behind hab) hcode, List.append_nil]

/-- The statement of a piece has the characters of code of the piece. -/
theorem codeChars_piece (h : ∀ t ∈ ts, t.isSplit = false) (hlexed : tokens (textOf ts) = ts) :
    (statementsOf ts).flatMap (fun statement => codeChars (tokens statement)) = codeChars ts := by
  obtain ⟨hcode, hchars⟩ := code_trim (textOf ts)
  rw [hlexed] at hcode hchars
  rw [statementsOf_singleton h, List.filter_singleton, hcode]
  cases hhas : hasCode ts with
  | true => exact (List.flatMap_singleton _ _).trans hchars
  | false => exact (codeChars_eq_nil hhas).symm

/-- The code of the statements is that of the lexemes. -/
theorem codeChars_statements {front : List Token} (hfront : ∀ t ∈ front, t.isSplit = false)
    (h : tokens query = a ++ (front ++ ts)) :
    (statementsOf (front ++ ts)).flatMap (fun statement => codeChars (tokens statement)) =
      codeChars (front ++ ts) := by
  induction ts generalizing a front with
  | nil =>
      rw [List.append_nil] at h ⊢
      exact codeChars_piece hfront (tokens_suffix h)
  | cons t ts ih =>
      cases ht : t.isSplit with
      | true =>
          have hbehind : tokens query = a ++ (front ++ [t]) ++ ([] ++ ts) := by
            rw [h]
            simp only [List.append_assoc, List.singleton_append, List.nil_append]
          have hsemicolon : codeChars [t] = [] := by
            have hkind : t.kind = .semicolon := eq_of_beq ht
            simp [codeChars, hkind, textOf]
          have hts := @ih (a ++ (front ++ [t])) [] (by simp) hbehind
          rw [List.nil_append] at hts
          rw [statementsOf_append_cons ht, List.flatMap_append,
            codeChars_piece hfront (tokens_front (tokens_suffix h)), hts, codeChars_append,
            ← List.singleton_append, codeChars_append, hsemicolon, List.nil_append]
      | false =>
          have hone : ∀ u ∈ [t], u.isSplit = false := fun u hu => by
            rwa [List.mem_singleton.mp hu]
          have hassoc : front ++ t :: ts = front ++ [t] ++ ts := by
            rw [List.append_assoc, List.singleton_append]
          rw [hassoc] at h ⊢
          exact ih (List.forall_mem_append.mpr ⟨hfront, hone⟩) h

/-- A scan from a position ends, at the boundary of a character. -/
def Ends (query : List Char) (stop : Option Nat) : Prop :=
  ∃ index rest, stop = some index ∧ sliceFrom query index = some rest

theorem ends_of_at (h : At query i (text ++ rest)) : Ends query (some (i + len text)) :=
  ⟨_, rest, rfl, h.append.sliceFrom⟩

/-- `skip_line_comment` ends inside the query, at the boundary of a character. -/
theorem skipLineComment_ends (h : sliceFrom query i = some ('/' :: '/' :: text)) :
    Ends query (skipLineComment query i) := by
  have hat := at_of_sliceFrom h
  rw [skipLineComment_eq hat]
  refine @ends_of_at query _ (text.dropWhile (!isBreak ·)) i ?_
  rw [List.cons_append, List.cons_append, List.takeWhile_append_dropWhile]
  exact hat

/-- So does `skip_block_comment`. -/
theorem skipBlockComment_ends (h : sliceFrom query i = some ('/' :: '*' :: text)) :
    Ends query (skipBlockComment query i) := by
  have hat := at_of_sliceFrom h
  rw [skipBlockComment_eq hat]
  refine @ends_of_at query _ (blockSpan text).2 i ?_
  rw [List.cons_append, List.cons_append, blockSpan_append]
  exact hat

/-- So does `skip_quoted_string`. -/
theorem skipQuotedString_ends {quote : Char} (h : sliceFrom query i = some (quote :: text)) :
    Ends query (skipQuotedString query i quote) := by
  have hat := at_of_sliceFrom h
  rw [skipQuotedString_eq hat]
  refine @ends_of_at query _ (quotedSpan quote text).2 i ?_
  rw [List.cons_append, quotedSpan_append]
  exact hat

/-- So does `skip_escaped_identifier`. -/
theorem skipEscapedIdentifier_ends (h : sliceFrom query i = some ('`' :: text)) :
    Ends query (skipEscapedIdentifier query i) := by
  have hat := at_of_sliceFrom h
  rw [skipEscapedIdentifier_eq hat]
  refine @ends_of_at query _ (escapedSpan text).2 i ?_
  rw [List.cons_append, escapedSpan_append]
  exact hat

/-- The three scans end without leaving the boundaries of characters, on every text, and agree: the
terminator is the last semicolon that splits when no code follows it, normalising a query does not
change its statements, and these have the code of the query, in its order. -/
theorem scanners_agree (query : List Char) :
    ∃ statements trailing normalized,
      splitQueryStatements query = some statements ∧
      trailingStatementTerminator query = some trailing ∧
      normalizeQueryForExecution query = some normalized ∧
      (∀ i, trailing = some i ↔
        SplitsAt query i ∧ (∀ j, SplitsAt query j → j ≤ i) ∧
          ∃ rest, sliceFrom query (i + 1) = some rest ∧ statementHasCode rest = some false) ∧
      splitQueryStatements normalized = some statements ∧
      codeChars (tokens query) =
        statements.flatMap (fun statement => codeChars (tokens statement)) ∧
      (statementHasCode query).isSome ∧
      ∀ index text,
        (sliceFrom query index = some ('/' :: '/' :: text) →
          Ends query (skipLineComment query index)) ∧
        (sliceFrom query index = some ('/' :: '*' :: text) →
          Ends query (skipBlockComment query index)) ∧
        (∀ quote, sliceFrom query index = some (quote :: text) →
          Ends query (skipQuotedString query index quote)) ∧
        (sliceFrom query index = some ('`' :: text) →
          Ends query (skipEscapedIdentifier query index)) := by
  obtain ⟨normalized, hnormalized, hstatements⟩ := normalize_statements query
  refine ⟨statementsOf (tokens query), terminator none 0 (tokens query), normalized,
    splitQueryStatements_eq query, trailingStatementTerminator_eq query, hnormalized, fun i => ?_,
    ?_, ?_, ?_, fun index text => ?_⟩
  · rw [← trailing_iff_last, trailingStatementTerminator_eq, Option.some.injEq]
  · rw [splitQueryStatements_eq, hstatements]
  · exact (@codeChars_statements query (tokens query) [] [] (by simp) rfl).symm
  · rw [statementHasCode_eq]
    rfl
  · exact ⟨skipLineComment_ends, skipBlockComment_ends, fun _ => skipQuotedString_ends,
      skipEscapedIdentifier_ends⟩

end Velr.Query
