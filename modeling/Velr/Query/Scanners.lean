import Velr.Common.StrSlice
import Velr.Common.Whitespace

/-!
# The statement scanners

`split_query_statements`, `statement_has_code`, `trailing_statement_terminator` and the functions
that skip comments, strings and escaped identifiers in `main.rs`. Each of the three loops has its
own text in the source; they read the same lexemes (`tokens`), which is what makes their answers
agree. An offset off a character boundary and a loop that does not move on would show as `none`.
-/

namespace Velr.Query

open StrSlice
open Whitespace (isWhitespace trim trimEnd)

/-! ## The code -/

/-- `skip_line_comment`: one round of the loop. -/
def lineRound (query : List Char) (index : Nat) (_ : Unit) : Option (Round Unit) := do
  let ch ← (← sliceFrom query index).head?
  some (if ch = '\n' ∨ ch = '\r' then .stop index () else .next (index + ch.utf8Size) ())

/-- `skip_line_comment` -/
def skipLineComment (query : List Char) (start : Nat) : Option Nat :=
  (scan (lineRound query) (len query) (start + 2) ()).map Prod.fst

/-- `skip_block_comment` -/
def skipBlockComment (query : List Char) (start : Nat) : Option Nat := do
  let rest ← sliceFrom query (start + 2)
  some (((find ['*', '/'] rest).map (start + 2 + · + 2)).getD (len query))

/-- `skip_quoted_string`: one round of the loop. -/
def quotedRound (query : List Char) (quote : Char) (index : Nat) (_ : Unit) :
    Option (Round Unit) := do
  let ch ← (← sliceFrom query index).head?
  let index := index + ch.utf8Size
  if ch = '\\' then do
    let rest ← sliceFrom query index
    some (.next ((rest.head?.map (index + ·.utf8Size)).getD index) ())
  else some (if ch = quote then .stop index () else .next index ())

/-- `skip_quoted_string` -/
def skipQuotedString (query : List Char) (start : Nat) (quote : Char) : Option Nat :=
  (scan (quotedRound query quote) (len query) (start + quote.utf8Size) ()).map Prod.fst

/-- `skip_escaped_identifier`: one round of the loop. -/
def escapedRound (query : List Char) (index : Nat) (_ : Unit) : Option (Round Unit) := do
  let rest ← sliceFrom query index
  if ['`', '`'].isPrefixOf rest then some (.next (index + 2) ())
  else do
    let ch ← rest.head?
    let index := index + ch.utf8Size
    some (if ch = '`' then .stop index () else .next index ())

/-- `skip_escaped_identifier` -/
def skipEscapedIdentifier (query : List Char) (start : Nat) : Option Nat :=
  (scan (escapedRound query) (len query) (start + 1) ()).map Prod.fst

/-- `statement_has_code`: one round of the loop. -/
def codeRound (statement : List Char) (index : Nat) (_ : Bool) : Option (Round Bool) := do
  let rest ← sliceFrom statement index
  let ch ← rest.head?
  if isWhitespace ch then some (.next (index + ch.utf8Size) false)
  else if ['/', '/'].isPrefixOf rest then do
    some (.next (← skipLineComment statement index) false)
  else if ['/', '*'].isPrefixOf rest then do
    some (.next (← skipBlockComment statement index) false)
  else some (.stop index true)

/-- `statement_has_code` -/
def statementHasCode (statement : List Char) : Option Bool :=
  (scan (codeRound statement) (len statement) 0 false).map Prod.snd

/-- `push_statement` -/
def pushStatement (statements : List (List Char)) (statement : List Char) :
    Option (List (List Char)) := do
  let statement := trim statement
  let hasCode ← statementHasCode statement
  some (if hasCode then statements ++ [statement] else statements)

/-- The variables of `split_query_statements`. -/
structure Split where
  statements : List (List Char)
  start : Nat

/-- `split_query_statements`: one round of the loop. -/
def splitRound (query : List Char) (index : Nat) (st : Split) : Option (Round Split) := do
  let rest ← sliceFrom query index
  if ['/', '/'].isPrefixOf rest then do
    some (.next (← skipLineComment query index) st)
  else if ['/', '*'].isPrefixOf rest then do
    some (.next (← skipBlockComment query index) st)
  else do
    let ch ← rest.head?
    if ch = ';' then do
      let statements ← pushStatement st.statements (← slice query st.start index)
      some (.next (index + 1) { statements, start := index + 1 })
    else if ch = '\'' ∨ ch = '"' then do
      some (.next (← skipQuotedString query index ch) st)
    else if ch = '`' then do
      some (.next (← skipEscapedIdentifier query index) st)
    else some (.next (index + ch.utf8Size) st)

/-- `split_query_statements` -/
def splitQueryStatements (query : List Char) : Option (List (List Char)) := do
  let (_, st) ← scan (splitRound query) (len query) 0 { statements := [], start := 0 }
  pushStatement st.statements (← sliceFrom query st.start)

/-- `trailing_statement_terminator`: one round of the loop. -/
def trailingRound (query : List Char) (index : Nat) (trailingSemicolon : Option Nat) :
    Option (Round (Option Nat)) := do
  let rest ← sliceFrom query index
  let ch ← rest.head?
  if isWhitespace ch then some (.next (index + ch.utf8Size) trailingSemicolon)
  else if ['/', '/'].isPrefixOf rest then do
    some (.next (← skipLineComment query index) trailingSemicolon)
  else if ['/', '*'].isPrefixOf rest then do
    some (.next (← skipBlockComment query index) trailingSemicolon)
  else if ch = ';' then some (.next (index + 1) (some index))
  else if ch = '\'' ∨ ch = '"' then do
    some (.next (← skipQuotedString query index ch) none)
  else if ch = '`' then do
    some (.next (← skipEscapedIdentifier query index) none)
  else some (.next (index + ch.utf8Size) none)

/-- `trailing_statement_terminator` -/
def trailingStatementTerminator (query : List Char) : Option (Option Nat) :=
  (scan (trailingRound query) (len query) 0 none).map Prod.snd

/-- `normalize_query_for_execution` -/
def normalizeQueryForExecution (query : List Char) : Option (List Char) :=
  let trimmed := trim query
  if trimmed = [] then some trimmed
  else do
    match ← trailingStatementTerminator trimmed with
    | some index => (sliceTo trimmed index).map trimEnd
    | none => some trimmed

/-! ## Lexemes -/

def isBreak (c : Char) : Bool := c == '\n' || c == '\r'

/-- The text of a block comment behind its start, and the text behind the comment. -/
def blockSpan : List Char → List Char × List Char
  | [] => ([], [])
  | '*' :: '/' :: text => (['*', '/'], text)
  | c :: text => (c :: (blockSpan text).1, (blockSpan text).2)

/-- The text of a string behind its quote, and the text behind the string. -/
def quotedSpan (quote : Char) : List Char → List Char × List Char
  | [] => ([], [])
  | '\\' :: c :: text => ('\\' :: c :: (quotedSpan quote text).1, (quotedSpan quote text).2)
  | ['\\'] => (['\\'], [])
  | c :: text =>
      if c = quote then ([c], text)
      else (c :: (quotedSpan quote text).1, (quotedSpan quote text).2)

/-- The text of an escaped identifier behind its backtick, and the text behind the identifier. -/
def escapedSpan : List Char → List Char × List Char
  | [] => ([], [])
  | '`' :: '`' :: text => ('`' :: '`' :: (escapedSpan text).1, (escapedSpan text).2)
  | '`' :: text => (['`'], text)
  | c :: text => (c :: (escapedSpan text).1, (escapedSpan text).2)

inductive Kind where
  | space
  | comment
  | semicolon
  | code
deriving DecidableEq

structure Token where
  kind : Kind
  text : List Char
deriving DecidableEq

/-- The lexeme that begins with a character, and the text behind it. -/
def lexeme (c : Char) (text : List Char) : Token × List Char :=
  match c, text with
  | '/', '/' :: text => (⟨.comment, '/' :: '/' :: text.takeWhile (!isBreak ·)⟩,
      text.dropWhile (!isBreak ·))
  | '/', '*' :: text => (⟨.comment, '/' :: '*' :: (blockSpan text).1⟩, (blockSpan text).2)
  | c, text =>
      if isWhitespace c then (⟨.space, [c]⟩, text)
      else if c = ';' then (⟨.semicolon, [c]⟩, text)
      else if c = '\'' ∨ c = '"' then (⟨.code, c :: (quotedSpan c text).1⟩, (quotedSpan c text).2)
      else if c = '`' then (⟨.code, c :: (escapedSpan text).1⟩, (escapedSpan text).2)
      else (⟨.code, [c]⟩, text)

/-- A span and what is behind it make up the text: that of a block comment. -/
theorem blockSpan_append (text : List Char) : (blockSpan text).1 ++ (blockSpan text).2 = text := by
  fun_induction blockSpan text with
  | case1 => rfl
  | case2 text => rfl
  | case3 c text hclose ih => rw [List.cons_append, ih]

/-- So do those of a quoted string. -/
theorem quotedSpan_append (quote : Char) (text : List Char) :
    (quotedSpan quote text).1 ++ (quotedSpan quote text).2 = text := by
  fun_induction quotedSpan quote text with
  | case1 => rfl
  | case2 c text ih => rw [List.cons_append, List.cons_append, ih]
  | case3 => rfl
  | case4 => rfl
  | case5 c text _ _ hc ih => rw [List.cons_append, ih]

/-- So do those of an escaped identifier. -/
theorem escapedSpan_append (text : List Char) :
    (escapedSpan text).1 ++ (escapedSpan text).2 = text := by
  fun_induction escapedSpan text with
  | case1 => rfl
  | case2 text ih => rw [List.cons_append, List.cons_append, ih]
  | case3 => rfl
  | case4 c text _ _ ih => rw [List.cons_append, ih]

/-- A lexeme and what is behind it are the text it was read from. -/
theorem lexeme_append (c : Char) (text : List Char) :
    (lexeme c text).1.text ++ (lexeme c text).2 = c :: text := by
  unfold lexeme
  split
  · simp only [List.cons_append, List.takeWhile_append_dropWhile]
  · simp only [List.cons_append, blockSpan_append]
  · split
    · rfl
    split
    · rfl
    split
    · rw [List.cons_append, quotedSpan_append]
    split
    · rw [List.cons_append, escapedSpan_append]
    · rfl

/-- A lexeme begins with the character it was read at. -/
theorem lexeme_head (c : Char) (text : List Char) :
    ∃ tail, (lexeme c text).1.text = c :: tail := by
  unfold lexeme
  split
  · exact ⟨_, rfl⟩
  · exact ⟨_, rfl⟩
  · split
    · exact ⟨_, rfl⟩
    split
    · exact ⟨_, rfl⟩
    split
    · exact ⟨_, rfl⟩
    split
    · exact ⟨_, rfl⟩
    · exact ⟨_, rfl⟩

/-- What is behind a lexeme is no longer than what was behind its first character. -/
theorem length_lexeme (c : Char) (text : List Char) :
    (lexeme c text).2.length ≤ text.length := by
  obtain ⟨tail, htail⟩ := lexeme_head c text
  have happend := congrArg List.length (lexeme_append c text)
  rw [htail, List.length_append, List.length_cons, List.length_cons] at happend
  omega

/-- The lexemes of a text. -/
def tokens : List Char → List Token
  | [] => []
  | c :: text => (lexeme c text).1 :: tokens (lexeme c text).2
termination_by text => text.length
decreasing_by exact Nat.lt_succ_of_le (length_lexeme c text)

/-! ## Skipping -/

variable {query text : List Char} {index : Nat} {c : Char}

/-- The loop of `skip_line_comment` reads the characters up to the line break. -/
theorem scan_lineRound (h : At query index text) :
    scan (lineRound query) (len query) index () =
      some (index + len (text.takeWhile (!isBreak ·)), ()) := by
  induction text generalizing index with
  | nil =>
      rw [h.eq_len, scan_end]
      rfl
  | cons c text ih =>
      by_cases hc : c = '\n' ∨ c = '\r'
      · have hbreak : isBreak c = true := by rcases hc with rfl | rfl <;> rfl
        have hround : lineRound query index () = some (.stop index ()) := by
          rw [lineRound, h.sliceFrom]
          exact congrArg some (if_pos hc)
        rw [scan_stop h.lt hround, List.takeWhile_cons_of_neg (by rw [hbreak]; decide)]
        rfl
      · have hbreak : isBreak c = false := by
          rw [isBreak, Bool.or_eq_false_iff, beq_eq_false_iff_ne, beq_eq_false_iff_ne]
          exact not_or.mp hc
        have hround : lineRound query index () = some (.next (index + c.utf8Size) ()) := by
          rw [lineRound, h.sliceFrom]
          exact congrArg some (if_neg hc)
        have hpos := c.utf8Size_pos
        rw [scan_next h.lt hround (by omega), ih h.cons,
          List.takeWhile_cons_of_pos (by rw [hbreak]; rfl), len_cons, Nat.add_assoc]

/-- `skip_line_comment` stops at the line break, or at the end of the query. -/
theorem skipLineComment_eq (h : At query index ('/' :: '/' :: text)) :
    skipLineComment query index =
      some (index + len ('/' :: '/' :: text.takeWhile (!isBreak ·))) := by
  have hbody : At query (index + 2) text := @At.append query text index ['/', '/'] h
  have hone : '/'.utf8Size = 1 := rfl
  rw [skipLineComment, scan_lineRound hbody, Option.map_some, len_cons, len_cons, hone]
  exact congrArg some (by omega)

/-- The end of a block comment is where `find` finds it, or the end of the text. -/
theorem find_blockSpan (text : List Char) :
    ((find ['*', '/'] text).map (· + 2)).getD (len text) = len (blockSpan text).1 := by
  fun_induction blockSpan text with
  | case1 => rfl
  | case2 text => rfl
  | case3 c text hclose ih =>
      have hother : ['*', '/'].isPrefixOf (c :: text) = false := by
        rw [Bool.eq_false_iff]
        intro hprefix
        obtain ⟨rest, hrest⟩ := List.isPrefixOf_iff_prefix.mp hprefix
        cases hrest
        exact hclose _ rfl rfl
      dsimp only
      rw [find, hother, if_neg (by decide), Option.map_map, len_cons, len_cons, ← ih]
      cases find ['*', '/'] text with
      | none => rfl
      | some offset => exact Nat.add_assoc _ _ _

/-- `skip_block_comment` stops behind the first `*/`, or at the end of the query. -/
theorem skipBlockComment_eq (h : At query index ('/' :: '*' :: text)) :
    skipBlockComment query index = some (index + len ('/' :: '*' :: (blockSpan text).1)) := by
  have hbody : At query (index + 2) text := @At.append query text index ['/', '*'] h
  have hone : '/'.utf8Size = 1 ∧ '*'.utf8Size = 1 := ⟨rfl, rfl⟩
  have hlen : len query = index + 2 + len text := by
    obtain ⟨front, rfl, hfront⟩ := hbody
    rw [len_append, hfront]
  have hfound := find_blockSpan text
  rw [skipBlockComment, hbody.sliceFrom, Option.bind_eq_bind, Option.bind_some, len_cons, len_cons,
    hone.1, hone.2, ← hfound]
  cases find ['*', '/'] text with
  | none =>
      simp only [Option.map_none, Option.getD_none, hlen, Option.some.injEq]
      omega
  | some offset =>
      simp only [Option.map_some, Option.getD_some, Option.some.injEq]
      omega

theorem ne_backslash (hpair : ∀ d rest, c = '\\' → text = d :: rest → False)
    (hlast : c = '\\' → text = [] → False) : c ≠ '\\' := by
  intro hc
  cases text with
  | nil => exact hlast hc rfl
  | cons d rest => exact hpair d rest hc rfl

/-- The loop of `skip_quoted_string` reads the span up to the closing quote. -/
theorem scan_quotedRound {quote : Char} (h : At query index text) :
    scan (quotedRound query quote) (len query) index () =
      some (index + len (quotedSpan quote text).1, ()) := by
  fun_induction quotedSpan quote text generalizing index with
  | case1 =>
      rw [h.eq_len, scan_end]
      rfl
  | case2 c text ih =>
      have hround : quotedRound query quote index () =
          some (.next (index + '\\'.utf8Size + c.utf8Size) ()) := by
        rw [quotedRound, h.sliceFrom]
        simp only [Option.bind_eq_bind, Option.bind_some, List.head?_cons, if_true,
          h.cons.sliceFrom, Option.map_some, Option.getD_some]
      have hpos := c.utf8Size_pos
      rw [scan_next h.lt hround (by omega), ih h.cons.cons, len_cons, len_cons]
      exact congrArg some (by rw [Nat.add_assoc, Nat.add_assoc])
  | case3 =>
      have hround : quotedRound query quote index () =
          some (.next (index + '\\'.utf8Size) ()) := by
        rw [quotedRound, h.sliceFrom]
        simp only [Option.bind_eq_bind, Option.bind_some, List.head?_cons, if_true,
          h.cons.sliceFrom, List.head?_nil, Option.map_none, Option.getD_none]
      have hpos := '\\'.utf8Size_pos
      rw [scan_next h.lt hround (by omega), h.cons.eq_len, scan_end, ← h.cons.eq_len]
      rfl
  | case4 text hpair hlast =>
      have hround : quotedRound query quote index () =
          some (.stop (index + quote.utf8Size) ()) := by
        rw [quotedRound, h.sliceFrom]
        simp only [Option.bind_eq_bind, Option.bind_some, List.head?_cons,
          if_neg (ne_backslash hpair hlast), if_true]
      rw [scan_stop h.lt hround]
      rfl
  | case5 c text hpair hlast hc ih =>
      have hround : quotedRound query quote index () = some (.next (index + c.utf8Size) ()) := by
        rw [quotedRound, h.sliceFrom]
        simp only [Option.bind_eq_bind, Option.bind_some, List.head?_cons,
          if_neg (ne_backslash hpair hlast), if_neg hc]
      have hpos := c.utf8Size_pos
      rw [scan_next h.lt hround (by omega), ih h.cons, len_cons, Nat.add_assoc]

/-- `skip_quoted_string` stops behind the first quote that no backslash precedes. -/
theorem skipQuotedString_eq {quote : Char} (h : At query index (quote :: text)) :
    skipQuotedString query index quote =
      some (index + len (quote :: (quotedSpan quote text).1)) := by
  rw [skipQuotedString, scan_quotedRound h.cons, Option.map_some, len_cons, Nat.add_assoc]

/-- The loop of `skip_escaped_identifier` reads the span up to a backtick that is not doubled. -/
theorem scan_escapedRound (h : At query index text) :
    scan (escapedRound query) (len query) index () =
      some (index + len (escapedSpan text).1, ()) := by
  have hone : '`'.utf8Size = 1 := rfl
  fun_induction escapedSpan text generalizing index with
  | case1 =>
      rw [h.eq_len, scan_end]
      rfl
  | case2 text ih =>
      have hround : escapedRound query index () = some (.next (index + 2) ()) := by
        rw [escapedRound, h.sliceFrom]
        rfl
      have hbehind : At query (index + 2) text := @At.append query text index ['`', '`'] h
      rw [scan_next h.lt hround (by omega), ih hbehind, len_cons, len_cons, hone]
      exact congrArg some (by rw [← Nat.add_assoc, ← Nat.add_assoc])
  | case3 text hpair =>
      have hround : escapedRound query index () = some (.stop (index + '`'.utf8Size) ()) := by
        have hlone : ['`', '`'].isPrefixOf ('`' :: text) = false := by
          rw [Bool.eq_false_iff]
          intro hprefix
          obtain ⟨rest, hrest⟩ := List.isPrefixOf_iff_prefix.mp hprefix
          exact hpair rest (List.cons.inj hrest).2.symm
        rw [escapedRound, h.sliceFrom]
        simp only [Option.bind_eq_bind, Option.bind_some, hlone, List.head?_cons,
          Bool.false_eq_true, if_false, if_true]
      rw [scan_stop h.lt hround]
      rfl
  | case4 c text hpair hlone ih =>
      have hc : c ≠ '`' := fun hc => hlone hc
      have hother : ['`', '`'].isPrefixOf (c :: text) = false := by
        rw [Bool.eq_false_iff]
        intro hprefix
        obtain ⟨rest, hrest⟩ := List.isPrefixOf_iff_prefix.mp hprefix
        exact hc (List.cons.inj hrest).1.symm
      have hround : escapedRound query index () = some (.next (index + c.utf8Size) ()) := by
        rw [escapedRound, h.sliceFrom]
        simp only [Option.bind_eq_bind, Option.bind_some, hother, List.head?_cons, if_neg hc,
          Bool.false_eq_true, if_false]
      have hpos := c.utf8Size_pos
      rw [scan_next h.lt hround (by omega), ih h.cons, len_cons, Nat.add_assoc]

/-- `skip_escaped_identifier` stops behind the first backtick that is not doubled. -/
theorem skipEscapedIdentifier_eq (h : At query index ('`' :: text)) :
    skipEscapedIdentifier query index = some (index + len ('`' :: (escapedSpan text).1)) := by
  have hbody : At query (index + 1) text := h.cons
  rw [skipEscapedIdentifier, scan_escapedRound hbody, Option.map_some, len_cons, Nat.add_assoc]
  rfl

/-! ## One lexeme -/

/-- The cases of a lexeme, as the loops tell them apart. -/
inductive Lexed : Char → List Char → Token → List Char → Prop where
  | line (text : List Char) : Lexed '/' ('/' :: text)
      ⟨.comment, '/' :: '/' :: text.takeWhile (!isBreak ·)⟩ (text.dropWhile (!isBreak ·))
  | block (text : List Char) : Lexed '/' ('*' :: text)
      ⟨.comment, '/' :: '*' :: (blockSpan text).1⟩ (blockSpan text).2
  | space {c : Char} (text : List Char) : isWhitespace c = true → Lexed c text ⟨.space, [c]⟩ text
  | semicolon (text : List Char) : Lexed ';' text ⟨.semicolon, [';']⟩ text
  | quoted {c : Char} (text : List Char) : c = '\'' ∨ c = '"' →
      Lexed c text ⟨.code, c :: (quotedSpan c text).1⟩ (quotedSpan c text).2
  | escaped (text : List Char) : Lexed '`' text
      ⟨.code, '`' :: (escapedSpan text).1⟩ (escapedSpan text).2
  | plain {c : Char} {text : List Char} : ['/', '/'].isPrefixOf (c :: text) = false →
      ['/', '*'].isPrefixOf (c :: text) = false → isWhitespace c = false → c ≠ ';' →
      ¬(c = '\'' ∨ c = '"') → c ≠ '`' → Lexed c text ⟨.code, [c]⟩ text

theorem isPrefixOf_pair {a b : Char} (h : ∀ rest, c = a → text = b :: rest → False) :
    [a, b].isPrefixOf (c :: text) = false := by
  rw [Bool.eq_false_iff]
  intro hprefix
  obtain ⟨rest, hrest⟩ := List.isPrefixOf_iff_prefix.mp hprefix
  obtain ⟨hhead, htail⟩ := List.cons.inj hrest
  exact h rest hhead.symm htail.symm

/-- `lexeme` reads the lexeme that stands at a character. -/
theorem lexed_lexeme (c : Char) (text : List Char) :
    Lexed c text (lexeme c text).1 (lexeme c text).2 := by
  unfold lexeme
  split
  · exact .line _
  · exact .block _
  · rename_i hline hblock
    split
    · exact .space _ ‹_›
    split
    · rename_i hc
      subst hc
      exact .semicolon _
    split
    · exact .quoted _ ‹_›
    split
    · rename_i hc
      subst hc
      exact .escaped _
    · rename_i hspace hsemicolon hquote hescape
      exact .plain (isPrefixOf_pair hline) (isPrefixOf_pair hblock) (Bool.eq_false_iff.mpr hspace)
        hsemicolon hquote hescape

variable {t : Token} {rest : List Char}

theorem prefix_of_ne (a : Char) (text : List Char) (h : c ≠ '/') :
    ['/', a].isPrefixOf (c :: text) = false :=
  isPrefixOf_pair fun _ hc _ => h hc

theorem ne_slash (h : isWhitespace c = true) : c ≠ '/' := by
  rintro rfl
  cases h

theorem not_quote (h : isWhitespace c = true) :
    c ≠ ';' ∧ ¬(c = '\'' ∨ c = '"') ∧ c ≠ '`' := by
  refine ⟨?_, ?_, ?_⟩
  · rintro rfl
    cases h
  · rintro (rfl | rfl) <;> cases h
  · rintro rfl
    cases h

/-- A round of `split_query_statements` steps over a lexeme that is not a semicolon. -/
theorem splitRound_eq (hat : At query index (c :: text)) (h : Lexed c text t rest)
    (hkind : t.kind ≠ .semicolon) (st : Split) :
    splitRound query index st = some (.next (index + len t.text) st) := by
  rw [splitRound, hat.sliceFrom]
  simp only [Option.bind_eq_bind, Option.bind_some]
  cases h with
  | line text =>
      rw [if_pos (by rfl), skipLineComment_eq hat]
      rfl
  | block text =>
      rw [if_neg (by simp), if_pos (by rfl), skipBlockComment_eq hat]
      rfl
  | space text hspace =>
      obtain ⟨hsemicolon, hquote, hescape⟩ := not_quote hspace
      simp only [prefix_of_ne _ _ (ne_slash hspace), Bool.false_eq_true, if_false, List.head?_cons,
        Option.bind_some, if_neg hsemicolon, if_neg hquote, if_neg hescape, len_cons, len_nil,
        Nat.add_zero]
  | semicolon text => exact absurd rfl hkind
  | quoted text hquote =>
      have hslash : c ≠ '/' := by rintro rfl; rcases hquote with h | h <;> cases h
      have hsemicolon : c ≠ ';' := by rintro rfl; rcases hquote with h | h <;> cases h
      simp only [prefix_of_ne _ _ hslash, Bool.false_eq_true, if_false, List.head?_cons,
        Option.bind_some, if_neg hsemicolon, if_pos hquote, skipQuotedString_eq hat]
  | escaped text =>
      rw [if_neg (by simp), if_neg (by simp)]
      simp only [List.head?_cons, Option.bind_some]
      rw [if_neg (by decide), if_neg (by decide), if_pos trivial, skipEscapedIdentifier_eq hat]
      rfl
  | plain hline hblock hspace hsemicolon hquote hescape =>
      simp only [hline, hblock, Bool.false_eq_true, if_false, List.head?_cons, Option.bind_some,
        if_neg hsemicolon, if_neg hquote, if_neg hescape, len_cons, len_nil, Nat.add_zero]

/-- At a semicolon the round pushes the statement before it and starts the next one behind it. -/
theorem splitRound_semicolon (hat : At query index (';' :: text)) {st : Split}
    {statement : List Char} {statements : List (List Char)}
    (hslice : slice query st.start index = some statement)
    (hpush : pushStatement st.statements statement = some statements) :
    splitRound query index st = some (.next (index + 1) { statements, start := index + 1 }) := by
  rw [splitRound, hat.sliceFrom]
  simp only [Option.bind_eq_bind, Option.bind_some]
  rw [if_neg (by simp), if_neg (by simp), List.head?_cons, Option.bind_some, if_pos rfl, hslice,
    Option.bind_some, hpush, Option.bind_some]

/-- What a lexeme does to the terminator found so far. -/
def Kind.terminator (index : Nat) (found : Option Nat) : Kind → Option Nat
  | .space | .comment => found
  | .semicolon => some index
  | .code => none

/-- A round of `trailing_statement_terminator` steps over a lexeme and keeps, sets or drops the
semicolon it has found. -/
theorem trailingRound_eq (hat : At query index (c :: text)) (h : Lexed c text t rest)
    (found : Option Nat) :
    trailingRound query index found =
      some (.next (index + len t.text) (t.kind.terminator index found)) := by
  rw [trailingRound, hat.sliceFrom]
  simp only [Option.bind_eq_bind, Option.bind_some, List.head?_cons]
  cases h with
  | line text =>
      rw [if_neg (by decide), if_pos (by rfl), skipLineComment_eq hat]
      rfl
  | block text =>
      rw [if_neg (by decide), if_neg (by simp), if_pos (by rfl), skipBlockComment_eq hat]
      rfl
  | space text hspace =>
      rw [if_pos hspace, len_cons, len_nil, Nat.add_zero]
      rfl
  | semicolon text =>
      rw [if_neg (by decide), if_neg (by simp), if_neg (by simp), if_pos rfl]
      rfl
  | quoted text hquote =>
      have hslash : c ≠ '/' := by rintro rfl; rcases hquote with h | h <;> cases h
      have hsemicolon : c ≠ ';' := by rintro rfl; rcases hquote with h | h <;> cases h
      have hspace : isWhitespace c = false := by rcases hquote with rfl | rfl <;> rfl
      simp only [hspace, prefix_of_ne _ _ hslash, Bool.false_eq_true, if_false,
        if_neg hsemicolon, if_pos hquote, skipQuotedString_eq hat, Option.bind_some,
        Kind.terminator]
  | escaped text =>
      rw [if_neg (by decide), if_neg (by simp), if_neg (by simp), if_neg (by decide),
        if_neg (by decide), if_pos rfl, skipEscapedIdentifier_eq hat]
      rfl
  | plain hline hblock hspace hsemicolon hquote hescape =>
      simp only [hspace, hline, hblock, Bool.false_eq_true, if_false, if_neg hsemicolon,
        if_neg hquote, if_neg hescape, len_cons, len_nil, Nat.add_zero, Kind.terminator]

/-- A lexeme of code ends the search for it. -/
theorem codeRound_eq (hat : At query index (c :: text)) (h : Lexed c text t rest) (found : Bool) :
    codeRound query index found =
      if t.kind = .space ∨ t.kind = .comment then some (.next (index + len t.text) false)
      else some (.stop index true) := by
  rw [codeRound, hat.sliceFrom]
  simp only [Option.bind_eq_bind, Option.bind_some, List.head?_cons]
  cases h with
  | line text =>
      rw [if_neg (by decide), if_pos (by rfl), skipLineComment_eq hat]
      rfl
  | block text =>
      rw [if_neg (by decide), if_neg (by simp), if_pos (by rfl), skipBlockComment_eq hat]
      rfl
  | space text hspace =>
      rw [if_pos hspace, len_cons, len_nil, Nat.add_zero]
      rfl
  | semicolon text =>
      rw [if_neg (by decide), if_neg (by simp), if_neg (by simp)]
      rfl
  | quoted text hquote =>
      have hslash : c ≠ '/' := by rintro rfl; rcases hquote with h | h <;> cases h
      have hspace : isWhitespace c = false := by rcases hquote with rfl | rfl <;> rfl
      simp only [hspace, prefix_of_ne _ _ hslash, Bool.false_eq_true, if_false, reduceCtorEq,
        or_self]
  | escaped text =>
      rw [if_neg (by decide), if_neg (by simp), if_neg (by simp)]
      rfl
  | plain hline hblock hspace hsemicolon hquote hescape =>
      simp only [hspace, hline, hblock, Bool.false_eq_true, if_false, reduceCtorEq, or_self]

/-! ## The loops -/

/-- Behind the first lexeme. -/
theorem At.lexeme (h : At query index (c :: text)) :
    At query (index + len (lexeme c text).1.text) (lexeme c text).2 :=
  At.append ((lexeme_append c text).symm ▸ h)

/-- A lexeme moves the loop on. -/
theorem lexeme_lt (index : Nat) (c : Char) (text : List Char) :
    index < index + len (lexeme c text).1.text := by
  obtain ⟨tail, htail⟩ := lexeme_head c text
  have hpos := @len_pos (lexeme c text).1.text (by rw [htail]; exact List.cons_ne_nil _ _)
  omega

/-- A statement has code where a lexeme is neither whitespace nor a comment. -/
def hasCode (ts : List Token) : Bool :=
  ts.any fun t => !(t.kind == .space || t.kind == .comment)

/-- From any lexeme on, the loop of `statement_has_code` looks for one that is code. -/
theorem scan_codeRound (h : At query index text) :
    (scan (codeRound query) (len query) index false).map Prod.snd =
      some (hasCode (tokens text)) := by
  induction text using tokens.induct generalizing index with
  | case1 =>
      rw [h.eq_len, scan_end, tokens]
      rfl
  | case2 c text ih =>
      have hround := codeRound_eq h (lexed_lexeme c text) false
      rw [tokens, hasCode, List.any_cons]
      by_cases hkind : (lexeme c text).1.kind = .space ∨ (lexeme c text).1.kind = .comment
      · rw [if_pos hkind] at hround
        rw [scan_next h.lt hround (lexeme_lt index c text), ih (At.lexeme h), hasCode]
        rcases hkind with hkind | hkind <;> rw [hkind] <;> rfl
      · rw [if_neg hkind] at hround
        rw [scan_stop h.lt hround]
        rw [not_or] at hkind
        simp only [Option.map_some, beq_eq_false_iff_ne.mpr hkind.1,
          beq_eq_false_iff_ne.mpr hkind.2, Bool.or_self, Bool.not_false, Bool.true_or]

/-- `statement_has_code`: whether a lexeme is neither a comment nor whitespace. -/
theorem statementHasCode_eq (statement : List Char) :
    statementHasCode statement = some (hasCode (tokens statement)) :=
  scan_codeRound (at_zero statement)

/-- The last semicolon that only whitespace and comments follow, among lexemes from an offset on. -/
def terminator (found : Option Nat) (index : Nat) : List Token → Option Nat
  | [] => found
  | t :: ts => terminator (t.kind.terminator index found) (index + len t.text) ts

/-- From any lexeme on, the loop of `trailing_statement_terminator` reads the terminator off the
lexemes. -/
theorem scan_trailingRound (h : At query index text) (found : Option Nat) :
    (scan (trailingRound query) (len query) index found).map Prod.snd =
      some (terminator found index (tokens text)) := by
  induction text using tokens.induct generalizing index found with
  | case1 =>
      rw [h.eq_len, scan_end, tokens]
      rfl
  | case2 c text ih =>
      rw [tokens, scan_next h.lt (trailingRound_eq h (lexed_lexeme c text) found)
        (lexeme_lt index c text), ih (At.lexeme h), terminator]

/-- `trailing_statement_terminator`: the last semicolon, if no code is behind it. -/
theorem trailingStatementTerminator_eq (query : List Char) :
    trailingStatementTerminator query = some (terminator none 0 (tokens query)) :=
  scan_trailingRound (at_zero query) none

/-! ## Statements -/

def Token.isSplit (t : Token) : Bool := t.kind == .semicolon

/-- The text of some lexemes. -/
def textOf (ts : List Token) : List Char := ts.flatMap Token.text

/-- The trimmed texts between the semicolons that have code. -/
def statementsOf (ts : List Token) : List (List Char) :=
  ((ts.splitOnP Token.isSplit).map fun piece => trim (textOf piece)).filter
    fun statement => hasCode (tokens statement)

/-- `push_statement` keeps a trimmed statement if there is code in it. -/
theorem pushStatement_eq (statements : List (List Char)) (statement : List Char) :
    pushStatement statements statement =
      some (statements ++ [trim statement].filter fun s => hasCode (tokens s)) := by
  rw [pushStatement]
  simp only [statementHasCode_eq, Option.bind_eq_bind, Option.bind_some, List.filter_singleton]
  cases hasCode (tokens (trim statement)) with
  | true => rfl
  | false => exact congrArg some (List.append_nil _).symm

/-- A semicolon is a lexeme of its own. -/
theorem lexeme_semicolon (h : (lexeme c text).1.kind = .semicolon) :
    c = ';' ∧ lexeme c text = (⟨.semicolon, [';']⟩, text) := by
  have hlexed := lexed_lexeme c text
  generalize hlexeme : lexeme c text = found at *
  obtain ⟨t, rest⟩ := found
  cases hlexed <;> simp_all

/-- From any lexeme on, with the lexemes since the last semicolon in front, the loop of
`split_query_statements` and the push behind it collect the statements of the lexemes. -/
theorem scan_splitRound {st : Split} {front : List Token} (hfront : ∀ t ∈ front, t.isSplit = false)
    (h : At query st.start (textOf front ++ text)) :
    ∃ st' last, scan (splitRound query) (len query) (st.start + len (textOf front)) st =
        some (len query, st') ∧ sliceFrom query st'.start = some last ∧
      pushStatement st'.statements last =
        some (st.statements ++ statementsOf (front ++ tokens text)) := by
  induction text using tokens.induct generalizing st front with
  | case1 =>
      refine ⟨st, textOf front, ?_, ?_, ?_⟩
      · rw [h.append.eq_len, scan_end]
      · rw [h.sliceFrom, List.append_nil]
      · rw [tokens, List.append_nil, statementsOf, List.splitOnP_eq_singleton hfront,
          pushStatement_eq]
        rfl
  | case2 c text ih =>
      have hat := h.append
      by_cases hkind : (lexeme c text).1.kind = .semicolon
      · obtain ⟨rfl, hlexeme⟩ := lexeme_semicolon hkind
        have hround := splitRound_semicolon hat h.slice
          (pushStatement_eq st.statements (textOf front))
        rw [hlexeme] at ih
        obtain ⟨st', last, hscan, hlast, hpush⟩ := @ih
          { statements := st.statements ++
              [trim (textOf front)].filter fun s => hasCode (tokens s)
            start := st.start + len (textOf front) + 1 } [] (by simp) hat.cons
        refine ⟨st', last, ?_, hlast, ?_⟩
        · rw [scan_next hat.lt hround (Nat.lt_succ_self _)]
          exact hscan
        · rw [hpush, tokens, hlexeme, statementsOf, statementsOf,
            List.splitOnP_append_cons_of_forall_mem hfront _ (by rfl), List.map_cons,
            List.nil_append, List.append_assoc, ← List.filter_append]
          rfl
      · have hround := splitRound_eq hat (lexed_lexeme c text) hkind st
        have hmore : At query st.start
            (textOf (front ++ [(lexeme c text).1]) ++ (lexeme c text).2) := by
          rw [textOf, List.flatMap_append, List.flatMap_singleton, List.append_assoc,
            lexeme_append]
          exact h
        have hsplit : ∀ t ∈ front ++ [(lexeme c text).1], t.isSplit = false := by
          intro t ht
          rw [List.mem_append, List.mem_singleton] at ht
          rcases ht with ht | rfl
          · exact hfront t ht
          · exact beq_eq_false_iff_ne.mpr hkind
        obtain ⟨st', last, hscan, hlast, hpush⟩ := ih hsplit hmore
        refine ⟨st', last, ?_, hlast, ?_⟩
        · rw [scan_next hat.lt hround (lexeme_lt _ c text), ← hscan, textOf, textOf,
            List.flatMap_append, List.flatMap_singleton, len_append, Nat.add_assoc]
        · rw [hpush, tokens, List.append_assoc, List.singleton_append]

/-- `split_query_statements`: the pieces between the semicolons, trimmed, that have code in them. -/
theorem splitQueryStatements_eq (query : List Char) :
    splitQueryStatements query = some (statementsOf (tokens query)) := by
  obtain ⟨st', last, hscan, hlast, hpush⟩ :=
    @scan_splitRound query query { statements := [], start := 0 } [] (by simp) (at_zero query)
  rw [splitQueryStatements]
  have hscan : scan (splitRound query) (len query) 0 { statements := [], start := 0 } =
      some (len query, st') := hscan
  simp only [hscan, Option.bind_eq_bind, Option.bind_some, hlast, hpush, List.nil_append]

end Velr.Query
