import Velr.Common.Whitespace

/-!
# Argument files

`tokenize` of `import/options.rs`: the words of an argument file. Quotes of either kind keep
whitespace and `#`; a backslash follows the rules of a POSIX shell or, where it separates the parts
of a path, those of the C runtime of Windows. Arguments that are quoted by the rules of the mode
come back as they were (`tokenize_quoted`).
-/

namespace Velr.Import.ArgumentFile

open Whitespace (isWhitespace)

/-! ## The code -/

/-- The variables of `tokenize`, without the characters it has not read. -/
structure Tokens where
  output : List String
  current : List Char
  quote : Option Char
  started : Bool
deriving DecidableEq

def Tokens.push (st : Tokens) (text : List Char) : Tokens :=
  { st with current := st.current ++ text, started := true }

/-- `tokenize`: a run of backslashes in front of `rest` where they separate paths. -/
def Tokens.backslashes (st : Tokens) (count : Nat) : List Char → Tokens × List Char
  | '"' :: rest =>
      let st := st.push (List.replicate (count / 2) '\\')
      if count % 2 = 1 then (st.push ['"'], rest)
      else ({ st with quote := if st.quote.isSome then none else some '"' }, rest)
  | rest => (st.push (List.replicate count '\\'), rest)

/-- `tokenize`: a backslash that escapes the character behind it, or the end of a line. -/
def Tokens.escaped (st : Tokens) : List Char → Except String (Tokens × List Char)
  | [] => .error "trailing backslash in argument file"
  | c :: rest => .ok (if c ≠ '\n' then st.push [c] else st, rest)

/-- `tokenize`: one round of the loop, and the characters behind it. -/
def Tokens.step (windowsPaths : Bool) (st : Tokens) (c : Char) (rest : List Char) :
    Except String (Tokens × List Char) :=
  if st.quote = some c then .ok ({ st with quote := none }, rest)
  else if st.quote = none ∧ (c = '\'' ∨ c = '"') then
    .ok ({ st with quote := some c, started := true }, rest)
  else if st.quote = none ∧ c = '#' ∧ st.started = false then
    .ok (st, (rest.dropWhile (· ≠ '\n')).drop 1)
  else if st.quote = none ∧ isWhitespace c then
    if st.started then
      .ok ({ st with output := st.output ++ [.ofList st.current], current := [], started := false },
        rest)
    else .ok (st, rest)
  else if c = '\\' ∧ (st.quote = none ∨ st.quote = some '"') then
    if windowsPaths then
      let count := 1 + (rest.takeWhile (· = '\\')).length
      .ok (st.backslashes count (rest.dropWhile (· = '\\')))
    else st.escaped rest
  else .ok (st.push [c], rest)

/-- Backslashes leave no more than there was. -/
theorem length_backslashes (st : Tokens) (count : Nat) (rest : List Char) :
    (st.backslashes count rest).2.length ≤ rest.length := by
  rw [Tokens.backslashes.eq_def]
  split
  · dsimp only
    split <;> simp
  · exact Nat.le_refl _

/-- A round reads at least its character. -/
theorem length_step {windowsPaths : Bool} {st st' : Tokens} {c : Char} {rest rest' : List Char}
    (h : st.step windowsPaths c rest = .ok (st', rest')) : rest'.length ≤ rest.length := by
  have hcomment : ((rest.dropWhile (· ≠ '\n')).drop 1).length ≤ rest.length :=
    Nat.le_trans (List.drop_suffix 1 _).length_le (List.dropWhile_suffix _).length_le
  have hrun := Nat.le_trans (length_backslashes st (1 + (rest.takeWhile (· = '\\')).length)
    (rest.dropWhile (· = '\\'))) (List.dropWhile_suffix _).length_le
  rw [Tokens.step] at h
  split at h
  · cases h; exact Nat.le_refl _
  split at h
  · cases h; exact Nat.le_refl _
  split at h
  · cases h; exact hcomment
  split at h
  · split at h <;> cases h <;> exact Nat.le_refl _
  split at h
  · split at h
    · have hresult : st.backslashes _ _ = (st', rest') := Except.ok.inj h
      rw [hresult] at hrun
      exact hrun
    · cases rest with
      | nil => cases h
      | cons c rest =>
          cases h
          exact Nat.le_succ _
  · cases h; exact Nat.le_refl _

/-- `tokenize`: the loop. -/
def Tokens.run (windowsPaths : Bool) : List Char → Tokens → Except String Tokens
  | [], st => .ok st
  | c :: rest, st =>
      match _h : st.step windowsPaths c rest with
      | .error message => .error message
      | .ok (st, rest) => Tokens.run windowsPaths rest st
termination_by text => text.length
decreasing_by exact Nat.lt_succ_of_le (length_step _h)

/-- `tokenize` -/
def tokenize (input : String) (windowsPaths : Bool) : Except String (List String) := do
  let st ← Tokens.run windowsPaths input.toList
    { output := [], current := [], quote := none, started := false }
  if st.quote.isSome then .error "unclosed quote in argument file"
  else .ok (if st.started then st.output ++ [.ofList st.current] else st.output)

/-! ## Quoting -/

/-- The text of an argument within single quotes: a single quote closes them, is escaped, and opens
them again. -/
def posixText : List Char → List Char
  | [] => []
  | '\'' :: text => ['\'', '\\', '\'', '\''] ++ posixText text
  | c :: text => c :: posixText text

/-- The text of an argument within double quotes, behind a run of `n` backslashes: a run is doubled
in front of a double quote and at the end, and a double quote has a backslash of its own. -/
def windowsText : Nat → List Char → List Char
  | n, [] => List.replicate (2 * n) '\\'
  | n, '\\' :: text => windowsText (n + 1) text
  | n, '"' :: text => List.replicate (2 * n + 1) '\\' ++ '"' :: windowsText 0 text
  | n, c :: text => List.replicate n '\\' ++ c :: windowsText 0 text

/-- An argument quoted by the rules of a mode. -/
def quoted (windowsPaths : Bool) (argument : String) : List Char :=
  if windowsPaths then '"' :: windowsText 0 argument.toList ++ ['"']
  else '\'' :: posixText argument.toList ++ ['\'']

/-- Quoted arguments with whitespace between them, and maybe behind the last one. -/
inductive Joined (windowsPaths : Bool) : List String → List Char → Prop where
  | nil : Joined windowsPaths [] []
  | cons {argument : String} {arguments : List String} {space text : List Char} :
      (∀ c ∈ space, isWhitespace c = true) → (arguments ≠ [] → space ≠ []) →
      Joined windowsPaths arguments text →
      Joined windowsPaths (argument :: arguments) (quoted windowsPaths argument ++ (space ++ text))

/-! ## Rounds -/

variable {windowsPaths : Bool} {st st' : Tokens}

/-- A step that succeeds is followed by the rest of the text. -/
theorem run_cons {c : Char} {rest rest' : List Char}
    (h : st.step windowsPaths c rest = .ok (st', rest')) :
    Tokens.run windowsPaths (c :: rest) st = Tokens.run windowsPaths rest' st' := by
  rw [Tokens.run]
  split
  case h_1 hstep =>
    rw [h] at hstep
    cases hstep
  case h_2 hstep =>
    rw [h] at hstep
    cases hstep
    rfl

/-- The quote that is open is closed by the same quote. -/
theorem step_close {c : Char} {rest : List Char} (h : st.quote = some c) :
    st.step windowsPaths c rest = .ok ({ st with quote := none }, rest) := if_pos h

/-- A quote opens outside of quotes. -/
theorem step_open {c : Char} {rest : List Char} (h : st.quote = none) (hc : c = '\'' ∨ c = '"') :
    st.step windowsPaths c rest = .ok ({ st with quote := some c, started := true }, rest) := by
  rw [Tokens.step, if_neg (by rw [h]; rintro ⟨⟩), if_pos ⟨h, hc⟩]

/-- Within quotes a character that neither closes them nor escapes is kept. -/
theorem step_keep {c q : Char} {rest : List Char} (h : st.quote = some q) (hc : c ≠ q)
    (hescape : c = '\\' → q ≠ '"') : st.step windowsPaths c rest = .ok (st.push [c], rest) := by
  have hsome : ¬ st.quote = none := by rw [h]; rintro ⟨⟩
  rw [Tokens.step, if_neg (by rw [h, Option.some.injEq]; exact fun heq => hc heq.symm),
    if_neg fun h => hsome h.1, if_neg fun h => hsome h.1, if_neg fun h => hsome h.1, if_neg]
  rintro ⟨hback, hnone | hdouble⟩
  · exact hsome hnone
  · rw [h, Option.some.injEq] at hdouble
    exact hescape hback hdouble

/-- Whitespace ends a token outside of quotes. -/
theorem step_space {c : Char} {rest : List Char} (h : st.quote = none)
    (hc : isWhitespace c = true) :
    st.step windowsPaths c rest =
      .ok (if st.started then
          { st with
            output := st.output ++ [.ofList st.current], current := [], started := false }
        else st, rest) := by
  have hother : ∀ d : Char, isWhitespace d = false → c ≠ d := by
    rintro d hd rfl
    rw [hc] at hd
    cases hd
  rw [Tokens.step, if_neg (by rw [h]; rintro ⟨⟩),
    if_neg fun hquote => hquote.2.elim (hother _ (by decide)) (hother _ (by decide)),
    if_neg fun hcomment => hother _ (by decide) hcomment.2.1, if_pos ⟨h, hc⟩]
  split <;> rfl

/-! ## Arguments -/

/-- The characters between single quotes are read back. -/
theorem run_posixText (text : List Char) {rest : List Char} (h : st.quote = some '\'')
    (hstarted : st.started = true) :
    Tokens.run false (posixText text ++ '\'' :: rest) st =
      Tokens.run false rest { st with quote := none, current := st.current ++ text } := by
  induction text generalizing st with
  | nil =>
      rw [posixText, List.nil_append, run_cons (step_close h), List.append_nil]
  | cons c text ih =>
      by_cases hc : c = '\''
      · subst hc
        have hescape : ({ st with quote := none } : Tokens).step false '\\'
            ('\'' :: '\'' :: (posixText text ++ '\'' :: rest)) =
              .ok (({ st with quote := none } : Tokens).push ['\''],
                '\'' :: (posixText text ++ '\'' :: rest)) := rfl
        have hopen : (({ st with quote := none } : Tokens).push ['\'']).quote = none := rfl
        rw [posixText]
        simp only [List.cons_append, List.nil_append]
        rw [run_cons (step_close h), run_cons hescape, run_cons (step_open hopen (.inl rfl)),
          ih rfl rfl]
        simp only [Tokens.push, List.append_assoc, List.singleton_append, hstarted]
      · have hkeep : posixText (c :: text) = c :: posixText text := by
          rw [posixText]
          exact fun heq => hc heq
        rw [hkeep, List.cons_append, run_cons (step_keep h hc fun _ => by decide),
          @ih (st.push [c]) h rfl]
        simp only [Tokens.push, List.append_assoc, List.singleton_append, hstarted]

/-- A run of backslashes is one round. -/
theorem step_run (n : Nat) {rest : List Char} (hquote : st.quote = some '"')
    (hrest : rest.head? ≠ some '\\') :
    st.step true '\\' (List.replicate n '\\' ++ rest) = .ok (st.backslashes (n + 1) rest) := by
  have htake : rest.takeWhile (· = '\\') = [] := by
    cases rest with
    | nil => rfl
    | cons c rest =>
        rw [List.head?_cons, ne_eq, Option.some.injEq] at hrest
        exact List.takeWhile_cons_of_neg (by simpa using hrest)
  have hdrop : rest.dropWhile (· = '\\') = rest := by
    have hsplit := @List.takeWhile_append_dropWhile _ (· = '\\') rest
    rwa [htake, List.nil_append] at hsplit
  have hrun : ∀ c ∈ List.replicate n '\\', decide (c = '\\') = true := by
    intro c hc
    rw [List.eq_of_mem_replicate hc]
    rfl
  have hother : st.quote ≠ none := by rw [hquote]; rintro ⟨⟩
  rw [Tokens.step, if_neg (by rw [hquote]; decide), if_neg fun h => hother h.1,
    if_neg fun h => hother h.1, if_neg fun h => hother h.1, if_pos ⟨rfl, .inr hquote⟩, if_pos rfl,
    List.takeWhile_append_of_pos hrun, List.dropWhile_append_of_pos hrun, htake, hdrop,
    List.append_nil, List.length_replicate, Nat.add_comm]

/-- A run in front of a double quote: half of it, and the quote if one of it is left. -/
theorem backslashes_quote (n : Nat) (rest : List Char) :
    st.backslashes (2 * n + 1) ('"' :: rest) =
      (st.push (List.replicate n '\\' ++ ['"']), rest) := by
  have hhalf : (2 * n + 1) / 2 = n := by omega
  rw [Tokens.backslashes, if_pos (by omega), hhalf]
  simp only [Tokens.push, List.append_assoc]

/-- A run at the end of an argument, and the quote that closes it. -/
theorem backslashes_end (n : Nat) (rest : List Char) (h : st.quote.isSome = true) :
    st.backslashes (2 * n) ('"' :: rest) =
      ({ st.push (List.replicate n '\\') with quote := none }, rest) := by
  have hhalf : 2 * n / 2 = n := by omega
  rw [Tokens.backslashes, if_neg (by omega), hhalf,
    if_pos (show (st.push (List.replicate n '\\')).quote.isSome = true from h)]

/-- Backslashes that no double quote follows stand for themselves. -/
theorem backslashes_other (count : Nat) {c : Char} (rest : List Char) (hc : c ≠ '"') :
    st.backslashes count (c :: rest) = (st.push (List.replicate count '\\'), c :: rest) := by
  rw [Tokens.backslashes]
  rintro rest' ⟨⟩
  exact hc rfl

/-- A run of backslashes that stands in front of no double quote is kept. -/
theorem run_backslashes (n : Nat) {c : Char} {rest : List Char} (h : st.quote = some '"')
    (hstarted : st.started = true) (hc : c ≠ '"') (hback : c ≠ '\\') :
    Tokens.run true (List.replicate n '\\' ++ c :: rest) st =
      Tokens.run true (c :: rest)
        { st with current := st.current ++ List.replicate n '\\' } := by
  cases n with
  | zero => rw [List.replicate_zero, List.nil_append, List.append_nil]
  | succ n =>
      have hhead : (c :: rest).head? ≠ some '\\' := by
        rw [List.head?_cons, ne_eq, Option.some.injEq]
        exact hback
      have hstep := (step_run n h hhead).trans
        (congrArg Except.ok (backslashes_other (n + 1) rest hc))
      rw [List.replicate_succ, List.cons_append, run_cons hstep]
      simp only [Tokens.push, hstarted, List.replicate_succ]

/-- The characters between double quotes are read back; `n` backslashes of them have been held back
for what is behind them. -/
theorem run_windowsText (n : Nat) (text : List Char) {rest : List Char} (h : st.quote = some '"')
    (hstarted : st.started = true) :
    Tokens.run true (windowsText n text ++ '"' :: rest) st =
      Tokens.run true rest
        { st with quote := none, current := st.current ++ List.replicate n '\\' ++ text } := by
  have hhead : ∀ rest : List Char, ('"' :: rest).head? ≠ some '\\' := by
    rintro rest ⟨⟩
  induction text generalizing n st with
  | nil =>
      rw [windowsText]
      cases n with
      | zero =>
          rw [List.replicate_zero, List.nil_append, run_cons (step_close h), List.append_nil,
            List.append_nil]
      | succ n =>
          have hstep := (step_run (2 * n + 1) h (hhead rest)).trans
            (congrArg Except.ok (backslashes_end (n + 1) rest (by rw [h]; rfl)))
          rw [Nat.mul_succ, List.replicate_succ, List.cons_append, run_cons hstep,
            List.append_nil]
          simp only [Tokens.push, hstarted]
  | cons c text ih =>
      by_cases hback : c = '\\'
      · subst hback
        rw [windowsText, ih (n + 1) h hstarted, List.replicate_succ']
        simp only [List.append_assoc, List.singleton_append]
      by_cases hquote : c = '"'
      · subst hquote
        have hstep := (step_run (2 * n) h (hhead (windowsText 0 text ++ '"' :: rest))).trans
          (congrArg Except.ok (backslashes_quote n _))
        rw [windowsText, List.append_assoc, List.cons_append, List.replicate_succ,
          List.cons_append, run_cons hstep,
          @ih (st.push (List.replicate n '\\' ++ ['"'])) 0 h rfl]
        simp only [Tokens.push, List.append_assoc, List.singleton_append, List.replicate_zero,
          hstarted]
      · have hkeep : windowsText n (c :: text) =
            List.replicate n '\\' ++ c :: windowsText 0 text := by
          rw [windowsText]
          · exact fun heq => hback heq
          · exact fun heq => hquote heq
        have hstep := @step_keep true
          { st with current := st.current ++ List.replicate n '\\' } c '"'
          (windowsText 0 text ++ '"' :: rest) h hquote fun heq => absurd heq hback
        rw [hkeep, List.append_assoc, List.cons_append, run_backslashes n h hstarted hquote hback,
          run_cons hstep,
          @ih (Tokens.push { st with current := st.current ++ List.replicate n '\\' } [c]) 0 h rfl]
        simp only [Tokens.push, List.append_assoc, List.singleton_append, List.replicate_zero,
          hstarted]

/-- A quoted argument is one word, which goes on behind it. -/
theorem run_quoted (windowsPaths : Bool) (argument : String) {rest : List Char}
    (h : st.quote = none) (hcurrent : st.current = []) :
    Tokens.run windowsPaths (quoted windowsPaths argument ++ rest) st =
      Tokens.run windowsPaths rest { st with current := argument.toList, started := true } := by
  cases windowsPaths with
  | true =>
      rw [quoted, if_pos rfl, List.cons_append, List.cons_append, List.append_assoc,
        List.singleton_append, run_cons (step_open h (.inr rfl)), run_windowsText 0 _ rfl rfl]
      simp only [hcurrent, h, List.replicate_zero, List.nil_append]
  | false =>
      rw [quoted, if_neg (by decide), List.cons_append, List.cons_append, List.append_assoc,
        List.singleton_append, run_cons (step_open h (.inl rfl)), run_posixText _ rfl rfl]
      simp only [hcurrent, h, List.nil_append]

/-- Whitespace ends a word once. -/
theorem run_space (windowsPaths : Bool) {space rest : List Char}
    (hspace : ∀ c ∈ space, isWhitespace c = true) (hne : space ≠ []) (h : st.quote = none)
    (hstarted : st.started = true) :
    Tokens.run windowsPaths (space ++ rest) st =
      Tokens.run windowsPaths rest
        { st with
          output := st.output ++ [.ofList st.current], current := [], started := false } := by
  cases space with
  | nil => exact absurd rfl hne
  | cons c space =>
      have hmore : ∀ space' : List Char, (∀ c ∈ space', isWhitespace c = true) →
          ∀ st' : Tokens, st'.quote = none → st'.started = false →
            Tokens.run windowsPaths (space' ++ rest) st' =
              Tokens.run windowsPaths rest st' := by
        intro space' hspace' st' h' hstarted'
        induction space' with
        | nil => rfl
        | cons c' space' ih =>
            have hstep := @step_space windowsPaths st' c' (space' ++ rest) h'
              (hspace' c' (by simp))
            rw [if_neg (by rw [hstarted']; decide)] at hstep
            rw [List.cons_append, run_cons hstep, ih fun d hd => hspace' d (by simp [hd])]
      have hstep := @step_space windowsPaths st c (space ++ rest) h (hspace c (by simp))
      rw [if_pos hstarted] at hstep
      rw [List.cons_append, run_cons hstep]
      exact hmore space (fun d hd => hspace d (by simp [hd])) _ h rfl

/-- The words of quoted arguments, the last of which may not have ended. -/
theorem run_joined {arguments : List String} {text : List Char}
    (hjoined : Joined windowsPaths arguments text) (h : st.quote = none)
    (hcurrent : st.current = [])
    (hstarted : st.started = false) :
    ∃ st', Tokens.run windowsPaths text st = .ok st' ∧ st'.quote = none ∧
      (if st'.started then st'.output ++ [.ofList st'.current] else st'.output) =
        st.output ++ arguments := by
  induction hjoined generalizing st with
  | nil =>
      refine ⟨st, by rw [Tokens.run], h, ?_⟩
      rw [if_neg (by rw [hstarted]; decide), List.append_nil]
  | @cons argument arguments space text hspace hne hrest ih =>
      rw [run_quoted windowsPaths argument h hcurrent]
      cases space with
      | nil =>
          obtain rfl : arguments = [] := Classical.byContradiction fun hmore => hne hmore rfl
          cases hrest
          refine ⟨{ st with current := argument.toList, started := true },
            by rw [List.nil_append, Tokens.run], h, ?_⟩
          rw [if_pos rfl, String.ofList_toList]
      | cons c space =>
          rw [@run_space { st with current := argument.toList, started := true } windowsPaths _ text
            hspace (List.cons_ne_nil _ _) h rfl]
          obtain ⟨st', hrun, hquote, hout⟩ := @ih
            { output := st.output ++ [.ofList argument.toList], current := [], quote := st.quote
              started := false } h rfl rfl
          refine ⟨st', hrun, hquote, ?_⟩
          rw [hout, String.ofList_toList, List.append_assoc, List.singleton_append]

/-- Arguments that are quoted by the rules of a mode and joined with whitespace are what `tokenize`
returns in that mode. -/
theorem tokenize_quoted (windowsPaths : Bool) {arguments : List String} {text : List Char}
    (hjoined : Joined windowsPaths arguments text) :
    tokenize (.ofList text) windowsPaths = .ok arguments := by
  obtain ⟨st, hrun, hquote, hout⟩ := @run_joined windowsPaths
    { output := [], current := [], quote := none, started := false } _ _ hjoined rfl rfl rfl
  rw [tokenize, String.toList_ofList, hrun]
  simp only [bind, Except.bind]
  rw [if_neg (by rw [hquote]; decide), hout, List.nil_append]

/-- A quoted path with its last backslash doubled, and an empty argument. -/
theorem tokenize_quoted_path :
    tokenize (.ofList ['"', 'C', ':', '\\', 'a', ' ', 'b', '\\', '\\', '"', ' ', '"', '"']) true =
      .ok ["C:\\a b\\", ""] :=
  @tokenize_quoted true ["C:\\a b\\", ""] _
    (@Joined.cons true "C:\\a b\\" [""] [' '] _ (List.forall_mem_singleton.mpr rfl)
      (fun _ => List.cons_ne_nil _ _)
      (@Joined.cons true "" [] [] [] (List.forall_mem_nil _) (fun h => absurd rfl h) .nil))

end Velr.Import.ArgumentFile
