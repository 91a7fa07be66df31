import Velr.Csv.Preflight
import Velr.Import.Header

/-!
# Discovering the delimiter

`HeaderReadLimit`, `classify`, `resolve` and `prepare` of `import/discovery.rs`. The headers of all
sources are resolved under each candidate for the delimiter, each read behind a limit; a limit that
is reached ends the discovery, since it rules out nothing. What is discovered holds without a limit
(`discovery_sound`).
-/

namespace Velr.Import

open ByteString Csv
open FirstWins (Map)
open IdMap (Failure)
open Reading (LawfulTryRead Pieces Stream)

/-! ## The limit -/

/-- `HeaderReadLimit`; the flag that it sets is in its error. -/
structure HeaderReadLimit (R : Type) where
  input : R
  remaining : Nat
  limit : Nat

/-- A reader behind a limit. -/
def HeaderReadLimit.new {R : Type} (input : R) (limit : Nat) : HeaderReadLimit R :=
  { input, remaining := limit, limit }

variable {R : Type} [LawfulTryRead ReadError R]

/-- The error of the limit. -/
def HeaderReadLimit.exceeded (r : HeaderReadLimit R) : ReadError where
  message := s!"automatic header discovery exceeds {r.limit} decoded bytes; " ++
    "specify --delimiter to use the full CSV record limit"
  exceeded := true

/-- `HeaderReadLimit::read`: at the limit one more byte tells it from the end. -/
def HeaderReadLimit.read (r : HeaderReadLimit R) (n : Nat) :
    Except ReadError (Bytes × HeaderReadLimit R) :=
  if n = 0 then .ok ([], r)
  else if r.remaining = 0 then
    match Reading.TryRead.tryRead r.input 1 with
    | .error e => .error e
    | .ok (probe, input) =>
        if probe.length = 0 then .ok ([], { r with input }) else .error r.exceeded
  else
    match Reading.TryRead.tryRead r.input (min n r.remaining) with
    | .error e => .error e
    | .ok (bytes, input) => .ok (bytes, { r with input, remaining := r.remaining - bytes.length })

/-- What comes through a limit: all of it, or a front and the error of the limit. -/
def HeaderReadLimit.stream (r : HeaderReadLimit R) : Stream ReadError :=
  let s := LawfulTryRead.stream r.input
  if s.bytes.length ≤ r.remaining then s else ⟨s.bytes.take r.remaining, some r.exceeded⟩

/-- A source that is not longer than the limit is read whole. -/
theorem HeaderReadLimit.stream_of_le {r : HeaderReadLimit R}
    (h : (LawfulTryRead.stream r.input).bytes.length ≤ r.remaining) :
    r.stream = LawfulTryRead.stream r.input :=
  if_pos h

/-- A longer source is read up to the limit, and then the limit is its error. -/
theorem HeaderReadLimit.stream_of_lt {r : HeaderReadLimit R}
    (h : r.remaining < (LawfulTryRead.stream r.input).bytes.length) :
    r.stream = ⟨(LawfulTryRead.stream r.input).bytes.take r.remaining, some r.exceeded⟩ :=
  if_neg (Nat.not_le.mpr h)

/-- A call below the limit. -/
theorem HeaderReadLimit.read_of_remaining {r : HeaderReadLimit R} {n : Nat} (hn : 0 < n)
    (h : 0 < r.remaining) :
    r.read n =
      match Reading.TryRead.tryRead r.input (min n r.remaining) with
      | .error e => .error e
      | .ok (bytes, input) =>
          .ok (bytes, { r with input, remaining := r.remaining - bytes.length }) := by
  rw [HeaderReadLimit.read, if_neg (by omega), if_neg (by omega)]

/-- A call at the limit. -/
theorem HeaderReadLimit.read_of_exhausted {r : HeaderReadLimit R} {n : Nat} (hn : 0 < n)
    (h : r.remaining = 0) :
    r.read n =
      match Reading.TryRead.tryRead r.input 1 with
      | .error e => .error e
      | .ok (probe, input) =>
          if probe.length = 0 then .ok ([], { r with input }) else .error r.exceeded := by
  rw [HeaderReadLimit.read, if_neg (by omega), if_pos h]

/-- A read behind the limit takes a front of the stream. -/
theorem HeaderReadLimit.stream_read {r r' : HeaderReadLimit R} {n : Nat} {bytes : Bytes}
    (hn : 0 < n) (h : r.read n = .ok (bytes, r')) :
    r.stream = ⟨bytes ++ r'.stream.bytes, r'.stream.failure⟩ := by
  rcases Nat.eq_zero_or_pos r.remaining with hzero | hpos
  · rw [HeaderReadLimit.read_of_exhausted hn hzero] at h
    rcases hread : Reading.TryRead.tryRead r.input 1 with e | ⟨probe, input⟩
    · rw [hread] at h
      cases h
    · rw [hread] at h
      dsimp only at h
      split at h
      case isFalse => cases h
      case isTrue hprobe =>
        cases h
        rw [List.length_eq_zero_iff] at hprobe
        subst hprobe
        have hstream := LawfulTryRead.stream_of_read_nil Nat.one_pos hread
        have hbehind := LawfulTryRead.stream_read Nat.one_pos hread
        rw [List.nil_append] at hbehind
        have hinput : LawfulTryRead.stream input = ⟨[], none⟩ := by rw [← hstream, hbehind]
        rw [HeaderReadLimit.stream_of_le (by rw [hstream]; exact Nat.zero_le _),
          HeaderReadLimit.stream_of_le (by rw [hinput]; exact Nat.zero_le _), hstream, hinput]
        rfl
  · rw [HeaderReadLimit.read_of_remaining hn hpos] at h
    rcases hread : Reading.TryRead.tryRead r.input (min n r.remaining) with e | ⟨bytes', input⟩
    · rw [hread] at h
      cases h
    · rw [hread] at h
      cases h
      have hmin : 0 < min n r.remaining := by omega
      have hlength := LawfulTryRead.length_read hread
      have hstream := LawfulTryRead.stream_read hmin hread
      rcases Nat.lt_or_ge r.remaining (LawfulTryRead.stream r.input).bytes.length with hlt | hle
      · rw [HeaderReadLimit.stream_of_lt hlt]
        rw [hstream, List.length_append] at hlt
        rw [HeaderReadLimit.stream_of_lt (by dsimp only; omega), hstream, List.take_append,
          List.take_of_length_le (by omega)]
        rfl
      · rw [HeaderReadLimit.stream_of_le hle]
        rw [hstream, List.length_append] at hle
        rw [HeaderReadLimit.stream_of_le (by dsimp only; omega), hstream]

instance : LawfulTryRead ReadError (HeaderReadLimit R) where
  tryRead := HeaderReadLimit.read
  stream := HeaderReadLimit.stream
  stream_read := HeaderReadLimit.stream_read
  length_read {r r' n bytes} h := by
    rcases Nat.eq_zero_or_pos n with rfl | hn
    · cases h
      exact Nat.le_refl _
    rcases Nat.eq_zero_or_pos r.remaining with hzero | hpos
    · rw [HeaderReadLimit.read_of_exhausted hn hzero] at h
      split at h
      case h_1 => cases h
      case h_2 =>
        split at h
        case isFalse => cases h
        case isTrue =>
          cases h
          exact Nat.zero_le _
    · rw [HeaderReadLimit.read_of_remaining hn hpos] at h
      split at h
      case h_1 => cases h
      case h_2 hread =>
        cases h
        have hlength := LawfulTryRead.length_read hread
        omega
  stream_of_read_nil {r r' n} hn h := by
    rcases Nat.eq_zero_or_pos r.remaining with hzero | hpos
    · rw [HeaderReadLimit.read_of_exhausted hn hzero] at h
      split at h
      case h_1 => cases h
      case h_2 probe input hread =>
        split at h
        case isFalse => cases h
        case isTrue hprobe =>
          rw [List.length_eq_zero_iff] at hprobe
          subst hprobe
          have hstream := LawfulTryRead.stream_of_read_nil Nat.one_pos hread
          rw [HeaderReadLimit.stream_of_le (by rw [hstream]; exact Nat.zero_le _), hstream]
    · rw [HeaderReadLimit.read_of_remaining hn hpos] at h
      split at h
      case h_1 => cases h
      case h_2 hread =>
        cases h
        have hstream := LawfulTryRead.stream_of_read_nil (by omega) hread
        rw [HeaderReadLimit.stream_of_le (by rw [hstream]; exact Nat.zero_le _), hstream]
  stream_of_error {r n e} hn h := by
    rcases Nat.eq_zero_or_pos r.remaining with hzero | hpos
    · rw [HeaderReadLimit.read_of_exhausted hn hzero] at h
      split at h
      case h_1 hread =>
        cases h
        have hstream := LawfulTryRead.stream_of_error Nat.one_pos hread
        rw [HeaderReadLimit.stream_of_le (by rw [hstream]; exact Nat.zero_le _), hstream]
      case h_2 probe input hread =>
        split at h
        case isTrue => cases h
        case isFalse hprobe =>
          cases h
          have hstream := LawfulTryRead.stream_read Nat.one_pos hread
          rw [HeaderReadLimit.stream_of_lt (by rw [hstream, List.length_append]; omega), hzero,
            List.take_zero]
    · rw [HeaderReadLimit.read_of_remaining hn hpos] at h
      split at h
      case h_1 hread =>
        cases h
        have hstream := LawfulTryRead.stream_of_error (by omega) hread
        rw [HeaderReadLimit.stream_of_le (by rw [hstream]; exact Nat.zero_le _), hstream]
      case h_2 => cases h

/-- A limit is no end of a file. -/
theorem HeaderReadLimit.shortened_new (input : R) (limit : Nat) :
    Shortened (limit < (LawfulTryRead.stream input).bytes.length)
      (LawfulTryRead.stream (HeaderReadLimit.new input limit)) (LawfulTryRead.stream input) := by
  rcases Nat.lt_or_ge limit (LawfulTryRead.stream input).bytes.length with hlt | hle
  · exact .inr ⟨hlt, limit, _, hlt, rfl, HeaderReadLimit.stream_of_lt hlt⟩
  · exact .inl (HeaderReadLimit.stream_of_le hle)

/-- The header record behind a limit is the one without it, or the limit says that it was reached,
and then there is more than the limit. -/
theorem header_limit_transparent (input : R) (limit : Nat) (opts : Csv.Options)
    (hbuffer : 0 < opts.bufferBytes) :
    AlikeUnless (limit < (LawfulTryRead.stream input).bytes.length)
      (headerRecord (HeaderReadLimit.new input limit) opts hbuffer)
      (headerRecord input opts hbuffer) :=
  headerRecord_shortened (HeaderReadLimit.shortened_new input limit) opts hbuffer

/-- A limit that the content just reaches. -/
theorem header_limit_transparent_exact :
    headerRecord (HeaderReadLimit.new (⟨[⟨[97, 10], by decide⟩], none⟩ : Pieces ReadError) 2)
        sampleOptions (by decide) =
      headerRecord (⟨[⟨[97, 10], by decide⟩], none⟩ : Pieces ReadError) sampleOptions (by decide) :=
  (header_limit_transparent (⟨[⟨[97, 10], by decide⟩], none⟩ : Pieces ReadError) 2 sampleOptions
    (by decide)).resolve_right fun h => Nat.lt_irrefl 2 h.1

/-! ## Files -/

/-- What `input::open` returns of a file: its decoded bytes in the pieces in which they come, and
the error that ends them, if one does. -/
structure Contents where
  pieces : List { piece : Bytes // piece ≠ [] }
  failure : Option String

def Contents.reader (contents : Contents) : Pieces ReadError :=
  ⟨contents.pieces, contents.failure.map csvError⟩

/-- The bytes of a file, however they come. -/
def Contents.whole (contents : Contents) : Bytes × Option String :=
  ((contents.pieces.map Subtype.val).flatten, contents.failure)

/-- The files of a system: `input::open` by path. -/
abbrev Files := String → Except String Contents

/-- The files hold the same, though they may deliver it in other pieces. -/
def Files.Same (files files' : Files) : Prop :=
  ∀ path, (files path).map Contents.whole = (files' path).map Contents.whole

/-! ## Sources -/

/-- `RawSource` -/
structure RawSource where
  source : HeaderSource
  files : List String
  relationship : Option Bool

/-- `PreparedSource` -/
structure PreparedSource where
  files : List String
  header : ParsedHeader
  headerCells : List Cell

/-- `ResolutionError`, or a panic. -/
inductive ResolutionError where
  | error (message : String) (unresolved : Bool)
  | panic

/-- A resolution fails, and no limit is the cause. -/
def rejected {α : Type} (message : String) : Except ResolutionError α :=
  .error (.error message false)

/-- The markers of a header. -/
structure Markers where
  node : Bool := false
  start : Bool := false
  stop : Bool := false
  relType : Bool := false

/-- `classify`: the marker of a cell. -/
def Markers.next (markers : Markers) (cell : Cell) : Markers :=
  match splitOnce ':' (trim cell.text).toList with
  | none => markers
  | some (_, definition) =>
      let marker := (definition.takeWhile (· ≠ '{')).takeWhile (· ≠ '(')
      match String.ofList (marker.map Char.toUpper) with
      | "ID" | "LABEL" => { markers with node := true }
      | "START_ID" => { markers with start := true }
      | "END_ID" => { markers with stop := true }
      | "TYPE" => { markers with relType := true }
      | _ => markers

/-- `classify`: whether a header is one of relationships. -/
def classify (cells : List Cell) : Except String Bool :=
  let markers := cells.foldl Markers.next {}
  let relationship := markers.start || markers.stop || markers.relType
  if markers.node && relationship then .error "mixed node and relationship header markers"
  else if relationship then
    if markers.start && markers.stop then .ok true
    else .error "relationship headers require both :START_ID and :END_ID"
  else if markers.node then .ok false
  else
    .error ("cannot classify CSV header; use :ID/:LABEL for nodes, :START_ID/:END_ID for " ++
      "relationships, or declare a source with --nodes/--relationships or a manifest")

/-! ## Resolving -/

/-- The `Debug` form of a candidate. -/
def debugChar (c : Char) : String := if c = '\t' then "'\\t'" else s!"'{c}'"

/-- `resolve`: how much of a source may be read. -/
def headerLimit (opts : HeaderOptions) : Nat :=
  max (min (min (opts.bufferBytes * 4) (2 ^ 64 - 1)) (opts.memoryBytes / 4)) opts.bufferBytes

/-- The options that `options::validate` accepts have room for a header. -/
structure HeaderOptions.Valid (opts : HeaderOptions) : Prop where
  buffer : 1024 ≤ opts.bufferBytes

theorem HeaderOptions.Valid.positive {opts : HeaderOptions} (h : opts.Valid) :
    0 < opts.bufferBytes :=
  Nat.lt_of_lt_of_le (by decide) h.buffer

/-- The options with another delimiter. -/
def HeaderOptions.withDelimiter (opts : HeaderOptions) (delimiter : Char) : HeaderOptions :=
  { opts with delimiter }

theorem HeaderOptions.Valid.withDelimiter {opts : HeaderOptions} (h : opts.Valid)
    (delimiter : Char) : (opts.withDelimiter delimiter).Valid := ⟨h.buffer⟩

/-- `resolve`: the first record of a source. -/
def firstRecord (opts : HeaderOptions) (h : opts.Valid) (bounded : Bool) (contents : Contents) :
    Except ReadError (Option Csv.Record) :=
  if bounded then
    headerRecord (HeaderReadLimit.new contents.reader (headerLimit opts)) opts.toOptions
      h.positive
  else headerRecord contents.reader opts.toOptions h.positive

/-- `resolve`: the cells of a header, and whether it is one of relationships. -/
def headerRole (path : String) (raw : RawSource) (cells : List Cell) :
    Except ResolutionError (List Cell × Bool) :=
  match raw.relationship with
  | some role => .ok (cells, role)
  | none =>
      match classify cells with
      | .error message => rejected s!"{path} header: {message}"
      | .ok role => .ok (cells, role)

/-- `resolve`: the header of a source. -/
def sourceHeader (files : Files) (opts : HeaderOptions) (h : opts.Valid) (bounded : Bool)
    (raw : RawSource) : Except ResolutionError (RawSource × List Cell × Bool) :=
  match raw.files with
  -- `source.files[0]`
  | [] => .error .panic
  | path :: _ =>
      match files path with
      | .error message => rejected message
      | .ok contents =>
          match firstRecord opts h bounded contents with
          | .error e =>
              if e.exceeded then
                .error (.error (s!"{path}: automatic header discovery could not rule out " ++
                  s!"delimiter {debugChar opts.delimiter} within the decoded header limit; " ++
                  "specify --delimiter explicitly") true)
              else rejected s!"{path}: {e.message}"
          | .ok none => rejected s!"{path}: missing CSV header"
          | .ok (some record) =>
              match record.cells with
              | none => .error .panic
              | some cells => (headerRole path raw cells).map fun found => (raw, found)

/-- `resolve`: the headers of the one role. -/
def parseHeaders (opts : HeaderOptions) (relationship : Bool) :
    List (RawSource × List Cell × Bool) → Map String ValueType →
      Except ResolutionError (List PreparedSource × Map String ValueType)
  | [], groups => .ok ([], groups)
  | (raw, cells, role) :: headers, groups =>
      if role ≠ relationship then parseHeaders opts relationship headers groups
      else
        match ParsedHeader.parse opts raw.source relationship cells groups with
        | .error .panic => .error .panic
        | .error (.error message) =>
            let path := raw.files.headD ""
            rejected s!"{path} header: {message}"
        | .ok (header, groups) => do
            let (prepared, groups) ← parseHeaders opts relationship headers groups
            .ok (⟨raw.files, header, cells⟩ :: prepared, groups)

/-- `resolve`, from the headers on. Groups are declared by nodes before relationships use them. -/
def resolveHeaders (opts : HeaderOptions) (headers : List (RawSource × List Cell × Bool)) :
    Except ResolutionError (List PreparedSource) := do
  let (nodes, groups) ← parseHeaders opts false headers .empty
  let (relationships, _) ← parseHeaders opts true headers groups
  let prepared := nodes ++ relationships
  if ¬prepared.any fun source => source.header.node.isSome then
    rejected "at least one node CSV source is required"
  else .ok prepared

/-- `resolve` -/
def resolve (files : Files) (opts : HeaderOptions) (h : opts.Valid) (bounded : Bool)
    (raw : List RawSource) : Except ResolutionError (List PreparedSource) := do
  let headers ← raw.mapM (sourceHeader files opts h bounded)
  resolveHeaders opts headers

/-! ## Preparing -/

/-- `prepare`: the delimiters that are tried. -/
def candidates (opts : HeaderOptions) : List Char :=
  [',', '|', '\t', ';'].filter fun c => c ≠ opts.quote ∧ c ≠ opts.arrayDelimiter

/-- `prepare`: the candidates that resolve, and why the others do not. -/
def probe {α : Type} (attempt : Char → Except ResolutionError α) :
    List Char → Except ResolutionError (List (Char × α) × List String)
  | [] => .ok ([], [])
  | delimiter :: delimiters =>
      match attempt delimiter with
      | .ok sources => do
          let (valid, failures) ← probe attempt delimiters
          .ok ((delimiter, sources) :: valid, failures)
      | .error (.error message unresolved) =>
          -- an exhausted probe leaves open whether the candidate is the only one
          if unresolved then .error (.error message true)
          else do
            let (valid, failures) ← probe attempt delimiters
            .ok (valid, s!"  {debugChar delimiter}: {message}" :: failures)
      | .error .panic => .error .panic

/-- `prepare`: the one candidate that resolves. -/
def single {α : Type} (valid : List (Char × α)) (failures : List String) :
    Except ResolutionError (Char × α) :=
  match valid with
  | [found] => .ok found
  | [] =>
      rejected ("cannot resolve one CSV delimiter and valid headers for all sources; specify " ++
        "--delimiter and explicit --nodes/--relationships or a manifest when metadata is missing.\n" ++
        "\n".intercalate failures)
  | valid =>
      rejected ("ambiguous CSV delimiter ([" ++
        ", ".intercalate (valid.map fun found => debugChar found.1) ++
        "]); specify --delimiter explicitly")

/-- `prepare`, up to the sources; each candidate opens the files anew. -/
def prepare (files : Char → Files) (opts : HeaderOptions) (h : opts.Valid) (auto : Bool)
    (raw : List RawSource) : Except ResolutionError (Char × List PreparedSource) :=
  if auto then do
    let (valid, failures) ← probe
      (fun delimiter => resolve (files delimiter) (opts.withDelimiter delimiter)
        (h.withDelimiter delimiter) true raw) (candidates opts)
    single valid failures
  else (resolve (files opts.delimiter) opts h false raw).map fun sources =>
    (opts.delimiter, sources)

/-! ## With and without the limit -/

/-- The one result is the other, or a limit was reached, if `short`. -/
def Agrees {α : Type} (short : Prop) (result result' : Except ResolutionError α) : Prop :=
  result = result' ∨ short ∧ ∃ message, result = .error (.error message true)

/-- What goes on behind an agreement agrees. -/
theorem Agrees.bind {α β : Type} {short : Prop} {x x' : Except ResolutionError α}
    {f : α → Except ResolutionError β} (h : Agrees short x x') :
    Agrees short (x >>= f) (x' >>= f) := by
  rcases h with rfl | ⟨hshort, message, rfl⟩
  · exact .inl rfl
  · exact .inr ⟨hshort, message, rfl⟩

/-- So do lists of agreeing results. -/
theorem Agrees.mapM {α β : Type} {short : Prop} {f f' : α → Except ResolutionError β} :
    ∀ {xs : List α}, (∀ x ∈ xs, Agrees short (f x) (f' x)) →
      Agrees short (xs.mapM f) (xs.mapM f')
  | [], _ => .inl rfl
  | x :: xs, h => by
      rw [List.mapM_cons, List.mapM_cons]
      rcases h x (by simp) with hx | ⟨hshort, message, hx⟩
      · rw [hx]
        cases f' x with
        | error e => exact .inl rfl
        | ok y => exact (Agrees.mapM fun x hx => h x (List.mem_cons_of_mem _ hx)).bind
      · rw [hx]
        exact .inr ⟨hshort, message, rfl⟩

end Velr.Import
