import Velr.Body.Spool
import Velr.IndexStats.Statistics

/-!
# The primary index

`RecordReader` and `PrimaryRecords` of `bulk_body.rs`: the records of a spool on their way to the
page writer, each checked against the one before and reported to the index statistics. What
`OwnerProperties` has pushed is accepted whole, and the place of a record leads back to it
(`owner_properties`).
-/

namespace Velr.Body

open ByteString
open IndexStats (Failure IndexStatistics streamOf)
open PrefixGroups (firstChanged changesFrom changesFrom_none)
open Record (Value RecordValues recordValues encodePropertyRecord)

/-! ## The reader -/

/-- `RecordReader`. Its input is the file and what is left of it to read; call `n` of `fill_buf`
finds `fills n` bytes of that in the buffer, and at least one while there is one. -/
structure RecordReader where
  file : Bytes
  rest : Bytes
  fills : Nat → Nat
  calls : Nat
  offset : Nat
  frameOffset : Nat
  pending : Nat
  record : Bytes

/-- `RecordReader::open` -/
def RecordReader.open (file : Bytes) (fills : Nat → Nat) : RecordReader :=
  { file, rest := file, fills, calls := 0, offset := 0, frameOffset := 0, pending := 0,
    record := [] }

/-- `next_record`: a frame that lies in the buffer. -/
def wholeFrame (buffered : Bytes) : Option (Int64 × Nat) :=
  if 12 ≤ buffered.length then
    let stop := ofLE (slice buffered 8 4) + 12
    if stop ≤ buffered.length then some (fromLeBytes (buffered.take 8), stop) else none
  else none

/-- `RecordReader::next_record` -/
def RecordReader.nextRecord (reader : RecordReader) :
    Except Failure (Option (Int64 × Bytes) × RecordReader) :=
  let input := reader.rest.drop reader.pending
  let buffered := input.take (max (reader.fills reader.calls) 1)
  let calls := reader.calls + 1
  let frameOffset := reader.offset
  if buffered.isEmpty then .ok (none, { reader with rest := input, pending := 0, calls })
  else
    match wholeFrame buffered with
    | some (rowid, length) =>
        if 2 ^ 64 ≤ frameOffset + length then .error (.error "record spool offset overflow")
        else
          .ok (some (rowid, slice buffered 12 (length - 12)),
            { reader with
              rest := input, pending := length, calls, frameOffset,
              offset := frameOffset + length })
    | none => do
        match ← readFrame input with
        | none => .ok (none, { reader with rest := input, pending := 0, calls })
        | some (rowid, record, rest) =>
            if 2 ^ 64 ≤ frameOffset + (12 + record.length) then
              .error (.error "record spool offset overflow")
            else
              .ok (some (rowid, record),
                { reader with
                  rest, pending := 0, calls, record, frameOffset
                  offset := frameOffset + (12 + record.length) })

/-- `RecordReader::read_witness` -/
def RecordReader.readWitness (reader : RecordReader) (offset : UInt64) :
    Except Failure ((Int64 × Bytes) × RecordReader) := do
  match ← readFrame (reader.file.drop offset.toNat) with
  | none => .error (.error "index statistics witness is outside the record spool")
  | some (rowid, record, rest) =>
      if 2 ^ 64 ≤ offset.toNat + (12 + record.length) then
        .error (.error "record spool offset overflow")
      else
        .ok ((rowid, record),
          { reader with
            pending := 0, rest, frameOffset := offset.toNat
            offset := offset.toNat + (12 + record.length) })

/-! ## The checks -/

/-- What `record_values` and its iterator return, and their panics. -/
def ofRecord {α : Type} : Option (Except String α) → Except Failure α
  | none => .error .panic
  | some (.error message) => .error (.error message)
  | some (.ok a) => .ok a

/-- `primary_key`: the loop over the keys. -/
def readKeys : Nat → RecordValues → Except Failure (List Int64)
  | 0, _ => .ok []
  | n + 1, fields =>
      match fields.next with
      | none => .error .panic
      | some (some (.error message), _) => .error (.error message)
      | some (some (.ok (.integer key)), fields) => do
          let keys ← readKeys n fields
          .ok (key :: keys)
      | some _ => .error (.error "primary index key is not an integer")

/-- `primary_key` -/
def primaryKey (record : Bytes) (columns : Nat) : Except Failure (List Int64) := do
  let fields ← ofRecord (recordValues record)
  -- `keys[..columns]` of an array of three
  if 3 < columns then .error .panic
  else
    let keys ← readKeys columns fields
    .ok (keys ++ List.replicate (3 - columns) 0)

/-- Keys as numbers. -/
def toInts (keys : List Int64) : List Int := keys.map Int64.toInt

/-- `PrimaryRecords` -/
structure PrimaryRecords where
  reader : RecordReader
  statistics : IndexStatistics
  previous : Option (List Int64)
  columns : Nat

/-- `PrimaryRecords::next`: the first column that differs from the keys before. -/
def changedColumn (columns : Nat) (keys : List Int64) : Option (List Int64) → Except Failure Nat
  | none => .ok 0
  | some previous =>
      if ¬toInts (previous.take 2) < toInts (keys.take 2) then
        .error (.error "primary index keys are not strictly increasing")
      else
        match ((keys.take columns).zip (previous.take columns)).findIdx?
            fun (new, old) => new != old
        with
        | some column => .ok column
        | none => .error (.error "primary index contains a duplicate complete key")

/-- `PrimaryRecords::next` -/
def PrimaryRecords.next (st : PrimaryRecords) :
    Except Failure (Option (Int64 × Bytes) × PrimaryRecords) := do
  let witness := st.reader.offset
  match ← st.reader.nextRecord with
  | (none, reader) => .ok (none, { st with reader })
  | (some (_, record), reader) => do
      let keys ← primaryKey record st.columns
      let changed ← changedColumn st.columns keys st.previous
      let statistics ← st.statistics.push changed (.ofNat witness)
      .ok (some (0, record), { st with reader, statistics, previous := some keys })

/-- The page writer asks for the next row until there is none. -/
inductive Delivers : PrimaryRecords → List (Int64 × Bytes) → PrimaryRecords → Prop
  | done {st st' : PrimaryRecords} : st.next = .ok (none, st') → Delivers st [] st'
  | step {st st' st'' : PrimaryRecords} {row : Int64 × Bytes} {rows : List (Int64 × Bytes)} :
      st.next = .ok (some row, st') → Delivers st' rows st'' → Delivers st (row :: rows) st''

/-! ## Reading back -/

/-- A reader in front of some rows. -/
structure At (reader : RecordReader) (rows : List (Int64 × Bytes)) : Prop where
  rest : reader.rest.drop reader.pending = framesOf rows
  bound : reader.offset + (framesOf rows).length < 2 ^ 64

/-- At the end of the file there is no record. -/
theorem At.nextRecord_nil {reader : RecordReader} (h : At reader []) :
    ∃ reader', reader.nextRecord = .ok (none, reader') := by
  have hrest : reader.rest.drop reader.pending = [] := h.rest
  rw [RecordReader.nextRecord, hrest, List.take_nil]
  exact ⟨_, rfl⟩

/-- A frame that starts in the buffer and is found whole there. -/
theorem wholeFrame_cases {rowid : Int64} {record buffered tail rest : Bytes}
    (hfits : record.length < 2 ^ 32) (h : buffered ++ tail = frame rowid record ++ rest) :
    wholeFrame buffered = none ∨ wholeFrame buffered = some (rowid, 12 + record.length) ∧
      slice buffered 12 record.length = record := by
  obtain ⟨hrowid, hlength, hbehind⟩ := @frame_fields rowid record hfits rest
  rw [← h] at hrowid hlength hbehind
  rw [wholeFrame]
  by_cases hheader : 12 ≤ buffered.length
  · rw [List.take_append_of_le_length (by omega)] at hrowid
    rw [slice_append_left (by omega)] at hlength
    rw [if_pos hheader, hlength, hrowid]
    dsimp only
    by_cases hwhole : record.length + 12 ≤ buffered.length
    · rw [if_pos hwhole, Nat.add_comm]
      refine .inr ⟨rfl, ?_⟩
      rw [← slice_append_left (b := tail) (by omega), slice, hbehind, List.take_left]
    · rw [if_neg hwhole]
      exact .inl rfl
  · rw [if_neg hheader]
    exact .inl rfl

/-- The next row is read, whether its frame lies in the buffer or not. -/
theorem At.nextRecord_cons {reader : RecordReader} {row : Int64 × Bytes}
    {rows : List (Int64 × Bytes)} (h : At reader (row :: rows)) (hfits : row.2.length < 2 ^ 32) :
    ∃ reader', reader.nextRecord = .ok (some row, reader') ∧ At reader' rows ∧
      reader'.offset = reader.offset + (12 + row.2.length) := by
  have hrest : reader.rest.drop reader.pending = frame row.1 row.2 ++ framesOf rows := h.rest
  have hbound := h.bound
  rw [framesOf_cons, List.length_append, length_frame] at hbound
  have hsplit := List.take_append_drop (max (reader.fills reader.calls) 1)
    (frame row.1 row.2 ++ framesOf rows)
  have hsome : ((frame row.1 row.2 ++ framesOf rows).take
      (max (reader.fills reader.calls) 1)).isEmpty = false := by
    rw [List.isEmpty_eq_false_iff, ← List.length_pos_iff, List.length_take, List.length_append,
      length_frame]
    omega
  rw [RecordReader.nextRecord, hrest, hsome, if_neg (by decide)]
  rcases wholeFrame_cases hfits hsplit with hnone | ⟨hwhole, hrecord⟩
  · rw [hnone, readFrame_frame hfits]
    simp only [bind, Except.bind]
    rw [if_neg (by omega)]
    exact ⟨_, rfl, ⟨rfl, by show _ + _ + _ < _; omega⟩, rfl⟩
  · rw [hwhole]
    simp only [Nat.add_sub_cancel_left, hrecord]
    rw [if_neg (by omega)]
    refine ⟨_, rfl, ⟨?_, by show _ + _ + _ < _; omega⟩, rfl⟩
    show (frame row.1 row.2 ++ framesOf rows).drop (12 + row.2.length) = framesOf rows
    rw [List.drop_left' (length_frame _ _)]

/-- The places of rows in a stream. -/
def offsetsFrom : Nat → List (Int64 × Bytes) → List Nat
  | _, [] => []
  | offset, row :: rows => offset :: offsetsFrom (offset + (12 + row.2.length)) rows

/-- The places of rows as witnesses. -/
def witnessesFrom (offset : Nat) (rows : List (Int64 × Bytes)) : List UInt64 :=
  (offsetsFrom offset rows).map .ofNat

/-- A witness leads back to its row, wherever the reader stands. -/
theorem readWitness_rows (front : List (Int64 × Bytes)) : ∀ {rows : List (Int64 × Bytes)},
    (∀ row ∈ rows, row.2.length < 2 ^ 32) → (framesOf (front ++ rows)).length < 2 ^ 64 →
    List.Forall₂ (fun (witness : UInt64) (row : Int64 × Bytes) =>
        ∀ reader : RecordReader, reader.file = framesOf (front ++ rows) →
          ∃ reader', reader.readWitness witness = .ok (row, reader'))
      (witnessesFrom (framesOf front).length rows) rows
  | [], _, _ => .nil
  | row :: rows, hfits, hbound => by
      have hrow := hfits row (by simp)
      have hlength : (framesOf (front ++ row :: rows)).length =
          (framesOf front).length + (12 + row.2.length + (framesOf rows).length) := by
        rw [framesOf_append, List.length_append, framesOf_cons, List.length_append, length_frame]
      have hplace : (UInt64.ofNat (framesOf front).length).toNat = (framesOf front).length :=
        UInt64.toNat_ofNat_of_lt' (by show _ < 2 ^ 64; omega)
      have hnext : (framesOf (front ++ [row])).length =
          (framesOf front).length + (12 + row.2.length) := by
        simp [framesOf_append]
      have hassoc : front ++ [row] ++ rows = front ++ row :: rows := by simp
      have htail := @readWitness_rows (front ++ [row]) rows (fun r hr => hfits r (by simp [hr]))
        (hassoc ▸ hbound)
      rw [hnext, hassoc] at htail
      refine .cons (fun reader hfile => ?_) htail
      rw [RecordReader.readWitness, hplace, hfile, framesOf_append, List.drop_left, framesOf_cons,
        readFrame_frame hrow]
      simp only [bind, Except.bind]
      rw [if_neg (by omega)]
      exact ⟨_, rfl⟩

/-! ## Keys -/

/-- The value of a property as a key. -/
def Value.key : Value → List Int64
  | .integer value => [value]
  | _ => []

/-- The columns of a property in the primary index. -/
def Property.keys (columns : Nat) (p : Property) : List Int64 :=
  (p.owner :: p.key :: Value.key p.value).take columns

/-- The key columns that a property has. -/
def Keyed (columns : Nat) (p : Property) : Prop :=
  columns = 2 ∨ columns = 3 ∧ ∃ value, p.value = .integer value

/-- The keys of a property's record. -/
theorem primaryKey_record {columns : Nat} {p : Property} (hfits : p.Fits)
    (hkeyed : Keyed columns p) :
    primaryKey p.record columns = .ok (p.keys columns ++ List.replicate (3 - columns) 0) := by
  have hlength : (Record.encodeRecord [.integer p.owner, .integer p.key, p.value]).length
      ≤ Record.isizeMax := by
    rw [Property.Fits, Property.record, Record.encodePropertyRecord_eq] at hfits
    exact Nat.le_of_lt (Nat.lt_trans hfits (by decide))
  obtain ⟨it₀, hrecord, henc₀⟩ := Record.recordValues_encodeRecord hlength
  obtain ⟨it₁, hnext₁, henc₁⟩ := henc₀.next
  obtain ⟨it₂, hnext₂, henc₂⟩ := henc₁.next
  obtain ⟨it₃, hnext₃, -⟩ := henc₂.next
  rw [primaryKey, Property.record, Record.encodePropertyRecord_eq, hrecord]
  rcases hkeyed with rfl | ⟨rfl, value, hvalue⟩
  · simp [ofRecord, readKeys, hnext₁, hnext₂, bind, Except.bind, Property.keys]
  · rw [hvalue] at hnext₃
    simp [ofRecord, readKeys, hnext₁, hnext₂, hnext₃, bind, Except.bind, Property.keys, hvalue,
      Value.key]

/-- Where two keys of one width differ. -/
theorem findIdx?_zip : ∀ {old new : List Int64}, old.length = new.length → old ≠ new →
    ((new.zip old).findIdx? fun (new, old) => new != old)
      = some (firstChanged (toInts old) (toInts new))
  | [], [], _, hne => absurd rfl hne
  | a :: old, b :: new, hlength, hne => by
      rw [List.zip_cons_cons, List.findIdx?_cons, toInts, toInts, List.map_cons, List.map_cons,
        firstChanged]
      by_cases hab : a = b
      · subst hab
        have hrest := findIdx?_zip (Nat.succ.inj hlength) fun heq => hne (heq ▸ rfl)
        rw [if_pos rfl, if_neg (by simp), hrest]
        rfl
      · have hint : a.toInt ≠ b.toInt := fun heq => hab (Int64.toInt_inj.mp heq)
        rw [if_neg hint, if_pos (by simpa using fun heq => hab heq.symm)]

/-- The first two of the keys. -/
theorem Keyed.keys {columns : Nat} {p : Property} (h : Keyed columns p) :
    (p.keys columns).length = columns ∧
      ∀ padding, (p.keys columns ++ padding).take 2 = [p.owner, p.key] := by
  rcases h with rfl | ⟨rfl, value, hvalue⟩
  · exact ⟨rfl, fun _ => rfl⟩
  · rw [Property.keys, hvalue]
    exact ⟨rfl, fun _ => rfl⟩

/-- Properties in strict order compare at their owners and keys. -/
theorem Property.Lt.keys_lt {p q : Property} (h : p.Lt q) (xs ys : List Int64) :
    toInts (p.owner :: p.key :: xs) < toInts (q.owner :: q.key :: ys) := by
  simp only [toInts, List.map_cons, List.cons_lt_cons_iff]
  rcases h with hlt | ⟨heq, hlt⟩
  · exact .inl (Int64.lt_iff_toInt_lt.mp hlt)
  · exact .inr ⟨by rw [heq], .inl (Int64.lt_iff_toInt_lt.mp hlt)⟩

/-- Properties in order have index rows in order. -/
theorem Property.Lt.row_lt {columns : Nat} {p q : Property} (h : p.Lt q) (hp : Keyed columns p)
    (hq : Keyed columns q) : toInts (p.keys columns) < toInts (q.keys columns) := by
  rcases hp with rfl | ⟨rfl, -⟩
  · exact h.keys_lt [] []
  · exact h.keys_lt ((Value.key p.value).take 1) ((Value.key q.value).take 1)

/-- Behind a property of lower key, the columns that change are found. -/
theorem changedColumn_eq {columns : Nat} {p : Property} {last : Option Property}
    (hkeyed : Keyed columns p) (hlast : ∀ q ∈ last, Keyed columns q ∧ q.Lt p) :
    changedColumn columns (p.keys columns ++ List.replicate (3 - columns) 0)
        (last.map fun q => q.keys columns ++ List.replicate (3 - columns) 0)
      = .ok ((last.map fun q => toInts (q.keys columns)).elim 0
          (firstChanged · (toInts (p.keys columns)))) := by
  cases last with
  | none => rfl
  | some q =>
      obtain ⟨hqkeyed, hlt⟩ := hlast q rfl
      have hlengths := hqkeyed.keys.1.trans hkeyed.keys.1.symm
      have hne : q.keys columns ≠ p.keys columns := fun heq =>
        absurd (hlt.row_lt hqkeyed hkeyed) (by rw [heq]; exact lt_irrefl _)
      rw [Option.map_some, changedColumn, hqkeyed.keys.2, hkeyed.keys.2, if_neg
        (not_not.mpr (hlt.keys_lt [] [])), List.take_left' hkeyed.keys.1,
          List.take_left' hqkeyed.keys.1, findIdx?_zip hlengths hne]
      rfl

/-! ## The index -/

/-- The rows of properties in strict order are delivered, with their columns and places. -/
theorem delivers {columns : Nat} : ∀ {left : List Property} {last : Option Property}
    {st : PrimaryRecords} {statistics : IndexStatistics}, st.columns = columns →
    st.previous = (last.map fun q => q.keys columns ++ List.replicate (3 - columns) 0) →
    At st.reader (left.map Property.row) →
    (∀ p ∈ last.toList ++ left, Keyed columns p) → (∀ p ∈ left, p.Fits) →
    (last.toList ++ left).Pairwise Property.Lt →
    st.statistics.pushAll ((changesFrom (last.map fun q => toInts (q.keys columns))
        (left.map fun p => toInts (p.keys columns))).zip
      (witnessesFrom st.reader.offset (left.map Property.row))) = .ok statistics →
    ∃ st', Delivers st (left.map fun p => (0, p.record)) st' ∧ st'.statistics = statistics
  | [], last, st, statistics, _, _, hat, _, _, _, hpush => by
      obtain ⟨reader, hread⟩ := hat.nextRecord_nil
      cases hpush
      refine ⟨{ st with reader }, .done ?_, rfl⟩
      rw [PrimaryRecords.next, hread]
      rfl
  | p :: left, last, st, statistics, hcolumns, hprevious, hat, hkeyed, hfits, hsorted, hpush => by
      subst hcolumns
      have hp : Keyed st.columns p := hkeyed p (by simp)
      obtain ⟨reader, hread, hat', hoffset⟩ := hat.nextRecord_cons (hfits p (by simp))
      have hchanged := @changedColumn_eq st.columns p last hp fun q hq => by
        rw [Option.mem_def.mp hq] at hkeyed hsorted
        exact ⟨hkeyed q (by simp), (List.pairwise_cons.mp hsorted).1 p (by simp)⟩
      rw [List.map_cons, changesFrom, List.map_cons, witnessesFrom, offsetsFrom, List.map_cons,
        List.zip_cons_cons] at hpush
      obtain ⟨pushed, hfirst, hrest⟩ := Results.bind_eq_ok_iff.mp hpush
      have hnext : st.next = .ok (some (0, p.record),
          { st with
            reader, statistics := pushed
            previous := some (p.keys st.columns ++ List.replicate (3 - st.columns) 0) }) := by
        have hkey : primaryKey p.row.2 st.columns = _ := primaryKey_record (hfits p (by simp)) hp
        rw [← hprevious] at hchanged
        rw [PrimaryRecords.next, hread]
        simp only [bind, Except.bind, hkey, hchanged, hfirst]
        rfl
      rw [← hoffset] at hrest
      obtain ⟨st', hdelivers, hstatistics⟩ := @delivers st.columns left (some p)
        { st with
          reader, statistics := pushed
          previous := some (p.keys st.columns ++ List.replicate (3 - st.columns) 0) }
        statistics rfl rfl hat' (fun q hq => hkeyed q (List.mem_append_right _ hq))
          (fun q hq => hfits q (by simp [hq]))
        (List.pairwise_append.mp hsorted).2.1 hrest
      exact ⟨st', .step hnext hdelivers, hstatistics⟩

/-- What a primary index is made of: the rows of some properties with their columns, and the places
that lead back to them. -/
structure Indexed (columns : Nat) (sorted : List Property) (file : Bytes) : Prop where
  /-- All rows are delivered, however the file is buffered, and each is reported. -/
  delivered : ∃ start finish,
    IndexStatistics.new columns 2 (.ofNat sorted.length) = .ok start ∧
    start.pushAll (streamOf (sorted.map fun p => toInts (p.keys columns))
      (witnessesFrom 0 (sorted.map Property.row))) = .ok finish ∧
    ∀ fills, ∃ st, st.statistics = finish ∧
      Delivers { reader := .open file fills, statistics := start, previous := none, columns }
        (sorted.map fun p => (0, p.record)) st
  /-- A witness leads back to its row. -/
  witnesses : List.Forall₂ (fun (witness : UInt64) (p : Property) =>
      ∀ reader : RecordReader, reader.file = file →
        ∃ reader', reader.readWitness witness = .ok (p.row, reader'))
    (witnessesFrom 0 (sorted.map Property.row)) sorted

/-- The stream of sorted rows can be pushed. -/
theorem streamOf_pushable {columns : Nat} {rows : List (List Int)} (hcolumns : 0 < columns)
    (hrows : PrefixGroups.Sorted columns rows) (witnesses : List UInt64) :
    (streamOf rows witnesses).length ≤ rows.length ∧
      (∀ row ∈ (streamOf rows witnesses).head?, row.1 = 0) ∧
      ∀ row ∈ streamOf rows witnesses, row.1 < columns := by
  refine ⟨?_, fun row hrow => ?_, fun row hrow => ?_⟩
  · rw [streamOf, List.length_zip, List.length_map, List.length_range]
    exact Nat.min_le_left _ _
  · rw [streamOf, ← changesFrom_none] at hrow
    cases rows with
    | nil => cases hrow
    | cons first rows =>
        cases witnesses with
        | nil => cases hrow
        | cons witness witnesses =>
            cases hrow
            rfl
  · obtain ⟨i, hi, hchanged⟩ := List.mem_map.mp (List.of_mem_zip hrow).1
    rw [← hchanged]
    exact hrows.changedAt_lt hcolumns (List.mem_range.mp hi)

/-- The primary index of sorted properties is that of their rows. -/
theorem indexed {columns : Nat} (hcolumns : columns = 2 ∨ columns = 3) {sorted : List Property}
    (hkeyed : ∀ p ∈ sorted, Keyed columns p) (hfits : ∀ p ∈ sorted, p.Fits)
    (hsorted : sorted.Pairwise Property.Lt)
    (hfile : (framesOf (sorted.map Property.row)).length < 2 ^ 64) :
    Indexed columns sorted (framesOf (sorted.map Property.row)) := by
  have hwidth : 0 < columns ∧ columns ≤ IndexStats.maxColumns := by
    rcases hcolumns with rfl | rfl <;> decide
  have hrowFits : ∀ row ∈ sorted.map Property.row, row.2.length < 2 ^ 32 := by
    intro row hrow
    obtain ⟨p, hp, rfl⟩ := List.mem_map.mp hrow
    exact hfits p hp
  have hcount : sorted.length < 2 ^ 64 := by
    have hle : ∀ rows : List (Int64 × Bytes), rows.length ≤ (framesOf rows).length := by
      intro rows
      induction rows with
      | nil => exact Nat.le_refl 0
      | cons row rows ih =>
          rw [framesOf_cons, List.length_append, length_frame, List.length_cons]
          omega
    have := hle (sorted.map Property.row)
    rw [List.length_map] at this
    omega
  have hrows : PrefixGroups.Sorted columns (sorted.map fun p => toInts (p.keys columns)) := by
    refine ⟨fun row hrow => ?_, List.pairwise_map.mpr ?_⟩
    · obtain ⟨p, hp, rfl⟩ := List.mem_map.mp hrow
      rw [toInts, List.length_map, (hkeyed p hp).keys.1]
    · exact hsorted.imp_of_mem fun {p q} hp hq hpq => hpq.row_lt (hkeyed p hp) (hkeyed q hq)
  have hnumber : (UInt64.ofNat sorted.length).toNat = sorted.length :=
    UInt64.toNat_ofNat_of_lt' (by show _ < 2 ^ 64; omega)
  obtain ⟨start, hnew, hstarted⟩ := IndexStats.new_started hwidth
    (show 0 < 2 ∧ 2 ≤ columns by omega) (.ofNat sorted.length)
  rw [hnumber] at hstarted
  obtain ⟨hlength, hfirst, hinside⟩ := streamOf_pushable hwidth.1 hrows
    (witnessesFrom 0 (sorted.map Property.row))
  rw [List.length_map] at hlength
  obtain ⟨finish, hpush⟩ := hstarted.pushAll_ok hwidth hcount hlength hfirst hinside
  refine ⟨⟨start, finish, hnew, hpush, fun fills => ?_⟩, ?_⟩
  · have hat : At (.open (framesOf (sorted.map Property.row)) fills) (sorted.map Property.row) :=
      ⟨rfl, by simpa [RecordReader.open] using hfile⟩
    rw [streamOf, ← changesFrom_none] at hpush
    obtain ⟨st, hdelivers, hstatistics⟩ := @delivers columns sorted none
      { reader := .open (framesOf (sorted.map Property.row)) fills, statistics := start
        previous := none, columns } finish rfl rfl hat hkeyed hfits hsorted hpush
    exact ⟨st, hstatistics, hdelivers⟩
  · have hread := readWitness_rows [] hrowFits (by simpa using hfile)
    rw [List.forall₂_map_right_iff] at hread
    exact hread

/-- The stream of properties that arrive owner by owner, as a spool and as a primary index. -/
theorem pushAll_flush {properties : List Property} (hgrouped : properties.Pairwise Property.Grouped)
    (hfits : ∀ p ∈ properties, p.Fits) : ∃ st sorted,
      ((OwnerProperties.new .create).pushAll properties >>= OwnerProperties.flush) = .ok st ∧
      sorted.Perm properties ∧ sorted.Pairwise Property.Lt ∧
      st.spool.output = framesOf (sorted.map Property.row) ∧
      st.spool.rows = properties.length ∧
      (st.spool.output.length < 2 ^ 64 → ∀ columns,
        columns = 2 ∨ columns = 3 ∧ (∀ p ∈ properties, ∃ value, p.value = .integer value) →
        Indexed columns sorted st.spool.output) := by
  obtain ⟨st, sorted, hrun, hperm, hordered, houtput, hrows, -⟩ :=
    (OwnerProperties.new_holds .create).pushAll_ok hgrouped hfits
  have hsortedFits : ∀ p ∈ sorted, p.Fits := fun p hp => hfits p (hperm.mem_iff.mp hp)
  refine ⟨st, sorted, hrun, hperm, hordered, houtput, hrows.trans (Nat.zero_add _),
    fun hfile columns hcolumns => ?_⟩
  have hwidth : columns = 2 ∨ columns = 3 := hcolumns.imp_right And.left
  have hkeyed : ∀ p ∈ sorted, Keyed columns p := fun p hp =>
    hcolumns.imp_right fun h => ⟨h.1, h.2 p (hperm.mem_iff.mp hp)⟩
  have hstream : st.spool.output = framesOf (sorted.map Property.row) := houtput
  rw [hstream] at hfile ⊢
  exact indexed hwidth hkeyed hsortedFits hordered hfile

/-- Properties that arrive owner by owner, with distinct keys of each: a record that is too large
ends the run; otherwise the spool holds the record of each property under its owner, in strict order
of owner and key, and the record is read back as the property. As a primary index of two columns, or
of three where the values are integers, the stream is accepted whole. -/
theorem owner_properties {properties : List Property}
    (hgrouped : properties.Pairwise Property.Grouped) :
    ((∃ p ∈ properties, ¬p.Fits) →
      ((OwnerProperties.new .create).pushAll properties >>= OwnerProperties.flush)
        = .error (.error "record is too large")) ∧
    ((∀ p ∈ properties, p.Fits) → ∃ st sorted,
      ((OwnerProperties.new .create).pushAll properties >>= OwnerProperties.flush) = .ok st ∧
      sorted.Perm properties ∧ sorted.Pairwise Property.Lt ∧
      st.spool.output = framesOf (sorted.map Property.row) ∧
      st.spool.rows = properties.length ∧
      (∀ p ∈ sorted, ∃ it, recordValues p.record = some (.ok it) ∧
        it.collect 4 = some [.ok (.integer p.owner), .ok (.integer p.key), .ok p.value]) ∧
      (st.spool.output.length < 2 ^ 64 → ∀ columns,
        columns = 2 ∨ columns = 3 ∧ (∀ p ∈ properties, ∃ value, p.value = .integer value) →
        Indexed columns sorted st.spool.output)) := by
  refine ⟨fun hlarge => (OwnerProperties.new_holds .create).pushAll_error hlarge, fun hfits => ?_⟩
  obtain ⟨st, sorted, hrun, hperm, hordered, houtput, hrows, hindexed⟩ :=
    pushAll_flush hgrouped hfits
  refine ⟨st, sorted, hrun, hperm, hordered, houtput, hrows, fun p hp => ?_, hindexed⟩
  have hfit := hfits p (hperm.mem_iff.mp hp)
  rw [Property.Fits, Property.record, Record.encodePropertyRecord_eq] at hfit
  obtain ⟨it, hread, hcollect⟩ := Record.collect_encodeRecord
    (Nat.le_of_lt (Nat.lt_trans hfit (by decide)))
  rw [Property.record, Record.encodePropertyRecord_eq]
  exact ⟨it, hread, hcollect 4 (Nat.lt_succ_self 3)⟩

/-- Two owners, the first with more properties than the second and its keys out of order. -/
theorem owner_properties_small :
    ∃ st sorted,
      ((OwnerProperties.new .create).pushAll
        [⟨1, 7, .integer 3⟩, ⟨1, -2, .integer 1⟩, ⟨4, 0, .integer 2⟩]
          >>= OwnerProperties.flush) = .ok st ∧
      sorted.Perm [⟨1, 7, .integer 3⟩, ⟨1, -2, .integer 1⟩, ⟨4, 0, .integer 2⟩] ∧
      sorted.Pairwise Property.Lt ∧
      Indexed 3 sorted st.spool.output := by
  have hfits : ∀ p ∈ [⟨1, 7, .integer 3⟩, ⟨1, -2, .integer 1⟩, ⟨4, 0, .integer 2⟩],
      Property.Fits p := by decide
  obtain ⟨st, sorted, hrun, hperm, hordered, houtput, -, -, hindexed⟩ :=
    (@owner_properties [⟨1, 7, .integer 3⟩, ⟨1, -2, .integer 1⟩, ⟨4, 0, .integer 2⟩]
      (by decide)).2 hfits
  refine ⟨st, sorted, hrun, hperm, hordered, hindexed ?_ 3 (.inr ⟨rfl, by simp⟩)⟩
  have hsum := (hperm.map fun p => (frame p.owner p.record).length).sum_nat
  rw [houtput, framesOf, List.length_flatMap, List.map_map]
  exact lt_of_eq_of_lt hsum (by decide)

end Velr.Body
