import Velr.IndexStats.Statistics
import Velr.Sort.PagePlan
import Velr.Sort.Sorted

/-!
# The sorted index

`IntegerSpool::sort_keys` of `index_builder.rs`. The last merge unpacks each key, finds the first
column of its record that differs from the record before, and writes the record behind its length;
the place in the stream is the witness of the record.
-/

namespace Velr.Sort

open IndexStats (Failure IndexStatistics FullIndexStatistics)
open ByteString (Bytes)

/-! ## Frames -/

/-- `write_encoded_record` -/
def writeEncodedRecord (record : Bytes) : Except Failure Bytes :=
  if 255 < record.length then .error (.error "secondary index record is too large")
  else if record.length = 0 then .error (.error "secondary index record is empty")
  else .ok (.ofNat record.length :: record)

/-- `read_encoded_record`: the record and what is behind it. -/
def readEncodedRecord : Bytes → Except Failure (Option (Bytes × Bytes))
  | [] => .ok none
  | length :: input =>
      if length = 0 then .error (.error "encoded secondary index record is empty")
      else if input.length < length.toNat then .error (.error "failed to fill whole buffer")
      else .ok (some (input.take length.toNat, input.drop length.toNat))

/-- What `EncodedIndexSource` returns, one record after another. -/
def readEncoded (input : Bytes) : Except Failure (List Bytes) :=
  match _h : readEncodedRecord input with
  | .error e => .error e
  | .ok none => .ok []
  | .ok (some (record, rest)) => do
      let records ← readEncoded rest
      .ok (record :: records)
termination_by input.length
decreasing_by
  have hread := ‹readEncodedRecord input = _›
  cases input with
  | nil => cases hread
  | cons length input =>
      rw [readEncodedRecord] at hread
      split at hread
      · cases hread
      · split at hread
        · cases hread
        · cases hread
          rw [List.length_drop, List.length_cons]
          omega

/-! ## The last merge -/

/-- `sort_keys`: the plan of a page size. -/
def newPlan : Option Nat → Except Failure (Option IndexPagePlan)
  | none => .ok none
  | some pageSize => (IndexPagePlan.new pageSize).map some

/-- `sort_keys`: a record is planned. -/
def pushPlan (length : Nat) : Option IndexPagePlan → Except Failure (Option IndexPagePlan)
  | none => .ok none
  | some plan => (plan.push length).map some

/-- The variables of the visitor of `sort_keys`. -/
structure Emitter where
  statistics : IndexStatistics
  previous : Option Tuple
  output : Bytes
  plan : Option IndexPagePlan
  offset : Nat

/-- `sort_keys`: the visitor of the last merge. -/
def emit (K : Type) [SortKey K] (codec : Codec) (spec : IntegerIndexSpec) (st : Emitter) (key : K)
    (_row : Nat) : Except Failure Emitter := do
  let tuple ← SortKey.unpack codec key
  let changed ← changedColumn spec "integer index stream contains duplicate complete keys" tuple
    st.previous
  let statistics ← st.statistics.push changed (.ofNat st.offset)
  let record ← tupleRecord spec tuple
  let plan ← pushPlan record.length st.plan
  let framed ← writeEncodedRecord record
  if 2 ^ 64 ≤ st.offset + framed.length then
    .error (.error "encoded integer index offset overflow")
  else
    .ok
      { statistics, previous := some tuple, output := st.output ++ framed, plan
        offset := st.offset + framed.length }

/-- `SortedIntegerIndex`; its file is `stream`. -/
structure SortedIntegerIndex where
  stream : Bytes
  statistics : FullIndexStatistics
  plannedPages : Option (Nat × Nat)
deriving DecidableEq

/-- `sort_keys`: the pages of the plan beside the page size. -/
def finishPlan (pageSize : Option Nat) : Option IndexPagePlan → Except Failure (Option (Nat × Nat))
  | none => .ok none
  | some plan => do
      let pages ← plan.finish
      match pageSize with
      | some pageSize => .ok (some (pageSize, pages))
      | none => .error .panic

/-- `sort_keys`, behind the runs. -/
def mergeSorted (K : Type) [SortKey K] (spool : IntegerSpool) (codec : Codec)
    (spec : IntegerIndexSpec) (pageSize : Option Nat) (runs : List (List K)) :
    Except Failure SortedIntegerIndex := do
  let statistics ← IndexStatistics.new spec.recordFields.length spec.keyColumns (.ofNat spool.rows)
  let plan ← newPlan pageSize
  let (st, rows) ← mergeVisit runs (emit K codec spec)
    { statistics, previous := none, output := [], plan, offset := 0 }
  let plannedPages ← finishPlan pageSize st.plan
  if rows ≠ spool.rows then
    .error (.error "merged integer index has an unexpected row count")
  else do
    let statistics ← st.statistics.finish
    -- full ANALYZE omits empty indexes
    let statistics := if spool.rows = 0 then { statistics with stat1 := "" } else statistics
    .ok { stream := st.output, statistics, plannedPages }

/-- `IntegerSpool::sort_keys` -/
def sortKeys (K : Type) [SortKey K] (spool : IntegerSpool) (codec : Codec)
    (spec : IntegerIndexSpec) (keyBytes workers : Nat) (pageSize : Option Nat) :
    Except Failure SortedIntegerIndex := do
  let capacity := max (keyBytes / RadixKey.bytes K) 1
  if 2 ^ 64 ≤ spool.rows * 32 then
    .error (.error "integer index tuple spool length overflow")
  else if spool.tuples.length * 32 ≠ spool.rows * 32 then
    .error (.error "integer index tuple spool has an unexpected length")
  else do
    let runs ← workerRuns K spool codec capacity workers
    let runs ← mergeGenerations runs
    mergeSorted K spool codec spec pageSize runs

/-- `WORKER_OVERHEAD` -/
def workerOverhead : Nat := 4 * 2 ^ 20

/-- `MAX_KEY_BYTES` -/
def maxKeyBytes : Nat := 64 * 2 ^ 20

/-- `IntegerSpool::sort_one` -/
def sortOne (spool : IntegerSpool) (spec : IntegerIndexSpec) (memoryBytes workers : Nat)
    (pageSize : Option Nat) : Except Failure SortedIntegerIndex := do
  let codec ← Codec.new spool spec
  -- a subtraction that underflows panics
  if memoryBytes / workers < workerOverhead then .error .panic
  else
    let keyBytes := min ((memoryBytes / workers - workerOverhead) / 2) maxKeyBytes
    withKeyType codec.bits fun K _ => sortKeys K spool codec spec keyBytes workers pageSize

/-! ## What the stream is -/

/-- Records behind their lengths. -/
def framesOf (records : List Bytes) : Bytes :=
  records.flatMap fun record => .ofNat record.length :: record

/-- The places of records in the stream. -/
def offsetsFrom : Nat → List Bytes → List Nat
  | _, [] => []
  | offset, record :: records => offset :: offsetsFrom (offset + (record.length + 1)) records

@[simp] theorem length_offsetsFrom (offset : Nat) (records : List Bytes) :
    (offsetsFrom offset records).length = records.length := by
  induction records generalizing offset with
  | nil => rfl
  | cons record records ih => rw [offsetsFrom, List.length_cons, ih, List.length_cons]

@[simp] theorem framesOf_nil : framesOf [] = [] := rfl

@[simp] theorem framesOf_cons (record : Bytes) (records : List Bytes) :
    framesOf (record :: records) = .ofNat record.length :: (record ++ framesOf records) := rfl

/-- A frame has a byte more than its record. -/
theorem length_framesOf (records : List Bytes) :
    (framesOf records).length = (records.map fun record => record.length + 1).sum := by
  simp [framesOf, List.length_flatMap]

/-- A record that a frame holds is read back. -/
theorem readEncodedRecord_frame {record : Bytes} (h : 0 < record.length ∧ record.length ≤ 255)
    (rest : Bytes) :
    readEncodedRecord (.ofNat record.length :: (record ++ rest)) = .ok (some (record, rest)) := by
  have hlength : (UInt8.ofNat record.length).toNat = record.length :=
    UInt8.toNat_ofNat_of_lt' (by show record.length < 256; omega)
  have hzero : UInt8.ofNat record.length ≠ 0 := by
    intro heq
    rw [heq] at hlength
    have : (0 : UInt8).toNat = 0 := rfl
    omega
  rw [readEncodedRecord, if_neg hzero, hlength, if_neg (by rw [List.length_append]; omega),
    List.take_left, List.drop_left]

/-- The stream is read back record by record. -/
theorem readEncoded_framesOf : ∀ {records : List Bytes},
    (∀ record ∈ records, 0 < record.length ∧ record.length ≤ 255) →
    readEncoded (framesOf records) = .ok records
  | [], _ => by
      rw [readEncoded]
      rfl
  | record :: records, h => by
      have hread := readEncodedRecord_frame (h record (by simp)) (framesOf records)
      have ih := readEncoded_framesOf fun r (hr : r ∈ records) => h r (by simp [hr])
      rw [framesOf_cons, readEncoded]
      split
      · next e he => rw [hread] at he; cases he
      · next he => rw [hread] at he; cases he
      · next r rest he =>
          rw [hread] at he
          cases he
          rw [ih]
          rfl

/-! ## What the last merge writes -/

/-- The plan of several records. -/
def pushPlans : List Nat → Option IndexPagePlan → Except Failure (Option IndexPagePlan)
  | [], plan => .ok plan
  | length :: lengths, plan => do
      let plan ← pushPlan length plan
      pushPlans lengths plan

section
variable {K : Type} [SortKey K] {codec : Codec} {spec : IntegerIndexSpec}

/-- The record of a tuple that differs from the one before it is written, and planned. -/
theorem emit_eq (hfields : ∀ field ∈ spec.recordFields, field < 4)
    (hlength : spec.recordFields.length ≤ 8) {st : Emitter} {key : K} {tuple : Tuple} {row : Nat}
    (hunpack : SortKey.unpack codec key = .ok tuple)
    (hdiffers : ∀ last ∈ st.previous,
      valuesOf spec.recordFields last ≠ valuesOf spec.recordFields tuple)
    {statistics : IndexStatistics}
    (hpush : st.statistics.push
      (st.previous.elim 0 fun last =>
        PrefixGroups.firstChanged (rowOf spec last) (rowOf spec tuple))
      (.ofNat st.offset) = .ok statistics)
    (hfits : st.offset + ((recordOf spec tuple).length + 1) < 2 ^ 64) :
    emit K codec spec st key row =
      (pushPlan (recordOf spec tuple).length st.plan).map fun plan =>
        { statistics, previous := some tuple
          output := st.output ++ .ofNat (recordOf spec tuple).length :: recordOf spec tuple
          plan, offset := st.offset + ((recordOf spec tuple).length + 1) } := by
  obtain ⟨hpos, hle⟩ := length_recordOf hlength tuple
  have hframe : writeEncodedRecord (recordOf spec tuple)
      = .ok (.ofNat (recordOf spec tuple).length :: recordOf spec tuple) := by
    rw [writeEncodedRecord, if_neg (by omega), if_neg (by omega)]
  rw [emit, hunpack]
  simp only [bind, Except.bind, changedColumn_eq hfields, if_pos hdiffers, hpush,
    tupleRecord_eq hfields hlength, hframe]
  cases pushPlan (recordOf spec tuple).length st.plan with
  | error e => rfl
  | ok plan =>
      simp only [List.length_cons]
      rw [if_neg (by omega)]
      rfl

/-- The keys of different tuples, visited in turn: their records are written one behind the
other. -/
theorem visitAll_emit (hfields : ∀ field ∈ spec.recordFields, field < 4)
    (hlength : spec.recordFields.length ≤ 8) {keys : List K} {tuples : List Tuple}
    (hunpack : List.Forall₂ (fun key tuple => SortKey.unpack codec key = .ok tuple) keys tuples) :
    ∀ {st : Emitter} {row : Nat} {statistics : IndexStatistics},
      (st.previous.toList ++ tuples).IsChain
        (fun a b => valuesOf spec.recordFields a ≠ valuesOf spec.recordFields b) →
      st.statistics.pushAll ((columnsFrom spec st.previous tuples).zip
        ((offsetsFrom st.offset (tuples.map (recordOf spec))).map UInt64.ofNat)) = .ok statistics →
      st.offset + (framesOf (tuples.map (recordOf spec))).length < 2 ^ 64 →
      visitAll (emit K codec spec) keys row st =
        (pushPlans (tuples.map fun tuple => (recordOf spec tuple).length) st.plan).map fun plan =>
          ({ statistics, previous := tuples.getLast?.or st.previous
             output := st.output ++ framesOf (tuples.map (recordOf spec)), plan
             offset := st.offset + (framesOf (tuples.map (recordOf spec))).length },
            row + keys.length) := by
  induction hunpack with
  | nil =>
      intro st row statistics _ hpush _
      cases hpush
      simp [visitAll, pushPlans, framesOf, Except.map]
  | @cons key tuple keys tuples hkey _ ih =>
      intro st row statistics hchain hpush hfits
      rw [columnsFrom, List.map_cons, offsetsFrom, List.map_cons, List.zip_cons_cons] at hpush
      obtain ⟨pushed, hfirst, hrest⟩ := Results.bind_eq_ok_iff.mp hpush
      rw [List.map_cons, framesOf_cons, List.length_cons, List.length_append] at hfits
      have hdiffers : ∀ last ∈ st.previous,
          valuesOf spec.recordFields last ≠ valuesOf spec.recordFields tuple := by
        intro last hlast
        rw [Option.mem_def] at hlast
        rw [hlast] at hchain
        exact (List.isChain_cons_cons.mp hchain).1
      have hchain' : ((some tuple).toList ++ tuples).IsChain
          (fun a b => valuesOf spec.recordFields a ≠ valuesOf spec.recordFields b) :=
        hchain.right_of_append
      rw [visitAll, emit_eq hfields hlength hkey hdiffers hfirst (by omega)]
      simp only [List.map_cons]
      rw [pushPlans]
      cases pushPlan (recordOf spec tuple).length st.plan with
      | error e => rfl
      | ok plan =>
          show visitAll (emit K codec spec) keys (row + 1) _ = (pushPlans _ plan).map _
          rw [ih hchain' hrest (by show _ + _ + _ < _; omega)]
          congr 1
          funext plan
          have hlast : tuples.getLast?.or (some tuple) = some (tuples.getLast?.getD tuple) := by
            cases tuples.getLast? <;> rfl
          simp only [framesOf_cons, List.append_assoc, List.length_append, List.length_cons,
            List.cons_append, List.getLast?_cons, hlast, Option.some_or, Prod.mk.injEq,
            Emitter.mk.injEq, true_and]
          omega

end

/-! ## The result -/

/-- The plan of the lengths of the records, where a page size asks for one. -/
def planned : Option Nat → List Nat → Except Failure (Option (Nat × Nat))
  | none, _ => .ok none
  | some pageSize, lengths =>
      (planIndexLengths pageSize lengths).map fun pages => some (pageSize, pages)

/-- A plan takes the lengths one after another. -/
theorem pushPlans_some (lengths : List Nat) (plan : IndexPagePlan) :
    pushPlans lengths (some plan) = (plan.pushAll lengths).map some := by
  induction lengths generalizing plan with
  | nil => rfl
  | cons length lengths ih =>
      rw [pushPlans, pushPlan, IndexPagePlan.pushAll]
      cases plan.push length with
      | error e => rfl
      | ok plan => exact ih plan

theorem pushPlans_none : ∀ lengths : List Nat, pushPlans lengths none = .ok none
  | [] => rfl
  | _ :: lengths => pushPlans_none lengths

/-- The plan of a sort is that of its lengths. -/
theorem planned_eq (pageSize : Option Nat) (lengths : List Nat) :
    planned pageSize lengths = (do
      let plan ← newPlan pageSize
      let plan ← pushPlans lengths plan
      finishPlan pageSize plan) := by
  cases pageSize with
  | none =>
      simp only [newPlan, bind, Except.bind, pushPlans_none]
      rfl
  | some pageSize =>
      simp only [planned, planIndexLengths, newPlan, bind, Except.bind]
      cases IndexPagePlan.new pageSize with
      | error e => rfl
      | ok plan =>
          simp only [Except.map, pushPlans_some]
          cases plan.pushAll lengths with
          | error e => rfl
          | ok plan => simp only [finishPlan, bind, Except.bind]

/-- Full ANALYZE omits empty indexes. -/
def published (rows : Nat) (statistics : FullIndexStatistics) : FullIndexStatistics :=
  if rows = 0 then { statistics with stat1 := "" } else statistics

section
variable {K : Type} [SortKey K] {codec : Codec} {spool : IntegerSpool} {spec : IntegerIndexSpec}

/-- The last merge of the keys of some tuples that differ from one to the next. -/
theorem mergeSorted_eq (hfields : ∀ field ∈ spec.recordFields, field < 4)
    (hlength : spec.recordFields.length ≤ 8) {runs : List (List K)} {tuples : List Tuple}
    (hunpack : List.Forall₂ (fun key tuple => SortKey.unpack codec key = .ok tuple)
      ((merged runs).map Prod.fst) tuples)
    (hrows : tuples.length = spool.rows)
    (hchain : tuples.IsChain
      fun a b => valuesOf spec.recordFields a ≠ valuesOf spec.recordFields b)
    (hfits : (framesOf (tuples.map (recordOf spec))).length < 2 ^ 64)
    {statistics : FullIndexStatistics}
    (hanalyze : IndexStats.analyze spec.recordFields.length spec.keyColumns (.ofNat spool.rows)
      (IndexStats.streamOf (tuples.map (rowOf spec))
        ((offsetsFrom 0 (tuples.map (recordOf spec))).map UInt64.ofNat)) = .ok statistics)
    (pageSize : Option Nat) :
    mergeSorted K spool codec spec pageSize runs =
      (planned pageSize (tuples.map fun tuple => (recordOf spec tuple).length)).map fun planned =>
        { stream := framesOf (tuples.map (recordOf spec))
          statistics := published spool.rows statistics, plannedPages := planned } := by
  obtain ⟨started, hstarted, hanalyze⟩ := Results.bind_eq_ok_iff.mp hanalyze
  obtain ⟨pushed, hpushed, hfinish⟩ := Results.bind_eq_ok_iff.mp hanalyze
  rw [IndexStats.streamOf, ← columnsFrom_none] at hpushed
  have hkeys : ((merged runs).map Prod.fst).length = spool.rows := hunpack.length_eq.trans hrows
  rw [mergeSorted, hstarted, planned_eq]
  simp only [bind, Except.bind]
  cases newPlan pageSize with
  | error e => rfl
  | ok plan =>
      have hvisit : visitAll (emit K codec spec) ((merged runs).map Prod.fst) 0
          { statistics := started, previous := none, output := [], plan, offset := 0 } = _ :=
        visitAll_emit hfields hlength hunpack hchain hpushed (by rwa [Nat.zero_add])
      simp only [mergeVisit_eq, hvisit]
      cases pushPlans (tuples.map fun tuple => (recordOf spec tuple).length) plan with
      | error e => rfl
      | ok plan =>
          simp only [Except.map, List.nil_append]
          cases finishPlan pageSize plan with
          | error e => rfl
          | ok planned =>
              simp only [Nat.zero_add, hkeys, ne_eq, not_true, if_false, hfinish]
              rfl

/-! ## Distinct keys -/

/-- What the sort of a spool rests on: a codec of the specification, and files whose lengths are
`u64`s. -/
structure Sortable (spool : IntegerSpool) (spec : IntegerIndexSpec) (codec : Codec) : Prop where
  ranges : spool.Ranges
  valid : spec.Valid spool.fields
  fields : codec.fields = spec.sortedFields
  file : spool.rows * 32 < 2 ^ 64
  stream : (framesOf (spool.tuples.map (recordOf spec))).length < 2 ^ 64

namespace Sortable

/-- The fields of the records are those of a tuple. -/
theorem field_lt (h : Sortable spool spec codec) : ∀ field ∈ spec.recordFields, field < 4 :=
  h.valid.field_lt h.ranges.arity

theorem length_le (h : Sortable spool spec codec) : spec.recordFields.length ≤ 8 :=
  h.valid.2.2.2.1

/-- The width of the statistics. -/
theorem columns (h : Sortable spool spec codec) :
    (0 < spec.recordFields.length ∧ spec.recordFields.length ≤ IndexStats.maxColumns) ∧
      0 < spec.keyColumns ∧ spec.keyColumns ≤ spec.recordFields.length := by
  obtain ⟨-, -, hne, hle, hkey, hkeys, -⟩ := h.valid
  exact ⟨⟨List.length_pos_iff.mpr hne, hle⟩, Nat.pos_of_ne_zero hkey, hkeys⟩

/-- The number of rows is that of the tuples. -/
theorem toNat_rows (h : Sortable spool spec codec) :
    (UInt64.ofNat spool.rows).toNat = spool.tuples.length := by
  rw [UInt64.toNat_ofNat_of_lt' (by have := h.file; show _ < 2 ^ 64; omega), h.ranges.rows]

/-- The record of a tuple, whether or not its other fields are there. -/
theorem recordOf_restrict (h : Sortable spool spec codec) (tuple : Tuple) :
    recordOf spec (restrict codec.fields tuple) = recordOf spec tuple := by
  rw [recordOf, valuesOf_restrict h.field_lt fun field hfield => ?_]
  · rfl
  · rw [h.fields]
    exact h.valid.2.2.2.2.2.2.2.1 field hfield

/-- The fields that are packed are those of the records. -/
theorem valuesOf_restrict (h : Sortable spool spec codec) (tuple : Tuple) :
    valuesOf spec.recordFields (restrict codec.fields tuple) = valuesOf spec.recordFields tuple :=
  Sort.valuesOf_restrict h.field_lt (fun field hfield => by
    rw [h.fields]
    exact h.valid.2.2.2.2.2.2.2.1 field hfield) tuple

/-- The length of a stream depends on its records only, not on their order. -/
theorem stream_perm (h : Sortable spool spec codec) {tuples : List Tuple}
    (hperm : tuples.Perm spool.tuples) :
    (framesOf (tuples.map (recordOf spec))).length < 2 ^ 64 := by
  have hsum := ((hperm.map (recordOf spec)).map fun record => record.length + 1).sum_nat
  rw [length_framesOf, hsum, ← length_framesOf]
  exact h.stream

end Sortable

/-- The rows of tuples in strict order. -/
theorem Sortable.rows_sorted (h : Sortable spool spec codec) {tuples : List Tuple}
    (hlt : tuples.Pairwise (TupleLt spec.sortedFields)) :
    PrefixGroups.Sorted spec.recordFields.length (tuples.map (rowOf spec)) := by
  refine ⟨fun row hrow => ?_, List.pairwise_map.mpr (hlt.imp h.valid.row_lt_iff.mpr)⟩
  obtain ⟨tuple, -, rfl⟩ := List.mem_map.mp hrow
  exact length_rowOf spec tuple

/-- Tuples in strict order differ from one to the next. -/
theorem Sortable.differ (h : Sortable spool spec codec) {tuples : List Tuple}
    (hlt : tuples.Pairwise (TupleLt spec.sortedFields)) :
    (tuples.map (restrict codec.fields)).IsChain
      fun a b => valuesOf spec.recordFields a ≠ valuesOf spec.recordFields b := by
  refine (List.pairwise_map.mpr (hlt.imp fun {a b} hlt heq => ?_)).isChain
  rw [h.valuesOf_restrict, h.valuesOf_restrict, h.valid.row_eq_iff, ← intsOf_eq_iff] at heq
  exact absurd (intsOf_lt_iff.mpr hlt) (heq ▸ lt_irrefl _)

/-- So the records of the unpacked tuples are those of the tuples. -/
theorem Sortable.map_recordOf (h : Sortable spool spec codec) (tuples : List Tuple) :
    (tuples.map (restrict codec.fields)).map (recordOf spec) = tuples.map (recordOf spec) := by
  rw [List.map_map]
  exact List.map_congr_left fun tuple _ => h.recordOf_restrict tuple

/-- So are the rows. -/
theorem Sortable.map_rowOf (h : Sortable spool spec codec) (tuples : List Tuple) :
    (tuples.map (restrict codec.fields)).map (rowOf spec) = tuples.map (rowOf spec) := by
  rw [List.map_map]
  exact List.map_congr_left fun tuple _ => by
    rw [Function.comp_apply, rowOf, intsOf, h.valuesOf_restrict, rowOf, intsOf]

/-- The keys of a run unpack to its tuples. -/
theorem unpack_tuples (hexact : KeyExact K codec spool.tuples) {keys : List K} {tuples : List Tuple}
    (h : List.Forall₂ (fun key tuple => tuple ∈ spool.tuples ∧ SortKey.pack codec tuple = .ok key)
      keys tuples) :
    List.Forall₂ (fun key tuple => SortKey.unpack codec key = .ok tuple) keys
      (tuples.map (restrict codec.fields)) :=
  List.forall₂_map_right_iff.mpr (h.imp fun _ _ hpacked => hexact.unpack hpacked.1 hpacked.2)

/-- The first keys, as long as they are in strict order. -/
theorem visit_strict (h : Sortable spool spec codec) {keys : List K} {tuples : List Tuple}
    (hunpack : List.Forall₂ (fun key tuple => SortKey.unpack codec key = .ok tuple) keys
      (tuples.map (restrict codec.fields)))
    (hlt : tuples.Pairwise (TupleLt spec.sortedFields)) (hlength : tuples.length ≤ spool.rows)
    (hfits : (framesOf (tuples.map (recordOf spec))).length < 2 ^ 64) :
    ∃ started, IndexStatistics.new spec.recordFields.length spec.keyColumns (.ofNat spool.rows)
        = .ok started ∧
      ∃ next : Option IndexPagePlan → Emitter × Nat,
        (∀ plan, (next plan).1.previous = (tuples.map (restrict codec.fields)).getLast?) ∧
        ∀ plan, visitAll (emit K codec spec) keys 0
            { statistics := started, previous := none, output := [], plan, offset := 0 } =
          (pushPlans (tuples.map fun tuple => (recordOf spec tuple).length) plan).map next := by
  obtain ⟨started, hstarted, hstart⟩ :=
    IndexStats.new_started h.columns.1 h.columns.2 (.ofNat spool.rows)
  have hrows := h.rows_sorted hlt
  have hcolumns : columnsFrom spec none (tuples.map (restrict codec.fields)) = _ :=
    columnsFrom_none spec _
  rw [h.map_rowOf] at hcolumns
  obtain ⟨statistics, hstatistics⟩ : ∃ statistics, started.pushAll
      ((columnsFrom spec none (tuples.map (restrict codec.fields))).zip
        ((offsetsFrom 0 ((tuples.map (restrict codec.fields)).map (recordOf spec))).map
          UInt64.ofNat)) = .ok statistics := by
    refine hstart.pushAll_ok h.columns.1 (UInt64.toNat_lt _) ?_ ?_ ?_
    · rw [List.length_zip, hcolumns, h.toNat_rows, ← h.ranges.rows]
      simp only [List.length_map, List.length_range]
      omega
    · intro row hrow
      cases tuples with
      | nil => cases hrow
      | cons tuple tuples =>
          cases hrow
          rfl
    · intro row hrow
      have hcolumn := (List.of_mem_zip hrow).1
      rw [hcolumns] at hcolumn
      obtain ⟨i, hi, heq⟩ := List.mem_map.mp hcolumn
      rw [← heq]
      exact hrows.changedAt_lt h.columns.1.1 (List.mem_range.mp hi)
  refine ⟨started, hstarted, fun plan =>
    ({ statistics, previous := (tuples.map (restrict codec.fields)).getLast?
       output := framesOf (tuples.map (recordOf spec)), plan
       offset := (framesOf (tuples.map (recordOf spec))).length }, keys.length),
    fun plan => rfl, fun plan => ?_⟩
  have hlengths :
    (tuples.map (restrict codec.fields)).map (fun tuple => (recordOf spec tuple).length)
      = tuples.map fun tuple => (recordOf spec tuple).length := by
    rw [List.map_map]
    exact List.map_congr_left fun tuple _ => by rw [Function.comp_apply, h.recordOf_restrict]
  have hvisit : visitAll (emit K codec spec) keys 0
      { statistics := started, previous := none, output := [], plan, offset := 0 } = _ :=
    visitAll_emit h.field_lt h.length_le hunpack (h.differ hlt) hstatistics (by
      rw [h.map_recordOf, Nat.zero_add]
      exact hfits)
  rw [hvisit, hlengths, h.map_recordOf]
  simp only [Option.or_none, List.nil_append, Nat.zero_add]

variable [LawfulRadixKey K]

/-- Whatever the runs and the workers are, the last merge visits the tuples in the order of the
sorted fields. -/
theorem sortKeys_merge (h : Sortable spool spec codec) (hexact : KeyExact K codec spool.tuples)
    (keyBytes : Nat) {workers : Nat} (hworkers : 0 < workers) (pageSize : Option Nat) :
    ∃ (runs : List (List K)) (tuples : List Tuple),
      sortKeys K spool codec spec keyBytes workers pageSize
        = mergeSorted K spool codec spec pageSize runs ∧
      tuples.Perm spool.tuples ∧
      List.Forall₂ (fun key tuple => tuple ∈ spool.tuples ∧ SortKey.pack codec tuple = .ok key)
        ((merged runs).map Prod.fst) tuples ∧
      tuples.Pairwise fun a b => intsOf spec.sortedFields a ≤ intsOf spec.sortedFields b := by
  obtain ⟨keys, hkeys⟩ := hexact.packs
  obtain ⟨first, hfirst, hsorted, hperm⟩ := workerRuns_ok hexact h.ranges.rows hkeys
    (show 0 < max (keyBytes / RadixKey.bytes K) 1 by omega) hworkers
  obtain ⟨runs, hruns, -, hsorted, hleft⟩ := mergeGenerations_ok first hsorted
  obtain ⟨tuples, htuples, hpacked, hordered⟩ := lastMerge hexact hkeys hsorted (hleft.trans hperm)
  rw [h.fields] at hordered
  refine ⟨runs, tuples, ?_, htuples, hpacked, hordered⟩
  have hfile := h.file
  rw [sortKeys]
  simp only [h.ranges.rows, ne_eq, not_true, if_false] at hfile ⊢
  rw [if_neg (by omega), hfirst]
  show (mergeGenerations first >>= _) = _
  rw [hruns]
  rfl

/-- Distinct keys: the stream is that of the records of the tuples in strict order, beside the plan
of their lengths. -/
theorem sortKeys_distinct (h : Sortable spool spec codec) (hexact : KeyExact K codec spool.tuples)
    (hdistinct : (spool.tuples.map (valuesOf spec.sortedFields)).Nodup) (keyBytes : Nat)
    {workers : Nat} (hworkers : 0 < workers) (pageSize : Option Nat) :
    ∃ (tuples : List Tuple) (statistics : FullIndexStatistics),
      tuples.Perm spool.tuples ∧ tuples.Pairwise (TupleLt spec.sortedFields) ∧
      IndexStats.analyze spec.recordFields.length spec.keyColumns (.ofNat spool.rows)
        (IndexStats.streamOf (tuples.map (rowOf spec))
          ((offsetsFrom 0 (tuples.map (recordOf spec))).map UInt64.ofNat)) = .ok statistics ∧
      sortKeys K spool codec spec keyBytes workers pageSize =
        (planned pageSize (tuples.map fun tuple => (recordOf spec tuple).length)).map fun planned =>
          { stream := framesOf (tuples.map (recordOf spec))
            statistics := published spool.rows statistics, plannedPages := planned } := by
  obtain ⟨runs, tuples, hsort, hperm, hpacked, hordered⟩ :=
    sortKeys_merge h hexact keyBytes hworkers pageSize
  have hnodup : (tuples.map (valuesOf spec.sortedFields)).Nodup :=
    (hperm.map _).nodup_iff.mpr hdistinct
  have hstrict : tuples.Pairwise (TupleLt spec.sortedFields) := by
    refine (hordered.and (List.pairwise_map.mp hnodup)).imp fun {a b} hab => ?_
    exact intsOf_lt_iff.mp (lt_of_le_of_ne hab.1 fun heq => hab.2 (intsOf_eq_iff.mp heq))
  have hrows := h.rows_sorted hstrict
  have hcount : (tuples.map (rowOf spec)).length = spool.tuples.length := by
    rw [List.length_map, hperm.length_eq]
  have hbounded : (tuples.map (rowOf spec)).length < 2 ^ 64 := by
    rw [hcount, ← h.toNat_rows]
    exact UInt64.toNat_lt _
  obtain ⟨st, k, -, hanalyze⟩ := IndexStats.analyze_rows h.columns.1 hrows hbounded h.columns.2
    (show ((offsetsFrom 0 (tuples.map (recordOf spec))).map UInt64.ofNat).length = _ by simp)
    (h.toNat_rows.trans hcount.symm)
  refine ⟨tuples, _, hperm, hstrict, hanalyze, ?_⟩
  have hmerge := mergeSorted_eq h.field_lt h.length_le (unpack_tuples hexact hpacked)
    (by rw [List.length_map, hperm.length_eq, h.ranges.rows]) (h.differ hstrict)
    (by rw [h.map_recordOf]; exact h.stream_perm hperm)
    (by rw [h.map_recordOf, h.map_rowOf]; exact hanalyze) pageSize
  rw [hsort, hmerge, h.map_recordOf, List.map_map]
  congr 2
  exact List.map_congr_left fun tuple _ => by
    rw [Function.comp_apply, h.recordOf_restrict]

/-! ## Equal keys -/

/-- A plan that is not made is an error, no panic. -/
theorem newPlan_error {pageSize : Option Nat} {e : Failure} (h : newPlan pageSize = .error e) :
    ∃ message, e = .error message := by
  cases pageSize with
  | none => cases h
  | some pageSize =>
      rw [newPlan, IndexPagePlan.new] at h
      split at h
      · cases h
      · cases h
        exact ⟨_, rfl⟩

/-- So is a descriptor that has no room. -/
theorem Descriptors.push_error {children : Descriptors} {boundary : Nat} {e : Failure}
    (h : children.push boundary = .error e) : ∃ message, e = .error message := by
  rw [Descriptors.push] at h
  split at h
  · cases h
    exact ⟨_, rfl⟩
  · cases h

/-- So is a length that has none. -/
theorem IndexPagePlan.push_error {plan : IndexPagePlan} {length : Nat} {e : Failure}
    (h : plan.push length = .error e) : ∃ message, e = .error message := by
  rw [IndexPagePlan.push] at h
  split at h
  · cases h
    exact ⟨_, rfl⟩
  · generalize (if length < 128 then 1 else if length < 16384 then 2 else 3) = cell at h
    simp only at h
    split at h
    · cases hpush : (plan.leaves.getD .create).push (plan.lastCell % 2 ^ 16) with
      | error e' =>
          rw [hpush] at h
          cases h
          exact Descriptors.push_error hpush
      | ok leaves =>
          rw [hpush] at h
          cases h
    · cases h

/-- So is each record that has none. -/
theorem pushPlan_error {length : Nat} {plan : Option IndexPagePlan} {e : Failure}
    (h : pushPlan length plan = .error e) : ∃ message, e = .error message := by
  cases plan with
  | none => cases h
  | some plan =>
      rw [pushPlan] at h
      cases hpush : plan.push length with
      | error e' =>
          rw [hpush] at h
          cases h
          exact IndexPagePlan.push_error hpush
      | ok plan =>
          rw [hpush] at h
          cases h

/-- A plan fails with an error, not with a panic. -/
theorem pushPlans_error : ∀ {lengths : List Nat} {plan : Option IndexPagePlan} {e : Failure},
    pushPlans lengths plan = .error e → ∃ message, e = .error message
  | [], _, _, h => by cases h
  | length :: lengths, plan, e, h => by
      rw [pushPlans] at h
      cases hplan : pushPlan length plan with
      | error e' =>
          rw [hplan] at h
          cases h
          exact pushPlan_error hplan
      | ok plan =>
          rw [hplan] at h
          exact pushPlans_error h

/-- Equal keys: the sort reports an error. -/
theorem sortKeys_duplicate (h : Sortable spool spec codec) (hexact : KeyExact K codec spool.tuples)
    (hduplicate : ¬(spool.tuples.map (valuesOf spec.sortedFields)).Nodup) (keyBytes : Nat)
    {workers : Nat} (hworkers : 0 < workers) (pageSize : Option Nat) :
    ∃ message, sortKeys K spool codec spec keyBytes workers pageSize = .error (.error message) := by
  obtain ⟨runs, tuples, hsort, hperm, hpacked, hordered⟩ :=
    sortKeys_merge h hexact keyBytes hworkers pageSize
  rcases Merge.strict_or_split hordered with hstrict | ⟨front, a, b, back, rfl, hstrict, heq⟩
  · refine absurd ((hperm.map _).nodup_iff.mp ?_) hduplicate
    refine List.pairwise_map.mpr (hstrict.imp fun {a b} hlt heq => ?_)
    exact absurd (intsOf_eq_iff.mpr heq) hlt.ne
  -- the keys up to the first of the two are written, or fail to be planned
  have happend : front ++ a :: b :: back = (front ++ [a]) ++ b :: back := by simp
  have hunpack := unpack_tuples hexact hpacked
  rw [happend, List.map_append] at hunpack
  have hfront := List.forall₂_take_append _ _ _ hunpack
  obtain ⟨key, keys, hkey, -, hkeys⟩ :=
    List.forall₂_cons_right_iff.mp (List.forall₂_drop_append _ _ _ hunpack)
  have hall := List.take_append_drop ((front ++ [a]).map (restrict codec.fields)).length
    ((merged runs).map Prod.fst)
  rw [hkeys] at hall
  have hlength : (front ++ [a]).length ≤ spool.rows := by
    rw [h.ranges.rows, ← hperm.length_eq]
    simp only [List.length_append, List.length_cons, List.length_nil]
    omega
  have hfits : (framesOf ((front ++ [a]).map (recordOf spec))).length < 2 ^ 64 := by
    have hwhole := h.stream_perm hperm
    rw [happend, List.map_append, framesOf, List.flatMap_append, List.length_append] at hwhole
    exact Nat.lt_of_le_of_lt (Nat.le_add_right _ _) hwhole
  obtain ⟨started, hstarted, next, hnext, hvisit⟩ :=
    visit_strict h hfront (hstrict.imp intsOf_lt_iff.mp) hlength hfits
  rw [hsort, mergeSorted, hstarted]
  simp only [bind, Except.bind]
  cases hplan : newPlan pageSize with
  | error e =>
      obtain ⟨message, rfl⟩ := newPlan_error hplan
      exact ⟨message, rfl⟩
  | ok plan =>
      simp only [mergeVisit_eq]
      rw [← hall, visitAll_append, hvisit plan]
      cases hplans :
          pushPlans ((front ++ [a]).map fun tuple => (recordOf spec tuple).length) plan with
      | error e =>
          obtain ⟨message, rfl⟩ := pushPlans_error hplans
          exact ⟨message, rfl⟩
      | ok plan =>
          -- the next key is equal to the last one
          have hequal : emit K codec spec (next plan).1 key (next plan).2
              = .error (.error "integer index stream contains duplicate complete keys") := by
            have hsame : ¬∀ last ∈ (next plan).1.previous, valuesOf spec.recordFields last
                ≠ valuesOf spec.recordFields (restrict codec.fields b) := by
              intro hdiffers
              refine hdiffers (restrict codec.fields a) (by rw [hnext]; simp) ?_
              rw [h.valuesOf_restrict, h.valuesOf_restrict, h.valid.row_eq_iff, ← intsOf_eq_iff]
              exact heq
            rw [emit, hkey]
            show (changedColumn spec _ (restrict codec.fields b) (next plan).1.previous >>= _) = _
            rw [changedColumn_eq h.field_lt, if_neg hsame]
            rfl
          refine ⟨"integer index stream contains duplicate complete keys", ?_⟩
          simp only [Except.map, bind, Except.bind, visitAll, hequal]

end

/-- A row of an index takes at most 74 bytes of its stream. -/
theorem length_framesOf_le {spec : IntegerIndexSpec} (hlength : spec.recordFields.length ≤ 8)
    (tuples : List Tuple) :
    (framesOf (tuples.map (recordOf spec))).length ≤ 74 * tuples.length := by
  induction tuples with
  | nil => exact Nat.le_refl 0
  | cons tuple tuples ih =>
      have hle := (length_recordOf hlength tuple).2
      rw [List.map_cons, framesOf_cons, List.length_cons, List.length_append, List.length_cons]
      omega

/-- A sort that gives the records of some tuples, each once and in strict order, beside the plan of
their lengths. -/
def SortsTo (tuples : List Tuple) (spec : IntegerIndexSpec) (pageSize : Option Nat)
    (result : Except Failure SortedIntegerIndex) : Prop :=
  ∃ (sorted : List Tuple) (statistics : FullIndexStatistics),
    sorted.Perm tuples ∧ sorted.Pairwise (TupleLt spec.sortedFields) ∧
    readEncoded (framesOf (sorted.map (recordOf spec))) = .ok (sorted.map (recordOf spec)) ∧
    result = (planned pageSize (sorted.map fun tuple => (recordOf spec tuple).length)).map
      fun plannedPages =>
        { stream := framesOf (sorted.map (recordOf spec)), statistics, plannedPages }

/-- A result that is an error, and no panic. -/
def Reports {α : Type} (result : Except Failure α) : Prop :=
  ∃ message, result = .error (.error message)

/-- Whatever is pushed to a new spool, a valid specification gives a codec, and a sort with it, for
any run capacity, any number of workers and as many merge generations as it takes: distinct keys
give the stream of the records of the tuples, equal keys give an error. -/
theorem integer_index_sorted {fields : Nat} {empty spool : IntegerSpool} {rows : List (List Int64)}
    {spec : IntegerIndexSpec} (hcreate : IntegerSpool.create fields = .ok empty)
    (hpush : empty.pushAll rows = .ok spool) (hspec : spec.Valid fields)
    (hfile : rows.length * 32 < 2 ^ 64)
    (hstream : (framesOf ((rows.map padded).map (recordOf spec))).length < 2 ^ 64) {workers : Nat}
    (hworkers : 0 < workers) (keyBytes : Nat) (pageSize : Option Nat) :
    ∃ codec, Codec.new spool spec = .ok codec ∧
      (((rows.map padded).map (valuesOf spec.sortedFields)).Nodup →
        SortsTo (rows.map padded) spec pageSize (withKeyType codec.bits fun K _ =>
          sortKeys K spool codec spec keyBytes workers pageSize)) ∧
      (¬((rows.map padded).map (valuesOf spec.sortedFields)).Nodup →
        Reports (withKeyType codec.bits fun K _ =>
          sortKeys K spool codec spec keyBytes workers pageSize)) := by
  have hempty := IntegerSpool.create_eq hcreate
  obtain ⟨htuples, hfields⟩ := IntegerSpool.pushAll_tuples hpush
  have hspool := (IntegerSpool.create_ranges hcreate).pushAll hpush
  rw [hempty.1] at hfields
  rw [hempty.2, List.nil_append] at htuples
  obtain ⟨codec, hcodec⟩ := Codec.new_ok hspool (hfields.symm ▸ hspec)
  obtain ⟨widths, h⟩ := Codec.new_describes hcodec
  have hsortable : Sortable spool spec codec :=
    { ranges := hspool, valid := hfields.symm ▸ hspec, fields := h.fields
      file := by rwa [hspool.rows, htuples, List.length_map]
      stream := by rwa [htuples] }
  have hkeys := h.withKeyType hspool
  rw [← htuples]
  refine ⟨codec, hcodec, fun hdistinct => ?_, fun hduplicate => ?_⟩
  · refine withKeyType_of (p := SortsTo spool.tuples spec pageSize) hkeys fun K _ _ hexact => ?_
    obtain ⟨sorted, statistics, hperm, hstrict, -, hsort⟩ :=
      sortKeys_distinct hsortable hexact hdistinct keyBytes hworkers pageSize
    refine ⟨sorted, published spool.rows statistics, hperm, hstrict,
      readEncoded_framesOf fun record hrecord => ?_, hsort⟩
    obtain ⟨tuple, -, rfl⟩ := List.mem_map.mp hrecord
    obtain ⟨hpos, hle⟩ := length_recordOf hsortable.length_le tuple
    omega
  · exact withKeyType_of (p := Reports) hkeys fun K _ _ hexact =>
      sortKeys_duplicate hsortable hexact hduplicate keyBytes hworkers pageSize

/-- Three tuples of a signed and a constant field, sorted by two workers, and the same with a tuple
that occurs twice. -/
theorem integer_index_sorted_small :
    (∃ spool codec, Codec.new spool ⟨[0, 1], [0, 1], 2⟩ = .ok codec ∧
      SortsTo [padded [3, 1], padded [-5, 1], padded [0, 1]] ⟨[0, 1], [0, 1], 2⟩ none
        (withKeyType codec.bits fun K _ =>
          sortKeys K spool codec ⟨[0, 1], [0, 1], 2⟩ 1 2 none)) ∧
    ∃ spool codec, Codec.new spool ⟨[0, 1], [0, 1], 2⟩ = .ok codec ∧
      Reports (withKeyType codec.bits fun K _ =>
        sortKeys K spool codec ⟨[0, 1], [0, 1], 2⟩ 1 2 none) := by
  have hspec : IntegerIndexSpec.Valid ⟨[0, 1], [0, 1], 2⟩ 2 := by decide
  have hfits : ∀ tuples : List Tuple, tuples.length ≤ 3 →
      (framesOf (tuples.map (recordOf ⟨[0, 1], [0, 1], 2⟩))).length < 2 ^ 64 := by
    intro tuples hlength
    have hle := length_framesOf_le
      (show (IntegerIndexSpec.mk [0, 1] [0, 1] 2).recordFields.length ≤ 8 by decide) tuples
    omega
  obtain ⟨codec, hcodec, hsorts, -⟩ := integer_index_sorted (show _ = Except.ok _ from rfl)
    (show IntegerSpool.pushAll _ [[3, 1], [-5, 1], [0, 1]] = .ok _ from rfl) hspec (by decide)
    (hfits _ (by decide)) (show 0 < 2 by decide) 1 none
  obtain ⟨codec', hcodec', -, hreports⟩ := integer_index_sorted (show _ = Except.ok _ from rfl)
    (show IntegerSpool.pushAll _ [[3, 1], [-5, 1], [3, 1]] = .ok _ from rfl) hspec (by decide)
    (hfits _ (by decide)) (show 0 < 2 by decide) 1 none
  exact ⟨⟨_, codec, hcodec, hsorts (by decide)⟩, ⟨_, codec', hcodec', hreports (by decide)⟩⟩

end Velr.Sort
