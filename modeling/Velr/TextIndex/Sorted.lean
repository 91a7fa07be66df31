import Velr.Sort.Histograms
import Velr.Sort.IntegerIndex
import Velr.TextIndex.Key

/-!
# The sorted text index

`TextSpool::make_runs` and `sort_keys` of `text_index.rs`: the runs, their merge generations and the
last merge, which reads each key back as a record. Whatever the width of the keys, the run capacity
and the number of workers, the stream holds the records of the entries in the order of the index
(`text_index_sorted`).
-/

namespace Velr.TextIndex

open ByteString (Bytes ofBE)
open Utf8
open IndexStats (Failure IndexStatistics FullIndexStatistics)
open Slices (ceil slice stride)
open Velr.Sort (RadixKey LawfulRadixKey SortedKeys IndexPagePlan SortedIntegerIndex)
open Velr.Sort.LawfulRadixKey (value)

/-! ## Runs -/

section
variable (N : Nat)

/-- `make_runs`: the body of the loop over the runs of a worker. -/
def makeRun (spool : TextSpool) (codec : TextCodec) (capacity : Nat) :
    List (List (TextKey N)) × List (TextKey N) → Nat →
      Except Failure (List (List (TextKey N)) × List (TextKey N))
  | (paths, scratch), run => do
      let first := run * capacity
      let rows := min (spool.rows - first) capacity
      let keys ← ((spool.tuples.drop first).take rows).mapM (codec.pack N)
      let (keys, scratch) ← Sort.radixSortAhead keys scratch codec.bytes
      .ok (paths ++ [keys], scratch)

/-- `make_runs`: the runs of one worker. -/
def makeRuns (spool : TextSpool) (codec : TextCodec) (capacity worker workers : Nat) :
    Except Failure (List (List (TextKey N))) := do
  let runs := ceil spool.rows capacity
  let (paths, _) ← (stride workers runs worker).foldlM (makeRun N spool codec capacity) ([], [])
  .ok paths

/-- `sort_keys`: the runs of all workers. -/
def workerRuns (spool : TextSpool) (codec : TextCodec) (capacity workers : Nat) :
    Except Failure (List (List (TextKey N))) :=
  if workers = 1 then makeRuns N spool codec capacity 0 1
  else do
    let groups ← (List.range workers).mapM fun worker =>
      Sort.joined "text index sorting worker panicked"
        (makeRuns N spool codec capacity worker workers)
    .ok groups.flatten

end

/-! ## The last merge -/

section
variable {N : Nat}

/-- The variables of the visitor of `sort_keys`. -/
structure Emitter (N : Nat) where
  statistics : IndexStatistics
  previous : Option (TextKey N)
  output : Bytes
  plan : Option IndexPagePlan
  offset : Nat

/-- `sort_keys`: the first column of a key that differs from the key before. -/
def changedColumn (codec : TextCodec) (key : TextKey N) : Option (TextKey N) → Except Failure Nat
  | none => .ok 0
  | some last => do
      match ← codec.firstChanged last key with
      | some column => .ok column
      | none => .error (.error "text index contains duplicate complete keys")

/-- `sort_keys`: the visitor of the last merge. -/
def emit (codec : TextCodec) (st : Emitter N) (key : TextKey N) (_row : Nat) :
    Except Failure (Emitter N) := do
  let changed ← changedColumn codec key st.previous
  let statistics ← st.statistics.push changed (.ofNat st.offset)
  let record ← codec.encode key
  let plan ← Sort.pushPlan record.length st.plan
  let framed ← Sort.writeEncodedRecord record
  if 2 ^ 64 ≤ st.offset + framed.length then .error (.error "encoded text index offset overflow")
  else
    .ok
      { statistics, previous := some key, output := st.output ++ framed, plan
        offset := st.offset + framed.length }

/-- `sort_keys`, behind the runs. `SortedTextIndex` has the fields of `SortedIntegerIndex`. -/
def mergeSorted (spool : TextSpool) (codec : TextCodec) (pageSize : Option Nat)
    (runs : List (List (TextKey N))) : Except Failure SortedIntegerIndex := do
  let statistics ← IndexStatistics.new 4 3 (.ofNat spool.rows)
  let plan ← Sort.newPlan pageSize
  let (st, rows) ← Sort.mergeVisit runs (emit codec)
    { statistics, previous := none, output := [], plan, offset := 0 }
  let plannedPages ← Sort.finishPlan pageSize st.plan
  if rows ≠ spool.rows then .error (.error "merged text index has an unexpected row count")
  else do
    let statistics ← st.statistics.finish
    let statistics := if spool.rows = 0 then { statistics with stat1 := "" } else statistics
    .ok { stream := st.output, statistics, plannedPages }

end

/-- `sort_keys`, for a run capacity and a number of workers. -/
def sortKeys (N : Nat) (spool : TextSpool) (codec : TextCodec) (capacity workers : Nat)
    (pageSize : Option Nat) : Except Failure SortedIntegerIndex :=
  if 2 ^ 64 ≤ spool.rows * 72 then .error (.error "text index tuple spool length overflow")
  else if spool.tuples.length * 72 ≠ spool.rows * 72 then
    .error (.error "text index tuple spool has an unexpected length")
  else do
    let runs ← workerRuns N spool codec capacity workers
    let runs ← Sort.mergeGenerations runs
    mergeSorted spool codec pageSize runs

/-! ## What the runs hold -/

/-- What the sort of a spool rests on: its codec, and files whose lengths are `u64`s. -/
structure Sortable (spool : TextSpool) (codec : TextCodec) (entries : List Entry) : Prop where
  ranges : spool.Ranges entries
  covers : codec.Covers entries
  file : entries.length * 72 < 2 ^ 64
  stream : (Sort.framesOf (entries.map recordOf)).length < 2 ^ 64

section
variable {N : Nat} {spool : TextSpool} {codec : TextCodec} {entries : List Entry}

/-- The keys of some entries. -/
def Packs (N : Nat) (codec : TextCodec) (entries : List Entry) (keys : List (TextKey N)) : Prop :=
  List.Forall₂ (fun entry key => key.bytes = codec.keyBytes N entry) entries keys

/-- Every entry packs. -/
theorem TextCodec.Covers.packs (h : codec.Covers entries) (hN : codec.bytes ≤ N) :
    ∃ keys, Packs N codec entries keys ∧ List.Forall₂
      (fun tuple key => codec.pack N tuple = .ok key) (entries.map tupleOf) keys := by
  obtain ⟨keys, hkeys⟩ := Results.exists_forall₂
    (r := fun entry (key : TextKey N) =>
      key.bytes = codec.keyBytes N entry ∧ codec.pack N (tupleOf entry) = .ok key)
    fun entry (hentry : entry ∈ entries) => ⟨_, rfl, h.pack_eq hentry hN⟩
  exact ⟨keys, hkeys.imp fun _ _ hkey => hkey.1,
    List.forall₂_map_left_iff.mpr (hkeys.imp fun _ _ hkey => hkey.2)⟩

/-- A key has 72 bytes at most. -/
theorem bytes_le (h : codec.Covers entries) : codec.bytes ≤ 72 := by
  have hkey : codec.widths[0] ≤ 8 := h.widths 0
  have hnode : codec.widths[1] ≤ 8 := h.widths 1
  have hrowid : codec.widths[2] ≤ 8 := h.widths 2
  have hbound := h.bound
  rw [TextCodec.bytes]
  omega

/-- A key has no digit behind the bytes of its columns. -/
theorem value_lt (h : codec.Covers entries) {entry : Entry} (hentry : entry ∈ entries)
    {key : TextKey N} (hkey : key.bytes = codec.keyBytes N entry) :
    value key < 256 ^ codec.bytes := by
  have hlength : (codec.columns entry).flatten.length = codec.bytes := by
    rw [List.length_flatten, h.length_columns hentry, TextCodec.bytes]
    simp only [List.sum_cons, List.sum_nil]
    omega
  show ofBE key.bytes < _
  rw [hkey, TextCodec.keyBytes, ofBE_append, ofBE_replicate, Nat.zero_mul, Nat.zero_add, ← hlength]
  exact ofBE_lt _

/-- One step of a worker leaves the run of a slice. -/
theorem makeRun_ok (h : Sortable spool codec entries) (hN : codec.bytes ≤ N)
    {keys : List (TextKey N)} (hkeys : Packs N codec entries keys)
    (hpacks : List.Forall₂ (fun tuple key => codec.pack N tuple = .ok key)
      (entries.map tupleOf) keys) (capacity : Nat) (paths : List (List (TextKey N)))
    (scratch : List (TextKey N)) (run : Nat) :
    ∃ sorted left, makeRun N spool codec capacity (paths, scratch) run
        = .ok (paths ++ [sorted], left) ∧
      (sorted.Perm (slice capacity keys run) ∧ SortedKeys sorted) := by
  have htake :
    (spool.tuples.drop (run * capacity)).take (min (spool.rows - run * capacity) capacity)
      = slice capacity (entries.map tupleOf) run := by
    rw [slice, h.ranges.tuples, List.take_eq_take_iff, List.length_drop, h.ranges.rows,
      List.length_map]
    omega
  have hpack : (slice capacity (entries.map tupleOf) run).mapM (codec.pack N)
      = .ok (slice capacity keys run) :=
    Results.mapM_eq_ok_iff.mpr (List.forall₂_take _ (List.forall₂_drop _ hpacks))
  have hvalue : ∀ key ∈ slice capacity keys run, value key < 256 ^ codec.bytes := by
    intro key hmem
    exact Results.forall₂_forall hkeys.flip.flip (fun entry hentry key hkey =>
      value_lt h.covers hentry hkey) key (List.mem_of_mem_drop (List.mem_of_mem_take hmem))
  have hfew := bytes_le h.covers
  obtain ⟨sorted, left, hsort, -, hsorts⟩ :=
    Sort.radixSortAhead_ok (slice capacity keys run) scratch hN (by omega)
  refine ⟨sorted, left, ?_, hsorts.perm, Sort.sortedKeys_of_sorts hsorts hvalue⟩
  rw [makeRun, htake]
  simp only [hpack, bind, Except.bind]
  rw [hsort]

/-- However many workers there are, their runs are in order and hold the keys of the spool. -/
theorem workerRuns_ok (h : Sortable spool codec entries) (hN : codec.bytes ≤ N)
    {keys : List (TextKey N)} (hkeys : Packs N codec entries keys)
    (hpacks : List.Forall₂ (fun tuple key => codec.pack N tuple = .ok key)
      (entries.map tupleOf) keys) {capacity workers : Nat} (hcapacity : 0 < capacity)
    (hworkers : 0 < workers) :
    ∃ runs, workerRuns N spool codec capacity workers = .ok runs ∧
      (∀ run ∈ runs, SortedKeys run) ∧ runs.flatten.Perm keys := by
  have hworker :
    ∀ worker workers, ∃ runs, makeRuns N spool codec capacity worker workers = .ok runs ∧
      List.Forall₂ (fun run sorted => sorted.Perm (slice capacity keys run) ∧ SortedKeys sorted)
        (stride workers (ceil spool.rows capacity) worker) runs := by
    intro worker workers
    obtain ⟨runs, left, hruns, hall⟩ := Results.foldlM_collect
      (makeRun_ok h hN hkeys hpacks capacity)
        (stride workers (ceil spool.rows capacity) worker) [] []
    refine ⟨runs, ?_, hall⟩
    rw [makeRuns]
    simp only [hruns]
    rfl
  obtain ⟨groups, hgroups⟩ := Results.exists_forall₂
    fun worker (_ : worker ∈ List.range workers) => hworker worker workers
  have hruns : workerRuns N spool codec capacity workers = .ok groups.flatten := by
    unfold workerRuns
    split
    · next hone =>
        subst hone
        cases hgroups with
        | cons hgroup hnil =>
            cases hnil
            rw [hgroup.1]
            simp
    · have hmap : (List.range workers).mapM (fun worker =>
          Sort.joined "text index sorting worker panicked"
            (makeRuns N spool codec capacity worker workers)) = .ok groups :=
        Results.mapM_eq_ok_iff.mpr (hgroups.imp fun worker group hgroup => by rw [hgroup.1]; rfl)
      rw [hmap]
      rfl
  refine ⟨groups.flatten, hruns, fun run hrun => ?_, ?_⟩
  · obtain ⟨group, hgroup, hrun⟩ := List.mem_flatten.mp hrun
    exact Results.forall₂_forall hgroups (fun _ _ _ hall =>
      Results.forall₂_forall hall.2 fun _ _ _ hrun => hrun.2) group hgroup run hrun
  · refine Slices.dealt_perm hworkers hcapacity (hgroups.imp fun worker group hall => ?_)
    rw [← hkeys.length_eq, ← h.ranges.rows]
    exact hall.2.imp fun _ _ hrun => hrun.1

/-! ## Records and rows -/

/-- An integer takes eight bytes at most. -/
theorem length_integer (value : Int64) (n : Nat) :
    ((Record.toBeBytes value).drop n).length ≤ 8 := by
  rw [List.length_drop, Record.toBeBytes, ByteString.length_toBE]
  exact Nat.sub_le 8 n

/-- A record of the index fits a frame. -/
theorem length_recordOf (entry : Entry) :
    0 < (recordOf entry).length ∧ (recordOf entry).length ≤ 255 := by
  have hprefix := length_prefixOf_le entry.text
  have htag : Record.serialType (.text (prefixOf entry.text)) < 128 := by
    rw [Record.serialType]
    omega
  have hheader : (Record.header [.integer entry.key, .text (prefixOf entry.text),
      .integer entry.node, .integer entry.rowid]).length = 4 := by
    rw [Record.header_integer_cons, Record.header_cons, Record.varint_of_lt htag,
      Record.header_integer_cons, Record.header_integer_cons, Record.header_nil]
    rfl
  rw [recordOf, Record.encodeRecord_short (by omega), List.length_cons, List.length_append, hheader,
    Record.body_integer_cons, Record.body_cons, Record.body_integer_cons, Record.body_integer_cons,
    Record.body_nil, List.append_nil]
  simp only [List.length_append, Record.payload]
  have hkey := length_integer entry.key (8 - (Record.integerType entry.key).2)
  have hnode := length_integer entry.node (8 - (Record.integerType entry.node).2)
  have hrowid := length_integer entry.rowid (8 - (Record.integerType entry.rowid).2)
  omega

/-- The four columns of an entry as numbers. -/
def rowOf (entry : Entry) : List Nat :=
  [(Sort.ordered entry.key).toNat, ofBE (padTo 48 (asBytes (prefixOf entry.text))),
    (Sort.ordered entry.node).toNat, (Sort.ordered entry.rowid).toNat]

theorem ordered_inj {a b : Int64} : (Sort.ordered a).toNat = (Sort.ordered b).toNat ↔ a = b := by
  refine ⟨fun h => ?_, fun h => by rw [h]⟩
  rw [← Sort.unordered_ordered a, UInt64.toNat_inj.mp h, Sort.unordered_ordered]

/-- The ordered form keeps the order. -/
theorem ordered_lt {a b : Int64} : (Sort.ordered a).toNat < (Sort.ordered b).toNat ↔ a < b := by
  rw [← UInt64.lt_iff_toNat_lt, Sort.ordered_lt_iff]

/-- The prefixes of two entries as numbers. -/
theorem prefixNumber_iff (a b : Entry) :
    (ofBE (padTo 48 (asBytes (prefixOf a.text))) < ofBE (padTo 48 (asBytes (prefixOf b.text))) ↔
      List.Lex (· < ·) (asBytes (prefixOf a.text)) (asBytes (prefixOf b.text))) ∧
    (ofBE (padTo 48 (asBytes (prefixOf a.text))) = ofBE (padTo 48 (asBytes (prefixOf b.text))) ↔
      prefixOf a.text = prefixOf b.text) := by
  have hza := zero_notMem_prefixOf a.text
  have hzb := zero_notMem_prefixOf b.text
  have hla := length_prefixOf_le a.text
  have hlb := length_prefixOf_le b.text
  have hlength := (length_padTo hla).trans (length_padTo hlb).symm
  refine ⟨(ofBE_lt_iff hlength).trans (lex_padTo_iff hza hzb hla hlb), fun h => ?_,
    fun h => by rw [h]⟩
  exact asBytes_inj.mp ((padTo_inj hza hzb).mp (ofBE_injective hlength h))

/-- Rows are in order if their entries are. -/
theorem rowOf_lt_iff {a b : Entry} : rowOf a < rowOf b ↔ EntryLt a b := by
  obtain ⟨hlt, heq⟩ := prefixNumber_iff a b
  simp only [rowOf, List.cons_lt_cons_iff, ordered_lt, ordered_inj, hlt, heq, List.not_lt_nil,
    and_false, or_false]
  rfl

/-- Rows are equal if their indexed fields are. -/
theorem rowOf_inj {a b : Entry} : rowOf a = rowOf b ↔ a.indexed = b.indexed := by
  simp only [rowOf, List.cons.injEq, ordered_inj, (prefixNumber_iff a b).2, and_true, Entry.indexed,
    Prod.mk.injEq]

/-- The first column that differs is that of the rows. -/
theorem firstColumn_eq (a b : Entry) : firstColumn a b =
    if rowOf a = rowOf b then none else some (PrefixGroups.firstChanged (rowOf a) (rowOf b)) := by
  rw [firstColumn]
  simp only [rowOf, List.cons.injEq, PrefixGroups.firstChanged, ordered_inj,
    (prefixNumber_iff a b).2, and_true]
  split_ifs <;> simp_all

/-- The columns that the entries change, one after another. -/
def columnsFrom : Option Entry → List Entry → List Nat
  | _, [] => []
  | previous, entry :: entries =>
      (previous.bind (firstColumn · entry)).getD 0 :: columnsFrom (some entry) entries

/-- The columns of entries that differ are those of their rows. -/
theorem columnsFrom_eq : ∀ {entries : List Entry},
    entries.IsChain (fun a b => rowOf a ≠ rowOf b) →
    columnsFrom none entries = (List.range (entries.map rowOf).length).map
      (PrefixGroups.changedAt (entries.map rowOf)) := by
  have hsome : ∀ (entries : List Entry) (last : Entry),
      (last :: entries).IsChain (fun a b => rowOf a ≠ rowOf b) →
      columnsFrom (some last) entries = (List.range entries.length).map fun i =>
        PrefixGroups.changedAt ((last :: entries).map rowOf) (i + 1) := by
    intro entries
    induction entries with
    | nil =>
        intro last _
        rfl
    | cons entry entries ih =>
        intro last hchain
        obtain ⟨hne, hrest⟩ := List.isChain_cons_cons.mp hchain
        rw [columnsFrom, ih entry hrest, Option.bind_some, firstColumn_eq, if_neg hne,
          List.length_cons, List.range_succ_eq_map]
        show _ = _ :: (List.map Nat.succ _).map _
        rw [List.map_map]
        rfl
  intro entries hchain
  cases entries with
  | nil => rfl
  | cons entry entries =>
      rw [columnsFrom, hsome entries entry hchain, List.length_map, List.length_cons,
        List.range_succ_eq_map]
      show _ = _ :: (List.map Nat.succ _).map _
      rw [List.map_map]
      rfl

/-! ## What the last merge writes -/

/-- The record of an entry that differs from the one before it is written, and planned. -/
theorem emit_eq (h : codec.Covers entries) (hN : codec.bytes ≤ N) {st : Emitter N} {key : TextKey N}
    {last : Option Entry} {entry : Entry} (row : Nat) (hentry : entry ∈ entries)
    (hkey : key.bytes = codec.keyBytes N entry)
    (hlast : Option.Rel (fun (k : TextKey N) e => e ∈ entries ∧ k.bytes = codec.keyBytes N e)
      st.previous last)
    (hdiffers : ∀ e ∈ last, rowOf e ≠ rowOf entry) {statistics : IndexStatistics}
    (hpush : st.statistics.push ((last.bind (firstColumn · entry)).getD 0) (.ofNat st.offset)
      = .ok statistics)
    (hfits : st.offset + ((recordOf entry).length + 1) < 2 ^ 64) :
    emit codec st key row =
      (Sort.pushPlan (recordOf entry).length st.plan).map fun plan =>
        { statistics, previous := some key
          output := st.output ++ .ofNat (recordOf entry).length :: recordOf entry
          plan, offset := st.offset + ((recordOf entry).length + 1) } := by
  obtain ⟨hpos, hle⟩ := length_recordOf entry
  have hframe : Sort.writeEncodedRecord (recordOf entry)
      = .ok (.ofNat (recordOf entry).length :: recordOf entry) := by
    rw [Sort.writeEncodedRecord, if_neg (by omega), if_neg (by omega)]
  have hchanged : changedColumn codec key st.previous
      = .ok ((last.bind (firstColumn · entry)).getD 0) := by
    cases hprevious : st.previous with
    | none =>
        rw [hprevious] at hlast
        cases hlast
        rfl
    | some k =>
        rw [hprevious] at hlast
        obtain ⟨e, rfl, he, hk⟩ : ∃ e, last = some e ∧ e ∈ entries ∧
            k.bytes = codec.keyBytes N e := by
          cases hlast with
          | some hrel => exact ⟨_, rfl, hrel⟩
        have hfirst := h.firstChanged_eq he hentry hN hk hkey
        rw [firstColumn_eq, if_neg (hdiffers e rfl)] at hfirst
        rw [Option.bind_some, firstColumn_eq, if_neg (hdiffers e rfl), changedColumn, hfirst]
        rfl
  rw [emit, hchanged]
  simp only [bind, Except.bind, hpush, h.encode_eq hentry hN hkey, hframe]
  cases Sort.pushPlan (recordOf entry).length st.plan with
  | error e => rfl
  | ok plan =>
      simp only [List.length_cons]
      rw [if_neg (by omega)]
      rfl

/-- The keys of different entries, visited in turn: their records are written one behind the
other. -/
theorem visitAll_emit (h : codec.Covers entries) (hN : codec.bytes ≤ N) {keys : List (TextKey N)}
    {sorted : List Entry}
    (hkeys : List.Forall₂ (fun (key : TextKey N) e => e ∈ entries ∧ key.bytes = codec.keyBytes N e)
      keys sorted) :
    ∀ {st : Emitter N} {row : Nat} {last : Option Entry} {statistics : IndexStatistics},
      Option.Rel (fun (k : TextKey N) e => e ∈ entries ∧ k.bytes = codec.keyBytes N e)
        st.previous last →
      (last.toList ++ sorted).IsChain (fun a b => rowOf a ≠ rowOf b) →
      st.statistics.pushAll ((columnsFrom last sorted).zip
        ((Sort.offsetsFrom st.offset (sorted.map recordOf)).map UInt64.ofNat)) = .ok statistics →
      st.offset + (Sort.framesOf (sorted.map recordOf)).length < 2 ^ 64 →
      Sort.visitAll (emit codec) keys row st =
        (Sort.pushPlans (sorted.map fun entry => (recordOf entry).length) st.plan).map fun plan =>
          ({ statistics, previous := keys.getLast?.or st.previous
             output := st.output ++ Sort.framesOf (sorted.map recordOf), plan
             offset := st.offset + (Sort.framesOf (sorted.map recordOf)).length },
            row + keys.length) := by
  induction hkeys with
  | nil =>
      intro st row last statistics _ _ hpush _
      cases hpush
      simp [Sort.visitAll, Sort.pushPlans, Sort.framesOf, Except.map]
  | @cons key entry keys sorted hkey _ ih =>
      intro st row last statistics hlast hchain hpush hfits
      rw [columnsFrom, List.map_cons, Sort.offsetsFrom, List.map_cons, List.zip_cons_cons] at hpush
      obtain ⟨pushed, hfirst, hrest⟩ := Results.bind_eq_ok_iff.mp hpush
      rw [List.map_cons, Sort.framesOf_cons, List.length_cons, List.length_append] at hfits
      have hdiffers : ∀ e ∈ last, rowOf e ≠ rowOf entry := by
        intro e he
        rw [Option.mem_def] at he
        rw [he] at hchain
        exact (List.isChain_cons_cons.mp hchain).1
      have hchain' : ((some entry).toList ++ sorted).IsChain (fun a b => rowOf a ≠ rowOf b) :=
        hchain.right_of_append
      have hemit := emit_eq h hN row hkey.1 hkey.2 hlast hdiffers hfirst (by omega)
      rw [Sort.visitAll, hemit]
      simp only [List.map_cons]
      rw [Sort.pushPlans]
      cases Sort.pushPlan (recordOf entry).length st.plan with
      | error e => rfl
      | ok plan =>
          show Sort.visitAll (emit codec) keys (row + 1) _ = (Sort.pushPlans _ plan).map _
          have hnext := @ih
            { statistics := pushed, previous := some key
              output := st.output ++ .ofNat (recordOf entry).length :: recordOf entry
              plan, offset := st.offset + ((recordOf entry).length + 1) } (row + 1) (some entry)
            statistics (.some hkey) hchain' hrest (by show _ + _ + _ < _; omega)
          rw [hnext]
          congr 1
          funext plan
          have hlast : keys.getLast?.or (some key) = some (keys.getLast?.getD key) := by
            cases keys.getLast? <;> rfl
          simp only [Sort.framesOf_cons, List.append_assoc, List.length_append, List.length_cons,
            List.cons_append, List.getLast?_cons, hlast, Option.some_or, Prod.mk.injEq,
            Emitter.mk.injEq, true_and]
          omega

/-- The last merge of the keys of some entries that differ from one to the next. -/
theorem mergeSorted_eq (h : codec.Covers entries) (hN : codec.bytes ≤ N)
    {runs : List (List (TextKey N))} {sorted : List Entry}
    (hkeys : List.Forall₂ (fun (key : TextKey N) e => e ∈ entries ∧ key.bytes = codec.keyBytes N e)
      ((Sort.merged runs).map Prod.fst) sorted)
    (hrows : sorted.length = spool.rows) (hchain : sorted.IsChain fun a b => rowOf a ≠ rowOf b)
    (hfits : (Sort.framesOf (sorted.map recordOf)).length < 2 ^ 64)
    {statistics : FullIndexStatistics}
    (hanalyze : IndexStats.analyze 4 3 (.ofNat spool.rows) ((columnsFrom none sorted).zip
      ((Sort.offsetsFrom 0 (sorted.map recordOf)).map UInt64.ofNat)) = .ok statistics)
    (pageSize : Option Nat) :
    mergeSorted spool codec pageSize runs =
      (Sort.planned pageSize (sorted.map fun entry => (recordOf entry).length)).map fun planned =>
        { stream := Sort.framesOf (sorted.map recordOf)
          statistics := Sort.published spool.rows statistics, plannedPages := planned } := by
  obtain ⟨started, hstarted, hanalyze⟩ := Results.bind_eq_ok_iff.mp hanalyze
  obtain ⟨pushed, hpushed, hfinish⟩ := Results.bind_eq_ok_iff.mp hanalyze
  have hcount : ((Sort.merged runs).map Prod.fst).length = spool.rows :=
    hkeys.length_eq.trans hrows
  rw [mergeSorted, hstarted, Sort.planned_eq]
  simp only [bind, Except.bind]
  cases Sort.newPlan pageSize with
  | error e => rfl
  | ok plan =>
      have hvisit : Sort.visitAll (emit codec) ((Sort.merged runs).map Prod.fst) 0
          { statistics := started, previous := none, output := [], plan, offset := 0 } = _ :=
        visitAll_emit h hN hkeys (show Option.Rel _ none none from .none) hchain hpushed
          (by rwa [Nat.zero_add])
      simp only [Sort.mergeVisit_eq, hvisit]
      cases Sort.pushPlans (sorted.map fun entry => (recordOf entry).length) plan with
      | error e => rfl
      | ok plan =>
          simp only [Except.map, List.nil_append]
          cases Sort.finishPlan pageSize plan with
          | error e => rfl
          | ok planned =>
              simp only [Nat.zero_add, hcount, ne_eq, not_true, if_false, hfinish]
              rfl

/-! ## Distinct entries -/

/-- Whatever the runs and the workers are, the last merge visits the keys of the entries in the
order of the index. -/
theorem sortKeys_merge (h : Sortable spool codec entries) (hN : codec.bytes ≤ N)
    {capacity workers : Nat} (hcapacity : 0 < capacity) (hworkers : 0 < workers)
    (pageSize : Option Nat) :
    ∃ (runs : List (List (TextKey N))) (sorted : List Entry),
      sortKeys N spool codec capacity workers pageSize = mergeSorted spool codec pageSize runs ∧
      sorted.Perm entries ∧
      List.Forall₂ (fun (key : TextKey N) e => e ∈ entries ∧ key.bytes = codec.keyBytes N e)
        ((Sort.merged runs).map Prod.fst) sorted ∧
      sorted.Pairwise fun a b => ¬EntryLt b a := by
  obtain ⟨keys, hkeys, hpacks⟩ := h.covers.packs hN
  obtain ⟨first, hfirst, hsorted, hperm⟩ := workerRuns_ok h hN hkeys hpacks hcapacity hworkers
  obtain ⟨runs, hruns, -, hsorted, hleft⟩ := Sort.mergeGenerations_ok first hsorted
  obtain ⟨sorted, hpacked, hentries⟩ := List.perm_comp_forall₂
    ((Sort.merged_perm hsorted).trans (hleft.trans hperm)) hkeys.flip
  have hmembers : List.Forall₂ (fun (key : TextKey N) e =>
      e ∈ entries ∧ key.bytes = codec.keyBytes N e) ((Sort.merged runs).map Prod.fst) sorted := by
    refine List.forall₂_iff_get.mpr ⟨hpacked.length_eq, fun i hi hi' => ⟨?_, hpacked.get hi hi'⟩⟩
    exact hentries.mem_iff.mp (List.get_mem _ _)
  refine ⟨runs, sorted, ?_, hentries, hmembers, ?_⟩
  · have hfile := h.file
    rw [sortKeys, if_neg (by rw [h.ranges.rows]; omega),
      if_neg (by
        rw [h.ranges.rows, h.ranges.tuples, List.length_map]; exact not_not.mpr rfl), hfirst]
    show (Sort.mergeGenerations first >>= _) = _
    rw [hruns]
    rfl
  · refine Results.forall₂_pairwise hmembers (Sort.merged_sorted hsorted)
      fun ka kb a b ha hb hle => ?_
    rw [← h.covers.value_lt_iff hb.1 ha.1 hb.2 ha.2]
    exact Nat.not_lt.mpr hle

/-- Distinct entries: the stream is that of their records in strict order, beside the plan of their
lengths. -/
theorem sortKeys_distinct (h : Sortable spool codec entries) (hN : codec.bytes ≤ N)
    (hdistinct : (entries.map Entry.indexed).Nodup) {capacity workers : Nat}
    (hcapacity : 0 < capacity) (hworkers : 0 < workers) (pageSize : Option Nat) :
    ∃ (sorted : List Entry) (statistics : FullIndexStatistics),
      sorted.Perm entries ∧ sorted.Pairwise EntryLt ∧
      IndexStats.analyze 4 3 (.ofNat entries.length) ((columnsFrom none sorted).zip
        ((Sort.offsetsFrom 0 (sorted.map recordOf)).map UInt64.ofNat)) = .ok statistics ∧
      sortKeys N spool codec capacity workers pageSize =
        (Sort.planned pageSize (sorted.map fun entry => (recordOf entry).length)).map fun planned =>
          { stream := Sort.framesOf (sorted.map recordOf)
            statistics := Sort.published entries.length statistics, plannedPages := planned } := by
  obtain ⟨runs, sorted, hsort, hperm, hmembers, hordered⟩ :=
    sortKeys_merge h hN hcapacity hworkers pageSize
  have hnodup : (sorted.map Entry.indexed).Nodup := (hperm.map _).nodup_iff.mpr hdistinct
  have hstrict : sorted.Pairwise EntryLt := by
    refine (hordered.and (List.pairwise_map.mp hnodup)).imp fun {a b} hab => ?_
    rw [← rowOf_lt_iff] at hab ⊢
    exact lt_of_le_of_ne (not_lt.mp hab.1) fun heq => hab.2 (rowOf_inj.mp heq)
  have hrows : PrefixGroups.Sorted 4 (sorted.map rowOf) := by
    refine ⟨fun row hrow => ?_, List.pairwise_map.mpr (hstrict.imp rowOf_lt_iff.mpr)⟩
    obtain ⟨entry, -, rfl⟩ := List.mem_map.mp hrow
    rfl
  have hchain : sorted.IsChain fun a b => rowOf a ≠ rowOf b :=
    (hstrict.imp fun {a b} hlt => (rowOf_lt_iff.mpr hlt).ne).isChain
  have hcount : (sorted.map rowOf).length = entries.length := by
    rw [List.length_map, hperm.length_eq]
  have hfile := h.file
  have hnumber : (UInt64.ofNat entries.length).toNat = entries.length :=
    UInt64.toNat_ofNat_of_lt' (by show _ < 2 ^ 64; omega)
  obtain ⟨st, k, -, hanalyze⟩ := IndexStats.analyze_rows (by decide) hrows (by omega)
    (show 0 < 3 ∧ 3 ≤ 4 by decide)
    (show ((Sort.offsetsFrom 0 (sorted.map recordOf)).map UInt64.ofNat).length = _ by simp)
    (hnumber.trans hcount.symm)
  rw [IndexStats.streamOf, ← columnsFrom_eq hchain] at hanalyze
  have hfits : (Sort.framesOf (sorted.map recordOf)).length < 2 ^ 64 := by
    have hsum := ((hperm.map recordOf).map fun record => record.length + 1).sum_nat
    rw [Sort.length_framesOf, hsum, ← Sort.length_framesOf]
    exact h.stream
  refine ⟨sorted, _, hperm, hstrict, hanalyze, ?_⟩
  rw [← h.ranges.rows] at hanalyze ⊢
  rw [hsort]
  exact mergeSorted_eq h.covers hN hmembers (by rw [hperm.length_eq, h.ranges.rows]) hchain hfits
    hanalyze pageSize

end

/-- A sort of some entries for keys of a width: the records of the entries, each once and in the
order of the index, with statistics of the columns that change, beside the plan of the lengths. -/
def SortsTo (entries : List Entry) (pageSize : Option Nat)
    (result : Except Failure SortedIntegerIndex) : Prop :=
  ∃ (sorted : List Entry) (statistics : FullIndexStatistics),
    sorted.Perm entries ∧ sorted.Pairwise EntryLt ∧
    Sort.readEncoded (Sort.framesOf (sorted.map recordOf)) = .ok (sorted.map recordOf) ∧
    IndexStats.analyze 4 3 (.ofNat entries.length) ((columnsFrom none sorted).zip
      ((Sort.offsetsFrom 0 (sorted.map recordOf)).map UInt64.ofNat)) = .ok statistics ∧
    result = (Sort.planned pageSize (sorted.map fun entry => (recordOf entry).length)).map
      fun plannedPages =>
        { stream := Sort.framesOf (sorted.map recordOf)
          statistics := Sort.published entries.length statistics, plannedPages }

/-- The prefix of a text has the same bytes either way. A spool of entries whose indexed columns are
distinct is sorted by any codec width, run capacity and number of workers, and the first column that
changes from one key to another is that of their entries. -/
theorem text_index_sorted :
    (∀ text : String, prefixEnd text = generalEnd text ∧
      (asBytes text).take (prefixEnd text) = asBytes (prefixOf text)) ∧
    ∀ entries : List Entry, entries.length * 72 < 2 ^ 64 →
      (Sort.framesOf (entries.map recordOf)).length < 2 ^ 64 →
      (entries.map Entry.indexed).Nodup →
      ∃ spool codec, TextSpool.create.pushAll entries = .ok spool ∧
        TextCodec.new spool = .ok codec ∧ codec.bytes ≤ 72 ∧
        ∀ N, codec.bytes ≤ N →
          (∀ capacity workers, 0 < capacity → 0 < workers → ∀ pageSize,
            SortsTo entries pageSize (sortKeys N spool codec capacity workers pageSize)) ∧
          ∀ a ∈ entries, ∀ b ∈ entries, ∃ ka kb : TextKey N,
            codec.pack N (tupleOf a) = .ok ka ∧ codec.pack N (tupleOf b) = .ok kb ∧
            codec.firstChanged ka kb = .ok (firstColumn a b) := by
  refine ⟨fun text => ⟨?_, take_prefixEnd text⟩, fun entries hfile hstream hdistinct => ?_⟩
  · rw [prefixEnd_eq, generalEnd_eq, asBytes_prefixOf]
  obtain ⟨spool, hpush, -, hranges⟩ := TextSpool.create_pushAll
    (show entries.length < 2 ^ 64 by omega)
  obtain ⟨codec, hcodec, hcovers⟩ := TextCodec.new_covers hranges
  have hsortable : Sortable spool codec entries := ⟨hranges, hcovers, hfile, hstream⟩
  refine ⟨spool, codec, hpush, hcodec, bytes_le hcovers, fun N hN =>
    ⟨fun capacity workers hcapacity hworkers pageSize => ?_, fun a ha b hb => ?_⟩⟩
  · obtain ⟨sorted, statistics, hperm, hstrict, hanalyze, hsort⟩ :=
      sortKeys_distinct hsortable hN hdistinct hcapacity hworkers pageSize
    refine ⟨sorted, statistics, hperm, hstrict,
      Sort.readEncoded_framesOf fun record hrecord => ?_, hanalyze, hsort⟩
    obtain ⟨entry, -, rfl⟩ := List.mem_map.mp hrecord
    exact length_recordOf entry
  · exact ⟨_, _, hcovers.pack_eq ha hN, hcovers.pack_eq hb hN,
      hcovers.firstChanged_eq ha hb hN rfl rfl⟩

/-- A prefix beside its extension and a text that is cut at a NUL, sorted by two workers. -/
theorem text_index_sorted_small :
    ∃ spool codec, TextSpool.create.pushAll
        [⟨1, "ab", 2, 3⟩, ⟨-1, "a\x00b", 2, 3⟩, ⟨1, "a", 2, 3⟩] = .ok spool ∧
      TextCodec.new spool = .ok codec ∧
      SortsTo [⟨1, "ab", 2, 3⟩, ⟨-1, "a\x00b", 2, 3⟩, ⟨1, "a", 2, 3⟩] none
        (sortKeys 72 spool codec 1 2 none) := by
  have hle : ∀ entries : List Entry,
      (Sort.framesOf (entries.map recordOf)).length ≤ 256 * entries.length := by
    intro entries
    induction entries with
    | nil => exact Nat.le_refl 0
    | cons entry entries ih =>
        have hlength := (length_recordOf entry).2
        rw [List.map_cons, Sort.framesOf_cons, List.length_cons, List.length_append,
          List.length_cons]
        omega
  obtain ⟨spool, codec, hpush, hcodec, hbytes, hsorts⟩ := text_index_sorted.2
    [⟨1, "ab", 2, 3⟩, ⟨-1, "a\x00b", 2, 3⟩, ⟨1, "a", 2, 3⟩] (by decide)
    (Nat.lt_of_le_of_lt (hle _) (by decide)) (by decide)
  exact ⟨spool, codec, hpush, hcodec,
    (hsorts 72 hbytes).1 1 2 (by decide) (by decide) none⟩

end Velr.TextIndex
