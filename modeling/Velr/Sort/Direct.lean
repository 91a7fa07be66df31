import Velr.IndexStats.Witnesses
import Velr.Sort.IntegerIndex

/-!
# The direct index

`prepare_direct_keys`, `DirectRecords` and the two ways in which `index_builder.rs` writes an index:
from raw runs, whose last merge feeds the page writer, and from the encoded stream. The page writer
is left out: what it is given is the list of the records. Both ways agree on the records and on the
statistics, and a witness of either reads back the record it was pushed with (`direct_agrees`).
-/

namespace Velr.Sort

open ByteString (Bytes)
open IndexStats (Failure IndexStatistics FullIndexStatistics)
open Merge (Cursors)

/-! ## What is built -/

/-- `Stat4Record` -/
structure Stat4Record where
  equal : List Nat
  less : List Nat
  distinctLess : List Nat
  record : Bytes
deriving DecidableEq

/-- `BuiltIndexStatistics` -/
structure BuiltIndexStatistics where
  stat1 : String
  samples : List Stat4Record
deriving DecidableEq

/-- The samples of some statistics, each with the record that its witness leads to. -/
def buildStatistics (reread : UInt64 → Except Failure Bytes) (statistics : FullIndexStatistics) :
    Except Failure BuiltIndexStatistics := do
  let samples ← statistics.samples.mapM fun sample => do
    let record ← reread sample.witness
    Except.ok
      { equal := sample.equal, less := sample.less, distinctLess := sample.distinctLess, record }
  .ok { stat1 := statistics.stat1, samples }

/-! ## The encoded stream -/

/-- `write_encoded_index`: the record at a witness. -/
def rereadEncoded (stream : Bytes) (witness : UInt64) : Except Failure Bytes := do
  match ← readEncodedRecord (stream.drop witness.toNat) with
  | some (record, _) => .ok record
  | none => .error (.error "index statistics witness is outside the encoded stream")

/-- `SortedIntegerIndex::write_pages`: the records that the page writer is given, and the
statistics. -/
def SortedIntegerIndex.write (index : SortedIntegerIndex) :
    Except Failure (List Bytes × BuiltIndexStatistics) := do
  let records ← readEncoded index.stream
  let built ← buildStatistics (rereadEncoded index.stream) index.statistics
  .ok (records, built)

/-! ## The raw runs -/

section
variable (K : Type) [SortKey K]

/-- `DirectIntegerIndex` -/
structure DirectIntegerIndex where
  paths : List (List K)
  codec : Codec
  specification : IntegerIndexSpec
  rows : Nat

/-- `prepare_direct_keys` -/
def prepareDirectKeys (spool : IntegerSpool) (codec : Codec) (specification : IntegerIndexSpec)
    (keyBytes : Nat) : Except Failure (DirectIntegerIndex K) := do
  if 2 ^ 64 ≤ spool.rows * 32 then .error (.error "direct tuple length overflow")
  else if spool.tuples.length * 32 ≠ spool.rows * 32 then
    .error (.error "direct tuple spool has unexpected length")
  else do
    let paths ← makeRuns K spool codec (max (keyBytes / RadixKey.bytes K) 1) 0 1
    let paths ← mergeGenerations paths
    .ok { paths, codec, specification, rows := spool.rows }

end

section
variable {K : Type} [SortKey K] {n : Nat}

/-- `DirectRecords`, without its readers and its heap. -/
structure DirectState (n : Nat) where
  positions : Fin n → Nat
  previous : Option Tuple
  statistics : IndexStatistics

/-- `DirectRecords::next`: the first entry of the heap. -/
def DirectState.take (codec : Codec) (spec : IntegerIndexSpec) (st : DirectState n)
    (entry : K × Fin n) : Except Failure (Bytes × DirectState n) :=
  if 2 ^ 64 ≤ st.positions entry.2 * 16 then
    .error (.error "direct sample position overflow")
  else do
    let witness := st.positions entry.2 * 16 ||| entry.2.val
    let tuple ← SortKey.unpack codec entry.1
    let record ← tupleRecord spec tuple
    let changed ← changedColumn spec "direct merge has duplicate complete keys" tuple st.previous
    let statistics ← st.statistics.push changed (.ofNat witness)
    .ok (record,
      { positions := Function.update st.positions entry.2 (st.positions entry.2 + 1)
        previous := some tuple, statistics })

/-- What the page writer is given by `DirectRecords::next`, call after call, and the state behind
the last one. -/
def readDirect (codec : Codec) (spec : IntegerIndexSpec) (cursors : Cursors K n)
    (st : DirectState n) : Except Failure (List Bytes × DirectState n) :=
  match _h : cursors.heap with
  | [] => .ok ([], st)
  | entry :: _ => do
      let (record, st) ← st.take codec spec entry
      let (records, st) ← readDirect codec spec (cursors.advance EntryLe entry.2) st
      .ok (record :: records, st)
termination_by cursors.size
decreasing_by
  exact Nat.lt_of_lt_of_eq (Nat.lt_succ_self _)
    (Cursors.size_advance EntryLe ‹cursors.heap = entry :: _›)

/-- `DirectIntegerIndex::write`: the records that the page writer is given, and the statistics
behind the last one. -/
def DirectIntegerIndex.read (index : DirectIntegerIndex K) :
    Except Failure (List Bytes × FullIndexStatistics) :=
  if 16 < index.paths.length then .error (.error "direct merge has too many sources")
  else do
    let statistics ← IndexStatistics.new index.specification.recordFields.length
      index.specification.keyColumns (.ofNat index.rows)
    let (records, st) ← readDirect index.codec index.specification
      (Cursors.start EntryLe fun run : Fin index.paths.length => index.paths.get run)
      { positions := fun _ => 0, previous := none, statistics }
    let statistics ← st.statistics.finish
    let statistics := if index.rows = 0 then { statistics with stat1 := "" } else statistics
    .ok (records, statistics)

/-- `DirectIntegerIndex::write`: the record at a witness. -/
def DirectIntegerIndex.reread (index : DirectIntegerIndex K) (witness : UInt64) :
    Except Failure Bytes :=
  match index.paths[(witness &&& 15).toNat]? with
  | none => .error (.error "direct statistics source is absent")
  | some path =>
      if 2 ^ 64 ≤ (witness >>> 4).toNat * RadixKey.bytes K then
        .error (.error "direct sample byte offset overflow")
      else
        match path[(witness >>> 4).toNat]? with
        | none => .error (.error "direct sample is beyond its run")
        | some key => do
            let tuple ← SortKey.unpack index.codec key
            tupleRecord index.specification tuple

/-- `DirectIntegerIndex::write` -/
def DirectIntegerIndex.write (index : DirectIntegerIndex K) :
    Except Failure (List Bytes × BuiltIndexStatistics) := do
  let (records, statistics) ← index.read
  let built ← buildStatistics index.reread statistics
  .ok (records, built)

end

/-! ## What a witness leads to -/

/-- The witnesses of the entries of a merge: the place of each in its run, and the run. -/
def witnessesFrom {K : Type} {n : Nat} : (Fin n → Nat) → List (K × Fin n) → List Nat
  | _, [] => []
  | positions, entry :: entries =>
      (positions entry.2 * 16 + entry.2.val) ::
        witnessesFrom (Function.update positions entry.2 (positions entry.2 + 1)) entries

/-- What a run has given it gave in the front or in the back. -/
theorem ofRun_append {α : Type} {n : Nat} (run : Fin n) (front back : List (α × Fin n)) :
    Merge.ofRun run (front ++ back) = Merge.ofRun run front ++ Merge.ofRun run back := by
  rw [Merge.ofRun, List.filter_append, List.map_append]
  rfl

/-- An entry of a merge is found at its place in its run. -/
theorem witnessesFrom_place {K : Type} {n : Nat} : ∀ front back : List (K × Fin n),
    List.Forall₂ (fun witness entry => ∃ position, witness = position * 16 + entry.2.val ∧
        (Merge.ofRun entry.2 (front ++ back))[position]? = some entry.1)
      (witnessesFrom (fun run => (Merge.ofRun run front).length) back) back
  | _, [] => .nil
  | front, entry :: back => by
      refine .cons ⟨_, rfl, ?_⟩ ?_
      · rw [ofRun_append, Merge.ofRun_cons, if_pos rfl, List.getElem?_append_right (Nat.le_refl _),
          Nat.sub_self]
        rfl
      · have hnext : Function.update (fun run => (Merge.ofRun run front).length) entry.2
            ((Merge.ofRun entry.2 front).length + 1)
              = fun run => (Merge.ofRun run (front ++ [entry])).length := by
          funext run
          rw [ofRun_append, Merge.ofRun_cons, List.length_append]
          by_cases hrun : run = entry.2
          · subst hrun
            rw [Function.update_self, if_pos rfl]
            rfl
          · rw [Function.update_of_ne hrun, if_neg (Ne.symm hrun)]
            rfl
        have ih := witnessesFrom_place (front ++ [entry]) back
        rw [List.append_assoc, List.singleton_append, ← hnext] at ih
        exact ih

/-- The parts of a witness. -/
theorem witness_parts {position run : Nat} (hrun : run < 16)
    (hfits : position * 16 + run < 2 ^ 64) :
    (UInt64.ofNat (position * 16 + run) &&& 15).toNat = run ∧
      (UInt64.ofNat (position * 16 + run) >>> 4).toNat = position := by
  have hvalue : (UInt64.ofNat (position * 16 + run)).toNat = position * 16 + run :=
    UInt64.toNat_ofNat_of_lt' hfits
  have hlow : (15 : UInt64).toNat = 2 ^ 4 - 1 := rfl
  have hshift : (4 : UInt64).toNat % 64 = 4 := rfl
  rw [UInt64.toNat_and, UInt64.toNat_shiftRight, hvalue, hlow, hshift,
    Nat.and_two_pow_sub_one_eq_mod, Nat.shiftRight_eq_div_pow]
  omega

section
variable {K : Type} [SortKey K] {n : Nat} {codec : Codec} {spec : IntegerIndexSpec}

/-- `DirectRecords::next` over the entries of a merge. -/
def takeAll (codec : Codec) (spec : IntegerIndexSpec) : List (K × Fin n) → DirectState n →
    Except Failure (List Bytes × DirectState n)
  | [], st => .ok ([], st)
  | entry :: entries, st => do
      let (record, st) ← st.take codec spec entry
      let (records, st) ← takeAll codec spec entries st
      .ok (record :: records, st)

/-- Reading the cursors takes the drained keys one after another. -/
theorem readDirect_eq (cursors : Cursors K n) : ∀ st : DirectState n,
    readDirect codec spec cursors st = takeAll codec spec (cursors.drain EntryLe) st := by
  induction hsize : cursors.size using Nat.strongRecOn generalizing cursors with
  | _ size ih =>
    intro st
    rw [readDirect]
    split
    · next hheap =>
        rw [Cursors.drain_nil EntryLe hheap]
        rfl
    · next entry rest hheap =>
        have hlt := Cursors.size_advance EntryLe hheap
        rw [Cursors.drain_cons EntryLe hheap, takeAll]
        refine congrArg (st.take codec spec entry >>= ·) (funext fun next => ?_)
        show (readDirect codec spec _ next.2 >>= _) = (takeAll codec spec _ next.2 >>= _)
        rw [ih _ (by rw [← hsize, ← hlt]; exact Nat.lt_succ_self _) _ rfl next.2]

/-- An entry whose tuple differs from the one before. -/
theorem DirectState.take_eq (hfields : ∀ field ∈ spec.recordFields, field < 4)
    (hlength : spec.recordFields.length ≤ 8) (hn : n ≤ 16) {st : DirectState n} {entry : K × Fin n}
    {tuple : Tuple} (hunpack : SortKey.unpack codec entry.1 = .ok tuple)
    (hdiffers : ∀ last ∈ st.previous,
      valuesOf spec.recordFields last ≠ valuesOf spec.recordFields tuple)
    {statistics : IndexStatistics}
    (hpush : st.statistics.push
      (st.previous.elim 0 fun last =>
        PrefixGroups.firstChanged (rowOf spec last) (rowOf spec tuple))
      (.ofNat (st.positions entry.2 * 16 + entry.2.val)) = .ok statistics)
    (hfits : st.positions entry.2 * 16 < 2 ^ 64) :
    st.take codec spec entry = .ok (recordOf spec tuple,
      { positions := Function.update st.positions entry.2 (st.positions entry.2 + 1)
        previous := some tuple, statistics }) := by
  have hwitness : st.positions entry.2 * 16 ||| entry.2.val
      = st.positions entry.2 * 16 + entry.2.val := by
    have hor := Nat.two_pow_add_eq_or_of_lt (show entry.2.val < 2 ^ 4 by omega)
      (st.positions entry.2)
    rw [Nat.mul_comm, ← hor]
  rw [DirectState.take, if_neg (by omega), hwitness, hunpack]
  simp only [bind, Except.bind, changedColumn_eq hfields, if_pos hdiffers, hpush,
    tupleRecord_eq hfields hlength]

/-- The entries of different tuples, taken in turn: their records, each pushed with its witness. -/
theorem takeAll_ok (hfields : ∀ field ∈ spec.recordFields, field < 4)
    (hlength : spec.recordFields.length ≤ 8) (hn : n ≤ 16) {entries : List (K × Fin n)}
    {tuples : List Tuple}
    (hunpack : List.Forall₂ (fun entry tuple => SortKey.unpack codec entry.1 = .ok tuple)
      entries tuples) :
    ∀ {st : DirectState n} {statistics : IndexStatistics},
      (st.previous.toList ++ tuples).IsChain
        (fun a b => valuesOf spec.recordFields a ≠ valuesOf spec.recordFields b) →
      st.statistics.pushAll ((columnsFrom spec st.previous tuples).zip
        ((witnessesFrom st.positions entries).map UInt64.ofNat)) = .ok statistics →
      (∀ run, (st.positions run + entries.length) * 16 < 2 ^ 64) →
      ∃ next : DirectState n, next.statistics = statistics ∧
        takeAll codec spec entries st = .ok (tuples.map (recordOf spec), next) := by
  induction hunpack with
  | nil =>
      intro st statistics _ hpush _
      cases hpush
      exact ⟨st, rfl, rfl⟩
  | @cons entry tuple entries tuples hentry _ ih =>
      intro st statistics hchain hpush hfits
      rw [columnsFrom, witnessesFrom, List.map_cons, List.zip_cons_cons] at hpush
      obtain ⟨pushed, hfirst, hrest⟩ := Results.bind_eq_ok_iff.mp hpush
      have hdiffers : ∀ last ∈ st.previous,
          valuesOf spec.recordFields last ≠ valuesOf spec.recordFields tuple := by
        intro last hlast
        rw [Option.mem_def] at hlast
        rw [hlast] at hchain
        exact (List.isChain_cons_cons.mp hchain).1
      have hchain' : ((some tuple).toList ++ tuples).IsChain
          (fun a b => valuesOf spec.recordFields a ≠ valuesOf spec.recordFields b) :=
        hchain.right_of_append
      have htake := DirectState.take_eq hfields hlength hn hentry hdiffers hfirst (by
        have hrun := hfits entry.2
        rw [List.length_cons] at hrun
        omega)
      have hroom : ∀ run, (Function.update st.positions entry.2 (st.positions entry.2 + 1) run
          + entries.length) * 16 < 2 ^ 64 := by
        intro run
        have hrun := hfits run
        rw [List.length_cons] at hrun
        by_cases hsame : run = entry.2
        · subst hsame
          rw [Function.update_self]
          omega
        · rw [Function.update_of_ne hsame]
          omega
      obtain ⟨next, hnext, htakes⟩ := @ih
        { positions := Function.update st.positions entry.2 (st.positions entry.2 + 1)
          previous := some tuple, statistics := pushed } statistics hchain' hrest hroom
      refine ⟨next, hnext, ?_⟩
      rw [takeAll, htake]
      show (takeAll codec spec entries _ >>= _) = _
      rw [htakes]
      rfl

/-- In runs that are in order, the witness of an entry leads to its record. -/
theorem DirectIntegerIndex.reread_witnesses [LawfulRadixKey K] {index : DirectIntegerIndex K}
    (hfields : ∀ field ∈ index.specification.recordFields, field < 4)
    (hlength : index.specification.recordFields.length ≤ 8)
    (hsorted : ∀ run ∈ index.paths, SortedKeys run) (hfew : index.paths.length ≤ 16)
    (hbytes : RadixKey.bytes K ≤ 32) (hfits : index.paths.flatten.length * 32 < 2 ^ 64)
    {tuples : List Tuple}
    (hunpack : List.Forall₂ (fun entry tuple => SortKey.unpack index.codec entry.1 = .ok tuple)
      (merged index.paths) tuples) :
    List.Forall₂ (fun witness tuple =>
        index.reread witness = .ok (recordOf index.specification tuple))
      ((witnessesFrom (fun _ => 0) (merged index.paths)).map UInt64.ofNat) tuples := by
  have hread : ∀ (entry : K × Fin index.paths.length) (position : Nat) (tuple : Tuple),
      (Merge.ofRun entry.2 (merged index.paths))[position]? = some entry.1 →
      SortKey.unpack index.codec entry.1 = .ok tuple →
      index.reread (.ofNat (position * 16 + entry.2.val))
        = .ok (recordOf index.specification tuple) := by
    intro entry position tuple hplace htuple
    rw [(merged_ordered hsorted).1] at hplace
    have hposition : position < (index.paths.get entry.2).length :=
      (List.getElem?_eq_some_iff.mp hplace).1
    have hrun : (index.paths.get entry.2).length ≤ index.paths.flatten.length :=
      (List.sublist_flatten_of_mem (List.get_mem _ _)).length_le
    have hinside : position * RadixKey.bytes K ≤ position * 32 := Nat.mul_le_mul_left _ hbytes
    have hpath : index.paths[entry.2.val]? = some (index.paths.get entry.2) :=
      List.getElem?_eq_getElem entry.2.isLt
    obtain ⟨hlow, hhigh⟩ := witness_parts (show entry.2.val < 16 by omega)
      (show position * 16 + entry.2.val < 2 ^ 64 by omega)
    rw [reread, hlow, hhigh, hpath]
    simp only
    rw [if_neg (by omega), hplace]
    simp only [htuple, bind, Except.bind, tupleRecord_eq hfields hlength]
  have hplaces := witnessesFrom_place [] (merged index.paths)
  change List.Forall₂ _ (witnessesFrom (fun _ => 0) (merged index.paths)) _ at hplaces
  rw [List.nil_append] at hplaces
  refine List.forall₂_map_left_iff.mpr (List.forall₂_iff_get.mpr
    ⟨hplaces.length_eq.trans hunpack.length_eq, fun i hi hi' => ?_⟩)
  have hentry : i < (merged index.paths).length := hplaces.length_eq ▸ hi
  obtain ⟨position, hwitness, hplace⟩ := hplaces.get hi hentry
  show index.reread (.ofNat ((witnessesFrom _ _).get ⟨i, hi⟩)) = _
  rw [hwitness]
  exact hread _ position _ hplace (hunpack.get hentry hi')

end

/-- In the encoded stream, the place of a record leads to it. -/
theorem rereadEncoded_offsets : ∀ {records : List Bytes} (front : Bytes),
    (∀ record ∈ records, 0 < record.length ∧ record.length ≤ 255) →
    (front ++ framesOf records).length < 2 ^ 64 →
    List.Forall₂ (fun witness record =>
        rereadEncoded (front ++ framesOf records) witness = .ok record)
      ((offsetsFrom front.length records).map UInt64.ofNat) records
  | [], _, _, _ => .nil
  | record :: records, front, hrecords, hfits => by
      have hvalue : (UInt64.ofNat front.length).toNat = front.length :=
        UInt64.toNat_ofNat_of_lt' (by
          rw [List.length_append] at hfits
          show _ < 2 ^ 64
          omega)
      rw [offsetsFrom, List.map_cons, framesOf_cons]
      refine .cons ?_ ?_
      · rw [rereadEncoded, hvalue, List.drop_left,
          readEncodedRecord_frame (hrecords record (by simp))]
        rfl
      · have hsplit : front ++ .ofNat record.length :: (record ++ framesOf records)
            = (front ++ .ofNat record.length :: record) ++ framesOf records := by simp
        rw [framesOf_cons, hsplit] at hfits
        have ih := rereadEncoded_offsets (front ++ .ofNat record.length :: record)
          (fun r hr => hrecords r (by simp [hr])) hfits
        rw [List.length_append, List.length_cons] at ih
        rw [hsplit]
        exact ih

/-! ## Both statistics -/

/-- The samples of some statistics, each with the record of its number. -/
def builtOf (statistics : FullIndexStatistics) (records : List Bytes) : BuiltIndexStatistics where
  stat1 := statistics.stat1
  samples := statistics.samples.map fun sample =>
    { equal := sample.equal, less := sample.less, distinctLess := sample.distinctLess
      record := records.getD (sample.witness.toNat - 1) [] }

/-- Samples whose witnesses lead to records are built with these. -/
theorem buildStatistics_eq {reread : UInt64 → Except Failure Bytes} {witnesses : List UInt64}
    {records : List Bytes}
    (hreread : List.Forall₂ (fun witness record => reread witness = .ok record) witnesses records)
    (hbounded : witnesses.length < 2 ^ 64) {statistics : FullIndexStatistics}
    (hsamples : ∀ sample ∈ statistics.samples, ∃ i < witnesses.length,
      sample.witness = .ofNat (i + 1)) :
    buildStatistics reread (statistics.mapWitness (IndexStats.pick witnesses))
      = .ok (builtOf statistics records) := by
  have hmap : (statistics.mapWitness (IndexStats.pick witnesses)).samples.mapM (fun sample => do
      let record ← reread sample.witness
      Except.ok
        ({
          equal := sample.equal, less := sample.less,
          distinctLess := sample.distinctLess, record } :
          Stat4Record)) = .ok (builtOf statistics records).samples := by
    refine Results.mapM_eq_ok_iff.mpr (List.forall₂_map_left_iff.mpr
      (List.forall₂_map_right_iff.mpr (List.forall₂_same.mpr fun sample hsample => ?_)))
    obtain ⟨i, hi, hwitness⟩ := hsamples sample hsample
    have hrecord : i < records.length := hreread.length_eq ▸ hi
    have hread := hreread.get hi hrecord
    have hnumber : (UInt64.ofNat (i + 1)).toNat - 1 = i := by
      rw [UInt64.toNat_ofNat_of_lt' (by show i + 1 < 2 ^ 64; omega), Nat.add_sub_cancel]
    show (reread (IndexStats.pick witnesses sample.witness) >>= _) = _
    rw [hwitness, IndexStats.pick_number hbounded hi, hnumber, List.getD_eq_getElem _ _ hrecord]
    exact Results.bind_eq_ok_iff.mpr ⟨_, hread, rfl⟩
  rw [buildStatistics, hmap]
  rfl

/-- Publishing does not look at the witnesses. -/
theorem published_mapWitness (f : UInt64 → UInt64) (rows : Nat) (statistics : FullIndexStatistics) :
    published rows (statistics.mapWitness f) = (published rows statistics).mapWitness f := by
  unfold published
  split <;> rfl

/-- Publishing keeps the samples. -/
theorem published_samples (rows : Nat) (statistics : FullIndexStatistics) :
    (published rows statistics).samples = statistics.samples := by
  unfold published
  split <;> rfl

/-- Statistics of the rows of some tuples, each of them pushed with a witness that leads back to its
record. -/
def Witnessed (spec : IntegerIndexSpec) (tuples : List Tuple)
    (reread : UInt64 → Except Failure Bytes) (statistics : FullIndexStatistics) : Prop :=
  ∃ (witnesses : List UInt64) (analyzed : FullIndexStatistics),
    List.Forall₂ (fun witness tuple => reread witness = .ok (recordOf spec tuple))
      witnesses tuples ∧
    IndexStats.analyze spec.recordFields.length spec.keyColumns (.ofNat tuples.length)
      (IndexStats.streamOf (tuples.map (rowOf spec)) witnesses) = .ok analyzed ∧
    statistics = published tuples.length analyzed

section
variable {K : Type} [SortKey K] [LawfulRadixKey K] {codec : Codec} {spool : IntegerSpool}
  {spec : IntegerIndexSpec}

/-- The direct path reads the tuples in strict order. -/
theorem prepareDirectKeys_read (h : Sortable spool spec codec)
    (hexact : KeyExact K codec spool.tuples) (hbytes : RadixKey.bytes K ≤ 32) {tuples : List Tuple}
    (hperm : tuples.Perm spool.tuples) (hstrict : tuples.Pairwise (TupleLt spec.sortedFields))
    (keyBytes : Nat) :
    ∃ (index : DirectIntegerIndex K) (witnesses : List UInt64),
      prepareDirectKeys K spool codec spec keyBytes = .ok index ∧
      List.Forall₂ (fun witness tuple => index.reread witness = .ok (recordOf spec tuple))
        witnesses tuples ∧
      ∀ statistics, IndexStats.analyze spec.recordFields.length spec.keyColumns (.ofNat spool.rows)
          (IndexStats.streamOf (tuples.map (rowOf spec)) witnesses) = .ok statistics →
        index.read = .ok (tuples.map (recordOf spec), published spool.rows statistics) := by
  obtain ⟨keys, hkeys⟩ := hexact.packs
  obtain ⟨first, hfirst, hsorted, hheld⟩ := workerRuns_ok hexact h.ranges.rows hkeys
    (show 0 < max (keyBytes / RadixKey.bytes K) 1 by omega) Nat.one_pos
  have hmakes : makeRuns K spool codec (max (keyBytes / RadixKey.bytes K) 1) 0 1 = .ok first := by
    rw [← hfirst, workerRuns, if_pos rfl]
  obtain ⟨runs, hruns, hfew, hsorted, hleft⟩ := mergeGenerations_ok first hsorted
  obtain ⟨tuples', htuples', hpacked, hordered⟩ :=
    lastMerge hexact hkeys hsorted (hleft.trans hheld)
  rw [h.fields] at hordered
  -- the order leaves no choice
  obtain rfl : tuples' = tuples := by
    refine (htuples'.trans hperm.symm).eq_of_pairwise (fun a b ha hb hab hba => ?_) hordered
      (hstrict.imp fun {a b} hlt => (intsOf_lt_iff.mpr hlt).le)
    have hmem : a ∈ tuples := (htuples'.trans hperm.symm).mem_iff.mp ha
    have hnodup : (tuples.map (intsOf spec.sortedFields)).Nodup :=
      List.pairwise_map.mpr (hstrict.imp fun {x y} hlt => (intsOf_lt_iff.mpr hlt).ne)
    exact List.inj_on_of_nodup_map hnodup hmem hb (le_antisymm hab hba)
  have hunpack := List.forall₂_map_left_iff.mp (unpack_tuples hexact hpacked)
  have hcount : (merged runs).length = spool.rows := by
    rw [hunpack.length_eq, List.length_map, hperm.length_eq, h.ranges.rows]
  have hflatten : runs.flatten.length = spool.rows := by
    rw [← (merged_perm hsorted).length_eq, List.length_map, hcount]
  have hfile := h.file
  let index : DirectIntegerIndex K :=
    { paths := runs, codec, specification := spec, rows := spool.rows }
  have hfields : ∀ field ∈ index.specification.recordFields, field < 4 := h.field_lt
  have hreread := DirectIntegerIndex.reread_witnesses hfields h.length_le hsorted hfew hbytes
    (by show runs.flatten.length * 32 < _; omega) hunpack
  refine ⟨index, _, ?_, (List.forall₂_map_right_iff.mp hreread).imp fun witness tuple hread => ?_,
    fun statistics hanalyze => ?_⟩
  · rw [prepareDirectKeys, if_neg (by omega), if_neg (by rw [h.ranges.rows]; exact not_not.mpr rfl),
      hmakes]
    show (mergeGenerations first >>= _) = _
    rw [hruns]
    rfl
  · rw [hread]
    exact congrArg Except.ok (h.recordOf_restrict tuple)
  · obtain ⟨started, hstarted, hanalyze⟩ := Results.bind_eq_ok_iff.mp hanalyze
    obtain ⟨pushed, hpushed, hfinish⟩ := Results.bind_eq_ok_iff.mp hanalyze
    rw [IndexStats.streamOf, ← h.map_rowOf, ← columnsFrom_none] at hpushed
    have htake := @takeAll_ok _ _ _ _ _ h.field_lt h.length_le hfew _ _ hunpack
      { positions := fun _ => 0, previous := none, statistics := started } pushed
    obtain ⟨next, hnext, htakes⟩ := htake (h.differ hstrict) hpushed fun run => by
      show (0 + (merged runs).length) * 16 < _
      omega
    rw [DirectIntegerIndex.read, if_neg (by show ¬ 16 < runs.length; exact Nat.not_lt.mpr hfew)]
    simp only [index, hstarted, bind, Except.bind, readDirect_eq]
    rw [show Cursors.drain EntryLe (Cursors.start EntryLe fun run : Fin runs.length => runs.get run)
      = merged runs from rfl, htakes]
    simp only [hnext, hfinish, h.map_recordOf]
    rfl

/-- Both ways of writing the index of a spool: the encoded stream, of runs of `keyBytes` made by so
many workers and planned for a page size, and the raw runs, of `directBytes`. -/
def Agree (K : Type) [SortKey K] (spool : IntegerSpool) (codec : Codec) (spec : IntegerIndexSpec)
    (keyBytes workers : Nat) (pageSize : Option Nat) (directBytes : Nat) : Prop :=
  ∃ (tuples : List Tuple) (built : BuiltIndexStatistics),
    tuples.Perm spool.tuples ∧ tuples.Pairwise (TupleLt spec.sortedFields) ∧
    (∃ index : SortedIntegerIndex,
      sortKeys K spool codec spec keyBytes workers pageSize =
        (planned pageSize (tuples.map fun tuple => (recordOf spec tuple).length)).map
          (fun plannedPages => { index with plannedPages }) ∧
      Witnessed spec tuples (rereadEncoded index.stream) index.statistics ∧
      ∀ plannedPages, { index with plannedPages }.write = .ok (tuples.map (recordOf spec), built)) ∧
    ∃ (index : DirectIntegerIndex K) (statistics : FullIndexStatistics),
      prepareDirectKeys K spool codec spec directBytes = .ok index ∧
      index.read = .ok (tuples.map (recordOf spec), statistics) ∧
      Witnessed spec tuples index.reread statistics ∧
      index.write = .ok (tuples.map (recordOf spec), built)

/-- Distinct keys of one type. -/
theorem agree_of_keyExact (h : Sortable spool spec codec) (hexact : KeyExact K codec spool.tuples)
    (hbytes : RadixKey.bytes K ≤ 32)
    (hdistinct : (spool.tuples.map (valuesOf spec.sortedFields)).Nodup) (keyBytes : Nat)
    {workers : Nat} (hworkers : 0 < workers) (pageSize : Option Nat) (directBytes : Nat) :
    Agree K spool codec spec keyBytes workers pageSize directBytes := by
  obtain ⟨tuples, analyzed, hperm, hstrict, hanalyze, hsort⟩ :=
    sortKeys_distinct h hexact hdistinct keyBytes hworkers pageSize
  obtain ⟨direct, witnesses, hdirect, hreread, hread⟩ :=
    prepareDirectKeys_read h hexact hbytes hperm hstrict directBytes
  have hrows : tuples.length = spool.rows := by rw [hperm.length_eq, h.ranges.rows]
  have hcount : (UInt64.ofNat spool.rows).toNat = (tuples.map (rowOf spec)).length := by
    rw [h.toNat_rows, List.length_map, hperm.length_eq]
  have hbounded : tuples.length < 2 ^ 64 := by
    have hfile := h.file
    omega
  obtain ⟨numbered, hnumbers, hall⟩ :=
    IndexStats.analyze_samples h.columns.1 h.columns.2 (h.rows_sorted hstrict) hcount
  rw [List.length_map] at hnumbers hall
  have hbuild : ∀ {reread : UInt64 → Except Failure Bytes} {witnesses : List UInt64},
      List.Forall₂ (fun witness tuple => reread witness = .ok (recordOf spec tuple)) witnesses
        tuples →
      buildStatistics reread
        (published spool.rows (numbered.mapWitness (IndexStats.pick witnesses)))
        = .ok (builtOf (published spool.rows numbered) (tuples.map (recordOf spec))) := by
    intro reread witnesses hreread
    rw [published_mapWitness]
    refine buildStatistics_eq (List.forall₂_map_right_iff.mpr hreread)
      (hreread.length_eq ▸ hbounded) ?_
    rw [published_samples, hreread.length_eq]
    exact hnumbers
  have hrecords : ∀ record ∈ tuples.map (recordOf spec), 0 < record.length ∧
      record.length ≤ 255 := by
    intro record hrecord
    obtain ⟨tuple, -, rfl⟩ := List.mem_map.mp hrecord
    obtain ⟨hpos, hle⟩ := length_recordOf h.length_le tuple
    omega
  have hoffsets := rereadEncoded_offsets [] hrecords (h.stream_perm hperm)
  rw [List.nil_append, List.length_nil, List.forall₂_map_right_iff] at hoffsets
  -- the statistics are the numbered ones, with the witnesses of either side
  cases hanalyze.symm.trans (hall _ hoffsets.length_eq)
  have hanalyzed := hall witnesses hreread.length_eq
  let encoded : SortedIntegerIndex :=
    { stream := framesOf (tuples.map (recordOf spec))
      statistics := published spool.rows (numbered.mapWitness (IndexStats.pick
        ((offsetsFrom 0 (tuples.map (recordOf spec))).map UInt64.ofNat)))
      plannedPages := none }
  have hencoded : Witnessed spec tuples (rereadEncoded encoded.stream) encoded.statistics :=
    ⟨_, _, hoffsets, hrows.symm ▸ hanalyze, hrows.symm ▸ rfl⟩
  have hdirected : Witnessed spec tuples direct.reread
      (published spool.rows (numbered.mapWitness (IndexStats.pick witnesses))) :=
    ⟨_, _, hreread, hrows.symm ▸ hanalyzed, hrows.symm ▸ rfl⟩
  refine ⟨tuples, builtOf (published spool.rows numbered) (tuples.map (recordOf spec)), hperm,
    hstrict, ⟨encoded, hsort, hencoded, fun plannedPages => ?_⟩, direct, _, hdirect,
    hread _ hanalyzed, hdirected, ?_⟩
  · simp only [SortedIntegerIndex.write, encoded, readEncoded_framesOf hrecords, bind, Except.bind,
      hbuild hoffsets]
  · simp only [DirectIntegerIndex.write, hread _ hanalyzed, bind, Except.bind, hbuild hreread]

end

/-- A key takes at most 32 bytes. -/
theorem withKeyType_bytes {bits : Nat} {q : (K : Type) → [SortKey K] → Prop}
    (h : withKeyType bits q) :
    withKeyType bits fun K _ => q K ∧ RadixKey.bytes K ≤ 32 := by
  unfold withKeyType at h ⊢
  split <;> [skip; split <;> [skip; split]]
  all_goals
    simp_all only [if_true, if_false, true_and]
    decide

/-- Whatever is pushed to a new spool and whatever specification has a codec: where no two complete
keys are equal, the encoded and the direct path give the page writer the same records, with the same
statistics and samples, for any run capacities, any number of workers and any page size. On both
sides a witness leads back to the record that it was pushed with. -/
theorem direct_agrees {fields : Nat} {empty spool : IntegerSpool} {rows : List (List Int64)}
    {spec : IntegerIndexSpec} {codec : Codec} (hcreate : IntegerSpool.create fields = .ok empty)
    (hpush : empty.pushAll rows = .ok spool) (hcodec : Codec.new spool spec = .ok codec)
    (hfile : rows.length * 32 < 2 ^ 64)
    (hstream : (framesOf ((rows.map padded).map (recordOf spec))).length < 2 ^ 64)
    (hdistinct : ((rows.map padded).map (valuesOf spec.sortedFields)).Nodup) {workers : Nat}
    (hworkers : 0 < workers) (keyBytes directBytes : Nat) (pageSize : Option Nat) :
    withKeyType codec.bits fun K _ =>
      Agree K spool codec spec keyBytes workers pageSize directBytes := by
  have hempty := IntegerSpool.create_eq hcreate
  obtain ⟨htuples, -⟩ := IntegerSpool.pushAll_tuples hpush
  have hspool := (IntegerSpool.create_ranges hcreate).pushAll hpush
  rw [hempty.2, List.nil_append] at htuples
  obtain ⟨widths, h⟩ := Codec.new_describes hcodec
  have hsortable : Sortable spool spec codec :=
    { ranges := hspool, valid := h.valid, fields := h.fields
      file := by rwa [hspool.rows, htuples, List.length_map]
      stream := by rwa [htuples] }
  rw [← htuples] at hdistinct
  refine withKeyType_of (p := id) (withKeyType_bytes (h.withKeyType hspool))
    fun K _ _ hkeys => ?_
  exact agree_of_keyExact hsortable hkeys.1 hkeys.2 hdistinct keyBytes hworkers pageSize directBytes

/-- Three tuples of a signed and a constant field: an encoded stream planned for a page size and
sorted by two workers, and raw runs of one key. -/
theorem direct_agrees_small :
    ∃ spool codec, Codec.new spool ⟨[0, 1], [0, 1], 2⟩ = .ok codec ∧
      spool.tuples = [padded [3, 1], padded [-5, 1], padded [0, 1]] ∧
      withKeyType codec.bits fun K _ =>
        Agree K spool codec ⟨[0, 1], [0, 1], 2⟩ 32 2 (some 4096) 1 := by
  have hle := length_framesOf_le
    (show (IntegerIndexSpec.mk [0, 1] [0, 1] 2).recordFields.length ≤ 8 by decide)
    [padded [3, 1], padded [-5, 1], padded [0, 1]]
  obtain ⟨spool, hspool, htuples, hfields⟩ : ∃ spool,
      (IntegerSpool.create 2 >>= fun empty => empty.pushAll [[3, 1], [-5, 1], [0, 1]]) = .ok spool ∧
      spool.tuples = [padded [3, 1], padded [-5, 1], padded [0, 1]] ∧ spool.fields = 2 :=
    ⟨_, rfl, rfl, rfl⟩
  obtain ⟨empty, hcreate, hpush⟩ := Results.bind_eq_ok_iff.mp hspool
  have hspec : IntegerIndexSpec.Valid ⟨[0, 1], [0, 1], 2⟩ spool.fields := by
    rw [hfields]
    decide
  obtain ⟨codec, hcodec⟩ := Codec.new_ok ((IntegerSpool.create_ranges hcreate).pushAll hpush) hspec
  have hagree := direct_agrees hcreate hpush hcodec (by decide) (Nat.lt_of_le_of_lt hle (by decide))
    (by decide) (show 0 < 2 by decide) 32 1 (some 4096)
  exact ⟨spool, codec, hcodec, htuples, hagree⟩

end Velr.Sort
