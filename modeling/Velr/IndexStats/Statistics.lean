import Mathlib.Data.List.Forall2
import Velr.Common.Results
import Velr.IndexStats.Exact

/-!
# The result of an analysis

`statistics_exact`: for every sorted list of rows the text is that of the rows per distinct prefix,
and each sample has the true numbers of one row, the rows in increasing order and every periodic row
among them.
-/

namespace Velr.IndexStats

open PrefixGroups IndexStatistics

/-! ## What the statistics of rows are -/

section

variable {α : Type} [LinearOrder α] (rows : List (List α))

/-- The rows of each distinct prefix of the columns up to `c`, rounded up; SQLite writes 1 for 2
where few prefixes occur twice. -/
def rowsPerPrefix (c : Nat) : Nat :=
  let distinct := (prefixes rows c).card
  let average := (rows.length + distinct - 1) / distinct
  if average = 2 ∧ 10 * rows.length ≤ 11 * distinct then 1 else average

/-- The text for `sqlite_stat1`. -/
def stat1Text (keyColumns : Nat) : String :=
  String.join (toString rows.length ::
    (List.range keyColumns).map fun c => " " ++ toString (rowsPerPrefix rows c))

/-- A sample has the numbers of row `i` among all rows. -/
structure Describes (witnesses : List UInt64) (columns i : Nat) (s : IndexSample) : Prop where
  row : i < rows.length
  witness : witnesses[i]? = some s.witness
  equal : s.equal = (List.range columns).map fun c => (equalRows rows c i).card
  less : s.less = (List.range columns).map fun c => (lessRows rows c i).card
  distinctLess : s.distinctLess = (List.range columns).map fun c => (lessPrefixes rows c i).card

/-- The rows as the sampler takes them. -/
def streamOf (witnesses : List UInt64) : List (Nat × UInt64) :=
  ((List.range rows.length).map (changedAt rows)).zip witnesses

end

/-- The average is rounded up. -/
theorem average_eq {rows distinct : Nat} (h : 0 < distinct) :
    rows / distinct + (if rows % distinct ≠ 0 then 1 else 0) =
      (rows + distinct - 1) / distinct := by
  have hdiv := Nat.div_add_mod rows distinct
  have hmod := Nat.mod_lt rows h
  generalize rows / distinct = quotient at hdiv
  generalize rows % distinct = remainder at hdiv hmod
  subst hdiv
  split
  · rw [show distinct * quotient + remainder + distinct - 1 =
      (remainder - 1) + distinct * (quotient + 1) by rw [Nat.mul_succ]; omega,
      Nat.add_mul_div_left _ _ h, Nat.div_eq_of_lt (by omega), Nat.zero_add]
  · rw [show distinct * quotient + remainder + distinct - 1 =
      (distinct - 1) + distinct * quotient by omega, Nat.add_mul_div_left _ _ h,
      Nat.div_eq_of_lt (by omega), Nat.zero_add, Nat.add_zero]

variable {q : Stream}

/-! ## The end of the stream -/

/-- Behind the last row every sample is exact. -/
theorem finish_settled {k : Nat} {st : IndexStatistics} (h : Pushed q k st) (hk : k + 1 = q.rows) :
    ∃ st', st.pushPrevious 0 = .ok st' ∧ Settled q k 0 q.rows st' := by
  have hwidth := q.width
  obtain ⟨st', hprevious, hsettled, -⟩ := pushPrevious_kept (by omega) (by omega) hwidth.1
    (.inl hk) h.kept h.best h.current
  exact ⟨st', hprevious, by rwa [← hk]⟩

/-- The periodic rows are among the samples. -/
theorem Settled.periodic_mem {k changed m i : Nat} {st : IndexStatistics}
    (h : Settled q k changed m st) (hi : i < m) (hzero : (i + 1) % interval q.rows = 0) :
    i ∈ st.samples.map q.rowOf := by
  have hmem : i ∈ q.periodicRows m :=
    List.mem_filter.mpr ⟨List.mem_range.mpr hi, by simpa using hzero⟩
  rw [← h.kept.periodic] at hmem
  obtain ⟨s, hs, rfl⟩ := List.mem_map.mp hmem
  exact List.mem_map.mpr ⟨s, (List.mem_filter.mp hs).1, rfl⟩

/-! ## The start of an analysis -/

/-- An analysis before its first row. -/
structure Started (width keyWidth total : Nat) (st : IndexStatistics) : Prop where
  columns : st.columns = width
  keyColumns : st.keyColumns = keyWidth
  expectedRows : st.expectedRows = total
  rows : st.rows = 0
  samples : st.samples = []
  current : st.current = .default
  every : st.periodicInterval = interval total
  next : st.nextPeriodicRow = interval total

/-- A new sampler has seen no row. -/
theorem new_started {columns keyColumns : Nat} (hcolumns : 0 < columns ∧ columns ≤ maxColumns)
    (hkey : 0 < keyColumns ∧ keyColumns ≤ columns) (n : UInt64) :
    ∃ st, IndexStatistics.new columns keyColumns n = .ok st ∧
      Started columns keyColumns n.toNat st :=
  ⟨_, if_neg (by omega), rfl, rfl, rfl, rfl, rfl, rfl, rfl, rfl⟩

/-- The first row begins every group. -/
theorem Started.push_first {columns keyColumns rows : Nat} {st : IndexStatistics}
    (h : Started columns keyColumns rows st) {q : Stream} (hcolumns : q.columns = columns)
    (hkey : q.keyColumns = keyColumns) (hrows : q.rows = rows) (hpos : 0 < q.rows) :
    ∃ st', st.push (q.changed 0) (q.witness 0) = .ok st' ∧ Pushed q 0 st' :=
  IndexStats.push_first (h.columns.trans hcolumns.symm) (h.expectedRows.trans hrows.symm) h.rows
    h.samples h.current
    ⟨by rw [h.every, hrows], .inl (by rw [h.next, hrows, Nat.zero_div, Nat.zero_add, Nat.one_mul])⟩
    (h.keyColumns.trans hkey.symm) hpos

/-- Rows may be pushed in two parts. -/
theorem pushAll_append (st : IndexStatistics) (front back : List (Nat × UInt64)) :
    st.pushAll (front ++ back) = (st.pushAll front >>= fun st => st.pushAll back) := by
  induction front generalizing st with
  | nil => rfl
  | cons row front ih =>
      rw [List.cons_append, pushAll, pushAll]
      cases st.push row.1 row.2 with
      | error e => rfl
      | ok st => exact ih st

/-- An analysis takes any rows within the columns, up to the expected number. -/
theorem Started.pushAll_ok {columns keyColumns rows : Nat} {st : IndexStatistics}
    (h : Started columns keyColumns rows st) (hcolumns : 0 < columns ∧ columns ≤ maxColumns)
    (hbounded : rows < 2 ^ 64) {stream : List (Nat × UInt64)} (hlength : stream.length ≤ rows)
    (hfirst : ∀ row ∈ stream.head?, row.1 = 0) (hinside : ∀ row ∈ stream, row.1 < columns) :
    ∃ st', st.pushAll stream = .ok st' := by
  rcases Nat.eq_zero_or_pos rows with hzero | hpos
  · obtain rfl : stream = [] := List.eq_nil_of_length_eq_zero (by omega)
    exact ⟨st, rfl⟩
  · -- the rows that are missing change the first column
    let q : Stream :=
      { rows, columns, keyColumns
        changed := fun i => (stream.getD i (0, 0)).1
        witness := fun i => (stream.getD i (0, 0)).2
        bounded := hbounded
        width := hcolumns
        first := by
          cases stream with
          | nil => rfl
          | cons row stream => exact hfirst row rfl
        inside := fun i _ => by
          rcases Nat.lt_or_ge i stream.length with hi | hi
          · rw [List.getD_eq_getElem _ _ hi]
            exact hinside _ (List.getElem_mem hi)
          · rw [List.getD_eq_default _ _ hi]
            exact hcolumns.1 }
    obtain ⟨first, hpush, hpushed⟩ := h.push_first (q := q) rfl rfl rfl hpos
    obtain ⟨last, hall, -⟩ := pushAll_pushed hpushed hpos
    have hfrom : q.from 0 = stream ++ q.from stream.length := by
      have hrange : List.range' 0 (rows - 0)
          = List.range' 0 stream.length ++ List.range' stream.length (rows - stream.length) := by
        have happend : List.range' 0 stream.length
            ++ List.range' (0 + stream.length) (rows - stream.length) = _ := List.range'_append_1
        rw [Nat.zero_add, Nat.add_sub_cancel' hlength] at happend
        exact happend.symm
      rw [Stream.from, Stream.from]
      show (List.range' 0 (rows - 0)).map _ = _ ++ (List.range' stream.length (rows - _)).map _
      rw [hrange, List.map_append]
      congr 1
      refine List.ext_getElem (by simp) fun i hi hi' => ?_
      simp only [List.getElem_map, List.getElem_range', Nat.zero_add, Nat.one_mul]
      show ((stream.getD i (0, 0)).1, (stream.getD i (0, 0)).2) = _
      rw [List.getD_eq_getElem _ _ hi']
    have hwhole : st.pushAll (stream ++ q.from stream.length) = .ok last := by
      rw [← hfrom, Stream.from_eq_cons hpos, pushAll, hpush]
      exact hall
    rw [pushAll_append] at hwhole
    obtain ⟨st', hst', -⟩ := Results.bind_eq_ok_iff.mp hwhole
    exact ⟨st', hst'⟩

section

variable {α : Type} [LinearOrder α] {columns keyColumns : Nat} {rows : List (List α)}
  {witnesses : List UInt64}

/-- The stream of sorted rows. -/
def rowStream (keyColumns : Nat) (hcolumns : 0 < columns ∧ columns ≤ maxColumns)
    (hrows : Sorted columns rows)
    (hbounded : rows.length < 2 ^ 64) (witnesses : List UInt64) : Stream where
  rows := rows.length
  columns
  keyColumns
  changed := changedAt rows
  witness := fun i => witnesses.getD i 0
  bounded := hbounded
  width := hcolumns
  first := rfl
  inside := fun _ hi => hrows.changedAt_lt hcolumns.1 hi

variable {hcolumns : 0 < columns ∧ columns ≤ maxColumns} {hrows : Sorted columns rows}
  {hbounded : rows.length < 2 ^ 64}

/-- The stream of sorted rows has their changes and witnesses. -/
theorem streamOf_eq (keyColumns : Nat) (hcolumns : 0 < columns ∧ columns ≤ maxColumns)
    (hrows : Sorted columns rows) (hbounded : rows.length < 2 ^ 64)
    (hlength : witnesses.length = rows.length) :
    streamOf rows witnesses = (rowStream keyColumns hcolumns hrows hbounded witnesses).from 0 := by
  apply List.ext_getElem
  · simp [streamOf, Stream.from, rowStream, hlength]
  · intro i hi hi'
    have hw : i < witnesses.length := by
      simp only [streamOf, List.length_zip, List.length_map, List.length_range] at hi
      omega
    simp [streamOf, Stream.from, rowStream, List.getElem_zip, List.getElem?_eq_getElem hw]

/-- An exact sample describes its row. -/
theorem describes {k m : Nat} {st : IndexStatistics} (hlength : witnesses.length = rows.length)
    (h : Settled (rowStream keyColumns hcolumns hrows hbounded witnesses) k 0 m st) {s : Sample}
    (hs : s ∈ st.samples) :
    Describes rows witnesses columns
    ((rowStream keyColumns hcolumns hrows hbounded witnesses).rowOf s)
      (st.exported s) := by
  have hentry := h.kept.entries s hs
  have hi : (rowStream keyColumns hcolumns hrows hbounded witnesses).rowOf s < rows.length :=
    hentry.snapshot.row
  have hcols : st.columns = columns := h.kept.columns
  refine ⟨hi, ?_, ?_, ?_, ?_⟩
  · rw [show (st.exported s).witness = _ from hentry.snapshot.witness]
    rw [List.getElem?_eq_getElem (by omega)]
    exact congrArg some (List.getD_eq_getElem _ _ (by omega)).symm
  · rw [exported, hcols]
    refine List.map_congr_left fun c hc => ?_
    rw [h.final s hs c (Nat.zero_le c) (List.mem_range.mp hc), equalRows_eq hrows hi]
    rfl
  · rw [exported, hcols]
    refine List.map_congr_left fun c hc => ?_
    rw [hentry.snapshot.less c (List.mem_range.mp hc), lessRows_eq hrows hi, Finset.card_range]
    rfl
  · rw [exported, hcols]
    refine List.map_congr_left fun c hc => ?_
    rw [hentry.snapshot.distinctLess c (List.mem_range.mp hc), card_lessPrefixes hrows hi]
    rfl

/-- The text of the last row's counts. -/
theorem averages_eq {k : Nat} {st : IndexStatistics} (hk : k + 1 = rows.length)
    (hkey : keyColumns ≤ columns)
    (h : Pushed (rowStream keyColumns hcolumns hrows hbounded witnesses) k st) :
    ((List.range st.keyColumns).map fun c =>
        average st.rows (st.current.distinctLess c + 1)) =
      (List.range keyColumns).map (rowsPerPrefix rows) := by
  rw [h.keyColumns]
  refine List.map_congr_left fun c hc => ?_
  have hcard := card_prefixes (c := c) hrows hk
  rw [h.rows, h.current.snapshot.distinctLess c
    (Nat.lt_of_lt_of_le (List.mem_range.mp hc) hkey)]
  change average (k + 1) (rank (changedAt rows) c k + 1) = _
  rw [← hcard, hk, average, rowsPerPrefix]
  rw [average_eq (by omega), Nat.mul_comm rows.length, Nat.mul_comm (prefixes rows c).card 11]

/-- What an analysis returns for some rows. -/
theorem analyze_rows (hcolumns : 0 < columns ∧ columns ≤ maxColumns)
    (hrows : Sorted columns rows) (hbounded : rows.length < 2 ^ 64)
    (hkey : 0 < keyColumns ∧ keyColumns ≤ columns)
    (hlength : witnesses.length = rows.length) {n : UInt64} (hn : n.toNat = rows.length) :
    ∃ (st : IndexStatistics) (k : Nat),
      Settled (rowStream keyColumns hcolumns hrows hbounded witnesses) k 0 rows.length st ∧
      analyze columns keyColumns n (streamOf rows witnesses) =
        .ok { stat1 := stat1Text rows keyColumns, samples := st.samples.map st.exported } := by
  obtain ⟨st₀, hnew, hstart⟩ := new_started hcolumns hkey n
  unfold analyze
  rw [hnew, streamOf_eq keyColumns hcolumns hrows hbounded hlength]
  simp only [bind, Except.bind]
  rcases Nat.eq_zero_or_pos rows.length with hzero | hpos
  · refine ⟨st₀, 0,
      ⟨by rw [hzero]; exact .of_empty hstart.columns hstart.samples, fun s hs => ?_⟩, ?_⟩
    · rw [hstart.samples] at hs
      cases hs
    · have hfrom : (rowStream keyColumns hcolumns hrows hbounded witnesses).from 0 = [] := by
        rw [Stream.from]
        change (List.range' 0 (rows.length - 0)).map _ = []
        rw [hzero]
        rfl
      rw [hfrom]
      simp only [pushAll, finish, hstart.rows, hstart.expectedRows, hn, hzero, hstart.keyColumns,
        hstart.current]
      simp [stat1Text, hzero, rowsPerPrefix, prefixes, average, Sample.default, bind,
        Except.bind]
  · obtain ⟨st₁, hpush, hpushed⟩ := hstart.push_first
      (q := rowStream keyColumns hcolumns hrows hbounded witnesses) rfl rfl hn.symm hpos
    obtain ⟨st₂, hall, hlast⟩ := pushAll_pushed hpushed hpos
    obtain ⟨st₃, hprevious, hsettled⟩ := finish_settled hlast (Nat.sub_add_cancel hpos)
    refine ⟨st₃, _, hsettled, ?_⟩
    have haverages := averages_eq (Nat.sub_add_cancel hpos) hkey.2 hlast
    rw [Stream.from_eq_cons hpos]
    simp only [pushAll, hpush, bind, Except.bind]
    rw [hall]
    have hfinal : st₂.rows = rows.length := hlast.rows.trans (Nat.sub_add_cancel hpos)
    simp only [finish]
    rw [if_neg (by rw [hfinal]; exact fun h => h hlast.expectedRows.symm), haverages]
    rw [if_pos (by rw [hfinal]; omega), hprevious, hfinal]
    simp [bind, Except.bind, stat1Text, Function.comp_def]

/-- For every sorted list of rows with distinct witnesses: the text is that of the rows per distinct
prefix; at most 24 samples have the true numbers of rows in increasing order, with distinct
witnesses and no count left at zero; and every periodic row is among them. -/
theorem statistics_exact (hcolumns : 0 < columns ∧ columns ≤ maxColumns)
    (hkey : 0 < keyColumns ∧ keyColumns ≤ columns) (hrows : Sorted columns rows)
    (hlength : witnesses.length = rows.length) (hdistinct : witnesses.Nodup) {n : UInt64}
    (hn : n.toNat = rows.length) :
    ∃ (stats : FullIndexStatistics) (indices : List Nat),
      analyze columns keyColumns n (streamOf rows witnesses) = .ok stats ∧
      stats.stat1 = stat1Text rows keyColumns ∧
      stats.samples.length ≤ sampleCount ∧
      indices.Pairwise (· < ·) ∧
      List.Forall₂ (Describes rows witnesses columns) indices stats.samples ∧
      (stats.samples.map IndexSample.witness).Nodup ∧
      (∀ s ∈ stats.samples, 0 ∉ s.equal) ∧
      ∀ i < rows.length, (i + 1) % interval rows.length = 0 → i ∈ indices := by
  have hbounded : rows.length < 2 ^ 64 := hn ▸ n.toNat_lt
  obtain ⟨st, k, hsettled, hanalyze⟩ := analyze_rows hcolumns hrows hbounded hkey hlength hn
  have hdescribes {s : Sample} (hs : s ∈ st.samples) := describes hlength hsettled hs
  refine ⟨_, st.samples.map (rowStream keyColumns hcolumns hrows hbounded witnesses).rowOf,
    hanalyze,
    rfl, ?_, List.pairwise_map.mpr hsettled.kept.sorted, ?_, ?_, ?_, ?_⟩
  · exact (List.length_map _).trans_le hsettled.kept.length
  · rw [List.forall₂_map_left_iff, List.forall₂_map_right_iff]
    exact List.forall₂_same.mpr fun s hs => hdescribes hs
  · rw [List.map_map]
    refine List.pairwise_map.mpr (hsettled.kept.sorted.imp_of_mem fun {s t} hs ht hlt heq => ?_)
    have hws := (hdescribes hs).witness
    have hwt := (hdescribes ht).witness
    have heq' : (st.exported s).witness = (st.exported t).witness := heq
    rw [heq', ← hwt] at hws
    obtain ⟨hi, -⟩ := List.getElem?_eq_some_iff.mp hwt
    exact absurd ((List.getElem?_inj (Nat.lt_trans hlt hi) hdistinct).mp hws) (Nat.ne_of_lt hlt)
  · intro s hs hzero
    obtain ⟨old, hold, rfl⟩ := List.mem_map.mp hs
    rw [(hdescribes hold).equal] at hzero
    obtain ⟨c, -, hc⟩ := List.mem_map.mp hzero
    rw [equalRows_eq hrows (hdescribes hold).row] at hc
    exact absurd hc (card_group_pos (hdescribes hold).row).ne'
  · intro i hi hzero
    exact hsettled.periodic_mem hi hzero

/-- Three rows of two columns, of which two share the first. -/
theorem statistics_exact_small :
    ∃ (stats : FullIndexStatistics) (indices : List Nat),
      analyze 2 1 3 (streamOf [[1, 1], [1, 2], [2, 1]] [10, 20, 30]) = .ok stats ∧
      List.Forall₂ (Describes [[1, 1], [1, 2], [2, 1]] [10, 20, 30] 2) indices stats.samples := by
  have hrows : Sorted 2 [[1, 1], [1, 2], [2, 1]] :=
    ⟨by decide, by decide⟩
  obtain ⟨stats, indices, hanalyze, -, -, -, hdescribes, -⟩ :=
    @statistics_exact Nat _ 2 1 [[1, 1], [1, 2], [2, 1]] [10, 20, 30] (by decide) (by decide) hrows
      rfl (by decide) 3 rfl
  exact ⟨stats, indices, hanalyze, hdescribes⟩

end

end Velr.IndexStats
