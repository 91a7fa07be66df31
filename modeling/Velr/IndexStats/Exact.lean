import Velr.IndexStats.Samples

/-!
# The statistics are exact

When a prefix ends, the best row of it is offered as a sample (`promote_kept`) and the counts that
waited for its end are filled in (`pushPrevious_kept`). `Pushed` is what holds after every row, and
`statistics_exact` what follows at the end of the stream: the numbers of a sample are those of its
row among all rows.
-/

namespace Velr.IndexStats

open PrefixGroups IndexStatistics

variable {q : Stream} {k c m : Nat}

/-- The latest row has the counts of its prefixes so far. -/
structure Current (q : Stream) (k : Nat) (s : Sample) : Prop where
  snapshot : Snapshot q s k
  periodic : s.periodic = false
  equal : ∀ c < q.columns, s.equal c = k + 1 - start q.changed c k

/-- The best row of the latest prefix of the columns up to `c`: it is the latest row, or the last of
its prefix of one column more. -/
structure Best (q : Stream) (k c : Nat) (s : Sample) : Prop where
  column : s.column = c
  periodic : s.periodic = false
  snapshot : Snapshot q s (q.rowOf s)
  le : q.rowOf s ≤ k
  same : start q.changed c (q.rowOf s) = start q.changed c k
  equal : ∀ d, c < d → d < q.columns →
    s.equal d = q.rowOf s + 1 - start q.changed d (q.rowOf s)
  last : q.rowOf s = k ∨ q.changed (q.rowOf s + 1) ≤ c + 1

/-- The counts of the best row are final for the columns behind `c` once the prefix ends. -/
theorem Best.size_eq {s : Sample} (h : Best q k c s) (hk : k < q.rows)
    (hclosed : k + 1 = q.rows ∨ q.changed (k + 1) ≤ c) {d : Nat} (hcd : c < d)
    (hd : d < q.columns) : s.equal d = q.size d (q.rowOf s) := by
  rw [h.equal d hcd hd]
  obtain hrow | hnext := h.last
  · rw [hrow, Stream.size_eq hk (hclosed.imp_right (by omega)) rfl]
  · rw [Stream.size_eq h.snapshot.row (.inr (by omega)) rfl]

/-! ## The end of a prefix -/

/-- Only the samples, and the best rows of the columns from `changed` on, change. -/
structure SameBest (changed : Nat) (st st' : IndexStatistics) : Prop where
  same : SameRows { st with best := st'.best } st'
  best : ∀ c < changed, st'.best c = st.best c

theorem SameBest.refl (changed : Nat) (st : IndexStatistics) : SameBest changed st st :=
  ⟨⟨rfl, rfl, rfl, rfl, rfl, rfl, rfl, rfl⟩, fun _ _ => rfl⟩

/-- What keeps the best samples twice keeps them. -/
theorem SameBest.trans {changed : Nat} {st st' st'' : IndexStatistics}
    (h : SameBest changed st st') (h' : SameBest changed st' st'') : SameBest changed st st'' where
  same :=
    { columns := h'.same.columns.trans h.same.columns
      keyColumns := h'.same.keyColumns.trans h.same.keyColumns
      expectedRows := h'.same.expectedRows.trans h.same.expectedRows
      rows := h'.same.rows.trans h.same.rows
      periodicInterval := h'.same.periodicInterval.trans h.same.periodicInterval
      nextPeriodicRow := h'.same.nextPeriodicRow.trans h.same.nextPeriodicRow
      current := h'.same.current.trans h.same.current
      best := rfl }
  best := fun c hc => (h'.best c hc).trans (h.best c hc)

/-- Promoting the best sample of a group that has ended keeps the samples. -/
theorem promote_kept {st : IndexStatistics} (h : Kept q k (c + 1) m st) (hm : m ≤ q.rows)
    (hk : k < q.rows) (hc : c + 1 < q.columns)
    (hclosed : k + 1 = q.rows ∨ q.changed (k + 1) ≤ c) (hbest : Best q k c (st.best c))
    (hcurrent : Current q k st.current) :
    ∃ st', st.promote c = .ok st' ∧ Kept q k c m st' ∧ SameBest c st st' := by
  have hrow : q.rowOf (st.ended c) = q.rowOf (st.best c) := rfl
  have hequal (d : Nat) (hcd : c ≤ d) (hd : d < q.columns) :
      (st.ended c).equal d = q.size d (q.rowOf (st.ended c)) := by
    rw [hrow]
    rcases Nat.eq_or_lt_of_le hcd with rfl | hlt
    · simp only [ended, Function.update_self]
      rw [hcurrent.equal c hd, Stream.size_eq hk hclosed hbest.same]
    · simp only [ended, Function.update_of_ne (Nat.ne_of_gt hlt)]
      exact hbest.size_eq hk hclosed hlt hd
  have hsnapshot : Snapshot q (st.ended c) (q.rowOf (st.ended c)) :=
    ⟨hbest.snapshot.row, hbest.snapshot.less, hbest.snapshot.distinctLess, hbest.snapshot.witness⟩
  have hupdated : Kept q k (c + 1) m
      { st with best := Function.update st.best c (st.ended c) } :=
    ⟨h.columns, h.entries, h.sorted, h.length, h.zero, h.minimum, h.periodic⟩
  obtain ⟨st', hoffer, hkept, hrows⟩ := offer_kept (st.ended c) hupdated hm hc
    hbest.column hbest.periodic hsnapshot hbest.le hbest.same hequal
  refine ⟨st', hoffer, hkept, ⟨hrows.columns, hrows.keyColumns, hrows.expectedRows, hrows.rows,
    hrows.periodicInterval, hrows.nextPeriodicRow, hrows.current, rfl⟩, fun d hd => ?_⟩
  rw [hrows.best]
  exact Function.update_of_ne (Nat.ne_of_lt hd) ..

/-- So does promoting those of several columns. -/
theorem promoteColumns_kept {changed : Nat} (hm : m ≤ q.rows) (hk : k < q.rows)
    (hclosed : k + 1 = q.rows ∨ q.changed (k + 1) ≤ changed) {bound : Nat}
    (hbound : bound + 1 ≤ q.columns) {st : IndexStatistics} (h : Kept q k bound m st)
    (hbest : ∀ c < bound, Best q k c (st.best c)) (hcurrent : Current q k st.current) :
    ∃ st', promoteColumns changed bound st = .ok st' ∧ Kept q k (min changed bound) m st' ∧
      SameBest changed st st' := by
  induction bound generalizing st with
  | zero => exact ⟨st, rfl, by rwa [Nat.min_zero], .refl changed st⟩
  | succ c ih =>
      unfold promoteColumns
      split
      · next hle =>
          obtain ⟨st₁, hpromote, hkept, hsame⟩ := promote_kept h hm hk (by omega)
            (hclosed.imp_right fun hch => hch.trans hle) (hbest c (Nat.lt_succ_self c)) hcurrent
          obtain ⟨st₂, hrest, hkept₂, hsame₂⟩ := ih (by omega) hkept
            (fun d hd => by
              rw [hsame.best d hd]
              exact hbest d (by omega))
            (by rw [hsame.same.current]; exact hcurrent)
          have hfirst : SameBest changed st st₁ :=
            ⟨hsame.same, fun d hd => hsame.best d (by omega)⟩
          exact ⟨st₂, by rw [hpromote]; exact hrest, by
            rwa [Nat.min_eq_left (by omega : changed ≤ c + 1), ← Nat.min_eq_left hle],
            hfirst.trans hsame₂⟩
      · next hlt =>
          exact ⟨st, rfl, by rwa [Nat.min_eq_right (by omega)], .refl changed st⟩

/-- The counts of the prefixes that have ended are final. -/
structure Settled (q : Stream) (k changed m : Nat) (st : IndexStatistics) : Prop where
  kept : Kept q k changed m st
  final : ∀ s ∈ st.samples, ∀ c, changed ≤ c → c < q.columns → s.equal c = q.size c (q.rowOf s)

/-- A sample with the counts of the prefixes that have ended. -/
theorem complete_entry {st : IndexStatistics} {changed : Nat} {s : Sample} (hk : k < q.rows)
    (hclosed : k + 1 = q.rows ∨ q.changed (k + 1) ≤ changed) (hcolumns : st.columns = q.columns)
    (hcurrent : Current q k st.current) (h : Entry q k changed s (q.rowOf s)) :
    Entry q k changed (st.complete changed s) (q.rowOf s) ∧
      ∀ c, changed ≤ c → c < q.columns →
        (st.complete changed s).equal c = q.size c (q.rowOf s) := by
  have hfinal (c : Nat) (hle : changed ≤ c) (hc : c < q.columns) :
      (st.complete changed s).equal c = q.size c (q.rowOf s) := by
    simp only [complete, hcolumns]
    split
    · next hzero =>
        rcases h.valid c hc with heq | ⟨-, -, hsame⟩
        · have := Stream.size_pos (c := c) h.snapshot.row
          omega
        · rw [hcurrent.equal c hc, Stream.size_eq hk (hclosed.imp_right (by omega)) hsame]
    · next hzero =>
        rcases h.valid c hc with heq | ⟨hz, -, -⟩
        · exact heq
        · exact absurd ⟨hle, hc, hz⟩ hzero
  have hbelow (c : Nat) (hlt : c < changed) : (st.complete changed s).equal c = s.equal c :=
    if_neg fun hcond => absurd hcond.1 (Nat.not_le.mpr hlt)
  refine ⟨⟨⟨h.snapshot.row, h.snapshot.less, h.snapshot.distinctLess, h.snapshot.witness⟩, h.le,
    fun c hc => ?_, fun c hc hlt hsame => ?_⟩, hfinal⟩
  · rcases Nat.lt_or_ge c changed with hlt | hge
    · rw [hbelow c hlt]
      exact h.valid c hc
    · exact .inl (hfinal c hge hc)
  · rw [hbelow c hlt]
    exact h.pending c hc hlt hsame

/-- The prefixes of the columns from `changed` on end with row `k`. -/
theorem pushPrevious_kept {changed : Nat} {st : IndexStatistics} (hm : m ≤ q.rows)
    (hk : k < q.rows) (hchanged : changed < q.columns)
    (hclosed : k + 1 = q.rows ∨ q.changed (k + 1) ≤ changed)
    (h : Kept q k (q.columns - 1) m st)
    (hbest : ∀ c < q.columns - 1, Best q k c (st.best c)) (hcurrent : Current q k st.current) :
    ∃ st', st.pushPrevious changed = .ok st' ∧ Settled q k changed m st' ∧
      SameBest changed st st' := by
  obtain ⟨st₁, hpromote, hkept, hsame⟩ := promoteColumns_kept hm hk hclosed (by omega) h hbest
    hcurrent
  rw [Nat.min_eq_left (by omega)] at hkept
  have hcurrent₁ : Current q k st₁.current := by
    rw [hsame.same.current]
    exact hcurrent
  have hentries (s : Sample) (hs : s ∈ st₁.samples) :=
    complete_entry hk hclosed hkept.columns hcurrent₁ (hkept.entries s hs)
  unfold pushPrevious
  rw [h.columns, hpromote]
  simp only [bind, Except.bind]
  split
  · refine ⟨_, rfl, ⟨⟨hkept.columns, ?_, ?_, ?_, ?_, ?_, ?_⟩, ?_⟩,
      ⟨⟨hsame.same.columns, hsame.same.keyColumns, hsame.same.expectedRows, hsame.same.rows,
        hsame.same.periodicInterval, hsame.same.nextPeriodicRow, hsame.same.current, rfl⟩,
        hsame.best⟩⟩
    · intro s hs
      obtain ⟨old, hold, rfl⟩ := List.mem_map.mp hs
      exact (hentries old hold).1
    · exact List.pairwise_map.mpr hkept.sorted
    · exact (List.length_map _).trans_le hkept.length
    · intro s hs c hc hz
      obtain ⟨old, hold, rfl⟩ := List.mem_map.mp hs
      by_contra hge
      rw [(hentries old hold).2 c (Nat.le_of_not_lt hge) hc] at hz
      have := Stream.size_pos (c := c) (hentries old hold).1.snapshot.row
      omega
    · intro hfull
      rw [List.length_map] at hfull
      obtain ⟨s, hs, hp⟩ := hkept.minimum hfull
      exact ⟨st₁.complete changed s, by simp only [List.getElem?_map, hs, Option.map_some], hp⟩
    · rw [List.filter_map, List.map_map]
      exact hkept.periodic
    · intro s hs
      obtain ⟨old, hold, rfl⟩ := List.mem_map.mp hs
      exact (hentries old hold).2
  · next hmaximum =>
      refine ⟨st₁, rfl, ⟨hkept, fun s hs c hle hc => ?_⟩, hsame⟩
      rcases (hkept.entries s hs).valid c hc with heq | ⟨hz, -, -⟩
      · exact heq
      · have := hkept.zero s hs c hc hz
        omega

/-! ## A new row -/

/-- When the next periodic sample is due behind `m` rows. A position that is no `u64` disables
it. -/
structure Due (q : Stream) (m : Nat) (st : IndexStatistics) : Prop where
  every : st.periodicInterval = interval q.rows
  next : st.nextPeriodicRow = (m / interval q.rows + 1) * interval q.rows ∨
    st.nextPeriodicRow = 0 ∧ 2 ^ 64 ≤ (m / interval q.rows + 1) * interval q.rows

/-- The samples of the rows before `k`, and row `k` as the current one. -/
structure Entered (q : Stream) (k : Nat) (st : IndexStatistics) : Prop where
  kept : Kept q k (q.columns - 1) k st
  before : ∀ s ∈ st.samples, q.rowOf s < k
  current : Current q k st.current
  best : ∀ c < q.columns - 1, c < q.changed k → 0 < k ∧ Best q (k - 1) c (st.best c)
  rows : st.rows = k + 1
  due : Due q k st
  expectedRows : st.expectedRows = q.rows
  keyColumns : st.keyColumns = q.keyColumns

/-- What holds behind row `k`. -/
structure Pushed (q : Stream) (k : Nat) (st : IndexStatistics) : Prop where
  kept : Kept q k (q.columns - 1) (k + 1) st
  current : Current q k st.current
  best : ∀ c < q.columns - 1, Best q k c (st.best c)
  rows : st.rows = k + 1
  due : Due q (k + 1) st
  expectedRows : st.expectedRows = q.rows
  keyColumns : st.keyColumns = q.keyColumns

theorem interval_pos (n : Nat) : 0 < interval n := Nat.succ_pos _

/-- The check of the scheduled row is the test of the quotient. -/
theorem Due.iff {st : IndexStatistics} (h : Due q k st) (hk : k < q.rows) :
    k + 1 = st.nextPeriodicRow ↔ (k + 1) % interval q.rows = 0 := by
  have hpos := interval_pos q.rows
  have hbounded := q.bounded
  have hsucc : (k + 1) / interval q.rows =
      k / interval q.rows + if interval q.rows ∣ k + 1 then 1 else 0 := Nat.succ_div
  have hdiv := Nat.div_add_mod k (interval q.rows)
  have hmod := Nat.mod_lt k hpos
  have hmul : (k / interval q.rows + 1) * interval q.rows =
      interval q.rows * (k / interval q.rows) + interval q.rows := by
    rw [Nat.add_mul, Nat.one_mul, Nat.mul_comm]
  constructor
  · intro heq
    obtain hnext | ⟨hnext, -⟩ := h.next
    · rw [heq, hnext]
      exact Nat.mul_mod_left _ _
    · omega
  · intro hzero
    rw [if_pos (Nat.dvd_of_mod_eq_zero hzero)] at hsucc
    have hk1 := Nat.div_add_mod (k + 1) (interval q.rows)
    rw [hzero, hsucc, Nat.mul_comm, Nat.add_zero] at hk1
    obtain hnext | ⟨hnext, hlarge⟩ := h.next
    · rw [hnext, hk1]
    · omega

/-- A row that is not periodic leaves what is due. -/
theorem Due.step {st : IndexStatistics} (h : Due q k st)
    (hnot : (k + 1) % interval q.rows ≠ 0) : Due q (k + 1) st := by
  have hdiv : (k + 1) / interval q.rows = k / interval q.rows := by
    rw [Nat.succ_div, if_neg fun hd => hnot (Nat.mod_eq_zero_of_dvd hd), Nat.add_zero]
  exact ⟨h.every, by rw [hdiv]; exact h.next⟩

/-- The periodic sample of row `k`, where it is due. -/
theorem takePeriodic_kept {st : IndexStatistics} (h : Entered q k st) (hk : k < q.rows) :
    ∃ st', st.takePeriodic = .ok st' ∧ Kept q k (q.columns - 1) (k + 1) st' ∧
      Due q (k + 1) st' ∧ st'.best = st.best ∧ st'.rows = st.rows ∧
      st'.expectedRows = st.expectedRows ∧ st'.keyColumns = st.keyColumns ∧
      Current q k st'.current ∧ st'.columns = q.columns := by
  have hwidth := q.width
  unfold takePeriodic
  split
  · next hdue =>
      rw [h.rows] at hdue
      have hzero := (h.due.iff hk).mp hdue
      have hnext : st.nextPeriodicRow = (k / interval q.rows + 1) * interval q.rows := by
        obtain hnext | ⟨hnext, -⟩ := h.due.next
        · exact hnext
        · omega
      have hdiv : (k + 1) / interval q.rows = k / interval q.rows + 1 := by
        rw [Nat.succ_div, if_pos (Nat.dvd_of_mod_eq_zero hzero)]
      generalize hnew : ({ st.current with column := 0, periodic := true } : Sample) = new
      have hsnapshot : Snapshot q new k := by
        rw [← hnew]
        exact ⟨h.current.snapshot.row, h.current.snapshot.less, h.current.snapshot.distinctLess,
          h.current.snapshot.witness⟩
      have hrow : q.rowOf new = k := hsnapshot.rowOf
      have hequal (c : Nat) (hc : c < q.columns) : new.equal c = k + 1 - start q.changed c k := by
        rw [← hnew]
        exact h.current.equal c hc
      have hlast : new.equal (q.columns - 1) = q.size (q.columns - 1) k := by
        rw [hequal _ (by omega), Stream.size_last hk, Stream.start_last hk]
        omega
      have hentry : Entry q k (q.columns - 1) (zeroed new (q.columns - 1)) (q.rowOf new) := by
        rw [hrow]
        refine ⟨⟨hsnapshot.row, hsnapshot.less, hsnapshot.distinctLess, hsnapshot.witness⟩,
          Nat.le_refl k, fun c hc => ?_, fun c hc hlt _ => if_pos hlt⟩
        by_cases hlt : c < q.columns - 1
        · exact .inr ⟨if_pos hlt, by omega, rfl⟩
        · have hc' : c = q.columns - 1 := by omega
          rw [hc']
          exact .inl ((if_neg (Nat.lt_irrefl _)).trans hlast)
      have hraised : Kept q k (q.columns - 1) k
          { st with
            nextPeriodicRow := if st.nextPeriodicRow + st.periodicInterval < 2 ^ 64 then
              st.nextPeriodicRow + st.periodicInterval else 0
            current := { st.current with column := 0 }
            maximumEqualZero := max st.maximumEqualZero (q.columns - 1) } :=
        ⟨h.kept.columns, h.kept.entries, h.kept.sorted, h.kept.length,
          fun s hs c hc hz => lt_of_lt_of_le (h.kept.zero s hs c hc hz) (le_max_left _ _),
          h.kept.minimum, h.kept.periodic⟩
      obtain ⟨st', hplace, hkept, hrows⟩ := place_kept new (q.columns - 1) hraised (Nat.le_refl _)
        hk (by rw [hrow]; exact h.before) hentry (le_max_right _ _)
        (fun c hc hle => by
          rw [show c = q.columns - 1 by omega, hlast]
          exact (Stream.size_pos hk).ne')
        (by rw [Stream.periodicRows_succ, if_pos hzero, hrow, ← hnew]; rfl)
      refine ⟨st', ?_, hkept, ⟨hrows.periodicInterval.trans h.due.every, ?_⟩, hrows.best,
        hrows.rows, hrows.expectedRows, hrows.keyColumns, ?_, hkept.columns⟩
      · unfold IndexStatistics.insert
        rw [if_pos rfl]
        rw [← hnew, ← h.kept.columns] at hplace
        exact hplace
      · have hnext' := hrows.nextPeriodicRow
        simp only at hnext'
        have hmul : st.nextPeriodicRow + st.periodicInterval =
            ((k + 1) / interval q.rows + 1) * interval q.rows := by
          rw [hnext, h.due.every, hdiv, Nat.add_mul (k / interval q.rows + 1) 1, Nat.one_mul]
        rw [hmul] at hnext'
        split at hnext'
        · exact .inl hnext'
        · exact .inr ⟨hnext', by omega⟩
      · rw [hrows.current]
        exact ⟨⟨hk, h.current.snapshot.less, h.current.snapshot.distinctLess,
          h.current.snapshot.witness⟩, h.current.periodic, h.current.equal⟩
  · next hdue =>
      rw [h.rows] at hdue
      have hnot : (k + 1) % interval q.rows ≠ 0 := fun hzero => hdue ((h.due.iff hk).mpr hzero)
      refine ⟨st, rfl, ⟨h.kept.columns, h.kept.entries, h.kept.sorted, h.kept.length, h.kept.zero,
        h.kept.minimum, ?_⟩, h.due.step hnot, rfl, rfl, rfl, rfl, h.current, h.kept.columns⟩
      rw [h.kept.periodic, Stream.periodicRows_succ, if_neg hnot, List.append_nil]

/-- A row that shares one column more beats the best row. -/
theorem betterAfter_of_lt {st : IndexStatistics} {new old : Sample} (hcolumn : new.column = c)
    (hc : c + 1 < st.columns) (h : old.equal (c + 1) < new.equal (c + 1)) :
    st.betterAfter new old = true := by
  unfold betterAfter
  rw [hcolumn]
  obtain ⟨count, hcount⟩ : ∃ count, st.columns - (c + 1) = count + 1 :=
    ⟨st.columns - (c + 1) - 1, by omega⟩
  rw [hcount, List.range'_succ]
  simp only
  rw [List.find?_cons_of_pos (by simpa using h.ne')]
  simpa using h

/-- The best rows behind row `k`. -/
theorem improve_best {st : IndexStatistics} (hcolumns : st.columns = q.columns)
    (hcurrent : Current q k st.current)
    (hbest : ∀ c < q.columns - 1, c < q.changed k → 0 < k ∧ Best q (k - 1) c (st.best c)) :
    ∀ c < q.columns - 1, Best q k c ((st.improve (q.changed k)).best c) := by
  intro c hc
  have hnew : Best q k c { st.current with column := c } := by
    have hrow : q.rowOf { st.current with column := c } = k := hcurrent.snapshot.rowOf
    refine ⟨rfl, hcurrent.periodic, ?_, hrow.le, by rw [hrow], fun d _ hd => ?_, .inl hrow⟩
    · rw [hrow]
      exact ⟨hcurrent.snapshot.row, hcurrent.snapshot.less, hcurrent.snapshot.distinctLess,
        hcurrent.snapshot.witness⟩
    · rw [hrow]
      exact hcurrent.equal d hd
  simp only [improve, hcolumns]
  split
  · exact hnew
  · next hkeep =>
      have hlt : c < q.changed k := by
        by_contra hge
        exact hkeep ⟨hc, .inl (Nat.le_of_not_lt hge)⟩
      obtain ⟨hpos, hold⟩ := hbest c hc hlt
      obtain ⟨j, rfl⟩ : ∃ j, k = j + 1 := ⟨k - 1, by omega⟩
      rw [Nat.add_sub_cancel] at hold
      refine ⟨hold.column, hold.periodic, hold.snapshot, Nat.le_succ_of_le hold.le,
        hold.same.trans (start_of_unchanged hlt).symm, hold.equal, .inr ?_⟩
      obtain hrow | hnext := hold.last
      · -- were the new row in the group of one column more, it would be better
        by_contra hshared
        rw [hrow, Nat.not_le] at hshared
        refine hkeep ⟨hc, .inr (betterAfter_of_lt (c := c) rfl (by omega) ?_)⟩
        have hstart := start_le q.changed (c + 1) j
        change (st.best c).equal (c + 1) < st.current.equal (c + 1)
        rw [hold.equal (c + 1) (by omega) (by omega), hcurrent.equal (c + 1) (by omega), hrow,
          start_of_unchanged hshared]
        omega
      · exact hnext

/-- A row that has been entered is pushed. -/
theorem entered_pushed {st : IndexStatistics} (h : Entered q k st) (hk : k < q.rows) :
    ∃ st', (st.takePeriodic >>= fun st => .ok (st.improve (q.changed k))) = .ok st' ∧
      Pushed q k st' := by
  obtain ⟨st₁, htake, hkept, hdue, hbest, hrows, hexpected, hkey, hcurrent, hcolumns⟩ :=
    takePeriodic_kept h hk
  refine ⟨st₁.improve (q.changed k), by rw [htake]; rfl, ⟨hkept.columns, hkept.entries,
    hkept.sorted, hkept.length, hkept.zero, hkept.minimum, hkept.periodic⟩,
    ⟨hcurrent.snapshot, hcurrent.periodic, hcurrent.equal⟩, ?_, hrows.trans h.rows,
    ⟨hdue.every, hdue.next⟩, hexpected.trans h.expectedRows, hkey.trans h.keyColumns⟩
  exact improve_best hcolumns hcurrent (by rw [hbest]; exact h.best)

/-- The counts of the next row. -/
theorem advance_current {st : IndexStatistics} (hcolumns : st.columns = q.columns)
    (h : Current q k st.current) (hk : k + 1 < q.rows) (hash : UInt32) :
    Current q (k + 1)
      { st.advance (q.changed (k + 1)) with witness := q.witness (k + 1), hash } := by
  refine ⟨⟨hk, fun c hc => ?_, fun c hc => ?_, rfl⟩, h.periodic, fun c hc => ?_⟩
  · have hle := start_le q.changed c k
    simp only [advance, hcolumns]
    split
    · next hch =>
        rw [h.snapshot.less c hc, h.equal c hc, start_of_changed hch.1]
        omega
    · next hch => rw [h.snapshot.less c hc, start_of_unchanged (by omega)]
  · simp only [advance, hcolumns]
    split
    · next hch => rw [h.snapshot.distinctLess c hc, rank, if_pos hch.1]
    · next hch => rw [h.snapshot.distinctLess c hc, rank, if_neg (by omega)]
  · have hle := start_le q.changed c k
    simp only [advance, hcolumns, if_pos hc]
    split
    · next hlt =>
        rw [h.equal c hc, start_of_unchanged hlt]
        omega
    · next hge =>
        rw [start_of_changed (by omega)]
        omega

/-- The samples while the next row is the latest. -/
theorem Settled.next {st : IndexStatistics} {changed : Nat} (h : Settled q k changed m st)
    (hchanged : q.changed (k + 1) = changed) :
    Kept q (k + 1) (q.columns - 1) m st := by
  refine ⟨h.kept.columns, fun s hs => ?_, h.kept.sorted, h.kept.length, h.kept.zero,
    h.kept.minimum, h.kept.periodic⟩
  have hentry := h.kept.entries s hs
  refine ⟨hentry.snapshot, Nat.le_succ_of_le hentry.le, fun c hc => ?_, fun c hc _ hsame => ?_⟩
  · rcases Nat.lt_or_ge c changed with hlt | hge
    · rw [start_of_unchanged (by omega)]
      exact hentry.valid c hc
    · exact .inl (h.final s hs c hge hc)
  · rcases Nat.lt_or_ge c changed with hlt | hge
    · rw [start_of_unchanged (by omega)] at hsame
      exact hentry.pending c hc hlt hsame
    · rw [start_of_changed (by omega)] at hsame
      have := start_le q.changed c (q.rowOf s)
      have := hentry.le
      omega

/-- Every further row is pushed. -/
theorem push_pushed {st : IndexStatistics} (h : Pushed q k st) (hk : k + 1 < q.rows) :
    ∃ st', st.push (q.changed (k + 1)) (q.witness (k + 1)) = .ok st' ∧ Pushed q (k + 1) st' := by
  have hinside := q.inside (k + 1) hk
  obtain ⟨st₁, hprevious, hsettled, hsame⟩ := pushPrevious_kept (Nat.le_of_lt hk) (by omega) hinside
    (.inr (Nat.le_refl _)) h.kept h.best h.current
  have hcurrent₁ : Current q k st₁.current := by
    rw [hsame.same.current]
    exact h.current
  have hkept := hsettled.next rfl
  have hentered : Entered q (k + 1)
      (st₁.setCurrent (st₁.advance (q.changed (k + 1))) (q.witness (k + 1))) := by
    refine ⟨⟨hkept.columns, hkept.entries, hkept.sorted, hkept.length, hkept.zero, hkept.minimum,
      hkept.periodic⟩, fun s hs => ?_, ?_, fun c hc hlt => ⟨Nat.succ_pos k, ?_⟩, ?_, ?_, ?_,
      hsame.same.keyColumns.trans h.keyColumns⟩
    · exact Nat.lt_succ_of_le (hsettled.kept.entries s hs).le
    · exact advance_current hsettled.kept.columns hcurrent₁ hk _
    · change Best q (k + 1 - 1) c (st₁.best c)
      rw [hsame.best c hlt]
      exact h.best c hc
    · exact congrArg (· + 1) (hsame.same.rows.trans h.rows)
    · exact ⟨hsame.same.periodicInterval.trans h.due.every, by
        rw [show (st₁.setCurrent _ _).nextPeriodicRow = st.nextPeriodicRow from
          hsame.same.nextPeriodicRow]
        exact h.due.next⟩
    · exact hsame.same.expectedRows.trans h.expectedRows
  obtain ⟨st', hst', hpushed⟩ := entered_pushed hentered hk
  refine ⟨st', ?_, hpushed⟩
  unfold push
  rw [if_neg (by rw [h.kept.columns, h.expectedRows, h.rows]; omega),
    if_neg (by rw [h.rows]; omega)]
  rw [hprevious]
  exact hst'

/-- The first row is pushed. -/
theorem push_first {st : IndexStatistics} (hcolumns : st.columns = q.columns)
    (hexpected : st.expectedRows = q.rows) (hrows : st.rows = 0) (hsamples : st.samples = [])
    (hcurrent : st.current = .default) (hdue : Due q 0 st) (hkey : st.keyColumns = q.keyColumns)
    (hpos : 0 < q.rows) :
    ∃ st', st.push (q.changed 0) (q.witness 0) = .ok st' ∧ Pushed q 0 st' := by
  have hwidth := q.width
  generalize hst : st.setCurrent { st.current with
    equal := fun column => if column < st.columns then 1 else st.current.equal column }
    (q.witness 0) = st₁
  have hentered : Entered q 0 st₁ := by
    rw [← hst]
    refine ⟨.of_empty hcolumns hsamples, ?_, ⟨⟨hpos, fun c _ => ?_, fun c _ => ?_, rfl⟩, ?_,
      fun c hc => ?_⟩, ?_, congrArg (· + 1) hrows, ⟨hdue.every, hdue.next⟩, hexpected, hkey⟩
    · intro s hs
      rw [IndexStatistics.setCurrent, hsamples] at hs
      cases hs
    · rw [IndexStatistics.setCurrent, hcurrent]
      rfl
    · rw [IndexStatistics.setCurrent, hcurrent]
      rfl
    · rw [IndexStatistics.setCurrent, hcurrent]
      rfl
    · simp only [IndexStatistics.setCurrent, hcolumns, if_pos hc]
      rfl
    · intro c _ hlt
      rw [q.first] at hlt
      omega
  obtain ⟨st', hst', hpushed⟩ := entered_pushed hentered hpos
  refine ⟨st', ?_, hpushed⟩
  unfold push
  rw [if_neg (by rw [hcolumns, hexpected, hrows, q.first]; omega), if_pos hrows,
    if_neg (by simp [q.first]), hst]
  exact hst'

/-! ## The whole stream -/

/-- The rows from `k` on. -/
def Stream.from (q : Stream) (k : Nat) : List (Nat × UInt64) :=
  (List.range' k (q.rows - k)).map fun i => (q.changed i, q.witness i)

/-- The rows from `k` on begin with `k`. -/
theorem Stream.from_eq_cons (hk : k < q.rows) :
    q.from k = (q.changed k, q.witness k) :: q.from (k + 1) := by
  obtain ⟨count, hcount⟩ : ∃ count, q.rows - k = count + 1 := ⟨q.rows - k - 1, by omega⟩
  rw [Stream.from, Stream.from, hcount, List.range'_succ, List.map_cons,
    show q.rows - (k + 1) = count by omega]

/-- All rows behind `k` are pushed. -/
theorem pushAll_pushed {st : IndexStatistics} (h : Pushed q k st) (hk : k < q.rows) :
    ∃ st', st.pushAll (q.from (k + 1)) = .ok st' ∧ Pushed q (q.rows - 1) st' := by
  obtain ⟨count, hcount⟩ : ∃ count, q.rows = k + 1 + count := ⟨q.rows - (k + 1), by omega⟩
  induction count generalizing k st with
  | zero =>
      refine ⟨st, ?_, by rwa [show q.rows - 1 = k by omega]⟩
      rw [Stream.from, show q.rows - (k + 1) = 0 by omega]
      rfl
  | succ count ih =>
      obtain ⟨st₁, hpush, hpushed⟩ := push_pushed h (by omega)
      obtain ⟨st', hrest, hlast⟩ := ih hpushed (by omega) (by omega)
      refine ⟨st', ?_, hlast⟩
      rw [Stream.from_eq_cons (by omega)]
      simp only [pushAll, hpush]
      exact hrest

end Velr.IndexStats
