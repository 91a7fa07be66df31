import Velr.Common.Groups
import Velr.IndexStats.Sampler

/-!
# What the samples know

Row `k` is the latest row of the stream, and the prefixes up to the columns from `bound` on have
ended with it. A sample of row `i` has its exact counts, except that the number of equal rows may be
zero for a column whose prefix row `i` shares with row `k` (`Entry`). `Kept` says this of all
samples, together with their order and with which of them are periodic; `insert_kept` is that the
insertion of a sample keeps it.
-/

namespace Velr.IndexStats

open PrefixGroups IndexStatistics

/-- A sorted stream: its number of rows and of columns, the columns of the index key, where each row
changes, and its witnesses. -/
structure Stream where
  rows : Nat
  columns : Nat
  keyColumns : Nat
  changed : Nat → Nat
  witness : Nat → UInt64
  bounded : rows < 2 ^ 64
  width : 0 < columns ∧ columns ≤ maxColumns
  first : changed 0 = 0
  inside : ∀ i < rows, changed i < columns

namespace Stream

variable (q : Stream)

/-- The number of rows that share the columns up to `c` with row `i`. -/
def size (c i : Nat) : Nat := (group q.changed q.rows c i).card

/-- The rows among the first `m` that become periodic samples. -/
def periodicRows (m : Nat) : List Nat :=
  (List.range m).filter fun i => (i + 1) % interval q.rows = 0

end Stream

variable {q : Stream} {k bound c i : Nat}

/-- Every row is the only one of its prefix of all columns. -/
theorem Stream.start_last (hi : i < q.rows) : start q.changed (q.columns - 1) i = i := by
  cases i with
  | zero => rfl
  | succ i => exact start_of_changed (by have := q.inside (i + 1) hi; omega)

/-- A group has a row at least. -/
theorem Stream.size_pos (hi : i < q.rows) : 0 < q.size c i := card_group_pos hi

/-- The prefix of row `i` has ended with row `k`. -/
theorem Stream.size_eq (hk : k < q.rows) (hclosed : k + 1 = q.rows ∨ q.changed (k + 1) ≤ c)
    (h : start q.changed c i = start q.changed c k) :
    q.size c i = k + 1 - start q.changed c k := card_group hk hclosed h

/-- With all columns every row is a group of its own. -/
theorem Stream.size_last (hi : i < q.rows) : q.size (q.columns - 1) i = 1 := by
  have hclosed : i + 1 = q.rows ∨ q.changed (i + 1) ≤ q.columns - 1 := by
    rcases Nat.lt_or_ge (i + 1) q.rows with hlt | hge
    · have := q.inside (i + 1) hlt
      omega
    · omega
  rw [Stream.size_eq hi hclosed rfl, Stream.start_last hi]
  omega

/-- A row at the end of an interval is periodic. -/
theorem Stream.periodicRows_succ (m : Nat) :
    q.periodicRows (m + 1) =
      q.periodicRows m ++ if (m + 1) % interval q.rows = 0 then [m] else [] := by
  rw [periodicRows, List.range_succ, List.filter_append, periodicRows]
  congr 1
  rw [List.filter_singleton]
  split <;> simp_all

/-- A stream has at most eight periodic samples. -/
theorem Stream.length_periodicRows {m : Nat} (hm : m ≤ q.rows) : (q.periodicRows m).length ≤ 8 := by
  have hlength : (q.periodicRows m).length = m / interval q.rows := by
    clear hm
    induction m with
    | zero => simp [periodicRows]
    | succ m ih =>
        rw [periodicRows_succ, List.length_append, ih, Nat.succ_div]
        congr 1
        split
        · next h => rw [if_pos (Nat.dvd_of_mod_eq_zero h)]; rfl
        · next h => rw [if_neg fun hd => h (Nat.mod_eq_zero_of_dvd hd)]; rfl
  rw [hlength, interval, sampleCount, Nat.div_le_iff_le_mul_add_pred (by omega)]
  omega

/-! ## Samples -/

/-- The row of a sample: the number of rows before it. -/
def Stream.rowOf (q : Stream) (s : Sample) : Nat := s.less (q.columns - 1)

/-- A sample has the counts of row `i` that are known when the row is pushed. -/
structure Snapshot (q : Stream) (s : Sample) (i : Nat) : Prop where
  row : i < q.rows
  less : ∀ c < q.columns, s.less c = start q.changed c i
  distinctLess : ∀ c < q.columns, s.distinctLess c = rank q.changed c i
  witness : s.witness = q.witness i

/-- A snapshot is of its row. -/
theorem Snapshot.rowOf {s : Sample} (h : Snapshot q s i) : q.rowOf s = i := by
  have hwidth := q.width
  rw [Stream.rowOf, h.less _ (by omega), Stream.start_last h.row]

/-- The counts of a sample of row `i` while row `k` is the latest. -/
structure Entry (q : Stream) (k bound : Nat) (s : Sample) (i : Nat) : Prop where
  snapshot : Snapshot q s i
  le : i ≤ k
  valid : ∀ c < q.columns, s.equal c = q.size c i ∨
    s.equal c = 0 ∧ c + 1 < q.columns ∧ start q.changed c i = start q.changed c k
  pending : ∀ c, c + 1 < q.columns → c < bound → start q.changed c i = start q.changed c k →
    s.equal c = 0

/-- What holds of the samples. The periodic ones among them are of all rows that are due among the
first `m`. -/
structure Kept (q : Stream) (k bound m : Nat) (st : IndexStatistics) : Prop where
  columns : st.columns = q.columns
  entries : ∀ s ∈ st.samples, Entry q k bound s (q.rowOf s)
  sorted : st.samples.Pairwise fun s t => q.rowOf s < q.rowOf t
  length : st.samples.length ≤ sampleCount
  zero : ∀ s ∈ st.samples, ∀ c < q.columns, s.equal c = 0 → c < st.maximumEqualZero
  minimum : st.samples.length = sampleCount →
    ∃ s, st.samples[st.minimum]? = some s ∧ s.periodic = false
  periodic : (st.samples.filter Sample.periodic).map q.rowOf = q.periodicRows m

/-- A sample under a bound is one under a smaller bound. -/
theorem Entry.weaken {s : Sample} {bound' : Nat} (h : Entry q k bound s i) (hb : bound' ≤ bound) :
    Entry q k bound' s i :=
  ⟨h.snapshot, h.le, h.valid, fun c hc hlt => h.pending c hc (by omega)⟩

/-- At first there are no samples. -/
theorem Kept.of_empty {st : IndexStatistics} (hcolumns : st.columns = q.columns)
    (hsamples : st.samples = []) : Kept q k bound 0 st where
  columns := hcolumns
  entries := fun s hs => by
    rw [hsamples] at hs
    cases hs
  sorted := by
    rw [hsamples]
    exact .nil
  length := by
    rw [hsamples]
    exact Nat.zero_le _
  zero := fun s hs => by
    rw [hsamples] at hs
    cases hs
  minimum := fun hfull => by
    rw [hsamples] at hfull
    cases hfull
  periodic := by
    rw [hsamples]
    rfl

/-! ## The least sample -/

/-- A scan finds a sample that is not periodic. -/
theorem scanMinimum_some (st : IndexStatistics) {samples : List (Sample × Nat)}
    {minimum : Option (Sample × Nat)} {r : Sample × Nat}
    (hminimum : ∀ r ∈ minimum, r.1.periodic = false)
    (h : st.scanMinimum samples minimum = some r) :
    (r ∈ samples ∨ r ∈ minimum) ∧ r.1.periodic = false := by
  induction samples generalizing minimum with
  | nil => exact ⟨.inr h, hminimum r h⟩
  | cons sample samples ih =>
      obtain ⟨sample, index⟩ := sample
      simp only [scanMinimum] at h
      split at h
      · next hbetter =>
          have hp : sample.periodic = false := by
            rw [Bool.and_eq_true] at hbetter
            simpa using hbetter.1
          obtain ⟨hr | hr, hpr⟩ := ih (fun r hr => by rwa [← Option.some.inj hr]) h
          · exact ⟨.inl (List.mem_cons_of_mem _ hr), hpr⟩
          · rw [← Option.some.inj hr]
            exact ⟨.inl (List.mem_cons_self ..), hp⟩
      · obtain ⟨hr | hr, hpr⟩ := ih hminimum h
        · exact ⟨.inl (List.mem_cons_of_mem _ hr), hpr⟩
        · exact ⟨.inr hr, hpr⟩

/-- A scan that finds none has seen only periodic samples. -/
theorem scanMinimum_none (st : IndexStatistics) {samples : List (Sample × Nat)}
    {minimum : Option (Sample × Nat)} (h : st.scanMinimum samples minimum = none) :
    minimum = none ∧ ∀ r ∈ samples, r.1.periodic = true := by
  induction samples generalizing minimum with
  | nil => exact ⟨h, fun r hr => absurd hr List.not_mem_nil⟩
  | cons sample samples ih =>
      obtain ⟨sample, index⟩ := sample
      simp only [scanMinimum] at h
      split at h
      · exact absurd (ih h).1 (Option.some_ne_none _)
      · next hbetter =>
          obtain ⟨rfl, hall⟩ := ih h
          refine ⟨rfl, fun r hr => ?_⟩
          rcases List.mem_cons.mp hr with rfl | hr
          · simpa using hbetter
          · exact hall r hr

/-- `find_minimum` finds a sample that is not periodic, since so few are. -/
theorem findMinimum_ok (st : IndexStatistics)
    (h : (st.samples.filter Sample.periodic).length < sampleCount) :
    ∃ minimum, findMinimum st = .ok { st with minimum } ∧
      (st.samples.length = sampleCount →
        ∃ s, st.samples[minimum]? = some s ∧ s.periodic = false) := by
  unfold findMinimum
  split
  · next hlength => exact ⟨st.minimum, rfl, fun hl => absurd hl hlength⟩
  · next hlength =>
      cases hscan : st.scanMinimum st.samples.zipIdx none with
      | none =>
          have hall := (scanMinimum_none st hscan).2
          have hfilter : st.samples.filter Sample.periodic = st.samples :=
            List.filter_eq_self.mpr fun s hs => by
              obtain ⟨index, hget⟩ := List.mem_iff_getElem?.mp hs
              exact hall (s, index) (List.mk_mem_zipIdx_iff_getElem?.mpr hget)
          rw [hfilter] at h
          omega
      | some r =>
          obtain ⟨hr, hp⟩ := scanMinimum_some st (fun r hr => by cases hr) hscan
          obtain ⟨s, index⟩ := r
          rcases hr with hr | hr
          · exact ⟨index, rfl, fun _ => ⟨s, List.mk_mem_zipIdx_iff_getElem?.mp hr, hp⟩⟩
          · cases hr

/-! ## The sample to upgrade -/

/-- What the search for a sample to upgrade finds. -/
theorem findUpgrade_some (st : IndexStatistics) {column : Nat} {samples : List (Sample × Nat)}
    {upgrade : Option (Sample × Nat)} {r : Sample × Nat}
    (h : st.findUpgrade column samples upgrade = some (some r)) :
    (r ∈ samples ∧ r.1.equal column = 0 ∧ r.1.periodic = false) ∨ r ∈ upgrade := by
  induction samples generalizing upgrade with
  | nil => exact .inr (Option.some.inj h)
  | cons sample samples ih =>
      obtain ⟨old, index⟩ := sample
      simp only [findUpgrade] at h
      have hlater {upgrade : Option (Sample × Nat)}
          (h : st.findUpgrade column samples upgrade = some (some r)) :
          (r ∈ (old, index) :: samples ∧ r.1.equal column = 0 ∧ r.1.periodic = false) ∨
            r ∈ upgrade :=
        (ih h).imp (fun hr => ⟨List.mem_cons_of_mem _ hr.1, hr.2⟩) id
      split at h
      · next hzero =>
          split at h
          · cases h
          · next hp =>
              split at h
              · rcases hlater h with hr | hr
                · exact .inl hr
                · rw [← Option.some.inj hr]
                  exact .inl ⟨List.mem_cons_self .., hzero, by simpa using hp⟩
              · exact hlater h
      · exact hlater h

/-- Where it finds none, no sample shares the prefix. -/
theorem findUpgrade_none (st : IndexStatistics) {column : Nat} {samples : List (Sample × Nat)}
    {upgrade : Option (Sample × Nat)} (h : st.findUpgrade column samples upgrade = some none) :
    upgrade = none ∧ ∀ r ∈ samples, r.1.equal column ≠ 0 := by
  induction samples generalizing upgrade with
  | nil => exact ⟨Option.some.inj h, fun r hr => absurd hr List.not_mem_nil⟩
  | cons sample samples ih =>
      obtain ⟨old, index⟩ := sample
      simp only [findUpgrade] at h
      split at h
      · split at h
        · cases h
        · split at h
          · exact absurd (ih h).1 (Option.some_ne_none _)
          · next hall =>
              obtain ⟨rfl, -⟩ := ih h
              exact absurd rfl hall
      · next hzero =>
          obtain ⟨hupgrade, hall⟩ := ih h
          refine ⟨hupgrade, fun r hr => ?_⟩
          rcases List.mem_cons.mp hr with rfl | hr
          · exact hzero
          · exact hall r hr

/-! ## Insertion -/

/-- Only the samples and what is known of them change. -/
structure SameRows (st st' : IndexStatistics) : Prop where
  columns : st'.columns = st.columns
  keyColumns : st'.keyColumns = st.keyColumns
  expectedRows : st'.expectedRows = st.expectedRows
  rows : st'.rows = st.rows
  periodicInterval : st'.periodicInterval = st.periodicInterval
  nextPeriodicRow : st'.nextPeriodicRow = st.nextPeriodicRow
  current : st'.current = st.current
  best : st'.best = st.best

/-- What keeps the rows twice keeps them. -/
theorem SameRows.trans {st st' st'' : IndexStatistics} (h : SameRows st st')
    (h' : SameRows st' st'') : SameRows st st'' where
  columns := h'.columns.trans h.columns
  keyColumns := h'.keyColumns.trans h.keyColumns
  expectedRows := h'.expectedRows.trans h.expectedRows
  rows := h'.rows.trans h.rows
  periodicInterval := h'.periodicInterval.trans h.periodicInterval
  nextPeriodicRow := h'.nextPeriodicRow.trans h.nextPeriodicRow
  current := h'.current.trans h.current
  best := h'.best.trans h.best

/-- There are fewer periodic samples than there is room for. -/
theorem few_periodic {m : Nat} (hm : m ≤ q.rows) {samples : List Sample}
    (h : (samples.filter Sample.periodic).map q.rowOf = q.periodicRows m) :
    (samples.filter Sample.periodic).length < sampleCount := by
  have hlength := q.length_periodicRows hm
  rw [← h, List.length_map] at hlength
  exact Nat.lt_of_le_of_lt hlength (by decide)

/-- The samples that make room for a new one. -/
theorem makeRoom_ok {m : Nat} {st : IndexStatistics} (h : Kept q k bound m st) :
    ∃ samples, st.makeRoom = .ok samples ∧ samples.Sublist st.samples ∧
      samples.length < sampleCount ∧
      samples.filter Sample.periodic = st.samples.filter Sample.periodic := by
  unfold makeRoom
  split
  · next hfull =>
      obtain ⟨least, hleast, hp⟩ := h.minimum hfull
      obtain ⟨hlt, hget⟩ := List.getElem?_eq_some_iff.mp hleast
      refine ⟨_, if_pos hlt, List.eraseIdx_sublist .., ?_, ?_⟩
      · rw [List.length_eraseIdx_of_lt hlt]
        omega
      · rw [List.eraseIdx_eq_take_drop_succ, List.filter_append]
        conv_rhs => rw [← List.take_append_drop st.minimum st.samples, List.filter_append,
          List.drop_eq_getElem_cons hlt, List.filter_cons, hget, hp]
        rfl
  · next hroom =>
      have := h.length
      exact ⟨st.samples, rfl, List.Sublist.refl _, by omega, rfl⟩

/-- A new sample behind all others. -/
theorem place_kept {m m' bound' : Nat} {st : IndexStatistics} (new : Sample) (equalZero : Nat)
    (h : Kept q k bound m st) (hbound : bound' ≤ bound) (hm : m' ≤ q.rows)
    (hlast : ∀ s ∈ st.samples, q.rowOf s < q.rowOf new)
    (hentry : Entry q k bound' (zeroed new equalZero) (q.rowOf new))
    (hzero : equalZero ≤ st.maximumEqualZero)
    (hequal : ∀ c < q.columns, equalZero ≤ c → new.equal c ≠ 0)
    (hperiodic : q.periodicRows m' =
      q.periodicRows m ++ if new.periodic then [q.rowOf new] else []) :
    ∃ st', st.place new equalZero = .ok st' ∧ Kept q k bound' m' st' ∧ SameRows st st' := by
  obtain ⟨samples, hroom, hsub, hlength, hfilter⟩ := makeRoom_ok h
  have hperiodic' : ((samples ++ [zeroed new equalZero]).filter Sample.periodic).map q.rowOf =
      q.periodicRows m' := by
    rw [List.filter_append, List.map_append, hfilter, h.periodic, hperiodic, List.filter_singleton,
      show (zeroed new equalZero).periodic = new.periodic from rfl]
    cases new.periodic <;> rfl
  obtain ⟨minimum, hminimum, hleast⟩ := findMinimum_ok
    { st with samples := samples ++ [zeroed new equalZero] } (few_periodic hm hperiodic')
  refine ⟨{ st with samples := samples ++ [zeroed new equalZero], minimum }, ?_, ?_,
    ⟨rfl, rfl, rfl, rfl, rfl, rfl, rfl, rfl⟩⟩
  · have hassert : (samples.getLast?.all fun previous =>
        previous.less (st.columns - 1) < new.less (st.columns - 1)) = true := by
      rw [h.columns]
      cases hl : samples.getLast? with
      | none => rfl
      | some previous =>
          have hmem := hsub.subset (List.mem_of_getLast? hl)
          exact decide_eq_true (hlast previous hmem)
    unfold IndexStatistics.place
    simp only [hroom, bind, Except.bind]
    rw [if_pos hassert, hminimum]
  · constructor
    case columns => exact h.columns
    case entries =>
      intro s hs
      rcases List.mem_append.mp hs with hs | hs
      · exact (h.entries s (hsub.subset hs)).weaken hbound
      · rw [List.mem_singleton.mp hs]
        exact hentry
    case sorted =>
      refine List.pairwise_append.mpr ⟨h.sorted.sublist hsub, List.pairwise_singleton _ _, ?_⟩
      intro s hs t ht
      rw [List.mem_singleton.mp ht]
      exact hlast s (hsub.subset hs)
    case length =>
      rw [List.length_append, List.length_singleton]
      omega
    case zero =>
      intro s hs c hc hz
      rcases List.mem_append.mp hs with hs | hs
      · exact h.zero s (hsub.subset hs) c hc hz
      · rw [List.mem_singleton.mp hs] at hz
        by_cases hlt : c < equalZero
        · exact Nat.lt_of_lt_of_le hlt hzero
        · simp only [zeroed, if_neg hlt] at hz
          exact absurd hz (hequal c hc (Nat.le_of_not_lt hlt))
    case minimum => exact hleast
    case periodic => exact hperiodic'

/-- A change of one element that the filter and the map do not see. -/
theorem map_filter_set {α β : Type} {p : α → Bool} {f : α → β} {l : List α} {index : Nat} {a b : α}
    (ha : l[index]? = some a) (hp : p b = p a) (hf : f b = f a) :
    ((l.set index b).filter p).map f = (l.filter p).map f := by
  obtain ⟨hlt, rfl⟩ := List.getElem?_eq_some_iff.mp ha
  rw [List.set_eq_take_append_cons_drop, if_pos hlt]
  conv_rhs => rw [← List.take_append_drop index l, List.drop_eq_getElem_cons hlt]
  rw [List.filter_append, List.filter_append, List.filter_cons, List.filter_cons, hp]
  split <;> simp [hf]

theorem map_set_self {α β : Type} {f : α → β} {l : List α} {index : Nat} {a b : α}
    (ha : l[index]? = some a) (hf : f b = f a) : (l.set index b).map f = l.map f := by
  have := map_filter_set (p := fun _ => true) ha rfl hf
  rwa [List.filter_true, List.filter_true] at this

/-- An upgrade takes the new count of its column. -/
theorem upgrade_equal_self {old new : Sample} (h : new.column = c) :
    (upgrade old new).equal c = new.equal c := by
  rw [upgrade, h]
  exact Function.update_self ..

/-- It keeps the counts of the others. -/
theorem upgrade_equal_of_ne {old new : Sample} {d : Nat} (h : new.column = c) (hd : d ≠ c) :
    (upgrade old new).equal d = old.equal d := by
  rw [upgrade, h]
  exact Function.update_of_ne hd ..

/-- A sample of the prefix of row `k` takes over the column of a new one. -/
theorem upgrade_kept {m : Nat} {st : IndexStatistics} {new old : Sample} {index : Nat}
    (h : Kept q k (c + 1) m st) (hm : m ≤ q.rows) (hc : c + 1 < q.columns)
    (hcolumn : new.column = c) (hold : st.samples[index]? = some old) (hzero : old.equal c = 0)
    (hequal : new.equal c = q.size c k) :
    ∃ st', findMinimum { st with samples := st.samples.set index (upgrade old new) } = .ok st' ∧
      Kept q k c m st' ∧ SameRows st st' := by
  have hmem : old ∈ st.samples := List.mem_of_getElem? hold
  have hentry := h.entries old hmem
  have hrow : q.rowOf (upgrade old new) = q.rowOf old := rfl
  -- the old sample's count is not known, so that its prefix is the one that ends
  have hsize : q.size c (q.rowOf old) = q.size c k := by
    rcases hentry.valid c (by omega) with heq | ⟨-, -, hsame⟩
    · have := Stream.size_pos (c := c) hentry.snapshot.row
      omega
    · rw [Stream.size, group_congr hsame, Stream.size]
  have hperiodic := map_filter_set (p := Sample.periodic) (f := q.rowOf) hold
    (b := upgrade old new) rfl hrow
  rw [h.periodic] at hperiodic
  obtain ⟨minimum, hminimum, hleast⟩ := findMinimum_ok
    { st with samples := st.samples.set index (upgrade old new) } (few_periodic hm hperiodic)
  refine ⟨{ st with samples := st.samples.set index (upgrade old new), minimum }, hminimum, ?_,
    ⟨rfl, rfl, rfl, rfl, rfl, rfl, rfl, rfl⟩⟩
  constructor
  case columns => exact h.columns
  case entries =>
    intro s hs
    rcases List.mem_or_eq_of_mem_set hs with hs | rfl
    · exact (h.entries s hs).weaken (Nat.le_succ c)
    · refine ⟨⟨hentry.snapshot.row, hentry.snapshot.less, hentry.snapshot.distinctLess,
        hentry.snapshot.witness⟩, hentry.le, fun d hd => ?_, fun d hd hlt hsame => ?_⟩
      · by_cases hdc : d = c
        · left
          rw [hdc, upgrade_equal_self hcolumn, hrow, hsize, hequal]
        · rw [upgrade_equal_of_ne hcolumn hdc]
          exact hentry.valid d hd
      · rw [upgrade_equal_of_ne hcolumn (Nat.ne_of_lt hlt)]
        exact hentry.pending d hd (by omega) hsame
  case sorted =>
    have hpairs : (st.samples.map q.rowOf).Pairwise (· < ·) := List.pairwise_map.mpr h.sorted
    rw [← map_set_self hold hrow] at hpairs
    exact List.pairwise_map.mp hpairs
  case length => exact (List.length_set ..).trans_le h.length
  case zero =>
    intro s hs d hd hz
    rcases List.mem_or_eq_of_mem_set hs with hs | rfl
    · exact h.zero s hs d hd hz
    · by_cases hdc : d = c
      · rw [hdc, upgrade_equal_self hcolumn, hequal, ← hsize] at hz
        have := Stream.size_pos (c := c) hentry.snapshot.row
        omega
      · rw [upgrade_equal_of_ne hcolumn hdc] at hz
        exact h.zero old hmem d hd hz
  case minimum => exact hleast
  case periodic => exact hperiodic

/-- The insertion of the best row of a prefix that ends. -/
theorem insert_kept {m : Nat} {st : IndexStatistics} (new : Sample)
    (h : Kept q k (c + 1) m st) (hm : m ≤ q.rows) (hc : c + 1 < q.columns)
    (hcolumn : new.column = c) (hp : new.periodic = false)
    (hsnapshot : Snapshot q new (q.rowOf new)) (hle : q.rowOf new ≤ k)
    (hsame : start q.changed c (q.rowOf new) = start q.changed c k)
    (hequal : ∀ d, c ≤ d → d < q.columns → new.equal d = q.size d (q.rowOf new)) :
    ∃ st', st.insert new c = .ok st' ∧ Kept q k c m st' ∧ SameRows st st' := by
  -- raising the bound on the columns that may be zero keeps everything
  have hraised : Kept q k (c + 1) m { st with maximumEqualZero := max st.maximumEqualZero c } :=
    ⟨h.columns, h.entries, h.sorted, h.length,
      fun s hs d hd hz => lt_of_lt_of_le (h.zero s hs d hd hz) (le_max_left _ _), h.minimum,
      h.periodic⟩
  have hraise : SameRows st { st with maximumEqualZero := max st.maximumEqualZero c } :=
    ⟨rfl, rfl, rfl, rfl, rfl, rfl, rfl, rfl⟩
  unfold IndexStatistics.insert
  simp only [hp, hcolumn]
  rw [if_neg (by simp)]
  split
  · exact ⟨_, rfl, ⟨h.columns, fun s hs => (h.entries s hs).weaken (Nat.le_succ c), h.sorted,
      h.length, hraised.zero, h.minimum, h.periodic⟩, hraise⟩
  · next hfound =>
      obtain ⟨-, hnone⟩ := findUpgrade_none _ hfound
      have hlast (s : Sample) (hs : s ∈ st.samples) : q.rowOf s < q.rowOf new := by
        obtain ⟨index, hget⟩ := List.mem_iff_getElem?.mp hs
        have hne := hnone (s, index)
          (List.mem_reverse.mpr (List.mk_mem_zipIdx_iff_getElem?.mpr hget))
        have hentry := h.entries s hs
        have hstart : start q.changed c (q.rowOf s) ≠ start q.changed c k := fun heq =>
          hne (hentry.pending c hc (Nat.lt_succ_self c) heq)
        have hbefore : q.rowOf s < start q.changed c k := by
          by_contra hge
          exact hstart (start_eq_of_between (Nat.le_of_not_lt hge) hentry.le)
        have := start_le q.changed c (q.rowOf new)
        omega
      have hentry : Entry q k c (zeroed new c) (q.rowOf new) := by
        refine ⟨⟨hsnapshot.row, hsnapshot.less, hsnapshot.distinctLess, hsnapshot.witness⟩, hle,
          fun d hd => ?_, fun d hd hlt _ => if_pos hlt⟩
        by_cases hlt : d < c
        · exact .inr ⟨if_pos hlt, by omega, start_eq_of_le hlt.le hsame⟩
        · exact .inl ((if_neg hlt).trans (hequal d (Nat.le_of_not_lt hlt) hd))
      have hnonzero (d : Nat) (hd : d < q.columns) (hcd : c ≤ d) : new.equal d ≠ 0 := by
        rw [hequal d hcd hd]
        exact (Stream.size_pos hsnapshot.row).ne'
      obtain ⟨st', hplace, hkept, hrows⟩ := place_kept new c hraised (Nat.le_succ c) hm hlast hentry
        (le_max_right _ _) hnonzero (by simp [hp])
      exact ⟨st', hplace, hkept, hraise.trans hrows⟩
  · next old index hfound =>
      obtain ⟨hmem, hzero, -⟩ | hcontra := findUpgrade_some _ hfound
      · have hget := List.mk_mem_zipIdx_iff_getElem?.mp (List.mem_reverse.mp hmem)
        obtain ⟨st', hminimum, hkept, hrows⟩ := upgrade_kept hraised hm hc hcolumn hget hzero (by
          rw [hequal c (Nat.le_refl c) (by omega), Stream.size, group_congr hsame, Stream.size])
        exact ⟨st', hminimum, hkept, hraise.trans hrows⟩
      · cases hcontra

/-- The best row of a prefix that ends is inserted or not. -/
theorem offer_kept {m : Nat} {st : IndexStatistics} (new : Sample)
    (h : Kept q k (c + 1) m st) (hm : m ≤ q.rows) (hc : c + 1 < q.columns)
    (hcolumn : new.column = c) (hp : new.periodic = false)
    (hsnapshot : Snapshot q new (q.rowOf new)) (hle : q.rowOf new ≤ k)
    (hsame : start q.changed c (q.rowOf new) = start q.changed c k)
    (hequal : ∀ d, c ≤ d → d < q.columns → new.equal d = q.size d (q.rowOf new)) :
    ∃ st', st.offer new c = .ok st' ∧ Kept q k c m st' ∧ SameRows st st' := by
  have hinserted := insert_kept new h hm hc hcolumn hp hsnapshot hle hsame hequal
  unfold offer
  split
  · exact hinserted
  · next hfull =>
      have hlength := h.length
      obtain ⟨least, hleast, -⟩ := h.minimum (by omega)
      rw [hleast]
      simp only
      split
      · exact hinserted
      · exact ⟨st, rfl, ⟨h.columns, fun s hs => (h.entries s hs).weaken (Nat.le_succ c), h.sorted,
          h.length, h.zero, h.minimum, h.periodic⟩, ⟨rfl, rfl, rfl, rfl, rfl, rfl, rfl, rfl⟩⟩

end Velr.IndexStats
