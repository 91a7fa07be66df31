import Velr.IndexStats.Statistics

/-!
# Witnesses are opaque

The sampler never looks at a witness: with other witnesses for the same rows it takes the same
samples, with their witnesses in place (`analyze_mapWitness`).
-/

namespace Velr.IndexStats

variable (f : UInt64 → UInt64)

/-- A sample with another witness. -/
def Sample.mapWitness (sample : Sample) : Sample := { sample with witness := f sample.witness }

/-- An exported sample with another witness. -/
def IndexSample.mapWitness (sample : IndexSample) : IndexSample :=
  { sample with witness := f sample.witness }

/-- Statistics with other witnesses. -/
def FullIndexStatistics.mapWitness (statistics : FullIndexStatistics) : FullIndexStatistics :=
  { statistics with samples := statistics.samples.map (IndexSample.mapWitness f) }

namespace IndexStatistics

/-- The sampler with other witnesses. -/
def mapWitness (st : IndexStatistics) : IndexStatistics :=
  { st with
    current := st.current.mapWitness f
    best := fun column => (st.best column).mapWitness f
    samples := st.samples.map (Sample.mapWitness f) }

variable {f} {st : IndexStatistics}

theorem scanMinimum_mapWitness (st : IndexStatistics) : ∀ (samples : List (Sample × Nat))
    (minimum : Option (Sample × Nat)),
    (st.mapWitness f).scanMinimum (samples.map (Prod.map (Sample.mapWitness f) id))
        (minimum.map (Prod.map (Sample.mapWitness f) id))
      = (st.scanMinimum samples minimum).map (Prod.map (Sample.mapWitness f) id)
  | [], _ => rfl
  | (sample, index) :: samples, minimum => by
      have hall : (minimum.map (Prod.map (Sample.mapWitness f) id)).all
          (fun previous => (st.mapWitness f).better previous.1 (sample.mapWitness f))
            = minimum.all fun previous => st.better previous.1 sample := by
        cases minimum <;> rfl
      rw [List.map_cons, Prod.map_apply, scanMinimum, hall, scanMinimum]
      show (if (!sample.periodic && _) = true then _ else _) = _
      split
      · exact scanMinimum_mapWitness st samples (some (sample, index))
      · exact scanMinimum_mapWitness st samples minimum

theorem zipIdx_mapWitness (samples : List Sample) :
    (samples.map (Sample.mapWitness f)).zipIdx
      = samples.zipIdx.map (Prod.map (Sample.mapWitness f) id) := by
  rw [List.zipIdx_map]

/-- The choice of the sample to drop does not look at witnesses. -/
theorem findMinimum_mapWitness (st : IndexStatistics) :
    (st.mapWitness f).findMinimum = st.findMinimum.map (mapWitness f) := by
  have hlength : (st.mapWitness f).samples.length = st.samples.length := List.length_map _
  have hscan : (st.mapWitness f).scanMinimum (st.mapWitness f).samples.zipIdx none =
      (st.scanMinimum st.samples.zipIdx none).map (Prod.map (Sample.mapWitness f) id) := by
    rw [← scanMinimum_mapWitness, Option.map_none, ← zipIdx_mapWitness]
    rfl
  unfold findMinimum
  rw [hlength, hscan]
  split
  · rfl
  · cases st.scanMinimum st.samples.zipIdx none <;> rfl

/-- Neither does that of the sample to upgrade. -/
theorem findUpgrade_mapWitness (st : IndexStatistics) (column : Nat) :
    ∀ (samples : List (Sample × Nat))
    (upgrade : Option (Sample × Nat)),
    (st.mapWitness f).findUpgrade column (samples.map (Prod.map (Sample.mapWitness f) id))
        (upgrade.map (Prod.map (Sample.mapWitness f) id))
      = (st.findUpgrade column samples upgrade).map
          (Option.map (Prod.map (Sample.mapWitness f) id))
  | [], _ => rfl
  | (old, index) :: samples, upgrade => by
      have hall : (upgrade.map (Prod.map (Sample.mapWitness f) id)).all
          (fun previous => (st.mapWitness f).better (old.mapWitness f) previous.1)
            = upgrade.all fun previous => st.better old previous.1 := by
        cases upgrade <;> rfl
      rw [List.map_cons, Prod.map_apply, findUpgrade, hall, findUpgrade]
      show (if old.equal column = 0 then if old.periodic = true then _ else _ else _) = _
      split
      · split
        · rfl
        · split
          · exact findUpgrade_mapWitness st column samples (some (old, index))
          · exact findUpgrade_mapWitness st column samples upgrade
      · exact findUpgrade_mapWitness st column samples upgrade

/-- So making room commutes with renaming the witnesses. -/
theorem makeRoom_mapWitness (st : IndexStatistics) :
    (st.mapWitness f).makeRoom = st.makeRoom.map (List.map (Sample.mapWitness f)) := by
  unfold makeRoom
  show (if (st.samples.map (Sample.mapWitness f)).length = sampleCount then
    if st.minimum < (st.samples.map (Sample.mapWitness f)).length then
      Except.ok ((st.samples.map (Sample.mapWitness f)).eraseIdx st.minimum) else _ else _) = _
  rw [List.length_map, List.eraseIdx_map]
  split
  · split <;> rfl
  · rfl

/-- So does placing a sample. -/
theorem place_mapWitness (st : IndexStatistics) (new : Sample) (equalZero : Nat) :
    (st.mapWitness f).place (new.mapWitness f) equalZero
      = (st.place new equalZero).map (mapWitness f) := by
  unfold place
  rw [makeRoom_mapWitness]
  cases st.makeRoom with
  | error e => rfl
  | ok samples =>
      have hlast : (samples.map (Sample.mapWitness f)).getLast?.all
          (fun previous => decide (previous.less (st.columns - 1) < new.less (st.columns - 1)))
          = samples.getLast?.all
            fun previous =>
              decide (previous.less (st.columns - 1) < new.less (st.columns - 1)) := by
        rw [List.getLast?_map]
        cases samples.getLast? <;> rfl
      have hplaced : { st.mapWitness f with
            samples := samples.map (Sample.mapWitness f) ++ [zeroed (new.mapWitness f) equalZero] }
          = mapWitness f { st with samples := samples ++ [zeroed new equalZero] } := by
        rw [mapWitness, mapWitness, List.map_append]
        rfl
      show (if (samples.map (Sample.mapWitness f)).getLast?.all (fun previous =>
        decide (previous.less (st.columns - 1) < new.less (st.columns - 1))) = true then
          findMinimum _ else _) = _
      rw [hlast, hplaced, findMinimum_mapWitness]
      show _ = Except.map _ (if _ then _ else _)
      split <;> rfl

/-- So does inserting one. -/
theorem insert_mapWitness (st : IndexStatistics) (new : Sample) (equalZero : Nat) :
    (st.mapWitness f).insert (new.mapWitness f) equalZero
      = (st.insert new equalZero).map (mapWitness f) := by
  unfold insert
  extract_lets st₁ st₂
  have hst : st₁ = st₂.mapWitness f := rfl
  rw [hst]
  clear_value st₂
  have hfind : (st₂.mapWitness f).findUpgrade (new.mapWitness f).column
      (st₂.mapWitness f).samples.zipIdx.reverse none =
        (st₂.findUpgrade new.column st₂.samples.zipIdx.reverse none).map
          (Option.map (Prod.map (Sample.mapWitness f) id)) := by
    rw [← findUpgrade_mapWitness, Option.map_none, List.map_reverse, ← zipIdx_mapWitness]
    rfl
  have hperiodic : (new.mapWitness f).periodic = new.periodic := rfl
  rw [hfind, hperiodic]
  split
  · exact place_mapWitness st₂ new equalZero
  · cases st₂.findUpgrade new.column st₂.samples.zipIdx.reverse none with
    | none => rfl
    | some found =>
        cases found with
        | none => exact place_mapWitness st₂ new equalZero
        | some entry =>
            obtain ⟨old, index⟩ := entry
            refine Eq.trans (congrArg findMinimum ?_)
              (findMinimum_mapWitness
                { st₂ with samples := st₂.samples.set index (upgrade old new) })
            simp only [mapWitness, List.map_set]
            rfl

/-- So does offering one. -/
theorem offer_mapWitness (st : IndexStatistics) (sample : Sample) (column : Nat) :
    (st.mapWitness f).offer (sample.mapWitness f) column
      = (st.offer sample column).map (mapWitness f) := by
  unfold offer
  have hlength : (st.mapWitness f).samples.length = st.samples.length := List.length_map _
  have hget : (st.mapWitness f).samples[(st.mapWitness f).minimum]? =
      st.samples[st.minimum]?.map (Sample.mapWitness f) := List.getElem?_map ..
  rw [hlength, hget]
  split
  · exact insert_mapWitness st sample column
  · cases st.samples[st.minimum]? with
    | none => rfl
    | some least =>
        show (if st.better sample least = true then _ else _) = Except.map _ (if _ then _ else _)
        split
        · exact insert_mapWitness st sample column
        · rfl

/-- So does promoting a best sample. -/
theorem promote_mapWitness (st : IndexStatistics) (column : Nat) :
    (st.mapWitness f).promote column = (st.promote column).map (mapWitness f) := by
  have hbest : (fun c => ((Function.update st.best column (st.ended column)) c).mapWitness f)
      = Function.update (fun c => (st.best c).mapWitness f) column
          ((st.ended column).mapWitness f) := by
    funext c
    by_cases hc : c = column
    · subst hc
      simp
    · simp [Function.update_of_ne hc]
  have hoffer := offer_mapWitness (f := f)
    { st with best := Function.update st.best column (st.ended column) } (st.ended column) column
  rw [mapWitness, hbest] at hoffer
  exact hoffer

/-- So does promoting those of several columns. -/
theorem promoteColumns_mapWitness (changed : Nat) : ∀ (bound : Nat) (st : IndexStatistics),
    promoteColumns changed bound (st.mapWitness f)
      = (promoteColumns changed bound st).map (mapWitness f)
  | 0, _ => rfl
  | column + 1, st => by
      unfold promoteColumns
      split
      · rw [promote_mapWitness]
        cases st.promote column with
        | error e => rfl
        | ok st => exact promoteColumns_mapWitness changed column st
      · rfl

/-- So does pushing the row before. -/
theorem pushPrevious_mapWitness (st : IndexStatistics) (changed : Nat) :
    (st.mapWitness f).pushPrevious changed = (st.pushPrevious changed).map (mapWitness f) := by
  unfold pushPrevious
  show (promoteColumns changed (st.columns - 1) (st.mapWitness f) >>= _) = _
  rw [promoteColumns_mapWitness]
  cases promoteColumns changed (st.columns - 1) st with
  | error e => rfl
  | ok st =>
      show (if changed < st.maximumEqualZero then _ else _) = Except.map _ (if _ then _ else _)
      split
      · refine congrArg Except.ok ?_
        simp only [mapWitness, List.map_map]
        rfl
      · rfl

/-! ## Rows -/

theorem takePeriodic_mapWitness (st : IndexStatistics) :
    (st.mapWitness f).takePeriodic = st.takePeriodic.map (mapWitness f) := by
  unfold takePeriodic
  show (if st.rows = st.nextPeriodicRow then _ else _) = _
  split
  · exact insert_mapWitness
      { st with
        nextPeriodicRow :=
          if st.nextPeriodicRow + st.periodicInterval < 2 ^ 64 then
            st.nextPeriodicRow + st.periodicInterval
          else 0
        current := { st.current with column := 0 } }
      { st.current with periodic := true, column := 0 } (st.columns - 1)
  · rfl

theorem improve_mapWitness (st : IndexStatistics) (firstChanged : Nat) :
    (st.mapWitness f).improve firstChanged = (st.improve firstChanged).mapWitness f := by
  have hbest : ((st.mapWitness f).improve firstChanged).best
      = ((st.improve firstChanged).mapWitness f).best := by
    funext column
    have hold : (st.improve firstChanged).best column =
        if column < st.columns - 1 ∧ (firstChanged ≤ column ∨
          st.betterAfter { st.current with column } (st.best column) = true) then
          { st.current with column }
        else st.best column := rfl
    have hnew : ((st.mapWitness f).improve firstChanged).best column =
        if column < st.columns - 1 ∧ (firstChanged ≤ column ∨
          st.betterAfter { st.current with column } (st.best column) = true) then
          Sample.mapWitness f { st.current with column }
        else Sample.mapWitness f (st.best column) := rfl
    rw [hnew, ← apply_ite (Sample.mapWitness f), ← hold]
    rfl
  exact congrArg (fun best => { (st.mapWitness f).improve firstChanged with best }) hbest

theorem setCurrent_mapWitness (st : IndexStatistics) (current : Sample) (witness : UInt64) :
    (st.mapWitness f).setCurrent (current.mapWitness f) (f witness)
      = (st.setCurrent current witness).mapWitness f := rfl

theorem advance_mapWitness (st : IndexStatistics) (firstChanged : Nat) :
    (st.mapWitness f).advance firstChanged = (st.advance firstChanged).mapWitness f := rfl

/-- A row with another witness. -/
theorem push_mapWitness (st : IndexStatistics) (firstChanged : Nat) (witness : UInt64) :
    (st.mapWitness f).push firstChanged (f witness)
      = (st.push firstChanged witness).map (mapWitness f) := by
  have hend : ∀ st : IndexStatistics,
      ((st.mapWitness f).takePeriodic >>= fun st => Except.ok (st.improve firstChanged))
        = (st.takePeriodic >>= fun st => Except.ok (st.improve firstChanged)).map
          (mapWitness f) := by
    intro st
    rw [takePeriodic_mapWitness]
    cases st.takePeriodic with
    | error e => rfl
    | ok st => exact congrArg Except.ok (improve_mapWitness st firstChanged)
  unfold push
  show (if st.columns ≤ firstChanged ∨ st.expectedRows ≤ st.rows then _ else _) = _
  split
  · rfl
  · show (if st.rows = 0 then if firstChanged ≠ 0 then _ else _ else _) = _
    split
    · split
      · rfl
      · have hfirst := hend (st.setCurrent { st.current with
          equal :=
            fun column => if column < st.columns then 1 else st.current.equal column } witness)
        rw [← setCurrent_mapWitness] at hfirst
        exact hfirst
    · rw [pushPrevious_mapWitness]
      cases st.pushPrevious firstChanged with
      | error e => rfl
      | ok st =>
          have hnext := hend (st.setCurrent (st.advance firstChanged) witness)
          rw [← setCurrent_mapWitness, ← advance_mapWitness] at hnext
          exact hnext

/-- So does pushing all rows. -/
theorem pushAll_mapWitness : ∀ (stream : List (Nat × UInt64)) (st : IndexStatistics),
    (st.mapWitness f).pushAll (stream.map (Prod.map id f))
      = (st.pushAll stream).map (mapWitness f)
  | [], _ => rfl
  | (firstChanged, witness) :: stream, st => by
      rw [List.map_cons, Prod.map_apply, pushAll, pushAll]
      show (push _ firstChanged (f witness) >>= _) = _
      rw [push_mapWitness]
      cases st.push firstChanged witness with
      | error e => rfl
      | ok st => exact pushAll_mapWitness stream st

/-- So does `finish`. -/
theorem finish_mapWitness (st : IndexStatistics) :
    (st.mapWitness f).finish = st.finish.map (FullIndexStatistics.mapWitness f) := by
  unfold finish
  show (if st.rows ≠ st.expectedRows then _ else _) = _
  split
  · rfl
  · show (if st.rows ≠ 0 then _ else _) = _
    split
    · rw [pushPrevious_mapWitness]
      cases st.pushPrevious 0 with
      | error e => rfl
      | ok st' =>
          refine congrArg Except.ok ?_
          simp only [FullIndexStatistics.mapWitness, mapWitness, List.map_map]
          rfl
    · refine congrArg Except.ok ?_
      simp only [FullIndexStatistics.mapWitness, mapWitness, List.map_map]
      rfl

/-- A new sampler has no witness but 0. -/
theorem new_mapWitness (hf : f 0 = 0) (columns keyColumns : Nat) (n : UInt64) :
    (IndexStatistics.new columns keyColumns n).map (mapWitness f)
      = IndexStatistics.new columns keyColumns n := by
  unfold IndexStatistics.new
  split
  · rfl
  · refine congrArg Except.ok ?_
    have hdefault : Sample.default.mapWitness f = .default := by
      rw [Sample.mapWitness, Sample.default, hf]
    simp only [mapWitness, hdefault, List.map_nil]
    congr 1
    funext column
    split
    · exact congrArg (fun witness => { Sample.default with column, witness }) hf
    · exact hdefault

end IndexStatistics

/-- The analysis of a stream with other witnesses. -/
theorem analyze_mapWitness (hf : f 0 = 0) (columns keyColumns : Nat) (n : UInt64)
    (stream : List (Nat × UInt64)) :
    analyze columns keyColumns n (stream.map (Prod.map id f))
      = (analyze columns keyColumns n stream).map (FullIndexStatistics.mapWitness f) := by
  unfold analyze
  conv_lhs => rw [← IndexStatistics.new_mapWitness hf]
  cases IndexStatistics.new columns keyColumns n with
  | error e => rfl
  | ok st =>
      show ((st.mapWitness f).pushAll _ >>= _) = _
      rw [IndexStatistics.pushAll_mapWitness]
      show _ = Except.map _ (st.pushAll stream >>= IndexStatistics.finish)
      cases st.pushAll stream with
      | error e => rfl
      | ok st => exact IndexStatistics.finish_mapWitness st

/-! ## Any witnesses -/

section
open PrefixGroups
variable {α : Type} [LinearOrder α] {columns keyColumns : Nat} {rows : List (List α)}

/-- Row numbers, counted from one, as witnesses. -/
def numbers (rows : Nat) : List UInt64 := (List.range rows).map fun i => UInt64.ofNat (i + 1)

/-- The witness of the row of a number. -/
def pick (witnesses : List UInt64) (number : UInt64) : UInt64 :=
  if number = 0 then 0 else witnesses.getD (number.toNat - 1) 0

/-- The witness of a number is the one at its place. -/
theorem pick_number {witnesses : List UInt64} (hbounded : witnesses.length < 2 ^ 64) {i : Nat}
    (hi : i < witnesses.length) : pick witnesses (.ofNat (i + 1)) = witnesses[i] := by
  have hvalue : (UInt64.ofNat (i + 1)).toNat = i + 1 :=
    UInt64.toNat_ofNat_of_lt' (by show i + 1 < 2 ^ 64; omega)
  have hne : UInt64.ofNat (i + 1) ≠ 0 := by
    intro hzero
    rw [hzero] at hvalue
    exact absurd hvalue (by show 0 ≠ i + 1; omega)
  rw [pick, if_neg hne, hvalue, Nat.add_sub_cancel, List.getD_eq_getElem _ _ hi]

/-- For sorted rows the samples are rows that do not depend on the witnesses. -/
theorem analyze_samples (hcolumns : 0 < columns ∧ columns ≤ maxColumns)
    (hkey : 0 < keyColumns ∧ keyColumns ≤ columns) (hrows : Sorted columns rows) {n : UInt64}
    (hn : n.toNat = rows.length) :
    ∃ statistics : FullIndexStatistics,
      (∀ sample ∈ statistics.samples, ∃ i < rows.length, sample.witness = .ofNat (i + 1)) ∧
      ∀ witnesses : List UInt64, witnesses.length = rows.length →
        analyze columns keyColumns n (streamOf rows witnesses)
          = .ok (statistics.mapWitness (pick witnesses)) := by
  have hbounded : rows.length < 2 ^ 64 := hn ▸ n.toNat_lt
  have hlength : (numbers rows.length).length = rows.length := by simp [numbers]
  obtain ⟨st, k, hsettled, hanalyze⟩ := analyze_rows hcolumns hrows hbounded hkey hlength hn
  refine ⟨{ stat1 := stat1Text rows keyColumns, samples := st.samples.map st.exported },
    fun sample hsample => ?_, fun witnesses hwitnesses => ?_⟩
  · obtain ⟨old, hold, rfl⟩ := List.mem_map.mp hsample
    obtain ⟨hrow, hwitness, -, -, -⟩ := describes hlength hsettled hold
    have hnumber : ∀ i < rows.length, (numbers rows.length)[i]? = some (.ofNat (i + 1)) := by
      intro i hi
      rw [numbers, List.getElem?_map, List.getElem?_range hi]
      rfl
    rw [hnumber _ hrow] at hwitness
    exact ⟨_, hrow, (Option.some.inj hwitness).symm⟩
  · have hmap : (numbers rows.length).map (pick witnesses) = witnesses := by
      refine List.ext_getElem (by simp [numbers, hwitnesses]) fun i hi hi' => ?_
      simp only [numbers, List.getElem_map, List.getElem_range]
      exact pick_number (by omega) hi'
    have hstream : streamOf rows witnesses
        = (streamOf rows (numbers rows.length)).map (Prod.map id (pick witnesses)) := by
      rw [streamOf, streamOf, ← List.zip_map, List.map_id, hmap]
    rw [hstream, analyze_mapWitness (pick witnesses) (if_pos rfl), hanalyze]
    rfl

end

end Velr.IndexStats
