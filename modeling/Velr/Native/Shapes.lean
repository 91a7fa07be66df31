import Velr.Common.FirstWins
import Velr.Common.Results
import Velr.IdMap.Directory
import Velr.Record.Codec

/-!
# Shape counts

`ShapeCounts` and `BatchShapeCounts` of `native.rs`. A count is spread over a run for each column of
a batch, a map of bounded size and the tables the map is spilled to; a call of `increment` adds one
to what they hold of its key together, and leaves the others (`increment_counted`).
-/

namespace Velr.Native

open ByteString
open FirstWins (firstOf)
open IdMap (Failure)
open Record (Value)

/-- Errors of an import. -/
inductive ImportError where
  /-- `all nodes must be imported before relationships` -/
  | nodesAfterRelationships
  /-- `composite import IDs require STRING id-type` -/
  | compositeId
  /-- `relationships require START_ID and END_ID columns` -/
  | endpointColumns
  /-- `empty or duplicate property name` -/
  | propertyName (name : String)
  /-- `column … is outside batch row … with … columns` -/
  | column (column row width : Nat)
  /-- `node labels must not be empty` -/
  | emptyLabel
  /-- `LABEL value must be a string or string list` and what else is wrong with one -/
  | label (message : String)
  /-- `ID group … has incompatible ID types` -/
  | idTypes (group : String)
  /-- `import IDs must be strings or integers` -/
  | idValue
  /-- `invalid integer import ID` -/
  | integerText (text : String)
  /-- `integer import IDs must be signed 64-bit integers` -/
  | integerValue
  /-- `ACTUAL node IDs must be nonnegative integers` -/
  | actualId
  /-- `duplicate node ID … in group … at batch row …` -/
  | duplicateId (group : String) (row : Nat)
  /-- `duplicate ACTUAL node ID … at batch row …` -/
  | duplicateActual (id : Int64) (row : Nat)
  /-- `nonfinite floats are not canonical property values` -/
  | nonfinite
  /-- `invalid canonical property value` -/
  | propertyValue
  /-- `relationship endpoint not found at batch row …` -/
  | endpoint (row : Nat)
  /-- `relationship type must not be empty` -/
  | emptyType
  /-- `relationships require a fixed type or TYPE column` -/
  | noType
  /-- `missing relationship type at batch row …` -/
  | missingType (row : Nat)
  /-- `relationship type must not be empty at batch row …` -/
  | emptyTypeCell (row : Nat)
  /-- `relationship type must be text at batch row …` -/
  | typeCell (row : Nat)
  /-- `internal node ID space exhausted` -/
  | nodeIds
  /-- `internal relationship ID space exhausted` -/
  | edgeIds
  /-- `property rowid space exhausted` -/
  | propertyRowids
  /-- `record is too large` -/
  | recordSize
  /-- `graph-shape count overflow` -/
  | shapeOverflow
  /-- An error of the integer-ID map. -/
  | integerIds (message : String)
  /-- `offline import storage error` -/
  | storage
  /-- `table rowids are not strictly increasing` -/
  | unordered
  /-- `primary index keys are not strictly increasing` -/
  | primaryKeys
deriving DecidableEq

/-- An error that is not a panic. -/
def fail {α : Type} (e : ImportError) : Except (Failure ImportError) α := .error (.error e)

/-! ## Keys -/

/-- `PropertyShape` -/
structure PropertyShape where
  storageClass : Nat
  tag : UInt8
deriving DecidableEq

/-- `PropertyShape::of`; the first byte of a blob is looked up. -/
def PropertyShape.of : Value → Except (Failure ImportError) PropertyShape
  | .integer _ => .ok ⟨0, 0⟩
  | .real _ => .ok ⟨1, 0⟩
  | .text _ => .ok ⟨2, 0⟩
  | .blob (tag :: _) => .ok ⟨3, tag⟩
  | .blob [] | .null => .error .panic

/-- `ShapeKey` -/
inductive ShapeKey where
  | node (labelGroup : Int64)
  | nodeProperty (labelGroup key : Int64) (shape : PropertyShape)
  | edge (kind source target : Int64)
  | edgeProperty (kind source target key : Int64) (shape : PropertyShape)
deriving DecidableEq

/-! ## Counts -/

/-- `ShapeCounts`, with the rows of the tables of `IMPORT_SHAPE_SCHEMA`: their primary keys are the
shape keys, one table for each kind of these. -/
structure ShapeCounts where
  entries : FirstWins.Map ShapeKey Nat
  maxEntries : Nat
  spilled : FirstWins.Map ShapeKey Nat

/-- `count.checked_add(added)` -/
def checkedAdd (count added : Nat) : Except (Failure ImportError) Nat :=
  if count + added < 2 ^ 63 then .ok (count + added) else fail .shapeOverflow

/-- `ShapeCounts::flush`: every count is added to its row. -/
def ShapeCounts.flush (counts : ShapeCounts) : ShapeCounts :=
  { counts with
    entries := .empty
    spilled := counts.entries.entries.foldl (fun spilled entry => spilled.upsert entry.1 entry.2)
      counts.spilled }

/-- `ShapeCounts::add_count` -/
def ShapeCounts.addCount (counts : ShapeCounts) (key : ShapeKey) (added : Nat) :
    Except (Failure ImportError) ShapeCounts :=
  match counts.entries.find key with
  | some count => do
      let count ← checkedAdd count added
      .ok { counts with entries := counts.entries.set key count }
  | none =>
      let counts :=
        if counts.maxEntries ≤ counts.entries.entries.length then counts.flush else counts
      .ok { counts with entries := (counts.entries.insert key added).2 }

/-- `BatchShapeCounts` -/
abbrev BatchShapeCounts := List (Option (ShapeKey × Nat))

/-- `BatchShapeCounts::new` -/
def BatchShapeCounts.new (properties : Nat) : BatchShapeCounts :=
  List.replicate (properties + 1) none

/-- The count of a run that another key ends. -/
def ShapeCounts.endRun (counts : ShapeCounts) :
    Option (ShapeKey × Nat) → Except (Failure ImportError) ShapeCounts
  | some (key, count) => counts.addCount key count
  | none => .ok counts

/-- `BatchShapeCounts::increment` -/
def increment (slots : BatchShapeCounts) (counts : ShapeCounts) (slot : Nat) (key : ShapeKey) :
    Except (Failure ImportError) (BatchShapeCounts × ShapeCounts) :=
  match slots[slot]? with
  | none => .error .panic
  | some cached =>
      if cached.any (·.1 = key) then do
        let count ← checkedAdd (cached.elim 0 Prod.snd) 1
        .ok (slots.set slot (some (key, count)), counts)
      else do
        let counts ← counts.endRun cached
        .ok (slots.set slot (some (key, 1)), counts)

/-- `BatchShapeCounts::flush` -/
def flushSlots : BatchShapeCounts → ShapeCounts → Except (Failure ImportError) ShapeCounts
  | [], counts => .ok counts
  | cached :: slots, counts => do
      let counts ← counts.endRun cached
      flushSlots slots counts

/-! ## What is counted of a key -/

/-- The count of a run that is one of the key. -/
def runOf (key : ShapeKey) (cached : Option (ShapeKey × Nat)) : Nat :=
  if cached.any (·.1 = key) then cached.elim 0 Prod.snd else 0

/-- The count of a key in the map and the tables. -/
def ShapeCounts.counted (counts : ShapeCounts) (key : ShapeKey) : Nat :=
  (counts.entries.find key).getD 0 + (counts.spilled.find key).getD 0

/-- The count of a key in the slots of a batch, the map and the tables. -/
def counted (slots : BatchShapeCounts) (counts : ShapeCounts) (key : ShapeKey) : Nat :=
  (slots.map (runOf key)).sum + counts.counted key

variable {counts counts' : ShapeCounts} {slots slots' : BatchShapeCounts}

/-- Counts of distinct keys are added to their rows. -/
theorem getD_find_foldl_upsert (key : ShapeKey) :
    ∀ {entries : List (ShapeKey × Nat)} {table : FirstWins.Map ShapeKey Nat},
      (entries.map Prod.fst).Nodup →
      ((entries.foldl (fun table entry => table.upsert entry.1 entry.2) table).find key).getD 0 =
        (table.find key).getD 0 + (firstOf entries key).getD 0
  | [], _, _ => rfl
  | entry :: entries, table, hunique => by
      rw [List.map_cons, List.nodup_cons] at hunique
      rw [List.foldl_cons, getD_find_foldl_upsert key hunique.2, FirstWins.find_upsert,
        FirstWins.firstOf_cons]
      by_cases hkey : key = entry.1
      · subst hkey
        rw [if_pos rfl, if_pos rfl, FirstWins.firstOf_eq_none.mpr hunique.1]
        rfl
      · rw [if_neg hkey, if_neg fun heq => hkey heq.symm]

/-- A flush keeps every count. -/
theorem flush_counted (counts : ShapeCounts) (key : ShapeKey) :
    counts.flush.counted key = counts.counted key := by
  rw [ShapeCounts.counted, ShapeCounts.counted, ShapeCounts.flush]
  dsimp only
  rw [getD_find_foldl_upsert key counts.entries.unique, FirstWins.find_empty, Option.getD_none]
  exact (Nat.zero_add _).trans (Nat.add_comm ..)

/-- A count is added to its key and to no other. -/
theorem addCount_counted {key : ShapeKey} {added : Nat}
    (h : counts.addCount key added = .ok counts')
    (key' : ShapeKey) :
    counts'.counted key' = counts.counted key' + if key' = key then added else 0 := by
  rw [ShapeCounts.addCount] at h
  cases hfind : counts.entries.find key with
  | some count =>
      rw [hfind] at h
      obtain ⟨sum, hsum, h⟩ := Results.bind_eq_ok_iff.mp h
      cases h
      rw [checkedAdd] at hsum
      split at hsum
      · cases hsum
        rw [ShapeCounts.counted, ShapeCounts.counted]
        dsimp only
        rw [FirstWins.find_set (by rw [hfind]; rfl)]
        by_cases hkey : key' = key
        · rw [if_pos hkey, if_pos hkey, hkey, hfind, Option.getD_some, Option.getD_some]
          omega
        · rw [if_neg hkey, if_neg hkey]
          omega
      · cases hsum
  | none =>
      rw [hfind] at h
      cases h
      have hroom : ∀ counts : ShapeCounts, counts.entries.find key = none →
          ({ counts with
            entries := (counts.entries.insert key added).2 } : ShapeCounts).counted key' =
            counts.counted key' + if key' = key then added else 0 := by
        intro counts hnone
        rw [ShapeCounts.counted, ShapeCounts.counted]
        dsimp only
        rw [FirstWins.find_insert, FirstWins.firstOf_cons, FirstWins.firstOf_nil]
        by_cases hkey : key' = key
        · rw [if_pos hkey.symm, if_pos hkey, hkey, hnone, Option.none_or, Option.getD_some,
            Option.getD_none]
          omega
        · rw [if_neg fun heq => hkey heq.symm, if_neg hkey, Option.or_none]
          omega
      split
      · rw [hroom counts.flush rfl, flush_counted]
      · exact hroom counts hfind

theorem runOf_some (key : ShapeKey) (run : ShapeKey × Nat) :
    runOf key (some run) = if key = run.1 then run.2 else 0 := by
  rw [runOf, Option.any_some, Option.elim_some]
  exact if_congr ⟨fun heq => (of_decide_eq_true heq).symm,
    fun heq => decide_eq_true heq.symm⟩ rfl rfl

/-- Ending a run adds it to the count of its key. -/
theorem endRun_counted {cached : Option (ShapeKey × Nat)} (h : counts.endRun cached = .ok counts')
    (key : ShapeKey) : counts'.counted key = counts.counted key + runOf key cached := by
  cases cached with
  | none =>
      cases h
      rfl
  | some run =>
      rw [addCount_counted h, runOf_some]

/-- Each call adds one to the count of its key. -/
theorem increment_counted {slot : Nat} {key : ShapeKey}
    (h : increment slots counts slot key = .ok (slots', counts')) :
    slots'.length = slots.length ∧ ∀ key',
      counted slots' counts' key' = counted slots counts key' + if key' = key then 1 else 0 := by
  rw [increment] at h
  cases hslot : slots[slot]? with
  | none =>
      rw [hslot] at h
      cases h
  | some cached =>
      rw [hslot] at h
      have hsum : ∀ (run : ShapeKey × Nat) (key' : ShapeKey),
          ((slots.set slot (some run)).map (runOf key')).sum + runOf key' cached =
            (slots.map (runOf key')).sum + runOf key' (some run) :=
        fun run key' => IdMap.sum_map_set (runOf key') (some run) hslot
      dsimp only at h
      split at h
      · next hsame =>
          obtain ⟨count, hcount, h⟩ := Results.bind_eq_ok_iff.mp h
          cases h
          obtain ⟨run, rfl, hkey⟩ := (Option.any_eq_true ..).mp hsame
          rw [checkedAdd] at hcount
          split at hcount
          · cases hcount
            refine ⟨List.length_set, fun key' => ?_⟩
            have hset := hsum (key, run.2 + 1) key'
            rw [runOf_some, runOf_some, of_decide_eq_true hkey] at hset
            rw [counted, counted, Option.elim_some]
            split at hset
            · next heq =>
                rw [if_pos heq]
                dsimp only at hset
                omega
            · next hne =>
                rw [if_neg hne]
                omega
          · cases hcount
      · next hother =>
          obtain ⟨counts₁, hend, h⟩ := Results.bind_eq_ok_iff.mp h
          cases h
          refine ⟨List.length_set, fun key' => ?_⟩
          have hset := hsum (key, 1) key'
          have hcounts := endRun_counted hend key'
          rw [counted, counted, hcounts]
          rw [runOf_some] at hset
          dsimp only at hset
          omega

/-- The end of a batch moves every run to the map. -/
theorem flushSlots_counted : ∀ {slots : BatchShapeCounts} {counts counts' : ShapeCounts},
    flushSlots slots counts = .ok counts' → ∀ key,
      counts'.counted key = counted slots counts key
  | [], counts, counts', h, key => by
      cases h
      exact (Nat.zero_add _).symm
  | cached :: slots, counts, counts', h, key => by
      obtain ⟨counts₁, hend, hrest⟩ := Results.bind_eq_ok_iff.mp h
      rw [flushSlots_counted hrest, counted, counted, endRun_counted hend, List.map_cons,
        List.sum_cons]
      omega

/-! ## No row without a count -/

/-- Every key of a table has been counted. -/
def PositiveCounts (table : FirstWins.Map ShapeKey Nat) : Prop :=
  ∀ key count, table.find key = some count → 0 < count

/-- Upserting a positive count keeps counts positive. -/
theorem upsert_positive {table : FirstWins.Map ShapeKey Nat} (h : PositiveCounts table)
    (key : ShapeKey) {count : Nat} (hcount : 0 < count) :
    PositiveCounts (table.upsert key count) := by
  intro key' count' hfind
  rw [FirstWins.find_upsert] at hfind
  split at hfind
  · cases hfind
    omega
  · exact h key' count' hfind

theorem foldl_upsert_positive :
    ∀ {entries : List (ShapeKey × Nat)} {table : FirstWins.Map ShapeKey Nat},
      PositiveCounts table → (∀ entry ∈ entries, 0 < entry.2) →
      PositiveCounts (entries.foldl (fun table entry => table.upsert entry.1 entry.2) table)
  | [], _, h, _ => h
  | entry :: entries, _, h, hentries => by
      rw [List.forall_mem_cons] at hentries
      rw [List.foldl_cons]
      exact foldl_upsert_positive (upsert_positive h entry.1 hentries.1) hentries.2

/-- Every count in the map and the tables is one of something. -/
structure ShapeCounts.Positive (counts : ShapeCounts) : Prop where
  entries : PositiveCounts counts.entries
  spilled : PositiveCounts counts.spilled

/-- And so is every count in the slots. -/
structure Positive (slots : BatchShapeCounts) (counts : ShapeCounts) : Prop where
  slots : ∀ run, some run ∈ slots → 0 < run.2
  counts : counts.Positive

/-- A flush keeps counts positive. -/
theorem flush_positive (h : counts.Positive) : counts.flush.Positive where
  entries _ _ hfind := nomatch hfind
  spilled := foldl_upsert_positive h.spilled fun entry hentry =>
    h.entries entry.1 entry.2 (FirstWins.firstOf_of_mem counts.entries.unique hentry)

/-- So does adding a positive count. -/
theorem addCount_positive {key : ShapeKey} {added : Nat} (h : counts.Positive) (hadded : 0 < added)
    (hadd : counts.addCount key added = .ok counts') : counts'.Positive := by
  rw [ShapeCounts.addCount] at hadd
  cases hfind : counts.entries.find key with
  | some count =>
      rw [hfind] at hadd
      obtain ⟨sum, hsum, hadd⟩ := Results.bind_eq_ok_iff.mp hadd
      cases hadd
      rw [checkedAdd] at hsum
      split at hsum
      · cases hsum
        refine ⟨fun key' count' hfind' => ?_, h.spilled⟩
        rw [FirstWins.find_set (by rw [hfind]; rfl)] at hfind'
        split at hfind'
        · cases hfind'
          omega
        · exact h.entries key' count' hfind'
      · cases hsum
  | none =>
      rw [hfind] at hadd
      cases hadd
      have hroom : ∀ counts : ShapeCounts, counts.Positive →
          ({ counts with entries := (counts.entries.insert key added).2 } :
            ShapeCounts).Positive := by
        intro counts h
        refine ⟨fun key' count' hfind' => ?_, h.spilled⟩
        rw [FirstWins.find_insert, Option.or_eq_some_iff] at hfind'
        rcases hfind' with hold | ⟨-, hnew⟩
        · exact h.entries key' count' hold
        · rw [FirstWins.firstOf_cons] at hnew
          split at hnew
          · cases hnew
            exact hadded
          · cases hnew
      split
      · exact hroom _ (flush_positive h)
      · exact hroom _ h

/-- So does ending a run. -/
theorem endRun_positive {cached : Option (ShapeKey × Nat)} (h : counts.Positive)
    (hcached : ∀ run, cached = some run → 0 < run.2) (hend : counts.endRun cached = .ok counts') :
    counts'.Positive := by
  cases cached with
  | none =>
      cases hend
      exact h
  | some run => exact addCount_positive h (hcached run rfl) hend

/-- So does counting one more. -/
theorem increment_positive {slot : Nat} {key : ShapeKey} (h : Positive slots counts)
    (hincrement : increment slots counts slot key = .ok (slots', counts')) :
    Positive slots' counts' := by
  have hset : ∀ {run : ShapeKey × Nat}, 0 < run.2 → ∀ run', some run' ∈ slots.set slot (some run) →
      0 < run'.2 := by
    intro run hrun run' hmem
    rcases List.mem_or_eq_of_mem_set hmem with hold | hnew
    · exact h.slots run' hold
    · cases hnew
      exact hrun
  rw [increment] at hincrement
  cases hslot : slots[slot]? with
  | none =>
      rw [hslot] at hincrement
      cases hincrement
  | some cached =>
      rw [hslot] at hincrement
      dsimp only at hincrement
      split at hincrement
      · obtain ⟨count, hcount, hincrement⟩ := Results.bind_eq_ok_iff.mp hincrement
        cases hincrement
        rw [checkedAdd] at hcount
        split at hcount
        · cases hcount
          exact ⟨hset (Nat.succ_pos _), h.counts⟩
        · cases hcount
      · obtain ⟨counts₁, hend, hincrement⟩ := Results.bind_eq_ok_iff.mp hincrement
        cases hincrement
        refine ⟨hset Nat.one_pos, endRun_positive h.counts (fun run hrun => h.slots run ?_) hend⟩
        rw [← hrun]
        exact List.mem_of_getElem? hslot

/-- So does flushing the slots of a batch. -/
theorem flushSlots_positive : ∀ {slots : BatchShapeCounts} {counts counts' : ShapeCounts},
    Positive slots counts → flushSlots slots counts = .ok counts' → counts'.Positive
  | [], counts, counts', h, hflush => by
      cases hflush
      exact h.counts
  | cached :: slots, counts, counts', h, hflush => by
      obtain ⟨counts₁, hend, hrest⟩ := Results.bind_eq_ok_iff.mp hflush
      refine flushSlots_positive
        ⟨fun run hrun => h.slots run (List.mem_cons_of_mem _ hrun), ?_⟩ hrest
      exact endRun_positive h.counts (fun run hrun => h.slots run (by rw [hrun]; simp)) hend

/-- New slots hold no run. -/
theorem positive_new (properties : Nat) (h : counts.Positive) :
    Positive (.new properties) counts where
  slots _ hrun := nomatch List.eq_of_mem_replicate hrun
  counts := h

/-- New slots count nothing. -/
theorem counted_new (properties : Nat) (counts : ShapeCounts) (key : ShapeKey) :
    counted (.new properties) counts key = counts.counted key := by
  rw [counted, BatchShapeCounts.new, List.map_replicate, List.sum_replicate_nat, runOf]
  exact (congrArg (· + _) (Nat.mul_zero _)).trans (Nat.zero_add _)

end Velr.Native
