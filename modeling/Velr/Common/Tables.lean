import Mathlib.Algebra.Order.Ring.Nat
import Mathlib.Data.List.Nodup
import Mathlib.Tactic.Common

/-!
# Tables with generated row ids

What SQLite keeps of a table whose rows have an `INTEGER PRIMARY KEY AUTOINCREMENT` and a `UNIQUE`
column: no id is given twice, the largest one given is remembered, and no two rows have one key. The
constraints are fields of `Table`, so an insertion has to respect them to be written at all.
-/

namespace Tables

inductive SqlError where
  /-- No row id is left. -/
  | full
  /-- `UNIQUE` constraint failed -/
  | unique
  /-- The query returned no rows. -/
  | noRows
deriving DecidableEq

/-- The largest row id. -/
def maxRowid : Int := 2 ^ 63 - 1

structure Row (κ ν : Type) where
  id : Int
  key : κ
  value : ν
deriving DecidableEq

structure Table (κ ν : Type) where
  rows : List (Row κ ν)
  /-- The largest id that was given. -/
  sequence : Int
  sequence_nonneg : 0 ≤ sequence
  ids : ∀ row ∈ rows, 0 < row.id ∧ row.id ≤ sequence
  unique_id : (rows.map Row.id).Nodup
  unique_key : (rows.map Row.key).Nodup

variable {κ ν : Type}

namespace Table

/-- A table without rows. -/
def empty : Table κ ν where
  rows := []
  sequence := 0
  sequence_nonneg := Int.natCast_nonneg 0
  ids := by simp
  unique_id := List.nodup_nil
  unique_key := List.nodup_nil

/-- A table with one more row, under the next id. -/
def append (t : Table κ ν) (key : κ) (value : ν) (h : key ∉ t.rows.map Row.key) : Table κ ν where
  rows := t.rows ++ [⟨t.sequence + 1, key, value⟩]
  sequence := t.sequence + 1
  sequence_nonneg := by have := t.sequence_nonneg; omega
  ids := by
    have hnonneg := t.sequence_nonneg
    intro row hrow
    rw [List.mem_append, List.mem_singleton] at hrow
    rcases hrow with hrow | rfl
    · obtain ⟨hpos, hle⟩ := t.ids row hrow
      exact ⟨hpos, by omega⟩
    · exact ⟨by dsimp only; omega, Int.le_refl _⟩
  unique_id := by
    rw [List.map_append, List.map_singleton, List.nodup_append]
    refine ⟨t.unique_id, List.nodup_singleton _, fun id hid id' hid' heq => ?_⟩
    obtain ⟨row, hrow, rfl⟩ := List.mem_map.mp hid
    have hle := (t.ids row hrow).2
    have hnext : row.id = t.sequence + 1 := heq.trans (List.mem_singleton.mp hid')
    omega
  unique_key := by
    rw [List.map_append, List.map_singleton, List.nodup_append]
    refine ⟨t.unique_key, List.nodup_singleton _, fun key' hkey' key'' hkey'' heq => h ?_⟩
    have hnext : key' = key := heq.trans (List.mem_singleton.mp hkey'')
    rwa [← hnext]

variable [DecidableEq κ]

/-- `INSERT INTO t(key, value)`, with `last_insert_rowid`. -/
def insert (t : Table κ ν) (key : κ) (value : ν) : Except SqlError (Int × Table κ ν) :=
  if maxRowid ≤ t.sequence then .error .full
  else if h : key ∈ t.rows.map Row.key then .error .unique
  else .ok (t.sequence + 1, t.append key value h)

/-- `INSERT OR IGNORE INTO t(key, value)` -/
def insertOrIgnore (t : Table κ ν) (key : κ) (value : ν) : Except SqlError (Table κ ν) :=
  if maxRowid ≤ t.sequence then .error .full
  else if h : key ∈ t.rows.map Row.key then .ok t
  else .ok (t.append key value h)

/-- The row of a key. -/
def find (t : Table κ ν) (key : κ) : Except SqlError (Row κ ν) :=
  match t.rows.find? (·.key = key) with
  | some row => .ok row
  | none => .error .noRows

/-- The row of an id. -/
def get (t : Table κ ν) (id : Int) : Except SqlError (Row κ ν) :=
  match t.rows.find? (·.id = id) with
  | some row => .ok row
  | none => .error .noRows

variable {t : Table κ ν} {row row' : Row κ ν} {key : κ} {value : ν}

omit [DecidableEq κ] in

/-- A row is determined by its id. -/
theorem eq_of_id (h : row ∈ t.rows) (h' : row' ∈ t.rows) (hid : row.id = row'.id) : row = row' :=
  List.inj_on_of_nodup_map t.unique_id h h' hid

omit [DecidableEq κ] in

/-- So it is by its key. -/
theorem eq_of_key (h : row ∈ t.rows) (h' : row' ∈ t.rows) (hkey : row.key = row'.key) :
    row = row' :=
  List.inj_on_of_nodup_map t.unique_key h h' hkey

omit [DecidableEq κ] in

/-- An appended row has the next id. -/
theorem mem_append {h : key ∉ t.rows.map Row.key} :
    row ∈ (t.append key value h).rows ↔ row ∈ t.rows ∨ row = ⟨t.sequence + 1, key, value⟩ := by
  rw [append, List.mem_append, List.mem_singleton]

/-- A row is found by its key. -/
theorem find_eq_ok (h : row ∈ t.rows) : t.find row.key = .ok row := by
  rw [find]
  cases hfound : t.rows.find? (·.key = row.key) with
  | none =>
      have hnone := List.find?_eq_none.mp hfound row h
      simp at hnone
  | some row' =>
      have hkey : row'.key = row.key := by simpa using List.find?_some hfound
      rw [eq_of_key (List.mem_of_find?_eq_some hfound) h hkey]

omit [DecidableEq κ] in

/-- A row is found by its id. -/
theorem get_eq_ok (h : row ∈ t.rows) : t.get row.id = .ok row := by
  rw [get]
  cases hfound : t.rows.find? (·.id = row.id) with
  | none =>
      have hnone := List.find?_eq_none.mp hfound row h
      simp at hnone
  | some row' =>
      have hid : row'.id = row.id := by simpa using List.find?_some hfound
      rw [eq_of_id (List.mem_of_find?_eq_some hfound) h hid]

end Table

end Tables
