import Mathlib.Data.Int.Interval
import Mathlib.Data.Finset.Card
import Mathlib.Data.Option.Basic
import Velr.Record.Codec

/-!
# The dense foreign-key check

`integer_domain`, `foreign_key_plan` and `foreign_key_check_plan` of `validation.rs` over a database
as its queries see it. A table whose parents all have a gapless interval of rowids is checked by one
scan that looks for a child value that is no integer or lies outside its parent's interval; only
where it finds one does the native check decide (`dense_check_exact`). What SQL computes (`COUNT`,
`MIN`, `MAX`, `typeof`, comparisons, the lists of the `pragma_` tables and `foreign_key_check`) is
defined here as SQLite documents it; how a number, text or blob compares is a parameter.
-/

namespace Velr.Validation

open Record

/-! ## The database -/

/-- The name under which SQLite finds a column or a table. -/
def folded (name : String) : String := name.map Char.toLower

/-- A column: its position in the primary key is zero where it is not part of it. -/
structure Column where
  name : String
  type : String
  pk : Nat

/-- A constraint: the child columns, each with the parent column if the constraint names one. -/
structure ForeignKey where
  parent : String
  columns : List (String × Option String)
  nonempty : columns ≠ []

/-- A row and the values of its columns by their folded names. -/
structure Row where
  rowid : Int64
  values : String → Value

def Row.value (row : Row) (column : String) : Value := row.values (folded column)

/-- The primary key of a table, in order. -/
def primaryKey (columns : List Column) : List Column :=
  (columns.filter (0 < ·.pk)).mergeSort fun a b => a.pk ≤ b.pk

/-- The column that is a name of the rowid. -/
def rowidAlias (ordinary keyIndex : Bool) (columns : List Column) : Option Column :=
  if ordinary && !keyIndex then
    match primaryKey columns with
    | [key] => if folded key.type = folded "INTEGER" then some key else none
    | _ => none
  else none

/-- A table; `ordinary` where its type is `table` and it has rowids, `keyIndex` where its primary
key has an index of its own. Rowids are distinct, and a column that names the rowid reads as it. -/
structure Table where
  name : String
  ordinary : Bool
  keyIndex : Bool
  columns : List Column
  foreignKeys : List ForeignKey
  rows : List Row
  distinct : (rows.map Row.rowid).Nodup
  aliased : ∀ key, rowidAlias ordinary keyIndex columns = some key →
    ∀ row ∈ rows, row.value key.name = .integer row.rowid

/-- The tables of a database by their folded names. -/
abbrev Database := String → Option Table

def Database.table (db : Database) (name : String) : Option Table := db (folded name)

/-- How SQL compares values other than two integers, and a parent's value with a child's after
applying the parent column's affinity and collation. -/
structure Comparison where
  less : Value → Int64 → Bool
  greater : Value → Int64 → Bool
  equal : Column → Value → Value → Bool

/-! ## The plan -/

/-- `IntegerDomain` -/
structure IntegerDomain where
  minimum : Int64
  maximum : Int64
deriving DecidableEq

/-- `integer_domain`. The query on `pragma_table_list` compares names exactly. -/
def integerDomain (db : Database) (name : String) (column : Option String) :
    Option IntegerDomain := do
  let table ← db.table name
  guard (table.name = name ∧ table.ordinary)
  match primaryKey table.columns with
  | [key] =>
      guard (folded key.type = folded "INTEGER")
      guard (∀ named ∈ column, folded named = folded key.name)
      guard (¬table.keyIndex)
      let count := table.rows.length
      guard (count ≠ 0)
      let minimum ← (table.rows.map Row.rowid).min?
      let maximum ← (table.rows.map Row.rowid).max?
      guard (maximum.toInt - minimum.toInt + 1 = count)
      some { minimum, maximum }
  | _ => none

/-- The cache of domains. -/
abbrev Domains := List ((String × Option String) × Option IntegerDomain)

/-- A row of `pragma_foreign_key_list`. -/
structure KeyRow where
  seq : Nat
  parent : String
  child : String
  column : Option String

/-- `pragma_foreign_key_list`, ordered by constraint and column. -/
def foreignKeyList (table : Table) : List KeyRow :=
  table.foreignKeys.flatMap fun key =>
    key.columns.zipIdx.map fun ((child, column), seq) =>
      { seq, parent := key.parent, child, column }

/-- `(typeof({child})!='integer' OR {child}<{minimum} OR {child}>{maximum})` -/
structure Predicate where
  child : String
  minimum : Int64
  maximum : Int64
deriving DecidableEq

/-- `ForeignKeyPlan`; a dense plan is the query for a row that satisfies one of the predicates. -/
inductive ForeignKeyPlan where
  | native
  | dense (predicates : List Predicate)
deriving DecidableEq

/-- The tables `foreign_key_plan` leaves to the native check. -/
def nativeTables : List String :=
  ["node_property", "edge_property", "node", "label_group_member"]

/-- The loop of `foreign_key_plan`; `none` is its early return. -/
def predicatesOf (db : Database) : List KeyRow → Domains → Option (List Predicate) × Domains
  | [], domains => (some [], domains)
  | key :: keys, domains =>
      let cacheKey := (key.parent, key.column)
      let (domain, domains) := match domains.lookup cacheKey with
        | some domain => (domain, domains)
        | none =>
            let domain := integerDomain db key.parent key.column
            (domain, (cacheKey, domain) :: domains)
      match domain with
      | none => (none, domains)
      | some domain =>
          let predicate :=
            { child := key.child, minimum := domain.minimum, maximum := domain.maximum }
          match predicatesOf db keys domains with
          | (none, domains) => (none, domains)
          | (some predicates, domains) => (some (predicate :: predicates), domains)

/-- `foreign_key_plan` -/
def foreignKeyPlan (db : Database) (name : String) (domains : Domains) :
    ForeignKeyPlan × Domains :=
  if name ∈ nativeTables then (.native, domains)
  else
    let keys := ((db.table name).map foreignKeyList).getD []
    if keys.isEmpty || keys.any (·.seq != 0) then (.native, domains)
    else match predicatesOf db keys domains with
      | (none, domains) => (.native, domains)
      | (some predicates, domains) => (.dense predicates, domains)

/-- The plans that `validate` makes of its tables, one after the other. -/
def foreignKeyPlans (db : Database) : List String → Domains → List (String × ForeignKeyPlan)
  | [], _ => []
  | name :: names, domains =>
      let (plan, domains) := foreignKeyPlan db name domains
      (name, plan) :: foreignKeyPlans db names domains

/-! ## The check -/

/-- `typeof` -/
def typeOf : Value → String
  | .null => "null"
  | .integer _ => "integer"
  | .real _ => "real"
  | .text _ => "text"
  | .blob _ => "blob"

/-- `{child}<{bound}`; a comparison with NULL is NULL. -/
def lessThan (c : Comparison) (bound : Int64) : Value → Option Bool
  | .null => none
  | .integer value => some (value < bound)
  | value => some (c.less value bound)

/-- `{child}>{bound}` -/
def greaterThan (c : Comparison) (bound : Int64) : Value → Option Bool
  | .null => none
  | .integer value => some (bound < value)
  | value => some (c.greater value bound)

/-- A disjunction of SQL is true when one of its parts is true. -/
def Predicate.holds (c : Comparison) (predicate : Predicate) (row : Row) : Bool :=
  let value := row.value predicate.child
  typeOf value != "integer" || lessThan c predicate.minimum value = some true ||
    greaterThan c predicate.maximum value = some true

/-- The query of a dense plan. -/
def needsNative (c : Comparison) (db : Database) (name : String) (predicates : List Predicate) :
    Bool :=
  ((db.table name).map Table.rows).getD [] |>.any fun row => predicates.any (·.holds c row)

/-- Whether the parent's value satisfies the child's. -/
def satisfies (c : Comparison) (column : Column) : Value → Value → Bool
  | .integer parent, .integer child => parent = child
  | parent, child => c.equal column parent child

/-- The column of a parent that a constraint refers to at a position. -/
def parentColumn (parent : Table) (position : Nat) : Option String → Option Column
  | some named => parent.columns.find? fun column => folded column.name = folded named
  | none => (primaryKey parent.columns)[position]?

/-- `foreign_key_check` reports a row of the child when none of its key values is NULL and no row of
the parent has them. -/
def orphan (c : Comparison) (db : Database) (key : ForeignKey) (row : Row) : Bool :=
  key.columns.all (fun (child, _) => row.value child != .null) &&
    match db.table key.parent with
    | none => true
    | some parent => !parent.rows.any fun candidate =>
        key.columns.zipIdx.all fun ((child, named), position) =>
          match parentColumn parent position named with
          | none => false
          | some column => satisfies c column (candidate.value column.name) (row.value child)

/-- `foreign_key_check_table` -/
def foreignKeyCheckTable (c : Comparison) (db : Database) (name : String) : Except String Unit :=
  match db.table name with
  | none => .ok ()
  | some table =>
      if table.foreignKeys.any fun key => table.rows.any (orphan c db key) then
        .error ("database failed foreign-key validation in " ++ table.name)
      else .ok ()

/-- `foreign_key_check_plan` -/
def foreignKeyCheckPlan (c : Comparison) (db : Database) (name : String) :
    ForeignKeyPlan → Except String Unit
  | .native => foreignKeyCheckTable c db name
  | .dense predicates =>
      if needsNative c db name predicates then foreignKeyCheckTable c db name else .ok ()

/-! ## Dense parents -/

instance instLawfulOrderMaxInt64 : Std.LawfulOrderMax Int64 where
  max_eq_or a b := by
    show (if a ≤ b then b else a) = a ∨ (if a ≤ b then b else a) = b
    split <;> simp
  max_le_iff a b c := by
    show (if a ≤ b then b else a) ≤ c ↔ a ≤ c ∧ b ≤ c
    simp only [Int64.le_iff_toInt_le]
    split <;> omega

/-- Distinct numbers that are as many as their interval is long fill it. -/
theorem mem_of_dense {numbers : List Int64} {minimum maximum value : Int64}
    (hnodup : numbers.Nodup) (hmin : ∀ n ∈ numbers, minimum ≤ n) (hmax : ∀ n ∈ numbers, n ≤ maximum)
    (hcount : maximum.toInt - minimum.toInt + 1 = numbers.length)
    (hlow : minimum ≤ value) (hhigh : value ≤ maximum) : value ∈ numbers := by
  have hinj : Function.Injective Int64.toInt := fun _ _ => Int64.toInt_inj.mp
  have hnodup' : (numbers.map Int64.toInt).Nodup := hnodup.map hinj
  have hsub : (numbers.map Int64.toInt).toFinset ⊆ Finset.Icc minimum.toInt maximum.toInt := by
    intro n hn
    obtain ⟨number, hmem, rfl⟩ := List.mem_map.mp (List.mem_toFinset.mp hn)
    exact Finset.mem_Icc.mpr ⟨Int64.le_iff_toInt_le.mp (hmin number hmem),
      Int64.le_iff_toInt_le.mp (hmax number hmem)⟩
  have hcard : (Finset.Icc minimum.toInt maximum.toInt).card
      ≤ (numbers.map Int64.toInt).toFinset.card := by
    rw [List.toFinset_card_of_nodup hnodup', List.length_map, Int.card_Icc]
    omega
  have heq := Finset.eq_of_subset_of_card_le hsub hcard
  have hvalue : value.toInt ∈ (numbers.map Int64.toInt).toFinset := by
    rw [heq, Finset.mem_Icc]
    exact ⟨Int64.le_iff_toInt_le.mp hlow, Int64.le_iff_toInt_le.mp hhigh⟩
  obtain ⟨number, hmem, hnumber⟩ := List.mem_map.mp (List.mem_toFinset.mp hvalue)
  rwa [← hinj hnumber]

/-- What a domain says about its parent: the referenced column is the rowid, and every integer of
the interval is one. -/
structure Dense (db : Database) (name : String) (column : Option String) (domain : IntegerDomain)
    (table : Table) : Prop where
  found : db.table name = some table
  column : ∃ key, parentColumn table 0 column = some key ∧
    ∀ row ∈ table.rows, row.value key.name = .integer row.rowid
  full : ∀ value, domain.minimum ≤ value → value ≤ domain.maximum →
    ∃ row ∈ table.rows, row.rowid = value

/-- Columns are found in any case. -/
theorem Row.value_congr {row : Row} {a b : String} (h : folded a = folded b) :
    row.value a = row.value b := by
  rw [Row.value, Row.value, h]

/-- A reference to the only key column finds a column that reads as it. -/
theorem parentColumn_key {table : Table} {key : Column} {column : Option String}
    (hkeys : primaryKey table.columns = [key])
    (hcolumn : ∀ named ∈ column, folded named = folded key.name) :
    ∃ found, parentColumn table 0 column = some found ∧ folded found.name = folded key.name := by
  cases column with
  | none => exact ⟨key, by rw [parentColumn, hkeys]; rfl, rfl⟩
  | some named =>
      have hnamed := hcolumn named rfl
      have hmem : key ∈ table.columns := by
        have : key ∈ primaryKey table.columns := by rw [hkeys]; exact List.mem_singleton_self key
        exact (List.mem_filter.mp (List.mem_mergeSort.mp this)).1
      cases hfind : table.columns.find? fun column => folded column.name = folded named with
      | none =>
          have := List.find?_eq_none.mp hfind key hmem
          exact absurd hnamed.symm (by simpa using this)
      | some found =>
          have hfound : folded found.name = folded named := by simpa using List.find?_some hfind
          exact ⟨found, hfind, hfound.trans hnamed⟩

/-- A domain that is found is dense. -/
theorem integerDomain_dense {db : Database} {name : String} {column : Option String}
    {domain : IntegerDomain} (h : integerDomain db name column = some domain) :
    ∃ table, Dense db name column domain table := by
  simp only [integerDomain, Option.bind_eq_bind, Option.bind_eq_some_iff] at h
  obtain ⟨table, htable, _, hnamed, h⟩ := h
  have hnamed := (Option.guard_eq_some' _).mp hnamed
  cases hkeys : primaryKey table.columns with
  | nil => rw [hkeys] at h; cases h
  | cons key rest =>
      cases rest with
      | cons _ _ => rw [hkeys] at h; cases h
      | nil =>
          simp only [hkeys, Option.bind_eq_some_iff, Option.guard_eq_some'] at h
          obtain ⟨_, htype, _, hcolumn, _, hindex, _, -, minimum, hmin, maximum, hmax, _, hfull,
            hdomain⟩ := h
          cases hdomain
          obtain ⟨-, hmin⟩ := List.min?_eq_some_iff.mp hmin
          obtain ⟨-, hmax⟩ := List.max?_eq_some_iff.mp hmax
          have halias := table.aliased key (by
            rw [rowidAlias, if_pos (by simp [hnamed.2, hindex]), hkeys]
            exact if_pos htype)
          refine ⟨table, htable, ?_, fun value hlow hhigh => ?_⟩
          · obtain ⟨found, hfound, hname⟩ := parentColumn_key hkeys hcolumn
            refine ⟨found, hfound, fun row hrow => ?_⟩
            rw [Row.value_congr hname]
            exact halias row hrow
          · exact List.mem_map.mp (mem_of_dense table.distinct hmin hmax
              (by rw [List.length_map]; exact hfull) hlow hhigh)

/-! ## Plans -/

/-- The cache holds what `integer_domain` answers. -/
def Cached (db : Database) (domains : Domains) : Prop :=
  ∀ key domain, domains.lookup key = some domain → domain = integerDomain db key.1 key.2

/-- The predicate of a key, if its parent is dense. -/
def predicateOf (db : Database) (key : KeyRow) : Option Predicate :=
  (integerDomain db key.parent key.column).map fun domain =>
    { child := key.child, minimum := domain.minimum, maximum := domain.maximum }

/-- The plan of a table, whatever the cache holds. -/
def planOf (db : Database) (name : String) : ForeignKeyPlan :=
  if name ∈ nativeTables then .native
  else
    let keys := ((db.table name).map foreignKeyList).getD []
    if keys.isEmpty || keys.any (·.seq != 0) then .native
    else match keys.mapM (predicateOf db) with
      | none => .native
      | some predicates => .dense predicates

/-- A domain that is looked up is cached. -/
theorem Cached.cons {db : Database} {domains : Domains} (h : Cached db domains)
    (parent : String) (column : Option String) :
    Cached db (((parent, column), integerDomain db parent column) :: domains) := by
  intro key domain hlookup
  rw [List.lookup_cons] at hlookup
  cases hkey : key == (parent, column) with
  | false => exact h key domain (by simpa [hkey] using hlookup)
  | true =>
      have hkey := eq_of_beq hkey
      subst hkey
      simpa using hlookup.symm

/-- The loop makes the predicates of its keys, and the cache stays right. -/
theorem predicatesOf_spec {db : Database} : ∀ (keys : List KeyRow) {domains : Domains},
    Cached db domains → Cached db (predicatesOf db keys domains).2 ∧
      (predicatesOf db keys domains).1 = keys.mapM (predicateOf db)
  | [], domains, h => ⟨h, rfl⟩
  | key :: keys, domains, h => by
      obtain ⟨domain, domains', hlook, hdomain, h'⟩ : ∃ domain domains',
          (match domains.lookup (key.parent, key.column) with
            | some domain => (domain, domains)
            | none =>
                (integerDomain db key.parent key.column,
                  ((key.parent, key.column), integerDomain db key.parent key.column) :: domains))
            = (domain, domains') ∧ domain = integerDomain db key.parent key.column ∧
            Cached db domains' := by
        cases hlookup : domains.lookup (key.parent, key.column) with
        | some domain => exact ⟨domain, domains, rfl, h _ _ hlookup, h⟩
        | none => exact ⟨_, _, rfl, rfl, h.cons _ _⟩
      obtain ⟨hcached, hpredicates⟩ := predicatesOf_spec keys h'
      have hkey : predicateOf db key = domain.map fun domain =>
          { child := key.child, minimum := domain.minimum, maximum := domain.maximum } := by
        rw [predicateOf, hdomain]
      rw [predicatesOf, List.mapM_cons, hkey]
      simp only [hlook]
      cases domain with
      | none => exact ⟨h', rfl⟩
      | some domain =>
          simp only
          rcases hrest : predicatesOf db keys domains' with ⟨rest, domains''⟩
          rw [hrest] at hcached hpredicates
          rw [← hpredicates]
          cases rest with
          | none => exact ⟨hcached, rfl⟩
          | some predicates => exact ⟨hcached, rfl⟩

/-- The plan of a table does not depend on what the cache holds. -/
theorem foreignKeyPlan_spec {db : Database} {domains : Domains} (h : Cached db domains)
    (name : String) : Cached db (foreignKeyPlan db name domains).2 ∧
      (foreignKeyPlan db name domains).1 = planOf db name := by
  obtain ⟨hcached, hpredicates⟩ :=
    predicatesOf_spec (((db.table name).map foreignKeyList).getD []) h
  unfold foreignKeyPlan planOf
  split
  · exact ⟨h, rfl⟩
  · simp only
    split
    · exact ⟨h, rfl⟩
    · rw [← hpredicates]
      rcases hrest : predicatesOf db (((db.table name).map foreignKeyList).getD []) domains with
        ⟨rest, domains'⟩
      rw [hrest] at hcached
      cases rest with
      | none => exact ⟨hcached, rfl⟩
      | some predicates => exact ⟨hcached, rfl⟩

/-- Each table has its own plan. -/
theorem foreignKeyPlans_eq {db : Database} : ∀ {names : List String} {domains : Domains},
    Cached db domains →
    foreignKeyPlans db names domains = names.map fun name => (name, planOf db name)
  | [], _, _ => rfl
  | name :: names, domains, h => by
      obtain ⟨hcached, hplan⟩ := foreignKeyPlan_spec h name
      have hcons : foreignKeyPlans db (name :: names) domains =
          (name, (foreignKeyPlan db name domains).1) ::
            foreignKeyPlans db names (foreignKeyPlan db name domains).2 := rfl
      rw [hcons, List.map_cons, hplan, foreignKeyPlans_eq hcached]

theorem cached_nil (db : Database) : Cached db [] := by
  intro key domain hlookup
  cases hlookup

/-- Every table has the plan of its foreign keys. -/
theorem mem_foreignKeyPlans {db : Database} {names : List String} {name : String}
    {plan : ForeignKeyPlan} :
    (name, plan) ∈ foreignKeyPlans db names [] ↔ name ∈ names ∧ plan = planOf db name := by
  rw [foreignKeyPlans_eq (cached_nil db), List.mem_map]
  constructor
  · rintro ⟨_, hname, heq⟩
    cases heq
    exact ⟨hname, rfl⟩
  · rintro ⟨hname, rfl⟩
    exact ⟨name, hname, rfl⟩

theorem forall₂_mapM {α β : Type} {f : α → Option β} : ∀ {xs : List α} {ys : List β},
    xs.mapM f = some ys → List.Forall₂ (fun x y => f x = some y) xs ys
  | [], _, h => by
      cases h
      exact .nil
  | x :: xs, ys, h => by
      simp only [List.mapM_cons, Option.bind_eq_bind, Option.bind_eq_some_iff] at h
      obtain ⟨y, hy, rest, hrest, h⟩ := h
      cases h
      exact .cons hy (forall₂_mapM hrest)

/-- What a dense plan was made of. -/
theorem planOf_dense {db : Database} {name : String} {predicates : List Predicate}
    (hplan : planOf db name = .dense predicates) :
    ∃ table, db.table name = some table ∧ (∀ key ∈ foreignKeyList table, key.seq = 0) ∧
      List.Forall₂ (fun key predicate => predicateOf db key = some predicate)
        (foreignKeyList table) predicates := by
  unfold planOf at hplan
  split at hplan
  · cases hplan
  · simp only at hplan
    split at hplan
    · cases hplan
    · next hkeys =>
        split at hplan
        · cases hplan
        · next found hfound =>
            cases hplan
            cases htable : db.table name with
            | none => simp [htable] at hkeys
            | some table =>
                simp only [htable, Option.map_some, Option.getD_some] at hfound hkeys
                refine ⟨table, rfl, fun key hkey => ?_, forall₂_mapM hfound⟩
                simp only [Bool.or_eq_true, List.any_eq_true, bne_iff_ne, not_or,
                  not_exists, not_and] at hkeys
                by_contra hseq
                exact hkeys.2 key hkey hseq

/-! ## The check is exact -/

/-- A row that is no orphan has an integer in the domain. -/
theorem not_holds {c : Comparison} {predicate : Predicate} {row : Row}
    (h : predicate.holds c row = false) :
    ∃ value, row.value predicate.child = .integer value ∧ predicate.minimum ≤ value ∧
      value ≤ predicate.maximum := by
  unfold Predicate.holds at h
  cases hvalue : row.value predicate.child with
  | integer value =>
      simp only [hvalue, typeOf, lessThan, greaterThan, bne_self_eq_false, Bool.false_or,
        Option.some.injEq, decide_eq_true_eq, Bool.or_eq_false_iff, decide_eq_false_iff_not] at h
      exact ⟨value, rfl, Int64.not_lt.mp h.1, Int64.not_lt.mp h.2⟩
  | null | real _ | text _ | blob _ => simp [hvalue, typeOf] at h

/-- The child value is the rowid of a row of its parent. -/
def Present (db : Database) (parent : String) (value : Value) : Prop :=
  ∃ table, db.table parent = some table ∧ ∃ row ∈ table.rows, value = .integer row.rowid

/-- A constraint whose row the dense query passes over has its value in the parent. -/
theorem present_of_not_holds {c : Comparison} {db : Database} {fk : ForeignKey} {child : String}
    {named : Option String} {predicate : Predicate} {row : Row}
    (hcolumns : fk.columns = [(child, named)])
    (hguards : predicateOf db ⟨0, fk.parent, child, named⟩ = some predicate)
    (h : predicate.holds c row = false) :
    Present db fk.parent (row.value child) ∧ orphan c db fk row = false := by
  obtain ⟨domain, hdomain, rfl⟩ := Option.map_eq_some_iff.mp hguards
  obtain ⟨value, hvalue, hlow, hhigh⟩ := not_holds h
  obtain ⟨parent, hparent, ⟨key, hkey, halias⟩, hfull⟩ := integerDomain_dense hdomain
  obtain ⟨candidate, hmem, rfl⟩ := hfull value hlow hhigh
  simp only at hvalue
  refine ⟨⟨parent, hparent, candidate, hmem, hvalue⟩, ?_⟩
  have hsatisfies : satisfies c key (candidate.value key.name) (row.value child) = true := by
    rw [halias candidate hmem, hvalue]
    simp [satisfies]
  have hany : parent.rows.any (fun candidate => fk.columns.zipIdx.all
      fun ((child, named), position) =>
        match parentColumn parent position named with
        | none => false
        | some column =>
            satisfies c column (candidate.value column.name) (row.value child)) = true :=
    List.any_eq_true.mpr ⟨candidate, hmem, by simp [hcolumns, hkey, hsatisfies]⟩
  rw [orphan, hparent]
  simp [hany]

/-- A constraint of a table whose keys all have one column. -/
theorem columns_eq_singleton {table : Table} (hseq : ∀ key ∈ foreignKeyList table, key.seq = 0)
    {fk : ForeignKey} (hfk : fk ∈ table.foreignKeys) :
    ∃ child named, fk.columns = [(child, named)] ∧
      (⟨0, fk.parent, child, named⟩ : KeyRow) ∈ foreignKeyList table := by
  have hlist : ∀ child named seq, ((child, named), seq) ∈ fk.columns.zipIdx →
      (⟨seq, fk.parent, child, named⟩ : KeyRow) ∈ foreignKeyList table := fun child named seq h =>
    List.mem_flatMap.mpr ⟨fk, hfk, List.mem_map.mpr ⟨((child, named), seq), h, rfl⟩⟩
  match hcolumns : fk.columns with
  | [] => exact absurd hcolumns fk.nonempty
  | [(child, named)] => exact ⟨child, named, rfl, hlist child named 0 (by simp [hcolumns])⟩
  | _ :: (child, named) :: _ =>
      have := hseq _ (hlist child named 1 (by simp [hcolumns]))
      cases this

/-- Where the dense query finds no row, every child value is a rowid of its parent. -/
theorem present_of_dense {c : Comparison} {db : Database} {name : String} {table : Table}
    {predicates : List Predicate} (htable : db.table name = some table)
    (hseq : ∀ key ∈ foreignKeyList table, key.seq = 0)
    (hguards : List.Forall₂ (fun key predicate => predicateOf db key = some predicate)
      (foreignKeyList table) predicates)
    (hnone : needsNative c db name predicates = false) :
    ∀ fk ∈ table.foreignKeys, ∀ row ∈ table.rows, orphan c db fk row = false ∧
      ∀ column ∈ fk.columns, Present db fk.parent (row.value column.1) := by
  intro fk hfk row hrow
  obtain ⟨child, named, hcolumns, hkey⟩ := columns_eq_singleton hseq hfk
  obtain ⟨i, hi, hget⟩ := List.mem_iff_getElem.mp hkey
  have hi' : i < predicates.length := hguards.length_eq ▸ hi
  have hpredicate := hguards.get hi hi'
  rw [List.get_eq_getElem, List.get_eq_getElem, hget] at hpredicate
  have hholds : (predicates[i]).holds c row = false := by
    simp only [needsNative, htable, Option.map_some, Option.getD_some, List.any_eq_false] at hnone
    have := hnone row hrow
    simp only [List.any_eq_true, not_exists, not_and] at this
    exact Bool.eq_false_iff.mpr (this _ (List.getElem_mem hi'))
  obtain ⟨hpresent, horphan⟩ := present_of_not_holds hcolumns hpredicate hholds
  refine ⟨horphan, fun column hcolumn => ?_⟩
  rw [hcolumns, List.mem_singleton] at hcolumn
  rw [hcolumn]
  exact hpresent

/-- The native check of a table succeeds exactly if no row is an orphan. -/
theorem foreignKeyCheckTable_ok_iff {c : Comparison} {db : Database} {name : String} {table : Table}
    (htable : db.table name = some table) :
    foreignKeyCheckTable c db name = .ok () ↔
      ∀ fk ∈ table.foreignKeys, ∀ row ∈ table.rows, orphan c db fk row = false := by
  rw [foreignKeyCheckTable, htable]
  simp only
  split
  · next h =>
      obtain ⟨fk, hfk, h⟩ := List.any_eq_true.mp h
      obtain ⟨row, hrow, h⟩ := List.any_eq_true.mp h
      simp only [reduceCtorEq, false_iff]
      intro hnone
      rw [hnone fk hfk row hrow] at h
      cases h
  · next h =>
      simp only [true_iff]
      intro fk hfk row hrow
      by_contra horphan
      exact h (List.any_eq_true.mpr ⟨fk, hfk, List.any_eq_true.mpr ⟨row, hrow, by
        simpa using horphan⟩⟩)

/-- A table with a dense plan passes its check exactly when `foreign_key_check` reports none of its
rows, and the dense query passes it alone only where every child value is a rowid of its parent. -/
theorem dense_check_exact (c : Comparison) (db : Database) (names : List String) {name : String}
    {predicates : List Predicate} (h : (name, .dense predicates) ∈ foreignKeyPlans db names []) :
    ∃ table, db.table name = some table ∧
      (foreignKeyCheckPlan c db name (.dense predicates) = .ok () ↔
        ∀ fk ∈ table.foreignKeys, ∀ row ∈ table.rows, orphan c db fk row = false) ∧
      (needsNative c db name predicates = false → ∀ fk ∈ table.foreignKeys, ∀ row ∈ table.rows,
        ∀ column ∈ fk.columns, Present db fk.parent (row.value column.1)) ∧
      (needsNative c db name predicates = true →
        foreignKeyCheckPlan c db name (.dense predicates) = foreignKeyCheckTable c db name) := by
  obtain ⟨table, htable, hseq, hguards⟩ := planOf_dense (mem_foreignKeyPlans.mp h).2.symm
  have hpresent := present_of_dense (c := c) htable hseq hguards
  refine ⟨table, htable, ?_, fun hnone fk hfk row hrow => (hpresent hnone fk hfk row hrow).2,
    fun hneeds => by rw [foreignKeyCheckPlan, if_pos hneeds]⟩
  cases hneeds : needsNative c db name predicates with
  | true =>
      rw [foreignKeyCheckPlan, if_pos hneeds]
      exact foreignKeyCheckTable_ok_iff htable
  | false =>
      rw [foreignKeyCheckPlan, if_neg (by simp [hneeds])]
      exact ⟨fun _ fk hfk row hrow => (hpresent hneeds fk hfk row hrow).1, fun _ => rfl⟩

/-- A parent with the rows 1 and 2 and a child whose rows refer to them, one of them by NULL. -/
def sampleDatabase : Database := fun name =>
  if name = "parent" then some {
    name := "parent", ordinary := true, keyIndex := false
    columns := [{ name := "id", type := "INTEGER", pk := 1 }]
    foreignKeys := []
    rows := [⟨1, fun _ => .integer 1⟩, ⟨2, fun _ => .integer 2⟩]
    distinct := by decide
    aliased := by simp [Row.value] }
  else if name = "child" then some {
    name := "child", ordinary := true, keyIndex := false
    columns := [{ name := "owner", type := "", pk := 0 }]
    foreignKeys := [{ parent := "parent", columns := [("owner", none)], nonempty := by simp }]
    rows := [⟨1, fun _ => .integer 2⟩, ⟨2, fun _ => .null⟩]
    distinct := by decide
    aliased := by simp [rowidAlias, primaryKey] }
  else none

/-- A child table whose owners are the rows of a parent. -/
theorem dense_check_exact_small :
    ∃ table, sampleDatabase.table "child" = some table ∧
      (foreignKeyCheckPlan ⟨fun _ _ => false, fun _ _ => false, fun _ _ _ => false⟩ sampleDatabase
          "child" (.dense [⟨"owner", 1, 2⟩]) = .ok () ↔
        ∀ fk ∈ table.foreignKeys, ∀ row ∈ table.rows, orphan
          ⟨fun _ _ => false, fun _ _ => false, fun _ _ _ => false⟩
          sampleDatabase fk row = false) := by
  have hplan : ("child", ForeignKeyPlan.dense [⟨"owner", 1, 2⟩])
      ∈ foreignKeyPlans sampleDatabase ["parent", "child"] [] := by decide +kernel
  obtain ⟨table, htable, h, -⟩ := dense_check_exact
    ⟨fun _ _ => false, fun _ _ => false, fun _ _ _ => false⟩ sampleDatabase ["parent",
      "child"] hplan
  exact ⟨table, htable, h⟩

end Velr.Validation
