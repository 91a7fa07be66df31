import Velr.IdMap.Radix

/-!
# The integer-ID map

`IntegerIdMap` of `id_map.rs`. The ids of a group are an arithmetic range as long as they and their
nodes count up together, then the pages of a radix map, and rows of the SQLite table when the budget
is used up. A spool of records lets a group move to the table, and fills the pages when the map is
sealed.
-/

namespace Velr.IdMap

open FirstWins

/-- `ExternalId` -/
inductive ExternalId where
  | integer (id : Int64)
  | string (id : String)
deriving DecidableEq

/-- `import_ids.external_id`, with the primary key `(group_id, external_id)` -/
abbrev ExternalIds := FirstWins.Map (Int64 × ExternalId) ImportNode

/-! ## Ranges -/

/-- `Affine`. The nodes are as many as the ids. -/
structure Affine where
  first : Int64
  last : Int64
  firstNode : Int64
  lastNode : Int64
  labelGroup : Int64
  ordered : first.toInt ≤ last.toInt
  aligned : lastNode.toInt - firstNode.toInt = last.toInt - first.toInt

/-- The range of one id. -/
def Affine.single (id : Int64) (node : ImportNode) : Affine where
  first := id
  last := id
  firstNode := node.id
  lastNode := node.id
  labelGroup := node.labelGroup
  ordered := Int.le_refl _
  aligned := by omega

/-- `Affine::lookup` -/
def Affine.lookup (range : Affine) (id : Int64) : Option ImportNode :=
  if id.toInt < range.first.toInt ∨ range.last.toInt < id.toInt then none
  else
    let offset := id.toInt - range.first.toInt
    some ⟨.ofInt (range.firstNode.toInt + offset), range.labelGroup⟩

/-- `Affine::extends`; neither `checked_add` may overflow. -/
def Affine.Extends (range : Affine) (id : Int64) (node : ImportNode) : Prop :=
  range.last.toInt + 1 = id.toInt ∧ range.lastNode.toInt + 1 = node.id.toInt ∧
    range.labelGroup = node.labelGroup

instance (range : Affine) (id : Int64) (node : ImportNode) : Decidable (range.Extends id node) :=
  inferInstanceAs (Decidable (_ ∧ _ ∧ _))

/-- A range with one more id. -/
def Affine.extend (range : Affine) (id : Int64) (node : ImportNode) (h : range.Extends id node) :
    Affine where
  first := range.first
  last := id
  firstNode := range.firstNode
  lastNode := node.id
  labelGroup := range.labelGroup
  ordered := by
    have hordered := range.ordered
    have hlast := h.1
    omega
  aligned := by
    have haligned := range.aligned
    have hlast := h.1
    have hnode := h.2.1
    omega

/-- The ids from one on and their nodes, for a number of steps. -/
def visitsFrom (labelGroup : Int64) : Nat → Int64 → Int64 → List (Int64 × ImportNode)
  | 0, id, node => [(id, ⟨node, labelGroup⟩)]
  | steps + 1, id, node =>
      (id, ⟨node, labelGroup⟩) :: visitsFrom labelGroup steps (id + 1) (node + 1)

/-- `Affine::for_each`: what is visited. The loop ends at the last id. -/
def Affine.visits (range : Affine) : List (Int64 × ImportNode) :=
  visitsFrom range.labelGroup (range.last.toInt - range.first.toInt).toNat range.first
    range.firstNode

/-! ## The map -/

/-- `GroupMap` -/
inductive GroupMap where
  | empty
  | affine (range : Affine)
  | paged (map : RadixMap)
  | disk

/-- A record of the spool. -/
abbrev Record := (Int64 × Int64) × ImportNode

/-- `IntegerIdMap`; the spool is the list of its records. -/
structure IntegerIdMap where
  groups : List GroupMap
  budget : Budget
  spool : List Record
  isSealed : Bool

/-- `IntegerIdMap::new` -/
def IntegerIdMap.new (limit : Nat) : IntegerIdMap :=
  let bufferCapacity := min (max (limit / 8) 512) (64 * 1024)
  ⟨[], ⟨0, limit - bufferCapacity * 2, false⟩, [], false⟩

/-- `IntegerIdMap::disk_insert` -/
def diskInsert (table : ExternalIds) (group id : Int64) (node : ImportNode) : Bool × ExternalIds :=
  table.insert (group, .integer id) node

/-- `disk_insert` for each of the entries. -/
def diskInsertAll (group : Int64) (entries : List (Int64 × ImportNode)) (table : ExternalIds) :
    ExternalIds :=
  entries.foldl (fun table entry => (diskInsert table group entry.1 entry.2).2) table

/-- The entries of a group in the spool. -/
def spoolAt (spool : List Record) (group : Int64) : List (Int64 × ImportNode) :=
  spool.filterMap fun record =>
    if record.1.1 = group then some (record.1.2, record.2) else none

/-- `IntegerIdMap::migrate` -/
def migrate (spool : List Record) (group : Int64) (table : ExternalIds) : ExternalIds :=
  diskInsertAll group (spoolAt spool group) table

section
variable (platform : Platform)

/-- What the visits of a range that is given up for pages leave. -/
structure Conversion where
  map : RadixMap
  budget : Budget
  spool : List Record
  fits : Bool

/-- A visit of a range that is given up for pages. -/
def Conversion.visit (group : Int64) (c : Conversion) (entry : Int64 × ImportNode) :
    Except (Failure String) Conversion :=
  if c.fits then
    match c.map.insert platform entry.1 entry.2 c.budget with
    | (map, budget, .ok _) =>
        .ok { c with map, budget, spool := c.spool ++ [((group, entry.1), entry.2)] }
    | (map, budget, .error (.error ())) => .ok { c with map, budget, fits := false }
    | (_, _, .error .panic) => .error .panic
  else .ok c

/-- What an insertion leaves of a group, the budget, the spool and the table. -/
structure Inserted where
  state : GroupMap
  new : Bool
  budget : Budget
  spool : List Record
  table : ExternalIds

/-- `IntegerIdMap::insert` for a range that the id does not extend. -/
def insertConverting (range : Affine) (budget : Budget) (spool : List Record) (table : ExternalIds)
    (group id : Int64) (node : ImportNode) : Except (Failure String) Inserted := do
  let c ← range.visits.foldlM (Conversion.visit platform group) ⟨.default, budget, spool, true⟩
  let toDisk (map : RadixMap) (budget : Budget) : Inserted :=
    let (new, table) := diskInsert (diskInsertAll group range.visits table) group id node
    ⟨.disk, new, budget.release map.allocated, c.spool, table⟩
  if c.fits then
    match c.map.insert platform id node c.budget with
    | (map, budget, .ok _) =>
        .ok ⟨.paged map, true, budget, c.spool ++ [((group, id), node)], table⟩
    | (map, budget, .error (.error ())) => .ok (toDisk map budget)
    | (_, _, .error .panic) => .error .panic
  else .ok (toDisk c.map c.budget)

/-- `IntegerIdMap::insert` for a state of the group. -/
def insertGroup (state : GroupMap) (budget : Budget) (spool : List Record) (table : ExternalIds)
    (group id : Int64) (node : ImportNode) : Except (Failure String) Inserted :=
  match state with
  | .empty => .ok ⟨.affine (.single id node), true, budget, spool, table⟩
  | .affine range =>
      if (range.lookup id).isSome then .ok ⟨.affine range, false, budget, spool, table⟩
      else if h : range.Extends id node then
        .ok ⟨.affine (range.extend id node h), true, budget, spool, table⟩
      else insertConverting platform range budget spool table group id node
  | .paged map =>
      match map.insert platform id node budget with
      | (map, budget, .ok new) =>
          .ok ⟨.paged map, new, budget,
            if new then spool ++ [((group, id), node)] else spool, table⟩
      | (map, budget, .error (.error ())) =>
          let (new, table) := diskInsert (migrate spool group table) group id node
          .ok ⟨.disk, new, budget.release map.allocated, spool, table⟩
      | (_, _, .error .panic) => .error .panic
  | .disk =>
      let (new, table) := diskInsert table group id node
      .ok ⟨.disk, new, budget, spool, table⟩

/-- `IntegerIdMap::insert` -/
def IntegerIdMap.insert (m : IntegerIdMap) (table : ExternalIds) (group id : Int64)
    (node : ImportNode) : Except (Failure String) (Bool × IntegerIdMap × ExternalIds) :=
  if m.isSealed then .error (.error "integer IDs cannot be added after relationships start")
  else if group.toInt < 0 then .error (.error "invalid import ID group")
  else do
    let index := group.toInt.toNat
    let groups := m.groups ++ List.replicate (index + 1 - m.groups.length) .empty
    let state := groups[index]?.getD .empty
    let inserted ← insertGroup platform state m.budget m.spool table group id node
    .ok (inserted.new,
      { m with
        groups := groups.set index inserted.state
        budget := inserted.budget
        spool := inserted.spool },
      inserted.table)

end

/-- `IntegerIdMap::seal`: the loop over the groups. -/
def sealGroups (compress : Bool) (spool : List Record) :
    Nat → List GroupMap → Budget → ExternalIds →
      Except (Failure String) (List GroupMap × Budget × ExternalIds)
  | _, [], budget, table => .ok ([], budget, table)
  | index, .paged map :: groups, budget, table =>
      match map.seal budget compress with
      | (charges, .ok map) => do
          let (groups, budget, table) ←
            sealGroups compress spool (index + 1) groups charges.budget table
          .ok (.paged map :: groups, budget, table)
      | (charges, .error (.error ())) => do
          let table := migrate spool (.ofNat index) table
          let budget := charges.budget.release charges.allocated
          let (groups, budget, table) ← sealGroups compress spool (index + 1) groups budget table
          .ok (.disk :: groups, budget, table)
      | (_, .error .panic) => .error .panic
  | index, state :: groups, budget, table => do
      let (groups, budget, table) ← sealGroups compress spool (index + 1) groups budget table
      .ok (state :: groups, budget, table)

/-- `IntegerIdMap::seal`: a record is written to its slot. -/
def fillRecord (groups : List GroupMap) (record : Record) :
    Except (Failure String) (List GroupMap) :=
  match groups[record.1.1.toUInt64.toNat]? with
  | some (.paged map) =>
      (map.set record.1.2 record.2).map fun map => groups.set record.1.1.toUInt64.toNat (.paged map)
  | _ => .ok groups

/-- The value bytes of a group. -/
def GroupMap.valueBytes : GroupMap → Nat
  | .paged map => map.valueBytes
  | _ => 0

/-- `IntegerIdMap::seal` -/
def IntegerIdMap.seal (m : IntegerIdMap) (table : ExternalIds) :
    Except (Failure String) (IntegerIdMap × ExternalIds) :=
  if m.isSealed then .ok (m, table)
  else do
    -- a sum that overflows exceeds the limit as well
    let denseBytes := m.budget.used + (m.groups.map GroupMap.valueBytes).sum
    let compress := decide (m.budget.limit < denseBytes)
    let (groups, budget, table) ← sealGroups compress m.spool 0 m.groups m.budget table
    let groups ← m.spool.foldlM fillRecord groups
    .ok ({ m with groups, budget, isSealed := true }, table)

/-- `DirectLookup` -/
inductive DirectLookup where
  | found (node : ImportNode)
  | missing
  | disk
deriving DecidableEq

/-- `map_or(Missing, Found)` -/
def DirectLookup.ofOption : Option ImportNode → DirectLookup
  | some node => .found node
  | none => .missing

/-- `IntegerIdMap::lookup` -/
def IntegerIdMap.lookup (m : IntegerIdMap) (group id : Int64) :
    Except (Failure String) DirectLookup :=
  match m.groups[group.toUInt64.toNat]? with
  | some (.affine range) => .ok (.ofOption (range.lookup id))
  | some (.paged map) => (map.lookup id).map .ofOption
  | some .empty => .ok .missing
  | some .disk | none => .ok .disk

/-- A lookup, with the query of `external_id` where the map has not the answer. -/
def IntegerIdMap.resolve (m : IntegerIdMap) (table : ExternalIds) (group id : Int64) :
    Except (Failure String) (Option ImportNode) :=
  (m.lookup group id).map fun
    | .found node => some node
    | .missing => none
    | .disk => table.find (group, .integer id)

end Velr.IdMap
