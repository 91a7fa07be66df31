import Velr.Body.Spool
import Velr.IdMap.Map
import Velr.Import.LabelGroups
import Velr.Native.Shapes

/-!
# The native import

`append_nodes` and `append_relationships` of `native.rs`, with what they read and write: the ids of
the groups, the cache in front of them, the spools or tables of the graph and the shape counts. A
call returns what became of each row.
-/

namespace Velr.Native

open ByteString
open Body (Property)
open FirstWins (Map)
open IdMap (Failure ImportNode ExternalId ExternalIds IntegerIdMap Platform)
open Record (Value)
open Tables (Table SqlError)

/-! ## Rows -/

/-- `ImportIdType` -/
inductive ImportIdType where
  | string
  | integer
  | actual
deriving DecidableEq

/-- `ImportPropertyColumn` -/
structure ImportPropertyColumn where
  column : Nat
  name : String
deriving DecidableEq

/-- `NodeImportSpec` -/
structure NodeImportSpec where
  labels : List String
  idColumns : List Nat
  idGroup : String
  idType : ImportIdType
  labelColumns : List Nat
  properties : List ImportPropertyColumn
  skipDuplicates : Bool
deriving DecidableEq

/-- `RelationshipImportSpec` -/
structure RelationshipImportSpec where
  relationshipType : Option String
  typeColumn : Option Nat
  startColumns : List Nat
  startGroup : String
  endColumns : List Nat
  endGroup : String
  idType : ImportIdType
  properties : List ImportPropertyColumn
  skipBadRelationships : Bool
deriving DecidableEq

/-- The cells of a row. -/
abbrev Row := List Value

/-- `row[column]`; `validate_columns` has checked the width of the row. -/
def cell (row : Row) (column : Nat) : Value := row[column]?.getD .null

/-- `PropertyValue`, as far as labels depend on it. -/
inductive PropertyValue where
  | null
  | string (value : String)
  | strings (values : List (Option String))
  | list (values : List PropertyValue)
  | other

/-- Code that is not part of the repository. -/
structure Environment where
  /-- The allocator and the layouts of the compiler. -/
  platform : Platform
  /-- The text that `serde_json` writes for the labels of a group. -/
  toJson : List String → String
  /-- `decode_property_value` of a blob. -/
  decodePropertyValue : Bytes → Option PropertyValue

/-- `parse::<i64>()` -/
def parseI64 (text : String) : Option Int64 :=
  let read (negative : Bool) (digits : List Char) : Option Int64 :=
    if digits.isEmpty ∨ digits.any (!·.isDigit) then none
    else
      let magnitude : Int := Nat.ofDigitChars 10 digits 0
      let value := if negative then -magnitude else magnitude
      if -2 ^ 63 ≤ value ∧ value < 2 ^ 63 then some (.ofInt value) else none
  match text.toList with
  | '-' :: digits => read true digits
  | '+' :: digits => read false digits
  | digits => read false digits

/-- `external_id`: the text of a cell. -/
def idText : Value → Except (Failure ImportError) String
  | .null => .ok ""
  | .text value => .ok value
  | .integer value => .ok (toString value.toInt)
  | _ => fail .idValue

/-- `external_id` -/
def externalId (row : Row) (columns : List Nat) (kind : ImportIdType) :
    Except (Failure ImportError) (Option ExternalId) :=
  if columns.all (cell row · = .null) then .ok none
  else
    match columns with
    | [column] =>
        match kind with
        | .string => (idText (cell row column)).map fun text => some (.string text)
        | .integer | .actual =>
            match cell row column with
            | .integer value => .ok (some (.integer value))
            | .text text =>
                match parseI64 text with
                | some value => .ok (some (.integer value))
                | none => fail (.integerText text)
            | _ => fail .integerValue
    | columns =>
        if kind ≠ .string then fail .compositeId
        else do
          let texts ← columns.mapM fun column => idText (cell row column)
          .ok (some (.string (String.join texts)))

/-- `append_labels`: a member of a list. -/
def listLabel : PropertyValue → Except (Failure ImportError) (List String)
  | .string value => .ok (if value = "" then [] else [value])
  | .null => .ok []
  | _ => fail (.label "LABEL lists must contain strings")

/-- `append_labels`: the labels of a cell. -/
def cellLabels (env : Environment) : Value → Except (Failure ImportError) (List String)
  | .null => .ok []
  | .text label => .ok (if label = "" then [] else [label])
  | .blob value =>
      match env.decodePropertyValue value with
      | none => fail (.label "invalid LABEL value")
      | some (.strings values) => .ok ((values.filterMap id).filter (· ≠ ""))
      | some (.list values) => (values.mapM listLabel).map List.flatten
      | some _ => fail (.label "LABEL value must be a string list")
  | _ => fail (.label "LABEL value must be a string or string list")

/-- The exponent of a float that is not finite. -/
def isFinite (bits : UInt64) : Bool := (bits >>> 52) &&& 0x7FF != 0x7FF

/-- `validate_property_value` -/
def validatePropertyValue (env : Environment) : Value → Except (Failure ImportError) Unit
  | .real bits => if isFinite bits then .ok () else fail .nonfinite
  | .blob value => if (env.decodePropertyValue value).isSome then .ok () else fail .propertyValue
  | _ => .ok ()

/-- `validate_columns`: the names of the properties. -/
def validateNames (seen : List String) :
    List ImportPropertyColumn → Except (Failure ImportError) Unit
  | [] => .ok ()
  | property :: properties =>
      if property.name = "" ∨ property.name ∈ seen then fail (.propertyName property.name)
      else validateNames (property.name :: seen) properties

/-- `validate_columns`: the widths of the rows. -/
def validateWidths (column : Nat) : Nat → List Row → Except (Failure ImportError) Unit
  | _, [] => .ok ()
  | index, row :: rows =>
      if row.length ≤ column then fail (.column (column + 1) (index + 1) row.length)
      else validateWidths column (index + 1) rows

/-- `validate_columns` -/
def validateColumns (rows : List Row) (properties : List ImportPropertyColumn) (other : List Nat) :
    Except (Failure ImportError) Unit := do
  validateNames [] properties
  match (properties.map ImportPropertyColumn.column ++ other).max? with
  | some column => validateWidths column 0 rows
  | none => .ok ()

/-! ## The graph -/

/-- A row of `edge`. -/
structure Edge where
  fromNode : Int64
  toNode : Int64
  typeId : Int64
deriving DecidableEq

/-- The tables of the graph. -/
structure GraphTables where
  node : Map Int64 Int64
  edge : Map Int64 Edge
  nodeProperty : Map (Int64 × Int64) Value
  edgeProperty : Map (Int64 × Int64) Value

/-- An insertion into a table; a key that is there is a constraint violation. -/
def insertUnique {κ ν : Type} [DecidableEq κ] (table : Map κ ν) (key : κ) (value : ν) :
    Except (Failure ImportError) (Map κ ν) :=
  match table.insert key value with
  | (true, table) => .ok table
  | (false, _) => fail .storage

/-- `BodyWriter`; a spool is the list of what it was given. The rows of `node_property` count up
from one. -/
structure BodyWriter where
  node : List (Int64 × Int64)
  edge : List (Int64 × Edge)
  nodeProperty : List Property
  nodePrimary : List Property
  edgeProperty : List Property

/-- `BodyWriter::create` -/
def BodyWriter.create : BodyWriter := ⟨[], [], [], [], []⟩

/-- `BodyWriter::node_property` -/
def BodyWriter.pushNodeProperty (body : BodyWriter) (property : Property) :
    Except (Failure ImportError) BodyWriter :=
  let rowid := body.nodeProperty.length + 1
  if 2 ^ 63 ≤ rowid then fail .propertyRowids
  else if ¬property.Fits then fail .recordSize
  else
    .ok { body with
      nodeProperty := body.nodeProperty ++ [property]
      nodePrimary := body.nodePrimary ++ [⟨property.owner, property.key, .integer (.ofNat rowid)⟩] }

/-- A packed table: the row ids have to increase. -/
def packedTable {ν : Type} (rows : List (Int64 × ν)) : Except (Failure ImportError) (Map Int64 ν) :=
  if h : (rows.map Prod.fst).Pairwise (· < ·) then
    .ok ⟨rows, h.imp Int64.ne_of_lt⟩
  else fail .unordered

/-- Properties, by owner and key. -/
def byKey (properties : List Property) : List ((Int64 × Int64) × Value) :=
  properties.map fun property => ((property.owner, property.key), property.value)

/-- A packed primary index: the owners have to increase and no key of one comes twice. -/
def packedPrimary (properties : List Property) :
    Except (Failure ImportError) (Map (Int64 × Int64) Value) :=
  if h : properties.Pairwise Property.Grouped then
    .ok ⟨byKey properties, by
      rw [byKey, List.map_map, List.Nodup, List.pairwise_map]
      refine h.imp fun hgrouped heq => ?_
      rw [Function.comp_apply, Function.comp_apply, Prod.mk.injEq] at heq
      rcases hgrouped with hlt | ⟨-, hne⟩
      · exact Int64.lt_irrefl (heq.1 ▸ hlt)
      · exact hne heq.2⟩
  else fail .primaryKeys

/-- `BodyWriter::write_tables` -/
def BodyWriter.writeTables (body : BodyWriter) : Except (Failure ImportError) GraphTables := do
  let node ← packedTable body.node
  let edge ← packedTable body.edge
  let _ ← packedPrimary body.nodePrimary
  let nodeProperty ← packedPrimary body.nodeProperty
  let edgeProperty ← packedPrimary body.edgeProperty
  .ok ⟨node, edge, nodeProperty, edgeProperty⟩

/-- Where the rows of the graph are: the spools while there are some, else the tables. -/
structure Store where
  body : Option BodyWriter
  tables : GraphTables

/-- A node is written; whether its id is new. -/
def Store.node (store : Store) (node : ImportNode) : Bool × Store :=
  match store.body with
  | some body =>
      (true, { store with
        body := some { body with node := body.node ++ [(node.id, node.labelGroup)] } })
  | none =>
      let (new, table) := store.tables.node.insert node.id node.labelGroup
      (new, { store with tables := { store.tables with node := table } })

/-- A property of a node is written. -/
def Store.nodeProperty (owner key : Int64) (value : Value) (store : Store) :
    Except (Failure ImportError) Store :=
  match store.body with
  | some body => (body.pushNodeProperty ⟨owner, key, value⟩).map fun body =>
      { store with body := some body }
  | none => (insertUnique store.tables.nodeProperty (owner, key) value).map fun nodeProperty =>
      { store with tables := { store.tables with nodeProperty } }

/-- A relationship is written. -/
def Store.edge (store : Store) (id : Int64) (edge : Edge) : Except (Failure ImportError) Store :=
  match store.body with
  | some body => .ok { store with body := some { body with edge := body.edge ++ [(id, edge)] } }
  | none => (insertUnique store.tables.edge id edge).map fun table =>
      { store with tables := { store.tables with edge := table } }

/-- A property of a relationship is written. -/
def Store.edgeProperty (owner key : Int64) (value : Value) (store : Store) :
    Except (Failure ImportError) Store :=
  match store.body with
  | some body =>
      .ok { store with
        body := some { body with edgeProperty := body.edgeProperty ++ [⟨owner, key, value⟩] } }
  | none => (insertUnique store.tables.edgeProperty (owner, key) value).map fun edgeProperty =>
      { store with tables := { store.tables with edgeProperty } }

/-! ## The cache -/

/-- `IdCache` -/
structure IdCache where
  entries : Int64 → Int64 → Option ImportNode
  stringEntries : Int64 → String → Option ImportNode
  bytes : Nat
  limit : Nat

/-- `IdCache::get` -/
def IdCache.get (cache : IdCache) (group : Int64) : ExternalId → Option ImportNode
  | .integer id => cache.entries group id
  | .string id => cache.stringEntries group id

/-- The bytes that an entry is charged. -/
def entryBytes : ExternalId → Nat
  | .integer _ => 96
  | .string value => 96 + value.utf8ByteSize

/-- The cache with an entry added or replaced. -/
def IdCache.put (cache : IdCache) (group : Int64) (id : ExternalId) (node : ImportNode) : IdCache :=
  match id with
  | .integer id =>
      { cache with
        entries := Function.update cache.entries group
          (Function.update (cache.entries group) id (some node)) }
  | .string id =>
      { cache with
        stringEntries := Function.update cache.stringEntries group
          (Function.update (cache.stringEntries group) id (some node)) }

/-- `IdCache::insert` -/
def IdCache.insert (cache : IdCache) (group : Int64) (id : ExternalId)
    (node : ImportNode) : IdCache :=
  let bytes := entryBytes id
  if cache.limit < bytes then cache
  else
    let cache :=
      if cache.limit < cache.bytes + bytes then
        { cache with entries := fun _ _ => none, stringEntries := fun _ _ => none, bytes := 0 }
      else cache
    let inserted := (cache.get group id).isNone
    let cache := cache.put group id node
    if inserted then { cache with bytes := cache.bytes + bytes } else cache

/-- The ids of the groups: the integer-ID map, the table of the others and the cache. -/
structure Ids where
  integerIds : IntegerIdMap
  externalIds : ExternalIds
  idCache : IdCache

/-! ## The import -/

/-- `ImportCounts` -/
structure ImportCounts where
  nodes : Nat
  relationships : Nat
  skippedNodes : Nat
  skippedRelationships : Nat
deriving DecidableEq

/-- The dictionaries with their caches. -/
structure Names where
  labels : LabelGroups.OfflineImport
  keys : String → Option Int
  keyDict : Table String Unit
  edgeTypes : String → Option Int
  edgeTypeDict : Table String Unit

/-- `OfflineImport`, with the tables behind its connection. A call after one that failed fails as
well, so runs end there. -/
structure OfflineImport where
  store : Store
  bodyDisabled : Bool
  names : Names
  groups : Map String Int64
  groupIdTypes : Map String ImportIdType
  ids : Ids
  shapeCounts : ShapeCounts
  nextNodeId : Int64
  nextEdgeId : Int64
  counts : ImportCounts
  properties : Nat
  relationshipsStarted : Bool

/-- A dictionary without names. -/
def emptyDict : Table String Unit := .empty

/-- `OfflineImport::create` -/
def OfflineImport.create (memoryBytes : Nat) : OfflineImport :=
  let budget := if memoryBytes = 0 then 256 * 1024 * 1024 else max memoryBytes (64 * 1024)
  { store := ⟨none, ⟨.empty, .empty, .empty, .empty⟩⟩
    bodyDisabled := false
    names := ⟨LabelGroups.freshImport, fun _ => none, emptyDict, fun _ => none, emptyDict⟩
    groups := .empty
    groupIdTypes := .empty
    ids :=
      { integerIds := .new <|
          if 512 * 1024 * 1024 ≤ budget then min (budget / 2) (256 * 1024 * 1024)
          else min (budget / 16 * 3) (128 * 1024 * 1024)
        externalIds := .empty
        idCache := ⟨fun _ _ => none, fun _ _ => none, 0, min (budget / 32) (32 * 1024 * 1024)⟩ }
    shapeCounts := ⟨.empty, max (budget / 32 / 128) 1, .empty⟩
    nextNodeId := 1
    nextEdgeId := 1
    counts := ⟨0, 0, 0, 0⟩
    properties := 0
    relationshipsStarted := false }

/-- An error of the database. -/
def sqlError {α : Type} (x : Except SqlError α) : Except (Failure ImportError) α :=
  x.mapError fun _ => .error .storage

/-- An error of the integer-ID map. -/
def idError {α : Type} (x : Except (Failure String) α) : Except (Failure ImportError) α :=
  x.mapError fun
    | .error message => .error (.integerIds message)
    | .panic => .panic

/-- `OfflineImport::group`; a map never has so many entries that the sum overflows. -/
def groupOf (groups : Map String Int64) (name : String) :
    Except (Failure ImportError) (Int64 × Map String Int64) :=
  match groups.find name with
  | some id => .ok (id, groups)
  | none =>
      let id := groups.entries.length + 1
      if 2 ^ 63 ≤ id then .error .panic else .ok (.ofNat id, (groups.insert name (.ofNat id)).2)

/-- `resolve_property_keys` -/
def Names.propertyKeys (names : Names) (properties : List ImportPropertyColumn) :
    Except (Failure ImportError) (List Int64 × Names) := do
  let (ids, keys, keyDict) ← sqlError
    (LabelGroups.resolveNames names.keys names.keyDict (properties.map (·.name)))
  .ok (ids.map .ofInt, { names with keys, keyDict })

/-- `resolve_dict` for a relationship type. -/
def Names.edgeType (names : Names) (name : String) : Except (Failure ImportError)
    (Int64 × Names) := do
  let (id, edgeTypes, edgeTypeDict) ← sqlError
    (LabelGroups.resolveDict names.edgeTypes names.edgeTypeDict name)
  .ok (.ofInt id, { names with edgeTypes, edgeTypeDict })

/-- `resolve_label_group` -/
def Names.labelGroup (env : Environment) (names : Names) (labels : List String) :
    Except (Failure ImportError) (Int64 × Names) :=
  match LabelGroups.resolveLabelGroup env.toJson names.labels labels with
  | .ok (id, labels) => .ok (.ofInt id, { names with labels })
  | .error .emptyLabel => fail .emptyLabel
  | .error (.storage _) => fail .storage

/-- What a row is written to: the rows of the graph and the shape counts. -/
structure Sink where
  store : Store
  slots : BatchShapeCounts
  shapeCounts : ShapeCounts

/-- `batch_shapes.increment` -/
def Sink.increment (sink : Sink) (slot : Nat) (key : ShapeKey) :
    Except (Failure ImportError) Sink := do
  let (slots, shapeCounts) ← Native.increment sink.slots sink.shapeCounts slot key
  .ok { sink with slots, shapeCounts }

/-- The loop over the properties of a row, from a slot on. What it does with a key is a parameter:
nodes and relationships differ there. -/
def storeProperties (env : Environment) (row : Row)
    (store : Int64 → Value → Store → Except (Failure ImportError) Store)
    (shape : Int64 → PropertyShape → ShapeKey) :
    Nat → List (ImportPropertyColumn × Int64) → Sink →
      Except (Failure ImportError) (List (Int64 × Value) × Sink)
  | _, [], sink => .ok ([], sink)
  | slot, (property, key) :: properties, sink =>
      if cell row property.column = .null then
        storeProperties env row store shape (slot + 1) properties sink
      else do
        validatePropertyValue env (cell row property.column)
        let written ← store key (cell row property.column) sink.store
        let propertyShape ← PropertyShape.of (cell row property.column)
        let sink ← { sink with store := written }.increment slot (shape key propertyShape)
        let (stored, sink) ← storeProperties env row store shape (slot + 1) properties sink
        .ok ((key, cell row property.column) :: stored, sink)

/-- A batch while its rows are appended. -/
structure Batch where
  st : OfflineImport
  slots : BatchShapeCounts

/-- What the rows of a batch are written to. -/
def Batch.sink (b : Batch) : Sink := ⟨b.st.store, b.slots, b.st.shapeCounts⟩

/-- A batch with what a row has written. -/
def Batch.write (b : Batch) (sink : Sink) : Batch :=
  ⟨{ b.st with store := sink.store, shapeCounts := sink.shapeCounts }, sink.slots⟩

/-! ## Nodes -/

/-- A row that became a node. -/
structure AcceptedNode where
  kind : ImportIdType
  group : String
  declared : Option ExternalId
  node : ImportNode
  properties : List (Int64 × Value)

/-- What the rows of a batch have in common. -/
structure NodeBatch where
  spec : NodeImportSpec
  group : Int64
  fixedGroup : Option Int64
  properties : List (ImportPropertyColumn × Int64)

/-- The id of a row's node. -/
def assignId (kind : ImportIdType) (external : Option ExternalId) (next : Int64) :
    Except (Failure ImportError) Int64 :=
  match kind, external with
  | .actual, some (.integer id) => if 0 ≤ id then .ok id else fail .actualId
  | .actual, some (.string _) => fail .actualId
  | _, _ => .ok next

/-- The label group of a row. -/
def NodeBatch.labelGroup (env : Environment) (batch : NodeBatch) (row : Row) (names : Names) :
    Except (Failure ImportError) (Int64 × Names) :=
  match batch.fixedGroup with
  | some group => .ok (group, names)
  | none => do
      let labels ← batch.spec.labelColumns.mapM fun column => cellLabels env (cell row column)
      names.labelGroup env (batch.spec.labels ++ labels.flatten)

/-- The id of a row is recorded in its group; whether it is new. -/
def Ids.declare (env : Environment) (ids : Ids) (kind : ImportIdType) (group : Int64)
    (external : Option ExternalId) (node : ImportNode) :
    Except (Failure ImportError) (Bool × Ids) :=
  if kind = .actual then .ok (true, ids)
  else
    match external with
    | none => .ok (true, ids)
    | some (.integer id) => do
        let (new, integerIds, externalIds) ← idError
          (ids.integerIds.insert env.platform ids.externalIds group id node)
        .ok (new, { ids with integerIds, externalIds })
    | some (.string id) =>
        let (new, externalIds) := ids.externalIds.insert (group, .string id) node
        .ok (new, { ids with externalIds })

/-- `IntegerIdMap::is_direct` -/
def isDirect (m : IntegerIdMap) (group : Int64) : Bool :=
  match m.groups[group.toUInt64.toNat]? with
  | some (.affine _) | some (.paged _) => true
  | _ => false

/-- The id of a row is put to the cache. -/
def Ids.cache (ids : Ids) (kind : ImportIdType) (group : Int64) (external : Option ExternalId)
    (node : ImportNode) : Ids :=
  match external with
  | none => ids
  | some id =>
      if kind ≠ .integer ∨ ¬isDirect ids.integerIds group then
        let group := if kind = .actual then 0 else group
        { ids with idCache := ids.idCache.insert group id node }
      else ids

/-- The next node id stays behind those that are used. -/
def nextNode (next id : Int64) : Except (Failure ImportError) Int64 :=
  if next ≤ id then if id.toInt + 1 < 2 ^ 63 then .ok (id + 1) else fail .nodeIds
  else .ok next

/-- `append_nodes_inner`: a row whose id is recorded and whose node is written. -/
def NodeBatch.accept (env : Environment) (batch : NodeBatch) (row : Row)
    (external : Option ExternalId) (node : ImportNode) (b : Batch) :
    Except (Failure ImportError) (AcceptedNode × Batch) := do
  let sink ← b.sink.increment 0 (.node node.labelGroup)
  let (properties, sink) ← storeProperties env row (Store.nodeProperty node.id)
    (.nodeProperty node.labelGroup) 1 batch.properties sink
  let b := b.write sink
  let nextNodeId ← nextNode b.st.nextNodeId node.id
  let ids := b.st.ids.cache batch.spec.idType batch.group external node
  .ok (⟨batch.spec.idType, batch.spec.idGroup, external, node, properties⟩,
    { b with st := { b.st with ids, nextNodeId } })

/-- `append_nodes_inner`: a row, by its number. -/
def NodeBatch.row (env : Environment) (batch : NodeBatch) (number : Nat) (row : Row) (b : Batch) :
    Except (Failure ImportError) (Option AcceptedNode × Batch) := do
  let external ← externalId row batch.spec.idColumns batch.spec.idType
  let id ← assignId batch.spec.idType external b.st.nextNodeId
  let (labelGroup, names) ← batch.labelGroup env row b.st.names
  let (new, ids) ← b.st.ids.declare env batch.spec.idType batch.group external ⟨id, labelGroup⟩
  let st := { b.st with names, ids }
  if ¬new then
    if batch.spec.skipDuplicates then .ok (none, { b with st })
    else fail (.duplicateId batch.spec.idGroup (number + 1))
  else
    let (inserted, store) := st.store.node ⟨id, labelGroup⟩
    if ¬inserted then
      if batch.spec.skipDuplicates then .ok (none, { b with st := { st with store } })
      else fail (.duplicateActual id (number + 1))
    else do
      let (accepted, b) ← batch.accept env row external ⟨id, labelGroup⟩
        { b with st := { st with store } }
      .ok (some accepted, b)

/-- `append_nodes_inner`: the rows from a number on. -/
def NodeBatch.rows (env : Environment) (batch : NodeBatch) :
    Nat → List Row → Batch → Except (Failure ImportError) (List (Option AcceptedNode) × Batch)
  | _, [], b => .ok ([], b)
  | number, row :: rows, b => do
      let (outcome, b) ← batch.row env number row b
      let (outcomes, b) ← batch.rows env (number + 1) rows b
      .ok (outcome :: outcomes, b)

/-- The spools, or the tables once an ACTUAL batch has had rows: the spools are written first. -/
def OfflineImport.prepareBody (st : OfflineImport) (kind : ImportIdType) :
    Except (Failure ImportError) OfflineImport :=
  if kind = .actual then
    match st.store.body with
    | some body => body.writeTables.map fun tables =>
        { st with store := ⟨none, tables⟩, bodyDisabled := true }
    | none => .ok { st with bodyDisabled := true }
  else if st.store.body.isNone ∧ ¬st.bodyDisabled then
    .ok { st with store := { st.store with body := some .create } }
  else .ok st

/-- A batch without rows leaves the rows where they are. -/
def OfflineImport.prepareRows (st : OfflineImport) (kind : ImportIdType) (rows : List Row) :
    Except (Failure ImportError) OfflineImport :=
  if rows.isEmpty then .ok st else st.prepareBody kind

/-- The id type of a group is declared once. -/
def declareType (types : Map String ImportIdType) (spec : NodeImportSpec) :
    Except (Failure ImportError) (Map String ImportIdType) :=
  if spec.idColumns.isEmpty then .ok types
  else
    match types.find spec.idGroup with
    | some kind => if kind ≠ spec.idType then fail (.idTypes spec.idGroup) else .ok types
    | none => .ok (types.insert spec.idGroup spec.idType).2

/-- The label group of all rows, where no column has labels. -/
def Names.fixedGroup (env : Environment) (names : Names) (spec : NodeImportSpec) :
    Except (Failure ImportError) (Option Int64 × Names) :=
  if spec.labelColumns.isEmpty then
    (names.labelGroup env spec.labels).map fun (group, names) => (some group, names)
  else .ok (none, names)

/-- `append_nodes_inner`, up to the first row. -/
def OfflineImport.nodeBatch (env : Environment) (st : OfflineImport) (spec : NodeImportSpec)
    (rows : List Row) : Except (Failure ImportError) (NodeBatch × OfflineImport) :=
  if st.relationshipsStarted then fail .nodesAfterRelationships
  else if spec.idType ≠ .string ∧ 1 < spec.idColumns.length then fail .compositeId
  else do
    validateColumns rows spec.properties (spec.idColumns ++ spec.labelColumns)
    if spec.labels.any (· = "") then fail .emptyLabel
    else do
      let st ← st.prepareRows spec.idType rows
      let groupIdTypes ← declareType st.groupIdTypes spec
      let (group, groups) ← groupOf st.groups spec.idGroup
      let (keys, names) ← st.names.propertyKeys spec.properties
      let (fixedGroup, names) ← names.fixedGroup env spec
      .ok (⟨spec, group, fixedGroup, spec.properties.zip keys⟩,
        { st with groupIdTypes, groups, names })

/-- `append_nodes_inner` -/
def OfflineImport.appendNodes (env : Environment) (st : OfflineImport) (spec : NodeImportSpec)
    (rows : List Row) :
    Except (Failure ImportError) (List (Option AcceptedNode) × OfflineImport) := do
  let (batch, st) ← st.nodeBatch env spec rows
  let (outcomes, b) ← batch.rows env 0 rows ⟨st, .new spec.properties.length⟩
  let shapeCounts ← flushSlots b.slots b.st.shapeCounts
  let accepted := outcomes.filterMap id
  .ok (outcomes,
    { b.st with
      shapeCounts
      counts :=
        { b.st.counts with
          nodes := b.st.counts.nodes + accepted.length
          skippedNodes := b.st.counts.skippedNodes + (outcomes.length - accepted.length) }
      properties := b.st.properties + (accepted.map (·.properties.length)).sum })

/-! ## Relationships -/

/-- A row that became a relationship. -/
structure AcceptedEdge where
  id : Int64
  edge : Edge
  source : ImportNode
  target : ImportNode
  properties : List (Int64 × Value)

/-- What the rows of a batch have in common. -/
structure RelationshipBatch where
  spec : RelationshipImportSpec
  startType : ImportIdType
  endType : ImportIdType
  startGroup : Int64
  endGroup : Int64
  fixedType : Option Int64
  properties : List (ImportPropertyColumn × Int64)

/-- `lookup_node`: the node of an id that is not in the cache. -/
def OfflineImport.query (st : OfflineImport) (group : Int64) (kind : ImportIdType)
    (id : ExternalId) :
    Option ImportNode :=
  match kind, id with
  | .actual, .integer id => (st.store.tables.node.find id).map fun labelGroup => ⟨id, labelGroup⟩
  | .actual, .string _ => none
  | _, id => st.ids.externalIds.find (group, id)

/-- `lookup_node` -/
def OfflineImport.lookupNode (st : OfflineImport) (group : Int64) (kind : ImportIdType) :
    Option ExternalId → Except (Failure ImportError) (Option ImportNode × OfflineImport)
  | none => .ok (none, st)
  | some id => do
      let direct ← match kind, id with
        | .integer, .integer id => idError (st.ids.integerIds.lookup group id)
        | _, _ => .ok .disk
      match direct with
      | .found node => .ok (some node, st)
      | .missing => .ok (none, st)
      | .disk =>
          let group := if kind = .actual then 0 else group
          match st.ids.idCache.get group id with
          | some node => .ok (some node, st)
          | none =>
              match st.query group kind id with
              | some node =>
                  let idCache := st.ids.idCache.insert group id node
                  .ok (some node, { st with ids := { st.ids with idCache } })
              | none => .ok (none, st)

/-- The type of a row's relationship. -/
def RelationshipBatch.typeOf (batch : RelationshipBatch) (number : Nat) (row : Row)
    (names : Names) :
    Except (Failure ImportError) (Int64 × Names) :=
  match batch.spec.typeColumn.map (cell row) with
  | some (.text name) =>
      if name = "" then fail (.emptyTypeCell (number + 1)) else names.edgeType name
  | none | some .null =>
      match batch.fixedType with
      | some id => .ok (id, names)
      | none => fail (.missingType (number + 1))
  | _ => fail (.typeCell (number + 1))

/-- `append_relationships_inner`: a row whose endpoints are found. -/
def RelationshipBatch.accept (env : Environment) (batch : RelationshipBatch) (number : Nat)
    (row : Row) (source target : ImportNode) (b : Batch) :
    Except (Failure ImportError) (AcceptedEdge × Batch) := do
  let (typeId, names) ← batch.typeOf number row b.st.names
  let id := b.st.nextEdgeId
  let edge : Edge := ⟨source.id, target.id, typeId⟩
  let store ← b.st.store.edge id edge
  let sink ← { b.sink with store }.increment 0 (.edge typeId source.labelGroup target.labelGroup)
  let (properties, sink) ← storeProperties env row (Store.edgeProperty id)
    (.edgeProperty typeId source.labelGroup target.labelGroup) 1 batch.properties sink
  let b := b.write sink
  if id.toInt + 1 < 2 ^ 63 then
    .ok (⟨id, edge, source, target, properties⟩,
      { b with st := { b.st with names, nextEdgeId := id + 1 } })
  else fail .edgeIds

/-- `append_relationships_inner`: a row, by its number. -/
def RelationshipBatch.row (env : Environment) (batch : RelationshipBatch) (number : Nat) (row : Row)
    (b : Batch) : Except (Failure ImportError) (Option AcceptedEdge × Batch) := do
  let startId ← externalId row batch.spec.startColumns batch.startType
  let endId ← externalId row batch.spec.endColumns batch.endType
  let (start, st) ← b.st.lookupNode batch.startGroup batch.startType startId
  let (stop, st) ← st.lookupNode batch.endGroup batch.endType endId
  match start, stop with
  | some source, some target => do
      let (accepted, b) ← batch.accept env number row source target { b with st }
      .ok (some accepted, b)
  | _, _ =>
      if batch.spec.skipBadRelationships then .ok (none, { b with st })
      else fail (.endpoint (number + 1))

/-- `append_relationships_inner`: the rows from a number on. -/
def RelationshipBatch.rows (env : Environment) (batch : RelationshipBatch) :
    Nat → List Row → Batch → Except (Failure ImportError) (List (Option AcceptedEdge) × Batch)
  | _, [], b => .ok ([], b)
  | number, row :: rows, b => do
      let (outcome, b) ← batch.row env number row b
      let (outcomes, b) ← batch.rows env (number + 1) rows b
      .ok (outcome :: outcomes, b)

/-- The first rows of a relationship batch seal the integer ids. -/
def OfflineImport.startRelationships (st : OfflineImport) (rows : List Row) :
    Except (Failure ImportError) OfflineImport :=
  if rows.isEmpty then .ok st
  else if st.relationshipsStarted then .ok st
  else (idError (st.ids.integerIds.seal st.ids.externalIds)).map fun (integerIds, externalIds) =>
    { st with ids := { st.ids with integerIds, externalIds }, relationshipsStarted := true }

/-- The type of all rows that name none. -/
def Names.fixedType (names : Names) :
    Option String → Except (Failure ImportError) (Option Int64 × Names)
  | some name => (names.edgeType name).map fun (id, names) => (some id, names)
  | none => .ok (none, names)

/-- The id type of a group that endpoints are looked up in. -/
def OfflineImport.endpointType (st : OfflineImport) (spec : RelationshipImportSpec)
    (group : String) :
    ImportIdType :=
  (st.groupIdTypes.find group).getD spec.idType

/-- `append_relationships_inner`, up to the first row. -/
def OfflineImport.relationshipBatch (st : OfflineImport) (spec : RelationshipImportSpec)
    (rows : List Row) : Except (Failure ImportError) (RelationshipBatch × OfflineImport) :=
  let startType := st.endpointType spec spec.startGroup
  let endType := st.endpointType spec spec.endGroup
  if spec.startColumns.isEmpty ∨ spec.endColumns.isEmpty then fail .endpointColumns
  else if (startType ≠ .string ∧ spec.startColumns.length ≠ 1) ∨
      (endType ≠ .string ∧ spec.endColumns.length ≠ 1) then fail .compositeId
  else if spec.relationshipType = some "" then fail .emptyType
  else if spec.relationshipType = none ∧ spec.typeColumn = none then fail .noType
  else do
    validateColumns rows spec.properties
      (spec.startColumns ++ spec.endColumns ++ spec.typeColumn.toList)
    let (startGroup, groups) ← groupOf st.groups spec.startGroup
    let (endGroup, groups) ← groupOf groups spec.endGroup
    let st ← { st with groups }.startRelationships rows
    let (keys, names) ← st.names.propertyKeys spec.properties
    let (fixedType, names) ← names.fixedType spec.relationshipType
    .ok (⟨spec, startType, endType, startGroup, endGroup, fixedType, spec.properties.zip keys⟩,
      { st with names })

/-- `append_relationships_inner` -/
def OfflineImport.appendRelationships (env : Environment) (st : OfflineImport)
    (spec : RelationshipImportSpec) (rows : List Row) :
    Except (Failure ImportError) (List (Option AcceptedEdge) × OfflineImport) := do
  let (batch, st) ← st.relationshipBatch spec rows
  let (outcomes, b) ← batch.rows env 0 rows ⟨st, .new spec.properties.length⟩
  let shapeCounts ← flushSlots b.slots b.st.shapeCounts
  let accepted := outcomes.filterMap id
  .ok (outcomes,
    { b.st with
      shapeCounts
      counts :=
        { b.st.counts with
          relationships := b.st.counts.relationships + accepted.length
          skippedRelationships :=
            b.st.counts.skippedRelationships + (outcomes.length - accepted.length) }
      properties := b.st.properties + (accepted.map (·.properties.length)).sum })

/-! ## Runs -/

/-- A call. -/
inductive Call where
  | nodes (spec : NodeImportSpec) (rows : List Row)
  | relationships (spec : RelationshipImportSpec) (rows : List Row)

/-- The rows that were accepted. -/
structure Graph where
  nodes : List AcceptedNode
  edges : List AcceptedEdge

/-- A call, with the rows that were accepted before it. -/
def step (env : Environment) (st : Graph × OfflineImport) :
    Call → Except (Failure ImportError) (Graph × OfflineImport)
  | .nodes spec rows => (st.2.appendNodes env spec rows).map fun (outcomes, imp) =>
      ({ st.1 with nodes := st.1.nodes ++ outcomes.filterMap id }, imp)
  | .relationships spec rows => (st.2.appendRelationships env spec rows).map fun (outcomes, imp) =>
      ({ st.1 with edges := st.1.edges ++ outcomes.filterMap id }, imp)

/-- The calls of an import in which none fails, and the rows they accept. -/
def run (env : Environment) (memoryBytes : Nat) (calls : List Call) :
    Except (Failure ImportError) (Graph × OfflineImport) :=
  calls.foldlM (step env) (⟨[], []⟩, .create memoryBytes)

/-- The states of an import in which no call fails, between its calls and between the rows of one,
and the rows accepted until then. -/
inductive Reached (env : Environment) (memoryBytes : Nat) : Graph → OfflineImport → Prop
  | calls {calls : List Call} {g : Graph} {st : OfflineImport} :
      run env memoryBytes calls = .ok (g, st) → Reached env memoryBytes g st
  | nodes {calls : List Call} {g : Graph} {st st' : OfflineImport} {spec : NodeImportSpec}
      {rows front back : List Row} {batch : NodeBatch} {outcomes : List (Option AcceptedNode)}
      {b : Batch} :
      run env memoryBytes calls = .ok (g, st) → rows = front ++ back →
      st.nodeBatch env spec rows = .ok (batch, st') →
      batch.rows env 0 front ⟨st', .new spec.properties.length⟩ = .ok (outcomes, b) →
      Reached env memoryBytes { g with nodes := g.nodes ++ outcomes.filterMap id } b.st
  | relationships {calls : List Call} {g : Graph} {st st' : OfflineImport}
      {spec : RelationshipImportSpec} {rows front back : List Row} {batch : RelationshipBatch}
      {outcomes : List (Option AcceptedEdge)} {b : Batch} :
      run env memoryBytes calls = .ok (g, st) → rows = front ++ back →
      st.relationshipBatch spec rows = .ok (batch, st') →
      batch.rows env 0 front ⟨st', .new spec.properties.length⟩ = .ok (outcomes, b) →
      Reached env memoryBytes { g with edges := g.edges ++ outcomes.filterMap id } b.st

/-- `OfflineImport::finish`: the tables of the graph. -/
def OfflineImport.finishTables (st : OfflineImport) : Except (Failure ImportError) GraphTables :=
  match st.store.body with
  | some body => body.writeTables
  | none => .ok st.store.tables

end Velr.Native
