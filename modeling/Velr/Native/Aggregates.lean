import Velr.Common.Grouping
import Velr.Common.JsonString
import Velr.Native.Integrity

/-!
# Graph-shape statistics

`IMPORT_SHAPE_FINISH`, which spreads the counts of an import over the labels of their label groups,
and `GRAPH_SHAPE_BACKFILL`, which counts the rows of the finished tables. They give the same
statistics (`shape_statistics_exact`): what was counted are the shapes of the rows that were
accepted (`Sound`), and the tables are these rows.
-/

namespace Velr.Native

open FirstWins (Map firstOf_of_mem firstOf_eq_none)
open Grouping (groupBy countBy tableOf)
open IdMap (Failure)
open LabelGroups (Member)
open Record (Value)

/-! ## The statements -/

/-- `LEFT JOIN label_group_member`, with `COALESCE(type_id, 0)`: the labels of a group. -/
def labelsOf (members : List Member) (group : Int64) : List Int :=
  match members.filter (·.groupId = group.toInt) with
  | [] => [0]
  | rows => rows.map (·.typeId)

/-- `printf('%02X', byte)`, and `hex` of one byte -/
def hexByte (byte : UInt8) : String :=
  .ofList [JsonString.hexDigit (byte.toNat / 16), JsonString.hexDigit (byte.toNat % 16)]

/-- The columns `storage_class` and `tag` of the statistics. -/
structure ShapeText where
  storageClass : String
  tag : String
deriving DecidableEq

/-- `CASE s.storage_class WHEN 0 THEN 'integer' …`, `CASE WHEN s.storage_class=3 …` -/
def PropertyShape.text (shape : PropertyShape) : ShapeText where
  storageClass :=
    match shape.storageClass with
    | 0 => "integer"
    | 1 => "real"
    | 2 => "text"
    | _ => "blob"
  tag := if shape.storageClass = 3 then hexByte shape.tag else ""

/-- `typeof(value)`, `hex(substr(value, 1, 1))` -/
def ShapeText.of : Value → ShapeText
  | .null => ⟨"null", ""⟩
  | .integer _ => ⟨"integer", ""⟩
  | .real _ => ⟨"real", ""⟩
  | .text _ => ⟨"text", ""⟩
  | .blob [] => ⟨"blob", ""⟩
  | .blob (byte :: _) => ⟨"blob", hexByte byte⟩

/-- The tables `graph_shape_…`: their keys with the counts. A relationship has its type and the
labels of its source and of its target. -/
structure GraphShape where
  nodeScope : List (Int × Nat)
  nodeProperty : List ((Int × Int64 × ShapeText) × Nat)
  edgeScope : List ((Int64 × Int × Int) × Nat)
  edgeProperty : List (((Int64 × Int × Int) × Int64 × ShapeText) × Nat)

/-- The key of a row of `import_ids.shape_node` -/
def ShapeKey.inNode : ShapeKey → Option Int64
  | .node labelGroup => some labelGroup
  | _ => none

/-- The key of a row of `import_ids.shape_node_property` -/
def ShapeKey.inNodeProperty : ShapeKey → Option (Int64 × Int64 × PropertyShape)
  | .nodeProperty labelGroup key shape => some (labelGroup, key, shape)
  | _ => none

/-- The key of a row of `import_ids.shape_edge` -/
def ShapeKey.inEdge : ShapeKey → Option (Int64 × Int64 × Int64)
  | .edge kind source target => some (kind, source, target)
  | _ => none

/-- The key of a row of `import_ids.shape_edge_property` -/
def ShapeKey.inEdgeProperty :
    ShapeKey → Option ((Int64 × Int64 × Int64) × Int64 × PropertyShape)
  | .edgeProperty kind source target key shape => some ((kind, source, target), key, shape)
  | _ => none

section
variable (members : List Member)

/-- The labels of both ends of a relationship between nodes of two groups. -/
def edgeScopes (kind source target : Int64) : List (Int64 × Int × Int) :=
  (labelsOf members source).flatMap fun sourceLabel =>
    (labelsOf members target).map fun targetLabel => (kind, sourceLabel, targetLabel)

/-- `IMPORT_SHAPE_FINISH` -/
def importShapeFinish (spilled : Map ShapeKey Nat) : GraphShape where
  nodeScope := groupBy <| (tableOf ShapeKey.inNode spilled.entries).flatMap fun row =>
    (labelsOf members row.1).map (·, row.2)
  nodeProperty :=
    (groupBy <| (tableOf ShapeKey.inNodeProperty spilled.entries).flatMap fun row =>
      ((labelsOf members row.1.1).map fun label => (label, row.1.2)).map (·, row.2)).map
        fun group => ((group.1.1, group.1.2.1, group.1.2.2.text), group.2)
  edgeScope := groupBy <| (tableOf ShapeKey.inEdge spilled.entries).flatMap fun row =>
    (edgeScopes members row.1.1 row.1.2.1 row.1.2.2).map (·, row.2)
  edgeProperty :=
    (groupBy <| (tableOf ShapeKey.inEdgeProperty spilled.entries).flatMap fun row =>
      ((edgeScopes members row.1.1.1 row.1.1.2.1 row.1.1.2.2).map fun scope =>
        (scope, row.1.2)).map (·, row.2)).map
        fun group => ((group.1.1, group.1.2.1, group.1.2.2.text), group.2)

/-- `JOIN node` by its id -/
def GraphTables.joinNode (tables : GraphTables) (id : Int64) : List (Int64 × Int64) :=
  tables.node.entries.filter (·.1 = id)

/-- The joins of `edge AS e` with its ends and with their labels. -/
def GraphTables.joinEnds (tables : GraphTables) (edge : Edge) : List (Int64 × Int × Int) :=
  (tables.joinNode edge.fromNode).flatMap fun source =>
    (tables.joinNode edge.toNode).flatMap fun target =>
      edgeScopes members edge.typeId source.2 target.2

/-- `GRAPH_SHAPE_BACKFILL` -/
def graphShapeBackfill (tables : GraphTables) : GraphShape where
  nodeScope := countBy <| tables.node.entries.flatMap fun node => labelsOf members node.2
  nodeProperty := countBy <| tables.node.entries.flatMap fun node =>
    (labelsOf members node.2).flatMap fun label =>
      (tables.nodeProperty.entries.filter (·.1.1 = node.1)).map fun property =>
        (label, property.1.2, ShapeText.of property.2)
  edgeScope := countBy <| tables.edge.entries.flatMap fun edge => tables.joinEnds members edge.2
  edgeProperty := countBy <| tables.edge.entries.flatMap fun edge =>
    (tables.edgeProperty.entries.filter (·.1.1 = edge.1)).flatMap fun property =>
      (tables.joinEnds members edge.2).map fun scope =>
        (scope, property.1.2, ShapeText.of property.2)

end

/-- The same rows in every table. -/
structure GraphShape.Same (shape shape' : GraphShape) : Prop where
  nodeScope : shape.nodeScope.Perm shape'.nodeScope
  nodeProperty : shape.nodeProperty.Perm shape'.nodeProperty
  edgeScope : shape.edgeScope.Perm shape'.edgeScope
  edgeProperty : shape.edgeProperty.Perm shape'.edgeProperty

/-- No key comes twice in a table. -/
structure GraphShape.Keyed (shape : GraphShape) : Prop where
  nodeScope : (shape.nodeScope.map Prod.fst).Nodup
  nodeProperty : (shape.nodeProperty.map Prod.fst).Nodup
  edgeScope : (shape.edgeScope.map Prod.fst).Nodup
  edgeProperty : (shape.edgeProperty.map Prod.fst).Nodup

/-- Tables of the same rows have the same keys. -/
theorem GraphShape.Same.keyed {shape shape' : GraphShape} (h : shape.Same shape')
    (hkeyed : shape'.Keyed) : shape.Keyed where
  nodeScope := (h.nodeScope.map _).nodup_iff.mpr hkeyed.nodeScope
  nodeProperty := (h.nodeProperty.map _).nodup_iff.mpr hkeyed.nodeProperty
  edgeScope := (h.edgeScope.map _).nodup_iff.mpr hkeyed.edgeScope
  edgeProperty := (h.edgeProperty.map _).nodup_iff.mpr hkeyed.edgeProperty

/-- Each table of the backfill has a row for each key. -/
theorem graphShapeBackfill_keyed (members : List Member) (tables : GraphTables) :
    (graphShapeBackfill members tables).Keyed :=
  ⟨Grouping.nodup_groupBy _, Grouping.nodup_groupBy _, Grouping.nodup_groupBy _,
    Grouping.nodup_groupBy _⟩

/-! ## Storage classes and tags -/

/-- The text of a shape is that of its value. -/
theorem text_of {value : Value} {shape : PropertyShape} (h : PropertyShape.of value = .ok shape) :
    shape.text = ShapeText.of value := by
  unfold PropertyShape.of at h
  split at h
  · cases h
    rfl
  · cases h
    rfl
  · cases h
    rfl
  · cases h
    rfl
  · cases h
  · cases h

/-- A byte is determined by its two digits. -/
theorem hexByte_injective {byte byte' : UInt8} (h : hexByte byte = hexByte byte') :
    byte = byte' := by
  rw [hexByte, hexByte, String.ofList_inj, List.cons.injEq, List.cons.injEq] at h
  obtain ⟨hhigh, hlow, -⟩ := h
  have hdigit : ∀ {n m : Nat}, n < 16 → m < 16 → JsonString.hexDigit n = JsonString.hexDigit m →
      n = m := by
    intro n m hn hm heq
    have hvalue := JsonString.hexValue_hexDigit hn
    rw [heq, JsonString.hexValue_hexDigit hm, Option.some.injEq] at hvalue
    exact hvalue.symm
  have hlt := byte.toNat_lt
  have hlt' := byte'.toNat_lt
  have hhigh := hdigit (by omega) (by omega) hhigh
  have hlow := hdigit (by omega) (by omega) hlow
  refine UInt8.toNat_inj.mp ?_
  omega

/-- A shape that some value has. -/
def PropertyShape.Occurs (shape : PropertyShape) : Prop :=
  ∃ value, PropertyShape.of value = .ok shape

/-- Shapes of values are told apart by their texts. -/
theorem text_injective {shape shape' : PropertyShape} (h : shape.Occurs) (h' : shape'.Occurs)
    (htext : shape.text = shape'.text) : shape = shape' := by
  have hcases : ∀ {shape : PropertyShape}, shape.Occurs →
      shape = ⟨0, 0⟩ ∨ shape = ⟨1, 0⟩ ∨ shape = ⟨2, 0⟩ ∨ ∃ tag, shape = ⟨3, tag⟩ := by
    rintro shape ⟨value, hof⟩
    unfold PropertyShape.of at hof
    split at hof
    · cases hof
      exact .inl rfl
    · cases hof
      exact .inr (.inl rfl)
    · cases hof
      exact .inr (.inr (.inl rfl))
    · cases hof
      exact .inr (.inr (.inr ⟨_, rfl⟩))
    · cases hof
    · cases hof
  have hclass := congrArg ShapeText.storageClass htext
  rcases hcases h with rfl | rfl | rfl | ⟨tag, rfl⟩ <;>
    rcases hcases h' with rfl | rfl | rfl | ⟨tag', rfl⟩ <;>
    first
    | rfl
    | exact absurd hclass (by dsimp only [PropertyShape.text]; decide)
    | exact congrArg (PropertyShape.mk 3) (hexByte_injective (congrArg ShapeText.tag htext))

/-! ## The shapes of a graph -/

/-- The keys that are counted for a graph, as often as they are. -/
def Graph.shapeKeys (g : Graph) : List ShapeKey :=
  (g.nodes.flatMap AcceptedNode.shapes ++ g.edges.flatMap AcceptedEdge.shapes).reduceOption

section
variable {g : Graph} {st : OfflineImport} {members : List Member} {tables : GraphTables}

theorem count_reduceOption {α : Type} [DecidableEq α] (a : α) (xs : List (Option α)) :
    xs.reduceOption.count a = xs.count (some a) := by
  induction xs with
  | nil => rfl
  | cons x xs ih =>
      cases x with
      | none => rw [List.reduceOption_cons_of_none, ih, List.count_cons_of_ne (by simp)]
      | some x =>
          rw [List.reduceOption_cons_of_some, List.count_cons, List.count_cons, ih]
          refine congrArg (_ + ·) (if_congr ?_ rfl rfl)
          rw [beq_iff_eq, beq_iff_eq, Option.some.injEq]

/-- A key comes among the shapes of a graph as often as it is counted. -/
theorem count_shapeKeys (g : Graph) (key : ShapeKey) : g.shapeKeys.count key = g.counts key := by
  rw [Graph.shapeKeys, count_reduceOption, List.count_append]
  rfl

/-- One table of an import is the groups of what its keys stand for. -/
theorem Sound.groupBy_perm (h : Sound g ⟨st, []⟩) {ι κ : Type} [DecidableEq ι] [DecidableEq κ]
    (table : ShapeKey → Option ι) (expand : ι → List κ) :
    (groupBy ((tableOf table st.shapeCounts.flush.spilled.entries).flatMap fun row =>
      (expand row.1).map (·, row.2))).Perm
        (countBy ((g.shapeKeys.filterMap table).flatMap expand)) := by
  have hpositive := (flush_positive h.positive.counts).spilled
  have hcounts : ∀ key, (st.shapeCounts.flush.spilled.find key).getD 0 = g.shapeKeys.count key := by
    intro key
    have hcounted := h.counted key
    have hflush := flush_counted st.shapeCounts key
    rw [count_shapeKeys, ← hcounted]
    refine Eq.trans ?_ (hflush.trans (Nat.zero_add _).symm)
    exact (Nat.zero_add _).symm
  generalize st.shapeCounts.flush.spilled = spilled at hpositive hcounts
  have hfind : ∀ row ∈ spilled.entries, spilled.find row.1 = some row.2 :=
    fun row hrow => firstOf_of_mem spilled.unique hrow
  rw [Grouping.flatMap_tableOf, Grouping.flatMap_filterMap]
  refine Grouping.groupBy_flatMap_perm spilled.unique (fun row hrow => ?_) (fun row hrow => ?_)
    (fun key hkey => ?_) fun key => (table key).elim [] expand
  · exact hpositive row.1 row.2 (hfind row hrow)
  · rw [← hcounts, hfind row hrow, Option.getD_some]
  · by_contra hnone
    have hzero := hcounts key
    rw [Map.find, firstOf_eq_none.mpr hnone, Option.getD_none] at hzero
    exact List.count_pos_iff.mpr hkey |>.ne hzero

/-- The keys of properties in a table. -/
theorem filterMap_shapes {ι : Type} (table : ShapeKey → Option ι) (first : ShapeKey)
    (shape : Int64 → PropertyShape → ShapeKey) (properties : List (Int64 × Value)) :
    (some first :: properties.map (shapeKey shape)).reduceOption.filterMap table =
      (table first).toList ++ properties.filterMap fun p => (shapeKey shape p).bind table := by
  rw [List.reduceOption_cons_of_some, List.filterMap_cons, List.reduceOption, List.filterMap_map,
    List.filterMap_filterMap]
  cases table first with
  | none => rfl
  | some key => rfl

/-- The keys of a graph in a table. -/
theorem filterMap_shapeKeys {ι : Type} (table : ShapeKey → Option ι) (g : Graph) :
    g.shapeKeys.filterMap table =
      (g.nodes.flatMap fun n => n.shapes.reduceOption.filterMap table) ++
        g.edges.flatMap fun e => e.shapes.reduceOption.filterMap table := by
  unfold Graph.shapeKeys List.reduceOption
  rw [List.filterMap_append, List.filterMap_append, List.filterMap_flatMap, List.filterMap_flatMap,
    List.filterMap_flatMap, List.filterMap_flatMap]

/-! ## Properties of a graph -/

/-- The keys and the shapes of properties. -/
def shapesOf (properties : List (Int64 × Value)) : List (Int64 × PropertyShape) :=
  properties.filterMap fun p =>
    match PropertyShape.of p.2 with
    | .ok shape => some (p.1, shape)
    | .error _ => none

theorem mem_shapesOf {properties : List (Int64 × Value)} {p : Int64 × PropertyShape}
    (h : p ∈ shapesOf properties) : p.2.Occurs := by
  obtain ⟨property, -, heq⟩ := List.mem_filterMap.mp h
  split at heq
  · next shape hshape =>
      cases heq
      exact ⟨property.2, hshape⟩
  · cases heq

/-- Where every value has a shape, the texts of the shapes are those of the values. -/
theorem map_text_shapesOf {properties : List (Int64 × Value)}
    (h : ∀ p ∈ properties, ∃ shape, PropertyShape.of p.2 = .ok shape) :
    (shapesOf properties).map (fun p => (p.1, p.2.text)) =
      properties.map fun p => (p.1, ShapeText.of p.2) := by
  rw [shapesOf, List.map_filterMap, ← List.filterMap_eq_map]
  refine List.filterMap_congr fun p hp => ?_
  obtain ⟨shape, hshape⟩ := h p hp
  rw [hshape, Option.map_some, text_of hshape]
  rfl

/-- The properties of an owner, in the table that has them. -/
theorem filterMap_properties {ι : Type} {table : ShapeKey → Option ι}
    {shape : Int64 → PropertyShape → ShapeKey} {f : Int64 × PropertyShape → ι}
    (h : ∀ key s, table (shape key s) = some (f (key, s))) (properties : List (Int64 × Value)) :
    (properties.filterMap fun p => (shapeKey shape p).bind table) =
    (shapesOf properties).map f := by
  rw [shapesOf, List.map_filterMap]
  refine List.filterMap_congr fun p _ => ?_
  rw [shapeKey]
  cases PropertyShape.of p.2 with
  | error e => rfl
  | ok s => exact h p.1 s

/-- And in a table that has none of them. -/
theorem filterMap_no_properties {ι : Type} {table : ShapeKey → Option ι}
    {shape : Int64 → PropertyShape → ShapeKey} (h : ∀ key s, table (shape key s) = none)
    (properties : List (Int64 × Value)) :
    (properties.filterMap fun p => (shapeKey shape p).bind table) = [] := by
  rw [List.filterMap_eq_nil_iff]
  intro p _
  rw [shapeKey]
  cases PropertyShape.of p.2 with
  | error e => rfl
  | ok s => exact h p.1 s

/-- What the properties of some owners are counted under, in words. -/
theorem flatMap_properties {α ι σ : Type} {xs : List α} {properties : α → List (Int64 × Value)}
    (scope : α → ι) (scopes : ι → List σ)
    (h : ∀ x ∈ xs, ∀ p ∈ properties x, ∃ shape, PropertyShape.of p.2 = .ok shape) :
    ((xs.flatMap fun x => (shapesOf (properties x)).map fun p => (scope x, p)).flatMap
        fun key => (scopes key.1).map fun s => (s, key.2.1, key.2.2.text)) =
      xs.flatMap fun x => (properties x).flatMap fun p =>
        (scopes (scope x)).map fun s => (s, p.1, ShapeText.of p.2) := by
  rw [List.flatMap_assoc]
  refine List.flatMap_congr fun x hx => ?_
  have htexts := congrArg (List.flatMap fun p : Int64 × ShapeText =>
    (scopes (scope x)).map fun s => (s, p)) (map_text_shapesOf (h x hx))
  rw [List.flatMap_map, List.flatMap_map] at htexts
  rw [List.flatMap_map]
  exact htexts

/-- The keys of an import's table of properties. -/
theorem Sound.property_perm (h : Sound g ⟨st, []⟩) {α ι σ : Type} [DecidableEq ι] [DecidableEq σ]
    {table : ShapeKey → Option (ι × Int64 × PropertyShape)} {xs : List α}
    {properties : α → List (Int64 × Value)} {scope : α → ι} (scopes : ι → List σ)
    (htable : g.shapeKeys.filterMap table =
      xs.flatMap fun x => (shapesOf (properties x)).map fun p => (scope x, p))
    (hshaped : ∀ x ∈ xs, ∀ p ∈ properties x, ∃ shape, PropertyShape.of p.2 = .ok shape) :
    ((groupBy ((tableOf table st.shapeCounts.flush.spilled.entries).flatMap fun row =>
      ((scopes row.1.1).map fun s => (s, row.1.2)).map (·, row.2))).map
        fun group => ((group.1.1, group.1.2.1, group.1.2.2.text), group.2)).Perm
      (countBy (xs.flatMap fun x => (properties x).flatMap fun p =>
        (scopes (scope x)).map fun s => (s, p.1, ShapeText.of p.2))) := by
  have hgroups := h.groupBy_perm table fun key => (scopes key.1).map fun s => (s, key.2)
  have hoccurs : ∀ key ∈ (g.shapeKeys.filterMap table).flatMap
      (fun key => (scopes key.1).map fun s => (s, key.2)), key.2.2.Occurs := by
    intro key hkey
    obtain ⟨key', hkey', hmem⟩ := List.mem_flatMap.mp hkey
    obtain ⟨s, -, rfl⟩ := List.mem_map.mp hmem
    rw [htable] at hkey'
    obtain ⟨x, -, hmem'⟩ := List.mem_flatMap.mp hkey'
    obtain ⟨p, hp, rfl⟩ := List.mem_map.mp hmem'
    exact mem_shapesOf hp
  have hrender := Grouping.map_countBy_perm
    (f := fun key : σ × Int64 × PropertyShape => (key.1, key.2.1, key.2.2.text))
    fun key hkey key' hkey' heq => by
      rw [Prod.mk.injEq, Prod.mk.injEq] at heq
      exact Prod.ext heq.1 (Prod.ext heq.2.1
        (text_injective (hoccurs key hkey) (hoccurs key' hkey') heq.2.2))
  refine (hgroups.map _).trans (hrender.trans ?_)
  rw [← flatMap_properties scope scopes hshaped, ← htable, List.map_flatMap]
  simp only [List.map_map]
  exact .refl _

/-! ## The tables -/

/-- The keys of a table that has none of relationships. -/
theorem filterMap_nodes {ι : Type} {table : ShapeKey → Option ι} {keys : AcceptedNode → List ι}
    (hnodes : ∀ n : AcceptedNode, n.shapes.reduceOption.filterMap table = keys n)
    (hedge : ∀ kind source target, table (.edge kind source target) = none)
    (hproperty : ∀ kind source target key shape,
      table (.edgeProperty kind source target key shape) = none) (g : Graph) :
    g.shapeKeys.filterMap table = g.nodes.flatMap keys := by
  have hedges : ∀ e : AcceptedEdge, e.shapes.reduceOption.filterMap table = [] := by
    intro e
    rw [AcceptedEdge.shapes, filterMap_shapes, filterMap_no_properties (hproperty _ _ _), hedge]
    rfl
  rw [filterMap_shapeKeys, List.flatMap_congr fun n _ => hnodes n,
    List.flatMap_eq_nil_iff.mpr fun e _ => hedges e, List.append_nil]

/-- The keys of a table that has none of nodes. -/
theorem filterMap_edges {ι : Type} {table : ShapeKey → Option ι} {keys : AcceptedEdge → List ι}
    (hedges : ∀ e : AcceptedEdge, e.shapes.reduceOption.filterMap table = keys e)
    (hnode : ∀ labelGroup, table (.node labelGroup) = none)
    (hproperty : ∀ labelGroup key shape, table (.nodeProperty labelGroup key shape) = none)
    (g : Graph) : g.shapeKeys.filterMap table = g.edges.flatMap keys := by
  have hnodes : ∀ n : AcceptedNode, n.shapes.reduceOption.filterMap table = [] := by
    intro n
    rw [AcceptedNode.shapes, filterMap_shapes, filterMap_no_properties (hproperty _), hnode]
    rfl
  rw [filterMap_shapeKeys, List.flatMap_congr fun e _ => hedges e,
    List.flatMap_eq_nil_iff.mpr fun n _ => hnodes n, List.nil_append]

/-- The shapes of nodes are the label groups of the nodes. -/
theorem shapeKeys_inNode (g : Graph) :
    g.shapeKeys.filterMap ShapeKey.inNode = g.nodes.map (·.node.labelGroup) := by
  rw [List.map_eq_flatMap]
  refine filterMap_nodes (fun n => ?_) (fun _ _ _ => rfl) (fun _ _ _ _ _ => rfl) g
  rw [AcceptedNode.shapes, filterMap_shapes, filterMap_no_properties fun _ _ => rfl]
  rfl

/-- Those of node properties are the shapes of the properties, under the label group of the node. -/
theorem shapeKeys_inNodeProperty (g : Graph) :
    g.shapeKeys.filterMap ShapeKey.inNodeProperty =
      g.nodes.flatMap fun n => (shapesOf n.properties).map fun p => (n.node.labelGroup, p) := by
  refine filterMap_nodes (fun n => ?_) (fun _ _ _ => rfl) (fun _ _ _ _ _ => rfl) g
  rw [AcceptedNode.shapes, filterMap_shapes,
    filterMap_properties (f := fun p => (n.node.labelGroup, p)) fun _ _ => rfl]
  rfl

/-- The type of a relationship, and the label groups of its ends. -/
def AcceptedEdge.scope (e : AcceptedEdge) : Int64 × Int64 × Int64 :=
  (e.edge.typeId, e.source.labelGroup, e.target.labelGroup)

/-- Those of relationships are their scopes. -/
theorem shapeKeys_inEdge (g : Graph) :
    g.shapeKeys.filterMap ShapeKey.inEdge = g.edges.map AcceptedEdge.scope := by
  rw [List.map_eq_flatMap]
  refine filterMap_edges (fun e => ?_) (fun _ => rfl) (fun _ _ _ => rfl) g
  rw [AcceptedEdge.shapes, filterMap_shapes, filterMap_no_properties fun _ _ => rfl]
  rfl

/-- Those of relationship properties are the shapes of the properties, under the scope. -/
theorem shapeKeys_inEdgeProperty (g : Graph) :
    g.shapeKeys.filterMap ShapeKey.inEdgeProperty =
      g.edges.flatMap fun e => (shapesOf e.properties).map fun p => (e.scope, p) := by
  refine filterMap_edges (fun e => ?_) (fun _ => rfl) (fun _ _ _ => rfl) g
  rw [AcceptedEdge.shapes, filterMap_shapes,
    filterMap_properties (f := fun p => (e.scope, p)) fun _ _ => rfl]
  rfl

/-- The properties of an owner among those of all. -/
theorem filter_keyed {α : Type} {owner : α → Int64} {properties : α → List (Int64 × Value)} :
    ∀ {xs : List α}, (xs.map owner).Nodup → ∀ {x}, x ∈ xs →
      (xs.flatMap fun x => (properties x).map (keyed (owner x))).filter (·.1.1 = owner x) =
        (properties x).map (keyed (owner x))
  | [], _, _, hx => nomatch hx
  | first :: xs, hnodup, x, hx => by
      rw [List.map_cons, List.nodup_cons] at hnodup
      have hfirst : ∀ {y}, owner y = owner x →
          ((properties y).map (keyed (owner y))).filter (·.1.1 = owner x) =
            (properties y).map (keyed (owner y)) := by
        intro y heq
        rw [List.filter_eq_self]
        intro p hp
        obtain ⟨q, -, rfl⟩ := List.mem_map.mp hp
        exact decide_eq_true heq
      have hother : ∀ {y}, owner y ≠ owner x →
          ((properties y).map (keyed (owner y))).filter (·.1.1 = owner x) = [] := by
        intro y hne
        rw [List.filter_eq_nil_iff]
        intro p hp heq
        obtain ⟨q, -, rfl⟩ := List.mem_map.mp hp
        exact hne (of_decide_eq_true heq)
      rw [List.flatMap_cons, List.filter_append]
      rcases List.mem_cons.mp hx with rfl | hx
      · have hrest : (xs.flatMap fun x => (properties x).map (keyed (owner x))).filter
            (·.1.1 = owner x) = [] := by
          rw [List.filter_flatMap, List.flatMap_eq_nil_iff]
          intro y hy
          exact hother fun heq => hnodup.1 (heq ▸ List.mem_map_of_mem hy)
        rw [hfirst rfl, hrest, List.append_nil]
      · rw [hother fun heq => hnodup.1 (heq ▸ List.mem_map_of_mem hx), List.nil_append,
          filter_keyed hnodup.2 hx]

/-- The ends of a relationship are joined once. -/
theorem joinEnds_eq (hcontent : tables.content = g.content) (hformed : g.Formed) {e : AcceptedEdge}
    (he : e ∈ g.edges) : tables.joinEnds members e.edge =
      edgeScopes members e.edge.typeId e.source.labelGroup e.target.labelGroup := by
  have hnode : ∀ node ∈ g.nodes.map (·.node),
      tables.joinNode node.id = [(node.id, node.labelGroup)] := by
    intro node hnode
    have hmem : (node.id, node.labelGroup) ∈ tables.node.entries := by
      have hentries : tables.node.entries = g.content.node := congrArg Content.node hcontent
      obtain ⟨n, hn, rfl⟩ := List.mem_map.mp hnode
      rw [hentries]
      exact List.mem_map_of_mem hn
    exact Grouping.filter_key tables.node.unique hmem
  have hjoins := hformed.joins e he
  rw [GraphTables.joinEnds, hjoins.fromNode, hjoins.toNode, hnode _ hjoins.source,
    hnode _ hjoins.target, List.flatMap_singleton, List.flatMap_singleton]

/-- What is counted for a graph are the rows of its tables. -/
theorem Sound.shape_same (h : Sound g ⟨st, []⟩) (hcontent : tables.content = g.content)
    (members : List Member) :
    (importShapeFinish members st.shapeCounts.flush.spilled).Same
      (graphShapeBackfill members tables) := by
  have hformed := h.filed.formed
  have hnode : tables.node.entries = g.nodes.map fun n => (n.node.id, n.node.labelGroup) :=
    congrArg Content.node hcontent
  have hedge : tables.edge.entries = g.edges.map fun e => (e.id, e.edge) :=
    congrArg Content.edge hcontent
  have hnodeProperty : tables.nodeProperty.entries =
      g.nodes.flatMap fun n => n.properties.map (keyed n.node.id) :=
    congrArg Content.nodeProperty hcontent
  have hedgeProperty : tables.edgeProperty.entries =
      g.edges.flatMap fun e => e.properties.map (keyed e.id) :=
    congrArg Content.edgeProperty hcontent
  refine ⟨?_, ?_, ?_, ?_⟩
  · have hperm := h.groupBy_perm ShapeKey.inNode (labelsOf members)
    rw [shapeKeys_inNode, List.flatMap_map] at hperm
    refine hperm.trans (.of_eq ?_)
    rw [graphShapeBackfill, hnode, List.flatMap_map]
  · refine (h.property_perm (labelsOf members) (shapeKeys_inNodeProperty g) h.shaped.nodes).trans ?_
    refine Grouping.countBy_perm ?_
    rw [hnode, List.flatMap_map]
    refine List.Perm.flatMap_left _ fun n hn => ?_
    rw [hnodeProperty, filter_keyed hformed.nodes hn]
    simp only [List.map_map]
    exact Grouping.flatMap_map_perm n.properties (labelsOf members n.node.labelGroup)
      fun p label => (label, p.1, ShapeText.of p.2)
  · have hperm := h.groupBy_perm ShapeKey.inEdge fun key =>
      edgeScopes members key.1 key.2.1 key.2.2
    rw [shapeKeys_inEdge, List.flatMap_map] at hperm
    refine hperm.trans (.of_eq ?_)
    rw [graphShapeBackfill, hedge, List.flatMap_map]
    exact congrArg countBy (List.flatMap_congr fun e he => (joinEnds_eq hcontent hformed he).symm)
  · refine (h.property_perm (fun key => edgeScopes members key.1 key.2.1 key.2.2)
      (shapeKeys_inEdgeProperty g) h.shaped.edges).trans (.of_eq ?_)
    rw [graphShapeBackfill, hedge]
    dsimp only
    rw [List.flatMap_map]
    refine congrArg countBy (List.flatMap_congr fun e he => ?_)
    have hids : (g.edges.map (·.id)).Nodup := hformed.edges.imp Int64.ne_of_lt
    rw [hedgeProperty, filter_keyed hids he, joinEnds_eq hcontent hformed he, List.flatMap_map]
    rfl

end

/-- A run with room for so many counts in memory. -/
def runLimited (env : Environment) (memoryBytes maxEntries : Nat) (calls : List Call) :
    Except (Failure ImportError) (Graph × OfflineImport) :=
  let st := OfflineImport.create memoryBytes
  calls.foldlM (step env) (⟨[], []⟩, { st with shapeCounts := { st.shapeCounts with maxEntries } })

/-- A new import is sound under every limit. -/
theorem create_limited (memoryBytes maxEntries : Nat) :
    let st := OfflineImport.create memoryBytes
    Sound ⟨[], []⟩ ⟨{ st with shapeCounts := { st.shapeCounts with maxEntries } }, []⟩ := by
  have h := create_sound memoryBytes
  exact ⟨h.filed, h.known, h.keys, h.shaped, ⟨h.positive.slots, h.positive.counts.entries,
    h.positive.counts.spilled⟩, fun _ => rfl⟩

/-- For every run in which no call fails, and every limit on the counts in memory, the statistics of
`finish` are those of a full count of the finished tables. -/
theorem shape_statistics_exact {env : Environment} {memoryBytes maxEntries : Nat}
    {calls : List Call}
    {g : Graph} {st : OfflineImport}
    (h : runLimited env memoryBytes maxEntries calls = .ok (g, st)) :
    ∃ tables, st.finishTables = .ok tables ∧ tables.content = st.store.content ∧
      let members := st.names.labels.catalog.labelGroupMember.rows
      let statistics := importShapeFinish members st.shapeCounts.flush.spilled
      statistics.Same (graphShapeBackfill members tables) ∧ statistics.Keyed := by
  obtain ⟨hsound, -⟩ := foldlM_sound (create_limited memoryBytes maxEntries) h
  obtain ⟨tables, hfinish, hcontent⟩ := hsound.finishTables
  have hsame := hsound.shape_same hcontent st.names.labels.catalog.labelGroupMember.rows
  exact ⟨tables, hfinish, hcontent.trans hsound.filed.content.symm, hsame,
    hsame.keyed (graphShapeBackfill_keyed _ _)⟩

/-- A node with two labels, one without, one that is skipped; a loop, and a relationship that is
skipped. -/
def labelledImport : List Call :=
  [.nodes { sampleNodes with labels := ["N"], labelColumns := [2] }
     [[.integer 1, .text "a", .text "M"], [.integer 1, .null, .text "M"]],
   .nodes { sampleNodes with labels := [] } [[.integer 2, .real 0]],
   .relationships { sampleKnows with endGroup := "integers", properties := [⟨2, "since"⟩] }
     [[.integer 1, .integer 1, .real 0], [.integer 2, .integer 1, .blob [10]],
      [.integer 1, .integer 9, .null]]]

/-- An import with a limit of one entry, which flushes its counts on the way. -/
theorem shape_statistics_exact_labelled : ∃ g st tables,
    runLimited ⟨IdMap.exactPlatform, fun _ => "", fun _ => some .other⟩ 0 1 labelledImport =
      .ok (g, st) ∧ st.finishTables = .ok tables ∧
    let members := st.names.labels.catalog.labelGroupMember.rows
    let statistics := importShapeFinish members st.shapeCounts.flush.spilled
    statistics.nodeScope = [(1, 1), (2, 1), (0, 1)] ∧
      statistics.Same (graphShapeBackfill members tables) := by
  have hnodes : (runLimited ⟨IdMap.exactPlatform, fun _ => "", fun _ => some .other⟩ 0 1
      labelledImport).map (fun (_, st) =>
        (importShapeFinish st.names.labels.catalog.labelGroupMember.rows
          st.shapeCounts.flush.spilled).nodeScope) = .ok [(1, 1), (2, 1), (0, 1)] := by rfl
  cases hrun : runLimited ⟨IdMap.exactPlatform, fun _ => "", fun _ => some .other⟩ 0 1
      labelledImport with
  | error e =>
      rw [hrun] at hnodes
      cases hnodes
  | ok result =>
      obtain ⟨g, st⟩ := result
      rw [hrun] at hnodes
      obtain ⟨tables, hfinish, -, hsame, -⟩ := shape_statistics_exact hrun
      exact ⟨g, st, tables, rfl, hfinish, Except.ok.inj hnodes, hsame⟩

end Velr.Native
