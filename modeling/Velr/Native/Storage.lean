import Velr.Native.Import

/-!
# What an import has stored

The rows of the graph are in the spools or in the tables, never in both: `Store.content` says which
they are, each operation adds its row, and writing the spools changes none (`writeTables_content`).
-/

namespace Velr.Native

open Body (Property)
open FirstWins (Map entries_insert insert_fst_eq_true)
open IdMap (Failure ImportNode)
open Record (Value)

/-- The rows of a graph. -/
structure Content where
  node : List (Int64 × Int64)
  edge : List (Int64 × Edge)
  nodeProperty : List ((Int64 × Int64) × Value)
  edgeProperty : List ((Int64 × Int64) × Value)

/-- The rows in the tables. -/
def GraphTables.content (tables : GraphTables) : Content :=
  ⟨tables.node.entries, tables.edge.entries, tables.nodeProperty.entries,
    tables.edgeProperty.entries⟩

/-- The rows in the spools. -/
def BodyWriter.content (body : BodyWriter) : Content :=
  ⟨body.node, body.edge, byKey body.nodeProperty, byKey body.edgeProperty⟩

/-- The rows that are stored. -/
def Store.content (store : Store) : Content :=
  match store.body with
  | some body => body.content
  | none => store.tables.content

/-- The rows with one node more. -/
def Content.addNode (c : Content) (node : ImportNode) : Content :=
  { c with node := c.node ++ [(node.id, node.labelGroup)] }

/-- The rows with one relationship more. -/
def Content.addEdge (c : Content) (id : Int64) (edge : Edge) : Content :=
  { c with edge := c.edge ++ [(id, edge)] }

/-- The rows with more properties of nodes. -/
def Content.addNodeProperties (c : Content)
    (properties : List ((Int64 × Int64) × Value)) : Content :=
  { c with nodeProperty := c.nodeProperty ++ properties }

/-- The rows with more properties of relationships. -/
def Content.addEdgeProperties (c : Content)
    (properties : List ((Int64 × Int64) × Value)) : Content :=
  { c with edgeProperty := c.edgeProperty ++ properties }

/-- The owner and the key of a property. -/
def ownerKey (property : Property) : Int64 × Int64 := (property.owner, property.key)

/-- The row ids of the properties of nodes. -/
def BodyWriter.propertyRowids (body : BodyWriter) : List Int64 :=
  (List.range body.nodeProperty.length).map fun i => .ofNat (i + 1)

/-- The spool of the primary index has the keys of the properties, and their row ids. -/
structure BodyWriter.Indexed (body : BodyWriter) : Prop where
  keys : body.nodePrimary.map ownerKey = body.nodeProperty.map ownerKey
  rowids : body.nodePrimary.map (·.value) = body.propertyRowids.map .integer
  fits : body.nodeProperty.length < 2 ^ 63

/-- The values of the primary index are row ids. -/
theorem BodyWriter.Indexed.values {body : BodyWriter} (h : body.Indexed) :
    ∀ p ∈ body.nodePrimary, ∃ rowid, p.value = .integer rowid := by
  intro p hp
  have hmem : p.value ∈ body.propertyRowids.map .integer := by
    rw [← h.rowids]
    exact List.mem_map_of_mem hp
  obtain ⟨rowid, -, heq⟩ := List.mem_map.mp hmem
  exact ⟨rowid, heq.symm⟩

/-- The row ids of the properties increase. -/
theorem BodyWriter.Indexed.increasing {body : BodyWriter} (h : body.Indexed) :
    body.propertyRowids.Pairwise (· < ·) := by
  rw [BodyWriter.propertyRowids, List.pairwise_map]
  refine List.pairwise_lt_range.imp_of_mem fun {i j} hi hj hlt => ?_
  rw [List.mem_range] at hi hj
  have hfits := h.fits
  rw [Int64.lt_iff_toInt_lt, Int64.toInt_ofNat_of_lt (by omega), Int64.toInt_ofNat_of_lt (by omega)]
  omega

/-- What a step leaves of the store: rows go to the spools as long as there are some. -/
structure Store.Follows (store store' : Store) : Prop where
  body : store'.body.isSome = store.body.isSome
  tables : store.body.isSome = true → store'.tables = store.tables
  indexed : (∀ body ∈ store.body, body.Indexed) → ∀ body ∈ store'.body, body.Indexed

theorem Store.Follows.refl (store : Store) : store.Follows store := ⟨rfl, fun _ => rfl, id⟩

/-- What follows something that follows does. -/
theorem Store.Follows.trans {s₁ s₂ s₃ : Store} (h : s₁.Follows s₂) (h' : s₂.Follows s₃) :
    s₁.Follows s₃ where
  body := h'.body.trans h.body
  tables := fun hbody => (h'.tables (h.body.trans hbody)).trans (h.tables hbody)
  indexed := h'.indexed ∘ h.indexed

theorem follows_spools {body body' : BodyWriter} (tables : GraphTables)
    (h : body.Indexed → body'.Indexed) :
    Store.Follows ⟨some body, tables⟩ ⟨some body', tables⟩ where
  body := rfl
  tables _ := rfl
  indexed hindexed := by
    rintro _ ⟨⟩
    exact h (hindexed body rfl)

theorem follows_tables (tables tables' : GraphTables) :
    Store.Follows ⟨none, tables⟩ ⟨none, tables'⟩ where
  body := rfl
  tables hsome := nomatch hsome
  indexed _ _ hmem := nomatch hmem

/-- An insertion that succeeds appends a row with a new key. -/
theorem insertUnique_eq_ok {κ ν : Type} [DecidableEq κ] {table table' : Map κ ν}
    {key : κ} {value : ν}
    (h : insertUnique table key value = .ok table') :
    key ∉ table.entries.map Prod.fst ∧ table'.entries = table.entries ++ [(key, value)] := by
  have hfst := insert_fst_eq_true table key value
  have hentries := entries_insert table key value
  rw [insertUnique] at h
  generalize table.insert key value = inserted at h hfst hentries
  obtain ⟨_ | _, table₁⟩ := inserted
  · cases h
  · cases h
    have hnew := hfst.mp rfl
    rw [if_neg hnew] at hentries
    exact ⟨hnew, hentries⟩

theorem byKey_append (properties properties' : List Property) :
    byKey (properties ++ properties') = byKey properties ++ byKey properties' := List.map_append

section
variable {store store' : Store} {node : ImportNode} {owner key : Int64} {value : Value}

/-- A node that is written is new, if it goes to the table. -/
theorem node_true (h : store.node node = (true, store')) :
    store'.content = store.content.addNode node ∧ store.Follows store' ∧
      (store.body = none → node.id ∉ store.content.node.map Prod.fst) := by
  obtain ⟨_ | body, tables⟩ := store
  · have hfst := insert_fst_eq_true tables.node node.id node.labelGroup
    have hentries := entries_insert tables.node node.id node.labelGroup
    rw [Store.node] at h
    dsimp only at h
    generalize tables.node.insert node.id node.labelGroup = inserted at h hfst hentries
    obtain ⟨new, table⟩ := inserted
    cases h
    have hnew := hfst.mp rfl
    rw [if_neg hnew] at hentries
    dsimp only at hentries
    refine ⟨?_, follows_tables .., fun _ => hnew⟩
    rw [Store.content, GraphTables.content]
    dsimp only
    rw [hentries]
    rfl
  · cases h
    exact ⟨rfl, follows_spools tables fun h => ⟨h.keys, h.rowids, h.fits⟩,
      fun hnone => nomatch hnone⟩

/-- A node that is refused is in the table. -/
theorem node_false (h : store.node node = (false, store')) :
    store' = store ∧ store.body = none ∧ node.id ∈ store.content.node.map Prod.fst := by
  obtain ⟨_ | body, tables⟩ := store
  · rw [Store.node] at h
    dsimp only at h
    by_cases hmem : node.id ∈ tables.node.entries.map Prod.fst
    · rw [FirstWins.insert_of_mem hmem] at h
      cases h
      exact ⟨rfl, rfl, hmem⟩
    · have hnew := (insert_fst_eq_true tables.node node.id node.labelGroup).mpr hmem
      rw [Prod.mk.injEq, hnew] at h
      cases h.1
  · cases h

/-- A relationship that is stored is added to the content. -/
theorem edge_ok {id : Int64} {edge : Edge} (h : store.edge id edge = .ok store') :
    store'.content = store.content.addEdge id edge ∧ store.Follows store' := by
  obtain ⟨_ | body, tables⟩ := store
  · obtain ⟨table, hinsert, rfl⟩ := Results.map_eq_ok_iff.mp h
    refine ⟨?_, follows_tables ..⟩
    rw [Store.content, GraphTables.content]
    dsimp only
    rw [(insertUnique_eq_ok hinsert).2]
    rfl
  · cases h
    exact ⟨rfl, follows_spools tables fun h => ⟨h.keys, h.rowids, h.fits⟩⟩

/-- So is a property of a node. -/
theorem nodeProperty_ok (h : store.nodeProperty owner key value = .ok store') :
    store'.content = store.content.addNodeProperties [((owner, key), value)] ∧
      store.Follows store' := by
  obtain ⟨_ | body, tables⟩ := store
  · obtain ⟨table, hinsert, rfl⟩ := Results.map_eq_ok_iff.mp h
    refine ⟨?_, follows_tables ..⟩
    rw [Store.content, GraphTables.content]
    dsimp only
    rw [(insertUnique_eq_ok hinsert).2]
    rfl
  · obtain ⟨body', hpush, rfl⟩ := Results.map_eq_ok_iff.mp h
    rw [BodyWriter.pushNodeProperty] at hpush
    dsimp only at hpush
    split at hpush
    · cases hpush
    · next hfits =>
      split at hpush
      · cases hpush
      · cases hpush
        refine ⟨?_, follows_spools tables fun hindexed => ⟨?_, ?_, ?_⟩⟩
        · rw [Store.content]
          dsimp only
          rw [BodyWriter.content, byKey_append]
          rfl
        · dsimp only
          rw [List.map_append, List.map_append, hindexed.keys]
          rfl
        · dsimp only
          rw [BodyWriter.propertyRowids, List.length_append, List.length_singleton, List.range_succ,
            List.map_append, List.map_append, List.map_append, hindexed.rowids]
          rfl
        · dsimp only
          rw [List.length_append, List.length_singleton]
          omega

/-- So is a property of a relationship. -/
theorem edgeProperty_ok (h : store.edgeProperty owner key value = .ok store') :
    store'.content = store.content.addEdgeProperties [((owner, key), value)] ∧
      store.Follows store' := by
  obtain ⟨_ | body, tables⟩ := store
  · obtain ⟨table, hinsert, rfl⟩ := Results.map_eq_ok_iff.mp h
    refine ⟨?_, follows_tables ..⟩
    rw [Store.content, GraphTables.content]
    dsimp only
    rw [(insertUnique_eq_ok hinsert).2]
    rfl
  · cases h
    refine ⟨?_, follows_spools tables fun h => ⟨h.keys, h.rowids, h.fits⟩⟩
    rw [Store.content]
    dsimp only
    rw [BodyWriter.content, byKey_append]
    rfl

end

/-! ## The spools as tables -/

/-- Rows that packed tables take. -/
structure Content.Packed (c : Content) : Prop where
  node : (c.node.map Prod.fst).Pairwise (· < ·)
  edge : (c.edge.map Prod.fst).Pairwise (· < ·)
  nodeProperty : (c.nodeProperty.map Prod.fst).Pairwise
    fun a b => a.1 < b.1 ∨ a.1 = b.1 ∧ a.2 ≠ b.2
  edgeProperty : (c.edgeProperty.map Prod.fst).Pairwise
    fun a b => a.1 < b.1 ∨ a.1 = b.1 ∧ a.2 ≠ b.2

theorem map_fst_byKey (properties : List Property) :
    (byKey properties).map Prod.fst = properties.map ownerKey := List.map_map

/-- Properties are grouped by owner if their owners ascend and each owner has keys of its own. -/
theorem grouped_iff {properties : List Property} :
    properties.Pairwise Property.Grouped ↔
      (properties.map ownerKey).Pairwise fun a b => a.1 < b.1 ∨ a.1 = b.1 ∧ a.2 ≠ b.2 := by
  rw [List.pairwise_map]
  rfl

/-- Spools of rows in order are written without an error, and the tables have their rows. -/
theorem writeTables_ok {body : BodyWriter} (hindexed : body.Indexed) (h : body.content.Packed) :
    ∃ tables, body.writeTables = .ok tables ∧ tables.content = body.content := by
  have hnode : packedTable body.node = .ok ⟨body.node, _⟩ := dif_pos h.node
  have hedge : packedTable body.edge = .ok ⟨body.edge, _⟩ := dif_pos h.edge
  have hproperties := h.nodeProperty
  have hproperties' := h.edgeProperty
  rw [BodyWriter.content, map_fst_byKey] at hproperties hproperties'
  have hnodeProperty : packedPrimary body.nodeProperty = .ok ⟨byKey body.nodeProperty, _⟩ :=
    dif_pos (grouped_iff.mpr hproperties)
  have hedgeProperty : packedPrimary body.edgeProperty = .ok ⟨byKey body.edgeProperty, _⟩ :=
    dif_pos (grouped_iff.mpr hproperties')
  rw [← hindexed.keys] at hproperties
  have hprimary : packedPrimary body.nodePrimary = .ok ⟨byKey body.nodePrimary, _⟩ :=
    dif_pos (grouped_iff.mpr hproperties)
  rw [BodyWriter.writeTables, hnode, hedge, hprimary, hnodeProperty, hedgeProperty]
  exact ⟨_, rfl, rfl⟩

end Velr.Native
