import Velr.Body.Primary
import Velr.Native.Runs

/-!
# The integrity of an import

What a run without a failed call leaves: ids that are distinct and below the counters, relationships
between stored nodes that are counted under the label groups of these, and spools that are written
as packed tables and primary indexes without an error of their order (`import_integrity`).
-/

namespace Velr.Native

open Body (Property OwnerProperties)
open FirstWins (firstOf firstOf_of_mem)
open IdMap (Failure)
open Record (Value)

/-- The label group of a stored node. -/
def Content.labelGroup (c : Content) (id : Int64) : Option Int64 := firstOf c.node id

/-- A stored relationship of a kind between nodes of two label groups. -/
def Content.Between (c : Content) (kind source target : Int64) (row : Int64 × Edge) : Prop :=
  row.2.typeId = kind ∧ c.labelGroup row.2.fromNode = some source ∧
    c.labelGroup row.2.toNode = some target

instance (c : Content) (kind source target : Int64) (row : Int64 × Edge) :
    Decidable (c.Between kind source target row) :=
  inferInstanceAs (Decidable (_ ∧ _ ∧ _))

/-- Properties that `OwnerProperties` takes and `PrimaryRecords` delivers in full, so that no order
of their keys is refused; a record that is too large is refused before. -/
def WritesPrimary (columns : Nat) (properties : List Property) : Prop :=
  (∀ p ∈ properties, p.Fits) → ∃ st sorted,
    ((OwnerProperties.new .create).pushAll properties >>= OwnerProperties.flush) = .ok st ∧
      sorted.Perm properties ∧
      (st.spool.output.length < 2 ^ 64 → Body.Indexed columns sorted st.spool.output)

section
variable {g : Graph} {e : AcceptedEdge} {c : Content}

/-- A relationship is counted once, under its own key. -/
theorem count_edge_shapes (e : AcceptedEdge) (kind source target : Int64) :
    e.shapes.count (some (.edge kind source target)) =
      if e.edge.typeId = kind ∧ e.source.labelGroup = source ∧ e.target.labelGroup = target then 1
      else 0 := by
  have hproperties : (e.properties.map (shapeKey (.edgeProperty e.edge.typeId e.source.labelGroup
      e.target.labelGroup))).count (some (.edge kind source target)) = 0 := by
    rw [List.count_eq_zero, List.mem_map]
    rintro ⟨p, -, hp⟩
    rw [shapeKey] at hp
    split at hp
    · cases hp
    · cases hp
  rw [AcceptedEdge.shapes, count_shapes, hproperties, Nat.add_zero]
  refine if_congr ?_ rfl rfl
  rw [ShapeKey.edge.injEq, eq_comm, @eq_comm _ source, @eq_comm _ target]

/-- A shape of relationships is counted as often as there are relationships of the type between the
label groups. -/
theorem count_edges (edges : List AcceptedEdge) (kind source target : Int64) :
    (edges.flatMap AcceptedEdge.shapes).count (some (.edge kind source target)) =
      edges.countP fun e =>
        e.edge.typeId = kind ∧ e.source.labelGroup = source ∧ e.target.labelGroup = target := by
  induction edges with
  | nil => rfl
  | cons e edges ih =>
      rw [List.flatMap_cons, List.count_append, ih, count_edge_shapes, List.countP_cons,
        Nat.add_comm]
      simp only [decide_eq_true_eq]

/-- No node is counted as a relationship. -/
theorem count_nodes_edge (nodes : List AcceptedNode) (kind source target : Int64) :
    (nodes.flatMap AcceptedNode.shapes).count (some (.edge kind source target)) = 0 := by
  rw [List.count_eq_zero, List.mem_flatMap]
  rintro ⟨n, -, hmem⟩
  rw [AcceptedNode.shapes, List.mem_cons, List.mem_map] at hmem
  rcases hmem with heq | ⟨p, -, hp⟩
  · cases heq
  · rw [shapeKey] at hp
    split at hp
    · cases hp
    · cases hp

/-- The label group of a node is stored with it. -/
theorem Graph.Formed.labelGroup (h : g.Formed) {node : IdMap.ImportNode}
    (hnode : node ∈ g.nodes.map (·.node)) :
    g.content.labelGroup node.id = some node.labelGroup := by
  obtain ⟨n, hn, rfl⟩ := List.mem_map.mp hnode
  refine firstOf_of_mem ?_ (List.mem_map.mpr ⟨n, hn, rfl⟩)
  rw [Graph.content, List.map_map]
  exact h.nodes

/-- The relationships of a graph are counted under the label groups that are stored. -/
theorem Graph.Formed.counts_edge (h : g.Formed) (kind source target : Int64) :
    g.counts (.edge kind source target) =
      g.content.edge.countP fun row => g.content.Between kind source target row := by
  rw [Graph.counts, count_nodes_edge, count_edges, Nat.zero_add]
  have hedges : g.content.edge = g.edges.map fun e => (e.id, e.edge) := rfl
  rw [hedges, List.countP_map]
  refine List.countP_congr fun e he => ?_
  have hjoins := h.joins e he
  have hsource := h.labelGroup hjoins.source
  have htarget := h.labelGroup hjoins.target
  rw [← hjoins.fromNode] at hsource
  rw [← hjoins.toNode] at htarget
  rw [decide_eq_true_iff, Function.comp_apply, decide_eq_true_iff, Content.Between,
    hsource, htarget,
    Option.some.injEq, Option.some.injEq]

/-- The tables that an import ends with are its rows. -/
theorem Sound.finishTables {b : Batch} (h : Sound g b) :
    ∃ tables, b.st.finishTables = .ok tables ∧ tables.content = g.content := by
  rw [OfflineImport.finishTables]
  cases hbody : b.st.store.body with
  | none =>
      refine ⟨b.st.store.tables, rfl, ?_⟩
      rw [← h.filed.content, Store.content, hbody]
  | some body => exact h.filed.writeTables hbody

/-- Properties in the order of their owners are a primary index. -/
theorem writesPrimary {columns : Nat} {properties : List Property}
    (hgrouped : properties.Pairwise Property.Grouped)
    (hcolumns : columns = 2 ∨ columns = 3 ∧ ∀ p ∈ properties, ∃ value, p.value = .integer value) :
    WritesPrimary columns properties := by
  intro hfits
  obtain ⟨st, sorted, hrun, hperm, -, -, -, hindexed⟩ := Body.pushAll_flush hgrouped hfits
  exact ⟨st, sorted, hrun, hperm, fun hfile => hindexed hfile columns hcolumns⟩

end

/-- After every run in which no call fails: the ids of the stored nodes are distinct and below the
next one; those of the relationships increase; each of these has both endpoints among the nodes, and
is counted under exactly their label groups; and the spools are written, with row ids that increase
and with properties that make primary indexes. -/
theorem import_integrity {env : Environment} {memoryBytes : Nat} {calls : List Call} {g : Graph}
    {st : OfflineImport} (h : run env memoryBytes calls = .ok (g, st)) :
    let stored := st.store.content
    (stored.node.map Prod.fst).Nodup ∧ (∀ row ∈ stored.node, row.1 < st.nextNodeId) ∧
    (stored.edge.map Prod.fst).Pairwise (· < ·) ∧
    (∀ row ∈ stored.edge, ∃ kind source target, stored.Between kind source target row) ∧
    (∀ kind source target, st.shapeCounts.counted (.edge kind source target) =
      stored.edge.countP fun row => stored.Between kind source target row) ∧
    (∀ body ∈ st.store.body,
      (body.node.map Prod.fst).Pairwise (· < ·) ∧ (body.edge.map Prod.fst).Pairwise (· < ·) ∧
      body.propertyRowids.Pairwise (· < ·) ∧
      WritesPrimary 3 body.nodePrimary ∧ WritesPrimary 2 body.edgeProperty ∧
      ∃ tables, body.writeTables = .ok tables ∧ tables.content = body.content) ∧
    ∃ tables, st.finishTables = .ok tables ∧ tables.content = stored := by
  obtain ⟨hsound, -⟩ := run_sound h
  have hfiled := hsound.filed
  have hcontent := hfiled.content
  have hformed := hfiled.formed
  dsimp only at hfiled hcontent ⊢
  rw [hcontent]
  refine ⟨?_, fun row hrow => ?_, ?_, fun row hrow => ?_, fun kind source target => ?_,
    fun body hbody => ?_, ?_⟩
  · rw [← hcontent, hfiled.node_ids]
    exact hformed.nodes
  · refine hfiled.nodesBelow row.1 ?_
    rw [← hfiled.node_ids, hcontent]
    exact List.mem_map_of_mem hrow
  · rw [Graph.content, List.map_map]
    exact hformed.edges
  · obtain ⟨e, he, rfl⟩ := List.mem_map.mp hrow
    have hjoins := hformed.joins e he
    refine ⟨e.edge.typeId, e.source.labelGroup, e.target.labelGroup, rfl, ?_, ?_⟩
    · rw [hjoins.fromNode]
      exact hformed.labelGroup hjoins.source
    · rw [hjoins.toNode]
      exact hformed.labelGroup hjoins.target
  · rw [← hformed.counts_edge, ← hsound.counted]
    exact (Nat.zero_add _).symm
  · have hpacked := hformed.packed (hfiled.ordered (by rw [hbody]; rfl))
    have hindexed := hfiled.indexed body hbody
    have hspools : body.content = g.content := by
      rw [← hcontent, Store.content, hbody]
    rw [← hspools] at hpacked
    obtain ⟨tables, hwrite, htables⟩ := writeTables_ok hindexed hpacked
    have hproperties := hpacked.nodeProperty
    rw [BodyWriter.content, map_fst_byKey, ← hindexed.keys] at hproperties
    have hproperties' := hpacked.edgeProperty
    rw [BodyWriter.content, map_fst_byKey] at hproperties'
    exact ⟨hpacked.node, hpacked.edge, hindexed.increasing,
      writesPrimary (grouped_iff.mpr hproperties) (.inr ⟨rfl, hindexed.values⟩),
      writesPrimary (grouped_iff.mpr hproperties') (.inl rfl), tables, hwrite, htables⟩
  · exact hsound.finishTables

/-- Nodes of integer ids with a name. -/
def sampleNodes : NodeImportSpec where
  labels := ["N"]
  idColumns := [0]
  idGroup := "integers"
  idType := .integer
  labelColumns := []
  properties := [⟨1, "name"⟩]
  skipDuplicates := true

/-- Relationships from those to nodes of ACTUAL ids. -/
def sampleKnows : RelationshipImportSpec where
  relationshipType := some "KNOWS"
  typeColumn := none
  startColumns := [0]
  startGroup := "integers"
  endColumns := [1]
  endGroup := "actual"
  idType := .string
  properties := []
  skipBadRelationships := true

/-- A node without an id, an integer twice, then ACTUAL ids that end the spools, one of them taken;
and a relationship that has no source. -/
def mixedImport : List Call :=
  [.nodes sampleNodes [[.null, .text "a"], [.integer 7, .text "b"], [.integer 7, .text "c"]],
   .nodes { sampleNodes with idGroup := "actual", idType := .actual }
     [[.integer 40, .null], [.integer 2, .null], [.null, .text "d"]],
   .relationships sampleKnows [[.integer 7, .integer 40], [.integer 8, .integer 40]]]

/-- Integer ids, actual ids and a relationship that is skipped. -/
theorem import_integrity_mixed : ∃ g st,
    run ⟨IdMap.exactPlatform, fun _ => "", fun _ => none⟩ 0 mixedImport = .ok (g, st) ∧
    st.store.content.node = [(1, 2), (2, 2), (40, 2), (41, 2)] ∧
    (st.store.content.node.map Prod.fst).Nodup ∧
    st.shapeCounts.counted (.edge 1 2 2) =
      st.store.content.edge.countP (fun row => st.store.content.Between 1 2 2 row) ∧
    ∃ tables, st.finishTables = .ok tables ∧ tables.content = st.store.content := by
  have hnodes : (run ⟨IdMap.exactPlatform, fun _ => "", fun _ => none⟩ 0 mixedImport).map
      (fun (_, st) => st.store.content.node) = .ok [(1, 2), (2, 2), (40, 2), (41, 2)] := by rfl
  cases hrun : run ⟨IdMap.exactPlatform, fun _ => "", fun _ => none⟩ 0 mixedImport with
  | error e =>
      rw [hrun] at hnodes
      cases hnodes
  | ok result =>
      obtain ⟨g, st⟩ := result
      rw [hrun] at hnodes
      obtain ⟨hnodup, -, -, -, hcounted, -, hfinish⟩ := import_integrity hrun
      exact ⟨g, st, rfl, Except.ok.inj hnodes, hnodup, hcounted 1 2 2, hfinish⟩

end Velr.Native
