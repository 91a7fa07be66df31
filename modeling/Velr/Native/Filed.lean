import Velr.IdMap.Exact
import Velr.Native.Steps

/-!
# The graph in the store

Between two rows the store has the rows of the graph that was accepted (`Filed`): its ids are below
the counters, no owner has two values under one key, its relationships end in its nodes, and what is
in spools is in the order that packed tables need.
-/

namespace Velr.Native

open IdMap (Failure ImportNode ExternalId toInt_add_one)
open Record (Value)

/-! ## Counters -/

/-- The next id is above the one that is given. -/
theorem nextNode_ok {next id next' : Int64} (h : nextNode next id = .ok next') :
    id < next' ∧ next ≤ next' := by
  rw [nextNode] at h
  simp only [Int64.le_iff_toInt_le, Int64.lt_iff_toInt_lt] at h ⊢
  split at h
  · split at h
    · next hle hnext =>
        cases h
        rw [toInt_add_one id hnext]
        omega
    · cases h
  · cases h
    omega

theorem lt_add_one {id : Int64} (h : id.toInt + 1 < 2 ^ 63) : id < id + 1 := by
  rw [Int64.lt_iff_toInt_lt, toInt_add_one id h]
  omega

/-- A list of increasing ids with a larger one behind it. -/
theorem pairwise_lt_concat {ids : List Int64} {id : Int64} (h : ids.Pairwise (· < ·))
    (hlast : ∀ id' ∈ ids, id' < id) : (ids ++ [id]).Pairwise (· < ·) := by
  rw [List.pairwise_append]
  refine ⟨h, List.pairwise_singleton .., fun id' hid' last hmem => ?_⟩
  obtain rfl := List.mem_singleton.mp hmem
  exact hlast id' hid'

/-! ## Graphs -/

/-- The rows of a graph. -/
def Graph.content (g : Graph) : Content where
  node := g.nodes.map fun n => (n.node.id, n.node.labelGroup)
  edge := g.edges.map fun e => (e.id, e.edge)
  nodeProperty := g.nodes.flatMap fun n => n.properties.map (keyed n.node.id)
  edgeProperty := g.edges.flatMap fun e => e.properties.map (keyed e.id)

/-- The ids of the nodes. -/
def Graph.nodeIds (g : Graph) : List Int64 := g.nodes.map (·.node.id)

/-- The ids of the relationships. -/
def Graph.edgeIds (g : Graph) : List Int64 := g.edges.map (·.id)

/-- A graph with one node more. -/
def Graph.addNode (g : Graph) (n : AcceptedNode) : Graph := { g with nodes := g.nodes ++ [n] }

/-- A graph with one relationship more. -/
def Graph.addEdge (g : Graph) (e : AcceptedEdge) : Graph := { g with edges := g.edges ++ [e] }

/-- A relationship between two nodes of a graph. -/
structure AcceptedEdge.Joins (e : AcceptedEdge) (g : Graph) : Prop where
  source : e.source ∈ g.nodes.map (·.node)
  target : e.target ∈ g.nodes.map (·.node)
  fromNode : e.edge.fromNode = e.source.id
  toNode : e.edge.toNode = e.target.id

/-- A graph whose ids are its own, with one value a key, and no relationship that hangs loose. -/
structure Graph.Formed (g : Graph) : Prop where
  nodes : g.nodeIds.Nodup
  edges : g.edgeIds.Pairwise (· < ·)
  nodeKeys : ∀ n ∈ g.nodes, (n.properties.map Prod.fst).Nodup
  edgeKeys : ∀ e ∈ g.edges, (e.properties.map Prod.fst).Nodup
  joins : ∀ e ∈ g.edges, e.Joins g

section
variable {g : Graph} {n : AcceptedNode} {e : AcceptedEdge}

/-- A relationship joins the nodes it has joined. -/
theorem AcceptedEdge.Joins.addNode (h : e.Joins g) (n : AcceptedNode) : e.Joins (g.addNode n) where
  source := by
    rw [Graph.addNode, List.map_append]
    exact List.mem_append_left _ h.source
  target := by
    rw [Graph.addNode, List.map_append]
    exact List.mem_append_left _ h.target
  fromNode := h.fromNode
  toNode := h.toNode

theorem nodeIds_addNode (g : Graph) (n : AcceptedNode) :
    (g.addNode n).nodeIds = g.nodeIds ++ [n.node.id] := by
  rw [Graph.nodeIds, Graph.addNode, List.map_append]
  rfl

theorem edgeIds_addEdge (g : Graph) (e : AcceptedEdge) :
    (g.addEdge e).edgeIds = g.edgeIds ++ [e.id] := by
  rw [Graph.edgeIds, Graph.addEdge, List.map_append]
  rfl

/-- A graph stays well formed with a new node whose keys differ. -/
theorem Graph.Formed.addNode (h : g.Formed) (hnew : n.node.id ∉ g.nodeIds)
    (hkeys : (n.properties.map Prod.fst).Nodup) : (g.addNode n).Formed where
  nodes := by
    rw [nodeIds_addNode, ← List.concat_eq_append, List.nodup_concat]
    exact ⟨hnew, h.nodes⟩
  edges := h.edges
  nodeKeys := by
    intro n' hn'
    rw [Graph.addNode, List.mem_append, List.mem_singleton] at hn'
    rcases hn' with hn' | rfl
    · exact h.nodeKeys n' hn'
    · exact hkeys
  edgeKeys := h.edgeKeys
  joins e he := (h.joins e he).addNode n

/-- So it does with a relationship that joins its nodes. -/
theorem Graph.Formed.addEdge (h : g.Formed) (hlast : ∀ id ∈ g.edgeIds, id < e.id)
    (hkeys : (e.properties.map Prod.fst).Nodup) (hjoins : e.Joins g) : (g.addEdge e).Formed where
  nodes := h.nodes
  edges := by
    rw [edgeIds_addEdge]
    exact pairwise_lt_concat h.edges hlast
  nodeKeys := h.nodeKeys
  edgeKeys := by
    intro e' he'
    rw [Graph.addEdge, List.mem_append, List.mem_singleton] at he'
    rcases he' with he' | rfl
    · exact h.edgeKeys e' he'
    · exact hkeys
  joins := by
    intro e' he'
    rw [Graph.addEdge, List.mem_append, List.mem_singleton] at he'
    rcases he' with he' | rfl
    · exact ⟨(h.joins e' he').source, (h.joins e' he').target, (h.joins e' he').fromNode,
        (h.joins e' he').toNode⟩
    · exact ⟨hjoins.source, hjoins.target, hjoins.fromNode, hjoins.toNode⟩

/-- Properties of owners in order, each with its keys once. -/
theorem pairwise_keyed {α : Type} {owner : α → Int64} {properties : α → List (Int64 × Value)}
    {xs : List α} (howners : (xs.map owner).Pairwise (· < ·))
    (hkeys : ∀ x ∈ xs, ((properties x).map Prod.fst).Nodup) :
    ((xs.flatMap fun x => (properties x).map (keyed (owner x))).map Prod.fst).Pairwise
      fun a b => a.1 < b.1 ∨ a.1 = b.1 ∧ a.2 ≠ b.2 := by
  rw [List.pairwise_map] at howners ⊢
  rw [List.pairwise_flatMap]
  refine ⟨fun x hx => ?_, howners.imp ?_⟩
  · have hkeys := hkeys x hx
    rw [List.Nodup, List.pairwise_map] at hkeys
    rw [List.pairwise_map]
    exact hkeys.imp fun hne => .inr ⟨rfl, hne⟩
  · intro x y hlt p hp q hq
    obtain ⟨-, -, rfl⟩ := List.mem_map.mp hp
    obtain ⟨-, -, rfl⟩ := List.mem_map.mp hq
    exact .inl hlt

/-- The rows of a graph whose nodes are in order fill packed tables. -/
theorem Graph.Formed.packed (h : g.Formed) (hnodes : g.nodeIds.Pairwise (· < ·)) :
    g.content.Packed where
  node := by
    rw [Graph.content, List.map_map]
    exact hnodes
  edge := by
    rw [Graph.content, List.map_map]
    exact h.edges
  nodeProperty := pairwise_keyed hnodes h.nodeKeys
  edgeProperty := pairwise_keyed h.edges h.edgeKeys

end

/-! ## The store of a graph -/

/-- A graph is in a store. -/
structure Filed (g : Graph) (store : Store) (bodyDisabled : Bool) (nextNodeId nextEdgeId : Int64) :
    Prop where
  formed : g.Formed
  content : store.content = g.content
  indexed : ∀ body ∈ store.body, body.Indexed
  ordered : store.body.isSome = true → g.nodeIds.Pairwise (· < ·)
  noTables : store.body.isSome = true → store.tables.content = ⟨[], [], [], []⟩
  enabled : store.body.isSome = true → bodyDisabled = false
  unused : store.body = none → bodyDisabled = false → g = ⟨[], []⟩
  nodesBelow : ∀ id ∈ g.nodeIds, id < nextNodeId
  edgesBelow : ∀ id ∈ g.edgeIds, id < nextEdgeId
  actual : ∀ n ∈ g.nodes, n.kind = .actual →
    bodyDisabled = true ∧ ∀ id ∈ n.declared, id = .integer n.node.id

section
variable {g : Graph} {store : Store} {bodyDisabled : Bool} {nextNodeId nextEdgeId : Int64}

/-- The stored nodes are those of the graph. -/
theorem Filed.node_ids (h : Filed g store bodyDisabled nextNodeId nextEdgeId) :
    store.content.node.map Prod.fst = g.nodeIds := by
  rw [h.content, Graph.content, List.map_map]
  rfl

/-- The next id of a node is not one that is stored. -/
theorem Filed.next_not_mem (h : Filed g store bodyDisabled nextNodeId nextEdgeId) :
    nextNodeId ∉ g.nodeIds :=
  fun hmem => Int64.lt_irrefl (h.nodesBelow _ hmem)

/-- The store with a node and its properties. -/
theorem Filed.addNode {n : AcceptedNode} {store₁ store' : Store} {next : Int64}
    (h : Filed g store bodyDisabled nextNodeId nextEdgeId)
    (hnode : store.node n.node = (true, store₁))
    (hcontent : store'.content =
      store₁.content.addNodeProperties (n.properties.map (keyed n.node.id)))
    (hfollows : store₁.Follows store') (hnext : nextNode nextNodeId n.node.id = .ok next)
    (hopen : store.body = none → bodyDisabled = true)
    (hgenerated : store.body.isSome = true → n.node.id = nextNodeId)
    (hkeys : (n.properties.map Prod.fst).Nodup)
    (hactual : n.kind = .actual →
      bodyDisabled = true ∧ ∀ id ∈ n.declared, id = .integer n.node.id) :
    Filed (g.addNode n) store' bodyDisabled next nextEdgeId := by
  obtain ⟨hcontent₁, hfollows₁, hnew⟩ := node_true hnode
  have hall := hfollows₁.trans hfollows
  obtain ⟨hlt, hle⟩ := nextNode_ok hnext
  have hfresh : n.node.id ∉ g.nodeIds := by
    cases hbody : store.body with
    | none =>
        rw [← h.node_ids]
        exact hnew hbody
    | some body =>
        rw [hgenerated (by rw [hbody]; rfl)]
        exact h.next_not_mem
  refine ⟨h.formed.addNode hfresh hkeys, ?_, hall.indexed h.indexed, fun hbody => ?_,
    fun hbody => ?_,
    fun hbody => h.enabled (hall.body.symm.trans hbody), fun hbody hdisabled => ?_,
      fun id hid => ?_, h.edgesBelow, fun n' hn' => ?_⟩
  · rw [hcontent, hcontent₁, h.content, Graph.content, Graph.content, Graph.addNode]
    dsimp only [Content.addNode, Content.addNodeProperties]
    rw [List.map_append, List.flatMap_append, List.flatMap_singleton]
    rfl
  · rw [hall.body] at hbody
    rw [nodeIds_addNode, hgenerated hbody]
    exact pairwise_lt_concat (h.ordered hbody) h.nodesBelow
  · rw [hall.body] at hbody
    rw [hall.tables hbody]
    exact h.noTables hbody
  · rw [← Option.not_isSome_iff_eq_none, hall.body, Option.not_isSome_iff_eq_none] at hbody
    rw [hopen hbody] at hdisabled
    cases hdisabled
  · rw [nodeIds_addNode, List.mem_append, List.mem_singleton] at hid
    rcases hid with hid | rfl
    · have hbelow := h.nodesBelow id hid
      rw [Int64.lt_iff_toInt_lt] at hbelow ⊢
      rw [Int64.le_iff_toInt_le] at hle
      omega
    · exact hlt
  · rw [Graph.addNode, List.mem_append, List.mem_singleton] at hn'
    rcases hn' with hn' | rfl
    · exact h.actual n' hn'
    · exact hactual

/-- The store with a relationship and its properties. -/
theorem Filed.addEdge {e : AcceptedEdge} {store' : Store}
    (h : Filed g store bodyDisabled nextNodeId nextEdgeId) (hid : e.id = nextEdgeId)
    (hnext : e.id.toInt + 1 < 2 ^ 63)
    (hcontent : store'.content =
      (store.content.addEdge e.id e.edge).addEdgeProperties (e.properties.map (keyed e.id)))
    (hfollows : store.Follows store') (hjoins : e.Joins g)
    (hkeys : (e.properties.map Prod.fst).Nodup) :
    Filed (g.addEdge e) store' bodyDisabled nextNodeId (e.id + 1) := by
  have hbelow : ∀ id ∈ g.edgeIds, id < e.id := by
    rw [hid]
    exact h.edgesBelow
  refine ⟨h.formed.addEdge hbelow hkeys hjoins, ?_, hfollows.indexed h.indexed, fun hbody => ?_,
    fun hbody => ?_, fun hbody => h.enabled (hfollows.body.symm.trans hbody),
    fun hbody hdisabled => ?_, h.nodesBelow, fun id hmem => ?_, h.actual⟩
  · rw [hcontent, h.content, Graph.content, Graph.content, Graph.addEdge]
    dsimp only [Content.addEdge, Content.addEdgeProperties]
    rw [List.map_append, List.flatMap_append, List.flatMap_singleton]
    rfl
  · rw [hfollows.body] at hbody
    exact h.ordered hbody
  · rw [hfollows.body] at hbody
    rw [hfollows.tables hbody]
    exact h.noTables hbody
  · rw [← Option.not_isSome_iff_eq_none, hfollows.body, Option.not_isSome_iff_eq_none] at hbody
    have hsource := hjoins.source
    rw [h.unused hbody hdisabled] at hsource
    cases hsource
  · have hlast := lt_add_one hnext
    rw [edgeIds_addEdge, List.mem_append, List.mem_singleton] at hmem
    rcases hmem with hmem | rfl
    · have hlt := hbelow id hmem
      rw [Int64.lt_iff_toInt_lt] at hlt hlast ⊢
      omega
    · exact hlast

/-- Spools are written without an error, to tables with their rows. -/
theorem Filed.writeTables {body : BodyWriter}
    (h : Filed g store bodyDisabled nextNodeId nextEdgeId) (hbody : store.body = some body) :
    ∃ tables, body.writeTables = .ok tables ∧ tables.content = g.content := by
  have hcontent : body.content = g.content := by
    have hcontent := h.content
    rw [Store.content, hbody] at hcontent
    exact hcontent
  have hpacked := h.formed.packed (h.ordered (by rw [hbody]; rfl))
  rw [← hcontent] at hpacked
  obtain ⟨tables, hwrite, htables⟩ := writeTables_ok (h.indexed body hbody) hpacked
  exact ⟨tables, hwrite, htables.trans hcontent⟩

end

/-- A store with nothing in it. -/
theorem filed_empty {tables : GraphTables} (h : tables.content = ⟨[], [], [], []⟩)
    {body : Option BodyWriter} (hbody : body = none ∨ body = some .create)
    (nextNodeId nextEdgeId : Int64) :
    Filed ⟨[], []⟩ ⟨body, tables⟩ false nextNodeId nextEdgeId where
  formed :=
    ⟨.nil, .nil, fun _ hn => (nomatch hn), fun _ he => (nomatch he), fun _ he => (nomatch he)⟩
  content := by
    rcases hbody with rfl | rfl
    · exact h
    · rfl
  indexed := by
    rcases hbody with rfl | rfl
    · exact fun _ hbody => nomatch hbody
    · rintro _ ⟨⟩
      exact ⟨rfl, rfl, (by decide : 0 < 2 ^ 63)⟩
  ordered _ := .nil
  noTables _ := h
  enabled _ := rfl
  unused _ _ := rfl
  nodesBelow _ hid := nomatch hid
  edgesBelow _ hid := nomatch hid
  actual _ hn := nomatch hn

/-- Before the rows of a batch the graph is where they will go. -/
structure Prepared (g : Graph) (kind : ImportIdType) (st st' : OfflineImport) : Prop where
  eq : st' = { st with store := st'.store, bodyDisabled := st'.bodyDisabled }
  tables : kind = .actual → st'.store.body = none
  disabled : st'.bodyDisabled = true ↔ st.bodyDisabled = true ∨ kind = .actual
  ready : st'.store.body = none → st'.bodyDisabled = true
  moved : st'.store.body.isNone = true ∨ g.nodes = [] ∨
    st'.store.body.isNone = st.store.body.isNone

/-- Preparing the body stores the same graph. -/
theorem Filed.prepareBody {g : Graph} {st : OfflineImport} (kind : ImportIdType)
    (h : Filed g st.store st.bodyDisabled st.nextNodeId st.nextEdgeId) :
    ∃ st', st.prepareBody kind = .ok st' ∧ Prepared g kind st st' ∧
      Filed g st'.store st'.bodyDisabled st'.nextNodeId st'.nextEdgeId := by
  obtain ⟨⟨body, tables⟩, disabled⟩ := st
  rw [OfflineImport.prepareBody]
  by_cases hkind : kind = .actual
  · rw [if_pos hkind]
    cases body with
    | none =>
        refine ⟨_, rfl, ⟨rfl, fun _ => rfl, ?_, fun _ => rfl, .inl rfl⟩, h.formed,
          h.content, h.indexed,
          h.ordered, h.noTables, fun hbody => (nomatch hbody), fun _ hfalse => (nomatch hfalse),
            h.nodesBelow, h.edgesBelow,
          fun n hn hkind => ⟨rfl, (h.actual n hn hkind).2⟩⟩
        exact ⟨fun _ => .inr hkind, fun _ => rfl⟩
    | some body =>
        obtain ⟨tables', hwrite, hcontent⟩ := h.writeTables rfl
        dsimp only
        rw [hwrite]
        refine ⟨_, rfl, ⟨rfl, fun _ => rfl, ?_, fun _ => rfl, .inl rfl⟩, h.formed, hcontent, ?_,
          ?_, ?_, ?_,
          fun _ hfalse => (nomatch hfalse), h.nodesBelow, h.edgesBelow,
          fun n hn hkind => ⟨rfl, (h.actual n hn hkind).2⟩⟩
        · exact ⟨fun _ => .inr hkind, fun _ => rfl⟩
        · exact fun _ hbody => nomatch hbody
        · exact fun hbody => nomatch hbody
        · exact fun hbody => nomatch hbody
        · exact fun hbody => nomatch hbody
  · rw [if_neg hkind]
    dsimp only
    split
    · next hnew =>
        obtain rfl := Option.isNone_iff_eq_none.mp hnew.1
        have hdisabled : disabled = false := Bool.eq_false_iff.mpr hnew.2
        have hempty := h.unused rfl hdisabled
        subst hempty hdisabled
        refine ⟨_, rfl, ⟨rfl, fun hactual => absurd hactual hkind, ?_, fun hbody => (nomatch hbody),
          .inr (.inl rfl)⟩, filed_empty h.content (.inr rfl) _ _⟩
        exact ⟨.inl, fun hor => hor.resolve_right hkind⟩
    · next hnew =>
        refine ⟨_, rfl, ⟨rfl, fun hactual => absurd hactual hkind, ?_, fun hbody => ?_,
          .inr (.inr rfl)⟩, h⟩
        · exact ⟨.inl, fun hor => hor.resolve_right hkind⟩
        · dsimp only at hbody ⊢
          by_contra hdisabled
          exact hnew ⟨Option.isNone_iff_eq_none.mpr hbody, hdisabled⟩

end Velr.Native
