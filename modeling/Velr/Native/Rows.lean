import Velr.Native.Lookup

/-!
# The rows of a batch keep the import sound

An import is `Sound` for the graph that was accepted: it is filed, its ids are known, its shapes are
counted. A row keeps it so while its batch is open (`nodeRow_sound`, `relationshipRow_sound`), and
so do the rows of a batch.
-/

namespace Velr.Native

open FirstWins (Map firstOf mem_of_firstOf)
open IdMap (Failure ImportNode ExternalId)
open LabelGroups (Cached)
open Record (Value)
open Results (bind_eq_ok_iff map_eq_ok_iff)
open Tables (Table maxRowid)

/-! ## Counts -/

/-- What is counted for a node. -/
def AcceptedNode.shapes (n : AcceptedNode) : List (Option ShapeKey) :=
  some (.node n.node.labelGroup) ::
    n.properties.map (shapeKey (.nodeProperty n.node.labelGroup))

/-- What is counted for a relationship. -/
def AcceptedEdge.shapes (e : AcceptedEdge) : List (Option ShapeKey) :=
  some (.edge e.edge.typeId e.source.labelGroup e.target.labelGroup) ::
    e.properties.map
      (shapeKey (.edgeProperty e.edge.typeId e.source.labelGroup e.target.labelGroup))

/-- How often a key is counted for a graph. -/
def Graph.counts (g : Graph) (key : ShapeKey) : Nat :=
  (g.nodes.flatMap AcceptedNode.shapes).count (some key) +
    (g.edges.flatMap AcceptedEdge.shapes).count (some key)

/-- Every value has a shape. -/
structure Graph.Shaped (g : Graph) : Prop where
  nodes : ∀ n ∈ g.nodes, ∀ p ∈ n.properties, ∃ shape, PropertyShape.of p.2 = .ok shape
  edges : ∀ e ∈ g.edges, ∀ p ∈ e.properties, ∃ shape, PropertyShape.of p.2 = .ok shape

section
variable {g : Graph} {n : AcceptedNode} {e : AcceptedEdge}
    {shape : Int64 → PropertyShape → ShapeKey}
  {p : Int64 × Value}

theorem shapeKey_eq_some (h : ∃ key, shapeKey shape p = some key) :
    ∃ s, PropertyShape.of p.2 = .ok s := by
  obtain ⟨key, h⟩ := h
  rw [shapeKey] at h
  split at h
  · next s hs => exact ⟨s, hs⟩
  · cases h

/-- A node with shaped properties keeps the graph shaped. -/
theorem Graph.Shaped.addNode (h : g.Shaped)
    (hn : ∀ p ∈ n.properties, ∃ s, PropertyShape.of p.2 = .ok s) : (g.addNode n).Shaped where
  nodes := by
    intro n' hn'
    rw [Graph.addNode, List.mem_append, List.mem_singleton] at hn'
    rcases hn' with hn' | rfl
    · exact h.nodes n' hn'
    · exact hn
  edges := h.edges

/-- So does a relationship. -/
theorem Graph.Shaped.addEdge (h : g.Shaped)
    (he : ∀ p ∈ e.properties, ∃ s, PropertyShape.of p.2 = .ok s) : (g.addEdge e).Shaped where
  nodes := h.nodes
  edges := by
    intro e' he'
    rw [Graph.addEdge, List.mem_append, List.mem_singleton] at he'
    rcases he' with he' | rfl
    · exact h.edges e' he'
    · exact he

/-- A key counts once more where it is the first of some shapes. -/
theorem count_shapes (first key : ShapeKey) (shapes : List (Option ShapeKey)) :
    (some first :: shapes).count (some key) =
      (if key = first then 1 else 0) + shapes.count (some key) := by
  rw [List.count_cons, Nat.add_comm]
  refine congrArg (· + _) (if_congr ?_ rfl rfl)
  rw [beq_iff_eq, Option.some.injEq, eq_comm]

/-- A node adds its shapes to the counts. -/
theorem counts_addNode (g : Graph) (n : AcceptedNode) (key : ShapeKey) :
    (g.addNode n).counts key = g.counts key + n.shapes.count (some key) := by
  rw [Graph.counts, Graph.counts, Graph.addNode]
  dsimp only
  rw [List.flatMap_append, List.count_append, List.flatMap_singleton]
  omega

/-- A relationship adds its shapes to the counts. -/
theorem counts_addEdge (g : Graph) (e : AcceptedEdge) (key : ShapeKey) :
    (g.addEdge e).counts key = g.counts key + e.shapes.count (some key) := by
  rw [Graph.counts, Graph.counts, Graph.addEdge]
  dsimp only
  rw [List.flatMap_append, List.count_append, List.flatMap_singleton]
  omega

end

/-! ## Property keys -/

/-- The dictionary of the property keys and its cache. -/
structure Names.KeysSound (names : Names) : Prop where
  cached : Cached names.keys names.keyDict
  fits : names.keyDict.sequence ≤ maxRowid

section
variable {names names' : Names} {cache cache' : String → Option Int}
    {table table' : Table String Unit}

theorem Names.KeysSound.frame (h : names.KeysSound) (hsame : names.SameKeys names') :
    names'.KeysSound := by
  obtain ⟨hcached, hfits⟩ := h
  rw [← hsame.keys, ← hsame.keyDict] at hcached
  rw [← hsame.keyDict] at hfits
  exact ⟨hcached, hfits⟩

/-- Resolving a name keeps the ids in range. -/
theorem resolveDict_fits {name : String} {id : Int} (h : table.sequence ≤ maxRowid)
    (hresolve : LabelGroups.resolveDict cache table name = .ok (id, cache', table')) :
    table'.sequence ≤ maxRowid := by
  rw [LabelGroups.resolveDict] at hresolve
  split at hresolve
  · cases hresolve
    exact h
  · obtain ⟨⟨id', table₁⟩, hinsert, hresolve⟩ := bind_eq_ok_iff.mp hresolve
    cases hresolve
    rw [Table.insert] at hinsert
    split at hinsert
    · cases hinsert
    · split at hinsert
      · cases hinsert
      · next hroom _ =>
          cases hinsert
          exact Int.lt_of_not_ge hroom

/-- So does resolving several. -/
theorem resolveNames_fits : ∀ {names : List String} {ids : List Int} {cache : String → Option Int}
    {table : Table String Unit}, table.sequence ≤ maxRowid →
    LabelGroups.resolveNames cache table names = .ok (ids, cache', table') →
    table'.sequence ≤ maxRowid
  | [], _, _, _, h, hresolve => by
      cases hresolve
      exact h
  | name :: names, _, _, _, h, hresolve => by
      obtain ⟨⟨id, cache₁, table₁⟩, hfirst, hresolve⟩ := bind_eq_ok_iff.mp hresolve
      obtain ⟨⟨ids, cache₂, table₂⟩, hrest, hresolve⟩ := bind_eq_ok_iff.mp hresolve
      cases hresolve
      exact resolveNames_fits (resolveDict_fits h hfirst) hrest

/-- Names of their own have keys of their own. -/
theorem nodup_keys (h : names.KeysSound) {properties : List String} {ids : List Int}
    (hnames : properties.Nodup)
    (hids : List.Forall₂ (fun name id => names.keys name = some id) properties ids) :
    (ids.map Int64.ofInt).Nodup := by
  have hrow : ∀ name id, names.keys name = some id →
      (⟨id, name, ()⟩ : Tables.Row String Unit) ∈ names.keyDict.rows :=
    fun name id hid => (h.cached name id).mp hid
  rw [List.Nodup, List.pairwise_map]
  refine Results.forall₂_pairwise hids hnames fun name name' id id' hid hid' hne heq => hne ?_
  have hbounds := names.keyDict.ids _ (hrow name id hid)
  have hbounds' := names.keyDict.ids _ (hrow name' id' hid')
  have hfits := h.fits
  rw [maxRowid] at hfits
  dsimp only at hbounds hbounds'
  have hsame : id = id' := by
    have hid := Int64.toInt_ofInt_of_le (n := id) (by omega) (by omega)
    have hid' := Int64.toInt_ofInt_of_le (n := id') (by omega) (by omega)
    rw [← hid, ← hid', heq]
  subst hsame
  have hrows := Table.eq_of_id (hrow name id hid) (hrow name' id hid') rfl
  rw [Tables.Row.mk.injEq] at hrows
  exact hrows.2.1

theorem sqlError_eq_ok {α : Type} {x : Except Tables.SqlError α} {a : α} :
    sqlError x = .ok a ↔ x = .ok a := by
  cases x with
  | error e => exact ⟨fun h => (nomatch h), fun h => (nomatch h)⟩
  | ok a' => exact ⟨fun h => by cases h; rfl, fun h => by cases h; rfl⟩

/-- The properties of a batch have keys of their own. -/
theorem propertyKeys_ok (h : names.KeysSound) {properties : List ImportPropertyColumn}
    (hnames : (properties.map (·.name)).Nodup) {keys : List Int64}
    (hkeys : names.propertyKeys properties = .ok (keys, names')) :
    names'.KeysSound ∧ keys.Nodup := by
  obtain ⟨⟨ids, cache', keyDict⟩, hresolve, hkeys⟩ := bind_eq_ok_iff.mp hkeys
  cases hkeys
  rw [sqlError_eq_ok] at hresolve
  have houtcome := LabelGroups.resolveNames_outcome h.cached (properties.map (·.name))
  rw [hresolve] at houtcome
  obtain ⟨hcached, hids, -, -⟩ := houtcome
  have hsound : ({ names with keys := cache', keyDict } : Names).KeysSound :=
    ⟨hcached, resolveNames_fits h.fits hresolve⟩
  exact ⟨hsound, nodup_keys hsound hnames hids⟩

/-- Names that are valid differ from each other and from those seen. -/
theorem validateNames_ok : ∀ {properties : List ImportPropertyColumn} {seen : List String},
    validateNames seen properties = .ok () →
    (properties.map (·.name)).Nodup ∧ ∀ name ∈ properties.map (·.name), name ∉ seen
  | [], _, _ => ⟨.nil, fun _ hname => (nomatch hname)⟩
  | property :: properties, seen, h => by
      rw [validateNames] at h
      split at h
      · cases h
      · next hnew =>
          obtain ⟨hnodup, hseen⟩ := validateNames_ok h
          rw [List.map_cons, List.nodup_cons]
          refine ⟨⟨fun hmem => hseen _ hmem List.mem_cons_self, hnodup⟩, ?_⟩
          rw [List.forall_mem_cons]
          exact ⟨fun hmem => hnew (.inr hmem), fun name hname hmem =>
            hseen name hname (List.mem_cons_of_mem _ hmem)⟩

end

/-! ## Soundness -/

/-- An import in the middle of a batch is one of a graph. -/
structure Sound (g : Graph) (b : Batch) : Prop where
  filed : Filed g b.st.store b.st.bodyDisabled b.st.nextNodeId b.st.nextEdgeId
  known : Known g b.st.groups b.st.ids b.st.store.body.isNone b.st.relationshipsStarted
  keys : b.st.names.KeysSound
  shaped : g.Shaped
  positive : Positive b.slots b.st.shapeCounts
  counted : ∀ key, b.counted key = g.counts key

/-- What a batch of nodes has seen to before its rows. -/
structure NodeBatch.Open (batch : NodeBatch) (st : OfflineImport) : Prop where
  keys : (batch.properties.map Prod.snd).Nodup
  group : st.groups.find batch.spec.idGroup = some batch.group
  tables : batch.spec.idType = .actual → st.store.body = none
  ready : st.store.body = none → st.bodyDisabled = true
  unstarted : st.relationshipsStarted = false

/-- What a batch of relationships has seen to before its rows. -/
structure RelationshipBatch.Open (batch : RelationshipBatch) (st : OfflineImport) : Prop where
  keys : (batch.properties.map Prod.snd).Nodup
  startGroup : st.groups.find batch.spec.startGroup = some batch.startGroup
  endGroup : st.groups.find batch.spec.endGroup = some batch.endGroup
  started : st.relationshipsStarted = true

/-- What the rows of a batch leave as it is. -/
structure OfflineImport.Keeps (st st' : OfflineImport) : Prop where
  bodyDisabled : st'.bodyDisabled = st.bodyDisabled
  groups : st'.groups = st.groups
  groupIdTypes : st'.groupIdTypes = st.groupIdTypes
  started : st'.relationshipsStarted = st.relationshipsStarted

theorem OfflineImport.Keeps.refl (st : OfflineImport) : st.Keeps st := ⟨rfl, rfl, rfl, rfl⟩

/-- What is kept twice is kept. -/
theorem OfflineImport.Keeps.trans {st₁ st₂ st₃ : OfflineImport} (h : st₁.Keeps st₂)
    (h' : st₂.Keeps st₃) : st₁.Keeps st₃ where
  bodyDisabled := h'.bodyDisabled.trans h.bodyDisabled
  groups := h'.groups.trans h.groups
  groupIdTypes := h'.groupIdTypes.trans h.groupIdTypes
  started := h'.started.trans h.started

/-- The graph with the nodes that a row or more have become. -/
def Graph.addNodes (g : Graph) (ns : List AcceptedNode) : Graph := { g with nodes := g.nodes ++ ns }

/-- The graph with the relationships that a row or more have become. -/
def Graph.addEdges (g : Graph) (es : List AcceptedEdge) : Graph := { g with edges := g.edges ++ es }

theorem addNodes_nil (g : Graph) : g.addNodes [] = g := by
  rw [Graph.addNodes, List.append_nil]

theorem addEdges_nil (g : Graph) : g.addEdges [] = g := by
  rw [Graph.addEdges, List.append_nil]

theorem addNodes_append (g : Graph) (ns ns' : List AcceptedNode) :
    (g.addNodes ns).addNodes ns' = g.addNodes (ns ++ ns') := by
  rw [Graph.addNodes, Graph.addNodes, Graph.addNodes, List.append_assoc]

theorem addEdges_append (g : Graph) (es es' : List AcceptedEdge) :
    (g.addEdges es).addEdges es' = g.addEdges (es ++ es') := by
  rw [Graph.addEdges, Graph.addEdges, Graph.addEdges, List.append_assoc]

theorem Store.Follows.isNone {store store' : Store} (h : store.Follows store') :
    store'.body.isNone = store.body.isNone := by
  rw [← Option.not_isSome, ← Option.not_isSome, h.body]

theorem Store.Follows.eq_none {store store' : Store} (h : store.Follows store')
    (hbody : store'.body = none) : store.body = none := by
  rw [← Option.isNone_iff_eq_none, ← h.isNone, hbody]
  rfl

/-! ## Rows of nodes -/

section
variable {env : Environment} {batch : NodeBatch} {number : Nat} {row : Row} {g : Graph}
    {b b' : Batch}
  {external : Option ExternalId} {next nodeId : Int64} {kind : ImportIdType}

/-- A generated id is the next one. -/
theorem assignId_of_ne (h : assignId kind external next = .ok nodeId) (hkind : kind ≠ .actual) :
    nodeId = next := by
  unfold assignId at h
  split at h
  · exact absurd rfl hkind
  · exact absurd rfl hkind
  · cases h
    rfl

/-- An actual id is the declared integer. -/
theorem assignId_actual (h : assignId .actual external next = .ok nodeId) :
    ∀ declared ∈ external, declared = .integer nodeId := by
  rintro declared rfl
  unfold assignId at h
  cases declared with
  | integer value =>
      dsimp only at h
      split at h
      · cases h
        rfl
      · cases h
  | string value => cases h

/-- A batch stays open when its fields are kept. -/
theorem NodeBatch.Open.frame {st st' : OfflineImport} (h : batch.Open st) (hkeeps : st.Keeps st')
    (hstore : st.store.Follows st'.store) : batch.Open st' where
  keys := h.keys
  group := hkeeps.groups ▸ h.group
  tables hkind := by
    rw [← Option.isNone_iff_eq_none, hstore.isNone, h.tables hkind]
    rfl
  ready hbody := hkeeps.bodyDisabled.trans (h.ready (hstore.eq_none hbody))
  unstarted := hkeeps.started.trans h.unstarted

/-- A row keeps the import sound: what it adds is a node, or nothing. -/
theorem nodeRow_sound {outcome : Option AcceptedNode} (h : Sound g b) (hopen : batch.Open b.st)
    (hrow : batch.row env number row b = .ok (outcome, b')) :
    Sound (g.addNodes outcome.toList) b' ∧ b.st.Keeps b'.st ∧ batch.Open b'.st := by
  obtain ⟨external, id, labelGroup, names, new, ids, -, hid, hnames, hdeclare, hcases⟩ :=
    nodeRow_ok hrow
  have hknown : Known g b.st.groups b.st.ids b.st.store.body.isNone false := by
    rw [← hopen.unstarted]
    exact h.known
  -- a row that is skipped leaves the ids, and all else but the names
  have hskip : new = false ∨ batch.spec.idType = .actual →
      Sound g ⟨{ b.st with names, ids }, b.slots⟩ := by
    intro hwhy
    refine ⟨h.filed, ?_, h.keys.frame hnames, h.shaped, h.positive, h.counted⟩
    dsimp only
    rw [hopen.unstarted]
    exact hknown.skip hopen.group hdeclare hwhy
  have hkeeps : b.st.Keeps { b.st with names, ids } := ⟨rfl, rfl, rfl, rfl⟩
  rcases hcases with ⟨rfl, rfl, rfl⟩ | ⟨rfl, rfl, rfl, hbody, hmem⟩ |
    ⟨rfl, store, accepted, rfl, hnode, haccept⟩
  · rw [Option.toList_none, addNodes_nil]
    exact ⟨hskip (.inl rfl), hkeeps, hopen.frame hkeeps (.refl _)⟩
  · rw [Option.toList_none, addNodes_nil]
    refine ⟨hskip (.inr ?_), hkeeps, hopen.frame hkeeps (.refl _)⟩
    by_contra hkind
    rw [h.filed.node_ids, assignId_of_ne hid hkind] at hmem
    exact h.filed.next_not_mem hmem
  · obtain ⟨haccepted, sink, nextNodeId, hnext, rfl, sink₀, hstore, hpositive₀, hcounted₀,
      hstored⟩ :=
      acceptNode_ok haccept
    obtain ⟨-, hfollows, hfresh⟩ := node_true hnode
    have hfollows' : store.Follows sink.store := by
      have hafter := hstored.follows
      rw [hstore] at hafter
      exact hafter
    have hall := hfollows.trans hfollows'
    obtain ⟨kind, group, declared, node, properties⟩ := accepted
    cases haccepted
    have hkeys : (properties.map Prod.fst).Nodup := hopen.keys.sublist hstored.keys
    refine ⟨⟨?_, ?_, h.keys.frame hnames, ?_, hstored.positive (hpositive₀ h.positive),
      fun key => ?_⟩, ⟨rfl, rfl, rfl, rfl⟩,
      hopen.frame ⟨rfl, rfl, rfl, rfl⟩ hall⟩
    · refine h.filed.addNode (n := ⟨batch.spec.idType, _, external, ⟨id, labelGroup⟩, properties⟩)
        hnode ?_ hfollows' hnext hopen.ready (fun hbody => assignId_of_ne hid fun hkind => ?_) hkeys
        fun hkind => ⟨hopen.ready (hopen.tables hkind), ?_⟩
      · rw [hstored.content, hstore]
      · rw [hopen.tables hkind] at hbody
        cases hbody
      · dsimp only at hkind
        rw [hkind] at hid
        exact assignId_actual hid
    · dsimp only
      rw [hall.isNone, hopen.unstarted]
      refine hknown.addNode ⟨batch.spec.idType, _, external, ⟨id, labelGroup⟩, properties⟩
        hopen.group hdeclare fun hkind => ⟨?_, ?_, ?_⟩
      · rw [hopen.tables hkind]
        rfl
      · rw [← h.filed.node_ids]
        exact hfresh (hopen.tables hkind)
      · dsimp only at hkind
        rw [hkind] at hid
        exact assignId_actual hid
    · exact h.shaped.addNode fun p hp => shapeKey_eq_some (hstored.shaped p hp)
    · have hcount := hstored.counted key
      have hbefore := h.counted key
      rw [hcounted₀] at hcount
      have hsame :
          (⟨{ b.st with names, ids, store }, b.slots⟩ : Batch).counted key = b.counted key := rfl
      rw [hsame, hbefore] at hcount
      refine Eq.trans hcount ?_
      refine Eq.trans ?_ (counts_addNode g _ key).symm
      rw [AcceptedNode.shapes, count_shapes, Nat.add_assoc]

/-- The rows of a batch keep the import sound. -/
theorem nodeRows_sound : ∀ {rows : List Row} {number : Nat} {outcomes : List (Option AcceptedNode)}
    {g : Graph} {b : Batch}, Sound g b → (rows ≠ [] → batch.Open b.st) →
    batch.rows env number rows b = .ok (outcomes, b') →
    Sound (g.addNodes (outcomes.filterMap id)) b' ∧ b.st.Keeps b'.st ∧
      (rows ≠ [] → batch.Open b'.st)
  | [], number, outcomes, g, b, h, hopen, hrows => by
      cases hrows
      rw [List.filterMap_nil, addNodes_nil]
      exact ⟨h, .refl _, hopen⟩
  | row :: rows, number, outcomes, g, b, h, hopen, hrows => by
      obtain ⟨⟨outcome, b₁⟩, hrow, hrows⟩ := bind_eq_ok_iff.mp hrows
      obtain ⟨⟨outcomes₁, b₂⟩, hrest, hrows⟩ := bind_eq_ok_iff.mp hrows
      cases hrows
      obtain ⟨h₁, hkeeps, hopen₁⟩ := nodeRow_sound h (hopen (List.cons_ne_nil _ _)) hrow
      obtain ⟨h', hkeeps', hopen'⟩ := nodeRows_sound h₁ (fun _ => hopen₁) hrest
      rw [addNodes_append] at h'
      have hafter : batch.Open b'.st := by
        cases rows with
        | nil =>
            cases hrest
            exact hopen₁
        | cons next rows => exact hopen' (List.cons_ne_nil _ _)
      refine ⟨?_, hkeeps.trans hkeeps', fun _ => hafter⟩
      cases outcome with
      | none => exact h'
      | some n => exact h'

end

/-! ## Rows of relationships -/

section
variable {env : Environment} {batch : RelationshipBatch} {number : Nat} {row : Row} {g : Graph}
  {b b' : Batch} {group : Int64}

/-- An answer is a node of the graph. -/
theorem answer_mem {groups : Map String Int64} {tables : Bool} {id : ExternalId} {node : ImportNode}
    (h : g.answer groups tables group id = some node) : node ∈ g.nodes.map (·.node) := by
  by_cases hgroup : group = 0
  · subst hgroup
    cases id with
    | string id => cases h
    | integer id =>
        rw [answer_zero] at h
        split at h
        · rw [Graph.nodeOf, Option.map_eq_some_iff] at h
          obtain ⟨labelGroup, hfirst, rfl⟩ := h
          obtain ⟨n, hn, heq⟩ := List.mem_map.mp (mem_of_firstOf hfirst)
          rw [Prod.mk.injEq] at heq
          obtain ⟨rfl, rfl⟩ := heq
          exact List.mem_map.mpr ⟨n, hn, rfl⟩
        · cases h
  · rw [answer_of_ne_zero hgroup] at h
    obtain ⟨⟨key, node'⟩, hentry, heq⟩ := List.mem_filterMap.mp (mem_of_firstOf h)
    obtain ⟨n, hn, hdeclares⟩ := List.mem_filterMap.mp hentry
    obtain ⟨number, -, heq⟩ := Option.map_eq_some_iff.mp heq
    cases heq
    rw [AcceptedNode.declares] at hdeclares
    split at hdeclares
    · cases hdeclares
    · obtain ⟨id', -, heq⟩ := Option.map_eq_some_iff.mp hdeclares
      cases heq
      exact List.mem_map.mpr ⟨n, hn, rfl⟩

/-- The tables have what is stored. -/
theorem Filed.tablesHave {store : Store} {bodyDisabled : Bool} {nextNodeId nextEdgeId : Int64}
    (h : Filed g store bodyDisabled nextNodeId nextEdgeId) : TablesHave g store := by
  have hcontent := h.content
  rw [TablesHave]
  cases hbody : store.body with
  | none =>
      rw [Store.content, hbody] at hcontent
      exact congrArg Content.node hcontent
  | some body =>
      have hempty := h.noTables (by rw [hbody]; rfl)
      exact congrArg Content.node hempty

/-- A lookup with the state of an import: it finds the answer, and changes the cache only. -/
theorem Sound.lookupNode (h : Sound g b) (hstarted : b.st.relationshipsStarted = true)
    (hgroup : group ≠ 0) {kind : ImportIdType} {external : Option ExternalId}
    (hfits : ∀ id ∈ external, Fits kind id) :
    ∃ idCache, b.st.lookupNode group kind external =
        .ok (external.bind (g.answer b.st.groups b.st.store.body.isNone (cachedGroup kind group)),
          { b.st with ids := { b.st.ids with idCache } }) ∧
      Sound g ⟨{ b.st with ids := { b.st.ids with idCache } }, b.slots⟩ := by
  have hknown := h.known
  rw [hstarted] at hknown
  cases external with
  | none => exact ⟨b.st.ids.idCache, rfl, h⟩
  | some id =>
      obtain ⟨idCache, hlookup, hknown'⟩ :=
        hknown.lookupNode h.filed.tablesHave hgroup (hfits id rfl)
      refine ⟨idCache, hlookup, h.filed, ?_, h.keys, h.shaped, h.positive, h.counted⟩
      dsimp only
      rw [hstarted]
      exact hknown'

/-- A batch of relationships stays open when its fields are kept. -/
theorem RelationshipBatch.Open.frame {st st' : OfflineImport} (h : batch.Open st)
    (hkeeps : st.Keeps st') : batch.Open st' where
  keys := h.keys
  startGroup := hkeeps.groups ▸ h.startGroup
  endGroup := hkeeps.groups ▸ h.endGroup
  started := hkeeps.started.trans h.started

/-- A row that becomes a relationship between two nodes. -/
theorem acceptEdge_sound {accepted : AcceptedEdge} {source target : ImportNode} (h : Sound g b)
    (hkeys : (batch.properties.map Prod.snd).Nodup) (hsource : source ∈ g.nodes.map (·.node))
    (htarget : target ∈ g.nodes.map (·.node))
    (haccept : batch.accept env number row source target b = .ok (accepted, b')) :
    Sound (g.addEdge accepted) b' ∧ b.st.Keeps b'.st := by
  obtain ⟨⟨hid, rfl, rfl, hfrom, hto⟩, hnext, sink, names, rfl, hnames, sink₀, hcontent₀, hfollows₀,
    hpositive₀, hcounted₀, hstored⟩ := acceptEdge_ok haccept
  have hfollows := hfollows₀.trans hstored.follows
  refine ⟨⟨?_, ?_, h.keys.frame hnames, ?_, hstored.positive (hpositive₀ h.positive),
    fun key => ?_⟩, rfl, rfl, rfl, rfl⟩
  · refine h.filed.addEdge hid hnext ?_ hfollows ⟨hsource, htarget, hfrom, hto⟩
      (hkeys.sublist hstored.keys)
    rw [hstored.content, hcontent₀]
  · dsimp only
    rw [hfollows.isNone]
    exact ⟨h.known.grouped, h.known.placed, h.known.know, h.known.cache, h.known.bytes⟩
  · exact h.shaped.addEdge fun p hp => shapeKey_eq_some (hstored.shaped p hp)
  · have hcount := hstored.counted key
    rw [hcounted₀, h.counted key] at hcount
    refine Eq.trans hcount ?_
    rw [counts_addEdge, AcceptedEdge.shapes, count_shapes, Nat.add_assoc]

/-- A row keeps the import sound: what it adds is a relationship, or nothing. -/
theorem relationshipRow_sound {outcome : Option AcceptedEdge} (h : Sound g b)
    (hopen : batch.Open b.st) (hrow : batch.row env number row b = .ok (outcome, b')) :
    Sound (g.addEdges outcome.toList) b' ∧ b.st.Keeps b'.st ∧ batch.Open b'.st := by
  obtain ⟨startId, endId, start, stop, st₁, st₂, hstartId, hendId, hstart, hstop, hcases⟩ :=
    relationshipRow_ok hrow
  have hne : ∀ {name : String} {group : Int64}, b.st.groups.find name = some group → group ≠ 0 :=
    fun hname => h.known.grouped.ne_zero hname
  have hstartFits : ∀ id ∈ startId, Fits batch.startType id :=
    fun id hid => externalId_fits (by rw [hstartId, hid])
  have hendFits : ∀ id ∈ endId, Fits batch.endType id :=
    fun id hid => externalId_fits (by rw [hendId, hid])
  obtain ⟨cache₁, hlookup₁, h₁⟩ := h.lookupNode hopen.started (hne hopen.startGroup) hstartFits
  rw [hlookup₁] at hstart
  cases hstart
  obtain ⟨cache₂, hlookup₂, h₂⟩ := h₁.lookupNode hopen.started (hne hopen.endGroup) hendFits
  rw [hlookup₂] at hstop
  cases hstop
  have hkeeps : b.st.Keeps { b.st with ids := { b.st.ids with idCache := cache₂ } } :=
    ⟨rfl, rfl, rfl, rfl⟩
  rcases hcases with ⟨-, rfl, rfl⟩ | ⟨source, target, accepted, hsource, htarget, rfl, haccept⟩
  · rw [Option.toList_none, addEdges_nil]
    exact ⟨h₂, hkeeps, hopen.frame hkeeps⟩
  · obtain ⟨_, -, hsource⟩ := Option.bind_eq_some_iff.mp hsource
    obtain ⟨_, -, htarget⟩ := Option.bind_eq_some_iff.mp htarget
    obtain ⟨h', hkeeps'⟩ := acceptEdge_sound h₂ hopen.keys (answer_mem hsource)
      (answer_mem htarget) haccept
    exact ⟨h', hkeeps.trans hkeeps', hopen.frame (hkeeps.trans hkeeps')⟩

/-- The rows of a batch keep the import sound. -/
theorem relationshipRows_sound : ∀ {rows : List Row} {number : Nat}
    {outcomes : List (Option AcceptedEdge)} {g : Graph} {b : Batch}, Sound g b →
    (rows ≠ [] → batch.Open b.st) → batch.rows env number rows b = .ok (outcomes, b') →
    Sound (g.addEdges (outcomes.filterMap id)) b' ∧ b.st.Keeps b'.st
  | [], number, outcomes, g, b, h, _, hrows => by
      cases hrows
      rw [List.filterMap_nil, addEdges_nil]
      exact ⟨h, .refl _⟩
  | row :: rows, number, outcomes, g, b, h, hopen, hrows => by
      obtain ⟨⟨outcome, b₁⟩, hrow, hrows⟩ := bind_eq_ok_iff.mp hrows
      obtain ⟨⟨outcomes₁, b₂⟩, hrest, hrows⟩ := bind_eq_ok_iff.mp hrows
      cases hrows
      obtain ⟨h₁, hkeeps, hopen₁⟩ := relationshipRow_sound h (hopen (List.cons_ne_nil _ _)) hrow
      obtain ⟨h', hkeeps'⟩ := relationshipRows_sound h₁ (fun _ => hopen₁) hrest
      rw [addEdges_append] at h'
      refine ⟨?_, hkeeps.trans hkeeps'⟩
      cases outcome with
      | none => exact h'
      | some e => exact h'

end

end Velr.Native
