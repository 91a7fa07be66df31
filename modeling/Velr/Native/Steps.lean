import Velr.Native.Storage

/-!
# What a row does

Inversion of the rows of a batch: which row is skipped and which becomes a node or a relationship,
what is stored for it, and what is counted.
-/

namespace Velr.Native

open IdMap (Failure ImportNode ExternalId)
open Record (Value)
open Results (bind_eq_ok_iff map_eq_ok_iff)

/-- The key that a property is counted under. -/
def shapeKey (shape : Int64 → PropertyShape → ShapeKey) (p : Int64 × Value) : Option ShapeKey :=
  match PropertyShape.of p.2 with
  | .ok propertyShape => some (shape p.1 propertyShape)
  | .error _ => none

/-- What a sink has counted. -/
def Sink.counted (sink : Sink) (key : ShapeKey) : Nat :=
  Native.counted sink.slots sink.shapeCounts key

/-- Every count of a sink is one of something. -/
def Sink.Positive (sink : Sink) : Prop := Native.Positive sink.slots sink.shapeCounts

/-- What a batch has counted. -/
def Batch.counted (b : Batch) (key : ShapeKey) : Nat := Native.counted b.slots b.st.shapeCounts key

/-- Counting a shape adds one to its count and stores nothing. -/
theorem sink_increment {sink sink' : Sink} {slot : Nat} {key : ShapeKey}
    (h : sink.increment slot key = .ok sink') :
    sink'.store = sink.store ∧ (sink.Positive → sink'.Positive) ∧
      ∀ key', sink'.counted key' = sink.counted key' + if key' = key then 1 else 0 := by
  obtain ⟨⟨slots, shapeCounts⟩, hincrement, h⟩ := bind_eq_ok_iff.mp h
  cases h
  exact ⟨rfl, fun hpositive => increment_positive hpositive hincrement,
    (increment_counted hincrement).2⟩

/-- The row of a property. -/
def keyed (owner : Int64) (p : Int64 × Value) : (Int64 × Int64) × Value := ((owner, p.1), p.2)

/-- A way to store properties of an owner: they join the rows of one table. -/
structure Stores (owner : Int64)
    (store : Int64 → Value → Store → Except (Failure ImportError) Store)
    (add : Content → List ((Int64 × Int64) × Value) → Content) : Prop where
  nil : ∀ c, add c [] = c
  append : ∀ c rows rows', add (add c rows) rows' = add c (rows ++ rows')
  store : ∀ {key : Int64} {value : Value} {s s' : Store}, store key value s = .ok s' →
    s'.content = add s.content [keyed owner (key, value)] ∧ s.Follows s'

/-- A node property is stored under its node and key. -/
theorem stores_node (owner : Int64) :
    Stores owner (Store.nodeProperty owner) Content.addNodeProperties where
  nil c := by rw [Content.addNodeProperties, List.append_nil]
  append c rows rows' := by
    rw [Content.addNodeProperties, Content.addNodeProperties, Content.addNodeProperties]
    dsimp only
    rw [List.append_assoc]
  store := nodeProperty_ok

/-- So is a relationship property. -/
theorem stores_edge (owner : Int64) :
    Stores owner (Store.edgeProperty owner) Content.addEdgeProperties where
  nil c := by rw [Content.addEdgeProperties, List.append_nil]
  append c rows rows' := by
    rw [Content.addEdgeProperties, Content.addEdgeProperties, Content.addEdgeProperties]
    dsimp only
    rw [List.append_assoc]
  store := edgeProperty_ok

section
variable {env : Environment} {row : Row}

/-- What the properties of a row leave: their rows are stored and counted, each of a key of its
own. -/
structure Stored (owner : Int64) (add : Content → List ((Int64 × Int64) × Value) → Content)
    (shape : Int64 → PropertyShape → ShapeKey) (keys : List Int64) (stored : List (Int64 × Value))
    (sink sink' : Sink) : Prop where
  content : sink'.store.content = add sink.store.content (stored.map (keyed owner))
  follows : sink.store.Follows sink'.store
  keys : (stored.map Prod.fst).Sublist keys
  shaped : ∀ p ∈ stored, ∃ key, shapeKey shape p = some key
  positive : sink.Positive → sink'.Positive
  counted : ∀ key,
    sink'.counted key = sink.counted key + (stored.map (shapeKey shape)).count (some key)

/-- The properties of a row are stored and counted, each once. -/
theorem storeProperties_ok {owner : Int64}
    {store : Int64 → Value → Store → Except (Failure ImportError) Store}
    {add : Content → List ((Int64 × Int64) × Value) → Content} (hstores : Stores owner store add)
    {shape : Int64 → PropertyShape → ShapeKey} :
    ∀ {properties : List (ImportPropertyColumn × Int64)} {slot : Nat} {sink sink' : Sink}
      {stored : List (Int64 × Value)},
      storeProperties env row store shape slot properties sink = .ok (stored, sink') →
      Stored owner add shape (properties.map Prod.snd) stored sink sink'
  | [], slot, sink, sink', stored, h => by
      cases h
      exact ⟨(hstores.nil _).symm, .refl _, List.Sublist.refl _, fun _ hp => (nomatch hp), id,
        fun _ => rfl⟩
  | (property, key) :: properties, slot, sink, sink', stored, h => by
      rw [storeProperties] at h
      split at h
      · have hrest := storeProperties_ok hstores h
        exact ⟨hrest.content, hrest.follows, hrest.keys.cons _, hrest.shaped, hrest.positive,
          hrest.counted⟩
      · obtain ⟨_, -, h⟩ := bind_eq_ok_iff.mp h
        obtain ⟨written, hwritten, h⟩ := bind_eq_ok_iff.mp h
        obtain ⟨propertyShape, hshape, h⟩ := bind_eq_ok_iff.mp h
        obtain ⟨sink₁, hincrement, h⟩ := bind_eq_ok_iff.mp h
        obtain ⟨⟨stored₁, sink₂⟩, hloop, h⟩ := bind_eq_ok_iff.mp h
        cases h
        obtain ⟨hcontent, hfollows⟩ := hstores.store hwritten
        obtain ⟨hstore, hpositive, hcounted⟩ := sink_increment hincrement
        dsimp only at hstore
        have hrest := storeProperties_ok hstores hloop
        have hkey :
            shapeKey shape (key, cell row property.column) = some (shape key propertyShape) := by
          rw [shapeKey, hshape]
        refine ⟨?_, ?_, hrest.keys.cons_cons _, ?_, hrest.positive ∘ hpositive, fun key' => ?_⟩
        · rw [hrest.content, hstore, hcontent, hstores.append]
          rfl
        · rw [← hstore] at hfollows
          exact hfollows.trans hrest.follows
        · rw [List.forall_mem_cons]
          exact ⟨⟨_, hkey⟩, hrest.shaped⟩
        · rw [hrest.counted, hcounted, List.map_cons, List.count_cons, hkey]
          have hsame :
              (some (shape key propertyShape) == some key') =
                decide (key' = shape key propertyShape) := by
            rw [Bool.eq_iff_iff, beq_iff_eq, decide_eq_true_iff, Option.some.injEq, eq_comm]
          rw [hsame]
          simp only [decide_eq_true_eq]
          have hsink :
            ({ sink with store := written } : Sink).counted key' = sink.counted key' := rfl
          omega

end

/-! ## Names -/

/-- The property keys of two dictionaries are the same. -/
structure Names.SameKeys (names names' : Names) : Prop where
  keys : names'.keys = names.keys
  keyDict : names'.keyDict = names.keyDict

theorem Names.SameKeys.refl (names : Names) : names.SameKeys names := ⟨rfl, rfl⟩

/-- Resolving a label group keeps the property keys. -/
theorem labelGroup_keys {env : Environment} {names names' : Names} {labels : List String}
    {group : Int64} (h : names.labelGroup env labels = .ok (group, names')) :
    names.SameKeys names' := by
  rw [Names.labelGroup] at h
  split at h
  · cases h
    exact ⟨rfl, rfl⟩
  · cases h
  · cases h

/-- So does resolving a type. -/
theorem edgeType_keys {names names' : Names} {name : String} {id : Int64}
    (h : names.edgeType name = .ok (id, names')) : names.SameKeys names' := by
  obtain ⟨⟨id', edgeTypes, edgeTypeDict⟩, -, h⟩ := bind_eq_ok_iff.mp h
  cases h
  exact ⟨rfl, rfl⟩

/-! ## Nodes -/

section
variable {env : Environment} {batch : NodeBatch} {number : Nat} {row : Row} {b b' : Batch}
  {external : Option ExternalId} {node : ImportNode} {accepted : AcceptedNode}

/-- A row that becomes a node. -/
theorem acceptNode_ok (h : batch.accept env row external node b = .ok (accepted, b')) :
    accepted = ⟨batch.spec.idType, batch.spec.idGroup, external, node, accepted.properties⟩ ∧
      ∃ sink nextNodeId,
        nextNode b.st.nextNodeId node.id = .ok nextNodeId ∧
        b' = ⟨{ b.st with
            store := sink.store, shapeCounts := sink.shapeCounts, nextNodeId
            ids := b.st.ids.cache batch.spec.idType batch.group external node }, sink.slots⟩ ∧
        ∃ sink₀, sink₀.store = b.st.store ∧ (b.sink.Positive → sink₀.Positive) ∧
          (∀ key, sink₀.counted key =
            b.counted key + if key = .node node.labelGroup then 1 else 0) ∧
          Stored node.id Content.addNodeProperties (.nodeProperty node.labelGroup)
            (batch.properties.map Prod.snd) accepted.properties sink₀ sink := by
  obtain ⟨sink₀, hincrement, h⟩ := bind_eq_ok_iff.mp h
  obtain ⟨⟨properties, sink⟩, hproperties, h⟩ := bind_eq_ok_iff.mp h
  obtain ⟨nextNodeId, hnext, h⟩ := bind_eq_ok_iff.mp h
  cases h
  obtain ⟨hstore, hpositive, hcounted⟩ := sink_increment hincrement
  exact ⟨rfl, sink, nextNodeId, hnext, rfl, sink₀, hstore, hpositive, hcounted,
    storeProperties_ok (stores_node node.id) hproperties⟩

/-- What becomes of a row: its id is not new, its node is not, or it is accepted. -/
theorem nodeRow_ok {outcome : Option AcceptedNode}
    (h : batch.row env number row b = .ok (outcome, b')) :
    ∃ external id labelGroup names new ids,
      externalId row batch.spec.idColumns batch.spec.idType = .ok external ∧
      assignId batch.spec.idType external b.st.nextNodeId = .ok id ∧
      b.st.names.SameKeys names ∧
      b.st.ids.declare env batch.spec.idType batch.group external ⟨id, labelGroup⟩ =
        .ok (new, ids) ∧
      ((new = false ∧ outcome = none ∧ b' = ⟨{ b.st with names, ids }, b.slots⟩) ∨
        (new = true ∧ outcome = none ∧ b' = ⟨{ b.st with names, ids }, b.slots⟩ ∧
          b.st.store.body = none ∧ id ∈ b.st.store.content.node.map Prod.fst) ∨
        new = true ∧ ∃ store accepted, outcome = some accepted ∧
          b.st.store.node ⟨id, labelGroup⟩ = (true, store) ∧
          batch.accept env row external ⟨id, labelGroup⟩
            ⟨{ b.st with names, ids, store }, b.slots⟩ =
            .ok (accepted, b')) := by
  obtain ⟨external, hexternal, h⟩ := bind_eq_ok_iff.mp h
  obtain ⟨id, hid, h⟩ := bind_eq_ok_iff.mp h
  obtain ⟨⟨labelGroup, names⟩, hnames, h⟩ := bind_eq_ok_iff.mp h
  obtain ⟨⟨new, ids⟩, hdeclare, h⟩ := bind_eq_ok_iff.mp h
  have hkeys : b.st.names.SameKeys names := by
    rw [NodeBatch.labelGroup] at hnames
    split at hnames
    · cases hnames
      exact .refl _
    · obtain ⟨labels, -, hnames⟩ := bind_eq_ok_iff.mp hnames
      exact labelGroup_keys hnames
  refine ⟨external, id, labelGroup, names, new, ids, hexternal, hid, hkeys, hdeclare, ?_⟩
  dsimp only at h
  cases new with
  | false =>
      rw [if_pos (by decide)] at h
      split at h
      · cases h
        exact .inl ⟨rfl, rfl, rfl⟩
      · cases h
  | true =>
      rw [if_neg (by decide)] at h
      right
      rcases hnode : b.st.store.node ⟨id, labelGroup⟩ with ⟨_ | _, store⟩
      · rw [hnode] at h
        dsimp only at h
        obtain ⟨rfl, hbody, hmem⟩ := node_false hnode
        rw [if_pos (by decide)] at h
        split at h
        · cases h
          exact .inl ⟨rfl, rfl, rfl, hbody, hmem⟩
        · cases h
      · rw [hnode] at h
        dsimp only at h
        rw [if_neg (by decide)] at h
        obtain ⟨⟨accepted, b₁⟩, haccept, h⟩ := bind_eq_ok_iff.mp h
        cases h
        exact .inr ⟨rfl, store, accepted, rfl, rfl, haccept⟩

end

/-! ## Relationships -/

section
variable {env : Environment} {batch : RelationshipBatch} {number : Nat} {row : Row} {b b' : Batch}
  {source target : ImportNode} {accepted : AcceptedEdge}

/-- A row that becomes a relationship. -/
theorem acceptEdge_ok (h : batch.accept env number row source target b = .ok (accepted, b')) :
    (accepted.id = b.st.nextEdgeId ∧ accepted.source = source ∧ accepted.target = target ∧
        accepted.edge.fromNode = source.id ∧ accepted.edge.toNode = target.id) ∧
      accepted.id.toInt + 1 < 2 ^ 63 ∧
      ∃ sink names,
        b' = ⟨{ b.st with
            store := sink.store, shapeCounts := sink.shapeCounts, names
            nextEdgeId := accepted.id + 1 }, sink.slots⟩ ∧
        b.st.names.SameKeys names ∧
        ∃ sink₀, sink₀.store.content = b.st.store.content.addEdge accepted.id accepted.edge ∧
          b.st.store.Follows sink₀.store ∧ (b.sink.Positive → sink₀.Positive) ∧
          (∀ key, sink₀.counted key = b.counted key + if key =
            .edge accepted.edge.typeId source.labelGroup target.labelGroup then 1 else 0) ∧
          Stored accepted.id Content.addEdgeProperties
            (.edgeProperty accepted.edge.typeId source.labelGroup target.labelGroup)
            (batch.properties.map Prod.snd) accepted.properties sink₀ sink := by
  obtain ⟨⟨typeId, names⟩, hnames, h⟩ := bind_eq_ok_iff.mp h
  have hkeys : b.st.names.SameKeys names := by
    rw [RelationshipBatch.typeOf] at hnames
    split at hnames
    · split at hnames
      · cases hnames
      · exact edgeType_keys hnames
    · split at hnames
      · cases hnames
        exact .refl _
      · cases hnames
    · split at hnames
      · cases hnames
        exact .refl _
      · cases hnames
    · cases hnames
  obtain ⟨store, hstore, h⟩ := bind_eq_ok_iff.mp h
  obtain ⟨sink₀, hincrement, h⟩ := bind_eq_ok_iff.mp h
  obtain ⟨⟨properties, sink⟩, hproperties, h⟩ := bind_eq_ok_iff.mp h
  dsimp only at h
  split at h
  · next hnext =>
      cases h
      obtain ⟨hcontent, hfollows⟩ := edge_ok hstore
      obtain ⟨hsink, hpositive, hcounted⟩ := sink_increment hincrement
      dsimp only at hsink
      rw [← hsink] at hcontent hfollows
      exact ⟨⟨rfl, rfl, rfl, rfl, rfl⟩, hnext, sink, names, rfl, hkeys, sink₀, hcontent, hfollows,
        hpositive, hcounted,
        storeProperties_ok (stores_edge _) hproperties⟩
  · cases h

/-- What becomes of a row: it is skipped for want of an endpoint, or accepted between the nodes that
are found. -/
theorem relationshipRow_ok {outcome : Option AcceptedEdge}
    (h : batch.row env number row b = .ok (outcome, b')) :
    ∃ startId endId start stop st₁ st₂,
      externalId row batch.spec.startColumns batch.startType = .ok startId ∧
      externalId row batch.spec.endColumns batch.endType = .ok endId ∧
      b.st.lookupNode batch.startGroup batch.startType startId = .ok (start, st₁) ∧
      st₁.lookupNode batch.endGroup batch.endType endId = .ok (stop, st₂) ∧
      (((start = none ∨ stop = none) ∧ outcome = none ∧ b' = ⟨st₂, b.slots⟩) ∨
        ∃ source target accepted, start = some source ∧ stop = some target ∧
          outcome = some accepted ∧
          batch.accept env number row source target ⟨st₂, b.slots⟩ = .ok (accepted, b')) := by
  obtain ⟨startId, hstartId, h⟩ := bind_eq_ok_iff.mp h
  obtain ⟨endId, hendId, h⟩ := bind_eq_ok_iff.mp h
  obtain ⟨⟨start, st₁⟩, hstart, h⟩ := bind_eq_ok_iff.mp h
  obtain ⟨⟨stop, st₂⟩, hstop, h⟩ := bind_eq_ok_iff.mp h
  refine ⟨startId, endId, start, stop, st₁, st₂, hstartId, hendId, hstart, hstop, ?_⟩
  have hskip : ∀ {x : Except (Failure ImportError) (Option AcceptedEdge × Batch)},
      (if batch.spec.skipBadRelationships then .ok (none, { b with st := st₂ })
        else fail (.endpoint (number + 1))) = x → x = .ok (outcome, b') →
      outcome = none ∧ b' = ⟨st₂, b.slots⟩ := by
    intro x hx hok
    rw [← hx] at hok
    split at hok
    · cases hok
      exact ⟨rfl, rfl⟩
    · cases hok
  cases start with
  | none => exact .inl ⟨.inl rfl, hskip rfl h⟩
  | some source =>
      cases stop with
      | none => exact .inl ⟨.inr rfl, hskip rfl h⟩
      | some target =>
          obtain ⟨⟨accepted, b₁⟩, haccept, h⟩ := bind_eq_ok_iff.mp h
          cases h
          exact .inr ⟨source, target, accepted, rfl, rfl, rfl, haccept⟩

end

end Velr.Native
