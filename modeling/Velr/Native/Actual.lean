import Velr.Native.Endpoints
import Velr.Native.Integrity

/-!
# ACTUAL ids

An ACTUAL id is the internal id of its node, so the ids that the import generates are among them: an
endpoint is the stored node with its number (`actual_ids_internal`), which need not be one that a
row declared (`actual_id_generated`). A row is a duplicate only of a node that is stored.
-/

namespace Velr.Native

open IdMap (Failure ImportNode ExternalId exactPlatform)
open Record (Value)
open Results (bind_ne_error map_ne_error mapM_ne_error)

/-! ## Errors of a row that is new -/

/-- The error of a row that is one of two. -/
def Duplicate : Failure ImportError → Prop
  | .error (.duplicateId _ _) | .error (.duplicateActual _ _) => True
  | _ => False

section
variable {env : Environment} {e : Failure ImportError} {names : Names} {value : Value}
  {counts : ShapeCounts} {slots : BatchShapeCounts} {key : ShapeKey} {store : Store}

theorem cellLabels_ne (he : Duplicate e) : cellLabels env value ≠ .error e := by
  have hlist : ∀ member, listLabel member ≠ .error e := by
    intro member h
    unfold listLabel at h
    split at h
    all_goals cases h
    exact he
  unfold cellLabels
  split
  · exact nofun
  · exact nofun
  · split
    · rintro ⟨⟩
      exact he
    · exact nofun
    · exact map_ne_error (mapM_ne_error fun member _ => hlist member)
    · rintro ⟨⟩
      exact he
  · rintro ⟨⟩
    exact he

theorem labelGroup_ne (he : Duplicate e) {labels : List String} :
    names.labelGroup env labels ≠ .error e := by
  rw [Names.labelGroup]
  split
  · rintro ⟨⟩
  · rintro ⟨⟩
    exact he
  · rintro ⟨⟩
    exact he

theorem NodeBatch.labelGroup_ne (he : Duplicate e) {batch : NodeBatch} {row : Row} :
    batch.labelGroup env row names ≠ .error e := by
  rw [NodeBatch.labelGroup]
  split
  · rintro ⟨⟩
  · refine bind_ne_error (mapM_ne_error fun column _ => cellLabels_ne he) fun labels _ => ?_
    exact Native.labelGroup_ne he

theorem checkedAdd_ne (he : Duplicate e) {count added : Nat} :
    checkedAdd count added ≠ .error e := by
  rw [checkedAdd]
  split
  · rintro ⟨⟩
  · rintro ⟨⟩
    exact he

theorem endRun_ne (he : Duplicate e) {cached : Option (ShapeKey × Nat)} :
    counts.endRun cached ≠ .error e := by
  unfold ShapeCounts.endRun
  split
  · rw [ShapeCounts.addCount]
    split
    · exact bind_ne_error (checkedAdd_ne he) fun _ _ => by rintro ⟨⟩
    · rintro ⟨⟩
  · rintro ⟨⟩

theorem increment_ne (he : Duplicate e) {slot : Nat} :
    increment slots counts slot key ≠ .error e := by
  rw [increment]
  split
  · rintro ⟨⟩
    exact he
  · split
    · exact bind_ne_error (checkedAdd_ne he) fun _ _ => by rintro ⟨⟩
    · exact bind_ne_error (endRun_ne he) fun _ _ => by rintro ⟨⟩

theorem nodeProperty_ne (he : Duplicate e) {owner property : Int64} :
    store.nodeProperty owner property value ≠ .error e := by
  rw [Store.nodeProperty]
  split
  · next body _ =>
      rw [BodyWriter.pushNodeProperty]
      dsimp only
      split
      · rintro ⟨⟩
        exact he
      · split
        · rintro ⟨⟩
          exact he
        · rintro ⟨⟩
  · rw [insertUnique]
    split
    · rintro ⟨⟩
    · rintro ⟨⟩
      exact he

/-- No error of its properties does. -/
theorem storeProperties_ne (he : Duplicate e) {row : Row} {owner : Int64}
    {shape : Int64 → PropertyShape → ShapeKey} :
    ∀ {properties : List (ImportPropertyColumn × Int64)} {slot : Nat} {sink : Sink},
      storeProperties env row (Store.nodeProperty owner) shape slot properties sink ≠ .error e := by
  intro properties
  induction properties with
  | nil => rintro _ _ ⟨⟩
  | cons entry properties ih =>
      intro slot sink
      obtain ⟨property, key⟩ := entry
      rw [storeProperties]
      split
      · exact ih
      · have hvalidate : ∀ value, validatePropertyValue env value ≠ .error e := by
          intro value h
          unfold validatePropertyValue at h
          split at h
          · split at h
            · cases h
            · cases h
              exact he
          · split at h
            · cases h
            · cases h
              exact he
          · cases h
        have hshape : ∀ value, PropertyShape.of value ≠ .error e := by
          intro value h
          unfold PropertyShape.of at h
          split at h
          all_goals cases h
          all_goals exact he
        refine bind_ne_error (hvalidate _) fun _ _ =>
          bind_ne_error (nodeProperty_ne he) fun _ _ => ?_
        refine bind_ne_error (hshape _) fun _ _ => ?_
        refine bind_ne_error (bind_ne_error (increment_ne he) fun _ _ => by rintro ⟨⟩) fun _ _ => ?_
        exact bind_ne_error ih fun _ _ => by rintro ⟨⟩

/-- No error of an accepted row says that its node is a duplicate. -/
theorem NodeBatch.accept_ne (he : Duplicate e) {batch : NodeBatch} {row : Row}
    {external : Option ExternalId} {node : ImportNode} {b : Batch} :
    batch.accept env row external node b ≠ .error e := by
  refine bind_ne_error (bind_ne_error (increment_ne he) fun _ _ => nofun) fun _ _ => ?_
  refine bind_ne_error (storeProperties_ne he) fun _ _ => ?_
  refine bind_ne_error ?_ fun _ _ => nofun
  intro h
  rw [nextNode] at h
  split at h
  · split at h
    · cases h
    · cases h
      exact he
  · cases h

end

/-! ## Endpoints and duplicates -/

/-- The states between the rows of a batch of nodes. -/
structure NodeBatch.Running (env : Environment) (memoryBytes : Nat) (batch : NodeBatch) (g : Graph)
    (b : Batch) : Prop where
  rows : ∃ calls g₀ st st' spec rows front back outcomes,
    run env memoryBytes calls = .ok (g₀, st) ∧ rows = front ++ back ∧ rows ≠ [] ∧
      st.nodeBatch env spec rows = .ok (batch, st') ∧
      batch.rows env 0 front ⟨st', .new spec.properties.length⟩ = .ok (outcomes, b) ∧
      g = g₀.addNodes (outcomes.filterMap id)

section
variable {env : Environment} {memoryBytes : Nat} {batch : NodeBatch} {g : Graph} {b : Batch}

/-- A batch that runs is open and its graph is sound. -/
theorem running_sound (h : batch.Running env memoryBytes g b) : Sound g b ∧ batch.Open b.st := by
  obtain ⟨calls, g₀, st, st', spec, rows, front, back, outcomes, hrun, -, hrows, hbatch, hfront,
    rfl⟩ := h.rows
  obtain ⟨hsound, hopen, -, -, -⟩ := nodeBatch_sound (run_sound hrun).1 hbatch
  obtain ⟨hfinal, -, hafter⟩ := nodeRows_sound hsound (fun _ => hopen hrows) hfront
  refine ⟨hfinal, ?_⟩
  cases front with
  | nil =>
      cases hfront
      exact hopen hrows
  | cons row front => exact hafter (List.cons_ne_nil _ _)

/-- A row with an ACTUAL id that no node has is not taken for a duplicate. -/
theorem row_not_duplicate (h : Sound g b) (hopen : batch.Open b.st)
    (hkind : batch.spec.idType = .actual) {number : Nat} {row : Row} {n : Int64}
    (hid : externalId row batch.spec.idColumns .actual = .ok (some (.integer n)))
    (hnew : n ∉ g.nodeIds) :
    (∀ b', batch.row env number row b ≠ .ok (none, b')) ∧
      ∀ e, Duplicate e → batch.row env number row b ≠ .error e := by
  have hbody := hopen.tables hkind
  have hstored : ∀ labelGroup, ∃ store, b.st.store.node ⟨n, labelGroup⟩ = (true, store) := by
    intro labelGroup
    rcases hnode : b.st.store.node ⟨n, labelGroup⟩ with ⟨_ | _, store⟩
    · refine absurd (node_false hnode).2.2 ?_
      rw [h.filed.node_ids]
      exact hnew
    · exact ⟨store, rfl⟩
  constructor
  · intro b' hrow
    obtain ⟨external, id, labelGroup, names, new, ids, hexternal, hassign, -, hdeclare, hcases⟩ :=
      nodeRow_ok hrow
    rw [hkind, hid] at hexternal
    cases hexternal
    rw [hkind] at hassign hdeclare
    have hassigned := assignId_actual hassign _ rfl
    cases hassigned
    cases hdeclare
    rcases hcases with ⟨hfalse, -⟩ | ⟨-, -, -, -, hmem⟩ | ⟨-, _, _, hsome, -⟩
    · cases hfalse
    · rw [h.filed.node_ids] at hmem
      exact hnew hmem
    · cases hsome
  · intro e he
    rw [NodeBatch.row, hkind, hid]
    refine bind_ne_error nofun ?_
    rintro _ ⟨⟩
    refine bind_ne_error ?_ fun id hassign => ?_
    · unfold assignId
      dsimp only
      split
      · exact nofun
      · rintro ⟨⟩
        exact he
    · have hassigned := assignId_actual hassign _ rfl
      cases hassigned
      refine bind_ne_error (NodeBatch.labelGroup_ne he) ?_
      rintro ⟨labelGroup, names⟩ -
      refine bind_ne_error nofun ?_
      rintro ⟨new, ids⟩ hdeclare
      cases hdeclare
      obtain ⟨store, hnode⟩ := hstored labelGroup
      dsimp only
      rw [if_neg (by decide), hnode]
      dsimp only
      rw [if_neg (by decide)]
      exact bind_ne_error (NodeBatch.accept_ne he) fun _ _ => nofun

/-- The node of an internal id is the one that is stored. -/
theorem nodeOf_eq_some (h : g.Formed) {n : Int64} {node : ImportNode} :
    g.nodeOf n = some node ↔ node ∈ g.nodes.map (·.node) ∧ node.id = n := by
  constructor
  · intro hnode
    obtain ⟨labelGroup, hfirst, rfl⟩ := Option.map_eq_some_iff.mp hnode
    obtain ⟨row, hrow, heq⟩ := List.mem_map.mp (FirstWins.mem_of_firstOf hfirst)
    rw [Prod.mk.injEq] at heq
    obtain ⟨rfl, rfl⟩ := heq
    exact ⟨List.mem_map_of_mem hrow, rfl⟩
  · rintro ⟨hmem, rfl⟩
    have hgroup := h.labelGroup hmem
    rw [Content.labelGroup] at hgroup
    rw [Graph.nodeOf, hgroup]
    rfl

end

/-- In every state of an import: the endpoint of an ACTUAL id is the stored node with that internal
id, once there has been an ACTUAL row, and none before; the id that an accepted row declares is that
of its node; and a row with an id that no stored node has is neither skipped nor refused as a
duplicate. -/
theorem actual_ids_internal {env : Environment} {memoryBytes : Nat} {g : Graph} {st : OfflineImport}
    (h : Reached env memoryBytes g st) :
    (st.relationshipsStarted = true → ∀ endpoints : List Endpoint, (∀ e ∈ endpoints, e.Of st) →
      ∃ nodes st', st.lookupAll endpoints = .ok (nodes, st') ∧
        List.Forall₂ (fun e node => ∀ n, e.kind = .actual → e.external = some (.integer n) →
          ∀ found, node = some found ↔
            st.bodyDisabled = true ∧ found ∈ g.nodes.map (·.node) ∧ found.id = n)
          endpoints nodes) ∧
    (∀ row ∈ g.nodes, row.kind = .actual →
      st.bodyDisabled = true ∧ ∀ id ∈ row.declared, id = .integer row.node.id) ∧
    ∀ batch slots, NodeBatch.Running env memoryBytes batch g ⟨st, slots⟩ →
      batch.spec.idType = .actual → ∀ number row n,
        externalId row batch.spec.idColumns .actual = .ok (some (.integer n)) →
        n ∉ g.nodes.map (·.node.id) →
          (∀ b', batch.row env number row ⟨st, slots⟩ ≠ .ok (none, b')) ∧
          ∀ e, Duplicate e → batch.row env number row ⟨st, slots⟩ ≠ .error e := by
  obtain ⟨slots, hsound⟩ := reached_sound h
  refine ⟨fun hstarted endpoints hendpoints => ?_, hsound.filed.actual,
    fun batch slots hrunning hkind number row n hid hnew => ?_⟩
  · obtain ⟨idCache, hlookup, -⟩ := hsound.lookupAll hstarted hendpoints
    refine ⟨_, _, hlookup, ?_⟩
    rw [List.forall₂_map_right_iff, List.forall₂_same]
    intro e _ n hkind hexternal found
    rw [Graph.answerTo, hexternal, Option.bind_some, cachedGroup, if_pos hkind, answer_zero]
    cases hbody : st.store.body with
    | none =>
        rw [if_pos Option.isNone_none, nodeOf_eq_some hsound.filed.formed]
        refine ⟨fun hfound => ⟨?_, hfound⟩, And.right⟩
        by_contra hdisabled
        have hempty := hsound.filed.unused hbody (Bool.eq_false_iff.mpr hdisabled)
        have hmem := hfound.1
        rw [hempty] at hmem
        cases hmem
    | some body =>
        have henabled := hsound.filed.enabled (by rw [hbody]; rfl)
        dsimp only at henabled
        rw [Option.isNone_some, if_neg Bool.false_ne_true, henabled]
        exact ⟨fun hfound => (by cases hfound), fun hfound => (by cases hfound.1)⟩
  · obtain ⟨hbatch, hopen⟩ := running_sound hrunning
    exact row_not_duplicate hbatch hopen hkind hid hnew

/-- An id that was generated is an endpoint, as one that was declared is. -/
theorem actual_ids_internal_mixed : ∃ g st, run plainEnvironment 0 mixedImport = .ok (g, st) ∧
    (∃ st', st.lookupAll [⟨"actual", 2, .actual, some (.integer 40)⟩,
        ⟨"actual", 2, .actual, some (.integer 41)⟩] = .ok ([some ⟨40, 2⟩, some ⟨41, 2⟩], st')) ∧
    ∀ row ∈ g.nodes, row.kind = .actual →
      st.bodyDisabled = true ∧ ∀ id ∈ row.declared, id = .integer row.node.id := by
  have hfacts : (run plainEnvironment 0 mixedImport).map (fun (g, st) =>
      (st.relationshipsStarted, st.bodyDisabled, st.groups.find "actual", g.nodes.map (·.node))) =
        .ok (true, true, some 2, [⟨1, 2⟩, ⟨2, 2⟩, ⟨40, 2⟩, ⟨41, 2⟩]) := by rfl
  cases hrun : run plainEnvironment 0 mixedImport with
  | error e =>
      rw [hrun] at hfacts
      cases hfacts
  | ok result =>
      obtain ⟨g, st⟩ := result
      rw [hrun] at hfacts
      simp only [Except.map, Except.ok.injEq, Prod.mk.injEq] at hfacts
      obtain ⟨hstarted, hdisabled, hgroup, hnodes⟩ := hfacts
      obtain ⟨hlookups, hdeclared, -⟩ := actual_ids_internal (.calls hrun)
      refine ⟨g, st, rfl, ?_, hdeclared⟩
      obtain ⟨nodes, st', hlookup, hfound⟩ := hlookups hstarted
        [⟨"actual", 2, .actual, some (.integer 40)⟩, ⟨"actual", 2, .actual, some (.integer 41)⟩] (by
          rintro e he
          simp only [List.mem_cons, List.not_mem_nil, or_false] at he
          rcases he with rfl | rfl
          · exact ⟨hgroup, [.integer 40], [0], rfl⟩
          · exact ⟨hgroup, [.integer 41], [0], rfl⟩)
      simp only [List.forall₂_cons_left_iff, List.forall₂_nil_left_iff, hnodes] at hfound
      obtain ⟨_, _, hforty, ⟨_, _, hnext, rfl, rfl⟩, rfl⟩ := hfound
      refine ⟨st', hlookup.trans ?_⟩
      rw [(hforty 40 trivial rfl ⟨40, 2⟩).mpr ⟨hdisabled, by decide, rfl⟩,
        (hnext 41 trivial rfl ⟨41, 2⟩).mpr ⟨hdisabled, by decide, rfl⟩]

/-- A node without an id gets the number that the next row declares. -/
def generatedImport (skipDuplicates : Bool) : List Call :=
  [.nodes { sampleNodes with idGroup := "actual", idType := .actual, skipDuplicates }
     [[.null, .text "a"], [.integer 1, .text "b"]],
   .relationships { sampleKnows with startGroup := "actual" } [[.integer 1, .integer 1]]]

/-- No accepted row has declared the ACTUAL id 1. Still it is an endpoint, the node of a row that
has declared none, and the row that does declare it is skipped or refused. -/
theorem actual_id_generated :
    (∃ g st, run plainEnvironment 0 (generatedImport true) = .ok (g, st) ∧
      (∀ n ∈ g.nodes, n.declared ≠ some (.integer 1)) ∧ st.counts.skippedNodes = 1 ∧
      ∃ st', st.lookupAll [⟨"actual", 1, .actual, some (.integer 1)⟩] = .ok ([some ⟨1, 2⟩], st')) ∧
    (run plainEnvironment 0 (generatedImport false)).map (fun _ => ()) =
      .error (.error (.duplicateActual 1 2)) := by
  refine ⟨?_, by rfl⟩
  have hfacts : (run plainEnvironment 0 (generatedImport true)).map (fun (g, st) =>
      (g.nodes.map (·.declared), st.counts.skippedNodes,
        (st.lookupAll [⟨"actual", 1, .actual, some (.integer 1)⟩]).map Prod.fst)) =
      .ok ([none], 1, .ok [some ⟨1, 2⟩]) := by rfl
  cases hrun : run plainEnvironment 0 (generatedImport true) with
  | error e =>
      rw [hrun] at hfacts
      cases hfacts
  | ok result =>
      obtain ⟨g, st⟩ := result
      rw [hrun] at hfacts
      simp only [Except.map, Except.ok.injEq, Prod.mk.injEq] at hfacts
      obtain ⟨hdeclared, hskipped, hlookup⟩ := hfacts
      refine ⟨g, st, rfl, fun n hn hone => ?_, hskipped, ?_⟩
      · have hmem := List.mem_map_of_mem hn (f := (·.declared))
        rw [hdeclared, List.mem_singleton, hone] at hmem
        cases hmem
      · cases hresult : st.lookupAll [⟨"actual", 1, .actual, some (.integer 1)⟩] with
        | error e =>
            rw [hresult] at hlookup
            cases hlookup
        | ok result =>
            obtain ⟨nodes, st'⟩ := result
            rw [hresult] at hlookup
            cases hlookup
            exact ⟨st', rfl⟩

end Velr.Native
