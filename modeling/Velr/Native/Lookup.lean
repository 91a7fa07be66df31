import Velr.Native.Known

/-!
# Lookups

The cache is kept as the answers grow (`Known`), so a lookup gives the answer of the graph
(`Known.lookupNode`), wherever it is found. The bytes of the cache stay within its limit.
-/

namespace Velr.Native

open FirstWins (Map firstOf firstOf_nil firstOf_cons firstOf_append firstOf_eq_none)
open IdMap (Failure ImportNode ExternalId ExternalIds IntegerIdMap)
open Results (bind_eq_ok_iff map_eq_ok_iff)

/-! ## The cache -/

section
variable {cache : IdCache} {group group' : Int64} {id id' : ExternalId} {node node' : ImportNode}

theorem update_update_apply {κ ν : Type} [DecidableEq κ] (f : Int64 → κ → ν) (group : Int64)
    (key : κ) (value : ν) (group' : Int64) (key' : κ) :
    Function.update f group (Function.update (f group) key value) group' key' =
      if group' = group ∧ key' = key then value else f group' key' := by
  by_cases hgroup : group' = group
  · subst hgroup
    rw [Function.update_self, Function.update_apply]
    exact if_congr (and_iff_right rfl).symm rfl rfl
  · rw [Function.update_of_ne hgroup, if_neg fun hkey => hgroup hkey.1]

/-- The cache answers what was put last. -/
theorem get_put (cache : IdCache) (group : Int64) (id : ExternalId) (node : ImportNode)
    (group' : Int64) (id' : ExternalId) :
    (cache.put group id node).get group' id' =
      if group' = group ∧ id' = id then some node else cache.get group' id' := by
  cases id with
  | integer id =>
      cases id' with
      | integer id' =>
          refine (update_update_apply cache.entries group id (some node) group' id').trans ?_
          exact if_congr (and_congr_right' (ExternalId.integer.injEq id' id).symm.to_iff) rfl rfl
      | string id' =>
          rw [if_neg fun hkey => (nomatch hkey.2)]
          rfl
  | string id =>
      cases id' with
      | integer id' =>
          rw [if_neg fun hkey => (nomatch hkey.2)]
          rfl
      | string id' =>
          refine (update_update_apply cache.stringEntries group id (some node) group' id').trans ?_
          exact if_congr (and_congr_right' (ExternalId.string.injEq id' id).symm.to_iff) rfl rfl

/-- Putting an entry does not count it. -/
theorem put_bytes (cache : IdCache) (group : Int64) (id : ExternalId) (node : ImportNode) :
    (cache.put group id node).bytes = cache.bytes ∧
      (cache.put group id node).limit = cache.limit := by
  cases id <;> exact ⟨rfl, rfl⟩

/-- The cache before an entry is put to it: emptied, if it is full. -/
def IdCache.room (cache : IdCache) (id : ExternalId) : IdCache :=
  if cache.limit < cache.bytes + entryBytes id then
    { cache with entries := fun _ _ => none, stringEntries := fun _ _ => none, bytes := 0 }
  else cache

/-- Making room leaves the answers of what stays. -/
theorem room_get (h : (cache.room id).get group' id' = some node) :
    cache.get group' id' = some node := by
  rw [IdCache.room] at h
  split at h
  · cases id' <;> cases h
  · exact h

/-- Behind it an entry that fits the limit fits. -/
theorem room_bytes (hid : entryBytes id ≤ cache.limit) :
    (cache.room id).limit = cache.limit ∧ (cache.room id).bytes + entryBytes id ≤ cache.limit := by
  rw [IdCache.room]
  split
  · exact ⟨rfl, (Nat.zero_add _).trans_le hid⟩
  · next hroom => exact ⟨rfl, Nat.le_of_not_lt hroom⟩

/-- `insert` puts an entry that fits the limit, and counts it if it is new. -/
theorem insert_eq (cache : IdCache) (group : Int64) (id : ExternalId) (node : ImportNode) :
    cache.insert group id node =
      if cache.limit < entryBytes id then cache
      else
        if ((cache.room id).get group id).isNone then
          { (cache.room id).put group id node with
            bytes := (cache.room id).bytes + entryBytes id }
        else (cache.room id).put group id node := by
  rw [IdCache.insert]
  dsimp only
  rw [← IdCache.room, (put_bytes ..).1]

/-- What is in the cache was put to it last or was there before. -/
theorem insert_get (h : (cache.insert group id node).get group' id' = some node') :
    (group' = group ∧ id' = id ∧ node' = node) ∨ cache.get group' id' = some node' := by
  rw [insert_eq] at h
  have hput : ((cache.room id).put group id node).get group' id' = some node' →
      (group' = group ∧ id' = id ∧ node' = node) ∨ cache.get group' id' = some node' := by
    intro h
    rw [get_put] at h
    split at h
    · next hkey => exact .inl ⟨hkey.1, hkey.2, (Option.some.inj h).symm⟩
    · exact .inr (room_get h)
  split at h
  · exact .inr h
  · split at h
    · refine hput ?_
      cases id' <;> exact h
    · exact hput h

/-- The cache keeps to its limit. -/
theorem insert_bytes (h : cache.bytes ≤ cache.limit) :
    (cache.insert group id node).bytes ≤ (cache.insert group id node).limit := by
  rw [insert_eq]
  split
  · exact h
  · next hid =>
      obtain ⟨hlimit, hbytes⟩ := room_bytes (Nat.le_of_not_lt hid)
      obtain ⟨hputBytes, hputLimit⟩ := put_bytes (cache.room id) group id node
      split
      · dsimp only
        omega
      · omega

end

/-! ## The invariant -/

/-- What is known of the ids of a graph: the groups of its ids have numbers, the map and the table
have its ids, and the cache has nothing else. -/
structure Known (g : Graph) (groups : Map String Int64) (ids : Ids) (tables started : Bool) :
    Prop where
  grouped : Grouped groups
  placed : ∀ entry ∈ g.declared, (groups.find entry.1.1).isSome = true
  know : ids.Know (fun group id => firstOf (g.numbered groups) (group, id)) started
  cache : ∀ group id node, ids.idCache.get group id = some node →
    g.answer groups tables group id = some node
  bytes : ids.idCache.bytes ≤ ids.idCache.limit

section
variable {g : Graph} {groups groups' : Map String Int64} {ids : Ids} {tables started : Bool}
  {group number : Int64} {id : ExternalId} {node : ImportNode} {name : String}

/-- An answer is put to the cache. -/
theorem Known.put (h : Known g groups ids tables started)
    (hanswer : g.answer groups tables group id = some node) :
    Known g groups { ids with idCache := ids.idCache.insert group id node } tables started where
  grouped := h.grouped
  placed := h.placed
  know := ⟨h.know.strings, h.know.unsealed, h.know.sealed⟩
  cache group' id' node' hget := by
    rcases insert_get hget with ⟨rfl, rfl, rfl⟩ | hold
    · exact hanswer
    · exact h.cache group' id' node' hold
  bytes := insert_bytes h.bytes

/-- A group gets a number. -/
theorem Known.groupOf (h : Known g groups ids tables started)
    (hgroup : Native.groupOf groups name = .ok (number, groups')) :
    Known g groups' ids tables started ∧ groups'.find name = some number ∧
      ∀ name' number', groups.find name' = some number' → groups'.find name' = some number' := by
  obtain ⟨hgroups', hfind, hextends⟩ := groupOf_ok h.grouped hgroup
  have hnumbered := numbered_of_extends h.placed hextends
  refine ⟨⟨hgroups', fun entry hentry => ?_, ?_, fun group id node hget => ?_, h.bytes⟩, hfind,
    hextends⟩
  · obtain ⟨number', hnumber'⟩ := Option.isSome_iff_exists.mp (h.placed entry hentry)
    rw [hextends _ _ hnumber']
    rfl
  · rw [hnumbered]
    exact h.know
  · have hold := h.cache group id node hget
    unfold Graph.answer at hold ⊢
    rw [hnumbered]
    exact hold

/-- The nodes go to a table, or to spools where there are none. -/
theorem Known.setTables (h : Known g groups ids tables started) {tables' : Bool}
    (htables : tables' = true ∨ g.nodes = [] ∨ tables' = tables) :
    Known g groups ids tables' started := by
  refine ⟨h.grouped, h.placed, h.know, fun group id node hget => ?_, h.bytes⟩
  have hold := h.cache group id node hget
  by_cases hgroup : group = 0
  · subst hgroup
    cases id with
    | string id => cases hold
    | integer id =>
        rw [answer_zero] at hold ⊢
        split at hold
        · rcases htables with htables | hnodes | htables
          · rw [htables, if_pos rfl]
            exact hold
          · rw [Graph.nodeOf, Graph.content, hnodes] at hold
            cases hold
          · next hif =>
              rw [htables, if_pos hif]
              exact hold
        · cases hold
  · rw [answer_of_ne_zero hgroup] at hold ⊢
    exact hold

/-- The ids are sealed. -/
theorem Known.seal (h : Known g groups ids tables false) :
    ∃ integerIds externalIds, ids.integerIds.seal ids.externalIds = .ok (integerIds, externalIds) ∧
      Known g groups { ids with integerIds, externalIds } tables true := by
  obtain ⟨integerIds, externalIds, hseal, hids⟩ := h.know.seal
  exact ⟨integerIds, externalIds, hseal, h.grouped, h.placed, hids, h.cache, h.bytes⟩

/-! ## Rows of nodes -/

/-- What a node of a group declares, by the number of the group. -/
theorem declares_byNumber (n : AcceptedNode) (hgroup : groups.find n.group = some number) :
    n.declares.bind (byNumber groups) = declares n.kind number n.declared n.node := by
  rw [AcceptedNode.declares, declares]
  split
  · rfl
  · cases n.declared with
    | none => rfl
    | some id =>
        rw [Option.map_some, Option.bind_some, byNumber]
        dsimp only
        rw [hgroup]
        rfl

/-- A row that is skipped has changed no answer. -/
theorem Known.skip {env : Environment} {kind : ImportIdType} {external : Option ExternalId}
    {ids' : Ids} {new : Bool} (h : Known g groups ids tables false)
    (hnumber : groups.find name = some number)
    (hdeclare : ids.declare env kind number external node = .ok (new, ids'))
    (hskip : new = false ∨ kind = .actual) : Known g groups ids' tables false := by
  obtain ⟨hids, hcache, hnew⟩ := h.know.declare (h.grouped.pos hnumber).le hdeclare
  have hsame : nameOf (fun group id => firstOf (g.numbered groups) (group, id))
      (declares kind number external node) =
        fun group id => firstOf (g.numbered groups) (group, id) := by
    rcases hskip with rfl | rfl
    · cases hentry : declares kind number external node with
      | none => exact nameOf_none _
      | some entry =>
          refine nameOf_of_isSome (Option.isSome_iff_ne_none.mpr fun hnone => ?_)
          refine Bool.false_ne_true (hnew.mpr fun entry' hentry' => ?_)
          rw [hentry] at hentry'
          cases hentry'
          exact hnone
    · exact nameOf_none _
  rw [hsame] at hids
  refine ⟨h.grouped, h.placed, hids, ?_, ?_⟩
  · rw [hcache]
    exact h.cache
  · rw [hcache]
    exact h.bytes

/-- A row becomes a node: its id is recorded and may be put to the cache. -/
theorem Known.addNode {env : Environment} {ids' : Ids} (h : Known g groups ids tables false)
    (n : AcceptedNode) (hnumber : groups.find n.group = some number)
    (hdeclare : ids.declare env n.kind number n.declared n.node = .ok (true, ids'))
    (hactual : n.kind = .actual → tables = true ∧ n.node.id ∉ g.nodeIds ∧
      ∀ id ∈ n.declared, id = .integer n.node.id) :
    Known (g.addNode n) groups (ids'.cache n.kind number n.declared n.node) tables false := by
  obtain ⟨hids, hcache, hnew⟩ := h.know.declare (h.grouped.pos hnumber).le hdeclare
  have hnumbered : (g.addNode n).numbered groups =
      g.numbered groups ++ (declares n.kind number n.declared n.node).toList := by
    rw [numbered_addNode, declares_byNumber n hnumber]
  have hadded : Known (g.addNode n) groups ids' tables false := by
    refine ⟨h.grouped, fun entry hentry => ?_, ?_, fun group id node hget => ?_, ?_⟩
    · rw [declared_addNode, List.mem_append, Option.mem_toList] at hentry
      rcases hentry with hentry | hentry
      · exact h.placed entry hentry
      · rw [AcceptedNode.declares] at hentry
        split at hentry
        · cases hentry
        · obtain ⟨id, -, rfl⟩ := Option.map_eq_some_iff.mp hentry
          dsimp only
          rw [hnumber]
          rfl
    · have hsame : (fun group id => firstOf ((g.addNode n).numbered groups) (group, id)) =
          nameOf (fun group id => firstOf (g.numbered groups) (group, id))
            (declares n.kind number n.declared n.node) := by
        funext group id
        rw [hnumbered, firstOf_append, nameOf]
      rw [hsame]
      exact hids
    · rw [hcache] at hget
      exact answer_addNode n (h.cache group id node hget)
    · rw [hcache]
      exact h.bytes
  unfold Ids.cache
  cases hdeclared : n.declared with
  | none => exact hadded
  | some id =>
      dsimp only
      split
      · refine hadded.put ?_
        by_cases hkind : n.kind = .actual
        · obtain ⟨htables, hfresh, hid⟩ := hactual hkind
          rw [if_pos hkind, hid id hdeclared, answer_zero, htables, if_pos rfl, nodeOf_addNode,
            if_pos rfl]
          have hnone : g.nodeOf n.node.id = none := by
            rw [Graph.nodeOf, Option.map_eq_none_iff, firstOf_eq_none, Graph.content, List.map_map]
            exact hfresh
          rw [hnone, Option.none_or]
        · have hentry : declares n.kind number n.declared n.node = some ((number, id), n.node) := by
            rw [declares, if_neg hkind, hdeclared]
            rfl
          have hnone := hnew.mp rfl _ hentry
          dsimp only at hnone
          rw [if_neg hkind, answer_of_ne_zero (h.grouped.ne_zero hnumber), hnumbered, hentry,
            firstOf_append, hnone, Option.none_or, Option.toList_some, firstOf_cons, if_pos rfl]
      · exact hadded

end

/-! ## Endpoints -/

/-- The group that the cache has the ids of a group under. -/
def cachedGroup (kind : ImportIdType) (group : Int64) : Int64 := if kind = .actual then 0 else group

section
variable {g : Graph} {st : OfflineImport} {kind : ImportIdType} {group : Int64} {id : ExternalId}

/-- The tables have the nodes of the graph, unless these are in spools. -/
def TablesHave (g : Graph) (store : Store) : Prop :=
  store.tables.node.entries = if store.body.isNone then g.content.node else []

/-- The query answers what the graph does where the map leaves it to the table. -/
theorem query_eq (h : Known g st.groups st.ids st.store.body.isNone true)
    (htables : TablesHave g st.store) (hgroup : group ≠ 0) (hfits : Fits kind id)
    (hdirect : ∀ n, kind = .integer → id = .integer n →
      st.ids.integerIds.lookup group n = .ok .disk) :
    st.query group kind id =
      g.answer st.groups st.store.body.isNone (cachedGroup kind group) id := by
  rw [cachedGroup]
  cases id with
  | string id =>
      obtain rfl : kind = .string := hfits
      rw [if_neg (by decide), answer_of_ne_zero hgroup]
      exact h.know.strings group id
  | integer id =>
      cases kind with
      | string => exact absurd rfl hfits
      | integer =>
          have hresolve := h.know.sealed rfl group id
          rw [IntegerIdMap.resolve, hdirect id rfl rfl] at hresolve
          rw [if_neg (by decide), answer_of_ne_zero hgroup]
          exact Except.ok.inj hresolve
      | actual =>
          rw [if_pos rfl, answer_zero, Graph.nodeOf]
          rw [TablesHave] at htables
          rw [OfflineImport.query, Map.find, htables]
          split
          · rfl
          · rfl

/-- A lookup gives the answer of the graph, whatever is in the cache, and leaves what is known. -/
theorem Known.lookupNode (h : Known g st.groups st.ids st.store.body.isNone true)
    (htables : TablesHave g st.store) (hgroup : group ≠ 0) (hfits : Fits kind id) :
    ∃ idCache, st.lookupNode group kind (some id) =
        .ok (g.answer st.groups st.store.body.isNone (cachedGroup kind group) id,
          { st with ids := { st.ids with idCache } }) ∧
      Known g st.groups { st.ids with idCache } st.store.body.isNone true := by
  -- the map has not the answer
  have hdisk : (∀ n, kind = .integer → id = .integer n →
        st.ids.integerIds.lookup group n = .ok .disk) →
      ∃ idCache, st.lookupNode group kind (some id) =
        .ok (g.answer st.groups st.store.body.isNone (cachedGroup kind group) id,
          { st with ids := { st.ids with idCache } }) ∧
      Known g st.groups { st.ids with idCache } st.store.body.isNone true := by
    intro hdirect
    rw [← query_eq h htables hgroup hfits hdirect]
    have hlooked : st.lookupNode group kind (some id) =
        (.ok ((st.ids.idCache.get (cachedGroup kind group) id).elim
          ((st.query group kind id).elim (none, st) fun node =>
            (some node, { st with ids := { st.ids with
              idCache := st.ids.idCache.insert (cachedGroup kind group) id node } }))
          fun node => (some node, st))) := by
      have hgroups : st.query (cachedGroup kind group) kind id = st.query group kind id := by
        cases kind <;> cases id <;> rfl
      unfold OfflineImport.lookupNode
      rw [← hgroups, cachedGroup]
      cases kind with
      | integer =>
          cases id with
          | string id => cases hfits
          | integer id =>
              dsimp only
              rw [hdirect id rfl rfl]
              cases st.ids.idCache.get (if ImportIdType.integer = .actual then 0 else group)
                (.integer id) <;>
                cases st.query (if ImportIdType.integer = .actual then 0 else group) .integer
                  (.integer id) <;> rfl
      | string =>
          dsimp only
          cases st.ids.idCache.get (if ImportIdType.string = .actual then 0 else group) id <;>
            cases st.query (if ImportIdType.string = .actual then 0 else group) .string id <;> rfl
      | actual =>
          dsimp only
          cases st.ids.idCache.get (if ImportIdType.actual = .actual then 0 else group) id <;>
            cases st.query (if ImportIdType.actual = .actual then 0 else group) .actual id <;> rfl
    rw [hlooked]
    cases hget : st.ids.idCache.get (cachedGroup kind group) id with
    | some node =>
        have hanswer := h.cache _ _ _ hget
        rw [← query_eq h htables hgroup hfits hdirect] at hanswer
        rw [hanswer]
        exact ⟨st.ids.idCache, rfl, h⟩
    | none =>
        cases hquery : st.query group kind id with
        | none => exact ⟨st.ids.idCache, rfl, h⟩
        | some node =>
            rw [query_eq h htables hgroup hfits hdirect] at hquery
            exact ⟨_, rfl, h.put hquery⟩
  cases kind with
  | string => exact hdisk fun _ hkind => by cases hkind
  | actual => exact hdisk fun _ hkind => by cases hkind
  | integer =>
      cases id with
      | string id => cases hfits
      | integer id =>
          have hresolve := h.know.sealed rfl group id
          rw [IntegerIdMap.resolve] at hresolve
          obtain ⟨direct, hdirect, hanswer⟩ := map_eq_ok_iff.mp hresolve
          rw [← answer_of_ne_zero hgroup g st.groups st.store.body.isNone (.integer id)] at hanswer
          cases direct with
          | found node =>
              refine ⟨st.ids.idCache, ?_, h⟩
              rw [cachedGroup, if_neg (by decide), ← hanswer]
              unfold OfflineImport.lookupNode
              dsimp only
              rw [hdirect]
              rfl
          | missing =>
              refine ⟨st.ids.idCache, ?_, h⟩
              rw [cachedGroup, if_neg (by decide), ← hanswer]
              unfold OfflineImport.lookupNode
              dsimp only
              rw [hdirect]
              rfl
          | disk =>
              refine hdisk fun n _ hid => ?_
              cases hid
              exact hdirect

end

end Velr.Native
