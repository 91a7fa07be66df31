import Velr.IdMap.Exact

/-!
# The sealed integer-ID map

`IntegerIdMap::seal` and the lookups behind it. The groups are sealed one after the other, each
giving way to the table when the budget refuses it (`sealGroups_settles`), then the records of the
spool fill the pages that are left (`fill_settles`). A lookup finds the node of the first insertion,
in the map or in the table (`first_insertion_found`).
-/

namespace Velr.IdMap

open FirstWins

variable {state : GroupMap} {group id : Int64} {node : ImportNode} {spool done : List Record}
  {table table' : ExternalIds} {entries : List (Int64 × ImportNode)}

/-- What a sealed group holds of its entries, once the records `done` of the spool are read back. -/
def GroupMap.Settled (state : GroupMap) (group : Int64) (spool done : List Record)
    (table : ExternalIds) (entries : List (Int64 × ImportNode)) : Prop :=
  match state with
  | .empty => entries = [] ∧ ∀ id, table.find (group, .integer id) = none
  | .affine range => entries = range.visits
  | .paged map => map.Holds Page.Sealed entries ∧ spoolAt spool group = entries ∧
      ∀ id node, (id, node) ∈ spoolAt done group → map.lookup id = .ok (some node)
  | .disk => ∀ id, table.find (group, .integer id) = firstOf entries id

/-- A group stays settled when the table keeps its rows. -/
theorem GroupMap.Settled.frame (h : state.Settled group spool done table entries)
    (htable : ∀ id, table'.find (group, .integer id) = table.find (group, .integer id)) :
    state.Settled group spool done table' entries := by
  cases state with
  | empty => exact ⟨h.1, fun id => (htable id).trans (h.2 id)⟩
  | affine range => exact h
  | paged map => exact h
  | disk => exact fun id => (htable id).trans (h id)

/-- A group that sealing passes by. -/
theorem GroupMap.Stands.settled (h : state.Stands group spool table entries)
    (hother : ∀ map, state ≠ .paged map) : state.Settled group spool [] table entries := by
  cases state with
  | empty => exact ⟨h.1, h.2.2⟩
  | affine range => exact h.1
  | paged map => exact absurd rfl (hother map)
  | disk => exact h

/-! ## The groups, one after the other -/

/-- A map that is sealed has its entries, without their values. -/
theorem seal_ok {map map' : RadixMap} {charges : Charges} {budget : Budget} {compress : Bool}
    (h : GroupMap.Stands (.paged map) group spool table entries)
    (hseal : map.seal budget compress = (charges, .ok map')) :
    GroupMap.Settled (.paged map') group spool [] table entries := by
  have hspec := (map.seal_spec h.1.weight budget compress).result
  rw [hseal] at hspec
  exact ⟨h.1.sealed hspec.2, h.2.1, fun _ _ hmem => nomatch hmem⟩

/-- The entries of a group that is moved to the table. -/
theorem migrate_settled {map : RadixMap}
    (h : GroupMap.Stands (.paged map) group spool table entries) :
    GroupMap.Settled .disk group spool [] (migrate spool group table) entries := by
  intro id
  rw [migrate, find_diskInsertAll, h.2.2, h.2.1, Option.none_or]

/-- The groups from an index on, sealed: each is settled, and only their rows are added. -/
structure Sealed (index : Nat) (groups groups' : List GroupMap) (spool : List Record)
    (table table' : ExternalIds) (entries : Int64 → List (Int64 × ImportNode)) : Prop where
  length : groups'.length = groups.length
  group : ∀ (i : Nat) (state : GroupMap), groups'[i]? = some state →
    state.Settled (.ofNat (index + i)) spool [] table' (entries (.ofNat (index + i)))
  integers : ∀ group id, groupIndex group < index ∨ index + groups.length ≤ groupIndex group →
    table'.find (group, .integer id) = table.find (group, .integer id)
  strings : ∀ group id, table'.find (group, .string id) = table.find (group, .string id)

/-- A group in front of those that are sealed. -/
theorem Sealed.cons {index : Nat} {groups groups' : List GroupMap} {state state' : GroupMap}
    {table₁ : ExternalIds} {entries : Int64 → List (Int64 × ImportNode)} (hindex : index < 2 ^ 63)
    (hsettled : state'.Settled (.ofNat index) spool [] table₁ (entries (.ofNat index)))
    (htable : ∀ group id, groupIndex group ≠ index →
      table₁.find (group, .integer id) = table.find (group, .integer id))
    (hstrings : ∀ group id, table₁.find (group, .string id) = table.find (group, .string id))
    (h : Sealed (index + 1) groups groups' spool table₁ table' entries) :
    Sealed index (state :: groups) (state' :: groups') spool table table' entries where
  length := by rw [List.length_cons, h.length, List.length_cons]
  group := by
    intro i found hfound
    cases i with
    | zero =>
        cases hfound
        refine hsettled.frame fun id => h.integers _ id ?_
        rw [groupIndex_ofNat hindex]
        exact .inl (Nat.lt_succ_self index)
    | succ i =>
        rw [show index + (i + 1) = index + 1 + i by omega]
        exact h.group i found hfound
  integers := by
    intro group id hout
    rw [List.length_cons] at hout
    exact (h.integers group id (by omega)).trans (htable group id (by omega))
  strings group id := (h.strings group id).trans (hstrings group id)

/-- Sealing settles every group, whatever the budget refuses. -/
theorem sealGroups_settles (compress : Bool) (entries : Int64 → List (Int64 × ImportNode)) :
    ∀ (groups : List GroupMap) (index : Nat) (budget : Budget) (table : ExternalIds),
      index + groups.length ≤ 2 ^ 63 →
      (∀ (i : Nat) (state : GroupMap), groups[i]? = some state →
        state.Stands (.ofNat (index + i)) spool table (entries (.ofNat (index + i)))) →
      ∃ groups' budget' table',
        sealGroups compress spool index groups budget table = .ok (groups', budget', table') ∧
          Sealed index groups groups' spool table table' entries := by
  intro groups
  induction groups with
  | nil =>
      intro index budget table _ _
      exact ⟨[], budget, table, rfl, rfl, fun _ _ hfound => (by cases hfound), fun _ _ _ => rfl,
        fun _ _ => rfl⟩
  | cons state groups ih =>
      intro index budget table hlength h
      rw [List.length_cons] at hlength
      have hstate := h 0 state rfl
      rw [Nat.add_zero] at hstate
      -- the groups behind stand as they did if only this group has got rows
      have hbehind : ∀ table₁ : ExternalIds,
          (∀ group id, groupIndex group ≠ index →
            table₁.find (group, .integer id) = table.find (group, .integer id)) →
          ∀ (i : Nat) (state' : GroupMap), groups[i]? = some state' →
            state'.Stands (.ofNat (index + 1 + i)) spool table₁
              (entries (.ofNat (index + 1 + i))) := by
        intro table₁ htable i state' hfound
        have hlt : i < groups.length := (List.getElem?_eq_some_iff.mp hfound).1
        have hstands := h (i + 1) state' hfound
        rw [show index + (i + 1) = index + 1 + i by omega] at hstands
        refine hstands.frame rfl fun id => htable _ id ?_
        rw [groupIndex_ofNat (by omega)]
        omega
      have hpass : (∀ map, state ≠ .paged map) →
          ∃ groups' budget' table', (do
            let behind ← sealGroups compress spool (index + 1) groups budget table
            Except.ok (state :: behind.1, behind.2)) = .ok (groups', budget', table') ∧
            Sealed index (state :: groups) groups' spool table table' entries := by
        intro hother
        obtain ⟨groups', budget', table', hrest, hsealed⟩ :=
          ih (index + 1) budget table (by omega) (hbehind table fun _ _ _ => rfl)
        rw [hrest]
        exact ⟨_, _, _, rfl,
          .cons (by omega) (hstate.settled hother) (fun _ _ _ => rfl) (fun _ _ => rfl) hsealed⟩
      cases state with
      | empty => exact hpass fun _ hpaged => by cases hpaged
      | affine range => exact hpass fun _ hpaged => by cases hpaged
      | disk => exact hpass fun _ hpaged => by cases hpaged
      | paged map =>
          have hspec := (map.seal_spec hstate.1.weight budget compress).result
          rw [sealGroups]
          rcases hseal : map.seal budget compress with ⟨charges, failure | map'⟩
          · rw [hseal] at hspec
            obtain rfl : failure = .error () := hspec
            have htable : ∀ group id, groupIndex group ≠ index →
                (migrate spool (.ofNat index) table).find (group, .integer id) =
                  table.find (group, .integer id) := by
              intro group id hne
              refine find_diskInsertAll_of_ne _ _ _ fun id' hkey => hne ?_
              have hgroup : group = .ofNat index := congrArg Prod.fst hkey
              rw [hgroup, groupIndex_ofNat (by omega)]
            obtain ⟨groups', budget', table', hrest, hsealed⟩ :=
              ih (index + 1) (charges.budget.release charges.allocated)
              (migrate spool (.ofNat index) table) (by omega) (hbehind _ htable)
            dsimp only
            rw [hrest]
            refine ⟨_, _, _, rfl,
              .cons (by omega) (migrate_settled hstate) htable (fun group id => ?_) hsealed⟩
            exact find_diskInsertAll_of_ne _ _ _ fun id' hkey => by cases hkey
          · obtain ⟨groups', budget', table', hrest, hsealed⟩ :=
              ih (index + 1) charges.budget table (by omega) (hbehind table fun _ _ _ => rfl)
            dsimp only
            rw [hrest]
            exact ⟨_, _, _, rfl,
              .cons (by omega) (seal_ok hstate hseal) (fun _ _ _ => rfl) (fun _ _ => rfl) hsealed⟩

/-! ## The records of the spool -/

/-- The groups while the spool is read back. -/
def Filling (groups : List GroupMap) (spool done : List Record) (table : ExternalIds)
    (entries : Int64 → List (Int64 × ImportNode)) : Prop :=
  ∀ (i : Nat) (state : GroupMap), groups[i]? = some state →
    state.Settled (.ofNat i) spool done table (entries (.ofNat i))

/-- A record that is not of a paged group is passed by. -/
theorem GroupMap.Settled.skip {record : Record} (h : state.Settled group spool done table entries)
    (hother : record.1.1 ≠ group ∨ ∀ map, state ≠ .paged map) :
    state.Settled group spool (done ++ [record]) table entries := by
  cases state with
  | empty => exact h
  | affine range => exact h
  | disk => exact h
  | paged map =>
      have hne : group ≠ record.1.1 := by
        rcases hother with hne | hpaged
        · exact hne.symm
        · exact absurd rfl (hpaged map)
      refine ⟨h.1, h.2.1, ?_⟩
      rw [show done ++ [record] = done ++ [((record.1.1, record.1.2), record.2)] from rfl,
        spoolAt_other_record hne]
      exact h.2.2

variable {entries : Int64 → List (Int64 × ImportNode)}

/-- A record of the spool fills its place. -/
theorem fillRecord_settles {groups : List GroupMap} {record : Record}
    (hlength : groups.length ≤ 2 ^ 63) (hunique : ∀ group, ((entries group).map Prod.fst).Nodup)
    (hrecord : record ∈ spool) (h : Filling groups spool done table entries)
    (hdone : ∀ r ∈ done, r ∈ spool) :
    ∃ groups', fillRecord groups record = .ok groups' ∧ groups'.length = groups.length ∧
      Filling groups' spool (done ++ [record]) table entries := by
  obtain ⟨⟨group, id⟩, node⟩ := record
  have hskip : (∀ map, groups[groupIndex group]? ≠ some (.paged map)) →
      Filling groups spool (done ++ [((group, id), node)]) table entries := by
    intro hother i state hstate
    refine (h i state hstate).skip ?_
    by_cases hgroup : group = .ofNat i
    · have hlt : i < groups.length := (List.getElem?_eq_some_iff.mp hstate).1
      refine .inr fun map hpaged => hother map ?_
      rw [hgroup, groupIndex_ofNat (by omega), hstate, hpaged]
    · exact .inl hgroup
  rw [fillRecord]
  dsimp only
  rw [← groupIndex]
  cases hfound : groups[groupIndex group]? with
  | none =>
      exact ⟨groups, rfl, rfl, hskip fun map hpaged => by cases hfound.symm.trans hpaged⟩
  | some state =>
      cases state with
      | empty => exact ⟨groups, rfl, rfl, hskip fun map hpaged => by cases hfound.symm.trans hpaged⟩
      | affine range =>
          exact ⟨groups, rfl, rfl, hskip fun map hpaged => by cases hfound.symm.trans hpaged⟩
      | disk => exact ⟨groups, rfl, rfl, hskip fun map hpaged => by cases hfound.symm.trans hpaged⟩
      | paged map =>
          have hsettled := h _ _ hfound
          rw [ofNat_groupIndex] at hsettled
          obtain ⟨hholds, hspool, hfilled⟩ := hsettled
          have hentry : (id, node) ∈ entries group := hspool ▸ mem_spoolAt.mpr hrecord
          obtain ⟨map', hset, hholds', -, hlookup, hothers⟩ := hholds.set hentry
          dsimp only
          rw [hset]
          refine ⟨_, rfl, List.length_set, fun i state hstate => ?_⟩
          by_cases hindex : groupIndex group = i
          · subst hindex
            have hlt := (List.getElem?_eq_some_iff.mp hfound).1
            rw [List.getElem?_set_self hlt, Option.some.injEq] at hstate
            subst hstate
            rw [ofNat_groupIndex]
            refine ⟨hholds', hspool, fun id' node' hmem => ?_⟩
            rw [spoolAt_record, List.mem_append, List.mem_singleton, Prod.mk.injEq] at hmem
            by_cases hid : id' = id
            · have hentry' : (id', node') ∈ entries group := by
                rcases hmem with hold | ⟨rfl, rfl⟩
                · exact hspool ▸ mem_spoolAt.mpr (hdone _ (mem_spoolAt.mp hold))
                · exact hentry
              have heq := List.inj_on_of_nodup_map (hunique group) hentry' hentry hid
              cases heq
              exact hlookup
            · rw [hothers id' hid]
              exact hfilled id' node' (hmem.resolve_right fun hnew => hid hnew.1)
          · rw [List.getElem?_set_ne hindex] at hstate
            refine (h i state hstate).skip (.inl fun hgroup => hindex ?_)
            have hlt : i < groups.length := (List.getElem?_eq_some_iff.mp hstate).1
            rw [show group = .ofNat i from hgroup, groupIndex_ofNat (by omega)]

/-- The records of the spool, one after the other. -/
theorem fill_settles (hunique : ∀ group, ((entries group).map Prod.fst).Nodup) :
    ∀ (records : List Record) (groups : List GroupMap) (done : List Record),
      groups.length ≤ 2 ^ 63 → (∀ r ∈ done ++ records, r ∈ spool) →
      Filling groups spool done table entries →
      ∃ groups', records.foldlM fillRecord groups = .ok groups' ∧ groups'.length = groups.length ∧
        Filling groups' spool (done ++ records) table entries
  | [], groups, done, _, _, h => ⟨groups, rfl, rfl, by rw [List.append_nil]; exact h⟩
  | record :: records, groups, done, hlength, hall, h => by
      obtain ⟨groups₁, hrecord, hlength₁, h₁⟩ := fillRecord_settles hlength hunique
        (hall record (List.mem_append_right _ List.mem_cons_self)) h
        fun r hr => hall r (List.mem_append_left _ hr)
      obtain ⟨groups', hrest, hlength', h'⟩ :=
        fill_settles hunique records groups₁ (done ++ [record])
        (by omega) (by rw [List.append_assoc]; exact hall) h₁
      refine ⟨groups', ?_, hlength'.trans hlength₁, by rw [List.append_assoc] at h'; exact h'⟩
      rw [List.foldlM_cons, hrecord]
      exact hrest

/-! ## Lookups -/

/-- A settled group resolves an id to its first entry. -/
theorem resolve_settled {m : IntegerIdMap} {entries : List (Int64 × ImportNode)}
    (hstate : m.groups[groupIndex group]? = some state)
    (hunique : (entries.map Prod.fst).Nodup) (h : state.Settled group spool spool table entries)
    (id : Int64) : m.resolve table group id = .ok (firstOf entries id) := by
  rw [IntegerIdMap.resolve, IntegerIdMap.lookup, ← groupIndex, hstate]
  cases state with
  | empty =>
      obtain ⟨rfl, -⟩ := h
      rfl
  | affine range =>
      obtain rfl : entries = range.visits := h
      rw [firstOf_visits]
      dsimp only [Except.map]
      cases range.lookup id <;> rfl
  | paged map =>
      obtain ⟨hholds, hspool, hfilled⟩ := h
      dsimp only
      cases hfirst : firstOf entries id with
      | none =>
          rw [hholds.lookup_of_not_mem (firstOf_eq_none.mp hfirst)]
          rfl
      | some node =>
          rw [hfilled id node (by rw [hspool]; exact mem_of_firstOf hfirst)]
          rfl
  | disk =>
      rw [← h id]
      rfl

/-- A map that is sealed finds what the first-wins map holds. -/
theorem IntegerIdMap.Stands.seal {m : IntegerIdMap} {ids : FirstWins.Map (Int64 × Int64) ImportNode}
    (h : m.Stands table ids) :
    ∃ m' table', m.seal table = .ok (m', table') ∧
      (∀ group id, m'.resolve table' group id = .ok (ids.find (group, id))) ∧
      ∀ group id, table'.find (group, .string id) = table.find (group, .string id) := by
  have hlength := h.length
  have hstates : ∀ (i : Nat) (state : GroupMap), m.groups[i]? = some state →
      state.Stands (.ofNat (0 + i)) m.spool table (spoolAt ids.entries (.ofNat (0 + i))) := by
    intro i state hstate
    have hlt := (List.getElem?_eq_some_iff.mp hstate).1
    have hstands := h.group (.ofNat i)
    rw [stateAt, groupIndex_ofNat (by omega), hstate, Option.getD_some] at hstands
    rw [Nat.zero_add]
    exact hstands
  rw [IntegerIdMap.seal, h.unsealed, if_neg Bool.false_ne_true]
  dsimp only
  generalize decide (m.budget.limit <
    m.budget.used + (m.groups.map GroupMap.valueBytes).sum) = compress
  obtain ⟨groups, budget, table', hgroups, hsealed⟩ := sealGroups_settles compress
    (spoolAt ids.entries) m.groups 0 m.budget table (by omega) hstates
  have hfilling : Filling groups m.spool [] table' (spoolAt ids.entries) := by
    intro i state hstate
    have hsettled := hsealed.group i state hstate
    rw [Nat.zero_add] at hsettled
    exact hsettled
  have hunique : ∀ group, ((spoolAt ids.entries group).map Prod.fst).Nodup :=
    fun group => nodup_spoolAt ids.unique group
  obtain ⟨groups', hfill, hlength', hfilled⟩ := fill_settles hunique m.spool groups []
    (by rw [hsealed.length]; exact hlength) (fun _ hr => hr) hfilling
  rw [hgroups]
  simp only [bind, Except.bind]
  rw [hfill]
  refine ⟨_, _, rfl, fun group id => ?_, hsealed.strings⟩
  rw [FirstWins.Map.find, ← firstOf_spoolAt]
  cases hstate : groups'[groupIndex group]? with
  | some state =>
      have hsettled := hfilled _ _ hstate
      rw [ofNat_groupIndex] at hsettled
      exact resolve_settled hstate (hunique group) hsettled id
  | none =>
      -- a group behind the vector has neither entries nor rows
      have hge : m.groups.length ≤ groupIndex group := by
        rw [← hsealed.length, ← hlength']
        exact List.getElem?_eq_none_iff.mp hstate
      have hstands := h.group group
      rw [stateAt, List.getElem?_eq_none hge] at hstands
      obtain ⟨hentries, -, hnone⟩ := hstands
      rw [IntegerIdMap.resolve, IntegerIdMap.lookup, ← groupIndex, hstate, hentries, firstOf_nil]
      refine congrArg Except.ok ((hsealed.integers group id (.inr ?_)).trans (hnone id))
      rw [Nat.zero_add]
      exact hge

/-- Every insertion is answered by whether its id is new to the group, and the sealed map finds the
node that an id first came with. -/
theorem first_insertion_found (platform : Platform) (limit : Nat) (table : ExternalIds)
    (htable : ∀ group id, table.find (group, .integer id) = none) (calls : List Record)
    (hgroups : ∀ call ∈ calls, 0 ≤ call.1.1.toInt) :
    ∃ answers m table₁ m' table',
      (IntegerIdMap.new limit).insertAll platform table calls = .ok (answers, m, table₁) ∧
      (answers.length = calls.length ∧ ∀ i (h : i < calls.length), ∃ new, answers[i]? = some new ∧
        (new = true ↔ (calls.get ⟨i, h⟩).1 ∉ (calls.take i).map Prod.fst)) ∧
      m.seal table₁ = .ok (m', table') ∧
      ∀ group id, m'.resolve table' group id = .ok (firstOf calls (group, id)) := by
  obtain ⟨hanswers, hfind⟩ := run_spec calls
  obtain ⟨m, table₁, hrun, hstands⟩ := IntegerIdMap.Stands.insertAll platform calls
    (stands_new limit htable) hgroups
  obtain ⟨m', table', hseal, hresolve, -⟩ := hstands.seal
  refine ⟨_, m, table₁, m', table', hrun, ⟨length_run .., hanswers⟩, hseal, fun group id => ?_⟩
  rw [hresolve, hfind]

/-- A platform whose allocator gives what it is asked for. -/
def exactPlatform : Platform where
  optionRegionBytes := 32
  pageBytes := 96
  reserve _ length := some length
  reserve_enough := by
    intro used length capacity h
    cases h
    exact Nat.le_refl _

/-- Two groups: the second moves to the table when the range ends, for want of memory. -/
def sampleCalls : List Record :=
  [((1, 10), ⟨1, 7⟩), ((2, -4), ⟨2, 7⟩), ((1, 11), ⟨2, 7⟩), ((2, 9000), ⟨3, 8⟩), ((1, 10), ⟨4, 7⟩)]

/-- A duplicate, an affine group and a fallback to disk. -/
theorem first_insertion_found_sample :
    ∃ answers m table₁ m' table',
      (IntegerIdMap.new 1024).insertAll exactPlatform .empty sampleCalls =
        .ok (answers, m, table₁) ∧
      (answers.length = 5 ∧ ∀ i (h : i < 5), ∃ new, answers[i]? = some new ∧
        (new = true ↔ (sampleCalls.get ⟨i, h⟩).1 ∉ (sampleCalls.take i).map Prod.fst)) ∧
      m.seal table₁ = .ok (m', table') ∧
      ∀ group id, m'.resolve table' group id = .ok (firstOf sampleCalls (group, id)) :=
  first_insertion_found exactPlatform 1024 .empty (fun _ _ => rfl) sampleCalls (by decide)

end Velr.IdMap
