import Velr.Common.Results
import Velr.IdMap.Sealing

/-!
# The accounts of the integer-ID map

What the budget is charged is what the paged groups have allocated. Every insertion moves both
alike, and so does sealing (`sealGroups_charged`); a group that gives way to the table is released
of all it was charged. So the accounts balance in every state of a map (`Reachable.balanced`).
-/

namespace Velr.IdMap

/-- The bytes that a group has been charged. -/
def GroupMap.allocated : GroupMap → Nat
  | .paged map => map.allocated
  | _ => 0

/-- The bytes that the groups have been charged. -/
def allocatedBytes (groups : List GroupMap) : Nat := (groups.map GroupMap.allocated).sum

/-! ## Charges -/

/-- Charges of a part, with those of the rest. -/
theorem Charged.frame {budget budget' : Budget} {allocated allocated' : Nat}
    (h : Charged budget budget' allocated allocated') (rest : Nat) :
    Charged budget budget' (allocated + rest) (allocated' + rest) where
  limit := h.limit
  used := by
    have hused := h.used
    omega
  within := h.within
  clamped := h.clamped

/-- Bytes that were within the charges still are. -/
theorem Charged.covered {budget budget' : Budget} {allocated allocated' : Nat}
    (h : Charged budget budget' allocated allocated') (hle : allocated ≤ budget.used) :
    allocated' ≤ budget'.used := by
  have hused := h.used
  omega

/-- A part that gives way to the table. -/
theorem Charged.release {budget budget' : Budget} {allocated allocated' : Nat}
    (h : Charged budget budget' allocated allocated') (hle : allocated ≤ budget.used) :
    Charged budget (budget'.release allocated') allocated 0 := by
  have hrelease := charged_release (h.covered hle) (Nat.le_refl allocated')
  rw [Nat.sub_self] at hrelease
  exact h.trans hrelease

/-- Two parts, one charged after the other. -/
theorem Charged.both {b₁ b₂ b₃ : Budget} {first first' second second' : Nat}
    (h : Charged b₁ b₂ first first') (h' : Charged b₂ b₃ second second') :
    Charged b₁ b₃ (first + second) (first' + second') := by
  have hsecond := h'.frame first'
  rw [Nat.add_comm second, Nat.add_comm second'] at hsecond
  exact (h.frame second).trans hsecond

/-! ## Insertions -/

section
variable {platform : Platform} {state : GroupMap} {group id : Int64} {node : ImportNode}
  {budget : Budget} {spool : List Record} {table : ExternalIds}

/-- An entry of a conversion charges what it allocates. -/
theorem visit_charged (hexact : platform.Exact) {c c' : Conversion} {entry : Int64 × ImportNode}
    (h : c.visit platform group entry = .ok c') :
    Charged c.budget c'.budget c.map.allocated c'.map.allocated := by
  have hinsert := insert_charged hexact c.map entry.1 entry.2 c.budget
  rw [Conversion.visit] at h
  split at h
  · generalize c.map.insert platform entry.1 entry.2 c.budget = outcome at h hinsert
    obtain ⟨map, budget, (_ | _) | new⟩ := outcome
    · cases h
      exact hinsert
    · cases h
    · cases h
      exact hinsert
  · cases h
    exact .refl ..

/-- So do all of them. -/
theorem visits_charged (hexact : platform.Exact) : ∀ (entries : List (Int64 × ImportNode))
    {c c' : Conversion}, entries.foldlM (Conversion.visit platform group) c = .ok c' →
    Charged c.budget c'.budget c.map.allocated c'.map.allocated
  | [], c, c', h => by
      cases h
      exact .refl ..
  | entry :: entries, c, c', h => by
      rw [List.foldlM_cons] at h
      obtain ⟨c₁, hvisit, hrest⟩ := Results.bind_eq_ok_iff.mp h
      exact (visit_charged hexact hvisit).trans (visits_charged hexact entries hrest)

/-- A conversion charges what the paged map allocates; one that falls back gives everything back. -/
theorem insertConverting_charged (hexact : platform.Exact) {range : Affine} {inserted : Inserted}
    (h : insertConverting platform range budget spool table group id node = .ok inserted) :
    Charged budget inserted.budget 0 inserted.state.allocated := by
  rw [insertConverting] at h
  obtain ⟨c, hvisits, h⟩ := Results.bind_eq_ok_iff.mp h
  have hc : Charged budget c.budget 0 c.map.allocated := visits_charged hexact range.visits hvisits
  have hinsert := insert_charged hexact c.map id node c.budget
  dsimp only at h
  split at h
  · generalize c.map.insert platform id node c.budget = outcome at h hinsert
    obtain ⟨map, budget', (_ | _) | new⟩ := outcome
    · cases h
      exact (hc.trans hinsert).release (Nat.zero_le _)
    · cases h
    · cases h
      exact hc.trans hinsert
  · cases h
    exact hc.release (Nat.zero_le _)

/-- An insertion charges the budget what it charges the group; a group that it moves to the table is
released of everything. -/
theorem insertGroup_charged (hexact : platform.Exact) {inserted : Inserted}
    (hle : state.allocated ≤ budget.used)
    (h : insertGroup platform state budget spool table group id node = .ok inserted) :
    Charged budget inserted.budget state.allocated inserted.state.allocated := by
  cases state with
  | empty =>
      cases h
      exact .refl ..
  | affine range =>
      rw [insertGroup] at h
      split at h
      · cases h
        exact .refl ..
      · split at h
        · cases h
          exact .refl ..
        · exact insertConverting_charged hexact h
  | paged map =>
      have hinsert := insert_charged hexact map id node budget
      rw [insertGroup] at h
      generalize map.insert platform id node budget = outcome at h hinsert
      obtain ⟨map', budget', (_ | _) | new⟩ := outcome
      · cases h
        exact hinsert.release hle
      · cases h
      · cases h
        exact hinsert
  | disk =>
      cases h
      exact .refl ..

end

/-! ## The groups -/

/-- New groups have allocated nothing. -/
theorem allocatedBytes_extend (groups : List GroupMap) (n : Nat) :
    allocatedBytes (groups ++ List.replicate n .empty) = allocatedBytes groups := by
  rw [allocatedBytes, List.map_append, List.sum_append, List.map_replicate, List.sum_replicate_nat]
  exact Nat.add_zero _

/-- A group counts with its own bytes. -/
theorem allocatedBytes_set {groups : List GroupMap} {index : Nat} {state : GroupMap}
    (h : groups[index]? = some state) (state' : GroupMap) :
    allocatedBytes (groups.set index state') + state.allocated =
      allocatedBytes groups + state'.allocated := sum_map_set GroupMap.allocated state' h

theorem allocated_le {groups : List GroupMap} {index : Nat} {state : GroupMap}
    (h : groups[index]? = some state) : state.allocated ≤ allocatedBytes groups := by
  have hset := allocatedBytes_set h .empty
  have hzero : GroupMap.empty.allocated = 0 := rfl
  omega

/-- The accounts of a map with a memory limit. -/
structure IntegerIdMap.Balanced (m : IntegerIdMap) (limit : Nat) : Prop where
  limit : m.budget.limit = (IntegerIdMap.new limit).budget.limit
  within : m.budget.used ≤ m.budget.limit
  used : m.budget.used = allocatedBytes m.groups
  unclamped : m.budget.clamped = false

/-- A new map is balanced. -/
theorem balanced_new (limit : Nat) : (IntegerIdMap.new limit).Balanced limit :=
  ⟨rfl, Nat.zero_le _, rfl, rfl⟩

/-- A step that charges the budget what it charges the groups keeps the balance. -/
theorem IntegerIdMap.Balanced.step {m m' : IntegerIdMap} {limit : Nat} (h : m.Balanced limit)
    (hcharged : Charged m.budget m'.budget (allocatedBytes m.groups) (allocatedBytes m'.groups)) :
    m'.Balanced limit where
  limit := hcharged.limit.trans h.limit
  within := hcharged.within h.within
  used := by
    have hused := hcharged.used
    have hbalance := h.used
    omega
  unclamped := hcharged.clamped.trans h.unclamped

section
variable {platform : Platform} {m m' : IntegerIdMap} {table table' : ExternalIds} {group id : Int64}
  {node : ImportNode} {new : Bool} {limit : Nat}

/-- What an insertion into a balanced map moves: the budget by as much as its group. -/
theorem insert_moves (hexact : platform.Exact) (hbalanced : m.Balanced limit)
    (h : m.insert platform table group id node = .ok (new, m', table')) :
    Charged m.budget m'.budget (stateAt m.groups group).allocated
        (stateAt m'.groups group).allocated ∧
      Charged m.budget m'.budget (allocatedBytes m.groups) (allocatedBytes m'.groups) := by
  rw [IntegerIdMap.insert] at h
  split at h
  · cases h
  · split at h
    · cases h
    · next hnonneg =>
        rw [← groupIndex_of_nonneg (by omega)] at h
        dsimp only at h
        rw [← stateAt, stateAt_extend] at h
        obtain ⟨inserted, hinsert, h⟩ := Results.bind_eq_ok_iff.mp h
        cases h
        have hlength : (m.groups ++ List.replicate (groupIndex group + 1 - m.groups.length)
            GroupMap.empty).length = max m.groups.length (groupIndex group + 1) := by
          rw [List.length_append, List.length_replicate]
          omega
        have hlt :
          groupIndex group < (m.groups ++ List.replicate (groupIndex group + 1 - m.groups.length)
            GroupMap.empty).length := by omega
        have hstate : (m.groups ++ List.replicate (groupIndex group + 1 - m.groups.length)
            GroupMap.empty)[groupIndex group]? = some (stateAt m.groups group) := by
          rw [← stateAt_extend m.groups (groupIndex group + 1 - m.groups.length) group, stateAt,
            List.getElem?_eq_getElem hlt]
          rfl
        have hle := allocated_le hstate
        rw [allocatedBytes_extend, ← hbalanced.used] at hle
        have hcharged := insertGroup_charged hexact hle hinsert
        have hset := allocatedBytes_set hstate inserted.state
        rw [allocatedBytes_extend] at hset
        dsimp only
        rw [stateAt_set hlt, if_pos rfl]
        refine ⟨hcharged, ?_⟩
        have hall := hcharged.frame (allocatedBytes m.groups - (stateAt m.groups group).allocated)
        rw [hbalanced.used] at hle
        rw [Nat.add_sub_cancel' hle] at hall
        have hsum : inserted.state.allocated +
            (allocatedBytes m.groups - (stateAt m.groups group).allocated) = allocatedBytes
              ((m.groups ++ List.replicate (groupIndex group + 1 - m.groups.length)
                GroupMap.empty).set (groupIndex group) inserted.state) := by omega
        rw [← hsum]
        exact hall

end

/-! ## Sealing -/

/-- Sealing charges the budget what it charges the groups; a group that it moves to the table is
released of everything. -/
theorem sealGroups_charged {compress : Bool} {spool : List Record} :
    ∀ {groups groups' : List GroupMap} {index : Nat} {budget budget' : Budget}
      {table table' : ExternalIds}, allocatedBytes groups ≤ budget.used →
      (∀ map, .paged map ∈ groups → map.weight ≤ map.allocated) →
      sealGroups compress spool index groups budget table = .ok (groups', budget', table') →
      Charged budget budget' (allocatedBytes groups) (allocatedBytes groups') := by
  intro groups
  induction groups with
  | nil =>
      intro groups' index budget budget' table table' _ _ h
      cases h
      exact .refl ..
  | cons state groups ih =>
      intro groups' index budget budget' table table' hle hweights h
      have hsum : ∀ (state : GroupMap) (groups : List GroupMap),
          allocatedBytes (state :: groups) = state.allocated + allocatedBytes groups :=
        fun _ _ => List.sum_cons
      have hweights' : ∀ map, GroupMap.paged map ∈ groups → map.weight ≤ map.allocated :=
        fun map hmem => hweights map (List.mem_cons_of_mem _ hmem)
      rw [hsum] at hle ⊢
      -- the groups behind, after what becomes of this one
      have hcons : ∀ {state' : GroupMap} {budget₁ : Budget} {table₁ : ExternalIds},
          Charged budget budget₁ state.allocated state'.allocated →
          (do
            let behind ← sealGroups compress spool (index + 1) groups budget₁ table₁
            Except.ok (state' :: behind.1, behind.2)) = .ok (groups', budget', table') →
          Charged budget budget' (state.allocated + allocatedBytes groups)
            (allocatedBytes groups') := by
        intro state' budget₁ table₁ hfirst hrest
        obtain ⟨⟨groups₁, budget₂, table₂⟩, hbehind, hrest⟩ := Results.bind_eq_ok_iff.mp hrest
        cases hrest
        have hcovered := (hfirst.frame (allocatedBytes groups)).covered hle
        rw [hsum]
        exact hfirst.both (ih (by omega) hweights' hbehind)
      cases state with
      | empty => exact hcons (.refl ..) h
      | affine range => exact hcons (.refl ..) h
      | disk => exact hcons (.refl ..) h
      | paged map =>
          have hspec := map.seal_spec (hweights map List.mem_cons_self) budget compress
          have hmap : map.allocated ≤ budget.used := Nat.le_trans (Nat.le_add_right ..) hle
          have hcharged := hspec.leads hmap
          have hresult := hspec.result
          rw [sealGroups] at h
          generalize map.seal budget compress = outcome at h hcharged hresult
          obtain ⟨charges, (_ | _) | map'⟩ := outcome
          · exact hcons (hcharged.release hmap) h
          · cases h
          · refine hcons ?_ h
            rw [show (GroupMap.paged map').allocated = charges.allocated from hresult.1]
            exact hcharged

/-- Setting a value allocates nothing. -/
theorem allocated_set {map map' : RadixMap} {id : Int64} {node : ImportNode}
    (h : map.set id node = .ok map') : map'.allocated = map.allocated := by
  rw [RadixMap.set] at h
  dsimp only at h
  split at h
  · cases h
  · split at h
    · cases h
    · obtain ⟨page, hpage, rfl⟩ := Results.map_eq_ok_iff.mp h
      rfl

/-- Filling in a record allocates nothing. -/
theorem fillRecord_allocated {groups groups' : List GroupMap} {record : Record}
    (h : fillRecord groups record = .ok groups') :
    allocatedBytes groups' = allocatedBytes groups := by
  rw [fillRecord] at h
  split at h
  · next map hfound =>
      obtain ⟨map', hset, rfl⟩ := Results.map_eq_ok_iff.mp h
      have hsum := allocatedBytes_set hfound (.paged map')
      have hsame : (GroupMap.paged map').allocated = (GroupMap.paged map).allocated :=
        allocated_set hset
      omega
  · cases h
    rfl

/-- Neither does filling in all of them. -/
theorem fill_allocated : ∀ {records : List Record} {groups groups' : List GroupMap},
    records.foldlM fillRecord groups = .ok groups' → allocatedBytes groups' = allocatedBytes groups
  | [], groups, groups', h => by
      cases h
      rfl
  | record :: records, groups, groups', h => by
      rw [List.foldlM_cons] at h
      obtain ⟨groups₁, hrecord, hrest⟩ := Results.bind_eq_ok_iff.mp h
      exact (fill_allocated hrest).trans (fillRecord_allocated hrecord)

/-! ## The states of a map -/

section
variable {platform : Platform} {m m' : IntegerIdMap} {table table' : ExternalIds} {limit : Nat}

/-- Sealing keeps the balance. -/
theorem IntegerIdMap.Balanced.seal {ids : FirstWins.Map (Int64 × Int64) ImportNode}
    (hbalanced : m.Balanced limit) (hstands : m.Stands table ids)
    (h : m.seal table = .ok (m', table')) : m'.Balanced limit := by
  have hweights : ∀ map, .paged map ∈ m.groups → map.weight ≤ map.allocated := by
    intro map hmem
    obtain ⟨i, hi, hget⟩ := List.getElem_of_mem hmem
    have hlength := hstands.length
    have hgroup := hstands.group (.ofNat i)
    rw [stateAt, groupIndex_ofNat (by omega), List.getElem?_eq_getElem hi, hget] at hgroup
    exact hgroup.1.weight
  rw [IntegerIdMap.seal, hstands.unsealed, if_neg Bool.false_ne_true] at h
  obtain ⟨⟨groups, budget, table₁⟩, hgroups, h⟩ := Results.bind_eq_ok_iff.mp h
  obtain ⟨groups', hfill, h⟩ := Results.bind_eq_ok_iff.mp h
  cases h
  have hcharged := sealGroups_charged (Nat.le_of_eq hbalanced.used.symm) hweights hgroups
  rw [← fill_allocated hfill] at hcharged
  exact hbalanced.step hcharged

/-- The states of a map with a memory limit: a new one, and what the calls that return leave. -/
inductive Reachable (platform : Platform) (limit : Nat) : IntegerIdMap → ExternalIds → Prop
  | new (table : ExternalIds) (h : ∀ group id, table.find (group, .integer id) = none) :
      Reachable platform limit (.new limit) table
  | inserted {m m' : IntegerIdMap} {table table' : ExternalIds} (group id : Int64)
    (node : ImportNode)
      {new : Bool} : Reachable platform limit m table →
      m.insert platform table group id node = .ok (new, m', table') →
      Reachable platform limit m' table'
  | sealed {m m' : IntegerIdMap} {table table' : ExternalIds} : Reachable platform limit m table →
      m.seal table = .ok (m', table') → Reachable platform limit m' table'

/-- A map that is not sealed stands for the ids it was given. -/
theorem Reachable.stands (h : Reachable platform limit m table) :
    m.isSealed = true ∨ ∃ ids, m.Stands table ids := by
  induction h with
  | new table h => exact .inr ⟨_, stands_new limit h⟩
  | inserted group id node hreach hinsert ih =>
      rcases ih with hsealed | ⟨ids, hstands⟩
      · rw [IntegerIdMap.insert, if_pos hsealed] at hinsert
        cases hinsert
      · by_cases hgroup : group.toInt < 0
        · rw [IntegerIdMap.insert, hstands.unsealed, if_neg Bool.false_ne_true,
            if_pos hgroup] at hinsert
          cases hinsert
        · obtain ⟨m', table', hok, hstands', -⟩ :=
            hstands.insert platform (Int.not_lt.mp hgroup) id node
          rw [hok] at hinsert
          cases hinsert
          exact .inr ⟨_, hstands'⟩
  | sealed hreach hseal ih =>
      left
      rw [IntegerIdMap.seal] at hseal
      split at hseal
      · next hsealed =>
          cases hseal
          exact hsealed
      · obtain ⟨⟨groups, budget, table₁⟩, hgroups, hseal⟩ := Results.bind_eq_ok_iff.mp hseal
        obtain ⟨groups', hfill, hseal⟩ := Results.bind_eq_ok_iff.mp hseal
        cases hseal
        rfl

/-- Every reachable map is balanced. -/
theorem Reachable.balanced (hexact : platform.Exact) (h : Reachable platform limit m table) :
    m.Balanced limit := by
  induction h with
  | new table h => exact balanced_new limit
  | inserted group id node hreach hinsert ih => exact ih.step (insert_moves hexact ih hinsert).2
  | sealed hreach hseal ih =>
      rcases hreach.stands with hsealed | ⟨ids, hstands⟩
      · rw [IntegerIdMap.seal, if_pos hsealed] at hseal
        cases hseal
        exact ih
      · exact ih.seal hstands hseal

/-- No call panics: the counters never fall below zero. -/
theorem Reachable.insert_ne_panic (h : Reachable platform limit m table) (group id : Int64)
    (node : ImportNode) : m.insert platform table group id node ≠ .error .panic := by
  intro hpanic
  rcases h.stands with hsealed | ⟨ids, hstands⟩
  · rw [IntegerIdMap.insert, if_pos hsealed] at hpanic
    cases hpanic
  · by_cases hgroup : group.toInt < 0
    · rw [IntegerIdMap.insert, hstands.unsealed, if_neg Bool.false_ne_true, if_pos hgroup] at hpanic
      cases hpanic
    · obtain ⟨m', table', hok, -⟩ := hstands.insert platform (Int.not_lt.mp hgroup) id node
      rw [hok] at hpanic
      cases hpanic

/-- Every reachable map can be sealed. -/
theorem Reachable.seal_ok (h : Reachable platform limit m table) :
    ∃ m' table', m.seal table = .ok (m', table') := by
  rcases h.stands with hsealed | ⟨ids, hstands⟩
  · exact ⟨m, table, by rw [IntegerIdMap.seal, if_pos hsealed]⟩
  · obtain ⟨m', table', hseal, -⟩ := hstands.seal
    exact ⟨m', table', hseal⟩

/-- In every state of a map the budget is within its limit and charged what the paged groups have
allocated, no subtraction has been clamped, none panics in a call, and an insertion that moves its
group to the table gives back all the group was charged. -/
theorem accounts_balance (hexact : platform.Exact) (h : Reachable platform limit m table) :
    (m.budget.limit = (IntegerIdMap.new limit).budget.limit ∧ m.budget.used ≤ m.budget.limit) ∧
      m.budget.used = (m.groups.map GroupMap.allocated).sum ∧
      m.budget.clamped = false ∧
      (∀ group id node, m.insert platform table group id node ≠ .error .panic) ∧
      (∃ m' table', m.seal table = .ok (m', table')) ∧
      ∀ group id node new m' table',
        m.insert platform table group id node = .ok (new, m', table') →
        stateAt m'.groups group = .disk →
        m'.budget.used + (stateAt m.groups group).allocated = m.budget.used := by
  have hbalanced := h.balanced hexact
  refine ⟨⟨hbalanced.limit, hbalanced.within⟩, hbalanced.used, hbalanced.unclamped,
    h.insert_ne_panic, h.seal_ok, fun group id node new m' table' hinsert hdisk => ?_⟩
  have hused := (insert_moves hexact hbalanced hinsert).1.used
  rw [hdisk] at hused
  exact hused

end

/-- A run of insertions leaves a state of the map. -/
theorem Reachable.insertAll {platform : Platform} {limit : Nat} :
    ∀ (calls : List Record) {answers : List Bool} {m m' : IntegerIdMap}
    {table table' : ExternalIds},
      Reachable platform limit m table →
      m.insertAll platform table calls = .ok (answers, m', table') →
      Reachable platform limit m' table'
  | [], _, _, _, _, _, h, hrun => by
      cases hrun
      exact h
  | ((group, id), node) :: calls, _, _, _, _, _, h, hrun => by
      rw [IntegerIdMap.insertAll] at hrun
      obtain ⟨⟨new, m₁, table₁⟩, hinsert, hrun⟩ := Results.bind_eq_ok_iff.mp hrun
      obtain ⟨⟨answers, m₂, table₂⟩, hrest, hrun⟩ := Results.bind_eq_ok_iff.mp hrun
      cases hrun
      exact Reachable.insertAll calls (.inserted group id node h hinsert) hrest

def GroupMap.isDisk : GroupMap → Bool
  | .disk => true
  | _ => false

/-- The ids of two groups, each in pages. -/
def pagedCalls : List Record :=
  [((1, 10), ⟨1, 7⟩), ((2, -4), ⟨2, 7⟩), ((1, 5000), ⟨3, 7⟩), ((2, 9), ⟨4, 8⟩)]

/-- The second group moves to the table at an id that its directory has no memory for. -/
theorem accounts_balance_paged :
    ∃ answers m table new m' table',
      (IntegerIdMap.new 65536).insertAll exactPlatform .empty pagedCalls =
        .ok (answers, m, table) ∧
      m.insert exactPlatform table 2 4611686018427387904 ⟨5, 8⟩ = .ok (new, m', table') ∧
      (m.budget.used ≤ 49152 ∧ m.groups.map GroupMap.allocated = [0, 1520, 1552] ∧
        m.budget.used = 3072 ∧ m.budget.clamped = false) ∧
      m'.groups.map GroupMap.allocated = [0, 1520, 0] ∧ m'.budget.used + 1552 = 3072 := by
  have hpaged : ((IntegerIdMap.new 65536).insertAll exactPlatform .empty pagedCalls).toOption.map
      (fun r => (r.2.1.groups.map GroupMap.allocated, (stateAt r.2.1.groups 2).allocated)) =
        some ([0, 1520, 1552], 1552) := by decide +kernel
  have hmoved : (((IntegerIdMap.new 65536).insertAll exactPlatform .empty pagedCalls).toOption.bind
      fun r => (r.2.1.insert exactPlatform r.2.2 2 4611686018427387904 ⟨5, 8⟩).toOption.map
        fun r => (r.2.1.groups.map GroupMap.allocated, (stateAt r.2.1.groups 2).isDisk)) =
        some ([0, 1520, 0], true) := by decide +kernel
  cases hrun : (IntegerIdMap.new 65536).insertAll exactPlatform .empty pagedCalls with
  | error e =>
      rw [hrun] at hpaged
      cases hpaged
  | ok r =>
      obtain ⟨answers, m, table⟩ := r
      rw [hrun] at hpaged hmoved
      obtain ⟨hgroups, hcharged⟩ := Prod.mk.inj (Option.some.inj hpaged)
      have hreach : Reachable exactPlatform 65536 m table :=
        .insertAll pagedCalls (.new .empty fun _ _ => rfl) hrun
      obtain ⟨⟨hlimit, hwithin⟩, hused, hclamped, _, _, hreturned⟩ :=
        accounts_balance (fun _ _ _ h => (Option.some.inj h).symm) hreach
      cases hinsert : m.insert exactPlatform table 2 4611686018427387904 ⟨5, 8⟩ with
      | error e =>
          simp only [Except.toOption, Option.bind_some, hinsert] at hmoved
          cases hmoved
      | ok r =>
          obtain ⟨new, m', table'⟩ := r
          simp only [Except.toOption, Option.bind_some, hinsert, Option.map_some] at hmoved
          obtain ⟨hgroups', hdisk⟩ := Prod.mk.inj (Option.some.inj hmoved)
          have hstate : stateAt m'.groups 2 = .disk := by
            cases hstate : stateAt m'.groups 2 with
            | disk => rfl
            | empty | affine | paged =>
                rw [hstate] at hdisk
                cases hdisk
          have hback := hreturned 2 4611686018427387904 ⟨5, 8⟩ new m' table' hinsert hstate
          rw [hgroups] at hused
          rw [hcharged, hused] at hback
          exact ⟨answers, m, table, new, m', table', rfl, hinsert,
            ⟨hwithin.trans hlimit.le, hgroups, hused, hclamped⟩, hgroups', hback⟩

end Velr.IdMap
