import Velr.IdMap.Map

/-!
# The integer-ID map answers for the first insertions

Whatever the memory limit makes of its groups, the map is one in which the first node of an id wins:
`GroupMap.Stands` says what the state of a group, the spool and the table hold of its entries, every
insertion keeps it (`insert_refines`), and so does sealing (`seal_refines`).
-/

namespace Velr.IdMap

open FirstWins

/-! ## Ranges -/

theorem toInt_add_one (value : Int64) (h : value.toInt + 1 < 2 ^ 63) :
    (value + 1).toInt = value.toInt + 1 := by
  have hle := value.le_toInt
  rw [Int64.toInt_add, show (1 : Int64).toInt = 1 from rfl]
  exact Int.bmod_eq_of_le (by omega) (by omega)

/-- The visit of an id is the one of its distance from the first. -/
theorem firstOf_visitsFrom (labelGroup : Int64) : ∀ (steps : Nat) (first node : Int64),
    first.toInt + steps < 2 ^ 63 → node.toInt + steps < 2 ^ 63 → ∀ id : Int64,
    firstOf (visitsFrom labelGroup steps first node) id =
      if id.toInt < first.toInt ∨ first.toInt + steps < id.toInt then none
      else some ⟨.ofInt (node.toInt + (id.toInt - first.toInt)), labelGroup⟩
  | 0, first, node, _, _, id => by
      rw [visitsFrom, firstOf_cons, firstOf_nil]
      by_cases hid : first = id
      · subst hid
        rw [if_pos rfl, if_neg (by omega), Int.sub_self, Int.add_zero, Int64.ofInt_toInt]
      · have hne : first.toInt ≠ id.toInt := fun h => hid (Int64.toInt_inj.mp h)
        rw [if_neg hid, if_pos (by omega)]
  | steps + 1, first, node, hfirst, hnode, id => by
      have hnext := toInt_add_one first (by omega)
      have hnext' := toInt_add_one node (by omega)
      rw [visitsFrom, firstOf_cons, firstOf_visitsFrom labelGroup steps (first + 1) (node + 1)
        (by omega) (by omega), hnext, hnext']
      by_cases hid : first = id
      · subst hid
        rw [if_pos rfl, if_neg (by omega), Int.sub_self, Int.add_zero, Int64.ofInt_toInt]
      · have hne : first.toInt ≠ id.toInt := fun h => hid (Int64.toInt_inj.mp h)
        rw [if_neg hid]
        by_cases hout : id.toInt < first.toInt ∨ first.toInt + ↑(steps + 1) < id.toInt
        · rw [if_pos hout, if_pos (by omega)]
        · rw [if_neg hout, if_neg (by omega)]
          congr 3
          omega

/-- A range answers as the list of its visits. -/
theorem firstOf_visits (range : Affine) (id : Int64) :
    firstOf range.visits id = range.lookup id := by
  have hordered := range.ordered
  have haligned := range.aligned
  have hlast := range.last.toInt_lt
  have hlastNode := range.lastNode.toInt_lt
  rw [Affine.visits, firstOf_visitsFrom _ _ _ _ (by omega) (by omega), Affine.lookup,
    show range.first.toInt + ↑(range.last.toInt - range.first.toInt).toNat =
      range.last.toInt by omega]

/-- A range that is one longer has one visit more. -/
theorem visitsFrom_append (labelGroup : Int64) : ∀ (steps : Nat) (first node last lastNode : Int64),
    first.toInt + ↑(steps + 1) = last.toInt → node.toInt + ↑(steps + 1) = lastNode.toInt →
    visitsFrom labelGroup (steps + 1) first node =
      visitsFrom labelGroup steps first node ++ [(last, ⟨lastNode, labelGroup⟩)]
  | 0, first, node, last, lastNode, hlast, hnode => by
      have hbound := last.toInt_lt
      have hbound' := lastNode.toInt_lt
      have hnext := toInt_add_one first (by omega)
      have hnext' := toInt_add_one node (by omega)
      obtain rfl : first + 1 = last := Int64.toInt_inj.mp (by omega)
      obtain rfl : node + 1 = lastNode := Int64.toInt_inj.mp (by omega)
      rfl
  | steps + 1, first, node, last, lastNode, hlast, hnode => by
      have hbound := last.toInt_lt
      have hbound' := lastNode.toInt_lt
      have hnext := toInt_add_one first (by omega)
      have hnext' := toInt_add_one node (by omega)
      rw [visitsFrom, visitsFrom_append labelGroup steps (first + 1) (node + 1) last lastNode
        (by omega) (by omega)]
      rfl

/-- An extended range has one more visit. -/
theorem visits_extend (range : Affine) (id : Int64) (node : ImportNode)
    (h : range.Extends id node) :
    (range.extend id node h).visits = range.visits ++ [(id, node)] := by
  have hordered := range.ordered
  have haligned := range.aligned
  have hlast := h.1
  have hlastNode := h.2.1
  have hlabel := h.2.2
  have hsteps : (id.toInt - range.first.toInt).toNat =
      (range.last.toInt - range.first.toInt).toNat + 1 := by omega
  have hvisits : (range.extend id node h).visits = visitsFrom range.labelGroup
      (id.toInt - range.first.toInt).toNat range.first range.firstNode := rfl
  have hnode : (⟨node.id, range.labelGroup⟩ : ImportNode) = node := by rw [hlabel]
  rw [hvisits, hsteps, visitsFrom_append _ _ _ _ id node.id (by omega) (by omega), hnode]
  rfl

/-- A single id is visited once. -/
theorem visits_single (id : Int64) (node : ImportNode) :
    (Affine.single id node).visits = [(id, node)] := by
  rw [Affine.visits, Affine.single]
  dsimp only
  rw [Int.sub_self]
  rfl

/-! ## The table and the spool -/

/-- The table gets an id unless it has it. -/
theorem find_diskInsert (table : ExternalIds) (group id : Int64) (node : ImportNode)
    (key : Int64 × ExternalId) :
    (diskInsert table group id node).2.find key =
      (table.find key).or (if key = (group, .integer id) then some node else none) := by
  rw [diskInsert, find_insert, firstOf_cons, firstOf_nil]
  simp only [eq_comm]

/-- Behind several insertions the first wins, unless the id was there. -/
theorem find_diskInsertAll (group : Int64) (entries : List (Int64 × ImportNode))
    (table : ExternalIds)
    (id : Int64) :
    (diskInsertAll group entries table).find (group, .integer id) =
      (table.find (group, .integer id)).or (firstOf entries id) := by
  induction entries generalizing table with
  | nil => rw [firstOf_nil, Option.or_none]; rfl
  | cons entry entries ih =>
      refine (ih (diskInsert table group entry.1 entry.2).2).trans ?_
      rw [find_diskInsert, Option.or_assoc, firstOf_cons]
      congr 1
      by_cases hid : entry.1 = id
      · rw [if_pos hid, if_pos (by rw [hid])]
        rfl
      · rw [if_neg hid, if_neg fun h => hid (by cases h; rfl), Option.none_or]

/-- Insertions into a group leave the rows of other keys as they are. -/
theorem find_diskInsertAll_of_ne (group : Int64) (entries : List (Int64 × ImportNode))
    (table : ExternalIds) {key : Int64 × ExternalId} (h : ∀ id, key ≠ (group, .integer id)) :
    (diskInsertAll group entries table).find key = table.find key := by
  induction entries generalizing table with
  | nil => rfl
  | cons entry entries ih =>
      refine (ih (diskInsert table group entry.1 entry.2).2).trans ?_
      rw [find_diskInsert, if_neg (h entry.1), Option.or_none]

/-- The records of a group are those of the front and those of the back. -/
theorem spoolAt_append (spool spool' : List Record) (group : Int64) :
    spoolAt (spool ++ spool') group = spoolAt spool group ++ spoolAt spool' group :=
  List.filterMap_append

theorem spoolAt_self (group : Int64) (entries : List (Int64 × ImportNode)) :
    spoolAt (entries.map fun entry => ((group, entry.1), entry.2)) group = entries := by
  rw [spoolAt, List.filterMap_map]
  refine (List.filterMap_congr fun entry _ => ?_).trans (List.filterMap_some)
  exact if_pos rfl

theorem spoolAt_other {group group' : Int64} (h : group' ≠ group)
    (entries : List (Int64 × ImportNode)) :
    spoolAt (entries.map fun entry => ((group, entry.1), entry.2)) group' = [] := by
  rw [spoolAt, List.filterMap_map, List.filterMap_eq_nil_iff]
  exact fun entry _ => if_neg fun heq => h heq.symm

/-! ## A group -/

/-- What the state of a group, its records in the spool and its rows in the table hold of its
entries. -/
def GroupMap.Stands (state : GroupMap) (group : Int64) (spool : List Record) (table : ExternalIds)
    (entries : List (Int64 × ImportNode)) : Prop :=
  match state with
  | .empty => entries = [] ∧ spoolAt spool group = [] ∧
      ∀ id, table.find (group, .integer id) = none
  | .affine range => entries = range.visits ∧ spoolAt spool group = [] ∧
      ∀ id, table.find (group, .integer id) = none
  | .paged map => map.Building entries ∧ spoolAt spool group = entries ∧
      ∀ id, table.find (group, .integer id) = none
  | .disk => ∀ id, table.find (group, .integer id) = firstOf entries id

/-- The entries of a group after an insertion. -/
def addEntry (entries : List (Int64 × ImportNode)) (id : Int64) (node : ImportNode) :
    List (Int64 × ImportNode) :=
  if id ∈ entries.map Prod.fst then entries else entries ++ [(id, node)]

/-- An entry is found if its id is new. -/
theorem firstOf_addEntry (entries : List (Int64 × ImportNode)) (id : Int64) (node : ImportNode)
    (id' : Int64) :
    firstOf (addEntry entries id node) id' =
    (firstOf entries id').or (firstOf [(id, node)] id') := by
  rw [addEntry]
  split
  · next hold =>
      cases hfirst : firstOf entries id' with
      | some _ => rfl
      | none =>
          have hne : id ≠ id' := by
            rintro rfl
            exact firstOf_eq_none.mp hfirst hold
          rw [firstOf_cons, if_neg hne]
          rfl
  · rw [firstOf_append]

section
variable {platform : Platform} {state : GroupMap} {group id : Int64} {node : ImportNode}
  {budget : Budget} {spool : List Record} {table : ExternalIds}
  {entries : List (Int64 × ImportNode)}

/-- What an insertion into a group leaves: the answer, the entries of this group, and the records
and rows of the others. -/
structure Inserted.Refines (inserted : Inserted) (group id : Int64) (node : ImportNode)
    (spool : List Record) (table : ExternalIds) (entries : List (Int64 × ImportNode)) : Prop where
  new : inserted.new = decide (id ∉ entries.map Prod.fst)
  stands : inserted.state.Stands group inserted.spool inserted.table (addEntry entries id node)
  spool : ∀ group' ≠ group, spoolAt inserted.spool group' = spoolAt spool group'
  table : ∀ key, (∀ id, key ≠ (group, .integer id)) → inserted.table.find key = table.find key

/-- A row added to the rows of a group. -/
theorem diskInsert_fst (hrows : ∀ id, table.find (group, .integer id) = firstOf entries id)
    (id : Int64) (node : ImportNode) :
    (diskInsert table group id node).1 = decide (id ∉ entries.map Prod.fst) := by
  rw [diskInsert, insert_fst, hrows, ← Option.not_isSome, isSome_firstOf, decide_not]

/-- The table finds what the entries of the group do. -/
theorem find_diskInsert_group (hrows : ∀ id, table.find (group, .integer id) = firstOf entries id)
    (id : Int64) (node : ImportNode) (id' : Int64) :
    (diskInsert table group id node).2.find (group, .integer id') =
      firstOf (addEntry entries id node) id' := by
  rw [find_diskInsert, hrows, firstOf_addEntry, firstOf_cons, firstOf_nil]
  congr 1
  by_cases hid : id = id'
  · rw [if_pos hid, if_pos (by rw [hid])]
  · rw [if_neg hid, if_neg fun h => hid (by cases h; rfl)]

/-- A group whose entries are moved to the table, and an id more. -/
theorem refines_toDisk (hnone : ∀ id, table.find (group, .integer id) = none)
    (entries : List (Int64 × ImportNode)) (id : Int64) (node : ImportNode) (spool' : List Record)
    (hspool : ∀ group' ≠ group, spoolAt spool' group' = spoolAt spool group')
    (budget : Budget) :
    Inserted.Refines
      ⟨.disk, (diskInsert (diskInsertAll group entries table) group id node).1, budget, spool',
        (diskInsert (diskInsertAll group entries table) group id node).2⟩
      group id node spool table entries := by
  have hrows : ∀ id, (diskInsertAll group entries table).find (group, .integer id) =
      firstOf entries id := by
    intro id
    rw [find_diskInsertAll, hnone, Option.none_or]
  refine ⟨diskInsert_fst hrows id node, find_diskInsert_group hrows id node, hspool,
    fun key hkey => ?_⟩
  dsimp only
  rw [find_diskInsert, if_neg (hkey id), Option.or_none,
    find_diskInsertAll_of_ne group entries table hkey]

theorem spoolAt_other_record {group' : Int64} (h : group' ≠ group) (spool : List Record)
    (id : Int64) (node : ImportNode) :
    spoolAt (spool ++ [((group, id), node)]) group' = spoolAt spool group' := by
  rw [spoolAt_append]
  exact (congrArg _ (spoolAt_other h [(id, node)])).trans (List.append_nil _)

theorem spoolAt_record (spool : List Record) (group id : Int64) (node : ImportNode) :
    spoolAt (spool ++ [((group, id), node)]) group = spoolAt spool group ++ [(id, node)] := by
  rw [spoolAt_append]
  exact congrArg _ (spoolAt_self group [(id, node)])

/-- The visits of a range that is given up: as long as they fit, the map has taken them in and the
spool has their records. -/
theorem convert_spec (platform : Platform) (group : Int64) :
    ∀ (entries done : List (Int64 × ImportNode)) (c : Conversion), c.fits = true →
      c.map.Building done → ((done ++ entries).map Prod.fst).Nodup →
    ∃ c', entries.foldlM (Conversion.visit platform group) c = .ok c' ∧
      (c'.fits = true → c'.map.Building (done ++ entries) ∧
        spoolAt c'.spool group = spoolAt c.spool group ++ entries) ∧
      ∀ group' ≠ group, spoolAt c'.spool group' = spoolAt c.spool group'
  | [], done, c, _, hbuilding, _ => by
      refine ⟨c, rfl, fun _ => ?_, fun _ _ => rfl⟩
      rw [List.append_nil, List.append_nil]
      exact ⟨hbuilding, rfl⟩
  | (id, node) :: entries, done, c, hfits, hbuilding, hunique => by
      have hinsert := hbuilding.insert platform id node c.budget
      have hnew : id ∉ done.map Prod.fst := by
        rw [List.map_append, List.nodup_append] at hunique
        intro hmem
        exact hunique.2.2 id hmem id List.mem_cons_self rfl
      rw [List.foldlM_cons, Conversion.visit, if_pos hfits]
      generalize c.map.insert platform id node c.budget = outcome at hinsert
      obtain ⟨map, budget, result⟩ := outcome
      cases result with
      | error failure =>
          obtain rfl : failure = .error () := hinsert
          -- what does not fit is not tried again
          have hstop : ∀ entries : List (Int64 × ImportNode),
              entries.foldlM (Conversion.visit platform group)
                { c with map, budget, fits := false } =
                  .ok { c with map, budget, fits := false } := by
            intro entries
            induction entries with
            | nil => rfl
            | cons entry entries ih =>
                rw [List.foldlM_cons, Conversion.visit, if_neg Bool.false_ne_true]
                exact ih
          exact ⟨_, hstop entries, fun hfalse => absurd hfalse Bool.false_ne_true, fun _ _ => rfl⟩
      | ok new =>
          obtain ⟨-, hmap⟩ := hinsert
          rw [if_neg hnew] at hmap
          obtain ⟨c', hc', hall, hothers⟩ :=
            convert_spec platform group entries (done ++ [(id, node)])
            { c with map, budget, spool := c.spool ++ [((group, id), node)] } hfits hmap
            (by rw [List.append_assoc]; exact hunique)
          refine ⟨c', hc', fun hfits' => ?_, fun group' hne => ?_⟩
          · obtain ⟨hbuilding', hspool⟩ := hall hfits'
            rw [List.append_assoc] at hbuilding'
            dsimp only at hspool
            rw [spoolAt_record, List.append_assoc] at hspool
            exact ⟨hbuilding', hspool⟩
          · exact (hothers group' hne).trans (spoolAt_other_record hne ..)

/-- A range that is given up becomes pages, or rows of the table where these do not fit. -/
theorem insertConverting_refines {range : Affine} (hspool : spoolAt spool group = [])
    (hnone : ∀ id, table.find (group, .integer id) = none)
    (hunique : (range.visits.map Prod.fst).Nodup) (hnew : id ∉ range.visits.map Prod.fst) :
    ∃ inserted, insertConverting platform range budget spool table group id node = .ok inserted ∧
      inserted.Refines group id node spool table range.visits := by
  obtain ⟨c, hc, hfits, hothers⟩ := convert_spec platform group range.visits []
    ⟨.default, budget, spool, true⟩ rfl building_default hunique
  dsimp only at hfits hothers
  rw [hspool, List.nil_append] at hfits
  rw [insertConverting, hc]
  simp only [bind, Except.bind]
  have hadd : addEntry range.visits id node = range.visits ++ [(id, node)] := if_neg hnew
  by_cases hfit : c.fits = true
  · rw [if_pos hfit]
    obtain ⟨hbuilding, hspool'⟩ := hfits hfit
    have hinsert := hbuilding.insert platform id node c.budget
    generalize c.map.insert platform id node c.budget = outcome at hinsert
    obtain ⟨map, budget', result⟩ := outcome
    cases result with
    | error failure =>
        obtain rfl : failure = .error () := hinsert
        exact ⟨_, rfl, refines_toDisk hnone range.visits id node c.spool hothers _⟩
    | ok new =>
        obtain ⟨-, hmap⟩ := hinsert
        rw [if_neg hnew] at hmap
        refine ⟨_, rfl, (decide_eq_true hnew).symm, ?_, fun group' hne => ?_, fun _ _ => rfl⟩
        · rw [hadd]
          exact ⟨hmap, by rw [spoolAt_record, hspool'], hnone⟩
        · exact (spoolAt_other_record hne ..).trans (hothers group' hne)
  · rw [if_neg hfit]
    exact ⟨_, rfl, refines_toDisk hnone range.visits id node c.spool hothers _⟩

/-- An insertion into a group, whatever its state. -/
theorem insertGroup_refines (platform : Platform) (id : Int64) (node : ImportNode) (budget : Budget)
    (h : state.Stands group spool table entries) (hunique : (entries.map Prod.fst).Nodup) :
    ∃ inserted, insertGroup platform state budget spool table group id node = .ok inserted ∧
      inserted.Refines group id node spool table entries := by
  cases state with
  | empty =>
      obtain ⟨rfl, hspool, hnone⟩ := h
      refine ⟨_, rfl, rfl, ?_, fun _ _ => rfl, fun _ _ => rfl⟩
      exact ⟨(visits_single id node).symm, hspool, hnone⟩
  | affine range =>
      obtain ⟨rfl, hspool, hnone⟩ := h
      have hlookup : (range.lookup id).isSome = decide (id ∈ range.visits.map Prod.fst) := by
        rw [← firstOf_visits, isSome_firstOf]
      rw [insertGroup, hlookup]
      by_cases hold : id ∈ range.visits.map Prod.fst
      · rw [if_pos (decide_eq_true hold)]
        refine ⟨_, rfl, (decide_eq_false (not_not.mpr hold)).symm, ?_, fun _ _ => rfl,
          fun _ _ => rfl⟩
        rw [addEntry, if_pos hold]
        exact ⟨rfl, hspool, hnone⟩
      · rw [if_neg (by rw [decide_eq_false hold]; decide)]
        split
        · next hextends =>
            refine ⟨_, rfl, (decide_eq_true hold).symm, ?_, fun _ _ => rfl, fun _ _ => rfl⟩
            rw [addEntry, if_neg hold]
            exact ⟨(visits_extend range id node hextends).symm, hspool, hnone⟩
        · exact insertConverting_refines hspool hnone hunique hold
  | paged map =>
      obtain ⟨hbuilding, hspool, hnone⟩ := h
      have hinsert := hbuilding.insert platform id node budget
      rw [insertGroup]
      generalize map.insert platform id node budget = outcome at hinsert
      obtain ⟨map', budget', result⟩ := outcome
      cases result with
      | error failure =>
          obtain rfl : failure = .error () := hinsert
          refine ⟨_, rfl, ?_⟩
          have hdisk := refines_toDisk hnone entries id node spool (fun _ _ => rfl)
            (budget'.release map'.allocated)
          rw [← hspool] at hdisk ⊢
          exact hdisk
      | ok new =>
          obtain ⟨rfl, hmap⟩ := hinsert
          refine ⟨_, rfl, rfl, ?_, fun group' hne => ?_, fun _ _ => rfl⟩
          · refine ⟨hmap, ?_, hnone⟩
            dsimp only
            rw [addEntry]
            by_cases hold : id ∈ entries.map Prod.fst
            · rw [decide_eq_false (not_not.mpr hold), if_neg Bool.false_ne_true,
                if_pos hold, hspool]
            · rw [decide_eq_true hold, if_pos rfl, if_neg hold, spoolAt_record, hspool]
          · dsimp only
            split
            · exact spoolAt_other_record hne ..
            · rfl
  | disk =>
      refine ⟨_, rfl, diskInsert_fst h id node, find_diskInsert_group h id node, fun _ _ => rfl,
        fun key hkey => ?_⟩
      show (diskInsert table group id node).2.find key = table.find key
      rw [find_diskInsert, if_neg (hkey id), Option.or_none]

end

/-! ## Groups and their places -/

/-- `group as usize` -/
def groupIndex (group : Int64) : Nat := group.toUInt64.toNat

theorem groupIndex_of_nonneg {group : Int64} (h : 0 ≤ group.toInt) :
    groupIndex group = group.toInt.toNat :=
  Int64.toNat_toUInt64_of_le (Int64.le_iff_toInt_le.mpr h)

/-- A group is determined by its index. -/
theorem ofNat_groupIndex (group : Int64) : Int64.ofNat (groupIndex group) = group := by
  rw [groupIndex, ← Int64.toInt64_toUInt64 (Int64.ofNat group.toUInt64.toNat),
    Int64.toUInt64_ofNat',
    UInt64.ofNat_toNat, Int64.toInt64_toUInt64]

/-- An index is the one of its group. -/
theorem groupIndex_ofNat {index : Nat} (h : index < 2 ^ 63) :
    groupIndex (.ofNat index) = index := by
  rw [groupIndex, Int64.toUInt64_ofNat', UInt64.toNat_ofNat']
  exact Nat.mod_eq_of_lt (by omega)

theorem groupIndex_injective {group group' : Int64} (h : groupIndex group = groupIndex group') :
    group = group' := by
  rw [← ofNat_groupIndex group, h, ofNat_groupIndex]

/-- The state of a group; those behind the vector have no ids. -/
def stateAt (groups : List GroupMap) (group : Int64) : GroupMap :=
  groups[groupIndex group]?.getD .empty

/-- New groups are empty. -/
theorem stateAt_extend (groups : List GroupMap) (n : Nat) (group : Int64) :
    stateAt (groups ++ List.replicate n .empty) group = stateAt groups group := by
  rw [stateAt, stateAt]
  by_cases hlt : groupIndex group < groups.length
  · rw [List.getElem?_append_left hlt]
  · rw [List.getElem?_append_right (by omega), List.getElem?_eq_none (by omega : groups.length ≤ _),
      List.getElem?_replicate]
    split <;> rfl

/-- Setting a group changes no other. -/
theorem stateAt_set {groups : List GroupMap} {group : Int64} (h : groupIndex group < groups.length)
    (state : GroupMap) (group' : Int64) :
    stateAt (groups.set (groupIndex group) state) group' =
      if group' = group then state else stateAt groups group' := by
  rw [stateAt, stateAt]
  by_cases hgroup : group' = group
  · rw [if_pos hgroup, hgroup, List.getElem?_set_self h]
    rfl
  · rw [if_neg hgroup, List.getElem?_set_ne fun heq => hgroup (groupIndex_injective heq.symm)]

/-! ## The entries of all groups -/

/-- A record is one of its group. -/
theorem mem_spoolAt {entries : List Record} {group id : Int64} {node : ImportNode} :
    (id, node) ∈ spoolAt entries group ↔ ((group, id), node) ∈ entries := by
  rw [spoolAt, List.mem_filterMap]
  constructor
  · rintro ⟨⟨⟨group', id'⟩, node'⟩, hmem, h⟩
    split at h
    · next hgroup =>
        cases h
        cases hgroup
        exact hmem
    · cases h
  · exact fun h => ⟨_, h, if_pos rfl⟩

/-- The ids of a group are those of its keys. -/
theorem keys_spoolAt (entries : List Record) (group : Int64) :
    (spoolAt entries group).map Prod.fst =
      (entries.map Prod.fst).filterMap fun key => if key.1 = group then some key.2 else none := by
  rw [spoolAt, List.map_filterMap, List.filterMap_map]
  refine List.filterMap_congr fun record _ => ?_
  dsimp only [Function.comp]
  split <;> rfl

theorem mem_keys_spoolAt {entries : List Record} {group id : Int64} :
    id ∈ (spoolAt entries group).map Prod.fst ↔ (group, id) ∈ entries.map Prod.fst := by
  rw [List.mem_map, List.mem_map]
  constructor
  · rintro ⟨entry, hentry, rfl⟩
    exact ⟨_, mem_spoolAt.mp hentry, rfl⟩
  · rintro ⟨record, hrecord, hkey⟩
    refine ⟨(id, record.2), mem_spoolAt.mpr ?_, rfl⟩
    rw [← hkey]
    exact hrecord

/-- Keys that differ give ids that differ. -/
theorem nodup_spoolAt {entries : List Record} (h : (entries.map Prod.fst).Nodup) (group : Int64) :
    ((spoolAt entries group).map Prod.fst).Nodup := by
  rw [keys_spoolAt]
  refine h.filterMap fun key key' id hkey hkey' => ?_
  rw [Option.mem_def] at hkey hkey'
  split at hkey
  · next hgroup =>
      split at hkey'
      · next hgroup' =>
          cases hkey
          exact Prod.ext (hgroup.trans hgroup'.symm) (Option.some.inj hkey').symm
      · cases hkey'
  · cases hkey

/-- The first record of an id in its group is the first of its key. -/
theorem firstOf_spoolAt (entries : List Record) (group id : Int64) :
    firstOf (spoolAt entries group) id = firstOf entries (group, id) := by
  induction entries with
  | nil => rfl
  | cons record entries ih =>
      obtain ⟨⟨group', id'⟩, node⟩ := record
      rw [spoolAt, List.filterMap_cons, firstOf_cons, ← spoolAt]
      by_cases hgroup : group' = group
      · simp only [hgroup, if_pos, firstOf_cons, ih, Prod.mk.injEq, true_and]
      · simp only [hgroup, if_false, ih, Prod.mk.injEq, false_and]

/-! ## The map -/

/-- What a map that is not sealed stands for. -/
structure IntegerIdMap.Stands (m : IntegerIdMap) (table : ExternalIds)
    (ids : FirstWins.Map (Int64 × Int64) ImportNode) : Prop where
  unsealed : m.isSealed = false
  length : m.groups.length ≤ 2 ^ 63
  group : ∀ group,
    (stateAt m.groups group).Stands group m.spool table (spoolAt ids.entries group)

/-- A new map stands for no entry. -/
theorem stands_new (limit : Nat) {table : ExternalIds}
    (h : ∀ group id, table.find (group, .integer id) = none) :
    (IntegerIdMap.new limit).Stands table .empty where
  unsealed := rfl
  length := Nat.zero_le _
  group := fun group => ⟨rfl, rfl, h group⟩

/-- A group that an insertion is not into. -/
theorem GroupMap.Stands.frame {state : GroupMap} {group : Int64} {spool spool' : List Record}
    {table table' : ExternalIds} {entries : List (Int64 × ImportNode)}
    (h : state.Stands group spool table entries)
    (hspool : spoolAt spool' group = spoolAt spool group)
    (htable : ∀ id, table'.find (group, .integer id) = table.find (group, .integer id)) :
    state.Stands group spool' table' entries := by
  cases state with
  | empty => exact ⟨h.1, hspool.trans h.2.1, fun id => (htable id).trans (h.2.2 id)⟩
  | affine range => exact ⟨h.1, hspool.trans h.2.1, fun id => (htable id).trans (h.2.2 id)⟩
  | paged map => exact ⟨h.1, hspool.trans h.2.1, fun id => (htable id).trans (h.2.2 id)⟩
  | disk => exact fun id => (htable id).trans (h id)

/-- An insertion adds an entry to its group. -/
theorem spoolAt_insert (ids : FirstWins.Map (Int64 × Int64) ImportNode) (group id : Int64)
    (node : ImportNode) (group' : Int64) :
    spoolAt (ids.insert (group, id) node).2.entries group' =
      if group' = group then addEntry (spoolAt ids.entries group) id node
      else spoolAt ids.entries group' := by
  rw [entries_insert, addEntry]
  by_cases hgroup : group' = group
  · subst hgroup
    simp only [if_true, mem_keys_spoolAt]
    split
    · rfl
    · exact spoolAt_record ..
  · rw [if_neg hgroup]
    split
    · rfl
    · exact spoolAt_other_record hgroup ..

/-- Rows of other ids than integers are nothing to the map. -/
theorem IntegerIdMap.Stands.frame {m : IntegerIdMap} {table table' : ExternalIds}
    {ids : FirstWins.Map (Int64 × Int64) ImportNode} (h : m.Stands table ids)
    (htable : ∀ group id, table'.find (group, .integer id) = table.find (group, .integer id)) :
    m.Stands table' ids where
  unsealed := h.unsealed
  length := h.length
  group group := (h.group group).frame rfl (htable group)

/-- An insertion into the map is one into the first-wins map; it leaves the rows of other ids. -/
theorem IntegerIdMap.Stands.insert {m : IntegerIdMap} {table : ExternalIds}
    {ids : FirstWins.Map (Int64 × Int64) ImportNode} (h : m.Stands table ids) (platform : Platform)
    {group : Int64} (hgroup : 0 ≤ group.toInt) (id : Int64) (node : ImportNode) :
    ∃ m' table', m.insert platform table group id node =
        .ok ((ids.insert (group, id) node).1, m', table') ∧
      m'.Stands table' (ids.insert (group, id) node).2 ∧
      ∀ group' id', table'.find (group', .string id') = table.find (group', .string id') := by
  have hindex := groupIndex_of_nonneg hgroup
  have hlt := group.toInt_lt
  rw [IntegerIdMap.insert, h.unsealed, if_neg Bool.false_ne_true, if_neg (by omega), ← hindex]
  dsimp only
  rw [← stateAt, stateAt_extend]
  obtain ⟨inserted, hinsert, hrefines⟩ :=
    insertGroup_refines platform id node m.budget (h.group group)
    (nodup_spoolAt ids.unique group)
  have hlength : (m.groups ++ List.replicate (groupIndex group + 1 - m.groups.length)
      GroupMap.empty).length = max m.groups.length (groupIndex group + 1) := by
    rw [List.length_append, List.length_replicate]
    omega
  have hnew : (ids.insert (group, id) node).1 = inserted.new := by
    rw [Bool.eq_iff_iff, insert_fst_eq_true, hrefines.new, decide_eq_true_iff]
    exact not_congr mem_keys_spoolAt.symm
  rw [hinsert, hnew]
  refine ⟨_, _, rfl, ⟨rfl, ?_, fun group' => ?_⟩,
    fun group' id' => hrefines.table _ fun id'' hkey => ?_⟩
  · have hle := h.length
    rw [List.length_set, hlength]
    omega
  · rw [stateAt_set (by rw [hlength]; omega), stateAt_extend, spoolAt_insert]
    by_cases heq : group' = group
    · rw [if_pos heq, if_pos heq, heq]
      exact hrefines.stands
    · rw [if_neg heq, if_neg heq]
      refine (h.group group').frame (hrefines.spool group' heq) fun id' => hrefines.table _ ?_
      exact fun id'' hkey => heq (congrArg Prod.fst hkey)
  · cases hkey

/-- A run of insertions, with the answer to each. -/
def IntegerIdMap.insertAll (platform : Platform) (m : IntegerIdMap) (table : ExternalIds) :
    List Record → Except (Failure String) (List Bool × IntegerIdMap × ExternalIds)
  | [] => .ok ([], m, table)
  | ((group, id), node) :: calls => do
      let (new, m, table) ← m.insert platform table group id node
      let (answers, m, table) ← m.insertAll platform table calls
      .ok (new :: answers, m, table)

/-- Insertions answer as a map in which the first wins, which the state stands for. -/
theorem IntegerIdMap.Stands.insertAll (platform : Platform) :
    ∀ (calls : List Record) {m : IntegerIdMap} {table : ExternalIds}
      {ids : FirstWins.Map (Int64 × Int64) ImportNode}, m.Stands table ids →
      (∀ call ∈ calls, 0 ≤ call.1.1.toInt) →
      ∃ m' table', m.insertAll platform table calls = .ok ((ids.run calls).1, m', table') ∧
        m'.Stands table' (ids.run calls).2
  | [], m, table, ids, h, _ => ⟨m, table, rfl, h⟩
  | ((group, id), node) :: calls, m, table, ids, h, hgroups => by
      obtain ⟨m₁, table₁, hinsert, h₁, -⟩ :=
        h.insert platform (hgroups _ List.mem_cons_self) id node
      obtain ⟨m', table', hrest, h'⟩ := IntegerIdMap.Stands.insertAll platform calls h₁
        fun call hcall => hgroups call (List.mem_cons_of_mem _ hcall)
      refine ⟨m', table', ?_, h'⟩
      rw [IntegerIdMap.insertAll, hinsert]
      simp only [bind, Except.bind]
      rw [hrest]
      rfl

end Velr.IdMap
