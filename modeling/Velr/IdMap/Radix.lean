import Velr.IdMap.Directory

/-!
# The two directories of the integer-ID map

`RadixMap` of `id_map.rs`: an id is found by the high half of its bits in a directory of regions, by
the next 20 in a directory of pages and by the last 12 in a page. `RadixMap.Building` says which
entries a map has taken in; sealing it gives each of them a place (`RadixMap.Building.sealed`).
-/

namespace Velr.IdMap

/-- `size_of::<Option<Box<Page>>>()` -/
def optionPageBytes : Nat := 8

/-- `Region` -/
structure Region where
  base : Nat
  pages : Vec (Option Page)
deriving DecidableEq

/-- `RadixMap` -/
structure RadixMap where
  base : Nat
  regions : Vec (Option Region)
  allocated : Nat
deriving DecidableEq

/-- `Region::default` -/
def Region.default : Region := ⟨0, ⟨[], 0⟩⟩

/-- `RadixMap::default` -/
def RadixMap.default : RadixMap := ⟨0, ⟨[], 0⟩, 0⟩

/-- `RadixMap::coordinates` -/
def coordinates (id : Int64) : Nat × Nat × Slot :=
  let sortable := id.toUInt64 ^^^ ((1 : UInt64) <<< 63)
  ((sortable >>> 32).toNat, (sortable.toUInt32 >>> 12).toNat,
    ⟨sortable.toNat % 2 ^ 12, Nat.mod_lt _ (by decide)⟩)

/-- `RadixMap::page`, by the keys of the region and the page. -/
def RadixMap.pageAt (map : RadixMap) (region page : Nat) : Option Page := do
  let region ← map.regions.entry map.base region
  region.pages.entry region.base page

/-- `RadixMap::page` -/
def RadixMap.page (map : RadixMap) (id : Int64) : Option Page :=
  map.pageAt (coordinates id).1 (coordinates id).2.1

/-- A map with a page put to the place of its keys. -/
def RadixMap.putAt (allocated : Nat) (outer : DirectorySlot Region) (inner : DirectorySlot Page)
    (regionKey pageKey : Nat) (page : Page) : RadixMap :=
  ⟨outer.base, outer.directory.put outer.base regionKey
    ⟨inner.base, inner.directory.put inner.base pageKey page⟩, allocated⟩

section
variable (platform : Platform)

/-- `RadixMap::insert`; the map and the budget as they are afterwards. -/
def RadixMap.insert (map : RadixMap) (id : Int64) (node : ImportNode) (budget : Budget) :
    RadixMap × Budget × Except (Failure Unit) Bool :=
  let regionKey := (coordinates id).1
  let pageKey := (coordinates id).2.1
  let slot := (coordinates id).2.2
  let outer :=
    directorySlot platform platform.optionRegionBytes map.regions map.base regionKey budget
  match outer.result with
  | none =>
      ({ map with regions := outer.directory, base := outer.base }, outer.budget,
        .error (.error ()))
  | some (_, bytes) =>
      let allocated := map.allocated + bytes
      let region := (outer.directory.entry outer.base regionKey).getD .default
      let inner :=
        directorySlot platform optionPageBytes region.pages region.base pageKey outer.budget
      let failed (allocated : Nat) : RadixMap :=
        ⟨outer.base, outer.directory.put outer.base regionKey ⟨inner.base, inner.directory⟩,
          allocated⟩
      match inner.result with
      | none => (failed allocated, inner.budget, .error (.error ()))
      | some (_, bytes) =>
          let allocated := allocated + bytes
          match inner.directory.entry inner.base pageKey with
          | some page =>
              match page.insert slot node with
              | .error failure => (failed allocated, inner.budget, .error failure)
              | .ok (new, page) =>
                  (.putAt allocated outer inner regionKey pageKey page, inner.budget, .ok new)
          | none =>
              let bytes := platform.pageBytes + denseMembershipBytes
              match inner.budget.charge bytes with
              | none => (failed allocated, inner.budget, .error (.error ()))
              | some budget =>
                  let allocated := allocated + bytes
                  match Page.new.insert slot node with
                  | .error failure => (failed allocated, budget, .error failure)
                  | .ok (new, page) =>
                      (.putAt allocated outer inner regionKey pageKey page, budget, .ok new)

end

/-- The pages of a region. -/
def Region.allPages (region : Region) : List Page := region.pages.items.filterMap id

/-- The pages of a map. -/
def RadixMap.allPages (map : RadixMap) : List Page :=
  (map.regions.items.filterMap id).flatMap Region.allPages

/-- `RadixMap::value_bytes` -/
def RadixMap.valueBytes (map : RadixMap) : Nat := (map.allPages.map Page.valueBytes).sum

/-- What a loop over the pages carries: the charges of the map and those of all maps. -/
structure Charges where
  allocated : Nat
  budget : Budget
deriving DecidableEq

/-- A round of `RadixMap::seal`: the page is sealed and the map's charges follow the budget. -/
def sealRound (compress : Bool) (charges : Charges) (page : Page) :
    Charges × Except (Failure Unit) Page :=
  let before := charges.budget.used
  let (budget, sealed) := page.seal charges.budget compress
  if before ≤ budget.used then (⟨charges.allocated + (budget.used - before), budget⟩, sealed)
  else if charges.allocated < before - budget.used then (⟨charges.allocated, budget⟩, .error .panic)
  else (⟨charges.allocated - (before - budget.used), budget⟩, sealed)

/-- A loop over the entries that are there, up to the first failure. -/
def eachEntry {α σ : Type} (round : σ → α → σ × Except (Failure Unit) α) :
    σ → List (Option α) → σ × Except (Failure Unit) (List (Option α))
  | state, [] => (state, .ok [])
  | state, none :: entries =>
      let (state, rest) := eachEntry round state entries
      (state, rest.map (none :: ·))
  | state, some entry :: entries =>
      match round state entry with
      | (state, .error e) => (state, .error e)
      | (state, .ok entry) =>
          let (state, rest) := eachEntry round state entries
          (state, rest.map (some entry :: ·))

/-- The pages of a region, sealed. -/
def Region.seal (compress : Bool) (charges : Charges) (region : Region) :
    Charges × Except (Failure Unit) Region :=
  let (charges, items) := eachEntry (sealRound compress) charges region.pages.items
  (charges, items.map fun items => ⟨region.base, { region.pages with items }⟩)

/-- `RadixMap::seal`; the charges as they are afterwards. -/
def RadixMap.seal (map : RadixMap) (budget : Budget) (compress : Bool) :
    Charges × Except (Failure Unit) RadixMap :=
  let (charges, items) :=
    eachEntry (Region.seal compress) ⟨map.allocated, budget⟩ map.regions.items
  (charges, items.map fun items => ⟨map.base, { map.regions with items }, charges.allocated⟩)

/-- `RadixMap::set` -/
def RadixMap.set (map : RadixMap) (id : Int64) (node : ImportNode) :
    Except (Failure String) RadixMap :=
  let (regionKey, pageKey, slot) := coordinates id
  match map.regions.entry map.base regionKey with
  | none => .error (.error "integer-ID spool referenced an undeclared page")
  | some region =>
      match region.pages.entry region.base pageKey with
      | none => .error (.error "integer-ID spool referenced an undeclared page")
      | some page => (page.set slot node).map fun page =>
          let region := { region with pages := region.pages.put region.base pageKey page }
          { map with regions := map.regions.put map.base regionKey region }

/-- `RadixMap::lookup` -/
def RadixMap.lookup (map : RadixMap) (id : Int64) : Except (Failure String) (Option ImportNode) :=
  match map.page id with
  | none => .ok none
  | some page => page.lookup (coordinates id).2.2

/-! ## Coordinates -/

/-- An id is determined by its coordinates. -/
theorem coordinates_injective {id id' : Int64} (h : coordinates id = coordinates id') :
    id = id' := by
  have hsplit : ∀ x : UInt64, x.toNat =
      (x >>> 32).toNat * 2 ^ 32 + (x.toUInt32 >>> 12).toNat * 2 ^ 12 + x.toNat % 2 ^ 12 := by
    intro x
    rw [UInt64.toNat_shiftRight, UInt32.toNat_shiftRight, UInt64.toNat_toUInt32,
      show (32 : UInt64).toNat % 64 = 32 from rfl, show (12 : UInt32).toNat % 32 = 12 from rfl,
      Nat.shiftRight_eq_div_pow, Nat.shiftRight_eq_div_pow]
    omega
  rw [coordinates, coordinates, Prod.mk.injEq, Prod.mk.injEq, Fin.mk.injEq] at h
  obtain ⟨hregion, hpage, hslot⟩ := h
  have hsortable :
      id.toUInt64 ^^^ ((1 : UInt64) <<< 63) = id'.toUInt64 ^^^ ((1 : UInt64) <<< 63) := by
    refine UInt64.toNat_inj.mp ?_
    rw [hsplit, hsplit (id'.toUInt64 ^^^ ((1 : UInt64) <<< 63)), hregion, hpage, hslot]
  have hbits := congrArg (· ^^^ ((1 : UInt64) <<< 63)) hsortable
  simp only [UInt64.xor_assoc, UInt64.xor_self, UInt64.xor_zero] at hbits
  rw [← Int64.toInt64_toUInt64 id, hbits, Int64.toInt64_toUInt64]

/-- The entries of a page: those with its keys, by their slots. -/
def entriesAt (entries : List (Int64 × ImportNode)) (region page : Nat) :
    List (Slot × ImportNode) :=
  entries.filterMap fun entry =>
    if (coordinates entry.1).1 = region ∧ (coordinates entry.1).2.1 = page then
      some ((coordinates entry.1).2.2, entry.2)
    else none

/-- A new entry goes to one page. -/
theorem entriesAt_append (entries : List (Int64 × ImportNode)) (id : Int64) (node : ImportNode)
    (region page : Nat) :
    entriesAt (entries ++ [(id, node)]) region page = entriesAt entries region page ++
      if (coordinates id).1 = region ∧ (coordinates id).2.1 = page then
        [((coordinates id).2.2, node)] else [] := by
  rw [entriesAt, List.filterMap_append]
  congr 1
  rw [List.filterMap_cons, List.filterMap_nil]
  split <;> simp_all

/-- An entry is one of its page. -/
theorem mem_entriesAt {entries : List (Int64 × ImportNode)} {id : Int64} {node : ImportNode} :
    ((coordinates id).2.2, node) ∈ entriesAt entries (coordinates id).1 (coordinates id).2.1 ↔
      (id, node) ∈ entries := by
  rw [entriesAt, List.mem_filterMap]
  constructor
  · rintro ⟨entry, hentry, h⟩
    split at h
    · next hpage =>
        rw [Option.some.injEq, Prod.mk.injEq] at h
        have hid : entry.1 = id :=
          coordinates_injective (Prod.ext hpage.1 (Prod.ext hpage.2 h.1))
        rw [← hid, ← h.2]
        exact hentry
    · cases h
  · exact fun h => ⟨_, h, if_pos ⟨rfl, rfl⟩⟩

theorem slot_mem_entriesAt {entries : List (Int64 × ImportNode)} {id : Int64} :
    (coordinates id).2.2 ∈
    (entriesAt entries (coordinates id).1 (coordinates id).2.1).map Prod.fst ↔
      id ∈ entries.map Prod.fst := by
  rw [List.mem_map, List.mem_map]
  constructor
  · rintro ⟨entry, hentry, hslot⟩
    have hentry' : ((coordinates id).2.2, entry.2) ∈
        entriesAt entries (coordinates id).1 (coordinates id).2.1 := by rw [← hslot]; exact hentry
    exact ⟨(id, entry.2), mem_entriesAt.mp hentry', rfl⟩
  · rintro ⟨entry, hentry, rfl⟩
    exact ⟨_, mem_entriesAt.mpr hentry, rfl⟩

/-! ## What a map stands for -/

/-- A map whose pages stand for their entries. -/
def RadixMap.Holds (stands : Page → List (Slot × ImportNode) → Prop) (map : RadixMap)
    (entries : List (Int64 × ImportNode)) : Prop :=
  ∀ region page, match map.pageAt region page with
    | none => entriesAt entries region page = []
    | some found => stands found (entriesAt entries region page)

/-- How much of a map's charges its bitmaps are. -/
def RadixMap.weight (map : RadixMap) : Nat :=
  map.regions.weight fun region => region.pages.weight fun _ => denseMembershipBytes

/-- A map that has taken in these entries. -/
structure RadixMap.Building (map : RadixMap) (entries : List (Int64 × ImportNode)) : Prop where
  holds : map.Holds Page.Building entries
  weight : map.weight ≤ map.allocated

/-- A new map has no entries. -/
theorem building_default : RadixMap.default.Building [] where
  holds _ _ := rfl
  weight := Nat.le_refl 0

section
variable {map : RadixMap} {entries : List (Int64 × ImportNode)} {platform : Platform}

/-- The region of a key, or one without pages. -/
def RadixMap.regionAt (map : RadixMap) (key : Nat) : Region :=
  (map.regions.entry map.base key).getD .default

theorem entry_regionAt (map : RadixMap) (region page : Nat) :
    (map.regionAt region).pages.entry (map.regionAt region).base page = map.pageAt region page := by
  rw [RadixMap.pageAt, RadixMap.regionAt]
  cases map.regions.entry map.base region with
  | none =>
      rw [Option.getD_none, Vec.entry]
      split <;> rfl
  | some found => rfl

variable {outer : DirectorySlot Region} {inner : DirectorySlot Page} {regionKey pageKey : Nat}

/-- Putting a page changes one page. -/
theorem pageAt_putAt (houter : outer.Placed map.regions map.base regionKey)
    (hinner : inner.Placed (map.regionAt regionKey).pages (map.regionAt regionKey).base pageKey)
    (allocated : Nat) (page : Page) (region' page' : Nat) :
    (RadixMap.putAt allocated outer inner regionKey pageKey page).pageAt region' page' =
      if regionKey = region' ∧ pageKey = page' then some page else map.pageAt region' page' := by
  rw [RadixMap.putAt, RadixMap.pageAt, entry_put houter.base_le houter.index_lt]
  by_cases hregion : region' = regionKey
  · subst hregion
    rw [if_pos rfl]
    refine (entry_put hinner.base_le hinner.index_lt page').trans ?_
    rw [hinner.entry, entry_regionAt]
    by_cases hpage : page' = pageKey
    · rw [if_pos hpage, if_pos ⟨rfl, hpage.symm⟩]
    · rw [if_neg hpage, if_neg fun h => hpage h.2.symm]
  · rw [if_neg hregion, if_neg fun h => hregion h.1.symm, houter.entry]
    rfl

/-- Putting a page changes the weight by its own. -/
theorem weight_putAt (houter : outer.Placed map.regions map.base regionKey)
    (hinner : inner.Placed (map.regionAt regionKey).pages (map.regionAt regionKey).base pageKey)
    (allocated : Nat) (page : Page) :
    (RadixMap.putAt allocated outer inner regionKey pageKey page).weight +
        (map.pageAt regionKey pageKey).elim 0 (fun _ => denseMembershipBytes) =
      map.weight + denseMembershipBytes := by
  have hregions :=
    weight_put (fun region : Region => region.pages.weight fun _ => denseMembershipBytes)
    ⟨inner.base, inner.directory.put inner.base pageKey page⟩ houter.base_le houter.index_lt
  have hpages := weight_put (fun _ => denseMembershipBytes) page hinner.base_le hinner.index_lt
  rw [hinner.weight, hinner.entry, entry_regionAt] at hpages
  rw [houter.weight, houter.entry] at hregions
  have hold : (map.regions.entry map.base regionKey).elim 0
      (fun region => region.pages.weight fun _ => denseMembershipBytes) =
        (map.regionAt regionKey).pages.weight fun _ => denseMembershipBytes := by
    rw [RadixMap.regionAt]
    cases map.regions.entry map.base regionKey <;> rfl
  rw [hold] at hregions
  rw [RadixMap.putAt, RadixMap.weight, RadixMap.weight]
  dsimp only at hregions ⊢
  omega

/-- A page that takes in a node, put back to its place. -/
theorem RadixMap.Building.putAt (h : map.Building entries) {id : Int64} (node : ImportNode)
    (houter : outer.Placed map.regions map.base (coordinates id).1)
    (hinner : inner.Placed (map.regionAt (coordinates id).1).pages
      (map.regionAt (coordinates id).1).base (coordinates id).2.1)
    {page page' : Page} {new : Bool} {allocated : Nat}
    (hpage : page.Building (entriesAt entries (coordinates id).1 (coordinates id).2.1))
    (hinsert : page.insert (coordinates id).2.2 node = .ok (new, page'))
    (hweight : map.weight + denseMembershipBytes ≤ allocated +
      (map.pageAt (coordinates id).1 (coordinates id).2.1).elim 0 (fun _ => denseMembershipBytes)) :
    new = decide (id ∉ entries.map Prod.fst) ∧
      (RadixMap.putAt allocated outer inner (coordinates id).1 (coordinates id).2.1 page').Building
        (if id ∈ entries.map Prod.fst then entries else entries ++ [(id, node)]) := by
  have hsum := weight_putAt houter hinner allocated page'
  have hweight' : (RadixMap.putAt allocated outer inner (coordinates id).1 (coordinates id).2.1
      page').weight ≤ allocated := by omega
  by_cases hold : id ∈ entries.map Prod.fst
  · rw [hpage.insert_old (slot_mem_entriesAt.mpr hold)] at hinsert
    cases hinsert
    rw [decide_eq_false (not_not.mpr hold), if_pos hold]
    refine ⟨rfl, fun region page' => ?_, hweight'⟩
    rw [pageAt_putAt houter hinner]
    split
    · next hnone =>
        split at hnone
        · cases hnone
        · have hholds := h.holds region page'
          rw [hnone] at hholds
          exact hholds
    · next found hsome =>
        split at hsome
        · next hkeys =>
            cases hsome
            rw [← hkeys.1, ← hkeys.2]
            exact hpage
        · have hholds := h.holds region page'
          rw [hsome] at hholds
          exact hholds
  · obtain ⟨page'', hnew, hbuilding⟩ := hpage.insert_new (mt slot_mem_entriesAt.mp hold) node
    rw [hnew] at hinsert
    cases hinsert
    rw [decide_eq_true hold, if_neg hold]
    refine ⟨rfl, fun region page' => ?_, hweight'⟩
    rw [pageAt_putAt houter hinner, entriesAt_append]
    by_cases hkeys : (coordinates id).1 = region ∧ (coordinates id).2.1 = page'
    · rw [if_pos hkeys, if_pos hkeys, ← hkeys.1, ← hkeys.2]
      exact hbuilding
    · rw [if_neg hkeys, if_neg hkeys, List.append_nil]
      exact h.holds region page'

/-- An insertion that fits takes the node in unless the id is there; one that fails is refused by
the budget. -/
theorem RadixMap.Building.insert (platform : Platform) (h : map.Building entries) (id : Int64)
    (node : ImportNode) (budget : Budget) :
    match map.insert platform id node budget with
    | (map', _, .ok new) => new = decide (id ∉ entries.map Prod.fst) ∧
        map'.Building (if id ∈ entries.map Prod.fst then entries else entries ++ [(id, node)])
    | (_, _, .error failure) => failure = .error () := by
  rw [RadixMap.insert]
  dsimp only
  cases houter : (directorySlot platform platform.optionRegionBytes map.regions map.base
      (coordinates id).1 budget).result with
  | none => exact rfl
  | some outerResult =>
      have hplaced := directorySlot_placed map.regions map.base (coordinates id).1 houter
      generalize directorySlot platform platform.optionRegionBytes map.regions map.base
        (coordinates id).1 budget = outer at hplaced
      dsimp only
      rw [hplaced.entry, ← RadixMap.regionAt]
      cases hinner : (directorySlot platform optionPageBytes (map.regionAt (coordinates id).1).pages
          (map.regionAt (coordinates id).1).base (coordinates id).2.1 outer.budget).result with
      | none => exact rfl
      | some innerResult =>
          have hplaced' := directorySlot_placed (map.regionAt (coordinates id).1).pages
            (map.regionAt (coordinates id).1).base (coordinates id).2.1 hinner
          generalize directorySlot platform optionPageBytes (map.regionAt (coordinates id).1).pages
            (map.regionAt (coordinates id).1).base (coordinates id).2.1 outer.budget = inner
            at hplaced'
          have hweight := h.weight
          dsimp only
          rw [hplaced'.entry, entry_regionAt]
          have hholds := h.holds (coordinates id).1 (coordinates id).2.1
          cases hpage : map.pageAt (coordinates id).1 (coordinates id).2.1 with
          | some page =>
              rw [hpage] at hholds
              obtain ⟨new, page', hinsert⟩ := hholds.insert_ok (coordinates id).2.2 node
              dsimp only
              rw [hinsert]
              refine h.putAt node hplaced hplaced' hholds hinsert ?_
              rw [hpage, Option.elim_some]
              omega
          | none =>
              rw [hpage] at hholds
              have hnew :
                  Page.new.Building (entriesAt entries (coordinates id).1 (coordinates id).2.1) :=
                hholds ▸ building_new
              obtain ⟨new, page', hinsert⟩ := hnew.insert_ok (coordinates id).2.2 node
              dsimp only
              cases inner.budget.charge (platform.pageBytes + denseMembershipBytes) with
              | none => exact rfl
              | some budget =>
                  dsimp only
                  rw [hinsert]
                  refine h.putAt node hplaced hplaced' hnew hinsert ?_
                  rw [hpage, Option.elim_none]
                  omega

/-- Whatever becomes of an insertion, the budget is charged what the map is. -/
theorem insert_charged (hexact : platform.Exact) (map : RadixMap) (id : Int64) (node : ImportNode)
    (budget : Budget) :
    Charged budget (map.insert platform id node budget).2.1 map.allocated
      (map.insert platform id node budget).1.allocated := by
  rw [RadixMap.insert]
  dsimp only
  have houter := directorySlot_charged hexact platform.optionRegionBytes map.regions map.base
    (coordinates id).1 budget map.allocated
  generalize directorySlot platform platform.optionRegionBytes map.regions map.base
    (coordinates id).1 budget = outer at houter ⊢
  cases hresult : outer.result with
  | none =>
      rw [hresult] at houter
      exact houter
  | some result =>
      obtain ⟨index, bytes⟩ := result
      rw [hresult, Option.elim_some] at houter
      dsimp only at houter ⊢
      generalize (outer.directory.entry outer.base (coordinates id).1).getD .default = region
      have hinner := directorySlot_charged hexact optionPageBytes region.pages region.base
        (coordinates id).2.1 outer.budget (map.allocated + bytes)
      generalize directorySlot platform optionPageBytes region.pages region.base
        (coordinates id).2.1 outer.budget = inner at hinner ⊢
      cases hresult' : inner.result with
      | none =>
          rw [hresult'] at hinner
          exact houter.trans hinner
      | some result =>
          obtain ⟨index', bytes'⟩ := result
          rw [hresult', Option.elim_some] at hinner
          have hboth := houter.trans hinner
          dsimp only at hboth ⊢
          cases inner.directory.entry inner.base (coordinates id).2.1 with
          | some page =>
              dsimp only
              cases page.insert (coordinates id).2.2 node with
              | error failure => exact hboth
              | ok inserted => exact hboth
          | none =>
              dsimp only
              cases hcharge : inner.budget.charge (platform.pageBytes + denseMembershipBytes) with
              | none => exact hboth
              | some charged =>
                  have hall := hboth.trans (charged_charge hcharge _)
                  dsimp only
                  cases Page.new.insert (coordinates id).2.2 node with
                  | error failure => exact hall
                  | ok inserted => exact hall

end

/-! ## Sealing -/

/-- Charges of a map that are part of those of the budget stay so. -/
def Charges.Leads (charges charges' : Charges) : Prop :=
  charges.allocated ≤ charges.budget.used →
    Charged charges.budget charges'.budget charges.allocated charges'.allocated

/-- Charges that lead on lead on. -/
theorem Charges.Leads.trans {c₁ c₂ c₃ : Charges} (h : c₁.Leads c₂) (h' : c₂.Leads c₃) :
    c₁.Leads c₃ := by
  intro hle
  have hfirst := h hle
  have hused := hfirst.used
  exact hfirst.trans (h' (by omega))

/-- What a round of a loop leaves: charges that fall by what it may give back at most, and an entry
that is as it should be unless the budget refuses it. -/
structure Round {α : Type} (good : α → Prop) (weight : Nat) (charges : Charges)
    (outcome : Charges × Except (Failure Unit) α) : Prop where
  leads : charges.Leads outcome.1
  allocated_le : charges.allocated ≤ outcome.1.allocated + weight
  result : match outcome.2 with
    | .ok a => good a
    | .error failure => failure = .error ()

/-- Sealing a page gives back its bitmap at most. -/
theorem sealMembership_used (page : Page) (budget : Budget) (compress : Bool) :
    budget.used ≤ (page.sealMembership budget compress).2.used + denseMembershipBytes := by
  rw [Page.sealMembership]
  split
  · exact Nat.le_add_right ..
  · dsimp only
    split
    · rw [Budget.release]
      dsimp only
      omega
    · exact Nat.le_add_right ..

/-- What a page gives back when it is sealed was charged. -/
theorem sealMembership_charged (page : Page) {budget : Budget} (compress : Bool) {allocated : Nat}
    (hused : allocated ≤ budget.used) (hallocated : denseMembershipBytes ≤ allocated) :
    ∃ freed ≤ allocated, Charged budget (page.sealMembership budget compress).2 allocated
      (allocated - freed) := by
  rw [Page.sealMembership]
  split
  · exact ⟨0, Nat.zero_le _, .refl ..⟩
  · next membership _ =>
      dsimp only
      split
      · refine ⟨_, Nat.le_trans (Nat.sub_le ..) hallocated, charged_release ?_ ?_⟩
        · exact Nat.le_trans (Nat.sub_le ..) (Nat.le_trans hallocated hused)
        · exact Nat.le_trans (Nat.sub_le ..) hallocated
      · exact ⟨0, Nat.zero_le _, .refl ..⟩

/-- Sealing a page gives back its dense membership at most. -/
theorem seal_used (page : Page) (budget : Budget) (compress : Bool) :
    budget.used ≤ (page.seal budget compress).1.used + denseMembershipBytes := by
  have hused := sealMembership_used page budget compress
  rw [Page.seal]
  dsimp only
  split
  · exact hused
  · next charged hcharge =>
      have hcharged := charge_used hcharge
      dsimp only
      omega

/-- Sealing a page charges what it allocates. -/
theorem seal_charged (page : Page) {budget : Budget} (compress : Bool) {allocated : Nat}
    (hused : allocated ≤ budget.used) (hallocated : denseMembershipBytes ≤ allocated) :
    ∃ allocated', Charged budget (page.seal budget compress).1 allocated allocated' := by
  obtain ⟨freed, -, hfreed⟩ := sealMembership_charged page compress hused hallocated
  rw [Page.seal]
  dsimp only
  split
  · exact ⟨_, hfreed⟩
  · next charged hcharge => exact ⟨_, hfreed.trans (charged_charge hcharge _)⟩

/-- Sealing a page fails only for the budget. -/
theorem seal_error {page : Page} {budget : Budget} {compress : Bool} {failure : Failure Unit}
    (h : (page.seal budget compress).2 = .error failure) : failure = .error () := by
  rw [Page.seal] at h
  dsimp only at h
  split at h <;> cases h
  rfl

/-- `page'` is `page` after it was sealed. -/
def SealedFrom (page page' : Page) : Prop :=
  ∃ budget compress budget', page.seal budget compress = (budget', .ok page')

/-- Sealing a page is a round that gives back its dense membership at most. -/
theorem sealRound_spec (compress : Bool) {charges : Charges} (page : Page)
    (h : denseMembershipBytes ≤ charges.allocated) :
    Round (SealedFrom page) denseMembershipBytes charges (sealRound compress charges page) := by
  have hused := seal_used page charges.budget compress
  have hresult : match (page.seal charges.budget compress).2 with
      | .ok page' => SealedFrom page page'
      | .error failure => failure = .error () := by
    split
    · next page' hok => exact ⟨_, _, _, Prod.ext rfl hok⟩
    · next failure herror => exact seal_error herror
  have hcharged : charges.allocated ≤ charges.budget.used → ∃ allocated',
      Charged charges.budget (page.seal charges.budget compress).1 charges.allocated allocated' :=
    fun hle => seal_charged page compress hle h
  rcases hcall : page.seal charges.budget compress with ⟨budget, sealed⟩
  rw [hcall] at hused hresult hcharged
  dsimp only at hused hresult hcharged
  rw [sealRound, hcall]
  dsimp only
  -- the map's charges move by what the budget moves
  have hround : ∀ allocated', allocated' + charges.budget.used = charges.allocated + budget.used →
      Round (SealedFrom page) denseMembershipBytes charges (⟨allocated', budget⟩, sealed) := by
    intro allocated' hsum
    refine ⟨fun hle => ?_, by dsimp only; omega, by cases sealed <;> exact hresult⟩
    obtain ⟨allocated'', h''⟩ := hcharged hle
    have hmove := h''.used
    obtain rfl : allocated'' = allocated' := by omega
    exact h''
  split
  · exact hround _ (by omega)
  · rw [if_neg (by omega)]
    exact hround _ (by omega)

/-- Rounds over the entries of a directory, whose weights the charges cover. -/
theorem eachEntry_spec {α : Type} {round : Charges → α → Charges × Except (Failure Unit) α}
    {good : α → α → Prop} {w : α → Nat}
    (hround : ∀ charges a, w a ≤ charges.allocated →
      Round (good a) (w a) charges (round charges a)) :
    ∀ (entries : List (Option α)) (charges : Charges),
      (entries.map (·.elim 0 w)).sum ≤ charges.allocated →
      Round (List.Forall₂ (Option.Rel good) entries) (entries.map (·.elim 0 w)).sum charges
        (eachEntry round charges entries)
  | [], charges, _ => ⟨fun _ => .refl .., Nat.le_refl _, .nil⟩
  | none :: entries, charges, h => by
      rw [List.map_cons, List.sum_cons, Option.elim_none, Nat.zero_add] at h ⊢
      have hrest := eachEntry_spec hround entries charges h
      rw [eachEntry]
      generalize eachEntry round charges entries = outcome at hrest
      obtain ⟨charges', rest⟩ := outcome
      refine ⟨hrest.leads, hrest.allocated_le, ?_⟩
      have hresult := hrest.result
      cases rest with
      | error failure => exact hresult
      | ok entries' => exact .cons .none hresult
  | some a :: entries, charges, h => by
      rw [List.map_cons, List.sum_cons, Option.elim_some] at h ⊢
      have hfirst := hround charges a (by omega)
      rw [eachEntry]
      generalize round charges a = outcome at hfirst
      obtain ⟨charges', result⟩ := outcome
      have hfall := hfirst.allocated_le
      have hgood := hfirst.result
      dsimp only at hfall hgood
      cases result with
      | error failure =>
          exact ⟨hfirst.leads, by dsimp only; omega, hgood⟩
      | ok a' =>
          have hrest := eachEntry_spec hround entries charges' (by omega)
          dsimp only
          generalize eachEntry round charges' entries = outcome at hrest
          obtain ⟨charges'', rest⟩ := outcome
          have hfall' := hrest.allocated_le
          dsimp only at hfall'
          refine ⟨hfirst.leads.trans hrest.leads, by dsimp only; omega, ?_⟩
          have hresult := hrest.result
          cases rest with
          | error failure => exact hresult
          | ok entries' => exact .cons (.some hgood) hresult

/-- The region that a sealed one comes from. -/
def RegionSealedFrom (region region' : Region) : Prop :=
  region'.base = region.base ∧
    List.Forall₂ (Option.Rel SealedFrom) region.pages.items region'.pages.items

/-- Sealing a region is a round that gives back those of its pages at most. -/
theorem regionSeal_spec (compress : Bool) (charges : Charges) (region : Region)
    (h : (region.pages.weight fun _ => denseMembershipBytes) ≤ charges.allocated) :
    Round (RegionSealedFrom region) (region.pages.weight fun _ => denseMembershipBytes) charges
      (Region.seal compress charges region) := by
  have hpages := eachEntry_spec (fun charges page hle => sealRound_spec compress page hle)
    region.pages.items charges h
  rw [Region.seal]
  generalize eachEntry (sealRound compress) charges region.pages.items = outcome at hpages
  obtain ⟨charges', items⟩ := outcome
  refine ⟨hpages.leads, hpages.allocated_le, ?_⟩
  have hresult := hpages.result
  cases items with
  | error failure => exact hresult
  | ok items => exact ⟨rfl, hresult⟩

/-- Sealing a map leaves each page where it is, sealed, or the budget refuses it; its charges follow
those of the budget. -/
theorem RadixMap.seal_spec (map : RadixMap) (hweight : map.weight ≤ map.allocated) (budget : Budget)
    (compress : Bool) :
    Round (fun map' : RadixMap => map'.allocated = (map.seal budget compress).1.allocated ∧
        ∀ region page, Option.Rel SealedFrom (map.pageAt region page) (map'.pageAt region page))
      map.weight ⟨map.allocated, budget⟩ (map.seal budget compress) := by
  have hregions :=
    eachEntry_spec (fun charges region hle => regionSeal_spec compress charges region hle)
    map.regions.items ⟨map.allocated, budget⟩ hweight
  rw [RadixMap.seal]
  generalize eachEntry (Region.seal compress) ⟨map.allocated, budget⟩ map.regions.items = outcome
    at hregions
  obtain ⟨charges, items⟩ := outcome
  refine ⟨hregions.leads, hregions.allocated_le, ?_⟩
  have hresult := hregions.result
  cases items with
  | error failure => exact hresult
  | ok items =>
      refine ⟨rfl, fun region page => ?_⟩
      have hentry : Option.Rel RegionSealedFrom (map.regions.entry map.base region)
          ((⟨items, map.regions.capacity⟩ : Vec (Option Region)).entry map.base region) :=
        entry_rel hresult map.base region
      rw [RadixMap.pageAt, RadixMap.pageAt]
      dsimp only
      generalize map.regions.entry map.base region = found at hentry
      generalize
        (⟨items, map.regions.capacity⟩ : Vec (Option Region)).entry map.base region = found'
        at hentry
      cases hentry with
      | none => exact .none
      | some hregion =>
          simp only [bind, Option.bind]
          rw [hregion.1]
          exact entry_rel hregion.2 _ page

section
variable {map map' : RadixMap} {entries : List (Int64 × ImportNode)} {id : Int64}
  {node : ImportNode}

/-- The pages of a map that was sealed have a place for each entry. -/
theorem RadixMap.Building.sealed (h : map.Building entries)
    (hsealed : ∀ region page,
      Option.Rel SealedFrom (map.pageAt region page) (map'.pageAt region page)) :
    map'.Holds Page.Sealed entries := by
  intro region page
  have hholds := h.holds region page
  have hrel := hsealed region page
  generalize map.pageAt region page = found at hholds hrel
  generalize map'.pageAt region page = found' at hrel ⊢
  cases hrel with
  | none => exact hholds
  | some hsome =>
      obtain ⟨budget, compress, budget', hseal⟩ := hsome
      exact Page.Building.seal hholds hseal

/-- A lookup asks the page of the id. -/
theorem lookup_eq (map : RadixMap) (id : Int64) :
    map.lookup id = match map.pageAt (coordinates id).1 (coordinates id).2.1 with
      | none => .ok none
      | some page => page.lookup (coordinates id).2.2 := rfl

/-- A write to a page replaces this page only. -/
theorem set_eq_ok {page page' : Page}
    (hpage : map.pageAt (coordinates id).1 (coordinates id).2.1 = some page)
    (hset : page.set (coordinates id).2.2 node = .ok page') :
    ∃ map', map.set id node = .ok map' ∧ map'.allocated = map.allocated ∧
      ∀ regionKey pageKey, map'.pageAt regionKey pageKey =
        if (coordinates id).1 = regionKey ∧ (coordinates id).2.1 = pageKey then some page'
        else map.pageAt regionKey pageKey := by
  obtain ⟨region, hregion, hfound⟩ := Option.bind_eq_some_iff.mp hpage
  obtain ⟨hbase, hlt⟩ := lt_of_entry hregion
  obtain ⟨hbase', hlt'⟩ := lt_of_entry hfound
  rw [RadixMap.set]
  dsimp only
  rw [hregion]
  dsimp only
  rw [hfound]
  dsimp only
  rw [hset]
  refine ⟨_, rfl, rfl, fun regionKey pageKey => ?_⟩
  rw [RadixMap.pageAt, entry_put hbase hlt]
  by_cases hkey : regionKey = (coordinates id).1
  · rw [if_pos hkey, hkey]
    refine (entry_put hbase' hlt' pageKey).trans ?_
    have hsame :
        map.pageAt (coordinates id).1 pageKey = region.pages.entry region.base pageKey := by
      rw [RadixMap.pageAt, hregion]
      rfl
    rw [hsame]
    by_cases hkey' : pageKey = (coordinates id).2.1
    · rw [if_pos hkey', if_pos ⟨rfl, hkey'.symm⟩]
    · rw [if_neg hkey', if_neg fun h => hkey' h.2.symm]
  · rw [if_neg hkey, if_neg fun h => hkey h.1.symm]
    rfl

/-- The place of an entry is filled, and those of other ids are left alone. -/
theorem RadixMap.Holds.set (h : map.Holds Page.Sealed entries) (hentry : (id, node) ∈ entries) :
    ∃ map', map.set id node = .ok map' ∧ map'.Holds Page.Sealed entries ∧
      map'.allocated = map.allocated ∧ map'.lookup id = .ok (some node) ∧
      ∀ id', id' ≠ id → map'.lookup id' = map.lookup id' := by
  have hmem := mem_entriesAt.mpr hentry
  have hholds := h (coordinates id).1 (coordinates id).2.1
  cases hpage : map.pageAt (coordinates id).1 (coordinates id).2.1 with
  | none =>
      rw [hpage] at hholds
      rw [hholds] at hmem
      cases hmem
  | some page =>
      rw [hpage] at hholds
      obtain ⟨page', hset, hsealed, hlookup, hothers⟩ := Page.Sealed.set hholds hmem
      obtain ⟨map', hmap, hallocated, hput⟩ := set_eq_ok hpage hset
      refine ⟨map', hmap, fun regionKey pageKey => ?_, hallocated, ?_, fun id' hne => ?_⟩
      · rw [hput]
        by_cases hkeys : (coordinates id).1 = regionKey ∧ (coordinates id).2.1 = pageKey
        · rw [if_pos hkeys, ← hkeys.1, ← hkeys.2]
          exact hsealed
        · rw [if_neg hkeys]
          exact h regionKey pageKey
      · rw [lookup_eq, hput, if_pos ⟨rfl, rfl⟩]
        exact hlookup
      · rw [lookup_eq, hput, lookup_eq]
        by_cases hkeys : (coordinates id).1 = (coordinates id').1 ∧
            (coordinates id).2.1 = (coordinates id').2.1
        · rw [if_pos hkeys, ← hkeys.1, ← hkeys.2, hpage]
          refine hothers _ fun hslot => hne (coordinates_injective ?_)
          exact Prod.ext hkeys.1.symm (Prod.ext hkeys.2.symm hslot)
        · rw [if_neg hkeys]

/-- An id without an entry is not found. -/
theorem RadixMap.Holds.lookup_of_not_mem (h : map.Holds Page.Sealed entries)
    (hnew : id ∉ entries.map Prod.fst) : map.lookup id = .ok none := by
  have hholds := h (coordinates id).1 (coordinates id).2.1
  rw [lookup_eq]
  split
  · rfl
  · next page hpage =>
      rw [hpage] at hholds
      exact Page.Sealed.lookup_of_not_mem hholds (mt slot_mem_entriesAt.mp hnew)

end

end Velr.IdMap
