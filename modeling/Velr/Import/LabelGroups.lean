import Velr.Common.Results
import Velr.Common.Tables
import Mathlib.Data.List.Destutter
import Mathlib.Data.List.Sort

/-!
# Label groups

`ensure_label_group_row` and what it calls in `catalog.rs`, and `resolve_dict`,
`resolve_label_group` and their callers in `native.rs`. Two rows get one label group exactly where
their lists of labels have the same names (`label_groups_identify`): the dictionary gives each name
an id of its own, the signature of a sorted list of ids determines the list (`signature_injective`),
and the cache knows every group there is (`Sound`).
-/

namespace Velr.LabelGroups

open Tables
open Results (Outcome)

/-! ## The catalog -/

/-- `sort_unstable` and `dedup` -/
def sortDedup (ids : List Int) : List Int := (ids.insertionSort (· ≤ ·)).destutter (· ≠ ·)

/-- `canonical_label_ids` -/
def canonicalLabelIds (labelIds : List Int) : List Int := sortDedup (labelIds.filter (0 < ·))

/-- `label_group_signature_from_canonical` -/
def labelGroupSignatureFromCanonical (ids : List Int) : List Char :=
  [','].intercalate (ids.map fun id => (toString id).toList)

/-- A row of `label_group_member` -/
structure Member where
  groupId : Int
  typeId : Int
  ordinal : Nat
deriving DecidableEq

/-- The table `label_group_member`, with its primary key and its unique ordinals. -/
structure Members where
  rows : List Member
  primary_key : (rows.map fun row => (row.groupId, row.typeId)).Nodup
  unique_ordinal : (rows.map fun row => (row.groupId, row.ordinal)).Nodup

/-- `INSERT OR IGNORE INTO label_group_member` -/
def Members.insertOrIgnore (members : Members) (row : Member) : Members :=
  if h : (row.groupId, row.typeId) ∈ members.rows.map (fun row => (row.groupId, row.typeId)) ∨
      (row.groupId, row.ordinal) ∈ members.rows.map (fun row => (row.groupId, row.ordinal)) then
    members
  else
    { rows := members.rows ++ [row]
      primary_key := by
        rw [List.map_append, List.map_singleton, ← List.concat_eq_append, List.nodup_concat]
        exact ⟨(not_or.mp h).1, members.primary_key⟩
      unique_ordinal := by
        rw [List.map_append, List.map_singleton, ← List.concat_eq_append, List.nodup_concat]
        exact ⟨(not_or.mp h).2, members.unique_ordinal⟩ }

/-- The insertions of `ensure_label_group_row` for the ids from an ordinal on. -/
def insertMembers (group : Int) : Nat → List Int → Members → Members
  | _, [], members => members
  | ordinal, id :: ids, members =>
      insertMembers group (ordinal + 1) ids (members.insertOrIgnore ⟨group, id, ordinal⟩)

structure Catalog where
  /-- `label_type`, with the column `type` -/
  labelType : Table String Unit
  /-- `label_group`, with the columns `signature` and `labels_json` -/
  labelGroup : Table (List Char) String
  labelGroupMember : Members

section
variable (toJson : List String → String)

/-- `labels_json_for_label_ids`, with the text that `serde_json` writes. -/
def labelsJsonForLabelIds (labelType : Table String Unit) (ids : List Int) :
    Except SqlError String := do
  let names ← ids.mapM fun id => (labelType.get id).map Row.key
  .ok (toJson names)

/-- `ensure_label_group_row` -/
def ensureLabelGroupRow (catalog : Catalog) (labelIds : List Int) :
    Except SqlError (Int × Catalog) := do
  let ids := canonicalLabelIds labelIds
  let signature := labelGroupSignatureFromCanonical ids
  let labelsJson ← labelsJsonForLabelIds toJson catalog.labelType ids
  let labelGroup ← catalog.labelGroup.insertOrIgnore signature labelsJson
  let group ← labelGroup.find signature
  let labelGroupMember := insertMembers group.id 0 ids catalog.labelGroupMember
  let row ← labelGroup.find signature
  .ok (row.id, { catalog with labelGroup, labelGroupMember })

/-! ## The import -/

inductive ImportError where
  /-- `node labels must not be empty` -/
  | emptyLabel
  /-- `offline import storage error` -/
  | storage (error : SqlError)
deriving DecidableEq

/-- The catalog and the caches of an `OfflineImport`. -/
structure OfflineImport where
  catalog : Catalog
  labels : String → Option Int
  labelGroups : List Int → Option Int

/-- `resolve_dict`; the table and its cache as they are afterwards. -/
def resolveDict (cache : String → Option Int) (table : Table String Unit) (name : String) :
    Except SqlError (Int × (String → Option Int) × Table String Unit) :=
  match cache name with
  | some id => .ok (id, cache, table)
  | none => do
      let (id, table) ← table.insert name ()
      .ok (id, Function.update cache name (some id), table)

/-- `resolve_dict` for each of the names. -/
def resolveNames (cache : String → Option Int) (table : Table String Unit) :
    List String → Except SqlError (List Int × (String → Option Int) × Table String Unit)
  | [] => .ok ([], cache, table)
  | name :: names => do
      let (id, cache, table) ← resolveDict cache table name
      let (ids, cache, table) ← resolveNames cache table names
      .ok (id :: ids, cache, table)

/-- The second half of `resolve_label_group`. -/
def resolveGroup (st : OfflineImport) (ids : List Int) :
    Except ImportError (Int × OfflineImport) :=
  match st.labelGroups ids with
  | some id => .ok (id, st)
  | none => do
      let (id, catalog) ← (ensureLabelGroupRow toJson st.catalog ids).mapError .storage
      .ok (id, { st with
        catalog, labelGroups := Function.update st.labelGroups ids (some id) })

/-- `resolve_label_group` -/
def resolveLabelGroup (st : OfflineImport) (names : List String) :
    Except ImportError (Int × OfflineImport) :=
  if names.any (· = "") then .error .emptyLabel
  else do
    let (ids, labels, labelType) ←
      (resolveNames st.labels st.catalog.labelType names).mapError .storage
    resolveGroup toJson { st with labels, catalog := { st.catalog with labelType } } (sortDedup ids)

/-- The labels of a batch of nodes: the same for each of its rows, or those of the source and then
those in the label columns of the row. -/
inductive NodeBatch where
  | fixed (labels : List String) (rows : Nat)
  | columns (labels : List String) (rows : List (List String))

/-- The list of labels of each row. -/
def NodeBatch.rowLabels : NodeBatch → List (List String)
  | fixed labels rows => List.replicate rows labels
  | columns labels rows => rows.map (labels ++ ·)

/-- The lists of labels that are resolved. -/
def NodeBatch.resolved : NodeBatch → List (List String)
  | fixed labels _ => [labels]
  | columns labels rows => rows.map (labels ++ ·)

/-- `resolve_label_group` for each of the lists. -/
def resolveRows (st : OfflineImport) :
    List (List String) → Except ImportError (List Int × OfflineImport)
  | [] => .ok ([], st)
  | names :: lists => do
      let (id, st) ← resolveLabelGroup toJson st names
      let (ids, st) ← resolveRows st lists
      .ok (id :: ids, st)

/-- The label groups that the rows of a batch get in `append_nodes`. -/
def appendNodes (st : OfflineImport) : NodeBatch → Except ImportError (List Int × OfflineImport)
  | .fixed labels rows => do
      let (id, st) ← resolveLabelGroup toJson st labels
      .ok (List.replicate rows id, st)
  | .columns labels rows => resolveRows toJson st (rows.map (labels ++ ·))

/-- The label groups that the rows of some batches get. -/
def importNodes (st : OfflineImport) :
    List NodeBatch → Except ImportError (List Int × OfflineImport)
  | [] => .ok ([], st)
  | batch :: batches => do
      let (ids, st) ← appendNodes toJson st batch
      let (ids', st) ← importNodes st batches
      .ok (ids ++ ids', st)

end

/-- The catalog of a fresh database: the schema seeds the group of no labels. -/
def freshCatalog : Catalog where
  labelType :=
    { rows := [], sequence := 0, sequence_nonneg := by decide, ids := by simp, unique_id := by simp,
      unique_key := by simp }
  labelGroup :=
    { rows := [⟨1, [], "[]"⟩], sequence := 1, sequence_nonneg := by decide, ids := by decide,
      unique_id := by simp, unique_key := by simp }
  labelGroupMember := { rows := [], primary_key := by simp, unique_ordinal := by simp }

/-- The caches that an `OfflineImport` begins with. -/
def freshImport : OfflineImport where
  catalog := freshCatalog
  labels := fun _ => none
  labelGroups := Function.update (fun _ => none) [] (some 1)

/-! ## Canonical lists of ids -/

/-- Positive, sorted and free of duplicates. -/
def Canonical (ids : List Int) : Prop := ids.Pairwise (· < ·) ∧ ∀ id ∈ ids, 0 < id

theorem sortDedup_eq (ids : List Int) : sortDedup ids = (ids.insertionSort (· ≤ ·)).dedup :=
  (List.pairwise_insertionSort (· ≤ ·) ids).destutter_eq_dedup

/-- Sorting and removing duplicates keeps the ids. -/
theorem mem_sortDedup {ids : List Int} {id : Int} : id ∈ sortDedup ids ↔ id ∈ ids := by
  rw [sortDedup_eq, List.mem_dedup, List.mem_insertionSort]

/-- It puts them in strict order. -/
theorem pairwise_sortDedup (ids : List Int) : (sortDedup ids).Pairwise (· < ·) := by
  rw [sortDedup_eq]
  have hsorted := (List.pairwise_insertionSort (· ≤ ·) ids).sublist (List.dedup_sublist _)
  have hnodup : (ids.insertionSort (· ≤ ·)).dedup.Pairwise (· ≠ ·) := List.nodup_dedup _
  exact hsorted.imp₂ (fun _ _ hle hne => lt_of_le_of_ne hle hne) hnodup

/-- Ids in strict order are determined by their set. -/
theorem eq_of_mem_iff {ids ids' : List Int} (h : ids.Pairwise (· < ·)) (h' : ids'.Pairwise (· < ·))
    (hmem : ∀ id, id ∈ ids ↔ id ∈ ids') : ids = ids' :=
  h.sortedLT.eq_of_mem_iff h'.sortedLT hmem

/-- Canonical ids stay as they are. -/
theorem canonicalLabelIds_eq {ids : List Int} (h : Canonical ids) :
    canonicalLabelIds ids = ids := by
  have hpos : ids.filter (0 < ·) = ids :=
    List.filter_eq_self.mpr fun id hid => decide_eq_true (h.2 id hid)
  rw [canonicalLabelIds, hpos]
  exact eq_of_mem_iff (pairwise_sortDedup ids) h.1 fun id => mem_sortDedup

theorem toList_toString {id : Int} (h : 0 < id) :
    (toString id).toList = Nat.toDigits 10 id.toNat := by
  rw [Int.toString_eq_repr, Int.repr_eq_if, if_pos h.le, Nat.toList_repr]

theorem signature_eq_nil {ids : List Int} (h : Canonical ids)
    (hnil : labelGroupSignatureFromCanonical ids = []) : ids = [] := by
  cases ids with
  | nil => rfl
  | cons id ids =>
      have hdigits := toList_toString (h.2 id List.mem_cons_self)
      have hne := @Nat.toDigits_ne_nil id.toNat 10
      rw [labelGroupSignatureFromCanonical, List.map_cons, hdigits] at hnil
      cases ids with
      | nil => exact absurd hnil (by simp)
      | cons id' ids => exact absurd hnil (by simp)

/-- The signature determines the ids. -/
theorem signature_injective {ids ids' : List Int} (h : Canonical ids) (h' : Canonical ids')
    (heq : labelGroupSignatureFromCanonical ids = labelGroupSignatureFromCanonical ids') :
    ids = ids' := by
  by_cases hnil : ids = []
  · subst hnil
    exact (signature_eq_nil h' heq.symm).symm
  by_cases hnil' : ids' = []
  · subst hnil'
    exact signature_eq_nil h heq
  -- No digit is a comma, so splitting the signature gives the numbers back.
  have hsplit : ∀ {ids : List Int}, Canonical ids → ids ≠ [] →
      (labelGroupSignatureFromCanonical ids).splitOn ',' =
        ids.map fun id => Nat.toDigits 10 id.toNat := by
    intro ids h hne
    have hmap : ids.map (fun id => (toString id).toList) =
        ids.map fun id => Nat.toDigits 10 id.toNat :=
      List.map_congr_left fun id hid => toList_toString (h.2 id hid)
    rw [labelGroupSignatureFromCanonical, hmap]
    refine List.splitOn_intercalate ',' (fun digits hdigits hcomma => ?_) (by simpa using hne)
    obtain ⟨id, -, rfl⟩ := List.mem_map.mp hdigits
    exact absurd (Nat.isDigit_of_mem_toDigits (by decide) (by decide) hcomma) (by decide)
  have hdigits := (hsplit h hnil).symm.trans ((congrArg _ heq).trans (hsplit h' hnil'))
  have hback : ∀ {ids : List Int}, Canonical ids →
      (ids.map fun id => Nat.toDigits 10 id.toNat).map
        (fun digits => ((Nat.ofDigitChars 10 digits 0 : Nat) : Int)) = ids := by
    intro ids h
    rw [List.map_map]
    refine (List.map_congr_left fun id hid => ?_).trans (List.map_id ids)
    rw [Function.comp_apply, Nat.ofDigitChars_ten_toDigits]
    exact Int.toNat_of_nonneg (h.2 id hid).le
  rw [← hback h, hdigits, hback h']

/-! ## What one call does -/

/-- A member whose type and ordinal are new to its group is inserted. -/
theorem insertOrIgnore_rows {members : Members} {row : Member}
    (htype : ∀ row' ∈ members.rows, row'.groupId = row.groupId → row'.typeId ≠ row.typeId)
    (hordinal : ∀ row' ∈ members.rows, row'.groupId = row.groupId → row'.ordinal ≠ row.ordinal) :
    (members.insertOrIgnore row).rows = members.rows ++ [row] := by
  rw [Members.insertOrIgnore, dif_neg]
  rintro (h | h)
  · obtain ⟨row', hrow', heq⟩ := List.mem_map.mp h
    exact htype row' hrow' (Prod.mk.inj heq).1 (Prod.mk.inj heq).2
  · obtain ⟨row', hrow', heq⟩ := List.mem_map.mp h
    exact hordinal row' hrow' (Prod.mk.inj heq).1 (Prod.mk.inj heq).2

/-- The ids of a list become members of their group, and nothing else changes. -/
theorem mem_insertMembers {group : Int} {ids : List Int} (hids : ids.Pairwise (· < ·)) :
    ∀ {ordinal : Nat} {members : Members},
      (∀ row ∈ members.rows, row.groupId = group → row.typeId ∉ ids ∧ row.ordinal < ordinal) →
      ∀ group' id, (∃ ordinal', ⟨group', id, ordinal'⟩ ∈
          (insertMembers group ordinal ids members).rows) ↔
        (∃ ordinal', ⟨group', id, ordinal'⟩ ∈ members.rows) ∨ group' = group ∧ id ∈ ids := by
  induction ids with
  | nil => exact fun _ _ _ => by simp [insertMembers]
  | cons first ids ih =>
      intro ordinal members hmembers group' id
      obtain ⟨hfirst, hids⟩ := List.pairwise_cons.mp hids
      have hrows : (members.insertOrIgnore ⟨group, first, ordinal⟩).rows =
          members.rows ++ [⟨group, first, ordinal⟩] := by
        refine insertOrIgnore_rows (fun row hrow hgroup htype => ?_) fun row hrow hgroup => ?_
        · exact (hmembers row hrow hgroup).1 (htype ▸ List.mem_cons_self)
        · exact Nat.ne_of_lt (hmembers row hrow hgroup).2
      have hnext : ∀ row ∈ (members.insertOrIgnore ⟨group, first, ordinal⟩).rows,
          row.groupId = group → row.typeId ∉ ids ∧ row.ordinal < ordinal + 1 := by
        intro row hrow hgroup
        rw [hrows, List.mem_append, List.mem_singleton] at hrow
        rcases hrow with hrow | rfl
        · obtain ⟨htype, hordinal⟩ := hmembers row hrow hgroup
          exact ⟨fun h => htype (List.mem_cons_of_mem _ h), Nat.lt_succ_of_lt hordinal⟩
        · exact ⟨fun h => lt_irrefl _ (hfirst _ h), Nat.lt_succ_self _⟩
      rw [insertMembers, ih hids hnext, hrows]
      simp only [List.mem_append, List.mem_cons, List.not_mem_nil, or_false, Member.mk.injEq]
      constructor
      · rintro (⟨ordinal', h | ⟨hgroup, htype, -⟩⟩ | ⟨hgroup, hid⟩)
        · exact .inl ⟨ordinal', h⟩
        · exact .inr ⟨hgroup, .inl htype⟩
        · exact .inr ⟨hgroup, .inr hid⟩
      · rintro (⟨ordinal', h⟩ | ⟨hgroup, rfl | hid⟩)
        · exact .inl ⟨ordinal', .inl h⟩
        · exact .inl ⟨ordinal, .inr ⟨hgroup, rfl, rfl⟩⟩
        · exact .inr ⟨hgroup, hid⟩

/-- Members are inserted into one group. -/
theorem insertMembers_groups {group : Int} {ids : List Int} : ∀ {ordinal : Nat} {members : Members},
    ∀ row ∈ (insertMembers group ordinal ids members).rows,
      row ∈ members.rows ∨ row.groupId = group := by
  induction ids with
  | nil => exact fun row hrow => .inl hrow
  | cons id ids ih =>
      intro ordinal members row hrow
      rcases ih row hrow with hrow | hgroup
      · rw [Members.insertOrIgnore] at hrow
        split at hrow
        · exact .inl hrow
        · rw [List.mem_append, List.mem_singleton] at hrow
          rcases hrow with hrow | rfl
          · exact .inl hrow
          · exact .inr rfl
      · exact .inr hgroup

/-- The cache of a dictionary has exactly its rows. -/
def Cached (cache : String → Option Int) (table : Table String Unit) : Prop :=
  ∀ name id, cache name = some id ↔ ⟨id, name, ()⟩ ∈ table.rows

/-- One cache has what another has. -/
def Extends {κ : Type} (cache cache' : κ → Option Int) : Prop :=
  ∀ key id, cache key = some id → cache' key = some id

variable {cache cache' : String → Option Int} {table table' : Table String Unit}

theorem Extends.trans {κ : Type} {first mid last : κ → Option Int} (h : Extends first mid)
    (h' : Extends mid last) : Extends first last :=
  fun key id hkey => h' key id (h key id hkey)

/-- A cache that gets a new key extends the old one. -/
theorem extends_update {κ : Type} [DecidableEq κ] {first : κ → Option Int} {key : κ} {id : Int}
    (h : first key = none) : Extends first (Function.update first key (some id)) := by
  intro key' id' hkey'
  by_cases heq : key' = key
  · rw [heq, h] at hkey'
    cases hkey'
  · rwa [Function.update_of_ne heq]

/-- `resolve_dict` gives a name its id, and fails only when the ids are used up. -/
theorem resolveDict_outcome (h : Cached cache table) (name : String) :
    Outcome (resolveDict cache table name)
      (fun (id, cache', table') => Cached cache' table' ∧ cache' name = some id ∧
        Extends cache cache' ∧ table'.sequence ≤ table.sequence + 1)
      (fun e => e = .full ∧ maxRowid ≤ table.sequence) := by
  rw [resolveDict]
  cases hname : cache name with
  | some id => exact ⟨h, hname, fun _ _ h => h, by omega⟩
  | none =>
      have hfresh : name ∉ table.rows.map Row.key := by
        intro hmem
        obtain ⟨row, hrow, rfl⟩ := List.mem_map.mp hmem
        have hcached := (h row.key row.id).mpr hrow
        rw [hname] at hcached
        cases hcached
      simp only [Table.insert]
      split
      · exact ⟨rfl, ‹_›⟩
      · refine ⟨fun name' id => ?_, Function.update_self .., extends_update hname, le_refl _⟩
        rw [Table.mem_append, ← h name' id, Row.mk.injEq]
        by_cases heq : name' = name
        · subst heq
          simp [hname, eq_comm]
        · simp [heq]

/-- So for each of several names. -/
theorem resolveNames_outcome (h : Cached cache table) (names : List String) :
    Outcome (resolveNames cache table names)
      (fun (ids, cache', table') => Cached cache' table' ∧
        List.Forall₂ (fun name id => cache' name = some id) names ids ∧
        Extends cache cache' ∧ table'.sequence ≤ table.sequence + names.length)
      (fun e => e = .full ∧ maxRowid ≤ table.sequence + names.length) := by
  induction names generalizing cache table with
  | nil => exact ⟨h, .nil, fun _ _ h => h, by simp⟩
  | cons name names ih =>
      rw [resolveNames, List.length_cons]
      refine ((resolveDict_outcome h name).imp (fun _ hpost => hpost) fun e hfail => ?_).bind ?_
      · exact ⟨hfail.1, by omega⟩
      rintro ⟨id, cache₁, table₁⟩ ⟨hcached, hname, hextends, hsequence⟩
      refine ((ih hcached).imp (fun _ hpost => hpost) fun e hfail => ?_).bind ?_
      · exact ⟨hfail.1, by have := hfail.2; omega⟩
      rintro ⟨ids, cache₂, table₂⟩ ⟨hcached₂, hids, hextends₂, hsequence₂⟩
      exact ⟨hcached₂, .cons (hextends₂ _ _ hname) hids, hextends.trans hextends₂, by omega⟩

variable {toJson : List String → String} {st st' : OfflineImport} {ids : List Int} {group : Int}
  {names names' : List String}

/-- The labels of known ids have a JSON text. -/
theorem labelsJson_eq_ok (h : ∀ id ∈ ids, ∃ name, (⟨id, name, ()⟩ : Row String Unit) ∈ table.rows) :
    ∃ json, labelsJsonForLabelIds toJson table ids = .ok json := by
  have hget : ∀ id ∈ ids, ∃ name, (table.get id).map Row.key = .ok name := by
    intro id hid
    obtain ⟨name, hrow⟩ := h id hid
    have hfound : table.get id = .ok ⟨id, name, ()⟩ := Table.get_eq_ok hrow
    exact ⟨name, by rw [hfound]; rfl⟩
  obtain ⟨names, hnames⟩ := Results.exists_forall₂ hget
  exact ⟨toJson names, Results.bind_eq_ok_iff.mpr ⟨names, Results.mapM_eq_ok_iff.mpr hnames, rfl⟩⟩

/-- A list that no group has yet gets a row under the next id. -/
theorem ensureLabelGroupRow_outcome {catalog : Catalog} {json : String} (hids : Canonical ids)
    (hjson : labelsJsonForLabelIds toJson catalog.labelType ids = .ok json)
    (hnew : labelGroupSignatureFromCanonical ids ∉ catalog.labelGroup.rows.map Row.key) :
    Outcome (ensureLabelGroupRow toJson catalog ids)
      (fun (group, catalog') => group = catalog.labelGroup.sequence + 1 ∧
        catalog'.labelType = catalog.labelType ∧
        (∀ row, row ∈ catalog'.labelGroup.rows ↔
          row ∈ catalog.labelGroup.rows ∨
            row = ⟨group, labelGroupSignatureFromCanonical ids, json⟩) ∧
        catalog'.labelGroup.sequence = group ∧
        catalog'.labelGroupMember = insertMembers group 0 ids catalog.labelGroupMember)
      (fun e => e = .full ∧ maxRowid ≤ catalog.labelGroup.sequence) := by
  rw [ensureLabelGroupRow]
  simp only [canonicalLabelIds_eq hids, hjson]
  have hinsert : catalog.labelGroup.insertOrIgnore (labelGroupSignatureFromCanonical ids) json =
      if maxRowid ≤ catalog.labelGroup.sequence then .error .full
      else .ok (catalog.labelGroup.append _ json hnew) := by
    rw [Table.insertOrIgnore, dif_neg hnew]
  by_cases hfull : maxRowid ≤ catalog.labelGroup.sequence
  · rw [if_pos hfull] at hinsert
    simp only [hinsert, bind, Except.bind]
    exact ⟨rfl, hfull⟩
  · rw [if_neg hfull] at hinsert
    have hrow : (⟨catalog.labelGroup.sequence + 1, labelGroupSignatureFromCanonical ids, json⟩ :
        Row (List Char) String) ∈ (catalog.labelGroup.append _ json hnew).rows :=
      Table.mem_append.mpr (.inr rfl)
    have hfind := Table.find_eq_ok hrow
    dsimp only at hfind
    simp only [hinsert, hfind, bind, Except.bind]
    exact ⟨rfl, rfl, fun row => @Table.mem_append _ _ _ row _ json hnew, rfl, rfl⟩

/-! ## The invariant -/

/-- The caches have what the catalog has: each row of `label_group` belongs to one list of ids,
which its signature and its members show. -/
structure Sound (st : OfflineImport) : Prop where
  labels : Cached st.labels st.catalog.labelType
  groups : ∀ ids group, st.labelGroups ids = some group → Canonical ids ∧
    (∃ json, ⟨group, labelGroupSignatureFromCanonical ids, json⟩ ∈ st.catalog.labelGroup.rows) ∧
      ∀ id, (∃ ordinal, ⟨group, id, ordinal⟩ ∈ st.catalog.labelGroupMember.rows) ↔ id ∈ ids
  rows : ∀ row ∈ st.catalog.labelGroup.rows, ∃ ids, st.labelGroups ids = some row.id ∧
    row.key = labelGroupSignatureFromCanonical ids
  members : ∀ row ∈ st.catalog.labelGroupMember.rows, ∃ ids,
    st.labelGroups ids = some row.groupId

/-- A group in the cache has an id of the table. -/
theorem Sound.group_le (h : Sound st) (hgroup : st.labelGroups ids = some group) :
    group ≤ st.catalog.labelGroup.sequence := by
  obtain ⟨-, ⟨json, hrow⟩, -⟩ := h.groups ids group hgroup
  exact (st.catalog.labelGroup.ids _ hrow).2

/-- A group of a list that had none. -/
theorem Sound.create {catalog' : Catalog} {json : String} (h : Sound st) (hids : Canonical ids)
    (hnone : st.labelGroups ids = none) (hgroup : group = st.catalog.labelGroup.sequence + 1)
    (htype : catalog'.labelType = st.catalog.labelType)
    (hrows : ∀ row, row ∈ catalog'.labelGroup.rows ↔ row ∈ st.catalog.labelGroup.rows ∨
      row = ⟨group, labelGroupSignatureFromCanonical ids, json⟩)
    (hmembers : catalog'.labelGroupMember =
      insertMembers group 0 ids st.catalog.labelGroupMember) :
    Sound { st with
      catalog := catalog', labelGroups := Function.update st.labelGroups ids (some group) } := by
  have hold : ∀ ids' group', st.labelGroups ids' = some group' → ids' ≠ ids ∧ group' ≠ group := by
    intro ids' group' h'
    refine ⟨fun heq => ?_, fun heq => ?_⟩
    · rw [heq, hnone] at h'
      cases h'
    · have hle := h.group_le h'
      omega
  have hmem := @mem_insertMembers group ids hids.1 0 st.catalog.labelGroupMember
    fun row hrow heq => by
      obtain ⟨ids', h'⟩ := h.members row hrow
      exact absurd heq (hold ids' _ h').2
  refine ⟨?_, fun ids' group' h' => ?_, fun row hrow => ?_, fun row hrow => ?_⟩
  · exact htype ▸ h.labels
  · dsimp only at h' ⊢
    rw [hmembers]
    by_cases heq : ids' = ids
    · subst heq
      rw [Function.update_self, Option.some.injEq] at h'
      subst h'
      refine ⟨hids, ⟨json, (hrows _).mpr (.inr rfl)⟩, fun id => (hmem group id).trans ?_⟩
      constructor
      · rintro (⟨ordinal, hrow⟩ | ⟨-, hid⟩)
        · obtain ⟨ids', h'⟩ := h.members _ hrow
          exact absurd rfl (hold ids' _ h').2
        · exact hid
      · exact fun hid => .inr ⟨rfl, hid⟩
    · rw [Function.update_of_ne heq] at h'
      obtain ⟨hcanonical, ⟨json', hrow⟩, hid⟩ := h.groups ids' group' h'
      refine ⟨hcanonical, ⟨json', (hrows _).mpr (.inl hrow)⟩, fun id => ?_⟩
      rw [hmem, hid]
      exact or_iff_left fun hgroup' => absurd hgroup'.1 (hold ids' group' h').2
  · rcases (hrows row).mp hrow with hrow | rfl
    · obtain ⟨ids', h', hkey⟩ := h.rows row hrow
      exact ⟨ids', (Function.update_of_ne (hold ids' _ h').1 ..).trans h', hkey⟩
    · exact ⟨ids, Function.update_self .., rfl⟩
  · dsimp only at hrow
    rw [hmembers] at hrow
    rcases insertMembers_groups row hrow with hrow | hgroup'
    · obtain ⟨ids', h'⟩ := h.members row hrow
      exact ⟨ids', (Function.update_of_ne (hold ids' _ h').1 ..).trans h'⟩
    · exact ⟨ids, by rw [hgroup']; exact Function.update_self ..⟩

/-- `resolve_label_group` gives ids in strict order their group, and fails only when the groups are
used up. -/
theorem resolveGroup_outcome (h : Sound st) (hids : ids.Pairwise (· < ·))
    (hknown : ∀ id ∈ ids, ∃ name, st.labels name = some id) :
    Outcome (resolveGroup toJson st ids)
      (fun (group, st') => Sound st' ∧ st'.labelGroups ids = some group ∧
        st'.labels = st.labels ∧ st'.catalog.labelType = st.catalog.labelType ∧
        Extends st.labelGroups st'.labelGroups ∧
        st'.catalog.labelGroup.sequence ≤ st.catalog.labelGroup.sequence + 1)
      (fun e => e = .storage .full ∧ maxRowid ≤ st.catalog.labelGroup.sequence) := by
  rw [resolveGroup]
  cases hgroup : st.labelGroups ids with
  | some group => exact ⟨h, hgroup, rfl, rfl, fun _ _ h => h, by omega⟩
  | none =>
      have hrows : ∀ id ∈ ids, ∃ name,
          (⟨id, name, ()⟩ : Row String Unit) ∈ st.catalog.labelType.rows := by
        intro id hid
        obtain ⟨name, hname⟩ := hknown id hid
        exact ⟨name, (h.labels name id).mp hname⟩
      have hcanonical : Canonical ids := by
        refine ⟨hids, fun id hid => ?_⟩
        obtain ⟨name, hrow⟩ := hrows id hid
        exact (st.catalog.labelType.ids _ hrow).1
      obtain ⟨json, hjson⟩ := @labelsJson_eq_ok _ toJson _ hrows
      have hnew : labelGroupSignatureFromCanonical ids ∉
          st.catalog.labelGroup.rows.map Row.key := by
        intro hmem
        obtain ⟨row, hrow, hkey⟩ := List.mem_map.mp hmem
        obtain ⟨ids', h', hkey'⟩ := h.rows row hrow
        have heq := signature_injective (h.groups ids' _ h').1 hcanonical
          (hkey'.symm.trans hkey)
        rw [heq, hgroup] at h'
        cases h'
      have houtcome := ensureLabelGroupRow_outcome hcanonical hjson hnew
      cases hcall : ensureLabelGroupRow toJson st.catalog ids with
      | error e =>
          rw [hcall] at houtcome
          exact ⟨congrArg _ houtcome.1, houtcome.2⟩
      | ok result =>
          rw [hcall] at houtcome
          obtain ⟨group, catalog'⟩ := result
          obtain ⟨hid, htype, hmem, hsequence, hmembers⟩ := houtcome
          refine ⟨h.create hcanonical hgroup hid htype hmem hmembers, Function.update_self ..,
            rfl, htype, extends_update hgroup, ?_⟩
          dsimp only
          omega

/-- A group has the ids of some names, and each of them has one. -/
def Denotes (st : OfflineImport) (names : List String) (group : Int) : Prop :=
  ∃ ids, st.labelGroups ids = some group ∧
    (∀ id, id ∈ ids ↔ ∃ name ∈ names, st.labels name = some id) ∧
      ∀ name ∈ names, ∃ id, st.labels name = some id

/-- The caches only grow. -/
structure Later (st st' : OfflineImport) : Prop where
  labels : Extends st.labels st'.labels
  groups : Extends st.labelGroups st'.labelGroups

theorem Later.refl (st : OfflineImport) : Later st st := ⟨fun _ _ h => h, fun _ _ h => h⟩

/-- What is later than something later is later. -/
theorem Later.trans {st'' : OfflineImport} (h : Later st st') (h' : Later st' st'') :
    Later st st'' :=
  ⟨Extends.trans h.labels h'.labels, Extends.trans h.groups h'.groups⟩

/-- What a group denotes it denotes for ever. -/
theorem Denotes.later (h : Denotes st names group) (hlater : Later st st') :
    Denotes st' names group := by
  obtain ⟨ids, hgroup, hids, hnames⟩ := h
  refine ⟨ids, hlater.groups _ _ hgroup, fun id => (hids id).trans ?_, fun name hname => ?_⟩
  · refine exists_congr fun name => and_congr_right fun hname => ?_
    obtain ⟨id', hid'⟩ := hnames name hname
    rw [hid', hlater.labels _ _ hid']
  · obtain ⟨id, hid⟩ := hnames name hname
    exact ⟨id, hlater.labels _ _ hid⟩

/-- How far the generated ids may have come after some calls for lists of names. -/
def Within (st st' : OfflineImport) (lists : List (List String)) : Prop :=
  st'.catalog.labelType.sequence ≤ st.catalog.labelType.sequence + (lists.map List.length).sum ∧
    st'.catalog.labelGroup.sequence ≤ st.catalog.labelGroup.sequence + lists.length

/-- The ids run out within some calls for lists of names. -/
def Full (st : OfflineImport) (lists : List (List String)) (e : ImportError) : Prop :=
  e = .storage .full ∧
    (maxRowid ≤ st.catalog.labelType.sequence + (lists.map List.length).sum ∨
      maxRowid ≤ st.catalog.labelGroup.sequence + lists.length)

variable {lists lists' : List (List String)} {e : ImportError}

theorem Within.trans {st'' : OfflineImport} (h : Within st st' lists)
    (h' : Within st' st'' lists') :
    Within st st'' (lists ++ lists') := by
  obtain ⟨htype, hgroup⟩ := h
  obtain ⟨htype', hgroup'⟩ := h'
  rw [Within, List.map_append, List.sum_append, List.length_append]
  omega

theorem Full.more (h : Full st lists e) (lists' : List (List String)) :
    Full st (lists ++ lists') e := by
  obtain ⟨he, h⟩ := h
  rw [Full, List.map_append, List.sum_append, List.length_append]
  exact ⟨he, by omega⟩

/-- An overflow in the rest is one of the whole. -/
theorem Full.later (hwithin : Within st st' lists) (h : Full st' lists' e) :
    Full st (lists ++ lists') e := by
  obtain ⟨he, h⟩ := h
  obtain ⟨htype, hgroup⟩ := hwithin
  rw [Full, List.map_append, List.sum_append, List.length_append]
  exact ⟨he, by omega⟩

/-- A list of names gets a group that denotes it. -/
theorem resolveLabelGroup_outcome (h : Sound st) (hnames : ∀ name ∈ names, name ≠ "") :
    Outcome (resolveLabelGroup toJson st names)
      (fun (group, st') => Sound st' ∧ Denotes st' names group ∧ Later st st' ∧
        Within st st' [names])
      (Full st [names]) := by
  have hvalid : ¬(names.any (· = "")) = true := by
    rw [List.any_eq_true]
    rintro ⟨name, hname, hempty⟩
    exact hnames name hname (of_decide_eq_true hempty)
  rw [resolveLabelGroup, if_neg hvalid]
  have houtcome := resolveNames_outcome h.labels names
  cases hcall : resolveNames st.labels st.catalog.labelType names with
  | error e =>
      rw [hcall] at houtcome
      refine ⟨congrArg _ houtcome.1, .inl ?_⟩
      simpa using houtcome.2
  | ok result =>
      rw [hcall] at houtcome
      obtain ⟨ids, labels, labelType⟩ := result
      obtain ⟨hcached, hids, hextends, hsequence⟩ := houtcome
      -- The groups there were are as they were.
      have hsound : Sound { st with
          labels, catalog := { st.catalog with labelType } } :=
        ⟨hcached, h.groups, h.rows, h.members⟩
      have hmem : ∀ id, id ∈ sortDedup ids ↔ ∃ name ∈ names, labels name = some id := by
        intro id
        rw [mem_sortDedup]
        constructor
        · exact fun hid => (Results.forall₂_right hids) id hid
        · rintro ⟨name, hname, hid⟩
          obtain ⟨id', hid', heq⟩ := Results.forall₂_left hids name hname
          rw [hid, Option.some.injEq] at heq
          rwa [heq]
      refine ((resolveGroup_outcome hsound (pairwise_sortDedup ids) fun id hid => ?_).imp
        (fun result hpost => ?_) fun e hfail => ?_)
      · obtain ⟨name, -, hid⟩ := (hmem id).mp hid
        exact ⟨name, hid⟩
      · obtain ⟨group, st'⟩ := result
        obtain ⟨hsound', hgroup, hlabels, htype, hgroups, hsequence'⟩ := hpost
        dsimp only at hlabels htype hgroups hsequence'
        refine ⟨hsound', ⟨sortDedup ids, hgroup, ?_, fun name hname => ?_⟩, ⟨?_, hgroups⟩, ?_⟩
        · rw [hlabels]
          exact hmem
        · obtain ⟨id, -, hid⟩ := Results.forall₂_left hids name hname
          exact ⟨id, by rw [hlabels]; exact hid⟩
        · rw [hlabels]
          exact hextends
        · rw [Within, htype]
          simpa using ⟨hsequence, hsequence'⟩
      · refine ⟨hfail.1, .inr ?_⟩
        have hle := hfail.2
        simp only [List.length_singleton]
        dsimp only at hle
        omega

/-- So does every row of a batch. -/
theorem resolveRows_outcome (h : Sound st) (hlists : ∀ names ∈ lists, ∀ name ∈ names, name ≠ "") :
    Outcome (resolveRows toJson st lists)
      (fun (groups, st') => Sound st' ∧ List.Forall₂ (Denotes st') lists groups ∧ Later st st' ∧
        Within st st' lists)
      (Full st lists) := by
  induction lists generalizing st with
  | nil => exact ⟨h, .nil, .refl st, by simp [Within]⟩
  | cons names lists ih =>
      obtain ⟨hnames, hlists⟩ := List.forall_mem_cons.mp hlists
      refine ((resolveLabelGroup_outcome h hnames).imp (fun _ hpost => hpost)
        fun e hfail => hfail.more lists).bind ?_
      rintro ⟨group, st'⟩ ⟨hsound, hgroup, hlater, hwithin⟩
      refine ((ih hsound hlists).imp (fun _ hpost => hpost)
        fun e hfail => Full.later hwithin hfail).bind ?_
      rintro ⟨groups, st''⟩ ⟨hsound', hgroups, hlater', hwithin'⟩
      exact ⟨hsound', .cons (hgroup.later hlater') hgroups, hlater.trans hlater',
        hwithin.trans hwithin'⟩

/-- So does every row of a call. -/
theorem appendNodes_outcome {batch : NodeBatch} (h : Sound st)
    (hlists : ∀ names ∈ batch.resolved, ∀ name ∈ names, name ≠ "") :
    Outcome (appendNodes toJson st batch)
      (fun (groups, st') => Sound st' ∧ List.Forall₂ (Denotes st') batch.rowLabels groups ∧
        Later st st' ∧ Within st st' batch.resolved)
      (Full st batch.resolved) := by
  cases batch with
  | fixed labels rows =>
      refine (resolveLabelGroup_outcome h (hlists labels List.mem_cons_self)).bind ?_
      rintro ⟨group, st'⟩ ⟨hsound, hgroup, hlater, hwithin⟩
      refine ⟨hsound, ?_, hlater, hwithin⟩
      induction rows with
      | zero => exact .nil
      | succ rows ih => exact .cons hgroup (ih hlists)
  | columns labels rows => exact resolveRows_outcome h hlists

/-- So does every row of an import. -/
theorem importNodes_outcome {batches : List NodeBatch} (h : Sound st)
    (hlists : ∀ names ∈ batches.flatMap NodeBatch.resolved, ∀ name ∈ names, name ≠ "") :
    Outcome (importNodes toJson st batches)
      (fun (groups, st') => Sound st' ∧
        List.Forall₂ (Denotes st') (batches.flatMap NodeBatch.rowLabels) groups ∧ Later st st')
      (Full st (batches.flatMap NodeBatch.resolved)) := by
  induction batches generalizing st with
  | nil => exact ⟨h, .nil, .refl st⟩
  | cons batch batches ih =>
      rw [List.flatMap_cons] at hlists
      rw [List.flatMap_cons, List.flatMap_cons]
      obtain ⟨hbatch, hlists⟩ := List.forall_mem_append.mp hlists
      refine ((appendNodes_outcome h hbatch).imp (fun _ hpost => hpost)
        fun e hfail => hfail.more _).bind ?_
      rintro ⟨groups, st'⟩ ⟨hsound, hgroups, hlater, hwithin⟩
      refine ((ih hsound hlists).imp (fun _ hpost => hpost)
        fun e hfail => Full.later hwithin hfail).bind ?_
      rintro ⟨groups', st''⟩ ⟨hsound', hgroups', hlater'⟩
      refine ⟨hsound', ?_, hlater.trans hlater'⟩
      exact List.rel_append (hgroups.imp fun _ _ hgroup => hgroup.later hlater') hgroups'

/-- A fresh import is sound. -/
theorem sound_fresh : Sound freshImport := by
  have hcache : freshImport.labelGroups = Function.update (fun _ => none) [] (some 1) := rfl
  have hempty : freshImport.labelGroups [] = some 1 := rfl
  refine ⟨fun name id => ?_, fun ids group hgroup => ?_, fun row hrow => ?_, fun row hrow => ?_⟩
  · exact iff_of_false nofun (List.not_mem_nil)
  · by_cases heq : ids = []
    · subst heq
      rw [hempty, Option.some.injEq] at hgroup
      subst hgroup
      refine ⟨⟨.nil, by simp⟩, ⟨"[]", List.mem_singleton.mpr rfl⟩, fun id => ?_⟩
      exact iff_of_false (fun ⟨_, hrow⟩ => List.not_mem_nil hrow) List.not_mem_nil
    · rw [hcache, Function.update_of_ne heq] at hgroup
      cases hgroup
  · obtain rfl := List.mem_singleton.mp hrow
    exact ⟨[], hempty, rfl⟩
  · exact absurd hrow List.not_mem_nil

/-! ## Label groups are label sets -/

/-- A group has one list of ids. -/
theorem Sound.group_inj {ids' : List Int} (h : Sound st) (hgroup : st.labelGroups ids = some group)
    (hgroup' : st.labelGroups ids' = some group) : ids = ids' := by
  obtain ⟨hcanonical, ⟨json, hrow⟩, -⟩ := h.groups ids group hgroup
  obtain ⟨hcanonical', ⟨json', hrow'⟩, -⟩ := h.groups ids' group hgroup'
  have hsame := Table.eq_of_id hrow hrow' rfl
  rw [Row.mk.injEq] at hsame
  exact signature_injective hcanonical hcanonical' hsame.2.1

/-- Each label has an id of its own. -/
theorem Sound.label_inj {name name' : String} {id : Int} (h : Sound st)
    (hname : st.labels name = some id) (hname' : st.labels name' = some id) : name = name' := by
  have hsame := Table.eq_of_id ((h.labels _ _).mp hname) ((h.labels _ _).mp hname') rfl
  rw [Row.mk.injEq] at hsame
  exact hsame.2.1

/-- Two lists of names have one group exactly if they have the same names. -/
theorem Sound.group_eq_iff {group' : Int} (h : Sound st) (hgroup : Denotes st names group)
    (hgroup' : Denotes st names' group') :
    group = group' ↔ ∀ name, name ∈ names ↔ name ∈ names' := by
  obtain ⟨ids, hcached, hids, hnames⟩ := hgroup
  obtain ⟨ids', hcached', hids', hnames'⟩ := hgroup'
  constructor
  · rintro rfl
    obtain rfl := h.group_inj hcached hcached'
    -- A name of one list has an id that a name of the other has too.
    have hmem : ∀ {names names' : List String}, (∀ name ∈ names, ∃ id, st.labels name = some id) →
        (∀ id, id ∈ ids ↔ ∃ name ∈ names, st.labels name = some id) →
        (∀ id, id ∈ ids ↔ ∃ name ∈ names', st.labels name = some id) →
        ∀ name ∈ names, name ∈ names' := by
      intro names names' hnames hids hids' name hname
      obtain ⟨id, hid⟩ := hnames name hname
      obtain ⟨name', hname', hid'⟩ := (hids' id).mp ((hids id).mpr ⟨name, hname, hid⟩)
      rwa [h.label_inj hid hid']
    exact fun name => ⟨hmem hnames hids hids' name, hmem hnames' hids' hids name⟩
  · intro hsame
    have heq : ids = ids' := by
      refine eq_of_mem_iff (h.groups _ _ hcached).1.1 (h.groups _ _ hcached').1.1 fun id => ?_
      rw [hids, hids']
      exact exists_congr fun name => and_congr_left' (hsame name)
    rw [heq, hcached', Option.some.injEq] at hcached
    exact hcached.symm

/-- The members of a group are the ids of its labels. -/
theorem Sound.members_iff (h : Sound st) (hgroup : Denotes st names group) (id : Int) :
    (∃ ordinal, ⟨group, id, ordinal⟩ ∈ st.catalog.labelGroupMember.rows) ↔
      ∃ name ∈ names, ⟨id, name, ()⟩ ∈ st.catalog.labelType.rows := by
  obtain ⟨ids, hcached, hids, -⟩ := hgroup
  rw [(h.groups _ _ hcached).2.2, hids]
  exact exists_congr fun name => and_congr_right' (h.labels name id)

/-- Two rows of an import have one label group exactly where their lists of labels have the same
names; the members of a row's group are the ids of its labels, each of which has one; the signature
of a canonical list of ids determines it; and an import stops here only where row ids run out. -/
theorem label_groups_identify (toJson : List String → String) (batches : List NodeBatch)
    (hnames : ∀ names ∈ batches.flatMap NodeBatch.resolved, ∀ name ∈ names, name ≠ "") :
    (∀ groups st, importNodes toJson freshImport batches = .ok (groups, st) →
      groups.length = (batches.flatMap NodeBatch.rowLabels).length ∧
      (∀ (i j : Nat) (names names' : List String) (group group' : Int),
        (batches.flatMap NodeBatch.rowLabels)[i]? = some names →
        (batches.flatMap NodeBatch.rowLabels)[j]? = some names' →
        groups[i]? = some group → groups[j]? = some group' →
        (group = group' ↔ ∀ name, name ∈ names ↔ name ∈ names')) ∧
      ∀ (i : Nat) (names : List String) (group : Int),
        (batches.flatMap NodeBatch.rowLabels)[i]? = some names → groups[i]? = some group →
        (∀ name ∈ names, ∃ id, ⟨id, name, ()⟩ ∈ st.catalog.labelType.rows) ∧
        ∀ id, (∃ ordinal, ⟨group, id, ordinal⟩ ∈ st.catalog.labelGroupMember.rows) ↔
          ∃ name ∈ names, ⟨id, name, ()⟩ ∈ st.catalog.labelType.rows) ∧
    (∀ e, importNodes toJson freshImport batches = .error e →
      Full freshImport (batches.flatMap NodeBatch.resolved) e) ∧
    ∀ ids ids', Canonical ids → Canonical ids' →
      labelGroupSignatureFromCanonical ids = labelGroupSignatureFromCanonical ids' →
        ids = ids' := by
  have houtcome := @importNodes_outcome toJson freshImport batches sound_fresh hnames
  refine ⟨fun groups st hrun => ?_, fun e hrun => ?_, fun ids ids' => signature_injective⟩
  · rw [hrun] at houtcome
    obtain ⟨hsound, hgroups, -⟩ := houtcome
    refine ⟨hgroups.length_eq.symm, ?_, ?_⟩
    · intro i j names names' group group' hi hj hi' hj'
      exact hsound.group_eq_iff (Results.forall₂_getElem? hgroups hi hi')
        (Results.forall₂_getElem? hgroups hj hj')
    · intro i names group hi hi'
      have hdenotes := Results.forall₂_getElem? hgroups hi hi'
      refine ⟨fun name hname => ?_, hsound.members_iff hdenotes⟩
      obtain ⟨ids, -, -, hlabels⟩ := hdenotes
      obtain ⟨id, hid⟩ := hlabels name hname
      exact ⟨id, (hsound.labels name id).mp hid⟩
  · rw [hrun] at houtcome
    exact houtcome

/-- A fixed list, a list that a column completes, and a list of columns with a duplicate. -/
theorem label_groups_identify_small :
    ∃ groups st, importNodes (fun _ => "") freshImport
        [.fixed ["b", "a"] 1, .columns ["a"] [["c"], ["b", "b"]], .fixed [] 1] = .ok (groups, st) ∧
      groups = [2, 3, 2, 1] ∧
      ∀ id, (∃ ordinal, ⟨3, id, ordinal⟩ ∈ st.catalog.labelGroupMember.rows) ↔
        ∃ name ∈ ["a", "c"], ⟨id, name, ()⟩ ∈ st.catalog.labelType.rows := by
  have hidentify := (label_groups_identify (fun _ => "")
    [.fixed ["b", "a"] 1, .columns ["a"] [["c"], ["b", "b"]], .fixed [] 1] (by decide)).1
  have hgroups : (importNodes (fun _ => "") freshImport
      [.fixed ["b", "a"] 1, .columns ["a"] [["c"], ["b", "b"]], .fixed [] 1]).map Prod.fst =
        .ok [2, 3, 2, 1] := by rfl
  cases hrun : importNodes (fun _ => "") freshImport
      [.fixed ["b", "a"] 1, .columns ["a"] [["c"], ["b", "b"]], .fixed [] 1] with
  | error e =>
      rw [hrun] at hgroups
      cases hgroups
  | ok result =>
      obtain ⟨groups, st⟩ := result
      rw [hrun] at hgroups
      obtain rfl := Except.ok.inj hgroups
      refine ⟨_, st, rfl, rfl, ?_⟩
      exact ((hidentify _ st hrun).2.2 1 ["a", "c"] 3 rfl rfl).2

end Velr.LabelGroups
