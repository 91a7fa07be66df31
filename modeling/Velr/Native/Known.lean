import Velr.IdMap.Sealing
import Velr.Native.Filed

/-!
# The ids that an import knows

What an id in a group is answered with is said by the nodes that were accepted (`Graph.answer`). The
integer-ID map and the table of ids know it (`Ids.Know`), and the cache holds no other answer
(`Known`), whatever was put to it or cleared from it.
-/

namespace Velr.Native

open FirstWins (Map firstOf firstOf_nil firstOf_cons firstOf_append firstOf_eq_none entries_insert
  find_insert find_empty insert_fst mem_of_firstOf)
open IdMap (Failure ImportNode ExternalId ExternalIds IntegerIdMap)
open Record (Value)
open Results (bind_eq_ok_iff map_eq_ok_iff)

/-! ## Groups -/

/-- Every group has a number of its own, from one on. -/
structure Grouped (groups : Map String Int64) : Prop where
  numbers : ∀ entry ∈ groups.entries, 0 < entry.2.toInt ∧ entry.2.toInt ≤ groups.entries.length
  unique : (groups.entries.map Prod.snd).Nodup

section
variable {groups groups' : Map String Int64} {name name' : String} {number : Int64}

/-- A group has a positive number. -/
theorem Grouped.pos (h : Grouped groups) (hname : groups.find name = some number) :
    0 < number.toInt := (h.numbers _ (mem_of_firstOf hname)).1

/-- Groups have numbers of their own. -/
theorem Grouped.inj (h : Grouped groups) (hname : groups.find name = some number)
    (hname' : groups.find name' = some number) : name = name' :=
  congrArg Prod.fst
    (List.inj_on_of_nodup_map h.unique (mem_of_firstOf hname) (mem_of_firstOf hname') rfl)

theorem Grouped.ne_zero (h : Grouped groups) (hname : groups.find name = some number) :
    number ≠ 0 := by
  rintro rfl
  exact absurd (h.pos hname) (by decide)

/-- At first there are no groups. -/
theorem grouped_empty : Grouped .empty := ⟨fun _ hentry => (nomatch hentry), .nil⟩

/-- A group gets the next number, if it has none; the others keep theirs. -/
theorem groupOf_ok (h : Grouped groups) (hgroup : groupOf groups name = .ok (number, groups')) :
    Grouped groups' ∧ groups'.find name = some number ∧
      ∀ name' number', groups.find name' = some number' → groups'.find name' = some number' := by
  rw [groupOf] at hgroup
  cases hfind : groups.find name with
  | some found =>
      rw [hfind] at hgroup
      cases hgroup
      exact ⟨h, hfind, fun _ _ hname => hname⟩
  | none =>
      rw [hfind] at hgroup
      dsimp only at hgroup
      split at hgroup
      · cases hgroup
      · next hfits =>
          cases hgroup
          have hnumber :
              (Int64.ofNat (groups.entries.length + 1)).toInt = groups.entries.length + 1 :=
            Int64.toInt_ofNat_of_lt (by omega)
          have hnew := firstOf_eq_none.mp hfind
          have hentries := entries_insert groups name (.ofNat (groups.entries.length + 1))
          rw [if_neg hnew] at hentries
          refine ⟨⟨?_, ?_⟩, ?_, fun name' number' hname => ?_⟩
          · rw [hentries, List.length_append, List.length_singleton]
            intro entry hentry
            rw [List.mem_append, List.mem_singleton] at hentry
            rcases hentry with hentry | rfl
            · have hnumbers := h.numbers entry hentry
              omega
            · dsimp only
              omega
          · rw [hentries, List.map_append, List.map_singleton, ← List.concat_eq_append,
              List.nodup_concat]
            refine ⟨fun hmem => ?_, h.unique⟩
            obtain ⟨entry, hentry, heq⟩ := List.mem_map.mp hmem
            have hle := (h.numbers entry hentry).2
            rw [heq, hnumber] at hle
            omega
          · rw [find_insert, hfind, Option.none_or, firstOf_cons, if_pos rfl]
          · rw [find_insert, hname, Option.some_or]

end

/-! ## What is declared -/

/-- What a node declares in a STRING or INTEGER group. -/
def AcceptedNode.declares (n : AcceptedNode) : Option ((String × ExternalId) × ImportNode) :=
  if n.kind = .actual then none else n.declared.map fun id => ((n.group, id), n.node)

/-- The ids that nodes declare, with the nodes. -/
def Graph.declared (g : Graph) : List ((String × ExternalId) × ImportNode) :=
  g.nodes.filterMap AcceptedNode.declares

/-- An entry of a group by the number of the group. -/
def byNumber (groups : Map String Int64) (entry : (String × ExternalId) × ImportNode) :
    Option ((Int64 × ExternalId) × ImportNode) :=
  (groups.find entry.1.1).map fun number => ((number, entry.1.2), entry.2)

/-- The ids that nodes declare, by the numbers of the groups. -/
def Graph.numbered (g : Graph) (groups : Map String Int64) :
    List ((Int64 × ExternalId) × ImportNode) :=
  g.declared.filterMap (byNumber groups)

/-- The node of an internal id. -/
def Graph.nodeOf (g : Graph) (id : Int64) : Option ImportNode :=
  (firstOf g.content.node id).map fun labelGroup => ⟨id, labelGroup⟩

/-- What an id is answered with. The group 0 is that of the ACTUAL ids: these are the ids of the
nodes, once the nodes are in a table. -/
def Graph.answer (g : Graph) (groups : Map String Int64) (tables : Bool) (group : Int64)
    (id : ExternalId) : Option ImportNode :=
  if group = 0 then
    match id with
    | .integer id => if tables then g.nodeOf id else none
    | .string _ => none
  else firstOf (g.numbered groups) (group, id)

section
variable {g : Graph} {groups groups' : Map String Int64} {name : String} {number : Int64}

/-- By its number a group has the ids that it has by its name. -/
theorem firstOf_numbered (h : Grouped groups) (hname : groups.find name = some number)
    (id : ExternalId) :
    firstOf (g.numbered groups) (number, id) = firstOf g.declared (name, id) := by
  rw [Graph.numbered]
  induction g.declared with
  | nil => rfl
  | cons entry declared ih =>
      obtain ⟨⟨name', id'⟩, node⟩ := entry
      rw [List.filterMap_cons, firstOf_cons, byNumber]
      cases hname' : groups.find name' with
      | none =>
          have hne : ¬((name', id') = (name, id)) := by
            rintro ⟨⟩
            rw [hname] at hname'
            cases hname'
          rw [if_neg hne]
          exact ih
      | some number' =>
          have hiff : (number', id') = (number, id) ↔ (name', id') = (name, id) := by
            rw [Prod.mk.injEq, Prod.mk.injEq]
            refine and_congr_left fun _ => ⟨?_, ?_⟩
            · rintro rfl
              exact h.inj hname' hname
            · rintro rfl
              rw [hname] at hname'
              exact (Option.some.inj hname').symm
          dsimp only [Option.map_some]
          rw [firstOf_cons, ih]
          exact if_congr hiff rfl rfl

/-- More groups do not change what is declared. -/
theorem numbered_of_extends (hplaced : ∀ entry ∈ g.declared, (groups.find entry.1.1).isSome = true)
    (hextends : ∀ name number, groups.find name = some number → groups'.find name = some number) :
    g.numbered groups' = g.numbered groups := by
  refine List.filterMap_congr fun entry hentry => ?_
  obtain ⟨number, hnumber⟩ := Option.isSome_iff_exists.mp (hplaced entry hentry)
  rw [byNumber, byNumber, hnumber, hextends _ _ hnumber]

/-- A new node may declare an id. -/
theorem declared_addNode (g : Graph) (n : AcceptedNode) :
    (g.addNode n).declared = g.declared ++ n.declares.toList := by
  rw [Graph.declared, Graph.addNode, List.filterMap_append]
  cases hdeclares : n.declares with
  | none => rw [List.filterMap_cons_none hdeclares]; rfl
  | some entry => rw [List.filterMap_cons_some hdeclares]; rfl

/-- The declaration comes under the number of its group. -/
theorem numbered_addNode (g : Graph) (groups : Map String Int64) (n : AcceptedNode) :
    (g.addNode n).numbered groups =
      g.numbered groups ++ (n.declares.bind (byNumber groups)).toList := by
  rw [Graph.numbered, declared_addNode, List.filterMap_append]
  cases n.declares with
  | none => rfl
  | some entry =>
      rw [Option.toList_some, Option.bind_some]
      cases hentry : byNumber groups entry with
      | none => rw [List.filterMap_cons_none hentry]; rfl
      | some numbered => rw [List.filterMap_cons_some hentry]; rfl

/-- A new node is found by its id, unless there is an earlier one. -/
theorem nodeOf_addNode (g : Graph) (n : AcceptedNode) (id : Int64) :
    (g.addNode n).nodeOf id = (g.nodeOf id).or (if n.node.id = id then some n.node else none) := by
  rw [Graph.nodeOf, Graph.nodeOf, Graph.content, Graph.addNode]
  dsimp only [Graph.content]
  rw [List.map_append, firstOf_append, List.map_singleton, firstOf_cons, firstOf_nil]
  cases firstOf (g.nodes.map fun n => (n.node.id, n.node.labelGroup)) id with
  | some labelGroup => rfl
  | none =>
      rw [Option.none_or]
      by_cases hid : n.node.id = id
      · rw [if_pos hid, if_pos hid, ← hid]
        rfl
      · rw [if_neg hid, if_neg hid]
        rfl

theorem answer_zero (g : Graph) (groups : Map String Int64) (tables : Bool) (id : Int64) :
    g.answer groups tables 0 (.integer id) = if tables then g.nodeOf id else none := rfl

/-- In a group an id is answered with the node that declared it first. -/
theorem answer_of_ne_zero {group : Int64} (hgroup : group ≠ 0) (g : Graph)
    (groups : Map String Int64) (tables : Bool) (id : ExternalId) :
    g.answer groups tables group id = firstOf (g.numbered groups) (group, id) := if_neg hgroup

/-- A node changes no answer that there is. -/
theorem answer_addNode {tables : Bool} {group : Int64} {id : ExternalId} {node : ImportNode}
    (n : AcceptedNode) (h : g.answer groups tables group id = some node) :
    (g.addNode n).answer groups tables group id = some node := by
  by_cases hgroup : group = 0
  · subst hgroup
    cases id with
    | string id => cases h
    | integer id =>
        cases tables with
        | false => cases h
        | true =>
            rw [answer_zero, if_pos rfl] at h ⊢
            rw [nodeOf_addNode, h, Option.some_or]
  · rw [answer_of_ne_zero hgroup] at h ⊢
    rw [numbered_addNode, firstOf_append, h, Option.some_or]

end

/-! ## The ids -/

/-- The map and the table have the nodes of the ids. -/
structure Ids.Know (ids : Ids) (named : Int64 → ExternalId → Option ImportNode) (started : Bool) :
    Prop where
  strings : ∀ group id, ids.externalIds.find (group, .string id) = named group (.string id)
  unsealed : started = false → ∃ m, ids.integerIds.Stands ids.externalIds m ∧
    ∀ group id, m.find (group, id) = named group (.integer id)
  sealed : started = true → ∀ group id,
    ids.integerIds.resolve ids.externalIds group id = .ok (named group (.integer id))

/-- A kind of ids and an id of it. -/
def Fits (kind : ImportIdType) : ExternalId → Prop
  | .integer _ => kind ≠ .string
  | .string _ => kind = .string

/-- An external id fits the type of its group. -/
theorem externalId_fits {row : Row} {columns : List Nat} {kind : ImportIdType} {id : ExternalId}
    (h : externalId row columns kind = .ok (some id)) : Fits kind id := by
  have hcomposite : ∀ {columns : List Nat}, (if kind ≠ .string then fail .compositeId
      else do
        let texts ← columns.mapM fun column => idText (cell row column)
        .ok (some (ExternalId.string (String.join texts)))) = .ok (some id) → Fits kind id := by
    intro columns h
    split at h
    · cases h
    · next hkind =>
        obtain ⟨texts, -, h⟩ := bind_eq_ok_iff.mp h
        cases h
        exact not_not.mp hkind
  unfold externalId at h
  split at h
  · cases h
  · cases columns with
    | nil => exact hcomposite h
    | cons column rest =>
        cases rest with
        | cons column' rest => exact hcomposite h
        | nil =>
            dsimp only at h
            split at h
            · obtain ⟨text, -, h⟩ := map_eq_ok_iff.mp h
              cases h
              rfl
            · split at h
              · cases h
                exact (by decide : ImportIdType.integer ≠ .string)
              · split at h
                · cases h
                  exact (by decide : ImportIdType.integer ≠ .string)
                · cases h
              · cases h
            · split at h
              · cases h
                exact (by decide : ImportIdType.actual ≠ .string)
              · split at h
                · cases h
                  exact (by decide : ImportIdType.actual ≠ .string)
                · cases h
              · cases h

section
variable {env : Environment} {ids : Ids} {kind : ImportIdType} {group : Int64}
  {external : Option ExternalId} {node : ImportNode}
    {named : Int64 → ExternalId → Option ImportNode}

/-- What a row declares by the number of its group. -/
def declares (kind : ImportIdType) (group : Int64) (external : Option ExternalId)
    (node : ImportNode) : Option ((Int64 × ExternalId) × ImportNode) :=
  if kind = .actual then none else external.map fun id => ((group, id), node)

/-- What is named with what a row declares, if that is new. -/
def nameOf (named : Int64 → ExternalId → Option ImportNode)
    (entry : Option ((Int64 × ExternalId) × ImportNode)) (group : Int64) (id : ExternalId) :
    Option ImportNode :=
  (named group id).or (firstOf entry.toList (group, id))

theorem nameOf_none (named : Int64 → ExternalId → Option ImportNode) :
    nameOf named none = named := by
  funext group id
  rw [nameOf, Option.toList_none, firstOf_nil, Option.or_none]

/-- What a row declares of an id that is known is nothing new. -/
theorem nameOf_of_isSome {entry : (Int64 × ExternalId) × ImportNode}
    (h : (named entry.1.1 entry.1.2).isSome = true) : nameOf named (some entry) = named := by
  funext group id
  rw [nameOf, Option.toList_some, firstOf_cons]
  by_cases heq : entry.1 = (group, id)
  · rw [heq] at h
    obtain ⟨node, hnode⟩ := Option.isSome_iff_exists.mp h
    dsimp only at hnode
    rw [hnode, Option.some_or]
  · rw [if_neg heq, firstOf_nil, Option.or_none]

/-- The id of a row is new if it was not known, and known afterwards. -/
theorem Ids.Know.declare (h : ids.Know named false) (hgroup : 0 ≤ group.toInt) {new : Bool}
    {ids' : Ids}
    (hdeclare : ids.declare env kind group external node = .ok (new, ids')) :
    ids'.Know (nameOf named (declares kind group external node)) false ∧
      ids'.idCache = ids.idCache ∧
      (new = true ↔
        ∀ entry ∈ declares kind group external node, named entry.1.1 entry.1.2 = none) := by
  unfold Ids.declare at hdeclare
  rw [declares]
  by_cases hactual : kind = .actual
  · rw [if_pos hactual] at hdeclare ⊢
    cases hdeclare
    rw [nameOf_none]
    exact ⟨h, rfl, fun _ _ hentry => (nomatch hentry), fun _ => rfl⟩
  · rw [if_neg hactual] at hdeclare ⊢
    cases external with
    | none =>
        cases hdeclare
        rw [Option.map_none, nameOf_none]
        exact ⟨h, rfl, fun _ _ hentry => (nomatch hentry), fun _ => rfl⟩
    | some id =>
        have hname : ∀ group' id', nameOf named (some ((group, id), node)) group' id' =
            (named group' id').or (if (group, id) = (group', id') then some node else none) := by
          intro group' id'
          rw [nameOf, Option.toList_some, firstOf_cons, firstOf_nil]
        have hforall : ∀ {p : Prop}, (p ↔ named group id = none) →
            (p ↔ ∀ entry ∈ some ((group, id), node), named entry.1.1 entry.1.2 = none) := by
          intro p hp
          rw [hp]
          exact ⟨by rintro hnone _ ⟨⟩; exact hnone, fun hall => hall _ rfl⟩
        rw [Option.map_some]
        cases id with
        | integer id =>
            obtain ⟨m, hstands, hfind⟩ := h.unsealed rfl
            obtain ⟨m', table', hinsert, hstands', hstrings⟩ :=
              hstands.insert env.platform hgroup id node
            obtain ⟨⟨new', integerIds, externalIds⟩, hids, hdeclare⟩ := bind_eq_ok_iff.mp hdeclare
            rw [hinsert] at hids
            cases hids
            cases hdeclare
            refine ⟨⟨fun group' id' => ?_, fun _ => ⟨_, hstands', fun group' id' => ?_⟩,
              nofun⟩, rfl,
              hforall ?_⟩
            · rw [hname, if_neg fun heq => (nomatch heq), Option.or_none, ← h.strings]
              exact hstrings group' id'
            · rw [hname, find_insert, hfind, firstOf_cons, firstOf_nil]
              refine congrArg _ (if_congr ?_ rfl rfl)
              rw [Prod.mk.injEq, Prod.mk.injEq, ExternalId.integer.injEq]
            · rw [insert_fst, hfind, Option.isNone_iff_eq_none]
        | string id =>
            have hfind := find_insert ids.externalIds (group, .string id)
            have hfst := insert_fst ids.externalIds (group, .string id) node
            dsimp only at hdeclare
            generalize hinserted : ids.externalIds.insert (group, .string id) node = inserted
              at hdeclare hfst
            obtain ⟨new', externalIds⟩ := inserted
            cases hdeclare
            have hfind' : ∀ key, externalIds.find key =
                (ids.externalIds.find key).or (firstOf [((group, .string id), node)] key) := by
              intro key
              rw [← find_insert, hinserted]
            refine ⟨⟨fun group' id' => ?_, fun _ => ?_, nofun⟩, rfl, hforall ?_⟩
            · dsimp only
              rw [hname, hfind', h.strings, firstOf_cons, firstOf_nil]
            · obtain ⟨m, hstands, hfindm⟩ := h.unsealed rfl
              refine ⟨m, hstands.frame fun group' id' => ?_, fun group' id' => ?_⟩
              · rw [hfind', firstOf_cons, if_neg fun heq => (nomatch heq), firstOf_nil,
                  Option.or_none]
              · rw [hname, if_neg fun heq => (nomatch heq), Option.or_none]
                exact hfindm group' id'
            · dsimp only at hfst
              rw [hfst, h.strings, Option.isNone_iff_eq_none]

/-- The ids are sealed when the relationships start. -/
theorem Ids.Know.seal (h : ids.Know named false) :
    ∃ integerIds externalIds, ids.integerIds.seal ids.externalIds = .ok (integerIds, externalIds) ∧
      ({ ids with integerIds, externalIds } : Ids).Know named true := by
  obtain ⟨m, hstands, hfind⟩ := h.unsealed rfl
  obtain ⟨integerIds, externalIds, hseal, hresolve, hstrings⟩ := hstands.seal
  refine ⟨integerIds, externalIds, hseal, fun group id => ?_, nofun, fun _ group id => ?_⟩
  · exact (hstrings group id).trans (h.strings group id)
  · rw [← hfind]
    exact hresolve group id

end

end Velr.Native
