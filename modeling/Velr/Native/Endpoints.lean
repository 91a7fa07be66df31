import Velr.Native.Runs

/-!
# Endpoints

An endpoint of a STRING or INTEGER group is the node of the first accepted row that declared its id
there (`endpoints_resolved`): in every state of every import, for every sequence of lookups.
-/

namespace Velr.Native

open FirstWins (firstOf)
open IdMap (Failure ImportNode ExternalId exactPlatform)
open Record (Value)
open Results (bind_eq_ok_iff)

/-- An endpoint that is looked up: its group, with the number of it, and the id that a row has. -/
structure Endpoint where
  name : String
  group : Int64
  kind : ImportIdType
  external : Option ExternalId

/-- An endpoint of a group that has a number, by the cells of a row. -/
structure Endpoint.Of (e : Endpoint) (st : OfflineImport) : Prop where
  group : st.groups.find e.name = some e.group
  cells : ∃ row columns, externalId row columns e.kind = .ok e.external

/-- The lookups of some endpoints, one after the other. -/
def OfflineImport.lookupAll (st : OfflineImport) :
    List Endpoint → Except (Failure ImportError) (List (Option ImportNode) × OfflineImport)
  | [] => .ok ([], st)
  | e :: endpoints => do
      let (node, st) ← st.lookupNode e.group e.kind e.external
      let (nodes, st) ← st.lookupAll endpoints
      .ok (node :: nodes, st)

/-- The node that an endpoint of a STRING or INTEGER group should be. -/
def Graph.endpoint (g : Graph) (e : Endpoint) : Option ImportNode :=
  e.external.bind fun id => firstOf g.declared (e.name, id)

/-- The answer that an endpoint gets. -/
def Graph.answerTo (g : Graph) (st : OfflineImport) (e : Endpoint) : Option ImportNode :=
  e.external.bind (g.answer st.groups st.store.body.isNone (cachedGroup e.kind e.group))

section
variable {g : Graph} {b : Batch} {e : Endpoint}

/-- A declared id is answered with the node that declared it. -/
theorem Sound.answerTo_eq (h : Sound g b) (he : e.Of b.st) (hkind : e.kind ≠ .actual) :
    g.answerTo b.st e = g.endpoint e := by
  refine congrArg _ (funext fun id => ?_)
  rw [cachedGroup, if_neg hkind, answer_of_ne_zero (h.known.grouped.ne_zero he.group),
    firstOf_numbered h.known.grouped he.group]

/-- Each lookup of a sequence gets its answer, whatever those before it have left in the cache. -/
theorem Sound.lookupAll : ∀ {endpoints : List Endpoint} {b : Batch}, Sound g b →
    b.st.relationshipsStarted = true → (∀ e ∈ endpoints, e.Of b.st) →
    ∃ idCache, b.st.lookupAll endpoints =
        .ok (endpoints.map (g.answerTo b.st), { b.st with ids := { b.st.ids with idCache } }) ∧
      idCache.bytes ≤ idCache.limit
  | [], b, h, _, _ => ⟨b.st.ids.idCache, rfl, h.known.bytes⟩
  | e :: endpoints, b, h, hstarted, hendpoints => by
      rw [List.forall_mem_cons] at hendpoints
      obtain ⟨he, hendpoints⟩ := hendpoints
      obtain ⟨row, columns, hcells⟩ := he.cells
      have hfits : ∀ id ∈ e.external, Fits e.kind id :=
        fun id hid => externalId_fits (by rw [hcells, hid])
      obtain ⟨idCache, hlookup, h₁⟩ :=
        h.lookupNode hstarted (h.known.grouped.ne_zero he.group) hfits
      obtain ⟨idCache', hrest, hbytes⟩ := Sound.lookupAll h₁ hstarted fun e' he' =>
        ⟨(hendpoints e' he').group, (hendpoints e' he').cells⟩
      refine ⟨idCache', ?_, hbytes⟩
      rw [OfflineImport.lookupAll, hlookup]
      simp only [bind, Except.bind]
      rw [hrest]
      rfl

end

/-- In every state of an import the cache keeps its limit; once there are relationships, each lookup
of a sequence that is one in a STRING or INTEGER group finds the node of the first accepted row that
declared the id in the group; and an id of several columns is made of their texts. -/
theorem endpoints_resolved {env : Environment} {memoryBytes : Nat} {g : Graph} {st : OfflineImport}
    (h : Reached env memoryBytes g st) :
    st.ids.idCache.bytes ≤ st.ids.idCache.limit ∧
    (st.relationshipsStarted = true → ∀ endpoints : List Endpoint, (∀ e ∈ endpoints, e.Of st) →
      ∃ nodes st', st.lookupAll endpoints = .ok (nodes, st') ∧
        List.Forall₂ (fun e node => e.kind ≠ .actual → node = g.endpoint e) endpoints nodes ∧
        st'.ids.idCache.bytes ≤ st'.ids.idCache.limit) ∧
    ∀ (row : Row) (columns : List Nat) (texts : List String), 2 ≤ columns.length →
      (∃ column ∈ columns, cell row column ≠ .null) →
      columns.mapM (fun column => idText (cell row column)) = .ok texts →
        externalId row columns .string = .ok (some (.string (String.join texts))) := by
  obtain ⟨slots, hsound⟩ := reached_sound h
  refine ⟨hsound.known.bytes, fun hstarted endpoints hendpoints => ?_,
    fun row columns texts hcolumns hcells htexts => ?_⟩
  · obtain ⟨idCache, hlookup, hbytes⟩ := hsound.lookupAll hstarted hendpoints
    refine ⟨_, _, hlookup, ?_, hbytes⟩
    rw [List.forall₂_map_right_iff, List.forall₂_same]
    exact fun e he => hsound.answerTo_eq (hendpoints e he)
  · obtain ⟨column, hcolumn, hcell⟩ := hcells
    have hsome : ¬columns.all (cell row · = .null) = true := by
      rw [List.all_eq_true]
      exact fun hall => hcell (of_decide_eq_true (hall column hcolumn))
    unfold externalId
    rw [if_neg hsome]
    match columns, hcolumns with
    | first :: second :: rest, _ =>
        dsimp only
        rw [htexts]
        rfl

/-- Code that is not in the repository, for rows without blobs. -/
def plainEnvironment : Environment where
  platform := exactPlatform
  toJson _ := ""
  decodePropertyValue _ := none

/-- People with ids of two columns. -/
def samplePeople : NodeImportSpec where
  labels := ["Person"]
  idColumns := [0, 1]
  idGroup := "people"
  idType := .string
  labelColumns := []
  properties := []
  skipDuplicates := true

/-- Places, by number. -/
def samplePlaces : NodeImportSpec :=
  { samplePeople with
    labels := ["Place"], idColumns := [0], idGroup := "places", idType := .integer }

/-- Where the people live. -/
def sampleLives : RelationshipImportSpec where
  relationshipType := some "LIVES"
  typeColumn := none
  startColumns := [0, 1]
  startGroup := "people"
  endColumns := [2]
  endGroup := "places"
  idType := .string
  properties := []
  skipBadRelationships := true

/-- An import that skips a person, a place and a relationship. -/
def sampleImport : List Call :=
  [.nodes samplePeople
    [[.text "a", .text "b"], [.text "ab", .null], [.text "c", .text "d"]],
   .nodes samplePlaces [[.integer 7], [.text "7"]],
   .relationships sampleLives
    [[.text "a", .text "b", .integer 7], [.text "x", .text "y", .integer 7]]]

/-- A composite id, an integer id, and an endpoint that no row declared. -/
theorem endpoints_resolved_sample : ∃ g st,
    run plainEnvironment 0 sampleImport = .ok (g, st) ∧
    st.ids.idCache.bytes ≤ st.ids.idCache.limit ∧
    (∃ st', st.lookupAll [⟨"people", 1, .string, some (.string "ab")⟩,
        ⟨"places", 2, .integer, some (.integer 7)⟩, ⟨"people", 1, .string, some (.string "x")⟩] =
      .ok ([some ⟨1, 2⟩, some ⟨3, 3⟩, none], st')) ∧
    externalId [.text "a", .text "b"] [0, 1] .string = .ok (some (.string "ab")) := by
  have hfacts : (run plainEnvironment 0 sampleImport).map (fun (g, st) =>
      (st.relationshipsStarted, st.groups.find "people", st.groups.find "places", g.declared)) =
        .ok (true, some 1, some 2, [(("people", .string "ab"), ⟨1, 2⟩),
          (("people", .string "cd"), ⟨2, 2⟩), (("places", .integer 7), ⟨3, 3⟩)]) := by rfl
  cases hrun : run plainEnvironment 0 sampleImport with
  | error e =>
      rw [hrun] at hfacts
      cases hfacts
  | ok result =>
      obtain ⟨g, st⟩ := result
      rw [hrun] at hfacts
      simp only [Except.map, Except.ok.injEq, Prod.mk.injEq] at hfacts
      obtain ⟨hstarted, hpeople, hplaces, hdeclared⟩ := hfacts
      obtain ⟨hbytes, hlookups, hcomposite⟩ := endpoints_resolved (.calls hrun)
      refine ⟨g, st, rfl, hbytes, ?_, ?_⟩
      · obtain ⟨nodes, st', hlookup, hnodes, -⟩ := hlookups hstarted
          [⟨"people", 1, .string, some (.string "ab")⟩, ⟨"places", 2, .integer, some (.integer 7)⟩,
            ⟨"people", 1, .string, some (.string "x")⟩] (by
          rintro e he
          simp only [List.mem_cons, List.not_mem_nil, or_false] at he
          rcases he with rfl | rfl | rfl
          · exact ⟨hpeople, [.text "ab"], [0], rfl⟩
          · exact ⟨hplaces, [.integer 7], [0], rfl⟩
          · exact ⟨hpeople, [.text "x"], [0], rfl⟩)
        simp only [List.forall₂_cons_left_iff, List.forall₂_nil_left_iff, Graph.endpoint,
          hdeclared] at hnodes
        obtain ⟨_, _, hab, ⟨_, _, hseven, ⟨_, _, hx, rfl, rfl⟩, rfl⟩, rfl⟩ := hnodes
        refine ⟨st', hlookup.trans ?_⟩
        rw [hab (by decide), hseven (by decide), hx (by decide)]
        rfl
      · exact hcomposite _ [0, 1] ["a", "b"] (by decide) ⟨0, by decide, by decide⟩ rfl

end Velr.Native
