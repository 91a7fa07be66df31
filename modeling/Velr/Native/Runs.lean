import Velr.Native.Rows

/-!
# Runs of an import

What a call does before its rows and after them keeps the import sound as well, so every run does
(`run_sound`), and every state within one (`reached_sound`).
-/

namespace Velr.Native

open FirstWins (Map)
open IdMap (Failure IntegerIdMap)
open Results (bind_eq_ok_iff map_eq_ok_iff)

section
variable {env : Environment} {g : Graph} {st st' : OfflineImport} {rows : List Row}

/-- Between two batches nothing is left in slots. -/
theorem Sound.startBatch (h : Sound g ⟨st, []⟩) (properties : Nat) :
    Sound g ⟨st, .new properties⟩ where
  filed := h.filed
  known := h.known
  keys := h.keys
  shaped := h.shaped
  positive := positive_new properties h.positive.counts
  counted key := by
    have hcounted := h.counted key
    rw [Batch.counted] at hcounted ⊢
    rw [counted_new]
    exact (Nat.zero_add _).symm.trans hcounted

/-- The end of a batch. -/
theorem Sound.endBatch {b : Batch} (h : Sound g b) {shapeCounts : ShapeCounts}
    (hflush : flushSlots b.slots b.st.shapeCounts = .ok shapeCounts) (counts : ImportCounts)
    (properties : Nat) : Sound g ⟨{ b.st with shapeCounts, counts, properties }, []⟩ where
  filed := h.filed
  known := h.known
  keys := h.keys
  shaped := h.shaped
  positive := ⟨fun _ hrun => (nomatch hrun), flushSlots_positive h.positive hflush⟩
  counted key := by
    have hcounted := h.counted key
    rw [Batch.counted, ← flushSlots_counted hflush] at hcounted
    exact (Nat.zero_add _).trans hcounted

/-- The properties of valid columns have names of their own. -/
theorem validateColumns_ok {properties : List ImportPropertyColumn} {other : List Nat}
    (h : validateColumns rows properties other = .ok ()) : (properties.map (·.name)).Nodup := by
  obtain ⟨⟨⟩, hnames, -⟩ := bind_eq_ok_iff.mp h
  exact (validateNames_ok hnames).1

/-- Resolving a fixed label group keeps the property keys. -/
theorem fixedGroup_keys {names names' : Names} {spec : NodeImportSpec} {group : Option Int64}
    (h : names.fixedGroup env spec = .ok (group, names')) : names.SameKeys names' := by
  rw [Names.fixedGroup] at h
  split at h
  · obtain ⟨⟨id, names₁⟩, hgroup, heq⟩ := map_eq_ok_iff.mp h
    cases heq
    exact labelGroup_keys hgroup
  · cases h
    exact .refl _

/-- So does resolving a fixed type. -/
theorem fixedType_keys {names names' : Names} {name : Option String} {id : Option Int64}
    (h : names.fixedType name = .ok (id, names')) : names.SameKeys names' := by
  cases name with
  | none =>
      cases h
      exact .refl _
  | some name =>
      obtain ⟨⟨id', names₁⟩, htype, heq⟩ := map_eq_ok_iff.mp h
      cases heq
      exact edgeType_keys htype

theorem nodup_zip {properties : List ImportPropertyColumn} {keys : List Int64} (h : keys.Nodup) :
    ((properties.zip keys).map Prod.snd).Nodup := by
  refine h.sublist ?_
  induction properties generalizing keys with
  | nil => exact List.nil_sublist _
  | cons property properties ih =>
      cases keys with
      | nil => exact List.nil_sublist _
      | cons key keys => exact (ih h.of_cons).cons_cons key

/-! ## Calls -/

/-- What a call does before the rows of nodes. -/
theorem nodeBatch_sound {spec : NodeImportSpec} {batch : NodeBatch} (h : Sound g ⟨st, []⟩)
    (hbatch : st.nodeBatch env spec rows = .ok (batch, st')) :
    Sound g ⟨st', .new spec.properties.length⟩ ∧ (rows ≠ [] → batch.Open st') ∧ batch.spec = spec ∧
      st'.relationshipsStarted = st.relationshipsStarted ∧
      (st'.bodyDisabled = true ↔ st.bodyDisabled = true ∨ rows ≠ [] ∧ spec.idType = .actual) := by
  rw [OfflineImport.nodeBatch] at hbatch
  split at hbatch
  · cases hbatch
  next hstarted =>
  split at hbatch
  · cases hbatch
  obtain ⟨⟨⟩, hcolumns, hbatch⟩ := bind_eq_ok_iff.mp hbatch
  split at hbatch
  · cases hbatch
  obtain ⟨st₁, hprepare, hbatch⟩ := bind_eq_ok_iff.mp hbatch
  obtain ⟨groupIdTypes, -, hbatch⟩ := bind_eq_ok_iff.mp hbatch
  obtain ⟨⟨group, groups⟩, hgroup, hbatch⟩ := bind_eq_ok_iff.mp hbatch
  obtain ⟨⟨keys, names⟩, hkeys, hbatch⟩ := bind_eq_ok_iff.mp hbatch
  obtain ⟨⟨fixedGroup, names'⟩, hfixed, hbatch⟩ := bind_eq_ok_iff.mp hbatch
  cases hbatch
  rw [OfflineImport.prepareRows] at hprepare
  -- the store, as the rows find it
  have hready : Sound g ⟨st₁, []⟩ ∧ st₁.relationshipsStarted = st.relationshipsStarted ∧
      (rows ≠ [] → (spec.idType = .actual → st₁.store.body = none) ∧
        (st₁.store.body = none → st₁.bodyDisabled = true)) ∧
      (st₁.bodyDisabled = true ↔ st.bodyDisabled = true ∨ rows ≠ [] ∧ spec.idType = .actual) := by
    cases rows with
    | nil =>
        cases hprepare
        exact ⟨h, rfl, fun hne => absurd rfl hne, .inl,
          fun hor => hor.resolve_right fun hne => hne.1 rfl⟩
    | cons row rows =>
        obtain ⟨st₂, hprepare₂, hprepared, hfiled⟩ := h.filed.prepareBody spec.idType
        rw [List.isEmpty_cons, if_neg Bool.false_ne_true] at hprepare
        dsimp only at hprepare₂
        rw [hprepare₂] at hprepare
        cases hprepare
        obtain ⟨heq, htables, hdisabled, hrest, hmoved⟩ := hprepared
        have hne : row :: rows ≠ [] := List.cons_ne_nil _ _
        refine ⟨⟨hfiled, ?_, ?_, h.shaped, ?_, fun key => ?_⟩, ?_, fun _ => ⟨htables, hrest⟩, ?_⟩
        · have hknown := h.known.setTables hmoved
          rw [heq]
          exact hknown
        · rw [heq]
          exact h.keys
        · rw [heq]
          exact h.positive
        · rw [heq]
          exact h.counted key
        · rw [heq]
        · rw [hdisabled]
          exact or_congr_right (and_iff_right hne).symm
  obtain ⟨h₁, hstarted₁, hopen, hdisabled⟩ := hready
  obtain ⟨hknown, hfind, -⟩ := h₁.known.groupOf hgroup
  obtain ⟨hsound, hnodup⟩ := propertyKeys_ok h₁.keys (validateColumns_ok hcolumns) hkeys
  have hfinal : Sound g ⟨{ st₁ with groupIdTypes, groups, names := names' }, []⟩ :=
    ⟨h₁.filed, hknown, hsound.frame (fixedGroup_keys hfixed), h₁.shaped, h₁.positive, h₁.counted⟩
  refine ⟨hfinal.startBatch _, fun hrows => ?_, rfl, hstarted₁, hdisabled⟩
  refine ⟨nodup_zip hnodup, hfind, (hopen hrows).1, (hopen hrows).2, ?_⟩
  exact hstarted₁.trans (Bool.eq_false_iff.mpr hstarted)

/-- What a call does before the rows of relationships. -/
theorem relationshipBatch_sound {spec : RelationshipImportSpec} {batch : RelationshipBatch}
    (h : Sound g ⟨st, []⟩) (hbatch : st.relationshipBatch spec rows = .ok (batch, st')) :
    Sound g ⟨st', .new spec.properties.length⟩ ∧ (rows ≠ [] → batch.Open st') ∧
      st'.bodyDisabled = st.bodyDisabled := by
  rw [OfflineImport.relationshipBatch] at hbatch
  split at hbatch
  · cases hbatch
  split at hbatch
  · cases hbatch
  split at hbatch
  · cases hbatch
  split at hbatch
  · cases hbatch
  obtain ⟨⟨⟩, hcolumns, hbatch⟩ := bind_eq_ok_iff.mp hbatch
  obtain ⟨⟨startGroup, groups₁⟩, hstartGroup, hbatch⟩ := bind_eq_ok_iff.mp hbatch
  obtain ⟨⟨endGroup, groups₂⟩, hendGroup, hbatch⟩ := bind_eq_ok_iff.mp hbatch
  obtain ⟨st₁, hstart, hbatch⟩ := bind_eq_ok_iff.mp hbatch
  obtain ⟨⟨keys, names⟩, hkeys, hbatch⟩ := bind_eq_ok_iff.mp hbatch
  obtain ⟨⟨fixedType, names'⟩, hfixed, hbatch⟩ := bind_eq_ok_iff.mp hbatch
  cases hbatch
  obtain ⟨hknown₁, hfind₁, -⟩ := h.known.groupOf hstartGroup
  obtain ⟨hknown₂, hfind₂, hextends⟩ := hknown₁.groupOf hendGroup
  have hsealed : Sound g ⟨st₁, []⟩ ∧ st₁.groups = groups₂ ∧ st₁.names = st.names ∧
      st₁.bodyDisabled = st.bodyDisabled ∧ (rows ≠ [] → st₁.relationshipsStarted = true) := by
    have hgroups : Sound g ⟨{ st with groups := groups₂ }, []⟩ :=
      ⟨h.filed, hknown₂, h.keys, h.shaped, h.positive, h.counted⟩
    rw [OfflineImport.startRelationships] at hstart
    split at hstart
    · next hempty =>
        cases hstart
        exact ⟨hgroups, rfl, rfl, rfl, fun hne => absurd (List.isEmpty_iff.mp hempty) hne⟩
    · split at hstart
      · next hstarted =>
          cases hstart
          exact ⟨hgroups, rfl, rfl, rfl, fun _ => hstarted⟩
      · next hstarted =>
          have hunstarted : st.relationshipsStarted = false := Bool.eq_false_iff.mpr hstarted
          have hknown := hgroups.known
          dsimp only at hknown
          rw [hunstarted] at hknown
          obtain ⟨integerIds, externalIds, hseal, hknown'⟩ := hknown.seal
          dsimp only at hstart
          rw [hseal] at hstart
          cases hstart
          exact ⟨⟨h.filed, hknown', h.keys, h.shaped, h.positive, h.counted⟩, rfl, rfl, rfl,
            fun _ => rfl⟩
  obtain ⟨h₁, hgroups, hnames, hdisabled, hstarted⟩ := hsealed
  obtain ⟨hsound, hnodup⟩ := propertyKeys_ok h₁.keys (validateColumns_ok hcolumns) hkeys
  have hfinal : Sound g ⟨{ st₁ with names := names' }, []⟩ :=
    ⟨h₁.filed, h₁.known, hsound.frame (fixedType_keys hfixed), h₁.shaped, h₁.positive, h₁.counted⟩
  refine ⟨hfinal.startBatch _, fun hrows => ⟨nodup_zip hnodup, ?_, ?_, hstarted hrows⟩, hdisabled⟩
  · dsimp only
    rw [hgroups]
    exact hextends _ _ hfind₁
  · dsimp only
    rw [hgroups]
    exact hfind₂

/-- Whether a call is of ACTUAL nodes. -/
def Call.DisablesBody : Call → Prop
  | .nodes spec rows => rows ≠ [] ∧ spec.idType = .actual
  | .relationships _ _ => False

/-- A call keeps the import sound. -/
theorem step_sound {call : Call} {g' : Graph} (h : Sound g ⟨st, []⟩)
    (hstep : step env (g, st) call = .ok (g', st')) :
    Sound g' ⟨st', []⟩ ∧
      (st'.bodyDisabled = true ↔ st.bodyDisabled = true ∨ call.DisablesBody) := by
  cases call with
  | nodes spec rows =>
      obtain ⟨⟨outcomes, st₁⟩, hcall, heq⟩ := map_eq_ok_iff.mp hstep
      cases heq
      obtain ⟨⟨batch, st₂⟩, hbatch, hcall⟩ := bind_eq_ok_iff.mp hcall
      obtain ⟨⟨outcomes', b⟩, hrows, hcall⟩ := bind_eq_ok_iff.mp hcall
      obtain ⟨shapeCounts, hflush, hcall⟩ := bind_eq_ok_iff.mp hcall
      cases hcall
      obtain ⟨hsound, hopen, -, -, hdisabled⟩ := nodeBatch_sound h hbatch
      obtain ⟨hrowsSound, hkeeps, -⟩ := nodeRows_sound hsound hopen hrows
      refine ⟨hrowsSound.endBatch hflush _ _, ?_⟩
      dsimp only
      rw [hkeeps.bodyDisabled]
      exact hdisabled
  | relationships spec rows =>
      obtain ⟨⟨outcomes, st₁⟩, hcall, heq⟩ := map_eq_ok_iff.mp hstep
      cases heq
      obtain ⟨⟨batch, st₂⟩, hbatch, hcall⟩ := bind_eq_ok_iff.mp hcall
      obtain ⟨⟨outcomes', b⟩, hrows, hcall⟩ := bind_eq_ok_iff.mp hcall
      obtain ⟨shapeCounts, hflush, hcall⟩ := bind_eq_ok_iff.mp hcall
      cases hcall
      obtain ⟨hsound, hopen, hdisabled⟩ := relationshipBatch_sound h hbatch
      obtain ⟨hrowsSound, hkeeps⟩ := relationshipRows_sound hsound hopen hrows
      refine ⟨hrowsSound.endBatch hflush _ _, ?_⟩
      dsimp only
      rw [hkeeps.bodyDisabled, hdisabled]
      exact (or_iff_left id).symm

end

/-! ## Runs -/

section
variable {env : Environment} {memoryBytes : Nat} {calls : List Call} {g : Graph}
    {st : OfflineImport}

/-- A new import is sound, with an empty graph. -/
theorem create_sound (memoryBytes : Nat) : Sound ⟨[], []⟩ ⟨.create memoryBytes, []⟩ where
  filed := filed_empty rfl (.inl rfl) _ _
  known :=
    { grouped := grouped_empty
      placed := fun _ hentry => nomatch hentry
      know :=
        { strings := fun _ _ => rfl
          unsealed := fun _ => ⟨.empty, IdMap.stands_new _ fun _ _ => rfl, fun _ _ => rfl⟩
          sealed := nofun }
      cache := fun _ id _ hget => by cases id <;> cases hget
      bytes := Nat.zero_le _ }
  keys := ⟨fun _ _ => ⟨nofun, fun hrow => nomatch hrow⟩, (by decide : (0 : Int) ≤ Tables.maxRowid)⟩
  shaped := ⟨fun _ hn => (nomatch hn), fun _ he => (nomatch he)⟩
  positive := ⟨fun _ hrun => (nomatch hrun), fun _ _ hfind => (nomatch hfind),
    fun _ _ hfind => (nomatch hfind)⟩
  counted _ := rfl

/-- Calls from a state on keep it sound. -/
theorem foldlM_sound : ∀ {calls : List Call} {g g' : Graph} {st st' : OfflineImport},
    Sound g ⟨st, []⟩ → calls.foldlM (step env) (g, st) = .ok (g', st') →
    Sound g' ⟨st', []⟩ ∧
      (st'.bodyDisabled = true ↔ st.bodyDisabled = true ∨ ∃ call ∈ calls, call.DisablesBody)
  | [], g, g', st, st', h, hrun => by
      cases hrun
      exact ⟨h, .inl, fun hor => hor.resolve_right fun ⟨_, hcall, _⟩ => nomatch hcall⟩
  | call :: calls, g, g', st, st', h, hrun => by
      rw [List.foldlM_cons] at hrun
      obtain ⟨⟨g₁, st₁⟩, hstep, hrest⟩ := bind_eq_ok_iff.mp hrun
      obtain ⟨h₁, hdisabled₁⟩ := step_sound h hstep
      obtain ⟨h', hdisabled⟩ := foldlM_sound h₁ hrest
      refine ⟨h', ?_⟩
      rw [hdisabled, hdisabled₁, or_assoc, List.exists_mem_cons_iff]

/-- A run is sound for the rows that were accepted; its spools are given up with the first rows of
ACTUAL nodes. -/
theorem run_sound (h : run env memoryBytes calls = .ok (g, st)) :
    Sound g ⟨st, []⟩ ∧ (st.bodyDisabled = true ↔ ∃ call ∈ calls, call.DisablesBody) := by
  obtain ⟨hsound, hdisabled⟩ := foldlM_sound (create_sound memoryBytes) h
  refine ⟨hsound, hdisabled.trans ⟨fun hor => ?_, .inr⟩⟩
  exact hor.resolve_left Bool.false_ne_true

/-- So is every state within a run. -/
theorem reached_sound (h : Reached env memoryBytes g st) : ∃ slots, Sound g ⟨st, slots⟩ := by
  cases h with
  | calls hrun => exact ⟨[], (run_sound hrun).1⟩
  | @nodes calls g₀ st₀ st₁ spec rows front back batch outcomes b hrun hsplit hbatch hrows =>
      obtain ⟨hsound, hopen, -, -, -⟩ := nodeBatch_sound (run_sound hrun).1 hbatch
      refine ⟨b.slots, (nodeRows_sound hsound (fun hne => hopen ?_) hrows).1⟩
      rw [hsplit]
      exact List.append_ne_nil_of_left_ne_nil hne _
  | @relationships calls g₀ st₀ st₁ spec rows front back batch outcomes b hrun hsplit
      hbatch hrows =>
      obtain ⟨hsound, hopen, -⟩ := relationshipBatch_sound (run_sound hrun).1 hbatch
      refine ⟨b.slots, (relationshipRows_sound hsound (fun hne => hopen ?_) hrows).1⟩
      rw [hsplit]
      exact List.append_ne_nil_of_left_ne_nil hne _

end

end Velr.Native
