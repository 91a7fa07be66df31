import Velr.PageWriter.Levels

/-!
# The packed tree

`tree` as a whole: whatever other writers do, a tree that is written without an error reads back,
from the pages its writer has written, as the records of the stream in their order, and no call
panics. The errors that remain are those of the source, of file operations, of a root that is not
the writer's, and of page numbers that have run out.
-/

namespace Velr

open ByteString Interleaving Format

namespace Writer

open Method

section
variable {faults : Prop} {kind : Kind} {w : Writer} {l : Ledger} {root : Nat}

/-! ## The levels -/

/-- A tree behind earlier appends is a tree. -/
theorem Planted.after {w₁ w' : Writer} {l₁ l' : Ledger} {records : List Record}
    (hadv : w.Advances l w₁ l₁) (h : Planted w₁ l₁ root kind records w' l') :
    Planted w l root kind records w' l' := by
  obtain ⟨⟨l₂, bytes, hadv₂, hwrite⟩, haccepts, hreads⟩ := h
  rw [hadv.same.pageSize] at hreads
  exact ⟨⟨l₂, bytes, hadv.trans hadv₂, hwrite⟩, haccepts, hreads⟩

/-- A failure behind earlier appends is one. -/
theorem LevelFailed.after {w₁ w' : Writer} {l₁ : Ledger} {fault : Fault}
    (hadv : w.Advances l w₁ l₁) (h : LevelFailed faults w₁ root w' fault) :
    LevelFailed faults w root w' fault :=
  h.imp_right fun ⟨hpanic, hrejects⟩ => ⟨hpanic, fun ha => hrejects (ha.advances hadv)⟩

/-- The rows get shorter, so the rounds suffice. -/
theorem levels_ensures : ∀ {rounds height : Nat} {init : List Span} {last : Span} {w : Writer}
    {l : Ledger}, init.length < rounds → w.Ready l → l.roots root →
    Row w.pageSize kind l.view height init last →
    Ensures (protocol faults) (levels root kind rounds ((init ++ [last]).map Span.child)) w l
      (fun _ w' l' => Planted w l root kind (contents init ++ last.records) w' l')
      (fun fault w' _ => LevelFailed faults w root w' fault)
  | 0, _, _, _, _, _, hrounds, _, _, _ => absurd hrounds (Nat.not_lt_zero _)
  | rounds + 1, height, init, last, w, l, hrounds, h, hroot, hrow => by
      rw [levels]
      refine (level_ensures h hroot hrow).bind ?_ fun _ _ _ he => he
      rintro (_ | next) w₁ l₁ hlevel
      · exact hlevel
      · obtain ⟨hadv, init', last', rfl, hrow', hcontents, hshorter⟩ := hlevel
        have hroot' : l₁.roots root := hadv.roots ▸ hroot
        rw [← hadv.same.pageSize] at hrow'
        refine (levels_ensures (by omega) hadv.ready hroot' hrow').mono ?_
          fun _ _ _ he => he.after hadv
        rintro ⟨⟩ w₂ l₂ hplanted
        rw [hcontents] at hplanted
        exact hplanted.after hadv

/-! ## Claiming the root -/

/-- The writer is a coordinator with dynamic allocation: it claims the roots of its trees. -/
def Claims (w : Writer) : Prop := w.allocator.isSome = true ∧ w.dynamicWorker = false

/-- A writer is ready behind the claim of a new root. -/
theorem Ready.claim (h : w.Ready l) (hroot : ¬ l.Has root) : w.Ready (l.claim root) :=
  { h with wf := h.wf.claim hroot }

/-- Why a tree fails before its first page. -/
def ClaimFailed (faults : Prop) (w : Writer) (root : Nat) (fault : Fault) : Prop :=
  fault.isPanic = false ∧ (faults ∨ ¬ w.Accepts root ∨ w.Claims ∧ fault = claimedRoot)

/-- `tree` may start: its root can be claimed, or was given, or it is refused at once. -/
def Startable (w : Writer) (l : Ledger) (root : Nat) : Prop :=
  w.Claims ∨ l.roots root ∨ w.allocator.isSome = true ∧ w.assignedRoot.any (· ≠ root) = true

/-- A tree claims its root, or the root was its own. -/
theorem claimTree_ensures (h : w.Ready l) (hroot : w.Startable l root) :
    Ensures (protocol faults) (claimTree root) w l
      (fun _ w' l' => w' = w ∧ (l' = l ∨ ¬ l.Has root ∧ l' = l.claim root) ∧ l'.roots root)
      (fun fault _ _ => ClaimFailed faults w root fault) := by
  simp only [claimTree, ensures_bind, ensures_get]
  cases ha : w.allocator with
  | none =>
      have hroot' : l.roots root := by simpa [Startable, Claims, ha] using hroot
      exact ⟨rfl, .inl rfl, hroot'⟩
  | some allocator =>
      simp only
      split
      · rename_i hassigned
        refine ⟨rfl, .inr (.inl fun haccepts => ?_)⟩
        obtain ⟨assigned, hsome, hne⟩ := (Option.any_eq_true _ _).mp hassigned
        simp [haccepts.1 assigned hsome] at hne
      · rename_i hassigned
        split
        · rename_i hworker
          have hroot' : l.roots root := by
            rcases hroot with hc | hroot | ⟨_, hother⟩
            · rw [hc.2] at hworker; cases hworker
            · exact hroot
            · exact absurd hother hassigned
          exact ⟨rfl, .inl rfl, hroot'⟩
        · rename_i hworker
          unfold claimRoot
          split
          · rename_i hbad
            refine ⟨rfl, .inr (.inl fun haccepts => ?_)⟩
            have hlimit := haccepts.2
            simp only [ha, Option.map_some, Option.getD_some] at hlimit
            omega
          · refine ensures_bind.mpr ((ensures_call _).mpr ⟨trivial, ?_⟩)
            rintro (fault | ⟨⟩) l' hanswer
            · obtain ⟨hfault, rfl⟩ := hanswer
              rcases hfault with ⟨hf, hp⟩ | rfl
              · exact ⟨hp, .inl hf⟩
              · refine ⟨rfl, .inr (.inr ⟨⟨by simp [ha], ?_⟩, rfl⟩)⟩
                exact Bool.eq_false_iff.mpr hworker
            · obtain ⟨hfresh, rfl⟩ := hanswer
              exact ⟨rfl, .inr ⟨hfresh, rfl⟩, .inr rfl⟩

/-! ## The tree -/

/-- Why a tree fails. -/
def TreeFailed (faults : Prop) (w : Writer) (kind : Kind) (root : Nat)
    (records : List (Except Fault Record)) (w' : Writer) (fault : Fault) : Prop :=
  LeavesFailed faults kind none records w' fault ∨ LevelFailed faults w root w' fault ∨
    ClaimFailed faults w root fault

/-- `tree` writes a tree over the records of the stream. -/
theorem tree_ensures {records : List (Except Fault Record)} (h : w.Ready l)
    (hroot : w.Startable l root)
    (hlen : ∀ record, .ok record ∈ records → Storable faults record.2) :
    Ensures (protocol faults) (tree root kind records) w l
      (fun _ w' l' => ∃ read : List Record, ∃ l₀, records = read.map .ok ∧
        (l₀ = l ∨ ¬ l.Has root ∧ l₀ = l.claim root) ∧ w.Ready l₀ ∧ l₀.roots root ∧
        Planted w l₀ root kind (read.map (keyed kind)) w' l')
      (fun fault w' _ => TreeFailed faults w kind root records w' fault) := by
  have hlow := w.pageSize.lower
  simp only [tree, ensures_bind]
  refine (claimTree_ensures h hroot).mono ?_ fun _ _ _ he => .inr (.inr he)
  rintro ⟨⟩ w l₀ ⟨rfl, hl₀, hroot₀⟩
  have hready₀ : w.Ready l₀ := by
    rcases hl₀ with rfl | ⟨hfresh, rfl⟩
    · exact h
    · exact h.claim hfresh
  refine ensures_scratch ?_ fun fault hf hp => .inl (.inl ⟨hp, .inl hf⟩)
  simp only [ensures_get]
  have hempty : Filling w.pageSize kind l₀.view (Page.new w.pageSize.bytes kind false) [] none []
      [] [] :=
    ⟨Page.new_holds (by omega) kind false, rfl, rfl, .nil, by simp, rfl, fun _ => rfl⟩
  refine (leaves_ensures hready₀ hempty (by simp) hlen).mono ?_ fun _ _ _ he => .inl he
  rintro ⟨page, children⟩ w₁ l₁ ⟨hadv₁, read, previous, spans, current, raws, rfl, hfill,
    hstarted, hcontents⟩
  have hroot₁ : l₁.roots root := hadv₁.roots ▸ hroot₀
  simp only [contents_nil, List.nil_append] at hcontents
  have hchildren := hfill.children
  simp only at hchildren
  subst hchildren
  by_cases hnone : (spans.map Span.child).length = 0
  · -- the only leaf is the root
    obtain rfl : spans = [] := by simpa using hnone
    rw [if_pos hnone]
    refine (root_ensures hroot₁).mono ?_ ?_
    · rintro ⟨⟩ w₂ l₂ ⟨rfl, rfl, haccepts⟩
      obtain ⟨hview, hwithin⟩ := Ledger.view_write hadv₁.ready.wf hroot₁
      refine ⟨read, l₀, rfl, hl₀, hready₀, hroot₀, ⟨_, _, hadv₁, rfl⟩, haccepts, 0, ?_⟩
      rw [← hcontents]
      exact readTree_leaf hfill.holds hfill.pageKind hfill.leaf
        (hfill.stored.imp fun _ _ hs => hs.within hwithin) hview (.inl rfl)
    · rintro fault w₂ l₂ ⟨hpanic, hf | hrejects⟩
      · exact .inl (.inl ⟨hpanic, .inl hf⟩)
      · exact .inr (.inl (.inr ⟨hpanic, fun ha => hrejects (ha.advances hadv₁)⟩))
  · -- the last leaf has no boundary
    have hspans : spans ≠ [] := by rintro rfl; simp at hnone
    rw [if_neg hnone]
    have hlength : (page.image 0).length = w₁.pageSize.bytes := by
      rw [hfill.holds.length_image, hadv₁.same.pageSize]
    refine (append_ensures hadv₁.ready hlength).bind ?_ fun _ _ _ he => .inl (.inl he.1)
    intro id w₂ l₂ hputs
    have hview₂ := view_within hputs.advances
    have hadv₂ := hadv₁.trans hputs.advances
    refine ensures_bind.mpr (ensures_scratch ?_ fun fault hf hp => .inl (.inl ⟨hp, .inl hf⟩))
    have hpage : id < 2 ^ 32 := by
      have := hputs.id_le
      simp only [u32Max] at this ⊢
      omega
    have hrow : Row w₂.pageSize kind l₂.view 0 spans ⟨⟨id, []⟩, current, []⟩ := by
      rw [hadv₂.same.pageSize]
      refine ⟨hspans, fun s hs => (hfill.closed s hs).within hview₂, ⟨hpage, ?_⟩, rfl, rfl⟩
      exact readTree_leaf hfill.holds hfill.pageKind hfill.leaf
        (hfill.stored.imp fun _ _ hs => hs.within hview₂) hputs.view (.inr (hstarted hspans))
    have hroot₂ : l₂.roots root := hputs.advances.roots ▸ hroot₁
    have hmap : spans.map Span.child ++ [⟨id, []⟩]
        = (spans ++ [(⟨⟨id, []⟩, current, []⟩ : Span)]).map Span.child := by simp
    rw [hmap]
    refine (levels_ensures (by simp) hadv₂.ready hroot₂ hrow).mono ?_
      fun _ _ _ he => .inr (.inl (he.after hadv₂))
    rintro ⟨⟩ w₃ l₃ hplanted
    refine ⟨read, l₀, rfl, hl₀, hready₀, hroot₀, ?_⟩
    simp only [hcontents] at hplanted
    exact hplanted.after hadv₂

/-! ## Every run -/

/-- Row ids in strict order are those of an increasing stream. -/
theorem increasing_of_pairwise : ∀ {records : List Record} {previous : Option Int64},
    (∀ last, previous = some last → ∀ record ∈ records, last < record.1) →
    (records.map Prod.fst).Pairwise (· < ·) → Increasing previous (records.map .ok)
  | [], _, _, _ => trivial
  | (rowid, bytes) :: records, previous, hlast, hsorted => by
      obtain ⟨hfirst, hrest⟩ := List.pairwise_cons.mp hsorted
      refine ⟨fun last h => hlast last h (rowid, bytes) (by simp), increasing_of_pairwise ?_ hrest⟩
      rintro _ ⟨⟩ record hmem
      exact hfirst _ (List.mem_map_of_mem hmem)

/-- The key of an index record does not matter. -/
theorem roomy_keyed {record : Record} : Roomy kind (keyed kind record) ↔ Roomy kind record := by
  cases kind <;> exact Iff.rfl

/-- In every run of `tree`, under any interleaving with other writers, either the tree is written,
and reads back from the written pages as exactly the records when each of their leaf cells has four
bytes or more, or the call returns an error for one of the reasons listed. It never panics. -/
theorem tree_reads_back {records : List Record} {w' : Writer} {l' : Ledger}
    {result : Except Fault Unit} (h : w.Ready l) (hroot : w.Claims ∨ l.roots root)
    (hlen : ∀ record ∈ records, record.2.length ≤ maxRecord)
    (hrun : Prog.Exec (protocol faults) (tree root kind (records.map .ok) w) l (result, w') l') :
    result = .ok () ∧ ((∀ record ∈ records, Roomy kind record) →
        ∃ height, readTree w.pageSize.bytes kind l'.view height true root
          = some (records.map (keyed kind))) ∨
      ∃ fault, result = .error fault ∧ fault.isPanic = false ∧
        (faults ∨ w'.Full ∨ w'.allocator.isSome ∧ fault = exhaustedSpace ∨ ¬ w.Accepts root ∨
          w.Claims ∧ fault = claimedRoot ∨
          kind = .table ∧ ¬ (records.map Prod.fst).Pairwise (· < ·)) := by
  have hlen' : ∀ record, (.ok record : Except Fault Record) ∈ records.map .ok →
      Storable faults record.2 := by
    intro record hmem
    obtain ⟨_, hmem', heq⟩ := List.mem_map.mp hmem
    cases heq
    have hle := hlen _ hmem'
    exact ⟨by simp only [maxRecord] at hle; omega, .inr hle⟩
  have hsafe := Prog.Safe.exec (tree_ensures h (hroot.imp_right .inl) hlen') hrun
  cases result with
  | ok u =>
      obtain ⟨read, l₀, hread, _, _, _, hplanted⟩ := hsafe
      have hinj : Function.Injective (Except.ok : Record → Except Fault Record) :=
        fun _ _ h => Except.ok.inj h
      obtain rfl := List.map_injective_iff.mpr hinj hread
      obtain ⟨height, hreads⟩ := hplanted.reads
      refine .inl ⟨rfl, fun hroomy => ⟨height, hreads fun record hrecord => ?_⟩⟩
      obtain ⟨original, horiginal, rfl⟩ := List.mem_map.mp hrecord
      exact roomy_keyed.mpr (hroomy original horiginal)
  | error fault =>
      refine .inr ⟨fault, rfl, ?_⟩
      rcases hsafe with (⟨hp, hf⟩ | hmem | ⟨rfl, hkind, hnot⟩) |
        (⟨hp, hf⟩ | ⟨hp, hrejects⟩) | ⟨hp, hf⟩
      · exact ⟨hp, by tauto⟩
      · simp at hmem
      · refine ⟨rfl, ?_⟩
        have : ¬ (records.map Prod.fst).Pairwise (· < ·) :=
          fun hsorted => hnot (increasing_of_pairwise (by simp) hsorted)
        tauto
      · exact ⟨hp, by tauto⟩
      · exact ⟨hp, by tauto⟩
      · exact ⟨hp, by tauto⟩

end

/-! ### A run without other writers -/

/-- A memory that grants nothing and fails nothing. -/
def quiet (_ : Unit) : (i : Access) → i.Answer × Unit
  | .claimRoot _ => (.error claimedRoot, ())
  | .grant _ _ => (.error exhaustedSpace, ())
  | .closeFree => (.ok [], ())
  | .loadFailed => (false, ())
  | .loadActive | .loadNext | .loadFreeCount => (0, ())
  | .storeFailed | .enter | .leave => ((), ())
  | .free _ | .write _ _ | .flush | .scratch | .setLen _ | .writeHeader _ => (.ok (), ())

/-- The same memory, with the ledger of its answers. -/
def recorder (l : Ledger) (i : Access) : i.Answer × Ledger :=
  ((quiet () i).1, match i with
    | .write page bytes => l.write page bytes
    | .free ranges => l.release ranges
    | .closeFree => l.take []
    | .loadNext => { l with next := some 0 }
    | .loadFreeCount => { l with freeCount := some 0 }
    | .writeHeader bytes => { l with header := some bytes }
    | _ => l)

/-- The answers of `recorder` follow the protocol. -/
theorem recorder_follows (l : Ledger) (i : Access) :
    (protocol False).answers l i (recorder l i).1 (recorder l i).2 := by
  cases i with
  | claimRoot root => exact ⟨.inr rfl, rfl⟩
  | grant allocator pages => exact ⟨rfl, rfl⟩
  | closeFree => exact ⟨⟨by simp, by simp [rangePages]⟩, by simp [rangePages], rfl⟩
  | write | free | loadNext | loadFreeCount | writeHeader | flush | scratch | setLen | loadFailed
  | storeFailed | loadActive | enter | leave => rfl

/-- So do those of `quiet`. -/
theorem quiet_follows (l : Ledger) (u : Unit) (i : Access) :
    ∃ l', (protocol False).answers l i (quiet u i).1 l' ∧ True :=
  ⟨(recorder l i).2, recorder_follows l i, trivial⟩

/-- A writer on a bootstrap of two pages of 512 bytes. -/
def smallWriter : Writer where
  header := List.replicate 100 0
  pageSize := ⟨512, by decide, by decide, by decide⟩
  nextPage := 3
  rangeEnd := none
  assignedRoot := none
  allocator := none
  dynamicWorker := false
  dynamicCompleted := false
  position := 2

/-- The run of `tree` alone on its root page 2, with the ledger that it leaves. -/
def smallTree (records : List Record) : (Except Fault Unit × Writer) × Ledger :=
  (tree 2 .table (records.map .ok) smallWriter).run recorder (.opened smallWriter)

/-- The run that `smallTree` computes is one of the protocol, if it succeeds. -/
theorem smallTree_runs (records : List Record) (h : (smallTree records).1.1 = .ok ()) :
    Prog.Exec (protocol False) (tree 2 .table (records.map .ok) smallWriter) (.opened smallWriter)
      (.ok (), (smallTree records).1.2) (smallTree records).2 := by
  have hrun := Prog.exec_run_ledger recorder_follows
    (tree 2 .table (records.map .ok) smallWriter) (.opened smallWriter)
  rw [← h]
  exact hrun

/-- Records for three leaves; the fourth one needs an overflow chain. -/
def smallRecords : List Record :=
  [(1, List.replicate 200 1), (2, List.replicate 200 2), (5, List.replicate 200 3),
    (7, List.replicate 1100 4), (9, List.replicate 200 5), (10, List.replicate 400 6)]

/-- The leaves are the pages 3, 6 and 7, the chain is that of the pages 4 and 5. -/
theorem tree_reads_back_small :
    Prog.Exec (protocol False) (tree 2 .table (smallRecords.map .ok) smallWriter)
      (.opened smallWriter) (.ok (), (smallTree smallRecords).1.2) (smallTree smallRecords).2 ∧
    (smallTree smallRecords).2.written.map Prod.fst = [3, 4, 5, 6, 7, 2] ∧
    ∃ height, readTree 512 .table (smallTree smallRecords).2.view height true 2
      = some smallRecords := by
  have hrun := smallTree_runs smallRecords (by decide +kernel)
  refine ⟨hrun, by decide +kernel, ?_⟩
  rcases tree_reads_back (opened_ready rfl rfl rfl) (.inr ⟨by decide, by decide⟩)
    (by decide +kernel) hrun with ⟨_, hreads⟩ | ⟨fault, hfault, _⟩
  · exact hreads (by decide +kernel)
  · cases hfault

/-- A record of one byte: its leaf cell of three bytes is written at the end of the page, where the
four bytes of a cell have no room. -/
theorem short_record_malformed :
    Prog.Exec (protocol False) (tree 2 .table ([(1, [7])].map .ok) smallWriter)
      (.opened smallWriter) (.ok (), (smallTree [(1, [7])]).1.2) (smallTree [(1, [7])]).2 ∧
    ∀ height, readTree 512 .table (smallTree [(1, [7])]).2.view height true 2 = none := by
  refine ⟨smallTree_runs _ (by decide +kernel), fun height => ?_⟩
  cases height with
  | zero => decide +kernel
  | succ height =>
      -- the page is no interior page
      have hpage : ((smallTree [(1, [7])]).2.view 2).bind (readNode 512 .table true) = none := by
        decide +kernel
      rw [readTree, Option.bind_eq_bind, Option.bind_eq_bind, ← Option.bind_assoc, hpage]
      rfl

end Writer

end Velr
