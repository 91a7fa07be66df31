import Mathlib.Data.List.Perm.Subperm
import Velr.Common.Collecting
import Velr.Format.Freelist
import Velr.Validation.Ownership

/-!
# What the ownership check accepts

The pages that a file refers to: the page of the pending byte, the trunks and leaves of its
freelist, and of each tree the pages with their overflow chains. The check succeeds exactly if these
are the pages of the file, each once (`raw_page_ownership_exact`).
-/

namespace Velr.Validation

open ByteString
open Collecting (Collects Policy)
open Format (View readTrunk readFreelist)
open IndexStats (Failure)
open Reading (Read LawfulRead File)

/-! ## The references of a file -/

/-- The pages of a file. -/
def pageView (header : Header) (bytes : Bytes) : View := fun page =>
  if 1 ≤ page ∧ page ≤ header.pages then
    some (slice bytes ((page - 1) * header.pageSize) header.pageSize)
  else none

/-- The freelist that starts at a trunk, whatever the number of its trunks. -/
def FreePages (header : DatabaseHeader) (bytes : Bytes) (trunk : Nat) (free : List Nat) : Prop :=
  ∃ trunks, readFreelist header.usableSize (pageView header.toHeader bytes) trunks trunk =
    some (free, 0)

/-- The `count` pages of the overflow chain that starts at `page`; the last one names no next. -/
def chainPages (view : View) : Nat → Nat → Option (List Nat)
  | 0, _ => some []
  | count + 1, page => do
      let bytes ← view page
      let next := ofBE (slice bytes 0 4)
      if count = 0 ∧ next ≠ 0 then none
      else do
        let rest ← chainPages view count next
        some (page :: rest)

/-- The children of a page and its overflow chains. The first page begins with the 100 bytes of the
header of the file. -/
def pageLinks (usable : Nat) (view : View) (page : Nat) : Option (List Nat × List (Nat × Nat)) := do
  let bytes ← view page
  linksOf usable (if page = 1 then 100 else 0) (bytes.take usable)

/-- The pages of a tree of at most so many levels: the root, its overflow chains, its subtrees. -/
def treePages (usable : Nat) (view : View) : Nat → Nat → Option (List Nat)
  | 0, _ => none
  | levels + 1, page => do
      let (children, overflows) ← pageLinks usable view page
      let chains ← overflows.mapM fun chain => chainPages view chain.2 chain.1
      let trees ← children.mapM (treePages usable view levels)
      some (page :: chains.flatten ++ trees.flatten)

/-- `refs` are the pages that a file refers to, with the roots of its schema `roots`: the page of
the pending byte, as many free pages as the header counts, the trees. -/
def References (header : DatabaseHeader) (bytes : Bytes) (roots refs : List Nat) : Prop :=
  ∃ free trees, FreePages header bytes header.firstFree free ∧
    free.length = header.freePages ∧
    (1 :: roots).mapM (treePages header.usableSize (pageView header.toHeader bytes) maxTreeDepth) =
      some trees ∧
    refs = reservedPage header ++ free ++ trees.flatten

/-! ## Headers that are accepted -/

/-- What `Header::read` leaves of a file. -/
structure DatabaseHeader.Reads (header : DatabaseHeader) (bytes : Bytes) : Prop where
  valid : header.toHeader.Valid
  length : bytes.length = header.pages * header.pageSize
  least : 257 ≤ header.usableSize
  most : header.usableSize ≤ header.pageSize
  pos : 0 < header.pages

theorem ofBE_lt (bytes : Bytes) : ofBE bytes < 256 ^ bytes.length := by
  induction bytes using List.reverseRecOn with
  | nil => decide
  | append_singleton bytes byte ih =>
      have hbyte := byte.toNat_lt
      rw [ofBE_concat, List.length_append, List.length_singleton, Nat.pow_succ]
      omega

theorem ofBE_slice_lt (bytes : Bytes) (i n : Nat) : ofBE (slice bytes i n) < 256 ^ n := by
  refine Nat.lt_of_lt_of_le (ofBE_lt _) (Nat.pow_le_pow_right (by decide) ?_)
  rw [slice, List.length_take]
  exact Nat.min_le_left _ _

/-- A header that is accepted is valid, and the file has its pages. -/
theorem DatabaseHeader.parse_eq_ok {first : Bytes} {length : Nat} {header : DatabaseHeader}
    (h : DatabaseHeader.parse first length = .ok header) :
    header.toHeader.Valid ∧ length = header.pages * header.pageSize ∧ 257 ≤ header.usableSize ∧
      header.usableSize ≤ header.pageSize ∧ 0 < header.pages := by
  rw [DatabaseHeader.parse] at h
  dsimp only at h
  generalize hsize : (if ofBE (slice first 16 2) = 1 then 65536 else ofBE (slice first 16 2)) =
    pageSize at h
  split at h
  case isTrue => cases h
  case isFalse =>
    split at h
    case isTrue => cases h
    case isFalse hpage =>
      split at h
      case isTrue => cases h
      case isFalse hpages =>
        rw [not_or, not_not, not_not] at hpage
        rw [not_or, not_not] at hpages
        have hreserved := ofBE_slice_lt first 20 1
        cases h
        refine ⟨⟨hpage.1.1, hpage.1.2, hpage.2, ofBE_slice_lt first 28 4⟩, hpages.2, ?_, ?_, ?_⟩
        · dsimp only
          omega
        · exact Nat.sub_le _ _
        · exact Nat.pos_of_ne_zero hpages.1

/-- A header is parsed from the first bytes of the file, in whatever pieces they are read. -/
theorem DatabaseHeader.read_open (bytes : Bytes) (short : Nat → Nat) :
    DatabaseHeader.read (.open bytes short) =
      if bytes.length < 100 then .error (problem "failed to fill whole buffer")
      else DatabaseHeader.parse (bytes.take 100) bytes.length := by
  have hcontents := LawfulRead.contents_readExact (File.open bytes short) 100
  rw [DatabaseHeader.read]
  rcases hread : Read.readExact (File.open bytes short) 100 with ⟨got, file⟩
  rw [hread] at hcontents
  have hfile : file.bytes = bytes := hcontents
  by_cases hlt : bytes.length < 100
  · rw [if_pos hlt]
    have hnone := LawfulRead.readExact_of_lt (r := File.open bytes short) (n := 100) hlt
    rw [hread] at hnone
    dsimp only at hnone
    subst hnone
    rfl
  · rw [if_neg hlt]
    obtain ⟨hsome, -⟩ := LawfulRead.readExact_of_le (r := File.open bytes short) (n := 100)
      (Nat.le_of_not_lt hlt)
    rw [hread] at hsome
    dsimp only at hsome
    subst hsome
    dsimp only
    rw [hfile]
    rfl

/-- A header that is read is that of the file. -/
theorem DatabaseHeader.reads {bytes : Bytes} {short : Nat → Nat} {header : DatabaseHeader}
    (h : DatabaseHeader.read (.open bytes short) = .ok header) : header.Reads bytes := by
  rw [DatabaseHeader.read_open] at h
  split at h
  case isTrue => cases h
  case isFalse =>
    obtain ⟨hvalid, hlength, hleast, hmost, hpos⟩ := DatabaseHeader.parse_eq_ok h
    exact ⟨hvalid, hlength, hleast, hmost, hpos⟩

/-! ## The set of pages -/

/-- Each page at most once, and only pages of the file. -/
def pagePolicy (pages : Nat) : Policy Nat where
  fits refs := refs.Nodup ∧ ∀ page ∈ refs, 1 ≤ page ∧ page ≤ pages
  fits_left h := ⟨(List.nodup_append.mp h.1).1, fun page hpage =>
    h.2 page (List.mem_append_left _ hpage)⟩

/-- A set holds the pages `refs`. -/
structure PageSet.Holds (set : PageSet) (count : Nat) (refs : List Nat) : Prop where
  pages : set.pages = count
  fits : (pagePolicy count).fits refs
  has_iff : ∀ page, set.Has page ↔ page ∈ refs

/-- A failure that is no panic. -/
abbrev Panic (failure : Failure) : Prop := failure = .panic

theorem error_not_panic (message : String) : ¬Panic (.error message) := nofun

/-- A new set has no page. -/
theorem PageSet.holds_new (header : Header) : (PageSet.new header).Holds header.pages [] where
  pages := rfl
  fits := ⟨.nil, fun _ h => (nomatch h)⟩
  has_iff page := by
    rw [PageSet.Has, PageSet.new, Marks.bit_replicate]
    simp

/-- Inserting a page adds it. -/
theorem PageSet.has_insert {set : PageSet} {page other : Nat}
    (hrange : ¬(page = 0 ∨ set.pages < page)) (hfree : ¬set.Has page) :
    (set.insert page hrange hfree).Has other ↔ other = page ∨ set.Has other := by
  rw [PageSet.Has, PageSet.Has, PageSet.insert, Marks.bit_mark (set.index_lt hrange),
    Bool.or_eq_true, decide_eq_true_eq]

/-- Marking takes a page. -/
theorem PageSet.Holds.mark {set : PageSet} {pages : Nat} {refs : List Nat}
    (h : set.Holds pages refs) (page : Nat) :
    Collects (pagePolicy pages) Panic (PageSet.Holds · pages) (set.mark page) refs
      (some [page]) := by
  rw [PageSet.mark]
  split
  case isTrue hrange =>
    refine ⟨error_not_panic _, fun new hnew hfits => ?_⟩
    cases hnew
    have hin := hfits.2 page (by simp)
    rw [h.pages] at hrange
    omega
  case isFalse hrange =>
    split
    case isTrue htaken =>
      refine ⟨error_not_panic _, fun new hnew hfits => ?_⟩
      cases hnew
      have hhas : set.Has page := by
        by_contra hfree
        exact htaken ((PageSet.and_mask_eq_zero_iff _).mpr hfree)
      exact (List.nodup_append.mp hfits.1).2.2 page ((h.has_iff page).mp hhas) page
        (by simp) rfl
    case isFalse hfree =>
      have hnew : ¬set.Has page := (PageSet.and_mask_eq_zero_iff _).mp (not_not.mp hfree)
      refine ⟨[page], rfl, h.pages, ⟨?_, ?_⟩, fun other => ?_⟩
      · refine List.nodup_append.mpr ⟨h.fits.1, List.nodup_singleton _, ?_⟩
        rintro a ha b hb rfl
        cases List.mem_singleton.mp hb
        exact hnew ((h.has_iff _).mpr ha)
      · intro other hother
        rcases List.mem_append.mp hother with hother | hother
        · exact h.fits.2 other hother
        · cases List.mem_singleton.mp hother
          rw [h.pages] at hrange
          omega
      · rw [PageSet.has_insert, h.has_iff, List.mem_append, List.mem_singleton, or_comm]

/-- Marking pages succeeds exactly if they are pages of the file that are not marked. -/
theorem PageSet.Holds.markAll {set : PageSet} {pages : Nat} {refs : List Nat}
    (h : set.Holds pages refs) (new : List Nat) :
    Collects (pagePolicy pages) Panic (PageSet.Holds · pages) (new.foldlM PageSet.mark set) refs
      (some new) := by
  have hall : Collects (pagePolicy pages) Panic (PageSet.Holds · pages)
      (new.foldlM PageSet.mark set) refs (some (new.map id)) :=
    Collects.foldlM_singletons h fun page _ set refs hset => PageSet.Holds.mark hset page
  rwa [List.map_id] at hall

/-- The pages of a file, each once: a list that fits and lacks none. -/
theorem perm_pages_iff {pages : Nat} {refs : List Nat} :
    refs.Perm (List.range' 1 pages) ↔
      (pagePolicy pages).fits refs ∧ ∀ page, 1 ≤ page → page ≤ pages → page ∈ refs := by
  constructor
  · intro h
    refine ⟨⟨h.nodup_iff.mpr List.nodup_range', fun page hpage => ?_⟩, fun page hfirst hlast => ?_⟩
    · have hin := List.mem_range'_1.mp (h.mem_iff.mp hpage)
      omega
    · exact h.mem_iff.mpr (List.mem_range'_1.mpr ⟨hfirst, by omega⟩)
  · rintro ⟨⟨hnodup, hrange⟩, hall⟩
    refine (List.perm_ext_iff_of_nodup hnodup List.nodup_range').mpr fun page => ?_
    rw [List.mem_range'_1]
    constructor
    · intro hpage
      have hin := hrange page hpage
      omega
    · exact fun hin => hall page hin.1 (by omega)

/-- The check at the end finds the page that no list holds. -/
theorem PageSet.Holds.finish {set : PageSet} {pages : Nat} {refs : List Nat}
    (h : set.Holds pages refs) :
    set.finish ≠ .error .panic ∧
      (set.finish = .ok () ↔ ∀ page, 1 ≤ page → page ≤ pages → page ∈ refs) := by
  have hcounted : set.marked = set.pages → ∀ page, 1 ≤ page → page ≤ pages → page ∈ refs := by
    intro hfull page hfirst hlast
    by_contra hmissing
    have hfree : Marks.bit set.bits (page - 1 + 1) = false := by
      rw [Nat.sub_add_cancel hfirst]
      exact Bool.eq_false_iff.mpr fun hbit => hmissing ((h.has_iff page).mp hbit)
    have hlength : (page - 1 + 1) / 8 < set.bits.length := by rw [set.length, h.pages]; omega
    have hrange : page - 1 < set.pages := by rw [h.pages]; omega
    have hless := Marks.ones_bit_mark hlength hfree hrange
    have hmost := Bitmaps.ones_le set.pages
      (fun j => Marks.bit (Marks.mark set.bits (page - 1 + 1)) (j + 1))
    rw [← set.counted] at hless
    omega
  rw [PageSet.finish]
  split
  case isFalse hfull => exact ⟨nofun, fun _ => hcounted (not_not.mp hfull), fun _ => rfl⟩
  case isTrue =>
    split
    case h_1 page hfind =>
      refine ⟨nofun, nofun, fun hall => ?_⟩
      have hin := List.mem_range'_1.mp (List.mem_of_find?_eq_some hfind)
      have hfree := List.find?_some hfind
      rw [Bool.not_eq_true', decide_eq_false_iff_not, h.has_iff] at hfree
      rw [h.pages] at hin
      exact absurd (hall page hin.1 (by omega)) hfree
    case h_2 hfind =>
      refine ⟨nofun, fun _ page hfirst hlast => ?_, fun _ => rfl⟩
      have hall := List.find?_eq_none.mp hfind page
        (List.mem_range'_1.mpr ⟨hfirst, by rw [h.pages]; omega⟩)
      rw [Bool.not_eq_true, Bool.not_eq_false', decide_eq_true_eq] at hall
      exact (h.has_iff page).mp hall

/-- Pages that fit are no more than those of the file. -/
theorem pagePolicy_length {pages : Nat} {refs : List Nat} (h : (pagePolicy pages).fits refs) :
    refs.length ≤ pages := by
  have hsub : refs ⊆ List.range' 1 pages := fun page hpage => by
    have hin := h.2 page hpage
    exact List.mem_range'_1.mpr (by omega)
  have hle := (List.Nodup.subperm h.1 hsub).length_le
  rwa [List.length_range'] at hle

/-! ## The freelist -/

section file

variable {header : DatabaseHeader} {bytes : Bytes}

/-- A page has the length of a page. -/
theorem DatabaseHeader.Reads.length_page (h : header.Reads bytes) {page : Nat} {content : Bytes}
    (hpage : pageView header.toHeader bytes page = some content) :
    content.length = header.pageSize := by
  rw [pageView] at hpage
  split at hpage
  case isFalse => cases hpage
  case isTrue hin =>
    cases hpage
    refine length_slice ?_
    have hmul := Nat.mul_le_mul_right header.pageSize hin.2
    have hpage :
        (page - 1 + 1) * header.pageSize = (page - 1) * header.pageSize + header.pageSize :=
      Nat.succ_mul _ _
    rw [Nat.sub_add_cancel hin.1] at hpage
    rw [h.length]
    omega

/-- A set of free pages and their count, with `base` pages marked before. -/
def FreeState (pages base : Nat) (state : PageSet × Nat) (refs : List Nat) : Prop :=
  state.1.Holds pages refs ∧ state.2 + base = refs.length

/-- A page is marked and counted; no count reaches the end of a `u32`. -/
theorem FreeState.freePage {pages base : Nat} (hpages : pages < 2 ^ 32) {state : PageSet × Nat}
    {refs : List Nat} (h : FreeState pages base state refs) (page : Nat) :
    Collects (pagePolicy pages) Panic (FreeState pages base) (freePage state.1 state.2 page) refs
      (some [page]) := by
  refine (h.1.mark page).followed fun set new hnew hset => ?_
  cases hnew
  have hlength := pagePolicy_length hset.fits
  rw [List.length_append, List.length_singleton, ← h.2] at hlength
  have hcount : nextCount state.2 = .ok (state.2 + 1) := if_pos (by omega)
  rw [hcount]
  refine ⟨(set, state.2 + 1), rfl, hset, ?_⟩
  rw [List.length_append, List.length_singleton, ← h.2]
  dsimp only
  omega

theorem trunkWord_eq {page : Bytes} {offset : Nat} (h : offset + 4 ≤ page.length) :
    trunkWord page offset = .ok (ofBE (slice page offset 4)) :=
  if_neg (Nat.not_lt.mpr h)

/-- What a trunk page refers to: itself and its leaves. -/
def trunkPages (header : DatabaseHeader) (bytes : Bytes) (trunk : Nat) : Option (List Nat) :=
  ((pageView header.toHeader bytes trunk).bind (readTrunk header.usableSize)).map
    fun found => trunk :: found.2

/-- A page of the file is read. -/
theorem DatabaseHeader.Reads.trunkPage (h : header.Reads bytes) {file : File}
    (hfile : file.bytes = bytes) {trunk : Nat} {page : Bytes}
    (hview : pageView header.toHeader bytes trunk = some page) :
    ∃ file', trunkPage header file trunk = .ok (page, file') ∧ file'.bytes = bytes := by
  have hlength := h.length_page hview
  rw [pageView] at hview
  split at hview
  case isFalse => cases hview
  case isTrue hin =>
    rw [Option.some.injEq] at hview
    have hunread : LawfulRead.unread (file.seek ((trunk - 1) * header.pageSize)) =
        bytes.drop ((trunk - 1) * header.pageSize) := by
      rw [← hfile]
      rfl
    have hcontents := LawfulRead.contents_readExact
      (file.seek ((trunk - 1) * header.pageSize)) header.pageSize
    have hfits : header.pageSize ≤
        (LawfulRead.unread (file.seek ((trunk - 1) * header.pageSize))).length := by
      rw [hunread]
      rw [← hview, slice, List.length_take] at hlength
      omega
    obtain ⟨hgot, -⟩ := LawfulRead.readExact_of_le hfits
    rw [Validation.trunkPage]
    rcases hread : Read.readExact (file.seek ((trunk - 1) * header.pageSize))
      header.pageSize with ⟨got, file'⟩
    rw [hread] at hgot hcontents
    dsimp only at hgot
    subst hgot
    refine ⟨file', ?_, hcontents.trans hfile⟩
    rw [hunread]
    dsimp only
    rw [← hview, slice]

/-- The leaves of a trunk page. -/
theorem FreeState.freeLeaves {pages base : Nat} (hpages : pages < 2 ^ 32) {page : Bytes}
    {count : Nat} (hcount : 8 + count * 4 ≤ page.length) {state : PageSet × Nat} {refs : List Nat}
    (h : FreeState pages base state refs) :
    Collects (pagePolicy pages) Panic (FreeState pages base)
      ((List.range count).foldlM (freeLeaf page) state) refs
      (some ((List.range count).map fun i => ofBE (slice page (8 + i * 4) 4))) := by
  refine Collects.foldlM_singletons h fun leaf hleaf state refs hstate => ?_
  rw [List.mem_range] at hleaf
  rw [freeLeaf, trunkWord_eq (by omega)]
  exact hstate.freePage hpages _

/-- The state behind a trunk, and the next trunk. -/
def TrunkState (header : DatabaseHeader) (bytes : Bytes) (base trunk : Nat)
    (found : File × (PageSet × Nat) × Nat) (refs : List Nat) : Prop :=
  found.1.bytes = bytes ∧ FreeState header.pages base found.2.1 refs ∧
    ∃ leaves, (pageView header.toHeader bytes trunk).bind (readTrunk header.usableSize) =
      some (found.2.2, leaves)

/-- A page out of range is refused where it is marked. -/
theorem FreeState.freeTrunk_none {base : Nat} (hpages : header.pages < 2 ^ 32)
    {state : PageSet × Nat} {refs : List Nat} (hstate : FreeState header.pages base state refs)
    {file : File} {trunk : Nat} (hview : pageView header.toHeader bytes trunk = none) :
    Collects (pagePolicy header.pages) Panic (TrunkState header bytes base trunk)
      (freeTrunk header file state.1 state.2 trunk) refs none := by
  have hmark := hstate.freePage hpages trunk
  cases hfirst : Validation.freePage state.1 state.2 trunk with
  | error failure =>
      rw [hfirst] at hmark
      rw [freeTrunk, hfirst]
      exact .none hmark.1
  | ok state' =>
      rw [hfirst] at hmark
      obtain ⟨new, hnew, hset, -⟩ := hmark
      cases hnew
      have hin := hset.fits.2 trunk (by simp)
      rw [pageView, if_pos hin] at hview
      cases hview

/-- A trunk: its pages are marked and counted, and the next trunk is the one it names. -/
theorem FreeState.freeTrunk (h : header.Reads bytes) {file : File} (hfile : file.bytes = bytes)
    {base : Nat} {state : PageSet × Nat} {refs : List Nat}
    (hstate : FreeState header.pages base state refs) (trunk : Nat) :
    Collects (pagePolicy header.pages) Panic (TrunkState header bytes base trunk)
      (freeTrunk header file state.1 state.2 trunk) refs (trunkPages header bytes trunk) := by
  have hmost := h.most
  have hleast := h.least
  cases hview : pageView header.toHeader bytes trunk with
  | none =>
      rw [trunkPages, hview]
      exact hstate.freeTrunk_none h.valid.pages hview
  | some page =>
      have hlength := h.length_page hview
      obtain ⟨file', hread, hfile'⟩ := h.trunkPage hfile hview
      have hfound : trunkPages header bytes trunk =
          (some [trunk]).bind fun xs =>
            ((readTrunk header.usableSize page).map Prod.snd).map (xs ++ ·) := by
        rw [trunkPages, hview, Option.bind_some, Option.bind_some, Option.map_map]
        rfl
      rw [hfound, Validation.freeTrunk]
      refine (hstate.freePage h.valid.pages trunk).bind fun state' new hnew hstate' => ?_
      cases hnew
      rw [hread]
      simp only [bind, Except.bind]
      rw [trunkWord_eq (by omega), checkedSub_of_le (by omega)]
      dsimp only
      generalize hcount : ofBE (slice page 4 4) = count
      by_cases hroom : count ≤ header.usableSize / 4 - 2
      · have htrunk : readTrunk header.usableSize page =
            some (ofBE (slice page 0 4),
              (List.range count).map fun i => ofBE (slice page (8 + i * 4) 4)) := by
          rw [readTrunk, hcount]
          exact if_pos hroom
        have hleaves := hstate'.freeLeaves h.valid.pages (show 8 + count * 4 ≤ page.length by omega)
        rw [if_neg (by omega), htrunk, trunkWord_eq (by omega)]
        exact hleaves.followed fun state'' new _ hstate'' =>
          ⟨(file', state'', ofBE (slice page 0 4)), rfl, hfile', hstate'', _,
            by rw [hview]; exact htrunk⟩
      · have htrunk : readTrunk header.usableSize page = none := by
          rw [readTrunk, hcount]
          exact if_neg hroom
        rw [if_pos (by omega), htrunk]
        exact .none (error_not_panic _)

/-- A freelist is its first trunk, the leaves of that, and the rest. -/
theorem readFreelist_succ {size trunks trunk tail : Nat} {view : View} {free : List Nat} :
    readFreelist size view (trunks + 1) trunk = some (free, tail) ↔
      ∃ next leaves rest, (view trunk).bind (readTrunk size) = some (next, leaves) ∧
        readFreelist size view trunks next = some (rest, tail) ∧
          trunk :: leaves ++ rest = free := by
  simp only [readFreelist, Option.bind_eq_bind, Option.bind_eq_some_iff]
  constructor
  · rintro ⟨page, hpage, ⟨next, leaves⟩, htrunk, ⟨rest, tail'⟩, hrest, heq⟩
    cases heq
    exact ⟨next, leaves, rest, ⟨page, hpage, htrunk⟩, hrest, rfl⟩
  · rintro ⟨next, leaves, rest, ⟨page, hpage, htrunk⟩, hrest, rfl⟩
    exact ⟨page, hpage, ⟨next, leaves⟩, htrunk, ⟨rest, tail⟩, hrest, rfl⟩

theorem freePages_zero : FreePages header bytes 0 [] := ⟨0, rfl⟩

/-- A list that begins at page 0 is empty. -/
theorem FreePages.eq_nil {free : List Nat} (h : FreePages header bytes 0 free) : free = [] := by
  obtain ⟨_ | trunks, hread⟩ := h
  · cases hread
    rfl
  · obtain ⟨next, leaves, rest, htrunk, -⟩ := readFreelist_succ.mp hread
    rw [pageView, if_neg (by omega)] at htrunk
    cases htrunk

/-- A freelist begins with the pages of its first trunk. -/
theorem FreePages.cons {trunk : Nat} {free : List Nat} (htrunk : trunk ≠ 0)
    (h : FreePages header bytes trunk free) :
    ∃ next leaves rest, (pageView header.toHeader bytes trunk).bind
        (readTrunk header.usableSize) = some (next, leaves) ∧
      FreePages header bytes next rest ∧ trunk :: leaves ++ rest = free := by
  obtain ⟨_ | trunks, hread⟩ := h
  · cases hread
    exact absurd rfl htrunk
  · obtain ⟨next, leaves, rest, hfound, hrest, hfree⟩ := readFreelist_succ.mp hread
    exact ⟨next, leaves, rest, hfound, ⟨trunks, hrest⟩, hfree⟩

/-- A trunk in front of a list is a list. -/
theorem freePages_cons {trunk next : Nat} {leaves rest : List Nat}
    (htrunk : (pageView header.toHeader bytes trunk).bind (readTrunk header.usableSize) =
      some (next, leaves)) (hrest : FreePages header bytes next rest) :
    FreePages header bytes trunk (trunk :: leaves ++ rest) := by
  obtain ⟨trunks, hread⟩ := hrest
  exact ⟨trunks + 1, readFreelist_succ.mpr ⟨next, leaves, rest, htrunk, hread, rfl⟩⟩

/-- A freelist is determined by its first trunk. -/
theorem freePages_unique : ∀ {trunks trunk : Nat} {free free' : List Nat},
    readFreelist header.usableSize (pageView header.toHeader bytes) trunks trunk =
      some (free, 0) → FreePages header bytes trunk free' → free = free'
  | 0, trunk, free, free', hread, h => by
      cases hread
      exact h.eq_nil.symm
  | trunks + 1, trunk, free, free', hread, h => by
      obtain ⟨next, leaves, rest, hfound, hrest, rfl⟩ := readFreelist_succ.mp hread
      have htrunk : trunk ≠ 0 := by
        rintro rfl
        rw [pageView, if_neg (by omega)] at hfound
        cases hfound
      obtain ⟨next', leaves', rest', hfound', hrest', rfl⟩ := h.cons htrunk
      rw [hfound] at hfound'
      cases hfound'
      rw [freePages_unique hrest hrest']

/-- The loop marks and counts the freelist, if there is one and it fits. -/
theorem FreeState.freelist (h : header.Reads bytes) {base : Nat} (file : File) (set : PageSet)
    (count trunk : Nat) {refs : List Nat} (hfile : file.bytes = bytes)
    (hstate : FreeState header.pages base (set, count) refs) :
    Results.Outcome (freelist header file set count trunk)
      (fun state => ∃ free, FreePages header bytes trunk free ∧
        FreeState header.pages base state (refs ++ free))
      (fun failure => ¬Panic failure ∧ ∀ free, FreePages header bytes trunk free →
        ¬(pagePolicy header.pages).fits (refs ++ free)) := by
  induction file, set, count, trunk using freelist.induct header generalizing refs with
  | case1 file set count =>
      rw [Validation.freelist, if_pos rfl]
      refine ⟨[], freePages_zero, ?_⟩
      rwa [List.append_nil]
  | case2 file set count trunk htrunk failure hround =>
      have hcollects := hstate.freeTrunk h hfile trunk
      dsimp only at hcollects
      rw [hround] at hcollects
      rw [Validation.freelist, if_neg htrunk, hround]
      refine ⟨hcollects.1, fun free hfree hfits => ?_⟩
      obtain ⟨next, leaves, rest, hfound, -, rfl⟩ := hfree.cons htrunk
      rw [← List.append_assoc] at hfits
      refine hcollects.2 (trunk :: leaves) ?_ ((pagePolicy header.pages).fits_left hfits)
      rw [trunkPages, hfound]
      rfl
  | case3 file set count trunk htrunk file' set' count' next hround ih =>
      have hcollects := hstate.freeTrunk h hfile trunk
      dsimp only at hcollects
      rw [hround] at hcollects
      obtain ⟨new, hnew, hfile', hstate', leaves, hfound⟩ := hcollects
      dsimp only at hfile' hstate' hfound
      rw [trunkPages, hfound] at hnew
      cases hnew
      rw [Validation.freelist, if_neg htrunk, hround]
      refine (ih hfile' hstate').imp ?_ ?_
      · rintro state ⟨free, hfree, hstate''⟩
        refine ⟨trunk :: leaves ++ free, freePages_cons hfound hfree, ?_⟩
        rwa [← List.append_assoc]
      · rintro failure ⟨hpanic, hrest⟩
        refine ⟨hpanic, fun free hfree hfits => ?_⟩
        obtain ⟨next', leaves', rest, hfound', hrest', rfl⟩ := hfree.cons htrunk
        rw [hfound] at hfound'
        cases hfound'
        rw [← List.append_assoc] at hfits
        exact hrest rest hrest' hfits

/-- `ownership_start` marks the page of the pending byte and the freelist. -/
theorem DatabaseHeader.Reads.ownershipStart (h : header.Reads bytes) (short : Nat → Nat) :
    Results.Outcome (ownershipStart (.open bytes short) header)
      (fun set => ∃ free, FreePages header bytes header.firstFree free ∧
        free.length = header.freePages ∧
        set.Holds header.pages (reservedPage header ++ free))
      (fun failure => ¬Panic failure ∧ ∀ free, FreePages header bytes header.firstFree free →
        free.length = header.freePages →
        ¬(pagePolicy header.pages).fits (reservedPage header ++ free)) := by
  have hreserved := (PageSet.holds_new header.toHeader).markAll (reservedPage header)
  rw [Validation.ownershipStart]
  rcases hstart : (reservedPage header).foldlM PageSet.mark (PageSet.new header.toHeader) with
    failure | set
  · rw [hstart] at hreserved
    refine ⟨hreserved.1, fun free _ _ hfits => ?_⟩
    exact hreserved.2 _ rfl ((pagePolicy header.pages).fits_left hfits)
  · rw [hstart] at hreserved
    obtain ⟨new, hnew, hset⟩ := hreserved
    cases hnew
    rw [List.nil_append] at hset
    have hstate : FreeState header.pages (reservedPage header).length (set, 0)
        (reservedPage header) := ⟨hset, Nat.zero_add _⟩
    have hfree := FreeState.freelist h (File.open bytes short) set 0 header.firstFree rfl hstate
    simp only [bind, Except.bind]
    rcases hrun : freelist header (File.open bytes short) set 0 header.firstFree with
      failure | ⟨set', count⟩
    · rw [hrun] at hfree
      exact ⟨hfree.1, fun free hpages _ => hfree.2 free hpages⟩
    · rw [hrun] at hfree
      obtain ⟨free, hpages, hset', hcount⟩ := hfree
      rw [List.length_append] at hcount
      dsimp only at hset' hcount ⊢
      split
      case isTrue hne =>
        refine ⟨error_not_panic _, fun free' hpages' hlength _ => hne ?_⟩
        obtain ⟨trunks, hread⟩ := hpages
        rw [← hlength, ← freePages_unique hread hpages']
        omega
      case isFalse heq => exact ⟨free, hpages, by omega, hset'⟩

/-! ## The trees -/

/-- The state of the walk: the pages marked, and a reader of the file. -/
def WalkState (header : DatabaseHeader) (bytes : Bytes) (walk : Walk) (refs : List Nat) : Prop :=
  walk.pages.Holds header.pages refs ∧ walk.reader.Holds bytes header.pageSize

/-- A page of the file can be fetched. -/
theorem DatabaseHeader.Reads.fetch (h : header.Reads bytes) {reader : PageReader}
    (hreader : reader.Holds bytes header.pageSize) {page : Nat} {content : Bytes}
    (hview : pageView header.toHeader bytes page = some content) :
    ∃ reader', reader.fetch page = .ok (content, reader') ∧
      reader'.Holds bytes header.pageSize := by
  rw [pageView] at hview
  split at hview
  case isFalse => cases hview
  case isTrue hin =>
    cases hview
    obtain ⟨reader', hpage, hholds⟩ := hreader.page h.length h.valid.dvd
      (Nat.lt_of_lt_of_le (by decide) h.valid.least) hin.1 hin.2
    refine ⟨reader', ?_, hholds⟩
    rw [PageReader.fetch, hpage]

/-- A page is marked, then read. -/
theorem WalkState.enter {σ : Type} {stands : σ → List Nat → Prop} (h : header.Reads bytes)
    {walk : Walk} {refs : List Nat} (hwalk : WalkState header bytes walk refs) {page : Nat}
    {f : Bytes → Walk → Except Failure σ} {found : Bytes → Option (List Nat)}
    (hf : ∀ content walk', pageView header.toHeader bytes page = some content →
      WalkState header bytes walk' (refs ++ [page]) →
      Collects (pagePolicy header.pages) Panic stands (f content walk') (refs ++ [page])
        (found content)) :
    Collects (pagePolicy header.pages) Panic stands
      (walk.pages.mark page >>= fun pages => walk.reader.fetch page >>= fun read =>
        f read.1 { pages, reader := read.2 })
      refs
      ((pageView header.toHeader bytes page).bind fun content =>
        (found content).map (page :: ·)) := by
  have hmark := hwalk.1.mark page
  cases hview : pageView header.toHeader bytes page with
  | none =>
      rw [Option.bind_none]
      cases hrun : walk.pages.mark page with
      | error failure =>
          rw [hrun] at hmark
          exact .none hmark.1
      | ok pages =>
          rw [hrun] at hmark
          obtain ⟨new, hnew, hpages⟩ := hmark
          cases hnew
          have hin := hpages.fits.2 page (by simp)
          rw [pageView, if_pos hin] at hview
          cases hview
  | some content =>
      obtain ⟨reader', hfetch, hreader'⟩ := h.fetch hwalk.2 hview
      have hbind := hmark.bind (f := fun pages => walk.reader.fetch page >>= fun read =>
        f read.1 { pages, reader := read.2 }) fun pages new hnew hpages => by
          cases hnew
          rw [hfetch]
          exact hf content { pages, reader := reader' } hview ⟨hpages, hreader'⟩
      exact hbind

/-- A chain takes its pages. -/
theorem WalkState.overflowChain (h : header.Reads bytes) : ∀ (count overflow : Nat) {walk : Walk}
    {refs : List Nat}, WalkState header bytes walk refs →
      Collects (pagePolicy header.pages) Panic (WalkState header bytes)
        (overflowChain count overflow walk) refs
        (chainPages (pageView header.toHeader bytes) count overflow)
  | 0, _, _, _, hwalk => .nil hwalk
  | count + 1, overflow, walk, refs, hwalk => by
      have hpage : ∀ content walk', pageView header.toHeader bytes overflow = some content →
          WalkState header bytes walk' (refs ++ [overflow]) →
          Collects (pagePolicy header.pages) Panic (WalkState header bytes)
            (do
              let next ← word content 0
              if count = 0 ∧ next ≠ 0 then
                .error (.error "database overflow chain exceeds its record payload")
              else Validation.overflowChain count next walk')
            (refs ++ [overflow])
            (if count = 0 ∧ ofBE (slice content 0 4) ≠ 0 then none
              else chainPages (pageView header.toHeader bytes)
                count (ofBE (slice content 0 4))) := by
        intro content walk' hview hwalk'
        have hlength := h.length_page hview
        have hleast := h.valid.least
        rw [word, if_neg (by omega)]
        simp only [bind, Except.bind]
        split
        case isTrue => exact .none (error_not_panic _)
        case isFalse => exact WalkState.overflowChain h count _ hwalk'
      have hfound : chainPages (pageView header.toHeader bytes) (count + 1) overflow =
          (pageView header.toHeader bytes overflow).bind fun content =>
            (if count = 0 ∧ ofBE (slice content 0 4) ≠ 0 then none
              else chainPages (pageView header.toHeader bytes) count
                (ofBE (slice content 0 4))).map (overflow :: ·) := by
        rw [chainPages]
        cases pageView header.toHeader bytes overflow with
        | none => rfl
        | some content =>
            simp only [Option.bind_eq_bind, Option.bind_some]
            split
            case isTrue => rfl
            case isFalse =>
              cases chainPages (pageView header.toHeader bytes) count
                (ofBE (slice content 0 4)) <;> rfl
      rw [hfound, Validation.overflowChain]
      exact hwalk.enter h hpage

/-- The code finds the children and the overflow chains of a page. -/
theorem pageLinks_eq {usable : Nat} (husable : 257 ≤ usable) {view : View} {page : Nat}
    {content : Bytes} (hview : view page = some content) (hlength : usable ≤ content.length) :
    pageLinks usable view page = (pointers (content.take usable) page).toOption := by
  have htake : (content.take usable).length = usable := by
    rw [List.length_take]
    omega
  rw [toOption_pointers (by omega), htake, pageLinks, hview]
  rfl

/-- The pages that belong to a page: itself and its overflow chains. -/
def ownPages (usable : Nat) (view : View) (page : Nat) : Option (List Nat) := do
  let (_, overflows) ← pageLinks usable view page
  let chains ← overflows.mapM fun chain => chainPages view chain.2 chain.1
  some (page :: chains.flatten)

/-- The children of a page, if it has any. -/
def pageChildren (usable : Nat) (view : View) (page : Nat) : List Nat :=
  ((pageLinks usable view page).map Prod.fst).getD []

/-- The pages of a tree are its own and those of its children. -/
theorem treePages_succ (usable : Nat) (view : View) (levels page : Nat) :
    treePages usable view (levels + 1) page =
      (ownPages usable view page).bind fun own =>
        (((pageChildren usable view page).mapM (treePages usable view levels)).map
          List.flatten).map (own ++ ·) := by
  rw [treePages, ownPages, pageChildren]
  rcases pageLinks usable view page with _ | ⟨children, overflows⟩
  · rfl
  · simp only [Option.bind_eq_bind, Option.bind_some, Option.map_some, Option.getD_some]
    cases overflows.mapM fun chain => chainPages view chain.2 chain.1 with
    | none => rfl
    | some chains => cases children.mapM (treePages usable view levels) <;> rfl

/-- A visit takes the pages that belong to the page, and returns its children. -/
theorem WalkState.visit (h : header.Reads bytes) {walk : Walk} {refs : List Nat}
    (hwalk : WalkState header bytes walk refs) (page : Nat) {depth : Nat}
    (hdepth : depth < maxTreeDepth) :
    Collects (pagePolicy header.pages) Panic
      (fun (found : List Nat × Walk) refs =>
        found.1 = pageChildren header.usableSize (pageView header.toHeader bytes) page ∧
          WalkState header bytes found.2 refs)
      (visit header page depth walk) refs
      (ownPages header.usableSize (pageView header.toHeader bytes) page) := by
  have hpage : ∀ content walk', pageView header.toHeader bytes page = some content →
      WalkState header bytes walk' (refs ++ [page]) →
      Collects (pagePolicy header.pages) Panic
        (fun (found : List Nat × Walk) refs =>
          found.1 = pageChildren header.usableSize (pageView header.toHeader bytes) page ∧
            WalkState header bytes found.2 refs)
        (if content.length < header.usableSize then .error .panic
        else do
          let (children, overflows) ← pointers (content.take header.usableSize) page
          let walk ← overflows.foldlM
            (fun walk chain => Validation.overflowChain chain.2 chain.1 walk) walk'
          .ok (children, walk))
        (refs ++ [page])
        ((pointers (content.take header.usableSize) page).toOption.bind fun links =>
          (links.2.mapM fun chain =>
            chainPages (pageView header.toHeader bytes) chain.2 chain.1).map List.flatten) := by
    intro content walk' hview hwalk'
    have hlength := h.length_page hview
    have hleast := h.least
    have hmost := h.most
    have hfits : header.usableSize ≤ content.length := hlength ▸ hmost
    have htake : 257 ≤ (content.take header.usableSize).length := by
      rw [List.length_take]
      omega
    rw [if_neg (by omega)]
    rcases hlinks : pointers (content.take header.usableSize) page with
      failure | ⟨children, overflows⟩
    · refine .none ?_
      rintro rfl
      exact pointers_ne_panic htake page hlinks
    · refine (Collects.foldlM hwalk' fun chain _ walk refs hwalk =>
        hwalk.overflowChain h chain.2 chain.1).followed fun walk new _ hwalk => ?_
      refine ⟨(children, walk), rfl, ?_, hwalk⟩
      rw [pageChildren, pageLinks_eq hleast hview hfits, hlinks]
      rfl
  have hfound : ownPages header.usableSize (pageView header.toHeader bytes) page =
      (pageView header.toHeader bytes page).bind fun content =>
        ((pointers (content.take header.usableSize) page).toOption.bind fun links =>
          (links.2.mapM fun chain =>
            chainPages (pageView header.toHeader bytes) chain.2 chain.1).map
              List.flatten).map (page :: ·) := by
    rw [ownPages]
    cases hview : pageView header.toHeader bytes page with
    | none =>
        rw [pageLinks, hview]
        rfl
    | some content =>
        rw [pageLinks_eq h.least hview (h.length_page hview ▸ h.most)]
        simp only [Option.bind_eq_bind, Option.bind_some]
        rcases (pointers (content.take header.usableSize) page).toOption with
          _ | ⟨children, overflows⟩
        · rfl
        · simp only [Option.bind_some]
          cases overflows.mapM fun chain =>
            chainPages (pageView header.toHeader bytes) chain.2 chain.1 <;> rfl
  rw [hfound, Validation.visit, if_neg (Nat.not_le.mpr hdepth)]
  exact hwalk.enter h hpage

/-- The pages of the trees that are pending, each at its depth. -/
def pendingPages (usable : Nat) (view : View) (pending : List (Nat × Nat)) : Option (List Nat) :=
  (pending.mapM fun entry => treePages usable view (maxTreeDepth - entry.2) entry.1).map
    List.flatten

theorem mapM_append_flatten {α ι : Type} (f : α → Option (List ι)) (xs ys : List α) :
    ((xs ++ ys).mapM f).map List.flatten =
      ((xs.mapM f).map List.flatten).bind fun front =>
        ((ys.mapM f).map List.flatten).map (front ++ ·) := by
  rw [List.mapM_append]
  cases xs.mapM f with
  | none => rfl
  | some front =>
      cases ys.mapM f with
      | none => rfl
      | some back =>
          simp only [Option.bind_eq_bind, Option.bind_some, Option.map_some, pure,
            List.flatten_append]

/-- The tree of the page that is next: its own pages, then those of its children in front of the
other trees. -/
theorem pendingPages_cons (usable : Nat) (view : View) {page depth : Nat}
    (pending : List (Nat × Nat)) (hdepth : depth < maxTreeDepth) :
    pendingPages usable view ((page, depth) :: pending) =
      (ownPages usable view page).bind fun own =>
        (pendingPages usable view
          ((pageChildren usable view page).map (fun child => (child, depth + 1)) ++ pending)).map
            (own ++ ·) := by
  obtain ⟨levels, hlevels⟩ : ∃ levels, maxTreeDepth - depth = levels + 1 :=
    ⟨maxTreeDepth - depth - 1, by omega⟩
  have hbelow : maxTreeDepth - (depth + 1) = levels := by omega
  have hchildren : ((pageChildren usable view page).map fun child => (child, depth + 1)).mapM
      (fun entry => treePages usable view (maxTreeDepth - entry.2) entry.1) =
        (pageChildren usable view page).mapM (treePages usable view levels) := by
    rw [List.mapM_map]
    refine congrArg (fun f => (pageChildren usable view page).mapM f) (funext fun child => ?_)
    rw [Function.comp_apply, hbelow]
  rw [pendingPages, pendingPages, mapM_append_flatten, hchildren,
    ← List.singleton_append, mapM_append_flatten]
  simp only [List.mapM_cons, List.mapM_nil, hlevels, treePages_succ]
  cases ownPages usable view page with
  | none => rfl
  | some own =>
      cases (pageChildren usable view page).mapM (treePages usable view levels) with
      | none => rfl
      | some trees =>
          cases pending.mapM fun entry =>
            treePages usable view (maxTreeDepth - entry.2) entry.1 with
          | none => rfl
          | some rest =>
              simp [pure]

/-- The walk takes the trees that are pending. -/
theorem WalkState.walkTree (h : header.Reads bytes) (pending : List (Nat × Nat)) (walk : Walk)
    {refs : List Nat} (hwalk : WalkState header bytes walk refs) :
    Collects (pagePolicy header.pages) Panic (WalkState header bytes)
      (walkTree header pending walk) refs
      (pendingPages header.usableSize (pageView header.toHeader bytes) pending) := by
  induction pending, walk using walkTree.induct header generalizing refs with
  | case1 walk =>
      rw [Validation.walkTree]
      exact .nil hwalk
  | case2 walk page depth pending failure hvisit =>
      rw [Validation.walkTree, hvisit]
      by_cases hdepth : depth < maxTreeDepth
      · have hcollects := hwalk.visit h page hdepth
        rw [hvisit] at hcollects
        rw [pendingPages_cons _ _ _ hdepth]
        exact hcollects.fails
      · have hnone : pendingPages header.usableSize (pageView header.toHeader bytes)
            ((page, depth) :: pending) = none := by
          rw [pendingPages, List.mapM_cons, Nat.sub_eq_zero_of_le (Nat.le_of_not_lt hdepth)]
          rfl
        rw [hnone]
        refine .none ?_
        rw [Validation.visit, if_pos (Nat.le_of_not_lt hdepth)] at hvisit
        cases hvisit
        exact error_not_panic _
  | case3 walk page depth pending children walk' hvisit ih =>
      have hdepth : depth < maxTreeDepth := by
        by_contra hdeep
        rw [Validation.visit, if_pos (Nat.le_of_not_lt hdeep)] at hvisit
        cases hvisit
      have hcollects := hwalk.visit h page hdepth
      rw [hvisit] at hcollects
      obtain ⟨own, hown, hchildren, hwalk'⟩ := hcollects
      dsimp only at hchildren hwalk'
      rw [Validation.walkTree, hvisit, pendingPages_cons _ _ _ hdepth, hown, Option.bind_some]
      have hrest := ih hwalk'
      rw [hchildren] at hrest ⊢
      exact hrest.behind

/-- The walk over the roots takes the trees of all of them. -/
theorem WalkState.walkRoots (h : header.Reads bytes) : ∀ (root : Nat) (roots : List Nat)
    {walk : Walk} {refs : List Nat}, WalkState header bytes walk refs →
      Collects (pagePolicy header.pages) Panic (WalkState header bytes)
        (walkRoots header root roots walk) refs
        (((root :: roots).mapM (treePages header.usableSize (pageView header.toHeader bytes)
          maxTreeDepth)).map List.flatten)
  | root, [], walk, refs, hwalk => by
      rw [Validation.walkRoots]
      exact hwalk.walkTree h [(root, 0)]
  | root, next :: roots, walk, refs, hwalk => by
      have hsplit := mapM_append_flatten (treePages header.usableSize
        (pageView header.toHeader bytes) maxTreeDepth) [root] (next :: roots)
      rw [List.singleton_append] at hsplit
      rw [hsplit, Validation.walkRoots]
      refine Collects.bind (hwalk.walkTree h [(root, 0)]) fun walk' new _ hwalk' => ?_
      split
      case isTrue hlarge =>
        have hnone : treePages header.usableSize (pageView header.toHeader bytes) maxTreeDepth
            next = none := by
          have hpages := h.valid.pages
          rw [maxTreeDepth, treePages, pageLinks, pageView, if_neg (by omega)]
          rfl
        rw [List.mapM_cons, hnone]
        exact .none (error_not_panic _)
      case isFalse => exact WalkState.walkRoots h next roots hwalk'

/-! ## The check -/

/-- The freelist and the trees of a file are those that the check found. -/
theorem References.eq {roots refs free : List Nat} (h : References header bytes roots refs)
    (hfree : FreePages header bytes header.firstFree free) :
    ∃ trees, (1 :: roots).mapM (treePages header.usableSize (pageView header.toHeader bytes)
        maxTreeDepth) = some trees ∧
      free.length = header.freePages ∧ refs = reservedPage header ++ free ++ trees.flatten := by
  obtain ⟨free', trees, ⟨trunks, hread⟩, hlength, htrees, hrefs⟩ := h
  cases freePages_unique hread hfree
  exact ⟨trees, htrees, hlength, hrefs⟩

/-- The check at the end, behind the walk. -/
theorem WalkState.finish {walk : Walk} {refs : List Nat} (h : WalkState header bytes walk refs) :
    walk.pages.finish ≠ .error .panic ∧
      (walk.pages.finish = .ok () ↔ refs.Perm (List.range' 1 header.pages)) := by
  refine ⟨h.1.finish.1, ?_⟩
  rw [h.1.finish.2, perm_pages_iff, and_iff_right h.1.fits]

/-- The check runs to its end exactly if the references are the pages, each once. -/
theorem DatabaseHeader.Reads.rawPageOwnership (hreads : header.Reads bytes)
    (short' short'' : Nat → Nat) (roots : List Nat) :
    Validation.rawPageOwnership bytes short' short'' header roots ≠ .error .panic ∧
      (Validation.rawPageOwnership bytes short' short'' header roots = .ok () ↔
        ∃ refs, References header bytes roots refs ∧
          refs.Perm (List.range' 1 header.pages)) := by
  have hstart := hreads.ownershipStart short'
  rw [Validation.rawPageOwnership]
  rcases hset : Validation.ownershipStart (.open bytes short') header with failure | set
  · rw [hset] at hstart
    refine ⟨fun hpanic => hstart.1 (Except.error.inj hpanic), nofun, ?_⟩
    rintro ⟨refs, ⟨free, trees, hfree, hlength, -, rfl⟩, hperm⟩
    have hfits := (perm_pages_iff.mp hperm).1
    exact absurd ((pagePolicy header.pages).fits_left hfits) (hstart.2 free hfree hlength)
  · rw [hset] at hstart
    obtain ⟨free, hfree, hlength, hmarks⟩ := hstart
    have hwalk : WalkState header bytes
        { pages := set, reader := PageReader.new (.open bytes short'') header.toHeader }
        (reservedPage header ++ free) :=
      ⟨hmarks, PageReader.new_holds hreads.valid hreads.length short''⟩
    have hcollects := hwalk.walkRoots hreads 1 roots
    simp only [bind, Except.bind]
    rcases hrun : Validation.walkRoots header 1 roots
      { pages := set, reader := PageReader.new (.open bytes short'') header.toHeader } with
      failure | walk
    · rw [hrun] at hcollects
      refine ⟨fun hpanic => hcollects.1 (Except.error.inj hpanic), nofun, ?_⟩
      rintro ⟨refs, hrefs, hperm⟩
      obtain ⟨trees, htrees, -, rfl⟩ := hrefs.eq hfree
      refine absurd (perm_pages_iff.mp hperm).1 (hcollects.2 trees.flatten ?_)
      rw [htrees, Option.map_some]
    · rw [hrun] at hcollects
      obtain ⟨new, hnew, hstands⟩ := hcollects
      obtain ⟨trees, htrees, rfl⟩ := Option.map_eq_some_iff.mp hnew
      refine ⟨hstands.finish.1, hstands.finish.2.trans ?_⟩
      constructor
      · exact fun hperm => ⟨_, ⟨free, trees, hfree, hlength, htrees, rfl⟩, hperm⟩
      · rintro ⟨refs, hrefs, hperm⟩
        obtain ⟨trees', htrees', -, rfl⟩ := hrefs.eq hfree
        rw [htrees] at htrees'
        cases htrees'
        exact hperm

end file

/-- The ownership check does not panic, and it accepts a file exactly if the pages that the file
refers to are its pages, each once. A header that `Header::read` accepts is all that is known of the
file: cycles, shared pages, lost pages and chains of the wrong length are all found. -/
theorem raw_page_ownership_exact {bytes : Bytes} {short short' short'' : Nat → Nat}
    {header : DatabaseHeader} (h : DatabaseHeader.read (.open bytes short) = .ok header)
    (roots : List Nat) :
    rawPageOwnership bytes short' short'' header roots ≠ .error .panic ∧
      (rawPageOwnership bytes short' short'' header roots = .ok () ↔
        ∃ refs, References header bytes roots refs ∧
          refs.Perm (List.range' 1 header.pages)) :=
  (DatabaseHeader.reads h).rawPageOwnership short' short'' roots

/-- A leaf with one record of three bytes. -/
def leafPage (rowid : UInt8) : Bytes :=
  [13, 0, 0, 0, 1, 1, 251, 0, 1, 251] ++ List.replicate 497 0 ++ [3, rowid, 0, 0, 0]

/-- A database of ten pages: the schema with three tables, a tree of two leaves at page 2 whose
first record has 1100 bytes and goes on in pages 5 and 6, a trunk of free pages with one leaf, and
two tables of one page. -/
def sampleFile : Bytes :=
  magic ++ [2, 0, 1, 1, 0, 64, 32, 32, 0, 0, 0, 0, 0, 0, 0, 10, 0, 0, 0, 7, 0, 0, 0, 2] ++
    List.replicate 60 0 ++ [13, 0, 0, 0, 3, 1, 241, 0, 1, 241, 1, 246, 1, 251] ++
    List.replicate 383 0 ++ [3, 1, 0, 0, 0, 3, 2, 0, 0, 0, 3, 3, 0, 0, 0] ++
  ([5, 0, 0, 0, 1, 1, 251, 0, 0, 0, 0, 4, 1, 251] ++ List.replicate 493 0 ++ [0, 0, 0, 3, 1]) ++
  ([13, 0, 0, 0, 1, 1, 165, 0, 1, 165] ++ List.replicate 411 0 ++
    [136, 76, 1] ++ List.replicate 84 1 ++ [0, 0, 0, 5]) ++
  leafPage 2 ++
  ([0, 0, 0, 6] ++ List.replicate 508 1) ++
  ([0, 0, 0, 0] ++ List.replicate 508 1) ++
  ([0, 0, 0, 0, 0, 0, 0, 1, 0, 0, 0, 8] ++ List.replicate 500 0) ++
  List.replicate 512 0 ++
  leafPage 1 ++ leafPage 1

def sampleFileHeader : DatabaseHeader where
  pageSize := 512
  pages := 10
  usableSize := 512
  firstFree := 7
  freePages := 2
  ordinaryPages := true

/-- The header of the sample. -/
theorem sampleFile_header :
    DatabaseHeader.read (.open sampleFile fun _ => 0) = .ok sampleFileHeader := by
  rw [DatabaseHeader.read_open]
  decide +kernel

/-- A freelist, the schema, a tree of three pages with an overflow chain, and two trees of one
leaf. -/
theorem sampleFile_references :
    References sampleFileHeader sampleFile [2, 9, 10] [7, 8, 1, 2, 3, 5, 6, 4, 9, 10] := by
  have hfree : readFreelist 512 (pageView sampleFileHeader.toHeader sampleFile) 1 7 =
      some ([7, 8], 0) := by decide +kernel
  have htrees : [1, 2, 9, 10].mapM (treePages 512 (pageView sampleFileHeader.toHeader sampleFile)
      maxTreeDepth) = some [[1], [2, 3, 5, 6, 4], [9], [10]] := by decide +kernel
  exact ⟨[7, 8], _, ⟨1, hfree⟩, rfl, htrees, rfl⟩

/-- The references of the sample are its ten pages. -/
theorem raw_page_ownership_exact_sample :
    rawPageOwnership sampleFile (fun _ => 0) (fun _ => 0) sampleFileHeader [2, 9, 10] = .ok () :=
  (raw_page_ownership_exact sampleFile_header [2, 9, 10]).2.mpr
    ⟨_, sampleFile_references, by decide⟩

end Velr.Validation
