import Mathlib.Logic.Function.Basic
import Velr.Common.Reading
import Velr.IndexStats.Sampler

/-!
# The page cache of the validation

`PageReader` of `validation.rs`: two blocks of the file, of which the one not used last is replaced.
A block is known by its start alone, so its buffer must hold what the file holds from there on, as
far as the file goes; behind that a last block leaves what was in the buffer before.
-/

namespace Velr.Validation

open ByteString
open IndexStats (Failure)
open Reading (Read LawfulRead File)

/-- `BLOCK_BYTES` -/
def blockBytes : Nat := 4 * (1024 * 1024)

/-- `Header`, as far as pages are read by it. -/
structure Header where
  pageSize : Nat
  pages : Nat
deriving DecidableEq

/-- What `Header::read` accepts: a page size of the format and a `u32` of pages. -/
structure Header.Valid (header : Header) : Prop where
  least : 512 ≤ header.pageSize
  most : header.pageSize ≤ 65536
  power : ∃ k, header.pageSize = 2 ^ k
  pages : header.pages < 2 ^ 32

/-- `PageReader` -/
structure PageReader where
  file : File
  buffers : Fin 2 → Bytes
  starts : Fin 2 → Nat
  recent : Fin 2
  pageSize : Nat
  length : Nat

/-- `PageReader::new`; `u64::MAX` is the start of no block. -/
def PageReader.new (file : File) (header : Header) : PageReader :=
  { file
    buffers := fun _ => List.replicate blockBytes 0
    starts := fun _ => 2 ^ 64 - 1
    recent := 0
    pageSize := header.pageSize
    length := header.pages * header.pageSize }

/-- `PageReader::page`: a block read into a slot. -/
def PageReader.load (reader : PageReader) (slot : Fin 2) (start : Nat) :
    Except Failure Unit × PageReader :=
  let length := min (reader.length - start) blockBytes
  -- `self.buffers[slot][..length]`
  if (reader.buffers slot).length < length then (.error .panic, reader)
  else
    match Read.readExact (reader.file.seek start) length with
    | (none, file) => (.error (.error "failed to fill whole buffer"), { reader with file })
    | (some block, file) =>
        (.ok (), { reader with
          file
          buffers := Function.update reader.buffers slot (overwrite (reader.buffers slot) 0 block)
          starts := Function.update reader.starts slot start })

/-- `PageReader::page`: the slot of a block. -/
def PageReader.slot (reader : PageReader) (start : Nat) : Except Failure (Fin 2) × PageReader :=
  if reader.starts 0 = start then (.ok 0, reader)
  else if reader.starts 1 = start then (.ok 1, reader)
  else
    match reader.load (1 - reader.recent) start with
    | (.error failure, reader') => (.error failure, reader')
    | (.ok (), reader') => (.ok (1 - reader.recent), reader')

/-- `PageReader::page` -/
def PageReader.page (reader : PageReader) (page : Nat) : Except Failure Bytes × PageReader :=
  let offset := (page - 1) * reader.pageSize
  let start := offset / blockBytes * blockBytes
  match reader.slot start with
  | (.error failure, reader) => (.error failure, reader)
  | (.ok slot, reader) =>
      let reader := { reader with recent := slot }
      let within := offset - start
      if (reader.buffers slot).length < within + reader.pageSize then (.error .panic, reader)
      else (.ok (slice (reader.buffers slot) within reader.pageSize), reader)

/-- Page after page. -/
def PageReader.requests : List Nat → PageReader → List (Except Failure Bytes)
  | [], _ => []
  | page :: pages, reader =>
      let (result, reader) := reader.page page
      result :: PageReader.requests pages reader

/-! ## The blocks -/

/-- What a file holds from the start of a block on, up to the end of the block or its own. -/
def block (bytes : Bytes) (start : Nat) : Bytes :=
  slice bytes start (min (bytes.length - start) blockBytes)

/-- A block is cut at the end of the file. -/
theorem length_block (bytes : Bytes) (start : Nat) :
    (block bytes start).length = min (bytes.length - start) blockBytes := by
  rw [block, slice, List.length_take, List.length_drop]
  omega

/-- A reader of a file: each buffer starts with the block of its start, if the file has that. -/
structure PageReader.Holds (reader : PageReader) (bytes : Bytes) (pageSize : Nat) : Prop where
  file : reader.file.bytes = bytes
  length : reader.length = bytes.length
  pageSize : reader.pageSize = pageSize
  buffers : ∀ slot, (reader.buffers slot).length = blockBytes
  blocks : ∀ slot, reader.starts slot < bytes.length →
    block bytes (reader.starts slot) <+: reader.buffers slot

variable {reader : PageReader} {bytes : Bytes} {pageSize : Nat}

/-- A block is read whole, and the other slot keeps its own. -/
theorem PageReader.Holds.load (h : reader.Holds bytes pageSize) (start : Nat) (slot : Fin 2) :
    ∃ reader', reader.load slot start = (.ok (), reader') ∧ reader'.Holds bytes pageSize ∧
      reader'.starts slot = start := by
  have hfits : min (bytes.length - start) blockBytes ≤ (reader.buffers slot).length := by
    rw [h.buffers]
    exact Nat.min_le_right _ _
  have hunread : LawfulRead.unread (reader.file.seek start) = bytes.drop start :=
    congrArg (List.drop start) h.file
  have hcontents := LawfulRead.contents_readExact (reader.file.seek start)
    (min (bytes.length - start) blockBytes)
  obtain ⟨hblock, -⟩ := LawfulRead.readExact_of_le
    (show min (bytes.length - start) blockBytes ≤
        (LawfulRead.unread (reader.file.seek start)).length by
      rw [hunread, List.length_drop]
      exact Nat.min_le_left _ _)
  rcases hread : Read.readExact (reader.file.seek start)
    (min (bytes.length - start) blockBytes) with ⟨got, file⟩
  rw [hread] at hblock hcontents
  rw [hunread] at hblock
  dsimp only at hblock
  subst hblock
  have hlength : (block bytes start).length ≤ (reader.buffers slot).length := by
    rw [length_block]
    exact hfits
  have hload : reader.load slot start =
      (.ok (), { reader with
        file
        buffers := Function.update reader.buffers slot
          (overwrite (reader.buffers slot) 0 (block bytes start))
        starts := Function.update reader.starts slot start }) := by
    rw [PageReader.load, h.length, if_neg (Nat.not_lt.mpr hfits), hread]
    rfl
  refine ⟨_, hload, ⟨hcontents.trans h.file, h.length, h.pageSize, ?_, ?_⟩,
    Function.update_self _ _ _⟩
  · intro other
    by_cases hother : other = slot
    · subst hother
      dsimp only
      rw [Function.update_self, length_overwrite (by rw [Nat.zero_add]; exact hlength), h.buffers]
    · dsimp only
      rw [Function.update_of_ne hother, h.buffers]
  · intro other
    by_cases hother : other = slot
    · subst hother
      dsimp only
      rw [Function.update_self, Function.update_self, overwrite_zero]
      exact fun _ => List.prefix_append _ _
    · dsimp only
      rw [Function.update_of_ne hother, Function.update_of_ne hother]
      exact h.blocks other

/-- A block that is asked for is in a slot. -/
theorem PageReader.Holds.slot (h : reader.Holds bytes pageSize) (start : Nat) :
    ∃ slot reader', reader.slot start = (.ok slot, reader') ∧ reader'.Holds bytes pageSize ∧
      reader'.starts slot = start := by
  rw [PageReader.slot]
  split
  case isTrue hfirst => exact ⟨0, reader, rfl, h, hfirst⟩
  case isFalse =>
    split
    case isTrue hsecond => exact ⟨1, reader, rfl, h, hsecond⟩
    case isFalse =>
      obtain ⟨reader', hload, hholds, hstarts⟩ := h.load start (1 - reader.recent)
      rw [hload]
      exact ⟨1 - reader.recent, reader', rfl, hholds, hstarts⟩

/-! ## Pages -/

/-- A page lies in one block, in front of its end. -/
theorem page_in_block {pages page : Nat} (hlength : bytes.length = pages * pageSize)
    (hdvd : pageSize ∣ blockBytes) (hpos : 0 < pageSize) (hfirst : 1 ≤ page)
    (hlast : page ≤ pages) :
    let offset := (page - 1) * pageSize
    let start := offset / blockBytes * blockBytes
    start ≤ offset ∧ start < bytes.length ∧
      offset - start + pageSize ≤ min (bytes.length - start) blockBytes := by
  intro offset start
  have hstart : start ≤ offset := Nat.div_mul_le_self _ _
  have hstop : offset + pageSize ≤ bytes.length := by
    have hmul := Nat.mul_le_mul_right pageSize hlast
    have hpage : (page - 1 + 1) * pageSize = offset + pageSize := Nat.succ_mul _ _
    rw [Nat.sub_add_cancel hfirst] at hpage
    omega
  have hwithin : offset - start = offset % blockBytes := by
    have hdiv := Nat.div_add_mod' offset blockBytes
    omega
  have hblock : offset % blockBytes + pageSize ≤ blockBytes := by
    obtain ⟨n, hn⟩ := hdvd
    have hmod : offset % blockBytes = (page - 1) % n * pageSize := by
      rw [hn, Nat.mul_comm pageSize n]
      exact Nat.mul_mod_mul_right _ _ _
    have hn0 : 0 < n := by
      rcases Nat.eq_zero_or_pos n with rfl | hn0
      · cases hn
      · exact hn0
    have hless := Nat.mul_le_mul_right pageSize (Nat.mod_lt (page - 1) hn0)
    rw [Nat.succ_mul, ← hmod, Nat.mul_comm n, ← hn] at hless
    exact hless
  refine ⟨hstart, by omega, ?_⟩
  rw [Nat.le_min]
  omega

/-- A slice of a block is a slice of the file. -/
theorem slice_of_prefix {buffer : Bytes} {start within n : Nat}
    (h : block bytes start <+: buffer)
    (hfits : within + n ≤ min (bytes.length - start) blockBytes) :
    slice buffer within n = slice bytes (start + within) n := by
  obtain ⟨stale, rfl⟩ := h
  rw [slice_append_left (by rw [length_block]; exact hfits), block, slice, slice, slice,
    List.drop_take, List.take_take, List.drop_drop, Nat.min_eq_left (by omega)]

/-- A page that is asked for is that of the file. -/
theorem PageReader.Holds.page {pages page : Nat} (h : reader.Holds bytes pageSize)
    (hlength : bytes.length = pages * pageSize) (hdvd : pageSize ∣ blockBytes)
    (hpos : 0 < pageSize) (hfirst : 1 ≤ page) (hlast : page ≤ pages) :
    ∃ reader', reader.page page = (.ok (slice bytes ((page - 1) * pageSize) pageSize), reader') ∧
      reader'.Holds bytes pageSize := by
  obtain ⟨hbehind, hinside, hfits⟩ := page_in_block hlength hdvd hpos hfirst hlast
  obtain ⟨slot, reader', hslot, hholds, hstart⟩ := h.slot _
  have hblock := hholds.blocks slot (hstart ▸ hinside)
  rw [hstart] at hblock
  have hroom : ¬(reader'.buffers slot).length <
      (page - 1) * pageSize - (page - 1) * pageSize / blockBytes * blockBytes + pageSize := by
    rw [hholds.buffers]
    omega
  refine ⟨{ reader' with recent := slot }, ?_,
    hholds.file, hholds.length, hholds.pageSize, hholds.buffers, hholds.blocks⟩
  rw [PageReader.page, h.pageSize]
  dsimp only
  rw [hslot]
  dsimp only
  rw [hholds.pageSize, if_neg hroom, slice_of_prefix hblock hfits, Nat.add_sub_cancel' hbehind]

/-- A page size of the format divides the block size. -/
theorem Header.Valid.dvd {header : Header} (h : header.Valid) :
    header.pageSize ∣ blockBytes := by
  obtain ⟨k, hk⟩ := h.power
  have hmost := h.most
  rw [hk] at hmost ⊢
  have hk16 : k ≤ 16 := (Nat.pow_le_pow_iff_right (by decide)).mp
    (show 2 ^ k ≤ 2 ^ 16 from hmost)
  exact Nat.dvd_trans (Nat.pow_dvd_pow 2 hk16) (by decide)

/-- A new reader holds no block. -/
theorem PageReader.new_holds {header : Header} (h : header.Valid)
    (hlength : bytes.length = header.pages * header.pageSize) (short : Nat → Nat) :
    (PageReader.new (.open bytes short) header).Holds bytes header.pageSize where
  file := rfl
  length := hlength.symm
  pageSize := rfl
  buffers _ := List.length_replicate
  blocks _ hslot := by
    have hmost := Nat.mul_le_mul (Nat.le_of_lt h.pages) h.most
    have hstart : 2 ^ 64 - 1 < bytes.length := hslot
    omega

/-- The cache is transparent: each request for a page of the file returns its bytes, whatever was
requested before it, and no slice goes past a buffer. -/
theorem page_cache_transparent {header : Header} (hheader : header.Valid) {bytes : Bytes}
    (hlength : bytes.length = header.pages * header.pageSize) (short : Nat → Nat)
    {pages : List Nat} (hpages : ∀ page ∈ pages, 1 ≤ page ∧ page ≤ header.pages) :
    (PageReader.new (.open bytes short) header).requests pages =
      pages.map fun page => .ok (slice bytes ((page - 1) * header.pageSize) header.pageSize) := by
  have hholds := PageReader.new_holds hheader hlength short
  have hpos : 0 < header.pageSize := Nat.lt_of_lt_of_le (by decide) hheader.least
  generalize PageReader.new (.open bytes short) header = reader at hholds
  induction pages generalizing reader with
  | nil => rfl
  | cons page pages ih =>
      obtain ⟨hfirst, hlast⟩ := hpages page (by simp)
      obtain ⟨reader', hpage, hholds'⟩ :=
        hholds.page hlength hheader.dvd hpos hfirst hlast
      rw [PageReader.requests, hpage, List.map_cons]
      dsimp only
      rw [ih (fun p hp => hpages p (by simp [hp])) reader' hholds']

/-- Two pages of one block, the last one asked for twice. -/
theorem page_cache_transparent_small :
    (PageReader.new (.open (List.replicate 512 3 ++ List.replicate 512 5) fun _ => 0)
        { pageSize := 512, pages := 2 }).requests [2, 1, 2] =
      [.ok (List.replicate 512 5), .ok (List.replicate 512 3), .ok (List.replicate 512 5)] := by
  have hfirst : slice (List.replicate 512 3 ++ List.replicate 512 5) 0 512 =
      List.replicate 512 3 := List.take_left' List.length_replicate
  have hsecond : slice (List.replicate 512 3 ++ List.replicate 512 5) 512 512 =
      List.replicate 512 5 := by
    rw [slice, List.drop_left' List.length_replicate,
      List.take_of_length_le (Nat.le_of_eq List.length_replicate)]
  rw [@page_cache_transparent { pageSize := 512, pages := 2 }
    ⟨by decide, by decide, ⟨9, by decide⟩, by decide⟩ _
    (by rw [List.length_append, List.length_replicate, List.length_replicate]; rfl) _ _
    (by decide)]
  simp only [List.map_cons, List.map_nil, hfirst, hsecond]

end Velr.Validation
