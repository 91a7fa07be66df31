import Velr.Format.BTree

/-!
# Reading the freelist of the SQLite file format

A freelist is a chain of trunk pages; each names the next trunk and its leaves. `readFreelist`
follows a given number of trunks and answers with their pages in order and the trunk behind them.
`Trunk` says which leaves a trunk page under construction holds.
-/

namespace Velr.Format

open ByteString

/-- The next trunk and the leaves of a trunk page. -/
def readTrunk (size : Nat) (page : Bytes) : Option (Nat × List Nat) :=
  let count := ofBE (slice page 4 4)
  if count ≤ size / 4 - 2 then
    some (ofBE (slice page 0 4), (List.range count).map fun i => ofBE (slice page (8 + i * 4) 4))
  else none

/-- The pages of the first `trunks` trunks of the freelist at `trunk`, and the trunk behind them. -/
def readFreelist (size : Nat) (view : View) : Nat → Nat → Option (List Nat × Nat)
  | 0, trunk => some ([], trunk)
  | trunks + 1, trunk => do
      let (next, leaves) ← readTrunk size (← view trunk)
      let (rest, tail) ← readFreelist size view trunks next
      some (trunk :: leaves ++ rest, tail)

/-- A freelist that is read in a view is read in every view with more pages. -/
theorem readFreelist_within {size : Nat} {view view' : View} (h : view.Within view') :
    ∀ {trunks trunk : Nat} {result : List Nat × Nat},
      readFreelist size view trunks trunk = some result →
      readFreelist size view' trunks trunk = some result
  | 0, _, _, hr => hr
  | trunks + 1, trunk, result, hr => by
      simp only [readFreelist, Option.bind_eq_bind, Option.bind_eq_some_iff] at hr ⊢
      obtain ⟨page, hpage, ⟨next, leaves⟩, htrunk, ⟨rest, tail⟩, hrest, hresult⟩ := hr
      exact ⟨page, h trunk page hpage, ⟨next, leaves⟩, htrunk, ⟨rest, tail⟩,
        readFreelist_within h hrest, hresult⟩

/-- A trunk page under construction, with its leaves. -/
structure Trunk (size : Nat) (page : Bytes) (leaves : List Nat) : Prop where
  length : page.length = size
  slot : ∀ i (h : i < leaves.length), slice page (8 + i * 4) 4 = toBE 4 leaves[i]

/-- A page of zeros is a trunk without leaves. -/
theorem Trunk.empty (size : Nat) : Trunk size (List.replicate size 0) [] where
  length := List.length_replicate
  slot i h := by simp at h

/-- A leaf that is entered behind the others makes a trunk with one more. -/
theorem Trunk.push {size leaf : Nat} {page : Bytes} {leaves : List Nat} (h : Trunk size page leaves)
    (hroom : 8 + leaves.length * 4 + 4 ≤ size) :
    Trunk size (overwrite page (8 + leaves.length * 4) (toBE 4 leaf)) (leaves ++ [leaf]) where
  length := by
    rw [length_overwrite (by rw [length_toBE, h.length]; exact hroom), h.length]
  slot i hi := by
    have hbound : 8 + leaves.length * 4 + (toBE 4 leaf).length ≤ page.length := by
      rw [length_toBE, h.length]
      exact hroom
    simp only [List.length_append, List.length_singleton] at hi
    by_cases hlast : i = leaves.length
    · subst hlast
      rw [slice_overwrite_self hbound (by simp)]
      simp
    · rw [slice_overwrite_of_disjoint hbound (by omega), h.slot i (by omega),
        List.getElem_append_left]

/-- A finished trunk page reads back. -/
theorem Trunk.read {size next : Nat} {page : Bytes} {leaves : List Nat} (h : Trunk size page leaves)
    (hroom : leaves.length ≤ size / 4 - 8) (hsize : 512 ≤ size) (hupper : size ≤ 32768)
    (hnext : next < 2 ^ 32) (hleaves : ∀ leaf ∈ leaves, leaf < 2 ^ 32) :
    readTrunk size (overwrite (overwrite page 0 (toBE 4 next)) 4 (toBE 4 leaves.length))
      = some (next, leaves) := by
  have hpage := h.length
  have hfirst : 0 + (toBE 4 next).length ≤ page.length := by rw [length_toBE]; omega
  have hlength := length_overwrite hfirst
  have hsecond : 4 + (toBE 4 leaves.length).length
      ≤ (overwrite page 0 (toBE 4 next)).length := by
    rw [length_toBE, hlength]
    omega
  have hcount : ofBE (slice (overwrite (overwrite page 0 (toBE 4 next)) 4
      (toBE 4 leaves.length)) 4 4) = leaves.length := by
    rw [slice_overwrite_self hsecond (by simp), ofBE_toBE_of_lt (by omega)]
  simp only [readTrunk, hcount]
  rw [if_pos (by omega), slice_overwrite_of_disjoint hsecond (by omega),
    slice_overwrite_self hfirst (by simp), ofBE_toBE_of_lt (by simpa using hnext)]
  refine congrArg some (Prod.ext rfl ?_)
  refine List.ext_getElem (by simp) fun i hi hi' => ?_
  simp only [List.getElem_map, List.getElem_range]
  rw [slice_overwrite_of_disjoint hsecond (by rw [length_toBE]; omega),
    slice_overwrite_of_disjoint hfirst (by rw [length_toBE]; omega), h.slot i hi',
    ofBE_toBE_of_lt]
  have := hleaves leaves[i] (List.getElem_mem hi')
  omega

end Velr.Format
