import Mathlib.Data.List.Nodup
import Mathlib.Order.Fin.Basic
import Velr.Common.Bitmaps
import Velr.Common.FirstWins

/-!
# Pages of the integer-ID map

`Page` and `Budget` of `id_map.rs`. A page takes up the slots of 4096 neighbouring ids: while nodes
are loaded it is a bitmap, and sealing it reserves one value for each member, found by the member's
rank. `Building` and `Filled` say which entries a page stands for before and after it is sealed.
-/

namespace Velr.IdMap

open Bitmaps FirstWins

/-- An error with its message, or a panic. -/
inductive Failure (ε : Type) where
  | error (error : ε)
  | panic
deriving DecidableEq

/-- `ImportNode` -/
structure ImportNode where
  id : Int64
  labelGroup : Int64
deriving DecidableEq

/-! ## The budget -/

/-- `Budget`. `clamped` is set by a release of more than what is charged; the code does not record
it. -/
structure Budget where
  used : Nat
  limit : Nat
  clamped : Bool
deriving DecidableEq

/-- `Budget::charge`. A sum that overflows a `usize` exceeds every limit as well. -/
def Budget.charge (budget : Budget) (bytes : Nat) : Option Budget :=
  if budget.limit < budget.used + bytes then none
  else some { budget with used := budget.used + bytes }

/-- `saturating_sub` from the bytes that are charged. -/
def Budget.release (budget : Budget) (bytes : Nat) : Budget :=
  { budget with
    used := budget.used - bytes, clamped := budget.clamped || decide (budget.used < bytes) }

/-! ## Pages -/

/-- A slot of a page: the low bits of an id. -/
abbrev Slot := Fin (2 ^ 12)

/-- `slot >> 6` -/
def Slot.word (slot : Slot) : Fin 64 := ⟨slot.val / 64, by omega⟩

/-- `slot & 63` -/
def Slot.bit (slot : Slot) : Nat := slot.val % 64

/-- `PageValues` -/
inductive PageValues where
  | building
  | compact (values : List UInt32)
  | packed (values : List UInt64)
  | wide (values : List ImportNode)
deriving DecidableEq

/-- `DenseMembership` -/
structure DenseMembership where
  bitmap : Vector Word 64
  ranks : Vector Nat 64
deriving DecidableEq

/-- `OccupiedWord` -/
structure OccupiedWord where
  bitmap : Word
  rank : Nat
deriving DecidableEq

/-- `Membership` -/
inductive Membership where
  | dense (membership : DenseMembership)
  | sparse (mask : Word) (words : List OccupiedWord)
deriving DecidableEq

/-- `Page` -/
structure Page where
  membership : Membership
  count : Nat
  singleLabel : Option Int64
  compact : Bool
  packed : Bool
  values : PageValues
deriving DecidableEq

/-- `u32::try_from(value).is_ok()` -/
def fitsU32 (value : Int64) : Bool := decide (0 ≤ value.toInt ∧ value.toInt < 2 ^ 32)

/-- `size_of::<DenseMembership>()` -/
def denseMembershipBytes : Nat := 640

/-- `size_of::<OccupiedWord>()` -/
def occupiedWordBytes : Nat := 10

/-- `Page::new` -/
def Page.new : Page where
  membership := .dense ⟨.replicate 64 0, .replicate 64 0⟩
  count := 0
  singleLabel := none
  compact := true
  packed := true
  values := .building

/-- `Page::insert` -/
def Page.insert (page : Page) (slot : Slot) (node : ImportNode) :
    Except (Failure Unit) (Bool × Page) :=
  match page.membership with
  | .sparse _ _ => .error .panic
  | .dense membership =>
      let bit := (1 : Word) <<< slot.bit
      let word := membership.bitmap[slot.word]
      if word &&& bit ≠ 0 then .ok (false, page)
      else
        .ok (true, { page with
          membership := .dense { membership with
            bitmap := membership.bitmap.set slot.word (word ||| bit) }
          count := page.count + 1
          singleLabel :=
            if page.count = 0 then some node.labelGroup
            else if page.singleLabel ≠ some node.labelGroup then none
            else page.singleLabel
          compact := page.compact && fitsU32 node.id
          packed := page.packed && (fitsU32 node.id && fitsU32 node.labelGroup) })

/-- `Page::rank` -/
def Page.rank (page : Page) (slot : Slot) : Except (Failure String) (Option Nat) :=
  let bit := (1 : Word) <<< slot.bit
  let read (word : Word) (rank : Nat) : Option Nat :=
    if word &&& bit = 0 then none else some (rank + countOnes (word &&& (bit - 1)))
  match page.membership with
  | .dense membership => .ok (read membership.bitmap[slot.word] membership.ranks[slot.word])
  | .sparse mask words =>
      let wordBit := (1 : Word) <<< slot.word.val
      if mask &&& wordBit = 0 then .ok none
      else
        match words[countOnes (mask &&& (wordBit - 1))]? with
        | none => .error .panic
        | some entry => .ok (read entry.bitmap entry.rank)

/-- `Page::value_bytes` -/
def Page.valueBytes (page : Page) : Nat :=
  page.count *
    (if page.compact && page.singleLabel.isSome then 4 else if page.packed then 8 else 16)

/-- The ranks of a bitmap's words from a rank on. -/
def prefixRanks : Nat → List Word → List Nat
  | _, [] => []
  | rank, word :: words => rank :: prefixRanks (rank + countOnes word) words

/-- The words that are not zero, from an index on. -/
def occupiedMask : Nat → List Word → Word → Word
  | _, [], mask => mask
  | index, word :: words, mask =>
      occupiedMask (index + 1) words (if word ≠ 0 then mask ||| ((1 : Word) <<< index) else mask)

@[simp] theorem length_prefixRanks (rank : Nat) (words : List Word) :
    (prefixRanks rank words).length = words.length := by
  induction words generalizing rank with
  | nil => rfl
  | cons word words ih => rw [prefixRanks, List.length_cons, ih, List.length_cons]

/-- The ranks of all the words. -/
def ranksOf (bitmap : Vector Word 64) : Vector Nat 64 :=
  ⟨(prefixRanks 0 bitmap.toList).toArray, by
    rw [List.size_toArray, length_prefixRanks, Vector.length_toList]⟩

theorem toList_ranksOf (bitmap : Vector Word 64) :
    (ranksOf bitmap).toList = prefixRanks 0 bitmap.toList := rfl

/-- The membership half of `Page::seal`. -/
def Page.sealMembership (page : Page) (budget : Budget) (compress : Bool) : Page × Budget :=
  match page.membership with
  | .sparse _ _ => (page, budget)
  | .dense membership =>
      let ranks := ranksOf membership.bitmap
      let mask := occupiedMask 0 membership.bitmap.toList 0
      let occupied := countOnes mask
      if compress && decide (occupied < 64) then
        let words := ((membership.bitmap.toList.zip ranks.toList).filter (·.1 ≠ 0)).map
          fun entry => ⟨entry.1, entry.2⟩
        ({ page with membership := .sparse mask words },
          budget.release (denseMembershipBytes - occupied * occupiedWordBytes))
      else ({ page with membership := .dense { membership with ranks } }, budget)

/-- `Page::seal` -/
def Page.seal (page : Page) (budget : Budget) (compress : Bool) :
    Budget × Except (Failure Unit) Page :=
  let (page, budget) := page.sealMembership budget compress
  match budget.charge page.valueBytes with
  | none => (budget, .error (.error ()))
  | some budget =>
      (budget, .ok { page with
        values :=
          if page.compact && page.singleLabel.isSome then .compact (.replicate page.count 0)
          else if page.packed then .packed (.replicate page.count 0)
          else .wide (.replicate page.count ⟨0, 0⟩) })

/-- What `Page::set` does with the values. -/
def PageValues.write (values : PageValues) (rank : Nat) (node : ImportNode) :
    Except (Failure String) PageValues :=
  match values with
  | .compact values =>
      if rank < values.length then .ok (.compact (values.set rank node.id.toUInt64.toUInt32))
      else .error .panic
  | .packed values =>
      if rank < values.length then
        .ok (.packed (values.set rank (node.id.toUInt64 ||| node.labelGroup.toUInt64 <<< 32)))
      else .error .panic
  | .wide values =>
      if rank < values.length then .ok (.wide (values.set rank node)) else .error .panic
  | .building => .error (.error "integer-ID page was not sealed")

/-- `Page::set` -/
def Page.set (page : Page) (slot : Slot) (node : ImportNode) : Except (Failure String) Page := do
  match ← page.rank slot with
  | none => .error (.error "integer-ID spool referenced an undeclared slot")
  | some rank => (page.values.write rank node).map fun values => { page with values }

/-- What `Page::lookup` reads of the values; the label of compact ones is unwrapped. -/
def PageValues.read (values : PageValues) (singleLabel : Option Int64) (rank : Nat) :
    Except (Failure String) ImportNode :=
  match values with
  | .compact values =>
      match values[rank]?, singleLabel with
      | some value, some label => .ok ⟨value.toUInt64.toInt64, label⟩
      | _, _ => .error .panic
  | .packed values =>
      match values[rank]? with
      | some value => .ok ⟨value.toUInt32.toUInt64.toInt64, (value >>> 32).toInt64⟩
      | none => .error .panic
  | .wide values =>
      match values[rank]? with
      | some value => .ok value
      | none => .error .panic
  | .building => .error .panic

/-- `Page::lookup` -/
def Page.lookup (page : Page) (slot : Slot) : Except (Failure String) (Option ImportNode) := do
  match ← page.rank slot with
  | none => .ok none
  | some rank => (page.values.read page.singleLabel rank).map some

/-! ## The membership of a page -/

/-- Whether a number is a slot of one of the entries. -/
def memberOf (entries : List (Slot × ImportNode)) (i : Nat) : Bool :=
  decide (i ∈ entries.map (·.1.val))

/-- A new entry makes its slot a member. -/
theorem memberOf_append (entries : List (Slot × ImportNode)) (slot : Slot) (node : ImportNode)
    (i : Nat) :
    memberOf (entries ++ [(slot, node)]) i = (decide (i = slot.val) || memberOf entries i) := by
  rw [memberOf, memberOf, ← Bool.decide_or]
  refine decide_eq_decide.mpr ?_
  rw [List.map_append, List.map_singleton, List.mem_append, List.mem_singleton, or_comm]

theorem memberOf_slot {entries : List (Slot × ImportNode)} {slot : Slot} :
    memberOf entries slot.val = decide (slot ∈ entries.map Prod.fst) := by
  refine decide_eq_decide.mpr ?_
  rw [List.mem_map, List.mem_map]
  exact ⟨fun ⟨entry, hentry, h⟩ => ⟨entry, hentry, Fin.ext h⟩,
    fun ⟨entry, hentry, h⟩ => ⟨entry, hentry, congrArg Fin.val h⟩⟩

/-- A page that has taken in these entries and is not sealed. -/
structure Page.Building (page : Page) (entries : List (Slot × ImportNode)) : Prop where
  dense : ∃ membership, page.membership = .dense membership ∧
    ∀ i < 2 ^ 12, bit membership.bitmap.toList i = memberOf entries i
  count : page.count = ones (2 ^ 12) (memberOf entries)
  singleLabel : ∀ label, page.singleLabel = some label →
    ∀ entry ∈ entries, entry.2.labelGroup = label
  compact : page.compact = true → ∀ entry ∈ entries, fitsU32 entry.2.id = true
  packed : page.packed = true →
    ∀ entry ∈ entries, fitsU32 entry.2.id = true ∧ fitsU32 entry.2.labelGroup = true

variable {page page' : Page} {entries : List (Slot × ImportNode)} {slot : Slot} {node : ImportNode}

/-- The bit of a slot is in its word. -/
theorem bit_slot (words : Vector Word 64) (slot : Slot) :
    bit words.toList slot.val = words[slot.word].getLsbD slot.bit := by
  have hword : words.toList[slot.val / 64]? = some words[slot.word] := by
    rw [Vector.getElem?_toList]
    exact Vector.getElem?_eq_getElem _
  rw [bit, hword]
  rfl

/-- The bitmap with one more bit. -/
theorem bit_set (words : Vector Word 64) (slot : Slot) {i : Nat} (hi : i < 2 ^ 12) :
    bit (words.set slot.word (words[slot.word] ||| ((1 : Word) <<< slot.bit))).toList i =
      (decide (i = slot.val) || bit words.toList i) := by
  have hbit : slot.bit < 64 := Nat.mod_lt _ (by decide)
  obtain ⟨j, rfl⟩ : ∃ j : Slot, i = j.val := ⟨⟨i, hi⟩, rfl⟩
  rw [bit_slot, bit_slot]
  have hget : (words.set slot.word (words[slot.word] ||| ((1 : Word) <<< slot.bit)))[j.word] =
      if slot.word.val = j.word.val then words[slot.word] ||| ((1 : Word) <<< slot.bit)
      else words[j.word] := Vector.getElem_set ..
  have hslot : slot.val = 64 * slot.word.val + slot.bit := (Nat.div_add_mod slot.val 64).symm
  have hj : j.val = 64 * j.word.val + j.bit := (Nat.div_add_mod j.val 64).symm
  rw [hget]
  by_cases hword : slot.word = j.word
  · rw [if_pos (congrArg Fin.val hword), BitVec.getLsbD_or, getLsbD_shift_one hbit, Bool.or_comm]
    have hval : slot.word.val = j.word.val := congrArg Fin.val hword
    simp only [hword]
    congr 1
    exact decide_eq_decide.mpr (by omega)
  · rw [if_neg fun h => hword (Fin.ext h), decide_eq_false, Bool.false_or]
    intro heq
    exact hword (congrArg Slot.word (Fin.ext heq.symm))

/-- A new page has no entries. -/
theorem building_new : Page.new.Building [] where
  dense := by
    refine ⟨_, rfl, fun i hi => ?_⟩
    obtain ⟨j, rfl⟩ : ∃ j : Slot, i = j.val := ⟨⟨i, hi⟩, rfl⟩
    rw [bit_slot]
    have hget : (Vector.replicate 64 (0 : Word))[j.word] = 0 := Vector.getElem_replicate _
    rw [hget]
    exact BitVec.getLsbD_zero
  count := (ones_eq_zero fun _ _ => rfl).symm
  singleLabel := fun _ _ _ hentry => nomatch hentry
  compact := fun _ _ hentry => nomatch hentry
  packed := fun _ _ hentry => nomatch hentry

/-- A slot that is a member is not inserted. -/
theorem Page.Building.insert_old (h : page.Building entries) (hold : slot ∈ entries.map Prod.fst)
    (node : ImportNode) : page.insert slot node = .ok (false, page) := by
  obtain ⟨membership, hmembership, hbits⟩ := h.dense
  have hbit : slot.bit < 64 := Nat.mod_lt _ (by decide)
  have hmember := hbits slot.val slot.isLt
  rw [bit_slot, memberOf_slot, decide_eq_true hold] at hmember
  rw [Page.insert, hmembership]
  refine if_pos fun hzero => ?_
  rw [and_shift_one_eq_zero hbit] at hzero
  rw [hzero] at hmember
  cases hmember

/-- A new slot joins the entries of a page. -/
theorem Page.Building.insert_new (h : page.Building entries) (hnew : slot ∉ entries.map Prod.fst)
    (node : ImportNode) :
    ∃ page', page.insert slot node = .ok (true, page') ∧
      page'.Building (entries ++ [(slot, node)]) := by
  obtain ⟨membership, hmembership, hbits⟩ := h.dense
  have hbit : slot.bit < 64 := Nat.mod_lt _ (by decide)
  have hmember := hbits slot.val slot.isLt
  rw [memberOf_slot, decide_eq_false hnew] at hmember
  have hinsert : ∀ i, memberOf (entries ++ [(slot, node)]) i =
      (decide (i = slot.val) || memberOf entries i) := memberOf_append entries slot node
  rw [bit_slot] at hmember
  rw [Page.insert, hmembership]
  refine ⟨_, if_neg (not_not.mpr ((and_shift_one_eq_zero hbit).mpr hmember)), ?_⟩
  have hzero : page.count = 0 → entries = [] := by
    intro hzero
    rw [List.eq_nil_iff_forall_not_mem]
    intro entry hentry
    have hlt := ones_lt (p := memberOf entries) (k := entry.1.val) (n := 2 ^ 12)
      (decide_eq_true (List.mem_map.mpr ⟨entry, hentry, rfl⟩)) entry.1.isLt
    rw [← h.count, hzero] at hlt
    exact Nat.not_lt_zero _ hlt
  exact {
    dense := ⟨_, rfl, fun i hi => by rw [bit_set _ _ hi, hinsert, hbits i hi]⟩
    count := by
      rw [ones_congr fun i _ => hinsert i, ones_insert (memberOf_slot.trans (decide_eq_false hnew))
        slot.isLt, ← h.count]
    singleLabel := by
      intro label hlabel entry hentry
      dsimp only at hlabel
      rw [List.mem_append, List.mem_singleton] at hentry
      split at hlabel
      · next hcount =>
          cases hlabel
          rcases hentry with hentry | rfl
          · rw [hzero hcount] at hentry
            cases hentry
          · rfl
      · split at hlabel
        · cases hlabel
        · next hsame =>
            rcases hentry with hentry | rfl
            · exact h.singleLabel label hlabel entry hentry
            · rw [not_not, hlabel, Option.some.injEq] at hsame
              exact hsame.symm
    compact := by
      intro hcompact entry hentry
      rw [Bool.and_eq_true] at hcompact
      rw [List.mem_append, List.mem_singleton] at hentry
      rcases hentry with hentry | rfl
      · exact h.compact hcompact.1 entry hentry
      · exact hcompact.2
    packed := by
      intro hpacked entry hentry
      rw [Bool.and_eq_true, Bool.and_eq_true] at hpacked
      rw [List.mem_append, List.mem_singleton] at hentry
      rcases hentry with hentry | rfl
      · exact h.packed hpacked.1 entry hentry
      · exact hpacked.2 }

/-- An insertion into a page never fails. -/
theorem Page.Building.insert_ok (h : page.Building entries) (slot : Slot) (node : ImportNode) :
    ∃ new page', page.insert slot node = .ok (new, page') := by
  by_cases hold : slot ∈ entries.map Prod.fst
  · exact ⟨_, _, h.insert_old hold node⟩
  · obtain ⟨page', hinsert, -⟩ := h.insert_new hold node
    exact ⟨_, _, hinsert⟩

/-! ## Ranks -/

/-- The rank of a word counts the ones before it. -/
theorem getElem?_prefixRanks : ∀ {words : List Word} {i : Nat} (rank : Nat), i < words.length →
    (prefixRanks rank words)[i]? = some (rank + ((words.take i).map countOnes).sum)
  | word :: words, 0, rank, _ => by
      rw [prefixRanks, List.take_zero, List.map_nil, List.sum_nil, Nat.add_zero]
      rfl
  | word :: words, i + 1, rank, h => by
      rw [prefixRanks, List.getElem?_cons_succ,
        getElem?_prefixRanks (rank + countOnes word) (Nat.lt_of_succ_lt_succ h),
        List.take_succ_cons,
        List.map_cons, List.sum_cons, Nat.add_assoc]

/-- The bits of the mask are the words that are not zero. -/
theorem getLsbD_occupiedMask : ∀ {words : List Word} {index : Nat} (mask : Word) {i : Nat},
    index + words.length ≤ 64 →
    (occupiedMask index words mask).getLsbD i =
      (mask.getLsbD i || (decide (index ≤ i) && words[i - index]?.any (· ≠ 0)))
  | [], index, mask, i, _ => by
      rw [occupiedMask, List.getElem?_nil, Option.any_none, Bool.and_false, Bool.or_false]
  | word :: words, index, mask, i, h => by
      rw [List.length_cons] at h
      rw [occupiedMask, getLsbD_occupiedMask _ (by omega)]
      have hmask : (if word ≠ 0 then mask ||| ((1 : Word) <<< index) else mask).getLsbD i =
          (mask.getLsbD i || (decide (i = index) && decide (word ≠ 0))) := by
        by_cases hword : word ≠ 0
        · rw [if_pos hword, BitVec.getLsbD_or, getLsbD_shift_one (by omega), decide_eq_true hword,
            Bool.and_true]
        · rw [if_neg hword, decide_eq_false hword, Bool.and_false, Bool.or_false]
      rw [hmask, Bool.or_assoc]
      congr 1
      rcases Nat.lt_trichotomy i index with hlt | rfl | hlt
      · rw [decide_eq_false (by omega : ¬i = index), decide_eq_false (by omega : ¬index + 1 ≤ i),
          decide_eq_false (by omega : ¬index ≤ i)]
        rfl
      · rw [decide_eq_true rfl, decide_eq_false (by omega : ¬i + 1 ≤ i),
          decide_eq_true (Nat.le_refl i), Nat.sub_self, Bool.true_and, Bool.false_and,
          Bool.or_false]
        rfl
      · obtain ⟨k, rfl⟩ := Nat.le.dest hlt
        rw [decide_eq_false (by omega : ¬index + 1 + k = index),
          decide_eq_true (by omega : index + 1 ≤ index + 1 + k),
          decide_eq_true (by omega : index ≤ index + 1 + k), Bool.false_and, Bool.false_or,
          Nat.add_sub_cancel_left, show index + 1 + k - index = k + 1 by omega,
          List.getElem?_cons_succ]

/-- The bits of the whole mask. -/
theorem getLsbD_mask {words : List Word} (hlength : words.length = 64) (i : Nat) :
    (occupiedMask 0 words 0).getLsbD i = words[i]?.any (· ≠ 0) := by
  rw [getLsbD_occupiedMask _ (by omega), decide_eq_true (Nat.zero_le i), Bool.true_and,
    Nat.sub_zero]
  exact Bool.or_eq_right_iff_imp.mpr fun hfalse => by simp at hfalse

/-- The entry of a word that is not zero, found by the mask. -/
theorem getElem?_occupied {words : List Word} (hlength : words.length = 64) {i : Nat} {word : Word}
    (hword : words[i]? = some word) (hne : word ≠ 0) :
    (((words.zip (prefixRanks 0 words)).filter (·.1 ≠ 0)).map
        fun entry => (⟨entry.1, entry.2⟩ : OccupiedWord))[
      countOnes (occupiedMask 0 words 0 &&& (((1 : Word) <<< i) - 1))]? =
      some ⟨word, ((words.take i).map countOnes).sum⟩ := by
  have hlt : i < words.length := (List.getElem?_eq_some_iff.mp hword).1
  have hrank := getElem?_prefixRanks 0 hlt
  rw [Nat.zero_add] at hrank
  have hzip : (words.zip (prefixRanks 0 words))[i]? =
      some (word, ((words.take i).map countOnes).sum) :=
    List.getElem?_zip_eq_some.mpr ⟨hword, hrank⟩
  have hcount : ((words.zip (prefixRanks 0 words)).take i).countP (·.1 ≠ 0) =
      (words.take i).countP (· ≠ 0) := by
    have hfst : ((words.zip (prefixRanks 0 words)).take i).map Prod.fst = words.take i := by
      rw [List.map_take, List.map_fst_zip (Nat.le_of_eq (length_prefixRanks 0 words).symm)]
    rw [← hfst, List.countP_map]
    rfl
  have hindex : countOnes (occupiedMask 0 words 0 &&& (((1 : Word) <<< i) - 1)) =
      (words.take i).countP (· ≠ 0) := by
    rw [countOnes_and_mask _ (by omega), ones_congr fun i _ => getLsbD_mask hlength i,
      ones_any _ (Nat.le_of_lt hlt)]
  rw [List.getElem?_map, hindex, ← hcount,
    getElem?_filter_countP (f := (·.1 ≠ 0)) hzip (decide_eq_true hne)]
  rfl

/-- A page whose members are ranked. -/
def Page.Ranked (page : Page) (entries : List (Slot × ImportNode)) : Prop :=
  ∀ slot, page.rank slot = .ok
    (if slot ∈ entries.map Prod.fst then some (ones slot.val (memberOf entries)) else none)

/-- The rank that a word and the number of members in front of it give. -/
theorem read_word {words : Vector Word 64}
    (hbits : ∀ i < 2 ^ 12, bit words.toList i = memberOf entries i) (slot : Slot) :
    (if words[slot.word] &&& ((1 : Word) <<< slot.bit) = 0 then none
      else some (((words.toList.take slot.word.val).map countOnes).sum +
        countOnes (words[slot.word] &&& (((1 : Word) <<< slot.bit) - 1)))) =
      if slot ∈ entries.map Prod.fst then some (ones slot.val (memberOf entries)) else none := by
  have hbit : slot.bit < 64 := Nat.mod_lt _ (by decide)
  have hmember := hbits slot.val slot.isLt
  rw [bit_slot, memberOf_slot] at hmember
  by_cases hold : slot ∈ entries.map Prod.fst
  · rw [decide_eq_true hold] at hmember
    rw [if_pos hold, if_neg]
    · have hword : words.toList[slot.word.val]?.getD 0 = words[slot.word] := by
        rw [Vector.getElem?_toList, Vector.getElem?_eq_getElem slot.word.isLt]
        rfl
      have hrank := ones_bit words.toList (r := slot.bit) (q := slot.word.val) (Nat.le_of_lt hbit)
        (by rw [Vector.length_toList]; omega)
      rw [hword, ← countOnes_and_mask _ hbit,
        show 64 * slot.word.val + slot.bit = slot.val from Nat.div_add_mod slot.val 64] at hrank
      rw [← hrank]
      exact congrArg some (ones_congr fun i hi => hbits i (Nat.lt_trans hi slot.isLt))
    · intro hzero
      rw [and_shift_one_eq_zero hbit, hmember] at hzero
      cases hzero
  · rw [decide_eq_false hold] at hmember
    rw [if_neg hold, if_pos ((and_shift_one_eq_zero hbit).mpr hmember)]

/-- Sealing gives the members of a page their ranks, dense or sparse. -/
theorem Page.Building.ranked (h : page.Building entries) (budget : Budget) (compress : Bool) :
    (page.sealMembership budget compress).1.Ranked entries := by
  obtain ⟨membership, hmembership, hbits⟩ := h.dense
  intro slot
  have hlength : membership.bitmap.toList.length = 64 := Vector.length_toList
  have hword : membership.bitmap.toList[slot.word.val]? = some membership.bitmap[slot.word] := by
    rw [Vector.getElem?_toList]
    exact Vector.getElem?_eq_getElem _
  have hread := read_word hbits slot
  rw [Page.sealMembership, hmembership]
  dsimp only
  split
  · rw [Page.rank]
    dsimp only
    by_cases hzero : membership.bitmap[slot.word] = 0
    · rw [if_pos]
      · rw [← hread, hzero]
        exact congrArg Except.ok (if_pos BitVec.zero_and).symm
      · rw [and_shift_one_eq_zero slot.word.isLt, getLsbD_mask hlength, hword, Option.any_some]
        exact decide_eq_false (not_not.mpr hzero)
    · rw [if_neg]
      · have hentry := getElem?_occupied hlength hword hzero
        rw [toList_ranksOf, hentry]
        exact congrArg Except.ok hread
      · rw [and_shift_one_eq_zero slot.word.isLt, getLsbD_mask hlength, hword, Option.any_some]
        exact fun hfalse => of_decide_eq_false hfalse hzero
  · have hrank : (ranksOf membership.bitmap)[slot.word] =
        ((membership.bitmap.toList.take slot.word.val).map countOnes).sum := by
      have hlt : slot.word.val < membership.bitmap.toList.length := by
        rw [hlength]
        exact slot.word.isLt
      have hget := getElem?_prefixRanks 0 hlt
      rw [Nat.zero_add, ← toList_ranksOf, Vector.getElem?_toList,
        Vector.getElem?_eq_getElem slot.word.isLt] at hget
      exact Option.some.inj hget
    rw [Page.rank, ← hread, ← hrank]

/-! ## Values -/

theorem toNat_of_fitsU32 {value : Int64} (h : fitsU32 value = true) :
    value.toUInt64.toNat < 2 ^ 32 := by
  obtain ⟨hnonneg, hlt⟩ := of_decide_eq_true h
  have hvalue : value.toInt = if 2 * value.toUInt64.toNat < 2 ^ 64 then (value.toUInt64.toNat : Int)
      else value.toUInt64.toNat - (2 ^ 64 : Nat) := BitVec.toInt_eq_toNat_cond _
  have hbound := value.toUInt64.toNat_lt
  split at hvalue <;> omega

/-- A value that fits 32 bits is read back from them. -/
theorem compact_round_trip {value : Int64} (h : fitsU32 value = true) :
    value.toUInt64.toUInt32.toUInt64.toInt64 = value := by
  have hlow : value.toUInt64.toUInt32.toUInt64 = value.toUInt64 := by
    refine UInt64.toNat_inj.mp ?_
    rw [UInt32.toNat_toUInt64, UInt64.toNat_toUInt32, Nat.mod_eq_of_lt (toNat_of_fitsU32 h)]
  rw [hlow, Int64.toInt64_toUInt64]

/-- A packed pair is the number with the id in its low half and the label group in its high half. -/
theorem toNat_packed {id labelGroup : Int64} (hid : fitsU32 id = true)
    (hlabel : fitsU32 labelGroup = true) :
    (id.toUInt64 ||| labelGroup.toUInt64 <<< 32).toNat =
      labelGroup.toUInt64.toNat * 2 ^ 32 + id.toUInt64.toNat := by
  have hlow := toNat_of_fitsU32 hid
  have hhigh := toNat_of_fitsU32 hlabel
  have hshift : (labelGroup.toUInt64 <<< 32).toNat = labelGroup.toUInt64.toNat <<< 32 := by
    rw [UInt64.toNat_shiftLeft]
    refine Nat.mod_eq_of_lt ?_
    rw [show (32 : UInt64).toNat % 64 = 32 from rfl, Nat.shiftLeft_eq]
    omega
  rw [UInt64.toNat_or, hshift, Nat.or_comm, ← Nat.shiftLeft_add_eq_or_of_lt hlow, Nat.shiftLeft_eq]

/-- A node that fits is read back from its packed value. -/
theorem packed_round_trip {id labelGroup : Int64} (hid : fitsU32 id = true)
    (hlabel : fitsU32 labelGroup = true) :
    (id.toUInt64 ||| labelGroup.toUInt64 <<< 32).toUInt32.toUInt64.toInt64 = id ∧
      ((id.toUInt64 ||| labelGroup.toUInt64 <<< 32) >>> 32).toInt64 = labelGroup := by
  have hpacked := toNat_packed hid hlabel
  have hid := toNat_of_fitsU32 hid
  constructor
  · have hlow : (id.toUInt64 ||| labelGroup.toUInt64 <<< 32).toUInt32.toUInt64 = id.toUInt64 := by
      refine UInt64.toNat_inj.mp ?_
      rw [UInt32.toNat_toUInt64, UInt64.toNat_toUInt32, hpacked]
      omega
    rw [hlow, Int64.toInt64_toUInt64]
  · have hhigh : (id.toUInt64 ||| labelGroup.toUInt64 <<< 32) >>> 32 = labelGroup.toUInt64 := by
      refine UInt64.toNat_inj.mp ?_
      rw [UInt64.toNat_shiftRight, hpacked, show (32 : UInt64).toNat % 64 = 32 from rfl,
        Nat.shiftRight_eq_div_pow]
      omega
    rw [hhigh, Int64.toInt64_toUInt64]

/-- Values that can hold the nodes of these entries. -/
def PageValues.Hold (values : PageValues) (singleLabel : Option Int64)
    (entries : List (Slot × ImportNode)) : Prop :=
  match values with
  | .building => False
  | .compact values => values.length = ones (2 ^ 12) (memberOf entries) ∧
      ∃ label, singleLabel = some label ∧
        ∀ entry ∈ entries, entry.2.labelGroup = label ∧ fitsU32 entry.2.id = true
  | .packed values => values.length = ones (2 ^ 12) (memberOf entries) ∧
      ∀ entry ∈ entries, fitsU32 entry.2.id = true ∧ fitsU32 entry.2.labelGroup = true
  | .wide values => values.length = ones (2 ^ 12) (memberOf entries)

variable {values : PageValues} {singleLabel : Option Int64}

/-- The value of a rank is written, and those of other ranks are left alone. -/
theorem PageValues.Hold.write (h : values.Hold singleLabel entries)
    (hentry : (slot, node) ∈ entries)
    {rank : Nat} (hrank : rank < ones (2 ^ 12) (memberOf entries)) :
    ∃ values', values.write rank node = .ok values' ∧ values'.Hold singleLabel entries ∧
      values'.read singleLabel rank = .ok node ∧
      ∀ rank', rank ≠ rank' → values'.read singleLabel rank' = values.read singleLabel rank' := by
  cases values with
  | building => exact h.elim
  | compact values =>
      obtain ⟨hlength, label, hlabel, hfits⟩ := h
      obtain ⟨rfl, hfit⟩ := hfits _ hentry
      rw [← hlength] at hrank
      refine ⟨_, if_pos hrank, ⟨List.length_set.trans hlength, _, hlabel, hfits⟩, ?_,
        fun _ hne => ?_⟩
      · simp only [PageValues.read, List.getElem?_set_self hrank, hlabel, compact_round_trip hfit]
      · simp only [PageValues.read, List.getElem?_set_ne hne]
  | packed values =>
      obtain ⟨hlength, hfits⟩ := h
      obtain ⟨hid, hlabel⟩ := packed_round_trip (hfits _ hentry).1 (hfits _ hentry).2
      rw [← hlength] at hrank
      refine ⟨_, if_pos hrank, ⟨List.length_set.trans hlength, hfits⟩, ?_, fun _ hne => ?_⟩
      · simp only [PageValues.read, List.getElem?_set_self hrank, hid, hlabel]
      · simp only [PageValues.read, List.getElem?_set_ne hne]
  | wide values =>
      have hlength : values.length = ones (2 ^ 12) (memberOf entries) := h
      rw [← hlength] at hrank
      refine ⟨_, if_pos hrank, List.length_set.trans hlength, ?_, fun _ hne => ?_⟩
      · simp only [PageValues.read, List.getElem?_set_self hrank]
      · simp only [PageValues.read, List.getElem?_set_ne hne]

/-- A sealed page with a place for each of the entries. -/
structure Page.Sealed (page : Page) (entries : List (Slot × ImportNode)) : Prop where
  ranked : page.Ranked entries
  values : page.values.Hold page.singleLabel entries

/-- Sealing the membership leaves the rest of the page. -/
theorem sealMembership_page (page : Page) (budget : Budget) (compress : Bool) :
    (page.sealMembership budget compress).1 =
      { page with membership := (page.sealMembership budget compress).1.membership } := by
  rw [Page.sealMembership]
  split
  · rfl
  · dsimp only
    split <;> rfl

/-- A page that could be sealed has a place for each of its entries. -/
theorem Page.Building.seal (h : page.Building entries) {budget budget' : Budget} {compress : Bool}
    (hseal : page.seal budget compress = (budget', .ok page')) : page'.Sealed entries := by
  have hranked := h.ranked budget compress
  have hpage := sealMembership_page page budget compress
  rw [Page.seal] at hseal
  generalize page.sealMembership budget compress = result at hseal hranked hpage
  obtain ⟨membered, charged⟩ := result
  dsimp only at hseal hranked hpage
  split at hseal
  · cases hseal
  · obtain ⟨-, hok⟩ := Prod.mk.inj hseal
    cases hok
    refine ⟨hranked, ?_⟩
    have hcount : membered.count = ones (2 ^ 12) (memberOf entries) := by rw [hpage]; exact h.count
    dsimp only
    split
    · next hcompact =>
        rw [Bool.and_eq_true, hpage] at hcompact
        obtain ⟨label, hlabel⟩ := Option.isSome_iff_exists.mp hcompact.2
        refine ⟨List.length_replicate.trans hcount, label, by rw [hpage]; exact hlabel, ?_⟩
        exact fun entry hentry =>
          ⟨h.singleLabel label hlabel entry hentry, h.compact hcompact.1 entry hentry⟩
    · split
      · next hpacked =>
          rw [hpage] at hpacked
          exact ⟨List.length_replicate.trans hcount, h.packed hpacked⟩
      · exact List.length_replicate.trans hcount

theorem rank_set (page : Page) (values : PageValues) (slot : Slot) :
    ({ page with values } : Page).rank slot = page.rank slot := rfl

/-- The place of an entry is filled, and those of other slots are left alone. -/
theorem Page.Sealed.set (h : page.Sealed entries) (hentry : (slot, node) ∈ entries) :
    ∃ page', page.set slot node = .ok page' ∧ page'.Sealed entries ∧
      page'.lookup slot = .ok (some node) ∧
      ∀ slot', slot' ≠ slot → page'.lookup slot' = page.lookup slot' := by
  have hmem : slot ∈ entries.map Prod.fst := List.mem_map.mpr ⟨_, hentry, rfl⟩
  have hmember : memberOf entries slot.val = true := memberOf_slot.trans (decide_eq_true hmem)
  have hrank : page.rank slot = .ok (some (ones slot.val (memberOf entries))) := by
    rw [h.ranked, if_pos hmem]
  obtain ⟨values', hwrite, hvalues, hread, hothers⟩ :=
    h.values.write hentry (ones_lt hmember slot.isLt)
  refine ⟨{ page with values := values' }, ?_, ⟨h.ranked, hvalues⟩, ?_, fun slot' hne => ?_⟩
  · rw [Page.set, hrank]
    exact congrArg (Except.map _) hwrite
  · rw [Page.lookup, rank_set, hrank]
    exact congrArg (Except.map some) hread
  · rw [Page.lookup, Page.lookup, rank_set, h.ranked]
    split
    · next hmem' =>
        refine congrArg (Except.map some) (hothers _ fun heq => hne (Fin.ext ?_))
        exact ones_inj (memberOf_slot.trans (decide_eq_true hmem')) hmember heq.symm
    · rfl

/-- A slot that is no member has no value. -/
theorem Page.Sealed.lookup_of_not_mem (h : page.Sealed entries)
    (hmem : slot ∉ entries.map Prod.fst) : page.lookup slot = .ok none := by
  rw [Page.lookup, h.ranked, if_neg hmem]
  rfl

end Velr.IdMap
