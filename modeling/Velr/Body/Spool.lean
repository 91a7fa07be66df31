import Velr.Common.Results
import Velr.IndexStats.Sampler
import Velr.Record.Specialised

/-!
# Record spools

`RecordSpool`, `RecordReader` and `OwnerProperties` of `bulk_body.rs`. A spool is a file of frames,
each a row id, a length and a record. `OwnerProperties` keeps the properties of one owner back and
pushes them in the order of their keys; its buffers stay allocated from one owner to the next.
-/

namespace Velr.Body

open ByteString
open IndexStats (Failure)
open Record (Value encodePropertyRecord toBeBytes)

/-! ## Frames -/

/-- `value.to_le_bytes()` of an `i64` -/
def toLeBytes (value : Int64) : Bytes := (toBeBytes value).reverse

/-- `i64::from_le_bytes` -/
def fromLeBytes (bytes : Bytes) : Int64 := Int64.ofInt (ofLE bytes)

/-- `RecordSpool`; its file is `output`. -/
structure RecordSpool where
  output : Bytes
  record : Bytes
  rows : Nat
deriving DecidableEq

/-- `RecordSpool::create` -/
def RecordSpool.create : RecordSpool := { output := [], record := [], rows := 0 }

/-- What `push_encoded` writes. -/
def frame (rowid : Int64) (record : Bytes) : Bytes :=
  toLeBytes rowid ++ toLE 4 record.length ++ record

/-- `RecordSpool::push_encoded` -/
def RecordSpool.pushEncoded (spool : RecordSpool) (rowid : Int64) : Except Failure RecordSpool :=
  if 2 ^ 32 ≤ spool.record.length then .error (.error "record is too large")
  else
    .ok { spool with output := spool.output ++ frame rowid spool.record, rows := spool.rows + 1 }

/-- `read_frame`: the row id and the record, and the input behind them. -/
def readFrame (input : Bytes) : Except Failure (Option (Int64 × Bytes × Bytes)) :=
  if input.isEmpty then .ok none
  else if input.length < 12 then .error (.error "failed to fill whole buffer")
  else
    let rowid := fromLeBytes (input.take 8)
    let length := ofLE (slice input 8 4)
    let input := input.drop 12
    if input.length < length then .error (.error "failed to fill whole buffer")
    else .ok (some (rowid, input.take length, input.drop length))

@[simp] theorem length_toLeBytes (value : Int64) : (toLeBytes value).length = 8 := by
  rw [toLeBytes, List.length_reverse, toBeBytes, length_toBE]

@[simp] theorem fromLeBytes_toLeBytes (value : Int64) : fromLeBytes (toLeBytes value) = value := by
  have hlow := value.le_toInt
  have hhigh := value.toInt_lt
  have hsize : (Int64.size : Int) = 18446744073709551616 := rfl
  have hread : ofLE (toLeBytes value) = (value.toInt % 2 ^ 64).toNat :=
    ofLE_toLE_of_lt (by omega)
  rw [fromLeBytes, hread, Int.toNat_of_nonneg (by omega)]
  apply Int64.toInt_inj.mp
  rw [Int64.toInt_ofInt]
  simp only [Int.bmod_def, hsize]
  omega

@[simp] theorem length_frame (rowid : Int64) (record : Bytes) :
    (frame rowid record).length = 12 + record.length := by
  simp [frame]
  omega

/-- The fields of a frame with more behind it. -/
theorem frame_fields {rowid : Int64} {record : Bytes} (hfits : record.length < 2 ^ 32)
    (rest : Bytes) :
    fromLeBytes ((frame rowid record ++ rest).take 8) = rowid ∧
      ofLE (slice (frame rowid record ++ rest) 8 4) = record.length ∧
      (frame rowid record ++ rest).drop 12 = record ++ rest := by
  have hlayout : frame rowid record ++ rest =
      toLeBytes rowid ++ (toLE 4 record.length ++ (record ++ rest)) := by
    simp only [frame, List.append_assoc]
  have hhead : (toLeBytes rowid ++ toLE 4 record.length).length = 12 := by simp
  refine ⟨?_, ?_, ?_⟩
  · rw [hlayout, List.take_left' (length_toLeBytes rowid), fromLeBytes_toLeBytes]
  · rw [hlayout, slice_middle (by simp) (by simp), ofLE_toLE_of_lt (by omega)]
  · rw [hlayout, ← List.append_assoc, List.drop_left' hhead]

/-- A frame is read back. -/
theorem readFrame_frame {rowid : Int64} {record : Bytes} (hfits : record.length < 2 ^ 32)
    (rest : Bytes) :
    readFrame (frame rowid record ++ rest) = .ok (some (rowid, record, rest)) := by
  obtain ⟨hrowid, hlength, hbehind⟩ := @frame_fields rowid record hfits rest
  have hlong : (frame rowid record ++ rest).length = 12 + record.length + rest.length := by simp
  have hsome : (frame rowid record ++ rest).isEmpty = false := by
    rw [List.isEmpty_eq_false_iff_exists_mem]
    exact ⟨_, List.getElem_mem (by omega : 0 < (frame rowid record ++ rest).length)⟩
  rw [readFrame, hsome, if_neg (by decide), if_neg (by omega)]
  dsimp only
  rw [hrowid, hlength, hbehind, if_neg (by rw [List.length_append]; omega), List.take_left,
    List.drop_left]

/-- Rows one behind the other. -/
def framesOf (rows : List (Int64 × Bytes)) : Bytes := rows.flatMap fun row => frame row.1 row.2

@[simp] theorem framesOf_nil : framesOf [] = [] := rfl

@[simp] theorem framesOf_cons (row : Int64 × Bytes) (rows : List (Int64 × Bytes)) :
    framesOf (row :: rows) = frame row.1 row.2 ++ framesOf rows := rfl

/-- The frames of two lists stand one behind the other. -/
theorem framesOf_append (front back : List (Int64 × Bytes)) :
    framesOf (front ++ back) = framesOf front ++ framesOf back := List.flatMap_append

/-! ## The properties of an owner -/

/-- `OwnerProperties` -/
structure OwnerProperties where
  spool : RecordSpool
  owner : Int64
  keys : List Int64
  records : List Bytes
  order : List Nat
  used : Nat
deriving DecidableEq

/-- `OwnerProperties::new` -/
def OwnerProperties.new (spool : RecordSpool) : OwnerProperties :=
  { spool, owner := 0, keys := [], records := [], order := [], used := 0 }

/-- `std::mem::swap(&mut self.spool.record, &mut self.records[i])` -/
def swapRecord (spool : RecordSpool) (records : List Bytes) (i : Nat) :
    Except Failure (RecordSpool × List Bytes) :=
  match records[i]? with
  | none => .error .panic
  | some record => .ok ({ spool with record }, records.set i spool.record)

/-- `OwnerProperties::flush`: the body of its loop. -/
def emit (owner : Int64) (st : RecordSpool × List Bytes) (i : Nat) :
    Except Failure (RecordSpool × List Bytes) := do
  let (spool, records) ← swapRecord st.1 st.2 i
  let spool ← spool.pushEncoded owner
  swapRecord spool records i

/-- `OwnerProperties::flush`. The sort is unstable: where two keys of an owner are equal, their
order is not what it is here. -/
def OwnerProperties.flush (st : OwnerProperties) : Except Failure OwnerProperties :=
  -- the sort looks up the key of each position
  if st.keys.length < st.used then .error .panic
  else do
    let order := (List.range st.used).mergeSort fun i j => st.keys.getD i 0 ≤ st.keys.getD j 0
    let (spool, records) ← order.foldlM (emit st.owner) (st.spool, st.records)
    .ok { st with spool, records, order, used := 0 }

/-- `OwnerProperties::push`, behind the change of the owner. -/
def OwnerProperties.append (st : OwnerProperties) (key : Int64) (value : Value) :
    Except Failure OwnerProperties :=
  let st :=
    if st.used = st.records.length then
      { st with records := st.records ++ [[]], keys := st.keys ++ [0] }
    else st
  if st.used < st.records.length ∧ st.used < st.keys.length then
    .ok
      { st with
        records := st.records.set st.used (encodePropertyRecord st.owner key value)
        keys := st.keys.set st.used key
        used := st.used + 1 }
  else .error .panic

/-- `OwnerProperties::push` -/
def OwnerProperties.push (st : OwnerProperties) (owner key : Int64) (value : Value) :
    Except Failure OwnerProperties :=
  if owner ≠ st.owner then do
    let st ← st.flush
    { st with owner }.append key value
  else st.append key value

/-- A property that is pushed. -/
structure Property where
  owner : Int64
  key : Int64
  value : Value
deriving DecidableEq

/-- Several pushes. -/
def OwnerProperties.pushAll : List Property → OwnerProperties → Except Failure OwnerProperties
  | [], st => .ok st
  | property :: properties, st => do
      let st ← st.push property.owner property.key property.value
      pushAll properties st

/-! ## What is emitted -/

/-- The record of a property. -/
def Property.record (p : Property) : Bytes := encodePropertyRecord p.owner p.key p.value

/-- The frame of a property holds its length. -/
def Property.Fits (p : Property) : Prop := p.record.length < 2 ^ 32

instance (p : Property) : Decidable p.Fits := inferInstanceAs (Decidable (_ < _))

/-- The row of a property in the spool. -/
def Property.row (p : Property) : Int64 × Bytes := (p.owner, p.record)

/-- The order of the primary key. -/
def Property.Lt (p q : Property) : Prop := p.owner < q.owner ∨ p.owner = q.owner ∧ p.key < q.key

/-- A property that may be pushed behind another: of a later owner, or of the same with another
key. -/
def Property.Grouped (p q : Property) : Prop :=
  p.owner < q.owner ∨ p.owner = q.owner ∧ p.key ≠ q.key

instance (p q : Property) : Decidable (p.Grouped q) := inferInstanceAs (Decidable (_ ∨ _))

/-- The properties of the owner that are kept back. -/
structure Holds (st : OwnerProperties) (group : List Property) : Prop where
  owner : ∀ p ∈ group, p.owner = st.owner
  used : st.used = group.length
  room : st.used ≤ st.records.length
  lengths : st.keys.length = st.records.length
  keys : st.keys.take st.used = group.map Property.key
  records : st.records.take st.used = group.map Property.record

/-- New properties hold none. -/
theorem OwnerProperties.new_holds (spool : RecordSpool) : Holds (.new spool) [] :=
  ⟨by simp, rfl, Nat.le_refl 0, rfl, rfl, rfl⟩

section
variable {st : OwnerProperties} {group : List Property}

/-- The record of a property is at its place. -/
theorem Holds.getElem?_records (h : Holds st group) {i : Nat} (hi : i < group.length) :
    st.records[i]? = some (group[i]).record := by
  have hget : (st.records.take st.used)[i]? = st.records[i]? :=
    List.getElem?_take_of_lt (by rw [h.used]; exact hi)
  rw [← hget, h.records, List.getElem?_map, List.getElem?_eq_getElem hi]
  rfl

/-- So is its key. -/
theorem Holds.getD_keys (h : Holds st group) {i : Nat} (hi : i < group.length) :
    st.keys.getD i 0 = (group[i]).key := by
  have hget : (st.keys.take st.used)[i]? = st.keys[i]? :=
    List.getElem?_take_of_lt (by rw [h.used]; exact hi)
  rw [List.getD_eq_getElem?_getD, ← hget, h.keys, List.getElem?_map, List.getElem?_eq_getElem hi]
  rfl

/-- A round of the loop puts the record back where it was, and the record of the spool too. -/
theorem emit_eq {spool : RecordSpool} {records : List Bytes} {i : Nat} {record : Bytes}
    (hget : records[i]? = some record) (owner : Int64) :
    emit owner (spool, records) i =
      if 2 ^ 32 ≤ record.length then .error (.error "record is too large")
      else .ok
        ({ output := spool.output ++ frame owner record, record := spool.record
           rows := spool.rows + 1 }, records) := by
  obtain ⟨hi, hrecord⟩ := List.getElem?_eq_some_iff.mp hget
  have hswap : swapRecord spool records i
      = .ok ({ spool with record }, records.set i spool.record) := by
    rw [swapRecord, hget]
  rw [emit, hswap]
  simp only [bind, Except.bind, RecordSpool.pushEncoded]
  by_cases hlarge : 2 ^ 32 ≤ record.length
  · rw [if_pos hlarge, if_pos hlarge]
  · rw [if_neg hlarge, if_neg hlarge]
    simp only [swapRecord, List.getElem?_set_self hi, List.set_set]
    rw [← hrecord, List.set_getElem_self]

/-- The properties at some positions of the group. -/
def picked (group : List Property) (order : List Nat) : List Property :=
  order.filterMap (group[·]?)

theorem picked_cons {i : Nat} (hi : i < group.length) (order : List Nat) :
    picked group (i :: order) = group[i] :: picked group order := by
  rw [picked, List.filterMap_cons, List.getElem?_eq_getElem hi]
  rfl

/-- The loop over some positions of the group. -/
theorem foldlM_emit (h : Holds st group) : ∀ {order : List Nat}, (∀ i ∈ order, i < group.length) →
    ∀ spool : RecordSpool, order.foldlM (emit st.owner) (spool, st.records) =
      if ∀ p ∈ picked group order, p.Fits then .ok
        ({ output := spool.output ++ framesOf ((picked group order).map Property.row)
           record := spool.record, rows := spool.rows + (picked group order).length }, st.records)
      else .error (.error "record is too large")
  | [], _, spool => by simp [picked, pure, Except.pure]
  | i :: order, horder, spool => by
      have hi := horder i (by simp)
      rw [List.foldlM_cons, emit_eq (h.getElem?_records hi), picked_cons hi]
      by_cases hfits : (group[i]).Fits
      · have hrow : (group[i]).row = (st.owner, (group[i]).record) :=
          Prod.ext (h.owner _ (List.getElem_mem hi)) rfl
        rw [if_neg (Nat.not_le.mpr hfits)]
        show order.foldlM (emit st.owner) (_, st.records) = _
        rw [foldlM_emit h fun j hj => horder j (by simp [hj])]
        simp only [List.forall_mem_cons, hfits, true_and, List.map_cons, framesOf_cons, hrow,
          List.append_assoc, List.length_cons, Nat.add_assoc, Nat.add_comm 1]
      · rw [if_pos (Nat.not_lt.mp hfits), if_neg]
        · rfl
        · exact fun hall => hfits (hall _ (by simp))

/-- The positions of the group in the order of their keys. -/
def sortedOrder (st : OwnerProperties) : List Nat :=
  (List.range st.used).mergeSort fun i j => st.keys.getD i 0 ≤ st.keys.getD j 0

/-- Picking each in order picks the group. -/
theorem picked_range (group : List Property) : picked group (List.range group.length) = group := by
  induction group using List.reverseRecOn with
  | nil => rfl
  | append_singleton group p ih =>
      have hfront : picked (group ++ [p]) (List.range group.length)
          = picked group (List.range group.length) :=
        List.filterMap_congr fun i hi => List.getElem?_append_left (List.mem_range.mp hi)
      rw [List.length_append, List.length_singleton, List.range_succ, picked, List.filterMap_append]
      rw [← picked, hfront, ih]
      simp

/-- Sorting picks each property once. -/
theorem picked_perm (h : Holds st group) : (picked group (sortedOrder st)).Perm group := by
  have hperm : (picked group (sortedOrder st)).Perm (picked group (List.range st.used)) :=
    (List.mergeSort_perm (List.range st.used) _).filterMap _
  rwa [h.used, picked_range] at hperm

theorem lt_of_mem_sortedOrder {i : Nat} (h : Holds st group) (hi : i ∈ sortedOrder st) :
    i < group.length := by
  rw [← h.used]
  exact List.mem_range.mp (List.mem_mergeSort.mp hi)

/-- Keys of one owner that differ come out in strict order. -/
theorem picked_sorted (h : Holds st group) (hgroup : group.Pairwise Property.Grouped) :
    (picked group (sortedOrder st)).Pairwise Property.Lt := by
  have hperm := picked_perm h
  have howner : ∀ p ∈ picked group (sortedOrder st), p.owner = st.owner :=
    fun p hp => h.owner p (hperm.mem_iff.mp hp)
  have hdistinct : (picked group (sortedOrder st)).Pairwise fun p q => p.key ≠ q.key := by
    refine (hperm.pairwise_iff fun hne => hne.symm).mpr ?_
    refine hgroup.imp_of_mem fun {p q} hp hq hpq => ?_
    rcases hpq with hlt | ⟨-, hne⟩
    · rw [h.owner p hp, h.owner q hq] at hlt
      exact absurd hlt Int64.lt_irrefl
    · exact hne
  have hordered : (picked group (sortedOrder st)).Pairwise fun p q => p.key ≤ q.key := by
    have hsort : (sortedOrder st).Pairwise
        fun i j => decide (st.keys.getD i 0 ≤ st.keys.getD j 0) = true :=
      List.pairwise_mergeSort (fun i j k hij hjk => by
          simp only [decide_eq_true_eq] at hij hjk ⊢
          exact Int64.le_trans hij hjk)
        (fun i j => by
          simp only [Bool.or_eq_true, decide_eq_true_eq]
          exact Int64.le_total _ _) _
    refine List.pairwise_filterMap.mpr (hsort.imp_of_mem fun {i j} hi hj hij p hp q hq => ?_)
    have hi' := lt_of_mem_sortedOrder h hi
    have hj' := lt_of_mem_sortedOrder h hj
    rw [List.getElem?_eq_getElem hi', Option.some.injEq] at hp
    rw [List.getElem?_eq_getElem hj', Option.some.injEq] at hq
    rw [decide_eq_true_eq, h.getD_keys hi', h.getD_keys hj', hp, hq] at hij
    exact hij
  refine (hordered.and hdistinct).imp_of_mem fun {p q} hp hq hpq => ?_
  exact .inr ⟨(howner p hp).trans (howner q hq).symm, Int64.lt_of_le_of_ne hpq.1 hpq.2⟩

/-! ## Runs -/

/-- A flush pushes the group, or fails where a record is too large, and keeps its buffers. -/
theorem Holds.flush (h : Holds st group) :
    st.flush =
      if ∀ p ∈ group, p.Fits then .ok
        { st with
          spool :=
            { output :=
                st.spool.output ++ framesOf ((picked group (sortedOrder st)).map Property.row)
              record := st.spool.record, rows := st.spool.rows + group.length }
          order := sortedOrder st, used := 0 }
      else .error (.error "record is too large") := by
  have hperm := picked_perm h
  have hroom := h.room
  have hfits : (∀ p ∈ picked group (sortedOrder st), p.Fits) ↔ ∀ p ∈ group, p.Fits :=
    forall_congr' fun p => by rw [hperm.mem_iff]
  have hloop := foldlM_emit h (fun i hi => lt_of_mem_sortedOrder h hi) st.spool
  rw [hperm.length_eq] at hloop
  rw [OwnerProperties.flush, if_neg (by rw [h.lengths]; omega)]
  show ((sortedOrder st).foldlM (emit st.owner) (st.spool, st.records) >>= _) = _
  rw [hloop]
  by_cases hall : ∀ p ∈ group, p.Fits
  · rw [if_pos (hfits.mpr hall), if_pos hall]
    rfl
  · rw [if_neg (hfits.not.mpr hall), if_neg hall]
    rfl

theorem take_set_self {α : Type} {l : List α} {i : Nat} (hi : i < l.length) (x : α) :
    (l.set i x).take (i + 1) = l.take i ++ [x] := by
  rw [List.take_add_one, List.getElem?_set_self hi, List.take_set_of_le (Nat.le_refl i)]
  rfl

/-- Another property of the owner is kept back behind the group. -/
theorem Holds.append (h : Holds st group) (key : Int64) (value : Value) :
    ∃ st', st.append key value = .ok st' ∧ Holds st' (group ++ [⟨st.owner, key, value⟩]) ∧
      st'.spool = st.spool := by
  have howner : ∀ p ∈ group ++ [⟨st.owner, key, value⟩], p.owner = st.owner := by
    simp only [List.forall_mem_append, List.forall_mem_singleton]
    exact ⟨h.owner, trivial⟩
  have hroom := h.room
  have hlengths := h.lengths
  rw [OwnerProperties.append]
  by_cases hfull : st.used = st.records.length
  · have hkeys : st.used < (st.keys ++ [0]).length := by simp; omega
    have hrecords : st.used < (st.records ++ [[]]).length := by simp; omega
    rw [if_pos hfull, if_pos ⟨hrecords, hkeys⟩]
    refine ⟨_, rfl, ⟨howner, by simp [h.used], ?_, by simpa using hlengths, ?_, ?_⟩, rfl⟩
    · rw [List.length_set]
      exact hrecords
    · rw [take_set_self hkeys, List.take_append_of_le_length (by omega), h.keys]
      simp
    · rw [take_set_self hrecords, List.take_append_of_le_length (by omega), h.records]
      simp [Property.record]
  · have hkeys : st.used < st.keys.length := by omega
    have hrecords : st.used < st.records.length := by omega
    rw [if_neg hfull, if_pos ⟨hrecords, hkeys⟩]
    refine ⟨_, rfl, ⟨howner, by simp [h.used], ?_, by simpa using hlengths, ?_, ?_⟩, rfl⟩
    · rw [List.length_set]
      exact hrecords
    · rw [take_set_self hkeys, h.keys]
      simp
    · rw [take_set_self hrecords, h.records]
      simp [Property.record]

/-- With the buffers of an owner that has been flushed, the next one starts. -/
theorem Holds.empty (h : Holds st group) (spool : RecordSpool) (order : List Nat) (owner : Int64) :
    Holds { st with spool, order, used := 0, owner } [] :=
  ⟨by simp, rfl, Nat.zero_le _, h.lengths, rfl, rfl⟩

/-- What is left of a run: the properties kept back and those to come are pushed in the order of the
primary key. -/
structure Emits (st : OwnerProperties) (left : List Property) (result : OwnerProperties)
    (sorted : List Property) : Prop where
  perm : sorted.Perm left
  ordered : sorted.Pairwise Property.Lt
  output : result.spool.output = st.spool.output ++ framesOf (sorted.map Property.row)
  rows : result.spool.rows = st.spool.rows + left.length
  used : result.used = 0

/-- A flush writes the properties of the owner in their sorted order, and holds none. -/
theorem Holds.flush_emits (h : Holds st group) (hgroup : group.Pairwise Property.Grouped)
    (hfits : ∀ p ∈ group, p.Fits) :
    ∃ st', st.flush = .ok st' ∧ Emits st group st' (picked group (sortedOrder st)) ∧
      ∀ owner, Holds { st' with owner } [] := by
  refine ⟨_, by rw [h.flush, if_pos hfits], ⟨picked_perm h, picked_sorted h hgroup, rfl, rfl, rfl⟩,
    fun owner => h.empty _ _ owner⟩

/-- Behind the group of another owner all properties come later. -/
theorem lt_of_grouped {p : Property} {left : List Property} (h : Holds st group)
    (howner : p.owner ≠ st.owner) (hgrouped : (group ++ p :: left).Pairwise Property.Grouped)
    {a b : Property} (ha : a ∈ group) (hb : b ∈ p :: left) : a.Lt b := by
  obtain ⟨-, htail, hcross⟩ := List.pairwise_append.mp hgrouped
  rcases hcross a ha b hb with hlt | ⟨heq, -⟩
  · exact .inl hlt
  · -- the owner of `p` lies between two equal ones
    have hap : a.owner < p.owner := by
      rcases hcross a ha p (by simp) with hlt | ⟨heq', -⟩
      · exact hlt
      · exact absurd (heq'.symm.trans (h.owner a ha)) howner
    rcases List.mem_cons.mp hb with rfl | hb
    · exact .inl hap
    · rcases (List.pairwise_cons.mp htail).1 b hb with hlt | ⟨heq', -⟩
      · exact .inl (Int64.lt_trans hap hlt)
      · exact .inl (heq' ▸ hap)

/-- A push of the owner whose properties are kept back, or of another one behind a flush. -/
theorem push_eq (st : OwnerProperties) (p : Property) :
    st.push p.owner p.key p.value =
      if p.owner = st.owner then st.append p.key p.value
      else st.flush >>= fun st => { st with owner := p.owner }.append p.key p.value := by
  rw [OwnerProperties.push]
  by_cases howner : p.owner = st.owner
  · rw [if_neg (not_not.mpr howner), if_pos howner]
  · rw [if_pos howner, if_neg howner]

/-- A run over grouped properties whose records fit. -/
theorem Holds.pushAll_ok : ∀ {properties : List Property} {st : OwnerProperties}
    {group : List Property}, Holds st group → (group ++ properties).Pairwise Property.Grouped →
    (∀ p ∈ group ++ properties, p.Fits) →
    ∃ st' sorted, (st.pushAll properties >>= OwnerProperties.flush) = .ok st' ∧
      Emits st (group ++ properties) st' sorted
  | [], st, group, h, hgrouped, hfits => by
      rw [List.append_nil] at hgrouped hfits ⊢
      obtain ⟨st', hflush, hemits, -⟩ := h.flush_emits hgrouped hfits
      exact ⟨st', _, hflush, hemits⟩
  | p :: properties, st, group, h, hgrouped, hfits => by
      have hpush := push_eq st p
      by_cases howner : p.owner = st.owner
      · obtain ⟨next, happend, hnext, hspool⟩ := h.append p.key p.value
        have hp : (⟨st.owner, p.key, p.value⟩ : Property) = p := by rw [← howner]
        rw [if_pos howner, happend] at hpush
        rw [hp] at hnext
        have hassoc : group ++ [p] ++ properties = group ++ p :: properties := by simp
        obtain ⟨st', sorted, hrun, hemits⟩ := @Holds.pushAll_ok properties next _ hnext
          (hassoc ▸ hgrouped) (hassoc ▸ hfits)
        rw [hassoc] at hemits
        refine ⟨st', sorted, ?_, hemits.perm, hemits.ordered, ?_, ?_, hemits.used⟩
        · rw [OwnerProperties.pushAll, hpush]
          exact hrun
        · rw [hemits.output, hspool]
        · rw [hemits.rows, hspool]
      · have hgroup := (List.pairwise_append.mp hgrouped).1
        obtain ⟨flushed, hflush, hfirst, hempty⟩ := h.flush_emits hgroup
          fun q hq => hfits q (List.mem_append_left _ hq)
        obtain ⟨next, happend, hnext, hspool⟩ := (hempty p.owner).append p.key p.value
        rw [if_neg howner, hflush] at hpush
        obtain ⟨st', sorted, hrun, hrest⟩ := @Holds.pushAll_ok properties next _ hnext
          (List.pairwise_append.mp hgrouped).2.1 fun q hq => hfits q (List.mem_append_right _ hq)
        refine ⟨st', picked group (sortedOrder st) ++ sorted, ?_,
          hfirst.perm.append hrest.perm, ?_, ?_, ?_, hrest.used⟩
        · rw [OwnerProperties.pushAll, hpush]
          show ({ flushed with owner := p.owner }.append p.key p.value >>= _) >>= _ = _
          rw [happend]
          exact hrun
        · refine List.pairwise_append.mpr ⟨hfirst.ordered, hrest.ordered, fun a ha b hb => ?_⟩
          exact lt_of_grouped h howner hgrouped (hfirst.perm.mem_iff.mp ha)
            (hrest.perm.mem_iff.mp hb)
        · rw [hrest.output, hspool, hfirst.output, List.map_append, framesOf_append,
            List.append_assoc]
        · rw [hrest.rows, hspool, hfirst.rows]
          simp [Nat.add_assoc]

/-- A run with a record that is too large fails. -/
theorem Holds.pushAll_error : ∀ {properties : List Property} {st : OwnerProperties}
    {group : List Property}, Holds st group → (∃ p ∈ group ++ properties, ¬p.Fits) →
    (st.pushAll properties >>= OwnerProperties.flush) = .error (.error "record is too large")
  | [], st, group, h, hlarge => by
      rw [List.append_nil] at hlarge
      show st.flush = _
      rw [h.flush, if_neg (by simpa using hlarge)]
  | p :: properties, st, group, h, hlarge => by
      have hpush := push_eq st p
      by_cases howner : p.owner = st.owner
      · obtain ⟨next, happend, hnext, -⟩ := h.append p.key p.value
        have hp : (⟨st.owner, p.key, p.value⟩ : Property) = p := by rw [← howner]
        rw [if_pos howner, happend] at hpush
        rw [hp] at hnext
        rw [OwnerProperties.pushAll, hpush]
        exact hnext.pushAll_error (by simpa using hlarge)
      · rw [if_neg howner] at hpush
        by_cases hgroup : ∀ q ∈ group, q.Fits
        · rw [h.flush, if_pos hgroup] at hpush
          obtain ⟨next, happend, hnext, -⟩ := (h.empty _ _ p.owner).append p.key p.value
          rw [OwnerProperties.pushAll, hpush]
          show (OwnerProperties.append _ p.key p.value >>= _) >>= _ = _
          rw [happend]
          refine hnext.pushAll_error ?_
          obtain ⟨q, hq, hqlarge⟩ := hlarge
          refine ⟨q, ?_, hqlarge⟩
          rcases List.mem_append.mp hq with hq | hq
          · exact absurd (hgroup q hq) hqlarge
          · exact hq
        · rw [h.flush, if_neg hgroup] at hpush
          rw [OwnerProperties.pushAll, hpush]
          rfl

end

end Velr.Body
