import Mathlib.Data.List.Forall2
import Velr.IdMap.Page

/-!
# Directories of the integer-ID map

`directory_slot` of `id_map.rs`: a vector addressed by keys from a base on. It starts at the first
key it is asked for, grows to the keys behind it and moves when a lesser one comes; every entry
stays where it is found (`directorySlot_placed`), and what the call reserves is charged
(`directorySlot_charged`).
-/

namespace Velr.IdMap

/-- A vector with the capacity it has reserved. -/
structure Vec (α : Type) where
  items : List α
  capacity : Nat
deriving DecidableEq

/-- Sizes that the compiler chooses, and the capacity that `try_reserve_exact` gives for a length
while so many bytes are in use, if it gives one. -/
structure Platform where
  optionRegionBytes : Nat
  pageBytes : Nat
  reserve : Nat → Nat → Option Nat
  reserve_enough : ∀ used length capacity, reserve used length = some capacity → length ≤ capacity

section
variable {α : Type}

/-- The entry of a key in a directory that starts at `base`. -/
def Vec.entry (directory : Vec (Option α)) (base key : Nat) : Option α :=
  if key < base then none else directory.items[key - base]?.join

/-- A directory with the entry of a key replaced. -/
def Vec.put (directory : Vec (Option α)) (base key : Nat) (value : α) : Vec (Option α) :=
  { directory with items := directory.items.set (key - base) (some value) }

/-- What `directory_slot` leaves behind: the directory, its base and the budget, and the index of
the key and the bytes reserved, unless it fails. -/
structure DirectorySlot (α : Type) where
  directory : Vec (Option α)
  base : Nat
  budget : Budget
  result : Option (Nat × Nat)

variable (platform : Platform)

/-- `directory_slot` for entries of a size. -/
def directorySlot (size : Nat) (directory : Vec (Option α)) (base key : Nat) (budget : Budget) :
    DirectorySlot α :=
  let base := if directory.items.isEmpty then key else base
  let prepended := base - key
  let newBase := min base key
  let index := key - newBase
  let length := max (directory.items.length + prepended) (index + 1)
  let charged := (length - directory.capacity) * size
  match budget.charge charged with
  | none => ⟨directory, base, budget, none⟩
  | some budget =>
      let reserved :=
        if directory.capacity < length then platform.reserve budget.used length
        else some directory.capacity
      match reserved with
      | none => ⟨directory, base, budget.release charged, none⟩
      | some capacity =>
          let actual := (capacity - directory.capacity) * size
          match if charged < actual then budget.charge (actual - charged) else some budget with
          | none => ⟨{ directory with capacity }, base, budget, none⟩
          | some budget =>
              let items := List.replicate prepended none ++ directory.items
              ⟨⟨items ++ List.replicate (length - items.length) none, capacity⟩, newBase, budget,
                some (index, actual)⟩

end

/-! ## Entries -/

section
variable {α : Type} {directory : Vec (Option α)} {base key key' : Nat} {value : α}

/-- Putting an entry changes one key. -/
theorem entry_put (hbase : base ≤ key) (hlt : key - base < directory.items.length) (key' : Nat) :
    (directory.put base key value).entry base key' =
      if key' = key then some value else directory.entry base key' := by
  rw [Vec.entry, Vec.entry, Vec.put]
  by_cases hkey : key' = key
  · subst hkey
    rw [if_neg (by omega), if_pos rfl, List.getElem?_set_self hlt]
    rfl
  · rw [if_neg hkey]
    by_cases hbelow : key' < base
    · rw [if_pos hbelow, if_pos hbelow]
    · rw [if_neg hbelow, if_neg hbelow, List.getElem?_set_ne (by omega)]

/-- The sum of the weights of the entries. -/
def Vec.weight (w : α → Nat) (directory : Vec (Option α)) : Nat :=
  (directory.items.map (·.elim 0 w)).sum

/-- Setting an element changes the sum by its own weight. -/
theorem sum_map_set {β : Type} (f : β → Nat) (new : β) {old : β} : ∀ {items : List β} {i : Nat},
    items[i]? = some old → ((items.set i new).map f).sum + f old = (items.map f).sum + f new
  | x :: items, 0, h => by
      cases h
      simp only [List.set_cons_zero, List.map_cons, List.sum_cons]
      omega
  | x :: items, i + 1, h => by
      have hrest : ((items.set i new).map f).sum + f old = (items.map f).sum + f new :=
        sum_map_set f new h
      simp only [List.set_cons_succ, List.map_cons, List.sum_cons]
      omega

/-- Putting an entry changes the weight by its own. -/
theorem weight_put (w : α → Nat) (value : α) (hbase : base ≤ key)
    (hlt : key - base < directory.items.length) :
    (directory.put base key value).weight w + (directory.entry base key).elim 0 w =
      directory.weight w + w value := by
  have hget : directory.items[key - base]? = some (directory.items.get ⟨key - base, hlt⟩) :=
    List.getElem?_eq_getElem hlt
  have hentry : directory.entry base key = directory.items.get ⟨key - base, hlt⟩ := by
    rw [Vec.entry, if_neg (by omega), hget]
    rfl
  have hsum := sum_map_set (Option.elim · 0 w) (some value) hget
  rw [hentry]
  exact hsum

/-- The charges of a step: what the map is charged in addition, the budget is, within its limit. -/
structure Charged (budget budget' : Budget) (allocated allocated' : Nat) : Prop where
  limit : budget'.limit = budget.limit
  used : budget'.used + allocated = budget.used + allocated'
  within : budget.used ≤ budget.limit → budget'.used ≤ budget'.limit
  clamped : budget'.clamped = budget.clamped

theorem Charged.refl (budget : Budget) (allocated : Nat) :
    Charged budget budget allocated allocated := ⟨rfl, rfl, id, rfl⟩

/-- Charges add up. -/
theorem Charged.trans {b₁ b₂ b₃ : Budget} {a₁ a₂ a₃ : Nat} (h : Charged b₁ b₂ a₁ a₂)
    (h' : Charged b₂ b₃ a₂ a₃) : Charged b₁ b₃ a₁ a₃ where
  limit := h'.limit.trans h.limit
  used := by
    have hused := h.used
    have hused' := h'.used
    omega
  within := fun hle => h'.within (h.within hle)
  clamped := h'.clamped.trans h.clamped

/-- What is charged is allocated. -/
theorem charged_charge {budget budget' : Budget} {bytes : Nat}
    (h : budget.charge bytes = some budget') (allocated : Nat) :
    Charged budget budget' allocated (allocated + bytes) := by
  rw [Budget.charge] at h
  split at h
  · cases h
  · cases h
    exact ⟨rfl, by dsimp only; omega, fun _ => by dsimp only; omega, rfl⟩

/-- What is charged is used. -/
theorem charge_used {budget budget' : Budget} {bytes : Nat}
    (h : budget.charge bytes = some budget') : budget'.used = budget.used + bytes := by
  have hused := (charged_charge h 0).used
  omega

/-- A release of what is charged. -/
theorem charged_release {budget : Budget} {bytes allocated : Nat} (hle : bytes ≤ budget.used)
    (hallocated : bytes ≤ allocated) :
    Charged budget (budget.release bytes) allocated (allocated - bytes) where
  limit := rfl
  used := by
    rw [Budget.release]
    dsimp only
    omega
  within := fun hle' => Nat.le_trans (Nat.sub_le _ _) hle'
  clamped := by
    rw [Budget.release, decide_eq_false (by omega), Bool.or_false]

variable {platform : Platform} {size : Nat} {budget : Budget}

/-- A directory after a successful call: the key has a place, and every entry is where it was. -/
structure DirectorySlot.Placed (slot : DirectorySlot α) (directory : Vec (Option α))
    (base key : Nat) :
    Prop where
  base_le : slot.base ≤ key
  index_lt : key - slot.base < slot.directory.items.length
  entry : ∀ key', slot.directory.entry slot.base key' = directory.entry base key'
  weight : ∀ w, slot.directory.weight w = directory.weight w

/-- A directory with room for a key. -/
theorem placed_of_room (directory : Vec (Option α)) (base key : Nat) (capacity : Nat)
    (budget : Budget) (result : Option (Nat × Nat)) :
    let base' := if directory.items.isEmpty then key else base
    let items := List.replicate (base' - key) none ++ directory.items
    let length := max (directory.items.length + (base' - key)) (key - min base' key + 1)
    (⟨⟨items ++ List.replicate (length - items.length) none, capacity⟩, min base' key, budget,
      result⟩ : DirectorySlot α).Placed directory base key := by
  intro base' items length
  have hitems : items.length = (base' - key) + directory.items.length := by
    rw [List.length_append, List.length_replicate]
  refine ⟨Nat.min_le_right _ _, ?_, fun key' => ?_, fun w => ?_⟩
  · have hle : max (directory.items.length + (base' - key)) (key - min base' key + 1) ≤
        (items ++ List.replicate (length - items.length) none).length := by
      rw [List.length_append, List.length_replicate]
      omega
    exact Nat.lt_of_lt_of_le (Nat.lt_of_succ_le (Nat.le_max_right ..)) hle
  · rw [Vec.entry, Vec.entry]
    dsimp only
    have hnone : ∀ (n i : Nat), ((List.replicate n (none : Option α))[i]?).join = none := by
      intro n i
      rw [List.getElem?_replicate]
      split <;> rfl
    by_cases hempty : directory.items = []
    · have hleft : (if key' < base then none else directory.items[key' - base]?.join) = none := by
        rw [hempty]
        split <;> rfl
      rw [hleft]
      split
      · rfl
      · have hall : items ++ List.replicate (length - items.length) none =
            List.replicate ((base' - key) + (length - items.length)) (none : Option α) := by
          rw [← List.replicate_append_replicate]
          congr 1
          rw [show items = List.replicate (base' - key) none ++ directory.items from rfl, hempty,
            List.append_nil]
        rw [hall, hnone]
    · have hbase : base' = base := by
        have hfalse : directory.items.isEmpty = false := by
          rw [List.isEmpty_eq_false_iff]
          exact hempty
        exact if_neg (by rw [hfalse]; decide)
      rw [hbase] at hitems ⊢
      by_cases hkey : key' < base
      · rw [if_pos hkey]
        split
        · rfl
        · have hin : key' - min base key < (base - key) := by omega
          have hfront :
            (items ++ List.replicate (length - items.length) none)[key' - min base key]? =
              (List.replicate (base - key) (none : Option α))[key' - min base key]? := by
            rw [List.getElem?_append_left (by omega)]
            rw [show items = List.replicate (base' - key) none ++ directory.items from rfl, hbase,
              List.getElem?_append_left (by rw [List.length_replicate]; exact hin)]
          rw [hfront, hnone]
      · rw [if_neg hkey, if_neg (by omega)]
        have hindex : key' - min base key = (base - key) + (key' - base) := by omega
        by_cases hin : key' - base < directory.items.length
        · rw [List.getElem?_append_left (by omega),
            show items = List.replicate (base' - key) none ++ directory.items from rfl, hbase,
            List.getElem?_append_right (by rw [List.length_replicate]; omega),
            List.length_replicate, hindex, Nat.add_sub_cancel_left]
        · rw [List.getElem?_append_right (by omega), hnone,
            List.getElem?_eq_none (by omega : directory.items.length ≤ key' - base)]
          rfl
  · have hzero : ∀ n, ((List.replicate n (none : Option α)).map (·.elim 0 w)).sum = 0 := by
      intro n
      rw [List.map_replicate, List.sum_replicate_nat]
      exact Nat.mul_zero n
    rw [Vec.weight, Vec.weight]
    dsimp only
    rw [List.map_append, List.sum_append, hzero, Nat.add_zero,
      show items = List.replicate (base' - key) none ++ directory.items from rfl, List.map_append,
      List.sum_append, hzero, Nat.zero_add]

/-- A successful call of `directory_slot` makes a place for the key. -/
theorem directorySlot_placed (directory : Vec (Option α)) (base key : Nat) {result : Nat × Nat}
    (h : (directorySlot platform size directory base key budget).result = some result) :
    (directorySlot platform size directory base key budget).Placed directory base key := by
  rw [directorySlot] at h ⊢
  dsimp only at h ⊢
  split at h
  · cases h
  · split at h
    · cases h
    · split at h
      · cases h
      · exact placed_of_room ..

/-- A platform that reserves exactly what it is asked for, if anything. -/
def Platform.Exact (platform : Platform) : Prop :=
  ∀ used length capacity, platform.reserve used length = some capacity → capacity = length

/-- `directory_slot` charges what it returns, and nothing when it fails. -/
theorem directorySlot_charged (hexact : platform.Exact) (size : Nat) (directory : Vec (Option α))
    (base key : Nat) (budget : Budget) (allocated : Nat) :
    Charged budget (directorySlot platform size directory base key budget).budget allocated
      (allocated + ((directorySlot platform size directory base key budget).result.elim 0
        Prod.snd)) := by
  rw [directorySlot]
  dsimp only
  generalize (if directory.items.isEmpty then key else base) = base'
  generalize max (directory.items.length + (base' - key)) (key - min base' key + 1) = length
  split
  · exact .refl ..
  · next charged hcharge =>
      split
      · have hrelease : Charged charged (charged.release ((length - directory.capacity) * size))
            (allocated + (length - directory.capacity) * size)
            (allocated + (length - directory.capacity) * size -
              (length - directory.capacity) * size) :=
          charged_release (by rw [charge_used hcharge]; exact Nat.le_add_left ..)
            (Nat.le_add_left ..)
        rw [Nat.add_sub_cancel] at hrelease
        exact (charged_charge hcharge allocated).trans hrelease
      · next capacity hreserve =>
          have hcapacity : (capacity - directory.capacity) * size =
              (length - directory.capacity) * size := by
            split at hreserve
            · rw [hexact _ _ _ hreserve]
            · cases hreserve
              congr 1
              omega
          rw [hcapacity, if_neg (Nat.lt_irrefl _)]
          exact charged_charge hcharge allocated

end

theorem forall₂_getElem? {α : Type} {r : α → α → Prop} {items items' : List (Option α)}
    (h : List.Forall₂ (Option.Rel r) items items') (i : Nat) :
    Option.Rel r items[i]?.join items'[i]?.join := by
  induction h generalizing i with
  | nil => exact .none
  | cons hhead _ ih =>
      cases i with
      | zero => exact hhead
      | succ i => exact ih i

theorem entry_rel {α : Type} {r : α → α → Prop} {directory directory' : Vec (Option α)}
    (h : List.Forall₂ (Option.Rel r) directory.items directory'.items) (base key : Nat) :
    Option.Rel r (directory.entry base key) (directory'.entry base key) := by
  rw [Vec.entry, Vec.entry]
  split
  · exact .none
  · exact forall₂_getElem? h _

/-- An entry lies inside of the directory. -/
theorem lt_of_entry {α : Type} {directory : Vec (Option α)} {base key : Nat} {a : α}
    (h : directory.entry base key = some a) :
    base ≤ key ∧ key - base < directory.items.length := by
  rw [Vec.entry] at h
  split at h
  · cases h
  · refine ⟨by omega, ?_⟩
    by_cases hlt : key - base < directory.items.length
    · exact hlt
    · rw [List.getElem?_eq_none (by omega)] at h
      cases h

end Velr.IdMap
