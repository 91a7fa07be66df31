import Mathlib.Algebra.Order.Ring.Nat
import Mathlib.Data.List.Nodup
import Mathlib.Logic.Function.Basic
import Mathlib.Tactic.Common

/-!
# Distributing keys by a digit

A stable distribution lists the keys of digit 0, then those of digit 1 and so on, each in their
order (`distribute`). It permutes the keys, orders them by the digit and keeps the order of equal
digits, so distributing by one digit after another, the least significant first, sorts
(`Sorts.distribute`). `join_set` is what a counting sort does to its output: a write into one of the
segments side by side.
-/

namespace Radix

variable {α : Type}

/-! ## Segments side by side -/

/-- The first segments, one behind the other. -/
def join (b : Nat) (segments : Nat → List α) : List α := (List.range b).flatMap segments

@[simp] theorem join_zero (segments : Nat → List α) : join 0 segments = [] := rfl

theorem join_succ (b : Nat) (segments : Nat → List α) :
    join (b + 1) segments = join b segments ++ segments b := by
  rw [join, List.range_succ, List.flatMap_append, List.flatMap_singleton]
  rfl

/-- Segments of the same contents. -/
theorem join_congr {b : Nat} {s t : Nat → List α} (h : ∀ d < b, s d = t d) : join b s = join b t :=
  List.flatMap_congr fun d hd => h d (List.mem_range.mp hd)

/-- A segment that is replaced by one of the same length leaves the segments below it. -/
theorem join_update {b d : Nat} {segments : Nat → List α} {segment : List α} (h : b ≤ d) :
    join b (Function.update segments d segment) = join b segments :=
  join_congr fun e he => Function.update_of_ne (by omega) _ _

/-- A segment ends inside of the segments up to it. -/
theorem length_join_le {segments : Nat → List α} {d b : Nat} (h : d < b) :
    (join d segments).length + (segments d).length ≤ (join b segments).length := by
  induction b with
  | zero => omega
  | succ b ih =>
      rw [join_succ, List.length_append]
      rcases Nat.lt_or_ge d b with hlt | hge
      · have := ih hlt
        omega
      · obtain rfl : d = b := by omega
        exact Nat.le_refl _

/-- Writing into one of the segments. -/
theorem join_set {segments : Nat → List α} {b d j : Nat} {x : α} (hd : d < b)
    (hj : j < (segments d).length) :
    (join b segments).set ((join d segments).length + j) x
      = join b (Function.update segments d ((segments d).set j x)) := by
  induction b with
  | zero => omega
  | succ b ih =>
      rw [join_succ, join_succ]
      rcases Nat.lt_or_ge d b with hlt | hge
      · have hle : (join d segments).length + _ ≤ _ := length_join_le hlt
        rw [List.set_append_left _ _ (by omega), ih hlt, Function.update_of_ne (by omega)]
      · obtain rfl : d = b := by omega
        rw [List.set_append_right _ _ (by omega), join_update (Nat.le_refl _), Function.update_self,
          Nat.add_sub_cancel_left]

/-- The length of the segments depends on their lengths only. -/
theorem length_join_congr {b : Nat} {s t : Nat → List α}
    (h : ∀ d < b, (s d).length = (t d).length) : (join b s).length = (join b t).length := by
  induction b with
  | zero => rfl
  | succ b ih =>
      rw [join_succ, join_succ, List.length_append, List.length_append,
        ih fun d hd => h d (by omega),
        h b (by omega)]

/-- A list of the length of some segments is made of segments of their lengths. -/
theorem exists_join {b : Nat} {t : Nat → List α} : ∀ {l : List α}, l.length = (join b t).length →
    ∃ s, l = join b s ∧ ∀ d < b, (s d).length = (t d).length := by
  induction b with
  | zero => exact fun h => ⟨fun _ => [], List.eq_nil_of_length_eq_zero h, fun d hd => by omega⟩
  | succ b ih =>
      intro l h
      rw [join_succ, List.length_append] at h
      obtain ⟨s, hs, hlength⟩ := ih (show (l.take (join b t).length).length = _ by
        rw [List.length_take]
        omega)
      refine ⟨Function.update s b (l.drop (join b t).length), ?_, fun d hd => ?_⟩
      · rw [join_succ, join_update (Nat.le_refl b), Function.update_self, ← hs,
          List.take_append_drop]
      · rcases Nat.lt_or_ge d b with hlt | hge
        · rw [Function.update_of_ne (by omega)]
          exact hlength d hlt
        · obtain rfl : d = b := by omega
          rw [Function.update_self, List.length_drop]
          omega

/-- Lengthening a segment by an element in front of it. -/
theorem join_cons_perm {segments : Nat → List α} {b d : Nat} {x : α} (hd : d < b) :
    (join b (Function.update segments d (x :: segments d))).Perm (x :: join b segments) := by
  induction b with
  | zero => omega
  | succ b ih =>
      rw [join_succ, join_succ]
      rcases Nat.lt_or_ge d b with hlt | hge
      · rw [Function.update_of_ne (by omega)]
        exact (ih hlt).append_right _
      · obtain rfl : d = b := by omega
        rw [join_update (Nat.le_refl _), Function.update_self]
        exact List.perm_middle

/-! ## The keys of a digit -/

/-- The keys of a digit. -/
def bucket (digit : α → Nat) (keys : List α) (d : Nat) : List α := keys.filter (digit · = d)

/-- The keys by their digit. -/
def distribute (b : Nat) (digit : α → Nat) (keys : List α) : List α := join b (bucket digit keys)

variable {digit : α → Nat} {b : Nat}

/-- A bucket has the keys of its digit. -/
theorem mem_bucket {keys : List α} {d : Nat} {key : α} :
    key ∈ bucket digit keys d ↔ key ∈ keys ∧ digit key = d := by
  simp [bucket]

/-- A key goes to the front of the bucket of its digit. -/
theorem bucket_cons (key : α) (keys : List α) :
    bucket digit (key :: keys)
      = Function.update (bucket digit keys) (digit key) (key :: bucket digit keys (digit key)) := by
  funext d
  by_cases hd : d = digit key
  · subst hd
    simp [bucket]
  · rw [Function.update_of_ne hd, bucket, List.filter_cons_of_neg (by simpa using Ne.symm hd)]
    rfl

/-- A key behind the others goes to the back of the bucket of its digit. -/
theorem bucket_append_singleton (keys : List α) (key : α) :
    bucket digit (keys ++ [key])
      = Function.update (bucket digit keys) (digit key)
        (bucket digit keys (digit key) ++ [key]) := by
  funext d
  by_cases hd : d = digit key
  · subst hd
    simp [bucket]
  · rw [Function.update_of_ne hd, bucket, List.filter_append,
      List.filter_cons_of_neg (by simpa using Ne.symm hd)]
    simp [bucket]

/-- Distributing permutes the keys. -/
theorem distribute_perm : ∀ {keys : List α}, (∀ key ∈ keys, digit key < b) →
    (distribute b digit keys).Perm keys
  | [], _ => by
      have hnil : distribute b digit [] = [] := List.flatMap_eq_nil_iff.mpr fun _ _ => rfl
      rw [hnil]
  | key :: keys, h => by
      rw [distribute, bucket_cons]
      exact (join_cons_perm (h key (by simp))).trans
        ((distribute_perm fun k hk => h k (by simp [hk])).cons key)

/-- Distributing orders the keys by the digit, and those of one digit as they were. -/
theorem distribute_pairwise {r : α → α → Prop} {keys : List α} (h : keys.Pairwise r) :
    (distribute b digit keys).Pairwise fun x y =>
      digit x < digit y ∨ digit x = digit y ∧ r x y := by
  refine List.pairwise_flatMap.mpr ⟨fun d _ => ?_, ?_⟩
  · refine (h.filter _).imp_of_mem fun hx hy hr => .inr ⟨?_, hr⟩
    rw [(mem_bucket.mp hx).2, (mem_bucket.mp hy).2]
  · refine List.pairwise_lt_range.imp fun {d e} hlt x hx y hy => .inl ?_
    rw [(mem_bucket.mp hx).2, (mem_bucket.mp hy).2]
    exact hlt

/-- Keys of one digit stay as they are. -/
theorem distribute_of_forall {keys : List α} {d : Nat} (hd : d < b)
    (h : ∀ key ∈ keys, digit key = d) : distribute b digit keys = keys := by
  have hbucket : ∀ e, bucket digit keys e = if e = d then keys else [] := by
    intro e
    split
    · next he => exact List.filter_eq_self.mpr fun key hkey => by simp [h key hkey, he]
    · next he =>
        refine List.filter_eq_nil_iff.mpr fun key hkey => ?_
        rw [h key hkey]
        simpa using Ne.symm he
  have hbelow : ∀ n ≤ d, join n (bucket digit keys) = [] := by
    intro n hn
    refine List.flatMap_eq_nil_iff.mpr fun e he => ?_
    rw [hbucket, if_neg (by have := List.mem_range.mp he; omega)]
  rw [distribute]
  induction b with
  | zero => omega
  | succ b ih =>
      rw [join_succ, hbucket]
      rcases Nat.lt_or_ge d b with hlt | hge
      · rw [ih hlt, if_neg (by omega), List.append_nil]
      · rw [hbelow b hge, if_pos (by omega), List.nil_append]

/-- One pass of a sort by digits, the least significant first: keys ordered by their low digits come
out ordered by one digit more. -/
theorem distribute_digit (hb : 0 < b) {value : α → Nat} {pass : Nat} {keys : List α}
    (h : keys.Pairwise fun x y => value x % b ^ pass ≤ value y % b ^ pass) :
    (distribute b (fun key => value key / b ^ pass % b) keys).Pairwise fun x y =>
      value x % b ^ (pass + 1) ≤ value y % b ^ (pass + 1) := by
  refine (distribute_pairwise h).imp fun {x y} hxy => ?_
  rw [Nat.mod_pow_succ, Nat.mod_pow_succ]
  rcases hxy with hlt | ⟨heq, hle⟩
  · have hmod := Nat.mod_lt (value x) (Nat.pow_pos hb : 0 < b ^ pass)
    calc value x % b ^ pass + b ^ pass * (value x / b ^ pass % b)
        ≤ b ^ pass * (value x / b ^ pass % b + 1) := by
          rw [Nat.mul_succ]
          omega
      _ ≤ b ^ pass * (value y / b ^ pass % b) := Nat.mul_le_mul_left _ hlt
      _ ≤ _ := Nat.le_add_left _ _
  · rw [heq]
    exact Nat.add_le_add_right hle _

/-! ## Sorting by digits -/

/-- Keys ordered by their low digits, those of the same digits as they were. -/
structure Sorts (b passes : Nat) (value : α → Nat) (keys sorted : List α) : Prop where
  perm : sorted.Perm keys
  ordered : sorted.Pairwise fun x y => value x % b ^ passes ≤ value y % b ^ passes
  stable : ∀ v, bucket (value · % b ^ passes) sorted v = bucket (value · % b ^ passes) keys v

/-- Behind no pass the keys are as they were. -/
theorem Sorts.zero (b : Nat) (value : α → Nat) (keys : List α) : Sorts b 0 value keys keys :=
  ⟨.refl _, List.pairwise_of_forall fun _ _ => by simp [Nat.mod_one], fun _ => rfl⟩

/-- The keys of a digit stay as they were. -/
theorem bucket_distribute {keys : List α} (d : Nat) (hd : d < b) :
    bucket digit (distribute b digit keys) d = bucket digit keys d := by
  have hjoin : ∀ n, bucket digit (join n (bucket digit keys)) d
      = if d < n then bucket digit keys d else [] := by
    intro n
    induction n with
    | zero => rfl
    | succ n ih =>
        rw [join_succ, bucket, List.filter_append, ← bucket, ih]
        by_cases heq : d = n
        · subst heq
          rw [if_neg (by omega), if_pos (by omega), List.nil_append, bucket, List.filter_filter]
          exact List.filter_congr fun key _ => by simp
        · have hnone : (bucket digit keys n).filter (digit · = d) = [] := by
            refine List.filter_eq_nil_iff.mpr fun key hkey => ?_
            rw [(mem_bucket.mp hkey).2]
            simpa using fun h => heq h.symm
          rw [hnone, List.append_nil]
          simp only [Nat.lt_succ_iff_lt_or_eq, heq, or_false]
  rw [distribute, hjoin, if_pos hd]

/-- One pass: the keys that agree in one digit more are those of the digit among those that agree in
the lower ones. -/
theorem Sorts.distribute (hb : 0 < b) {passes : Nat} {value : α → Nat} {keys sorted : List α}
    (h : Sorts b passes value keys sorted) :
    Sorts b (passes + 1) value keys
      (distribute b (fun key => value key / b ^ passes % b) sorted) := by
  have hdigit : ∀ key ∈ sorted, value key / b ^ passes % b < b := fun _ _ => Nat.mod_lt _ hb
  refine ⟨(distribute_perm hdigit).trans h.perm, distribute_digit hb h.ordered, fun v => ?_⟩
  have hpow : 0 < b ^ passes := Nat.pow_pos hb
  have hsplit : ∀ l : List α, bucket (value · % b ^ (passes + 1)) l v =
      (bucket (fun key => value key / b ^ passes % b) l (v / b ^ passes)).filter
        (value · % b ^ passes = v % b ^ passes) := by
    intro l
    rw [bucket, bucket, List.filter_filter]
    refine List.filter_congr fun key _ => ?_
    rw [Bool.eq_iff_iff]
    simp only [decide_eq_true_eq, Bool.and_eq_true, Nat.mod_pow_succ]
    have hlow := Nat.mod_lt (value key) hpow
    constructor
    · rintro rfl
      rw [Nat.add_mul_div_left _ _ hpow, Nat.div_eq_of_lt hlow, Nat.add_mul_mod_self_left,
        Nat.mod_mod]
      omega
    · rintro ⟨hmod, hdiv⟩
      rw [hmod, hdiv, Nat.mod_add_div]
  have hswap : ∀ l : List α,
      (bucket (fun key => value key / b ^ passes % b) l (v / b ^ passes)).filter
      (value · % b ^ passes = v % b ^ passes)
      = bucket (fun key => value key / b ^ passes % b)
          (bucket (value · % b ^ passes) l (v % b ^ passes)) (v / b ^ passes) := by
    intro l
    rw [bucket, bucket, bucket, List.filter_filter, List.filter_filter]
    exact List.filter_congr fun key _ => Bool.and_comm _ _
  rw [hsplit, hsplit, hswap keys, ← h.stable, ← hswap sorted]
  by_cases hv : v / b ^ passes < b
  · rw [bucket_distribute _ hv]
  · have hnone : ∀ l : List α,
        bucket (fun key => value key / b ^ passes % b) l (v / b ^ passes) = [] :=
      fun l => List.filter_eq_nil_iff.mpr fun key _ => by
        have := Nat.mod_lt (value key / b ^ passes) hb
        simp only [decide_eq_true_eq]
        omega
    rw [hnone, hnone]

/-- Order and stability leave one arrangement. -/
theorem eq_of_stable {f : α → Nat} : ∀ {xs ys : List α}, xs.Pairwise (f · ≤ f ·) →
    ys.Pairwise (f · ≤ f ·) → (∀ v, bucket f xs v = bucket f ys v) → xs = ys
  | [], [], _, _, _ => rfl
  | [], y :: ys, _, _, h => by
      have hmem : y ∈ bucket f (y :: ys) (f y) := mem_bucket.mpr ⟨by simp, rfl⟩
      rw [← h] at hmem
      cases hmem
  | x :: xs, [], _, _, h => by
      have hmem : x ∈ bucket f (x :: xs) (f x) := mem_bucket.mpr ⟨by simp, rfl⟩
      rw [h] at hmem
      cases hmem
  | x :: xs, y :: ys, hx, hy, h => by
      have hle : ∀ {a b : α} {as bs : List α}, (a :: as).Pairwise (f · ≤ f ·) →
          (∀ v, bucket f (a :: as) v = bucket f (b :: bs) v) → f a ≤ f b := by
        intro a b as bs hpair hsame
        have hmem : b ∈ bucket f (b :: bs) (f b) := mem_bucket.mpr ⟨by simp, rfl⟩
        rw [← hsame] at hmem
        rcases List.mem_cons.mp (mem_bucket.mp hmem).1 with rfl | hin
        · exact Nat.le_refl _
        · exact (List.pairwise_cons.mp hpair).1 b hin
      have heq : f x = f y := Nat.le_antisymm (hle hx h) (hle hy fun v => (h v).symm)
      have hhead := h (f x)
      rw [bucket, bucket, List.filter_cons_of_pos (by simp),
        List.filter_cons_of_pos (by simp [heq])] at hhead
      obtain ⟨rfl, -⟩ := List.cons.inj hhead
      refine congrArg (x :: ·) (eq_of_stable (List.pairwise_cons.mp hx).2
        (List.pairwise_cons.mp hy).2 fun v => ?_)
      have hv := h v
      rw [bucket, bucket, List.filter_cons, List.filter_cons] at hv
      split at hv
      · exact (List.cons.inj hv).2
      · exact hv

/-- A stable arrangement by the digits is unique. -/
theorem Sorts.unique {passes : Nat} {value : α → Nat} {keys xs ys : List α}
    (hx : Sorts b passes value keys xs) (hy : Sorts b passes value keys ys) : xs = ys :=
  eq_of_stable hx.ordered hy.ordered fun v => (hx.stable v).trans (hy.stable v).symm

/-- A number without a digit behind some has no more digits than those. -/
theorem lt_pow_of_digits {n digits : Nat} (hb : 0 < b) : ∀ {width : Nat}, n < b ^ width →
    digits ≤ width → (∀ pass, digits ≤ pass → pass < width → n / b ^ pass % b = 0) →
    n < b ^ digits
  | 0, hn, hle, _ => by
      obtain rfl : digits = 0 := by omega
      exact hn
  | width + 1, hn, hle, h => by
      rcases Nat.lt_or_eq_of_le hle with hlt | heq
      · have hdigit := h width (by omega) (by omega)
        rw [Nat.mod_eq_of_lt (Nat.div_lt_of_lt_mul (by rwa [Nat.pow_succ] at hn))] at hdigit
        have hlower := (Nat.div_eq_zero_iff_lt (Nat.pow_pos hb)).mp hdigit
        exact lt_pow_of_digits hb hlower (by omega) fun pass hlow hhigh => h pass hlow (by omega)
      · rwa [heq]

end Radix
