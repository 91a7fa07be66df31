import Mathlib.Algebra.Order.Ring.Nat
import Mathlib.Order.Compare
import Mathlib.Data.List.Basic
import Mathlib.Tactic.Common

/-!
# Orders decided at the first difference

A comparison of two things by lists of parts, at the first part that differs, with a second
comparison where no part differs because one list is a prefix of the other. Each half is an order;
together they are one exactly when no element is straddled (`precedes_trans_iff`): a list of parts
that is a common prefix of two others must not lie between these in the second comparison the wrong
way round.
-/

namespace FirstDifference

section

variable {κ : Type*} [Ord κ] {xs ys zs : List κ} {x y : κ}

/-- The first difference of the lists says that the left one comes first. -/
inductive Before : List κ → List κ → Prop
  | head {x y : κ} {xs ys : List κ} : compare x y = .lt → Before (x :: xs) (y :: ys)
  | tail {x : κ} {xs ys : List κ} : Before xs ys → Before (x :: xs) (x :: ys)

/-- One of the lists is a prefix of the other. -/
def Comparable (xs ys : List κ) : Prop := xs <+: ys ∨ ys <+: xs

omit [Ord κ] in
theorem Comparable.symm (h : Comparable xs ys) : Comparable ys xs := h.elim .inr .inl

/-- What comes first does so whatever follows. -/
theorem Before.append (h : Before xs ys) (us vs : List κ) : Before (xs ++ us) (ys ++ vs) := by
  induction h with
  | head h => exact .head h
  | tail _ ih => exact .tail ih

/-- A first difference is one of all longer lists. -/
theorem Before.extend {xs' ys' : List κ} (h : Before xs ys) (hx : xs <+: xs') (hy : ys <+: ys') :
    Before xs' ys' := by
  obtain ⟨us, rfl⟩ := hx
  obtain ⟨vs, rfl⟩ := hy
  exact h.append us vs

/-- The comparison at the first difference; `tie` where there is none. -/
def firstDifference (tie : Ordering) : List κ → List κ → Ordering
  | x :: xs, y :: ys =>
      match compare x y with
      | .eq => firstDifference tie xs ys
      | order => order
  | _, _ => tie

theorem firstDifference_of_eq {tie : Ordering} (h : compare x y = .eq) :
    firstDifference tie (x :: xs) (y :: ys) = firstDifference tie xs ys := by
  simp only [firstDifference, h]

theorem firstDifference_of_ne {tie : Ordering} (h : compare x y ≠ .eq) :
    firstDifference tie (x :: xs) (y :: ys) = compare x y := by
  cases hc : compare x y with
  | eq => exact absurd hc h
  | lt | gt => simp only [firstDifference, hc]

section

variable [Std.LawfulEqOrd κ] {tie : Ordering}

theorem Before.irrefl (h : Before xs xs) : False := by
  induction xs with
  | nil => cases h
  | cons x xs ih =>
      cases h with
      | head h =>
          have hself : compare x x = .eq := Std.ReflCmp.compare_self
          rw [hself] at h
          cases h
      | tail h => exact ih h

/-- Lists with a first difference are no prefixes of each other. -/
theorem Before.not_comparable (h : Before xs ys) : ¬Comparable xs ys := by
  rintro (hp | hp)
  · exact (h.extend hp (List.prefix_refl ys)).irrefl
  · exact (h.extend (List.prefix_refl xs) hp).irrefl

theorem Before.firstDifference (h : Before xs ys) : firstDifference tie xs ys = .lt := by
  induction h with
  | head h => simp only [FirstDifference.firstDifference, h]
  | @tail x xs ys _ ih =>
      have hself : compare x x = .eq := Std.ReflCmp.compare_self
      simpa only [FirstDifference.firstDifference, hself] using ih

/-- Where one list goes on behind the other, the tie decides. -/
theorem firstDifference_append (xs us : List κ) :
    firstDifference tie xs (xs ++ us) = tie ∧ firstDifference tie (xs ++ us) xs = tie := by
  induction xs with
  | nil => cases us <;> exact ⟨rfl, rfl⟩
  | cons x xs ih =>
      have hself : compare x x = .eq := Std.ReflCmp.compare_self
      simpa only [List.cons_append, firstDifference, hself] using ih

/-- Lists of which none comes first are left to the tie. -/
theorem Comparable.firstDifference (h : Comparable xs ys) : firstDifference tie xs ys = tie := by
  rcases h with ⟨us, rfl⟩ | ⟨us, rfl⟩
  · exact (firstDifference_append xs us).1
  · exact (firstDifference_append ys us).2

end

theorem Before.trans [Std.TransOrd κ] (h₁ : Before xs ys) (h₂ : Before ys zs) : Before xs zs := by
  induction h₁ generalizing zs with
  | head hxy =>
      cases h₂ with
      | head hyz => exact .head (Std.TransCmp.lt_trans hxy hyz)
      | tail _ => exact .head hxy
  | tail _ ih =>
      cases h₂ with
      | head hyz => exact .head hyz
      | tail h₂ => exact .tail (ih h₂)

section

variable [Std.TransOrd κ] [Std.LawfulEqOrd κ] {tie : Ordering}

theorem Before.asymm (h : Before xs ys) : ¬Before ys xs := fun h' => (h.trans h').irrefl

/-- Two lists have a first difference or one is a prefix of the other. -/
theorem before_or_comparable : ∀ xs ys : List κ, Before xs ys ∨ Before ys xs ∨ Comparable xs ys
  | [], _ => .inr (.inr (.inl List.nil_prefix))
  | _, [] => .inr (.inr (.inr List.nil_prefix))
  | x :: xs, y :: ys => by
      cases h : compare x y with
      | lt => exact .inl (.head h)
      | gt => exact .inr (.inl (.head (Std.OrientedCmp.lt_of_gt h)))
      | eq =>
          obtain rfl := Std.LawfulEqCmp.eq_of_compare h
          rcases before_or_comparable xs ys with h | h | h | h
          · exact .inl (.tail h)
          · exact .inr (.inl (.tail h))
          · exact .inr (.inr (.inl ((List.prefix_cons_inj x).mpr h)))
          · exact .inr (.inr (.inr ((List.prefix_cons_inj x).mpr h)))

/-- The list that comes second is the greater one. -/
theorem Before.firstDifference_swap (h : Before xs ys) :
    FirstDifference.firstDifference tie ys xs = .gt := by
  induction h with
  | head h => simp only [FirstDifference.firstDifference, Std.OrientedCmp.gt_of_lt h]
  | @tail x xs ys _ ih =>
      have hself : compare x x = .eq := Std.ReflCmp.compare_self
      simpa only [FirstDifference.firstDifference, hself] using ih

/-- A list is less if it comes first, or none does and the tie says so. -/
theorem firstDifference_lt_iff :
    firstDifference tie xs ys = .lt ↔ Before xs ys ∨ Comparable xs ys ∧ tie = .lt := by
  rcases before_or_comparable xs ys with h | h | h
  · simp [h, h.firstDifference]
  · have hc : ¬Comparable xs ys := fun c => h.not_comparable c.symm
    simp [h.asymm, h.firstDifference_swap, hc]
  · have hb : ¬Before xs ys := fun b => b.not_comparable h
    simp [h, h.firstDifference, hb]

/-- Two lists are equal if none comes first and the tie says so. -/
theorem firstDifference_eq_iff :
    firstDifference tie xs ys = .eq ↔ Comparable xs ys ∧ tie = .eq := by
  rcases before_or_comparable xs ys with h | h | h
  · simp [h.not_comparable, h.firstDifference]
  · have hc : ¬Comparable xs ys := fun c => h.not_comparable c.symm
    simp [h.firstDifference_swap, hc]
  · simp [h, h.firstDifference]

/-- Swapping the lists and the tie swaps the answer. -/
theorem firstDifference_swap (tie : Ordering) (xs ys : List κ) :
    firstDifference tie.swap ys xs = (firstDifference tie xs ys).swap := by
  rcases before_or_comparable xs ys with h | h | h
  · rw [h.firstDifference, h.firstDifference_swap]; rfl
  · rw [h.firstDifference, h.firstDifference_swap]; rfl
  · rw [h.firstDifference, h.symm.firstDifference]

end

end

section

variable {α κ τ : Type*} [Ord κ] [Ord τ] (key : α → List κ) (tie : α → τ)

/-- The comparison at the first difference of the keys; `tie` where there is none. -/
def Precedes (a b : α) : Prop :=
  Before (key a) (key b) ∨ Comparable (key a) (key b) ∧ compare (tie a) (tie b) = .lt

/-- The key of `x` is a prefix of two others that have a first difference, and `tie` puts `x`
between the two the other way round. -/
structure Straddles (x y z : α) : Prop where
  left : key x <+: key y
  right : key x <+: key z
  below : compare (tie y) (tie x) = .lt
  above : compare (tie x) (tie z) = .lt
  before : Before (key z) (key y)

variable {key tie} {a b c : α}

/-- A straddled element makes a cycle of three. -/
theorem Straddles.cycle {x y z : α} (h : Straddles key tie x y z) :
    Precedes key tie x z ∧ Precedes key tie z y ∧ Precedes key tie y x :=
  ⟨.inr ⟨.inl h.right, h.above⟩, .inl h.before, .inr ⟨.inr h.left, h.below⟩⟩

variable [Std.TransOrd κ] [Std.LawfulEqOrd κ] [Std.TransOrd τ]

theorem Precedes.asymm (h : Precedes key tie a b) : ¬Precedes key tie b a := by
  rcases h with h | ⟨hc, ht⟩
  · rintro (h' | ⟨hc', -⟩)
    · exact h.asymm h'
    · exact h.not_comparable hc'.symm
  · rintro (h' | ⟨-, ht'⟩)
    · exact h'.not_comparable hc.symm
    · exact Std.OrientedCmp.not_lt_of_lt ht ht'

omit [Std.TransOrd κ] [Std.TransOrd τ] in
/-- Where a first difference is undone through a common comparable, that one is straddled. -/
theorem straddles_of_before (hab : Before (key a) (key b)) (hbc : Comparable (key b) (key c))
    (ht : compare (tie b) (tie c) = .lt) (hca : Comparable (key c) (key a))
    (ht' : compare (tie c) (tie a) = .lt) : Straddles key tie c b a := by
  have hcb : key c <+: key b := by
    refine hbc.resolve_left fun h => ?_
    exact (hab.extend (List.prefix_refl _) h).not_comparable hca.symm
  have hca' : key c <+: key a := by
    refine hca.resolve_right fun h => ?_
    exact (hab.extend h (List.prefix_refl _)).not_comparable hbc.symm
  exact ⟨hcb, hca', ht, ht', hab⟩

/-- A cycle of three straddles one of them. -/
theorem straddles_of_cycle (hab : Precedes key tie a b) (hbc : Precedes key tie b c)
    (hca : Precedes key tie c a) :
    Straddles key tie c b a ∨ Straddles key tie a c b ∨ Straddles key tie b a c := by
  rcases hab with hab | ⟨cab, tab⟩ <;> rcases hbc with hbc | ⟨cbc, tbc⟩ <;>
    rcases hca with hca | ⟨cca, tca⟩
  · exact absurd hca (hab.trans hbc).asymm
  · exact absurd cca.symm (hab.trans hbc).not_comparable
  · exact absurd cbc.symm (hca.trans hab).not_comparable
  · exact .inl (straddles_of_before hab cbc tbc cca tca)
  · exact absurd cab.symm (hbc.trans hca).not_comparable
  · exact .inr (.inl (straddles_of_before hbc cca tca cab tab))
  · exact .inr (.inr (straddles_of_before hca cab tab cbc tbc))
  · exact absurd tca (Std.OrientedCmp.not_lt_of_lt (Std.TransCmp.lt_trans tab tbc))

variable [Std.LawfulEqOrd τ]

/-- Of two values whose ties differ, one precedes the other. -/
theorem precedes_or_eq (hinj : Function.Injective tie) (a b : α) :
    Precedes key tie a b ∨ a = b ∨ Precedes key tie b a := by
  rcases before_or_comparable (key a) (key b) with h | h | h
  · exact .inl (.inl h)
  · exact .inr (.inr (.inl h))
  · cases ht : compare (tie a) (tie b) with
    | lt => exact .inl (.inr ⟨h, ht⟩)
    | eq => exact .inr (.inl (hinj (Std.LawfulEqCmp.eq_of_compare ht)))
    | gt => exact .inr (.inr (.inr ⟨h.symm, Std.OrientedCmp.lt_of_gt ht⟩))

/-- Among the elements of a set the comparison is transitive exactly when none is straddled. -/
theorem precedes_trans_iff (hinj : Function.Injective tie) (among : α → Prop) :
    (∀ a b c, among a → among b → among c → Precedes key tie a b → Precedes key tie b c →
      Precedes key tie a c) ↔
    ∀ x y z, among x → among y → among z → ¬Straddles key tie x y z := by
  constructor
  · intro htrans x y z hx hy hz h
    obtain ⟨hxz, hzy, hyx⟩ := h.cycle
    exact hyx.asymm (htrans x z y hx hz hy hxz hzy)
  · intro hnone a b c ha hb hc hab hbc
    have hcases : Precedes key tie a c ∨ a = c ∨ Precedes key tie c a := precedes_or_eq hinj a c
    rcases hcases with h | rfl | hca
    · exact h
    · exact absurd hbc hab.asymm
    · rcases straddles_of_cycle hab hbc hca with h | h | h
      · exact absurd h (hnone c b a hc hb ha)
      · exact absurd h (hnone a c b ha hc hb)
      · exact absurd h (hnone b a c hb ha hc)

end

end FirstDifference
