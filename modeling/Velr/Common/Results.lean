import Mathlib.Algebra.Order.Ring.Nat
import Mathlib.Data.List.Forall2

/-!
# Results of fallible programs

Peeling apart a successful result: a sequence succeeds when each of its steps does.
-/

namespace Results

variable {ε α β : Type}

/-- A sequence succeeds when its first part does and the rest at its result. -/
theorem bind_eq_ok_iff {x : Except ε α} {f : α → Except ε β} {b : β} :
    (x >>= f) = .ok b ↔ ∃ a, x = .ok a ∧ f a = .ok b := by
  cases x with
  | error e =>
      constructor
      · intro h
        cases h
      · rintro ⟨_, h, _⟩
        cases h
  | ok a =>
      constructor
      · exact fun h => ⟨a, rfl, h⟩
      · rintro ⟨_, h, hf⟩
        cases h
        exact hf

/-- A result that is mapped is one of the call. -/
theorem map_eq_ok_iff {x : Except ε α} {f : α → β} {b : β} :
    x.map f = .ok b ↔ ∃ a, x = .ok a ∧ f a = b := by
  cases x with
  | error e =>
      constructor
      · intro h
        cases h
      · rintro ⟨_, h, _⟩
        cases h
  | ok a =>
      constructor
      · exact fun h => ⟨a, rfl, Except.ok.inj h⟩
      · rintro ⟨_, h, rfl⟩
        cases h
        rfl

/-- A traversal succeeds with the results of its elements. -/
theorem mapM_eq_ok_iff {f : α → Except ε β} : ∀ {xs : List α} {ys : List β},
    xs.mapM f = .ok ys ↔ List.Forall₂ (fun x y => f x = .ok y) xs ys
  | [], ys => by
      rw [List.mapM_nil, List.forall₂_nil_left_iff]
      constructor
      · intro h
        cases h
        rfl
      · rintro rfl
        rfl
  | x :: xs, ys => by
      rw [List.mapM_cons, bind_eq_ok_iff, List.forall₂_cons_left_iff]
      constructor
      · rintro ⟨y, hy, h⟩
        obtain ⟨rest, hrest, h⟩ := bind_eq_ok_iff.mp h
        cases h
        exact ⟨y, rest, hy, mapM_eq_ok_iff.mp hrest, rfl⟩
      · rintro ⟨y, rest, hy, hrest, rfl⟩
        exact ⟨y, hy, bind_eq_ok_iff.mpr ⟨rest, mapM_eq_ok_iff.mpr hrest, rfl⟩⟩

/-- A sequence fails where its first part does, or the rest at its result. -/
theorem bind_eq_error_iff {x : Except ε α} {f : α → Except ε β} {e : ε} :
    (x >>= f) = .error e ↔ x = .error e ∨ ∃ a, x = .ok a ∧ f a = .error e := by
  cases x with
  | error e' =>
      constructor
      · intro h
        cases h
        exact .inl rfl
      · rintro (h | ⟨_, h, _⟩)
        · cases h
          rfl
        · cases h
  | ok a =>
      constructor
      · exact fun h => .inr ⟨a, rfl, h⟩
      · rintro (h | ⟨_, h, hf⟩)
        · cases h
        · cases h
          exact hf

/-- Mapping keeps the errors. -/
theorem map_eq_error_iff {x : Except ε α} {f : α → β} {e : ε} :
    x.map f = .error e ↔ x = .error e := by
  cases x with
  | error e' =>
      constructor
      · intro h
        cases h
        rfl
      · intro h
        cases h
        rfl
  | ok a => exact ⟨nofun, nofun⟩

/-- A traversal fails at the first element that does. -/
theorem mapM_eq_error_iff {f : α → Except ε β} {e : ε} : ∀ {xs : List α},
    xs.mapM f = .error e ↔ ∃ front x back, xs = front ++ x :: back ∧
      (∀ y ∈ front, ∃ b, f y = .ok b) ∧ f x = .error e
  | [] => by
      rw [List.mapM_nil]
      constructor
      · nofun
      · rintro ⟨front, x, back, hsplit, -⟩
        cases front <;> cases hsplit
  | x :: xs => by
      rw [List.mapM_cons, bind_eq_error_iff]
      constructor
      · rintro (hx | ⟨b, hb, hrest⟩)
        · exact ⟨[], x, xs, rfl, fun _ hy => (nomatch hy), hx⟩
        · rcases bind_eq_error_iff.mp hrest with hrest | ⟨_, _, hpure⟩
          · obtain ⟨front, y, back, rfl, hfront, hy⟩ := mapM_eq_error_iff.mp hrest
            refine ⟨x :: front, y, back, rfl, ?_, hy⟩
            rw [List.forall_mem_cons]
            exact ⟨⟨b, hb⟩, hfront⟩
          · cases hpure
      · rintro ⟨_ | ⟨first, front⟩, y, back, hsplit, hfront, hy⟩
        · cases hsplit
          exact .inl hy
        · cases hsplit
          rw [List.forall_mem_cons] at hfront
          obtain ⟨b, hb⟩ := hfront.1
          refine .inr ⟨b, hb, bind_eq_error_iff.mpr (.inl ?_)⟩
          exact mapM_eq_error_iff.mpr ⟨front, y, back, rfl, hfront.2, hy⟩

/-- A sequence does not fail in a way in which neither of its parts does. -/
theorem bind_ne_error {x : Except ε α} {f : α → Except ε β} {e : ε} (hx : x ≠ .error e)
    (hf : ∀ a, x = .ok a → f a ≠ .error e) : (x >>= f) ≠ .error e := by
  cases x with
  | error e' =>
      intro h
      cases h
      exact hx rfl
  | ok a => exact hf a rfl

theorem map_ne_error {x : Except ε α} {f : α → β} {e : ε} (hx : x ≠ .error e) :
    x.map f ≠ .error e := by
  cases x with
  | error e' =>
      intro h
      cases h
      exact hx rfl
  | ok a => exact nofun

/-- An error that no element has is not that of the list. -/
theorem mapM_ne_error {f : α → Except ε β} {e : ε} : ∀ {xs : List α},
    (∀ x ∈ xs, f x ≠ .error e) → xs.mapM f ≠ .error e
  | [], _ => by
      rw [List.mapM_nil]
      rintro ⟨⟩
  | x :: xs, h => by
      rw [List.mapM_cons]
      refine bind_ne_error (h x (by simp)) fun y _ => ?_
      refine bind_ne_error (mapM_ne_error fun z hz => h z (by simp [hz])) fun ys _ => ?_
      rintro ⟨⟩

/-- Choosing a related element for each one of a list. -/
theorem exists_forall₂ {α β : Type} {r : α → β → Prop} : ∀ {xs : List α},
    (∀ x ∈ xs, ∃ y, r x y) → ∃ ys, List.Forall₂ r xs ys
  | [], _ => ⟨[], .nil⟩
  | x :: xs, h => by
      obtain ⟨y, hy⟩ := h x (by simp)
      obtain ⟨ys, hys⟩ := exists_forall₂ fun z (hz : z ∈ xs) => h z (by simp [hz])
      exact ⟨y :: ys, .cons hy hys⟩

/-- What holds of everything related to an element of a list holds of the related list. -/
theorem forall₂_forall {α β : Type} {r : α → β → Prop} {p : β → Prop} {xs : List α} {ys : List β}
    (h : List.Forall₂ r xs ys) (hp : ∀ x ∈ xs, ∀ y, r x y → p y) : ∀ y ∈ ys, p y := by
  induction h with
  | nil => intro y hy; cases hy
  | cons hxy _ ih =>
      intro y hy
      rcases List.mem_cons.mp hy with rfl | hy
      · exact hp _ (by simp) _ hxy
      · exact ih (fun x hx => hp x (by simp [hx])) y hy

/-- Related lists are ordered alike. -/
theorem forall₂_left {α β : Type} {r : α → β → Prop} {xs : List α} {ys : List β}
    (h : List.Forall₂ r xs ys) : ∀ x ∈ xs, ∃ y ∈ ys, r x y := by
  induction h with
  | nil => intro x hx; cases hx
  | cons hxy _ ih =>
      intro x hx
      rcases List.mem_cons.mp hx with rfl | hx
      · exact ⟨_, List.mem_cons_self, hxy⟩
      · obtain ⟨y, hy, hxy⟩ := ih x hx
        exact ⟨y, List.mem_cons_of_mem _ hy, hxy⟩

/-- Every element on the right has one on the left. -/
theorem forall₂_right {α β : Type} {r : α → β → Prop} {xs : List α} {ys : List β}
    (h : List.Forall₂ r xs ys) : ∀ y ∈ ys, ∃ x ∈ xs, r x y :=
  forall₂_left h.flip

/-- Elements at one position are related. -/
theorem forall₂_getElem? {α β : Type} {r : α → β → Prop} {xs : List α} {ys : List β}
    (h : List.Forall₂ r xs ys) {i : Nat} {x : α} {y : β} (hx : xs[i]? = some x)
    (hy : ys[i]? = some y) : r x y := by
  induction h generalizing i with
  | nil => cases hx
  | cons hxy _ ih =>
      cases i with
      | zero =>
          cases hx
          cases hy
          exact hxy
      | succ i => exact ih hx hy

/-- What holds of each two on the left gives what holds of each two on the right. -/
theorem forall₂_pairwise {α β : Type} {r : α → β → Prop} {p : α → α → Prop} {q : β → β → Prop}
    {xs : List α} {ys : List β} (h : List.Forall₂ r xs ys) (hp : xs.Pairwise p)
    (hpq : ∀ x x' y y', r x y → r x' y' → p x x' → q y y') : ys.Pairwise q := by
  induction h with
  | nil => exact .nil
  | @cons x y xs ys hxy hrest ih =>
      rw [List.pairwise_cons] at hp
      refine List.pairwise_cons.mpr ⟨fun y' hy' => ?_, ih hp.2⟩
      obtain ⟨i, hi, rfl⟩ := List.mem_iff_getElem.mp hy'
      have hi' : i < xs.length := by rwa [hrest.length_eq]
      exact hpq _ _ _ _ hxy (hrest.get hi' hi) (hp.1 _ (List.getElem_mem hi'))

/-- A loop that appends one related element to a list at each round. -/
theorem foldlM_collect {ι σ : Type} {f : List α × σ → ι → Except ε (List α × σ)} {r : ι → α → Prop}
    (h : ∀ (ys : List α) (s : σ) (i : ι), ∃ y s', f (ys, s) i = .ok (ys ++ [y], s') ∧ r i y) :
    ∀ (is : List ι) (ys : List α) (s : σ),
      ∃ zs s', is.foldlM f (ys, s) = .ok (ys ++ zs, s') ∧ List.Forall₂ r is zs
  | [], ys, s => ⟨[], s, by rw [List.append_nil]; rfl, .nil⟩
  | i :: is, ys, s => by
      obtain ⟨y, s', hi, hy⟩ := h ys s i
      obtain ⟨zs, s'', his, hzs⟩ := foldlM_collect h is (ys ++ [y]) s'
      refine ⟨y :: zs, s'', ?_, .cons hy hzs⟩
      rw [List.append_assoc] at his
      rw [List.foldlM_cons, hi]
      exact his

/-- What holds of a result, and of the error otherwise. -/
def Outcome (x : Except ε α) (post : α → Prop) (fail : ε → Prop) : Prop :=
  match x with
  | .ok a => post a
  | .error e => fail e

/-- An outcome may be weakened. -/
theorem Outcome.imp {x : Except ε α} {post post' : α → Prop} {fail fail' : ε → Prop}
    (h : Outcome x post fail) (hpost : ∀ a, post a → post' a) (hfail : ∀ e, fail e → fail' e) :
    Outcome x post' fail' := by
  cases x with
  | ok a => exact hpost a h
  | error e => exact hfail e h

/-- The outcome of a sequence is that of its second step behind that of its first. -/
theorem Outcome.bind {x : Except ε α} {f : α → Except ε β} {mid : α → Prop} {post : β → Prop}
    {fail : ε → Prop} (h : Outcome x mid fail) (hf : ∀ a, mid a → Outcome (f a) post fail) :
    Outcome (x >>= f) post fail := by
  cases x with
  | ok a => exact hf a h
  | error e => exact h

end Results
