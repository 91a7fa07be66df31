import Velr.Common.Results

/-!
# Runs that collect

A run that takes items one after another, where some lists of items are allowed and every front of
an allowed list is (each item once, say, or no more than fit). What a run would take is known in
advance, as a list or as no list at all; the run *collects* it when it succeeds exactly if there is
such a list and it is allowed behind the items taken before. Runs that collect compose: in sequence
they collect the lists one behind the other (`Collects.bind`), and so does a loop over a list
(`Collects.foldlM`).
-/

namespace Collecting

variable {ε σ τ ι α : Type}

/-- Which lists may be taken. -/
structure Policy (ι : Type) where
  fits : List ι → Prop
  fits_left : ∀ {xs ys}, fits (xs ++ ys) → fits xs

/-- Behind `items` a run takes the list `found`, if there is one and the policy allows it; `stands`
relates the state that it returns to all that is taken. It never fails in the way `never`. -/
def Collects (p : Policy ι) (never : ε → Prop) (stands : σ → List ι → Prop) (run : Except ε σ)
    (items : List ι) (found : Option (List ι)) : Prop :=
  match run with
  | .ok s => ∃ new, found = some new ∧ stands s (items ++ new)
  | .error e => ¬never e ∧ ∀ new, found = some new → ¬p.fits (items ++ new)

variable {p : Policy ι} {never : ε → Prop} {stands : σ → List ι → Prop}
  {stands' : τ → List ι → Prop} {items : List ι} {found found' : Option (List ι)}
  {run : Except ε σ} {s : σ} {e : ε}

/-- Nothing is taken. -/
theorem Collects.nil (h : stands s items) :
    Collects p never stands (.ok s : Except ε σ) items (some []) :=
  ⟨[], rfl, by rwa [List.append_nil]⟩

/-- A failure where nothing could be taken. -/
theorem Collects.none (h : ¬never e) :
    Collects p never stands (.error e : Except ε σ) items .none :=
  ⟨h, nofun⟩

/-- What a run takes behind `xs`, counted with `xs`. -/
theorem Collects.behind {xs : List ι} (h : Collects p never stands run (items ++ xs) found) :
    Collects p never stands run items (found.map (xs ++ ·)) := by
  cases run with
  | error e =>
      refine ⟨h.1, fun new hnew => ?_⟩
      obtain ⟨ys, hys, rfl⟩ := Option.map_eq_some_iff.mp hnew
      rw [← List.append_assoc]
      exact h.2 ys hys
  | ok s =>
      obtain ⟨ys, hys, hstands⟩ := h
      refine ⟨xs ++ ys, ?_, ?_⟩
      · rw [hys, Option.map_some]
      · rwa [← List.append_assoc]

/-- A failure of the first part of a sequence is one of the sequence. -/
theorem Collects.fails (h : Collects p never stands (.error e : Except ε σ) items found) :
    Collects p never stands' (.error e : Except ε τ) items
      (found.bind fun xs => found'.map (xs ++ ·)) := by
  refine ⟨h.1, fun new hnew => ?_⟩
  obtain ⟨xs, hxs, hnew⟩ := Option.bind_eq_some_iff.mp hnew
  obtain ⟨ys, -, rfl⟩ := Option.map_eq_some_iff.mp hnew
  intro hfits
  rw [← List.append_assoc] at hfits
  exact h.2 xs hxs (p.fits_left hfits)

/-- A sequence takes what its parts do, one behind the other. -/
theorem Collects.bind {f : σ → Except ε τ} (h : Collects p never stands run items found)
    (hf : ∀ s new, found = some new → stands s (items ++ new) →
      Collects p never stands' (f s) (items ++ new) found') :
    Collects p never stands' (run >>= f) items
      (found.bind fun xs => found'.map (xs ++ ·)) := by
  cases run with
  | error e => exact h.fails
  | ok s =>
      obtain ⟨xs, hxs, hstands⟩ := h
      rw [hxs, Option.bind_some]
      exact (hf s xs hxs hstands).behind

/-- What takes no more items and succeeds changes nothing. -/
theorem Collects.followed {f : σ → Except ε τ} (h : Collects p never stands run items found)
    (hf : ∀ s new, found = some new → stands s (items ++ new) →
      ∃ t, f s = .ok t ∧ stands' t (items ++ new)) :
    Collects p never stands' (run >>= f) items found := by
  cases run with
  | error e => exact h
  | ok s =>
      obtain ⟨new, hnew, hstands⟩ := h
      obtain ⟨t, ht, hstands'⟩ := hf s new hnew hstands
      change Collects p never stands' (f s) items found
      rw [ht]
      exact ⟨new, hnew, hstands'⟩

/-- A loop takes what its rounds do. -/
theorem Collects.foldlM {f : σ → α → Except ε σ} {g : α → Option (List ι)} :
    ∀ {as : List α} {s : σ} {items : List ι}, stands s items →
      (∀ a ∈ as, ∀ s items, stands s items → Collects p never stands (f s a) items (g a)) →
      Collects p never stands (as.foldlM f s) items ((as.mapM g).map List.flatten)
  | [], s, items, h, _ => .nil h
  | a :: as, s, items, h, hf => by
      have hstep := (hf a (by simp) s items h).bind (f := fun s => as.foldlM f s)
        fun s' new _ hstands =>
          Collects.foldlM hstands fun b hb => hf b (List.mem_cons_of_mem _ hb)
      rw [List.foldlM_cons]
      have hfound : ((a :: as).mapM g).map List.flatten =
          (g a).bind fun xs => ((as.mapM g).map List.flatten).map (xs ++ ·) := by
        rw [List.mapM_cons]
        cases g a <;> cases as.mapM g <;> rfl
      rwa [hfound]

/-- A loop that takes one item in each round. -/
theorem Collects.foldlM_singletons {f : σ → α → Except ε σ} {g : α → ι} {as : List α}
    (h : stands s items)
    (hf : ∀ a ∈ as, ∀ s items, stands s items →
      Collects p never stands (f s a) items (some [g a])) :
    Collects p never stands (as.foldlM f s) items (some (as.map g)) := by
  have hfound : (as.mapM fun a => some [g a]).map List.flatten = some (as.map g) := by
    clear h hf
    induction as with
    | nil => rfl
    | cons a as ih =>
        obtain ⟨ys, hys, hflat⟩ := Option.map_eq_some_iff.mp ih
        rw [List.mapM_cons, hys, List.map_cons, ← hflat]
        rfl
  rw [← hfound]
  exact .foldlM h hf

end Collecting
