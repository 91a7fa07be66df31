import Mathlib.Algebra.Order.Ring.Nat
import Mathlib.Tactic.Common

/-!
# Programs over atomic accesses

A thread that shares memory with others is a tree of atomic accesses: `Prog.access i k` performs
the access `i` and goes on with `k` at the answer. What another thread does between two accesses
is not part of the program; it shows in the answers. A `Protocol` says which accesses a thread in
a given ledger may perform and which answers it has to expect, so one proof about a program
(`Prog.Safe`) covers every interleaving whose answers follow the protocol.

`Method` adds the object a method changes (`&mut self`) and early return on an error, and
`Method.Ensures` is the pair of postconditions of a method, one for each way it can end.
-/

namespace Interleaving

/-- A program whose atomic accesses are `ι`, the access `i` being answered in `ρ i`. -/
inductive Prog (ι : Type) (ρ : ι → Type) (α : Type) where
  | ret (a : α)
  | access (i : ι) (k : ρ i → Prog ι ρ α)

/-- Which accesses are allowed at a ledger, and which answers lead to which ledger. -/
structure Protocol (ι : Type) (ρ : ι → Type) (σ : Type) where
  allowed : σ → ι → Prop
  answers : σ → (i : ι) → ρ i → σ → Prop

variable {ι : Type} {ρ : ι → Type} {σ : Type} {α β : Type}

namespace Prog

/-- Run `p`, then go on with `f` at its result. -/
def bind : Prog ι ρ α → (α → Prog ι ρ β) → Prog ι ρ β
  | .ret a, f => f a
  | .access i k, f => .access i fun r => (k r).bind f

@[simp] theorem bind_ret (a : α) (f : α → Prog ι ρ β) : (Prog.ret a).bind f = f a := rfl
@[simp] theorem bind_access (i : ι) (k : ρ i → Prog ι ρ α) (f : α → Prog ι ρ β) :
    (Prog.access i k).bind f = .access i fun r => (k r).bind f := rfl

/-- Under the protocol, `p` performs allowed accesses only and ends in `Q`. -/
def Safe (P : Protocol ι ρ σ) : Prog ι ρ α → (α → σ → Prop) → σ → Prop
  | .ret a, Q, l => Q a l
  | .access i k, Q, l => P.allowed l i ∧ ∀ r l', P.answers l i r l' → Safe P (k r) Q l'

@[simp] theorem safe_ret (P : Protocol ι ρ σ) (a : α) (Q : α → σ → Prop) (l : σ) :
    Safe P (.ret a) Q l ↔ Q a l := Iff.rfl

@[simp] theorem safe_access (P : Protocol ι ρ σ) (i : ι) (k : ρ i → Prog ι ρ α)
    (Q : α → σ → Prop) (l : σ) :
    Safe P (.access i k) Q l ↔
      P.allowed l i ∧ ∀ r l', P.answers l i r l' → Safe P (k r) Q l' := Iff.rfl

/-- A weaker postcondition is easier to meet. -/
theorem Safe.mono {P : Protocol ι ρ σ} {Q Q' : α → σ → Prop} (h : ∀ a l, Q a l → Q' a l) :
    ∀ {p : Prog ι ρ α} {l : σ}, Safe P p Q l → Safe P p Q' l
  | .ret a, l, hp => h a l hp
  | .access _ _, _, hp => ⟨hp.1, fun r l' ha => Safe.mono h (hp.2 r l' ha)⟩

/-- The first half of a sequence has to end where the second half is safe. -/
theorem safe_bind {P : Protocol ι ρ σ} {Q : β → σ → Prop} {f : α → Prog ι ρ β} :
    ∀ {p : Prog ι ρ α} {l : σ}, Safe P (p.bind f) Q l ↔ Safe P p (fun a => Safe P (f a) Q) l
  | .ret _, _ => Iff.rfl
  | .access i k, l => by
      simp only [bind_access, safe_access]
      exact and_congr_right fun _ =>
        forall_congr' fun r => forall_congr' fun _ => imp_congr_right fun _ =>
          safe_bind (p := k r)

/-- One complete execution: some sequence of answers the protocol admits. -/
inductive Exec (P : Protocol ι ρ σ) : Prog ι ρ α → σ → α → σ → Prop where
  | ret {a : α} {l : σ} : Exec P (.ret a) l a l
  | access {i : ι} {k : ρ i → Prog ι ρ α} {r : ρ i} {l l₁ l' : σ} {a : α} :
      P.answers l i r l₁ → Exec P (k r) l₁ a l' → Exec P (.access i k) l a l'

/-- A safe program meets its postcondition in every execution. -/
theorem Safe.exec {P : Protocol ι ρ σ} {Q : α → σ → Prop} {p : Prog ι ρ α} {l l' : σ} {a : α}
    (h : Safe P p Q l) (he : Exec P p l a l') : Q a l' := by
  induction he with
  | ret => exact h
  | access ha _ ih => exact ih (h.2 _ _ ha)

/-- An execution is one under any protocol that admits every answer. -/
theorem Exec.forget {P : Protocol ι ρ σ} {p : Prog ι ρ α} {l l' : σ} {a : α} (h : Exec P p l a l') :
    Exec ⟨fun (_ : Unit) _ => True, fun _ _ _ _ => True⟩ p () a () := by
  induction h with
  | ret => exact .ret
  | access _ _ ih => exact .access trivial ih

/-- Run `p` alone on a memory that answers every access. -/
def run {μ : Type} (step : μ → (i : ι) → ρ i × μ) : Prog ι ρ α → μ → α × μ
  | .ret a, m => (a, m)
  | .access i k, m => run step (k (step m i).1) (step m i).2

/-- The run on a memory that follows the protocol is an execution. -/
theorem exec_run {μ : Type} {P : Protocol ι ρ σ} (R : σ → μ → Prop)
    {step : μ → (i : ι) → ρ i × μ}
    (hR : ∀ l m i, R l m → ∃ l', P.answers l i (step m i).1 l' ∧ R l' (step m i).2) :
    ∀ (p : Prog ι ρ α) {l : σ} {m : μ}, R l m → ∃ l', Exec P p l (p.run step m).1 l'
  | .ret _, l, _, _ => ⟨l, .ret⟩
  | .access i k, l, m, h => by
      obtain ⟨l₁, ha, hl₁⟩ := hR l m i h
      obtain ⟨l', he⟩ := exec_run R hR (k (step m i).1) hl₁
      exact ⟨l', .access ha he⟩

/-- So is the run on a ledger whose answers follow the protocol; it ends in the execution's
ledger. -/
theorem exec_run_ledger {P : Protocol ι ρ σ} {step : σ → (i : ι) → ρ i × σ}
    (h : ∀ l i, P.answers l i (step l i).1 (step l i).2) :
    ∀ (p : Prog ι ρ α) (l : σ), Exec P p l (p.run step l).1 (p.run step l).2
  | .ret _, _ => .ret
  | .access i k, l => .access (h l i) (exec_run_ledger h (k (step l i).1) (step l i).2)

end Prog

/-! ## Methods -/

/-- A method of an object `ω` that may end with an error `ε`; the changes it made to the object
before the error stay. -/
def Method (ι : Type) (ρ : ι → Type) (ε ω α : Type) : Type := ω → Prog ι ρ (Except ε α × ω)

namespace Method

variable {ε ω : Type}

/-- Continue with `f` unless the first method failed. -/
def andThen (f : α → Method ι ρ ε ω β) : Except ε α × ω → Prog ι ρ (Except ε β × ω)
  | (.ok a, w) => f a w
  | (.error e, w) => .ret (.error e, w)

instance : Monad (Method ι ρ ε ω) where
  pure a := fun w => .ret (.ok a, w)
  bind m f := fun w => (m w).bind (andThen f)

/-- The object's current value. -/
def get : Method ι ρ ε ω ω := fun w => .ret (.ok w, w)

/-- Assign to the object's fields. -/
def modify (f : ω → ω) : Method ι ρ ε ω Unit := fun w => .ret (.ok (), f w)

/-- Return early with an error. -/
def throw (e : ε) : Method ι ρ ε ω α := fun w => .ret (.error e, w)

/-- Perform one atomic access. -/
def call (i : ι) : Method ι ρ ε ω (ρ i) := fun w => .access i fun r => .ret (.ok r, w)

/-- The `?` operator. -/
def ofExcept : Except ε α → Method ι ρ ε ω α
  | .ok a => pure a
  | .error e => throw e

/-- The method's result as a value, without returning early. -/
def attempt (m : Method ι ρ ε ω α) : Method ι ρ ε ω (Except ε α) := fun w =>
  (m w).bind fun r => .ret (.ok r.1, r.2)

/-- Run from object `w` and ledger `l`, the method ends in `ok` or, with an error, in `err`. -/
def Ensures (P : Protocol ι ρ σ) (m : Method ι ρ ε ω α) (w : ω) (l : σ)
    (ok : α → ω → σ → Prop) (err : ε → ω → σ → Prop) : Prop :=
  Prog.Safe P (m w) (fun r l' =>
    match r.1 with
    | .ok a => ok a r.2 l'
    | .error e => err e r.2 l') l

variable {P : Protocol ι ρ σ} {w : ω} {l : σ} {ok : α → ω → σ → Prop} {err : ε → ω → σ → Prop}

@[simp] theorem ensures_pure (a : α) :
    Ensures P (pure a : Method ι ρ ε ω α) w l ok err ↔ ok a w l := Iff.rfl

@[simp] theorem ensures_throw (e : ε) :
    Ensures P (throw e : Method ι ρ ε ω α) w l ok err ↔ err e w l := Iff.rfl

@[simp] theorem ensures_get {ok : ω → ω → σ → Prop} :
    Ensures P (get : Method ι ρ ε ω ω) w l ok err ↔ ok w w l := Iff.rfl

@[simp] theorem ensures_modify {ok : Unit → ω → σ → Prop} (f : ω → ω) :
    Ensures P (modify f : Method ι ρ ε ω Unit) w l ok err ↔ ok () (f w) l := Iff.rfl

@[simp] theorem ensures_call (i : ι) {ok : ρ i → ω → σ → Prop} :
    Ensures P (call i : Method ι ρ ε ω (ρ i)) w l ok err ↔
      P.allowed l i ∧ ∀ r l', P.answers l i r l' → ok r w l' := Iff.rfl

@[simp] theorem ensures_ofExcept (x : Except ε α) :
    Ensures P (ofExcept x : Method ι ρ ε ω α) w l ok err ↔
      (∀ a, x = .ok a → ok a w l) ∧ (∀ e, x = .error e → err e w l) := by
  cases x <;> simp [ofExcept]

/-- Sequencing: the second method starts in the first one's postcondition. -/
theorem ensures_bind {m : Method ι ρ ε ω β} {f : β → Method ι ρ ε ω α} :
    Ensures P (m >>= f) w l ok err ↔
      Ensures P m w l (fun b w' l' => Ensures P (f b) w' l' ok err) err := by
  show Prog.Safe P ((m w).bind (andThen f)) _ l ↔ _
  rw [Prog.safe_bind]
  constructor <;> refine fun h => h.mono ?_ <;>
  · rintro ⟨r, w'⟩ l' hr
    cases r <;> exact hr

/-- A value that is there is handed on. -/
theorem ensures_bind_ok {x : Except ε β} {b : β} (h : x = .ok b) {f : β → Method ι ρ ε ω α} :
    Ensures P (ofExcept x >>= f) w l ok err ↔ Ensures P (f b) w l ok err := by
  subst h
  exact Iff.rfl

/-- Weaker postconditions are easier to meet. -/
theorem Ensures.mono {m : Method ι ρ ε ω α} {ok' : α → ω → σ → Prop} {err' : ε → ω → σ → Prop}
    (h : Ensures P m w l ok err) (hok : ∀ a w l, ok a w l → ok' a w l)
    (herr : ∀ e w l, err e w l → err' e w l) : Ensures P m w l ok' err' := by
  refine Prog.Safe.mono ?_ h
  rintro ⟨r, w'⟩ l' hr
  cases r with
  | ok a => exact hok a w' l' hr
  | error e => exact herr e w' l' hr

/-- The sequencing rule in the form in which a callee's specification is used. -/
theorem Ensures.bind {m : Method ι ρ ε ω β} {f : β → Method ι ρ ε ω α}
    {ok' : β → ω → σ → Prop} {err' : ε → ω → σ → Prop} (h : Ensures P m w l ok' err')
    (hf : ∀ b w' l', ok' b w' l' → Ensures P (f b) w' l' ok err)
    (herr : ∀ e w' l', err' e w' l' → err e w' l') : Ensures P (m >>= f) w l ok err :=
  ensures_bind.mpr (h.mono hf herr)

/-- A method run for its result does not return early. -/
@[simp] theorem ensures_attempt {m : Method ι ρ ε ω α} {ok : Except ε α → ω → σ → Prop} :
    Ensures P (attempt m) w l ok err ↔
      Ensures P m w l (fun a => ok (.ok a)) (fun e => ok (.error e)) := by
  show Prog.Safe P ((m w).bind fun r => Prog.ret (Except.ok r.1, r.2)) _ l ↔ _
  rw [Prog.safe_bind]
  constructor <;> refine fun h => Prog.Safe.mono ?_ h <;>
  · rintro ⟨r, w'⟩ l' hr
    cases r <;> exact hr

end Method

end Interleaving
