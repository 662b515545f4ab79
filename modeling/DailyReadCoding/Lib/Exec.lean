import Mathlib.Logic.Basic

/-!
# Programs with a state that may fail

`Exec σ ε α` is a program that changes a state `σ` and gives a value or an error.
-/

/-- A program that changes a state and may fail. -/
abbrev Exec (σ ε α : Type) : Type := StateT σ (Except ε) α

namespace Exec

variable {σ ε α β : Type} {x : Exec σ ε α} {f : α → Exec σ ε β} {s s' : σ} {a : α} {e : ε}

/-- Running a sequence, once the first part is known. -/
lemma bind_ok (h : x s = .ok (a, s')) : (x >>= f) s = f a s' := by
  change Except.bind (x s) _ = _
  rw [h]
  rfl

/-- A sequence fails with its first part. -/
lemma bind_error (h : x s = .error e) : (x >>= f) s = .error e := by
  change Except.bind (x s) _ = _
  rw [h]
  rfl

/-- The same for computations without a state. -/
lemma bind_of_ok {y : Except ε α} {g : α → Except ε β} (h : y = .ok a) : (y >>= g) = g a := by
  rw [h]
  rfl

/-- An error ends the sequence. -/
lemma bind_of_error {y : Except ε α} {g : α → Except ε β} (h : y = .error e) :
    (y >>= g) = .error e := by
  rw [h]
  rfl

/-- A sequence succeeds if and only if both parts do. -/
lemma bind_eq_ok {y : Except ε α} {g : α → Except ε β} {b : β} :
    (y >>= g) = .ok b ↔ ∃ a, y = .ok a ∧ g a = .ok b := by
  cases y with
  | error e =>
    rw [bind_of_error rfl]
    simp
  | ok a =>
    rw [bind_of_ok rfl]
    simp

lemma bind_get {f : σ → Exec σ ε β} : (get >>= f) s = f s s := rfl

/-- Errors changed on their way out. -/
def rethrow (g : ε → ε) (x : Exec σ ε α) : Exec σ ε α := fun s =>
  match x s with
  | .ok r => .ok r
  | .error e => .error (g e)

/-- A program that succeeds is not changed. -/
lemma rethrow_ok {g : ε → ε} (h : x s = .ok (a, s')) : rethrow g x s = .ok (a, s') := by
  rw [rethrow, h]

/-! ## What holds after a program -/

/-- `Q` holds if the program ends, and `E` of the error if it fails. -/
def Sat (x : Exec σ ε α) (s : σ) (Q : α → σ → Prop) (E : ε → Prop) : Prop :=
  match x s with
  | .ok (a, s') => Q a s'
  | .error e => E e

section Sat

variable {P Q : α → σ → Prop} {R : β → σ → Prop} {E F : ε → Prop}

/-- A known result shows the condition. -/
lemma Sat.of_ok (h : x s = .ok (a, s')) (hQ : Q a s') : Sat x s Q E := by
  rw [Sat, h]
  exact hQ

/-- A known error shows the condition. -/
lemma Sat.of_error (h : x s = .error e) (hE : E e) : Sat x s Q E := by
  rw [Sat, h]
  exact hE

/-- The condition read off a result. -/
lemma Sat.ok (hx : Sat x s Q E) (h : x s = .ok (a, s')) : Q a s' := by
  rw [Sat, h] at hx
  exact hx

/-- The condition read off an error. -/
lemma Sat.error (hx : Sat x s Q E) (h : x s = .error e) : E e := by
  rw [Sat, h] at hx
  exact hx

/-- Weaker conditions hold as well. -/
lemma Sat.mono (hx : Sat x s P E) (hQ : ∀ a s', P a s' → Q a s') (hE : ∀ e, E e → F e) :
    Sat x s Q F := by
  cases h : x s with
  | ok r => exact of_ok h (hQ _ _ (hx.ok h))
  | error e => exact of_error h (hE e (hx.error h))

lemma Sat.pure (h : Q a s) : Sat (Pure.pure a) s Q E := h

lemma Sat.throw (h : E e) : Sat (throw e : Exec σ ε α) s Q E := h

/-- The rule for sequences. -/
lemma Sat.bind (hx : Sat x s P E) (hf : ∀ a s', P a s' → Sat (f a) s' R E) :
    Sat (x >>= f) s R E := by
  cases h : x s with
  | ok r =>
    rw [Sat, bind_ok h]
    exact hf _ _ (hx.ok h)
  | error e => exact of_error (bind_error h) (hx.error h)

/-- The rule for changed errors. -/
lemma Sat.rethrow {g : ε → ε} (hx : Sat x s Q E) (hg : ∀ e, E e → F (g e)) :
    Sat (rethrow g x) s Q F := by
  cases h : x s with
  | ok r => exact of_ok (rethrow_ok h) (hx.ok h)
  | error e =>
    refine of_error ?_ (hg e (hx.error h))
    rw [Exec.rethrow, h]

end Sat

end Exec
