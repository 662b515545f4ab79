import Mathlib.Tactic.Common

/-!
# Computations that count their work

A computation that may fail, together with the work it has done until it ended, however it ended.
-/

structure Counted (ε α : Type) where
  work : ℕ
  result : Except ε α

namespace Counted

variable {ε α β : Type}

/-- A computation that does no work. -/
def lift (x : Except ε α) : Counted ε α := ⟨0, x⟩

/-- One unit of work. -/
def tick (a : α) : Counted ε α := ⟨1, .ok a⟩

instance : Monad (Counted ε) where
  pure a := ⟨0, .ok a⟩
  bind x f :=
    match x.result with
    | .error e => ⟨x.work, .error e⟩
    | .ok a => ⟨x.work + (f a).work, (f a).result⟩

instance : MonadLift (Except ε) (Counted ε) := ⟨lift⟩

@[simp] lemma monadLift_eq (x : Except ε α) : (monadLift x : Counted ε α) = lift x := rfl
@[simp] lemma work_lift (x : Except ε α) : (lift x).work = 0 := rfl
@[simp] lemma result_lift (x : Except ε α) : (lift x).result = x := rfl

variable {x : Counted ε α}

/-- The work adds up. -/
lemma bind_ok {a : α} (h : x.result = .ok a) (f : α → Counted ε β) :
    x >>= f = ⟨x.work + (f a).work, (f a).result⟩ := by
  change (match x.result with | .error e => _ | .ok a => _) = _
  rw [h]

/-- Nothing is done behind an error. -/
lemma bind_error {e : ε} (h : x.result = .error e) (f : α → Counted ε β) :
    x >>= f = ⟨x.work, .error e⟩ := by
  change (match x.result with | .error e => _ | .ok a => _) = _
  rw [h]

@[simp] lemma lift_ok_bind (a : α) (f : α → Counted ε β) : lift (.ok a) >>= f = f a := by
  rw [bind_ok (result_lift _), work_lift, Nat.zero_add]

/-- Forgetting the work leaves an ordinary computation with errors. -/
lemma result_bind (x : Counted ε α) (f : α → Counted ε β) :
    (x >>= f).result = x.result >>= fun a => (f a).result := by
  cases h : x.result with
  | error e => rw [bind_error h]; rfl
  | ok a => rw [bind_ok h]; rfl

variable {f : α → Counted ε β}

/-- The work of a composition by that of its parts. -/
lemma work_bind_le {n m : ℕ} (hx : x.work ≤ n)
    (hf : ∀ a, x.result = .ok a → (f a).work ≤ m) : (x >>= f).work ≤ n + m := by
  cases h : x.result with
  | error e =>
    rw [bind_error h]
    exact Nat.le_trans hx (Nat.le_add_right _ _)
  | ok a =>
    rw [bind_ok h]
    exact Nat.add_le_add hx (hf a h)

/-- What does no work can be left out of a bound. -/
lemma work_lift_bind_le {x : Except ε α} {m : ℕ}
    (hf : ∀ a, x = .ok a → (f a).work ≤ m) : (lift x >>= f).work ≤ m := by
  simpa using work_bind_le (Nat.le_refl (lift x).work) hf

/-- A composition that succeeds does so in both parts. -/
lemma result_bind_eq_ok {b : β} (h : (x >>= f).result = .ok b) :
    ∃ a, x.result = .ok a ∧ (f a).result = .ok b := by
  rw [result_bind] at h
  cases hx : x.result with
  | error e =>
    rw [hx] at h
    cases h
  | ok a =>
    rw [hx] at h
    exact ⟨a, rfl, h⟩

/-- Parts without work make a whole without work. -/
lemma work_bind_eq_zero (hx : x.work = 0) (hf : ∀ a, (f a).work = 0) : (x >>= f).work = 0 :=
  Nat.le_zero.mp (work_bind_le (Nat.le_of_eq hx) fun a _ => Nat.le_of_eq (hf a))

end Counted
