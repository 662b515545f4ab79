import Mathlib.Data.Nat.Init
import Mathlib.Tactic.Common

/-!
# Trees given by parent pointers

A forest in which every node points to its parent, with the height of each node counted from its
root.
-/

namespace ParentTree

variable {α : Type*} {parent : α → Option α} {height : α → ℕ} {a b c : α} {m n : ℕ}

/-- Following the parent pointers `n` times. -/
def up (parent : α → Option α) : ℕ → α → Option α
  | 0, a => some a
  | n + 1, a => (parent a).bind (up parent n)

structure Ranked (parent : α → Option α) (height : α → ℕ) : Prop where
  root : ∀ {a}, parent a = none → height a = 0
  step : ∀ {a p}, parent a = some p → height a = height p + 1

@[simp] lemma up_zero (a : α) : up parent 0 a = some a := rfl

lemma up_succ_of_parent {p : α} (h : parent a = some p) (n : ℕ) :
    up parent (n + 1) a = up parent n p := by
  rw [up, h, Option.bind_some]

lemma up_add (m n : ℕ) (a : α) : up parent (m + n) a = (up parent m a).bind (up parent n) := by
  induction m generalizing a with
  | zero => simp
  | succ m ih =>
    rw [Nat.succ_add_eq_add_succ, Nat.add_succ, up, up]
    cases parent a with
    | none => rfl
    | some p => exact ih p

lemma up_of_up (h : up parent m a = some b) (n : ℕ) : up parent (m + n) a = up parent n b := by
  rw [up_add, h, Option.bind_some]

section Ranked

variable (hrank : Ranked parent height)

include hrank

/-- At what height one arrives. -/
lemma Ranked.height_up (h : up parent n a = some b) : height b + n = height a := by
  induction n generalizing a with
  | zero =>
    rw [up_zero, Option.some.injEq] at h
    rw [h, Nat.add_zero]
  | succ n ih =>
    cases hp : parent a with
    | none =>
      rw [up, hp] at h
      cases h
    | some p =>
      rw [up_succ_of_parent hp] at h
      have hp' := hrank.step hp
      have hn := ih h
      omega

/-- The ancestor of `a` at a height, given by any of its descendants on the way. -/
lemma Ranked.up_sub (h : up parent m a = some b) {k : ℕ} (hk : k ≤ height b) :
    up parent (height a - k) a = up parent (height b - k) b := by
  have hm := hrank.height_up h
  rw [← up_of_up h, show m + (height b - k) = height a - k by omega]

end Ranked

/-- A node on the way from `a` to its root, `a` itself included. -/
def Ancestor (parent : α → Option α) (b a : α) : Prop := ∃ n, up parent n a = some b

lemma Ancestor.refl (a : α) : Ancestor parent a a := ⟨0, rfl⟩

lemma Ancestor.trans (h : Ancestor parent c b)
    (h' : Ancestor parent b a) : Ancestor parent c a := by
  obtain ⟨n, hn⟩ := h
  obtain ⟨m, hm⟩ := h'
  exact ⟨m + n, by rw [up_of_up hm, hn]⟩

lemma Ancestor.of_parent {p : α} (h : parent a = some p) : Ancestor parent p a :=
  ⟨1, up_succ_of_parent h 0⟩

section Ancestors

variable (hrank : Ranked parent height)

include hrank

lemma Ranked.height_le (h : Ancestor parent b a) : height b ≤ height a := by
  obtain ⟨n, hn⟩ := h
  have := hrank.height_up hn
  omega

lemma Ranked.up_of_ancestor (h : Ancestor parent b a) : up parent (height a - height b) a
    = some b := by
  obtain ⟨n, hn⟩ := h
  have hheight := hrank.height_up hn
  rw [show height a - height b = n by omega, hn]

/-- A node has at most one ancestor at each height. -/
lemma Ranked.ancestor_eq (hb : Ancestor parent b a) (hc : Ancestor parent c a)
    (heq : height b = height c) : b = c := by
  have hbc := hrank.up_of_ancestor hb
  rw [heq, hrank.up_of_ancestor hc] at hbc
  exact (Option.some.inj hbc).symm

end Ancestors

/-- `r` is the highest node with the property, or there is none. -/
def IsHighest (height : α → ℕ) (P : α → Prop) : Option α → Prop
  | none => ∀ a, ¬P a
  | some r => P r ∧ ∀ a, P a → height a ≤ height r

end ParentTree
