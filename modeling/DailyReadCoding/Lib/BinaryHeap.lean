import Mathlib

/-!
# Binary heaps in a list

The entries of a list form a binary tree in which entry `i` hangs below entry `(i - 1) / 2`. The
list is a heap if no entry is above its parent in a strict weak order `lt`.

Entries are moved by carrying a hole: an index whose content does not count, around which everything
is in order (`Hole`). A hole moves up or down by one, or it is filled.
-/

namespace BinaryHeap

open List

variable {T : Type} {lt : T → T → Prop}

def parent (i : ℕ) : ℕ := (i - 1) / 2

lemma parent_lt {i : ℕ} (h : 0 < i) : parent i < i := by
  unfold parent
  omega

lemma parent_le (i : ℕ) : parent i ≤ i := by
  unfold parent
  omega

/-- The entry at `i` is not above its parent. -/
def InOrder (lt : T → T → Prop) (l : List T) (i : ℕ) : Prop :=
  ∀ p ∈ l[parent i]?, ∀ x ∈ l[i]?, ¬ lt p x

def Ordered (lt : T → T → Prop) (l : List T) : Prop := ∀ i, 0 < i → InOrder lt l i

/-- A heap but for the entry at `k`: what hangs below `k` is not above the parent of `k`. -/
structure Hole (lt : T → T → Prop) (l : List T) (k : ℕ) : Prop where
  others : ∀ i, 0 < i → i ≠ k → parent i ≠ k → InOrder lt l i
  bridge : 0 < k → ∀ i, 0 < i → parent i = k → ∀ p ∈ l[parent k]?, ∀ x ∈ l[i]?, ¬ lt p x

/-- Nothing directly below `k` is above `t`. -/
def Above (lt : T → T → Prop) (l : List T) (k : ℕ) (t : T) : Prop :=
  ∀ i, 0 < i → parent i = k → ∀ x ∈ l[i]?, ¬ lt t x

/-- What is directly above `k` is not below `t`. -/
def Below (lt : T → T → Prop) (l : List T) (k : ℕ) (t : T) : Prop :=
  0 < k → ∀ p ∈ l[parent k]?, ¬ lt p t

section Order

variable [IsStrictWeakOrder T lt] {a b c : T}

end Order

lemma mem_set {l : List T} {k i : ℕ} {t x : T} (h : x ∈ (l.set k t)[i]?) :
    (i = k ∧ x = t) ∨ (i ≠ k ∧ x ∈ l[i]?) := by
  rw [Option.mem_def, List.getElem?_set] at h
  split_ifs at h with hki hk
  · exact .inl ⟨hki.symm, (Option.some.inj h).symm⟩
  · exact .inr ⟨Ne.symm hki, h⟩

/-- A value that fits in between is put into the hole. -/
lemma Hole.fill {l : List T} {k : ℕ} {t : T} (h : Hole lt l k) (habove : Above lt l k t)
    (hbelow : Below lt l k t) : Ordered lt (l.set k t) := by
  intro i hi p hp x hx
  have hlt := parent_lt hi
  rcases mem_set hx with ⟨rfl, rfl⟩ | ⟨hik, hx'⟩
  · obtain ⟨-, hp'⟩ := (mem_set hp).resolve_left (by omega)
    exact hbelow hi p hp'
  · rcases mem_set hp with ⟨hpk, rfl⟩ | ⟨hpk, hp'⟩
    · exact habove i hi hpk x hx'
    · exact h.others i hi hik hpk p hp' x hx'

section Hole

variable [IsStrictWeakOrder T lt] {l : List T} {k : ℕ} {t : T}

end Hole

end BinaryHeap
