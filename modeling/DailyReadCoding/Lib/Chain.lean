import Mathlib.Data.List.Nodup

/-!
# Singly linked chains over a heap

The link field of all nodes is a function `next : α → Option α`, with `none` for the null pointer.
-/

namespace LinkedHeap

open List Function

variable {α : Type*}

/-- Following `next` from a pointer visits the nodes of a list and then ends. -/
def Chain (next : α → Option α) : Option α → List α → Prop
  | head, [] => head = none
  | head, a :: l => head = some a ∧ Chain next (next a) l

section Chain

variable {next next' : α → Option α} {head : Option α} {l l' : List α} {a : α}

/-- The nodes visited are determined. -/
lemma Chain.unique (h : Chain next head l) (h' : Chain next head l') : l = l' := by
  induction l generalizing head l' with
  | nil =>
    cases l' with
    | nil => rfl
    | cons b l' => exact absurd (h.symm.trans h'.1) (by simp)
  | cons a l ih =>
    cases l' with
    | nil => exact absurd (h'.symm.trans h.1) (by simp)
    | cons b l' =>
      obtain rfl : a = b := Option.some.inj (h.1.symm.trans h'.1)
      rw [ih h.2 h'.2]

/-- What follows a node is a chain again. -/
lemma Chain.of_append {l1 : List α} (h : Chain next head (l1 ++ a :: l)) : Chain next
    (next a) l := by
  induction l1 generalizing head with
  | nil => exact h.2
  | cons b l1 ih => exact ih h.2

/-- A chain that ends visits no node twice. -/
lemma Chain.nodup (h : Chain next head l) : l.Nodup := by
  induction l generalizing head with
  | nil => exact nodup_nil
  | cons a l ih =>
    refine nodup_cons.2 ⟨fun hmem => ?_, ih h.2⟩
    obtain ⟨l1, l2, hsplit⟩ := append_of_mem hmem
    have hrest : Chain next (next a) (l1 ++ a :: l2) := hsplit ▸ h.2
    have hlength := congrArg length (hrest.of_append.unique h.2)
    rw [hsplit, length_append, length_cons] at hlength
    omega

/-- Links of other nodes do not matter. -/
lemma Chain.congr (h : Chain next head l) (hnext : ∀ x ∈ l, next' x = next x) :
    Chain next' head l := by
  induction l generalizing head with
  | nil => exact h
  | cons a l ih =>
    refine ⟨h.1, ?_⟩
    rw [hnext a mem_cons_self]
    exact ih h.2 fun x hx => hnext x (mem_cons_of_mem _ hx)

variable [DecidableEq α]

/-- A write elsewhere leaves a chain alone. -/
lemma Chain.update (h : Chain next head l) (ha : a ∉ l) (v : Option α) :
    Chain (update next a v) head l := by
  refine h.congr fun x hx => update_of_ne ?_ _ _
  rintro rfl
  exact ha hx

/-- A new node is put in front. -/
lemma Chain.push (h : Chain next head l) (ha : a ∉ l) :
    Chain (Function.update next a head) (some a) (a :: l) := by
  refine ⟨rfl, ?_⟩
  rw [update_self]
  exact h.update ha head

/-- A node is taken out by linking the one in front of it to the one behind it. -/
lemma Chain.unlink {b : α} {l1 l2 : List α} (h : Chain next head (l1 ++ b :: a :: l2)) :
    Chain (Function.update (Function.update next a none) b (next a)) head (l1 ++ b :: l2) := by
  have hnodup := h.nodup
  induction l1 generalizing head with
  | nil =>
    have hba : b ∉ a :: l2 := (nodup_cons.1 hnodup).1
    have hal : a ∉ l2 := (nodup_cons.1 (nodup_cons.1 hnodup).2).1
    refine ⟨h.1, ?_⟩
    rw [update_self]
    exact (h.2.2.update hal none).update (fun hb => hba (mem_cons_of_mem _ hb)) _
  | cons c l1 ih =>
    obtain ⟨hc, hnodup'⟩ := nodup_cons.1 hnodup
    have hcb : c ≠ b := fun heq => hc (by simp [heq])
    have hca : c ≠ a := fun heq => hc (by simp [heq])
    refine ⟨h.1, ?_⟩
    rw [update_of_ne hcb, update_of_ne hca]
    exact ih h.2 hnodup'

end Chain

end LinkedHeap
