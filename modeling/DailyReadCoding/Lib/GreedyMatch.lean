import Mathlib.Data.List.NodupEquivFin

/-!
# Matching two lists in order

Every element of the first list is to be given an element of the second, in the order of both.
Giving each the first that fits decides whether that can be done.
-/

namespace GreedyMatch

open List

variable {α β : Type} {R : α → β → Bool}

/-- Giving each element the first one that fits. -/
def greedy (R : α → β → Bool) : List α → List β → Bool
  | [], _ => true
  | _ :: _, [] => false
  | a :: as, b :: bs => if R a b then greedy R as bs else greedy R (a :: as) bs

lemma greedy_eq_false {as : List α} {bs : List β}
    (h : bs.length < as.length) : greedy R as bs = false := by
  induction bs generalizing as with
  | nil =>
    cases as with
    | nil => cases h
    | cons a as => rfl
  | cons b bs ih =>
    cases as with
    | nil => cases h
    | cons a as =>
      simp only [length_cons] at h
      rw [greedy, ih (by omega), ih (by simp only [length_cons]; omega), ite_self]

lemma tail_sublistForall₂ {S : α → β → Prop} {a : α} {as : List α} {bs : List β}
    (h : List.SublistForall₂ S (a :: as) bs) : List.SublistForall₂ S as bs := by
  induction bs with
  | nil => cases h
  | cons b bs ih =>
    cases h with
    | cons _ hrest => exact hrest.cons_right
    | cons_right hrest => exact (ih hrest).cons_right

/-- Taking the first that fits never rules out a matching. -/
theorem greedy_iff (as : List α) (bs : List β) :
    greedy R as bs = true ↔ List.SublistForall₂ (fun a b => R a b = true) as bs := by
  induction bs generalizing as with
  | nil =>
    cases as with
    | nil => exact iff_of_true rfl .nil
    | cons a as => exact iff_of_false (by simp [greedy]) (by rintro ⟨⟩)
  | cons b bs ih =>
    cases as with
    | nil => exact iff_of_true rfl .nil
    | cons a as =>
      rw [greedy]
      split_ifs with hfits
      · rw [ih as]
        refine ⟨.cons hfits, fun h => ?_⟩
        cases h with
        | cons _ hrest => exact hrest
        | cons_right hrest => exact tail_sublistForall₂ hrest
      · rw [ih (a :: as)]
        refine ⟨.cons_right, fun h => ?_⟩
        cases h with
        | cons hfits' _ => exact absurd hfits' hfits
        | cons_right hrest => exact hrest

/-- A matching as an assignment of positions. -/
theorem sublistForall₂_iff_strictMono {S : α → β → Prop} (as : List α) (bs : List β) :
    List.SublistForall₂ S as bs ↔
      ∃ f : Fin as.length → Fin bs.length, StrictMono f ∧ ∀ i, S (as.get i) (bs.get (f i)) := by
  rw [sublistForall₂_iff]
  constructor
  · rintro ⟨l, hforall, hsub⟩
    obtain ⟨g, hg⟩ := sublist_iff_exists_fin_orderEmbedding_get_eq.mp hsub
    obtain ⟨hlength, hget⟩ := forall₂_iff_get.mp hforall
    refine ⟨fun i => g (i.cast hlength), fun i j hij => g.strictMono hij, fun i => ?_⟩
    rw [← hg]
    exact hget i i.isLt (hlength ▸ i.isLt)
  · rintro ⟨f, hmono, hf⟩
    refine ⟨List.ofFn fun i => bs.get (f i), ?_, ?_⟩
    · rw [forall₂_iff_get]
      refine ⟨by simp, fun i hi hi' => ?_⟩
      simpa using hf ⟨i, hi⟩
    · rw [sublist_iff_exists_fin_orderEmbedding_get_eq]
      refine ⟨OrderEmbedding.ofStrictMono (fun i => f (i.cast (by simp))) fun i j hij => hmono hij,
        fun i => ?_⟩
      exact get_ofFn _ i

end GreedyMatch
