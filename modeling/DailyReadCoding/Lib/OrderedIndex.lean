import Mathlib

/-!
# Ordered indexes with equivalent keys

A container of elements with distinct keys may be kept in several orders at once, each a list sorted
by a relation under which different elements can be equivalent. A changed element is taken out and
put back where it fits; where it lands among its equivalents is left open.
-/

namespace OrderedIndex

open List

variable {α κ : Type*}

/-- A way of putting an element into a sorted list. The number stands for the history, on which the
place among equivalent elements may depend. -/
structure Placement (α : Type*) (le : α → α → Prop) where
  place : ℕ → α → List α → List α
  split : ∀ n a l, ∃ pre post, l = pre ++ post ∧ place n a l = pre ++ a :: post
  sorted : ∀ n a l, l.Pairwise le → (place n a l).Pairwise le

namespace Placement

variable {le : α → α → Prop} (p : Placement α le)

lemma perm (n : ℕ) (a : α) (l : List α) : (p.place n a l).Perm (a :: l) := by
  obtain ⟨pre, post, rfl, hplace⟩ := p.split n a l
  rw [hplace]
  exact perm_middle

/-- Behind all elements that are not greater. -/
def upperBound (lt : α → α → Prop) [DecidableRel lt]
    (htrans : ∀ {a b c : α}, ¬ lt b a → ¬ lt c b → ¬ lt c a)
    (hasymm : ∀ {a b : α}, lt a b → ¬ lt b a) : Placement α (fun a b => ¬ lt b a) where
  place _ a l := l.takeWhile (fun b => ¬ lt a b) ++ a :: l.dropWhile (fun b => ¬ lt a b)
  split _ a l := ⟨_, _, (List.takeWhile_append_dropWhile ..).symm, rfl⟩
  sorted _ a l hl := by
    have hparts := hl
    rw [← List.takeWhile_append_dropWhile (p := fun b => ¬ lt a b) (l := l),
      List.pairwise_append] at hparts
    obtain ⟨hfront, hback, hacross⟩ := hparts
    have hfront_le : ∀ x ∈ l.takeWhile (fun b => ¬ lt a b), ¬ lt a x := fun x hx =>
      by simpa using List.mem_takeWhile_imp hx
    have hback_gt : ∀ x ∈ l.dropWhile (fun b => ¬ lt a b), ¬ lt x a := by
      intro x hx
      cases hd : l.dropWhile (fun b => ¬ lt a b) with
      | nil =>
        rw [hd] at hx
        exact absurd hx List.not_mem_nil
      | cons y ys =>
        have hy : lt a y := by
          have hhead := List.head?_dropWhile_not (fun b => decide (¬ lt a b)) l
          rw [hd] at hhead
          simpa using hhead
        rw [hd] at hx hback
        rcases List.mem_cons.1 hx with rfl | hx
        · exact hasymm hy
        · exact htrans (hasymm hy) (List.rel_of_pairwise_cons hback hx)
    exact List.pairwise_append.2 ⟨hfront, List.pairwise_cons.2 ⟨hback_gt, hback⟩, fun x hx =>
      List.forall_mem_cons.2 ⟨hfront_le x hx, hacross x hx⟩⟩

end Placement

/-! ## Neighbours -/

variable {a : α} {post l front back : List α}

section Neighbours

variable [DecidableEq κ] (key : α → κ)

/-- The element behind the one with the key. -/
def after (k : κ) : List α → Option α
  | [] => none
  | a :: l => if key a = k then l.head? else after k l

/-- The element in front of the one with the key. -/
def before (k : κ) : List α → Option α
  | a :: b :: l => if key a = k then none else if key b = k then some a else before k (b :: l)
  | _ => none

variable {key}

lemma after_append {k : κ} (ha : key a = k) : ∀ {pre : List α},
    (∀ x ∈ pre, key x ≠ k) → after key k (pre ++ a :: post) = post.head?
  | [], _ => by rw [nil_append, after, if_pos ha]
  | x :: pre, hpre => by
    rw [cons_append, after, if_neg (hpre x mem_cons_self)]
    exact after_append ha fun y hy => hpre y (mem_cons_of_mem _ hy)

lemma before_append {k : κ} (ha : key a = k) : ∀ {pre : List α},
    (∀ x ∈ pre, key x ≠ k) → before key k (pre ++ a :: post) = pre.getLast?
  | [], _ => by
    cases post with
    | nil => rfl
    | cons b post => rw [nil_append, before, if_pos ha, getLast?_nil]
  | [x], hpre => by
    rw [singleton_append, before, if_neg (hpre x (by simp)), if_pos ha]
    rfl
  | x :: y :: pre, hpre => by
    rw [cons_append, cons_append, before, if_neg (hpre x (by simp)),
      if_neg (hpre y (by simp)), ← cons_append,
      before_append ha fun z hz => hpre z (mem_cons_of_mem _ hz)]
    rfl

omit [DecidableEq κ] in
lemma eq_of_key_eq (hkeys : (l.map key).Nodup) {b : α} (ha : a ∈ l) (hb : b ∈ l)
    (heq : key a = key b) : a = b :=
  inj_on_of_nodup_map hkeys ha hb heq

variable {le : α → α → Prop}

/-- A sorted list around one of its elements, with the neighbours. -/
structure Around (key : α → κ) (le : α → α → Prop) (l : List α) (a : α) (front back : List α) :
    Prop where
  split : l = front ++ a :: back
  before_eq : before key (key a) l = front.getLast?
  after_eq : after key (key a) l = back.head?
  front_key : ∀ x ∈ front, key x ≠ key a
  back_key : ∀ x ∈ back, key x ≠ key a
  front_le : ∀ x ∈ front, le x a
  le_back : ∀ x ∈ back, le a x
  le_last : ∀ b, front.getLast? = some b → ∀ x ∈ front, x = b ∨ le x b
  head_le : ∀ b, back.head? = some b → ∀ x ∈ back, x = b ∨ le b x

/-- **Nothing lies between an element and its neighbours.** -/
theorem around_of_split (hkeys : (l.map key).Nodup) (hsorted : l.Pairwise le)
    (hsplit : l = front ++ a :: back) : Around key le l a front back := by
  subst hsplit
  rw [map_append, map_cons, nodup_append, nodup_cons] at hkeys
  have hfront : ∀ x ∈ front, key x ≠ key a := fun x hx heq =>
    hkeys.2.2 _ (mem_map_of_mem hx) _ mem_cons_self heq
  have hback_key : ∀ x ∈ back, key x ≠ key a := fun x hx heq =>
    hkeys.2.1.1 (heq ▸ mem_map_of_mem hx)
  rw [pairwise_append, pairwise_cons] at hsorted
  obtain ⟨hsorted_front, ⟨hback, hsorted_back⟩, hacross⟩ := hsorted
  refine ⟨rfl, before_append rfl hfront, after_append rfl hfront, hfront, hback_key,
    fun x hx => hacross x hx a mem_cons_self, hback, ?_, ?_⟩
  · intro b hb x hx
    obtain ⟨init, rfl⟩ := List.getLast?_eq_some_iff.1 hb
    rcases mem_append.1 hx with hx | hx
    · exact .inr ((pairwise_append.1 hsorted_front).2.2 x hx b mem_cons_self)
    · exact .inl (mem_singleton.1 hx)
  · intro b hb x hx
    obtain ⟨tail, rfl⟩ := List.head?_eq_some_iff.1 hb
    rcases mem_cons.1 hx with hx | hx
    · exact .inl hx
    · exact .inr (rel_of_pairwise_cons hsorted_back hx)

omit [DecidableEq κ] in
/-- An element splits the list it is in, and no other has its key. -/
lemma split_of_mem (hkeys : (l.map key).Nodup) (ha : a ∈ l) :
    ∃ pre post, l = pre ++ a :: post ∧ (∀ x ∈ pre, key x ≠ key a) ∧ ∀ x ∈ post, key x ≠ key a := by
  classical
  obtain ⟨pre, post, hsplit⟩ := append_of_mem ha
  have hsorted : l.Pairwise fun _ _ => True := pairwise_of_forall fun _ _ => trivial
  have hround := around_of_split hkeys hsorted hsplit
  exact ⟨pre, post, hsplit, hround.front_key, hround.back_key⟩

lemma Around.mem_iff {x : α}
    (h : Around key le l a front back) : x ∈ l ↔ x ∈ front ∨ x = a ∨ x ∈ back := by
  rw [h.split, mem_append, mem_cons]

end Neighbours

/-! ## Scans -/

/-- Scanning a sorted list for the elements of a class is filtering it. -/
theorem takeWhile_dropWhile {below inClass : α → Bool} : ∀ {l : List α},
    l.Pairwise (fun x y => (below y = true → below x = true) ∧
      (inClass y = true → below x = true ∨ inClass x = true)) →
    (∀ x ∈ l, inClass x = true → below x = false) →
    (l.dropWhile below).takeWhile inClass = l.filter inClass
  | [], _, _ => rfl
  | a :: l, hsorted, hdisjoint => by
    rw [pairwise_cons] at hsorted
    have hrest : ∀ x ∈ l, inClass x = true → below x = false := fun x hx =>
      hdisjoint x (mem_cons_of_mem _ hx)
    by_cases hbelow : below a = true
    · have hout : ¬ inClass a = true := fun hin => by
        rw [hdisjoint a mem_cons_self hin] at hbelow
        exact Bool.noConfusion hbelow
      rw [dropWhile_cons_of_pos hbelow, filter_cons_of_neg hout]
      exact takeWhile_dropWhile hsorted.2 hrest
    · -- from here on nothing is below the bound
      have hnone : ∀ x ∈ l, below x = false := fun x hx =>
        Bool.eq_false_iff.2 fun hx' => hbelow ((hsorted.1 x hx).1 hx')
      have hdrop : l.dropWhile below = l := by
        cases l with
        | nil => rfl
        | cons b l => exact dropWhile_cons_of_neg (by simp [hnone b mem_cons_self])
      rw [dropWhile_cons_of_neg hbelow]
      by_cases hin : inClass a = true
      · rw [takeWhile_cons_of_pos hin, filter_cons_of_pos hin,
          ← takeWhile_dropWhile hsorted.2 hrest, hdrop]
      · rw [takeWhile_cons_of_neg hin, filter_cons_of_neg hin]
        refine (filter_eq_nil_iff.2 fun x hx hx' => ?_).symm
        exact ((hsorted.1 x hx).2 hx').elim hbelow hin

end OrderedIndex
