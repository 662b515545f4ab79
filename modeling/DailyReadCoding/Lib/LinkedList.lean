import Mathlib.Data.List.Nodup

/-!
# Doubly linked lists over a heap

A node is named by an address `α`, and the two link fields of all nodes are two functions
`prev next : α → Option α` (`none` is the null pointer).  Lists are walked along `prev`; `next`
leads back.

**Results.**  The visited nodes are determined by the links (`Segment.unique`) and are pairwise
distinct (`IsList.nodup`).  `IsList.insert` and `IsList.remove` are the two pieces of pointer
surgery: they ask for the values of the links after the writes, pointwise, so they apply to
whatever order the writes come in.
-/

namespace LinkedHeap

open List

variable {α : Type*}

/-- Following `prev` from `s` visits `l` and ends at `t`; `next` inverts it, with `up` above the
first node. -/
def Segment (prev next : α → Option α) : Option α → Option α → List α → Option α → Prop
  | _, s, [], t => s = t
  | up, s, p :: l, t => s = some p ∧ next p = up ∧ Segment prev next (some p) (prev p) l t

/-- The last element of a list, or `up` when the list is empty. -/
def lastOr : Option α → List α → Option α
  | up, [] => up
  | _, p :: l => lastOr (some p) l

/-- A whole doubly linked list starting at `head`. -/
def IsList (prev next : α → Option α) (head : Option α) (l : List α) : Prop :=
  Segment prev next none head l none

@[simp] lemma lastOr_append (up : Option α) (l₁ l₂ : List α) :
    lastOr up (l₁ ++ l₂) = lastOr (lastOr up l₁) l₂ := by
  induction l₁ generalizing up with
  | nil => rfl
  | cons p l ih => exact ih (some p)

lemma lastOr_cases (up : Option α) (l : List α) :
    (l = [] ∧ lastOr up l = up) ∨ ∃ l' u, l = l' ++ [u] ∧ lastOr up l = some u := by
  rcases eq_nil_or_concat l with rfl | ⟨l', u, rfl⟩
  · exact .inl ⟨rfl, rfl⟩
  · exact .inr ⟨l', u, by simp, by simp [lastOr]⟩

lemma mem_of_lastOr {l : List α} {u : α} (h : lastOr none l = some u) : u ∈ l := by
  rcases lastOr_cases none l with ⟨-, hn⟩ | ⟨k, w, rfl, hw⟩
  · simp [hn] at h
  · obtain rfl : w = u := by simpa [hw] using h
    simp

section Walks

/-- What a walk over at most `n` nodes gives: nothing only if the fuel ends before the nodes. -/
def Walks (n fuel : ℕ) (post : α → Prop) (r : Option α) : Prop := r.elim (fuel ≤ n) post

variable {n n' fuel fuel' : ℕ} {post post' : α → Prop} {r : Option α} {a : α}

lemma Walks.mono (h : Walks n fuel post r) (hle : fuel ≤ n → fuel' ≤ n')
    (himp : ∀ a, post a → post' a) : Walks n' fuel' post' r := by
  cases r with
  | none => exact hle h
  | some a => exact himp a h

lemma Walks.spec (h : Walks n fuel post r) (hr : r = some a) : post a := by
  subst hr
  exact h

lemma Walks.returns (h : Walks n fuel post r) (hfuel : n < fuel) : ∃ a, r = some a ∧ post a := by
  cases r with
  | none => exact absurd h (Nat.not_le.2 hfuel)
  | some a => exact ⟨a, rfl, h⟩

lemma Walks.isSome (h : Walks n fuel post r) (hfuel : n < fuel) : r.isSome := by
  obtain ⟨a, rfl, -⟩ := h.returns hfuel
  rfl

end Walks

section Links

variable {prev next prev' next' : α → Option α} {up s t head head' : Option α}
  {l l₁ l₂ : List α} {p : α}

/-- A segment starts at the first node of its list, or at its end if the list is empty. -/
lemma Segment.start (h : Segment prev next up s l t) : s = (l.head?).or t := by
  cases l with
  | nil => simpa [Segment] using h
  | cons p l => simpa [Segment] using h.1

lemma segment_append : Segment prev next up s (l₁ ++ l₂) t ↔
    ∃ m, Segment prev next up s l₁ m ∧ Segment prev next (lastOr up l₁) m l₂ t := by
  induction l₁ generalizing up s with
  | nil => simp [Segment, lastOr]
  | cons p l ih =>
    simp only [cons_append, Segment, ih]
    constructor
    · rintro ⟨hs, hn, m, h1, h2⟩
      exact ⟨m, ⟨hs, hn, h1⟩, h2⟩
    · rintro ⟨m, ⟨hs, hn, h1⟩, h2⟩
      exact ⟨hs, hn, m, h1, h2⟩

lemma Segment.congr (h : Segment prev next up s l t)
    (hp : ∀ x ∈ l, prev' x = prev x) (hn : ∀ x ∈ l, next' x = next x) :
    Segment prev' next' up s l t := by
  induction l generalizing up s with
  | nil => exact h
  | cons p l ih =>
    obtain ⟨hs, hnp, hl⟩ := h
    refine ⟨hs, by rw [hn p (by simp), hnp], ?_⟩
    rw [hp p (by simp)]
    exact ih hl (fun x hx => hp x (by simp [hx])) (fun x hx => hn x (by simp [hx]))

lemma Segment.unique {up' : Option α} (h1 : Segment prev next up s l₁ none)
    (h2 : Segment prev next up' s l₂ none) : l₁ = l₂ := by
  induction l₁ generalizing up up' s l₂ with
  | nil =>
    cases l₂ with
    | nil => rfl
    | cons q l => exact absurd (h1.symm.trans h2.1) (by simp)
  | cons p l ih =>
    cases l₂ with
    | nil => exact absurd (h2.symm.trans h1.1) (by simp)
    | cons q l' =>
      obtain ⟨hs, -, hl⟩ := h1
      obtain ⟨hs', -, hl'⟩ := h2
      obtain rfl : p = q := by simpa using hs.symm.trans hs'
      rw [ih hl hl']

/-- A list that ends does not come back to a node, from where the walk would have two lengths. -/
lemma Segment.nodup (h : Segment prev next up s l none) : l.Nodup := by
  induction l generalizing up s with
  | nil => exact nodup_nil
  | cons p l ih =>
    obtain ⟨-, -, hl⟩ := h
    refine nodup_cons.2 ⟨fun hmem => ?_, ih hl⟩
    obtain ⟨a, b, hab⟩ := append_of_mem hmem
    have hl' := hl
    rw [hab] at hl'
    obtain ⟨m, -, -, -, hb⟩ := segment_append.1 hl'
    have hlen := congrArg length (hl.unique hb)
    rw [hab] at hlen
    simp at hlen
    omega

lemma IsList.nodup (h : IsList prev next head l) : l.Nodup := Segment.nodup h

lemma IsList.links (h : IsList prev next head (l₁ ++ p :: l₂)) :
    prev p = l₂.head? ∧ next p = lastOr none l₁ := by
  obtain ⟨m, -, -, hn, hl⟩ := segment_append.1 h
  exact ⟨by simpa using hl.start, hn⟩

/-- `next` inverts `prev` on the list, and nothing is above the head. -/
lemma IsList.inverse (h : IsList prev next head l) : (∀ q, head = some q → next q = none) ∧
      ∀ p ∈ l, ∀ q, prev p = some q ↔ q ∈ l ∧ next q = some p := by
  constructor
  · rintro q rfl
    cases l with
    | nil => simp [IsList, Segment] at h
    | cons a l =>
      obtain ⟨ha, hn, -⟩ := h
      obtain rfl : q = a := by simpa using ha
      exact hn
  · intro p hp q
    obtain ⟨l₁, l₂, rfl⟩ := append_of_mem hp
    constructor
    · intro hq
      cases l₂ with
      | nil => simp [h.links.1] at hq
      | cons a l₂ =>
        obtain rfl : a = q := by simpa [h.links.1] using hq
        have h' : IsList prev next head ((l₁ ++ [p]) ++ a :: l₂) := by simpa using h
        exact ⟨by simp, by simpa [lastOr] using h'.links.2⟩
    · rintro ⟨hq, hn⟩
      -- split at `q`: what stands just above it is `p`, and `p` occurs once
      obtain ⟨k1, k2, hk⟩ := append_of_mem hq
      rw [hk] at h
      rcases lastOr_cases none k1 with ⟨rfl, h0⟩ | ⟨k, u, rfl, hu⟩
      · simp [h.links.2, h0] at hn
      · obtain rfl : u = p := by simpa [h.links.2, hu] using hn
        have h' : IsList prev next head (k ++ u :: (q :: k2)) := by simpa using h
        simpa using h'.links.1

lemma IsList.head_eq (h : IsList prev next head l) : head = l.head? := by
  simpa using Segment.start h

/-- A node of the list is its head exactly when nothing stands above it. -/
lemma IsList.head_iff (h : IsList prev next head (l₁ ++ p :: l₂)) :
    head = some p ↔ lastOr none l₁ = none := by
  rw [h.head_eq]
  rcases lastOr_cases none l₁ with ⟨rfl, hn⟩ | ⟨k, u, rfl, hu⟩
  · simp [hn]
  · have hmem : p ∉ k ++ [u] := fun hm => (disjoint_of_nodup_append h.nodup) hm (by simp)
    simp only [hu, reduceCtorEq, iff_false]
    intro e
    exact hmem (mem_of_mem_head? (by simpa using e))

/-! ## Pointer surgery -/

variable [DecidableEq α]

/-- A write to the last node, seen from the list without its first. -/
lemma prev_tail {a : α} {v : Option α} (ha : a ∉ l ++ l₂)
    (hprev : ∀ x ∈ a :: (l ++ l₂), prev' x = if lastOr none (a :: l) = some x then v else prev x) :
    (∀ x ∈ l ++ l₂, prev' x = if lastOr none l = some x then v else prev x) ∧
      prev' a = if l = [] then v else prev a := by
  constructor
  · intro x hx
    have hax : a ≠ x := fun e => ha (e ▸ hx)
    rw [hprev x (mem_cons_of_mem _ hx)]
    cases l with
    | nil => simp [lastOr, hax]
    | cons b l => rfl
  · rw [hprev a (by simp)]
    rcases lastOr_cases (some a) l with ⟨rfl, -⟩ | ⟨l', u, rfl, hu⟩
    · simp [lastOr]
    · have hau : u ≠ a := fun e => ha (by simp [e])
      simp [lastOr, hau]

/-- What stands between `l₁` and `l₂` is replaced by `mid'`. The hypotheses give the links after the
writes: the neighbours point at the ends of `mid'`, the rest is as before. -/
lemma Segment.splice (mid : List α) {mid' : List α} {s' : Option α}
    (h : Segment prev next up s (l₁ ++ (mid ++ l₂)) t) (hnd : (l₁ ++ l₂).Nodup)
    (hmid : Segment prev' next' (lastOr up l₁) s' mid' ((l₂.head?).or t))
    (hprev : ∀ x ∈ l₁ ++ l₂, prev' x = if lastOr none l₁ = some x then s' else prev x)
    (hnext : ∀ x ∈ l₁ ++ l₂,
      next' x = if l₂.head? = some x then lastOr (lastOr up l₁) mid' else next x) :
    Segment prev' next' up (if l₁ = [] then s' else s) (l₁ ++ (mid' ++ l₂)) t := by
  induction l₁ generalizing up s with
  | nil =>
    rw [nil_append] at h
    rw [if_pos rfl, nil_append]
    refine segment_append.2 ⟨_, hmid, ?_⟩
    obtain ⟨m, -, hl⟩ := segment_append.1 h
    cases l₂ with
    | nil => rfl
    | cons d l =>
      obtain ⟨-, -, hl⟩ := hl
      simp only [nil_append, nodup_cons] at hnd
      have hd : prev' d = prev d := by simpa [lastOr] using hprev d (by simp)
      refine ⟨rfl, by simpa [lastOr] using hnext d (by simp), ?_⟩
      rw [hd]
      refine hl.congr (fun x hx => by simpa [lastOr] using hprev x (by simp [hx])) fun x hx => ?_
      have hdx : d ≠ x := fun e => hnd.1 (e ▸ hx)
      simpa [hdx] using hnext x (by simp [hx])
  | cons a l ih =>
    obtain ⟨hs, hn, hl⟩ := h
    simp only [cons_append, nodup_cons] at hnd
    have ha : l₂.head? ≠ some a := fun e => hnd.1 (mem_append_right _ (mem_of_mem_head? e))
    refine ⟨hs, by rw [hnext a (by simp), if_neg ha, hn], ?_⟩
    obtain ⟨hprev', hstart⟩ := prev_tail hnd.1 hprev
    rw [hstart]
    exact ih hl hnd.2 hmid hprev' fun x hx => hnext x (mem_cons_of_mem _ hx)

/-- `p` is put between `l₁` and `l₂`. -/
lemma IsList.insert (h : IsList prev next head (l₁ ++ l₂))
    (hpp : prev' p = l₂.head?) (hpn : next' p = lastOr none l₁)
    (hprev : ∀ x ∈ l₁ ++ l₂, prev' x = if lastOr none l₁ = some x then some p else prev x)
    (hnext : ∀ x ∈ l₁ ++ l₂, next' x = if l₂.head? = some x then some p else next x)
    (hhead : head' = if l₁ = [] then some p else head) :
    IsList prev' next' head' (l₁ ++ p :: l₂) := by
  rw [hhead]
  have hmid : Segment prev' next' (lastOr none l₁) (some p) [p] ((l₂.head?).or none) :=
    ⟨rfl, hpn, by simpa [Segment] using hpp⟩
  exact Segment.splice [] h h.nodup hmid hprev hnext

/-- `p` is taken out from between `l₁` and `l₂`, which then point at each other. -/
lemma IsList.remove (h : IsList prev next head (l₁ ++ p :: l₂))
    (hprev : ∀ x ∈ l₁ ++ l₂, prev' x = if lastOr none l₁ = some x then l₂.head? else prev x)
    (hnext : ∀ x ∈ l₁ ++ l₂, next' x = if l₂.head? = some x then lastOr none l₁ else next x)
    (hhead : head' = if l₁ = [] then l₂.head? else head) : IsList prev' next' head' (l₁ ++ l₂) := by
  rw [hhead]
  have hnd := h.nodup.sublist ((sublist_cons_self p l₂).append_left l₁)
  have hmid : Segment prev' next' (lastOr none l₁) l₂.head? [] ((l₂.head?).or none) := by
    simp [Segment]
  exact Segment.splice [p] h hnd hmid hprev hnext

end Links

end LinkedHeap
