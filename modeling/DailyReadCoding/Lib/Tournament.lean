import DailyReadCoding.Lib.BinaryHeap

/-!
# Tournaments on an array

The nodes `0, …, 2 L` of an array form a binary tree: the children of `i` are `2 i + 1` and `2 i +
2`, the nodes from `L` on are the leaves, and player `p` sits at leaf `L + p`. Every inner node is a
match between the winners of its children; it keeps the winner, the loser and whether they drew. A
node without a winner is one with no player below it.
-/

namespace Tournament

open BinaryHeap Function

/-! ## Positions -/

/-- Node `l` is `i` or hangs below it. -/
inductive Under (i : ℕ) : ℕ → Prop
  | refl : Under i i
  | step {l : ℕ} (h : 0 < l) (hp : Under i (parent l)) : Under i l

namespace Under

variable {i j k l : ℕ}

lemma le (h : Under i l) : i ≤ l := by
  induction h with
  | refl => exact le_rfl
  | step _ _ ih => exact Nat.le_trans ih (parent_le _)

lemma zero (l : ℕ) : Under 0 l := by
  induction l using Nat.strongRecOn with
  | ind l ih =>
    rcases Nat.eq_zero_or_pos l with rfl | h
    · exact .refl
    · exact .step h (ih _ (parent_lt h))

lemma trans (hij : Under i j) (hjl : Under j l) : Under i l := by
  induction hjl with
  | refl => exact hij
  | step h _ ih => exact .step h ih

lemma eq_or_parent (h : Under i l) : i = l ∨ (0 < l ∧ Under i (parent l)) := by
  cases h with
  | refl => exact .inl rfl
  | step hl hp => exact .inr ⟨hl, hp⟩

lemma left (i : ℕ) : Under i (2 * i + 1) :=
  .step (by omega) (by rw [show parent (2 * i + 1) = i by unfold parent; omega]; exact .refl)

lemma right (i : ℕ) : Under i (2 * i + 2) :=
  .step (by omega) (by rw [show parent (2 * i + 2) = i by unfold parent; omega]; exact .refl)

/-- A node properly below another is below one of its children. -/
lemma child (h : Under i l) (hne : i ≠ l) : Under (2 * i + 1) l ∨ Under (2 * i + 2) l := by
  induction h with
  | refl => exact absurd rfl hne
  | @step l hl hp ih =>
    by_cases hip : i = parent l
    · have hl' : l = 2 * i + 1 ∨ l = 2 * i + 2 := by
        unfold parent at hip
        omega
      rcases hl' with rfl | rfl
      · exact .inl .refl
      · exact .inr .refl
    · exact (ih hip).imp (.step hl) (.step hl)

lemma chain (hi : Under i l) (hj : Under j l) : Under i j ∨ Under j i := by
  induction hi with
  | refl => exact .inr hj
  | step hl hp ih =>
    rcases hj.eq_or_parent with rfl | ⟨-, hjp⟩
    · exact .inl (.step hl hp)
    · exact ih hjp

lemma disjoint (hleft : Under (2 * i + 1) l) (hright : Under (2 * i + 2) l) : False := by
  rcases hleft.chain hright with h | h
  · rcases h.eq_or_parent with h | ⟨-, h⟩
    · omega
    · have := h.le
      unfold parent at this
      omega
  · have := h.le
    omega

end Under

/-- Two leaves below `i` part at some match below `i`. -/
lemma exists_split {L i l m : ℕ} (hl : Under i l) (hm : Under i m) (hne : l ≠ m)
    (hlL : L ≤ l) (hl2 : l ≤ 2 * L) (hmL : L ≤ m) (hm2 : m ≤ 2 * L) :
    ∃ j < L, (Under (2 * j + 1) l ∧ Under (2 * j + 2) m)
      ∨ (Under (2 * j + 2) l ∧ Under (2 * j + 1) m) := by
  -- down from `i`, the side of both leaves as long as it is the same
  induction hi : 2 * L - i using Nat.strongRecOn generalizing i with
  | ind n ih =>
    have hil : i ≠ l := by
      rintro rfl
      rcases hm.child hne with h | h
      · have := h.le; omega
      · have := h.le; omega
    have him : i ≠ m := by
      rintro rfl
      rcases hl.child hne.symm with h | h
      · have := h.le; omega
      · have := h.le; omega
    rcases hl.child hil with hl' | hl' <;> rcases hm.child him with hm' | hm'
    · exact ih _ (by have := hl'.le; omega) hl' hm' rfl
    · exact ⟨i, by have := hl'.le; omega, .inl ⟨hl', hm'⟩⟩
    · exact ⟨i, by have := hl'.le; omega, .inr ⟨hl', hm'⟩⟩
    · exact ih _ (by have := hl'.le; omega) hl' hm' rfl

/-! ## Matches -/

/-- The outcome of a match between `a` and `b`, either of which may be missing. -/
structure Outcome (le : ℕ → ℕ → Prop) (a b winner loser : Option ℕ) (draw : Prop) : Prop where
  pairing : (winner = a ∧ loser = b) ∨ (winner = b ∧ loser = a)
  beats : ∀ q ∈ loser, ∃ p ∈ winner, le p q
  draw_iff : draw ↔ ∃ p ∈ winner, ∃ q ∈ loser, le q p

variable {a b winner loser : Option ℕ}

lemma Outcome.symm {le : ℕ → ℕ → Prop} {draw : Prop}
    (h : Outcome le a b winner loser draw) : Outcome le b a winner loser draw :=
  { h with pairing := h.pairing.symm }

/-- Only the comparisons between the two players matter. -/
lemma Outcome.congr {le le' : ℕ → ℕ → Prop} {draw : Prop} (h : Outcome le a b winner loser draw)
    (hle : ∀ p ∈ winner, ∀ q ∈ loser, (le p q ↔ le' p q) ∧ (le q p ↔ le' q p)) :
    Outcome le' a b winner loser draw where
  pairing := h.pairing
  beats q hq := by
    obtain ⟨p, hp, hpq⟩ := h.beats q hq
    exact ⟨p, hp, (hle p hp q hq).1.1 hpq⟩
  draw_iff := by
    rw [h.draw_iff]
    constructor
    · rintro ⟨p, hp, q, hq, hqp⟩
      exact ⟨p, hp, q, hq, (hle p hp q hq).2.1 hqp⟩
    · rintro ⟨p, hp, q, hq, hqp⟩
      exact ⟨p, hp, q, hq, (hle p hp q hq).2.2 hqp⟩

/-- A tournament on the leaves `L, …, 2 L`, with winners `w`, losers `lo` and draws `dr`. -/
structure Played (L : ℕ) (le : ℕ → ℕ → Prop) (w lo : ℕ → Option ℕ) (dr : ℕ → Prop) : Prop where
  outcome : ∀ i < L, Outcome le (w (2 * i + 1)) (w (2 * i + 2)) (w i) (lo i) (dr i)
  leaf : ∀ i, L ≤ i → i ≤ 2 * L → ∀ p ∈ w i, i = L + p
  refl : ∀ i ≤ 2 * L, ∀ p ∈ w i, le p p

variable {p c : ℕ}

section Played

variable {L : ℕ} {le : ℕ → ℕ → Prop} {w lo : ℕ → Option ℕ} {dr : ℕ → Prop}

/-- Where all matches below a node are played, its winner comes from a leaf below it. -/
lemma winner_under_of (ok : ℕ → Prop) (hdown : ∀ i, ok i → ok (2 * i + 1) ∧ ok (2 * i + 2))
    (hout : ∀ i < L, ok i → Outcome le (w (2 * i + 1)) (w (2 * i + 2)) (w i) (lo i) (dr i))
    (hleaf : ∀ i, L ≤ i → i ≤ 2 * L → ∀ p ∈ w i, i = L + p) {i : ℕ} (hok : ok i)
    (hi : i ≤ 2 * L) (hp : p ∈ w i) : Under i (L + p) ∧ L + p ≤ 2 * L ∧ p ∈ w (L + p) := by
  induction hn : 2 * L - i using Nat.strongRecOn generalizing i with
  | ind n ih =>
    rcases Nat.lt_or_ge i L with hiL | hiL
    · rcases (hout i hiL hok).pairing with ⟨hw, -⟩ | ⟨hw, -⟩
      · obtain ⟨hu, hrest⟩ := ih _ (by omega) (hdown i hok).1 (by omega) (hw ▸ hp) rfl
        exact ⟨(Under.left i).trans hu, hrest⟩
      · obtain ⟨hu, hrest⟩ := ih _ (by omega) (hdown i hok).2 (by omega) (hw ▸ hp) rfl
        exact ⟨(Under.right i).trans hu, hrest⟩
    · have heq := hleaf i hiL hi p hp
      rw [← heq]
      exact ⟨.refl, hi, hp⟩

lemma Played.winner_under (h : Played L le w lo dr) {i : ℕ} (hi : i ≤ 2 * L) (hp : p ∈ w i) :
    Under i (L + p) ∧ L + p ≤ 2 * L ∧ p ∈ w (L + p) :=
  winner_under_of (fun _ => True) (fun _ _ => ⟨trivial, trivial⟩)
    (fun i hi _ => h.outcome i hi) h.leaf trivial hi hp

lemma Played.children_ne (h : Played L le w lo dr) {i : ℕ} (hi : i < L)
    (hleft : p ∈ w (2 * i + 1)) (hright : p ∈ w (2 * i + 2)) : False :=
  (h.winner_under (by omega) hleft).1.disjoint (h.winner_under (by omega) hright).1

/-- **The winner of a node is minimal among the players below it.** -/
theorem Played.winner_le [IsTrans ℕ le] (h : Played L le w lo dr) {i l q : ℕ} (hil : Under i l)
    (hl : l ≤ 2 * L) (hq : q ∈ w l) : ∃ p ∈ w i, le p q := by
  induction hil generalizing q with
  | refl => exact ⟨q, hq, h.refl i hl q hq⟩
  | @step l hpos _ ih =>
    have hp : parent l < L := by unfold parent; omega
    have hout := h.outcome _ hp
    -- the winner of the match above is at least as good
    obtain ⟨p, hpw, hpq⟩ : ∃ p ∈ w (parent l), le p q := by
      have hside : w l = w (parent l) ∨ w l = lo (parent l) := by
        have hchild : l = 2 * parent l + 1 ∨ l = 2 * parent l + 2 := by unfold parent; omega
        rcases hout.pairing with ⟨hw, hlo⟩ | ⟨hw, hlo⟩ <;> rcases hchild with hc | hc
        · exact .inl (by rw [hw, ← hc])
        · exact .inr (by rw [hlo, ← hc])
        · exact .inr (by rw [hlo, ← hc])
        · exact .inl (by rw [hw, ← hc])
      rcases hside with hside | hside
      · exact ⟨q, hside ▸ hq, h.refl l hl q hq⟩
      · exact hout.beats q (hside ▸ hq)
    obtain ⟨r, hr, hrp⟩ := ih (by omega) hpw
    exact ⟨r, hr, Trans.trans hrp hpq⟩

/-- The winner of a node wins every match on the way from its leaf. -/
lemma Played.path (h : Played L le w lo dr) {i j : ℕ} (hij : Under i j) (hp : p ∈ w i)
    (hj : Under j (L + p)) (hjL : j ≤ 2 * L) : p ∈ w j := by
  induction hij with
  | refl => exact hp
  | @step j hpos _ ih =>
    have hpj : parent j < L := by unfold parent; omega
    have hup : Under (parent j) (L + p) := (Under.step hpos .refl).trans hj
    have hwin := ih hup (by omega)
    have hchild : j = 2 * parent j + 1 ∨ j = 2 * parent j + 2 := by unfold parent; omega
    rcases (h.outcome _ hpj).pairing with ⟨hw, -⟩ | ⟨hw, -⟩ <;> rcases hchild with hc | hc
    · rw [hc, ← hw]; exact hwin
    · have hother := (h.winner_under (by omega) (hw ▸ hwin)).1
      exact (hother.disjoint (hc ▸ hj)).elim
    · have hother := (h.winner_under (by omega) (hw ▸ hwin)).1
      exact (Under.disjoint (hc ▸ hj) hother).elim
    · rw [hc, ← hw]; exact hwin

/-- Of the two players of a match, one wins and the other loses. -/
lemma Outcome.loser_of_left {draw : Prop}
    (h : Outcome le a b winner loser draw) (hp : p ∈ winner) (hb : p ∉ b) :
    winner = a ∧ loser = b := by
  rcases h.pairing with h | ⟨rfl, -⟩
  · exact h
  · exact absurd hp hb

/-- **The champion drew a match exactly if another player is equal to it.** -/
theorem Played.draw_iff [IsTrans ℕ le] (h : Played L le w lo dr) (hc : c ∈ w 0) :
    (∃ j, Under j (L + c) ∧ j ≠ L + c ∧ dr j) ↔
      ∃ q, q ≠ c ∧ L + q ≤ 2 * L ∧ q ∈ w (L + q) ∧ le q c := by
  obtain ⟨-, hcL, hcw⟩ := h.winner_under (by omega) hc
  constructor
  · rintro ⟨j, hj, hne, hdraw⟩
    have hjL : j < L := by
      rcases hj.child hne with h' | h'
      · have := h'.le; omega
      · have := h'.le; omega
    have hcj := h.path (Under.zero j) hc hj (by omega)
    obtain ⟨p, hp, q, hq, hqp⟩ := (h.outcome j hjL).draw_iff.1 hdraw
    obtain rfl : p = c := Option.mem_unique hp hcj
    have hqc : q ≠ p := by
      rintro rfl
      rcases (h.outcome j hjL).pairing with ⟨hw, hlo⟩ | ⟨hw, hlo⟩
      · exact h.children_ne hjL (hw ▸ hp) (hlo ▸ hq)
      · exact h.children_ne hjL (hlo ▸ hq) (hw ▸ hp)
    have hq' : q ∈ w (2 * j + 1) ∨ q ∈ w (2 * j + 2) := by
      rcases (h.outcome j hjL).pairing with ⟨-, hlo⟩ | ⟨-, hlo⟩
      · exact .inr (hlo ▸ hq)
      · exact .inl (hlo ▸ hq)
    rcases hq' with hq' | hq'
    · exact ⟨q, hqc, (h.winner_under (by omega) hq').2.1, (h.winner_under (by omega) hq').2.2, hqp⟩
    · exact ⟨q, hqc, (h.winner_under (by omega) hq').2.1, (h.winner_under (by omega) hq').2.2, hqp⟩
  · rintro ⟨q, hqc, hqL, hqw, hle⟩
    -- the match at which the leaves of the two part
    obtain ⟨j, hjL, hside⟩ := exists_split (Under.zero (L + c)) (Under.zero (L + q))
      (by omega) (by omega) hcL (by omega) hqL
    have hout := h.outcome j hjL
    rcases hside with ⟨hcu, hqu⟩ | ⟨hcu, hqu⟩
    · have hj := (Under.left j).trans hcu
      obtain ⟨r, hr, hrq⟩ := h.winner_le hqu hqL hqw
      have hcside := h.path (Under.zero _) hc hcu (by omega)
      have hcj := h.path (Under.zero _) hc hj (by omega)
      obtain ⟨-, hlo⟩ := hout.loser_of_left hcj fun hb => h.children_ne hjL hcside hb
      exact ⟨j, hj, by omega, hout.draw_iff.2 ⟨c, hcj, r, hlo ▸ hr, Trans.trans hrq hle⟩⟩
    · have hj := (Under.right j).trans hcu
      obtain ⟨r, hr, hrq⟩ := h.winner_le hqu hqL hqw
      have hcside := h.path (Under.zero _) hc hcu (by omega)
      have hcj := h.path (Under.zero _) hc hj (by omega)
      obtain ⟨-, hlo⟩ := hout.symm.loser_of_left hcj fun hb => h.children_ne hjL hb hcside
      exact ⟨j, hj, by omega, hout.draw_iff.2 ⟨c, hcj, r, hlo ▸ hr, Trans.trans hrq hle⟩⟩

end Played

/-! ## Playing the matches above a leaf again -/

/-- Every match is played but those above `child`, whose losers are the winners of their other side.
-/
structure Replaying (L : ℕ) (le : ℕ → ℕ → Prop) (w lo : ℕ → Option ℕ) (dr : ℕ → Prop)
    (child : ℕ) : Prop where
  outcome : ∀ i < L, ¬ (Under i child ∧ i ≠ child) →
    Outcome le (w (2 * i + 1)) (w (2 * i + 2)) (w i) (lo i) (dr i)
  above_left : ∀ i < L, Under (2 * i + 1) child → lo i = w (2 * i + 2)
  above_right : ∀ i < L, Under (2 * i + 2) child → lo i = w (2 * i + 1)
  leaf : ∀ i, L ≤ i → i ≤ 2 * L → ∀ p ∈ w i, i = L + p
  refl : ∀ i ≤ 2 * L, ∀ p ∈ w i, le p p

section Replaying

variable {L : ℕ} {le : ℕ → ℕ → Prop} {w lo : ℕ → Option ℕ} {dr : ℕ → Prop}

/-- Without its champion a tournament is to be replayed. -/
lemma Played.replaying (h : Played L le w lo dr) (hc : c ∈ w 0) :
    Replaying L le (update w (L + c) none) lo dr (L + c) := by
  have hsub : ∀ i, ∀ p ∈ update w (L + c) none i, p ∈ w i := by
    intro i p hp
    by_cases hi : i = L + c
    · rw [hi, update_self] at hp
      cases hp
    · rwa [update_of_ne hi] at hp
  refine ⟨?_, ?_, ?_, ?_, ?_⟩
  · intro i hi habove
    have hne : i ≠ L + c := by omega
    have hleft : 2 * i + 1 ≠ L + c := fun heq => habove ⟨heq ▸ Under.left i, hne⟩
    have hright : 2 * i + 2 ≠ L + c := fun heq => habove ⟨heq ▸ Under.right i, hne⟩
    rw [update_of_ne hleft, update_of_ne hright, update_of_ne hne]
    exact h.outcome i hi
  · intro i hi hu
    have hne : 2 * i + 2 ≠ L + c := fun heq => hu.disjoint (heq ▸ .refl)
    have hci := h.path (Under.zero i) hc ((Under.left i).trans hu) (by omega)
    have hcl := h.path (Under.zero _) hc hu (by omega)
    rw [update_of_ne hne]
    exact ((h.outcome i hi).loser_of_left hci fun hb => h.children_ne hi hcl hb).2
  · intro i hi hu
    have hne : 2 * i + 1 ≠ L + c := fun heq => Under.disjoint (heq ▸ .refl) hu
    have hci := h.path (Under.zero i) hc ((Under.right i).trans hu) (by omega)
    have hcr := h.path (Under.zero _) hc hu (by omega)
    rw [update_of_ne hne]
    exact ((h.outcome i hi).symm.loser_of_left hci fun hb => h.children_ne hi hb hcr).2
  · intro i hi hi2 p hp
    exact h.leaf i hi hi2 p (hsub i p hp)
  · intro i hi p hp
    exact h.refl i hi p (hsub i p hp)

namespace Replaying

variable {child : ℕ}

section

variable (h : Replaying L le w lo dr child)

include h

lemma congr {lo' : ℕ → Option ℕ} {dr' : ℕ → Prop}
    (hlo : ∀ i < L, lo' i = lo i) (hdr : ∀ i < L,
    dr' i = dr i) : Replaying L le w lo' dr' child where
  outcome i hi habove := by
    rw [hlo i hi, hdr i hi]
    exact h.outcome i hi habove
  above_left i hi hu := by
    rw [hlo i hi]
    exact h.above_left i hi hu
  above_right i hi hu := by
    rw [hlo i hi]
    exact h.above_right i hi hu
  leaf := h.leaf
  refl := h.refl

lemma winner_under {i p : ℕ} (hi : i ≤ 2 * L)
    (habove : ¬ (Under i child ∧ i ≠ child)) (hp : p ∈ w i) :
    Under i (L + p) ∧ L + p ≤ 2 * L ∧ p ∈ w (L + p) := by
  refine winner_under_of (fun i => ¬ (Under i child ∧ i ≠ child)) ?_ h.outcome h.leaf habove hi hp
  intro j hj
  constructor
  · rintro ⟨hu, -⟩
    have := hu.le
    exact hj ⟨(Under.left j).trans hu, by omega⟩
  · rintro ⟨hu, -⟩
    have := hu.le
    exact hj ⟨(Under.right j).trans hu, by omega⟩

/-- The loser of the match above `child` is the winner of the other side. -/
lemma loser_parent (hpos : 0 < child) (hchild : child ≤ 2 * L) :
    (child = 2 * parent child + 1 ∧ lo (parent child) = w (2 * parent child + 2))
      ∨ (child = 2 * parent child + 2 ∧ lo (parent child) = w (2 * parent child + 1)) := by
  have hp : parent child < L := by unfold parent; omega
  have hside : child = 2 * parent child + 1 ∨ child = 2 * parent child + 2 := by
    unfold parent; omega
  rcases hside with hc | hc
  · exact .inl ⟨hc, h.above_left _ hp (hc ▸ .refl)⟩
  · exact .inr ⟨hc, h.above_right _ hp (hc ▸ .refl)⟩

lemma child_under (hchild : child ≤ 2 * L) {p : ℕ}
    (hp : p ∈ w child) : Under child (L + p) ∧ L + p ≤ 2 * L ∧ p ∈ w (L + p) :=
  h.winner_under hchild (fun ⟨_, hne⟩ => hne rfl) hp

/-- The loser of the match above `child` comes from a leaf that is not below `child`. -/
lemma loser_under (hpos : 0 < child) (hchild : child ≤ 2 * L) {p : ℕ} (hp : p ∈ lo (parent child)) :
    ¬ Under child (L + p) ∧ L + p ≤ 2 * L ∧ p ∈ w (L + p) := by
  rcases h.loser_parent hpos hchild with ⟨hc, heq⟩ | ⟨hc, heq⟩
  · have hother : ¬ (Under (2 * parent child + 2) child ∧ 2 * parent child + 2 ≠ child) :=
      fun ⟨hu', _⟩ => by have := hu'.le; omega
    obtain ⟨hu, hrest⟩ := h.winner_under (by omega) hother (heq ▸ hp)
    exact ⟨fun hu' => Under.disjoint (hc ▸ hu') hu, hrest⟩
  · have hother : ¬ (Under (2 * parent child + 1) child ∧ 2 * parent child + 1 ≠ child) :=
      fun ⟨hu', _⟩ => Under.disjoint hu' (hc ▸ .refl)
    obtain ⟨hu, hrest⟩ := h.winner_under (by omega) hother (heq ▸ hp)
    exact ⟨fun hu' => Under.disjoint hu (hc ▸ hu'), hrest⟩

lemma step (hpos : 0 < child) (hchild : child ≤ 2 * L) {winner loser : Option ℕ} {draw : Prop}
    (hout : Outcome le (w child) (lo (parent child)) winner loser draw) :
    Replaying L le (update w (parent child) winner) (update lo (parent child) loser)
      (update dr (parent child) draw) (parent child) := by
  have hup : Under (parent child) child := .step hpos .refl
  have hloser := h.loser_parent hpos hchild
  have hchain : ∀ i, Under i child → i ≠ child → Under i (parent child) :=
    fun i hu hne => (hu.eq_or_parent.resolve_left hne).2
  generalize parent child = p at *
  -- the match itself, in the order of its children
  have hmatch : Outcome le (w (2 * p + 1)) (w (2 * p + 2)) winner loser draw := by
    rcases hloser with ⟨hc, hlo⟩ | ⟨hc, hlo⟩
    · rwa [← hc, ← hlo]
    · rw [← hc, ← hlo]
      exact hout.symm
  refine ⟨?_, ?_, ?_, ?_, ?_⟩
  · intro i hi habove
    by_cases hip : i = p
    · subst hip
      rw [update_of_ne (by omega), update_of_ne (by omega), update_self, update_self, update_self]
      exact hmatch
    · have hleft : 2 * i + 1 ≠ p := fun heq => habove ⟨heq ▸ Under.left i, hip⟩
      have hright : 2 * i + 2 ≠ p := fun heq => habove ⟨heq ▸ Under.right i, hip⟩
      rw [update_of_ne hleft, update_of_ne hright, update_of_ne hip,
        update_of_ne hip, update_of_ne hip]
      exact h.outcome i hi fun ⟨hu, hne⟩ => habove ⟨hchain i hu hne, hip⟩
  · intro i hi hu
    have hip : i ≠ p := by have := hu.le; omega
    have hne : 2 * i + 2 ≠ p := fun heq => hu.disjoint (heq ▸ .refl)
    rw [update_of_ne hip, update_of_ne hne]
    exact h.above_left i hi (hu.trans hup)
  · intro i hi hu
    have hip : i ≠ p := by have := hu.le; omega
    have hne : 2 * i + 1 ≠ p := fun heq => Under.disjoint (heq ▸ .refl) hu
    rw [update_of_ne hip, update_of_ne hne]
    exact h.above_right i hi (hu.trans hup)
  · intro i hi hi2 q hq
    rw [update_of_ne (by omega)] at hq
    exact h.leaf i hi hi2 q hq
  · intro i hi q hq
    by_cases hip : i = p
    · rw [hip, update_self] at hq
      rcases hmatch.pairing with ⟨hw, -⟩ | ⟨hw, -⟩
      · exact h.refl (2 * p + 1) (by omega) q (hw ▸ hq)
      · exact h.refl (2 * p + 2) (by omega) q (hw ▸ hq)
    · rw [update_of_ne hip] at hq
      exact h.refl i hi q hq

end

lemma played (h : Replaying L le w lo dr 0) : Played L le w lo dr := by
  refine ⟨fun i hi => h.outcome i hi fun ⟨hu, hne⟩ => hne ?_, h.leaf, h.refl⟩
  exact Nat.le_zero.1 hu.le

end Replaying

end Replaying

end Tournament
