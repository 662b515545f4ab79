import Mathlib.Data.Nat.Digits.Lemmas
import Mathlib.Data.Nat.Size

/-!
# Numbers as lists of limbs

A number of `n` limbs of `w` bits, least significant first, has the value `Nat.ofDigits (2 ^ w)`.
The carry loop gives the sum modulo the range (`value_carry`), and a bit of the value is a bit of
one limb (`testBit_value`), which settles shifts.
-/

namespace Limbs

open List Nat

/-- The value of a list of limbs. -/
def value (w : ℕ) (l : List ℕ) : ℕ := Nat.ofDigits (2 ^ w) l

/-- Every limb is in range. -/
def InRange (w : ℕ) (l : List ℕ) : Prop := ∀ d ∈ l, d < 2 ^ w

variable {w : ℕ}

@[simp] lemma value_nil : value w [] = 0 := rfl

lemma value_cons (d : ℕ) (l : List ℕ) : value w (d :: l) = d + 2 ^ w * value w l := by
  simp [value, ofDigits_cons]

variable {l : List ℕ}

lemma InRange.head {d : ℕ} (h : InRange w (d :: l)) : d < 2 ^ w := h d mem_cons_self

lemma InRange.tail {d : ℕ} (h : InRange w (d :: l)) : InRange w l :=
  fun e he => h e (mem_cons_of_mem _ he)

lemma InRange.getD (h : InRange w l) (i : ℕ) : l.getD i 0 < 2 ^ w := by
  rw [getD_eq_getElem?_getD]
  cases hi : l[i]? with
  | none => exact Nat.two_pow_pos w
  | some d => exact h d (mem_of_getElem? hi)

lemma pow_length_succ (d : ℕ) (l : List ℕ) :
    2 ^ (w * (d :: l).length) = 2 ^ w * 2 ^ (w * l.length) := by
  rw [← pow_add, length_cons, mul_succ, add_comm]

lemma value_lt (h : InRange w l) : value w l < 2 ^ (w * l.length) := by
  induction l with
  | nil => simp
  | cons d l ih =>
    have hd := h.head
    have hl := ih h.tail
    rw [value_cons, pow_length_succ]
    calc d + 2 ^ w * value w l < 2 ^ w * (value w l + 1) := by
          rw [mul_succ]
          omega
      _ ≤ 2 ^ w * 2 ^ (w * l.length) := mul_le_mul_left _ hl

lemma value_eq_zero : value w l = 0 ↔ ∀ d ∈ l, d = 0 := by
  induction l with
  | nil => simp
  | cons d l ih => simp [value_cons, ih]

lemma value_append (l m : List ℕ) :
    value w (l ++ m) = value w l + 2 ^ (w * l.length) * value w m := by
  rw [value, ofDigits_append, ← pow_mul]
  rfl

/-! ## Carries -/

/-- The carry loop: each sum is reduced to a limb and its high part goes on to the next. -/
def carry (w : ℕ) : List ℕ → ℕ → List ℕ
  | [], _ => []
  | n :: ns, c => (c + n) % 2 ^ w :: carry w ns ((c + n) / 2 ^ w)

/-- **The carry loop adds up**, modulo the range of the limbs. -/
theorem value_carry (ns : List ℕ) : ∀ c : ℕ,
    value w (carry w ns c) = (value w ns + c) % 2 ^ (w * ns.length) := by
  induction ns with
  | nil =>
    simp [carry, mod_one]
  | cons n ns ih =>
    intro c
    have hsum : n + 2 ^ w * value w ns + c =
        (c + n) % 2 ^ w + 2 ^ w * (value w ns + (c + n) / 2 ^ w) := by
      have hdiv := mod_add_div (c + n) (2 ^ w)
      rw [mul_add]
      omega
    rw [carry, value_cons, value_cons, ih, pow_length_succ, hsum, mod_mul,
      add_mul_mod_self_left, mod_mod, add_mul_div_left _ _ (Nat.two_pow_pos w),
      div_eq_of_lt (mod_lt _ (Nat.two_pow_pos w)), zero_add]

lemma value_map_mul (b : ℕ) (l : List ℕ) : value w (l.map (b * ·)) = b * value w l := by
  induction l with
  | nil => simp
  | cons d l ih => rw [map_cons, value_cons, value_cons, ih, mul_add, mul_left_comm]

lemma value_zipWith_add : ∀ {l m : List ℕ}, l.length = m.length →
    value w (zipWith (· + ·) l m) = value w l + value w m
  | [], [], _ => rfl
  | d :: l, e :: m, hlen => by
    rw [zipWith_cons_cons, value_cons, value_cons, value_cons,
      value_zipWith_add (by simpa using hlen), mul_add]
    omega

/-- One row of a product added to a number that may have fewer limbs. -/
lemma value_zipWith_mulAdd (p : ℕ) : ∀ {l m : List ℕ}, l.length ≤ m.length →
    value w (zipWith (fun d e => d + p * e) l m) = value w l + p * value w (m.take l.length)
  | [], _, _ => by simp
  | d :: l, e :: m, hlen => by
    rw [zipWith_cons_cons, value_cons, value_cons, length_cons, take_succ_cons,
      value_cons, value_zipWith_mulAdd p (by simpa using hlen)]
    ring

lemma value_take (h : InRange w l) {n : ℕ} (hn : n ≤ l.length) :
    value w (l.take n) = value w l % 2 ^ (w * n) := by
  have hlen : (l.take n).length = n := by
    rw [length_take]
    omega
  have hlt := value_lt (l := l.take n) fun d hd => h d (mem_of_mem_take hd)
  rw [hlen] at hlt
  conv_rhs => rw [← take_append_drop n l, value_append, hlen, add_mul_mod_self_left,
    mod_eq_of_lt hlt]

/-! ## Complement and increment -/

/-- Complement and increment, and so two's complement negation. -/
lemma value_compl (h : InRange w l) :
    value w (l.map (2 ^ w - 1 - ·)) + value w l + 1 = 2 ^ (w * l.length) := by
  induction l with
  | nil => simp
  | cons d l ih =>
    have hd := h.head
    rw [map_cons, value_cons, value_cons, pow_length_succ, ← ih h.tail, mul_add, mul_add, mul_one]
    omega

/-- Increment: a limb that wraps hands the increment on. -/
def incr (w : ℕ) : List ℕ → List ℕ
  | [] => []
  | d :: l => if (d + 1) % 2 ^ w = 0 then 0 :: incr w l else (d + 1) % 2 ^ w :: l

lemma value_incr (h : InRange w l) : value w (incr w l) = (value w l + 1) % 2 ^ (w * l.length) := by
  induction l with
  | nil => simp [incr]
  | cons d l ih =>
    have hd := h.head
    have hl := value_lt h.tail
    rw [incr, pow_length_succ]
    split_ifs with hwrap
    · have htop : d + 1 = 2 ^ w := by
        by_contra hne
        rw [mod_eq_of_lt (by omega)] at hwrap
        omega
      have hsum : d + 2 ^ w * value w l + 1 = 2 ^ w * (value w l + 1) := by
        rw [mul_succ]
        omega
      rw [value_cons, value_cons, ih h.tail, hsum, zero_add, mul_mod_mul_left]
    · have hlt : d + 1 < 2 ^ w := by
        by_contra hge
        have htop : d + 1 = 2 ^ w := by omega
        rw [htop, mod_self] at hwrap
        exact hwrap rfl
      have hbound : 2 ^ w * (value w l + 1) ≤ 2 ^ w * 2 ^ (w * l.length) := mul_le_mul_left _ hl
      rw [mul_succ] at hbound
      rw [value_cons, value_cons, mod_eq_of_lt hlt, mod_eq_of_lt (by omega)]
      omega

lemma length_incr : ∀ l : List ℕ, (incr w l).length = l.length
  | [] => rfl
  | d :: l => by
    rw [incr]
    split_ifs
    · rw [length_cons, length_incr l, length_cons]
    · rfl

lemma inRange_incr : ∀ {l : List ℕ}, InRange w l → InRange w (incr w l)
  | [], _ => by simp [incr, InRange]
  | d :: l, h => by
    rw [incr]
    split_ifs
    · exact forall_mem_cons.2 ⟨Nat.two_pow_pos w, inRange_incr h.tail⟩
    · exact forall_mem_cons.2 ⟨mod_lt _ (Nat.two_pow_pos w), h.tail⟩

/-! ## Bits -/

/-- **A bit of the value is a bit of one limb.** -/
theorem testBit_value (hw : 0 < w) (h : InRange w l) : ∀ p : ℕ,
    (value w l).testBit p = (l.getD (p / w) 0).testBit (p % w) := by
  induction l with
  | nil =>
    simp
  | cons d l ih =>
    intro p
    rw [value_cons, add_comm, testBit_two_pow_mul_add _ h.head]
    rcases lt_or_ge p w with hlt | hge
    · rw [if_pos hlt, div_eq_of_lt hlt, mod_eq_of_lt hlt]
      rfl
    · rw [if_neg (by omega), ih h.tail, div_eq_sub_div hw hge, mod_eq_sub_mod hge]
      rfl

/-- The bit length of a number is that of its high part, shifted. -/
lemma size_add_mul {k a b : ℕ} (ha : a < 2 ^ k) (hb : b ≠ 0) :
    (a + 2 ^ k * b).size = k + b.size := by
  have hpos := size_pos.2 (pos_of_ne_zero hb)
  apply le_antisymm
  · refine size_le.2 ?_
    have hmul := mul_le_mul_left (2 ^ k) (lt_size_self b)
    rw [mul_succ, ← pow_add] at hmul
    omega
  · have hlow : 2 ^ (b.size - 1) ≤ b := lt_size.1 (by omega)
    have hmul := mul_le_mul_left (2 ^ k) hlow
    rw [← pow_add] at hmul
    have hlt := lt_size.2 (hmul.trans (le_add_left _ a))
    omega

lemma value_inj : ∀ {l m : List ℕ}, l.length = m.length → InRange w l → InRange w m →
    value w l = value w m → l = m
  | [], [], _, _, _, _ => rfl
  | d :: l, e :: m, hlen, hl, hm, heq => by
    rw [value_cons, value_cons] at heq
    have hhead : d = e := by
      have hmod := congrArg (· % 2 ^ w) heq
      simpa [mod_eq_of_lt hl.head, mod_eq_of_lt hm.head] using hmod
    subst hhead
    have htail := Nat.eq_of_mul_eq_mul_left (Nat.two_pow_pos w) (add_left_cancel heq)
    rw [value_inj (by simpa using hlen) hl.tail hm.tail htail]

/-! ## Order -/

/-- Comparison from the last limb, the most significant one, down. -/
def compareTop : List ℕ → List ℕ → ℤ
  | d :: l, e :: m =>
    if compareTop l m ≠ 0 then compareTop l m
    else if d < e then -1
    else if d > e then 1
    else 0
  | _, _ => 0

/-- **Comparison from the top is comparison of the values.** -/
theorem compareTop_cases : ∀ {l m : List ℕ}, l.length = m.length → InRange w l → InRange w m →
    (compareTop l m = -1 ∧ value w l < value w m) ∨ (compareTop l m = 0 ∧ value w l = value w m) ∨
      (compareTop l m = 1 ∧ value w m < value w l)
  | [], [], _, _, _ => .inr (.inl ⟨rfl, rfl⟩)
  | d :: l, e :: m, hlen, hl, hm => by
    have hd := hl.head
    have he := hm.head
    -- a difference in the tails outweighs any difference in the first limbs
    have hlt : ∀ {x y a b : ℕ}, x < y → a < 2 ^ w → a + 2 ^ w * x < b + 2 ^ w * y := by
      intro x y a b hxy ha
      have hmul := mul_le_mul_left (2 ^ w) (succ_le_of_lt hxy)
      rw [mul_succ] at hmul
      omega
    rw [value_cons, value_cons, compareTop]
    rcases compareTop_cases (by simpa using hlen) hl.tail hm.tail with
      ⟨hcmp, hval⟩ | ⟨hcmp, hval⟩ | ⟨hcmp, hval⟩
    · exact .inl ⟨by rw [hcmp]; rfl, hlt hval hd⟩
    · rw [hcmp, if_neg (by simp), hval]
      rcases lt_trichotomy d e with hde | rfl | hde
      · exact .inl ⟨by rw [if_pos hde], by omega⟩
      · exact .inr (.inl ⟨by simp, rfl⟩)
      · exact .inr (.inr ⟨by rw [if_neg (by omega), if_pos hde], by omega⟩)
    · exact .inr (.inr ⟨by rw [hcmp]; rfl, hlt hval he⟩)

/-! ## Assignments by `|=` -/

/-- The assignments `l[j] |= x` for the pairs `(j, x)` one after the other. -/
def orInto (l : List ℕ) (updates : List (ℕ × ℕ)) : List ℕ :=
  updates.foldl (fun l u => l.modify u.1 (· ||| u.2)) l

@[simp] lemma length_orInto (updates : List (ℕ × ℕ)) : ∀ l : List ℕ,
    (orInto l updates).length = l.length := by
  induction updates with
  | nil => exact fun l => rfl
  | cons u updates ih =>
    intro l
    exact (ih _).trans (length_modify ..)

lemma inRange_orInto {updates : List (ℕ × ℕ)} (hu : ∀ u ∈ updates, u.2 < 2 ^ w) :
    ∀ {l : List ℕ}, InRange w l → InRange w (orInto l updates) := by
  induction updates with
  | nil => exact fun h => h
  | cons u updates ih =>
    intro l h
    refine ih (fun v hv => hu v (mem_cons_of_mem _ hv)) ?_
    intro d hd
    obtain ⟨i, hi, rfl⟩ := getElem_of_mem hd
    rw [getElem_modify]
    have hi' : i < l.length := by simpa using hi
    split_ifs
    · exact or_lt_two_pow (h _ (getElem_mem hi')) (hu u mem_cons_self)
    · exact h _ (getElem_mem hi')

/-- A bit of a limb is set by one of the assignments to it, or was before. -/
theorem testBit_orInto (updates : List (ℕ × ℕ)) : ∀ (l : List ℕ) (j r : ℕ), j < l.length →
    (((orInto l updates).getD j 0).testBit r = true ↔
      (l.getD j 0).testBit r = true ∨ ∃ u ∈ updates, u.1 = j ∧ u.2.testBit r = true) := by
  induction updates with
  | nil =>
    simp [orInto]
  | cons u updates ih =>
    intro l j r hj
    have hstep : (l.modify u.1 (· ||| u.2)).getD j 0 =
        if u.1 = j then l.getD j 0 ||| u.2 else l.getD j 0 := by
      rw [getD_eq_getElem?_getD, getElem?_modify, getElem?_eq_getElem hj,
        getD_eq_getElem?_getD, getElem?_eq_getElem hj]
      simp only [Option.map_eq_map, Option.map_some, Option.getD_some]
    refine (ih _ j r (by simpa using hj)).trans ?_
    rw [hstep, exists_mem_cons_iff]
    by_cases hu : u.1 = j
    · rw [if_pos hu, testBit_or, Bool.or_eq_true]
      simp only [hu, true_and, or_assoc]
    · rw [if_neg hu]
      simp only [hu, false_and, false_or]

end Limbs
