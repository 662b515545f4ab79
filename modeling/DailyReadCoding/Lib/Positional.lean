import Mathlib

/-!
# Positional expansions, most significant word first

A list of words `d₀ d₁ d₂ …` in base `b` is read with the radix point behind its first word:
`mantissa b ds = d₀ + d₁ / b + d₂ / b² + …`.  A floating number in that base is a power of `b`
times such a mantissa.  `sign_mantissa_sub` says that word by word comparison is the order of the
mantissas.
-/

namespace Positional

open List

/-- `d₀ + d₁ / b + d₂ / b² + …` -/
def mantissa (b : ℕ) : List ℕ → ℚ
  | [] => 0
  | d :: ds => d + mantissa b ds / b

/-- Every word is a digit of the base. -/
def Digits (b : ℕ) (ds : List ℕ) : Prop := ∀ d ∈ ds, d < b

/-- No trailing zero word. -/
def Trimmed (ds : List ℕ) : Prop := ds.getLast? ≠ some 0

instance (b : ℕ) (ds : List ℕ) : Decidable (Digits b ds) :=
  inferInstanceAs (Decidable (∀ d ∈ ds, d < b))

instance (ds : List ℕ) : Decidable (Trimmed ds) :=
  inferInstanceAs (Decidable (ds.getLast? ≠ some 0))

variable {b d n : ℕ} {ds es : List ℕ}

lemma Digits.head (h : Digits b (d :: ds)) : d < b := h d mem_cons_self

lemma Digits.tail (h : Digits b (d :: ds)) : Digits b ds := fun x hx => h x (mem_cons_of_mem d hx)

lemma Trimmed.tail (h : Trimmed (d :: ds)) : Trimmed ds := by
  cases ds with
  | nil => simp [Trimmed]
  | cons e ds => simpa [Trimmed, getLast?_cons_cons] using h

lemma mantissa_nonneg (b : ℕ) : ∀ ds, 0 ≤ mantissa b ds
  | [] => le_rfl
  | d :: ds => by
    have ih := mantissa_nonneg b ds
    simp only [mantissa]
    positivity

lemma mantissa_lt (hb : 0 < b) : ∀ {ds : List ℕ}, Digits b ds → mantissa b ds < b
  | [], _ => by simpa [mantissa] using hb
  | d :: ds, h => by
    have hb' : (0 : ℚ) < b := by exact_mod_cast hb
    have ih : mantissa b ds / b < 1 := (div_lt_one hb').2 (mantissa_lt hb h.tail)
    have hd : (d : ℚ) + 1 ≤ b := by exact_mod_cast h.head
    simp only [mantissa]
    linarith

/-- The words behind the first add up to less than one of its units. -/
lemma mantissa_lt_succ (hb : 0 < b) (d : ℕ) (h : Digits b ds) : mantissa b (d :: ds) < d + 1 := by
  have hb' : (0 : ℚ) < b := by exact_mod_cast hb
  have htail : mantissa b ds / b < 1 := (div_lt_one hb').2 (mantissa_lt hb h)
  simp only [mantissa]
  linarith

lemma le_mantissa (b d : ℕ) (ds : List ℕ) : (d : ℚ) ≤ mantissa b (d :: ds) := by
  have := div_nonneg (mantissa_nonneg b ds) (Nat.cast_nonneg b)
  simp only [mantissa]
  linarith

lemma mantissa_pos (hb : 0 < b) : ∀ {ds : List ℕ}, ds ≠ [] → Trimmed ds → 0 < mantissa b ds
  | [d], _, h => by
    have : 0 < d := Nat.pos_of_ne_zero fun h0 => h (by simp [h0])
    simpa [mantissa] using this
  | d :: e :: ds, _, h => by
    have hb' : (0 : ℚ) < b := by exact_mod_cast hb
    have ih := mantissa_pos hb (cons_ne_nil e ds) h.tail
    rw [mantissa]
    positivity

/-- A floating number in base `b` written as a sum of words times powers of the base. -/
lemma sum_zpow_eq_mantissa (hb : b ≠ 0) : ∀ (e : ℤ) (ds : List ℕ),
    ∑ i ∈ Finset.range ds.length, (ds.getD i 0 : ℚ) * (b : ℚ) ^ (e - i)
      = (b : ℚ) ^ e * mantissa b ds
  | e, [] => by simp [mantissa]
  | e, d :: ds => by
    have hb' : (b : ℚ) ≠ 0 := by exact_mod_cast hb
    have ih := sum_zpow_eq_mantissa hb (e - 1) ds
    rw [length_cons, Finset.sum_range_succ']
    simp only [getD_cons_succ, getD_cons_zero, Nat.cast_zero, sub_zero, Nat.cast_succ, mantissa]
    rw [Finset.sum_congr rfl fun i _ => by rw [show e - ((i : ℤ) + 1) = e - 1 - i by ring],
      ih, zpow_sub_one₀ hb']
    field_simp
    ring

/-! ## Comparing word by word -/

/-- Word by word comparison; a list that goes on is greater. -/
def compareWords : List ℕ → List ℕ → ℤ
  | [], [] => 0
  | [], _ :: _ => -1
  | _ :: _, [] => 1
  | d :: ds, e :: es => if d < e then -1 else if e < d then 1 else compareWords ds es

lemma mantissa_lt_of_head_lt {e : ℕ} (hb : 0 < b) (es : List ℕ) (hds : Digits b ds)
    (h : d < e) : mantissa b (d :: ds) < mantissa b (e :: es) := by
  have hd : (d : ℚ) + 1 ≤ e := by exact_mod_cast h
  have hlow := mantissa_lt_succ hb d hds
  have hhigh := le_mantissa b e es
  linarith

/-- **Word by word comparison is the order of the mantissas.** -/
theorem sign_mantissa_sub (hb : 0 < b) :
    ∀ {ds es : List ℕ}, Digits b ds → Digits b es → Trimmed ds → Trimmed es →
      (SignType.sign (mantissa b ds - mantissa b es) : ℤ) = compareWords ds es
  | [], [], _, _, _, _ => by simp [mantissa, compareWords]
  | [], e :: es, _, _, _, he => by
    have hpos := mantissa_pos hb (cons_ne_nil e es) he
    rw [show mantissa b [] = 0 from rfl, sign_neg (by linarith)]
    rfl
  | d :: ds, [], _, _, hd, _ => by
    have hpos := mantissa_pos hb (cons_ne_nil d ds) hd
    rw [show mantissa b [] = 0 from rfl, sign_pos (by linarith)]
    rfl
  | d :: ds, e :: es, hds, hes, hd, he => by
    rw [compareWords]
    rcases Nat.lt_trichotomy d e with h | rfl | h
    · have := mantissa_lt_of_head_lt hb es hds.tail h
      rw [if_pos h, sign_neg (by linarith)]
      rfl
    · have hb' : (0 : ℚ) < b := by exact_mod_cast hb
      have hsub : mantissa b (d :: ds) - mantissa b (d :: es)
          = (mantissa b ds - mantissa b es) * (b : ℚ)⁻¹ := by
        simp only [mantissa]
        ring
      rw [if_neg (lt_irrefl d), if_neg (lt_irrefl d), hsub, sign_mul,
        sign_pos (inv_pos.2 hb'), mul_one]
      exact sign_mantissa_sub hb hds.tail hes.tail hd.tail he.tail
    · have := mantissa_lt_of_head_lt hb ds hes.tail h
      rw [if_neg (by omega), if_pos h, sign_pos (by linarith)]
      rfl

/-! ## The leading words as an integer -/

/-- The first `n` words as an integer, a short list padded with zero words. -/
def leading (b : ℕ) : ℕ → List ℕ → ℕ
  | 0, _ => 0
  | n + 1, d :: ds => d * b ^ n + leading b n ds
  | _ + 1, [] => 0

@[simp] lemma leading_nil (b : ℕ) : ∀ n, leading b n [] = 0
  | 0 => rfl
  | _ + 1 => rfl

lemma leading_succ (b n : ℕ) (ds : List ℕ) :
    leading b (n + 1) ds = ds.headD 0 * b ^ n + leading b n ds.tail := by
  cases ds with
  | nil => simp
  | cons d ds => rfl

lemma Digits.drop (h : Digits b ds) (n : ℕ) : Digits b (ds.drop n) :=
  fun x hx => h x (mem_of_mem_drop hx)

lemma Digits.take_of_le {j k : ℕ} (h : Digits b (ds.take k)) (hjk : j ≤ k) : Digits b
    (ds.take j) := by
  rw [← Nat.min_eq_left hjk, ← take_take]
  exact fun x hx => h x (mem_of_mem_take hx)

lemma Trimmed.drop {ds : List ℕ} (h : Trimmed ds) : ∀ n, Trimmed (ds.drop n)
  | 0 => h
  | n + 1 => by
    cases ds with
    | nil => exact h
    | cons d ds => exact h.tail.drop n

lemma leading_lt (hb : 0 < b) : ∀ (n : ℕ) {ds : List ℕ}, Digits b ds → leading b n ds < b ^ n
  | 0, _, _ => by simp [leading]
  | n + 1, [], _ => by positivity
  | n + 1, d :: ds, h => by
    have ih := leading_lt hb n h.tail
    calc leading b (n + 1) (d :: ds)
        = d * b ^ n + leading b n ds := rfl
      _ < d * b ^ n + b ^ n := by omega
      _ = (d + 1) * b ^ n := by ring
      _ ≤ b * b ^ n := Nat.mul_le_mul_right _ h.head
      _ = b ^ (n + 1) := by ring

/-- Horner's rule: one word more shifts the others up. -/
lemma leading_succ_last (b : ℕ) : ∀ (n : ℕ) (ds : List ℕ),
    leading b (n + 1) ds = leading b n ds * b + ds.getD n 0
  | 0, ds => by cases ds <;> simp [leading]
  | n + 1, [] => by simp
  | n + 1, d :: ds => by
    have ih := leading_succ_last b n ds
    rw [leading_succ, leading_succ b n (d :: ds), headD_cons, tail_cons, ih, getD_cons_succ]
    ring

lemma leading_congr (h : ∀ i < n, ds.getD i 0 = es.getD i 0) : leading b n ds = leading b n es := by
  induction n with
  | zero => rfl
  | succ n ih =>
    rw [leading_succ_last, leading_succ_last, ih fun i hi => h i (Nat.lt_succ_of_lt hi),
      h n (Nat.lt_succ_self n)]

lemma leading_set_add (b p : ℕ) : ∀ {n k : ℕ} {ds : List ℕ}, k < n → k < ds.length →
    leading b n (ds.set k (ds.getD k 0 + p)) = leading b n ds + p * b ^ (n - 1 - k)
  | 0, _, _, hk, _ => absurd hk (Nat.not_lt_zero _)
  | _, _, [], _, hlen => absurd hlen (Nat.not_lt_zero _)
  | n + 1, 0, d :: ds, _, _ => by
    simp only [set_cons_zero, getD_cons_zero, leading, Nat.add_sub_cancel, Nat.sub_zero]
    ring
  | n + 1, k + 1, d :: ds, hk, hlen => by
    have ih := leading_set_add b p (Nat.lt_of_succ_lt_succ hk)
      (show k < ds.length from Nat.lt_of_succ_lt_succ hlen)
    rw [set_cons_succ, getD_cons_succ, leading, leading, ih,
      show n + 1 - 1 - (k + 1) = n - 1 - k by omega]
    ring

lemma leading_take {m : ℕ} (h : n ≤ m) (ds : List ℕ) :
    leading b n (ds.take m) = leading b n ds := by
  refine leading_congr fun i hi => ?_
  simp [getD_eq_getElem?_getD, show i < m by omega]

/-- Words past the end of the list only shift. -/
lemma leading_add_of_length_le (h : ds.length ≤ n) :
    ∀ k, leading b (n + k) ds = leading b n ds * b ^ k
  | 0 => by simp
  | k + 1 => by
    have hnone : ds[n + k]? = none := getElem?_eq_none (by omega)
    rw [← Nat.add_assoc, leading_succ_last, leading_add_of_length_le h k,
      getD_eq_getElem?_getD, hnone, Option.getD_none]
    ring

lemma leading_add (b n : ℕ) (ds : List ℕ) : ∀ k,
    leading b (n + k) ds = leading b n ds * b ^ k + leading b k (ds.drop n)
  | 0 => by simp [leading]
  | k + 1 => by
    rw [← Nat.add_assoc, leading_succ_last, leading_add b n ds k, leading_succ_last b k]
    simp only [getD_eq_getElem?_getD, getElem?_drop]
    ring

lemma leading_pos (hb : 0 < b) : ∀ {n : ℕ} {ds : List ℕ}, ds ≠ [] → ds.length ≤ n →
    Trimmed ds → 0 < leading b n ds
  | _, [], hne, _, _ => absurd rfl hne
  | 0, _ :: _, _, hlen, _ => absurd hlen (Nat.not_succ_le_zero _)
  | n + 1, [d], _, _, h => by
    have hd : 0 < d := Nat.pos_of_ne_zero fun h0 => h (by simp [h0])
    exact Nat.lt_of_lt_of_le (Nat.mul_pos hd (Nat.pow_pos hb)) (Nat.le_add_right _ _)
  | n + 1, d :: e :: ds, _, hlen, h => by
    have := leading_pos hb (cons_ne_nil e ds) (Nat.le_of_succ_le_succ hlen) h.tail
    rw [leading]
    omega

lemma pow_le_leading (hd : 0 < d) : b ^ n ≤ leading b (n + 1) (d :: ds) :=
  calc b ^ n ≤ d * b ^ n := Nat.le_mul_of_pos_left _ hd
    _ ≤ leading b (n + 1) (d :: ds) := Nat.le_add_right _ _

/-- A mantissa is its first `n` words followed by the mantissa of the others. -/
lemma mantissa_mul_pow (b : ℕ) (hb : b ≠ 0) : ∀ (n : ℕ) (ds : List ℕ),
    mantissa b ds * (b : ℚ) ^ n = b * leading b n ds + mantissa b (ds.drop n)
  | 0, ds => by simp [leading]
  | n + 1, [] => by simp [mantissa]
  | n + 1, d :: ds => by
    have ih := mantissa_mul_pow b hb n ds
    simp only [leading, Nat.cast_add, Nat.cast_mul, Nat.cast_pow]
    calc ((d : ℚ) + mantissa b ds / b) * b ^ (n + 1)
        = d * b ^ (n + 1) + mantissa b ds * b ^ n := by field_simp; ring
      _ = b * (d * b ^ n + leading b n ds) + mantissa b (ds.drop n) := by rw [ih]; ring

lemma leading_lt_of_head_lt {u : ℕ} (hb : 0 < b) (us : List ℕ)
    (hds : Digits b ds) (h : d < u) : leading b (n + 1) (d :: ds) < leading b (n + 1) (u :: us) :=
  calc leading b (n + 1) (d :: ds)
      = d * b ^ n + leading b n ds := rfl
    _ < d * b ^ n + b ^ n := by have := leading_lt hb n hds; omega
    _ = (d + 1) * b ^ n := by ring
    _ ≤ u * b ^ n := Nat.mul_le_mul_right _ h
    _ ≤ leading b (n + 1) (u :: us) := Nat.le_add_right _ _

/-! ## Trailing zero words -/

/-- The list without the zero words at its end. -/
def trim : List ℕ → List ℕ
  | [] => []
  | d :: ds => if trim ds = [] ∧ d = 0 then [] else d :: trim ds

lemma trim_cons_of_ne (h : ¬ (trim ds = [] ∧ d = 0)) :
    trim (d :: ds) = d :: trim ds := by rw [trim, if_neg h]

lemma trimmed_trim : ∀ ds, Trimmed (trim ds)
  | [] => by simp [Trimmed, trim]
  | d :: ds => by
    have ih := trimmed_trim ds
    rw [trim]
    split_ifs with h
    · simp [Trimmed]
    · cases hds : trim ds with
      | nil => simpa [Trimmed, hds] using h
      | cons e es => rwa [hds, Trimmed, ← getLast?_cons_cons (a := d)] at ih

lemma take_length_trim : ∀ ds : List ℕ, ds.take (trim ds).length = trim ds
  | [] => rfl
  | d :: ds => by
    rw [trim]
    split_ifs with h
    · rfl
    · rw [length_cons, take_succ_cons, take_length_trim ds]

lemma length_trim_le (ds : List ℕ) : (trim ds).length ≤ ds.length := by
  rw [← take_length_trim ds, length_take]
  exact Nat.min_le_right _ _

lemma digits_trim (h : Digits b ds) : Digits b (trim ds) := by
  rw [← take_length_trim ds]
  exact fun x hx => h x (mem_of_mem_take hx)

lemma trim_eq_nil : ∀ {ds : List ℕ}, trim ds = [] → ∀ (b n : ℕ), leading b n ds = 0
  | [], _, b, n => leading_nil b n
  | d :: ds, h, b, n => by
    rw [trim] at h
    split_ifs at h with h0
    cases n with
    | zero => rfl
    | succ n => rw [leading, h0.2, trim_eq_nil h0.1 b n, Nat.zero_mul]

lemma leading_trim (b : ℕ) : ∀ (n : ℕ) (ds : List ℕ), leading b n (trim ds) = leading b n ds
  | 0, _ => rfl
  | n + 1, [] => rfl
  | n + 1, d :: ds => by
    rw [trim]
    split_ifs with h
    · rw [leading, h.2, trim_eq_nil h.1, leading_nil, Nat.zero_mul]
    · rw [leading, leading, leading_trim b n ds]

lemma trim_append_zero : ∀ ds : List ℕ, trim (ds ++ [0]) = trim ds
  | [] => rfl
  | d :: ds => by rw [cons_append, trim, trim, trim_append_zero ds]

lemma trim_append_of_ne {x : ℕ} (hx : x ≠ 0) : ∀ ds : List ℕ, trim (ds ++ [x]) = ds ++ [x]
  | [] => by simp [trim, hx]
  | d :: ds => by
    rw [cons_append, trim, trim_append_of_ne hx ds]
    simp

lemma head_trim (h : ds.head? ≠ some 0) : (trim ds).head? ≠ some 0 := by
  cases ds with
  | nil => exact h
  | cons d ds =>
    have hd : d ≠ 0 := by simpa using h
    rw [trim_cons_of_ne fun h0 => hd h0.2]
    exact h

end Positional
