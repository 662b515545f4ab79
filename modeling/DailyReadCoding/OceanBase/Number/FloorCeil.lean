import DailyReadCoding.OceanBase.Number.Compare
import DailyReadCoding.OceanBase.Number.Rounding

/-!
# `floor` and `ceil`

Both functions clear the words behind the point and, when they round away from zero, add one to the
last word in front of it.  What they do not do is drop the zero words that are then left at the end.
So the value is always right, and the form is not: a number that ends in a zero word differs, for
`is_equal` and `compare`, from the same number without it.
-/

namespace OceanBase.Number

open Positional ObNumber List Nat

def POSITIVE_EXP_BOUNDARY : ℤ := 0xc0
def NEGATIVE_EXP_BOUNDARY : ℤ := 0x40

/-- The codes of the functions that change a number in place. -/
inductive Ret
  | success
  | invalidArgument
  | errUnexpected
  deriving DecidableEq, Repr

/-! ## The functions -/

namespace ObNumber

/-- The number of words in front of the point, `-1` for a number below one. -/
def intLen (n : ObNumber) : ℤ :=
  let k : ℤ :=
    match n.d.sign with
    | .positive => n.d.se - POSITIVE_EXP_BOUNDARY
    | .negative => NEGATIVE_EXP_BOUNDARY - n.d.se
  if k ≥ 0 then k + 1 else -1

/-- Clears `k` words from word `i` on. -/
def zeroWords (digits : List ℕ) (i : ℕ) : ℕ → List ℕ
  | 0 => digits
  | k + 1 => zeroWords (digits.set i 0) (i + 1) k

/-- Adds one to the integer made of the first `k` words, the last first. -/
def incrWords (digits : List ℕ) : ℕ → List ℕ
  | 0 => digits
  | i + 1 =>
    if BASE - 1 ≠ digits.getD i 0 then digits.set i (digits.getD i 0 + 1)
    else incrWords (digits.set i 0) i

/-- Moves the first `k` words one place on, the last first. -/
def shiftWords (digits : List ℕ) : ℕ → List ℕ
  | 0 => digits
  | i + 1 => shiftWords (digits.set (i + 1) (digits.getD i 0)) i

def floor (n : ObNumber) (scale : ℤ) : Ret × ObNumber :=
  if scale ≠ 0 then (.invalidArgument, n)
  else if n.isZero then (.success, n)
  else if n.intLen > 0 ∧ n.intLen < n.d.len then
    let k := n.intLen.toNat
    let cleared := zeroWords n.digits k (n.d.len - k)
    let m : ObNumber :=
      match n.d.sign with
      | .positive => { n with digits := cleared }
      | .negative =>
        let incremented := incrWords cleared k
        if incremented.getD 0 0 = 0 then
          ⟨{ n.d with exp := (n.d.exp + 127) % 128 }, (shiftWords incremented k).set 0 1⟩
        else { n with digits := incremented }
    (.success, if n.intLen < MAX_STORE_LEN then { m with d := { m.d with len := k } } else m)
  else if n.intLen = -1 then
    let m : ObNumber := { n with digits := zeroWords n.digits 0 n.d.len }
    (.success,
      match n.d.sign with
      | .positive => m.setZero
      | .negative => ⟨⟨1, 0x40, .negative⟩, m.digits.set 0 1⟩)
  else (.success, n)

def ceil (n : ObNumber) (scale : ℤ) : Ret × ObNumber :=
  if scale ≠ 0 then (.invalidArgument, n)
  else if n.isZero then (.success, n)
  else if n.intLen > 0 ∧ n.intLen < n.d.len then
    let k := n.intLen.toNat
    let cleared := zeroWords n.digits k (n.d.len - k)
    let m : ObNumber := ⟨{ n.d with len := k }, cleared⟩
    (.success,
      match n.d.sign with
      | .positive =>
        let incremented := incrWords cleared k
        if incremented.getD 0 0 = 0 then
          -- `int_len` is less than `len_`, so that there is room for one word more
          ⟨⟨k + 1, (m.d.exp + 1) % 128, m.d.sign⟩, (shiftWords incremented k).set 0 1⟩
        else { m with digits := incremented }
      | .negative => m)
  else if n.intLen < 0 then
    let m : ObNumber := { n with digits := zeroWords n.digits 0 n.d.len }
    (.success,
      match n.d.sign with
      | .positive => ⟨⟨1, 0x40, .positive⟩, m.digits.set 0 1⟩
      | .negative => m.setZero)
  else (.success, n)

end ObNumber

/-- The two functions, and the integer each of them is for. -/
inductive IntegerPart
  | floor
  | ceil
  deriving DecidableEq, Repr

namespace IntegerPart

def run : IntegerPart → ObNumber → Ret × ObNumber
  | .floor, n => n.floor 0
  | .ceil, n => n.ceil 0

def exact : IntegerPart → ℚ → ℤ
  | .floor, x => ⌊x⌋
  | .ceil, x => ⌈x⌉

/-- Whether a number of this sign is rounded away from zero. -/
def awayFromZero : IntegerPart → Sign → Bool
  | .floor, s => s == .negative
  | .ceil, s => s == .positive

/-- The length of a number whose `k + 1` integer words were all full. -/
def carryLen : IntegerPart → ℕ → ℕ
  | .floor, k => k + 1
  | .ceil, k => k + 2

/-- Nothing is to be cleared, or the last integer word does not become zero. When all integer words
carry, only `floor` of a single one leaves no zero word. -/
def KeepsForm (op : IntegerPart) (n : ObNumber) : Prop :=
  0 < n.intLen ∧ n.intLen < n.d.len →
    if op.awayFromZero n.d.sign then
      n.digits.getD (n.intLen - 1).toNat 0 ≠ BASE - 1 ∨ (op = .floor ∧ n.intLen = 1)
    else n.digits.getD (n.intLen - 1).toNat 0 ≠ 0

/-- The function succeeds with a normalized number, equal to a canonical one for `is_equal` and
`compare`. -/
def Canonical (op : IntegerPart) (n : ObNumber) : Prop :=
  ∃ r, op.run n = (.success, r) ∧ Normalized r
    ∧ (∃ c, Normalized c ∧ c.value = op.exact n.value)
    ∧ ∀ c, Normalized c → c.value = op.exact n.value →
        isEqualV2 r.d r.digits c.d c.digits = true ∧ compare r.d r.digits c.d c.digits = 0

end IntegerPart

/-! ## The loops -/

namespace ObNumber

@[simp] lemma length_zeroWords : ∀ (k i : ℕ) (ds : List ℕ), (zeroWords ds i k).length = ds.length
  | 0, _, _ => rfl
  | k + 1, i, ds => by rw [zeroWords, length_zeroWords k, length_set]

lemma take_zeroWords : ∀ (k : ℕ) {j i : ℕ} (ds : List ℕ), j ≤ i →
    (zeroWords ds i k).take j = ds.take j
  | 0, _, _, _, _ => rfl
  | k + 1, j, i, ds, h => by
    rw [zeroWords, take_zeroWords k _ (h.trans (le_succ i)), take_set_of_le h]

lemma findCarry_set {i : ℕ} (ds : List ℕ) (x : ℕ) : ∀ {k : ℕ}, k ≤ i →
    findCarry (ds.set i x) k = findCarry ds k
  | 0, _ => rfl
  | k + 1, h => by
    have hget : (ds.set i x).getD k 0 = ds.getD k 0 := by
      simp [getD_eq_getElem?_getD, show i ≠ k by omega]
    rw [findCarry, findCarry, hget, findCarry_set ds x (le_of_succ_le h)]

lemma drop_set_self {ds : List ℕ} {k : ℕ} (hk : k < ds.length) (x : ℕ) :
    (ds.set k x).drop k = x :: ds.drop (k + 1) := by
  rw [drop_eq_getElem_cons (by simpa), getElem_set_self, drop_set_of_lt (lt_succ_self k)]

lemma replicate_append_zero (k : ℕ) (ds : List ℕ) :
    replicate k 0 ++ 0 :: ds = replicate (k + 1) 0 ++ ds := by
  rw [replicate_succ', append_assoc, singleton_append]

/-- The loop increments the last word that is not full, and clears the words behind it. -/
lemma incrWords_some {j : ℕ} : ∀ {k : ℕ} {ds : List ℕ}, k ≤ ds.length → findCarry ds k = some j →
    incrWords ds k = ds.take j ++ (ds.getD j 0 + 1) :: (replicate (k - 1 - j) 0 ++ ds.drop k)
  | k + 1, ds, hk, h => by
    rw [findCarry, MAX_VALUED_DIGIT] at h
    rw [incrWords]
    split_ifs at h with hfull
    · have hj := (leading_of_findCarry_some (le_of_succ_le hk) h).1
      have ih := incrWords_some (by rw [length_set]; omega) ((findCarry_set ds 0 le_rfl).trans h)
      have hget : (ds.set k 0).getD j 0 = ds.getD j 0 := by
        simp [getD_eq_getElem?_getD, show k ≠ j by omega]
      rw [if_neg (not_not.2 hfull.symm), ih, take_set_of_le hj.le, hget, drop_set_self hk,
        replicate_append_zero, show k - 1 - j + 1 = k + 1 - 1 - j by omega]
    · obtain rfl : k = j := by simpa using h
      rw [if_pos (Ne.symm hfull), set_eq_take_append_cons_drop, if_pos (lt_of_succ_le hk)]
      simp

/-- The increment loop, by the last word that is not full. -/
lemma incrWords_none : ∀ {k : ℕ} {ds : List ℕ}, k ≤ ds.length → findCarry ds k = none →
    incrWords ds k = replicate k 0 ++ ds.drop k
  | 0, _, _, _ => rfl
  | k + 1, ds, hk, h => by
    rw [findCarry, MAX_VALUED_DIGIT] at h
    split_ifs at h with hfull
    have ih := incrWords_none (by rw [length_set]; omega) ((findCarry_set ds 0 le_rfl).trans h)
    rw [incrWords, if_neg (not_not.2 hfull.symm), ih, drop_set_self hk, replicate_append_zero]

lemma length_incrWords : ∀ (k : ℕ) (ds : List ℕ), (incrWords ds k).length = ds.length
  | 0, _ => rfl
  | k + 1, ds => by
    rw [incrWords]
    split_ifs
    · exact length_set
    · rw [length_incrWords k, length_set]

lemma shiftWords_eq : ∀ {k : ℕ} {ds : List ℕ}, k < ds.length →
    shiftWords ds k = ds.take 1 ++ (ds.take k ++ ds.drop (k + 1))
  | 0, ds, _ => by rw [shiftWords, take_zero, nil_append, take_append_drop]
  | k + 1, ds, hk => by
    have hsplit : ds.take (k + 1) = ds.take k ++ [ds.getD k 0] := by
      rw [take_add_one, getElem?_eq_getElem (by omega), getD_of_lt (by omega)]
      rfl
    rw [shiftWords, shiftWords_eq (by rw [length_set]; omega), drop_set_self hk,
      take_set_of_le (le_add_left 1 k), take_set_of_le (le_succ k), hsplit]
    simp

end ObNumber

/-! ## An integer in words -/

/-- The integer with the words `ws`, the first counting `BASE ^ k`, and perhaps zero words at the
end. -/
structure IntegerForm (r : ObNumber) (s : Sign) (k : ℕ) (ws : List ℕ) : Prop where
  sign_eq : r.d.sign = s
  exp_eq : r.d.exp = calcExp s k
  words_eq : r.words = ws
  stored : r.d.len ≤ r.digits.length
  exp_le : k ≤ 8
  ne_nil : ws ≠ []
  length_le : ws.length ≤ k + 1
  digits : Digits BASE ws
  first : ws.head? ≠ some 0

namespace IntegerForm

variable {r : ObNumber} {s : Sign} {k : ℕ} {ws : List ℕ}

theorem value_eq (h : IntegerForm r s k ws) : r.value = s.factor * leading BASE (k + 1) ws := by
  have hk := h.exp_le
  have hdec : getDecodeExp r.d = k := by
    have := getDecodeExp_calcExp (e := k) (by omega) (by omega) r.d.len r.d.sign
    rwa [h.sign_eq, ← h.exp_eq, ← h.sign_eq] at this
  have hsplit := mantissa_mul_pow BASE (by simp [BASE]) (k + 1) ws
  rw [drop_of_length_le h.length_le, mantissa, pow_succ] at hsplit
  have hb := base_pos
  rw [value_eq_mantissa h.stored, hdec, h.sign_eq, h.words_eq, zpow_natCast]
  congr 1
  refine mul_right_cancel₀ hb.ne' ?_
  linarith

/-- Only a zero word at the end keeps such a number from being normalized. -/
theorem normalized_iff (h : IntegerForm r s k ws) : Normalized r ↔ Trimmed ws := by
  have hk := h.exp_le
  have hlen : ws.length = r.d.len := by rw [← h.words_eq, words_length h.stored]
  have hle := h.length_le
  constructor
  · rintro (hz | ⟨e, hn, -⟩)
    · have hnil : ws = [] := by rw [← length_eq_zero_iff, hlen, hz]
      exact absurd hnil h.ne_nil
    · exact h.words_eq ▸ hn.last
  · intro hlast
    have hpos := length_pos_of_ne_nil h.ne_nil
    refine .inr ⟨k, ⟨by omega, ?_, h.stored, ?_, ?_, ?_, ?_⟩, ?_⟩
    · rw [MAX_STORE_LEN]; omega
    · rw [h.words_eq]; exact h.digits
    · rw [h.words_eq]; exact h.first
    · rw [h.words_eq]; exact hlast
    · rw [h.sign_eq]; exact h.exp_eq
    · simp only [InLimits, MAX_DECIMAL_EXP, MAX_INTEGER_EXP]; omega

end IntegerForm

lemma Normal.intLen_eq {n : ObNumber} {e : ℤ} (h : Normal n e) (he : InLimits e) :
    n.intLen = if 0 ≤ e then e + 1 else -1 := by
  have hse := h.se_eq he
  cases hs : n.d.sign with
  | negative =>
    simp only [intLen, hs, hse, NEGATIVE_EXP_BOUNDARY]
    split_ifs <;> omega
  | positive =>
    simp only [intLen, hs, hse, POSITIVE_EXP_BOUNDARY]
    split_ifs <;> omega

/-! ## Numbers with a fraction -/

lemma trimmed_append_zeros (ws : List ℕ) {x : ℕ} (hx : x ≠ 0) (m : ℕ) :
    Trimmed (ws ++ x :: replicate m 0) ↔ m = 0 := by
  cases m with
  | zero => simpa [Trimmed] using hx
  | succ m => simp [Trimmed, getLast?_append, getLast?_cons, getLast?_replicate]

lemma leading_append_zeros (b n x m : ℕ) (ws : List ℕ) :
    leading b n (ws ++ x :: replicate m 0) = leading b n (ws ++ [x]) := by
  refine leading_congr fun i _ => ?_
  simp only [getD_eq_getElem?_getD, getElem?_append, getElem?_cons, getElem?_replicate]
  split_ifs <;> simp

section Fraction

variable {n : ObNumber} {k : ℕ} {ds : List ℕ}

variable (h : Normal n k) (hlt : k + 1 < n.d.len) (hds : ds.take (k + 1) = n.words.take (k + 1))
  (hlen : ds.length = n.digits.length)

include h hlt hds hlen

/-- What is left when the words behind the point are cut off. -/
lemma Normal.integerForm_take :
    IntegerForm ⟨⟨k + 1, n.d.exp, n.d.sign⟩, ds⟩ n.d.sign k (n.words.take (k + 1)) := by
  have hle := h.len_le
  have hstored := h.stored
  obtain ⟨d, ws, hw, hd⟩ := h.words_eq_cons
  rw [MAX_STORE_LEN] at hle
  refine ⟨rfl, h.exp_eq, hds, by simp only; omega, by omega, ?_, by simp, ?_, ?_⟩
  · rw [hw]; simp
  · exact fun x hx => h.digits x (mem_of_mem_take hx)
  · rw [hw]; simpa using hd.ne'

/-- The integer words after the increment, when one of them is not full. -/
lemma Normal.integerForm_incr {j : ℕ} (hj : findCarry ds (k + 1) = some j) :
    IntegerForm ⟨⟨k + 1, n.d.exp, n.d.sign⟩, incrWords ds (k + 1)⟩ n.d.sign k
      (ds.take j ++ (ds.getD j 0 + 1) :: replicate (k - j) 0) := by
  have hle := h.len_le
  have hstored := h.stored
  rw [MAX_STORE_LEN] at hle
  have hk : k + 1 ≤ ds.length := by omega
  obtain ⟨hjk, hfull, -⟩ := leading_of_findCarry_some hk hj
  rw [MAX_VALUED_DIGIT] at hfull
  have hdigits : Digits BASE (ds.take (k + 1)) := by
    rw [hds]
    exact fun x hx => h.digits x (mem_of_mem_take hx)
  have hword : ds.getD j 0 < BASE := by
    have := digits_getD hdigits j
    simpa [getD_eq_getElem?_getD, hjk] using this
  have hwords : (incrWords ds (k + 1)).take (k + 1)
      = ds.take j ++ (ds.getD j 0 + 1) :: replicate (k - j) 0 := by
    rw [incrWords_some hk hj, ← cons_append, ← append_assoc, Nat.add_sub_cancel]
    exact take_left' (by simp; omega)
  refine ⟨rfl, h.exp_eq, hwords, ?_, by omega, by simp, by simp; omega, ?_, ?_⟩
  · rw [length_incrWords]
    exact hk
  · intro x hx
    simp only [mem_append, mem_cons, mem_replicate] at hx
    rcases hx with hx | rfl | ⟨-, rfl⟩
    · exact hdigits.take_of_le hjk.le x hx
    · omega
    · exact base_pos_nat
  · obtain ⟨d, ws, hw, hd⟩ := h.words_eq_cons
    cases ds with
    | nil => simp at hk
    | cons d' ds =>
      obtain ⟨rfl, -⟩ : d' = d ∧ ds.take k = ws.take k := by rw [hw] at hds; simpa using hds
      cases j with
      | zero => simp
      | succ j => simpa using hd.ne'

omit h hlt hds hlen

/-- All integer words are full: a new first word. -/
lemma Normal.integerForm_carry (h : Normal n k) (he : InLimits k) (hlt : k + 1 < n.d.len)
    (hlen : ds.length = n.digits.length) (hnone : findCarry ds (k + 1) = none) {m : ℕ}
    (hm : m ≤ k + 1) :
    IntegerForm ⟨⟨m + 1, bumpExp n.d, n.d.sign⟩,
    (shiftWords (incrWords ds (k + 1)) (k + 1)).set 0 1⟩
      n.d.sign (k + 1) (1 :: replicate m 0) := by
  have hle := h.len_le
  have hstored := h.stored
  rw [MAX_STORE_LEN] at hle
  have hk : k + 1 < ds.length := by omega
  have hshift : (shiftWords (incrWords ds (k + 1)) (k + 1)).set 0 1
      = 1 :: (replicate (k + 1) 0 ++ ds.drop (k + 2)) := by
    have htake : (incrWords ds (k + 1)).take (k + 1) = replicate (k + 1) 0 := by
      rw [incrWords_none hk.le hnone]
      exact take_left' (by simp)
    have hdrop : (incrWords ds (k + 1)).drop (k + 1 + 1) = ds.drop (k + 2) := by
      rw [incrWords_none hk.le hnone, drop_append]
      simp
    have hone : (incrWords ds (k + 1)).take 1 = [0] := by
      rw [incrWords_none hk.le hnone]
      rfl
    rw [shiftWords_eq (by rw [length_incrWords]; exact hk), htake, hdrop, hone]
    rfl
  have hlenDrop : (ds.drop (k + 2)).length = ds.length - (k + 2) := length_drop
  refine ⟨rfl, ?_, ?_, ?_, by omega, by simp, by simpa using hm, ?_, by simp⟩
  · exact_mod_cast bumpExp_eq he h.exp_eq
  · rw [words, hshift, take_succ_cons, take_append_of_le_length (by simpa using hm),
      take_replicate, min_eq_left hm]
  · rw [hshift]
    simp only [length_cons, length_append, length_replicate, hlenDrop]
    omega
  · intro x hx
    simp only [mem_cons, mem_replicate] at hx
    rcases hx with rfl | ⟨-, rfl⟩
    · decide
    · exact base_pos_nat

end Fraction

/-! ## The two functions -/

lemma take_one_set {ds : List ℕ} (h : 0 < ds.length) (x : ℕ) : (ds.set 0 x).take 1 = [x] :=
  take_succ_set h x

namespace IntegerPart

/-- Rounding a number with a fraction, by its magnitude. -/
lemma exact_add (op : IntegerPart) (s : Sign) (v : ℕ) {f : ℚ} (h0 : 0 < f) (h1 : f < 1) :
    (op.exact (s.factor * (v + f)) : ℚ)
      = s.factor * (if op.awayFromZero s then v + 1 else v : ℕ) := by
  have hup : (⌈(v : ℚ) + f⌉ : ℤ) = v + 1 := by
    rw [Int.ceil_eq_iff]
    push_cast
    constructor <;> linarith
  have hdown : (⌊(v : ℚ) + f⌋ : ℤ) = v := by
    rw [Int.floor_eq_iff]
    push_cast
    constructor <;> linarith
  cases s with
  | negative =>
    rw [Sign.factor, neg_one_mul, neg_one_mul]
    cases op with
    | floor => simp [exact, awayFromZero, Int.floor_neg, hup, -neg_add_rev]
    | ceil => simp [exact, awayFromZero, Int.ceil_neg, hdown, -neg_add_rev]
  | positive =>
    rw [Sign.factor, one_mul, one_mul]
    cases op with
    | floor => simp [exact, awayFromZero, hdown]
    | ceil => simp [exact, awayFromZero, hup]

lemma exact_nat (op : IntegerPart) (s : Sign) (v : ℕ) :
    (op.exact (s.factor * v) : ℚ) = s.factor * v := by
  obtain ⟨z, hint⟩ : ∃ z : ℤ, s.factor * (v : ℚ) = z := by
    cases s
    · exact ⟨-v, by simp [Sign.factor]⟩
    · exact ⟨v, by simp [Sign.factor]⟩
  rw [hint]
  cases op with
  | floor => rw [exact, Int.floor_intCast]
  | ceil => rw [exact, Int.ceil_intCast]

variable {n : ObNumber}

variable (op : IntegerPart)

lemma run_of_integer (hzero : n.isZero = false) (hint : 0 < n.intLen)
    (hlen : n.d.len ≤ n.intLen) : op.run n = (.success, n) := by
  have h1 : ¬ (n.intLen > 0 ∧ n.intLen < n.d.len) := by omega
  have h2 : ¬ n.intLen = -1 := by omega
  have h3 : ¬ n.intLen < 0 := by omega
  cases op with
  | floor => simp [run, ObNumber.floor, hzero, h1, h2]
  | ceil => simp [run, ObNumber.ceil, hzero, h1, h3]

lemma run_of_small (hzero : n.isZero = false) (hint : n.intLen = -1) : op.run n = (.success,
      if op.awayFromZero n.d.sign then ⟨⟨1, 0x40, n.d.sign⟩, (zeroWords n.digits 0 n.d.len).set 0 1⟩
      else (ObNumber.mk n.d (zeroWords n.digits 0 n.d.len)).setZero) := by
  cases op with
  | floor => cases hs : n.d.sign <;> simp [run, ObNumber.floor, hzero, hint,
      awayFromZero, hs, setZero]
  | ceil => cases hs : n.d.sign <;> simp [run, ObNumber.ceil, hzero, hint,
      awayFromZero, hs, setZero]

/-- What both functions do with a fraction, in one form. -/
lemma run_of_fraction (hzero : n.isZero = false) {k : ℕ}
    (hint : n.intLen = k + 1) (hlt : k + 1 < n.d.len) (hle : n.d.len ≤ MAX_STORE_LEN) :
    op.run n = (.success, let cleared := zeroWords n.digits (k + 1) (n.d.len - (k + 1))
      let incremented := incrWords cleared (k + 1)
      if op.awayFromZero n.d.sign then
        if incremented.getD 0 0 = 0 then
          ⟨⟨op.carryLen k, bumpExp n.d, n.d.sign⟩, (shiftWords incremented (k + 1)).set 0 1⟩
        else ⟨⟨k + 1, n.d.exp, n.d.sign⟩, incremented⟩
      else ⟨⟨k + 1, n.d.exp, n.d.sign⟩, cleared⟩) := by
  have h1 : n.intLen > 0 ∧ n.intLen < n.d.len := by omega
  have hk : n.intLen.toNat = k + 1 := by omega
  have h9 : n.intLen < MAX_STORE_LEN := by omega
  cases op with
  | floor =>
    cases hs : n.d.sign with
    | negative =>
      simp only [run, ObNumber.floor, h1, hk, h9, awayFromZero, hs, bumpExp, carryLen,
        getD_eq_getElem?_getD]
      split_ifs <;> simp_all
    | positive => simp [run, ObNumber.floor, hzero, h1, hk, h9, awayFromZero, hs]
  | ceil =>
    cases hs : n.d.sign <;>
      simp [run, ObNumber.ceil, hzero, h1, hk, awayFromZero, hs, bumpExp, carryLen]

/-- The number below one that is rounded away from zero. -/
lemma one_integerForm {e : ℤ} (h : Normal n e) :
    IntegerForm ⟨⟨1, 0x40, n.d.sign⟩, (zeroWords n.digits 0 n.d.len).set 0 1⟩ n.d.sign 0 [1] := by
  have hpos := h.len_pos
  have hstored := h.stored
  refine ⟨rfl, ?_, take_one_set (by simp; omega) 1, by simp; omega, by omega, by simp, by simp,
    by decide, by simp⟩
  cases n.d.sign <;> rfl

/-- A number below one becomes zero or one. -/
lemma run_spec_small {e : ℤ} (h : Normal n e) (he : InLimits e) (hneg : e < 0) :
    ∃ r, op.run n = (.success, r) ∧ r.value = op.exact n.value
      ∧ (Normalized r ↔ op.KeepsForm n) := by
  have hint : n.intLen = -1 := by rw [h.intLen_eq he, if_neg (by omega)]
  have hkeeps : op.KeepsForm n := fun hfrac => by omega
  have hmag := h.magnitude_bounds
  have hlt : (BASE : ℚ) ^ (e + 1) ≤ 1 := by
    simpa using zpow_le_zpow_right₀ one_le_base (show e + 1 ≤ 0 by omega)
  have hexact := op.exact_add n.d.sign 0 ((zpow_pos base_pos e).trans_le hmag.1)
    (hmag.2.trans_le hlt)
  rw [cast_zero, zero_add, ← h.value_eq he] at hexact
  refine ⟨_, op.run_of_small h.isZero_eq hint, ?_, ?_⟩
  · rw [hexact]
    split_ifs
    · rw [(one_integerForm h).value_eq]
      simp [leading]
    · rw [value_of_zero rfl]
      simp
  · refine iff_of_true ?_ hkeeps
    split_ifs
    · exact (one_integerForm h).normalized_iff.2 (by decide)
    · exact .inl rfl

/-- A number without a fraction stays as it is. -/
lemma run_spec_integer {k : ℕ} (h : Normal n k) (he : InLimits k) (hle : n.d.len ≤ k + 1) :
    ∃ r, op.run n = (.success, r) ∧ r.value = op.exact n.value
      ∧ (Normalized r ↔ op.KeepsForm n) := by
  have hint : n.intLen = k + 1 := by rw [h.intLen_eq he, if_pos (by omega)]
  have hkeeps : op.KeepsForm n := fun hfrac => by omega
  obtain ⟨r, hmag, -, -, hexact, -⟩ := h.magnitude_split
  refine ⟨n, op.run_of_integer h.isZero_eq (by omega) (by omega), ?_,
    iff_of_true (.inr ⟨k, h, he⟩) hkeeps⟩
  rw [h.value_eq he, hmag, hexact hle, add_zero, op.exact_nat]

lemma keepsForm_iff {k : ℕ} (hint : n.intLen = k + 1) (hlt : k + 1 < n.d.len) : op.KeepsForm n ↔
      if op.awayFromZero n.d.sign then n.digits.getD k 0 ≠ BASE - 1 ∨ (op = .floor ∧ k = 0)
      else n.digits.getD k 0 ≠ 0 := by
  have hfrac : 0 < n.intLen ∧ n.intLen < n.d.len := by omega
  have hk : (n.intLen - 1).toNat = k := by omega
  have hone : n.intLen = 1 ↔ k = 0 := by omega
  simp only [KeepsForm, hfrac, hk, hone, and_self, forall_const]

lemma trimmed_take_succ {ds : List ℕ} {k : ℕ} (hk : k < ds.length) :
    Trimmed (ds.take (k + 1)) ↔ ds.getD k 0 ≠ 0 := by
  rw [Trimmed, take_add_one, getElem?_eq_getElem hk, getD_of_lt hk, Option.toList_some,
    getLast?_concat, Ne, Option.some.injEq]

/-- The words behind the point are cut off, and the last in front is incremented away from zero. -/
lemma run_spec_fraction {k : ℕ} (h : Normal n k) (he : InLimits k) (hlt : k + 1 < n.d.len) :
    ∃ r, op.run n = (.success, r) ∧ r.value = op.exact n.value
      ∧ (Normalized r ↔ op.KeepsForm n) := by
  have hint : n.intLen = k + 1 := by rw [h.intLen_eq he, if_pos (by omega)]
  obtain ⟨f, hmag, -, hf1, -, hf0⟩ := h.magnitude_split
  have hexact := op.exact_add n.d.sign (leading BASE (k + 1) n.words) (hf0 hlt) hf1
  rw [← hmag, ← h.value_eq he] at hexact
  refine ⟨_, op.run_of_fraction h.isZero_eq hint hlt h.len_le, ?_⟩
  rw [hexact, op.keepsForm_iff hint hlt]
  have hstored := h.stored
  have hlen : (zeroWords n.digits (k + 1) (n.d.len - (k + 1))).length = n.digits.length :=
    length_zeroWords _ _ _
  have hds : (zeroWords n.digits (k + 1) (n.d.len - (k + 1))).take (k + 1)
      = n.words.take (k + 1) := by
    rw [take_zeroWords _ _ le_rfl, words, take_take, min_eq_left hlt.le]
  have hlast : (zeroWords n.digits (k + 1) (n.d.len - (k + 1))).getD k 0 = n.digits.getD k 0 := by
    have := congrArg (getD · k 0) hds
    simpa [getD_eq_getElem?_getD, words, show k < n.d.len by omega] using this
  dsimp only
  generalize zeroWords n.digits (k + 1) (n.d.len - (k + 1)) = ds at *
  have hlead : leading BASE (k + 1) ds = leading BASE (k + 1) n.words := by
    rw [← leading_take le_rfl, hds, leading_take le_rfl]
  rw [← hlead, ← hlast]
  by_cases haway : op.awayFromZero n.d.sign = true
  · simp only [haway, if_true]
    cases hfind : findCarry ds (k + 1) with
    | none =>
      obtain ⟨m, hm, hle, hm0⟩ : ∃ m, op.carryLen k = m + 1 ∧ m ≤ k + 1
          ∧ (m = 0 ↔ op = .floor ∧ k = 0) := by
        cases op with
        | floor => exact ⟨k, rfl, le_succ k, by simp⟩
        | ceil => exact ⟨k + 1, rfl, le_rfl, by simp⟩
      have hform := h.integerForm_carry he hlt hlen hfind hle
      have hzero : (incrWords ds (k + 1)).getD 0 0 = 0 := by
        rw [incrWords_none (by omega) hfind]
        rfl
      have hfull : ds.getD k 0 = BASE - 1 := by
        rw [findCarry] at hfind
        split_ifs at hfind with hfull
        exact hfull
      have hone : leading BASE (k + 1 + 1) (1 :: replicate m 0) = leading BASE (k + 1) ds + 1 := by
        have hzeros := leading_append_zeros BASE (k + 1 + 1) 1 m []
        rw [nil_append, nil_append] at hzeros
        rw [leading_of_findCarry_none hfind, hzeros, leading, leading_nil, one_mul, add_zero]
      simp only [hzero, if_true, hm]
      rw [hform.value_eq, hform.normalized_iff, hone, hfull]
      have htrim := trimmed_append_zeros [] one_ne_zero m
      rw [nil_append] at htrim
      simp only [htrim, hm0, ne_eq, not_true, false_or, and_self]
    | some j =>
      have hform := h.integerForm_incr hlt hds hlen hfind
      obtain ⟨hj, hfull, hval⟩ := leading_of_findCarry_some (by omega) hfind
      have hhead : (incrWords ds (k + 1)).getD 0 0 ≠ 0 := by
        have hfirst := hform.first
        rw [← hform.words_eq, words, head?_take, if_neg (succ_ne_zero k),
          head?_eq_getElem?] at hfirst
        have hpos : 0 < (incrWords ds (k + 1)).length := by rw [length_incrWords]; omega
        rw [getD_of_lt hpos]
        rwa [getElem?_eq_getElem hpos, Ne, Option.some.injEq] at hfirst
      have hlastFull : k - j = 0 ↔ ds.getD k 0 ≠ BASE - 1 := by
        rw [findCarry] at hfind
        split_ifs at hfind with hk
        · have hjk := (leading_of_findCarry_some (by omega) hfind).1
          exact iff_of_false (by omega) (not_not.2 hk)
        · obtain rfl : k = j := by simpa using hfind
          exact iff_of_true (Nat.sub_self k) hk
      simp only [hhead, if_false]
      rw [hform.value_eq, hform.normalized_iff, leading_append_zeros, hval,
        trimmed_append_zeros _ (succ_ne_zero _), ← hlastFull]
      exact ⟨rfl, ⟨.inl, fun hor => hor.elim id fun hzero => by omega⟩⟩
  · have hform := h.integerForm_take hlt hds hlen
    simp only [haway, if_false, Bool.false_eq_true]
    rw [hform.value_eq, hform.normalized_iff, ← hds, leading_take le_rfl,
      trimmed_take_succ (by omega)]
    exact ⟨rfl, Iff.rfl⟩

/-- **The value is always the integer it should be**; the form is only kept under a condition. -/
theorem run_spec (hn : Normalized n) : ∃ r, op.run n = (.success, r) ∧ r.value = op.exact n.value
      ∧ (Normalized r ↔ op.KeepsForm n) := by
  rcases hn with hz | ⟨e, h, he⟩
  · have hkeeps : op.KeepsForm n := by
      rintro ⟨hpos, hlt⟩
      rw [hz] at hlt
      exact absurd hlt (by push_cast; omega)
    have hrun : op.run n = (.success, n) := by
      cases op with
      | floor => simp [run, ObNumber.floor, isZero, hz]
      | ceil => simp [run, ObNumber.ceil, isZero, hz]
    have hexact := op.exact_nat n.d.sign 0
    rw [cast_zero, mul_zero] at hexact
    refine ⟨n, hrun, ?_, iff_of_true (.inl hz) hkeeps⟩
    rw [value_of_zero hz, hexact]
  · rcases lt_or_ge e 0 with hneg | hnonneg
    · exact op.run_spec_small h he hneg
    · obtain ⟨k, rfl⟩ := Int.eq_ofNat_of_zero_le hnonneg
      rcases lt_or_ge (k + 1) n.d.len with hlt | hge
      · exact op.run_spec_fraction h he hlt
      · exact op.run_spec_integer h he hge

end IntegerPart

/-- **When `floor` and `ceil` leave the canonical number.** -/
theorem integerPart_canonical_iff (op : IntegerPart) (n : ObNumber) (hn : Normalized n) :
    op.Canonical n ↔ op.KeepsForm n := by
  obtain ⟨r, hrun, hvalue, hform⟩ := op.run_spec hn
  rw [← hform]
  constructor
  · rintro ⟨r', hrun', hr', -⟩
    obtain rfl : r = r' := congrArg Prod.snd (hrun.symm.trans hrun')
    exact hr'
  · intro hr
    refine ⟨r, hrun, hr, ⟨r, hr, hvalue⟩, ?_⟩
    intro c hc hcvalue
    have hcmp := hr.compare_eq hc
    rw [hvalue, hcvalue, sub_self, sign_zero] at hcmp
    exact ⟨(isEqualV2_iff hr.stored hc.stored).2 hcmp, hcmp⟩

/-- The floor of 2.5 and the ceiling of -2.5. -/
theorem integerPart_canonical_iff_half : let n : ObNumber := ⟨⟨2, 64, .positive⟩, [2, 500000000]⟩
    let m : ObNumber := ⟨⟨2, 64, .negative⟩, [2, 500000000]⟩
    Normalized n ∧ Normalized m ∧ IntegerPart.floor.Canonical n ∧ IntegerPart.ceil.Canonical m := by
  intro n m
  have hn : Normalized n := .inr ⟨0, by decide, by decide⟩
  have hm : Normalized m := .inr ⟨0, by decide, by decide⟩
  refine ⟨hn, hm, (integerPart_canonical_iff .floor n hn).2 ?_,
    (integerPart_canonical_iff .ceil m hm).2 ?_⟩
  · exact fun _ => by decide
  · exact fun _ => by decide

/-- The floor of 1000000000.5 keeps a zero word and compares greater than the number of the integer
1000000000; the ceiling of 999999999.5 is the same. -/
theorem floor_ceil_zero_word : let n : ObNumber := ⟨⟨3, 65, .positive⟩, [1, 0, 500000000]⟩
    let m : ObNumber := ⟨⟨2, 64, .positive⟩, [999999999, 500000000]⟩
    let c : ObNumber := ⟨⟨1, 65, .positive⟩, [1]⟩
    Normalized n ∧ Normalized m ∧ Normalized c
      ∧ c.value = ⌊n.value⌋ ∧ c.value = ⌈m.value⌉
      ∧ n.floor 0 = (.success, ⟨⟨2, 65, .positive⟩, [1, 0, 0]⟩)
      ∧ m.ceil 0 = (.success, ⟨⟨2, 65, .positive⟩, [1, 0]⟩)
      ∧ isEqualV2 ⟨2, 65, .positive⟩ [1, 0] c.d c.digits = false
      ∧ compare ⟨2, 65, .positive⟩ [1, 0] c.d c.digits = 1
      ∧ ¬ IntegerPart.floor.Canonical n ∧ ¬ IntegerPart.ceil.Canonical m := by
  intro n m c
  have hn : Normalized n := .inr ⟨1, by decide, by decide⟩
  have hm : Normalized m := .inr ⟨0, by decide, by decide⟩
  have hc : Normalized c := .inr ⟨1, by decide, by decide⟩
  have hfloor : n.floor 0 = (.success, ⟨⟨2, 65, .positive⟩, [1, 0, 0]⟩) := by decide +kernel
  have hceil : m.ceil 0 = (.success, ⟨⟨2, 65, .positive⟩, [1, 0]⟩) := by decide +kernel
  have hcvalue : c.value = 1000000000 := by
    rw [Normal.value_eq (e := 1) (by decide) (by decide)]
    norm_num [c, words, mantissa, Sign.factor, BASE]
  have hnvalue : n.value = 1000000000 + 1 / 2 := by
    rw [Normal.value_eq (e := 1) (by decide) (by decide)]
    norm_num [n, words, mantissa, Sign.factor, BASE]
  have hmvalue : m.value = 999999999 + 1 / 2 := by
    rw [Normal.value_eq (e := 0) (by decide) (by decide)]
    norm_num [m, words, mantissa, Sign.factor, BASE]
  have hfl : c.value = ⌊n.value⌋ := by
    rw [hcvalue, hnvalue]
    norm_num
  have hcl : c.value = ⌈m.value⌉ := by
    rw [hcvalue, hmvalue]
    norm_num
  refine ⟨hn, hm, hc, hfl, hcl, hfloor, hceil, by decide, by decide, ?_, ?_⟩
  · rintro ⟨r, hrun, -, -, hall⟩
    obtain rfl := congrArg Prod.snd (hfloor.symm.trans hrun)
    exact absurd (hall c hc hfl).2 (by decide)
  · rintro ⟨r, hrun, -, -, hall⟩
    obtain rfl := congrArg Prod.snd (hceil.symm.trans hrun)
    exact absurd (hall c hc hcl).2 (by decide)

end OceanBase.Number
