import DailyReadCoding.OceanBase.Number.FloorCeil

/-!
# Machine integers and numbers

`from_integer_` cuts a 64 bit integer into words of base `10⁹`, and `cast_to_int64` puts the words
together again.  Neither has a word for every place: zero words at the end are not stored, and those
in between are skipped over by a count.
-/

namespace OceanBase.Number

open Positional ObNumber List Nat Sign

/-! ## From an integer -/

/-- The arguments of the template: an `int64_t` or a `uint64_t`. -/
inductive IntegerT
  | int64 (value : BitVec 64)
  | uint64 (value : BitVec 64)
  deriving DecidableEq

namespace IntegerT

def toInt : IntegerT → ℤ
  | .int64 value => value.toInt
  | .uint64 value => value.toNat

/-- `std::labs` leaves `INT64_MIN` as it is, which is `2^63` as a `uint64_t`. -/
def absVal : IntegerT → ℕ
  | .int64 value => (if value.toInt < 0 then -value else value).toNat
  | .uint64 value => value.toNat

end IntegerT

def MAX_DIGITS (i : ℕ) : ℕ := [1, 1000000000, 1000000000000000000].getD i 0

/-- The variables of the loop of `from_integer_`. -/
structure Scan where
  absVal : ℕ
  exp : ℕ
  digits : List ℕ
  idx : ℕ
  zeroCnt : ℕ

/-- One round of the loop. -/
def Scan.step (s : Scan) (i : ℕ) : Scan :=
  if s.absVal ≥ MAX_DIGITS i then
    { absVal := s.absVal % MAX_DIGITS i
      exp := max s.exp i
      digits := s.digits.set (s.idx + s.zeroCnt) (s.absVal / MAX_DIGITS i % 2 ^ 32)
      idx := s.idx + s.zeroCnt + 1
      zeroCnt := 0 }
  else if s.exp > 0 then { s with zeroCnt := s.zeroCnt + 1 }
  else s

def Scan.start (absVal : ℕ) : Scan := ⟨absVal, 0, [0, 0, 0], 0, 0⟩

def Scan.run (absVal : ℕ) : Scan := [2, 1, 0].foldl Scan.step (Scan.start absVal)

/-- `from_integer_`, which assigns to `n`; `alloc` says whether the allocator has memory. -/
def fromInteger (alloc : Bool) (value : IntegerT) (n : ObNumber) : Except Err ObNumber :=
  if value.toInt = 0 then .ok n.setZero
  else
    let s := Scan.run value.absVal
    let sign : Sign := if value.toInt ≥ 0 then .positive else .negative
    if alloc = false then .error .allocateMemoryFailed
    else .ok ⟨⟨s.idx, calcExp sign s.exp, sign⟩, s.digits.take s.idx⟩

lemma MAX_DIGITS_eq : ∀ {i : ℕ}, i ≤ 2 → MAX_DIGITS i = BASE ^ i
  | 0, _ => rfl
  | 1, _ => rfl
  | 2, _ => rfl

/-- The loop has found the words `ws`, and the places below `i` are left. -/
structure Scan.Started (a i : ℕ) (ws : List ℕ) (s : Scan) : Prop where
  rest : s.absVal < BASE ^ i
  exp_le : s.exp ≤ 2
  places : s.idx + s.zeroCnt + i = s.exp + 1
  digits_eq : s.digits = ws ++ List.replicate (3 - ws.length) 0
  idx_eq : ws.length = s.idx
  ne_nil : ws ≠ []
  digits : Digits BASE ws
  first : ws.head? ≠ some 0
  last : Trimmed ws
  sum_eq : leading BASE (s.exp + 1 - i) ws * BASE ^ i + s.absVal = a

section Scan

variable {a i : ℕ} {ws : List ℕ} {s : Scan}

lemma word_of_place (hlo : BASE ^ i ≤ a) (hhi : a < BASE ^ (i + 1)) :
    a / BASE ^ i % 2 ^ 32 = a / BASE ^ i ∧ 0 < a / BASE ^ i ∧ a / BASE ^ i < BASE := by
  have hpow : 0 < BASE ^ i := Nat.pow_pos (by simp [BASE])
  have hlt : a / BASE ^ i < BASE := by
    rw [div_lt_iff_lt_mul hpow, mul_comm]
    exact hhi
  refine ⟨mod_eq_of_lt (hlt.trans (by simp [BASE])), div_pos hlo hpow, hlt⟩

lemma Scan.step_of_lt (hi : i ≤ 2) (h : s.absVal < BASE ^ i) :
    s.step i = if s.exp > 0 then { s with zeroCnt := s.zeroCnt + 1 } else s := by
  rw [step, MAX_DIGITS_eq hi, if_neg (by omega)]

lemma Scan.start_step (hi : i ≤ 2) (hlo : BASE ^ i ≤ a) (hhi : a < BASE ^ (i + 1)) :
    Scan.Started a i [a / BASE ^ i] ((Scan.start a).step i) := by
  obtain ⟨hword, hpos, hlt⟩ := word_of_place hlo hhi
  have hstep : (start a).step i
      = ⟨a % BASE ^ i, i, [a / BASE ^ i, 0, 0], 1, 0⟩ := by
    rw [step, MAX_DIGITS_eq hi, if_pos (show (start a).absVal ≥ BASE ^ i from hlo)]
    simp only [start, hword, Nat.zero_max, Nat.zero_add, set_cons_zero]
  rw [hstep]
  exact
    { rest := mod_lt _ (Nat.pow_pos (by simp [BASE]))
      exp_le := hi
      places := by simp [Nat.add_comm]
      digits_eq := rfl
      idx_eq := rfl
      ne_nil := by simp
      digits := by simpa [Digits] using hlt
      first := by simpa using hpos.ne'
      last := by simpa [Trimmed] using hpos.ne'
      sum_eq := by
        simp only [Nat.add_sub_cancel_left, leading, pow_zero, mul_one]
        exact div_add_mod' a _ }

/-- A place with nothing in it is counted and not stored. -/
lemma Scan.Started.step_skip (h : Scan.Started a (i + 1) ws s) (hlt : s.absVal < BASE ^ i) :
    Scan.Started a i ws (s.step i) := by
  have hplaces := h.places
  have hexp := h.exp_le
  have hidx := length_pos_of_ne_nil h.ne_nil
  rw [h.idx_eq] at hidx
  rw [step_of_lt (by omega) hlt, if_pos (by omega)]
  refine { h with rest := hlt, places := ?_, sum_eq := ?_ }
  · simp only
    omega
  · have hlen : ws.length ≤ s.exp + 1 - (i + 1) := by rw [h.idx_eq]; omega
    have hshift := leading_add_of_length_le (b := BASE) hlen 1
    rw [show s.exp + 1 - (i + 1) + 1 = s.exp + 1 - i by omega] at hshift
    have hsum := h.sum_eq
    rw [hshift, ← hsum]
    ring

lemma Scan.Started.step_word (h : Scan.Started a (i + 1) ws s) (hlo : BASE ^ i ≤ s.absVal) :
    Scan.Started a i (ws ++ replicate s.zeroCnt 0 ++ [s.absVal / BASE ^ i]) (s.step i) := by
  have hplaces := h.places
  have hexp := h.exp_le
  have hidx := h.idx_eq
  obtain ⟨hword, hpos, hlt⟩ := word_of_place hlo h.rest
  set d := s.absVal / BASE ^ i with hd
  have hstep : s.step i = ⟨s.absVal % BASE ^ i, s.exp,
      s.digits.set (s.idx + s.zeroCnt) d, s.idx + s.zeroCnt + 1, 0⟩ := by
    rw [step, MAX_DIGITS_eq (by omega), if_pos hlo, hword, max_eq_left (by omega)]
  rw [hstep]
  refine
    { rest := mod_lt _ (Nat.pow_pos (by simp [BASE]))
      exp_le := hexp
      places := by simp only; omega
      digits_eq := ?_
      idx_eq := by simp [hidx, add_assoc]
      ne_nil := by simp
      digits := ?_
      first := ?_
      last := by simpa [Trimmed] using hpos.ne'
      sum_eq := ?_ }
  · obtain ⟨r, hr⟩ : ∃ r, 3 - ws.length = s.zeroCnt + (1 + r) :=
      ⟨2 - ws.length - s.zeroCnt, by omega⟩
    rw [h.digits_eq, hr, ← hidx]
    simp [replicate_add, show 3 - (ws.length + (s.zeroCnt + 1)) = r by omega]
  · intro x hx
    simp only [mem_append, mem_replicate, mem_singleton] at hx
    rcases hx with (hx | ⟨-, rfl⟩) | rfl
    · exact h.digits x hx
    · simp [BASE]
    · exact hlt
  · obtain ⟨w, ws', rfl⟩ := exists_cons_of_ne_nil h.ne_nil
    exact h.first
  · have hsame : leading BASE (s.exp - i) (ws ++ replicate s.zeroCnt 0 ++ [d])
        = leading BASE (s.exp + 1 - (i + 1)) ws := by
      rw [Nat.add_sub_add_right]
      refine leading_congr fun j hj => ?_
      simp only [getD_eq_getElem?_getD, append_assoc]
      rcases lt_or_ge j ws.length with hj' | hj'
      · rw [getElem?_append_left hj']
      · rw [getElem?_append_right hj', getElem?_append_left (by simp; omega),
          getElem?_eq_none hj', getElem?_replicate, if_pos (by omega)]
        rfl
    have hlast : (ws ++ replicate s.zeroCnt 0 ++ [d]).getD (s.exp - i) 0 = d := by
      rw [show s.exp - i = (ws ++ replicate s.zeroCnt 0).length by simp; omega]
      simp
    have hsum := h.sum_eq
    have hdiv := div_add_mod' s.absVal (BASE ^ i)
    rw [← hd] at hdiv
    rw [pow_succ] at hsum
    rw [show s.exp + 1 - i = s.exp - i + 1 by omega, leading_succ_last, hsame, hlast]
    linarith

lemma Scan.Started.step (h : Scan.Started a (i + 1) ws s) :
    ∃ ws', Scan.Started a i ws' (s.step i) := by
  rcases lt_or_ge s.absVal (BASE ^ i) with hlt | hge
  · exact ⟨ws, h.step_skip hlt⟩
  · exact ⟨_, h.step_word hge⟩

/-- The rounds before the first word change nothing. -/
lemma Scan.start_step_of_lt (hi : i ≤ 2) (h : a < BASE ^ i) :
    (Scan.start a).step i = Scan.start a := by
  rw [step_of_lt hi (show (start a).absVal < BASE ^ i from h)]
  rfl

lemma Scan.run_started (hpos : 0 < a) (ha : a < 2 ^ 64) :
    ∃ ws, Scan.Started a 0 ws (Scan.run a) := by
  show ∃ ws, Scan.Started a 0 ws ((((start a).step 2).step 1).step 0)
  have hmax : a < BASE ^ 3 := ha.trans (by simp [BASE])
  rcases lt_or_ge a (BASE ^ 2) with h2 | h2
  · rw [start_step_of_lt le_rfl h2]
    rcases lt_or_ge a (BASE ^ 1) with h1 | h1
    · rw [start_step_of_lt (by omega) h1]
      exact ⟨_, start_step (by omega) hpos h1⟩
    · exact (start_step (by omega) h1 h2).step
  · obtain ⟨ws, h⟩ := (start_step le_rfl h2 hmax).step
    exact h.step

/-- Nothing is left at the end, so the words are the whole integer. -/
lemma Scan.Started.leading_eq (h : Scan.Started a 0 ws s) : leading BASE (s.exp + 1) ws = a := by
  have hrest := h.rest
  have hsum := h.sum_eq
  rw [pow_zero, lt_one_iff] at hrest
  rwa [hrest, pow_zero, mul_one, Nat.sub_zero, add_zero] at hsum

lemma Scan.Started.integerForm (h : Scan.Started a 0 ws s) (sign : Sign) :
    IntegerForm ⟨⟨s.idx, calcExp sign s.exp, sign⟩, s.digits.take s.idx⟩ sign s.exp ws := by
  have hplaces := h.places
  have hexp := h.exp_le
  have hidx := h.idx_eq
  have hwords : s.digits.take s.idx = ws := by rw [h.digits_eq, ← hidx, take_left]
  exact
    { sign_eq := rfl
      exp_eq := rfl
      words_eq := by simp [words, hwords, hidx]
      stored := by simp only [hwords]; omega
      exp_le := by omega
      ne_nil := h.ne_nil
      length_le := by omega
      digits := h.digits
      first := h.first }

end Scan

open Scan

namespace IntegerT

lemma absVal_lt (v : IntegerT) : v.absVal < 2 ^ 64 := by
  cases v with
  | int64 value => exact BitVec.isLt _
  | uint64 value => exact value.isLt

lemma absVal_eq (v : IntegerT) : v.absVal = v.toInt.natAbs := by
  cases v with
  | uint64 value => simp [absVal, toInt]
  | int64 value =>
    have hint := BitVec.toInt_eq_toNat_cond value
    by_cases hneg : value.toInt < 0
    · rw [absVal, if_pos hneg, BitVec.toNat_neg, toInt]
      split_ifs at hint <;> omega
    · rw [absVal, if_neg hneg, toInt]
      split_ifs at hint <;> omega

end IntegerT

/-- **A machine integer becomes a normalized number of its value.** -/
theorem fromInteger_spec (v : IntegerT) (n : ObNumber) :
    ∃ r, fromInteger true v n = .ok r ∧ Normalized r ∧ r.value = v.toInt := by
  rw [fromInteger]
  by_cases hzero : v.toInt = 0
  · rw [hzero]
    exact ⟨_, rfl, .inl rfl, by simpa using value_of_zero rfl⟩
  · rw [if_neg hzero]
    have habs := v.absVal_eq
    obtain ⟨ws, h⟩ := run_started (by omega) v.absVal_lt
    have hform := h.integerForm (if v.toInt ≥ 0 then .positive else .negative)
    refine ⟨_, rfl, hform.normalized_iff.2 h.last, ?_⟩
    rw [hform.value_eq, h.leading_eq, habs]
    split_ifs with hsign
    · rw [Sign.factor, one_mul, cast_natAbs, abs_of_nonneg hsign]
    · rw [Sign.factor, cast_natAbs, abs_of_neg (by omega)]
      push_cast
      ring

/-! ## To an integer -/

namespace ObNumber

/-- `is_integer(expr_value)` -/
def isInteger (n : ObNumber) (exp : ℤ) : Bool :=
  if n.isZero then true
  else if exp < 0 ∨ exp + 1 < n.d.len then false
  else true

def MAX_HIGH_NUM : ℕ := 9
def MAX_MID_NUM : ℕ := 223372036
def MAX_POSITIVE_LOW_NUM : ℕ := 854775807
def MAX_NEGATIVE_LOW_NUM : ℕ := 854775808

def isInt64 (n : ObNumber) : Bool :=
  if n.isZero then true
  else
    let exp := getDecodeExp n.d
    if ¬ n.isInteger exp then false
    else if exp > 2 then false
    else if exp = 2 then
      if n.digits.getD 0 0 > MAX_HIGH_NUM then false
      else if n.d.len ≥ 2 ∧ n.digits.getD 0 0 = MAX_HIGH_NUM ∧ n.digits.getD 1 0 > MAX_MID_NUM then
        false
      else if n.d.len ≥ 3 ∧ n.digits.getD 0 0 = MAX_HIGH_NUM ∧ n.digits.getD 1 0 = MAX_MID_NUM then
        if n.isNegative ∧ n.digits.getD 2 0 > MAX_NEGATIVE_LOW_NUM then false
        else if ¬ n.isNegative ∧ n.digits.getD 2 0 > MAX_POSITIVE_LOW_NUM then false
        else true
      else true
    else true

/-- The two switches of `cast_to_int64`: `tmp_value`, if it is a valid integer. -/
def castWords (n : ObNumber) : Option (BitVec 64) :=
  let digit (i : ℕ) : BitVec 64 := BitVec.ofNat 64 (n.digits.getD i 0)
  let base : BitVec 64 := BitVec.ofNat 64 BASE
  match getDecodeExp n.d with
  | 0 => if n.d.len = 1 then some (digit 0) else some 0#64
  | 1 =>
    if n.d.len = 1 then some (digit 0 * base)
    else if n.d.len = 2 then some (digit 0 * base + digit 1)
    else some 0#64
  | 2 =>
    match n.d.len with
    | 1 => some (digit 0 * base * base)
    | 2 => some (digit 0 * base * base + digit 1 * base)
    | 3 => some (digit 0 * base * base + digit 1 * base + digit 2)
    | _ => none
  | _ => none

/-- The error, if any, and what is in `value` afterwards. -/
def castToInt64 (n : ObNumber) (value : BitVec 64) : Option Err × BitVec 64 :=
  if n.isZero then (none, 0#64)
  else if ¬ n.isInt64 then (some .integerPrecisionOverflow, value)
  else
    match n.castWords with
    | some tmpValue => (none, if n.isNegative then 0#64 - tmpValue else tmpValue)
    | none => (some .integerPrecisionOverflow, value)

end ObNumber

/-- The magnitudes of `INT64_MIN` and `INT64_MAX`. -/
def Sign.int64Limit : Sign → ℕ
  | .negative => 2 ^ 63
  | .positive => 2 ^ 63 - 1

/-- A magnitude with a sign. -/
def Sign.apply : Sign → ℕ → ℤ
  | .negative, m => -m
  | .positive, m => m

lemma Sign.factor_mul_cast (s : Sign) (m : ℕ) : s.factor * m = (s.apply m : ℤ) := by
  cases s <;> simp [Sign.factor, Sign.apply]

lemma Sign.factor_mul_ne_int (s : Sign) (m : ℕ) {r : ℚ} (h0 : 0 < r) (h1 : r < 1) (z : ℤ) :
    s.factor * (m + r) ≠ z := by
  -- an integer strictly between `m` and `m + 1`
  have hbetween : ∀ x : ℤ, (m : ℚ) + r ≠ x := by
    intro x hx
    have hlo : (m : ℚ) < x := by linarith
    have hhi : (x : ℚ) < m + 1 := by linarith
    norm_cast at hlo hhi
    omega
  intro h
  cases s with
  | negative =>
    refine hbetween (-z) ?_
    rw [Sign.factor] at h
    push_cast
    linarith
  | positive =>
    refine hbetween z ?_
    rwa [Sign.factor, one_mul] at h

/-- The signed magnitude is in the range of `int64_t` exactly up to the limit. -/
lemma Sign.apply_range_iff (s : Sign) (m : ℕ) :
    (-2 ^ 63 ≤ s.apply m ∧ s.apply m < 2 ^ 63) ↔ m ≤ s.int64Limit := by
  cases s with
  | negative => simp only [Sign.apply, Sign.int64Limit]; omega
  | positive => simp only [Sign.apply, Sign.int64Limit]; omega

section Normal

variable {n : ObNumber} {e : ℤ} {k : ℕ}

lemma Normal.value_of_integer (h : Normal n k) (he : InLimits k) (hlen : n.d.len ≤ k + 1) :
    n.value = (n.d.sign.apply (leading BASE (k + 1) n.words) : ℤ) := by
  obtain ⟨r, hmag, -, -, hexact, -⟩ := h.magnitude_split
  rw [h.value_eq he, hmag, hexact hlen, add_zero, factor_mul_cast]

/-- Words behind the point, or none in front of it, make a fraction. -/
lemma Normal.value_ne_int (h : Normal n e) (he : InLimits e) (hfrac : e < 0 ∨ e + 1 < n.d.len)
    (z : ℤ) : n.value ≠ z := by
  rw [h.value_eq he]
  rcases lt_or_ge e 0 with hneg | hnonneg
  · obtain ⟨hlo, hhi⟩ := h.magnitude_bounds
    have hpos : (0 : ℚ) < (BASE : ℚ) ^ e := zpow_pos base_pos e
    have hone : (BASE : ℚ) ^ (e + 1) ≤ 1 := by
      simpa using zpow_le_zpow_right₀ one_le_base (show e + 1 ≤ 0 by omega)
    have hne := n.d.sign.factor_mul_ne_int 0 (hpos.trans_le hlo) (hhi.trans_le hone) z
    rwa [cast_zero, zero_add] at hne
  · obtain ⟨k, rfl⟩ := Int.eq_ofNat_of_zero_le hnonneg
    obtain ⟨r, hmag, -, hr1, -, hmore⟩ := h.magnitude_split
    rw [hmag]
    exact n.d.sign.factor_mul_ne_int _ (hmore (by omega)) hr1 z

lemma Normal.isInteger_eq (h : Normal n e) : n.isInteger e = decide (0 ≤ e ∧ n.d.len ≤ e + 1) := by
  rw [isInteger, h.isZero_eq, if_neg Bool.false_ne_true]
  by_cases hfrac : e < 0 ∨ e + 1 < n.d.len
  · rw [if_pos hfrac, eq_comm, decide_eq_false_iff_not]
    omega
  · rw [if_neg hfrac, eq_comm, decide_eq_true_iff]
    omega

/-- The words of a number with three places, the missing ones being zero. -/
lemma ObNumber.leading_three (n : ObNumber) : leading BASE 3 n.words
      = n.words.getD 0 0 * BASE ^ 2 + n.words.getD 1 0 * BASE + n.words.getD 2 0 := by
  rw [leading_succ_last, leading_succ_last, leading_succ_last, leading]
  ring

/-- A word in terms of the memory, zero behind the last one. -/
lemma Normal.words_getD_cases (h : Normal n e) (i : ℕ) :
    (i < n.d.len ∧ n.words.getD i 0 = n.digits.getD i 0)
      ∨ (n.d.len ≤ i ∧ n.words.getD i 0 = 0) := by
  have hlen := h.length_eq
  rcases lt_or_ge i n.d.len with hi | hi
  · exact .inl ⟨hi, words_getD hi⟩
  · refine .inr ⟨hi, ?_⟩
    rw [getD_eq_getElem?_getD, getElem?_eq_none (by omega), Option.getD_none]

/-- Three places, word by word against the limit. -/
lemma Normal.isInt64_two (h : Normal n 2) (hlen : n.d.len ≤ 3) :
    n.isInt64 ↔ leading BASE 3 n.words ≤ n.d.sign.int64Limit := by
  have hpos := h.len_pos
  have hdec := h.decode_eq (by decide)
  have hint : n.isInteger 2 = true := by rw [h.isInteger_eq, decide_eq_true_iff]; omega
  have hneg : n.isNegative = true ↔ n.d.sign = .negative := by simp [isNegative]
  have hw1 := digits_getD h.digits 1
  have hw2 := digits_getD h.digits 2
  have hd0 := h.words_getD_cases 0
  have hd1 := h.words_getD_cases 1
  have hd2 := h.words_getD_cases 2
  rw [n.leading_three, isInt64]
  simp only [h.isZero_eq, hdec, hneg, MAX_HIGH_NUM, MAX_MID_NUM, MAX_POSITIVE_LOW_NUM,
    MAX_NEGATIVE_LOW_NUM, Bool.false_eq_true]
  simp only [BASE] at *
  cases n.d.sign with
  | negative =>
    simp only [Sign.int64Limit, true_and, not_true_eq_false, false_and, if_false]
    split_ifs <;> simp only [false_iff, true_iff] <;> omega
  | positive =>
    simp only [Sign.int64Limit, true_and, reduceCtorEq, not_false_eq_true, if_false]
    split_ifs <;> simp only [false_iff, true_iff] <;> omega

lemma Sign.int64Limit_bounds (s : Sign) : BASE ^ 2 ≤ s.int64Limit ∧ s.int64Limit < BASE ^ 3 := by
  cases s <;> decide

/-- **The test word by word compares the whole magnitude with the limit of its sign.** -/
theorem Normal.isInt64_iff (h : Normal n k) (he : InLimits k) (hlen : n.d.len ≤ k + 1) :
    n.isInt64 ↔ leading BASE (k + 1) n.words ≤ n.d.sign.int64Limit := by
  obtain ⟨hlow, hhigh⟩ := n.d.sign.int64Limit_bounds
  have hint : n.isInteger k = true := by rw [h.isInteger_eq, decide_eq_true_iff]; omega
  have hunfold : k ≠ 2 → n.isInt64 = decide (k ≤ 2) := by
    intro hk
    rw [isInt64, h.isZero_eq, if_neg Bool.false_ne_true]
    simp only [h.decode_eq he, hint, not_true_eq_false, if_false]
    rcases lt_or_gt_of_ne hk with hk | hk
    · rw [if_neg (by omega), if_neg (by omega), eq_comm, decide_eq_true_iff]
      omega
    · rw [if_pos (by omega), eq_comm, decide_eq_false_iff_not]
      omega
  rcases lt_trichotomy k 2 with hk | rfl | hk
  · -- at most two words, which every `int64_t` has room for
    have hlt := leading_lt (n := k + 1) (by simp [BASE]) h.digits
    have hpow : BASE ^ (k + 1) ≤ BASE ^ 2 := Nat.pow_le_pow_right (by simp [BASE]) hk
    rw [hunfold (by omega), decide_eq_true_iff]
    exact iff_of_true hk.le (by omega)
  · exact h.isInt64_two hlen
  · have hge := h.base_pow_le_leading k
    have hpow : BASE ^ 3 ≤ BASE ^ k := Nat.pow_le_pow_right (by simp [BASE]) hk
    rw [hunfold (by omega), decide_eq_true_iff]
    exact iff_of_false (by omega) (by omega)

/-- The switches put the words together modulo `2^64`. -/
lemma Normal.castWords_eq (h : Normal n k) (he : InLimits k) (hlen : n.d.len ≤ k + 1) (hk : k ≤ 2) :
    n.castWords = some (BitVec.ofNat 64 (leading BASE (k + 1) n.words)) := by
  have hpos := h.len_pos
  have hzero : ∀ i, n.d.len ≤ i → n.words.getD i 0 = 0 := by
    intro i hi
    rcases h.words_getD_cases i with ⟨hlt, -⟩ | ⟨-, hw⟩
    · omega
    · exact hw
  have hw0 := words_getD hpos
  obtain rfl | rfl | rfl : k = 0 ∨ k = 1 ∨ k = 2 := by omega
  · have hdec : getDecodeExp n.d = 0 := h.decode_eq he
    have hl : n.d.len = 1 := by omega
    simp only [castWords, hdec, hl, if_true, leading_succ_last, leading, hw0, Nat.zero_mul,
      Nat.zero_add]
  · have hdec : getDecodeExp n.d = 1 := h.decode_eq he
    simp only [castWords, hdec, leading_succ_last, leading, hw0, Nat.zero_mul,
      Nat.zero_add, BitVec.ofNat_add, BitVec.ofNat_mul]
    rcases Nat.lt_or_ge 1 n.d.len with h1 | h1
    · rw [if_neg (by omega), if_pos (by omega), words_getD h1]
    · rw [if_pos (by omega), hzero 1 h1, BitVec.add_zero]
  · have hdec : getDecodeExp n.d = 2 := h.decode_eq he
    simp only [castWords, hdec, leading_succ_last, leading, hw0, Nat.zero_mul,
      Nat.zero_add, BitVec.ofNat_add, BitVec.ofNat_mul, BitVec.add_mul]
    obtain hl | hl | hl : n.d.len = 1 ∨ n.d.len = 2 ∨ n.d.len = 3 := by omega
    · simp only [hl, hzero 1 (by omega), hzero 2 (by omega), BitVec.zero_mul, BitVec.add_zero]
    · simp only [hl, words_getD (show 1 < n.d.len by omega), hzero 2 (by omega), BitVec.add_zero]
    · simp only [hl, words_getD (show 1 < n.d.len by omega), words_getD (show 2 < n.d.len by omega)]

lemma Sign.toInt_of_le_limit (s : Sign) {m : ℕ} (hm : m ≤ s.int64Limit) :
    (if s = .negative then 0#64 - BitVec.ofNat 64 m else BitVec.ofNat 64 m).toInt = s.apply m := by
  cases s with
  | negative =>
    simp only [Sign.int64Limit] at hm
    simp only [if_true, Sign.apply, BitVec.toInt_eq_toNat_cond, BitVec.toNat_sub,
      BitVec.toNat_ofNat]
    split_ifs <;> omega
  | positive =>
    simp only [Sign.int64Limit] at hm
    simp only [reduceCtorEq, if_false, Sign.apply, BitVec.toInt_eq_toNat_cond, BitVec.toNat_ofNat]
    split_ifs <;> omega

lemma Normal.isInt64_of_fraction (h : Normal n e) (he : InLimits e)
    (hfrac : e < 0 ∨ e + 1 < n.d.len) : n.isInt64 = false := by
  have hint : n.isInteger e = false := by rw [h.isInteger_eq, decide_eq_false_iff_not]; omega
  rw [isInt64, h.isZero_eq, if_neg Bool.false_ne_true]
  simp only [h.decode_eq he, hint, Bool.false_eq_true, not_false_eq_true, if_true]

lemma Normal.castToInt64_of_not (h : Normal n e) (hint : ¬ n.isInt64) (value : BitVec 64) :
    n.castToInt64 value = (some .integerPrecisionOverflow, value) := by
  rw [castToInt64, h.isZero_eq, if_neg Bool.false_ne_true, if_pos hint]

lemma Normal.castToInt64_of_isInt64 (h : Normal n k) (he : InLimits k) (hlen : n.d.len ≤ k + 1)
    (hint : n.isInt64) (value : BitVec 64) :
    ∃ r, n.castToInt64 value = (none, r) ∧ n.value = r.toInt := by
  have hlimit := (h.isInt64_iff he hlen).1 hint
  obtain ⟨-, hhigh⟩ := n.d.sign.int64Limit_bounds
  have hk : k ≤ 2 := by
    by_contra hk
    have hge := h.base_pow_le_leading k
    have hpow : BASE ^ 3 ≤ BASE ^ k := Nat.pow_le_pow_right (by simp [BASE]) (by omega)
    omega
  have hneg : n.isNegative = true ↔ n.d.sign = .negative := by simp [isNegative]
  have hcast : n.castToInt64 value = (none, if n.d.sign = .negative
      then 0#64 - BitVec.ofNat 64 (leading BASE (k + 1) n.words)
      else BitVec.ofNat 64 (leading BASE (k + 1) n.words)) := by
    rw [castToInt64, h.isZero_eq, if_neg Bool.false_ne_true, if_neg (not_not.2 hint),
      h.castWords_eq he hlen hk]
    simp only [hneg]
  exact ⟨_, hcast, by rw [h.value_of_integer he hlen, n.d.sign.toInt_of_le_limit hlimit]⟩

end Normal

/-- `is_int64` is the range, and `cast_to_int64` writes its output exactly when the number passes
it. -/
structure CastsExactly (x : ObNumber) (value : BitVec 64) : Prop where
  isInt64_iff : x.isInt64 ↔ ∃ z : ℤ, x.value = z ∧ -2 ^ 63 ≤ z ∧ z < 2 ^ 63
  cast_of_isInt64 : x.isInt64 → ∃ r, x.castToInt64 value = (none, r) ∧ x.value = r.toInt
  cast_of_not : ¬ x.isInt64 → x.castToInt64 value = (some .integerPrecisionOverflow, value)

theorem Normalized.castsExactly {x : ObNumber} (hx : Normalized x) (value : BitVec 64) :
    CastsExactly x value := by
  rcases hx with hz | ⟨e, hn, he⟩
  · have hzero : x.isZero = true := by simp [isZero, hz]
    have hint : x.isInt64 = true := by simp [isInt64, hzero]
    refine ⟨iff_of_true hint ⟨0, by simpa using value_of_zero hz, by norm_num, by norm_num⟩,
      fun _ => ⟨0#64, by simp [castToInt64, hzero], by simp [value_of_zero hz]⟩,
      fun h => absurd hint h⟩
  · by_cases hfrac : e < 0 ∨ e + 1 < x.d.len
    · have hint : ¬ x.isInt64 := by rw [hn.isInt64_of_fraction he hfrac]; exact Bool.false_ne_true
      refine ⟨iff_of_false hint ?_, fun h => absurd h hint, fun h => hn.castToInt64_of_not h value⟩
      rintro ⟨z, hz, -⟩
      exact hn.value_ne_int he hfrac z hz
    · obtain ⟨k, rfl⟩ := Int.eq_ofNat_of_zero_le (show 0 ≤ e by omega)
      have hlen : x.d.len ≤ k + 1 := by omega
      refine ⟨?_, fun h => hn.castToInt64_of_isInt64 he hlen h value,
        fun h => hn.castToInt64_of_not h value⟩
      rw [hn.isInt64_iff he hlen, ← apply_range_iff, hn.value_of_integer he hlen]
      constructor
      · intro hrange
        exact ⟨_, rfl, hrange⟩
      · rintro ⟨z, hz, hrange⟩
        rwa [Int.cast_injective hz]

lemma fromInteger_ok {alloc : Bool} {v : IntegerT} {n r : ObNumber}
    (h : fromInteger alloc v n = .ok r) : Normalized r ∧ r.value = v.toInt := by
  obtain ⟨r', hr', hspec⟩ := fromInteger_spec v n
  suffices hsame : fromInteger true v n = .ok r by
    rw [hsame] at hr'
    cases hr'
    exact hspec
  cases alloc with
  | true => exact h
  | false =>
    rw [fromInteger] at h
    by_cases hzero : v.toInt = 0
    · rw [fromInteger, if_pos hzero, ← h, if_pos hzero]
    · rw [if_neg hzero] at h
      cases h

/-- **Integers to numbers and back.**  Without memory for the words nothing is built; otherwise the
number is normalized and has the value of the integer.  The cast of a normalized number is exact
where it succeeds, and it succeeds on the integers in the range of `int64_t`. -/
theorem integer_conversion (alloc : Bool) (v : IntegerT) (n : ObNumber) (x : ObNumber)
    (hx : Normalized x) (value : BitVec 64) :
    ((alloc = false ∧ v.toInt ≠ 0 ∧ fromInteger alloc v n = .error .allocateMemoryFailed) ∨
      ∃ r, fromInteger alloc v n = .ok r ∧ Normalized r ∧ r.value = v.toInt) ∧ CastsExactly x value
    ∧ ∀ (w : BitVec 64) (r : ObNumber), fromInteger alloc (.int64 w) n = .ok r →
        r.castToInt64 value = (none, w) := by
  refine ⟨?_, hx.castsExactly value, ?_⟩
  · cases alloc with
    | true => exact .inr (fromInteger_spec v n)
    | false =>
      by_cases hzero : v.toInt = 0
      · obtain ⟨r, hr, hspec⟩ := fromInteger_spec v n
        rw [fromInteger, if_pos hzero] at hr
        exact .inr ⟨r, by rw [fromInteger, if_pos hzero, hr], hspec⟩
      · exact .inl ⟨rfl, hzero, by rw [fromInteger, if_neg hzero]; rfl⟩
  · intro w r hr
    obtain ⟨hnorm, hval⟩ := fromInteger_ok hr
    have hcast := hnorm.castsExactly value
    have hint : r.isInt64 := hcast.isInt64_iff.2 ⟨w.toInt, hval, BitVec.le_toInt w, BitVec.toInt_lt⟩
    obtain ⟨u, hu, hval'⟩ := hcast.cast_of_isInt64 hint
    rw [hval] at hval'
    rw [hu, ← BitVec.eq_of_toInt_eq (Int.cast_injective hval')]

/-- `INT64_MIN`, whose words are the limits themselves. -/
theorem integer_conversion_int64Min :
    CastsExactly ⟨⟨3, calcExp .negative 2, .negative⟩, [9, 223372036, 854775808]⟩ 0#64 :=
  (integer_conversion true (.int64 0#64) ⟨⟨0, 0, .positive⟩, []⟩
    ⟨⟨3, calcExp .negative 2, .negative⟩, [9, 223372036, 854775808]⟩
    (.inr ⟨2, by decide, by decide⟩) 0#64).2.1

end OceanBase.Number
