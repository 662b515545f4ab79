import DailyReadCoding.OceanBase.Number.ObNumber

/-!
# Comparing numbers

`ObNumber::compare`, `compare_v2` and `is_equal_v2` never decode a number: they compare the packed
sign and exponent byte first and the words only when that byte agrees.  Comparing with a machine
integer takes a shorter way over the integer part, cut off at the words of `UINT64_MAX`.
-/

namespace OceanBase.Number

open Positional List Nat

/-! ## The functions -/

/-- Compares the first `n` words. -/
def uint32cmp : List ℕ → List ℕ → ℕ → ℤ
  | _, _, 0 => 0
  | s1, s2, n + 1 =>
    if s1.headD 0 < s2.headD 0 then -1
    else if s1.headD 0 > s2.headD 0 then 1
    else uint32cmp s1.tail s2.tail n

/-- The same loop, testing in another order. -/
def uint32cmpV2 : List ℕ → List ℕ → ℕ → ℤ
  | _, _, 0 => 0
  | s1, s2, n + 1 =>
    if s1.headD 0 > s2.headD 0 then 1
    else if s1.headD 0 = s2.headD 0 then uint32cmpV2 s1.tail s2.tail n
    else -1

/-- `memcmp` of `n` words. -/
def uint32equalV2 (s1 s2 : List ℕ) (n : ℕ) : Bool := s1.take n == s2.take n

/-- The common body of `compare` and `compare_v2`, over the word comparison they call. -/
def compareWith (cmp : List ℕ → List ℕ → ℕ → ℤ) (thisDesc : Desc) (thisDigits : List ℕ)
    (otherDesc : Desc) (otherDigits : List ℕ) : ℤ :=
  if thisDesc.se = otherDesc.se then
    let ret :=
      if thisDesc.len = otherDesc.len then cmp thisDigits otherDigits thisDesc.len
      else if thisDesc.len < otherDesc.len then
        if cmp thisDigits otherDigits thisDesc.len = 0 then -1
        else cmp thisDigits otherDigits thisDesc.len
      else
        if cmp thisDigits otherDigits otherDesc.len = 0 then 1
        else cmp thisDigits otherDigits otherDesc.len
    if thisDesc.sign = .negative then -ret else ret
  else if thisDesc.se < otherDesc.se then -1
  else 1

def compare : Desc → List ℕ → Desc → List ℕ → ℤ := compareWith uint32cmp

def compareV2 : Desc → List ℕ → Desc → List ℕ → ℤ := compareWith uint32cmpV2

def isEqualV2 (thisDesc : Desc) (thisDigits : List ℕ) (otherDesc : Desc)
    (otherDigits : List ℕ) : Bool :=
  if thisDesc.se = otherDesc.se ∧ thisDesc.len = otherDesc.len then
    uint32equalV2 thisDigits otherDigits thisDesc.len
  else false

namespace ObNumber

/-- The words of `UINT64_MAX`: 18 446744073 709551615. -/
def unum : List ℕ := [18, 446744073, 709551615]

/-- The loop of `is_in_uint` against `unum`: the first word that differs decides. -/
def notAbove : List ℕ → List ℕ → Bool
  | d :: ds, u :: us => if d ≠ u then d < u else notAbove ds us
  | _, _ => true

/-- One round of the loop that collects words in a `uint64_t`, padded with zeros. -/
def pushWord (num : ℕ) : List ℕ → ℕ
  | d :: _ => (num * BASE + d) % 2 ^ 64
  | [] => num * BASE % 2 ^ 64

/-- The loop of `is_in_uint` that collects `n` words. -/
def collect : ℕ → List ℕ → ℕ → ℕ
  | 0, _, num => num
  | n + 1, ds, num => collect n ds.tail (pushWord num ds)

/-- `is_in_uint`, returning `is_uint` and `num`. -/
def isInUint (n : ObNumber) (exp : ℤ) : Bool × ℕ :=
  if exp > 2 then (false, 0)
  else
    let isUint := if exp = 2 then notAbove (n.words.take (exp + 1).toNat) unum else true
    (isUint, if isUint then collect (exp + 1).toNat n.words 0 else 0)

/-- The magnitude of a number with exponent `exp` against `other`. -/
def absCompareSys (n : ObNumber) (other : ℕ) (exp : ℤ) : ℤ :=
  if exp < 0 then
    if other = 0 then 1 else -1
  else
    let expU : ℤ := if other ≥ BASE2 then 2 else if other ≥ BASE then 1 else 0
    if exp ≠ expU then
      if exp > expU then 1 else -1
    else
      let (isUint, num) := n.isInUint exp
      if isUint then
        let cmp : ℤ := if num > other then 1 else if num = other then 0 else -1
        if cmp = 0 then
          if n.d.len > exp + 1 then 1 else 0
        else cmp
      else 1

/-- `compare(int64_t)`. A negative `other` has the magnitude `(uint64_t)((other + 1) * -1) + 1`,
defined for `INT64_MIN` too. -/
def compareInt64 (n : ObNumber) (other : ℤ) : ℤ :=
  if n.isZero then
    if other < 0 then 1 else if other = 0 then 0 else -1
  else if n.isNegative then
    if other ≥ 0 then -1
    else -n.absCompareSys ((((other + 1) * -1).toNat + 1) % 2 ^ 64) (EXP_ZERO - n.d.exp)
  else
    if other ≤ 0 then 1 else n.absCompareSys other.toNat (n.d.exp - EXP_ZERO)

/-- `compare(uint64_t)` -/
def compareUint64 (n : ObNumber) (other : ℕ) : ℤ :=
  if n.isZero then
    if other = 0 then 0 else -1
  else if n.isNegative then -1
  else n.absCompareSys other (n.d.exp - EXP_ZERO)

end ObNumber

open ObNumber

/-! ## Words -/

lemma uint32cmpV2_eq : ∀ (n : ℕ) (s1 s2 : List ℕ), uint32cmpV2 s1 s2 n = uint32cmp s1 s2 n
  | 0, _, _ => rfl
  | n + 1, s1, s2 => by
    rw [uint32cmp, uint32cmpV2, uint32cmpV2_eq n]
    split_ifs <;> first | rfl | omega

lemma compareV2_eq : compareV2 = compare := by
  have : uint32cmpV2 = uint32cmp := by
    funext s1 s2 n
    exact uint32cmpV2_eq n s1 s2
  rw [compareV2, this, compare]

/-- The loop with the length test behind it is the comparison of the two word lists. -/
lemma compareWords_take : ∀ (n m : ℕ) {s1 s2 : List ℕ}, n ≤ s1.length → m ≤ s2.length →
    compareWords (s1.take n) (s2.take m) = if n = m then uint32cmp s1 s2 n
        else if n < m then if uint32cmp s1 s2 n = 0 then -1 else uint32cmp s1 s2 n
        else if uint32cmp s1 s2 m = 0 then 1 else uint32cmp s1 s2 m
  | 0, 0, _, _, _, _ => rfl
  | 0, m + 1, _, e :: es, _, _ => by simp [compareWords, uint32cmp]
  | n + 1, 0, d :: ds, _, _, _ => by simp [compareWords, uint32cmp]
  | n + 1, m + 1, d :: ds, e :: es, hn, hm => by
    have ih := compareWords_take n m (le_of_succ_le_succ hn) (le_of_succ_le_succ hm)
    simp only [take_succ_cons, compareWords, uint32cmp, headD_cons,
      gt_iff_lt, add_right_cancel_iff, add_lt_add_iff_right]
    split_ifs <;> simp_all

lemma uint32cmp_eq_zero_iff : ∀ (n : ℕ) {s1 s2 : List ℕ}, n ≤ s1.length → n ≤ s2.length →
    (uint32cmp s1 s2 n = 0 ↔ s1.take n = s2.take n)
  | 0, _, _, _, _ => by simp [uint32cmp]
  | n + 1, d :: ds, e :: es, hn, hm => by
    have ih := uint32cmp_eq_zero_iff n (le_of_succ_le_succ hn) (le_of_succ_le_succ hm)
    simp only [uint32cmp]
    rcases lt_trichotomy d e with h | rfl | h
    · simp [h, h.ne]
    · simp [ih]
    · simp [h, h.ne', lt_asymm h]

lemma isEqualV2_iff {a b : ObNumber} (ha : a.d.len ≤ a.digits.length)
    (hb : b.d.len ≤ b.digits.length) :
    isEqualV2 a.d a.digits b.d b.digits = true ↔ compare a.d a.digits b.d b.digits = 0 := by
  rw [isEqualV2, compare, compareWith]
  by_cases hse : a.d.se = b.d.se
  · rcases lt_trichotomy a.d.len b.d.len with h | h | h
    · split_ifs <;> simp_all
    · have hzero := uint32cmp_eq_zero_iff a.d.len ha (h ▸ hb)
      rw [if_pos ⟨hse, h⟩, if_pos hse, if_pos h, uint32equalV2, beq_iff_eq, ← hzero]
      split_ifs <;> simp
    · split_ifs <;> simp_all
  · rw [if_neg (fun h => hse h.1), if_neg hse]
    split_ifs <;> simp

/-! ## Two numbers -/

lemma base_pos : (0 : ℚ) < BASE := by norm_num [BASE]

lemma one_le_base : (1 : ℚ) ≤ BASE := by norm_num [BASE]

/-- A magnitude, cut behind the word that counts `BASE ^ (e - j)`. -/
lemma magnitude_cut (ws : List ℕ) (e : ℤ) (j : ℕ) : (BASE : ℚ) ^ e * mantissa BASE ws
      = (BASE : ℚ) ^ (e - j) *
      (leading BASE (j + 1) ws + mantissa BASE (ws.drop (j + 1)) / BASE) := by
  have hb := base_pos
  have hsplit := mantissa_mul_pow BASE (by simp [BASE]) (j + 1) ws
  have hpow : (BASE : ℚ) ^ e = (BASE : ℚ) ^ (e - j) * (BASE : ℚ) ^ j := by
    rw [← zpow_natCast, ← zpow_add₀ hb.ne', sub_add_cancel]
  have hcut : (BASE : ℚ) ^ j * mantissa BASE ws
      = leading BASE (j + 1) ws + mantissa BASE (ws.drop (j + 1)) / BASE := by
    rw [pow_succ] at hsplit
    field_simp
    linarith
  rw [hpow, mul_assoc, hcut]

/-- A magnitude of at most `j + 1` words. -/
lemma magnitude_of_length_le {ws : List ℕ} {j : ℕ} (h : ws.length ≤ j + 1) (e : ℤ) :
    (BASE : ℚ) ^ e * mantissa BASE ws = (BASE : ℚ) ^ (e - j) * leading BASE (j + 1) ws := by
  rw [magnitude_cut, drop_of_length_le h, mantissa, zero_div, add_zero]

section Two

variable {a b : ObNumber} {e f : ℤ}

/-- The magnitude of a number in normal form lies between two powers of the base. -/
lemma Normal.magnitude_bounds (h : Normal a e) :
    (BASE : ℚ) ^ e ≤ (BASE : ℚ) ^ e * mantissa BASE a.words
      ∧ (BASE : ℚ) ^ e * mantissa BASE a.words < (BASE : ℚ) ^ (e + 1) := by
  have hpow : (0 : ℚ) < (BASE : ℚ) ^ e := zpow_pos base_pos e
  constructor
  · exact le_mul_of_one_le_right hpow.le h.one_le_mantissa
  · rw [zpow_add_one₀ base_pos.ne']
    exact mul_lt_mul_of_pos_left h.mantissa_lt_base hpow

lemma Sign.abs_factor : ∀ s : Sign, |s.factor| = 1
  | .negative => by simp [Sign.factor]
  | .positive => by simp [Sign.factor]

lemma Normal.abs_value (h : Normal a e) (he : InLimits e) :
    |a.value| = (BASE : ℚ) ^ e * mantissa BASE a.words := by
  have hpos : 0 ≤ (BASE : ℚ) ^ e * mantissa BASE a.words :=
    mul_nonneg (zpow_pos base_pos e).le (mantissa_nonneg _ _)
  rw [h.value_eq he, abs_mul, Sign.abs_factor, one_mul, abs_of_nonneg hpos]

lemma Normal.magnitude_lt (ha : Normal a e) (hb : Normal b f) (hef : e < f) :
    (BASE : ℚ) ^ e * mantissa BASE a.words < (BASE : ℚ) ^ f * mantissa BASE b.words :=
  calc (BASE : ℚ) ^ e * mantissa BASE a.words
      < (BASE : ℚ) ^ (e + 1) := ha.magnitude_bounds.2
    _ ≤ (BASE : ℚ) ^ f := zpow_le_zpow_right₀ one_le_base hef
    _ ≤ (BASE : ℚ) ^ f * mantissa BASE b.words := hb.magnitude_bounds.1

lemma Normal.sign_magnitude_sub (ha : Normal a e) (hb : Normal b e) :
    (SignType.sign ((BASE : ℚ) ^ e * mantissa BASE a.words
      - (BASE : ℚ) ^ e * mantissa BASE b.words) : ℤ) = compareWords a.words b.words := by
  rw [← mul_sub, sign_mul, sign_pos (zpow_pos base_pos e)]
  exact sign_mantissa_sub (by simp [BASE]) ha.digits hb.digits ha.last hb.last

lemma Normal.se_eq (h : Normal a e) (he : InLimits e) : (a.d.se : ℤ) = match a.d.sign with
      | .negative => 64 - e
      | .positive => 192 + e := by
  have hb := he.bounds
  rw [Desc.se, h.exp_eq]
  cases a.d.sign with
  | negative =>
    have := calcExp_negative (e := e) (by omega) (by omega)
    simp only [Sign.bit]
    omega
  | positive =>
    have := calcExp_positive (e := e) (by omega) (by omega)
    simp only [Sign.bit]
    omega

lemma compare_of_se_eq (hse : a.d.se = b.d.se) (ha : a.d.len ≤ a.digits.length)
    (hb : b.d.len ≤ b.digits.length) :
    compare a.d a.digits b.d b.digits = if a.d.sign = .negative then -compareWords a.words b.words
        else compareWords a.words b.words := by
  rw [compare, compareWith, if_pos hse, words, words, compareWords_take _ _ ha hb]

/-- Where the bytes are in the order of the values they decide, either way round. -/
lemma compare_of_se_lt (hse : a.d.se < b.d.se) (hlt : a.value < b.value) :
    compare a.d a.digits b.d b.digits = SignType.sign (a.value - b.value)
      ∧ compare b.d b.digits a.d a.digits = SignType.sign (b.value - a.value) := by
  rw [sign_neg (sub_neg.2 hlt), sign_pos (sub_pos.2 hlt)]
  constructor
  · rw [compare, compareWith, if_neg hse.ne, if_pos hse]
    rfl
  · rw [compare, compareWith, if_neg hse.ne', if_neg (lt_asymm hse)]
    rfl

lemma Normal.value_pos (h : Normal a e) (he : InLimits e) (hs : a.d.sign = .positive) :
    0 < a.value := by
  rw [h.value_eq he, hs, Sign.factor, one_mul]
  exact (zpow_pos base_pos e).trans_le h.magnitude_bounds.1

lemma Normal.value_neg (h : Normal a e) (he : InLimits e) (hs : a.d.sign = .negative) :
    a.value < 0 := by
  have := (zpow_pos base_pos e).trans_le h.magnitude_bounds.1
  rw [h.value_eq he, hs, Sign.factor]
  linarith

/-- Two non-zero numbers of one sign with different exponents, compared either way round. -/
lemma Normal.compare_of_exp_lt (ha : Normal a e) (hb : Normal b f) (he : InLimits e)
    (hf : InLimits f) (hs : a.d.sign = b.d.sign) (hef : e < f) :
    compare a.d a.digits b.d b.digits = SignType.sign (a.value - b.value)
      ∧ compare b.d b.digits a.d a.digits = SignType.sign (b.value - a.value) := by
  have hmag := ha.magnitude_lt hb hef
  have hsea := ha.se_eq he
  have hseb := hb.se_eq hf
  have hva := ha.value_eq he
  have hvb := hb.value_eq hf
  rw [← hs] at hseb hvb
  cases hsign : a.d.sign with
  | negative =>
    simp only [hsign, Sign.factor] at hsea hseb hva hvb
    exact (compare_of_se_lt (by omega) (by linarith)).symm
  | positive =>
    simp only [hsign, Sign.factor] at hsea hseb hva hvb
    exact compare_of_se_lt (by omega) (by linarith)

lemma Normal.compare_of_exp_eq (ha : Normal a e) (hb : Normal b e) (he : InLimits e)
    (hs : a.d.sign = b.d.sign) :
    compare a.d a.digits b.d b.digits = SignType.sign (a.value - b.value) := by
  have hse : a.d.se = b.d.se := by
    have hsea := ha.se_eq he
    have hseb := hb.se_eq he
    rw [← hs] at hseb
    exact_mod_cast hsea.trans hseb.symm
  rw [compare_of_se_eq hse ha.stored hb.stored, ha.value_eq he, hb.value_eq he, ← hs, ← mul_sub,
    ← ha.sign_magnitude_sub hb]
  cases a.d.sign with
  | negative => rw [if_pos rfl, Sign.factor, neg_one_mul, Left.sign_neg, SignType.coe_neg]
  | positive => simp [Sign.factor]

/-- Two non-zero numbers: the signs decide, then the exponents, then the words. -/
lemma Normal.compare_eq (ha : Normal a e) (hb : Normal b f) (he : InLimits e) (hf : InLimits f) :
    compare a.d a.digits b.d b.digits = SignType.sign (a.value - b.value) := by
  have hsea := ha.se_eq he
  have hseb := hb.se_eq hf
  have hbe := he.bounds
  have hbf := hf.bounds
  by_cases hs : a.d.sign = b.d.sign
  · rcases lt_trichotomy e f with hef | rfl | hef
    · exact (ha.compare_of_exp_lt hb he hf hs hef).1
    · exact ha.compare_of_exp_eq hb he hs
    · exact (hb.compare_of_exp_lt ha hf he hs.symm hef).2
  · cases hsa : a.d.sign with
    | negative =>
      have hsb : b.d.sign = .positive := by cases h : b.d.sign <;> simp_all
      have hva := ha.value_neg he hsa
      have hvb := hb.value_pos hf hsb
      simp only [hsa, hsb] at hsea hseb
      exact (compare_of_se_lt (by omega) (hva.trans hvb)).1
    | positive =>
      have hsb : b.d.sign = .negative := by cases h : b.d.sign <;> simp_all
      have hva := ha.value_pos he hsa
      have hvb := hb.value_neg hf hsb
      simp only [hsa, hsb] at hsea hseb
      exact (compare_of_se_lt (by omega) (hvb.trans hva)).2

/-- The byte of zero lies between those of the negative and of the positive numbers. -/
lemma Normal.compare_zero (ha : Normal a e) (he : InLimits e) (hz : b.d = ⟨0, 0, .positive⟩) :
    compare a.d a.digits b.d b.digits = SignType.sign (a.value - b.value)
      ∧ compare b.d b.digits a.d a.digits = SignType.sign (b.value - a.value) := by
  have hsea := ha.se_eq he
  have hbe := he.bounds
  have hseb : b.d.se = 128 := by rw [hz]; rfl
  have hvb := value_of_zero hz
  cases hs : a.d.sign with
  | negative =>
    simp only [hs] at hsea
    exact compare_of_se_lt (by omega) (hvb ▸ ha.value_neg he hs)
  | positive =>
    simp only [hs] at hsea
    exact (compare_of_se_lt (by omega) (hvb ▸ ha.value_pos he hs)).symm

/-- **`compare` is the sign of the difference.** -/
theorem Normalized.compare_eq (ha : Normalized a) (hb : Normalized b) :
    compare a.d a.digits b.d b.digits = SignType.sign (a.value - b.value) := by
  rcases ha with hza | ⟨e, ha, he⟩
  · rcases hb with hzb | ⟨f, hb, hf⟩
    · rw [value_of_zero hza, value_of_zero hzb, hza, hzb]
      simp [compare, compareWith, uint32cmp]
    · exact (hb.compare_zero hf hza).2
  · rcases hb with hzb | ⟨f, hb, hf⟩
    · exact (ha.compare_zero he hzb).1
    · exact ha.compare_eq hb he hf

end Two

lemma Normalized.stored {n : ObNumber} : Normalized n → n.d.len ≤ n.digits.length := by
  rintro (hz | ⟨e, hn, -⟩)
  · rw [hz]
    exact zero_le _
  · exact hn.stored

/-! ## A number and a machine integer -/

namespace ObNumber

/-- Against the words of a limit, `notAbove` decides the order of the leading words. -/
lemma notAbove_iff : ∀ {ds us : List ℕ}, Digits BASE ds → Digits BASE us →
    (notAbove (ds.take us.length) us = true ↔ leading BASE us.length ds ≤ leading BASE us.length us)
  | [], us, _, _ => by simp [notAbove]
  | d :: ds, [], _, _ => by simp [notAbove, leading]
  | d :: ds, u :: us, hds, hus => by
    have hb : 0 < BASE := by simp [BASE]
    rw [length_cons, take_succ_cons, notAbove]
    rcases lt_trichotomy d u with h | rfl | h
    · have := leading_lt_of_head_lt (n := us.length) hb us hds.tail h
      simp [h, h.ne, this.le]
    · simp [leading, notAbove_iff hds.tail hus.tail]
    · have := leading_lt_of_head_lt (n := us.length) hb ds hus.tail h
      simp [h.ne', lt_asymm h, this]

lemma pushWord_eq {num : ℕ} {ds : List ℕ} (h : num * BASE + ds.headD 0 < 2 ^ 64) :
    pushWord num ds = num * BASE + ds.headD 0 := by
  cases ds with
  | nil =>
    rw [headD_nil, add_zero] at h ⊢
    exact mod_eq_of_lt h
  | cons d ds => exact mod_eq_of_lt h

/-- Collecting words in a `uint64_t` is exact when the result fits. -/
lemma collect_eq : ∀ (n : ℕ) (ds : List ℕ) (num : ℕ), num * BASE ^ n + leading BASE n ds < 2 ^ 64 →
      collect n ds num = num * BASE ^ n + leading BASE n ds
  | 0, _, num, _ => by simp [collect, leading]
  | n + 1, ds, num, h => by
    have hshift : num * BASE ^ (n + 1) + leading BASE (n + 1) ds
        = (num * BASE + ds.headD 0) * BASE ^ n + leading BASE n ds.tail := by
      rw [leading_succ]
      ring
    rw [hshift] at h ⊢
    have hpos : 0 < BASE ^ n := Nat.pow_pos (by simp [BASE])
    have hfit : num * BASE + ds.headD 0 < 2 ^ 64 := by
      have := Nat.le_mul_of_pos_right (num * BASE + ds.headD 0) hpos
      omega
    rw [collect, pushWord_eq hfit]
    exact collect_eq n ds.tail _ h

lemma leading_unum : leading BASE (2 + 1) unum = 2 ^ 64 - 1 := by simp [leading, unum, BASE]

/-- `is_in_uint` for exponents up to two: the integer part, if it fits in a `uint64_t`. -/
lemma isInUint_eq {n : ObNumber} (hds : Digits BASE n.words) {k : ℕ} (hk : k ≤ 2) :
    n.isInUint k = if leading BASE (k + 1) n.words < 2 ^ 64
      then (true, leading BASE (k + 1) n.words) else (false, 0) := by
  have hunum : Digits BASE unum := by simp [Digits, unum, BASE]
  have hdecides : (if (k : ℤ) = 2 then notAbove (n.words.take ((k : ℤ) + 1).toNat) unum else true)
      = decide (leading BASE (k + 1) n.words < 2 ^ 64) := by
    have hlt := leading_lt (b := BASE) (by simp [BASE]) (k + 1) hds
    split_ifs with h2
    · obtain rfl : k = 2 := by omega
      have hiff := notAbove_iff hds hunum
      rw [show unum.length = 2 + 1 from rfl, leading_unum] at hiff
      rw [Bool.eq_iff_iff, decide_eq_true_iff, show ((2 : ℕ) + 1 : ℤ).toNat = 2 + 1 from rfl, hiff]
      omega
    · have : BASE ^ (k + 1) ≤ BASE ^ 2 := Nat.pow_le_pow_right (by simp [BASE]) (by omega)
      have hsq : BASE ^ 2 < 2 ^ 64 := by simp [BASE]
      exact (decide_eq_true (by omega)).symm
  rw [isInUint, if_neg (by omega)]
  simp only [hdecides, decide_eq_true_eq]
  split_ifs with hfit
  · have := collect_eq (k + 1) n.words 0 (by simpa using hfit)
    rw [show ((k : ℤ) + 1).toNat = k + 1 by omega, this]
    simpa using hfit
  · simpa using hfit

/-- The exponent `abs_compare_sys` gives a `uint64_t` brackets it between powers of the base. -/
lemma exists_expU {x : ℕ} (hx : x < 2 ^ 64) :
    ∃ u : ℕ, u ≤ 2 ∧ (if x ≥ BASE2 then 2 else if x ≥ BASE then 1 else 0 : ℤ) = u
      ∧ x < BASE ^ (u + 1) ∧ (u ≠ 0 → BASE ^ u ≤ x) := by
  have h1 : BASE ^ (0 + 1) = BASE := pow_one BASE
  have h2 : BASE ^ (1 + 1) = BASE2 := by simp [BASE, BASE2]
  have h3 : 2 ^ 64 < BASE ^ (2 + 1) := by simp [BASE]
  split_ifs with hhi hmid
  · exact ⟨2, le_rfl, rfl, hx.trans h3, fun _ => h2 ▸ hhi⟩
  · exact ⟨1, by omega, rfl, by omega, fun _ => h1 ▸ hmid⟩
  · exact ⟨0, by omega, rfl, by omega, fun h => absurd rfl h⟩

end ObNumber

section Integer

variable {n : ObNumber} {e : ℤ}

/-- A magnitude with a non-negative exponent is its integer part and a fraction below one. -/
lemma Normal.magnitude_split {k : ℕ} (h : Normal n k) :
    ∃ r : ℚ, (BASE : ℚ) ^ (k : ℤ) * mantissa BASE n.words = leading BASE (k + 1) n.words + r
      ∧ 0 ≤ r ∧ r < 1 ∧ (n.d.len ≤ k + 1 → r = 0) ∧ (k + 1 < n.d.len → 0 < r) := by
  have hb := base_pos
  have hlen := h.length_eq
  refine ⟨mantissa BASE (n.words.drop (k + 1)) / BASE, ?_, ?_, ?_, fun hle => ?_, fun hlt => ?_⟩
  · rw [magnitude_cut _ _ k, sub_self, zpow_zero, one_mul]
  · exact div_nonneg (mantissa_nonneg _ _) hb.le
  · exact (div_lt_one hb).2 (mantissa_lt (by simp [BASE]) (h.digits.drop _))
  · rw [drop_of_length_le (by omega)]
    simp [mantissa]
  · refine div_pos (mantissa_pos (by simp [BASE]) ?_ (h.last.drop _)) hb
    rw [Ne, drop_eq_nil_iff]
    omega

/-- The magnitude and the integer have one exponent: the integer parts decide, then the length. -/
lemma Normal.absCompareSys_of_exp_eq {k x : ℕ} (h : Normal n k) (hk : k ≤ 2) (hx : x < 2 ^ 64)
    (hu : (if x ≥ BASE2 then 2 else if x ≥ BASE then 1 else 0 : ℤ) = k) :
    n.absCompareSys x k = SignType.sign ((BASE : ℚ) ^ (k : ℤ) * mantissa BASE n.words - x) := by
  obtain ⟨r, hmag, hr0, hr1, hexact, hmore⟩ := h.magnitude_split
  rw [absCompareSys, if_neg (by omega), hu, if_neg (by simp), hmag, isInUint_eq h.digits hk]
  rcases lt_or_ge (leading BASE (k + 1) n.words) (2 ^ 64) with hfit | hfit
  · rw [if_pos hfit]
    rcases lt_trichotomy (leading BASE (k + 1) n.words) x with hlt | rfl | hlt
    · have : (leading BASE (k + 1) n.words : ℚ) + 1 ≤ x := by exact_mod_cast hlt
      rw [sign_neg (by linarith)]
      simp [hlt.ne, lt_asymm hlt]
    · rcases lt_or_ge (k + 1) n.d.len with hlen | hlen
      · have := hmore hlen
        rw [sign_pos (by linarith)]
        simp [show (k : ℤ) + 1 < n.d.len by omega]
      · rw [hexact hlen]
        simp [show ¬ (k : ℤ) + 1 < n.d.len by omega]
    · have : (x : ℚ) + 1 ≤ leading BASE (k + 1) n.words := by exact_mod_cast hlt
      rw [sign_pos (by linarith)]
      simp [hlt]
  · have : (x : ℚ) + 1 ≤ leading BASE (k + 1) n.words := by exact_mod_cast hx.trans_le hfit
    rw [if_neg (by omega), sign_pos (by linarith)]
    simp

/-- **The integer path is the sign of magnitude minus integer.** -/
theorem Normal.absCompareSys_eq (h : Normal n e) {x : ℕ} (hx : x < 2 ^ 64) :
    n.absCompareSys x e = SignType.sign ((BASE : ℚ) ^ e * mantissa BASE n.words - x) := by
  have hmag := h.magnitude_bounds
  have hpos : (0 : ℚ) < (BASE : ℚ) ^ e := zpow_pos base_pos e
  rcases lt_or_ge e 0 with hneg | hnonneg
  · rw [absCompareSys, if_pos hneg]
    rcases Nat.eq_zero_or_pos x with rfl | hx0
    · rw [if_pos rfl, sign_pos (by push_cast; linarith)]
      rfl
    · have hone : (BASE : ℚ) ^ (e + 1) ≤ 1 := by
        simpa using zpow_le_zpow_right₀ one_le_base (show e + 1 ≤ 0 by omega)
      have hx1 : (1 : ℚ) ≤ x := by exact_mod_cast hx0
      rw [if_neg hx0.ne', sign_neg (by linarith)]
      rfl
  · obtain ⟨k, rfl⟩ := Int.eq_ofNat_of_zero_le hnonneg
    obtain ⟨u, hu2, hu, hxu, hux⟩ := exists_expU hx
    rcases lt_trichotomy k u with hku | rfl | hku
    · have hle : (BASE : ℚ) ^ ((k : ℤ) + 1) ≤ (BASE : ℚ) ^ (u : ℤ) :=
        zpow_le_zpow_right₀ one_le_base (by omega)
      have hxq : (BASE : ℚ) ^ (u : ℤ) ≤ x := by
        exact_mod_cast hux (by omega)
      rw [absCompareSys, if_neg (by omega), hu, if_pos (by omega), if_neg (by omega),
        sign_neg (by linarith)]
      rfl
    · exact h.absCompareSys_of_exp_eq hu2 hx hu
    · have hle : (BASE : ℚ) ^ ((u : ℤ) + 1) ≤ (BASE : ℚ) ^ (k : ℤ) :=
        zpow_le_zpow_right₀ one_le_base (by omega)
      have hxq : (x : ℚ) < (BASE : ℚ) ^ ((u : ℤ) + 1) := by
        exact_mod_cast hxu
      rw [absCompareSys, if_neg (by omega), hu, if_pos (by omega), if_pos (by omega),
        sign_pos (by linarith)]
      rfl

lemma Normal.isZero_eq (h : Normal n e) : n.isZero = false := by
  have := h.len_pos
  simp [isZero]
  omega

theorem Normalized.compareUint64_eq (h : Normalized n) {x : ℕ} (hx : x < 2 ^ 64) :
    n.compareUint64 x = SignType.sign (n.value - x) := by
  rcases h with hz | ⟨e, hn, he⟩
  · rw [value_of_zero hz]
    rcases Nat.eq_zero_or_pos x with rfl | hx0
    · simp [compareUint64, isZero, hz]
    · have hx1 : (0 : ℚ) < x := by exact_mod_cast hx0
      rw [sign_neg (by linarith)]
      simp [compareUint64, isZero, hz, hx0.ne']
  · have hb := he.bounds
    rw [compareUint64, hn.isZero_eq, if_neg Bool.false_ne_true]
    cases hs : n.d.sign with
    | negative =>
      have hneg := hn.value_neg he hs
      rw [sign_neg (by linarith)]
      simp [isNegative, hs]
    | positive =>
      have hexp := calcExp_positive (e := e) (by omega) (by omega)
      rw [← hs, ← hn.exp_eq] at hexp
      rw [if_neg (by simp [isNegative, hs]), EXP_ZERO,
        show (n.d.exp : ℤ) - (0x40 : ℕ) = e by omega, hn.absCompareSys_eq hx, hn.value_eq he, hs,
        Sign.factor, one_mul]

theorem Normalized.compareInt64_eq (h : Normalized n) {x : ℤ} (hlo : -2 ^ 63 ≤ x)
    (hhi : x < 2 ^ 63) : n.compareInt64 x = SignType.sign (n.value - x) := by
  rcases h with hz | ⟨e, hn, he⟩
  · rw [value_of_zero hz, zero_sub, Left.sign_neg, compareInt64, if_pos (by simp [isZero, hz])]
    rcases lt_trichotomy x 0 with hx | rfl | hx
    · have hxq : (x : ℚ) < 0 := by exact_mod_cast hx
      simp [hx, sign_neg hxq]
    · simp
    · have hxq : (0 : ℚ) < x := by exact_mod_cast hx
      simp [hx.ne', not_lt.2 hx.le, sign_pos hxq]
  · have hb := he.bounds
    rw [compareInt64, hn.isZero_eq, if_neg Bool.false_ne_true]
    cases hs : n.d.sign with
    | negative =>
      have hneg := hn.value_neg he hs
      rw [if_pos (by simp [isNegative, hs])]
      rcases lt_or_ge x 0 with hx | hx
      · have hexp := calcExp_negative (e := e) (by omega) (by omega)
        rw [← hs, ← hn.exp_eq] at hexp
        -- the magnitude of `x`, `2^63` for `INT64_MIN`
        obtain ⟨m, rfl⟩ : ∃ m : ℕ, x = -m := ⟨x.natAbs, by omega⟩
        have hm : (((-(m : ℤ) + 1) * -1).toNat + 1) % 2 ^ 64 = m := by omega
        rw [if_neg (by omega), hm, EXP_ZERO, show ((0x40 : ℕ) : ℤ) - n.d.exp = e by omega,
          hn.absCompareSys_eq (by omega), hn.value_eq he, hs, Sign.factor, ← SignType.coe_neg,
          ← Left.sign_neg]
        push_cast
        ring_nf
      · have hxq : (0 : ℚ) ≤ x := by exact_mod_cast hx
        rw [if_pos hx, sign_neg (by linarith)]
        rfl
    | positive =>
      have hpos := hn.value_pos he hs
      rw [if_neg (by simp [isNegative, hs])]
      rcases lt_or_ge 0 x with hx | hx
      · -- the same test as for a `uint64_t`
        obtain ⟨m, rfl⟩ := Int.eq_ofNat_of_zero_le hx.le
        have hcmp := Normalized.compareUint64_eq (.inr ⟨e, hn, he⟩) (by omega : m < 2 ^ 64)
        rw [compareUint64, hn.isZero_eq, if_neg Bool.false_ne_true,
          if_neg (by simp [isNegative, hs])] at hcmp
        rw [if_neg (by omega), Int.toNat_natCast, hcmp, Int.cast_natCast]
      · have hxq : (x : ℚ) ≤ 0 := by exact_mod_cast hx
        rw [if_pos hx, sign_pos (by linarith)]
        rfl

end Integer

/-- **Every comparison is the sign of the difference of the values.** -/
theorem compare_sign (a b : ObNumber) (ha : Normalized a) (hb : Normalized b) :
    compare a.d a.digits b.d b.digits = SignType.sign (a.value - b.value)
      ∧ compareV2 a.d a.digits b.d b.digits = SignType.sign (a.value - b.value)
      ∧ (isEqualV2 a.d a.digits b.d b.digits = true ↔ a.value = b.value)
      ∧ (∀ x : ℤ, -2 ^ 63 ≤ x → x < 2 ^ 63 → a.compareInt64 x = SignType.sign (a.value - x))
      ∧ ∀ x : ℕ, x < 2 ^ 64 → a.compareUint64 x = SignType.sign (a.value - x) := by
  have hcmp := ha.compare_eq hb
  refine ⟨hcmp, ?_, ?_, fun x hlo hhi => ha.compareInt64_eq hlo hhi,
    fun x hx => ha.compareUint64_eq hx⟩
  · rw [compareV2_eq, hcmp]
  · rw [isEqualV2_iff ha.stored hb.stored, hcmp, ← sub_eq_zero (b := b.value),
      ← sign_eq_zero_iff (a := a.value - b.value)]
    cases SignType.sign (a.value - b.value) <;> decide

/-- `UINT64_MAX` and one half below zero, as numbers. -/
theorem compare_sign_uint64Max :
    let a : ObNumber := ⟨⟨3, 66, .positive⟩, [18, 446744073, 709551615]⟩
    let b : ObNumber := ⟨⟨1, 65, .negative⟩, [500000000]⟩
    Normalized a ∧ Normalized b
      ∧ compare a.d a.digits b.d b.digits = SignType.sign (a.value - b.value)
      ∧ a.compareUint64 (2 ^ 64 - 1) = SignType.sign (a.value - (2 ^ 64 - 1 : ℕ)) := by
  intro a b
  have ha : Normalized a := .inr ⟨2, by decide, by decide⟩
  have hb : Normalized b := .inr ⟨-1, by decide, by decide⟩
  have h := compare_sign a b ha hb
  exact ⟨ha, hb, h.1, h.2.2.2.2 (2 ^ 64 - 1) (by norm_num)⟩

end OceanBase.Number
