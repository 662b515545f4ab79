import DailyReadCoding.Lib.Positional

/-!
# `ObNumber`: decimal numbers in base `10⁹`

A number is a descriptor and an array of words, most significant first (`ob_number_v2.h`,
`ob_define.h`).  The descriptor packs the sign and the exponent in one byte `se_`: the sign is its
top bit, and a negative number stores the complement of its exponent, so that the byte alone
orders numbers of different sign or size.
-/

namespace OceanBase.Number

open Positional

/-! ## The stored form -/

def BASE : ℕ := 1000000000
def BASE2 : ℕ := 1000000000000000000
def EXP_ZERO : ℕ := 0x40
def MAX_STORE_LEN : ℕ := 9
def MAX_INTEGER_EXP : ℤ := 14
def MAX_DECIMAL_EXP : ℤ := 15

/-- `NEGATIVE = 0`, `POSITIVE = 1`. -/
inductive Sign
  | negative
  | positive
  deriving DecidableEq, Repr

def Sign.bit : Sign → ℕ
  | .negative => 0
  | .positive => 1

/-- `ObNumberDesc`.  `len` is a `uint8_t`, `exp` a seven bit field and `sign` the bit above it. -/
structure Desc where
  len : ℕ
  exp : ℕ
  sign : Sign
  deriving DecidableEq, Repr

/-- The byte `se_` that holds `exp_` in its low seven bits and `sign_` in its top bit. -/
def Desc.se (d : Desc) : ℕ := d.exp + 128 * d.sign.bit

structure ObNumber where
  d : Desc
  digits : List ℕ
  deriving DecidableEq, Repr

namespace ObNumber

/-- The words of the number: the first `len_` of the memory at `digits_`. -/
def words (n : ObNumber) : List ℕ := n.digits.take n.d.len

def isZero (n : ObNumber) : Bool := n.d.len == 0

def isNegative (n : ObNumber) : Bool := n.d.sign == .negative

def setZero (n : ObNumber) : ObNumber := { n with d := ⟨0, 0, .positive⟩ }

end ObNumber

/-! ## The exponent field -/

/-- `0x7f & ~x` for a seven bit `x`. -/
def flip7 (x : ℕ) : ℕ := 0x7f - x

/-- The exponent field as `calc_desc_and_check` writes it; `++` on the field wraps at `2^7`. -/
def calcExp (sign : Sign) (exp : ℤ) : ℕ :=
  let field := ((EXP_ZERO + exp) % 128).toNat
  match sign with
  | .negative => (flip7 field + 1) % 128
  | .positive => field

def getDecodeExp (d : Desc) : ℤ :=
  let e : ℕ := if d.sign = .negative ∧ EXP_ZERO ≠ d.exp then flip7 d.exp + 1 else d.exp
  e - EXP_ZERO

lemma calcExp_positive {e : ℤ} (hlo : -64 ≤ e) (hhi : e < 64) :
    (calcExp .positive e : ℤ) = 64 + e := by
  simp only [calcExp, EXP_ZERO]
  omega

lemma calcExp_negative {e : ℤ} (hlo : -63 ≤ e) (hhi : e < 64) :
    (calcExp .negative e : ℤ) = 64 - e := by
  simp only [calcExp, EXP_ZERO, flip7]
  omega

lemma getDecodeExp_calcExp {e : ℤ} (hlo : -63 ≤ e) (hhi : e < 64) (len : ℕ) :
    ∀ s, getDecodeExp ⟨len, calcExp s e, s⟩ = e
  | .positive => by
    have := calcExp_positive (by omega) hhi
    simp [getDecodeExp, EXP_ZERO]
    omega
  | .negative => by
    have := calcExp_negative hlo hhi
    simp only [getDecodeExp, EXP_ZERO, flip7, true_and]
    split_ifs <;> omega

/-! ## The representation invariant -/

/-- A non-zero number in normal form with exponent `e`. -/
structure Normal (n : ObNumber) (e : ℤ) : Prop where
  len_pos : 0 < n.d.len
  len_le : n.d.len ≤ MAX_STORE_LEN
  stored : n.d.len ≤ n.digits.length
  digits : Digits BASE n.words
  first : n.words.head? ≠ some 0
  last : Trimmed n.words
  exp_eq : n.d.exp = calcExp n.d.sign e

/-- The exponents that pass `exp_check_` in MySQL mode. -/
def InLimits (e : ℤ) : Prop := -MAX_DECIMAL_EXP ≤ e ∧ e ≤ MAX_INTEGER_EXP

/-- Zero as `set_zero` writes it, or a number in normal form within the exponent limits. -/
def Normalized (n : ObNumber) : Prop :=
  n.d = ⟨0, 0, .positive⟩ ∨ ∃ e, Normal n e ∧ InLimits e

instance (n : ObNumber) (e : ℤ) : Decidable (Normal n e) :=
  decidable_of_iff
    (0 < n.d.len ∧ n.d.len ≤ MAX_STORE_LEN ∧ n.d.len ≤ n.digits.length ∧ Digits BASE n.words
      ∧ n.words.head? ≠ some 0 ∧ Trimmed n.words ∧ n.d.exp = calcExp n.d.sign e)
    ⟨fun ⟨h1, h2, h3, h4, h5, h6, h7⟩ => ⟨h1, h2, h3, h4, h5, h6, h7⟩,
      fun ⟨h1, h2, h3, h4, h5, h6, h7⟩ => ⟨h1, h2, h3, h4, h5, h6, h7⟩⟩

instance (e : ℤ) : Decidable (InLimits e) :=
  inferInstanceAs (Decidable (-MAX_DECIMAL_EXP ≤ e ∧ e ≤ MAX_INTEGER_EXP))

/-! ## The value -/

def Sign.factor : Sign → ℚ
  | .negative => -1
  | .positive => 1

/-- `sign · Σ digits[i] · BASE^(exp - i)` -/
def ObNumber.value (n : ObNumber) : ℚ :=
  n.d.sign.factor *
    ∑ i ∈ Finset.range n.d.len, (n.digits.getD i 0 : ℚ) * (BASE : ℚ) ^ (getDecodeExp n.d - i)

lemma InLimits.bounds {e : ℤ} (h : InLimits e) : -15 ≤ e ∧ e ≤ 14 := h

section Normal

variable {n : ObNumber} {e : ℤ}

lemma ObNumber.words_length (h : n.d.len ≤ n.digits.length) : n.words.length = n.d.len := by
  rw [words, List.length_take, min_eq_left h]

lemma ObNumber.words_getD {i : ℕ} (hi : i < n.d.len) : n.words.getD i 0 = n.digits.getD i 0 := by
  simp [words, List.getD_eq_getElem?_getD, hi]

/-- The value as sign, power of the base and mantissa, whatever the form of the words. -/
lemma ObNumber.value_eq_mantissa (h : n.d.len ≤ n.digits.length) :
    n.value = n.d.sign.factor * ((BASE : ℚ) ^ getDecodeExp n.d * mantissa BASE n.words) := by
  rw [← sum_zpow_eq_mantissa (by simp [BASE]), words_length h]
  refine congrArg _ (Finset.sum_congr rfl fun i hi => ?_)
  rw [words_getD (Finset.mem_range.1 hi)]

namespace Normal

variable (h : Normal n e)

include h

lemma length_eq : n.words.length = n.d.len := ObNumber.words_length h.stored

lemma words_eq_cons : ∃ d ds, n.words = d :: ds ∧ 0 < d := by
  have hlen := h.length_eq
  cases hw : n.words with
  | nil => have := h.len_pos; simp [hw] at hlen; omega
  | cons d ds =>
    refine ⟨d, ds, rfl, Nat.pos_of_ne_zero ?_⟩
    rintro rfl
    exact h.first (by simp [hw])

lemma decode_eq (he : InLimits e) : getDecodeExp n.d = e := by
  have hb := he.bounds
  have := getDecodeExp_calcExp (e := e) (by omega) (by omega) n.d.len n.d.sign
  rwa [← h.exp_eq] at this

/-- The value as sign, power of the base and mantissa. -/
theorem value_eq (he : InLimits e) :
    n.value = n.d.sign.factor * ((BASE : ℚ) ^ e * mantissa BASE n.words) := by
  rw [ObNumber.value_eq_mantissa h.stored, h.decode_eq he]

lemma one_le_mantissa : 1 ≤ mantissa BASE n.words := by
  obtain ⟨d, ds, hw, hd⟩ := h.words_eq_cons
  have h1 : (1 : ℚ) ≤ d := by exact_mod_cast hd
  rw [hw]
  exact h1.trans (le_mantissa BASE d ds)

/-- The first word is not zero, so any number of leading words has its full size. -/
lemma base_pow_le_leading (m : ℕ) : BASE ^ m ≤ leading BASE (m + 1) n.words := by
  obtain ⟨d, ds, hw, hd⟩ := h.words_eq_cons
  rw [hw]
  exact pow_le_leading hd

lemma mantissa_lt_base : mantissa BASE n.words < BASE := mantissa_lt (by simp [BASE]) h.digits

end Normal

end Normal

lemma value_of_zero {n : ObNumber} (h : n.d = ⟨0, 0, .positive⟩) : n.value = 0 := by
  simp [ObNumber.value, h]

end OceanBase.Number
