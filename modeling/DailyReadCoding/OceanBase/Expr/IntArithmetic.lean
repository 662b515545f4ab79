import Mathlib

/-!
# Integer addition, subtraction and multiplication of SQL

`ObExprAdd`, `ObExprMinus` and `ObExprMul` compute in 64 bits and ask a predicate whether the result
was too large. A result of two signed operands is signed, every other one is unsigned.

**Addition and subtraction.** The predicates look at the top bits of the operands and of the wrapped
result. `add_overflow_iff` and `minus_overflow_iff`: they are exact for all eight combinations, in
the order in which the callers pass the operands.

**Multiplication.** With an unsigned operand the product is judged from one partial product of
32-bit halves. The carry out of the other one is lost: `mul_overflow_exact_iff` says for which
operands that is noticed.

`int64_t` and `uint64_t` are `BitVec 64`; `>>` of an `int64_t` is `sshiftRight`.
-/

namespace OceanBase.Expr

open BitVec

/-- An operand or a result, with its type class. -/
inductive Operand where
  | int (val : BitVec 64)
  | uint (val : BitVec 64)
  deriving DecidableEq

def Operand.value : Operand → ℤ
  | .int val => val.toInt
  | .uint val => val.toNat

/-- The values of the result type: `int64_t` for two signed operands, `uint64_t` otherwise. -/
def Representable : Operand → Operand → ℤ → Prop
  | .int _, .int _, z => -2 ^ 63 ≤ z ∧ z < 2 ^ 63
  | _, _, z => 0 ≤ z ∧ z < 2 ^ 64

/-- What a function returns: whether it reports `OB_OPERATE_OVERFLOW`, and the result it set. -/
structure Answer where
  overflow : Bool
  res : Operand
  deriving DecidableEq

/-! ## Addition -/

namespace Add

def SHIFT_OFFSET : ℕ := 63

def isIntIntOutOfRange (val1 val2 res : BitVec 64) : Bool :=
  val1.sshiftRight SHIFT_OFFSET ≠ res.sshiftRight SHIFT_OFFSET ∧
    val2.sshiftRight SHIFT_OFFSET ≠ res.sshiftRight SHIFT_OFFSET

def isIntUintOutOfRange (val1 val2 res : BitVec 64) : Bool :=
  val1 >>> SHIFT_OFFSET = res >>> SHIFT_OFFSET ∧ val2 >>> SHIFT_OFFSET ≠ res >>> SHIFT_OFFSET

def isUintUintOutOfRange (val1 val2 res : BitVec 64) : Bool :=
  (val1 >>> SHIFT_OFFSET) + (val2 >>> SHIFT_OFFSET) > res >>> SHIFT_OFFSET

end Add

/-- `add_int_int`, `add_int_uint`, `add_uint_int` and `add_uint_uint`. -/
def add : Operand → Operand → Answer
  | .int left, .int right =>
    let res := left + right
    ⟨Add.isIntIntOutOfRange left right res, .int res⟩
  | .int left, .uint right =>
    let res := left + right
    ⟨Add.isIntUintOutOfRange left right res, .uint res⟩
  | .uint left, .int right =>
    let res := left + right
    ⟨Add.isIntUintOutOfRange right left res, .uint res⟩
  | .uint left, .uint right =>
    let res := left + right
    ⟨Add.isUintUintOutOfRange left right res, .uint res⟩

/-! ## Subtraction -/

namespace Minus

def SHIFT_OFFSET : ℕ := 63

def isIntIntOutOfRange (val1 val2 res : BitVec 64) : Bool :=
  val1.sshiftRight SHIFT_OFFSET ≠ res.sshiftRight SHIFT_OFFSET ∧
    val2.sshiftRight SHIFT_OFFSET = res.sshiftRight SHIFT_OFFSET

def isIntUintOutOfRange (val1 val2 res : BitVec 64) : Bool :=
  ¬ (0#64 = val1.sshiftRight SHIFT_OFFSET ∧ 0#64 = val2 >>> SHIFT_OFFSET ∧
    0#64 = res >>> SHIFT_OFFSET)

def isUintIntOutOfRange (val1 val2 res : BitVec 64) : Bool :=
  val1 >>> SHIFT_OFFSET = val2 >>> SHIFT_OFFSET ∧ val1 >>> SHIFT_OFFSET ≠ res >>> SHIFT_OFFSET

def isUintUintOutOfRange (val1 val2 _res : BitVec 64) : Bool := val1 < val2

end Minus

/-- `minus_int_int`, `minus_int_uint`, `minus_uint_int` and `minus_uint_uint`. The third passes its
operands the other way round. -/
def minus : Operand → Operand → Answer
  | .int left, .int right =>
    let res := left - right
    ⟨Minus.isIntIntOutOfRange left right res, .int res⟩
  | .int left, .uint right =>
    let res := left - right
    ⟨Minus.isIntUintOutOfRange left right res, .uint res⟩
  | .uint left, .int right =>
    let res := left - right
    ⟨Minus.isUintIntOutOfRange right left res, .uint res⟩
  | .uint left, .uint right =>
    let res := left - right
    ⟨Minus.isUintUintOutOfRange left right res, .uint res⟩

/-! ## Multiplication -/

def INT64_MAX : BitVec 64 := BitVec.intMax 64

def INT64_MIN : BitVec 64 := BitVec.intMin 64

def UINT32_MAX : BitVec 64 := 0xffffffff

def isMultiOverflow64 (a b : BitVec 64) : Bool :=
  if 0#64 = b ∨ 0#64 = a then false
  else if -1#64 = b then INT64_MIN = a
  else if BitVec.slt 0#64 a ∧ BitVec.slt 0#64 b then (INT64_MAX.sdiv b).slt a
  else if a.slt 0#64 ∧ b.slt 0#64 then a.slt (INT64_MAX.sdiv b)
  else if BitVec.slt 0#64 a ∧ b.slt 0#64 then (INT64_MIN.sdiv b).slt a
  else a.slt (INT64_MIN.sdiv b)

namespace Mul

def SHIFT_OFFSET : ℕ := 32

/-- The smaller operand first, then the partial product with the upper half of the larger one. -/
def isUintUintMulOutOfRange (val1 val2 : BitVec 64) : Bool :=
  let (val1, val2) := if val1 > val2 then (val2, val1) else (val1, val2)
  if val1 > UINT32_MAX then true
  else
    let c := val2 >>> SHIFT_OFFSET
    let r := val1 * c
    r > UINT32_MAX

def isIntUintMulOutOfRange (val1 val2 : BitVec 64) : Bool :=
  if val1.slt 0#64 ∧ 0#64 ≠ val2 then true else isUintUintMulOutOfRange val1 val2

end Mul

/-- `mul_int_int`, `mul_int_uint`, `mul_uint_int` and `mul_uint_uint`. -/
def mul : Operand → Operand → Answer
  | .int left, .int right => ⟨isMultiOverflow64 left right, .int (left * right)⟩
  | .int left, .uint right => ⟨Mul.isIntUintMulOutOfRange left right, .uint (left * right)⟩
  | .uint left, .int right => ⟨Mul.isIntUintMulOutOfRange right left, .uint (left * right)⟩
  | .uint left, .uint right => ⟨Mul.isUintUintMulOutOfRange left right, .uint (left * right)⟩

/-! ## Exactness of the sign tests -/

lemma toInt_eq (x : BitVec 64) :
    x.toInt = if x.toNat / 2 ^ 63 = 0 then (x.toNat : ℤ) else (x.toNat : ℤ) - 2 ^ 64 := by
  have := x.isLt
  rw [toInt_eq_toNat_cond]
  split_ifs <;> omega

lemma sshiftRight_eq_iff (x y : BitVec 64) :
    x.sshiftRight 63 = y.sshiftRight 63 ↔ x.toNat / 2 ^ 63 = y.toNat / 2 ^ 63 := by
  have hx := x.isLt
  have hy := y.isLt
  rw [← toInt_inj, toInt_sshiftRight, toInt_sshiftRight,
    Int.shiftRight_eq_div_pow, Int.shiftRight_eq_div_pow, toInt_eq, toInt_eq]
  split_ifs <;> omega

lemma toNat_ushiftRight (x : BitVec 64) : (x >>> 63).toNat = x.toNat / 2 ^ 63 := by
  rw [BitVec.toNat_ushiftRight, Nat.shiftRight_eq_div_pow]

lemma ushiftRight_eq_iff (x y : BitVec 64) :
    x >>> 63 = y >>> 63 ↔ x.toNat / 2 ^ 63 = y.toNat / 2 ^ 63 := by
  rw [← toNat_inj, toNat_ushiftRight, toNat_ushiftRight]

lemma zero_eq_sshiftRight_iff (x : BitVec 64) : 0#64 = x.sshiftRight 63 ↔ x.toNat / 2 ^ 63 = 0 := by
  have h := sshiftRight_eq_iff 0#64 x
  rw [zero_sshiftRight] at h
  rw [h, eq_comm]
  rfl

lemma zero_eq_ushiftRight_iff (x : BitVec 64) : 0#64 = x >>> 63 ↔ x.toNat / 2 ^ 63 = 0 := by
  rw [← toNat_inj, toNat_ushiftRight]
  simp [eq_comm]

/-- **Addition reports exactly the sums that do not fit.** -/
theorem add_overflow_iff (l r : Operand) :
    (add l r).overflow = true ↔ ¬ Representable l r (l.value + r.value) := by
  cases l with
  | int left =>
    have hl := left.isLt
    cases r with
    | int right =>
      have hr := right.isLt
      simp only [add, Add.isIntIntOutOfRange, Add.SHIFT_OFFSET, decide_eq_true_eq, ne_eq,
        sshiftRight_eq_iff, Representable, Operand.value, toInt_eq, toNat_add]
      split_ifs <;> omega
    | uint right =>
      have hr := right.isLt
      simp only [add, Add.isIntUintOutOfRange, Add.SHIFT_OFFSET, decide_eq_true_eq, ne_eq,
        ushiftRight_eq_iff, Representable, Operand.value, toInt_eq, toNat_add]
      split_ifs <;> omega
  | uint left =>
    have hl := left.isLt
    cases r with
    | int right =>
      have hr := right.isLt
      simp only [add, Add.isIntUintOutOfRange, Add.SHIFT_OFFSET, decide_eq_true_eq, ne_eq,
        ushiftRight_eq_iff, Representable, Operand.value, toInt_eq, toNat_add]
      split_ifs <;> omega
    | uint right =>
      have hr := right.isLt
      simp only [add, Add.isUintUintOutOfRange, Add.SHIFT_OFFSET, decide_eq_true_eq, gt_iff_lt,
        lt_def, toNat_ushiftRight, Representable, Operand.value, toNat_add]
      omega

/-- **Subtraction reports exactly the differences that do not fit.** -/
theorem minus_overflow_iff (l r : Operand) :
    (minus l r).overflow = true ↔ ¬ Representable l r (l.value - r.value) := by
  cases l with
  | int left =>
    have hl := left.isLt
    cases r with
    | int right =>
      have hr := right.isLt
      simp only [minus, Minus.isIntIntOutOfRange, Minus.SHIFT_OFFSET, decide_eq_true_eq, ne_eq,
        sshiftRight_eq_iff, Representable, Operand.value, toInt_eq, toNat_sub]
      split_ifs <;> omega
    | uint right =>
      have hr := right.isLt
      simp only [minus, Minus.isIntUintOutOfRange, Minus.SHIFT_OFFSET, decide_eq_true_eq,
        zero_eq_sshiftRight_iff, zero_eq_ushiftRight_iff, Representable, Operand.value, toInt_eq,
        toNat_sub]
      split_ifs <;> omega
  | uint left =>
    have hl := left.isLt
    cases r with
    | int right =>
      have hr := right.isLt
      -- the test is the same with the operands swapped, since it asks for equal top bits first
      simp only [minus, Minus.isUintIntOutOfRange, Minus.SHIFT_OFFSET, decide_eq_true_eq, ne_eq,
        ushiftRight_eq_iff, Representable, Operand.value, toInt_eq, toNat_sub]
      split_ifs <;> omega
    | uint right =>
      have hr := right.isLt
      simp only [minus, Minus.isUintUintOutOfRange, decide_eq_true_eq, lt_def,
        Representable, Operand.value]
      omega

/-- **The sign tests are exact** for every combination of operand types. -/
theorem overflow_iff_not_representable (l r : Operand) :
    ((add l r).overflow = true ↔ ¬ Representable l r (l.value + r.value)) ∧
      ((minus l r).overflow = true ↔ ¬ Representable l r (l.value - r.value)) :=
  ⟨add_overflow_iff l r, minus_overflow_iff l r⟩

/-! ## The partial product -/

/-- The partial product with the upper half of the larger factor fits into 32 bits, but not with the
carry out of the lower half. -/
def CarryLost (m n : ℕ) : Prop :=
  min m n * (max m n / 2 ^ 32) < 2 ^ 32 ∧
    2 ^ 32 ≤ min m n * (max m n / 2 ^ 32) + min m n * (max m n % 2 ^ 32) / 2 ^ 32

instance (m n : ℕ) : Decidable (CarryLost m n) := inferInstanceAs (Decidable (_ ∧ _))

lemma two_pow_le_mul_iff (m n : ℕ) : 2 ^ 64 ≤ m * n ↔
    2 ^ 32 ≤ min m n * (max m n / 2 ^ 32) + min m n * (max m n % 2 ^ 32) / 2 ^ 32 := by
  have hsplit : m * n = 2 ^ 32 * (min m n * (max m n / 2 ^ 32)) + min m n * (max m n % 2 ^ 32) := by
    calc m * n = min m n * max m n := (min_mul_max m n).symm
      _ = min m n * (2 ^ 32 * (max m n / 2 ^ 32) + max m n % 2 ^ 32) := by rw [Nat.div_add_mod]
      _ = 2 ^ 32 * (min m n * (max m n / 2 ^ 32)) + min m n * (max m n % 2 ^ 32) := by ring
  rw [hsplit, show 2 ^ 64 = 2 ^ 32 * 2 ^ 32 by rfl]
  omega

/-- The test once the smaller factor stands first. -/
lemma partialProduct_iff {x y : BitVec 64} (h : x.toNat ≤ y.toNat) :
    (if x > UINT32_MAX then true else decide (x * (y >>> 32) > UINT32_MAX)) = true ↔
      2 ^ 32 ≤ x.toNat * (y.toNat / 2 ^ 32) := by
  have hmax : UINT32_MAX.toNat = 2 ^ 32 - 1 := rfl
  have hshift : (y >>> 32).toNat = y.toNat / 2 ^ 32 := by
    rw [BitVec.toNat_ushiftRight, Nat.shiftRight_eq_div_pow]
  have hy : y.toNat / 2 ^ 32 < 2 ^ 32 := by omega
  by_cases hx : x > UINT32_MAX
  · -- both factors have an upper half
    rw [gt_iff_lt, lt_def, hmax] at hx
    have hpos : 1 ≤ y.toNat / 2 ^ 32 := by omega
    have hle : x.toNat * 1 ≤ x.toNat * (y.toNat / 2 ^ 32) := Nat.mul_le_mul_left _ hpos
    rw [if_pos (by rw [gt_iff_lt, lt_def, hmax]; omega)]
    simp only [true_iff]
    omega
  · rw [if_neg hx, decide_eq_true_eq]
    rw [gt_iff_lt, lt_def, hmax] at hx
    have hlt : x.toNat * (y.toNat / 2 ^ 32) < 2 ^ 64 := by
      have hlt' : x.toNat * (y.toNat / 2 ^ 32) < 2 ^ 32 * 2 ^ 32 := Nat.mul_lt_mul'' (by omega) hy
      omega
    rw [gt_iff_lt, lt_def, hmax, toNat_mul, hshift, Nat.mod_eq_of_lt hlt]
    omega

lemma isUintUintMulOutOfRange_iff (x y : BitVec 64) : Mul.isUintUintMulOutOfRange x y = true ↔
    2 ^ 32 ≤ min x.toNat y.toNat * (max x.toNat y.toNat / 2 ^ 32) := by
  unfold Mul.isUintUintMulOutOfRange
  by_cases hxy : x > y
  · have hle : y.toNat ≤ x.toNat := le_of_lt hxy
    rw [if_pos hxy, min_eq_right hle, max_eq_left hle]
    exact partialProduct_iff hle
  · have hle : x.toNat ≤ y.toNat := Nat.le_of_not_lt hxy
    rw [if_neg hxy, min_eq_left hle, max_eq_right hle]
    exact partialProduct_iff hle

/-- The partial product is exact unless the carry is lost. -/
lemma isUintUintMulOutOfRange_exact (x y : BitVec 64) :
    (Mul.isUintUintMulOutOfRange x y = true ↔ 2 ^ 64 ≤ x.toNat * y.toNat) ↔
      ¬ CarryLost x.toNat y.toNat := by
  rw [isUintUintMulOutOfRange_iff, two_pow_le_mul_iff, CarryLost]
  omega

/-! ## Signed products -/

/-- Truncating division by a number of either sign decides whether a product passes a bound. -/
lemma tdiv_lt_iff {m a b : ℤ} (hm : 0 ≤ m) (hb : 0 < b) :
    (m.tdiv b < a ↔ m < a * b) ∧ (a < (-m).tdiv b ↔ m < -a * b) := by
  have hdiv : m.tdiv b = m / b := Int.tdiv_eq_ediv_of_nonneg hm
  constructor
  · rw [hdiv, Int.ediv_lt_iff_lt_mul hb]
  · rw [Int.neg_tdiv, hdiv, ← Int.ediv_lt_iff_lt_mul hb]
    omega

lemma isMultiOverflow64_iff (a b : BitVec 64) : isMultiOverflow64 a b = true ↔
    ¬ (-2 ^ 63 ≤ a.toInt * b.toInt ∧ a.toInt * b.toInt < 2 ^ 63) := by
  have ha := a.toInt_lt
  have ha' := a.le_toInt
  have hmax : INT64_MAX.toInt = 2 ^ 63 - 1 := by decide
  have hmin : INT64_MIN.toInt = -2 ^ 63 := by decide
  have hzero : ∀ x : BitVec 64, 0#64 = x ↔ x.toInt = 0 := by
    intro x
    rw [← toInt_inj, toInt_zero, eq_comm]
  have hone : -1#64 = b ↔ b.toInt = -1 := by
    rw [← toInt_inj, eq_comm]
    rfl
  have hleast : INT64_MIN = a ↔ a.toInt = -2 ^ 63 := by rw [← toInt_inj, hmin, eq_comm]
  unfold isMultiOverflow64
  simp only [hzero, hone, hleast, slt_iff_toInt_lt, toInt_zero]
  by_cases h0 : b.toInt = 0 ∨ a.toInt = 0
  · rcases h0 with h0 | h0 <;> simp [h0]
  rw [if_neg h0]
  by_cases h1 : b.toInt = -1
  · rw [if_pos h1, decide_eq_true_eq, h1]
    omega
  rw [if_neg h1]
  -- no division below overflows
  have hdiv : ∀ m : BitVec 64, (m.sdiv b).toInt = m.toInt.tdiv b.toInt := by
    intro m
    exact toInt_sdiv_of_ne_or_ne m b (Or.inr fun h => h1 (hone.1 h.symm))
  rcases lt_or_gt_of_ne (not_or.1 h0).2 with haneg | hapos
  · rcases lt_or_gt_of_ne (not_or.1 h0).1 with hbneg | hbpos
    · have hp := mul_pos_of_neg_of_neg haneg hbneg
      have hlt := (@tdiv_lt_iff (2 ^ 63 - 1) (-a.toInt) (-b.toInt) (by omega) (by omega)).1
      rw [Int.tdiv_neg, neg_mul_neg] at hlt
      rw [if_neg (by omega), if_pos ⟨haneg, hbneg⟩, slt_iff_toInt_lt, hdiv, hmax]
      omega
    · have hp := mul_neg_of_neg_of_pos haneg hbpos
      have hlt := (@tdiv_lt_iff (2 ^ 63) a.toInt b.toInt (by omega) hbpos).2
      rw [neg_mul] at hlt
      rw [if_neg (by omega), if_neg (by omega), if_neg (by omega), slt_iff_toInt_lt, hdiv, hmin]
      omega
  · rcases lt_or_gt_of_ne (not_or.1 h0).1 with hbneg | hbpos
    · have hp := mul_neg_of_pos_of_neg hapos hbneg
      have hlt := (@tdiv_lt_iff (2 ^ 63) a.toInt (-b.toInt) (by omega) (by omega)).1
      rw [Int.tdiv_neg, ← Int.neg_tdiv, mul_neg] at hlt
      rw [if_neg (by omega), if_neg (by omega), if_pos ⟨hapos, hbneg⟩, slt_iff_toInt_lt, hdiv, hmin]
      omega
    · have hp := mul_pos hapos hbpos
      have hlt := (@tdiv_lt_iff (2 ^ 63 - 1) a.toInt b.toInt (by omega) hbpos).1
      rw [if_pos ⟨hapos, hbpos⟩, slt_iff_toInt_lt, hdiv, hmax]
      omega

/-! ## Products -/

/-- The products whose overflow goes unnoticed. -/
def LostCarry : Operand → Operand → Prop
  | .int _, .int _ => False
  | l, r => 0 ≤ l.value ∧ 0 ≤ r.value ∧ CarryLost l.value.toNat r.value.toNat

lemma natCast_mul_iff (m n : ℕ) : ¬ (0 ≤ (m : ℤ) * n ∧ (m : ℤ) * n < 2 ^ 64) ↔ 2 ^ 64 ≤ m * n := by
  omega

lemma isIntUintMulOutOfRange_exact (x y : BitVec 64) : (Mul.isIntUintMulOutOfRange x y = true ↔
        ¬ (0 ≤ x.toInt * y.toNat ∧ x.toInt * y.toNat < 2 ^ 64)) ↔
      ¬ (0 ≤ x.toInt ∧ CarryLost x.toInt.toNat y.toNat) := by
  simp only [Mul.isIntUintMulOutOfRange, slt_iff_toInt_lt, toInt_zero]
  rcases lt_or_ge x.toInt 0 with hneg | hnonneg
  · -- the product is negative, or zero
    refine iff_of_true ?_ (fun h => absurd h.1 (not_le.2 hneg))
    by_cases hy : 0#64 = y
    · subst hy
      rw [if_neg (by simp), isUintUintMulOutOfRange_iff]
      simp
    · rw [if_pos ⟨hneg, hy⟩]
      have hpos : 0 < (y.toNat : ℤ) := by
        have : y.toNat ≠ 0 := fun h => hy (eq_of_toNat_eq h).symm
        omega
      have := mul_neg_of_neg_of_pos hneg hpos
      simp only [true_iff]
      omega
  · have hnat : x.toInt = x.toNat := by
      have := toInt_eq x
      split_ifs at * <;> omega
    rw [if_neg (fun h => absurd h.1 (not_lt.2 hnonneg)), hnat, Int.toNat_natCast, natCast_mul_iff,
      isUintUintMulOutOfRange_exact]
    simp

/-- **When multiplication judges the product rightly**: unless it loses the carry. -/
theorem mul_overflow_exact_iff (l r : Operand) :
    ((mul l r).overflow = true ↔ ¬ Representable l r (l.value * r.value)) ↔ ¬ LostCarry l r := by
  cases l with
  | int left =>
    cases r with
    | int right => exact iff_of_true (isMultiOverflow64_iff left right) id
    | uint right =>
      have h := isIntUintMulOutOfRange_exact left right
      simpa [mul, Representable, LostCarry, Operand.value] using h
  | uint left =>
    cases r with
    | int right =>
      have h := isIntUintMulOutOfRange_exact right left
      rw [mul_comm] at h
      simpa [mul, Representable, LostCarry, Operand.value, CarryLost, min_comm, max_comm] using h
    | uint right =>
      have h := isUintUintMulOutOfRange_exact left right
      rw [← natCast_mul_iff] at h
      simpa [mul, Representable, LostCarry, Operand.value] using h

/-- `4294967295 * 8589934591` is more than `2 ^ 64` and is not reported. -/
theorem mul_lostCarry_unnoticed : (mul (.uint 0xffffffff) (.uint 0x1ffffffff)).overflow = false ∧
      ¬ Representable (.uint 0xffffffff) (.uint 0x1ffffffff)
        ((Operand.uint 0xffffffff).value * (Operand.uint 0x1ffffffff).value) := by
  refine ⟨by decide, ?_⟩
  simp [Representable, Operand.value]

end OceanBase.Expr
