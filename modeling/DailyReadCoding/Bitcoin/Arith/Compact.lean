import DailyReadCoding.Bitcoin.Arith.BaseUint
import Mathlib.Data.Nat.Bitwise
import Mathlib.Data.Rat.Floor

/-!
# Compact targets

The `nBits` field of a block is a 256-bit target in a floating format of 32 bits: one byte of size,
a sign bit and a mantissa of 23 bits (`SetCompact` and `GetCompact` of `arith_uint256`).
-/

namespace Bitcoin.Arith

open BaseUint Nat

/-- `SetCompact`: the number and the flags `fNegative` and `fOverflow`. -/
structure Decoded where
  target : BaseUint
  fNegative : Bool
  fOverflow : Bool
  deriving DecidableEq

/-- `nSize` of a compact number -/
def compactSize (nCompact : ℕ) : ℕ := nCompact >>> 24

/-- `nWord` of a compact number as it is read -/
def compactWord (nCompact : ℕ) : ℕ := nCompact &&& 0x007fffff

/-- `nWord` after the branch on the size, on which the flags depend. -/
def shiftedWord (nCompact : ℕ) : ℕ :=
  if compactSize nCompact ≤ 3 then compactWord nCompact >>> (8 * (3 - compactSize nCompact))
  else compactWord nCompact

def setCompact (nCompact : ℕ) : Decoded where
  target :=
    if compactSize nCompact ≤ 3 then ofUint64 (shiftedWord nCompact)
    else (ofUint64 (shiftedWord nCompact)).shl (8 * (compactSize nCompact - 3))
  fNegative := shiftedWord nCompact ≠ 0 ∧ nCompact &&& 0x00800000 ≠ 0
  fOverflow := shiftedWord nCompact ≠ 0 ∧ (compactSize nCompact > 34 ∨
    (shiftedWord nCompact > 0xff ∧ compactSize nCompact > 33) ∨
    (shiftedWord nCompact > 0xffff ∧ compactSize nCompact > 32))

/-- The size in bytes with which `GetCompact` starts. -/
def byteSize (x : BaseUint) : ℕ := (x.bits + 7) / 8

/-- The top three bytes, shifted up if there are fewer, in the 32 bits of `nCompact`. -/
def topBytes (x : BaseUint) : ℕ :=
  if byteSize x ≤ 3 then (x.getLow64 <<< (8 * (3 - byteSize x))) % 2 ^ 64 % 2 ^ 32
  else (x.shr (8 * (byteSize x - 3))).getLow64 % 2 ^ 32

/-- The end of `GetCompact`: the assertions, and mantissa, size and sign put together. -/
def assemble (nCompact nSize : ℕ) (fNegative : Bool) : Option ℕ :=
  if nCompact &&& 0xff800000 = 0 ∧ nSize < 256 then
    some (nCompact ||| nSize <<< 24 |||
      if fNegative = true ∧ nCompact &&& 0x007fffff ≠ 0 then 0x00800000 else 0)
  else none

def getCompact (x : BaseUint) (fNegative : Bool) : Option ℕ :=
  if topBytes x &&& 0x00800000 ≠ 0 then assemble (topBytes x >>> 8) (byteSize x + 1) fNegative
  else assemble (topBytes x) (byteSize x) fNegative

/-! ## Decoding -/

lemma compactWord_eq (n : ℕ) : compactWord n = n % 2 ^ 23 := and_two_pow_sub_one_eq_mod n 23

lemma compactWord_lt (n : ℕ) : compactWord n < 2 ^ 23 := by
  rw [compactWord_eq]
  exact mod_lt _ (by decide)

lemma and_bit_eq_zero (n i : ℕ) : n &&& 2 ^ i = 0 ↔ n.testBit i = false := by
  rw [and_two_pow]
  cases n.testBit i <;> simp

lemma two_pow_eight_mul (n : ℕ) : 2 ^ (8 * n) = 256 ^ n := by
  rw [pow_mul]
  norm_num

variable {c k v : ℕ}

section Parts

variable {m size : ℕ} (hm : m < 2 ^ 23)

include hm

lemma compactSize_parts : compactSize (m + size * 2 ^ 24) = size := by
  rw [compactSize]
  omega

lemma compactWord_parts : compactWord (m + size * 2 ^ 24) = m := by
  rw [compactWord_eq]
  omega

lemma sign_parts : (m + size * 2 ^ 24) &&& 0x00800000 = 0 := by
  refine (and_bit_eq_zero _ 23).2 ?_
  rw [testBit_eq_decide_div_mod_eq, decide_eq_false_iff_not]
  omega

lemma shiftedWord_parts : shiftedWord (m + size * 2 ^ 24) =
    if size ≤ 3 then m / 256 ^ (3 - size) else m := by
  rw [shiftedWord, compactSize_parts hm, compactWord_parts hm, shiftRight_eq_div_pow,
    two_pow_eight_mul]

/-- What a mantissa and a size that fit decode to. -/
lemma setCompact_of_parts (hsize : size ≤ 33) (htop : size = 33 → m < 2 ^ 16) :
    (setCompact (m + size * 2 ^ 24)).fNegative = false ∧
      (setCompact (m + size * 2 ^ 24)).fOverflow = false ∧
      (setCompact (m + size * 2 ^ 24)).target.val =
        if size ≤ 3 then m / 256 ^ (3 - size) else m * 256 ^ (size - 3) := by
  have hword : shiftedWord (m + size * 2 ^ 24) = _ := shiftedWord_parts hm
  refine ⟨?_, ?_, ?_⟩
  · exact decide_eq_false fun hneg => hneg.2 (sign_parts hm)
  · simp only [setCompact, compactSize_parts hm, hword, decide_eq_false_iff_not]
    split_ifs <;> omega
  · simp only [setCompact, compactSize_parts hm, hword]
    split_ifs with hle
    · have hdiv := div_le_self m (256 ^ (3 - size))
      rw [val_ofUint64 (by omega)]
    · have hfit : m * 256 ^ (size - 3) < 2 ^ 256 := by
        rcases lt_or_ge size 33 with hlt | hge
        · calc m * 256 ^ (size - 3) < 2 ^ 23 * 256 ^ (size - 3) :=
                mul_lt_mul_of_pos_right hm (by positivity)
            _ ≤ 2 ^ 23 * 256 ^ 29 := mul_le_mul_left _ (Nat.pow_le_pow_right (by decide) (by omega))
            _ ≤ 2 ^ 256 := by norm_num
        · obtain rfl : size = 33 := by omega
          omega
      rw [val_shl, val_ofUint64 (by omega), two_pow_eight_mul, mod_eq_of_lt hfit]

lemma assemble_parts (hsize : size < 256) : assemble m size false = some (m + size * 2 ^ 24) := by
  have hmask : m &&& 0xff800000 = 0 := by
    refine eq_of_testBit_eq fun i => ?_
    rw [testBit_and, show 0xff800000 = 0x1ff <<< 23 by rfl, testBit_shiftLeft]
    rcases lt_or_ge i 23 with hlt | hge
    · simp [not_le.2 hlt]
    · rw [testBit_lt_two_pow (hm.trans_le (Nat.pow_le_pow_right (by decide) hge))]
      simp
  rw [assemble, if_pos ⟨hmask, hsize⟩, if_neg (by simp), or_zero, Nat.or_comm,
    ← shiftLeft_add_eq_or_of_lt (hm.trans (by decide)), shiftLeft_eq, add_comm]

lemma compactWord_of_assemble (h : assemble m size false = some c) : compactWord c = m := by
  have hsize : size < 256 := by
    by_contra hge
    rw [assemble, if_neg (by omega)] at h
    cases h
  rw [assemble_parts hm hsize, Option.some.injEq] at h
  rw [← h, compactWord_parts hm]

end Parts

/-- What a compact number stands for, before it is cut off to a whole number. -/
def compactValue (nCompact : ℕ) : ℚ :=
  compactWord nCompact * 256 ^ ((compactSize nCompact : ℤ) - 3)

lemma compactValue_of_le (h : compactSize c ≤ 3) :
    compactValue c = (compactWord c : ℚ) / (256 ^ (3 - compactSize c) : ℕ) := by
  have hexp : (compactSize c : ℤ) - 3 = -((3 - compactSize c : ℕ) : ℤ) := by omega
  rw [compactValue, hexp, zpow_neg]
  norm_cast

lemma compactValue_of_gt (h : 3 < compactSize c) :
    compactValue c = (compactWord c * 256 ^ (compactSize c - 3) : ℕ) := by
  have hexp : (compactSize c : ℤ) - 3 = ((compactSize c - 3 : ℕ) : ℤ) := by omega
  rw [compactValue, hexp]
  norm_cast

/-- The thresholds of `SetCompact` say when a mantissa and a size are too large. -/
lemma overflow_iff {m size : ℕ} (hm : m < 2 ^ 23) (hsize : 3 < size) :
    (m ≠ 0 ∧ (size > 34 ∨ (m > 0xff ∧ size > 33) ∨ (m > 0xffff ∧ size > 32))) ↔
      2 ^ 256 ≤ m * 256 ^ (size - 3) := by
  rcases lt_or_ge 34 size with hlarge | hsmall
  · constructor
    · rintro ⟨hpos, -⟩
      calc 2 ^ 256 = 1 * 256 ^ 32 := by norm_num
        _ ≤ m * 256 ^ (size - 3) :=
          Nat.mul_le_mul (by omega) (Nat.pow_le_pow_right (by decide) (by omega))
    · intro hbig
      refine ⟨?_, .inl hlarge⟩
      rintro rfl
      simp at hbig
  · rcases lt_or_ge 32 size with hmid | hfit
    · obtain rfl | rfl : size = 33 ∨ size = 34 := by omega
      · omega
      · omega
    · have hbound : m * 256 ^ (size - 3) ≤ m * 256 ^ 29 :=
        mul_le_mul_left _ (Nat.pow_le_pow_right (by decide) (by omega))
      omega

lemma setCompact_cases (c : ℕ) : (compactSize c ≤ 3 ∧ (setCompact c).fOverflow = false ∧
      (setCompact c).target.val = compactWord c / 256 ^ (3 - compactSize c)) ∨ (3 < compactSize c ∧
      ((setCompact c).fOverflow = true ↔ 2 ^ 256 ≤ compactWord c * 256 ^ (compactSize c - 3)) ∧
      (setCompact c).target.val = compactWord c * 256 ^ (compactSize c - 3) % 2 ^ 256) := by
  have hword := compactWord_lt c
  rcases lt_or_ge 3 (compactSize c) with hgt | hle
  · have hshift : shiftedWord c = compactWord c := if_neg (by omega)
    refine .inr ⟨hgt, ?_, ?_⟩
    · rw [← overflow_iff hword hgt]
      simp only [setCompact, hshift, decide_eq_true_iff]
    · simp only [setCompact, hshift, if_neg (not_le.2 hgt)]
      rw [val_shl, val_ofUint64 (by omega), two_pow_eight_mul]
  · have hshift : shiftedWord c = compactWord c / 256 ^ (3 - compactSize c) := by
      rw [shiftedWord, if_pos hle, shiftRight_eq_div_pow, two_pow_eight_mul]
    have hdiv := div_le_self (compactWord c) (256 ^ (3 - compactSize c))
    refine .inl ⟨hle, ?_, ?_⟩
    · simp only [setCompact, decide_eq_false_iff_not]
      omega
    · simp only [setCompact, if_pos hle]
      rw [hshift, val_ofUint64 (by omega)]

/-- Decoding overflows exactly if the number does not fit, and is exact otherwise. -/
lemma setCompact_exact (c : ℕ) : ((setCompact c).fOverflow = true ↔ 2 ^ 256 ≤ compactValue c) ∧
    ((setCompact c).fOverflow = false → ((setCompact c).target.val : ℤ) = ⌊compactValue c⌋) := by
  have hword := compactWord_lt c
  rcases setCompact_cases c with ⟨hle, hover, hval⟩ | ⟨hgt, hover, hval⟩
  · have hsmall : compactValue c < 2 ^ 256 := by
      have hpos : (1 : ℚ) ≤ (256 ^ (3 - compactSize c) : ℕ) := by
        exact_mod_cast one_le_pow _ _ (by decide)
      calc compactValue c ≤ compactWord c := by
            rw [compactValue_of_le hle]
            exact div_le_self (by positivity) hpos
        _ < 2 ^ 256 := by exact_mod_cast hword.trans (by decide)
    refine ⟨?_, fun _ => ?_⟩
    · rw [hover]
      simpa using hsmall
    · rw [compactValue_of_le hle]
      norm_cast
  · rw [compactValue_of_gt hgt]
    refine ⟨hover.trans (by exact_mod_cast Iff.rfl), fun hfit => ?_⟩
    have hlt : compactWord c * 256 ^ (compactSize c - 3) < 2 ^ 256 := by
      rw [← not_le, ← hover, hfit]
      decide
    rw [hval, mod_eq_of_lt hlt, Int.floor_natCast]

/-! ## Encoding -/

lemma getLow64_eq (x : BaseUint) : x.getLow64 = x.val % 2 ^ 64 := by
  refine eq_of_testBit_eq fun p => ?_
  rw [getLow64, testBit_or, testBit_shiftLeft, testBit_mod_two_pow]
  rcases lt_or_ge p 32 with hlow | hhigh
  · rw [testBit_limb x 0 hlow]
    simp [not_le.2 hlow, show p < 64 by omega]
  · rw [testBit_limb_of_ge x.inRange 0 hhigh]
    rcases lt_or_ge p 64 with hmid | htop
    · rw [testBit_limb x 1 (by omega)]
      simp [hhigh, hmid]
    · rw [testBit_limb_of_ge x.inRange 1 (by omega)]
      simp [not_lt.2 htop]

lemma val_lt_byteSize (x : BaseUint) : x.val < 256 ^ byteSize x := by
  rw [← two_pow_eight_mul]
  refine size_le.1 ?_
  rw [byteSize, bits_eq]
  omega

variable {x : BaseUint}

lemma le_val_byteSize (hsize : 0 < byteSize x) : 256 ^ (byteSize x - 1) ≤ x.val := by
  rw [← two_pow_eight_mul]
  refine lt_size.1 ?_
  rw [byteSize, bits_eq] at *
  omega

lemma topBytes_eq (x : BaseUint) : topBytes x < 2 ^ 24 ∧ topBytes x =
    if byteSize x ≤ 3 then x.val * 256 ^ (3 - byteSize x) else x.val / 256 ^ (byteSize x - 3) := by
  have hval := val_lt_byteSize x
  rw [topBytes]
  split_ifs with hle
  · have hbound : x.val * 256 ^ (3 - byteSize x) < 2 ^ 24 := by
      calc x.val * 256 ^ (3 - byteSize x) < 256 ^ byteSize x * 256 ^ (3 - byteSize x) :=
            mul_lt_mul_of_pos_right hval (by positivity)
        _ = 256 ^ 3 := by rw [← pow_add, Nat.add_sub_cancel' hle]
        _ = 2 ^ 24 := by norm_num
    have hlow : x.val < 2 ^ 64 := by
      have hpow : 256 ^ byteSize x ≤ 256 ^ 3 := Nat.pow_le_pow_right (by decide) hle
      omega
    rw [getLow64_eq, mod_eq_of_lt hlow, shiftLeft_eq, two_pow_eight_mul]
    omega
  · have hbound : x.val / 256 ^ (byteSize x - 3) < 2 ^ 24 := by
      rw [div_lt_iff_lt_mul (by positivity)]
      calc x.val < 256 ^ byteSize x := hval
        _ = 2 ^ 24 * 256 ^ (byteSize x - 3) := by
            rw [show 2 ^ 24 = 256 ^ 3 by norm_num, ← pow_add, Nat.add_sub_cancel' (by omega)]
    rw [getLow64_eq, val_shr, two_pow_eight_mul, mod_eq_of_lt (hbound.trans (by decide)),
      mod_eq_of_lt (hbound.trans (by decide))]
    exact ⟨hbound, rfl⟩

lemma topBytes_sign (x : BaseUint) : topBytes x &&& 0x00800000 ≠ 0 ↔ 2 ^ 23 ≤ topBytes x := by
  have hlt := (topBytes_eq x).1
  rw [Ne, show (0x00800000 : ℕ) = 2 ^ 23 by rfl, and_bit_eq_zero, testBit_eq_decide_div_mod_eq,
    decide_eq_false_iff_not]
  omega

/-- The exponent of a number: its mantissa has at most 23 bits, and at least 16 if anything is cut
off. -/
def IsExponent (v k : ℕ) : Prop := v < 2 ^ 23 * 256 ^ k ∧ (k = 0 ∨ 2 ^ 15 * 256 ^ k ≤ v)

/-- What `GetCompact` returns, and what it decodes to. -/
structure Encodes (x : BaseUint) (c k : ℕ) : Prop where
  getCompact : getCompact x false = some c
  lt : c < 2 ^ 32
  fNegative : (setCompact c).fNegative = false
  fOverflow : (setCompact c).fOverflow = false
  exponent : IsExponent x.val k
  target : (setCompact c).target.val = x.val / 256 ^ k * 256 ^ k

lemma encodes_of_parts {m size : ℕ} (hm : m < 2 ^ 23) (hsize : size ≤ 33)
    (htop : size = 33 → m < 2 ^ 16) (hget : Arith.getCompact x false = assemble m size false)
    (hk : IsExponent x.val k)
    (hval : (if size ≤ 3 then m / 256 ^ (3 - size) else m * 256 ^ (size - 3)) =
      x.val / 256 ^ k * 256 ^ k) : Encodes x (m + size * 2 ^ 24) k := by
  obtain ⟨hneg, hover, htarget⟩ := setCompact_of_parts hm hsize htop
  exact ⟨by rw [hget, assemble_parts hm (by omega)], by omega, hneg, hover, hk, htarget.trans hval⟩

lemma mul_pow_div (v : ℕ) {i j : ℕ} (hij : j ≤ i) : v * 256 ^ i / 256 ^ j = v * 256 ^ (i - j) := by
  rw [Nat.mul_div_assoc _ (pow_dvd_pow _ hij), Nat.pow_div hij (by decide)]

/-- With an exponent above zero the mantissa is the number without the bytes below the exponent. -/
lemma getCompact_of_exponent (hk : IsExponent x.val k) (hpos : 0 < k) :
    getCompact x false = assemble (x.val / 256 ^ k) (k + 3) false := by
  obtain ⟨-, htop⟩ := topBytes_eq x
  have hlow : 2 ^ 15 * 256 ^ k ≤ x.val := hk.2.resolve_left (by omega)
  have hmant : x.val / 256 ^ k < 2 ^ 23 := (div_lt_iff_lt_mul (by positivity)).2 hk.1
  have hle : byteSize x ≤ k + 3 := by
    by_contra hgt
    have hbig : 256 ^ (k + 3) ≤ x.val :=
      (Nat.pow_le_pow_right (by decide) (by omega)).trans (le_val_byteSize (by omega))
    have hlt := hk.1
    rw [pow_add] at hbig
    omega
  have hge : k + 2 ≤ byteSize x := by
    by_contra hlt
    have hsmall : x.val < 256 ^ (k + 1) :=
      (val_lt_byteSize x).trans_le (Nat.pow_le_pow_right (by decide) (by omega))
    omega
  rcases lt_or_ge (k + 2) (byteSize x) with hfull | hshort
  · -- the top three bytes are the mantissa
    have hbytes : topBytes x = x.val / 256 ^ k := by
      rw [htop, if_neg (by omega), show byteSize x - 3 = k by omega]
    rw [getCompact, if_neg (by rw [topBytes_sign, hbytes]; omega), hbytes,
      show byteSize x = k + 3 by omega]
  · -- the top bit of the three bytes is set, and one of them is cut off
    have hbytes : topBytes x = x.val / 256 ^ (k - 1) := by
      rcases lt_or_ge 3 (byteSize x) with hgt | hle3
      · rw [htop, if_neg (by omega), show byteSize x - 3 = k - 1 by omega]
      · rw [htop, show byteSize x = 3 by omega, show k - 1 = 0 by omega]
        simp
    have hpow : 256 ^ k = 256 ^ (k - 1) * 256 := by
      rw [← pow_succ]
      congr 1
      omega
    have hsign : 2 ^ 23 ≤ topBytes x := by
      rw [hbytes, le_div_iff_mul_le (by positivity)]
      omega
    rw [getCompact, if_pos ((topBytes_sign x).2 hsign), hbytes, shiftRight_eq_div_pow,
      Nat.div_div_eq_div_mul, ← hpow, show byteSize x + 1 = k + 3 by omega]

lemma exists_exponent (v : ℕ) : ∃ k, IsExponent v k := by
  have hlarge : ∃ k, v < 2 ^ 23 * 256 ^ k :=
    ⟨v, (Nat.lt_pow_self (by decide)).trans_le (Nat.le_mul_of_pos_left _ (by decide))⟩
  refine ⟨Nat.find hlarge, Nat.find_spec hlarge, ?_⟩
  rcases Nat.eq_zero_or_pos (Nat.find hlarge) with hzero | hpos
  · exact .inl hzero
  · have hless := Nat.find_min hlarge (sub_one_lt hpos.ne')
    have hpow : 256 ^ Nat.find hlarge = 256 ^ (Nat.find hlarge - 1) * 256 := by
      rw [← pow_succ]
      congr 1
      omega
    exact .inr (by omega)

lemma encodes_small (hx : IsExponent x.val 0) : ∃ c, Encodes x c 0 := by
  obtain ⟨hlt, htop⟩ := topBytes_eq x
  have hval : x.val < 2 ^ 23 := by simpa using hx.1
  have hsize : byteSize x ≤ 3 := by
    by_contra hgt
    have hbig : 256 ^ 3 ≤ x.val :=
      (Nat.pow_le_pow_right (by decide) (by omega)).trans (le_val_byteSize (by omega))
    omega
  rw [if_pos hsize] at htop
  by_cases hbig : 2 ^ 23 ≤ topBytes x
  · -- two bytes at most, and the size is raised to at most three: nothing is cut off
    have hless : byteSize x ≠ 3 := by
      intro heq
      rw [heq] at htop
      omega
    have hget : getCompact x false = assemble (topBytes x / 256) (byteSize x + 1) false := by
      rw [getCompact, if_pos ((topBytes_sign x).2 hbig), shiftRight_eq_div_pow]
    refine ⟨_, encodes_of_parts (by omega) (by omega) (by omega) hget hx ?_⟩
    rw [if_pos (by omega), htop, Nat.div_div_eq_div_mul, ← pow_succ', mul_pow_div _ (by omega),
      show 3 - byteSize x - (3 - (byteSize x + 1) + 1) = 0 by omega]
    simp
  · have hget : getCompact x false = assemble (topBytes x) (byteSize x) false := by
      rw [getCompact, if_neg (mt (topBytes_sign x).1 hbig)]
    refine ⟨_, encodes_of_parts (by omega) (by omega) (by omega) hget hx ?_⟩
    rw [if_pos hsize, htop]
    simp

/-- **Encoding a number keeps its leading bits**, and none of the assertions fails. -/
theorem getCompact_spec (x : BaseUint) : ∃ c k, Encodes x c k := by
  obtain ⟨k, hk⟩ := exists_exponent x.val
  rcases Nat.eq_zero_or_pos k with rfl | hpos
  · obtain ⟨c, hc⟩ := encodes_small hk
    exact ⟨c, 0, hc⟩
  · have hmant : x.val / 256 ^ k < 2 ^ 23 := (div_lt_iff_lt_mul (by positivity)).2 hk.1
    have hval := x.val_lt
    have hk30 : k ≤ 30 := by
      by_contra hgt
      have hpow : 2 ^ 15 * 256 ^ 31 ≤ 2 ^ 15 * 256 ^ k :=
        mul_le_mul_left _ (Nat.pow_le_pow_right (by decide) (by omega))
      have hlow := hk.2.resolve_left (by omega)
      omega
    refine ⟨_, k,
      encodes_of_parts hmant (by omega) (fun htop => ?_) (getCompact_of_exponent hk hpos)
      hk ?_⟩
    · obtain rfl : k = 30 := by omega
      omega
    · rw [if_neg (by omega), Nat.add_sub_cancel]

/-- What is left after the bits below the exponent are cleared has the same exponent. -/
lemma IsExponent.floor (hk : IsExponent v k) : IsExponent (v / 256 ^ k * 256 ^ k) k := by
  refine ⟨(div_mul_le_self _ _).trans_lt hk.1, hk.2.imp_right fun hlow => ?_⟩
  exact mul_le_mul_right _ ((le_div_iff_mul_le (by positivity)).2 hlow)

lemma Encodes.roundTrip (h : Encodes x c k) :
    Arith.getCompact (setCompact c).target false = some c := by
  rcases Nat.eq_zero_or_pos k with rfl | hpos
  · have hsame : (setCompact c).target = x := val_inj (by rw [h.target]; simp)
    rw [hsame, h.getCompact]
  · have hexp : IsExponent (setCompact c).target.val k := by
      rw [h.target]
      exact h.exponent.floor
    rw [getCompact_of_exponent hexp hpos, h.target, Nat.mul_div_cancel _ (by positivity),
      ← getCompact_of_exponent h.exponent hpos, h.getCompact]

/-! ## The rounding -/

/-- Clearing bits is monotone, also between different exponents. -/
lemma floor_mono {v' k' : ℕ} (hk : IsExponent v k) (hk' : IsExponent v' k') (hle : v ≤ v') :
    v / 256 ^ k * 256 ^ k ≤ v' / 256 ^ k' * 256 ^ k' := by
  have hstep : ∀ {i j : ℕ}, i < j → 2 ^ 23 * 256 ^ i ≤ 2 ^ 15 * 256 ^ j := by
    intro i j hij
    calc 2 ^ 23 * 256 ^ i = 2 ^ 15 * 256 ^ (i + 1) := by ring
      _ ≤ 2 ^ 15 * 256 ^ j := mul_le_mul_left _ (Nat.pow_le_pow_right (by decide) hij)
  rcases lt_trichotomy k k' with hlt | rfl | hgt
  · have hmant : 2 ^ 15 ≤ v' / 256 ^ k' := by
      rw [le_div_iff_mul_le (by positivity)]
      exact hk'.2.resolve_left (by omega)
    calc v / 256 ^ k * 256 ^ k ≤ v := div_mul_le_self _ _
      _ ≤ 2 ^ 23 * 256 ^ k := hk.1.le
      _ ≤ 2 ^ 15 * 256 ^ k' := hstep hlt
      _ ≤ v' / 256 ^ k' * 256 ^ k' := mul_le_mul_right _ hmant
  · exact mul_le_mul_right _ (Nat.div_le_div_right hle)
  · have hlow := hk.2.resolve_left (by omega)
    have hhigh := hk'.1
    have hcross := hstep hgt
    omega

/-- Clearing bits loses less than one part in `2 ^ 15`. -/
lemma le_floor (hk : IsExponent v k) : (2 ^ 15 - 1) * v ≤ 2 ^ 15 * (v / 256 ^ k * 256 ^ k) := by
  have hdiv := div_add_mod' v (256 ^ k)
  rcases hk.2 with rfl | hlow
  · omega
  · omega

/-- The error of clearing bits, relative to the number. -/
lemma floor_error (hk : IsExponent v k) (hv : 0 < v) :
    2 ^ 15 * (v - v / 256 ^ k * 256 ^ k) < v := by
  have hdiv := div_add_mod' v (256 ^ k)
  rcases hk.2 with rfl | hlow
  · simpa using hv
  · omega

/-- **Compact numbers.** Decoding overflows exactly if the number is too large and is exact
otherwise; encoding a number and decoding it again clears the bits below its mantissa; and encoding
once more gives the same compact number. -/
theorem compact_exact (c : ℕ) (x : BaseUint) :
    ((setCompact c).fOverflow = true ↔ 2 ^ 256 ≤ compactValue c) ∧
    ((setCompact c).fOverflow = false → ((setCompact c).target.val : ℤ) = ⌊compactValue c⌋) ∧
    ∃ c' k, getCompact x false = some c' ∧ (setCompact c').fNegative = false ∧
      (setCompact c').fOverflow = false ∧ (setCompact c').target.val ≤ x.val ∧
      (setCompact c').target.val = x.val / 2 ^ (8 * k) * 2 ^ (8 * k) ∧
      (0 < k → compactWord c' = x.val / 2 ^ (8 * k)) ∧
      (0 < x.val → 2 ^ 15 * (x.val - (setCompact c').target.val) < x.val) ∧
      getCompact (setCompact c').target false = some c' := by
  obtain ⟨hover, hexact⟩ := setCompact_exact c
  obtain ⟨c', k, h⟩ := getCompact_spec x
  refine ⟨hover, hexact, c', k, h.getCompact, h.fNegative, h.fOverflow, ?_, ?_, ?_, ?_, h.roundTrip⟩
  · rw [h.target]
    exact div_mul_le_self _ _
  · rw [h.target, two_pow_eight_mul]
  · intro hpos
    have hmant := (div_lt_iff_lt_mul (by positivity)).2 h.exponent.1
    have hc := h.getCompact
    rw [getCompact_of_exponent h.exponent hpos] at hc
    rw [compactWord_of_assemble hmant hc, two_pow_eight_mul]
  · intro hv
    rw [h.target]
    exact floor_error h.exponent hv

end Bitcoin.Arith
