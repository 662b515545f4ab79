import DailyReadCoding.OceanBase.Serialization.Integer

/-!
# The two integer decoders on arbitrary input

`decode_int` uses `fast_decode` when nine bytes are left and `decode_int_safe` otherwise, so both
have to read the same field out of the same bytes, also where no encoder wrote them. The five low
bits of the first byte are the value or a code from 24 to 31. `fast_decode` asks for the codes one
by one and takes the rest for eight bytes; `decode_int_safe` subtracts and adds one for two of the
codes.
-/

namespace OceanBase.Serialization

open ByteMemory

def lenOrValue (firstByte : Byte) : ℕ := (firstByte &&& OB_INT_VALUE_MASK).toNat

/-- The bytes that `fast_decode` reads for a code. -/
def fastLength (code : ℕ) : ℕ :=
  if code ≤ OB_MAX_INT_1B then 0
  else if code = OB_MAX_INT_1B + 1 then 1
  else if code = OB_MAX_INT_1B + 2 then 2
  else if code = OB_MAX_INT_1B + 3 then 3
  else if code = OB_MAX_INT_1B + 4 then 4
  else if code = OB_MAX_INT_1B + 5 then 6
  else 8

/-- The bytes that `decode_int_safe` reads for a code. -/
def safeLength (code : ℕ) : ℕ :=
  let len := code - OB_MAX_INT_1B
  if len = 5 ∨ len = 7 then len + 1 else len

/-- The bytes after the first one that either decoder may read. -/
def fieldLength (firstByte : Byte) : ℕ :=
  max (fastLength (lenOrValue firstByte)) (safeLength (lenOrValue firstByte))

section

variable {mem : Memory} {dataLen : ℤ} {firstByte : Byte} {r : Reader}

lemma lenOrValue_lt (firstByte : Byte) : lenOrValue firstByte < 32 := by
  have h : lenOrValue firstByte = firstByte.toNat % 2 ^ 5 := by
    exact Nat.and_two_pow_sub_one_eq_mod _ 5
  omega

/-- The lengths part at one code. -/
lemma fastLength_eq_safeLength_iff {code : ℕ} (h : code < 32) :
    fastLength code = safeLength code ↔ code ≠ 29 := by
  unfold fastLength safeLength OB_MAX_INT_1B
  dsimp only
  split_ifs <;> omega

/-- The field that each of them reads, for every first byte. -/
lemma fastDecode_eq (h : ¬ lenOrValue firstByte ≤ OB_MAX_INT_1B) : fastDecode mem firstByte r
      = payloadAnswer mem firstByte r (fastLength (lenOrValue firstByte)) := by
  unfold lenOrValue at h ⊢
  unfold fastDecode fastLength
  generalize (firstByte &&& OB_INT_VALUE_MASK).toNat = code at *
  simp only [if_neg h]
  by_cases h1 : code = OB_MAX_INT_1B + 1
  · rw [if_pos (by omega), if_pos h1, if_pos h1]
    exact gather_eq r _ _ fun _ _ => rfl
  rw [if_neg h1, if_neg h1]
  by_cases h2 : code = OB_MAX_INT_1B + 2
  · rw [if_pos (by omega), if_pos h2, if_pos h2]
    exact gather_eq r _ _ fun _ _ => rfl
  rw [if_neg h2, if_neg h2]
  by_cases h3 : code = OB_MAX_INT_1B + 3
  · rw [if_pos (by omega), if_pos h3]
    exact gather_eq r _ _ fun _ _ => rfl
  rw [if_neg (by omega), if_neg h3]
  by_cases h4 : code = OB_MAX_INT_1B + 4
  · rw [if_pos h4, if_pos h4]
    exact gather_eq r _ _ fun _ _ => rfl
  rw [if_neg h4, if_neg h4]
  by_cases h5 : code = OB_MAX_INT_1B + 5
  · rw [if_pos h5, if_pos h5]
    exact gather_eq r _ _ (dInt7B_eq mem)
  · rw [if_neg h5, if_neg h5]
    exact gather_eq r _ _ (dInt9B_eq mem)

lemma decodeIntSafe_eq (h : ¬ lenOrValue firstByte ≤ OB_MAX_INT_1B)
    (hroom : r.pos + safeLength (lenOrValue firstByte) ≤ dataLen) :
    decodeIntSafe mem dataLen firstByte r
      = payloadAnswer mem firstByte r (safeLength (lenOrValue firstByte)) := by
  have hneg : ¬ dataLen - r.pos < 0 := by omega
  unfold lenOrValue safeLength at *
  rw [decodeIntSafe, if_neg hneg]
  simp only [if_neg h]
  rw [decodeUintWithGivenLength_eq hroom]
  rfl

lemma decode_small (h : lenOrValue firstByte ≤ OB_MAX_INT_1B) (hroom : r.pos ≤ dataLen) :
    fastDecode mem firstByte r = decodeIntSafe mem dataLen firstByte r := by
  have hneg : ¬ dataLen - r.pos < 0 := by omega
  unfold lenOrValue at h
  simp only [fastDecode, decodeIntSafe, if_neg hneg, if_pos h]

lemma fast_eq_safe_iff (hroom : r.pos + fieldLength firstByte ≤ dataLen) :
    fastDecode mem firstByte r = decodeIntSafe mem dataLen firstByte r ↔
    lenOrValue firstByte ≠ 29 := by
  have hlt := lenOrValue_lt firstByte
  have hmax : r.pos + safeLength (lenOrValue firstByte) ≤ dataLen := by
    unfold fieldLength at hroom
    omega
  by_cases h : lenOrValue firstByte ≤ OB_MAX_INT_1B
  · refine iff_of_true (decode_small h (by omega)) ?_
    unfold OB_MAX_INT_1B at h
    omega
  · rw [fastDecode_eq h, decodeIntSafe_eq h hmax, ← fastLength_eq_safeLength_iff hlt]
    constructor
    · intro heq
      have hpos := congrArg (fun a => a.2.pos) heq
      simp only [payloadAnswer] at hpos
      omega
    · intro heq
      rw [heq]

lemma decodeInt_of_ne (h : lenOrValue firstByte ≠ 29)
    (hroom : r.pos + fieldLength firstByte ≤ dataLen) :
    decodeInt mem dataLen firstByte r = fastDecode mem firstByte r := by
  rw [decodeInt]
  split_ifs
  · rfl
  · exact ((fast_eq_safe_iff hroom).2 h).symm

end

/-- **Agreement.** With enough data left both decoders return the same value and flag and advance by
the same amount, and `decode_int` does so whatever follows the field, just when the code is not 29.
-/
theorem decoders_agree_iff (mem : Memory) (dataLen : ℤ) (firstByte : Byte) (r : Reader)
    (hroom : r.pos + fieldLength firstByte ≤ dataLen) :
    (fastDecode mem firstByte r = decodeIntSafe mem dataLen firstByte r ∧
      ∀ dataLen', r.pos + fieldLength firstByte ≤ dataLen' →
        decodeInt mem dataLen' firstByte r = decodeInt mem dataLen firstByte r) ↔
      lenOrValue firstByte ≠ 29 := by
  constructor
  · rintro ⟨h, -⟩
    exact (fast_eq_safe_iff hroom).1 h
  · intro h
    refine ⟨(fast_eq_safe_iff hroom).2 h, ?_⟩
    intro dataLen' hroom'
    rw [decodeInt_of_ne h hroom, decodeInt_of_ne h hroom']

/-- A field of three bytes, with the sign. -/
theorem decoders_agree_iff_three : fastDecode (fun p => BitVec.ofInt 8 p) 0x3a ⟨1, 0, false⟩
      = decodeIntSafe (fun p => BitVec.ofInt 8 p) 4 0x3a ⟨1, 0, false⟩ :=
  ((decoders_agree_iff (fun p => BitVec.ofInt 8 p) 4 0x3a ⟨1, 0, false⟩ (by decide)).2
  (by decide)).1

/-- The code 29 is eight bytes to `fast_decode` and six to `decode_int_safe`, so one more byte after
the field changes what `decode_int` reads. -/
theorem decodeInt_code29 :
    decodeInt (fun _ => 1) 10 0x1d ⟨1, 0, false⟩ = (.success, ⟨9, 0x0101010101010101, false⟩) ∧
      decodeInt (fun _ => 1) 9 0x1d ⟨1, 0, false⟩ = (.success, ⟨7, 0x010101010101, false⟩) := by
  constructor <;> decide

end OceanBase.Serialization
