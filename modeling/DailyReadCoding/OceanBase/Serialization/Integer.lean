import DailyReadCoding.Lib.ByteMemory

/-!
# The integer format of `serialization.h`

`encode_int` writes a first byte and up to eight more. The first byte carries the sign, the
operation flag and five bits that are either the magnitude itself (up to 23) or the code of the
number of bytes that follow. There are two encoders and two decoders, and the room that is left in
the buffer selects one: `fast_encode` and `fast_decode` jump into a chain of labels that fall
through to each other, `encode_int_safe` and `decode_int_safe` check every byte.

`int64_t` and `uint64_t` are `BitVec 64`, with the arithmetic shift where the source shifts an
`int64_t`; negation wraps at the least value.
-/

namespace OceanBase.Serialization

open ByteMemory Nat

def OB_MAX_INT_1B : ℕ := 23
def OB_MAX_INT_2B : ℕ := 2 ^ 8 - 1
def OB_MAX_INT_3B : ℕ := 2 ^ 16 - 1
def OB_MAX_INT_4B : ℕ := 2 ^ 24 - 1
def OB_MAX_INT_5B : ℕ := 2 ^ 32 - 1
def OB_MAX_INT_7B : ℕ := 2 ^ 48 - 1
def OB_INT_OPERATION_BIT_POS : ℕ := 6
def OB_INT_SIGN_BIT_POS : ℕ := 5
def OB_INT_VALUE_MASK : Byte := 0x1f

inductive Ret
  | success
  | sizeOverflow
  | deserializeError
  deriving DecidableEq, Repr

/-- The destination buffer and the position `pos` in it. -/
structure Writer where
  mem : Memory
  pos : ℤ

/-- The output arguments of a decoder. -/
structure Reader where
  pos : ℤ
  val : BitVec 64
  isAdd : Bool
  deriving DecidableEq, Repr

/-! ## Bits and single bytes -/

def setBit (v : Byte) (pos : ℕ) : Byte := v ||| (1 <<< pos)

def testBit (v : Byte) (pos : ℕ) : Bool := v &&& (1 <<< pos) ≠ 0

/-- `*(buf + pos++) = val` -/
def Writer.put (w : Writer) (val : Byte) : Writer := ⟨w.mem.put w.pos val, w.pos + 1⟩

def encodeI8 (bufLen : ℤ) (w : Writer) (val : Byte) : Ret × Writer :=
  if bufLen - w.pos ≥ 1 then (.success, w.put val) else (.sizeOverflow, w)

/-- The position after the byte, and the byte. -/
def decodeI8 (mem : Memory) (dataLen pos : ℤ) : Option (ℤ × Byte) :=
  if dataLen - pos ≥ 1 then some (pos + 1, mem pos) else none

def safeInt64Abs (val : BitVec 64) : BitVec 64 :=
  let tmp := val.sshiftRight 63
  (val ^^^ tmp) - tmp

def encodedLengthInt (val : BitVec 64) : ℤ :=
  let v := (safeInt64Abs val).toNat
  if v ≤ OB_MAX_INT_1B then 1
  else if v ≤ OB_MAX_INT_2B then 2
  else if v ≤ OB_MAX_INT_3B then 3
  else if v ≤ OB_MAX_INT_4B then 4
  else if v ≤ OB_MAX_INT_5B then 5
  else if v ≤ OB_MAX_INT_7B then 7
  else 9

/-! ## `fast_encode` -/

/-- `buf[pos++] = (int8_t)(val & 0xFF)` -/
def Writer.putLow (w : Writer) (val : BitVec 64) : Writer := w.put ((val &&& 0xff).setWidth 8)

/-! The labels, each with what it falls through to. -/

def gInt2B (w : Writer) (val : BitVec 64) : Writer := w.putLow val
def gInt3B (w : Writer) (val : BitVec 64) : Writer := gInt2B (w.putLow val) (val.sshiftRight 8)
def gInt4B (w : Writer) (val : BitVec 64) : Writer := gInt3B (w.putLow val) (val.sshiftRight 8)
def gInt5B (w : Writer) (val : BitVec 64) : Writer := gInt4B (w.putLow val) (val.sshiftRight 8)

def gInt7B (w : Writer) (val : BitVec 64) : Writer :=
  let val' := val.sshiftRight 8
  gInt5B ((w.putLow val).putLow val') (val'.sshiftRight 8)

def gInt9B (w : Writer) (val : BitVec 64) : Writer :=
  let val' := val.sshiftRight 8
  gInt7B ((w.putLow val).putLow val') (val'.sshiftRight 8)

/-- The sign and operation bits of the first byte. -/
def signBits (isNeg isAdd : Bool) : Byte :=
  let firstByte := if isNeg then setBit 0 OB_INT_SIGN_BIT_POS else 0
  if isAdd then setBit firstByte OB_INT_OPERATION_BIT_POS else firstByte

/-- Writes the first byte, raised by `code`, and jumps to a label. -/
def jump (w : Writer) (firstByte : Byte) (code : ℕ) (label : Writer → BitVec 64 → Writer)
    (val : BitVec 64) : Writer :=
  label (w.put (firstByte + BitVec.ofNat 8 code)) val

def fastEncode (w : Writer) (val : BitVec 64) (isAdd : Bool) : Ret × Writer :=
  let firstByte := signBits (val.slt 0) isAdd
  let val := if val.slt 0 then -val else val
  if val.toNat ≤ OB_MAX_INT_1B then (.success, w.put (firstByte ||| val.setWidth 8))
  else
    let firstByte := firstByte ||| BitVec.ofNat 8 OB_MAX_INT_1B
    (.success,
      if val.toNat ≤ OB_MAX_INT_4B then
        if val.toNat ≤ OB_MAX_INT_2B then jump w firstByte 1 gInt2B val
        else if val.toNat ≤ OB_MAX_INT_3B then jump w firstByte 2 gInt3B val
        else jump w firstByte 3 gInt4B val
      else
        if val.toNat ≤ OB_MAX_INT_5B then jump w firstByte 4 gInt5B val
        else if val.toNat ≤ OB_MAX_INT_7B then jump w firstByte 5 gInt7B val
        else jump w firstByte 7 gInt9B val)

/-! ## `encode_int_safe` -/

/-- The loop of `__encode_uint_with_given_length`, at byte `n` with `k` to go. -/
def encodeUintLoop (bufLen : ℤ) (v : BitVec 64) : ℕ → ℕ → Writer → Ret × Writer
  | _, 0, w => (.success, w)
  | n, k + 1, w =>
    match encodeI8 bufLen w (((v >>> (n <<< 3)) &&& 0xff).setWidth 8) with
    | (.success, w') => encodeUintLoop bufLen v (n + 1) k w'
    | failed => failed

/-- A failure leaves `pos` where it was. -/
def encodeUintWithGivenLength (bufLen : ℤ) (w : Writer) (val : BitVec 64) (valLen : ℤ) :
    Ret × Writer :=
  if valLen ≤ 0 ∨ bufLen - w.pos < valLen then (.sizeOverflow, w)
  else
    match encodeUintLoop bufLen val 0 valLen.toNat w with
    | (.success, w') => (.success, w')
    | (ret, w') => (ret, ⟨w'.mem, w.pos⟩)

/-- What `encode_int_safe` puts into the first byte beside the sign and operation bits. -/
def safeLowBits (len : ℤ) (v : BitVec 64) : Byte :=
  if v.toNat ≤ OB_MAX_INT_1B then v.setWidth 8
  else
    let tmpLen := if len = 7 ∨ len = 9 then len - 1 else len
    BitVec.ofInt 8 (tmpLen - 1 + OB_MAX_INT_1B)

def encodeIntSafe (bufLen : ℤ) (w : Writer) (val : BitVec 64) (isAdd : Bool) : Ret × Writer :=
  let len := encodedLengthInt val
  if bufLen - w.pos < len then (.sizeOverflow, w)
  else
    let v := safeInt64Abs val
    match encodeI8 bufLen w (signBits (val.slt 0) isAdd ||| safeLowBits len v) with
    | (.success, w') =>
      if len - 1 > 0 then encodeUintWithGivenLength bufLen w' v (len - 1) else (.success, w')
    | (_, w') => (.sizeOverflow, w')

def encodeInt (bufLen : ℤ) (w : Writer) (val : BitVec 64) (isAdd : Bool) : Ret × Writer :=
  if bufLen - w.pos ≥ 10 then fastEncode w val isAdd else encodeIntSafe bufLen w val isAdd

/-! ## `fast_decode` -/

/-- `val |= (uint8_t)buf[--npos]`, with `npos` already decremented. -/
def orByte (mem : Memory) (npos : ℤ) (val : BitVec 64) : BitVec 64 :=
  val ||| (mem npos).setWidth 64

def dInt2B (mem : Memory) (npos : ℤ) (val : BitVec 64) : BitVec 64 := orByte mem (npos - 1) val

def dInt3B (mem : Memory) (npos : ℤ) (val : BitVec 64) : BitVec 64 :=
  dInt2B mem (npos - 1) (orByte mem (npos - 1) val <<< 8)

def dInt4B (mem : Memory) (npos : ℤ) (val : BitVec 64) : BitVec 64 :=
  dInt3B mem (npos - 1) (orByte mem (npos - 1) val <<< 8)

def dInt5B (mem : Memory) (npos : ℤ) (val : BitVec 64) : BitVec 64 :=
  dInt4B mem (npos - 1) (orByte mem (npos - 1) val <<< 8)

def dInt7B (mem : Memory) (npos : ℤ) (val : BitVec 64) : BitVec 64 :=
  let val' := orByte mem (npos - 1) val <<< 8
  dInt5B mem (npos - 2) (orByte mem (npos - 2) val' <<< 8)

def dInt9B (mem : Memory) (npos : ℤ) (val : BitVec 64) : BitVec 64 :=
  let val' := orByte mem (npos - 1) val <<< 8
  dInt7B mem (npos - 2) (orByte mem (npos - 2) val' <<< 8)

def negateIf (isNeg : Bool) (val : BitVec 64) : BitVec 64 := if isNeg then -val else val

/-- The position after `len` bytes, and the value that the labels from `label` on make of them. -/
def gather (mem : Memory) (r : Reader) (isNeg isAdd : Bool) (len : ℤ)
    (label : Memory → ℤ → BitVec 64 → BitVec 64) : Ret × Reader :=
  (.success, ⟨r.pos + len, negateIf isNeg (label mem (r.pos + len) 0), isAdd⟩)

def fastDecode (mem : Memory) (firstByte : Byte) (r : Reader) : Ret × Reader :=
  let isNeg := testBit firstByte OB_INT_SIGN_BIT_POS
  let isAdd := testBit firstByte OB_INT_OPERATION_BIT_POS
  let lenOrValue := (firstByte &&& OB_INT_VALUE_MASK).toNat
  if lenOrValue ≤ OB_MAX_INT_1B then
    (.success, ⟨r.pos, negateIf isNeg (BitVec.ofNat 64 lenOrValue), isAdd⟩)
  else if lenOrValue ≤ OB_MAX_INT_1B + 3 then
    if lenOrValue = OB_MAX_INT_1B + 1 then gather mem r isNeg isAdd 1 dInt2B
    else if lenOrValue = OB_MAX_INT_1B + 2 then gather mem r isNeg isAdd 2 dInt3B
    else gather mem r isNeg isAdd 3 dInt4B
  else
    if lenOrValue = OB_MAX_INT_1B + 4 then gather mem r isNeg isAdd 4 dInt5B
    else if lenOrValue = OB_MAX_INT_1B + 5 then gather mem r isNeg isAdd 6 dInt7B
    else gather mem r isNeg isAdd 8 dInt9B

/-! ## `decode_int_safe` -/

/-- The loop of `__decode_uint_with_given_length`, at byte `n` with `k` to go. -/
def decodeUintLoop (mem : Memory) (dataLen : ℤ) : ℕ → ℕ → ℤ → BitVec 64 → Option (ℤ × BitVec 64)
  | _, 0, pos, v => some (pos, v)
  | n, k + 1, pos, v =>
    match decodeI8 mem dataLen pos with
    | some (pos', tmp) =>
      decodeUintLoop mem dataLen (n + 1) k pos' (v ||| (tmp.setWidth 64 <<< (n <<< 3)))
    | none => none

/-- The position after the bytes and the value, or nothing for `OB_DESERIALIZE_ERROR`. -/
def decodeUintWithGivenLength (mem : Memory) (dataLen pos : ℤ) (valLen : ℕ) :
    Option (ℤ × BitVec 64) :=
  if dataLen - pos < valLen then none else decodeUintLoop mem dataLen 0 valLen pos 0

def decodeIntSafe (mem : Memory) (dataLen : ℤ) (firstByte : Byte) (r : Reader) : Ret × Reader :=
  if dataLen - r.pos < 0 then (.deserializeError, r)
  else
    let isNeg := testBit firstByte OB_INT_SIGN_BIT_POS
    let isAdd := testBit firstByte OB_INT_OPERATION_BIT_POS
    let lenOrValue := (firstByte &&& OB_INT_VALUE_MASK).toNat
    if lenOrValue ≤ OB_MAX_INT_1B then
      (.success, ⟨r.pos, negateIf isNeg (BitVec.ofNat 64 lenOrValue), isAdd⟩)
    else
      let len := lenOrValue - OB_MAX_INT_1B
      let len := if len = 5 ∨ len = 7 then len + 1 else len
      match decodeUintWithGivenLength mem dataLen r.pos len with
      | some (pos, uv) => (.success, ⟨pos, negateIf isNeg uv, isAdd⟩)
      | none => (.deserializeError, ⟨r.pos, r.val, isAdd⟩)

def decodeInt (mem : Memory) (dataLen : ℤ) (firstByte : Byte) (r : Reader) : Ret × Reader :=
  if dataLen - r.pos ≥ 9 then fastDecode mem firstByte r
  else decodeIntSafe mem dataLen firstByte r

/-! ## The format -/

/-- The number of bytes after the first, by the magnitude. -/
def payload (v : BitVec 64) : ℕ :=
  if v.toNat ≤ OB_MAX_INT_1B then 0
  else if v.toNat ≤ OB_MAX_INT_2B then 1
  else if v.toNat ≤ OB_MAX_INT_3B then 2
  else if v.toNat ≤ OB_MAX_INT_4B then 3
  else if v.toNat ≤ OB_MAX_INT_5B then 4
  else if v.toNat ≤ OB_MAX_INT_7B then 6
  else 8

/-- The low bits of the first byte: the magnitude, or the code of the number of bytes. -/
def lowBits (v : BitVec 64) : ℕ :=
  if v.toNat ≤ OB_MAX_INT_1B then v.toNat
  else OB_MAX_INT_1B + (if payload v = 6 ∨ payload v = 8 then payload v - 1 else payload v)

/-- The bytes of a value. -/
def intEncoding (val : BitVec 64) (isAdd : Bool) : List Byte :=
  let v := safeInt64Abs val
  (signBits (val.slt 0) isAdd ||| BitVec.ofNat 8 (lowBits v)) :: leBytes (payload v) v

/-- Shifting the sign through leaves it everywhere. -/
lemma sshiftRight_sign (val : BitVec 64) :
    val.sshiftRight 63 = if val.msb then BitVec.allOnes 64 else 0 := by
  refine BitVec.eq_of_getLsbD_eq fun i hi => ?_
  have hbit : (val.sshiftRight 63).getLsbD i = val.msb := by
    rw [BitVec.getLsbD_sshiftRight, decide_eq_false (not_le.2 hi)]
    rcases Nat.eq_zero_or_pos i with rfl | hpos
    · rfl
    · rw [if_neg (by omega)]
      rfl
  rw [hbit]
  cases val.msb with
  | false => exact BitVec.getLsbD_zero.symm
  | true => rw [if_pos rfl, BitVec.getLsbD_allOnes, decide_eq_true hi]

/-- Both encoders take the same magnitude. -/
lemma safeInt64Abs_eq (val : BitVec 64) : safeInt64Abs val = if val.slt 0 then -val else val := by
  rw [safeInt64Abs, sshiftRight_sign, show val.slt 0 = val.msb from BitVec.slt_zero_eq_msb]
  cases val.msb with
  | false => simp
  | true =>
    rw [if_pos rfl, BitVec.xor_allOnes, BitVec.neg_eq_not_add, sub_eq_add_neg]
    rfl

lemma encodedLengthInt_eq (val : BitVec 64) :
    encodedLengthInt val = payload (safeInt64Abs val) + 1 := by
  rw [encodedLengthInt, payload]
  split_ifs <;> rfl

lemma length_intEncoding (val : BitVec 64) (isAdd : Bool) :
    ((intEncoding val isAdd).length : ℤ) = encodedLengthInt val := by
  rw [intEncoding, List.length_cons, length_leBytes, encodedLengthInt_eq]
  rfl

lemma max_lt : OB_MAX_INT_1B < OB_MAX_INT_2B ∧ OB_MAX_INT_2B < OB_MAX_INT_3B
    ∧ OB_MAX_INT_3B < OB_MAX_INT_4B ∧ OB_MAX_INT_4B < OB_MAX_INT_5B
    ∧ OB_MAX_INT_5B < OB_MAX_INT_7B := by decide

/-- The classes of magnitudes, with the bytes that each takes. -/
lemma payload_cases (v : BitVec 64) : (v.toNat ≤ OB_MAX_INT_1B ∧ payload v = 0)
      ∨ (OB_MAX_INT_1B < v.toNat ∧ v.toNat ≤ OB_MAX_INT_2B ∧ payload v = 1)
      ∨ (OB_MAX_INT_2B < v.toNat ∧ v.toNat ≤ OB_MAX_INT_3B ∧ payload v = 2)
      ∨ (OB_MAX_INT_3B < v.toNat ∧ v.toNat ≤ OB_MAX_INT_4B ∧ payload v = 3)
      ∨ (OB_MAX_INT_4B < v.toNat ∧ v.toNat ≤ OB_MAX_INT_5B ∧ payload v = 4)
      ∨ (OB_MAX_INT_5B < v.toNat ∧ v.toNat ≤ OB_MAX_INT_7B ∧ payload v = 6)
      ∨ (OB_MAX_INT_7B < v.toNat ∧ payload v = 8) := by
  rw [payload]
  split_ifs <;> omega

/-- As many bytes are written as the magnitude needs. -/
lemma toNat_lt_payload (v : BitVec 64) (h : ¬ v.toNat ≤ OB_MAX_INT_1B) :
    v.toNat < 2 ^ (8 * payload v) := by
  have hlt := v.isLt
  rcases payload_cases v with ⟨hle, -⟩ | ⟨-, hle, hp⟩ | ⟨-, hle, hp⟩ | ⟨-, hle, hp⟩ | ⟨-, hle, hp⟩
    | ⟨-, hle, hp⟩ | ⟨-, hp⟩
  · exact absurd hle h
  · rw [OB_MAX_INT_2B] at hle; rw [hp]; omega
  · rw [OB_MAX_INT_3B] at hle; rw [hp]; omega
  · rw [OB_MAX_INT_4B] at hle; rw [hp]; omega
  · rw [OB_MAX_INT_5B] at hle; rw [hp]; omega
  · rw [OB_MAX_INT_7B] at hle; rw [hp]; omega
  · rw [hp]; exact hlt

/-! ### The first byte -/

lemma firstByte_fields (isNeg isAdd : Bool) (x : Fin 32) :
    testBit (signBits isNeg isAdd ||| BitVec.ofNat 8 x) OB_INT_SIGN_BIT_POS = isNeg
      ∧ testBit (signBits isNeg isAdd ||| BitVec.ofNat 8 x) OB_INT_OPERATION_BIT_POS = isAdd
      ∧ ((signBits isNeg isAdd ||| BitVec.ofNat 8 x) &&& OB_INT_VALUE_MASK).toNat = x := by
  revert isNeg isAdd x
  decide

lemma firstByte_add (isNeg isAdd : Bool) (code : Fin 8) :
    (signBits isNeg isAdd ||| BitVec.ofNat 8 OB_MAX_INT_1B) + BitVec.ofNat 8 code
      = signBits isNeg isAdd ||| BitVec.ofNat 8 (OB_MAX_INT_1B + code) := by
  revert isNeg isAdd code
  decide

lemma lowBits_lt (v : BitVec 64) : lowBits v < 32 := by
  have hcases := payload_cases v
  have hmax : OB_MAX_INT_1B = 23 := rfl
  rw [lowBits]
  split_ifs <;> omega

/-! ## The encoders write the format -/

/-- Bytes written one after the other. -/
def Writer.putAll (w : Writer) (bs : List Byte) : Writer :=
  ⟨w.mem.write w.pos bs, w.pos + bs.length⟩

section Encode

variable {bufLen : ℤ} {w : Writer} {val v : BitVec 64} {isAdd : Bool} {n k : ℕ}

@[simp] lemma Writer.putAll_nil (w : Writer) : w.putAll [] = w := by
  simp [Writer.putAll, Memory.write]

lemma Writer.put_putAll (w : Writer) (b : Byte) (bs : List Byte) :
    (w.put b).putAll bs = w.putAll (b :: bs) := by
  simp only [Writer.putAll, Writer.put, Memory.write, List.length_cons, cast_succ,
    Writer.mk.injEq, true_and]
  ring

lemma low_byte (val : BitVec 64) : (val &&& 0xff).setWidth 8 = val.setWidth 8 := by
  rw [BitVec.setWidth_and]
  exact BitVec.and_allOnes

/-- One step through the labels.  The shift is arithmetic, which the low bytes do not see. -/
lemma Writer.putLow_putAll (hn : n ≤ 7) :
    (w.putLow v).putAll (leBytes n (v.sshiftRight 8)) = w.putAll (leBytes (n + 1) v) := by
  have hshift : leBytes n (v.sshiftRight 8) = leBytes n (v >>> 8) := by
    refine leBytes_congr fun i hi => ?_
    rw [BitVec.getLsbD_sshiftRight, BitVec.getLsbD_ushiftRight,
      decide_eq_false (by omega), if_pos (by omega)]
    rfl
  rw [Writer.putLow, low_byte, hshift, Writer.put_putAll]
  rfl

lemma gInt2B_eq : gInt2B w v = w.putAll (leBytes 1 v) := by
  rw [gInt2B, ← Writer.putLow_putAll (by omega), leBytes, Writer.putAll_nil]

lemma gInt3B_eq : gInt3B w v = w.putAll (leBytes 2 v) := by
  rw [gInt3B, gInt2B_eq, Writer.putLow_putAll (by omega)]

lemma gInt4B_eq : gInt4B w v = w.putAll (leBytes 3 v) := by
  rw [gInt4B, gInt3B_eq, Writer.putLow_putAll (by omega)]

lemma gInt5B_eq : gInt5B w v = w.putAll (leBytes 4 v) := by
  rw [gInt5B, gInt4B_eq, Writer.putLow_putAll (by omega)]

lemma gInt7B_eq : gInt7B w v = w.putAll (leBytes 6 v) := by
  rw [gInt7B, gInt5B_eq, Writer.putLow_putAll (by omega), Writer.putLow_putAll (by omega)]

lemma gInt9B_eq : gInt9B w v = w.putAll (leBytes 8 v) := by
  rw [gInt9B, gInt7B_eq, Writer.putLow_putAll (by omega), Writer.putLow_putAll (by omega)]

/-- A jump writes the first byte and the payload. -/
lemma jump_eq {isNeg : Bool} {label : Writer → BitVec 64 → Writer} (code : Fin 8)
    (hlabel : ∀ {w v}, label w v = w.putAll (leBytes n v)) (hp : payload v = n)
    (hcode : lowBits v = OB_MAX_INT_1B + code) :
    jump w (signBits isNeg isAdd ||| BitVec.ofNat 8 OB_MAX_INT_1B) code label v
      = w.putAll ((signBits isNeg isAdd ||| BitVec.ofNat 8 (lowBits v)) :: leBytes
      (payload v) v) := by
  rw [jump, firstByte_add, hlabel, Writer.put_putAll, hp, hcode]

lemma lowBits_of_payload (h : ¬ v.toNat ≤ OB_MAX_INT_1B) (hp : payload v = n) :
    lowBits v = OB_MAX_INT_1B + (if n = 6 ∨ n = 8 then n - 1 else n) := by
  rw [lowBits, if_neg h, hp]

theorem fastEncode_eq (w : Writer) (val : BitVec 64) (isAdd : Bool) :
    fastEncode w val isAdd = (.success, w.putAll (intEncoding val isAdd)) := by
  rw [fastEncode, ← safeInt64Abs_eq, intEncoding]
  generalize safeInt64Abs val = v
  rcases payload_cases v with ⟨hle, hp⟩ | hlong
  · rw [if_pos hle, lowBits, if_pos hle, hp, ← BitVec.ofNat_toNat, leBytes, ← Writer.put_putAll,
      Writer.putAll_nil]
  · have hord := max_lt
    have hge : ¬ v.toNat ≤ OB_MAX_INT_1B := by omega
    rw [if_neg hge]
    refine congrArg (Prod.mk Ret.success) ?_
    rcases hlong with ⟨hlo, hhi, hp⟩ | ⟨hlo, hhi, hp⟩ | ⟨hlo, hhi, hp⟩ | ⟨hlo, hhi, hp⟩
      | ⟨hlo, hhi, hp⟩ | ⟨hlo, hp⟩
    · rw [if_pos (by omega), if_pos hhi]
      exact jump_eq 1 gInt2B_eq hp (lowBits_of_payload hge hp)
    · rw [if_pos (by omega), if_neg (by omega), if_pos hhi]
      exact jump_eq 2 gInt3B_eq hp (lowBits_of_payload hge hp)
    · rw [if_pos hhi, if_neg (by omega), if_neg (by omega)]
      exact jump_eq 3 gInt4B_eq hp (lowBits_of_payload hge hp)
    · rw [if_neg (by omega), if_pos hhi]
      exact jump_eq 4 gInt5B_eq hp (lowBits_of_payload hge hp)
    · rw [if_neg (by omega), if_neg (by omega), if_pos hhi]
      exact jump_eq 5 gInt7B_eq hp (lowBits_of_payload hge hp)
    · rw [if_neg (by omega), if_neg (by omega), if_neg (by omega)]
      exact jump_eq 7 gInt9B_eq hp (lowBits_of_payload hge hp)

lemma encodeI8_eq (h : w.pos < bufLen) (b : Byte) :
    encodeI8 bufLen w b = (.success, w.put b) := if_pos (by omega)

lemma encodeUintLoop_eq (h : w.pos + k ≤ bufLen) :
    encodeUintLoop bufLen v n k w = (.success, w.putAll (leBytes k (v >>> (8 * n)))) := by
  induction k generalizing n w with
  | zero => rw [encodeUintLoop, leBytes, Writer.putAll_nil]
  | succ k ih =>
    have hput : (w.put ((v >>> (8 * n)).setWidth 8)).pos + k ≤ bufLen := by
      simp only [Writer.put]
      omega
    rw [encodeUintLoop, low_byte, shiftLeft_eq, show n * 2 ^ 3 = 8 * n by ring,
      encodeI8_eq (by omega)]
    simp only
    rw [ih hput, leBytes, Writer.put_putAll, ← BitVec.shiftRight_add,
      show 8 * (n + 1) = 8 * n + 8 by ring]

lemma encodeUintWithGivenLength_eq (hk : 0 < k) (h : w.pos + k ≤ bufLen) :
    encodeUintWithGivenLength bufLen w v k = (.success, w.putAll (leBytes k v)) := by
  rw [encodeUintWithGivenLength, if_neg (by omega), Int.toNat_natCast, encodeUintLoop_eq h]
  simp

lemma safeLowBits_eq (v : BitVec 64) :
    safeLowBits (payload v + 1) v = BitVec.ofNat 8 (lowBits v) := by
  rw [safeLowBits, lowBits]
  rcases payload_cases v with ⟨hle, -⟩ | hlong
  · rw [if_pos hle, if_pos hle, ← BitVec.ofNat_toNat]
  · have hord := max_lt
    have hge : ¬ v.toNat ≤ OB_MAX_INT_1B := by omega
    rw [if_neg hge, if_neg hge]
    have hp : payload v = 1 ∨ payload v = 2 ∨ payload v = 3 ∨ payload v = 4 ∨ payload v = 6
        ∨ payload v = 8 := by omega
    rcases hp with hp | hp | hp | hp | hp | hp <;> rw [hp] <;> rfl

theorem encodeIntSafe_eq (isAdd : Bool) (h : encodedLengthInt val ≤ bufLen - w.pos) :
    encodeIntSafe bufLen w val isAdd = (.success, w.putAll (intEncoding val isAdd)) := by
  rw [encodeIntSafe, if_neg (by omega), intEncoding]
  rw [encodedLengthInt_eq] at h ⊢
  simp only [safeLowBits_eq, encodeI8_eq (show w.pos < bufLen by omega), add_sub_cancel_right]
  generalize safeInt64Abs val = v at h ⊢
  generalize signBits (val.slt 0) isAdd ||| BitVec.ofNat 8 (lowBits v) = firstByte
  rcases Nat.eq_zero_or_pos (payload v) with hp | hp
  · rw [hp, if_neg (by simp), leBytes, ← Writer.put_putAll, Writer.putAll_nil]
  · have hroom : (w.put firstByte).pos + payload v ≤ bufLen := by
      simp only [Writer.put]
      omega
    rw [if_pos (by omega), encodeUintWithGivenLength_eq hp hroom, Writer.put_putAll]

/-- Whatever the room selects, these bytes are written. -/
theorem encodeInt_eq (isAdd : Bool) (h : encodedLengthInt val ≤ bufLen - w.pos) :
    encodeInt bufLen w val isAdd = (.success, w.putAll (intEncoding val isAdd)) := by
  rw [encodeInt]
  split_ifs
  · exact fastEncode_eq w val isAdd
  · exact encodeIntSafe_eq isAdd h

lemma encodeInt_of_lt (isAdd : Bool) (h : bufLen - w.pos < encodedLengthInt val) :
    encodeInt bufLen w val isAdd = (.sizeOverflow, w) := by
  have hlen := encodedLengthInt_eq val
  have hcases := payload_cases (safeInt64Abs val)
  rw [encodeInt, if_neg (by omega), encodeIntSafe, if_pos h]

end Encode

/-! ## The decoders read the format -/

section Decode

variable {mem : Memory} {dataLen p : ℤ} {val v : BitVec 64} {isAdd : Bool} {n k : ℕ}

/-- The labels of `fast_decode` for `n + 1` bytes: from the last byte to the first. -/
def gatherBytes (mem : Memory) : ℕ → ℤ → BitVec 64 → BitVec 64
  | 0, npos, val => orByte mem (npos - 1) val
  | n + 1, npos, val => gatherBytes mem n (npos - 1) (orByte mem (npos - 1) val <<< 8)

lemma ofLeBytes_singleton (b : Byte) : ofLeBytes [b] = b.setWidth 64 := by simp [ofLeBytes]

lemma gatherBytes_eq (mem : Memory) (n : ℕ) (p : ℤ) (val : BitVec 64) :
    gatherBytes mem n (p + (n + 1)) val = (val <<< (8 * n)) ||| ofLeBytes (mem.read p (n + 1)) := by
  induction n generalizing val with
  | zero => simp [gatherBytes, orByte, Memory.read, ofLeBytes]
  | succ n ih =>
    have hpos : p + ((n + 1 : ℕ) + 1 : ℤ) - 1 = p + (n + 1) := by push_cast; ring
    rw [gatherBytes, hpos, ih, mem.read_succ_last p (n + 1), ofLeBytes_append, orByte,
      Memory.length_read, ofLeBytes_singleton, ← BitVec.shiftLeft_add,
      BitVec.shiftLeft_or_distrib, BitVec.or_assoc, BitVec.or_comm (ofLeBytes _),
      show 8 * (n + 1) = 8 + 8 * n by ring, cast_succ]

lemma dInt7B_eq (mem : Memory) (npos : ℤ) (val : BitVec 64) :
    dInt7B mem npos val = gatherBytes mem 5 npos val := by
  simp [dInt7B, dInt5B, dInt4B, dInt3B, dInt2B, gatherBytes, sub_sub]

lemma dInt9B_eq (mem : Memory) (npos : ℤ) (val : BitVec 64) :
    dInt9B mem npos val = gatherBytes mem 7 npos val := by
  rw [dInt9B, dInt7B_eq]
  conv_rhs => rw [gatherBytes, gatherBytes, sub_sub]
  rfl

/-- The labels for `n + 1` bytes give the word of these bytes. -/
lemma gather_eq {label : Memory → ℤ → BitVec 64 → BitVec 64} (r : Reader) (isNeg isAdd : Bool)
    (hlabel : ∀ npos val, label mem npos val = gatherBytes mem n npos val) :
    gather mem r isNeg isAdd (n + 1) label = (.success, ⟨r.pos + (n + 1),
          negateIf isNeg (ofLeBytes (mem.read r.pos (n + 1))), isAdd⟩) := by
  rw [gather, hlabel, gatherBytes_eq]
  simp

lemma decodeUintLoop_eq (h : p + k ≤ dataLen) : decodeUintLoop mem dataLen n k p v
      = some (p + k, v ||| (ofLeBytes (mem.read p k) <<< (8 * n))) := by
  induction k generalizing n p v with
  | zero => simp [decodeUintLoop, Memory.read, ofLeBytes]
  | succ k ih =>
    rw [decodeUintLoop, decodeI8, if_pos (by omega)]
    simp only
    rw [ih (by omega), Memory.read, ofLeBytes, BitVec.shiftLeft_or_distrib, BitVec.or_assoc,
      ← BitVec.shiftLeft_add, shiftLeft_eq, show n * 2 ^ 3 = 8 * n by ring,
      show 8 + 8 * n = 8 * (n + 1) by ring, cast_succ, add_assoc, add_comm (1 : ℤ)]

lemma decodeUintWithGivenLength_eq (h : p + k ≤ dataLen) :
    decodeUintWithGivenLength mem dataLen p k = some (p + k, ofLeBytes (mem.read p k)) := by
  rw [decodeUintWithGivenLength, if_neg (by omega), decodeUintLoop_eq h]
  simp

/-- The answer for a payload of `len` bytes. -/
def payloadAnswer (mem : Memory) (firstByte : Byte) (r : Reader) (len : ℕ) : Ret × Reader :=
  (.success, ⟨r.pos + len,
    negateIf (testBit firstByte OB_INT_SIGN_BIT_POS) (ofLeBytes (mem.read r.pos len)),
    testBit firstByte OB_INT_OPERATION_BIT_POS⟩)

lemma fastDecode_payload {firstByte : Byte} (r : Reader) (hge : ¬ v.toNat ≤ OB_MAX_INT_1B)
    (hlow : (firstByte &&& OB_INT_VALUE_MASK).toNat = lowBits v) :
    fastDecode mem firstByte r = payloadAnswer mem firstByte r (payload v) := by
  rw [fastDecode, hlow]
  rcases payload_cases v with ⟨hle, -⟩ | ⟨-, -, hp⟩ | ⟨-, -, hp⟩ | ⟨-, -, hp⟩ | ⟨-, -, hp⟩
    | ⟨-, -, hp⟩ | ⟨-, hp⟩
  · exact absurd hle hge
  · rw [show lowBits v = OB_MAX_INT_1B + 1 from lowBits_of_payload hge hp, hp,
      if_neg (by omega), if_pos (by omega), if_pos (by omega)]
    exact gather_eq r _ _ fun _ _ => rfl
  · rw [show lowBits v = OB_MAX_INT_1B + 2 from lowBits_of_payload hge hp, hp,
      if_neg (by omega), if_pos (by omega), if_neg (by omega), if_pos (by omega)]
    exact gather_eq r _ _ fun _ _ => rfl
  · rw [show lowBits v = OB_MAX_INT_1B + 3 from lowBits_of_payload hge hp, hp,
      if_neg (by omega), if_pos (by omega), if_neg (by omega), if_neg (by omega)]
    exact gather_eq r _ _ fun _ _ => rfl
  · rw [show lowBits v = OB_MAX_INT_1B + 4 from lowBits_of_payload hge hp, hp,
      if_neg (by omega), if_neg (by omega), if_pos (by omega)]
    exact gather_eq r _ _ fun _ _ => rfl
  · rw [show lowBits v = OB_MAX_INT_1B + 5 from lowBits_of_payload hge hp, hp,
      if_neg (by omega), if_neg (by omega), if_neg (by omega), if_pos (by omega)]
    exact gather_eq r _ _ (dInt7B_eq mem)
  · rw [show lowBits v = OB_MAX_INT_1B + 7 from lowBits_of_payload hge hp, hp,
      if_neg (by omega), if_neg (by omega), if_neg (by omega), if_neg (by omega)]
    exact gather_eq r _ _ (dInt9B_eq mem)

lemma decodeIntSafe_payload {firstByte : Byte} {r : Reader} (hge : ¬ v.toNat ≤ OB_MAX_INT_1B)
    (hlow : (firstByte &&& OB_INT_VALUE_MASK).toNat = lowBits v)
    (hroom : r.pos + payload v ≤ dataLen) :
    decodeIntSafe mem dataLen firstByte r = payloadAnswer mem firstByte r (payload v) := by
  have hlen : (if lowBits v - OB_MAX_INT_1B = 5 ∨ lowBits v - OB_MAX_INT_1B = 7
      then lowBits v - OB_MAX_INT_1B + 1 else lowBits v - OB_MAX_INT_1B) = payload v := by
    have hcases := payload_cases v
    rw [lowBits_of_payload hge rfl]
    split_ifs <;> omega
  have hlong : ¬ lowBits v ≤ OB_MAX_INT_1B := by
    have hcases := payload_cases v
    rw [lowBits_of_payload hge rfl]
    split_ifs <;> omega
  rw [decodeIntSafe, if_neg (by omega), hlow]
  simp only [if_neg hlong, hlen, decodeUintWithGivenLength_eq hroom]
  rfl

/-- The sign turns the magnitude back into the value. -/
lemma negateIf_abs (val : BitVec 64) : negateIf (val.slt 0) (safeInt64Abs val) = val := by
  rw [safeInt64Abs_eq, negateIf]
  split_ifs
  · exact BitVec.neg_neg
  · rfl

/-- Both decoders read an encoding that stands at `p`. -/
theorem decode_intEncoding (r : Reader) (hr : r.pos = p + 1)
    (h : mem.read p (intEncoding val isAdd).length = intEncoding val isAdd)
    (hroom : p + encodedLengthInt val ≤ dataLen) :
    fastDecode mem (mem p) r = (.success, ⟨p + encodedLengthInt val, val, isAdd⟩)
      ∧ decodeIntSafe mem dataLen (mem p) r
        = (.success, ⟨p + encodedLengthInt val, val, isAdd⟩) := by
  rw [encodedLengthInt_eq] at hroom ⊢
  rw [intEncoding, List.length_cons, length_leBytes] at h
  injection h with hfirst hrest
  have habs := negateIf_abs val
  generalize safeInt64Abs val = v at *
  obtain ⟨hsign, hadd, hlow⟩ := firstByte_fields (val.slt 0) isAdd ⟨lowBits v, lowBits_lt v⟩
  rw [← hfirst] at hsign hadd hlow
  rcases le_or_gt v.toNat OB_MAX_INT_1B with hle | hgt
  · have hp : payload v = 0 := by rw [payload, if_pos hle]
    have hval : lowBits v = v.toNat := by rw [lowBits, if_pos hle]
    have hword : BitVec.ofNat 64 v.toNat = v := BitVec.eq_of_toNat_eq (by simp)
    simp only [hval] at hlow
    rw [hp, cast_zero, zero_add, ← hr]
    constructor
    · rw [fastDecode, hsign, hadd, hlow, if_pos hle, hword, habs]
    · rw [decodeIntSafe, if_neg (by omega), hsign, hadd, hlow, if_pos hle, hword, habs]
  · have hge : ¬ v.toNat ≤ OB_MAX_INT_1B := by omega
    have hanswer : payloadAnswer mem (mem p) r (payload v)
        = (.success, ⟨p + (payload v + 1), val, isAdd⟩) := by
      rw [payloadAnswer, hsign, hadd, hr, hrest, ofLeBytes_leBytes (toNat_lt_payload v hge), habs,
        add_assoc, add_comm (1 : ℤ)]
    rw [← hanswer]
    exact ⟨fastDecode_payload r hge hlow, decodeIntSafe_payload hge hlow (by omega)⟩

end Decode

/-- **Agreement.**  Without the room nothing is written.  With it `encode_int` and both encoders
write exactly the `encodedLengthInt val` bytes of `intEncoding val isAdd`; and wherever these bytes
stand, whatever data follow, `decode_int` and both decoders return the value and the flag and leave
the position behind the bytes. -/
theorem encodeInt_decodeInt (bufLen : ℤ) (w : Writer) (val : BitVec 64) (isAdd : Bool) :
    (bufLen - w.pos < encodedLengthInt val → encodeInt bufLen w val isAdd = (.sizeOverflow, w))
    ∧ ((intEncoding val isAdd).length : ℤ) = encodedLengthInt val
    ∧ (encodedLengthInt val ≤ bufLen - w.pos →
      encodeInt bufLen w val isAdd = (.success, w.putAll (intEncoding val isAdd))
        ∧ fastEncode w val isAdd = (.success, w.putAll (intEncoding val isAdd))
        ∧ encodeIntSafe bufLen w val isAdd = (.success, w.putAll (intEncoding val isAdd))
        ∧ (w.putAll (intEncoding val isAdd)).mem.read w.pos (intEncoding val isAdd).length
          = intEncoding val isAdd) ∧ ∀ (mem : Memory) (dataLen p : ℤ) (r : Reader), r.pos = p + 1 →
      mem.read p (intEncoding val isAdd).length = intEncoding val isAdd →
      p + encodedLengthInt val ≤ dataLen →
        decodeInt mem dataLen (mem p) r = (.success, ⟨p + encodedLengthInt val, val, isAdd⟩)
          ∧ fastDecode mem (mem p) r = (.success, ⟨p + encodedLengthInt val, val, isAdd⟩)
          ∧ decodeIntSafe mem dataLen (mem p) r
            = (.success, ⟨p + encodedLengthInt val, val, isAdd⟩) := by
  refine ⟨encodeInt_of_lt isAdd, length_intEncoding val isAdd,
    fun h => ⟨encodeInt_eq isAdd h, fastEncode_eq w val isAdd, encodeIntSafe_eq isAdd h,
      Memory.read_write w.mem w.pos _⟩, ?_⟩
  intro mem dataLen p r hr hread hroom
  obtain ⟨hfast, hsafe⟩ := decode_intEncoding r hr hread hroom
  refine ⟨?_, hfast, hsafe⟩
  rw [decodeInt]
  split_ifs
  · exact hfast
  · exact hsafe

/-- An empty buffer. -/
def blank : Writer := ⟨fun _ => 0, 0⟩

/-- The least `int64_t`, whose negation wraps, in a buffer that just holds it. -/
theorem encodeInt_decodeInt_least :
    ∃ w, encodeInt 9 blank (BitVec.intMin 64) true = (.success, w) ∧ w.pos = 9
      ∧ decodeInt w.mem 9 (w.mem 0) ⟨1, 0, false⟩ = (.success, ⟨9, BitVec.intMin 64, true⟩) := by
  have hlen : encodedLengthInt (BitVec.intMin 64) = 9 := by decide
  obtain ⟨-, hlength, hencode, hdecode⟩ := encodeInt_decodeInt 9 blank (BitVec.intMin 64) true
  obtain ⟨heq, -, -, hread⟩ := hencode (by rw [hlen]; decide)
  refine ⟨_, heq, ?_, ?_⟩
  · rfl
  · have h := (hdecode _ 9 0 ⟨1, 0, false⟩ rfl hread (by rw [hlen]; decide)).1
    rwa [hlen] at h

end OceanBase.Serialization
