import DailyReadCoding.Lib.VarInt
import DailyReadCoding.OceanBase.Serialization.Integer

/-!
# Variable length integers

`encode_vi64` and `encode_vi32` write seven bits a byte and as many bytes as the value needs, ten of
them for a negative `int64_t`; `encode_fixed_bytes_i64` always writes five.  `decode_vi64` and
`decode_vi32` read what either has written.

The decoders look at a byte before they ask whether it is there.  Nothing depends on that byte: with
no data left both ways out of the loop are `OB_DESERIALIZE_ERROR`.
-/

namespace OceanBase.Serialization

open ByteMemory VarInt List Writer Memory

def OB_MAX_V1B : ℕ := 2 ^ 7 - 1
def OB_MAX_V2B : ℕ := 2 ^ 14 - 1
def OB_MAX_V3B : ℕ := 2 ^ 21 - 1
def OB_MAX_V4B : ℕ := 2 ^ 28 - 1
def OB_MAX_V5B : ℕ := 2 ^ 35 - 1
def OB_MAX_V6B : ℕ := 2 ^ 42 - 1
def OB_MAX_V7B : ℕ := 2 ^ 49 - 1
def OB_MAX_V8B : ℕ := 2 ^ 56 - 1
def OB_MAX_V9B : ℕ := 2 ^ 63 - 1
def OB_SERIALIZE_SIZE_NEED_BYTES : ℕ := 5

/-! ## Writing -/

def encodedLengthVi64 (val : BitVec 64) : ℤ :=
  if val.toNat ≤ OB_MAX_V1B then 1
  else if val.toNat ≤ OB_MAX_V2B then 2
  else if val.toNat ≤ OB_MAX_V3B then 3
  else if val.toNat ≤ OB_MAX_V4B then 4
  else if val.toNat ≤ OB_MAX_V5B then 5
  else if val.toNat ≤ OB_MAX_V6B then 6
  else if val.toNat ≤ OB_MAX_V7B then 7
  else if val.toNat ≤ OB_MAX_V8B then 8
  else if val.toNat ≤ OB_MAX_V9B then 9
  else 10

def encodedLengthVi32 (val : BitVec 32) : ℤ :=
  if val.toNat ≤ OB_MAX_V1B then 1
  else if val.toNat ≤ OB_MAX_V2B then 2
  else if val.toNat ≤ OB_MAX_V3B then 3
  else if val.toNat ≤ OB_MAX_V4B then 4
  else 5

/-- The loop over the groups.  A word of `w` bits is through after fewer than `w` rounds. -/
def encodeViLoop {w : ℕ} : ℕ → Writer → BitVec w → Writer
  | 0, out, _ => out
  | rounds + 1, out, v =>
    if v.toNat > OB_MAX_V1B then
      encodeViLoop rounds (out.put ((v ||| 0x80#w).setWidth 8)) (v >>> 7)
    else out.put ((v &&& 0x7f#w).setWidth 8)

/-- The two variable length encoders. -/
def encodeVi {w : ℕ} (length : BitVec w → ℤ) (bufLen : ℤ) (out : Writer) (val : BitVec w) :
    Ret × Writer :=
  if bufLen - out.pos ≥ length val then (.success, encodeViLoop w out val) else (.sizeOverflow, out)

def encodeVi64 : ℤ → Writer → BitVec 64 → Ret × Writer := encodeVi encodedLengthVi64

def encodeVi32 : ℤ → Writer → BitVec 32 → Ret × Writer := encodeVi encodedLengthVi32

/-- `while (n--)` -/
def encodeFixedLoop : ℕ → Writer → BitVec 64 → Writer
  | 0, out, _ => out
  | n + 1, out, v =>
    if n > 0 then encodeFixedLoop n (out.put ((v ||| 0x80#64).setWidth 8)) (v >>> 7)
    else encodeFixedLoop n (out.put ((v &&& 0x7f#64).setWidth 8)) v

def encodeFixedBytesI64 (bufLen : ℤ) (out : Writer) (val : BitVec 64) : Ret × Writer :=
  if bufLen - out.pos ≥ OB_SERIALIZE_SIZE_NEED_BYTES then
    (.success, encodeFixedLoop OB_SERIALIZE_SIZE_NEED_BYTES out val)
  else (.sizeOverflow, out)

/-! ## Reading -/

/-- The output arguments of a decoder. -/
structure ViReader (w : ℕ) where
  pos : ℤ
  val : BitVec w
  deriving DecidableEq

/-- What a shift by the width of the word or more gives, which the language leaves open. -/
abbrev Overshift (w : ℕ) : Type := BitVec w → ℕ → BitVec w

def shiftLeft {w : ℕ} (wild : Overshift w) (x : BitVec w) (shift : ℕ) : BitVec w :=
  if shift < w then x <<< shift else wild x shift

/-- The loop and the step after it, with `left = data_len - tmp_pos`; `shift` is a `uint32_t`. -/
def decodeViLoop {w : ℕ} (wild : Overshift w) (mem : Memory) :
    ℕ → ℤ → ℕ → BitVec w → Option (ℤ × BitVec w)
  | 0, _, _, _ => none
  | left + 1, tmpPos, shift, v =>
    let v := v ||| shiftLeft wild ((mem tmpPos &&& 0x7f#8).setWidth w) shift
    if mem tmpPos &&& 0x80#8 ≠ 0 then
      decodeViLoop wild mem left (tmpPos + 1) ((shift + 7) % 2 ^ 32) v
    else some (tmpPos + 1, v)

/-- The two decoders. -/
def decodeVi {w : ℕ} (wild : Overshift w) (mem : Memory) (dataLen : ℤ) (r : ViReader w) :
    Ret × ViReader w :=
  match decodeViLoop wild mem (dataLen - r.pos).toNat r.pos 0 0 with
  | some (pos, v) => (.success, ⟨pos, v⟩)
  | none => (.deserializeError, r)

def decodeVi64 : Overshift 64 → Memory → ℤ → ViReader 64 → Ret × ViReader 64 := decodeVi

def decodeVi32 : Overshift 32 → Memory → ℤ → ViReader 32 → Ret × ViReader 32 := decodeVi

/-! ## The encoders write groups -/

section Encode

variable {w k : ℕ} {out : Writer} {v : BitVec w}

lemma toNat_low (v : BitVec w) : (v.setWidth 8).toNat % 128 = v.toNat % 128 := by
  rw [BitVec.toNat_setWidth]
  omega

lemma low_or (hw : 8 ≤ w) (v : BitVec w) : (v ||| 0x80#w).setWidth 8 = moreByte v.toNat := by
  have hbyte : ∀ b : BitVec 8, b ||| 0x80#8 = BitVec.ofNat 8 (b.toNat % 128 + 128) := by
    decide +kernel
  have hmask : (0x80#w).setWidth 8 = 0x80#8 := BitVec.setWidth_ofNat_of_le hw _
  rw [BitVec.setWidth_or, hmask, hbyte, toNat_low]
  rfl

lemma low_and (hw : 8 ≤ w) (v : BitVec w) : (v &&& 0x7f#w).setWidth 8 = lastByte v.toNat := by
  have hbyte : ∀ b : BitVec 8, b &&& 0x7f#8 = BitVec.ofNat 8 (b.toNat % 128) := by decide +kernel
  have hmask : (0x7f#w).setWidth 8 = 0x7f#8 := BitVec.setWidth_ofNat_of_le hw _
  rw [BitVec.setWidth_and, hmask, hbyte, toNat_low]
  rfl

lemma toNat_shift (v : BitVec w) : (v >>> 7).toNat = v.toNat / 128 := by
  rw [BitVec.toNat_ushiftRight, Nat.shiftRight_eq_div_pow]

/-- The loop writes the groups that the value needs. -/
lemma encodeViLoop_eq (hw : 8 ≤ w) {rounds : ℕ} (hk : k < rounds) (hlow : k = 0 ∨ 128 ^ k ≤ v.toNat)
    (hhigh : v.toNat < 128 ^ (k + 1)) :
    encodeViLoop rounds out v = out.putAll (groups (k + 1) v.toNat) := by
  induction k generalizing rounds out v with
  | zero =>
    obtain _ | rounds := rounds
    · omega
    rw [encodeViLoop, if_neg (by unfold OB_MAX_V1B; omega), low_and hw, ← putAll_nil (out.put _),
      put_putAll]
    rfl
  | succ k ih =>
    obtain _ | rounds := rounds
    · omega
    rw [encodeViLoop, if_pos (by unfold OB_MAX_V1B; omega), low_or hw,
      ih (by omega) (Or.inr (by rw [toNat_shift]; omega)) (by rw [toNat_shift]; omega),
      put_putAll, toNat_shift]
    rfl

lemma encodeFixedLoop_eq (n : ℕ) (v : BitVec 64) :
    encodeFixedLoop (n + 1) out v = out.putAll (groups (n + 1) v.toNat) := by
  induction n generalizing out v with
  | zero =>
    rw [encodeFixedLoop, low_and (by omega)]
    rfl
  | succ n ih =>
    rw [encodeFixedLoop, ih, low_or (by omega), put_putAll, toNat_shift]
    rfl

end Encode

/-! ## The lengths -/

/-- As many groups as the number needs. -/
def Needs (length : ℤ) (n : ℕ) : Prop :=
  ∃ k : ℕ, length = k + 1 ∧ (k = 0 ∨ 128 ^ k ≤ n) ∧ n < 128 ^ (k + 1)

/-- One comparison of the chain: `max` is the largest number of `k + 1` groups. -/
lemma needs_ite {n max : ℕ} {rest : ℤ} (k : ℕ) (hmax : max + 1 = 128 ^ (k + 1))
    (hlow : k = 0 ∨ 128 ^ k ≤ n)
    (hrest : 128 ^ (k + 1) ≤ n → Needs rest n) : Needs
    (if n ≤ max then (k + 1 : ℤ) else rest) n := by
  split_ifs with h
  · exact ⟨k, rfl, hlow, by omega⟩
  · exact hrest (by omega)

lemma encodedLengthVi64_needs (v : BitVec 64) : Needs (encodedLengthVi64 v) v.toNat := by
  refine needs_ite 0 rfl (.inl rfl) fun h => ?_
  refine needs_ite 1 rfl (.inr h) fun h => ?_
  refine needs_ite 2 rfl (.inr h) fun h => ?_
  refine needs_ite 3 rfl (.inr h) fun h => ?_
  refine needs_ite 4 rfl (.inr h) fun h => ?_
  refine needs_ite 5 rfl (.inr h) fun h => ?_
  refine needs_ite 6 rfl (.inr h) fun h => ?_
  refine needs_ite 7 rfl (.inr h) fun h => ?_
  refine needs_ite 8 rfl (.inr h) fun h => ?_
  exact ⟨9, rfl, .inr h, by omega⟩

lemma encodedLengthVi32_needs (v : BitVec 32) : Needs (encodedLengthVi32 v) v.toNat := by
  refine needs_ite 0 rfl (.inl rfl) fun h => ?_
  refine needs_ite 1 rfl (.inr h) fun h => ?_
  refine needs_ite 2 rfl (.inr h) fun h => ?_
  refine needs_ite 3 rfl (.inr h) fun h => ?_
  exact ⟨4, rfl, .inr h, by omega⟩

/-- A number below `2 ^ w` needs at most so many groups that the last one still lies in the word. -/
lemma Needs.bits_lt {w k n : ℕ} (hn : n < 2 ^ w) (hw : 0 < w)
    (hk : k = 0 ∨ 128 ^ k ≤ n) : 7 * k < w := by
  rcases hk with rfl | hk
  · omega
  · have hpow : 2 ^ (7 * k) < 2 ^ w := by
      rw [pow_mul]
      exact lt_of_le_of_lt hk hn
    exact (Nat.pow_lt_pow_iff_right (by omega)).1 hpow

/-- Every encoder writes `VarInt.groups`. -/
lemma encodeVi_eq {w : ℕ} {length : BitVec w → ℤ} {bufLen : ℤ} {out : Writer} {v : BitVec w}
    (hw : 8 ≤ w) (hlen : Needs (length v) v.toNat) : encodeVi length bufLen out v =
      if length v ≤ bufLen - out.pos then (.success, out.putAll (groups (length v).toNat v.toNat))
      else (.sizeOverflow, out) := by
  obtain ⟨k, hk, hlow, hhigh⟩ := hlen
  have hbits := Needs.bits_lt v.isLt (by omega) hlow
  have hnat : (length v).toNat = k + 1 := by omega
  rw [encodeVi, hnat, encodeViLoop_eq hw (by omega) hlow hhigh]

/-! ## The decoders read groups -/

section Decode

variable {w k n left shift : ℕ} {wild : Overshift w} {mem : Memory} {p dataLen : ℤ} {v : BitVec w}

lemma shiftLeft_of_lt {x : BitVec w} (h : shift < w) : shiftLeft wild x shift = x
    <<< shift := if_pos h

lemma decodeViLoop_groups (hread : mem.read p (k + 1) = groups (k + 1) n) (hn : n < 128 ^ (k + 1))
    (hleft : k < left) (hshift : shift + 7 * k < w) (hw : w < 2 ^ 32) :
    decodeViLoop wild mem left p shift v = some (p + (k + 1),
    v ||| BitVec.ofNat w n <<< shift) := by
  induction k generalizing n left shift p v with
  | zero =>
    obtain _ | left := left
    · omega
    injection hread with hbyte _
    have hsmall : n % 128 = n := Nat.mod_eq_of_lt (by omega)
    rw [decodeViLoop, hbyte, lastByte_bits, lastByte_ends, setWidth_group,
      shiftLeft_of_lt (by omega), hsmall]
    simp
  | succ k ih =>
    obtain _ | left := left
    · omega
    injection hread with hbyte hrest
    have hmod : (shift + 7) % 2 ^ 32 = shift + 7 := Nat.mod_eq_of_lt (by omega)
    rw [decodeViLoop, hbyte, moreByte_bits, setWidth_group, shiftLeft_of_lt (by omega)]
    rw [if_pos (moreByte_continues n), hmod, ih hrest (by omega) (by omega) (by omega)]
    have hword : BitVec.ofNat w (n % 128) <<< shift ||| BitVec.ofNat w (n / 128) <<< (shift + 7)
        = BitVec.ofNat w n <<< shift := by
      rw [add_comm shift, BitVec.shiftLeft_add, ← BitVec.shiftLeft_or_distrib, groupBits]
    rw [BitVec.or_assoc, hword]
    push_cast
    ring_nf

/-- Without the last group there is nothing but bytes that continue. -/
lemma decodeViLoop_truncated (hread : mem.read p (k + 1) = groups (k + 1) n) (hleft : left ≤ k) :
    decodeViLoop wild mem left p shift v = none := by
  induction k generalizing n left shift p v with
  | zero =>
    obtain rfl : left = 0 := by omega
    rfl
  | succ k ih =>
    injection hread with hbyte hrest
    cases left with
    | zero => rfl
    | succ left => rw [decodeViLoop, hbyte, if_pos (moreByte_continues n), ih hrest (by omega)]

end Decode

/-! ## Sequences of integers -/

/-- The three ways to write an integer. -/
inductive Kind where
  | vi64
  | fixed
  | vi32
  deriving DecidableEq

/-- An integer and the way it is written. -/
inductive Field where
  | vi64 (val : BitVec 64)
  | fixed (val : BitVec 64)
  | vi32 (val : BitVec 32)
  deriving DecidableEq

namespace Field

def kind : Field → Kind
  | vi64 _ => .vi64
  | fixed _ => .fixed
  | vi32 _ => .vi32

/-- Five groups are all that `encode_fixed_bytes_i64` writes. -/
def Valid : Field → Prop
  | vi64 _ => True
  | fixed val => 0 ≤ val.toInt ∧ val.toInt < 2 ^ 35
  | vi32 _ => True

def encode (bufLen : ℤ) (out : Writer) : Field → Ret × Writer
  | vi64 val => encodeVi64 bufLen out val
  | fixed val => encodeFixedBytesI64 bufLen out val
  | vi32 val => encodeVi32 bufLen out val

def encodedLength : Field → ℤ
  | vi64 val => encodedLengthVi64 val
  | fixed _ => OB_SERIALIZE_SIZE_NEED_BYTES
  | vi32 val => encodedLengthVi32 val

end Field

/-- The integers written one after the other, up to the first that has no room. -/
def encodeAll (bufLen : ℤ) : Writer → List Field → Ret × Writer
  | out, [] => (.success, out)
  | out, f :: fs =>
    match f.encode bufLen out with
    | (.success, out) => encodeAll bufLen out fs
    | failed => failed

section Sequences

variable (wild64 : Overshift 64) (wild32 : Overshift 32)

/-- The decoder for an integer; the output argument is zero before. -/
def Kind.decode (mem : Memory) (dataLen pos : ℤ) : Kind → Ret × ℤ × Field
  | .vi64 =>
    let (ret, r) := decodeVi64 wild64 mem dataLen ⟨pos, 0⟩
    (ret, r.pos, .vi64 r.val)
  | .fixed =>
    let (ret, r) := decodeVi64 wild64 mem dataLen ⟨pos, 0⟩
    (ret, r.pos, .fixed r.val)
  | .vi32 =>
    let (ret, r) := decodeVi32 wild32 mem dataLen ⟨pos, 0⟩
    (ret, r.pos, .vi32 r.val)

/-- The integers read one after the other, and the position behind them. -/
def decodeAll (mem : Memory) (dataLen : ℤ) : ℤ → List Kind → Option (List Field × ℤ)
  | pos, [] => some ([], pos)
  | pos, kind :: kinds =>
    match kind.decode wild64 wild32 mem dataLen pos with
    | (.success, pos, f) => (decodeAll mem dataLen pos kinds).map fun r => (f :: r.1, r.2)
    | _ => none

end Sequences

/-! ## One integer -/

/-- Every decoder reads them, and refuses a part of them. -/
lemma decodeVi_groups {w k n : ℕ} {wild : Overshift w} {mem : Memory} {dataLen p : ℤ}
    (hread : mem.read p (k + 1) = groups (k + 1) n) (hn : n < 128 ^ (k + 1)) (hbits : 7 * k < w)
    (hw : w < 2 ^ 32) (hroom : p + (k + 1) ≤ dataLen) (val : BitVec w) :
    decodeVi wild mem dataLen ⟨p, val⟩ = (.success, ⟨p + (k + 1), BitVec.ofNat w n⟩) := by
  have hloop := @decodeViLoop_groups w k n (dataLen - p).toNat 0 wild mem p 0 hread hn (by omega)
    (by omega) hw
  rw [decodeVi, hloop]
  simp

/-- What an encoder of variable length has written comes back. -/
lemma decodeVi_of_needs {w : ℕ} {wild : Overshift w} {mem : Memory} {dataLen p len : ℤ}
    {v : BitVec w}
    (hlen : Needs len v.toNat) (hw : 0 < w) (hw' : w < 2 ^ 32)
    (hread : mem.read p len.toNat = groups len.toNat v.toNat) (hroom : p + len ≤ dataLen)
    (old : BitVec w) : decodeVi wild mem dataLen ⟨p, old⟩ = (.success, ⟨p + len, v⟩) := by
  obtain ⟨k, rfl, hlow, hhigh⟩ := hlen
  have hbits := Needs.bits_lt v.isLt hw hlow
  rw [decodeVi_groups hread hhigh hbits hw' hroom, BitVec.ofNat_toNat, BitVec.setWidth_eq]

lemma decodeVi_truncated {w k n : ℕ} {wild : Overshift w} {mem : Memory} {dataLen p : ℤ}
    (hread : mem.read p (k + 1) = groups (k + 1) n) (hroom : dataLen < p + (k + 1))
    (r : ViReader w) (hr : r.pos = p) : decodeVi wild mem dataLen r = (.deserializeError, r) := by
  have hloop := @decodeViLoop_truncated w k n (dataLen - p).toNat 0 wild mem p 0 hread (by omega)
  rw [decodeVi, hr, hloop]

namespace Field

/-- The bits of an integer as a number. -/
def value : Field → ℕ
  | vi64 val => val.toNat
  | fixed val => val.toNat
  | vi32 val => val.toNat

/-- What every encoder writes. -/
def bytes (f : Field) : List Byte := groups f.encodedLength.toNat f.value

lemma encodedLength_pos (f : Field) : 1 ≤ f.encodedLength := by
  cases f with
  | vi64 val =>
    obtain ⟨k, hk, -⟩ := encodedLengthVi64_needs val
    simp only [encodedLength]
    omega
  | fixed val => exact (by decide : (1 : ℤ) ≤ OB_SERIALIZE_SIZE_NEED_BYTES)
  | vi32 val =>
    obtain ⟨k, hk, -⟩ := encodedLengthVi32_needs val
    simp only [encodedLength]
    omega

lemma length_bytes (f : Field) : (f.bytes.length : ℤ) = f.encodedLength := by
  have := f.encodedLength_pos
  rw [bytes, length_groups]
  omega

lemma encode_eq (f : Field) (bufLen : ℤ) (out : Writer) : f.encode bufLen out =
    if f.encodedLength ≤ bufLen - out.pos then (.success, out.putAll f.bytes)
    else (.sizeOverflow, out) := by
  cases f with
  | vi64 val => exact encodeVi_eq (by omega) (encodedLengthVi64_needs val)
  | fixed val =>
    have hloop : encodeFixedLoop OB_SERIALIZE_SIZE_NEED_BYTES out val = out.putAll
      (fixed val).bytes :=
      encodeFixedLoop_eq 4 val
    rw [encode, encodeFixedBytesI64, hloop]
    rfl
  | vi32 val => exact encodeVi_eq (by omega) (encodedLengthVi32_needs val)

variable {wild64 : Overshift 64} {wild32 : Overshift 32} {mem : Memory} {dataLen p : ℤ}

/-- Five groups hold a number below `2 ^ 35`. -/
lemma toNat_lt_of_valid {val : BitVec 64} (hv : (fixed val).Valid) : val.toNat < 128 ^ 5 := by
  obtain ⟨h0, h35⟩ := hv
  rw [BitVec.toInt_eq_toNat_cond] at h0 h35
  split_ifs at h0 h35 <;> omega

lemma decodeVi64_bytes {val : BitVec 64}
    (hread : mem.read p (vi64 val).bytes.length = (vi64 val).bytes)
    (hroom : p + encodedLengthVi64 val ≤ dataLen) (old : BitVec 64) :
    decodeVi64 wild64 mem dataLen ⟨p, old⟩ = (.success, ⟨p + encodedLengthVi64 val, val⟩) := by
  rw [bytes, length_groups] at hread
  exact decodeVi_of_needs (encodedLengthVi64_needs val) (by omega) (by omega) hread hroom old

lemma decode_bytes {f : Field} (hv : f.Valid) (hread : mem.read p f.bytes.length = f.bytes)
    (hroom : p + f.encodedLength ≤ dataLen) :
    f.kind.decode wild64 wild32 mem dataLen p = (.success, p + f.encodedLength, f) := by
  cases f with
  | vi64 val => simp only [kind, Kind.decode, decodeVi64_bytes hread hroom, encodedLength]
  | fixed val =>
    have hread' : mem.read p (4 + 1) = groups (4 + 1) val.toNat := hread
    have hdecode := @decodeVi_groups 64 4 val.toNat wild64 mem dataLen p hread'
      (toNat_lt_of_valid hv) (by omega) (by omega) hroom 0
    simp only [Kind.decode, decodeVi64, hdecode, BitVec.ofNat_toNat]
    rfl
  | vi32 val =>
    rw [bytes, length_groups] at hread
    have hdecode := @decodeVi_of_needs 32 wild32 mem dataLen p _ val (encodedLengthVi32_needs val)
      (by omega) (by omega) hread hroom 0
    simp only [kind, Kind.decode, decodeVi32, hdecode, encodedLength]

/-- A part of the bytes is refused, and the position stays. -/
lemma decode_truncated {f : Field} (hread : mem.read p f.bytes.length = f.bytes)
    (hroom : dataLen < p + f.encodedLength) :
    (f.kind.decode wild64 wild32 mem dataLen p).1 = .deserializeError ∧
      (f.kind.decode wild64 wild32 mem dataLen p).2.1 = p := by
  have hlen := f.encodedLength_pos
  obtain ⟨k, hk⟩ : ∃ k : ℕ, f.encodedLength = k + 1 := ⟨(f.encodedLength - 1).toNat, by omega⟩
  have hread' : mem.read p (k + 1) = groups (k + 1) f.value := by
    rw [bytes, length_groups, hk] at hread
    exact hread
  have hroom' : dataLen < p + (k + 1) := by omega
  cases f with
  | vi64 val =>
    simp only [kind, Kind.decode, decodeVi64, decodeVi_truncated hread' hroom' ⟨p, 0⟩ rfl, and_self]
  | fixed val =>
    simp only [kind, Kind.decode, decodeVi64, decodeVi_truncated hread' hroom' ⟨p, 0⟩ rfl, and_self]
  | vi32 val =>
    simp only [kind, Kind.decode, decodeVi32, decodeVi_truncated hread' hroom' ⟨p, 0⟩ rfl, and_self]

end Field

/-! ## All of them -/

/-- The bytes of a sequence. -/
def totalLength (fs : List Field) : ℤ := (fs.map Field.encodedLength).sum

lemma length_flatMap_bytes (fs : List Field) :
    ((fs.flatMap Field.bytes).length : ℤ) = totalLength fs := by
  induction fs with
  | nil => rfl
  | cons f fs ih =>
    rw [flatMap_cons, length_append, Nat.cast_add, ih, f.length_bytes]
    simp [totalLength]

lemma totalLength_nonneg (fs : List Field) : 0 ≤ totalLength fs := by
  rw [← length_flatMap_bytes]
  omega

lemma totalLength_cons (f : Field) (fs : List Field) :
    totalLength (f :: fs) = f.encodedLength + totalLength fs := by
  simp [totalLength]

lemma Writer.putAll_putAll (out : Writer) (bs cs : List Byte) :
    (out.putAll bs).putAll cs = out.putAll (bs ++ cs) := by
  induction bs generalizing out with
  | nil => simp
  | cons b bs ih => rw [← put_putAll, ih, put_putAll, cons_append]

lemma encodeAll_eq (fs : List Field) {bufLen : ℤ} {out : Writer}
    (hroom : totalLength fs ≤ bufLen - out.pos) :
    encodeAll bufLen out fs = (.success, out.putAll (fs.flatMap Field.bytes)) := by
  induction fs generalizing out with
  | nil => simp [encodeAll]
  | cons f fs ih =>
    rw [totalLength_cons] at hroom
    have hrest := totalLength_nonneg fs
    have hpos : (out.putAll f.bytes).pos = out.pos + f.encodedLength := by
      rw [Writer.putAll, f.length_bytes]
    rw [encodeAll, f.encode_eq, if_pos (by omega)]
    simp only
    rw [ih (by omega), putAll_putAll, flatMap_cons]

section Decode

variable {wild64 : Overshift 64} {wild32 : Overshift 32} {mem : Memory} {dataLen p : ℤ}

lemma decodeAll_eq {fs : List Field} (hv : ∀ f ∈ fs, f.Valid)
    (hread : mem.read p (fs.flatMap Field.bytes).length = fs.flatMap Field.bytes)
    (hroom : p + totalLength fs ≤ dataLen) :
    decodeAll wild64 wild32 mem dataLen p (fs.map Field.kind) = some (fs, p + totalLength fs) := by
  induction fs generalizing p with
  | nil => simp [decodeAll, totalLength]
  | cons f fs ih =>
    rw [flatMap_cons, length_append, read_add] at hread
    obtain ⟨hfirst, hrest⟩ := append_inj hread (by simp)
    rw [totalLength_cons] at hroom ⊢
    have hnonneg := totalLength_nonneg fs
    rw [f.length_bytes] at hrest
    rw [map_cons, decodeAll, Field.decode_bytes (hv f (by simp)) hfirst (by omega)]
    simp only
    rw [ih (fun g hg => hv g (by simp [hg])) hrest (by omega), add_assoc]
    rfl

end Decode

/-- **Sequences.** Integers that are written one after the other take exactly the bytes that
`encodedLength` says and are read back as they were, up to the same position; and where one of them
is cut off, the decoder refuses it and leaves the position. -/
theorem encodeAll_decodeAll (wild64 : Overshift 64) (wild32 : Overshift 32) (fs : List Field)
    (hv : ∀ f ∈ fs, f.Valid) (bufLen : ℤ) (out : Writer)
    (hroom : totalLength fs ≤ bufLen - out.pos) :
    ∃ out', encodeAll bufLen out fs = (.success, out') ∧ out'.pos = out.pos + totalLength fs ∧
      (∀ dataLen, out'.pos ≤ dataLen →
        decodeAll wild64 wild32 out'.mem dataLen out.pos (fs.map Field.kind) = some
        (fs, out'.pos)) ∧
      ∀ xs f ys, fs = xs ++ f :: ys → ∀ start, start = out.pos + totalLength xs →
        f.kind.decode wild64 wild32 out'.mem (start + f.encodedLength) start
          = (.success, start + f.encodedLength, f) ∧ ∀ dataLen, dataLen < start + f.encodedLength →
          (f.kind.decode wild64 wild32 out'.mem dataLen start).1 = .deserializeError ∧
            (f.kind.decode wild64 wild32 out'.mem dataLen start).2.1 = start := by
  have hpos : (out.putAll (fs.flatMap Field.bytes)).pos = out.pos + totalLength fs := by
    rw [Writer.putAll, length_flatMap_bytes]
  have hread : (out.putAll (fs.flatMap Field.bytes)).mem.read out.pos
    (fs.flatMap Field.bytes).length
      = fs.flatMap Field.bytes := read_write out.mem out.pos _
  refine ⟨_, encodeAll_eq fs hroom, hpos, ?_, ?_⟩
  · intro dataLen hdata
    rw [hpos] at hdata ⊢
    exact decodeAll_eq hv hread hdata
  · rintro xs f ys rfl start rfl
    rw [flatMap_append, flatMap_cons, ← append_assoc] at hread
    have hfield := read_middle hread
    rw [length_flatMap_bytes] at hfield
    rw [flatMap_append, flatMap_cons, ← append_assoc]
    exact ⟨Field.decode_bytes (hv f (by simp)) hfield le_rfl,
      fun dataLen hdata => Field.decode_truncated hfield hdata⟩

/-- A negative number in ten bytes, a padded one in five and a short one, in a buffer that just
holds them. -/
theorem encodeAll_decodeAll_negative :
    ∃ out', encodeAll 16 blank [.vi64 (-1), .fixed 300, .vi32 5] = (.success, out') ∧
    out'.pos = 16 ∧
      decodeAll (fun x _ => x) (fun x _ => x) out'.mem 16 0 [.vi64, .fixed, .vi32]
        = some ([.vi64 (-1), .fixed 300, .vi32 5], 16) := by
  have htotal : totalLength [.vi64 (-1), .fixed 300, .vi32 5] = 16 := by decide
  have hvalid : ∀ f ∈ [Field.vi64 (-1), .fixed 300, .vi32 5], f.Valid := by
    intro f hf
    simp only [mem_cons, not_mem_nil, or_false] at hf
    rcases hf with rfl | rfl | rfl
    · exact trivial
    · exact ⟨by decide, by decide⟩
    · exact trivial
  obtain ⟨out', hout, hpos, hdecode, -⟩ := encodeAll_decodeAll (fun x _ => x) (fun x _ => x)
    [.vi64 (-1), .fixed 300, .vi32 5] hvalid 16 blank (by rw [htotal]; decide)
  have hread := hdecode 16 (le_of_eq hpos)
  rw [hpos] at hread
  exact ⟨out', hout, hpos, hread⟩

end OceanBase.Serialization
