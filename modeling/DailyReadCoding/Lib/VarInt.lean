import DailyReadCoding.Lib.ByteMemory

/-!
# Numbers in groups of seven bits

A number is written with seven bits in each byte, lowest first; the top bit of a byte says that more
bytes follow.
-/

namespace VarInt

open ByteMemory BitVec Nat

/-- A group that others follow. -/
def moreByte (n : ℕ) : Byte := BitVec.ofNat 8 (n % 128 + 128)

/-- The last group. -/
def lastByte (n : ℕ) : Byte := BitVec.ofNat 8 (n % 128)

/-- The groups of a number. -/
def groups : ℕ → ℕ → List Byte
  | 0, _ => []
  | 1, n => [lastByte n]
  | k + 2, n => moreByte n :: groups (k + 1) (n / 128)

@[simp] lemma length_groups (k n : ℕ) : (groups k n).length = k := by
  induction k, n using groups.induct with
  | case1 => rfl
  | case2 => rfl
  | case3 k n ih => rw [groups, List.length_cons, ih]

/-! ## Single bytes -/

lemma byte_fields : ∀ x : Fin 128, BitVec.ofNat 8 (x + 128) &&& 0x80#8 ≠ 0 ∧
    BitVec.ofNat 8 (x + 128) &&& 0x7f#8 = BitVec.ofNat 8 x ∧ BitVec.ofNat 8 x &&& 0x80#8 = 0 ∧
    BitVec.ofNat 8 x &&& 0x7f#8 = BitVec.ofNat 8 x := by
  decide +kernel

lemma moreByte_continues (n : ℕ) : moreByte n &&& 0x80#8 ≠ 0 :=
  (byte_fields ⟨n % 128, mod_lt _ (by omega)⟩).1

lemma moreByte_bits (n : ℕ) : moreByte n &&& 0x7f#8 = BitVec.ofNat 8 (n % 128) :=
  (byte_fields ⟨n % 128, mod_lt _ (by omega)⟩).2.1

lemma lastByte_ends (n : ℕ) : lastByte n &&& 0x80#8 = 0 :=
  (byte_fields ⟨n % 128, mod_lt _ (by omega)⟩).2.2.1

lemma lastByte_bits (n : ℕ) : lastByte n &&& 0x7f#8 = BitVec.ofNat 8 (n % 128) :=
  (byte_fields ⟨n % 128, mod_lt _ (by omega)⟩).2.2.2

/-! ## Words -/

variable {w : ℕ}

lemma setWidth_group (n : ℕ) :
    (BitVec.ofNat 8 (n % 128)).setWidth w = BitVec.ofNat w (n % 128) := by
  refine eq_of_toNat_eq ?_
  rw [toNat_setWidth, toNat_ofNat, toNat_ofNat, mod_eq_of_lt (show n % 128 < 2 ^ 8 by omega)]

/-- A group and those above it make up the word. -/
theorem groupBits (n : ℕ) :
    BitVec.ofNat w (n % 128) ||| BitVec.ofNat w (n / 128) <<< 7 = BitVec.ofNat w n := by
  refine eq_of_getLsbD_eq fun i hi => ?_
  rw [getLsbD_or, getLsbD_shiftLeft, getLsbD_ofNat, getLsbD_ofNat,
    getLsbD_ofNat, show 128 = 2 ^ 7 by rfl, testBit_mod_two_pow, testBit_div_two_pow]
  by_cases h : i < 7
  · simp [h, hi]
  · have hsub : i - 7 + 7 = i := by omega
    simp [h, hi, hsub]
    omega

end VarInt
