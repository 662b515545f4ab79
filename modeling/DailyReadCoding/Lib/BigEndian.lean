import Mathlib.Data.Nat.Log
import DailyReadCoding.Lib.ByteMemory

/-!
# Numbers as bytes, highest first

`toBytes n v` are the `n` low bytes of a number, and `ofBytes` is the number of some bytes; they are
inverse as far as the bytes go. `shortest_iff` says which bytes are the shortest of their number
that leave the top bit free.
-/

namespace BigEndian

open Nat List

open ByteMemory (Byte)

/-- The `n` low bytes of a number, highest first. -/
def toBytes : ℕ → ℕ → List Byte
  | 0, _ => []
  | n + 1, v => BitVec.ofNat 8 (v / 256 ^ n) :: toBytes n v

/-- The number whose bytes these are. -/
def ofBytes : List Byte → ℕ
  | [] => 0
  | b :: bs => b.toNat * 256 ^ bs.length + ofBytes bs

@[simp] lemma length_toBytes (n v : ℕ) : (toBytes n v).length = n := by
  induction n with
  | zero => rfl
  | succ n ih => rw [toBytes, length_cons, ih]

lemma toBytes_succ (n v : ℕ) : toBytes (n + 1) v = toBytes n (v / 256) ++ [BitVec.ofNat 8 v] := by
  induction n with
  | zero => simp [toBytes]
  | succ n ih => rw [toBytes, ih, toBytes, Nat.div_div_eq_div_mul, ← pow_succ', cons_append]

/-- **Round trip.**  The bytes give back the number, as far as they go. -/
theorem ofBytes_toBytes (n v : ℕ) : ofBytes (toBytes n v) = v % 256 ^ n := by
  induction n with
  | zero => simp [toBytes, ofBytes, mod_one]
  | succ n ih =>
    have hbyte : (BitVec.ofNat 8 (v / 256 ^ n)).toNat = v / 256 ^ n % 256 := BitVec.toNat_ofNat _ _
    rw [toBytes, ofBytes, ih, length_toBytes, hbyte, pow_succ, mod_mul, add_comm, mul_comm]

lemma ofBytes_toBytes_of_lt {n v : ℕ} (h : v < 256 ^ n) : ofBytes (toBytes n v) = v := by
  rw [ofBytes_toBytes, mod_eq_of_lt h]

lemma ofBytes_lt (bs : List Byte) : ofBytes bs < 256 ^ bs.length := by
  induction bs with
  | nil => decide
  | cons b bs ih =>
    have hb : b.toNat + 1 ≤ 256 := b.isLt
    calc b.toNat * 256 ^ bs.length + ofBytes bs
        < (b.toNat + 1) * 256 ^ bs.length := by rw [succ_mul]; omega
      _ ≤ 256 ^ bs.length * 256 := by rw [mul_comm]; exact mul_le_mul_left _ hb

lemma ofBytes_append (bs cs : List Byte) :
    ofBytes (bs ++ cs) = ofBytes bs * 256 ^ cs.length + ofBytes cs := by
  induction bs with
  | nil => simp [ofBytes]
  | cons b bs ih =>
    rw [cons_append, ofBytes, ih, ofBytes, length_append, pow_add]
    ring

lemma ofBytes_append_div (bs cs : List Byte) :
    ofBytes (bs ++ cs) / 256 ^ cs.length = ofBytes bs := by
  have hpos : 0 < 256 ^ cs.length := Nat.pow_pos (by decide)
  rw [ofBytes_append, add_comm, add_mul_div_right _ _ hpos, div_eq_of_lt (ofBytes_lt cs), zero_add]

lemma toBytes_mul_add (n k v : ℕ) : toBytes n (k * 256 ^ n + v) = toBytes n v := by
  induction n generalizing k with
  | zero => rfl
  | succ n ih =>
    have htail : k * 256 ^ (n + 1) + v = k * 256 * 256 ^ n + v := by
      rw [pow_succ, mul_assoc, mul_comm 256]
    have hbyte : (k * 256 * 256 ^ n + v) / 256 ^ n = k * 256 + v / 256 ^ n := by
      rw [Nat.add_comm, add_mul_div_right _ _ (Nat.pow_pos (by decide)), Nat.add_comm]
    rw [toBytes, htail, ih, hbyte]
    congr 1
    apply BitVec.eq_of_toNat_eq
    simp

/-- **Round trip**, from the bytes. -/
theorem toBytes_ofBytes (bs : List Byte) : toBytes bs.length (ofBytes bs) = bs := by
  induction bs with
  | nil => rfl
  | cons b bs ih =>
    have hdiv : ofBytes (b :: bs) / 256 ^ bs.length = b.toNat := by
      simpa [ofBytes] using ofBytes_append_div [b] bs
    rw [length_cons, toBytes, hdiv, ofBytes, toBytes_mul_add, ih, BitVec.ofNat_toNat,
      BitVec.setWidth_eq]

/-- Round trip, on words of whole bytes. -/
lemma ofNat_ofBytes_toBytes (n : ℕ) (v : BitVec (8 * n)) :
    BitVec.ofNat (8 * n) (ofBytes (toBytes n v.toNat)) = v := by
  have h : v.toNat < 256 ^ n := by
    have hpow : (256 : ℕ) ^ n = 2 ^ (8 * n) := (pow_mul 2 8 n).symm
    rw [hpow]
    exact v.isLt
  rw [ofBytes_toBytes_of_lt h, BitVec.ofNat_toNat, BitVec.setWidth_eq]

/-! ## The shortest form -/

/-- The fewest bytes, and one at least, that leave the top bit free for a sign. -/
def shortest (n : ℕ) : List Byte := toBytes (Nat.log 256 (2 * n) + 1) n

/-- The top bit is free, and the first byte is not there in vain. -/
def Shortest (c : List Byte) : Prop :=
  c.length ≠ 0 ∧ (c.getD 0 0).toNat < 128 ∧
  ¬(1 < c.length ∧ c.getD 0 0 = 0 ∧ (c.getD 1 0).toNat < 128)

lemma mul_add_lt_mul_iff {P r : ℕ} (h : r < P) (b k : ℕ) : b * P + r < k * P ↔ b < k := by
  have hdiv : (b * P + r) / P = b := by
    rw [add_comm, add_mul_div_right _ _ (by omega), div_eq_of_lt h, zero_add]
  rw [← div_lt_iff_lt_mul (by omega), hdiv]

/-- The number fits with its top bit free, and would not in one byte less. -/
lemma shortest_iff_bounds (c : List Byte) :
    Shortest c ↔ c.length ≠ 0 ∧ 2 * ofBytes c < 256 ^ c.length ∧
      (1 < c.length → 256 ^ (c.length - 1) ≤ 2 * ofBytes c) := by
  rcases c with _ | ⟨b, bs⟩
  · simp [Shortest]
  have hfit : 2 * ofBytes (b :: bs) < 256 ^ (b :: bs).length ↔ b.toNat < 128 := by
    have h := mul_add_lt_mul_iff (ofBytes_lt bs) b.toNat 128
    rw [ofBytes, length_cons]
    omega
  rw [hfit]
  rcases bs with _ | ⟨b', bs⟩
  · simp [Shortest]
  have hlong : 256 ^ (bs.length + 1) ≤ 2 * ofBytes (b :: b' :: bs)
    ↔ (b = 0#8 → 128 ≤ b'.toNat) := by
    have h := mul_add_lt_mul_iff (ofBytes_lt bs) (b.toNat * 256 + b'.toNat) 128
    have hb : b = 0#8 ↔ b.toNat = 0 := BitVec.toNat_inj.symm
    rw [ofBytes, ofBytes, length_cons, pow_succ, hb]
    rw [add_mul, mul_assoc, mul_comm 256] at h
    omega
  simp [Shortest, hlong]

/-- **The shortest form** of a number is told by its first two bytes. -/
theorem shortest_iff (c : List Byte) : Shortest c ↔ c = shortest (ofBytes c) := by
  rw [shortest_iff_bounds, shortest]
  constructor
  · rintro ⟨hne, hfit, hlong⟩
    have hlt := log_lt_of_lt_pow' hne hfit
    have hle (h : 1 < c.length) := le_log_of_pow_le (b := 256) (by decide) (hlong h)
    have hlog : Nat.log 256 (2 * ofBytes c) + 1 = c.length := by omega
    rw [hlog, toBytes_ofBytes]
  · intro h
    have hlog := congrArg List.length h
    rw [length_toBytes] at hlog
    have hpos (hlong : 1 < c.length) : 2 * ofBytes c ≠ 0 := by
      intro hzero
      rw [hzero, log_zero_right] at hlog
      omega
    exact ⟨by omega, lt_pow_of_log_lt (by decide) (by omega),
      fun hlong => pow_le_of_le_log (hpos hlong) (by omega)⟩

@[simp] lemma ofBytes_shortest (n : ℕ) : ofBytes (shortest n) = n := by
  have h := lt_pow_succ_log_self (b := 256) (by decide) (2 * n)
  exact ofBytes_toBytes_of_lt (by omega)

lemma shortest_shortest (n : ℕ) : Shortest (shortest n) := by rw [shortest_iff, ofBytes_shortest]

end BigEndian
