import Mathlib.Data.BitVec
import Mathlib.Data.List.GetD
import Mathlib.Tactic.Ring

/-!
# Bytes in memory

A memory is a function from positions to bytes, so that nothing hides a write outside of a buffer.
-/

namespace ByteMemory

open List Nat

abbrev Byte := BitVec 8

def Memory : Type := ℤ → Byte

namespace Memory

/-- One byte written. -/
def put (m : Memory) (p : ℤ) (b : Byte) : Memory := fun q => if q = p then b else m q

/-- Bytes written from `p` on. -/
def write (m : Memory) (p : ℤ) : List Byte → Memory
  | [] => m
  | b :: bs => (m.put p b).write (p + 1) bs

/-- The `n` bytes from `p` on. -/
def read (m : Memory) (p : ℤ) : ℕ → List Byte
  | 0 => []
  | n + 1 => m p :: m.read (p + 1) n

@[simp] lemma put_same (m : Memory) (p : ℤ) (b : Byte) : m.put p b p = b := if_pos rfl

lemma put_of_ne (m : Memory) {p q : ℤ} (b : Byte) (h : q ≠ p) : m.put p b q = m q := if_neg h

lemma write_of_lt (m : Memory) {p q : ℤ} (bs : List Byte) (h : q < p) : m.write p bs q = m q := by
  induction bs generalizing m p with
  | nil => rfl
  | cons b bs ih => rw [write, ih _ (by omega), put_of_ne m b (by omega)]

lemma write_of_le (m : Memory) {p q : ℤ} (bs : List Byte) (h : p + bs.length ≤ q) :
    m.write p bs q = m q := by
  induction bs generalizing m p with
  | nil => rfl
  | cons b bs ih =>
    rw [length_cons] at h
    rw [write, ih _ (by omega), put_of_ne m b (by omega)]

/-- What was written is read. -/
theorem read_write (m : Memory) (p : ℤ) (bs : List Byte) :
    (m.write p bs).read p bs.length = bs := by
  induction bs generalizing m p with
  | nil => rfl
  | cons b bs ih => rw [length_cons, read, write, write_of_lt _ _ (by omega), put_same, ih]

lemma read_succ_last (m : Memory) (p : ℤ) (n : ℕ) :
    m.read p (n + 1) = m.read p n ++ [m (p + n)] := by
  induction n generalizing p with
  | zero => simp [read]
  | succ n ih => rw [read, ih, read, cons_append, cast_succ, add_assoc, add_comm (1 : ℤ)]

@[simp] lemma length_read (m : Memory) (p : ℤ) (n : ℕ) : (m.read p n).length = n := by
  induction n generalizing p with
  | zero => rfl
  | succ n ih => rw [read, length_cons, ih]

lemma read_add (m : Memory) (p : ℤ) (k n : ℕ) : m.read p (k + n) = m.read p k ++ m.read
    (p + k) n := by
  induction k generalizing p with
  | zero => simp [read]
  | succ k ih => rw [succ_add, read, ih, read, cons_append, cast_succ, add_assoc, add_comm (1 : ℤ)]

lemma read_middle {m : Memory} {p : ℤ} {xs bs ys : List Byte}
    (h : m.read p (xs ++ bs ++ ys).length = xs ++ bs ++ ys) :
    m.read (p + xs.length) bs.length = bs := by
  rw [length_append, read_add, length_append, read_add] at h
  have hfront := append_inj_left h (by simp)
  exact append_inj_right hfront (by simp)

end Memory

/-! ## Words as bytes -/

/-- The `n` low bytes of a word, lowest first. -/
def leBytes : ℕ → BitVec 64 → List Byte
  | 0, _ => []
  | n + 1, v => v.setWidth 8 :: leBytes n (v >>> 8)

/-- The word whose low bytes these are. -/
def ofLeBytes : List Byte → BitVec 64
  | [] => 0
  | b :: bs => b.setWidth 64 ||| (ofLeBytes bs <<< 8)

@[simp] lemma length_leBytes (n : ℕ) (v : BitVec 64) : (leBytes n v).length = n := by
  induction n generalizing v with
  | zero => rfl
  | succ n ih => rw [leBytes, length_cons, ih]

lemma low_or_high (v : BitVec 64) : (v.setWidth 8).setWidth 64 ||| ((v >>> 8) <<< 8) = v := by
  ext i hi
  rcases Nat.lt_or_ge i 8 with h | h
  · simp [h, BitVec.getLsbD_eq_getElem hi]
  · simp [Nat.not_lt.2 h, Nat.add_sub_cancel' h, BitVec.getLsbD_eq_getElem hi]

lemma ofLeBytes_append (bs cs : List Byte) :
    ofLeBytes (bs ++ cs) = ofLeBytes bs ||| (ofLeBytes cs <<< (8 * bs.length)) := by
  induction bs with
  | nil => simp [ofLeBytes]
  | cons b bs ih =>
    rw [cons_append, ofLeBytes, ih, ofLeBytes, BitVec.shiftLeft_or_distrib,
      ← BitVec.shiftLeft_add, BitVec.or_assoc, length_cons,
      show 8 * (bs.length + 1) = 8 * bs.length + 8 by ring]

lemma leBytes_congr {n : ℕ} {x y : BitVec 64} (h : ∀ i < 8 * n, x.getLsbD i = y.getLsbD i) :
    leBytes n x = leBytes n y := by
  induction n generalizing x y with
  | zero => rfl
  | succ n ih =>
    have hlow : x.setWidth 8 = y.setWidth 8 := by
      refine BitVec.eq_of_getLsbD_eq fun i hi => ?_
      rw [BitVec.getLsbD_setWidth, BitVec.getLsbD_setWidth, h i (by omega)]
    rw [leBytes, leBytes, hlow, ih fun i hi => ?_]
    rw [BitVec.getLsbD_ushiftRight, BitVec.getLsbD_ushiftRight, h (8 + i) (by omega)]

/-- **Round trip.**  A word below `2^(8n)` is the word of its `n` low bytes. -/
theorem ofLeBytes_leBytes {n : ℕ} {v : BitVec 64} (h : v.toNat < 2 ^ (8 * n)) :
    ofLeBytes (leBytes n v) = v := by
  induction n generalizing v with
  | zero =>
    have hzero : v = 0 := by
      refine BitVec.eq_of_toNat_eq ?_
      simpa using h
    rw [hzero]
    rfl
  | succ n ih =>
    have hhigh : (v >>> 8).toNat < 2 ^ (8 * n) := by
      rw [BitVec.toNat_ushiftRight, shiftRight_eq_div_pow]
      refine Nat.div_lt_of_lt_mul ?_
      rwa [← pow_add, show 8 + 8 * n = 8 * (n + 1) by ring]
    rw [leBytes, ofLeBytes, ih hhigh, low_or_high]

end ByteMemory
