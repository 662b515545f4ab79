import DailyReadCoding.Lib.Limbs

/-!
# 256-bit unsigned integers

`base_uint<256>` (`arith_uint256.h`, `arith_uint256.cpp`) keeps a number in eight 32-bit limbs, the
least significant first.  Each operation is modelled by its loop over the limbs, and one lemma says
what it computes.
-/

namespace Bitcoin.Arith

open Limbs List Nat

/-- `WIDTH` for `BITS = 256` -/
def WIDTH : ℕ := 8

/-- `base_uint<256>` -/
@[ext] structure BaseUint where
  pn : List ℕ
  length_pn : pn.length = WIDTH
  inRange : InRange 32 pn
  deriving DecidableEq

namespace BaseUint

/-- The number the limbs stand for. -/
def val (x : BaseUint) : ℕ := value 32 x.pn

variable {y : BaseUint} {b d p j s r k : ℕ} {l m a : List ℕ}

section

variable (x : BaseUint)

lemma val_lt : x.val < 2 ^ 256 := by
  have hlt := value_lt x.inRange
  rwa [x.length_pn] at hlt

lemma testBit_of_ge (h : 256 ≤ p) : x.val.testBit p = false :=
  testBit_lt_two_pow (x.val_lt.trans_le (Nat.pow_le_pow_right (by decide) h))

lemma val_inj {x : BaseUint} (h : x.val = y.val) : x = y :=
  BaseUint.ext (value_inj (x.length_pn.trans y.length_pn.symm) x.inRange y.inRange h)

/-! ## Construction -/

/-- `base_uint(uint64_t b)`; the argument is taken modulo `2 ^ 64` as the conversion to it does. -/
def ofUint64 (b : ℕ) : BaseUint where
  pn := b % 2 ^ 32 :: (b >>> 32) % 2 ^ 32 :: List.replicate 6 0
  length_pn := rfl
  inRange := by
    intro d hd
    simp only [List.mem_cons, List.mem_replicate] at hd
    rcases hd with rfl | rfl | ⟨-, rfl⟩
    · exact Nat.mod_lt _ (by decide)
    · exact Nat.mod_lt _ (by decide)
    · decide

lemma val_ofUint64 (hb : b < 2 ^ 64) : (ofUint64 b).val = b := by
  have hzero : value 32 (replicate 6 0) = 0 := by decide
  rw [val, ofUint64, value_cons, value_cons]
  omega

def getLow64 (x : BaseUint) : ℕ := x.pn.getD 0 0 ||| (x.pn.getD 1 0 <<< 32)

/-! ## Sums and products -/

/-- The loop of `operator+=` and `operator*=(uint32_t)`: 64-bit sums, the low half stored and the
high half carried. -/
def carryLoop : List ℕ → ℕ → List ℕ
  | [], _ => []
  | n :: ns, carry =>
    ((carry + n) % 2 ^ 64) % 2 ^ 32 :: carryLoop ns (((carry + n) % 2 ^ 64) / 2 ^ 32)

@[simp] lemma length_carryLoop : ∀ (ns : List ℕ) (c : ℕ), (carryLoop ns c).length = ns.length
  | [], _ => rfl
  | _ :: ns, _ => by rw [carryLoop, length_cons, length_carryLoop ns, length_cons]

lemma inRange_carryLoop : ∀ (ns : List ℕ) (c : ℕ), InRange 32 (carryLoop ns c)
  | [], _ => by simp [carryLoop, InRange]
  | n :: ns, _ => forall_mem_cons.2 ⟨mod_lt _ (by decide), inRange_carryLoop ns _⟩

/-- The 64-bit sums do not overflow. -/
lemma carryLoop_eq : ∀ {ns : List ℕ} {c : ℕ}, (∀ n ∈ ns, n ≤ 2 ^ 64 - 2 ^ 32) → c < 2 ^ 32 →
    carryLoop ns c = carry 32 ns c
  | [], _, _, _ => rfl
  | n :: ns, c, hns, hc => by
    have hn := hns n mem_cons_self
    have hsum : (c + n) % 2 ^ 64 = c + n := mod_eq_of_lt (by omega)
    rw [carryLoop, carry, hsum, carryLoop_eq (fun m hm => hns m (mem_cons_of_mem _ hm)) (by omega)]

lemma mul_limb_le (hb : b < 2 ^ 32) (hd : d < 2 ^ 32) : b * d ≤ 2 ^ 64 - 2 ^ 32 := by
  have hmul : b * d ≤ (2 ^ 32 - 1) * (2 ^ 32 - 1) := Nat.mul_le_mul (by omega) (by omega)
  omega

lemma zipWith_le (hl : InRange 32 l) (hm : InRange 32 m) {f : ℕ → ℕ → ℕ} {bound : ℕ}
    (hf : ∀ d < 2 ^ 32, ∀ e < 2 ^ 32, f d e ≤ bound) : ∀ n ∈ zipWith f l m, n ≤ bound := by
  intro n hn
  obtain ⟨i, hi, rfl⟩ := getElem_of_mem hn
  rw [length_zipWith] at hi
  rw [getElem_zipWith]
  exact hf _ (hl _ (getElem_mem (by omega))) _ (hm _ (getElem_mem (by omega)))

lemma zipWith_add_le (hl : InRange 32 l) (hm : InRange 32 m) :
    ∀ n ∈ zipWith (· + ·) l m, n ≤ 2 ^ 64 - 2 ^ 32 :=
  zipWith_le hl hm fun d hd e he => by omega

/-- `operator+=(const base_uint&)` -/
def add (x y : BaseUint) : BaseUint where
  pn := carryLoop (List.zipWith (· + ·) x.pn y.pn) 0
  length_pn := by rw [length_carryLoop, List.length_zipWith, x.length_pn, y.length_pn, min_self]
  inRange := inRange_carryLoop _ _

/-- The sum, modulo `2 ^ 256`. -/
lemma val_add (x y : BaseUint) : (x.add y).val = (x.val + y.val) % 2 ^ 256 := by
  have hlen : x.pn.length = y.pn.length := x.length_pn.trans y.length_pn.symm
  change value 32 (carryLoop (zipWith (· + ·) x.pn y.pn) 0) = _
  rw [carryLoop_eq (zipWith_add_le x.inRange y.inRange) (by decide), value_carry,
    value_zipWith_add hlen, length_zipWith, ← hlen, x.length_pn]
  rfl

/-- `operator*=(uint32_t)`; the argument is taken modulo `2 ^ 32` as the conversion to it does. -/
def mulUint32 (x : BaseUint) (b32 : ℕ) : BaseUint where
  pn := carryLoop (x.pn.map (b32 % 2 ^ 32 * ·)) 0
  length_pn := by rw [length_carryLoop, List.length_map, x.length_pn]
  inRange := inRange_carryLoop _ _

lemma val_mulUint32 (b32 : ℕ) : (x.mulUint32 b32).val = (b32 % 2 ^ 32 * x.val) % 2 ^ 256 := by
  have hlimb : ∀ n ∈ x.pn.map (b32 % 2 ^ 32 * ·), n ≤ 2 ^ 64 - 2 ^ 32 := by
    simpa using fun d hd => mul_limb_le (mod_lt b32 (by decide)) (x.inRange d hd)
  change value 32 (carryLoop (x.pn.map (b32 % 2 ^ 32 * ·)) 0) = _
  rw [carryLoop_eq hlimb (by decide), value_carry, value_map_mul, length_map, x.length_pn]
  rfl

/-- One round of the outer loop of `operator*=(const base_uint&)`: `pn[j]` times `b`, added to `a`
from limb `j` on. -/
def mulRow (x b a : BaseUint) (j : ℕ) : BaseUint where
  pn := a.pn.take j ++
    carryLoop (List.zipWith (fun d e => d + x.pn.getD j 0 * e) (a.pn.drop j) b.pn) 0
  length_pn := by
    rw [List.length_append, List.length_take, length_carryLoop, List.length_zipWith,
      List.length_drop, a.length_pn, b.length_pn]
    omega
  inRange := by
    intro d hd
    rcases List.mem_append.1 hd with hd | hd
    · exact a.inRange d (List.mem_of_mem_take hd)
    · exact inRange_carryLoop _ _ d hd

/-- `operator*=(const base_uint&)` -/
def mul (x b : BaseUint) : BaseUint := (List.range WIDTH).foldl (mulRow x b) (ofUint64 0)

/-- A limb, a product of two limbs and a carry stay within 64 bits. -/
lemma zipWith_mulAdd_le (hp : p < 2 ^ 32) (hl : InRange 32 l) (hm : InRange 32 m) :
    ∀ n ∈ zipWith (fun d e => d + p * e) l m, n ≤ 2 ^ 64 - 2 ^ 32 := by
  refine zipWith_le hl hm fun d hd e he => ?_
  have hmul : p * e ≤ (2 ^ 32 - 1) * (2 ^ 32 - 1) := Nat.mul_le_mul (by omega) (by omega)
  omega

lemma add_shifted_mod (low high r : ℕ) (hj : j ≤ WIDTH) (hlow : low < 2 ^ (32 * j)) :
    low + 2 ^ (32 * j) * ((high + r) % 2 ^ (32 * (WIDTH - j))) =
      (low + 2 ^ (32 * j) * high + 2 ^ (32 * j) * r) % 2 ^ 256 := by
  have hpow : (2 : ℕ) ^ 256 = 2 ^ (32 * j) * 2 ^ (32 * (WIDTH - j)) := by
    rw [← pow_add, ← mul_add, Nat.add_sub_cancel' hj]
    rfl
  rw [add_assoc, ← mul_add, hpow, mod_mul, add_mul_mod_self_left,
    mod_eq_of_lt hlow, add_mul_div_left _ _ (Nat.two_pow_pos _), div_eq_of_lt hlow,
    zero_add]

lemma val_mulRow (x b a : BaseUint) (hj : j < WIDTH) :
    (mulRow x b a j).val = (a.val + 2 ^ (32 * j) * (x.pn.getD j 0 * b.val)) % 2 ^ 256 := by
  have hlimb := x.inRange.getD j
  have hlen : (a.pn.take j).length = j := by
    rw [length_take, a.length_pn]
    omega
  have hdrop : (a.pn.drop j).length = WIDTH - j := by rw [length_drop, a.length_pn]
  have hlow := value_take a.inRange (n := j) (by rw [a.length_pn]; omega)
  have hsplit : value 32 (a.pn.take j) + 2 ^ (32 * j) * value 32 (a.pn.drop j) = a.val := by
    rw [val, ← take_append_drop j a.pn, value_append, hlen, take_append_drop]
  have hrow : ∀ n ∈ zipWith (fun d e => d + x.pn.getD j 0 * e) (a.pn.drop j) b.pn,
      n ≤ 2 ^ 64 - 2 ^ 32 :=
    zipWith_mulAdd_le hlimb (fun d hd => a.inRange d (mem_of_mem_drop hd)) b.inRange
  change value 32 (a.pn.take j ++ carryLoop _ 0) = _
  rw [value_append, hlen, carryLoop_eq hrow (by decide), value_carry, add_zero,
    value_zipWith_mulAdd _ (by rw [hdrop, b.length_pn]; omega),
    value_take b.inRange (by rw [b.length_pn]; omega), length_zipWith, hdrop, b.length_pn,
    min_eq_left (by omega), add_mod, mul_mod_mod, ← add_mod,
    add_shifted_mod _ _ _ hj.le (by rw [hlow]; exact mod_lt _ (Nat.two_pow_pos _)), hsplit]
  rfl

/-- After `n` rounds the first `n` limbs are multiplied. -/
lemma val_mulRows (x b : BaseUint) : ∀ {n : ℕ}, n ≤ WIDTH →
    ((range n).foldl (mulRow x b) (ofUint64 0)).val = (value 32 (x.pn.take n) * b.val) % 2 ^ 256
  | 0, _ => by
    rw [take_zero, value_nil, Nat.zero_mul]
    exact val_ofUint64 (by decide)
  | n + 1, hn => by
    have hlt : n < x.pn.length := by rw [x.length_pn]; omega
    have hlimb : x.pn.getD n 0 = x.pn[n] := by
      rw [getD_eq_getElem?_getD, getElem?_eq_getElem hlt]
      rfl
    have hlen : (x.pn.take n).length = n := by
      rw [length_take]
      omega
    rw [range_succ, foldl_append, foldl_cons, foldl_nil,
      val_mulRow x b _ (by omega), val_mulRows x b (by omega), mod_add_mod, hlimb,
      ← take_append_getElem hlt, value_append, hlen, value_cons, value_nil]
    ring_nf

/-- **The product of two numbers**, modulo `2 ^ 256`. -/
theorem val_mul (x b : BaseUint) : (x.mul b).val = x.val * b.val % 2 ^ 256 := by
  rw [mul, val_mulRows x b le_rfl, ← x.length_pn, take_length]
  rfl

lemma inRange_compl (l : List ℕ) : InRange 32 (l.map (2 ^ 32 - 1 - ·)) := by
  intro d hd
  obtain ⟨e, -, rfl⟩ := mem_map.1 hd
  omega

/-- `operator~` -/
def compl (x : BaseUint) : BaseUint where
  pn := x.pn.map (2 ^ 32 - 1 - ·)
  length_pn := by rw [List.length_map, x.length_pn]
  inRange := inRange_compl _

lemma val_compl : x.compl.val = 2 ^ 256 - 1 - x.val := by
  have hsum := value_compl x.inRange
  rw [x.length_pn] at hsum
  change value 32 (x.pn.map (2 ^ 32 - 1 - ·)) + x.val + 1 = 2 ^ 256 at hsum
  change value 32 (x.pn.map (2 ^ 32 - 1 - ·)) = _
  omega

/-- `operator-`: complement and increment -/
def neg (x : BaseUint) : BaseUint where
  pn := incr 32 (x.pn.map (2 ^ 32 - 1 - ·))
  length_pn := by rw [length_incr, List.length_map, x.length_pn]
  inRange := inRange_incr (inRange_compl _)

lemma val_neg : x.neg.val = (2 ^ 256 - x.val) % 2 ^ 256 := by
  have hcompl := x.val_compl
  have hlt := x.val_lt
  rw [val, compl] at hcompl
  rw [val, neg, value_incr (inRange_compl _), length_map, x.length_pn, hcompl]
  congr 1
  omega

/-- `operator-=` -/
def sub (x y : BaseUint) : BaseUint := x.add y.neg

lemma val_sub {x : BaseUint} (h : y.val ≤ x.val) : (x.sub y).val = x.val - y.val := by
  have hx := x.val_lt
  rw [sub, val_add, val_neg, add_mod_mod]
  have hsum : x.val + (2 ^ 256 - y.val) = x.val - y.val + 2 ^ 256 := by omega
  rw [hsum, add_mod_right, mod_eq_of_lt (by omega)]

/-! ## Shifts -/

/-- All limbs zero. -/
def zeros : List ℕ := List.replicate WIDTH 0

/-- The assignments of `operator<<=`, by whole limbs `k` and the rest of the shift. -/
def shlUpdates (a : List ℕ) (k shift : ℕ) : List (ℕ × ℕ) :=
  (List.range WIDTH).flatMap fun i =>
    (if i + k + 1 < WIDTH ∧ shift ≠ 0 then [(i + k + 1, a.getD i 0 >>> (32 - shift))] else []) ++
    (if i + k < WIDTH then [(i + k, (a.getD i 0 <<< shift) % 2 ^ 32)] else [])

/-- The assignments of `operator>>=`, whose guards are on signed integers. -/
def shrUpdates (a : List ℕ) (k shift : ℕ) : List (ℕ × ℕ) :=
  (List.range WIDTH).flatMap fun i =>
    (if i ≥ k + 1 ∧ shift ≠ 0 then [(i - k - 1, (a.getD i 0 <<< (32 - shift)) % 2 ^ 32)] else []) ++
    (if i ≥ k then [(i - k, a.getD i 0 >>> shift)] else [])

lemma inRange_zeros : InRange 32 zeros := by
  unfold InRange
  decide

lemma shiftRight_lt (hd : d < 2 ^ 32) : d >>> s < 2 ^ 32 := by
  rw [shiftRight_eq_div_pow]
  exact (div_le_self _ _).trans_lt hd

lemma eq_of_mem_ite {α : Type} {P : Prop} [Decidable P] {u x : α}
    (h : u ∈ if P then [x] else []) : u = x := by
  split_ifs at h
  · exact mem_singleton.1 h
  · exact absurd h not_mem_nil

lemma shlUpdates_lt (ha : InRange 32 a) (k s : ℕ) : ∀ u ∈ shlUpdates a k s, u.2 < 2 ^ 32 := by
  intro u hu
  obtain ⟨i, -, hu⟩ := mem_flatMap.1 hu
  rcases mem_append.1 hu with hu | hu
  · rw [eq_of_mem_ite hu]
    exact shiftRight_lt (ha.getD i)
  · rw [eq_of_mem_ite hu]
    exact mod_lt _ (by decide)

lemma shrUpdates_lt (ha : InRange 32 a) (k s : ℕ) : ∀ u ∈ shrUpdates a k s, u.2 < 2 ^ 32 := by
  intro u hu
  obtain ⟨i, -, hu⟩ := mem_flatMap.1 hu
  rcases mem_append.1 hu with hu | hu
  · rw [eq_of_mem_ite hu]
    exact mod_lt _ (by decide)
  · rw [eq_of_mem_ite hu]
    exact shiftRight_lt (ha.getD i)

/-- `operator<<=` -/
def shl (x : BaseUint) (shift : ℕ) : BaseUint where
  pn := orInto zeros (shlUpdates x.pn (shift / 32) (shift % 32))
  length_pn := length_orInto _ _
  inRange := inRange_orInto (shlUpdates_lt x.inRange _ _) inRange_zeros

/-- `operator>>=` -/
def shr (x : BaseUint) (shift : ℕ) : BaseUint where
  pn := orInto zeros (shrUpdates x.pn (shift / 32) (shift % 32))
  length_pn := length_orInto _ _
  inRange := inRange_orInto (shrUpdates_lt x.inRange _ _) inRange_zeros

/-- A bit of a number is a bit of one limb. -/
lemma testBit_val (p : ℕ) : x.val.testBit p = (x.pn.getD (p / 32) 0).testBit (p % 32) :=
  testBit_value (by decide) x.inRange p

lemma testBit_limb (j : ℕ) (hr : r < 32) :
    (x.pn.getD j 0).testBit r = x.val.testBit (32 * j + r) := by
  rw [testBit_val, mul_add_div (by decide), mul_add_mod, div_eq_of_lt hr, mod_eq_of_lt hr, add_zero]

lemma testBit_limb_of_ge (hl : InRange 32 l) (j : ℕ) (hr : 32 ≤ r) :
    (l.getD j 0).testBit r = false :=
  testBit_lt_two_pow ((hl.getD j).trans_le (Nat.pow_le_pow_right (by decide) hr))

lemma testBit_zeros (j r : ℕ) : (zeros.getD j 0).testBit r = false := by
  have hzero : zeros.getD j 0 = 0 := by
    rw [zeros, getD_eq_getElem?_getD, getElem?_replicate]
    split_ifs <;> rfl
  rw [hzero, zero_testBit]

lemma mem_shlUpdates {u : ℕ × ℕ} : u ∈ shlUpdates a k s ↔ ∃ i < WIDTH,
    (i + k + 1 < WIDTH ∧ s ≠ 0 ∧ u = (i + k + 1, a.getD i 0 >>> (32 - s))) ∨
      (i + k < WIDTH ∧ u = (i + k, (a.getD i 0 <<< s) % 2 ^ 32)) := by
  simp only [shlUpdates, mem_flatMap, mem_range, mem_append, mem_ite_nil_right,
    mem_singleton, and_assoc]

lemma mem_shrUpdates {u : ℕ × ℕ} : u ∈ shrUpdates a k s ↔ ∃ i < WIDTH,
    (i ≥ k + 1 ∧ s ≠ 0 ∧ u = (i - k - 1, (a.getD i 0 <<< (32 - s)) % 2 ^ 32)) ∨
      (i ≥ k ∧ u = (i - k, a.getD i 0 >>> s)) := by
  simp only [shrUpdates, mem_flatMap, mem_range, mem_append, mem_ite_nil_right,
    mem_singleton, and_assoc]

/-- The high part of a limb, as `a[i] >> s` takes it. -/
lemma testBit_limb_shiftRight (i s r : ℕ) :
    (x.pn.getD i 0 >>> s).testBit r = true ↔ s + r < 32 ∧
    x.val.testBit (32 * i + (s + r)) = true := by
  rw [testBit_shiftRight]
  rcases lt_or_ge (s + r) 32 with hlt | hge
  · rw [testBit_limb x i hlt]
    exact ⟨fun h => ⟨hlt, h⟩, fun h => h.2⟩
  · rw [testBit_limb_of_ge x.inRange i hge]
    simp only [Bool.false_eq_true, false_iff]
    omega

/-- The low part of a limb, as `a[i] << s` takes it in 32 bits. -/
lemma testBit_limb_shiftLeft (i s : ℕ) (hr : r < 32) :
    ((x.pn.getD i 0 <<< s) % 2 ^ 32).testBit r = true ↔
      s ≤ r ∧ x.val.testBit (32 * i + (r - s)) = true := by
  rw [testBit_mod_two_pow, testBit_shiftLeft]
  rcases Nat.lt_or_ge r s with hlt | hge
  · simp only [Nat.not_le.2 hlt, decide_false, Bool.false_and,
      Bool.and_false, Bool.false_eq_true, false_and]
  · rw [testBit_limb x i (by omega)]
    simp [hr, hge]

lemma testBit_shl (shift : ℕ) (hp : p < 256) :
    (x.shl shift).val.testBit p = true ↔ shift ≤ p ∧ x.val.testBit (p - shift) = true := by
  have hr : p % 32 < 32 := mod_lt _ (by decide)
  have hj : p / 32 < WIDTH := by
    rw [WIDTH]
    omega
  rw [testBit_val, shl, testBit_orInto _ _ _ _ (by rwa [zeros, length_replicate]), testBit_zeros]
  simp only [Bool.false_eq_true, false_or, mem_shlUpdates]
  constructor
  · rintro ⟨u, ⟨i, hi, ⟨hw, hs, rfl⟩ | ⟨hw, rfl⟩⟩, hlimb, hbit⟩
    · obtain ⟨hlt, hbit⟩ := (testBit_limb_shiftRight x i _ _).1 hbit
      refine ⟨by omega, ?_⟩
      rwa [show p - shift = 32 * i + (32 - shift % 32 + p % 32) by omega]
    · obtain ⟨hle, hbit⟩ := (testBit_limb_shiftLeft x i _ hr).1 hbit
      refine ⟨by omega, ?_⟩
      rwa [show p - shift = 32 * i + (p % 32 - shift % 32) by omega]
  · rintro ⟨hle, hbit⟩
    -- the bit comes from the limb `p / 32 - k`, or from the one below if the rest of the shift
    -- carries it over the limb boundary
    rcases lt_or_ge (p % 32) (shift % 32) with hlt | hge
    · refine ⟨_, ⟨p / 32 - shift / 32 - 1, by omega, .inl ⟨by omega, by omega, rfl⟩⟩,
        by simp only; omega, (testBit_limb_shiftRight x _ _ _).2 ⟨by omega, ?_⟩⟩
      rwa [show 32 * (p / 32 - shift / 32 - 1) + (32 - shift % 32 + p % 32) = p - shift by omega]
    · refine ⟨_, ⟨p / 32 - shift / 32, by omega, .inr ⟨by omega, rfl⟩⟩,
        by simp only; omega, (testBit_limb_shiftLeft x _ _ hr).2 ⟨hge, ?_⟩⟩
      rwa [show 32 * (p / 32 - shift / 32) + (p % 32 - shift % 32) = p - shift by omega]

lemma testBit_shr (shift : ℕ) (hp : p < 256) :
    (x.shr shift).val.testBit p = true ↔ x.val.testBit (p + shift) = true := by
  have hr : p % 32 < 32 := mod_lt _ (by decide)
  have hj : p / 32 < WIDTH := by
    rw [WIDTH]
    omega
  rw [testBit_val, shr, testBit_orInto _ _ _ _ (by rwa [zeros, length_replicate]), testBit_zeros]
  simp only [Bool.false_eq_true, false_or, mem_shrUpdates]
  constructor
  · rintro ⟨u, ⟨i, hi, ⟨hw, hs, rfl⟩ | ⟨hw, rfl⟩⟩, hlimb, hbit⟩
    · obtain ⟨hle, hbit⟩ := (testBit_limb_shiftLeft x i _ hr).1 hbit
      rwa [show p + shift = 32 * i + (p % 32 - (32 - shift % 32)) by omega]
    · obtain ⟨hlt, hbit⟩ := (testBit_limb_shiftRight x i _ _).1 hbit
      rwa [show p + shift = 32 * i + (shift % 32 + p % 32) by omega]
  · intro hbit
    have hin : p + shift < 256 := by
      by_contra hge
      rw [testBit_of_ge x (not_lt.1 hge)] at hbit
      exact Bool.noConfusion hbit
    rw [WIDTH]
    rcases lt_or_ge (p % 32 + shift % 32) 32 with hlt | hge
    · refine ⟨_, ⟨p / 32 + shift / 32, by omega, .inr ⟨by omega, rfl⟩⟩,
        by simp only; omega, (testBit_limb_shiftRight x _ _ _).2 ⟨by omega, ?_⟩⟩
      rwa [show 32 * (p / 32 + shift / 32) + (shift % 32 + p % 32) = p + shift by omega]
    · refine ⟨_, ⟨p / 32 + shift / 32 + 1, by omega, .inl ⟨by omega, by omega, rfl⟩⟩,
        by simp only; omega, (testBit_limb_shiftLeft x _ _ hr).2 ⟨by omega, ?_⟩⟩
      rwa [show 32 * (p / 32 + shift / 32 + 1) + (p % 32 - (32 - shift % 32)) = p + shift by omega]

/-- **A left shift multiplies**, modulo `2 ^ 256`. -/
theorem val_shl (shift : ℕ) : (x.shl shift).val = x.val * 2 ^ shift % 2 ^ 256 := by
  refine eq_of_testBit_eq fun p => ?_
  rw [testBit_mod_two_pow]
  rcases lt_or_ge p 256 with hlt | hge
  · rw [Bool.eq_iff_iff, testBit_shl x shift hlt, ← shiftLeft_eq]
    simp [hlt]
  · rw [testBit_of_ge _ hge]
    simp [not_lt.2 hge]

/-- **A right shift divides.** -/
theorem val_shr (shift : ℕ) : (x.shr shift).val = x.val / 2 ^ shift := by
  refine eq_of_testBit_eq fun p => ?_
  rw [← shiftRight_eq_div_pow, testBit_shiftRight, add_comm shift p]
  rcases lt_or_ge p 256 with hlt | hge
  · rw [Bool.eq_iff_iff, testBit_shr x shift hlt]
  · rw [testBit_of_ge _ hge, testBit_of_ge _ (by omega)]

/-! ## Order and bit length -/

def compareTo (x y : BaseUint) : ℤ := compareTop x.pn y.pn

/-- `CompareTo` follows the order of the values. -/
lemma compareTo_cases (x y : BaseUint) : (x.compareTo y = -1 ∧ x.val < y.val) ∨
    (x.compareTo y = 0 ∧ x.val = y.val) ∨ (x.compareTo y = 1 ∧ y.val < x.val) :=
  compareTop_cases (x.length_pn.trans y.length_pn.symm) x.inRange y.inRange

lemma compareTo_nonneg {x : BaseUint} : x.compareTo y ≥ 0 ↔ y.val ≤ x.val := by
  have hcases := compareTo_cases x y
  omega

lemma compareTo_pos {x : BaseUint} : x.compareTo y > 0 ↔ y.val < x.val := by
  have hcases := compareTo_cases x y
  omega

/-- `EqualTo`, with the argument in 64 bits -/
def equalTo (x : BaseUint) (b : ℕ) : Bool :=
  (x.pn.drop 2).all (· == 0) && x.pn.getD 1 0 == b >>> 32 && x.pn.getD 0 0 == b &&& 0xffffffff

lemma equalTo_iff (hb : b < 2 ^ 64) : x.equalTo b = true ↔ x.val = b := by
  obtain ⟨d, e, l, hpn⟩ : ∃ d e l, x.pn = d :: e :: l := by
    match hx : x.pn, x.length_pn with
    | d :: e :: l, _ => exact ⟨d, e, l, rfl⟩
  have hd : d < 2 ^ 32 := x.inRange d (by simp [hpn])
  have hval : x.val = d + 2 ^ 32 * (e + 2 ^ 32 * value 32 l) := by
    rw [val, hpn, value_cons, value_cons]
  have hlow : b &&& 0xffffffff = b % 2 ^ 32 := and_two_pow_sub_one_eq_mod b 32
  rw [equalTo, hpn]
  simp only [drop_succ_cons, drop_zero, getD_cons_succ, getD_cons_zero,
    Bool.and_eq_true, beq_iff_eq, all_eq_true]
  rw [← value_eq_zero (w := 32)]
  omega

/-- The inner loop of `bits`: the position of the highest bit of a limb, from bit `nbits` down. -/
def limbBits (limb : ℕ) : ℕ → ℕ
  | 0 => 1
  | nbits + 1 => if limb.testBit (nbits + 1) then nbits + 2 else limbBits limb nbits

/-- `bits`, from limb `pos` down -/
def bitsLoop (pn : List ℕ) : ℕ → ℕ
  | 0 => 0
  | pos + 1 =>
    if pn.getD pos 0 ≠ 0 then 32 * pos + limbBits (pn.getD pos 0) 31 else bitsLoop pn pos

def bits (x : BaseUint) : ℕ := bitsLoop x.pn WIDTH

lemma limbBits_eq {limb : ℕ} (hpos : limb ≠ 0) : ∀ {n : ℕ}, limb < 2 ^ (n + 1) →
    limbBits limb n = limb.size
  | 0, hlt => by
    obtain rfl : limb = 1 := by omega
    rfl
  | n + 1, hlt => by
    rw [limbBits]
    rcases lt_or_ge limb (2 ^ (n + 1)) with hlow | hhigh
    · rw [testBit_lt_two_pow hlow, if_neg (by simp), limbBits_eq hpos hlow]
    · have hbit : limb.testBit (n + 1) = true := by
        have hdiv : limb / 2 ^ (n + 1) = 1 := by exact Nat.div_eq_of_lt_le (by omega) (by omega)
        rw [testBit_eq_decide_div_mod_eq, hdiv]
        rfl
      have hle := size_le.2 hlt
      have hge := lt_size.2 hhigh
      rw [if_pos hbit]
      omega

lemma bitsLoop_eq (hl : InRange 32 l) : ∀ {pos : ℕ}, pos ≤ l.length →
    bitsLoop l pos = (value 32 (l.take pos)).size
  | 0, _ => rfl
  | pos + 1, hpos => by
    have hlimb : l.getD pos 0 = l[pos] := by
      rw [getD_eq_getElem?_getD, getElem?_eq_getElem]
      rfl
    have hlow : value 32 (l.take pos) < 2 ^ (32 * (l.take pos).length) :=
      value_lt fun d hd => hl d (mem_of_mem_take hd)
    have hlen : (l.take pos).length = pos := by
      rw [length_take]
      omega
    rw [hlen] at hlow
    rw [bitsLoop, hlimb, ← take_append_getElem (by omega), value_append, value_cons, value_nil,
      Nat.mul_zero, add_zero, hlen]
    by_cases hzero : l[pos] = 0
    · rw [if_neg (by simpa using hzero), bitsLoop_eq hl (by omega), hzero, Nat.mul_zero, add_zero]
    · rw [if_pos hzero, limbBits_eq hzero (hl _ (getElem_mem _)), size_add_mul hlow hzero]

lemma bits_eq : x.bits = x.val.size := by
  rw [bits, bitsLoop_eq x.inRange x.length_pn.ge, ← x.length_pn, take_length, val]

end

/-! ## Division -/

/-- `pn[shift / 32] |= (1 << (shift & 31))` -/
def setBit (x : BaseUint) (shift : ℕ) : BaseUint where
  pn := orInto x.pn [(shift / 32, 1 <<< (shift % 32))]
  length_pn := (length_orInto _ _).trans x.length_pn
  inRange := by
    refine inRange_orInto (fun u hu => ?_) x.inRange
    rw [List.mem_singleton.1 hu, Nat.one_shiftLeft]
    exact Nat.pow_lt_pow_right (by decide) (Nat.mod_lt _ (by decide))

/-- The loop of `operator/=` from `shift` down, with the index one above the source's `shift`. -/
def divLoop : ℕ → BaseUint → BaseUint → BaseUint → BaseUint
  | 0, _, _, quotient => quotient
  | shift + 1, num, div, quotient =>
    if num.compareTo div ≥ 0 then divLoop shift (num.sub div) (div.shr 1) (quotient.setBit shift)
    else divLoop shift num (div.shr 1) quotient

/-- `operator/=`; division by zero is an exception. -/
def div (x y : BaseUint) : Option BaseUint :=
  if y.bits = 0 then none
  else if y.bits > x.bits then some (ofUint64 0)
  else
    let shift := x.bits - y.bits
    some (divLoop (shift + 1) x (y.shl shift) (ofUint64 0))

lemma val_setBit {x : BaseUint} {shift : ℕ} (hshift : shift < 256)
    (hlow : x.val % 2 ^ (shift + 1) = 0) : (x.setBit shift).val = x.val + 2 ^ shift := by
  have hor : (x.setBit shift).val = x.val ||| 2 ^ shift := by
    refine eq_of_testBit_eq fun p => ?_
    rw [testBit_or, testBit_two_pow, Bool.eq_iff_iff, Bool.or_eq_true, decide_eq_true_iff]
    rcases lt_or_ge p 256 with hlt | hge
    · have hp : p / 32 < x.pn.length := by
        rw [x.length_pn, WIDTH]
        omega
      rw [testBit_val, setBit, testBit_orInto _ _ _ _ hp, ← testBit_val]
      simp only [mem_singleton, exists_eq_left, one_shiftLeft, testBit_two_pow, decide_eq_true_iff]
      have hsplit : (shift / 32 = p / 32 ∧ shift % 32 = p % 32) ↔ shift = p := by omega
      rw [hsplit]
    · simp only [testBit_of_ge _ hge, Bool.false_eq_true, false_or, false_iff]
      omega
  have hmul : x.val = 2 ^ (shift + 1) * (x.val / 2 ^ (shift + 1)) := by
    have hdiv := div_add_mod x.val (2 ^ (shift + 1))
    omega
  rw [hor, hmul, ← two_pow_add_eq_or_of_lt (Nat.pow_lt_pow_right (by decide) (by omega))]

/-- The invariant of the division loop: with the divisor shifted up to the bit in question and no
lower bit of the quotient set, the loop adds the quotient of the remainder. -/
lemma val_divLoop (hd : 0 < d) : ∀ {n : ℕ} {num div quotient : BaseUint}, n ≤ 256 →
    (0 < n → div.val = d * 2 ^ (n - 1)) → num.val < d * 2 ^ n → quotient.val % 2 ^ n = 0 →
    (divLoop n num div quotient).val = quotient.val + num.val / d
  | 0, num, div, quotient, _, _, hnum, _ => by
    rw [pow_zero, mul_one] at hnum
    rw [divLoop, div_eq_of_lt hnum, add_zero]
  | n + 1, num, div, quotient, hn, hdiv, hnum, hquotient => by
    have hdiv : div.val = d * 2 ^ n := hdiv (succ_pos n)
    have hhalf : 0 < n → (div.shr 1).val = d * 2 ^ (n - 1) := by
      intro hpos
      obtain ⟨m, rfl⟩ : ∃ m, n = m + 1 := ⟨n - 1, by omega⟩
      rw [val_shr, hdiv, pow_succ, ← Nat.mul_assoc, pow_one, Nat.mul_div_cancel _ (by decide)]
      rfl
    have hlower : quotient.val % 2 ^ n = 0 := by
      have hdvd := (pow_dvd_pow 2 (le_succ n)).trans (dvd_of_mod_eq_zero hquotient)
      exact mod_eq_zero_of_dvd hdvd
    rw [pow_succ, ← mul_assoc] at hnum
    rw [divLoop]
    by_cases hge : div.val ≤ num.val
    · have hbit := val_setBit (by omega) hquotient
      have hsub : num.val = num.val - div.val + d * 2 ^ n := by omega
      rw [if_pos (compareTo_nonneg.2 hge), val_divLoop hd (by omega) hhalf, val_sub hge]
      · conv_rhs => rw [hsub, add_mul_div_left _ _ hd]
        omega
      · rw [val_sub hge]
        omega
      · rw [hbit, add_mod_right]
        exact hlower
    · rw [if_neg (mt compareTo_nonneg.1 hge), val_divLoop hd (by omega) hhalf (by omega) hlower]

/-- Shifting the divisor up to the bit length of the dividend loses nothing. -/
lemma val_shl_align {x : BaseUint} (hle : y.bits ≤ x.bits) :
    (y.shl (x.bits - y.bits)).val = y.val * 2 ^ (x.bits - y.bits) := by
  rw [bits_eq, bits_eq] at hle
  rw [val_shl, bits_eq, bits_eq]
  refine mod_eq_of_lt ?_
  calc y.val * 2 ^ (x.val.size - y.val.size)
      < 2 ^ y.val.size * 2 ^ (x.val.size - y.val.size) :=
        mul_lt_mul_of_pos_right (lt_size_self _) (Nat.two_pow_pos _)
    _ = 2 ^ x.val.size := by rw [← pow_add, Nat.add_sub_cancel' hle]
    _ ≤ 2 ^ 256 := Nat.pow_le_pow_right (by decide) (size_le.2 x.val_lt)

/-- **Division by a divisor that is not zero gives the floor of the quotient.** -/
theorem val_div {x : BaseUint} (hy : 0 < y.val) :
    ∃ q, x.div y = some q ∧ q.val = x.val / y.val := by
  have hsize : 0 < y.val.size := size_pos.2 hy
  have hzero : (ofUint64 0).val = 0 := val_ofUint64 (by decide)
  rw [div, if_neg (by rw [bits_eq]; omega)]
  by_cases hlt : y.bits > x.bits
  · refine ⟨_, if_pos hlt, ?_⟩
    rw [bits_eq, bits_eq] at hlt
    have hless : x.val < y.val := (size_le.1 le_rfl).trans_le (lt_size.1 hlt)
    rw [hzero, div_eq_of_lt hless]
  · have hle : y.bits ≤ x.bits := not_lt.1 hlt
    refine ⟨_, if_neg hlt, ?_⟩
    rw [val_divLoop hy ?_ (fun _ => val_shl_align hle) ?_ (by rw [hzero, zero_mod]), hzero,
      zero_add]
    · have hx := size_le.2 x.val_lt
      rw [bits_eq, bits_eq]
      omega
    · rw [bits_eq, bits_eq] at hle ⊢
      have hlow : 2 ^ (y.val.size - 1) ≤ y.val := lt_size.1 (by omega)
      calc x.val < 2 ^ x.val.size := lt_size_self _
        _ = 2 ^ (y.val.size - 1) * 2 ^ (x.val.size - y.val.size + 1) := by
            rw [← pow_add]
            congr 1
            omega
        _ ≤ y.val * 2 ^ (x.val.size - y.val.size + 1) := mul_le_mul_right _ hlow

end BaseUint

end Bitcoin.Arith
