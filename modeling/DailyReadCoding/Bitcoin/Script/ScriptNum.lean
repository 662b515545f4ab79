import DailyReadCoding.Lib.BigEndian
import DailyReadCoding.Bitcoin.Script.Interpreter

/-!
# Script numbers

`CScriptNum` (`script/script.h`) keeps sign and magnitude, the lowest byte first; the top bit of the
last byte is the sign. A vector may be padded, or be a negative zero, which the test for minimality
refuses.
-/

namespace Bitcoin.Script

open BigEndian List Nat

/-- The test for minimality in the constructor, where it throws. -/
def padded (vch : Bytes) : Bool :=
  vch.length != 0 && vch.getLastD 0 &&& 0x7f == 0 &&
    (vch.length ≤ 1 || (vch.getD (vch.length - 2) 0) &&& 0x80 == 0)

/-- The sign in the top bit. -/
def sign (neg : Bool) (b : BitVec 8) : BitVec 8 := if neg then b ||| 0x80 else b

def signed (neg : Bool) : Bytes → Bytes
  | [] => []
  | b :: bs => sign neg b :: bs

lemma length_signed (neg : Bool) (c : Bytes) : (signed neg c).length = c.length := by
    cases c <;> rfl

/-! ## Reading -/

section Reading

variable (b : BitVec 8) (bs : Bytes)

lemma getLsbD_seven : b.getLsbD 7 = decide (128 ≤ b.toNat) := BitVec.msb_eq_decide b

lemma toNat_and_7f : (b &&& 0x7f).toNat = b.toNat % 128 := by
  exact and_two_pow_sub_one_eq_mod _ 7

lemma and_80_eq_zero : b &&& 0x80 = 0 ↔ b.toNat < 128 := by
  revert b
  decide

lemma sign_and : sign (b.getLsbD 7) (b &&& 0x7f) = b := by
  revert b
  decide

lemma and_sign (neg : Bool) : b.toNat < 128 → sign neg b &&& 0x7f = b
    ∧ (sign neg b).getLsbD 7 = neg := by
  revert b neg
  decide

lemma readLE_reverse (c : Bytes) : readLE c.reverse = ofBytes c := by
  induction c using List.reverseRecOn with
  | nil => rfl
  | append_singleton c b ih =>
    rw [reverse_append, reverse_singleton, singleton_append, readLE, ih, ofBytes_append]
    simp [ofBytes]
    omega

lemma setVch_reverse : setVch (b :: bs).reverse =
      if b.getLsbD 7 then -(ofBytes ((b &&& 0x7f) :: bs) : ℤ)
        else ofBytes ((b &&& 0x7f) :: bs) := by
  have hread : readLE (b :: bs).reverse = b.toNat * 256 ^ bs.length + ofBytes bs := by
    rw [readLE_reverse, ofBytes]
  rw [setVch, getLast?_reverse, head?_cons]
  dsimp only
  rw [hread, length_reverse, length_cons, Nat.add_sub_cancel, ofBytes, toNat_and_7f, getLsbD_seven]
  split_ifs with h
  · have hge := of_decide_eq_true h
    have hle : 128 * 256 ^ bs.length ≤ b.toNat * 256 ^ bs.length := mul_le_mul_right _ hge
    rw [show b.toNat % 128 = b.toNat - 128 by omega, Nat.sub_mul]
    omega
  · rw [mod_eq_of_lt (by simpa using h)]

/-- What the test lets pass is the shortest form of a number other than zero. -/
lemma padded_reverse : padded (b :: bs).reverse = false ↔
    Shortest ((b &&& 0x7f) :: bs) ∧ ofBytes ((b &&& 0x7f) :: bs) ≠ 0 := by
  have hlast : (b :: bs).reverse.getLastD 0 = b := by simp [getLastD_eq_getLast?]
  have hlt : (b &&& 0x7f).toNat < 128 := by
    rw [toNat_and_7f]
    exact mod_lt _ (by decide)
  rw [padded, hlast]
  generalize b &&& 0x7f = x at *
  rcases bs with _ | ⟨b', bs⟩
  · simp [Shortest, ofBytes, hlt, ← BitVec.toNat_inj]
  · have hpad : (x == 0 && b' &&& 0x80 == 0) = false ↔ Shortest (x :: b' :: bs) := by
      simp [Shortest, hlt, ← and_80_eq_zero]
    have hne (h : Shortest (x :: b' :: bs)) : ofBytes (x :: b' :: bs) ≠ 0 := by
      have hlong := ((shortest_iff_bounds _).1 h).2.2 (by simp)
      have hpos := pow_pos (n := (x :: b' :: bs).length - 1) (show 0 < 256 by decide)
      omega
    rw [and_iff_left_of_imp hne, ← hpad]
    simp

end Reading

/-! ## Writing -/

lemma absBytes_eq {r m : ℕ} (hpos : 0 < m) (hm : m < 256 ^ r) :
    absBytes r m = (toBytes (Nat.log 256 m + 1) m).reverse := by
  induction r generalizing m with
  | zero => omega
  | succ r ih =>
    rw [absBytes, if_neg hpos.ne', toBytes_succ, reverse_append, reverse_singleton,
      singleton_append]
    rcases lt_or_ge m 256 with hlt | hge
    · rw [log_of_lt hlt, div_eq_of_lt hlt]
      cases r <;> rfl
    · rw [log_of_one_lt_of_le (by decide) hge,
        ih (div_pos hge (by decide)) (by rw [pow_succ] at hm; omega)]

/-- What is written is the shortest form of the magnitude, with the sign. -/
lemma serialize_eq {n : ℤ} (hn : n ≠ 0) (hm : n.natAbs < 256 ^ 8) :
    serialize n = (signed (n < 0) (shortest n.natAbs)).reverse := by
  have hpos : 0 < n.natAbs := Int.natAbs_pos.2 hn
  have hlow := pow_log_le_self 256 hpos.ne'
  have hhigh := lt_pow_succ_log_self (b := 256) (by decide) n.natAbs
  simp only [serialize, if_neg hn, absBytes_eq hpos hm]
  generalize n.natAbs = m at *
  generalize Nat.log 256 m = k at *
  have htop : (BitVec.ofNat 8 (m / 256 ^ k)).getLsbD 7 = true ↔ 128 * 256 ^ k ≤ m := by
    have hdiv : m / 256 ^ k < 256 := Nat.div_lt_of_lt_mul hhigh
    rw [getLsbD_seven, decide_eq_true_eq, BitVec.toNat_ofNat, mod_eq_of_lt hdiv,
      Nat.le_div_iff_mul_le (Nat.pow_pos (by decide))]
  have hback : (toBytes (k + 1) m).reverse.getLastD 0 = BitVec.ofNat 8 (m / 256 ^ k) := by
    simp [toBytes, getLastD_eq_getLast?]
  rw [hback, shortest]
  by_cases hbit : 128 * 256 ^ k ≤ m
  · -- the top bit is taken, and the sign gets a byte of its own
    have hlog : Nat.log 256 (2 * m) = k + 1 :=
      log_eq_of_pow_le_of_lt_pow (by rw [pow_succ]; omega) (by rw [pow_succ, pow_succ]; omega)
    have hcons : toBytes (k + 1 + 1) m = 0 :: toBytes (k + 1) m := by
      rw [toBytes, div_eq_of_lt (by rwa [pow_succ])]
      rfl
    rw [if_pos (htop.2 hbit), hlog, hcons]
    by_cases hneg : n < 0 <;> simp [signed, sign, hneg]
  · have hlog : Nat.log 256 (2 * m) = k :=
      log_eq_of_pow_le_of_lt_pow (by omega) (by rw [pow_succ]; omega)
    rw [if_neg (mt htop.1 hbit), hlog, toBytes]
    by_cases hneg : n < 0 <;> simp [signed, sign, hneg]

/-! ## Both ways -/

lemma cScriptNum_eq {vch : Bytes} (hlen : vch.length ≤ 8) :
    CScriptNum vch true 8 = if padded vch then .error .scriptnum else .ok (setVch vch) := by
  rw [CScriptNum, if_neg (by omega), Bool.true_and]
  rfl

lemma read_serialize {n : ℤ} (hm : n.natAbs < 256 ^ 8) : padded (serialize n) = false ∧
    setVch (serialize n) = n := by
  rcases eq_or_ne n 0 with rfl | hn
  · exact ⟨rfl, rfl⟩
  have hshort := shortest_shortest n.natAbs
  have hval := ofBytes_shortest n.natAbs
  rw [serialize_eq hn hm]
  generalize shortest n.natAbs = c at *
  rcases c with _ | ⟨b, bs⟩
  · exact absurd rfl hshort.1
  obtain ⟨hclear, hsign⟩ := and_sign b (n < 0) hshort.2.1
  rw [signed, padded_reverse, setVch_reverse, hclear, hsign, hval]
  refine ⟨⟨hshort, Int.natAbs_ne_zero.2 hn⟩, ?_⟩
  simp only [decide_eq_true_eq]
  split_ifs <;> omega

lemma natAbs_setVch (b : BitVec 8) (bs : Bytes) :
    (setVch (b :: bs).reverse).natAbs = ofBytes ((b &&& 0x7f) :: bs) := by
  rw [setVch_reverse]
  split_ifs <;> omega

lemma natAbs_setVch_lt {vch : Bytes} (hlen : vch.length ≤ 8) : (setVch vch).natAbs < 256 ^ 8 := by
  rw [← vch.reverse_reverse]
  cases h : vch.reverse with
  | nil => decide
  | cons b bs =>
    rw [natAbs_setVch]
    rw [← length_reverse, h] at hlen
    exact (ofBytes_lt _).trans_le (Nat.pow_le_pow_right (by decide) hlen)

lemma serialize_setVch {vch : Bytes} (hlen : vch.length ≤ 8) (hpad : padded vch = false) :
    serialize (setVch vch) = vch := by
  have hlt := natAbs_setVch_lt hlen
  rw [← vch.reverse_reverse] at hpad hlt ⊢
  generalize vch.reverse = c at *
  rcases c with _ | ⟨b, bs⟩
  · rfl
  obtain ⟨hshort, hne⟩ := (padded_reverse b bs).1 hpad
  have habs := natAbs_setVch b bs
  have hneg : decide (setVch (b :: bs).reverse < 0) = b.getLsbD 7 := by
    rw [setVch_reverse]
    cases b.getLsbD 7
    · simp
    · simp only [if_true, decide_eq_true_eq]
      omega
  rw [serialize_eq (by omega) hlt, habs, hneg, ← (shortest_iff _).1 hshort, signed, sign_and]

/-- **Values and minimal vectors correspond one to one**, and the vectors that are refused are those
that `serialize` does not write. -/
theorem scriptNum_bijective : (∀ n : ℤ, -2 ^ 63 < n → n < 2 ^ 63 →
      (serialize n).length ≤ 8 ∧ CScriptNum (serialize n) true 8 = .ok n) ∧
    (∀ vch n, CScriptNum vch true 8 = .ok n → serialize n = vch) ∧ ∀ vch, vch.length ≤ 8 →
      (CScriptNum vch true 8 = .error .scriptnum ↔ serialize (setVch vch) ≠ vch) := by
  refine ⟨fun n hlow hhigh => ?_, fun vch n h => ?_, fun vch hlen => ?_⟩
  · obtain ⟨hpad, hread⟩ := read_serialize (n := n) (by omega)
    have hlen : (serialize n).length ≤ 8 := by
      rcases eq_or_ne n 0 with rfl | hn
      · decide
      · rw [serialize_eq hn (by omega), length_reverse, length_signed, shortest, length_toBytes]
        exact log_lt_of_lt_pow' (by decide) (by omega)
    exact ⟨hlen, by rw [cScriptNum_eq hlen, hpad, hread]; rfl⟩
  · have hlen : vch.length ≤ 8 := by
      by_contra hlong
      rw [CScriptNum, if_pos (by omega)] at h
      cases h
    rw [cScriptNum_eq hlen] at h
    split_ifs at h with hpad
    cases h
    exact serialize_setVch hlen (Bool.eq_false_of_not_eq_true hpad)
  · rw [cScriptNum_eq hlen]
    cases hpad : padded vch with
    | false => simp [serialize_setVch hlen hpad]
    | true =>
      refine iff_of_true rfl fun heq => ?_
      have hminimal := (read_serialize (natAbs_setVch_lt hlen)).1
      rw [heq, hpad] at hminimal
      cases hminimal

end Bitcoin.Script
