import DailyReadCoding.Bitcoin.Arith.Compact

/-!
# The work of a block

`GetBlockProof` (`chain.cpp`) computes `2 ^ 256 / (target + 1)` with numbers that cannot hold
`2 ^ 256`: as the complement of the target, divided and incremented.
-/

namespace Bitcoin.Arith

open BaseUint Nat

/-- A division by zero is `none`. -/
def getBlockProof (nBits : ℕ) : Option BaseUint :=
  let bnTarget := (setCompact nBits).target
  if (setCompact nBits).fNegative = true ∨ (setCompact nBits).fOverflow = true ∨
      bnTarget.equalTo 0 = true then some (ofUint64 0)
  else (bnTarget.compl.div (bnTarget.add (ofUint64 1))).map fun q => q.add (ofUint64 1)

/-- `~t / (t + 1) + 1` is `2 ^ 256 / (t + 1)`. -/
lemma proof_formula {t : ℕ} (ht : t < 2 ^ 256) :
    (2 ^ 256 - 1 - t) / (t + 1) + 1 = 2 ^ 256 / (t + 1) := by
  rw [← add_div_right _ (succ_pos t)]
  congr 1
  omega

/-- A decoded target is never the largest number, so that the divisor is not zero. -/
lemma setCompact_lt (c : ℕ) : (setCompact c).target.val + 1 < 2 ^ 256 := by
  have hword := compactWord_lt c
  rcases setCompact_cases c with ⟨-, -, hval⟩ | ⟨hgt, -, hval⟩
  · have hdiv := Nat.div_le_self (compactWord c) (256 ^ (3 - compactSize c))
    omega
  · -- the lowest byte is zero
    have hpow : 256 ^ (compactSize c - 3) = 256 * 256 ^ (compactSize c - 4) := by
      rw [← pow_succ']
      congr 1
      omega
    have hlow : (setCompact c).target.val % 256 = 0 := by
      rw [hval, hpow, Nat.mul_left_comm, mod_mod_of_dvd _ (by norm_num), mul_mod_right]
    omega

lemma getBlockProof_spec (nBits : ℕ) : ∃ r, getBlockProof nBits = some r ∧ r.val =
    if (setCompact nBits).fNegative = false ∧ (setCompact nBits).fOverflow = false ∧
        0 < (setCompact nBits).target.val then 2 ^ 256 / ((setCompact nBits).target.val + 1)
    else 0 := by
  have hone : (ofUint64 1).val = 1 := val_ofUint64 (by decide)
  have hzero := equalTo_iff (setCompact nBits).target (b := 0) (by decide)
  rw [getBlockProof]
  split_ifs with hbad hgood hgood
  · rw [hzero] at hbad
    rcases hbad with hneg | hover | heq
    · simp [hneg] at hgood
    · simp [hover] at hgood
    · omega
  · exact ⟨_, rfl, val_ofUint64 (by decide)⟩
  · set t := (setCompact nBits).target with ht
    have hlt : t.val + 1 < 2 ^ 256 := setCompact_lt nBits
    have hsucc : (t.add (ofUint64 1)).val = t.val + 1 := by rw [val_add, hone, mod_eq_of_lt hlt]
    obtain ⟨q, hq, hval⟩ := val_div (x := t.compl) (y := t.add (ofUint64 1)) (by omega)
    refine ⟨q.add (ofUint64 1), by rw [hq]; rfl, ?_⟩
    have hformula := proof_formula t.val_lt
    have hsmall : 2 ^ 256 / (t.val + 1) < 2 ^ 256 := Nat.div_lt_self (by positivity) (by omega)
    rw [val_add, hone, hval, val_compl, hsucc, hformula, mod_eq_of_lt hsmall]
  · refine absurd ⟨?_, ?_, ?_⟩ hgood
    · simpa using fun h => hbad (.inl h)
    · simpa using fun h => hbad (.inr (.inl h))
    · have hne : ¬(setCompact nBits).target.val = 0 := fun h => hbad (.inr (.inr (hzero.2 h)))
      omega

/-- **The operators of 256-bit numbers are exact**, and so is the proof of a block computed with
them. -/
theorem arith_exact (x y : BaseUint) (b32 shift nBits : ℕ) :
    (x.mulUint32 b32).val = (b32 % 2 ^ 32 * x.val) % 2 ^ 256 ∧
    (x.mul y).val = x.val * y.val % 2 ^ 256 ∧ (x.shl shift).val = x.val * 2 ^ shift % 2 ^ 256 ∧
    (x.shr shift).val = x.val / 2 ^ shift ∧
    (0 < y.val → ∃ q, x.div y = some q ∧ q.val = x.val / y.val) ∧ x.bits = x.val.size ∧
    ∃ r, getBlockProof nBits = some r ∧ r.val =
      if (setCompact nBits).fNegative = false ∧ (setCompact nBits).fOverflow = false ∧
          0 < (setCompact nBits).target.val then 2 ^ 256 / ((setCompact nBits).target.val + 1)
      else 0 :=
  ⟨val_mulUint32 x b32, val_mul x y, val_shl x shift, val_shr x shift, val_div, bits_eq x,
    getBlockProof_spec nBits⟩

end Bitcoin.Arith
