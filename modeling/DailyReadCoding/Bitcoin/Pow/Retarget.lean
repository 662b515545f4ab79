import DailyReadCoding.Bitcoin.Arith.Compact

/-!
# The difficulty retarget

`CalculateNextWorkRequired` (`pow.cpp`) scales the target of the last block by the time the last
period took, clamped to a quarter and four times the period aimed at, and caps it at `powLimit`.
-/

namespace Bitcoin.Pow

open Bitcoin.Arith BaseUint Nat

/-- The consensus parameters the retarget reads. -/
structure Params where
  powLimit : BaseUint
  nPowTargetTimespan : ℤ
  fPowNoRetargeting : Bool

/-- The fields of the last block it reads, both 32 bits wide. -/
structure BlockIndex where
  nTime : ℕ
  nBits : ℕ
  nTime_lt : nTime < 2 ^ 32
  nBits_lt : nBits < 2 ^ 32

/-- `GetBlockTime() - nFirstBlockTime` -/
def elapsed (pindexLast : BlockIndex) (nFirstBlockTime : ℤ) : ℤ :=
    pindexLast.nTime - nFirstBlockTime

/-- The two statements that limit the adjustment step; `/` truncates in the source. -/
def limitTimespan (nActualTimespan span : ℤ) : ℤ :=
  let atLeast := if nActualTimespan < span.tdiv 4 then span.tdiv 4 else nActualTimespan
  if atLeast > span * 4 then span * 4 else atLeast

/-- `bnNew` after the multiplication; the timespan is converted to `uint32_t`. -/
def scaledTarget (pindexLast : BlockIndex) (nFirstBlockTime : ℤ) (params : Params) : BaseUint :=
  (setCompact pindexLast.nBits).target.mulUint32
    (limitTimespan (elapsed pindexLast nFirstBlockTime) params.nPowTargetTimespan % 2 ^ 32).toNat

/-- The divisor, converted to `uint64_t`. -/
def timespanDivisor (params : Params) : BaseUint :=
  ofUint64 (params.nPowTargetTimespan % 2 ^ 64).toNat

def calculateNextWorkRequired (pindexLast : BlockIndex) (nFirstBlockTime : ℤ) (params : Params) :
    Option ℕ :=
  if params.fPowNoRetargeting then some pindexLast.nBits
  else
    ((scaledTarget pindexLast nFirstBlockTime params).div
    (timespanDivisor params)).bind fun bnNew =>
      getCompact (if bnNew.compareTo params.powLimit > 0 then params.powLimit else bnNew) false

/-! ## Exact operations -/

/-- Every subtraction of the division loop is of a number from one at least as large. -/
def DivLoopExact : ℕ → BaseUint → BaseUint → Prop
  | 0, _, _ => True
  | shift + 1, num, div =>
    if num.compareTo div ≥ 0 then
      (num.sub div).val + div.val = num.val ∧ DivLoopExact shift (num.sub div) (div.shr 1)
    else DivLoopExact shift num (div.shr 1)

/-- The division aligns its divisor without loss and makes only such subtractions. -/
def DivExact (x y : BaseUint) : Prop :=
  y.bits ≤ x.bits → (y.shl (x.bits - y.bits)).val = y.val * 2 ^ (x.bits - y.bits) ∧
    DivLoopExact (x.bits - y.bits + 1) x (y.shl (x.bits - y.bits))

/-- No 256-bit operation of the retarget wraps. -/
structure RetargetExact (pindexLast : BlockIndex) (nFirstBlockTime : ℤ)
    (params : Params) : Prop where
  shift : 3 < compactSize pindexLast.nBits → (setCompact pindexLast.nBits).target.val =
    compactWord pindexLast.nBits * 2 ^ (8 * (compactSize pindexLast.nBits - 3))
  product : ((scaledTarget pindexLast nFirstBlockTime params).val : ℤ) =
    (setCompact pindexLast.nBits).target.val *
      limitTimespan (elapsed pindexLast nFirstBlockTime) params.nPowTargetTimespan
  division : DivExact (scaledTarget pindexLast nFirstBlockTime params) (timespanDivisor params)

lemma divLoopExact : ∀ (n : ℕ) (num div : BaseUint), DivLoopExact n num div
  | 0, _, _ => trivial
  | n + 1, num, div => by
    rw [DivLoopExact]
    split_ifs with hge
    · have hle := compareTo_nonneg.1 hge
      rw [val_sub hle]
      exact ⟨Nat.sub_add_cancel hle, divLoopExact n _ _⟩
    · exact divLoopExact n _ _

lemma divExact (x y : BaseUint) : DivExact x y := fun hle => ⟨val_shl_align hle, divLoopExact _ _ _⟩

/-- The mantissa of a positive target below `2 ^ 225` was shifted without loss, as a loss leaves
nothing below bit 240. -/
lemma shift_exact {nBits : ℕ} (hsize : 3 < compactSize nBits)
    (hpos : 0 < (setCompact nBits).target.val) (hlt : (setCompact nBits).target.val < 2 ^ 225) :
    (setCompact nBits).target.val = compactWord nBits * 2 ^ (8 * (compactSize nBits - 3)) := by
  have hword := compactWord_lt nBits
  have hval : (setCompact nBits).target.val =
      compactWord nBits * 2 ^ (8 * (compactSize nBits - 3)) % 2 ^ 256 := by
    have hshifted : shiftedWord nBits = compactWord nBits := if_neg (by omega)
    rw [setCompact, if_neg (by omega), val_shl, hshifted, val_ofUint64 (by omega)]
  rw [hval] at hpos hlt ⊢
  by_contra hge
  generalize compactSize nBits - 3 = k at *
  have hk : 30 ≤ k := by
    by_contra hsmall
    have hpow : 2 ^ (8 * k) ≤ 2 ^ 232 := Nat.pow_le_pow_right (by decide) (by omega)
    have hprod := Nat.mul_le_mul hword.le hpow
    omega
  have hdvd : 2 ^ 240 ∣ compactWord nBits * 2 ^ (8 * k) % 2 ^ 256 := by
    refine (dvd_mod_iff (Nat.pow_dvd_pow 2 (by decide))).2 ?_
    exact (Nat.pow_dvd_pow 2 (by omega)).trans (Nat.dvd_mul_left _ _)
  omega

/-! ## The retarget -/

section TwoWeeks

variable {params : Params} (hspan : params.nPowTargetTimespan = 14 * 24 * 60 * 60)

include hspan

/-- The limited timespan is the timespan clamped to a quarter and four times the period. -/
lemma limitTimespan_eq (t : ℤ) : limitTimespan t params.nPowTargetTimespan =
    max (params.nPowTargetTimespan / 4) (min (params.nPowTargetTimespan * 4) t) := by
  have hquarter : params.nPowTargetTimespan.tdiv 4 = params.nPowTargetTimespan / 4 := by
    rw [hspan]
    rfl
  simp only [limitTimespan]
  split_ifs <;> omega

lemma limitTimespan_bounds (t : ℤ) : 302400 ≤ limitTimespan t params.nPowTargetTimespan ∧
    limitTimespan t params.nPowTargetTimespan ≤ 4838400 := by
  rw [limitTimespan_eq hspan]
  omega

lemma val_timespanDivisor : (timespanDivisor params).val = 1209600 := by
  rw [timespanDivisor, hspan]
  rfl

/-- The product stays far below `2 ^ 256`. -/
lemma val_scaledTarget (pindexLast : BlockIndex) (nFirstBlockTime : ℤ)
    (hlt : (setCompact pindexLast.nBits).target.val < 2 ^ 225) :
    ((scaledTarget pindexLast nFirstBlockTime params).val : ℤ) =
      (setCompact pindexLast.nBits).target.val *
        limitTimespan (elapsed pindexLast nFirstBlockTime) params.nPowTargetTimespan := by
  obtain ⟨hlow, hhigh⟩ := limitTimespan_bounds hspan (elapsed pindexLast nFirstBlockTime)
  obtain ⟨t, ht⟩ := Int.eq_ofNat_of_zero_le (by omega :
    0 ≤ limitTimespan (elapsed pindexLast nFirstBlockTime) params.nPowTargetTimespan)
  have hword : (limitTimespan (elapsed pindexLast nFirstBlockTime) params.nPowTargetTimespan %
      2 ^ 32).toNat = t := by
    omega
  have hprod : t * (setCompact pindexLast.nBits).target.val < 2 ^ 256 := by
    have hmul := mul_le_mul (by omega : t ≤ 2 ^ 23) hlt.le
    omega
  rw [scaledTarget, hword, val_mulUint32, mod_eq_of_lt (by omega : t < 2 ^ 32),
    mod_eq_of_lt hprod, ht, cast_mul, mul_comm]

lemma calculateNextWorkRequired_eq (hretarget : params.fPowNoRetargeting = false)
    (pindexLast : BlockIndex) (nFirstBlockTime : ℤ)
    (hlt : (setCompact pindexLast.nBits).target.val < 2 ^ 225) :
    ∃ x : BaseUint, calculateNextWorkRequired pindexLast nFirstBlockTime params =
        getCompact x false ∧
      (x.val : ℤ) = min (params.powLimit.val : ℤ) ((setCompact pindexLast.nBits).target.val *
        max (params.nPowTargetTimespan / 4)
          (min (params.nPowTargetTimespan * 4) (elapsed pindexLast nFirstBlockTime)) /
        params.nPowTargetTimespan) := by
  have hdivisor := val_timespanDivisor hspan
  obtain ⟨q, hq, hquotient⟩ : ∃ q, (scaledTarget pindexLast nFirstBlockTime params).div
      (timespanDivisor params) = some q ∧ _ := val_div (by omega)
  have hcast : (q.val : ℤ) = (setCompact pindexLast.nBits).target.val *
      limitTimespan (elapsed pindexLast nFirstBlockTime) params.nPowTargetTimespan /
        params.nPowTargetTimespan := by
    rw [hquotient, hdivisor, Int.natCast_ediv, val_scaledTarget hspan _ _ hlt, hspan]
    rfl
  rw [limitTimespan_eq hspan] at hcast
  refine ⟨_, by rw [calculateNextWorkRequired, hretarget, if_neg (by simp), hq,
    Option.bind_some], ?_⟩
  by_cases hcap : params.powLimit.val < q.val
  · rw [if_pos (compareTo_pos.2 hcap)]
    omega
  · rw [if_neg (mt compareTo_pos.1 hcap)]
    omega

end TwoWeeks

lemma target_bounds {x : BaseUint} {c k limit T : ℕ} {clamped : ℤ} (henc : Encodes x c k)
    (hx : (x.val : ℤ) = min (limit : ℤ) (T * clamped / (14 * 24 * 60 * 60)))
    (hlow : 302400 ≤ clamped) (hhigh : clamped ≤ 4838400) (hle : T ≤ limit) :
    (setCompact c).target.val ≤ limit ∧ (setCompact c).target.val ≤ 4 * T ∧
      (2 ^ 32 ≤ T → (2 ^ 14 - 1) * T ≤ 2 ^ 14 * (4 * (setCompact c).target.val)) := by
  have hfloor := le_floor henc.exponent
  have hdown := div_mul_le_self x.val (256 ^ k)
  rw [henc.target]
  have hupper : (T : ℤ) * clamped ≤ T * 4838400 := mul_le_mul_of_nonneg_left hhigh (by omega)
  have hlower : (T : ℤ) * 302400 ≤ T * clamped := mul_le_mul_of_nonneg_left hlow (by omega)
  -- a quarter of the target less than one unit, and then one part in `2 ^ 15`
  omega

/-- **The difficulty retarget.**  For a limit below `2 ^ 224 + 2 ^ 223`, a period of two weeks and a
last target in `(0, powLimit]`, no operation wraps and the result is the compact form of the scaled
and capped target.  It decodes without a flag to at most `powLimit` and at most four times the last
target, does not decrease with the time elapsed, and for large targets keeps all but one part in
`2 ^ 14` of a quarter of the last one. -/
theorem calculateNextWorkRequired_spec (params : Params)
    (hretarget : params.fPowNoRetargeting = false)
    (hlimit : params.powLimit.val < 2 ^ 224 + 2 ^ 223)
    (hspan : params.nPowTargetTimespan = 14 * 24 * 60 * 60) (pindexLast : BlockIndex)
    (nFirstBlockTime : ℤ) (T : ℕ) (hT : (setCompact pindexLast.nBits).target.val = T)
    (hpos : 0 < T) (hle : T ≤ params.powLimit.val) :
    RetargetExact pindexLast nFirstBlockTime params ∧
    ∃ x c, (x.val : ℤ) = min (params.powLimit.val : ℤ) (T * max (params.nPowTargetTimespan / 4)
          (min (params.nPowTargetTimespan * 4) (elapsed pindexLast nFirstBlockTime)) /
          params.nPowTargetTimespan) ∧ getCompact x false = some c ∧
      calculateNextWorkRequired pindexLast nFirstBlockTime params = some c ∧
      (setCompact c).fNegative = false ∧ (setCompact c).fOverflow = false ∧
      (setCompact c).target.val ≤ params.powLimit.val ∧ (setCompact c).target.val ≤ 4 * T ∧
      (2 ^ 32 ≤ T → (2 ^ 14 - 1) * T ≤ 2 ^ 14 * (4 * (setCompact c).target.val)) ∧
      ∀ (pindexLast' : BlockIndex) (nFirstBlockTime' : ℤ) (c' : ℕ),
        pindexLast'.nBits = pindexLast.nBits →
        elapsed pindexLast nFirstBlockTime ≤ elapsed pindexLast' nFirstBlockTime' →
        calculateNextWorkRequired pindexLast' nFirstBlockTime' params = some c' →
        (setCompact c).target.val ≤ (setCompact c').target.val := by
  subst hT
  have hlt : (setCompact pindexLast.nBits).target.val < 2 ^ 225 := by omega
  refine ⟨⟨fun hsize => shift_exact hsize hpos hlt, val_scaledTarget hspan _ _ hlt,
    divExact _ _⟩, ?_⟩
  obtain ⟨x, hcalc, hx⟩ := calculateNextWorkRequired_eq hspan hretarget pindexLast
    nFirstBlockTime hlt
  obtain ⟨c, k, henc⟩ := getCompact_spec x
  have hbounds := limitTimespan_bounds hspan (elapsed pindexLast nFirstBlockTime)
  rw [limitTimespan_eq hspan] at hbounds
  have htarget := target_bounds henc (by rw [hx, hspan]) hbounds.1 hbounds.2 hle
  refine ⟨x, c, hx, henc.getCompact, hcalc.trans henc.getCompact, henc.fNegative, henc.fOverflow,
    htarget.1, htarget.2.1, htarget.2.2, ?_⟩
  intro pindexLast' nFirstBlockTime' c' hbits htime hcalc'
  obtain ⟨x', hcalc'', hx'⟩ := calculateNextWorkRequired_eq hspan hretarget pindexLast'
    nFirstBlockTime' (by rwa [hbits])
  obtain ⟨c'', k', henc'⟩ := getCompact_spec x'
  obtain rfl : c' = c'' := by
    rw [hcalc'', henc'.getCompact] at hcalc'
    exact (Option.some.inj hcalc').symm
  have hmono : x.val ≤ x'.val := by
    rw [hbits] at hx'
    have hclamp : (setCompact pindexLast.nBits).target.val * max (params.nPowTargetTimespan / 4)
          (min (params.nPowTargetTimespan * 4) (elapsed pindexLast nFirstBlockTime)) ≤
        (setCompact pindexLast.nBits).target.val * max (params.nPowTargetTimespan / 4)
          (min (params.nPowTargetTimespan * 4) (elapsed pindexLast' nFirstBlockTime')) :=
      mul_le_mul_of_nonneg_left (max_le_max le_rfl (min_le_min le_rfl htime)) (by omega)
    have hdiv := Int.ediv_le_ediv (by omega : 0 < params.nPowTargetTimespan) hclamp
    have hmin := min_le_min (le_refl (params.powLimit.val : ℤ)) hdiv
    rw [← hx, ← hx'] at hmin
    exact Int.ofNat_le.1 hmin
  rw [henc.target, henc'.target]
  exact floor_mono henc.exponent henc'.exponent hmono

/-- The lowest difficulty of the main network. -/
def mainnetBits : ℕ := 0x1d00ffff

lemma val_mainnetBits : (setCompact mainnetBits).target.val = 0xffff * 2 ^ 208 := by decide +kernel

/-- The first target of the main network, after a period of one week. -/
theorem calculateNextWorkRequired_spec_mainnet : ∃ (params : Params) (pindexLast : BlockIndex),
    pindexLast.nBits = mainnetBits ∧
      RetargetExact pindexLast (pindexLast.nTime - 604800) params := by
  have htarget := val_mainnetBits
  generalize hbits : mainnetBits = nBits at htarget
  have hlt : nBits < 2 ^ 32 := by
    rw [← hbits]
    decide
  refine ⟨⟨(setCompact nBits).target, 14 * 24 * 60 * 60, false⟩,
    ⟨1231006505, nBits, by decide, hlt⟩,
    rfl, (calculateNextWorkRequired_spec _ rfl ?_ rfl _ _ _ rfl ?_ le_rfl).1⟩
  · rw [htarget]
    norm_num
  · rw [htarget]
    norm_num

end Bitcoin.Pow
