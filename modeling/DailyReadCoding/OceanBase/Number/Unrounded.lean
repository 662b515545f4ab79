import DailyReadCoding.OceanBase.Number.Compare
import DailyReadCoding.OceanBase.Number.Product

/-!
# Results that are not rounded

With `do_rounding = false` the result of an operation is what `exp_check_` has let pass.  This file
says what that is: how `assignChecked` ends, and the value that `add_v3` and `sub_v3` compute.
-/

namespace OceanBase.Number

open Positional ObNumber List

/-! ## Checking and assigning -/

/-- The largest exponent that `exp_check_` accepts. -/
def maxExp (oracleMode : Bool) : ℤ := if oracleMode then MAX_INTEGER_EXP - 1 else MAX_INTEGER_EXP

lemma maxExp_bounds (oracleMode : Bool) : 13 ≤ maxExp oracleMode ∧ maxExp oracleMode ≤ 14 := by
  cases oracleMode <;> simp [maxExp, MAX_INTEGER_EXP]

/-- `exp_check_` compares the exponent with the limits, whatever the sign. -/
lemma expCheck_calcDesc {E : ℤ} (hlo : -63 ≤ E) (hhi : E < 64) (len : ℕ) (oracleMode : Bool) :
    ∀ s : Sign, expCheck (calcDesc s E len) oracleMode
      = if maxExp oracleMode < E then some .integerPrecisionOverflow
        else if E < -15 then some .decimalPrecisionOverflow else none := by
  have hpos := calcExp_positive (e := E) (by omega) hhi
  have hneg := calcExp_negative hlo hhi
  have habs : ∀ s, |(calcExp s E : ℤ) - EXP_ZERO| = if 0 ≤ E then E else -E := by
    intro s
    cases s <;> simp only [EXP_ZERO] <;> grind
  intro s
  simp only [expCheck, calcDesc, isGe1, isLt1, maxExp, MAX_INTEGER_EXP, MAX_DECIMAL_EXP]
  cases s <;> simp only [EXP_ZERO] <;> grind

/-- A result with this sign, exponent and words, as far as limits and memory allow it. -/
structure Assigned (cfg : Config) (res : Except Err ObNumber) (sign : Sign) (E : ℤ)
    (ws : List ℕ) : Prop where
  ok : ∀ r, res = .ok r → (E < -15 ∧ r = zero)
    ∨ (-15 ≤ E ∧ E ≤ maxExp cfg.oracleMode ∧ cfg.alloc = true
      ∧ r.d = calcDesc sign E ws.length ∧ r.d.len ≤ r.digits.length ∧ r.words = ws)
  error : ∀ err, res = .error err →
    (err = .integerPrecisionOverflow ∧ maxExp cfg.oracleMode < E)
      ∨ (err = .allocateMemoryFailed ∧ cfg.alloc = false)

section Assigned

variable {cfg : Config} {res : Except Err ObNumber} {sign : Sign} {E : ℤ} {ws ds : List ℕ}

lemma assigned_ok {r : ObNumber} (h : (E < -15 ∧ r = zero)
    ∨ (-15 ≤ E ∧ E ≤ maxExp cfg.oracleMode ∧ cfg.alloc = true
      ∧ r.d = calcDesc sign E ws.length ∧ r.d.len ≤ r.digits.length ∧ r.words = ws)) :
    Assigned cfg (.ok r) sign E ws where
  ok r' hr := by
    cases hr
    exact h
  error err herr := by cases herr

lemma assigned_error {err : Err} (h : (err = .integerPrecisionOverflow ∧ maxExp cfg.oracleMode < E)
    ∨ (err = .allocateMemoryFailed ∧ cfg.alloc = false)) : Assigned cfg (.error err) sign E ws where
  ok r hr := by cases hr
  error err' herr := by
    cases herr
    exact h

lemma assigned_assignChecked (hlo : -63 ≤ E) (hhi : E < 64) (htake : ds.take ws.length = ws) :
    Assigned cfg (withBuffer cfg (assignChecked cfg sign E ws.length ds)) sign E ws := by
  have hstored : ws.length ≤ ds.length := by
    have := congrArg List.length htake
    rw [length_take] at this
    omega
  have htake2 : (ds.take ws.length).take ws.length = ws := by rw [htake, take_length]
  have hstored2 : ws.length ≤ (ds.take ws.length).length := by rw [htake]
  rw [withBuffer, assignChecked, expCheck_calcDesc hlo hhi]
  rcases em (cfg.strictMode = false ∧ cfg.alloc = false) with hbuffer | hbuffer
  · rw [if_pos hbuffer]
    exact assigned_error (.inr ⟨rfl, hbuffer.2⟩)
  rw [if_neg hbuffer]
  rcases lt_or_ge (maxExp cfg.oracleMode) E with hbig | hbig
  · rw [if_pos hbig]
    exact assigned_error (.inl ⟨rfl, hbig⟩)
  rw [if_neg (not_lt.2 hbig)]
  rcases lt_or_ge E (-15) with hsmall | hsmall
  · rw [if_pos hsmall]
    exact assigned_ok (.inl ⟨hsmall, rfl⟩)
  rw [if_neg (not_lt.2 hsmall)]
  cases hstrict : cfg.strictMode with
  | false =>
    have halloc : cfg.alloc = true := by simpa [hstrict] using hbuffer
    exact assigned_ok (.inr ⟨hsmall, hbig, halloc, rfl, hstored, htake⟩)
  | true =>
    cases halloc : cfg.alloc with
    | false => exact assigned_error (.inr ⟨rfl, halloc⟩)
    | true => exact assigned_ok (.inr ⟨hsmall, hbig, halloc, rfl, hstored2, htake2⟩)

/-- The older functions work in a buffer on the stack, as the newer ones do in strict mode. -/
lemma assigned_assignStrict (hlo : -63 ≤ E) (hhi : E < 64) (htake : ds.take ws.length = ws) :
    Assigned cfg (assignChecked { cfg with strictMode := true } sign E ws.length ds) sign E ws := by
  have h : Assigned { cfg with strictMode := true } (withBuffer { cfg with strictMode := true }
      (assignChecked { cfg with strictMode := true } sign E ws.length ds)) sign E ws :=
    assigned_assignChecked hlo hhi htake
  exact ⟨h.ok, h.error⟩

/-- The value of a number that was put together by `calc_desc_and_check`. -/
lemma value_of_calcDesc {r : ObNumber} {len : ℕ} (hlo : -63 ≤ E) (hhi : E < 64)
    (hd : r.d = calcDesc sign E len) (hstored : r.d.len ≤ r.digits.length) :
    r.value = sign.factor * ((BASE : ℚ) ^ E * mantissa BASE r.words) ∧ getDecodeExp r.d = E := by
  have hdec : getDecodeExp r.d = E := by
    rw [hd]
    exact getDecodeExp_calcExp hlo hhi len sign
  refine ⟨?_, hdec⟩
  rw [value_eq_mantissa hstored, hdec, hd, calcDesc]

end Assigned

/-! ## Truncation toward zero -/

/-- The exponent of the first word of a value other than zero. -/
def exponent (x : ℚ) : ℤ := Int.log BASE |x|

/-- The value truncated toward zero to a multiple of `unit`. -/
def truncTo (unit x : ℚ) : ℚ :=
  if x < 0 then -(⌊|x| / unit⌋₊ * unit) else ⌊|x| / unit⌋₊ * unit

section Trunc

variable {x unit : ℚ} {E M : ℤ} {W : List ℕ}

lemma exponent_eq (hlo : (BASE : ℚ) ^ E ≤ |x|) (hhi : |x| < (BASE : ℚ) ^ (E + 1)) :
    exponent x = E := by
  have hb : 1 < BASE := by simp [BASE]
  have hpos : 0 < |x| := (zpow_pos base_pos E).trans_le hlo
  have h1 := (Int.zpow_le_iff_le_log hb hpos).1 hlo
  have h2 := (Int.lt_zpow_iff_log_lt hb hpos).1 hhi
  rw [exponent]
  omega

lemma exponent_lt_iff (hx : x ≠ 0) : exponent x < E ↔ |x| < (BASE : ℚ) ^ E :=
  (Int.lt_zpow_iff_log_lt (by simp [BASE]) (abs_pos.2 hx)).symm

/-- The words of a magnitude lie between two powers of the base. -/
lemma magnitude_bounds_of_head (hdigits : Digits BASE W) (hne : W ≠ []) (hfirst : W.head? ≠ some 0)
    (E : ℤ) : (BASE : ℚ) ^ E ≤ (BASE : ℚ) ^ E * mantissa BASE W
      ∧ (BASE : ℚ) ^ E * mantissa BASE W < (BASE : ℚ) ^ (E + 1) := by
  have hpow := zpow_pos base_pos E
  constructor
  · refine le_mul_of_one_le_right hpow.le ?_
    cases W with
    | nil => exact absurd rfl hne
    | cons d ds =>
      have hd : (1 : ℚ) ≤ d := by exact_mod_cast Nat.one_le_iff_ne_zero.2 (by simpa using hfirst)
      exact hd.trans (le_mantissa BASE d ds)
  · rw [zpow_add_one₀ base_pos.ne']
    exact mul_lt_mul_of_pos_left (mantissa_lt base_pos_nat hdigits) hpow

lemma exponent_magnitude (s : Sign) (hdigits : Digits BASE W) (hne : W ≠ [])
    (hfirst : W.head? ≠ some 0) : exponent (s.factor * ((BASE : ℚ) ^ E * mantissa BASE W)) = E := by
  obtain ⟨hlo, hhi⟩ := magnitude_bounds_of_head hdigits hne hfirst E
  have habs : |s.factor * ((BASE : ℚ) ^ E * mantissa BASE W)|
      = (BASE : ℚ) ^ E * mantissa BASE W := by
    rw [abs_mul, Sign.abs_factor, one_mul, abs_of_pos ((zpow_pos base_pos E).trans_le hlo)]
  exact exponent_eq (by rwa [habs]) (by rwa [habs])

lemma truncTo_factor (unit : ℚ) (hx : 0 ≤ x) : ∀ s : Sign,
    truncTo unit (s.factor * x) = s.factor * (⌊x / unit⌋₊ * unit)
  | .positive => by
    rw [Sign.factor, one_mul, one_mul, truncTo, if_neg (not_lt.2 hx), abs_of_nonneg hx]
  | .negative => by
    rw [Sign.factor, neg_one_mul, neg_one_mul, truncTo, abs_neg, abs_of_nonneg hx]
    split_ifs with h
    · rfl
    · have hzero : x = 0 := by linarith
      simp [hzero]

/-- The words of a magnitude down to the one that counts `BASE ^ (E - j)`. -/
lemma floor_magnitude_cut (hW : Digits BASE W) (E : ℤ) (j : ℕ) :
    ⌊(BASE : ℚ) ^ E * mantissa BASE W / (BASE : ℚ) ^ (E - j)⌋₊ = leading BASE (j + 1) W := by
  have hrest0 : 0 ≤ mantissa BASE (W.drop (j + 1)) / BASE :=
    div_nonneg (mantissa_nonneg _ _) base_pos.le
  have hrest1 : mantissa BASE (W.drop (j + 1)) / BASE < 1 :=
    (div_lt_one base_pos).2 (mantissa_lt base_pos_nat (hW.drop (j + 1)))
  rw [magnitude_cut, mul_div_cancel_left₀ _ (zpow_pos base_pos (E - j)).ne']
  exact (Nat.floor_eq_iff (by positivity)).2 ⟨by linarith, by linarith⟩

/-- Moving words down is lowering the exponent. -/
lemma magnitude_shifted (M : ℤ) (ds : List ℕ) : ∀ s : ℕ,
    (BASE : ℚ) ^ M * mantissa BASE (shifted s ds) = (BASE : ℚ) ^ (M - s) * mantissa BASE ds
  | 0 => by simp
  | s + 1 => by
    have ih := magnitude_shifted (M - 1) ds s
    have hcons : shifted (s + 1) ds = 0 :: shifted s ds := rfl
    rw [hcons, mantissa, Nat.cast_zero, zero_add, Nat.cast_succ,
      show M - ((s : ℤ) + 1) = M - 1 - s by ring, ← ih, zpow_sub_one₀ base_pos.ne']
    field_simp

/-- `j + 1` words under the exponent `M` show a number truncated to the unit of the last of them. -/
lemma Normal.truncTo_window {n : ObNumber} {e : ℤ} (h : Normal n e) (he : InLimits e)
    (hM : e ≤ M) (j : ℕ) : truncTo ((BASE : ℚ) ^ (M - j)) n.value = n.d.sign.factor
        * (leading BASE (j + 1) (shifted (M - e).toNat n.words) * (BASE : ℚ) ^ (M - j)) := by
  have hmag : (BASE : ℚ) ^ e * mantissa BASE n.words
      = (BASE : ℚ) ^ M * mantissa BASE (shifted (M - e).toNat n.words) := by
    rw [magnitude_shifted]
    congr 2
    omega
  have hnonneg : 0 ≤ (BASE : ℚ) ^ M * mantissa BASE (shifted (M - e).toNat n.words) :=
    mul_nonneg (zpow_pos base_pos M).le (mantissa_nonneg _ _)
  rw [h.value_eq he, hmag, truncTo_factor _ hnonneg,
    floor_magnitude_cut (digits_shifted h.digits (M - e).toNat)]

end Trunc

/-! ## Copies, negatives and the calls between addition and subtraction -/

section Calls

variable {cfg : Config} {a b n : ObNumber} {e f : ℤ}

lemma calcExp_flipSign (hlo : -63 ≤ e) (hhi : e < 64) : ∀ s : Sign,
    (flip7 (calcExp s e) + 1) % 128 = calcExp (flipSign s) e := by
  have hpos := calcExp_positive (e := e) (by omega) hhi
  have hneg := calcExp_negative hlo hhi
  intro s
  cases s <;> simp only [flipSign, flip7] <;> omega

section

variable (h : Normal n e) (he : InLimits e)

include h he

lemma Normal.negate_eq :
    n.negate = { n with d := ⟨n.d.len, calcExp (flipSign n.d.sign) e, flipSign n.d.sign⟩ } := by
  have hb := he.bounds
  rw [negate, h.isZero_eq, if_neg (by simp), h.exp_eq, calcExp_flipSign (by omega) (by omega)]

lemma Normal.negate : Normal n.negate e := by
  rw [h.negate_eq he]
  exact ⟨h.len_pos, h.len_le, h.stored, h.digits, h.first, h.last, rfl⟩

lemma Normal.negate_words : n.negate.words = n.words := by
  rw [h.negate_eq he]
  rfl

lemma Normal.negateV3_eq : negateV3 cfg n = deepCopyV3 cfg n.negate := by
  have hneg := h.negate he
  have hle : ¬ n.negate.d.len > MAX_CALC_LEN := by
    have := hneg.len_le
    rw [MAX_STORE_LEN] at this
    rw [MAX_CALC_LEN]
    omega
  simp only [negateV3, deepCopyV3, h.isZero_eq, if_neg hneg.len_pos.ne', if_neg hle,
    h.negate_words he, Bool.false_eq_true, if_false]

end

lemma Normal.negate_sign (h : Normal n e) : n.negate.d.sign = flipSign n.d.sign :=
  ObNumber.negate_sign (by rw [h.isZero_eq]; exact Bool.false_ne_true)

lemma factor_flipSign : ∀ s : Sign, (flipSign s).factor = -s.factor
  | .positive => rfl
  | .negative => by simp [flipSign, Sign.factor]

lemma Normal.negate_value (h : Normal n e) (he : InLimits e) : n.negate.value = -n.value := by
  rw [(h.negate he).value_eq he, h.value_eq he, h.negate_words he, h.negate_sign, factor_flipSign,
    neg_mul]

lemma isZero_of_zero (h : n.d = ⟨0, 0, .positive⟩) : n.isZero = true := by
  rw [isZero, h]
  rfl

lemma addV3_of_zero_left (h : a.d = ⟨0, 0, .positive⟩) :
    addV3 cfg a b = (deepCopyV3 cfg b).map (roundAfter cfg) := by
  rw [addV3, if_pos (isZero_of_zero h)]

lemma subV3_of_zero_left (h : a.d = ⟨0, 0, .positive⟩) :
    subV3 cfg a b = (negateV3 cfg b).map (roundAfter cfg) := by
  rw [subV3, if_pos (isZero_of_zero h)]

lemma Normal.addV3_of_zero_right (ha : Normal a e) (h : b.d = ⟨0, 0, .positive⟩) :
    addV3 cfg a b = (deepCopyV3 cfg a).map (roundAfter cfg) := by
  rw [addV3, ha.isZero_eq, if_neg Bool.false_ne_true, dif_pos (isZero_of_zero h)]

lemma Normal.subV3_of_zero_right (ha : Normal a e) (h : b.d = ⟨0, 0, .positive⟩) :
    subV3 cfg a b = (deepCopyV3 cfg a).map (roundAfter cfg) := by
  rw [subV3, ha.isZero_eq, if_neg Bool.false_ne_true, dif_pos (isZero_of_zero h)]

/-- `add_v3` of numbers other than zero, by their signs; each call rounds once. -/
lemma Normal.addV3_eq (ha : Normal a e) (hb : Normal b f) (hf : InLimits f) :
    addV3 cfg a b = if a.d.sign = b.d.sign then (addSameSign cfg a b).map (roundAfter cfg)
      else ((subSameSign cfg a b.negate).map (roundAfter cfg)).map (roundAfter cfg) := by
  have hneg := hb.negate hf
  rw [addV3, ha.isZero_eq, if_neg Bool.false_ne_true,
    dif_neg (by rw [hb.isZero_eq]; exact Bool.false_ne_true)]
  split_ifs with hs
  · rfl
  · rw [subV3, ha.isZero_eq, if_neg Bool.false_ne_true,
      dif_neg (by rw [hneg.isZero_eq]; exact Bool.false_ne_true),
      if_pos (by rw [hb.negate_sign]; exact flipSign_of_ne hs)]

lemma Normal.subV3_eq (ha : Normal a e) (hb : Normal b f) (hf : InLimits f) :
    subV3 cfg a b = if a.d.sign = b.d.sign then (subSameSign cfg a b).map (roundAfter cfg)
      else ((addSameSign cfg a b.negate).map (roundAfter cfg)).map (roundAfter cfg) := by
  have hneg := hb.negate hf
  rw [subV3, ha.isZero_eq, if_neg Bool.false_ne_true,
    dif_neg (by rw [hb.isZero_eq]; exact Bool.false_ne_true)]
  split_ifs with hs
  · rfl
  · rw [addV3, ha.isZero_eq, if_neg Bool.false_ne_true,
      dif_neg (by rw [hneg.isZero_eq]; exact Bool.false_ne_true),
      if_pos (by rw [hb.negate_sign]; exact flipSign_of_ne hs)]

end Calls

/-! ## Sums and differences -/

/-- The value computed for `a + σ b`: on the operands cut to nine words under the larger exponent,
or from one alone if the other lies below them. -/
def windowed (σ : ℚ) (a b : ObNumber) : ℚ :=
  let e := getDecodeExp a.d
  let f := getDecodeExp b.d
  if f + 9 ≤ e then a.value
  else if e + 9 ≤ f then σ * b.value
  else
    truncTo ((BASE : ℚ) ^ (max e f - 8)) a.value + σ * truncTo ((BASE : ℚ) ^ (max e f - 8)) b.value

/-- As `Normal`, within the limits, but with up to ten words. -/
structure TenWords (n : ObNumber) (e : ℤ) : Prop where
  limits : InLimits e
  stored : n.d.len ≤ n.digits.length
  words : GoodWords 10 n.words
  exp_eq : n.d.exp = calcExp n.d.sign e

/-- The outcomes of an operation without rounding that is after the value `x`. `Near`: the exponents
are close, so that the result is checked. -/
structure Ends (cfg : Config) (Near : Prop) (res : Except Err ObNumber) (x : ℚ) : Prop where
  ok : ∀ r, res = .ok r → (r = zero ∧ (x = 0 ∨ exponent x < -15))
    ∨ (cfg.alloc = true ∧ TenWords r (exponent x) ∧ r.value = x
      ∧ (Near → exponent x ≤ maxExp cfg.oracleMode))
  error : ∀ err, res = .error err →
    (err = .integerPrecisionOverflow ∧ Near ∧ maxExp cfg.oracleMode < exponent x)
      ∨ (err = .allocateMemoryFailed ∧ cfg.alloc = false)

section Ends

variable {cfg : Config} {Near : Prop} {res : Except Err ObNumber} {a b n : ObNumber} {e f : ℤ}

lemma ends_zero : Ends cfg Near (.ok zero) 0 where
  ok r hr := by
    cases hr
    exact .inl ⟨rfl, .inl rfl⟩
  error err herr := by cases herr

/-- A branch of the code, with the value it is after. -/
lemma ends_ite {res' : Except Err ObNumber} {x y : ℚ} {P : Prop} [Decidable P]
    (h : P → Ends cfg Near res x)
    (h' : ¬ P → Ends cfg Near res' y) : Ends cfg Near (if P then res else res')
    (if P then x else y) := by
  split_ifs with hP
  · exact h hP
  · exact h' hP

lemma Assigned.ends {sign : Sign} {E : ℤ} {ws : List ℕ} {x : ℚ} (h : Assigned cfg res sign E ws)
    (hgood : GoodWords 10 ws) (hnear : Near) (hhi : E < 64)
    (hx : sign.factor * ((BASE : ℚ) ^ E * mantissa BASE ws) = x) : Ends cfg Near res x := by
  have hmax := maxExp_bounds cfg.oracleMode
  have hexp : exponent x = E := hx ▸ exponent_magnitude sign hgood.digits hgood.ne_nil hgood.first
  constructor
  · intro r hr
    rcases h.ok r hr with ⟨hsmall, rfl⟩ | ⟨hlow, hhigh, halloc, hd, hstored, hwords⟩
    · exact .inl ⟨rfl, .inr (by omega)⟩
    · obtain ⟨hvalue, -⟩ := value_of_calcDesc (show -63 ≤ E by omega) hhi hd hstored
      refine .inr ⟨halloc, ⟨⟨?_, ?_⟩, hstored, by rwa [hwords], by rw [hexp, hd, calcDesc]⟩, ?_, ?_⟩
      · rw [hexp]
        exact hlow
      · rw [MAX_INTEGER_EXP]
        omega
      · rw [hvalue, hwords, hx]
      · intro _
        rw [hexp]
        exact hhigh
  · intro err herr
    rw [hexp]
    rcases h.error err herr with ⟨rfl, hbig⟩ | hno
    · exact .inl ⟨rfl, hnear, hbig⟩
    · exact .inr hno

lemma Normal.goodWords (h : Normal n e) : GoodWords 9 n.words where
  ne_nil := by
    obtain ⟨d, ds, hw, -⟩ := h.words_eq_cons
    rw [hw]
    exact cons_ne_nil d ds
  length_le := by
    rw [h.length_eq]
    exact h.len_le
  digits := h.digits
  first := h.first
  last := h.last

lemma GoodWords.mono {j k : ℕ} {ws : List ℕ} (h : GoodWords j ws) (hjk : j ≤ k) : GoodWords k ws :=
  ⟨h.ne_nil, h.length_le.trans hjk, h.digits, h.first, h.last⟩

lemma Normal.exponent_value (h : Normal n e) (he : InLimits e) : exponent n.value = e := by
  rw [h.value_eq he]
  exact exponent_magnitude _ h.digits h.goodWords.ne_nil h.first

lemma Normal.value_ne_zero (h : Normal n e) (he : InLimits e) : n.value ≠ 0 := by
  intro hzero
  have habs := h.abs_value he
  rw [hzero] at habs
  exact ((zpow_pos base_pos e).trans_le h.magnitude_bounds.1).ne habs

lemma Normal.deepCopy_ends (h : Normal n e) (he : InLimits e) (hfar : ¬ Near) :
    Ends cfg Near (deepCopyV3 cfg n) n.value := by
  have hle := h.len_le
  rw [MAX_STORE_LEN] at hle
  have hwords : words ⟨n.d, n.words⟩ = n.words := by rw [words, ← h.length_eq, take_length]
  have hvalue : value ⟨n.d, n.words⟩ = n.value := by
    rw [value_eq_mantissa (show n.d.len ≤ n.words.length from h.length_eq.ge), h.value_eq he,
      hwords, h.decode_eq he]
  rw [deepCopyV3, if_neg h.len_pos.ne', if_neg (by rw [MAX_CALC_LEN]; omega)]
  cases halloc : cfg.alloc with
  | false =>
    refine ⟨fun r hr => by simp at hr, ?_⟩
    intro err herr
    cases herr
    exact .inr ⟨rfl, halloc⟩
  | true =>
    refine ⟨?_, fun err herr => by simp at herr⟩
    intro r hr
    cases hr
    rw [h.exponent_value he]
    exact .inr ⟨halloc,
      ⟨he, h.length_eq.ge, by rw [hwords]; exact h.goodWords.mono (by omega), h.exp_eq⟩, hvalue,
      fun hnear => absurd hnear hfar⟩

lemma Normal.negateV3_ends (h : Normal n e) (he : InLimits e) (hfar : ¬ Near) :
    Ends cfg Near (negateV3 cfg n) (-n.value) := by
  rw [h.negateV3_eq he, ← h.negate_value he]
  exact (h.negate he).deepCopy_ends he hfar

lemma addSameSign_ends (ha : Normal a e) (hb : Normal b f) (he : InLimits e) (hf : InLimits f)
    (hs : a.d.sign = b.d.sign) :
    Ends cfg (e < f + 9 ∧ f < e + 9) (addSameSign cfg a b) (windowed 1 a b) := by
  have hbf := hf.bounds
  simp only [addSameSign, windowed, ha.decode_eq he, hb.decode_eq hf,
    show OB_MAX_DECIMAL_DIGIT = 9 from rfl, one_mul]
  refine ends_ite (fun _ => ha.deepCopy_ends he (by omega)) fun hef =>
    ends_ite (fun _ => hb.deepCopy_ends hf (by omega)) fun hfe => ?_
  rw [not_le] at hef hfe
  obtain ⟨E, ws, ds, heq, htake, hgood, hvalue⟩ := addAligned_eq cfg ha hb he hf hef hfe
  have hwa := ha.truncTo_window he (le_max_left e f) 8
  have hwb := hb.truncTo_window hf (le_max_right e f) 8
  rw [Nat.cast_ofNat] at hwa hwb
  rw [heq, hwa, hwb, ← hs]
  refine (assigned_assignChecked (by omega) (by omega) htake).ends hgood ⟨hef, hfe⟩ (by omega) ?_
  rcases hvalue with ⟨rfl, hlen, hsum⟩ | ⟨rfl, hsum⟩
  · rw [magnitude_of_length_le (show ws.length ≤ 8 + 1 from hlen), hsum]
    push_cast
    ring
  · rw [magnitude_of_length_le (show ws.length ≤ 9 + 1 from hgood.length_le), hsum,
      show max e f + 1 - ((9 : ℕ) : ℤ) = max e f - 8 by push_cast; ring]
    push_cast
    ring

lemma subSameSign_ends (ha : Normal a e) (hb : Normal b f) (he : InLimits e) (hf : InLimits f)
    (hs : a.d.sign = b.d.sign) :
    Ends cfg (e < f + 9 ∧ f < e + 9) (subSameSign cfg a b) (windowed (-1) a b) := by
  have hbf := hf.bounds
  simp only [subSameSign, windowed, ha.decode_eq he, hb.decode_eq hf,
    show OB_MAX_DECIMAL_DIGIT = 9 from rfl, neg_one_mul]
  refine ends_ite (fun _ => ha.deepCopy_ends he (by omega)) fun hef =>
    ends_ite (fun _ => hb.negateV3_ends hf (by omega)) fun hfe => ?_
  rw [not_le] at hef hfe
  have hwa := ha.truncTo_window he (le_max_left e f) 8
  have hwb := hb.truncTo_window hf (le_max_right e f) 8
  rw [Nat.cast_ofNat] at hwa hwb
  rw [hwa, hwb, ← hs]
  rcases subAligned_eq cfg ha hb he hf hs hef hfe with
    ⟨heq, rfl, hwords⟩ | ⟨z, ws, ds, sign, heq, htake, hgood, hz, hvalue⟩
  · rw [heq, hwords, add_neg_cancel]
    exact ends_zero
  rw [heq]
  refine (assigned_assignChecked (by omega) (by omega) htake).ends (hgood.mono (by omega))
    ⟨hef, hfe⟩ (by omega) ?_
  have hmag := magnitude_of_length_le (show ws.length ≤ 8 - z + 1 by have := hgood.length_le; omega)
    (max e f - z)
  rw [show max e f - (z : ℤ) - ((8 - z : ℕ) : ℤ) = max e f - 8 by omega,
    show 8 - z + 1 = 9 - z by omega] at hmag
  rw [hmag]
  rcases hvalue with ⟨rfl, hdiff⟩ | ⟨rfl, hdiff⟩
  · rw [← hdiff]
    push_cast
    ring
  · rw [← hdiff, factor_flipSign]
    push_cast
    ring

lemma map_roundAfter (hcfg : cfg.doRounding = false) : res.map (roundAfter cfg) = res := by
  cases res with
  | error err => rfl
  | ok r => simp [Except.map, roundAfter, hcfg]

lemma decode_of_zero (h : n.d = ⟨0, 0, .positive⟩) : getDecodeExp n.d = -64 := by
  rw [h]
  rfl

lemma windowed_of_zero_left (σ : ℚ) (ha : a.d = ⟨0, 0, .positive⟩) (hb : Normalized b) :
    windowed σ a b = σ * b.value := by
  simp only [windowed, decode_of_zero ha, value_of_zero ha]
  rcases hb with hzb | ⟨f, hb, hf⟩
  · simp [decode_of_zero hzb, value_of_zero hzb, truncTo]
  · have hbf := hf.bounds
    rw [hb.decode_eq hf, if_neg (by omega), if_pos (by omega)]

lemma Normal.windowed_of_zero_right (σ : ℚ) (ha : Normal a e) (he : InLimits e)
    (hb : b.d = ⟨0, 0, .positive⟩) : windowed σ a b = a.value := by
  have hbe := he.bounds
  simp only [windowed, decode_of_zero hb, ha.decode_eq he]
  rw [if_pos (by omega)]

lemma Normal.windowed_negate (σ : ℚ) (hb : Normal b f) (hf : InLimits f) :
    windowed σ a b.negate = windowed (-σ) a b := by
  have htrunc : ∀ u : ℚ, truncTo u (-b.value) = -truncTo u b.value := by
    intro u
    have hnonneg := hb.magnitude_bounds.1
    have hx : 0 ≤ (BASE : ℚ) ^ f * mantissa BASE b.words := (zpow_pos base_pos f).le.trans hnonneg
    rw [hb.value_eq hf, ← neg_mul, ← factor_flipSign, truncTo_factor u hx, truncTo_factor u hx,
      factor_flipSign, neg_mul]
  simp only [windowed, (hb.negate hf).decode_eq hf, hb.decode_eq hf, hb.negate_value hf, htrunc,
    mul_neg, neg_mul]

lemma Ends.congr {Near' : Prop} {x : ℚ} (h : Ends cfg Near res x) (hiff : Near ↔ Near') :
    Ends cfg Near' res x := by
  rwa [← propext hiff]

/-- The value that is aimed at decides the value that is returned. -/
lemma Ends.value_eq {res' : Except Err ObNumber} {r r' : ObNumber} {x : ℚ}
    (h : Ends cfg Near res x) (h' : Ends cfg Near res' x) (hr : res = .ok r) (hr' : res' = .ok r') :
    r'.value = r.value := by
  have hzero : zero.value = 0 := value_of_zero rfl
  rcases h.ok r hr with ⟨rfl, hx⟩ | ⟨-, hten, hvalue, -⟩
  · rcases h'.ok r' hr' with ⟨rfl, -⟩ | ⟨-, hten, hvalue, -⟩
    · rfl
    · have hlow := hten.limits.bounds.1
      rw [hvalue, hzero]
      exact hx.resolve_right (not_lt.2 hlow)
  · have hlow := hten.limits.bounds.1
    rcases h'.ok r' hr' with ⟨rfl, hx⟩ | ⟨-, -, hvalue', -⟩
    · rw [hvalue, hzero]
      exact (hx.resolve_right (not_lt.2 hlow)).symm
    · rw [hvalue, hvalue']

/-- With memory, a value below the limit is returned. -/
lemma Ends.exists_ok {x : ℚ} (h : Ends cfg Near res x) (halloc : cfg.alloc = true)
    (hx : exponent x ≤ maxExp cfg.oracleMode) : ∃ r, res = .ok r := by
  cases hres : res with
  | ok r => exact ⟨r, rfl⟩
  | error err =>
    rcases h.error err hres with ⟨-, -, hbig⟩ | ⟨-, hno⟩
    · omega
    · rw [halloc] at hno
      cases hno

lemma Normalized.deepCopy_ends (h : Normalized n) (hfar : n.value ≠ 0 → ¬ Near) :
    Ends cfg Near (deepCopyV3 cfg n) n.value := by
  rcases h with hz | ⟨e, h, he⟩
  · rw [deepCopyV3, hz, value_of_zero hz]
    exact ends_zero
  · exact h.deepCopy_ends he (hfar (h.value_ne_zero he))

lemma Normalized.negate_ends (h : Normalized n) (hfar : n.value ≠ 0 → ¬ Near) :
    Ends cfg Near (negateV3 cfg n) (-n.value) := by
  rcases h with hz | ⟨e, h, he⟩
  · rw [negateV3, if_pos (isZero_of_zero hz), value_of_zero hz]
    exact ends_zero
  · exact h.negateV3_ends he (hfar (h.value_ne_zero he))

/-- The exponent that a zero decodes to is far from every other. -/
lemma Normalized.far_of_zero (h : Normalized n) (hne : n.value ≠ 0) :
    ¬ |(-64 : ℤ) - getDecodeExp n.d| < 9 := by
  rcases h with hz | ⟨e, h, he⟩
  · exact absurd (value_of_zero hz) hne
  · have hb := he.bounds
    rw [h.decode_eq he, abs_lt]
    omega

end Ends

/-- **Addition and subtraction without rounding.** -/
theorem addV3_subV3_unrounded (cfg : Config) (hcfg : cfg.doRounding = false) (a b : ObNumber)
    (ha : Normalized a) (hb : Normalized b) :
    Ends cfg (|getDecodeExp a.d - getDecodeExp b.d| < 9) (addV3 cfg a b) (windowed 1 a b)
      ∧ Ends cfg (|getDecodeExp a.d - getDecodeExp b.d| < 9) (subV3 cfg a b)
          (windowed (-1) a b) := by
  rcases ha with hza | ⟨e, hna, he⟩
  · rw [addV3_of_zero_left hza, subV3_of_zero_left hza, map_roundAfter hcfg, map_roundAfter hcfg,
      windowed_of_zero_left _ hza hb, windowed_of_zero_left _ hza hb, one_mul, neg_one_mul,
      decode_of_zero hza]
    exact ⟨hb.deepCopy_ends hb.far_of_zero, hb.negate_ends hb.far_of_zero⟩
  rcases hb with hzb | ⟨f, hnb, hf⟩
  · have hfar := Normalized.far_of_zero (.inr ⟨e, hna, he⟩) (hna.value_ne_zero he)
    rw [abs_sub_comm] at hfar
    rw [hna.addV3_of_zero_right hzb, hna.subV3_of_zero_right hzb, map_roundAfter hcfg,
      hna.windowed_of_zero_right _ he hzb, hna.windowed_of_zero_right _ he hzb, decode_of_zero hzb]
    exact ⟨hna.deepCopy_ends he hfar, hna.deepCopy_ends he hfar⟩
  have hnear : (e < f + 9 ∧ f < e + 9) ↔ |getDecodeExp a.d - getDecodeExp b.d| < 9 := by
    rw [hna.decode_eq he, hnb.decode_eq hf, abs_lt]
    omega
  rw [hna.addV3_eq hnb hf, hna.subV3_eq hnb hf]
  simp only [map_roundAfter hcfg]
  split_ifs with hs
  · exact ⟨(addSameSign_ends hna hnb he hf hs).congr hnear,
      (subSameSign_ends hna hnb he hf hs).congr hnear⟩
  · have hneg := hnb.negate hf
    have hsign : a.d.sign = b.negate.d.sign := by
      rw [hnb.negate_sign]
      exact flipSign_of_ne hs
    have hone : windowed 1 a b = windowed (-1) a b.negate := by
      rw [hnb.windowed_negate _ hf, neg_neg]
    rw [hone, ← hnb.windowed_negate _ hf]
    exact ⟨(subSameSign_ends hna hneg he hf hsign).congr hnear,
      (addSameSign_ends hna hneg he hf hsign).congr hnear⟩

/-- MySQL and strict mode, without rounding. -/
def unrounded : Config := ⟨false, true, false, true⟩

/-- `BASE - BASE ^ (-8)`, nine words of nines. -/
def nines : ObNumber := ⟨⟨9, 64, .positive⟩, List.replicate 9 999999999⟩

/-- Twice that number, in ten words. -/
def twiceNines : ObNumber :=
  ⟨⟨10, 65, .positive⟩, 1 :: List.replicate 8 999999999 ++ [999999998]⟩

lemma nines_normalized : Normalized nines := .inr ⟨0, by decide, by decide⟩

theorem addV3_subV3_unrounded_nines : Normalized nines ∧ unrounded.doRounding = false
      ∧ Ends unrounded (|getDecodeExp nines.d - getDecodeExp nines.d| < 9)
          (addV3 unrounded nines nines) (windowed 1 nines nines)
      ∧ Ends unrounded (|getDecodeExp nines.d - getDecodeExp nines.d| < 9)
          (subV3 unrounded nines nines) (windowed (-1) nines nines) :=
  ⟨nines_normalized, rfl,
    addV3_subV3_unrounded unrounded rfl nines nines nines_normalized nines_normalized⟩

/-- The carry of `add_v3` adds a tenth word, which no stored number has; and without memory there is
no result at all. -/
theorem addV3_ten_words :
    Normalized nines ∧ addV3 unrounded nines nines = .ok twiceNines ∧ ¬ Normalized twiceNines
      ∧ addV3 { unrounded with alloc := false } nines nines = .error .allocateMemoryFailed := by
  refine ⟨nines_normalized, ?_, ?_, ?_⟩
  · decide +kernel
  · rintro (hzero | ⟨e, hnormal, -⟩)
    · exact absurd hzero (by decide)
    · exact absurd hnormal.len_le (by decide)
  · decide +kernel

end OceanBase.Number
