import DailyReadCoding.OceanBase.Number.Unrounded

/-!
# Is arithmetic closed over the normalized numbers?

Every result of `add_v3`, `sub_v3` and `mul_v3` passes `exp_check_`, but it is rounded afterwards,
and the carry of that rounding can add a word in front.  `round_scale_v3_` then raises the exponent
without asking `exp_check_` again.
-/

namespace OceanBase.Number

open Positional ObNumber List

/-! ## Magnitudes in units of the last word -/

/-- The magnitude in whole units of `BASE^6`. -/
def ObNumber.units (n : ObNumber) : ℕ := ⌊|n.value| / (BASE : ℚ) ^ 6⌋₊

lemma floor_magnitude {W : List ℕ} (hW : Digits BASE W) (E : ℤ) :
    ⌊(BASE : ℚ) ^ E * mantissa BASE W / (BASE : ℚ) ^ 6⌋₊ = leading BASE (E - 5).toNat W := by
  have hb := base_pos
  rcases lt_or_ge 5 E with hE | hE
  · have hcut := floor_magnitude_cut hW E (E - 6).toNat
    rw [show E - ((E - 6).toNat : ℤ) = (6 : ℕ) by omega, zpow_natCast] at hcut
    rw [hcut]
    congr 1
    omega
  · rw [show (E - 5).toNat = 0 by omega, leading, Nat.floor_eq_zero]
    have hpow : (BASE : ℚ) ^ (E + 1) ≤ (BASE : ℚ) ^ (6 : ℤ) :=
      zpow_le_zpow_right₀ one_le_base (by omega)
    have hlt : (BASE : ℚ) ^ E * mantissa BASE W < (BASE : ℚ) ^ (E + 1) := by
      rw [zpow_add_one₀ hb.ne']
      exact mul_lt_mul_of_pos_left (mantissa_lt base_pos_nat hW) (zpow_pos hb E)
    rw [div_lt_one (by positivity)]
    exact hlt.trans_le hpow

section Units

variable {n : ObNumber} {e : ℤ}

lemma Normal.units_eq (h : Normal n e) (he : InLimits e) :
    n.units = leading BASE (e - 5).toNat n.words := by
  rw [units, h.abs_value he, floor_magnitude h.digits]

lemma units_of_zero (h : n.d = ⟨0, 0, .positive⟩) : n.units = 0 := by
  rw [units, value_of_zero h]
  simp

lemma Normal.units_lt (h : Normal n e) (he : InLimits e) : n.units < BASE ^ (e - 5).toNat := by
  rw [h.units_eq he]
  exact leading_lt base_pos_nat _ h.digits

/-- A magnitude is from `carryBound` on and below the next power exactly if its exponent is the
largest and its first nine words are. -/
lemma carryBound_le_leading_iff {W : List ℕ} (hW : Digits BASE W) (hne : W ≠ [])
    (hfirst : W.head? ≠ some 0) (E : ℤ) : (E = 14 ∧ carryBound ≤ leading BASE 9 W)
      ↔ carryBound ≤ leading BASE (E - 5).toNat W ∧ leading BASE (E - 5).toNat W < BASE ^ 9 := by
  have hlt := leading_lt base_pos_nat (E - 5).toNat hW
  rcases lt_trichotomy E 14 with hE | rfl | hE
  · have hpow : BASE ^ (E - 5).toNat ≤ BASE ^ 8 := Nat.pow_le_pow_right base_pos_nat (by omega)
    have hbound : BASE ^ 8 < carryBound := by norm_num [carryBound, BASE]
    constructor
    · omega
    · omega
  · rw [show ((14 : ℤ) - 5).toNat = 9 from rfl] at hlt ⊢
    simp [hlt]
  · obtain ⟨k, hk⟩ : ∃ k, (E - 5).toNat = k + 9 + 1 := ⟨(E - 15).toNat, by omega⟩
    cases W with
    | nil => exact absurd rfl hne
    | cons d ds =>
      have hd : 0 < d := pos_of_ne_zero (by simpa using hfirst)
      have hge : BASE ^ (k + 9) ≤ leading BASE (k + 9 + 1) (d :: ds) := pow_le_leading hd
      have hpow : BASE ^ 9 ≤ BASE ^ (k + 9) := Nat.pow_le_pow_right base_pos_nat (by omega)
      rw [hk]
      constructor
      · omega
      · omega

end Units

/-! ## What is handed to the rounding -/

/-- A computation that, as far as memory and limits allow, hands over the words `ws` with exponent
`e`. -/
structure Hands (cfg : Config) (res : Except Err ObNumber) (e : ℤ) (ws : List ℕ) : Prop where
  ok : cfg.alloc = true → InLimits e → ∃ n, res = .ok n ∧ Raw n e ∧ n.words = ws
  only : ∀ n, res = .ok n → n.d = ⟨0, 0, .positive⟩
    ∨ (cfg.alloc = true ∧ InLimits e ∧ Raw n e ∧ n.words = ws)

/-- Every number that a computation returns is normalized. -/
def Closed (res : Except Err ObNumber) : Prop := ∀ r, res = .ok r → Normalized r

lemma closed_map {res : Except Err ObNumber} {g : ObNumber → ObNumber} :
    Closed (res.map g) ↔ ∀ n, res = .ok n → Normalized (g n) := by
  cases res with
  | error err => simp [Closed, Except.map]
  | ok n => simp [Closed, Except.map]

section Hands

variable {cfg : Config} {n : ObNumber} {e : ℤ} {ws : List ℕ} {res : Except Err ObNumber}

/-- The exponent of a number in normal form decides whether it is normalized. -/
lemma Normal.normalized_iff (h : Normal n e) (hlo : -63 ≤ e) (hhi : e < 64) :
    Normalized n ↔ InLimits e := by
  constructor
  · rintro (hz | ⟨f, hf, hlim⟩)
    · have := h.len_pos
      rw [hz] at this
      cases this
    · have h1 := getDecodeExp_calcExp hlo hhi n.d.len n.d.sign
      have h2 := hf.decode_eq hlim
      rw [← h.exp_eq] at h1
      rwa [← h1, h2]
  · exact fun he => .inr ⟨e, h, he⟩

lemma inLimits_round_iff (he : InLimits e) (c : Prop) [Decidable c] :
    InLimits (if c then e + 1 else e) ↔ ¬ (e = 14 ∧ c) := by
  have hb := he.bounds
  simp only [InLimits, MAX_DECIMAL_EXP, MAX_INTEGER_EXP]
  split_ifs with hc
  · simp only [hc, and_true]
    omega
  · simp only [hc, and_false, not_false_iff, iff_true]
    exact hb

section

variable (horacle : cfg.oracleMode = false)

include horacle

lemma Raw.normalized_round_iff (hround : cfg.doRounding = true) (h : Raw n e) (he : InLimits e) :
    Normalized (roundAfter cfg n) ↔ ¬ (e = 14 ∧ carryBound ≤ leading BASE 9 n.words) := by
  have hb := he.bounds
  obtain ⟨-, -, -, hnormal⟩ := h.roundAfter_spec horacle hround he
  rw [hnormal.normalized_iff (by split_ifs <;> omega) (by split_ifs <;> omega),
    inLimits_round_iff he]

/-- Rounding once more, as an addition carried out as a subtraction does, makes no difference. -/
lemma Raw.normalized_round_round_iff
    (hround : cfg.doRounding = true) (h : Raw n e) (he : InLimits e) :
    Normalized (roundAfter cfg (roundAfter cfg n))
      ↔ ¬ (e = 14 ∧ carryBound ≤ leading BASE 9 n.words) := by
  obtain ⟨-, hsmall, hshort, hnormal⟩ := h.roundAfter_spec horacle hround he
  rw [← h.normalized_round_iff horacle hround he]
  rcases lt_or_ge (leading BASE 9 n.words) carryBound with hlt | hge
  · rw [if_neg (not_le.2 hlt)] at hnormal
    rw [hnormal.raw.normalized_round_iff horacle hround he]
    refine ⟨fun _ => .inr ⟨e, hnormal, he⟩, fun _ hand => ?_⟩
    exact absurd hand.2 (not_le.2 hsmall)
  · rw [roundAfter_of_short horacle (n := roundAfter cfg n) (by rw [hshort hge]; omega)]

lemma normalized_round_of_zero (h : n.d = ⟨0, 0, .positive⟩) : roundAfter cfg n = n := by
  refine roundAfter_of_short horacle ?_
  rw [h]
  simp

/-- Rounding what is handed over gives normalized numbers exactly if no carry escapes. -/
lemma Hands.closed_iff (hround : cfg.doRounding = true) (h : Hands cfg res e ws) :
    Closed (res.map (roundAfter cfg))
      ↔ (cfg.alloc = true → ¬ (e = 14 ∧ carryBound ≤ leading BASE 9 ws)) := by
  rw [closed_map]
  constructor
  · rintro hall halloc ⟨rfl, hge⟩
    obtain ⟨n, hres, hraw, hwords⟩ := h.ok halloc (by decide)
    have := (hraw.normalized_round_iff horacle hround (by decide)).1 (hall n hres)
    exact this ⟨rfl, hwords ▸ hge⟩
  · intro hcond n hres
    rcases h.only n hres with hz | ⟨halloc, he, hraw, hwords⟩
    · rw [normalized_round_of_zero horacle hz]
      exact .inl hz
    · rw [hraw.normalized_round_iff horacle hround he, hwords]
      exact hcond halloc

lemma Hands.closed_twice_iff (hround : cfg.doRounding = true) (h : Hands cfg res e ws) :
    Closed ((res.map (roundAfter cfg)).map (roundAfter cfg))
      ↔ (cfg.alloc = true → ¬ (e = 14 ∧ carryBound ≤ leading BASE 9 ws)) := by
  rw [← h.closed_iff horacle hround, closed_map, closed_map]
  cases res with
  | error err => simp [Except.map]
  | ok n =>
    simp only [Except.map, Except.ok.injEq, forall_eq']
    rcases h.only n rfl with hz | ⟨halloc, he, hraw, hwords⟩
    · rw [normalized_round_of_zero horacle hz, normalized_round_of_zero horacle hz]
    · rw [hraw.normalized_round_round_iff horacle hround he,
        hraw.normalized_round_iff horacle hround he]

end

end Hands

/-! ## What the functions hand over -/

section Checked

variable {cfg : Config} {n : ObNumber} {e : ℤ}

lemma hands_assignChecked (horacle : cfg.oracleMode = false) {sign : Sign} {E : ℤ}
    {ws ds : List ℕ} (hlo : -63 ≤ E) (hhi : E < 64) (htake : ds.take ws.length = ws)
    (hne : ws ≠ []) (hlen : ws.length ≤ 10) (hdigits : Digits BASE ws)
    (hfirst : ws.head? ≠ some 0) (hlast : ws.length < 9 → Trimmed ws) :
    Hands cfg (withBuffer cfg (assignChecked cfg sign E ws.length ds)) E ws := by
  have hraw : ∀ n : ObNumber, n.d = calcDesc sign E ws.length → n.d.len ≤ n.digits.length →
      n.words = ws → Raw n E := by
    intro n hd hstored hwords
    have hdlen : n.d.len = ws.length := by rw [hd, calcDesc]
    exact ⟨by rw [hdlen]; exact length_pos_of_ne_nil hne, by rw [hdlen]; exact hlen, hstored,
      by rwa [hwords], by rwa [hwords], by rw [hwords, hdlen]; exact hlast, by rw [hd, calcDesc]⟩
  have h : Assigned cfg (withBuffer cfg (assignChecked cfg sign E ws.length ds)) sign E ws :=
    assigned_assignChecked hlo hhi htake
  have hmax : maxExp cfg.oracleMode = 14 := by rw [horacle]; rfl
  constructor
  · intro halloc he
    have hb := he.bounds
    cases hres : withBuffer cfg (assignChecked cfg sign E ws.length ds) with
    | error err =>
      rcases h.error err hres with ⟨-, hbig⟩ | ⟨-, hno⟩
      · omega
      · rw [halloc] at hno
        cases hno
    | ok n =>
      rcases h.ok n hres with ⟨hsmall, -⟩ | ⟨-, -, -, hd, hstored, hwords⟩
      · omega
      · exact ⟨n, rfl, hraw n hd hstored hwords, hwords⟩
  · intro n hn
    rcases h.ok n hn with ⟨-, rfl⟩ | ⟨hlow, hhigh, halloc, hd, hstored, hwords⟩
    · exact .inl rfl
    · exact .inr ⟨halloc, ⟨hlow, by rw [hmax] at hhigh; exact hhigh⟩, hraw n hd hstored hwords,
        hwords⟩

lemma GoodWords.hands {k : ℕ} {ws ds : List ℕ} {E : ℤ} (h : GoodWords k ws)
    (horacle : cfg.oracleMode = false) (sign : Sign) (hk : k ≤ 10) (hlo : -63 ≤ E) (hhi : E < 64)
    (htake : ds.take ws.length = ws) :
    Hands cfg (withBuffer cfg (assignChecked cfg sign E ws.length ds)) E ws :=
  hands_assignChecked horacle hlo hhi htake h.ne_nil (h.length_le.trans hk) h.digits h.first
    fun _ => h.last

lemma hands_zero : Hands cfg (.ok zero) 64 [] where
  ok _ he := absurd he (by decide)
  only n hn := by
    cases hn
    exact .inl rfl

lemma Normal.hands_deepCopy (h : Normal n e) (he : InLimits e) :
    Hands cfg (deepCopyV3 cfg n) e n.words := by
  have hpos := h.len_pos
  have hle := h.len_le
  have hwords : words ⟨n.d, n.words⟩ = n.words := by rw [words, ← h.length_eq, take_length]
  have hraw : Raw ⟨n.d, n.words⟩ e :=
    ⟨hpos, by rw [MAX_STORE_LEN] at hle; exact hle.trans (by decide), h.length_eq.ge,
      by rw [hwords]; exact h.digits, by rw [hwords]; exact h.first,
      fun _ => by rw [hwords]; exact h.last, h.exp_eq⟩
  rw [deepCopyV3, if_neg hpos.ne', if_neg (by rw [MAX_CALC_LEN]; rw [MAX_STORE_LEN] at hle; omega)]
  constructor
  · intro halloc _
    rw [if_pos halloc]
    exact ⟨_, rfl, hraw, hwords⟩
  · intro m hm
    split_ifs at hm with halloc
    cases hm
    exact .inr ⟨halloc, he, hraw, hwords⟩

end Checked

/-! ## When a carry escapes -/

/-- What is handed over escapes the limits when it is rounded exactly if `P` holds. -/
def EscapesIff (cfg : Config) (res : Except Err ObNumber) (P : Prop) : Prop :=
  ∃ e ws, Hands cfg res e ws ∧ ((e = 14 ∧ carryBound ≤ leading BASE 9 ws) ↔ P)

section Escapes

variable {cfg : Config} {a b n : ObNumber} {e f : ℤ} {P Q : Prop}

lemma pow_eight_lt_carryBound : 2 * BASE ^ 8 < carryBound := by norm_num [carryBound, BASE]

lemma EscapesIff.congr {res : Except Err ObNumber} (h : EscapesIff cfg res P) (hPQ : P ↔ Q) :
    EscapesIff cfg res Q := by
  obtain ⟨e, ws, hands, hiff⟩ := h
  exact ⟨e, ws, hands, hiff.trans hPQ⟩

lemma escapesIff_zero (hP : ¬ P) : EscapesIff cfg (.ok zero) P := ⟨64, [], hands_zero, by simp [hP]⟩

lemma Normalized.units_lt (h : Normalized n) : n.units < BASE ^ 9 := by
  rcases h with hz | ⟨e, hn, he⟩
  · rw [units_of_zero hz]
    exact Nat.pow_pos base_pos_nat
  · have hb := he.bounds
    exact (hn.units_lt he).trans_le (Nat.pow_le_pow_right base_pos_nat (by omega))

lemma Normal.units_negate (h : Normal n e) (he : InLimits e) : n.negate.units = n.units := by
  rw [(h.negate he).units_eq he, h.units_eq he, h.negate_words he]

lemma Normal.deepCopy_escapes (h : Normal n e) (he : InLimits e) :
    EscapesIff cfg (deepCopyV3 cfg n) (carryBound ≤ n.units) := by
  refine ⟨e, n.words, h.hands_deepCopy he, ?_⟩
  have hlt := Normalized.units_lt (.inr ⟨e, h, he⟩)
  rw [h.units_eq he] at hlt ⊢
  rw [carryBound_le_leading_iff h.digits h.goodWords.ne_nil h.first e]
  exact and_iff_left hlt

lemma Normalized.deepCopy_escapes (h : Normalized n) :
    EscapesIff cfg (deepCopyV3 cfg n) (carryBound ≤ n.units) := by
  rcases h with hz | ⟨e, hn, he⟩
  · rw [deepCopyV3, hz, units_of_zero hz]
    exact escapesIff_zero (by norm_num [carryBound, BASE])
  · exact hn.deepCopy_escapes he

lemma Normalized.negate_escapes (h : Normalized n) :
    EscapesIff cfg (negateV3 cfg n) (carryBound ≤ n.units) := by
  rcases h with hz | ⟨e, hn, he⟩
  · rw [negateV3, if_pos (by rw [isZero, hz]; rfl), units_of_zero hz]
    exact escapesIff_zero (by norm_num [carryBound, BASE])
  · rw [hn.negateV3_eq he, ← hn.units_negate he]
    exact (hn.negate he).deepCopy_escapes he

/-- Under the largest exponent the window of nine words shows a number in units of `BASE^6`. -/
lemma Normal.window_eq_units (h : Normal n e) (he : InLimits e) :
    leading BASE 9 (shifted ((14 : ℤ) - e).toNat n.words) = n.units := by
  have hb := he.bounds
  rw [h.units_eq he, leading_shifted]
  congr 1
  omega

lemma Normal.window_lt (h : Normal n e) (M : ℤ) :
    leading BASE 9 (shifted (M - e).toNat n.words) < BASE ^ 9 :=
  leading_lt base_pos_nat 9 (digits_shifted h.digits _)

lemma Normal.units_lt_pow_eight (h : Normal n e) (he : InLimits e) (hlt : e < 14) :
    n.units < BASE ^ 8 :=
  (h.units_lt he).trans_le (Nat.pow_le_pow_right base_pos_nat (by omega))

lemma Normal.units_eq_zero (h : Normal n e) (he : InLimits e) (hle : e ≤ 5) : n.units = 0 := by
  rw [h.units_eq he, show (e - 5).toNat = 0 by omega, leading]

section

variable (horacle : cfg.oracleMode = false) (ha : Normal a e) (hb : Normal b f) (he : InLimits e)
  (hf : InLimits f)

include horacle ha hb he hf

lemma addSameSign_escapes : EscapesIff cfg (addSameSign cfg a b)
      (carryBound ≤ a.units + b.units ∧ a.units + b.units < BASE ^ 9) := by
  have hbe := he.bounds
  have hbf := hf.bounds
  have hunitsA := Normalized.units_lt (.inr ⟨e, ha, he⟩)
  have hunitsB := Normalized.units_lt (.inr ⟨f, hb, hf⟩)
  have hsmall := pow_eight_lt_carryBound
  rw [addSameSign, ha.decode_eq he, hb.decode_eq hf, show OB_MAX_DECIMAL_DIGIT = 9 from rfl]
  rcases le_or_gt (f + 9) e with hfar | hef
  · rw [if_pos hfar, hb.units_eq_zero hf (by omega)]
    exact (ha.deepCopy_escapes he).congr (by omega)
  rw [if_neg (not_le.2 hef)]
  rcases le_or_gt (e + 9) f with hfar | hfe
  · rw [if_pos hfar, ha.units_eq_zero he (by omega)]
    exact (hb.deepCopy_escapes hf).congr (by omega)
  rw [if_neg (not_le.2 hfe)]
  obtain ⟨E, ws, ds, heq, htake, hgood, hvalue⟩ := addAligned_eq cfg ha hb he hf hef hfe
  rw [heq]
  refine ⟨E, ws, hgood.hands horacle _ le_rfl (by omega) (by omega) htake, ?_⟩
  have hwords := leading_lt base_pos_nat 9 hgood.digits
  have hlast : leading BASE 10 ws = leading BASE 9 ws * BASE + ws.getD 9 0 :=
    leading_succ_last BASE 9 ws
  rcases eq_or_ne (max e f) 14 with hmax | hmax
  · rw [hmax, ha.window_eq_units he, hb.window_eq_units hf] at hvalue
    rcases hvalue with ⟨rfl, -, hsum⟩ | ⟨rfl, hsum⟩
    · rw [← hsum]
      simp [hwords]
    · -- the sum has ten words, so it is past the window
      have hge : BASE ^ 9 ≤ leading BASE 10 ws := by
        cases ws with
        | nil => exact absurd rfl hgood.ne_nil
        | cons d ds => exact pow_le_leading (pos_of_ne_zero (by simpa using hgood.first))
      omega
  · have hA := ha.units_lt_pow_eight he (by omega)
    have hB := hb.units_lt_pow_eight hf (by omega)
    have hwindowA := ha.window_lt (max e f)
    have hwindowB := hb.window_lt (max e f)
    rcases hvalue with ⟨rfl, -, hsum⟩ | ⟨rfl, hsum⟩
    · omega
    · have hlt : leading BASE 9 ws < 2 * BASE ^ 8 := by
        refine lt_of_mul_lt_mul_right ?_ base_pos_nat.le
        have hpow : 2 * BASE ^ 8 * BASE = BASE ^ 9 + BASE ^ 9 := by ring
        omega
      omega

lemma subSameSign_escapes (hs : a.d.sign = b.d.sign) :
    EscapesIff cfg (subSameSign cfg a b) (carryBound ≤ ((a.units : ℤ) - b.units).natAbs) := by
  have hbe := he.bounds
  have hbf := hf.bounds
  have hsmall := pow_eight_lt_carryBound
  rw [subSameSign, ha.decode_eq he, hb.decode_eq hf, show OB_MAX_DECIMAL_DIGIT = 9 from rfl]
  rcases le_or_gt (f + 9) e with hfar | hef
  · rw [if_pos hfar, hb.units_eq_zero hf (by omega)]
    exact (ha.deepCopy_escapes he).congr (by omega)
  rw [if_neg (not_le.2 hef)]
  rcases le_or_gt (e + 9) f with hfar | hfe
  · rw [if_pos hfar, ha.units_eq_zero he (by omega)]
    exact (Normalized.negate_escapes (.inr ⟨f, hb, hf⟩)).congr (by omega)
  rw [if_neg (not_le.2 hfe)]
  rcases subAligned_eq cfg ha hb he hf hs hef hfe with
    ⟨heq, rfl, hwords⟩ | ⟨z, ws, ds, sign, heq, htake, hgood, hz, hvalue⟩
  · rw [heq, ha.units_eq he, hb.units_eq hf, hwords]
    exact escapesIff_zero (by simp; omega)
  rw [heq]
  refine ⟨_, ws, hgood.hands horacle _ (by omega) (by omega) (by omega) htake, ?_⟩
  rcases eq_or_ne (max e f) 14 with hmax | hmax
  · rw [hmax, ha.window_eq_units he, hb.window_eq_units hf] at hvalue
    have hdiff : ((a.units : ℤ) - b.units).natAbs = leading BASE (9 - z) ws := by omega
    rw [hdiff, hmax]
    cases z with
    | zero => simp
    | succ z =>
      have hlt := leading_lt base_pos_nat (9 - (z + 1)) hgood.digits
      have hpow : BASE ^ (9 - (z + 1)) ≤ BASE ^ 8 := Nat.pow_le_pow_right base_pos_nat (by omega)
      omega
  · have hA := ha.units_lt_pow_eight he (by omega)
    have hB := hb.units_lt_pow_eight hf (by omega)
    omega

lemma mulFinish_escapes (sign : Sign) : EscapesIff cfg (mulFinish cfg sign (e + f) (mulWords a b))
      (carryBound ≤ ⌊|a.value * b.value| / (BASE : ℚ) ^ 6⌋₊
        ∧ ⌊|a.value * b.value| / (BASE : ℚ) ^ 6⌋₊ < BASE ^ 9) := by
  have hbe := he.bounds
  have hbf := hf.bounds
  obtain ⟨E, W, ds, heq, htake, hdigits, hne, hfirst, hE, hvalue⟩ := mulFinish_eq cfg sign ha hb
  have hunits : ⌊|a.value * b.value| / (BASE : ℚ) ^ 6⌋₊ = leading BASE (E - 5).toNat W := by
    rw [abs_mul, ha.abs_value he, hb.abs_value hf, ← hvalue, floor_magnitude hdigits]
  have hwords : leading BASE 9 ((trim W).take 9) = leading BASE 9 W := by
    rw [leading_take le_rfl, leading_trim]
  have hhead : ((trim W).take 9).head? ≠ some 0 := by
    rw [head?_take]
    exact head_trim hfirst
  have htrim : trim W ≠ [] := by
    cases W with
    | nil => exact absurd rfl hne
    | cons d ds =>
      rw [trim_cons_of_ne fun h => hfirst (by rw [h.2]; rfl)]
      exact cons_ne_nil _ _
  rw [heq, hunits]
  refine ⟨E, (trim W).take 9, ?_, ?_⟩
  · refine hands_assignChecked horacle (by omega) (by omega) htake ?_ ?_ ?_ hhead ?_
    · simpa using htrim
    · rw [length_take]
      omega
    · exact fun d hd => digits_trim hdigits d (mem_of_mem_take hd)
    · intro hshort
      rw [length_take] at hshort
      rw [take_of_length_le (by omega)]
      exact trimmed_trim W
  · rw [hwords]
    exact carryBound_le_leading_iff hdigits hne hfirst E

end

end Escapes

/-! ## Operations and sequences of them -/

inductive Op
  | add
  | sub
  | mul
  deriving DecidableEq, Repr

namespace Op

def apply (cfg : Config) : Op → ObNumber → ObNumber → Except Err ObNumber
  | add => addV3 cfg
  | sub => subV3 cfg
  | mul => mulV3 cfg

/-- The sum fills the nine words under the largest exponent, and all of them round up. -/
def SumEscapes (a b : ObNumber) : Prop :=
  carryBound ≤ a.units + b.units ∧ a.units + b.units < BASE ^ 9

/-- As `SumEscapes`, for the difference, which is never too large. -/
def DifferenceEscapes (a b : ObNumber) : Prop := carryBound ≤ ((a.units : ℤ) - b.units).natAbs

/-- The operands whose result is within the limits of `exp_check_` but not after rounding. -/
def Escapes : Op → ObNumber → ObNumber → Prop
  | add, a, b => if a.d.sign = b.d.sign then SumEscapes a b else DifferenceEscapes a b
  | sub, a, b => if a.d.sign = b.d.sign then DifferenceEscapes a b else SumEscapes a b
  | mul, a, b =>
    carryBound ≤ ⌊|a.value * b.value| / (BASE : ℚ) ^ 6⌋₊
      ∧ ⌊|a.value * b.value| / (BASE : ℚ) ^ 6⌋₊ < BASE ^ 9

end Op

section Closed

variable {cfg : Config} {a b : ObNumber} {P Q : Prop}

lemma EscapesIff.closed_iff {res : Except Err ObNumber} (horacle : cfg.oracleMode = false)
    (hround : cfg.doRounding = true) (h : EscapesIff cfg res P) :
    Closed (res.map (roundAfter cfg)) ↔ (cfg.alloc = true → ¬ P) := by
  obtain ⟨e, ws, hands, hiff⟩ := h
  rw [hands.closed_iff horacle hround, hiff]

lemma EscapesIff.closed_twice_iff {res : Except Err ObNumber} (horacle : cfg.oracleMode = false)
    (hround : cfg.doRounding = true) (h : EscapesIff cfg res P) :
    Closed ((res.map (roundAfter cfg)).map (roundAfter cfg)) ↔ (cfg.alloc = true → ¬ P) := by
  obtain ⟨e, ws, hands, hiff⟩ := h
  rw [hands.closed_twice_iff horacle hround, hiff]

/-- If one operand is zero, sum and difference escape with the other operand. -/
lemma Op.escapes_of_zero (ha : Normalized a) (hb : Normalized b)
    (hzero : a.units = 0 ∨ b.units = 0) : (Op.add.Escapes a b ↔ carryBound ≤ a.units + b.units)
      ∧ (Op.sub.Escapes a b ↔ carryBound ≤ a.units + b.units) := by
  have hA := ha.units_lt
  have hB := hb.units_lt
  simp only [Op.Escapes, Op.SumEscapes, Op.DifferenceEscapes]
  split_ifs with hs <;> omega

section

variable (horacle : cfg.oracleMode = false) (hround : cfg.doRounding = true) (ha : Normalized a)
  (hb : Normalized b)

include horacle hround ha hb

lemma addV3_closed_iff : Closed (addV3 cfg a b) ↔ (cfg.alloc = true → ¬ Op.add.Escapes a b) := by
  rcases ha with hza | ⟨e, hna, he⟩
  · have hone := Op.escapes_of_zero (.inl hza) hb (.inl (units_of_zero hza))
    rw [addV3_of_zero_left hza, hone.1, units_of_zero hza, zero_add]
    exact hb.deepCopy_escapes.closed_iff horacle hround
  rcases hb with hzb | ⟨f, hnb, hf⟩
  · have hone := Op.escapes_of_zero (.inr ⟨e, hna, he⟩) (.inl hzb) (.inr (units_of_zero hzb))
    rw [hna.addV3_of_zero_right hzb, hone.1, units_of_zero hzb]
    exact (hna.deepCopy_escapes he).closed_iff horacle hround
  rw [hna.addV3_eq hnb hf, Op.Escapes]
  split_ifs with hs
  · exact (addSameSign_escapes horacle hna hnb he hf).closed_iff horacle hround
  · -- the call of `sub_v3` rounds once and `add_v3` once more
    have hsign : a.d.sign = b.negate.d.sign := by
      rw [hnb.negate_sign]
      exact flipSign_of_ne hs
    rw [Op.DifferenceEscapes, ← hnb.units_negate hf]
    exact (subSameSign_escapes horacle hna
      (hnb.negate hf) he hf hsign).closed_twice_iff horacle hround

lemma subV3_closed_iff : Closed (subV3 cfg a b) ↔ (cfg.alloc = true → ¬ Op.sub.Escapes a b) := by
  rcases ha with hza | ⟨e, hna, he⟩
  · have hone := Op.escapes_of_zero (.inl hza) hb (.inl (units_of_zero hza))
    rw [subV3_of_zero_left hza, hone.2, units_of_zero hza, zero_add]
    exact hb.negate_escapes.closed_iff horacle hround
  rcases hb with hzb | ⟨f, hnb, hf⟩
  · have hone := Op.escapes_of_zero (.inr ⟨e, hna, he⟩) (.inl hzb) (.inr (units_of_zero hzb))
    rw [hna.subV3_of_zero_right hzb, hone.2, units_of_zero hzb]
    exact (hna.deepCopy_escapes he).closed_iff horacle hround
  rw [hna.subV3_eq hnb hf, Op.Escapes]
  split_ifs with hs
  · exact (subSameSign_escapes horacle hna hnb he hf hs).closed_iff horacle hround
  · rw [Op.SumEscapes, ← hnb.units_negate hf]
    exact (addSameSign_escapes horacle hna (hnb.negate hf) he hf).closed_twice_iff horacle hround

lemma mulV3_closed_iff : Closed (mulV3 cfg a b) ↔ (cfg.alloc = true → ¬ Op.mul.Escapes a b) := by
  have hnot : a.value * b.value = 0 → ¬ Op.mul.Escapes a b := by
    intro hzero
    rw [Op.Escapes, hzero]
    norm_num [carryBound, BASE]
  rw [mulV3]
  rcases ha with hza | ⟨e, hna, he⟩
  · rw [if_pos (.inl (isZero_of_zero hza))]
    exact (escapesIff_zero (hnot (by rw [value_of_zero hza, zero_mul]))).closed_iff horacle hround
  rcases hb with hzb | ⟨f, hnb, hf⟩
  · rw [if_pos (.inr (isZero_of_zero hzb))]
    exact (escapesIff_zero (hnot (by rw [value_of_zero hzb, mul_zero]))).closed_iff horacle hround
  rw [if_neg (by rw [hna.isZero_eq, hnb.isZero_eq]; simp), hna.decode_eq he, hnb.decode_eq hf]
  exact (mulFinish_escapes horacle hna hnb he hf _).closed_iff horacle hround

lemma Op.apply_closed_iff : ∀ op : Op,
    Closed (op.apply cfg a b) ↔ (cfg.alloc = true → ¬ op.Escapes a b)
  | .add => addV3_closed_iff horacle hround ha hb
  | .sub => subV3_closed_iff horacle hround ha hb
  | .mul => mulV3_closed_iff horacle hround ha hb

end

end Closed

/-- The calls in question: MySQL mode, with rounding. -/
def Config.MySQL (cfg : Config) : Prop := cfg.oracleMode = false ∧ cfg.doRounding = true

/-- One call in a sequence, on two of the numbers there are. -/
structure Call where
  cfg : Config
  op : Op
  left : ℕ
  right : ℕ
  deriving DecidableEq, Repr

namespace Call

def operand (numbers : List ObNumber) (i : ℕ) : ObNumber := numbers.getD i zero

def result (c : Call) (numbers : List ObNumber) : Except Err ObNumber :=
  c.op.apply c.cfg (operand numbers c.left) (operand numbers c.right)

/-- A successful call adds its result to the numbers. -/
def step (c : Call) (numbers : List ObNumber) : List ObNumber :=
  match c.result numbers with
  | .ok r => r :: numbers
  | .error _ => numbers

def run (numbers : List ObNumber) : List Call → List ObNumber
  | [] => numbers
  | c :: cs => run (c.step numbers) cs

/-- The call does not escape: it finds no memory, or its operands do not. -/
def Contained (c : Call) (numbers : List ObNumber) : Prop :=
  c.cfg.MySQL ∧ (c.cfg.alloc = true →
    ¬ c.op.Escapes (operand numbers c.left) (operand numbers c.right))

/-- No call of a sequence escapes. -/
def AllContained (numbers : List ObNumber) : List Call → Prop
  | [] => True
  | c :: cs => c.Contained numbers ∧ AllContained (c.step numbers) cs

lemma operand_normalized {numbers : List ObNumber} (h : ∀ n ∈ numbers, Normalized n) (i : ℕ) :
    Normalized (operand numbers i) := by
  rw [operand, getD_eq_getElem?_getD]
  cases hget : numbers[i]? with
  | none => exact .inl rfl
  | some n => exact h n (mem_of_getElem? hget)

lemma step_normalized {c : Call} {numbers : List ObNumber} (hc : c.Contained numbers)
    (h : ∀ n ∈ numbers, Normalized n) : ∀ n ∈ c.step numbers, Normalized n := by
  have hclosed : Closed (c.result numbers) :=
    (Op.apply_closed_iff hc.1.1 hc.1.2 (operand_normalized h c.left)
      (operand_normalized h c.right) c.op).2 hc.2
  rw [step]
  cases hres : c.result numbers with
  | error err => exact h
  | ok r => exact forall_mem_cons.2 ⟨hclosed r hres, h⟩

lemma run_normalized {calls : List Call} : ∀ {numbers : List ObNumber},
    AllContained numbers calls → (∀ n ∈ numbers, Normalized n) →
      ∀ n ∈ run numbers calls, Normalized n := by
  induction calls with
  | nil => exact fun _ h => h
  | cons c cs ih => exact fun hall h => ih hall.2 (step_normalized hall.1 h)

end Call

/-- **Closure.**  A call on normalized numbers returns normalized numbers only, exactly if it finds
no memory or its operands do not escape; and a sequence of such calls stays within the normalized
numbers. -/
theorem arithmetic_closed_iff (cfg : Config) (hcfg : cfg.MySQL) (op : Op) (a b : ObNumber)
    (ha : Normalized a) (hb : Normalized b) (numbers : List ObNumber)
    (hnumbers : ∀ n ∈ numbers, Normalized n) :
    ((∀ r, op.apply cfg a b = .ok r → Normalized r) ↔ (cfg.alloc = true → ¬ op.Escapes a b))
      ∧ ∀ calls : List Call, Call.AllContained numbers calls →
        ∀ n ∈ Call.run numbers calls, Normalized n :=
  ⟨Op.apply_closed_iff hcfg.1 hcfg.2 ha hb op, fun _ hall => Call.run_normalized hall hnumbers⟩

def mysql : Config := ⟨false, false, true, true⟩

/-- `0.333…` to 81 places. -/
def third : ObNumber := ⟨⟨9, 63, .positive⟩, replicate 9 333333333⟩

/-- `0.666…` rounded to 72 places, with what the rounding leaves behind the words in use. -/
def twoThirds : ObNumber :=
  ⟨⟨8, 63, .positive⟩, replicate 7 666666666 ++ [666666667, 1000000000]⟩

/-- The difference of the two, rounded as well. -/
def roundedThird : ObNumber :=
  ⟨⟨8, 63, .positive⟩, replicate 7 333333333 ++ [333333334, 1000000000]⟩

/-- Sums and differences of small numbers do not escape. -/
lemma Op.not_escapes_of_small {a b : ObNumber} {e f : ℤ} (ha : Normal a e) (hb : Normal b f)
    (he : InLimits e) (hf : InLimits f) (he5 : e ≤ 5) (hf5 : f ≤ 5) :
    ¬ Op.add.Escapes a b ∧ ¬ Op.sub.Escapes a b := by
  have hunits : a.units = 0 ∧ b.units = 0 := ⟨ha.units_eq_zero he he5, hb.units_eq_zero hf hf5⟩
  have hbound : ¬ carryBound ≤ 0 := by norm_num [carryBound, BASE]
  constructor <;> rw [Op.Escapes] <;> split_ifs <;>
    simp [Op.SumEscapes, Op.DifferenceEscapes, hunits, hbound]

/-- A sum is rounded, and both operands are used with it again. -/
theorem arithmetic_closed_thirds : addV3 mysql third third = .ok twoThirds ∧ Normalized twoThirds ∧
      Call.run [third] [⟨mysql, .add, 0, 0⟩, ⟨mysql, .sub, 0, 1⟩] = [roundedThird,
      twoThirds, third] ∧
      ∀ n ∈ Call.run [third] [⟨mysql, .add, 0, 0⟩, ⟨mysql, .sub, 0, 1⟩, ⟨mysql, .add, 1, 2⟩],
        Normalized n := by
  have hthird : Normal third (-1) := by decide
  have htwo : Normal twoThirds (-1) := by decide
  have hlimits : InLimits (-1) := by decide
  have hsum : addV3 mysql third third = .ok twoThirds := by decide +kernel
  have hclosed :=
    arithmetic_closed_iff mysql ⟨rfl, rfl⟩ .add third third (.inr ⟨-1, hthird, hlimits⟩)
    (.inr ⟨-1, hthird, hlimits⟩) [third] fun _ hn => mem_singleton.1 hn ▸ .inr ⟨-1, hthird, hlimits⟩
  have hadd := Op.not_escapes_of_small hthird hthird hlimits hlimits (by decide) (by decide)
  have hsub := Op.not_escapes_of_small htwo hthird hlimits hlimits (by decide) (by decide)
  have hstep : Call.step ⟨mysql, .add, 0, 0⟩ [third] = [twoThirds, third] := by decide +kernel
  have hstep' : Call.step ⟨mysql, .sub, 0, 1⟩ [twoThirds, third] =
      [roundedThird, twoThirds, third] := by decide +kernel
  refine ⟨hsum, hclosed.1.2 (fun _ => hadd.1) twoThirds hsum, by decide +kernel, hclosed.2 _ ?_⟩
  refine ⟨⟨⟨rfl, rfl⟩, fun _ => hadd.1⟩, ⟨⟨rfl, rfl⟩, fun _ => ?_⟩,
    ⟨⟨rfl, rfl⟩, fun _ => ?_⟩, trivial⟩
  · rw [hstep]
    exact hsub.2
  · rw [hstep, hstep']
    exact hsub.1

/-- `BASE^15 - BASE^6`, the largest number that is normalized. -/
def largest : ObNumber := ⟨⟨9, 78, .positive⟩, List.replicate 9 999999999⟩

/-- What comes out when it is rounded: `BASE^15`. -/
def pastLargest : ObNumber :=
  ⟨⟨1, 79, .positive⟩, 1 :: List.replicate 7 999999999 ++ [1000000000]⟩

/-- Adding zero to the largest number rounds it up to a number that `exp_check_` refuses. -/
theorem addV3_largest_zero :
    Normalized largest ∧ Normalized zero ∧ addV3 mysql largest zero = .ok pastLargest
      ∧ ¬ Normalized pastLargest ∧ getDecodeExp pastLargest.d = 15
      ∧ expCheck pastLargest.d false = some .integerPrecisionOverflow := by
  refine ⟨.inr ⟨14, by decide, by decide⟩, .inl rfl, ?_, ?_, by decide, by decide⟩
  · decide +kernel
  · have hnormal : Normal pastLargest 15 := by decide
    rw [hnormal.normalized_iff (by decide) (by decide)]
    decide

end OceanBase.Number
