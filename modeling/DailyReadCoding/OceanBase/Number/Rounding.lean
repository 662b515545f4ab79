import DailyReadCoding.OceanBase.Number.Arithmetic

/-!
# Rounding after an arithmetic operation

In MySQL mode the arithmetic functions round to `FLOATING_SCALE` digits.  All the length and scale
bookkeeping of `round_scale_v3_` then comes down to one place: numbers of up to eight words stay as
they are, and of a longer number the ninth word is rounded, to a power of ten that depends on the
decimal length of the first word.
-/

namespace OceanBase.Number

open Positional ObNumber List Nat

lemma base_pos_nat : 0 < BASE := by simp [BASE]

/-! ## Rounding one word -/

/-- The nearest multiple of `pow`, ties upwards. -/
def roundHalfUp (pow v : ℕ) : ℕ := (v + pow / 2) / pow * pow

variable {pow i k d x : ℕ}

lemma roundHalfUp_add_mul (hpow : 0 < pow) (k v : ℕ) :
    roundHalfUp pow (k * pow + v) = k * pow + roundHalfUp pow v := by
  rw [roundHalfUp, roundHalfUp, add_assoc, add_comm (k * pow), add_mul_div_right _ _ hpow,
    add_mul, add_comm]

lemma roundHalfUp_eq (hpow : 0 < pow) (heven : pow % 2 = 0) (v : ℕ) : roundHalfUp pow v
      = if pow / 2 ≤ v % pow then v + (pow - v % pow) else v - v % pow := by
  have hsplit := div_add_mod v pow
  have hlt := mod_lt v hpow
  have hround : (v + pow / 2) / pow = v / pow + (v % pow + pow / 2) / pow := by
    conv_lhs => rw [← hsplit, add_assoc, mul_add_div hpow]
  rw [roundHalfUp, hround, add_mul, mul_comm (v / pow)]
  split_ifs with h
  · have : (v % pow + pow / 2) / pow = 1 := (Nat.div_eq_iff hpow).2 (by omega)
    rw [this]
    omega
  · have : (v % pow + pow / 2) / pow = 0 := div_eq_of_lt (by omega)
    rw [this]
    omega

lemma take_succ_set {ds : List ℕ} (hi : i < ds.length) (x : ℕ) :
    (ds.set i x).take (i + 1) = ds.take i ++ [x] := by
  rw [take_add_one, getElem?_set_self hi, take_set_of_le (le_refl i)]
  rfl

lemma leading_take_append {n : ℕ} {ds : List ℕ} (hn : n ≤ ds.length) (x : ℕ) :
    leading BASE (n + 1) (ds.take n ++ [x]) = leading BASE n ds * BASE + x := by
  have hlen : (ds.take n).length = n := by simpa using hn
  have hget : (ds.take n ++ [x]).getD n 0 = x := by
    rw [getD_eq_getElem?_getD, getElem?_append_right hlen.le, hlen]
    simp
  rw [leading_succ_last]
  congr 2
  refine leading_congr fun i hi => ?_
  simp [getD_eq_getElem?_getD, getElem?_append, show i < ds.length by omega, hi]

/-- What the words of a result satisfy, `k` being the most there can be. -/
structure GoodWords (k : ℕ) (ws : List ℕ) : Prop where
  ne_nil : ws ≠ []
  length_le : ws.length ≤ k
  digits : Digits BASE ws
  first : ws.head? ≠ some 0
  last : Trimmed ws

variable {ds : List ℕ}

lemma getD_of_lt (hi : i < ds.length) : ds.getD i 0 = ds[i] := by simp [getD_eq_getElem?_getD, hi]

lemma digits_getD (h : Digits BASE ds) (i : ℕ) : ds.getD i 0 < BASE := by
  rcases lt_or_ge i ds.length with hi | hi
  · rw [getD_of_lt hi]
    exact h _ (getElem_mem hi)
  · rw [getD_eq_getElem?_getD, getElem?_eq_none hi]
    exact base_pos_nat

lemma stripLen_eq : ∀ {k : ℕ}, k ≤ ds.length → ds.take (stripLen ds k) = trim (ds.take k)
  | 0, _ => rfl
  | k + 1, hk => by
    have hsplit : ds.take (k + 1) = ds.take k ++ [ds.getD k 0] := by
      rw [take_add_one, getElem?_eq_getElem hk, getD_of_lt hk]
      rfl
    rw [stripLen, hsplit]
    split_ifs with h
    · rw [h, trim_append_zero, stripLen_eq (le_of_succ_le hk)]
    · rw [trim_append_of_ne h, hsplit]

lemma stripLen_le (ds : List ℕ) : ∀ k, stripLen ds k ≤ k
  | 0 => le_rfl
  | k + 1 => by
    rw [stripLen]
    split_ifs
    · exact (stripLen_le ds k).trans (le_succ k)
    · exact le_rfl

lemma stripLen_eq_length (hk : k ≤ ds.length) : stripLen ds k = (trim (ds.take k)).length := by
  have hle := stripLen_le ds k
  rw [← stripLen_eq hk, length_take]
  omega

/-- Incrementing at the last word that is not full adds one to the integer. -/
lemma leading_of_findCarry_some {j : ℕ} : ∀ {k : ℕ}, k ≤ ds.length → findCarry ds k = some j →
      j < k ∧ ds.getD j 0 ≠ MAX_VALUED_DIGIT
        ∧ leading BASE k (ds.take j ++ [ds.getD j 0 + 1]) = leading BASE k ds + 1
  | k + 1, hk, h => by
    rw [findCarry] at h
    split_ifs at h with hfull
    · obtain ⟨hj, hne, hval⟩ := leading_of_findCarry_some (le_of_succ_le hk) h
      refine ⟨lt_succ_of_lt hj, hne, ?_⟩
      have hlen : (ds.take j ++ [ds.getD j 0 + 1]).length ≤ k := by simp; omega
      have hshift := leading_add_of_length_le (b := BASE) hlen 1
      have hbase := base_pos_nat
      rw [hshift, hval, leading_succ_last, hfull, pow_one, MAX_VALUED_DIGIT, add_mul]
      omega
    · obtain rfl : k = j := by simpa using h
      refine ⟨lt_succ_self k, hfull, ?_⟩
      rw [leading_take_append (le_of_succ_le hk), leading_succ_last, add_assoc]

lemma leading_of_findCarry_none : ∀ {k : ℕ},
    findCarry ds k = none → leading BASE k ds + 1 = BASE ^ k
  | 0, _ => rfl
  | k + 1, h => by
    rw [findCarry] at h
    split_ifs at h with hfull
    have ih := leading_of_findCarry_none h
    have hbase := base_pos_nat
    rw [leading_succ_last, hfull, pow_succ, ← ih, MAX_VALUED_DIGIT, add_mul]
    omega

/-- What rounding word `id` leads to, by the integer `v` that the words up to it are rounded to. -/
inductive Rounded (n r : ObNumber) (id v : ℕ) : Prop
  | zero : v = 0 → r.d = ⟨0, 0, .positive⟩ → Rounded n r id v
  | carry : v = BASE ^ (id + 1) → r.d = ⟨1, bumpExp n.d, n.d.sign⟩ → r.words = [1] →
      Rounded n r id v
  | words : v = leading BASE (id + 1) r.words → r.d.exp = n.d.exp → r.d.sign = n.d.sign →
      r.d.len ≤ r.digits.length → GoodWords (id + 1) r.words → Rounded n r id v

section RoundAt

variable {n : ObNumber} {len id powId : ℕ}

lemma head_take_append {ds : List ℕ} (k x : ℕ) (hd : d ≠ 0) (hx : x ≠ 0) :
    ((d :: ds).take k ++ [x]).head? ≠ some 0 := by
  cases k with
  | zero => simpa using hx
  | succ k => simpa using hd

lemma goodWords_take_append {ds : List ℕ} {m : ℕ} (hdigits : Digits BASE (ds.take k))
    (hfirst : ds.head? ≠ some 0) (hk : k < ds.length) (hx0 : x ≠ 0) (hx : x < BASE)
    (hm : k + 1 ≤ m) : GoodWords m (ds.take k ++ [x]) where
  ne_nil := by simp
  length_le := by simp; omega
  digits := by
    intro y hy
    rcases mem_append.1 hy with hy | hy
    · exact hdigits y hy
    · rw [mem_singleton.1 hy]
      exact hx
  first := by
    cases ds with
    | nil => exact absurd hk (not_lt_zero _)
    | cons d ds =>
      refine head_take_append k x ?_ hx0
      rintro rfl
      exact hfirst rfl
  last := by simpa [Trimmed] using hx0

/-- The words before the last contribute a multiple of `pow`. -/
lemma roundHalfUp_leading (hdvd : pow ∣ BASE) (k : ℕ) (ds : List ℕ) :
    roundHalfUp pow (leading BASE (k + 1) ds)
      = leading BASE k ds * BASE + roundHalfUp pow (ds.getD k 0) := by
  have hpos : 0 < pow := pos_of_dvd_of_pos hdvd base_pos_nat
  obtain ⟨q, hq⟩ := hdvd
  rw [leading_succ_last, hq, mul_comm pow q, ← mul_assoc, roundHalfUp_add_mul hpos]

lemma roundHalfUp_le_base (hdvd : pow ∣ BASE) (hx : x < BASE) : roundHalfUp pow x ≤ BASE := by
  obtain ⟨q, hq⟩ := hdvd
  have hround : (x + pow / 2) / pow ≤ q := by
    refine le_of_lt_succ (Nat.div_lt_of_lt_mul ?_)
    rw [mul_succ]
    omega
  calc roundHalfUp pow x ≤ q * pow := mul_le_mul_right pow hround
    _ = BASE := by rw [hq, mul_comm]

/-- The carry behind a word that has been rounded up to `BASE`. -/
lemma normalizeCarry_rounded (len : ℕ) {ds : List ℕ} (hid : id < ds.length)
    (hdigits : Digits BASE (ds.take id)) (hfirst : ds.head? ≠ some 0) :
    Rounded n ((ObNumber.mk ⟨len, n.d.exp, n.d.sign⟩ (ds.set id BASE)).normalizeCarry id) id
      ((leading BASE id ds + 1) * BASE) := by
  have htake : ∀ {k}, k ≤ id → (ds.set id BASE).take k = ds.take k := fun hk => take_set_of_le hk
  have hlead : leading BASE id (ds.set id BASE) = leading BASE id ds := by
    rw [← leading_take le_rfl, htake le_rfl, leading_take le_rfl]
  have hlen : (ds.set id BASE).length = ds.length := length_set
  simp only [normalizeCarry]
  cases hfind : findCarry (ds.set id BASE) id with
  | none =>
    refine .carry ?_ rfl ?_
    · rw [← hlead, leading_of_findCarry_none hfind, pow_succ]
    · have hpos : 0 < (ds.set id BASE).length := by omega
      have := take_succ_set hpos 1
      simpa [words] using this
  | some j =>
    obtain ⟨hj, hfull, hval⟩ := leading_of_findCarry_some (by omega) hfind
    have hj' : j < (ds.set id BASE).length := by omega
    have hget : (ds.set id BASE).getD j 0 = ds.getD j 0 := by
      simp [getD_eq_getElem?_getD, show id ≠ j by omega]
    have hwords : ∀ d : Desc, d.len = j + 1 →
        (mk d ((ds.set id BASE).set j ((ds.set id BASE).getD j 0 + 1))).words
          = ds.take j ++ [ds.getD j 0 + 1] := by
      intro d hd
      rw [words, hd, take_succ_set hj', htake hj.le, hget]
    refine .words ?_ rfl rfl (by simp; omega) ?_
    · rw [hwords _ rfl, leading_add_of_length_le (by simp; omega) 1, ← htake hj.le, ← hget, hval,
        hlead, pow_one]
    · rw [hwords _ rfl]
      rw [hget, MAX_VALUED_DIGIT] at hfull
      have hdig : ds.getD j 0 < BASE := by
        have := digits_getD hdigits j
        simpa [getD_eq_getElem?_getD, hj] using this
      refine goodWords_take_append ?_ hfirst (by omega) (by omega) (by omega) (by omega)
      exact hdigits.take_of_le hj.le

/-- The zero words that rounding down leaves at the end. -/
lemma strip_rounded {ds : List ℕ} (hid : id < ds.length) (hlen : len = id + 1 ∨ len = id)
    (hdigits : Digits BASE (ds.take id)) (hfirst : ds.head? ≠ some 0) :
    Rounded n (match stripLen (ds.set id 0) len with
        | 0 => (ObNumber.mk ⟨len, n.d.exp, n.d.sign⟩ (ds.set id 0)).setZero
        | k + 1 => ⟨⟨k + 1, n.d.exp, n.d.sign⟩, ds.set id 0⟩) id (leading BASE id ds * BASE) := by
  have hle : len ≤ (ds.set id 0).length := by rw [length_set]; omega
  have htake : (ds.set id 0).take (stripLen (ds.set id 0) len) = trim (ds.take id) := by
    rw [stripLen_eq hle]
    rcases hlen with rfl | rfl
    · rw [take_succ_set hid, trim_append_zero]
    · rw [take_set_of_le le_rfl]
  have hstrip := stripLen_le (ds.set id 0) len
  have hlead : leading BASE (id + 1) (trim (ds.take id)) = leading BASE id ds * BASE := by
    rw [leading_trim, leading_add_of_length_le (by simp) 1, leading_take le_rfl, pow_one]
  cases hk : stripLen (ds.set id 0) len with
  | zero =>
    rw [hk, take_zero] at htake
    rw [← htake] at hlead
    exact .zero hlead.symm rfl
  | succ k =>
    rw [hk] at htake hstrip
    have hwords : (mk ⟨k + 1, n.d.exp, n.d.sign⟩ (ds.set id 0)).words = trim (ds.take id) := htake
    refine .words ?_ rfl rfl (hstrip.trans hle) ?_
    · rw [hwords, hlead]
    · rw [hwords]
      refine ⟨?_, ?_, digits_trim hdigits, head_trim ?_, trimmed_trim _⟩
      · rw [← htake, Ne, take_eq_nil_iff, not_or]
        exact ⟨succ_ne_zero k, ne_nil_of_length_pos (by rw [length_set]; omega)⟩
      · exact (length_trim_le _).trans (by simp)
      · cases ds with
        | nil => simp
        | cons d ds => cases id <;> simp_all

/-- **Rounding a word** rounds the integer made of the words up to it. -/
theorem roundAt_rounded (hpow : roundPows.getD powId 0 = pow) (hdvd : pow ∣ BASE)
    (heven : pow % 2 = 0) (hlen : len = id + 1 ∨ (len = id ∧ pow = BASE))
    (hid : id < n.digits.length) (hdigits : Digits BASE (n.digits.take (id + 1)))
    (hfirst : n.digits.head? ≠ some 0) :
    Rounded n (n.roundAt len id powId) id (roundHalfUp pow (leading BASE (id + 1) n.digits)) := by
  have hpos : 0 < pow := pos_of_dvd_of_pos hdvd base_pos_nat
  have hinit : Digits BASE (n.digits.take id) := hdigits.take_of_le (le_succ id)
  have hx : n.digits.getD id 0 < BASE := by
    have := digits_getD hdigits id
    simpa [getD_eq_getElem?_getD] using this
  have hbound := roundHalfUp_le_base hdvd hx
  rw [roundHalfUp_leading hdvd, roundHalfUp_eq hpos heven, roundAt, hpow]
  rw [roundHalfUp_eq hpos heven] at hbound
  set x := n.digits.getD id 0
  have hmod := div_add_mod x pow
  have hmodlt := mod_lt x hpos
  -- a rounded word that is neither zero nor `BASE` is kept in place
  have hkeep : ∀ y, y ≠ 0 → y < BASE → pow ∣ y →
      Rounded n (mk ⟨len, n.d.exp, n.d.sign⟩ (n.digits.set id y)) id
        (leading BASE id n.digits * BASE + y) := by
    intro y hy0 hy hdvd
    have hlen' : len = id + 1 := by
      rcases hlen with h | ⟨-, rfl⟩
      · exact h
      · exact absurd (eq_zero_of_dvd_of_lt hdvd hy) hy0
    have hwords : (mk ⟨len, n.d.exp, n.d.sign⟩ (n.digits.set id y)).words
        = n.digits.take id ++ [y] := by rw [words, hlen', take_succ_set hid]
    refine .words ?_ rfl rfl (by simp; omega) ?_
    · rw [hwords, leading_take_append hid.le]
    · rw [hwords]
      exact goodWords_take_append hinit hfirst hid hy0 hy le_rfl
  have hdown : pow ∣ x - x % pow := dvd_sub_mod x
  have hup : pow ∣ x + (pow - x % pow) := ⟨x / pow + 1, by rw [mul_add]; omega⟩
  by_cases hhalf : pow / 2 ≤ x % pow
  · rw [if_pos hhalf] at hbound
    rw [if_pos hhalf, if_pos hhalf]
    by_cases hbase : x + (pow - x % pow) = BASE
    · have := normalizeCarry_rounded (n := n) len hid hinit hfirst
      simp only [hbase, if_true]
      rwa [add_mul, one_mul] at this
    · rw [if_neg hbase]
      exact hkeep _ (by omega) (by omega) hup
  · rw [if_neg hhalf, if_neg hhalf]
    by_cases hzero : x - x % pow = 0
    · have := strip_rounded (n := n) hid (hlen.imp_right And.left) hinit hfirst
      simp only [hzero, if_true, add_zero]
      exact this
    · rw [if_neg hzero]
      exact hkeep _ hzero (by omega) hdown

end RoundAt

/-! ## Where the arithmetic functions round -/

/-- A result before it is rounded: up to ten words, perhaps with zero words at the end of those to
be rounded. -/
structure Raw (n : ObNumber) (e : ℤ) : Prop where
  len_pos : 0 < n.d.len
  len_le : n.d.len ≤ 10
  stored : n.d.len ≤ n.digits.length
  digits : Digits BASE n.words
  first : n.words.head? ≠ some 0
  last : n.d.len < 9 → Trimmed n.words
  exp_eq : n.d.exp = calcExp n.d.sign e

/-- From here on the nine leading words of a number round up to a tenth. -/
def carryBound : ℕ := BASE ^ 9 - BASE / 2

lemma getDigitLenV2_bounds (hd : d < BASE) :
    1 ≤ getDigitLenV2 d ∧ getDigitLenV2 d ≤ 9 ∧ (getDigitLenV2 d < 9 → d < BASE / 10) := by
  simp only [BASE] at hd
  simp only [getDigitLenV2, BASE]
  split_ifs <;> omega

lemma roundPows_props : ∀ k < 10, roundPows.getD k 0 ∣ BASE ∧ roundPows.getD k 0 % 2 = 0
    ∧ (k = 0 ∨ k = 9 → roundPows.getD k 0 = BASE) := by
  decide

section Raw

variable {n : ObNumber} {e : ℤ}

lemma Normal.raw (h : Normal n e) : Raw n e :=
  ⟨h.len_pos, h.len_le.trans (by decide), h.stored, h.digits, h.first, fun _ => h.last, h.exp_eq⟩

variable (h : Raw n e) (he : InLimits e)

include h he

lemma Raw.decode_eq : getDecodeExp n.d = e := by
  have hb := he.bounds
  have := getDecodeExp_calcExp (e := e) (by omega) (by omega) n.d.len n.d.sign
  rwa [← h.exp_eq] at this

/-- The scale `round_scale_v3_` is left with: the digits of the integer part count against it. -/
lemma Raw.floatingScale_eq : n.floatingScale (n.roundShape true) false FLOATING_SCALE true false
      = if e < 0 then 72 else 72 - (getDigitLenV2 (n.digits.getD 0 0) + e * 9) := by
  have hpos := h.len_pos
  have hdec := h.decode_eq he
  rcases lt_or_ge e 0 with hneg | hnonneg
  · simp [floatingScale, roundShape, hdec, FLOATING_SCALE, hneg, not_le.2 hneg, hpos]
  · have hvalid : 0 < if (n.d.len : ℤ) > e + 1 then e + 1 else (n.d.len : ℤ) := by
      split_ifs <;> omega
    simp [floatingScale, roundShape, hdec, FLOATING_SCALE, DIGIT_LEN, hnonneg, not_lt.2 hnonneg,
      hvalid]

omit h he

/-- With the amount written as whole words and a rest between one and nine digits. -/
lemma roundInteger_eq (s : RoundShape) {k l : ℤ} (h1 : 1 ≤ l) (h9 : l ≤ 9) :
    roundInteger s (9 * k + l) = if s.integerLength < k + 1 then .zero
        else if s.integerLength > s.validIntegerLength
            ∧ k + 1 ≤ s.integerLength - s.validIntegerLength then .keep
        else .at (s.integerLength - k).toNat (s.integerLength - k - 1).toNat
          (if l = 9 then 9 else (9 - l).toNat) := by
  rcases h9.lt_or_eq with hl | rfl
  · have hdiv : (9 * k + l) / DIGIT_LEN = k := by rw [DIGIT_LEN]; omega
    have hround : 9 * k + l - k * DIGIT_LEN = l := by rw [DIGIT_LEN]; ring
    have hlen : s.integerLength - (k + 1) + 1 = s.integerLength - k := by ring
    simp only [roundInteger, hdiv, hround, if_neg (show ¬ l = 0 by omega), if_neg hl.ne, hlen]
  · have hdiv : (9 * k + 9) / DIGIT_LEN = k + 1 := by rw [DIGIT_LEN]; omega
    have hround : 9 * k + 9 - (k + 1) * DIGIT_LEN = 0 := by rw [DIGIT_LEN]; ring
    have hlen : s.integerLength - (k + 1) + 1 = s.integerLength - k := by ring
    simp only [roundInteger, hdiv, hround, if_true, hlen]
    rfl

/-- With the scale written as whole words and a rest below nine digits. -/
lemma roundDecimal_eq (len : ℕ) (s : RoundShape) {k r : ℤ} (h0 : 0 ≤ r) (h9 : r < 9) :
    roundDecimal len s (9 * k + r) = if k ≥ s.decimalLength then .keep
        else if s.decimalLength > s.validDecimalLength
            ∧ k < s.decimalLength - s.validDecimalLength then .zero
        else .at (len - (s.decimalLength - (k + 1))).toNat
          (len - (s.decimalLength - (k + 1)) - 1).toNat r.toNat := by
  have hdiv : (9 * k + r) / DIGIT_LEN = k := by rw [DIGIT_LEN]; omega
  have hround : 9 * k + r - k * DIGIT_LEN = r := by rw [DIGIT_LEN]; ring
  simp only [roundDecimal, hdiv, hround]

include h he

/-- The lengths of a number below one. -/
lemma Raw.roundShape_neg (hneg : e < 0) : n.roundShape true
      = ⟨getDigitLenV2 (n.digits.getD 0 0), e, 0, 0, 0, n.d.len, n.d.len⟩ := by
  have hpos := h.len_pos
  simp [roundShape, h.decode_eq he, not_le.2 hneg, hpos]

/-- The lengths of a number from one on. -/
lemma Raw.roundShape_nonneg (hnonneg : 0 ≤ e) : n.roundShape true
      = ⟨getDigitLenV2 (n.digits.getD 0 0), e, e + 1, min (e + 1) n.d.len,
          getDigitLenV2 (n.digits.getD 0 0) + e * 9, max (n.d.len - (e + 1)) 0,
          max (n.d.len - (e + 1)) 0⟩ := by
  have hpos := h.len_pos
  have hvalid : (if (n.d.len : ℤ) > e + 1 then e + 1 else n.d.len) = min (e + 1) n.d.len := by
    split_ifs <;> omega
  have hdecimal : (if (n.d.len : ℤ) > e + 1 then (n.d.len : ℤ) - (e + 1) else 0)
      = max (n.d.len - (e + 1)) 0 := by
    split_ifs <;> omega
  simp only [roundShape, h.decode_eq he, if_pos hnonneg, hvalid, hdecimal, DIGIT_LEN]
  rw [if_pos (by omega), if_neg (by omega), show e + 1 - 1 = e by ring, add_zero]

/-- Eight words are kept, a longer number is rounded at its ninth word. The power is below the base
only if the first word has fewer than nine digits. -/
lemma Raw.roundAction_eq (hlong : 8 ≤ n.d.len) : ∃ len powId, n.roundAction (n.roundShape true)
        (n.floatingScale (n.roundShape true) false FLOATING_SCALE true false)
          = (if n.d.len = 8 then .keep else .at len 8 powId)
      ∧ powId < 10 ∧ (len = 9 ∨ (len = 8 ∧ powId = 0))
      ∧ (powId = 0 ∨ powId = 9 ∨ n.digits.getD 0 0 < BASE / 10) := by
  have hd : n.digits.getD 0 0 < BASE := by
    rw [← words_getD h.len_pos]
    exact digits_getD h.digits 0
  obtain ⟨hl1, hl9, hsmall⟩ := getDigitLenV2_bounds hd
  rw [h.floatingScale_eq he, roundAction]
  rcases lt_or_ge e 0 with hneg | hnonneg
  · rw [h.roundShape_neg he hneg, if_pos hneg, if_pos (by omega)]
    have heq := roundDecimal_eq n.d.len
      ⟨getDigitLenV2 (n.digits.getD 0 0), e, 0, 0, 0, n.d.len, n.d.len⟩ (k := 8) le_rfl
      (by omega : (0 : ℤ) < 9)
    refine ⟨9, 0, ?_, by omega, .inl rfl, .inl rfl⟩
    rw [show (72 : ℤ) = 9 * 8 + 0 by rfl, heq]
    exact if_congr (by simp; omega) rfl (by simp)
  · rw [h.roundShape_nonneg he hnonneg, if_neg (not_lt.2 hnonneg)]
    generalize getDigitLenV2 (n.digits.getD 0 0) = l at *
    rcases lt_trichotomy (72 - (l + e * 9)) 0 with hfs | hfs | hfs
    · -- the ninth word lies in the integer part
      have heq := fun s => roundInteger_eq s (k := e - 8) hl1 hl9
      rw [if_neg (by omega), if_pos hfs,
        show 0 - (72 - (l + e * 9)) = 9 * (e - 8) + l by ring, heq, if_neg (by simp),
        show e + 1 - (e - 8) = 9 by ring]
      refine ⟨9, if l = 9 then 9 else (9 - l).toNat, if_congr (by simp; omega) rfl rfl, ?_,
        .inl rfl, ?_⟩
      · split_ifs <;> omega
      · split_ifs <;> omega
    · -- the integer part ends with the eighth word
      obtain ⟨rfl, rfl⟩ : e = 7 ∧ l = 9 := by omega
      refine ⟨8, 0, ?_, by omega, .inr ⟨rfl, rfl⟩, .inl rfl⟩
      have hmin : min (7 + 1 : ℤ) n.d.len = 8 := by omega
      rw [if_neg (by omega), if_neg (by omega), roundPoint, hmin]
      exact if_congr (by simp; omega) rfl (if_pos (by simp))
    · -- the ninth word lies behind the point
      have heq := fun s => roundDecimal_eq n.d.len s (k := 7 - e) (r := 9 - l) (by omega) (by omega)
      rw [if_pos hfs, show 72 - (l + e * 9) = 9 * (7 - e) + (9 - l) by ring, heq]
      refine ⟨9, (9 - l).toNat, if_congr (by simp; omega) rfl ?_, by omega, .inl rfl, by omega⟩
      rw [if_neg (by simp),
        show (n.d.len : ℤ) - (max (n.d.len - (e + 1)) 0 - (7 - e + 1)) = 9 by omega]
      rfl

/-! ## The result -/

omit h he

lemma roundHalfUp_le (pow v : ℕ) : roundHalfUp pow v ≤ v + pow / 2 := div_mul_le_self _ _

/-- Rounding nine words reaches the next power of the base exactly from `carryBound` on. -/
lemma roundHalfUp_nine {v : ℕ} (hdvd : pow ∣ BASE) (hv : v < BASE ^ 9)
    (hpow : pow = BASE ∨ v < BASE / 10 * BASE ^ 8) : (carryBound ≤ v → roundHalfUp pow v = BASE ^ 9)
      ∧ (v < carryBound → roundHalfUp pow v < carryBound) := by
  have hle : pow ≤ BASE := le_of_dvd base_pos_nat hdvd
  rcases hpow with rfl | hsmall
  · simp only [carryBound, roundHalfUp, BASE] at hv ⊢
    constructor <;> intro h <;> omega
  · have hround := roundHalfUp_le pow v
    simp only [carryBound, BASE] at hv hle hsmall ⊢
    constructor <;> intro h <;> omega

lemma leading_lt_carryBound {ws : List ℕ} (hdigits : Digits BASE ws) (hlen : ws.length ≤ 8) :
    leading BASE 9 ws < carryBound := by
  have hlt := leading_lt base_pos_nat 8 hdigits
  rw [leading_add_of_length_le hlen 1]
  simp only [carryBound, BASE] at hlt ⊢
  omega

lemma bumpExp_eq {d : Desc} (he : InLimits e) (hd : d.exp = calcExp d.sign e) :
    bumpExp d = calcExp d.sign (e + 1) := by
  have hb := he.bounds
  rw [bumpExp, hd]
  cases d.sign with
  | negative =>
    have h1 := calcExp_negative (e := e) (by omega) (by omega)
    have h2 := calcExp_negative (e := e + 1) (by omega) (by omega)
    simp only
    omega
  | positive =>
    have h1 := calcExp_positive (e := e) (by omega) (by omega)
    have h2 := calcExp_positive (e := e + 1) (by omega) (by omega)
    simp only
    omega

lemma roundAfter_of_short {cfg : Config} (horacle : cfg.oracleMode = false)
    (hlen : n.d.len < 8) : roundAfter cfg n = n := by
  rw [roundAfter, horacle, if_neg]
  rintro ⟨-, hge⟩
  rw [show minRoundDigitCount false = 8 from rfl] at hge
  omega

lemma roundAfter_of_long {cfg : Config} (horacle : cfg.oracleMode = false)
    (hround : cfg.doRounding = true) (hlen : 8 ≤ n.d.len) :
    roundAfter cfg n = n.roundScaleV3 false FLOATING_SCALE true false := by
  rw [roundAfter, horacle, hround, if_pos]
  · rfl
  · rw [show minRoundDigitCount false = 8 from rfl]
    exact ⟨rfl, by omega⟩

lemma Raw.length_eq (h : Raw n e) : n.words.length = n.d.len := words_length h.stored

lemma Raw.words_eq_cons (h : Raw n e) : ∃ d ds, n.words = d :: ds ∧ 0 < d := by
  have hlen := h.length_eq
  cases hw : n.words with
  | nil => have := h.len_pos; simp [hw] at hlen; omega
  | cons d ds =>
    refine ⟨d, ds, rfl, pos_of_ne_zero ?_⟩
    rintro rfl
    exact h.first (by simp [hw])

lemma Raw.normal_of_short (h : Raw n e) (hlen : n.d.len ≤ 8) :
    Normal n e ∧ leading BASE 9 n.words < carryBound :=
  ⟨⟨h.len_pos, hlen.trans (by decide), h.stored, h.digits, h.first, h.last (by omega), h.exp_eq⟩,
    leading_lt_carryBound h.digits (by rw [h.length_eq]; exact hlen)⟩

lemma Raw.roundScaleV3_eq (h : Raw n e) : n.roundScaleV3 false FLOATING_SCALE true false
      = n.applyRound (n.roundAction (n.roundShape true)
          (n.floatingScale (n.roundShape true) false FLOATING_SCALE true false)) := by
  have hpos := h.len_pos
  rw [roundScaleV3, if_neg (by simp [isZero]; omega)]

include h he

lemma Raw.rounded_of_long (hlong : 9 ≤ n.d.len) :
    ∃ v, Rounded n (n.roundScaleV3 false FLOATING_SCALE true false) 8 v
      ∧ (carryBound ≤ leading BASE 9 n.words → v = BASE ^ 9)
      ∧ (leading BASE 9 n.words < carryBound → v < carryBound) ∧ 0 < v := by
  obtain ⟨len, powId, haction, hid, hlen, hfirst⟩ := h.roundAction_eq he (by omega)
  rw [if_neg (by omega)] at haction
  obtain ⟨hdvd, heven, hfull⟩ := roundPows_props powId hid
  obtain ⟨d, ds, hw, hd⟩ := h.words_eq_cons
  have hlead : leading BASE (8 + 1) n.digits = leading BASE 9 n.words := (leading_take hlong _).symm
  have hlt : leading BASE 9 n.words < BASE ^ 9 := leading_lt base_pos_nat 9 h.digits
  have hge : BASE ^ 8 ≤ leading BASE 9 n.words := hw ▸ pow_le_leading hd
  have hhead : n.digits.head? = some d := by
    have := congrArg head? hw
    rwa [words, head?_take, if_neg (by omega)] at this
  have hget : n.digits.getD 0 0 = d := by simp [getD_eq_getElem?_getD, ← head?_eq_getElem?, hhead]
  have hpow : roundPows.getD powId 0 = BASE ∨ leading BASE 9 n.words < BASE / 10 * BASE ^ 8 := by
    rcases hfirst with h0 | h9 | hsmall
    · exact .inl (hfull (.inl h0))
    · exact .inl (hfull (.inr h9))
    · right
      have htail : Digits BASE ds := by
        have := h.digits
        rw [hw] at this
        exact this.tail
      have := leading_lt base_pos_nat 8 htail
      rw [hget] at hsmall
      calc leading BASE 9 n.words
          = d * BASE ^ 8 + leading BASE 8 ds := by rw [hw]; rfl
        _ < d * BASE ^ 8 + BASE ^ 8 := by omega
        _ = (d + 1) * BASE ^ 8 := by ring
        _ ≤ BASE / 10 * BASE ^ 8 := mul_le_mul_right _ hsmall
  have hbound := roundHalfUp_nine hdvd hlt hpow
  have hstored := h.stored
  have hrounded := roundAt_rounded (n := n) rfl hdvd heven
    (hlen.imp_right fun hl => ⟨hl.1, hfull (.inl hl.2)⟩) (by omega)
    (h.digits.take_of_le hlong) (by rw [hhead]; simpa using hd.ne')
  refine ⟨_, ?_, hbound.1, hbound.2, ?_⟩
  · rw [h.roundScaleV3_eq, haction, ← hlead]
    exact hrounded
  · have hpos : 0 < roundPows.getD powId 0 := pos_of_dvd_of_pos hdvd base_pos_nat
    have hle : roundPows.getD powId 0 ≤ leading BASE 9 n.words :=
      (le_of_dvd base_pos_nat hdvd).trans ((le_self_pow (by omega) BASE).trans hge)
    exact mul_pos (div_pos (by omega) hpos) hpos

omit h he

/-- **Rounding a raw result.** The exponent grows exactly when the nine leading words reach
`carryBound`, and not once more. -/
theorem Raw.roundAfter_spec {cfg : Config} (horacle : cfg.oracleMode = false)
    (hround : cfg.doRounding = true) (h : Raw n e) (he : InLimits e) :
    (roundAfter cfg n).d.sign = n.d.sign ∧ leading BASE 9 (roundAfter cfg n).words < carryBound
      ∧ (carryBound ≤ leading BASE 9 n.words → (roundAfter cfg n).d.len = 1)
      ∧ Normal (roundAfter cfg n) (if carryBound ≤ leading BASE 9 n.words then e + 1 else e) := by
  rcases lt_or_ge 8 n.d.len with hlong | hshort
  · obtain ⟨v, hrounded, hcarry, hkeep, hpos⟩ := h.rounded_of_long he hlong
    rw [roundAfter_of_long horacle hround hlong.le]
    generalize n.roundScaleV3 false FLOATING_SCALE true false = r at *
    cases hrounded with
    | zero hv _ => omega
    | carry hv hd hwords =>
      replace hv : v = BASE ^ 9 := hv
      have hbound : carryBound ≤ leading BASE 9 n.words := by
        rcases lt_or_ge (leading BASE 9 n.words) carryBound with hlt | hge
        · have := hkeep hlt
          have hle : carryBound ≤ BASE ^ 9 := sub_le _ _
          omega
        · exact hge
      have hone : r.d.len = 1 := by rw [hd]
      have hstored : 1 ≤ r.digits.length := by
        have := congrArg length hwords
        simp [words, hone] at this
        omega
      rw [if_pos hbound]
      refine ⟨by rw [hd], hwords ▸ by decide +kernel, fun _ => hone, ?_⟩
      refine ⟨by omega, by rw [hone]; decide, by omega, ?_, ?_, ?_, ?_⟩
      · rw [hwords]; decide
      · rw [hwords]; decide
      · rw [hwords]; decide
      · rw [hd]
        exact bumpExp_eq he h.exp_eq
    | words hv hexp hsign hstored hgood =>
      replace hv : v = leading BASE 9 r.words := hv
      have hlt : leading BASE 9 n.words < carryBound := by
        rcases lt_or_ge (leading BASE 9 n.words) carryBound with hlt | hge
        · exact hlt
        · have := leading_lt base_pos_nat 9 hgood.digits
          have := hcarry hge
          omega
      have hlen := words_length hstored
      have hne := length_pos_of_ne_nil hgood.ne_nil
      have hle := hgood.length_le
      rw [if_neg (by omega)]
      refine ⟨hsign, hv ▸ hkeep hlt, fun hge => absurd hge (not_le.2 hlt), ?_⟩
      exact ⟨by omega, by rw [← hlen]; exact hle, hstored, hgood.digits, hgood.first, hgood.last,
        by rw [hexp, hsign]; exact h.exp_eq⟩
  · obtain ⟨hnormal, hlt⟩ := h.normal_of_short hshort
    have hsame : roundAfter cfg n = n := by
      rcases hshort.lt_or_eq with h8 | h8
      · exact roundAfter_of_short horacle h8
      · obtain ⟨_, _, haction, -⟩ := h.roundAction_eq he h8.ge
        rw [roundAfter_of_long horacle hround (by omega), h.roundScaleV3_eq, haction,
          if_pos h8, applyRound]
    rw [hsame, if_neg (by omega)]
    exact ⟨rfl, hlt, fun hge => absurd hge (not_le.2 hlt), hnormal⟩

end Raw

end OceanBase.Number
