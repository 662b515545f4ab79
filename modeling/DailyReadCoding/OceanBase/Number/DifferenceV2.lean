import DailyReadCoding.OceanBase.Number.Unrounded

/-!
# The two subtractions

`sub_v2_` and `sub_v3` are two implementations of one operation, and `add_v2_` and `add_v3` of
another; the signs decide which of the two does the work.  Both additions see nine words of the
operands under the larger exponent.  So does `sub_v3`, but `sub_v2_` sees ten.
-/

namespace OceanBase.Number

open Positional ObNumber List Cursor Int Sign

/-! ## `add_v2_` and `sub_v2_` -/

namespace ObNumber

/-- A number read as `curr_exp` falls: the exponent of its next word, and the words from there on.
-/
structure Cursor where
  exp : ℤ
  words : List ℕ

/-- The word that is read at `currExp`, if the number has one there. -/
def Cursor.next (c : Cursor) (currExp : ℤ) : ℕ × Cursor :=
  match c.words with
  | d :: ds => if currExp = c.exp then (d, ⟨c.exp - 1, ds⟩) else (0, c)
  | [] => (0, c)

/-- The first loop of both functions, over `n` cells from `currExp` down. -/
def alignV2 {α : Type} (combine : ℕ → ℕ → α) : ℕ → ℤ → Cursor → Cursor → List α
  | 0, _, _, _ => []
  | n + 1, currExp, x, y =>
    combine (x.next currExp).1 (y.next currExp).1
      :: alignV2 combine n (currExp - 1) (x.next currExp).2 (y.next currExp).2

/-- One cell of the second loop of `add_v2_`: the words behind it and the carry out of them. -/
def carryWord (cell : ℕ) (s : List ℕ × ℕ) : List ℕ × ℕ :=
  let digit := (cell + s.2) % 2 ^ 32
  if digit ≥ BASE then ((digit - BASE) :: s.1, 1) else (digit :: s.1, 0)

/-- One cell of the second loop of `sub_v2_`. The cells of a negative difference are negated, and
the borrow is added before. -/
def borrowWord (subNegative : Bool) (cell : ℤ) (s : List ℕ × ℕ) : List ℕ × ℕ :=
  let digit : ℤ := if subNegative then 0 - (cell + s.2) else cell - s.2
  if digit < 0 then ((digit + BASE).toNat :: s.1, 1) else (digit.toNat :: s.1, 0)

/-- The sign of the first cell that is not zero. -/
def firstDigitFlag : List ℤ → ℤ
  | [] => 0
  | cell :: cells => if cell = 0 then firstDigitFlag cells else if cell > 0 then 1 else -1

/-- `add_v2_` of numbers of one sign whose exponents are less than nine apart. -/
def addAlignedV2 (cfg : Config) (this other : ObNumber) : Except Err ObNumber :=
  let sumExp := max (getDecodeExp this.d) (getDecodeExp other.d)
  let cells := alignV2 (fun x y => (x + y) % 2 ^ 32) 9 sumExp ⟨getDecodeExp this.d, this.words⟩
    ⟨getDecodeExp other.d, other.words⟩
  let r := cells.foldr carryWord ([], 0)
  let sumDigits := r.2 :: r.1
  if r.2 ≠ 0 then
    assignChecked { cfg with strictMode := true } this.d.sign (sumExp + 1) (stripLen sumDigits 10)
      sumDigits
  else
    assignChecked { cfg with strictMode := true } this.d.sign sumExp (stripLen r.1 9) r.1

/-- `sub_v2_` of numbers of one sign whose exponents are less than nine apart. -/
def subAlignedV2 (cfg : Config) (this other : ObNumber) : Except Err ObNumber :=
  let sumExp := max (getDecodeExp this.d) (getDecodeExp other.d)
  let cells := alignV2 (fun x y => (x : ℤ) - y) 10 sumExp ⟨getDecodeExp this.d, this.words⟩
    ⟨getDecodeExp other.d, other.words⟩
  let subNegative := firstDigitFlag cells == -1
  let sumDigits := (cells.foldr (borrowWord subNegative) ([], 0)).1
  let startId := leadingZeros sumDigits
  if startId > 9 then .ok zero
  else
    assignChecked { cfg with strictMode := true }
      (if (this.d.sign == .negative) = subNegative then .positive else .negative)
      (sumExp - startId) (stripLen (sumDigits.drop startId) (10 - startId))
      (sumDigits.drop startId)

/-- `add_v2_` of non-zero numbers of one sign. -/
def addSameSignV2 (cfg : Config) (this other : ObNumber) : Except Err ObNumber :=
  if getDecodeExp this.d ≥ getDecodeExp other.d + OB_MAX_DECIMAL_DIGIT then deepCopyV3 cfg this
  else if getDecodeExp other.d ≥ getDecodeExp this.d + OB_MAX_DECIMAL_DIGIT then
    deepCopyV3 cfg other
  else addAlignedV2 cfg this other

/-- `sub_v2_` of non-zero numbers of one sign. -/
def subSameSignV2 (cfg : Config) (this other : ObNumber) : Except Err ObNumber :=
  if getDecodeExp this.d ≥ getDecodeExp other.d + OB_MAX_DECIMAL_DIGIT then deepCopyV3 cfg this
  else if getDecodeExp other.d ≥ getDecodeExp this.d + OB_MAX_DECIMAL_DIGIT then
    negateV3 cfg other
  else subAlignedV2 cfg this other

mutual

/-- `add_v2_`, with `final` for its `round_scale_v2_`; the identity gives the value before it.
`deep_copy` and `negate_v2_` do what their newer versions do. -/
def addV2With (final : ObNumber → ObNumber) (cfg : Config) (this other : ObNumber) :
    Except Err ObNumber :=
  let res :=
    if this.isZero then deepCopyV3 cfg other
    else if _h : other.isZero then deepCopyV3 cfg this
    else if this.d.sign = other.d.sign then addSameSignV2 cfg this other
    else subV2With final cfg this other.negate
  res.map final
termination_by if this.d.sign = other.d.sign then 0 else 1
decreasing_by
  rename_i hne
  rw [if_neg hne, if_pos (by rw [ObNumber.negate_sign _h]; exact flipSign_of_ne hne)]
  exact Nat.zero_lt_one

/-- `sub_v2_`. -/
def subV2With (final : ObNumber → ObNumber) (cfg : Config) (this other : ObNumber) :
    Except Err ObNumber :=
  let res :=
    if this.isZero then negateV3 cfg other
    else if _h : other.isZero then deepCopyV3 cfg this
    else if this.d.sign = other.d.sign then subSameSignV2 cfg this other
    else addV2With final cfg this other.negate
  res.map final
termination_by if this.d.sign = other.d.sign then 0 else 1
decreasing_by
  rename_i hne
  rw [if_neg hne, if_pos (by rw [ObNumber.negate_sign _h]; exact flipSign_of_ne hne)]
  exact Nat.zero_lt_one

end

end ObNumber

/-! ## The first loop -/

/-- `combine` on the first `n` words of two lists, with zero words behind both. -/
def zipWords {α : Type} (combine : ℕ → ℕ → α) : ℕ → List ℕ → List ℕ → List α
  | 0, _, _ => []
  | n + 1, xs, ys => combine (xs.headD 0) (ys.headD 0) :: zipWords combine n xs.tail ys.tail

/-- The words that a cursor still has to read, from `currExp` down. -/
def ObNumber.Cursor.rest (c : Cursor) (currExp : ℤ) : List ℕ :=
  shifted (currExp - c.exp).toNat c.words

lemma ObNumber.Cursor.next_spec (c : Cursor) {currExp : ℤ} (h : c.words = [] ∨ c.exp ≤ currExp) :
    (c.next currExp).1 = (c.rest currExp).headD 0
      ∧ (c.next currExp).2.rest (currExp - 1) = (c.rest currExp).tail
      ∧ ((c.next currExp).2.words = [] ∨ (c.next currExp).2.exp ≤ currExp - 1) := by
  obtain ⟨exp, words⟩ := c
  rcases lt_trichotomy currExp exp with hlt | rfl | hgt
  · obtain rfl : words = [] := h.resolve_right (not_le.2 hlt)
    simp only [next, rest, show (currExp - exp).toNat = 0 by omega,
      show (currExp - 1 - exp).toNat = 0 by omega]
    exact ⟨rfl, rfl, .inl trivial⟩
  · cases words with
    | nil => simp [next, rest, shifted]
    | cons d ds => simp [next, rest]
  · have hshift : (currExp - exp).toNat = (currExp - 1 - exp).toNat + 1 := by omega
    cases words with
    | nil =>
      simp only [next, rest, hshift]
      exact ⟨rfl, rfl, .inl trivial⟩
    | cons d ds =>
      simp only [next, rest, hshift, if_neg (show currExp ≠ exp by omega)]
      exact ⟨rfl, rfl, .inr (by omega)⟩

/-- The first loop aligns the two numbers. -/
theorem alignV2_eq {α : Type} (combine : ℕ → ℕ → α) : ∀ (n : ℕ) {currExp : ℤ} {x y : Cursor},
    (x.words = [] ∨ x.exp ≤ currExp) → (y.words = [] ∨ y.exp ≤ currExp) →
      alignV2 combine n currExp x y = zipWords combine n (x.rest currExp) (y.rest currExp)
  | 0, _, _, _, _, _ => rfl
  | n + 1, currExp, x, y, hx, hy => by
    obtain ⟨hx1, hx2, hx3⟩ := x.next_spec hx
    obtain ⟨hy1, hy2, hy3⟩ := y.next_spec hy
    rw [alignV2, zipWords, alignV2_eq combine n hx3 hy3, hx1, hy1, hx2, hy2]

/-! ## The second loop -/

lemma headD_lt {xs : List ℕ} (h : Digits BASE xs) : xs.headD 0 < BASE := by
  cases xs with
  | nil => exact base_pos_nat
  | cons d ds => exact h.head

lemma digits_of_tail {xs : List ℕ} (h : Digits BASE xs) : Digits BASE xs.tail :=
  fun x hx => h x (mem_of_mem_tail hx)

lemma digits_cons {d : ℕ} {ds : List ℕ} (hd : d < BASE) (h : Digits BASE ds) :
    Digits BASE (d :: ds) := forall_mem_cons.2 ⟨hd, h⟩

/-- The second loop of `add_v2_` carries exactly. -/
theorem carryWord_spec : ∀ (n : ℕ) {xs ys : List ℕ}, Digits BASE xs → Digits BASE ys →
    ∃ ds c, (zipWords (fun x y => (x + y) % 2 ^ 32) n xs ys).foldr carryWord ([], 0) = (ds, c)
      ∧ ds.length = n ∧ Digits BASE ds ∧ c ≤ 1
      ∧ leading BASE n ds + c * BASE ^ n = leading BASE n xs + leading BASE n ys
  | 0, _, _, _, _ => ⟨[], 0, rfl, rfl, by simp [Digits], by simp, by simp [leading]⟩
  | n + 1, xs, ys, hxs, hys => by
    obtain ⟨ds, c, heq, hlen, hdigits, hc, hvalue⟩ :=
      carryWord_spec n (digits_of_tail hxs) (digits_of_tail hys)
    have hx := headD_lt hxs
    have hy := headD_lt hys
    have hfit : ((xs.headD 0 + ys.headD 0) % 2 ^ 32 + c) % 2 ^ 32
        = xs.headD 0 + ys.headD 0 + c := by
      simp only [BASE] at hx hy
      omega
    rw [zipWords, foldr_cons, heq, carryWord]
    simp only [hfit]
    rw [leading_succ BASE n xs, leading_succ BASE n ys]
    have hsum : (xs.headD 0 + ys.headD 0 + c) * BASE ^ n
        = xs.headD 0 * BASE ^ n + ys.headD 0 * BASE ^ n + c * BASE ^ n := by ring
    split_ifs with hge
    · refine ⟨_, 1, rfl, by rw [length_cons, hlen], digits_cons (by omega) hdigits, le_rfl, ?_⟩
      rw [leading, pow_succ', Nat.sub_mul]
      have hle : BASE * BASE ^ n ≤ (xs.headD 0 + ys.headD 0 + c) * BASE ^ n :=
        Nat.mul_le_mul_right _ hge
      omega
    · refine ⟨_, 0, rfl, by rw [length_cons, hlen], digits_cons (by omega) hdigits,
        Nat.zero_le _, ?_⟩
      rw [leading]
      omega

theorem borrowWord_spec (subNegative : Bool) : ∀ (n : ℕ) {xs ys : List ℕ}, Digits BASE xs →
    Digits BASE ys →
    ∃ ds c, (zipWords (fun x y => (x : ℤ) - y) n xs ys).foldr (borrowWord subNegative) ([], 0)
        = (ds, c)
      ∧ ds.length = n ∧ Digits BASE ds ∧ c ≤ 1
      ∧ (leading BASE n ds : ℤ) = (if subNegative then (leading BASE n ys : ℤ) - leading BASE n xs
          else (leading BASE n xs : ℤ) - leading BASE n ys) + c * (BASE : ℤ) ^ n
  | 0, _, _, _, _ => ⟨[], 0, rfl, rfl, by simp [Digits], by simp, by simp [leading]⟩
  | n + 1, xs, ys, hxs, hys => by
    obtain ⟨ds, c, heq, hlen, hdigits, hc, hvalue⟩ :=
      borrowWord_spec subNegative n (digits_of_tail hxs) (digits_of_tail hys)
    have hx := headD_lt hxs
    have hy := headD_lt hys
    rw [zipWords, foldr_cons, heq, borrowWord]
    simp only [leading_succ BASE n xs, leading_succ BASE n ys]
    generalize hdigit : (if subNegative = true then 0 - ((xs.headD 0 : ℤ) - ys.headD 0 + c)
      else (xs.headD 0 : ℤ) - ys.headD 0 - c) = digit
    have hlow : -(BASE : ℤ) ≤ digit := by
      rw [← hdigit]
      split_ifs <;> omega
    have hhigh : digit < BASE := by
      rw [← hdigit]
      split_ifs <;> omega
    have hcells :
      (if subNegative = true then ((ys.headD 0 * BASE ^ n + leading BASE n ys.tail : ℕ) : ℤ)
          - ((xs.headD 0 * BASE ^ n + leading BASE n xs.tail : ℕ) : ℤ)
        else ((xs.headD 0 * BASE ^ n + leading BASE n xs.tail : ℕ) : ℤ)
          - ((ys.headD 0 * BASE ^ n + leading BASE n ys.tail : ℕ) : ℤ))
        = digit * (BASE : ℤ) ^ n + leading BASE n ds := by
      rw [hvalue, ← hdigit]
      split_ifs <;> (push_cast; ring)
    rw [hcells]
    split_ifs with hneg
    · refine ⟨_, 1, rfl, by rw [length_cons, hlen], digits_cons (by omega) hdigits, le_rfl, ?_⟩
      rw [leading]
      push_cast
      rw [toNat_of_nonneg (by omega)]
      ring
    · refine ⟨_, 0, rfl, by rw [length_cons, hlen], digits_cons (by omega) hdigits,
        Nat.zero_le _, ?_⟩
      rw [leading]
      push_cast
      rw [toNat_of_nonneg (by omega)]
      ring

/-- The first word that differs decides which number is larger. -/
theorem firstDigitFlag_eq : ∀ (n : ℕ) {xs ys : List ℕ}, Digits BASE xs → Digits BASE ys →
    firstDigitFlag (zipWords (fun x y => (x : ℤ) - y) n xs ys)
      = ((leading BASE n xs : ℤ) - leading BASE n ys).sign
  | 0, _, _, _, _ => by simp [zipWords, firstDigitFlag, leading]
  | n + 1, xs, ys, hxs, hys => by
    have hxlt := leading_lt base_pos_nat n (digits_of_tail hxs)
    have hylt := leading_lt base_pos_nat n (digits_of_tail hys)
    have hmul : ∀ {p q : ℕ}, p < q → p * BASE ^ n + BASE ^ n ≤ q * BASE ^ n := by
      intro p q hpq
      have := Nat.mul_le_mul_right (BASE ^ n) hpq
      rwa [Nat.succ_mul] at this
    rw [zipWords, firstDigitFlag, leading_succ BASE n xs, leading_succ BASE n ys]
    split_ifs with hzero hpos
    · rw [firstDigitFlag_eq n (digits_of_tail hxs) (digits_of_tail hys),
        show xs.headD 0 = ys.headD 0 by omega]
      push_cast
      ring_nf
    · have := hmul (show ys.headD 0 < xs.headD 0 by omega)
      exact (sign_eq_one_of_pos (by omega)).symm
    · have := hmul (show xs.headD 0 < ys.headD 0 by omega)
      exact (sign_eq_neg_one_of_neg (by omega)).symm

/-! ## What is computed -/

section Ends

variable {cfg : Config} {a b n : ObNumber} {e f : ℤ}

/-- The words of the two operands that `add_v2_` and `sub_v2_` align. -/
lemma alignV2_words {α : Type} (combine : ℕ → ℕ → α) (k : ℕ) (ha : Normal a e) (hb : Normal b f)
    (he : InLimits e) (hf : InLimits f) :
    alignV2 combine k (max (getDecodeExp a.d) (getDecodeExp b.d)) ⟨getDecodeExp a.d, a.words⟩
        ⟨getDecodeExp b.d, b.words⟩ = zipWords combine k (shifted (max e f - e).toNat a.words)
          (shifted (max e f - f).toNat b.words) := by
  rw [ha.decode_eq he, hb.decode_eq hf]
  exact alignV2_eq combine k (.inr (le_max_left e f)) (.inr (le_max_right e f))

lemma Normal.pow_le_window (h : Normal n e) :
    BASE ^ 8 ≤ leading BASE 9 (shifted (e - e).toNat n.words) := by
  obtain ⟨d, ds, hw, hd⟩ := h.words_eq_cons
  rw [sub_self, hw]
  exact pow_le_leading hd

lemma addAlignedV2_ends (ha : Normal a e) (hb : Normal b f) (he : InLimits e) (hf : InLimits f)
    (hs : a.d.sign = b.d.sign) {Near : Prop} (hnear : Near) :
    Ends cfg Near (addAlignedV2 cfg a b) (truncTo ((BASE : ℚ) ^ (max e f - 8)) a.value
        + truncTo ((BASE : ℚ) ^ (max e f - 8)) b.value) := by
  have hbe := he.bounds
  have hbf := hf.bounds
  have hwa := ha.truncTo_window he (le_max_left e f) 8
  have hwb := hb.truncTo_window hf (le_max_right e f) 8
  rw [Nat.cast_ofNat] at hwa hwb
  simp only [addAlignedV2]
  rw [alignV2_words _ 9 ha hb he hf, ha.decode_eq he, hb.decode_eq hf, hwa, hwb, ← hs]
  obtain ⟨ds, c, heq, hlen, hdigits, hc, hvalue⟩ := carryWord_spec 9
    (digits_shifted ha.digits (max e f - e).toNat) (digits_shifted hb.digits (max e f - f).toNat)
  have hpos : BASE ^ 8 ≤ leading BASE 9 (shifted (max e f - e).toNat a.words)
      + leading BASE 9 (shifted (max e f - f).toNat b.words) := by
    rcases le_total f e with hle | hle
    · rw [max_eq_left hle]
      exact ha.pow_le_window.trans (Nat.le_add_right _ _)
    · rw [max_eq_right hle]
      exact hb.pow_le_window.trans (Nat.le_add_left _ _)
  have hpow : 0 < BASE ^ 8 := Nat.pow_pos base_pos_nat
  rw [heq]
  split_ifs with hcarry
  · -- the carry is one more word in front
    obtain rfl : c = 1 := by omega
    have hone : trim (1 :: ds) = 1 :: trim ds := trim_cons_of_ne fun h => one_ne_zero h.2
    have hgood : GoodWords 10 (trim (1 :: ds)) := by
      refine ⟨by rw [hone]; exact cons_ne_nil _ _, (length_trim_le _).trans (by simp [hlen]),
        digits_trim (digits_cons (by simp [BASE]) hdigits), by rw [hone]; simp, trimmed_trim _⟩
    rw [stripLen_eq_length (by rw [length_cons, hlen]), take_of_length_le (by simp [hlen])]
    refine (assigned_assignStrict (by omega) (by omega) (take_length_trim _)).ends hgood hnear
      (by omega) ?_
    rw [magnitude_of_length_le (show _ ≤ 9 + 1 from hgood.length_le), leading_trim, leading,
      show max e f + 1 - ((9 : ℕ) : ℤ) = max e f - 8 by push_cast; ring]
    have hcast : ((1 * BASE ^ 9 + leading BASE 9 ds : ℕ) : ℚ)
        = leading BASE 9 (shifted (max e f - e).toNat a.words)
          + leading BASE 9 (shifted (max e f - f).toNat b.words) := by
      rw [add_comm]
      exact_mod_cast hvalue
    rw [hcast]
    ring
  · obtain rfl : c = 0 := by omega
    rw [Nat.zero_mul, add_zero] at hvalue
    have hgood : GoodWords 9 (trim ds) := by
      refine ⟨?_, (length_trim_le _).trans hlen.le, digits_trim hdigits,
        head_trim (head_ne_zero_of_le_leading hdigits (hvalue ▸ hpos)), trimmed_trim _⟩
      intro hnil
      have := trim_eq_nil hnil BASE 9
      omega
    rw [stripLen_eq_length hlen.ge, take_of_length_le hlen.le]
    refine (assigned_assignStrict (by omega) (by omega) (take_length_trim _)).ends
      (hgood.mono (by omega)) hnear (by omega) ?_
    rw [magnitude_of_length_le (show _ ≤ 8 + 1 from hgood.length_le), leading_trim, hvalue]
    push_cast
    ring

/-- Both loops of `sub_v2_`: nothing is borrowed from in front of the first word. -/
lemma subCellsV2_spec {xs ys : List ℕ} (hxs : Digits BASE xs) (hys : Digits BASE ys) :
    ∃ ds c, (zipWords (fun x y => (x : ℤ) - y) 10 xs ys).foldr
          (borrowWord (decide (leading BASE 10 xs < leading BASE 10 ys))) ([], 0) = (ds, c)
      ∧ (firstDigitFlag (zipWords (fun x y => (x : ℤ) - y) 10 xs ys) == -1)
          = decide (leading BASE 10 xs < leading BASE 10 ys) ∧ ds.length = 10 ∧ Digits BASE ds
      ∧ (leading BASE 10 ds : ℤ) = if leading BASE 10 xs < leading BASE 10 ys
          then (leading BASE 10 ys : ℤ) - leading BASE 10 xs
          else (leading BASE 10 xs : ℤ) - leading BASE 10 ys := by
  obtain ⟨ds, c, heq, hlen, hdigits, hc, hvalue⟩ :=
    borrowWord_spec (decide (leading BASE 10 xs < leading BASE 10 ys)) 10 hxs hys
  refine ⟨ds, c, heq, ?_, hlen, hdigits, ?_⟩
  · rw [firstDigitFlag_eq 10 hxs hys]
    rcases lt_trichotomy (leading BASE 10 xs) (leading BASE 10 ys) with h | h | h
    · simp [h]
    · simp [h]
    · rw [sign_eq_one_of_pos (by omega)]
      simp [h.le]
  · have hlt : (leading BASE 10 ds : ℤ) < (BASE : ℤ) ^ 10 := by
      exact_mod_cast leading_lt base_pos_nat 10 hdigits
    simp only [decide_eq_true_eq] at hvalue
    have hcases : c = 0 ∨ c = 1 := by omega
    rcases hcases with rfl | rfl
    · simpa using hvalue
    · split_ifs at hvalue <;> omega

lemma goodWords_drop_leadingZeros {ds : List ℕ} {k : ℕ} (hlen : ds.length = k)
    (hdigits : Digits BASE ds) (hz : leadingZeros ds < k) :
    GoodWords (k - leadingZeros ds) (trim (ds.drop (leadingZeros ds))) := by
  have hfirst : (ds.drop (leadingZeros ds)).head? ≠ some 0 := head_drop_leadingZeros ds
  have hlenz : (ds.drop (leadingZeros ds)).length = k - leadingZeros ds := by rw [length_drop, hlen]
  refine ⟨?_, (length_trim_le _).trans hlenz.le, digits_trim (hdigits.drop _), head_trim hfirst,
    trimmed_trim _⟩
  intro hnil
  obtain ⟨d, rest, hd⟩ := exists_cons_of_length_pos
    (show 0 < (ds.drop (leadingZeros ds)).length by omega)
  rw [hd] at hfirst hnil
  have hd0 : d ≠ 0 := by simpa using hfirst
  rw [trim_cons_of_ne fun h => hd0 h.2] at hnil
  cases hnil

lemma subV2_factor : ∀ (s : Sign) (subNegative : Bool),
    (if (s == .negative) = subNegative then Sign.positive else .negative).factor
      = s.factor * if subNegative then -1 else 1
  | .positive, true => by simp [Sign.factor]
  | .positive, false => by simp [Sign.factor]
  | .negative, true => by simp [Sign.factor]
  | .negative, false => by simp [Sign.factor]

lemma subAlignedV2_ends (ha : Normal a e) (hb : Normal b f) (he : InLimits e) (hf : InLimits f)
    (hs : a.d.sign = b.d.sign) {Near : Prop} (hnear : Near) :
    Ends cfg Near (subAlignedV2 cfg a b) (truncTo ((BASE : ℚ) ^ (max e f - 9)) a.value
        - truncTo ((BASE : ℚ) ^ (max e f - 9)) b.value) := by
  have hbe := he.bounds
  have hbf := hf.bounds
  have hwa := ha.truncTo_window he (le_max_left e f) 9
  have hwb := hb.truncTo_window hf (le_max_right e f) 9
  rw [Nat.cast_ofNat] at hwa hwb
  obtain ⟨ds, c, heq, hflag, hlen, hdigits, hvalue⟩ := subCellsV2_spec
    (digits_shifted ha.digits (max e f - e).toNat) (digits_shifted hb.digits (max e f - f).toNat)
  simp only [subAlignedV2]
  rw [alignV2_words _ 10 ha hb he hf, hflag, heq, ha.decode_eq he, hb.decode_eq hf, hwa, hwb, ← hs]
  generalize leading BASE 10 (shifted (max e f - e).toNat a.words) = A at hvalue ⊢
  generalize leading BASE 10 (shifted (max e f - f).toNat b.words) = B at hvalue ⊢
  have hshiftz : shifted (leadingZeros ds) (ds.drop (leadingZeros ds)) = ds :=
    shifted_leadingZeros ds
  rcases lt_or_ge 9 (leadingZeros ds) with hzero | hsome
  · have hall : leading BASE 10 ds = 0 := by
      rw [← hshiftz, leading_shifted, Nat.sub_eq_zero_of_le (by omega), leading]
    have hAB : A = B := by split_ifs at hvalue <;> omega
    rw [if_pos hzero, hAB, sub_self]
    exact ends_zero
  have hgood := goodWords_drop_leadingZeros hlen hdigits (Nat.lt_succ_of_le hsome)
  have hlead : leading BASE (10 - leadingZeros ds) (ds.drop (leadingZeros ds))
      = leading BASE 10 ds := by
    conv_rhs => rw [← hshiftz, leading_shifted]
  rw [if_neg (not_lt.2 hsome)]
  generalize leadingZeros ds = z at hsome hgood hlead ⊢
  have hlenz : (ds.drop z).length = 10 - z := by rw [length_drop, hlen]
  have hmag := magnitude_of_length_le
    (show (trim (ds.drop z)).length ≤ 9 - z + 1 by have := hgood.length_le; omega) (max e f - z)
  rw [show max e f - (z : ℤ) - ((9 - z : ℕ) : ℤ) = max e f - 9 by omega,
    show 9 - z + 1 = 10 - z by omega, leading_trim, hlead] at hmag
  have hcast : (leading BASE 10 ds : ℚ) = if A < B then (B : ℚ) - A else (A : ℚ) - B := by
    have := congrArg (Int.cast : ℤ → ℚ) hvalue
    push_cast at this
    exact this
  rw [stripLen_eq_length hlenz.ge, take_of_length_le hlenz.le]
  refine (assigned_assignStrict (by omega) (by omega) (take_length_trim _)).ends
    (hgood.mono (by omega)) hnear (by omega) ?_
  rw [hmag, hcast, subV2_factor]
  rcases lt_or_ge A B with h | h
  · simp only [h, decide_true, if_true]
    ring
  · simp only [not_lt.2 h, decide_false, Bool.false_eq_true, if_false]
    ring

/-- The value of a difference of numbers of one sign as `sub_v2_` computes it, on ten words. -/
def windowedTen (a b : ObNumber) : ℚ :=
  let e := getDecodeExp a.d
  let f := getDecodeExp b.d
  if f + 9 ≤ e then a.value
  else if e + 9 ≤ f then -b.value
  else
    truncTo ((BASE : ℚ) ^ (max e f - 9)) a.value - truncTo ((BASE : ℚ) ^ (max e f - 9)) b.value

/-- The value that is computed, before it is rounded. -/
lemma addSameSignV2_ends (ha : Normal a e) (hb : Normal b f) (he : InLimits e) (hf : InLimits f)
    (hs : a.d.sign = b.d.sign) :
    Ends cfg (e < f + 9 ∧ f < e + 9) (addSameSignV2 cfg a b) (windowed 1 a b) := by
  simp only [addSameSignV2, windowed, ha.decode_eq he, hb.decode_eq hf,
    show OB_MAX_DECIMAL_DIGIT = 9 from rfl, one_mul]
  exact ends_ite (fun _ => ha.deepCopy_ends he (by omega)) fun hef =>
    ends_ite (fun _ => hb.deepCopy_ends hf (by omega)) fun hfe =>
      addAlignedV2_ends ha hb he hf hs ⟨not_le.1 hef, not_le.1 hfe⟩

lemma subSameSignV2_ends (ha : Normal a e) (hb : Normal b f) (he : InLimits e) (hf : InLimits f)
    (hs : a.d.sign = b.d.sign) :
    Ends cfg (e < f + 9 ∧ f < e + 9) (subSameSignV2 cfg a b) (windowedTen a b) := by
  simp only [subSameSignV2, windowedTen, ha.decode_eq he, hb.decode_eq hf,
    show OB_MAX_DECIMAL_DIGIT = 9 from rfl]
  exact ends_ite (fun _ => ha.deepCopy_ends he (by omega)) fun hef =>
    ends_ite (fun _ => hb.negateV3_ends hf (by omega)) fun hfe =>
      subAlignedV2_ends ha hb he hf hs ⟨not_le.1 hef, not_le.1 hfe⟩

lemma map_id_eq (res : Except Err ObNumber) : res.map id = res := by cases res <;> rfl

lemma Normal.subV2_eq (ha : Normal a e) (hb : Normal b f) (hf : InLimits f) :
    subV2With id cfg a b = if a.d.sign = b.d.sign then subSameSignV2 cfg a b
      else addSameSignV2 cfg a b.negate := by
  have hneg := hb.negate hf
  rw [subV2With, ha.isZero_eq, if_neg Bool.false_ne_true,
    dif_neg (by rw [hb.isZero_eq]; exact Bool.false_ne_true), map_id_eq]
  split_ifs with hs
  · rfl
  · rw [addV2With, ha.isZero_eq, if_neg Bool.false_ne_true,
      dif_neg (by rw [hneg.isZero_eq]; exact Bool.false_ne_true),
      if_pos (by rw [hb.negate_sign]; exact flipSign_of_ne hs), map_id_eq]

end Ends

/-! ## Where the two subtractions differ -/

/-- The word of the operand of smaller exponent right below the nine words of the window. -/
def belowWindow (a b : ObNumber) : ℕ :=
  let e := getDecodeExp a.d
  let f := getDecodeExp b.d
  if f < e then b.words.getD (9 - (e - f).toNat) 0
  else if e < f then a.words.getD (9 - (f - e).toNat) 0
  else 0

/-- `sub_v3` ignores a word that `sub_v2_` subtracts, and the result is not too small to be
represented. -/
def LosesWord (a b : ObNumber) : Prop :=
  a.d.sign = b.d.sign ∧ |getDecodeExp a.d - getDecodeExp b.d| < 9 ∧ belowWindow a b ≠ 0
    ∧ -15 ≤ exponent (windowed (-1) a b)

section Windows

variable {a b : ObNumber} {e f : ℤ}

lemma Normal.getD_nine (h : Normal a e) : a.words.getD 9 0 = 0 := by
  have hlen := h.length_eq
  have hle : a.d.len ≤ 9 := h.len_le
  rw [getD_eq_getElem?_getD, getElem?_eq_none (by omega)]
  rfl

/-- Nine and ten words of two numbers, the first of which has the larger exponent. -/
lemma windows_of_lt (ha : Normal a e) (hb : Normal b f) (hfe : f < e) (hef : e < f + 9) :
    ∃ D : ℕ, 0 < D ∧ D < BASE ^ 9 ∧ b.words.getD (9 - (e - f).toNat) 0 < BASE
      ∧ leading BASE 9 (shifted (e - e).toNat a.words)
          = D + leading BASE 9 (shifted (e - f).toNat b.words)
      ∧ leading BASE 10 (shifted (e - e).toNat a.words) + b.words.getD (9 - (e - f).toNat) 0
          = D * BASE + leading BASE 10 (shifted (e - f).toNat b.words) := by
  have hlt := leading_shifted_lt ha hb (show 0 < (e - f).toNat by omega)
  have hnine := leading_lt base_pos_nat 9 ha.digits
  have hlastA := leading_succ_last BASE 9 a.words
  have hlastB := leading_succ_last BASE 9 (shifted (e - f).toNat b.words)
  rw [ha.getD_nine] at hlastA
  rw [shifted_getD_of_ge _ (by omega)] at hlastB
  rw [sub_self, toNat_zero, shifted_zero]
  refine ⟨leading BASE 9 a.words - leading BASE 9 (shifted (e - f).toNat b.words), by omega,
    by omega, digits_getD hb.digits _, by omega, ?_⟩
  rw [hlastA, hlastB, Nat.sub_mul]
  have := Nat.mul_le_mul_right BASE hlt.le
  omega

lemma unit_succ (M : ℤ) : (BASE : ℚ) ^ (M - 8) = BASE * (BASE : ℚ) ^ (M - 9) := by
  rw [← zpow_one_add₀ base_pos.ne']
  ring_nf

/-- The two differences, in units of the tenth word, are apart by the word that only `sub_v2_` sees.
-/
lemma windowed_difference (ha : Normal a e) (hb : Normal b f) (he : InLimits e) (hf : InLimits f)
    (hs : a.d.sign = b.d.sign) (hef : e < f + 9) (hfe : f < e + 9) :
    ∃ (φ : ℚ) (D : ℕ), |φ| = 1 ∧ D < BASE ^ 9 ∧ belowWindow a b < BASE
      ∧ (belowWindow a b ≠ 0 → 0 < D)
      ∧ windowed (-1) a b = φ * (D * BASE * (BASE : ℚ) ^ (max e f - 9))
      ∧ windowedTen a b = φ * ((D * BASE - belowWindow a b) * (BASE : ℚ) ^ (max e f - 9)) := by
  have hwa8 := ha.truncTo_window he (le_max_left e f) 8
  have hwb8 := hb.truncTo_window hf (le_max_right e f) 8
  have hwa9 := ha.truncTo_window he (le_max_left e f) 9
  have hwb9 := hb.truncTo_window hf (le_max_right e f) 9
  rw [Nat.cast_ofNat] at hwa8 hwb8 hwa9 hwb9
  simp only [windowed, windowedTen, belowWindow, ha.decode_eq he, hb.decode_eq hf,
    if_neg (not_le.2 hef), if_neg (not_le.2 hfe)]
  rw [hwa8, hwb8, hwa9, hwb9, ← hs, unit_succ]
  rcases lt_trichotomy e f with hlt | rfl | hlt
  · obtain ⟨D, hpos, hD, hw, hnine, hten⟩ := windows_of_lt hb ha hlt hfe
    rw [max_eq_right hlt.le, if_neg (not_lt.2 hlt.le), if_pos hlt]
    refine ⟨-a.d.sign.factor, D, by rw [abs_neg, abs_factor], hD, hw, fun _ => hpos, ?_, ?_⟩
    · rw [hnine]
      push_cast
      ring
    · have hcast := congrArg (Nat.cast : ℕ → ℚ) hten
      push_cast at hcast
      linear_combination (a.d.sign.factor * (BASE : ℚ) ^ (f - 9)) * -hcast
  · have hzero : ∀ l, shifted (e - e).toNat l = l := by
      intro l
      rw [sub_self, toNat_zero, shifted_zero]
    have hlastA := leading_succ_last BASE 9 a.words
    have hlastB := leading_succ_last BASE 9 b.words
    have hA := leading_lt base_pos_nat 9 ha.digits
    have hB := leading_lt base_pos_nat 9 hb.digits
    rw [ha.getD_nine] at hlastA
    rw [hb.getD_nine, add_zero] at hlastB
    rw [max_self, if_neg (lt_irrefl e), if_neg (lt_irrefl e), hzero, hzero, hlastA, hlastB]
    rcases le_total (leading BASE 9 b.words) (leading BASE 9 a.words) with hle | hle
    · refine ⟨a.d.sign.factor, leading BASE 9 a.words - leading BASE 9 b.words, abs_factor _,
        by omega, base_pos_nat, fun h => absurd rfl h, ?_, ?_⟩ <;>
      · push_cast [hle]
        ring
    · refine ⟨-a.d.sign.factor, leading BASE 9 b.words - leading BASE 9 a.words,
        by rw [abs_neg, abs_factor], by omega, base_pos_nat, fun h => absurd rfl h, ?_, ?_⟩ <;>
      · push_cast [hle]
        ring
  · obtain ⟨D, hpos, hD, hw, hnine, hten⟩ := windows_of_lt ha hb hlt hef
    rw [max_eq_left hlt.le, if_pos hlt]
    refine ⟨a.d.sign.factor, D, abs_factor _, hD, hw, fun _ => hpos, ?_, ?_⟩
    · rw [hnine]
      push_cast
      ring
    · have hcast := congrArg (Nat.cast : ℕ → ℚ) hten
      push_cast at hcast
      linear_combination (a.d.sign.factor * (BASE : ℚ) ^ (e - 9)) * hcast

/-- A difference of at most ten words under an exponent within the limits. -/
lemma exponent_difference_le {x : ℚ} {M : ℤ} (hx : x ≠ 0)
    (hlt : |x| < (BASE : ℚ) ^ 10 * (BASE : ℚ) ^ (M - 9)) (hM : M ≤ 14) : exponent x ≤ 14 := by
  refine lt_add_one_iff.1 ((exponent_lt_iff hx).2 ?_)
  calc |x| < (BASE : ℚ) ^ 10 * (BASE : ℚ) ^ (M - 9) := hlt
    _ = (BASE : ℚ) ^ (M + 1) := by
        rw [← zpow_natCast, ← zpow_add₀ base_pos.ne']
        ring_nf
    _ ≤ (BASE : ℚ) ^ (14 + 1 : ℤ) := zpow_le_zpow_right₀ one_le_base (by omega)

/-- With the lost word the difference of `sub_v2_` is the smaller one, and neither is zero or too
large. -/
lemma differences_apart (ha : Normal a e) (hb : Normal b f) (he : InLimits e) (hf : InLimits f)
    (hs : a.d.sign = b.d.sign) (hef : e < f + 9) (hfe : f < e + 9) (hword : belowWindow a b ≠ 0) :
    |windowedTen a b| < |windowed (-1) a b| ∧ windowedTen a b ≠ 0
      ∧ exponent (windowedTen a b) ≤ 14 ∧ exponent (windowed (-1) a b) ≤ 14 := by
  have hbe := he.bounds
  have hbf := hf.bounds
  have hM : max e f ≤ 14 := by omega
  obtain ⟨φ, D, hφ, hD, hw, hpos, hx3, hx2⟩ := windowed_difference ha hb he hf hs hef hfe
  have hunit : (0 : ℚ) < (BASE : ℚ) ^ (max e f - 9) := zpow_pos base_pos _
  have hword0 : (0 : ℚ) < belowWindow a b := by exact_mod_cast pos_of_ne_zero hword
  have hle : BASE ≤ D * BASE := Nat.le_mul_of_pos_left BASE (hpos hword)
  have hq2 : (0 : ℚ) < D * BASE - belowWindow a b := by
    have : ((belowWindow a b : ℕ) : ℚ) < ((D * BASE : ℕ) : ℚ) := by exact_mod_cast hw.trans_le hle
    push_cast at this
    linarith
  have hq3 : (0 : ℚ) < D * BASE := by linarith
  have hq10 : (D : ℚ) * BASE < (BASE : ℚ) ^ 10 := by
    rw [pow_succ]
    exact mul_lt_mul_of_pos_right (by exact_mod_cast hD) base_pos
  have habs : ∀ {q : ℚ}, 0 < q →
      |φ * (q * (BASE : ℚ) ^ (max e f - 9))| = q * (BASE : ℚ) ^ (max e f - 9) := by
    intro q hq
    rw [abs_mul, hφ, one_mul, abs_of_pos (mul_pos hq hunit)]
  have habs2 := habs hq2
  have habs3 := habs hq3
  rw [← hx2] at habs2
  rw [← hx3] at habs3
  have hlt : |windowedTen a b| < |windowed (-1) a b| := by
    rw [habs2, habs3]
    exact mul_lt_mul_of_pos_right (by linarith) hunit
  have hne2 : windowedTen a b ≠ 0 := abs_pos.1 (by rw [habs2]; exact mul_pos hq2 hunit)
  have hne3 : windowed (-1) a b ≠ 0 := abs_pos.1 ((abs_nonneg _).trans_lt hlt)
  have hlt3 : |windowed (-1) a b| < (BASE : ℚ) ^ 10 * (BASE : ℚ) ^ (max e f - 9) := by
    rw [habs3]
    exact mul_lt_mul_of_pos_right hq10 hunit
  exact ⟨hlt, hne2, exponent_difference_le hne2 (hlt.trans hlt3) hM,
    exponent_difference_le hne3 hlt3 hM⟩

/-- The differences of numbers of one sign whose exponents are close. -/
lemma sameSign_value_iff {cfg : Config} (horacle : cfg.oracleMode = false) (ha : Normal a e)
    (hb : Normal b f) (he : InLimits e) (hf : InLimits f) (hs : a.d.sign = b.d.sign)
    (hef : e < f + 9) (hfe : f < e + 9) :
    (∀ r2 r3, subSameSignV2 cfg a b = .ok r2 → subSameSign cfg a b = .ok r3 → r2.value = r3.value)
      ↔ (cfg.alloc = true → belowWindow a b = 0 ∨ exponent (windowed (-1) a b) < -15) := by
  have hmax : maxExp cfg.oracleMode = 14 := by rw [horacle]; rfl
  have hv2 : Ends cfg _ (subSameSignV2 cfg a b) _ := subSameSignV2_ends ha hb he hf hs
  have hv3 : Ends cfg _ (subSameSign cfg a b) _ := subSameSign_ends ha hb he hf hs
  rcases eq_or_ne (belowWindow a b) 0 with hzero | hword
  · obtain ⟨φ, D, -, -, -, -, hx3, hx2⟩ := windowed_difference ha hb he hf hs hef hfe
    rw [hzero, Nat.cast_zero, sub_zero, ← hx3] at hx2
    rw [hx2] at hv2
    exact ⟨fun _ _ => .inl hzero, fun _ r2 r3 h2 h3 => hv3.value_eq hv2 h3 h2⟩
  obtain ⟨habs, hne2, hexp2, hexp3⟩ := differences_apart ha hb he hf hs hef hfe hword
  have hne3 : windowed (-1) a b ≠ 0 := abs_pos.1 ((abs_nonneg _).trans_lt habs)
  constructor
  · intro hsame halloc
    right
    by_contra hlim
    obtain ⟨r2, h2⟩ := hv2.exists_ok halloc (hmax ▸ hexp2)
    obtain ⟨r3, h3⟩ := hv3.exists_ok halloc (hmax ▸ hexp3)
    have hvalue3 : r3.value = windowed (-1) a b := by
      rcases hv3.ok r3 h3 with ⟨-, hsmall⟩ | ⟨-, -, hvalue, -⟩
      · exact absurd (hsmall.resolve_left hne3) hlim
      · exact hvalue
    have hsame' := hsame r2 r3 h2 h3
    rcases hv2.ok r2 h2 with ⟨rfl, -⟩ | ⟨-, -, hvalue2, -⟩
    · rw [hvalue3, value_of_zero rfl] at hsame'
      exact hne3 hsame'.symm
    · rw [hvalue2, hvalue3] at hsame'
      rw [hsame'] at habs
      exact lt_irrefl _ habs
  · intro hcond r2 r3 h2 h3
    -- both results are zero: they are too small, or there is no memory
    have hzero2 : r2 = zero := by
      rcases hv2.ok r2 h2 with ⟨hz, -⟩ | ⟨halloc, hten, -, -⟩
      · exact hz
      · have hsmall := (exponent_lt_iff hne3).1 ((hcond halloc).resolve_left hword)
        have := (exponent_lt_iff hne2).2 (habs.trans hsmall)
        exact absurd this (not_lt.2 hten.limits.bounds.1)
    have hzero3 : r3 = zero := by
      rcases hv3.ok r3 h3 with ⟨hz, -⟩ | ⟨halloc, hten, -, -⟩
      · exact hz
      · exact absurd ((hcond halloc).resolve_left hword) (not_lt.2 hten.limits.bounds.1)
    rw [hzero2, hzero3]

end Windows

/-- **The two subtractions** compute the same value exactly when no word is lost. -/
theorem subV2_eq_subV3_iff (cfg : Config) (horacle : cfg.oracleMode = false)
    (hround : cfg.doRounding = false) (a b : ObNumber) (ha : Normalized a) (hb : Normalized b) :
    (∀ r₂ r₃, subV2With id cfg a b = .ok r₂ → subV3 cfg a b = .ok r₃ → r₂.value = r₃.value)
      ↔ (cfg.alloc = true → ¬ LosesWord a b) := by
  have hcopy : ∀ {res : Except Err ObNumber} {P : Prop}, ¬ LosesWord a b →
      ((∀ r₂ r₃, res = .ok r₂ → res = .ok r₃ → r₂.value = r₃.value)
        ↔ (P → ¬ LosesWord a b)) := by
    intro res P hnot
    refine ⟨fun _ _ => hnot, fun _ r₂ r₃ h2 h3 => ?_⟩
    rw [h2] at h3
    cases h3
    rfl
  rcases ha with hza | ⟨e, hna, he⟩
  · have hnot : ¬ LosesWord a b := by
      rintro ⟨-, hnear, hword, -⟩
      rw [decode_of_zero hza] at hnear
      rcases hb with hzb | ⟨f, hnb, hf⟩
      · simp [belowWindow, decode_of_zero hza, decode_of_zero hzb] at hword
      · exact Normalized.far_of_zero (.inr ⟨f, hnb, hf⟩) (hnb.value_ne_zero hf) hnear
    rw [subV3_of_zero_left hza, map_roundAfter hround, subV2With, if_pos (isZero_of_zero hza),
      map_id_eq]
    exact hcopy hnot
  rcases hb with hzb | ⟨f, hnb, hf⟩
  · have hnot : ¬ LosesWord a b := by
      rintro ⟨-, hnear, -, -⟩
      rw [decode_of_zero hzb, abs_sub_comm] at hnear
      exact Normalized.far_of_zero (.inr ⟨e, hna, he⟩) (hna.value_ne_zero he) hnear
    rw [hna.subV3_of_zero_right hzb, map_roundAfter hround, subV2With, hna.isZero_eq,
      if_neg Bool.false_ne_true, dif_pos (isZero_of_zero hzb), map_id_eq]
    exact hcopy hnot
  have hnear : (e < f + 9 ∧ f < e + 9) ↔ |getDecodeExp a.d - getDecodeExp b.d| < 9 := by
    rw [hna.decode_eq he, hnb.decode_eq hf, abs_lt]
    omega
  rw [hna.subV3_eq hnb hf, hna.subV2_eq hnb hf]
  simp only [map_roundAfter hround]
  rcases eq_or_ne a.d.sign b.d.sign with hs | hs
  · simp only [if_pos hs]
    by_cases hclose : e < f + 9 ∧ f < e + 9
    · rw [sameSign_value_iff horacle hna hnb he hf hs hclose.1 hclose.2]
      have hclose' := hnear.1 hclose
      constructor
      · rintro h halloc ⟨-, -, hword, hlim⟩
        rcases h halloc with h | h
        · exact hword h
        · omega
      · intro h halloc
        by_contra hno
        obtain ⟨hword, hlim⟩ := not_or.1 hno
        exact h halloc ⟨hs, hclose', hword, not_lt.1 hlim⟩
    · -- one operand is below the window of the other, and both functions copy the other
      have hsame : subSameSignV2 cfg a b = subSameSign cfg a b := by
        simp only [subSameSignV2, subSameSign, hna.decode_eq he, hnb.decode_eq hf,
          show OB_MAX_DECIMAL_DIGIT = 9 from rfl]
        split_ifs with h1 h2
        · rfl
        · rfl
        · omega
      rw [hsame]
      exact hcopy fun h => hclose (hnear.2 h.2.1)
  · simp only [if_neg hs]
    have hneg := hnb.negate hf
    have hsign : a.d.sign = b.negate.d.sign := by
      rw [hnb.negate_sign]
      exact flipSign_of_ne hs
    refine ⟨fun _ _ h => hs h.1, fun _ r₂ r₃ h2 h3 => ?_⟩
    exact (addSameSign_ends hna hneg he hf hsign).value_eq
      (addSameSignV2_ends hna hneg he hf hsign) h3 h2

/-- `10 ^ 72`, `1.000000001`, and their difference in the two functions. -/
def tenTo72 : ObNumber := ⟨⟨1, 72, .positive⟩, [1]⟩

def onePlus : ObNumber := ⟨⟨2, 64, .positive⟩, [1, 1]⟩

def exactDifference : ObNumber :=
  ⟨⟨9, 71, .positive⟩, List.replicate 7 999999999 ++ [999999998, 999999999]⟩

def shortDifference : ObNumber := ⟨⟨8, 71, .positive⟩, List.replicate 8 999999999⟩

/-- The number `1`. -/
def wholeOne : ObNumber := ⟨⟨1, 64, .positive⟩, [1]⟩

/-- The last word of the window is needed and none below it, and both functions give `10 ^ 72 - 1`.
-/
theorem subV2_eq_subV3_iff_whole :
    Normalized tenTo72 ∧ Normalized wholeOne ∧ ¬ LosesWord tenTo72 wholeOne
      ∧ subV2With id unrounded tenTo72 wholeOne = .ok shortDifference
      ∧ subV3 unrounded tenTo72 wholeOne = .ok shortDifference
      ∧ ∀ r₂ r₃, subV2With id unrounded tenTo72 wholeOne = .ok r₂ →
          subV3 unrounded tenTo72 wholeOne = .ok r₃ → r₂.value = r₃.value := by
  have hten : Normalized tenTo72 := .inr ⟨8, by decide, by decide⟩
  have hone : Normalized wholeOne := .inr ⟨0, by decide, by decide⟩
  have hnot : ¬ LosesWord tenTo72 wholeOne := fun h => h.2.2.1 rfl
  exact ⟨hten, hone, hnot, by decide +kernel, by decide +kernel,
    (subV2_eq_subV3_iff unrounded rfl rfl tenTo72 wholeOne hten hone).2 fun _ => hnot⟩

/-- `sub_v2_` subtracts `1.000000001` from `10 ^ 72` exactly, `sub_v3` subtracts `1`. -/
theorem subV2_subV3_differ : Normalized tenTo72 ∧ Normalized onePlus
      ∧ subV2With id unrounded tenTo72 onePlus = .ok exactDifference
      ∧ subV3 unrounded tenTo72 onePlus = .ok shortDifference
      ∧ exactDifference.value ≠ shortDifference.value := by
  have hexact : Normalized exactDifference := .inr ⟨7, by decide, by decide⟩
  have hshort : Normalized shortDifference := .inr ⟨7, by decide, by decide⟩
  refine ⟨.inr ⟨8, by decide, by decide⟩, .inr ⟨0, by decide, by decide⟩, ?_, ?_, ?_⟩
  · decide +kernel
  · decide +kernel
  · intro hvalue
    have hcompare := hexact.compare_eq hshort
    rw [hvalue, sub_self] at hcompare
    revert hcompare
    decide

end OceanBase.Number
