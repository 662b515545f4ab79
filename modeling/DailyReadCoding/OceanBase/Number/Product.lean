import DailyReadCoding.OceanBase.Number.Window

/-!
# The word loops of multiplication

`mul_v3` adds all products of words into 64 bit cells, row by row, and resolves the carries
afterwards.  With at most nine words on the shorter side no cell and no carry overflows, so the
cells hold the exact product and the second loop turns them into its words.
-/

namespace OceanBase.Number

open Positional ObNumber List Nat

/-! ## The rows -/

/-- The largest product of two words. -/
def maxProduct : ℕ := (BASE - 1) * (BASE - 1)

/-- No cell exceeds `bound`. -/
def CellsLe (bound : ℕ) (cells : List ℕ) : Prop := ∀ c ∈ cells, c ≤ bound

lemma mul_le_maxProduct {w m : ℕ} (hw : w < BASE) (hm : m < BASE) : w * m ≤ maxProduct :=
  Nat.mul_le_mul (by omega) (by omega)

/-- Each round of the outer loop adds at most one product to a cell. -/
lemma mulRow_le {w bound : ℕ} (hw : w < BASE) : ∀ {ms cells : List ℕ}, Digits BASE ms →
    CellsLe bound cells → CellsLe (bound + maxProduct) (mulRow w ms cells)
  | [], cells, _, hc => fun c hmem => (hc c (by simpa [mulRow] using hmem)).trans (le_add_right _ _)
  | _ :: _, [], _, _ => by simp [mulRow, CellsLe]
  | m :: ms, c :: cs, hms, hc => by
    intro x hx
    rcases mem_cons.1 hx with rfl | hx
    · have hcb := hc c mem_cons_self
      have hprod := mul_le_maxProduct hw hms.head
      exact (mod_le _ _).trans (by omega)
    · exact mulRow_le hw hms.tail (fun y hy => hc y (mem_cons_of_mem c hy)) x hx

lemma length_mulRow (w : ℕ) : ∀ ms cells : List ℕ, (mulRow w ms cells).length = cells.length
  | [], cells => by simp [mulRow]
  | _ :: _, [] => by simp [mulRow]
  | m :: ms, c :: cs => by simp [mulRow, length_mulRow w ms cs]

/-- Without overflow a row adds the multiple of the multiplier. -/
lemma leading_mulRow {w bound : ℕ} (hw : w < BASE) (hbound : bound + maxProduct < 2 ^ 64) :
    ∀ (n : ℕ) {ms cells : List ℕ}, Digits BASE ms → ms.length ≤ cells.length → CellsLe bound cells →
        leading BASE n (mulRow w ms cells) = leading BASE n cells + w * leading BASE n ms
  | 0, _, _, _, _, _ => by simp [leading]
  | n + 1, [], cells, _, _, _ => by simp [mulRow]
  | n + 1, m :: ms, c :: cs, hms, hlen, hc => by
    have hcb := hc c mem_cons_self
    have hprod := mul_le_maxProduct hw hms.head
    have hfit : (c + w * m) % 2 ^ 64 = c + w * m := mod_eq_of_lt (by omega)
    have ih := leading_mulRow hw hbound n hms.tail (le_of_succ_le_succ hlen)
      (fun y hy => hc y (mem_cons_of_mem c hy))
    rw [mulRow, leading, leading, leading, ih, hfit]
    ring

lemma length_mulRows (ms : List ℕ) : ∀ ws cells : List ℕ,
    (mulRows ms ws cells).length = cells.length
  | [], cells => by simp [mulRows]
  | w :: ws, cells => by
    have hlen := length_mulRow w ms cells
    rw [mulRows]
    cases hrow : mulRow w ms cells with
    | nil => rw [← hlen, hrow]
    | cons c cs =>
      rw [hrow] at hlen
      simp only [length_cons, length_mulRows ms ws cs] at hlen ⊢
      exact hlen

/-- The cells stay within the number of rows times the largest product. -/
lemma mulRows_le {ms : List ℕ} (hms : Digits BASE ms) : ∀ {ws cells : List ℕ} {bound : ℕ},
    Digits BASE ws → CellsLe bound cells →
      CellsLe (bound + ws.length * maxProduct) (mulRows ms ws cells)
  | [], cells, bound, _, hc => by simpa [mulRows] using hc
  | w :: ws, cells, bound, hws, hc => by
    have hrowle := mulRow_le hws.head hms hc
    rw [mulRows]
    cases hrow : mulRow w ms cells with
    | nil => simp [CellsLe]
    | cons c cs =>
      rw [hrow] at hrowle
      intro x hx
      rw [length_cons, add_mul]
      rcases mem_cons.1 hx with rfl | hx
      · have := hrowle x mem_cons_self
        omega
      · have := mulRows_le hms hws.tail (fun y hy => hrowle y (mem_cons_of_mem c hy)) x hx
        omega

/-- **The rows** add the product of the two numbers to the cells. -/
theorem leading_mulRows {ms : List ℕ} (hms : Digits BASE ms) (hne : 0 < ms.length) :
    ∀ {ws cells : List ℕ} {bound : ℕ} (n : ℕ), Digits BASE ws → CellsLe bound cells →
      bound + ws.length * maxProduct < 2 ^ 64 → ws.length + ms.length ≤ cells.length + 1 →
      ws.length + ms.length ≤ n + 1 → leading BASE n (mulRows ms ws cells) = leading BASE n cells
          + leading BASE ws.length ws * leading BASE ms.length ms
            * BASE ^ (n + 1 - (ws.length + ms.length))
  | [], cells, bound, n, _, _, _, _, _ => by simp [mulRows]
  | w :: ws, cells, bound, 0, _, _, _, _, hn => by
    rw [length_cons] at hn
    omega
  | w :: ws, cells, bound, n + 1, hws, hc, hbound, hlen, hn => by
    rw [length_cons] at hlen hn hbound
    rw [add_mul] at hbound
    have hrowle := mulRow_le hws.head hms hc
    have hrowlen := length_mulRow w ms cells
    have hrowval := leading_mulRow hws.head (show bound + maxProduct < 2 ^ 64 by omega) (n + 1)
      hms (by omega) hc
    rw [mulRows]
    cases hrow : mulRow w ms cells with
    | nil => simp [hrow] at hrowlen; omega
    | cons c cs =>
      rw [hrow] at hrowle hrowlen hrowval
      rw [length_cons] at hrowlen
      have ih := leading_mulRows hms hne n hws.tail
        (fun y hy => hrowle y (mem_cons_of_mem c hy)) (by omega)
        (by omega) (show ws.length + ms.length ≤ n + 1 by omega)
      have hpad : leading BASE (n + 1) ms
          = leading BASE ms.length ms * BASE ^ (n + 1 - ms.length) := by
        rw [← leading_add_of_length_le le_rfl, Nat.add_sub_cancel' (by omega)]
      have hexp : BASE ^ (n + 1 - ms.length)
          = BASE ^ ws.length * BASE ^ (n + 1 - (ws.length + ms.length)) := by
        rw [← pow_add]
        congr 1
        omega
      have hexp' : n + 1 + 1 - (ws.length + 1 + ms.length)
          = n + 1 - (ws.length + ms.length) := by omega
      simp only [leading, length_cons] at hrowval ⊢
      rw [ih, hexp', ← add_assoc, hrowval, hpad, hexp]
      ring

/-! ## The carries -/

/-- The state of the second loop after the cells `cells`, of `total` cells, have been visited. -/
structure CarryInv (total : ℕ) (cells : List ℕ) (s : CarryState) : Prop where
  length : s.written.length = cells.length
  digits : Digits BASE s.written
  carry : s.carry ≤ 9 * BASE
  value : leading BASE cells.length s.written + s.carry * BASE ^ cells.length
    = leading BASE cells.length cells
  sumLen : s.sumLen + cells.length = total + (trim s.written).length
  check : s.checkSumLen = true ↔ trim s.written = []

/-- **The loop over the cells.** -/
theorem carryLoop_inv {total : ℕ} : ∀ {cells : List ℕ}, CellsLe (9 * maxProduct) cells →
    cells.length ≤ total → CarryInv total cells (cells.foldr CarryState.step ⟨[], 0, total, true⟩)
  | [], _, _ =>
    ⟨rfl, fun _ h => (not_mem_nil h).elim, by simp, by simp, by simp [trim], by simp [trim]⟩
  | c :: cs, hc, htotal => by
    rw [length_cons] at htotal
    have ih := carryLoop_inv (fun y hy => hc y (mem_cons_of_mem c hy))
      (show cs.length ≤ total by omega)
    rw [foldr_cons]
    generalize cs.foldr CarryState.step ⟨[], 0, total, true⟩ = s at ih ⊢
    have hcb := hc c mem_cons_self
    have hcarry := ih.carry
    have hfit : (c + s.carry) % 2 ^ 64 = c + s.carry := by
      simp only [maxProduct, BASE] at hcb hcarry
      omega
    have hdiv : (if c + s.carry ≥ BASE then (c + s.carry) / BASE else 0)
        = (c + s.carry) / BASE := by
      split_ifs with h
      · rfl
      · exact (div_eq_of_lt (not_le.1 h)).symm
    have hmod : c + s.carry - (c + s.carry) / BASE * BASE = (c + s.carry) % BASE := by
      have := div_add_mod' (c + s.carry) BASE
      omega
    simp only [CarryState.step, hfit, hdiv, hmod]
    refine ⟨?_, ?_, ?_, ?_, ?_, ?_⟩
    · simp [ih.length]
    · exact forall_mem_cons.2 ⟨mod_lt _ base_pos_nat, ih.digits⟩
    · simp only [maxProduct, BASE] at hcb hcarry ⊢
      omega
    · have hsplit := div_add_mod' (c + s.carry) BASE
      have hvalue := ih.value
      rw [length_cons, leading, leading, ← hvalue]
      calc (c + s.carry) % BASE * BASE ^ cs.length + leading BASE cs.length s.written
            + (c + s.carry) / BASE * BASE ^ (cs.length + 1)
          = ((c + s.carry) / BASE * BASE + (c + s.carry) % BASE) * BASE ^ cs.length
            + leading BASE cs.length s.written := by ring
        _ = c * BASE ^ cs.length
            + (leading BASE cs.length s.written + s.carry * BASE ^ cs.length) := by
            rw [hsplit]
            ring
    · have hlen := ih.sumLen
      have hcheck := ih.check
      simp only [trim, length_cons]
      by_cases hz : trim s.written = [] ∧ (c + s.carry) % BASE = 0
      · rw [hz.1, length_nil] at hlen
        rw [if_pos ⟨hcheck.2 hz.1, hz.2⟩, if_pos hz, length_nil]
        omega
      · rw [if_neg fun hand => hz ⟨hcheck.1 hand.1, hand.2⟩, if_neg hz, length_cons]
        omega
    · have hcheck := ih.check
      simp only [trim, Bool.and_eq_true, hcheck]
      by_cases hz : trim s.written = [] ∧ (c + s.carry) % BASE = 0
      · simp [hz]
      · simp [hz]

/-! ## The product -/

section Product

variable {a b : ObNumber} {e f : ℤ}

lemma Normal.pow_le_leading_words (h : Normal a e) :
    BASE ^ (a.d.len - 1) ≤ leading BASE a.d.len a.words := by
  have hpos := h.len_pos
  have hle := h.base_pow_le_leading (a.d.len - 1)
  rwa [Nat.sub_add_cancel hpos] at hle

variable {ms : List ℕ} {ws : List ℕ} (hws : Digits BASE ws) (hms : Digits BASE ms)
  (hpos : 0 < ms.length) (hws9 : ws.length ≤ 9) (hms9 : ms.length ≤ 9)

include hws hms hpos hws9 hms9

/-- The cells of a multiplicand and a multiplier of at most nine words. -/
lemma mulCells_spec : CellsLe (9 * maxProduct) (mulCells ws ms (ws.length + ms.length))
      ∧ (mulCells ws ms (ws.length + ms.length)).length = ws.length + ms.length
      ∧ leading BASE (ws.length + ms.length) (mulCells ws ms (ws.length + ms.length))
          = leading BASE ws.length ws * leading BASE ms.length ms := by
  have hzero : CellsLe 0 (replicate (OB_MULT_BUFFER_SIZE - 1) 0) :=
    fun c hc => (eq_of_mem_replicate hc).le
  have hle : 0 + ws.length * maxProduct ≤ 9 * maxProduct := by
    rw [zero_add]
    exact mul_le_mul_right _ hws9
  have hfit : 9 * maxProduct < 2 ^ 64 := by norm_num [maxProduct, BASE]
  have hbuffer : (replicate (OB_MULT_BUFFER_SIZE - 1) 0).length = 20 := by
    simp [OB_MULT_BUFFER_SIZE]
  have hcells := mulRows_le hms hws hzero
  have hvalue := leading_mulRows hms hpos (ws.length + ms.length - 1) hws hzero (by omega)
    (by omega) (by omega)
  have hnil : leading BASE (ws.length + ms.length - 1)
      (replicate (OB_MULT_BUFFER_SIZE - 1) 0) = 0 := by
    have := leading_shifted [] (OB_MULT_BUFFER_SIZE - 1) (ws.length + ms.length - 1)
    rwa [shifted, append_nil, leading_nil] at this
  refine ⟨?_, ?_, ?_⟩
  · intro c hc
    rcases mem_cons.1 (mem_of_mem_take hc) with rfl | hc
    · exact zero_le _
    · exact (hcells c hc).trans hle
  · rw [mulCells, length_take, length_cons, length_mulRows]
    omega
  · rw [mulCells, leading_take le_rfl]
    conv_lhs => rw [show ws.length + ms.length = ws.length + ms.length - 1 + 1 by omega]
    rw [leading, hvalue, hnil, Nat.zero_mul, zero_add, zero_add,
      show ws.length + ms.length - 1 + 1 - (ws.length + ms.length) = 0 by omega, pow_zero,
      mul_one]

/-- The words that the loops compute are those of the exact product. -/
lemma carryLoop_product :
    ∃ t : CarryState, (mulCells ws ms (ws.length + ms.length)).foldr CarryState.step
          ⟨[], 0, ws.length + ms.length, true⟩ = t
      ∧ Digits BASE t.written ∧ t.written.length = ws.length + ms.length
      ∧ t.sumLen = (trim t.written).length ∧ leading BASE (ws.length + ms.length) t.written
          = leading BASE ws.length ws * leading BASE ms.length ms := by
  obtain ⟨hle, hlen, hvalue⟩ := mulCells_spec hws hms hpos hws9 hms9
  have hinv := carryLoop_inv hle hlen.le
  have hval := hinv.value
  have hsum := hinv.sumLen
  have hlength := hinv.length
  rw [hlen] at hval hsum hlength
  refine ⟨_, rfl, hinv.digits, hlength, by omega, ?_⟩
  -- nothing is carried out of the first word, because the product is below the full length
  have hlt : leading BASE ws.length ws * leading BASE ms.length ms
      < BASE ^ (ws.length + ms.length) := by
    rw [pow_add]
    exact mul_lt_mul'' (leading_lt base_pos_nat _ hws) (leading_lt base_pos_nat _ hms)
  rw [hvalue] at hval
  generalize (mulCells ws ms (ws.length + ms.length)).foldr CarryState.step
    ⟨[], 0, ws.length + ms.length, true⟩ = t at hval ⊢
  rcases Nat.eq_zero_or_pos t.carry with h0 | hcarry
  · rw [h0, Nat.zero_mul] at hval
    exact hval
  · have := Nat.le_mul_of_pos_left (BASE ^ (ws.length + ms.length)) hcarry
    omega

omit hws hms hpos hws9 hms9

/-- The words that are written are those of the exact product. -/
theorem mulWords_spec (ha : Normal a e) (hb : Normal b f) :
    ∃ t : CarryState, mulWords a b = t ∧ Digits BASE t.written
      ∧ t.written.length = a.d.len + b.d.len ∧ t.sumLen = (trim t.written).length
      ∧ leading BASE (a.d.len + b.d.len) t.written
          = leading BASE a.d.len a.words * leading BASE b.d.len b.words := by
  have ha9 : a.d.len ≤ 9 := ha.len_le
  have hb9 : b.d.len ≤ 9 := hb.len_le
  have hbpos := hb.len_pos
  have halen := ha.length_eq
  have hblen := hb.length_eq
  rw [mulWords]
  split_ifs with hswap
  · have := carryLoop_product hb.digits ha.digits (by omega) (by omega) (by omega)
    rw [halen, hblen, add_comm b.d.len a.d.len] at this
    rwa [mul_comm (leading BASE a.d.len a.words)]
  · have := carryLoop_product ha.digits hb.digits (by omega) (by omega) (by omega)
    rwa [halen, hblen] at this

/-- A mantissa as the integer of all its words. -/
lemma mantissa_eq_leading (ds : List ℕ) :
    mantissa BASE ds = leading BASE ds.length ds * (BASE : ℚ) ^ (1 - (ds.length : ℤ)) := by
  have hbase : (BASE : ℚ) ≠ 0 := by norm_num [BASE]
  have h := mantissa_mul_pow BASE base_pos_nat.ne' ds.length ds
  rw [drop_length, mantissa] at h
  rw [zpow_sub₀ hbase, zpow_natCast]
  field_simp
  linarith

/-- The product of two magnitudes, from the integer that the words of the product make. -/
lemma magnitude_product (ha : Normal a e) (hb : Normal b f) {E : ℤ} {W : List ℕ}
    (hE : (W.length : ℤ) - E = a.d.len + b.d.len - (e + f + 1))
    (hW : leading BASE W.length W = leading BASE a.d.len a.words * leading BASE b.d.len b.words) :
    (BASE : ℚ) ^ E * mantissa BASE W
      = (BASE : ℚ) ^ e * mantissa BASE a.words * ((BASE : ℚ) ^ f * mantissa BASE b.words) := by
  have hbase : (BASE : ℚ) ≠ 0 := by norm_num [BASE]
  have hpow : (BASE : ℚ) ^ E * (BASE : ℚ) ^ (1 - (W.length : ℤ))
      = (BASE : ℚ) ^ e * (BASE : ℚ) ^ (1 - (a.d.len : ℤ))
        * ((BASE : ℚ) ^ f * (BASE : ℚ) ^ (1 - (b.d.len : ℤ))) := by
    rw [← zpow_add₀ hbase, ← zpow_add₀ hbase, ← zpow_add₀ hbase, ← zpow_add₀ hbase]
    congr 1
    omega
  rw [mantissa_eq_leading W, mantissa_eq_leading a.words, mantissa_eq_leading b.words, ha.length_eq,
    hb.length_eq, hW]
  push_cast
  linear_combination (leading BASE a.d.len a.words : ℚ) * leading BASE b.d.len b.words * hpow

lemma take_trim_take (W : List ℕ) (k : ℕ) : W.take ((trim W).take k).length = (trim W).take k := by
  conv_rhs => rw [← take_length_trim W]
  rw [take_take, length_take]

/-- A product has at most one zero word in front, and none if the exponents carry. -/
lemma product_words (ha : Normal a e) (hb : Normal b f) {w : List ℕ}
    (hlen : w.length = a.d.len + b.d.len)
    (hdigits : Digits BASE w) (hvalue : leading BASE (a.d.len + b.d.len) w
      = leading BASE a.d.len a.words * leading BASE b.d.len b.words) :
    ∃ E offset, ((w.getD 0 0 ≠ 0 ∧ offset = 0 ∧ E = e + f + 1)
          ∨ (w.getD 0 0 = 0 ∧ offset = 1 ∧ E = e + f))
        ∧ w.drop offset ≠ [] ∧ (w.drop offset).head? ≠ some 0
        ∧ (trim w).length = offset + (trim (w.drop offset)).length
        ∧ (BASE : ℚ) ^ E * mantissa BASE (w.drop offset)
            = (BASE : ℚ) ^ e * mantissa BASE a.words *
            ((BASE : ℚ) ^ f * mantissa BASE b.words) := by
  have hapos := ha.len_pos
  have hbpos := hb.len_pos
  cases w with
  | nil => simp at hlen; omega
  | cons d rest =>
    rcases Nat.eq_zero_or_pos d with rfl | hd
    · rw [length_cons] at hlen
      have hrest : leading BASE rest.length rest
          = leading BASE a.d.len a.words * leading BASE b.d.len b.words := by
        rw [← hvalue, ← hlen, leading, Nat.zero_mul, zero_add]
      have hge : BASE ^ (a.d.len - 1 + (b.d.len - 1)) ≤ leading BASE rest.length rest := by
        rw [hrest, pow_add]
        exact Nat.mul_le_mul ha.pow_le_leading_words hb.pow_le_leading_words
      rw [show rest.length = a.d.len - 1 + (b.d.len - 1) + 1 by omega] at hge
      have hne : trim rest ≠ [] := by
        intro hnil
        have hzero := trim_eq_nil hnil BASE (a.d.len - 1 + (b.d.len - 1) + 1)
        have hpos : 0 < BASE ^ (a.d.len - 1 + (b.d.len - 1)) := Nat.pow_pos base_pos_nat
        omega
      refine ⟨e + f, 1, .inr ⟨rfl, rfl, rfl⟩, ?_, head_ne_zero_of_le_leading hdigits.tail hge, ?_,
        magnitude_product ha hb (by rw [drop_succ_cons, drop_zero]; omega) hrest⟩
      · rintro rfl
        exact hne rfl
      · rw [trim_cons_of_ne fun h => hne h.1, add_comm]
        rfl
    · exact ⟨e + f + 1, 0, .inl ⟨hd.ne', rfl, rfl⟩, cons_ne_nil _ _, by simpa using hd.ne',
        (zero_add _).symm,
        magnitude_product ha hb (by rw [drop_zero, hlen]; push_cast; ring)
          (by rw [drop_zero, hlen, hvalue])⟩

/-- `mul_v3` returns nine words, from the first that is not zero, of the exact product `W`. -/
theorem mulFinish_eq (cfg : Config) (sign : Sign) (ha : Normal a e) (hb : Normal b f) : ∃ E W ds,
      mulFinish cfg sign (e + f) (mulWords a b)
          = withBuffer cfg (assignChecked cfg sign E ((trim W).take 9).length ds)
        ∧ ds.take ((trim W).take 9).length = (trim W).take 9
        ∧ Digits BASE W ∧ W ≠ [] ∧ W.head? ≠ some 0 ∧ (E = e + f ∨ E = e + f + 1)
        ∧ (BASE : ℚ) ^ E * mantissa BASE W
            = (BASE : ℚ) ^ e * mantissa BASE a.words *
            ((BASE : ℚ) ^ f * mantissa BASE b.words) := by
  obtain ⟨t, ht, hdigits, hlen, hsumLen, hvalue⟩ := mulWords_spec ha hb
  obtain ⟨E, offset, hcase, hne, hfirst, htrim, hmag⟩ := product_words ha hb hlen hdigits hvalue
  have hten : (t.written.take 10).getD 0 0 = t.written.getD 0 0 := by simp [getD_eq_getElem?_getD]
  have htake : ∀ k, 9 ≤ k → ((t.written.drop offset).take k).take
      ((trim (t.written.drop offset)).take 9).length = (trim (t.written.drop offset)).take 9 := by
    intro k hk
    rw [take_take, min_eq_left (by rw [length_take]; omega), take_trim_take]
  rw [ht, mulFinish, hten, hsumLen, htrim, MAX_STORE_LEN]
  rcases hcase with ⟨hd, rfl, rfl⟩ | ⟨hd, rfl, rfl⟩
  · refine ⟨_, _, (t.written.drop 0).take 10, ?_, htake 10 (by omega), hdigits.drop 0, hne, hfirst,
      .inr rfl, hmag⟩
    rw [if_pos hd, zero_add, length_take, min_comm]
    rfl
  · refine ⟨_, _, (t.written.drop 1).take 9, ?_, htake 9 le_rfl, hdigits.drop 1, hne, hfirst,
      .inl rfl, hmag⟩
    rw [if_neg (not_not.2 hd), Nat.add_sub_cancel_left, length_take, Nat.min_comm, drop_take]

end Product

end OceanBase.Number
