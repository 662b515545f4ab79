import DailyReadCoding.OceanBase.Number.Unrounded

/-!
# The two multiplications, without rounding

`mul_v3` adds up all products of words and resolves the carries at the end; the older `mul_v2_`
carries as soon as a cell reaches `CARRY_BOUND`.  Neither loses anything: the cells hold the exact
product all the time, and both functions hand out its first nine words.
-/

namespace OceanBase.Number

open Positional ObNumber List Nat

/-! ## `mul_v2_` -/

def CARRY_BOUND : ℕ := 5000000000000000000

namespace ObNumber

/-- Carries from the last of the first `n` cells down, as long as there is a carry. -/
def propagateCarry : ℕ → ℕ → List ℕ → List ℕ
  | 0, _, cells => cells
  | id + 1, carry, cells =>
    let tmp := (carry + cells.getD id 0) % 2 ^ 64
    let next := tmp / BASE
    let cells := cells.set id (tmp - next * BASE)
    if next = 0 then cells else propagateCarry id next cells

/-- Adds a product of two words to cell `k`. -/
def accumulate (k product : ℕ) (cells : List ℕ) : List ℕ :=
  let cells := cells.set k ((cells.getD k 0 + product) % 2 ^ 64)
  if cells.getD k 0 ≥ CARRY_BOUND then propagateCarry (k + 1) 0 cells else cells

/-- The inner loop, from word `j` of the multiplier on. -/
def mulRowV2 (word i : ℕ) : ℕ → List ℕ → List ℕ → List ℕ
  | _, [], cells => cells
  | j, m :: ms, cells => mulRowV2 word i (j + 1) ms (accumulate (i + j + 1) (word * m) cells)

/-- The outer loop, from word `i` of the multiplicand on. -/
def mulRowsV2 (multiplier : List ℕ) : ℕ → List ℕ → List ℕ → List ℕ
  | _, [], cells => cells
  | i, w :: ws, cells => mulRowsV2 multiplier (i + 1) ws (mulRowV2 w i 0 multiplier cells)

/-- The loop behind, over the cells `i` down to `1`. -/
def resolveCarries : ℕ → List ℕ → List ℕ
  | 0, cells => cells
  | i + 1, cells =>
    let cell := cells.getD (i + 1) 0
    if cell ≥ BASE then
      let tmp := cell / BASE
      let cells := cells.set (i + 1) (cell - tmp * BASE)
      resolveCarries i (cells.set i ((cells.getD i 0 + tmp) % 2 ^ 64))
    else resolveCarries i cells

/-- The cells when all loops are done. -/
def mulCellsV2 (this other : ObNumber) : List ℕ :=
  resolveCarries (this.d.len + other.d.len - 1)
    (mulRowsV2 other.words 0 this.words (List.replicate OB_MULT_BUFFER_SIZE 0))

/-- What follows the loops of `mul_v2_`, as in the strict mode of `mul_v3`. -/
def mulFinishV2 (cfg : Config) (sign : Sign) (sumExp : ℤ) (sumLen : ℕ) (cells : List ℕ) :
    Except Err ObNumber :=
  let offset := if cells.getD 0 0 ≠ 0 then 0 else 1
  let digitsLen := stripLen (cells.drop offset) (sumLen - offset)
  assignChecked { cfg with strictMode := true } sign
    (if cells.getD 0 0 ≠ 0 then sumExp + 1 else sumExp) (min digitsLen MAX_STORE_LEN)
    (cells.drop offset)

/-- `mul_v2_`, which rounds numbers of any length. -/
def mulV2 (cfg : Config) (this other : ObNumber) : Except Err ObNumber :=
  let res :=
    if this.isZero ∨ other.isZero then .ok zero
    else
      let sign := if this.d.sign = other.d.sign then .positive else .negative
      mulFinishV2 cfg sign (getDecodeExp this.d + getDecodeExp other.d)
        (this.d.len + other.d.len) (mulCellsV2 this other)
  if cfg.doRounding then
    res.map fun r => r.roundScaleV3 cfg.oracleMode
      (if cfg.oracleMode then MAX_SCALE else FLOATING_SCALE) true false
  else res

end ObNumber

/-! ## No 64 bit addition of `mul_v3` overflows -/

/-- The additions of `mulRow`. -/
def RowFits (word : ℕ) : List ℕ → List ℕ → Prop
  | m :: ms, c :: cs => c + word * m < 2 ^ 64 ∧ RowFits word ms cs
  | _, _ => True

/-- The additions of `mulRows`. -/
def RowsFit (multiplier : List ℕ) : List ℕ → List ℕ → Prop
  | w :: ws, cells => RowFits w multiplier cells ∧
      RowsFit multiplier ws (mulRow w multiplier cells).tail
  | [], _ => True

/-- The additions of the loop that resolves the carries, and the carry itself, which is signed. -/
def CarriesFit (s : CarryState) : List ℕ → Prop
  | [] => s.carry < 2 ^ 63
  | c :: cs =>
    CarriesFit s cs ∧ c + (cs.foldr CarryState.step s).carry < 2 ^ 64
      ∧ ((c :: cs).foldr CarryState.step s).carry < 2 ^ 63

/-- Every accumulation and every carry in the loops of `mul_v3`. -/
def MulFits (this other : ObNumber) : Prop :=
  let multiplicand := if this.d.len > other.d.len then other.words else this.words
  let multiplier := if this.d.len > other.d.len then this.words else other.words
  let sumLen := this.d.len + other.d.len
  RowsFit multiplier multiplicand (List.replicate (OB_MULT_BUFFER_SIZE - 1) 0)
    ∧ CarriesFit ⟨[], 0, sumLen, true⟩ (mulCells multiplicand multiplier sumLen)

lemma rowFits {w bound : ℕ} (hw : w < BASE) (hbound : bound + maxProduct < 2 ^ 64) :
    ∀ {ms cells : List ℕ}, Digits BASE ms → CellsLe bound cells → RowFits w ms cells
  | [], _, _, _ => trivial
  | _ :: _, [], _, _ => trivial
  | m :: ms, c :: cs, hms, hc => by
    have hcb := hc c mem_cons_self
    have hprod := mul_le_maxProduct hw hms.head
    exact ⟨by omega, rowFits hw hbound hms.tail fun y hy => hc y (mem_cons_of_mem c hy)⟩

lemma rowsFit {ms : List ℕ} (hms : Digits BASE ms) : ∀ {ws cells : List ℕ} {bound : ℕ},
    Digits BASE ws → CellsLe bound cells → bound + ws.length * maxProduct < 2 ^ 64 →
      RowsFit ms ws cells
  | [], _, _, _, _, _ => trivial
  | w :: ws, cells, bound, hws, hc, hbound => by
    rw [length_cons, Nat.add_mul] at hbound
    refine ⟨rowFits hws.head (by omega) hms hc, rowsFit hms hws.tail (fun c hmem => ?_)
      (show bound + maxProduct + ws.length * maxProduct < 2 ^ 64 by omega)⟩
    exact mulRow_le hws.head hms hc c (mem_of_mem_tail hmem)

lemma carriesFit {total : ℕ} : ∀ {cells : List ℕ}, CellsLe (9 * maxProduct) cells →
    cells.length ≤ total → CarriesFit ⟨[], 0, total, true⟩ cells
  | [], _, _ => by simp [CarriesFit]
  | c :: cs, hc, htotal => by
    have hlen : cs.length ≤ total := (le_succ _).trans htotal
    have htail : CellsLe (9 * maxProduct) cs := fun y hy => hc y (mem_cons_of_mem c hy)
    have hcb := hc c mem_cons_self
    have hbefore := (carryLoop_inv htail hlen).carry
    have hafter := (carryLoop_inv hc htotal).carry
    simp only [maxProduct, BASE] at hcb hbefore hafter
    exact ⟨carriesFit htail hlen, by omega, by omega⟩

theorem Normal.mulFits {a b : ObNumber} {e f : ℤ} (ha : Normal a e) (hb : Normal b f) :
    MulFits a b := by
  have hfits : ∀ {ws ms : List ℕ}, Digits BASE ws → Digits BASE ms → 0 < ms.length →
      ws.length ≤ 9 → ms.length ≤ 9 → RowsFit ms ws (replicate (OB_MULT_BUFFER_SIZE - 1) 0)
          ∧ CarriesFit ⟨[], 0, ws.length + ms.length, true⟩
              (mulCells ws ms (ws.length + ms.length)) := by
    intro ws ms hws hms hpos hws9 hms9
    obtain ⟨hle, hlen, -⟩ := mulCells_spec hws hms hpos hws9 hms9
    have hbound : 0 + ws.length * maxProduct < 2 ^ 64 := by
      have := Nat.mul_le_mul_right maxProduct hws9
      simp only [maxProduct, BASE] at this ⊢
      omega
    exact ⟨rowsFit hms hws (fun c hc => (eq_of_mem_replicate hc).le) hbound, carriesFit hle hlen.le⟩
  have ha9 : a.d.len ≤ 9 := ha.len_le
  have hb9 : b.d.len ≤ 9 := hb.len_le
  have hbpos := hb.len_pos
  have halen := ha.length_eq
  have hblen := hb.length_eq
  rw [MulFits]
  split_ifs with hswap
  · have := hfits hb.digits ha.digits (by omega) (by omega) (by omega)
    rwa [halen, hblen, Nat.add_comm b.d.len a.d.len] at this
  · have := hfits ha.digits hb.digits (by omega) (by omega) (by omega)
    rwa [halen, hblen] at this

/-! ## The loops of `mul_v2_` -/

lemma getD_set (ds : List ℕ) (k x i : ℕ) :
    (ds.set k x).getD i 0 = if i = k ∧ k < ds.length then x else ds.getD i 0 := by
  split_ifs <;> grind

/-- `R` is `cells` with `carry` added at the last of the first `id` cells. -/
structure Propagated (id carry : ℕ) (cells R : List ℕ) : Prop where
  length : R.length = cells.length
  value : leading BASE id R = leading BASE id cells + carry
  rest : ∀ i, id ≤ i → R.getD i 0 = cells.getD i 0
  cell : ∀ i, R.getD i 0 < BASE ∨ R.getD i 0 = cells.getD i 0
  last : 0 < id → R.getD (id - 1) 0 < BASE

/-- What a cell can hold before it is resolved. -/
def cellMax : ℕ := CARRY_BOUND + maxProduct

lemma leading_set_of_le {n k : ℕ} (h : n ≤ k) (ds : List ℕ) (x : ℕ) :
    leading BASE n (ds.set k x) = leading BASE n ds := by
  refine leading_congr fun i hi => ?_
  rw [getD_set, if_neg (by omega)]

/-- The inner `for` of `mul_v2_` adds the carry exactly if none leaves the first cell. -/
theorem propagateCarry_spec : ∀ {id carry : ℕ} {cells : List ℕ}, id ≤ cells.length →
    (∀ i, cells.getD i 0 ≤ cellMax) → carry ≤ cellMax → leading BASE id cells + carry < BASE ^ id →
        Propagated id carry cells (propagateCarry id carry cells)
  | 0, carry, cells, _, _, _, hlt => by
    obtain rfl : carry = 0 := by simpa [leading] using hlt
    exact ⟨rfl, rfl, fun _ _ => rfl, fun _ => .inr rfl, fun h => absurd h (Nat.lt_irrefl 0)⟩
  | id + 1, carry, cells, hlen, hcells, hcarry, hlt => by
    have hcell := hcells id
    have hfit : (carry + cells.getD id 0) % 2 ^ 64 = carry + cells.getD id 0 := by
      simp only [cellMax, CARRY_BOUND, maxProduct, BASE] at hcell hcarry
      omega
    rw [propagateCarry]
    simp only [hfit]
    set tmp := carry + cells.getD id 0 with htmp
    have hsplit := div_add_mod' tmp BASE
    rw [show tmp - tmp / BASE * BASE = tmp % BASE by omega]
    have hmod : tmp % BASE < BASE := mod_lt _ base_pos_nat
    have hget : ∀ i, (cells.set id (tmp % BASE)).getD i 0
        = if i = id then tmp % BASE else cells.getD i 0 := by
      intro i
      rw [getD_set]
      simp only [show id < cells.length from hlen, and_true]
    have hfront := leading_set_of_le (le_refl id) cells (tmp % BASE)
    have hsum : leading BASE (id + 1) cells + carry = leading BASE id cells * BASE + tmp := by
      rw [leading_succ_last]
      omega
    split_ifs with hnext
    · -- no carry is left, so the cell holds all of `tmp`
      have hsmall : tmp % BASE = tmp := by
        rw [hnext, Nat.zero_mul, Nat.zero_add] at hsplit
        exact hsplit
      refine ⟨length_set, ?_, fun i hi => ?_, fun i => ?_, fun _ => ?_⟩
      · rw [hsum, leading_succ_last, hfront, hget, if_pos rfl, hsmall]
      · rw [hget, if_neg (by omega)]
      · rw [hget]
        split_ifs
        · exact .inl hmod
        · exact .inr rfl
      · rw [Nat.add_sub_cancel, hget, if_pos rfl]
        exact hmod
    · have hfewer : leading BASE id (cells.set id (tmp % BASE)) + tmp / BASE < BASE ^ id := by
        rw [hfront]
        refine lt_of_mul_lt_mul_right (a := BASE) ?_ (Nat.zero_le _)
        calc (leading BASE id cells + tmp / BASE) * BASE
            = leading BASE id cells * BASE + tmp / BASE * BASE := Nat.add_mul _ _ _
          _ ≤ leading BASE id cells * BASE + tmp := by omega
          _ < BASE ^ (id + 1) := hsum ▸ hlt
          _ = BASE ^ id * BASE := pow_succ _ _
      have hdiv : tmp / BASE ≤ cellMax := by
        simp only [cellMax, CARRY_BOUND, maxProduct, BASE] at hcell hcarry ⊢
        omega
      have hcells' : ∀ i, (cells.set id (tmp % BASE)).getD i 0 ≤ cellMax := by
        intro i
        rw [hget]
        split_ifs
        · exact hmod.le.trans (by norm_num [cellMax, CARRY_BOUND, maxProduct, BASE])
        · exact hcells i
      have ih := propagateCarry_spec (by rw [length_set]; omega) hcells' hdiv hfewer
      have hlast : (propagateCarry id (tmp / BASE) (cells.set id (tmp % BASE))).getD id 0
          = tmp % BASE := by
        rw [ih.rest id le_rfl, hget, if_pos rfl]
      refine ⟨ih.length.trans length_set, ?_, fun i hi => ?_, fun i => ?_, fun _ => ?_⟩
      · rw [hsum, leading_succ_last, ih.value, hlast, hfront]
        linarith
      · rw [ih.rest i (by omega), hget, if_neg (by omega)]
      · rcases ih.cell i with h | h
        · exact .inl h
        · rw [h, hget]
          split_ifs
          · exact .inl hmod
          · exact .inr rfl
      · rw [Nat.add_sub_cancel, hlast]
        exact hmod

lemma Propagated.leading_eq {id carry n : ℕ} {cells R : List ℕ} (h : Propagated id carry cells R)
    (hn : id ≤ n) : leading BASE n R = leading BASE n cells + carry * BASE ^ (n - id) := by
  have hrest : leading BASE (n - id) (R.drop id) = leading BASE (n - id) (cells.drop id) := by
    refine leading_congr fun i _ => ?_
    have := h.rest (id + i) (Nat.le_add_right _ _)
    simpa [getD_eq_getElem?_getD, getElem?_drop] using this
  have hsplit := fun ds => leading_add BASE id ds (n - id)
  rw [Nat.add_sub_cancel' hn] at hsplit
  rw [hsplit, hsplit, h.value, hrest]
  ring

/-- The cells of the first `n` hold the number `value`, and none of them is about to overflow. -/
structure Accumulated (n value : ℕ) (cells : List ℕ) : Prop where
  length : n ≤ cells.length
  bound : ∀ i, cells.getD i 0 < CARRY_BOUND
  value_eq : leading BASE n cells = value

section Accumulate

variable {n value : ℕ} {cells : List ℕ}

/-- A product is added to its cell exactly. -/
lemma accumulate_spec {k product : ℕ} (h : Accumulated n value cells) (hk : k < n)
    (hproduct : product ≤ maxProduct) (hlt : value + product * BASE ^ (n - 1 - k) < BASE ^ n) :
    Accumulated n (value + product * BASE ^ (n - 1 - k)) (accumulate k product cells) := by
  have hcell := h.bound k
  have hlen := h.length
  have hfit : (cells.getD k 0 + product) % 2 ^ 64 = cells.getD k 0 + product := by
    simp only [CARRY_BOUND, maxProduct, BASE] at hcell hproduct
    omega
  have hsum : leading BASE n (cells.set k (cells.getD k 0 + product))
      = value + product * BASE ^ (n - 1 - k) := by
    rw [leading_set_add BASE product hk (by omega), h.value_eq]
  have hget : ∀ i, (cells.set k (cells.getD k 0 + product)).getD i 0
      = if i = k then cells.getD k 0 + product else cells.getD i 0 := by
    intro i
    rw [getD_set]
    simp only [show k < cells.length by omega, and_true]
  rw [accumulate]
  simp only [hfit]
  generalize hnew : cells.set k (cells.getD k 0 + product) = cells' at hsum hget ⊢
  have hlen' : cells'.length = cells.length := by rw [← hnew, length_set]
  split_ifs with hcarry
  · have hmax : ∀ i, cells'.getD i 0 ≤ cellMax := by
      intro i
      have := h.bound i
      rw [hget, cellMax]
      split_ifs <;> omega
    have hsmall : leading BASE (k + 1) cells' + 0 < BASE ^ (k + 1) := by
      have hsplit := leading_add BASE (k + 1) cells' (n - (k + 1))
      rw [Nat.add_sub_cancel' hk, hsum] at hsplit
      refine lt_of_mul_lt_mul_right (a := BASE ^ (n - (k + 1))) ?_ (Nat.zero_le _)
      calc (leading BASE (k + 1) cells' + 0) * BASE ^ (n - (k + 1))
          ≤ value + product * BASE ^ (n - 1 - k) := by
            rw [Nat.add_zero]
            omega
        _ < BASE ^ n := hlt
        _ = BASE ^ (k + 1) * BASE ^ (n - (k + 1)) := by rw [← pow_add, Nat.add_sub_cancel' hk]
    have hprop := propagateCarry_spec (by omega) hmax (Nat.zero_le _) hsmall
    refine ⟨by rw [hprop.length]; omega, fun i => ?_, ?_⟩
    · have hbase : BASE < CARRY_BOUND := by norm_num [BASE, CARRY_BOUND]
      rcases hprop.cell i with hi | hi
      · exact hi.trans hbase
      · rcases eq_or_ne i k with rfl | hik
        · exact (hprop.last (succ_pos i)).trans hbase
        · rw [hi, hget, if_neg hik]
          exact h.bound i
    · rw [hprop.leading_eq hk, hsum, Nat.zero_mul, Nat.add_zero]
  · refine ⟨by omega, fun i => ?_, hsum⟩
    rcases eq_or_ne i k with rfl | hik
    · exact not_le.1 hcarry
    · rw [hget, if_neg hik]
      exact h.bound i

/-- The inner loop adds a multiple of the multiplier. -/
lemma mulRowV2_spec {w i : ℕ} (hw : w < BASE) : ∀ {ms : List ℕ} {j value : ℕ} {cells : List ℕ},
    Digits BASE ms → i + j + ms.length < n → Accumulated n value cells →
      value + w * leading BASE (n - 1 - (i + j)) ms < BASE ^ n →
        Accumulated n (value + w * leading BASE (n - 1 - (i + j)) ms) (mulRowV2 w i j ms cells)
  | [], j, value, cells, _, _, h, _ => by
    rw [leading_nil]
    exact h
  | m :: ms, j, value, cells, hms, hn, h, hlt => by
    rw [length_cons] at hn
    have hexp : n - 1 - (i + j) = n - 1 - (i + (j + 1)) + 1 := by omega
    have hsum : value + w * leading BASE (n - 1 - (i + j)) (m :: ms)
        = value + w * m * BASE ^ (n - 1 - (i + j + 1))
          + w * leading BASE (n - 1 - (i + (j + 1))) ms := by
      rw [hexp, leading, Nat.add_assoc i j 1]
      ring
    rw [hsum] at hlt ⊢
    have hstep := accumulate_spec h (show i + j + 1 < n by omega)
      (mul_le_maxProduct hw hms.head) (by omega)
    exact mulRowV2_spec hw hms.tail (by omega) hstep hlt

/-- The outer loop adds the product of the two numbers. -/
theorem mulRowsV2_spec {ms : List ℕ} (hms : Digits BASE ms) (hpos : 0 < ms.length) :
    ∀ {ws : List ℕ} {i value : ℕ} {cells : List ℕ}, Digits BASE ws →
      i + ws.length + ms.length = n → Accumulated n value cells →
        value + leading BASE ws.length ws * leading BASE ms.length ms < BASE ^ n →
          Accumulated n (value + leading BASE ws.length ws * leading BASE ms.length ms)
            (mulRowsV2 ms i ws cells)
  | [], i, value, cells, _, _, h, _ => by
    rw [leading_nil, Nat.zero_mul]
    exact h
  | w :: ws, i, value, cells, hws, hn, h, hlt => by
    rw [length_cons] at hn hlt ⊢
    have hrow : leading BASE (n - 1 - (i + 0)) ms
        = leading BASE ms.length ms * BASE ^ ws.length := by
      rw [← leading_add_of_length_le le_rfl]
      congr 1
      omega
    have hsum : value + leading BASE (ws.length + 1) (w :: ws) * leading BASE ms.length ms
        = value + w * leading BASE (n - 1 - (i + 0)) ms
          + leading BASE ws.length ws * leading BASE ms.length ms := by
      rw [hrow, leading]
      ring
    rw [hsum] at hlt ⊢
    have hstep := mulRowV2_spec hws.head hms (show i + 0 + ms.length < n by omega) h (by omega)
    exact mulRowsV2_spec hms hpos hws.tail (by omega) hstep hlt

end Accumulate

/-- `R` holds what the first `i + 1` of `cells` hold, with all words but the first resolved. -/
structure Resolved (i : ℕ) (cells R : List ℕ) : Prop where
  length : R.length = cells.length
  value : leading BASE (i + 1) R = leading BASE (i + 1) cells
  rest : ∀ j, i < j → R.getD j 0 = cells.getD j 0
  digits : ∀ j, 0 < j → j ≤ i → R.getD j 0 < BASE

/-- The loop behind the rows.  A cell gets at most `10^10` from the one before. -/
theorem resolveCarries_spec : ∀ {i : ℕ} {cells : List ℕ}, i < cells.length →
    (∀ j < i, cells.getD j 0 < CARRY_BOUND) → cells.getD i 0 < CARRY_BOUND + 10 ^ 10 →
      Resolved i cells (resolveCarries i cells)
  | 0, cells, _, _, _ => ⟨rfl, rfl, fun _ _ => rfl, fun j hj hj0 => by omega⟩
  | i + 1, cells, hlen, hbound, hlast => by
    have hnext := hbound i (lt_succ_self i)
    rw [resolveCarries]
    split_ifs with hcell
    · generalize hx : cells.getD (i + 1) 0 = x at hlast hcell
      have hsplit := div_add_mod' x BASE
      have hmod : x % BASE < BASE := mod_lt _ base_pos_nat
      have hdiv : x / BASE < 10 ^ 10 := by
        simp only [CARRY_BOUND, BASE] at hlast ⊢
        omega
      dsimp only
      rw [show x - x / BASE * BASE = x % BASE by omega]
      have hprev : (cells.set (i + 1) (x % BASE)).getD i 0 = cells.getD i 0 := by
        rw [getD_set, if_neg (by omega)]
      have hfit : (cells.getD i 0 + x / BASE) % 2 ^ 64 = cells.getD i 0 + x / BASE := by
        refine mod_eq_of_lt (lt_trans (Nat.add_lt_add hnext hdiv) ?_)
        norm_num [CARRY_BOUND]
      rw [hprev, hfit]
      generalize hnew : (cells.set (i + 1) (x % BASE)).set i (cells.getD i 0 + x / BASE) = cells'
      have hlen' : cells'.length = cells.length := by rw [← hnew, length_set, length_set]
      have hget : ∀ j, cells'.getD j 0 = if j = i then cells.getD i 0 + x / BASE
          else if j = i + 1 then x % BASE else cells.getD j 0 := by
        intro j
        rw [← hnew, getD_set, getD_set, length_set]
        simp only [hlen, show i < cells.length by omega, and_true]
      have ih := resolveCarries_spec (show i < cells'.length by omega) (fun j hj => by
          rw [hget, if_neg (by omega), if_neg (by omega)]
          exact hbound j (by omega))
        (by rw [hget, if_pos rfl]; omega)
      have hfront : leading BASE i cells' = leading BASE i cells := by
        refine leading_congr fun j hj => ?_
        rw [hget, if_neg (by omega), if_neg (by omega)]
      have htop : (resolveCarries i cells').getD (i + 1) 0 = x % BASE := by
        rw [ih.rest (i + 1) (lt_succ_self i), hget, if_neg (by omega), if_pos rfl]
      refine ⟨ih.length.trans hlen', ?_, fun j hj => ?_, fun j hj0 hj => ?_⟩
      · rw [leading_succ_last, ih.value, htop, leading_succ_last BASE i cells', hfront, hget,
          if_pos rfl, leading_succ_last BASE (i + 1), leading_succ_last BASE i, hx]
        linarith
      · rw [ih.rest j (by omega), hget, if_neg (by omega), if_neg (by omega)]
      · rcases hj.lt_or_eq with hj | rfl
        · exact ih.digits j hj0 (by omega)
        · rw [htop]
          exact hmod
    · have ih := resolveCarries_spec (show i < cells.length by omega)
        (fun j hj => hbound j (by omega)) (hnext.trans_le (Nat.le_add_right _ _))
      have htop := ih.rest (i + 1) (lt_succ_self i)
      refine ⟨ih.length, ?_, fun j hj => ih.rest j (by omega), fun j hj0 hj => ?_⟩
      · rw [leading_succ_last, leading_succ_last BASE (i + 1), ih.value, htop]
      · rcases hj.lt_or_eq with hj | rfl
        · exact ih.digits j hj0 (by omega)
        · rw [htop]
          exact not_le.1 hcell

section Words

variable {a b : ObNumber} {e f : ℤ}

/-- The cells in the end: the words of the exact product. -/
theorem mulCellsV2_spec (ha : Normal a e) (hb : Normal b f) :
    a.d.len + b.d.len ≤ (mulCellsV2 a b).length
      ∧ Digits BASE ((mulCellsV2 a b).take (a.d.len + b.d.len))
      ∧ leading BASE (a.d.len + b.d.len) (mulCellsV2 a b)
          = leading BASE a.d.len a.words * leading BASE b.d.len b.words := by
  have ha9 : a.d.len ≤ 9 := ha.len_le
  have hb9 : b.d.len ≤ 9 := hb.len_le
  have hbpos := hb.len_pos
  have halen := ha.length_eq
  have hblen := hb.length_eq
  have hlt : leading BASE a.d.len a.words * leading BASE b.d.len b.words
      < BASE ^ (a.d.len + b.d.len) := by
    rw [pow_add]
    exact Nat.mul_lt_mul'' (leading_lt base_pos_nat _ ha.digits)
      (leading_lt base_pos_nat _ hb.digits)
  have hzero : Accumulated (a.d.len + b.d.len) 0 (replicate OB_MULT_BUFFER_SIZE 0) := by
    refine ⟨?_, fun i => ?_, ?_⟩
    · rw [length_replicate, OB_MULT_BUFFER_SIZE]
      omega
    · have hcell : (replicate OB_MULT_BUFFER_SIZE 0).getD i 0 = 0 := by
        rw [getD_eq_getElem?_getD, getElem?_replicate]
        split_ifs <;> rfl
      norm_num [CARRY_BOUND]
    · have := leading_shifted [] OB_MULT_BUFFER_SIZE (a.d.len + b.d.len)
      rwa [shifted, append_nil, leading_nil] at this
  have hrows := mulRowsV2_spec hb.digits (by omega)
    ha.digits (show 0 + a.words.length + b.words.length = a.d.len + b.d.len by omega) hzero
    (by rwa [halen, hblen, Nat.zero_add])
  rw [halen, hblen, Nat.zero_add] at hrows
  have hlen := hrows.length
  have hres := resolveCarries_spec
    (show a.d.len + b.d.len - 1 < (mulRowsV2 b.words 0 a.words _).length by omega)
    (fun j _ => hrows.bound j) ((hrows.bound _).trans_le (Nat.le_add_right _ _))
  have hvalue := hres.value
  rw [Nat.sub_add_cancel (by omega), hrows.value_eq] at hvalue
  have hlength := hres.length
  rw [mulCellsV2]
  refine ⟨by omega, ?_, hvalue⟩
  intro x hx
  obtain ⟨j, hj, rfl⟩ := getElem_of_mem hx
  rw [length_take] at hj
  rw [getElem_take, ← getD_of_lt (by omega)]
  rcases Nat.eq_zero_or_pos j with rfl | hpos
  · -- the first cell has no room to be more than a word
    generalize resolveCarries _ _ = R at hvalue hj ⊢
    cases R with
    | nil => exact base_pos_nat
    | cons d ds =>
      obtain ⟨m, hm⟩ : ∃ m, a.d.len + b.d.len = m + 1 := ⟨a.d.len + b.d.len - 1, by omega⟩
      rw [hm, leading] at hvalue
      rw [hm, pow_succ', ← hvalue] at hlt
      exact lt_of_mul_lt_mul_right ((Nat.le_add_right _ _).trans_lt hlt) (Nat.zero_le _)
  · exact hres.digits j hpos (by omega)

/-- What `mul_v2_` checks and returns, in the terms of `mulFinish_eq`. -/
theorem mulFinishV2_eq (cfg : Config) (sign : Sign) (ha : Normal a e) (hb : Normal b f) : ∃ E W ds,
      mulFinishV2 cfg sign (e + f) (a.d.len + b.d.len) (mulCellsV2 a b)
          = assignChecked { cfg with strictMode := true } sign E ((trim W).take 9).length ds
        ∧ ds.take ((trim W).take 9).length = (trim W).take 9
        ∧ Digits BASE W ∧ W ≠ [] ∧ W.head? ≠ some 0 ∧ (E = e + f ∨ E = e + f + 1)
        ∧ (BASE : ℚ) ^ E * mantissa BASE W
            = (BASE : ℚ) ^ e * mantissa BASE a.words *
            ((BASE : ℚ) ^ f * mantissa BASE b.words) := by
  obtain ⟨hlen, hdigits, hvalue⟩ := mulCellsV2_spec ha hb
  have hapos := ha.len_pos
  generalize mulCellsV2 a b = R at hlen hdigits hvalue ⊢
  obtain ⟨E, offset, hcase, hne, hfirst, -, hmag⟩ := product_words ha hb
    (by rw [length_take]; omega) hdigits (by rw [leading_take le_rfl, hvalue])
  have hzero : (R.take (a.d.len + b.d.len)).getD 0 0 = R.getD 0 0 := by
    simp [getD_eq_getElem?_getD, show 0 < a.d.len + b.d.len by omega]
  have hdrop : (R.take (a.d.len + b.d.len)).drop offset
      = (R.drop offset).take (a.d.len + b.d.len - offset) := drop_take
  rw [hzero] at hcase
  rw [hdrop] at hne hfirst hmag
  set W := (R.drop offset).take (a.d.len + b.d.len - offset) with hW
  have hstrip : stripLen (R.drop offset) (a.d.len + b.d.len - offset) = (trim W).length :=
    stripLen_eq_length (by rw [length_drop]; omega)
  have htake : (R.drop offset).take ((trim W).take 9).length = (trim W).take 9 := by
    have hcut : ∀ L ≤ a.d.len + b.d.len - offset, W.take L = (R.drop offset).take L := by
      intro L hL
      rw [take_take, Nat.min_eq_left hL]
    have hle : ((trim W).take 9).length ≤ a.d.len + b.d.len - offset := by
      have hlenW : W.length ≤ a.d.len + b.d.len - offset := length_take_le _ _
      have htrim := length_trim_le W
      rw [length_take]
      omega
    rw [← hcut _ hle, take_trim_take]
  refine ⟨E, W, R.drop offset, ?_, htake, hdrop ▸ hdigits.drop offset, hne, hfirst, ?_, hmag⟩
  · rw [mulFinishV2, length_take, Nat.min_comm 9, MAX_STORE_LEN]
    rcases hcase with ⟨hd, rfl, rfl⟩ | ⟨hd, rfl, rfl⟩
    · simp only [if_pos hd, hstrip]
    · simp only [hd, ne_eq, not_true, if_false, hstrip]
  · rcases hcase with ⟨-, -, h⟩ | ⟨-, -, h⟩
    · exact .inr h
    · exact .inl h

end Words

/-! ## The outcomes -/

/-- The outcomes of a multiplication without rounding whose exact result is `x`. -/
structure MulEnds (cfg : Config) (res : Except Err ObNumber) (x : ℚ) : Prop where
  zero : ∀ r, res = .ok r → x = 0 ∨ exponent x < -15 → r.value = 0
  words : ∀ r, res = .ok r → x ≠ 0 → -15 ≤ exponent x →
    r.value = truncTo ((BASE : ℚ) ^ (exponent x - 8)) x ∧ getDecodeExp r.d = exponent x
      ∧ (r.d.sign = .negative ↔ x < 0) ∧ exponent x ≤ maxExp cfg.oracleMode
  error : ∀ err, res = .error err →
    (err = .integerPrecisionOverflow ∧ x ≠ 0 ∧ maxExp cfg.oracleMode < exponent x)
      ∨ (err = .allocateMemoryFailed ∧ cfg.alloc = false)

section Ends

variable {cfg : Config} {res : Except Err ObNumber} {a b : ObNumber} {e f : ℤ}

lemma mulEnds_zero : MulEnds cfg (.ok zero) 0 where
  zero r hr _ := by
    cases hr
    exact value_of_zero rfl
  words r _ hx := absurd rfl hx
  error err herr := by cases herr

/-- Nine words of an exact product `W`. -/
lemma Assigned.mulEnds {sign : Sign} {E : ℤ} {W : List ℕ} {x : ℚ}
    (h : Assigned cfg res sign E ((trim W).take 9)) (hhi : E < 64) (hdigits : Digits BASE W)
    (hne : W ≠ []) (hfirst : W.head? ≠ some 0)
    (hx : x = sign.factor * ((BASE : ℚ) ^ E * mantissa BASE W)) : MulEnds cfg res x := by
  obtain ⟨hlow, -⟩ := magnitude_bounds_of_head hdigits hne hfirst E
  have hpos := (zpow_pos base_pos E).trans_le hlow
  have hexp : exponent x = E := hx ▸ exponent_magnitude sign hdigits hne hfirst
  have hxne : x ≠ 0 := by
    rw [hx]
    refine mul_ne_zero ?_ hpos.ne'
    cases sign <;> simp [Sign.factor]
  refine ⟨?_, ?_, ?_⟩
  · intro r hr hsmall
    rcases h.ok r hr with ⟨-, rfl⟩ | ⟨hlim, -⟩
    · exact value_of_zero rfl
    · exact absurd (hsmall.resolve_left hxne) (by omega)
  · intro r hr _ hlim
    rcases h.ok r hr with ⟨hsmall, -⟩ | ⟨hlim, hbig, -, hd, hstored, hwords⟩
    · omega
    · obtain ⟨hvalue, hdec⟩ := value_of_calcDesc (show -63 ≤ E by omega) hhi hd hstored
      have hfloor := floor_magnitude_cut hdigits E 8
      have hlen : ((trim W).take 9).length ≤ 8 + 1 := length_take_le _ _
      refine ⟨?_, by rw [hdec, hexp], ?_, by rw [hexp]; exact hbig⟩
      · rw [hvalue, hwords, hexp, hx, truncTo_factor _ hpos.le,
          show E - 8 = E - ((8 : ℕ) : ℤ) by norm_num, hfloor, magnitude_of_length_le hlen,
          leading_take le_rfl, leading_trim]
        ring
      · rw [hd, calcDesc, hx]
        cases sign with
        | negative => simp [Sign.factor, hpos]
        | positive => simp [Sign.factor, hpos.le]
  · intro err herr
    rw [hexp]
    rcases h.error err herr with ⟨rfl, hbig⟩ | hno
    · exact .inl ⟨rfl, hxne, hbig⟩
    · exact .inr hno

lemma Normal.mul_value (ha : Normal a e) (hb : Normal b f) (he : InLimits e) (hf : InLimits f) :
    a.value * b.value = (if a.d.sign = b.d.sign then Sign.positive else .negative).factor
      * ((BASE : ℚ) ^ e * mantissa BASE a.words * ((BASE : ℚ) ^ f * mantissa BASE b.words)) := by
  rw [ha.value_eq he, hb.value_eq hf]
  cases a.d.sign <;> cases b.d.sign <;> simp [Sign.factor]

lemma Normal.mulV3_ends (hcfg : cfg.doRounding = false) (ha : Normal a e) (hb : Normal b f)
    (he : InLimits e) (hf : InLimits f) : MulEnds cfg (mulV3 cfg a b) (a.value * b.value) := by
  have hbe := he.bounds
  have hbf := hf.bounds
  rw [mulV3, if_neg (by rw [ha.isZero_eq, hb.isZero_eq]; simp), ha.decode_eq he, hb.decode_eq hf,
    map_roundAfter hcfg]
  obtain ⟨E, W, ds, heq, htake, hdigits, hne, hfirst, hE, hmag⟩ := mulFinish_eq cfg
    (if a.d.sign = b.d.sign then .positive else .negative) ha hb
  rw [heq]
  exact (assigned_assignChecked (by omega) (by omega) htake).mulEnds (by omega) hdigits hne hfirst
    (by rw [hmag]; exact ha.mul_value hb he hf)

lemma Normal.mulV2_ends (hcfg : cfg.doRounding = false) (ha : Normal a e) (hb : Normal b f)
    (he : InLimits e) (hf : InLimits f) : MulEnds cfg (mulV2 cfg a b) (a.value * b.value) := by
  have hbe := he.bounds
  have hbf := hf.bounds
  rw [mulV2, if_neg (by rw [hcfg]; exact Bool.false_ne_true),
    if_neg (by rw [ha.isZero_eq, hb.isZero_eq]; simp), ha.decode_eq he, hb.decode_eq hf]
  obtain ⟨E, W, ds, heq, htake, hdigits, hne, hfirst, hE, hmag⟩ := mulFinishV2_eq cfg
    (if a.d.sign = b.d.sign then .positive else .negative) ha hb
  rw [heq]
  exact (assigned_assignStrict (by omega) (by omega) htake).mulEnds (by omega) hdigits hne hfirst
    (by rw [hmag]; exact ha.mul_value hb he hf)

lemma MulEnds.value_eq {res' : Except Err ObNumber} {r r' : ObNumber} {x : ℚ}
    (h : MulEnds cfg res x) (h' : MulEnds cfg res' x) (hr : res = .ok r) (hr' : res' = .ok r') :
    r'.value = r.value := by
  by_cases hzero : x = 0 ∨ exponent x < -15
  · rw [h.zero r hr hzero, h'.zero r' hr' hzero]
  · obtain ⟨hne, hlim⟩ := not_or.1 hzero
    rw [(h.words r hr hne (not_lt.1 hlim)).1, (h'.words r' hr' hne (not_lt.1 hlim)).1]

end Ends

/-- **Multiplication without rounding.** -/
theorem mulV3_mulV2_unrounded (cfg : Config) (hcfg : cfg.doRounding = false) (a b : ObNumber)
    (ha : Normalized a) (hb : Normalized b) : (a.isZero = false → b.isZero = false → MulFits a b)
      ∧ MulEnds cfg (mulV3 cfg a b) (a.value * b.value)
      ∧ MulEnds cfg (mulV2 cfg a b) (a.value * b.value)
      ∧ ∀ r r', mulV3 cfg a b = .ok r → mulV2 cfg a b = .ok r' → r'.value = r.value := by
  have hends : (a.isZero = false → b.isZero = false → MulFits a b)
      ∧ MulEnds cfg (mulV3 cfg a b) (a.value * b.value)
      ∧ MulEnds cfg (mulV2 cfg a b) (a.value * b.value) := by
    rcases ha with hza | ⟨e, hna, he⟩
    · rw [mulV3, mulV2, if_pos (.inl (isZero_of_zero hza)), hcfg, if_neg Bool.false_ne_true,
        if_pos (.inl (isZero_of_zero hza)), map_roundAfter hcfg, value_of_zero hza, zero_mul]
      exact ⟨fun h => absurd h (by rw [isZero_of_zero hza]; simp), mulEnds_zero, mulEnds_zero⟩
    rcases hb with hzb | ⟨f, hnb, hf⟩
    · rw [mulV3, mulV2, if_pos (.inr (isZero_of_zero hzb)), hcfg, if_neg Bool.false_ne_true,
        if_pos (.inr (isZero_of_zero hzb)), map_roundAfter hcfg, value_of_zero hzb, mul_zero]
      exact ⟨fun _ h => absurd h (by rw [isZero_of_zero hzb]; simp), mulEnds_zero, mulEnds_zero⟩
    exact ⟨fun _ _ => hna.mulFits hnb, hna.mulV3_ends hcfg hnb he hf, hna.mulV2_ends hcfg hnb he hf⟩
  obtain ⟨hfits, hv3, hv2⟩ := hends
  exact ⟨hfits, hv3, hv2, fun r r' hr hr' => hv3.value_eq hv2 hr hr'⟩

theorem mulV3_mulV2_unrounded_nines :
    Normalized nines ∧ unrounded.doRounding = false ∧ MulFits nines nines
      ∧ MulEnds unrounded (mulV3 unrounded nines nines) (nines.value * nines.value) :=
  have h := mulV3_mulV2_unrounded unrounded rfl nines nines nines_normalized nines_normalized
  ⟨nines_normalized, rfl, h.1 rfl rfl, h.2.1⟩

/-- `BASE ^ (-15)`, the smallest number above zero. -/
def smallest : ObNumber := ⟨⟨1, 49, .positive⟩, [1]⟩

/-- The square of the smallest number is not zero in nine words, but comes out as zero. -/
theorem mulV3_smallest : Normalized smallest ∧ mulV3 unrounded smallest smallest = .ok zero
      ∧ zero.value ≠ truncTo ((BASE : ℚ) ^ (exponent (smallest.value * smallest.value) - 8))
          (smallest.value * smallest.value) := by
  have hnormal : Normal smallest (-15) := by decide
  have hlimits : InLimits (-15) := by decide
  have hone : Digits BASE [1] := by decide
  have hsquare : smallest.value * smallest.value
      = Sign.positive.factor * ((BASE : ℚ) ^ (-30 : ℤ) * mantissa BASE [1]) := by
    rw [hnormal.value_eq hlimits, show smallest.words = [1] from rfl]
    norm_num [smallest, Sign.factor, mantissa, BASE]
  have hfloor := floor_magnitude_cut hone (-30) 8
  have hnonneg : 0 ≤ (BASE : ℚ) ^ (-30 : ℤ) * mantissa BASE [1] :=
    mul_nonneg (zpow_pos base_pos _).le (mantissa_nonneg _ _)
  refine ⟨.inr ⟨-15, hnormal, hlimits⟩, by decide +kernel, ?_⟩
  rw [hsquare, exponent_magnitude _ hone (by simp) (by simp), truncTo_factor _ hnonneg,
    show (-30 : ℤ) - 8 = -30 - ((8 : ℕ) : ℤ) by norm_num, hfloor, value_of_zero rfl]
  have hpos : (0 : ℚ) < leading BASE (8 + 1) [1] := by
    exact_mod_cast leading_pos base_pos_nat (by simp) (by simp) (by decide)
  have hunit : (0 : ℚ) < (BASE : ℚ) ^ (-30 - ((8 : ℕ) : ℤ)) := zpow_pos base_pos _
  rw [Sign.factor, one_mul]
  exact (mul_pos hpos hunit).ne

end OceanBase.Number
