import DailyReadCoding.OceanBase.Number.Rounding

/-!
# The word loops of addition and subtraction

`add_v3` and `sub_v3` run one loop: over a window of at most nine words, from the lowest, each time
combining a word of the one number with the aligned word of the other and a carry or borrow.  With
`F` the words of the number of larger exponent and `G` those of the other, moved down by the
difference of the exponents, the loop computes `F + G` or `F - G` on the window.
-/

namespace OceanBase.Number

open Positional ObNumber List WindowState

/-! ## Which word is combined -/

/-- The words of the other number, moved down by `shift` words. -/
def shifted (shift : ℕ) (other : List ℕ) : List ℕ := List.replicate shift 0 ++ other

@[simp] lemma shifted_zero (other : List ℕ) : shifted 0 other = other := rfl

lemma shifted_getD_of_lt {shift p : ℕ} (other : List ℕ) (h : p < shift) :
    (shifted shift other).getD p 0 = 0 := by
  simp [shifted, getD_eq_getElem?_getD, getElem?_append, h]

lemma shifted_getD_of_ge {shift p : ℕ} (other : List ℕ) (h : shift ≤ p) :
    (shifted shift other).getD p 0 = other.getD (p - shift) 0 := by
  simp [shifted, getD_eq_getElem?_getD, getElem?_append, not_lt.2 h]

lemma digits_shifted {other : List ℕ} (h : Digits BASE other) (shift : ℕ) :
    Digits BASE (shifted shift other) := by
  intro x hx
  rcases mem_append.1 hx with hx | hx
  · rw [eq_of_mem_replicate hx]
    exact base_pos_nat
  · exact h x hx

lemma leading_shifted (other : List ℕ) : ∀ (shift n : ℕ),
    leading BASE n (shifted shift other) = leading BASE (n - shift) other
  | 0, n => rfl
  | shift + 1, 0 => by simp [leading]
  | shift + 1, n + 1 => by
    have ih := leading_shifted other shift n
    rw [shifted, replicate_succ, cons_append, leading, Nat.zero_mul, Nat.zero_add,
      Nat.add_sub_add_right]
    exact ih

/-- The cursors at a state whose next word is `p - 1`: not yet at the other number, inside it, or
past its first word. -/
structure Aligned (exp otherExp : ℤ) (otherLen minId p : ℕ) (s : WindowState) : Prop where
  curExp : s.curExp = exp - p + 1
  id_eq : s.curOtherId = otherExp - s.curOtherExp
  phase : (s.curExp ≤ s.curOtherExp ∧ s.curOtherId = otherLen - 1)
    ∨ (s.curExp = s.curOtherExp ∧ minId - 1 ≤ s.curOtherId ∧ s.curOtherId ≤ otherLen - 1)
    ∨ (s.curOtherId = minId - 1 ∧ s.curOtherExp ≤ s.curExp)

section Alignment

variable {exp otherExp : ℤ} {minId p shift : ℕ} {s : WindowState} {other : List ℕ}

/-- The word that a round takes from the other number is the one at its own position. -/
lemma Aligned.word_eq (h : Aligned exp otherExp other.length minId (p + 1) s)
    (hshift : exp = otherExp + shift) (hmin : shift ≤ p → minId ≤ p - shift) :
    (if s.curExp = s.curOtherExp ∧ s.curOtherId ≥ minId
      then other.getD s.curOtherId.toNat 0 else 0) = (shifted shift other).getD p 0 := by
  have hcur := h.curExp
  have hid := h.id_eq
  rcases Nat.lt_or_ge p shift with hp | hp
  · rw [shifted_getD_of_lt other hp, if_neg]
    rcases h.phase with hphase | hphase | hphase <;> omega
  · rw [shifted_getD_of_ge other hp]
    split_ifs with haligned
    · rw [show s.curOtherId.toNat = p - shift by omega]
    · -- the position lies behind the last word of the other number
      rw [getD_eq_getElem?_getD, getElem?_eq_none, Option.getD_none]
      rcases h.phase with hphase | hphase | hphase <;> omega

lemma Aligned.step (h : Aligned exp otherExp other.length minId (p + 1) s)
    (hlen : minId ≤ other.length) (combine : ℕ → ℕ → ℕ → ℕ × ℕ) (word : ℕ) :
    Aligned exp otherExp other.length minId p (s.step combine other minId word) := by
  have hcur := h.curExp
  have hid := h.id_eq
  refine ⟨?_, ?_, ?_⟩
  · simp only [WindowState.step]
    omega
  · simp only [WindowState.step]
    split_ifs <;> omega
  · simp only [WindowState.step]
    rcases h.phase with hphase | hphase | hphase <;> split_ifs <;> omega

end Alignment

/-! ## What the loop computes -/

/-- A word operation with its carry: `σ = 1` for the sum and `σ = -1` for the difference. -/
structure WordOp (σ : ℤ) (combine : ℕ → ℕ → ℕ → ℕ × ℕ) : Prop where
  digit_lt : ∀ {w o c}, w < BASE → o < BASE → c ≤ 1 → (combine w o c).1 < BASE
  carry_le : ∀ w o c, (combine w o c).2 ≤ 1
  value : ∀ {w o c}, w < BASE → o < BASE → c ≤ 1 →
    ((combine w o c).1 : ℤ) + σ * (combine w o c).2 * BASE = w + σ * (o + c)

lemma addWord_cases {w o c : ℕ} (hw : w < BASE) (ho : o < BASE) (hc : c ≤ 1) :
    (addWord w o c = (w + c + o - BASE, 1) ∧ BASE ≤ w + c + o)
      ∨ (addWord w o c = (w + c + o, 0) ∧ w + c + o < BASE) := by
  have hmod : (w + c + o) % 2 ^ 32 = w + c + o := by
    simp only [BASE] at hw ho
    omega
  rw [addWord, hmod]
  rcases Nat.lt_or_ge (w + c + o) BASE with h | h
  · exact .inr ⟨if_neg (not_le.2 h), h⟩
  · exact .inl ⟨if_pos h, h⟩

lemma wordOp_add : WordOp 1 addWord where
  digit_lt := by
    intro w o c hw ho hc
    rcases addWord_cases hw ho hc with ⟨h, hge⟩ | ⟨h, hlt⟩ <;> rw [h] <;> simp only <;> omega
  carry_le := by
    intro w o c
    rw [addWord]
    split_ifs <;> simp
  value := by
    intro w o c hw ho hc
    rcases addWord_cases hw ho hc with ⟨h, hge⟩ | ⟨h, hlt⟩ <;> rw [h] <;> simp only <;> omega

lemma subWord_cases {w o c : ℕ} :
    (subWord w o c = (((w : ℤ) - c - o + BASE).toNat, 1) ∧ (w : ℤ) - c - o < 0)
      ∨ (subWord w o c = (((w : ℤ) - c - o).toNat, 0) ∧ 0 ≤ (w : ℤ) - c - o) := by
  rcases lt_or_ge ((w : ℤ) - c - o) 0 with h | h
  · exact .inl ⟨if_pos h, h⟩
  · exact .inr ⟨if_neg (not_lt.2 h), h⟩

lemma wordOp_sub : WordOp (-1) subWord where
  digit_lt := by
    intro w o c hw ho hc
    rcases @subWord_cases w o c with ⟨h, hlt⟩ | ⟨h, hge⟩ <;> rw [h] <;> simp only <;> omega
  carry_le := by
    intro w o c
    rcases @subWord_cases w o c with ⟨h, -⟩ | ⟨h, -⟩ <;> simp [h]
  value := by
    intro w o c hw ho hc
    rcases @subWord_cases w o c with ⟨h, hlt⟩ | ⟨h, hge⟩ <;> rw [h] <;> simp only <;> omega

/-- The state after `k` rounds, when the words above position `p` have been visited. -/
structure WindowInv (σ : ℤ) (F G : List ℕ) (p k : ℕ) (s : WindowState) : Prop where
  length : s.written.length = k
  digits : Digits BASE s.written
  carry : s.carry ≤ 1
  value : (leading BASE k s.written : ℤ) + σ * s.carry * BASE ^ k
    = leading BASE k (F.drop p) + σ * leading BASE k (G.drop p)
  sumLen : s.sumLen = p + (trim s.written).length
  check : s.checkSumLen = true ↔ trim s.written = []

lemma leading_drop_succ (b k p : ℕ) (ds : List ℕ) :
    leading b (k + 1) (ds.drop p) = ds.getD p 0 * b ^ k + leading b k (ds.drop (p + 1)) := by
  rw [leading_succ, tail_drop, headD_eq_head?_getD, head?_drop, getD_eq_getElem?_getD]

section Loop

variable {σ : ℤ} {combine : ℕ → ℕ → ℕ → ℕ × ℕ} {F other : List ℕ} {exp otherExp : ℤ}
  {minId shift p k : ℕ} {s : WindowState}

lemma WindowInv.step (hop : WordOp σ combine) (hF : Digits BASE F) (hother : Digits BASE other)
    (hshift : exp = otherExp + shift) (hmin : shift ≤ p → minId ≤ p - shift)
    (ha : Aligned exp otherExp other.length minId (p + 1) s)
    (h : WindowInv σ F (shifted shift other) (p + 1) k s) :
    WindowInv σ F (shifted shift other) p (k + 1) (s.step combine other minId (F.getD p 0)) := by
  have hw := digits_getD hF p
  have ho := digits_getD (digits_shifted hother shift) p
  have hword := ha.word_eq hshift hmin
  have hvalue := hop.value hw ho h.carry
  have hdigit := hop.digit_lt hw ho h.carry
  simp only [WindowState.step, hword]
  generalize hr : combine (F.getD p 0) ((shifted shift other).getD p 0) s.carry = r at *
  refine ⟨?_, ?_, ?_, ?_, ?_, ?_⟩
  · simp [h.length]
  · exact forall_mem_cons.2 ⟨hdigit, h.digits⟩
  · rw [← hr]
    exact hop.carry_le _ _ _
  · have hold := h.value
    rw [leading, leading_drop_succ, leading_drop_succ]
    push_cast
    linear_combination hold + (BASE : ℤ) ^ k * hvalue
  · have hlen := h.sumLen
    have hcheck := h.check
    simp only [trim]
    by_cases hz : trim s.written = [] ∧ r.1 = 0
    · rw [if_pos ⟨hcheck.2 hz.1, hz.2⟩, if_pos hz, hlen, hz.1]
      rfl
    · rw [if_neg fun hand => hz ⟨hcheck.1 hand.1, hand.2⟩, if_neg hz, length_cons]
      omega
  · have hcheck := h.check
    simp only [trim, Bool.and_eq_true, hcheck]
    by_cases hz : trim s.written = [] ∧ r.1 = 0
    · simp [hz]
    · simp [hz]

/-- **The loop**: at the end the words and the carry hold the result on the whole window. -/
theorem WindowState.run_inv (hop : WordOp σ combine) (hF : Digits BASE F)
    (hother : Digits BASE other) (hshift : exp = otherExp + shift) (minId lo : ℕ)
    (hlen : minId ≤ other.length) (hlo : ∀ p, lo ≤ p → shift ≤ p → minId ≤ p - shift) :
    ∀ (n k : ℕ) (s : WindowState), Aligned exp otherExp other.length minId (lo + n) s →
      WindowInv σ F (shifted shift other) (lo + n) k s →
        WindowInv σ F (shifted shift other) lo (k + n) (s.run combine other minId (F.getD · 0) lo n)
  | 0, _, _, _, h => h
  | n + 1, k, s, ha, h => by
    have hstep := h.step hop hF hother hshift (hlo (lo + n) (by omega)) ha
    have := run_inv hop hF hother hshift minId lo hlen hlo n (k + 1) _
      (ha.step hlen combine (F.getD (lo + n) 0)) hstep
    rwa [Nat.add_assoc, Nat.add_comm 1 n] at this

end Loop

/-! ## The window -/

section Init

variable {exp otherExp : ℤ} {len shift : ℕ} (otherLen minId : ℕ)

/-- The number of words of the window. -/
def windowLen (len otherLen shift : ℕ) : ℕ := min 9 (max len (shift + otherLen))

lemma init_sumLen (hshift : exp = otherExp + shift) (hlen : 0 < len) :
    (WindowState.init exp otherExp len otherLen).sumLen = windowLen len otherLen shift := by
  simp only [init, OB_MAX_DECIMAL_DIGIT, MAX_STORE_LEN, windowLen]
  split_ifs <;> omega

lemma init_aligned (hshift : exp = otherExp + shift) (hlen : 0 < len) (hlen9 : len ≤ 9)
    (hmin : minId + shift ≤ 9) : Aligned exp otherExp otherLen minId (windowLen len otherLen shift)
      (WindowState.init exp otherExp len otherLen) := by
  refine ⟨?_, ?_, ?_⟩
  · simp only [init, OB_MAX_DECIMAL_DIGIT, MAX_STORE_LEN, windowLen]
    split_ifs <;> omega
  · simp only [init]
    omega
  · simp only [init, OB_MAX_DECIMAL_DIGIT, MAX_STORE_LEN]
    split_ifs <;> omega

lemma init_inv (σ : ℤ) (F G : List ℕ) (hshift : exp = otherExp + shift) (hlen : 0 < len) :
    WindowInv σ F G (windowLen len otherLen shift) 0
      (WindowState.init exp otherExp len otherLen) := by
  refine ⟨rfl, ?_, ?_, ?_, ?_, ?_⟩
  · intro x hx
    cases hx
  · simp [init]
  · simp [init, leading]
  · rw [init_sumLen _ hshift hlen]
    simp [init, trim]
  · simp [init, trim]

/-- A list that ends within the window is the same nine words long. -/
lemma leading_nine_of_window (shift : ℕ) {F : List ℕ} (hlen : 0 < len) (hlen9 : len ≤ 9)
    (hF : F.length = len) : leading BASE 9 F = leading BASE (windowLen len otherLen shift) F
      * BASE ^ (9 - windowLen len otherLen shift) := by
  have hle : windowLen len otherLen shift ≤ 9 := Nat.min_le_left _ _
  rw [← leading_add_of_length_le (by simp only [windowLen]; omega), Nat.add_sub_cancel' hle]

lemma leading_nine_shifted (len : ℕ) {other : List ℕ} (hother : other.length = otherLen) :
    leading BASE 9 (shifted shift other)
      = leading BASE (windowLen len otherLen shift) (shifted shift other)
        * BASE ^ (9 - windowLen len otherLen shift) := by
  have hle : windowLen len otherLen shift ≤ 9 := Nat.min_le_left _ _
  rcases hle.lt_or_eq with hlt | heq
  · rw [← leading_add_of_length_le, Nat.add_sub_cancel' hle]
    simp only [windowLen] at hlt ⊢
    simp [shifted, hother]
    omega
  · rw [heq, pow_zero, Nat.mul_one]

end Init

/-! ## Addition -/

/-- A list whose integer has the full length starts with a word other than zero. -/
lemma head_ne_zero_of_le_leading {k : ℕ} {ds : List ℕ} (hdigits : Digits BASE ds)
    (h : BASE ^ k ≤ leading BASE (k + 1) ds) : ds.head? ≠ some 0 := by
  intro h0
  cases ds with
  | nil => cases h0
  | cons d ds =>
    obtain rfl : d = 0 := by simpa using h0
    have := leading_lt base_pos_nat k hdigits.tail
    rw [leading] at h
    omega

section Add

variable {n m a b : ObNumber} {e f : ℤ} {shift : ℕ}

/-- The loop of `add_v3` on a number and one whose exponent is `shift` words lower. -/
lemma addWindow_spec (hn : Normal n e) (hm : Normal m f) (he : InLimits e) (hf : InLimits f)
    (hef : e = f + shift) (hshift : shift < 9) :
    ∃ t : WindowState, addWindow n m = t ∧ t.carry ≤ 1 ∧ Digits BASE t.written
      ∧ t.written.length ≤ 9 ∧ t.sumLen = (trim t.written).length
      ∧ leading BASE 9 t.written + t.carry * BASE ^ 9
          = leading BASE 9 n.words + leading BASE 9 (shifted shift m.words)
      ∧ (t.carry = 0 → t.written.head? ≠ some 0) := by
  have hlen9 : n.d.len ≤ 9 := hn.len_le
  have hpos := hn.len_pos
  rw [addWindow, hn.decode_eq he, hm.decode_eq hf]
  simp only [init_sumLen _ hef hpos]
  set N := windowLen n.d.len m.d.len shift with hN
  have hN9 : N ≤ 9 := Nat.min_le_left _ _
  have hNpos : 0 < N := by simp only [hN, windowLen]; omega
  have hal := init_aligned m.d.len 0 hef hpos hlen9 (by omega)
  have hinv := run_inv wordOp_add hn.digits hm.digits hef 0 0 (Nat.zero_le _)
    (fun _ _ _ => Nat.zero_le _) N 0 _
    (by rw [hm.length_eq, Nat.zero_add]; exact hal)
    (by rw [Nat.zero_add]; exact init_inv m.d.len 1 n.words (shifted shift m.words) hef hpos)
  rw [Nat.zero_add] at hinv
  generalize run addWord m.words 0 (n.words.getD · 0) 0 N (init e f n.d.len m.d.len) = t at hinv ⊢
  have hvalue := hinv.value
  simp only [one_mul] at hvalue
  have hnat : leading BASE N t.written + t.carry * BASE ^ N
      = leading BASE N n.words + leading BASE N (shifted shift m.words) := by
    exact_mod_cast hvalue
  refine ⟨t, rfl, hinv.carry, hinv.digits, by rw [hinv.length]; exact hN9,
    by rw [hinv.sumLen, Nat.zero_add], ?_, fun hcarry => ?_⟩
  · have hpow : BASE ^ 9 = BASE ^ N * BASE ^ (9 - N) := by rw [← pow_add, Nat.add_sub_cancel' hN9]
    have hwritten : leading BASE 9 t.written = leading BASE N t.written * BASE ^ (9 - N) := by
      rw [← leading_add_of_length_le hinv.length.le, Nat.add_sub_cancel' hN9]
    rw [leading_nine_of_window m.d.len shift hpos hlen9 hn.length_eq,
      leading_nine_shifted m.d.len n.d.len hm.length_eq, ← Nat.add_mul, ← hnat, hpow,
      hwritten]
    ring
  · obtain ⟨k, hk⟩ : ∃ k, N = k + 1 := ⟨N - 1, by omega⟩
    obtain ⟨d, ds, hw, hd⟩ := hn.words_eq_cons
    rw [hcarry, hk] at hnat
    have hge : BASE ^ k ≤ leading BASE (k + 1) n.words := hw ▸ pow_le_leading hd
    exact head_ne_zero_of_le_leading (k := k) hinv.digits (by omega)

/-- The sum on the window, with one word more if it overflows the window. -/
lemma addFinish_eq (cfg : Config) (sign : Sign) (hn : Normal n e) (hm : Normal m f)
    (he : InLimits e) (hf : InLimits f) (hef : e = f + shift) (hshift : shift < 9) :
    ∃ E ws ds, addFinish cfg sign e (addWindow n m)
          = withBuffer cfg (assignChecked cfg sign E ws.length ds)
        ∧ ds.take ws.length = ws ∧ GoodWords 10 ws ∧ ((E = e ∧ ws.length ≤ 9 ∧ leading BASE 9 ws
              = leading BASE 9 n.words + leading BASE 9 (shifted shift m.words))
          ∨ (E = e + 1 ∧ leading BASE 10 ws
              = leading BASE 9 n.words + leading BASE 9 (shifted shift m.words))) := by
  obtain ⟨t, ht, hcarry, hdigits, hlen, hsumLen, hvalue, hfirst⟩ :=
    addWindow_spec hn hm he hf hef hshift
  have htrim := length_trim_le t.written
  rw [ht, addFinish]
  rcases Nat.eq_zero_or_pos t.carry with h0 | hpos
  · refine ⟨e, trim t.written, t.written, ?_, take_length_trim _, ?_, .inl ⟨rfl, by omega, ?_⟩⟩
    · rw [if_neg (by omega), hsumLen]
    · refine ⟨?_, by omega, digits_trim hdigits, head_trim (hfirst h0), trimmed_trim _⟩
      intro hnil
      have hzero := trim_eq_nil hnil BASE 9
      obtain ⟨d, ds, hw, hd⟩ := hn.words_eq_cons
      have hge : BASE ^ 8 ≤ leading BASE 9 n.words := hw ▸ pow_le_leading hd
      have hpow : 0 < BASE ^ 8 := Nat.pow_pos base_pos_nat
      rw [h0] at hvalue
      omega
    · rw [leading_trim]
      simpa [h0] using hvalue
  · obtain h1 : t.carry = 1 := by omega
    have hone : trim (1 :: t.written) = 1 :: trim t.written :=
      trim_cons_of_ne fun h => Nat.one_ne_zero h.2
    refine ⟨e + 1, 1 :: trim t.written, 1 :: t.written, ?_, ?_, ?_, .inr ⟨rfl, ?_⟩⟩
    · rw [if_pos (by omega), hsumLen, length_cons]
    · rw [length_cons, take_succ_cons, take_length_trim]
    · refine ⟨cons_ne_nil _ _, by rw [length_cons]; omega, ?_, by simp, hone ▸ trimmed_trim _⟩
      exact forall_mem_cons.2 ⟨by simp [BASE], digits_trim hdigits⟩
    · rw [h1] at hvalue
      rw [leading, leading_trim, ← hvalue]
      ring

/-- What `add_v3` checks and returns for close exponents: the sum of the windows, perhaps with one
word more. -/
theorem addAligned_eq (cfg : Config) (ha : Normal a e) (hb : Normal b f) (he : InLimits e)
    (hf : InLimits f) (hef : e < f + 9) (hfe : f < e + 9) :
    ∃ E ws ds, addAligned cfg a b = withBuffer cfg (assignChecked cfg a.d.sign E ws.length ds)
        ∧ ds.take ws.length = ws ∧ GoodWords 10 ws
        ∧ ((E = max e f ∧ ws.length ≤ 9 ∧ leading BASE 9 ws
              = leading BASE 9 (shifted (max e f - e).toNat a.words)
                + leading BASE 9 (shifted (max e f - f).toNat b.words))
          ∨ (E = max e f + 1 ∧ leading BASE 10 ws
              = leading BASE 9 (shifted (max e f - e).toNat a.words)
                + leading BASE 9 (shifted (max e f - f).toNat b.words))) := by
  simp only [addAligned, ha.decode_eq he, hb.decode_eq hf]
  split_ifs with hswap
  · have hmax : max e f = f := by omega
    obtain ⟨E, ws, ds, heq, htake, hgood, hvalue⟩ := addFinish_eq cfg a.d.sign hb ha hf he
      (show f = e + ((f - e).toNat : ℤ) by omega) (by omega)
    refine ⟨E, ws, ds, heq, htake, hgood, ?_⟩
    rw [hmax, sub_self, Nat.add_comm (leading BASE 9 (shifted _ a.words))]
    exact hvalue
  · have hmax : max e f = e := by omega
    obtain ⟨E, ws, ds, heq, htake, hgood, hvalue⟩ := addFinish_eq cfg a.d.sign ha hb he hf
      (show e = f + ((e - f).toNat : ℤ) by omega) (by omega)
    refine ⟨E, ws, ds, heq, htake, hgood, ?_⟩
    rw [hmax, sub_self]
    exact hvalue

end Add

/-! ## Subtraction -/

lemma shifted_leadingZeros : ∀ ds : List ℕ,
    shifted (leadingZeros ds) (ds.drop (leadingZeros ds)) = ds
  | [] => rfl
  | d :: ds => by
    rw [leadingZeros]
    split_ifs with h
    · have ih := shifted_leadingZeros ds
      rw [shifted] at ih ⊢
      rw [replicate_succ, cons_append, drop_succ_cons, ih, h]
    · rfl

lemma head_drop_leadingZeros : ∀ ds : List ℕ, (ds.drop (leadingZeros ds)).head? ≠ some 0
  | [] => by simp [leadingZeros]
  | d :: ds => by
    rw [leadingZeros]
    split_ifs with h
    · exact head_drop_leadingZeros ds
    · simpa using h

lemma commonPrefix_le : ∀ (k : ℕ) (xs ys : List ℕ), commonPrefix xs ys k ≤ k
  | 0, _, _ => le_rfl
  | k + 1, xs, ys => by
    rw [commonPrefix]
    split_ifs
    · exact Nat.succ_le_succ (commonPrefix_le k _ _)
    · exact Nat.zero_le _

lemma take_commonPrefix : ∀ {k : ℕ} {xs ys : List ℕ}, k ≤ xs.length → k ≤ ys.length →
    xs.take (commonPrefix xs ys k) = ys.take (commonPrefix xs ys k)
  | 0, _, _, _, _ => rfl
  | k + 1, x :: xs, y :: ys, hx, hy => by
    rw [commonPrefix]
    split_ifs with h
    · obtain rfl : x = y := h
      simp only [tail_cons, take_succ_cons]
      rw [take_commonPrefix (Nat.le_of_succ_le_succ hx) (Nat.le_of_succ_le_succ hy)]
    · rfl

lemma getD_commonPrefix_ne : ∀ {k : ℕ} {xs ys : List ℕ}, commonPrefix xs ys k < k →
    xs.getD (commonPrefix xs ys k) 0 ≠ ys.getD (commonPrefix xs ys k) 0
  | k + 1, xs, ys, hlt => by
    rw [commonPrefix] at hlt ⊢
    split_ifs at hlt ⊢ with h
    · have ih := getD_commonPrefix_ne (Nat.lt_of_succ_lt_succ hlt)
      cases xs <;> cases ys <;> simp_all
    · cases xs <;> cases ys <;> simp_all

section Sub

variable {n m a b : ObNumber} {e f : ℤ} {shift st : ℕ}

/-- The loop of `sub_v3`, when the minuend is larger and the words before `st` are equal. -/
lemma subWindow_spec (hn : Normal n e) (hm : Normal m f) (he : InLimits e) (hf : InLimits f)
    (hef : e = f + shift) (hshift : shift < 9)
    (hcommon : st = 0 ∨ (shift = 0 ∧ st ≤ m.d.len ∧ n.words.take st = m.words.take st))
    (hlt : leading BASE 9 (shifted shift m.words) < leading BASE 9 n.words) :
    ∃ t : WindowState, ∃ k, subWindow n m st = t ∧ Digits BASE t.written ∧ t.written.length = k
      ∧ st + k ≤ 9 ∧ t.sumLen = st + (trim t.written).length ∧ leading BASE (9 - st) t.written
          = leading BASE 9 n.words - leading BASE 9 (shifted shift m.words) := by
  have hlen9 : n.d.len ≤ 9 := hn.len_le
  have hmlen9 : m.d.len ≤ 9 := hm.len_le
  have hpos := hn.len_pos
  rw [subWindow, hn.decode_eq he, hm.decode_eq hf]
  simp only [init_sumLen _ hef hpos]
  set N := windowLen n.d.len m.d.len shift with hN
  have hN9 : N ≤ 9 := Nat.min_le_left _ _
  have hst : st ≤ N := by simp only [hN, windowLen]; omega
  have hal := init_aligned m.d.len st hef hpos hlen9 (by omega)
  have hinv := run_inv wordOp_sub hn.digits hm.digits hef st st
    (by rw [hm.length_eq]; omega) (fun p hp hs => by omega) (N - st) 0 _
    (by rw [hm.length_eq, Nat.add_sub_cancel' hst]; exact hal)
    (by
      rw [Nat.add_sub_cancel' hst]
      exact init_inv m.d.len (-1) n.words (shifted shift m.words) hef hpos)
  rw [Nat.zero_add] at hinv
  generalize run subWord m.words st (n.words.getD · 0) st (N - st)
    (init e f n.d.len m.d.len) = t at hinv ⊢
  refine ⟨t, N - st, rfl, hinv.digits, hinv.length, by omega, hinv.sumLen, ?_⟩
  -- the equal words in front drop out of the difference
  have hfront : leading BASE st n.words = leading BASE st (shifted shift m.words) := by
    rcases hcommon with rfl | ⟨rfl, -, htake⟩
    · rfl
    · rw [shifted_zero, ← leading_take le_rfl n.words, htake, leading_take le_rfl]
  have hsplit := fun ds => leading_add BASE st ds (N - st)
  rw [Nat.add_sub_cancel' hst] at hsplit
  have hdiff : (leading BASE (N - st) t.written : ℤ)
      = leading BASE N n.words - leading BASE N (shifted shift m.words)
        + t.carry * BASE ^ (N - st) := by
    rw [hsplit, hsplit, hfront]
    push_cast
    linear_combination hinv.value
  have hF := leading_nine_of_window m.d.len shift hpos hlen9 hn.length_eq
  have hG : leading BASE 9 (shifted shift m.words) = _ :=
    leading_nine_shifted m.d.len n.d.len hm.length_eq
  have hlt' : leading BASE N (shifted shift m.words) < leading BASE N n.words := by
    rw [hF, hG] at hlt
    exact Nat.lt_of_mul_lt_mul_right hlt
  have hbound := leading_lt base_pos_nat (N - st) hinv.digits
  have hcarry : t.carry = 0 := by
    have hle := hinv.carry
    by_contra hne
    rw [show t.carry = 1 by omega] at hdiff
    have hb : (leading BASE (N - st) t.written : ℤ) < (BASE : ℤ) ^ (N - st) := by
      exact_mod_cast hbound
    omega
  have hnat : leading BASE (N - st) t.written
      = leading BASE N n.words - leading BASE N (shifted shift m.words) := by
    rw [hcarry] at hdiff
    omega
  rw [show 9 - st = N - st + (9 - N) by omega, leading_add_of_length_le hinv.length.le, hnat, hF,
    hG, Nat.sub_mul]

/-- The difference on the window, moved up over the zero words in front. -/
lemma subFinish_eq (cfg : Config) (sign : Sign) (hn : Normal n e) (hm : Normal m f)
    (he : InLimits e) (hf : InLimits f) (hef : e = f + shift) (hshift : shift < 9)
    (hcommon : st = 0 ∨ (shift = 0 ∧ st ≤ m.d.len ∧ n.words.take st = m.words.take st))
    (hlt : leading BASE 9 (shifted shift m.words) < leading BASE 9 n.words) :
    ∃ (z : ℕ) (ws ds : List ℕ), subFinish cfg sign e st (subWindow n m st)
          = withBuffer cfg (assignChecked cfg sign (e - z) ws.length ds)
        ∧ ds.take ws.length = ws ∧ GoodWords (9 - z) ws ∧ z < 9 ∧ leading BASE (9 - z) ws
            = leading BASE 9 n.words - leading BASE 9 (shifted shift m.words) := by
  obtain ⟨t, k, ht, hdigits, hlen, hk, hsumLen, hvalue⟩ :=
    subWindow_spec hn hm he hf hef hshift hcommon hlt
  have htrim := length_trim_le t.written
  have hwords : t.written.take (t.sumLen - st) = trim t.written := by
    rw [hsumLen, Nat.add_sub_cancel_left, take_length_trim]
  set z := leadingZeros (trim t.written) with hz
  set ws := (trim t.written).drop z with hws
  have hshiftz : shifted z ws = trim t.written := shifted_leadingZeros _
  have hlenz : z + ws.length = (trim t.written).length := by
    rw [← hshiftz]
    simp [shifted]
  have hlead : leading BASE (9 - (st + z)) ws
      = leading BASE 9 n.words - leading BASE 9 (shifted shift m.words) := by
    rw [← hvalue, ← leading_trim BASE (9 - st) t.written, ← hshiftz, leading_shifted, Nat.sub_sub]
  have hne : ws ≠ [] := by
    intro hnil
    rw [hnil, leading_nil] at hlead
    omega
  have hpos := length_pos_of_ne_nil hne
  refine ⟨st + z, ws, t.written.drop z, ?_, ?_, ?_, by omega, hlead⟩
  · rw [ht, subFinish]
    simp only [hwords]
    rw [if_neg (by omega), show t.sumLen - (st + z) = ws.length by omega]
  · rw [take_drop, hlenz, take_length_trim]
  · exact ⟨hne, by omega, (digits_trim hdigits).drop z, head_drop_leadingZeros _,
      (trimmed_trim _).drop z⟩

/-- A number of larger exponent is larger on the window. -/
lemma leading_shifted_lt (hn : Normal n e) (hm : Normal m f) (hshift : 0 < shift) :
    leading BASE 9 (shifted shift m.words) < leading BASE 9 n.words := by
  obtain ⟨d, ds, hw, hd⟩ := hn.words_eq_cons
  calc leading BASE 9 (shifted shift m.words)
      = leading BASE (9 - shift) m.words := leading_shifted _ _ _
    _ < BASE ^ (9 - shift) := leading_lt base_pos_nat _ hm.digits
    _ ≤ BASE ^ 8 := Nat.pow_le_pow_right base_pos_nat (by omega)
    _ ≤ leading BASE 9 n.words := hw ▸ pow_le_leading hd

/-- With equal words before `st`, the number whose words go on, or whose word there is larger, is
larger. -/
lemma leading_lt_of_prefix {xs ys : List ℕ} (hys : Digits BASE ys) (hxlen : xs.length ≤ 9)
    (hlast : Trimmed xs) (hst : st < xs.length) (htake : xs.take st = ys.take st)
    (hnext : ys.length = st ∨ ys.getD st 0 < xs.getD st 0) :
    leading BASE 9 ys < leading BASE 9 xs := by
  have hsplit := fun ds => leading_add BASE st ds (9 - st)
  rw [Nat.add_sub_cancel' (by omega : st ≤ 9)] at hsplit
  have hfront : leading BASE st xs = leading BASE st ys := by
    rw [← leading_take le_rfl xs, htake, leading_take le_rfl]
  have hdrop : leading BASE (9 - st) (ys.drop st) < leading BASE (9 - st) (xs.drop st) := by
    rcases hnext with hend | hlt
    · rw [drop_of_length_le hend.le, leading_nil]
      refine leading_pos base_pos_nat ?_ (by simp; omega) (hlast.drop st)
      rw [Ne, drop_eq_nil_iff]
      omega
    · have htail := leading_lt base_pos_nat (9 - (st + 1)) (hys.drop (st + 1))
      rw [show 9 - st = 9 - (st + 1) + 1 by omega, leading_drop_succ, leading_drop_succ]
      calc ys.getD st 0 * BASE ^ (9 - (st + 1)) + leading BASE (9 - (st + 1)) (ys.drop (st + 1))
          < ys.getD st 0 * BASE ^ (9 - (st + 1)) + BASE ^ (9 - (st + 1)) := by omega
        _ = (ys.getD st 0 + 1) * BASE ^ (9 - (st + 1)) := by ring
        _ ≤ xs.getD st 0 * BASE ^ (9 - (st + 1)) := Nat.mul_le_mul_right _ hlt
        _ ≤ _ := Nat.le_add_right _ _
  rw [hsplit, hsplit, hfront]
  omega

lemma subAligned_of_exp_lt (cfg : Config) (ha : Normal a e) (hb : Normal b f) (he : InLimits e)
    (hf : InLimits f) (hef : e < f) :
    subAligned cfg a b = subFinish cfg (if b.d.sign = .negative then .positive else .negative) f 0
        (subWindow b a 0)
      ∧ subAligned cfg b a = subFinish cfg (if b.d.sign = .negative then .negative else .positive) f
        0 (subWindow b a 0) := by
  constructor
  · simp only [subAligned, ha.decode_eq he, hb.decode_eq hf]
    rw [if_neg hef.ne, if_neg fun h => hef.ne h.1, if_pos (.inl hef)]
  · simp only [subAligned, ha.decode_eq he, hb.decode_eq hf]
    rw [if_neg hef.ne', if_neg fun h => hef.ne' h.1, if_neg]
    rintro (h | ⟨h, -⟩) <;> omega

/-- `sub_v3` on numbers of one exponent: where the words first differ, and which is larger. -/
lemma subAligned_of_exp_eq (cfg : Config) (ha : Normal a e) (hb : Normal b e) (he : InLimits e) :
    (subAligned cfg a b = .ok zero ∧ a.words = b.words)
      ∨ (∃ st, a.words.take st = b.words.take st ∧ st ≤ a.d.len ∧ st ≤ b.d.len
          ∧ leading BASE 9 a.words < leading BASE 9 b.words ∧ subAligned cfg a b = subFinish cfg
            (if b.d.sign = .negative then .positive else .negative) e st (subWindow b a st))
      ∨ ∃ st, a.words.take st = b.words.take st ∧ st ≤ a.d.len ∧ st ≤ b.d.len
          ∧ leading BASE 9 b.words < leading BASE 9 a.words ∧ subAligned cfg a b = subFinish cfg
            (if a.d.sign = .negative then .negative else .positive) e st (subWindow a b st) := by
  set st := commonPrefix a.digits b.digits (min a.d.len b.d.len) with hst
  have hle : st ≤ min a.d.len b.d.len := commonPrefix_le _ _ _
  have ha9 : a.d.len ≤ 9 := ha.len_le
  have hb9 : b.d.len ≤ 9 := hb.len_le
  have htake : a.words.take st = b.words.take st := by
    have := take_commonPrefix (k := min a.d.len b.d.len)
      ((Nat.min_le_left _ _).trans ha.stored) ((Nat.min_le_right _ _).trans hb.stored)
    rw [words, words, take_take, take_take, Nat.min_eq_left (by omega), Nat.min_eq_left (by omega)]
    exact this
  have halen := ha.length_eq
  have hblen := hb.length_eq
  have hunfold : subAligned cfg a b = if st = min a.d.len b.d.len ∧ a.d.len = b.d.len then .ok zero
        else if (if st = min a.d.len b.d.len then a.d.len < b.d.len
            else a.digits.getD st 0 < b.digits.getD st 0) then
          subFinish cfg (if b.d.sign = .negative then .positive else .negative) e st
            (subWindow b a st)
        else subFinish cfg (if a.d.sign = .negative then .negative else .positive) e st
            (subWindow a b st) := by
    simp only [subAligned, ha.decode_eq he, hb.decode_eq he, if_true, ← hst, lt_irrefl, false_or,
      true_and]
  rcases hle.lt_or_eq with hlt | heq
  · have hne : a.digits.getD st 0 ≠ b.digits.getD st 0 := getD_commonPrefix_ne hlt
    have hgeta := words_getD (n := a) (show st < a.d.len by omega)
    have hgetb := words_getD (n := b) (show st < b.d.len by omega)
    rw [hunfold, if_neg fun h => hlt.ne h.1]
    simp only [if_neg hlt.ne]
    right
    rcases lt_or_gt_of_ne hne with hword | hword
    · refine .inl ⟨st, htake, by omega, by omega, ?_, if_pos hword⟩
      exact leading_lt_of_prefix ha.digits (by omega) hb.last (by omega) htake.symm
        (.inr (by rw [hgeta, hgetb]; exact hword))
    · refine .inr ⟨st, htake, by omega, by omega, ?_, if_neg (not_lt.2 hword.le)⟩
      exact leading_lt_of_prefix hb.digits (by omega) ha.last (by omega) htake
        (.inr (by rw [hgeta, hgetb]; exact hword))
  · rw [hunfold]
    simp only [if_pos heq]
    rcases Nat.lt_trichotomy a.d.len b.d.len with hlen | hlen | hlen
    · refine .inr (.inl ⟨st, htake, by omega, by omega, ?_, ?_⟩)
      · exact leading_lt_of_prefix ha.digits (by omega) hb.last (by omega) htake.symm
          (.inl (by omega))
      · rw [if_neg fun h => hlen.ne h.2, if_pos hlen]
    · refine .inl ⟨if_pos ⟨heq, hlen⟩, ?_⟩
      rwa [take_of_length_le (by omega), take_of_length_le (by omega)] at htake
    · refine .inr (.inr ⟨st, htake, by omega, by omega, ?_, ?_⟩)
      · exact leading_lt_of_prefix hb.digits (by omega) ha.last (by omega) htake (.inl (by omega))
      · rw [if_neg fun h => hlen.ne' h.2, if_neg (Nat.lt_asymm hlen)]

/-- `sub_v3` with the minuend and the subtrahend in their places, in the terms of the result. -/
lemma subFinish_of_lt (cfg : Config) {n m : ObNumber} {x y : ℤ} {st : ℕ} (sign : Sign)
    (hn : Normal n x) (hm : Normal m y) (hx : InLimits x) (hy : InLimits y) (hyx : y ≤ x)
    (hxy : x < y + 9)
    (hcommon : st = 0 ∨ (x = y ∧ st ≤ m.d.len ∧ n.words.take st = m.words.take st))
    (hlt : leading BASE 9 (shifted (x - y).toNat m.words) < leading BASE 9 n.words) :
    ∃ (z : ℕ) (ws ds : List ℕ), subFinish cfg sign x st (subWindow n m st)
          = withBuffer cfg (assignChecked cfg sign (x - z) ws.length ds)
        ∧ ds.take ws.length = ws ∧ GoodWords (9 - z) ws ∧ z < 9
        ∧ leading BASE (9 - z) ws + leading BASE 9 (shifted (x - y).toNat m.words)
            = leading BASE 9 (shifted (x - x).toNat n.words) := by
  obtain ⟨z, ws, ds, heq, htake, hgood, hz, hvalue⟩ := subFinish_eq cfg sign hn hm hx hy
    (show x = y + ((x - y).toNat : ℤ) by omega) (by omega)
    (hcommon.imp_right fun h => ⟨by omega, h.2⟩) hlt
  refine ⟨z, ws, ds, heq, htake, hgood, hz, ?_⟩
  rw [sub_self, Int.toNat_zero, shifted_zero]
  omega

/-- What `sub_v3` checks and returns for close exponents: zero, or the difference of the windows. -/
theorem subAligned_eq (cfg : Config) (ha : Normal a e) (hb : Normal b f) (he : InLimits e)
    (hf : InLimits f) (hs : a.d.sign = b.d.sign) (hef : e < f + 9) (hfe : f < e + 9) :
    (subAligned cfg a b = .ok zero ∧ e = f ∧ a.words = b.words)
      ∨ ∃ (z : ℕ) (ws ds : List ℕ) (sign : Sign), subAligned cfg a b
            = withBuffer cfg (assignChecked cfg sign (max e f - z) ws.length ds)
          ∧ ds.take ws.length = ws ∧ GoodWords (9 - z) ws ∧ z < 9
          ∧ ((sign = a.d.sign ∧ leading BASE (9 - z) ws
                + leading BASE 9 (shifted (max e f - f).toNat b.words)
                = leading BASE 9 (shifted (max e f - e).toNat a.words))
            ∨ (sign = flipSign a.d.sign ∧ leading BASE (9 - z) ws
                + leading BASE 9 (shifted (max e f - e).toNat a.words)
                = leading BASE 9 (shifted (max e f - f).toNat b.words))) := by
  have hflip : (if b.d.sign = .negative then Sign.positive else .negative) = flipSign a.d.sign := by
    rw [hs]
    cases b.d.sign <;> rfl
  have hsame : (if a.d.sign = .negative then Sign.negative else .positive) = a.d.sign := by
    cases a.d.sign <;> rfl
  rcases lt_trichotomy e f with hlt | rfl | hlt
  · right
    rw [(subAligned_of_exp_lt cfg ha hb he hf hlt).1, hflip, max_eq_right hlt.le]
    obtain ⟨z, ws, ds, heq, htake, hgood, hz, hvalue⟩ := subFinish_of_lt cfg
      (flipSign a.d.sign) hb ha hf he hlt.le hfe (.inl rfl) (leading_shifted_lt hb ha (by omega))
    exact ⟨z, ws, ds, _, heq, htake, hgood, hz, .inr ⟨rfl, hvalue⟩⟩
  · rw [max_self]
    have hzero : ∀ l, shifted (e - e).toNat l = l := by
      intro l
      rw [sub_self, Int.toNat_zero, shifted_zero]
    rcases subAligned_of_exp_eq cfg ha hb he with
      ⟨heq, hwords⟩ | ⟨st, htake, hsta, hstb, hlt, heq⟩ | ⟨st, htake, hsta, hstb, hlt, heq⟩
    · exact .inl ⟨heq, rfl, hwords⟩
    · right
      rw [heq, hflip]
      obtain ⟨z, ws, ds, heq, hds, hgood, hz, hvalue⟩ := subFinish_of_lt cfg
        (flipSign a.d.sign) hb ha he he le_rfl hfe (.inr ⟨rfl, hsta, htake.symm⟩) (by rwa [hzero])
      exact ⟨z, ws, ds, _, heq, hds, hgood, hz, .inr ⟨rfl, hvalue⟩⟩
    · right
      rw [heq, hsame]
      obtain ⟨z, ws, ds, heq, hds, hgood, hz, hvalue⟩ := subFinish_of_lt cfg a.d.sign ha hb he he
        le_rfl hef (.inr ⟨rfl, hstb, htake⟩) (by rwa [hzero])
      exact ⟨z, ws, ds, _, heq, hds, hgood, hz, .inl ⟨rfl, hvalue⟩⟩
  · right
    rw [(subAligned_of_exp_lt cfg hb ha hf he hlt).2, hsame, max_eq_left hlt.le]
    obtain ⟨z, ws, ds, heq, htake, hgood, hz, hvalue⟩ := subFinish_of_lt cfg a.d.sign ha hb he hf
      hlt.le hef (.inl rfl) (leading_shifted_lt ha hb (by omega))
    exact ⟨z, ws, ds, _, heq, htake, hgood, hz, .inl ⟨rfl, hvalue⟩⟩

end Sub

end OceanBase.Number
