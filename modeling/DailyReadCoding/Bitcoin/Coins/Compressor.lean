import Mathlib

/-!
# Amount compression

`CompressAmount` and `DecompressAmount` of `compressor.cpp`. The functions take as an argument what
becomes of the result of an operation on `uint64_t`: the code wraps around (`wrapping`), and
`checked` has no result where it would.
-/

namespace Bitcoin.Coins

open Option

def MAX_MONEY : ℕ := 21000000 * 100000000

def wrapping (v : ℤ) : Option ℕ := some (v % 2 ^ 64).toNat

def checked (v : ℤ) : Option ℕ := if 0 ≤ v ∧ v < 2 ^ 64 then some v.toNat else none

/-- The loop of `CompressAmount`, which takes at most `k` more zeros. -/
def stripZeros : ℕ → ℕ → ℕ → ℕ × ℕ
  | 0, n, e => (n, e)
  | k + 1, n, e => if n % 10 = 0 then stripZeros k (n / 10) (e + 1) else (n, e)

/-- `CompressAmount`, without a result where the assertion fails. -/
def compressAmount (word : ℤ → Option ℕ) (n : ℕ) : Option ℕ :=
  if n = 0 then some 0
  else
    let (n, e) := stripZeros 9 n 0
    if e < 9 then
      let d := n % 10
      if 1 ≤ d ∧ d ≤ 9 then do
        let n := n / 10
        let v ← word (n * 9)
        let v ← word (v + d)
        let v ← word (v - 1)
        let v ← word (v * 10)
        let v ← word (1 + v)
        word (v + e)
      else none
    else do
      let v ← word (n - 1)
      let v ← word (v * 10)
      let v ← word (1 + v)
      word (v + 9)

/-- The loop of `DecompressAmount`. -/
def appendZeros (word : ℤ → Option ℕ) : ℕ → ℕ → Option ℕ
  | 0, n => some n
  | e + 1, n => do appendZeros word e (← word (n * 10))

/-- The amount before its zeros are appended. -/
def leadingDigits (word : ℤ → Option ℕ) (e x : ℕ) : Option ℕ :=
  if e < 9 then do
    let d := x % 9 + 1
    let x := x / 9
    let v ← word (x * 10)
    word (v + d)
  else word (x + 1)

def decompressAmount (word : ℤ → Option ℕ) (x : ℕ) : Option ℕ :=
  if x = 0 then some 0
  else do
    let x ← word (x - 1)
    let e := x % 10
    let x := x / 10
    let n ← leadingDigits word e x
    appendZeros word e n

/-! ## Trailing zeros -/

/-- The zeros at the end of `m * 10 ^ e` that are taken, when at most `k` may be. -/
structure Split (k m e : ℕ) : Prop where
  pos : 0 < m
  le : e ≤ k
  last : e < k → m % 10 ≠ 0

lemma exists_split (k : ℕ) {n : ℕ} (hn : 0 < n) : ∃ m e, Split k m e ∧ n = m * 10 ^ e := by
  induction k generalizing n with
  | zero => exact ⟨n, 0, ⟨hn, le_rfl, by simp⟩, by simp⟩
  | succ k ih =>
    by_cases hzero : n % 10 = 0
    · obtain ⟨m, e, h, heq⟩ := ih (n := n / 10) (by omega)
      refine ⟨m, e + 1, ⟨h.pos, by simpa using h.le, fun he => h.last (by omega)⟩, ?_⟩
      rw [pow_succ, ← mul_assoc]
      omega
    · exact ⟨n, 0, ⟨hn, by simp, fun _ => hzero⟩, by simp⟩

lemma Split.stripZeros {k m e : ℕ} (h : Split k m e) (i : ℕ) :
    stripZeros k (m * 10 ^ e) i = (m, i + e) := by
  induction e generalizing k i with
  | zero =>
    cases k with
    | zero => simp [Coins.stripZeros]
    | succ k => simp [Coins.stripZeros, h.last (by simp)]
  | succ e ih =>
    obtain ⟨k, rfl⟩ : ∃ j, k = j + 1 := ⟨k - 1, by have := h.le; omega⟩
    have hten : m * 10 ^ (e + 1) = m * 10 ^ e * 10 := by ring
    have hrest := ih ⟨h.pos, by simpa using h.le, fun he => h.last (by omega)⟩ (i + 1)
    simp [Coins.stripZeros, hten, hrest]
    omega

/-- The compressed `m * 10 ^ e`. -/
def code (m e : ℕ) : ℕ :=
  if e < 9 then 1 + (m / 10 * 9 + m % 10 - 1) * 10 + e else 1 + (m - 1) * 10 + 9

lemma exists_code {x : ℕ} (hx : 0 < x) : ∃ m e, Split 9 m e ∧ x = code m e := by
  by_cases he : (x - 1) % 10 < 9
  · refine ⟨(x - 1) / 10 / 9 * 10 + ((x - 1) / 10 % 9 + 1), (x - 1) % 10, ⟨?_, ?_, ?_⟩, ?_⟩
    · omega
    · omega
    · omega
    · rw [code, if_pos he]
      omega
  · refine ⟨(x - 1) / 10 + 1, 9, ⟨by omega, le_rfl, by simp⟩, ?_⟩
    rw [code, if_neg (by simp)]
    omega

/-! ## Both functions -/

lemma checked_eq_some {v : ℤ} {w : ℕ} : checked v = some w ↔ v = w ∧ w < 2 ^ 64 := by
  unfold checked
  split_ifs with h
  · simp only [Option.some.injEq]
    omega
  · simp only [false_iff]
    omega

lemma wrapping_of_checked {v : ℤ} {w : ℕ} (h : checked v = some w) : wrapping v = some w := by
  rw [checked_eq_some] at h
  simp only [wrapping, Option.some.injEq]
  omega

section Functions

variable {m e n x : ℕ}

lemma compressAmount_wrapping (h : compressAmount checked n = some x) :
    compressAmount wrapping n = some x := by
  unfold compressAmount at h ⊢
  dsimp only at h ⊢
  split_ifs at h ⊢
  · exact h
  · simp only [bind_eq_bind, bind_eq_some_iff] at h ⊢
    obtain ⟨a, ha, b, hb, c, hc, d, hd, f, hf, hx⟩ := h
    exact ⟨a, wrapping_of_checked ha, b, wrapping_of_checked hb, c, wrapping_of_checked hc, d,
      wrapping_of_checked hd, f, wrapping_of_checked hf, wrapping_of_checked hx⟩
  · simp only [bind_eq_bind, bind_eq_some_iff] at h ⊢
    obtain ⟨a, ha, b, hb, c, hc, hx⟩ := h
    exact ⟨a, wrapping_of_checked ha, b, wrapping_of_checked hb, c, wrapping_of_checked hc,
      wrapping_of_checked hx⟩

/-- Compressing, by how the amount splits. -/
lemma compressAmount_iff (h : Split 9 m e) :
    compressAmount checked (m * 10 ^ e) = some x ↔ x = code m e ∧ x < 2 ^ 64 := by
  have hpos : m * 10 ^ e ≠ 0 := (mul_pos h.pos (by positivity)).ne'
  have hm := h.pos
  have hlast := h.last
  simp only [compressAmount, if_neg hpos, h.stripZeros, code, zero_add]
  split_ifs with he hd
  · simp only [bind_eq_bind, bind_eq_some_iff, checked_eq_some]
    constructor
    · omega
    · rintro ⟨rfl, hx⟩
      refine ⟨m / 10 * 9, ?_, m / 10 * 9 + m % 10, ?_, m / 10 * 9 + m % 10 - 1, ?_,
        (m / 10 * 9 + m % 10 - 1) * 10, ?_, 1 + (m / 10 * 9 + m % 10 - 1) * 10, ?_, ?_⟩
      all_goals omega
  · omega
  · simp only [bind_eq_bind, bind_eq_some_iff, checked_eq_some]
    constructor
    · omega
    · rintro ⟨rfl, hx⟩
      refine ⟨m - 1, ?_, (m - 1) * 10, ?_, 1 + (m - 1) * 10, ?_, ?_⟩
      all_goals omega

lemma appendZeros_iff (hm : m < 2 ^ 64) :
    appendZeros checked e m = some n ↔ n = m * 10 ^ e ∧ n < 2 ^ 64 := by
  induction e generalizing m with
  | zero =>
    simp only [appendZeros, Option.some.injEq]
    omega
  | succ e ih =>
    have hten : m * 10 ^ (e + 1) = m * 10 * 10 ^ e := by ring
    have hle : m * 10 ≤ m * 10 * 10 ^ e := Nat.le_mul_of_pos_right _ (by positivity)
    simp only [appendZeros, bind_eq_bind, bind_eq_some_iff, checked_eq_some, hten]
    constructor
    · rintro ⟨v, ⟨hv, hlt⟩, hn⟩
      obtain rfl : m * 10 = v := by omega
      exact (ih hlt).1 hn
    · rintro ⟨rfl, hn⟩
      exact ⟨m * 10, ⟨by simp, by omega⟩, (ih (by omega)).2 ⟨rfl, hn⟩⟩

lemma decompressAmount_wrapping (h : decompressAmount checked x = some n) :
    decompressAmount wrapping x = some n := by
  have hzeros : ∀ {e m}, appendZeros checked e m = some n → appendZeros wrapping e m = some n := by
    intro e
    induction e with
    | zero => exact id
    | succ e ih =>
      intro m hm
      simp only [appendZeros, bind_eq_bind, bind_eq_some_iff] at hm ⊢
      obtain ⟨v, hv, hrest⟩ := hm
      exact ⟨v, wrapping_of_checked hv, ih hrest⟩
  have hdigits : ∀ {e y v}, leadingDigits checked e y = some v →
    leadingDigits wrapping e y = some v := by
    intro e y v hv
    unfold leadingDigits at hv ⊢
    split_ifs at hv ⊢
    · simp only [bind_eq_bind, bind_eq_some_iff] at hv ⊢
      obtain ⟨u, hu, hv⟩ := hv
      exact ⟨u, wrapping_of_checked hu, wrapping_of_checked hv⟩
    · exact wrapping_of_checked hv
  unfold decompressAmount at h ⊢
  split_ifs at h ⊢
  · exact h
  · simp only [bind_eq_bind, bind_eq_some_iff] at h ⊢
    obtain ⟨y, hy, v, hv, hn⟩ := h
    exact ⟨y, wrapping_of_checked hy, v, hdigits hv, hzeros hn⟩

lemma leadingDigits_code (h : Split 9 m e) (hcode : code m e < 2 ^ 64) :
    leadingDigits checked e ((code m e - 1) / 10) = some m := by
  have hm := h.pos
  have hlast := h.last
  unfold code at hcode ⊢
  unfold leadingDigits
  split_ifs at hcode ⊢
  · simp only [bind_eq_bind, bind_eq_some_iff, checked_eq_some]
    exact ⟨m / 10 * 10, by omega, by omega⟩
  · rw [checked_eq_some]
    omega

lemma decompressAmount_iff (h : Split 9 m e) (hcode : code m e < 2 ^ 64) :
    decompressAmount checked (code m e) = some n ↔ n = m * 10 ^ e ∧ n < 2 ^ 64 := by
  have hle := h.le
  have hparts : m ≤ code m e ∧ 0 < code m e ∧ (code m e - 1) % 10 = e := by
    unfold code
    split_ifs <;> omega
  obtain ⟨hlt, hpos, hexp⟩ := hparts
  have hsub : checked ((code m e : ℤ) - 1) = some (code m e - 1) := by
    rw [checked_eq_some]
    omega
  rw [← appendZeros_iff (hlt.trans_lt hcode), decompressAmount, if_neg hpos.ne']
  simp [hsub, hexp, leadingDigits_code h hcode]

lemma decompressAmount_of_compressAmount (hn : n < 2 ^ 64) (h : compressAmount checked n = some x) :
    decompressAmount checked x = some n := by
  rcases eq_zero_or_pos n with rfl | hpos
  · cases h
    rfl
  · obtain ⟨m, e, hsplit, rfl⟩ := exists_split 9 hpos
    obtain ⟨rfl, hx⟩ := (compressAmount_iff hsplit).1 h
    exact (decompressAmount_iff hsplit hx).2 ⟨rfl, hn⟩

lemma compressAmount_of_decompressAmount (hx : x < 2 ^ 64)
    (h : decompressAmount checked x = some n) :
    compressAmount checked n = some x := by
  rcases eq_zero_or_pos x with rfl | hpos
  · cases h
    rfl
  · obtain ⟨m, e, hsplit, rfl⟩ := exists_code hpos
    obtain ⟨rfl, -⟩ := (decompressAmount_iff hsplit hx).1 h
    exact (compressAmount_iff hsplit).2 ⟨rfl, hx⟩

lemma exists_compressAmount (hn : n ≤ MAX_MONEY) : ∃ x, compressAmount checked n = some x := by
  rcases eq_zero_or_pos n with rfl | hpos
  · exact ⟨0, rfl⟩
  · obtain ⟨m, e, hsplit, rfl⟩ := exists_split 9 hpos
    refine ⟨_, (compressAmount_iff hsplit).2 ⟨rfl, ?_⟩⟩
    have hm : m ≤ m * 10 ^ e := Nat.le_mul_of_pos_right _ (by positivity)
    unfold MAX_MONEY at hn
    unfold code
    split_ifs <;> omega

end Functions

/-- **`CompressAmount` and `DecompressAmount` undo each other** on all amounts, and on everything
that can be decompressed. -/
theorem amountCompression_inverse :
    (∀ n ≤ MAX_MONEY, ∃ x, compressAmount checked n = some x ∧ compressAmount wrapping n = some x ∧
      decompressAmount wrapping x = some n) ∧
    (∀ x < 2 ^ 64, ∀ n, decompressAmount checked x = some n →
      decompressAmount wrapping x = some n ∧ compressAmount wrapping n = some x) ∧
    ∀ n < 2 ^ 64, ∀ x < 2 ^ 64,
      compressAmount checked n = some x ↔ decompressAmount checked x = some n := by
  refine ⟨fun n hn => ?_, fun x hx n h => ?_, fun n hn x hx => ?_⟩
  · obtain ⟨x, hx⟩ := exists_compressAmount hn
    have hlt : n < 2 ^ 64 := hn.trans_lt (by decide)
    exact ⟨x, hx, compressAmount_wrapping hx,
      decompressAmount_wrapping (decompressAmount_of_compressAmount hlt hx)⟩
  · exact ⟨decompressAmount_wrapping h,
      compressAmount_wrapping (compressAmount_of_decompressAmount hx h)⟩
  · exact ⟨decompressAmount_of_compressAmount hn, compressAmount_of_decompressAmount hx⟩

end Bitcoin.Coins
