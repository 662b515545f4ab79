import DailyReadCoding.Lib.LinkedTree

/-!
# Left-leaning red-black trees

Red links lean left, no two red links follow each other, and all ways down have the same number of
black nodes.
-/

namespace LinkedTree

open ColorTree Bool

variable {α : Type*}

def LeftLeaning : ColorTree α → ℕ → Prop
  | nil, n => n = 0
  | node c l _ r, n => r.isRed = false ∧ (c = true → l.isRed = false) ∧
      ∃ m, n = (if c then m else m + 1) ∧ LeftLeaning l m ∧ LeftLeaning r m

/-- A whole tree: the root is black. -/
def Balanced (t : ColorTree α) : Prop := t.isRed = false ∧ ∃ n, LeftLeaning t n

/-- Whether the tree at the open place may have a red root. -/
def mayBeRed : List (Frame α) → Bool
  | [] => false
  | f :: _ => f.toLeft && !f.red

/-- The black height with the node of the frame, if it is `n` below. -/
def Frame.height (f : Frame α) (n : ℕ) : ℕ := if f.red then n else n + 1

def Fits : List (Frame α) → ℕ → Prop
  | [], _ => True
  | f :: fs, n => LeftLeaning f.sibling n
      ∧ (f.toLeft = true ∨ f.red = true → f.sibling.isRed = false) ∧
      (f.red = true → mayBeRed fs = true) ∧ Fits fs (f.height n)

variable {c : Bool} {l r t : ColorTree α} {a : α} {n m : ℕ} {f : Frame α} {fs : List (Frame α)}

@[simp] lemma leftLeaning_nil : LeftLeaning (nil : ColorTree α) n ↔ n = 0 := Iff.rfl

@[simp] lemma leftLeaning_red : LeftLeaning (node true l a r) n ↔
    r.isRed = false ∧ l.isRed = false ∧ LeftLeaning l n ∧ LeftLeaning r n := by
  simp [LeftLeaning]

@[simp] lemma leftLeaning_black : LeftLeaning (node false l a r) (n + 1) ↔
    r.isRed = false ∧ LeftLeaning l n ∧ LeftLeaning r n := by
  simp [LeftLeaning]

lemma LeftLeaning.red_cases (h : LeftLeaning t n) (hred : t.isRed = true) :
    ∃ l a r, t = node true l a r ∧ r.isRed = false ∧ l.isRed = false ∧ LeftLeaning l n
      ∧ LeftLeaning r n := by
  cases t with
  | nil => simp at hred
  | node c l a r =>
    obtain rfl : c = true := hred
    exact ⟨l, a, r, rfl, leftLeaning_red.1 h⟩

lemma LeftLeaning.black_cases (h : LeftLeaning t (n + 1)) (hblack : t.isRed = false) :
    ∃ l a r, t = node false l a r ∧ r.isRed = false ∧ LeftLeaning l n ∧ LeftLeaning r n := by
  cases t with
  | nil => simp at h
  | node c l a r =>
    obtain rfl : c = false := hblack
    exact ⟨l, a, r, rfl, leftLeaning_black.1 h⟩

lemma LeftLeaning.eq_nil (h : LeftLeaning t 0) (hblack : t.isRed = false) : t = nil := by
  cases t with
  | nil => rfl
  | node c l a r =>
    obtain rfl : c = false := hblack
    simp [LeftLeaning] at h

lemma LeftLeaning.blacken (h : LeftLeaning (node c l a r) n) : Balanced (node false l a r) := by
  refine ⟨rfl, ?_⟩
  cases c with
  | false => exact ⟨n, h⟩
  | true =>
    obtain ⟨hr, -, hl, hr'⟩ := leftLeaning_red.1 h
    exact ⟨n + 1, leftLeaning_black.2 ⟨hr, hl, hr'⟩⟩

/-! ## Paths -/

@[simp] lemma isRed_frame_fill (f : Frame α) (t : ColorTree α) : (f.fill t).isRed = f.red := by
  unfold Frame.fill
  split_ifs <;> rfl

lemma leftLeaning_frame_fill : LeftLeaning (f.fill t) m ↔ ∃ n, m = f.height n ∧ LeftLeaning t n ∧
    LeftLeaning f.sibling n ∧ (f.toLeft = true ∨ f.red = true → f.sibling.isRed = false) ∧
    (t.isRed = true → f.toLeft = true ∧ f.red = false) := by
  have hcontra : ∀ {x y : Bool}, (x = true → y = false) → y = true → x = false := by decide
  unfold Frame.fill Frame.height
  by_cases hl : f.toLeft = true
  · rw [if_pos hl]
    constructor
    · rintro ⟨hs, ht, n, rfl, htn, hsn⟩
      exact ⟨n, rfl, htn, hsn, fun _ => hs, fun hred => ⟨hl, hcontra ht hred⟩⟩
    · rintro ⟨n, rfl, htn, hsn, hs, hroot⟩
      exact ⟨hs (.inl hl), fun hred => hcontra (fun h => (hroot h).2) hred, n, rfl, htn, hsn⟩
  · rw [if_neg hl]
    constructor
    · rintro ⟨ht, hs, n, rfl, hsn, htn⟩
      exact ⟨n, rfl, htn, hsn, fun h => hs (h.resolve_left hl), fun hred => by simp [ht] at hred⟩
    · rintro ⟨n, rfl, htn, hsn, hs, hroot⟩
      refine ⟨eq_false_iff.2 fun h => hl (hroot h).1, fun h => hs (.inr h), n, rfl, hsn, htn⟩

/-- **A tree is balanced exactly if the tree at an open place is left-leaning and fits there.** -/
theorem balanced_fill : Balanced (fill t fs) ↔
    ∃ n, LeftLeaning t n ∧ Fits fs n ∧ (t.isRed = true → mayBeRed fs = true) := by
  induction fs generalizing t with
  | nil =>
    simp only [Balanced, mayBeRed, false_eq_true, imp_false, not_eq_true]
    tauto
  | cons f fs ih =>
    rw [fill, ih]
    simp only [leftLeaning_frame_fill, isRed_frame_fill]
    constructor
    · rintro ⟨_, ⟨n, rfl, ht, hs, hsib, hroot⟩, hfits, hred⟩
      exact ⟨n, ht, ⟨hs, hsib, hred, hfits⟩, fun h => by simp [mayBeRed, hroot h]⟩
    · rintro ⟨n, ht, ⟨hs, hsib, hred, hfits⟩, hroot⟩
      refine ⟨_, ⟨n, rfl, ht, hs, hsib, fun h => ?_⟩, hfits, hred⟩
      simpa [mayBeRed] using hroot h

lemma mayBeRed_rename (gs fs : List (Frame α)) (toLeft red : Bool) (a b : α) (s : ColorTree α) :
    mayBeRed (gs ++ ⟨toLeft, red, a, s⟩ :: fs) = mayBeRed (gs ++ ⟨toLeft, red, b, s⟩ :: fs) := by
  cases gs with
  | nil => rfl
  | cons g gs => rfl

lemma fits_rename (gs fs : List (Frame α)) (toLeft red : Bool) (a b : α) (s : ColorTree α) :
    Fits (gs ++ ⟨toLeft, red, a, s⟩ :: fs) n ↔ Fits (gs ++ ⟨toLeft, red, b, s⟩ :: fs) n := by
  induction gs generalizing n with
  | nil => exact Iff.rfl
  | cons g gs ih => rw [List.cons_append, List.cons_append, Fits, Fits, ih, mayBeRed_rename]

/-! ## How high a tree can be -/

/-- At most twice as high as the black height. -/
lemma LeftLeaning.height_le (h : LeftLeaning t n) :
    t.height ≤ 2 * n + if t.isRed then 1 else 0 := by
  induction t generalizing n with
  | nil => simp [height]
  | node c l a r ihl ihr =>
    obtain ⟨hr, hl, m, rfl, hlm, hrm⟩ := h
    have hl' := ihl hlm
    have hr' := ihr hrm
    rw [hr] at hr'
    cases c with
    | false =>
      have : (if l.isRed = true then 1 else 0) ≤ 1 := by split_ifs <;> omega
      simp only [height, false_eq_true, if_false] at *
      omega
    | true =>
      rw [hl rfl] at hl'
      simp only [height, isRed_node, false_eq_true, if_false, if_true] at *
      omega

lemma LeftLeaning.pow_le_length (h : LeftLeaning t n) : 2 ^ n ≤ t.toList.length + 1 := by
  induction t generalizing n with
  | nil =>
    rw [leftLeaning_nil] at h
    simp [h]
  | node c l a r ihl ihr =>
    obtain ⟨-, -, m, rfl, hlm, hrm⟩ := h
    have hl := ihl hlm
    have hr := ihr hrm
    rw [toList_node, List.length_append, List.length_cons]
    cases c with
    | false =>
      rw [if_neg (by simp)]
      omega
    | true =>
      rw [if_pos rfl]
      omega

/-- A balanced tree of less than `2 ^ k` nodes has no way down of more than `2 k` nodes. -/
theorem Balanced.height_le (h : Balanced t) {k : ℕ} (hk : t.toList.length < 2 ^ k) :
    t.height ≤ 2 * k := by
  obtain ⟨hblack, n, hn⟩ := h
  have hheight := hn.height_le
  have hpow := hn.pow_le_length
  rw [hblack] at hheight
  have hnk : n ≤ k := by
    by_contra hlt
    have := Nat.pow_le_pow_right Nat.two_pos (show k + 1 ≤ n by omega)
    omega
  simp only [false_eq_true, if_false] at hheight
  omega

end LinkedTree
