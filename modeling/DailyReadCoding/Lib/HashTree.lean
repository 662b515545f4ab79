import Mathlib.Data.List.Basic
import Mathlib.Tactic.Ring

/-!
# Binary hash trees over a list of any length

The nodes of one level are hashed in pairs to the nodes of the next; if their number is odd, the
last one is hashed with itself. The tree is described twice.
-/

namespace HashTree

open List

variable {H : Type*} (hash : H → H → H)

/-! ## From below -/

/-- The next level. -/
def pairUp : List H → List H
  | [] => []
  | [a] => [hash a a]
  | a :: b :: rest => hash a b :: pairUp rest

@[simp] lemma length_pairUp : ∀ l : List H, (pairUp hash l).length = (l.length + 1) / 2
  | [] => by simp [pairUp]
  | [_] => by simp [pairUp]
  | _ :: _ :: rest => by
    rw [pairUp, length_cons, length_pairUp rest, length_cons, length_cons]
    omega

lemma getElem?_pairUp : ∀ (l : List H) (i : ℕ),
    (pairUp hash l)[i]? = l[2 * i]?.map fun a => hash a (l[2 * i + 1]?.getD a)
  | [], i => by simp [pairUp]
  | [a], 0 => by simp [pairUp]
  | [a], i + 1 => by simp [pairUp, mul_add]
  | a :: b :: rest, 0 => by simp [pairUp]
  | a :: b :: rest, i + 1 => by
    rw [pairUp, getElem?_cons_succ, getElem?_pairUp rest i]
    simp [mul_add]

/-! ## From above -/

/-- The number of nodes at a height, over `n` leaves. -/
def width (n h : ℕ) : ℕ := (n + 2 ^ h - 1) / 2 ^ h

@[simp] lemma width_zero (n : ℕ) : width n 0 = n := by simp [width]

lemma width_succ (n h : ℕ) : width n (h + 1) = (width n h + 1) / 2 := by
  have hpos : 0 < 2 ^ h := Nat.two_pow_pos h
  have hsum : n + 2 ^ (h + 1) - 1 = n + 2 ^ h - 1 + 2 ^ h := by
    omega
  rw [width, width, hsum, pow_succ, ← Nat.div_div_eq_div_mul, Nat.add_div_right _ hpos]

/-- A position on a level stands over a leaf. -/
lemma lt_width_iff {n h i : ℕ} : i < width n h ↔ i * 2 ^ h < n := by
  have hpos : 0 < 2 ^ h := Nat.two_pow_pos h
  rw [width, ← Nat.succ_le_iff, Nat.le_div_iff_mul_le hpos, Nat.succ_mul]
  omega

/-- The first leaf below a node is that of its left child. -/
lemma mul_two_pow_succ (i h : ℕ) : i * 2 ^ (h + 1) = i * 2 * 2 ^ h := by ring

/-- The node at height `h` and position `i`. -/
def node (leaf : ℕ → H) (n : ℕ) : ℕ → ℕ → H
  | 0, i => leaf i
  | h + 1, i =>
    hash (node leaf n h (2 * i))
      (if 2 * i + 1 < width n h then node leaf n h (2 * i + 1) else node leaf n h (2 * i))

/-- All nodes at a height. -/
def level (leaf : ℕ → H) (n h : ℕ) : List H := (List.range (width n h)).map (node hash leaf n h)

@[simp] lemma length_level (leaf : ℕ → H) (n h : ℕ) : (level hash leaf n h).length = width n h := by
  simp [level]

/-- **Both descriptions agree.**  Pairing up a level gives the next one. -/
theorem pairUp_level (leaf : ℕ → H) (n h : ℕ) :
    pairUp hash (level hash leaf n h) = level hash leaf n (h + 1) := by
  refine ext_getElem? fun i => ?_
  rw [getElem?_pairUp]
  simp only [level, getElem?_map]
  rcases lt_or_ge i (width n (h + 1)) with hi | hi
  · have hleft : 2 * i < width n h := by
      rw [width_succ] at hi
      omega
    rw [getElem?_range hi, getElem?_range hleft]
    simp only [Option.map_some, node]
    split_ifs with hright
    · rw [getElem?_range hright]
      rfl
    · rw [getElem?_eq_none (by simpa using hright)]
      rfl
  · have hnone : width n h ≤ 2 * i := by
      rw [width_succ] at hi
      omega
    have hrange : ∀ {m k : ℕ}, m ≤ k → (range m)[k]? = none := fun hmk =>
      getElem?_eq_none (by simpa using hmk)
    rw [hrange hi, hrange hnone]
    rfl

/-- The first height from `h` on with at most one node. -/
def heightFrom (n h : ℕ) : ℕ := if 1 < width n h then heightFrom n (h + 1) else h
termination_by width n h
decreasing_by
  rw [width_succ]
  omega

lemma width_heightFrom (n h : ℕ) : width n (heightFrom n h) ≤ 1 := by
  induction h using heightFrom.induct (n := n) with
  | case1 h hlt ih =>
    rw [heightFrom, if_pos hlt]
    exact ih
  | case2 h hle =>
    rw [heightFrom, if_neg hle]
    omega

/-! ## Injective hashes -/

variable {hash}

/-- A node determines the first leaf below it. -/
theorem node_left (hinj : Function.Injective2 hash) {leaf leaf' : ℕ → H} {n n' : ℕ} :
    ∀ {h i j : ℕ}, node hash leaf n h i = node hash leaf' n' h j →
      leaf (i * 2 ^ h) = leaf' (j * 2 ^ h)
  | 0, i, j, heq => by simpa [node] using heq
  | h + 1, i, j, heq => by
    have hleft := node_left hinj (hinj heq).1
    rw [mul_two_pow_succ, mul_two_pow_succ, mul_comm i, mul_comm j]
    exact hleft

lemma node_ne (hinj : Function.Injective2 hash) {leaf : ℕ → H} {n h i j : ℕ}
    (hleaf : ∀ a < n, ∀ b < n, leaf a = leaf b → a = b) (hi : i < width n h) (hj : j < width n h)
    (hij : i ≠ j) : node hash leaf n h i ≠ node hash leaf n h j := by
  intro heq
  have hfirst := hleaf _ (lt_width_iff.1 hi) _ (lt_width_iff.1 hj) (node_left hinj heq)
  exact hij (Nat.eq_of_mul_eq_mul_right (Nat.two_pow_pos h) hfirst)

/-- No node equals the one it is paired with. -/
def AlignedNe : List H → Prop
  | a :: b :: rest => a ≠ b ∧ AlignedNe rest
  | _ => True

/-- **A level is determined by the next one**, as long as it shows no equal pair. -/
theorem pairUp_inj (hinj : Function.Injective2 hash) : ∀ {l l' : List H}, AlignedNe l →
    AlignedNe l' → pairUp hash l = pairUp hash l' → l = l'
  | [], [], _, _, _ => rfl
  | [], [_], _, _, heq => by simp [pairUp] at heq
  | [], _ :: _ :: _, _, _, heq => by simp [pairUp] at heq
  | [_], [], _, _, heq => by simp [pairUp] at heq
  | _ :: _ :: _, [], _, _, heq => by simp [pairUp] at heq
  | [a], [a'], _, _, heq => by
    rw [pairUp, pairUp, cons.injEq] at heq
    rw [(hinj heq.1).1]
  | [a], a' :: b' :: _, _, hne, heq => by
    rw [pairUp, pairUp, cons.injEq] at heq
    exact absurd ((hinj heq.1).1.symm.trans (hinj heq.1).2) hne.1
  | a :: b :: _, [a'], hne, _, heq => by
    rw [pairUp, pairUp, cons.injEq] at heq
    exact absurd ((hinj heq.1).1.trans (hinj heq.1).2.symm) hne.1
  | a :: b :: rest, a' :: b' :: rest', hne, hne', heq => by
    rw [pairUp, pairUp, cons.injEq] at heq
    rw [(hinj heq.1).1, (hinj heq.1).2, pairUp_inj hinj hne.2 hne'.2 heq.2]

lemma alignedNe_of_nodup : ∀ {l : List H}, l.Nodup → AlignedNe l
  | [], _ => trivial
  | [_], _ => trivial
  | a :: b :: rest, hl => by
    rw [nodup_cons, nodup_cons] at hl
    exact ⟨fun hab => hl.1 (by simp [hab]), alignedNe_of_nodup hl.2.2⟩

lemma mem_pairUp : ∀ {l : List H} {x : H}, x ∈ pairUp hash l → ∃ a ∈ l, ∃ b ∈ l, x = hash a b
  | [], _, hx => by simp [pairUp] at hx
  | [a], x, hx => by
    rw [pairUp, mem_singleton] at hx
    exact ⟨a, by simp, a, by simp, hx⟩
  | a :: b :: rest, x, hx => by
    rw [pairUp, mem_cons] at hx
    rcases hx with hx | hx
    · exact ⟨a, by simp, b, by simp, hx⟩
    · obtain ⟨c, hc, d, hd, hx⟩ := mem_pairUp hx
      exact ⟨c, by simp [hc], d, by simp [hd], hx⟩

lemma nodup_pairUp (hinj : Function.Injective2 hash) : ∀ {l : List H}, l.Nodup →
    (pairUp hash l).Nodup
  | [], _ => by simp [pairUp]
  | [_], _ => by simp [pairUp]
  | a :: b :: rest, hl => by
    rw [nodup_cons, nodup_cons] at hl
    rw [pairUp, nodup_cons]
    refine ⟨fun hmem => ?_, nodup_pairUp hinj hl.2.2⟩
    obtain ⟨c, hc, _, _, heq⟩ := mem_pairUp hmem
    rw [← (hinj heq).1] at hc
    exact hl.1 (by simp [hc])

/-! ## Depth -/

/-- A value that is a full tree of hashes of this depth over values that are no hashes. -/
def Depth (hash : H → H → H) : ℕ → H → Prop
  | 0, x => ∀ a b, hash a b ≠ x
  | d + 1, x => ∃ a b, x = hash a b ∧ Depth hash d a ∧ Depth hash d b

lemma Depth.unique (hinj : Function.Injective2 hash) : ∀ {d e : ℕ} {x : H},
    Depth hash d x → Depth hash e x → d = e
  | 0, 0, _, _, _ => rfl
  | 0, _ + 1, _, hd, ⟨a, b, hx, _, _⟩ => absurd hx.symm (hd a b)
  | _ + 1, 0, _, ⟨a, b, hx, _, _⟩, he => absurd hx.symm (he a b)
  | d + 1, e + 1, _, ⟨a, b, hx, ha, _⟩, ⟨a', b', hx', ha', _⟩ => by
    have hab := hinj (hx.symm.trans hx')
    rw [← hab.1] at ha'
    rw [Depth.unique hinj ha ha']

lemma depth_pairUp {d : ℕ} {l : List H} (hl : ∀ x ∈ l, Depth hash d x) :
    ∀ x ∈ pairUp hash l, Depth hash (d + 1) x := by
  intro x hx
  obtain ⟨a, ha, b, hb, hab⟩ := mem_pairUp hx
  exact ⟨a, b, hab, hl a ha, hl b hb⟩

/-! ## The free hash -/

/-- Hashes as terms: nothing is identified, so the pair hash is injective and no leaf is a hash. -/
inductive Term
  | leaf (n : ℕ)
  | pair (l r : Term)
  deriving DecidableEq, Repr

instance : Inhabited Term := ⟨.leaf 0⟩

lemma Term.pair_injective2 : Function.Injective2 Term.pair := by
  intro _ _ _ _ heq
  exact Term.pair.inj heq

end HashTree
