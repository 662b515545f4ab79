import DailyReadCoding.Lib.HashTree

/-!
# The Merkle root of a block and its malleability flag

`ComputeMerkleRoot` (`consensus/merkle.cpp`) hashes a list of leaves level by level. An odd level is
padded with a copy of its last node, so that a list and the same list with its tail repeated have
one root. The `mutated` flag is to tell such lists apart; it is sampled on the aligned pairs of each
level before the level is padded.

The 256-bit hashes are a type `H` with the pair hash as a parameter, and `uint256()` is `default`.
-/

namespace Bitcoin.Merkle

open HashTree List

variable {H : Type*} [DecidableEq H] [Inhabited H] (hash : H → H → H)

/-! ## The loop -/

/-- The scan of a level: an aligned pair of equal hashes sets the flag. -/
def scanPairs : List H → Bool → Bool
  | a :: b :: rest, mutation => scanPairs rest (if a = b then true else mutation)
  | _, mutation => mutation

/-- `hashes.push_back(hashes.back())` on a level of odd size. -/
def padOdd (hashes : List H) : List H :=
  if hashes.length % 2 = 1 then hashes ++ [hashes.getLastD default] else hashes

/-- `SHA256D64` over the first `size / 2` blocks, and the resize to that many. -/
def hashPairs : List H → List H
  | a :: b :: rest => hash a b :: hashPairs rest
  | _ => []

omit [DecidableEq H] in
lemma hashPairs_padOdd : ∀ l : List H, hashPairs hash (padOdd l) = pairUp hash l
  | [] => by simp [padOdd, hashPairs, pairUp]
  | [a] => by simp [padOdd, hashPairs, pairUp]
  | a :: b :: rest => by
    rw [pairUp, ← hashPairs_padOdd rest]
    -- the last element of the whole list is that of its tail whenever the tail is padded
    rcases rest with _ | ⟨c, rest⟩
    · simp [padOdd, hashPairs]
    · simp only [padOdd, length_cons, getLastD_cons]
      have hparity : (rest.length + 1 + 1 + 1) % 2 = (rest.length + 1) % 2 := by omega
      rw [hparity]
      split_ifs <;> rfl

/-- The `while` loop; `mutated` says whether the caller asks for the flag. -/
def computeMerkleRootLoop (mutated : Bool) (hashes : List H) (mutation : Bool) : List H × Bool :=
  if 1 < hashes.length then
    computeMerkleRootLoop mutated (hashPairs hash (padOdd hashes))
      (if mutated then scanPairs hashes mutation else mutation)
  else
    (hashes, mutation)
termination_by hashes.length
decreasing_by
  rw [hashPairs_padOdd, length_pairUp]
  omega

/-- The root, and the flag if the caller asks for it. -/
def computeMerkleRoot (hashes : List H) (mutated : Bool) : H × Option Bool :=
  let result := computeMerkleRootLoop hash mutated hashes false
  (result.1.headD default, if mutated then some result.2 else none)

/-- The description of the root from above: the node at the first height that has a single one. -/
def recursiveRoot (hashes : List H) : H :=
  if hashes = [] then default
  else node hash (hashes.getD · default) hashes.length (heightFrom hashes.length 0) 0

/-! ## One iteration -/

omit [DecidableEq H] [Inhabited H] in
lemma level_induction {P : List H → Prop} (hdone : ∀ l : List H, ¬ 1 < l.length → P l)
    (hstep : ∀ l : List H, 1 < l.length → P (pairUp hash l) → P l) (l : List H) : P l := by
  induction hn : l.length using Nat.strong_induction_on generalizing l with
  | _ n ih =>
    by_cases hl : 1 < l.length
    · refine hstep l hl (ih _ ?_ _ rfl)
      rw [length_pairUp]
      omega
    · exact hdone l hl

omit [Inhabited H] in
lemma scanPairs_eq_false : ∀ {l : List H} {mutation : Bool},
    scanPairs l mutation = false ↔ mutation = false ∧ AlignedNe l
  | [], mutation => by simp [scanPairs, AlignedNe]
  | [_], mutation => by simp [scanPairs, AlignedNe]
  | a :: b :: rest, mutation => by
    rw [scanPairs, scanPairs_eq_false, AlignedNe]
    by_cases hab : a = b <;> simp [hab]

variable {hash}

variable {mutated mutation : Bool}

lemma loop_step {l : List H} (hl : 1 < l.length) : computeMerkleRootLoop hash mutated l mutation =
      computeMerkleRootLoop hash mutated (pairUp hash l)
        (if mutated then scanPairs l mutation else mutation) := by
  rw [computeMerkleRootLoop, if_pos hl, hashPairs_padOdd]

lemma loop_done {l : List H} (hl : ¬ 1 < l.length) :
    computeMerkleRootLoop hash mutated l mutation = (l, mutation) := by
  rw [computeMerkleRootLoop, if_neg hl]

/-! ## Whole runs -/

/-- A flag that is not set at the end never was. -/
lemma loop_flag (l : List H) : ∀ {mutation : Bool},
    (computeMerkleRootLoop hash true l mutation).2 = false → mutation = false := by
  induction l using level_induction hash with
  | hdone l hl =>
    intro mutation hflag
    rwa [loop_done hl] at hflag
  | hstep l hl ih =>
    intro mutation hflag
    rw [loop_step hl] at hflag
    exact (scanPairs_eq_false.1 (ih hflag)).1

lemma alignedNe_of_loop {l : List H} (hl : 1 < l.length)
    (hflag : (computeMerkleRootLoop hash true l mutation).2 = false) : AlignedNe l := by
  rw [loop_step hl] at hflag
  exact (scanPairs_eq_false.1 (loop_flag _ hflag)).2

/-- What the loop is left with lies no less deep than what it starts from. -/
lemma loop_depth (l : List H) : ∀ {mutation : Bool} {d : ℕ}, (∀ x ∈ l, Depth hash d x) →
      ∀ x ∈ (computeMerkleRootLoop hash mutated l mutation).1, ∃ e, d ≤ e ∧ Depth hash e x := by
  induction l using level_induction hash with
  | hdone l hl =>
    intro mutation d hdepth x hx
    rw [loop_done hl] at hx
    exact ⟨d, le_rfl, hdepth x hx⟩
  | hstep l hl ih =>
    intro mutation d hdepth x hx
    rw [loop_step hl] at hx
    obtain ⟨e, hle, he⟩ := ih (depth_pairUp hdepth) x hx
    exact ⟨e, by omega, he⟩

/-- A single hash and a list that is not one end in different hashes. -/
lemma loop_done_ne_step (hinj : Function.Injective2 hash) {l l' : List H} {m m' : Bool} {d : ℕ}
    (hne : l ≠ []) (hl : ¬ 1 < l.length) (hl' : 1 < l'.length) (hd : ∀ x ∈ l, Depth hash d x)
    (hd' : ∀ x ∈ l', Depth hash d x) :
    (computeMerkleRootLoop hash true l m).1 ≠ (computeMerkleRootLoop hash true l' m').1 := by
  intro heq
  obtain ⟨x, hx⟩ := exists_mem_of_ne_nil l hne
  rw [loop_done hl, loop_step hl'] at heq
  have hmem : x ∈ (l, m).1 := hx
  rw [heq] at hmem
  obtain ⟨e, hle, he⟩ := loop_depth _ (depth_pairUp hd') x hmem
  have hde := Depth.unique hinj (hd x hx) he
  omega

/-- **Unflagged lists are determined by their root**, by induction on the iterations: a level is
recovered from the next one because neither shows an equal pair. -/
lemma loop_inj (hinj : Function.Injective2 hash) (l : List H) :
    ∀ {l' : List H} {m m' : Bool} {d : ℕ}, l ≠ [] → l' ≠ [] →
      (∀ x ∈ l, Depth hash d x) → (∀ x ∈ l', Depth hash d x) →
      (computeMerkleRootLoop hash true l m).2 = false →
      (computeMerkleRootLoop hash true l' m').2 = false →
      (computeMerkleRootLoop hash true l m).1 = (computeMerkleRootLoop hash true l' m').1 →
      l = l' := by
  induction l using level_induction hash with
  | hdone l hl =>
    intro l' m m' d hne _ hd hd' _ _ heq
    by_cases hl' : 1 < l'.length
    · exact absurd heq (loop_done_ne_step hinj hne hl hl' hd hd')
    · rwa [loop_done hl, loop_done hl'] at heq
  | hstep l hl ih =>
    intro l' m m' d _ hne' hd hd' hflag hflag' heq
    by_cases hl' : 1 < l'.length
    · have hpair := alignedNe_of_loop hl hflag
      have hpair' := alignedNe_of_loop hl' hflag'
      rw [loop_step hl] at hflag heq
      rw [loop_step hl'] at hflag' heq
      have hnil : ∀ k : List H, 1 < k.length → pairUp hash k ≠ [] := by
        intro k hk
        refine ne_nil_of_length_pos ?_
        rw [length_pairUp]
        omega
      exact pairUp_inj hinj hpair hpair' (ih (hnil l hl) (hnil l' hl') (depth_pairUp hd)
        (depth_pairUp hd') hflag hflag' heq)
    · exact absurd heq.symm (loop_done_ne_step hinj hne' hl' hl hd' hd)

/-- Distinct leaves give distinct nodes on every level, and no flag. -/
lemma loop_nodup (hinj : Function.Injective2 hash) (l : List H) : l.Nodup →
    (computeMerkleRootLoop hash true l false).2 = false := by
  induction l using level_induction hash with
  | hdone l hl =>
    intro _
    rw [loop_done hl]
  | hstep l hl ih =>
    intro hnodup
    have hscan : scanPairs l false = false := scanPairs_eq_false.2 ⟨rfl, alignedNe_of_nodup hnodup⟩
    rw [loop_step hl, if_pos rfl, hscan]
    exact ih (nodup_pairUp hinj hnodup)

/-! ## The description from above -/

/-- From any level on, the loop ends in the node at the first height that has a single one. -/
lemma loop_level (leaf : ℕ → H) {n : ℕ} (hn : 0 < n) (h : ℕ) :
    ∀ {mutation : Bool}, (computeMerkleRootLoop hash mutated (level hash leaf n h) mutation).1 =
      [node hash leaf n (heightFrom n h) 0] := by
  induction h using heightFrom.induct (n := n) with
  | case1 h hlt ih =>
    intro mutation
    rw [loop_step (by rwa [length_level]), pairUp_level, heightFrom, if_pos hlt]
    exact ih
  | case2 h hle =>
    intro mutation
    have hpos : 0 < width n h := lt_width_iff.2 (by omega)
    have hone : width n h = 1 := by omega
    rw [loop_done (by rwa [length_level]), heightFrom, if_neg hle, level, hone]
    rfl

omit [DecidableEq H] in
lemma level_zero (l : List H) : level hash (l.getD · default) l.length 0 = l := by
  refine ext_getElem (by simp) fun i hi hi' => ?_
  simp [level, node, hi']

/-- The loop ends in a single hash, the root described from above. -/
lemma loop_root {l : List H} (hl : l ≠ []) :
    (computeMerkleRootLoop hash mutated l mutation).1 = [recursiveRoot hash l] := by
  have hloop : (computeMerkleRootLoop hash mutated (level hash (l.getD · default) l.length 0)
      mutation).1 = _ := loop_level _ (length_pos_iff.2 hl) 0
  rw [level_zero] at hloop
  rw [hloop, recursiveRoot, if_neg hl]

lemma computeMerkleRoot_eq (l : List H) (mutated : Bool) :
    (computeMerkleRoot hash l mutated).1 = recursiveRoot hash l := by
  by_cases hl : l = []
  · rw [computeMerkleRoot, recursiveRoot, if_pos hl, hl, loop_done (by simp)]
    rfl
  · rw [computeMerkleRoot, loop_root hl]
    rfl

/-! ## Malleability -/

/-- **The flag detects malleability.**  Of two different non-empty lists of leaves with one root at
least one is flagged; distinct leaves are never flagged, and their root is the recursive one. -/
theorem computeMerkleRoot_mutated (hinj : Function.Injective2 hash) :
    (∀ leaves leaves' : List H, (∀ x ∈ leaves, ∀ a b, hash a b ≠ x) →
      (∀ x ∈ leaves', ∀ a b, hash a b ≠ x) → leaves ≠ [] → leaves' ≠ [] → leaves ≠ leaves' →
      (computeMerkleRoot hash leaves true).1 = (computeMerkleRoot hash leaves' true).1 →
      (computeMerkleRoot hash leaves true).2 = some true ∨
        (computeMerkleRoot hash leaves' true).2 = some true) ∧
    (∀ leaves : List H, leaves.Nodup → (computeMerkleRoot hash leaves true).2 = some false ∧
      (computeMerkleRoot hash leaves true).1 = recursiveRoot hash leaves) := by
  constructor
  · intro leaves leaves' hleaf hleaf' hne hne' hdiff hroot
    by_contra hflags
    simp only [computeMerkleRoot, if_pos, Option.some.injEq, not_or, Bool.not_eq_true] at hflags
    rw [computeMerkleRoot_eq, computeMerkleRoot_eq] at hroot
    exact hdiff (loop_inj (d := 0) hinj leaves hne hne' hleaf hleaf' hflags.1 hflags.2
      (by rw [loop_root hne, loop_root hne', hroot]))
  · intro leaves hnodup
    refine ⟨?_, computeMerkleRoot_eq leaves true⟩
    rw [computeMerkleRoot, loop_nodup hinj leaves hnodup]
    rfl

/-- Three leaves, and the same with the last one repeated, have one root. -/
theorem computeMerkleRoot_mutated_tail :
    (computeMerkleRoot Term.pair [.leaf 1, .leaf 2, .leaf 3] true).2 = some true ∨
      (computeMerkleRoot Term.pair [.leaf 1, .leaf 2, .leaf 3, .leaf 3] true).2 = some true :=
  (computeMerkleRoot_mutated Term.pair_injective2).1 _ _ (by simp) (by simp) (by simp) (by simp)
    (by simp) (by simp [computeMerkleRoot, loop_step, loop_done, pairUp])

end Bitcoin.Merkle
