import DailyReadCoding.Bitcoin.Merkle.PartialMerkleTree

/-!
# What a partial Merkle tree proves

The bits, the hashes and the number of transactions of a `CPartialMerkleTree` may come from anyone.
If `ExtractMatches` returns a root, then every list of that many leaves with that root holds the
matched transactions where the tree says they are. The argument runs from the root down: the hash
the extractor computes at a node is the node of the list, and an injective pair hash hands that
equality to both subtrees.
-/

namespace Bitcoin.Merkle

open HashTree List

variable {H : Type*} [DecidableEq H] [Inhabited H] {hash : H → H → H}

/-! ## Every input -/

/-- What a call of `TraverseAndExtract` may end in. -/
def Ends (hash : H → H → H) (t : PartialMerkleTree H) (height pos : ℕ) (s : Extraction H)
    (result : Option (H × Extraction H)) : Prop :=
  ∃ x s', result = some (x, s') ∧ (s.fBad = true → s'.fBad = true) ∧
    (s'.fBad = true ∨ Extracts hash t height pos s x s')

variable {t : PartialMerkleTree H} {height pos n : ℕ} {s s' : Extraction H}

omit [DecidableEq H] [Inhabited H] in
lemma ends_bad {x : H} (hbad : s'.fBad = true) : Ends hash t height pos s (some (x, s')) :=
  ⟨x, s', rfl, fun _ => hbad, .inl hbad⟩

omit [DecidableEq H] in
lemma ends_stored {b : Bool}
    (hbit : t.vBits[s.nBitsUsed]? = some b) (hstop : height = 0 ∨ b = false) :
    Ends hash t height pos s (useStoredHash t.vHash height pos b s.nextBit) := by
  rcases useStoredHash_cases t.vHash height pos b s.nextBit with hend | ⟨x, hx, hend⟩
  · rw [hend]
    exact ends_bad rfl
  · rw [hend]
    cases b with
    | false =>
      rw [if_neg (by simp)]
      exact ⟨x, _, rfl, fun hbad => hbad, .inr (.stored hbit hx)⟩
    | true =>
      obtain rfl : height = 0 := by simpa using hstop
      exact ⟨x, _, rfl, fun hbad => hbad, .inr (.matched hbit hx)⟩

/-- **The extractor stays within its arrays**, whatever they hold. -/
lemma traverseAndExtract_cases (t : PartialMerkleTree H) (height : ℕ) :
    ∀ (pos : ℕ) (s : Extraction H),
      Ends hash t height pos s (traverseAndExtract hash t height pos s) := by
  induction height with
  | zero =>
    intro pos s
    rw [traverseAndExtract]
    by_cases hused : s.nBitsUsed ≥ t.vBits.length
    · rw [if_pos hused]
      exact ends_bad rfl
    · have hbit : t.vBits[s.nBitsUsed]? = some t.vBits[s.nBitsUsed] :=
        getElem?_eq_getElem (by omega)
      rw [if_neg hused, hbit]
      exact ends_stored hbit (.inl rfl)
  | succ height ih =>
    intro pos s
    rw [traverseAndExtract]
    by_cases hused : s.nBitsUsed ≥ t.vBits.length
    · rw [if_pos hused]
      exact ends_bad rfl
    · have hbit : t.vBits[s.nBitsUsed]? = some t.vBits[s.nBitsUsed] :=
        getElem?_eq_getElem (by omega)
      rw [if_neg hused, hbit, Option.bind_some]
      cases hb : t.vBits[s.nBitsUsed] with
      | false => exact ends_stored (hbit.trans (congrArg some hb)) (.inr rfl)
      | true =>
        have hbit := hbit.trans (congrArg some hb)
        obtain ⟨left, s', hl, hkeep, hleft⟩ := ih (pos * 2) s.nextBit
        rw [if_neg (by simp), hl, Option.bind_some, calcTreeWidth_eq]
        by_cases hwidth : pos * 2 + 1 < width t.nTransactions height
        · obtain ⟨right, s'', hr, hkeep', hright⟩ := ih (pos * 2 + 1) s'
          rw [if_pos hwidth, hr, Option.bind_some]
          by_cases hne : right = left
          · rw [if_pos hne]
            exact ends_bad rfl
          · rw [if_neg hne]
            refine ⟨_, s'', rfl, fun hbad => hkeep' (hkeep hbad), ?_⟩
            rcases hleft with hbad | hleft
            · exact .inl (hkeep' hbad)
            · exact hright.imp id fun hright => .both hbit hwidth hleft hright hne
        · rw [if_neg hwidth]
          exact ⟨_, s', rfl, hkeep, hleft.imp id fun hleft => .single hbit hwidth hleft⟩

/-! ## Soundness of a run -/

/-- The transactions found are leaves of the list, at increasing positions below the node. -/
structure Found (leaf : ℕ → H) (n height pos : ℕ) (s s' : Extraction H) (idx : List ℕ) : Prop where
  vnIndex : s'.vnIndex = s.vnIndex ++ idx
  vMatch : s'.vMatch = s.vMatch ++ idx.map leaf
  increasing : idx.Pairwise (· < ·)
  below : ∀ i ∈ idx, pos * 2 ^ height ≤ i ∧ i < (pos + 1) * 2 ^ height
  lt : ∀ i ∈ idx, i < n

lemma below_parent {pos' i : ℕ} (hpos : pos * 2 ≤ pos' ∧ pos' ≤ pos * 2 + 1)
    (hbelow : pos' * 2 ^ height ≤ i ∧ i < (pos' + 1) * 2 ^ height) :
    pos * 2 ^ (height + 1) ≤ i ∧ i < (pos + 1) * 2 ^ (height + 1) := by
  rw [mul_two_pow_succ, mul_two_pow_succ]
  exact ⟨(Nat.mul_le_mul_right _ hpos.1).trans hbelow.1,
    hbelow.2.trans_le (Nat.mul_le_mul_right _ (by omega))⟩

omit [DecidableEq H] [Inhabited H] in
lemma Found.up {leaf : ℕ → H} {idx : List ℕ}
    (hfound : Found leaf n height (pos * 2) s.nextBit s' idx) :
    Found leaf n (height + 1) pos s s' idx where
  vnIndex := hfound.vnIndex
  vMatch := hfound.vMatch
  increasing := hfound.increasing
  below := fun i hi => below_parent (by omega) (hfound.below i hi)
  lt := hfound.lt

omit [DecidableEq H] [Inhabited H] in
lemma Found.append {leaf : ℕ → H} {s'' : Extraction H} {idx idx' : List ℕ}
    (hleft : Found leaf n height (pos * 2) s.nextBit s' idx)
    (hright : Found leaf n height (pos * 2 + 1) s' s'' idx') :
    Found leaf n (height + 1) pos s s'' (idx ++ idx') where
  vnIndex := by
    rw [hright.vnIndex, hleft.vnIndex, append_assoc]
    rfl
  vMatch := by
    rw [hright.vMatch, hleft.vMatch, map_append, append_assoc]
    rfl
  increasing := by
    refine pairwise_append.2 ⟨hleft.increasing, hright.increasing, ?_⟩
    intro i hi j hj
    exact (hleft.below i hi).2.trans_le (hright.below j hj).1
  below := by
    intro i hi
    rcases mem_append.1 hi with hi | hi
    · exact below_parent (by omega) (hleft.below i hi)
    · exact below_parent (by omega) (hright.below i hi)
  lt := by
    intro i hi
    exact (mem_append.1 hi).elim (hleft.lt i) (hright.lt i)

omit [DecidableEq H] [Inhabited H] in
/-- **A run finds leaves of the list**: injectivity hands the hash of a node down to its subtrees.
-/
lemma Extracts.sound (hinj : Function.Injective2 hash) {leaf : ℕ → H}
    {x : H} (hrun : Extracts hash t height pos s x s') (hpos : pos < width t.nTransactions height)
    (hx : x = node hash leaf t.nTransactions height pos) :
    ∃ idx, Found leaf t.nTransactions height pos s s' idx := by
  induction hrun with
  | @matched pos s x hbit hstored =>
    refine ⟨[pos], rfl, ?_, by simp, by simp, ?_⟩
    · rw [hx]
      rfl
    · intro i hi
      rw [mem_singleton.1 hi]
      simpa using hpos
  | stored hbit hstored =>
    exact ⟨[], (append_nil _).symm, (append_nil _).symm, .nil, by simp, by simp⟩
  | @single height pos s s' left hbit hwidth hleft ih =>
    have hchild : pos * 2 < width t.nTransactions height := by
      rw [width_succ] at hpos
      omega
    obtain ⟨idx, hfound⟩ := ih hchild (by rw [(hinj hx).1, mul_comm])
    exact ⟨idx, hfound.up⟩
  | @both height pos s s' s'' left right hbit hwidth hleft hright hne ihleft ihright =>
    rw [node, if_pos (by rwa [mul_comm 2 pos])] at hx
    obtain ⟨idx, hfound⟩ := ihleft (by omega) (by rw [(hinj hx).1, mul_comm])
    obtain ⟨idx', hfound'⟩ := ihright hwidth (by rw [(hinj hx).2, mul_comm])
    exact ⟨idx ++ idx', hfound.append hfound'⟩

/-! ## `ExtractMatches` -/

omit [DecidableEq H] in
/-- The checks pass the vectors on; a root they pass on comes from a traversal without fault. -/
lemma checkConsumed_cases (t : PartialMerkleTree H) (root : H) (s : Extraction H) :
    checkConsumed t root s = ⟨default, s.vMatch, s.vnIndex⟩ ∨
      (s.fBad = false ∧ checkConsumed t root s = ⟨root, s.vMatch, s.vnIndex⟩) := by
  rw [checkConsumed]
  split_ifs with hbad hbits hhashes
  · exact .inl rfl
  · exact .inl rfl
  · exact .inl rfl
  · exact .inr ⟨by simpa using hbad, rfl⟩

/-- `ExtractMatches` refuses the tree at once, or checks what the traversal made of it. -/
lemma extractMatches_cases (t : PartialMerkleTree H) (vnIndex : List ℕ) :
    extractMatches hash t vnIndex = some ⟨default, [], vnIndex⟩ ∨
      (t.nTransactions ≠ 0 ∧ ∃ root s,
      extractMatches hash t vnIndex = some (checkConsumed t root s) ∧
        (s.fBad = true ∨ Extracts hash t (treeHeight t.nTransactions) 0
          ⟨0, 0, [], vnIndex, t.fBad⟩ root s)) := by
  obtain ⟨root, s, hrun, -, hend⟩ : Ends hash t (treeHeight t.nTransactions) 0
    ⟨0, 0, [], vnIndex, t.fBad⟩ _ := traverseAndExtract_cases t _ 0 _
  rw [extractMatches, hrun]
  split_ifs with hzero hlimit hhashes hbits
  · exact .inl rfl
  · exact .inl rfl
  · exact .inl rfl
  · exact .inl rfl
  · exact .inr ⟨hzero, root, s, rfl, hend⟩

/-- A root that is not null comes from a run over the whole tree. -/
lemma extracts_of_extractMatches {vnIndex : List ℕ} {m : Matches H}
    (hextract : extractMatches hash t vnIndex = some m) (hroot : m.root ≠ default) :
    t.nTransactions ≠ 0 ∧ ∃ s, m.vMatch = s.vMatch ∧ m.vnIndex = s.vnIndex ∧
      Extracts hash t (treeHeight t.nTransactions) 0 ⟨0, 0, [], vnIndex, t.fBad⟩ m.root s := by
  rcases extractMatches_cases t vnIndex with hnull | ⟨hzero, root, s, hchecked, hend⟩
  · rw [hnull, Option.some.injEq] at hextract
    subst hextract
    exact absurd rfl hroot
  · rw [hchecked, Option.some.injEq] at hextract
    subst hextract
    rcases checkConsumed_cases t root s with hnull | ⟨hbad, hpass⟩
    · rw [hnull] at hroot
      exact absurd rfl hroot
    · rw [hpass]
      refine ⟨hzero, s, rfl, rfl, hend.resolve_left ?_⟩
      simp [hbad]

/-- **Soundness of partial Merkle trees.** If a tree with `n` transactions yields a root, then every
list of `n` leaves with that root has the matched transactions at the positions given, and the
positions increase. Whatever the tree holds, no access leaves its arrays. -/
theorem extractMatches_sound : (Function.Injective2 hash →
      ∀ (t : PartialMerkleTree H) (vnIndex : List ℕ) (m : Matches H) (leaves : List H),
      extractMatches hash t vnIndex = some m → m.root ≠ default →
      leaves.length = t.nTransactions → (computeMerkleRoot hash leaves false).1 = m.root →
      ∃ idx : List ℕ, m.vnIndex = vnIndex ++ idx ∧ m.vMatch.length = idx.length ∧
        (∀ p ∈ idx.zip m.vMatch, p.1 < t.nTransactions ∧ leaves[p.1]? = some p.2) ∧
        idx.Pairwise (· < ·)) ∧
    ∀ (t : PartialMerkleTree H) (vnIndex : List ℕ), extractMatches hash t vnIndex ≠ none := by
  constructor
  · intro hinj t vnIndex m leaves hextract hroot hlength hmerkle
    obtain ⟨hzero, s, hmatch, hindex, hrun⟩ := extracts_of_extractMatches hextract hroot
    have hne : leaves ≠ [] := by
      rintro rfl
      exact hzero hlength.symm
    rw [computeMerkleRoot_eq, recursiveRoot, if_neg hne, hlength, ← treeHeight_eq] at hmerkle
    have hpos : 0 < width t.nTransactions (treeHeight t.nTransactions) := lt_width_iff.2 (by omega)
    obtain ⟨idx, hfound⟩ := hrun.sound hinj hpos hmerkle.symm
    refine ⟨idx, hindex.trans hfound.vnIndex, ?_, ?_, hfound.increasing⟩
    · rw [hmatch, hfound.vMatch]
      simp
    · intro p hp
      have hzip : idx.zip (idx.map (leaves.getD · default)) =
          idx.map fun i => (i, leaves.getD i default) := by
        have hmap := @zip_map' _ _ _ id (leaves.getD · default) idx
        rwa [map_id] at hmap
      rw [hmatch, hfound.vMatch, nil_append, hzip, mem_map] at hp
      obtain ⟨i, hi, rfl⟩ := hp
      have hlt := hfound.lt i hi
      refine ⟨hlt, ?_⟩
      have hget : leaves[i]? = some leaves[i] := getElem?_eq_getElem (by omega)
      rw [getD_eq_getElem?_getD, hget]
      rfl
  · intro t vnIndex
    rcases extractMatches_cases t vnIndex with hnull | ⟨-, root, s, hchecked, -⟩
    · rw [hnull]
      exact Option.some_ne_none _
    · rw [hchecked]
      exact Option.some_ne_none _

/-- A tree over two transactions with the second one matched. -/
theorem extractMatches_sound_two : ∃ idx : List ℕ, [1] = [] ++ idx ∧
    [Term.leaf 2].length = idx.length ∧
    (∀ p ∈ idx.zip [Term.leaf 2], p.1 < 2 ∧ [Term.leaf 1, Term.leaf 2][p.1]? = some p.2) ∧
    idx.Pairwise (· < ·) := by
  have hheight : treeHeight 2 = 1 := by simp [treeHeight, treeHeightFrom, calcTreeWidth]
  refine extractMatches_sound.1 Term.pair_injective2
    ⟨2, [true, false, true], [.leaf 1, .leaf 2], false⟩ []
    ⟨.pair (.leaf 1) (.leaf 2), [.leaf 2], [1]⟩ [.leaf 1, .leaf 2] ?_ (by simp [default]) rfl ?_
  · rw [extractMatches, hheight]
    decide
  · simp [computeMerkleRoot, loop_step, loop_done, pairUp]

end Bitcoin.Merkle
