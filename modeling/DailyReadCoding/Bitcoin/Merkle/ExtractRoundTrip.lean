import Mathlib
import DailyReadCoding.Bitcoin.Merkle.ExtractSound

/-!
# A partial Merkle tree holds what was put into it

A tree built from a list of transaction ids and a mask, sent as bytes and read back, yields the root
of the list and the ids the mask selects. Builder and extractor walk the same nodes; what the
builder appends for a node, followed by anything, is what the extractor uses up there.
-/

namespace Bitcoin.Merkle

open HashTree List Extraction Nat

/-! ## Bits and bytes -/

/-- The bytes after the first `k` bits. -/
def packed (bits : List Bool) (k : ℕ) : List (BitVec 8) :=
  (List.range k).foldl
    (fun ret p =>
      ret.modify (p / 8) (· ||| (BitVec.ofBool (bits.getD p false)).setWidth 8 <<< (p % 8)))
    (List.replicate ((bits.length + 7) / 8) 0#8)

lemma packed_succ (bits : List Bool) (k : ℕ) : packed bits (k + 1) = (packed bits k).modify (k / 8)
      (· ||| (BitVec.ofBool (bits.getD k false)).setWidth 8 <<< (k % 8)) := by
  rw [packed, range_succ, foldl_append]
  rfl

lemma length_packed (bits : List Bool) (k : ℕ) :
    (packed bits k).length = (bits.length + 7) / 8 := by
  induction k with
  | zero => simp [packed]
  | succ k ih => rw [packed_succ, length_modify, ih]

variable {i j n : ℕ}

lemma getLsbD_bit (b : Bool) (hi : i < 8) (hj : j < 8) :
    ((BitVec.ofBool b).setWidth 8 <<< i).getLsbD j = (decide (j = i) && b) := by
  rcases lt_trichotomy j i with hlt | rfl | hgt
  · simp [hlt, hlt.ne]
  · simp [hj]
  · have hpos : j - i ≠ 0 := by omega
    simp [hgt.ne', hpos]

/-- Every bit packed so far stands in its byte, and no other bit is set. -/
lemma getLsbD_packed (bits : List Bool) (hj : j < 8) {q : ℕ}
    (hq : q < (bits.length + 7) / 8) (k : ℕ) : ((packed bits k).getD q 0#8).getLsbD j =
      (decide (q * 8 + j < k) && bits.getD (q * 8 + j) false) := by
  induction k with
  | zero =>
    rw [packed, range_zero, foldl_nil, getD_eq_getElem?_getD, getElem?_replicate_of_lt hq]
    simp
  | succ k ih =>
    have hget : (packed bits k)[q]? = some ((packed bits k).getD q 0#8) := by
      rw [getD_eq_getElem?_getD, getElem?_eq_getElem (by rwa [length_packed])]
      rfl
    rw [packed_succ, getD_eq_getElem?_getD, getElem?_modify, hget,
      Option.map_eq_map, Option.map_some, Option.getD_some]
    by_cases hbyte : k / 8 = q
    · rw [if_pos hbyte, BitVec.getLsbD_or, ih, getLsbD_bit _ (mod_lt _ (by omega)) hj]
      by_cases hbit : j = k % 8
      · have hk : q * 8 + j = k := by omega
        rw [hk, decide_eq_true hbit]
        simp
      · have hlt : q * 8 + j < k + 1 ↔ q * 8 + j < k := by omega
        simp [hbit, hlt]
    · have hlt : q * 8 + j < k + 1 ↔ q * 8 + j < k := by omega
      rw [if_neg hbyte, ih]
      simp [hlt]

lemma and_bit_ne_zero (x : BitVec 8) (hj : j < 8) : (x &&& (1#8 <<< j) != 0#8) = x.getLsbD j := by
  have hbits : ∀ (i : Fin 8) (x : BitVec 8), (x &&& (1#8 <<< i.1) != 0#8) = x.getLsbD i.1 := by
    decide +kernel
  exact hbits ⟨j, hj⟩ x

/-- **The bits come back**, followed by zeros up to a whole number of bytes. -/
theorem bytesToBits_bitsToBytes (bits : List Bool) : bytesToBits (bitsToBytes bits) =
      bits ++ replicate ((bits.length + 7) / 8 * 8 - bits.length) false := by
  have hlength : (bitsToBytes bits).length = (bits.length + 7) / 8 := length_packed bits _
  refine ext_getElem (by simp [bytesToBits, hlength]; omega) fun p hp _ => ?_
  have hbyte : p / 8 < (bits.length + 7) / 8 := by
    simp only [bytesToBits, length_map, length_range, hlength] at hp
    omega
  have hp8 : p / 8 * 8 + p % 8 = p := div_add_mod' p 8
  have hread : (bytesToBits (bitsToBytes bits))[p] =
      (decide (p < bits.length) && bits.getD p false) := by
    simp only [bytesToBits, getElem_map, getElem_range]
    rw [and_bit_ne_zero _ (mod_lt _ (by omega))]
    have hpacked := getLsbD_packed bits (mod_lt p (by omega : 8 > 0)) hbyte bits.length
    rwa [hp8] at hpacked
  rw [hread, getElem_append]
  split_ifs with hlt
  · simp [hlt]
  · simp [hlt]

/-! ## The builder -/

variable {H : Type*} [DecidableEq H] [Inhabited H] {hash : H → H → H}

section Building

omit [DecidableEq H]

lemma calcHash_eq (n : ℕ) (vTxid : List H) (height : ℕ) : ∀ pos,
    calcHash hash n vTxid height pos = node hash (vTxid.getD · default) n height pos := by
  induction height with
  | zero => exact fun pos => rfl
  | succ height ih =>
    intro pos
    rw [calcHash, node, ih, ih, calcTreeWidth_eq, mul_comm pos 2]

/-- What the builder stores for a node. -/
def built (hash : H → H → H) (vTxid : List H) (vMatch : List Bool) (height pos : ℕ) :
    List Bool × List H :=
  traverseAndBuild hash vTxid.length vTxid vMatch height pos ([], [])

/-- What the builder appends. -/
lemma traverseAndBuild_eq (vTxid : List H) (vMatch : List Bool) (height : ℕ) :
    ∀ (pos : ℕ) (stored : List Bool × List H),
      traverseAndBuild hash vTxid.length vTxid vMatch height pos stored =
        (stored.1 ++ (built hash vTxid vMatch height pos).1,
          stored.2 ++ (built hash vTxid vMatch height pos).2) := by
  induction height with
  | zero =>
    rintro pos ⟨bits, hashes⟩
    rfl
  | succ height ih =>
    rintro pos ⟨bits, hashes⟩
    simp only [built, traverseAndBuild]
    split_ifs
    · rw [ih _ (traverseAndBuild _ _ _ _ _ _ _), ih _ (_, _),
        ih _ (traverseAndBuild _ _ _ _ _ _ _), ih _ (_, _)]
      simp
    · rw [ih, ih]
      simp
    · simp

section Built

variable {vTxid : List H} {vMatch : List Bool} {height pos : ℕ}

lemma built_leaf : built hash vTxid vMatch 0 pos =
    ([parentOfMatch vTxid.length vMatch 0 pos], [vTxid.getD pos default]) := rfl

lemma built_stop (hmatch : parentOfMatch vTxid.length vMatch (height + 1) pos = false) :
    built hash vTxid vMatch (height + 1) pos =
      ([false], [node hash (vTxid.getD · default) vTxid.length (height + 1) pos]) := by
  rw [built, traverseAndBuild, hmatch, if_neg (by simp), calcHash_eq]
  rfl

lemma built_single (hmatch : parentOfMatch vTxid.length vMatch (height + 1) pos = true)
    (hwidth : ¬ pos * 2 + 1 < width vTxid.length height) :
    built hash vTxid vMatch (height + 1) pos =
      (true :: (built hash vTxid vMatch height (pos * 2)).1,
        (built hash vTxid vMatch height (pos * 2)).2) := by
  rw [built, traverseAndBuild, if_pos hmatch, calcTreeWidth_eq, if_neg hwidth, traverseAndBuild_eq]
  rfl

lemma built_both (hmatch : parentOfMatch vTxid.length vMatch (height + 1) pos = true)
    (hwidth : pos * 2 + 1 < width vTxid.length height) : built hash vTxid vMatch (height + 1) pos =
      (true :: ((built hash vTxid vMatch height (pos * 2)).1 ++
          (built hash vTxid vMatch height (pos * 2 + 1)).1),
        (built hash vTxid vMatch height (pos * 2)).2 ++
          (built hash vTxid vMatch height (pos * 2 + 1)).2) := by
  rw [built, traverseAndBuild, if_pos hmatch, calcTreeWidth_eq, if_pos hwidth,
    traverseAndBuild_eq, traverseAndBuild_eq]
  rfl

end Built

/-! ## The transactions below a node -/

lemma positionsBelow_eq (n height pos : ℕ) : positionsBelow n height pos =
    range' (pos * 2 ^ height) (min ((pos + 1) * 2 ^ height) n - pos * 2 ^ height) := by
  rw [positionsBelow, shiftLeft_eq, shiftLeft_eq]

lemma positionsBelow_succ (n height pos : ℕ) : positionsBelow n (height + 1) pos =
    positionsBelow n height (pos * 2) ++ positionsBelow n height (pos * 2 + 1) := by
  rw [positionsBelow_eq, positionsBelow_eq, positionsBelow_eq, mul_two_pow_succ, mul_two_pow_succ,
    show (pos * 2 + 1 + 1) = (pos + 1) * 2 by ring, show (pos + 1) * 2 * 2 ^ height =
      pos * 2 * 2 ^ height + 2 ^ height + 2 ^ height by ring,
    show (pos * 2 + 1) * 2 ^ height = pos * 2 * 2 ^ height + 2 ^ height by ring]
  generalize pos * 2 * 2 ^ height = first
  generalize 2 ^ height = size at *
  rcases lt_or_ge (first + size) n with hlt | hge
  · rw [min_eq_left hlt.le, show first + size - first = size by omega,
      show min (first + size + size) n - first =
        size + (min (first + size + size) n - (first + size)) by omega]
    exact (range'_append_1 ..).symm
  · rw [min_eq_right hge, min_eq_right (by omega), show n - (first + size) = 0 by omega]
    simp

lemma positionsBelow_eq_nil {height pos : ℕ} (hpos : ¬ pos < width n height) :
    positionsBelow n height pos = [] := by
  rw [lt_width_iff] at hpos
  rw [positionsBelow_eq, show min ((pos + 1) * 2 ^ height) n - pos * 2 ^ height = 0 by omega]
  rfl

lemma positionsBelow_zero {pos : ℕ} (hpos : pos < n) : positionsBelow n 0 pos = [pos] := by
  rw [positionsBelow_eq, pow_zero, mul_one, mul_one, show min (pos + 1) n - pos = 1 by omega]
  rfl

lemma length_positionsBelow_pos {height pos : ℕ} (hpos : pos < width n height) :
    0 < (positionsBelow n height pos).length := by
  have hpow := Nat.two_pow_pos height
  rw [lt_width_iff] at hpos
  rw [positionsBelow_eq, length_range', succ_mul]
  omega

lemma positionsBelow_root (n : ℕ) : positionsBelow n (treeHeight n) 0 = range n := by
  have hall : n ≤ 2 ^ treeHeight n := by
    have hone := width_heightFrom n 0
    rw [treeHeight_eq]
    by_contra hlt
    have htwo : 1 < width n (heightFrom n 0) := lt_width_iff.2 (by omega)
    omega
  rw [positionsBelow_eq, zero_add, one_mul, zero_mul, min_eq_right hall, Nat.sub_zero,
    range_eq_range']

/-- The matched transactions below a node. -/
def matchedBelow (n : ℕ) (vMatch : List Bool) (height pos : ℕ) : List ℕ :=
  (positionsBelow n height pos).filter fun p => vMatch.getD p false

lemma matchedBelow_of_not_parent {height pos : ℕ} {vMatch : List Bool}
    (hmatch : parentOfMatch n vMatch height pos = false) :
    matchedBelow n vMatch height pos = [] := by
  rw [parentOfMatch, any_eq_false] at hmatch
  exact filter_eq_nil_iff.2 hmatch

lemma matchedBelow_leaf {pos : ℕ} (vMatch : List Bool) (hpos : pos < n) :
    matchedBelow n vMatch 0 pos = if vMatch.getD pos false then [pos] else [] := by
  rw [matchedBelow, positionsBelow_zero hpos, filter_cons, filter_nil]

lemma matchedBelow_succ (n : ℕ) (vMatch : List Bool) (height pos : ℕ) :
    matchedBelow n vMatch (height + 1) pos =
      matchedBelow n vMatch height (pos * 2) ++ matchedBelow n vMatch height (pos * 2 + 1) := by
  rw [matchedBelow, positionsBelow_succ, filter_append]
  rfl

lemma matchedBelow_single {vMatch : List Bool} {height pos : ℕ}
    (hwidth : ¬ pos * 2 + 1 < width n height) :
    matchedBelow n vMatch (height + 1) pos = matchedBelow n vMatch height (pos * 2) := by
  have hright : matchedBelow n vMatch height (pos * 2 + 1) = [] := by
    rw [matchedBelow, positionsBelow_eq_nil hwidth]
    rfl
  rw [matchedBelow_succ, hright, append_nil]

/-- The builder stores no more hashes than bits, and no more than there are transactions. -/
lemma length_built (hash : H → H → H) (vTxid : List H) (vMatch : List Bool) (height : ℕ) : ∀ pos,
    pos < width vTxid.length height →
      (built hash vTxid vMatch height pos).2.length ≤
      (built hash vTxid vMatch height pos).1.length ∧
      (built hash vTxid vMatch height pos).2.length ≤
        (positionsBelow vTxid.length height pos).length := by
  induction height with
  | zero =>
    intro pos hpos
    rw [width_zero] at hpos
    rw [built_leaf, positionsBelow_zero hpos]
    exact ⟨le_rfl, le_rfl⟩
  | succ height ih =>
    intro pos hpos
    have hchild : pos * 2 < width vTxid.length height := by
      rw [width_succ] at hpos
      omega
    have hleft := ih _ hchild
    rw [positionsBelow_succ, length_append]
    cases hmatch : parentOfMatch vTxid.length vMatch (height + 1) pos with
    | false =>
      rw [built_stop hmatch]
      have hsome := length_positionsBelow_pos hchild
      exact ⟨le_rfl, by simp only [length_singleton]; omega⟩
    | true =>
      by_cases hwidth : pos * 2 + 1 < width vTxid.length height
      · have hright := ih _ hwidth
        rw [built_both hmatch hwidth]
        simp only [length_cons, length_append]
        omega
      · rw [built_single hmatch hwidth]
        simp only [length_cons]
        omega

/-! ## The extractor on what was built -/

/-- The state after a node whose bits and hashes were used up and whose matches were found. -/
def Extraction.after (s : Extraction H) (stored : List Bool × List H) (leaf : ℕ → H)
    (idx : List ℕ) : Extraction H where
  nBitsUsed := s.nBitsUsed + stored.1.length
  nHashUsed := s.nHashUsed + stored.2.length
  vMatch := s.vMatch ++ idx.map leaf
  vnIndex := s.vnIndex ++ idx
  fBad := s.fBad

omit [Inhabited H] in
lemma Extraction.after_nextBit (s : Extraction H) (stored : List Bool × List H) (leaf : ℕ → H)
    (idx : List ℕ) :
    s.nextBit.after stored leaf idx = s.after (true :: stored.1, stored.2) leaf idx := by
  simp only [after, nextBit, length_cons, mk.injEq, and_true]
  omega

omit [Inhabited H] in
lemma Extraction.after_after (s : Extraction H) (stored stored' : List Bool × List H)
    (leaf : ℕ → H) (idx idx' : List ℕ) : (s.after stored leaf idx).after stored' leaf idx' =
      s.after (stored.1 ++ stored'.1, stored.2 ++ stored'.2) leaf (idx ++ idx') := by
  simp [after, add_assoc]

lemma getElem?_of_drop {α : Type*} {l rest : List α} {a : α} (hdrop : l.drop i = a :: rest) :
    l[i]? = some a := by
  have hzero := @List.getElem?_drop _ l i 0
  rw [hdrop] at hzero
  exact hzero.symm

lemma drop_of_drop {α : Type*} {l l' rest : List α} (hdrop : l'.drop i = l ++ rest) :
    l'.drop (i + l.length) = rest := by
  rw [← drop_drop, hdrop, drop_left]

lemma getD_inj_of_nodup {l : List H} (hnodup : l.Nodup) :
    ∀ a < l.length, ∀ b < l.length, l.getD a default = l.getD b default → a = b := by
  intro a ha b hb heq
  rw [getD_eq_getElem?_getD, getD_eq_getElem?_getD, getElem?_eq_getElem ha,
    getElem?_eq_getElem hb] at heq
  exact (List.Nodup.getElem_inj_iff hnodup).1 heq

/-- **The extractor uses up exactly what the builder stored for a node**, whatever follows. -/
lemma extracts_built (hinj : Function.Injective2 hash) {vTxid : List H} (hnodup : vTxid.Nodup)
    (vMatch : List Bool) {t : PartialMerkleTree H} (ht : t.nTransactions = vTxid.length)
    (height : ℕ) : ∀ (pos : ℕ) (s : Extraction H) (bits : List Bool) (hashes : List H),
      pos < width vTxid.length height →
      t.vBits.drop s.nBitsUsed = (built hash vTxid vMatch height pos).1 ++ bits →
      t.vHash.drop s.nHashUsed = (built hash vTxid vMatch height pos).2 ++ hashes →
      Extracts hash t height pos s (node hash (vTxid.getD · default) vTxid.length height pos)
        (s.after (built hash vTxid vMatch height pos) (vTxid.getD · default)
          (matchedBelow vTxid.length vMatch height pos)) := by
  induction height with
  | zero =>
    intro pos s bits hashes hpos hbits hhashes
    rw [width_zero] at hpos
    rw [built_leaf] at hbits hhashes ⊢
    have hparent : parentOfMatch vTxid.length vMatch 0 pos = vMatch.getD pos false := by
      rw [parentOfMatch, positionsBelow_zero hpos]
      simp
    rw [hparent] at hbits ⊢
    rw [matchedBelow_leaf vMatch hpos]
    have hbit := getElem?_of_drop hbits
    have hstored := getElem?_of_drop hhashes
    cases hb : vMatch.getD pos false with
    | false =>
      rw [hb] at hbit
      have hrun : Extracts hash t 0 pos s _ _ := .stored hbit hstored
      simpa [Extraction.after, Extraction.nextBit, Extraction.nextHash, node] using hrun
    | true =>
      rw [hb] at hbit
      have hrun : Extracts hash t 0 pos s _ _ := .matched hbit hstored
      simpa [Extraction.after, Extraction.nextBit, Extraction.nextHash, Extraction.found,
        node] using hrun
  | succ height ih =>
    intro pos s bits hashes hpos hbits hhashes
    have hchild : pos * 2 < width vTxid.length height := by
      rw [width_succ] at hpos
      omega
    cases hmatch : parentOfMatch vTxid.length vMatch (height + 1) pos with
    | false =>
      rw [built_stop hmatch] at hbits hhashes ⊢
      rw [matchedBelow_of_not_parent hmatch]
      have hrun : Extracts hash t (height + 1) pos s _ _ :=
        .stored (getElem?_of_drop hbits) (getElem?_of_drop hhashes)
      simpa [Extraction.after, Extraction.nextBit, Extraction.nextHash] using hrun
    | true =>
      by_cases hwidth : pos * 2 + 1 < width vTxid.length height
      · rw [built_both hmatch hwidth] at hbits hhashes ⊢
        rw [cons_append, append_assoc] at hbits
        rw [append_assoc] at hhashes
        have hleft := ih (pos * 2) s.nextBit _ _ hchild (drop_of_drop (l := [_]) hbits) hhashes
        have hne := node_ne hinj (getD_inj_of_nodup hnodup) hwidth hchild (by omega)
        have hrun := Extracts.both (getElem?_of_drop hbits) (by rwa [ht]) hleft
          (ih (pos * 2 + 1) _ _ _ hwidth (drop_of_drop (drop_of_drop (l := [_]) hbits))
            (drop_of_drop hhashes)) hne
        rw [after_after, after_nextBit] at hrun
        rw [matchedBelow_succ, node, mul_comm 2 pos, if_pos hwidth]
        exact hrun
      · rw [built_single hmatch hwidth] at hbits hhashes ⊢
        have hleft := ih (pos * 2) s.nextBit _ _ hchild (drop_of_drop (l := [_]) hbits) hhashes
        have hrun := Extracts.single (getElem?_of_drop hbits) (by rwa [ht]) hleft
        rw [after_nextBit] at hrun
        rw [matchedBelow_single hwidth, node, mul_comm 2 pos, if_neg hwidth]
        exact hrun

/-! ## The round trip -/

end Building

/-- **Round trip of partial Merkle trees.** A tree built over distinct transaction ids, sent and
read back, yields the Merkle root of the ids and the matched ones with their positions, in order. -/
theorem extractMatches_ofTxids (hinj : Function.Injective2 hash) (vTxid : List H)
    (vMatch : List Bool) (vnIndex : List ℕ) (hne : vTxid ≠ []) (hnodup : vTxid.Nodup)
    (hlimit : vTxid.length ≤ MAX_BLOCK_WEIGHT / MIN_TRANSACTION_WEIGHT)
    (_hmask : vMatch.length = vTxid.length) :
    extractMatches hash (PartialMerkleTree.ofTxids hash vTxid vMatch).overWire vnIndex = some {
        root := (computeMerkleRoot hash vTxid false).1
        vMatch := ((List.range vTxid.length).filter fun p => vMatch.getD p false).map
          (vTxid.getD · default)
        vnIndex := vnIndex ++ (List.range vTxid.length).filter fun p => vMatch.getD p false } := by
  have hpos : 0 < vTxid.length := length_pos_iff.2 hne
  have hroot : 0 < width vTxid.length (treeHeight vTxid.length) := lt_width_iff.2 (by omega)
  set stored := built hash vTxid vMatch (treeHeight vTxid.length) 0 with hbuilt
  set pad := List.replicate ((stored.1.length + 7) / 8 * 8 - stored.1.length) false with hpad
  have htree : (PartialMerkleTree.ofTxids hash vTxid vMatch).overWire =
      ⟨vTxid.length, stored.1 ++ pad, stored.2, false⟩ :=
    congrArg (PartialMerkleTree.mk vTxid.length · stored.2 false) (bytesToBits_bitsToBytes stored.1)
  have hcount := length_built hash vTxid vMatch (treeHeight vTxid.length) 0 hroot
  rw [positionsBelow_root, length_range, ← hbuilt] at hcount
  have hrun := traverseAndExtract_of_extracts (extracts_built hinj hnodup vMatch
    (t := ⟨vTxid.length, stored.1 ++ pad, stored.2, false⟩) rfl (treeHeight vTxid.length) 0
    ⟨0, 0, [], vnIndex, false⟩ pad [] hroot rfl (append_nil _).symm)
  rw [← hbuilt] at hrun
  have hbits : (stored.1 ++ pad).length = (stored.1.length + 7) / 8 * 8 := by
    rw [length_append, hpad, length_replicate]
    omega
  rw [htree, extractMatches, if_neg (by simpa using hne), if_neg (by simpa using hlimit),
    if_neg (by simpa using hcount.2), if_neg (by simp only [hbits]; omega), hrun, Option.map_some,
    checkConsumed, if_neg (by simp [Extraction.after]),
    if_neg (by simp only [Extraction.after, hbits]; omega), if_neg (by simp [Extraction.after]),
    computeMerkleRoot_eq, recursiveRoot, if_neg hne, ← treeHeight_eq]
  simp only [Extraction.after, nil_append, matchedBelow, positionsBelow_root]

/-- Three transactions, of which the last two are matched. -/
theorem extractMatches_ofTxids_three : extractMatches Term.pair
      (PartialMerkleTree.ofTxids Term.pair [.leaf 1, .leaf 2, .leaf 3] [false, true, true]).overWire
      [] = some {
        root := (computeMerkleRoot Term.pair [.leaf 1, .leaf 2, .leaf 3] false).1
        vMatch := ((List.range 3).filter fun p => [false, true, true].getD p false).map
          ([Term.leaf 1, Term.leaf 2, Term.leaf 3].getD · default)
        vnIndex := [] ++ (List.range 3).filter fun p => [false, true, true].getD p false } :=
  extractMatches_ofTxids Term.pair_injective2 [.leaf 1, .leaf 2, .leaf 3] [false, true, true] []
    (by decide) (by decide) (by decide) rfl

end Bitcoin.Merkle
