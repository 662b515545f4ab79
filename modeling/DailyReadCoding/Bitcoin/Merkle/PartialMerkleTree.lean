import DailyReadCoding.Bitcoin.Merkle.MerkleRoot

/-!
# Partial Merkle trees

`CPartialMerkleTree` (`merkleblock.h`, `merkleblock.cpp`) is a Merkle tree cut off above the
subtrees that hold no matched transaction. `TraverseAndBuild` walks the tree depth first and stores
one bit for each node it visits and one hash for each node at which it stops; `TraverseAndExtract`
makes the same walk over bits and hashes that may come from anyone.
-/

namespace Bitcoin.Merkle

open HashTree Option

variable {H : Type*} [DecidableEq H] [Inhabited H] (hash : H → H → H)

def MAX_BLOCK_WEIGHT : ℕ := 4000000

/-- `MIN_TRANSACTION_WEIGHT`, which is `WITNESS_SCALE_FACTOR * 60` -/
def MIN_TRANSACTION_WEIGHT : ℕ := 4 * 60

/-- The fields of `CPartialMerkleTree`. -/
structure PartialMerkleTree (H : Type*) where
  nTransactions : ℕ
  vBits : List Bool
  vHash : List H
  fBad : Bool
  deriving DecidableEq, Repr

/-! ## Building -/

/-- `CalcTreeWidth` for a number of transactions -/
def calcTreeWidth (nTransactions height : ℕ) : ℕ := (nTransactions + (1 <<< height) - 1) >>> height

lemma calcTreeWidth_eq (nTransactions height : ℕ) :
    calcTreeWidth nTransactions height = width nTransactions height := by
  rw [calcTreeWidth, width, Nat.shiftRight_eq_div_pow, Nat.one_shiftLeft]

def calcHash (nTransactions : ℕ) (vTxid : List H) : ℕ → ℕ → H
  | 0, pos => vTxid.getD pos default
  | height + 1, pos =>
    let left := calcHash nTransactions vTxid height (pos * 2)
    let right :=
      if pos * 2 + 1 < calcTreeWidth nTransactions height then
        calcHash nTransactions vTxid height (pos * 2 + 1)
      else left
    hash left right

/-- The positions of the transactions below a node, in the order of the loop of `TraverseAndBuild`.
-/
def positionsBelow (nTransactions height pos : ℕ) : List ℕ :=
  List.range' (pos <<< height) (min ((pos + 1) <<< height) nTransactions - pos <<< height)

/-- Is the node the parent of a matched transaction? -/
def parentOfMatch (nTransactions : ℕ) (vMatch : List Bool) (height pos : ℕ) : Bool :=
  (positionsBelow nTransactions height pos).any fun p => vMatch.getD p false

/-- `TraverseAndBuild`, on the bits and hashes stored so far -/
def traverseAndBuild (nTransactions : ℕ) (vTxid : List H) (vMatch : List Bool) :
    ℕ → ℕ → List Bool × List H → List Bool × List H
  | 0, pos, (vBits, vHash) =>
    (vBits ++ [parentOfMatch nTransactions vMatch 0 pos],
      vHash ++ [calcHash hash nTransactions vTxid 0 pos])
  | height + 1, pos, (vBits, vHash) =>
    if parentOfMatch nTransactions vMatch (height + 1) pos then
      let stored := traverseAndBuild nTransactions vTxid vMatch height (pos * 2)
        (vBits ++ [true], vHash)
      if pos * 2 + 1 < calcTreeWidth nTransactions height then
        traverseAndBuild nTransactions vTxid vMatch height (pos * 2 + 1) stored
      else stored
    else
      (vBits ++ [false], vHash ++ [calcHash hash nTransactions vTxid (height + 1) pos])

/-- The loop that finds the height of the tree, from `nHeight` on. -/
def treeHeightFrom (nTransactions nHeight : ℕ) : ℕ :=
  if calcTreeWidth nTransactions nHeight > 1 then treeHeightFrom nTransactions (nHeight + 1)
  else nHeight
termination_by calcTreeWidth nTransactions nHeight
decreasing_by
  simp only [calcTreeWidth_eq, width_succ] at *
  omega

/-- The height of the tree. -/
def treeHeight (nTransactions : ℕ) : ℕ := treeHeightFrom nTransactions 0

lemma treeHeight_eq (nTransactions : ℕ) : treeHeight nTransactions
    = heightFrom nTransactions 0 := by
  rw [treeHeight]
  induction (0 : ℕ) using heightFrom.induct (n := nTransactions) with
  | case1 h hlt ih => rw [treeHeightFrom, heightFrom, calcTreeWidth_eq, if_pos hlt, if_pos hlt, ih]
  | case2 h hle => rw [treeHeightFrom, heightFrom, calcTreeWidth_eq, if_neg hle, if_neg hle]

/-- The constructor from a list of transaction ids and a mask. -/
def PartialMerkleTree.ofTxids (vTxid : List H) (vMatch : List Bool) : PartialMerkleTree H :=
  let stored := traverseAndBuild hash vTxid.length vTxid vMatch (treeHeight vTxid.length) 0 ([], [])
  { nTransactions := vTxid.length, vBits := stored.1, vHash := stored.2, fBad := false }

/-! ## Extracting -/

/-- What `TraverseAndExtract` changes: its reference arguments and the `fBad` of the tree. -/
structure Extraction (H : Type*) where
  nBitsUsed : ℕ
  nHashUsed : ℕ
  vMatch : List H
  vnIndex : List ℕ
  fBad : Bool
  deriving DecidableEq, Repr

namespace Extraction

variable {H : Type*}

/-- `nBitsUsed++` -/
def nextBit (s : Extraction H) : Extraction H := { s with nBitsUsed := s.nBitsUsed + 1 }

/-- `nHashUsed++` -/
def nextHash (s : Extraction H) : Extraction H := { s with nHashUsed := s.nHashUsed + 1 }

/-- A matched transaction id, and its position. -/
def found (s : Extraction H) (txid : H) (pos : ℕ) : Extraction H :=
  { s with vMatch := s.vMatch ++ [txid], vnIndex := s.vnIndex ++ [pos] }

/-- `fBad = true` -/
def bad (s : Extraction H) : Extraction H := { s with fBad := true }

end Extraction

/-- The branch of `TraverseAndExtract` that uses a stored hash. -/
def useStoredHash (vHash : List H) (height pos : ℕ) (fParentOfMatch : Bool) (s : Extraction H) :
    Option (H × Extraction H) :=
  if s.nHashUsed ≥ vHash.length then some (default, s.bad)
  else
    vHash[s.nHashUsed]?.map fun stored =>
      (stored, if height = 0 ∧ fParentOfMatch = true then s.nextHash.found stored pos
      else s.nextHash)

def traverseAndExtract (t : PartialMerkleTree H) :
    ℕ → ℕ → Extraction H → Option (H × Extraction H)
  | 0, pos, s =>
    if s.nBitsUsed ≥ t.vBits.length then some (default, s.bad)
    else
      t.vBits[s.nBitsUsed]?.bind fun fParentOfMatch =>
        useStoredHash t.vHash 0 pos fParentOfMatch s.nextBit
  | height + 1, pos, s =>
    if s.nBitsUsed ≥ t.vBits.length then some (default, s.bad)
    else
      t.vBits[s.nBitsUsed]?.bind fun fParentOfMatch =>
        if fParentOfMatch = false then
          useStoredHash t.vHash (height + 1) pos fParentOfMatch s.nextBit
        else
          (traverseAndExtract t height (pos * 2) s.nextBit).bind fun l =>
            if pos * 2 + 1 < calcTreeWidth t.nTransactions height then
              (traverseAndExtract t height (pos * 2 + 1) l.2).bind fun r =>
                some (hash l.1 r.1, if r.1 = l.1 then r.2.bad else r.2)
            else some (hash l.1 l.1, l.2)

/-- What a caller of `ExtractMatches` sees: the root and the two vectors. -/
structure Matches (H : Type*) where
  root : H
  vMatch : List H
  vnIndex : List ℕ
  deriving DecidableEq, Repr

/-- The checks of `ExtractMatches` after the traversal: nothing bad, all hashes and all bits but the
padding used. -/
def checkConsumed (t : PartialMerkleTree H) (root : H) (s : Extraction H) : Matches H :=
  if s.fBad then ⟨default, s.vMatch, s.vnIndex⟩
  else if (s.nBitsUsed + 7) / 8 ≠ (t.vBits.length + 7) / 8 then ⟨default, s.vMatch, s.vnIndex⟩
  else if s.nHashUsed ≠ t.vHash.length then ⟨default, s.vMatch, s.vnIndex⟩
  else ⟨root, s.vMatch, s.vnIndex⟩

/-- It clears `vMatch` but appends to the `vnIndex` it is given. -/
def extractMatches (t : PartialMerkleTree H) (vnIndex : List ℕ) : Option (Matches H) :=
  if t.nTransactions = 0 then some ⟨default, [], vnIndex⟩
  else if t.nTransactions > MAX_BLOCK_WEIGHT / MIN_TRANSACTION_WEIGHT then
    some ⟨default, [], vnIndex⟩
  else if t.vHash.length > t.nTransactions then some ⟨default, [], vnIndex⟩
  else if t.vBits.length < t.vHash.length then some ⟨default, [], vnIndex⟩
  else
    (traverseAndExtract hash t (treeHeight t.nTransactions) 0 ⟨0, 0, [], vnIndex, t.fBad⟩).map
      fun r => checkConsumed t r.1 r.2

/-! ## On the wire -/

def bitsToBytes (bits : List Bool) : List (BitVec 8) :=
  (List.range bits.length).foldl
    (fun ret p =>
      ret.modify (p / 8) (· ||| (BitVec.ofBool (bits.getD p false)).setWidth 8 <<< (p % 8)))
    (List.replicate ((bits.length + 7) / 8) 0#8)

def bytesToBits (bytes : List (BitVec 8)) : List Bool :=
  (List.range (bytes.length * 8)).map fun p =>
    bytes.getD (p / 8) 0#8 &&& (1#8 <<< (p % 8)) != 0#8

/-- A tree after it was written and read: the bits have gone through bytes, and `fBad` is cleared.
-/
def PartialMerkleTree.overWire (t : PartialMerkleTree H) : PartialMerkleTree H :=
  { t with vBits := bytesToBits (bitsToBytes t.vBits), fBad := false }

/-! ## Runs of the extractor -/

variable {hash}

/-- A run of `TraverseAndExtract` over one node that finds nothing bad. -/
inductive Extracts (hash : H → H → H) (t : PartialMerkleTree H) :
    ℕ → ℕ → Extraction H → H → Extraction H → Prop
  | matched {pos : ℕ} {s : Extraction H} {x : H} (hbit : t.vBits[s.nBitsUsed]? = some true)
      (hstored : t.vHash[s.nHashUsed]? = some x) :
      Extracts hash t 0 pos s x (s.nextBit.nextHash.found x pos)
  | stored {height pos : ℕ} {s : Extraction H} {x : H} (hbit : t.vBits[s.nBitsUsed]? = some false)
      (hstored : t.vHash[s.nHashUsed]? = some x) :
      Extracts hash t height pos s x s.nextBit.nextHash
  | single {height pos : ℕ} {s s' : Extraction H} {left : H}
      (hbit : t.vBits[s.nBitsUsed]? = some true)
      (hwidth : ¬ pos * 2 + 1 < width t.nTransactions height)
      (hleft : Extracts hash t height (pos * 2) s.nextBit left s') :
      Extracts hash t (height + 1) pos s (hash left left) s'
  | both {height pos : ℕ} {s s' s'' : Extraction H} {left right : H}
      (hbit : t.vBits[s.nBitsUsed]? = some true)
      (hwidth : pos * 2 + 1 < width t.nTransactions height)
      (hleft : Extracts hash t height (pos * 2) s.nextBit left s')
      (hright : Extracts hash t height (pos * 2 + 1) s' right s'') (hne : right ≠ left) :
      Extracts hash t (height + 1) pos s (hash left right) s''

omit [DecidableEq H] in
lemma useStoredHash_of_getElem? {vHash : List H} {height pos : ℕ} {b : Bool} {s : Extraction H}
    {x : H} (hx : vHash[s.nHashUsed]? = some x) : useStoredHash vHash height pos b s =
      some (x, if height = 0 ∧ b = true then s.nextHash.found x pos else s.nextHash) := by
  have hlt := (List.getElem?_eq_some_iff.1 hx).1
  rw [useStoredHash, if_neg (by omega), hx, map_some]

omit [DecidableEq H] in
/-- The stored-hash branch runs into the end of the hashes, or takes one of them. -/
lemma useStoredHash_cases (vHash : List H) (height pos : ℕ) (b : Bool) (s : Extraction H) :
    useStoredHash vHash height pos b s = some (default, s.bad) ∨
      ∃ x, vHash[s.nHashUsed]? = some x ∧ useStoredHash vHash height pos b s =
        some (x, if height = 0 ∧ b = true then s.nextHash.found x pos else s.nextHash) := by
  by_cases hused : s.nHashUsed ≥ vHash.length
  · exact .inl (by rw [useStoredHash, if_pos hused])
  · have hx : vHash[s.nHashUsed]? = some vHash[s.nHashUsed] := List.getElem?_eq_getElem (by omega)
    exact .inr ⟨_, hx, useStoredHash_of_getElem? hx⟩

lemma traverseAndExtract_of_extracts {t : PartialMerkleTree H} {height pos : ℕ}
    {s s' : Extraction H} {x : H} (hrun : Extracts hash t height pos s x s') :
    traverseAndExtract hash t height pos s = some (x, s') := by
  have hused : ∀ {i : ℕ} {b : Bool}, t.vBits[i]? = some b → ¬ i ≥ t.vBits.length := by
    intro i b hbit
    have hlt := (List.getElem?_eq_some_iff.1 hbit).1
    omega
  induction hrun with
  | @matched pos s x hbit hstored =>
    rw [traverseAndExtract, if_neg (hused hbit), hbit, bind_some,
      useStoredHash_of_getElem? (s := s.nextBit) hstored, if_pos ⟨rfl, rfl⟩]
  | @stored height pos s x hbit hstored =>
    cases height with
    | zero =>
      rw [traverseAndExtract, if_neg (hused hbit), hbit, bind_some,
        useStoredHash_of_getElem? (s := s.nextBit) hstored, if_neg (by simp)]
    | succ height =>
      rw [traverseAndExtract, if_neg (hused hbit), hbit, bind_some, if_pos rfl,
        useStoredHash_of_getElem? (s := s.nextBit) hstored, if_neg (by simp)]
  | single hbit hwidth _ ih =>
    rw [traverseAndExtract, if_neg (hused hbit), hbit, bind_some, if_neg (by simp), ih,
      bind_some, calcTreeWidth_eq, if_neg hwidth]
  | both hbit hwidth _ _ hne ihleft ihright =>
    rw [traverseAndExtract, if_neg (hused hbit), hbit, bind_some, if_neg (by simp), ihleft,
      bind_some, calcTreeWidth_eq, if_pos hwidth, ihright, bind_some, if_neg hne]

end Bitcoin.Merkle
