import Mathlib
import DailyReadCoding.Bitcoin.Chain.BlockIndex
import DailyReadCoding.Bitcoin.Primitives.Transaction

/-!
# Lock times

The two lock-time opcodes promise that a transaction is not in a block before some height or time.
The promise is kept by two parts of the program: the checks of the interpreter compare the operand
with a field of the transaction (`CheckLockTime`, `CheckSequence`), and the rules for blocks hold
the field against the block (`IsFinalTx`, `SequenceLocks` in `consensus/tx_verify.cpp`).
-/

namespace Bitcoin.Consensus

open Chain Nat BitVec Exec

variable {B : Type}

def LOCKTIME_THRESHOLD : ℕ := 500000000

def LOCKTIME_VERIFY_SEQUENCE : BitVec 32 := 1#32 <<< 0

/-! ## The checks of the interpreter -/

def checkLockTime (txTo : CTransaction) (nIn : ℕ) (nLockTime : ℤ) : Except Fault Bool :=
  if ¬ ((txTo.nLockTime.toNat < LOCKTIME_THRESHOLD ∧ nLockTime < LOCKTIME_THRESHOLD) ∨
      (txTo.nLockTime.toNat ≥ LOCKTIME_THRESHOLD ∧ nLockTime ≥ LOCKTIME_THRESHOLD)) then .ok false
  else if nLockTime > txTo.nLockTime.toNat then .ok false
  else
    match txTo.vin[nIn]? with
    | none => .error .outOfRange
    | some txin => .ok (decide (txin.nSequence ≠ SEQUENCE_FINAL))

/-- The bits of a sequence number that count. -/
def nLockTimeMask : BitVec 32 := SEQUENCE_LOCKTIME_TYPE_FLAG ||| SEQUENCE_LOCKTIME_MASK

/-- A sequence number under the mask.  Script numbers have 64 bits. -/
def masked (nSequence : ℤ) : ℕ := (BitVec.ofInt 64 nSequence &&& nLockTimeMask.setWidth 64).toNat

def checkSequence (txTo : CTransaction) (nIn : ℕ) (nSequence : ℤ) : Except Fault Bool :=
  match txTo.vin[nIn]? with
  | none => .error .outOfRange
  | some txin =>
    let txToSequence := txin.nSequence
    if txTo.nVersion.toNat < 2 then .ok false
    else if txToSequence &&& SEQUENCE_LOCKTIME_DISABLE_FLAG ≠ 0 then .ok false
    else
      let txToSequenceMasked := masked txToSequence.toNat
      let nSequenceMasked := masked nSequence
      let flag := SEQUENCE_LOCKTIME_TYPE_FLAG.toNat
      if ¬ ((txToSequenceMasked < flag ∧ nSequenceMasked < flag) ∨
          (txToSequenceMasked ≥ flag ∧ nSequenceMasked ≥ flag)) then .ok false
      else .ok (decide (nSequenceMasked ≤ txToSequenceMasked))

/-! ## The rules for blocks -/

def isFinalTx (tx : CTransaction) (nBlockHeight nBlockTime : ℤ) : Bool :=
  if tx.nLockTime = 0 then true
  else if (tx.nLockTime.toNat : ℤ) <
      (if tx.nLockTime.toNat < LOCKTIME_THRESHOLD then nBlockHeight else nBlockTime) then true
  else tx.vin.all fun txin => txin.nSequence = SEQUENCE_FINAL

def nMedianTimeSpan : ℕ := 11

/-- The times `GetMedianTimePast` collects, from the block itself backwards. -/
def pastTimes (index : BlockMap B) (nTime : B → BitVec 32) : ℕ → Option B → Except Fault (List ℤ)
  | 0, _ => .ok []
  | _ + 1, none => .ok []
  | i + 1, some pindex =>
    match index pindex with
    | none => .error .null
    | some node => do
        let times ← pastTimes index nTime i node.pprev
        return (nTime pindex).toNat :: times

def getMedianTimePast (index : BlockMap B) (nTime : B → BitVec 32) (b : B) : Except Fault ℤ := do
  let pmedian := (← pastTimes index nTime nMedianTimeSpan (some b)).insertionSort (· ≤ ·)
  match pmedian[pmedian.length / 2]? with
  | none => .error .outOfRange
  | some time => return time

/-- What can go wrong while locks are computed. -/
inductive LockFault
  /-- A block, an entry or an assertion. -/
  | fault (f : Fault)
  /-- An `int` that leaves its range. -/
  | overflow
  deriving DecidableEq

/-- The result of an operation on `int`. -/
def int (n : ℤ) : Except LockFault ℤ :=
  if -2 ^ 31 ≤ n ∧ n < 2 ^ 31 then .ok n else .error .overflow

section Locks

variable (index : BlockMap B) (nTime : B → BitVec 32) (block : B)

/-- The median time past before the block that holds a coin. -/
def coinTime (nCoinHeight : ℤ) : Except LockFault ℤ := do
  let before ← int (nCoinHeight - 1)
  match ← (getAncestor index block (max before 0)).mapError .fault with
  | none => .error (.fault .null)
  | some ancestor => (getMedianTimePast index nTime ancestor).mapError .fault

/-- One round of `CalculateSequenceLocks`: the height of the coin, and the pair of locks. -/
def inputLock (txin : CTxIn) (nCoinHeight : ℤ) (lock : ℤ × ℤ) : Except LockFault (ℤ × (ℤ × ℤ)) :=
  let span := (txin.nSequence &&& SEQUENCE_LOCKTIME_MASK).toNat
  if txin.nSequence &&& SEQUENCE_LOCKTIME_DISABLE_FLAG ≠ 0 then .ok (0, lock)
  else if txin.nSequence &&& SEQUENCE_LOCKTIME_TYPE_FLAG ≠ 0 then do
    let nCoinTime ← coinTime index nTime block nCoinHeight
    return (nCoinHeight, lock.1,
      max lock.2 (nCoinTime + (span <<< SEQUENCE_LOCKTIME_GRANULARITY : ℕ) - 1))
  else do
    let sum ← int (nCoinHeight + span)
    let last ← int (sum - 1)
    return (nCoinHeight, max lock.1 last, lock.2)

/-- The loop of `CalculateSequenceLocks`. -/
def sequenceLocksLoop : List CTxIn → List ℤ → ℤ × ℤ → Except LockFault (List ℤ × (ℤ × ℤ))
  | [], prevHeights, lock => .ok (prevHeights, lock)
  | _ :: _, [], _ => .error (.fault .outOfRange)
  | txin :: vin, nCoinHeight :: prevHeights, lock => do
      let (height, lock) ← inputLock index nTime block txin nCoinHeight lock
      let (heights, lock) ← sequenceLocksLoop vin prevHeights lock
      return (height :: heights, lock)

/-- `CalculateSequenceLocks`, with the heights it leaves behind. -/
def calculateSequenceLocks (tx : CTransaction) (flags : BitVec 32) (prevHeights : List ℤ) :
    Except LockFault (List ℤ × (ℤ × ℤ)) :=
  if prevHeights.length ≠ tx.vin.length then .error (.fault .assert)
  else if tx.nVersion.toNat ≥ 2 ∧ flags &&& LOCKTIME_VERIFY_SEQUENCE ≠ 0 then
    sequenceLocksLoop index nTime block tx.vin prevHeights (-1, -1)
  else .ok (prevHeights, -1, -1)

def evaluateSequenceLocks (lockPair : ℤ × ℤ) : Except LockFault Bool :=
  match index block with
  | none => .error (.fault .null)
  | some node =>
    match node.pprev with
    | none => .error (.fault .assert)
    | some pprev => do
        let nBlockTime ← (getMedianTimePast index nTime pprev).mapError .fault
        return !(decide (lockPair.1 ≥ node.nHeight) || decide (lockPair.2 ≥ nBlockTime))

/-- `SequenceLocks`, with the heights `CalculateSequenceLocks` leaves behind. -/
def sequenceLocks (tx : CTransaction) (flags : BitVec 32) (prevHeights : List ℤ) :
    Except LockFault (Bool × List ℤ) := do
  let (heights, lockPair) ← calculateSequenceLocks index nTime block tx flags prevHeights
  return (← evaluateSequenceLocks index nTime block lockPair, heights)

end Locks

/-! ## Absolute lock times -/

variable {tx : CTransaction} {n nCoinHeight height : ℤ}

lemma checkLockTime_cases {nIn : ℕ} (h : checkLockTime tx nIn n = .ok true) :
    (tx.nLockTime.toNat < LOCKTIME_THRESHOLD ↔ n < LOCKTIME_THRESHOLD) ∧ n ≤ tx.nLockTime.toNat ∧
      ∃ txin ∈ tx.vin, txin.nSequence ≠ SEQUENCE_FINAL := by
  unfold checkLockTime at h
  split_ifs at h with htype hgreater
  · simp at h
  · split at h
    · cases h
    · rename_i txin htxin
      refine ⟨by omega, by omega, txin, List.mem_of_getElem? htxin, ?_⟩
      simpa using h
  · simp at h

/-- A transaction with an input that is not final can be final by its lock time only. -/
lemma isFinalTx_cases {nBlockHeight nBlockTime : ℤ}
    (h : isFinalTx tx nBlockHeight nBlockTime = true)
    (hopen : ∃ txin ∈ tx.vin, txin.nSequence ≠ SEQUENCE_FINAL) :
    tx.nLockTime.toNat = 0 ∨ (tx.nLockTime.toNat : ℤ) <
      (if tx.nLockTime.toNat < LOCKTIME_THRESHOLD then nBlockHeight else nBlockTime) := by
  by_cases hzero : tx.nLockTime = 0
  · left
    rw [hzero]
    rfl
  · right
    by_contra hlate
    rw [isFinalTx, if_neg hzero, if_neg hlate] at h
    obtain ⟨txin, hmem, hne⟩ := hopen
    simp only [List.all_eq_true, decide_eq_true_eq] at h
    exact hne (h txin hmem)

/-! ## Sequence numbers -/

/-- The mask keeps the type bit and the low 16 bits. -/
lemma and_locktimeMask (x : ℕ) : x &&& 0x40ffff = 2 ^ 22 * (x / 2 ^ 22 % 2) + x % 2 ^ 16 := by
  have hlow : x &&& 0xffff = x % 2 ^ 16 := and_two_pow_sub_one_eq_mod x 16
  have hbit : x &&& 2 ^ 22 = 2 ^ 22 * (x / 2 ^ 22 % 2) := by
    rw [and_two_pow, toNat_testBit, Nat.mul_comm]
  have hsplit : x &&& 0x40ffff = (x &&& 2 ^ 22) ||| (x &&& 0xffff) :=
    and_or_distrib_left x (2 ^ 22) 0xffff
  rw [hsplit, hbit, hlow]
  exact (two_pow_add_eq_or_of_lt (by omega) _).symm

lemma masked_eq (n : ℕ) : masked n = 2 ^ 22 * (n / 2 ^ 22 % 2) + n % 2 ^ 16 := by
  have hmask : (nLockTimeMask.setWidth 64).toNat = 0x40ffff := rfl
  have hn : (BitVec.ofInt 64 n).toNat = n % 2 ^ 64 := by rw [ofInt_natCast, toNat_ofNat]
  rw [masked, toNat_and, hmask, and_locktimeMask]
  omega

lemma and_mask_toNat (s : BitVec 32) : (s &&& SEQUENCE_LOCKTIME_MASK).toNat = s.toNat % 2 ^ 16 := by
  exact and_two_pow_sub_one_eq_mod s.toNat 16

lemma and_typeFlag (s : BitVec 32) :
    s &&& SEQUENCE_LOCKTIME_TYPE_FLAG ≠ 0 ↔ s.toNat / 2 ^ 22 % 2 = 1 := by
  have hflag : SEQUENCE_LOCKTIME_TYPE_FLAG.toNat = 2 ^ 22 := rfl
  rw [Ne, ← toNat_inj, toNat_and, hflag, and_two_pow, toNat_testBit]
  simp

lemma checkSequence_cases {nIn n : ℕ} (h : checkSequence tx nIn n = .ok true) :
    ∃ txin, tx.vin[nIn]? = some txin ∧ 2 ≤ tx.nVersion.toNat ∧
      txin.nSequence &&& SEQUENCE_LOCKTIME_DISABLE_FLAG = 0 ∧
      txin.nSequence.toNat / 2 ^ 22 % 2 = n / 2 ^ 22 % 2 ∧
      n % 2 ^ 16 ≤ txin.nSequence.toNat % 2 ^ 16 := by
  unfold checkSequence at h
  split at h
  · cases h
  · rename_i txin htxin
    have hflag : SEQUENCE_LOCKTIME_TYPE_FLAG.toNat = 2 ^ 22 := rfl
    simp only [masked_eq] at h
    split_ifs at h with hversion hdisabled htype
    · simp at h
    · simp at h
    · have hle := of_decide_eq_true (Except.ok.inj h)
      exact ⟨txin, htxin, by omega, not_not.mp hdisabled, by omega, by omega⟩
    · simp at h

/-! ## Relative lock times -/

variable {lock lock' : ℤ × ℤ}

section Bounds

variable {index : BlockMap B} {nTime : B → BitVec 32} {block : B} {txin : CTxIn}

/-- The locks cover an input: what its sequence number asks for comes no later than they do. -/
def UnderLock (index : BlockMap B) (nTime : B → BitVec 32) (block : B) (txin : CTxIn)
    (nCoinHeight : ℤ)
    (lock : ℤ × ℤ) : Prop :=
  txin.nSequence &&& SEQUENCE_LOCKTIME_DISABLE_FLAG = 0 →
    (txin.nSequence.toNat / 2 ^ 22 % 2 = 0 →
      nCoinHeight + (txin.nSequence.toNat % 2 ^ 16 : ℕ) - 1 ≤ lock.1) ∧
    (txin.nSequence.toNat / 2 ^ 22 % 2 = 1 → ∃ nCoinTime,
    coinTime index nTime block nCoinHeight = .ok nCoinTime ∧
      nCoinTime + 512 * (txin.nSequence.toNat % 2 ^ 16 : ℕ) - 1 ≤ lock.2)

lemma UnderLock.mono (h : UnderLock index nTime block txin nCoinHeight lock) (hle : lock ≤ lock') :
    UnderLock index nTime block txin nCoinHeight lock' := by
  intro henabled
  obtain ⟨hheight, htime⟩ := h henabled
  refine ⟨fun hbit => (hheight hbit).trans hle.1, ?_⟩
  intro hbit
  obtain ⟨nCoinTime, hcoin, hbound⟩ := htime hbit
  exact ⟨nCoinTime, hcoin, hbound.trans hle.2⟩

lemma mapError_eq_ok {α : Type} {x : Except Fault α} {a : α}
    (h : x.mapError LockFault.fault = .ok a) : x = .ok a := by
  cases x with
  | error f => cases h
  | ok b => exact congrArg Except.ok (Except.ok.inj h)

lemma int_eq_ok {m : ℤ} (h : int n = .ok m) : m = n := by
  unfold int at h
  split_ifs at h
  exact (Except.ok.inj h).symm

/-- One input, and then every input, is under the locks that `CalculateSequenceLocks` returns. -/
lemma inputLock_bounds
    (h : inputLock index nTime block txin nCoinHeight lock = .ok (height, lock')) :
    lock ≤ lock' ∧ UnderLock index nTime block txin nCoinHeight lock' := by
  unfold inputLock at h
  simp only [and_mask_toNat, and_typeFlag] at h
  split_ifs at h with hdisabled htype
  · obtain ⟨-, rfl⟩ := Prod.mk.inj (Except.ok.inj h)
    exact ⟨le_rfl, fun henabled => absurd henabled hdisabled⟩
  · obtain ⟨nCoinTime, hcoin, hret⟩ := bind_eq_ok.mp h
    obtain ⟨-, rfl⟩ := Prod.mk.inj (Except.ok.inj hret)
    refine ⟨⟨le_rfl, le_max_left _ _⟩, fun _ => ⟨by omega, fun _ => ⟨nCoinTime, hcoin, ?_⟩⟩⟩
    rw [SEQUENCE_LOCKTIME_GRANULARITY]
    omega
  · obtain ⟨sum, hsum, hrest⟩ := bind_eq_ok.mp h
    obtain ⟨last, hlast, hret⟩ := bind_eq_ok.mp hrest
    obtain ⟨-, rfl⟩ := Prod.mk.inj (Except.ok.inj hret)
    obtain rfl := int_eq_ok hsum
    obtain rfl := int_eq_ok hlast
    exact ⟨⟨le_max_left _ _, le_rfl⟩,
      fun _ => ⟨fun _ => le_max_right _ _, fun hbit => absurd hbit htype⟩⟩

lemma sequenceLocksLoop_bounds {vin : List CTxIn} {prevHeights heights : List ℤ}
    (h : sequenceLocksLoop index nTime block vin prevHeights lock = .ok (heights, lock')) :
    lock ≤ lock' ∧ ∀ (i : ℕ) txin nCoinHeight,
    vin[i]? = some txin → prevHeights[i]? = some nCoinHeight →
      UnderLock index nTime block txin nCoinHeight lock' := by
  induction vin generalizing prevHeights heights lock with
  | nil =>
    obtain ⟨-, rfl⟩ := Prod.mk.inj (Except.ok.inj h)
    exact ⟨le_rfl, by simp⟩
  | cons first vin ih =>
    cases prevHeights with
    | nil => cases h
    | cons nCoinHeight prevHeights =>
      obtain ⟨⟨height, mid⟩, hstep, hrest⟩ := bind_eq_ok.mp h
      obtain ⟨⟨others, last⟩, hloop, hret⟩ := bind_eq_ok.mp hrest
      obtain ⟨-, rfl⟩ := Prod.mk.inj (Except.ok.inj hret)
      obtain ⟨hle, hfirst⟩ := inputLock_bounds hstep
      obtain ⟨hle', hothers⟩ := ih hloop
      refine ⟨hle.trans hle', ?_⟩
      intro i txin height' htxin hheight
      cases i with
      | zero =>
        obtain rfl := Option.some.inj htxin
        obtain rfl := Option.some.inj hheight
        exact hfirst.mono hle'
      | succ i => exact hothers i txin height' htxin hheight

/-- The block before the coin's block, as `CalculateSequenceLocks` finds it. -/
lemma coinTime_cases {nCoinTime : ℤ} (h : coinTime index nTime block nCoinHeight = .ok nCoinTime) :
    ∃ before, getAncestor index block (max (nCoinHeight - 1) 0) = .ok (some before) ∧
      getMedianTimePast index nTime before = .ok nCoinTime := by
  obtain ⟨height, hheight, hrest⟩ := bind_eq_ok.mp h
  obtain rfl := int_eq_ok hheight
  obtain ⟨ancestor, hancestor, hmedian⟩ := bind_eq_ok.mp hrest
  cases ancestor with
  | none => cases hmedian
  | some before => exact ⟨before, mapError_eq_ok hancestor, mapError_eq_ok hmedian⟩

lemma getAncestor_height {node : CBlockIndex B} {a : B} (hnode : index block = some node)
    (h : getAncestor index block height = .ok (some a)) : 0 ≤ height ∧ height ≤ node.nHeight := by
  by_contra hout
  rw [getAncestor_outside hnode (by omega)] at h
  cases h

lemma evaluateSequenceLocks_cases {lockPair : ℤ × ℤ}
    (h : evaluateSequenceLocks index nTime block lockPair = .ok true) :
    ∃ node pprev nBlockTime, index block = some node ∧ node.pprev = some pprev ∧
      getMedianTimePast index nTime pprev = .ok nBlockTime ∧
      lockPair.1 < node.nHeight ∧ lockPair.2 < nBlockTime := by
  unfold evaluateSequenceLocks at h
  split at h
  · cases h
  · rename_i node hnode
    split at h
    · cases h
    · rename_i pprev hpprev
      obtain ⟨nBlockTime, htime, hret⟩ := bind_eq_ok.mp h
      have hlate :
        (!(decide (lockPair.1 ≥ node.nHeight) || decide (lockPair.2 ≥ nBlockTime))) = true :=
        Except.ok.inj hret
      simp only [Bool.not_eq_true', Bool.or_eq_false_iff, decide_eq_false_iff_not] at hlate
      exact ⟨node, pprev, nBlockTime, hnode, hpprev, mapError_eq_ok htime, by omega, by omega⟩

/-- A transaction that passes keeps every input under a pair of locks the block has left behind. -/
lemma sequenceLocks_cases {flags : BitVec 32} {prevHeights heights : List ℤ}
    (hversion : 2 ≤ tx.nVersion.toNat) (hflags : flags &&& LOCKTIME_VERIFY_SEQUENCE ≠ 0)
    (h : sequenceLocks index nTime block tx flags prevHeights = .ok (true, heights)) :
    ∃ lockPair, prevHeights.length = tx.vin.length ∧
      evaluateSequenceLocks index nTime block lockPair = .ok true ∧
      ∀ (i : ℕ) txin nCoinHeight, tx.vin[i]? = some txin → prevHeights[i]? = some nCoinHeight →
        UnderLock index nTime block txin nCoinHeight lockPair := by
  obtain ⟨⟨left, lockPair⟩, hcalculate, hrest⟩ := bind_eq_ok.mp h
  obtain ⟨passed, hevaluate, hret⟩ := bind_eq_ok.mp hrest
  obtain ⟨rfl, -⟩ := Prod.mk.inj (Except.ok.inj hret)
  unfold calculateSequenceLocks at hcalculate
  split_ifs at hcalculate with hlength hignored
  · exact ⟨lockPair, not_not.mp hlength, hevaluate, (sequenceLocksLoop_bounds hcalculate).2⟩
  · exact absurd ⟨hversion, hflags⟩ hignored

end Bounds

/-- **The lock-time opcodes keep their promise.** An operand that `CheckLockTime` accepts keeps the
transaction out of every block that is not above it; one that `CheckSequence` accepts keeps it out
of every block that is too close to the coin, counted in blocks or in median time. -/
theorem lockTimes_enforced (tx : CTransaction) (nIn n : ℕ) :
    (checkLockTime tx nIn n = .ok true → ∀ h t : ℤ, isFinalTx tx h t = true →
      (n < LOCKTIME_THRESHOLD → 1 ≤ h → n < h) ∧ (LOCKTIME_THRESHOLD ≤ n → n < t)) ∧
    (checkSequence tx nIn n = .ok true →
      ∀ (index : BlockMap B) (nTime : B → BitVec 32) (block : B) (flags : BitVec 32)
        (prevHeights heights : List ℤ), flags &&& LOCKTIME_VERIFY_SEQUENCE ≠ 0 →
      sequenceLocks index nTime block tx flags prevHeights = .ok (true, heights) →
      ∃ node pprev nBlockTime nCoinHeight, index block = some node ∧ node.pprev = some pprev ∧
        getMedianTimePast index nTime pprev = .ok nBlockTime ∧
        prevHeights[nIn]? = some nCoinHeight ∧
        (n.testBit 22 = false → nCoinHeight + (n % 2 ^ 16 : ℕ) ≤ node.nHeight) ∧
        (n.testBit 22 = true → ∃ before nCoinTime,
          getAncestor index block (max (nCoinHeight - 1) 0) = .ok (some before) ∧
          (WellBuilt index → ParentTree.up index.parent
            (node.nHeight - (max (nCoinHeight - 1) 0).toNat) block = some before) ∧
          getMedianTimePast index nTime before = .ok nCoinTime ∧
          nCoinTime + 512 * (n % 2 ^ 16 : ℕ) ≤ nBlockTime)) := by
  constructor
  · intro hcheck h t hfinal
    obtain ⟨htype, hle, hopen⟩ := checkLockTime_cases hcheck
    have hlock := isFinalTx_cases hfinal hopen
    have hthreshold : LOCKTIME_THRESHOLD = 500000000 := rfl
    split_ifs at hlock <;> omega
  · intro hcheck index nTime block flags prevHeights heights hflags hlocks
    obtain ⟨txin, htxin, hversion, henabled, hsame, hspan⟩ := checkSequence_cases hcheck
    obtain ⟨lockPair, hlength, hevaluate, hunder⟩ := sequenceLocks_cases hversion hflags hlocks
    obtain ⟨node, pprev, nBlockTime, hnode, hpprev, htime, hheight, hlate⟩ :=
      evaluateSequenceLocks_cases hevaluate
    have hin : nIn < prevHeights.length := hlength ▸ (List.getElem?_eq_some_iff.mp htxin).1
    have hcoin : prevHeights[nIn]? = some prevHeights[nIn] := List.getElem?_eq_getElem hin
    obtain ⟨hblocks, hseconds⟩ := hunder nIn txin _ htxin hcoin henabled
    refine ⟨node, pprev, nBlockTime, _, hnode, hpprev, htime, hcoin, ?_, ?_⟩
    · intro hbit
      rw [testBit_eq_decide_div_mod_eq] at hbit
      have hclear := of_decide_eq_false hbit
      omega
    · intro hbit
      rw [testBit_eq_decide_div_mod_eq] at hbit
      have hset := of_decide_eq_true hbit
      obtain ⟨nCoinTime, hcoinTime, hbound⟩ := hseconds (by omega)
      obtain ⟨before, hancestor, hmedian⟩ := coinTime_cases hcoinTime
      refine ⟨before, nCoinTime, hancestor, ?_, hmedian, by omega⟩
      intro hbuilt
      obtain ⟨hlow, hhigh⟩ := getAncestor_height hnode hancestor
      obtain ⟨a, hup, hfound⟩ := getAncestor_eq hbuilt hnode hlow hhigh
      rw [hancestor] at hfound
      rw [hup, Option.some.inj (Except.ok.inj hfound)]

/-- A transaction for blocks above 100, whose input may spend its coin ten blocks later. -/
def afterTenBlocks : CTransaction :=
  { nVersion := 2, vin := [⟨⟨⟨_, length_zeros⟩, 0⟩, [], 10⟩], vout := [], nLockTime := 100 }

/-- Blocks of heights 112 and 113. -/
def twoBlocks : BlockMap ℕ := fun b =>
  if b = 0 then some ⟨none, none, 112⟩ else some ⟨some 0, none, 113⟩

/-- Both opcodes accept the transaction, with a coin of block 103, in a block that is just high
enough. -/
theorem lockTimes_enforced_tenBlocks :
    checkLockTime afterTenBlocks 0 100 = .ok true ∧ isFinalTx afterTenBlocks 113 7 = true ∧
    checkSequence afterTenBlocks 0 10 = .ok true ∧
    sequenceLocks twoBlocks (fun _ => 7) 1 afterTenBlocks LOCKTIME_VERIFY_SEQUENCE [103] =
      .ok (true, [103]) ∧ (∀ h : ℤ, isFinalTx afterTenBlocks h 7 = true → 1 ≤ h → 100 < h) ∧
    ∃ node, twoBlocks 1 = some node ∧ (103 : ℤ) + 10 ≤ node.nHeight := by
  have hlock : checkLockTime afterTenBlocks 0 100 = .ok true := by decide
  have hsequence : checkSequence afterTenBlocks 0 10 = .ok true := by decide
  have hlocks : sequenceLocks twoBlocks (fun _ => 7) 1 afterTenBlocks LOCKTIME_VERIFY_SEQUENCE
      [103] = .ok (true, [103]) := by decide
  obtain ⟨node, _, _, nCoinHeight, hnode, -, -, hcoin, hblocks, -⟩ :=
    (lockTimes_enforced afterTenBlocks 0 10).2 hsequence twoBlocks (fun _ => 7) 1 _ _ _ (by decide)
      hlocks
  obtain rfl : 103 = nCoinHeight := Option.some.inj hcoin
  refine ⟨hlock, by decide, hsequence, hlocks, fun h hfinal hpos => ?_, node, hnode,
    hblocks (by decide)⟩
  exact ((lockTimes_enforced (B := ℕ) afterTenBlocks 0 100).1 hlock h 7 hfinal).1 (by decide) hpos

end Bitcoin.Consensus
