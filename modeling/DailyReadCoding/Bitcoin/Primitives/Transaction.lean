import Mathlib.Data.Nat.Notation

/-!
# Transactions

`primitives/transaction.h`: the fields of a transaction, with the integers at the width the source
gives them. Witnesses are not among them.
-/

namespace Bitcoin

abbrev Bytes : Type := List (BitVec 8)

/-- A hash is opaque, and is 32 bytes where it is written out. -/
structure Uint256 where
  bytes : Bytes
  size_eq : bytes.length = 32
  deriving DecidableEq

theorem length_zeros : (List.replicate 32 0 : Bytes).length = 32 := rfl

/-- The bytes of a script. -/
abbrev CScript : Type := Bytes

/-- The longest script that is run, in bytes. -/
def MAX_SCRIPT_SIZE : ℕ := 10000

structure COutPoint where
  hash : Uint256
  n : BitVec 32
  deriving DecidableEq

structure CTxIn where
  prevout : COutPoint
  scriptSig : CScript
  nSequence : BitVec 32
  deriving DecidableEq

structure CTxOut where
  /-- A `CAmount` is signed. -/
  nValue : BitVec 64
  scriptPubKey : CScript
  deriving DecidableEq

/-- `CTxOut()`, and what `SetNull` leaves. -/
def CTxOut.null : CTxOut := ⟨-1, []⟩

structure CTransaction where
  /-- The version is signed in the source and cast wherever it is compared. -/
  nVersion : BitVec 32
  vin : List CTxIn
  vout : List CTxOut
  nLockTime : BitVec 32
  deriving DecidableEq

/-! ## What a sequence number means -/

def SEQUENCE_FINAL : BitVec 32 := 0xffffffff#32
def SEQUENCE_LOCKTIME_DISABLE_FLAG : BitVec 32 := 1#32 <<< 31
def SEQUENCE_LOCKTIME_TYPE_FLAG : BitVec 32 := 1#32 <<< 22
def SEQUENCE_LOCKTIME_MASK : BitVec 32 := 0x0000ffff#32
def SEQUENCE_LOCKTIME_GRANULARITY : ℕ := 9

end Bitcoin
