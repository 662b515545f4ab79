import Mathlib.Data.List.Basic
import DailyReadCoding.Bitcoin.Primitives.Transaction

/-!
# Serialization

`serialize.h` and `primitives/transaction.h`: the bytes that are written for a transaction without
witness.
-/

namespace Bitcoin

/-- `ser_writedata8`, `16`, `32`, `64`: the low bytes of a number, lowest first. -/
def writeLE : ℕ → ℕ → Bytes
  | 0, _ => []
  | width + 1, n => BitVec.ofNat 8 n :: writeLE width (n / 256)

def writeCompactSize (nSize : ℕ) : Bytes :=
  if nSize < 253 then writeLE 1 nSize
  else if nSize ≤ 0xffff then 253 :: writeLE 2 nSize
  else if nSize ≤ 0xffffffff then 254 :: writeLE 4 nSize
  else 255 :: writeLE 8 nSize

/-- A vector: its size, and its elements one behind the other. -/
def serializeVector {α : Type} (serialize : α → Bytes) (v : List α) : Bytes :=
  writeCompactSize v.length ++ v.flatMap serialize

def serializeScript (script : CScript) : Bytes := writeCompactSize script.length ++ script

def COutPoint.serialize (prevout : COutPoint) : Bytes :=
    prevout.hash.bytes ++ writeLE 4 prevout.n.toNat

def CTxIn.serialize (txin : CTxIn) : Bytes :=
  txin.prevout.serialize ++ serializeScript txin.scriptSig ++ writeLE 4 txin.nSequence.toNat

def CTxOut.serialize (txout : CTxOut) : Bytes :=
  writeLE 8 txout.nValue.toNat ++ serializeScript txout.scriptPubKey

/-- `SerializeTransaction` with `SERIALIZE_TRANSACTION_NO_WITNESS` -/
def CTransaction.serialize (tx : CTransaction) : Bytes :=
  writeLE 4 tx.nVersion.toNat ++ serializeVector CTxIn.serialize tx.vin ++
    serializeVector CTxOut.serialize tx.vout ++ writeLE 4 tx.nLockTime.toNat

end Bitcoin
