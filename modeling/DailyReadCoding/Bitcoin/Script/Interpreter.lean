import Mathlib.Algebra.Order.Ring.Int
import DailyReadCoding.Bitcoin.Primitives.Serialize
import DailyReadCoding.Bitcoin.Script.Parse
import DailyReadCoding.Lib.Counted

/-!
# The script interpreter

`EvalScript` (`script/interpreter.cpp`), for every opcode. The stack is a list with its top first.
What ends a script is a `Halt`: an error that is set, an exception that the source catches, or a
failed assertion. Signature checks are the work that is counted.
-/

namespace Bitcoin.Script

/-- `SCRIPT_VERIFY_…`; a set of flags says of each whether it is set. -/
inductive VerifyFlag
  | STRICTENC | DERSIG | LOW_S | NULLDUMMY | MINIMALDATA | DISCOURAGE_UPGRADABLE_NOPS
      | CHECKLOCKTIMEVERIFY
  | CHECKSEQUENCEVERIFY | MINIMALIF | NULLFAIL | WITNESS_PUBKEYTYPE | CONST_SCRIPTCODE
  | DISCOURAGE_UPGRADABLE_PUBKEYTYPE
  deriving DecidableEq

inductive SigVersion
  | BASE | WITNESS_V0 | TAPROOT | TAPSCRIPT
  deriving DecidableEq

/-- `SCRIPT_ERR_…` -/
inductive ScriptError
  | UNKNOWN_ERROR | SCRIPT_SIZE | PUSH_SIZE | OP_COUNT | STACK_SIZE | SIG_COUNT | PUBKEY_COUNT
      | VERIFY | EQUALVERIFY
  | CHECKMULTISIGVERIFY | CHECKSIGVERIFY | NUMEQUALVERIFY | OP_RETURN | BAD_OPCODE | DISABLED_OPCODE
  | INVALID_STACK_OPERATION | INVALID_ALTSTACK_OPERATION | UNBALANCED_CONDITIONAL
      | NEGATIVE_LOCKTIME
  | UNSATISFIED_LOCKTIME | SIG_HASHTYPE | SIG_DER | MINIMALDATA | SIG_HIGH_S | SIG_NULLDUMMY
      | PUBKEYTYPE | MINIMALIF
  | SIG_NULLFAIL | DISCOURAGE_UPGRADABLE_NOPS | DISCOURAGE_UPGRADABLE_PUBKEYTYPE
      | WITNESS_PUBKEYTYPE
  | SCHNORR_SIG_SIZE | SCHNORR_SIG_HASHTYPE | SCHNORR_SIG | TAPSCRIPT_VALIDATION_WEIGHT
      | TAPSCRIPT_CHECKMULTISIG
  | TAPSCRIPT_MINIMALIF | OP_CODESEPARATOR | SIG_FINDANDDELETE
  deriving DecidableEq

inductive Halt
  | error (serror : ScriptError)
  /-- `scriptnum_error` -/
  | scriptnum
  /-- `std::out_of_range`, thrown by `at` -/
  | outOfRange
  /-- `popstack(): stack empty` -/
  | stackEmpty
  | assert
  deriving DecidableEq

/-- What a checker may read of `ScriptExecutionData`, and the weight that is left. -/
structure ScriptExecutionData where
  m_codeseparator_pos : BitVec 32
  m_validation_weight_left_init : Bool
  m_validation_weight_left : ℤ
  deriving DecidableEq

structure BaseSignatureChecker where
  checkECDSASignature : Bytes → Bytes → CScript → SigVersion → Bool
  /-- Nothing if the signature is accepted, and otherwise the error it sets. -/
  checkSchnorrSignature : Bytes → Bytes → SigVersion → ScriptExecutionData → Option ScriptError
  checkLockTime : ℤ → Bool
  checkSequence : ℤ → Bool

/-- What does not change while a script runs. -/
structure Env where
  flags : VerifyFlag → Bool
  sigversion : SigVersion
  checker : BaseSignatureChecker
  ripemd160 : Bytes → Bytes
  sha1 : Bytes → Bytes
  sha256 : Bytes → Bytes
  /-- `CPubKey::CheckLowS` -/
  checkLowS : Bytes → Bool

abbrev Stack : Type := List Bytes

def fail {α : Type} (serror : ScriptError) : Except Halt α := .error (.error serror)

/-- `if (!ok) return set_error(serror, …)` -/
def require (ok : Bool) (serror : ScriptError) : Except Halt Unit :=
    if ok then .ok () else fail serror

def MAX_SCRIPT_ELEMENT_SIZE : ℕ := 520
def MAX_OPS_PER_SCRIPT : ℕ := 201
def MAX_PUBKEYS_PER_MULTISIG : ℕ := 20
def MAX_STACK_SIZE : ℕ := 1000
def VALIDATION_WEIGHT_PER_SIGOP_PASSED : ℤ := 50

def vchFalse : Bytes := []
def vchTrue : Bytes := [1]

def ofBool (b : Bool) : Bytes := if b then vchTrue else vchFalse

/-- Some byte is not zero, other than the sign of a negative zero. -/
def castToBool : Bytes → Bool
  | [] => false
  | [b] => b != 0 && b != 0x80
  | b :: vch => b != 0 || castToBool vch

/-! ## Numbers -/

def setVch (vch : Bytes) : ℤ :=
  match vch.getLast? with
  | none => 0
  | some back =>
    if back.getLsbD 7 then -((readLE vch - 0x80 * 256 ^ (vch.length - 1) : ℕ) : ℤ)
      else (readLE vch : ℕ)

/-- The constructor of `CScriptNum` from bytes. -/
def CScriptNum (vch : Bytes) (fRequireMinimal : Bool) (nMaxNumSize : ℕ) : Except Halt ℤ :=
  if vch.length > nMaxNumSize then .error .scriptnum
  else if fRequireMinimal && vch.length != 0 && vch.getLastD 0 &&& 0x7f == 0 &&
      (vch.length ≤ 1 || (vch.getD (vch.length - 2) 0) &&& 0x80 == 0) then .error .scriptnum
  else .ok (setVch vch)

def getint (n : ℤ) : ℤ := max (-2 ^ 31) (min n (2 ^ 31 - 1))

/-- The loop `while (absvalue)` of `serialize`; eight rounds are enough for 64 bits. -/
def absBytes : ℕ → ℕ → Bytes
  | 0, _ => []
  | rounds + 1, absvalue => if absvalue = 0 then [] else BitVec.ofNat 8 absvalue :: absBytes rounds
      (absvalue / 256)

def serialize (value : ℤ) : Bytes :=
  let result := absBytes 8 value.natAbs
  let back := result.getLastD 0
  if value = 0 then []
  else if back.getLsbD 7 then result ++ [if value < 0 then 0x80 else 0]
  else if value < 0 then result.dropLast ++ [back ||| 0x80]
  else result

/-! ## Encodings -/

def isValidSignatureEncoding (sig : Bytes) : Bool :=
  let byte (i : ℕ) : ℕ := (sig.getD i 0).toNat
  let lenR := byte 3
  let lenS := byte (5 + lenR)
  9 ≤ sig.length && sig.length ≤ 73 && byte 0 == 0x30 && byte 1 == sig.length - 3
  && 5 + lenR < sig.length &&
    lenR + lenS + 7 == sig.length && byte 2 == 0x02 && lenR != 0 && byte 4 < 0x80 &&
    !(lenR > 1 && byte 4 == 0 && byte 5 < 0x80) && byte (lenR + 4) == 0x02 && lenS != 0
    && byte (lenR + 6) < 0x80 &&
    !(lenS > 1 && byte (lenR + 6) == 0 && byte (lenR + 7) < 0x80)

def isDefinedHashtypeSignature (vchSig : Bytes) : Bool :=
  match vchSig.getLast? with
  | none => false
  | some back => 1 ≤ (back &&& 0x7f).toNat && (back &&& 0x7f).toNat ≤ 3

def isCompressedPubKey (vchPubKey : Bytes) : Bool :=
  vchPubKey.length == 33 && (vchPubKey.head? == some 0x02 || vchPubKey.head? == some 0x03)

def isCompressedOrUncompressedPubKey (vchPubKey : Bytes) : Bool :=
  isCompressedPubKey vchPubKey || (vchPubKey.length == 65 && vchPubKey.head? == some 0x04)

def checkSignatureEncoding (env : Env) (vchSig : Bytes) : Except Halt Unit :=
  if vchSig.length = 0 then .ok ()
  else do
    require (!(env.flags .DERSIG || env.flags .LOW_S || env.flags .STRICTENC)
    || isValidSignatureEncoding vchSig) .SIG_DER
    require (!env.flags .LOW_S || env.checkLowS vchSig.dropLast) .SIG_HIGH_S
    require (!env.flags .STRICTENC || isDefinedHashtypeSignature vchSig) .SIG_HASHTYPE

def checkPubKeyEncoding (env : Env) (vchPubKey : Bytes) : Except Halt Unit := do
  require (!env.flags .STRICTENC || isCompressedOrUncompressedPubKey vchPubKey) .PUBKEYTYPE
  require (!(env.flags .WITNESS_PUBKEYTYPE && env.sigversion = .WITNESS_V0)
  || isCompressedPubKey vchPubKey)
    .WITNESS_PUBKEYTYPE

def checkMinimalPush (data : Bytes) (opcode : BitVec 8) : Bool :=
  match data with
  | [] => opcode == 0
  | [b] => !(1 ≤ b.toNat && b.toNat ≤ 16) && b != 0x81 && opcode == 1
  | data =>
    if data.length ≤ 75 then opcode.toNat == data.length
    else if data.length ≤ 255 then opcode == OP_PUSHDATA1
    else if data.length ≤ 65535 then opcode == OP_PUSHDATA2
    else true

/-- `CScript() << b` -/
def pushOf (b : Bytes) : CScript :=
  if b.length < 0x4c then BitVec.ofNat 8 b.length :: b
  else if b.length ≤ 0xff then OP_PUSHDATA1 :: writeLE 1 b.length ++ b
  else if b.length ≤ 0xffff then OP_PUSHDATA2 :: writeLE 2 b.length ++ b
  else OP_PUSHDATA4 :: writeLE 4 b.length ++ b

/-! ## Opcodes -/

inductive UnaryOp
  | OP_1ADD | OP_1SUB | OP_NEGATE | OP_ABS | OP_NOT | OP_0NOTEQUAL
  deriving DecidableEq

inductive BinaryOp
  | OP_ADD | OP_SUB | OP_BOOLAND | OP_BOOLOR | OP_NUMEQUAL | OP_NUMEQUALVERIFY
      | OP_NUMNOTEQUAL | OP_LESSTHAN
  | OP_GREATERTHAN | OP_LESSTHANOREQUAL | OP_GREATERTHANOREQUAL | OP_MIN | OP_MAX
  deriving DecidableEq

inductive HashOp
  | OP_RIPEMD160 | OP_SHA1 | OP_SHA256 | OP_HASH160 | OP_HASH256
  deriving DecidableEq

/-- The opcodes that only read and change the stack. -/
inductive StackOp
  /-- `OP_1NEGATE` and `OP_1` to `OP_16` -/
  | number (n : ℤ)
  | OP_NOP | OP_CHECKLOCKTIMEVERIFY | OP_CHECKSEQUENCEVERIFY
  /-- `OP_NOP1` and `OP_NOP4` to `OP_NOP10` -/
  | upgradable
  | OP_VERIFY | OP_RETURN | OP_2DROP | OP_2DUP | OP_3DUP | OP_2OVER | OP_2ROT
  | OP_2SWAP | OP_IFDUP | OP_DEPTH | OP_DROP | OP_DUP | OP_NIP | OP_OVER | OP_PICK | OP_ROLL
      | OP_ROT | OP_SWAP
  | OP_TUCK | OP_SIZE | OP_EQUAL | OP_EQUALVERIFY | OP_WITHIN
  | unary (op : UnaryOp)
  | binary (op : BinaryOp)
  | hash (op : HashOp)
  deriving DecidableEq

inductive Opcode
  /-- Up to `OP_PUSHDATA4` -/
  | push
  | stack (op : StackOp)
  | OP_TOALTSTACK | OP_FROMALTSTACK | OP_IF | OP_NOTIF | OP_ELSE | OP_ENDIF
  /-- `OP_VERIF` and `OP_VERNOTIF`, which are not opcodes but lie between `OP_IF` and `OP_ENDIF` -/
  | verif
  | OP_CODESEPARATOR | OP_CHECKSIG | OP_CHECKSIGVERIFY | OP_CHECKMULTISIG | OP_CHECKMULTISIGVERIFY
      | OP_CHECKSIGADD
  | disabled
  | invalid
  deriving DecidableEq

open StackOp in
/-- The opcodes from `OP_1NEGATE` to `OP_CHECKSIGADD`, one behind the other. -/
def opcodeTable : List Opcode := List.flatten
  [[.stack (number (-1)), .invalid],
  (List.range 16).map fun n => .stack (number (n + 1)),
  [.stack OP_NOP, .invalid, .OP_IF, .OP_NOTIF, .verif, .verif, .OP_ELSE, .OP_ENDIF],
  [.stack OP_VERIFY, .stack OP_RETURN, .OP_TOALTSTACK, .OP_FROMALTSTACK],
  [OP_2DROP, OP_2DUP, OP_3DUP, OP_2OVER, OP_2ROT, OP_2SWAP, OP_IFDUP, OP_DEPTH, OP_DROP, OP_DUP,
  OP_NIP, OP_OVER, OP_PICK, OP_ROLL, OP_ROT, OP_SWAP, OP_TUCK].map .stack,
  List.replicate 4 .disabled, [.stack OP_SIZE], List.replicate 4 .disabled,
  [.stack OP_EQUAL, .stack OP_EQUALVERIFY, .invalid, .invalid],
  [.stack (unary .OP_1ADD), .stack (unary .OP_1SUB), .disabled, .disabled,
  .stack (unary .OP_NEGATE),
    .stack (unary .OP_ABS), .stack (unary .OP_NOT), .stack (unary .OP_0NOTEQUAL)],
  [.stack (binary .OP_ADD), .stack (binary .OP_SUB)], List.replicate 5 .disabled,
  [BinaryOp.OP_BOOLAND, .OP_BOOLOR, .OP_NUMEQUAL, .OP_NUMEQUALVERIFY, .OP_NUMNOTEQUAL, .OP_LESSTHAN,
  .OP_GREATERTHAN,
    .OP_LESSTHANOREQUAL, .OP_GREATERTHANOREQUAL, .OP_MIN, .OP_MAX].map fun op => .stack (binary op),
  [.stack OP_WITHIN],
  [HashOp.OP_RIPEMD160, .OP_SHA1, .OP_SHA256, .OP_HASH160, .OP_HASH256].map fun op =>
  .stack (hash op),
  [.OP_CODESEPARATOR, .OP_CHECKSIG, .OP_CHECKSIGVERIFY, .OP_CHECKMULTISIG, .OP_CHECKMULTISIGVERIFY],
  [.stack upgradable, .stack OP_CHECKLOCKTIMEVERIFY, .stack OP_CHECKSEQUENCEVERIFY],
  List.replicate 7 (.stack upgradable), [.OP_CHECKSIGADD]]

def opcodetype (opcode : BitVec 8) : Opcode :=
  if opcode ≤ OP_PUSHDATA4 then .push else opcodeTable.getD (opcode.toNat - 0x4f) .invalid

/-! ## Operations on the stacks -/

/-- `stacktop(-i)` -/
def stacktop (stack : Stack) : ℕ → Except Halt Bytes
  | 0 => .error .outOfRange
  | i + 1 =>
    match stack[i]? with
    | some vch => .ok vch
    | none => .error .outOfRange

def popstack : Stack → Except Halt Stack
  | [] => .error .stackEmpty
  | _ :: stack => .ok stack

/-- `if (stack.size() < n) return set_error(serror, SCRIPT_ERR_INVALID_STACK_OPERATION)` -/
def needs (stack : Stack) (n : ℕ) : Except Halt Unit :=
    require (n ≤ stack.length) .INVALID_STACK_OPERATION

/-- `swap(stacktop(-i), stacktop(-j))` -/
def swapTops (stack : Stack) (i j : ℕ) : Except Halt Stack := do
  let vch1 ← stacktop stack i
  let vch2 ← stacktop stack j
  return (stack.set (i - 1) vch2).set (j - 1) vch1

/-- `CScriptNum(stacktop(-i), fRequireMinimal, nMaxNumSize)` -/
def numberAt (env : Env) (stack : Stack) (i nMaxNumSize : ℕ) : Except Halt ℤ := do
  let vch ← stacktop stack i
  CScriptNum vch (env.flags .MINIMALDATA) nMaxNumSize

/-- An arithmetic operator that asserts first. -/
def asserting (ok : Bool) (n : ℤ) : Except Halt ℤ := if ok then .ok n else .error .assert

def UnaryOp.eval (bn : ℤ) : UnaryOp → Except Halt ℤ
  | .OP_1ADD => asserting (bn ≤ 2 ^ 63 - 1 - 1) (bn + 1)
  | .OP_1SUB => asserting (-2 ^ 63 + 1 ≤ bn) (bn - 1)
  | .OP_NEGATE => asserting (bn ≠ -2 ^ 63) (-bn)
  | .OP_ABS => if bn < 0 then asserting (bn ≠ -2 ^ 63) (-bn) else .ok bn
  | .OP_NOT => .ok (if bn = 0 then 1 else 0)
  | .OP_0NOTEQUAL => .ok (if bn ≠ 0 then 1 else 0)

def BinaryOp.eval (bn1 bn2 : ℤ) : BinaryOp → ℤ
  | .OP_ADD => bn1 + bn2
  | .OP_SUB => bn1 - bn2
  | .OP_BOOLAND => if bn1 ≠ 0 ∧ bn2 ≠ 0 then 1 else 0
  | .OP_BOOLOR => if bn1 ≠ 0 ∨ bn2 ≠ 0 then 1 else 0
  | .OP_NUMEQUAL | .OP_NUMEQUALVERIFY => if bn1 = bn2 then 1 else 0
  | .OP_NUMNOTEQUAL => if bn1 ≠ bn2 then 1 else 0
  | .OP_LESSTHAN => if bn1 < bn2 then 1 else 0
  | .OP_GREATERTHAN => if bn1 > bn2 then 1 else 0
  | .OP_LESSTHANOREQUAL => if bn1 ≤ bn2 then 1 else 0
  | .OP_GREATERTHANOREQUAL => if bn1 ≥ bn2 then 1 else 0
  | .OP_MIN => if bn1 < bn2 then bn1 else bn2
  | .OP_MAX => if bn1 > bn2 then bn1 else bn2

def HashOp.eval (env : Env) (vch : Bytes) : HashOp → Bytes
  | .OP_RIPEMD160 => env.ripemd160 vch
  | .OP_SHA1 => env.sha1 vch
  | .OP_SHA256 => env.sha256 vch
  | .OP_HASH160 => env.ripemd160 (env.sha256 vch)
  | .OP_HASH256 => env.sha256 (env.sha256 vch)

/-- `OP_CHECKLOCKTIMEVERIFY` and `OP_CHECKSEQUENCEVERIFY` without the test of their flags. -/
def evalLock (env : Env) (stack : Stack) (check : ℤ → Bool) : Except Halt Unit := do
  needs stack 1
  let n ← numberAt env stack 1 5
  require (0 ≤ n) .NEGATIVE_LOCKTIME
  require (check n) .UNSATISFIED_LOCKTIME

/-- `OP_PICK` and `OP_ROLL` -/
def evalPick (env : Env) (stack : Stack) (roll : Bool) : Except Halt Stack := do
  needs stack 2
  let n := getint (← numberAt env stack 1 4)
  let stack ← popstack stack
  require (0 ≤ n && n < stack.length) .INVALID_STACK_OPERATION
  let vch ← stacktop stack (n.toNat + 1)
  return vch :: if roll then stack.eraseIdx n.toNat else stack

/-- The cases of the `switch` that only read and change the stack. -/
def evalStack (env : Env) (stack : Stack) : StackOp → Except Halt Stack
  | .number n => return serialize n :: stack
  | .OP_NOP => return stack
  | .OP_CHECKLOCKTIMEVERIFY => do
      if env.flags .CHECKLOCKTIMEVERIFY then evalLock env stack env.checker.checkLockTime
      return stack
  | .OP_CHECKSEQUENCEVERIFY => do
      -- An operand with the disable flag, the 31st bit, is not compared.
      if env.flags .CHECKSEQUENCEVERIFY then
        evalLock env stack fun n => n.toNat.testBit 31 || env.checker.checkSequence n
      return stack
  | .upgradable => do
      require (!env.flags .DISCOURAGE_UPGRADABLE_NOPS) .DISCOURAGE_UPGRADABLE_NOPS
      return stack
  | .OP_VERIFY => do
      needs stack 1
      require (castToBool (← stacktop stack 1)) .VERIFY
      popstack stack
  | .OP_RETURN => fail .OP_RETURN
  | .OP_2DROP => do
      needs stack 2
      popstack (← popstack stack)
  | .OP_2DUP => do
      needs stack 2
      return (← stacktop stack 1) :: (← stacktop stack 2) :: stack
  | .OP_3DUP => do
      needs stack 3
      return (← stacktop stack 1) :: (← stacktop stack 2) :: (← stacktop stack 3) :: stack
  | .OP_2OVER => do
      needs stack 4
      return (← stacktop stack 3) :: (← stacktop stack 4) :: stack
  | .OP_2ROT => do
      needs stack 6
      return (← stacktop stack 5) :: (← stacktop stack 6) :: (stack.take 4 ++ stack.drop 6)
  | .OP_2SWAP => do
      needs stack 4
      swapTops (← swapTops stack 4 2) 3 1
  | .OP_IFDUP => do
      needs stack 1
      let vch ← stacktop stack 1
      return if castToBool vch then vch :: stack else stack
  | .OP_DEPTH => return serialize stack.length :: stack
  | .OP_DROP => do
      needs stack 1
      popstack stack
  | .OP_DUP => do
      needs stack 1
      return (← stacktop stack 1) :: stack
  | .OP_NIP => do
      needs stack 2
      return stack.eraseIdx 1
  | .OP_OVER => do
      needs stack 2
      return (← stacktop stack 2) :: stack
  | .OP_PICK => evalPick env stack false
  | .OP_ROLL => evalPick env stack true
  | .OP_ROT => do
      needs stack 3
      swapTops (← swapTops stack 3 2) 2 1
  | .OP_SWAP => do
      needs stack 2
      swapTops stack 2 1
  | .OP_TUCK => do
      needs stack 2
      return stack.insertIdx 2 (← stacktop stack 1)
  | .OP_SIZE => do
      needs stack 1
      return serialize (← stacktop stack 1).length :: stack
  | .OP_EQUAL => do
      needs stack 2
      let fEqual := (← stacktop stack 2) == (← stacktop stack 1)
      return ofBool fEqual :: (← popstack (← popstack stack))
  | .OP_EQUALVERIFY => do
      needs stack 2
      let fEqual := (← stacktop stack 2) == (← stacktop stack 1)
      let stack ← popstack (← popstack stack)
      require fEqual .EQUALVERIFY
      return stack
  | .OP_WITHIN => do
      needs stack 3
      let bn1 ← numberAt env stack 3 4
      let bn2 ← numberAt env stack 2 4
      let bn3 ← numberAt env stack 1 4
      return ofBool (bn2 ≤ bn1 && bn1 < bn3) :: (← popstack (← popstack (← popstack stack)))
  | .unary op => do
      needs stack 1
      let bn ← op.eval (← numberAt env stack 1 4)
      return serialize bn :: (← popstack stack)
  | .binary op => do
      needs stack 2
      let bn1 ← numberAt env stack 2 4
      let bn2 ← numberAt env stack 1 4
      let bn := op.eval bn1 bn2
      let stack ← popstack (← popstack stack)
      if op = .OP_NUMEQUALVERIFY then
        require (castToBool (serialize bn)) .NUMEQUALVERIFY
        return stack
      else return serialize bn :: stack
  | .hash op => do
      needs stack 1
      let vch ← stacktop stack 1
      return op.eval env vch :: (← popstack stack)

structure ConditionStack where
  m_stack_size : BitVec 32
  m_first_false_pos : BitVec 32
  deriving DecidableEq

namespace ConditionStack

def NO_FALSE : BitVec 32 := 0xffffffff

def new : ConditionStack := ⟨0, NO_FALSE⟩

variable (s : ConditionStack)

def empty : Bool := s.m_stack_size = 0

def all_true : Bool := s.m_first_false_pos = NO_FALSE

def push_back (f : Bool) : ConditionStack where
  m_first_false_pos :=
  if s.m_first_false_pos = NO_FALSE ∧ !f then s.m_stack_size else s.m_first_false_pos
  m_stack_size := s.m_stack_size + 1

def pop_back : Except Halt ConditionStack :=
  if s.m_stack_size = 0 then .error .assert
  else .ok {
    m_stack_size := s.m_stack_size - 1
    m_first_false_pos :=
    if s.m_first_false_pos = s.m_stack_size - 1 then NO_FALSE else s.m_first_false_pos }

def toggle_top : Except Halt ConditionStack :=
  if s.m_stack_size = 0 then .error .assert
  else if s.m_first_false_pos = NO_FALSE then .ok { s with m_first_false_pos := s.m_stack_size - 1 }
  else if s.m_first_false_pos = s.m_stack_size - 1 then .ok { s with m_first_false_pos := NO_FALSE }
  else .ok s

end ConditionStack

/-! ## Signatures -/

/-- Dropping a signature from the script code, which is done in scripts before segwit. -/
def dropSignature (env : Env) (vchSig : Bytes) (scriptCode : CScript) : Except Halt CScript :=
  if env.sigversion = .BASE then do
    let (scriptCode, found) := findAndDelete scriptCode (pushOf vchSig)
    require (!(0 < found && env.flags .CONST_SCRIPTCODE)) .SIG_FINDANDDELETE
    return scriptCode
  else return scriptCode

/-- A call of `CheckECDSASignature` -/
def checkECDSASignature (env : Env) (vchSig vchPubKey : Bytes)
    (scriptCode : CScript) : Counted Halt Bool :=
  Counted.tick (env.checker.checkECDSASignature vchSig vchPubKey scriptCode env.sigversion)

def evalChecksigPreTapscript (env : Env) (vchSig vchPubKey : Bytes) (pbegincodehash : CScript) :
    Counted Halt Bool := do
  let scriptCode ← dropSignature env vchSig pbegincodehash
  checkSignatureEncoding env vchSig
  checkPubKeyEncoding env vchPubKey
  let fSuccess ← checkECDSASignature env vchSig vchPubKey scriptCode
  require (fSuccess || !(env.flags .NULLFAIL && vchSig.length != 0)) .SIG_NULLFAIL
  return fSuccess

/-- The limit on signature checks by witness size, at the start of `EvalChecksigTapscript`. -/
def passWeight (execdata : ScriptExecutionData) : Except Halt ScriptExecutionData := do
  if !execdata.m_validation_weight_left_init then .error .assert
  let left := execdata.m_validation_weight_left - VALIDATION_WEIGHT_PER_SIGOP_PASSED
  require (0 ≤ left) .TAPSCRIPT_VALIDATION_WEIGHT
  return { execdata with m_validation_weight_left := left }

def evalChecksigTapscript (env : Env) (sig pubkey : Bytes) (execdata : ScriptExecutionData) :
    Except Halt (Bool × ScriptExecutionData) := do
  let success := sig.length != 0
  let execdata ← if success then passWeight execdata else .ok execdata
  if pubkey.length = 0 then fail .PUBKEYTYPE
  else if pubkey.length = 32 then
    match success, env.checker.checkSchnorrSignature sig pubkey env.sigversion execdata with
    | true, some serror => fail serror
    | _, _ => return (success, execdata)
  else do
    require (!env.flags .DISCOURAGE_UPGRADABLE_PUBKEYTYPE) .DISCOURAGE_UPGRADABLE_PUBKEYTYPE
    return (success, execdata)

def evalChecksig (env : Env) (sig pubkey : Bytes) (pbegincodehash : CScript)
    (execdata : ScriptExecutionData) :
    Counted Halt (Bool × ScriptExecutionData) :=
  match env.sigversion with
  | .BASE | .WITNESS_V0 => do
      let success ← evalChecksigPreTapscript env sig pubkey pbegincodehash
      return (success, execdata)
  | .TAPSCRIPT => Counted.lift (evalChecksigTapscript env sig pubkey execdata)
  | .TAPROOT => Counted.lift (.error .assert)

/-- The first loop of `OP_CHECKMULTISIG`: signatures are dropped from the script code. -/
def dropSignatures (env : Env) (stack : Stack) : ℕ → ℕ → CScript → Except Halt CScript
  | 0, _, scriptCode => return scriptCode
  | nSigsCount + 1, isig, scriptCode => do
      let vchSig ← stacktop stack isig
      let scriptCode ← dropSignature env vchSig scriptCode
      dropSignatures env stack nSigsCount (isig + 1) scriptCode

/-- The second loop of `OP_CHECKMULTISIG`. -/
def multisigLoop (env : Env) (scriptCode : CScript) (stack : Stack) : ℕ → ℕ → ℕ → ℕ →
    Counted Halt Bool
  | _, 0, _, _ => return true
  -- There are never more signatures left than keys.
  | 0, _ + 1, _, _ => return false
  | nKeysCount + 1, nSigsCount + 1, isig, ikey => do
      let vchSig ← stacktop stack isig
      let vchPubKey ← stacktop stack ikey
      checkSignatureEncoding env vchSig
      checkPubKeyEncoding env vchPubKey
      let fOk ← checkECDSASignature env vchSig vchPubKey scriptCode
      let nSigsLeft := if fOk then nSigsCount else nSigsCount + 1
      if nSigsLeft > nKeysCount then return false
      else
        multisigLoop env scriptCode stack nKeysCount nSigsLeft (if fOk then isig + 1 else isig)
          (ikey + 1)

/-- The loop that cleans up the arguments of `OP_CHECKMULTISIG`. -/
def cleanUp (env : Env) (fSuccess : Bool) : ℕ → ℕ → Stack → Except Halt Stack
  | 0, _, stack => return stack
  | i + 1, ikey2, stack => do
      if !fSuccess && env.flags .NULLFAIL && ikey2 == 0 then
        require ((← stacktop stack 1).length == 0) .SIG_NULLFAIL
      cleanUp env fSuccess i (ikey2 - 1) (← popstack stack)

/-! ## Running a script -/

/-- The local variables of `EvalScript`. -/
structure Machine where
  stack : Stack
  altstack : Stack
  vfExec : ConditionStack
  pbegincodehash : CScript
  nOpCount : ℕ
  opcode_pos : BitVec 32
  execdata : ScriptExecutionData

/-- Pushing the result of a check, which the `…VERIFY` opcodes pop again. -/
def pushResult (verify : Option ScriptError) (fSuccess : Bool)
    (stack : Stack) : Except Halt Stack :=
  match verify with
  | none => return ofBool fSuccess :: stack
  | some serror => do
      require fSuccess serror
      return stack

/-- `OP_CHECKSIG`, `OP_CHECKSIGVERIFY` -/
def evalOpChecksig (env : Env) (m : Machine)
    (verify : Option ScriptError) : Counted Halt Machine := do
  needs m.stack 2
  let vchSig ← stacktop m.stack 2
  let vchPubKey ← stacktop m.stack 1
  let (fSuccess, execdata) ← evalChecksig env vchSig vchPubKey m.pbegincodehash m.execdata
  let stack ← popstack (← popstack m.stack)
  return { m with stack := ← pushResult verify fSuccess stack, execdata }

/-- `OP_CHECKSIGADD` -/
def evalOpChecksigadd (env : Env) (m : Machine) : Counted Halt Machine := do
  require (!(env.sigversion = .BASE || env.sigversion = .WITNESS_V0)) .BAD_OPCODE
  needs m.stack 3
  let sig ← stacktop m.stack 3
  let num ← numberAt env m.stack 2 4
  let pubkey ← stacktop m.stack 1
  let (success, execdata) ← evalChecksig env sig pubkey m.pbegincodehash m.execdata
  let stack ← popstack (← popstack (← popstack m.stack))
  return { m with stack := serialize (num + if success then 1 else 0) :: stack, execdata }

/-- `OP_CHECKMULTISIG` up to its result, which is not pushed yet. -/
def evalMultisig (env : Env) (m : Machine) : Counted Halt (Bool × Machine) := do
  require (env.sigversion ≠ .TAPSCRIPT) .TAPSCRIPT_CHECKMULTISIG
  needs m.stack 1
  let nKeysCount := getint (← numberAt env m.stack 1 4)
  require (0 ≤ nKeysCount && nKeysCount ≤ MAX_PUBKEYS_PER_MULTISIG) .PUBKEY_COUNT
  let nKeysCount := nKeysCount.toNat
  let nOpCount := m.nOpCount + nKeysCount
  require (nOpCount ≤ MAX_OPS_PER_SCRIPT) .OP_COUNT
  needs m.stack (nKeysCount + 2)
  let nSigsCount := getint (← numberAt env m.stack (nKeysCount + 2) 4)
  require (0 ≤ nSigsCount && nSigsCount ≤ nKeysCount) .SIG_COUNT
  let nSigsCount := nSigsCount.toNat
  needs m.stack (nKeysCount + nSigsCount + 3)
  let scriptCode ← dropSignatures env m.stack nSigsCount (nKeysCount + 3) m.pbegincodehash
  let fSuccess ← multisigLoop env scriptCode m.stack nKeysCount nSigsCount (nKeysCount + 3) 2
  let stack ← cleanUp env fSuccess (nKeysCount + nSigsCount + 2) (nKeysCount + 2) m.stack
  needs stack 1
  let dummy ← stacktop stack 1
  require (!(env.flags .NULLDUMMY && dummy.length != 0)) .SIG_NULLDUMMY
  let stack ← popstack stack
  return (fSuccess, { m with stack, nOpCount })

/-- `OP_CHECKMULTISIG`, `OP_CHECKMULTISIGVERIFY` -/
def evalOpCheckmultisig (env : Env) (m : Machine)
    (verify : Option ScriptError) : Counted Halt Machine := do
  let (fSuccess, m) ← evalMultisig env m
  return { m with stack := ← pushResult verify fSuccess m.stack }

/-- The element of `OP_IF` must be minimal in tapscript, and in segwit under a flag. -/
def checkMinimalIf (env : Env) (vch : Bytes) : Except Halt Unit := do
  let minimal := vch = [] ∨ vch = [1]
  require (env.sigversion ≠ .TAPSCRIPT || minimal) .TAPSCRIPT_MINIMALIF
  require (!(env.sigversion = .WITNESS_V0 && env.flags .MINIMALIF) || minimal) .MINIMALIF

/-- `OP_IF`, `OP_NOTIF` -/
def evalIf (env : Env) (m : Machine) (notif : Bool) : Except Halt Machine :=
  if m.vfExec.all_true then do
    require (1 ≤ m.stack.length) .UNBALANCED_CONDITIONAL
    let vch ← stacktop m.stack 1
    checkMinimalIf env vch
    return { m with
      stack := ← popstack m.stack
      vfExec := m.vfExec.push_back (castToBool vch ^^ notif) }
  else return { m with vfExec := m.vfExec.push_back false }

/-- The cases of the `switch`, and pushes. -/
def evalOp (env : Env) (op : Op) (m : Machine) : Opcode → Counted Halt Machine
  | .push => do
      require (!env.flags .MINIMALDATA || checkMinimalPush op.data op.opcode) .MINIMALDATA
      return { m with stack := op.data :: m.stack }
  | .stack stackOp => return { m with stack := ← evalStack env m.stack stackOp }
  | .OP_TOALTSTACK => do
      needs m.stack 1
      return { m with
        stack := ← popstack m.stack
        altstack := (← stacktop m.stack 1) :: m.altstack }
  | .OP_FROMALTSTACK => do
      require (1 ≤ m.altstack.length) .INVALID_ALTSTACK_OPERATION
      return { m with
        stack := (← stacktop m.altstack 1) :: m.stack
        altstack := ← popstack m.altstack }
  | .OP_IF => Counted.lift (evalIf env m false)
  | .OP_NOTIF => Counted.lift (evalIf env m true)
  | .OP_ELSE => do
      require (!m.vfExec.empty) .UNBALANCED_CONDITIONAL
      return { m with vfExec := ← m.vfExec.toggle_top }
  | .OP_ENDIF => do
      require (!m.vfExec.empty) .UNBALANCED_CONDITIONAL
      return { m with vfExec := ← m.vfExec.pop_back }
  | .OP_CODESEPARATOR =>
    return { m with
      pbegincodehash := op.pc
      execdata := { m.execdata with m_codeseparator_pos := m.opcode_pos } }
  | .OP_CHECKSIG => evalOpChecksig env m none
  | .OP_CHECKSIGVERIFY => evalOpChecksig env m (some .CHECKSIGVERIFY)
  | .OP_CHECKSIGADD => evalOpChecksigadd env m
  | .OP_CHECKMULTISIG => evalOpCheckmultisig env m none
  | .OP_CHECKMULTISIGVERIFY => evalOpCheckmultisig env m (some .CHECKMULTISIGVERIFY)
  | .verif | .disabled | .invalid => Counted.lift (fail .BAD_OPCODE)

/-- `OP_IF <= opcode && opcode <= OP_ENDIF` -/
def Opcode.conditional : Opcode → Bool
  | .OP_IF | .OP_NOTIF | .verif | .OP_ELSE | .OP_ENDIF => true
  | _ => false

/-- The tests before an operation, also where it is not executed; the result is `nOpCount`. -/
def checkOp (env : Env) (op : Op) (nOpCount : ℕ) : Except Halt ℕ := do
  require (op.data.length ≤ MAX_SCRIPT_ELEMENT_SIZE) .PUSH_SIZE
  let counted := (env.sigversion = .BASE || env.sigversion = .WITNESS_V0) && 0x60 < op.opcode
  let nOpCount := if counted then nOpCount + 1 else nOpCount
  require (!counted || nOpCount ≤ MAX_OPS_PER_SCRIPT) .OP_COUNT
  require (opcodetype op.opcode ≠ .disabled) .DISABLED_OPCODE
  require (!(opcodetype op.opcode = .OP_CODESEPARATOR && env.sigversion = .BASE
  && env.flags .CONST_SCRIPTCODE))
    .OP_CODESEPARATOR
  return nOpCount

/-- An operation, if it is in a branch that is executed. -/
def execOp (env : Env) (op : Op) (m : Machine) : Counted Halt Machine :=
  if m.vfExec.all_true || (opcodetype op.opcode).conditional then evalOp env op m
    (opcodetype op.opcode) else return m

/-- One round of the loop of `EvalScript`, with the operation that was read. -/
def step (env : Env) (op : Op) (m : Machine) : Counted Halt Machine := do
  let nOpCount ← checkOp env op m.nOpCount
  let m ← execOp env op { m with nOpCount }
  require (m.stack.length + m.altstack.length ≤ MAX_STACK_SIZE) .STACK_SIZE
  return { m with opcode_pos := m.opcode_pos + 1 }

def evalLoop (env : Env) : List Op → Machine → Counted Halt Machine
  | [], m => return m
  | op :: ops, m => do
      let m ← step env op m
      evalLoop env ops m

/-- `EvalScript` inside of its `try`. -/
def evalOps (env : Env) (script : CScript) (stack : Stack) (execdata : ScriptExecutionData) :
    Counted Halt Machine := do
  let start : Machine :=
    ⟨stack, [], ConditionStack.new, script, 0, 0,
    { execdata with m_codeseparator_pos := 0xffffffff }⟩
  let m ← evalLoop env (scan script).ops start
  -- What is left could not be read.
  require ((scan script).tail = []) .BAD_OPCODE
  require m.vfExec.empty .UNBALANCED_CONDITIONAL
  return m

/-- `catch (...)` -/
def Halt.caught : Halt → Halt
  | .error serror => .error serror
  | .assert => .assert
  | .scriptnum | .outOfRange | .stackEmpty => .error .UNKNOWN_ERROR

def evalScript (env : Env) (script : CScript) (stack : Stack) (execdata : ScriptExecutionData) :
    Counted Halt Machine :=
  if env.sigversion = .TAPROOT then Counted.lift (.error .assert)
  else if (env.sigversion = .BASE ∨ env.sigversion = .WITNESS_V0) ∧
    script.length > MAX_SCRIPT_SIZE then
    Counted.lift (fail .SCRIPT_SIZE)
  else
    let run := evalOps env script stack execdata
    ⟨run.work, run.result.mapError Halt.caught⟩

end Bitcoin.Script
