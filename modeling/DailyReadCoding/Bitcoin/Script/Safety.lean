import Mathlib
import DailyReadCoding.Bitcoin.Script.ScriptNum
import DailyReadCoding.Bitcoin.Script.SigOps

/-!
# What can end a script

Every opcode tests its operands before it takes them, so that neither `at` nor `popstack` throws and
no assertion fails.
-/

namespace Bitcoin.Script

variable {α β : Type}

def Safe (P : α → Prop) : Except Halt α → Prop
  | .ok a => P a
  | .error (.error _) | .error .scriptnum => True
  | .error _ => False

section Rules

variable {P : α → Prop} {Q : β → Prop} {x y : Except Halt α}

lemma Safe.mono {R : α → Prop} (h : Safe P x) (himp : ∀ a, P a → R a) : Safe R x := by
  rcases x with (_ | _ | _ | _ | _) | a
  case ok => exact himp a h
  all_goals exact h

@[simp] lemma safe_bind {f : α → Except Halt β} : Safe Q (x >>= f) ↔
    Safe (fun a => Safe Q (f a)) x := by
  rcases x with (_ | _ | _ | _ | _) | a <;> rfl

@[simp] lemma safe_map {f : α → β} : Safe Q (f <$> x) ↔ Safe (fun a => Q (f a)) x := by
  rcases x with (_ | _ | _ | _ | _) | a <;> rfl

@[simp] lemma safe_ok {a : α} : Safe P (.ok a) ↔ P a := Iff.rfl

@[simp] lemma safe_pure {a : α} : Safe P (pure a) ↔ P a := Iff.rfl

@[simp] lemma safe_fail {serror : ScriptError} : Safe P (fail serror) := trivial

@[simp] lemma safe_assert : ¬ Safe P (.error .assert) := id

@[simp] lemma safe_ite {c : Prop} [Decidable c] :
    Safe P (if c then x else y) ↔ (c → Safe P x) ∧ (¬ c → Safe P y) := by
  split <;> simp [*]

@[simp] lemma safe_require {P : Unit → Prop} {ok : Bool} {serror : ScriptError} :
    Safe P (require ok serror) ↔ (ok = true → P ()) := by
  simp [require]

@[simp] lemma result_pure (a : α) : (pure a : Counted Halt α).result = .ok a := rfl

variable {stack : Stack} {i : ℕ} {vch : Bytes} {fRequireMinimal : Bool} {n : ℤ}

@[simp] lemma safe_stacktop {P : Bytes → Prop} :
    Safe P (stacktop stack i) ↔ (0 < i ∧ i ≤ stack.length) ∧ P (stack.getD (i - 1) []) := by
  cases i with
  | zero => simp [stacktop, Safe]
  | succ i => by_cases h : i < stack.length <;> simp [stacktop, h, Safe]

@[simp] lemma safe_popstack {P : Stack → Prop} :
    Safe P (popstack stack) ↔ 0 < stack.length ∧ P stack.tail := by
  cases stack <;> simp [popstack, Safe]

@[simp] lemma safe_number {P : ℤ → Prop} :
    Safe P (CScriptNum vch fRequireMinimal i) ↔ ∀ n,
    CScriptNum vch fRequireMinimal i = .ok n → P n := by
  unfold CScriptNum
  split_ifs <;> simp [Safe]

/-- A number of at most four bytes is far from where the arithmetic operators assert. -/
lemma safe_unary {P : ℤ → Prop} (op : UnaryOp) (h : CScriptNum vch fRequireMinimal 4 = .ok n)
    (hP : ∀ n, P n) : Safe P (op.eval n) := by
  unfold CScriptNum at h
  split_ifs at h with hlong
  cases h
  have hlt := (BigEndian.ofBytes_lt vch.reverse).trans_le
    (Nat.pow_le_pow_right (by decide) (vch.length_reverse.trans_le (not_lt.1 hlong)))
  rw [← readLE_reverse, List.reverse_reverse] at hlt
  have habs : (setVch vch).natAbs < 256 ^ 4 := by
    unfold setVch
    split
    · decide
    · split_ifs <;> omega
  cases op <;> simp [UnaryOp.eval, asserting, hP] <;> omega

end Rules

/-! ## Opcodes -/

/-- What the assertions about the version and the validation weight ask for. -/
def Ready (env : Env) (execdata : ScriptExecutionData) : Prop :=
  env.sigversion ≠ .TAPROOT ∧
    (env.sigversion = .TAPSCRIPT → execdata.m_validation_weight_left_init = true)

section Opcodes

attribute [local simp] Counted.result_bind checkSignatureEncoding checkPubKeyEncoding dropSignature
needs numberAt

variable {env : Env} {stack : Stack} {execdata : ScriptExecutionData}

lemma safe_evalStack (op : StackOp) : Safe (fun _ => True) (evalStack env stack op) := by
  cases op <;> simp [evalStack, evalLock, evalPick, swapTops]
  all_goals grind [safe_unary]

lemma safe_evalChecksig {sig pubkey : Bytes} {code : CScript} (h : Ready env execdata) :
    Safe (fun r => Ready env r.2) (evalChecksig env sig pubkey code execdata).result := by
  unfold evalChecksig evalChecksigPreTapscript evalChecksigTapscript
  split
  · simp [checkECDSASignature, Counted.tick, h]
  · simp [checkECDSASignature, Counted.tick, h]
  · next hversion =>
    have hinit := h.2 hversion
    simp [passWeight, hinit]
    constructor <;> intros <;> split <;> simp [Ready, hversion, hinit]
  · next hversion => exact absurd hversion h.1

lemma safe_dropSignatures {n isig : ℕ} (hpos : 0 < isig) (h : isig + n ≤ stack.length + 1)
    (code : CScript) :
    Safe (fun _ => True) (dropSignatures env stack n isig code) := by
  induction n generalizing isig code with
  | zero => trivial
  | succ n ih =>
    simp [dropSignatures]
    grind

lemma safe_multisigLoop {code : CScript} {nKeys nSigs isig ikey : ℕ} (hsig : 0 < isig)
    (hkey : 0 < ikey)
    (hsigs : isig + nSigs ≤ stack.length + 1) (hkeys : ikey + nKeys ≤ stack.length + 1) :
    Safe (fun _ => True) (multisigLoop env code stack nKeys nSigs isig ikey).result := by
  induction nKeys generalizing nSigs isig ikey with
  | zero => cases nSigs <;> trivial
  | succ nKeys ih =>
    obtain _ | nSigs := nSigs
    · trivial
    · simp [multisigLoop, checkECDSASignature, Counted.tick]
      refine ⟨⟨hsig, by omega⟩, ⟨hkey, by omega⟩, ?_⟩
      constructor <;> intros <;> split_ifs <;> first | trivial | (apply ih <;> omega)

lemma safe_cleanUp (fSuccess : Bool) {i : ℕ} (ikey2 : ℕ) (h : i ≤ stack.length) :
    Safe (fun _ => True) (cleanUp env fSuccess i ikey2 stack) := by
  induction i generalizing ikey2 stack with
  | zero => trivial
  | succ i ih =>
    have hrest := @ih stack.tail (ikey2 - 1) (by rw [List.length_tail]; omega)
    simp [cleanUp, hrest]
    omega

variable {m : Machine}

lemma safe_evalOpCheckmultisig (h : Ready env m.execdata) (verify : Option ScriptError) :
    Safe (fun m => Ready env m.execdata) (evalOpCheckmultisig env m verify).result := by
  simp [evalOpCheckmultisig, evalMultisig]
  intro _ hone
  refine ⟨hone, fun n _ _ _ _ hkeys => ⟨hkeys, fun k _ _ _ hsigs => ?_⟩⟩
  refine (safe_dropSignatures (by omega) (by omega) _).mono fun code _ => ?_
  refine (safe_multisigLoop (by omega) (by omega) (by omega) (by omega)).mono fun fSuccess _ => ?_
  refine (safe_cleanUp fSuccess _ (by omega)).mono fun st _ hst => ⟨hst, fun _ => ⟨hst, ?_⟩⟩
  cases verify <;> simp [pushResult, h]

lemma safe_evalOpChecksig (h : Ready env m.execdata) (verify : Option ScriptError) :
    Safe (fun m => Ready env m.execdata) (evalOpChecksig env m verify).result := by
  simp [evalOpChecksig]
  intro hlen
  refine ⟨hlen, by omega, (safe_evalChecksig h).mono fun r hr => ⟨by omega, by omega, ?_⟩⟩
  cases verify <;> simp [pushResult, hr]

lemma safe_evalOp (op : Op) (h : Ready env m.execdata) (opcode : Opcode) :
    Safe (fun m => Ready env m.execdata) (evalOp env op m opcode).result := by
  cases opcode with
  | stack stackOp => simpa [evalOp, h] using safe_evalStack stackOp
  | OP_CHECKSIG => exact safe_evalOpChecksig h none
  | OP_CHECKSIGVERIFY => exact safe_evalOpChecksig h _
  | OP_CHECKMULTISIG => exact safe_evalOpCheckmultisig h none
  | OP_CHECKMULTISIGVERIFY => exact safe_evalOpCheckmultisig h _
  | OP_CHECKSIGADD =>
    simp [evalOp, evalOpChecksigadd]
    intro _ _ hlen
    refine ⟨hlen, by omega, fun n _ => ⟨by omega, (safe_evalChecksig h).mono fun r hr => ?_⟩⟩
    exact ⟨by omega, by omega, by omega, hr⟩
  | OP_CODESEPARATOR => exact h
  | OP_ELSE => simp [evalOp, ConditionStack.empty, ConditionStack.toggle_top, h]
  | OP_ENDIF => simp [evalOp, ConditionStack.empty, ConditionStack.pop_back, h]
  | _ =>
    simp [evalOp, evalIf, checkMinimalIf, h]
    try omega

lemma safe_evalLoop (ops : List Op) (h : Ready env m.execdata) :
    Safe (fun _ => True) (evalLoop env ops m).result := by
  induction ops generalizing m with
  | nil => trivial
  | cons op ops ih =>
    have hexec {nOpCount : ℕ} :
        Safe (fun m => Ready env m.execdata) (execOp env op { m with nOpCount }).result := by
      unfold execOp
      split
      · exact @safe_evalOp env { m with nOpCount } op h _
      · exact h
    simp [evalLoop, step, checkOp]
    exact fun _ _ _ _ => hexec.mono fun _ hm _ => ih hm

lemma safe_evalOps (script : CScript) (h : Ready env execdata) :
    Safe (fun _ => True) (evalOps env script stack execdata).result := by
  simpa [evalOps] using safe_evalLoop _ h

end Opcodes

/-- **What can end a script**: inside its `try` a run ends by `set_error` or in a `scriptnum_error`,
the only exception that is caught, and no assertion fails. -/
theorem evalScript_safe (env : Env) (script : CScript) (stack : Stack)
    (execdata : ScriptExecutionData)
    (hready : Ready env execdata) :
    (∀ halt, (evalOps env script stack execdata).result = .error halt →
      halt = .scriptnum ∨ ∃ serror, halt = .error serror) ∧
    (evalScript env script stack execdata).result ≠ .error .assert := by
  have hsafe := @safe_evalOps env stack execdata script hready
  rw [evalScript, if_neg hready.1]
  constructor
  · intro halt hhalt
    rw [hhalt] at hsafe
    cases halt with
    | error serror => exact .inr ⟨serror, rfl⟩
    | scriptnum => exact .inl rfl
    | _ => exact hsafe.elim
  · split_ifs
    · intro h
      cases h
    · rcases h : (evalOps env script stack execdata).result with (_ | _ | _ | _ | _) | _
      all_goals simp_all [Halt.caught, Except.mapError]

/-- `OP_ELSE` without a condition in a tapscript. -/
theorem evalScript_safe_else : Ready (acceptAll .TAPSCRIPT) ⟨0, true, 0⟩ ∧
    (evalScript (acceptAll .TAPSCRIPT) [0x67] [] ⟨0, true, 0⟩).result ≠ .error .assert := by
  have hready : Ready (acceptAll .TAPSCRIPT) ⟨0, true, 0⟩ := ⟨by decide, fun _ => rfl⟩
  exact ⟨hready, (evalScript_safe _ _ _ _ hready).2⟩

end Bitcoin.Script
