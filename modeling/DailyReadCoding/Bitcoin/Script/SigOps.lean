import Mathlib.Tactic.IntervalCases
import DailyReadCoding.Bitcoin.Script.Interpreter

/-!
# Counting signature checks before a script runs

`GetSigOpCount` (`script/script.cpp`) counts the signature checks of a script from its opcodes
alone. For a multisig it takes the number of keys from the opcode before, if that pushes a small
number.
-/

namespace Bitcoin.Script

/-- What `GetSigOpCount` adds for a multisig behind an opcode. -/
def multisigOps (fAccurate : Bool) : Opcode → ℕ
  | .stack (.number n) => if fAccurate ∧ 1 ≤ n ∧ n ≤ 16 then n.toNat else MAX_PUBKEYS_PER_MULTISIG
  | _ => MAX_PUBKEYS_PER_MULTISIG

/-- What `GetSigOpCount` adds for an opcode behind another. -/
def sigOps (fAccurate : Bool) (lastOpcode : Opcode) : Opcode → ℕ
  | .OP_CHECKSIG | .OP_CHECKSIGVERIFY => 1
  | .OP_CHECKMULTISIG | .OP_CHECKMULTISIGVERIFY => multisigOps fAccurate lastOpcode
  | _ => 0

/-- The loop of `GetSigOpCount`. -/
def sigOpLoop (fAccurate : Bool) : Opcode → List Op → ℕ
  | _, [] => 0
  | lastOpcode, op :: ops =>
    sigOps fAccurate lastOpcode (opcodetype op.opcode) + sigOpLoop fAccurate
    (opcodetype op.opcode) ops

/-- `sigOpCount_le` shows the 32 bits of the source to be enough for any script that is executed. -/
def getSigOpCount (script : CScript) (fAccurate : Bool) : ℕ :=
    sigOpLoop fAccurate .invalid (scan script).ops

/-! ## The count -/

lemma multisigOps_le (fAccurate : Bool) (lastOpcode : Opcode) :
    multisigOps fAccurate lastOpcode ≤ MAX_PUBKEYS_PER_MULTISIG := by
  unfold multisigOps MAX_PUBKEYS_PER_MULTISIG
  split
  · split_ifs with hsmall
    · omega
    · exact le_rfl
  · exact le_rfl

lemma multisigOps_false (lastOpcode : Opcode) : multisigOps false lastOpcode
    = MAX_PUBKEYS_PER_MULTISIG := by
  unfold multisigOps
  split <;> simp

lemma sigOps_le_max (fAccurate : Bool) (lastOpcode opcode : Opcode) :
    sigOps fAccurate lastOpcode opcode ≤ sigOps false lastOpcode opcode ∧
      sigOps false lastOpcode opcode ≤ MAX_PUBKEYS_PER_MULTISIG := by
  have hmultisig := multisigOps_le fAccurate lastOpcode
  unfold sigOps
  split
  · exact ⟨le_rfl, by decide⟩
  · exact ⟨le_rfl, by decide⟩
  · rw [multisigOps_false]
    exact ⟨hmultisig, le_rfl⟩
  · rw [multisigOps_false]
    exact ⟨hmultisig, le_rfl⟩
  · exact ⟨le_rfl, Nat.zero_le _⟩

lemma sigOpLoop_le (fAccurate : Bool) (lastOpcode : Opcode) (ops : List Op) :
    sigOpLoop fAccurate lastOpcode ops ≤ sigOpLoop false lastOpcode ops ∧
      sigOpLoop false lastOpcode ops ≤ MAX_PUBKEYS_PER_MULTISIG * ops.length := by
  induction ops generalizing lastOpcode with
  | nil => exact ⟨le_rfl, Nat.zero_le _⟩
  | cons op ops ih =>
    have hop := sigOps_le_max fAccurate lastOpcode (opcodetype op.opcode)
    have hops := ih (opcodetype op.opcode)
    rw [sigOpLoop, sigOpLoop, List.length_cons, Nat.mul_succ]
    omega

/-- Every operation takes a byte. -/
lemma scan_ops_length_le (script : CScript) : (scan script).ops.length ≤ script.length := by
  induction script using script_induction with
  | error pc stopped h =>
    rw [scan_error h]
    exact Nat.zero_le _
  | ok pc op h ih =>
    have hlength := getScriptOp_length h
    rw [scan_ok h, Scan.cons_ops, List.length_cons]
    omega

lemma sigOpCount_le (script : CScript) : getSigOpCount script true ≤ getSigOpCount script false ∧
    getSigOpCount script false ≤ MAX_PUBKEYS_PER_MULTISIG * script.length := by
  have hloop := sigOpLoop_le true .invalid (scan script).ops
  exact ⟨hloop.1, hloop.2.trans (Nat.mul_le_mul_left _ (scan_ops_length_le script))⟩

/-! ## The checks of one opcode -/

lemma require_eq_ok {ok : Bool} {serror : ScriptError} {u : Unit}
    (h : require ok serror = .ok u) : ok = true := by
  cases ok with
  | false => cases h
  | true => rfl

section Work

open Counted

variable (env : Env) (m : Machine)

lemma evalChecksigPreTapscript_work_le (vchSig vchPubKey : Bytes) (pbegincodehash : CScript) :
    (evalChecksigPreTapscript env vchSig vchPubKey pbegincodehash).work ≤ 1 := by
  apply work_lift_bind_le
  intro scriptCode _
  apply work_lift_bind_le
  intro _ _
  apply work_lift_bind_le
  intro _ _
  refine work_bind_le (n := 1) (m := 0) le_rfl ?_
  intro fSuccess _
  exact work_lift_bind_le fun _ _ => le_rfl

lemma evalChecksig_work_le (sig pubkey : Bytes) (pbegincodehash : CScript)
    (execdata : ScriptExecutionData) :
    (evalChecksig env sig pubkey pbegincodehash execdata).work ≤ 1 := by
  have hpre := evalChecksigPreTapscript_work_le env sig pubkey pbegincodehash
  unfold evalChecksig
  split
  · exact work_bind_le (m := 0) hpre fun _ _ => le_rfl
  · exact work_bind_le (m := 0) hpre fun _ _ => le_rfl
  · exact Nat.zero_le _
  · exact Nat.zero_le _

lemma evalOpChecksig_work_le (verify : Option ScriptError) :
    (evalOpChecksig env m verify).work ≤ 1 := by
  apply work_lift_bind_le
  intro _ _
  apply work_lift_bind_le
  intro vchSig _
  apply work_lift_bind_le
  intro vchPubKey _
  refine work_bind_le
    (evalChecksig_work_le env vchSig vchPubKey m.pbegincodehash m.execdata) (m := 0) ?_
  rintro ⟨fSuccess, execdata⟩ _
  refine (work_bind_eq_zero rfl fun _ => ?_).le
  exact work_bind_eq_zero rfl fun _ => work_bind_eq_zero rfl fun _ => rfl

/-- There is a check for a key at most. -/
lemma multisigLoop_work_le (scriptCode : CScript) (stack : Stack)
    (nKeysCount nSigsCount isig ikey : ℕ) :
    (multisigLoop env scriptCode stack nKeysCount nSigsCount isig ikey).work ≤ nKeysCount := by
  induction nKeysCount generalizing nSigsCount isig ikey with
  | zero => cases nSigsCount <;> exact le_rfl
  | succ nKeysCount ih =>
    cases nSigsCount with
    | zero => exact Nat.zero_le _
    | succ nSigsCount =>
      apply work_lift_bind_le
      intro vchSig _
      apply work_lift_bind_le
      intro vchPubKey _
      apply work_lift_bind_le
      intro _ _
      apply work_lift_bind_le
      intro _ _
      rw [add_comm nKeysCount 1]
      refine work_bind_le (n := 1)
        (le_refl (checkECDSASignature env vchSig vchPubKey scriptCode).work) ?_
      intro fOk _
      generalize (if fOk then nSigsCount else nSigsCount + 1) = nSigsLeft
      by_cases hexit : nSigsLeft > nKeysCount
      · rw [if_pos hexit]
        exact Nat.zero_le _
      · rw [if_neg hexit]
        exact ih _ _ _

/-- The checks of a multisig are bounded by what bounds its number of keys. -/
lemma evalMultisig_work_le {bound : ℕ}
    (hbound : ∀ n, numberAt env m.stack 1 4 = .ok n → 0 ≤ getint n →
    getint n ≤ MAX_PUBKEYS_PER_MULTISIG →
      (getint n).toNat ≤ bound) : (evalMultisig env m).work ≤ bound := by
  apply work_lift_bind_le
  intro _ _
  apply work_lift_bind_le
  intro _ _
  apply work_lift_bind_le
  intro n hn
  apply work_lift_bind_le
  intro _ hcount
  have hkeys : (getint n).toNat ≤ bound := by
    have hvalid := require_eq_ok hcount
    simp only [Bool.and_eq_true, decide_eq_true_eq] at hvalid
    exact hbound n hn hvalid.1 hvalid.2
  apply work_lift_bind_le
  intro _ _
  apply work_lift_bind_le
  intro _ _
  apply work_lift_bind_le
  intro _ _
  apply work_lift_bind_le
  intro _ _
  apply work_lift_bind_le
  intro _ _
  apply work_lift_bind_le
  intro scriptCode _
  refine work_bind_le (m := 0)
    ((multisigLoop_work_le env scriptCode m.stack _ _ _ _).trans hkeys) ?_
  intro fSuccess _
  refine (work_bind_eq_zero rfl fun _ => work_bind_eq_zero rfl fun _ => ?_).le
  exact work_bind_eq_zero rfl fun _ => work_bind_eq_zero rfl fun _ =>
    work_bind_eq_zero rfl fun _ => rfl

lemma evalOpCheckmultisig_work_le (verify : Option ScriptError) {bound : ℕ}
    (h : (evalMultisig env m).work ≤ bound) : (evalOpCheckmultisig env m verify).work ≤ bound := by
  refine work_bind_le (m := 0) h ?_
  rintro ⟨fSuccess, m⟩ _
  exact (work_bind_eq_zero rfl fun _ => rfl).le

/-! ## One operation of a run -/

/-- A small number that an opcode pushed is on top of the stack, if that opcode was executed. -/
def Pushed (lastOpcode : Opcode) : Prop :=
  ∀ n, lastOpcode = .stack (.number n) → m.vfExec.all_true = true → ∃ rest,
  m.stack = serialize n :: rest

variable {env m}

/-- A small number is read back as it was pushed, also where it must be minimal. -/
lemma getint_small {n : ℤ} (hlow : 1 ≤ n) (hhigh : n ≤ 16) (fRequireMinimal : Bool) :
    CScriptNum (serialize n) fRequireMinimal 4 = .ok n ∧ getint n = n := by
  cases fRequireMinimal <;> interval_cases n <;> decide +kernel

lemma evalMultisig_work_le_ops {lastOpcode : Opcode} (hpushed : Pushed m lastOpcode)
    (hexec : m.vfExec.all_true = true) : (evalMultisig env m).work
    ≤ multisigOps true lastOpcode := by
  apply evalMultisig_work_le
  intro n hn hlow hhigh
  have hmax : (getint n).toNat ≤ MAX_PUBKEYS_PER_MULTISIG := by omega
  unfold multisigOps
  split
  case h_1 k =>
    split_ifs with hsmall
    · -- The number of keys is the number that was pushed.
      obtain ⟨-, hlow', hhigh'⟩ := hsmall
      obtain ⟨rest, hstack⟩ := hpushed k rfl hexec
      obtain ⟨hread, hint⟩ := getint_small hlow' hhigh' (env.flags .MINIMALDATA)
      rw [hstack] at hn
      obtain rfl : k = n := Except.ok.inj (hread.symm.trans hn)
      rw [hint]
    · exact hmax
  case h_2 => exact hmax

variable (hversion : env.sigversion = .BASE ∨ env.sigversion = .WITNESS_V0)
include hversion

lemma evalOp_work_le {lastOpcode : Opcode} (op : Op) (opcode : Opcode)
    (hpushed : Pushed m lastOpcode)
    (hexec : m.vfExec.all_true = true ∨ opcode.conditional = true) :
    (evalOp env op m opcode).work ≤ sigOps true lastOpcode opcode := by
  cases opcode with
  | OP_CHECKSIG => exact evalOpChecksig_work_le env m none
  | OP_CHECKSIGVERIFY => exact evalOpChecksig_work_le env m _
  | OP_CHECKMULTISIG =>
    have hall : m.vfExec.all_true = true := hexec.resolve_right (by decide)
    exact evalOpCheckmultisig_work_le env m none (evalMultisig_work_le_ops hpushed hall)
  | OP_CHECKMULTISIGVERIFY =>
    have hall : m.vfExec.all_true = true := hexec.resolve_right (by decide)
    exact evalOpCheckmultisig_work_le env m _ (evalMultisig_work_le_ops hpushed hall)
  | OP_CHECKSIGADD =>
    -- It is not an opcode of these versions.
    apply work_lift_bind_le
    intro _ hversion'
    have hother := require_eq_ok hversion'
    rcases hversion with hbase | hwitness
    · simp [hbase] at hother
    · simp [hwitness] at hother
  | push => exact (work_bind_eq_zero rfl fun _ => rfl).le
  | stack stackOp => exact (work_bind_eq_zero rfl fun _ => rfl).le
  | OP_TOALTSTACK =>
      exact (work_bind_eq_zero rfl fun _ => work_bind_eq_zero rfl fun _ =>
      work_bind_eq_zero rfl fun _ => rfl).le
  | OP_FROMALTSTACK =>
      exact (work_bind_eq_zero rfl fun _ => work_bind_eq_zero rfl fun _ =>
      work_bind_eq_zero rfl fun _ => rfl).le
  | OP_ELSE => exact (work_bind_eq_zero rfl fun _ => work_bind_eq_zero rfl fun _ => rfl).le
  | OP_ENDIF => exact (work_bind_eq_zero rfl fun _ => work_bind_eq_zero rfl fun _ => rfl).le
  | OP_IF => exact le_rfl
  | OP_NOTIF => exact le_rfl
  | OP_CODESEPARATOR => exact le_rfl
  | verif => exact le_rfl
  | disabled => exact le_rfl
  | invalid => exact le_rfl

/-- **An operation makes no more checks than are counted for it.** -/
lemma step_work_le {lastOpcode : Opcode} (op : Op) (hpushed : Pushed m lastOpcode) :
    (step env op m).work ≤ sigOps true lastOpcode (opcodetype op.opcode) := by
  apply work_lift_bind_le
  intro nOpCount _
  refine work_bind_le (m := 0) ?_ fun after _ => (work_bind_eq_zero rfl fun _ => rfl).le
  rw [execOp]
  split_ifs with hexec
  · exact evalOp_work_le hversion op _ hpushed (by simpa using hexec)
  · exact Nat.zero_le _

omit hversion in
/-- A number that is pushed is on the stack for the next operation. -/
lemma step_pushed {op : Op} {after : Machine} (h : (step env op m).result = .ok after) :
    Pushed after (opcodetype op.opcode) := by
  intro n hop hexec
  obtain ⟨nOpCount, -, hstep⟩ := result_bind_eq_ok h
  obtain ⟨done, hdone, hrest⟩ := result_bind_eq_ok hstep
  obtain ⟨_, -, hafter⟩ := result_bind_eq_ok hrest
  obtain rfl := Except.ok.inj hafter
  rw [execOp, hop] at hdone
  split_ifs at hdone with hactive
  · obtain rfl := Except.ok.inj hdone
    exact ⟨m.stack, rfl⟩
  · -- In a branch that is not executed nothing changes.
    obtain rfl := Except.ok.inj hdone
    simp only [Bool.or_eq_true, not_or] at hactive
    exact absurd hexec hactive.1

/-! ## A whole run -/

lemma evalLoop_work_le (ops : List Op) : ∀ {m : Machine} {lastOpcode : Opcode},
    Pushed m lastOpcode →
    (evalLoop env ops m).work ≤ sigOpLoop true lastOpcode ops := by
  induction ops with
  | nil =>
    intro m lastOpcode _
    exact le_rfl
  | cons op ops ih =>
    intro m lastOpcode hpushed
    exact work_bind_le (step_work_le hversion op hpushed) fun after hafter =>
      ih (step_pushed hafter)

end Work

/-- **The count bounds the work.** Whatever the flags, the stack and the outcome, a run of a script
makes no more signature checks than `GetSigOpCount(true)`, which is not more than
`GetSigOpCount(false)`. -/
theorem checks_le_sigOpCount (env : Env) (script : CScript) (stack : Stack)
    (execdata : ScriptExecutionData)
    (hversion : env.sigversion = .BASE ∨ env.sigversion = .WITNESS_V0) :
    (evalScript env script stack execdata).work ≤ getSigOpCount script true ∧
      getSigOpCount script true ≤ getSigOpCount script false ∧
      getSigOpCount script false ≤ MAX_PUBKEYS_PER_MULTISIG * script.length := by
  refine ⟨?_, sigOpCount_le script⟩
  rw [evalScript]
  split_ifs with htaproot hsize
  · exact Nat.zero_le _
  · exact Nat.zero_le _
  · have hstart : ∀ m, Pushed m .invalid := by
      intro m n hnone
      cases hnone
    refine Counted.work_bind_le (m := 0) (evalLoop_work_le hversion _ (hstart _)) fun m _ => ?_
    exact (Counted.work_bind_eq_zero rfl fun _ => Counted.work_bind_eq_zero rfl fun _ => rfl).le

/-- Nothing is checked, and every signature is accepted. -/
def acceptAll (sigversion : SigVersion) : Env where
  flags := fun _ => false
  sigversion := sigversion
  checker := ⟨fun _ _ _ _ => true, fun _ _ _ _ => none, fun _ => true, fun _ => true⟩
  ripemd160 := id
  sha1 := id
  sha256 := id
  checkLowS := fun _ => true

/-- One signature of two keys: one check is made, two are counted, and twenty without the number of
keys. -/
theorem checks_le_sigOpCount_oneOfTwo :
    (evalScript (acceptAll .BASE) [0x00, 0x00, 0x51, 0x00, 0x00, 0x52, 0xae] [] ⟨0, false,
    0⟩).work = 1 ∧
      getSigOpCount [0x00, 0x00, 0x51, 0x00, 0x00, 0x52, 0xae] true = 2 ∧
      (evalScript (acceptAll .BASE) [0x00, 0x00, 0x51, 0x00, 0x00, 0x52, 0xae] []
      ⟨0, false, 0⟩).work ≤
        getSigOpCount [0x00, 0x00, 0x51, 0x00, 0x00, 0x52, 0xae] true :=
  ⟨by decide +kernel, by decide +kernel,
  (checks_le_sigOpCount (acceptAll .BASE) _ [] ⟨0, false, 0⟩ (Or.inl rfl)).1⟩

end Bitcoin.Script
