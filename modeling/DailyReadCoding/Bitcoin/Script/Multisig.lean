import DailyReadCoding.Bitcoin.Script.SigOps
import DailyReadCoding.Lib.GreedyMatch

/-!
# `OP_CHECKMULTISIG`

The stack holds, from its top, the number of keys, the keys, the number of signatures, the
signatures, and an element that is removed without being used. Signatures are tried against keys
from the top on, each key once.
-/

namespace Bitcoin.Script

open List GreedyMatch Counted

/-- The elements from `stacktop(-i)` down are those of a list. -/
def Lies (stack : Stack) (i : ℕ) (l : Stack) : Prop :=
  ∀ (j : ℕ) (vch : Bytes), l[j]? = some vch → stacktop stack (i + j) = .ok vch

lemma lies_append (before l after : Stack) : Lies (before ++ (l ++ after))
    (before.length + 1) l := by
  intro j vch hj
  have hbound : j < l.length := (List.getElem?_eq_some_iff.mp hj).1
  have hget : (before ++ (l ++ after))[before.length + j]? = some vch := by
    rw [getElem?_append_right (by omega), Nat.add_sub_cancel_left, getElem?_append_left hbound, hj]
  rw [add_right_comm, stacktop, hget]

lemma Lies.head {stack l : Stack} {i : ℕ} {vch : Bytes}
    (h : Lies stack i (vch :: l)) : stacktop stack i = .ok vch :=
  h 0 vch rfl

lemma Lies.tail {stack l : Stack} {i : ℕ} {vch : Bytes} (h : Lies stack i (vch :: l)) : Lies stack
    (i + 1) l := by
  intro j other hj
  rw [add_assoc, add_comm 1]
  exact h (j + 1) other hj

/-- No flag asks for the encoding of signatures or keys. -/
structure Unencoded (env : Env) : Prop where
  dersig : env.flags .DERSIG = false
  low_s : env.flags .LOW_S = false
  strictenc : env.flags .STRICTENC = false
  witness_pubkeytype : env.flags .WITNESS_PUBKEYTYPE = false

lemma Unencoded.signature {env : Env} (h : Unencoded env) (vchSig : Bytes) :
    checkSignatureEncoding env vchSig = .ok () := by
  rw [checkSignatureEncoding, h.dersig, h.low_s, h.strictenc]
  split_ifs with hempty <;> rfl

lemma Unencoded.pubkey {env : Env} (h : Unencoded env) (vchPubKey : Bytes) :
    checkPubKeyEncoding env vchPubKey = .ok () := by
  rw [checkPubKeyEncoding, h.strictenc, h.witness_pubkeytype]
  rfl

section Loops

variable {env : Env} {stack : Stack}

/-- The script code that the signatures are checked with. -/
def scriptCodeWithout (env : Env) (sigs : Stack) (scriptCode : CScript) : Except Halt CScript :=
  sigs.foldlM (fun scriptCode vchSig => dropSignature env vchSig scriptCode) scriptCode

lemma dropSignatures_eq {sigs : Stack} : ∀ {isig : ℕ} (scriptCode : CScript), Lies stack isig sigs →
    dropSignatures env stack sigs.length isig scriptCode
    = scriptCodeWithout env sigs scriptCode := by
  induction sigs with
  | nil =>
    intro isig scriptCode _
    rfl
  | cons vchSig sigs ih =>
    intro isig scriptCode h
    rw [length_cons, dropSignatures, h.head]
    exact congrArg _ (funext fun scriptCode => ih scriptCode h.tail)

/-- Whether a signature is accepted with a key. -/
def accepts (env : Env) (scriptCode : CScript) (vchSig vchPubKey : Bytes) : Bool :=
  env.checker.checkECDSASignature vchSig vchPubKey scriptCode env.sigversion

lemma multisigLoop_round (henv : Unencoded env) (scriptCode : CScript) {vchSig vchPubKey : Bytes}
    {isig ikey : ℕ}
    (hsig : stacktop stack isig = .ok vchSig) (hkey : stacktop stack ikey = .ok vchPubKey)
    (nKeysCount nSigsCount : ℕ) :
    (multisigLoop env scriptCode stack (nKeysCount + 1) (nSigsCount + 1) isig ikey).result =
      if accepts env scriptCode vchSig vchPubKey then if nSigsCount > nKeysCount then .ok false
        else (multisigLoop env scriptCode stack nKeysCount nSigsCount (isig + 1) (ikey + 1)).result
      else if nSigsCount + 1 > nKeysCount then .ok false
      else (multisigLoop env scriptCode stack nKeysCount (nSigsCount + 1) isig
        (ikey + 1)).result := by
  have hcheck : (checkECDSASignature env vchSig vchPubKey scriptCode).result =
      .ok (accepts env scriptCode vchSig vchPubKey) := rfl
  simp only [multisigLoop, hsig, hkey, henv.signature, henv.pubkey, monadLift_eq, lift_ok_bind]
  rw [bind_ok hcheck]
  cases accepts env scriptCode vchSig vchPubKey with
  | true => split_ifs <;> rfl
  | false => split_ifs <;> rfl

/-- The loop is the greedy choice, and stops early only where that fails. -/
lemma multisigLoop_eq (henv : Unencoded env) (scriptCode : CScript) {keys : Stack} :
    ∀ {sigs : Stack} {isig ikey : ℕ}, Lies stack isig sigs → Lies stack ikey keys →
      (multisigLoop env scriptCode stack keys.length sigs.length isig ikey).result =
        .ok (GreedyMatch.greedy (accepts env scriptCode) sigs keys) := by
  induction keys with
  | nil =>
    intro sigs isig ikey _ _
    cases sigs <;> rfl
  | cons vchPubKey keys ih =>
    intro sigs isig ikey hsigs hkeys
    cases sigs with
    | nil => rfl
    | cons vchSig sigs =>
      rw [length_cons, length_cons, multisigLoop_round henv scriptCode hsigs.head hkeys.head,
        greedy, ih hsigs.tail hkeys.tail, ← length_cons, ih hsigs hkeys.tail]
      split_ifs with hfits hexit hexit
      · rw [greedy_eq_false hexit]
      · rfl
      · rw [greedy_eq_false hexit]
      · rfl

lemma cleanUp_cons (fSuccess : Bool) (i ikey2 : ℕ) (vch : Bytes) (stack : Stack) :
    cleanUp env fSuccess (i + 1) ikey2 (vch :: stack) =
      if !fSuccess && env.flags .NULLFAIL && ikey2 == 0 && vch.length != 0 then fail .SIG_NULLFAIL
      else cleanUp env fSuccess i (ikey2 - 1) stack := by
  rw [cleanUp]
  cases (!fSuccess && env.flags .NULLFAIL && ikey2 == 0) with
  | true => cases vch <;> rfl
  | false => rfl

/-- The clean-up takes the elements before the signatures as they are. -/
lemma cleanUp_before (fSuccess : Bool) (n : ℕ) (before after : Stack) :
    cleanUp env fSuccess (before.length + n) before.length (before ++ after)
    = cleanUp env fSuccess n 0 after := by
  induction before with
  | nil => rw [length_nil, zero_add, nil_append]
  | cons vch before ih =>
    rw [length_cons, add_right_comm, cons_append, cleanUp_cons, if_neg (by simp)]
    exact ih

/-- After a failure the signatures must be empty, if a flag says so. -/
lemma cleanUp_sigs (fSuccess : Bool) (sigs after : Stack) :
    cleanUp env fSuccess sigs.length 0 (sigs ++ after) =
      if !fSuccess && env.flags .NULLFAIL && sigs.any (·.length != 0) then fail .SIG_NULLFAIL
        else .ok after := by
  induction sigs with
  | nil =>
    rw [any_nil, Bool.and_false]
    rfl
  | cons vchSig sigs ih =>
    rw [length_cons, cons_append, cleanUp_cons, ih, any_cons]
    cases (!fSuccess && env.flags .NULLFAIL) with
    | true => cases vchSig.length != 0 <;> rfl
    | false => rfl

end Loops

/-! ## The opcode -/

/-- The arguments of a multisig, and what is below them. -/
structure Layout where
  keysCount : Bytes
  keys : Stack
  sigsCount : Bytes
  sigs : Stack
  extra : Bytes
  rest : Stack

/-- The elements above the signatures. -/
def Layout.above (l : Layout) : Stack := l.keysCount :: (l.keys ++ [l.sigsCount])

def Layout.stack (l : Layout) : Stack := l.above ++ (l.sigs ++ l.extra :: l.rest)

/-- The counts are right, and not too large. -/
structure Layout.Valid (env : Env) (l : Layout) : Prop where
  keysCount : CScriptNum l.keysCount (env.flags .MINIMALDATA) 4 = .ok l.keys.length
  sigsCount : CScriptNum l.sigsCount (env.flags .MINIMALDATA) 4 = .ok l.sigs.length
  keys_le : l.keys.length ≤ MAX_PUBKEYS_PER_MULTISIG
  sigs_le : l.sigs.length ≤ l.keys.length

/-- An assignment of all signatures to keys that accept them, in the order of both. -/
def Assignable (env : Env) (scriptCode : CScript) (sigs keys : Stack) : Prop :=
  ∃ f : Fin sigs.length → Fin keys.length, StrictMono f ∧
    ∀ i, env.checker.checkECDSASignature (sigs.get i)
    (keys.get (f i)) scriptCode env.sigversion = true

lemma greedy_iff_assignable (scriptCode : CScript) (sigs keys : Stack) (env : Env) :
    GreedyMatch.greedy (accepts env scriptCode) sigs keys = true ↔
    Assignable env scriptCode sigs keys := by
  rw [greedy_iff, sublistForall₂_iff_strictMono]
  rfl

lemma getint_natCast {n : ℕ} (h : n ≤ MAX_PUBKEYS_PER_MULTISIG) : getint n = n := by
  unfold getint MAX_PUBKEYS_PER_MULTISIG at *
  omega

lemma require_ok {ok : Bool} (h : ok = true) (serror : ScriptError) : require ok serror
    = .ok () := by
  rw [h]
  rfl

namespace Layout

variable {env : Env} (l : Layout)

lemma length_above : l.above.length = l.keys.length + 2 := by simp [above]

lemma needs_ok {n : ℕ} (h : n ≤ l.keys.length + l.sigs.length + 3) : needs l.stack n = .ok () := by
  apply require_ok
  rw [decide_eq_true_eq, stack, length_append, length_append, l.length_above, length_cons]
  omega

lemma keys_lie : Lies l.stack 2 l.keys := by
  have hlie := lies_append [l.keysCount] l.keys ([l.sigsCount] ++ (l.sigs ++ l.extra :: l.rest))
  rwa [← append_assoc l.keys, ← append_assoc] at hlie

lemma sigsCount_lies : Lies l.stack (l.keys.length + 2) [l.sigsCount] := by
  have hlie := lies_append (l.keysCount :: l.keys) [l.sigsCount] (l.sigs ++ l.extra :: l.rest)
  rwa [← append_assoc] at hlie

lemma sigs_lie : Lies l.stack (l.keys.length + 3) l.sigs := by
  have hlie := lies_append l.above l.sigs (l.extra :: l.rest)
  rwa [l.length_above] at hlie

/-- What the clean-up removes, and when it refuses. -/
lemma cleanUp_eq (fSuccess : Bool) :
    cleanUp env fSuccess (l.keys.length + l.sigs.length + 2) (l.keys.length + 2) l.stack =
      if !fSuccess && env.flags .NULLFAIL && l.sigs.any (·.length != 0) then fail .SIG_NULLFAIL
      else .ok (l.extra :: l.rest) := by
  rw [← cleanUp_sigs, ← cleanUp_before fSuccess l.sigs.length l.above, l.length_above,
    add_right_comm]
  rfl

variable {l}

lemma Valid.numberAt_keys (h : l.Valid env) : numberAt env l.stack 1 4 = .ok l.keys.length :=
    h.keysCount

lemma Valid.numberAt_sigs (h : l.Valid env) : numberAt env l.stack (l.keys.length + 2) 4
    = .ok l.sigs.length := by
  rw [numberAt, l.sigsCount_lies.head]
  exact h.sigsCount

end Layout

section Opcode

variable {env : Env} {m : Machine} {l : Layout}

/-- What is done about the arguments of a multisig, once they are known to be there. -/
lemma evalMultisig_eq (henv : Unencoded env) (hversion : env.sigversion ≠ .TAPSCRIPT)
    (hstack : m.stack = l.stack)
    (hvalid : l.Valid env) : (evalMultisig env m).result =
      if MAX_OPS_PER_SCRIPT < m.nOpCount + l.keys.length then fail .OP_COUNT
      else scriptCodeWithout env l.sigs m.pbegincodehash >>= fun scriptCode =>
        let fSuccess := GreedyMatch.greedy (accepts env scriptCode) l.sigs l.keys
        if !fSuccess && env.flags .NULLFAIL && l.sigs.any (·.length != 0) then fail .SIG_NULLFAIL
        else if env.flags .NULLDUMMY && l.extra.length != 0 then fail .SIG_NULLDUMMY
        else .ok (fSuccess,
          { m with stack := l.rest, nOpCount := m.nOpCount + l.keys.length }) := by
  have hkeys := hvalid.keys_le
  have hsigs := hvalid.sigs_le
  have hkeysInt : getint l.keys.length = l.keys.length := getint_natCast hkeys
  have hsigsInt : getint l.sigs.length = l.sigs.length := getint_natCast (hsigs.trans hkeys)
  have hkeysRange : (decide ((0 : ℤ) ≤ l.keys.length) &&
      decide ((l.keys.length : ℤ) ≤ MAX_PUBKEYS_PER_MULTISIG)) = true := by simpa using hkeys
  have hsigsRange : (decide ((0 : ℤ) ≤ l.sigs.length) &&
      decide ((l.sigs.length : ℤ) ≤ l.keys.length)) = true := by simpa using hsigs
  have hneeds : needs l.stack 1 = .ok () := l.needs_ok (by omega)
  have hneedsKeys : needs l.stack (l.keys.length + 2) = .ok () := l.needs_ok (by omega)
  have hneedsSigs : needs l.stack (l.keys.length + l.sigs.length + 3) = .ok () := l.needs_ok le_rfl
  simp only [evalMultisig, hstack, monadLift_eq, require_ok (decide_eq_true hversion), hneeds,
    hvalid.numberAt_keys, hkeysInt, hkeysRange, require_ok, lift_ok_bind]
  by_cases hops : MAX_OPS_PER_SCRIPT < m.nOpCount + l.keys.length
  · rw [if_pos hops, require, if_neg (by simpa using hops)]
    rfl
  · rw [if_neg hops, require_ok (by simpa using hops)]
    simp only [hneedsKeys, hvalid.numberAt_sigs, hsigsInt, hsigsRange, require_ok,
      Int.toNat_natCast, hneedsSigs,
      lift_ok_bind, dropSignatures_eq _ l.sigs_lie, result_bind, result_lift]
    refine congrArg _ (funext fun scriptCode => ?_)
    rw [multisigLoop_eq henv scriptCode l.sigs_lie l.keys_lie]
    generalize greedy (accepts env scriptCode) l.sigs l.keys = fSuccess
    change (cleanUp env fSuccess _ _ _ >>= fun _ => _) = _
    rw [l.cleanUp_eq]
    cases (!fSuccess && env.flags .NULLFAIL && l.sigs.any (·.length != 0)) with
    | true => rfl
    | false =>
      change (require
        (!(env.flags .NULLDUMMY && l.extra.length != 0)) .SIG_NULLDUMMY >>= fun _ => _) = _
      cases env.flags .NULLDUMMY && l.extra.length != 0 <;> rfl

/-- Dropping a signature only fails if it is found and must not be. -/
lemma dropSignature_error {vchSig : Bytes} {scriptCode : CScript} {halt : Halt}
    (h : dropSignature env vchSig scriptCode = .error halt) :
    halt = .error .SIG_FINDANDDELETE ∧ env.sigversion = .BASE ∧
    env.flags .CONST_SCRIPTCODE = true := by
  rw [dropSignature] at h
  split_ifs at h with hbase
  · cases hconst : env.flags .CONST_SCRIPTCODE with
    | true =>
      cases hfound : decide (0 < (findAndDelete scriptCode (pushOf vchSig)).2) with
      | true =>
        simp only [hfound, hconst] at h
        exact ⟨(Except.error.inj h).symm, hbase, rfl⟩
      | false =>
        simp only [hfound] at h
        cases h
    | false =>
      simp only [hconst, Bool.and_false] at h
      cases h
  · cases h

lemma scriptCodeWithout_error {sigs : Stack} {halt : Halt} : ∀ {scriptCode : CScript},
    scriptCodeWithout env sigs scriptCode = .error halt →
      halt = .error .SIG_FINDANDDELETE ∧ env.sigversion = .BASE ∧
      env.flags .CONST_SCRIPTCODE = true := by
  induction sigs with
  | nil =>
    intro scriptCode h
    cases h
  | cons vchSig sigs ih =>
    intro scriptCode h
    rw [scriptCodeWithout, foldlM_cons] at h
    cases hdrop : dropSignature env vchSig scriptCode with
    | error other =>
      rw [hdrop] at h
      obtain rfl := Except.error.inj h
      exact dropSignature_error hdrop
    | ok dropped =>
      rw [hdrop] at h
      exact ih h

end Opcode

/-- **`OP_CHECKMULTISIG`** on valid arguments, with no flag about encodings. It makes no more checks
than there are keys. It fails if the limit of operations is passed, if a signature is found in the
script code and must not be, if no assignment exists and a signature is not empty although it must
be, or if the extra element is not empty although it must be. Otherwise it removes the counts, keys,
signatures and the extra element, and pushes whether there is an assignment of the signatures to
keys. -/
theorem checkmultisig_spec (env : Env) (m : Machine) (l : Layout) (henv : Unencoded env)
    (hversion : env.sigversion ≠ .TAPSCRIPT) (hstack : m.stack = l.stack) (hvalid : l.Valid env) :
    (evalOpCheckmultisig env m none).work ≤ l.keys.length ∧
    (MAX_OPS_PER_SCRIPT < m.nOpCount + l.keys.length
    → (evalOpCheckmultisig env m none).result = fail .OP_COUNT) ∧
    (m.nOpCount + l.keys.length ≤ MAX_OPS_PER_SCRIPT →
      (∀ halt, scriptCodeWithout env l.sigs m.pbegincodehash = .error halt →
        env.sigversion = .BASE ∧ env.flags .CONST_SCRIPTCODE = true ∧
        (evalOpCheckmultisig env m none).result = fail .SIG_FINDANDDELETE) ∧
      ∀ scriptCode, scriptCodeWithout env l.sigs m.pbegincodehash = .ok scriptCode →
        ∃ fSuccess : Bool, (fSuccess = true ↔ Assignable env scriptCode l.sigs l.keys) ∧
          (evalOpCheckmultisig env m none).result =
            if !fSuccess && env.flags .NULLFAIL && l.sigs.any (·.length != 0)
              then fail .SIG_NULLFAIL
            else if env.flags .NULLDUMMY && l.extra.length != 0 then fail .SIG_NULLDUMMY
            else .ok { m with
              stack := ofBool fSuccess :: l.rest
              nOpCount := m.nOpCount + l.keys.length }) := by
  have hresult : (evalOpCheckmultisig env m none).result = (evalMultisig env m).result >>= fun r =>
      .ok { r.2 with stack := ofBool r.1 :: r.2.stack } := result_bind _ _
  rw [hresult, evalMultisig_eq henv hversion hstack hvalid]
  refine ⟨?_, fun hops => ?_, fun hops => ⟨fun halt herror => ?_, fun scriptCode hcode => ?_⟩⟩
  · refine evalOpCheckmultisig_work_le env m none (evalMultisig_work_le env m fun n hn _ _ => ?_)
    rw [hstack, hvalid.numberAt_keys] at hn
    obtain rfl := Except.ok.inj hn
    rw [getint_natCast hvalid.keys_le, Int.toNat_natCast]
  · rw [if_pos hops]
    rfl
  · obtain ⟨rfl, hbase, hconst⟩ := scriptCodeWithout_error herror
    rw [if_neg (by omega), herror]
    exact ⟨hbase, hconst, rfl⟩
  · refine ⟨greedy (accepts env scriptCode) l.sigs l.keys,
      greedy_iff_assignable scriptCode _ _ env, ?_⟩
    rw [if_neg (by omega), hcode]
    change (if _ then _ else _ : Except Halt (Bool × Machine)) >>= _ = _
    split_ifs <;> rfl

/-- One signature and one key, above an extra element that is not empty. -/
def oneOfOne : Layout := ⟨[1], [[2]], [1], [[3]], [1], []⟩

def oneOfOneMachine : Machine := ⟨oneOfOne.stack, [], ConditionStack.new, [], 0, 0, ⟨0, false, 0⟩⟩

/-- Every signature is accepted, and `SCRIPT_VERIFY_NULLDUMMY` is set. -/
def nulldummy : Env := { acceptAll .BASE with flags := fun flag => flag = .NULLDUMMY }

lemma oneOfOne_assignable (env : Env) (h : env.checker = (acceptAll .BASE).checker) :
    Assignable env [] oneOfOne.sigs oneOfOne.keys :=
  ⟨id, strictMono_id, fun i => by rw [h]; rfl⟩

/-- The extra element makes the opcode fail although the signature fits its key. -/
theorem checkmultisig_nulldummy : Unencoded nulldummy ∧ oneOfOne.Valid nulldummy ∧
    Assignable nulldummy [] oneOfOne.sigs oneOfOne.keys ∧
    (evalOpCheckmultisig nulldummy oneOfOneMachine none).result = fail .SIG_NULLDUMMY :=
  ⟨⟨rfl, rfl, rfl, rfl⟩, ⟨by decide, by decide, by decide, by decide⟩,
  oneOfOne_assignable nulldummy rfl, rfl⟩

/-- Two signatures of three keys, above an element that is not touched. -/
def twoOfThree : Layout := ⟨[3], [[2], [3], [4]], [2], [[5], [6]], [], [[7]]⟩

def twoOfThreeMachine : Machine :=
  ⟨twoOfThree.stack, [], ConditionStack.new, [], 0, 0, ⟨0, false, 0⟩⟩

/-- The first signature fits the first key and the second one the third. -/
def fitting : Env :=
  { acceptAll .BASE with
    checker := { (acceptAll .BASE).checker with
      checkECDSASignature := fun vchSig vchPubKey _ _ =>
        (vchSig, vchPubKey) == ([5], [2]) || (vchSig, vchPubKey) == ([6], [4]) } }

/-- The second key is passed over, and the assignment is found. -/
theorem checkmultisig_spec_twoOfThree : Unencoded fitting ∧ twoOfThree.Valid fitting ∧
    Assignable fitting [] twoOfThree.sigs twoOfThree.keys ∧
    (evalOpCheckmultisig fitting twoOfThreeMachine none).work ≤ 3 ∧
    (evalOpCheckmultisig fitting twoOfThreeMachine none).result =
      .ok { twoOfThreeMachine with stack := ofBool true :: [[7]], nOpCount := 3 } := by
  have henv : Unencoded fitting := ⟨rfl, rfl, rfl, rfl⟩
  have hvalid : twoOfThree.Valid fitting := ⟨by decide, by decide, by decide, by decide⟩
  have hassign : Assignable fitting [] twoOfThree.sigs twoOfThree.keys := by
    let f : Fin 2 → Fin 3 := fun i => if i = 0 then 0 else 2
    have hmono : ∀ i j : Fin 2, i < j → f i < f j := by decide
    have haccepts : ∀ i : Fin 2, fitting.checker.checkECDSASignature (twoOfThree.sigs.get i)
        (twoOfThree.keys.get (f i)) [] fitting.sigversion = true := by decide
    exact ⟨f, hmono, haccepts⟩
  obtain ⟨hwork, -, hrest⟩ := checkmultisig_spec fitting twoOfThreeMachine twoOfThree henv
    (by decide) rfl hvalid
  obtain ⟨fSuccess, hiff, hresult⟩ := (hrest (by decide)).2 [] rfl
  rw [hiff.mpr hassign] at hresult
  exact ⟨henv, hvalid, hassign, hwork, hresult⟩

end Bitcoin.Script
