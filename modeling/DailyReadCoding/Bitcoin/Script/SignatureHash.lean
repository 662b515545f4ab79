import DailyReadCoding.Bitcoin.Primitives.Serialize
import DailyReadCoding.Bitcoin.Script.Parse

/-!
# The legacy signature hash

`CTransactionSignatureSerializer` (`script/interpreter.cpp`) writes the bytes that a signature
signs. It is meant to write what the serialization of a modified copy of the transaction writes,
without making the copy; `SignatureHashOld` of the tests makes it.
-/

namespace Bitcoin.Script

open List Function

def SIGHASH_NONE : BitVec 32 := 2
def SIGHASH_SINGLE : BitVec 32 := 3
def SIGHASH_ANYONECANPAY : BitVec 32 := 0x80

structure CTransactionSignatureSerializer where
  txTo : CTransaction
  scriptCode : CScript
  nIn : ℕ
  fAnyoneCanPay : Bool
  fHashSingle : Bool
  fHashNone : Bool

namespace CTransactionSignatureSerializer

/-- The constructor. -/
def new (txTo : CTransaction) (scriptCode : CScript) (nIn : ℕ) (nHashType : BitVec 32) :
    CTransactionSignatureSerializer where
  txTo := txTo
  scriptCode := scriptCode
  nIn := nIn
  fAnyoneCanPay := nHashType &&& SIGHASH_ANYONECANPAY != 0
  fHashSingle := nHashType &&& 0x1f == SIGHASH_SINGLE
  fHashNone := nHashType &&& 0x1f == SIGHASH_NONE

variable (s : CTransactionSignatureSerializer)

/-- The first loop of `SerializeScriptCode`. -/
def nCodeSeparators : ℕ := (scan s.scriptCode).ops.countP fun op => op.opcode = OP_CODESEPARATOR

/-- The second loop of `SerializeScriptCode`: what it writes, and `itBegin` behind it. -/
def copyLoop : List Op → CScript → Bytes × CScript
  | [], itBegin => ([], itBegin)
  | op :: ops, itBegin =>
    if op.opcode = OP_CODESEPARATOR then
      let (written, last) := copyLoop ops op.pc
      (itBegin.take (itBegin.length - op.pc.length - 1) ++ written, last)
    else copyLoop ops itBegin

/-- The second loop of `SerializeScriptCode` and the write behind it, from a cursor on. -/
def copyFrom (itBegin pc : CScript) : Bytes :=
  let (written, last) := copyLoop (scan pc).ops itBegin
  written ++ if last ≠ [] then between last (scan pc).pc else []

def serializeScriptCode : Bytes :=
  writeCompactSize (s.scriptCode.length - s.nCodeSeparators) ++ copyFrom s.scriptCode s.scriptCode

/-- `none` is an index behind the end. -/
def serializeInput (nInput : ℕ) : Option Bytes :=
  let nInput := if s.fAnyoneCanPay then s.nIn else nInput
  s.txTo.vin[nInput]?.map fun txin =>
    txin.prevout.serialize ++
      (if nInput ≠ s.nIn then serializeScript [] else s.serializeScriptCode) ++
      (if nInput ≠ s.nIn ∧ (s.fHashSingle ∨ s.fHashNone) then writeLE 4 0
        else writeLE 4 txin.nSequence.toNat)

def serializeOutput (nOutput : ℕ) : Option Bytes :=
  if s.fHashSingle ∧ nOutput ≠ s.nIn then some CTxOut.null.serialize
  else s.txTo.vout[nOutput]?.map CTxOut.serialize

def nInputs : ℕ := if s.fAnyoneCanPay then 1 else s.txTo.vin.length

def nOutputs : ℕ :=
    if s.fHashNone then 0 else if s.fHashSingle then s.nIn + 1 else s.txTo.vout.length

def serialize : Option Bytes := do
  let inputs ← (List.range s.nInputs).mapM s.serializeInput
  let outputs ← (List.range s.nOutputs).mapM s.serializeOutput
  return writeLE 4 s.txTo.nVersion.toNat ++ writeCompactSize s.nInputs ++ inputs.flatten ++
    writeCompactSize s.nOutputs ++ outputs.flatten ++ writeLE 4 s.txTo.nLockTime.toNat

/-! ## The copy -/

/-- An input of the copy, before the others are dropped. -/
def copyInput (i : ℕ) (txin : CTxIn) : CTxIn where
  prevout := txin.prevout
  scriptSig := if i = s.nIn then (findAndDelete s.scriptCode [OP_CODESEPARATOR]).1 else []
  nSequence := if (s.fHashNone ∨ s.fHashSingle) ∧ i ≠ s.nIn then 0 else txin.nSequence

def copyInputs : List CTxIn := s.txTo.vin.mapIdx s.copyInput

/-- The transaction `SignatureHashOld` serializes. -/
def signatureCopy : CTransaction where
  nVersion := s.txTo.nVersion
  vin := if s.fAnyoneCanPay then s.copyInputs[s.nIn]?.toList else s.copyInputs
  vout :=
    if s.fHashNone then []
    else if s.fHashSingle then
      List.replicate s.nIn CTxOut.null ++ s.txTo.vout[s.nIn]?.toList
    else s.txTo.vout
  nLockTime := s.txTo.nLockTime

/-! ## The script code without separators -/

lemma eq_separator_cons {pc : CScript} {op : Op} (h : getScriptOp pc = .ok op)
    (hop : op.opcode = OP_CODESEPARATOR) : pc = OP_CODESEPARATOR :: op.pc := by
  obtain ⟨operand, hpc, hempty⟩ := getScriptOp_cases h
  rw [hpc, hempty (by rw [hop]; decide), hop]
  rfl

def stripped (pc : CScript) : CScript := (findAndDeleteLoop [OP_CODESEPARATOR] (pc.length + 1) pc).1

lemma stripped_separator (pc : CScript) : stripped (OP_CODESEPARATOR :: pc) = stripped pc := by
  have hrounds := findAndDeleteLoop_rounds (b := [OP_CODESEPARATOR])
    (by omega : pc.length < pc.length + 1) (by omega : pc.length < pc.length + 2)
  have hskip : skipPattern [OP_CODESEPARATOR] (pc.length + 1) (OP_CODESEPARATOR :: pc) =
      ((skipPattern [OP_CODESEPARATOR] pc.length pc).1,
        (skipPattern [OP_CODESEPARATOR] pc.length pc).2 + 1) := by
    rfl
  unfold stripped
  rw [hrounds]
  unfold findAndDeleteLoop
  rw [length_cons, hskip]
  cases hop : getScriptOp (skipPattern [OP_CODESEPARATOR] pc.length pc).1 <;> simp only [hop]

lemma skipPattern_of_opcode {pc : CScript} (hhead : ∀ rest, pc ≠ OP_CODESEPARATOR :: rest) (n : ℕ) :
    skipPattern [OP_CODESEPARATOR] n pc = (pc, 0) := by
  cases n with
  | zero => rfl
  | succ n =>
    refine if_neg ?_
    rintro ⟨rest, hrest⟩
    exact hhead rest hrest.symm

lemma stripped_error {pc stopped : CScript}
    (h : getScriptOp pc = .error stopped) : stripped pc = pc := by
  have hhead : ∀ rest, pc ≠ OP_CODESEPARATOR :: rest := by
    rintro rest rfl
    cases h
  unfold stripped findAndDeleteLoop
  rw [skipPattern_of_opcode hhead]
  simp only [h]

lemma stripped_op {pc : CScript} {op : Op} (h : getScriptOp pc = .ok op)
    (hop : op.opcode ≠ OP_CODESEPARATOR) : stripped pc = between pc op.pc ++ stripped op.pc := by
  have hhead : ∀ rest, pc ≠ OP_CODESEPARATOR :: rest := by
    rintro rest rfl
    obtain rfl := Except.ok.inj h
    exact hop rfl
  have hlength := getScriptOp_length h
  unfold stripped
  rw [findAndDeleteLoop, skipPattern_of_opcode hhead]
  simp only [h]
  rw [findAndDeleteLoop_rounds hlength (by omega : op.pc.length < op.pc.length + 1)]

lemma stripped_eq (script : CScript) :
    (findAndDelete script [OP_CODESEPARATOR]).1 = stripped script :=
  findAndDelete_eq (by simp) script

lemma stripped_length (script : CScript) : (stripped script).length +
    (scan script).ops.countP (fun op => op.opcode = OP_CODESEPARATOR) = script.length := by
  induction script using script_induction with
  | error pc stopped h => simp [stripped_error h, scan_error h]
  | ok pc op h ih =>
    rw [scan_ok h, Scan.cons_ops, countP_cons]
    by_cases hop : op.opcode = OP_CODESEPARATOR
    · rw [eq_separator_cons h hop, stripped_separator, length_cons]
      simp only [hop, decide_true, if_true]
      omega
    · have hbetween := congrArg length (between_append_of_suffix (getScriptOp_suffix h))
      rw [length_append] at hbetween
      rw [stripped_op h hop, length_append, if_neg (by simpa using hop)]
      omega

/-- What is written and the rest behind the cursor are the code without separators. -/
lemma copy_body (itBegin pc : CScript) (h : pc <:+ itBegin) :
    copyFrom itBegin pc ++ (scan pc).pc = between itBegin pc ++ stripped pc := by
  induction pc using script_induction generalizing itBegin with
  | error pc stopped hop =>
    have hstopped := (getScriptOp_error_suffix hop).trans h
    rw [stripped_error hop, between_append_of_suffix h, copyFrom, scan_error hop]
    dsimp only [copyLoop]
    split_ifs with hend
    · exact between_append_of_suffix hstopped
    · rw [not_not] at hend
      subst hend
      exact suffix_nil.mp hstopped
  | ok pc op hop ih =>
    have hsuffix := getScriptOp_suffix hop
    by_cases hsep : op.opcode = OP_CODESEPARATOR
    · have hpc := eq_separator_cons hop hsep
      have hrest := ih op.pc suffix_rfl
      have hcut : itBegin.take (itBegin.length - op.pc.length - 1) = between itBegin pc := by
        rw [between, hpc, length_cons, Nat.sub_sub]
      have hempty : between op.pc op.pc = [] := by simp [between]
      rw [hempty, nil_append] at hrest
      rw [hpc, stripped_separator, ← hpc, ← hrest, ← hcut, copyFrom, scan_ok hop]
      simp [copyLoop, hsep, copyFrom]
    · rw [stripped_op hop hsep, ← append_assoc, between_trans h hsuffix,
        ← ih itBegin (hsuffix.trans h),
        copyFrom, scan_ok hop]
      simp [copyLoop, hsep, copyFrom]

/-- The script code is written right exactly if the scan comes to the end of it. -/
lemma serializeScriptCode_iff :
    s.serializeScriptCode = serializeScript (findAndDelete s.scriptCode [OP_CODESEPARATOR]).1 ↔
      (scan s.scriptCode).pc = [] := by
  have hlength := stripped_length s.scriptCode
  have hprefix : s.scriptCode.length - s.nCodeSeparators = (stripped s.scriptCode).length := by
    rw [nCodeSeparators]
    omega
  have hbody := copy_body s.scriptCode s.scriptCode suffix_rfl
  have hempty : between s.scriptCode s.scriptCode = [] := by simp [between]
  rw [hempty, nil_append] at hbody
  rw [stripped_eq, serializeScriptCode, serializeScript, hprefix, append_cancel_left_eq]
  constructor
  · intro hsame
    rw [← hsame] at hbody
    exact append_right_eq_self.mp hbody
  · intro hend
    rw [← hbody, hend, append_nil]

/-! ## The frame around it -/

lemma mapM_eq_some {α β : Type} {f : α → Option β} {g : α → β} {l : List α}
    (h : ∀ a ∈ l, f a = some (g a)) : l.mapM f = some (l.map g) := by
  induction l with
  | nil => rfl
  | cons a l ih =>
    have htail := ih fun b hb => h b (mem_cons_of_mem a hb)
    rw [mapM_cons, h a mem_cons_self, htail]
    rfl

lemma flatMap_range_getElem {α : Type} (f : α → Bytes) (l : List α) :
    (range l.length).flatMap (fun i => ((l[i]?).map f).getD []) = l.flatMap f := by
  induction l with
  | nil => rfl
  | cons a l ih =>
    rw [length_cons, range_succ_eq_map, flatMap_cons, flatMap_map, flatMap_cons, ← ih]
    rfl

lemma flatMap_range_eq_iff {f g : ℕ → Bytes} {n k : ℕ} (hk : k < n) (h : ∀ i < n,
    i ≠ k → f i = g i) :
    (range n).flatMap f = (range n).flatMap g ↔ f k = g k := by
  obtain ⟨m, rfl⟩ := Nat.exists_eq_add_of_lt hk
  have hbefore : (range k).flatMap f = (range k).flatMap g := by
    refine flatMap_congr fun i hi => ?_
    have hlt := mem_range.mp hi
    exact h i (by omega) (by omega)
  have hafter : ((range m).map (k + 1 + ·)).flatMap f = ((range m).map (k + 1 + ·)).flatMap g := by
    refine flatMap_congr fun i hi => ?_
    obtain ⟨j, hj, rfl⟩ := mem_map.mp hi
    have hlt := mem_range.mp hj
    exact h _ (by omega) (by omega)
  have hrange : range (k + m + 1) = range k ++ [k] ++ (range m).map (k + 1 + ·) := by
    rw [← range_succ, ← range_add]
    congr 1
    omega
  rw [hrange]
  simp only [flatMap_append, flatMap_singleton, hbefore, hafter,
    append_cancel_left_eq, append_cancel_right_eq]

/-- Indices that are all in range are written one behind the other. -/
lemma mapM_range_flatten {f : ℕ → Option Bytes} {n : ℕ} (h : ∀ i < n, (f i).isSome) :
    ∃ l, (range n).mapM f = some l ∧ l.flatten = (range n).flatMap fun i => (f i).getD [] := by
  refine ⟨_, mapM_eq_some (g := fun i => (f i).getD []) fun i hi => ?_, flatMap_def.symm⟩
  obtain ⟨bytes, hbytes⟩ := Option.isSome_iff_exists.mp (h i (mem_range.mp hi))
  rw [hbytes]
  rfl

section Frame

variable {s : CTransactionSignatureSerializer}

/-- The index of the input that is signed, among those that are written. -/
def place (s : CTransactionSignatureSerializer) : ℕ := if s.fAnyoneCanPay then 0 else s.nIn

lemma copyInputs_getElem (i : ℕ) : s.copyInputs[i]? = (s.txTo.vin[i]?).map (s.copyInput i) :=
  getElem?_mapIdx

lemma copy_vin_length (hin : s.nIn < s.txTo.vin.length) : s.signatureCopy.vin.length
    = s.nInputs := by
  have hself : s.copyInputs[s.nIn]? = some (s.copyInput s.nIn s.txTo.vin[s.nIn]) := by
    rw [copyInputs_getElem, getElem?_eq_getElem hin]
    rfl
  unfold signatureCopy nInputs
  dsimp only
  split_ifs with hany
  · rw [hself]
    rfl
  · exact length_mapIdx

lemma serializeInput_isSome (hin : s.nIn < s.txTo.vin.length) (i : ℕ) (hi : i < s.nInputs) :
    (s.serializeInput i).isSome := by
  unfold nInputs at hi
  rw [serializeInput, Option.isSome_map]
  split_ifs at hi ⊢
  · rw [getElem?_eq_getElem hin]
    rfl
  · rw [getElem?_eq_getElem hi]
    rfl

lemma serializeInput_other {i : ℕ} (hi : i < s.nInputs) (hne : i ≠ s.place) :
    s.serializeInput i = (s.signatureCopy.vin[i]?).map CTxIn.serialize := by
  unfold nInputs at hi
  unfold place at hne
  split_ifs at hi hne with hany
  · omega
  · have hvin : s.signatureCopy.vin = s.copyInputs := if_neg hany
    rw [hvin, copyInputs_getElem, Option.map_map, serializeInput, if_neg hany]
    refine Option.map_congr fun txin _ => ?_
    simp only [comp, copyInput, if_pos hne, if_neg hne]
    congr 1
    by_cases hblank : s.fHashNone ∨ s.fHashSingle
    · rw [if_pos ⟨hne, hblank.symm⟩, if_pos ⟨hblank, hne⟩]
      rfl
    · rw [if_neg fun h => hblank h.2.symm, if_neg fun h => hblank h.1]

/-- The input that is signed, as it is written and as the copy has it. -/
lemma serializeInput_place {txin : CTxIn} (htxin : s.txTo.vin[s.nIn]? = some txin) :
    s.serializeInput s.place =
        some (txin.prevout.serialize ++ s.serializeScriptCode ++ writeLE 4 txin.nSequence.toNat) ∧
      s.signatureCopy.vin[s.place]? = some (s.copyInput s.nIn txin) := by
  have hindex : (if s.fAnyoneCanPay then s.nIn else s.place) = s.nIn := by
    unfold place
    split_ifs <;> rfl
  have hself : s.copyInputs[s.nIn]? = some (s.copyInput s.nIn txin) := by
    rw [copyInputs_getElem, htxin]
    rfl
  constructor
  · rw [serializeInput]
    simp [hindex, htxin]
  · unfold signatureCopy place
    dsimp only
    split_ifs with hany
    · rw [hself]
      rfl
    · exact hself

lemma serializeOutput_eq (hsingle : s.fHashSingle → s.nIn < s.txTo.vout.length) (i : ℕ)
    (hi : i < s.nOutputs) :
    s.serializeOutput i = (s.signatureCopy.vout[i]?).map CTxOut.serialize := by
  unfold nOutputs at hi
  by_cases hnone : s.fHashNone
  · rw [if_pos hnone] at hi
    omega
  · rw [if_neg hnone] at hi
    by_cases hone : s.fHashSingle
    · have hvout : s.signatureCopy.vout = replicate s.nIn CTxOut.null
        ++ s.txTo.vout[s.nIn]?.toList := by
        simp [signatureCopy, hnone, hone]
      rw [if_pos hone] at hi
      rw [hvout, serializeOutput]
      by_cases hself : i = s.nIn
      · subst hself
        rw [if_neg (by simp), getElem?_append_right (by simp), length_replicate, Nat.sub_self,
          getElem?_eq_getElem (hsingle hone)]
        rfl
      · have hbefore : i < s.nIn := by omega
        rw [if_pos ⟨hone, hself⟩, getElem?_append_left (by rwa [length_replicate]),
          getElem?_replicate_of_lt hbefore]
        rfl
    · have hvout : s.signatureCopy.vout = s.txTo.vout := by simp [signatureCopy, hnone, hone]
      rw [hvout, serializeOutput, if_neg fun h => hone h.1]

lemma copy_vout_length (hsingle : s.fHashSingle → s.nIn < s.txTo.vout.length) :
    s.signatureCopy.vout.length = s.nOutputs := by
  unfold signatureCopy nOutputs
  dsimp only
  split_ifs with hnone hone
  · rfl
  · rw [getElem?_eq_getElem (hsingle hone)]
    simp
  · rfl

/-- What is written of the transaction, up to the inputs. -/
lemma serialize_eq (hin : s.nIn < s.txTo.vin.length)
    (hsingle : s.fHashSingle → s.nIn < s.txTo.vout.length) :
    s.serialize = some (writeLE 4 s.txTo.nVersion.toNat ++ writeCompactSize s.nInputs ++
      ((range s.nInputs).flatMap fun i => (s.serializeInput i).getD []) ++
      serializeVector CTxOut.serialize s.signatureCopy.vout
      ++ writeLE 4 s.txTo.nLockTime.toNat) := by
  have houtput : ∀ i < s.nOutputs, (s.serializeOutput i).isSome := by
    intro i hi
    rw [serializeOutput_eq hsingle i hi, getElem?_eq_getElem (copy_vout_length hsingle ▸ hi)]
    rfl
  obtain ⟨inputs, hinputs, hinputBytes⟩ := mapM_range_flatten (serializeInput_isSome hin)
  obtain ⟨outputs, houtputs, houtputBytes⟩ := mapM_range_flatten houtput
  have hvout : outputs.flatten = s.signatureCopy.vout.flatMap CTxOut.serialize := by
    rw [houtputBytes, ← flatMap_range_getElem CTxOut.serialize, copy_vout_length hsingle]
    refine flatMap_congr fun i hi => ?_
    rw [serializeOutput_eq hsingle i (mem_range.mp hi)]
  rw [serialize, hinputs, houtputs, serializeVector, copy_vout_length hsingle, ← hvout,
    ← hinputBytes]
  simp only [append_assoc]
  rfl

lemma inputs_eq_iff (hin : s.nIn < s.txTo.vin.length) :
    ((range s.nInputs).flatMap fun i => (s.serializeInput i).getD []) =
      s.signatureCopy.vin.flatMap CTxIn.serialize ↔ (scan s.scriptCode).pc = [] := by
  have hplace : s.place < s.nInputs := by
    unfold place nInputs
    split_ifs <;> omega
  have hothers : ∀ i < s.nInputs, i ≠ s.place → (s.serializeInput i).getD [] =
      ((s.signatureCopy.vin[i]?).map CTxIn.serialize).getD [] := by
    intro i hi hne
    rw [serializeInput_other hi hne]
  have htxin : s.txTo.vin[s.nIn]? = some s.txTo.vin[s.nIn] := getElem?_eq_getElem hin
  obtain ⟨hwritten, hcopied⟩ := serializeInput_place htxin
  have hflat := flatMap_range_getElem CTxIn.serialize s.signatureCopy.vin
  rw [copy_vin_length hin] at hflat
  rw [← hflat, flatMap_range_eq_iff hplace hothers, hwritten, hcopied, ← serializeScriptCode_iff]
  simp [CTxIn.serialize, copyInput]

end Frame

/-- **The legacy signature hash.** The bytes are those of the modified copy, and the length in front
of the script code is the length of what follows it, exactly if the scan of the script code leaves
its cursor at the end. -/
theorem signatureSerializer_spec (txTo : CTransaction) (scriptCode : CScript) (nIn : ℕ)
    (nHashType : BitVec 32)
    (hin : nIn < txTo.vin.length)
    (hsingle : nHashType &&& 0x1f = SIGHASH_SINGLE → nIn < txTo.vout.length) :
    ((new txTo scriptCode nIn nHashType).serialize =
        some (new txTo scriptCode nIn nHashType).signatureCopy.serialize
        ↔ (scan scriptCode).pc = []) ∧
      ((copyFrom scriptCode scriptCode).length =
        scriptCode.length - (new txTo scriptCode nIn nHashType).nCodeSeparators
        ↔ (scan scriptCode).pc = []) := by
  generalize hs : new txTo scriptCode nIn nHashType = s
  obtain rfl : s.txTo = txTo := by rw [← hs]; rfl
  obtain rfl : s.scriptCode = scriptCode := by rw [← hs]; rfl
  obtain rfl : s.nIn = nIn := by rw [← hs]; rfl
  have hone : s.fHashSingle → s.nIn < s.txTo.vout.length := by
    intro hflag
    rw [← hs] at hflag
    exact hsingle (eq_of_beq hflag)
  constructor
  · have hvin : serializeVector CTxIn.serialize s.signatureCopy.vin =
        writeCompactSize s.nInputs ++ s.signatureCopy.vin.flatMap CTxIn.serialize := by
      rw [serializeVector, copy_vin_length hin]
    rw [serialize_eq hin hone, CTransaction.serialize, hvin, ← inputs_eq_iff hin]
    simp [signatureCopy]
  · have hbody := congrArg length (copy_body s.scriptCode s.scriptCode suffix_rfl)
    have hlength := stripped_length s.scriptCode
    have hempty : between s.scriptCode s.scriptCode = [] := by simp [between]
    rw [hempty, nil_append, length_append] at hbody
    rw [← length_eq_zero_iff, nCodeSeparators]
    omega

/-- A transaction with one input and one output. -/
def oneInput : CTransaction :=
  { nVersion := 1, vin := [⟨⟨⟨_, length_zeros⟩, 0⟩, [], 0⟩], vout := [⟨1, []⟩], nLockTime := 0 }

/-- A code separator and a push of five bytes that only has one: the length says two, one byte is
written. -/
theorem signatureSerializer_truncated : (new oneInput [0xab, 0x05, 0x01] 0 1).serialize ≠
        some (new oneInput [0xab, 0x05, 0x01] 0 1).signatureCopy.serialize ∧
      [0xab, 0x05, 0x01].length - (new oneInput [0xab, 0x05, 0x01] 0 1).nCodeSeparators = 2 ∧
      copyFrom [0xab, 0x05, 0x01] [0xab, 0x05, 0x01] = [0x05] := by
  decide

theorem signatureSerializer_spec_separator :
    ((new oneInput [0xab, 0x51] 0 3).serialize = some
    (new oneInput [0xab, 0x51] 0 3).signatureCopy.serialize ↔
        (scan [0xab, 0x51]).pc = []) ∧ ((copyFrom [0xab, 0x51] [0xab, 0x51]).length =
        [0xab, 0x51].length - (new oneInput [0xab, 0x51] 0 3).nCodeSeparators
        ↔ (scan [0xab, 0x51]).pc = []) :=
  signatureSerializer_spec oneInput [0xab, 0x51] 0 3 (by decide) (fun _ => by decide)

end CTransactionSignatureSerializer

end Bitcoin.Script
