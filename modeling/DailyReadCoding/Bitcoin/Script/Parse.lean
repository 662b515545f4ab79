import Mathlib.Data.List.Basic
import DailyReadCoding.Bitcoin.Primitives.Transaction

/-!
# Reading a script

`GetScriptOp` (`script/script.cpp`) reads one operation and moves a cursor, also when it fails. A
cursor is the part of the script that is left.
-/

namespace Bitcoin.Script

open List

def OP_PUSHDATA1 : BitVec 8 := 0x4c
def OP_PUSHDATA2 : BitVec 8 := 0x4d
def OP_PUSHDATA4 : BitVec 8 := 0x4e
def OP_CODESEPARATOR : BitVec 8 := 0xab

/-- An operation as `GetScriptOp` returns it. -/
structure Op where
  opcode : BitVec 8
  /-- What a push pushes, empty for the others. -/
  data : Bytes
  /-- The cursor behind the operation. -/
  pc : CScript
  deriving DecidableEq

/-- `ReadLE16`, `ReadLE32`: the number of some bytes, lowest first. -/
def readLE : Bytes → ℕ
  | [] => 0
  | b :: bs => b.toNat + 256 * readLE bs

/-- How many bytes of length follow an opcode. -/
def sizeWidth (opcode : BitVec 8) : ℕ :=
  if opcode < OP_PUSHDATA1 then 0
  else if opcode = OP_PUSHDATA1 then 1
  else if opcode = OP_PUSHDATA2 then 2
  else 4

/-- The number of bytes a push takes, with the cursor behind the opcode. -/
def pushSize (opcode : BitVec 8) (pc : CScript) : ℕ :=
  if opcode < OP_PUSHDATA1 then opcode.toNat else readLE (pc.take (sizeWidth opcode))

/-- A failed read still says where the cursor stopped. -/
def getScriptOp : CScript → Except CScript Op
  | [] => .error []
  | opcode :: pc =>
    if opcode ≤ OP_PUSHDATA4 then
      if pc.length < sizeWidth opcode then .error pc
      else
        let nSize := pushSize opcode pc
        let pc := pc.drop (sizeWidth opcode)
        if pc.length < nSize then .error pc
        else .ok ⟨opcode, pc.take nSize, pc.drop nSize⟩
    else .ok ⟨opcode, [], pc⟩

/-- What a loop over the operations of a script goes through. -/
structure Scan where
  ops : List Op
  /-- The script from the operation on that could not be read. -/
  tail : CScript
  /-- Where the last read left the cursor. -/
  pc : CScript
  deriving DecidableEq

def Scan.cons (op : Op) (s : Scan) : Scan := { s with ops := op :: s.ops }

def scanLoop : ℕ → CScript → Scan
  | 0, pc => ⟨[], pc, pc⟩
  | rounds + 1, pc =>
    match getScriptOp pc with
    | .error stopped => ⟨[], pc, stopped⟩
    | .ok op => (scanLoop rounds op.pc).cons op

/-- `while (script.GetOp(pc, opcode))`. There are as many rounds as bytes. -/
def scan (script : CScript) : Scan := scanLoop (script.length + 1) script

/-- The bytes between two cursors. -/
def between (pc pc' : CScript) : Bytes := pc.take (pc.length - pc'.length)

/-- The inner loop of `FindAndDelete`: patterns one behind the other. -/
def skipPattern (b : CScript) : ℕ → CScript → CScript × ℕ
  | 0, pc => (pc, 0)
  | rounds + 1, pc =>
    if b <+: pc then
      let (pc, nFound) := skipPattern b rounds (pc.drop b.length)
      (pc, nFound + 1)
    else (pc, 0)

/-- The outer loop of `FindAndDelete`: what is left of the script, and the number of matches. -/
def findAndDeleteLoop (b : CScript) : ℕ → CScript → CScript × ℕ
  | 0, pc => (pc, 0)
  | rounds + 1, pc =>
    let (pc2, nFound) := skipPattern b pc.length pc
    match getScriptOp pc2 with
    | .error _ => (pc2, nFound)
    | .ok op =>
      let (result, nLater) := findAndDeleteLoop b rounds op.pc
      (between pc2 op.pc ++ result, nFound + nLater)

/-- The script afterwards, and its result. -/
def findAndDelete (script b : CScript) : CScript × ℕ :=
  if b = [] then (script, 0)
  else
    let (result, nFound) := findAndDeleteLoop b (script.length + 1) script
    if nFound > 0 then (result, nFound) else (script, nFound)

/-! ## One operation -/

variable {pc stopped : CScript}

/-- What a read operation took, and that it took something. -/
lemma getScriptOp_cases {op : Op} (h : getScriptOp pc = .ok op) :
    ∃ operand, pc = op.opcode :: operand ++ op.pc ∧ (OP_PUSHDATA4 < op.opcode → operand = []) := by
  cases pc with
  | nil => cases h
  | cons opcode pc =>
    unfold getScriptOp at h
    dsimp only at h
    split_ifs at h with hpush hwidth hsize
    · obtain rfl := Except.ok.inj h
      refine ⟨pc.take (sizeWidth opcode + pushSize opcode pc), ?_,
        fun hlarge => absurd hpush (by simpa using hlarge)⟩
      rw [cons_append, drop_drop, take_append_drop]
    · obtain rfl := Except.ok.inj h
      exact ⟨[], rfl, fun _ => rfl⟩

/-- Every operation takes a byte. -/
lemma getScriptOp_length {op : Op} (h : getScriptOp pc = .ok op) : op.pc.length < pc.length := by
  obtain ⟨operand, rfl, -⟩ := getScriptOp_cases h
  simp only [length_cons, length_append]
  omega

/-- A failed read leaves the cursor in the script. -/
lemma getScriptOp_error_suffix (h : getScriptOp pc = .error stopped) : stopped <:+ pc := by
  cases pc with
  | nil =>
    obtain rfl := Except.error.inj h
    exact suffix_rfl
  | cons opcode pc =>
    unfold getScriptOp at h
    dsimp only at h
    split_ifs at h with hpush hwidth hsize
    · obtain rfl := Except.error.inj h
      exact suffix_cons _ _
    · obtain rfl := Except.error.inj h
      exact (drop_suffix _ _).trans (suffix_cons _ _)

/-- Induction over the operations of a script. -/
@[elab_as_elim]
lemma script_induction {P : CScript → Prop}
    (error : ∀ pc stopped, getScriptOp pc = .error stopped → P pc)
    (ok : ∀ pc op, getScriptOp pc = .ok op → P op.pc → P pc) (script : CScript) : P script := by
  induction hlength : script.length using Nat.strongRecOn generalizing script with
  | ind n ih =>
    cases hop : getScriptOp script with
    | error stopped => exact error script stopped hop
    | ok op => exact ok script op hop (ih op.pc.length (hlength ▸ getScriptOp_length hop) op.pc rfl)

/-! ## The loop over the operations -/

/-- More rounds than bytes change nothing. -/
lemma scanLoop_rounds {n m : ℕ} (hn : pc.length < n) (hm : pc.length < m) :
    scanLoop n pc = scanLoop m pc := by
  induction n generalizing m pc with
  | zero => omega
  | succ n ih =>
    cases m with
    | zero => omega
    | succ m =>
      unfold scanLoop
      cases hop : getScriptOp pc with
      | error stopped => rfl
      | ok op =>
        have hlength := getScriptOp_length hop
        exact congrArg (Scan.cons op) (ih (by omega) (by omega))

/-- The loop ends where no operation can be read. -/
lemma scan_error (h : getScriptOp pc = .error stopped) : scan pc = ⟨[], pc, stopped⟩ := by
  rw [scan, scanLoop, h]

/-- One round of such a loop. -/
lemma scan_ok {op : Op} (h : getScriptOp pc = .ok op) : scan pc = (scan op.pc).cons op := by
  have hlength := getScriptOp_length h
  rw [scan, scanLoop, h]
  exact congrArg (Scan.cons op) (scanLoop_rounds (by omega) (by omega))

@[simp] lemma Scan.cons_ops (op : Op) (s : Scan) : (s.cons op).ops = op :: s.ops := rfl
@[simp] lemma Scan.cons_pc (op : Op) (s : Scan) : (s.cons op).pc = s.pc := rfl

/-! ## Bytes between cursors -/

/-- The bytes in front of a cursor. -/
@[simp] lemma between_append (l pc : CScript) : between (l ++ pc) pc = l := by
  rw [between, length_append, Nat.add_sub_cancel, take_left]

/-- A script is what was read and what is left. -/
lemma between_append_of_suffix {pc' : CScript} (h : pc' <:+ pc) : between pc pc' ++ pc' = pc := by
  obtain ⟨l, rfl⟩ := h
  rw [between_append]

/-- Two stretches, one behind the other. -/
lemma between_trans {a b c : CScript} (hb : b <:+ a) (hc : c <:+ b) :
    between a b ++ between b c = between a c := by
  obtain ⟨l, rfl⟩ := hc
  obtain ⟨k, rfl⟩ := hb
  rw [between_append, between_append, ← append_assoc, between_append]

/-- The cursor stays in the script. -/
lemma getScriptOp_suffix {op : Op} (h : getScriptOp pc = .ok op) : op.pc <:+ pc := by
  obtain ⟨operand, hpc, -⟩ := getScriptOp_cases h
  exact ⟨_, hpc.symm⟩

/-! ## Deleting a pattern -/

section Delete

variable {b : CScript}

/-- Patterns are skipped from the front. -/
lemma skipPattern_suffix (rounds : ℕ) (pc : CScript) : (skipPattern b rounds pc).1 <:+ pc := by
  induction rounds generalizing pc with
  | zero => exact suffix_rfl
  | succ rounds ih =>
    rw [skipPattern]
    split_ifs with hprefix
    · exact (ih _).trans (drop_suffix _ _)
    · exact suffix_rfl

/-- Nothing is skipped if no pattern is found. -/
lemma skipPattern_notFound {rounds : ℕ} (h : (skipPattern b rounds pc).2 = 0) :
    (skipPattern b rounds pc).1 = pc := by
  cases rounds with
  | zero => rfl
  | succ rounds =>
    rw [skipPattern] at h ⊢
    split_ifs at h ⊢ with hprefix
    rfl

/-- More rounds than bytes change nothing. -/
lemma findAndDeleteLoop_rounds {n m : ℕ} (hn : pc.length < n) (hm : pc.length < m) :
    findAndDeleteLoop b n pc = findAndDeleteLoop b m pc := by
  induction n generalizing m pc with
  | zero => omega
  | succ n ih =>
    cases m with
    | zero => omega
    | succ m =>
      unfold findAndDeleteLoop
      have hskip := (skipPattern_suffix (b := b) pc.length pc).length_le
      cases hop : getScriptOp (skipPattern b pc.length pc).1 with
      | error stopped => simp only [hop]
      | ok op =>
        have hlength := getScriptOp_length hop
        simp only [hop, ih (m := m) (by omega : op.pc.length < n) (by omega)]

/-- Without a match the script stays. -/
lemma findAndDeleteLoop_notFound {n : ℕ} (h : (findAndDeleteLoop b n pc).2 = 0) :
    (findAndDeleteLoop b n pc).1 = pc := by
  induction n generalizing pc with
  | zero => rfl
  | succ n ih =>
    unfold findAndDeleteLoop at h ⊢
    cases hop : getScriptOp (skipPattern b pc.length pc).1 with
    | error stopped =>
      simp only [hop] at h ⊢
      exact skipPattern_notFound h
    | ok op =>
      simp only [hop, Nat.add_eq_zero_iff] at h ⊢
      rw [ih h.2, between_append_of_suffix (getScriptOp_suffix hop), skipPattern_notFound h.1]

/-- The result is that of the loop, copied back or not. -/
lemma findAndDelete_eq (hb : b ≠ []) (script : CScript) :
    (findAndDelete script b).1 = (findAndDeleteLoop b (script.length + 1) script).1 := by
  unfold findAndDelete
  rw [if_neg hb]
  dsimp only
  split_ifs with hfound
  · rfl
  · exact (findAndDeleteLoop_notFound (Nat.eq_zero_of_not_pos hfound)).symm

end Delete

end Bitcoin.Script
