import Mathlib.Data.List.Basic
import Mathlib.Algebra.Group.Int.Defs

/-!
# Rows and version nodes of the memtable

The data model of `storage/memtable/mvcc`: a row (`ObMvccRow`) owns a doubly linked list of
version nodes (`ObMvccTransNode`), newest first.  The list is walked along `prev_`; `next_` leads
back towards the head.

Pointers are modelled explicitly.  A `RowState` holds the row's own fields and a heap that maps
every address to the node stored there, so that the pointer writes of the source can be followed
one by one.  The null pointer is `none`.

A node's buffer `buf_` holds an `ObMemtableDataHeader`: the statement kind that wrote the node,
and a sequence of cells closed by an end flag.  The end flag is not stored here: every buffer is
closed by one (`row_finish`), so the list of cells says the same.  Cell values are never looked
into by the code below, only copied; their type `Obj` is a parameter.
-/

namespace OceanBase.Memtable

/-- `INT64_MAX`, the version of a node whose transaction has not committed. -/
def INT64_MAX : ℤ := 2 ^ 63 - 1

/-- Return codes. -/
inductive Ret where
  | success
  | errUnexpected
  | allocateMemoryFailed
  deriving DecidableEq, Repr

/-- `ObRowDml`: which kind of statement wrote a node. -/
inductive RowDml where
  | unknown
  | insert
  | update
  | delete
  | replace
  | lock
  deriving DecidableEq, Repr

/-- `type_`: `NDT_NORMAL` for a transaction's node, `NDT_COMPACT` for one of row compaction. -/
inductive NodeType where
  | normal
  | compact
  deriving DecidableEq, Repr

/-- One cell of a node's buffer: the action flag `OP_DEL_ROW`, or a column with its value. -/
inductive Cell (Obj : Type) where
  | delRow
  | column (colId : UInt32) (obj : Obj)
  deriving DecidableEq, Repr

/-- `ObMemtableDataHeader` with its buffer. -/
structure MemtableData (Obj : Type) where
  dmlType : RowDml
  cells : List (Cell Obj)
  deriving DecidableEq, Repr

/-- The address of a node. -/
abbrev NodePtr := ℕ

/-- `ObMvccTransNode`. -/
structure TransNode (Obj : Type) where
  transVersion : ℤ
  logTimestamp : ℤ
  prev : Option NodePtr
  next : Option NodePtr
  modifyCount : UInt32
  accChecksum : UInt32
  version : ℤ
  snapshotVersionBarrier : ℤ
  ctxDescriptor : UInt32
  type : NodeType
  flag : BitVec 8
  mtd : MemtableData Obj

namespace TransNode

variable {Obj : Type}

def F_COMMITTED : BitVec 8 := 0x4
def F_ABORTED : BitVec 8 := 0x10
def F_OVERFLOW : BitVec 8 := 0x20
def F_RELOCATED : BitVec 8 := 0x80

def isCommitted (n : TransNode Obj) : Bool := n.flag &&& F_COMMITTED != 0
def isAborted (n : TransNode Obj) : Bool := n.flag &&& F_ABORTED != 0
def isOverflow (n : TransNode Obj) : Bool := n.flag &&& F_OVERFLOW != 0
def isRelocated (n : TransNode Obj) : Bool := n.flag &&& F_RELOCATED != 0

def setAborted (n : TransNode Obj) : TransNode Obj := { n with flag := n.flag ||| F_ABORTED }
def clearAborted (n : TransNode Obj) : TransNode Obj := { n with flag := n.flag &&& ~~~F_ABORTED }

/-- Sets or clears the flag. -/
def setOverflow (overflow : Bool) (n : TransNode Obj) : TransNode Obj :=
  { n with flag := if overflow then n.flag ||| F_OVERFLOW else n.flag &&& ~~~F_OVERFLOW }

def isLockNode (n : TransNode Obj) : Bool := n.mtd.dmlType == .lock

@[simp] lemma isAborted_clearAborted (n : TransNode Obj) : n.clearAborted.isAborted = false := by
  have h : ∀ f : BitVec 8, f &&& ~~~F_ABORTED &&& F_ABORTED = 0 := by
    intro f
    rw [BitVec.and_assoc]
    simp [F_ABORTED]
  simp [isAborted, clearAborted, h]

end TransNode

/-! ## The row and its replay index -/

def REPLAY_TASK_QUEUE_SIZE : ℕ := 4

/-- `ObMvccRowIndex`: for each replay queue, the node it inserted last. -/
structure RowIndex where
  isEmpty : Bool
  replayLocations : Fin REPLAY_TASK_QUEUE_SIZE → Option NodePtr

namespace RowIndex

/-- The constructor zeroes all entries. -/
def new : RowIndex := { isEmpty := true, replayLocations := fun _ => none }

def reset (ix : RowIndex) : RowIndex :=
  if !ix.isEmpty then { isEmpty := true, replayLocations := fun _ => none } else ix

def isValidQueueIndex (queueIndex : ℤ) : Bool :=
  decide (0 ≤ queueIndex) && decide (queueIndex < REPLAY_TASK_QUEUE_SIZE)

/-- The slot of a queue index, when it is a valid one. -/
def slot? (queueIndex : ℤ) : Option (Fin REPLAY_TASK_QUEUE_SIZE) :=
  if h : 0 ≤ queueIndex ∧ queueIndex < REPLAY_TASK_QUEUE_SIZE then
    some ⟨queueIndex.toNat, by omega⟩
  else none

def getIndexNode (ix : RowIndex) (index : ℤ) : Option NodePtr :=
  match slot? index with
  | some i => ix.replayLocations i
  | none => none

def setIndexNode (ix : RowIndex) (index : ℤ) (node : Option NodePtr) : RowIndex :=
  match slot? index with
  | some i => { isEmpty := false, replayLocations := Function.update ix.replayLocations i node }
  | none => ix

end RowIndex

/-- `ObMvccRow`, without its lock and latch. -/
structure MvccRow where
  updateSinceCompact : ℤ
  firstDml : RowDml
  lastDml : RowDml
  listHead : Option NodePtr
  modifyCount : UInt32
  accChecksum : UInt32
  maxTransVersion : ℤ
  maxElrTransVersion : ℤ
  ctxDescriptor : UInt32
  latestCompactNode : Option NodePtr
  index : Option RowIndex
  totalTransNodeCnt : ℤ

/-- `ObMvccRow::reset`: an empty row. -/
def MvccRow.reset : MvccRow where
  updateSinceCompact := 0
  firstDml := .unknown
  lastDml := .unknown
  listHead := none
  modifyCount := 0
  accChecksum := 0
  maxTransVersion := 0
  maxElrTransVersion := 0
  ctxDescriptor := 0
  latestCompactNode := none
  index := none
  totalTransNodeCnt := 0

/-- `ObMvccRow::undo`: the summary fields go back to an earlier value, list and index stay. -/
def MvccRow.undo (undoValue row : MvccRow) : MvccRow :=
  { row with
    updateSinceCompact := undoValue.updateSinceCompact
    firstDml := undoValue.firstDml
    lastDml := undoValue.lastDml
    modifyCount := undoValue.modifyCount
    accChecksum := undoValue.accChecksum
    maxTransVersion := undoValue.maxTransVersion
    maxElrTransVersion := undoValue.maxElrTransVersion
    ctxDescriptor := undoValue.ctxDescriptor }

/-- The memory of one row: its own fields, and the nodes. -/
structure RowState (Obj : Type) where
  heap : NodePtr → TransNode Obj
  row : MvccRow

/-- A place that holds a pointer to a node of the list (`ObMvccTransNode**`). -/
inductive Slot where
  | listHead
  | prevOf (p : NodePtr)
  deriving DecidableEq

/-! ## Memory accesses -/

namespace RowState

variable {Obj : Type} (s : RowState Obj)

/-- The `prev_` fields of all nodes. -/
def prevs (p : NodePtr) : Option NodePtr := (s.heap p).prev

/-- The `next_` fields of all nodes. -/
def nexts (p : NodePtr) : Option NodePtr := (s.heap p).next

/-- Overwrites one node. -/
def write (p : NodePtr) (n : TransNode Obj) : RowState Obj :=
  { s with heap := Function.update s.heap p n }

/-- Changes the row's own fields. -/
def onRow (f : MvccRow → MvccRow) : RowState Obj := { s with row := f s.row }

def setPrev (p : NodePtr) (v : Option NodePtr) : RowState Obj :=
  s.write p { s.heap p with prev := v }

def setNext (p : NodePtr) (v : Option NodePtr) : RowState Obj :=
  s.write p { s.heap p with next := v }

/-- `p->next_ = v` guarded by `NULL != p`. -/
def setNext? (p : Option NodePtr) (v : Option NodePtr) : RowState Obj :=
  match p with
  | some p => s.setNext p v
  | none => s

def setPrev? (p : Option NodePtr) (v : Option NodePtr) : RowState Obj :=
  match p with
  | some p => s.setPrev p v
  | none => s

def load (slot : Slot) : Option NodePtr :=
  match slot with
  | .listHead => s.row.listHead
  | .prevOf p => (s.heap p).prev

/-- Writes through a `Slot`. -/
def store (slot : Slot) (v : Option NodePtr) : RowState Obj :=
  match slot with
  | .listHead => s.onRow fun row => { row with listHead := v }
  | .prevOf p => s.setPrev p v

def clearAborted (p : NodePtr) : RowState Obj := s.write p (s.heap p).clearAborted

def setAborted (p : NodePtr) : RowState Obj := s.write p (s.heap p).setAborted

def setIndex (ix : RowIndex) : RowState Obj :=
  s.onRow fun row => { row with index := some ix }

end RowState

end OceanBase.Memtable
