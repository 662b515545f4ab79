import DailyReadCoding.Lib.LinkedList
import DailyReadCoding.OceanBase.Memtable.TransNode

/-!
# Inserting and unlinking version nodes

`ObMvccRow::insert_trans_node` and `ObMvccRow::unlink_trans_node`, pointer write by pointer write.

Insertion keeps the list sorted by version and has two ways of finding the place.  Without an
index it walks `prev_` from the head past the newer nodes.  A replay thread that has inserted into
this row before finds its last node in the replay index, and walks `next_` from there past the
older nodes.
-/

namespace OceanBase.Memtable

open LinkedHeap

variable {Obj : Type}

/-! ## The functions of the source -/

/-- What `insert_trans_node` reads of its context, the thread's replay queue index, and whether
there is memory. -/
structure InsertCtx where
  ctxDescriptor : UInt32
  isForReplay : Bool
  replayQueueIndex : ℤ
  allocOk : Bool

def INDEX_TRIGGER_COUNT : ℕ := 500

/-- The loop of the indexed branch: `next_` from the index node while the next node is older. -/
def walkNext (heap : NodePtr → TransNode Obj) (version : ℤ) :
    ℕ → NodePtr → Option NodePtr → Option (NodePtr × Option NodePtr)
  | 0, _, _ => none
  | fuel + 1, prev, next =>
    match next with
    | some n =>
      if (heap n).transVersion < version then walkNext heap version fuel n (heap n).next
      else some (prev, some n)
    | none => some (prev, none)

/-- What the loop of the plain branch leaves behind. -/
structure PrevWalk where
  ret : Ret
  nextNode : Option NodePtr
  slot : Slot
  tmp : Option NodePtr
  searchSteps : ℕ

/-- The loop of the plain branch, along `prev_` while the node is newer. A compact node is an error.
-/
def walkPrev (heap : NodePtr → TransNode Obj) (version : ℤ) :
    ℕ → Option NodePtr → Slot → Option NodePtr → ℕ → Option PrevWalk
  | 0, _, _, _, _ => none
  | fuel + 1, nextNode, slot, tmp, searchSteps =>
    match tmp with
    | some t =>
      if version < (heap t).transVersion then
        if (heap t).type = .compact then
          some ⟨.errUnexpected, nextNode, slot, some t, searchSteps + 1⟩
        else walkPrev heap version fuel (some t) (.prevOf t) (heap t).prev (searchSteps + 1)
      else some ⟨.success, nextNode, slot, some t, searchSteps⟩
    | none => some ⟨.success, nextNode, slot, none, searchSteps⟩

/-- The writes of the indexed branch. -/
def linkAtIndex (s : RowState Obj) (node prev : NodePtr) (next : Option NodePtr) : RowState Obj :=
  let s := s.setNext node next
  let s := s.setPrev node (some prev)
  let s := s.setNext prev (some node)
  let s := s.setPrev? next (some node)
  let s := if s.row.listHead = some prev then s.store .listHead (some node) else s
  s.clearAborted node

/-- The writes of the plain branch. -/
def linkAtSlot (s : RowState Obj) (node : NodePtr) (w : PrevWalk) : RowState Obj :=
  let s := s.setPrev node w.tmp
  let s := s.store w.slot (some node)
  let s := s.setNext node w.nextNode
  let s := s.clearAborted node
  s.setNext? w.tmp (some node)

/-- A replay thread remembers the node; the index is created after a long walk, and an allocation
failure is ignored. -/
def rememberNode (ctx : InsertCtx) (node : NodePtr) (searchSteps : ℕ) (s : RowState Obj) :
    RowState Obj :=
  if RowIndex.isValidQueueIndex ctx.replayQueueIndex then
    match s.row.index with
    | some ix => s.setIndex (ix.setIndexNode ctx.replayQueueIndex (some node))
    | none =>
      if searchSteps > INDEX_TRIGGER_COUNT ∧ ctx.allocOk then
        s.setIndex (RowIndex.new.setIndexNode ctx.replayQueueIndex (some node))
      else s
  else s

/-- The first half of `insert_trans_node`: a thread that is not replaying drops the index, unless it
relocates the node as a follower; a replaying one drops its entry if that points at an aborted node.
-/
def prepareIndex (ctx : InsertCtx) (node : NodePtr) (s : RowState Obj) : RowState Obj :=
  match s.row.index with
  | none => s
  | some ix =>
    if RowIndex.isValidQueueIndex ctx.replayQueueIndex then
      match ix.getIndexNode ctx.replayQueueIndex with
      | some p =>
        if (s.heap p).isAborted then s.setIndex (ix.setIndexNode ctx.replayQueueIndex none)
        else s
      | none => s
    else if ctx.isForReplay && (s.heap node).isRelocated then s
    else s.setIndex ix.reset

/-- The index node the insertion starts from, if there is one. -/
def indexNode (ctx : InsertCtx) (s : RowState Obj) : Option NodePtr :=
  if RowIndex.isValidQueueIndex ctx.replayQueueIndex then
    s.row.index.bind fun ix => ix.getIndexNode ctx.replayQueueIndex
  else none

/-- The result of a call: its return code, the output parameter `next_node`, and the memory. -/
structure InsertResult (Obj : Type) where
  ret : Ret
  nextNode : Option NodePtr
  state : RowState Obj

def addTransNodeCnt (d : ℤ) (s : RowState Obj) : RowState Obj :=
  s.onRow fun row => { row with totalTransNodeCnt := row.totalTransNodeCnt + d }

/-- The branch of `insert_trans_node` that starts from an index node. -/
def insertFromIndex (fuel : ℕ) (ctx : InsertCtx) (node start : NodePtr) (s : RowState Obj) :
    Option (InsertResult Obj) :=
  let version := (s.heap node).transVersion
  (walkNext s.heap version fuel start (s.heap start).next).map fun (prev, next) =>
    if version < (s.heap prev).transVersion then ⟨.errUnexpected, none, s⟩
    else
      let s := linkAtIndex s node prev next
      let s := match s.row.index with
        | some ix => s.setIndex (ix.setIndexNode ctx.replayQueueIndex (some node))
        | none => s
      ⟨.success, next, addTransNodeCnt 1 s⟩

/-- The branch of `insert_trans_node` that starts from the head. -/
def insertFromHead (fuel : ℕ) (ctx : InsertCtx) (node : NodePtr) (s : RowState Obj) :
    Option (InsertResult Obj) :=
  (walkPrev s.heap (s.heap node).transVersion fuel none .listHead s.row.listHead 0).map fun w =>
    if w.ret = .success then
      let s := rememberNode ctx node w.searchSteps (linkAtSlot s node w)
      ⟨.success, w.nextNode, addTransNodeCnt 1 s⟩
    else ⟨w.ret, w.nextNode, s⟩

/-- `ObMvccRow::insert_trans_node`.  `nextNode` is the caller's value of the output parameter. -/
def insertTransNode (fuel : ℕ) (ctx : InsertCtx) (node : NodePtr) (nextNode : Option NodePtr)
    (s : RowState Obj) : Option (InsertResult Obj) :=
  let tooOld := match s.row.latestCompactNode with
    | some c => decide ((s.heap node).transVersion ≤ (s.heap c).transVersion)
    | none => false
  if tooOld then some ⟨.errUnexpected, nextNode, s⟩
  else
    let s := s.write node { s.heap node with ctxDescriptor := ctx.ctxDescriptor }
    let s := prepareIndex ctx node s
    match indexNode ctx s with
    | some start => insertFromIndex fuel ctx node start s
    | none => insertFromHead fuel ctx node s

/-- One round of the loop over the index at the end of `unlink_trans_node`. -/
def unlinkIndexEntry (node : NodePtr) (v : Option NodePtr) (ix : RowIndex) (i : ℕ) : RowIndex :=
  if ix.getIndexNode i = some node then ix.setIndexNode i v else ix

def unlinkIndex (node : NodePtr) (v : Option NodePtr) (ix : RowIndex) : RowIndex :=
  (List.range REPLAY_TASK_QUEUE_SIZE).foldl (unlinkIndexEntry node v) ix

/-- The writes that take a node out of the list. -/
def unlinkAtSlot (s : RowState Obj) (node : NodePtr) (slot : Slot) : RowState Obj :=
  let s := s.store slot (s.heap node).prev
  let s := s.setNext? (s.heap node).prev (s.heap node).next
  s.setAborted node

/-- Where `unlink_trans_node` writes: the pointer to `node`, if there is one. -/
def unlinkSlot? (node : NodePtr) (s : RowState Obj) : Option Slot :=
  if s.row.listHead = some node then some .listHead
  else match (s.heap node).next with
    | none => none
    | some n => if s.row.listHead = none then none else some (.prevOf n)

/-- `ObMvccRow::unlink_trans_node`, as compiled: `is_server_serving` is `false`. -/
def unlinkTransNode (node : NodePtr) (undoValue : MvccRow) (s : RowState Obj) :
    Ret × RowState Obj :=
  match unlinkSlot? node s with
  | none => (.errUnexpected, s)
  | some slot =>
    let s := if s.row.listHead = some node then s.onRow (MvccRow.undo undoValue) else s
    let s := unlinkAtSlot s node slot
    let s := match s.row.index with
      | some ix => s.setIndex (unlinkIndex node (s.heap node).prev ix)
      | none => s
    (.success, addTransNodeCnt (-1) s)

end OceanBase.Memtable
