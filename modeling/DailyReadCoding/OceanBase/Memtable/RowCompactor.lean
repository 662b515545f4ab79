import DailyReadCoding.OceanBase.Memtable.RowList

/-!
# Row compaction

`ObMemtableRowCompactor::compact` summarises the older part of a row's version list in one compact
node, so that readers need not walk through it.  It finds the place (`find_start_pos_`), folds the
cells of the nodes below into a map and writes them to a new node (`construct_compact_node_`), and
links that node in above them (`insert_compact_node_`).
-/

namespace OceanBase.Memtable

open LinkedHeap

variable {Obj : Type}

/-! ## The column map -/

def BKT_N : ℕ := 512

/-- `CompactMapImproved`. A bucket is the list of its nodes as `get_next` returns them. -/
structure CompactMap (Obj : Type) where
  buckets : Fin BKT_N → List (UInt32 × Obj)

namespace CompactMap

def empty : CompactMap Obj := ⟨fun _ => []⟩

def bktIdx (colId : UInt32) : Fin BKT_N := ⟨colId.toNat % BKT_N, Nat.mod_lt _ (by decide)⟩

/-- A bucket after `set`: a column that is there keeps its cell (`OB_ENTRY_EXIST`), a new one goes
right behind the first node. -/
def setBucket (colId : UInt32) (cell : Obj) : List (UInt32 × Obj) → List (UInt32 × Obj)
  | [] => [(colId, cell)]
  | first :: rest =>
    if colId ∈ (first :: rest).map Prod.fst then first :: rest
    else first :: (colId, cell) :: rest

def set (m : CompactMap Obj) (colId : UInt32) (cell : Obj) : CompactMap Obj :=
  ⟨Function.update m.buckets (bktIdx colId) (setBucket colId cell (m.buckets (bktIdx colId)))⟩

/-- All cells, in the order of `get_next`. -/
def toCells (m : CompactMap Obj) : List (UInt32 × Obj) := (List.finRange BKT_N).flatMap m.buckets

end CompactMap

/-! ## The functions of the source -/

/-- What `find_start_pos_` finds: the place of the pointer to the first node, that node, and the
node above. -/
structure StartPos where
  start : Slot
  save : Option NodePtr
  nextNode : Option NodePtr

/-- A node that the search from the head passes over. -/
def skippedFromHead (snapshotVersion : ℤ) (n : TransNode Obj) : Bool :=
  n.transVersion == INT64_MAX || decide (snapshotVersion < n.transVersion) || !n.isCommitted

/-- The search when the row has not been compacted yet: down from the head. -/
def findFromHead (heap : NodePtr → TransNode Obj) (snapshotVersion : ℤ) :
    ℕ → Slot → Option NodePtr → Option StartPos
  | 0, _, _ => none
  | fuel + 1, start, save =>
    match save with
    | none => some ⟨start, none, none⟩
    | some p =>
      if skippedFromHead snapshotVersion (heap p) then
        findFromHead heap snapshotVersion fuel (.prevOf p) (heap p).prev
      else some ⟨.prevOf p, (heap p).prev, some p⟩

/-- A node that the search from the latest compact node passes over, if there is one above it. -/
def passedFromCompact (snapshotVersion : ℤ) (n : TransNode Obj) : Bool :=
  decide (n.transVersion ≤ snapshotVersion) && n.isCommitted

/-- The search when there is a compact node: up from it. -/
def findFromCompact (heap : NodePtr → TransNode Obj) (snapshotVersion : ℤ) :
    ℕ → NodePtr → Option StartPos
  | 0, _ => none
  | fuel + 1, p =>
    match (heap p).next with
    | some n =>
      if passedFromCompact snapshotVersion (heap p) then
        findFromCompact heap snapshotVersion fuel n
      else some ⟨.prevOf p, (heap p).prev, some p⟩
    | none => some ⟨.prevOf p, (heap p).prev, some p⟩

def findStartPos (fuel : ℕ) (snapshotVersion : ℤ) (s : RowState Obj) : Option StartPos :=
  match s.row.latestCompactNode with
  | none => findFromHead s.heap snapshotVersion fuel .listHead s.row.listHead
  | some c => findFromCompact s.heap snapshotVersion fuel c

/-- The variables of the scan in `construct_compact_node_`. -/
structure CompactScan (Obj : Type) where
  compactCellCnt : ℕ
  isRowDelete : Bool
  overflow : Bool
  map : CompactMap Obj

/-- The inner loop: the cells of one node. At the end flag a lock node counts as one more. -/
def scanCells (dmlType : RowDml) : List (Cell Obj) → CompactScan Obj → CompactScan Obj
  | [], a => if dmlType = .lock then { a with compactCellCnt := a.compactCellCnt + 1 } else a
  | .delRow :: rest, a => scanCells dmlType rest { a with isRowDelete := true }
  | .column c v :: rest, a =>
    scanCells dmlType rest { a with map := a.map.set c v, compactCellCnt := a.compactCellCnt + 1 }

/-- The outer loop: down to the end, a delete node, or a compact node. -/
def scanNodes (heap : NodePtr → TransNode Obj) :
    ℕ → Option NodePtr → CompactScan Obj → Option (CompactScan Obj)
  | 0, _, _ => none
  | fuel + 1, cur, a =>
    match cur with
    | none => some a
    | some p =>
      let n := heap p
      let a := { a with overflow := a.overflow || n.isOverflow }
      if a.compactCellCnt = 0 ∧ n.type = .compact then some a
      else if n.mtd.dmlType = .delete then some { a with isRowDelete := true }
      else
        let a := scanCells n.mtd.dmlType n.mtd.cells a
        if n.type = .compact then some a else scanNodes heap fuel n.prev a

def initScan : CompactScan Obj := ⟨0, false, false, CompactMap.empty⟩

/-- What is written to the buffer of the compact node. -/
def compactData (a : CompactScan Obj) : MemtableData Obj :=
  if a.compactCellCnt = 0 then ⟨.delete, [.delRow]⟩
  else ⟨.unknown, a.map.toCells.map fun (c, v) => .column c v⟩

/-- The fields of the compact node; the others stay as allocated. -/
def compactNode (raw save : TransNode Obj) (snapshotVersion : ℤ) (a : CompactScan Obj) :
    TransNode Obj :=
  TransNode.setOverflow a.overflow
    { raw with
      transVersion := save.transVersion
      modifyCount := save.modifyCount
      accChecksum := save.accChecksum
      version := save.version
      type := .compact
      flag := save.flag
      logTimestamp := save.logTimestamp
      snapshotVersionBarrier := snapshotVersion
      mtd := compactData a }

/-- `some none` is a null pointer. -/
def constructCompactNode (fuel : ℕ) (snapshotVersion : ℤ) (save alloc : Option NodePtr)
    (s : RowState Obj) : Option (Option (NodePtr × TransNode Obj)) :=
  match save with
  | none => some none
  | some p =>
    if snapshotVersion < (s.heap p).transVersion then some none
    else
      (scanNodes s.heap fuel (some p) initScan).map fun a =>
        if a.isRowDelete ∨ 0 < a.compactCellCnt then
          match alloc with
          | none => none
          | some k =>
            if (s.heap p).transVersion = INT64_MAX then none
            else some (k, compactNode (s.heap k) (s.heap p) snapshotVersion a)
        else none

/-- `insert_compact_node_`, on a node `k` that has been built in place. -/
def insertCompactNode (k : NodePtr) (pos : StartPos) (s : RowState Obj) : Ret × RowState Obj :=
  let s := s.setPrev k pos.save
  let s := s.setNext? pos.save (some k)
  if s.load pos.start ≠ pos.save then (.success, s)
  else
    let s := s.store pos.start (some k)
    match pos.nextNode with
    | none => (.errUnexpected, s)
    | some n =>
      let s := s.setNext k (some n)
      (.success, s.onRow fun row =>
        { row with latestCompactNode := some k, updateSinceCompact := 0 })

def compact (fuel : ℕ) (snapshotVersion : ℤ) (alloc : Option NodePtr) (s : RowState Obj) :
    Option (Ret × RowState Obj) :=
  if snapshotVersion ≤ 0 ∨ snapshotVersion = INT64_MAX then some (.errUnexpected, s)
  else
    let done := match s.row.latestCompactNode with
      | some c => decide (snapshotVersion ≤ (s.heap c).transVersion)
      | none => false
    if done then some (.success, s)
    else do
      let pos ← findStartPos fuel snapshotVersion s
      let node? ← constructCompactNode fuel snapshotVersion pos.save alloc s
      match node? with
      | none => some (.success, s)
      | some (k, n) => some (insertCompactNode k pos (s.write k n))

end OceanBase.Memtable
