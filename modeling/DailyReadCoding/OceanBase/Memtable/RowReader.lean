import DailyReadCoding.OceanBase.Memtable.TransNode
import Mathlib

/-!
# Reading a row

A reader of a row looks for its first node (`ObMvccValueIterator::find_trans_node_below_version`),
takes nodes from there (`get_next_node`), and either asks whether the row exists
(`ObReadRow::exist`) or collects the newest cell of each column
(`ObReadRow::iterate_row_value_`).

The iterator's position `version_iter_` is a node of the version list.  It is modelled by the part
of the list that starts at that node, so the null position is the empty list and `prev_` is the
tail.

**Result.**  `iterateRowValue_cell`: stopping early, once every column has a value, never costs a
column its value.  What a reader collects for a column is `visibleCell`, the first cell of that
column along the nodes it takes, up to a node that ends the row.
-/

namespace OceanBase.Memtable

open List Option

variable {Obj : Type}

/-! ## The iterator -/

/-- The read snapshot, whether only committed nodes are read, whether compact nodes are passed over,
and the version at or below which nothing is read. -/
structure ReadCtx where
  readSnapshot : ℤ
  isSafeRead : Bool
  skipCompact : Bool
  baseVersion : ℤ

/-- Whether `find_trans_node_below_version` stops at a node. -/
def ReadCtx.startsAt (rc : ReadCtx) (n : TransNode Obj) : Bool :=
  if n.isAborted then false
  else if n.isCommitted then decide (n.transVersion ≤ rc.readSnapshot)
  else if rc.isSafeRead then false
  else decide (n.transVersion ≤ rc.readSnapshot)

def findTransNodeBelowVersion (rc : ReadCtx) : List (TransNode Obj) → List (TransNode Obj)
  | [] => []
  | n :: rest => if rc.startsAt n then n :: rest else findTransNodeBelowVersion rc rest

/-- Nodes that `get_next_node` passes over. -/
def ReadCtx.skips (rc : ReadCtx) (n : TransNode Obj) : Bool :=
  n.isAborted || n.isLockNode || (n.type == .compact && rc.skipCompact)

/-- A compact node ends the iteration, unless compact nodes are skipped. -/
def moveToNextNode (rc : ReadCtx) (n : TransNode Obj) (rest : List (TransNode Obj)) :
    List (TransNode Obj) :=
  if n.type = .compact ∧ rc.skipCompact = false then [] else rest

/-- The next node and the new position, or `none` for `OB_ITER_END`. -/
def getNextNode (rc : ReadCtx) :
    List (TransNode Obj) → Option (TransNode Obj × List (TransNode Obj))
  | [] => none
  | n :: rest =>
    if n.transVersion ≤ rc.baseVersion then none
    else if !rc.skips n then some (n, moveToNextNode rc n rest)
    else if n.type = .compact ∧ rc.skipCompact = false then none
    else getNextNode rc rest

/-- The nodes that calling `get_next_node` to its end returns. -/
def takenNodes (rc : ReadCtx) : List (TransNode Obj) → List (TransNode Obj)
  | [] => []
  | n :: rest =>
    if n.transVersion ≤ rc.baseVersion then []
    else
      let below := if n.type = .compact ∧ rc.skipCompact = false then [] else takenNodes rc rest
      if rc.skips n then below else n :: below

lemma takenNodes_eq (rc : ReadCtx) (chain : List (TransNode Obj)) : takenNodes rc chain =
      match getNextNode rc chain with
      | none => []
      | some (n, rest) => n :: takenNodes rc rest := by
  induction chain with
  | nil => rfl
  | cons n rest ih =>
    by_cases hb : n.transVersion ≤ rc.baseVersion
    · simp [takenNodes, getNextNode, hb]
    by_cases hc : n.type = .compact ∧ rc.skipCompact = false
    · cases hs : rc.skips n <;> simp [takenNodes, getNextNode, moveToNextNode, hb, hc, hs]
    · cases hs : rc.skips n
      · simp [takenNodes, getNextNode, moveToNextNode, hb, hc, hs]
      · simp only [takenNodes, getNextNode, hb, hc, hs]
        exact ih

lemma head?_takenNodes (rc : ReadCtx) (chain : List (TransNode Obj)) :
    (takenNodes rc chain).head? = (getNextNode rc chain).map Prod.fst := by
  rw [takenNodes_eq]
  cases getNextNode rc chain <;> rfl

/-! ## Existence -/

/-- `ObReadRow::exist`: `(is_exist, has_found)`, by the first cell of the first node. No cells stand
for the end flag alone. -/
def existOf : Option (TransNode Obj) → Bool × Bool
  | none => (false, false)
  | some n =>
    match n.mtd.cells with
    | [] => (true, true)
    | .delRow :: _ => (false, true)
    | .column _ _ :: _ => (true, true)

def exist (rc : ReadCtx) (chain : List (TransNode Obj)) : Bool × Bool :=
  existOf ((getNextNode rc (findTransNodeBelowVersion rc chain)).map Prod.fst)

/-! ## Collecting cells -/

/-- `ObStoreRow::flag_`. -/
inductive RowFlag where
  | rowDoesNotExist
  | rowExist
  | delRow
  deriving DecidableEq, Repr

/-- The row under construction. A column without an entry in `cells` is still set in the NOP bitmap.
-/
structure StoreRow (Obj : Type) where
  flag : RowFlag
  cells : List (UInt32 × Obj)
  filledColumnCount : ℕ
  rowEmpty : Bool
  snapshotVersion : ℤ
  rowScn : ℤ

/-- `ObMemtableRowReader::get_memtable_row`: reads the cells of one node. -/
def getMemtableRow (columns : List UInt32) : List (Cell Obj) → StoreRow Obj → StoreRow Obj
  | [], row => { row with rowEmpty := false }
  | .delRow :: _, row =>
    { row with
      flag := if row.rowEmpty then .delRow else row.flag
      filledColumnCount := columns.length
      rowEmpty := false }
  | .column c v :: rest, row =>
    let row := { row with rowEmpty := false }
    if columns.length ≤ row.filledColumnCount then row
    else if c ∈ columns ∧ row.cells.lookup c = none then
      getMemtableRow columns rest
        { row with cells := (c, v) :: row.cells, filledColumnCount := row.filledColumnCount + 1 }
    else getMemtableRow columns rest row

/-- The body of the loop of `iterate_row_value_`. -/
def readNode (columns : List UInt32) (n : TransNode Obj) (row : StoreRow Obj) : StoreRow Obj :=
  let transVersion := if n.isCommitted then n.transVersion else INT64_MAX
  let row := { row with
    flag := if row.flag = .rowDoesNotExist then .rowExist else row.flag
    snapshotVersion := max transVersion row.snapshotVersion }
  let row := getMemtableRow columns n.mtd.cells row
  { row with rowScn := if row.rowScn = 0 then n.transVersion else row.rowScn }

def iterateNodes (columns : List UInt32) : List (TransNode Obj) → StoreRow Obj → StoreRow Obj
  | [], row => row
  | n :: rest, row =>
    let row := readNode columns n row
    if n.mtd.dmlType = .insert ∨ columns.length ≤ row.filledColumnCount then row
    else iterateNodes columns rest row

def iterateRowValue (rc : ReadCtx) (columns : List UInt32) (chain : List (TransNode Obj)) :
    StoreRow Obj :=
  iterateNodes columns (takenNodes rc (findTransNodeBelowVersion rc chain))
    { flag := .rowDoesNotExist, cells := [], filledColumnCount := 0, rowEmpty := true,
      snapshotVersion := 0, rowScn := 0 }

/-! ## What is collected for one column -/

/-- The first cell of column `c`, not looking past a delete mark. -/
def firstCell (c : UInt32) : List (Cell Obj) → Option Obj
  | [] => none
  | .delRow :: _ => none
  | .column c' v :: rest => if c' = c then some v else firstCell c rest

def hasDelRow : List (Cell Obj) → Bool
  | [] => false
  | .delRow :: _ => true
  | .column _ _ :: rest => hasDelRow rest

/-- A node after which nothing older is read: it inserted the row, or deleted it. -/
def endsRow (n : TransNode Obj) : Bool := n.mtd.dmlType == .insert || hasDelRow n.mtd.cells

/-- The newest cell of column `c` along `nodes`, up to a node that ends the row. -/
def visibleCell (c : UInt32) : List (TransNode Obj) → Option Obj
  | [] => none
  | n :: rest =>
    (firstCell c n.mtd.cells).or (if endsRow n then none else visibleCell c rest)

/-- The row under construction holds requested columns only, each once. -/
structure StoreRow.Valid (columns : List UInt32) (row : StoreRow Obj) : Prop where
  nodup : (row.cells.map Prod.fst).Nodup
  subset : row.cells.map Prod.fst ⊆ columns
  count : row.cells.length ≤ row.filledColumnCount

/-- No delete mark was met: the count of filled columns is exact. -/
def StoreRow.Exact (row : StoreRow Obj) : Prop := row.filledColumnCount = row.cells.length

variable {c : UInt32}

lemma lookup_isSome_iff {cells : List (UInt32 × Obj)} :
    (cells.lookup c).isSome ↔ c ∈ cells.map Prod.fst := by
  simp [List.lookup_isSome_iff]

variable {columns : List UInt32}

lemma StoreRow.Valid.full {row : StoreRow Obj}
    (h : row.Valid columns) (hexact : row.Exact) (hfull : columns.length ≤ row.filledColumnCount)
    (hc : c ∈ columns) : (row.cells.lookup c).isSome := by
  rw [lookup_isSome_iff]
  have hsub := h.nodup.subperm h.subset
  have hperm := hsub.perm_of_length_le (by rw [length_map, ← hexact]; exact hfull)
  exact hperm.symm.subset hc

lemma getMemtableRow_spec (hc : c ∈ columns) :
    ∀ (cells : List (Cell Obj)) (row : StoreRow Obj), row.Valid columns → row.Exact →
      (getMemtableRow columns cells row).Valid columns ∧
      (hasDelRow cells = false → (getMemtableRow columns cells row).Exact) ∧
      (hasDelRow cells = true →
        columns.length ≤ (getMemtableRow columns cells row).filledColumnCount) ∧
      (getMemtableRow columns cells row).cells.lookup c = (row.cells.lookup c).or
      (firstCell c cells)
  | [], row, hv, he => by
    refine ⟨⟨hv.nodup, hv.subset, hv.count⟩, fun _ => he, by simp [hasDelRow], ?_⟩
    simp [getMemtableRow, firstCell]
  | .delRow :: rest, row, hv, he => by
    refine ⟨⟨hv.nodup, hv.subset, ?_⟩, by simp [hasDelRow], fun _ => le_refl _, ?_⟩
    · have hsub := (hv.nodup.subperm hv.subset).length_le
      simpa [getMemtableRow] using hsub
    · simp [getMemtableRow, firstCell]
  | .column c' v :: rest, row, hv, he => by
    by_cases hfull : columns.length ≤ row.filledColumnCount
    · -- every column is filled already
      have hsome := hv.full he hfull hc
      obtain ⟨w, hw⟩ := isSome_iff_exists.1 hsome
      simp only [getMemtableRow, if_pos hfull]
      refine ⟨⟨hv.nodup, hv.subset, hv.count⟩, fun _ => he, fun _ => hfull, ?_⟩
      simp [hw]
    · by_cases hnew : c' ∈ columns ∧ row.cells.lookup c' = none
      · obtain ⟨hmem, hnone⟩ := hnew
        have hfresh : c' ∉ row.cells.map Prod.fst := by rw [← lookup_isSome_iff, hnone]; simp
        have hv' : StoreRow.Valid columns { row with
            rowEmpty := false, cells := (c', v) :: row.cells,
            filledColumnCount := row.filledColumnCount + 1 } := by
          refine ⟨nodup_cons.2 ⟨hfresh, hv.nodup⟩, ?_, ?_⟩
          · exact cons_subset.2 ⟨hmem, hv.subset⟩
          · have := hv.count
            simp only [length_cons]
            omega
        have he' : StoreRow.Exact { row with
            rowEmpty := false, cells := (c', v) :: row.cells,
            filledColumnCount := row.filledColumnCount + 1 } := by
          simp only [StoreRow.Exact, length_cons] at he ⊢
          omega
        obtain ⟨h1, h2, h3, h4⟩ := getMemtableRow_spec hc rest _ hv' he'
        simp only [getMemtableRow, if_neg hfull, if_pos (And.intro hmem hnone)]
        refine ⟨h1, h2, h3, ?_⟩
        rw [h4]
        rcases eq_or_ne c c' with rfl | hcc
        · simp [lookup, firstCell, hnone]
        · have hb : (c == c') = false := by simpa using hcc
          simp [lookup, hb, firstCell, hcc.symm]
      · obtain ⟨h1, h2, h3, h4⟩ := getMemtableRow_spec hc rest { row with rowEmpty := false }
          ⟨hv.nodup, hv.subset, hv.count⟩ he
        simp only [getMemtableRow, if_neg hfull, if_neg hnew]
        refine ⟨h1, h2, h3, ?_⟩
        rw [h4]
        rcases eq_or_ne c c' with rfl | hcc
        · have hsome : row.cells.lookup c ≠ none := fun h => hnew ⟨hc, h⟩
          obtain ⟨w, hw⟩ := ne_none_iff_exists'.1 hsome
          simp [hw]
        · simp [firstCell, hcc.symm]

lemma readNode_spec (hc : c ∈ columns) (n : TransNode Obj)
    {row : StoreRow Obj} (hv : row.Valid columns) (he : row.Exact) :
    (readNode columns n row).Valid columns ∧
      (hasDelRow n.mtd.cells = false → (readNode columns n row).Exact) ∧
      (hasDelRow n.mtd.cells = true → columns.length ≤ (readNode columns n row).filledColumnCount) ∧
      (readNode columns n row).cells.lookup c =
        (row.cells.lookup c).or (firstCell c n.mtd.cells) := by
  obtain ⟨h1, h2, h3, h4⟩ := getMemtableRow_spec hc n.mtd.cells { row with
      flag := if row.flag = .rowDoesNotExist then .rowExist else row.flag
      snapshotVersion :=
        max (if n.isCommitted then n.transVersion else INT64_MAX) row.snapshotVersion }
    ⟨hv.nodup, hv.subset, hv.count⟩ he
  exact ⟨⟨h1.nodup, h1.subset, h1.count⟩, h2, h3, h4⟩

lemma iterateNodes_cell (hc : c ∈ columns) :
    ∀ (nodes : List (TransNode Obj)) (row : StoreRow Obj), row.Valid columns → row.Exact →
      (iterateNodes columns nodes row).cells.lookup c = (row.cells.lookup c).or
      (visibleCell c nodes)
  | [], row, _, _ => by simp [iterateNodes, visibleCell]
  | n :: rest, row, hv, he => by
    obtain ⟨hv', he', hfull', hlook⟩ := readNode_spec hc n hv he
    simp only [iterateNodes, visibleCell]
    cases hd : hasDelRow n.mtd.cells with
    | true =>
      have hstop : n.mtd.dmlType = .insert ∨
        columns.length ≤ (readNode columns n row).filledColumnCount := .inr (hfull' hd)
      rw [if_pos hstop, hlook]
      simp [endsRow, hd]
    | false =>
      by_cases hi : n.mtd.dmlType = .insert
      · rw [if_pos (.inl hi), hlook]
        simp [endsRow, hi]
      · by_cases hfull : columns.length ≤ (readNode columns n row).filledColumnCount
        · -- stopped because every column has its value
          obtain ⟨w, hw⟩ := isSome_iff_exists.1 (hv'.full (he' hd) hfull hc)
          rw [if_pos (.inr hfull), ← Option.or_assoc, ← hlook, hw]
          simp
        · rw [if_neg (by tauto), iterateNodes_cell hc rest _ hv' (he' hd), hlook, Option.or_assoc]
          simp [endsRow, hd, hi]

/-- **What is collected for a column** is its newest visible cell, although the loop may stop early.
-/
theorem iterateRowValue_cell (rc : ReadCtx) (hc : c ∈ columns) (chain : List (TransNode Obj)) :
    (iterateRowValue rc columns chain).cells.lookup c =
      visibleCell c (takenNodes rc (findTransNodeBelowVersion rc chain)) := by
  have h := iterateNodes_cell hc (takenNodes rc (findTransNodeBelowVersion rc chain))
    { flag := .rowDoesNotExist, cells := [], filledColumnCount := 0, rowEmpty := true,
      snapshotVersion := 0, rowScn := 0 } ⟨by simp, by simp, by simp⟩ rfl
  simpa [iterateRowValue] using h

lemma exist_eq (rc : ReadCtx) (chain : List (TransNode Obj)) :
    exist rc chain = existOf (takenNodes rc (findTransNodeBelowVersion rc chain)).head? := by
  rw [head?_takenNodes, exist]

/-! ## Reading through a split list -/

lemma find_append (rc : ReadCtx) (above below : List (TransNode Obj)) :
    findTransNodeBelowVersion rc (above ++ below) =
      if findTransNodeBelowVersion rc above = [] then findTransNodeBelowVersion rc below
      else findTransNodeBelowVersion rc above ++ below := by
  induction above with
  | nil => simp [findTransNodeBelowVersion]
  | cons n above ih =>
    by_cases h : rc.startsAt n
    · simp [findTransNodeBelowVersion, h]
    · simpa [findTransNodeBelowVersion, h] using ih

lemma find_suffix (rc : ReadCtx) (chain : List (TransNode Obj)) :
    findTransNodeBelowVersion rc chain <:+ chain := by
  induction chain with
  | nil => exact suffix_refl _
  | cons n rest ih =>
    simp only [findTransNodeBelowVersion]
    split_ifs
    · exact suffix_refl _
    · exact ih.trans (suffix_cons n rest)

lemma ReadCtx.le_of_startsAt {rc : ReadCtx} {n : TransNode Obj} (h : rc.startsAt n = true) :
    n.transVersion ≤ rc.readSnapshot := by
  simp only [ReadCtx.startsAt] at h
  split_ifs at h
  · simpa using h
  · simpa using h

lemma find_eq_nil {rc : ReadCtx} {chain : List (TransNode Obj)}
    (h : ∀ n ∈ chain, rc.readSnapshot < n.transVersion) :
    findTransNodeBelowVersion rc chain = [] := by
  induction chain with
  | nil => rfl
  | cons n rest ih =>
    have hn : rc.startsAt n ≠ true := fun hs => by
      have := ReadCtx.le_of_startsAt hs
      have := h n (by simp)
      omega
    simp only [findTransNodeBelowVersion, if_neg hn]
    exact ih fun m hm => h m (by simp [hm])

/-- A reader that starts at fewer nodes starts further down. -/
lemma find_suffix_find {rc rc' : ReadCtx} {chain : List (TransNode Obj)}
    (h : ∀ n ∈ chain, rc'.startsAt n = true → rc.startsAt n = true) :
    findTransNodeBelowVersion rc' chain <:+ findTransNodeBelowVersion rc chain := by
  induction chain with
  | nil => exact suffix_refl _
  | cons n rest ih =>
    by_cases hn : rc.startsAt n = true
    · simp only [findTransNodeBelowVersion, hn]
      exact find_suffix rc' (n :: rest)
    · have hn' : rc'.startsAt n ≠ true := fun hs => hn (h n (by simp) hs)
      simp only [findTransNodeBelowVersion, if_neg hn, if_neg hn']
      exact ih fun m hm => h m (by simp [hm])

/-- Whether a reader, having started above, goes on below these nodes. -/
def passes (rc : ReadCtx) (nodes : List (TransNode Obj)) : Bool :=
  nodes.all fun n => !(n.type == .compact && !rc.skipCompact)

lemma takenNodes_append (rc : ReadCtx) (above below : List (TransNode Obj))
    (hbase : ∀ n ∈ above, rc.baseVersion < n.transVersion) : takenNodes rc (above ++ below) =
      takenNodes rc above ++ if passes rc above then takenNodes rc below else [] := by
  induction above with
  | nil => simp [takenNodes, passes]
  | cons n above ih =>
    have hn : ¬ n.transVersion ≤ rc.baseVersion := by
      have := hbase n (by simp)
      omega
    have ih := ih fun m hm => hbase m (by simp [hm])
    by_cases hc : n.type = .compact ∧ rc.skipCompact = false
    · cases hs : rc.skips n <;> simp [takenNodes, passes, hn, hc, hs]
    · have hp : passes rc (n :: above) = passes rc above := by
        rcases not_and_or.1 hc with h | h
        · have hb : (n.type == NodeType.compact) = false := by simpa using h
          simp [passes, hb]
        · simp [passes, h]
      rw [hp]
      cases hs : rc.skips n <;> simp [takenNodes, hn, hc, hs, ih]

/-- Whether the search for column `c` ends among these nodes. -/
def settles (c : UInt32) (nodes : List (TransNode Obj)) : Bool :=
  nodes.any fun n => (firstCell c n.mtd.cells).isSome || endsRow n

lemma visibleCell_append (c : UInt32) (above below : List (TransNode Obj)) :
    visibleCell c (above ++ below) =
      if settles c above then visibleCell c above else visibleCell c below := by
  induction above with
  | nil => simp [settles]
  | cons n above ih =>
    simp only [cons_append, visibleCell, ih]
    cases hf : firstCell c n.mtd.cells with
    | some v => simp [settles, hf]
    | none =>
      cases he : endsRow n with
      | true => simp [settles, he]
      | false =>
        have hset : settles c (n :: above) = settles c above := by simp [settles, hf, he]
        simp [hset]

end OceanBase.Memtable
