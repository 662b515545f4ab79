import DailyReadCoding.OceanBase.Memtable.RowCompactor
import DailyReadCoding.OceanBase.Memtable.RowInvariant
import DailyReadCoding.OceanBase.Memtable.RowReader

/-!
# What readers see after a row compaction

`construct_compact_node_` walks the nodes below its start and keeps the first cell of each column;
a reader that meets the new node takes its cells and stops.  This file compares the two, without the
linked list: the chain is a list of nodes, newest first, and the compact node is put into it.
`readsAgree_compact_iff` says when no reader can tell it from the nodes below.
-/

namespace OceanBase.Memtable

open LinkedHeap List Function ReadCtx Option CompactMap

variable {Obj : Type}

/-! ## The column map holds the first cell of each column -/

namespace CompactMap

/-- Every column sits in its bucket. -/
def WellFormed (m : CompactMap Obj) : Prop := ∀ i, ∀ x ∈ m.buckets i, bktIdx x.1 = i

def get (m : CompactMap Obj) (c : UInt32) : Option Obj := (m.buckets (bktIdx c)).lookup c

lemma lookup_setBucket (c c' : UInt32) (v : Obj) (b : List (UInt32 × Obj)) :
    (setBucket c' v b).lookup c = (b.lookup c).or (if c = c' then some v else none) := by
  cases b with
  | nil =>
    rcases eq_or_ne c c' with rfl | h
    · simp [setBucket, lookup]
    · have hb : (c == c') = false := by simpa using h
      simp [setBucket, lookup, hb, h]
  | cons first rest =>
    simp only [setBucket]
    split_ifs with hmem h h
    · obtain ⟨w, hw⟩ := isSome_iff_exists.1 (lookup_isSome_iff.2 hmem)
      rw [h, hw]; simp
    · simp
    · subst h
      have hnone : (first :: rest).lookup c = none := by
        rw [← not_isSome_iff_eq_none, lookup_isSome_iff]
        exact hmem
      obtain ⟨c1, v1⟩ := first
      have hne : (c == c1) = false := by
        simp only [map_cons, mem_cons, not_or] at hmem
        simpa using hmem.1
      simp only [lookup, hne] at hnone ⊢
      simp [hnone]
    · obtain ⟨c1, v1⟩ := first
      have hb : (c == c') = false := by simpa using h
      by_cases h1 : c = c1 <;> simp [lookup, h1, hb]

lemma get_set (m : CompactMap Obj) (c c' : UInt32) (v : Obj) :
    (m.set c' v).get c = (m.get c).or (if c = c' then some v else none) := by
  by_cases hb : bktIdx c = bktIdx c'
  · simp only [get, set, hb, update_self, lookup_setBucket]
  · have hc : c ≠ c' := fun h => hb (by rw [h])
    simp [get, set, hb, hc]

lemma mem_setBucket {c : UInt32} {v : Obj} {b : List (UInt32 × Obj)} {x : UInt32 × Obj}
    (h : x ∈ setBucket c v b) : x ∈ b ∨ x = (c, v) := by
  cases b with
  | nil => simpa [setBucket] using h
  | cons first rest =>
    simp only [setBucket] at h
    split_ifs at h
    · exact Or.inl h
    · simp only [mem_cons] at h ⊢
      tauto

lemma WellFormed.set {m : CompactMap Obj} (h : m.WellFormed) (c : UInt32) (v : Obj) :
    (m.set c v).WellFormed := by
  intro i x hx
  by_cases hi : i = bktIdx c
  · subst hi
    simp only [CompactMap.set, update_self] at hx
    rcases mem_setBucket hx with hx | rfl
    · exact h _ x hx
    · rfl
  · simp only [CompactMap.set, update_of_ne hi] at hx
    exact h i x hx

lemma wellFormed_empty : (empty : CompactMap Obj).WellFormed := by
  intro i x hx
  simp [empty] at hx

/-- Scanning all buckets finds for a column what its own bucket holds. -/
lemma lookup_toCells {m : CompactMap Obj} (h : m.WellFormed) (c : UInt32) :
    m.toCells.lookup c = m.get c := by
  -- over any list of buckets with no bucket twice: only the column's own can have it
  have hscan : ∀ is : List (Fin BKT_N), is.Nodup →
      (is.flatMap m.buckets).lookup c = if bktIdx c ∈ is then m.get c else none := by
    intro is
    induction is with
    | nil => intro _; simp
    | cons i is ih =>
      intro hnd
      obtain ⟨hi, hnd⟩ := nodup_cons.1 hnd
      rw [flatMap_cons, lookup_append, ih hnd]
      by_cases hc : bktIdx c = i
      · simp [get, hc, hi]
      · have hnone : (m.buckets i).lookup c = none := by
          rw [← not_isSome_iff_eq_none, lookup_isSome_iff]
          intro hmem
          obtain ⟨x, hx, rfl⟩ := mem_map.1 hmem
          exact hc (h i x hx)
        simp [hnone, hc]
  rw [toCells, hscan _ (nodup_finRange BKT_N)]
  simp

end CompactMap

/-! ## The scan, along a list -/

/-- The outer loop of `construct_compact_node_`, with the nodes still to come as a list. -/
def scanChain : List (TransNode Obj) → CompactScan Obj → CompactScan Obj
  | [], a => a
  | n :: rest, a =>
    let a := { a with overflow := a.overflow || n.isOverflow }
    if a.compactCellCnt = 0 ∧ n.type = .compact then a
    else if n.mtd.dmlType = .delete then { a with isRowDelete := true }
    else
      let a := scanCells n.mtd.dmlType n.mtd.cells a
      if n.type = .compact then a else scanChain rest a

variable {cur : Option NodePtr} {l : List NodePtr} {s : RowState Obj} {up : Option NodePtr}
  (hl : Segment s.prevs s.nexts up cur l none)

include hl

lemma scanNodes_spec {fuel : ℕ} {a : CompactScan Obj} :
    Walks l.length fuel (· = scanChain (l.map s.heap) a) (scanNodes s.heap fuel cur a) := by
  induction fuel generalizing up cur l a with
  | zero => exact Nat.zero_le _
  | succ fuel ih =>
    cases l with
    | nil =>
      obtain rfl : cur = none := hl
      rfl
    | cons p l =>
      obtain ⟨rfl, -, hl⟩ := hl
      simp only [scanNodes, map_cons, scanChain]
      split_ifs
      · rfl
      · rfl
      · rfl
      · exact (ih hl).mono Nat.succ_le_succ fun _ => id

omit hl

/-- What a node adds to `compact_cell_cnt`. -/
def weight (n : TransNode Obj) : ℕ := n.mtd.cells.length + if n.isLockNode then 1 else 0

/-- The nodes whose cells go into the map, when `cnt` cells have been seen before. -/
def mergedNodes : ℕ → List (TransNode Obj) → List (TransNode Obj)
  | _, [] => []
  | cnt, n :: rest =>
    if cnt = 0 ∧ n.type = .compact then []
    else if n.mtd.dmlType = .delete then []
    else if n.type = .compact then [n]
    else n :: mergedNodes (cnt + weight n) rest

/-- Whether the scan ends at a delete node. -/
def endsAtDelete : ℕ → List (TransNode Obj) → Bool
  | _, [] => false
  | cnt, n :: rest =>
    if cnt = 0 ∧ n.type = .compact then false
    else if n.mtd.dmlType = .delete then true
    else if n.type = .compact then false
    else endsAtDelete (cnt + weight n) rest

def totalWeight (nodes : List (TransNode Obj)) : ℕ := (nodes.map weight).sum

/-- What the writers of nodes guarantee: only a delete node holds the delete mark, and compact nodes
are `T_DML_UNKNOWN` or `T_DML_DELETE`. -/
structure NodeWF (n : TransNode Obj) : Prop where
  delete : n.mtd.dmlType = .delete → n.mtd.cells = [.delRow]
  noMark : n.mtd.dmlType ≠ .delete → hasDelRow n.mtd.cells = false
  compact : n.type = .compact → n.mtd.dmlType = .unknown ∨ n.mtd.dmlType = .delete

lemma firstCell_append {c : UInt32} {cells1 cells2 : List (Cell Obj)}
    (h : hasDelRow cells1 = false) :
    firstCell c (cells1 ++ cells2) = (firstCell c cells1).or (firstCell c cells2) := by
  induction cells1 with
  | nil => simp [firstCell]
  | cons x cells1 ih =>
    cases x with
    | delRow => simp [hasDelRow] at h
    | column c' v =>
      by_cases hc : c' = c
      · simp [firstCell, hc]
      · simpa [firstCell, hc] using ih h

lemma scanCells_spec (dml : RowDml) (c : UInt32) :
    ∀ (cells : List (Cell Obj)) (a : CompactScan Obj), hasDelRow cells = false →
      a.map.WellFormed →
      (scanCells dml cells a).compactCellCnt =
        a.compactCellCnt + (cells.length + if dml = .lock then 1 else 0) ∧
      (scanCells dml cells a).isRowDelete = a.isRowDelete ∧
      (scanCells dml cells a).map.WellFormed ∧
      (scanCells dml cells a).map.get c = (a.map.get c).or (firstCell c cells)
  | [], a, _, hm => by by_cases hd : dml = .lock <;> simp [scanCells, firstCell, hd, hm]
  | .delRow :: rest, a, hd, _ => by simp [hasDelRow] at hd
  | .column c' v :: rest, a, hd, hm => by
    obtain ⟨h1, h2, h3, h4⟩ := scanCells_spec dml c rest
      { a with map := a.map.set c' v, compactCellCnt := a.compactCellCnt + 1 } hd (hm.set c' v)
    refine ⟨?_, h2, h3, ?_⟩
    · simp only [scanCells, h1, length_cons]
      omega
    · simp only [scanCells, h4, get_set]
      by_cases hc : c = c'
      · subst hc; simp [firstCell]
      · simp [firstCell, hc, Ne.symm hc]

lemma scanChain_spec (c : UInt32) :
    ∀ (nodes : List (TransNode Obj)) (a : CompactScan Obj), (∀ n ∈ nodes, NodeWF n) →
      a.map.WellFormed →
      (scanChain nodes a).compactCellCnt =
        a.compactCellCnt + totalWeight (mergedNodes a.compactCellCnt nodes) ∧
      (scanChain nodes a).isRowDelete =
        (a.isRowDelete || endsAtDelete a.compactCellCnt nodes) ∧
      (scanChain nodes a).map.WellFormed ∧
      (scanChain nodes a).map.get c = (a.map.get c).or
        (firstCell c ((mergedNodes a.compactCellCnt nodes).flatMap fun n => n.mtd.cells))
  | [], a, _, hm => by simp [scanChain, mergedNodes, endsAtDelete, totalWeight, firstCell, hm]
  | n :: rest, a, hwf, hm => by
    simp only [scanChain, mergedNodes, endsAtDelete]
    by_cases h1 : a.compactCellCnt = 0 ∧ n.type = .compact
    · simp [h1, totalWeight, firstCell, hm]
    by_cases h2 : n.mtd.dmlType = .delete
    · simp [h1, h2, totalWeight, firstCell, hm]
    have hn := hwf n (by simp)
    obtain ⟨hc, hd, hm', hg⟩ := scanCells_spec n.mtd.dmlType c n.mtd.cells
      { a with overflow := a.overflow || n.isOverflow } (hn.noMark h2) hm
    have hw : n.mtd.cells.length + (if n.mtd.dmlType = .lock then 1 else 0) = weight n := by
      simp [weight, TransNode.isLockNode]
    rw [hw] at hc
    by_cases h3 : n.type = .compact
    · simp only [if_neg h1, if_neg h2, if_pos h3]
      refine ⟨by simpa [totalWeight] using hc, by simpa using hd, hm', ?_⟩
      simpa using hg
    · obtain ⟨ihc, ihd, ihm, ihg⟩ := scanChain_spec c rest _ (fun m hm => hwf m (by simp [hm])) hm'
      simp only [if_neg h1, if_neg h2, if_neg h3]
      rw [hc, hd] at ihd
      rw [hc] at ihc ihg
      refine ⟨?_, ihd, ihm, ?_⟩
      · rw [ihc]
        simp only [totalWeight, map_cons, sum_cons]
        omega
      · rw [ihg, hg, Option.or_assoc, flatMap_cons, firstCell_append (hn.noMark h2)]

/-! ## What is read of the compacted nodes, before and after -/

/-- The merged nodes that a reader does not pass over. -/
def mergedWrites (cnt : ℕ) (nodes : List (TransNode Obj)) : List (TransNode Obj) :=
  (mergedNodes cnt nodes).filter fun n => !n.isLockNode

/-- A node without a delete mark makes the row exist. -/
lemma existOf_write {n : TransNode Obj} (h : hasDelRow n.mtd.cells = false) :
    existOf (some n) = (true, true) := by
  cases hc : n.mtd.cells with
  | nil => simp [existOf, hc]
  | cons x rest =>
    cases x with
    | delRow => simp [hasDelRow, hc] at h
    | column c v => simp [existOf, hc]

/-- A reader of the nodes below takes the merged ones that are not lock nodes, up to a delete node
or the end. -/
lemma takenNodes_merged {rc : ReadCtx} (hskip : rc.skipCompact = false) (c : UInt32) :
    ∀ (nodes : List (TransNode Obj)) (cnt : ℕ), (∀ n ∈ nodes, NodeWF n) →
      (∀ n ∈ nodes, n.isAborted = false ∧ rc.baseVersion < n.transVersion) →
      (0 < cnt + totalWeight (mergedNodes cnt nodes) ∨ endsAtDelete cnt nodes = true) →
      visibleCell c (takenNodes rc nodes) = visibleCell c (mergedWrites cnt nodes) ∧
      existOf (takenNodes rc nodes).head? =
        if mergedWrites cnt nodes = [] then (false, endsAtDelete cnt nodes) else (true, true)
  | [], cnt, _, _, _ => by simp [takenNodes, mergedWrites, mergedNodes, endsAtDelete, existOf]
  | n :: rest, cnt, hwf, hok, hwritten => by
    have hn := hwf n (by simp)
    obtain ⟨habort, hbase⟩ := hok n (by simp)
    have hb : ¬ n.transVersion ≤ rc.baseVersion := by omega
    simp only [mergedNodes, endsAtDelete] at hwritten
    simp only [takenNodes, mergedWrites, mergedNodes, endsAtDelete, if_neg hb]
    by_cases h1 : cnt = 0 ∧ n.type = .compact
    · simp [h1, totalWeight] at hwritten
    by_cases h2 : n.mtd.dmlType = .delete
    · have hs : rc.skips n = false := by simp [skips, habort, TransNode.isLockNode, h2, hskip]
      have hcells := hn.delete h2
      have hend : endsRow n = true := by simp [endsRow, hcells, hasDelRow]
      simp [h1, h2, hs, visibleCell, hend, hcells, firstCell, existOf]
    have hmark := hn.noMark h2
    by_cases h3 : n.type = .compact
    · have hlock : n.isLockNode = false := by
        rcases hn.compact h3 with h | h <;> simp [TransNode.isLockNode, h]
      have hs : rc.skips n = false := by simp [skips, habort, hlock, hskip]
      have hcnt : cnt ≠ 0 := fun h => h1 ⟨h, h3⟩
      simp [hcnt, h2, h3, hs, hskip, hlock, visibleCell, existOf_write hmark]
    · have hs : rc.skips n = n.isLockNode := by
        have hb : (n.type == NodeType.compact) = false := by simpa using h3
        simp [skips, habort, hb]
      simp only [if_neg h1, if_neg h2, if_neg h3] at hwritten ⊢
      have hrest : 0 < cnt + weight n + totalWeight (mergedNodes (cnt + weight n) rest) ∨
          endsAtDelete (cnt + weight n) rest = true := by
        refine hwritten.imp_left fun h => ?_
        simp only [totalWeight, map_cons, sum_cons] at h ⊢
        omega
      obtain ⟨ih1, ih2⟩ := takenNodes_merged hskip c rest (cnt + weight n)
        (fun m hm => hwf m (by simp [hm])) (fun m hm => hok m (by simp [hm])) hrest
      have hnc : ¬ (n.type = .compact ∧ rc.skipCompact = false) := fun h => h3 h.1
      rw [if_neg hnc, hs]
      cases hlock : n.isLockNode with
      | true => simpa [hlock, mergedWrites] using And.intro ih1 ih2
      | false =>
        simp only [mergedWrites] at ih1
        simp [hlock, visibleCell, ih1, existOf_write hmark]

lemma firstCell_columns (cells : List (UInt32 × Obj)) (c : UInt32) :
    firstCell c (cells.map fun (c, v) => Cell.column c v) = cells.lookup c := by
  induction cells with
  | nil => rfl
  | cons x cells ih =>
    obtain ⟨c', v⟩ := x
    rcases eq_or_ne c c' with rfl | h
    · simp [firstCell, lookup]
    · have hb : (c == c') = false := by simpa using h
      simpa [firstCell, lookup, hb, h.symm] using ih

lemma hasDelRow_columns (cells : List (UInt32 × Obj)) :
    hasDelRow (cells.map fun (c, v) => Cell.column c v) = false := by
  induction cells with
  | nil => rfl
  | cons x cells ih => exact ih

/-- What a reader takes from a node whose data is the outcome of a scan. -/
lemma compactData_spec {nodes : List (TransNode Obj)} (hwf : ∀ n ∈ nodes, NodeWF n)
    {k : TransNode Obj} (hk : k.mtd = compactData (scanChain nodes initScan)) (c : UInt32) :
    visibleCell c [k] = firstCell c ((mergedNodes 0 nodes).flatMap fun n => n.mtd.cells) ∧
      existOf (some k) =
        if totalWeight (mergedNodes 0 nodes) = 0 then (false, true) else (true, true) := by
  obtain ⟨hcnt, -, hm, hget⟩ := scanChain_spec c nodes initScan hwf wellFormed_empty
  simp only [initScan, zero_add] at hcnt hget hm
  have hempty : (CompactMap.empty : CompactMap Obj).get c = none := rfl
  rw [hempty, none_or] at hget
  by_cases hw : totalWeight (mergedNodes 0 nodes) = 0
  · -- no cell was merged, so there is none to be lost
    have hnil : (mergedNodes 0 nodes).flatMap (fun n => n.mtd.cells) = [] := by
      rw [flatMap_eq_nil_iff]
      intro n hn
      have hle : weight n ≤ totalWeight (mergedNodes 0 nodes) :=
        single_le_sum (by simp) _ (mem_map_of_mem hn)
      have hlen : n.mtd.cells.length = 0 := by
        simp only [weight] at hle
        omega
      exact length_eq_zero_iff.1 hlen
    have hdata : k.mtd = ⟨.delete, [.delRow]⟩ := by
      rw [hk, compactData, initScan, hcnt, hw, if_pos rfl]
    simp [visibleCell, hdata, firstCell, endsRow, hasDelRow, hnil, existOf, hw]
  · have hdata : k.mtd = ⟨.unknown, (scanChain nodes initScan).map.toCells.map
        fun (c, v) => .column c v⟩ := by
      rw [hk, compactData, initScan, hcnt, if_neg hw]
    have hmark : hasDelRow k.mtd.cells = false := by simp only [hdata, hasDelRow_columns]
    refine ⟨?_, by rw [existOf_write hmark, if_neg hw]⟩
    rw [← hget, ← lookup_toCells hm, ← firstCell_columns]
    simp [visibleCell, hdata, endsRow, hasDelRow_columns, initScan]

/-! ## Which readers are affected -/

/-- A reader sees the same in both version lists. -/
def ReadsAgree (rc : ReadCtx) (chain chain' : List (TransNode Obj)) : Prop :=
  exist rc chain = exist rc chain' ∧
    ∀ (columns : List UInt32), ∀ c ∈ columns,
      (iterateRowValue rc columns chain).cells.lookup c =
        (iterateRowValue rc columns chain').cells.lookup c

lemma readsAgree_iff (rc : ReadCtx) (chain chain' : List (TransNode Obj)) :
    ReadsAgree rc chain chain' ↔
      existOf (takenNodes rc (findTransNodeBelowVersion rc chain)).head? =
        existOf (takenNodes rc (findTransNodeBelowVersion rc chain')).head? ∧
      ∀ c, visibleCell c (takenNodes rc (findTransNodeBelowVersion rc chain)) =
        visibleCell c (takenNodes rc (findTransNodeBelowVersion rc chain')) := by
  rw [ReadsAgree, exist_eq, exist_eq]
  refine and_congr_right fun _ => ⟨fun h c => ?_, fun h columns c hc => ?_⟩
  · have := h [c] c (by simp)
    rwa [iterateRowValue_cell rc (by simp), iterateRowValue_cell rc (by simp)] at this
  · rw [iterateRowValue_cell rc hc, iterateRowValue_cell rc hc, h c]

section Readers

variable {above rest : List (TransNode Obj)} {save k : TransNode Obj}

/-- The compact node `k` stands for `save`: same version, and both can be read. -/
structure StandsFor (k save : TransNode Obj) : Prop where
  version : k.transVersion = save.transVersion
  committed : save.isCommitted = true ∧ k.isCommitted = true
  alive : save.isAborted = false ∧ k.isAborted = false
  compact : k.type = .compact
  noLock : k.isLockNode = false

lemma StandsFor.startsAt (h : StandsFor k save) (rc : ReadCtx) :
    rc.startsAt save = decide (save.transVersion ≤ rc.readSnapshot) ∧
      rc.startsAt k = decide (save.transVersion ≤ rc.readSnapshot) := by
  simp [ReadCtx.startsAt, h.committed, h.alive, h.version]

/-- A reader that has met no compact node above goes on with `save` before and with `k` after. -/
lemma takenNodes_insert (h : StandsFor k save) (rc : ReadCtx)
    (hbase : ∀ n ∈ above ++ save :: rest, rc.baseVersion < n.transVersion)
    (hsorted : ∀ n ∈ above, save.transVersion ≤ n.transVersion) :
    (¬ (save.transVersion ≤ rc.readSnapshot ∧ rc.skipCompact = false ∧
        passes rc (findTransNodeBelowVersion rc above) = true) ∧
      takenNodes rc (findTransNodeBelowVersion rc (above ++ save :: rest)) =
        takenNodes rc (findTransNodeBelowVersion rc (above ++ k :: save :: rest))) ∨
    (save.transVersion ≤ rc.readSnapshot ∧ rc.skipCompact = false ∧
      passes rc (findTransNodeBelowVersion rc above) = true ∧
      takenNodes rc (findTransNodeBelowVersion rc (above ++ save :: rest)) =
        takenNodes rc (findTransNodeBelowVersion rc above) ++ takenNodes rc (save :: rest) ∧
      takenNodes rc (findTransNodeBelowVersion rc (above ++ k :: save :: rest)) =
        takenNodes rc (findTransNodeBelowVersion rc above) ++ [k]) := by
  obtain ⟨hstart, hstart'⟩ := h.startsAt rc
  by_cases hv : save.transVersion ≤ rc.readSnapshot
  · have hfind : ∀ x tail, rc.startsAt x = true →
        findTransNodeBelowVersion rc (above ++ x :: tail) =
          findTransNodeBelowVersion rc above ++ x :: tail := by
      intro x tail hx
      rw [find_append]
      split_ifs with hb
      · simp [hb, findTransNodeBelowVersion, hx]
      · rfl
    have hB : ∀ n ∈ findTransNodeBelowVersion rc above, rc.baseVersion < n.transVersion :=
      fun n hn => hbase n (mem_append_left _ ((find_suffix rc above).subset hn))
    rw [hfind save rest (by simp [hstart, hv]), hfind k (save :: rest) (by simp [hstart', hv]),
      takenNodes_append rc _ _ hB, takenNodes_append rc _ _ hB]
    have hbk : ¬ k.transVersion ≤ rc.baseVersion := by
      have := hbase save (by simp)
      rw [h.version]
      omega
    cases hskip : rc.skipCompact with
    | true =>
      left
      have hk : takenNodes rc (k :: save :: rest) = takenNodes rc (save :: rest) := by
        have hs : rc.skips k = true := by simp [skips, h.compact, hskip]
        simp [takenNodes, hbk, hs, hskip]
      rw [hk]
      exact ⟨by simp, rfl⟩
    | false =>
      have hk : takenNodes rc (k :: save :: rest) = [k] := by
        have hs : rc.skips k = false := by simp [skips, h.alive, h.noLock, hskip]
        simp [takenNodes, hbk, hs, hskip, h.compact]
      cases hp : passes rc (findTransNodeBelowVersion rc above) with
      | true => right; exact ⟨hv, rfl, rfl, by simp, by simp [hk]⟩
      | false => left; exact ⟨by simp, by simp⟩
  · left
    have hB : findTransNodeBelowVersion rc above = [] := by
      refine find_eq_nil fun n hn => ?_
      have := hsorted n hn
      omega
    have hk : findTransNodeBelowVersion rc (k :: save :: rest) =
        findTransNodeBelowVersion rc (save :: rest) := by
      simp [findTransNodeBelowVersion, hstart', hv]
    rw [find_append, find_append, if_pos hB, if_pos hB, hk]
    exact ⟨fun h => hv h.1, rfl⟩

/-- The compact node tells as the compacted nodes did whether the row exists: they are empty, or a
cell was merged and not all merged nodes are lock nodes. -/
def ExistKept (below : List (TransNode Obj)) : Prop :=
  mergedNodes 0 below ≠ [] →
    0 < totalWeight (mergedNodes 0 below) ∧ ∃ n ∈ mergedNodes 0 below, n.isLockNode = false

/-- The newest cell of column `c` among the merged nodes is also the newest among those that are not
lock nodes, down to the first insert node. -/
def CellKept (c : UInt32) (below : List (TransNode Obj)) : Prop :=
  firstCell c ((mergedNodes 0 below).flatMap fun n => n.mtd.cells) =
    visibleCell c ((mergedNodes 0 below).filter fun n => !n.isLockNode)

lemma mergedWrites_ne_nil_iff (cnt : ℕ) (nodes : List (TransNode Obj)) :
    mergedWrites cnt nodes ≠ [] ↔ ∃ n ∈ mergedNodes cnt nodes, n.isLockNode = false := by
  simp [mergedWrites, filter_eq_nil_iff]

/-- `ExistKept` is what it takes for the first node read to give the same answer. -/
lemma existKept_iff {below : List (TransNode Obj)}
    (hwritten : 0 < totalWeight (mergedNodes 0 below) ∨ endsAtDelete 0 below = true) :
    ((if mergedWrites 0 below = [] then (false, endsAtDelete 0 below) else (true, true)) =
      if totalWeight (mergedNodes 0 below) = 0 then (false, true) else (true, true)) ↔
      ExistKept below := by
  have hiff := mergedWrites_ne_nil_iff 0 below
  by_cases hw : totalWeight (mergedNodes 0 below) = 0
  · have hd : endsAtDelete 0 below = true := hwritten.resolve_left (by omega)
    -- nodes without weight are not lock nodes
    have hM : mergedWrites 0 below = mergedNodes 0 below := by
      refine filter_eq_self.2 fun n hn => ?_
      have hle : weight n ≤ totalWeight (mergedNodes 0 below) :=
        single_le_sum (by simp) _ (mem_map_of_mem hn)
      cases hl : n.isLockNode with
      | false => rfl
      | true => simp [weight, hl] at hle; omega
    by_cases hM0 : mergedNodes 0 below = []
    · simp [ExistKept, hM, hM0, hd, totalWeight]
    · simp [ExistKept, hM, hM0, hw]
  · have hM0 : mergedNodes 0 below ≠ [] := fun h => hw (by simp [h, totalWeight])
    have hpos : 0 < totalWeight (mergedNodes 0 below) := by omega
    by_cases hW : mergedWrites 0 below = []
    · simp only [ExistKept, hM0, ne_eq, ← hiff, hW]
      simp [hw]
    · simp only [ExistKept, ne_eq, hpos, ← hiff, hW]
      simp [hw]

/-- What a reader that goes on with the compacted nodes sees of them. -/
lemma readsAgree_through {seen below : List (TransNode Obj)} {rc : ReadCtx}
    (hskip : rc.skipCompact = false) (hwf : ∀ n ∈ below, NodeWF n)
    (hok : ∀ n ∈ below, n.isAborted = false ∧ rc.baseVersion < n.transVersion)
    (hwritten : 0 < totalWeight (mergedNodes 0 below) ∨ endsAtDelete 0 below = true)
    (hk : k.mtd = compactData (scanChain below initScan)) :
    (existOf (seen ++ takenNodes rc below).head? = existOf (seen ++ [k]).head? ∧
      ∀ c, visibleCell c (seen ++ takenNodes rc below) = visibleCell c (seen ++ [k])) ↔
    (seen ≠ [] ∨ ExistKept below) ∧ ∀ c, settles c seen = true ∨ CellKept c below := by
  refine and_congr ?_ (forall_congr' fun c => ?_)
  · cases seen with
    | cons n seen => simp
    | nil =>
      have h1 := (takenNodes_merged hskip 0 below 0 hwf hok (by simpa using hwritten)).2
      have h2 := (compactData_spec hwf hk 0).2
      simp only [nil_append, head?_cons, h1, h2, existKept_iff hwritten]
      simp
  · have h1 := (takenNodes_merged hskip c below 0 hwf hok (by simpa using hwritten)).1
    have h2 := (compactData_spec hwf hk c).1
    rw [visibleCell_append, visibleCell_append, h1, h2]
    cases hs : settles c seen
    · simp only [Bool.false_eq_true, false_or]
      exact eq_comm
    · simp

/-- The reader at the version of the compacted nodes that reads only what is committed. -/
def lowestReader (b v : ℤ) : ReadCtx := ⟨v, true, false, b⟩

/-- No reader notices that `below` was compacted: what the lowest reader has not seen before is told
by the compact node as it was by `below`. -/
def CompactionKeeps (b : ℤ) (above below : List (TransNode Obj)) : Prop :=
  ∀ save, below.head? = some save →
    let rc := lowestReader b save.transVersion
    let seen := takenNodes rc (findTransNodeBelowVersion rc above)
    passes rc (findTransNodeBelowVersion rc above) = true →
      (seen ≠ [] ∨ ExistKept below) ∧ ∀ c, settles c seen = true ∨ CellKept c below

lemma takenNodes_congr (rc rc' : ReadCtx) (hs : rc.skipCompact = rc'.skipCompact)
    (hb : rc.baseVersion = rc'.baseVersion) (nodes : List (TransNode Obj)) :
    takenNodes rc nodes = takenNodes rc' nodes := by
  obtain ⟨v, safe, skip, b⟩ := rc
  obtain ⟨v', safe', skip', b'⟩ := rc'
  obtain rfl : skip = skip' := hs
  obtain rfl : b = b' := hb
  induction nodes with
  | nil => rfl
  | cons n nodes ih => simp only [takenNodes, skips, ih]; rfl

lemma settles_append (c : UInt32) (l1 l2 : List (TransNode Obj)) :
    settles c (l1 ++ l2) = (settles c l1 || settles c l2) := by
  simp [settles]

lemma lowestReader_startsAt {b v : ℤ} {rc : ReadCtx} {n : TransNode Obj} (hv : v ≤ rc.readSnapshot)
    (h : (lowestReader b v).startsAt n = true) : rc.startsAt n = true := by
  have hle : n.transVersion ≤ v := le_of_startsAt h
  simp only [startsAt, lowestReader] at h ⊢
  split_ifs at h ⊢
  exact decide_eq_true (le_trans hle hv)

/-- When no reader can tell the compact node from the nodes below it. -/
theorem readsAgree_compact_iff (h : StandsFor k save) (b : ℤ)
    (hbase : ∀ n ∈ above ++ save :: rest, b < n.transVersion)
    (hsorted : ∀ n ∈ above, save.transVersion ≤ n.transVersion)
    (hwf : ∀ n ∈ save :: rest, NodeWF n) (halive : ∀ n ∈ save :: rest, n.isAborted = false)
    (hwritten : 0 < totalWeight (mergedNodes 0 (save :: rest)) ∨
      endsAtDelete 0 (save :: rest) = true)
    (hk : k.mtd = compactData (scanChain (save :: rest) initScan)) :
    (∀ rc : ReadCtx, rc.baseVersion = b →
      ReadsAgree rc (above ++ save :: rest) (above ++ k :: save :: rest)) ↔
    CompactionKeeps b above (save :: rest) := by
  have hok : ∀ rc : ReadCtx, rc.baseVersion = b →
      ∀ n ∈ save :: rest, n.isAborted = false ∧ rc.baseVersion < n.transVersion := by
    intro rc hb n hn
    rw [hb]
    exact ⟨halive n hn, hbase n (mem_append_right _ hn)⟩
  constructor
  · intro hall n hn rc seen hpass
    obtain rfl : save = n := by simpa using hn
    have hagree := (readsAgree_iff _ _ _).1 (hall (lowestReader b save.transVersion) rfl)
    rcases takenNodes_insert h (lowestReader b save.transVersion) hbase hsorted with
      ⟨hnot, -⟩ | ⟨-, -, -, h1, h2⟩
    · exact absurd ⟨le_refl _, rfl, hpass⟩ hnot
    · rw [h1, h2] at hagree
      exact (readsAgree_through rfl hwf (hok _ rfl) hwritten hk).1 hagree
  · intro hkeeps rc hb
    rw [readsAgree_iff]
    rcases takenNodes_insert h rc (by rw [hb]; exact hbase) hsorted with
      ⟨-, heq⟩ | ⟨hv, hskip, hp, h1, h2⟩
    · rw [heq]; exact ⟨rfl, fun _ => rfl⟩
    rw [h1, h2, readsAgree_through hskip hwf (hok rc hb) hwritten hk]
    -- the nodes the lowest reader has seen end the nodes this reader has seen
    obtain ⟨P, hP⟩ : findTransNodeBelowVersion (lowestReader b save.transVersion) above <:+
        findTransNodeBelowVersion rc above :=
      find_suffix_find fun n _ hn => lowestReader_startsAt hv hn
    have hpasses : passes rc P = true ∧
        passes (lowestReader b save.transVersion)
          (findTransNodeBelowVersion (lowestReader b save.transVersion) above) = true := by
      rw [← hP] at hp
      simpa [passes, hskip, lowestReader] using hp
    have hbaseP : ∀ n ∈ P, rc.baseVersion < n.transVersion := by
      intro n hn
      rw [hb]
      refine hbase n (mem_append_left _ ((find_suffix rc above).subset ?_))
      rw [← hP]
      exact mem_append_left _ hn
    rw [← hP, takenNodes_append rc P _ hbaseP, if_pos hpasses.1,
      takenNodes_congr rc (lowestReader b save.transVersion) hskip hb
        (findTransNodeBelowVersion (lowestReader b save.transVersion) above)]
    obtain ⟨hexist, hcells⟩ := hkeeps save rfl hpasses.2
    refine ⟨hexist.imp_left fun hne => by simp [hne], fun c => ?_⟩
    rw [settles_append]
    exact (hcells c).imp_left fun hs => by simp [hs]

end Readers

end OceanBase.Memtable
