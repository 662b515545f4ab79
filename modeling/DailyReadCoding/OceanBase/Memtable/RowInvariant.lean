import DailyReadCoding.OceanBase.Memtable.RowList

/-!
# The version list stays well formed

`RowInv s l` says that the version list of the row is exactly `l`: linked both ways, sorted, counted
by `total_trans_node_cnt_`, free of aborted nodes, and with a replay index that points into it.
-/

namespace OceanBase.Memtable

open LinkedHeap List TransNode RowIndex Option

variable {Obj : Type}

/-! ## What each write does to the fields the list depends on -/

namespace RowState

variable (s : RowState Obj) (p q : NodePtr) (v : Option NodePtr)

def versions (p : NodePtr) : ℤ := (s.heap p).transVersion

def aborted (p : NodePtr) : Bool := (s.heap p).isAborted

/-- The nodes of the row, the newest first. -/
abbrev Lists (l : List NodePtr) : Prop := IsList s.prevs s.nexts s.row.listHead l

lemma proj_write {β : Type} (f : TransNode Obj → β) (n : TransNode Obj) :
    f ((s.write p n).heap q) = if q = p then f n else f (s.heap q) := by
  by_cases h : q = p
  · subst h; simp [write]
  · simp [write, h]

/-- A write that keeps a field of the node keeps that field everywhere. -/
lemma proj_write_same {β : Type} (f : TransNode Obj → β) {n : TransNode Obj}
    (h : f n = f (s.heap p)) : f ((s.write p n).heap q) = f (s.heap q) := by
  rw [proj_write s p q f]
  split_ifs with hq
  · rw [h, hq]
  · rfl

@[simp] lemma write_row (n : TransNode Obj) : (s.write p n).row = s.row := rfl

lemma prevs_write (n : TransNode Obj) :
    (s.write p n).prevs q = if q = p then n.prev else s.prevs q :=
  s.proj_write p q prev n

lemma nexts_write (n : TransNode Obj) :
    (s.write p n).nexts q = if q = p then n.next else s.nexts q :=
  s.proj_write p q next n

@[simp] lemma setPrev_row : (s.setPrev p v).row = s.row := rfl

@[simp] lemma setNext_row : (s.setNext p v).row = s.row := rfl

@[simp] lemma clearAborted_row : (s.clearAborted p).row = s.row := rfl

@[simp] lemma setAborted_row : (s.setAborted p).row = s.row := rfl

section

variable (f : MvccRow → MvccRow)

@[simp] lemma onRow_row : (s.onRow f).row = f s.row := rfl

@[simp] lemma prevs_onRow : (s.onRow f).prevs q = s.prevs q := rfl

@[simp] lemma nexts_onRow : (s.onRow f).nexts q = s.nexts q := rfl

@[simp] lemma versions_onRow : (s.onRow f).versions q = s.versions q := rfl

@[simp] lemma aborted_onRow : (s.onRow f).aborted q = s.aborted q := rfl

end

@[simp] lemma prevs_setPrev : (s.setPrev p v).prevs q = if q = p then v else s.prevs q :=
  s.proj_write p q prev _

@[simp] lemma nexts_setNext : (s.setNext p v).nexts q = if q = p then v else s.nexts q :=
  s.proj_write p q next _

@[simp] lemma prevs_setNext : (s.setNext p v).prevs q = s.prevs q := s.proj_write_same p q prev rfl

@[simp] lemma nexts_setPrev : (s.setPrev p v).nexts q = s.nexts q := s.proj_write_same p q next rfl

@[simp] lemma prevs_clearAborted : (s.clearAborted p).prevs q = s.prevs q :=
  s.proj_write_same p q prev rfl

@[simp] lemma nexts_clearAborted : (s.clearAborted p).nexts q = s.nexts q :=
  s.proj_write_same p q next rfl

@[simp] lemma prevs_setAborted : (s.setAborted p).prevs q = s.prevs q :=
  s.proj_write_same p q prev rfl

@[simp] lemma nexts_setAborted : (s.setAborted p).nexts q = s.nexts q :=
  s.proj_write_same p q next rfl

@[simp] lemma versions_setPrev : (s.setPrev p v).versions q = s.versions q :=
  s.proj_write_same p q transVersion rfl

@[simp] lemma versions_setNext : (s.setNext p v).versions q = s.versions q :=
  s.proj_write_same p q transVersion rfl

@[simp] lemma versions_clearAborted : (s.clearAborted p).versions q = s.versions q :=
  s.proj_write_same p q transVersion rfl

@[simp] lemma versions_setAborted : (s.setAborted p).versions q = s.versions q :=
  s.proj_write_same p q transVersion rfl

@[simp] lemma aborted_setPrev : (s.setPrev p v).aborted q = s.aborted q :=
  s.proj_write_same p q isAborted rfl

@[simp] lemma aborted_setNext : (s.setNext p v).aborted q = s.aborted q :=
  s.proj_write_same p q isAborted rfl

@[simp] lemma aborted_clearAborted :
    (s.clearAborted p).aborted q = if q = p then false else s.aborted q :=
  (s.proj_write p q isAborted _).trans (by simp [aborted])

/-- Setting the flag on one node leaves it alone on the others. -/
lemma aborted_setAborted_ne (h : q ≠ p) : (s.setAborted p).aborted q = s.aborted q :=
  (s.proj_write p q isAborted _).trans (if_neg h)

end RowState

open RowState

/-! ## What linking a node does -/

section Link

variable {s s' : RowState Obj} {node prev : NodePtr} {next tmp : Option NodePtr}

/-- `s'` differs from `s` by `node`, now linked between `next` and `tmp`. -/
structure NodeLinked (s : RowState Obj) (node : NodePtr) (next tmp : Option NodePtr)
    (s' : RowState Obj) : Prop where
  prevs : ∀ q, s'.prevs q =
    if next = some q then some node else if q = node then tmp else s.prevs q
  nexts : ∀ q, s'.nexts q =
    if tmp = some q then some node else if q = node then next else s.nexts q
  versions : ∀ q, s'.versions q = s.versions q
  aborted : ∀ q, s'.aborted q = if q = node then false else s.aborted q
  listHead : s'.row.listHead = if next = none then some node else s.row.listHead
  index : s'.row.index = s.row.index
  count : s'.row.totalTransNodeCnt = s.row.totalTransNodeCnt

/-- The writes of the indexed branch link the node. -/
lemma linkAtIndex_linked (node : NodePtr) (hhead : s.row.listHead = some prev ↔ next = none) :
    NodeLinked s node next (some prev) (linkAtIndex s node prev next) := by
  cases next with
  | none =>
    have h : s.row.listHead = some prev := hhead.2 rfl
    constructor <;> simp [linkAtIndex, setPrev?, store, h, eq_comm]
  | some n =>
    have h : s.row.listHead ≠ some prev := fun h => absurd (hhead.1 h) (by simp)
    constructor <;> simp [linkAtIndex, setPrev?, h, eq_comm]

/-- The slot that holds the pointer to the node after `next`. -/
def slotBelow : Option NodePtr → Slot
  | none => .listHead
  | some n => .prevOf n

/-- The writes of the plain branch link the node. -/
lemma linkAtSlot_linked (s : RowState Obj) (node : NodePtr) {w : PrevWalk}
    (hslot : w.slot = slotBelow w.nextNode) :
    NodeLinked s node w.nextNode w.tmp (linkAtSlot s node w) := by
  obtain ⟨ret, next, slot, tmp, steps⟩ := w
  obtain rfl : slot = slotBelow next := hslot
  cases next <;> cases tmp <;> constructor <;>
    simp [linkAtSlot, slotBelow, setNext?, store, eq_comm]

end Link

/-! ## The invariant -/

/-- Every entry of the index is a node of `l`, and an index marked empty has no entry. -/
structure IndexInv (ix : RowIndex) (l : List NodePtr) : Prop where
  mem : ∀ i p, ix.replayLocations i = some p → p ∈ l
  empty : ix.isEmpty = true → ∀ i, ix.replayLocations i = none

/-- The version list of the row is exactly `l`, sorted, and has no aborted node. -/
structure ListInv (s : RowState Obj) (l : List NodePtr) : Prop where
  linked : IsList s.prevs s.nexts s.row.listHead l
  sorted : l.Pairwise fun p q => s.versions q ≤ s.versions p
  alive : ∀ p ∈ l, s.aborted p = false

/-- `ListInv` with the row's own account of the list: the count and the replay index. -/
structure RowInv (s : RowState Obj) (l : List NodePtr) : Prop extends ListInv s l where
  count : s.row.totalTransNodeCnt = l.length
  index : ∀ ix, s.row.index = some ix → IndexInv ix l

lemma indexInv_new (l : List NodePtr) : IndexInv RowIndex.new l :=
  ⟨fun i p h => by simp [new] at h, fun _ i => rfl⟩

lemma IndexInv.reset {ix : RowIndex} {l : List NodePtr} (h : IndexInv ix l) :
    IndexInv ix.reset l := by
  unfold RowIndex.reset
  split_ifs
  · exact indexInv_new l
  · exact h

/-- A longer list still holds the index nodes. -/
lemma IndexInv.mono {ix : RowIndex} {l l' : List NodePtr} (h : IndexInv ix l) (hl : l ⊆ l') :
    IndexInv ix l' :=
  ⟨fun i p hp => hl (h.mem i p hp), h.empty⟩

lemma IndexInv.setIndexNode {ix : RowIndex} {l : List NodePtr} (h : IndexInv ix l) (i : ℤ)
    {v : Option NodePtr} (hv : ∀ p, v = some p → p ∈ l) : IndexInv (ix.setIndexNode i v) l := by
  unfold RowIndex.setIndexNode
  split
  · next j _ =>
      refine ⟨fun k p hk => ?_, fun he => absurd he (by simp)⟩
      rcases eq_or_ne k j with rfl | hkj
      · exact hv p (by simpa using hk)
      · exact h.mem k p (by simpa [hkj] using hk)
  · exact h

lemma IndexInv.getIndexNode {ix : RowIndex} {l : List NodePtr} (h : IndexInv ix l) {i : ℤ}
    {p : NodePtr} (hp : ix.getIndexNode i = some p) : p ∈ l := by
  unfold RowIndex.getIndexNode at hp
  split at hp
  · exact h.mem _ p hp
  · simp at hp

lemma slot?_natCast (i : Fin REPLAY_TASK_QUEUE_SIZE) : RowIndex.slot? ((i : ℕ) : ℤ) = some i := by
  have h : (0 : ℤ) ≤ (i : ℕ) ∧ ((i : ℕ) : ℤ) < REPLAY_TASK_QUEUE_SIZE := by omega
  simp [slot?, h]

section

variable (node : NodePtr) (v : Option NodePtr) (ix : RowIndex)

lemma unlinkIndexEntry_replayLocations (k : ℕ) (i : Fin REPLAY_TASK_QUEUE_SIZE) :
    (unlinkIndexEntry node v ix k).replayLocations i =
      if RowIndex.slot? k = some i ∧ ix.replayLocations i = some node then v
      else ix.replayLocations i := by
  unfold unlinkIndexEntry getIndexNode setIndexNode
  cases hk : slot? k with
  | none => simp
  | some j =>
    rcases eq_or_ne i j with rfl | hij
    · by_cases hi : ix.replayLocations i = some node <;> simp [hi]
    · by_cases hj : ix.replayLocations j = some node <;> simp [hj, hij, hij.symm]

lemma unlinkIndexEntry_isEmpty {node : NodePtr} {v : Option NodePtr} {ix : RowIndex} {k : ℕ}
    (h : (unlinkIndexEntry node v ix k).isEmpty = true) : ix.isEmpty = true := by
  unfold unlinkIndexEntry setIndexNode at h
  split_ifs at h
  · split at h
    · simp at h
    · exact h
  · exact h

/-- The loop replaces the node in all entries. -/
lemma unlinkIndex_replayLocations (i : Fin REPLAY_TASK_QUEUE_SIZE) :
    (unlinkIndex node v ix).replayLocations i =
      if ix.replayLocations i = some node then v else ix.replayLocations i := by
  -- over any list of rounds: the entries whose index came up have been treated
  have hfold : ∀ (ks : List ℕ) (ix : RowIndex),
      (ks.foldl (unlinkIndexEntry node v) ix).replayLocations i =
      if (∃ k ∈ ks, slot? (k : ℤ) = some i) ∧ ix.replayLocations i = some node then v
      else ix.replayLocations i := by
    intro ks
    induction ks with
    | nil => intro ix; simp
    | cons k ks ih =>
      intro ix
      rw [foldl_cons, ih, unlinkIndexEntry_replayLocations]
      by_cases hk : slot? (k : ℤ) = some i <;>
        by_cases hi : ix.replayLocations i = some node <;> simp [hk, hi]
  have hi : ∃ k ∈ range REPLAY_TASK_QUEUE_SIZE, slot? (k : ℤ) = some i :=
    ⟨i, mem_range.2 i.isLt, slot?_natCast i⟩
  rw [unlinkIndex, hfold]
  simp only [hi, true_and]

lemma unlinkIndex_isEmpty : (unlinkIndex node v ix).isEmpty = true → ix.isEmpty = true := by
  unfold unlinkIndex
  generalize range REPLAY_TASK_QUEUE_SIZE = ks
  induction ks generalizing ix with
  | nil => exact id
  | cons k ks ih => exact fun h => unlinkIndexEntry_isEmpty (ih _ h)

end

/-- After the loop the index points into the list without `node`, if `v` does. -/
lemma IndexInv.unlink {ix : RowIndex} {l l' : List NodePtr} (h : IndexInv ix l) {node : NodePtr}
    {v : Option NodePtr} (hl : ∀ p ∈ l, p ≠ node → p ∈ l') (hv : ∀ p, v = some p → p ∈ l') :
    IndexInv (unlinkIndex node v ix) l' := by
  refine ⟨fun i p hp => ?_, fun he i => ?_⟩
  · rw [unlinkIndex_replayLocations] at hp
    split_ifs at hp with hi
    · exact hv p hp
    · exact hl p (h.mem i p hp) fun e => hi (e ▸ hp)
  · have hnone := h.empty (unlinkIndex_isEmpty node v ix he) i
    rw [unlinkIndex_replayLocations, hnone]
    simp

/-! ## The two walks -/

section Walks

variable {s : RowState Obj} {l l₁ l₂ : List NodePtr} {v : ℤ} {fuel : ℕ}

/-- The walk along `next_` passes the nodes older than `v`. -/
lemma walkNext_spec (hl : s.Lists l) {prev : NodePtr} (hat : l = l₁ ++ prev :: l₂) :
    Walks l₁.length fuel (fun w : NodePtr × Option NodePtr => ∃ k rest, l = k ++ w.1 :: rest ∧
      k ⊆ l₁ ∧ (w.1 = prev ∨ s.versions w.1 < v) ∧ w.2 = lastOr none k ∧
      ∀ q, w.2 = some q → v ≤ s.versions q) (walkNext s.heap v fuel prev (s.heap prev).next) := by
  induction fuel generalizing l₁ prev l₂ with
  | zero => exact Nat.zero_le _
  | succ fuel ih =>
    have hlinks := IsList.links (hat ▸ hl)
    have hnext : (s.heap prev).next = lastOr none l₁ := hlinks.2
    rw [hnext]
    rcases lastOr_cases none l₁ with ⟨rfl, h⟩ | ⟨k, u, rfl, h⟩
    · exact ⟨[], l₂, hat, fun _ hq => hq, .inl rfl, rfl, by simp⟩
    · rw [h, walkNext]
      split_ifs with hv
      · refine (ih (by simpa using hat)).mono (fun hle => by simpa using hle) ?_
        rintro w ⟨k', rest, hw, hsub, hold, hstop⟩
        exact ⟨k', rest, hw, fun q hq => mem_append_left _ (hsub hq),
          .inr (hold.elim (fun e => e ▸ hv) id), hstop⟩
      · refine ⟨k ++ [u], l₂, hat, fun _ hq => hq, .inl rfl, h.symm, fun q hq => ?_⟩
        obtain rfl : u = q := by simpa using hq
        exact Int.not_lt.1 hv

/-- The walk along `prev_` stops below the nodes newer than `v`, or fails at a compact one. -/
lemma walkPrev_spec (hl : s.Lists l) {next tmp : Option NodePtr} {slot : Slot} {steps : ℕ}
    (hat : l = l₁ ++ l₂) (htmp : tmp = l₂.head?) (hnext : next = lastOr none l₁)
    (hslot : slot = slotBelow next) (hnewer : ∀ q ∈ l₁, v < s.versions q) :
    Walks l₂.length fuel (fun w : PrevWalk => ∃ k1 k2, l = k1 ++ k2 ∧ w.tmp = k2.head? ∧
      w.nextNode = lastOr none k1 ∧ w.slot = slotBelow w.nextNode ∧ (∀ q ∈ k1, v < s.versions q) ∧
      (w.ret = .success → ∀ q, k2.head? = some q → s.versions q ≤ v) ∧
      (w.ret ≠ .success → ∃ q ∈ l, v < s.versions q ∧ (s.heap q).type = .compact))
      (walkPrev s.heap v fuel next slot tmp steps) := by
  induction fuel generalizing l₁ l₂ next tmp slot steps with
  | zero => exact Nat.zero_le _
  | succ fuel ih =>
    cases l₂ with
    | nil =>
      obtain rfl : tmp = none := htmp
      exact ⟨l₁, [], hat, rfl, hnext, hslot, hnewer, by simp, fun h => absurd rfl h⟩
    | cons t l₂ =>
      obtain rfl : tmp = some t := htmp
      rw [walkPrev]
      split_ifs with hv hc
      · exact ⟨l₁, t :: l₂, hat, rfl, hnext, hslot, hnewer, by simp,
          fun _ => ⟨t, by simp [hat], hv, hc⟩⟩
      · have hnewer' : ∀ q ∈ l₁ ++ [t], v < s.versions q := by
          intro q hq
          rcases mem_append.1 hq with hq | hq
          · exact hnewer q hq
          · obtain rfl : q = t := by simpa using hq
            exact hv
        have hlinks := IsList.links (hat ▸ hl)
        exact (ih (by simpa using hat) hlinks.1 (by simp [lastOr]) rfl hnewer').mono
          Nat.succ_le_succ fun _ => id
      · refine ⟨l₁, t :: l₂, hat, rfl, hnext, hslot, hnewer, fun _ q hq => ?_,
          fun h => absurd rfl h⟩
        obtain rfl : t = q := by simpa using hq
        exact Int.not_lt.1 hv

end Walks

/-! ## Insertion -/

section Insert

variable {s s' : RowState Obj} {l l₁ l₂ : List NodePtr} {node : NodePtr} {ctx : InsertCtx}

lemma le_of_lastOr {v : ℤ} (hsorted : (l₁ ++ l₂).Pairwise fun p q => s.versions q ≤ s.versions p)
    (hv : ∀ q, lastOr none l₁ = some q → v ≤ s.versions q) : ∀ q ∈ l₁, v ≤ s.versions q := by
  intro q hq
  rcases lastOr_cases none l₁ with ⟨rfl, -⟩ | ⟨k, u, rfl, hu⟩
  · simp at hq
  · have hvu := hv u hu
    rcases mem_append.1 hq with hq | hq
    · have habove := (pairwise_append.1 (pairwise_append.1 hsorted).1).2.2
      exact Int.le_trans hvu (habove q hq u (by simp))
    · obtain rfl : q = u := by simpa using hq
      exact hvu

lemma le_of_head {v : ℤ} (hsorted : (l₁ ++ l₂).Pairwise fun p q => s.versions q ≤ s.versions p)
    (hv : ∀ q, l₂.head? = some q → s.versions q ≤ v) : ∀ q ∈ l₂, s.versions q ≤ v := by
  intro q hq
  cases l₂ with
  | nil => simp at hq
  | cons t k =>
    have ht := hv t rfl
    rcases mem_cons.1 hq with rfl | hq
    · exact ht
    · exact Int.le_trans ((pairwise_cons.1 (pairwise_append.1 hsorted).2.1).1 q hq) ht

/-- A node that was linked between two neighbours of the list is in the list. -/
lemma NodeLinked.isList (hlink : NodeLinked s node (lastOr none l₁) l₂.head? s')
    (h : s.Lists (l₁ ++ l₂)) (hnode : node ∉ l₁ ++ l₂) : s'.Lists (l₁ ++ node :: l₂) := by
  have hne : ∀ q ∈ l₁ ++ l₂, q ≠ node := fun q hq e => hnode (e ▸ hq)
  have hnext_ne : lastOr none l₁ ≠ some node := fun e => hnode (mem_append_left _ (mem_of_lastOr e))
  have htmp_ne : l₂.head? ≠ some node := fun e => hnode (mem_append_right _ (mem_of_mem_head? e))
  refine h.insert ?_ ?_ ?_ ?_ ?_
  · rw [hlink.prevs]; simp [hnext_ne]
  · rw [hlink.nexts]; simp [htmp_ne]
  · intro x hx
    rw [hlink.prevs]; simp [hne x hx]
  · intro x hx
    rw [hlink.nexts]; simp [hne x hx]
  · rw [hlink.listHead]
    rcases lastOr_cases none l₁ with ⟨rfl, hn⟩ | ⟨k, u, rfl, hu⟩
    · simp [hn]
    · simp [hu]

/-- A linked node keeps the list sorted. -/
lemma ListInv.link (h : ListInv s (l₁ ++ l₂)) (hnode : node ∉ l₁ ++ l₂)
    (hlink : NodeLinked s node (lastOr none l₁) l₂.head? s')
    (hnewer : ∀ q, lastOr none l₁ = some q → s.versions node ≤ s.versions q)
    (holder : ∀ q, l₂.head? = some q → s.versions q ≤ s.versions node) :
    ListInv s' (l₁ ++ node :: l₂) := by
  refine ⟨hlink.isList h.linked hnode, ?_, ?_⟩
  · have hgt := le_of_lastOr h.sorted hnewer
    have hle := le_of_head h.sorted holder
    simp only [hlink.versions]
    obtain ⟨hs1, hs2, hs⟩ := pairwise_append.1 h.sorted
    exact pairwise_append.2 ⟨hs1, pairwise_cons.2 ⟨hle, hs2⟩, fun a ha =>
      forall_mem_cons.2 ⟨hgt a ha, hs a ha⟩⟩
  · intro q hq
    rw [hlink.aborted]
    split_ifs with hqn
    · rfl
    · refine h.alive q ?_
      simp only [mem_append, mem_cons, hqn, false_or] at hq
      exact mem_append.2 hq

lemma ListInv.onRow (h : ListInv s l) {f : MvccRow → MvccRow}
    (hf : (f s.row).listHead = s.row.listHead) : ListInv (s.onRow f) l :=
  ⟨by rw [onRow_row, hf]; exact h.linked, h.sorted, h.alive⟩

lemma subset_insert (l₁ l₂ : List NodePtr) (node : NodePtr) : l₁ ++ l₂ ⊆ l₁ ++ node :: l₂ :=
  (List.Sublist.append_left (sublist_cons_self node l₂) l₁).subset

/-- The invariant after `node` was linked and counted, and the index entry possibly set. -/
lemma RowInv.link {next tmp : Option NodePtr} {t : RowState Obj} (h : RowInv s (l₁ ++ l₂))
    (hlink : NodeLinked s node next tmp s') (hlist : ListInv s' (l₁ ++ node :: l₂))
    (ht : t = s' ∨ ∃ ix, IndexInv ix (l₁ ++ node :: l₂) ∧ t = s'.setIndex ix) :
    RowInv (addTransNodeCnt 1 t) (l₁ ++ node :: l₂) := by
  rcases ht with rfl | ⟨ix, hix, rfl⟩
  · refine ⟨hlist.onRow rfl, ?_, fun ix hix => ?_⟩
    · simp only [addTransNodeCnt, onRow_row, hlink.count, h.count]
      simp; omega
    · exact (h.index ix (by simpa [addTransNodeCnt, hlink.index] using hix)).mono
        (subset_insert l₁ l₂ node)
  · refine ⟨(hlist.onRow rfl).onRow rfl, ?_, fun ix' hix' => ?_⟩
    · simp only [addTransNodeCnt, setIndex, onRow_row, hlink.count, h.count]
      simp; omega
    · obtain rfl : ix = ix' := by simpa [addTransNodeCnt, setIndex] using hix'
      exact hix

/-- What a call that inserts `node` leaves behind: the invariant, with `node` in the list if it
succeeded. -/
def InsertPost (l : List NodePtr) (node : NodePtr) (r : InsertResult Obj) : Prop :=
  ∃ l', RowInv r.state l' ∧ l'.Perm (if r.ret = .success then node :: l else l)

/-- The indexed branch. -/
lemma insertFromIndex_spec {fuel : ℕ} {start : NodePtr} {r : InsertResult Obj} (h : RowInv s l)
    (hnode : node ∉ l) (hstart : start ∈ l)
    (hr : insertFromIndex fuel ctx node start s = some r) : InsertPost l node r := by
  obtain ⟨k1, k2, hat⟩ := append_of_mem hstart
  simp only [insertFromIndex, map_eq_some_iff, Prod.exists] at hr
  obtain ⟨prev, next, hw, hr⟩ := hr
  obtain ⟨l₁, l₂, rfl, -, -, rfl, hnext⟩ := (walkNext_spec h.linked hat).spec hw
  split_ifs at hr with hprev
  · subst hr
    exact ⟨_, h, by simp⟩
  subst hr
  have hlink := linkAtIndex_linked node h.linked.head_iff
  have hlist : ListInv (linkAtIndex s node prev (lastOr none l₁)) (l₁ ++ node :: prev :: l₂) := by
    refine h.toListInv.link hnode hlink hnext ?_
    intro q hq
    obtain rfl : prev = q := by simpa using hq
    exact Int.not_lt.1 hprev
  refine ⟨l₁ ++ node :: prev :: l₂, h.link hlink hlist ?_, by simp [perm_middle]⟩
  cases hix : (linkAtIndex s node prev (lastOr none l₁)).row.index with
  | none => exact .inl rfl
  | some ix =>
    have hinv := h.index ix (by rw [← hix, hlink.index])
    refine .inr ⟨_, (hinv.mono (subset_insert l₁ _ node)).setIndexNode _ ?_, rfl⟩
    intro p hp
    simp only [Option.some.injEq] at hp
    simp [hp]

/-- `rememberNode` changes nothing but the index. -/
lemma rememberNode_cases (steps : ℕ) (h : ∀ ix, s.row.index = some ix → IndexInv ix l)
    (hnode : node ∈ l) : rememberNode ctx node steps s = s ∨
      ∃ ix, IndexInv ix l ∧ rememberNode ctx node steps s = s.setIndex ix := by
  have hv : ∀ p, some node = some p → p ∈ l := by
    intro p hp
    simp only [Option.some.injEq] at hp
    exact hp ▸ hnode
  unfold rememberNode
  cases hix : s.row.index with
  | some ix =>
    simp only
    split_ifs
    · exact .inr ⟨_, (h ix hix).setIndexNode _ hv, rfl⟩
    · exact .inl rfl
  | none =>
    split_ifs
    · exact .inr ⟨_, (indexInv_new l).setIndexNode _ hv, rfl⟩
    · exact .inl rfl
    · exact .inl rfl

/-- The plain branch. -/
lemma insertFromHead_spec {fuel : ℕ} {r : InsertResult Obj} (h : RowInv s l) (hnode : node ∉ l)
    (hr : insertFromHead fuel ctx node s = some r) : InsertPost l node r := by
  simp only [insertFromHead, map_eq_some_iff] at hr
  obtain ⟨w, hw, hr⟩ := hr
  split_ifs at hr with hret
  · subst hr
    obtain ⟨l₁, l₂, rfl, htmp, hnext, hslot, hnewer, holder, -⟩ :=
      (walkPrev_spec h.linked (nil_append l).symm h.linked.head_eq rfl rfl (by simp)).spec hw
    have hlink := linkAtSlot_linked s node hslot
    rw [htmp, hnext] at hlink
    have hlist := h.toListInv.link hnode hlink
      (fun q hq => Int.le_of_lt (hnewer q (mem_of_lastOr hq))) (holder hret)
    refine ⟨l₁ ++ node :: l₂, h.link hlink hlist (rememberNode_cases _ ?_ (by simp)),
      by simp [perm_middle]⟩
    intro ix hix
    rw [hlink.index] at hix
    exact (h.index ix hix).mono (subset_insert l₁ l₂ node)
  · subst hr
    exact ⟨l, h, by simp [hret]⟩

lemma RowInv.setIndex {ix : RowIndex} (h : RowInv s l) (hix : IndexInv ix l) :
    RowInv (s.setIndex ix) l := by
  refine ⟨h.toListInv.onRow rfl, h.count, fun ix' hix' => ?_⟩
  obtain rfl : ix = ix' := by simpa [RowState.setIndex] using hix'
  exact hix

/-- A write to a node outside the list does not touch the list. -/
lemma RowInv.write (h : RowInv s l) (hnode : node ∉ l) (n : TransNode Obj) :
    RowInv (s.write node n) l := by
  have hne : ∀ q ∈ l, q ≠ node := fun q hq e => hnode (e ▸ hq)
  have hproj : ∀ {β : Type} (f : TransNode Obj → β), ∀ q ∈ l,
      f ((s.write node n).heap q) = f (s.heap q) := by
    intro β f q hq
    rw [s.proj_write node q f, if_neg (hne q hq)]
  refine ⟨⟨?_, ?_, ?_⟩, h.count, h.index⟩
  · exact Segment.congr h.linked (hproj prev) (hproj next)
  · refine h.sorted.imp_of_mem ?_
    intro p q hp hq hpq
    have e1 := hproj transVersion p hp
    have e2 := hproj transVersion q hq
    simp only [versions] at hpq ⊢
    rwa [e1, e2]
  · intro p hp
    exact (hproj isAborted p hp).trans (h.alive p hp)

/-- Entries are only dropped. -/
lemma prepareIndex_spec (ctx : InsertCtx) (node : NodePtr) (h : RowInv s l) : RowInv
    (prepareIndex ctx node s) l := by
  unfold prepareIndex
  cases hix : s.row.index with
  | none => exact h
  | some ix =>
    have hinv := h.index ix hix
    simp only
    split_ifs
    · split
      · split_ifs
        · exact h.setIndex (hinv.setIndexNode _ (by simp))
        · exact h
      · exact h
    · exact h
    · exact h.setIndex hinv.reset

/-- The walk starts at a node of the list. -/
lemma indexNode_mem {start : NodePtr} (h : RowInv s l) (hs : indexNode ctx s = some start) :
    start ∈ l := by
  unfold indexNode at hs
  split_ifs at hs
  obtain ⟨ix, hix, hget⟩ := bind_eq_some_iff.1 hs
  exact (h.index ix hix).getIndexNode hget

/-- **Insertion keeps the invariant**, on both ways and whether it succeeds or not. -/
theorem insertTransNode_spec {fuel : ℕ} {nextNode : Option NodePtr} {r : InsertResult Obj}
    (h : RowInv s l) (hnode : node ∉ l)
    (hr : insertTransNode fuel ctx node nextNode s = some r) : InsertPost l node r := by
  unfold insertTransNode at hr
  simp only at hr
  split_ifs at hr
  · simp only [Option.some.injEq] at hr
    subst hr
    exact ⟨l, h, by simp⟩
  · have h' := prepareIndex_spec ctx node
      (h.write hnode { s.heap node with ctxDescriptor := ctx.ctxDescriptor })
    split at hr
    · next start hstart => exact insertFromIndex_spec h' hnode (indexNode_mem h' hstart) hr
    · exact insertFromHead_spec h' hnode hr

/-- **Insertion returns** once the fuel exceeds the length of the list. -/
theorem insertTransNode_isSome {fuel : ℕ} {nextNode : Option NodePtr} (h : RowInv s l)
    (hnode : node ∉ l) (hfuel : l.length < fuel) :
    (insertTransNode fuel ctx node nextNode s).isSome := by
  unfold insertTransNode
  simp only
  split_ifs
  · rfl
  · have h' := prepareIndex_spec ctx node
      (h.write hnode { s.heap node with ctxDescriptor := ctx.ctxDescriptor })
    split
    · next start hstart =>
        obtain ⟨l₁, l₂, hat⟩ := append_of_mem (indexNode_mem h' hstart)
        rw [hat, length_append] at hfuel
        simp only [insertFromIndex, isSome_map]
        exact (walkNext_spec h'.linked hat).isSome (Nat.lt_of_add_right_lt hfuel)
    · simp only [insertFromHead, isSome_map]
      exact (walkPrev_spec h'.linked (nil_append l).symm h'.linked.head_eq rfl rfl
        (by simp)).isSome hfuel

end Insert

/-! ## Unlinking -/

section Unlink

variable {s s' : RowState Obj} {l l₁ l₂ : List NodePtr} {node : NodePtr}

/-- `s'` differs from `s` by `node`, no longer linked between `next` and `tmp`. -/
structure NodeUnlinked (s : RowState Obj) (node : NodePtr) (next tmp : Option NodePtr)
    (s' : RowState Obj) : Prop where
  prev : s'.prevs node = tmp
  prevs : ∀ q, q ≠ node → s'.prevs q = if next = some q then tmp else s.prevs q
  nexts : ∀ q, q ≠ node → s'.nexts q = if tmp = some q then next else s.nexts q
  versions : ∀ q, s'.versions q = s.versions q
  aborted : ∀ q, q ≠ node → s'.aborted q = s.aborted q
  listHead : s'.row.listHead = if next = none then tmp else s.row.listHead
  index : s'.row.index = s.row.index
  count : s'.row.totalTransNodeCnt = s.row.totalTransNodeCnt

/-- The writes of `unlink_trans_node` take the node out. -/
lemma unlinkAtSlot_unlinked {next tmp : Option NodePtr} (hnext : s.nexts node = next)
    (htmp : s.prevs node = tmp) (hne : next ≠ some node) :
    NodeUnlinked s node next tmp (unlinkAtSlot s node (slotBelow next)) := by
  have hprev : ((s.store (slotBelow next) tmp).heap node).prev = tmp := by
    show (s.store (slotBelow next) tmp).prevs node = tmp
    cases next with
    | none => simpa [slotBelow, store] using htmp
    | some n =>
      have hn : node ≠ n := fun e => hne (by rw [e])
      simpa [slotBelow, store, hn] using htmp
  have hnext' : ((s.store (slotBelow next) tmp).heap node).next = next := by
    show (s.store (slotBelow next) tmp).nexts node = next
    cases next <;> simpa [slotBelow, store] using hnext
  have he : unlinkAtSlot s node (slotBelow next) =
      ((s.store (slotBelow next) tmp).setNext? tmp next).setAborted node := by
    have h : (s.heap node).prev = tmp := htmp
    simp only [unlinkAtSlot, h, hprev, hnext']
  rw [he]
  cases next <;> cases tmp <;> constructor <;>
    simp +contextual [slotBelow, setNext?, store, eq_comm, aborted_setAborted_ne]
  all_goals simp [htmp]

/-- A list without one node stays sorted. -/
lemma ListInv.unlink (h : ListInv s (l₁ ++ node :: l₂))
    (hun : NodeUnlinked s node (lastOr none l₁) l₂.head? s') : ListInv s' (l₁ ++ l₂) := by
  have hnd := h.linked.nodup
  have hnode : node ∉ l₁ ++ l₂ := (nodup_middle.1 hnd).notMem
  have hne : ∀ q ∈ l₁ ++ l₂, q ≠ node := fun q hq e => hnode (e ▸ hq)
  have hsub := List.Sublist.append_left (sublist_cons_self node l₂) l₁
  refine ⟨h.linked.remove ?_ ?_ ?_, ?_, ?_⟩
  · intro x hx; exact hun.prevs x (hne x hx)
  · intro x hx; exact hun.nexts x (hne x hx)
  · rw [hun.listHead]
    rcases lastOr_cases none l₁ with ⟨rfl, hn⟩ | ⟨k, u, rfl, hu⟩
    · simp [hn]
    · simp [hu]
  · simp only [hun.versions]
    exact h.sorted.sublist hsub
  · intro q hq
    rw [hun.aborted q (hne q hq)]
    exact h.alive q (hsub.subset hq)

/-- **Unlinking a node of the list succeeds** and takes out that node. -/
theorem unlinkTransNode_spec (undoValue : MvccRow) (h : RowInv s (l₁ ++ node :: l₂)) :
    (unlinkTransNode node undoValue s).1 = .success ∧
      RowInv (unlinkTransNode node undoValue s).2 (l₁ ++ l₂) := by
  obtain ⟨hprev, hnext⟩ := h.linked.links
  have hnd := h.linked.nodup
  have hnode : node ∉ l₁ ++ l₂ := (nodup_middle.1 hnd).notMem
  have hnext_ne : lastOr none l₁ ≠ some node := by
    rcases lastOr_cases none l₁ with ⟨rfl, hn⟩ | ⟨k, u, rfl, hu⟩
    · simp [hn]
    · rw [hu]
      intro e
      exact hnode (by simp at e; simp [e])
  -- the row fields that `undo` restores play no part in the list
  have hundo : ∀ t : RowState Obj, t = s ∨ t = s.onRow (MvccRow.undo undoValue) →
      NodeUnlinked s node (lastOr none l₁) l₂.head?
        (unlinkAtSlot t node (slotBelow (lastOr none l₁))) := by
    rintro t (rfl | rfl)
    · exact unlinkAtSlot_unlinked hnext hprev hnext_ne
    · obtain ⟨h1, h2, h3, h4, h5, h6, h7, h8⟩ :=
        unlinkAtSlot_unlinked (s := s.onRow (MvccRow.undo undoValue)) hnext hprev hnext_ne
      exact ⟨h1, h2, h3, h4, h5, h6, h7, h8⟩
  have hslot : unlinkSlot? node s = some (slotBelow (lastOr none l₁)) := by
    unfold unlinkSlot?
    have hn : (s.heap node).next = lastOr none l₁ := hnext
    rcases lastOr_cases none l₁ with ⟨rfl, hn'⟩ | ⟨k, u, rfl, hu⟩
    · have hhead : s.row.listHead = some node := by simpa using h.linked.head_eq
      simp [hhead, hn', slotBelow]
    · have hhead : s.row.listHead ≠ some node := by
        rw [h.linked.head_eq]
        intro e
        refine hnode (mem_append_left _ (mem_of_mem_head? (?_ : _ = some node)))
        simpa using e
      have hsome : s.row.listHead ≠ none := by
        rw [h.linked.head_eq]
        simp
      rw [if_neg hhead, hn, hu]
      simp [hsome, slotBelow]
  unfold unlinkTransNode
  simp only [hslot]
  refine ⟨trivial, ?_⟩
  generalize ht : (if s.row.listHead = some node then s.onRow (MvccRow.undo undoValue) else s) = t
  have hun := hundo t (by split_ifs at ht <;> simp [← ht])
  have hlist := h.toListInv.unlink hun
  have hcount : s.row.totalTransNodeCnt + -1 = ((l₁ ++ l₂).length : ℤ) := by
    rw [h.count]
    simp
    omega
  have hout : ∀ p ∈ l₁ ++ node :: l₂, p ≠ node → p ∈ l₁ ++ l₂ := by
    intro p hp hpn
    simpa [hpn] using hp
  cases hix : (unlinkAtSlot t node (slotBelow (lastOr none l₁))).row.index with
  | none =>
    refine ⟨hlist.onRow rfl, ?_, fun ix' hix' => ?_⟩
    · simpa [addTransNodeCnt, hun.count] using hcount
    · simp [addTransNodeCnt, hix] at hix'
  | some ix =>
    refine ⟨(hlist.onRow rfl).onRow rfl, ?_, fun ix' hix' => ?_⟩
    · simpa [addTransNodeCnt, setIndex, hun.count] using hcount
    · have hinv := h.index ix (by rw [← hix, hun.index])
      obtain rfl : unlinkIndex node
          ((unlinkAtSlot t node (slotBelow (lastOr none l₁))).heap node).prev ix = ix' := by
        simpa [addTransNodeCnt, setIndex] using hix'
      refine hinv.unlink hout fun p hp => ?_
      have hp' : l₂.head? = some p := hun.prev.symm.trans hp
      exact mem_append_right _ (mem_of_mem_head? hp')

end Unlink

/-! ## Runs -/

section Runs

variable {s : RowState Obj} {l live : List NodePtr} {p : NodePtr}

/-- `p` is reached from `list_head_` by following `prev_`. -/
inductive Reached (s : RowState Obj) : NodePtr → Prop where
  | head {p : NodePtr} : s.row.listHead = some p → Reached s p
  | prev {p q : NodePtr} : Reached s p → s.prevs p = some q → Reached s q

/-- The nodes reached are those of the list. -/
lemma reached_iff (h : s.Lists l) : Reached s p ↔ p ∈ l := by
  constructor
  · intro hp
    induction hp with
    | head hh =>
      rw [h.head_eq] at hh
      exact mem_of_mem_head? hh
    | prev _ hq ih => exact ((h.inverse.2 _ ih _).1 hq).1
  · -- along the list: the first node is the head, each further one is `prev_` of the one before
    have hreach : ∀ (k2 k1 : List NodePtr), l = k1 ++ k2 → (∀ q ∈ k1, Reached s q) →
        ∀ q ∈ k1 ++ k2, Reached s q := by
      intro k2
      induction k2 with
      | nil => intro k1 _ hk q hq; exact hk q (by simpa using hq)
      | cons a k2 ih =>
        intro k1 hl hk
        have ha : Reached s a := by
          rcases lastOr_cases none k1 with ⟨rfl, -⟩ | ⟨k, u, rfl, -⟩
          · exact .head (by rw [h.head_eq, hl]; rfl)
          · have h' : s.Lists (k ++ u :: (a :: k2)) := by
              rw [hl] at h
              simpa using h
            exact .prev (hk u (by simp)) h'.links.1
        have hk' : ∀ q ∈ k1 ++ [a], Reached s q := by
          intro q hq
          rcases mem_append.1 hq with hq | hq
          · exact hk q hq
          · obtain rfl : q = a := by simpa using hq
            exact ha
        simpa using ih (k1 ++ [a]) (by simp [hl]) hk'
    intro hp
    exact hreach l [] rfl (by simp) p (by simpa using hp)

/-- Runs of calls on a row that starts empty, with the nodes inserted and not unlinked since.
Between the calls any node outside the list may be filled, and then be inserted. Calls may fail. -/
inductive RowRun : RowState Obj → List NodePtr → Prop where
  | start (heap : NodePtr → TransNode Obj) : RowRun ⟨heap, MvccRow.reset⟩ []
  | fill {s : RowState Obj} {live : List NodePtr} {p : NodePtr} (n : TransNode Obj) :
      RowRun s live → ¬ Reached s p → RowRun (s.write p n) live
  | insert {s : RowState Obj} {live : List NodePtr} {p : NodePtr} {fuel : ℕ} {ctx : InsertCtx}
      {nextNode : Option NodePtr} {r : InsertResult Obj} :
      RowRun s live → ¬ Reached s p → insertTransNode fuel ctx p nextNode s = some r →
      RowRun r.state (if r.ret = .success then p :: live else live)
  | unlink {s : RowState Obj} {live : List NodePtr} {p : NodePtr} (undoValue : MvccRow) :
      RowRun s live → Reached s p →
      RowRun (unlinkTransNode p undoValue s).2
        (if (unlinkTransNode p undoValue s).1 = .success then live.erase p else live)

lemma rowInv_start (heap : NodePtr → TransNode Obj) :
    RowInv ⟨heap, MvccRow.reset⟩ ([] : List NodePtr) :=
  ⟨⟨rfl, List.Pairwise.nil, by simp⟩, rfl, by simp [MvccRow.reset]⟩

/-- Every run keeps the invariant. -/
lemma RowRun.rowInv (h : RowRun s live) : ∃ l, RowInv s l ∧ l.Perm live := by
  induction h with
  | start heap => exact ⟨[], rowInv_start heap, List.Perm.refl _⟩
  | fill n _ hp ih =>
    obtain ⟨l, hl, hperm⟩ := ih
    exact ⟨l, hl.write (fun hm => hp ((reached_iff hl.linked).2 hm)) n, hperm⟩
  | @insert s live p fuel ctx nextNode r _ hp hr ih =>
    obtain ⟨l, hl, hperm⟩ := ih
    obtain ⟨l', hl', hperm'⟩ :=
      insertTransNode_spec hl (fun hm => hp ((reached_iff hl.linked).2 hm)) hr
    refine ⟨l', hl', hperm'.trans ?_⟩
    split_ifs
    · exact hperm.cons p
    · exact hperm
  | @unlink s live p undoValue _ hp ih =>
    obtain ⟨l, hl, hperm⟩ := ih
    obtain ⟨l₁, l₂, rfl⟩ := append_of_mem ((reached_iff hl.linked).1 hp)
    obtain ⟨hret, hinv⟩ := unlinkTransNode_spec undoValue hl
    refine ⟨l₁ ++ l₂, hinv, ?_⟩
    rw [if_pos hret]
    have hcons : (p :: (l₁ ++ l₂)).Perm live := perm_middle.symm.trans hperm
    simpa using hcons.erase p

/-- **The version list is well formed after every call.**  In every run the nodes reached from
`list_head_` form a list `l` that is sorted by version, newest first; `next_` inverts `prev_` on
it and is null at the head; the count is its length; its nodes are exactly those inserted and not
unlinked since; and the replay index points into it. -/
theorem rowRun_list_wellFormed (h : RowRun s live) :
    ∃ l : List NodePtr, (∀ p, p ∈ l ↔ Reached s p) ∧ IsList s.prevs s.nexts s.row.listHead l ∧
      l.Pairwise (fun p q => s.versions q ≤ s.versions p) ∧
      (∀ q, s.row.listHead = some q → s.nexts q = none) ∧
      (∀ p ∈ l, ∀ q, s.prevs p = some q ↔ q ∈ l ∧ s.nexts q = some p) ∧
      s.row.totalTransNodeCnt = l.length ∧ l.Perm live ∧
      ∀ ix, s.row.index = some ix → ∀ i p, ix.replayLocations i = some p → p ∈ l := by
  obtain ⟨l, hl, hperm⟩ := h.rowInv
  exact ⟨l, fun p => (reached_iff hl.linked).symm, hl.linked, hl.sorted, hl.linked.inverse.1,
    hl.linked.inverse.2, hl.count, hperm, fun ix hix => (hl.index ix hix).mem⟩

lemma RowRun.reached_iff (h : RowRun s live) : Reached s p ↔ p ∈ live := by
  obtain ⟨l, hl, hperm⟩ := h.rowInv
  rw [OceanBase.Memtable.reached_iff hl.linked, hperm.mem_iff]

/-- Two versions are inserted by replay queue `0`, and the first is unlinked again. -/
theorem rowRun_list_wellFormed_unlink_older :
    ∃ s : RowState ℕ, RowRun s [1] ∧ s.row.totalTransNodeCnt = 1 ∧
      ∃ l : List NodePtr, (∀ p, p ∈ l ↔ Reached s p) ∧ l.Perm [1] := by
  let heap : NodePtr → TransNode ℕ := fun p =>
    { transVersion := p + 1, logTimestamp := 0, prev := none, next := none, modifyCount := 0,
      accChecksum := 0, version := 0, snapshotVersionBarrier := 0, ctxDescriptor := 0,
      type := .normal, flag := 0, mtd := ⟨.insert, []⟩ }
  let ctx : InsertCtx := ⟨0, true, 0, true⟩
  have h₀ : RowRun ⟨heap, MvccRow.reset⟩ [] := .start heap
  have h₁ := @RowRun.insert ℕ _ _ 0 1 ctx none _ h₀ (by simp [h₀.reached_iff]) rfl
  have h₂ := @RowRun.insert ℕ _ _ 1 2 ctx none _ h₁ (by rw [h₁.reached_iff]; decide) rfl
  have h₃ := @RowRun.unlink ℕ _ _ 0 MvccRow.reset h₂ (by rw [h₂.reached_iff]; decide)
  obtain ⟨l, hl, -, -, -, -, -, hperm, -⟩ := rowRun_list_wellFormed h₃
  exact ⟨_, h₃, rfl, l, hl, hperm⟩

/-- **Insertion returns in every run**: its walks pass the nodes of the list and no more. -/
theorem rowRun_insert_returns {fuel : ℕ} (ctx : InsertCtx) (nextNode : Option NodePtr)
    (h : RowRun s live)
    (hp : ¬ Reached s p) (hfuel : live.length < fuel) :
    (insertTransNode fuel ctx p nextNode s).isSome := by
  obtain ⟨l, hl, hperm⟩ := h.rowInv
  refine insertTransNode_isSome hl (fun hmem => hp ?_) (by rwa [hperm.length_eq])
  exact (OceanBase.Memtable.reached_iff hl.linked).2 hmem

end Runs

/-- A thread of replay queue `0`. -/
def replayCtx : InsertCtx := ⟨0, true, 0, true⟩

/-- A node that is filled and not inserted. -/
def filledNode (transVersion : ℤ) : TransNode ℕ :=
  ⟨transVersion, 0, none, none, 0, 0, 0, 0, 0, .normal, 0, ⟨.insert, []⟩⟩

/-- The nodes once those below `n` were inserted in turn, each newer than the ones before; from
`1000` on they are older. -/
def stackedNode (n p : ℕ) : TransNode ℕ :=
  if p < n then
    { filledNode (p + 10) with
      prev := if p = 0 then none else some (p - 1)
      next := if p + 1 < n then some (p + 1) else none }
  else filledNode (if p < 1000 then p + 10 else p - 1000)

/-- The row with these nodes. -/
def stackedRow (n : ℕ) : RowState ℕ :=
  ⟨stackedNode n, { MvccRow.reset with
    listHead := if n = 0 then none else some (n - 1)
    totalTransNodeCnt := n }⟩

/-- One more insertion changes the node inserted and the head before it. -/
lemma stackedNode_succ (n : ℕ) :
    Function.update (Function.update (stackedNode n) n (stackedNode (n + 1) n)) (n - 1)
      (stackedNode (n + 1) (n - 1)) = stackedNode (n + 1) := by
  funext p
  by_cases hhead : p = n - 1
  · simp [hhead]
  · by_cases hnew : p = n
    · subst hnew
      simp [hhead]
    · have hbelow : p < n + 1 ↔ p < n := by omega
      have hnext : p + 1 < n + 1 ↔ p + 1 < n := by omega
      simp only [Function.update_of_ne hhead, Function.update_of_ne hnew, stackedNode, hbelow,
        hnext]

lemma insert_stackedRow {n : ℕ} (hn : n < 1000) :
    insertTransNode 1 replayCtx n none (stackedRow n) =
      some ⟨.success, none, stackedRow (n + 1)⟩ := by
  have hclear : (0 : BitVec 8) &&& ~~~TransNode.F_ABORTED = 0 := rfl
  have hheap := stackedNode_succ n
  have hle : ∀ m : ℤ, m ≤ m + 1 := fun m => by omega
  have hlt : ∀ m : ℕ, m < m + 1 + 1 := fun m => by omega
  obtain _ | m := n <;>
    simpa [insertTransNode, prepareIndex, indexNode, insertFromHead, walkPrev, stackedRow,
      stackedNode, filledNode, replayCtx, MvccRow.reset, linkAtSlot, rememberNode, addTransNodeCnt,
      RowState.setPrev, RowState.setNext, RowState.setNext?, RowState.store, RowState.write,
      RowState.onRow, RowState.clearAborted, TransNode.clearAborted, hclear, hn, hle,
      hlt] using hheap

lemma rowRun_stackedRow {n : ℕ} (hn : n ≤ 1000) : RowRun (stackedRow n) (range n).reverse := by
  induction n with
  | zero => exact .start (stackedNode 0)
  | succ n ih =>
    have hrun := ih (Nat.le_of_succ_le hn)
    have hnew : ¬ Reached (stackedRow n) n := by simp [hrun.reached_iff]
    rw [range_succ, reverse_append]
    exact hrun.insert hnew (insert_stackedRow hn)

/-- Of `501` nodes inserted in turn and an older one after them, which the index remembers, one is
unlinked; the next insertion starts from the index. -/
theorem rowRun_insert_returns_indexed :
    ∃ (s : RowState ℕ) (live : List NodePtr), RowRun s live ∧ live.length = 501 ∧
      indexNode replayCtx s = some 1005 ∧ (insertTransNode 502 replayCtx 1013 none s).isSome := by
  have hresult : ((insertTransNode 502 replayCtx 1005 none (stackedRow 501)).map fun r =>
      (r.ret, (unlinkTransNode 1 MvccRow.reset r.state).1,
        indexNode replayCtx (unlinkTransNode 1 MvccRow.reset r.state).2)) =
      some (.success, .success, some 1005) := by
    decide +kernel
  obtain ⟨r, hr, hfacts⟩ := Option.map_eq_some_iff.1 hresult
  obtain ⟨hret, hunlink, hindex⟩ : r.ret = .success ∧ _ ∧ _ := by simpa using hfacts
  have h₁ := rowRun_stackedRow (show 501 ≤ 1000 by decide)
  have h₂ := h₁.insert (by rw [h₁.reached_iff]; decide +kernel) hr
  rw [if_pos hret] at h₂
  have h₃ := h₂.unlink MvccRow.reset (p := 1) (by rw [h₂.reached_iff]; decide +kernel)
  rw [if_pos hunlink] at h₃
  have hnew : ¬ Reached (unlinkTransNode 1 MvccRow.reset r.state).2 1013 := by
    rw [h₃.reached_iff]
    decide +kernel
  have hlength : ((1005 :: (range 501).reverse).erase 1).length = 501 := by decide +kernel
  refine ⟨_, _, h₃, hlength, hindex, rowRun_insert_returns replayCtx none h₃ hnew ?_⟩
  rw [hlength]
  decide

end OceanBase.Memtable
