import DailyReadCoding.OceanBase.Memtable.CompactionReads

/-!
# Row compaction and its readers

The effect of `ObMemtableRowCompactor::compact` on the version list of a row, and on what readers
of the row see.
-/

namespace OceanBase.Memtable

open LinkedHeap List TransNode

variable {Obj : Type}

/-! ## The nodes apart from their links -/

/-- The node without its links: all that a reader looks at once it has reached the node. -/
def TransNode.unlinked (n : TransNode Obj) : TransNode Obj := { n with prev := none, next := none }

namespace RowState

variable (s : RowState Obj) (p q : NodePtr) (v : Option NodePtr)

def data : TransNode Obj := (s.heap p).unlinked

/-- The version list as a reader meets it. -/
def chain (l : List NodePtr) : List (TransNode Obj) := l.map s.data

@[simp] lemma data_setPrev : (s.setPrev p v).data q = s.data q := s.proj_write_same p q unlinked rfl

@[simp] lemma data_setNext : (s.setNext p v).data q = s.data q := s.proj_write_same p q unlinked rfl

@[simp] lemma data_onRow (f : MvccRow → MvccRow) : (s.onRow f).data q = s.data q := rfl

lemma data_write (n : TransNode Obj) :
    (s.write p n).data q = if q = p then n.unlinked else s.data q :=
  s.proj_write p q unlinked n

lemma chain_append (l₁ l₂ : List NodePtr) : s.chain (l₁ ++ l₂) = s.chain l₁ ++ s.chain l₂ :=
  map_append

end RowState

open RowState

lemma scanChain_unlinked (nodes : List (TransNode Obj)) (a : CompactScan Obj) :
    scanChain (nodes.map TransNode.unlinked) a = scanChain nodes a := by
  induction nodes generalizing a with
  | nil => rfl
  | cons n nodes ih =>
    simp only [map_cons, scanChain, ih]
    rfl

/-! ## Where the compaction starts -/

section Start

variable {s : RowState Obj} {l l₁ l₂ : List NodePtr} {snapshotVersion : ℤ} {fuel : ℕ}
  {pos : StartPos}

/-- What `find_start_pos_` finds: the list split at `save`, with the node above it. -/
def StartsBelow (s : RowState Obj) (snapshotVersion : ℤ) (l : List NodePtr) (pos : StartPos) :
    Prop :=
  ∃ above below, l = above ++ below ∧ pos.save = below.head? ∧
    (∀ q, below.head? = some q → s.versions q ≤ snapshotVersion) ∧
    (below ≠ [] → ∃ upper n, above = upper ++ [n] ∧ pos.start = .prevOf n ∧ pos.nextNode = some n)

lemma findFromHead_spec (hl : s.Lists l)
    (hsorted : l.Pairwise fun p q => s.versions q ≤ s.versions p) {start : Slot}
    {save : Option NodePtr} (hat : l = l₁ ++ l₂) (hsave : save = l₂.head?) :
    Walks l₂.length fuel (StartsBelow s snapshotVersion l)
      (findFromHead s.heap snapshotVersion fuel start save) := by
  induction fuel generalizing l₁ l₂ start save with
  | zero => exact Nat.zero_le _
  | succ fuel ih =>
    cases l₂ with
    | nil =>
      obtain rfl : save = none := hsave
      exact ⟨l₁, [], hat, rfl, by simp, by simp⟩
    | cons p l₂ =>
      obtain rfl : save = some p := hsave
      have hlinks := IsList.links (hat ▸ hl)
      have hat' : l = (l₁ ++ [p]) ++ l₂ := by simpa using hat
      rw [findFromHead]
      split_ifs with hskip
      · exact (ih hat' hlinks.1).mono Nat.succ_le_succ fun _ => id
      · refine ⟨l₁ ++ [p], l₂, hat', hlinks.1, fun q hq => ?_, fun _ => ⟨l₁, p, rfl, rfl, rfl⟩⟩
        simp only [skippedFromHead, Bool.or_eq_true, decide_eq_true_eq, not_or] at hskip
        have hp : s.versions p ≤ snapshotVersion := not_lt.1 hskip.1.2
        exact le_of_head (hat ▸ hsorted) (by simpa using hp) q
          (mem_cons_of_mem p (mem_of_mem_head? hq))

lemma findFromCompact_spec (hl : s.Lists l) {p : NodePtr} (hat : l = l₁ ++ p :: l₂)
    (hbelow : ∀ q, l₂.head? = some q → s.versions q ≤ snapshotVersion) :
    Walks l₁.length fuel (StartsBelow s snapshotVersion l)
      (findFromCompact s.heap snapshotVersion fuel p) := by
  induction fuel generalizing l₁ l₂ p with
  | zero => exact Nat.zero_le _
  | succ fuel ih =>
    have hlinks := IsList.links (hat ▸ hl)
    have hstop : StartsBelow s snapshotVersion l ⟨.prevOf p, (s.heap p).prev, some p⟩ :=
      ⟨l₁ ++ [p], l₂, by simpa using hat, hlinks.1, hbelow, fun _ => ⟨l₁, p, rfl, rfl, rfl⟩⟩
    have hnext : (s.heap p).next = lastOr none l₁ := hlinks.2
    rw [findFromCompact, hnext]
    rcases lastOr_cases none l₁ with ⟨-, hn⟩ | ⟨k, u, rfl, hu⟩
    · rw [hn]
      exact hstop
    · rw [hu]
      split_ifs with hpass
      · simp only [passedFromCompact, Bool.and_eq_true, decide_eq_true_eq] at hpass
        have hp : s.versions p ≤ snapshotVersion := hpass.1
        exact (ih (by simpa using hat) (by simpa using hp)).mono (fun hle => by simpa using hle)
          fun _ => id
      · exact hstop

lemma findStartPos_spec (hl : s.Lists l)
    (hsorted : l.Pairwise fun p q => s.versions q ≤ s.versions p)
    (hlatest : ∀ c, s.row.latestCompactNode = some c → c ∈ l ∧ s.versions c < snapshotVersion) :
    Walks l.length fuel (StartsBelow s snapshotVersion l)
    (findStartPos fuel snapshotVersion s) := by
  unfold findStartPos
  cases hc : s.row.latestCompactNode with
  | none => exact findFromHead_spec hl hsorted (nil_append l).symm hl.head_eq
  | some c =>
    obtain ⟨hmem, hlt⟩ := hlatest c hc
    obtain ⟨l₁, l₂, hat⟩ := append_of_mem hmem
    refine (findFromCompact_spec hl hat fun q hq => ?_).mono (fun hle => ?_) fun _ => id
    · exact le_of_head (hat ▸ hsorted) (by simpa using le_of_lt hlt) q
        (mem_cons_of_mem c (mem_of_mem_head? hq))
    · rw [hat, length_append]
      omega

end Start

/-! ## The compact node and its place -/

section Insert

variable {s : RowState Obj} {upper below rest : List NodePtr} {n save k : NodePtr}

lemma flag_setOverflow (overflow : Bool) (f : BitVec 8) {m : BitVec 8}
    (hset : TransNode.F_OVERFLOW &&& m = 0) (hclear : ~~~TransNode.F_OVERFLOW &&& m = m) :
    (if overflow then f ||| TransNode.F_OVERFLOW else f &&& ~~~TransNode.F_OVERFLOW) &&& m =
      f &&& m := by
  cases overflow with
  | true =>
    simp only [if_true]
    rw [BitVec.and_comm, BitVec.and_or_distrib_left, BitVec.and_comm m f,
      BitVec.and_comm m F_OVERFLOW, hset]
    simp
  | false =>
    simp only [Bool.false_eq_true, if_false]
    rw [BitVec.and_assoc, hclear]

/-- The compact node stands for the node it was built from. -/
lemma compactNode_standsFor (raw : TransNode Obj) {saved : TransNode Obj} (snapshotVersion : ℤ)
    (a : CompactScan Obj) (hcommitted : saved.isCommitted = true)
    (halive : saved.isAborted = false) :
    StandsFor (compactNode raw saved snapshotVersion a).unlinked saved.unlinked := by
  refine ⟨rfl, ⟨hcommitted, ?_⟩, ⟨halive, ?_⟩, rfl, ?_⟩
  · have h := flag_setOverflow a.overflow saved.flag (m := F_COMMITTED) (by decide) (by decide)
    simp only [isCommitted] at hcommitted ⊢
    rw [← h] at hcommitted
    exact hcommitted
  · have h := flag_setOverflow a.overflow saved.flag (m := F_ABORTED) (by decide) (by decide)
    simp only [isAborted] at halive ⊢
    rw [← h] at halive
    exact halive
  · show ((compactData a).dmlType == RowDml.lock) = false
    unfold compactData
    split_ifs <;> rfl

/-- `insert_compact_node_` puts the new node between `save` and the node above it. -/
lemma insertCompactNode_spec {node : TransNode Obj} (hl : s.Lists ((upper ++ [n]) ++ save :: rest))
    (hk : k ∉ (upper ++ [n]) ++ save :: rest) :
    let r := insertCompactNode k ⟨.prevOf n, some save, some n⟩ (s.write k node)
    r.1 = .success ∧ r.2.Lists ((upper ++ [n]) ++ k :: save :: rest) ∧
      r.2.data k = node.unlinked ∧ ∀ q, q ≠ k → r.2.data q = s.data q := by
  have hkn : n ≠ k := fun e => hk (by simp [e])
  have hprev : s.prevs n = some save := by
    have hl' : s.Lists (upper ++ n :: (save :: rest)) := by simpa using hl
    exact hl'.links.1
  have hload : (((s.write k node).setPrev k (some save)).setNext save (some k)).load (.prevOf n) =
      some save := by
    show (((s.write k node).setPrev k (some save)).setNext save (some k)).prevs n = some save
    simp [hkn, hprev, prevs_write]
  simp only [insertCompactNode, setNext?, hload, ne_eq, not_true_eq_false, if_false, store]
  refine ⟨trivial, ?_, ?_, ?_⟩
  · refine hl.insert ?_ ?_ ?_ ?_ ?_
    · simp [hkn.symm]
    · simp [lastOr]
    · intro x hx
      have hxk : x ≠ k := fun e => hk (e ▸ hx)
      rcases eq_or_ne x n with rfl | hxn
      · simp [lastOr]
      · simp [lastOr, hxk, hxn, hxn.symm, prevs_write]
    · intro x hx
      have hxk : x ≠ k := fun e => hk (e ▸ hx)
      rcases eq_or_ne x save with rfl | hxs
      · simp [hxk]
      · simp [hxk, hxs, hxs.symm, nexts_write]
    · simp
  · simp [data_write]
  · intro q hq
    simp [data_write, hq]

end Insert

/-! ## Readers before and after -/

section Readers

variable {s s' : RowState Obj} {l above below : List NodePtr} {fuel : ℕ} {snapshotVersion b : ℤ}
  {alloc : Option NodePtr} {pos : StartPos} {ret : Ret}

/-- When the call writes a compact node: the snapshot is usable and newer than the last one, there
is memory, and there is something to summarise before an older compact node is met. -/
def WritesCompactNode (snapshotVersion : ℤ) (alloc : Option NodePtr) (s : RowState Obj)
    (below : List NodePtr) : Prop :=
  0 < snapshotVersion ∧ snapshotVersion ≠ INT64_MAX ∧
    (∀ c, s.row.latestCompactNode = some c → s.versions c < snapshotVersion) ∧ alloc ≠ none ∧
    (0 < totalWeight (mergedNodes 0 (s.chain below)) ∨ endsAtDelete 0 (s.chain below) = true)

lemma scanNodes_chain (below : List NodePtr) {up : Option NodePtr} {a : CompactScan Obj}
    (hl : Segment s.prevs s.nexts up below.head? below none)
    (h : scanNodes s.heap fuel below.head? initScan = some a) :
    a = scanChain (s.chain below) initScan := by
  rw [(scanNodes_spec hl).spec h, ← scanChain_unlinked, map_map]
  rfl

/-- `construct_compact_node_` needs something to summarise and memory for it. -/
lemma constructCompactNode_spec {save : NodePtr} {rest : List NodePtr}
    {node? : Option (NodePtr × TransNode Obj)} {up : Option NodePtr}
    (hl : Segment s.prevs s.nexts up (some save) (save :: rest) none)
    (hwf : ∀ n ∈ s.chain (save :: rest), NodeWF n)
    (hv : s.versions save ≤ snapshotVersion) (hsnap : snapshotVersion < INT64_MAX)
    (h : constructCompactNode fuel snapshotVersion (some save) alloc s = some node?) :
    (node? = none ∧ ¬ (alloc ≠ none ∧ (0 < totalWeight (mergedNodes 0 (s.chain (save :: rest))) ∨
      endsAtDelete 0 (s.chain (save :: rest)) = true))) ∨
    (∃ k, alloc = some k ∧ (0 < totalWeight (mergedNodes 0 (s.chain (save :: rest))) ∨
        endsAtDelete 0 (s.chain (save :: rest)) = true) ∧
      node? = some (k, compactNode (s.heap k) (s.heap save) snapshotVersion
        (scanChain (s.chain (save :: rest)) initScan))) := by
  have hv' : ¬ snapshotVersion < (s.heap save).transVersion := not_lt.2 hv
  have hmax : (s.heap save).transVersion ≠ INT64_MAX := by omega
  simp only [constructCompactNode, if_neg hv', Option.map_eq_some_iff] at h
  obtain ⟨a, ha, h⟩ := h
  obtain rfl := scanNodes_chain (save :: rest) hl ha
  obtain ⟨hcnt, hdel, -, -⟩ := scanChain_spec 0 (s.chain (save :: rest)) initScan hwf
    CompactMap.wellFormed_empty
  have hcnt' : (scanChain (s.chain (save :: rest)) initScan).compactCellCnt =
      totalWeight (mergedNodes 0 (s.chain (save :: rest))) := by
    rw [hcnt]; simp [initScan]
  have hdel' : (scanChain (s.chain (save :: rest)) initScan).isRowDelete =
      endsAtDelete 0 (s.chain (save :: rest)) := by
    rw [hdel]; simp [initScan]
  rw [hcnt', hdel'] at h
  cases alloc with
  | none =>
    left
    refine ⟨?_, by simp⟩
    split_ifs at h <;> exact h.symm
  | some k =>
    split_ifs at h with hw
    · right; exact ⟨k, rfl, hw.symm, h.symm⟩
    · left; exact ⟨h.symm, fun hc => hw hc.2.symm⟩

/-- **Compaction returns** once the fuel exceeds the length of the list. -/
theorem compact_isSome (hl : s.Lists l)
    (hsorted : l.Pairwise fun p q => s.versions q ≤ s.versions p)
    (hlatest : ∀ c, s.row.latestCompactNode = some c → c ∈ l) (hfuel : l.length < fuel) :
    (compact fuel snapshotVersion alloc s).isSome := by
  simp only [compact]
  split_ifs with hbad hdone
  · rfl
  · rfl
  have hnewer : ∀ c, s.row.latestCompactNode = some c → s.versions c < snapshotVersion := by
    intro c hlat
    simp only [hlat, decide_eq_true_eq] at hdone
    exact not_le.1 hdone
  obtain ⟨pos, hpos, above, below, rfl, hsave, -, -⟩ :=
    (findStartPos_spec hl hsorted fun c hlat => ⟨hlatest c hlat, hnewer c hlat⟩).returns hfuel
  obtain ⟨m, -, hseg⟩ := segment_append.1 hl
  have hconstruct : (constructCompactNode fuel snapshotVersion pos.save alloc s).isSome := by
    rw [hsave]
    cases below with
    | nil => rfl
    | cons save rest =>
      obtain rfl : m = some save := hseg.1
      simp only [head?_cons, constructCompactNode]
      by_cases hv : snapshotVersion < (s.heap save).transVersion
      · rw [if_pos hv]; rfl
      · rw [if_neg hv, Option.isSome_map]
        simp at hfuel
        exact (scanNodes_spec hseg).isSome (by simp; omega)
  obtain ⟨node?, hnode⟩ := Option.isSome_iff_exists.1 hconstruct
  simp only [hpos, hnode, Option.bind_eq_bind, Option.bind_some]
  cases node? <;> rfl

/-- Two ways to split a list at the same node are the same. -/
lemma split_unique (hl : s.Lists l) {above' below' : List NodePtr}
    (h : l = above ++ below) (h' : l = above' ++ below') (hhead : below.head? = below'.head?) :
    above = above' ∧ below = below' := by
  have hb : below = below' := by
    obtain ⟨m, -, hm⟩ := segment_append.1 (h ▸ hl)
    obtain ⟨m', -, hm'⟩ := segment_append.1 (h' ▸ hl)
    have hmm : m = m' := by rw [hm.start, hm'.start, hhead]
    subst hmm
    exact hm.unique hm'
  subst hb
  exact ⟨append_cancel_right (h.symm.trans h'), rfl⟩

lemma readsAgree_self (rc : ReadCtx) (chain : List (TransNode Obj)) : ReadsAgree rc chain chain :=
  ⟨rfl, fun _ _ _ => rfl⟩

/-- What a call of `compact` can do: nothing, or put a compact node in front of `below`. -/
lemma compact_cases (hl : s.Lists l) (hsorted : l.Pairwise fun p q => s.versions q ≤ s.versions p)
    (hwf : ∀ p ∈ l, NodeWF (s.heap p)) (hlatest : ∀ c, s.row.latestCompactNode = some c → c ∈ l)
    (hsnap : snapshotVersion ≤ INT64_MAX) (hpos : findStartPos fuel snapshotVersion s = some pos)
    (hsplit : l = above ++ below) (hsave : below.head? = pos.save)
    (hc : compact fuel snapshotVersion alloc s = some (ret, s')) :
    (s' = s ∧ ¬ WritesCompactNode snapshotVersion alloc s below) ∨
    (WritesCompactNode snapshotVersion alloc s below ∧
      ∃ k save rest upper n, alloc = some k ∧ below = save :: rest ∧ above = upper ++ [n] ∧
        (ret, s') = insertCompactNode k ⟨.prevOf n, some save, some n⟩
          (s.write k (compactNode (s.heap k) (s.heap save) snapshotVersion
            (scanChain (s.chain below) initScan)))) := by
  simp only [compact] at hc
  split_ifs at hc with hbad hdone
  · left
    simp only [Option.some.injEq, Prod.mk.injEq] at hc
    refine ⟨hc.2.symm, fun hw => ?_⟩
    rcases hbad with h | h
    · exact absurd hw.1 (by omega)
    · exact hw.2.1 h
  · left
    simp only [Option.some.injEq, Prod.mk.injEq] at hc
    refine ⟨hc.2.symm, fun hw => ?_⟩
    cases hlat : s.row.latestCompactNode with
    | none => simp [hlat] at hdone
    | some c =>
      have hlt := hw.2.2.1 c hlat
      simp only [hlat, decide_eq_true_eq] at hdone
      exact absurd hlt (not_lt.2 hdone)
  simp only [not_or] at hbad
  have hpos' : 0 < snapshotVersion := by omega
  have hlt : snapshotVersion < INT64_MAX := by omega
  have hnewer : ∀ c, s.row.latestCompactNode = some c → s.versions c < snapshotVersion := by
    intro c hlat
    simp only [hlat, decide_eq_true_eq] at hdone
    exact not_le.1 hdone
  simp only [hpos, Option.bind_eq_bind, Option.bind_some, Option.bind_eq_some_iff] at hc
  obtain ⟨node?, hnode, hc⟩ := hc
  obtain ⟨above', below', hsplit', hsave', hversion, habove⟩ :=
    (findStartPos_spec hl hsorted fun c hlat => ⟨hlatest c hlat, hnewer c hlat⟩).spec hpos
  obtain ⟨rfl, rfl⟩ := split_unique hl hsplit hsplit' (hsave.trans hsave')
  cases below with
  | nil =>
    left
    rw [← hsave] at hnode
    simp only [head?_nil, constructCompactNode, Option.some.injEq] at hnode
    subst hnode
    simp only [Option.some.injEq, Prod.mk.injEq] at hc
    refine ⟨hc.2.symm, fun hw => ?_⟩
    have := hw.2.2.2.2
    simp [chain, mergedNodes, totalWeight, endsAtDelete] at this
  | cons save rest =>
    obtain ⟨upper, n, rfl, hstart, hnext⟩ := habove (by simp)
    have hpos_eq : pos = ⟨.prevOf n, some save, some n⟩ := by
      obtain ⟨st, sv, nx⟩ := pos
      simp only at hstart hnext hsave
      rw [hstart, hnext, ← hsave]
      rfl
    obtain ⟨m, -, hseg⟩ := segment_append.1 (hsplit ▸ hl)
    have hm : m = some save := hseg.1
    have hwf' : ∀ x ∈ s.chain (save :: rest), NodeWF x := by
      intro x hx
      obtain ⟨p, hp, rfl⟩ := mem_map.1 hx
      have h := hwf p (by rw [hsplit]; exact mem_append_right _ hp)
      exact ⟨h.delete, h.noMark, h.compact⟩
    rw [← hsave] at hnode
    rcases constructCompactNode_spec (hm ▸ hseg) hwf' (hversion save rfl) hlt hnode with
      ⟨rfl, hnot⟩ | ⟨k, hk, hw, rfl⟩
    · left
      simp only [Option.some.injEq, Prod.mk.injEq] at hc
      exact ⟨hc.2.symm, fun h => hnot h.2.2.2⟩
    · right
      simp only [Option.some.injEq] at hc
      refine ⟨⟨hpos', hbad.2, hnewer, by simp [hk], hw⟩, k, save, rest, upper, n, hk, rfl, rfl, ?_⟩
      rw [← hc, hpos_eq]

/-- **When a compaction goes unnoticed.**  On a sorted, doubly linked version list whose nodes below
the compaction start are committed, a compaction leaves a doubly linked list, and all readers see
the same in it as before exactly if no compact node was written or `CompactionKeeps` held. -/
theorem compact_readsAgree_iff (hl : IsList s.prevs s.nexts s.row.listHead l)
    (hsorted : l.Pairwise fun p q => s.versions q ≤ s.versions p)
    (hwf : ∀ p ∈ l, NodeWF (s.heap p)) (hbase : ∀ p ∈ l, b < s.versions p)
    (hlatest : ∀ c, s.row.latestCompactNode = some c → c ∈ l)
    (halloc : ∀ k, alloc = some k → k ∉ l) (hsnap : snapshotVersion ≤ INT64_MAX)
    (hpos : findStartPos fuel snapshotVersion s = some pos)
    (hsplit : l = above ++ below) (hsave : below.head? = pos.save)
    (hbelow : ∀ p ∈ below, (s.heap p).isCommitted = true ∧ (s.heap p).isAborted = false)
    (hc : compact fuel snapshotVersion alloc s = some (ret, s')) :
    ∃ l', IsList s'.prevs s'.nexts s'.row.listHead l' ∧
      ((∀ rc : ReadCtx, rc.baseVersion = b → ReadsAgree rc (s.chain l) (s'.chain l')) ↔
        (WritesCompactNode snapshotVersion alloc s below →
          CompactionKeeps b (s.chain above) (s.chain below))) := by
  rcases compact_cases hl hsorted hwf hlatest hsnap hpos hsplit hsave hc with
    ⟨rfl, hnot⟩ | ⟨hw, k, save, rest, upper, n, hk, rfl, rfl, hins⟩
  · exact ⟨l, hl, ⟨fun _ h => absurd h hnot, fun _ rc _ => readsAgree_self rc _⟩⟩
  subst hsplit
  have hkl := halloc k hk
  obtain ⟨-, hlist, hdatak, hdata⟩ := insertCompactNode_spec hl hkl
  rw [← hins] at hlist hdatak hdata
  refine ⟨_, hlist, ?_⟩
  have hsame : ∀ p ∈ (upper ++ [n]) ++ save :: rest, s'.data p = s.data p :=
    fun p hp => hdata p fun e => hkl (e ▸ hp)
  have hchain : s'.chain ((upper ++ [n]) ++ k :: save :: rest) =
      s.chain (upper ++ [n]) ++ s'.data k :: s.chain (save :: rest) := by
    have h₁ : s'.chain (upper ++ [n]) = s.chain (upper ++ [n]) :=
      map_congr_left fun p hp => hsame p (mem_append_left _ hp)
    have h₂ : s'.chain (save :: rest) = s.chain (save :: rest) :=
      map_congr_left fun p hp => hsame p (mem_append_right _ hp)
    rw [chain_append, h₁, ← h₂]
    rfl
  have hcommitted := hbelow save (by simp)
  have hstands : StandsFor (s'.data k) (s.data save) := by
    rw [hdatak]
    exact compactNode_standsFor _ snapshotVersion _ hcommitted.1 hcommitted.2
  rw [hchain, chain_append]
  refine (readsAgree_compact_iff hstands b ?_ ?_ ?_ ?_ hw.2.2.2.2 ?_).trans
    ⟨fun h _ => h, fun h => h hw⟩
  · intro x hx
    have hx' : x ∈ s.chain ((upper ++ [n]) ++ save :: rest) := by
      rw [chain_append]
      exact hx
    obtain ⟨p, hp, rfl⟩ := mem_map.1 hx'
    exact hbase p hp
  · intro x hx
    obtain ⟨p, hp, rfl⟩ := mem_map.1 hx
    exact (pairwise_append.1 hsorted).2.2 p hp save (by simp)
  · intro x hx
    rw [← map_cons] at hx
    obtain ⟨p, hp, rfl⟩ := mem_map.1 hx
    have h := hwf p (mem_append_right _ hp)
    exact ⟨h.delete, h.noMark, h.compact⟩
  · intro x hx
    rw [← map_cons] at hx
    obtain ⟨p, hp, rfl⟩ := mem_map.1 hx
    exact (hbelow p hp).2
  · rw [hdatak]
    rfl

end Readers

/-! ## A lock over a deleted row

A row is updated at version `4`, was locked at version `3` and deleted at version `2`.  The update
is the node above the compaction start, so the lock and the delete are compacted.  The lock counts
as a cell, which makes the compact node an ordinary one, and the deleted row reappears. -/

def committedNode (version : ℤ) (prev next : Option NodePtr) (data : MemtableData ℕ) :
    TransNode ℕ where
  transVersion := version
  logTimestamp := 0
  prev := prev
  next := next
  modifyCount := 0
  accChecksum := 0
  version := 0
  snapshotVersionBarrier := 0
  ctxDescriptor := 0
  type := .normal
  flag := TransNode.F_COMMITTED
  mtd := data

def lockedAfterDelete : RowState ℕ where
  heap
    | 0 => committedNode 4 (some 1) none ⟨.update, [.column 17 5]⟩
    | 1 => committedNode 3 (some 2) (some 0) ⟨.lock, [.column 16 1]⟩
    | _ => committedNode 2 none (some 1) ⟨.delete, [.delRow]⟩
  row := { MvccRow.reset with listHead := some 0, totalTransNodeCnt := 3 }

/-- The row after `compact` with snapshot `4`, the new node being allocated at address `3`. -/
def lockedCompacted : RowState ℕ :=
  ((compact 4 4 (some 3) lockedAfterDelete).map Prod.snd).getD lockedAfterDelete

lemma lockedAfterDelete_isList : lockedAfterDelete.Lists [0, 1, 2] :=
    ⟨rfl, rfl, rfl, rfl, rfl, rfl, rfl⟩

lemma lockedAfterDelete_nodeWF : ∀ p ∈ [0, 1, 2], NodeWF (lockedAfterDelete.heap p) := by
  intro p hp
  simp only [mem_cons, not_mem_nil, or_false] at hp
  rcases hp with rfl | rfl | rfl
  all_goals exact ⟨by decide, by decide, by decide⟩

lemma compact_lockedAfterDelete :
    compact 4 4 (some 3) lockedAfterDelete = some (.success, lockedCompacted) := rfl

/-- A reader at version `3` is told that the row is deleted before the compaction, and that it
exists after it. -/
theorem compact_resurrects_locked_row :
    IsList lockedAfterDelete.prevs lockedAfterDelete.nexts lockedAfterDelete.row.listHead [0, 1,
    2] ∧
    [0, 1, 2].Pairwise (fun p q => lockedAfterDelete.versions q ≤ lockedAfterDelete.versions p) ∧
    (∀ p ∈ [0, 1, 2], NodeWF (lockedAfterDelete.heap p)) ∧
    (findStartPos 4 4 lockedAfterDelete).map StartPos.save = some (some 1) ∧
    (∀ p ∈ [1, 2], (lockedAfterDelete.heap p).isCommitted = true ∧
      (lockedAfterDelete.heap p).isAborted = false) ∧
    compact 4 4 (some 3) lockedAfterDelete = some (.success, lockedCompacted) ∧
    IsList lockedCompacted.prevs lockedCompacted.nexts lockedCompacted.row.listHead [0, 3, 1, 2] ∧
    exist ⟨3, true, false, 0⟩ (lockedAfterDelete.chain [0, 1, 2]) = (false, true) ∧
    exist ⟨3, true, false, 0⟩ (lockedCompacted.chain [0, 3, 1, 2]) = (true, true) := by
  refine ⟨lockedAfterDelete_isList, by decide, lockedAfterDelete_nodeWF, by decide, by decide,
    compact_lockedAfterDelete, ?_, by decide +kernel, by decide +kernel⟩
  exact ⟨rfl, rfl, rfl, rfl, rfl, rfl, rfl, rfl, rfl⟩

theorem compact_readsAgree_iff_locked_row :
    ∃ l', IsList lockedCompacted.prevs lockedCompacted.nexts lockedCompacted.row.listHead l' ∧
      ((∀ rc : ReadCtx, rc.baseVersion = 0 →
          ReadsAgree rc (lockedAfterDelete.chain [0, 1, 2]) (lockedCompacted.chain l')) ↔
        (WritesCompactNode 4 (some 3) lockedAfterDelete [1, 2] →
          CompactionKeeps 0 (lockedAfterDelete.chain [0]) (lockedAfterDelete.chain [1, 2]))) :=
  compact_readsAgree_iff lockedAfterDelete_isList (by decide) lockedAfterDelete_nodeWF (by decide)
    (by intro c hc; simp [lockedAfterDelete, MvccRow.reset] at hc)
    (by intro k hk; simp only [Option.some.injEq] at hk; subst hk; decide) (by decide) rfl rfl rfl
    (by decide) compact_lockedAfterDelete

theorem compact_isSome_locked_row : (compact 4 4 (some 3) lockedAfterDelete).isSome :=
  compact_isSome lockedAfterDelete_isList (by decide)
  (by simp [lockedAfterDelete, MvccRow.reset]) (by decide)

end OceanBase.Memtable
