import DailyReadCoding.OceanBase.Memtable.RowInvariant

/-!
# The two ways of inserting a version node agree

`insert_trans_node` looks for the place of a new node from the head, along `prev_`, or from the node
its replay queue inserted last, along `next_`.  The first walk skips the nodes strictly newer than
the new one, the second the nodes strictly older, so on a sorted list they disagree only about ties:
the plain branch puts the new node above the nodes of its own version, the indexed branch stops
below those that stand above the index node.

Where no tie stands above the index node both stop at the same pair of neighbours, and then the two
sequences of pointer writes leave the same memory behind.
-/

namespace OceanBase.Memtable

open LinkedHeap List Function RowState Option

variable {Obj : Type} {s : RowState Obj} {v : ℤ} {fuel : ℕ} {k₁ : List NodePtr}

/-! ## What the two branches write -/

/-- Between the same neighbours the two branches write the same memory, in another order. -/
lemma linkAtIndex_eq_linkAtSlot {node prev : NodePtr} {next : Option NodePtr} {ret : Ret}
    {steps : ℕ} (hprev : prev ≠ node) (hnode : next ≠ some node) (hne : next ≠ some prev)
    (hhead : s.row.listHead = some prev ↔ next = none) : linkAtIndex s node prev next =
      linkAtSlot s node ⟨ret, next, slotBelow next, some prev, steps⟩ := by
  cases next with
  | none =>
    have h : s.row.listHead = some prev := hhead.2 rfl
    simp only [linkAtIndex, linkAtSlot, slotBelow, setPrev?, setNext?,
      store, setNext, setPrev, clearAborted, write,
      onRow, h, if_true, mk.injEq, and_true]
    funext q
    by_cases hq : q = node
    · subst hq; simp [TransNode.clearAborted, hprev.symm]
    · by_cases hq' : q = prev
      · subst hq'; simp [hq]
      · simp [hq, hq']
  | some n =>
    have h : s.row.listHead ≠ some prev := fun e => absurd (hhead.1 e) (by simp)
    have hn : n ≠ node := fun e => hnode (congrArg some e)
    have hnp : n ≠ prev := fun e => hne (congrArg some e)
    simp only [linkAtIndex, linkAtSlot, slotBelow, setPrev?, setNext?,
      store, setNext, setPrev, clearAborted, write,
      h, if_false, mk.injEq, and_true]
    funext q
    by_cases hq : q = node
    · subst hq; simp [TransNode.clearAborted, hprev.symm, hn.symm]
    · by_cases hq' : q = prev
      · subst hq'; simp [hq, hnp.symm]
      · by_cases hqn : q = n
        · subst hqn; simp [hq, hq']
        · simp [hq, hq', hqn]

/-- The plain branch, when it finds an index, records the node there as the indexed branch does. -/
lemma rememberNode_of_index {ctx : InsertCtx} {start : NodePtr} {t : RowState Obj}
    (hindex : indexNode ctx s = some start) (ht : t.row.index = s.row.index) (node : NodePtr)
    (steps : ℕ) : ∃ ix, t.row.index = some ix ∧ rememberNode ctx node steps t =
      t.setIndex (ix.setIndexNode ctx.replayQueueIndex (some node)) := by
  unfold indexNode at hindex
  split_ifs at hindex with hvalid
  obtain ⟨ix, hix, -⟩ := bind_eq_some_iff.1 hindex
  rw [← ht] at hix
  exact ⟨ix, hix, by simp only [rememberNode, if_pos hvalid, hix]⟩

/-! ## The two branches -/

section Branches

variable {ctx : InsertCtx} {node start p : NodePtr} {above below rest : List NodePtr}

/-- The indexed walk stops below the nodes newer than `v`, if no node above `start` has version `v`.
-/
lemma walkNext_place (hlist : s.Lists (above ++ start :: below))
    (hsorted : (above ++ start :: below).Pairwise fun p q => s.versions q ≤ s.versions p)
    (hstart : s.versions start ≤ v) (hties : ∀ q ∈ above, s.versions q ≠ v)
    (hfuel : above.length < fuel) :
    ∃ k₁ p rest, above ++ start :: below = k₁ ++ p :: rest ∧ (∀ q ∈ k₁, v < s.versions q) ∧
      (∀ q ∈ p :: rest, s.versions q ≤ v) ∧
      walkNext s.heap v fuel start (s.heap start).next = some (p, lastOr none k₁) := by
  obtain ⟨⟨p, _⟩, hwalk, k₁, rest, hsplit, hsub, hold, rfl, hstop⟩ :=
    (walkNext_spec hlist rfl).returns hfuel
  rw [hsplit] at hsorted
  have hp : s.versions p ≤ v := hold.elim (fun e : p = start => e ▸ hstart) Int.le_of_lt
  refine ⟨k₁, p, rest, hsplit, fun q hq => ?_, le_of_head hsorted (by simpa using hp), hwalk⟩
  exact Int.lt_iff_le_and_ne.2 ⟨le_of_lastOr hsorted hstop q hq, (hties q (hsub hq)).symm⟩

/-- The plain walk finds the place below the nodes newer than `v`. -/
lemma walkPrev_place (hlist : s.Lists (k₁ ++ p :: rest))
    (hnewer : ∀ q ∈ k₁, v < s.versions q) (hp : s.versions p ≤ v)
    (hcompact : ∀ q ∈ k₁ ++ p :: rest, v < s.versions q → (s.heap q).type ≠ .compact)
    (hfuel : (k₁ ++ p :: rest).length < fuel) :
    ∃ steps, walkPrev s.heap v fuel none .listHead s.row.listHead 0 =
      some ⟨.success, lastOr none k₁, slotBelow (lastOr none k₁), some p, steps⟩ := by
  have hwalks : Walks _ fuel _ (walkPrev s.heap v fuel none .listHead s.row.listHead 0) :=
    walkPrev_spec hlist (nil_append _).symm hlist.head_eq rfl rfl (by simp)
  obtain ⟨⟨ret, _, slot, _, steps⟩, hwalk, k, below, hsplit, rfl, rfl, hslot, habove,
    hstop, hfail⟩ :=
    hwalks.returns hfuel
  obtain rfl : slot = slotBelow (lastOr none k) := hslot
  obtain rfl : ret = .success := by
    by_contra hne
    obtain ⟨q, hq, hv, hc⟩ := hfail hne
    exact hcompact q hq hv hc
  obtain ⟨rfl, rfl⟩ : k₁ = k ∧ p :: rest = below := by
    rcases append_eq_append_iff.1 hsplit with ⟨_ | ⟨q, c⟩, rfl, hc⟩ | ⟨_ | ⟨q, c⟩, rfl, hc⟩
    · simpa using hc
    · obtain rfl : p = q := (List.cons.inj hc).1
      exact absurd (habove p (by simp)) (Int.not_lt.2 hp)
    · simpa using hc.symm
    · exact absurd (hnewer q (by simp)) (Int.not_lt.2 (hstop rfl q (by simp [hc])))
  exact ⟨steps, hwalk⟩

/-- **The two branches agree.**  The list `above ++ start :: below` is linked both ways and sorted,
`start` is the index node of the caller and not newer than the new node.  If no node above `start`
has the new node's version and no newer node is compact, both branches succeed with the same
`next_node` and the same memory, in which the new node stands below the nodes newer than it. -/
theorem insertFromIndex_eq_insertFromHead
    (hlist : IsList s.prevs s.nexts s.row.listHead (above ++ start :: below))
    (hsorted : (above ++ start :: below).Pairwise fun p q => s.versions q ≤ s.versions p)
    (hnode : node ∉ above ++ start :: below) (hindex : indexNode ctx s = some start)
    (hstart : s.versions start ≤ s.versions node)
    (hties : ∀ q ∈ above, s.versions q ≠ s.versions node)
    (hcompact : ∀ q ∈ above ++ start :: below, s.versions node < s.versions q →
      (s.heap q).type ≠ .compact) (hfuel : (above ++ start :: below).length < fuel) :
    ∃ r k₁ k₂, insertFromIndex fuel ctx node start s = some r ∧
      insertFromHead fuel ctx node s = some r ∧ r.ret = .success ∧
      above ++ start :: below = k₁ ++ k₂ ∧ r.nextNode = lastOr none k₁ ∧
      (∀ q ∈ k₁, s.versions node < s.versions q) ∧ (∀ q ∈ k₂, s.versions q ≤ s.versions node) ∧
      IsList r.state.prevs r.state.nexts r.state.row.listHead (k₁ ++ node :: k₂) := by
  have hfuel' : above.length < fuel := by
    rw [length_append] at hfuel
    omega
  obtain ⟨k₁, p, rest, hsplit, hnewer, holder, hnext⟩ :=
    walkNext_place hlist hsorted hstart hties hfuel'
  rw [hsplit] at hlist hnode hcompact hfuel
  obtain ⟨steps, hprev⟩ := walkPrev_place hlist hnewer (holder p (by simp)) hcompact hfuel
  have hlinked := linkAtIndex_linked node hlist.head_iff
  have hstates : linkAtIndex s node p (lastOr none k₁) = linkAtSlot s node
      ⟨.success, lastOr none k₁, slotBelow (lastOr none k₁), some p, steps⟩ := by
    refine linkAtIndex_eq_linkAtSlot ?_ ?_ ?_ hlist.head_iff
    · rintro rfl
      exact hnode (by simp)
    · intro h
      exact hnode (mem_append_left _ (mem_of_lastOr h))
    · intro h
      exact disjoint_of_nodup_append hlist.nodup (mem_of_lastOr h) (by simp)
  obtain ⟨ix, hix, hremember⟩ := rememberNode_of_index hindex hlinked.index node steps
  have hpv : ¬ (s.heap node).transVersion < (s.heap p).transVersion :=
    Int.not_lt.2 (holder p (by simp))
  have hinserted := hlinked.isList hlist hnode
  rw [versions] at hnext hprev
  refine ⟨⟨.success, lastOr none k₁, addTransNodeCnt 1 ((linkAtIndex s node p
    (lastOr none k₁)).setIndex (ix.setIndexNode ctx.replayQueueIndex (some node)))⟩,
    k₁, p :: rest, ?_, ?_, rfl, hsplit, rfl, hnewer, holder, hinserted⟩
  · simp only [insertFromIndex, hnext, map_some, if_neg hpv, hix]
  · simp only [insertFromHead, hprev, map_some, if_true, ← hstates, hremember]

/-- Node 1 (version 3) was inserted into the list 2, 1, 0 (versions 7, 3, 3), now comes node 5
(version 5). -/
def replayedRow : RowState Unit where
  heap := fun p =>
    { transVersion := [3, 3, 7, 0, 0, 5].getD p 0, logTimestamp := 0,
      prev := [none, some 0, some 1].getD p none, next := [some 1, some 2, none].getD p none,
      modifyCount := 0, accChecksum := 0, version := 0, snapshotVersionBarrier := 0,
      ctxDescriptor := 0, type := .normal, flag := 0, mtd := ⟨.insert, []⟩ }
  row := { MvccRow.reset with
    listHead := some 2
    index := some (RowIndex.new.setIndexNode 0 (some 1))
    totalTransNodeCnt := 3 }

theorem insertFromIndex_eq_insertFromHead_replayed :
    ∃ r k₁ k₂, insertFromIndex 4 ⟨0, true, 0, true⟩ 5 1 replayedRow = some r ∧
      insertFromHead 4 ⟨0, true, 0, true⟩ 5 replayedRow = some r ∧ r.ret = .success ∧
      [2] ++ 1 :: [0] = k₁ ++ k₂ ∧ r.nextNode = lastOr none k₁ ∧
      (∀ q ∈ k₁, replayedRow.versions 5 < replayedRow.versions q) ∧
      (∀ q ∈ k₂, replayedRow.versions q ≤ replayedRow.versions 5) ∧
      IsList r.state.prevs r.state.nexts r.state.row.listHead (k₁ ++ 5 :: k₂) := by
  refine insertFromIndex_eq_insertFromHead ?_ ?_ ?_ ?_ ?_ ?_ ?_ ?_
  · exact ⟨rfl, rfl, rfl, rfl, rfl, rfl, rfl⟩
  · decide
  · decide
  · rfl
  · decide
  · decide
  · decide
  · decide

end Branches

end OceanBase.Memtable
