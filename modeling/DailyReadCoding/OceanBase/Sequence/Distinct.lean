import DailyReadCoding.OceanBase.Sequence.SequenceCache

/-!
# The numbers of a sequence are distinct

Every number that a server hands out lies in a batch that this server fetched, and the batches
follow each other along the sequence. A server may drop numbers, when it gives up the rest of a
node, but it never goes back: `last_number` is behind everything it can still hand out.
-/

namespace OceanBase.Sequence

open SequenceCacheItem List

/-- `a` comes before `b` in the direction of the increment. -/
def Before (inc a b : ℤ) : Prop := (0 < inc ∧ a < b) ∨ (inc < 0 ∧ b < a)

/-- The number lies in the batch. -/
def SequenceCacheNode.Contains (inc : ℤ) (b : SequenceCacheNode) (v : ℤ) : Prop :=
  ¬ Before inc v b.inclusiveStart ∧ Before inc v b.exclusiveEnd

namespace SequenceSchema

/-- The numbers that the sequence can have. -/
def OnGrid (schema : SequenceSchema) (v : ℤ) : Prop := schema.incrementBy ∣ v - schema.startWith

/-- The value of the row after the last batch, which the limit has cut off. -/
def Exhausted (schema : SequenceSchema) (v : ℤ) : Prop :=
  (0 < schema.incrementBy ∧ schema.maxValue < v) ∨ (schema.incrementBy < 0 ∧ v < schema.minValue)

end SequenceSchema

section Batch

variable {schema : SequenceSchema} {n n' : ℤ} {b : SequenceCacheNode}

lemma SequenceSchema.OnGrid.add_mul (h : schema.OnGrid n) (k : ℤ) :
    schema.OnGrid (schema.incrementBy * k + n) := by
  rw [SequenceSchema.OnGrid, add_sub_assoc]
  exact dvd_add (Dvd.intro k rfl) h

/-- A full batch reaches in the direction of the increment, if it reaches anywhere. -/
lemma mul_size_sign (inc : ℤ) {size : ℤ} (hsize : 0 ≤ size) :
    (0 < inc ∧ 0 ≤ inc * size) ∨ (inc < 0 ∧ inc * size ≤ 0) ∨ (inc = 0 ∧ inc * size = 0) := by
  rcases lt_trichotomy inc 0 with hneg | rfl | hpos
  · exact .inr (.inl ⟨hneg, mul_nonpos_of_nonpos_of_nonneg hneg.le hsize⟩)
  · exact .inr (.inr ⟨rfl, zero_mul size⟩)
  · exact .inl ⟨hpos, mul_nonneg hpos.le hsize⟩

/-- Every batch starts on the grid and reaches from the old value of the row to the new one. -/
lemma nextBatch_spec (hcycle : schema.cycleFlag = false)
    (hn : schema.OnGrid n ∨ schema.Exhausted n) (h : nextBatch schema n = .ok (n', b)) :
    b = ⟨n, n'⟩ ∧ schema.OnGrid n ∧ (n = n' ∨ Before schema.incrementBy n n')
      ∧ (schema.OnGrid n' ∨ schema.Exhausted n')
      ∧ (1 < schema.cacheSize → schema.incrementBy ≠ 0 → n ≠ n') := by
  obtain ⟨size, hsize, h0, h1⟩ : ∃ size : ℤ,
      (if schema.orderFlag then 1 else (schema.cacheSize : ℤ)) = size ∧ 0 ≤ size
        ∧ (1 < schema.cacheSize → size ≠ 0) :=
    ⟨_, rfl, by split_ifs <;> omega, by split_ifs <;> omega⟩
  have hsign := mul_size_sign schema.incrementBy h0
  have hreach : 1 < schema.cacheSize → schema.incrementBy ≠ 0 → schema.incrementBy * size ≠ 0 :=
    fun hcache hinc => mul_ne_zero hinc (h1 hcache)
  have hgrid := fun hg : schema.OnGrid n => hg.add_mul size
  rw [nextBatch, hsize] at h
  simp only [hcycle, Bool.false_eq_true, if_false] at h
  simp only [Before, SequenceSchema.Exhausted] at *
  split_ifs at h with hmax hover hmin hunder
  · cases h
    exact ⟨rfl, hn.resolve_right (by omega), .inr (by omega), .inr (by omega), by omega⟩
  · cases h
    exact ⟨rfl, hn.resolve_right (by omega), .inr (by omega), .inr (by omega), by omega⟩
  · cases h
    have hn' := hn.resolve_right (by omega)
    exact ⟨rfl, hn', by omega, .inl (hgrid hn'), by omega⟩

end Batch

/-! ## Cache items -/

/-- The number lies in a batch that the server fetched. -/
def Fetched {Server : Type} (inc : ℤ) (fetched : List (Server × SequenceCacheNode))
    (server : Server) (v : ℤ) : Prop :=
  ∃ b, (server, b) ∈ fetched ∧ b.Contains inc v

/-- A batch that was fetched: it does not reach beyond the row. -/
structure BatchInv (schema : SequenceSchema) (row : ℤ) (b : SequenceCacheNode) : Prop where
  ordered : b.inclusiveStart = b.exclusiveEnd
    ∨ Before schema.incrementBy b.inclusiveStart b.exclusiveEnd
  grid : schema.OnGrid b.inclusiveStart
  end_le : ¬ Before schema.incrementBy row b.exclusiveEnd

/-- The current node is part of what the server fetched, a prefetched one lies behind it, and
`last_number` is not beyond its start. -/
structure ItemInv {Server : Type} (schema : SequenceSchema) (row : ℤ)
    (fetched : List (Server × SequenceCacheNode)) (server : Server) (i : SequenceCacheItem) :
    Prop where
  ordered : i.currNode.inclusiveStart = i.currNode.exclusiveEnd
    ∨ Before schema.incrementBy i.currNode.inclusiveStart i.currNode.exclusiveEnd
  grid : i.currNode.inclusiveStart ≠ i.currNode.exclusiveEnd →
    schema.OnGrid i.currNode.inclusiveStart
  covered : ∀ v, schema.OnGrid v → i.currNode.Contains schema.incrementBy v →
    Fetched schema.incrementBy fetched server v
  end_le : i.currNode.inclusiveStart ≠ i.currNode.exclusiveEnd →
    ¬ Before schema.incrementBy row i.currNode.exclusiveEnd
  prefetched : i.withPrefetchNode = true →
    i.currNode.inclusiveStart ≠ i.currNode.exclusiveEnd ∧ (server, i.prefetchNode) ∈ fetched
      ∧ i.prefetchNode.inclusiveStart ≠ i.prefetchNode.exclusiveEnd
      ∧ ¬ Before schema.incrementBy i.prefetchNode.inclusiveStart i.currNode.exclusiveEnd
  last : i.baseOnLastNumber = true → schema.OnGrid i.lastNumber
    ∧ ¬ Before schema.incrementBy i.currNode.inclusiveStart i.lastNumber
    ∧ Fetched schema.incrementBy fetched server i.lastNumber

section Item

variable {Server : Type} {schema : SequenceSchema} {row row' : ℤ}
  {fetched fetched' : List (Server × SequenceCacheNode)} {server : Server}
  {i i' : SequenceCacheItem} {v : ℤ}

lemma Fetched.mono {inc : ℤ} (h : Fetched inc fetched server v) (hsub : fetched ⊆ fetched') :
    Fetched inc fetched' server v := by
  obtain ⟨b, hb, hv⟩ := h
  exact ⟨b, hsub hb, hv⟩

lemma ItemInv.mono (h : ItemInv schema row fetched server i) (hsub : fetched ⊆ fetched')
    (hrow : row = row' ∨ Before schema.incrementBy row row') :
    ItemInv schema row' fetched' server i where
  ordered := h.ordered
  grid := h.grid
  covered v hv hin := (h.covered v hv hin).mono hsub
  end_le hne := by
    have := h.end_le hne
    simp only [Before] at *
    omega
  prefetched hwith := by
    obtain ⟨hne, hmem, hfull, hbehind⟩ := h.prefetched hwith
    exact ⟨hne, hsub hmem, hfull, hbehind⟩
  last hbase := by
    obtain ⟨hgrid, hle, hin⟩ := h.last hbase
    exact ⟨hgrid, hle, hin.mono hsub⟩

lemma BatchInv.mono {b : SequenceCacheNode} (h : BatchInv schema row b)
    (hrow : row = row' ∨ Before schema.incrementBy row row') : BatchInv schema row' b where
  ordered := h.ordered
  grid := h.grid
  end_le := by
    have := h.end_le
    simp only [Before] at *
    omega

section

variable (h : ItemInv schema row fetched server i)

include h

/-- Combining keeps what is left of a node that the prefetched one continues. -/
lemma ItemInv.combine (hbatch : ∀ p ∈ fetched, BatchInv schema row p.2) :
    ItemInv schema row fetched server i.combinePrefetchNode := by
  rw [combinePrefetchNode]
  split_ifs with hwith hgap
  · -- a gap: what is left of the current node is dropped
    obtain ⟨hne, hmem, -, hbehind⟩ := h.prefetched hwith
    have hb := hbatch _ hmem
    refine ⟨hb.ordered, fun _ => hb.grid, fun v _ hv => ⟨_, hmem, hv⟩, fun _ => hb.end_le, ?_, ?_⟩
    · rintro ⟨⟩
    · intro hbase
      obtain ⟨hgrid, hle, hin⟩ := h.last hbase
      refine ⟨hgrid, ?_, hin⟩
      have := h.ordered
      simp only [Before] at *
      omega
  · -- the two nodes become one
    obtain ⟨hne, hmem, -, hbehind⟩ := h.prefetched hwith
    have hb := hbatch _ hmem
    have hordered := h.ordered
    have hpre := hb.ordered
    rw [not_not] at hgap
    refine ⟨?_, fun _ => h.grid hne, ?_, fun _ => hb.end_le, ?_, h.last⟩
    · simp only [Before] at *
      omega
    · intro v hgrid hv
      rcases em (Before schema.incrementBy v i.currNode.exclusiveEnd) with hlt | hge
      · exact h.covered v hgrid ⟨hv.1, hlt⟩
      · exact ⟨_, hmem, by rwa [← hgap], hv.2⟩
    · rintro ⟨⟩
  · exact h

/-- A node that is not used up has the number after `last_number`. -/
lemma ItemInv.next_lt_end (hbase : i.baseOnLastNumber = true)
    (hne : i.currNode.inclusiveStart ≠ i.currNode.exclusiveEnd)
    (hused : i.usedUp schema.incrementBy = false) :
    Before schema.incrementBy (i.lastNumber + schema.incrementBy) i.currNode.exclusiveEnd := by
  have hordered := h.ordered
  have hlast := (h.last hbase).2.1
  rw [usedUp] at hused
  simp only [Before] at *
  split_ifs at hused with hinc
  · simp only [Bool.and_eq_false_iff, Bool.not_eq_false', decide_eq_true_iff,
      decide_eq_false_iff_not]
      at hused
    omega
  · simp only [Bool.and_eq_false_iff, Bool.not_eq_false', decide_eq_true_iff,
      decide_eq_false_iff_not]
      at hused
    omega

lemma ItemInv.combine_ne
    (hbatch : ∀ p ∈ fetched, BatchInv schema row p.2) (hwith : i.withPrefetchNode = true) :
    i.combinePrefetchNode.currNode.inclusiveStart
    ≠ i.combinePrefetchNode.currNode.exclusiveEnd := by
  obtain ⟨hne, hmem, hfull, hbehind⟩ := h.prefetched hwith
  have hordered := h.ordered
  have hpre := (hbatch _ hmem).ordered
  rw [combinePrefetchNode, if_pos hwith]
  simp only [Before] at *
  split_ifs
  · exact hfull
  · omega

/-- If `need_refill_cache` asks for a refill no prefetched node is left; otherwise there is a number
to take. -/
lemma ItemInv.needRefill (hbatch : ∀ p ∈ fetched, BatchInv schema row p.2) {refill : Bool}
    (heq : i.needRefillCache schema = (refill, i')) : ItemInv schema row fetched server i'
      ∧ i'.baseOnLastNumber = i.baseOnLastNumber ∧ i'.lastNumber = i.lastNumber
      ∧ (refill = true → i'.withPrefetchNode = false)
      ∧ (refill = false → i'.currNode.inclusiveStart ≠ i'.currNode.exclusiveEnd
          ∧ (i'.baseOnLastNumber = true → i'.usedUp schema.incrementBy = false)) := by
  rw [needRefillCache] at heq
  split_ifs at heq with hempty hbase hcombine
  · cases heq
    refine ⟨h, rfl, rfl, fun _ => ?_, nofun⟩
    exact Bool.eq_false_iff.2 fun hwith => (h.prefetched hwith).1 hempty
  · cases heq
    refine ⟨h, rfl, rfl, nofun, fun _ => ⟨hempty, fun hb => ?_⟩⟩
    rw [hb] at hbase
    cases hbase
  · cases heq
    rw [Bool.and_eq_true] at hcombine
    have hfields : i.combinePrefetchNode.withPrefetchNode = false
        ∧ i.combinePrefetchNode.baseOnLastNumber = i.baseOnLastNumber
        ∧ i.combinePrefetchNode.lastNumber = i.lastNumber := by
      rw [combinePrefetchNode, if_pos hcombine.2]
      exact ⟨rfl, rfl, rfl⟩
    exact ⟨h.combine hbatch, hfields.2.1, hfields.2.2, fun _ => hfields.1,
      fun hused => ⟨h.combine_ne hbatch hcombine.2, fun _ => hused⟩⟩
  · cases heq
    refine ⟨h, rfl, rfl, fun hused => ?_, fun hused => ⟨hempty, fun _ => hused⟩⟩
    rw [hused] at hcombine
    exact Bool.eq_false_iff.2 hcombine

end

/-- What `move_next` hands out: the next number of the item, beyond everything before. -/
structure Moved {Server : Type} (schema : SequenceSchema) (row : ℤ)
    (fetched : List (Server × SequenceCacheNode)) (server : Server) (i i' : SequenceCacheItem)
    (v : ℤ) : Prop where
  item : ItemInv schema row fetched server i'
  base : i'.baseOnLastNumber = true
  last : i'.lastNumber = v
  nonempty : i'.currNode.inclusiveStart ≠ i'.currNode.exclusiveEnd
  before : i.baseOnLastNumber = true → Before schema.incrementBy i.lastNumber v

/-- The new start: the number after `last_number`, or the start if that is further on. -/
lemma movedStart_spec (hordered : i.currNode.inclusiveStart = i.currNode.exclusiveEnd
      ∨ Before schema.incrementBy i.currNode.inclusiveStart i.currNode.exclusiveEnd)
    (hne : i.currNode.inclusiveStart ≠ i.currNode.exclusiveEnd)
    (hle : ¬ Before schema.incrementBy i.currNode.inclusiveStart i.lastNumber)
    (hnext : Before schema.incrementBy (i.lastNumber + schema.incrementBy)
      i.currNode.exclusiveEnd) :
    (i.movedStart schema.incrementBy = i.lastNumber + schema.incrementBy
        ∨ i.movedStart schema.incrementBy = i.currNode.inclusiveStart)
      ∧ ¬ Before schema.incrementBy (i.movedStart schema.incrementBy) i.currNode.inclusiveStart
      ∧ Before schema.incrementBy i.lastNumber (i.movedStart schema.incrementBy)
      ∧ Before schema.incrementBy (i.movedStart schema.incrementBy) i.currNode.exclusiveEnd := by
  simp only [movedStart, Before] at *
  split_ifs <;> omega

/-- Taking a number from a node that need not be refilled. -/
lemma ItemInv.takeNext (hcycle : schema.cycleFlag = false) (h : ItemInv schema row fetched server i)
    (hne : i.currNode.inclusiveStart ≠ i.currNode.exclusiveEnd)
    (hused : i.baseOnLastNumber = true → i.usedUp schema.incrementBy = false) :
    Moved schema row fetched server i (i.takeNext schema).2 (i.takeNext schema).1 := by
  have hordered := h.ordered
  have hgrid := h.grid hne
  rw [SequenceCacheItem.takeNext]
  cases hbase : i.baseOnLastNumber with
  | false =>
    have hin : i.currNode.Contains schema.incrementBy i.currNode.inclusiveStart := by
      simp only [SequenceCacheNode.Contains, Before] at *
      omega
    have hself : ¬ Before schema.incrementBy i.currNode.inclusiveStart
        i.currNode.inclusiveStart := by
      simp only [Before]
      omega
    exact ⟨⟨hordered, h.grid, h.covered, h.end_le, h.prefetched,
      fun _ => ⟨hgrid, hself, h.covered _ hgrid hin⟩⟩, rfl, rfl, hne,
      fun hb => absurd (hbase.symm.trans hb) Bool.false_ne_true⟩
  | true =>
    obtain ⟨hlast, hle, -⟩ := h.last hbase
    have hnext := h.next_lt_end hbase hne (hused hbase)
    have hcycled : i.cycled schema = false := by rw [cycled, hcycle, Bool.false_and]
    simp only [hcycled, Bool.not_true, Bool.false_eq_true, if_false]
    obtain ⟨hv, hstart, hbefore, hend⟩ := movedStart_spec hordered hne hle hnext
    have hvgrid : schema.OnGrid (i.movedStart schema.incrementBy) := by
      rcases hv with hv | hv
      · rw [hv, add_comm, ← mul_one schema.incrementBy]
        exact hlast.add_mul 1
      · rw [hv]
        exact hgrid
    generalize i.movedStart schema.incrementBy = v at *
    have hin : i.currNode.Contains schema.incrementBy v := ⟨hstart, hend⟩
    have hvne : v ≠ i.currNode.exclusiveEnd := by
      simp only [Before] at hend
      omega
    have hself : ¬ Before schema.incrementBy v v := by
      simp only [Before]
      omega
    refine ⟨⟨.inr hend, fun _ => hvgrid, ?_, fun _ => h.end_le hne, ?_,
      fun _ => ⟨hvgrid, hself, h.covered v hvgrid hin⟩⟩, rfl, rfl, hvne, fun _ => hbefore⟩
    · intro u hu hcontains
      refine h.covered u hu ⟨?_, hcontains.2⟩
      have := hcontains.1
      simp only [Before] at *
      omega
    · intro hwith
      exact ⟨hvne, (h.prefetched hwith).2⟩

/-- `move_next` hands out a number, or the node is used up and nothing is prefetched. -/
lemma ItemInv.moveNext (hcycle : schema.cycleFlag = false) (h : ItemInv schema row fetched server i)
    (hbatch : ∀ p ∈ fetched, BatchInv schema row p.2) :
    (∃ v i', i.moveNext schema = (some v, i') ∧ Moved schema row fetched server i i' v)
      ∨ ∃ i', i.moveNext schema = (none, i') ∧ ItemInv schema row fetched server i'
        ∧ i'.baseOnLastNumber = i.baseOnLastNumber ∧ i'.lastNumber = i.lastNumber
        ∧ i'.withPrefetchNode = false := by
  rw [SequenceCacheItem.moveNext]
  cases heq : i.needRefillCache schema with
  | mk refill i' =>
    obtain ⟨hitem, hbase, hlast, hrefill, hkeep⟩ := h.needRefill hbatch heq
    cases refill with
    | true => exact .inr ⟨i', rfl, hitem, hbase, hlast, hrefill rfl⟩
    | false =>
      obtain ⟨hne, hused⟩ := hkeep rfl
      have hmoved := hitem.takeNext hcycle hne hused
      refine .inl ⟨_, _, rfl, hmoved.item, hmoved.base, hmoved.last, hmoved.nonempty, ?_⟩
      rw [← hbase, ← hlast]
      exact hmoved.before

end Item

/-! ## The whole system -/

/-- What the numbers already returned by a server, and its item, satisfy in each phase. -/
def PhaseInv {Server : Type} (schema : SequenceSchema) (returned : List (Server × ℤ))
    (server : Server) (i : SequenceCacheItem) : Phase → Prop
  | .prefetch v =>
    i.baseOnLastNumber = true ∧ i.lastNumber = v ∧ i.withPrefetchNode = false
      ∧ i.currNode.inclusiveStart ≠ i.currNode.exclusiveEnd ∧ 1 < schema.cacheSize
      ∧ ∀ u, (server, u) ∈ returned → Before schema.incrementBy u v
  | .refill =>
    i.withPrefetchNode = false ∧ ∀ u, (server, u) ∈ returned →
      i.baseOnLastNumber = true ∧ ¬ Before schema.incrementBy i.lastNumber u
  | .idle =>
    ∀ u, (server, u) ∈ returned →
      i.baseOnLastNumber = true ∧ ¬ Before schema.incrementBy i.lastNumber u

/-- The row and the batches: they follow each other, newest first. -/
structure TableInv {Server : Type} (schema : SequenceSchema) (row : ℤ)
    (fetched : List (Server × SequenceCacheNode)) : Prop where
  next : schema.OnGrid row ∨ schema.Exhausted row
  batch : ∀ p ∈ fetched, BatchInv schema row p.2
  disjoint : fetched.Pairwise fun p q =>
    ¬ Before schema.incrementBy p.2.inclusiveStart q.2.exclusiveEnd

/-- The numbers returned: each from a batch of its server, and in order on each server. -/
structure ReturnedInv {Server : Type} (schema : SequenceSchema)
    (fetched : List (Server × SequenceCacheNode)) (returned : List (Server × ℤ)) : Prop where
  fetched : ∀ p ∈ returned, schema.OnGrid p.2 ∧ Fetched schema.incrementBy fetched p.1 p.2
  monotone : returned.Pairwise fun p q => p.1 = q.1 → Before schema.incrementBy q.2 p.2

structure Inv {Server : Type} (schema : SequenceSchema) (st : State Server) : Prop where
  table : TableInv schema (st.row schema) st.fetched
  returned : ReturnedInv schema st.fetched st.returned
  item : ∀ s, ItemInv schema (st.row schema) st.fetched s (st.items s)
  phase : ∀ s, PhaseInv schema st.returned s (st.items s) (st.phases s)

section System

variable {Server : Type} [DecidableEq Server] {schema : SequenceSchema} {st : State Server}
  {server : Server} {i : SequenceCacheItem} {v : ℤ}

omit [DecidableEq Server] in
lemma inv_init (schema : SequenceSchema) : Inv schema (State.init Server) where
  table := ⟨.inl (by simp [SequenceSchema.OnGrid, State.row, State.init]), nofun, .nil⟩
  returned := ⟨nofun, .nil⟩
  item s := by
    refine ⟨.inl rfl, fun h => absurd rfl h, ?_, fun h => absurd rfl h, nofun, nofun⟩
    intro v _ hv
    simp only [State.init, SequenceCacheNode.Contains, Before] at hv
    omega
  phase s := nofun

omit [DecidableEq Server] in
lemma PhaseInv.congr {returned returned' : List (Server × ℤ)} {phase : Phase}
    (h : PhaseInv schema returned server i phase)
    (hsub : ∀ u, (server, u) ∈ returned' → (server, u) ∈ returned) :
    PhaseInv schema returned' server i phase := by
  cases phase with
  | idle => exact fun u hu => h u (hsub u hu)
  | refill => exact ⟨h.1, fun u hu => h.2 u (hsub u hu)⟩
  | prefetch v =>
    obtain ⟨hbase, hlast, hwith, hne, hsize, hbefore⟩ := h
    exact ⟨hbase, hlast, hwith, hne, hsize, fun u hu => hbefore u (hsub u hu)⟩

section

variable (h : Inv schema st) (hitem : ItemInv schema (st.row schema) st.fetched server i)

include h hitem

/-- A local step of one server, which may return a number. -/
lemma Inv.local_step {phase : Phase} {returned : List (Server × ℤ)}
    (hreturned : ReturnedInv schema st.fetched returned)
    (hphase : PhaseInv schema returned server i phase)
    (hothers : ∀ s, s ≠ server → ∀ u, (s, u) ∈ returned → (s, u) ∈ st.returned) :
    Inv schema { st.setServer server i phase with returned := returned } where
  table := h.table
  returned := hreturned
  item s := by
    rcases eq_or_ne s server with rfl | hs
    · rw [State.setServer_items_same]
      exact hitem
    · rw [State.setServer_items_of_ne _ _ _ _ hs]
      exact h.item s
  phase s := by
    show PhaseInv schema returned s ((st.setServer server i phase).items s)
      ((st.setServer server i phase).phases s)
    rcases eq_or_ne s server with rfl | hs
    · rw [State.setServer_items_same, State.setServer_phases_same]
      exact hphase
    · rw [State.setServer_items_of_ne _ _ _ _ hs, State.setServer_phases_of_ne _ _ _ _ hs]
      exact (h.phase s).congr (hothers s hs)

lemma Inv.setServer {phase : Phase} (hphase : PhaseInv schema st.returned server i phase) :
    Inv schema (st.setServer server i phase) :=
  h.local_step hitem h.returned hphase fun _ _ _ hu => hu

/-- `nextval` returns the `last_number` of an item, which is beyond all numbers before. -/
lemma Inv.finish (hbase : i.baseOnLastNumber = true) (hlast : i.lastNumber = v)
    (hbefore : ∀ u, (server, u) ∈ st.returned → Before schema.incrementBy u v) :
    Inv schema (st.finish server i v) := by
  refine h.local_step hitem ⟨?_, ?_⟩ ?_ ?_
  · obtain ⟨hgrid, -, hfetched⟩ := hitem.last hbase
    rw [hlast] at hgrid hfetched
    exact forall_mem_cons.2 ⟨⟨hgrid, hfetched⟩, h.returned.fetched⟩
  · refine List.Pairwise.cons ?_ h.returned.monotone
    rintro ⟨s, u⟩ hu rfl
    exact hbefore u hu
  · intro u hu
    refine ⟨hbase, ?_⟩
    rcases mem_cons.1 hu with heq | hu
    · cases heq
      simp only [Before]
      omega
    · have := hbefore u hu
      simp only [Before] at *
      omega
  · intro s hs u hu
    rcases mem_cons.1 hu with heq | hu
    · cases heq
      exact absurd rfl hs
    · exact hu

end

/-- A number that was moved to is delivered, before or after a prefetch. -/
lemma Inv.deliver (h : Inv schema st) {i' : SequenceCacheItem}
    (hmoved : Moved schema (st.row schema) st.fetched server i i' v)
    (hold : ∀ u, (server, u) ∈ st.returned →
      i.baseOnLastNumber = true ∧ ¬ Before schema.incrementBy i.lastNumber u) :
    Inv schema (st.deliver schema server i' v) := by
  have hbefore : ∀ u, (server, u) ∈ st.returned → Before schema.incrementBy u v := by
    intro u hu
    obtain ⟨hbase, hle⟩ := hold u hu
    have := hmoved.before hbase
    simp only [Before] at *
    omega
  rw [State.deliver]
  split_ifs with hwants
  · simp only [wantsPrefetch, Bool.and_eq_true, decide_eq_true_iff, Bool.not_eq_true'] at hwants
    obtain ⟨⟨⟨⟨-, hsize⟩, -⟩, hwith⟩, -⟩ := hwants
    refine h.setServer ?_ ⟨hmoved.base, hmoved.last, hwith, hmoved.nonempty, hsize, hbefore⟩
    exact ⟨hmoved.item.ordered, hmoved.item.grid, hmoved.item.covered, hmoved.item.end_le,
      hmoved.item.prefetched, hmoved.item.last⟩
  · exact h.finish hmoved.item hmoved.base hmoved.last hbefore

/-! ### Transactions -/

omit [DecidableEq Server] in
/-- The batch of a transaction is the newest, and everything before it lies behind its start. -/
lemma TableInv.fetch {row row' : ℤ} {fetched : List (Server × SequenceCacheNode)}
    {b : SequenceCacheNode} (hcycle : schema.cycleFlag = false) (h : TableInv schema row fetched)
    (hnext : nextBatch schema row = .ok (row', b)) (server : Server) :
    (row = row' ∨ Before schema.incrementBy row row') ∧ b.inclusiveStart = row
      ∧ (1 < schema.cacheSize → schema.incrementBy ≠ 0 → b.inclusiveStart ≠ b.exclusiveEnd)
      ∧ TableInv schema row' fetched ∧ TableInv schema row' ((server, b) :: fetched) := by
  obtain ⟨rfl, hgrid, hrow, hgrid', hfull⟩ := nextBatch_spec hcycle h.next hnext
  have hold : ∀ p ∈ fetched, BatchInv schema row' p.2 := fun p hp => (h.batch p hp).mono hrow
  have hnew : BatchInv schema row' ⟨row, row'⟩ := by
    refine ⟨hrow, hgrid, ?_⟩
    simp only [Before]
    omega
  refine ⟨hrow, rfl, hfull, ⟨hgrid', hold, h.disjoint⟩, hgrid', ?_, ?_⟩
  · exact forall_mem_cons.2 ⟨hnew, hold⟩
  · exact h.disjoint.cons fun p hp => (h.batch p hp).end_le

omit [DecidableEq Server] in
lemma Inv.table_step (h : Inv schema st) {row' : ℤ}
    {fetched' : List (Server × SequenceCacheNode)} (htable : TableInv schema row' fetched')
    (hsub : st.fetched ⊆ fetched')
    (hrow : st.row schema = row' ∨ Before schema.incrementBy (st.row schema) row') :
    Inv schema { st with nextValue := some row', fetched := fetched' } where
  table := htable
  returned := by
    refine ⟨fun p hp => ?_, h.returned.monotone⟩
    obtain ⟨hgrid, hfetched⟩ := h.returned.fetched p hp
    exact ⟨hgrid, hfetched.mono hsub⟩
  item s := (h.item s).mono hsub hrow
  phase := h.phase

/-- A batch that a server gets from its transaction: it lies behind all the server had before. -/
structure Got {Server : Type} (schema : SequenceSchema) (st : State Server) (server : Server)
    (b : SequenceCacheNode) : Prop where
  mem : (server, b) ∈ st.fetched
  full : 1 < schema.cacheSize → schema.incrementBy ≠ 0 → b.inclusiveStart ≠ b.exclusiveEnd
  behind_curr :
    (st.items server).currNode.inclusiveStart ≠ (st.items server).currNode.exclusiveEnd →
      ¬ Before schema.incrementBy b.inclusiveStart (st.items server).currNode.exclusiveEnd
  behind_last : (st.items server).baseOnLastNumber = true →
    ¬ Before schema.incrementBy b.inclusiveStart (st.items server).lastNumber

omit [DecidableEq Server] in
lemma Inv.transaction (hcycle : schema.cycleFlag = false) (h : Inv schema st) (server : Server)
    (outcome : Outcome) : Inv schema (st.transaction schema server outcome).2
      ∧ (st.transaction schema server outcome).2.phases = st.phases
      ∧ ∀ b, (st.transaction schema server outcome).1 = .ok b →
        Got schema (st.transaction schema server outcome).2 server b := by
  cases outcome with
  | rolledBack => exact ⟨h, rfl, nofun⟩
  | answerLost =>
    rw [State.transaction]
    cases hnext : nextBatch schema (st.row schema) with
    | error err => exact ⟨h, rfl, nofun⟩
    | ok r =>
      obtain ⟨hrow, -, -, htable, -⟩ := h.table.fetch hcycle hnext server
      exact ⟨h.table_step htable (List.Subset.refl _) hrow, rfl, nofun⟩
  | committed =>
    rw [State.transaction]
    cases hnext : nextBatch schema (st.row schema) with
    | error err => exact ⟨h, rfl, nofun⟩
    | ok r =>
      obtain ⟨hrow, hstart, hfull, -, htable⟩ := h.table.fetch hcycle hnext server
      refine ⟨h.table_step htable (subset_cons_self _ _) hrow, rfl, ?_⟩
      rintro b ⟨⟩
      refine ⟨mem_cons_self, hfull, ?_, ?_⟩
      · intro hne
        rw [hstart]
        exact (h.item server).end_le hne
      · intro hbase
        obtain ⟨-, -, b', hb', hin⟩ := (h.item server).last hbase
        have hend := (h.table.batch _ hb').end_le
        have hlast := hin.2
        simp only [Before] at *
        omega

/-- The batch of a refill becomes the current node, and a number is taken from it. -/
lemma Inv.afterRefill (hcycle : schema.cycleFlag = false) (h : Inv schema st)
    (hphase : st.phases server = .refill) {res : Except Err SequenceCacheNode}
    (hgot : ∀ b, res = .ok b → Got schema st server b) :
    Inv schema (State.afterRefill schema server (res, st)) := by
  have hp := h.phase server
  rw [hphase] at hp
  obtain ⟨hwith, hold⟩ := hp
  cases res with
  | error err => exact h.setServer (h.item server) hold
  | ok b =>
    have hb := h.table.batch _ (hgot b rfl).mem
    have haccept : (st.items server).acceptBatch schema b
        = (false, { st.items server with currNode := b }) := by
      rw [acceptBatch, hcycle, Bool.false_and, if_neg Bool.false_ne_true]
    have hitem : ItemInv schema (st.row schema) st.fetched server
        { st.items server with currNode := b } := by
      refine ⟨hb.ordered, fun _ => hb.grid, fun v _ hv => ⟨b, (hgot b rfl).mem, hv⟩,
        fun _ => hb.end_le, ?_, ?_⟩
      · intro hpre
        exact absurd (hwith.symm.trans hpre) Bool.false_ne_true
      · intro hbase
        obtain ⟨hgrid, -, hin⟩ := (h.item server).last hbase
        exact ⟨hgrid, (hgot b rfl).behind_last hbase, hin⟩
    rw [State.afterRefill, haccept]
    rcases hitem.moveNext hcycle h.table.batch with
      ⟨v, i', hmove, hmoved⟩ | ⟨i', hmove, hitem', hbase, hlast, -⟩
    · simp only [hmove]
      exact h.deliver hmoved hold
    · simp only [hmove]
      refine h.setServer hitem' fun u hu => ?_
      rw [hbase, hlast]
      exact hold u hu

/-- After the transaction of a prefetch the number that was taken before it is returned. -/
lemma Inv.afterPrefetch (h : Inv schema st) (hphase : st.phases server = .prefetch v)
    {res : Except Err SequenceCacheNode} (hgot : ∀ b, res = .ok b → Got schema st server b) :
    Inv schema (State.afterPrefetch server v (res, st)) := by
  have hp := h.phase server
  rw [hphase] at hp
  obtain ⟨hbase, hlast, hwith, hne, hsize, hbefore⟩ := hp
  have hitem := h.item server
  cases res with
  | error err =>
    exact h.finish ⟨hitem.ordered, hitem.grid, hitem.covered, hitem.end_le, hitem.prefetched,
      hitem.last⟩ hbase hlast hbefore
  | ok b =>
    rw [State.afterPrefetch, if_neg (by rw [hwith]; exact Bool.false_ne_true)]
    have hinc : schema.incrementBy ≠ 0 := by
      have hordered := hitem.ordered
      simp only [Before] at hordered
      omega
    refine h.finish ⟨hitem.ordered, hitem.grid, hitem.covered, hitem.end_le, fun _ => ?_,
      hitem.last⟩ hbase hlast hbefore
    exact ⟨hne, (hgot b rfl).mem, (hgot b rfl).full hsize hinc, (hgot b rfl).behind_curr hne⟩

/-- One event keeps the invariant. -/
theorem Inv.step (hcycle : schema.cycleFlag = false) (h : Inv schema st) (e : Event Server) :
    Inv schema (st.step schema e) := by
  cases e with
  | call server =>
    rw [State.step]
    cases hphase : st.phases server with
    | idle =>
      have hold := h.phase server
      rw [hphase] at hold
      rcases (h.item server).moveNext hcycle h.table.batch with
        ⟨v, i', hmove, hmoved⟩ | ⟨i', hmove, hitem, hbase, hlast, hwith⟩
      · simp only [hmove]
        exact h.deliver hmoved hold
      · simp only [hmove]
        refine h.setServer hitem ⟨hwith, fun u hu => ?_⟩
        rw [hbase, hlast]
        exact hold u hu
    | refill => exact h
    | prefetch v => exact h
  | transact server outcome =>
    rw [State.step]
    obtain ⟨h', hphases, hgot⟩ := h.transaction hcycle server outcome
    cases hphase : st.phases server with
    | idle => exact h
    | refill => exact h'.afterRefill hcycle (by rw [hphases, hphase]) hgot
    | prefetch v => exact h'.afterPrefetch (by rw [hphases, hphase]) hgot

/-- A whole run keeps it. -/
theorem Inv.run (hcycle : schema.cycleFlag = false) (h : Inv schema st)
    (events : List (Event Server)) : Inv schema (st.run schema events) := by
  induction events generalizing st with
  | nil => exact h
  | cons e es ih => exact ih (h.step hcycle e)

/-- One of the two batches ends before the other starts. -/
def Apart (inc : ℤ) (b c : SequenceCacheNode) : Prop :=
  ¬ Before inc b.inclusiveStart c.exclusiveEnd ∨ ¬ Before inc c.inclusiveStart b.exclusiveEnd

instance (inc : ℤ) : Std.Symm fun p q : Server × SequenceCacheNode => Apart inc p.2 q.2 :=
  ⟨fun _ _ h => Or.symm h⟩

omit [DecidableEq Server] in
/-- Two numbers of different servers differ, for their batches do not overlap. -/
lemma TableInv.ne_of_fetched {row u v : ℤ} {fetched : List (Server × SequenceCacheNode)}
    (h : TableInv schema row fetched) {s t : Server} (hst : s ≠ t)
    (hu : Fetched schema.incrementBy fetched s u) (hv : Fetched schema.incrementBy fetched t v) :
    u ≠ v := by
  obtain ⟨b, hb, hbu⟩ := hu
  obtain ⟨c, hc, hcv⟩ := hv
  have hpairs : fetched.Pairwise fun p q => Apart schema.incrementBy p.2 q.2 :=
    h.disjoint.imp fun hpq => .inl hpq
  have hapart := hpairs.forall hb hc fun heq => hst (Prod.mk.inj heq).1
  simp only [Apart, SequenceCacheNode.Contains, Before] at *
  omega

/-- **No number twice.** In every run of a sequence that does not cycle, whatever calls and
transactions interleave and whichever fail: the batches advance without overlap; the numbers
returned are pairwise distinct; each lies in a batch that its server fetched, a multiple of the
increment from the start of the batch; and on each server they advance strictly. The lists are
newest first. -/
theorem nextval_distinct (schema : SequenceSchema) (hcycle : schema.cycleFlag = false)
    (events : List (Event Server)) (st : State Server)
    (hst : st = (State.init Server).run schema events) : (st.fetched.Pairwise fun p q =>
        ¬ Before schema.incrementBy p.2.inclusiveStart q.2.exclusiveEnd)
      ∧ (st.returned.map Prod.snd).Nodup ∧ (∀ s v, (s, v) ∈ st.returned → ∃ b, (s, b) ∈ st.fetched
        ∧ b.Contains schema.incrementBy v ∧ schema.incrementBy ∣ v - b.inclusiveStart)
      ∧ st.returned.Pairwise fun p q => p.1 = q.1 → Before schema.incrementBy q.2 p.2 := by
  have h : Inv schema st := hst ▸ (inv_init schema).run hcycle events
  refine ⟨h.table.disjoint, ?_, ?_, h.returned.monotone⟩
  · rw [List.Nodup, pairwise_map]
    refine h.returned.monotone.imp_of_mem ?_
    intro p q hp hq hpq
    rcases eq_or_ne p.1 q.1 with hsame | hother
    · have := hpq hsame
      simp only [Before] at this
      omega
    · exact h.table.ne_of_fetched hother (h.returned.fetched p hp).2 (h.returned.fetched q hq).2
  · intro s v hv
    obtain ⟨hgrid, b, hb, hin⟩ := h.returned.fetched _ hv
    refine ⟨b, hb, hin, ?_⟩
    have hdvd := dvd_sub hgrid (h.table.batch _ hb).grid
    rwa [sub_sub_sub_cancel_right] at hdvd

end System

/-- Two servers on one sequence by `-3` from `10`, which ends at `-8`. -/
def countdown : SequenceSchema := ⟨-3, 10, -8, 10, 2, false, false⟩

def countdownEvents : List (Event Bool) :=
  [.call true, .transact true .committed, .transact true .committed, .call false,
    .transact false .committed, .transact false .rolledBack, .call true, .call true,
    .transact true .committed]

theorem nextval_distinct_countdown : ((State.init Bool).run countdown countdownEvents).returned
        = [(true, 4), (true, 7), (false, -2), (true, 10)]
      ∧ (((State.init Bool).run countdown countdownEvents).returned.map Prod.snd).Nodup :=
  ⟨by decide, (nextval_distinct countdown rfl countdownEvents _ rfl).2.1⟩

end OceanBase.Sequence
