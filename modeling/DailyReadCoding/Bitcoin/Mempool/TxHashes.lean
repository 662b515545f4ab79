import Mathlib

/-!
# The hashes of the memory pool

`CTxMemPool` (`txmempool.cpp`) keeps in `vTxHashes` the witness hash and an iterator of each entry
of `mapTx`, and in the entry the index.  An iterator is the hash of its entry.

`consistent_iff` says which sequences of operations keep the two in step: those in which `clear`
drops no entry, since it leaves `vTxHashes` as it is, and no transaction is added twice.
-/

namespace Bitcoin.Mempool

open Function

/-- What these functions read and write of a `CTxMemPoolEntry` -/
structure Entry (H : Type) where
  witnessHash : H
  vTxHashesIdx : ℕ

structure TxMemPool (H : Type) where
  mapTx : H → Option (Entry H)
  vTxHashes : List (H × H)

namespace TxMemPool

variable {H : Type}

def new : TxMemPool H := ⟨fun _ => none, []⟩

section Operations

variable [DecidableEq H] (pool : TxMemPool H)

/-- `CTxMemPool::addUnchecked`; `insert` leaves an entry of the same hash as it is. -/
def addUnchecked (hash wtxid : H) : TxMemPool H :=
  let entry := (pool.mapTx hash).getD ⟨wtxid, 0⟩
  { mapTx := update pool.mapTx hash (some { entry with vTxHashesIdx := pool.vTxHashes.length })
    vTxHashes := pool.vTxHashes ++ [(entry.witnessHash, hash)] }

/-- `CTxMemPool::removeUnchecked`, where the iterator, its index and the iterator at the end of
`vTxHashes` are valid. -/
def removeUnchecked (it : H) : Option (TxMemPool H) := do
  let entry ← pool.mapTx it
  let idx := entry.vTxHashesIdx
  if pool.vTxHashes.length > 1 then
    let back ← pool.vTxHashes.getLast?
    let _ ← pool.vTxHashes[idx]?
    let moved ← pool.mapTx back.2
    some
      { mapTx := update (update pool.mapTx back.2 (some { moved with vTxHashesIdx := idx })) it none
        vTxHashes := (pool.vTxHashes.set idx back).dropLast }
  else some ⟨update pool.mapTx it none, []⟩

end Operations

def clear (pool : TxMemPool H) : TxMemPool H := { pool with mapTx := fun _ => none }

/-- `vTxHashes` has exactly one element per entry, at the index that the entry knows. -/
structure Consistent (pool : TxMemPool H) : Prop where
  element : ∀ it entry, pool.mapTx it = some entry →
    (pool.vTxHashes[entry.vTxHashesIdx]?).map Prod.snd = some it
  entry : ∀ i wtxid it, pool.vTxHashes[i]? = some (wtxid, it) →
    ∃ entry, pool.mapTx it = some entry ∧ entry.vTxHashesIdx = i

lemma new_consistent : (new : TxMemPool H).Consistent := ⟨by simp [new], by simp [new]⟩

variable [DecidableEq H] {pool : TxMemPool H}

lemma Consistent.addUnchecked {hash : H} (h : pool.Consistent) (w : H)
    (hnew : pool.mapTx hash = none) : (pool.addUnchecked hash w).Consistent := by
  simp only [TxMemPool.addUnchecked, hnew, Option.getD_none]
  constructor
  · intro it entry hentry
    have hold := h.element it
    grind [update_apply]
  · intro i wtxid it hi
    rw [List.getElem?_append] at hi
    split_ifs at hi with hlt
    · obtain ⟨entry, hentry, hidx⟩ := h.entry i wtxid it hi
      have hne : it ≠ hash := by
        rintro rfl
        simp [hnew] at hentry
      exact ⟨entry, (update_of_ne hne _ _).trans hentry, hidx⟩
    · obtain ⟨hle, -, rfl⟩ : i ≤ pool.vTxHashes.length ∧ w = wtxid ∧ hash = it := by
        simpa [List.getElem?_singleton, Nat.sub_eq_zero_iff_le] using hi
      exact ⟨_, update_self .., by simp only; omega⟩

/-- The last element takes the place of the one that is removed. -/
lemma Consistent.removeUnchecked {it : H} {entry : Entry H} (h : pool.Consistent)
    (hit : pool.mapTx it = some entry) : ∃ q, pool.removeUnchecked it = some q ∧ q.Consistent := by
  obtain ⟨⟨wtxid, _⟩, hat, rfl⟩ := Option.map_eq_some_iff.1 (h.element it entry hit)
  simp only [TxMemPool.removeUnchecked, hit, Option.bind_eq_bind, Option.bind_some]
  split_ifs with hlen
  · obtain ⟨⟨wback, back⟩, hback⟩ : ∃ back,
      pool.vTxHashes[pool.vTxHashes.length - 1]? = some back :=
      ⟨_, List.getElem?_eq_getElem (by omega)⟩
    obtain ⟨moved, hmoved, hlast⟩ := h.entry _ _ _ hback
    simp only [List.getLast?_eq_getElem?, hback, hat, Option.bind_some, hmoved]
    refine ⟨_, rfl, ?_, ?_⟩
    -- an entry that stays has another index than `it`, and unless it is the one moved, than the
    -- last
    · intro it' entry' hentry'
      have hold := h.element it'
      grind [update_apply]
    · intro i wtxid' it' hi
      have hold := h.entry i wtxid' it'
      grind [update_apply]
  · refine ⟨_, rfl, ?_, by simp⟩
    intro it' entry' hentry'
    have hold := h.element it'
    grind [update_apply]

/-- Adding a transaction again breaks the agreement at once: the old element stays. -/
lemma addUnchecked_consistent_iff (h : pool.Consistent) (hash w : H) :
    (pool.addUnchecked hash w).Consistent ↔ pool.mapTx hash = none := by
  refine ⟨fun hadded => ?_, h.addUnchecked w⟩
  by_contra hold
  obtain ⟨entry, hentry⟩ := Option.ne_none_iff_exists'.1 hold
  obtain ⟨⟨wtxid, it⟩, hat, rfl⟩ := Option.map_eq_some_iff.1 (h.element hash entry hentry)
  have hlt := (List.getElem?_eq_some_iff.1 hat).1
  have hkept : (pool.addUnchecked it w).vTxHashes[entry.vTxHashesIdx]? = some (wtxid, it) :=
    (List.getElem?_append_left hlt).trans hat
  obtain ⟨moved, hmoved, hidx⟩ := hadded.entry _ _ _ hkept
  cases (update_self it _ _).symm.trans hmoved
  exact Nat.ne_of_gt hlt hidx

omit [DecidableEq H] in
/-- Clearing breaks the agreement at once where there is an entry. -/
lemma clear_consistent_iff (h : pool.Consistent) :
    pool.clear.Consistent ↔ ∀ it, pool.mapTx it = none := by
  constructor
  · intro hclear it
    by_contra hold
    obtain ⟨entry, hentry⟩ := Option.ne_none_iff_exists'.1 hold
    obtain ⟨⟨wtxid, it⟩, hat, rfl⟩ := Option.map_eq_some_iff.1 (h.element it entry hentry)
    obtain ⟨_, hnone, -⟩ := hclear.entry _ _ _ hat
    cases hnone
  · intro hempty
    obtain ⟨mapTx, vTxHashes⟩ := pool
    obtain rfl : mapTx = fun _ => none := funext hempty
    exact h

/-! ## Sequences of operations -/

inductive Operation (H : Type)
  | addUnchecked (hash wtxid : H)
  | removeUnchecked (it : H)
  | clear

/-- The pool after an operation, where that is defined. -/
def Operation.apply (pool : TxMemPool H) : Operation H → Option (TxMemPool H)
  | .addUnchecked hash wtxid => some (pool.addUnchecked hash wtxid)
  | .removeUnchecked it => pool.removeUnchecked it
  | .clear => some pool.clear

/-- Transactions are added that are not in the pool, and an empty pool is cleared. -/
def Operation.Keeps (pool : TxMemPool H) : Operation H → Prop
  | .addUnchecked hash _ => pool.mapTx hash = none
  | .removeUnchecked _ => True
  | .clear => ∀ it, pool.mapTx it = none

/-- The pools on the way, as far as the operations are defined. -/
def states : TxMemPool H → List (Operation H) → List (TxMemPool H)
  | pool, [] => [pool]
  | pool, op :: ops => pool :: ((op.apply pool).map (states · ops)).getD []

/-- Every operation is one that keeps the agreement in the pool before it. -/
def AllKeep : TxMemPool H → List (Operation H) → Prop
  | _, [] => True
  | pool, op :: ops => op.Keeps pool ∧ ∀ q ∈ op.apply pool, AllKeep q ops

/-- One step: the pool stays consistent iff the operation's condition holds before it. -/
lemma apply_consistent_iff {q : TxMemPool H} {op : Operation H} (h : pool.Consistent)
    (hq : op.apply pool = some q) : q.Consistent ↔ op.Keeps pool := by
  cases op with
  | addUnchecked hash wtxid =>
    cases hq
    exact addUnchecked_consistent_iff h hash wtxid
  | removeUnchecked it =>
    refine iff_of_true ?_ trivial
    cases hit : pool.mapTx it with
    | none => simp [Operation.apply, TxMemPool.removeUnchecked, hit] at hq
    | some entry =>
      obtain ⟨r, hsome, hcons⟩ := h.removeUnchecked hit
      cases hq.symm.trans hsome
      exact hcons
  | clear =>
    cases hq
    exact clear_consistent_iff h

/-- The whole run, by induction on the operations. -/
lemma states_consistent_iff (ops : List (Operation H)) (h : pool.Consistent) :
    (∀ q ∈ states pool ops, q.Consistent) ↔ AllKeep pool ops := by
  induction ops generalizing pool with
  | nil => simpa [states, AllKeep] using h
  | cons op ops ih =>
    rw [states, AllKeep, List.forall_mem_cons, and_iff_right h]
    cases hq : op.apply pool with
    | none =>
      -- Only a removal may be undefined, and that is nothing that breaks the agreement.
      cases op with
      | addUnchecked hash wtxid => cases hq
      | removeUnchecked it => simp [Operation.Keeps]
      | clear => cases hq
    | some q =>
      have hstep := apply_consistent_iff h hq
      simp only [Option.map_some, Option.getD_some, Option.mem_some_iff, forall_eq']
      constructor
      · intro hall
        have hhead : q.Consistent := by
          refine hall q ?_
          cases ops <;> simp [states]
        exact ⟨hstep.1 hhead, (ih hhead).1 hall⟩
      · rintro ⟨hkeeps, hrest⟩
        exact (ih (hstep.2 hkeeps)).2 hrest

/-- **The hashes of the memory pool.**  `vTxHashes` agrees with the entries in every pool on the
way, and each entry can be removed, if and only if every operation keeps the agreement. -/
theorem consistent_iff (ops : List (Operation H)) : (∀ pool ∈ states new ops, pool.Consistent ∧
      ∀ it, (pool.mapTx it).isSome → ∃ q, pool.removeUnchecked it = some q) ↔ AllKeep new ops := by
  rw [← states_consistent_iff ops new_consistent]
  refine forall₂_congr fun pool _ => and_iff_left_of_imp fun hcons it hit => ?_
  obtain ⟨entry, hentry⟩ := Option.isSome_iff_exists.1 hit
  obtain ⟨q, hsome, -⟩ := hcons.removeUnchecked hentry
  exact ⟨q, hsome⟩

/-- Three transactions are added and the first is removed, so that the last one takes its place. -/
theorem consistent_iff_removed :
    (states new [.addUnchecked 1 2, .addUnchecked 3 4, .addUnchecked 5 6,
      .removeUnchecked 1]).map vTxHashes =
        [[], [(2, 1)], [(2, 1), (4, 3)], [(2, 1), (4, 3), (6, 5)], [(6, 5), (4, 3)]] ∧
    ∀ pool ∈ states new [.addUnchecked 1 2, .addUnchecked 3 4, .addUnchecked 5 6,
      .removeUnchecked 1], pool.Consistent ∧
        ∀ it, (pool.mapTx it).isSome → ∃ q, pool.removeUnchecked it = some q := by
  refine ⟨rfl, (consistent_iff _).mpr ⟨rfl, fun p₁ h₁ => ?_⟩⟩
  cases h₁
  refine ⟨rfl, fun p₂ h₂ => ?_⟩
  cases h₂
  refine ⟨rfl, fun p₃ h₃ => ⟨trivial, fun _ _ => trivial⟩⟩

/-- The element of a transaction stays when `clear` drops its entry. -/
theorem clear_inconsistent : ¬ (addUnchecked new 1 2).clear.Consistent := by
  intro h
  obtain ⟨entry, hentry, -⟩ := h.entry 0 2 1 rfl
  cases hentry

end TxMemPool

end Bitcoin.Mempool
