import Mathlib

/-!
# `ObSequenceCache` and `ObSequenceDMLProxy::next_batch`

A sequence has one row in a system table, its `next_value`.  A server takes a batch of numbers with
one transaction on that row and hands them out from its own cache item; while more than a quarter of
a batch is left it also prefetches the next one.

The mutex of the cache item is held during the whole of `nextval`, so what one server does is a
sequence of local steps with a transaction between them; the transactions of different servers come
in any order.  `Phase` is where a server waits for its transaction, and `step` is one call entering
`nextval`, or one transaction together with the local step that follows it.

The numbers are integers, and their arithmetic does not fail.
-/

namespace OceanBase.Sequence

inductive Err
  | seqValueExceedLimit
  | transactionFailed
  deriving DecidableEq, Repr

/-- The options of a sequence. -/
structure SequenceSchema where
  incrementBy : ℤ
  startWith : ℤ
  minValue : ℤ
  maxValue : ℤ
  cacheSize : ℕ
  cycleFlag : Bool
  orderFlag : Bool
  deriving DecidableEq, Repr

/-- A range of numbers, from `inclusiveStart` in the direction of the increment. -/
structure SequenceCacheNode where
  inclusiveStart : ℤ := 0
  exclusiveEnd : ℤ := 0
  deriving DecidableEq, Repr

structure SequenceCacheItem where
  currNode : SequenceCacheNode := {}
  prefetchNode : SequenceCacheNode := {}
  prefetching : Bool := false
  withPrefetchNode : Bool := false
  baseOnLastNumber : Bool := false
  lastNumber : ℤ := 0
  deriving DecidableEq, Repr

/-! ## The table -/

/-- What `next_batch` makes of the `next_value` it reads: the new `next_value` and the batch. -/
def nextBatch (schema : SequenceSchema) (nextValue : ℤ) : Except Err (ℤ × SequenceCacheNode) :=
  let cacheSize : ℤ := if schema.orderFlag then 1 else schema.cacheSize
  let cacheExclusiveEnd := schema.incrementBy * cacheSize + nextValue
  if schema.incrementBy > 0 ∧ cacheExclusiveEnd > schema.maxValue then
    if schema.cycleFlag then .ok (schema.minValue, ⟨nextValue, schema.maxValue + 1⟩)
    else if nextValue > schema.maxValue then .error .seqValueExceedLimit
    else .ok (schema.maxValue + 1, ⟨nextValue, schema.maxValue + 1⟩)
  else if schema.incrementBy < 0 ∧ cacheExclusiveEnd < schema.minValue then
    if schema.cycleFlag then .ok (schema.maxValue, ⟨nextValue, schema.minValue - 1⟩)
    else if nextValue < schema.minValue then .error .seqValueExceedLimit
    else .ok (schema.minValue - 1, ⟨nextValue, schema.minValue - 1⟩)
  else .ok (cacheExclusiveEnd, ⟨nextValue, cacheExclusiveEnd⟩)

/-! ## The cache item -/

namespace SequenceCacheItem

def combinePrefetchNode (cache : SequenceCacheItem) : SequenceCacheItem :=
  if cache.withPrefetchNode then
    { cache with
      currNode :=
        ⟨if cache.currNode.exclusiveEnd ≠ cache.prefetchNode.inclusiveStart then
            cache.prefetchNode.inclusiveStart
          else cache.currNode.inclusiveStart,
          cache.prefetchNode.exclusiveEnd⟩
      withPrefetchNode := false }
  else cache

/-- The current node has no number left after `last_number`. -/
def usedUp (incrementBy : ℤ) (cache : SequenceCacheItem) : Bool :=
  if incrementBy > 0 then
    !(cache.currNode.inclusiveStart < cache.lastNumber)
      && cache.currNode.exclusiveEnd - cache.lastNumber ≤ incrementBy
  else
    !(cache.currNode.inclusiveStart > cache.lastNumber)
      && cache.currNode.exclusiveEnd - cache.lastNumber ≥ incrementBy

/-- Whether a refill is needed; on the way a prefetched node is combined. -/
def needRefillCache (schema : SequenceSchema) (cache : SequenceCacheItem) :
    Bool × SequenceCacheItem :=
  if cache.currNode.inclusiveStart = cache.currNode.exclusiveEnd then (true, cache)
  else if !cache.baseOnLastNumber then (false, cache)
  else if cache.usedUp schema.incrementBy && cache.withPrefetchNode then
    (cache.combinePrefetchNode.usedUp schema.incrementBy, cache.combinePrefetchNode)
  else (cache.usedUp schema.incrementBy, cache)

/-- The numbers start over behind `last_number`. -/
def cycled (schema : SequenceSchema) (cache : SequenceCacheItem) : Bool :=
  schema.cycleFlag
    && ((schema.incrementBy > 0 && cache.currNode.inclusiveStart < cache.lastNumber)
      || (schema.incrementBy < 0 && cache.currNode.inclusiveStart > cache.lastNumber))

/-- The start of the node moved up to the number after `last_number`. -/
def movedStart (incrementBy : ℤ) (cache : SequenceCacheItem) : ℤ :=
  let newStart := cache.lastNumber + incrementBy
  if incrementBy > 0 then
    if newStart > cache.currNode.inclusiveStart then newStart else cache.currNode.inclusiveStart
  else
    if newStart < cache.currNode.inclusiveStart then newStart else cache.currNode.inclusiveStart

/-- The number that `move_next` takes from a node that need not be refilled. -/
def takeNext (schema : SequenceSchema) (cache : SequenceCacheItem) : ℤ × SequenceCacheItem :=
  if !cache.baseOnLastNumber then
    (cache.currNode.inclusiveStart,
      { cache with baseOnLastNumber := true, lastNumber := cache.currNode.inclusiveStart })
  else if cache.cycled schema then
    (cache.currNode.inclusiveStart, { cache with lastNumber := cache.currNode.inclusiveStart })
  else
    let start := cache.movedStart schema.incrementBy
    (start, { cache with
      currNode := ⟨start, cache.currNode.exclusiveEnd⟩
      lastNumber := start })

/-- Nothing stands for `OB_SIZE_OVERFLOW`. -/
def moveNext (schema : SequenceSchema) (cache : SequenceCacheItem) : Option ℤ × SequenceCacheItem :=
  match cache.needRefillCache schema with
  | (true, cache') => (none, cache')
  | (false, cache') =>
    let r := cache'.takeNext schema
    (some r.1, r.2)

/-- What `refill_sequence_cache` does with a batch it got, and whether it has to fetch another. -/
def acceptBatch (schema : SequenceSchema) (cache : SequenceCacheItem)
    (nextRange : SequenceCacheNode) : Bool × SequenceCacheItem :=
  if schema.cycleFlag && cache.baseOnLastNumber then
    if schema.incrementBy > 0 then
      if cache.currNode.inclusiveStart > nextRange.inclusiveStart then
        (false, { cache with baseOnLastNumber := false, currNode := nextRange })
      else if cache.lastNumber + schema.incrementBy ≥ nextRange.exclusiveEnd then
        (true, { cache with baseOnLastNumber := false })
      else (false, { cache with currNode := nextRange })
    else
      if cache.currNode.inclusiveStart < nextRange.inclusiveStart then
        (false, { cache with baseOnLastNumber := false, currNode := nextRange })
      else if cache.lastNumber + schema.incrementBy ≤ nextRange.exclusiveEnd then
        (true, { cache with baseOnLastNumber := false })
      else (false, { cache with currNode := nextRange })
  else (false, { cache with currNode := nextRange })

def PREFETCH_OP_THRESHOLD : ℤ := 4

def wantsPrefetch (schema : SequenceSchema) (cache : SequenceCacheItem) : Bool :=
  !cache.prefetching && schema.cacheSize > 1 && !schema.orderFlag && !cache.withPrefetchNode
    && |(cache.currNode.exclusiveEnd - cache.currNode.inclusiveStart) * PREFETCH_OP_THRESHOLD|
      > |schema.incrementBy * schema.cacheSize|

end SequenceCacheItem

/-! ## Servers and runs -/

/-- Where a server is in `nextval`: outside, before a refill, or before a prefetch with the number
to return. -/
inductive Phase
  | idle
  | refill
  | prefetch (nextval : ℤ)
  deriving DecidableEq, Repr

/-- What becomes of a transaction. If the answer is lost, the row is updated but the server sees an
error. -/
inductive Outcome
  | committed
  | rolledBack
  | answerLost
  deriving DecidableEq, Repr

/-- The row, the cache items, and the batches fetched and numbers returned so far, newest first. -/
structure State (Server : Type) where
  nextValue : Option ℤ
  items : Server → SequenceCacheItem
  phases : Server → Phase
  fetched : List (Server × SequenceCacheNode)
  returned : List (Server × ℤ)

inductive Event (Server : Type)
  | call (server : Server)
  | transact (server : Server) (outcome : Outcome)

variable {Server : Type} [DecidableEq Server]

def State.init (Server : Type) : State Server := ⟨none, fun _ => {}, fun _ => .idle, [], []⟩

namespace State

def setServer (st : State Server) (server : Server) (item : SequenceCacheItem) (phase : Phase) :
    State Server :=
  { st with
    items := Function.update st.items server item
    phases := Function.update st.phases server phase }

section SetServer

variable (st : State Server) (server : Server) (item : SequenceCacheItem) (phase : Phase)

@[simp] lemma setServer_items_same : (st.setServer server item phase).items server = item := by
  simp [setServer]

@[simp] lemma setServer_phases_same : (st.setServer server item phase).phases server = phase := by
  simp [setServer]

lemma setServer_items_of_ne {s : Server} (hs : s ≠ server) :
    (st.setServer server item phase).items s = st.items s := by
  simp [setServer, Function.update_of_ne hs]

lemma setServer_phases_of_ne {s : Server} (hs : s ≠ server) :
    (st.setServer server item phase).phases s = st.phases s := by
  simp [setServer, Function.update_of_ne hs]

end SetServer

/-- `nextval` returns a number. -/
def finish (st : State Server) (server : Server) (item : SequenceCacheItem) (nextval : ℤ) :
    State Server :=
  { st.setServer server item .idle with returned := (server, nextval) :: st.returned }

/-- `nextval` has a number; before it returns, it may prefetch. -/
def deliver (schema : SequenceSchema) (st : State Server) (server : Server)
    (item : SequenceCacheItem) (nextval : ℤ) : State Server :=
  if item.wantsPrefetch schema then
    st.setServer server { item with prefetching := true } (.prefetch nextval)
  else st.finish server item nextval

/-- The row that `next_batch` reads; the first reader inserts it. -/
def row (schema : SequenceSchema) (st : State Server) : ℤ := st.nextValue.getD schema.startWith

/-- The transaction of `next_batch`: what the server gets, and the table afterwards. -/
def transaction (schema : SequenceSchema) (st : State Server) (server : Server) :
    Outcome → Except Err SequenceCacheNode × State Server
  | .rolledBack => (.error .transactionFailed, st)
  | .answerLost =>
    match nextBatch schema (st.row schema) with
    | .error err => (.error err, st)
    | .ok (nextValue, _) => (.error .transactionFailed, { st with nextValue := some nextValue })
  | .committed =>
    match nextBatch schema (st.row schema) with
    | .error err => (.error err, st)
    | .ok (nextValue, batch) =>
      (.ok batch, { st with
        nextValue := some nextValue
        fetched := (server, batch) :: st.fetched })

/-- The refill after its transaction. -/
def afterRefill (schema : SequenceSchema) (server : Server) :
    Except Err SequenceCacheNode × State Server → State Server
  | (.error _, st) => st.setServer server (st.items server) .idle
  | (.ok batch, st) =>
    match (st.items server).acceptBatch schema batch with
    | (true, item) => st.setServer server item .refill
    | (false, item) =>
      match item.moveNext schema with
      | (some nextval, item') => st.deliver schema server item' nextval
      | (none, item') => st.setServer server item' .idle

/-- The prefetch after its transaction; an error is ignored. -/
def afterPrefetch (server : Server) (nextval : ℤ) :
    Except Err SequenceCacheNode × State Server → State Server
  | (.error _, st) => st.finish server { st.items server with prefetching := false } nextval
  | (.ok batch, st) =>
    let item := st.items server
    st.finish server
      (if item.withPrefetchNode then { item with prefetching := false }
        else { item with prefetching := false, withPrefetchNode := true, prefetchNode := batch })
      nextval

def step (schema : SequenceSchema) (st : State Server) : Event Server → State Server
  | .call server =>
    match st.phases server with
    | .idle =>
      match (st.items server).moveNext schema with
      | (some nextval, item) => st.deliver schema server item nextval
      | (none, item) => st.setServer server item .refill
    | _ => st
  | .transact server outcome =>
    match st.phases server with
    | .idle => st
    | .refill => afterRefill schema server (st.transaction schema server outcome)
    | .prefetch nextval =>
      afterPrefetch server nextval (st.transaction schema server outcome)

def run (schema : SequenceSchema) (st : State Server) : List (Event Server) → State Server
  | [] => st
  | e :: es => run schema (st.step schema e) es

end State

end OceanBase.Sequence
