import Mathlib

/-!
# The slab allocator

`slabs.c` divides memory into pages and gives each page to a slab class, which cuts it into chunks
of one size. A class keeps its pages in an array, `slab_list`, of `list_size` entries of which
`slabs` are in use. Class 0 is a pool of pages that belong to no class. A rebalance thread moves
pages from one class to another: it starts a move, clears the chunks of the page one at a time, and
finishes the move.

A step below is one critical section under `slabs_lock`. `slabs_reassign` runs under
`slabs_rebalance_lock`, which keeps the rebalance thread out; it only reads page counts, and these
do not shrink while that thread waits, so it is one step too. Moving a chunk whose item is linked
drops the lock and takes it again: that is up to three steps.

Chunks are named by their addresses and the null pointer is `0`. What `malloc` and `realloc` return
and what the rebalance thread finds in a chunk are inputs of the steps. `pageWrites` records every
write to a page list.
-/

namespace Memcached.Slabs

abbrev Addr : Type := ℕ

/-- The settings the allocator reads, with `power_largest`, the largest class in use. -/
structure Settings where
  slabReassign : Bool
  slabChunkSizeMax : ℕ
  slabPageSize : ℕ
  powerLargest : ℕ

def POWER_SMALLEST : ℕ := 1

def SLAB_GLOBAL_PAGE_POOL : ℕ := 0

def CHUNK_ALIGN_BYTES : ℕ := 8

/-- `slabclass_t` -/
structure SlabClass where
  size : ℕ
  perslab : ℕ
  slots : List Addr
  slCurr : ℕ
  slabs : ℕ
  slabList : ℕ → Addr
  listSize : ℕ

/-- `struct slab_rebalance` -/
structure SlabRebalance where
  slabStart : Addr
  slabEnd : Addr
  slabPos : Addr
  sClsid : ℕ
  dClsid : ℕ
  busyItems : ℕ
  busyLoops : ℕ
  done : ℕ

/-- An item as it is freed: one chunk, or a header with chunks, each with its class. -/
inductive Item where
  | plain (ptr : Addr)
  | chunked (header : Addr × ℕ) (chunks : List (Addr × ℕ))

/-- Where the thread stands while it moves a chunk: before the next one, before freeing an item it
could not save, or before taking the lock again. -/
inductive MovePc where
  | look
  | evict (it : Item)
  | relock

/-- `slab_list[index] = ..` in a class whose array had `listSize` entries. -/
structure PageWrite where
  clsid : ℕ
  index : ℕ
  listSize : ℕ
  deriving DecidableEq

/-- The state of `slabs.c`. -/
structure State where
  slabclass : ℕ → SlabClass
  memLimit : ℕ
  memMalloced : ℕ
  memLimitReached : Bool
  memBase : Addr
  memCurrent : Addr
  memAvail : ℕ
  slabRebal : SlabRebalance
  slabRebalanceSignal : ℕ
  pickAnyCur : ℕ
  movePc : MovePc
  pageWrites : List PageWrite

/-- Whether `realloc` finds memory, and the address `malloc` gives, if any. -/
structure Libc where
  realloc : Bool
  malloc : Option Addr

namespace State

variable (s : State)

/-- One class changed. -/
def modifyClass (id : ℕ) (f : SlabClass → SlabClass) : State :=
  { s with slabclass := Function.update s.slabclass id (f (s.slabclass id)) }

/-- `slabclass[id].slab_list[index] = page` -/
def writePage (id index : ℕ) (page : Addr) : State :=
  { s.modifyClass id fun p => { p with slabList := Function.update p.slabList index page } with
    pageWrites := ⟨id, index, (s.slabclass id).listSize⟩ :: s.pageWrites }

/-- `p->slab_list[p->slabs++] = page` -/
def addPage (id : ℕ) (page : Addr) : State :=
  (s.writePage id (s.slabclass id).slabs page).modifyClass id fun p =>
  { p with slabs := p.slabs + 1 }

/-- A chunk put in front of the free list of a class. -/
def pushSlot (id : ℕ) (ptr : Addr) : State :=
  s.modifyClass id fun p => { p with slots := ptr :: p.slots, slCurr := p.slCurr + 1 }

end State

/-! ## The allocator -/

def growSlabList (realloc : Bool) (id : ℕ) (s : State) : Option State :=
  let p := s.slabclass id
  if p.slabs = p.listSize then
    if realloc then
      some (s.modifyClass id fun p =>
        { p with listSize := if p.listSize ≠ 0 then p.listSize * 2 else 16 })
    else none
  else some s

/-- The page is clear, so that no chunk of it has a flag. -/
def splitSlabPageIntoFreelist (ptr : Addr) (id : ℕ) (s : State) : State :=
  let p := s.slabclass id
  (List.range p.perslab).foldl (fun s x => s.pushSlot id (ptr + x * p.size)) s

def getPageFromGlobalPool (s : State) : Option (Addr × State) :=
  let p := s.slabclass SLAB_GLOBAL_PAGE_POOL
  if p.slabs < 1 then none
  else some (p.slabList (p.slabs - 1),
    s.modifyClass SLAB_GLOBAL_PAGE_POOL fun p => { p with slabs := p.slabs - 1 })

/-- A failed `malloc` is counted in `mem_malloced` all the same. -/
def memoryAllocate (malloc : Option Addr) (size : ℕ) (s : State) : Option Addr × State :=
  if s.memBase = 0 then (malloc, { s with memMalloced := s.memMalloced + size })
  else if size > s.memAvail then (none, s)
  else
    let size :=
      if size % CHUNK_ALIGN_BYTES ≠ 0
        then size + (CHUNK_ALIGN_BYTES - size % CHUNK_ALIGN_BYTES) else size
    (some s.memCurrent,
      { s with
        memCurrent := s.memCurrent + size
        memAvail := if size < s.memAvail then s.memAvail - size else 0
        memMalloced := s.memMalloced + size })

/-- A page from the pool, or else from memory. -/
def takePage (malloc : Option Addr) (len : ℕ) (s : State) : Option Addr × State :=
  match getPageFromGlobalPool s with
  | some (ptr, s) => (some ptr, s)
  | none => memoryAllocate malloc len s

/-- The length of a page of a class. -/
def pageLen (cfg : Settings) (p : SlabClass) : ℕ :=
  if cfg.slabReassign ∨ cfg.slabChunkSizeMax ≠ cfg.slabPageSize then cfg.slabPageSize
  else p.size * p.perslab

def doSlabsNewslab (cfg : Settings) (libc : Libc) (id : ℕ) (s : State) : Bool × State :=
  let p := s.slabclass id
  let g := s.slabclass SLAB_GLOBAL_PAGE_POOL
  let len := pageLen cfg p
  if s.memLimit ≠ 0 ∧ s.memMalloced + len > s.memLimit ∧ p.slabs > 0 ∧ g.slabs = 0 then
    (false, { s with memLimitReached := true })
  else
    match growSlabList libc.realloc id s with
    | none => (false, s)
    | some s =>
      match takePage libc.malloc len s with
      | (none, s) => (false, s)
      | (some ptr, s) => (true, (splitSlabPageIntoFreelist ptr id s).addPage id ptr)

/-- `newPage` is false under `SLABS_ALLOC_NO_NEWPAGE`. -/
def doSlabsAlloc (cfg : Settings) (libc : Libc) (id : ℕ) (newPage : Bool) (s : State) :
    Option Addr × State :=
  if id < POWER_SMALLEST ∨ id > cfg.powerLargest then (none, s)
  else
    let s :=
      if (s.slabclass id).slCurr = 0 ∧ newPage then (doSlabsNewslab cfg libc id s).2 else s
    let p := s.slabclass id
    if p.slCurr ≠ 0 then
      (p.slots.head?,
        s.modifyClass id fun p => { p with slots := p.slots.tail, slCurr := p.slCurr - 1 })
    else (none, s)

/-- `do_slabs_free`, with `do_slabs_free_chunked` -/
def doSlabsFree (cfg : Settings) (it : Item) (id : ℕ) (s : State) : State :=
  if id < POWER_SMALLEST ∨ id > cfg.powerLargest then s
  else
    match it with
    | .plain ptr => s.pushSlot id ptr
    | .chunked header chunks =>
      chunks.foldl (fun s c => s.pushSlot c.2 c.1) (s.pushSlot header.2 header.1)

/-- `memory_release`: pages of the pool are freed until the limit is met. -/
def memoryReleaseLoop (cfg : Settings) : ℕ → State → State
  | 0, s => s
  | n + 1, s =>
    if s.memMalloced > s.memLimit then
      match getPageFromGlobalPool s with
      | none => s
      | some (_, s) =>
        memoryReleaseLoop cfg n { s with memMalloced := s.memMalloced - cfg.slabPageSize }
    else s

def memoryRelease (cfg : Settings) (s : State) : State :=
  if s.memBase ≠ 0 then s
  else if ¬ cfg.slabReassign then s
  else memoryReleaseLoop cfg (s.slabclass SLAB_GLOBAL_PAGE_POOL).slabs s

/-! ## The rebalance thread -/

def slabsReassignPickAny (cfg : Settings) (dst : ℤ) (s : State) : ℕ → ℕ → ℤ × ℕ
  | 0, cur => (-1, cur)
  | tries + 1, cur =>
    let cur := if cur + 1 > cfg.powerLargest then POWER_SMALLEST else cur + 1
    if (cur : ℤ) = dst then slabsReassignPickAny cfg dst s tries cur
    else if (s.slabclass cur).slabs > 1 then (cur, cur)
    else slabsReassignPickAny cfg dst s tries cur

/-- The source of a requested move, `-1` for any. -/
def reassignSource (cfg : Settings) (src dst : ℤ) (s : State) : ℤ × ℕ :=
  if src = -1 then slabsReassignPickAny cfg dst s cfg.powerLargest s.pickAnyCur
  else (src, s.pickAnyCur)

def slabsReassign (cfg : Settings) (src dst : ℤ) (s : State) : State :=
  if s.slabRebalanceSignal ≠ 0 then s
  else if src = dst then s
  else
    let (src, cur) := reassignSource cfg src dst s
    let s := { s with pickAnyCur := cur }
    if src < POWER_SMALLEST ∨ src > cfg.powerLargest ∨ dst < SLAB_GLOBAL_PAGE_POOL ∨
        dst > cfg.powerLargest then s
    else if (s.slabclass src.toNat).slabs < 2 then s
    else
      { s with
        slabRebal := { s.slabRebal with sClsid := src.toNat, dClsid := dst.toNat }
        slabRebalanceSignal := 1 }

/-- The thread clears the signal when it fails. -/
def slabRebalanceStart (cfg : Settings) (realloc : Bool) (s : State) : State :=
  let r := s.slabRebal
  let badClass := r.sClsid < POWER_SMALLEST ∨ r.sClsid > cfg.powerLargest ∨
    r.dClsid > cfg.powerLargest ∨ r.sClsid = r.dClsid
  match growSlabList realloc r.dClsid s with
  | none => { s with slabRebalanceSignal := 0 }
  | some s =>
    let p := s.slabclass r.sClsid
    if badClass ∨ p.slabs < 2 then { s with slabRebalanceSignal := 0 }
    else
      { s with
        slabRebal := { r with
          slabStart := p.slabList 0
          slabEnd := p.slabList 0 + p.size * p.perslab
          slabPos := p.slabList 0
          done := 0 }
        slabRebalanceSignal := 2 }

/-- Chunks of the page that is being cleared are dropped on the way. -/
def slabRebalanceAlloc (cfg : Settings) (id : ℕ) : ℕ → State → Option Addr × State
  | 0, s => (none, s)
  | n + 1, s =>
    match doSlabsAlloc cfg ⟨false, none⟩ id false s with
    | (none, s) => (none, s)
    | (some it, s) =>
      if s.slabRebal.slabStart ≤ it ∧ it < s.slabRebal.slabEnd then
        slabRebalanceAlloc cfg id n s
      else (some it, s)

def slabRebalanceCutFree (it : Addr) (id : ℕ) (s : State) : State :=
  s.modifyClass id fun p => { p with slots := p.slots.erase it, slCurr := p.slCurr - 1 }

/-- The end of the loop body of `slab_rebalance_move`: it starts again from the top if some chunk
was busy. -/
def advance (s : State) : State :=
  let r := { s.slabRebal with slabPos := s.slabRebal.slabPos +
    (s.slabclass s.slabRebal.sClsid).size }
  if r.slabPos ≥ r.slabEnd then
    if r.busyItems ≠ 0 then
      { s with slabRebal := { r with
          slabPos := r.slabStart, busyItems := 0, busyLoops := r.busyLoops + 1 } }
    else { s with slabRebal := { r with done := r.done + 1 } }
  else { s with slabRebal := r }

def noteBusy (s : State) : State :=
  { s with slabRebal := { s.slabRebal with busyItems := s.slabRebal.busyItems + 1 } }

/-- `enum move_status`, what the thread finds at `slab_pos`. -/
inductive MoveStatus where
  | pass
  | fromSlab
  | fromLru (expired : Bool) (it : Item)
  | busy
  | locked

/-- The loop body of `slab_rebalance_move`, up to where it drops the lock if it does. -/
def lookAtChunk (cfg : Settings) (s : State) : MoveStatus → Option State
  | .pass => some (advance s)
  | .fromSlab =>
    let id := s.slabRebal.sClsid
    if s.slabRebal.slabPos ∈ (s.slabclass id).slots then
      some (advance (slabRebalanceCutFree s.slabRebal.slabPos id s))
    else none
  | .busy => some (advance (noteBusy s))
  | .locked => some (advance (noteBusy s))
  | .fromLru expired it =>
    if expired then some { s with movePc := .evict it }
    else
      let id := s.slabRebal.sClsid
      match slabRebalanceAlloc cfg id (s.slabclass id).perslab s with
      | (none, s) => some { s with movePc := .evict it }
      | (some _, s) => some { s with movePc := .relock }

def slabRebalanceFinish (cfg : Settings) (s : State) : State :=
  let r := s.slabRebal
  let s := s.modifyClass r.sClsid fun p => { p with slabs := p.slabs - 1 }
  let s := (List.range (s.slabclass r.sClsid).slabs).foldl
    (fun s x => s.writePage r.sClsid x ((s.slabclass r.sClsid).slabList (x + 1))) s
  let s := s.addPage r.dClsid r.slabStart
  let s :=
    if r.dClsid > SLAB_GLOBAL_PAGE_POOL then splitSlabPageIntoFreelist r.slabStart r.dClsid s
    else memoryRelease cfg s
  { s with
    slabRebal := ⟨0, 0, 0, 0, 0, r.busyItems, 0, 0⟩
    slabRebalanceSignal := 0 }

/-! ## Interleavings -/

/-- The critical sections of the workers and of the rebalance thread. -/
inductive Step where
  | alloc (libc : Libc) (id : ℕ) (newPage : Bool)
  | free (it : Item) (id : ℕ)
  | reassign (src dst : ℤ)
  | start (realloc : Bool)
  | look (status : MoveStatus)
  | evict
  | relock
  | finish

/-- One step, if the thread that takes it is there. -/
def step (cfg : Settings) (s : State) : Step → Option State
  | .alloc libc id newPage => some (doSlabsAlloc cfg libc id newPage s).2
  | .free it id => some (doSlabsFree cfg it id s)
  | .reassign src dst => some (slabsReassign cfg src dst s)
  | .start realloc =>
    if s.slabRebalanceSignal = 1 then some (slabRebalanceStart cfg realloc s) else none
  | .look status =>
    match s.movePc with
    | .look =>
      if s.slabRebalanceSignal = 2 ∧ s.slabRebal.slabStart ≠ 0 ∧ s.slabRebal.done = 0 then
        lookAtChunk cfg s status
      else none
    | _ => none
  | .evict =>
    match s.movePc with
    | .evict it =>
        some { noteBusy (doSlabsFree cfg it s.slabRebal.sClsid s) with movePc := .relock }
    | _ => none
  | .relock =>
    match s.movePc with
    | .relock => some { advance s with movePc := .look }
    | _ => none
  | .finish => if s.slabRebal.done ≠ 0 then some (slabRebalanceFinish cfg s) else none

/-- The steps in order. -/
def run (cfg : Settings) (s : State) : List Step → Option State
  | [] => some s
  | e :: es => (step cfg s e).bind fun s => run cfg s es

/-- One page for each class, or the program exits. -/
def slabsPreallocate (cfg : Settings) (libc : ℕ → Libc) (s : State) : Option State :=
  (List.range' POWER_SMALLEST cfg.powerLargest).foldlM
    (fun s i =>
      match doSlabsNewslab cfg (libc i) i s with
      | (true, s) => some s
      | (false, _) => none) s

/-- The tables as `slabs_init` sets them up, with the chunk sizes, the block allocated in advance
and what a test may claim to be in use. -/
def emptyClasses (limit : ℕ) (prealloc : Bool) (memBase : Addr) (malloced : ℕ)
    (sizes : ℕ → ℕ × ℕ) : State where
  slabclass i := ⟨(sizes i).1, (sizes i).2, [], 0, 0, fun _ => 0, 0⟩
  memLimit := limit
  memMalloced := malloced
  memLimitReached := false
  memBase := if prealloc then memBase else 0
  memCurrent := if prealloc then memBase else 0
  memAvail := if prealloc ∧ memBase ≠ 0 then limit else 0
  slabRebal := ⟨0, 0, 0, 0, 0, 0, 0, 0⟩
  slabRebalanceSignal := 0
  pickAnyCur := POWER_SMALLEST - 1
  movePc := .look
  pageWrites := []

def slabsInit (cfg : Settings) (limit : ℕ) (prealloc : Bool) (memBase : Addr) (malloced : ℕ)
    (sizes : ℕ → ℕ × ℕ) (libc : ℕ → Libc) : Option State :=
  let s := emptyClasses limit prealloc memBase malloced sizes
  if prealloc then slabsPreallocate cfg libc s else some s

end Memcached.Slabs
