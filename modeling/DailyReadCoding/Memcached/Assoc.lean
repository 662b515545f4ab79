import DailyReadCoding.Lib.Chain
import Mathlib.Data.Nat.Bits

/-!
# The hash table

`assoc.c` keeps the items in chains that hang off an array of buckets.  When the array becomes too
small a larger one takes its place, and a maintenance thread moves the chains over bucket by bucket
while the table is in use.

Items are named by addresses `A` and keys are of a type `K`; the hash function is any function.
Blocks of memory that hold bucket arrays have numbers, none of which is used twice, and access to
a freed block or past the end of one is an error, as is a failed assertion: such operations give
`none`.  Loops carry fuel and give `none` when it runs out; it is a parameter of the operations.
The number of items and the bucket counter are `unsigned int` in the source, and wrap.

`assocFind`, `assocInsert`, `assocDelete` and `assocExpand` are the functions of the source,
`moveBucket` is one bucket of the maintenance thread, and `Event`, `step` and `run` interleave them,
each one atomic.
-/

namespace Memcached.Assoc

variable {K A : Type} [DecidableEq K] [DecidableEq A]

structure Item (K A : Type) where
  key : K
  hNext : Option A

/-- A block of bucket pointers. -/
structure Table (A : Type) where
  size : ℕ
  cell : ℕ → Option A

/-- The global state of `assoc.c`, with the items and the blocks of memory. -/
structure State (K A : Type) where
  hashpower : ℕ
  primaryHashtable : ℕ
  oldHashtable : ℕ
  hashItems : BitVec 32
  expanding : Bool
  startedExpanding : Bool
  expandBucket : BitVec 32
  items : A → Item K A
  blocks : ℕ → Option (Table A)
  nextBlock : ℕ

def hashsize (n : ℕ) : ℕ := 1 <<< n

def hashmask (n : ℕ) : ℕ := hashsize n - 1

def HASHPOWER_MAX : ℕ := 32

/-- `calloc` of bucket pointers -/
def calloc (n : ℕ) : Table A := ⟨n, fun _ => none⟩

def assocInit (items : A → Item K A) (hashpower : ℕ) : State K A where
  hashpower := hashpower
  primaryHashtable := 0
  oldHashtable := 0
  hashItems := 0
  expanding := false
  startedExpanding := false
  expandBucket := 0
  items := items
  blocks := Function.update (fun _ => none) 0 (some (calloc (hashsize hashpower)))
  nextBlock := 1

/-! ## Memory -/

/-- A bucket of a block. -/
abbrev Place : Type := ℕ × ℕ

/-- The bucket read. -/
def State.readCell (s : State K A) (p : Place) : Option (Option A) :=
  match s.blocks p.1 with
  | none => none
  | some table => if p.2 < table.size then some (table.cell p.2) else none

/-- A block with a bucket changed. -/
def Table.set (table : Table A) (i : ℕ) (v : Option A) : Table A :=
  { table with cell := Function.update table.cell i v }

/-- The bucket written. -/
def State.writeCell (s : State K A) (p : Place) (v : Option A) : Option (State K A) :=
  match s.blocks p.1 with
  | none => none
  | some table =>
    if p.2 < table.size then
      some { s with blocks := Function.update s.blocks p.1 (some (table.set p.2 v)) }
    else none

/-- `it->h_next = v` -/
def State.setNext (s : State K A) (it : A) (v : Option A) : State K A :=
  { s with items := Function.update s.items it { s.items it with hNext := v } }

/-- The bucket of a hash value: the old table is used for what has not been moved yet. -/
def State.placeOf (s : State K A) (hv : ℕ) : Place :=
  if s.expanding ∧ hv &&& hashmask (s.hashpower - 1) ≥ s.expandBucket.toNat then
    (s.oldHashtable, hv &&& hashmask (s.hashpower - 1))
  else (s.primaryHashtable, hv &&& hashmask s.hashpower)

/-! ## Operations -/

/-- The loop of `assoc_find` -/
def findLoop (key : K) (s : State K A) : ℕ → Option A → Option (Option A)
  | 0, _ => none
  | _ + 1, none => some none
  | fuel + 1, some it =>
    if key = (s.items it).key then some (some it) else findLoop key s fuel (s.items it).hNext

def assocFind (key : K) (hv fuel : ℕ) (s : State K A) : Option (Option A) := do
  let it ← s.readCell (s.placeOf hv)
  findLoop key s fuel it

/-- The address of a pointer to an item: that of a bucket, or that of a link. -/
inductive Pos (A : Type)
  | bucket (p : Place)
  | link (it : A)

/-- `*pos` -/
def State.readPos (s : State K A) : Pos A → Option (Option A)
  | .bucket p => s.readCell p
  | .link it => some (s.items it).hNext

/-- `*pos = v` -/
def State.writePos (s : State K A) (v : Option A) : Pos A → Option (State K A)
  | .bucket p => s.writeCell p v
  | .link it => some (s.setNext it v)

/-- The loop of `_hashitem_before` -/
def beforeLoop (key : K) (s : State K A) : ℕ → Pos A → Option (Pos A)
  | 0, _ => none
  | fuel + 1, pos => do
      match ← s.readPos pos with
      | none => some pos
      | some it => if key ≠ (s.items it).key then beforeLoop key s fuel (.link it) else some pos

def hashitemBefore (key : K) (hv fuel : ℕ) (s : State K A) : Option (Pos A) :=
  beforeLoop key s fuel (.bucket (s.placeOf hv))

/-- The flag says whether there is memory. -/
def assocExpand (alloc : Bool) (s : State K A) : State K A :=
  if alloc then
    { s with
      oldHashtable := s.primaryHashtable
      primaryHashtable := s.nextBlock
      blocks := Function.update s.blocks s.nextBlock (some (calloc (hashsize (s.hashpower + 1))))
      nextBlock := s.nextBlock + 1
      hashpower := s.hashpower + 1
      expanding := true
      expandBucket := 0 }
  else { s with oldHashtable := s.primaryHashtable }

def assocStartExpand (s : State K A) : State K A := { s with startedExpanding := true }

/-- The end of `assoc_insert`: the item is counted, and more room asked for if need be. -/
def countInsert (s : State K A) : State K A :=
  let s := { s with hashItems := s.hashItems + 1 }
  if !s.expanding ∧ s.hashItems.toNat > hashsize s.hashpower * 3 / 2 ∧
      s.hashpower < HASHPOWER_MAX then
    assocStartExpand s
  else s

def assocInsert (it : A) (hv : ℕ) (s : State K A) : Option (State K A) := do
  let head ← s.readCell (s.placeOf hv)
  let s' ← (s.setNext it head).writeCell (s.placeOf hv) (some it)
  some (countInsert s')

/-- `hash_items--` -/
def countDelete (s : State K A) : State K A := { s with hashItems := s.hashItems - 1 }

def assocDelete (key : K) (hv fuel : ℕ) (s : State K A) : Option (State K A) := do
  let before ← hashitemBefore key hv fuel s
  match ← s.readPos before with
  | none => none
  | some it => ((countDelete s).setNext it none).writePos (s.items it).hNext before

/-- The loop of the maintenance thread over the items of a bucket. -/
def moveLoop (hash : K → ℕ) : ℕ → Option A → State K A → Option (State K A)
  | 0, _, _ => none
  | _ + 1, none, s => some s
  | fuel + 1, some it, s => do
      let place := (s.primaryHashtable, hash (s.items it).key &&& hashmask s.hashpower)
      let head ← s.readCell place
      let s' ← (s.setNext it head).writeCell place (some it)
      moveLoop hash fuel (s.items it).hNext s'

/-- `expand_bucket++`, and the end of an expansion. -/
def nextBucket (s : State K A) : State K A :=
  let s := { s with expandBucket := s.expandBucket + 1 }
  if s.expandBucket.toNat = hashsize (s.hashpower - 1) then
    { s with expanding := false, blocks := Function.update s.blocks s.oldHashtable none }
  else s

/-- One bucket of `assoc_maintenance_thread` -/
def moveBucket (hash : K → ℕ) (fuel : ℕ) (s : State K A) : Option (State K A) := do
  let it ← s.readCell (s.oldHashtable, s.expandBucket.toNat)
  let s' ← moveLoop hash fuel it s
  let s' ← s'.writeCell (s'.oldHashtable, s'.expandBucket.toNat) none
  some (nextBucket s')

/-- The maintenance thread goes to wait when the table is not expanding. -/
def maintenanceWait (s : State K A) : State K A :=
  if s.expanding then s else { s with startedExpanding := false }

/-! ## Interleavings -/

/-- The steps that may be interleaved. -/
inductive Event (K A : Type)
  | insert (it : A) (key : K)
  | delete (key : K)
  | find (key : K)
  | expand (alloc : Bool)
  | move

/-- An item gets its key before it is inserted. -/
def State.alloc (s : State K A) (it : A) (key : K) : State K A :=
  { s with items := Function.update s.items it ⟨key, none⟩ }

/-- One step. The maintenance thread gets to `assoc_expand` only when the table is not expanding. -/
def step (hash : K → ℕ) (fuel : ℕ) (s : State K A) : Event K A → Option (State K A)
  | .insert it key => assocInsert it (hash key) (s.alloc it key)
  | .delete key => assocDelete key (hash key) fuel s
  | .find key => (assocFind key (hash key) fuel s).map fun _ => s
  | .expand alloc => some (if s.expanding then s else maintenanceWait (assocExpand alloc s))
  | .move => if s.expanding then (moveBucket hash fuel s).map maintenanceWait else some s

/-- A sequence of steps. -/
def run (hash : K → ℕ) (fuel : ℕ) : State K A → List (Event K A) → Option (State K A)
  | s, [] => some s
  | s, e :: events => do
      let s' ← step hash fuel s e
      run hash fuel s' events

/-- A larger table is made only below `HASHPOWER_MAX`, where `assoc_insert` asks for one. -/
def Event.InRange (s : State K A) : Event K A → Prop
  | .expand true => s.expanding = false → s.hashpower < HASHPOWER_MAX
  | _ => True

/-- Every expansion of a sequence of steps is in range. -/
def InRange (hash : K → ℕ) (fuel : ℕ) : State K A → List (Event K A) → Prop
  | _, [] => True
  | s, e :: events => e.InRange s ∧ ∀ s' ∈ step hash fuel s e, InRange hash fuel s' events

/-! ## What the table is for -/

/-- The items stored under their keys, after a step. -/
def Stored.step (stored : List (K × A)) : Event K A → List (K × A)
  | .insert it key => (key, it) :: stored
  | .delete key => stored.filter (·.1 ≠ key)
  | .find _ => stored
  | .expand _ => stored
  | .move => stored

/-- Keys are inserted when absent, with an item that is not in use, and deleted when present. -/
def Stored.Enabled (stored : List (K × A)) : Event K A → Prop
  | .insert it key => ∀ e ∈ stored, e.1 ≠ key ∧ e.2 ≠ it
  | .delete key => ∃ e ∈ stored, e.1 = key
  | _ => True

/-- Every step of a sequence is enabled. -/
def Stored.Valid : List (K × A) → List (Event K A) → Prop
  | _, [] => True
  | stored, e :: events => Enabled stored e ∧ Valid (step stored e) events

/-- The item stored under a key. -/
def Stored.lookup (stored : List (K × A)) (key : K) : Option A :=
  (stored.find? (·.1 = key)).map (·.2)

end Memcached.Assoc
