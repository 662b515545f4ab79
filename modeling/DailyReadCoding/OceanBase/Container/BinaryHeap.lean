import DailyReadCoding.Lib.BinaryHeap
import DailyReadCoding.Lib.Exec

/-!
# `ObBinaryHeap`

A binary heap with a cache (`ob_heap.h`).  When a new top stays where it is, nothing below it has
moved, so the next walk down from the root need not compare the two children of the root again: the
child picked this time is kept in `root_cmp_index_cache_`.
-/

namespace OceanBase.Container

open BinaryHeap List Option Multiset Exec

variable {T : Type}

/-! ## The heap -/

/-- `rootCmpIndexCache` is `none` for `INT64_MAX`, which is below no count. -/
structure ObBinaryHeap (T : Type) where
  array : List T
  rootCmpIndexCache : Option ℕ

inductive Ret
  | success
  | emptyResult
  | allocateMemoryFailed
  deriving DecidableEq

/-- An index outside of the array, or a loop that does not end. -/
inductive Fault
  | outOfRange
  | hang
  deriving DecidableEq

def arrayAt (array : List T) (index : ℕ) : Except Fault T :=
  match array[index]? with
  | some x => .ok x
  | none => .error .outOfRange

def getLeft (index : ℕ) : ℕ := 2 * index + 1

namespace ObBinaryHeap

def empty : ObBinaryHeap T := ⟨[], none⟩

/-- The loop of `upheap`: the array and where `tmp` goes. -/
def upheapLoop (cmp : T → T → Bool) (tmp : T) (array : List T) (index : ℕ) :
    Except Fault (List T × ℕ) :=
  if _h : index > 0 then do
    let p ← arrayAt array (parent index)
    if ¬ cmp p tmp then pure (array, index)
    else upheapLoop cmp tmp (array.set index p) (parent index)
  else pure (array, index)
termination_by index
decreasing_by exact parent_lt _h

def upheap (cmp : T → T → Bool) (index : ℕ) (h : ObBinaryHeap T) :
    Except Fault (ObBinaryHeap T) := do
  let tmp ← arrayAt h.array index
  let (array, index) ← upheapLoop cmp tmp h.array index
  pure ⟨array.set index tmp, none⟩

/-- The greater child of `index`, by comparison; the left one if there is no right one. -/
def greaterChild (cmp : T → T → Bool) (array : List T) (index : ℕ) : ℕ :=
  match array[getLeft index]?, array[getLeft index + 1]? with
  | some left, some right => if cmp left right then getLeft index + 1 else getLeft index
  | _, _ => getLeft index

/-- The cached child, which counts at the root and if it is inside the array. -/
def cachedChild (cache : Option ℕ) (array : List T) (index : ℕ) : Option ℕ :=
  if index = 0 then cache.filter (· < array.length) else none

/-- The loop of `downheap`: the array, where `tmp` goes, and the child picked last. -/
def downheapLoop (cmp : T → T → Bool) (cache : Option ℕ) (tmp : T) :
    ℕ → List T → ℕ → Option ℕ → Except Fault (List T × ℕ × Option ℕ)
  | 0, _, _, _ => .error .hang
  | fuel + 1, array, index, picked =>
    if getLeft index ≥ array.length then pure (array, index, picked)
    else do
      let child := (cachedChild cache array index).getD (greaterChild cmp array index)
      let x ← arrayAt array child
      if ¬ cmp tmp x then pure (array, index, some child)
      else downheapLoop cmp cache tmp fuel (array.set index x) child (some child)

/-- The rounds of the loop are bounded by the entries there are. -/
def downheap (cmp : T → T → Bool) (index : ℕ) (h : ObBinaryHeap T) :
    Except Fault (ObBinaryHeap T) := do
  let tmp ← arrayAt h.array index
  let (array, index, picked) ←
    downheapLoop cmp h.rootCmpIndexCache tmp (h.array.length + 1) h.array index none
  pure ⟨array.set index tmp, if index = 0 then picked else none⟩

/-- `alloc` says whether the array can grow. -/
def push (cmp : T → T → Bool) (alloc : Bool) (element : T) (h : ObBinaryHeap T) :
    Except Fault (Ret × ObBinaryHeap T) :=
  if alloc = false then .ok (.allocateMemoryFailed, h)
  else do
    let h ← upheap cmp h.array.length { h with array := h.array ++ [element] }
    pure (.success, h)

def pop (cmp : T → T → Bool) (h : ObBinaryHeap T) : Except Fault (Ret × ObBinaryHeap T) :=
  match h.array.getLast? with
  | none => .ok (.emptyResult, h)
  | some last =>
    let array := (h.array.set 0 last).dropLast
    if array ≠ [] then do
      let h ← downheap cmp 0 { h with array := array }
      pure (.success, h)
    else .ok (.success, ⟨array, none⟩)

def replaceTop (cmp : T → T → Bool) (element : T) (h : ObBinaryHeap T) :
    Except Fault (Ret × ObBinaryHeap T) :=
  if h.array.length = 0 then .ok (.emptyResult, h)
  else
    let array := h.array.set 0 element
    if h.array.length > 1 then do
      let h ← downheap cmp 0 { h with array := array }
      pure (.success, h)
    else .ok (.success, { h with array := array })

def top (h : ObBinaryHeap T) : Option T := h.array[0]?

end ObBinaryHeap

open ObBinaryHeap

/-! ## The walks -/

/-- `cmp` as a relation. -/
def Less (cmp : T → T → Bool) (a b : T) : Prop := cmp a b = true

section Walks

variable {cmp : T → T → Bool} {l : List T} {k : ℕ} {t x : T}

namespace ObBinaryHeap

section

variable (cmp : T → T → Bool) (l : List T) (k : ℕ)

end

/-- A cached index inside the array is the one that a comparison gives. -/
def CacheValid (cmp : T → T → Bool) (cache : Option ℕ) (array : List T) : Prop :=
  ∀ c ∈ cache, c < array.length → c = greaterChild cmp array 0

/-- The heap that has forgotten what it compared. -/
def recompare (h : ObBinaryHeap T) : ObBinaryHeap T := { h with rootCmpIndexCache := none }

end ObBinaryHeap

end Walks

/-! ## Runs -/

inductive Op (T : Type)
  | push (alloc : Bool) (element : T)
  | pop
  | replaceTop (element : T)

def step (cmp : T → T → Bool) : Op T → ObBinaryHeap T → Except Fault (Ret × ObBinaryHeap T)
  | .push alloc element, h => h.push cmp alloc element
  | .pop, h => h.pop cmp
  | .replaceTop element, h => h.replaceTop cmp element

/-- A call: what `top` was before it, and what it returned. -/
structure Event (T : Type) where
  op : Op T
  top : Option T
  ret : Ret

namespace Event

end Event

/-- A sequence of calls; without `cached`, every call compares the children of the root again. -/
def run (cmp : T → T → Bool) (cached : Bool) :
    List (Op T) → ObBinaryHeap T → Except Fault (List (Event T) × ObBinaryHeap T)
  | [], h => .ok ([], h)
  | op :: ops, h => do
      let (ret, h') ← step cmp op (if cached then h else h.recompare)
      let (events, h'') ← run cmp cached ops h'
      pure (⟨op, h.top, ret⟩ :: events, h'')

/-- The invariant between two calls. -/
structure WellFormed (cmp : T → T → Bool) (h : ObBinaryHeap T) : Prop where
  ordered : Ordered (Less cmp) h.array
  cacheValid : ObBinaryHeap.CacheValid cmp h.rootCmpIndexCache h.array

section Steps

variable {cmp : T → T → Bool} {h : ObBinaryHeap T} [IsStrictWeakOrder T (Less cmp)]

section

variable (hwf : WellFormed cmp h)

include hwf

end

end Steps

end OceanBase.Container
