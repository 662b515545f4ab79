import DailyReadCoding.Lib.Exec
import Mathlib.Data.BitVec

/-!
# `ObRbTree`

The red-black tree of `ob_rbtree.h`. Its nodes belong to the caller; the tree links them, and keeps
the colour of a node in the lowest bit of the pointer to its right child.

`insert` and `remove` note the way down from the root in an array of 128 entries and go back up
along it. The entries are kept here as a list, the deepest first; what the source reads as
`pathp[1].node_` is the argument `child` of the functions that go up.
-/

namespace OceanBase.Container.RbTree

/-! ## Nodes -/

/-- A pointer to a node.  A node has pointers in it, so its address is even. -/
structure NodePtr where
  addr : BitVec 64
  nonnull : addr ≠ 0#64
  aligned : addr &&& 1#64 = 0#64
  deriving DecidableEq

namespace NodePtr

/-- The word of a pointer that may be `NULL`. -/
def toWord : Option NodePtr → BitVec 64
  | none => 0#64
  | some p => p.addr

def ofWord (w : BitVec 64) (h : w &&& 1#64 = 0#64) : Option NodePtr :=
  if h0 : w = 0#64 then none else some ⟨w, h0, h⟩

lemma clearBit_aligned (w : BitVec 64) : (w &&& -2#64) &&& 1#64 = 0#64 := by
  rw [BitVec.and_assoc, show -2#64 &&& 1#64 = 0#64 by decide, BitVec.and_zero]

end NodePtr

structure ObRbNode where
  left : Option NodePtr
  rightRed : BitVec 64

namespace ObRbNode

def setLeft (n : ObRbNode) (p : Option NodePtr) : ObRbNode := { n with left := p }

def getRight (n : ObRbNode) : Option NodePtr :=
  NodePtr.ofWord (n.rightRed &&& -2#64) (NodePtr.clearBit_aligned _)

def setRight (n : ObRbNode) (p : Option NodePtr) : ObRbNode :=
  { n with rightRed := NodePtr.toWord p ||| (n.rightRed &&& 1#64) }

def getRed (n : ObRbNode) : Bool := (n.rightRed &&& 1#64) != 0#64

def setColor (n : ObRbNode) (red : Bool) : ObRbNode :=
  { n with rightRed := (n.rightRed &&& -2#64) ||| if red then 1#64 else 0#64 }

def setRed (n : ObRbNode) : ObRbNode := { n with rightRed := n.rightRed ||| 1#64 }

def setBlack (n : ObRbNode) : ObRbNode := { n with rightRed := n.rightRed &&& -2#64 }

end ObRbNode

/-- What can go wrong besides a return code. -/
inductive Fault
  /-- `abort_unless` -/
  | abort
  | nullAccess
  /-- An entry of the path array behind its end or before its start is used. -/
  | pathOverflow
  | pathUnderflow
  /-- A loop takes more rounds than it was given. -/
  | hang
  deriving DecidableEq

inductive Ret
  | success
  | invalidArgument
  deriving DecidableEq

/-- The nodes in memory. -/
abbrev Memory : Type := NodePtr → ObRbNode

namespace Memory

def modify (m : Memory) (p : NodePtr) (f : ObRbNode → ObRbNode) : Memory :=
    Function.update m p (f (m p))

def getLeft (m : Memory) (p : NodePtr) : Option NodePtr := (m p).left

def getRight (m : Memory) (p : NodePtr) : Option NodePtr := (m p).getRight

def getRed (m : Memory) (p : NodePtr) : Bool := (m p).getRed

def setLeft (m : Memory) (p : NodePtr) (q : Option NodePtr) : Memory := m.modify p (·.setLeft q)

def setRight (m : Memory) (p : NodePtr) (q : Option NodePtr) : Memory := m.modify p (·.setRight q)

def setColor (m : Memory) (p : NodePtr) (red : Bool) : Memory := m.modify p (·.setColor red)

def setRed (m : Memory) (p : NodePtr) : Memory := m.modify p (·.setRed)

def setBlack (m : Memory) (p : NodePtr) : Memory := m.modify p (·.setBlack)

/-- The node, if it is not `NULL` and red. -/
def ifRed (m : Memory) (p : Option NodePtr) : Option NodePtr := p.filter m.getRed

end Memory

/-- The use of a pointer that may be `NULL`. -/
def deref (p : Option NodePtr) : Except Fault NodePtr :=
  match p with
  | some p => .ok p
  | none => .error .nullAccess

namespace Memory

/-- `rotate_left` with the node that takes the place of `node`. -/
def rotateLeft (m : Memory) (node : NodePtr) : Except Fault (Memory × NodePtr) := do
  let returnNode ← deref (m.getRight node)
  let m := m.setRight node (m.getLeft returnNode)
  pure (m.setLeft returnNode (some node), returnNode)

def rotateRight (m : Memory) (node : NodePtr) : Except Fault (Memory × NodePtr) := do
  let returnNode ← deref (m.getLeft node)
  let m := m.setLeft node (m.getRight returnNode)
  pure (m.setRight returnNode (some node), returnNode)

def initNode (m : Memory) (node : NodePtr) : Except Fault Memory :=
  if node.addr &&& 1#64 ≠ 0#64 then .error .abort
  else .ok (((m.setLeft node none).setRight node none).setRed node)

end Memory

structure ObRbTree where
  root : Option NodePtr
  mem : Memory

structure ObRbPath where
  node : NodePtr
  cmp : ℤ

/-- `sizeof(void*) << 4` -/
def pathLength : ℕ := 128

/-- `path->node_`, the first entry, where `node` and `rest` are the entries from some place on. -/
def pathStart : NodePtr → List ObRbPath → NodePtr
  | node, [] => node
  | _, p :: rest => pathStart p.node rest

section Compare

variable (cmp : NodePtr → NodePtr → ℤ)

/-! ## `insert` -/

/-- The way down of `insert`, with the entries `path` so far and `room` free ones. -/
def insertWind (node : NodePtr) (m : Memory) :
    ℕ → Option NodePtr → List ObRbPath → Except Fault (List ObRbPath)
  | 0, _, _ => .error .pathOverflow
  | _ + 1, none, path => .ok path
  | room + 1, some p, path =>
    let c := cmp node p
    if c = 0 then .error .abort
    else if c < 0 then insertWind node m room (m.getLeft p) (⟨p, c⟩ :: path)
    else insertWind node m room (m.getRight p) (⟨p, c⟩ :: path)

/-- The way up of `insert`.  It returns `path->node_` with the memory. -/
def insertUnwind : NodePtr → List ObRbPath → Memory → Except Fault (Memory × NodePtr)
  | child, [], m => .ok (m, child)
  | child, ⟨cur, c⟩ :: rest, m =>
    if c < 0 then
      let m := m.setLeft cur (some child)
      if m.getRed child then
        match m.ifRed (m.getLeft child) with
        | some leftLeft => do
            -- Fix up 4-node.
            let m := m.setBlack leftLeft
            let (m, tmp) ← m.rotateRight cur
            insertUnwind tmp rest m
        | none => insertUnwind cur rest m
      else .ok (m, pathStart cur rest)
    else
      let m := m.setRight cur (some child)
      if m.getRed child then
        match m.ifRed (m.getLeft cur) with
        | some left =>
          -- Split 4-node.
          insertUnwind cur rest (((m.setBlack left).setBlack child).setRed cur)
        | none => do
            -- Lean left.
            let tred := m.getRed cur
            let (m, tmp) ← m.rotateLeft cur
            insertUnwind tmp rest ((m.setColor tmp tred).setRed cur)
      else .ok (m, pathStart cur rest)

def insert (node : Option NodePtr) (t : ObRbTree) : Except Fault (Ret × ObRbTree) :=
  match node with
  | none => .ok (.invalidArgument, t)
  | some node => do
      let m ← t.mem.initNode node
      let path ← insertWind cmp node m pathLength t.root []
      let (m, start) ← insertUnwind node path m
      pure (.success, ⟨some start, m.setBlack start⟩)

/-! ## `remove` -/

/-- The inner loop on the way down of `remove`, to the successor. -/
def successorWind (m : Memory) : ℕ → Option NodePtr → List ObRbPath → Except Fault (List ObRbPath)
  | 0, _, _ => .error .pathOverflow
  | _ + 1, none, path => .ok path
  | room + 1, some p, path => successorWind m room (m.getLeft p) (⟨p, -1⟩ :: path)

/-- The way down of `remove`: the entries behind the node found, that node, and the entries before
it. If none is found, `nodep` stays `NULL` and is used. -/
def removeWind (node : NodePtr) (m : Memory) : ℕ → Option NodePtr → List ObRbPath →
    Except Fault (List ObRbPath × NodePtr × List ObRbPath)
  | 0, _, _ => .error .pathOverflow
  | _ + 1, none, _ => .error .nullAccess
  | room + 1, some p, path =>
    let c := cmp node p
    if c < 0 then removeWind node m room (m.getLeft p) (⟨p, c⟩ :: path)
    else if c = 0 then do
      let below ← successorWind m room (m.getRight p) []
      pure (below, p, path)
    else removeWind node m room (m.getRight p) (⟨p, c⟩ :: path)

/-- The link to the node of an entry: the root, or a child of the entry before. -/
def relink (above : List ObRbPath) (p : Option NodePtr) (t : ObRbTree) : ObRbTree :=
  match above with
  | [] => { t with root := p }
  | ⟨q, c⟩ :: _ =>
    if c < 0 then { t with mem := t.mem.setLeft q p } else { t with mem := t.mem.setRight q p }

/-- One round on the way up of `remove` ends it, or goes on with the node of this entry. -/
inductive Unwound
  | finished (t : ObRbTree)
  | goOn (child : NodePtr) (m : Memory)

/-- `rotate_right` at the right child and `rotate_left` at `node`, with the link between them. -/
def rotateRightLeft (m : Memory) (node right : NodePtr) : Except Fault (Memory × NodePtr) := do
  let (m, tmp) ← m.rotateRight right
  (m.setRight node (some tmp)).rotateLeft node

/-- The end of a round that has changed the root of a red subtree, which is not the root. -/
def finishBelow (rest : List ObRbPath) (t : ObRbTree)
    (r : Memory × NodePtr) : Except Fault Unwound :=
  if rest = [] then .error .abort
    else .ok (.finished (relink rest (some r.2) { t with mem := r.1 }))

/-- The end of a round that has changed the root of the subtree. -/
def finishAt (rest : List ObRbPath) (t : ObRbTree) (r : Memory × NodePtr) : Unwound :=
  .finished (relink rest (some r.2) { t with mem := r.1 })

/-- The cases at an entry that was left to the left, with the right child of its node. -/
def restoreLeft (m : Memory) (p right : NodePtr) (rest : List ObRbPath) (t : ObRbTree) :
    Except Fault Unwound :=
  match m.getRed p, m.ifRed (m.getLeft right) with
  | true, some _ => do
      let r ← rotateRightLeft (m.setBlack p) p right
      finishBelow rest t r
  | true, none => do
      let r ← m.rotateLeft p
      finishBelow rest t r
  | false, some rightLeft => do
      let r ← rotateRightLeft (m.setBlack rightLeft) p right
      pure (finishAt rest t r)
  | false, none => do
      let r ← (m.setRed p).rotateLeft p
      pure (.goOn r.2 r.1)

/-- A round at an entry that was left to the left. -/
def unwindLeft (child : Option NodePtr) (p : NodePtr) (rest : List ObRbPath) (t : ObRbTree) :
    Except Fault Unwound := do
  let m := t.mem.setLeft p child
  let right ← deref (m.getRight p)
  restoreLeft m p right rest t

/-- The cases at an entry that was left to the right, with a red left child of its node. -/
def restoreRightRed (m : Memory) (p left : NodePtr) (rest : List ObRbPath) (t : ObRbTree) :
    Except Fault Unwound := do
  let leftRight ← deref (m.getRight left)
  match m.ifRed (m.getLeft leftRight) with
  | some leftRightLeft => do
      let m := m.setBlack leftRightLeft
      let (m, cur) ← m.rotateRight p
      let (m, tmp) ← m.rotateRight p
      let r ← (m.setRight cur (some tmp)).rotateLeft cur
      pure (finishAt rest t r)
  | none => do
      let m := m.setRed leftRight
      let (m, tmp) ← m.rotateRight p
      pure (finishAt rest t (m.setBlack tmp, tmp))

/-- The cases with a black left child. -/
def restoreRightBlack (m : Memory) (p left : NodePtr) (rest : List ObRbPath) (t : ObRbTree) :
    Except Fault Unwound :=
  match m.getRed p, m.ifRed (m.getLeft left) with
  | true, some leftLeft => do
      let m := ((m.setBlack p).setRed left).setBlack leftLeft
      let r ← m.rotateRight p
      finishBelow rest t r
  | true, none => pure (.finished { t with mem := (m.setRed left).setBlack p })
  | false, some leftLeft => do
      let r ← (m.setBlack leftLeft).rotateRight p
      pure (finishAt rest t r)
  | false, none => pure (.goOn p (m.setRed left))

/-- A round at an entry that was left to the right. -/
def unwindRight (child : Option NodePtr) (p : NodePtr) (rest : List ObRbPath) (t : ObRbTree) :
    Except Fault Unwound := do
  let m := t.mem.setRight p child
  let left ← deref (m.getLeft p)
  if m.getRed left then restoreRightRed m p left rest t else restoreRightBlack m p left rest t

/-- One round of the way up of `remove`. -/
def unwindRound (child : Option NodePtr) (p : ObRbPath) (rest : List ObRbPath) (t : ObRbTree) :
    Except Fault Unwound :=
  if p.cmp = 0 then .error .abort
  else if p.cmp < 0 then unwindLeft child p.node rest t
  else unwindRight child p.node rest t

/-- The way up of `remove` from a black node that was pruned. -/
def removeUnwind : Option NodePtr → List ObRbPath → ObRbTree → Except Fault ObRbTree
  | child, [], t => do
      let start ← deref child
      if t.mem.getRed start then .error .abort else pure { t with root := some start }
  | child, p :: rest, t => do
      let r ← unwindRound child p rest t
      match r with
      | .finished t => pure t
      | .goOn child m => removeUnwind (some child) rest { t with mem := m }

/-- The node at the end of the path, which has no children, is pruned. -/
def prune (node : NodePtr) (above : List ObRbPath) (t : ObRbTree) : Except Fault ObRbTree :=
  if t.mem.getRed node then
    match above with
    | [] => .error .pathUnderflow
    | ⟨q, c⟩ :: _ => if c < 0 then .ok { t with mem := t.mem.setLeft q none } else .error .abort
  else removeUnwind none above t

/-- The node to remove is at the end of the path. -/
def removeLast (node : NodePtr) (above : List ObRbPath) (t : ObRbTree) : Except Fault ObRbTree :=
  match t.mem.getLeft node with
  | some left =>
    if t.mem.getRed node then .error .abort
    else if ¬ t.mem.getRed left then .error .abort
    else .ok (relink above (some left) { t with mem := t.mem.setBlack left })
  | none =>
    match above with
    | [] => .ok { t with root := none }
    | above => prune node above t

/-- `node` and its successor `succ` change places, but for the links of `node`, which is pruned. -/
def swapSuccessor (node succ : NodePtr) (above : List ObRbPath) (t : ObRbTree) : ObRbTree :=
  let m := t.mem
  let tred := m.getRed succ
  let m := m.setColor succ (m.getRed node)
  let m := m.setLeft succ (m.getLeft node)
  let m := m.setRight succ (m.getRight node)
  let m := m.setColor node tred
  relink above (some succ) { t with mem := m }

def remove (node : Option NodePtr) (t : ObRbTree) : Except Fault (Ret × ObRbTree) :=
  match node with
  | none => .ok (.invalidArgument, t)
  | some node => do
      let (below, found, above) ← removeWind cmp node t.mem pathLength t.root []
      if found ≠ node then .error .abort
      else
        let t ←
          match below with
          | [] => removeLast node above t
          | ⟨last, _⟩ :: below =>
            if last ≠ node then
              -- The entries of the node and of its successor are swapped.
              prune node (below ++ ⟨last, 1⟩ :: above) (swapSuccessor node last above t)
            else removeLast node (below ++ ⟨found, 1⟩ :: above) t
        pure (.success, t)

/-! ## Searching -/

/-- `get_first` and `get_last` from a node, with a bound on the rounds. -/
def firstFrom (m : Memory) : ℕ → NodePtr → Except Fault NodePtr
  | 0, _ => .error .hang
  | fuel + 1, p =>
    match m.getLeft p with
    | some q => firstFrom m fuel q
    | none => .ok p

def lastFrom (m : Memory) : ℕ → NodePtr → Except Fault NodePtr
  | 0, _ => .error .hang
  | fuel + 1, p =>
    match m.getRight p with
    | some q => lastFrom m fuel q
    | none => .ok p

def getFirst (fuel : ℕ) (t : ObRbTree) : Except Fault (Option NodePtr) :=
  match t.root with
  | some root => some <$> firstFrom t.mem fuel root
  | none => .ok none

def getLast (fuel : ℕ) (t : ObRbTree) : Except Fault (Option NodePtr) :=
  match t.root with
  | some root => some <$> lastFrom t.mem fuel root
  | none => .ok none

/-- The loop of `get_next` from the root, with the candidate `returnNode`. -/
def nextLoop (node : NodePtr) (m : Memory) : ℕ → NodePtr → Option NodePtr →
    Except Fault (Option NodePtr)
  | 0, _, _ => .error .hang
  | fuel + 1, tmp, returnNode =>
    let c := cmp node tmp
    if c < 0 then
      match m.getLeft tmp with
      | some q => nextLoop node m fuel q (some tmp)
      | none => .ok (some tmp)
    else if c > 0 then
      match m.getRight tmp with
      | some q => nextLoop node m fuel q returnNode
      | none => .ok returnNode
    else .ok returnNode

def prevLoop (node : NodePtr) (m : Memory) : ℕ → NodePtr → Option NodePtr →
    Except Fault (Option NodePtr)
  | 0, _, _ => .error .hang
  | fuel + 1, tmp, returnNode =>
    let c := cmp node tmp
    if c < 0 then
      match m.getLeft tmp with
      | some q => prevLoop node m fuel q returnNode
      | none => .ok returnNode
    else if c > 0 then
      match m.getRight tmp with
      | some q => prevLoop node m fuel q (some tmp)
      | none => .ok (some tmp)
    else .ok returnNode

/-- With an invalid argument `return_node` is not set. -/
def getNext (fuel : ℕ) (node : Option NodePtr) (t : ObRbTree) :
    Except Fault (Ret × Option NodePtr) :=
  match node with
  | none => .ok (.invalidArgument, none)
  | some node => do
      let returnNode ←
        match t.mem.getRight node with
        | some right => some <$> firstFrom t.mem fuel right
        | none =>
          match t.root with
          | some root => nextLoop cmp node t.mem fuel root none
          | none => .error .abort
      pure (.success, returnNode)

def getPrev (fuel : ℕ) (node : Option NodePtr) (t : ObRbTree) :
    Except Fault (Ret × Option NodePtr) :=
  match node with
  | none => .ok (.invalidArgument, none)
  | some node => do
      let returnNode ←
        match t.mem.getLeft node with
        | some left => some <$> lastFrom t.mem fuel left
        | none =>
          match t.root with
          | some root => prevLoop cmp node t.mem fuel root none
          | none => .error .abort
      pure (.success, returnNode)

def searchLoop (key : NodePtr) (m : Memory) : ℕ → Option NodePtr → Except Fault (Option NodePtr)
  | 0, _ => .error .hang
  | _ + 1, none => .ok none
  | fuel + 1, some p =>
    let c := cmp key p
    if c = 0 then .ok (some p)
    else if c < 0 then searchLoop key m fuel (m.getLeft p)
    else searchLoop key m fuel (m.getRight p)

def nsearchLoop (key : NodePtr) (m : Memory) : ℕ → Option NodePtr → Option NodePtr →
    Except Fault (Option NodePtr)
  | 0, _, _ => .error .hang
  | _ + 1, none, returnNode => .ok returnNode
  | fuel + 1, some p, returnNode =>
    let c := cmp key p
    if c < 0 then nsearchLoop key m fuel (m.getLeft p) (some p)
    else if c > 0 then nsearchLoop key m fuel (m.getRight p) returnNode
    else .ok (some p)

def psearchLoop (key : NodePtr) (m : Memory) : ℕ → Option NodePtr → Option NodePtr →
    Except Fault (Option NodePtr)
  | 0, _, _ => .error .hang
  | _ + 1, none, returnNode => .ok returnNode
  | fuel + 1, some p, returnNode =>
    let c := cmp key p
    if c < 0 then psearchLoop key m fuel (m.getLeft p) returnNode
    else if c > 0 then psearchLoop key m fuel (m.getRight p) (some p)
    else .ok (some p)

/-- The common part of the three searches. -/
def searchWith (loop : NodePtr → Except Fault (Option NodePtr)) (key : Option NodePtr) :
    Except Fault (Ret × Option NodePtr) :=
  match key with
  | none => .ok (.invalidArgument, none)
  | some key => do
      let returnNode ← loop key
      pure (.success, returnNode)

def search (fuel : ℕ) (key : Option NodePtr) (t : ObRbTree) : Except Fault (Ret × Option NodePtr) :=
  searchWith (fun key => searchLoop cmp key t.mem fuel t.root) key

def nsearch (fuel : ℕ) (key : Option NodePtr) (t : ObRbTree) : Except Fault
    (Ret × Option NodePtr) :=
  searchWith (fun key => nsearchLoop cmp key t.mem fuel t.root none) key

def psearch (fuel : ℕ) (key : Option NodePtr) (t : ObRbTree) : Except Fault
    (Ret × Option NodePtr) :=
  searchWith (fun key => psearchLoop cmp key t.mem fuel t.root none) key

end Compare

end OceanBase.Container.RbTree
