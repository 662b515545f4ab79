import DailyReadCoding.Lib.Exec
import DailyReadCoding.Lib.Tournament

/-!
# `ObLoserTree`

A tournament tree over a fixed number of player slots (`ob_loser_tree.h`). `push` puts a player into
a free slot and marks the match above it; `rebuild` plays the marked matches again, from the last to
the first, and marks the match above whenever its outcome can change; `pop` removes the champion and
plays the matches above its leaf again, each against the loser kept there.

An index that is `INVALID_IDX` is `none`.
-/

namespace OceanBase.Container

open BinaryHeap

variable {T : Type}

/-! ## The tree -/

inductive ReplayType
  | noChange
  | loserChange
  | winnerChange
  | bothChange
  deriving DecidableEq

structure MatchResult where
  winnerIdx : Option ℕ
  loserIdx : Option ℕ
  isDraw : Bool
  replay : ReplayType
  deriving DecidableEq

/-- The codes of the tree. -/
inductive LoserTreeErr
  | errUnexpected
  | arrayOutOfRange
  | emptyResult
  | sizeOverflow
  /-- A slot is read that no player was stored in. -/
  | uninitialised
  deriving DecidableEq

namespace MatchResult

def reset : MatchResult := ⟨none, none, false, .noChange⟩

def setReplayType (m : MatchResult) (player : Option ℕ) : Except LoserTreeErr MatchResult :=
  if m.winnerIdx = none ∧ m.loserIdx = none then .ok { m with replay := .bothChange }
  else
    match m.replay with
    | .noChange =>
      if m.winnerIdx = player then .ok { m with replay := .winnerChange }
      else if m.loserIdx = player ∨ m.loserIdx = none then .ok { m with replay := .loserChange }
      else .error .errUnexpected
    | .bothChange => .error .errUnexpected
    | .winnerChange =>
      if m.winnerIdx = player then .error .errUnexpected
      else if m.loserIdx = player then .ok { m with replay := .bothChange }
      else .error .errUnexpected
    | .loserChange =>
      if m.loserIdx = player then .error .errUnexpected
      else if m.winnerIdx = player then .ok { m with replay := .bothChange }
      else .error .errUnexpected

end MatchResult

/-- The smallest power of two from `x` on, for `x` above one. -/
def nextPow2 (x : ℕ) : ℕ := if x ≠ 0 then 2 ^ Nat.size (x - 1) else 1

def getMatchCnt (playerCnt : ℕ) : ℕ :=
  if playerCnt ≤ 1 then playerCnt else nextPow2 playerCnt * 2 - 1

/-- An initialised tree; a slot of `players` is `none` until something is stored in it. -/
structure LoserTree (T : Type) where
  playerCnt : ℕ
  leafOffset : ℕ
  players : ℕ → Option T
  matchResults : ℕ → MatchResult
  freePlayers : ℕ → ℕ
  curFreeCnt : ℕ
  needRebuild : Bool
  isUniqueChampion : Bool

namespace LoserTree

/-- `init` for a valid number of players. -/
def init (totalPlayerCnt : ℕ) : LoserTree T where
  playerCnt := totalPlayerCnt
  leafOffset := (getMatchCnt totalPlayerCnt - 1) / 2
  players := fun _ => none
  matchResults := fun _ => .reset
  freePlayers := fun i => totalPlayerCnt - 1 - i
  curFreeCnt := totalPlayerCnt
  needRebuild := false
  isUniqueChampion := true

def empty (t : LoserTree T) : Bool := t.playerCnt == t.curFreeCnt

def isSinglePlayer (t : LoserTree T) : Bool := t.playerCnt == 1

def getLeaf (t : LoserTree T) (playerIdx : ℕ) : ℕ := t.leafOffset + playerIdx

def setMatch (t : LoserTree T) (i : ℕ) (m : MatchResult) : LoserTree T :=
  { t with matchResults := Function.update t.matchResults i m }

/-- `get_match_result` with `duel` -/
def getMatchResult (cmp : T → T → ℤ) (offender defender : Option ℕ) (matchIdx : ℕ)
    (t : LoserTree T) : Except LoserTreeErr (LoserTree T) :=
  let m := t.matchResults matchIdx
  if offender.any (· ≥ t.playerCnt) ∨ defender.any (· ≥ t.playerCnt) then
    .error .arrayOutOfRange
  else
    match offender, defender with
    | none, defender =>
      .ok (t.setMatch matchIdx { m with winnerIdx := defender, loserIdx := none, isDraw := false })
    | some o, none =>
      .ok (t.setMatch matchIdx { m with winnerIdx := some o, loserIdx := none, isDraw := false })
    | some o, some d =>
      match t.players o, t.players d with
      | some x, some y =>
        let cmpRet := cmp x y
        .ok (t.setMatch matchIdx
          { m with
            winnerIdx := if cmpRet < 0 then some o else some d
            loserIdx := if cmpRet < 0 then some d else some o
            isDraw := cmpRet == 0 })
      | _, _ => .error .uninitialised

/-- The loop of `set_unique_champion`: no match above `child` is a draw. -/
def uniqueLoop (t : LoserTree T) (child : ℕ) : Bool :=
  if _h : child > 0 then
    if (t.matchResults (parent child)).isDraw then false else uniqueLoop t (parent child)
  else true
termination_by child
decreasing_by exact parent_lt _h

def setUniqueChampion (t : LoserTree T) : LoserTree T :=
  match (t.matchResults 0).winnerIdx with
  | some champion =>
    if champion < t.playerCnt then
      { t with isUniqueChampion := t.uniqueLoop (t.getLeaf champion) }
    else { t with isUniqueChampion := true }
  | none => { t with isUniqueChampion := true }

/-- One round of the loop of `inner_rebuild`. -/
def rebuildMatch (cmp : T → T → ℤ) (j : ℕ) (t : LoserTree T) :
    Except LoserTreeErr (LoserTree T) :=
  let oldWinner := (t.matchResults j).winnerIdx
  if (t.matchResults j).replay = .noChange then .ok t
  else do
    let t ← t.getMatchResult cmp (t.matchResults (2 * j + 1)).winnerIdx
      (t.matchResults (2 * j + 2)).winnerIdx j
    let m := t.matchResults j
    let t ←
      if m.replay = .loserChange ∧ oldWinner = m.winnerIdx then pure t
      else if j > 0 then do
        let up ← (t.matchResults (parent j)).setReplayType oldWinner
        pure (t.setMatch (parent j) up)
      else pure t
    pure (t.setMatch j { t.matchResults j with replay := .noChange })

/-- The loop of `inner_rebuild` over the matches below `j`, the last first. -/
def rebuildLoop (cmp : T → T → ℤ) : ℕ → LoserTree T → Except LoserTreeErr (LoserTree T)
  | 0, t => .ok t
  | j + 1, t => do
      let t ← t.rebuildMatch cmp j
      rebuildLoop cmp j t

def innerRebuild (cmp : T → T → ℤ) (t : LoserTree T) : Except LoserTreeErr (LoserTree T) := do
  let t ← rebuildLoop cmp t.leafOffset t
  pure { t.setUniqueChampion with needRebuild := false }

def rebuild (cmp : T → T → ℤ) (t : LoserTree T) : Except LoserTreeErr (LoserTree T) :=
  if t.isSinglePlayer then .ok { t with needRebuild := false }
  else if t.needRebuild = false then .ok t
  else if t.empty then .error .emptyResult
  else t.innerRebuild cmp

/-- The loop of `update_champion_path`. -/
def pathLoop (cmp : T → T → ℤ) (child : ℕ) (t : LoserTree T) :
    Except LoserTreeErr (LoserTree T) :=
  if _h : child > 0 then
    let winnerIdx := (t.matchResults child).winnerIdx
    let loserIdx := (t.matchResults (parent child)).loserIdx
    if winnerIdx = loserIdx ∧ winnerIdx ≠ none then .error .errUnexpected
    else do
      let t ← t.getMatchResult cmp winnerIdx loserIdx (parent child)
      pathLoop cmp (parent child) t
  else .ok t
termination_by child
decreasing_by exact parent_lt _h

def updateChampionPath (cmp : T → T → ℤ) (idx : ℕ) (t : LoserTree T) :
    Except LoserTreeErr (LoserTree T) :=
  let child := t.getLeaf idx
  let t := t.setMatch child { t.matchResults child with winnerIdx := none, loserIdx := none }
  pathLoop cmp child t

def top (t : LoserTree T) : Except LoserTreeErr T :=
  let read (i : ℕ) : Except LoserTreeErr T :=
    match t.players i with
    | some player => .ok player
    | none => .error .uninitialised
  if t.needRebuild then .error .errUnexpected
  else if t.empty then .error .emptyResult
  else if t.isSinglePlayer then read 0
  else
    match (t.matchResults 0).winnerIdx with
    | some winner => if winner ≥ t.playerCnt then .error .errUnexpected else read winner
    | none => .error .errUnexpected

def push (player : T) (t : LoserTree T) : Except LoserTreeErr (LoserTree T) :=
  if t.curFreeCnt = 0 then .error .sizeOverflow
  else do
    let t ←
      if t.isSinglePlayer then pure { t with players := Function.update t.players 0 (some player) }
      else do
        let idx := t.freePlayers (t.curFreeCnt - 1)
        let leaf := t.getLeaf idx
        let up ← (t.matchResults (parent leaf)).setReplayType (some idx)
        let t := t.setMatch (parent leaf) up
        let t := { t with players := Function.update t.players idx (some player) }
        pure (t.setMatch leaf
          { t.matchResults leaf with winnerIdx := some idx, loserIdx := some idx })
    pure { t with curFreeCnt := t.curFreeCnt - 1, needRebuild := true }

def pop (cmp : T → T → ℤ) (t : LoserTree T) : Except LoserTreeErr (LoserTree T) :=
  if t.needRebuild then .error .errUnexpected
  else if t.empty then .error .emptyResult
  else if t.isSinglePlayer then .ok { t with curFreeCnt := t.playerCnt }
  else
    match (t.matchResults 0).winnerIdx with
    | some champion =>
      if champion ≥ t.playerCnt then .error .errUnexpected
      else do
        let t ← t.updateChampionPath cmp champion
        let t := t.setUniqueChampion
        pure { t with
          freePlayers := Function.update t.freePlayers t.curFreeCnt champion
          curFreeCnt := t.curFreeCnt + 1 }
    | none => .error .errUnexpected

end LoserTree

end OceanBase.Container
