import DailyReadCoding.Lib.OrderedIndex

/-!
# The transaction request tracker

`TxRequestTracker` (`txrequest.cpp`) decides which peer to ask for which transaction. It keeps the
announcements of all peers in one container with three orders: by peer, by transaction hash, state
and priority, and by time.

The container is modelled by the announcements in the order they were made and by the two orders in
which different announcements may be equivalent. A changed announcement is put back by a
`Placement`, so that nothing depends on where it lands among its equivalents. Peers and hashes are
linearly ordered types, an iterator is the peer and the hash of an announcement, and times are
integers. Sequence numbers are not bounded here; `sequence_lt_of_run` says that those of a history
of at most `2 ^ 59` operations fit the 59 bits of the field.
-/

namespace Bitcoin.TxRequest

open OrderedIndex

/-! ## Announcements -/

/-- `State` -/
inductive AnnState
  | candidateDelayed
  | candidateReady
  | candidateBest
  | requested
  | completed
  deriving DecidableEq, Repr

/-- The position in the enumeration, by which announcements are ordered. -/
def AnnState.rank : AnnState → ℕ
  | .candidateDelayed => 0
  | .candidateReady => 1
  | .candidateBest => 2
  | .requested => 3
  | .completed => 4

structure Announcement (P H : Type) where
  txhash : H
  time : ℤ
  peer : P
  sequence : ℕ
  preferred : Bool
  isWtxid : Bool
  state : AnnState
  deriving DecidableEq

/-- A hash and whether it is a witness hash. -/
structure GenTxid (H : Type) where
  isWtxid : Bool
  hash : H
  deriving DecidableEq

namespace Announcement

variable {P H : Type}

/-- What identifies an announcement. -/
def key (a : Announcement P H) : P × H := (a.peer, a.txhash)

def setState (st : AnnState) (a : Announcement P H) : Announcement P H := { a with state := st }

def IsSelected (a : Announcement P H) : Prop := a.state = .candidateBest ∨ a.state = .requested

def IsWaiting (a : Announcement P H) : Prop := a.state = .requested ∨ a.state = .candidateDelayed

def IsSelectable (a : Announcement P H) : Prop :=
  a.state = .candidateReady ∨ a.state = .candidateBest

instance (a : Announcement P H) : Decidable a.IsSelected := inferInstanceAs (Decidable (_ ∨ _))

instance (a : Announcement P H) : Decidable a.IsWaiting := inferInstanceAs (Decidable (_ ∨ _))

instance (a : Announcement P H) : Decidable a.IsSelectable := inferInstanceAs (Decidable (_ ∨ _))

def toGenTxid (a : Announcement P H) : GenTxid H := ⟨a.isWtxid, a.txhash⟩

/-- `GetWaitState`, as a position in its enumeration. -/
def waitState (a : Announcement P H) : ℕ :=
  if a.IsWaiting then 0 else if a.IsSelectable then 2 else 1

end Announcement

/-- What it makes of a hash, a peer and whether the peer is preferred. -/
abbrev PriorityComputer (P H : Type) : Type := H → P → Bool → ℕ

/-- The priority of an announcement. -/
def PriorityComputer.of {P H : Type} (prio : PriorityComputer P H) (a : Announcement P H) : ℕ :=
  prio a.txhash a.peer a.preferred

/-! ## The three orders -/

section Orders

variable {P H : Type} [LinearOrder P] [LinearOrder H]

/-- `ByTxHashView` -/
def txHashView (prio : PriorityComputer P H) (a : Announcement P H) : H × ℕ × ℕ :=
  (a.txhash, a.state.rank, if a.state = .candidateReady then prio.of a else 0)

/-- The order of tuples. -/
def viewLt (x y : H × ℕ × ℕ) : Prop :=
  x.1 < y.1 ∨ (x.1 = y.1 ∧ (x.2.1 < y.2.1 ∨ (x.2.1 = y.2.1 ∧ x.2.2 < y.2.2)))

instance (x y : H × ℕ × ℕ) : Decidable (viewLt x y) := inferInstanceAs (Decidable (_ ∨ _))

/-- The order of `ByTxHash`. -/
def txHashLe (prio : PriorityComputer P H) (a b : Announcement P H) : Prop :=
  ¬ viewLt (txHashView prio b) (txHashView prio a)

/-- The order of `ByTime`. -/
def timeLt (a b : Announcement P H) : Prop :=
  a.waitState < b.waitState ∨ (a.waitState = b.waitState ∧ a.time < b.time)

instance (a b : Announcement P H) : Decidable (timeLt a b) := inferInstanceAs (Decidable (_ ∨ _))

/-- `ByPeerView` -/
def peerView (a : Announcement P H) : P × Bool × H :=
  (a.peer, decide (a.state = .candidateBest), a.txhash)

/-- The order of tuples. -/
def peerViewLt (x y : P × Bool × H) : Prop :=
  x.1 < y.1 ∨ (x.1 = y.1 ∧ (x.2.1 < y.2.1 ∨ (x.2.1 = y.2.1 ∧ x.2.2 < y.2.2)))

instance (x y : P × Bool × H) : Decidable (peerViewLt x y) := inferInstanceAs (Decidable (_ ∨ _))

/-- The order of `ByPeer`. -/
def peerLe (a b : Announcement P H) : Prop := ¬ peerViewLt (peerView b) (peerView a)

instance (a b : Announcement P H) : Decidable (peerLe a b) := inferInstanceAs (Decidable (¬ _))

/-- How the two orders with equivalent announcements take an announcement in. -/
structure Placements (prio : PriorityComputer P H) where
  byTxHash : Placement (Announcement P H) (txHashLe prio)
  byTime : Placement (Announcement P H) (fun a b => ¬ timeLt b a)

end Orders

/-! ## The container and the counters -/

/-- The counters are integers, so that one taken below zero would show. -/
structure PeerInfo where
  total : ℤ
  completed : ℤ
  requested : ℤ
  deriving DecidableEq

/-- The state of `TxRequestTracker::Impl`. -/
structure Tracker (P H : Type) where
  currentSequence : ℕ
  /-- The announcements, in the order they were made. -/
  index : List (Announcement P H)
  byTxHash : List (Announcement P H)
  byTime : List (Announcement P H)
  peerinfo : P → Option PeerInfo
  /-- The number of changes made to the container. -/
  changes : ℕ

/-- A new tracker. -/
def Tracker.initial (P H : Type) : Tracker P H := ⟨0, [], [], [], fun _ => none, 0⟩

/-- `state == COMPLETED` and so on, added to a counter. -/
def ind (p : Prop) [Decidable p] : ℤ := if p then 1 else 0

section Container

variable {P H : Type} [LinearOrder P] [LinearOrder H] {prio : PriorityComputer P H}
  (pl : Placements prio)

/-- An announcement by its peer and its hash. -/
def Tracker.find (s : Tracker P H) (it : P × H) : Option (Announcement P H) :=
  s.index.find? fun a => a.key = it

/-- The `ByPeer` order, in which no two announcements are equivalent. -/
def Tracker.byPeer (s : Tracker P H) : List (Announcement P H) := s.index.insertionSort peerLe

def modify (it : P × H) (f : Announcement P H → Announcement P H) (s : Tracker P H) :
    Tracker P H :=
  match s.find it with
  | none => s
  | some a =>
    { s with
      index := s.index.map fun b => if b.key = it then f b else b
      byTxHash := pl.byTxHash.place s.changes (f a) (s.byTxHash.filter (·.key ≠ it))
      byTime := pl.byTime.place s.changes (f a) (s.byTime.filter (·.key ≠ it))
      peerinfo := Function.update s.peerinfo a.peer ((s.peerinfo a.peer).map fun info =>
        { info with
          completed := info.completed - ind (a.state = .completed) + ind ((f a).state = .completed)
          requested :=
          info.requested - ind (a.state = .requested) + ind ((f a).state = .requested) })
      changes := s.changes + 1 }

/-- The counters of a peer that loses an announcement; the last one takes the entry along. -/
def PeerInfo.remove (a : Announcement P H) (info : PeerInfo) : Option PeerInfo :=
  if info.total - 1 = 0 then none
  else some
    { total := info.total - 1
      completed := info.completed - ind (a.state = .completed)
      requested := info.requested - ind (a.state = .requested) }

def erase (it : P × H) (s : Tracker P H) : Tracker P H :=
  match s.find it with
  | none => s
  | some a =>
    { s with
      index := s.index.filter (·.key ≠ it)
      byTxHash := s.byTxHash.filter (·.key ≠ it)
      byTime := s.byTime.filter (·.key ≠ it)
      peerinfo := Function.update s.peerinfo a.peer ((s.peerinfo a.peer).bind (PeerInfo.remove a))
      changes := s.changes + 1 }

/-- `++m_total` -/
def PeerInfo.incrTotal (info : PeerInfo) : PeerInfo := { info with total := info.total + 1 }

/-- What `ReceivedInv` does with an announcement that is new. -/
def insert (a : Announcement P H) (s : Tracker P H) : Tracker P H :=
  { currentSequence := s.currentSequence + 1
    index := s.index ++ [a]
    byTxHash := pl.byTxHash.place s.changes a s.byTxHash
    byTime := pl.byTime.place s.changes a s.byTime
    peerinfo := Function.update s.peerinfo a.peer
      (some ((s.peerinfo a.peer).getD ⟨0, 0, 0⟩).incrTotal)
    changes := s.changes + 1 }

end Container

/-! ## Transitions -/

section Transitions

variable {P H : Type} [LinearOrder P] [LinearOrder H] {prio : PriorityComputer P H}
  (pl : Placements prio)

def promoteCandidateReady (it : P × H) (s : Tracker P H) : Tracker P H :=
  let s := modify pl it (Announcement.setState .candidateReady) s
  match after Announcement.key it s.byTxHash with
  | none => modify pl it (Announcement.setState .candidateBest) s
  | some next =>
    if next.txhash ≠ it.2 ∨ next.state = .completed then
      modify pl it (Announcement.setState .candidateBest) s
    else if next.state = .candidateBest then
      match s.find it with
      | none => s
      | some a =>
        if prio.of a > prio.of next then
          modify pl it (Announcement.setState .candidateBest)
            (modify pl next.key (Announcement.setState .candidateReady) s)
        else s
    else s

/-- The first half of `ChangeAndReselect`: a ready announcement in front of a selected one takes its
place. -/
def reselect (it : P × H) (s : Tracker P H) : Tracker P H :=
  match s.find it with
  | none => s
  | some a =>
    if a.IsSelected then
      match before Announcement.key it s.byTxHash with
      | none => s
      | some prev =>
        if prev.txhash = it.2 ∧ prev.state = .candidateReady then
          modify pl prev.key (Announcement.setState .candidateBest) s
        else s
    else s

def changeAndReselect (it : P × H) (newState : AnnState) (s : Tracker P H) : Tracker P H :=
  modify pl it (Announcement.setState newState) (reselect pl it s)

def isOnlyNonCompleted (it : P × H) (s : Tracker P H) : Bool :=
  if (before Announcement.key it s.byTxHash).any (·.txhash = it.2) then false
  else if (after Announcement.key it s.byTxHash).any
    (fun a => a.txhash = it.2 ∧ a.state ≠ .completed) then false
  else true

/-- `it = Erase(it)` from an announcement on, as long as the next one is for the same transaction.
-/
def eraseWhile (txhash : H) : ℕ → P × H → Tracker P H → Tracker P H
  | 0, _, s => s
  | fuel + 1, it, s =>
    match after Announcement.key it s.byTxHash with
    | none => erase it s
    | some next =>
      if next.txhash = txhash then eraseWhile txhash fuel next.key (erase it s) else erase it s

/-- The flag says whether the announcement still exists. -/
def makeCompleted (it : P × H) (s : Tracker P H) : Bool × Tracker P H :=
  match s.find it with
  | none => (true, s)
  | some a =>
    if a.state = .completed then (true, s)
    else if isOnlyNonCompleted it s then (false, eraseWhile it.2 s.index.length it s)
    else (true, changeAndReselect pl it .completed s)

/-- The first loop of `SetTimePoint`: what waits for a time that has come moves on. -/
def expireLoop (now : ℤ) : ℕ → List (P × GenTxid H) → Tracker P H →
    List (P × GenTxid H) × Tracker P H
  | 0, expired, s => (expired, s)
  | fuel + 1, expired, s =>
    match s.byTime.head? with
    | none => (expired, s)
    | some it =>
      if it.state = .candidateDelayed ∧ it.time ≤ now then
        expireLoop now fuel expired (promoteCandidateReady pl it.key s)
      else if it.state = .requested ∧ it.time ≤ now then
        expireLoop now fuel (expired ++ [(it.peer, it.toGenTxid)]) (makeCompleted pl it.key s).2
      else (expired, s)

/-- The second loop: if time went backwards, candidates whose time has not come wait again. -/
def demoteLoop (now : ℤ) : ℕ → Tracker P H → Tracker P H
  | 0, s => s
  | fuel + 1, s =>
    match s.byTime.getLast? with
    | none => s
    | some it =>
      if it.IsSelectable ∧ it.time > now then
        demoteLoop now fuel (changeAndReselect pl it.key .candidateDelayed s)
      else s

/-- No loop makes more rounds than there are announcements. -/
def setTimePoint (now : ℤ) (s : Tracker P H) : List (P × GenTxid H) × Tracker P H :=
  let moved := expireLoop pl now s.index.length [] s
  (moved.1, demoteLoop pl now moved.2.index.length moved.2)

/-! ## Operations -/

def receivedInv (peer : P) (gtxid : GenTxid H) (preferred : Bool) (reqtime : ℤ)
    (s : Tracker P H) : Tracker P H :=
  if s.index.any fun a => peerView a = (peer, true, gtxid.hash) then s
  else if s.index.any fun a => peerView a = (peer, false, gtxid.hash) then s
  else insert pl ⟨gtxid.hash, reqtime, peer, s.currentSequence, preferred, gtxid.isWtxid,
    .candidateDelayed⟩ s

/-- Before another announcement is requested, the best one becomes ready and a requested one
completed. -/
def unselect (txhash : H) (s : Tracker P H) : Tracker P H :=
  match s.byTxHash.find? fun a => ¬ viewLt (txHashView prio a)
      (txhash, AnnState.candidateBest.rank, 0) with
  | none => s
  | some old =>
    if old.txhash = txhash then
      if old.state = .candidateBest then
        modify pl old.key (Announcement.setState .candidateReady) s
      else if old.state = .requested then
        modify pl old.key (Announcement.setState .completed) s
      else s
    else s

/-- The change of state at the end of `RequestedTx`. -/
def request (expiry : ℤ) (a : Announcement P H) : Announcement P H :=
  { a with state := .requested, time := expiry }

def requestedTx (peer : P) (txhash : H) (expiry : ℤ) (s : Tracker P H) : Tracker P H :=
  match s.index.find? fun a => peerView a = (peer, true, txhash) with
  | some a => modify pl a.key (request expiry) s
  | none =>
    match s.index.find? fun a => peerView a = (peer, false, txhash) with
    | none => s
    | some a =>
      if a.state ≠ .candidateDelayed ∧ a.state ≠ .candidateReady then s
      else modify pl a.key (request expiry) (unselect pl txhash s)

def receivedResponse (peer : P) (txhash : H) (s : Tracker P H) : Tracker P H :=
  match s.index.find? fun a => peerView a = (peer, false, txhash) with
  | some a => (makeCompleted pl a.key s).2
  | none =>
    match s.index.find? fun a => peerView a = (peer, true, txhash) with
    | some a => (makeCompleted pl a.key s).2
    | none => s

def forgetTxHash (prio : PriorityComputer P H) (txhash : H) (s : Tracker P H) : Tracker P H :=
  match s.byTxHash.find? fun a => ¬ viewLt (txHashView prio a)
      (txhash, AnnState.candidateDelayed.rank, 0) with
  | none => s
  | some it => if it.txhash = txhash then eraseWhile txhash s.index.length it.key s else s

variable [OrderBot H]

/-- The announcements of a peer that are to be requested, by the `ByPeer` order from a bound on. -/
def selectedOf (peer : P) (s : Tracker P H) : List (Announcement P H) :=
  (s.byPeer.dropWhile fun a => peerViewLt (peerView a) (peer, true, ⊥)).takeWhile
    fun a => a.peer = peer ∧ a.state = .candidateBest

/-- The result, the expired requests and the new state. -/
def getRequestable (peer : P) (now : ℤ) (s : Tracker P H) :
    List (GenTxid H) × List (P × GenTxid H) × Tracker P H :=
  let moved := setTimePoint pl now s
  (((selectedOf peer moved.2).insertionSort (·.sequence ≤ ·.sequence)).map Announcement.toGenTxid,
    moved.1, moved.2)

/-- The loop of `DisconnectedPeer`; where to go on is decided before the announcement is deleted. -/
def disconnectLoop (peer : P) : ℕ → Option (P × H) → Tracker P H → Tracker P H
  | 0, _, s => s
  | _ + 1, none, s => s
  | fuel + 1, some it, s =>
    let next := ((after Announcement.key it s.byPeer).filter (·.peer = peer)).map Announcement.key
    let done := makeCompleted pl it s
    disconnectLoop peer fuel next (if done.1 then erase it done.2 else done.2)

def disconnectedPeer (peer : P) (s : Tracker P H) : Tracker P H :=
  let first := (s.byPeer.find? fun a => ¬ peerViewLt (peerView a) (peer, false, ⊥)).filter
    (·.peer = peer)
  disconnectLoop pl peer s.index.length (first.map Announcement.key) s

/-- The operations that change the tracker. -/
inductive Event (P H : Type)
  | receivedInv (peer : P) (gtxid : GenTxid H) (preferred : Bool) (reqtime : ℤ)
  | requestedTx (peer : P) (txhash : H) (expiry : ℤ)
  | receivedResponse (peer : P) (txhash : H)
  | getRequestable (peer : P) (now : ℤ)
  | forgetTxHash (txhash : H)
  | disconnectedPeer (peer : P)

/-- One operation. -/
def step (s : Tracker P H) : Event P H → Tracker P H
  | .receivedInv peer gtxid preferred reqtime => receivedInv pl peer gtxid preferred reqtime s
  | .requestedTx peer txhash expiry => requestedTx pl peer txhash expiry s
  | .receivedResponse peer txhash => receivedResponse pl peer txhash s
  | .getRequestable peer now => (getRequestable pl peer now s).2.2
  | .forgetTxHash txhash => forgetTxHash prio txhash s
  | .disconnectedPeer peer => disconnectedPeer pl peer s

/-- A history of operations from a new tracker on. -/
def run (events : List (Event P H)) : Tracker P H := events.foldl (step pl) (Tracker.initial P H)

end Transitions

/-! ## What the source asserts -/

section Checks

variable {P H : Type} [LinearOrder P] [LinearOrder H]

/-- `RecomputePeerInfo` at a peer -/
def recomputePeerInfo (index : List (Announcement P H)) (peer : P) : Option PeerInfo :=
  let own := index.filter (·.peer = peer)
  if own = [] then none
  else some ⟨own.length, own.countP (·.state = .completed), own.countP (·.state = .requested)⟩

/-- The number of announcements for a transaction in a state. -/
def countState (index : List (Announcement P H)) (txhash : H) (st : AnnState) : ℕ :=
  (index.filter (·.txhash = txhash)).countP (·.state = st)

/-- `m_priority_candidate_best`, with the maximum of its type for none -/
def priorityCandidateBest (prio : PriorityComputer P H) (index : List (Announcement P H))
    (txhash : H) : ℕ :=
  (index.filter (·.txhash = txhash)).foldl
    (fun p a => if a.state = .candidateBest then prio.of a else p) (2 ^ 64 - 1)

/-- `m_priority_best_candidate_ready`, with zero for none -/
def priorityBestCandidateReady (prio : PriorityComputer P H) (index : List (Announcement P H))
    (txhash : H) : ℕ :=
  (index.filter (·.txhash = txhash)).foldl
    (fun p a => if a.state = .candidateReady then max p (prio.of a) else p) 0

/-- The conditions of `SanityCheck` on one transaction. -/
structure TxHashOk (prio : PriorityComputer P H) (index : List (Announcement P H)) (txhash : H) :
    Prop where
  notOnlyCompleted : countState index txhash .candidateDelayed +
    countState index txhash .candidateReady + countState index txhash .candidateBest +
    countState index txhash .requested > 0
  atMostOneSelected :
    countState index txhash .candidateBest + countState index txhash .requested ≤ 1
  selectedIfReady : countState index txhash .candidateReady > 0 →
    countState index txhash .candidateBest + countState index txhash .requested = 1
  bestPriority : countState index txhash .candidateReady ≠ 0 →
    countState index txhash .candidateBest ≠ 0 →
    priorityCandidateBest prio index txhash ≥ priorityBestCandidateReady prio index txhash
  peersDistinct : ((index.filter (·.txhash = txhash)).map (·.peer)).Nodup

structure SanityCheck (prio : PriorityComputer P H) (s : Tracker P H) : Prop where
  peerinfo : s.peerinfo = recomputePeerInfo s.index
  txhash : ∀ a ∈ s.index, TxHashOk prio s.index a.txhash

def PostGetRequestableSanityCheck (now : ℤ) (s : Tracker P H) : Prop :=
  ∀ a ∈ s.index, if a.IsWaiting then a.time > now else if a.IsSelectable then a.time ≤ now else True

end Checks

end Bitcoin.TxRequest
