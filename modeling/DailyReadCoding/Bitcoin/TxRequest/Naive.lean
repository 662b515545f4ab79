import DailyReadCoding.Bitcoin.TxRequest.Sanity

/-!
# What the tracker is for

The same operations on a plain list of announcements, in the order they were made. An announcement
is a candidate, requested or completed; which candidate to request is worked out from the list
whenever it is asked for. This is the structure against which the source's own fuzz test compares
the tracker.
-/

namespace Bitcoin.TxRequest.Naive

open List Function

variable {P H : Type} [DecidableEq P] [DecidableEq H]

/-- The states of an announcement. -/
inductive State
  | candidate
  | requested
  | completed
  deriving DecidableEq, Repr

/-- An announcement; its time is when it may be requested, or when a request expires. -/
structure Ann (P H : Type) where
  peer : P
  hash : H
  isWtxid : Bool
  preferred : Bool
  time : ℤ
  state : State
  deriving DecidableEq

/-- Whether an announcement of the transaction is not completed. -/
def live (l : List (Ann P H)) (h : H) : Bool := l.any fun a => a.hash = h ∧ a.state ≠ .completed

/-- Without the transactions of which all announcements are completed. -/
def cleanup (l : List (Ann P H)) : List (Ann P H) := l.filter fun a => live l a.hash

/-- An announcement completed. -/
def Ann.complete (a : Ann P H) : Ann P H := { a with state := .completed }

/-- Some announcements completed. -/
def complete (p : Ann P H → Bool) (l : List (Ann P H)) : List (Ann P H) :=
  l.map fun a => if p a then a.complete else a

/-! ## Operations -/

/-- A new announcement is a candidate. -/
def receivedInv (peer : P) (gtxid : GenTxid H) (preferred : Bool) (reqtime : ℤ)
    (l : List (Ann P H)) : List (Ann P H) :=
  if l.any fun a => a.peer = peer ∧ a.hash = gtxid.hash then l
  else l ++ [⟨peer, gtxid.hash, gtxid.isWtxid, preferred, reqtime, .candidate⟩]

/-- One announcement when a candidate of a peer is requested. -/
def Ann.request (peer : P) (txhash : H) (expiry : ℤ) (a : Ann P H) : Ann P H :=
  if a.hash = txhash then
    if a.peer = peer then { a with state := .requested, time := expiry }
    else if a.state = .requested then a.complete
    else a
  else a

/-- A candidate is requested, and a request for the same transaction completed. -/
def requestedTx (peer : P) (txhash : H) (expiry : ℤ) (l : List (Ann P H)) : List (Ann P H) :=
  if l.any fun a => a.peer = peer ∧ a.hash = txhash ∧ a.state = .candidate then
    l.map (Ann.request peer txhash expiry)
  else l

/-- A response completes the announcement. -/
def receivedResponse (peer : P) (txhash : H) (l : List (Ann P H)) : List (Ann P H) :=
  cleanup (complete (fun a => a.peer = peer ∧ a.hash = txhash) l)

/-- Whether an announcement is a request that expires. -/
def Ann.isExpired (now : ℤ) (a : Ann P H) : Bool := a.state = .requested ∧ a.time ≤ now

/-- Expired requests are completed. -/
def expire (now : ℤ) (l : List (Ann P H)) : List (Ann P H) :=
  cleanup (complete (Ann.isExpired now) l)

/-- A transaction is forgotten. -/
def forgetTxHash (txhash : H) (l : List (Ann P H)) : List (Ann P H) :=
  l.filter (·.hash ≠ txhash)

/-- The announcements of a peer are dropped. -/
def disconnectedPeer (peer : P) (l : List (Ann P H)) : List (Ann P H) :=
  cleanup (l.filter (·.peer ≠ peer))

/-- One operation. -/
def step (l : List (Ann P H)) : Event P H → List (Ann P H)
  | .receivedInv peer gtxid preferred reqtime => receivedInv peer gtxid preferred reqtime l
  | .requestedTx peer txhash expiry => requestedTx peer txhash expiry l
  | .receivedResponse peer txhash => receivedResponse peer txhash l
  | .getRequestable _ now => expire now l
  | .forgetTxHash txhash => forgetTxHash txhash l
  | .disconnectedPeer peer => disconnectedPeer peer l

/-- A history of operations. -/
def run (events : List (Event P H)) : List (Ann P H) := events.foldl step []

/-- The priority of an announcement. -/
def Ann.prio (prio : PriorityComputer P H) (a : Ann P H) : ℕ := prio a.hash a.peer a.preferred

/-- Whether an announcement is a candidate whose time has come. -/
def Ann.isReady (now : ℤ) (a : Ann P H) : Prop := a.state = .candidate ∧ a.time ≤ now

instance (now : ℤ) (a : Ann P H) : Decidable (a.isReady now) := inferInstanceAs (Decidable (_ ∧ _))

/-- The announcement to request: ready, without a request for the transaction, and of the highest
priority among the ready ones. -/
def Selected (prio : PriorityComputer P H) (now : ℤ) (l : List (Ann P H)) (a : Ann P H) : Prop :=
  a.isReady now ∧ (∀ b ∈ l, b.hash = a.hash → b.state ≠ .requested) ∧
    ∀ b ∈ l, b.hash = a.hash → b.isReady now → b.prio prio ≤ a.prio prio

instance (prio : PriorityComputer P H) (now : ℤ) (l : List (Ann P H)) (a : Ann P H) :
    Decidable (Selected prio now l a) := inferInstanceAs (Decidable (_ ∧ _ ∧ _))

/-- What to request from a peer now, in the order of the announcements. -/
def requestable (prio : PriorityComputer P H) (peer : P) (now : ℤ) (l : List (Ann P H)) :
    List (GenTxid H) :=
  ((expire now l).filter fun a => a.peer = peer ∧ Selected prio now (expire now l) a).map
    fun a => ⟨a.isWtxid, a.hash⟩

/-- The requests that expire. -/
def expired (now : ℤ) (l : List (Ann P H)) : List (P × GenTxid H) :=
  (l.filter (Ann.isExpired now)).map fun a => (a.peer, ⟨a.isWtxid, a.hash⟩)

/-! ## Dropping completed transactions -/

omit [DecidableEq P]

variable {l : List (Ann P H)}

lemma live_iff {h : H} : live l h = true ↔ ∃ a ∈ l, a.hash = h ∧ a.state ≠ .completed := by
  simp [live]

lemma live_mono {l' : List (Ann P H)} (hsub : ∀ a ∈ l, a.state ≠ .completed → a ∈ l') {h : H}
    (hl : live l h = true) : live l' h = true := by
  obtain ⟨a, ha, hhash, hlive⟩ := live_iff.1 hl
  exact live_iff.2 ⟨a, hsub a ha hlive, hhash, hlive⟩

lemma cleanup_eq_self (hlive : ∀ a ∈ l, live l a.hash = true) : cleanup l = l :=
  filter_eq_self.2 hlive

/-- **Completed transactions may be dropped before or after** what does not look across
transactions. -/
theorem cleanup_absorb {F : List (Ann P H) → List (Ann P H)}
    (hfilter : ∀ (q : H → Bool) (l : List (Ann P H)),
      F (l.filter fun a => q a.hash) = (F l).filter fun a => q a.hash)
    (hlive : ∀ l h, live (F l) h = true → live l h = true) (l : List (Ann P H)) :
    cleanup (F (cleanup l)) = cleanup (F l) := by
  have hF : F (cleanup l) = (F l).filter fun a => live l a.hash := hfilter (live l) l
  rw [hF, cleanup, filter_filter]
  refine filter_congr fun a _ => ?_
  rw [Bool.eq_iff_iff, Bool.and_eq_true]
  constructor
  · rintro ⟨ha, -⟩
    exact live_mono (fun b hb _ => mem_of_mem_filter hb) ha
  · intro ha
    have hl := hlive l a.hash ha
    obtain ⟨b, hb, hhash, hb_live⟩ := live_iff.1 ha
    refine ⟨live_iff.2 ⟨b, mem_filter.2 ⟨hb, ?_⟩, hhash, hb_live⟩, hl⟩
    rwa [hhash]

omit [DecidableEq H] in
lemma complete_filter (p : Ann P H → Bool) (q : H → Bool) (l : List (Ann P H)) :
    complete p (l.filter fun a => q a.hash) = (complete p l).filter fun a => q a.hash := by
  have hhash : (fun a : Ann P H => q a.hash) ∘ (fun a => if p a then a.complete else a) =
      fun a => q a.hash := by
    funext a
    rw [comp_apply]
    split_ifs <;> rfl
  rw [complete, complete, filter_map, hhash]

variable {p q : Ann P H → Bool}

lemma live_of_live_complete {h : H} (hl : live (complete p l) h = true) : live l h = true := by
  refine live_mono (fun a ha hlive => ?_) hl
  obtain ⟨b, hb, rfl⟩ := mem_map.1 ha
  by_cases hp : p b = true
  · rw [if_pos hp] at hlive
    exact absurd rfl hlive
  · rwa [if_neg hp]

lemma cleanup_complete_cleanup (p : Ann P H → Bool) (l : List (Ann P H)) :
    cleanup (complete p (cleanup l)) = cleanup (complete p l) :=
  cleanup_absorb (complete_filter p) (fun _ _ => live_of_live_complete) l

lemma cleanup_filter_cleanup (p : Ann P H → Bool) (l : List (Ann P H)) :
    cleanup ((cleanup l).filter p) = cleanup (l.filter p) :=
  cleanup_absorb (fun _ l => filter_comm p _ l)
    (fun _ _ => live_mono fun _ ha _ => mem_of_mem_filter ha) l

omit [DecidableEq H] in
lemma complete_complete (hp : ∀ a, p a = true → p a.complete = false)
    (hq : ∀ a ∈ l, q a = true → p a = true) : complete p (complete q l) = complete p l := by
  rw [complete, complete, map_map]
  refine map_congr_left fun a ha => ?_
  rw [comp_apply]
  by_cases hqa : q a = true
  · rw [if_pos hqa, hp a (hq a ha hqa), if_pos (hq a ha hqa)]
    rfl
  · rw [if_neg hqa]

omit [DecidableEq H] in
/-- What is removed need not be completed first. -/
lemma filter_not_complete (hp : ∀ a, p a.complete = p a) (l : List (Ann P H)) :
    (complete p l).filter (fun a => ! p a) = l.filter fun a => ! p a := by
  induction l with
  | nil => rfl
  | cons a l ih =>
    rw [complete, map_cons, ← complete]
    by_cases ha : p a = true
    · rw [if_pos ha, filter_cons_of_neg (by simp [hp, ha]), filter_cons_of_neg (by simp [ha]), ih]
    · rw [if_neg ha, filter_cons_of_pos (by simp [ha]), filter_cons_of_pos (by simp [ha]), ih]

/-! ## Expiry -/

/-- A request is not dropped. -/
lemma expired_cleanup (now : ℤ) (l : List (Ann P H)) : expired now (cleanup l) = expired now l := by
  rw [expired, cleanup, filter_filter]
  refine congrArg _ (filter_congr fun a ha => ?_)
  by_cases hexp : a.isExpired now = true
  · rw [hexp]
    simp only [Ann.isExpired, decide_eq_true_eq] at hexp
    exact live_iff.2 ⟨a, ha, rfl, by simp [hexp.1]⟩
  · rw [Bool.not_eq_true] at hexp
    rw [hexp, Bool.false_and]

omit [DecidableEq H] in
lemma not_isExpired_complete (now : ℤ) (a : Ann P H) : a.complete.isExpired now = false := by
  simp [Ann.isExpired, Ann.complete]

/-- Expired requests may be completed one at a time. -/
lemma expire_complete {now : ℤ} (hq : ∀ a ∈ l, q a = true → a.isExpired now = true) :
    expire now (cleanup (complete q l)) = expire now l := by
  rw [expire, cleanup_complete_cleanup,
    complete_complete (fun a _ => not_isExpired_complete now a) hq,
    expire]

omit [DecidableEq H] in
lemma complete_eq_self (hp : ∀ a ∈ l, ¬ p a = true) : complete p l = l := by
  conv_rhs => rw [← map_id l]
  exact map_congr_left fun a ha => if_neg (hp a ha)

end Bitcoin.TxRequest.Naive
