import DailyReadCoding.Bitcoin.TxRequest.Naive

/-!
# The tracker does what it is for

Forgetting which candidates are delayed, ready or best turns the tracker into the plain list of
announcements, and every operation into the one on the list.  What `GetRequestable` returns is then
what the list says.
-/

namespace Bitcoin.TxRequest

open OrderedIndex List Function Announcement Naive

variable {P H : Type} [LinearOrder P] [LinearOrder H] {prio : PriorityComputer P H}

/-! ## The plain list -/

/-- A state without the kind of candidate. -/
def AnnState.forget : AnnState → Naive.State
  | .candidateDelayed => .candidate
  | .candidateReady => .candidate
  | .candidateBest => .candidate
  | .requested => .requested
  | .completed => .completed

/-- An announcement without the kind of candidate. -/
def Announcement.forget (a : Announcement P H) : Naive.Ann P H :=
  ⟨a.peer, a.txhash, a.isWtxid, a.preferred, a.time, a.state.forget⟩

section Fields

omit [LinearOrder P] [LinearOrder H]

variable (a : Announcement P H)

@[simp] lemma forget_peer : a.forget.peer = a.peer := rfl

@[simp] lemma forget_hash : a.forget.hash = a.txhash := rfl

@[simp] lemma forget_time : a.forget.time = a.time := rfl

end Fields

/-- The plain list of a tracker. -/
def Tracker.abs (s : Tracker P H) : List (Naive.Ann P H) := s.index.map Announcement.forget

/-- Whether an announcement has a key. -/
def Naive.hasKey (k : P × H) (a : Naive.Ann P H) : Bool := a.peer = k.1 ∧ a.hash = k.2

lemma hasKey_forget {k : P × H} {a : Announcement P H} : hasKey k a.forget = true ↔ a.key = k := by
  rw [hasKey, decide_eq_true_eq, Prod.ext_iff]
  rfl

omit [LinearOrder P] [LinearOrder H] in
lemma forget_state_completed {a : Announcement P H} :
    a.forget.state = .completed ↔ a.state = .completed := by
  cases hstate : a.state <;> simp [forget, AnnState.forget, hstate]

omit [LinearOrder P] [LinearOrder H] in
lemma forget_state_requested {a : Announcement P H} :
    a.forget.state = .requested ↔ a.state = .requested := by
  cases hstate : a.state <;> simp [forget, AnnState.forget, hstate]

omit [LinearOrder P] [LinearOrder H] in
lemma forget_state_candidate {a : Announcement P H} :
    a.forget.state = .candidate ↔ a.state = .candidateDelayed ∨ a.IsSelectable := by
  cases hstate : a.state <;>
    simp [forget, AnnState.forget, Announcement.IsSelectable, hstate]

omit [LinearOrder P] [LinearOrder H] in
lemma forget_setState {a : Announcement P H} {st : AnnState} (hst : st.forget = a.state.forget) :
    (a.setState st).forget = a.forget := by
  simp [forget, setState, hst]

lemma map_forget_update {f : Announcement P H → Announcement P H} {a : Announcement P H}
    {l : List (Announcement P H)} (hkeys : (l.map key).Nodup) (ha : a ∈ l)
    (hf : (f a).forget = a.forget) : (update a.key f l).map forget = l.map forget := by
  rw [update, map_map]
  refine map_congr_left fun b hb => ?_
  rw [comp_apply]
  split_ifs with hkey
  · rw [eq_of_key_eq hkeys hb ha hkey, hf]
  · rfl

lemma map_forget_complete (k : P × H) (l : List (Announcement P H)) :
    (update k (setState .completed) l).map forget = complete (hasKey k) (l.map forget) := by
  rw [update, complete, map_map, map_map]
  refine map_congr_left fun b _ => ?_
  rw [comp_apply, comp_apply]
  by_cases hkey : b.key = k
  · rw [if_pos hkey, if_pos (hasKey_forget.2 hkey)]
    rfl
  · rw [if_neg hkey, if_neg (mt hasKey_forget.1 hkey)]

omit [LinearOrder P] in
lemma live_abs_iff {s : Tracker P H} {h : H} :
    Naive.live s.abs h = true ↔ ∃ b ∈ s.index, b.txhash = h ∧ b.state ≠ .completed := by
  rw [live_iff]
  constructor
  · rintro ⟨c, hc, hhash, hlive⟩
    obtain ⟨b, hb, rfl⟩ := mem_map.1 hc
    exact ⟨b, hb, hhash, mt forget_state_completed.2 hlive⟩
  · rintro ⟨b, hb, hhash, hlive⟩
    exact ⟨b.forget, mem_map_of_mem hb, hhash, mt forget_state_completed.1 hlive⟩

/-- A tracker keeps no transaction of which all is completed. -/
lemma Invariant.cleanup_abs {s : Tracker P H} (hinv : Invariant prio s) :
    cleanup s.abs = s.abs := by
  refine cleanup_eq_self (forall_mem_map.2 fun b hb => ?_)
  exact live_abs_iff.2 (hinv.sel.live b hb)

lemma Invariant.cleanup_eq_filter {s : Tracker P H} (hinv : Invariant prio s) {t : H}
    {l : List (Ann P H)} (hdrop : ∀ b ∈ l, b.hash = t → b.state = .completed)
    (hrest : l.filter (·.hash ≠ t) = s.abs.filter (·.hash ≠ t)) :
    cleanup l = s.abs.filter (·.hash ≠ t) := by
  have hmem : ∀ b : Ann P H, b.hash ≠ t → (b ∈ l ↔ b ∈ s.abs) := by
    intro b hb
    have hiff : b ∈ l.filter (·.hash ≠ t) ↔ b ∈ s.abs.filter (·.hash ≠ t) := by rw [hrest]
    simpa [hb] using hiff
  rw [← hrest]
  refine filter_congr fun b hb => ?_
  rw [Bool.eq_iff_iff, decide_eq_true_eq, live_iff]
  constructor
  · rintro ⟨c, hc, hhash, hlive⟩ hb'
    exact hlive (hdrop c hc (hhash.trans hb'))
  · intro hb'
    obtain ⟨c, hc, hc_eq⟩ := mem_map.1 ((hmem b hb').1 hb)
    obtain ⟨d, hd, hhash, hlive⟩ := hinv.sel.live c hc
    have hd_hash : d.forget.hash = b.hash := by
      rw [← hc_eq]
      exact hhash
    exact ⟨d.forget, (hmem _ (hd_hash ▸ hb')).2 (mem_map_of_mem hd), hd_hash,
      mt forget_state_completed.1 hlive⟩

omit [LinearOrder P] in
lemma map_forget_filter (t : H) (l : List (Announcement P H)) :
    (l.filter (·.txhash ≠ t)).map forget = (l.map forget).filter (·.hash ≠ t) := by
  rw [filter_map]
  rfl

lemma filter_complete_hasKey (k : P × H) (l : List (Ann P H)) :
    (complete (hasKey k) l).filter (·.hash ≠ k.2) = l.filter (·.hash ≠ k.2) := by
  rw [← complete_filter _ (fun h => decide (h ≠ k.2))]
  conv_rhs => rw [← map_id (l.filter (·.hash ≠ k.2))]
  refine map_congr_left fun b hb => if_neg fun hkey => ?_
  rw [hasKey, decide_eq_true_eq] at hkey
  exact absurd hkey.2 (by simpa using (mem_filter.1 hb).2)

/-! ## Transitions -/

section Transitions

variable (pl : Placements prio) {s : Tracker P H} (hinv : Invariant prio s) {a : Announcement P H}
  (ha : a ∈ s.index)

include hinv ha

/-- The plain list does not show which candidates are delayed, ready or best. -/
lemma abs_promoteCandidateReady (hdelayed : a.state = .candidateDelayed) :
    (promoteCandidateReady pl a.key s).abs = s.abs := by
  have hkeys := hinv.wf.keys
  rw [Tracker.abs, Tracker.abs]
  rcases promoteCandidateReady_cases pl hinv.wf hinv.sel ha hdelayed with
    ⟨-, hindex⟩ | ⟨b, hb, -, hb_best, -, hindex⟩ | ⟨-, -, -, -, -, hindex⟩
  · rw [hindex, map_forget_update hkeys ha (forget_setState (by rw [hdelayed]; rfl))]
  · have hne : a ≠ b := fun heq => by simp [heq, hb_best] at hdelayed
    rw [hindex, map_forget_update (keys_update (keepsIdentity_setState _) b.key hkeys)
      ((mem_update hkeys hb _).2 (.inr ⟨ha, hne⟩)) (forget_setState (by rw [hdelayed]; rfl)),
      map_forget_update hkeys hb (forget_setState (by rw [hb_best]; rfl))]
  · rw [hindex, map_forget_update hkeys ha (forget_setState (by rw [hdelayed]; rfl))]

/-- `ChangeAndReselect` changes the one announcement. -/
lemma abs_changeAndReselect (newState : AnnState) : (changeAndReselect pl a.key newState s).abs =
    (update a.key (setState newState) s.index).map forget := by
  have hkeys := hinv.wf.keys
  rw [Tracker.abs]
  rcases changeAndReselect_cases pl hinv.wf hinv.sel ha newState with
    ⟨-, hindex⟩ | ⟨ha_sel, r, hr, -, hr_ready, -, hindex⟩
  · rw [hindex]
  · have hne := ne_of_selected_ready ha_sel hr_ready
    have hkey : a.key ≠ r.key := fun heq => hne (eq_of_key_eq hkeys ha hr heq)
    rw [hindex, update_comm (keepsIdentity_setState _) (keepsIdentity_setState _) hkey]
    refine map_forget_update (keys_update (keepsIdentity_setState _) a.key hkeys)
      ((mem_update hkeys ha _).2 (.inr ⟨hr, hne.symm⟩)) (forget_setState ?_)
    rw [hr_ready]
    rfl

/-- **`MakeCompleted` on the plain list.** -/
theorem abs_makeCompleted : (makeCompleted pl a.key s).2.abs =
    cleanup (complete (hasKey a.key) s.abs) := by
  have hkeys := hinv.wf.keys
  have hafter := (hinv.makeCompleted pl a.key).cleanup_abs
  rcases makeCompleted_cases pl hinv.wf ha with
    ⟨hdone, heq⟩ | ⟨-, honly, -, -, hindex⟩ | ⟨-, -, heq⟩
  · have hsame : complete (hasKey a.key) s.abs = s.abs := by
      rw [Tracker.abs, ← map_forget_complete,
        map_forget_update hkeys ha (forget_setState (by rw [hdone]))]
    rw [heq, hsame, hinv.cleanup_abs]
  · rw [Tracker.abs, hindex, map_forget_filter]
    refine (hinv.cleanup_eq_filter (fun b hb hhash => ?_) (filter_complete_hasKey a.key _)).symm
    obtain ⟨d, hd, rfl⟩ := mem_map.1 hb
    obtain ⟨c, hc, rfl⟩ := mem_map.1 hd
    by_cases hkey : hasKey a.key c.forget = true
    · rw [if_pos hkey]
      rfl
    · rw [if_neg hkey] at hhash ⊢
      by_contra hlive
      have hca := honly c hc hhash (mt forget_state_completed.2 hlive)
      exact hkey (hasKey_forget.2 (hca ▸ rfl))
  · rw [heq] at hafter ⊢
    rw [← hafter, abs_changeAndReselect pl hinv ha, map_forget_complete]
    rfl

lemma expired_complete {now : ℤ} (hreq : a.state = .requested) (htime : a.time ≤ now) :
    (expired now s.abs).Perm ((a.peer, a.toGenTxid) ::
      expired now (complete (hasKey a.key) s.abs)) := by
  have hkeys := hinv.wf.keys
  have hexp : a.forget.isExpired now = true := by
    simp [Ann.isExpired, forget, hreq, htime, AnnState.forget]
  have hbefore := (((perm_of_mem hkeys ha).map forget).filter
    (Ann.isExpired now)).map fun b => (b.peer, (⟨b.isWtxid, b.hash⟩ : GenTxid H))
  have hafter := (((map_perm_of_mem hkeys ha (setState .completed)).map
    forget).filter (Ann.isExpired now)).map
      fun b => (b.peer, (⟨b.isWtxid, b.hash⟩ : GenTxid H))
  rw [map_forget_complete] at hafter
  rw [map_cons, filter_cons_of_pos hexp] at hbefore
  exact hbefore.trans (hafter.symm.cons _)

end Transitions

/-- `MakeCompleted` on the plain list, also where there is no announcement. -/
lemma abs_makeCompleted_of_key (pl : Placements prio) {s : Tracker P H} (hinv : Invariant prio s)
    (it : P × H) : (makeCompleted pl it s).2.abs = cleanup (complete (hasKey it) s.abs) := by
  cases hfind : s.find it with
  | none =>
    rw [makeCompleted, hfind, complete_eq_self, hinv.cleanup_abs]
    exact forall_mem_map.2 fun c hc hkey => find_eq_none.1 hfind c hc (hasKey_forget.1 hkey)
  | some a =>
    obtain ⟨ha, rfl⟩ := (find_eq_some hinv.wf).1 hfind
    exact abs_makeCompleted pl hinv ha

/-! ## Disconnecting a peer -/

section Disconnect

variable (pl : Placements prio) {s : Tracker P H} (hinv : Invariant prio s) {a : Announcement P H}
  (ha : a ∈ s.index)

lemma map_forget_erase (k : P × H) (l : List (Announcement P H)) :
    (l.filter (·.key ≠ k)).map forget = (l.map forget).filter fun b => ! hasKey k b := by
  rw [filter_map]
  refine congrArg _ (filter_congr fun b _ => ?_)
  rw [Bool.eq_iff_iff, comp_apply, Bool.not_eq_true', decide_eq_true_eq, ne_eq,
    ← hasKey_forget, Bool.not_eq_true]

include hinv ha

lemma mem_disconnectOne_of_ne {x : Announcement P H} (hne : x.txhash ≠ a.txhash) :
    x ∈ (disconnectOne pl a.key s).index ↔ x ∈ s.index := by
  have hmade : x ∈ (makeCompleted pl a.key s).2.index ↔ x ∈ s.index := by
    rcases makeCompleted_cases pl hinv.wf ha with ⟨-, heq⟩ | ⟨-, -, -, -, hindex⟩ | ⟨-, -, heq⟩
    · rw [heq]
    · rw [hindex]
      simp [hne]
    · rw [heq]
      rcases changeAndReselect_cases pl hinv.wf hinv.sel ha .completed with
        ⟨-, hindex⟩ | ⟨-, r, -, hhash, -, -, hindex⟩
      · rw [hindex, mem_update_of_ne (keepsIdentity_setState _) hne]
      · rw [hindex, mem_update_of_ne (keepsIdentity_setState _) hne,
          mem_update_of_ne (keepsIdentity_setState _) (by rwa [key_snd, hhash])]
  rw [disconnectOne]
  split_ifs
  · have hkey : x.key ≠ a.key := fun heq => hne (congrArg Prod.snd heq)
    rw [index_erase, mem_filter, hmade]
    simp [hkey]
  · exact hmade

/-- **One announcement on the plain list.** -/
lemma abs_disconnectOne : (disconnectOne pl a.key s).abs =
    cleanup (s.abs.filter fun b => ! hasKey a.key b) := by
  have hafter := (hinv.disconnectOne pl a.key).cleanup_abs
  rcases makeCompleted_cases pl hinv.wf ha with
    ⟨-, heq⟩ | ⟨-, honly, hgone, -, hindex⟩ | ⟨-, -, heq⟩
  · rw [disconnectOne, heq, if_pos rfl] at hafter ⊢
    rw [← hafter, Tracker.abs, index_erase, map_forget_erase]
    rfl
  · rw [disconnectOne, hgone, if_neg (by decide), Tracker.abs, hindex, map_forget_filter]
    refine (hinv.cleanup_eq_filter (fun b hb hhash => ?_) ?_).symm
    · obtain ⟨hb, hkey⟩ := mem_filter.1 hb
      obtain ⟨c, hc, rfl⟩ := mem_map.1 hb
      by_contra hlive
      have hca := honly c hc hhash (mt forget_state_completed.2 hlive)
      rw [hca, hasKey_forget.2 rfl] at hkey
      exact absurd hkey (by decide)
    · rw [filter_filter]
      refine filter_congr fun b _ => ?_
      by_cases hhash : b.hash = a.txhash
      · simp [hhash]
      · simp [hhash, hasKey]
  · rw [disconnectOne, heq, if_pos rfl] at hafter ⊢
    rw [← hafter, Tracker.abs, index_erase, map_forget_erase, ← Tracker.abs,
      abs_changeAndReselect pl hinv ha, map_forget_complete,
      filter_not_complete (fun _ => rfl)]
    rfl

end Disconnect

/-! ## The order by peer -/

section ByPeer

lemma peerLe_iff_toLex {a b : Announcement P H} : peerLe a b ↔
    toLex (a.peer, toLex (decide (a.state = .candidateBest), a.txhash)) ≤
      toLex (b.peer, toLex (decide (b.state = .candidateBest), b.txhash)) := by
  rw [← not_lt, Prod.Lex.toLex_lt_toLex, Prod.Lex.toLex_lt_toLex]
  rfl

lemma peerLe_refl (a : Announcement P H) : peerLe a a := peerLe_iff_toLex.2 le_rfl

lemma peer_le {a b : Announcement P H} (h : peerLe a b) : a.peer ≤ b.peer := by
  rw [peerLe_iff_toLex, Prod.Lex.toLex_le_toLex] at h
  rcases h with hlt | ⟨heq, -⟩
  · exact hlt.le
  · exact heq.le

lemma key_eq_of_peerLe {a b : Announcement P H} (hab : peerLe a b) (hba : peerLe b a) :
    a.key = b.key := by
  have heq := le_antisymm (peerLe_iff_toLex.1 hab) (peerLe_iff_toLex.1 hba)
  have hview := toLex.injective heq
  rw [Prod.mk.injEq] at hview
  exact Prod.ext hview.1 (Prod.mk.inj (toLex.injective hview.2)).2

instance : Std.Total (@peerLe P H _ _) where
  total a b := by
    rw [peerLe_iff_toLex, peerLe_iff_toLex]
    exact le_total _ _

instance : IsTrans (Announcement P H) peerLe where
  trans a b c hab hbc := by
    rw [peerLe_iff_toLex] at *
    exact hab.trans hbc

variable {s : Tracker P H}

lemma byPeer_perm (s : Tracker P H) : s.byPeer.Perm s.index := perm_insertionSort _ _

lemma byPeer_sorted (s : Tracker P H) : s.byPeer.Pairwise peerLe := pairwise_insertionSort _ _

lemma aroundPeer_of_split (hwf : WellFormed prio s) {a : Announcement P H}
    {front back : List (Announcement P H)} (hsplit : s.byPeer = front ++ a :: back) :
    Around key peerLe s.byPeer a front back :=
  around_of_split (((byPeer_perm s).map _).nodup_iff.2 hwf.keys) (byPeer_sorted s) hsplit

/-- Where the loop of `DisconnectedPeer` stands: at the first announcement of the peer, if any. -/
def AtFirst (peer : P) (s : Tracker P H) : Option (P × H) → Prop
  | none => ∀ x ∈ s.index, x.peer ≠ peer
  | some it => ∃ a ∈ s.index, a.key = it ∧ a.peer = peer ∧ ∀ x ∈ s.index, x.peer = peer → peerLe a x

/-- What follows a place in the order by peer, if what is before it is of other peers. -/
lemma atFirst_head {peer : P} {back : List (Announcement P H)} (hsorted : back.Pairwise peerLe)
    (hpeer : ∀ x ∈ back, peer ≤ x.peer) (hmem : ∀ x ∈ s.index, x.peer = peer → x ∈ back)
    (hkept : ∀ x ∈ back, x.peer = peer → x ∈ s.index) :
    AtFirst peer s ((back.head?.filter (·.peer = peer)).map key) := by
  cases back with
  | nil =>
    intro x hx hx_peer
    exact absurd (hmem x hx hx_peer) not_mem_nil
  | cons b back =>
    rw [pairwise_cons] at hsorted
    by_cases hb : b.peer = peer
    · rw [head?_cons, Option.filter_some_pos (by simpa using hb)]
      refine ⟨b, hkept b mem_cons_self hb, rfl, hb, fun x hx hx_peer => ?_⟩
      rcases mem_cons.1 (hmem x hx hx_peer) with rfl | hx
      · exact peerLe_refl x
      · exact hsorted.1 x hx
    · rw [head?_cons, Option.filter_some_neg (by simpa using hb)]
      have hlt : peer < b.peer := lt_of_le_of_ne (hpeer b mem_cons_self) (Ne.symm hb)
      intro x hx hx_peer
      rcases mem_cons.1 (hmem x hx hx_peer) with rfl | hx
      · exact hb hx_peer
      · exact (hlt.trans_le (peer_le (hsorted.1 x hx))).ne' hx_peer

/-- After the first announcement of the peer is dealt with, the loop stands at the next one. -/
lemma atFirst_next (pl : Placements prio) (hinv : Invariant prio s) {a : Announcement P H}
    (ha : a ∈ s.index) (hfirst : ∀ x ∈ s.index, x.peer = a.peer → peerLe a x) :
    AtFirst a.peer (disconnectOne pl a.key s)
      (((after key a.key s.byPeer).filter (·.peer = a.peer)).map key) := by
  obtain ⟨front, back, hsplit⟩ := append_of_mem ((byPeer_perm s).mem_iff.2 ha)
  have h := aroundPeer_of_split hinv.wf hsplit
  have hmem : ∀ {x}, x ∈ s.index ↔ x ∈ front ∨ x = a ∨ x ∈ back := by
    intro x
    rw [← (byPeer_perm s).mem_iff, h.mem_iff]
  have hsorted : back.Pairwise peerLe := by
    have hall := byPeer_sorted s
    rw [hsplit, pairwise_append, pairwise_cons] at hall
    exact hall.2.1.2
  -- announcements of one peer are for different transactions
  have hother : ∀ {x : Announcement P H}, x.peer = a.peer → x.key ≠ a.key → x.txhash ≠ a.txhash :=
    fun hpeer hkey hhash => hkey (Prod.ext hpeer hhash)
  rw [h.after_eq]
  refine atFirst_head hsorted (fun x hx => peer_le (h.le_back x hx)) (fun x hx hx_peer => ?_)
    (fun x hx hx_peer => ?_)
  · have hgone : x.key ≠ a.key := by
      intro hkey
      have hx' : x.forget ∈ (disconnectOne pl a.key s).abs := mem_map_of_mem hx
      rw [abs_disconnectOne pl hinv ha] at hx'
      have hfilter := (mem_filter.1 (mem_of_mem_filter hx')).2
      rw [hasKey_forget.2 hkey] at hfilter
      exact absurd hfilter (by decide)
    have hx' := (mem_disconnectOne_of_ne pl hinv ha (hother hx_peer hgone)).1 hx
    rcases hmem.1 hx' with hfront | rfl | hback
    · exact absurd (key_eq_of_peerLe (h.front_le x hfront) (hfirst x hx' hx_peer)) hgone
    · exact absurd rfl hgone
    · exact hback
  · refine (mem_disconnectOne_of_ne pl hinv ha (hother hx_peer (h.back_key x hx))).2 ?_
    exact hmem.2 (.inr (.inr hx))

/-- Without an announcement of the peer there is nothing to drop. -/
lemma Invariant.disconnected_abs (hinv : Invariant prio s) {peer : P}
    (hnone : ∀ x ∈ s.index, x.peer ≠ peer) : Naive.disconnectedPeer peer s.abs = s.abs := by
  have hself : s.abs.filter (·.peer ≠ peer) = s.abs :=
    filter_eq_self.2 (forall_mem_map.2 fun c hc => decide_eq_true (hnone c hc))
  rw [Naive.disconnectedPeer, hself, hinv.cleanup_abs]

/-- The loop of `DisconnectedPeer` drops every announcement of the peer. -/
lemma abs_disconnectLoop (pl : Placements prio) (peer : P) (fuel : ℕ) : ∀ (it : Option (P × H))
    (s : Tracker P H), Invariant prio s → AtFirst peer s it → s.index.length ≤ fuel →
    (disconnectLoop pl peer fuel it s).abs = Naive.disconnectedPeer peer s.abs := by
  induction fuel with
  | zero =>
    intro it s hinv _ hfuel
    have hnil := length_eq_zero_iff.1 (Nat.le_zero.1 hfuel)
    rw [disconnectLoop, hinv.disconnected_abs]
    simp [hnil]
  | succ fuel ih =>
    intro it s hinv hfirst hfuel
    cases it with
    | none => rw [disconnectLoop, hinv.disconnected_abs hfirst]
    | some it =>
      obtain ⟨a, ha, rfl, rfl, hleast⟩ := hfirst
      have hnext := atFirst_next pl hinv ha hleast
      have habs := abs_disconnectOne pl hinv ha
      have hless : (disconnectOne pl a.key s).index.length < s.index.length := by
        calc (disconnectOne pl a.key s).index.length
            = (disconnectOne pl a.key s).abs.length := (length_map _).symm
          _ ≤ (s.abs.filter fun b => ! hasKey a.key b).length := by
              rw [habs]
              exact length_filter_le _ _
          _ < s.abs.length := by
              refine length_filter_lt_length_iff_exists.2 ⟨a.forget, mem_map_of_mem ha, ?_⟩
              rw [hasKey_forget.2 rfl]
              decide
          _ = s.index.length := length_map _
      refine (ih _ (disconnectOne pl a.key s) (hinv.disconnectOne pl a.key) hnext
        (by omega)).trans ?_
      rw [Naive.disconnectedPeer, habs, cleanup_filter_cleanup, filter_filter]
      refine congrArg _ (filter_congr fun b _ => ?_)
      by_cases hb : b.peer = a.peer
      · simp [hb]
      · simp [hb, hasKey, key]

variable [OrderBot H]

/-- The search for the announcements of a peer begins at the first of them. -/
lemma not_peerViewLt_bot {a : Announcement P H} {peer : P} :
    ¬ peerViewLt (peerView a) (peer, false, ⊥) ↔ peer ≤ a.peer := by
  have hfalse : ∀ b : Bool, ¬ b < false := by decide
  simp only [peerViewLt, peerView, not_lt_bot, and_false, or_false, hfalse, not_lt]

/-- **`DisconnectedPeer` on the plain list.** -/
theorem abs_disconnectedPeer (pl : Placements prio) (hinv : Invariant prio s) (peer : P) :
    (disconnectedPeer pl peer s).abs = Naive.disconnectedPeer peer s.abs := by
  refine abs_disconnectLoop pl peer _ _ s hinv ?_ le_rfl
  cases hfind : s.byPeer.find? fun a => ¬ peerViewLt (peerView a) (peer, false, ⊥) with
  | none =>
    intro x hx hx_peer
    have hx' := List.find?_eq_none.1 hfind x ((byPeer_perm s).mem_iff.2 hx)
    rw [decide_eq_true_eq, not_peerViewLt_bot] at hx'
    exact hx' hx_peer.ge
  | some it =>
    obtain ⟨hit, front, back, hsplit, hfront⟩ := List.find?_eq_some_iff_append.1 hfind
    rw [decide_eq_true_eq, not_peerViewLt_bot] at hit
    have hsorted := byPeer_sorted s
    rw [hsplit, pairwise_append] at hsorted
    have hmem : ∀ {x}, x ∈ s.index ↔ x ∈ front ∨ x ∈ it :: back := by
      intro x
      rw [← (byPeer_perm s).mem_iff, hsplit, mem_append]
    refine atFirst_head hsorted.2.1 (fun x hx => ?_) (fun x hx hx_peer => ?_)
      (fun x hx _ => hmem.2 (.inr hx))
    · rcases mem_cons.1 hx with rfl | hx
      · exact hit
      · exact hit.trans (peer_le (rel_of_pairwise_cons hsorted.2.1 hx))
    · refine (hmem.1 hx).resolve_left fun hx' => ?_
      have hlt := hfront x hx'
      rw [Bool.not_eq_true', decide_eq_false_iff_not, not_peerViewLt_bot] at hlt
      exact hlt hx_peer.ge

end ByPeer

/-! ## Requests -/

section Requests

variable {l : List (Announcement P H)} {a : Announcement P H} {peer : P} {h : H}

/-- Requesting an announcement, seen in the plain list, when no other request is there. -/
lemma map_forget_request (hkey : a.key = (peer, h)) (expiry : ℤ)
    (hnone : ∀ c ∈ l, c.txhash = h → c.key ≠ a.key → c.state ≠ .requested) :
    (update a.key (request expiry) l).map forget =
      (l.map forget).map (Ann.request peer h expiry) := by
  rw [update, map_map, map_map]
  refine map_congr_left fun c hc => ?_
  rw [comp_apply, comp_apply, hkey, Ann.request]
  by_cases hc_key : c.key = (peer, h)
  · obtain ⟨hpeer, hhash⟩ := Prod.mk.inj hc_key
    rw [if_pos hc_key, forget_hash, if_pos hhash, forget_peer, if_pos hpeer]
    rfl
  · split_ifs with hhash hpeer hreq
    · exact absurd (Prod.ext hpeer hhash) hc_key
    · exact absurd (forget_state_requested.1 hreq) (hnone c hc hhash (hkey ▸ hc_key))
    · rfl
    · rfl

/-- A request that is given up may be completed before the other one is made. -/
lemma map_request_complete {b : Announcement P H} (hb_hash : b.txhash = h) (hb_peer : b.peer ≠ peer)
    (expiry : ℤ) {m : List (Ann P H)}
    (hreq : ∀ c ∈ m, hasKey b.key c = true → c.state = .requested) :
    (complete (hasKey b.key) m).map (Ann.request peer h expiry) =
      m.map (Ann.request peer h expiry) := by
  rw [complete, map_map]
  refine map_congr_left fun c hc => ?_
  rw [comp_apply]
  by_cases hkey : hasKey b.key c = true
  · have hc_req := hreq c hc hkey
    rw [if_pos hkey]
    rw [hasKey, decide_eq_true_eq] at hkey
    have hc_hash : c.hash = h := hkey.2.trans hb_hash
    have hc_peer : c.peer ≠ peer := fun heq => hb_peer (hkey.1.symm.trans heq)
    simp [Ann.request, Ann.complete, hc_hash, hc_peer, hc_req]
  · rw [if_neg hkey]

/-- **`RequestedTx` on the plain list.** -/
theorem abs_requestedTx (pl : Placements prio) {s : Tracker P H} (hinv : Invariant prio s)
    (peer : P) (h : H) (expiry : ℤ) :
    (requestedTx pl peer h expiry s).abs = Naive.requestedTx peer h expiry s.abs := by
  have hkeys := hinv.wf.keys
  have hany : (s.abs.any fun a => a.peer = peer ∧ a.hash = h ∧ a.state = .candidate) = true ↔
      ∃ a ∈ s.index, a.key = (peer, h) ∧ (a.state = .candidateDelayed ∨ a.IsSelectable) := by
    simp only [Tracker.abs, any_map, any_eq_true, comp_apply, decide_eq_true_eq,
      forget_state_candidate, forget_peer, forget_hash, key, Prod.mk.injEq, and_assoc]
  have hyes : ∀ {a : Announcement P H}, a ∈ s.index → a.key = (peer, h) →
      (a.state = .candidateDelayed ∨ a.IsSelectable) →
      Naive.requestedTx peer h expiry s.abs = s.abs.map (Ann.request peer h expiry) :=
    fun ha hkey hcand => if_pos (hany.2 ⟨_, ha, hkey, hcand⟩)
  -- giving up what was selected for the transaction leaves no request
  have hgiven : ∀ {b : Announcement P H} {st : AnnState}, b ∈ s.index → b.txhash = h →
    b.IsSelected →
      st ≠ .requested → ∀ c ∈ update b.key (setState st) s.index,
      c.txhash = h → c.state ≠ .requested := by
    intro b st hb hb_hash hb_sel hst c hc hhash hreq
    rcases (mem_update hkeys hb _).1 hc with rfl | ⟨hc, hcb⟩
    · exact hst hreq
    · exact hcb (hinv.sel.one c hc b hb (hhash.trans hb_hash.symm) (.inr hreq) hb_sel)
  rcases requestedTx_cases pl hinv.wf peer h expiry with
    ⟨hno, heq⟩ | ⟨a, ha, hkey, ha_best, heq⟩ | ⟨a, ha, hkey, ha_cand, heq⟩
  · rw [heq, Naive.requestedTx, if_neg]
    rw [hany]
    rintro ⟨a, ha, hkey, hcand⟩
    rcases hno a ha hkey with ha' | ha' <;> simp [Announcement.IsSelectable, ha'] at hcand
  · rw [heq, hyes ha hkey (.inr (.inr ha_best)), Tracker.abs, index_modify, map_forget_request hkey]
    · rfl
    · intro c hc hhash hc_key hreq
      have hca := hinv.sel.one c hc a ha (hhash.trans (congrArg Prod.snd hkey).symm) (.inr hreq)
        (.inl ha_best)
      exact hc_key (hca ▸ rfl)
  · rw [heq, hyes ha hkey (ha_cand.imp_right .inl), Tracker.abs, index_modify]
    rcases unselect_cases pl hinv.wf hinv.sel h with
      ⟨hnone, huns⟩ | ⟨b, hb, hb_hash, hb_best, huns⟩ | ⟨b, hb, hb_hash, hb_req, huns⟩
    · rw [huns, map_forget_request hkey]
      · rfl
      · exact fun c hc hhash _ hreq => hnone c hc hhash (.inr hreq)
    · rw [huns, index_modify, map_forget_request hkey,
        map_forget_update hkeys hb (forget_setState (by rw [hb_best]; rfl))]
      · rfl
      · exact fun c hc hhash _ => hgiven hb hb_hash (.inl hb_best) (by decide) c hc hhash
    · have hb_peer : b.peer ≠ peer := by
        intro hpeer
        have hba := eq_of_key_eq hkeys hb ha ((Prod.ext hpeer hb_hash).trans hkey.symm)
        rw [hba] at hb_req
        rcases ha_cand with ha' | ha' <;> exact absurd (hb_req.symm.trans ha') (by decide)
      rw [huns, index_modify, map_forget_request hkey, map_forget_complete,
        map_request_complete hb_hash hb_peer]
      · rfl
      · refine forall_mem_map.2 fun d hd hd_key => ?_
        rw [eq_of_key_eq hkeys hd hb (hasKey_forget.1 hd_key), forget_state_requested, hb_req]
      · exact fun c hc hhash _ => hgiven hb hb_hash (.inr hb_req) (by decide) c hc hhash

/-- **`ReceivedInv` on the plain list.** -/
theorem abs_receivedInv (pl : Placements prio) (s : Tracker P H) (peer : P) (gtxid : GenTxid H)
    (preferred : Bool) (reqtime : ℤ) : (receivedInv pl peer gtxid preferred reqtime s).abs =
      Naive.receivedInv peer gtxid preferred reqtime s.abs := by
  have hany : (s.abs.any fun a => a.peer = peer ∧ a.hash = gtxid.hash) = true ↔
      ∃ a ∈ s.index, a.key = (peer, gtxid.hash) := by
    rw [Tracker.abs, any_map, any_eq_true]
    simp only [comp_apply, decide_eq_true_eq]
    simp only [forget_peer, forget_hash, key, Prod.mk.injEq]
  rw [Naive.receivedInv]
  rcases receivedInv_cases pl peer gtxid preferred reqtime with ⟨hold, heq⟩ | ⟨hnew, heq⟩
  · rw [heq, if_pos (hany.2 hold)]
  · rw [heq, if_neg, Tracker.abs, insert, map_append]
    · rfl
    · rw [hany]
      rintro ⟨a, ha, hkey⟩
      exact hnew a ha hkey

end Requests

/-! ## Time -/

/-- **`SetTimePoint` on the plain list** expires the requests whose time has come, and returns them.
-/
theorem abs_setTimePoint (pl : Placements prio) (now : ℤ) {s : Tracker P H}
    (hinv : Invariant prio s) : (setTimePoint pl now s).2.abs = expire now s.abs ∧
      (setTimePoint pl now s).1.Perm (expired now s.abs) := by
  -- what is still to expire, and what has expired, add up
  obtain ⟨hinv', ⟨hexpire, hperm⟩, htime⟩ := setTimePoint_spec pl now
    (Q := fun e s' => expire now s'.abs = expire now s.abs ∧
      (e ++ expired now s'.abs).Perm (expired now s.abs))
    (fun e s' a hinv' hQ ha hdelayed _ => by
      rw [abs_promoteCandidateReady pl hinv' ha hdelayed]
      exact hQ)
    (fun e s' a hinv' hQ ha hreq htime => by
      rw [abs_makeCompleted pl hinv' ha, expired_cleanup, append_assoc,
        expire_complete fun b hb hkey => ?_]
      · exact ⟨hQ.1, ((expired_complete hinv' ha hreq htime).symm.append_left e).trans hQ.2⟩
      · obtain ⟨c, hc, rfl⟩ := mem_map.1 hb
        rw [eq_of_key_eq hinv'.wf.keys hc ha (hasKey_forget.1 hkey)]
        simp [Ann.isExpired, forget, hreq, htime, AnnState.forget])
    (fun e s' a hinv' hQ ha hsel _ => by
      rw [abs_changeAndReselect pl hinv' ha, map_forget_update hinv'.wf.keys ha]
      · exact hQ
      · rcases hsel with ha' | ha' <;> exact forget_setState (by rw [ha']; rfl))
    hinv ⟨rfl, .refl _⟩
  have hnone : ∀ b ∈ (setTimePoint pl now s).2.abs, ¬ b.isExpired now = true := by
    refine forall_mem_map.2 fun c hc hexp => ?_
    rw [Ann.isExpired, decide_eq_true_eq, forget_state_requested] at hexp
    have hwait : c.IsWaiting := .inl hexp.1
    have hc_time := htime c hc
    rw [if_pos hwait] at hc_time
    exact absurd hexp.2 hc_time.not_ge
  constructor
  · rw [← hexpire, expire, complete_eq_self hnone, hinv'.cleanup_abs]
  · rwa [expired, filter_eq_nil_iff.2 hnone, map_nil, append_nil] at hperm

/-! ## Histories -/

section Histories

variable [OrderBot H] (pl : Placements prio)

/-- Every operation is the one of the plain list. -/
theorem abs_step {s : Tracker P H} (hinv : Invariant prio s) (e : Event P H) :
    (step pl s e).abs = Naive.step s.abs e := by
  cases e with
  | receivedInv peer gtxid preferred reqtime =>
      exact abs_receivedInv pl s peer gtxid preferred reqtime
  | requestedTx peer txhash expiry => exact abs_requestedTx pl hinv peer txhash expiry
  | receivedResponse peer txhash =>
    rw [step, receivedResponse_eq]
    exact abs_makeCompleted_of_key pl hinv (peer, txhash)
  | getRequestable peer now => exact (abs_setTimePoint pl now hinv).1
  | forgetTxHash txhash =>
    rw [step, Tracker.abs, (forgetTxHash_spec hinv.wf txhash).2, map_forget_filter]
    rfl
  | disconnectedPeer peer => exact abs_disconnectedPeer pl hinv peer

theorem abs_run (events : List (Event P H)) : (run pl events).abs = Naive.run events := by
  induction events using reverseRecOn with
  | nil => rfl
  | append_singleton events e ih =>
    rw [run, foldl_append, foldl_cons, foldl_nil, ← run,
      abs_step pl (run_invariant pl events), ih, Naive.run, Naive.run, foldl_append]
    rfl

end Histories

/-! ## What is to be requested -/

section Requestable

variable {s : Tracker P H} (hinv : Invariant prio s) {now : ℤ}

include hinv

/-- In line with the time, and with distinct priorities, the best are those the plain list selects.
-/
lemma best_iff_selected (htime : PostGetRequestableSanityCheck now s)
    (hdistinct : ∀ a ∈ s.index, ∀ b ∈ s.index, a.txhash = b.txhash → prio.of a = prio.of b →
      a.peer = b.peer) {a : Announcement P H} (ha : a ∈ s.index) :
    a.state = .candidateBest ↔ Naive.Selected prio now s.abs a.forget := by
  -- a candidate whose time has come is ready or best
  have hready : ∀ b ∈ s.index, b.forget.isReady now ↔ b.IsSelectable := by
    intro b hb
    have hb_time := htime b hb
    rw [Ann.isReady, forget_state_candidate]
    cases hstate : b.state <;>
      simp [Announcement.IsWaiting, Announcement.IsSelectable, hstate] at hb_time ⊢ <;> omega
  constructor
  · intro ha_best
    refine ⟨(hready a ha).2 (.inr ha_best), forall_mem_map.2 fun b hb hhash hreq => ?_,
      forall_mem_map.2 fun b hb hhash hb_ready => ?_⟩
    · have hreq' := forget_state_requested.1 hreq
      have hba := hinv.sel.one b hb a ha hhash (.inr hreq') (.inl ha_best)
      rw [hba] at hreq'
      exact absurd (ha_best.symm.trans hreq') (by decide)
    · rcases (hready b hb).1 hb_ready with hb' | hb'
      · exact hinv.sel.best a ha b hb hhash.symm ha_best hb'
      · rw [hinv.sel.one b hb a ha hhash (.inl hb') (.inl ha_best)]
  · rintro ⟨ha_ready, hnone, hmax⟩
    rcases (hready a ha).1 ha_ready with ha' | ha'
    · -- the selected announcement of the transaction is a candidate, and not a better one
      obtain ⟨b, hb, hhash, hb_sel⟩ := hinv.sel.ready a ha ha'
      have hb_best : b.state = .candidateBest := hb_sel.resolve_right fun hreq =>
        hnone b.forget (mem_map_of_mem hb) hhash (forget_state_requested.2 hreq)
      have hle := hmax b.forget (mem_map_of_mem hb) hhash ((hready b hb).2 (.inr hb_best))
      have hge := hinv.sel.best b hb a ha hhash hb_best ha'
      have hpeer := hdistinct a ha b hb hhash.symm (le_antisymm hge hle)
      rw [eq_of_key_eq hinv.wf.keys ha hb (Prod.ext hpeer hhash.symm)]
      exact hb_best
    · exact ha'

variable [OrderBot H]

omit hinv in
/-- The search by peer finds the best announcements of the peer. -/
lemma selectedOf_eq (peer : P) :
    selectedOf peer s = s.byPeer.filter fun a => a.peer = peer ∧ a.state = .candidateBest := by
  have hbelow : ∀ a : Announcement P H, peerViewLt (peerView a) (peer, true, ⊥) ↔
      a.peer < peer ∨ (a.peer = peer ∧ a.state ≠ .candidateBest) := by
    intro a
    by_cases ha : a.state = .candidateBest <;> simp [peerViewLt, peerView, ha]
  refine takeWhile_dropWhile ((byPeer_sorted s).imp fun {x y} hxy => ?_) fun x _ hx => ?_
  · simp only [decide_eq_true_eq, hbelow]
    have hpeer := peer_le hxy
    have hstate : x.peer = y.peer → y.state ≠ .candidateBest → x.state ≠ .candidateBest := by
      intro heq hy hx
      simp [peerLe, peerViewLt, peerView, heq, hx, hy] at hxy
    constructor
    · rintro (hlt | ⟨rfl, hy⟩)
      · exact .inl (hpeer.trans_lt hlt)
      · rcases hpeer.lt_or_eq with hlt | heq
        · exact .inl hlt
        · exact .inr ⟨heq, hstate heq hy⟩
    · rintro ⟨rfl, -⟩
      rcases hpeer.lt_or_eq with hlt | heq
      · exact .inl (.inl hlt)
      · by_cases hx : x.state = .candidateBest
        · exact .inr ⟨heq, hx⟩
        · exact .inl (.inr ⟨heq, hx⟩)
  · rw [decide_eq_true_eq] at hx
    rw [decide_eq_false_iff_not, hbelow]
    rintro (hlt | ⟨-, hne⟩)
    · exact hlt.ne hx.1
    · exact hne hx.2

lemma sorted_selectedOf (peer : P) : (selectedOf peer s).insertionSort (·.sequence ≤ ·.sequence) =
    s.index.filter fun a => a.peer = peer ∧ a.state = .candidateBest := by
  have : Std.Total fun a b : Announcement P H => a.sequence ≤ b.sequence :=
    ⟨fun a b => le_total a.sequence b.sequence⟩
  have : IsTrans (Announcement P H) fun a b => a.sequence ≤ b.sequence :=
    ⟨fun _ _ _ hab hbc => le_trans hab hbc⟩
  have hperm : ((selectedOf peer s).insertionSort (·.sequence ≤ ·.sequence)).Perm
      (s.index.filter fun a => a.peer = peer ∧ a.state = .candidateBest) := by
    refine (perm_insertionSort _ _).trans ?_
    rw [selectedOf_eq]
    exact (byPeer_perm s).filter _
  have hsorted := hinv.wf.sequence.filter fun a => a.peer = peer ∧ a.state = .candidateBest
  refine hperm.eq_of_pairwise (fun a b ha hb hab hba => ?_) (pairwise_insertionSort _ _)
    (hsorted.imp fun hlt => le_of_lt hlt)
  -- the sequence numbers of different announcements differ
  have ha' := mem_of_mem_filter (hperm.mem_iff.1 ha)
  have hinj := (pairwise_map.2 (hinv.wf.sequence.imp fun hlt => ne_of_lt hlt) :
    (s.index.map (·.sequence)).Nodup)
  exact inj_on_of_nodup_map hinj ha' (mem_of_mem_filter hb) (le_antisymm hab hba)

end Requestable

omit [LinearOrder P] in
lemma mem_expire {now : ℤ} {l : List (Ann P H)} {b : Ann P H} (hb : b ∈ expire now l) :
    ∃ a ∈ l, a.peer = b.peer ∧ a.hash = b.hash ∧ a.prio prio = b.prio prio := by
  obtain ⟨a, ha, rfl⟩ := mem_map.1 (mem_of_mem_filter hb)
  refine ⟨a, ha, ?_⟩
  split_ifs <;> exact ⟨rfl, rfl, rfl⟩

/-- **What `GetRequestable` returns.**  After any history in which no two announcements for one
transaction have the same priority, the result is what the plain list says, in the order of the
announcements, and the expired requests are those of the plain list. -/
theorem getRequestable_spec [OrderBot H] (pl : Placements prio)
    (events : List (Event P H)) (peer : P)
    (now : ℤ) (hdistinct : ∀ a ∈ Naive.run events, ∀ b ∈ Naive.run events, a.hash = b.hash →
      a.prio prio = b.prio prio → a.peer = b.peer) :
    (getRequestable pl peer now (run pl events)).1 =
        Naive.requestable prio peer now (Naive.run events) ∧
      (getRequestable pl peer now (run pl events)).2.1.Perm (expired now (Naive.run events)) := by
  have hinv := run_invariant pl events
  obtain ⟨habs, hperm⟩ := abs_setTimePoint pl now hinv
  obtain ⟨hinv', htime⟩ := hinv.setTimePoint pl now
  rw [abs_run] at habs hperm
  refine ⟨?_, hperm⟩
  have hdistinct' : ∀ a ∈ (setTimePoint pl now (run pl events)).2.index,
      ∀ b ∈ (setTimePoint pl now (run pl events)).2.index, a.txhash = b.txhash →
      prio.of a = prio.of b → a.peer = b.peer := by
    intro a ha b hb hhash hprio
    have hmem : ∀ c ∈ (setTimePoint pl now (run pl events)).2.index, ∃ d ∈ Naive.run events,
        d.peer = c.forget.peer ∧ d.hash = c.forget.hash ∧ d.prio prio = c.forget.prio prio := by
      intro c hc
      have hc' : c.forget ∈ (setTimePoint pl now (run pl events)).2.abs := mem_map_of_mem hc
      rw [habs] at hc'
      exact mem_expire hc'
    obtain ⟨a', ha', ha_peer, ha_hash, ha_prio⟩ := hmem a ha
    obtain ⟨b', hb', hb_peer, hb_hash, hb_prio⟩ := hmem b hb
    have hpeer := hdistinct a' ha' b' hb' (ha_hash.trans (hhash.trans hb_hash.symm))
      (ha_prio.trans (hprio.trans hb_prio.symm))
    exact ha_peer.symm.trans (hpeer.trans hb_peer)
  rw [getRequestable, Naive.requestable, ← habs]
  rw [sorted_selectedOf hinv', Tracker.abs, filter_map, map_map]
  refine congrArg _ (filter_congr fun a ha => ?_)
  rw [comp_apply, decide_eq_decide, best_iff_selected hinv' htime hdistinct' ha]
  rfl

/-- Two peers announce a transaction, and a request to a third has expired. -/
def exampleEvents : List (Event ℕ ℕ) :=
  [.receivedInv 1 ⟨true, 7⟩ false 0, .receivedInv 2 ⟨true, 7⟩ false 0,
  .receivedInv 3 ⟨true, 7⟩ false 0,
    .getRequestable 3 1, .requestedTx 3 7 5]

/-- Peers with a higher number first. -/
def examplePrio : PriorityComputer ℕ ℕ := fun _ peer _ => peer

theorem getRequestable_spec_expired : (getRequestable (Placements.upperBound examplePrio) 2 10
        (run (Placements.upperBound examplePrio) exampleEvents)).1 = [⟨true, 7⟩] ∧
      (getRequestable (Placements.upperBound examplePrio) 2 10
        (run (Placements.upperBound examplePrio) exampleEvents)).2.1.Perm [(3, ⟨true, 7⟩)] := by
  exact getRequestable_spec (Placements.upperBound examplePrio) exampleEvents 2 10 (by decide)

end Bitcoin.TxRequest
