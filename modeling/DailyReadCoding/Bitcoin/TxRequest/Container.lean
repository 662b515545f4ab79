import DailyReadCoding.Bitcoin.TxRequest.Tracker

/-!
# The container under change

Whatever the operations do, they do by `modify`, `erase` and `insert`, which keep the container well
formed: an announcement per peer and hash, both orders sorted and of the same announcements, the
counters equal to a recount, the sequence numbers increasing.
-/

namespace Bitcoin.TxRequest

open OrderedIndex List Function PeerInfo

variable {P H : Type} [LinearOrder P] [LinearOrder H] {prio : PriorityComputer P H}

/-- The container and the counters are consistent. -/
structure WellFormed (prio : PriorityComputer P H) (s : Tracker P H) : Prop where
  keys : (s.index.map Announcement.key).Nodup
  txPerm : s.byTxHash.Perm s.index
  timePerm : s.byTime.Perm s.index
  txSorted : s.byTxHash.Pairwise (txHashLe prio)
  timeSorted : s.byTime.Pairwise (fun a b => ¬ timeLt b a)
  peerinfo : s.peerinfo = recomputePeerInfo s.index
  sequence : s.index.Pairwise (·.sequence < ·.sequence)
  sequence_lt : ∀ a ∈ s.index, a.sequence < s.currentSequence

lemma wellFormed_initial : WellFormed prio (Tracker.initial P H) where
  keys := nodup_nil
  txPerm := .nil
  timePerm := .nil
  txSorted := .nil
  timeSorted := .nil
  peerinfo := rfl
  sequence := .nil
  sequence_lt := by simp [Tracker.initial]

/-! ## The announcements after a change -/

/-- Nothing is found for a key that no announcement has. -/
lemma find_eq_none {s : Tracker P H} {it : P × H} : s.find it = none ↔ ∀ a ∈ s.index,
    a.key ≠ it := by
  simp [Tracker.find]

/-- There is one announcement at most for a key. -/
lemma find_eq_some {s : Tracker P H} (hwf : WellFormed prio s) {it : P × H}
    {a : Announcement P H} : s.find it = some a ↔ a ∈ s.index ∧ a.key = it := by
  constructor
  · intro hfind
    exact ⟨mem_of_find?_eq_some hfind, by simpa using find?_some hfind⟩
  · rintro ⟨ha, rfl⟩
    cases hfind : s.find a.key with
    | none => exact absurd rfl (find_eq_none.1 hfind a ha)
    | some b =>
      have hb : b.key = a.key := by simpa using find?_some hfind
      rw [eq_of_key_eq hwf.keys (mem_of_find?_eq_some hfind) ha hb]

variable (pl : Placements prio)

/-- The announcement with a key changed. -/
def update (it : P × H) (f : Announcement P H → Announcement P H) (l : List (Announcement P H)) :
    List (Announcement P H) :=
  l.map fun b => if b.key = it then f b else b

/-- `modify` changes the announcement in the index. -/
lemma index_modify (it : P × H) (f : Announcement P H → Announcement P H) (s : Tracker P H) :
    (modify pl it f s).index = update it f s.index := by
  rw [modify]
  split
  · rename_i hfind
    have hsame : update it f s.index = s.index.map id :=
      map_congr_left fun b hb => if_neg (find_eq_none.1 hfind b hb)
    rw [hsame, map_id]
  · rfl

variable {l l' : List (Announcement P H)} {x : Announcement P H}

/-- One announcement is changed, the others stay. -/
lemma mem_update (hkeys : (l.map Announcement.key).Nodup)
    {a : Announcement P H} (ha : a ∈ l) (f : Announcement P H → Announcement P H) :
    x ∈ update a.key f l ↔ x = f a ∨ (x ∈ l ∧ x ≠ a) := by
  constructor
  · intro hx
    obtain ⟨b, hb, rfl⟩ := mem_map.1 hx
    by_cases hkey : b.key = a.key
    · rw [if_pos hkey, eq_of_key_eq hkeys hb ha hkey]
      exact .inl rfl
    · rw [if_neg hkey]
      exact .inr ⟨hb, fun heq => hkey (heq ▸ rfl)⟩
  · rintro (rfl | ⟨hx, hne⟩)
    · exact mem_map.2 ⟨a, ha, if_pos rfl⟩
    · exact mem_map.2 ⟨x, hx, if_neg fun hkey => hne (eq_of_key_eq hkeys hx ha hkey)⟩

lemma index_erase (it : P × H) (s : Tracker P H) :
    (erase it s).index = s.index.filter (·.key ≠ it) := by
  rw [erase]
  split
  · rename_i hfind
    exact (filter_eq_self.2 fun b hb => by simpa using find_eq_none.1 hfind b hb).symm
  · rfl

/-- `erase` takes the announcement out of both orders. -/
lemma byTxHash_erase {s : Tracker P H} (hwf : WellFormed prio s) (it : P × H) :
    (erase it s).byTxHash = s.byTxHash.filter (·.key ≠ it) := by
  rw [erase]
  split
  · rename_i hfind
    refine (filter_eq_self.2 fun b hb => ?_).symm
    simpa using find_eq_none.1 hfind b (hwf.txPerm.mem_iff.1 hb)
  · rfl

/-! ## Recounting -/

/-- What an announcement contributes to the counters of its peer. -/
def PeerInfo.add (info : PeerInfo) (a : Announcement P H) : PeerInfo :=
  ⟨info.total + 1, info.completed + ind (a.state = .completed),
    info.requested + ind (a.state = .requested)⟩

/-- The counts over a list. -/
def peerCounts (l : List (Announcement P H)) (peer : P) : PeerInfo :=
  let own := l.filter (·.peer = peer)
  ⟨own.length, own.countP (·.state = .completed), own.countP (·.state = .requested)⟩

section Counts

omit [LinearOrder H]

/-- The recount of a peer as one function of the list. -/
lemma recomputePeerInfo_eq (l : List (Announcement P H)) (peer : P) : recomputePeerInfo l peer =
    if (peerCounts l peer).total = 0 then none else some (peerCounts l peer) := by
  rw [recomputePeerInfo, peerCounts]
  simp only [Int.natCast_eq_zero, length_eq_zero_iff]

omit [LinearOrder P] in
lemma natCast_countP_cons (p : Announcement P H → Prop) [DecidablePred p] (a : Announcement P H)
    (l : List (Announcement P H)) : ((a :: l).countP p : ℤ) = l.countP p + ind (p a) := by
  by_cases ha : p a
  · simp [ind, ha]
  · simp [ind, ha]

/-- The order of the list does not matter. -/
lemma peerCounts_perm (h : l.Perm l') (peer : P) : peerCounts l peer = peerCounts l' peer := by
  have hfilter := h.filter fun a => decide (a.peer = peer)
  simp only [peerCounts, hfilter.length_eq, hfilter.countP_eq]

/-- One announcement more. -/
lemma peerCounts_cons (a : Announcement P H) (l : List (Announcement P H)) (peer : P) :
    peerCounts (a :: l) peer =
      if a.peer = peer then (peerCounts l peer).add a else peerCounts l peer := by
  split_ifs with hpeer
  · rw [peerCounts, filter_cons_of_pos (by simpa using hpeer)]
    simp only [natCast_countP_cons]
    rfl
  · rw [peerCounts, filter_cons_of_neg (by simpa using hpeer)]
    rfl

lemma total_nonneg (l : List (Announcement P H)) (peer : P) : 0 ≤ (peerCounts l peer).total :=
  Int.natCast_nonneg _

/-- The recount for the peer of a new announcement. -/
lemma recomputePeerInfo_cons_self (a : Announcement P H) (l : List (Announcement P H)) :
    recomputePeerInfo (a :: l) a.peer = some ((peerCounts l a.peer).add a) := by
  have hpos := total_nonneg l a.peer
  rw [recomputePeerInfo_eq, peerCounts_cons, if_pos rfl, if_neg]
  simp only [add]
  omega

/-- The recount for another peer. -/
lemma recomputePeerInfo_cons_of_ne {a : Announcement P H} {peer : P} (hpeer : peer ≠ a.peer)
    (l : List (Announcement P H)) : recomputePeerInfo (a :: l) peer = recomputePeerInfo l peer := by
  rw [recomputePeerInfo_eq, peerCounts_cons, if_neg hpeer.symm, ← recomputePeerInfo_eq]

lemma recomputePeerInfo_perm (h : l.Perm l') : recomputePeerInfo l = recomputePeerInfo l' := by
  funext peer
  rw [recomputePeerInfo_eq, recomputePeerInfo_eq, peerCounts_perm h]

end Counts

/-! ## Changes of one announcement -/

section SetState

variable (st st' : AnnState) (a : Announcement P H)

omit [LinearOrder P] [LinearOrder H]

@[simp] lemma key_snd : a.key.2 = a.txhash := rfl

@[simp] lemma setState_state : (a.setState st).state = st := rfl

@[simp] lemma setState_key : (a.setState st).key = a.key := rfl

@[simp] lemma setState_time : (a.setState st).time = a.time := rfl

@[simp] lemma setState_prio : prio.of (a.setState st) = prio.of a := rfl

@[simp] lemma setState_setState : (a.setState st').setState st = a.setState st := rfl

@[simp] lemma request_state (expiry : ℤ) : (request expiry a).state = .requested := rfl

end SetState

/-- A change that keeps what identifies and orders announcements of a peer. -/
structure KeepsIdentity (f : Announcement P H → Announcement P H) : Prop where
  key : ∀ a, (f a).key = a.key
  sequence : ∀ a, (f a).sequence = a.sequence

omit [LinearOrder P] [LinearOrder H] in
lemma keepsIdentity_setState (st : AnnState) :
    KeepsIdentity (P := P) (H := H) (Announcement.setState st) :=
  ⟨fun _ => rfl, fun _ => rfl⟩

omit [LinearOrder P] [LinearOrder H] in
lemma keepsIdentity_request (expiry : ℤ) : KeepsIdentity (P := P) (H := H) (request expiry) :=
  ⟨fun _ => rfl, fun _ => rfl⟩

/-- An announcement brought to the front. -/
lemma perm_of_mem (hkeys : (l.map Announcement.key).Nodup)
    {a : Announcement P H} (ha : a ∈ l) : l.Perm (a :: l.filter (·.key ≠ a.key)) := by
  obtain ⟨pre, post, rfl, hpre, hpost⟩ := split_of_mem hkeys ha
  have hrest : (pre ++ a :: post).filter (·.key ≠ a.key) = pre ++ post := by
    rw [filter_append, filter_cons_of_neg (by simp),
      filter_eq_self.2 (by simpa using hpre), filter_eq_self.2 (by simpa using hpost)]
  rw [hrest]
  exact perm_middle

variable {f g : Announcement P H → Announcement P H}

/-- A projection that a change keeps. -/
lemma map_update {β : Type} {g : Announcement P H → β}
    (hg : ∀ a, g (f a) = g a) (it : P × H) (l : List (Announcement P H)) :
    (update it f l).map g = l.map g := by
  rw [update, map_map]
  refine map_congr_left fun b _ => ?_
  simp only [comp_apply]
  split_ifs
  · exact hg b
  · rfl

/-- The keys stay distinct. -/
lemma keys_update (hf : KeepsIdentity f) (it : P × H) (hkeys : (l.map Announcement.key).Nodup) :
    ((update it f l).map Announcement.key).Nodup := by
  rw [map_update hf.key]
  exact hkeys

/-- Two announcements are changed. -/
lemma mem_update_update (hkeys : (l.map Announcement.key).Nodup)
    {a b : Announcement P H} (ha : a ∈ l) (hb : b ∈ l) (hne : a ≠ b)
    (f : Announcement P H → Announcement P H) (hg : KeepsIdentity g) :
    x ∈ update a.key f (update b.key g l) ↔ x = f a ∨ x = g b ∨ (x ∈ l ∧ x ≠ a ∧ x ≠ b) := by
  have ha' : a ∈ update b.key g l := (mem_update hkeys hb g).2 (.inr ⟨ha, hne⟩)
  have hgb : g b ≠ a := fun heq => hne (eq_of_key_eq hkeys ha hb (by rw [← heq, hg.key]))
  rw [mem_update (keys_update hg b.key hkeys) ha', mem_update hkeys hb]
  constructor
  · rintro (hx | ⟨hx | ⟨hx, hxb⟩, hxa⟩)
    · exact .inl hx
    · exact .inr (.inl hx)
    · exact .inr (.inr ⟨hx, hxa, hxb⟩)
  · rintro (hx | rfl | ⟨hx, hxa, hxb⟩)
    · exact .inl hx
    · exact .inr ⟨.inl rfl, hgb⟩
    · exact .inr ⟨.inr ⟨hx, hxb⟩, hxa⟩

/-- Announcements of other transactions stay. -/
lemma mem_update_of_ne (hf : KeepsIdentity f) {k : P × H} (hne : x.txhash ≠ k.2) :
    x ∈ update k f l ↔ x ∈ l := by
  constructor
  · intro hx
    obtain ⟨b, hb, rfl⟩ := mem_map.1 hx
    by_cases hkey : b.key = k
    · rw [if_pos hkey] at hne
      exact absurd (congrArg Prod.snd ((hf.key b).trans hkey)) hne
    · rwa [if_neg hkey]
  · intro hx
    exact mem_map.2 ⟨x, hx, if_neg fun hkey => hne (congrArg Prod.snd hkey)⟩

/-- The second of two state changes counts. -/
lemma update_setState_setState (it : P × H) (st st' : AnnState) (l : List (Announcement P H)) :
    update it (Announcement.setState st) (update it (Announcement.setState st') l) =
      update it (Announcement.setState st) l := by
  rw [update, update, map_map]
  refine map_congr_left fun b _ => ?_
  by_cases hb : b.key = it
  · simp [hb]
  · simp [hb]

/-- Changes at different keys commute. -/
lemma update_comm (hf : KeepsIdentity f)
    (hg : KeepsIdentity g) {k k' : P × H} (hne : k ≠ k') (l : List (Announcement P H)) :
    update k f (update k' g l) = update k' g (update k f l) := by
  rw [update, update, update, update, map_map, map_map]
  refine map_congr_left fun b _ => ?_
  by_cases hb : b.key = k
  · simp [hb, hne, hf.key]
  · by_cases hb' : b.key = k'
    · simp [hb', hne.symm, hg.key]
    · simp [hb, hb']

/-- A changed announcement brought to the front. -/
lemma map_perm_of_mem (hkeys : (l.map Announcement.key).Nodup)
    {a : Announcement P H} (ha : a ∈ l) (f : Announcement P H → Announcement P H) :
    (update a.key f l).Perm (f a :: l.filter (·.key ≠ a.key)) := by
  refine ((perm_of_mem hkeys ha).map _).trans ?_
  rw [map_cons, if_pos rfl]
  refine List.Perm.cons _ (List.Perm.of_eq ?_)
  have hsame : (l.filter (·.key ≠ a.key)).map (fun b => if b.key = a.key then f b else b) =
      (l.filter (·.key ≠ a.key)).map id :=
    map_congr_left fun b hb => if_neg (by simpa using (mem_filter.1 hb).2)
  rw [hsame, map_id]

/-! ## Changes keep the container well formed -/

section Changes

variable {s : Tracker P H} (hwf : WellFormed prio s)

include hwf

/-- `modify` takes the contribution to the counters out and adds the new one. -/
theorem WellFormed.modify (it : P × H)
    (hf : KeepsIdentity f) : WellFormed prio (modify pl it f s) := by
  rw [TxRequest.modify]
  cases hfind : s.find it with
  | none => exact hwf
  | some a =>
    obtain ⟨ha, rfl⟩ := (find_eq_some hwf).1 hfind
    have hperm := map_perm_of_mem hwf.keys ha f
    have hpeer : (f a).peer = a.peer := congrArg Prod.fst (hf.key a)
    have hseq := map_update hf.sequence a.key s.index
    constructor
    · exact keys_update hf a.key hwf.keys
    · exact (pl.byTxHash.perm ..).trans (((hwf.txPerm.filter _).cons _).trans hperm.symm)
    · exact (pl.byTime.perm ..).trans (((hwf.timePerm.filter _).cons _).trans hperm.symm)
    · exact pl.byTxHash.sorted _ _ _ (hwf.txSorted.filter _)
    · exact pl.byTime.sorted _ _ _ (hwf.timeSorted.filter _)
    · funext peer
      change Function.update s.peerinfo a.peer _ peer =
        recomputePeerInfo (update a.key f s.index) peer
      rw [recomputePeerInfo_perm hperm, update_apply, hwf.peerinfo,
        recomputePeerInfo_perm (perm_of_mem hwf.keys ha)]
      split_ifs with hp
      · rw [hp, recomputePeerInfo_cons_self, ← hpeer, recomputePeerInfo_cons_self, Option.map_some]
        simp only [add, Int.add_sub_cancel]
      · rw [recomputePeerInfo_cons_of_ne hp, recomputePeerInfo_cons_of_ne (by rwa [hpeer])]
    · have hsorted := pairwise_map.2 hwf.sequence
      rw [← hseq] at hsorted
      exact pairwise_map.1 hsorted
    · intro b hb
      have hmem : b.sequence ∈ (update a.key f s.index).map (·.sequence) := mem_map_of_mem hb
      rw [hseq] at hmem
      obtain ⟨c, hc, heq⟩ := mem_map.1 hmem
      exact heq ▸ hwf.sequence_lt c hc

/-- `erase` takes the contribution out. -/
theorem WellFormed.erase (it : P × H) : WellFormed prio (erase it s) := by
  rw [TxRequest.erase]
  cases hfind : s.find it with
  | none => exact hwf
  | some a =>
    obtain ⟨ha, rfl⟩ := (find_eq_some hwf).1 hfind
    constructor
    · exact hwf.keys.sublist (filter_sublist.map _)
    · exact hwf.txPerm.filter _
    · exact hwf.timePerm.filter _
    · exact hwf.txSorted.filter _
    · exact hwf.timeSorted.filter _
    · funext peer
      change Function.update s.peerinfo a.peer _ peer =
        recomputePeerInfo (s.index.filter (·.key ≠ a.key)) peer
      rw [update_apply, hwf.peerinfo, recomputePeerInfo_perm (perm_of_mem hwf.keys ha)]
      split_ifs with hp
      · rw [hp, recomputePeerInfo_cons_self, Option.bind_some, recomputePeerInfo_eq, remove]
        simp only [add, Int.add_sub_cancel]
      · rw [recomputePeerInfo_cons_of_ne hp]
    · exact hwf.sequence.filter _
    · exact fun b hb => hwf.sequence_lt b (mem_of_mem_filter hb)

/-- `insert` adds the contribution, for a key that is new. -/
theorem WellFormed.insert {a : Announcement P H} (hnew : ∀ b ∈ s.index, b.key ≠ a.key)
    (hseq : a.sequence = s.currentSequence) (hstate : a.state = .candidateDelayed) :
    WellFormed prio (insert pl a s) := by
  have hperm : (s.index ++ [a]).Perm (a :: s.index) := perm_append_singleton a s.index
  constructor
  · rw [TxRequest.insert, map_append, nodup_append]
    refine ⟨hwf.keys, nodup_singleton _, ?_⟩
    intro k hk k' hk'
    obtain ⟨b, hb, rfl⟩ := mem_map.1 hk
    rw [mem_singleton.1 hk']
    exact hnew b hb
  · exact (pl.byTxHash.perm ..).trans ((hwf.txPerm.cons _).trans hperm.symm)
  · exact (pl.byTime.perm ..).trans ((hwf.timePerm.cons _).trans hperm.symm)
  · exact pl.byTxHash.sorted _ _ _ hwf.txSorted
  · exact pl.byTime.sorted _ _ _ hwf.timeSorted
  · funext peer
    change Function.update s.peerinfo a.peer _ peer = recomputePeerInfo (s.index ++ [a]) peer
    rw [recomputePeerInfo_perm hperm, update_apply, hwf.peerinfo]
    split_ifs with hp
    · have hnone : (peerCounts s.index a.peer).total = 0 →
          peerCounts s.index a.peer = ⟨0, 0, 0⟩ := by
        intro hzero
        have hnil : s.index.filter (·.peer = a.peer) = [] := by simpa [peerCounts] using hzero
        simp [peerCounts, hnil]
      rw [hp, recomputePeerInfo_cons_self, recomputePeerInfo_eq]
      by_cases hzero : (peerCounts s.index a.peer).total = 0
      · rw [if_pos hzero, hnone hzero]
        simp [add, incrTotal, hstate, ind]
      · rw [if_neg hzero]
        simp [add, incrTotal, hstate, ind]
    · rw [recomputePeerInfo_cons_of_ne hp]
  · rw [TxRequest.insert, pairwise_append]
    refine ⟨hwf.sequence, pairwise_singleton _ _, ?_⟩
    intro b hb c hc
    rw [mem_singleton.1 hc, hseq]
    exact hwf.sequence_lt b hb
  · intro b hb
    rcases mem_append.1 hb with hb | hb
    · exact (hwf.sequence_lt b hb).trans (Nat.lt_succ_self _)
    · rw [mem_singleton.1 hb, hseq]
      exact Nat.lt_succ_self _

end Changes

end Bitcoin.TxRequest
