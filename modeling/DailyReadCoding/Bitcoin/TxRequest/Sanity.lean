import DailyReadCoding.Bitcoin.TxRequest.Invariant

/-!
# The tracker stays consistent

The conditions the source asserts hold after every history of operations, and those on time right
after `GetRequestable`.
-/

namespace Bitcoin.TxRequest

open OrderedIndex List

variable {P H : Type} [LinearOrder P] [LinearOrder H] {prio : PriorityComputer P H}

/-! ## Each iteration leaves less to do -/

section Counting

variable {l : List (Announcement P H)} (hkeys : (l.map Announcement.key).Nodup)
  {a : Announcement P H} (ha : a ∈ l) {p : Announcement P H → Bool}
  {f : Announcement P H → Announcement P H}

include hkeys ha

lemma countP_update_le (hf : p (f a) = true → p a = true) :
    (update a.key f l).countP p ≤ l.countP p := by
  rw [(map_perm_of_mem hkeys ha f).countP_eq, (perm_of_mem hkeys ha).countP_eq, countP_cons,
    countP_cons]
  refine Nat.add_le_add_left ?_ _
  by_cases hfa : p (f a) = true
  · rw [if_pos hfa, if_pos (hf hfa)]
  · rw [if_neg hfa]
    exact Nat.zero_le _

lemma countP_update_lt (hp : p a = true) (hf : ¬ p (f a) = true) :
    (update a.key f l).countP p < l.countP p := by
  rw [(map_perm_of_mem hkeys ha f).countP_eq, (perm_of_mem hkeys ha).countP_eq,
    countP_cons_of_neg hf, countP_cons_of_pos hp]
  exact Nat.lt_succ_self _

lemma countP_forget_lt (hp : p a = true) :
    (l.filter (·.txhash ≠ a.txhash)).countP p < l.countP p := by
  have hsub : (l.filter (·.txhash ≠ a.txhash)).countP p ≤ (l.filter (·.key ≠ a.key)).countP p := by
    refine List.Sublist.countP_le (monotone_filter_right l fun x hx => ?_)
    rw [decide_eq_true_eq] at hx ⊢
    exact fun hkey => hx (congrArg Prod.snd hkey)
  rw [(perm_of_mem hkeys ha).countP_eq, countP_cons_of_pos hp]
  exact Nat.lt_succ_of_le hsub

end Counting

/-- What the first loop of `SetTimePoint` is after. -/
def due (now : ℤ) (a : Announcement P H) : Bool := decide (a.IsWaiting ∧ a.time ≤ now)

/-- What the second loop is after. -/
def early (now : ℤ) (a : Announcement P H) : Bool := decide (a.IsSelectable ∧ a.time > now)

omit [LinearOrder P] [LinearOrder H] in
lemma not_due_setState {st : AnnState} (hst : st ≠ .requested) (hst' : st ≠ .candidateDelayed)
    (now : ℤ) (a : Announcement P H) : ¬ due now (a.setState st) = true := by
  simp [due, Announcement.IsWaiting, hst, hst']

section Progress

variable (pl : Placements prio) {s : Tracker P H} (hinv : Invariant prio s)
  {a : Announcement P H} (ha : a ∈ s.index) {now : ℤ}

include hinv ha

/-- Of changes of two announcements, one takes something out and the other puts nothing in. -/
lemma countP_update_update_lt {b : Announcement P H} (hb : b ∈ s.index) (hne : a ≠ b)
    {p : Announcement P H → Bool} {f g : Announcement P H → Announcement P H}
    (hg : KeepsIdentity g) (hp : p a = true) (hf : ¬ p (f a) = true)
    (hpg : p (g b) = true → p b = true) :
    (update a.key f (update b.key g s.index)).countP p < s.index.countP p := by
  have hkeys := hinv.wf.keys
  have ha' : a ∈ update b.key g s.index := (mem_update hkeys hb g).2 (.inr ⟨ha, hne⟩)
  calc (update a.key f (update b.key g s.index)).countP p
      < (update b.key g s.index).countP p := countP_update_lt (keys_update hg b.key hkeys) ha' hp hf
    _ ≤ s.index.countP p := countP_update_le hkeys hb hpg

lemma promoteCandidateReady_countP (hdelayed : a.state = .candidateDelayed) (htime : a.time ≤ now) :
    (promoteCandidateReady pl a.key s).index.countP (due now) < s.index.countP (due now) := by
  have hdue : due now a = true := by simp [due, Announcement.IsWaiting, hdelayed, htime]
  rcases promoteCandidateReady_cases pl hinv.wf hinv.sel ha hdelayed with
    ⟨-, hindex⟩ | ⟨b, hb, -, hb_best, -, hindex⟩ | ⟨-, -, -, -, -, hindex⟩
  · rw [hindex]
    exact countP_update_lt hinv.wf.keys ha hdue (not_due_setState (by decide) (by decide) now a)
  · rw [hindex]
    have hne : a ≠ b := fun heq => by simp [heq, hb_best] at hdelayed
    refine countP_update_update_lt hinv ha hb hne (keepsIdentity_setState _) hdue
      (not_due_setState (by decide) (by decide) now a) fun hb' => ?_
    exact absurd hb' (not_due_setState (by decide) (by decide) now b)
  · rw [hindex]
    exact countP_update_lt hinv.wf.keys ha hdue (not_due_setState (by decide) (by decide) now a)

lemma changeAndReselect_countP {newState : AnnState} {p : Announcement P H → Bool}
    (hp : p a = true) (hnew : ¬ p (a.setState newState) = true)
    (hready : ∀ r : Announcement P H, r.state = .candidateReady →
      p (r.setState .candidateBest) = true → p r = true) :
    (changeAndReselect pl a.key newState s).index.countP p < s.index.countP p := by
  rcases changeAndReselect_cases pl hinv.wf hinv.sel ha newState with
    ⟨-, hindex⟩ | ⟨ha_sel, r, hr, -, hr_ready, -, hindex⟩
  · rw [hindex]
    exact countP_update_lt hinv.wf.keys ha hp hnew
  · rw [hindex]
    have hne := ne_of_selected_ready ha_sel hr_ready
    exact countP_update_update_lt hinv ha hr hne (keepsIdentity_setState _) hp hnew
      (hready r hr_ready)

lemma makeCompleted_countP (hreq : a.state = .requested) (htime : a.time ≤ now) :
    (makeCompleted pl a.key s).2.index.countP (due now) < s.index.countP (due now) := by
  have hdue : due now a = true := by simp [due, Announcement.IsWaiting, hreq, htime]
  rcases makeCompleted_cases pl hinv.wf ha with
    ⟨hdone, -⟩ | ⟨-, -, -, -, hindex⟩ | ⟨-, -, heq⟩
  · exact absurd (hreq.symm.trans hdone) (by decide)
  · rw [hindex]
    exact countP_forget_lt hinv.wf.keys ha hdue
  · rw [heq]
    refine changeAndReselect_countP pl hinv ha hdue
      (not_due_setState (by decide) (by decide) now a) fun r _ hr => ?_
    exact absurd hr (not_due_setState (by decide) (by decide) now r)

end Progress

/-! ## The loops of `SetTimePoint` -/

section Loops

variable (pl : Placements prio) {now : ℤ}

omit [LinearOrder P] [LinearOrder H] in
lemma waitState_eq_zero {a : Announcement P H} : a.waitState = 0 ↔ a.IsWaiting := by
  rw [Announcement.waitState]
  split_ifs <;> simp_all

omit [LinearOrder P] [LinearOrder H] in
lemma waitState_eq_two {a : Announcement P H} : 2 ≤ a.waitState ↔ a.IsSelectable := by
  cases hstate : a.state <;>
    simp [Announcement.waitState, Announcement.IsWaiting, Announcement.IsSelectable, hstate]

/-- The first in the order by time is due if anything is. -/
lemma not_due_of_head {s : Tracker P H} (hwf : WellFormed prio s) {it : Announcement P H}
    (hhead : s.byTime.head? = some it) (hit : ¬ due now it = true) :
    ∀ a ∈ s.index, ¬ due now a = true := by
  intro a ha ha_due
  obtain ⟨rest, hsplit⟩ := List.head?_eq_some_iff.1 hhead
  have hsorted := hwf.timeSorted
  rw [← hwf.timePerm.mem_iff, hsplit, mem_cons] at ha
  rw [hsplit, pairwise_cons] at hsorted
  rcases ha with rfl | ha
  · exact hit ha_due
  · have hlt := hsorted.1 a ha
    simp only [due, decide_eq_true_eq, ← waitState_eq_zero] at ha_due hit
    simp only [timeLt, not_or, not_and] at hlt
    have hwait : it.waitState = 0 := by omega
    exact hit ⟨hwait, by omega⟩

/-- The last in the order by time is early if anything is. -/
lemma not_early_of_getLast {s : Tracker P H} (hwf : WellFormed prio s) {it : Announcement P H}
    (hlast : s.byTime.getLast? = some it) (hit : ¬ early now it = true) :
    ∀ a ∈ s.index, ¬ early now a = true := by
  intro a ha ha_early
  obtain ⟨init, hsplit⟩ := List.getLast?_eq_some_iff.1 hlast
  have hsorted := hwf.timeSorted
  rw [← hwf.timePerm.mem_iff, hsplit, mem_append, mem_singleton] at ha
  rw [hsplit, pairwise_append] at hsorted
  rcases ha with ha | rfl
  · have hlt := hsorted.2.2 a ha it mem_cons_self
    simp only [early, decide_eq_true_eq, ← waitState_eq_two] at ha_early hit
    simp only [timeLt, not_or, not_and] at hlt
    have hwait : 2 ≤ it.waitState := by omega
    have hmax : ∀ x : Announcement P H, x.waitState ≤ 2 := by
      intro x
      rw [Announcement.waitState]
      split_ifs <;> omega
    have htime := hlt.2 (by have := hmax it; have := hmax a; omega)
    exact hit ⟨hwait, by omega⟩
  · exact hit ha_early

omit [LinearOrder P] [LinearOrder H] in
lemma forall_not_of_countP {p : Announcement P H → Bool} {s : Tracker P H}
    (hcount : s.index.countP p ≤ 0) : ∀ a ∈ s.index, ¬ p a = true :=
  countP_eq_zero.1 (Nat.le_zero.1 hcount)

/-- **A rule for the second loop**: what delaying a candidate keeps holds in the end, when none is
early. -/
theorem demoteLoop_spec (now : ℤ) {Q : Tracker P H → Prop}
    (hdemote : ∀ s a, Invariant prio s → Q s → a ∈ s.index → a.IsSelectable → a.time > now →
      Q (changeAndReselect pl a.key .candidateDelayed s))
    (fuel : ℕ) : ∀ s : Tracker P H, Invariant prio s → Q s → s.index.countP (early now) ≤ fuel →
      Invariant prio (demoteLoop pl now fuel s) ∧ Q (demoteLoop pl now fuel s) ∧
        ∀ a ∈ (demoteLoop pl now fuel s).index, ¬ early now a = true := by
  induction fuel with
  | zero =>
    intro s hinv hQ hcount
    exact ⟨hinv, hQ, forall_not_of_countP hcount⟩
  | succ fuel ih =>
    intro s hinv hQ hcount
    rw [demoteLoop]
    cases hlast : s.byTime.getLast? with
    | none =>
      refine ⟨hinv, hQ, fun a ha => ?_⟩
      have hnil := List.getLast?_eq_none_iff.1 hlast
      rw [← hinv.wf.timePerm.mem_iff, hnil] at ha
      exact absurd ha not_mem_nil
    | some it =>
      have hit : it ∈ s.index := hinv.wf.timePerm.mem_iff.1 (mem_of_getLast? hlast)
      dsimp only
      by_cases hearly : it.IsSelectable ∧ it.time > now
      · rw [if_pos hearly]
        have hless : (changeAndReselect pl it.key .candidateDelayed s).index.countP (early now) <
            s.index.countP (early now) := by
          refine changeAndReselect_countP pl hinv hit (decide_eq_true hearly) ?_ ?_
          · simp [early, Announcement.IsSelectable]
          · intro r hr hr'
            simpa [early, Announcement.IsSelectable, hr] using hr'
        exact ih _ (hinv.changeAndReselect pl hit (.inr rfl) fun h => absurd h (by decide))
          (hdemote s it hinv hQ hit hearly.1 hearly.2) (by omega)
      · rw [if_neg hearly]
        refine ⟨hinv, hQ, not_early_of_getLast hinv.wf hlast ?_⟩
        rwa [early, decide_eq_true_eq]

/-- Delaying an early candidate makes nothing due. -/
lemma not_due_changeAndReselect {s : Tracker P H} (hinv : Invariant prio s) {a : Announcement P H}
    (ha : a ∈ s.index) (htime : a.time > now) (hnone : ∀ x ∈ s.index, ¬ due now x = true) :
    ∀ x ∈ (changeAndReselect pl a.key .candidateDelayed s).index, ¬ due now x = true := by
  have hdelayed : ¬ due now (a.setState .candidateDelayed) = true := by
    rw [due, decide_eq_true_eq]
    exact fun h => absurd h.2 htime.not_ge
  intro x hx
  rcases changeAndReselect_cases pl hinv.wf hinv.sel ha .candidateDelayed with
    ⟨-, hindex⟩ | ⟨ha_sel, r, hr, -, hr_ready, -, hindex⟩
  · rw [hindex] at hx
    rcases (mem_update hinv.wf.keys ha _).1 hx with rfl | ⟨hx, -⟩
    · exact hdelayed
    · exact hnone x hx
  · rw [hindex] at hx
    have hne := ne_of_selected_ready ha_sel hr_ready
    rcases (mem_update_update hinv.wf.keys ha hr hne _ (keepsIdentity_setState _)).1 hx with
      rfl | rfl | ⟨hx, -, -⟩
    · exact hdelayed
    · exact not_due_setState (by decide) (by decide) now r
    · exact hnone x hx

section SetTimePoint

variable (now) {Q : List (P × GenTxid H) → Tracker P H → Prop}
  (hpromote : ∀ e s a, Invariant prio s → Q e s → a ∈ s.index → a.state = .candidateDelayed →
    a.time ≤ now → Q e (promoteCandidateReady pl a.key s))
  (hcomplete : ∀ e s a, Invariant prio s → Q e s → a ∈ s.index → a.state = .requested →
    a.time ≤ now → Q (e ++ [(a.peer, a.toGenTxid)]) (makeCompleted pl a.key s).2)
include hpromote hcomplete

/-- **A rule for the first loop**: what promoting and completing keep holds in the end, when nothing
is due. -/
theorem expireLoop_spec (fuel : ℕ) : ∀ (e : List (P × GenTxid H)) (s : Tracker P H),
    Invariant prio s → Q e s →
      s.index.countP (due now) ≤ fuel → Invariant prio (expireLoop pl now fuel e s).2 ∧
        Q (expireLoop pl now fuel e s).1 (expireLoop pl now fuel e s).2 ∧
        ∀ a ∈ (expireLoop pl now fuel e s).2.index, ¬ due now a = true := by
  induction fuel with
  | zero =>
    intro e s hinv hQ hcount
    exact ⟨hinv, hQ, forall_not_of_countP hcount⟩
  | succ fuel ih =>
    intro e s hinv hQ hcount
    rw [expireLoop]
    cases hhead : s.byTime.head? with
    | none =>
      refine ⟨hinv, hQ, fun a ha => ?_⟩
      have hnil := List.head?_eq_none_iff.1 hhead
      rw [← hinv.wf.timePerm.mem_iff, hnil] at ha
      exact absurd ha not_mem_nil
    | some it =>
      have hit : it ∈ s.index := hinv.wf.timePerm.mem_iff.1 (mem_of_head? hhead)
      dsimp only
      by_cases hdelayed : it.state = .candidateDelayed ∧ it.time ≤ now
      · rw [if_pos hdelayed]
        have hless := promoteCandidateReady_countP pl hinv hit hdelayed.1 hdelayed.2
        exact ih _ _ (hinv.promoteCandidateReady pl hit hdelayed.1)
          (hpromote e s it hinv hQ hit hdelayed.1 hdelayed.2) (by omega)
      rw [if_neg hdelayed]
      by_cases hreq : it.state = .requested ∧ it.time ≤ now
      · rw [if_pos hreq]
        have hless := makeCompleted_countP pl hinv hit hreq.1 hreq.2
        exact ih _ _ (hinv.makeCompleted pl it.key)
          (hcomplete e s it hinv hQ hit hreq.1 hreq.2) (by omega)
      rw [if_neg hreq]
      refine ⟨hinv, hQ, not_due_of_head hinv.wf hhead ?_⟩
      rw [due, decide_eq_true_eq]
      rintro ⟨hwait | hwait, htime⟩
      · exact hreq ⟨hwait, htime⟩
      · exact hdelayed ⟨hwait, htime⟩

/-- **A rule for `SetTimePoint`**: what its transitions keep holds in the end, in line with the
time. -/
theorem setTimePoint_spec
    (hdemote : ∀ e s a, Invariant prio s → Q e s → a ∈ s.index → a.IsSelectable → a.time > now →
      Q e (changeAndReselect pl a.key .candidateDelayed s))
    {s : Tracker P H} (hinv : Invariant prio s) (hQ : Q [] s) :
    Invariant prio (setTimePoint pl now s).2 ∧
      Q (setTimePoint pl now s).1 (setTimePoint pl now s).2 ∧
      PostGetRequestableSanityCheck now (setTimePoint pl now s).2 := by
  obtain ⟨hinv1, hQ1, hdue1⟩ :=
    expireLoop_spec pl now hpromote hcomplete s.index.length [] s hinv hQ
    countP_le_length
  rw [setTimePoint]
  generalize expireLoop pl now s.index.length [] s = moved at hinv1 hQ1 hdue1 ⊢
  obtain ⟨hinv2, ⟨hQ2, hdue2⟩, hearly⟩ := demoteLoop_spec pl now
    (Q := fun s => Q moved.1 s ∧ ∀ a ∈ s.index, ¬ due now a = true)
    (fun s a hinv hQ ha hsel htime => ⟨hdemote moved.1 s a hinv hQ.1 ha hsel htime,
      not_due_changeAndReselect pl hinv ha htime hQ.2⟩)
    moved.2.index.length moved.2 hinv1 ⟨hQ1, hdue1⟩ countP_le_length
  refine ⟨hinv2, hQ2, fun a ha => ?_⟩
  have ha_due := hdue2 a ha
  have ha_early := hearly a ha
  rw [due, decide_eq_true_eq, not_and, not_le] at ha_due
  rw [early, decide_eq_true_eq, not_and, not_lt] at ha_early
  split_ifs with hwait hsel
  · exact ha_due hwait
  · exact ha_early hsel

end SetTimePoint

/-- `SetTimePoint` keeps the invariant and brings every announcement in line with the time. -/
theorem Invariant.setTimePoint (now : ℤ) {s : Tracker P H} (hinv : Invariant prio s) :
    Invariant prio (setTimePoint pl now s).2 ∧
      PostGetRequestableSanityCheck now (setTimePoint pl now s).2 := by
  obtain ⟨hinv', -, htime⟩ := setTimePoint_spec pl now (Q := fun _ _ => True)
    (fun _ _ _ _ _ _ _ _ => trivial) (fun _ _ _ _ _ _ _ _ => trivial)
    (fun _ _ _ _ _ _ _ _ => trivial) hinv trivial
  exact ⟨hinv', htime⟩

end Loops

/-! ## Histories -/

section Histories

variable [OrderBot H] (pl : Placements prio)

omit [OrderBot H] in
lemma Invariant.disconnectLoop (peer : P) (fuel : ℕ) : ∀ (it : Option (P × H)) {s : Tracker P H},
    Invariant prio s → Invariant prio (disconnectLoop pl peer fuel it s) := by
  induction fuel with
  | zero =>
    intro it s hinv
    exact hinv
  | succ fuel ih =>
    intro it s hinv
    cases it with
    | none => exact hinv
    | some it => exact ih _ (hinv.disconnectOne pl it)

/-- The invariant, over an operation and over a history. -/
theorem Invariant.step {s : Tracker P H} (hinv : Invariant prio s) (e : Event P H) :
    Invariant prio (step pl s e) := by
  cases e with
  | receivedInv peer gtxid preferred reqtime =>
      exact hinv.receivedInv pl peer gtxid preferred reqtime
  | requestedTx peer txhash expiry => exact hinv.requestedTx pl peer txhash expiry
  | receivedResponse peer txhash =>
    rw [TxRequest.step, receivedResponse_eq]
    exact hinv.makeCompleted pl (peer, txhash)
  | getRequestable peer now => exact (hinv.setTimePoint pl now).1
  | forgetTxHash txhash =>
    obtain ⟨hwf, hindex⟩ := forgetTxHash_spec hinv.wf txhash
    refine ⟨hwf, ?_⟩
    rw [TxRequest.step, hindex]
    exact hinv.sel.forget txhash
  | disconnectedPeer peer => exact hinv.disconnectLoop pl peer _ _

theorem run_invariant (events : List (Event P H)) : Invariant prio (run pl events) := by
  induction events using reverseRecOn with
  | nil => refine ⟨wellFormed_initial, ?_, ?_, ?_, ?_⟩ <;> simp [run, Tracker.initial]
  | append_singleton events e ih =>
    rw [run, foldl_append]
    exact ih.step pl e

end Histories

/-! ## The asserted conditions -/

section Checks

variable {s : Tracker P H} (hinv : Invariant prio s)

omit [LinearOrder P] in
lemma countState_pos {index : List (Announcement P H)} {t : H} {st : AnnState} :
    0 < countState index t st ↔ ∃ a ∈ index, a.txhash = t ∧ a.state = st := by
  simp [countState, countP_pos_iff, and_assoc]

omit [LinearOrder P] in
lemma countState_selected (index : List (Announcement P H)) (t : H) :
    countState index t .candidateBest + countState index t .requested =
      (index.filter (·.txhash = t)).countP (·.IsSelected) := by
  rw [countState, countState]
  induction index.filter (·.txhash = t) with
  | nil => rfl
  | cons a l ih =>
    rw [countP_cons, countP_cons, countP_cons, ← ih]
    cases hstate : a.state <;> simp [Announcement.IsSelected, hstate] <;> omega

omit [LinearOrder P] [LinearOrder H] in
/-- The last best announcement gives the priority recorded for the best. -/
lemma foldl_best {l : List (Announcement P H)} (init : ℕ)
    (hbest : ∃ a ∈ l, a.state = .candidateBest) : ∃ a ∈ l, a.state = .candidateBest ∧
      l.foldl (fun p a => if a.state = .candidateBest then prio.of a else p) init = prio.of a := by
  induction l using reverseRecOn with
  | nil => simp at hbest
  | append_singleton l x ih =>
    rw [foldl_append, foldl_cons, foldl_nil]
    by_cases hx : x.state = .candidateBest
    · exact ⟨x, by simp, hx, if_pos hx⟩
    · obtain ⟨a, ha, ha_best⟩ := hbest
      have ha' : a ∈ l := by
        rcases mem_append.1 ha with ha | ha
        · exact ha
        · exact absurd (mem_singleton.1 ha ▸ ha_best) hx
      obtain ⟨b, hb, hb_best, heq⟩ := ih ⟨a, ha', ha_best⟩
      exact ⟨b, mem_append_left _ hb, hb_best, by rw [if_neg hx, heq]⟩

omit [LinearOrder P] [LinearOrder H] in
/-- A bound on the priorities of the ready announcements bounds the highest of them. -/
lemma foldl_ready_le {l : List (Announcement P H)} {n : ℕ}
    (hready : ∀ a ∈ l, a.state = .candidateReady → prio.of a ≤ n) :
    l.foldl (fun p a => if a.state = .candidateReady then max p (prio.of a) else p) 0 ≤ n := by
  induction l using reverseRecOn with
  | nil => exact Nat.zero_le n
  | append_singleton l x ih =>
    have hl := ih fun a ha => hready a (mem_append_left _ ha)
    rw [foldl_append, foldl_cons]
    split_ifs with hx
    · exact max_le hl (hready x (by simp) hx)
    · exact hl

include hinv

lemma countState_selected_le (t : H) :
    countState s.index t .candidateBest + countState s.index t .requested ≤ 1 := by
  rw [countState_selected, countP_eq_length_filter]
  have hnodup := (hinv.wf.keys.of_map.filter (·.txhash = t)).filter (·.IsSelected)
  have hone : ∀ x ∈ (s.index.filter (·.txhash = t)).filter (·.IsSelected),
      ∀ y ∈ (s.index.filter (·.txhash = t)).filter (·.IsSelected), x = y := by
    intro x hx y hy
    simp only [mem_filter, decide_eq_true_eq] at hx hy
    exact hinv.sel.one x hx.1.1 y hy.1.1 (hx.1.2.trans hy.1.2.symm) hx.2 hy.2
  generalize (s.index.filter (·.txhash = t)).filter (·.IsSelected) = l at hnodup hone
  match l, hnodup, hone with
  | [], _, _ => exact Nat.zero_le 1
  | [_], _, _ => exact le_rfl
  | x :: y :: l, hnodup, hone =>
    have hxy := hone x (by simp) y (by simp)
    rw [hxy] at hnodup
    exact absurd mem_cons_self (nodup_cons.1 hnodup).1

theorem Invariant.sanityCheck : SanityCheck prio s := by
  refine ⟨hinv.wf.peerinfo, fun a ha => ?_⟩
  constructor
  · obtain ⟨b, hb, hhash, hlive⟩ := hinv.sel.live a ha
    have hpos : 0 < countState s.index a.txhash b.state := countState_pos.2 ⟨b, hb, hhash, rfl⟩
    cases hstate : b.state with
    | completed => exact absurd hstate hlive
    | _ =>
      rw [hstate] at hpos
      omega
  · exact countState_selected_le hinv a.txhash
  · intro hready
    obtain ⟨b, hb, hhash, hb_ready⟩ := countState_pos.1 hready
    obtain ⟨c, hc, hc_hash, hc_sel⟩ := hinv.sel.ready b hb hb_ready
    have hle := countState_selected_le hinv a.txhash
    rcases hc_sel with hc' | hc'
    · have := countState_pos.2 ⟨c, hc, hc_hash.trans hhash, hc'⟩
      omega
    · have := countState_pos.2 ⟨c, hc, hc_hash.trans hhash, hc'⟩
      omega
  · intro _ hbest
    obtain ⟨b, hb, hb_best, heq⟩ := @foldl_best _ _ prio (s.index.filter (·.txhash = a.txhash))
      (2 ^ 64 - 1) (by simpa [countState, and_assoc] using hbest)
    rw [priorityCandidateBest, heq]
    refine foldl_ready_le fun r hr hr_ready => ?_
    simp only [mem_filter, decide_eq_true_eq] at hb hr
    exact hinv.sel.best b hb.1 r hr.1 (hb.2.trans hr.2.symm) hb_best hr_ready
  · refine List.Nodup.map_on ?_ (hinv.wf.keys.of_map.filter _)
    intro x hx y hy hpeer
    simp only [mem_filter, decide_eq_true_eq] at hx hy
    exact eq_of_key_eq hinv.wf.keys hx.1 hy.1 (Prod.ext hpeer (hx.2.trans hy.2.symm))

end Checks

/-- **The asserted conditions hold after every history,** and right after `GetRequestable` those on
time hold as well. -/
theorem run_sanityCheck [OrderBot H] (pl : Placements prio) (events : List (Event P H)) :
    SanityCheck prio (run pl events) ∧ ∀ (peer : P) (now : ℤ),
      SanityCheck prio (getRequestable pl peer now (run pl events)).2.2 ∧
        PostGetRequestableSanityCheck now (getRequestable pl peer now (run pl events)).2.2 := by
  have hinv := run_invariant pl events
  refine ⟨hinv.sanityCheck, fun peer now => ?_⟩
  obtain ⟨hinv', htime⟩ := hinv.setTimePoint pl now
  exact ⟨hinv'.sanityCheck, htime⟩

/-! ## Sequence numbers -/

section Sequence

variable (pl : Placements prio) (s : Tracker P H) (it : P × H)

@[simp] lemma currentSequence_modify (f : Announcement P H → Announcement P H) :
    (modify pl it f s).currentSequence = s.currentSequence := by
  rw [modify]
  cases s.find it <;> rfl

@[simp] lemma currentSequence_erase : (erase it s).currentSequence = s.currentSequence := by
  rw [erase]
  cases s.find it <;> rfl

@[simp] lemma currentSequence_promoteCandidateReady :
    (promoteCandidateReady pl it s).currentSequence = s.currentSequence := by
  grind [promoteCandidateReady, currentSequence_modify]

@[simp] lemma currentSequence_changeAndReselect (st : AnnState) :
    (changeAndReselect pl it st s).currentSequence = s.currentSequence := by
  grind [changeAndReselect, reselect, currentSequence_modify]

@[simp] lemma currentSequence_eraseWhile (h : H) (fuel : ℕ) :
    (eraseWhile h fuel it s).currentSequence = s.currentSequence := by
  fun_induction eraseWhile h fuel it s <;> simp_all

@[simp] lemma currentSequence_makeCompleted :
    (makeCompleted pl it s).2.currentSequence = s.currentSequence := by
  grind [makeCompleted, currentSequence_eraseWhile, currentSequence_changeAndReselect]

@[simp] lemma currentSequence_setTimePoint (now : ℤ) :
    (setTimePoint pl now s).2.currentSequence = s.currentSequence := by
  have hexpire : ∀ fuel expired (s : Tracker P H),
      (expireLoop pl now fuel expired s).2.currentSequence = s.currentSequence := by
    intro fuel expired s
    fun_induction expireLoop pl now fuel expired s <;> simp_all
  have hdemote : ∀ fuel (s : Tracker P H),
      (demoteLoop pl now fuel s).currentSequence = s.currentSequence := by
    intro fuel s
    fun_induction demoteLoop pl now fuel s <;> simp_all
  rw [setTimePoint, hdemote, hexpire]

@[simp] lemma currentSequence_unselect (h : H) :
    (unselect pl h s).currentSequence = s.currentSequence := by
  rw [unselect]
  split
  · rfl
  · split_ifs <;> simp

variable [OrderBot H]
/-- Only `ReceivedInv` takes a sequence number. -/
lemma currentSequence_step (e : Event P H) :
    (step pl s e).currentSequence ≤ s.currentSequence + 1 := by
  have hdisconnect : ∀ peer fuel it (s : Tracker P H),
      (disconnectLoop pl peer fuel it s).currentSequence = s.currentSequence := by
    intro peer fuel it s
    fun_induction disconnectLoop pl peer fuel it s with
    | case1 => rfl
    | case2 => rfl
    | case3 it s fuel next done ih =>
      rw [ih]
      split_ifs <;> simp [done]
  cases e with
  | receivedInv peer gtxid preferred reqtime => grind [step, receivedInv, insert]
  | requestedTx peer h expiry =>
    simp only [step, requestedTx]
    split
    · simp
    · split
      · simp
      · split_ifs <;> simp
  | receivedResponse peer h => grind [step, receivedResponse, currentSequence_makeCompleted]
  | getRequestable peer now => simp [step, getRequestable]
  | forgetTxHash h => grind [step, forgetTxHash, currentSequence_eraseWhile]
  | disconnectedPeer peer => simp [step, disconnectedPeer, hdisconnect]

/-- The sequence numbers of a history of operations fit the 59 bits that the source gives them. -/
theorem sequence_lt_of_run (events : List (Event P H)) (hlen : events.length ≤ 2 ^ 59) :
    ∀ a ∈ (run pl events).index, a.sequence < 2 ^ 59 := by
  have hcount : ∀ (events : List (Event P H)) (s : Tracker P H),
      (events.foldl (step pl) s).currentSequence ≤ s.currentSequence + events.length := by
    intro events
    induction events with
    | nil => exact fun s => le_rfl
    | cons e events ih =>
      intro s
      have hstep := currentSequence_step pl s e
      have hrest := ih (step pl s e)
      rw [foldl_cons, length_cons]
      omega
  intro a ha
  have hlt := (run_invariant pl events).wf.sequence_lt a ha
  have hle := hcount events (Tracker.initial P H)
  change _ ≤ 0 + events.length at hle
  rw [run] at hlt
  omega

end Sequence

end Bitcoin.TxRequest
