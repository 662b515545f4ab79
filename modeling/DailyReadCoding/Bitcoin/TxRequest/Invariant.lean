import DailyReadCoding.Bitcoin.TxRequest.Selection

/-!
# Operations keep the invariant

A transition touches one transaction.  After it, that transaction either has a leader, the one
announcement that is selected, or no announcement of it is selected or ready;
`Selection.of_leader` and `Selection.of_no_leader` say that this is enough.
-/

namespace Bitcoin.TxRequest

open OrderedIndex List

variable {P H : Type} [LinearOrder P] [LinearOrder H] {prio : PriorityComputer P H}

/-! ## One transaction at a time -/

section Leader

variable {l l' : List (Announcement P H)}

omit [LinearOrder P] [LinearOrder H]

lemma Selection.of_leader (h : Selection prio l) {c : Announcement P H}
    (hsame : ∀ x, x.txhash ≠ c.txhash → (x ∈ l' ↔ x ∈ l)) (hc : c ∈ l') (hc_sel : c.IsSelected)
    (honly : ∀ x ∈ l', x.txhash = c.txhash → x.IsSelected → x = c)
    (hbest : c.state = .candidateBest → ∀ x ∈ l', x.txhash = c.txhash →
      x.state = .candidateReady → prio.of x ≤ prio.of c) : Selection prio l' := by
  constructor
  · intro a ha
    by_cases hhash : a.txhash = c.txhash
    · exact ⟨c, hc, hhash.symm, not_completed_of_isSelected hc_sel⟩
    · obtain ⟨b, hb, hb_hash, hb_live⟩ := h.live a ((hsame a hhash).1 ha)
      exact ⟨b, (hsame b (hb_hash ▸ hhash)).2 hb, hb_hash, hb_live⟩
  · intro a ha b hb hab ha_sel hb_sel
    by_cases hhash : a.txhash = c.txhash
    · rw [honly a ha hhash ha_sel, honly b hb (hab ▸ hhash) hb_sel]
    · exact h.one a ((hsame a hhash).1 ha) b ((hsame b (hab ▸ hhash)).1 hb) hab ha_sel hb_sel
  · intro a ha ha_ready
    by_cases hhash : a.txhash = c.txhash
    · exact ⟨c, hc, hhash.symm, hc_sel⟩
    · obtain ⟨b, hb, hb_hash, hb_sel⟩ := h.ready a ((hsame a hhash).1 ha) ha_ready
      exact ⟨b, (hsame b (hb_hash ▸ hhash)).2 hb, hb_hash, hb_sel⟩
  · intro a ha b hb hab ha_best hb_ready
    by_cases hhash : a.txhash = c.txhash
    · have hac := honly a ha hhash (.inl ha_best)
      rw [hac] at ha_best ⊢
      exact hbest ha_best b hb (hab ▸ hhash) hb_ready
    · exact h.best a ((hsame a hhash).1 ha) b ((hsame b (hab ▸ hhash)).1 hb) hab ha_best hb_ready

lemma Selection.of_no_leader (h : Selection prio l) {t : H}
    (hsame : ∀ x, x.txhash ≠ t → (x ∈ l' ↔ x ∈ l))
    (hlive : ∀ x ∈ l', x.txhash = t → ∃ b ∈ l', b.txhash = t ∧ b.state ≠ .completed)
    (hnone : ∀ x ∈ l', x.txhash = t → ¬ x.IsSelected ∧ x.state ≠ .candidateReady) :
    Selection prio l' := by
  constructor
  · intro a ha
    by_cases hhash : a.txhash = t
    · rw [hhash]
      exact hlive a ha hhash
    · obtain ⟨b, hb, hb_hash, hb_live⟩ := h.live a ((hsame a hhash).1 ha)
      exact ⟨b, (hsame b (hb_hash ▸ hhash)).2 hb, hb_hash, hb_live⟩
  · intro a ha b hb hab ha_sel hb_sel
    by_cases hhash : a.txhash = t
    · exact absurd ha_sel (hnone a ha hhash).1
    · exact h.one a ((hsame a hhash).1 ha) b ((hsame b (hab ▸ hhash)).1 hb) hab ha_sel hb_sel
  · intro a ha ha_ready
    by_cases hhash : a.txhash = t
    · exact absurd ha_ready (hnone a ha hhash).2
    · obtain ⟨b, hb, hb_hash, hb_sel⟩ := h.ready a ((hsame a hhash).1 ha) ha_ready
      exact ⟨b, (hsame b (hb_hash ▸ hhash)).2 hb, hb_hash, hb_sel⟩
  · intro a ha b hb hab ha_best hb_ready
    by_cases hhash : a.txhash = t
    · exact absurd (.inl ha_best) (hnone a ha hhash).1
    · exact h.best a ((hsame a hhash).1 ha) b ((hsame b (hab ▸ hhash)).1 hb) hab ha_best hb_ready

end Leader

/-! ## Transitions keep the invariant -/

/-- The container is well formed and the selection is right. -/
structure Invariant (prio : PriorityComputer P H) (s : Tracker P H) : Prop where
  wf : WellFormed prio s
  sel : Selection prio s.index

section Transitions

variable (pl : Placements prio) {s : Tracker P H} (hinv : Invariant prio s) {a : Announcement P H}
  (ha : a ∈ s.index)

include hinv ha

/-- `PromoteCandidateReady` keeps it. -/
theorem Invariant.promoteCandidateReady (hdelayed : a.state = .candidateDelayed) :
    Invariant prio (promoteCandidateReady pl a.key s) := by
  refine ⟨hinv.wf.promoteCandidateReady pl a.key, ?_⟩
  have hkeys := hinv.wf.keys
  rcases promoteCandidateReady_cases pl hinv.wf hinv.sel ha hdelayed with
    ⟨hnone, hindex⟩ | ⟨b, hb, hhash, hb_best, hprio, hindex⟩ | ⟨b, hb, hhash, hb_sel, hprio, hindex⟩
  · rw [hindex]
    refine hinv.sel.of_leader (c := a.setState .candidateBest)
      (fun x hx => mem_update_of_ne (keepsIdentity_setState _) hx)
      ((mem_update hkeys ha _).2 (.inl rfl)) (.inl rfl) ?_ ?_
    · intro x hx hhash hx_sel
      rcases (mem_update hkeys ha _).1 hx with rfl | ⟨hx, -⟩
      · rfl
      · exact absurd hx_sel (hnone x hx hhash)
    · intro _ x hx hhash hx_ready
      rcases (mem_update hkeys ha _).1 hx with rfl | ⟨hx, -⟩
      · exact le_rfl
      · obtain ⟨b, hb, hb_hash, hb_sel⟩ := hinv.sel.ready x hx hx_ready
        exact absurd hb_sel (hnone b hb (hb_hash.trans hhash))
  · rw [hindex]
    have hne : a ≠ b := fun heq => by simp [heq, hb_best] at hdelayed
    have hmem {x} := mem_update_update (x := x) hkeys ha hb hne
      (Announcement.setState .candidateBest) (keepsIdentity_setState .candidateReady)
    refine hinv.sel.of_leader (c := a.setState .candidateBest) (fun x hx => ?_)
      (hmem.2 (.inl rfl)) (.inl rfl) ?_ ?_
    · rw [mem_update_of_ne (keepsIdentity_setState _) hx,
        mem_update_of_ne (keepsIdentity_setState _) (by rwa [key_snd, hhash])]
    · intro x hx hx_hash hx_sel
      rcases hmem.1 hx with rfl | rfl | ⟨hx, -, hxb⟩
      · rfl
      · rcases hx_sel with hx' | hx' <;> exact absurd hx' (by simp)
      · exact absurd (hinv.sel.one x hx b hb (hx_hash.trans hhash.symm) hx_sel (.inl hb_best)) hxb
    · intro _ x hx hx_hash hx_ready
      rcases hmem.1 hx with rfl | rfl | ⟨hx, -, -⟩
      · exact le_rfl
      · exact hprio.le
      · exact (hinv.sel.best b hb x hx (hhash.trans hx_hash.symm) hb_best hx_ready).trans hprio.le
  · rw [hindex]
    have hne : b ≠ a := by
      rintro rfl
      rcases hb_sel with hb' | hb' <;> exact absurd (hdelayed.symm.trans hb') (by decide)
    refine hinv.sel.of_leader (c := b)
      (fun x hx => mem_update_of_ne (keepsIdentity_setState _) (by rwa [key_snd, ← hhash]))
      ((mem_update hkeys ha _).2 (.inr ⟨hb, hne⟩)) hb_sel ?_ ?_
    · intro x hx hx_hash hx_sel
      rcases (mem_update hkeys ha _).1 hx with rfl | ⟨hx, -⟩
      · rcases hx_sel with hx' | hx' <;> exact absurd hx' (by simp)
      · exact hinv.sel.one x hx b hb hx_hash hx_sel hb_sel
    · intro hb_best x hx hx_hash hx_ready
      rcases (mem_update hkeys ha _).1 hx with rfl | ⟨hx, -⟩
      · exact hprio hb_best
      · exact hinv.sel.best b hb x hx hx_hash.symm hb_best hx_ready

/-- `ChangeAndReselect` completes or delays an announcement, and never completes the last that is
not. -/
theorem Invariant.changeAndReselect {newState : AnnState}
    (hnew : newState = .completed ∨ newState = .candidateDelayed) (hother : newState = .completed →
      ∃ b ∈ s.index, b.txhash = a.txhash ∧ b.state ≠ .completed ∧ b ≠ a) :
    Invariant prio (changeAndReselect pl a.key newState s) := by
  refine ⟨hinv.wf.changeAndReselect pl a.key newState, ?_⟩
  have hkeys := hinv.wf.keys
  have hchanged : ¬ (a.setState newState).IsSelected ∧
      (a.setState newState).state ≠ .candidateReady := by
    rcases hnew with rfl | rfl <;> simp [Announcement.IsSelected]
  rcases changeAndReselect_cases pl hinv.wf hinv.sel ha newState with
    ⟨hnone, hindex⟩ | ⟨ha_sel, r, hr, hhash, hr_ready, hmax, hindex⟩
  · rw [hindex]
    have hsame : ∀ x : Announcement P H, x.txhash ≠ a.txhash →
        (x ∈ update a.key (Announcement.setState newState) s.index ↔ x ∈ s.index) :=
      fun x hx => mem_update_of_ne (keepsIdentity_setState _) hx
    by_cases hlead : ∃ c ∈ s.index, c.txhash = a.txhash ∧ c.IsSelected ∧ c ≠ a
    · obtain ⟨c, hc, hc_hash, hc_sel, hc_ne⟩ := hlead
      refine hinv.sel.of_leader (c := c) (fun x hx => hsame x (hc_hash ▸ hx))
        ((mem_update hkeys ha _).2 (.inr ⟨hc, hc_ne⟩)) hc_sel ?_ ?_
      · intro x hx hx_hash hx_sel
        rcases (mem_update hkeys ha _).1 hx with rfl | ⟨hx, -⟩
        · exact absurd hx_sel hchanged.1
        · exact hinv.sel.one x hx c hc hx_hash hx_sel hc_sel
      · intro hc_best x hx hx_hash hx_ready
        rcases (mem_update hkeys ha _).1 hx with rfl | ⟨hx, -⟩
        · exact absurd hx_ready hchanged.2
        · exact hinv.sel.best c hc x hx hx_hash.symm hc_best hx_ready
    · push Not at hlead
      refine hinv.sel.of_no_leader hsame (fun _ _ _ => ?_) ?_
      · rcases hnew with rfl | rfl
        · obtain ⟨b, hb, hb_hash, hb_live, hb_ne⟩ := hother rfl
          exact ⟨b, (mem_update hkeys ha _).2 (.inr ⟨hb, hb_ne⟩), hb_hash, hb_live⟩
        · exact ⟨_, (mem_update hkeys ha _).2 (.inl rfl), rfl, by simp⟩
      · intro x hx hx_hash
        rcases (mem_update hkeys ha _).1 hx with rfl | ⟨hx, hxa⟩
        · exact hchanged
        · refine ⟨fun hx_sel => hxa (hlead x hx hx_hash hx_sel), fun hx_ready => ?_⟩
          obtain ⟨b, hb, hb_hash, hb_sel⟩ := hinv.sel.ready x hx hx_ready
          have hba := hlead b hb (hb_hash.trans hx_hash) hb_sel
          exact hnone (hba ▸ hb_sel) x hx hx_hash hx_ready
  · rw [hindex]
    have hne := ne_of_selected_ready ha_sel hr_ready
    have hmem {x} := mem_update_update (x := x) hkeys ha hr hne
      (Announcement.setState newState) (keepsIdentity_setState .candidateBest)
    refine hinv.sel.of_leader (c := r.setState .candidateBest) (fun x hx => ?_)
      (hmem.2 (.inr (.inl rfl))) (.inl rfl) ?_ ?_
    · rw [mem_update_of_ne (keepsIdentity_setState _) (by rwa [key_snd, ← hhash]),
        mem_update_of_ne (keepsIdentity_setState _) hx]
    · intro x hx hx_hash hx_sel
      rcases hmem.1 hx with rfl | rfl | ⟨hx, hxa, -⟩
      · exact absurd hx_sel hchanged.1
      · rfl
      · exact absurd (hinv.sel.one x hx a ha (hx_hash.trans hhash) hx_sel ha_sel) hxa
    · intro _ x hx hx_hash hx_ready
      rcases hmem.1 hx with rfl | rfl | ⟨hx, -, -⟩
      · exact absurd hx_ready hchanged.2
      · exact le_rfl
      · exact hmax x hx (hx_hash.trans hhash) hx_ready

end Transitions

omit [LinearOrder P] in
lemma Selection.forget {l : List (Announcement P H)} (h : Selection prio l) (t : H) :
    Selection prio (l.filter (·.txhash ≠ t)) := by
  have hgone : ∀ x ∈ l.filter (·.txhash ≠ t), x.txhash ≠ t := fun x hx => by
    simpa using (mem_filter.1 hx).2
  refine h.of_no_leader (t := t) (fun x hx => ?_) ?_ ?_
  · simp [hx]
  · intro x hx hhash
    exact absurd hhash (hgone x hx)
  · intro x hx hhash
    exact absurd hhash (hgone x hx)

/-- Neither does erasing a completed announcement touch what is selected. -/
lemma Selection.erase_completed {l : List (Announcement P H)} (h : Selection prio l)
    (hkeys : (l.map Announcement.key).Nodup) {a : Announcement P H} (ha : a ∈ l)
    (hdone : a.state = .completed) : Selection prio (l.filter (·.key ≠ a.key)) := by
  have hmem : ∀ x, x ∈ l.filter (·.key ≠ a.key) → x ∈ l := fun x hx => (mem_filter.1 hx).1
  have hkept : ∀ x ∈ l, x.state ≠ .completed → x ∈ l.filter (·.key ≠ a.key) := by
    intro x hx hlive
    refine mem_filter.2 ⟨hx, decide_eq_true fun hkey => hlive ?_⟩
    rw [eq_of_key_eq hkeys hx ha hkey, hdone]
  constructor
  · intro x hx
    obtain ⟨b, hb, hhash, hlive⟩ := h.live x (hmem x hx)
    exact ⟨b, hkept b hb hlive, hhash, hlive⟩
  · intro x hx y hy
    exact h.one x (hmem x hx) y (hmem y hy)
  · intro x hx hx_ready
    obtain ⟨b, hb, hhash, hb_sel⟩ := h.ready x (hmem x hx) hx_ready
    exact ⟨b, hkept b hb (not_completed_of_isSelected hb_sel), hhash, hb_sel⟩
  · intro x hx y hy
    exact h.best x (hmem x hx) y (hmem y hy)

omit [LinearOrder P] [LinearOrder H] in
lemma Selection.append_delayed {l : List (Announcement P H)} (h : Selection prio l)
    {a : Announcement P H} (ha : a.state = .candidateDelayed) : Selection prio (l ++ [a]) := by
  have hmem : ∀ x ∈ l ++ [a], x ∈ l ∨ x = a := fun x hx => by simpa using hx
  have hsel : ¬ a.IsSelected := by simp [Announcement.IsSelected, ha]
  constructor
  · intro x hx
    rcases hmem x hx with hx | rfl
    · obtain ⟨b, hb, hhash, hlive⟩ := h.live x hx
      exact ⟨b, mem_append_left _ hb, hhash, hlive⟩
    · exact ⟨x, by simp, rfl, by simp [ha]⟩
  · intro x hx y hy hhash hx_sel hy_sel
    rcases hmem x hx with hx | rfl
    · rcases hmem y hy with hy | rfl
      · exact h.one x hx y hy hhash hx_sel hy_sel
      · exact absurd hy_sel hsel
    · exact absurd hx_sel hsel
  · intro x hx hx_ready
    rcases hmem x hx with hx | rfl
    · obtain ⟨b, hb, hhash, hb_sel⟩ := h.ready x hx hx_ready
      exact ⟨b, mem_append_left _ hb, hhash, hb_sel⟩
    · exact absurd (ha.symm.trans hx_ready) (by decide)
  · intro x hx y hy hhash hx_best hy_ready
    rcases hmem x hx with hx | rfl
    · rcases hmem y hy with hy | rfl
      · exact h.best x hx y hy hhash hx_best hy_ready
      · exact absurd (ha.symm.trans hy_ready) (by decide)
    · exact absurd (.inl hx_best) hsel

/-- What `DisconnectedPeer` does to one announcement. -/
def disconnectOne (pl : Placements prio) (it : P × H) (s : Tracker P H) : Tracker P H :=
  if (makeCompleted pl it s).1 then erase it (makeCompleted pl it s).2
  else (makeCompleted pl it s).2

section Operations

variable (pl : Placements prio) {s : Tracker P H} (hinv : Invariant prio s)

include hinv

theorem Invariant.makeCompleted (it : P × H) : Invariant prio (makeCompleted pl it s).2 := by
  cases hfind : s.find it with
  | none =>
    rw [TxRequest.makeCompleted, hfind]
    exact hinv
  | some a =>
    obtain ⟨ha, rfl⟩ := (find_eq_some hinv.wf).1 hfind
    rcases makeCompleted_cases pl hinv.wf ha with
      ⟨-, heq⟩ | ⟨-, -, -, hwf, hindex⟩ | ⟨-, hother, heq⟩
    · rw [heq]
      exact hinv
    · refine ⟨hwf, ?_⟩
      rw [hindex]
      exact hinv.sel.forget a.txhash
    · rw [heq]
      exact hinv.changeAndReselect pl ha (.inl rfl) fun _ => hother

lemma makeCompleted_state {it : P × H} (hstays : (makeCompleted pl it s).1 = true) :
    ∀ a ∈ (makeCompleted pl it s).2.index, a.key = it → a.state = .completed := by
  intro b hb hkey
  cases hfind : s.find it with
  | none =>
    rw [makeCompleted, hfind] at hb
    exact absurd hkey (find_eq_none.1 hfind b hb)
  | some a =>
    obtain ⟨ha, rfl⟩ := (find_eq_some hinv.wf).1 hfind
    rcases makeCompleted_cases pl hinv.wf ha with ⟨hdone, heq⟩ | ⟨-, -, hgone, -⟩ | ⟨-, -, heq⟩
    · rw [heq] at hb
      rwa [eq_of_key_eq hinv.wf.keys hb ha hkey]
    · exact absurd (hstays.symm.trans hgone) (by decide)
    · rw [heq, changeAndReselect, index_modify] at hb
      obtain ⟨c, -, rfl⟩ := mem_map.1 hb
      by_cases hc : c.key = a.key
      · rw [if_pos hc]
        rfl
      · rw [if_neg hc] at hkey
        exact absurd hkey hc

theorem Invariant.disconnectOne (it : P × H) : Invariant prio (disconnectOne pl it s) := by
  have hdone := hinv.makeCompleted pl it
  rw [TxRequest.disconnectOne]
  by_cases hstays : (TxRequest.makeCompleted pl it s).1 = true
  · rw [if_pos hstays]
    refine ⟨hdone.wf.erase it, ?_⟩
    cases hfind : (TxRequest.makeCompleted pl it s).2.find it with
    | none =>
      rw [erase, hfind]
      exact hdone.sel
    | some a =>
      obtain ⟨ha, rfl⟩ := (find_eq_some hdone.wf).1 hfind
      rw [index_erase]
      exact hdone.sel.erase_completed hdone.wf.keys ha (makeCompleted_state pl hinv hstays a ha rfl)
  · rw [if_neg hstays]
    exact hdone

theorem Invariant.requestedTx (peer : P) (t : H) (expiry : ℤ) :
    Invariant prio (requestedTx pl peer t expiry s) := by
  have hkeys := hinv.wf.keys
  rcases requestedTx_cases pl hinv.wf peer t expiry with
    ⟨-, heq⟩ | ⟨a, ha, -, ha_best, heq⟩ | ⟨a, ha, hkey, ha_cand, heq⟩
  · rw [heq]
    exact hinv
  · rw [heq]
    refine ⟨hinv.wf.modify pl a.key (keepsIdentity_request expiry), ?_⟩
    rw [index_modify]
    refine hinv.sel.of_leader (c := request expiry a)
      (fun x hx => mem_update_of_ne (keepsIdentity_request expiry) hx)
      ((mem_update hkeys ha _).2 (.inl rfl)) (.inr rfl) ?_ fun hc => by simp at hc
    intro x hx hx_hash hx_sel
    rcases (mem_update hkeys ha _).1 hx with rfl | ⟨hx, hxa⟩
    · rfl
    · exact absurd (hinv.sel.one x hx a ha hx_hash hx_sel (.inl ha_best)) hxa
  · have hhash : a.txhash = t := congrArg Prod.snd hkey
    have ha_unsel : ¬ a.IsSelected := by
      rcases ha_cand with ha' | ha' <;> simp [Announcement.IsSelected, ha']
    -- a selected announcement takes a state in which it is not selected, and the other is requested
    have hreplace : ∀ {b : Announcement P H} {st : AnnState}, b ∈ s.index → b.txhash = t →
        b.IsSelected → ¬ (b.setState st).IsSelected → Selection prio
          (update a.key (request expiry) (update b.key (Announcement.setState st) s.index)) := by
      intro b st hb hb_hash hb_sel hb_unsel
      have hne : a ≠ b := fun hab => ha_unsel (hab ▸ hb_sel)
      have hmem {x} := mem_update_update (x := x) hkeys ha hb hne (request expiry)
        (keepsIdentity_setState st)
      refine hinv.sel.of_leader (c := request expiry a) (fun x hx => ?_)
        (hmem.2 (.inl rfl)) (.inr rfl) ?_ fun hc => by simp at hc
      · rw [mem_update_of_ne (keepsIdentity_request expiry) hx,
          mem_update_of_ne (keepsIdentity_setState st) (by rwa [key_snd, hb_hash, ← hhash])]
      · intro x hx hx_hash hx_sel
        rcases hmem.1 hx with rfl | rfl | ⟨hx, -, hxb⟩
        · rfl
        · exact absurd hx_sel hb_unsel
        · exact absurd (hinv.sel.one x hx b hb (hx_hash.trans (hhash.trans hb_hash.symm)) hx_sel
            hb_sel) hxb
    rw [heq]
    rcases unselect_cases pl hinv.wf hinv.sel t with
      ⟨hnone, huns⟩ | ⟨b, hb, hb_hash, hb_best, huns⟩ | ⟨b, hb, hb_hash, hb_req, huns⟩
    · rw [huns]
      refine ⟨hinv.wf.modify pl a.key (keepsIdentity_request expiry), ?_⟩
      rw [index_modify]
      refine hinv.sel.of_leader (c := request expiry a)
        (fun x hx => mem_update_of_ne (keepsIdentity_request expiry) hx)
        ((mem_update hkeys ha _).2 (.inl rfl)) (.inr rfl) ?_ fun hc => by simp at hc
      intro x hx hx_hash hx_sel
      rcases (mem_update hkeys ha _).1 hx with rfl | ⟨hx, -⟩
      · rfl
      · exact absurd hx_sel (hnone x hx (hx_hash.trans hhash))
    · rw [huns]
      refine ⟨(hinv.wf.modify pl b.key (keepsIdentity_setState _)).modify pl a.key
        (keepsIdentity_request expiry), ?_⟩
      rw [index_modify, index_modify]
      exact hreplace hb hb_hash (.inl hb_best) (by simp [Announcement.IsSelected])
    · rw [huns]
      refine ⟨(hinv.wf.modify pl b.key (keepsIdentity_setState _)).modify pl a.key
        (keepsIdentity_request expiry), ?_⟩
      rw [index_modify, index_modify]
      exact hreplace hb hb_hash (.inr hb_req) (by simp [Announcement.IsSelected])

theorem Invariant.receivedInv (peer : P) (gtxid : GenTxid H) (preferred : Bool) (reqtime : ℤ) :
    Invariant prio (receivedInv pl peer gtxid preferred reqtime s) := by
  rcases receivedInv_cases pl peer gtxid preferred reqtime with ⟨-, heq⟩ | ⟨hnew, heq⟩
  · rw [heq]
    exact hinv
  · rw [heq]
    exact ⟨hinv.wf.insert pl hnew rfl rfl, hinv.sel.append_delayed rfl⟩

end Operations

end Bitcoin.TxRequest
