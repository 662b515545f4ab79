import DailyReadCoding.Bitcoin.TxRequest.Container

/-!
# Which announcement is selected

For each transaction at most one announcement is selected, and it is the best of those that could
be. The tracker finds the next best by looking at a neighbour in the `ByTxHash` order; that this is
right rests on the order (hash, then state, then priority) and on the condition itself.
-/

namespace Bitcoin.TxRequest

open OrderedIndex List Announcement

variable {P H : Type} {prio : PriorityComputer P H}

/-- The condition on the announcements of every transaction. -/
structure Selection (prio : PriorityComputer P H) (l : List (Announcement P H)) : Prop where
  live : ∀ a ∈ l, ∃ b ∈ l, b.txhash = a.txhash ∧ b.state ≠ .completed
  one : ∀ a ∈ l, ∀ b ∈ l, a.txhash = b.txhash → a.IsSelected → b.IsSelected → a = b
  ready : ∀ a ∈ l, a.state = .candidateReady → ∃ b ∈ l, b.txhash = a.txhash ∧ b.IsSelected
  best : ∀ a ∈ l, ∀ b ∈ l, a.txhash = b.txhash → a.state = .candidateBest →
    b.state = .candidateReady → prio.of b ≤ prio.of a

lemma isSelected_of_rank {a : Announcement P H} (hrank : AnnState.candidateBest.rank ≤ a.state.rank)
    (hlive : a.state ≠ .completed) : a.IsSelected := by
  cases ha : a.state with
  | candidateBest => exact .inl ha
  | requested => exact .inr ha
  | completed => exact absurd ha hlive
  | _ => exact absurd (ha ▸ hrank) (by decide)

lemma not_completed_of_isSelected {a : Announcement P H} (ha : a.IsSelected) :
    a.state ≠ .completed := by
  rcases ha with ha | ha <;> simp [ha]

lemma ne_of_selected_ready {a r : Announcement P H} (ha : a.IsSelected)
    (hr : r.state = .candidateReady) : a ≠ r := by
  rintro rfl
  rcases ha with ha | ha <;> simp [ha] at hr

/-! ## The order by hash -/

variable [LinearOrder H]

lemma txHashLe_iff {a b : Announcement P H} : txHashLe prio a b ↔ a.txhash < b.txhash ∨
    (a.txhash = b.txhash ∧ (a.state.rank < b.state.rank ∨ (a.state.rank = b.state.rank ∧
      (txHashView prio a).2.2 ≤ (txHashView prio b).2.2))) := by
  simp only [txHashLe, viewLt, txHashView]
  rcases lt_trichotomy a.txhash b.txhash with hlt | heq | hgt
  · simp [hlt, hlt.ne', hlt.not_gt]
  · simp only [heq, lt_irrefl, true_and, false_or]
    omega
  · simp [hgt, hgt.ne', hgt.not_gt]

/-- Where a search for a transaction and a state begins. -/
lemma not_viewLt_iff {a : Announcement P H} {h : H} {n : ℕ} :
    ¬ viewLt (txHashView prio a) (h, n, 0) ↔ h < a.txhash ∨ (a.txhash = h ∧ n ≤ a.state.rank) := by
  simp only [viewLt, txHashView]
  rcases lt_trichotomy a.txhash h with hlt | heq | hgt
  · simp [hlt, hlt.ne, hlt.not_gt]
  · simp [heq]
  · simp [hgt, hgt.ne', hgt.not_gt]

lemma txhash_le {a b : Announcement P H} (h : txHashLe prio a b) : a.txhash ≤ b.txhash := by
  rcases txHashLe_iff.1 h with hlt | ⟨heq, -⟩
  · exact hlt.le
  · exact heq.le

section

variable {a b : Announcement P H} (h : txHashLe prio a b) (hhash : a.txhash = b.txhash)

include h hhash

lemma rank_le : a.state.rank ≤ b.state.rank := by
  rcases txHashLe_iff.1 h with hlt | ⟨-, hrank⟩
  · exact absurd hhash hlt.ne
  · omega

lemma completed_of_le (ha : a.state = .completed) : b.state = .completed := by
  have hrank := rank_le h hhash
  rw [ha] at hrank
  cases hb : b.state with
  | completed => rfl
  | _ => exact absurd (hb ▸ hrank) (by decide)

lemma prio_le (ha : a.state = .candidateReady) (hb : b.state = .candidateReady) :
    prio.of a ≤ prio.of b := by
  rcases txHashLe_iff.1 h with hlt | ⟨-, hrank | ⟨-, hprio⟩⟩
  · exact absurd hhash hlt.ne
  · rw [ha, hb] at hrank
    exact absurd hrank (lt_irrefl _)
  · simpa [txHashView, ha, hb] using hprio

end

/-! ## What a neighbour tells -/

variable [LinearOrder P]

/-- The `ByTxHash` order around an announcement. -/
abbrev AroundTx (prio : PriorityComputer P H) (s : Tracker P H) (a : Announcement P H)
    (front back : List (Announcement P H)) : Prop :=
  Around Announcement.key (txHashLe prio) s.byTxHash a front back

variable {x : Announcement P H}

section Neighbours

variable {s : Tracker P H} {a : Announcement P H} {front back : List (Announcement P H)}

lemma aroundTx_of_split (hwf : WellFormed prio s) (hsplit : s.byTxHash = front ++ a :: back) :
    AroundTx prio s a front back :=
  around_of_split ((hwf.txPerm.map _).nodup_iff.2 hwf.keys) hwf.txSorted hsplit

lemma exists_aroundTx (hwf : WellFormed prio s) (ha : a ∈ s.index) :
    ∃ front back, AroundTx prio s a front back := by
  obtain ⟨front, back, hsplit⟩ := append_of_mem (hwf.txPerm.mem_iff.2 ha)
  exact ⟨front, back, aroundTx_of_split hwf hsplit⟩

lemma AroundTx.mem_index (hwf : WellFormed prio s) (h : AroundTx prio s a front back) :
    x ∈ s.index ↔ x ∈ front ∨ x = a ∨ x ∈ back := by
  rw [← hwf.txPerm.mem_iff, h.mem_iff]

/-- If the next announcement is not for the same transaction, no later one is. -/
lemma AroundTx.back_ne (h : AroundTx prio s a front back)
    (hnext : ∀ b, after key a.key s.byTxHash = some b → b.txhash ≠ a.txhash)
    (hx : x ∈ back) : x.txhash ≠ a.txhash := by
  rw [h.after_eq] at hnext
  cases hhead : back.head? with
  | none =>
    rw [List.head?_eq_none_iff.1 hhead] at hx
    exact absurd hx not_mem_nil
  | some b =>
    have hb : b ∈ back := mem_of_head? hhead
    rcases h.head_le b hhead x hx with rfl | hle
    · exact hnext x hhead
    · have hlt : a.txhash < b.txhash :=
        lt_of_le_of_ne (txhash_le (h.le_back b hb)) (hnext b hhead).symm
      exact (hlt.trans_le (txhash_le hle)).ne'

/-- If the previous announcement is not for the same transaction, no earlier one is. -/
lemma AroundTx.front_ne (h : AroundTx prio s a front back)
    (hprev : ∀ b, before key a.key s.byTxHash = some b → b.txhash ≠ a.txhash)
    (hx : x ∈ front) : x.txhash ≠ a.txhash := by
  rw [h.before_eq] at hprev
  cases hlast : front.getLast? with
  | none =>
    rw [List.getLast?_eq_none_iff.1 hlast] at hx
    exact absurd hx not_mem_nil
  | some b =>
    have hb : b ∈ front := mem_of_getLast? hlast
    rcases h.le_last b hlast x hx with rfl | hle
    · exact hprev x hlast
    · have hlt : b.txhash < a.txhash := lt_of_le_of_ne (txhash_le (h.front_le b hb)) (hprev b hlast)
      exact ((txhash_le hle).trans_lt hlt).ne

/-- If the next announcement is for another transaction or completed, so is all that follows. -/
lemma AroundTx.completed_of_back (h : AroundTx prio s a front back)
    (hnext : ∀ b, after key a.key s.byTxHash = some b → b.txhash = a.txhash → b.state = .completed)
    (hx : x ∈ back) (hhash : x.txhash = a.txhash) : x.state = .completed := by
  by_contra hlive
  refine h.back_ne (fun c hc hc' => hlive ?_) hx hhash
  have hdone := hnext c hc hc'
  rw [h.after_eq] at hc
  rcases h.head_le c hc x hx with rfl | hle
  · exact hdone
  · exact completed_of_le hle (hc'.trans hhash.symm) hdone

/-- `IsOnlyNonCompleted` says what its name does. -/
lemma isOnlyNonCompleted_iff (hwf : WellFormed prio s) (ha : a ∈ s.index)
    (hstate : a.state ≠ .completed) : isOnlyNonCompleted a.key s = true ↔
      ∀ b ∈ s.index, b.txhash = a.txhash → b.state ≠ .completed → b = a := by
  obtain ⟨front, back, h⟩ := exists_aroundTx hwf ha
  have hkey : a.key.2 = a.txhash := rfl
  have hiff : isOnlyNonCompleted a.key s = true ↔
      (∀ b, before key a.key s.byTxHash = some b → b.txhash ≠ a.txhash) ∧
      ∀ b, after key a.key s.byTxHash = some b → b.txhash = a.txhash → b.state = .completed := by
    rw [isOnlyNonCompleted, hkey]
    cases before key a.key s.byTxHash <;>
      cases after key a.key s.byTxHash <;> simp <;> tauto
  rw [hiff]
  constructor
  · rintro ⟨hprev, hnext⟩ b hb hhash hb'
    rcases (h.mem_index hwf).1 hb with hb | rfl | hb
    · exact absurd hhash (h.front_ne hprev hb)
    · rfl
    · exact absurd (h.completed_of_back hnext hb hhash) hb'
  · intro hall
    constructor
    · intro b hb hhash
      rw [h.before_eq] at hb
      have hmem : b ∈ front := mem_of_getLast? hb
      have hlive : b.state ≠ .completed := fun hdone =>
        hstate (completed_of_le (h.front_le b hmem) hhash hdone)
      have heq := hall b ((h.mem_index hwf).2 (.inl hmem)) hhash hlive
      exact h.front_key b hmem (heq ▸ rfl)
    · intro b hb hhash
      rw [h.after_eq] at hb
      have hmem : b ∈ back := mem_of_head? hb
      by_contra hlive
      have heq := hall b ((h.mem_index hwf).2 (.inr (.inr hmem))) hhash hlive
      exact h.back_key b hmem (heq ▸ rfl)

/-- With no announcement for its transaction behind a ready one, or a completed one, none is
selected. -/
lemma AroundTx.not_selected (h : AroundTx prio s a front back) (hwf : WellFormed prio s)
    (hready : a.state = .candidateReady)
    (hnext : ∀ b, after key a.key s.byTxHash = some b → b.txhash = a.txhash → b.state = .completed)
    (hx : x ∈ s.index) (hhash : x.txhash = a.txhash) : ¬ x.IsSelected := by
  intro hsel
  rcases (h.mem_index hwf).1 hx with hx | rfl | hx
  · have hrank := rank_le (h.front_le x hx) hhash
    rw [hready] at hrank
    rcases hsel with hx' | hx' <;> exact absurd (hx' ▸ hrank) (by decide)
  · rcases hsel with hx' | hx' <;> exact absurd (hready.symm.trans hx') (by decide)
  · have hdone := h.completed_of_back hnext hx hhash
    rcases hsel with hx' | hx' <;> exact absurd (hdone.symm.trans hx') (by decide)

end Neighbours

/-! ## What the transitions do -/

section Transitions

variable (pl : Placements prio) {s : Tracker P H} {a : Announcement P H}

section

variable (hwf : WellFormed prio s) (hsel : Selection prio s.index) (ha : a ∈ s.index)

include hwf hsel ha

/-- **What `PromoteCandidateReady` does.** The announcement becomes the best if none is selected or
the best has a lower priority, and ready otherwise. -/
theorem promoteCandidateReady_cases (hdelayed : a.state = .candidateDelayed) :
    ((∀ b ∈ s.index, b.txhash = a.txhash → ¬ b.IsSelected) ∧
      (promoteCandidateReady pl a.key s).index = update a.key (setState .candidateBest) s.index) ∨
    (∃ b ∈ s.index, b.txhash = a.txhash ∧ b.state = .candidateBest ∧ prio.of b < prio.of a ∧
      (promoteCandidateReady pl a.key s).index = update a.key (setState .candidateBest)
          (update b.key (setState .candidateReady) s.index)) ∨
    (∃ b ∈ s.index, b.txhash = a.txhash ∧ b.IsSelected ∧
      (b.state = .candidateBest → prio.of a ≤ prio.of b) ∧
      (promoteCandidateReady pl a.key s).index =
        update a.key (setState .candidateReady) s.index) := by
  have hwf' := hwf.modify pl a.key (keepsIdentity_setState .candidateReady)
  have hindex := index_modify pl a.key (setState .candidateReady) s
  rw [promoteCandidateReady]
  set s' := modify pl a.key (setState .candidateReady) s
  have hmem : ∀ {x}, x ∈ s'.index ↔ x = a.setState .candidateReady ∨ (x ∈ s.index ∧ x ≠ a) := by
    intro x
    rw [hindex, mem_update hwf.keys ha]
  have ha' : a.setState .candidateReady ∈ s'.index := hmem.2 (.inl rfl)
  obtain ⟨front, back, h⟩ := exists_aroundTx hwf' ha'
  -- an announcement of `s` other than the promoted one
  have hother : ∀ {x}, x ∈ s.index → x.state ≠ .candidateDelayed → x ∈ s'.index := by
    intro x hx hx'
    exact hmem.2 (.inr ⟨hx, fun heq => hx' (heq ▸ hdelayed)⟩)
  have hbest : (modify pl a.key (setState .candidateBest) s').index =
      update a.key (setState .candidateBest) s.index := by
    rw [index_modify, hindex, update_setState_setState]
  have hnone : (∀ b, after key a.key s'.byTxHash = some b → b.txhash = a.txhash →
      b.state = .completed) → ∀ b ∈ s.index, b.txhash = a.txhash → ¬ b.IsSelected := by
    intro hnext b hb hhash hb'
    refine h.not_selected hwf' rfl hnext (hother hb ?_) hhash hb'
    rcases hb' with hb' | hb' <;> simp [hb']
  cases hnext : after key a.key s'.byTxHash with
  | none =>
    refine .inl ⟨hnone fun b hb => ?_, hbest⟩
    rw [hnext] at hb
    exact absurd hb (by simp)
  | some b =>
    have hb : b ∈ back := mem_of_head? (h.after_eq.symm.trans hnext)
    have hne : b.key ≠ a.key := h.back_key b hb
    have hle : txHashLe prio (a.setState .candidateReady) b := h.le_back b hb
    obtain ⟨hb_index, -⟩ : b ∈ s.index ∧ b ≠ a :=
      (hmem.1 ((h.mem_index hwf').2 (.inr (.inr hb)))).resolve_left fun heq => hne (heq ▸ rfl)
    dsimp only
    by_cases hstop : b.txhash ≠ a.key.2 ∨ b.state = .completed
    · refine .inl ⟨hnone fun c hc hhash => ?_, ?_⟩
      · rw [hnext, Option.some.injEq] at hc
        exact hc ▸ hstop.resolve_left fun hdiff => hdiff (hc ▸ hhash)
      · rw [if_pos hstop, hbest]
    rw [if_neg hstop]
    obtain ⟨hhash, hlive⟩ := not_or.1 hstop
    replace hhash : b.txhash = a.txhash := not_not.1 hhash
    by_cases hb_best : b.state = .candidateBest
    · have hfind := (find_eq_some hwf').2 ⟨ha', setState_key _ a⟩
      rw [if_pos hb_best, hfind]
      dsimp only
      by_cases hprio : prio.of b < prio.of a
      · refine .inr (.inl ⟨b, hb_index, hhash, hb_best, hprio, ?_⟩)
        rw [if_pos (by simpa using hprio), index_modify, index_modify, hindex,
          update_comm (keepsIdentity_setState _) (keepsIdentity_setState _) hne,
          update_setState_setState]
      · refine .inr (.inr ⟨b, hb_index, hhash, .inl hb_best, fun _ => not_lt.1 hprio, ?_⟩)
        rw [if_neg (by simpa using hprio), hindex]
    · refine .inr (.inr ?_)
      have hrank : AnnState.candidateReady.rank ≤ b.state.rank := rank_le hle hhash.symm
      cases hb_state : b.state with
      | candidateDelayed => exact absurd (hb_state ▸ hrank) (by decide)
      | candidateBest => exact absurd hb_state hb_best
      | completed => exact absurd hb_state hlive
      | requested =>
        refine ⟨b, hb_index, hhash, .inr hb_state, fun hbest' => ?_, hindex⟩
        exact absurd hbest' hb_best
      | candidateReady =>
        -- a ready announcement lies between: the selected one is at least as good as that
        obtain ⟨c, hc, hc_hash, hc_sel⟩ := hsel.ready b hb_index hb_state
        refine ⟨c, hc, hc_hash.trans hhash, hc_sel, fun hc_best => ?_, hindex⟩
        exact (prio_le hle hhash.symm rfl hb_state).trans
          (hsel.best c hc b hb_index hc_hash hc_best hb_state)

/-- In front of a selected announcement stands the ready one of highest priority, if any is ready.
-/
lemma before_selected (ha_sel : a.IsSelected) : ((∀ b, before key a.key s.byTxHash = some b →
        ¬ (b.txhash = a.txhash ∧ b.state = .candidateReady)) ∧
      ∀ x ∈ s.index, x.txhash = a.txhash → x.state ≠ .candidateReady) ∨
    ∃ r ∈ s.index, before key a.key s.byTxHash = some r ∧ r.txhash = a.txhash ∧
      r.state = .candidateReady ∧
      ∀ x ∈ s.index, x.txhash = a.txhash → x.state = .candidateReady → prio.of x ≤ prio.of r := by
  obtain ⟨front, back, h⟩ := exists_aroundTx hwf ha
  have hrank : AnnState.candidateBest.rank ≤ a.state.rank := by
    rcases ha_sel with ha' | ha' <;> simp [ha', AnnState.rank]
  have hfront : ∀ x ∈ s.index, x.txhash = a.txhash → x.state = .candidateReady → x ∈ front := by
    intro x hx hhash hready
    rcases (h.mem_index hwf).1 hx with hx | rfl | hx
    · exact hx
    · exact absurd (hready ▸ hrank) (by decide)
    · have hle := hrank.trans (rank_le (h.le_back x hx) hhash.symm)
      exact absurd (hready ▸ hle) (by decide)
  by_cases hprev : ∃ r, before key a.key s.byTxHash = some r ∧ r.txhash = a.txhash
  · obtain ⟨r, hr, hhash⟩ := hprev
    have hlast := h.before_eq.symm.trans hr
    have hr_front : r ∈ front := mem_of_getLast? hlast
    have hr_index : r ∈ s.index := (h.mem_index hwf).2 (.inl hr_front)
    by_cases hready : r.state = .candidateReady
    · refine .inr ⟨r, hr_index, hr, hhash, hready, fun x hx hx_hash hx_ready => ?_⟩
      rcases h.le_last r hlast x (hfront x hx hx_hash hx_ready) with rfl | hle
      · exact le_rfl
      · exact prio_le hle (hx_hash.trans hhash.symm) hx_ready hready
    · refine .inl ⟨fun b hb hb' => ?_, fun x hx hx_hash hx_ready => ?_⟩
      · rw [hr, Option.some.injEq] at hb
        exact hready (hb ▸ hb'.2)
      · -- the last in front is not ready, so it is delayed, or it is selected as well
        rcases h.le_last r hlast x (hfront x hx hx_hash hx_ready) with rfl | hle
        · exact hready hx_ready
        · have hx_rank := rank_le hle (hx_hash.trans hhash.symm)
          rw [hx_ready] at hx_rank
          have hunselected : ¬ r.IsSelected := fun hr_sel =>
            h.front_key r hr_front (hsel.one r hr_index a ha hhash hr_sel ha_sel ▸ rfl)
          cases hr_state : r.state with
          | candidateDelayed => exact absurd (hr_state ▸ hx_rank) (by decide)
          | candidateReady => exact hready hr_state
          | candidateBest => exact hunselected (.inl hr_state)
          | requested => exact hunselected (.inr hr_state)
          | completed =>
            have hdone := completed_of_le (h.front_le r hr_front) hhash hr_state
            rcases ha_sel with ha' | ha' <;> exact absurd (hdone.symm.trans ha') (by decide)
  · refine .inl ⟨fun b hb hb' => hprev ⟨b, hb, hb'.1⟩, fun x hx hx_hash hx_ready => ?_⟩
    exact h.front_ne (fun b hb hb' => hprev ⟨b, hb, hb'⟩) (hfront x hx hx_hash hx_ready) hx_hash

/-- **What `ChangeAndReselect` does.** The announcement gets its new state; if it was selected, the
ready one of the highest priority becomes the best. -/
theorem changeAndReselect_cases (newState : AnnState) :
    ((a.IsSelected → ∀ x ∈ s.index, x.txhash = a.txhash → x.state ≠ .candidateReady) ∧
      (changeAndReselect pl a.key newState s).index = update a.key (setState newState) s.index) ∨
    (a.IsSelected ∧ ∃ r ∈ s.index, r.txhash = a.txhash ∧ r.state = .candidateReady ∧
      (∀ x ∈ s.index, x.txhash = a.txhash → x.state = .candidateReady → prio.of x ≤ prio.of r) ∧
      (changeAndReselect pl a.key newState s).index = update a.key (setState newState)
          (update r.key (setState .candidateBest) s.index)) := by
  have hfind := (find_eq_some hwf).2 ⟨ha, rfl⟩
  rw [changeAndReselect, index_modify, reselect, hfind]
  dsimp only
  by_cases ha_sel : a.IsSelected
  · rw [if_pos ha_sel]
    rcases before_selected hwf hsel ha ha_sel with ⟨hprev, hnone⟩ | ⟨r, hr, hprev,
      hhash, hready, hmax⟩
    · refine .inl ⟨fun _ => hnone, ?_⟩
      cases hbefore : before key a.key s.byTxHash with
      | none => rfl
      | some b =>
        dsimp only
        rw [key_snd, if_neg (hprev b hbefore)]
    · refine .inr ⟨ha_sel, r, hr, hhash, hready, hmax, ?_⟩
      rw [hprev]
      dsimp only
      rw [if_pos ⟨hhash, hready⟩, index_modify]
  · rw [if_neg ha_sel]
    exact .inl ⟨fun h => absurd h ha_sel, rfl⟩

end

/-- Erasing from the first announcement of a transaction on erases all of them. -/
lemma eraseWhile_spec {h : H} : ∀ {fuel : ℕ} {s : Tracker P H} {a : Announcement P H}
    {front back : List (Announcement P H)}, WellFormed prio s → AroundTx prio s a front back →
    a.txhash = h → (∀ x ∈ front, x.txhash ≠ h) → back.length < fuel →
    WellFormed prio (eraseWhile h fuel a.key s) ∧
      (eraseWhile h fuel a.key s).index = s.index.filter (·.txhash ≠ h)
  | 0, _, _, _, _, _, _, _, _, hfuel => absurd hfuel (Nat.not_lt_zero _)
  | fuel + 1, s, a, front, back, hwf, hr, ha, hfront, hfuel => by
    have hwf' := hwf.erase a.key
    have htx := byTxHash_erase hwf a.key
    -- without the announcement, what was in front and what was behind
    have hrest : (erase a.key s).byTxHash = front ++ back := by
      rw [htx, hr.split, filter_append, filter_cons_of_neg (by simp),
        filter_eq_self.2 (by simpa using hr.front_key),
        filter_eq_self.2 (by simpa using hr.back_key)]
    have hlast : (∀ x ∈ back, x.txhash ≠ h) →
        (erase a.key s).index = s.index.filter (·.txhash ≠ h) := by
      intro hback
      rw [index_erase]
      refine filter_congr fun x hx => ?_
      rw [decide_eq_decide]
      rcases (hr.mem_index hwf).1 hx with hx | rfl | hx
      · exact iff_of_true (hr.front_key x hx) (hfront x hx)
      · exact iff_of_false (by simp) (by simp [ha])
      · exact iff_of_true (hr.back_key x hx) (hback x hx)
    rw [eraseWhile]
    cases hnext : after key a.key s.byTxHash with
    | none =>
      refine ⟨hwf', hlast fun x hx => ?_⟩
      rw [← ha]
      exact hr.back_ne (fun b hb => absurd (hnext.symm.trans hb) (by simp)) hx
    | some b =>
      dsimp only
      by_cases hb : b.txhash = h
      · rw [if_pos hb]
        obtain ⟨back', rfl⟩ := List.head?_eq_some_iff.1 (hr.after_eq.symm.trans hnext)
        obtain ⟨hdone, hindex⟩ := eraseWhile_spec hwf'
          (aroundTx_of_split hwf' hrest) hb hfront (Nat.lt_of_succ_lt_succ hfuel)
        refine ⟨hdone, ?_⟩
        rw [hindex, index_erase, filter_filter]
        refine filter_congr fun x _ => ?_
        have hkey : x.key = a.key → x.txhash = h := fun heq => (congrArg Prod.snd heq).trans ha
        by_cases hx : x.txhash = h
        · simp [hx]
        · simp [hx, mt hkey hx]
      · rw [if_neg hb]
        refine ⟨hwf', hlast fun x hx => ?_⟩
        rw [← ha]
        refine hr.back_ne (fun c hc => ?_) hx
        rw [hnext, Option.some.injEq] at hc
        rwa [← hc, ha]

section

variable (hwf : WellFormed prio s)

include hwf

theorem WellFormed.promoteCandidateReady (it : P × H) :
    WellFormed prio (promoteCandidateReady pl it s) := by
  have hwf' := hwf.modify pl it (keepsIdentity_setState .candidateReady)
  have hbest := hwf'.modify pl it (keepsIdentity_setState .candidateBest)
  rw [TxRequest.promoteCandidateReady]
  split
  · exact hbest
  · rename_i next _
    split_ifs
    · exact hbest
    · split
      · exact hwf'
      · split_ifs
        · exact (hwf'.modify pl next.key (keepsIdentity_setState _)).modify pl it
            (keepsIdentity_setState _)
        · exact hwf'
    · exact hwf'

theorem WellFormed.changeAndReselect (it : P × H) (newState : AnnState) :
    WellFormed prio (changeAndReselect pl it newState s) := by
  refine WellFormed.modify pl ?_ it (keepsIdentity_setState newState)
  rw [reselect]
  split
  · exact hwf
  · split_ifs
    · split
      · exact hwf
      · rename_i prev _
        split_ifs
        · exact hwf.modify pl prev.key (keepsIdentity_setState _)
        · exact hwf
    · exact hwf

/-- **What `MakeCompleted` does.** The announcement is completed, or the transaction is forgotten if
no other is left. -/
theorem makeCompleted_cases (ha : a ∈ s.index) :
    (a.state = .completed ∧ makeCompleted pl a.key s = (true, s)) ∨
    (a.state ≠ .completed ∧ (∀ b ∈ s.index, b.txhash = a.txhash → b.state ≠ .completed → b = a) ∧
      (makeCompleted pl a.key s).1 = false ∧ WellFormed prio (makeCompleted pl a.key s).2 ∧
      (makeCompleted pl a.key s).2.index = s.index.filter (·.txhash ≠ a.txhash)) ∨
    (a.state ≠ .completed ∧ (∃ b ∈ s.index, b.txhash = a.txhash ∧ b.state ≠ .completed ∧ b ≠ a) ∧
      makeCompleted pl a.key s = (true, changeAndReselect pl a.key .completed s)) := by
  rw [makeCompleted, (find_eq_some hwf).2 ⟨ha, rfl⟩]
  dsimp only
  by_cases hdone : a.state = .completed
  · rw [if_pos hdone]
    exact .inl ⟨hdone, rfl⟩
  rw [if_neg hdone]
  have honly_iff := isOnlyNonCompleted_iff hwf ha hdone
  by_cases honly : isOnlyNonCompleted a.key s = true
  · rw [if_pos honly]
    have hall := honly_iff.1 honly
    obtain ⟨front, back, h⟩ := exists_aroundTx hwf ha
    have hfront : ∀ x ∈ front, x.txhash ≠ a.txhash := by
      intro x hx hhash
      have hlive : x.state ≠ .completed := fun hx' =>
        hdone (completed_of_le (h.front_le x hx) hhash hx')
      exact h.front_key x hx (hall x ((h.mem_index hwf).2 (.inl hx)) hhash hlive ▸ rfl)
    have hfuel : back.length < s.index.length := by
      rw [← hwf.txPerm.length_eq, h.split, length_append, length_cons]
      omega
    exact .inr (.inl ⟨hdone, hall, rfl, eraseWhile_spec hwf h rfl hfront hfuel⟩)
  · rw [if_neg honly]
    refine .inr (.inr ⟨hdone, ?_, rfl⟩)
    by_contra hnone
    push Not at hnone
    exact honly (honly_iff.2 hnone)

/-- **What `ForgetTxHash` does.** -/
theorem forgetTxHash_spec (h : H) : WellFormed prio (forgetTxHash prio h s) ∧
      (forgetTxHash prio h s).index = s.index.filter (·.txhash ≠ h) := by
  have hunchanged : (∀ x ∈ s.byTxHash, x.txhash ≠ h) → s.index = s.index.filter (·.txhash ≠ h) := by
    intro hnone
    refine (filter_eq_self.2 fun x hx => ?_).symm
    simpa using hnone x (hwf.txPerm.mem_iff.2 hx)
  rw [forgetTxHash]
  cases hfind : s.byTxHash.find? fun a => ¬ viewLt (txHashView prio a)
      (h, AnnState.candidateDelayed.rank, 0) with
  | none =>
    refine ⟨hwf, hunchanged fun x hx hhash => ?_⟩
    have hx' := List.find?_eq_none.1 hfind x hx
    rw [decide_eq_true_eq, not_viewLt_iff] at hx'
    exact hx' (.inr ⟨hhash, Nat.zero_le _⟩)
  | some it =>
    obtain ⟨hit, front, back, hsplit, hfront⟩ := List.find?_eq_some_iff_append.1 hfind
    have h' := aroundTx_of_split hwf hsplit
    have hbefore : ∀ x ∈ front, x.txhash ≠ h := by
      intro x hx hhash
      have hx' := hfront x hx
      rw [Bool.not_eq_true', decide_eq_false_iff_not, not_viewLt_iff] at hx'
      exact hx' (.inr ⟨hhash, Nat.zero_le _⟩)
    dsimp only
    by_cases hhash : it.txhash = h
    · rw [if_pos hhash]
      refine eraseWhile_spec hwf h' hhash hbefore ?_
      rw [← hwf.txPerm.length_eq, hsplit, length_append, length_cons]
      omega
    · rw [if_neg hhash]
      refine ⟨hwf, hunchanged fun x hx hx' => ?_⟩
      rw [decide_eq_true_eq, not_viewLt_iff] at hit
      have hgt : h < it.txhash := hit.resolve_right fun heq => hhash heq.1
      rcases h'.mem_iff.1 hx with hx | rfl | hx
      · exact hbefore x hx hx'
      · exact hhash hx'
      · exact (hgt.trans_le (txhash_le (h'.le_back x hx))).ne' hx'

/-- What `RequestedTx` does to the selected announcement of the transaction, if there is one. -/
theorem unselect_cases (hsel : Selection prio s.index) (h : H) :
    ((∀ b ∈ s.index, b.txhash = h → ¬ b.IsSelected) ∧ unselect pl h s = s) ∨
    (∃ b ∈ s.index, b.txhash = h ∧ b.state = .candidateBest ∧
      unselect pl h s = modify pl b.key (setState .candidateReady) s) ∨
    (∃ b ∈ s.index, b.txhash = h ∧ b.state = .requested ∧
      unselect pl h s = modify pl b.key (setState .completed) s) := by
  have hfound : ∀ b ∈ s.index, b.txhash = h → b.IsSelected →
      (s.byTxHash.find? fun a => ¬ viewLt (txHashView prio a)
        (h, AnnState.candidateBest.rank, 0)) = some b := by
    intro b hb hhash hb_sel
    obtain ⟨front, back, h'⟩ := exists_aroundTx hwf hb
    refine List.find?_eq_some_iff_append.2 ⟨?_, front, back, h'.split, fun x hx => ?_⟩
    · rw [decide_eq_true_eq, not_viewLt_iff]
      refine .inr ⟨hhash, ?_⟩
      rcases hb_sel with hb' | hb' <;> simp [hb', AnnState.rank]
    · -- what is in front is of a smaller hash, or of this transaction and not selected
      rw [Bool.not_eq_true', decide_eq_false_iff_not, not_viewLt_iff]
      rintro (hlt | ⟨hx_hash, hx_rank⟩)
      · exact absurd (txhash_le (h'.front_le x hx)) (by rw [hhash]; exact hlt.not_ge)
      · have hx_live : x.state ≠ .completed := fun hdone =>
          not_completed_of_isSelected hb_sel
            (completed_of_le (h'.front_le x hx) (hx_hash.trans hhash.symm) hdone)
        have heq := hsel.one x ((h'.mem_index hwf).2 (.inl hx)) b hb
          (hx_hash.trans hhash.symm) (isSelected_of_rank hx_rank hx_live) hb_sel
        exact h'.front_key x hx (heq ▸ rfl)
  by_cases hnone : ∀ b ∈ s.index, b.txhash = h → ¬ b.IsSelected
  · refine .inl ⟨hnone, ?_⟩
    rw [unselect]
    cases hfind : s.byTxHash.find? fun a => ¬ viewLt (txHashView prio a)
        (h, AnnState.candidateBest.rank, 0) with
    | none => rfl
    | some old =>
      have hold := hnone old (hwf.txPerm.mem_iff.1 (mem_of_find?_eq_some hfind))
      dsimp only
      by_cases hhash : old.txhash = h
      · rw [if_pos hhash, if_neg fun hbest => hold hhash (.inl hbest),
          if_neg fun hreq => hold hhash (.inr hreq)]
      · rw [if_neg hhash]
  · push Not at hnone
    obtain ⟨b, hb, hhash, hb_sel⟩ := hnone
    rw [unselect, hfound b hb hhash hb_sel]
    dsimp only
    rw [if_pos hhash]
    rcases hb_sel with hb' | hb'
    · rw [if_pos hb']
      exact .inr (.inl ⟨b, hb, hhash, hb', rfl⟩)
    · rw [if_neg (by simp [hb']), if_pos hb']
      exact .inr (.inr ⟨b, hb, hhash, hb', rfl⟩)

end

omit [LinearOrder H] [LinearOrder P] in
lemma peerView_eq_iff {peer : P} {b : Bool} {h : H} : peerView a = (peer, b, h) ↔
    a.key = (peer, h) ∧ decide (a.state = .candidateBest) = b := by
  simp only [peerView, key, Prod.mk.injEq]
  tauto

/-- **What `RequestedTx` does.** A candidate of the peer is requested, in the place of the selected
one. -/
theorem requestedTx_cases (hwf : WellFormed prio s) (peer : P) (h : H) (expiry : ℤ) :
    ((∀ a ∈ s.index, a.key = (peer, h) → a.state = .requested ∨ a.state = .completed) ∧
      requestedTx pl peer h expiry s = s) ∨
    (∃ a ∈ s.index, a.key = (peer, h) ∧ a.state = .candidateBest ∧
      requestedTx pl peer h expiry s = modify pl a.key (request expiry) s) ∨
    (∃ a ∈ s.index, a.key = (peer, h) ∧ (a.state = .candidateDelayed ∨ a.state = .candidateReady) ∧
      requestedTx pl peer h expiry s = modify pl a.key (request expiry) (unselect pl h s)) := by
  rw [requestedTx]
  cases hbest : s.index.find? fun a => peerView a = (peer, true, h) with
  | some a =>
    have ha := find?_some hbest
    rw [decide_eq_true_eq, peerView_eq_iff, decide_eq_true_eq] at ha
    exact .inr (.inl ⟨a, mem_of_find?_eq_some hbest, ha.1, ha.2, rfl⟩)
  | none =>
    have hno : ∀ a ∈ s.index, a.key = (peer, h) → a.state ≠ .candidateBest := by
      intro a ha hkey ha'
      have := List.find?_eq_none.1 hbest a ha
      rw [decide_eq_true_eq, peerView_eq_iff, decide_eq_true_eq] at this
      exact this ⟨hkey, ha'⟩
    cases hother : s.index.find? fun a => peerView a = (peer, false, h) with
    | none =>
      refine .inl ⟨fun a ha hkey => ?_, rfl⟩
      have := List.find?_eq_none.1 hother a ha
      rw [decide_eq_true_eq, peerView_eq_iff, decide_eq_false_iff_not] at this
      exact absurd ⟨hkey, hno a ha hkey⟩ this
    | some a =>
      have ha := mem_of_find?_eq_some hother
      have ha' := find?_some hother
      rw [decide_eq_true_eq, peerView_eq_iff] at ha'
      dsimp only
      by_cases hstop : a.state ≠ .candidateDelayed ∧ a.state ≠ .candidateReady
      · rw [if_pos hstop]
        refine .inl ⟨fun b hb hkey => ?_, rfl⟩
        rw [eq_of_key_eq hwf.keys hb ha (hkey.trans ha'.1.symm)]
        cases ha_state : a.state <;> simp_all
      · rw [if_neg hstop]
        exact .inr (.inr ⟨a, ha, ha'.1, by tauto, rfl⟩)

/-- **What `ReceivedInv` does.** -/
theorem receivedInv_cases (peer : P) (gtxid : GenTxid H) (preferred : Bool) (reqtime : ℤ) :
    ((∃ a ∈ s.index, a.key = (peer, gtxid.hash)) ∧
      receivedInv pl peer gtxid preferred reqtime s = s) ∨
    ((∀ a ∈ s.index, a.key ≠ (peer, gtxid.hash)) ∧
      receivedInv pl peer gtxid preferred reqtime s = insert pl ⟨gtxid.hash, reqtime, peer,
        s.currentSequence, preferred, gtxid.isWtxid, .candidateDelayed⟩ s) := by
  have hany : ∀ b : Bool, (s.index.any fun a => peerView a = (peer, b, gtxid.hash)) = true ↔
      ∃ a ∈ s.index, a.key = (peer, gtxid.hash) ∧ decide (a.state = .candidateBest) = b := by
    intro b
    simp only [any_eq_true, decide_eq_true_eq, peerView_eq_iff]
  rw [receivedInv]
  by_cases hbest : (s.index.any fun a => peerView a = (peer, true, gtxid.hash)) = true
  · rw [if_pos hbest]
    obtain ⟨a, ha, hkey, -⟩ := (hany true).1 hbest
    exact .inl ⟨⟨a, ha, hkey⟩, rfl⟩
  rw [if_neg hbest]
  by_cases hother : (s.index.any fun a => peerView a = (peer, false, gtxid.hash)) = true
  · rw [if_pos hother]
    obtain ⟨a, ha, hkey, -⟩ := (hany false).1 hother
    exact .inl ⟨⟨a, ha, hkey⟩, rfl⟩
  rw [if_neg hother]
  refine .inr ⟨fun a ha hkey => ?_, rfl⟩
  rw [hany] at hbest hother
  cases hstate : decide (a.state = .candidateBest) with
  | true => exact hbest ⟨a, ha, hkey, hstate⟩
  | false => exact hother ⟨a, ha, hkey, hstate⟩

/-- **What `ReceivedResponse` does.** -/
theorem receivedResponse_eq (peer : P) (h : H) :
    receivedResponse pl peer h s = (makeCompleted pl (peer, h) s).2 := by
  have hfound : ∀ {b : Bool} {a : Announcement P H},
      (s.index.find? fun a => peerView a = (peer, b, h)) = some a → a.key = (peer, h) := by
    intro b a hfind
    have ha := find?_some hfind
    rw [decide_eq_true_eq, peerView_eq_iff] at ha
    exact ha.1
  rw [receivedResponse]
  cases hother : s.index.find? fun a => peerView a = (peer, false, h) with
  | some a =>
    dsimp only
    rw [hfound hother]
  | none =>
    cases hbest : s.index.find? fun a => peerView a = (peer, true, h) with
    | some a =>
      dsimp only
      rw [hfound hbest]
    | none =>
      have hnone : s.find (peer, h) = none := by
        rw [find_eq_none]
        intro a ha hkey
        have hother' := List.find?_eq_none.1 hother a ha
        have hbest' := List.find?_eq_none.1 hbest a ha
        rw [decide_eq_true_eq, peerView_eq_iff] at hother' hbest'
        cases hstate : decide (a.state = .candidateBest) with
        | true => exact hbest' ⟨hkey, hstate⟩
        | false => exact hother' ⟨hkey, hstate⟩
      rw [makeCompleted, hnone]

end Transitions

/-! ## A placement -/

lemma viewLt_iff_toLex {x y : H × ℕ × ℕ} : viewLt x y ↔
    toLex (x.1, toLex x.2) < toLex (y.1, toLex y.2) := by
  rw [Prod.Lex.toLex_lt_toLex, Prod.Lex.toLex_lt_toLex, viewLt]

/-- The orders as the container keeps them: a changed announcement goes behind its equivalents. -/
def Placements.upperBound (prio : PriorityComputer P H) : Placements prio where
  byTxHash := Placement.upperBound (fun a b => viewLt (txHashView prio a) (txHashView prio b))
    (fun {a b c} hab hbc => by
      rw [viewLt_iff_toLex, not_lt] at *
      exact hab.trans hbc)
    (fun {a b} hab => by
      rw [viewLt_iff_toLex] at *
      exact hab.not_gt)
  byTime := Placement.upperBound timeLt
    (fun {a b c} hab hbc => by
      simp only [timeLt] at *
      omega)
    (fun {a b} hab => by
      simp only [timeLt] at *
      omega)

end Bitcoin.TxRequest
