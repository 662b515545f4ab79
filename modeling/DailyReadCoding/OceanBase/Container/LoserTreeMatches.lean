import DailyReadCoding.OceanBase.Container.Compare
import DailyReadCoding.OceanBase.Container.LoserTree

/-!
# The matches of `ObLoserTree`

A tree at rest is a played tournament between the occupied slots (`Clean`). Between a `push` and the
end of the next `rebuild` some matches are out of date: what they keep are the winners their two
sides had before, and their replay type says which of the two sides has changed since (`Marks`).
-/

namespace OceanBase.Container

open BinaryHeap Tournament Function MatchResult Option

variable {T : Type}

namespace LoserTree

/-- The player of slot `p` is not after that of slot `q`. -/
def Le (cmp : T → T → ℤ) (players : ℕ → Option T) (p q : ℕ) : Prop :=
  ∃ x ∈ players p, ∃ y ∈ players q, cmp x y ≤ 0

variable {players : ℕ → Option T} {p q : ℕ}

lemma Le.iff {cmp : T → T → ℤ} {x y : T} (hx : x ∈ players p)
    (hy : y ∈ players q) : Le cmp players p q ↔ cmp x y ≤ 0 := by
  constructor
  · rintro ⟨x', hx', y', hy', hle⟩
    rwa [mem_unique hx hx', mem_unique hy hy']
  · intro hle
    exact ⟨x, hx, y, hy, hle⟩

lemma Le.trans {cmp : T → T → ℤ} (hcmp : TotalPreorderCmp cmp) : IsTrans ℕ (Le cmp players) := by
  refine ⟨fun p q r => ?_⟩
  rintro ⟨x, hx, y, hy, hxy⟩ ⟨y', hy', z, hz, hyz⟩
  obtain rfl : y = y' := mem_unique hy hy'
  exact ⟨x, hx, z, hz, hcmp.trans x y z hxy hyz⟩

lemma Le.refl {cmp : T → T → ℤ} (hcmp : TotalPreorderCmp cmp)
    {x : T} (hx : x ∈ players p) : Le cmp players p p :=
  ⟨x, hx, x, hx, (hcmp.refl x).le⟩

/-! ## One match -/

/-- A slot that a match can be played with. -/
def Valid (t : LoserTree T) (p : ℕ) : Prop := p < t.playerCnt ∧ ∃ x, x ∈ t.players p

/-- A match between two valid slots has an outcome. -/
lemma getMatchResult_spec {cmp : T → T → ℤ} (hcmp : TotalPreorderCmp cmp) (t : LoserTree T)
    {offender defender : Option ℕ} (ho : ∀ o ∈ offender, t.Valid o)
    (hd : ∀ d ∈ defender, t.Valid d) (i : ℕ) :
    ∃ winner loser draw, t.getMatchResult cmp offender defender i
        = .ok (t.setMatch i ⟨winner, loser, draw, (t.matchResults i).replay⟩)
      ∧ Outcome (Le cmp t.players) offender defender winner loser (draw = true) := by
  have hrange : ¬ (offender.any (· ≥ t.playerCnt) ∨ defender.any (· ≥ t.playerCnt)) := by
    simp only [any_eq_true, decide_eq_true_eq]
    rintro (⟨o, hmem, hge⟩ | ⟨d, hmem, hge⟩)
    · exact absurd (ho o hmem).1 (by omega)
    · exact absurd (hd d hmem).1 (by omega)
  unfold getMatchResult
  rw [if_neg hrange]
  cases offender with
  | none => exact ⟨defender, none, false, rfl, .inr ⟨rfl, rfl⟩, by simp, by simp⟩
  | some o =>
    cases defender with
    | none => exact ⟨some o, none, false, rfl, .inl ⟨rfl, rfl⟩, by simp, by simp⟩
    | some d =>
      obtain ⟨-, x, hx⟩ := ho o rfl
      obtain ⟨-, y, hy⟩ := hd d rfl
      have hle := hcmp.le_iff x y
      have hod : Le cmp t.players o d ↔ cmp x y ≤ 0 := Le.iff hx hy
      have hdo : Le cmp t.players d o ↔ cmp y x ≤ 0 := Le.iff hy hx
      rw [mem_def] at hx hy
      refine ⟨if cmp x y < 0 then some o else some d, if cmp x y < 0 then some d else some o,
        cmp x y == 0, by simp only [hx, hy], ?_⟩
      by_cases hlt : cmp x y < 0
      · simp only [if_pos hlt]
        refine ⟨.inl ⟨rfl, rfl⟩, ?_, ?_⟩
        · simp only [mem_some_iff, forall_eq', exists_eq_left', hod]
          omega
        · simp only [mem_some_iff, exists_eq_left', hdo, beq_iff_eq]
          omega
      · simp only [if_neg hlt]
        refine ⟨.inr ⟨rfl, rfl⟩, ?_, ?_⟩
        · simp only [mem_some_iff, forall_eq', exists_eq_left', hdo]
          omega
        · simp only [mem_some_iff, exists_eq_left', hod, beq_iff_eq]
          omega

/-! ## Replay types -/

/-- The replay type of a match by which of its players has changed. -/
def markOf : Bool → Bool → ReplayType
  | false, false => .noChange
  | true, false => .winnerChange
  | false, true => .loserChange
  | true, true => .bothChange

/-- The match keeps `a` and `b`, the winners its sides had when it was played, and its replay type
says which side has changed since, or only that one has if there was no player. -/
def Marks (m : MatchResult) (a b : Option ℕ) (ca cb : Bool) : Prop :=
  (a = none ∧ b = none ∧ m.winnerIdx = none ∧ m.loserIdx = none ∧
    m.replay = if ca || cb then .bothChange else .noChange) ∨
  (a ≠ b ∧ m.winnerIdx = a ∧ m.loserIdx = b ∧ m.replay = markOf ca cb) ∨
  (a ≠ b ∧ m.winnerIdx = b ∧ m.loserIdx = a ∧ m.replay = markOf cb ca)

/-- `set_replay_type` ends, notes the changes of the sides and keeps the result. -/
def Remarks (m : MatchResult) (idx a b : Option ℕ) (ca cb : Bool) : Prop :=
  ∃ m', m.setReplayType idx = .ok m' ∧ Marks m' a b ca cb ∧ m'.winnerIdx = m.winnerIdx
    ∧ m'.loserIdx = m.loserIdx ∧ m'.isDraw = m.isDraw

namespace Marks

variable {m : MatchResult} {a b : Option ℕ} {ca cb : Bool}

lemma symm (h : Marks m a b ca cb) : Marks m b a cb ca := by
  rcases h with ⟨ha, hb, hw, hl, hr⟩ | ⟨hne, hw, hl, hr⟩ | ⟨hne, hw, hl, hr⟩
  · exact .inl ⟨hb, ha, hw, hl, by rw [Bool.or_comm]; exact hr⟩
  · exact .inr (.inr ⟨hne.symm, hw, hl, hr⟩)
  · exact .inr (.inl ⟨hne.symm, hw, hl, hr⟩)

lemma remarks_symm {idx : Option ℕ} (h : Remarks m idx a b ca cb) : Remarks m idx b a cb ca :=
  h.imp fun _ h => ⟨h.1, h.2.1.symm, h.2.2⟩

lemma noChange (h : Marks m a b ca cb) (hr : m.replay = .noChange) : ca = false ∧ cb = false := by
  rcases h with ⟨-, -, -, -, h⟩ | ⟨-, -, -, h⟩ | ⟨-, -, -, h⟩
  all_goals rw [hr] at h; revert h; cases ca <;> cases cb <;> simp [markOf]

/-- `set_replay_type` with the winner that a side had notes the change of that side. -/
lemma setReplayType (h : Marks m a b false cb) : Remarks m a a b true cb := by
  have hsome {x y : Option ℕ} (hne : x ≠ y) (hw : m.winnerIdx = x) (hl : m.loserIdx = y) :
      ¬ (m.winnerIdx = none ∧ m.loserIdx = none) := by
    rintro ⟨h1, h2⟩
    exact hne (by rw [← hw, ← hl, h1, h2])
  rcases h with ⟨ha, hb, hw, hl, hr⟩ | ⟨hne, hw, hl, hr⟩ | ⟨hne, hw, hl, hr⟩
  · exact ⟨{ m with replay := .bothChange }, by rw [MatchResult.setReplayType, if_pos ⟨hw, hl⟩],
      .inl ⟨ha, hb, hw, hl, rfl⟩, rfl, rfl, rfl⟩
  · -- the winner's side changes
    have hsome := hsome hne hw hl
    cases cb with
    | false =>
      refine ⟨{ m with replay := .winnerChange }, ?_, .inr (.inl ⟨hne, hw, hl, rfl⟩), rfl, rfl, rfl⟩
      simp only [setReplayType, if_neg hsome, hr, markOf, if_pos hw]
    | true =>
      refine ⟨{ m with replay := .bothChange }, ?_, .inr (.inl ⟨hne, hw, hl, rfl⟩), rfl, rfl, rfl⟩
      have hla : m.loserIdx ≠ a := hl ▸ hne.symm
      simp only [setReplayType, if_neg hsome, hr, markOf, if_neg hla, if_pos hw]
  · -- the loser's side changes
    have hsome := hsome hne.symm hw hl
    have hwa : m.winnerIdx ≠ a := hw ▸ hne.symm
    cases cb with
    | false =>
      refine ⟨{ m with replay := .loserChange }, ?_, .inr (.inr ⟨hne, hw, hl, rfl⟩), rfl, rfl, rfl⟩
      simp only [setReplayType, if_neg hsome, hr, markOf, if_neg hwa, if_pos (Or.inl hl)]
    | true =>
      refine ⟨{ m with replay := .bothChange }, ?_, .inr (.inr ⟨hne, hw, hl, rfl⟩), rfl, rfl, rfl⟩
      simp only [setReplayType, if_neg hsome, hr, markOf, if_neg hwa, if_pos hl]

/-- A player pushed into a free slot is itself what `set_replay_type` is given. -/
lemma setReplayType_fresh {le : ℕ → ℕ → Prop} {draw : Prop} (h : Marks m none b false cb)
    (hout : Outcome le none b m.winnerIdx m.loserIdx draw) (hcb : cb = true → b = none) {idx : ℕ}
    (hidx : b ≠ some idx) : Remarks m (some idx) none b true cb := by
  rcases h with ⟨ha, hb, hw, hl, hr⟩ | ⟨hne, hw, hl, hr⟩ | ⟨hne, hw, hl, hr⟩
  · exact ⟨{ m with replay := .bothChange }, by rw [MatchResult.setReplayType, if_pos ⟨hw, hl⟩],
      .inl ⟨ha, hb, hw, hl, rfl⟩, rfl, rfl, rfl⟩
  · obtain ⟨q, hq⟩ := ne_none_iff_exists'.1 hne.symm
    obtain ⟨p, hp, -⟩ := hout.beats q (hl ▸ hq)
    rw [hw] at hp
    cases hp
  · have hcb' : cb = false := by
      cases cb with
      | false => rfl
      | true => exact absurd (hcb rfl).symm hne
    subst hcb'
    have hsome : ¬ (m.winnerIdx = none ∧ m.loserIdx = none) := fun ⟨h1, _⟩ => hne (by rw [← hw, h1])
    have hwidx : m.winnerIdx ≠ some idx := hw ▸ hidx
    refine ⟨{ m with replay := .loserChange }, ?_, .inr (.inr ⟨hne, hw, hl, rfl⟩), rfl, rfl, rfl⟩
    simp only [MatchResult.setReplayType, if_neg hsome, hr, markOf, if_neg hwidx,
      if_pos (Or.inr hl)]

end Marks

/-! ## The state of the matches -/

def winnerAt (t : LoserTree T) (i : ℕ) : Option ℕ := (t.matchResults i).winnerIdx

def loserAt (t : LoserTree T) (i : ℕ) : Option ℕ := (t.matchResults i).loserIdx

def drawAt (t : LoserTree T) (i : ℕ) : Prop := (t.matchResults i).isDraw = true

/-- The leaves show which slots are occupied. -/
structure Leaves (t : LoserTree T) (occ : ℕ → Prop) : Prop where
  valid : ∀ p, occ p → t.Valid p
  inside : ∀ p, occ p → p ≤ t.leafOffset
  leaf : ∀ i ≤ t.leafOffset, ∀ p, p ∈ t.winnerAt (t.leafOffset + i) ↔ p = i ∧ occ i

/-- The match `i` is up to date. -/
def UpToDate (cmp : T → T → ℤ) (t : LoserTree T) (i : ℕ) : Prop :=
  Outcome (Le cmp t.players) (t.winnerAt (2 * i + 1)) (t.winnerAt (2 * i + 2)) (t.winnerAt i)
    (t.loserAt i) (t.drawAt i)

/-- A tree at rest. -/
structure Clean (cmp : T → T → ℤ) (t : LoserTree T) (occ : ℕ → Prop) : Prop where
  leaves : t.Leaves occ
  outcome : ∀ i < t.leafOffset, UpToDate cmp t i
  quiet : ∀ i < t.leafOffset, (t.matchResults i).replay = .noChange

/-- The matches from `j` on are up to date; those before keep the winners `was`, and `ch` says which
nodes have changed. -/
structure Pending (cmp : T → T → ℤ) (t : LoserTree T) (occ : ℕ → Prop) (was : ℕ → Option ℕ)
    (ch : ℕ → Bool) (j : ℕ) : Prop where
  leaves : t.Leaves occ
  bound : j ≤ t.leafOffset
  outcome : ∀ i, j ≤ i → i < t.leafOffset → UpToDate cmp t i
  quiet : ∀ i, j ≤ i → i < t.leafOffset → (t.matchResults i).replay = .noChange
  old : ∀ i < j, Outcome (Le cmp t.players) (was (2 * i + 1)) (was (2 * i + 2)) (t.winnerAt i)
    (t.loserAt i) (t.drawAt i)
  marks : ∀ i < j, Marks (t.matchResults i) (was (2 * i + 1)) (was (2 * i + 2)) (ch (2 * i + 1))
    (ch (2 * i + 2))
  same : ∀ i ≤ 2 * t.leafOffset, ch i = false → t.winnerAt i = was i
  waiting : ∀ i < j, ch i = false
  occupied : ∀ i ≤ 2 * t.leafOffset, ∀ p ∈ was i, occ p
  fresh : ∀ i ≤ t.leafOffset, ch (t.leafOffset + i) = true → occ i ∧ was (t.leafOffset + i) = none

variable {winner loser : Option ℕ} {draw : Bool}

section State

variable {cmp : T → T → ℤ} {t : LoserTree T} {occ : ℕ → Prop}

lemma Leaves.leaf_eq (h : t.Leaves occ) {i : ℕ} (hi : t.leafOffset ≤ i)
    (hi2 : i ≤ 2 * t.leafOffset) (hp : p ∈ t.winnerAt i) : i = t.leafOffset + p ∧ occ p := by
  obtain ⟨k, rfl⟩ := Nat.exists_eq_add_of_le hi
  obtain ⟨rfl, hocc⟩ := (h.leaf k (by omega) p).1 hp
  exact ⟨rfl, hocc⟩

/-- Where everything below a node is up to date, its winner is an occupied slot. -/
lemma Leaves.winner_occ (h : t.Leaves occ) (ok : ℕ → Prop)
    (hdown : ∀ i, ok i → ok (2 * i + 1) ∧ ok (2 * i + 2))
    (hout : ∀ i < t.leafOffset, ok i → UpToDate cmp t i) {i : ℕ} (hok : ok i)
    (hi : i ≤ 2 * t.leafOffset) (hp : p ∈ t.winnerAt i) : Under i (t.leafOffset + p) ∧ occ p := by
  obtain ⟨hu, hle, hleaf⟩ := winner_under_of ok hdown hout
    (fun i hi hi2 p hp => (h.leaf_eq hi hi2 hp).1) hok hi hp
  exact ⟨hu, (h.leaf_eq (by omega) hle hleaf).2⟩

lemma Clean.played (hcmp : TotalPreorderCmp cmp) (h : Clean cmp t occ) :
    Played t.leafOffset (Le cmp t.players) t.winnerAt t.loserAt t.drawAt where
  outcome := h.outcome
  leaf i hi hi2 p hp := (h.leaves.leaf_eq hi hi2 hp).1
  refl i hi p hp := by
    obtain ⟨-, hocc⟩ := h.leaves.winner_occ (fun _ => True) (fun _ _ => ⟨trivial, trivial⟩)
      (fun i hi _ => h.outcome i hi) trivial hi hp
    obtain ⟨-, x, hx⟩ := h.leaves.valid p hocc
    exact Le.refl hcmp hx

lemma matchResults_setMatch (t : LoserTree T) (i k : ℕ) (m : MatchResult) :
    (t.setMatch i m).matchResults k = if k = i then m else t.matchResults k :=
  update_apply _ _ _ _

lemma setMatch_setMatch (t : LoserTree T) (i : ℕ) (m m' : MatchResult) :
    (t.setMatch i m).setMatch i m' = t.setMatch i m' := by
  rw [setMatch, setMatch, setMatch, update_idem]

lemma setMatch_comm (t : LoserTree T) {i k : ℕ} (h : i ≠ k) (m m' : MatchResult) :
    (t.setMatch i m).setMatch k m' = (t.setMatch k m').setMatch i m := by
  rw [setMatch, setMatch, setMatch, setMatch, update_comm h]

/-! ## `rebuild` -/

/-- Match `j` is played, and `c` says whether its winner may have changed. -/
lemma Pending.play {was : ℕ → Option ℕ} {ch : ℕ → Bool} {j : ℕ}
    (h : Pending cmp t occ was ch (j + 1)) {c : Bool}
    (hout : Outcome (Le cmp t.players) (t.winnerAt (2 * j + 1))
    (t.winnerAt (2 * j + 2)) winner loser
      (draw = true)) (hc : c = false → winner = was j) {results : ℕ → MatchResult}
    (hsame : ∀ i, (results i).winnerIdx = t.winnerAt i ∧ (results i).loserIdx = t.loserAt i
      ∧ (results i).isDraw = (t.matchResults i).isDraw)
    (hquiet : ∀ i, j < i → (results i).replay = (t.matchResults i).replay)
    (hmarks : ∀ i < j, Marks (results i) (was (2 * i + 1)) (was (2 * i + 2))
      (update ch j c (2 * i + 1)) (update ch j c (2 * i + 2))) : Pending cmp
      { t with matchResults := update results j ⟨winner, loser, draw, .noChange⟩ } occ was
      (update ch j c) j := by
  have hbound := h.bound
  set t' : LoserTree T :=
    { t with matchResults := update results j ⟨winner, loser, draw, .noChange⟩ }
  have hj : t'.matchResults j = ⟨winner, loser, draw, .noChange⟩ := update_self ..
  have hwj : t'.winnerAt j = winner := by rw [winnerAt, hj]
  have hlj : t'.loserAt j = loser := by rw [loserAt, hj]
  have hdj : t'.drawAt j = (draw = true) := by rw [drawAt, hj]
  have hrest : ∀ i ≠ j, t'.matchResults i = results i := fun i hi => update_of_ne hi ..
  have hw : ∀ i ≠ j, t'.winnerAt i = t.winnerAt i := fun i hi => by
    rw [winnerAt, hrest i hi, (hsame i).1]
  have hl : ∀ i ≠ j, t'.loserAt i = t.loserAt i := fun i hi => by
    rw [loserAt, hrest i hi, (hsame i).2.1]
  have hd : ∀ i ≠ j, t'.drawAt i = t.drawAt i := fun i hi => by
    rw [drawAt, hrest i hi, (hsame i).2.2, drawAt]
  refine
    { leaves := ⟨h.leaves.valid, h.leaves.inside, fun i hi p => ?_⟩
      bound := Nat.le_of_succ_le hbound
      outcome := fun i hji hi => ?_
      quiet := fun i hji hi => ?_
      old := fun i hij => ?_
      marks := fun i hij => ?_
      same := fun i hi hch => ?_
      waiting := fun i hij => ?_
      occupied := h.occupied
      fresh := fun i hi hch => ?_ }
  · have hne : t.leafOffset + i ≠ j := by omega
    rw [hw _ hne]
    exact h.leaves.leaf i hi p
  · rw [UpToDate, hw _ (by omega), hw _ (by omega)]
    rcases eq_or_lt_of_le hji with rfl | hlt
    · rw [hwj, hlj, hdj]
      exact hout
    · rw [hw _ (by omega), hl _ (by omega), hd _ (by omega)]
      exact h.outcome i hlt hi
  · rcases eq_or_lt_of_le hji with rfl | hlt
    · rw [hj]
    · rw [hrest i hlt.ne', hquiet i hlt]
      exact h.quiet i hlt hi
  · rw [hw _ (by omega), hl _ (by omega), hd _ (by omega)]
    exact h.old i (by omega)
  · rw [hrest i hij.ne]
    exact hmarks i hij
  · by_cases hij : i = j
    · subst hij
      rw [update_self] at hch
      rw [hwj]
      exact hc hch
    · rw [update_of_ne hij] at hch
      rw [hw i hij]
      exact h.same i hi hch
  · rw [update_of_ne (by omega)]
    exact h.waiting i (by omega)
  · have hne : t.leafOffset + i ≠ j := by omega
    rw [update_of_ne hne] at hch
    exact h.fresh i hi hch

/-- The match is played again. The one above is marked unless the winner is known to be the same. -/
lemma rebuildMatch_eq {j : ℕ} (hr : (t.matchResults j).replay ≠ .noChange)
    (hget : t.getMatchResult cmp (t.winnerAt (2 * j + 1)) (t.winnerAt (2 * j + 2)) j
      = .ok (t.setMatch j ⟨winner, loser, draw, (t.matchResults j).replay⟩)) :
    t.rebuildMatch cmp j =
      if ((t.matchResults j).replay = .loserChange ∧ t.winnerAt j = winner) ∨ j = 0 then
        .ok (t.setMatch j ⟨winner, loser, draw, .noChange⟩)
      else (t.matchResults (parent j)).setReplayType (t.winnerAt j) >>= fun up =>
        .ok ((t.setMatch (parent j) up).setMatch j ⟨winner, loser, draw, .noChange⟩) := by
  simp only [winnerAt] at hget
  rw [rebuildMatch, if_neg hr, Exec.bind_of_ok hget]
  simp only [matchResults_setMatch]
  change (if (t.matchResults j).replay = .loserChange ∧ t.winnerAt j = winner then _ else _) = _
  by_cases hkept : (t.matchResults j).replay = .loserChange ∧ t.winnerAt j = winner
  · rw [if_pos hkept, if_pos (.inl hkept), pure_bind, matchResults_setMatch, if_pos rfl,
      setMatch_setMatch]
    rfl
  rcases Nat.eq_zero_or_pos j with rfl | hpos
  · rw [if_neg hkept, if_neg (lt_irrefl 0), if_pos (.inr rfl), pure_bind,
      matchResults_setMatch, if_pos rfl,
      setMatch_setMatch]
    rfl
  · have hne : parent j ≠ j := (parent_lt hpos).ne
    rw [if_neg hkept, if_pos hpos, if_neg (not_or_intro hkept hpos.ne'), if_neg hne]
    simp only [pure_bind, matchResults_setMatch, if_neg hne.symm, setMatch_comm t hne.symm,
      setMatch_setMatch]
    rfl

section Rebuild

variable {was : ℕ → Option ℕ} {ch : ℕ → Bool} {j : ℕ}

lemma Pending.winner_valid (h : Pending cmp t occ was ch j) {i : ℕ} (hji : j ≤ i)
    (hi : i ≤ 2 * t.leafOffset) : ∀ p ∈ t.winnerAt i, t.Valid p := by
  intro p hp
  have hout : ∀ k < t.leafOffset, j ≤ k → UpToDate cmp t k := fun k hk hjk => h.outcome k hjk hk
  exact h.leaves.valid p (h.leaves.winner_occ (fun i => j ≤ i) (by omega) hout hji hi hp).2

/-- Marking the match above `j`. -/
lemma Pending.mark_parent (h : Pending cmp t occ was ch (j + 1)) (hpos : 0 < j) :
    Remarks (t.matchResults (parent j)) (t.winnerAt j) (was (2 * parent j + 1))
    (was (2 * parent j + 2))
      (update ch j true (2 * parent j + 1)) (update ch j true (2 * parent j + 2)) := by
  have hbound := h.bound
  have hlt := parent_lt hpos
  have hmarks := h.marks (parent j) (by omega)
  have hch := h.waiting j (by omega)
  rw [h.same j (by omega) hch]
  have hside : j = 2 * parent j + 1 ∨ j = 2 * parent j + 2 := by unfold parent; omega
  generalize parent j = p at *
  rcases hside with rfl | rfl
  · rw [hch] at hmarks
    rw [update_self, update_of_ne (by omega)]
    exact hmarks.setReplayType
  · rw [hch] at hmarks
    rw [update_self, update_of_ne (by omega)]
    exact Marks.remarks_symm hmarks.symm.setReplayType

/-- **One round of `inner_rebuild`.** -/
lemma Pending.rebuildMatch (hcmp : TotalPreorderCmp cmp) (h : Pending cmp t occ was ch (j + 1)) :
    ∃ results ch', t.rebuildMatch cmp j = .ok { t with matchResults := results }
      ∧ Pending cmp { t with matchResults := results } occ was ch' j := by
  have hbound := h.bound
  have hch : ch j = false := h.waiting j (by omega)
  have hwas : t.winnerAt j = was j := h.same j (by omega) hch
  have hmarks : ∀ i < j, Marks (t.matchResults i) (was (2 * i + 1)) (was (2 * i + 2))
      (ch (2 * i + 1)) (ch (2 * i + 2)) := fun i hi => h.marks i (by omega)
  by_cases hr : (t.matchResults j).replay = .noChange
  · -- neither side has changed, so the match is up to date as it is
    obtain ⟨hl, hr'⟩ := (h.marks j (by omega)).noChange hr
    have hout := h.old j (by omega)
    rw [← h.same _ (by omega) hl, ← h.same _ (by omega) hr'] at hout
    have hplay :=
      h.play (c := false) hout (fun _ => hwas) (fun i => ⟨rfl, rfl, rfl⟩) (fun i _ => rfl)
      (by rw [← hch, update_eq_self]; exact hmarks)
    refine ⟨_, _, ?_, hplay⟩
    have hsame : (⟨t.winnerAt j, t.loserAt j, (t.matchResults j).isDraw, .noChange⟩ : MatchResult)
        = t.matchResults j := by rw [← hr]; rfl
    rw [hsame, update_eq_self]
    unfold LoserTree.rebuildMatch
    rw [if_pos hr]
  · obtain ⟨winner, loser, draw, hget, hout⟩ := getMatchResult_spec hcmp t
      (h.winner_valid (i := 2 * j + 1) (by omega) (by omega))
      (h.winner_valid (i := 2 * j + 2) (by omega) (by omega)) j
    by_cases hkept : (t.matchResults j).replay = .loserChange ∧ t.winnerAt j = winner
    · refine ⟨_, update ch j false, (rebuildMatch_eq hr hget).trans (if_pos (.inl hkept)),
        h.play hout (fun _ => by rw [← hkept.2, hwas]) (fun i => ⟨rfl, rfl, rfl⟩)
        (fun i _ => rfl) ?_⟩
      rw [← hch, update_eq_self]
      exact hmarks
    · rcases Nat.eq_zero_or_pos j with rfl | hpos
      · exact ⟨_, update ch 0 true, (rebuildMatch_eq hr hget).trans (if_pos (.inr rfl)),
          h.play hout (fun hc => by cases hc) (fun i => ⟨rfl, rfl, rfl⟩) (fun i _ => rfl)
            fun i hi => absurd hi (Nat.not_lt_zero i)⟩
      · obtain ⟨up, hup, hupmarks, hupw, hupl, hupd⟩ := h.mark_parent hpos
        have hlt := parent_lt hpos
        refine ⟨_, update ch j true,
          by rw [rebuildMatch_eq hr hget, if_neg (not_or_intro hkept hpos.ne'), hup]; rfl,
          h.play hout (fun hc => by cases hc) (fun i => ?_) (fun i hi => ?_) fun i hi => ?_⟩
        · by_cases hip : i = parent j
          · rw [matchResults_setMatch, if_pos hip, hip]
            exact ⟨hupw, hupl, hupd⟩
          · rw [matchResults_setMatch, if_neg hip]
            exact ⟨rfl, rfl, rfl⟩
        · rw [matchResults_setMatch, if_neg (by omega)]
        · by_cases hip : i = parent j
          · rw [matchResults_setMatch, if_pos hip, hip]
            exact hupmarks
          · have hleft : 2 * i + 1 ≠ j := by unfold parent at hip; omega
            have hright : 2 * i + 2 ≠ j := by unfold parent at hip; omega
            rw [matchResults_setMatch, if_neg hip, update_of_ne hleft, update_of_ne hright]
            exact hmarks i hi

/-- **The loop of `inner_rebuild`** brings all matches up to date. -/
theorem rebuildLoop_spec (hcmp : TotalPreorderCmp cmp) (h : Pending cmp t occ was ch j) :
    ∃ results, t.rebuildLoop cmp j = .ok { t with matchResults := results }
      ∧ Clean cmp { t with matchResults := results } occ := by
  induction j generalizing t ch with
  | zero =>
    exact ⟨t.matchResults, rfl, h.leaves, fun i => h.outcome i (Nat.zero_le i),
      fun i => h.quiet i (Nat.zero_le i)⟩
  | succ j ih =>
    obtain ⟨results, ch', hmatch, hpending⟩ := h.rebuildMatch hcmp
    obtain ⟨results', hloop, hclean⟩ := ih hpending
    refine ⟨results', ?_, hclean⟩
    rw [rebuildLoop, Exec.bind_of_ok hmatch]
    exact hloop

end Rebuild

/-! ## `push` -/

lemma Clean.pending (hcmp : TotalPreorderCmp cmp) (h : Clean cmp t occ) :
    Pending cmp t occ t.winnerAt (fun _ => false) t.leafOffset where
  leaves := h.leaves
  bound := le_rfl
  outcome i hji hi := absurd hi (not_lt.2 hji)
  quiet i hji hi := absurd hi (not_lt.2 hji)
  old := h.outcome
  marks i hi := by
    have hout := h.outcome i hi
    have hne : t.winnerAt (2 * i + 1) ≠ t.winnerAt (2 * i + 2) ∨
        (t.winnerAt (2 * i + 1) = none ∧ t.winnerAt (2 * i + 2) = none) := by
      cases hl : t.winnerAt (2 * i + 1) with
      | some p =>
        refine .inl fun heq => ?_
        exact (h.played hcmp).children_ne hi hl heq.symm
      | none =>
        cases hr : t.winnerAt (2 * i + 2) with
        | some p => exact .inl (by simp)
        | none => exact .inr ⟨rfl, rfl⟩
    rcases hne with hne | ⟨hl, hr⟩
    · rcases hout.pairing with ⟨hw, hlo⟩ | ⟨hw, hlo⟩
      · exact .inr (.inl ⟨hne, hw, hlo, h.quiet i hi⟩)
      · exact .inr (.inr ⟨hne, hw, hlo, h.quiet i hi⟩)
    · refine .inl ⟨hl, hr, ?_, ?_, h.quiet i hi⟩
      · rcases hout.pairing with ⟨hw, -⟩ | ⟨hw, -⟩
        · exact hw.trans hl
        · exact hw.trans hr
      · rcases hout.pairing with ⟨-, hlo⟩ | ⟨-, hlo⟩
        · exact hlo.trans hr
        · exact hlo.trans hl
  same i _ _ := rfl
  waiting i _ := rfl
  occupied i hi p hp := by
    have hout : ∀ k < t.leafOffset, True → UpToDate cmp t k := fun k hk _ => h.outcome k hk
    exact (h.leaves.winner_occ (fun _ => True) (fun _ _ => ⟨trivial, trivial⟩) hout trivial hi hp).2
  fresh i hi hch := by cases hch

lemma Le.update_iff {idx : ℕ} {x : Option T} (hp : p ≠ idx)
    (hq : q ≠ idx) : Le cmp players p q ↔ Le cmp (update players idx x) p q := by
  rw [Le, Le, update_of_ne hp, update_of_ne hq]

section Push

variable {was : ℕ → Option ℕ} {ch : ℕ → Bool} {idx : ℕ}

/-- The match above a free slot is marked. -/
lemma Pending.mark_leaf (h : Pending cmp t occ was ch t.leafOffset) (hL : 0 < t.leafOffset)
    (hidx : idx ≤ t.leafOffset) (hfree : ¬ occ idx) :
    ch (t.leafOffset + idx) = false ∧ was (t.leafOffset + idx) = none ∧
    Remarks (t.matchResults (parent (t.leafOffset + idx))) (some idx)
      (was (2 * parent (t.leafOffset + idx) + 1)) (was (2 * parent (t.leafOffset + idx) + 2))
      (update ch (t.leafOffset + idx) true (2 * parent (t.leafOffset + idx) + 1))
      (update ch (t.leafOffset + idx) true (2 * parent (t.leafOffset + idx) + 2)) := by
  have hch : ch (t.leafOffset + idx) = false := by
    rw [← Bool.not_eq_true]
    exact fun hch => hfree (h.fresh idx hidx hch).1
  have hwas : was (t.leafOffset + idx) = none := by
    rw [← h.same _ (by omega) hch, eq_none_iff_forall_not_mem]
    intro p hp
    exact hfree ((h.leaves.leaf idx hidx p).1 hp).2
  refine ⟨hch, hwas, ?_⟩
  -- a node that has changed had no player, and no node had the player `idx`
  have hfresh : ∀ i, i ≤ 2 * t.leafOffset → ch i = true → was i = none := by
    intro i hi hci
    rcases lt_or_ge i t.leafOffset with hlt | hge
    · rw [h.waiting i hlt] at hci
      cases hci
    · obtain ⟨k, rfl⟩ := Nat.exists_eq_add_of_le hge
      exact (h.fresh k (by omega) hci).2
  have hnot : ∀ i ≤ 2 * t.leafOffset, was i ≠ some idx :=
    fun i hi heq => hfree (h.occupied i hi idx heq)
  have hp : parent (t.leafOffset + idx) < t.leafOffset := by unfold parent; omega
  have hmarks := h.marks _ hp
  have hout := h.old _ hp
  have hside : t.leafOffset + idx = 2 * parent (t.leafOffset + idx) + 1
      ∨ t.leafOffset + idx = 2 * parent (t.leafOffset + idx) + 2 := by unfold parent; omega
  generalize parent (t.leafOffset + idx) = p at *
  rcases hside with hside | hside
  · rw [hside] at hch hwas ⊢
    rw [hch, hwas] at hmarks
    rw [hwas] at hout
    rw [update_self, update_of_ne (by omega), hwas]
    exact hmarks.setReplayType_fresh hout (hfresh _ (by omega)) (hnot _ (by omega))
  · rw [hside] at hch hwas ⊢
    rw [hch, hwas] at hmarks
    rw [hwas] at hout
    rw [update_self, update_of_ne (by omega), hwas]
    exact Marks.remarks_symm
      (hmarks.symm.setReplayType_fresh hout.symm (hfresh _ (by omega)) (hnot _ (by omega)))

/-- **A player is put into a free slot**, with the match above it marked. -/
theorem Pending.push (h : Pending cmp t occ was ch t.leafOffset) (hL : 0 < t.leafOffset)
    (hidx : idx ≤ t.leafOffset) (hcnt : idx < t.playerCnt) (hfree : ¬ occ idx) (player : T) :
    ∃ up results ch',
      (t.matchResults (parent (t.leafOffset + idx))).setReplayType (some idx) = .ok up
      ∧ results = update (update t.matchResults (parent (t.leafOffset + idx)) up)
          (t.leafOffset + idx)
          { t.matchResults (t.leafOffset + idx) with winnerIdx := some idx, loserIdx := some idx }
      ∧ Pending cmp { t with
            players := update t.players idx (some player)
            matchResults := results } (fun p => occ p ∨ p = idx) was ch' t.leafOffset := by
  obtain ⟨hch, hwas, up, hup, hmarks, hupw, hupl, hupd⟩ := h.mark_leaf hL hidx hfree
  have hp : parent (t.leafOffset + idx) < t.leafOffset := by unfold parent; omega
  refine ⟨up, _, update ch (t.leafOffset + idx) true, hup, rfl, ?_⟩
  set leaf := t.leafOffset + idx with hleaf
  set t' : LoserTree T := { t with
    players := update t.players idx (some player)
    matchResults := update (update t.matchResults (parent leaf) up) leaf
      { t.matchResults leaf with winnerIdx := some idx, loserIdx := some idx } }
  have hresult : ∀ i ≠ leaf, i ≠ parent leaf → t'.matchResults i = t.matchResults i := by
    intro i hi hip
    exact (update_of_ne hi ..).trans (update_of_ne hip ..)
  have hparent : t'.matchResults (parent leaf) = up :=
    (update_of_ne (by omega) ..).trans (update_self ..)
  have hkeep : ∀ i ≠ leaf, t'.winnerAt i = t.winnerAt i ∧ t'.loserAt i = t.loserAt i
      ∧ t'.drawAt i = t.drawAt i := by
    intro i hi
    simp only [winnerAt, loserAt, drawAt]
    by_cases hip : i = parent leaf
    · rw [hip, hparent, hupw, hupl, hupd]
      exact ⟨rfl, rfl, rfl⟩
    · rw [hresult i hi hip]
      exact ⟨rfl, rfl, rfl⟩
  have hw := fun i hi => (hkeep i hi).1
  have hwleaf : t'.winnerAt leaf = some idx := by
    rw [winnerAt, show t'.matchResults leaf = _ from update_self ..]
  have hocc : ∀ i ≤ 2 * t.leafOffset, ∀ q ∈ was i, q ≠ idx := by
    rintro i hi q hq rfl
    exact hfree (h.occupied i hi q hq)
  refine
    { leaves := ⟨?_, ?_, fun i hi p => ?_⟩
      bound := le_rfl
      outcome := fun i hji hi => absurd hi (not_lt.2 hji)
      quiet := fun i hji hi => absurd hi (not_lt.2 hji)
      old := fun i hi => ?_
      marks := fun i hi => ?_
      same := fun i hi hci => ?_
      waiting := fun i hi => ?_
      occupied := fun i hi p hp' => .inl (h.occupied i hi p hp')
      fresh := fun i hi hci => ?_ }
  · intro p hoccp
    by_cases hpi : p = idx
    · exact ⟨hpi ▸ hcnt, player, by rw [hpi]; exact update_self ..⟩
    · obtain ⟨hlt, x, hx⟩ := h.leaves.valid p (hoccp.resolve_right hpi)
      exact ⟨hlt, x, by rw [mem_def]; exact (update_of_ne hpi ..).trans hx⟩
  · rintro p (hoccp | rfl)
    · exact h.leaves.inside p hoccp
    · exact hidx
  · by_cases hii : i = idx
    · subst hii
      rw [hwleaf, mem_some_iff]
      simp only [or_true, and_true, eq_comm]
    · have hne : t.leafOffset + i ≠ leaf := by omega
      rw [hw _ hne]
      simp only [hii, or_false]
      exact h.leaves.leaf i hi p
  · have hold := h.old i hi
    obtain ⟨hwi, hli, hdi⟩ := hkeep i (by omega)
    rw [hwi, hli, hdi]
    -- the new player takes no part in the matches as they were
    have hplayers : (∀ p ∈ t.winnerAt i, p ≠ idx) ∧ ∀ q ∈ t.loserAt i, q ≠ idx := by
      rcases hold.pairing with ⟨hwi, hli⟩ | ⟨hwi, hli⟩
      · rw [hwi, hli]
        exact ⟨hocc _ (by omega), hocc _ (by omega)⟩
      · rw [hwi, hli]
        exact ⟨hocc _ (by omega), hocc _ (by omega)⟩
    refine hold.congr fun p hpw q hql => ?_
    have hpi := hplayers.1 p hpw
    have hqi := hplayers.2 q hql
    exact ⟨Le.update_iff hpi hqi, Le.update_iff hqi hpi⟩
  · by_cases hip : i = parent leaf
    · rw [hip, hparent]
      exact hmarks
    · have hleft : 2 * i + 1 ≠ leaf := by unfold parent at hip; omega
      have hright : 2 * i + 2 ≠ leaf := by unfold parent at hip; omega
      rw [hresult i (by omega) hip, update_of_ne hleft, update_of_ne hright]
      exact h.marks i hi
  · have hne : i ≠ leaf := by
      rintro rfl
      rw [update_self] at hci
      cases hci
    rw [update_of_ne hne] at hci
    rw [hw i hne]
    exact h.same i hi hci
  · rw [update_of_ne (by omega)]
    exact h.waiting i hi
  · by_cases hii : i = idx
    · exact ⟨.inr hii, hii ▸ hwas⟩
    · have hne : t.leafOffset + i ≠ leaf := by omega
      rw [update_of_ne hne] at hci
      exact ⟨.inl (h.fresh i hi hci).1, (h.fresh i hi hci).2⟩

end Push

/-! ## `set_unique_champion` -/

/-- The champion is unique if no match above its leaf is a draw. -/
lemma uniqueLoop_iff (t : LoserTree T) (child : ℕ) :
    t.uniqueLoop child = true ↔ ∀ j, Under j child → j ≠ child → ¬ t.drawAt j := by
  induction child using Nat.strongRecOn with
  | ind child ih =>
    rw [uniqueLoop]
    rcases Nat.eq_zero_or_pos child with rfl | hpos
    · refine iff_of_true rfl fun j hj hne => absurd (Nat.le_zero.1 hj.le) hne
    · have hlt := parent_lt hpos
      rw [dif_pos hpos]
      by_cases hdraw : (t.matchResults (parent child)).isDraw = true
      · rw [if_pos hdraw]
        refine iff_of_false Bool.false_ne_true fun hall => ?_
        exact hall (parent child) (.step hpos .refl) hlt.ne hdraw
      · rw [if_neg hdraw, ih _ hlt]
        constructor
        · intro hall j hj hne
          by_cases hjp : j = parent child
          · rwa [hjp]
          · exact hall j (hj.eq_or_parent.resolve_left hne).2 hjp
        · intro hall j hj hne
          refine hall j (.step hpos hj) ?_
          have := hj.le
          omega

/-! ## `pop` -/

section

variable (t : LoserTree T) (i : ℕ) (m : MatchResult)

lemma winnerAt_setMatch : (t.setMatch i m).winnerAt = update t.winnerAt i m.winnerIdx := by
  funext k
  rw [winnerAt, matchResults_setMatch, update_apply, apply_ite winnerIdx, winnerAt]

lemma loserAt_setMatch : (t.setMatch i m).loserAt = update t.loserAt i m.loserIdx := by
  funext k
  rw [loserAt, matchResults_setMatch, update_apply, apply_ite loserIdx, loserAt]

lemma drawAt_setMatch : (t.setMatch i m).drawAt = update t.drawAt i (m.isDraw = true) := by
  funext k
  by_cases h : k = i
  · rw [drawAt, matchResults_setMatch, if_pos h, h, update_self]
  · rw [drawAt, matchResults_setMatch, if_neg h, update_of_ne h, drawAt]

end

/-- **The loop of `update_champion_path`** plays all matches above `child`. -/
theorem pathLoop_spec (hcmp : TotalPreorderCmp cmp) {child : ℕ}
    (h : Replaying t.leafOffset (Le cmp t.players) t.winnerAt t.loserAt t.drawAt child)
    (hchild : child ≤ 2 * t.leafOffset)
    (hvalid : ∀ p, t.leafOffset + p ≤ 2 * t.leafOffset → p ∈ t.winnerAt (t.leafOffset + p) →
      t.Valid p) : ∃ results, t.pathLoop cmp child = .ok { t with matchResults := results }
      ∧ (∀ i < t.leafOffset, UpToDate cmp { t with matchResults := results } i)
      ∧ (∀ i, t.leafOffset ≤ i → results i = t.matchResults i)
      ∧ ∀ i, (results i).replay = (t.matchResults i).replay := by
  induction child using Nat.strongRecOn generalizing t with
  | ind child ih =>
    rw [pathLoop]
    rcases Nat.eq_zero_or_pos child with rfl | hpos
    · exact ⟨t.matchResults, rfl, h.played.outcome, fun i _ => rfl, fun i => rfl⟩
    · have hlt := parent_lt hpos
      have hp : parent child < t.leafOffset := by unfold parent; omega
      have hdiff : ¬ (t.winnerAt child = t.loserAt (parent child) ∧ t.winnerAt child ≠ none) := by
        rintro ⟨heq, hsome⟩
        obtain ⟨p, hpw⟩ := ne_none_iff_exists'.1 hsome
        exact (h.loser_under hpos hchild (heq ▸ hpw)).1 (h.child_under hchild hpw).1
      have hoffender : ∀ o ∈ t.winnerAt child, t.Valid o := fun o ho =>
        hvalid o (h.child_under hchild ho).2.1 (h.child_under hchild ho).2.2
      have hdefender : ∀ d ∈ t.loserAt (parent child), t.Valid d := fun d hd =>
        hvalid d (h.loser_under hpos hchild hd).2.1 (h.loser_under hpos hchild hd).2.2
      obtain ⟨winner, loser, draw, hget, hout⟩ :=
        getMatchResult_spec hcmp t hoffender hdefender (parent child)
      have hstep := h.step hpos hchild hout
      set m : MatchResult := ⟨winner, loser, draw, (t.matchResults (parent child)).replay⟩ with hm
      have hleaf : ∀ i, t.leafOffset ≤ i → (t.setMatch (parent child) m).matchResults i
          = t.matchResults i := by
        intro i hi
        rw [matchResults_setMatch, if_neg (by omega)]
      have hreplay : ∀ i, ((t.setMatch (parent child) m).matchResults i).replay
          = (t.matchResults i).replay := by
        intro i
        rw [matchResults_setMatch]
        split_ifs with hi
        · rw [hi]
        · rfl
      have hstep' : Replaying t.leafOffset (Le cmp t.players) (t.setMatch (parent child) m).winnerAt
          (t.setMatch (parent child) m).loserAt (t.setMatch (parent child) m).drawAt
          (parent child) := by
        rw [winnerAt_setMatch, loserAt_setMatch, drawAt_setMatch]
        exact hstep
      have hvalid' : ∀ p, t.leafOffset + p ≤ 2 * t.leafOffset →
          p ∈ (t.setMatch (parent child) m).winnerAt (t.leafOffset + p) → t.Valid p := by
        intro p hp2 hpw
        rw [winnerAt, hleaf _ (by omega)] at hpw
        exact hvalid p hp2 hpw
      obtain ⟨results, hrun, hplayed, hleaf', hreplay'⟩ :=
        ih _ hlt (t := t.setMatch (parent child) m) hstep' (by exact hlt.le.trans hchild) hvalid'
      refine ⟨results, ?_, hplayed, fun i hi => (hleaf' i hi).trans (hleaf i hi),
        fun i => (hreplay' i).trans (hreplay i)⟩
      rw [dif_pos hpos]
      simp only [winnerAt, loserAt] at hdiff hget
      rw [if_neg hdiff, Exec.bind_of_ok hget]
      exact hrun

/-- The champion leaves: all matches are up to date without it. -/
theorem Clean.updateChampionPath (hcmp : TotalPreorderCmp cmp) (h : Clean cmp t occ) {c : ℕ}
    (hc : c ∈ t.winnerAt 0) :
    ∃ results, t.updateChampionPath cmp c = .ok { t with matchResults := results }
      ∧ Clean cmp { t with matchResults := results } (fun p => occ p ∧ p ≠ c) := by
  have hplayed := h.played hcmp
  obtain ⟨-, hcL, -⟩ := hplayed.winner_under (by omega) hc
  set leaf := t.leafOffset + c with hleaf
  set t1 := t.setMatch leaf
    { t.matchResults leaf with winnerIdx := none, loserIdx := none } with ht1
  have hw : t1.winnerAt = update t.winnerAt leaf none := winnerAt_setMatch ..
  have hreplaying : Replaying t.leafOffset (Le cmp t.players) t1.winnerAt t1.loserAt t1.drawAt
      leaf := by
    rw [hw]
    refine (hplayed.replaying hc).congr (fun i hi => ?_) (fun i hi => ?_)
    · rw [loserAt_setMatch, update_of_ne (by omega)]
    · rw [drawAt_setMatch, update_of_ne (by omega)]
  have hleaves : ∀ i ≤ t.leafOffset, ∀ p,
      p ∈ t1.winnerAt (t.leafOffset + i) ↔ p = i ∧ occ i ∧ i ≠ c := by
    intro i hi p
    rw [hw]
    by_cases hic : i = c
    · rw [hic, update_self]
      simp
    · rw [update_of_ne (by omega), h.leaves.leaf i hi p]
      simp [hic]
  have hvalid : ∀ p, t.leafOffset + p ≤ 2 * t.leafOffset → p ∈ t1.winnerAt (t.leafOffset + p) →
      t.Valid p := by
    intro p hp hpw
    exact h.leaves.valid p ((hleaves p (by omega) p).1 hpw).2.1
  obtain ⟨results, hrun, hupdated, hkeep, hreplay⟩ :=
    pathLoop_spec (t := t1) hcmp hreplaying hcL hvalid
  refine ⟨results, hrun,
    ⟨fun p hp => h.leaves.valid p hp.1, fun p hp => h.leaves.inside p hp.1, ?_⟩,
    hupdated, ?_⟩
  · intro i hi p
    have hkeep' := hkeep (t.leafOffset + i) (Nat.le_add_right _ _)
    rw [← hleaves i hi p, winnerAt, winnerAt, ← hkeep']
  · intro i hi
    have hlt : i < t.leafOffset := hi
    rw [← h.quiet i hi]
    refine (hreplay i).trans ?_
    rw [matchResults_setMatch, if_neg (by omega)]

end State

end LoserTree

end OceanBase.Container
