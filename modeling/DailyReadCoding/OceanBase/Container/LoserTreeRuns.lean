import DailyReadCoding.OceanBase.Container.LoserTreeMatches

/-!
# Runs of `ObLoserTree`

The slots that are not on the free list hold the live players. Every call changes them by the player
that is pushed or by the champion that is popped, and whenever no rebuild is due the champion is a
minimal live player.
-/

namespace OceanBase.Container

open BinaryHeap Tournament List Function Multiset Option Exec

variable {T : Type}

namespace LoserTree

/-! ## The slots -/

def IsFree (t : LoserTree T) (p : ℕ) : Prop := ∃ k < t.curFreeCnt, t.freePlayers k = p

instance (t : LoserTree T) (p : ℕ) : Decidable (t.IsFree p) :=
  inferInstanceAs (Decidable (∃ k < t.curFreeCnt, t.freePlayers k = p))

/-- What is in a slot. -/
def slot (t : LoserTree T) (p : ℕ) : Multiset T :=
  if t.IsFree p then 0
  else
    match t.players p with
    | some x => {x}
    | none => 0

/-- The live players. -/
def live (t : LoserTree T) : Multiset T := ∑ p ∈ Finset.range t.playerCnt, t.slot p

def Occupied (t : LoserTree T) (p : ℕ) : Prop := p < t.playerCnt ∧ ¬ t.IsFree p

/-- The free list names different slots. -/
structure FreeList (t : LoserTree T) : Prop where
  cnt_le : t.curFreeCnt ≤ t.playerCnt
  lt : ∀ k < t.curFreeCnt, t.freePlayers k < t.playerCnt
  inj : ∀ k < t.curFreeCnt, ∀ l < t.curFreeCnt, t.freePlayers k = t.freePlayers l → k = l

variable {c p : ℕ}

section Slots

variable {t t' : LoserTree T}

lemma mem_live {y : T} : y ∈ t.live ↔ ∃ p, t.Occupied p ∧ y ∈ t.players p := by
  rw [live, mem_sum]
  constructor
  · rintro ⟨p, hp, hy⟩
    rw [slot] at hy
    split_ifs at hy with hfree
    · simp at hy
    · refine ⟨p, ⟨Finset.mem_range.1 hp, hfree⟩, ?_⟩
      cases hx : t.players p with
      | none => simp [hx] at hy
      | some x => simpa [hx, eq_comm] using hy
  · rintro ⟨p, ⟨hlt, hfree⟩, hy⟩
    refine ⟨p, Finset.mem_range.2 hlt, ?_⟩
    rw [mem_def] at hy
    simp [slot, hfree, hy]

/-- Two trees that differ in one slot, which is empty in one of them. -/
lemma live_eq_cons {x : T} (hcnt : t'.playerCnt = t.playerCnt) (hc : t.Occupied c)
    (hx : x ∈ t.players c) (hfree : t'.IsFree c) (hsame : ∀ p ≠ c, t'.slot p = t.slot p) :
    t.live = x ::ₘ t'.live := by
  have hmem : c ∈ Finset.range t.playerCnt := Finset.mem_range.2 hc.1
  have hslot : t.slot c = {x} := by
    rw [mem_def] at hx
    simp [slot, hc.2, hx]
  have hslot' : t'.slot c = 0 := by simp [slot, hfree]
  rw [live, live, hcnt, ← Finset.add_sum_erase _ _ hmem, ← Finset.add_sum_erase _ _ hmem, hslot,
    hslot', zero_add, singleton_add]
  congr 1
  exact Finset.sum_congr rfl fun p hp => (hsame p (Finset.ne_of_mem_erase hp)).symm

lemma FreeList.card_free (h : t.FreeList) :
    ((Finset.range t.playerCnt).filter t.IsFree).card = t.curFreeCnt := by
  have himage : (Finset.range t.playerCnt).filter t.IsFree
      = (Finset.range t.curFreeCnt).image t.freePlayers := by
    ext p
    simp only [Finset.mem_filter, Finset.mem_range, Finset.mem_image]
    constructor
    · rintro ⟨-, k, hk, hkp⟩
      exact ⟨k, hk, hkp⟩
    · rintro ⟨k, hk, rfl⟩
      exact ⟨h.lt k hk, k, hk, rfl⟩
  rw [himage, Finset.card_image_of_injOn, Finset.card_range]
  intro k hk l hl
  exact h.inj k (by simpa using hk) l (by simpa using hl)

/-- Every slot is free or has one live player. -/
lemma FreeList.card_live (h : t.FreeList) (hstored : ∀ p, t.Occupied p → ∃ x, x ∈ t.players p) :
    Multiset.card t.live + t.curFreeCnt = t.playerCnt := by
  have hslot : ∀ p ∈ Finset.range t.playerCnt,
      Multiset.card (t.slot p) = if ¬ t.IsFree p then 1 else 0 := by
    intro p hp
    by_cases hfree : t.IsFree p
    · simp [slot, hfree]
    · obtain ⟨x, hx⟩ := hstored p ⟨Finset.mem_range.1 hp, hfree⟩
      rw [mem_def] at hx
      simp [slot, hfree, hx]
  rw [live, card_sum, Finset.sum_congr rfl hslot, ← Finset.card_filter, ← h.card_free,
    add_comm, Finset.card_filter_add_card_filter_not, Finset.card_range]

end Slots

/-! ## The states between two calls -/

/-- More than one slot: the matches are in use. -/
structure Multi (t : LoserTree T) : Prop where
  cnt : 1 < t.playerCnt
  leaves : t.playerCnt ≤ t.leafOffset + 1
  free : t.FreeList

/-- No rebuild is due. -/
structure AtRest (cmp : T → T → ℤ) (t : LoserTree T) : Prop where
  multi : t.Multi
  clean : Clean cmp t t.Occupied
  ready : t.needRebuild = false
  unique : t.isUniqueChampion = false ↔
    ∃ c ∈ t.winnerAt 0, ∃ q, q ≠ c ∧ t.Occupied q ∧ Le cmp t.players q c

/-- There were pushes since the last rebuild. -/
structure Loading (cmp : T → T → ℤ) (t : LoserTree T) : Prop where
  multi : t.Multi
  pending : ∃ was ch, Pending cmp t t.Occupied was ch t.leafOffset
  due : t.needRebuild = true
  pushed : t.curFreeCnt < t.playerCnt

/-- A tree of one slot, which has no matches. -/
structure Single (t : LoserTree T) : Prop where
  cnt : t.playerCnt = 1
  free : t.FreeList
  first : t.freePlayers 0 = 0
  stored : t.curFreeCnt = 0 → ∃ x, x ∈ t.players 0
  unique : t.isUniqueChampion = true

inductive Inv (cmp : T → T → ℤ) (t : LoserTree T) : Prop
  | single (h : t.Single)
  | atRest (h : AtRest cmp t)
  | loading (h : Loading cmp t)

variable {occ : ℕ → Prop}

section States

variable {cmp : T → T → ℤ} {t : LoserTree T}

lemma Single.occupied_iff (h : t.Single) : t.Occupied p ↔ p = 0 ∧ t.curFreeCnt = 0 := by
  have hcnt := h.cnt
  constructor
  · rintro ⟨hlt, hfree⟩
    by_contra hcur
    exact hfree ⟨0, by omega, by rw [h.first]; omega⟩
  · rintro ⟨rfl, hcur⟩
    refine ⟨by omega, ?_⟩
    rintro ⟨k, hk, -⟩
    omega

lemma Inv.stored (h : Inv cmp t) : ∀ p, t.Occupied p → ∃ x, x ∈ t.players p := by
  intro p hp
  cases h with
  | single h =>
    obtain ⟨rfl, hcur⟩ := h.occupied_iff.1 hp
    exact h.stored hcur
  | atRest h => exact (h.clean.leaves.valid p hp).2
  | loading h =>
    obtain ⟨was, ch, hpending⟩ := h.pending
    exact (hpending.leaves.valid p hp).2

lemma Inv.freeList (h : Inv cmp t) : t.FreeList := by
  cases h with
  | single h => exact h.free
  | atRest h => exact h.multi.free
  | loading h => exact h.multi.free

lemma Inv.card_live (h : Inv cmp t) : Multiset.card t.live + t.curFreeCnt = t.playerCnt :=
  h.freeList.card_live h.stored

lemma le_nextPow2 {n : ℕ} (hn : 1 < n) : n ≤ nextPow2 n := by
  have hlt := Nat.lt_size_self (n - 1)
  rw [nextPow2, if_pos (by omega)]
  omega

lemma init_isFree {n : ℕ} (hp : p < n) : (init n : LoserTree T).IsFree p :=
  ⟨n - 1 - p, show n - 1 - p < n by omega, show n - 1 - (n - 1 - p) = p by omega⟩

lemma init_freeList (n : ℕ) : (init n : LoserTree T).FreeList where
  cnt_le := le_rfl
  lt k hk := by
    have hk' : k < n := hk
    show n - 1 - k < n
    omega
  inj k hk l hl h := by
    have hk' : k < n := hk
    have hl' : l < n := hl
    have h' : n - 1 - k = n - 1 - l := h
    omega

lemma init_inv (cmp : T → T → ℤ) {n : ℕ} (hn : 0 < n) : Inv cmp (init n : LoserTree T) := by
  have hnone : ∀ p, ¬ (init n : LoserTree T).Occupied p := fun p hp => hp.2 (init_isFree hp.1)
  rcases eq_or_lt_of_le (Nat.succ_le_of_lt hn) with rfl | hn'
  · exact .single ⟨rfl, init_freeList 1, rfl, fun h => absurd h one_ne_zero, rfl⟩
  · have hleaf : (init n : LoserTree T).leafOffset = nextPow2 n - 1 := by
      show (getMatchCnt n - 1) / 2 = _
      rw [getMatchCnt, if_neg (by omega)]
      omega
    have hpow := le_nextPow2 hn'
    refine .atRest ⟨⟨hn', by rw [hleaf]; show n ≤ _; omega, init_freeList n⟩,
      ⟨⟨?_, ?_, ?_⟩, ?_, ?_⟩,
      rfl, ?_⟩
    · exact fun p hp => absurd hp (hnone p)
    · exact fun p hp => absurd hp (hnone p)
    · exact fun i _ p => iff_of_false (by simp [winnerAt, init, MatchResult.reset])
        fun h => hnone i h.2
    · intro i _
      refine ⟨.inl ⟨rfl, rfl⟩, ?_, ?_⟩
      · simp [loserAt, init, MatchResult.reset]
      · simp [drawAt, loserAt, init, MatchResult.reset]
    · exact fun i _ => rfl
    · simp [winnerAt, init, MatchResult.reset]

/-! ## `push` -/

section

variable {k : ℕ} {t' : LoserTree T} (hfree : t.FreeList) (hcur : t.curFreeCnt = k + 1)
  (hcur' : t'.curFreeCnt = k) (hsame : t'.freePlayers = t.freePlayers)

include hfree hcur hcur' hsame

lemma isFree_take (p : ℕ) : t'.IsFree p ↔ t.IsFree p ∧ p ≠ t.freePlayers k := by
  constructor
  · rintro ⟨l, hl, rfl⟩
    rw [hsame]
    refine ⟨⟨l, by omega, rfl⟩, fun heq => ?_⟩
    have := hfree.inj l (by omega) k (by omega) heq
    omega
  · rintro ⟨⟨l, hl, rfl⟩, hne⟩
    have hlk : l ≠ k := fun h => hne (by rw [h])
    exact ⟨l, by omega, by rw [hsame]⟩

lemma occupied_take (hcnt : t'.playerCnt = t.playerCnt) :
    t'.Occupied = fun p => t.Occupied p ∨ p = t.freePlayers k := by
  have hlt := hfree.lt k (by omega)
  funext p
  rw [Occupied, Occupied, isFree_take hfree hcur hcur' hsame, hcnt]
  by_cases hp : p = t.freePlayers k
  · simp [hp, hlt]
  · simp [hp]

lemma FreeList.take (hcnt : t'.playerCnt = t.playerCnt) : t'.FreeList where
  cnt_le := by
    have := hfree.cnt_le
    omega
  lt l hl := by
    rw [hsame, hcnt]
    exact hfree.lt l (by omega)
  inj l hl m hm := by
    rw [hsame]
    exact hfree.inj l (by omega) m (by omega)

end

/-- A slot is taken from the free list and filled. -/
lemma live_push {k : ℕ} (hfree : t.FreeList) {t' : LoserTree T} {player : T}
    (hcur : t.curFreeCnt = k + 1) (hcur' : t'.curFreeCnt = k)
    (hsame : t'.freePlayers = t.freePlayers) (hcnt : t'.playerCnt = t.playerCnt)
    (hplayers : t'.players = update t.players (t.freePlayers k) (some player)) :
    t'.live = player ::ₘ t.live := by
  have hiff := isFree_take hfree hcur hcur' hsame
  have hlt := hfree.lt k (by omega)
  refine live_eq_cons (c := t.freePlayers k) hcnt.symm ⟨by rw [hcnt]; exact hlt, ?_⟩ ?_
    ⟨k, by omega, rfl⟩ ?_
  · rw [hiff]
    exact fun h => h.2 rfl
  · rw [hplayers, mem_def, update_self]
  · intro p hp
    have hp' : t'.IsFree p ↔ t.IsFree p := by
      rw [hiff]
      exact ⟨fun h => h.1, fun h => ⟨h, hp⟩⟩
    simp only [slot, hp', hplayers, update_of_ne hp]

/-- The matches do not depend on the free list and the flags. -/
lemma Pending.withFlags {was : ℕ → Option ℕ} {ch : ℕ → Bool} {j : ℕ}
    (h : Pending cmp t occ was ch j) (free : ℕ → ℕ) (cur : ℕ) (due unique : Bool) :
    Pending cmp { t with
        freePlayers := free
        curFreeCnt := cur
        needRebuild := due
        isUniqueChampion := unique } occ was ch j :=
  ⟨⟨h.leaves.valid, h.leaves.inside, h.leaves.leaf⟩, h.bound, h.outcome, h.quiet, h.old, h.marks,
    h.same, h.waiting, h.occupied, h.fresh⟩

lemma Clean.withFlags (h : Clean cmp t occ) (free : ℕ → ℕ) (cur : ℕ) (due unique : Bool) :
    Clean cmp { t with
        freePlayers := free
        curFreeCnt := cur
        needRebuild := due
        isUniqueChampion := unique } occ :=
  ⟨⟨h.leaves.valid, h.leaves.inside, h.leaves.leaf⟩, h.outcome, h.quiet⟩

lemma Inv.single_of (h : Inv cmp t) (hcnt : t.playerCnt = 1) : t.Single := by
  cases h with
  | single h => exact h
  | atRest h => exact absurd hcnt h.multi.cnt.ne'
  | loading h => exact absurd hcnt h.multi.cnt.ne'

lemma Inv.pending (hcmp : TotalPreorderCmp cmp) (h : Inv cmp t) (hcnt : t.playerCnt ≠ 1) :
    t.Multi ∧ ∃ was ch, Pending cmp t t.Occupied was ch t.leafOffset := by
  cases h with
  | single h => exact absurd h.cnt hcnt
  | atRest h => exact ⟨h.multi, _, _, h.clean.pending hcmp⟩
  | loading h => exact ⟨h.multi, h.pending⟩

lemma Single.push (h : t.Single) {k : ℕ} (hcur : t.curFreeCnt = k + 1) (player : T) :
    ∃ t', t.push player = .ok t' ∧ t'.Single ∧ t'.live = player ::ₘ t.live
      ∧ t'.playerCnt = t.playerCnt := by
  have hk : k = 0 := by
    have := h.free.cnt_le
    have := h.cnt
    omega
  subst hk
  refine ⟨{ t with
    players := update t.players 0 (some player)
    curFreeCnt := 0
    needRebuild := true }, ?_, ?_, ?_, rfl⟩
  · have hsingle : t.isSinglePlayer = true := by simp [isSinglePlayer, h.cnt]
    rw [LoserTree.push, if_neg (by omega), if_pos hsingle]
    simp only [hcur]
    rfl
  · exact ⟨h.cnt, h.free.take hcur rfl rfl rfl, h.first, fun _ => ⟨player, by simp⟩, h.unique⟩
  · exact live_push h.free hcur rfl rfl rfl (by rw [h.first])

lemma Multi.push (hmulti : t.Multi) {was : ℕ → Option ℕ} {ch : ℕ → Bool}
    (h : Pending cmp t t.Occupied was ch t.leafOffset) {k : ℕ} (hcur : t.curFreeCnt = k + 1)
    (player : T) : ∃ t', t.push player = .ok t' ∧ Loading cmp t' ∧ t'.live = player ::ₘ t.live
      ∧ t'.playerCnt = t.playerCnt := by
  have hcnt := hmulti.cnt
  have hleaves := hmulti.leaves
  have hle := hmulti.free.cnt_le
  have hlt := hmulti.free.lt k (by omega)
  have hfree : ¬ t.Occupied (t.freePlayers k) := fun hocc => hocc.2 ⟨k, by omega, rfl⟩
  obtain ⟨up, results, ch', hup, rfl, hpush⟩ := h.push (by omega) (by omega) hlt hfree player
  have hpending := hpush.withFlags t.freePlayers k true t.isUniqueChampion
  set t' : LoserTree T := { t with
    players := update t.players (t.freePlayers k) (some player)
    matchResults := update (update t.matchResults (parent (t.leafOffset + t.freePlayers k)) up)
      (t.leafOffset + t.freePlayers k)
      { t.matchResults (t.leafOffset + t.freePlayers k) with
        winnerIdx := some (t.freePlayers k), loserIdx := some (t.freePlayers k) }
    curFreeCnt := k
    needRebuild := true }
  have hocc : t'.Occupied = fun p => t.Occupied p ∨ p = t.freePlayers k :=
    occupied_take hmulti.free hcur rfl rfl rfl
  refine ⟨t', ?_, ⟨⟨hcnt, hleaves, hmulti.free.take hcur rfl rfl rfl⟩, ⟨was, ch', ?_⟩, rfl, ?_⟩,
    live_push hmulti.free hcur rfl rfl rfl rfl, rfl⟩
  · have hsingle : ¬ t.isSinglePlayer = true := by simp [isSinglePlayer, hcnt.ne']
    have hne : t.leafOffset + t.freePlayers k ≠ parent (t.leafOffset + t.freePlayers k) := by
      unfold parent
      omega
    rw [LoserTree.push, if_neg (by omega), if_neg hsingle]
    simp only [hcur, Nat.add_sub_cancel, getLeaf]
    rw [hup]
    simp only [matchResults_setMatch, if_neg hne]
    simp only [setMatch, hcur]
    rfl
  · rw [hocc]
    exact hpending
  · show k < t.playerCnt
    omega

/-- **`push`** fails on a full tree only, and adds the player otherwise. -/
theorem push_spec (hcmp : TotalPreorderCmp cmp) (h : Inv cmp t) (player : T) :
    (t.push player = .error .sizeOverflow ∧ Multiset.card t.live = t.playerCnt) ∨
    ∃ t', t.push player = .ok t' ∧ Inv cmp t' ∧ t'.live = player ::ₘ t.live
      ∧ t'.playerCnt = t.playerCnt := by
  have hcard := h.card_live
  cases hcur : t.curFreeCnt with
  | zero => exact .inl ⟨by rw [push, if_pos hcur], by omega⟩
  | succ k =>
    right
    by_cases hsingle : t.playerCnt = 1
    · obtain ⟨t', hpush, hinv, hrest⟩ := (h.single_of hsingle).push hcur player
      exact ⟨t', hpush, .single hinv, hrest⟩
    · obtain ⟨hmulti, was, ch, hpending⟩ := h.pending hcmp hsingle
      obtain ⟨t', hpush, hinv, hrest⟩ := hmulti.push hpending hcur player
      exact ⟨t', hpush, .loading hinv, hrest⟩

/-! ## `rebuild` -/

/-- `set_unique_champion` on a played tree. -/
lemma Clean.setUniqueChampion (hcmp : TotalPreorderCmp cmp) (h : Clean cmp t occ) :
    ∃ unique, t.setUniqueChampion = { t with isUniqueChampion := unique } ∧
      (unique = false ↔ ∃ c ∈ t.winnerAt 0, ∃ q, q ≠ c ∧ occ q ∧ Le cmp t.players q c) := by
  unfold LoserTree.setUniqueChampion
  cases hw : (t.matchResults 0).winnerIdx with
  | none => exact ⟨true, rfl, by simp [winnerAt, hw]⟩
  | some c =>
    have hc : c ∈ t.winnerAt 0 := hw
    have htrans : IsTrans ℕ (Le cmp t.players) := Le.trans hcmp
    obtain ⟨-, hcL, hcw⟩ := (h.played hcmp).winner_under (by omega) hc
    have hocc := ((h.leaves.leaf c (by omega) c).1 hcw).2
    refine ⟨t.uniqueLoop (t.getLeaf c), if_pos (h.leaves.valid c hocc).1, ?_⟩
    have hdraws : t.uniqueLoop (t.getLeaf c) = false ↔
        ∃ j, Under j (t.leafOffset + c) ∧ j ≠ t.leafOffset + c ∧ t.drawAt j := by
      rw [← Bool.not_eq_true, uniqueLoop_iff]
      push Not
      rfl
    rw [hdraws, (h.played hcmp).draw_iff hc]
    constructor
    · rintro ⟨q, hne, hqL, hqw, hle⟩
      exact ⟨c, hc, q, hne, ((h.leaves.leaf q (by omega) q).1 hqw).2, hle⟩
    · rintro ⟨c', hc', q, hne, hq, hle⟩
      obtain rfl : c' = c := mem_unique hc' hc
      have hqL := h.leaves.inside q hq
      exact ⟨q, hne, by omega, (h.leaves.leaf q hqL q).2 ⟨rfl, hq⟩, hle⟩

/-- **`rebuild`** succeeds and leaves the players as they are. -/
theorem rebuild_spec (hcmp : TotalPreorderCmp cmp) (h : Inv cmp t) :
    ∃ t', t.rebuild cmp = .ok t' ∧ Inv cmp t' ∧ t'.live = t.live ∧ t'.playerCnt = t.playerCnt
      ∧ t'.needRebuild = false := by
  cases h with
  | single h =>
    refine ⟨{ t with needRebuild := false }, ?_, .single ⟨h.cnt, ?_, h.first, h.stored, h.unique⟩,
      rfl, rfl, rfl⟩
    · rw [rebuild, if_pos (by simp [isSinglePlayer, h.cnt])]
    · exact ⟨h.free.cnt_le, h.free.lt, h.free.inj⟩
  | atRest h =>
    refine ⟨t, ?_, .atRest h, rfl, rfl, h.ready⟩
    rw [rebuild, if_neg (by simp [isSinglePlayer, h.multi.cnt.ne']), if_pos h.ready]
  | loading h =>
    obtain ⟨was, ch, hpending⟩ := h.pending
    obtain ⟨results, hloop, hclean⟩ := rebuildLoop_spec hcmp hpending
    obtain ⟨unique, hset, hunique⟩ := hclean.setUniqueChampion hcmp
    have hfree : t.FreeList := h.multi.free
    refine ⟨{ t with
      matchResults := results
      isUniqueChampion := unique
      needRebuild := false }, ?_, .atRest ⟨⟨h.multi.cnt, h.multi.leaves, ?_⟩, ?_, rfl, hunique⟩,
      rfl, rfl, rfl⟩
    · rw [rebuild, if_neg (by simp [isSinglePlayer, h.multi.cnt.ne']), if_neg (by simp [h.due]),
        if_neg (by simp [empty, h.pushed.ne']), innerRebuild, bind_of_ok hloop, hset]
      rfl
    · exact ⟨hfree.cnt_le, hfree.lt, hfree.inj⟩
    · exact hclean.withFlags t.freePlayers t.curFreeCnt false unique

/-! ## `top` and `pop` -/

/-- What can be seen of a tree that needs no rebuild: it is empty and says so, or it shows a minimal
player, tells whether there is another one like it, and gives it away. -/
def Shows (cmp : T → T → ℤ) (t : LoserTree T) : Prop :=
  (t.live = 0 ∧ t.top = .error .emptyResult ∧ t.pop cmp = .error .emptyResult) ∨
  ∃ x t', t.top = .ok x ∧ t.pop cmp = .ok t' ∧ t.live = x ::ₘ t'.live
    ∧ (∀ y ∈ t'.live, cmp x y ≤ 0)
    ∧ (t.isUniqueChampion = false ↔ ∃ y ∈ t'.live, cmp x y = 0)

lemma isFree_give {t' : LoserTree T} (hcur : t'.curFreeCnt = t.curFreeCnt + 1)
    (hfree : t'.freePlayers = update t.freePlayers t.curFreeCnt c) (p : ℕ) :
    t'.IsFree p ↔ t.IsFree p ∨ p = c := by
  constructor
  · rintro ⟨l, hl, rfl⟩
    by_cases hlt : l = t.curFreeCnt
    · exact .inr (by rw [hfree, hlt, update_self])
    · exact .inl ⟨l, by omega, by rw [hfree, update_of_ne hlt]⟩
  · rintro (⟨l, hl, rfl⟩ | rfl)
    · exact ⟨l, by omega, by rw [hfree, update_of_ne hl.ne]⟩
    · exact ⟨t.curFreeCnt, by omega, by rw [hfree, update_self]⟩

lemma FreeList.give (h : t.FreeList) {t' : LoserTree T} (hc : t.Occupied c)
    (hcur : t'.curFreeCnt = t.curFreeCnt + 1)
    (hfree : t'.freePlayers = update t.freePlayers t.curFreeCnt c)
    (hcnt : t'.playerCnt = t.playerCnt) (hlt : t.curFreeCnt < t.playerCnt) : t'.FreeList where
  cnt_le := by omega
  lt l hl := by
    rw [hfree, hcnt]
    by_cases hlc : l = t.curFreeCnt
    · rw [hlc, update_self]
      exact hc.1
    · rw [update_of_ne hlc]
      exact h.lt l (by omega)
  inj l hl m hm := by
    rw [hfree]
    by_cases hlc : l = t.curFreeCnt <;> by_cases hmc : m = t.curFreeCnt
    · intro _
      rw [hlc, hmc]
    · rw [hlc, update_self, update_of_ne hmc]
      exact fun heq => absurd ⟨m, by omega, heq.symm⟩ hc.2
    · rw [hmc, update_self, update_of_ne hlc]
      exact fun heq => absurd ⟨l, by omega, heq⟩ hc.2
    · rw [update_of_ne hlc, update_of_ne hmc]
      exact h.inj l (by omega) m (by omega)

/-- A tree at rest that is not empty has a champion, and it is minimal. -/
lemma AtRest.champion (hcmp : TotalPreorderCmp cmp) (h : AtRest cmp t)
    (hlt : t.curFreeCnt < t.playerCnt) :
    ∃ c ∈ t.winnerAt 0, t.Occupied c ∧ ∀ q, t.Occupied q → Le cmp t.players c q := by
  have htrans : IsTrans ℕ (Le cmp t.players) := Le.trans hcmp
  have hplayed := h.clean.played hcmp
  have hmin : ∀ q, t.Occupied q → ∃ c ∈ t.winnerAt 0, Le cmp t.players c q := by
    intro q hq
    have hqL := h.clean.leaves.inside q hq
    exact hplayed.winner_le (Under.zero (t.leafOffset + q)) (by omega)
      ((h.clean.leaves.leaf q hqL q).2 ⟨rfl, hq⟩)
  -- not every slot is on the free list
  obtain ⟨p, hp⟩ : ∃ p, t.Occupied p := by
    have hcard := (Inv.atRest h).card_live
    obtain ⟨y, hy⟩ := card_pos_iff_exists_mem.1 (show 0 < Multiset.card t.live by omega)
    obtain ⟨p, hp, -⟩ := mem_live.1 hy
    exact ⟨p, hp⟩
  obtain ⟨c, hc, -⟩ := hmin p hp
  obtain ⟨-, hcL, hcw⟩ := hplayed.winner_under (by omega) hc
  refine ⟨c, hc, ((h.clean.leaves.leaf c (by omega) c).1 hcw).2, fun q hq => ?_⟩
  obtain ⟨c', hc', hle⟩ := hmin q hq
  rwa [mem_unique hc hc']

lemma top_of_single {x : T} (hready : t.needRebuild = false) (hlt : t.curFreeCnt < t.playerCnt)
    (hcnt : t.playerCnt = 1) (hx : x ∈ t.players 0) : t.top = .ok x := by
  have hempty : t.empty = false := by simp [empty, hlt.ne']
  have hsingle : t.isSinglePlayer = true := by simp [isSinglePlayer, hcnt]
  rw [mem_def] at hx
  simp [top, hready, hempty, hsingle, hx]

lemma top_of_champion {x : T} (hready : t.needRebuild = false)
    (hlt : t.curFreeCnt < t.playerCnt) (hcnt : 1 < t.playerCnt) (hc : c ∈ t.winnerAt 0)
    (hcl : c < t.playerCnt) (hx : x ∈ t.players c) : t.top = .ok x := by
  have hempty : t.empty = false := by simp [empty, hlt.ne']
  have hsingle : t.isSinglePlayer = false := by simp [isSinglePlayer, hcnt.ne']
  have hw : (t.matchResults 0).winnerIdx = some c := hc
  rw [mem_def] at hx
  simp [top, hready, hempty, hsingle, hw, hx, not_le.2 hcl]

lemma AtRest.pop (hcmp : TotalPreorderCmp cmp) (h : AtRest cmp t) {x : T}
    (hlt : t.curFreeCnt < t.playerCnt) (hc : c ∈ t.winnerAt 0) (hocc : t.Occupied c)
    (hx : x ∈ t.players c) : ∃ t', t.pop cmp = .ok t' ∧ AtRest cmp t' ∧ t.live = x ::ₘ t'.live
      ∧ t'.Occupied = (fun p => t.Occupied p ∧ p ≠ c) ∧ t'.players = t.players
      ∧ t'.playerCnt = t.playerCnt := by
  obtain ⟨results, hpath, hclean⟩ := h.clean.updateChampionPath hcmp hc
  obtain ⟨unique, hset, hunique⟩ := hclean.setUniqueChampion hcmp
  set t' : LoserTree T := { t with
    matchResults := results
    freePlayers := update t.freePlayers t.curFreeCnt c
    curFreeCnt := t.curFreeCnt + 1
    isUniqueChampion := unique }
  have hisFree : ∀ p, t'.IsFree p ↔ t.IsFree p ∨ p = c := isFree_give rfl rfl
  have hocc' : t'.Occupied = fun p => t.Occupied p ∧ p ≠ c := by
    funext p
    rw [Occupied, Occupied, hisFree, not_or, and_assoc]
  refine ⟨t', ?_, ⟨⟨h.multi.cnt, h.multi.leaves, ?_⟩, ?_, h.ready, ?_⟩, ?_, hocc', rfl, rfl⟩
  · have hready : ¬ t.needRebuild = true := by simp [h.ready]
    have hempty : ¬ t.empty = true := by simp [empty, hlt.ne']
    have hsingle : ¬ t.isSinglePlayer = true := by simp [isSinglePlayer, h.multi.cnt.ne']
    have hw : (t.matchResults 0).winnerIdx = some c := hc
    rw [LoserTree.pop, if_neg hready, if_neg hempty, if_neg hsingle]
    simp only [hw]
    rw [if_neg (not_le.2 hocc.1), bind_of_ok hpath, hset]
    rfl
  · exact h.multi.free.give hocc rfl rfl rfl hlt
  · rw [hocc']
    exact hclean.withFlags _ _ _ _
  · rw [hocc']
    exact hunique
  · refine live_eq_cons rfl hocc hx ((hisFree c).2 (.inr rfl)) fun p hp => ?_
    simp only [slot, hisFree, hp, or_false]
    rfl

lemma Single.pop (cmp : T → T → ℤ) (h : t.Single) {x : T} (hready : t.needRebuild = false)
    (hlt : t.curFreeCnt < t.playerCnt) (hx : x ∈ t.players 0) :
    ∃ t', t.pop cmp = .ok t' ∧ t'.Single ∧ t.live = x ::ₘ t'.live ∧ t'.live = 0
      ∧ t'.playerCnt = t.playerCnt ∧ t'.needRebuild = false := by
  have hcnt := h.cnt
  have hcur : t.curFreeCnt = 0 := by omega
  set t' : LoserTree T := { t with curFreeCnt := t.playerCnt }
  have hfree : t'.FreeList := by
    refine ⟨le_rfl, fun k hk => ?_, fun k hk l hl _ => ?_⟩
    · obtain rfl : k = 0 := by have hk' : k < t.playerCnt := hk; omega
      rw [h.first]
      omega
    · have hk' : k < t.playerCnt := hk
      have hl' : l < t.playerCnt := hl
      omega
  have hsingle : t'.Single :=
    ⟨hcnt, hfree, h.first, fun h0 => absurd (hcnt.symm.trans h0) one_ne_zero, h.unique⟩
  have hcons : t.live = x ::ₘ t'.live := by
    refine live_eq_cons rfl (h.occupied_iff.2 ⟨rfl, hcur⟩) hx ⟨0, ?_, h.first⟩ fun p hp => ?_
    · show 0 < t.playerCnt
      omega
    · have hp' : ¬ t'.IsFree p := by
        rintro ⟨k, hk, hkp⟩
        obtain rfl : k = 0 := by have hk' : k < t.playerCnt := hk; omega
        exact hp (hkp.symm.trans h.first)
      have hpt : ¬ t.IsFree p := by
        rintro ⟨k, hk, -⟩
        omega
      rw [slot, slot, if_neg hp', if_neg hpt]
  refine ⟨t', ?_, hsingle, hcons, ?_, rfl, hready⟩
  · rw [LoserTree.pop, if_neg (by simp [hready]), if_neg (by simp [empty, hlt.ne']),
      if_pos (by simp [isSinglePlayer, hcnt])]
  · have hcard := hfree.card_live (fun p hp => by
      obtain ⟨-, h0⟩ := hsingle.occupied_iff.1 hp
      exact absurd (hcnt.symm.trans h0) one_ne_zero)
    rw [← card_eq_zero]
    have hcur' : t'.curFreeCnt = t.playerCnt := rfl
    have hcnt' : t'.playerCnt = t.playerCnt := rfl
    omega

/-- **A tree that needs no rebuild shows a minimal player**, and stays in order when that is
popped. -/
theorem shows_of_inv (hcmp : TotalPreorderCmp cmp) (h : Inv cmp t)
    (hready : t.needRebuild = false) :
    Shows cmp t ∧ ∀ t', t.pop cmp = .ok t' →
      Inv cmp t' ∧ t'.needRebuild = false ∧ t'.playerCnt = t.playerCnt := by
  have hcard := h.card_live
  rcases eq_or_lt_of_le h.freeList.cnt_le with hfull | hlt
  · have hlive : t.live = 0 := card_eq_zero.1 (by omega)
    have hempty : t.empty = true := by simp [empty, hfull]
    have hpop : t.pop cmp = .error .emptyResult := by simp [pop, hready, hempty]
    refine ⟨.inl ⟨hlive, by simp [top, hready, hempty], hpop⟩, fun t' ht' => ?_⟩
    rw [hpop] at ht'
    cases ht'
  · cases h with
    | single h =>
      have hcnt := h.cnt
      obtain ⟨x, hx⟩ := h.stored (by omega)
      obtain ⟨t', hpop, hsingle, hcons, hzero, hcnt', hready'⟩ := h.pop cmp hready hlt hx
      refine ⟨.inr ⟨x, t', top_of_single hready hlt hcnt hx, hpop, hcons, ?_, ?_⟩, ?_⟩
      · simp [hzero]
      · simp [hzero, h.unique]
      · intro t'' ht''
        obtain rfl : t' = t'' := Except.ok.inj (hpop.symm.trans ht'')
        exact ⟨.single hsingle, hready', hcnt'⟩
    | loading h => exact absurd (hready.symm.trans h.due) Bool.false_ne_true
    | atRest h =>
      obtain ⟨c, hc, hocc, hmin⟩ := h.champion hcmp hlt
      obtain ⟨x, hx⟩ := (Inv.atRest h).stored c hocc
      obtain ⟨t', hpop, hrest, hcons, hocc', hplayers, hcnt⟩ := h.pop hcmp hlt hc hocc hx
      have hle : ∀ y ∈ t'.live, cmp x y ≤ 0 := by
        intro y hy
        obtain ⟨q, hq, hyq⟩ := mem_live.1 hy
        rw [hocc'] at hq
        rw [hplayers] at hyq
        exact (Le.iff hx hyq).1 (hmin q hq.1)
      refine ⟨.inr ⟨x, t', top_of_champion h.ready hlt h.multi.cnt hc hocc.1 hx, hpop, hcons, hle,
        ?_⟩, ?_⟩
      · rw [h.unique]
        constructor
        · rintro ⟨c', hc', q, hne, hq, hqc⟩
          obtain rfl : c = c' := mem_unique hc hc'
          obtain ⟨y, hy⟩ := (Inv.atRest h).stored q hq
          have hyt : y ∈ t'.live := by
            refine mem_live.2 ⟨q, ?_, hplayers ▸ hy⟩
            rw [hocc']
            exact ⟨hq, hne⟩
          have hyx := (hcmp.le_iff x y).1 ((Le.iff hy hx).1 hqc)
          exact ⟨y, hyt, le_antisymm (hle y hyt) hyx⟩
        · rintro ⟨y, hy, hxy⟩
          obtain ⟨q, hq, hyq⟩ := mem_live.1 hy
          rw [hocc'] at hq
          rw [hplayers] at hyq
          exact ⟨c, hc, q, hq.2, hq.1, (Le.iff hyq hx).2 ((hcmp.le_iff x y).2 hxy.ge)⟩
      · intro t'' ht''
        obtain rfl : t' = t'' := Except.ok.inj (hpop.symm.trans ht'')
        exact ⟨.atRest hrest, hrest.ready, hcnt⟩

/-! ## Draining -/

/-- `top` and `pop` until the tree is empty, at most `fuel` times. -/
def drain (cmp : T → T → ℤ) : ℕ → LoserTree T → Except LoserTreeErr (List T)
  | 0, _ => .ok []
  | fuel + 1, t =>
    if t.empty then .ok []
    else do
      let player ← t.top
      let t ← t.pop cmp
      let rest ← drain cmp fuel t
      pure (player :: rest)

/-- **Draining yields the live players in order.** -/
theorem drain_spec (hcmp : TotalPreorderCmp cmp) (h : Inv cmp t) (hready : t.needRebuild = false)
    {fuel : ℕ} (hfuel : Multiset.card t.live ≤ fuel) :
    ∃ out, t.drain cmp fuel = .ok out ∧ out.Pairwise (fun x y => cmp x y ≤ 0)
      ∧ (out : Multiset T) = t.live := by
  have hcard := h.card_live
  induction fuel generalizing t with
  | zero =>
    have hlive : t.live = 0 := card_eq_zero.1 (by omega)
    exact ⟨[], rfl, .nil, hlive.symm⟩
  | succ fuel ih =>
    obtain ⟨hshows, hstep⟩ := shows_of_inv hcmp h hready
    rcases hshows with ⟨hlive, -, -⟩ | ⟨x, t', htop, hpop, hcons, hle, -⟩
    · have hempty : t.empty = true := by
        rw [hlive] at hcard
        simp [empty, ← hcard]
      exact ⟨[], by rw [drain, if_pos hempty], .nil, hlive.symm⟩
    · obtain ⟨hinv, hready', -⟩ := hstep t' hpop
      rw [hcons, card_cons] at hfuel hcard
      obtain ⟨out, hdrain, hsorted, hout⟩ := ih hinv hready' (by omega) hinv.card_live
      have hempty : ¬ t.empty = true := by
        simp only [empty, beq_iff_eq]
        omega
      refine ⟨x :: out, ?_, ?_, ?_⟩
      · rw [drain, if_neg hempty, htop, bind_of_ok (a := x) rfl, hpop,
          bind_of_ok (a := t') rfl, hdrain]
        rfl
      · refine .cons (fun y hy => hle y ?_) hsorted
        rw [← hout]
        exact hy
      · rw [hcons, ← hout]
        rfl

end States

/-! ## Runs -/

end LoserTree

open LoserTree

inductive LoserOp (T : Type)
  | push (player : T)
  | rebuild
  | top
  | pop

/-- A call that failed, and the tree it was made on. -/
structure LoserFailure (T : Type) where
  op : LoserOp T
  tree : LoserTree T
  err : LoserTreeErr

/-- The tree, the players pushed and popped so far, and the calls that failed. -/
structure LoserRun (T : Type) where
  tree : LoserTree T
  pushed : Multiset T
  popped : Multiset T
  failures : List (LoserFailure T)

namespace LoserRun

def start (playerCnt : ℕ) : LoserRun T := ⟨.init playerCnt, 0, 0, []⟩

def fail (r : LoserRun T) (op : LoserOp T) (err : LoserTreeErr) : LoserRun T :=
  { r with failures := r.failures ++ [⟨op, r.tree, err⟩] }

/-- The next call.  What `pop` gives away is the player that `top` shows. -/
def call (cmp : T → T → ℤ) (r : LoserRun T) : LoserOp T → LoserRun T
  | .push player =>
    match r.tree.push player with
    | .ok t => { r with tree := t, pushed := player ::ₘ r.pushed }
    | .error err => r.fail (.push player) err
  | .rebuild =>
    match r.tree.rebuild cmp with
    | .ok t => { r with tree := t }
    | .error err => r.fail .rebuild err
  | .top =>
    match r.tree.top with
    | .ok _ => r
    | .error err => r.fail .top err
  | .pop =>
    match r.tree.top, r.tree.pop cmp with
    | .ok player, .ok t => { r with tree := t, popped := player ::ₘ r.popped }
    | _, .error err => r.fail .pop err
    | .error err, .ok _ => r.fail .pop err

def calls (cmp : T → T → ℤ) (r : LoserRun T) (ops : List (LoserOp T)) : LoserRun T :=
  ops.foldl (call cmp) r

/-- `top` and `pop` are called only when no rebuild is due. -/
def Allows (r : LoserRun T) : LoserOp T → Prop
  | .push _ => True
  | .rebuild => True
  | .top => r.tree.needRebuild = false
  | .pop => r.tree.needRebuild = false

instance (r : LoserRun T) (op : LoserOp T) : Decidable (r.Allows op) :=
  match op with
  | .push _ => inferInstanceAs (Decidable True)
  | .rebuild => inferInstanceAs (Decidable True)
  | .top => inferInstanceAs (Decidable (r.tree.needRebuild = false))
  | .pop => inferInstanceAs (Decidable (r.tree.needRebuild = false))

/-- The calls `ops` after `r` keep to the protocol. -/
def Respects (cmp : T → T → ℤ) : LoserRun T → List (LoserOp T) → Prop
  | _, [] => True
  | r, op :: ops => r.Allows op ∧ Respects cmp (r.call cmp op) ops

instance decidableRespects (cmp : T → T → ℤ) :
    ∀ (r : LoserRun T) (ops : List (LoserOp T)), Decidable (Respects cmp r ops)
  | _, [] => inferInstanceAs (Decidable True)
  | r, op :: ops =>
    have := decidableRespects cmp (r.call cmp op) ops
    inferInstanceAs (Decidable (_ ∧ _))

end LoserRun

/-- A push into a full tree, or a read of an empty one. -/
def LoserFailure.Expected (playerCnt : ℕ) (f : LoserFailure T) : Prop :=
  match f.op with
  | .push _ => f.err = .sizeOverflow ∧ Multiset.card f.tree.live = playerCnt
  | .rebuild => False
  | .top => f.err = .emptyResult ∧ f.tree.live = 0
  | .pop => f.err = .emptyResult ∧ f.tree.live = 0

namespace LoserRun

/-- What holds along a run. -/
structure Good (cmp : T → T → ℤ) (n : ℕ) (r : LoserRun T) : Prop where
  inv : LoserTree.Inv cmp r.tree
  cnt : r.tree.playerCnt = n
  account : r.tree.live + r.popped = r.pushed
  failures : ∀ f ∈ r.failures, f.Expected n

variable {cmp : T → T → ℤ} {n : ℕ} {r : LoserRun T}

lemma Good.fail (h : Good cmp n r) {op : LoserOp T} {err : LoserTreeErr}
    (hexpected : LoserFailure.Expected n ⟨op, r.tree, err⟩) : Good cmp n (r.fail op err) := by
  refine ⟨h.inv, h.cnt, h.account, fun f hf => ?_⟩
  rcases mem_append.1 hf with hf | hf
  · exact h.failures f hf
  · rw [List.mem_singleton.1 hf]
    exact hexpected

lemma Good.call (hcmp : TotalPreorderCmp cmp) (h : Good cmp n r) {op : LoserOp T}
    (hop : r.Allows op) : Good cmp n (r.call cmp op) := by
  cases op with
  | push player =>
    rcases push_spec hcmp h.inv player with ⟨herr, hfull⟩ | ⟨t', hok, hinv, hlive, hcnt⟩
    · simp only [LoserRun.call, herr]
      exact h.fail ⟨rfl, hfull.trans h.cnt⟩
    · simp only [LoserRun.call, hok]
      refine ⟨hinv, hcnt.trans h.cnt, ?_, h.failures⟩
      rw [hlive, cons_add, h.account]
  | rebuild =>
    obtain ⟨t', hok, hinv, hlive, hcnt, -⟩ := rebuild_spec hcmp h.inv
    simp only [LoserRun.call, hok]
    exact ⟨hinv, hcnt.trans h.cnt, by rw [hlive, h.account], h.failures⟩
  | top =>
    rcases (shows_of_inv hcmp h.inv hop).1 with ⟨hlive, htop, -⟩ | ⟨x, t', htop, -⟩
    · simp only [LoserRun.call, htop]
      exact h.fail ⟨rfl, hlive⟩
    · simp only [LoserRun.call, htop]
      exact h
  | pop =>
    obtain ⟨hshows, hstep⟩ := shows_of_inv hcmp h.inv hop
    rcases hshows with ⟨hlive, htop, hpop⟩ | ⟨x, t', htop, hpop, hcons, -⟩
    · simp only [LoserRun.call, hpop]
      exact h.fail ⟨rfl, hlive⟩
    · obtain ⟨hinv, -, hcnt⟩ := hstep t' hpop
      simp only [LoserRun.call, htop, hpop]
      refine ⟨hinv, hcnt.trans h.cnt, ?_, h.failures⟩
      rw [← h.account, hcons, cons_add, add_cons]

lemma Good.calls (hcmp : TotalPreorderCmp cmp) (h : Good cmp n r) {ops : List (LoserOp T)}
    (hops : Respects cmp r ops) : Good cmp n (r.calls cmp ops) := by
  induction ops generalizing r with
  | nil => exact h
  | cons op ops ih => exact ih (h.call hcmp hops.1) hops.2

lemma start_good (cmp : T → T → ℤ) (hn : 0 < n) : Good cmp n (start n : LoserRun T) := by
  have hlive : (init n : LoserTree T).live = 0 :=
    Finset.sum_eq_zero fun p hp => if_pos (init_isFree (Finset.mem_range.1 hp))
  refine ⟨init_inv cmp hn, rfl, ?_, fun f hf => absurd hf not_mem_nil⟩
  show (init n : LoserTree T).live + 0 = 0
  rw [hlive, add_zero]

/-- **`ObLoserTree`.** Along every run that keeps to the protocol, for every total preorder: the
only failures are pushes into a full tree and reads of an empty one; the live players are those
pushed and not popped; and whenever no rebuild is due the tree shows a minimal player, tells whether
another one compares equal, and draining it yields the live players in order. -/
theorem loserTree_run_spec (cmp : T → T → ℤ) (hcmp : TotalPreorderCmp cmp) (n : ℕ) (hn : 0 < n)
    (ops : List (LoserOp T)) (hops : Respects cmp (start n) ops) :
    (∀ f ∈ ((start n).calls cmp ops).failures, f.Expected n) ∧
    ((start n).calls cmp ops).tree.live + ((start n).calls cmp ops).popped
      = ((start n).calls cmp ops).pushed ∧
    (((start n).calls cmp ops).tree.needRebuild = false → ((start n).calls cmp ops).tree.Shows cmp ∧
      ∃ out, ((start n).calls cmp ops).tree.drain cmp n = .ok out
        ∧ out.Pairwise (fun x y => cmp x y ≤ 0)
        ∧ (out : Multiset T) = ((start n).calls cmp ops).tree.live) := by
  have hgood := (start_good cmp hn).calls hcmp hops
  refine ⟨hgood.failures, hgood.account, fun hready =>
    ⟨(shows_of_inv hcmp hgood.inv hready).1, drain_spec hcmp hgood.inv hready ?_⟩⟩
  have hcard := hgood.inv.card_live
  have hcnt := hgood.cnt
  omega

/-- Players with a key and a name, compared by their keys. -/
def byKey (x y : ℕ × ℕ) : ℤ := x.1 - y.1

lemma byKey_preorder : TotalPreorderCmp byKey where
  swap x y := by
    unfold byKey
    omega
  trans x y z := by
    unfold byKey
    omega

/-- Two equal keys behind a smaller one, which is popped and replaced. -/
def tiedOps : List (LoserOp (ℕ × ℕ)) :=
  [.push (2, 0), .push (1, 1), .push (2, 2), .rebuild, .top, .pop, .push (3, 3), .rebuild]

theorem loserTree_run_spec_tied : Respects byKey (start 3) tiedOps ∧
    ((start 3).calls byKey tiedOps).tree.Shows byKey ∧
    ∃ out, ((start 3).calls byKey tiedOps).tree.drain byKey 3 = .ok out
      ∧ out.Pairwise (fun x y => byKey x y ≤ 0)
      ∧ (out : Multiset (ℕ × ℕ)) = ((start 3).calls byKey tiedOps).tree.live := by
  have hops : Respects byKey (start 3) tiedOps := by decide +kernel
  have hspec := loserTree_run_spec byKey byKey_preorder 3 (by decide) tiedOps hops
  exact ⟨hops, hspec.2.2 (by decide +kernel)⟩

end LoserRun

end OceanBase.Container
