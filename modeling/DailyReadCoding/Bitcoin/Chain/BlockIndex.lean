import DailyReadCoding.Lib.Exec
import DailyReadCoding.Lib.ParentTree

/-!
# The block index and its skip list

`CBlockIndex` (`chain.h`, `chain.cpp`): every block points to its predecessor and, once `BuildSkip`
was called on it, to some further predecessor. `GetAncestor` goes back by either.
-/

namespace Bitcoin.Chain

open ParentTree Function

variable {B : Type}

/-- What the walks read of a `CBlockIndex`. -/
structure CBlockIndex (B : Type) where
  pprev : Option B
  pskip : Option B
  nHeight : ℕ
  deriving DecidableEq

/-- The blocks that exist. -/
abbrev BlockMap (B : Type) : Type := B → Option (CBlockIndex B)

inductive Fault
  /-- A failed assertion. -/
  | assert
  /-- A block is read that does not exist. -/
  | null
  /-- An entry of a vector is read behind its end. -/
  | outOfRange
  /-- A loop that has not ended after the rounds it was given. -/
  | hang
  deriving DecidableEq

/-! ## `GetAncestor` -/

def invertLowestOne (n : ℕ) : ℕ := n &&& (n - 1)

def getSkipHeight (height : ℕ) : ℕ :=
  if height < 2 then 0
  else if height &&& 1 ≠ 0 then invertLowestOne (invertLowestOne (height - 1)) + 1
  else invertLowestOne height

lemma invertLowestOne_le (n : ℕ) : invertLowestOne n ≤ n - 1 := Nat.and_le_right

/-- A skip always goes back, so that every walk ends. -/
lemma getSkipHeight_lt {height : ℕ} (h : 0 < height) : getSkipHeight height < height := by
  unfold getSkipHeight
  split_ifs with hsmall hodd
  · exact h
  · have houter := invertLowestOne_le (invertLowestOne (height - 1))
    have hinner := invertLowestOne_le (height - 1)
    omega
  · have hle := invertLowestOne_le height
    omega

/-- When `GetAncestor` follows a skip pointer; `heightSkip - 2` is a signed difference. -/
def takesSkip (height heightWalk : ℕ) : Bool :=
  let heightSkip := getSkipHeight heightWalk
  let heightSkipPrev := getSkipHeight (heightWalk - 1)
  heightSkip == height ||
    (decide (heightSkip > height) &&
      !(decide (heightSkipPrev + 2 < heightSkip) && decide (heightSkipPrev ≥ height)))

/-- The loop of `GetAncestor`. -/
def ancestorLoop (index : BlockMap B) (height heightWalk : ℕ) (pindexWalk : B) : Except Fault B :=
  if _h : heightWalk > height then
    match index pindexWalk with
    | none => .error .null
    | some node =>
      match if takesSkip height heightWalk then node.pskip else none with
      | some pskip => ancestorLoop index height (getSkipHeight heightWalk) pskip
      | none =>
        match node.pprev with
        | some pprev => ancestorLoop index height (heightWalk - 1) pprev
        | none => .error .assert
  else .ok pindexWalk
termination_by heightWalk
decreasing_by
  · exact getSkipHeight_lt (by omega)
  · omega

def getAncestor (index : BlockMap B) (b : B) (height : ℤ) : Except Fault (Option B) :=
  match index b with
  | none => .error .null
  | some node =>
    if height > node.nHeight ∨ height < 0 then .ok none
    else some <$> ancestorLoop index height.toNat node.nHeight b

/-! ## Building the index -/

variable [DecidableEq B]

def buildSkip (b : B) (index : BlockMap B) : Except Fault (BlockMap B) :=
  match index b with
  | none => .error .null
  | some node =>
    match node.pprev with
    | none => .ok index
    | some pprev => do
        let pskip ← getAncestor index pprev (getSkipHeight node.nHeight)
        pure (Function.update index b (some { node with pskip }))

/-- The new block is in the map before its predecessor is looked up. -/
def addToBlockIndex (b hashPrevBlock : B) (index : BlockMap B) : Except Fault (BlockMap B) :=
  match index b with
  | some _ => .ok index
  | none =>
    let inserted := Function.update index b (some ⟨none, none, 0⟩)
    match inserted hashPrevBlock with
    | none => .ok inserted
    | some prev =>
      buildSkip b
        (Function.update inserted b (some ⟨some hashPrevBlock, none, prev.nHeight + 1⟩))

inductive IndexOp (B : Type)
  | addToBlockIndex (b hashPrevBlock : B)
  | buildSkip (b : B)

def IndexOp.call : IndexOp B → BlockMap B → Except Fault (BlockMap B)
  | .addToBlockIndex b hashPrevBlock, index => Chain.addToBlockIndex b hashPrevBlock index
  | .buildSkip b, index => Chain.buildSkip b index

def calls : List (IndexOp B) → BlockMap B → Except Fault (BlockMap B)
  | [], index => .ok index
  | op :: ops, index => do
      let index ← op.call index
      calls ops index

/-! ## What the pointers lead to -/

section Pointers

omit [DecidableEq B]

variable {index : BlockMap B} {b p q : B} {node : CBlockIndex B}

def BlockMap.parent (index : BlockMap B) (b : B) : Option B := (index b).bind (·.pprev)

def BlockMap.height (index : BlockMap B) (b : B) : ℕ := ((index b).map (·.nHeight)).getD 0

lemma parent_of (h : index b = some node) : index.parent b = node.pprev := by
  rw [BlockMap.parent, h, Option.bind_some]

lemma height_of (h : index b = some node) : index.height b = node.nHeight := by
  rw [BlockMap.height, h]
  rfl

/-- Heights count the predecessors. -/
structure Linked (index : BlockMap B) : Prop where
  root : ∀ {b node}, index b = some node → node.pprev = none → node.nHeight = 0
  step : ∀ {b node p}, index b = some node → node.pprev = some p →
    ∃ prev, index p = some prev ∧ node.nHeight = prev.nHeight + 1

/-- Skip pointers lead to the height they were built for. -/
def SkipsRight (index : BlockMap B) : Prop :=
  ∀ {b node q}, index b = some node → node.pskip = some q →
    up index.parent (node.nHeight - getSkipHeight node.nHeight) b = some q

structure WellBuilt (index : BlockMap B) : Prop where
  linked : Linked index
  skips : SkipsRight index

lemma Linked.ranked (h : Linked index) : Ranked index.parent index.height where
  root {a} ha := by
    cases hnode : index a with
    | none => rw [BlockMap.height, hnode]; rfl
    | some node =>
      rw [parent_of hnode] at ha
      rw [height_of hnode, h.root hnode ha]
  step {a p} ha := by
    cases hnode : index a with
    | none =>
      rw [BlockMap.parent, hnode] at ha
      cases ha
    | some node =>
      rw [parent_of hnode] at ha
      obtain ⟨prev, hprev, hheight⟩ := h.step hnode ha
      rw [height_of hnode, height_of hprev, hheight]

/-- Whatever is reached from a block is a block. -/
lemma Linked.mem_up (h : Linked index) {n : ℕ} (hb : index b = some node)
    (hup : up index.parent n b = some q) : ∃ qnode, index q = some qnode := by
  induction n generalizing b node with
  | zero =>
    obtain rfl : b = q := Option.some.inj hup
    exact ⟨node, hb⟩
  | succ n ih =>
    cases hp : node.pprev with
    | none =>
      rw [up, parent_of hb, hp] at hup
      cases hup
    | some p =>
      obtain ⟨prev, hprev, -⟩ := h.step hb hp
      rw [up_succ_of_parent ((parent_of hb).trans hp)] at hup
      exact ih hprev hup

/-- **The walk finds what following `pprev` finds.** -/
lemma ancestorLoop_eq (h : WellBuilt index) {height heightWalk : ℕ} (hle : height ≤ heightWalk)
    (hb : index b = some node) (hwalk : node.nHeight = heightWalk) :
    ∃ a, up index.parent (heightWalk - height) b = some a ∧
      ancestorLoop index height heightWalk b = .ok a := by
  have hrank := h.linked.ranked
  induction heightWalk using Nat.strong_induction_on generalizing b node with
  | _ heightWalk ih =>
    rcases Nat.eq_or_lt_of_le hle with rfl | hlt
    · refine ⟨b, by rw [Nat.sub_self]; rfl, ?_⟩
      rw [ancestorLoop, dif_neg (Nat.lt_irrefl _)]
    · have hheight : index.height b = heightWalk := (height_of hb).trans hwalk
      -- a block reached on the way goes on to the same ancestor
      have hgo : ∀ {n : ℕ} {q : B}, 0 < n → height + n ≤ heightWalk → up index.parent n b = some q →
          ∃ a, up index.parent (heightWalk - height) b = some a ∧
            ancestorLoop index height (heightWalk - n) q = .ok a := by
        intro n q hn hroom hq
        obtain ⟨qnode, hqnode⟩ := h.linked.mem_up hb hq
        have hqheight := hrank.height_up hq
        rw [height_of hqnode] at hqheight
        obtain ⟨a, ha, hloop⟩ := ih (heightWalk - n) (by omega) (by omega) hqnode (by omega)
        refine ⟨a, ?_, hloop⟩
        rw [← ha, ← up_of_up hq]
        congr 1
        omega
      have hback := getSkipHeight_lt (show 0 < heightWalk by omega)
      rw [ancestorLoop, dif_pos hlt, hb]
      dsimp only
      split
      · rename_i pskip htake
        split_ifs at htake with hskip
        have hup := h.skips hb htake
        rw [hwalk] at hup
        have hreach : height ≤ getSkipHeight heightWalk := by
          simp only [takesSkip, Bool.or_eq_true, beq_iff_eq, Bool.and_eq_true,
            decide_eq_true_iff] at hskip
          omega
        obtain ⟨a, ha, hloop⟩ := hgo (by omega) (by omega) hup
        rw [show heightWalk - (heightWalk - getSkipHeight heightWalk) = getSkipHeight heightWalk by
          omega] at hloop
        exact ⟨a, ha, hloop⟩
      · cases hp : node.pprev with
        | none =>
          have := h.linked.root hb hp
          omega
        | some p =>
          have hup : up index.parent 1 b = some p := up_succ_of_parent ((parent_of hb).trans hp) 0
          exact hgo (by omega) (by omega) hup

/-- In such an index `GetAncestor` finds what following `pprev` finds. -/
lemma getAncestor_eq (h : WellBuilt index) (hb : index b = some node) {height : ℤ}
    (hlow : 0 ≤ height) (hhigh : height ≤ node.nHeight) :
    ∃ a, up index.parent (node.nHeight - height.toNat) b = some a ∧
      getAncestor index b height = .ok (some a) := by
  have hle : height.toNat ≤ node.nHeight := by omega
  obtain ⟨a, ha, hloop⟩ := ancestorLoop_eq h hle hb rfl
  refine ⟨a, ha, ?_⟩
  rw [getAncestor, hb]
  dsimp only
  rw [if_neg (by omega), hloop]
  rfl

lemma getAncestor_outside (hb : index b = some node) {height : ℤ}
    (hout : height < 0 ∨ node.nHeight < height) : getAncestor index b height = .ok none := by
  rw [getAncestor, hb]
  exact if_pos (by omega)

end Pointers

/-! ## Building keeps the pointers right -/

section Building

variable {index : BlockMap B} {b p : B} {node : CBlockIndex B}

/-- A new skip pointer changes neither predecessors nor heights. -/
lemma parent_setSkip (hb : index b = some node) (pskip : Option B) :
    BlockMap.parent (update index b (some { node with pskip })) = index.parent := by
  funext c
  by_cases hc : c = b
  · subst hc
    rw [parent_of (update_self ..), parent_of hb]
  · rw [BlockMap.parent, update_of_ne hc, BlockMap.parent]

lemma WellBuilt.setSkip (h : WellBuilt index) (hb : index b = some node) {q : B}
    (hq : up index.parent (node.nHeight - getSkipHeight node.nHeight) b = some q) :
    WellBuilt (update index b (some { node with pskip := some q })) := by
  have hpar := parent_setSkip hb (some q)
  -- what is stored at a block, up to its skip pointer, was stored there before
  have hold : ∀ {c cnode}, update index b (some { node with pskip := some q }) c = some cnode →
      ∃ cnode', index c = some cnode' ∧ cnode'.pprev = cnode.pprev ∧
      cnode'.nHeight = cnode.nHeight ∧
        (cnode' = cnode ∨ c = b ∧ cnode.pskip = some q) := by
    intro c cnode hc
    by_cases hcb : c = b
    · subst hcb
      rw [update_self, Option.some.injEq] at hc
      subst hc
      exact ⟨node, hb, rfl, rfl, .inr ⟨rfl, rfl⟩⟩
    · rw [update_of_ne hcb] at hc
      exact ⟨cnode, hc, rfl, rfl, .inl rfl⟩
  refine ⟨⟨?_, ?_⟩, ?_⟩
  · intro c cnode hc hroot
    obtain ⟨cnode', hc', hprev, hheight, -⟩ := hold hc
    rw [← hheight]
    exact h.linked.root hc' (hprev.trans hroot)
  · intro c cnode p hc hp
    obtain ⟨cnode', hc', hprev, hheight, -⟩ := hold hc
    obtain ⟨prev, hprev', hstep⟩ := h.linked.step hc' (hprev.trans hp)
    rw [← hheight, hstep]
    by_cases hpb : p = b
    · subst hpb
      rw [hprev', Option.some.injEq] at hb
      subst hb
      exact ⟨_, update_self .., rfl⟩
    · exact ⟨prev, by rw [update_of_ne hpb, hprev'], rfl⟩
  · intro c cnode r hc hr
    rw [hpar]
    obtain ⟨cnode', hc', -, hheight, rfl | ⟨rfl, hskip⟩⟩ := hold hc
    · exact h.skips hc' hr
    · rw [hskip, Option.some.injEq] at hr
      subst hr
      rw [hb, Option.some.injEq] at hc'
      rw [← hheight, ← hc', hq]

lemma buildSkip_wellBuilt (h : WellBuilt index) (hb : index b = some node) :
    ∃ index', buildSkip b index = .ok index' ∧ WellBuilt index' := by
  cases hp : node.pprev with
  | none =>
    refine ⟨index, ?_, h⟩
    simp only [buildSkip, hb, hp]
  | some p =>
    obtain ⟨prev, hprev, hheight⟩ := h.linked.step hb hp
    have hlt := getSkipHeight_lt (show 0 < node.nHeight by omega)
    obtain ⟨q, hq, hget⟩ := getAncestor_eq h hprev (Int.natCast_nonneg (getSkipHeight node.nHeight))
      (by omega)
    have hup : up index.parent (node.nHeight - getSkipHeight node.nHeight) b = some q := by
      rw [← hq, Int.toNat_natCast, show node.nHeight - getSkipHeight node.nHeight =
        prev.nHeight - getSkipHeight node.nHeight + 1 by omega,
        up_succ_of_parent ((parent_of hb).trans hp)]
    refine ⟨_, ?_, h.setSkip hb hup⟩
    simp only [buildSkip, hb, hp, hget]
    rfl

lemma up_insert (h : Linked index) (hb : index b = none) (new : CBlockIndex B) {c : B}
    {cnode : CBlockIndex B} (hc : index c = some cnode) (n : ℕ) :
    up (BlockMap.parent (update index b (some new))) n c = up index.parent n c := by
  induction n generalizing c cnode with
  | zero => rfl
  | succ n ih =>
    have hcb : c ≠ b := by
      rintro rfl
      rw [hb] at hc
      cases hc
    have hpar : BlockMap.parent (update index b (some new)) c = index.parent c := by
      rw [BlockMap.parent, update_of_ne hcb, BlockMap.parent]
    rw [up, up, hpar, parent_of hc]
    cases hp : cnode.pprev with
    | none => rfl
    | some p =>
      obtain ⟨prev, hprev, -⟩ := h.step hc hp
      exact ih hprev

/-- A new block without a skip pointer, under a block that is there or as a root. -/
lemma WellBuilt.insert (h : WellBuilt index) (hb : index b = none) {new : CBlockIndex B}
    (hskip : new.pskip = none) (hroot : new.pprev = none → new.nHeight = 0)
    (hstep : ∀ p, new.pprev = some p → ∃ prev,
    index p = some prev ∧ new.nHeight = prev.nHeight + 1) :
    WellBuilt (update index b (some new)) := by
  have hstays : ∀ {c cnode}, index c = some cnode → update index b (some new) c = some cnode := by
    intro c cnode hc
    rw [update_of_ne, hc]
    rintro rfl
    rw [hb] at hc
    cases hc
  have hcases : ∀ {c cnode}, update index b (some new) c = some cnode →
      cnode = new ∨ index c = some cnode := by
    intro c cnode hc
    by_cases hcb : c = b
    · subst hcb
      rw [update_self, Option.some.injEq] at hc
      exact .inl hc.symm
    · rw [update_of_ne hcb] at hc
      exact .inr hc
  refine ⟨⟨?_, ?_⟩, ?_⟩
  · intro c cnode hc hp
    rcases hcases hc with rfl | hc
    · exact hroot hp
    · exact h.linked.root hc hp
  · intro c cnode p hc hp
    rcases hcases hc with rfl | hc
    · obtain ⟨prev, hprev, hheight⟩ := hstep p hp
      exact ⟨prev, hstays hprev, hheight⟩
    · obtain ⟨prev, hprev, hheight⟩ := h.linked.step hc hp
      exact ⟨prev, hstays hprev, hheight⟩
  · intro c cnode q hc hq
    rcases hcases hc with rfl | hc
    · rw [hskip] at hq
      cases hq
    · rw [up_insert h.linked hb new hc]
      exact h.skips hc hq

lemma addToBlockIndex_wellBuilt (h : WellBuilt index) (hne : p ≠ b) :
    ∃ index', addToBlockIndex b p index = .ok index' ∧ WellBuilt index' := by
  cases hb : index b with
  | some node => exact ⟨index, by simp only [addToBlockIndex, hb], h⟩
  | none =>
    cases hp : index p with
    | none =>
      have hnew : WellBuilt (update index b (some ⟨none, none, 0⟩)) :=
        h.insert hb rfl (fun _ => rfl) (by simp)
      refine ⟨_, ?_, hnew⟩
      simp only [addToBlockIndex, hb, update_of_ne hne, hp]
    | some prev =>
      have hnew : WellBuilt (update index b (some ⟨some p, none, prev.nHeight + 1⟩)) :=
        h.insert hb rfl (by simp) (by simp [hp])
      obtain ⟨index', hbuild, h'⟩ := buildSkip_wellBuilt hnew (update_self ..)
      refine ⟨index', ?_, h'⟩
      simp only [addToBlockIndex, hb, update_of_ne hne, hp, update_idem, hbuild]

/-- Blocks are not their own predecessors, and only blocks that exist are given skip pointers. -/
def IndexOp.Allowed : IndexOp B → BlockMap B → Prop
  | .addToBlockIndex b hashPrevBlock, _ => hashPrevBlock ≠ b
  | .buildSkip b, index => ∃ node, index b = some node

def Allowed : List (IndexOp B) → BlockMap B → Prop
  | [], _ => True
  | op :: ops, index => op.Allowed index ∧ ∀ index', op.call index = .ok index' → Allowed ops index'

/-- A new block and a skip pointer keep the index well built. -/
lemma call_wellBuilt (h : WellBuilt index) (op : IndexOp B) (hop : op.Allowed index) :
    ∃ index', op.call index = .ok index' ∧ WellBuilt index' := by
  cases op with
  | addToBlockIndex b p => exact addToBlockIndex_wellBuilt h hop
  | buildSkip b =>
    obtain ⟨node, hb⟩ := hop
    exact buildSkip_wellBuilt h hb

lemma calls_wellBuilt (h : WellBuilt index) (ops : List (IndexOp B)) (hops : Allowed ops index) :
    ∃ index', calls ops index = .ok index' ∧ WellBuilt index' := by
  induction ops generalizing index with
  | nil => exact ⟨index, rfl, h⟩
  | cons op ops ih =>
    obtain ⟨index1, hcall, h1⟩ := call_wellBuilt h op hops.1
    obtain ⟨index', hcalls, h'⟩ := ih h1 (hops.2 index1 hcall)
    refine ⟨index', ?_, h'⟩
    rw [calls, Exec.bind_of_ok hcall, hcalls]

omit [DecidableEq B] in
lemma wellBuilt_of_noSkips (hlinked : Linked index)
    (hnull : ∀ b node, index b = some node → node.pskip = none) : WellBuilt index := by
  refine ⟨hlinked, ?_⟩
  intro b node q hb hq
  rw [hnull b node hb] at hq
  cases hq

end Building

/-- **`GetAncestor` follows `pprev`**, in every index that starts without skip pointers and grows by
new blocks and by skip pointers built in any order. -/
theorem getAncestor_spec (index₀ : BlockMap B) (hlinked : Linked index₀)
    (hnull : ∀ b node, index₀ b = some node → node.pskip = none) (ops : List (IndexOp B))
    (hops : Allowed ops index₀) :
    ∃ index, calls ops index₀ = .ok index ∧ ∀ b node, index b = some node → ∀ height : ℤ,
      (0 ≤ height ∧ height ≤ node.nHeight →
        ∃ a, up index.parent (node.nHeight - height.toNat) b = some a ∧
          getAncestor index b height = .ok (some a)) ∧
      (height < 0 ∨ node.nHeight < height → getAncestor index b height = .ok none) := by
  obtain ⟨index, hrun, h⟩ := calls_wellBuilt (wellBuilt_of_noSkips hlinked hnull) ops hops
  refine ⟨index, hrun, ?_⟩
  intro b node hb height
  exact ⟨fun hin => getAncestor_eq h hb hin.1 hin.2, fun hout => getAncestor_outside hb hout⟩

/-- Two branches above a genesis block, whose predecessor is unknown. -/
def twoBranches : List (IndexOp ℕ) :=
  [.addToBlockIndex 0 9, .addToBlockIndex 1 0, .addToBlockIndex 2 1, .addToBlockIndex 3 1,
    .addToBlockIndex 4 3]

theorem getAncestor_spec_twoBranches :
    Linked (fun _ : ℕ => none) ∧ Allowed twoBranches (fun _ => none) ∧
    ∃ index, calls twoBranches (fun _ => none) = .ok index ∧
      ∀ b node, index b = some node → ∀ height : ℤ, (0 ≤ height ∧ height ≤ node.nHeight →
          ∃ a, up index.parent (node.nHeight - height.toNat) b = some a ∧
            getAncestor index b height = .ok (some a)) ∧
        (height < 0 ∨ node.nHeight < height → getAncestor index b height = .ok none) := by
  have hlinked : Linked (fun _ : ℕ => none) := ⟨by simp, by simp⟩
  have hops : Allowed twoBranches (fun _ => none) := by simp [twoBranches, Allowed, IndexOp.Allowed]
  exact ⟨hlinked, hops, getAncestor_spec _ hlinked (by simp) twoBranches hops⟩

end Bitcoin.Chain
