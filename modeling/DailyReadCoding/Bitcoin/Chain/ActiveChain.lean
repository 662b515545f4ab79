import Mathlib
import DailyReadCoding.Bitcoin.Chain.BlockIndex

/-!
# The active chain

`CChain` (`chain.h`, `chain.cpp`) keeps the blocks from genesis to the tip in a vector indexed by
height.  `SetTip` rewrites it from the top down to the first entry that is right already.
-/

namespace Bitcoin.Chain

open ParentTree List Int Ancestor Exec

variable {B : Type} [DecidableEq B]

/-! ## `CChain` -/

structure CChain (B : Type) where
  vChain : List (Option B)

namespace CChain

def tip (chain : CChain B) : Option B := chain.vChain.getLast?.join

/-- `operator[]` -/
def get (chain : CChain B) (nHeight : ℤ) : Option B :=
  if nHeight < 0 ∨ nHeight ≥ chain.vChain.length then none else (chain.vChain[nHeight.toNat]?).join

/-- `Contains` of a block with the given entry -/
def contains (chain : CChain B) (b : B) (node : CBlockIndex B) : Bool :=
  chain.get node.nHeight == some b

def height (chain : CChain B) : ℤ := chain.vChain.length - 1

def resize (v : List (Option B)) (n : ℕ) : List (Option B) :=
  v.take n ++ List.replicate (n - v.length) none

/-- The loop of `SetTip`. -/
def setTipLoop (index : BlockMap B) : ℕ → Option B → List (Option B) →
    Except Fault (List (Option B))
  | _, none, vChain => .ok vChain
  | 0, some _, _ => .error .hang
  | fuel + 1, some pindex, vChain =>
    match index pindex with
    | none => .error .null
    | some node =>
      match vChain[node.nHeight]? with
      | none => .error .outOfRange
      | some entry =>
        if entry = some pindex then .ok vChain
        else setTipLoop index fuel node.pprev (vChain.set node.nHeight (some pindex))

def setTip (index : BlockMap B) (fuel : ℕ) (pindex : Option B) (chain : CChain B) :
    Except Fault (CChain B) :=
  match pindex with
  | none => .ok ⟨[]⟩
  | some b =>
    match index b with
    | none => .error .null
    | some node => do
        let vChain ← setTipLoop index fuel (some b) (resize chain.vChain (node.nHeight + 1))
        pure ⟨vChain⟩

def setTips (index : BlockMap B) (fuel : ℕ) : List (Option B) → CChain B → Except Fault (CChain B)
  | [], chain => .ok chain
  | pindex :: tips, chain => do
      let chain ← chain.setTip index fuel pindex
      setTips index fuel tips chain

/-- The loop of `FindFork`. -/
def findForkLoop (index : BlockMap B) (chain : CChain B) : ℕ → Option B → Except Fault (Option B)
  | _, none => .ok none
  | 0, some _ => .error .hang
  | fuel + 1, some pindex =>
    match index pindex with
    | none => .error .null
    | some node =>
      if chain.contains pindex node then .ok (some pindex)
      else findForkLoop index chain fuel node.pprev

def findFork (index : BlockMap B) (fuel : ℕ) (pindex : Option B) (chain : CChain B) :
    Except Fault (Option B) :=
  match pindex with
  | none => .ok none
  | some b =>
    match index b with
    | none => .error .null
    | some node => do
        let start ←
          if node.nHeight > chain.height then getAncestor index b chain.height else pure (some b)
        findForkLoop index chain fuel start

/-- One step back of `GetLocator`, by the vector if the block is in it and by the skip list if not.
-/
def stepBack (index : BlockMap B) (chain : CChain B) (b : B) (node : CBlockIndex B) (nHeight : ℤ) :
    Except Fault (Option B) :=
  if chain.contains b node then .ok (chain.get nHeight) else getAncestor index b nHeight

/-- The loop of `GetLocator`; `nStep` is an `int`. -/
def locatorLoop (index : BlockMap B) (chain : CChain B) : ℕ → Option B → ℤ → List B →
    Except Fault (List B)
  | _, none, _, vHave => .ok vHave
  | 0, some _, _, _ => .error .hang
  | fuel + 1, some pindex, nStep, vHave =>
    match index pindex with
    | none => .error .null
    | some node =>
      if node.nHeight = 0 then .ok (vHave ++ [pindex])
      else do
        let next ← stepBack index chain pindex node (max (node.nHeight - nStep) 0)
        locatorLoop index chain fuel next
          (if vHave.length + 1 > 10 then Int.bmod (nStep * 2) (2 ^ 32) else nStep)
          (vHave ++ [pindex])

/-- The locator holds the blocks themselves instead of their hashes. -/
def getLocator (index : BlockMap B) (fuel : ℕ) (pindex : Option B) (chain : CChain B) :
    Except Fault (List B) :=
  locatorLoop index chain fuel (pindex.or chain.tip) 1 []

end CChain

open CChain

/-- The loop of `LastCommonAncestor`, with the assertion behind it. -/
def lastCommonLoop (index : BlockMap B) : ℕ → Option B → Option B → Except Fault (Option B)
  | fuel, pa, pb =>
    if pa = pb then .ok pa
    else
      match pa, pb, fuel with
      | some _, some _, 0 => .error .hang
      | some a, some b, fuel + 1 =>
        match index a, index b with
        | some anode, some bnode => lastCommonLoop index fuel anode.pprev bnode.pprev
        | _, _ => .error .null
      | _, _, _ => .error .assert

def lastCommonAncestor (index : BlockMap B) (fuel : ℕ) (pa pb : B) : Except Fault (Option B) :=
  match index pa, index pb with
  | some anode, some bnode =>
    if anode.nHeight > bnode.nHeight then do
      let pa ← getAncestor index pa bnode.nHeight
      lastCommonLoop index fuel pa (some pb)
    else if bnode.nHeight > anode.nHeight then do
      let pb ← getAncestor index pb anode.nHeight
      lastCommonLoop index fuel (some pa) pb
    else lastCommonLoop index fuel (some pa) (some pb)
  | _, _ => .error .null

/-! ## Paths -/

variable {i fuel : ℕ}

section Paths

omit [DecidableEq B]

variable {index : BlockMap B} {b p : B} {node : CBlockIndex B}

/-- The ancestors of a block by their heights. -/
def pathTo (index : BlockMap B) (b : B) : List (Option B) :=
  (List.range (index.height b + 1)).map fun i => up index.parent (index.height b - i) b

/-- The entries of the vector with the given tip. -/
def pathOf (index : BlockMap B) : Option B → List (Option B)
  | none => []
  | some b => pathTo index b

@[simp] lemma length_pathTo (index : BlockMap B) (b : B) :
    (pathTo index b).length = index.height b + 1 := by
  simp [pathTo]

lemma getElem?_pathTo (hi : i ≤ index.height b) :
    (pathTo index b)[i]? = some (up index.parent (index.height b - i) b) := by
  rw [pathTo, getElem?_map, getElem?_range (by omega)]
  rfl

lemma getElem?_pathTo_of_lt (hi : index.height b < i) : (pathTo index b)[i]? = none := by
  rw [getElem?_eq_none]
  rw [length_pathTo]
  omega

/-- Below an entry of a path are its own ancestors. -/
def Closed (index : BlockMap B) (v : List (Option B)) (n : ℕ) : Prop :=
  ∀ i ≤ n, ∀ a, v[i]? = some (some a) → ∀ j ≤ i, v[j]? = some (up index.parent (i - j) a)

lemma closed_pathTo (n : ℕ) : Closed index (pathTo index b) n := by
  intro i _ a hi j hj
  have hle : i ≤ index.height b := by
    by_contra hlt
    rw [getElem?_pathTo_of_lt (by omega)] at hi
    cases hi
  rw [getElem?_pathTo hle, Option.some.injEq] at hi
  rw [getElem?_pathTo (by omega), ← up_of_up hi,
    show index.height b - j = index.height b - i + (i - j) by omega]

lemma closed_pathOf (tip : Option B) (n : ℕ) : Closed index (pathOf index tip) n := by
  cases tip with
  | none =>
    intro i _ a hi
    cases hi
  | some b => exact closed_pathTo n

lemma length_resize (v : List (Option B)) (n : ℕ) : (CChain.resize v n).length = n := by
  rw [resize, length_append, length_take, length_replicate]
  omega

/-- Cutting a path off or filling it up with null pointers leaves it closed. -/
lemma Closed.resize {v : List (Option B)} {n : ℕ} (h : Closed index v n) (m : ℕ) :
    Closed index (CChain.resize v m) n := by
  intro i hi a ha j hj
  have hkeep : ∀ {k : ℕ} {e : Option B},
    v[k]? = some e → k < m → (CChain.resize v m)[k]? = some e := by
    intro k e hk hkm
    have hlen := (List.getElem?_eq_some_iff.1 hk).1
    rw [CChain.resize, getElem?_append_left (by rw [length_take]; omega),
      getElem?_take_of_lt hkm, hk]
  have him : i < m := by
    have := (List.getElem?_eq_some_iff.1 ha).1
    rwa [length_resize] at this
  rw [CChain.resize, getElem?_append] at ha
  split_ifs at ha with hlow
  · rw [getElem?_take_of_lt him] at ha
    exact hkeep (h i hi a ha j hj) (by omega)
  · rw [getElem?_replicate] at ha
    split_ifs at ha
    cases ha

end Paths

/-! ## `SetTip` -/

section SetTip

variable {index : BlockMap B} {b p : B} {node : CBlockIndex B}

/-- The loop rewrites the vector from the top down; as soon as an entry is right, so is the rest. -/
lemma setTipLoop_spec (h : Linked index) {v : List (Option B)} (hp : index p = some node)
    (hanc : Ancestor index.parent p b) (hlen : v.length = index.height b + 1)
    (hdone : ∀ i, index.height p < i → i ≤ index.height b → v[i]? = (pathTo index b)[i]?)
    (hclosed : Closed index v (index.height p)) (hfuel : index.height p < fuel) :
    CChain.setTipLoop index fuel (some p) v = .ok (pathTo index b) := by
  have hrank := h.ranked
  induction fuel generalizing p node v with
  | zero => omega
  | succ fuel ih =>
    have hheight := height_of hp
    have hle := hrank.height_le hanc
    have hentry : (pathTo index b)[index.height p]? = some (some p) := by
      rw [getElem?_pathTo hle, hrank.up_of_ancestor hanc]
    obtain ⟨entry, hv⟩ : ∃ entry, v[index.height p]? = some entry :=
      ⟨_, getElem?_eq_getElem (by omega)⟩
    rw [setTipLoop, hp]
    dsimp only
    rw [← hheight, hv]
    dsimp only
    split_ifs with hright
    · -- everything below is on the path to `p`, and so on the path to `b`
      subst hright
      congr 1
      refine ext_getElem? fun i => ?_
      rcases lt_or_ge (index.height p) i with hlt | hge
      · rcases lt_or_ge (index.height b) i with hout | hin
        · rw [getElem?_pathTo_of_lt hout, getElem?_eq_none (by omega)]
        · exact hdone i hlt hin
      · rw [hclosed _ le_rfl p hv i hge, getElem?_pathTo (by omega)]
        obtain ⟨n, hn⟩ := hanc
        rw [hrank.up_sub hn hge]
    · have hset : ∀ i, index.height p ≤ i → i ≤ index.height b →
          (v.set (index.height p) (some p))[i]? = (pathTo index b)[i]? := by
        intro i hlow hhigh
        rcases eq_or_lt_of_le hlow with rfl | hlt
        · rw [getElem?_set_self (by omega), hentry]
        · rw [getElem?_set_ne (by omega), hdone i hlt hhigh]
      cases hprev : node.pprev with
      | none =>
        have hroot := h.root hp hprev
        rw [setTipLoop]
        congr 1
        refine ext_getElem? fun i => ?_
        rcases lt_or_ge (index.height b) i with hout | hin
        · rw [getElem?_pathTo_of_lt hout, getElem?_eq_none (by rw [length_set]; omega)]
        · exact hset i (by omega) hin
      | some q =>
        obtain ⟨qnode, hq, hstep⟩ := h.step hp hprev
        have hqheight := height_of hq
        have hqp : Ancestor index.parent q p := of_parent ((parent_of hp).trans hprev)
        refine ih hq (hqp.trans hanc) (by rw [length_set, hlen])
          (fun i hlt hin => hset i (by omega) hin) ?_ (by omega)
        intro i hi a ha j hj
        rw [getElem?_set_ne (by omega)] at ha ⊢
        exact hclosed i (by omega) a ha j hj

/-- **`SetTip` leaves the path to the new tip**, from the path to any other. -/
lemma setTip_spec (h : Linked index) {chain : CChain B} {old : Option B}
    (hchain : chain.vChain = pathOf index old) {tip : Option B}
    (htip : ∀ b, tip = some b → ∃ node, index b = some node ∧ node.nHeight < fuel) :
    ∃ chain', chain.setTip index fuel tip = .ok chain' ∧ chain'.vChain = pathOf index tip := by
  cases tip with
  | none => exact ⟨⟨[]⟩, rfl, rfl⟩
  | some b =>
    obtain ⟨node, hb, hfuel⟩ := htip b rfl
    have hheight := height_of hb
    have hloop : setTipLoop index fuel (some b)
        (resize chain.vChain (node.nHeight + 1)) = .ok (pathTo index b) := by
      refine setTipLoop_spec h hb (Ancestor.refl b) ?_ (fun i hlt hle => by omega) ?_ (by omega)
      · rw [length_resize, hheight]
      · rw [hchain]
        exact (closed_pathOf old _).resize _
    refine ⟨⟨pathTo index b⟩, ?_, rfl⟩
    simp only [setTip, hb, hloop]
    rfl

lemma setTips_spec (h : Linked index) (tips : List (Option B))
    (htips : ∀ b, some b ∈ tips → ∃ node, index b = some node ∧ node.nHeight < fuel)
    {chain : CChain B} {old : Option B} (hchain : chain.vChain = pathOf index old) :
    ∃ chain', chain.setTips index fuel tips = .ok chain' ∧
      chain'.vChain = pathOf index (tips.getLast?.getD old) := by
  induction tips generalizing chain old with
  | nil => exact ⟨chain, rfl, hchain⟩
  | cons tip tips ih =>
    have htip : ∀ b, tip = some b → ∃ node, index b = some node ∧ node.nHeight < fuel :=
      fun b hb => htips b (by simp [hb])
    obtain ⟨chain1, hset, hchain1⟩ := setTip_spec h hchain htip
    obtain ⟨chain', hrun, hchain'⟩ := ih (fun b hb => htips b (by simp [hb])) hchain1
    refine ⟨chain', ?_, ?_⟩
    · rw [setTips, bind_of_ok hset, hrun]
    · rw [hchain', getLast?_cons]
      rfl

end SetTip

/-! ## Forks -/

section Forks

variable {index : BlockMap B} {chain : CChain B} {tip : Option B} {b p : B} {node : CBlockIndex B}

/-- The blocks of the vector. -/
def OnChain (chain : CChain B) (b : B) : Prop := some b ∈ chain.vChain

omit [DecidableEq B] in
/-- The blocks of the vector are the ancestors of the tip. -/
lemma onChain_iff (h : Linked index) (hchain : chain.vChain = pathOf index tip) :
    OnChain chain b ↔ ∃ t, tip = some t ∧ Ancestor index.parent b t := by
  rw [OnChain, hchain]
  cases tip with
  | none => simp [pathOf]
  | some t =>
    simp only [pathOf, pathTo, mem_map, mem_range, Option.some.injEq, exists_eq_left']
    constructor
    · rintro ⟨i, -, hi⟩
      exact ⟨_, hi⟩
    · intro hanc
      have hle := h.ranked.height_le hanc
      exact ⟨index.height b, by omega, h.ranked.up_of_ancestor hanc⟩

omit [DecidableEq B] in
lemma get_pathTo {t : B} (hchain : chain.vChain = pathTo index t) {n : ℤ} (hlow : 0 ≤ n)
    (hhigh : n ≤ index.height t) : chain.get n = up index.parent (index.height t - n.toNat) t := by
  rw [CChain.get, hchain, length_pathTo, if_neg (by omega), getElem?_pathTo (by omega)]
  rfl

lemma contains_iff (h : Linked index) (hchain : chain.vChain = pathOf index tip)
    (hb : index b = some node) : chain.contains b node = true ↔ OnChain chain b := by
  have hrank := h.ranked
  rw [onChain_iff h hchain, CChain.contains, beq_iff_eq]
  cases tip with
  | none =>
    have hempty : chain.vChain = [] := hchain
    simp [CChain.get, hempty]
  | some t =>
    simp only [Option.some.injEq, exists_eq_left']
    rw [← height_of hb]
    constructor
    · intro hget
      rcases lt_or_ge (index.height t) (index.height b) with hlt | hge
      · rw [CChain.get, show chain.vChain = pathTo index t from hchain, length_pathTo,
          if_pos (by omega)] at hget
        cases hget
      · rw [get_pathTo hchain (by omega) (by omega)] at hget
        exact ⟨_, hget⟩
    · intro hanc
      have hle := hrank.height_le hanc
      rw [get_pathTo hchain (by omega) (by omega), toNat_natCast, hrank.up_of_ancestor hanc]

/-- Common ancestors of a block and the tip. -/
def Fork (index : BlockMap B) (chain : CChain B) (b a : B) : Prop :=
  Ancestor index.parent a b ∧ OnChain chain a

lemma findForkLoop_spec (h : Linked index) (hchain : chain.vChain = pathOf index tip)
    (hp : index p = some node) (hanc : Ancestor index.parent p b)
    (hbelow : ∀ a, Fork index chain b a → index.height a ≤ index.height p)
    (hfuel : index.height p < fuel) : ∃ r, CChain.findForkLoop index chain fuel (some p) = .ok r ∧
      IsHighest index.height (Fork index chain b) r := by
  have hrank := h.ranked
  induction fuel generalizing p node with
  | zero => omega
  | succ fuel ih =>
    rw [findForkLoop, hp]
    dsimp only
    split_ifs with hon
    · exact ⟨some p, rfl, ⟨hanc, (contains_iff h hchain hp).1 hon⟩, hbelow⟩
    · -- the only ancestor of `b` at this height is not on the chain
      have hless : ∀ a, Fork index chain b a → index.height a < index.height p := by
        intro a ha
        refine lt_of_le_of_ne (hbelow a ha) fun heq => ?_
        rw [hrank.ancestor_eq ha.1 hanc heq] at ha
        exact hon ((contains_iff h hchain hp).2 ha.2)
      have hheight := height_of hp
      cases hprev : node.pprev with
      | none =>
        have hroot := h.root hp hprev
        refine ⟨none, by rw [findForkLoop], ?_⟩
        intro a ha
        have := hless a ha
        omega
      | some q =>
        obtain ⟨qnode, hq, hstep⟩ := h.step hp hprev
        have hqheight := height_of hq
        have hqp : Ancestor index.parent q p := of_parent ((parent_of hp).trans hprev)
        refine ih hq (hqp.trans hanc) ?_ (by omega)
        intro a ha
        have := hless a ha
        omega

/-- The highest block on two paths. -/
lemma findFork_spec (h : WellBuilt index) (hchain : chain.vChain = pathOf index tip)
    (hb : index b = some node) (hfuel : node.nHeight < fuel) :
    ∃ r, chain.findFork index fuel (some b) = .ok r ∧
      IsHighest index.height (Fork index chain b) r := by
  have hrank := h.linked.ranked
  have hheight := height_of hb
  rw [findFork]
  rw [hb]
  dsimp only
  split_ifs with hhigh
  · cases tip with
    | none =>
      have hempty : chain.vChain = [] := hchain
      have hlow : chain.height < 0 := by simp [height, hempty]
      refine ⟨none, ?_, ?_⟩
      · rw [bind_of_ok (getAncestor_outside hb (Or.inl hlow)), findForkLoop]
      · intro a ha
        rw [Fork, onChain_iff h.linked hchain] at ha
        simp at ha
    | some t =>
      have htop : chain.height = index.height t := by
        rw [height, show chain.vChain = pathTo index t from hchain, length_pathTo]
        omega
      rw [htop] at hhigh ⊢
      obtain ⟨p, hup, hget⟩ := getAncestor_eq h hb (natCast_nonneg (index.height t)) (by omega)
      obtain ⟨pnode, hp⟩ := h.linked.mem_up hb hup
      have hpheight := hrank.height_up hup
      rw [bind_of_ok hget]
      refine findForkLoop_spec h.linked hchain hp ⟨_, hup⟩ ?_ (by omega)
      intro a ha
      obtain ⟨t', ht', hanc⟩ := (onChain_iff h.linked hchain).1 ha.2
      obtain rfl : t = t' := Option.some.inj ht'
      have := hrank.height_le hanc
      omega
  · exact findForkLoop_spec h.linked hchain hb (Ancestor.refl b)
      (fun a ha => hrank.height_le ha.1) (by omega)

/-- Common ancestors of two blocks. -/
def Common (index : BlockMap B) (a b c : B) : Prop :=
  Ancestor index.parent c a ∧ Ancestor index.parent c b

/-- There is one block without a predecessor. -/
def OneGenesis (index : BlockMap B) (genesis : B) : Prop :=
  ∀ b node, index b = some node → node.pprev = none → b = genesis

variable {a q genesis : B} {qnode : CBlockIndex B}

lemma lastCommonLoop_spec (h : Linked index) (hgen : OneGenesis index genesis)
    (hp : index p = some node) (hq : index q = some qnode) (heq : node.nHeight = qnode.nHeight)
    (hpa : Ancestor index.parent p a) (hqb : Ancestor index.parent q b)
    (hbelow : ∀ c, Common index a b c → index.height c ≤ index.height p)
    (hfuel : node.nHeight ≤ fuel) :
    ∃ c, lastCommonLoop index fuel (some p) (some q) = .ok (some c) ∧
      IsHighest index.height (Common index a b) (some c) := by
  have hrank := h.ranked
  induction fuel generalizing p q node qnode with
  | zero =>
    -- both are at height zero, where there is only the genesis block
    have hroot : ∀ {x xnode}, index x = some xnode → xnode.nHeight = 0 → x = genesis := by
      intro x xnode hx hzero
      refine hgen x xnode hx ?_
      cases hprev : xnode.pprev with
      | none => rfl
      | some y =>
        obtain ⟨_, -, hstep⟩ := h.step hx hprev
        omega
    obtain rfl : p = q := (hroot hp (by omega)).trans (hroot hq (by omega)).symm
    exact ⟨p, by rw [lastCommonLoop, if_pos rfl], ⟨hpa, hqb⟩, hbelow⟩
  | succ fuel ih =>
    by_cases hpq : p = q
    · subst hpq
      exact ⟨p, by rw [lastCommonLoop, if_pos rfl], ⟨hpa, hqb⟩, hbelow⟩
    · have hpheight := height_of hp
      have hqheight := height_of hq
      have hless : ∀ c, Common index a b c → index.height c < index.height p := by
        intro c hc
        refine lt_of_le_of_ne (hbelow c hc) fun hsame => hpq ?_
        exact (hrank.ancestor_eq hc.1 hpa hsame).symm.trans (hrank.ancestor_eq hc.2 hqb (by omega))
      cases hpp : node.pprev with
      | none =>
        have hzero := h.root hp hpp
        have hqq : qnode.pprev = none := by
          cases hqq : qnode.pprev with
          | none => rfl
          | some y =>
            obtain ⟨_, -, hstep⟩ := h.step hq hqq
            omega
        exact absurd ((hgen p node hp hpp).trans (hgen q qnode hq hqq).symm) hpq
      | some p' =>
        obtain ⟨pnode', hp', hpstep⟩ := h.step hp hpp
        cases hqq : qnode.pprev with
        | none =>
          have := h.root hq hqq
          omega
        | some q' =>
          obtain ⟨qnode', hq', hqstep⟩ := h.step hq hqq
          have hpup := of_parent ((parent_of hp).trans hpp)
          have hqup := of_parent ((parent_of hq).trans hqq)
          rw [lastCommonLoop, if_neg (by simpa using hpq)]
          simp only [hp, hq, hpp, hqq]
          refine ih hp' hq' (by omega) (hpup.trans hpa) (hqup.trans hqb) ?_ (by omega)
          intro c hc
          have := hless c hc
          rw [height_of hp']
          omega

lemma lastCommonAncestor_spec (h : WellBuilt index) (hgen : OneGenesis index genesis)
    (hp : index p = some node) (hq : index q = some qnode) (hfuel : node.nHeight ≤ fuel) :
    ∃ c, lastCommonAncestor index fuel p q = .ok (some c) ∧
      IsHighest index.height (Common index p q) (some c) := by
  have hrank := h.linked.ranked
  have hpheight := height_of hp
  have hqheight := height_of hq
  simp only [lastCommonAncestor, hp, hq]
  split_ifs with hgt hlt
  · obtain ⟨a, hup, hget⟩ := getAncestor_eq h hp (natCast_nonneg qnode.nHeight) (by omega)
    obtain ⟨anode, ha⟩ := h.linked.mem_up hp hup
    have haheight := hrank.height_up hup
    have hanode := height_of ha
    rw [bind_of_ok hget]
    refine lastCommonLoop_spec h.linked hgen ha hq (by omega) ⟨_, hup⟩
      (Ancestor.refl q) ?_ (by omega)
    intro c hc
    have := hrank.height_le hc.2
    omega
  · obtain ⟨b, hup, hget⟩ := getAncestor_eq h hq (natCast_nonneg node.nHeight) (by omega)
    obtain ⟨bnode, hb⟩ := h.linked.mem_up hq hup
    have hbheight := hrank.height_up hup
    have hbnode := height_of hb
    rw [bind_of_ok hget]
    exact lastCommonLoop_spec h.linked hgen hp hb (by omega) (Ancestor.refl p) ⟨_, hup⟩
      (fun c hc => hrank.height_le hc.1) hfuel
  · exact lastCommonLoop_spec h.linked hgen hp hq (by omega) (Ancestor.refl p) (Ancestor.refl q)
      (fun c hc => hrank.height_le hc.1) hfuel

end Forks

/-! ## `GetLocator` -/

section Locator

variable {index : BlockMap B} {chain : CChain B} {tip : Option B} {b p : B} {node : CBlockIndex B}

/-- Ancestors of `b` at decreasing heights, from `b` to a block without predecessor. -/
structure Locates (index : BlockMap B) (b : B) (vHave : List B) : Prop where
  head : vHave.head? = some b
  ancestors : ∀ a ∈ vHave, Ancestor index.parent a b
  decreasing : vHave.Pairwise fun x y => index.height y < index.height x
  last : ∃ g, vHave.getLast? = some g ∧ index.parent g = none

section

variable (h : WellBuilt index) (hchain : chain.vChain = pathOf index tip)

include h hchain

lemma stepBack_eq (hb : index b = some node) {n : ℤ} (hlow : 0 ≤ n) (hhigh : n ≤ node.nHeight) :
    ∃ a, up index.parent (node.nHeight - n.toNat) b = some a ∧
      CChain.stepBack index chain b node n = .ok (some a) := by
  obtain ⟨a, hup, hget⟩ := getAncestor_eq h hb hlow hhigh
  refine ⟨a, hup, ?_⟩
  rw [stepBack]
  split_ifs with hon
  · obtain ⟨t, rfl, hanc⟩ := (onChain_iff h.linked hchain).1
      ((contains_iff h.linked hchain hb).1 hon)
    have hle := h.linked.ranked.height_le hanc
    have hheight := height_of hb
    obtain ⟨k, hk⟩ := hanc
    rw [get_pathTo hchain hlow (by omega), h.linked.ranked.up_sub hk (by omega), hheight, hup]
  · exact hget

/-- The step is at most one more than what was gone back already, so that it does not overflow. -/
lemma locatorLoop_spec {top : ℕ}
    (htop : top < 2 ^ 31) {nStep : ℤ} (vHave : List B) (hb : index b = some node)
    (hle : node.nHeight ≤ top)
    (hstep : node.nHeight ≠ 0 → 1 ≤ nStep ∧ nStep ≤ top - node.nHeight + 1)
    (hfuel : node.nHeight < fuel) :
    ∃ rest, CChain.locatorLoop index chain fuel (some b) nStep vHave = .ok (vHave ++ rest) ∧
      Locates index b rest := by
  have hrank := h.linked.ranked
  induction fuel generalizing b node nStep vHave with
  | zero => omega
  | succ fuel ih =>
    have hheight := height_of hb
    rw [locatorLoop, hb]
    dsimp only
    by_cases hzero : node.nHeight = 0
    · refine ⟨[b], if_pos hzero, rfl, ?_, by simp, b, rfl, ?_⟩
      · intro a ha
        rw [mem_singleton.1 ha]
        exact Ancestor.refl b
      · rw [parent_of hb]
        cases hprev : node.pprev with
        | none => rfl
        | some p =>
          obtain ⟨_, -, hpheight⟩ := h.linked.step hb hprev
          omega
    · have hlow : 0 ≤ max ((node.nHeight : ℤ) - nStep) 0 := by omega
      have hhigh : max ((node.nHeight : ℤ) - nStep) 0 < node.nHeight := by omega
      obtain ⟨a, hup, hnext⟩ := stepBack_eq h hchain hb hlow (Int.le_of_lt hhigh)
      obtain ⟨anode, ha⟩ := h.linked.mem_up hb hup
      have haheight := hrank.height_up hup
      have hanode := height_of ha
      have hstep' : anode.nHeight ≠ 0 →
          1 ≤ (if vHave.length + 1 > 10 then Int.bmod (nStep * 2) (2 ^ 32) else nStep) ∧
            (if vHave.length + 1 > 10 then Int.bmod (nStep * 2) (2 ^ 32) else nStep) ≤
              top - anode.nHeight + 1 := by
        intro hne
        have hwrap : Int.bmod (nStep * 2) (2 ^ 32) = nStep * 2 :=
          bmod_eq_of_le (by omega) (by omega)
        split_ifs <;> omega
      obtain ⟨rest, hrun, hrest⟩ := ih (vHave ++ [b]) ha (by omega) hstep' (by omega)
      rw [if_neg hzero, bind_of_ok hnext]
      refine ⟨b :: rest, ?_, rfl, ?_, ?_, ?_⟩
      · rw [hrun, append_assoc]
        rfl
      · intro c hc
        rcases mem_cons.1 hc with rfl | hc
        · exact Ancestor.refl c
        · exact (hrest.ancestors c hc).trans ⟨_, hup⟩
      · refine pairwise_cons.2 ⟨?_, hrest.decreasing⟩
        intro c hc
        have := hrank.height_le (hrest.ancestors c hc)
        omega
      · obtain ⟨g, hg, hroot⟩ := hrest.last
        exact ⟨g, by rw [getLast?_cons, hg]; rfl, hroot⟩

/-- Steps back that get larger and still end at genesis. -/
lemma getLocator_spec
    {pindex : Option B} (hb : pindex.or chain.tip = some b) (hnode : index b = some node)
    (hint : node.nHeight < 2 ^ 31) (hfuel : node.nHeight < fuel) :
    ∃ vHave, chain.getLocator index fuel pindex = .ok vHave ∧ Locates index b vHave := by
  rw [getLocator, hb]
  exact locatorLoop_spec h hchain hint [] hnode le_rfl (fun _ => by omega) hfuel

end

end Locator

/-! ## Any sequence of tips -/

/-- The blocks from the one without predecessor to `b`, each the predecessor of the next. -/
inductive IsPath (index : BlockMap B) : List B → B → Prop
  | genesis {b : B} (h : index.parent b = none) : IsPath index [b] b
  | step {b p : B} {path : List B} (h : index.parent b = some p) (hp : IsPath index path p) :
      IsPath index (path ++ [b]) b

section Runs

variable {index : BlockMap B} {b p : B}

omit [DecidableEq B] in
lemma pathTo_of_parent (h : Linked index) (hp : index.parent b = some p) :
    pathTo index b = pathTo index p ++ [some b] := by
  have hheight := h.ranked.step hp
  rw [pathTo, hheight, range_succ, map_append]
  congr 1
  · refine map_congr_left fun i hi => ?_
    rw [mem_range] at hi
    rw [show index.height p + 1 - i = index.height p - i + 1 by omega, up_succ_of_parent hp]
  · simp

omit [DecidableEq B] in
lemma exists_path (h : Linked index) (b : B) :
    ∃ path, pathTo index b = path.map some ∧ IsPath index path b := by
  induction hn : index.height b generalizing b with
  | zero =>
    have hroot : index.parent b = none := by
      cases hp : index.parent b with
      | none => rfl
      | some p =>
        have := h.ranked.step hp
        omega
    exact ⟨[b], by simp [pathTo, hn], .genesis hroot⟩
  | succ n ih =>
    cases hp : index.parent b with
    | none =>
      have := h.ranked.root hp
      omega
    | some p =>
      have hheight := h.ranked.step hp
      obtain ⟨path, hpath, his⟩ := ih p (by omega)
      refine ⟨path ++ [b], ?_, .step hp his⟩
      rw [pathTo_of_parent h hp, hpath, map_append]
      rfl

omit [DecidableEq B] in
lemma Locates.last_genesis (h : Linked index) {genesis : B} (hgen : OneGenesis index genesis)
    {vHave : List B} (hl : Locates index b vHave) {node : CBlockIndex B}
    (hb : index b = some node) :
    vHave.getLast? = some genesis := by
  obtain ⟨g, hg, hroot⟩ := hl.last
  obtain ⟨n, hn⟩ := hl.ancestors g (mem_of_getLast? hg)
  obtain ⟨gnode, hgnode⟩ := h.mem_up hb hn
  rw [parent_of hgnode] at hroot
  rw [hg, hgen g gnode hgnode hroot]

end Runs

/-- **The active chain after any sequence of tips** is the path to the last of them, and forks,
common ancestors and locators are found as the tree has them. Heights are `int`s. -/
theorem activeChain_spec (index₀ index : BlockMap B) (hlinked : Linked index₀)
    (hnull : ∀ b node, index₀ b = some node → node.pskip = none) (ops : List (IndexOp B))
    (hops : Allowed ops index₀) (hbuild : calls ops index₀ = .ok index) (genesis : B)
    (hgen : OneGenesis index genesis)
    (hint : ∀ b node, index b = some node → node.nHeight < 2 ^ 31) (tips : List (Option B))
    (htips : ∀ b, some b ∈ tips → ∃ node, index b = some node) (fuel : ℕ) (hfuel : 2 ^ 31 ≤ fuel) :
    ∃ chain, CChain.setTips index fuel tips ⟨[]⟩ = .ok chain ∧
      (tips.getLast?.join = none → chain.vChain = []) ∧ (∀ t, tips.getLast?.join = some t →
        ∃ path, chain.vChain = path.map some ∧ IsPath index path t) ∧
      (∀ b node, index b = some node → ∃ r, chain.findFork index fuel (some b) = .ok r ∧
        IsHighest index.height (Fork index chain b) r) ∧
      (∀ a b anode bnode, index a = some anode → index b = some bnode →
        ∃ c, lastCommonAncestor index fuel a b = .ok (some c) ∧
          IsHighest index.height (Common index a b) (some c)) ∧
      ∀ pindex b node, pindex.or chain.tip = some b → index b = some node →
        ∃ vHave, chain.getLocator index fuel pindex = .ok vHave ∧ Locates index b vHave ∧
          vHave.getLast? = some genesis := by
  have h : WellBuilt index := by
    obtain ⟨index', hrun, h⟩ := calls_wellBuilt (wellBuilt_of_noSkips hlinked hnull) ops hops
    rw [hbuild, Except.ok.injEq] at hrun
    rwa [hrun]
  have hroom : ∀ {b node}, index b = some node → node.nHeight < fuel := fun hb => by
    have := hint _ _ hb
    omega
  have htips' : ∀ b, some b ∈ tips → ∃ node, index b = some node ∧ node.nHeight < fuel := by
    intro b hb
    obtain ⟨node, hnode⟩ := htips b hb
    exact ⟨node, hnode, hroom hnode⟩
  have hempty : (⟨[]⟩ : CChain B).vChain = pathOf index none := rfl
  obtain ⟨chain, hset, hchain⟩ := setTips_spec h.linked tips htips' hempty
  have hlast : tips.getLast?.getD none = tips.getLast?.join := by cases tips.getLast? <;> rfl
  rw [hlast] at hchain
  refine ⟨chain, hset, ?_, ?_, ?_, ?_, ?_⟩
  · intro hnone
    rw [hchain, hnone]
    rfl
  · intro t ht
    obtain ⟨path, hpath, his⟩ := exists_path h.linked t
    exact ⟨path, by rw [hchain, ht, ← hpath]; rfl, his⟩
  · intro b node hb
    exact findFork_spec h hchain hb (hroom hb)
  · intro a b anode bnode ha hb
    exact lastCommonAncestor_spec h hgen ha hb (hroom ha).le
  · intro pindex b node hpindex hb
    obtain ⟨vHave, hrun, hl⟩ := getLocator_spec h hchain hpindex hb (hint b node hb) (hroom hb)
    exact ⟨vHave, hrun, hl, hl.last_genesis h.linked hgen hb⟩

/-- A genesis block, its successor and two branches of one block each. -/
def forked : BlockMap ℕ
  | 0 => some ⟨none, none, 0⟩
  | 1 => some ⟨some 0, none, 1⟩
  | 2 => some ⟨some 1, none, 2⟩
  | 3 => some ⟨some 1, none, 2⟩
  | _ => none

lemma forked_cases {b : ℕ} {node : CBlockIndex ℕ} (h : forked b = some node) :
    (b = 0 ∧ node = ⟨none, none, 0⟩) ∨ (b = 1 ∧ node = ⟨some 0, none, 1⟩) ∨
      (b = 2 ∧ node = ⟨some 1, none, 2⟩) ∨ (b = 3 ∧ node = ⟨some 1, none, 2⟩) := by
  match b with
  | 0 | 1 | 2 | 3 => simpa [forked, eq_comm] using h
  | _ + 4 => simp [forked] at h

lemma forked_linked : Linked forked where
  root {b node} hb hroot := by
    rcases forked_cases hb with ⟨-, rfl⟩ | ⟨-, rfl⟩ | ⟨-, rfl⟩ | ⟨-, rfl⟩
    · rfl
    all_goals cases hroot
  step {b node p} hb hp := by
    rcases forked_cases hb with ⟨-, rfl⟩ | ⟨-, rfl⟩ | ⟨-, rfl⟩ | ⟨-, rfl⟩
    · cases hp
    · exact ⟨⟨none, none, 0⟩, by rw [← Option.some.inj hp]; rfl, rfl⟩
    all_goals exact ⟨⟨some 0, none, 1⟩, by rw [← Option.some.inj hp]; rfl, rfl⟩

/-- The tip moves to one branch, to the other, back to the start and to the first branch again. -/
theorem activeChain_spec_forked :
    ∃ chain, CChain.setTips forked (2 ^ 31) [some 2, some 3, none, some 1, some 2]
    ⟨[]⟩ = .ok chain ∧
      (∀ t, some 2 = some t → ∃ path, chain.vChain = path.map some ∧ IsPath forked path t) := by
  have hint : ∀ b node, forked b = some node → node.nHeight < 2 ^ 31 := by
    intro b node hb
    rcases forked_cases hb with ⟨-, rfl⟩ | ⟨-, rfl⟩ | ⟨-, rfl⟩ | ⟨-, rfl⟩ <;> decide
  have hnull : ∀ b node, forked b = some node → node.pskip = none := by
    intro b node hb
    rcases forked_cases hb with ⟨-, rfl⟩ | ⟨-, rfl⟩ | ⟨-, rfl⟩ | ⟨-, rfl⟩ <;> rfl
  have hgen : OneGenesis forked 0 := by
    intro b node hb hroot
    rcases forked_cases hb with ⟨rfl, -⟩ | ⟨-, rfl⟩ | ⟨-, rfl⟩ | ⟨-, rfl⟩
    · rfl
    all_goals cases hroot
  have htips : ∀ b, some b ∈ [some 2, some 3, none, some 1, some 2] →
      ∃ node, forked b = some node := by
    intro b hb
    simp only [mem_cons, Option.some.injEq, reduceCtorEq, not_mem_nil, or_false, false_or] at hb
    rcases hb with rfl | rfl | rfl | rfl <;> exact ⟨_, rfl⟩
  obtain ⟨chain, hset, -, hpath, -⟩ := activeChain_spec forked forked forked_linked hnull [] trivial
    rfl 0 hgen hint _ htips (2 ^ 31) le_rfl
  exact ⟨chain, hset, hpath⟩

end Bitcoin.Chain
