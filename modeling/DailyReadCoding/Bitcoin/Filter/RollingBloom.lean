import Mathlib

/-!
# `CRollingBloomFilter`

The filter of `bloom.cpp`. Every position holds two bits, which say in which of three generations it
was set last; a new generation wipes the one it takes the number of.
-/

namespace Bitcoin.Filter

/-- The words `data[2 * i]` and `data[2 * i + 1]`, for every `i`. -/
abbrev Table := List (BitVec 64 × BitVec 64)

structure CRollingBloomFilter where
  nEntriesPerGeneration : ℕ
  nEntriesThisGeneration : ℕ
  nGeneration : ℕ
  data : Table

/-- The constructor; `filterBits` is the formula over floating-point numbers. -/
def CRollingBloomFilter.new (nElements : ℕ) (filterBits : ℕ → ℕ) : CRollingBloomFilter :=
  let nEntriesPerGeneration := (nElements + 1) % 2 ^ 32 / 2
  let nMaxElements := nEntriesPerGeneration * 3 % 2 ^ 32
  ⟨nEntriesPerGeneration, 0, 1,
    List.replicate ((filterBits nMaxElements + 63) % 2 ^ 32 / 64) (0, 0)⟩

def fastMod (x : BitVec 32) (n : ℕ) : ℕ := (x.toNat * n) >>> 32

/-- The pair of words at `FastMod(h, data.size())`, whose lowest bit is ignored. -/
def pairOf (h : BitVec 32) (data : Table) : ℕ := fastMod h (2 * data.length) / 2

def bitOf (h : BitVec 32) : ℕ := (h &&& 0x3F).toNat

def write (nGeneration bit : ℕ) (c : BitVec 64 × BitVec 64) : BitVec 64 × BitVec 64 :=
  ((c.1 &&& ~~~(1#64 <<< bit)) ||| BitVec.ofNat 64 (nGeneration &&& 1) <<< bit,
    (c.2 &&& ~~~(1#64 <<< bit)) ||| BitVec.ofNat 64 (nGeneration >>> 1) <<< bit)

def wipe (nGeneration : ℕ) (c : BitVec 64 × BitVec 64) : BitVec 64 × BitVec 64 :=
  let nGenerationMask1 := 0#64 - BitVec.ofNat 64 (nGeneration &&& 1)
  let nGenerationMask2 := 0#64 - BitVec.ofNat 64 (nGeneration >>> 1)
  let mask := (c.1 ^^^ nGenerationMask1) ||| (c.2 ^^^ nGenerationMask2)
  (c.1 &&& mask, c.2 &&& mask)

/-- The loop of `insert` over the hash functions, without a result where it leaves the table. -/
def insertLoop (nGeneration : ℕ) : List (BitVec 32) → Table → Option Table
  | [], data => some data
  | h :: hs, data =>
    match data[pairOf h data]? with
    | none => none
    | some c => insertLoop nGeneration hs (data.set (pairOf h data) (write nGeneration (bitOf h) c))

def nextGeneration (nGeneration : ℕ) : ℕ := if nGeneration + 1 = 4 then 1 else nGeneration + 1

def containsLoop (data : Table) : List (BitVec 32) → Option Bool
  | [] => some true
  | h :: hs =>
    match data[pairOf h data]? with
    | none => none
    | some c => if ((c.1 ||| c.2) >>> bitOf h) &&& 1 = 0 then some false else containsLoop data hs

namespace CRollingBloomFilter

variable {Key : Type} (hashes : Key → List (BitVec 32))

/-- A new generation, where the current one is full. -/
def rotate (f : CRollingBloomFilter) : CRollingBloomFilter :=
  if f.nEntriesThisGeneration = f.nEntriesPerGeneration then
    { f with
      nEntriesThisGeneration := 0
      nGeneration := nextGeneration f.nGeneration
      data := f.data.map (wipe (nextGeneration f.nGeneration)) }
  else f

def insert (f : CRollingBloomFilter) (vKey : Key) : Option CRollingBloomFilter :=
  let f := { f.rotate with nEntriesThisGeneration := f.rotate.nEntriesThisGeneration + 1 }
  (insertLoop f.nGeneration (hashes vKey) f.data).map fun data => { f with data }

def contains (f : CRollingBloomFilter) (vKey : Key) : Option Bool :=
    containsLoop f.data (hashes vKey)

def insertAll : CRollingBloomFilter → List Key → Option CRollingBloomFilter
  | f, [] => some f
  | f, vKey :: keys => (f.insert hashes vKey).bind fun f => insertAll f keys

end CRollingBloomFilter

/-! ## Positions -/

/-- The generation in which a position was set, zero if it is not. -/
def level (c : BitVec 64 × BitVec 64) (bit : ℕ) : ℕ :=
  (c.1.getLsbD bit).toNat + 2 * (c.2.getLsbD bit).toNat

lemma bitOf_lt (h : BitVec 32) : bitOf h < 64 := by exact Nat.lt_succ_of_le Nat.and_le_right

lemma getLsbD_put (w : BitVec 64) {v bit b : ℕ} (hv : v < 2) (hb : b < 64) :
    ((w &&& ~~~(1#64 <<< bit)) ||| BitVec.ofNat 64 v <<< bit).getLsbD b =
      if b = bit then v == 1 else w.getLsbD b := by
  obtain h | rfl | h := lt_trichotomy b bit
  · simp [hb, h, h.ne]
  · interval_cases v <;> simp [hb]
  · have : b - bit ≠ 0 := by omega
    interval_cases v <;> simp [hb, h.ne', this]

lemma getLsbD_zero_sub {v b : ℕ} (hv : v < 2) (hb : b < 64) :
    (0#64 - BitVec.ofNat 64 v).getLsbD b = (v == 1) := by
  interval_cases v
  · simp
  · rw [show 0#64 - BitVec.ofNat 64 1 = BitVec.allOnes 64 from rfl, BitVec.getLsbD_allOnes]
    simp [hb]

section

variable {g b : ℕ} (hg : g < 4) (hb : b < 64) (c : BitVec 64 × BitVec 64)

include hg

lemma bits_lt : g &&& 1 < 2 ∧ g >>> 1 < 2 := by interval_cases g <;> decide

include hb

lemma level_write (bit : ℕ) : level (write g bit c) b = if b = bit then g else level c b := by
  simp only [level, write, getLsbD_put _ (bits_lt hg).1 hb, getLsbD_put _ (bits_lt hg).2 hb]
  split_ifs
  · interval_cases g <;> rfl
  · rfl

/-- The mask is zero just where both bits are those of the generation. -/
lemma level_wipe : level (wipe g c) b = if level c b = g then 0 else level c b := by
  have key : ∀ g < 4, ∀ x y : Bool, (x && (x ^^ g &&& 1 == 1 || y ^^ g >>> 1 == 1)).toNat +
      2 * (y && (x ^^ g &&& 1 == 1 || y ^^ g >>> 1 == 1)).toNat =
        if x.toNat + 2 * y.toNat = g then 0 else x.toNat + 2 * y.toNat := by decide
  simp only [level, wipe, BitVec.getLsbD_and, BitVec.getLsbD_or, BitVec.getLsbD_xor,
    getLsbD_zero_sub (bits_lt hg).1 hb, getLsbD_zero_sub (bits_lt hg).2 hb]
  exact key g hg _ _

end

lemma shift_and_one_eq_zero (c : BitVec 64 × BitVec 64) (b : ℕ) :
    ((c.1 ||| c.2) >>> b) &&& 1 = 0 ↔ level c b = 0 := by
  rw [show (1 : BitVec 64) = 1#64 from rfl, BitVec.and_one_eq_setWidth_ofBool_getLsbD]
  simp only [BitVec.getLsbD_ushiftRight, BitVec.getLsbD_or, level]
  generalize c.1.getLsbD b = x, c.2.getLsbD b = y
  revert x y
  decide

/-- The level of the position that a hash value selects. -/
def levelAt (data : Table) (h : BitVec 32) : ℕ := level (data.getD (pairOf h data) (0, 0)) (bitOf h)

section

variable {g : ℕ} {data : Table} {hs : List (BitVec 32)}

lemma pairOf_congr (h : BitVec 32) {data' : Table} (hl : data'.length = data.length) :
    pairOf h data' = pairOf h data := by rw [pairOf, pairOf, hl]

lemma pairOf_lt (h : BitVec 32) (hd : data ≠ []) : pairOf h data < data.length := by
  have hpos : 0 < data.length := List.length_pos_of_ne_nil hd
  have hlt : h.toNat * (2 * data.length) / 2 ^ 32 < 2 * data.length := by
    rw [Nat.div_lt_iff_lt_mul (by norm_num), mul_comm]
    exact mul_lt_mul_of_pos_left h.isLt (by omega)
  rw [pairOf, fastMod]
  omega

lemma getElem?_pairOf (h : BitVec 32) (hd : data ≠ []) :
    data[pairOf h data]? = some (data.getD (pairOf h data) (0, 0)) := by
  simp [pairOf_lt h hd]

lemma levelAt_wipe (hg : g < 4) (hd : data ≠ []) (x : BitVec 32) :
    levelAt (data.map (wipe g)) x = if levelAt data x = g then 0 else levelAt data x := by
  rw [levelAt, pairOf_congr x (List.length_map _), List.getD_eq_getElem?_getD, List.getElem?_map,
    getElem?_pairOf x hd, Option.map_some, Option.getD_some, level_wipe hg (bitOf_lt x), levelAt]

lemma levelAt_set (hg : g < 4) (hd : data ≠ []) (h x : BitVec 32) :
    levelAt (data.set (pairOf h data) (write g (bitOf h) (data.getD (pairOf h data) (0, 0)))) x =
      if pairOf h data = pairOf x data ∧ bitOf x = bitOf h then g else levelAt data x := by
  rw [levelAt, pairOf_congr x List.length_set, List.getD_eq_getElem?_getD, List.getElem?_set]
  by_cases hp : pairOf h data = pairOf x data
  · rw [if_pos hp, if_pos (pairOf_lt h hd), Option.getD_some, level_write hg (bitOf_lt x)]
    simp [hp, levelAt]
  · simp [hp, levelAt]

/-- The loop sets the positions of the key, and changes no others. -/
theorem insertLoop_spec (hs : List (BitVec 32)) (hg : g < 4) (hd : data ≠ []) :
    ∃ data' ≠ [], insertLoop g hs data = some data' ∧
      (∀ x, levelAt data' x = g ∨ levelAt data' x = levelAt data x) ∧ ∀ x ∈ hs,
      levelAt data' x = g := by
  induction hs generalizing data with
  | nil => exact ⟨data, hd, rfl, fun _ => .inr rfl, by simp⟩
  | cons h hs ih =>
    have hset := levelAt_set hg hd h
    obtain ⟨data', hd', hrun, hmono, hall⟩ := ih (mt (List.set_eq_nil_iff _ _).1 hd)
    refine ⟨data', hd', by rw [insertLoop, getElem?_pairOf h hd]; exact hrun, fun x => ?_,
      fun x hx => ?_⟩
    · rcases hmono x with hx | hx
      · exact .inl hx
      · rw [hx, hset]
        split_ifs <;> simp
    · rcases List.mem_cons.1 hx with rfl | hx
      · rcases hmono x with hx | hx
        · exact hx
        · rw [hx, hset, if_pos ⟨rfl, rfl⟩]
      · exact hall x hx

lemma containsLoop_eq (hd : data ≠ []) (h : ∀ x ∈ hs, levelAt data x ≠ 0) :
    containsLoop data hs = some true := by
  induction hs with
  | nil => rfl
  | cons x hs ih =>
    have hx : ¬ level (data.getD (pairOf x data) (0, 0)) (bitOf x) = 0 := h x List.mem_cons_self
    rw [containsLoop, getElem?_pairOf x hd]
    simp only [shift_and_one_eq_zero, if_neg hx]
    exact ih fun y hy => h y (List.mem_cons_of_mem x hy)

end

/-! ## Generations -/

/-- The levels that a key can have left when so many generations have begun since. -/
def Recent (g : ℕ) : ℕ → ℕ → Prop
  | 0, v => v = g
  | 1, v => v = g ∨ v ≠ 0 ∧ nextGeneration v = g
  | _, v => v ≠ 0

lemma recent_self {g : ℕ} (hg : 0 < g) (j : ℕ) : Recent g j g := by
  match j with
  | 0 => rfl
  | 1 => exact .inl rfl
  | _ + 2 => exact hg.ne'

lemma Recent.ne_zero {g j v : ℕ} (h : Recent g j v) (hg : 0 < g) : v ≠ 0 := by
  match j with
  | 0 => exact fun h0 => hg.ne' (h.symm.trans h0)
  | 1 => rcases h with rfl | h; exacts [hg.ne', h.1]
  | _ + 2 => exact h

/-- The number that a new generation takes is that of no key of the last two. -/
lemma Recent.next {g j v : ℕ} (hv : Recent g j v) (hg : 0 < g ∧ g < 4) (hj : j < 2) :
    v ≠ nextGeneration g ∧ Recent (nextGeneration g) (j + 1) v := by
  match j with
  | 0 =>
    obtain rfl : v = g := hv
    refine ⟨?_, .inr ⟨by omega, rfl⟩⟩
    rw [nextGeneration]
    split_ifs <;> omega
  | 1 =>
    show v ≠ nextGeneration g ∧ v ≠ 0
    rcases hv with rfl | ⟨hv, rfl⟩ <;> unfold nextGeneration at * <;> split_ifs at * <;> omega

namespace CRollingBloomFilter

variable {Key : Type} {hashes : Key → List (BitVec 32)} {f : CRollingBloomFilter} {n : ℕ}
  {cur : List Key} {rest : List (List Key)}

/-- The keys of the current generation and of those before it, the latest first. -/
structure Inv (hashes : Key → List (BitVec 32)) (n : ℕ) (f : CRollingBloomFilter) (cur : List Key)
    (rest : List (List Key)) : Prop where
  per : f.nEntriesPerGeneration = n
  gen : 0 < f.nGeneration ∧ f.nGeneration < 4
  table : f.data ≠ []
  count : cur.length = f.nEntriesThisGeneration
  full : ∀ keys ∈ rest, keys.length = n
  reads : ∀ j < 3, ∀ keys, (cur :: rest)[j]? = some keys → ∀ k ∈ keys, ∀ x ∈ hashes k,
    Recent f.nGeneration j (levelAt f.data x)

lemma Inv.rotate (hi : Inv hashes n f cur rest)
    (hfull : f.nEntriesThisGeneration = f.nEntriesPerGeneration) :
    Inv hashes n f.rotate [] (cur :: rest) := by
  have hg : 0 < nextGeneration f.nGeneration ∧ nextGeneration f.nGeneration < 4 := by
    have := hi.gen
    rw [nextGeneration]
    split_ifs <;> omega
  rw [CRollingBloomFilter.rotate, if_pos hfull]
  refine ⟨hi.per, hg, mt List.map_eq_nil_iff.1 hi.table, rfl, ?_,
    fun j hj keys hkeys k hk x hx => ?_⟩
  · exact List.forall_mem_cons.2 ⟨by rw [hi.count, hfull, hi.per], hi.full⟩
  · cases j with
    | zero =>
      obtain rfl : [] = keys := by simpa using hkeys
      simp at hk
    | succ j =>
      have hv := (hi.reads j (by omega) keys
        (by simpa using hkeys) k hk x hx).next hi.gen (by omega)
      rw [levelAt_wipe hg.2 hi.table, if_neg hv.1]
      exact hv.2

lemma Inv.insert (hi : Inv hashes n f cur rest) (k : Key) :
    ∃ f' cur' rest', f.insert hashes k = some f' ∧ Inv hashes n f' cur' rest' ∧
      cur' ++ rest'.flatten = k :: (cur ++ rest.flatten) := by
  -- the lists once the generation has changed, if it does
  obtain ⟨cur', rest', hr, heq⟩ : ∃ cur' rest', Inv hashes n f.rotate cur' rest' ∧
      cur' ++ rest'.flatten = cur ++ rest.flatten := by
    by_cases hfull : f.nEntriesThisGeneration = f.nEntriesPerGeneration
    · exact ⟨_, _, hi.rotate hfull, rfl⟩
    · refine ⟨cur, rest, ?_, rfl⟩
      rwa [CRollingBloomFilter.rotate, if_neg hfull]
  obtain ⟨data, hd, hrun, hmono, hall⟩ := insertLoop_spec (hashes k) hr.gen.2 hr.table
  refine ⟨_, k :: cur', rest', by rw [CRollingBloomFilter.insert, hrun]; rfl, ?_,
    by rw [← heq]; rfl⟩
  refine ⟨hr.per, hr.gen, hd, congrArg (· + 1) hr.count, hr.full,
    fun j hj keys hkeys k' hk' x hx => ?_⟩
  rcases hmono x with h | h
  · rw [h]
    exact recent_self hr.gen.1 j
  · cases j with
    | zero =>
      obtain rfl : k :: cur' = keys := by simpa using hkeys
      rcases List.mem_cons.1 hk' with rfl | hk'
      · exact hall x hx
      · exact h ▸ hr.reads 0 hj cur' rfl k' hk' x hx
    | succ j => exact h ▸ hr.reads (j + 1) hj keys hkeys k' hk' x hx

lemma Inv.insertAll (hi : Inv hashes n f cur rest) (keys : List Key) :
    ∃ f' cur' rest', f.insertAll hashes keys = some f' ∧ Inv hashes n f' cur' rest' ∧
      cur' ++ rest'.flatten = keys.reverse ++ (cur ++ rest.flatten) := by
  induction keys generalizing f cur rest with
  | nil => exact ⟨f, cur, rest, rfl, hi, rfl⟩
  | cons k keys ih =>
    obtain ⟨f1, _, _, hk, hi1, h1⟩ := hi.insert k
    obtain ⟨f', cur', rest', hrun, hi', h'⟩ := ih hi1
    refine ⟨f', cur', rest', by rw [CRollingBloomFilter.insertAll, hk]; exact hrun, hi', ?_⟩
    rw [h', h1]
    simp

/-- Two generations hold no fewer than `nElements` keys. -/
lemma Inv.contains {m : ℕ} (hi : Inv hashes ((m + 1) % 2 ^ 32 / 2) f cur rest)
    (hm : m < 2 ^ 32) {k : Key}
    (hk : k ∈ (cur ++ rest.flatten).take m) : f.contains hashes k = some true := by
  obtain ⟨j, hj, keys, hkeys, hmem⟩ : ∃ j < 3, ∃ keys, (cur :: rest)[j]? = some keys ∧
    k ∈ keys := by
    match rest with
    | [] => exact ⟨0, by decide, cur, rfl, by simpa using List.mem_of_mem_take hk⟩
    | [a] =>
      have hmem : k ∈ cur ∨ k ∈ a := by simpa using List.mem_of_mem_take hk
      rcases hmem with h | h
      exacts [⟨0, by decide, cur, rfl, h⟩, ⟨1, by decide, a, rfl, h⟩]
    | a :: b :: older =>
      have hlen : a.length = _ ∧ b.length = _ := ⟨hi.full a (by simp), hi.full b (by simp)⟩
      have hcut : (cur ++ (a :: b :: older).flatten).take m ⊆ cur ++ (a ++ b) := by
        rw [List.flatten_cons, List.flatten_cons, ← List.append_assoc a, ← List.append_assoc cur]
        rcases eq_zero_or_pos ((m + 1) % 2 ^ 32 / 2) with h0 | hpos
        · -- only `2 ^ 32 - 1` elements make empty generations
          have hnil : older.flatten = [] := List.flatten_eq_nil_iff.2 fun keys hkeys =>
            List.length_eq_zero_iff.1 ((hi.full keys (by simp [hkeys])).trans h0)
          rw [hnil, List.append_nil]
          exact List.take_subset m _
        · rw [List.take_append_of_le_length (by simp only [List.length_append]; omega)]
          exact List.take_subset m _
      have hmem : k ∈ cur ∨ k ∈ a ∨ k ∈ b := by simpa using hcut hk
      rcases hmem with h | h | h
      exacts [⟨0, by decide, cur, rfl, h⟩, ⟨1, by decide, a, rfl, h⟩, ⟨2, by decide, b, rfl, h⟩]
  exact containsLoop_eq hi.table fun x hx => (hi.reads j hj keys hkeys k hmem x hx).ne_zero hi.gen.1

end CRollingBloomFilter

/-- The values of `RollingBloomHash(n, nTweak, vKey)`. -/
def hashes (hash : ℕ → List UInt8 → BitVec 32) (nHashFuncs : ℕ) (vKey : List UInt8) : List
    (BitVec 32) :=
  (List.range nHashFuncs).map fun n => hash n vKey

open CRollingBloomFilter in
/-- None of the last `nElements` keys is missed, unless the table is empty. -/
theorem rollingBloom_iff (hash : ℕ → List UInt8 → BitVec 32) {nHashFuncs : ℕ} (hh : 1 ≤ nHashFuncs)
    (filterBits : ℕ → ℕ) {nElements : ℕ} (hn : nElements < 2 ^ 32) :
    (∀ keys, ∃ f, (new nElements filterBits).insertAll (hashes hash nHashFuncs) keys = some f ∧
      ∀ k ∈ keys.reverse.take nElements, f.contains (hashes hash nHashFuncs) k = some true) ↔
    (new nElements filterBits).data ≠ [] := by
  refine ⟨fun h hd => ?_, fun hd keys => ?_⟩
  · -- the first access of the first key already leaves the table
    obtain ⟨f, hf, -⟩ := h [[]]
    obtain ⟨m, rfl⟩ := Nat.exists_eq_add_of_le' hh
    have hrot : (new nElements filterBits).rotate.data = [] := by
      rw [rotate]
      split_ifs <;> simp [hd]
    simp [insertAll, CRollingBloomFilter.insert, hrot, hashes, List.range_succ_eq_map,
      insertLoop] at hf
  · have hnew : Inv (hashes hash nHashFuncs) ((nElements + 1) % 2 ^ 32 / 2)
      (new nElements filterBits) [] [] :=
      ⟨rfl, ⟨one_pos, (by decide : 1 < 4)⟩, hd, rfl, by simp, fun j _ keys hkeys k hk => ?_⟩
    · obtain ⟨f, cur, rest, hrun, hi, heq⟩ := hnew.insertAll keys
      refine ⟨f, hrun, fun k hk => hi.contains hn ?_⟩
      rw [heq]
      simpa using hk
    · have : keys = [] := by cases j <;> simp_all
      simp [this] at hk

/-- A hash function that tells short keys apart. -/
def spread (n : ℕ) (vKey : List UInt8) : BitVec 32 :=
  vKey.foldl (fun h byte => h + 7 * (BitVec.ofNat 32 byte.toNat + 1)) (BitVec.ofNat 32 (41 * n))

/-- Seven keys, for a filter whose generations have two. -/
def sevenKeys : List (List UInt8) := [[0], [1], [2], [3], [4], [5], [6]]

open CRollingBloomFilter in
/-- The fourth generation takes the place of the first, whose keys are forgotten; the last four keys
are there. -/
theorem rollingBloom_iff_window : (new 4 fun _ => 128).data ≠ [] ∧
    ∃ f, (new 4 fun _ => 128).insertAll (hashes spread 2) sevenKeys = some f ∧
      f.nGeneration = 1 ∧ f.contains (hashes spread 2) [0] = some false ∧
      ∀ k ∈ sevenKeys.reverse.take 4, f.contains (hashes spread 2) k = some true := by
  have hd : (new 4 fun _ => 128).data ≠ [] := by decide
  obtain ⟨f, hf, hlast⟩ := (rollingBloom_iff spread (by decide : 1 ≤ 2) (fun _ => 128)
    (by norm_num : 4 < 2 ^ 32)).2 hd sevenKeys
  have hfirst : ((new 4 fun _ => 128).insertAll (hashes spread 2) sevenKeys).map (fun f =>
      (f.nGeneration, f.contains (hashes spread 2) [0])) = some (1, some false) := by
    decide +kernel
  rw [hf] at hfirst
  obtain ⟨hgeneration, hforgotten⟩ := Prod.mk.inj (Option.some.inj hfirst)
  exact ⟨hd, f, hf, hgeneration, hforgotten, hlast⟩

open CRollingBloomFilter in
/-- After the largest `nElements` comes zero: a formula proportional to the number of keys gives no
bits for it, and the first key is written outside the table. -/
theorem rollingBloom_max_not_contained :
    ¬ ∃ f, (new (2 ^ 32 - 1) id).insertAll (hashes (fun _ _ => 0) 1) [[]] = some f ∧
      f.contains (hashes (fun _ _ => 0) 1) [] = some true := by
  simp [insertAll, CRollingBloomFilter.insert, rotate, new, hashes, insertLoop]

end Bitcoin.Filter
