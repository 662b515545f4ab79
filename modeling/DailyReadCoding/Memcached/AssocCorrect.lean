import Mathlib
import DailyReadCoding.Memcached.Assoc

/-!
# The hash table while it grows

At every moment each stored item has one place, the bucket its hash value selects, and the chain at
a bucket holds exactly the items whose place it is.  Moving a bucket changes the place of its items
and of no others, so that lookups find what they should at any point of an expansion.
-/

namespace Memcached.Assoc

open LinkedHeap List Function State Nat

variable {K A : Type}

/-! ## Memory -/

/-- The links of the items. -/
def State.next (s : State K A) (a : A) : Option A := (s.items a).hNext

/-- A bucket changed, where there is one. -/
def State.setCell (s : State K A) (p : Place) (v : Option A) : State K A :=
  { s with blocks := Function.update s.blocks p.1 ((s.blocks p.1).map (·.set p.2 v)) }

variable {head : Option A}

section Memory

variable (s : State K A) (p q : Place) (v : Option A) (it : A) (hv : ℕ)

lemma writeCell_eq (h : s.readCell p = some head) : s.writeCell p v = some (s.setCell p v) := by
  rw [readCell] at h
  rw [writeCell, setCell]
  cases hblock : s.blocks p.1 with
  | none => simp [hblock] at h
  | some table =>
    rw [hblock] at h
    dsimp only at h ⊢
    split_ifs at h with hsize
    rw [if_pos hsize]
    rfl

lemma readCell_setCell : (s.setCell p v).readCell q =
    if q = p then (s.readCell p).map fun _ => v else s.readCell q := by
  obtain ⟨n, i⟩ := p
  obtain ⟨m, j⟩ := q
  by_cases hblock : m = n
  · subst hblock
    cases hm : s.blocks m with
    | none => simp [readCell, setCell, hm]
    | some table =>
      by_cases hj : j = i
      · subst hj
        by_cases hsize : j < table.size <;>
          simp [readCell, setCell, hm, Table.set, hsize]
      · simp [readCell, setCell, hm, Table.set, hj]
  · simp [readCell, setCell, hblock]

@[simp] lemma next_setCell : (s.setCell p v).next = s.next := rfl

@[simp] lemma items_setCell : (s.setCell p v).items = s.items := rfl

variable [DecidableEq A]

@[simp] lemma readCell_setNext : (s.setNext it v).readCell p = s.readCell p := rfl

@[simp] lemma next_setNext : (s.setNext it v).next = update s.next it v := by
  funext a
  by_cases ha : a = it
  · simp [State.next, setNext, ha]
  · simp [State.next, setNext, ha]

@[simp] lemma key_setNext (a : A) : ((s.setNext it v).items a).key = (s.items a).key := by
  by_cases ha : a = it
  · simp [setNext, ha]
  · simp [setNext, ha]

end Memory

lemma and_hashmask_lt (hv n : ℕ) : hv &&& hashmask n < hashsize n := by
  rw [hashmask, hashsize, one_shiftLeft, and_two_pow_sub_one_eq_mod]
  exact mod_lt _ (Nat.two_pow_pos n)

/-! ## The invariant -/

/-- The tables in use are there, and of the right size. -/
structure Layout (s : State K A) : Prop where
  primary : ∃ t, s.blocks s.primaryHashtable = some t ∧ t.size = hashsize s.hashpower
  power : s.hashpower ≤ HASHPOWER_MAX
  old : s.expanding = true → 0 < s.hashpower ∧
    s.expandBucket.toNat < hashsize (s.hashpower - 1) ∧
    s.oldHashtable ≠ s.primaryHashtable ∧
    ∃ t, s.blocks s.oldHashtable = some t ∧ t.size = hashsize (s.hashpower - 1)
  fresh : ∀ n, s.nextBlock ≤ n → s.blocks n = none

/-- Places and chains agree. -/
structure Inv (hash : K → ℕ) (s : State K A) (stored : List (K × A)) : Prop extends Layout s where
  keys : (stored.map (·.1)).Nodup
  addrs : (stored.map (·.2)).Nodup
  key : ∀ e ∈ stored, (s.items e.2).key = e.1
  count : s.hashItems = BitVec.ofNat 32 stored.length
  chain : ∀ p head, s.readCell p = some head → ∃ l, Chain s.next head l ∧
    ∀ a, a ∈ l ↔ ∃ k, (k, a) ∈ stored ∧ s.placeOf (hash k) = p

lemma Layout.setCell {s : State K A} (h : Layout s) (p : Place) (v : Option A) :
    Layout (s.setCell p v) := by
  have hblock : ∀ {n t}, s.blocks n = some t →
      ∃ t', (s.setCell p v).blocks n = some t' ∧ t'.size = t.size := by
    intro n t ht
    by_cases hn : n = p.1
    · subst hn
      exact ⟨t.set p.2 v, by simp [State.setCell, ht], rfl⟩
    · exact ⟨t, by simp [State.setCell, hn, ht], rfl⟩
  obtain ⟨t, ht, hsize⟩ := h.primary
  refine ⟨?_, h.power, fun hexp => ?_, fun n hn => ?_⟩
  · obtain ⟨t', ht', hsize'⟩ := hblock ht
    exact ⟨t', ht', hsize'.trans hsize⟩
  · obtain ⟨hpos, hlt, hne, t, ht, hsize⟩ := h.old hexp
    obtain ⟨t', ht', hsize'⟩ := hblock ht
    exact ⟨hpos, hlt, hne, t', ht', hsize'.trans hsize⟩
  · have hnone := h.fresh n hn
    by_cases hn' : n = p.1
    · subst hn'
      simp [State.setCell, hnone]
    · simp [State.setCell, hn', hnone]

/-- The bucket counter does not wrap while the table expands. -/
lemma Layout.toNat_expandBucket_succ {s : State K A} (h : Layout s) (hexp : s.expanding = true) :
    (s.expandBucket + 1).toNat = s.expandBucket.toNat + 1 := by
  obtain ⟨-, hlt, -⟩ := h.old hexp
  have hpower : s.hashpower - 1 ≤ 31 := Nat.sub_le_sub_right h.power 1
  have hle : 2 ^ (s.hashpower - 1) ≤ 2 ^ 31 := Nat.pow_le_pow_right (by decide) hpower
  rw [hashsize, one_shiftLeft] at hlt
  have hone : (1 : BitVec 32).toNat = 1 := rfl
  rw [BitVec.toNat_add, hone, mod_eq_of_lt (by omega)]

variable {i fuel : ℕ}

lemma readCell_of_block {s : State K A} {n : ℕ} {t : Table A} (ht : s.blocks n = some t)
    (hi : i < t.size) : s.readCell (n, i) = some (t.cell i) := by
  simp [readCell, ht, hi]

variable {k key : K} {a : A} {l l1 l2 : List A}

section Places

variable {hash : K → ℕ} {s : State K A} {stored : List (K × A)} (hinv : Inv hash s stored)

include hinv

lemma Inv.readCell_primary (hv : ℕ) :
    ∃ head, s.readCell (s.primaryHashtable, hv &&& hashmask s.hashpower) = some head := by
  obtain ⟨t, ht, hsize⟩ := hinv.primary
  exact ⟨_, readCell_of_block ht (hsize ▸ and_hashmask_lt hv _)⟩

/-- Every hash value has a bucket. -/
lemma Inv.readCell_placeOf (hv : ℕ) : ∃ head, s.readCell (s.placeOf hv) = some head := by
  rw [placeOf]
  split_ifs with hold
  · obtain ⟨-, -, -, t, ht, hsize⟩ := hinv.old hold.1
    exact ⟨_, readCell_of_block ht (hsize ▸ and_hashmask_lt hv _)⟩
  · exact hinv.readCell_primary hv

lemma Inv.key_eq {k' : K} (h : (k, a) ∈ stored) (h' : (k', a) ∈ stored) : k = k' :=
  (hinv.key _ h).symm.trans (hinv.key _ h')

lemma Inv.addr_eq {a' : A} (h : (k, a) ∈ stored) (h' : (k, a') ∈ stored) : a = a' := by
  have heq := inj_on_of_nodup_map hinv.keys h h' rfl
  exact congrArg Prod.snd heq

lemma Inv.place_eq {p q : Place} (hp : ∃ k, (k, a) ∈ stored ∧ s.placeOf (hash k) = p)
    (hq : ∃ k, (k, a) ∈ stored ∧ s.placeOf (hash k) = q) : p = q := by
  obtain ⟨k, hk, rfl⟩ := hp
  obtain ⟨k', hk', rfl⟩ := hq
  rw [hinv.key_eq hk hk']

omit hinv in
/-- A chain has at most as many items as are stored. -/
lemma length_le_stored (hnodup : l.Nodup) (hmem : ∀ a ∈ l, ∃ k, (k, a) ∈ stored) :
    l.length ≤ stored.length := by
  have hsub : l ⊆ stored.map (·.2) := by
    intro a ha
    obtain ⟨k, hk⟩ := hmem a ha
    exact mem_map.2 ⟨(k, a), hk, rfl⟩
  have hle := (subperm_of_subset hnodup hsub).length_le
  rwa [length_map] at hle

end Places

/-! ## Lookups -/

section Lookups

variable [DecidableEq K] {hash : K → ℕ} {s : State K A} {stored : List (K × A)}

lemma findLoop_eq (key : K) (hchain : Chain s.next head l) (hfuel : l.length < fuel) :
    findLoop key s fuel head = some (l.find? fun a => key = (s.items a).key) := by
  induction l generalizing fuel head with
  | nil =>
    obtain _ | fuel := fuel
    · omega
    obtain rfl : head = none := hchain
    rfl
  | cons a l ih =>
    obtain _ | fuel := fuel
    · omega
    obtain ⟨rfl, hrest⟩ := hchain
    rw [findLoop]
    by_cases hkey : key = (s.items a).key
    · rw [if_pos hkey, find?_cons_of_pos (by simpa using hkey)]
    · rw [if_neg hkey, find?_cons_of_neg (by simpa using hkey)]
      exact ih hrest (lt_of_succ_lt_succ hfuel)

lemma lookup_eq_some (hkeys : (stored.map (·.1)).Nodup) :
    Stored.lookup stored k = some a ↔ (k, a) ∈ stored := by
  rw [Stored.lookup, Option.map_eq_some_iff]
  constructor
  · rintro ⟨e, he, rfl⟩
    have hk : e.1 = k := by simpa using find?_some he
    rw [← hk]
    exact mem_of_find?_eq_some he
  · intro hmem
    cases hfind : stored.find? (·.1 = k) with
    | none => exact absurd (decide_eq_true rfl) (List.find?_eq_none.1 hfind (k, a) hmem)
    | some e =>
      have hk : e.1 = k := by simpa using find?_some hfind
      have he := inj_on_of_nodup_map hkeys (mem_of_find?_eq_some hfind) hmem hk
      exact ⟨e, rfl, congrArg Prod.snd he⟩

/-- **Lookups find the stored items.** -/
theorem Inv.find (hinv : Inv hash s stored) (hfuel : stored.length < fuel) (key : K) :
    assocFind key (hash key) fuel s = some (Stored.lookup stored key) := by
  obtain ⟨head, hhead⟩ := hinv.readCell_placeOf (hash key)
  obtain ⟨l, hchain, hmem⟩ := hinv.chain _ _ hhead
  have hlength := length_le_stored hchain.nodup fun a ha => ((hmem a).1 ha).imp fun _ h => h.1
  have hloop := findLoop_eq key hchain (lt_of_le_of_lt hlength hfuel)
  have hresult : (l.find? fun a => key = (s.items a).key) = Stored.lookup stored key := by
    refine Option.ext fun a => ?_
    rw [lookup_eq_some hinv.keys]
    constructor
    · intro hfind
      have ha : key = (s.items a).key := by simpa using find?_some hfind
      obtain ⟨k, hk, -⟩ := (hmem a).1 (mem_of_find?_eq_some hfind)
      rwa [ha, hinv.key _ hk]
    · intro ha
      have ha_mem : a ∈ l := (hmem a).2 ⟨key, ha, rfl⟩
      cases hfind : l.find? fun a => key = (s.items a).key with
      | none =>
        exact absurd (decide_eq_true (hinv.key _ ha).symm) (List.find?_eq_none.1 hfind a ha_mem)
      | some b =>
        have hb : key = (s.items b).key := by simpa using find?_some hfind
        obtain ⟨k, hk, -⟩ := (hmem b).1 (mem_of_find?_eq_some hfind)
        have hk_key : k = key := (hinv.key _ hk).symm.trans hb.symm
        exact congrArg some (hinv.addr_eq (hk_key ▸ hk) ha)
  rw [assocFind, hhead, ← hresult]
  exact hloop

end Lookups

/-! ## Steps -/

section Steps

variable {hash : K → ℕ} {s : State K A} {stored : List (K × A)} (hinv : Inv hash s stored)

lemma next_alloc [DecidableEq A] (s : State K A) (it : A) (key : K) :
    (s.alloc it key).next = update s.next it none := by
  funext a
  by_cases ha : a = it
  · simp [State.next, alloc, ha]
  · simp [State.next, alloc, ha]

/-- Counting an item, and asking for room, changes nothing else. -/
lemma countInsert_eq (s : State K A) : ∃ b : Bool, countInsert s =
    { s with hashItems := s.hashItems + 1, startedExpanding := b } := by
  rw [countInsert]
  split_ifs
  · exact ⟨true, rfl⟩
  · exact ⟨s.startedExpanding, rfl⟩

include hinv

/-- `assoc_insert` of an absent key. -/
theorem Inv.insert [DecidableEq A] {it : A} (hnew : ∀ e ∈ stored, e.1 ≠ key ∧ e.2 ≠ it) :
    ∃ s', assocInsert it (hash key) (s.alloc it key) = some s' ∧
      Inv hash s' ((key, it) :: stored) := by
  obtain ⟨head, hhead⟩ := hinv.readCell_placeOf (hash key)
  set place := s.placeOf (hash key) with hplace
  have hwrite := writeCell_eq ((s.alloc it key).setNext it head) place (some it) hhead
  set s1 := ((s.alloc it key).setNext it head).setCell place (some it) with hs1
  obtain ⟨b, hcount⟩ := countInsert_eq s1
  refine ⟨countInsert s1, ?_, ?_⟩
  · change (s.readCell place).bind _ = _
    rw [hhead]
    change (((s.alloc it key).setNext it head).writeCell place (some it)).bind _ = _
    rw [hwrite]
    rfl
  have hnext : (countInsert s1).next = update s.next it head := by
    rw [hcount]
    change s1.next = _
    rw [next_setCell, next_setNext, next_alloc, update_idem]
  have hread : ∀ p, (countInsert s1).readCell p =
      if p = place then some (some it) else s.readCell p := by
    intro p
    rw [hcount]
    change s1.readCell p = _
    rw [readCell_setCell]
    change (if p = place then (s.readCell place).map _ else s.readCell p) = _
    rw [hhead, Option.map_some]
  have hplaces : ∀ hv, (countInsert s1).placeOf hv = s.placeOf hv := by
    intro hv
    rw [hcount]
    rfl
  have hkey : ∀ a, ((countInsert s1).items a).key = if a = it then key else (s.items a).key := by
    intro a
    rw [hcount]
    change ((s.alloc it key).setNext it head |>.items a).key = _
    by_cases ha : a = it
    · simp [alloc, ha]
    · simp [alloc, ha]
  have hlayout0 : Layout ((s.alloc it key).setNext it head) :=
    ⟨hinv.primary, hinv.power, hinv.old, hinv.fresh⟩
  have hlayout : Layout s1 := hlayout0.setCell place (some it)
  have hunused : ∀ {p} {l : List A}, (∀ a, a ∈ l ↔ ∃ k, (k, a) ∈ stored ∧ s.placeOf (hash k) = p)
    → it ∉ l := by
    intro p l hmem hit
    obtain ⟨k, hk, -⟩ := (hmem it).1 hit
    exact (hnew _ hk).2 rfl
  constructor
  · rw [hcount]
    exact ⟨hlayout.primary, hlayout.power, hlayout.old, hlayout.fresh⟩
  · rw [map_cons, nodup_cons]
    refine ⟨fun hmem => ?_, hinv.keys⟩
    obtain ⟨e, he, heq⟩ := mem_map.1 hmem
    exact (hnew e he).1 heq
  · rw [map_cons, nodup_cons]
    refine ⟨fun hmem => ?_, hinv.addrs⟩
    obtain ⟨e, he, heq⟩ := mem_map.1 hmem
    exact (hnew e he).2 heq
  · intro e he
    rw [hkey]
    rcases mem_cons.1 he with rfl | he
    · rw [if_pos rfl]
    · rw [if_neg (hnew e he).2, hinv.key e he]
  · rw [hcount, length_cons, BitVec.ofNat_add, ← hinv.count]
    rfl
  · intro p head' hp
    rw [hread] at hp
    simp only [hnext, hplaces, mem_cons, Prod.mk.injEq]
    by_cases hp' : p = place
    · subst hp'
      obtain rfl : some it = head' := by simpa using hp
      obtain ⟨l, hchain, hmem⟩ := hinv.chain _ _ hhead
      refine ⟨it :: l, hchain.push (hunused hmem), fun a => ?_⟩
      rw [mem_cons, hmem]
      constructor
      · rintro (rfl | ⟨k, hk, hk'⟩)
        · exact ⟨key, .inl ⟨rfl, rfl⟩, rfl⟩
        · exact ⟨k, .inr hk, hk'⟩
      · rintro ⟨k, ⟨-, rfl⟩ | hk, hk'⟩
        · exact .inl rfl
        · exact .inr ⟨k, hk, hk'⟩
    · rw [if_neg hp'] at hp
      obtain ⟨l, hchain, hmem⟩ := hinv.chain p head' hp
      refine ⟨l, hchain.update (hunused hmem) head, fun a => ?_⟩
      rw [hmem]
      constructor
      · rintro ⟨k, hk, hk'⟩
        exact ⟨k, .inr hk, hk'⟩
      · rintro ⟨k, ⟨rfl, rfl⟩ | hk, hk'⟩
        · exact absurd hk'.symm hp'
        · exact ⟨k, hk, hk'⟩

omit hinv

/-- Where the search stands after some items. -/
def posAfter : Pos A → List A → Pos A
  | pos, [] => pos
  | _, b :: l => posAfter (.link b) l

lemma posAfter_append (pos : Pos A) (l : List A) (b : A) : posAfter pos (l ++ [b]) = .link b := by
  induction l generalizing pos with
  | nil => rfl
  | cons c l ih => exact ih (.link c)

/-- `_hashitem_before` stops at the pointer to the item with the key. -/
lemma beforeLoop_eq [DecidableEq K] (ha : (s.items a).key = key)
    {pos : Pos A} (hpos : s.readPos pos = some head)
    (hchain : Chain s.next head (l1 ++ a :: l2)) (hne : ∀ b ∈ l1, (s.items b).key ≠ key)
    (hfuel : l1.length < fuel) : beforeLoop key s fuel pos = some (posAfter pos l1) ∧
      s.readPos (posAfter pos l1) = some (some a) := by
  induction l1 generalizing fuel pos head with
  | nil =>
    obtain _ | fuel := fuel
    · omega
    obtain ⟨rfl, -⟩ := hchain
    refine ⟨?_, hpos⟩
    rw [beforeLoop, hpos]
    exact if_neg (not_not.2 ha.symm)
  | cons b l1 ih =>
    obtain _ | fuel := fuel
    · omega
    obtain ⟨rfl, hrest⟩ := hchain
    have hb := hne b mem_cons_self
    have hlink : s.readPos (.link b) = some (s.next b) := rfl
    obtain ⟨hloop, hread⟩ := ih hlink hrest
      (fun c hc => hne c (mem_cons_of_mem _ hc)) (lt_of_succ_lt_succ hfuel)
    refine ⟨?_, hread⟩
    rw [beforeLoop, hpos]
    exact (if_pos hb.symm).trans hloop

/-- One entry has the key. -/
lemma length_filter_key [DecidableEq K] (hkeys : (stored.map (·.1)).Nodup)
    (ha : (key, a) ∈ stored) : (stored.filter (·.1 ≠ key)).length + 1 = stored.length := by
  have hone := count_eq_one_of_mem hkeys (mem_map_of_mem ha)
  rw [List.count, countP_map] at hone
  have hsplit := stored.length_eq_countP_add_countP (·.1 == key)
  simp_all [countP_eq_length_filter, comp_def, Nat.add_comm]

include hinv

/-- Unlinking one item from its chain removes its key from what is stored. -/
lemma Inv.remove [DecidableEq K] {s' : State K A} {head' : Option A} (ha : (key, a) ∈ stored)
    (hmem : ∀ x, x ∈ l1 ++ a :: l2 ↔ ∃ k, (k, x) ∈ stored ∧ s.placeOf (hash k) =
      s.placeOf (hash key)) (hnodup : (l1 ++ a :: l2).Nodup)
    (hlayout : Layout s') (hplaces : ∀ hv, s'.placeOf hv = s.placeOf hv)
    (hkey : ∀ x, (s'.items x).key = (s.items x).key) (hcount : s'.hashItems = s.hashItems - 1)
    (hread : s'.readCell (s.placeOf (hash key)) = some head')
    (hchain : Chain s'.next head' (l1 ++ l2))
    (hread_of_ne : ∀ p, p ≠ s.placeOf (hash key) → s'.readCell p = s.readCell p)
    (hnext : ∀ x, x ∉ l1 ++ a :: l2 → s'.next x = s.next x) :
    Inv hash s' (stored.filter (·.1 ≠ key)) := by
  have hkept : ∀ {k x}, (k, x) ∈ stored.filter (·.1 ≠ key) ↔ (k, x) ∈ stored ∧ x ≠ a := by
    intro k x
    rw [mem_filter, decide_eq_true_eq]
    refine and_congr_right fun hx => not_congr ⟨?_, ?_⟩
    · rintro rfl
      exact hinv.addr_eq hx ha
    · rintro rfl
      exact hinv.key_eq hx ha
  have hl : ∀ x, x ∈ l1 ++ l2 ↔ x ∈ l1 ++ a :: l2 ∧ x ≠ a := by
    intro x
    have ha' : a ∉ l1 ++ l2 := (nodup_middle.1 hnodup |> nodup_cons.1).1
    simp only [mem_append, mem_cons] at ha' ⊢
    constructor
    · intro hx
      exact ⟨hx.imp_right .inr, fun heq => ha' (heq ▸ hx)⟩
    · rintro ⟨hx | rfl | hx, hxa⟩
      · exact .inl hx
      · exact absurd rfl hxa
      · exact .inr hx
  constructor
  · exact hlayout
  · exact hinv.keys.sublist (filter_sublist.map _)
  · exact hinv.addrs.sublist (filter_sublist.map _)
  · intro e he
    rw [hkey]
    exact hinv.key e (mem_of_mem_filter he)
  · rw [hcount, hinv.count, ← length_filter_key hinv.keys ha, BitVec.ofNat_add]
    exact BitVec.add_sub_cancel _ _
  · intro p head hp
    simp only [hplaces, hkept]
    by_cases hp' : p = s.placeOf (hash key)
    · subst hp'
      obtain rfl : head' = head := Option.some.inj (hread.symm.trans hp)
      refine ⟨l1 ++ l2, hchain, fun x => ?_⟩
      rw [hl, hmem]
      constructor
      · rintro ⟨⟨k, hk, hk'⟩, hx⟩
        exact ⟨k, ⟨hk, hx⟩, hk'⟩
      · rintro ⟨k, ⟨hk, hx⟩, hk'⟩
        exact ⟨⟨k, hk, hk'⟩, hx⟩
    · rw [hread_of_ne p hp'] at hp
      obtain ⟨l, hl_chain, hl_mem⟩ := hinv.chain p head hp
      -- the chain has no item in common with the one that changes
      have hdisjoint : ∀ x ∈ l, x ∉ l1 ++ a :: l2 :=
        fun x hx hx' => hp' (hinv.place_eq ((hl_mem x).1 hx) ((hmem x).1 hx'))
      refine ⟨l, hl_chain.congr fun x hx => hnext x (hdisjoint x hx), fun x => ?_⟩
      constructor
      · intro hx
        obtain ⟨k, hk, hk'⟩ := (hl_mem x).1 hx
        refine ⟨k, ⟨hk, fun heq => ?_⟩, hk'⟩
        exact hdisjoint x hx (by simp [heq])
      · rintro ⟨k, ⟨hk, -⟩, hk'⟩
        exact (hl_mem x).2 ⟨k, hk, hk'⟩

/-- `assoc_delete` of a present key. -/
theorem Inv.delete [DecidableEq K] [DecidableEq A] (hfuel : stored.length < fuel)
    (ha : (key, a) ∈ stored) : ∃ s', assocDelete key (hash key) fuel s = some s' ∧
      Inv hash s' (stored.filter (·.1 ≠ key)) := by
  obtain ⟨head, hhead⟩ := hinv.readCell_placeOf (hash key)
  obtain ⟨l, hchain, hmem⟩ := hinv.chain _ _ hhead
  have hnodup := hchain.nodup
  have hlength := length_le_stored hnodup fun x hx => ((hmem x).1 hx).imp fun _ h => h.1
  obtain ⟨l1, l2, rfl⟩ := append_of_mem ((hmem a).2 ⟨key, ha, rfl⟩)
  have hne : ∀ b ∈ l1, (s.items b).key ≠ key := by
    intro b hb hb_key
    obtain ⟨k, hk, -⟩ := (hmem b).1 (mem_append_left _ hb)
    have hk_key : k = key := (hinv.key _ hk).symm.trans hb_key
    have hba := hinv.addr_eq (hk_key ▸ hk) ha
    rw [hba] at hb
    exact (nodup_append.1 hnodup).2.2 a hb a mem_cons_self rfl
  have hfuel' : l1.length < fuel := by
    rw [length_append] at hlength
    omega
  have hstart : s.readPos (.bucket (s.placeOf (hash key))) = some head := hhead
  obtain ⟨hbefore, hread⟩ := beforeLoop_eq (hinv.key _ ha) hstart hchain hne hfuel'
  have hlayout : Layout ((countDelete s).setNext a none) :=
    ⟨hinv.primary, hinv.power, hinv.old, hinv.fresh⟩
  have hdelete : assocDelete key (hash key) fuel s = ((countDelete s).setNext a none).writePos
      (s.next a) (posAfter (.bucket (s.placeOf (hash key))) l1) := by
    rw [assocDelete, hashitemBefore, hbefore]
    change (s.readPos _).bind _ = _
    rw [hread]
    rfl
  rw [hdelete]
  rcases eq_nil_or_concat l1 with rfl | ⟨l0, b, rfl⟩
  · -- the bucket itself points to the item
    refine ⟨_, writeCell_eq _ _ _ hhead, ?_⟩
    have hcell : (((countDelete s).setNext a none).setCell (s.placeOf (hash key))
      (s.next a)).readCell
        (s.placeOf (hash key)) = some (s.next a) := by
      rw [readCell_setCell, if_pos rfl]
      change (s.readCell _).map _ = _
      rw [hhead]
      rfl
    have ha_rest : a ∉ l2 := (nodup_cons.1 hnodup).1
    refine hinv.remove ha hmem hnodup (hlayout.setCell _ _) (fun _ => rfl)
      (fun x => ?_) rfl hcell ?_
      (fun p hp => ?_) fun x hx => ?_
    · rw [items_setCell, key_setNext]
      rfl
    · rw [next_setCell, next_setNext]
      exact hchain.2.update ha_rest none
    · rw [readCell_setCell, if_neg hp]
      rfl
    · rw [next_setCell, next_setNext, update_of_ne fun heq => hx (by simp [heq])]
      rfl
  · -- the link of the item in front points to it
    rw [concat_eq_append] at *
    rw [posAfter_append]
    refine ⟨_, rfl, ?_⟩
    have hcell : (((countDelete s).setNext a none).setNext b (s.next a)).readCell
        (s.placeOf (hash key)) = some head := hhead
    refine hinv.remove ha hmem hnodup ⟨hinv.primary, hinv.power, hinv.old, hinv.fresh⟩
      (fun _ => rfl)
      (fun x => ?_) rfl hcell ?_ (fun _ _ => rfl) fun x hx => ?_
    · rw [key_setNext, key_setNext]
      rfl
    · rw [next_setNext, next_setNext, append_assoc]
      rw [append_assoc] at hchain
      exact hchain.unlink
    · rw [next_setNext, next_setNext, update_of_ne fun heq => hx (by simp [heq]),
        update_of_ne fun heq => hx (by simp [heq])]
      rfl

/-- `assoc_expand`, with memory or without. -/
theorem Inv.expand (hexp : s.expanding = false) (alloc : Bool)
    (hpower : alloc = true → s.hashpower < HASHPOWER_MAX) :
    Inv hash (assocExpand alloc s) stored := by
  have hplace : ∀ hv, (assocExpand alloc s).placeOf hv = s.placeOf hv := by
    cases alloc <;> simp [placeOf, assocExpand, hexp]
  cases alloc with
  | false =>
    refine ⟨⟨hinv.primary, hinv.power, ?_, hinv.fresh⟩, hinv.keys, hinv.addrs, hinv.key,
      hinv.count, ?_⟩
    · intro h
      exact absurd (h.symm.trans hexp) (by decide)
    · simp only [hplace]
      exact hinv.chain
  | true =>
    obtain ⟨t, ht, hsize⟩ := hinv.primary
    have hne : s.primaryHashtable ≠ s.nextBlock := by
      intro heq
      rw [heq, hinv.fresh _ (Nat.le_refl _)] at ht
      exact absurd ht (by simp)
    have hblocks : ∀ n, n ≠ s.nextBlock → (assocExpand true s).blocks n = s.blocks n :=
      fun n hn => update_of_ne hn _ _
    have hblock : (assocExpand true s).blocks s.nextBlock =
        some (calloc (hashsize (s.hashpower + 1))) := update_self _ _ _
    refine ⟨⟨⟨_, hblock, rfl⟩, hpower rfl, fun _ => ⟨succ_pos _, ?_, hne, t, ?_, hsize⟩,
      ?_⟩, hinv.keys,
      hinv.addrs, hinv.key, hinv.count, ?_⟩
    · exact zero_lt_of_lt (and_hashmask_lt 0 _)
    · exact (hblocks _ hne).trans ht
    · intro n hn
      rw [hblocks n (Nat.ne_of_gt hn)]
      exact hinv.fresh n (le_of_succ_le hn)
    · intro p head hp
      simp only [hplace]
      by_cases hp' : p.1 = s.nextBlock
      · -- the buckets of the new table are empty, and nothing is placed there yet
        rw [readCell, hp', hblock] at hp
        dsimp only at hp
        split_ifs at hp
        obtain rfl : none = head := Option.some.inj hp
        refine ⟨[], rfl, fun a => iff_of_false not_mem_nil ?_⟩
        rintro ⟨k, -, hk⟩
        have hprimary : (s.placeOf (hash k)).1 = s.primaryHashtable := by simp [placeOf, hexp]
        rw [hk, hp'] at hprimary
        exact hne hprimary.symm
      · rw [readCell, hblocks p.1 hp'] at hp
        exact hinv.chain p head hp

end Steps

/-! ## Moving a bucket -/

/-- What the loop over a bucket leaves alone. -/
structure Frame (l : List A) (s s' : State K A) : Prop where
  hashpower : s'.hashpower = s.hashpower
  primary : s'.primaryHashtable = s.primaryHashtable
  old : s'.oldHashtable = s.oldHashtable
  items : s'.hashItems = s.hashItems
  expanding : s'.expanding = s.expanding
  bucket : s'.expandBucket = s.expandBucket
  key : ∀ a, (s'.items a).key = (s.items a).key
  next : ∀ a, a ∉ l → s'.next a = s.next a
  cell : ∀ p : Place, p.1 ≠ s.primaryHashtable → s'.readCell p = s.readCell p

section Move

variable {hash : K → ℕ}

lemma frame_moveOne [DecidableEq A] (s : State K A) (a : A) (head : Option A) (i : ℕ) :
    Frame [a] s ((s.setNext a head).setCell (s.primaryHashtable, i) (some a)) := by
  refine ⟨rfl, rfl, rfl, rfl, rfl, rfl, fun x => ?_, fun x hx => ?_, fun p hp => ?_⟩
  · rw [items_setCell, key_setNext]
  · rw [next_setCell, next_setNext, update_of_ne (by simpa using hx)]
  · rw [readCell_setCell, if_neg fun heq => hp (congrArg Prod.fst heq)]
    rfl

lemma Frame.cons {s s1 s2 : State K A} (h1 : Frame [a] s s1)
    (h2 : Frame l s1 s2) : Frame (a :: l) s s2 where
  hashpower := h2.hashpower.trans h1.hashpower
  primary := h2.primary.trans h1.primary
  old := h2.old.trans h1.old
  items := h2.items.trans h1.items
  expanding := h2.expanding.trans h1.expanding
  bucket := h2.bucket.trans h1.bucket
  key a := (h2.key a).trans (h1.key a)
  next x hx := by
    rw [mem_cons, not_or] at hx
    rw [h2.next x hx.2, h1.next x (by simpa using hx.1)]
  cell p hp := (h2.cell p (h1.primary ▸ hp)).trans (h1.cell p hp)

lemma Frame.refl (s : State K A) : Frame [] s s :=
  ⟨rfl, rfl, rfl, rfl, rfl, rfl, fun _ => rfl, fun _ _ => rfl, fun _ _ => rfl⟩

/-- The chains of the new table. -/
def Chains (s : State K A) (C : ℕ → List A) : Prop :=
  ∀ i head, s.readCell (s.primaryHashtable, i) = some head → Chain s.next head (C i)

lemma mem_update_cons {C : ℕ → List A} {j : ℕ} {x : A} :
    x ∈ update C i (a :: C i) j ↔ (x = a ∧ i = j) ∨ x ∈ C j := by
  by_cases hij : j = i
  · subst hij
    simp
  · simp [hij, Ne.symm hij]

lemma Chains.moveOne [DecidableEq A] {s : State K A} {C : ℕ → List A}
    (hC : Chains s C) (hhead : s.readCell (s.primaryHashtable, i) = some head) (ha : ∀ j, a ∉ C j) :
    Chains ((s.setNext a head).setCell (s.primaryHashtable, i) (some a))
      (update C i (a :: C i)) := by
  intro j head' hj
  change readCell _ (s.primaryHashtable, j) = _ at hj
  rw [readCell_setCell] at hj
  rw [next_setCell, next_setNext]
  by_cases hji : j = i
  · rw [if_pos (by rw [hji]), readCell_setNext, hhead] at hj
    obtain rfl : some a = head' := Option.some.inj hj
    rw [hji, update_self]
    exact (hC i _ hhead).push (ha i)
  · rw [if_neg fun heq => hji (congrArg Prod.snd heq)] at hj
    rw [update_of_ne hji]
    exact (hC j head' hj).update (ha j) _

lemma moveLoop_some [DecidableEq A] {s : State K A} (hlayout : Layout s) (fuel : ℕ) (a : A) :
    ∃ head, s.readCell (s.primaryHashtable, hash (s.items a).key &&& hashmask s.hashpower) =
        some head ∧ moveLoop hash (fuel + 1) (some a) s = moveLoop hash fuel (s.next a)
        ((s.setNext a head).setCell
          (s.primaryHashtable, hash (s.items a).key &&& hashmask s.hashpower) (some a)) := by
  obtain ⟨t, ht, hsize⟩ := hlayout.primary
  have hhead := readCell_of_block ht (hsize ▸ and_hashmask_lt (hash (s.items a).key) s.hashpower)
  refine ⟨_, hhead, ?_⟩
  change (s.readCell _).bind _ = _
  rw [hhead]
  change (writeCell _ _ _).bind _ = _
  rw [writeCell_eq (setNext s a _) _ _ hhead]
  rfl

/-- **The loop over a bucket.** Its items go in front of the chains that their hash values select.
-/
theorem moveLoop_spec [DecidableEq A] (l : List A) : ∀ (fuel : ℕ) (it : Option A) (s : State K A)
    (C : ℕ → List A),
    Layout s → Chain s.next it l → Chains s C → (∀ a ∈ l, ∀ i, a ∉ C i) → l.length < fuel →
    ∃ s', moveLoop hash fuel it s = some s' ∧ Layout s' ∧ Frame l s s' ∧ ∃ C' : ℕ → List A,
      Chains s' C' ∧ ∀ i a, a ∈ C' i ↔
        (a ∈ l ∧ hash (s.items a).key &&& hashmask s.hashpower = i) ∨ a ∈ C i := by
  induction l with
  | nil =>
    intro fuel it s C hlayout hit hC _ hfuel
    obtain _ | fuel := fuel
    · omega
    obtain rfl : it = none := hit
    exact ⟨s, rfl, hlayout, Frame.refl s, C, hC, by simp⟩
  | cons a l ih =>
    intro fuel it s C hlayout hit hC hdisjoint hfuel
    obtain _ | fuel := fuel
    · omega
    have ha : a ∉ l := (nodup_cons.1 hit.nodup).1
    obtain ⟨rfl, hrest⟩ := hit
    obtain ⟨head, hhead, hround⟩ := @moveLoop_some _ _ hash _ _ hlayout fuel a
    have hframe1 := frame_moveOne s a head (hash (s.items a).key &&& hashmask s.hashpower)
    have hlayout1 : Layout (s.setNext a head) :=
      ⟨hlayout.primary, hlayout.power, hlayout.old, hlayout.fresh⟩
    obtain ⟨s', hloop, hlayout', hframe, C', hC', hmem⟩ := ih fuel (s.next a) _ _
      (hlayout1.setCell _ _)
      (by rw [next_setCell, next_setNext]; exact hrest.update ha head)
      (hC.moveOne hhead (hdisjoint a mem_cons_self))
      (by
        intro x hx i hxi
        rcases mem_update_cons.1 hxi with ⟨rfl, -⟩ | hxi
        · exact ha hx
        · exact hdisjoint x (mem_cons_of_mem _ hx) i hxi)
      (lt_of_succ_lt_succ hfuel)
    refine ⟨s', hround.trans hloop, hlayout', hframe1.cons hframe, C', hC', fun i x => ?_⟩
    rw [hmem, mem_update_cons, hframe1.key, mem_cons]
    constructor
    · rintro (⟨hx, hi⟩ | ⟨rfl, hi⟩ | hx)
      · exact .inl ⟨.inr hx, hi⟩
      · exact .inl ⟨.inl rfl, hi⟩
      · exact .inr hx
    · rintro (⟨rfl | hx, hi⟩ | hx)
      · exact .inr (.inl ⟨rfl, hi⟩)
      · exact .inl ⟨hx, hi⟩
      · exact .inr (.inr hx)

end Move

/-- Where a hash value belongs once the next bucket has been moved. -/
def State.placeMoved (s : State K A) (hv : ℕ) : Place :=
  if hv &&& hashmask (s.hashpower - 1) = s.expandBucket.toNat then
    (s.primaryHashtable, hv &&& hashmask s.hashpower)
  else s.placeOf hv

section NextBucket

variable (s : State K A)

@[simp] lemma items_nextBucket : (nextBucket s).items = s.items := by
  rw [nextBucket]
  split_ifs <;> rfl

@[simp] lemma next_nextBucket : (nextBucket s).next = s.next := by
  funext a
  rw [State.next, items_nextBucket, ← State.next]

@[simp] lemma hashItems_nextBucket : (nextBucket s).hashItems = s.hashItems := by
  rw [nextBucket]
  split_ifs <;> rfl

lemma placeOf_nextBucket_setCell (p : Place) (v : Option A) (hv : ℕ) :
    (nextBucket (s.setCell p v)).placeOf hv = (nextBucket s).placeOf hv := by
  change State.placeOf
      (if (s.expandBucket + 1).toNat = hashsize (s.hashpower - 1) then _ else _ : State K A) hv =
    State.placeOf
      (if (s.expandBucket + 1).toNat = hashsize (s.hashpower - 1) then _ else _ : State K A) hv
  split_ifs <;> rfl

/-- What can be read after the step could be read before it. -/
lemma readCell_of_nextBucket {p : Place}
    (h : (nextBucket s).readCell p = some head) : s.readCell p = some head := by
  rw [nextBucket] at h
  split_ifs at h with hdone
  · by_cases hp : p.1 = s.oldHashtable
    · simp [readCell, hp] at h
    · simpa [readCell, hp] using h
  · exact h

variable {s}

lemma Layout.nextBucket (h : Layout s) (hexp : s.expanding = true) : Layout (nextBucket s) := by
  obtain ⟨hpos, hlt, hne, hold⟩ := h.old hexp
  rw [Assoc.nextBucket]
  dsimp only
  split_ifs with hdone
  · obtain ⟨t, ht, hsize⟩ := h.primary
    refine ⟨⟨t, ?_, hsize⟩, h.power, fun hfalse => absurd hfalse (by simp), fun n hn => ?_⟩
    · exact (update_of_ne hne.symm _ _).trans ht
    · by_cases hn' : n = s.oldHashtable
      · simp [hn']
      · exact (update_of_ne hn' _ _).trans (h.fresh n hn)
  · rw [h.toNat_expandBucket_succ hexp] at hdone
    refine ⟨h.primary, h.power, fun _ => ⟨hpos, ?_, hne, hold⟩, h.fresh⟩
    dsimp only
    rw [h.toNat_expandBucket_succ hexp]
    omega

end NextBucket

section MoveBucket

variable {hash : K → ℕ} {s : State K A} {stored : List (K × A)} (hinv : Inv hash s stored)

lemma Frame.placeOf_nextBucket {s' : State K A} (hframe : Frame l s s') (hlayout : Layout s)
    (hexp : s.expanding = true) (hv : ℕ) : (nextBucket s').placeOf hv = s.placeMoved hv := by
  have hmask := and_hashmask_lt hv (s.hashpower - 1)
  have hsucc := hlayout.toNat_expandBucket_succ hexp
  rw [nextBucket, placeMoved]
  dsimp only
  rw [hframe.bucket, hframe.hashpower]
  split_ifs with hdone hb hb
  · simp [placeOf, hframe.primary]
  · -- the expansion ends: every bucket was before the last one
    have hge : ¬ s.expandBucket.toNat ≤ hv &&& hashmask (s.hashpower - 1) := by omega
    simp [placeOf, hframe.primary, hge]
  · have hge : ¬ (s.expandBucket + 1).toNat ≤ s.expandBucket.toNat := by omega
    simp only [placeOf, hframe.primary, hb, hge, and_false, if_false]
  · have hiff : (s.expandBucket + 1).toNat ≤ hv &&& hashmask (s.hashpower - 1) ↔
        s.expandBucket.toNat ≤ hv &&& hashmask (s.hashpower - 1) := by omega
    simp only [placeOf, hframe.primary, hframe.old, hframe.expanding, hexp, ge_iff_le, hiff]

section Places

variable (hexp : s.expanding = true) (hne : s.oldHashtable ≠ s.primaryHashtable) (hv : ℕ)

include hexp hne

/-- The items of the bucket that is moved next. -/
lemma placeOf_eq_old : s.placeOf hv = (s.oldHashtable, s.expandBucket.toNat) ↔
    hv &&& hashmask (s.hashpower - 1) = s.expandBucket.toNat := by
  rw [placeOf]
  split_ifs with h
  · simp
  · rw [hexp] at h
    refine iff_of_false (fun heq => hne (congrArg Prod.fst heq).symm) fun heq => h ⟨rfl, ?_⟩
    exact Nat.le_of_eq heq.symm

lemma placeMoved_ne_old : s.placeMoved hv ≠ (s.oldHashtable, s.expandBucket.toNat) := by
  rw [placeMoved]
  split_ifs with h
  · exact fun heq => hne (congrArg Prod.fst heq).symm
  · exact fun heq => h ((placeOf_eq_old hexp hne hv).1 heq)

lemma placeMoved_eq_primary (i : ℕ) : s.placeMoved hv = (s.primaryHashtable, i) ↔
    (s.placeOf hv = (s.oldHashtable, s.expandBucket.toNat) ∧ hv &&& hashmask s.hashpower = i) ∨
      s.placeOf hv = (s.primaryHashtable, i) := by
  rw [placeMoved, placeOf_eq_old hexp hne]
  split_ifs with h
  · have hold := (placeOf_eq_old hexp hne hv).2 h
    simp [h, hold, hne]
  · simp [h]

lemma placeMoved_eq_of_ne {p : Place} (hp : p.1 ≠ s.primaryHashtable)
    (hp' : p ≠ (s.oldHashtable, s.expandBucket.toNat)) : s.placeMoved hv = p ↔
    s.placeOf hv = p := by
  rw [placeMoved]
  split_ifs with h
  · rw [(placeOf_eq_old hexp hne hv).2 h]
    exact iff_of_false (fun heq => hp (heq ▸ rfl)) (Ne.symm hp')
  · exact Iff.rfl

end Places

include hinv

/-- The chains of the primary table, one for each bucket, hold what is stored there. -/
lemma Inv.chains : ∃ C : ℕ → List A, Chains s C ∧
    ∀ i a, a ∈ C i ↔ ∃ k, (k, a) ∈ stored ∧ s.placeOf (hash k) = (s.primaryHashtable, i) := by
  have hone : ∀ i, ∃ l,
      (∀ head, s.readCell (s.primaryHashtable, i) = some head → Chain s.next head l) ∧
      ∀ a, a ∈ l ↔ ∃ k, (k, a) ∈ stored ∧ s.placeOf (hash k) = (s.primaryHashtable, i) := by
    intro i
    cases hread : s.readCell (s.primaryHashtable, i) with
    | none =>
      refine ⟨[], by simp, fun a => iff_of_false not_mem_nil ?_⟩
      rintro ⟨k, -, hk⟩
      obtain ⟨head, hhead⟩ := hinv.readCell_placeOf (hash k)
      rw [hk, hread] at hhead
      exact absurd hhead (by simp)
    | some head =>
      obtain ⟨l, hl, hmem⟩ := hinv.chain _ _ hread
      refine ⟨l, fun head' hhead' => ?_, hmem⟩
      obtain rfl : head = head' := Option.some.inj hhead'
      exact hl
  choose C hC hmem using hone
  exact ⟨C, hC, hmem⟩

/-- The maintenance thread moves a bucket. -/
theorem Inv.move [DecidableEq A] (hfuel : stored.length < fuel) (hexp : s.expanding = true) :
    ∃ s', moveBucket hash fuel s = some s' ∧ Inv hash s' stored := by
  obtain ⟨-, hlt, hne, t, ht, hsize⟩ := hinv.old hexp
  have hhead := readCell_of_block ht (hsize ▸ hlt)
  obtain ⟨l, hl, hmeml⟩ := hinv.chain _ _ hhead
  obtain ⟨C, hC, hmemC⟩ := hinv.chains
  have hdisjoint : ∀ a ∈ l, ∀ i, a ∉ C i := by
    intro a ha i hai
    exact hne (congrArg Prod.fst (hinv.place_eq ((hmeml a).1 ha) ((hmemC i a).1 hai)))
  have hlength : l.length < fuel := lt_of_le_of_lt
    (length_le_stored hl.nodup fun a ha => ((hmeml a).1 ha).imp fun _ hk => hk.1) hfuel
  obtain ⟨s', hloop, hlayout, hframe, C', hC', hmemC'⟩ :=
    moveLoop_spec l fuel _ s C hinv.toLayout hl hC hdisjoint hlength
  have hhead' : s'.readCell (s'.oldHashtable, s'.expandBucket.toNat) = some
    (t.cell s.expandBucket.toNat) := by
    rw [hframe.old, hframe.bucket, hframe.cell _ hne, hhead]
  refine ⟨nextBucket (s'.setCell (s'.oldHashtable, s'.expandBucket.toNat) none), ?_,
    (hlayout.setCell _ _).nextBucket (hframe.expanding.trans hexp), hinv.keys, hinv.addrs,
    fun e he => ?_, ?_, fun p head hp => ?_⟩
  · change (s.readCell (s.oldHashtable, s.expandBucket.toNat)).bind _ = _
    rw [hhead]
    change (moveLoop hash fuel (t.cell s.expandBucket.toNat) s).bind _ = _
    rw [hloop]
    change (writeCell s' _ none).bind _ = _
    rw [writeCell_eq _ _ _ hhead']
    rfl
  · rw [items_nextBucket, items_setCell, hframe.key, hinv.key e he]
  · rw [hashItems_nextBucket]
    exact hframe.items.trans hinv.count
  · have hplace : ∀ hv,
      (nextBucket (s'.setCell (s'.oldHashtable, s'.expandBucket.toNat) none)).placeOf hv =
        s.placeMoved hv := by
      intro hv
      rw [placeOf_nextBucket_setCell, hframe.placeOf_nextBucket hinv.toLayout hexp]
    have hp := readCell_of_nextBucket _ hp
    rw [readCell_setCell, hframe.old, hframe.bucket] at hp
    simp only [hplace, next_nextBucket]
    split_ifs at hp with hpold
    · -- the bucket that was emptied
      rw [hframe.cell _ hne, hhead] at hp
      obtain rfl : none = head := Option.some.inj hp
      refine ⟨[], rfl, fun a => iff_of_false not_mem_nil ?_⟩
      rintro ⟨k, -, hk⟩
      exact placeMoved_ne_old hexp hne _ (hk.trans hpold)
    · by_cases hprimary : p.1 = s.primaryHashtable
      · -- a bucket of the new table
        obtain ⟨n, i⟩ := p
        obtain rfl : n = s.primaryHashtable := hprimary
        refine ⟨C' i, hC' i head (hframe.primary ▸ hp), fun a => ?_⟩
        simp only [placeMoved_eq_primary hexp hne]
        rw [hmemC', hmeml, hmemC]
        constructor
        · rintro (⟨⟨k, hk, hold⟩, hi⟩ | ⟨k, hk, hi⟩)
          · rw [hinv.key _ hk] at hi
            exact ⟨k, hk, .inl ⟨hold, hi⟩⟩
          · exact ⟨k, hk, .inr hi⟩
        · rintro ⟨k, hk, ⟨hold, hi⟩ | hi⟩
          · have hkey : (s.items a).key = k := hinv.key _ hk
            rw [← hkey] at hi
            exact .inl ⟨⟨k, hk, hold⟩, hi⟩
          · exact .inr ⟨k, hk, hi⟩
      · -- a bucket of the old table that was moved before or waits for its turn
        rw [hframe.cell p hprimary] at hp
        obtain ⟨lp, hlp, hmemp⟩ := hinv.chain p head hp
        refine ⟨lp, hlp.congr fun x hx => hframe.next x fun hxl => ?_, fun a => ?_⟩
        · exact hpold (hinv.place_eq ((hmemp x).1 hx) ((hmeml x).1 hxl))
        · simp only [placeMoved_eq_of_ne hexp hne _ hprimary hpold]
          exact hmemp a

end MoveBucket

/-! ## Whole runs -/

section Runs

variable {hash : K → ℕ} {s : State K A} {stored : List (K × A)}

lemma Inv.init (hash : K → ℕ) (items : A → Item K A) {hashpower : ℕ}
    (hpower : hashpower ≤ HASHPOWER_MAX) : Inv hash (assocInit items hashpower) [] := by
  have hblock : (assocInit items hashpower).blocks 0 = some (calloc (hashsize hashpower)) := by
    simp [assocInit]
  have hfresh : ∀ n, 1 ≤ n → (assocInit items hashpower).blocks n = none := by
    intro n hn
    simp [assocInit, Nat.ne_of_gt hn]
  refine ⟨⟨⟨_, hblock, rfl⟩, hpower, fun hexp => absurd hexp (by simp [assocInit]), hfresh⟩,
    nodup_nil, nodup_nil, by simp, rfl, fun p head hp => ⟨[], ?_, by simp⟩⟩
  -- every bucket of the first table is empty
  by_cases hp' : p.1 = 0
  · rw [readCell, hp', hblock] at hp
    dsimp only at hp
    split_ifs at hp
    exact (Option.some.inj hp).symm
  · rw [readCell, hfresh p.1 (Nat.pos_of_ne_zero hp')] at hp
    exact absurd hp (by simp)

lemma Inv.maintenanceWait (hinv : Inv hash s stored) : Inv hash (maintenanceWait s) stored := by
  rw [Assoc.maintenanceWait]
  split_ifs
  · exact hinv
  · exact ⟨⟨hinv.primary, hinv.power, hinv.old, hinv.fresh⟩, hinv.keys, hinv.addrs,
      hinv.key, hinv.count,
      hinv.chain⟩

/-- No enabled step fails, and each keeps the invariant. -/
theorem Inv.step [DecidableEq K] [DecidableEq A] (hinv : Inv hash s stored) {e : Event K A}
    (he : Stored.Enabled stored e) (hrange : e.InRange s) (hfuel : stored.length < fuel) :
    ∃ s', step hash fuel s e = some s' ∧ Inv hash s' (Stored.step stored e) := by
  cases e with
  | insert it key => exact hinv.insert he
  | delete key =>
    obtain ⟨⟨_, a⟩, ha, rfl⟩ := he
    exact hinv.delete hfuel ha
  | find key =>
    refine ⟨s, ?_, hinv⟩
    rw [Assoc.step, hinv.find hfuel]
    rfl
  | expand alloc =>
    refine ⟨_, rfl, ?_⟩
    cases hexp : s.expanding with
    | true => exact hinv
    | false =>
      refine (hinv.expand hexp alloc ?_).maintenanceWait
      rintro rfl
      exact hrange hexp
  | move =>
    rw [Assoc.step]
    cases hexp : s.expanding with
    | false => exact ⟨s, rfl, hinv⟩
    | true =>
      obtain ⟨s', hmove, hinv'⟩ := hinv.move hfuel hexp
      refine ⟨Assoc.maintenanceWait s', ?_, hinv'.maintenanceWait⟩
      rw [if_pos rfl, hmove]
      rfl

/-- A step stores at most one item more. -/
lemma length_storedStep_le [DecidableEq K] (stored : List (K × A)) (e : Event K A) :
    (Stored.step stored e).length ≤ stored.length + 1 := by
  cases e with
  | insert it key => exact Nat.le_refl _
  | delete key => exact (length_filter_le _ _).trans (le_succ _)
  | find key => exact le_succ _
  | expand alloc => exact le_succ _
  | move => exact le_succ _

/-- At most one item is stored for each step of a run. -/
lemma length_stored_le [DecidableEq K] (stored : List (K × A)) (events : List (Event K A)) :
    (events.foldl Stored.step stored).length ≤ stored.length + events.length := by
  induction events generalizing stored with
  | nil => exact Nat.le_refl _
  | cons e events ih =>
    have hstep := length_storedStep_le stored e
    have hrest := ih (Stored.step stored e)
    rw [foldl_cons, length_cons]
    omega

/-- Runs keep the invariant; the fuel is enough for every item that may be stored. -/
theorem Inv.run [DecidableEq K] [DecidableEq A] (hinv : Inv hash s stored)
    {events : List (Event K A)} (hvalid : Stored.Valid stored events)
    (hrange : InRange hash fuel s events) (hfuel : stored.length + events.length < fuel) :
    ∃ s', run hash fuel s events = some s' ∧ Inv hash s' (events.foldl Stored.step stored) := by
  induction events generalizing s stored with
  | nil => exact ⟨s, rfl, hinv⟩
  | cons e events ih =>
    have hlength := length_storedStep_le stored e
    rw [length_cons] at hfuel
    have hnow : stored.length < fuel := by omega
    obtain ⟨s1, hstep, hinv1⟩ := hinv.step hvalid.1 hrange.1 hnow
    have hrest : (Stored.step stored e).length + events.length < fuel := by omega
    obtain ⟨s', hrun, hinv'⟩ := ih hinv1 hvalid.2 (hrange.2 s1 hstep) hrest
    refine ⟨s', ?_, hinv'⟩
    change (Assoc.step hash fuel s e).bind _ = _
    rw [hstep]
    exact hrun

/-- An item is in the chain of a bucket. -/
def InChain (s : State K A) (p : Place) (a : A) : Prop :=
  ∃ head l, s.readCell p = some head ∧ Chain s.next head l ∧ a ∈ l

/-- The chains hold the stored items, each in the bucket of its hash value. -/
lemma Inv.inChain_iff (hinv : Inv hash s stored) (p : Place) (a : A) :
    InChain s p a ↔ ∃ k, (k, a) ∈ stored ∧ s.placeOf (hash k) = p := by
  constructor
  · rintro ⟨head, l, hread, hchain, ha⟩
    obtain ⟨l', hchain', hmem⟩ := hinv.chain p head hread
    rw [hchain.unique hchain'] at ha
    exact (hmem a).1 ha
  · rintro ⟨k, hk, rfl⟩
    obtain ⟨head, hread⟩ := hinv.readCell_placeOf (hash k)
    obtain ⟨l, hchain, hmem⟩ := hinv.chain _ head hread
    exact ⟨head, l, hread, hchain, (hmem a).2 ⟨k, hk, rfl⟩⟩

/-- A stored item is in exactly one chain. -/
lemma Inv.existsUnique_inChain (hinv : Inv hash s stored) (ha : (k, a) ∈ stored) :
    ∃! p, InChain s p a := by
  refine ⟨s.placeOf (hash k), (hinv.inChain_iff _ a).2 ⟨k, ha, rfl⟩, fun p hp => ?_⟩
  exact hinv.place_eq ((hinv.inChain_iff p a).1 hp) ⟨k, ha, rfl⟩

end Runs

variable [DecidableEq K] [DecidableEq A]

/-- **The table is right at every moment of an expansion.**  No interleaving of the operations with
the steps of the maintenance thread reads memory that was freed or fails otherwise; afterwards
lookups give the items stored and nothing else, and every one of them is in one chain of one table.
The counter of 32 bits is their number as long as that fits. -/
theorem run_correct (hash : K → ℕ) (items : A → Item K A) (hashpower fuel : ℕ)
    (events : List (Event K A)) (hvalid : Stored.Valid [] events)
    (hpower : hashpower ≤ HASHPOWER_MAX)
    (hrange : InRange hash fuel (assocInit items hashpower) events) (hfuel : events.length < fuel) :
    ∃ s, run hash fuel (assocInit items hashpower) events = some s ∧
      (∀ key, assocFind key (hash key) fuel s =
        some (Stored.lookup (events.foldl Stored.step []) key)) ∧
      (∀ e ∈ events.foldl Stored.step [], ∃! p, InChain s p e.2) ∧
      (∀ p a, InChain s p a → ∃ k, (k, a) ∈ events.foldl Stored.step []) ∧
      (s.hashItems.toNat = (events.foldl Stored.step []).length ↔
        (events.foldl Stored.step []).length < 2 ^ 32) := by
  have hlength := length_stored_le [] events
  rw [length_nil, Nat.zero_add] at hlength
  obtain ⟨s, hrun, hinv⟩ := (Inv.init hash items hpower).run hvalid hrange (by simpa using hfuel)
  refine ⟨s, hrun, hinv.find (lt_of_le_of_lt hlength hfuel),
    fun e he => hinv.existsUnique_inChain he, fun p a ha => ?_, ?_⟩
  · exact ((hinv.inChain_iff p a).1 ha).imp fun _ hk => hk.1
  · rw [hinv.count, BitVec.toNat_ofNat]
    exact ⟨fun h => h ▸ mod_lt _ (by decide), mod_eq_of_lt⟩

/-- Two items, one moved and one inserted while the table expands. -/
theorem run_correct_expanding : ∃ s, run id 6 (assocInit (fun _ : ℕ => ⟨0, none⟩) 1)
        [.insert 0 2, .expand true, .move, .insert 1 4, .delete 2] = some s ∧
      (∀ key, assocFind key key 6 s = some (Stored.lookup [(4, 1)] key)) ∧
      (∀ e ∈ [((4 : ℕ), (1 : ℕ))], ∃! p, InChain s p e.2) ∧
      (∀ p a, InChain s p a → ∃ k, (k, a) ∈ [((4 : ℕ), (1 : ℕ))]) ∧
      (s.hashItems.toNat = 1 ↔ 1 < 2 ^ 32) := by
  have hrange : InRange id 6 (assocInit (fun _ : ℕ => ⟨0, none⟩) 1)
      [.insert 0 2, .expand true, .move, .insert 1 4, .delete 2] := by
    refine ⟨trivial, fun s1 hs1 => ⟨fun _ => ?_, fun s2 _ => ⟨trivial, fun s3 _ => ⟨trivial,
      fun s4 _ => ⟨trivial, fun s5 _ => trivial⟩⟩⟩⟩⟩
    cases hs1
    decide
  exact run_correct id (fun _ => ⟨0, none⟩) 1 6
    [.insert 0 2, .expand true, .move, .insert 1 4, .delete 2]
    (by simp [Stored.Valid, Stored.Enabled, Stored.step]) (by decide) hrange (by decide)

/-- Insertions of that many keys, each of which is its own item. -/
def insertions : ℕ → ℕ → List (Event ℕ ℕ)
  | _, 0 => []
  | key, n + 1 => .insert key key :: insertions (key + 1) n

/-- The keys inserted are new ones. -/
lemma valid_insertions (n : ℕ) : ∀ (key : ℕ) (stored : List (ℕ × ℕ)),
    (∀ e ∈ stored, e.1 < key ∧ e.2 < key) → Stored.Valid stored (insertions key n) := by
  induction n with
  | zero =>
    intro key stored _
    trivial
  | succ n ih =>
    intro key stored hlt
    refine ⟨fun e he => ⟨Nat.ne_of_lt (hlt e he).1, Nat.ne_of_lt (hlt e he).2⟩, ih _ _ ?_⟩
    intro e he
    rcases mem_cons.1 he with rfl | he
    · exact ⟨lt_succ_self _, lt_succ_self _⟩
    · exact ⟨lt_succ_of_lt (hlt e he).1, lt_succ_of_lt (hlt e he).2⟩

lemma inRange_insertions (hash : ℕ → ℕ) (fuel n : ℕ) : ∀ (key : ℕ) (s : State ℕ ℕ),
    InRange hash fuel s (insertions key n) := by
  induction n with
  | zero =>
    intro key s
    trivial
  | succ n ih =>
    intro key s
    exact ⟨trivial, fun s' _ => ih _ s'⟩

lemma length_insertions (key n : ℕ) : (insertions key n).length = n := by
  induction n generalizing key with
  | zero => rfl
  | succ n ih => exact congrArg (· + 1) (ih _)

lemma length_foldl_insertions (n : ℕ) : ∀ (key : ℕ) (stored : List (ℕ × ℕ)),
    ((insertions key n).foldl Stored.step stored).length = stored.length + n := by
  induction n with
  | zero =>
    intro key stored
    rfl
  | succ n ih =>
    intro key stored
    rw [insertions, foldl_cons, ih, Stored.step, length_cons, Nat.add_right_comm, Nat.add_assoc]

/-- After some insertions the counter is their number, modulo `2 ^ 32`. -/
lemma run_insertions (n : ℕ) :
    ∃ s, run id (n + 1) (assocInit (fun _ => ⟨0, none⟩) 16) (insertions 0 n) = some s ∧
      s.hashItems = BitVec.ofNat 32 n := by
  have hinit := Inv.init (A := ℕ) id (fun _ => ⟨0, none⟩) (show 16 ≤ HASHPOWER_MAX by decide)
  obtain ⟨s, hrun, hinv⟩ := hinit.run (valid_insertions n 0 [] (by simp))
    (inRange_insertions id (n + 1) n 0 _) (by simp [length_insertions])
  refine ⟨s, hrun, ?_⟩
  rw [hinv.count, length_foldl_insertions, length_nil, Nat.zero_add]

/-- With `2 ^ 32` items stored the counter is zero. -/
theorem run_count_wraps : Stored.Valid [] (insertions 0 (2 ^ 32)) ∧
    ∃ s, run id (2 ^ 32 + 1) (assocInit (fun _ => ⟨0, none⟩) 16) (insertions 0 (2 ^ 32)) = some s ∧
      s.hashItems.toNat = 0 ∧ ((insertions 0 (2 ^ 32)).foldl Stored.step []).length = 2 ^ 32 := by
  obtain ⟨s, hrun, hcount⟩ := run_insertions (2 ^ 32)
  refine ⟨valid_insertions (2 ^ 32) 0 [] (by simp), s, hrun, ?_, ?_⟩
  · rw [hcount]
    rfl
  · rw [length_foldl_insertions, length_nil, Nat.zero_add]

end Memcached.Assoc
