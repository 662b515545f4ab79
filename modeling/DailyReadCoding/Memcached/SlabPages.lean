import DailyReadCoding.Memcached.Slabs

/-!
# The page lists of the slab allocator

Of the state of the allocator, the page lists are seen through three numbers for each class: how
many pages it has, how many its array can hold, and which entries have been written. `PageView` is
that view. Allocation changes it in four ways only (`Allocated`), and freeing and clearing chunks do
not change it at all.

A move of a page makes room in the destination's list when it starts and uses that room when it
finishes. In between the allocator may give the destination class a page of its own, and it does not
know that the last entry is spoken for.
-/

namespace Memcached.Slabs

open List Function

/-! ## The view -/

/-- What the page lists show. -/
@[ext] structure PageView where
  slabs : ℕ → ℕ
  listSize : ℕ → ℕ
  writes : List PageWrite

def State.view (s : State) : PageView where
  slabs id := (s.slabclass id).slabs
  listSize id := (s.slabclass id).listSize
  writes := s.pageWrites

/-- Where the rebalance thread stands. -/
def State.control (s : State) : SlabRebalance × ℕ × MovePc :=
  (s.slabRebal, s.slabRebalanceSignal, s.movePc)

namespace PageView

variable (v : PageView) (id : ℕ)

/-- A full list is extended. -/
def grow : PageView :=
  let longer := if v.listSize id ≠ 0 then v.listSize id * 2 else 16
  { v with
    listSize := Function.update v.listSize id
      (if v.slabs id = v.listSize id then longer else v.listSize id) }

/-- A page is stored in the next free entry. -/
def add : PageView :=
  { v with
    slabs := Function.update v.slabs id (v.slabs id + 1)
    writes := ⟨id, v.slabs id, v.listSize id⟩ :: v.writes }

/-- The last page of a list is dropped. -/
def drop : PageView :=
  { v with slabs := Function.update v.slabs id (v.slabs id - 1) }

/-- The first `n` entries of a list are written. -/
def shift : ℕ → PageView
  | 0 => v
  | n + 1 => { shift n with writes := ⟨id, n, v.listSize id⟩ :: (shift n).writes }

/-- No list has more pages than entries, and no entry beyond the end of a list was written. -/
structure Bounded : Prop where
  listed : ∀ id, v.slabs id ≤ v.listSize id
  written : ∀ w ∈ v.writes, w.index < w.listSize

/-- How an allocation from class `id` changes the page lists: not at all, a longer list without a
page, a page from memory, or one from the pool. -/
def Allocated (v' : PageView) : Prop :=
  v' = v ∨ v' = v.grow id ∨ v' = (v.grow id).add id ∨
    v' = ((v.grow id).drop SLAB_GLOBAL_PAGE_POOL).add id

variable {v id}

@[simp] lemma shift_slabs (n : ℕ) : (v.shift id n).slabs = v.slabs := by
  induction n with
  | zero => rfl
  | succ n ih => exact ih

@[simp] lemma shift_listSize (n : ℕ) : (v.shift id n).listSize = v.listSize := by
  induction n with
  | zero => rfl
  | succ n ih => exact ih

/-- Pages were dropped, and no list was written. -/
structure Dropped (v v' : PageView) : Prop where
  slabs : ∀ i, v'.slabs i ≤ v.slabs i
  listSize : v'.listSize = v.listSize
  writes : v'.writes = v.writes

lemma Dropped.refl (v : PageView) : Dropped v v := ⟨fun _ => le_refl _, rfl, rfl⟩

variable {v' : PageView}

lemma Dropped.trans {v'' : PageView} (h : Dropped v v') (h' : Dropped v' v'') : Dropped v v'' :=
  ⟨fun i => le_trans (h'.slabs i) (h.slabs i), h'.listSize.trans h.listSize,
    h'.writes.trans h.writes⟩

lemma dropped_drop : Dropped v (v.drop id) := by
  refine ⟨fun i => ?_, rfl, rfl⟩
  rcases eq_or_ne i id with rfl | hi
  · simp [drop]
  · simp [drop, hi]

lemma slabs_drop_of_ne {i : ℕ} (h : i ≠ id) : (v.drop id).slabs i = v.slabs i := by simp [drop, h]

/-! ### What keeps the lists in bounds -/

variable (h : v.Bounded)

include h

lemma slabs_lt_grow : (v.grow id).slabs id < (v.grow id).listSize id := by
  have hle := h.listed id
  simp only [grow, update_self]
  split_ifs <;> omega

lemma Bounded.grow : (v.grow id).Bounded := by
  refine ⟨fun i => ?_, h.written⟩
  rcases eq_or_ne i id with rfl | hi
  · exact le_of_lt (slabs_lt_grow h)
  · simpa [PageView.grow, hi] using h.listed i

lemma Bounded.dropped (hd : Dropped v v') : v'.Bounded := by
  refine ⟨fun i => ?_, ?_⟩
  · rw [hd.listSize]
    exact le_trans (hd.slabs i) (h.listed i)
  · rw [hd.writes]
    exact h.written

lemma Bounded.drop : (v.drop id).Bounded := h.dropped dropped_drop

/-- A page is added where there is room. -/
lemma Bounded.add (hroom : v.slabs id < v.listSize id) : (v.add id).Bounded := by
  refine ⟨fun i => ?_, forall_mem_cons.2 ⟨hroom, h.written⟩⟩
  rcases eq_or_ne i id with rfl | hi
  · simpa [add, Nat.succ_le_iff] using hroom
  · simpa [PageView.add, hi] using h.listed i

lemma Bounded.shift {n : ℕ} (hn : n ≤ v.listSize id) : (v.shift id n).Bounded := by
  induction n with
  | zero => exact h
  | succ n ih =>
    have hs := ih (Nat.le_of_succ_le hn)
    exact ⟨hs.listed, forall_mem_cons.2 ⟨hn, hs.written⟩⟩

/-- No allocation is made from the pool, so there is room after a page was taken from it. -/
lemma slabs_lt_grow_drop (hid : id ≠ SLAB_GLOBAL_PAGE_POOL) :
    ((v.grow id).drop SLAB_GLOBAL_PAGE_POOL).slabs id <
      ((v.grow id).drop SLAB_GLOBAL_PAGE_POOL).listSize id := by
  rw [slabs_drop_of_ne hid]
  exact slabs_lt_grow h

/-- Allocations stay in bounds. -/
lemma Bounded.allocated (hid : id ≠ SLAB_GLOBAL_PAGE_POOL)
    (ha : v.Allocated id v') : v'.Bounded := by
  rcases ha with rfl | rfl | rfl | rfl
  · exact h
  · exact h.grow
  · exact h.grow.add (slabs_lt_grow h)
  · exact h.grow.drop.add (slabs_lt_grow_drop h hid)

omit h

/-- An allocation takes pages from the pool only. -/
lemma Allocated.slabs_le {i : ℕ} (ha : v.Allocated id v')
    (hi : i ≠ SLAB_GLOBAL_PAGE_POOL) : v.slabs i ≤ v'.slabs i := by
  have hadd : ∀ w : PageView, w.slabs i ≤ (w.add id).slabs i := by
    rcases eq_or_ne i id with rfl | hne
    · simp [add]
    · simp [add, hne]
  rcases ha with rfl | rfl | rfl | rfl
  · exact le_refl _
  · exact le_refl _
  · exact hadd (v.grow id)
  · have h := hadd ((v.grow id).drop SLAB_GLOBAL_PAGE_POOL)
    rwa [slabs_drop_of_ne hi] at h

end PageView

open PageView

/-! ## What the functions do to the view -/

section Functions

variable {cfg : Settings} {libc : Libc} {s s' : State} {id : ℕ}

lemma control_eq (h : s'.control = s.control) : s'.slabRebal = s.slabRebal ∧
    s'.slabRebalanceSignal = s.slabRebalanceSignal ∧ s'.movePc = s.movePc := by
  simpa [State.control] using h

lemma view_modifyClass_eq (s : State) (id : ℕ) (f : SlabClass → SlabClass) :
    (s.modifyClass id f).view = ⟨update s.view.slabs id (f (s.slabclass id)).slabs,
        update s.view.listSize id (f (s.slabclass id)).listSize, s.view.writes⟩ := by
  ext i
  · exact congrFun (comp_update SlabClass.slabs s.slabclass id _) i
  · exact congrFun (comp_update SlabClass.listSize s.slabclass id _) i
  · rfl

/-- Changes of other fields are not seen. -/
lemma view_modifyClass {f : SlabClass → SlabClass} (hs : ∀ p, (f p).slabs = p.slabs)
    (hl : ∀ p, (f p).listSize = p.listSize) : (s.modifyClass id f).view = s.view := by
  rw [view_modifyClass_eq, hs, hl]
  change (⟨update s.view.slabs id (s.view.slabs id),
    update s.view.listSize id (s.view.listSize id), s.view.writes⟩ : PageView) = s.view
  rw [update_eq_self, update_eq_self]

@[simp] lemma view_pushSlot (ptr : Addr) : (s.pushSlot id ptr).view = s.view :=
  view_modifyClass (fun _ => rfl) fun _ => rfl

@[simp] lemma control_pushSlot (ptr : Addr) : (s.pushSlot id ptr).control = s.control := rfl

lemma foldl_pushSlot {β : Type} (l : List β) (i : β → ℕ) (ptr : β → Addr) (s : State) :
    (l.foldl (fun s b => s.pushSlot (i b) (ptr b)) s).view = s.view ∧
      (l.foldl (fun s b => s.pushSlot (i b) (ptr b)) s).control = s.control := by
  induction l generalizing s with
  | nil => exact ⟨rfl, rfl⟩
  | cons b l ih => simpa using ih (s.pushSlot (i b) (ptr b))

lemma splitSlabPageIntoFreelist_view (ptr : Addr) :
    (splitSlabPageIntoFreelist ptr id s).view = s.view ∧
      (splitSlabPageIntoFreelist ptr id s).control = s.control :=
  foldl_pushSlot _ (fun _ => id) (fun x => ptr + x * (s.slabclass id).size) s

lemma doSlabsFree_view (it : Item) : (doSlabsFree cfg it id s).view = s.view ∧
    (doSlabsFree cfg it id s).control = s.control := by
  unfold doSlabsFree
  split_ifs
  · exact ⟨rfl, rfl⟩
  · cases it with
    | plain ptr => simp
    | chunked header chunks =>
      have h := foldl_pushSlot chunks (fun c => c.2) (fun c => c.1) (s.pushSlot header.2 header.1)
      simpa using h

lemma view_dropPage (s : State) (id : ℕ) :
    (s.modifyClass id fun p => { p with slabs := p.slabs - 1 }).view = s.view.drop id := by
  rw [view_modifyClass_eq]
  exact congrArg (mk _ · _) (update_eq_self id s.view.listSize)

lemma view_writePage (s : State) (id index : ℕ) (page : Addr) : (s.writePage id index page).view =
      { s.view with writes := ⟨id, index, s.view.listSize id⟩ :: s.view.writes } := by
  have h : (s.modifyClass id fun p =>
      { p with slabList := update p.slabList index page }).view = s.view :=
    view_modifyClass (fun _ => rfl) fun _ => rfl
  exact congrArg₂ (fun v ws => ({ v with writes := ws } : PageView)) h rfl

lemma view_addPage (s : State) (id : ℕ) (page : Addr) :
    (s.addPage id page).view = s.view.add id := by
  rw [State.addPage, view_modifyClass_eq, view_writePage]
  ext i
  · simp [add, State.view, State.writePage, State.modifyClass]
  · simp [add, State.view, State.writePage, State.modifyClass]
  · rfl

@[simp] lemma control_addPage (page : Addr) : (s.addPage id page).control = s.control := rfl

lemma growSlabList_view {realloc : Bool} (h : growSlabList realloc id s = some s') :
    s'.view = s.view.grow id ∧ s'.control = s.control := by
  unfold growSlabList at h
  by_cases hfull : (s.slabclass id).slabs = (s.slabclass id).listSize
  · simp only [if_pos hfull] at h
    split_ifs at h
    cases h
    refine ⟨?_, rfl⟩
    rw [view_modifyClass_eq]
    ext i
    · simp [grow, State.view]
    · by_cases h0 : (s.slabclass id).listSize = 0 <;> simp [grow, State.view, hfull, h0]
    · rfl
  · simp only [if_neg hfull, Option.some.injEq] at h
    subst h
    refine ⟨?_, rfl⟩
    ext i
    · rfl
    · simp [State.view, grow, hfull]
    · rfl

lemma getPageFromGlobalPool_view {ptr : Addr} (h : getPageFromGlobalPool s = some (ptr, s')) :
    s'.view = s.view.drop SLAB_GLOBAL_PAGE_POOL ∧ s'.control = s.control := by
  unfold getPageFromGlobalPool at h
  dsimp only at h
  split_ifs at h
  cases h
  exact ⟨view_dropPage s _, rfl⟩

lemma memoryAllocate_view (malloc : Option Addr) (size : ℕ) :
    (memoryAllocate malloc size s).2.view = s.view ∧
      (memoryAllocate malloc size s).2.control = s.control := by
  unfold memoryAllocate
  split_ifs <;> exact ⟨rfl, rfl⟩

/-- A page comes from the pool or from memory; without one nothing has changed. -/
lemma takePage_view {malloc : Option Addr} {len : ℕ} {ptr : Option Addr}
    (h : takePage malloc len s = (ptr, s')) : s'.control = s.control ∧
      (s'.view = s.view ∨ ptr.isSome ∧ s'.view = s.view.drop SLAB_GLOBAL_PAGE_POOL) := by
  unfold takePage at h
  split at h
  · next ptr' t ht =>
      obtain ⟨hview, hcontrol⟩ := getPageFromGlobalPool_view ht
      cases h
      exact ⟨hcontrol, .inr ⟨rfl, hview⟩⟩
  · obtain ⟨hview, hcontrol⟩ := @memoryAllocate_view s malloc len
    rw [h] at hview hcontrol
    exact ⟨hcontrol, .inl hview⟩

/-- A new page is one of the four changes. -/
lemma doSlabsNewslab_view : (doSlabsNewslab cfg libc id s).2.control = s.control ∧
    s.view.Allocated id (doSlabsNewslab cfg libc id s).2.view := by
  unfold doSlabsNewslab
  dsimp only
  split_ifs
  · exact ⟨rfl, .inl rfl⟩
  split
  · exact ⟨rfl, .inl rfl⟩
  · next t hgrow =>
      obtain ⟨hg, hgc⟩ := growSlabList_view hgrow
      split
      · next u hpage =>
          obtain ⟨hc, hv⟩ := takePage_view hpage
          refine ⟨hc.trans hgc, .inr (.inl ?_)⟩
          rcases hv with hv | ⟨hsome, -⟩
          · exact hv.trans hg
          · simp at hsome
      · next ptr u hpage =>
          obtain ⟨hc, hv⟩ := takePage_view hpage
          obtain ⟨hsv, hsc⟩ := @splitSlabPageIntoFreelist_view u id ptr
          refine ⟨?_, .inr (.inr ?_)⟩
          · rw [control_addPage, hsc, hc, hgc]
          · rw [view_addPage, hsv]
            rcases hv with hv | ⟨-, hv⟩
            · exact .inl (by rw [hv, hg])
            · exact .inr (by rw [hv, hg])

/-- An allocation from a class, which is never the pool. -/
lemma doSlabsAlloc_view (newPage : Bool) :
    (doSlabsAlloc cfg libc id newPage s).2.control = s.control ∧
      ((doSlabsAlloc cfg libc id newPage s).2.view = s.view ∨ newPage ∧ id ≠ SLAB_GLOBAL_PAGE_POOL ∧
          s.view.Allocated id (doSlabsAlloc cfg libc id newPage s).2.view) := by
  unfold doSlabsAlloc
  by_cases hid : id < POWER_SMALLEST ∨ id > cfg.powerLargest
  · rw [if_pos hid]
    exact ⟨rfl, .inl rfl⟩
  -- the state after the attempt to get a new page
  generalize ht : (if (s.slabclass id).slCurr = 0 ∧ newPage then
    (doSlabsNewslab cfg libc id s).2 else s) = t
  have hnew : t.control = s.control ∧ (t.view = s.view ∨ newPage ∧ id ≠ SLAB_GLOBAL_PAGE_POOL ∧
      s.view.Allocated id t.view) := by
    subst ht
    split_ifs with hpage
    · obtain ⟨hc, ha⟩ := @doSlabsNewslab_view cfg libc s id
      refine ⟨hc, .inr ⟨hpage.2, ?_, ha⟩⟩
      rintro rfl
      exact hid (.inl Nat.zero_lt_one)
    · exact ⟨rfl, .inl rfl⟩
  dsimp only
  split_ifs
  · have hpop : (t.modifyClass id fun p =>
        { p with slots := p.slots.tail, slCurr := p.slCurr - 1 }).view = t.view :=
      view_modifyClass (fun _ => rfl) fun _ => rfl
    rw [hpop]
    exact hnew
  · exact hnew

/-- Memory for a chunk that is moved comes from the free list. -/
lemma slabRebalanceAlloc_view (n : ℕ) : (slabRebalanceAlloc cfg id n s).2.view = s.view ∧
    (slabRebalanceAlloc cfg id n s).2.control = s.control := by
  induction n generalizing s with
  | zero => exact ⟨rfl, rfl⟩
  | succ n ih =>
    obtain ⟨hc, hv⟩ := @doSlabsAlloc_view cfg ⟨false, none⟩ s id false
    have hv : (doSlabsAlloc cfg ⟨false, none⟩ id false s).2.view = s.view := by simpa using hv
    unfold slabRebalanceAlloc
    generalize doSlabsAlloc cfg ⟨false, none⟩ id false s = r at hc hv ⊢
    obtain ⟨_ | it, t⟩ := r
    · exact ⟨hv, hc⟩
    · dsimp only at hc hv ⊢
      split_ifs
      · obtain ⟨hv', hc'⟩ := @ih t
        exact ⟨hv'.trans hv, hc'.trans hc⟩
      · exact ⟨hv, hc⟩

lemma memoryReleaseLoop_view (n : ℕ) : Dropped s.view (memoryReleaseLoop cfg n s).view ∧
    (memoryReleaseLoop cfg n s).control = s.control := by
  induction n generalizing s with
  | zero => exact ⟨Dropped.refl _, rfl⟩
  | succ n ih =>
    unfold memoryReleaseLoop
    split_ifs
    · cases hp : getPageFromGlobalPool s with
      | none => exact ⟨Dropped.refl _, rfl⟩
      | some r =>
        obtain ⟨hv, hc⟩ := getPageFromGlobalPool_view hp
        obtain ⟨hd, hc'⟩ := @ih { r.2 with memMalloced := r.2.memMalloced - cfg.slabPageSize }
        have hdrop : Dropped s.view r.2.view := hv ▸ dropped_drop
        exact ⟨hdrop.trans hd, hc'.trans hc⟩
    · exact ⟨Dropped.refl _, rfl⟩

/-- Pages are only taken from the pool. -/
lemma memoryRelease_view : Dropped s.view (memoryRelease cfg s).view ∧
    (memoryRelease cfg s).control = s.control := by
  unfold memoryRelease
  split_ifs
  · exact ⟨Dropped.refl _, rfl⟩
  · exact memoryReleaseLoop_view _
  · exact ⟨Dropped.refl _, rfl⟩

/-- The pages of a list move up by one entry. -/
lemma foldl_writePage_view (f : State → ℕ → Addr) (n : ℕ) :
    ((range n).foldl (fun s x => s.writePage id x (f s x)) s).view = s.view.shift id n ∧
      ((range n).foldl (fun s x => s.writePage id x (f s x)) s).control = s.control := by
  induction n with
  | zero => exact ⟨rfl, rfl⟩
  | succ n ih =>
    obtain ⟨hv, hc⟩ := ih
    rw [range_succ, foldl_append, foldl_cons, foldl_nil, view_writePage, hv, shift_listSize]
    exact ⟨rfl, hc⟩

/-- A finished move: the source loses a page and its others move up, the destination stores it. -/
def PageView.move (v : PageView) (src dst : ℕ) : PageView :=
  ((v.drop src).shift src ((v.drop src).slabs src)).add dst

/-- A finished move, and pages released behind it. -/
lemma slabRebalanceFinish_view : Dropped (s.view.move s.slabRebal.sClsid s.slabRebal.dClsid)
      (slabRebalanceFinish cfg s).view ∧ (slabRebalanceFinish cfg s).movePc = s.movePc := by
  unfold slabRebalanceFinish move
  dsimp only
  rw [← view_dropPage s s.slabRebal.sClsid]
  generalize ht : (s.modifyClass s.slabRebal.sClsid fun p => { p with slabs := p.slabs - 1 }) = t
  have htc : t.control = s.control := ht ▸ rfl
  obtain ⟨hfold, hfc⟩ := @foldl_writePage_view t s.slabRebal.sClsid
    (fun t x => (t.slabclass s.slabRebal.sClsid).slabList (x + 1))
    (t.slabclass s.slabRebal.sClsid).slabs
  generalize (range (t.slabclass s.slabRebal.sClsid).slabs).foldl _ t = u at hfold hfc ⊢
  have hadd := view_addPage u s.slabRebal.dClsid s.slabRebal.slabStart
  have hac : (u.addPage s.slabRebal.dClsid s.slabRebal.slabStart).control = s.control :=
    hfc.trans htc
  rw [hfold] at hadd
  generalize u.addPage s.slabRebal.dClsid s.slabRebal.slabStart = w at hadd hac ⊢
  -- the page is cut up, or the pool may give some of its pages back
  have hend : ∀ x : State, Dropped w.view x.view → x.control = w.control →
      Dropped ((t.view.shift s.slabRebal.sClsid (t.view.slabs s.slabRebal.sClsid)).add
        s.slabRebal.dClsid) x.view ∧ x.movePc = s.movePc := by
    intro x hx hxc
    refine ⟨?_, (control_eq (hxc.trans hac)).2.2⟩
    exact hadd ▸ hx
  split_ifs
  · obtain ⟨hv, hc⟩ := @splitSlabPageIntoFreelist_view w s.slabRebal.dClsid s.slabRebal.slabStart
    exact hend (splitSlabPageIntoFreelist s.slabRebal.slabStart s.slabRebal.dClsid w)
      (hv ▸ Dropped.refl _) hc
  · obtain ⟨hv, hc⟩ := @memoryRelease_view cfg w
    exact hend (memoryRelease cfg w) hv hc

lemma advance_view : (advance s).view = s.view := by
  unfold advance
  dsimp only
  split_ifs <;> rfl

lemma advance_control : (advance s).slabRebalanceSignal = s.slabRebalanceSignal ∧
    (advance s).slabRebal.sClsid = s.slabRebal.sClsid ∧
    (advance s).slabRebal.dClsid = s.slabRebal.dClsid ∧ (advance s).movePc = s.movePc := by
  unfold advance
  dsimp only
  split_ifs <;> exact ⟨rfl, rfl, rfl, rfl⟩

end Functions

/-! ## The invariant -/

/-- The page lists are in bounds, and the source of a move is a class with pages to spare. -/
structure Inv (s : State) : Prop where
  bounded : s.view.Bounded
  source : s.slabRebalanceSignal = 2 → s.slabRebal.sClsid ≠ SLAB_GLOBAL_PAGE_POOL ∧
    s.slabRebal.sClsid ≠ s.slabRebal.dClsid ∧ 2 ≤ s.view.slabs s.slabRebal.sClsid
  done : s.slabRebal.done ≠ 0 → s.slabRebalanceSignal = 2
  moving : s.movePc ≠ .look → s.slabRebalanceSignal = 2 ∧ s.slabRebal.done = 0

/-- The list of the destination is full. -/
def destFull (s : State) : Prop :=
  (s.slabclass s.slabRebal.dClsid).slabs = (s.slabclass s.slabRebal.dClsid).listSize

instance (s : State) : Decidable (destFull s) := inferInstanceAs (Decidable (_ = _))

variable {taken : Bool}

section Steps

variable {cfg : Settings} {s s' : State}

/-- Steps that leave the page lists and the move alone keep the invariant. -/
lemma Inv.same (h : Inv s) (hv : s'.view = s.view)
    (hsig : s'.slabRebalanceSignal = s.slabRebalanceSignal)
    (hs : s'.slabRebal.sClsid = s.slabRebal.sClsid) (hd : s'.slabRebal.dClsid = s.slabRebal.dClsid)
    (hdone : s'.slabRebal.done ≠ 0 → s'.slabRebalanceSignal = 2)
    (hpc : s'.movePc ≠ .look → s'.slabRebalanceSignal = 2 ∧ s'.slabRebal.done = 0) : Inv s' := by
  refine ⟨by rw [hv]; exact h.bounded, ?_, hdone, hpc⟩
  rw [hsig, hs, hd, hv]
  exact h.source

lemma destFull_congr (hv : s'.view = s.view)
    (hd : s'.slabRebal.dClsid = s.slabRebal.dClsid) : destFull s' ↔ destFull s := by
  have hs : ∀ i, (s'.slabclass i).slabs = (s.slabclass i).slabs := congrFun (congrArg slabs hv)
  have hl : ∀ i, (s'.slabclass i).listSize = (s.slabclass i).listSize :=
    congrFun (congrArg listSize hv)
  rw [destFull, destFull, hd, hs, hl]

/-- Whether the destination of the current move has a full list, followed along the run. -/
def lastSlotTaken (taken : Bool) (s' : State) : Step → Bool
  | .alloc _ _ _ => decide (destFull s')
  | .start _ => false
  | _ => taken

/-- The invariant, with what `taken` says. -/
structure Tracked (s : State) (taken : Bool) : Prop extends Inv s where
  taken : s.slabRebalanceSignal = 2 → (taken = true ↔ destFull s)

/-- What the view does not show keeps the invariant. -/
lemma Tracked.same (h : Tracked s taken) (hv : s'.view = s.view)
    (hc : s'.control = s.control) : Tracked s' taken := by
  obtain ⟨hr, hsig, hpc⟩ := control_eq hc
  refine ⟨h.toInv.same hv hsig (by rw [hr]) (by rw [hr]) ?_ ?_, ?_⟩
  · rw [hr, hsig]; exact h.done
  · rw [hr, hsig, hpc]; exact h.moving
  · rw [hsig, destFull_congr hv (by rw [hr])]; exact h.taken

/-- An allocation may take the last entry. -/
lemma Tracked.alloc (h : Tracked s taken) (libc : Libc) (id : ℕ) (newPage : Bool) :
    Tracked (doSlabsAlloc cfg libc id newPage s).2
      (decide (destFull (doSlabsAlloc cfg libc id newPage s).2)) := by
  obtain ⟨hc, hv⟩ := @doSlabsAlloc_view cfg libc s id newPage
  obtain ⟨hr, hsig, hpc⟩ := control_eq hc
  rcases hv with hv | ⟨-, hid, ha⟩
  · refine ⟨(h.same hv hc).toInv, fun _ => decide_eq_true_iff⟩
  · refine ⟨⟨h.bounded.allocated hid ha, ?_, ?_, ?_⟩, fun _ => decide_eq_true_iff⟩
    · rw [hr, hsig]
      intro h2
      obtain ⟨hpool, hne, hle⟩ := h.source h2
      exact ⟨hpool, hne, le_trans hle (ha.slabs_le hpool)⟩
    · rw [hr, hsig]; exact h.done
    · rw [hr, hsig, hpc]; exact h.moving

/-- A request changes nothing, or puts a new move before the thread when it is idle. -/
lemma slabsReassign_cases (cfg : Settings) (src dst : ℤ) (s : State) :
    (slabsReassign cfg src dst s).view = s.view ∧
      ((slabsReassign cfg src dst s).control = s.control ∨ s.slabRebalanceSignal = 0 ∧ ∃ a b,
        (slabsReassign cfg src dst s).control =
          ({ s.slabRebal with sClsid := a, dClsid := b }, 1, s.movePc)) := by
  unfold slabsReassign
  by_cases h0 : s.slabRebalanceSignal = 0
  · rw [if_neg (not_not.2 h0)]
    split_ifs
    · exact ⟨rfl, .inl rfl⟩
    dsimp only
    split_ifs
    · exact ⟨rfl, .inl rfl⟩
    · exact ⟨rfl, .inl rfl⟩
    · exact ⟨rfl, .inr ⟨h0, _, _, rfl⟩⟩
  · rw [if_pos h0]
    exact ⟨rfl, .inl rfl⟩

lemma Tracked.reassign (h : Tracked s taken) (src dst : ℤ) :
    Tracked (slabsReassign cfg src dst s) taken := by
  obtain ⟨hv, hc | ⟨h0, a, b, hc⟩⟩ := slabsReassign_cases cfg src dst s
  · exact h.same hv hc
  · simp only [State.control, Prod.mk.injEq] at hc
    obtain ⟨hr, hsig, hpc⟩ := hc
    refine ⟨⟨by rw [hv]; exact h.bounded, by simp [hsig], ?_, ?_⟩, by simp [hsig]⟩
    · rw [hr]
      intro hd
      exact absurd (h.done hd) (by simp [h0])
    · rw [hpc]
      intro hl
      exact absurd (h.moving hl).1 (by simp [h0])

/-- A move starts with room for one more page in the list of the destination. -/
lemma Tracked.start (h : Tracked s taken) (realloc : Bool)
    (h1 : s.slabRebalanceSignal = 1) : Tracked (slabRebalanceStart cfg realloc s) false := by
  have hdone : s.slabRebal.done = 0 := by
    by_contra hd
    exact absurd (h.done hd) (by simp [h1])
  have hlook : s.movePc = .look := by
    by_contra hl
    exact absurd (h.moving hl).1 (by simp [h1])
  unfold slabRebalanceStart
  dsimp only
  cases hg : growSlabList realloc s.slabRebal.dClsid s with
  | none => exact
      ⟨⟨h.bounded, by simp, fun hd => absurd hdone hd, fun hl => absurd hlook hl⟩, by simp⟩
  | some t =>
    obtain ⟨hv, hc⟩ := growSlabList_view hg
    obtain ⟨hr, hsig, hpc⟩ := control_eq hc
    have hb : t.view.Bounded := hv ▸ h.bounded.grow
    dsimp only
    split_ifs with hbad
    · refine ⟨⟨hb, by simp, fun hd => ?_, fun hl => absurd (hpc.trans hlook) hl⟩, by simp⟩
      exact absurd hdone (hr ▸ hd)
    · simp only [not_or, not_lt] at hbad
      obtain ⟨⟨hsmall, -, -, hne⟩, htwo⟩ := hbad
      refine ⟨⟨hb, fun _ => ⟨?_, hne, htwo⟩, fun _ => rfl,
        fun hl => absurd (hpc.trans hlook) hl⟩, ?_⟩
      · exact ne_of_gt hsmall
      · intro _
        have hroom : t.view.slabs s.slabRebal.dClsid < t.view.listSize s.slabRebal.dClsid := by
          rw [hv]
          exact slabs_lt_grow h.bounded
        constructor
        · intro hfalse
          exact absurd hfalse Bool.false_ne_true
        · intro hfull
          exact absurd hfull (ne_of_lt hroom)

/-- While a chunk is moved the page lists and the classes of the move stay as they are. -/
structure SameMove (s s' : State) : Prop where
  view : s'.view = s.view
  signal : s'.slabRebalanceSignal = s.slabRebalanceSignal
  sClsid : s'.slabRebal.sClsid = s.slabRebal.sClsid
  dClsid : s'.slabRebal.dClsid = s.slabRebal.dClsid

lemma Tracked.sameMove (h : Tracked s taken) (hm : SameMove s s')
    (h2 : s.slabRebalanceSignal = 2) (hpc : s'.movePc ≠ .look → s'.slabRebal.done = 0) :
    Tracked s' taken := by
  have h2' : s'.slabRebalanceSignal = 2 := hm.signal.trans h2
  refine ⟨h.toInv.same hm.view hm.signal hm.sClsid hm.dClsid
    (fun _ => h2') fun hl => ⟨h2', hpc hl⟩, ?_⟩
  intro _
  rw [destFull_congr hm.view hm.dClsid]
  exact h.taken h2

lemma sameMove_of_control (hv : s'.view = s.view)
    (hc : s'.control = s.control) : SameMove s s' := by
  obtain ⟨hr, hsig, -⟩ := control_eq hc
  exact ⟨hv, hsig, by rw [hr], by rw [hr]⟩

lemma SameMove.advance (h : SameMove s s') : SameMove s (advance s') := by
  obtain ⟨hsig, hs, hd, -⟩ := @advance_control s'
  exact ⟨advance_view.trans h.view, hsig.trans h.signal, hs.trans h.sClsid, hd.trans h.dClsid⟩

/-- A chunk is dealt with under the lock, or the thread drops the lock with the move not done. -/
lemma lookAtChunk_cases {status : MoveStatus} (h : lookAtChunk cfg s status = some s')
    (hlook : s.movePc = .look) :
    SameMove s s' ∧ (s'.movePc ≠ .look → s'.slabRebal.done = s.slabRebal.done) := by
  have hadvance : ∀ t : State, SameMove s t → t.movePc = .look → s' = advance t →
      SameMove s s' ∧ (s'.movePc ≠ .look → s'.slabRebal.done = s.slabRebal.done) := by
    rintro t ht hpc rfl
    obtain ⟨-, -, -, hpc'⟩ := @advance_control t
    exact ⟨ht.advance, fun hl => absurd (hpc'.trans hpc) hl⟩
  cases status with
  | pass =>
    simp only [lookAtChunk, Option.some.injEq] at h
    exact hadvance s ⟨rfl, rfl, rfl, rfl⟩ hlook h.symm
  | fromSlab =>
    simp only [lookAtChunk] at h
    split_ifs at h
    simp only [Option.some.injEq] at h
    have hv : (slabRebalanceCutFree s.slabRebal.slabPos s.slabRebal.sClsid s).view = s.view :=
      view_modifyClass (fun _ => rfl) fun _ => rfl
    exact hadvance _ (sameMove_of_control hv rfl) hlook h.symm
  | busy =>
    simp only [lookAtChunk, Option.some.injEq] at h
    exact hadvance (noteBusy s) ⟨rfl, rfl, rfl, rfl⟩ hlook h.symm
  | locked =>
    simp only [lookAtChunk, Option.some.injEq] at h
    exact hadvance (noteBusy s) ⟨rfl, rfl, rfl, rfl⟩ hlook h.symm
  | fromLru expired it =>
    simp only [lookAtChunk] at h
    split_ifs at h
    · cases h
      exact ⟨⟨rfl, rfl, rfl, rfl⟩, fun _ => rfl⟩
    · obtain ⟨hv, hc⟩ := @slabRebalanceAlloc_view cfg s s.slabRebal.sClsid
        (s.slabclass s.slabRebal.sClsid).perslab
      generalize slabRebalanceAlloc cfg s.slabRebal.sClsid
        (s.slabclass s.slabRebal.sClsid).perslab s = r at h hv hc
      have hm := sameMove_of_control hv hc
      have hr := (control_eq hc).1
      obtain ⟨_ | _, t⟩ := r
      · cases h
        exact ⟨⟨hm.view, hm.signal, hm.sClsid, hm.dClsid⟩, fun _ => congrArg SlabRebalance.done hr⟩
      · cases h
        exact ⟨⟨hm.view, hm.signal, hm.sClsid, hm.dClsid⟩, fun _ => congrArg SlabRebalance.done hr⟩

/-- A finished move leaves the lists in bounds, if the destination still has room. -/
lemma Tracked.finish (h : Tracked s taken) (hdone : s.slabRebal.done ≠ 0)
    (hroom : taken = false) : Tracked (slabRebalanceFinish cfg s) taken := by
  have h2 := h.done hdone
  obtain ⟨-, hne, -⟩ := h.source h2
  have hlook : s.movePc = .look := by
    by_contra hl
    exact hdone (h.moving hl).2
  have hnot : ¬ destFull s := fun hf => by simp [(h.taken h2).2 hf] at hroom
  obtain ⟨hd, hpc⟩ := @slabRebalanceFinish_view cfg s
  have hv : (s.view.drop s.slabRebal.sClsid).Bounded := h.bounded.drop
  have hb := @Bounded.add _ s.slabRebal.dClsid (hv.shift (hv.listed s.slabRebal.sClsid)) ?_
  · refine ⟨⟨hb.dropped hd, ?_, ?_, ?_⟩, ?_⟩
    · intro hsig
      exact absurd hsig (by simp [slabRebalanceFinish])
    · intro hd'
      exact absurd rfl hd'
    · intro hl
      exact absurd (hpc.trans hlook) hl
    · intro hsig
      exact absurd hsig (by simp [slabRebalanceFinish])
  · rw [shift_slabs, shift_listSize, slabs_drop_of_ne hne.symm]
    exact lt_of_le_of_ne (h.bounded.listed _) hnot

/-- A move that finishes with a full list writes beyond the end of it. -/
lemma not_bounded_finish (h : Inv s) (hdone : s.slabRebal.done ≠ 0) (hfull : destFull s) :
    ¬ (slabRebalanceFinish cfg s).view.Bounded := by
  intro hb
  obtain ⟨-, hne, -⟩ := h.source (h.done hdone)
  obtain ⟨hd, -⟩ := @slabRebalanceFinish_view cfg s
  have hw := hb.written
  rw [hd.writes] at hw
  have hlt := hw _ (mem_cons_self ..)
  rw [shift_slabs, shift_listSize, slabs_drop_of_ne hne.symm] at hlt
  exact ne_of_lt hlt hfull

/-- One step, `finish` with room in the destination's list. -/
lemma Tracked.step {e : Step} (h : Tracked s taken) (hs : step cfg s e = some s')
    (hroom : e = .finish → taken = false) : Tracked s' (lastSlotTaken taken s' e) := by
  cases e with
  | alloc libc id newPage =>
    obtain rfl := Option.some.inj hs
    exact h.alloc libc id newPage
  | free it id =>
    obtain rfl := Option.some.inj hs
    obtain ⟨hv, hc⟩ := @doSlabsFree_view cfg s id it
    exact h.same hv hc
  | reassign src dst =>
    obtain rfl := Option.some.inj hs
    exact h.reassign src dst
  | start realloc =>
    simp only [Slabs.step] at hs
    split_ifs at hs with h1
    cases hs
    exact h.start realloc h1
  | look status =>
    simp only [Slabs.step] at hs
    split at hs
    · next hlook =>
        split_ifs at hs with hmove
        obtain ⟨hm, hdone⟩ := lookAtChunk_cases hs hlook
        exact h.sameMove hm hmove.1 fun hl => (hdone hl).trans hmove.2.2
    · simp at hs
  | evict =>
    simp only [Slabs.step] at hs
    split at hs
    · next it hpc =>
        cases hs
        obtain ⟨hv, hc⟩ := @doSlabsFree_view cfg s s.slabRebal.sClsid it
        have hm := sameMove_of_control hv hc
        obtain ⟨h2, hdone⟩ := h.moving (by rw [hpc]; simp)
        refine h.sameMove ⟨hm.view, hm.signal, hm.sClsid, hm.dClsid⟩ h2 fun _ => ?_
        exact (congrArg SlabRebalance.done (control_eq hc).1).trans hdone
    · simp at hs
  | relock =>
    simp only [Slabs.step] at hs
    split at hs
    · next hpc =>
        cases hs
        obtain ⟨h2, -⟩ := h.moving (by rw [hpc]; simp)
        have hm := SameMove.advance (⟨rfl, rfl, rfl, rfl⟩ : SameMove s s)
        exact h.sameMove ⟨hm.view, hm.signal, hm.sClsid, hm.dClsid⟩ h2 fun hl => absurd rfl hl
    · simp at hs
  | finish =>
    simp only [Slabs.step] at hs
    split_ifs at hs with hdone
    cases hs
    exact h.finish hdone (hroom rfl)

end Steps

/-! ## Runs -/

/-- At every point no class has more pages than entries, and no list was written beyond its end. -/
def PagesInBounds (cfg : Settings) (s : State) (es : List Step) : Prop :=
  ∀ pre post s', es = pre ++ post → run cfg s pre = some s' → s'.view.Bounded

/-- No move of the run finishes after an allocation took the last entry of its destination's list.
-/
def LastSlotKept (cfg : Settings) : State → Bool → List Step → Prop
  | _, _, [] => True
  | s, taken, e :: es => ∀ s', step cfg s e = some s' →
      (e = .finish → taken = false) ∧ LastSlotKept cfg s' (lastSlotTaken taken s' e) es

section Runs

variable {cfg : Settings} {s : State}

lemma pagesInBounds_nil : PagesInBounds cfg s [] ↔ s.view.Bounded := by
  constructor
  · intro h
    exact h [] [] s rfl rfl
  · intro h pre post s' he hr
    obtain ⟨rfl, -⟩ := append_eq_nil_iff.1 he.symm
    simp only [run, Option.some.injEq] at hr
    exact hr ▸ h

lemma pagesInBounds_cons {e : Step} {es : List Step} : PagesInBounds cfg s (e :: es) ↔
    s.view.Bounded ∧ ∀ s', step cfg s e = some s' → PagesInBounds cfg s' es := by
  constructor
  · intro h
    refine ⟨h [] (e :: es) s rfl rfl, fun s' hs pre post t he hr => ?_⟩
    exact h (e :: pre) post t (by rw [he]; rfl) (by simp [run, hs, hr])
  · rintro ⟨h, hrest⟩ pre post t he hr
    cases pre with
    | nil =>
      simp only [run, Option.some.injEq] at hr
      exact hr ▸ h
    | cons e' pre =>
      cases he
      obtain ⟨s', hs, hr⟩ := Option.bind_eq_some_iff.1 hr
      exact hrest s' hs pre post t rfl hr

/-- Along a run, `taken` is all there is to know about the bounds. -/
lemma Tracked.pagesInBounds_iff {es : List Step} (h : Tracked s taken) :
    PagesInBounds cfg s es ↔ LastSlotKept cfg s taken es := by
  induction es generalizing s taken with
  | nil => exact ⟨fun _ => trivial, fun _ => pagesInBounds_nil.2 h.bounded⟩
  | cons e es ih =>
    rw [pagesInBounds_cons]
    constructor
    · rintro ⟨-, hrest⟩ s' hs
      have hroom : e = .finish → taken = false := by
        rintro rfl
        simp only [Slabs.step] at hs
        split_ifs at hs with hdone
        simp only [Option.some.injEq] at hs
        by_contra ht
        have hfull := (h.taken (h.done hdone)).1 (by simpa using ht)
        have hbad := @not_bounded_finish cfg s h.toInv hdone hfull
        rw [hs] at hbad
        exact hbad (hrest s' (by simp [Slabs.step, hdone, hs]) [] es s' rfl rfl)
      exact ⟨hroom, (ih (h.step hs hroom)).1 (hrest s' hs)⟩
    · intro hkept
      refine ⟨h.bounded, fun s' hs => ?_⟩
      obtain ⟨hroom, hrest⟩ := hkept s' hs
      exact (ih (h.step hs hroom)).2 hrest

/-- Pages given to the classes in advance are in bounds. -/
lemma slabsPreallocate_tracked {libc : ℕ → Libc} {s' : State} (h : Tracked s false)
    (h0 : s.slabRebalanceSignal = 0) (hs : slabsPreallocate cfg libc s = some s') :
    Tracked s' false := by
  unfold slabsPreallocate at hs
  have hids : ∀ i ∈ range' POWER_SMALLEST cfg.powerLargest, i ≠ SLAB_GLOBAL_PAGE_POOL := by
    intro i hi
    exact ne_of_gt (mem_range'_1.1 hi).1
  generalize range' POWER_SMALLEST cfg.powerLargest = ids at hs hids
  induction ids generalizing s with
  | nil =>
    simp only [foldlM_nil, Option.pure_def, Option.some.injEq] at hs
    exact hs ▸ h
  | cons i ids ih =>
    rw [foldlM_cons] at hs
    obtain ⟨t, ht, hs⟩ := Option.bind_eq_some_iff.1 hs
    obtain ⟨hc, ha⟩ := @doSlabsNewslab_view cfg (libc i) s i
    generalize doSlabsNewslab cfg (libc i) i s = r at ht hc ha
    obtain ⟨_ | _, u⟩ := r
    · simp at ht
    cases ht
    obtain ⟨hr, hsig, hpc⟩ := control_eq hc
    have h0' : t.slabRebalanceSignal = 0 := hsig.trans h0
    refine ih ⟨⟨h.bounded.allocated (hids i (by simp)) ha, by simp [h0'], ?_, ?_⟩, by simp [h0']⟩
      h0' hs fun j hj => hids j (by simp [hj])
    · rw [hr, hsig]; exact h.done
    · rw [hr, hsig, hpc]; exact h.moving

lemma emptyClasses_tracked (limit : ℕ) (prealloc : Bool) (memBase : Addr) (malloced : ℕ)
    (sizes : ℕ → ℕ × ℕ) : Tracked (emptyClasses limit prealloc memBase malloced sizes) false := by
  refine ⟨⟨⟨?_, ?_⟩, ?_, ?_, ?_⟩, ?_⟩ <;> simp [State.view, emptyClasses]

lemma slabsInit_tracked {limit memBase malloced : ℕ} {prealloc : Bool} {sizes : ℕ → ℕ × ℕ}
    {libc : ℕ → Libc} (h : slabsInit cfg limit prealloc memBase malloced sizes libc = some s) :
    Tracked s false := by
  have hempty := emptyClasses_tracked limit prealloc memBase malloced sizes
  unfold slabsInit at h
  split_ifs at h
  · exact slabsPreallocate_tracked hempty rfl h
  · simp only [Option.some.injEq] at h
    exact h ▸ hempty

end Runs

/-- **The page lists stay in bounds** in exactly those interleavings in which no move finishes after
an allocation took the last entry of the destination's list, the one the move had made room for. -/
theorem pagesInBounds_iff_lastSlotKept (cfg : Settings) (limit : ℕ) (prealloc : Bool)
    (memBase : Addr) (malloced : ℕ) (sizes : ℕ → ℕ × ℕ) (libc : ℕ → Libc) (s : State)
    (h : slabsInit cfg limit prealloc memBase malloced sizes libc = some s) (es : List Step) :
    PagesInBounds cfg s es ↔ LastSlotKept cfg s false es :=
  (slabsInit_tracked h).pagesInBounds_iff

/-- Pages of a megabyte, cut in two for class 1 and whole for class 2. -/
def megabytePages : Settings := ⟨true, 2 ^ 20, 2 ^ 20, 2⟩

/-- `slabs_init` under a limit of 64 megabytes. -/
def startedUp : Option State :=
  slabsInit megabytePages (2 ^ 26) false 0 0
    (fun i => if i = 1 then (2 ^ 19, 2) else (2 ^ 20, 1)) fun _ => ⟨true, none⟩

/-- Class 1 gets two pages and class 2 fifteen; between the start and the end of a move from 1 to 2
an allocation gives class 2 its sixteenth. -/
def racingMove : List Step :=
  [.alloc ⟨true, some (2 ^ 20)⟩ 1 true, .alloc ⟨true, none⟩ 1 true,
    .alloc ⟨true, some (2 * 2 ^ 20)⟩ 1 true] ++
  (List.range 15).map (fun k => .alloc ⟨true, some ((3 + k) * 2 ^ 20)⟩ 2 true) ++
  [.free (.plain (2 ^ 20)) 1, .free (.plain (2 ^ 20 + 2 ^ 19)) 1, .reassign 1 2, .start true,
    .alloc ⟨true, some (18 * 2 ^ 20)⟩ 2 true, .look .fromSlab, .look .fromSlab, .finish]

theorem pagesInBounds_iff_lastSlotKept_startedUp : ∃ s, startedUp = some s ∧
      (PagesInBounds megabytePages s racingMove ↔ LastSlotKept megabytePages s false racingMove) :=
  ⟨_, rfl, pagesInBounds_iff_lastSlotKept megabytePages (2 ^ 26) false 0 0
    (fun i => if i = 1 then (2 ^ 19, 2) else (2 ^ 20, 1)) (fun _ => ⟨true, none⟩) _ rfl racingMove⟩

/-- The move writes the seventeenth entry of a list of sixteen. -/
theorem racingMove_beyond_list :
    ∃ s, startedUp = some s ∧ ¬ PagesInBounds megabytePages s racingMove := by
  have hrun : (startedUp.bind fun s => run megabytePages s racingMove).map
      (fun s => s.pageWrites.head?) = some (some ⟨2, 16, 16⟩) := by decide +kernel
  obtain ⟨t, ht, hw⟩ := Option.map_eq_some_iff.1 hrun
  obtain ⟨s, hs, hr⟩ := Option.bind_eq_some_iff.1 ht
  refine ⟨s, hs, fun h => ?_⟩
  have hb := h racingMove [] t (by simp) hr
  exact absurd (hb.written _ (mem_of_mem_head? hw)) (by decide)

end Memcached.Slabs
