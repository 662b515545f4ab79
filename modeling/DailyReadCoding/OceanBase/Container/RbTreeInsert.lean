import DailyReadCoding.OceanBase.Container.RbTreeLinks

/-!
# `ObRbTree::insert`

The new node is a red leaf at the end of the way down. On the way up the tree below the current
entry is left-leaning, or it has a red root with a red left child at a place where its root may be
red; a round moves that one entry up.
-/

namespace OceanBase.Container.RbTree

open LinkedTree ColorTree

/-! ## The way down -/

section Wind

variable {cmp : NodePtr → NodePtr → ℤ} {m : Memory} {sub : ColorTree NodePtr} {node : NodePtr}
  {fs : List (Frame NodePtr)} {path : List ObRbPath}

/-- **The way down** ends where the node belongs. -/
theorem insertWind_spec (hcmp : TotalPreorderCmp cmp) (hsub : Holds m.links sub)
    (hpath : Follows path fs) (hsorted : Sorted cmp sub.toList)
    (hnew : ∀ b ∈ sub.toList, cmp node b ≠ 0) {room : ℕ} (hroom : sub.height < room) :
    ∃ path' gs, insertWind cmp node m room sub.root path = .ok path' ∧ Follows path' (gs ++ fs)
      ∧ fill nil gs = sub ∧ (∀ b ∈ before gs, cmp b node < 0) ∧ ∀ b ∈ after gs, cmp node b < 0 := by
  induction sub generalizing fs path room with
  | nil =>
    obtain ⟨room, rfl⟩ := Nat.exists_eq_add_of_lt hroom
    exact ⟨path, [], by rw [insertWind.eq_def]; simp, hpath, rfl, by simp [before], by simp [after]⟩
  | node c l a r ihl ihr =>
    obtain ⟨hlsorted, hrsorted, hla, har, -⟩ := sorted_node.1 hsorted
    obtain _ | room := room
    · omega
    simp only [height] at hroom
    have hl : l.height < room := by omega
    have hr : r.height < room := by omega
    have hne : cmp node a ≠ 0 := hnew a (by simp)
    rw [root_node, insertWind, if_neg hne]
    by_cases hlt : cmp node a < 0
    · rw [if_pos hlt, Memory.getLeft_eq, hsub.left]
      have hframe : ObRbPath.Matches ⟨a, cmp node a⟩ ⟨true, c, a, r⟩ := ⟨rfl, by simp [hlt], hne⟩
      obtain ⟨path', gs, hwind, hfollows, hfill, hbefore, hafter⟩ :=
        ihl hsub.2.1 (.cons hframe hpath) hlsorted (fun b hb => hnew b (by simp [hb])) hl
      refine ⟨path', gs ++ [⟨true, c, a, r⟩], hwind, by simpa using hfollows, ?_, ?_, ?_⟩
      · rw [fill_append, hfill]
        rfl
      · simpa [before_append, before] using hbefore
      · intro b hb
        simp only [after_append, after, List.mem_append, if_true, List.append_nil,
          List.mem_cons] at hb
        rcases hb with hb | rfl | hb
        · exact hafter b hb
        · exact hlt
        · exact hcmp.lt_of_lt_of_le hlt (har b hb).le
    · rw [if_neg hlt, Memory.getRight_eq, hsub.right]
      have hgt : cmp a node < 0 := (hcmp.swap a node).2 (by omega)
      have hframe : ObRbPath.Matches ⟨a, cmp node a⟩ ⟨false, c, a, l⟩ :=
        ⟨rfl, by simpa using hlt, hne⟩
      obtain ⟨path', gs, hwind, hfollows, hfill, hbefore, hafter⟩ :=
        ihr hsub.2.2 (.cons hframe hpath) hrsorted (fun b hb => hnew b (by simp [hb])) hr
      refine ⟨path', gs ++ [⟨false, c, a, l⟩], hwind, by simpa using hfollows, ?_, ?_, ?_⟩
      · rw [fill_append, hfill]
        rfl
      · intro b hb
        simp only [before_append, before, List.nil_append, List.mem_append,
          Bool.false_eq_true, if_false,
          List.mem_singleton] at hb
        rcases hb with (hb | rfl) | hb
        · exact hcmp.lt_of_lt_of_le (hla b hb) hgt.le
        · exact hgt
        · exact hbefore b hb
      · simpa [after_append, after] using hafter

end Wind

/-! ## One round of the way up -/

section Rounds

variable {m : Memory} {c : Bool} {l r x y z : ColorTree NodePtr} {a b d : NodePtr}
  {child : Option NodePtr} {fs : List (Frame NodePtr)}

/-- "Fix up 4-node." -/
lemma fixUp_spec (h : Open m.links (node c (node true (node true x a y) b z) d r) child fs) :
    ∃ m', (m.setBlack a).rotateRight d = .ok (m', b)
      ∧ Open m'.links (node true (node false x a y) b (node c z d r)) child fs := by
  have hn := h.nodup_tree
  have hnl := (nodup_node.1 hn).1
  have hnll := (nodup_node.1 hnl).1
  have hcolor := Reshaped.inLeft h.holds hn
    (.inLeft h.holds.2.1 hnl (setBlack_spec h.holds.2.1.2.1 hnll) rfl) rfl
  obtain ⟨m', hrotate, hreshaped⟩ := rotateRight_spec hcolor.holds (hcolor.nodup hn)
  exact ⟨m', hrotate, h.reshape (hcolor.trans hreshaped)⟩

/-- "Split 4-node." -/
lemma split_spec (h : Open m.links (node c (node true x a y) b (node true z d r)) child fs) :
    Open (((m.setBlack a).setBlack d).setRed b).links
      (node true (node false x a y) b (node false z d r)) child fs := by
  have hn := h.nodup_tree
  have hleft := Reshaped.inLeft h.holds hn (setBlack_spec h.holds.2.1 (nodup_node.1 hn).1) rfl
  have hnl := hleft.nodup hn
  have hright := Reshaped.inRight hleft.holds hnl
    (setBlack_spec hleft.holds.2.2 (nodup_node.1 hnl).2.1) rfl
  have hroot := setRed_spec hright.holds (hright.nodup hnl)
  exact h.reshape ((hleft.trans hright).trans hroot)

/-- "Lean left." -/
lemma leanLeft_spec (h : Open m.links (node c l a (node true x b r)) child fs) :
    ∃ m', m.rotateLeft a = .ok (m', b)
      ∧ Open ((m'.setColor b c).setRed a).links (node c (node true l a x) b r) child fs := by
  have hn := h.nodup_tree
  obtain ⟨m', hrotate, hreshaped⟩ := rotateLeft_spec h.holds hn
  have hn' := hreshaped.nodup hn
  have hcolor := setColor_spec hreshaped.holds hn' c
  have hn'' := hcolor.nodup hn'
  have hred := Reshaped.inLeft hcolor.holds hn''
    (setRed_spec hcolor.holds.2.1 (nodup_node.1 hn'').1) rfl
  exact ⟨m', hrotate, h.reshape ((hreshaped.trans hcolor).trans hred)⟩

end Rounds

/-! ## The way up -/

/-- A red root with a red left child, and nothing else out of order. -/
def RedRed (t : ColorTree NodePtr) (n : ℕ) : Prop :=
  ∃ l a r, t = node true l a r ∧ l.isRed = true ∧ r.isRed = false ∧ LeftLeaning l n ∧
  LeftLeaning r n

/-- The tree below an entry on the way up. -/
def Rising (t : ColorTree NodePtr) (n : ℕ) (fs : List (Frame NodePtr)) : Prop :=
  LeftLeaning t n ∨ (RedRed t n ∧ mayBeRed fs = true)

section Unwind

variable {m : Memory} {t s : ColorTree NodePtr} {a cur : NodePtr} {c : ℤ} {n : ℕ} {red : Bool}
  {child : Option NodePtr} {fs : List (Frame NodePtr)} {rest : List ObRbPath}

lemma RedRed.isRed (h : RedRed t n) : t.isRed = true := by
  obtain ⟨l, a, r, rfl, -⟩ := h
  rfl

/-- A node with the tree on the left: the pair of red links moves up, or is gone. -/
lemma rising_node (ht : LeftLeaning t n) (htred : t.isRed = true) (hs : LeftLeaning s n)
    (hsblack : s.isRed = false) (hred : red = true → mayBeRed fs = true) :
    Rising (node red t cur s) (if red then n else n + 1) fs := by
  cases red with
  | true => exact .inr ⟨⟨t, cur, s, rfl, htred, hsblack, ht, hs⟩, hred rfl⟩
  | false => exact .inl (leftLeaning_black.2 ⟨hsblack, ht, hs⟩)

/-- What a round does with the tree below the entry. -/
structure Round (m : Memory) (a : NodePtr) (path rest : List ObRbPath) (child : Option NodePtr)
    (fs : List (Frame NodePtr)) (whole : ColorTree NodePtr) (n : ℕ) (b : NodePtr) (m' : Memory)
    (t' : ColorTree NodePtr) : Prop where
  run : insertUnwind a path m = insertUnwind b rest m'
  root : t'.root = some b
  isOpen : Open m'.links t' child fs
  toList : t'.toList = whole.toList
  rising : Rising t' n fs

lemma insertUnwind_left (hc : c < 0)
    (h : Open (m.setLeft cur (some a)).links (node red t cur s) child fs) (hroot : t.root = some a)
    (htred : t.isRed = true) (ht : LeftLeaning t n ∨ (RedRed t n ∧ red = false))
    (hs : LeftLeaning s n) (hsblack : s.isRed = false) (hred : red = true → mayBeRed fs = true) :
    ∃ b m' t', Round m a (⟨cur, c⟩ :: rest) rest child fs (node red t cur s)
      (if red then n else n + 1) b m' t' := by
  have hcolor : (m.setLeft cur (some a)).getRed a = true := by
    cases t with
    | nil => simp at hroot
    | node ct l a' r =>
      obtain rfl : a' = a := Option.some.inj hroot
      rw [Memory.getRed_eq, h.holds.2.1.red]
      exact htred
  rcases ht with ht | ⟨⟨l, a', r, rfl, hlred, hrblack, hl, hr⟩, rfl⟩
  · obtain ⟨l, a', r, rfl, hrblack, hlblack, -, -⟩ := ht.red_cases htred
    obtain rfl : a' = a := Option.some.inj hroot
    refine ⟨cur, m.setLeft cur (some a'), _, ?_, rfl, h, rfl, rising_node ht htred hs hsblack hred⟩
    rw [insertUnwind, if_pos hc]
    simp only [hcolor, if_true]
    rw [Memory.getLeft_eq, h.holds.2.1.left, ifRed_black h.holds.2.1.2.1 hlblack]
  · obtain rfl : a' = a := Option.some.inj hroot
    obtain ⟨x, d, y, rfl, hyblack, hxblack, hx, hy⟩ := hl.red_cases hlred
    obtain ⟨m', hrotate, hopen⟩ := fixUp_spec h
    refine ⟨a', m', _, ?_, rfl, hopen, by simp, .inl ?_⟩
    · rw [insertUnwind, if_pos hc]
      simp only [hcolor]
      rw [Memory.getLeft_eq, h.holds.2.1.left, ifRed_red h.holds.2.1.2.1 hlred]
      simp only [root_node]
      rw [hrotate]
      rfl
    · simp [hx, hy, hr, hs, hyblack, hsblack]

lemma insertUnwind_right (hc : ¬ c < 0)
    (h : Open (m.setRight cur (some a)).links (node red s cur t) child fs) (hroot : t.root = some a)
    (htred : t.isRed = true) (ht : LeftLeaning t n) (hs : LeftLeaning s n)
    (hsblack : red = true → s.isRed = false) (hred : red = true → mayBeRed fs = true) :
    ∃ b m' t', Round m a (⟨cur, c⟩ :: rest) rest child fs (node red s cur t)
      (if red then n else n + 1) b m' t' := by
  obtain ⟨x, a', r, rfl, hrblack, hxblack, hx, hr⟩ := ht.red_cases htred
  obtain rfl : a' = a := Option.some.inj hroot
  have hcolor : (m.setRight cur (some a')).getRed a' = true := by
    rw [Memory.getRed_eq, h.holds.2.2.red]
  have hcur : (m.setRight cur (some a')).getRed cur = red := by rw [Memory.getRed_eq, h.holds.red]
  by_cases hsred : s.isRed = true
  · -- a node with two red children is black
    obtain rfl : red = false := by
      cases red with
      | false => rfl
      | true => simp [hsblack rfl] at hsred
    obtain ⟨y, d, z, rfl, hzblack, hyblack, hy, hz⟩ := hs.red_cases hsred
    refine ⟨cur, _, _, ?_, rfl, split_spec h, by simp, .inl ?_⟩
    · rw [insertUnwind, if_neg hc]
      simp only [hcolor]
      rw [Memory.getLeft_eq, h.holds.left, ifRed_red h.holds.2.1 hsred]
      rfl
    · simp [hx, hy, hz, hr, hrblack, hzblack]
  · rw [Bool.not_eq_true] at hsred
    obtain ⟨m', hrotate, hopen⟩ := leanLeft_spec h
    refine ⟨a', _, _, ?_, rfl, hopen, by simp, rising_node ?_ rfl hr hrblack hred⟩
    · rw [insertUnwind, if_neg hc]
      simp only [hcolor, if_true]
      rw [Memory.getLeft_eq, h.holds.left, ifRed_black h.holds.2.1 hsred]
      simp only [hcur]
      rw [hrotate]
      rfl
    · simp [hs, hx, hsred, hxblack]

/-- The way up ends at a tree with a black root. -/
lemma insertUnwind_stop (rest : List ObRbPath) {p : ObRbPath} {f : Frame NodePtr} (hp : p.Matches f)
    (h : Open m.links t child (f :: fs)) (hroot : t.root = some a) (hblack : t.isRed = false) :
    ∃ m', insertUnwind a (p :: rest) m = .ok (m', pathStart p.node rest)
      ∧ m'.links = f.relink m.links t.root := by
  have hcolor : ∀ m' : Memory, Holds m'.links t → m'.getRed a = false := by
    intro m' hm'
    cases t with
    | nil => simp at hroot
    | node ct l a' r =>
      obtain rfl : a' = a := Option.some.inj hroot
      rw [Memory.getRed_eq, hm'.red]
      exact hblack
  have hlinks := links_relink (m := m) hp t.root
  have ht := (holds_frame_fill.1 h.link.holds).2.2
  rw [← hlinks] at ht
  simp only [insertUnwind]
  split_ifs at hlinks ht ⊢ with hc h1 h2
  all_goals rw [hroot] at ht hlinks
  · exact absurd h1 (by rw [hcolor _ ht]; simp)
  · exact ⟨_, rfl, hroot ▸ hlinks⟩
  · exact absurd h2 (by rw [hcolor _ ht]; simp)
  · exact ⟨_, rfl, hroot ▸ hlinks⟩

/-- **The way up** ends with a left-leaning tree of the same nodes. -/
theorem insertUnwind_spec {path : List ObRbPath} (hpath : Follows path fs)
    (h : Open m.links t child fs) (hroot : t.root = some a) (hrise : Rising t n fs)
    (hfits : Fits fs n) :
    ∃ m' t' b, insertUnwind a path m = .ok (m', b) ∧ t'.root = some b ∧ Holds m'.links t'
      ∧ t'.toList = (fill t fs).toList ∧ ∃ k, LeftLeaning t' k := by
  induction hpath generalizing m t child a n with
  | nil =>
    refine ⟨m, t, a, rfl, hroot, h.holds, rfl, ?_⟩
    rcases hrise with ht | ⟨-, hred⟩
    · exact ⟨n, ht⟩
    · simp [mayBeRed] at hred
  | @cons p f path fs hp hpath ih =>
    by_cases hblack : t.isRed = false
    · obtain ⟨m', hrun, hlinks⟩ := insertUnwind_stop path hp h hroot hblack
      have hopen := h.link
      have hll : LeftLeaning t n := by
        rcases hrise with ht | ⟨hredred, -⟩
        · exact ht
        · simp [hredred.isRed] at hblack
      obtain ⟨-, hk⟩ := balanced_fill.2 ⟨n, hll, hfits, by simp [hblack]⟩
      refine ⟨m', fill t (f :: fs), _, hrun, ?_, ?_, rfl, hk⟩
      · rw [root_fill, top, hp.node, some_pathStart hpath]
      · rw [hlinks, fill, holds_fill, Frame.root_fill]
        exact ⟨hopen.holds, hopen.path⟩
    · rw [Bool.not_eq_false] at hblack
      obtain ⟨hs, hsblack, hred, hfits'⟩ := hfits
      have hround : ∃ b m' t',
        Round m a (p :: path) path (some f.a) fs (f.fill t) (f.height n) b m' t' := by
        have hopen := h.link
        rw [← links_relink (m := m) hp t.root] at hopen
        obtain ⟨cur, c⟩ := p
        obtain rfl : cur = f.a := hp.node
        rw [hroot] at hopen
        by_cases hc : c < 0
        · have hl := hp.toLeft.1 hc
          rw [if_pos hc] at hopen
          simp only [Frame.fill, if_pos hl] at hopen ⊢
          refine insertUnwind_left hc hopen hroot hblack ?_ hs (hsblack (.inl hl)) hred
          refine hrise.imp id fun hrr => ⟨hrr.1, ?_⟩
          simpa [mayBeRed, hl] using hrr.2
        · have hl : ¬ f.toLeft = true := fun hl => hc (hp.toLeft.2 hl)
          rw [if_neg hc] at hopen
          simp only [Frame.fill, if_neg hl] at hopen ⊢
          refine insertUnwind_right hc hopen hroot hblack ?_ hs (fun h => hsblack (.inr h)) hred
          rcases hrise with ht | ⟨-, hmay⟩
          · exact ht
          · simp [mayBeRed, hl] at hmay
      obtain ⟨b, m1, t1, hround⟩ := hround
      obtain ⟨m', t', d, hrun, hroot', hholds, htoList, hk⟩ :=
        ih hround.isOpen hround.root hround.rising hfits'
      refine ⟨m', t', d, hround.run.trans hrun, hroot', hholds, ?_, hk⟩
      rw [htoList, toList_fill, hround.toList, ← toList_fill, fill]

end Unwind

/-! ## The function -/

lemma initNode_spec (m : Memory) (node : NodePtr) :
    ∃ m', m.initNode node = .ok m' ∧ m'.links node = ⟨none, none, true⟩
      ∧ ∀ b, b ≠ node → m'.links b = m.links b := by
  refine ⟨_, if_neg (fun h => h node.aligned), ?_, fun b hb => ?_⟩
  · rw [Memory.links_setRed, Memory.links_setRight, Memory.links_setLeft]
    simp [setColor, setRight, setLeft]
  · rw [Memory.links_setRed, Memory.links_setRight, Memory.links_setLeft]
    simp [setColor, setRight, setLeft, Function.update_of_ne hb]

/-- **`insert`** of a node whose key is not in the tree. -/
theorem insert_spec {cmp : NodePtr → NodePtr → ℤ} (hcmp : TotalPreorderCmp cmp) {t : ObRbTree}
    {tree : ColorTree NodePtr} {node : NodePtr} (hrep : t.Represents tree) (hbal : Balanced tree)
    (hsorted : Sorted cmp tree.toList) (hnew : ∀ b ∈ tree.toList, cmp node b ≠ 0)
    (hheight : tree.height < pathLength) :
    ∃ t' tree', insert cmp (some node) t = .ok (.success, t') ∧ t'.Represents tree'
      ∧ Balanced tree' ∧ Sorted cmp tree'.toList
      ∧ ∀ b, b ∈ tree'.toList ↔ b = node ∨ b ∈ tree.toList := by
  have hnot : node ∉ tree.toList := fun hmem => hnew node hmem (hcmp.refl node)
  obtain ⟨m, hinit, hnode, hsame⟩ := initNode_spec t.mem node
  have hholds : Holds m.links tree :=
    hrep.holds.congr fun b hb => hsame b (ne_of_mem_of_not_mem hb hnot)
  obtain ⟨path, gs, hwind, hpath, rfl, hbefore, hafter⟩ :=
    insertWind_spec hcmp hholds (List.Forall₂.nil) hsorted hnew hheight
  rw [List.append_nil] at hpath
  have hnodes := toList_fill nil gs
  have hnodes' := toList_fill (.node true nil node nil) gs
  simp only [toList_nil, toList_node, List.append_nil, List.nil_append] at hnodes hnodes'
  have hsorted' : Sorted cmp (fill (.node true nil node nil) gs).toList := by
    rw [hnodes, Sorted, List.pairwise_append] at hsorted
    rw [hnodes', Sorted, List.append_assoc, List.singleton_append, List.pairwise_append,
      List.pairwise_cons]
    exact ⟨hsorted.1, ⟨hafter, hsorted.2.1⟩, fun b hb =>
      List.forall_mem_cons.2 ⟨hbefore b hb, hsorted.2.2 b hb⟩⟩
  have hopen : Open m.links (.node true nil node nil) none gs :=
    ⟨⟨hnode, trivial, trivial⟩, (holds_fill.1 hholds).2, hnodes' ▸ hsorted'.nodup hcmp⟩
  obtain ⟨n, hn, hfits, -⟩ := balanced_fill.1 hbal
  obtain rfl : n = 0 := leftLeaning_nil.1 hn
  obtain ⟨m', t', b, hrun, hroot, hholds', htoList, k, hk⟩ :=
    insertUnwind_spec hpath hopen rfl (.inl (by simp)) hfits
  cases t' with
  | nil => simp at hroot
  | node c l b' r =>
    obtain rfl : b' = b := Option.some.inj hroot
    have hn : (ColorTree.node c l b' r).toList.Nodup := htoList ▸ hsorted'.nodup hcmp
    have hblack := setBlack_spec hholds' hn
    have htoList' : (ColorTree.node false l b' r).toList = before gs ++ [node] ++ after gs :=
      htoList.trans hnodes'
    refine ⟨⟨some b', m'.setBlack b'⟩, .node false l b' r, ?_, ⟨rfl, hblack.holds, hn⟩, hk.blacken,
      ?_, fun d => ?_⟩
    · simp only [insert]
      rw [hinit, Exec.bind_of_ok (a := m) rfl, hrep.root, hwind,
        Exec.bind_of_ok (a := path) rfl, hrun]
      rfl
    · rw [htoList', ← hnodes']
      exact hsorted'
    · rw [htoList', hnodes]
      simp only [List.mem_append, List.mem_singleton]
      tauto

end OceanBase.Container.RbTree
