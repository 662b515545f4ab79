import DailyReadCoding.OceanBase.Container.RbTreeLinks

/-!
# `ObRbTree::remove`

A node without children is pruned at the end of the path; a node with a right child first changes
places with its successor. If the pruned node is black, the tree that is left is one black node too
low. A round of the way up restores the balance there, or makes the tree around it as low and goes
on.
-/

namespace OceanBase.Container.RbTree

open LinkedTree ColorTree Memory Exec

/-! ## Rotations -/

section Rotations

variable {m : Memory} {c c₁ c₂ : Bool} {d l r x y z : ColorTree NodePtr} {p a b e : NodePtr}
  {child : Option NodePtr} {fs : List (Frame NodePtr)}

lemma rotateRightLeft_spec (h : Open m.links (node c d p (node c₁ (node c₂ x e y) b z)) child fs) :
    ∃ m', rotateRightLeft m p b = .ok (m', e)
      ∧ Open m'.links (node c₂ (node c d p x) e (node c₁ y b z)) child fs := by
  have hn := h.nodup_tree
  obtain ⟨m1, hright, hreshaped⟩ := rotateRight_spec h.holds.2.2 (nodup_node.1 hn).2.1
  have hlink := Reshaped.setRight h.holds hn hreshaped
  rw [root_node, ← links_setRight] at hlink
  obtain ⟨m', hleft, hreshaped'⟩ := rotateLeft_spec hlink.holds (hlink.nodup hn)
  refine ⟨m', ?_, h.reshape (hlink.trans hreshaped')⟩
  rw [rotateRightLeft, bind_of_ok hright]
  exact hleft

lemma rotateLeft_open (h : Open m.links (node c l a (node c₁ x b r)) child fs) :
    ∃ m', m.rotateLeft a = .ok (m', b) ∧ Open m'.links (node c₁ (node c l a x) b r) child fs := by
  obtain ⟨m', hrun, hreshaped⟩ := rotateLeft_spec h.holds h.nodup_tree
  exact ⟨m', hrun, h.reshape hreshaped⟩

lemma rotateRight_open (h : Open m.links (node c (node c₁ l b x) a r) child fs) :
    ∃ m', m.rotateRight a = .ok (m', b) ∧ Open m'.links (node c₁ l b (node c x a r)) child fs := by
  obtain ⟨m', hrun, hreshaped⟩ := rotateRight_spec h.holds h.nodup_tree
  exact ⟨m', hrun, h.reshape hreshaped⟩

end Rotations

/-! ## One round -/

/-- A round ends with a balanced tree, or goes on with one that is one black node too low. -/
def Unwound.Restores (fs : List (Frame NodePtr)) (whole : ColorTree NodePtr) : Unwound → Prop
  | .finished t => ∃ tree, t.Represents tree ∧ Balanced tree ∧ tree.toList = (fill whole fs).toList
  | .goOn b m => ∃ d child n, d.root = some b ∧ Open m.links d child fs ∧ LeftLeaning d n
      ∧ d.isRed = false ∧ Fits fs (n + 1) ∧ d.toList = whole.toList

section Rounds

variable {m : Memory} {t : ObRbTree} {tree whole d s : ColorTree NodePtr} {c : Bool}
  {p e : NodePtr} {n k : ℕ}
  {child : Option NodePtr} {fs : List (Frame NodePtr)} {rest : List ObRbPath}
  (hpath : Follows rest fs)
  (hroot : fs ≠ [] → t.root = top none fs)

include hpath hroot

section Finish

variable (h : Open m.links tree child fs) (he : tree.root = some e) (hll : LeftLeaning tree k)
  (hfits : Fits fs k) (htoList : tree.toList = whole.toList)

include h he hll hfits htoList

lemma finishAt_spec (hred : tree.isRed = true → mayBeRed fs = true) :
    (finishAt rest t (m, e)).Restores fs whole := by
  refine ⟨fill tree fs, ?_, balanced_fill.2 ⟨k, hll, hfits, hred⟩, ?_⟩
  · have hrep := relink_spec (t := { t with mem := m }) hpath h hroot
    rwa [he] at hrep
  · rw [toList_fill, toList_fill, htoList]

/-- The same where the root of the subtree may be red, so that it is not the root. -/
lemma finishBelow_spec (hmay : mayBeRed fs = true) :
    ∃ r, finishBelow rest t (m, e) = .ok r ∧ r.Restores fs whole := by
  refine ⟨_, ?_, finishAt_spec hpath hroot h he hll hfits htoList fun _ => hmay⟩
  have hrest : rest ≠ [] := by
    rintro rfl
    obtain rfl : fs = [] := List.forall₂_nil_left_iff.1 hpath
    simp [mayBeRed] at hmay
  rw [finishBelow, if_neg hrest]
  rfl

end Finish

variable (hd : LeftLeaning d n) (hdblack : d.isRed = false)

include hd hdblack

/-- The four cases at an entry that was left to the left: the node and the left child of its black
right child are red or not. -/
lemma restoreLeft_spec {sl sr : ColorTree NodePtr} {b : NodePtr}
    (h : Open m.links (node c d p (node false sl b sr)) child fs) (hsl : LeftLeaning sl n)
    (hsr : LeftLeaning sr n) (hsrblack : sr.isRed = false) (hred : c = true → mayBeRed fs = true)
    (hfits : Fits fs (if c then n + 1 else n + 2)) :
    ∃ r, restoreLeft m p b rest t = .ok r ∧ r.Restores fs (node c d p (node false sl b sr)) := by
  have hn := h.nodup_tree
  simp only [restoreLeft, getRed_eq, getLeft_eq, h.holds.red, h.holds.2.2.left]
  cases hslred : sl.isRed with
  | true =>
    obtain ⟨x, e, y, rfl, hyblack, hxblack, hx, hy⟩ := hsl.red_cases hslred
    rw [ifRed_red h.holds.2.2.2.1 hslred, root_node]
    cases c with
    | true =>
      obtain ⟨m', hrotate, hopen⟩ := rotateRightLeft_spec (h.reshape (setBlack_spec h.holds hn))
      have hll : LeftLeaning (node true (node false d p x) e (node false y b sr)) (n + 1) := by
        simp [hd, hx, hy, hsr, hxblack, hsrblack]
      rw [bind_of_ok hrotate]
      exact finishBelow_spec hpath hroot hopen rfl hll hfits (by simp) (hred rfl)
    | false =>
      have hblack := Reshaped.inRight h.holds hn (.inLeft h.holds.2.2 (nodup_node.1 hn).2.1
        (setBlack_spec h.holds.2.2.2.1 (nodup_node.1 (nodup_node.1 hn).2.1).1) rfl) rfl
      obtain ⟨m', hrotate, hopen⟩ := rotateRightLeft_spec (h.reshape hblack)
      have hll : LeftLeaning (node false (node false d p x) e (node false y b sr)) (n + 2) := by
        simp [hd, hx, hy, hsr, hxblack, hsrblack]
      dsimp only
      rw [bind_of_ok hrotate]
      exact ⟨_, rfl, finishAt_spec hpath hroot hopen rfl hll hfits (by simp) (by simp)⟩
  | false =>
    rw [ifRed_black h.holds.2.2.2.1 hslred]
    cases c with
    | true =>
      obtain ⟨m', hrotate, hopen⟩ := rotateLeft_open h
      have hll : LeftLeaning (node false (node true d p sl) b sr) (n + 1) := by
        simp [hd, hsl, hsr, hdblack, hslred, hsrblack]
      rw [bind_of_ok hrotate]
      exact finishBelow_spec hpath hroot hopen rfl hll hfits (by simp) (hred rfl)
    | false =>
      obtain ⟨m', hrotate, hopen⟩ := rotateLeft_open (h.reshape (setRed_spec h.holds hn))
      have hll : LeftLeaning (node false (node true d p sl) b sr) (n + 1) := by
        simp [hd, hsl, hsr, hdblack, hslred, hsrblack]
      rw [bind_of_ok hrotate]
      exact ⟨_, rfl, _, child, n + 1, rfl, hopen, hll, rfl, hfits, by simp⟩

/-- The two cases at an entry that was left to the right, with a red left child. -/
lemma restoreRightRed_spec {l y : ColorTree NodePtr} {a : NodePtr}
    (h : Open m.links (node false (node true l a y) p d) child fs) (hl : LeftLeaning l (n + 1))
    (hlblack : l.isRed = false) (hy : LeftLeaning y (n + 1)) (hyblack : y.isRed = false)
    (hfits : Fits fs (n + 2)) :
    ∃ r, restoreRightRed m p a rest t = .ok r ∧
    r.Restores fs (node false (node true l a y) p d) := by
  obtain ⟨yl, b, yr, rfl, hyrblack, hyl, hyr⟩ := hy.black_cases hyblack
  have hn := h.nodup_tree
  have hna := (nodup_node.1 hn).1
  have hnb := (nodup_node.1 hna).2.1
  simp only [restoreRightRed, getRight_eq, h.holds.2.1.right, root_node, deref]
  rw [bind_of_ok (a := b) rfl, getLeft_eq, h.holds.2.1.2.2.left]
  cases hylred : yl.isRed with
  | true =>
    obtain ⟨x, e, z, rfl, hzblack, hxblack, hx, hz⟩ := hyl.red_cases hylred
    rw [ifRed_red h.holds.2.1.2.2.2.1 hylred, root_node]
    -- the red node turns black, and its parent comes up over `p` and then over `a`
    have hblack := Reshaped.inLeft h.holds hn (.inRight h.holds.2.1 hna
      (.inLeft h.holds.2.1.2.2 hnb
        (setBlack_spec h.holds.2.1.2.2.2.1 (nodup_node.1 hnb).1) rfl) rfl) rfl
    obtain ⟨m1, hrotate1, hopen1⟩ := rotateRight_open (h.reshape hblack)
    have hn1 := hopen1.nodup_tree
    obtain ⟨m2, hrotate2, hreshaped⟩ := rotateRight_spec hopen1.holds.2.2 (nodup_node.1 hn1).2.1
    have hlink := Reshaped.setRight hopen1.holds hn1 hreshaped
    rw [root_node, ← links_setRight] at hlink
    obtain ⟨m3, hrotate3, hopen3⟩ := rotateLeft_open (hopen1.reshape hlink)
    have hll : LeftLeaning (node false (node true l a (node false x e z)) b (node false yr p d))
        (n + 2) := by
      simp [hl, hx, hz, hyr, hd, hlblack, hzblack, hdblack]
    dsimp only
    rw [bind_of_ok hrotate1]
    rw [bind_of_ok hrotate2]
    rw [bind_of_ok hrotate3]
    exact ⟨_, rfl, finishAt_spec hpath hroot hopen3 rfl hll hfits (by simp) (by simp)⟩
  | false =>
    rw [ifRed_black h.holds.2.1.2.2.2.1 hylred]
    have hred := Reshaped.inLeft h.holds hn (.inRight h.holds.2.1 hna
      (setRed_spec h.holds.2.1.2.2 hnb) rfl) rfl
    obtain ⟨m1, hrotate, hopen1⟩ := rotateRight_open (h.reshape hred)
    have hopen2 := hopen1.reshape (setBlack_spec hopen1.holds hopen1.nodup_tree)
    have hll : LeftLeaning (node false l a (node false (node true yl b yr) p d)) (n + 2) := by
      simp [hl, hyl, hyr, hd, hylred, hyrblack, hdblack]
    rw [bind_of_ok hrotate]
    exact ⟨_, rfl, finishAt_spec hpath hroot hopen2 rfl hll hfits (by simp) (by simp)⟩

/-- The four cases where the left child is black. -/
lemma restoreRightBlack_spec {l y : ColorTree NodePtr} {a : NodePtr}
    (h : Open m.links (node c (node false l a y) p d) child fs) (hchild : child = some p)
    (hl : LeftLeaning l n) (hy : LeftLeaning y n) (hyblack : y.isRed = false)
    (hred : c = true → mayBeRed fs = true) (hfits : Fits fs (if c then n + 1 else n + 2)) :
    ∃ r, restoreRightBlack m p a rest t = .ok r
      ∧ r.Restores fs (node c (node false l a y) p d) := by
  have hn := h.nodup_tree
  have hna := (nodup_node.1 hn).1
  simp only [restoreRightBlack, getRed_eq, getLeft_eq, h.holds.red, h.holds.2.1.left]
  cases hlred : l.isRed with
  | true =>
    obtain ⟨x, e, z, rfl, hzblack, hxblack, hx, hz⟩ := hl.red_cases hlred
    rw [ifRed_red h.holds.2.1.2.1 hlred, root_node]
    have hne := (nodup_node.1 hna).1
    cases c with
    | true =>
      have hp := setBlack_spec h.holds hn
      have hpa := Reshaped.inLeft hp.holds (hp.nodup hn)
        (setRed_spec hp.holds.2.1 hna) rfl
      have hpae := Reshaped.inLeft hpa.holds (hpa.nodup (hp.nodup hn))
        (.inLeft hpa.holds.2.1 hna (setBlack_spec hpa.holds.2.1.2.1 hne) rfl) rfl
      obtain ⟨m1, hrotate, hopen⟩ := rotateRight_open (h.reshape ((hp.trans hpa).trans hpae))
      have hll : LeftLeaning (node true (node false x e z) a (node false y p d)) (n + 1) := by
        simp [hx, hz, hy, hd, hzblack, hdblack]
      dsimp only
      rw [bind_of_ok hrotate]
      exact finishBelow_spec hpath hroot hopen rfl hll hfits (by simp) (hred rfl)
    | false =>
      have hblack := Reshaped.inLeft h.holds hn (.inLeft h.holds.2.1 hna
        (setBlack_spec h.holds.2.1.2.1 hne) rfl) rfl
      obtain ⟨m1, hrotate, hopen⟩ := rotateRight_open (h.reshape hblack)
      have hll : LeftLeaning (node false (node false x e z) a (node false y p d)) (n + 2) := by
        simp [hx, hz, hy, hd, hzblack, hdblack]
      dsimp only
      rw [bind_of_ok hrotate]
      exact ⟨_, rfl, finishAt_spec hpath hroot hopen rfl hll hfits (by simp) (by simp)⟩
  | false =>
    rw [ifRed_black h.holds.2.1.2.1 hlred]
    have ha := Reshaped.inLeft h.holds hn (setRed_spec h.holds.2.1 hna) rfl
    cases c with
    | true =>
      have hp := setBlack_spec ha.holds (ha.nodup hn)
      have hopen := h.reshape (ha.trans hp)
      have hll : LeftLeaning (node false (node true l a y) p d) (n + 1) := by
        simp [hl, hy, hd, hlred, hyblack, hdblack]
      -- the root of the subtree is the same node, so that no link is set
      refine ⟨_, rfl, fill (node false (node true l a y) p d) fs, ⟨?_, ?_, ?_⟩,
        balanced_fill.2 ⟨n + 1, hll, hfits, by simp⟩, by simp [toList_fill]⟩
      · have hfs : fs ≠ [] := by
          rintro rfl
          simp [mayBeRed] at hred
        rw [root_fill, top_eq hfs _ none]
        exact hroot hfs
      · subst hchild
        exact hopen.close
      · rw [toList_fill]
        exact hopen.nodup
    | false =>
      have hll : LeftLeaning (node false (node true l a y) p d) (n + 1) := by
        simp [hl, hy, hd, hlred, hyblack, hdblack]
      exact ⟨_, rfl, _, child, n + 1, rfl, h.reshape ha, hll, rfl, hfits, by simp⟩

end Rounds

/-! ## The way up -/

section Unwind

variable {t : ObRbTree} {d : ColorTree NodePtr} {n : ℕ} {child : Option NodePtr} {p : ObRbPath}
  {f : Frame NodePtr} {fs : List (Frame NodePtr)} {path rest : List ObRbPath}

/-- **One round of the way up.** -/
lemma round_spec (hp : p.Matches f) (hpath : Follows rest fs)
    (h : Open t.mem.links d child (f :: fs)) (hd : LeftLeaning d n) (hdblack : d.isRed = false)
    (hfits : Fits (f :: fs) (n + 1)) (hroot : fs ≠ [] → t.root = top none fs) :
    ∃ r, unwindRound d.root p rest t = .ok r ∧ r.Restores fs (f.fill d) := by
  obtain ⟨hs, hsblack, hred, hfits'⟩ := hfits
  have hopen := h.link
  rw [← links_relink (m := t.mem) hp d.root, hp.node] at hopen
  rw [unwindRound, if_neg hp.nonzero, hp.node]
  by_cases hc : p.cmp < 0
  · have hl := hp.toLeft.1 hc
    have hsblack' := hsblack (.inl hl)
    rw [if_pos hc] at hopen ⊢
    simp only [Frame.fill, if_pos hl] at hopen ⊢
    obtain ⟨sl, b, sr, hsib, hsrblack, hsl, hsr⟩ := hs.black_cases hsblack'
    rw [hsib] at hopen ⊢
    rw [unwindLeft, getRight_eq, hopen.holds.right]
    exact restoreLeft_spec hpath hroot hd hdblack hopen hsl hsr hsrblack hred hfits'
  · have hl : ¬ f.toLeft = true := fun hl => hc (hp.toLeft.2 hl)
    rw [if_neg hc] at hopen ⊢
    simp only [Frame.fill, if_neg hl] at hopen ⊢
    by_cases hsred : f.sibling.isRed = true
    · obtain ⟨l, a, y, hsib, hyblack, hlblack, hl', hy⟩ := hs.red_cases hsred
      have hblack : f.red = false := by
        rw [← Bool.not_eq_true]
        exact fun hfred => absurd (hsblack (.inr hfred)) (by simp [hsred])
      rw [hsib, hblack] at hopen ⊢
      rw [Frame.height, hblack] at hfits'
      rw [unwindRight, getLeft_eq, hopen.holds.left, root_node, deref,
        bind_of_ok (a := a) rfl, if_pos (by rw [getRed_eq, hopen.holds.2.1.red])]
      exact restoreRightRed_spec hpath hroot hd hdblack hopen hl' hlblack hy hyblack hfits'
    · rw [Bool.not_eq_true] at hsred
      obtain ⟨l, a, y, hsib, hyblack, hl', hy⟩ := hs.black_cases hsred
      rw [hsib] at hopen ⊢
      rw [unwindRight, getLeft_eq, hopen.holds.left, root_node, deref,
        bind_of_ok (a := a) rfl, if_neg (by rw [getRed_eq, hopen.holds.2.1.red]; simp)]
      exact restoreRightBlack_spec hpath hroot hd hdblack hopen rfl hl' hy hyblack hred hfits'

/-- **The way up** restores the balance. -/
theorem removeUnwind_spec (hpath : Follows path fs) (h : Open t.mem.links d child fs)
    (hd : LeftLeaning d n) (hdblack : d.isRed = false) (hfits : Fits fs (n + 1))
    (hroot : fs ≠ [] → t.root = top none fs) (hsome : fs = [] → d ≠ nil) :
    ∃ t' tree, removeUnwind d.root path t = .ok t' ∧ t'.Represents tree ∧ Balanced tree
      ∧ tree.toList = (fill d fs).toList := by
  induction hpath generalizing t d child n with
  | nil =>
    cases d with
    | nil => exact absurd rfl (hsome rfl)
    | node c l a r =>
      obtain rfl : c = false := hdblack
      refine ⟨{ t with root := some a }, _, ?_, ⟨rfl, h.holds, h.nodup_tree⟩, ⟨rfl, n, hd⟩, rfl⟩
      have hcolor : ¬ t.mem.getRed a = true := by rw [getRed_eq, h.holds.red]; simp
      rw [removeUnwind, root_node, deref, bind_of_ok (a := a) rfl, if_neg hcolor]
      rfl
  | @cons p f path fs hp hpath ih =>
    have hroot' : fs ≠ [] → t.root = top none fs := by
      intro hfs
      rw [hroot (by simp), top, top_eq hfs]
    obtain ⟨r, hrun, hrestores⟩ := round_spec hp hpath h hd hdblack hfits hroot'
    rw [removeUnwind, bind_of_ok hrun]
    cases r with
    | finished t' =>
      obtain ⟨tree, hrep, hbal, htoList⟩ := hrestores
      exact ⟨t', tree, rfl, hrep, hbal, htoList⟩
    | goOn b m =>
      obtain ⟨d', child', k, hb, hopen, hd', hdblack', hfits', htoList⟩ := hrestores
      obtain ⟨t', tree, hrun', hrep, hbal, htree⟩ :=
        ih (t := { t with mem := m }) hopen hd' hdblack'
        hfits' hroot' (fun _ hnil => by simp [hnil] at hb)
      rw [hb] at hrun'
      refine ⟨t', tree, hrun', hrep, hbal, ?_⟩
      rw [htree, toList_fill, htoList, ← toList_fill, fill]

end Unwind

/-! ## The end of the path -/

section Prune

variable {t : ObRbTree} {l : ColorTree NodePtr} {x : NodePtr} {c : Bool} {n : ℕ}
  {child : Option NodePtr}
  {fs : List (Frame NodePtr)} {path : List ObRbPath}

/-- A node without children is pruned, which is not the only node. -/
lemma prune_spec (hcolor : t.mem.getRed x = c) (hpath : Follows path fs) (hfs : fs ≠ [])
    (h : Open t.mem.links nil child fs) (hred : c = true → mayBeRed fs = true)
    (hfits : Fits fs (if c then 0 else 1)) (hroot : fs ≠ [] → t.root = top none fs) :
    ∃ t' tree, prune x path t = .ok t' ∧ t'.Represents tree ∧ Balanced tree
      ∧ tree.toList = before fs ++ after fs := by
  have htoList : (fill nil fs).toList = before fs ++ after fs := by simp [toList_fill]
  unfold prune
  rw [hcolor]
  cases c with
  | false =>
    obtain ⟨t', tree, hrun, hrep, hbal, htree⟩ :=
      removeUnwind_spec hpath h rfl rfl hfits hroot fun h' => absurd h' hfs
    exact ⟨t', tree, hrun, hrep, hbal, htree.trans htoList⟩
  | true =>
    have hrep := relink_spec hpath h hroot
    refine ⟨_, fill nil fs, ?_, hrep, balanced_fill.2 ⟨0, rfl, hfits, by simp⟩, htoList⟩
    -- a red node is a left child
    cases hpath with
    | nil => exact absurd rfl hfs
    | @cons p f path fs hp hpath =>
      have hmay := hred rfl
      simp only [mayBeRed, Bool.and_eq_true] at hmay
      have hc : p.cmp < 0 := hp.toLeft.2 hmay.1
      simp only [if_true, relink, root_nil]
      rw [if_pos hc, if_pos hc]

/-- **The node is at the end of the path**: it has no right child, and at most a red left one. -/
lemma removeLast_spec (hpath : Follows path fs) (h : Open t.mem.links (node c l x nil) child fs)
    (hll : LeftLeaning (node c l x nil) n) (hfits : Fits fs n)
    (hred : c = true → mayBeRed fs = true) (hroot : fs ≠ [] → t.root = top none fs) :
    ∃ t' tree, removeLast x path t = .ok t' ∧ t'.Represents tree ∧ Balanced tree
      ∧ tree.toList = before fs ++ l.toList ++ after fs := by
  have hcolor : t.mem.getRed x = c := by rw [getRed_eq, h.holds.red]
  obtain ⟨-, hlc, k, rfl, hl, hk⟩ := hll
  obtain rfl : k = 0 := leftLeaning_nil.1 hk
  unfold removeLast
  rw [getLeft_eq, h.holds.left]
  by_cases hlred : l.isRed = true
  · -- the left child takes its place
    obtain ⟨y, b, z, rfl, hzblack, hyblack, hy, hz⟩ := hl.red_cases hlred
    obtain rfl : c = false := by
      cases c with
      | false => rfl
      | true => simp [hlc rfl] at hlred
    obtain rfl := hy.eq_nil hyblack
    obtain rfl := hz.eq_nil hzblack
    have hopen := h.part h.holds.2.1 (by simp)
    have hblack := hopen.reshape (setBlack_spec hopen.holds hopen.nodup_tree)
    have hrep := relink_spec (t := { t with mem := t.mem.setBlack b }) hpath hblack hroot
    refine ⟨_, _, ?_, hrep, balanced_fill.2 ⟨1, by simp, hfits, by simp⟩, by simp [toList_fill]⟩
    have hb : ¬ ¬ t.mem.getRed b = true := by rw [getRed_eq, hopen.holds.red]; simp
    rw [root_node]
    dsimp only
    rw [if_neg (by simp [hcolor]), if_neg hb]
    rfl
  · rw [Bool.not_eq_true] at hlred
    obtain rfl := hl.eq_nil hlred
    rw [root_nil]
    cases hpath with
    | nil =>
      exact ⟨{ t with root := none }, nil, rfl, ⟨rfl, trivial, List.nodup_nil⟩, ⟨rfl, 0, rfl⟩,
        by simp [before, after]⟩
    | cons hp hpath =>
      obtain ⟨t', tree, hrun, hrep, hbal, htree⟩ := prune_spec hcolor (.cons hp hpath) (by simp)
        (h.part trivial (by simp)) hred hfits hroot
      exact ⟨t', tree, hrun, hrep, hbal, by simpa using htree⟩

end Prune

/-! ## Swapping with the successor -/

section Swap

variable {t : ObRbTree} {l : ColorTree NodePtr} {x s : NodePtr} {c cs : Bool}
  {fs gs : List (Frame NodePtr)}
  {above : List ObRbPath}

/-- The writes before the link to the successor is set. -/
lemma swap_links {m : Memory} {left right : Option NodePtr} (hxs : x ≠ s)
    (hx : m.links x = ⟨left, right, c⟩) (hs : m.links s = ⟨none, none, cs⟩) :
    ∃ m', (∀ above, swapSuccessor x s above { t with mem := m } = relink above (some s)
    { t with mem := m' })
      ∧ m'.links s = ⟨left, right, c⟩ ∧ m'.links x = ⟨left, right, cs⟩
      ∧ ∀ b, b ≠ s → b ≠ x → m'.links b = m.links b := by
  refine ⟨_, fun above => rfl, ?_, ?_, fun b hbs hbx => ?_⟩
  all_goals
    simp only [links_setColor, links_setRight, links_setLeft, getRed_eq,
      getLeft_eq, getRight_eq, LinkedTree.setColor, LinkedTree.setLeft,
      LinkedTree.setRight]
  · simp [hxs, hxs.symm, hx]
  · simp [hxs, hx, hs]
  · simp [hbs, hbx]

/-- **The node and its successor change places**, and the place at the end of the path is open. -/
lemma swapSuccessor_spec (habove : Follows above fs)
    (h : Open t.mem.links (node cs nil s nil) (some s) (gs ++ ⟨false, c, x, l⟩ :: fs))
    (hgs : before gs = []) (hroot : fs ≠ [] → t.root = top none fs) :
    Open (swapSuccessor x s above t).mem.links nil (some s) (gs ++ ⟨false, c, s, l⟩ :: fs)
      ∧ (swapSuccessor x s above t).mem.getRed x = cs
      ∧ (swapSuccessor x s above t).root = top none (gs ++ ⟨false, c, s, l⟩ :: fs) := by
  have hnodes : before (gs ++ ⟨false, c, x, l⟩ :: fs) ++ (node cs nil s nil).toList
      ++ after (gs ++ ⟨false, c, x, l⟩ :: fs)
      = (before fs ++ l.toList) ++ x :: s :: (after gs ++ after fs) := by
    simp [before_append, after_append, before, after, hgs]
  have hnodup := h.nodup
  rw [hnodes, List.nodup_middle, List.nodup_cons] at hnodup
  obtain ⟨hxnot, hnodup⟩ := hnodup
  have hrest := hnodup
  rw [List.nodup_middle, List.nodup_cons] at hrest
  obtain ⟨hsnot, hrest⟩ := hrest
  obtain ⟨hpathgs, hx, hl, hpathfs⟩ := holdsPath_append.1 h.path
  have hxs : x ≠ s := fun heq => hxnot (by simp [heq])
  obtain ⟨m, hswap, hs', hx', hsame⟩ := swap_links (t := t) hxs hx h.holds.1
  simp only [List.mem_append, List.mem_cons, not_or] at hxnot hsnot
  -- the path above is not touched until its link is set
  have hpathfs' : HoldsPath m.links (some x) fs := by
    refine hpathfs.congr fun b hb => hsame b ?_ ?_
    · rintro rfl
      tauto
    · rintro rfl
      tauto
  have hnfs : (before fs ++ after fs).Nodup :=
    hrest.sublist ((List.sublist_append_left _ _).append (List.sublist_append_right _ _))
  obtain ⟨hlinked, hsame', hroot'⟩ :=
    relink_path (t := { t with mem := m }) habove hpathfs' hnfs hroot (some s)
  rw [hswap above]
  have hlower : ∀ b, b ∈ l.toList ∨ b ∈ before gs ∨ b ∈ after gs →
      (relink above (some s) { t with mem := m }).mem.links b = t.mem.links b := by
    intro b hb
    rw [hgs] at hb
    have hbfs : b ∉ before fs ++ after fs := by
      intro hmem
      simp only [List.nodup_append', List.disjoint_left, List.mem_append] at hrest
      rcases List.mem_append.1 hmem with hmem | hmem <;> rcases hb with hb | hb | hb
      · exact hrest.1.2.2 hmem hb
      · cases hb
      · exact hrest.2.2 (.inl hmem) (.inl hb)
      · exact hrest.2.2 (.inr hb) (.inr hmem)
      · cases hb
      · exact hrest.2.1.2.2 hb hmem
    rw [hsame' b hbfs]
    refine hsame b ?_ ?_
    · rintro rfl
      tauto
    · rintro rfl
      tauto
  refine ⟨⟨trivial, holdsPath_append.2 ⟨hpathgs.congr fun b hb => hlower b (.inr hb), ?_, ?_,
    hlinked⟩, ?_⟩,
    ?_, ?_⟩
  · rw [hsame' s (by simp only [List.mem_append]; tauto)]
    exact hs'
  · exact hl.congr fun b hb => hlower b (.inl hb)
  · simpa [before_append, after_append, before, after, hgs] using hnodup
  · rw [getRed_eq, hsame' x (by simp only [List.mem_append]; tauto), hx']
  · rw [hroot', top_append]
    rfl

end Swap

/-! ## The way down -/

section Wind

variable {cmp : NodePtr → NodePtr → ℤ} {m : Memory} {sub : ColorTree NodePtr} {x : NodePtr}
  {fs : List (Frame NodePtr)} {path : List ObRbPath} {room : ℕ}

/-- The way to the first node of a subtree. -/
lemma successorWind_spec (hsub : Holds m.links sub) (hpath : Follows path fs)
    (hroom : sub.height < room) :
    ∃ path' gs, successorWind m room sub.root path = .ok path' ∧ Follows path' (gs ++ fs)
      ∧ fill nil gs = sub ∧ ∀ g ∈ gs, g.toLeft = true := by
  obtain _ | room := room
  · omega
  induction sub generalizing fs path room with
  | nil => exact ⟨path, [], rfl, hpath, rfl, by simp⟩
  | node c l a r ihl _ =>
    simp only [height] at hroom
    obtain _ | room := room
    · omega
    have hframe : ObRbPath.Matches ⟨a, -1⟩ ⟨true, c, a, r⟩ := ⟨rfl, by simp, by simp⟩
    obtain ⟨path', gs, hrun, hfollows, hfill, hleft⟩ :=
      ihl hsub.2.1 (.cons hframe hpath) room (by omega)
    refine ⟨path', gs ++ [⟨true, c, a, r⟩], ?_, by simpa using hfollows, ?_, ?_⟩
    · rw [root_node, successorWind, getLeft_eq, hsub.left]
      exact hrun
    · rw [fill_append, hfill]
      rfl
    · intro g hg
      rcases List.mem_append.1 hg with hg | hg
      · exact hleft g hg
      · rw [List.mem_singleton.1 hg]

/-- **The way down** finds the node, and goes on to its successor. -/
theorem removeWind_spec (hcmp : TotalPreorderCmp cmp) (hsub : Holds m.links sub)
    (hpath : Follows path fs) (hsorted : Sorted cmp sub.toList) (hx : x ∈ sub.toList)
    (hroom : sub.height < room) :
    ∃ below above c l r gs hs, removeWind cmp x m room sub.root path = .ok (below, x, above)
      ∧ Follows below gs ∧ Follows above (hs ++ fs) ∧ fill nil gs = r
      ∧ fill (node c l x r) hs = sub ∧ ∀ g ∈ gs, g.toLeft = true := by
  induction sub generalizing fs path room with
  | nil => simp at hx
  | node c l a r ihl ihr =>
    obtain ⟨hlsorted, hrsorted, hla, har, -⟩ := sorted_node.1 hsorted
    simp only [height] at hroom
    obtain _ | room := room
    · omega
    have hlroom : l.height < room := by omega
    have hrroom : r.height < room := by omega
    rw [root_node, removeWind]
    simp only [toList_node, List.mem_append, List.mem_cons] at hx
    rcases hx with hx | rfl | hx
    · have hlt := hla x hx
      have hframe : ObRbPath.Matches ⟨a, cmp x a⟩ ⟨true, c, a, r⟩ := ⟨rfl, by simp [hlt], hlt.ne⟩
      obtain ⟨below, above, c', l', r', gs, hs, hrun, hbelow, habove, hr', hfill, hleft⟩ :=
        ihl hsub.2.1 (.cons hframe hpath) hlsorted hx hlroom
      refine ⟨below, above, c', l', r', gs, hs ++ [⟨true, c, a, r⟩], ?_, hbelow,
        by simpa using habove, hr', ?_, hleft⟩
      · rw [if_pos hlt, getLeft_eq, hsub.left]
        exact hrun
      · rw [fill_append, hfill]
        rfl
    · obtain ⟨below, gs, hrun, hbelow, hfill, hleft⟩ :=
        successorWind_spec hsub.2.2 (List.Forall₂.nil) hrroom
      refine ⟨below, path, c, l, r, gs, [], ?_, by simpa using hbelow, hpath, hfill, rfl, hleft⟩
      have heq := hcmp.refl x
      rw [if_neg (by omega), if_pos heq, getRight_eq, hsub.right, bind_of_ok hrun]
      rfl
    · have hgt := (hcmp.swap a x).1 (har x hx)
      have hframe : ObRbPath.Matches ⟨a, cmp x a⟩ ⟨false, c, a, l⟩ :=
        ⟨rfl, by simp [hgt.le], hgt.ne'⟩
      obtain ⟨below, above, c', l', r', gs, hs, hrun, hbelow, habove, hr', hfill, hleft⟩ :=
        ihr hsub.2.2 (.cons hframe hpath) hrsorted hx hrroom
      refine ⟨below, above, c', l', r', gs, hs ++ [⟨false, c, a, l⟩], ?_, hbelow,
        by simpa using habove, hr', ?_, hleft⟩
      · rw [if_neg (by omega), if_neg (by omega), getRight_eq, hsub.right]
        exact hrun
      · rw [fill_append, hfill]
        rfl

end Wind

/-! ## The function -/

/-- **`remove`** of a node of the tree. -/
theorem remove_spec {cmp : NodePtr → NodePtr → ℤ} (hcmp : TotalPreorderCmp cmp) {t : ObRbTree}
    {tree : ColorTree NodePtr} {x : NodePtr} (hrep : t.Represents tree) (hbal : Balanced tree)
    (hsorted : Sorted cmp tree.toList) (hx : x ∈ tree.toList) (hheight : tree.height < pathLength) :
    ∃ t' tree', remove cmp (some x) t = .ok (.success, t') ∧ t'.Represents tree' ∧ Balanced tree'
      ∧ ∃ us vs, tree.toList = us ++ x :: vs ∧ tree'.toList = us ++ vs := by
  obtain ⟨below, above, c, l, r, gs, hs, hwind, hbelow, habove, rfl, rfl, hleft⟩ :=
    removeWind_spec hcmp hrep.holds (List.Forall₂.nil) hsorted hx hheight
  rw [List.append_nil] at habove
  have hroot : hs ≠ [] → t.root = top none hs := by
    intro hne
    rw [hrep.root, root_fill, top_eq hne]
  have hnodup := hrep.nodup
  have hstart := hrep.root
  cases hbelow with
  | nil =>
    obtain ⟨n, hll, hfits, hred⟩ := balanced_fill.1 hbal
    obtain ⟨hholds, hpath⟩ := holds_fill.1 hrep.holds
    rw [toList_fill] at hnodup
    obtain ⟨t', tree', hrun, hrep', hbal', htree'⟩ :=
      removeLast_spec habove ⟨hholds, hpath, hnodup⟩ hll hfits hred hroot
    refine ⟨t', tree', ?_, hrep', hbal', before hs ++ l.toList, after hs, ?_, htree'⟩
    · rw [remove, hstart, bind_of_ok hwind]
      simp only [ne_eq, not_true_eq_false, if_false]
      rw [hrun]
      rfl
    · simp [toList_fill, fill]
  | @cons p g below gs hp hbelow =>
    have hgleft : g.toLeft = true := hleft g (by simp)
    have hgs : before gs = [] := before_eq_nil fun f hf => hleft f (by simp [hf])
    have hshape : fill (node c l x (fill nil (g :: gs))) hs
        = fill (node g.red nil g.a g.sibling) (gs ++ ⟨false, c, x, l⟩ :: hs) := by
      rw [fill_append, fill, Frame.fill, if_pos hgleft]
      rfl
    rw [hshape] at hrep hbal hnodup ⊢
    obtain ⟨n, hll, hfits, hred⟩ := balanced_fill.1 hbal
    -- the successor has no children
    obtain ⟨hsibblack, -, k, rfl, hk, hsib⟩ := hll
    obtain rfl : k = 0 := leftLeaning_nil.1 hk
    rw [hsib.eq_nil hsibblack] at hrep hnodup ⊢
    obtain ⟨hholds, hpath⟩ := holds_fill.1 hrep.holds
    rw [toList_fill] at hnodup
    have hopen0 : Open t.mem.links (node g.red nil g.a nil) (some g.a)
      (gs ++ ⟨false, c, x, l⟩ :: hs) :=
      ⟨hholds, hpath, hnodup⟩
    obtain ⟨hopen, hcolor, hroot'⟩ := swapSuccessor_spec habove hopen0 hgs hroot
    rw [fits_rename gs hs false c x g.a l] at hfits
    rw [mayBeRed_rename gs hs false c x g.a l] at hred
    have hframe : ObRbPath.Matches ⟨g.a, 1⟩ ⟨false, c, g.a, l⟩ := ⟨rfl, by simp, by simp⟩
    obtain ⟨t', tree', hrun, hrep', hbal', htree'⟩ := prune_spec hcolor
      (List.rel_append hbelow (.cons hframe habove)) (by simp) hopen hred hfits fun _ => hroot'
    refine ⟨t', tree', ?_, hrep', hbal', before hs ++ l.toList,
      g.a :: (after gs ++ after hs), ?_, ?_⟩
    · have hne : g.a ≠ x := by
        intro heq
        exact hopen0.not_mem_path (by simp : g.a ∈ _) (by simp [heq, before_append, before])
      obtain ⟨last, k⟩ := p
      obtain rfl : last = g.a := hp.node
      rw [remove, hstart, bind_of_ok hwind]
      simp only [ne_eq, not_true_eq_false, if_false]
      rw [if_pos hne, hrun]
      rfl
    · simp [toList_fill, before_append, after_append, before, after, hgs]
    · simp [htree', before_append, after_append, before, after, hgs]

end OceanBase.Container.RbTree
