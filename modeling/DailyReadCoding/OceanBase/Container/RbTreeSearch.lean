import DailyReadCoding.OceanBase.Container.RbTreeLinks

/-!
# Searching in `ObRbTree`

Every search goes down one way from the root. What it returns is what a search through the list of
the nodes in their order returns, as long as the loop is given more rounds than the tree is high.
-/

namespace OceanBase.Container.RbTree

open LinkedTree ColorTree Memory Option

/-! ## The ends -/

section Ends

variable {m : Memory} {c : Bool} {l r : ColorTree NodePtr} {a : NodePtr} {fuel : ℕ}

/-- The first node of a subtree. -/
lemma firstFrom_spec (h : Holds m.links (node c l a r)) (hfuel : (node c l a r).height ≤ fuel) :
    ∃ b, firstFrom m fuel a = .ok b ∧ (node c l a r).toList.head? = some b := by
  induction l generalizing c a r fuel with
  | nil =>
    simp only [height] at hfuel
    obtain _ | fuel := fuel
    · omega
    refine ⟨a, ?_, rfl⟩
    rw [firstFrom, getLeft_eq, h.left]
    rfl
  | node c' l' b r' ih _ =>
    simp only [height] at hfuel
    obtain _ | fuel := fuel
    · omega
    have hbelow : (node c' l' b r').height ≤ fuel := by simp only [height]; omega
    obtain ⟨d, hrun, hhead⟩ := ih h.2.1 hbelow
    refine ⟨d, ?_, ?_⟩
    · rw [firstFrom, getLeft_eq, h.left]
      exact hrun
    · rw [toList_node, List.head?_append, hhead]
      rfl

end Ends

/-! ## Keys -/

section Keys

variable {cmp : NodePtr → NodePtr → ℤ} {m : Memory} {sub : ColorTree NodePtr} {key a p : NodePtr}
  {l r : List NodePtr} {returnNode : Option NodePtr} {fuel : ℕ}

lemma find?_none {P : NodePtr → Bool} (h : ∀ b ∈ l, P b = false) : l.find? P = none := by
  rw [List.find?_eq_none]
  intro b hb
  simp [h b hb]

lemma find?_at {P : NodePtr → Bool} (ha : P a = true) :
    (l ++ a :: r).find? P = (l.find? P).or (some a) := by
  rw [List.find?_append, List.find?_cons_of_pos ha]

lemma find?_behind {P : NodePtr → Bool} (hl : ∀ b ∈ l, P b = false) (ha : P a = false) :
    (l ++ a :: r).find? P = r.find? P := by
  rw [List.find?_append, find?_none hl, none_or, List.find?_cons_of_neg (by simp [ha])]

/-- A key that is not before `a` is behind everything before `a`. -/
lemma behind_left (hcmp : TotalPreorderCmp cmp) (hla : ∀ b ∈ l, cmp b a < 0) (h : 0 ≤ cmp key a) :
    ∀ b ∈ l, 0 < cmp key b := by
  intro b hb
  exact (hcmp.swap b key).1 (hcmp.lt_of_lt_of_le (hla b hb) ((hcmp.le_iff key a).2 h))

/-- A key that is not behind `a` is before everything behind `a`. -/
lemma before_right (hcmp : TotalPreorderCmp cmp) (har : ∀ b ∈ r, cmp a b < 0) (h : cmp key a ≤ 0) :
    ∀ b ∈ r, cmp key b < 0 := by
  intro b hb
  exact hcmp.lt_of_le_of_lt h (har b hb)

/-- The searches for a key. -/
lemma searchLoop_spec (hcmp : TotalPreorderCmp cmp) (h : Holds m.links sub)
    (hsorted : Sorted cmp sub.toList) (hfuel : sub.height < fuel) :
    searchLoop cmp key m fuel sub.root = .ok (sub.toList.find? (cmp key · = 0)) := by
  induction sub generalizing fuel with
  | nil =>
    obtain _ | fuel := fuel
    · omega
    rfl
  | node c l a r ihl ihr =>
    obtain ⟨hl, hr, hla, har, -⟩ := sorted_node.1 hsorted
    simp only [height] at hfuel
    obtain _ | fuel := fuel
    · omega
    rw [root_node, searchLoop, toList_node, getLeft_eq, getRight_eq, h.left, h.right]
    rcases lt_trichotomy (cmp key a) 0 with hlt | heq | hgt
    · have hright : ∀ b ∈ r.toList, decide (cmp key b = 0) = false := by
        intro b hb
        simpa using (before_right hcmp har hlt.le b hb).ne
      rw [if_neg hlt.ne, if_pos hlt, ihl h.2.1 hl (by omega), List.find?_append,
        List.find?_cons_of_neg (by simpa using hlt.ne), find?_none hright, or_none]
    · have hleft := behind_left hcmp hla heq.ge
      rw [if_pos heq, find?_at (by simpa using heq), find?_none _, none_or]
      intro b hb
      simpa using (hleft b hb).ne'
    · have hleft := behind_left hcmp hla hgt.le
      rw [if_neg hgt.ne', if_neg (by omega), ihr h.2.2 hr (by omega),
        find?_behind _ (by simpa using hgt.ne')]
      intro b hb
      simpa using (hleft b hb).ne'

/-- `nsearch`: the first node that is not before the key. -/
lemma nsearchLoop_spec (hcmp : TotalPreorderCmp cmp) (h : Holds m.links sub)
    (hsorted : Sorted cmp sub.toList) (hfuel : sub.height < fuel) :
    nsearchLoop cmp key m fuel sub.root returnNode =
      .ok ((sub.toList.find? (cmp key · ≤ 0)).or returnNode) := by
  induction sub generalizing fuel returnNode with
  | nil =>
    obtain _ | fuel := fuel
    · omega
    rfl
  | node c l a r ihl ihr =>
    obtain ⟨hl, hr, hla, har, -⟩ := sorted_node.1 hsorted
    simp only [height] at hfuel
    obtain _ | fuel := fuel
    · omega
    rw [root_node, nsearchLoop, toList_node, getLeft_eq, getRight_eq, h.left, h.right]
    rcases lt_trichotomy (cmp key a) 0 with hlt | heq | hgt
    · rw [if_pos hlt, ihl h.2.1 hl (by omega), find?_at (by simpa using hlt.le), Option.or_assoc,
        some_or]
    · have hleft := behind_left hcmp hla heq.ge
      rw [if_neg (by omega), if_neg (by omega), find?_at (by simpa using heq.le), find?_none _,
        none_or, some_or]
      intro b hb
      simpa using hleft b hb
    · have hleft := behind_left hcmp hla hgt.le
      rw [if_neg (by omega), if_pos hgt, ihr h.2.2 hr (by omega),
        find?_behind _ (by simpa using hgt)]
      intro b hb
      simpa using hleft b hb

end Keys

/-! ## Neighbours -/

section Neighbours

variable {cmp : NodePtr → NodePtr → ℤ} {m : Memory} {sub : ColorTree NodePtr} {node p : NodePtr}
  {returnNode : Option NodePtr} {fuel : ℕ}

lemma root_eq_none {t : ColorTree NodePtr} (h : t.root = none) : t = nil := by
  cases t with
  | nil => rfl
  | node c l a r => cases h

/-- The loop of `get_next` finds the first node behind `node`, which has nothing on its right. -/
lemma nextLoop_spec (hcmp : TotalPreorderCmp cmp) (h : Holds m.links sub)
    (hsorted : Sorted cmp sub.toList) (hp : sub.root = some p) (hfuel : sub.height ≤ fuel)
    (hright : ∀ b ∈ sub.toList, cmp node b = 0 → (m.links b).right = none) :
    nextLoop cmp node m fuel p returnNode =
      .ok ((sub.toList.find? (cmp node · < 0)).or returnNode) := by
  induction sub generalizing fuel returnNode p with
  | nil => cases hp
  | node c l a r ihl ihr =>
    obtain rfl : a = p := Option.some.inj hp
    obtain ⟨hl, hr, hla, har, -⟩ := sorted_node.1 hsorted
    simp only [height] at hfuel
    obtain _ | fuel := fuel
    · omega
    rw [nextLoop, toList_node, getLeft_eq, getRight_eq, h.left, h.right]
    rcases lt_trichotomy (cmp node a) 0 with hlt | heq | hgt
    · rw [if_pos hlt, find?_at (by simpa using hlt), Option.or_assoc]
      cases hroot : l.root with
      | none => rw [root_eq_none hroot]; rfl
      | some q => exact ihl h.2.1 hl hroot (by omega) fun b hb => hright b (by simp [hb])
    · have hleft := behind_left hcmp hla heq.ge
      -- `node` is reached, and everything behind it is above
      have hnil : r = nil := root_eq_none (h.right.symm.trans (hright a (by simp) heq))
      rw [if_neg (by omega), if_neg (by omega), find?_behind _ (by simpa using heq.ge), hnil]
      · rfl
      · intro b hb
        simpa using (hleft b hb).le
    · have hleft := behind_left hcmp hla hgt.le
      rw [if_neg (by omega), if_pos hgt, find?_behind _ (by simpa using hgt.le)]
      · cases hroot : r.root with
        | none => rw [root_eq_none hroot]; rfl
        | some q => exact ihr h.2.2 hr hroot (by omega) fun b hb => hright b (by simp [hb])
      · intro b hb
        simpa using (hleft b hb).le

end Neighbours

/-! ## The searches of a tree -/

/-- Every search of the tree returns what the list of its nodes says. -/
structure Searches (cmp : NodePtr → NodePtr → ℤ) (fuel : ℕ) (t : ObRbTree) (nodes : List NodePtr) :
    Prop where
  first : getFirst fuel t = .ok nodes.head?
  last : getLast fuel t = .ok nodes.getLast?
  next : ∀ us x vs, nodes = us ++ x :: vs → getNext cmp fuel (some x) t = .ok (.success, vs.head?)
  prev : ∀ us x vs, nodes = us ++ x :: vs →
  getPrev cmp fuel (some x) t = .ok (.success, us.getLast?)
  search : ∀ key,
    search cmp fuel (some key) t = .ok (.success, nodes.find? (cmp key · = 0))
  nsearch : ∀ key,
    nsearch cmp fuel (some key) t = .ok (.success, nodes.find? (cmp key · ≤ 0))
  psearch : ∀ key,
    psearch cmp fuel (some key) t = .ok (.success, nodes.reverse.find? (0 ≤ cmp key ·))

section Searches

variable {cmp : NodePtr → NodePtr → ℤ} {t : ObRbTree} {tree : ColorTree NodePtr} {fuel : ℕ}
  {us vs : List NodePtr} {x : NodePtr}

lemma getFirst_spec (h : t.Represents tree) (hfuel : tree.height ≤ fuel) :
    getFirst fuel t = .ok tree.toList.head? := by
  rw [getFirst, h.root]
  cases tree with
  | nil => rfl
  | node c l a r =>
    obtain ⟨b, hrun, hhead⟩ := firstFrom_spec h.holds hfuel
    rw [root_node, hhead]
    simp only [hrun]
    rfl

lemma nsearch_spec (hcmp : TotalPreorderCmp cmp) (h : t.Represents tree)
    (hsorted : Sorted cmp tree.toList) (hfuel : tree.height < fuel) (key : NodePtr) :
    nsearch cmp fuel (some key) t = .ok (.success, tree.toList.find? (cmp key · ≤ 0)) := by
  simp only [nsearch, h.root, nsearchLoop_spec hcmp h.holds hsorted hfuel, or_none]
  rfl

lemma Sorted.split (h : Sorted cmp (us ++ x :: vs)) :
    (∀ b ∈ us, cmp b x < 0) ∧ ∀ b ∈ vs, cmp x b < 0 := by
  obtain ⟨-, hright, hcross⟩ := List.pairwise_append.1 h
  exact ⟨fun b hb => hcross b hb x (by simp), (List.pairwise_cons.1 hright).1⟩

/-- A node of the tree that compares equal to `x` is `x`. -/
lemma Sorted.eq_of_cmp (hcmp : TotalPreorderCmp cmp) (h : Sorted cmp (us ++ x :: vs)) {b : NodePtr}
    (hb : b ∈ us ++ x :: vs) (heq : cmp x b = 0) : b = x := by
  obtain ⟨hus, hvs⟩ := h.split
  rcases List.mem_append.1 hb with hb | hb
  · have := (hcmp.swap b x).1 (hus b hb)
    omega
  · rcases List.mem_cons.1 hb with rfl | hb
    · rfl
    · have := hvs b hb
      omega

/-- Where a node stands in the tree, and what is on its two sides. -/
lemma ObRbTree.Represents.at_node (h : t.Represents tree) (hx : tree.toList = us ++ x :: vs) :
    ∃ c l r fs, Holds t.mem.links (node c l x r) ∧ (node c l x r).height ≤ tree.height ∧
      us = before fs ++ l.toList ∧ vs = r.toList ++ after fs := by
  obtain ⟨c, l, r, fs, rfl⟩ := exists_fill (t := tree) (a := x) (by rw [hx]; simp)
  refine ⟨c, l, r, fs, (holds_fill.1 h.holds).1, height_le_fill _ fs, ?_⟩
  have hnodup := h.nodup
  rw [hx, List.nodup_middle] at hnodup
  have hx' : x ∉ us ∧ x ∉ vs := by simpa using (List.nodup_cons.1 hnodup).1
  have hlist : us ++ x :: vs = (before fs ++ l.toList) ++ x :: (r.toList ++ after fs) := by
    rw [← hx, toList_fill]
    simp
  obtain ⟨hus, -, hvs⟩ := (List.append_cons_inj_of_notMem hx'.1 hx'.2).1 hlist
  exact ⟨hus, hvs⟩

lemma getNext_spec (hcmp : TotalPreorderCmp cmp) (h : t.Represents tree)
    (hsorted : Sorted cmp tree.toList) (hfuel : tree.height ≤ fuel)
    (hx : tree.toList = us ++ x :: vs) :
    getNext cmp fuel (some x) t = .ok (.success, vs.head?) := by
  obtain ⟨c, l, r, fs, hnode, hheight, -, hvs⟩ := h.at_node hx
  have hsplit := hsorted
  rw [hx] at hsplit
  rw [getNext, getRight_eq, hnode.right]
  cases r with
  | nil =>
    -- the search from the root passes `x` and remembers where it went to the left
    have hfind : tree.toList.find? (cmp x · < 0) = vs.head? := by
      rw [hx, find?_behind _ (by simp [hcmp.refl])]
      · cases vs with
        | nil => rfl
        | cons b vs => exact List.find?_cons_of_pos (by simpa using hsplit.split.2 b (by simp))
      · intro b hb
        simpa using ((hcmp.swap b x).1 (hsplit.split.1 b hb)).le
    have hright : ∀ b ∈ tree.toList, cmp x b = 0 → (t.mem.links b).right = none := by
      intro b hb heq
      rw [hx] at hb
      rw [hsplit.eq_of_cmp hcmp hb heq, hnode.right]
      rfl
    cases htree : tree.root with
    | none =>
      rw [root_eq_none htree] at hx
      simp at hx
    | some root =>
      have hloop : nextLoop cmp x t.mem fuel root none =
          .ok ((tree.toList.find? (cmp x · < 0)).or none) :=
        nextLoop_spec hcmp h.holds hsorted htree hfuel hright
      rw [hfind, or_none] at hloop
      simp only [h.root, htree, hloop]
      rfl
  | node c' l' b r' =>
    have hbelow : (node c' l' b r').height ≤ fuel := by
      simp only [height] at hheight ⊢
      omega
    obtain ⟨d, hrun, hhead⟩ := firstFrom_spec hnode.2.2 hbelow
    rw [hvs, List.head?_append, hhead]
    simp only [root_node, hrun]
    rfl

/-! ### Backwards

The searches to the left are those to the right in the mirror image of the tree. -/

def Memory.mirror (m : Memory) : Memory :=
    fun p => ((m p).setRight (m p).left).setLeft (m p).getRight

def ObRbTree.mirror (t : ObRbTree) : ObRbTree := { t with mem := t.mem.mirror }

lemma Memory.links_mirror (m : Memory) : m.mirror.links = LinkedTree.mirror m.links := by
  funext p
  rw [links, mirror, ObRbNode.link_setLeft, ObRbNode.link_setRight]
  rfl

lemma Memory.getLeft_mirror (m : Memory) (p : NodePtr) : m.mirror.getLeft p = m.getRight p := rfl

lemma Memory.getRight_mirror (m : Memory) (p : NodePtr) : m.mirror.getRight p = m.getLeft p := by
  rw [getRight_eq, links_mirror]
  rfl

lemma ObRbTree.Represents.mirror (h : t.Represents tree) : t.mirror.Represents tree.mirror where
  root := h.root.trans (root_mirror tree).symm
  holds := by
    rw [ObRbTree.mirror, links_mirror]
    exact h.holds.mirror
  nodup := nodup_mirror h.nodup

lemma Sorted.mirror (h : Sorted cmp tree.toList) :
    Sorted (fun a b => cmp b a) tree.mirror.toList := by
  rw [toList_mirror]
  exact List.pairwise_reverse.2 h

lemma lastFrom_eq (m : Memory) (fuel : ℕ) (p : NodePtr) :
    lastFrom m fuel p = firstFrom m.mirror fuel p := by
  induction fuel generalizing p with
  | zero => rfl
  | succ fuel ih => simp only [lastFrom, firstFrom, getLeft_mirror, ih]

/-- The searches to the left as searches in a mirror image. -/
lemma getLast_eq (fuel : ℕ) (t : ObRbTree) : getLast fuel t = getFirst fuel t.mirror := by
  simp only [getLast, lastFrom_eq]
  rfl

lemma ite_reverse {β : Type} (hcmp : TotalPreorderCmp cmp) (a b : NodePtr) (u v w : β) :
    (if cmp a b < 0 then u else if cmp a b > 0 then v else w) =
      if cmp b a < 0 then v else if cmp b a > 0 then u else w := by
  have hab := hcmp.swap a b
  have hba := hcmp.swap b a
  rcases lt_trichotomy (cmp a b) 0 with h | h | h
  · rw [if_pos h, if_neg (by omega), if_pos (by omega)]
  · rw [if_neg (by omega), if_neg (by omega), if_neg (by omega), if_neg (by omega)]
  · rw [if_neg (by omega), if_pos h, if_pos (by omega)]

lemma psearch_eq (hcmp : TotalPreorderCmp cmp) (fuel : ℕ) (key : NodePtr) (t : ObRbTree) :
    psearch cmp fuel (some key) t = nsearch (fun a b => cmp b a) fuel (some key) t.mirror := by
  have hloop : ∀ m fuel p returnNode, psearchLoop cmp key m fuel p returnNode =
      nsearchLoop (fun a b => cmp b a) key m.mirror fuel p returnNode := by
    intro m fuel
    induction fuel with
    | zero => exact fun p returnNode => rfl
    | succ fuel ih =>
      intro p returnNode
      cases p with
      | none => rfl
      | some p =>
        simp only [psearchLoop, nsearchLoop, getRight_mirror, ih]
        exact ite_reverse hcmp ..
  simp only [psearch, searchWith, hloop]
  rfl

lemma getPrev_eq (hcmp : TotalPreorderCmp cmp) (fuel : ℕ) (x : NodePtr) (t : ObRbTree) :
    getPrev cmp fuel (some x) t = getNext (fun a b => cmp b a) fuel (some x) t.mirror := by
  have hloop : ∀ m fuel p returnNode, prevLoop cmp x m fuel p returnNode =
      nextLoop (fun a b => cmp b a) x m.mirror fuel p returnNode := by
    intro m fuel
    induction fuel with
    | zero => exact fun p returnNode => rfl
    | succ fuel ih =>
      intro p returnNode
      simp only [prevLoop, nextLoop, getRight_mirror, ih]
      exact ite_reverse hcmp ..
  simp only [getPrev, getNext, hloop, lastFrom_eq, ObRbTree.mirror, getRight_mirror]

/-- On a sorted tree every search answers as the list does. -/
lemma searches_of_sorted (hcmp : TotalPreorderCmp cmp) (h : t.Represents tree)
    (hsorted : Sorted cmp tree.toList) (hfuel : tree.height < fuel) :
    Searches cmp fuel t tree.toList where
  first := getFirst_spec h hfuel.le
  last := by
    rw [getLast_eq, getFirst_spec h.mirror (by rw [height_mirror]; exact hfuel.le), toList_mirror,
      List.head?_reverse]
  next _ _ _ hx := getNext_spec hcmp h hsorted hfuel.le hx
  prev us x vs hx := by
    have hx' : tree.mirror.toList = vs.reverse ++ x :: us.reverse := by simp [toList_mirror, hx]
    rw [getPrev_eq hcmp, getNext_spec hcmp.reverse h.mirror hsorted.mirror
      (by rw [height_mirror]; exact hfuel.le) hx', List.head?_reverse]
  search key := by
    simp only [search, h.root, searchLoop_spec hcmp h.holds hsorted hfuel]
    rfl
  nsearch := nsearch_spec hcmp h hsorted hfuel
  psearch key := by
    rw [psearch_eq hcmp, nsearch_spec hcmp.reverse h.mirror hsorted.mirror
      (by rwa [height_mirror]), toList_mirror]
    simp only [hcmp.le_iff]

end Searches

end OceanBase.Container.RbTree
