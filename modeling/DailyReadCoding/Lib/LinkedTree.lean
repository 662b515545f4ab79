import Mathlib.Algebra.Group.Nat.Defs
import Mathlib.Data.List.Nodup

/-!
# Binary trees over a heap

A node is named by an address, and the heap gives every address its two links and its colour. A tree
in the heap is described by the tree of its addresses.

**Trees.** `Holds links t` — the links of the nodes of `t` are those of the tree `t`.

**Mirror images.** `mirror` — the heap with the two links of every node exchanged holds the mirrored
trees, with the nodes in the reversed order.

**Writes.** `Reshaped links links' t t'` — a part `t` of the heap was rewritten into `t'`, which has
the same nodes in the same order, and nothing else was touched. There is one lemma for a change of
colour, one for each rotation, and one for a change inside the left or the right subtree; a longer
sequence of writes is put together with `Reshaped.trans`.

**Paths.** A way down from the root is a list of frames, the deepest first. `Open links t child fs`
— the heap has the tree `t`, and apart from it the frames `fs`, the deepest of which still has the
link `child` at the place where `t` belongs.
-/

namespace LinkedTree

variable {α : Type*}

/-- What the heap has at an address. -/
structure Link (α : Type*) where
  left : Option α
  right : Option α
  red : Bool

inductive ColorTree (α : Type*)
  | nil
  | node (red : Bool) (left : ColorTree α) (a : α) (right : ColorTree α)

namespace ColorTree

def root : ColorTree α → Option α
  | nil => none
  | node _ _ a _ => some a

def toList : ColorTree α → List α
  | nil => []
  | node _ l a r => l.toList ++ a :: r.toList

def isRed : ColorTree α → Bool
  | nil => false
  | node c _ _ _ => c

def height : ColorTree α → ℕ
  | nil => 0
  | node _ l _ r => max l.height r.height + 1

@[simp] lemma root_nil : (nil : ColorTree α).root = none := rfl

section

variable (c : Bool) (l : ColorTree α) (a : α) (r : ColorTree α)

@[simp] lemma root_node : (node c l a r).root = some a := rfl

@[simp] lemma toList_nil : (nil : ColorTree α).toList = [] := rfl

@[simp] lemma toList_node :
    (node c l a r).toList = l.toList ++ a :: r.toList := rfl

@[simp] lemma isRed_nil : (nil : ColorTree α).isRed = false := rfl

@[simp] lemma isRed_node : (node c l a r).isRed = c := rfl

end

end ColorTree

open ColorTree Function

/-! ## Trees in the heap -/

def Holds (links : α → Link α) : ColorTree α → Prop
  | nil => True
  | node c l a r => links a = ⟨l.root, r.root, c⟩ ∧ Holds links l ∧ Holds links r

section Holds

variable {links links' : α → Link α} {c : Bool} {l r t : ColorTree α} {a : α}

/-- Other addresses do not matter. -/
lemma Holds.congr (h : Holds links t) (heq : ∀ b ∈ t.toList, links' b = links b) :
    Holds links' t := by
  induction t with
  | nil => trivial
  | node c l a r ihl ihr =>
    simp only [toList_node, List.mem_append, List.mem_cons] at heq
    refine ⟨?_, ihl h.2.1 fun b hb => heq b (.inl hb), ihr h.2.2 fun b hb => heq b (.inr (.inr hb))⟩
    rw [heq a (.inr (.inl rfl))]
    exact h.1

lemma Holds.left (h : Holds links (node c l a r)) : (links a).left = l.root := by rw [h.1]

lemma Holds.right (h : Holds links (node c l a r)) : (links a).right = r.root := by rw [h.1]

lemma Holds.red (h : Holds links (node c l a r)) : (links a).red = c := by rw [h.1]

/-- Distinct nodes, part by part. -/
lemma nodup_node : (node c l a r).toList.Nodup ↔ l.toList.Nodup ∧ r.toList.Nodup ∧
    a ∉ l.toList ∧ a ∉ r.toList ∧ ∀ b ∈ l.toList, b ∉ r.toList := by
  rw [toList_node, List.nodup_middle, List.nodup_cons, List.nodup_append', List.mem_append]
  tauto

end Holds

/-! ## Mirror images -/

/-- The tree with left and right exchanged. -/
def ColorTree.mirror : ColorTree α → ColorTree α
  | nil => nil
  | node c l a r => node c r.mirror a l.mirror

def mirror (links : α → Link α) (a : α) : Link α := ⟨(links a).right, (links a).left, (links a).red⟩

section Mirror

variable {links : α → Link α} {t : ColorTree α}

lemma root_mirror (t : ColorTree α) : t.mirror.root = t.root := by cases t <;> rfl

lemma mirror_mirror (t : ColorTree α) : t.mirror.mirror = t := by
  induction t with
  | nil => rfl
  | node c l a r ihl ihr => rw [ColorTree.mirror, ColorTree.mirror, ihl, ihr]

lemma toList_mirror (t : ColorTree α) : t.mirror.toList = t.toList.reverse := by
  induction t with
  | nil => rfl
  | node c l a r ihl ihr => simp [ColorTree.mirror, ihl, ihr]

lemma nodup_mirror (h : t.toList.Nodup) : t.mirror.toList.Nodup := by
  rw [toList_mirror]
  exact List.nodup_reverse.2 h

lemma height_mirror (t : ColorTree α) : t.mirror.height = t.height := by
  induction t with
  | nil => rfl
  | node c l a r ihl ihr => rw [ColorTree.mirror, height, height, ihl, ihr, Nat.max_comm]

/-- The mirrored heap holds the mirrored tree. -/
lemma Holds.mirror (h : Holds links t) : Holds (mirror links) t.mirror := by
  induction t with
  | nil => trivial
  | node c l a r ihl ihr =>
    refine ⟨?_, ihr h.2.2, ihl h.2.1⟩
    rw [LinkedTree.mirror, h.1, root_mirror, root_mirror]

end Mirror

/-! ## Writes -/

/-- The part `t` of the heap was rewritten into `t'`. -/
structure Reshaped (links links' : α → Link α) (t t' : ColorTree α) : Prop where
  holds : Holds links' t'
  toList : t'.toList = t.toList
  frame : ∀ b, b ∉ t.toList → links' b = links b

section Reshaped

variable {links links' links'' : α → Link α} {c : Bool} {l r l' r' t t' t'' : ColorTree α} {a : α}

/-- Writes one after the other. -/
lemma Reshaped.trans (h : Reshaped links links' t t') (h' : Reshaped links' links'' t' t'') :
    Reshaped links links'' t t'' where
  holds := h'.holds
  toList := h'.toList.trans h.toList
  frame b hb := by rw [h'.frame b (by rwa [h.toList]), h.frame b hb]

lemma Reshaped.nodup (h : Reshaped links links' t t') (hn : t.toList.Nodup) : t'.toList.Nodup := by
  rwa [h.toList]

/-- A change inside the left subtree. -/
lemma Reshaped.inLeft (h : Holds links (node c l a r)) (hn : (node c l a r).toList.Nodup)
    (hl : Reshaped links links' l l') (hroot : l'.root = l.root) :
    Reshaped links links' (node c l a r) (node c l' a r) := by
  obtain ⟨-, -, hal, -, hdisj⟩ := nodup_node.1 hn
  refine ⟨⟨?_, hl.holds, h.2.2.congr fun b hb => hl.frame b fun hbl => hdisj b hbl hb⟩, ?_, ?_⟩
  · rw [hl.frame a hal, hroot]
    exact h.1
  · rw [toList_node, toList_node, hl.toList]
  · intro b hb
    exact hl.frame b fun hbl => hb (List.mem_append_left _ hbl)

/-- A statement about mirror images, read back. -/
lemma Reshaped.of_mirror (h : Reshaped (mirror links) (mirror links') t.mirror t'.mirror) :
    Reshaped links links' t t' where
  holds := by
    have hholds := h.holds.mirror
    rwa [mirror_mirror] at hholds
  toList := by
    have hlist := h.toList
    rwa [toList_mirror, toList_mirror, List.reverse_inj] at hlist
  frame b hb := congrArg (fun k : Link α => Link.mk k.right k.left k.red)
    (h.frame b (by rwa [toList_mirror, List.mem_reverse]))

lemma Reshaped.mirror (h : Reshaped links links' t t') :
    Reshaped (mirror links) (mirror links') t.mirror t'.mirror :=
  .of_mirror (by rw [mirror_mirror, mirror_mirror]; exact h)

/-- A change inside the right subtree. -/
lemma Reshaped.inRight (h : Holds links (node c l a r)) (hn : (node c l a r).toList.Nodup)
    (hr : Reshaped links links' r r') (hroot : r'.root = r.root) :
    Reshaped links links' (node c l a r) (node c l a r') :=
  .of_mirror (.inLeft h.mirror (nodup_mirror hn) hr.mirror
  (by rw [root_mirror, root_mirror, hroot]))

end Reshaped

section Writes

variable [DecidableEq α]

def setLeft (links : α → Link α) (a : α) (p : Option α) : α → Link α :=
  Function.update links a { links a with left := p }

def setRight (links : α → Link α) (a : α) (p : Option α) : α → Link α :=
  Function.update links a { links a with right := p }

def setColor (links : α → Link α) (a : α) (red : Bool) : α → Link α :=
  Function.update links a { links a with red := red }

variable {links links' : α → Link α} {c c' : Bool} {l r l' r' x y : ColorTree α} {a b : α}

/-- A change of colour. -/
lemma Reshaped.setColor (h : Holds links (node c l a r)) (hn : (node c l a r).toList.Nodup)
    (c' : Bool) : Reshaped links (setColor links a c') (node c l a r) (node c' l a r) := by
  obtain ⟨-, -, hal, har, -⟩ := nodup_node.1 hn
  rw [LinkedTree.setColor, h.1]
  refine ⟨⟨update_self .., h.2.1.congr ?_, h.2.2.congr ?_⟩, rfl, ?_⟩
  · exact fun b hb => update_of_ne (ne_of_mem_of_not_mem hb hal) ..
  · exact fun b hb => update_of_ne (ne_of_mem_of_not_mem hb har) ..
  · intro b hb
    refine update_of_ne ?_ ..
    rintro rfl
    exact hb (by simp)

/-- A change inside the right subtree, after which the link to it is set. -/
lemma Reshaped.setRight (h : Holds links (node c l a r)) (hn : (node c l a r).toList.Nodup)
    (hr : Reshaped links links' r r') :
    Reshaped links (setRight links' a r'.root) (node c l a r) (node c l a r') := by
  obtain ⟨-, -, hal, har, hdisj⟩ := nodup_node.1 hn
  rw [LinkedTree.setRight, hr.frame a har, h.1]
  refine ⟨⟨update_self .., h.2.1.congr ?_, hr.holds.congr ?_⟩, ?_, ?_⟩
  · intro b hb
    rw [update_of_ne (ne_of_mem_of_not_mem hb hal), hr.frame b (hdisj b hb)]
  · rw [hr.toList]
    exact fun b hb => update_of_ne (ne_of_mem_of_not_mem hb har) ..
  · rw [toList_node, toList_node, hr.toList]
  · simp only [toList_node, List.mem_append, List.mem_cons, not_or]
    rintro b ⟨-, hba, hbr⟩
    rw [update_of_ne hba, hr.frame b hbr]

/-- A rotation to the left. -/
lemma Reshaped.rotateLeft (h : Holds links (node c l a (node c' x b r)))
    (hn : (node c l a (node c' x b r)).toList.Nodup) :
    Reshaped links (LinkedTree.setLeft (LinkedTree.setRight links a x.root) b (some a))
      (node c l a (node c' x b r)) (node c' (node c l a x) b r) := by
  obtain ⟨-, hnr, hal, har, hdisj⟩ := nodup_node.1 hn
  obtain ⟨-, -, hbx, hbr, -⟩ := nodup_node.1 hnr
  simp only [toList_node, List.mem_append, List.mem_cons, not_or] at har hdisj
  obtain ⟨hax, hab, har⟩ := har
  have hlink : LinkedTree.setLeft (LinkedTree.setRight links a x.root) b (some a) =
      update (update links a ⟨l.root, x.root, c⟩) b ⟨some a, r.root, c'⟩ := by
    rw [LinkedTree.setLeft, LinkedTree.setRight, update_of_ne (Ne.symm hab), h.1, h.2.2.1]
  have hsame : ∀ d, d ≠ a → d ≠ b → update (update links a ⟨l.root, x.root, c⟩) b
      ⟨some a, r.root, c'⟩ d = links d := by
    intro d hda hdb
    rw [update_of_ne hdb, update_of_ne hda]
  rw [hlink]
  refine ⟨⟨update_self .., ⟨?_, h.2.1.congr ?_, h.2.2.2.1.congr ?_⟩, h.2.2.2.2.congr ?_⟩, ?_, ?_⟩
  · rw [update_of_ne hab, update_self]
  · exact fun d hd => hsame d (ne_of_mem_of_not_mem hd hal) (hdisj d hd).2.1
  · exact fun d hd => hsame d (ne_of_mem_of_not_mem hd hax) (ne_of_mem_of_not_mem hd hbx)
  · exact fun d hd => hsame d (ne_of_mem_of_not_mem hd har) (ne_of_mem_of_not_mem hd hbr)
  · simp
  · simp only [toList_node, List.mem_append, List.mem_cons, not_or]
    rintro d ⟨-, hda, -, hdb, -⟩
    exact hsame d hda hdb

lemma mirror_setLeft (p : Option α) :
    mirror (LinkedTree.setLeft links a p) = LinkedTree.setRight (mirror links) a p := by
  funext d
  by_cases hd : d = a
  · rw [hd]
    simp [mirror, LinkedTree.setLeft, LinkedTree.setRight]
  · simp [mirror, LinkedTree.setLeft, LinkedTree.setRight, hd]

lemma mirror_setRight (p : Option α) :
    mirror (LinkedTree.setRight links a p) = LinkedTree.setLeft (mirror links) a p :=
  congrArg mirror (@mirror_setLeft _ _ (mirror links) a p).symm

/-- A rotation to the right, the mirror image. -/
lemma Reshaped.rotateRight (h : Holds links (node c (node c' l b x) a r))
    (hn : (node c (node c' l b x) a r).toList.Nodup) :
    Reshaped links (LinkedTree.setRight (LinkedTree.setLeft links a x.root) b (some a))
      (node c (node c' l b x) a r) (node c' l b (node c x a r)) := by
  refine .of_mirror ?_
  rw [mirror_setRight, mirror_setLeft, ← root_mirror x]
  exact .rotateLeft h.mirror (nodup_mirror hn)

end Writes

/-! ## Paths -/

/-- One node on the way down: the colour of the node, and the subtree the way does not go into. -/
structure Frame (α : Type*) where
  toLeft : Bool
  red : Bool
  a : α
  sibling : ColorTree α

namespace Frame

/-- The tree with `t` at the open place. -/
def fill (f : Frame α) (t : ColorTree α) : ColorTree α :=
  if f.toLeft then node f.red t f.a f.sibling else node f.red f.sibling f.a t

/-- What the heap has at the node if `child` is the link to the open place. -/
def link (f : Frame α) (child : Option α) : Link α :=
  if f.toLeft then ⟨child, f.sibling.root, f.red⟩ else ⟨f.sibling.root, child, f.red⟩

@[simp] lemma root_fill (f : Frame α) (t : ColorTree α) : (f.fill t).root = some f.a := by
  unfold fill
  split_ifs <;> rfl

end Frame

def fill : ColorTree α → List (Frame α) → ColorTree α
  | t, [] => t
  | t, f :: fs => fill (f.fill t) fs

/-- The link to the upper end of a path with `child` below it. -/
def top : Option α → List (Frame α) → Option α
  | child, [] => child
  | _, f :: fs => top (some f.a) fs

/-- The nodes before the open place. -/
def before : List (Frame α) → List α
  | [] => []
  | f :: fs => before fs ++ if f.toLeft then [] else f.sibling.toList ++ [f.a]

/-- The nodes after the open place. -/
def after : List (Frame α) → List α
  | [] => []
  | f :: fs => (if f.toLeft then f.a :: f.sibling.toList else []) ++ after fs

def HoldsPath (links : α → Link α) : Option α → List (Frame α) → Prop
  | _, [] => True
  | child, f :: fs => links f.a = f.link child ∧ Holds links f.sibling ∧
      HoldsPath links (some f.a) fs

section Paths

variable {links links' : α → Link α} {t t' : ColorTree α} {f : Frame α} {fs gs : List (Frame α)}
  {child : Option α}

lemma fill_append (t : ColorTree α) (fs gs : List (Frame α)) : fill t (fs ++ gs) = fill
    (fill t fs) gs := by
  induction fs generalizing t with
  | nil => rfl
  | cons f fs ih => exact ih (f.fill t)

lemma top_append (x : Option α) (fs gs : List (Frame α)) : top x (fs ++ gs) = top
    (top x fs) gs := by
  induction fs generalizing x with
  | nil => rfl
  | cons f fs ih => exact ih (some f.a)

/-- Above the deepest node of a path, what is below it does not matter. -/
lemma top_eq (h : fs ≠ []) (x y : Option α) : top x fs = top y fs := by
  cases fs with
  | nil => exact absurd rfl h
  | cons f fs => rfl

lemma root_fill (t : ColorTree α) (fs : List (Frame α)) : (fill t fs).root = top t.root fs := by
  induction fs generalizing t with
  | nil => rfl
  | cons f fs ih => rw [fill, ih, Frame.root_fill, top]

/-- The nodes before, in and after the tree. -/
lemma toList_fill (t : ColorTree α) (fs : List (Frame α)) :
    (fill t fs).toList = before fs ++ t.toList ++ after fs := by
  induction fs generalizing t with
  | nil => simp [fill, before, after]
  | cons f fs ih =>
    rw [fill, ih, before, after, Frame.fill]
    split_ifs <;> simp

lemma before_append (fs gs : List (Frame α)) : before (fs ++ gs) = before gs ++ before fs := by
  induction fs with
  | nil => simp [before]
  | cons f fs ih => simp [before, ih]

lemma before_eq_nil (h : ∀ f ∈ fs, f.toLeft = true) : before fs = [] := by
  induction fs with
  | nil => rfl
  | cons f fs ih =>
    rw [before, if_pos (h f (by simp)), ih fun g hg => h g (by simp [hg])]
    rfl

lemma after_append (fs gs : List (Frame α)) : after (fs ++ gs) = after fs ++ after gs := by
  induction fs with
  | nil => simp [after]
  | cons f fs ih => simp [after, ih]

lemma height_le_fill (t : ColorTree α) (fs : List (Frame α)) : t.height ≤ (fill t fs).height := by
  induction fs generalizing t with
  | nil => exact Nat.le_refl _
  | cons f fs ih =>
    refine Nat.le_trans ?_ (ih (f.fill t))
    unfold Frame.fill
    split <;> simp only [height] <;> omega

/-- Every node is at the end of a path. -/
lemma exists_fill {a : α} (h : a ∈ t.toList) : ∃ c l r fs, fill (node c l a r) fs = t := by
  induction t with
  | nil => simp at h
  | node c l b r ihl ihr =>
    simp only [toList_node, List.mem_append, List.mem_cons] at h
    rcases h with h | rfl | h
    · obtain ⟨c', l', r', fs, rfl⟩ := ihl h
      exact ⟨c', l', r', fs ++ [⟨true, c, b, r⟩], fill_append ..⟩
    · exact ⟨c, l, r, [], rfl⟩
    · obtain ⟨c', l', r', fs, rfl⟩ := ihr h
      exact ⟨c', l', r', fs ++ [⟨false, c, b, l⟩], fill_append ..⟩

lemma holds_frame_fill : Holds links (f.fill t) ↔
    links f.a = f.link t.root ∧ Holds links f.sibling ∧ Holds links t := by
  unfold Frame.fill Frame.link
  split_ifs
  · simp only [Holds]
    tauto
  · simp only [Holds]

/-- A tree filled in is a tree and a path. -/
lemma holds_fill : Holds links (fill t fs) ↔ Holds links t ∧ HoldsPath links t.root fs := by
  induction fs generalizing t with
  | nil => simp [fill, HoldsPath]
  | cons f fs ih =>
    rw [fill, ih, holds_frame_fill, Frame.root_fill, HoldsPath]
    tauto

lemma holdsPath_append : HoldsPath links child (fs ++ gs) ↔
    HoldsPath links child fs ∧ HoldsPath links (top child fs) gs := by
  induction fs generalizing child with
  | nil => simp [HoldsPath, top]
  | cons f fs ih =>
    rw [List.cons_append, HoldsPath, HoldsPath, ih]
    tauto

lemma HoldsPath.congr (h : HoldsPath links child fs)
    (heq : ∀ b, b ∈ before fs ∨ b ∈ after fs → links' b = links b) : HoldsPath links' child fs := by
  induction fs generalizing child with
  | nil => trivial
  | cons f fs ih =>
    have hmem : ∀ b, b = f.a ∨ b ∈ f.sibling.toList → links' b = links b := by
      intro b hb
      refine heq b ?_
      rw [before, after]
      split_ifs <;> simp <;> tauto
    have hrest : ∀ b, b ∈ before fs ∨ b ∈ after fs → links' b = links b := by
      intro b hb
      refine heq b ?_
      rcases hb with hb | hb
      · exact .inl (List.mem_append_left _ hb)
      · exact .inr (List.mem_append_right _ hb)
    refine ⟨?_, h.2.1.congr fun b hb => hmem b (.inr hb), ih h.2.2 hrest⟩
    rw [hmem f.a (.inl rfl)]
    exact h.1

/-- The heap has the tree `t`, and above it the path `fs` with the link `child` at the open place.
-/
structure Open (links : α → Link α) (t : ColorTree α) (child : Option α)
    (fs : List (Frame α)) : Prop where
  holds : Holds links t
  path : HoldsPath links child fs
  nodup : (before fs ++ t.toList ++ after fs).Nodup

/-- With the right link at the open place there is one tree. -/
lemma Open.close (h : Open links t t.root fs) : Holds links (fill t fs) :=
  holds_fill.2 ⟨h.holds, h.path⟩

variable (h : Open links t child fs)

include h

lemma Open.nodup_tree : t.toList.Nodup := (h.nodup.of_append_left).of_append_right

lemma Open.not_mem_path {b : α} (hb : b ∈ t.toList) : b ∉ before fs ++ after fs := by
  have hnodup := h.nodup
  rw [List.append_assoc, List.nodup_append', List.nodup_append'] at hnodup
  obtain ⟨-, ⟨-, -, hta⟩, hbt⟩ := hnodup
  intro hmem
  rcases List.mem_append.1 hmem with hmem | hmem
  · exact hbt hmem (List.mem_append_left _ hb)
  · exact hta hb hmem

lemma Open.nodup_path : (before fs ++ after fs).Nodup := by
  refine h.nodup.sublist ?_
  rw [List.append_assoc]
  exact (List.sublist_append_right _ _).append_left _

/-- What happens in the tree leaves the path open. -/
lemma Open.reshape (hr : Reshaped links links' t t') : Open links' t' child fs := by
  refine ⟨hr.holds, h.path.congr fun b hb => hr.frame b ?_, by rw [hr.toList]; exact h.nodup⟩
  intro hbt
  exact h.not_mem_path hbt (List.mem_append.2 hb)

omit h

lemma nodes_cons (t : ColorTree α) (f : Frame α) (fs : List (Frame α)) :
    before (f :: fs) ++ t.toList ++ after (f :: fs) = before fs ++ (f.fill t).toList
    ++ after fs := by
  rw [← toList_fill, ← toList_fill, fill]

include h

/-- The place stays open for some of the nodes in the same order. -/
lemma Open.part (ht' : Holds links t') (hsub : t'.toList.Sublist t.toList) :
    Open links t' child fs :=
  ⟨ht', h.path, h.nodup.sublist ((hsub.append_left _).append_right _)⟩

omit h

section Link

variable [DecidableEq α]

/-- The link to the open place is set. -/
def Frame.relink (f : Frame α) (links : α → Link α) (p : Option α) : α → Link α :=
  if f.toLeft then setLeft links f.a p else setRight links f.a p

lemma Frame.relink_eq (h : links f.a = f.link child) (p : Option α) :
    f.relink links p = Function.update links f.a (f.link p) := by
  unfold relink setLeft setRight
  rw [h, Frame.link, Frame.link]
  split_ifs <;> rfl

lemma Frame.relink_of_ne {b : α} (hb : b ≠ f.a) (p : Option α) : f.relink links p b = links b := by
  unfold relink setLeft setRight
  split_ifs <;> exact update_of_ne hb ..

/-- The deepest link is set, the rest of the path stays. -/
lemma HoldsPath.relink (h : HoldsPath links child (f :: fs))
    (hn : (before (f :: fs) ++ after (f :: fs)).Nodup) (p : Option α) :
    HoldsPath (f.relink links p) p (f :: fs) := by
  obtain ⟨hlink, hsibling, hpath⟩ := h
  have hnodup : (before fs ++ (f.fill nil).toList ++ after fs).Nodup := by
    rw [← nodes_cons]
    simpa using hn
  rw [List.append_assoc, List.nodup_append', List.nodup_append'] at hnodup
  obtain ⟨-, ⟨htree, -, hta⟩, hbt⟩ := hnodup
  have hmem : f.a ∈ (f.fill nil).toList := by
    unfold Frame.fill
    split_ifs <;> simp
  have hnot : f.a ∉ f.sibling.toList := by
    unfold Frame.fill at htree
    split_ifs at htree
    · exact (nodup_node.1 htree).2.2.2.1
    · exact (nodup_node.1 htree).2.2.1
  refine ⟨?_, hsibling.congr fun b hb => ?_, hpath.congr fun b hb => ?_⟩
  · rw [Frame.relink_eq hlink, update_self]
  · exact Frame.relink_of_ne (ne_of_mem_of_not_mem hb hnot) p
  · refine Frame.relink_of_ne ?_ p
    rintro rfl
    rcases hb with hb | hb
    · exact hbt hb (List.mem_append_left _ hmem)
    · exact hta hmem hb

/-- **Linking the deepest frame to the tree** makes one tree of the two. -/
lemma Open.link (h : Open links t child (f :: fs)) :
    Open (f.relink links t.root) (f.fill t) (some f.a) fs := by
  obtain ⟨hlink, hsibling, hpath⟩ := h.path.relink h.nodup_path t.root
  have hnot : f.a ∉ t.toList := by
    have hnodup := h.nodup
    rw [nodes_cons] at hnodup
    have htree := hnodup.of_append_left.of_append_right
    unfold Frame.fill at htree
    split_ifs at htree
    · exact (nodup_node.1 htree).2.2.1
    · exact (nodup_node.1 htree).2.2.2.1
  have ht : Holds (f.relink links t.root) t :=
    h.holds.congr fun b hb => Frame.relink_of_ne (ne_of_mem_of_not_mem hb hnot) _
  exact ⟨holds_frame_fill.2 ⟨hlink, hsibling, ht⟩, hpath, nodes_cons t f fs ▸ h.nodup⟩

end Link

end Paths

end LinkedTree
