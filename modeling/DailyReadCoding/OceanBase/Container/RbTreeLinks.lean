import DailyReadCoding.Lib.LeftLeaning
import DailyReadCoding.OceanBase.Container.Compare
import DailyReadCoding.OceanBase.Container.RbTree

/-!
# The nodes of `ObRbTree` as linked trees

The pointer to the right child and the colour share a word, and neither is disturbed by writing the
other: the memory is a heap of links, on which every accessor acts as its name says.
-/

namespace OceanBase.Container.RbTree

open LinkedTree ColorTree Function NodePtr

/-! ## The word of the right link -/

namespace NodePtr

/-- A word is its pointer part and its colour bit. -/
lemma join_word (w : BitVec 64) : (w &&& -2#64) ||| (w &&& 1#64) = w := by
  rw [← BitVec.and_or_distrib_left, show -2#64 ||| 1#64 = BitVec.allOnes 64 by decide,
    BitVec.and_allOnes]

/-- Pointers are even. -/
lemma toWord_and_one (p : Option NodePtr) : toWord p &&& 1#64 = 0#64 := by
  cases p with
  | none => rfl
  | some p => exact p.aligned

/-- Clearing the colour bit of a pointer does nothing. -/
lemma toWord_clearBit (p : Option NodePtr) : toWord p &&& -2#64 = toWord p := by
  have h := join_word (toWord p)
  rwa [toWord_and_one, BitVec.or_zero] at h

lemma ofWord_of_eq {w : BitVec 64} {p : Option NodePtr} (hw : w = toWord p)
    (h : w &&& 1#64 = 0#64) :
    ofWord w h = p := by
  subst hw
  cases p with
  | none => rfl
  | some p => exact dif_neg p.nonnull

end NodePtr

namespace ObRbNode

/-- The node as its accessors show it. -/
def link (n : ObRbNode) : Link NodePtr := ⟨n.left, n.getRight, n.getRed⟩

lemma link_setLeft (n : ObRbNode) (p : Option NodePtr) :
    (n.setLeft p).link = { n.link with left := p } := rfl

/-- The right child does not depend on the colour bit. -/
lemma getRight_congr {n n' : ObRbNode} (h : n.rightRed &&& -2#64 = n'.rightRed &&& -2#64) :
    n.getRight = n'.getRight := by
  simp only [getRight, h]

/-- Writing the pointer keeps the colour. -/
lemma link_setRight (n : ObRbNode) (p : Option NodePtr) :
    (n.setRight p).link = { n.link with right := p } := by
  have hright : (n.setRight p).getRight = p := by
    refine ofWord_of_eq ?_ _
    rw [setRight, BitVec.and_or_distrib_right, toWord_clearBit, BitVec.and_assoc,
      show 1#64 &&& -2#64 = 0#64 by decide, BitVec.and_zero, BitVec.or_zero]
  have hred : (n.setRight p).getRed = n.getRed := by
    rw [getRed, getRed, setRight, BitVec.and_or_distrib_right, toWord_and_one, BitVec.and_assoc,
      BitVec.and_self, BitVec.zero_or]
  rw [link, hright, hred]
  rfl

/-- Writing the colour keeps the pointer. -/
lemma link_setColor (n : ObRbNode) (red : Bool) :
    (n.setColor red).link = { n.link with red := red } := by
  have hright : (n.setColor red).getRight = n.getRight := by
    refine getRight_congr ?_
    rw [setColor, BitVec.and_or_distrib_right, BitVec.and_assoc]
    cases red <;> simp
  have hred : (n.setColor red).getRed = red := by
    rw [getRed, setColor, BitVec.and_or_distrib_right, BitVec.and_assoc,
      show -2#64 &&& 1#64 = 0#64 by decide, BitVec.and_zero]
    cases red <;> decide
  rw [link, hright, hred]
  rfl

lemma setRed_eq (n : ObRbNode) : n.setRed = n.setColor true := by
  have h : n.rightRed ||| 1#64 = (n.rightRed &&& -2#64) ||| 1#64 := by
    rw [show -2#64 = ~~~1#64 by decide]
    ext i hi
    simp only [BitVec.getElem_or, BitVec.getElem_and, BitVec.getElem_not]
    cases (1#64)[i] <;> simp
  rw [setRed, h]
  rfl

lemma setBlack_eq (n : ObRbNode) : n.setBlack = n.setColor false := by
  rw [setBlack, setColor]
  simp

end ObRbNode

open ObRbNode

/-! ## The memory -/

namespace Memory

/-- The memory as its accessors show it. -/
def links (m : Memory) : NodePtr → Link NodePtr := fun p => (m p).link

variable (m : Memory) (p : NodePtr)

lemma getLeft_eq : m.getLeft p = (m.links p).left := rfl

lemma getRight_eq : m.getRight p = (m.links p).right := rfl

lemma getRed_eq : m.getRed p = (m.links p).red := rfl

/-- A write to a node is a write to its link. -/
lemma links_modify (f : ObRbNode → ObRbNode) :
    (m.modify p f).links = Function.update m.links p (f (m p)).link := by
  funext q
  rw [links, modify]
  by_cases h : q = p
  · rw [h, update_self, update_self]
  · rw [update_of_ne h, update_of_ne h, links]

lemma links_setLeft (q : Option NodePtr) :
    (m.setLeft p q).links = LinkedTree.setLeft m.links p q := by
  rw [setLeft, links_modify]
  rfl

lemma links_setRight (q : Option NodePtr) :
    (m.setRight p q).links = LinkedTree.setRight m.links p q := by
  rw [setRight, links_modify, link_setRight]
  rfl

lemma links_setColor (red : Bool) : (m.setColor p red).links
    = LinkedTree.setColor m.links p red := by
  rw [setColor, links_modify, link_setColor]
  rfl

lemma links_setRed : (m.setRed p).links = LinkedTree.setColor m.links p true := by
  rw [setRed, links_modify, setRed_eq, link_setColor]
  rfl

lemma links_setBlack : (m.setBlack p).links = LinkedTree.setColor m.links p false := by
  rw [setBlack, links_modify, setBlack_eq, link_setColor]
  rfl

end Memory

open Memory

section Writes

variable {m : Memory} {c c' : Bool} {l x r t : ColorTree NodePtr} {a b : NodePtr}

/-- `ifRed` of a red root is the root. -/
lemma ifRed_red (h : Holds m.links t) (hred : t.isRed = true) : m.ifRed t.root = t.root := by
  cases t with
  | nil => rfl
  | node c l a r =>
    have hc : m.getRed a = true := by rw [getRed_eq, h.red]; exact hred
    simp [ifRed, Option.filter, hc]

/-- `ifRed` of a black root is null. -/
lemma ifRed_black (h : Holds m.links t) (hblack : t.isRed = false) : m.ifRed t.root = none := by
  cases t with
  | nil => rfl
  | node c l a r =>
    have hc : m.getRed a = false := by rw [getRed_eq, h.red]; exact hblack
    simp [ifRed, Option.filter, hc]

section

variable (h : Holds m.links (node c l a r)) (hn : (node c l a r).toList.Nodup)

include h hn

/-- A colour is written in place. -/
lemma setColor_spec (c' : Bool) :
    Reshaped m.links (m.setColor a c').links (node c l a r) (node c' l a r) := by
  rw [links_setColor]
  exact .setColor h hn c'

lemma setRed_spec : Reshaped m.links (m.setRed a).links (node c l a r) (node true l a r) := by
  rw [links_setRed]
  exact .setColor h hn true

lemma setBlack_spec : Reshaped m.links (m.setBlack a).links (node c l a r) (node false l a r) := by
  rw [links_setBlack]
  exact .setColor h hn false

end

/-- `rotate_left` succeeds where there is a right child. -/
lemma rotateLeft_spec (h : Holds m.links (node c l a (node c' x b r)))
    (hn : (node c l a (node c' x b r)).toList.Nodup) :
    ∃ m', m.rotateLeft a = .ok (m', b) ∧ Reshaped m.links m'.links (node c l a (node c' x b r))
      (node c' (node c l a x) b r) := by
  refine ⟨(m.setRight a x.root).setLeft b (some a), ?_, ?_⟩
  · rw [rotateLeft, getRight_eq, h.right]
    show Except.ok ((m.setRight a (m.getLeft b)).setLeft b (some a), b) = _
    rw [getLeft_eq, h.2.2.left]
  · rw [links_setLeft, links_setRight]
    exact .rotateLeft h hn

/-- `rotate_right` succeeds where there is a left child. -/
lemma rotateRight_spec (h : Holds m.links (node c (node c' l b x) a r))
    (hn : (node c (node c' l b x) a r).toList.Nodup) :
    ∃ m', m.rotateRight a = .ok (m', b) ∧ Reshaped m.links m'.links (node c (node c' l b x) a r)
      (node c' l b (node c x a r)) := by
  refine ⟨(m.setLeft a x.root).setRight b (some a), ?_, ?_⟩
  · rw [rotateRight, getLeft_eq, h.left]
    show Except.ok ((m.setLeft a (m.getRight b)).setRight b (some a), b) = _
    rw [getRight_eq, h.2.1.right]
  · rw [links_setRight, links_setLeft]
    exact .rotateRight h hn

end Writes

/-! ## The tree and the path -/

/-- The nodes that the root leads to. -/
structure ObRbTree.Represents (t : ObRbTree) (tree : ColorTree NodePtr) : Prop where
  root : t.root = tree.root
  holds : Holds t.mem.links tree
  nodup : tree.toList.Nodup

/-- An entry of the path array for a frame. -/
structure ObRbPath.Matches (p : ObRbPath) (f : Frame NodePtr) : Prop where
  node : p.node = f.a
  toLeft : p.cmp < 0 ↔ f.toLeft = true
  nonzero : p.cmp ≠ 0

/-- The entries of the path array for a path. -/
def Follows : List ObRbPath → List (Frame NodePtr) → Prop := List.Forall₂ ObRbPath.Matches

section Path

variable {m : Memory} {t : ObRbTree} {tree : ColorTree NodePtr} {child : Option NodePtr}
  {f : Frame NodePtr} {fs : List (Frame NodePtr)} {p : ObRbPath} {path : List ObRbPath}

/-- The path starts at the root of the tree. -/
lemma some_pathStart (h : Follows path fs) (a : NodePtr) :
    some (pathStart a path) = top (some a) fs := by
  induction h generalizing a with
  | nil => rfl
  | cons hp _ ih => rw [pathStart, top, ih, hp.node]

/-- The branch on `cmp_` writes the link of the frame. -/
lemma links_relink (hp : p.Matches f) (q : Option NodePtr) :
    (if p.cmp < 0 then m.setLeft p.node q else m.setRight p.node q).links = f.relink m.links q := by
  rw [Frame.relink, hp.node]
  by_cases hc : p.cmp < 0
  · rw [if_pos hc, if_pos (hp.toLeft.1 hc), links_setLeft]
  · rw [if_neg hc, if_neg (fun hl => hc (hp.toLeft.2 hl)), links_setRight]

/-- The link to the node of an entry is set: in the path, or at the root. -/
lemma relink_path (hpath : Follows path fs) (h : HoldsPath t.mem.links child fs)
    (hn : (before fs ++ after fs).Nodup) (hroot : fs ≠ [] → t.root = top none fs)
    (q : Option NodePtr) :
    HoldsPath (relink path q t).mem.links q fs
      ∧ (∀ b, b ∉ before fs ++ after fs → (relink path q t).mem.links b = t.mem.links b)
      ∧ (relink path q t).root = top q fs := by
  cases hpath with
  | nil => exact ⟨trivial, fun _ _ => rfl, rfl⟩
  | @cons p f path fs hp hpath =>
    have hlinks := links_relink (m := t.mem) hp q
    have hrelink : relink (p :: path) q t
        = { t with mem := if p.cmp < 0 then t.mem.setLeft p.node q
        else t.mem.setRight p.node q } := by
      rw [relink]
      split_ifs <;> rfl
    rw [hrelink]
    refine ⟨by rw [hlinks]; exact h.relink hn q, fun b hb => ?_, hroot (by simp)⟩
    rw [hlinks]
    refine Frame.relink_of_ne ?_ q
    rintro rfl
    refine hb ?_
    rw [before, after]
    split_ifs <;> simp

/-- **The last link of an operation**: the tree at the open place is linked to the path or made the
root. -/
lemma relink_spec (hpath : Follows path fs) (h : Open t.mem.links tree child fs)
    (hroot : fs ≠ [] → t.root = top none fs) :
    (relink path tree.root t).Represents (fill tree fs) := by
  obtain ⟨hholds, hsame, htop⟩ := relink_path hpath h.path h.nodup_path hroot tree.root
  refine ⟨by rw [htop, root_fill], holds_fill.2 ⟨h.holds.congr fun b hb => ?_, hholds⟩,
    toList_fill tree fs ▸ h.nodup⟩
  exact hsame b (h.not_mem_path hb)

end Path

/-! ## The order of the nodes -/

/-- The nodes of a tree in the order of their keys. -/
def Sorted (cmp : NodePtr → NodePtr → ℤ) (nodes : List NodePtr) : Prop :=
  nodes.Pairwise fun a b => cmp a b < 0

section Sorted

variable {cmp : NodePtr → NodePtr → ℤ} {c : Bool} {l r : ColorTree NodePtr} {a : NodePtr}

/-- The order at a node. -/
lemma sorted_node : Sorted cmp (ColorTree.node c l a r).toList ↔ Sorted cmp l.toList ∧
    Sorted cmp r.toList ∧
    (∀ b ∈ l.toList, cmp b a < 0) ∧ (∀ b ∈ r.toList, cmp a b < 0) ∧
    ∀ b ∈ l.toList, ∀ d ∈ r.toList, cmp b d < 0 := by
  simp only [Sorted, toList_node, List.pairwise_append, List.pairwise_cons, List.mem_cons]
  constructor
  · rintro ⟨hl, ⟨har, hr⟩, hlr⟩
    exact ⟨hl, hr, fun b hb => hlr b hb a (.inl rfl), har, fun b hb d hd => hlr b hb d (.inr hd)⟩
  · rintro ⟨hl, hr, hla, har, hlr⟩
    refine ⟨hl, ⟨har, hr⟩, ?_⟩
    rintro b hb d (rfl | hd)
    · exact hla b hb
    · exact hlr b hb d hd

/-- Nodes in order are distinct. -/
lemma Sorted.nodup (hcmp : TotalPreorderCmp cmp) {nodes : List NodePtr} (h : Sorted cmp nodes) :
    nodes.Nodup := by
  refine h.imp fun {b d} hlt heq => ?_
  rw [heq, hcmp.refl] at hlt
  omega

end Sorted

end OceanBase.Container.RbTree
