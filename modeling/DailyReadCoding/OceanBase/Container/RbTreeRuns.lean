import Mathlib
import DailyReadCoding.OceanBase.Container.RbTreeInsert
import DailyReadCoding.OceanBase.Container.RbTreeRemove
import DailyReadCoding.OceanBase.Container.RbTreeSearch

/-!
# Runs of `ObRbTree`

The abstract tree is the set of nodes in it. `Stores` relates the memory to that set; an insertion
and a removal keep it, and so does every run of them from the empty tree.

The paths are arrays of `pathLength` entries that nothing checks. They are long enough: there are
fewer than `2 ^ 63` addresses a node can have, and a left-leaning tree is at most twice as high as
the logarithm of its size.
-/

namespace OceanBase.Container.RbTree

open LinkedTree List BitVec

/-! ## The size of a tree -/

lemma NodePtr.even (p : NodePtr) : p.addr.toNat % 2 = 0 := by
  have h := congrArg BitVec.toNat p.aligned
  simpa [Nat.and_one_is_mod] using h

/-- Half of the address tells the nodes apart. -/
lemma NodePtr.half_injective : Function.Injective fun p : NodePtr => p.addr.toNat / 2 := by
  rintro ⟨a, ha, ha'⟩ ⟨b, hb, hb'⟩ heq
  have heven := NodePtr.even ⟨a, ha, ha'⟩
  have heven' := NodePtr.even ⟨b, hb, hb'⟩
  have hab : a = b := eq_of_toNat_eq (by dsimp only at heq heven heven'; omega)
  subst hab
  rfl

lemma NodePtr.half_mem (p : NodePtr) : p.addr.toNat / 2 ∈ Finset.Ico 1 (2 ^ 63) := by
  have heven := p.even
  have hpos : p.addr.toNat ≠ 0 := fun h => p.nonnull (eq_of_toNat_eq (by simpa using h))
  rw [Finset.mem_Ico]
  omega

lemma nodup_length_lt {nodes : List NodePtr} (h : nodes.Nodup) : nodes.length < 2 ^ 63 := by
  have hcard : nodes.toFinset.card ≤ (Finset.Ico 1 (2 ^ 63)).card :=
    Finset.card_le_card_of_injOn (fun p => p.addr.toNat / 2) (fun p _ => p.half_mem)
      NodePtr.half_injective.injOn
  rw [toFinset_card_of_nodup h, Nat.card_Ico] at hcard
  omega

lemma Balanced.height_lt {tree : ColorTree NodePtr} (h : Balanced tree) (hn : tree.toList.Nodup) :
    tree.height < pathLength := by
  have := h.height_le (nodup_length_lt hn)
  unfold pathLength
  omega

/-! ## Operations -/

inductive RbOp
  | insert (node : NodePtr)
  | remove (node : NodePtr)

def RbOp.call (cmp : NodePtr → NodePtr → ℤ) : RbOp → ObRbTree → Except Fault (Ret × ObRbTree)
  | .insert node, t => RbTree.insert cmp (some node) t
  | .remove node, t => RbTree.remove cmp (some node) t

/-- A run of operations, with the codes they return. -/
def calls (cmp : NodePtr → NodePtr → ℤ) : List RbOp → ObRbTree → Except Fault (List Ret × ObRbTree)
  | [], t => .ok ([], t)
  | op :: ops, t => do
      let (ret, t) ← op.call cmp t
      let (rets, t) ← calls cmp ops t
      pure (ret :: rets, t)

/-- What an operation does to the set of nodes. -/
def RbOp.apply : RbOp → Finset NodePtr → Finset NodePtr
  | .insert node, nodes => Insert.insert node nodes
  | .remove node, nodes => nodes.erase node

/-- The nodes that were inserted and not removed again. -/
def contents (ops : List RbOp) (nodes : Finset NodePtr) : Finset NodePtr :=
  ops.foldl (fun nodes op => op.apply nodes) nodes

/-- Only keys that are not there are inserted, and only nodes that are there are removed. -/
def RbOp.Allowed (cmp : NodePtr → NodePtr → ℤ) : RbOp → Finset NodePtr → Prop
  | .insert node, nodes => ∀ b ∈ nodes, cmp node b ≠ 0
  | .remove node, nodes => node ∈ nodes

def Allowed (cmp : NodePtr → NodePtr → ℤ) : List RbOp → Finset NodePtr → Prop
  | [], _ => True
  | op :: ops, nodes => op.Allowed cmp nodes ∧ Allowed cmp ops (op.apply nodes)

/-- The memory holds the nodes of the set in a balanced search tree. -/
structure Stores (cmp : NodePtr → NodePtr → ℤ) (t : ObRbTree) (tree : ColorTree NodePtr)
    (nodes : Finset NodePtr) : Prop where
  represents : t.Represents tree
  balanced : Balanced tree
  sorted : Sorted cmp tree.toList
  nodes_eq : tree.toList.toFinset = nodes

section Runs

variable {cmp : NodePtr → NodePtr → ℤ} {t : ObRbTree} {tree : ColorTree NodePtr}
  {nodes : Finset NodePtr}

lemma stores_empty (cmp : NodePtr → NodePtr → ℤ) (mem : Memory) : Stores cmp ⟨none,
    mem⟩ .nil ∅ where
  represents := ⟨rfl, trivial, nodup_nil⟩
  balanced := ⟨rfl, 0, rfl⟩
  sorted := List.Pairwise.nil
  nodes_eq := rfl

lemma Stores.height_lt (h : Stores cmp t tree nodes) : tree.height < pathLength :=
  Balanced.height_lt h.balanced h.represents.nodup

lemma Stores.mem_iff (h : Stores cmp t tree nodes) (b : NodePtr) : b ∈ tree.toList ↔ b ∈ nodes := by
  rw [← h.nodes_eq, mem_toFinset]

lemma Stores.call (hcmp : TotalPreorderCmp cmp) (h : Stores cmp t tree nodes) (op : RbOp)
    (hop : op.Allowed cmp nodes) :
    ∃ t' tree', op.call cmp t = .ok (.success, t') ∧ Stores cmp t' tree' (op.apply nodes) := by
  cases op with
  | insert node =>
    have hnew : ∀ b ∈ tree.toList, cmp node b ≠ 0 := fun b hb => hop b ((h.mem_iff b).1 hb)
    obtain ⟨t', tree', hrun, hrep, hbal, hsorted, hmem⟩ :=
      insert_spec hcmp h.represents h.balanced h.sorted hnew h.height_lt
    refine ⟨t', tree', hrun, hrep, hbal, hsorted, ?_⟩
    ext b
    rw [mem_toFinset, hmem, h.mem_iff, RbOp.apply, Finset.mem_insert]
  | remove node =>
    have hin : node ∈ tree.toList := (h.mem_iff node).2 hop
    obtain ⟨t', tree', hrun, hrep, hbal, us, vs, hlist, hlist'⟩ :=
      remove_spec hcmp h.represents h.balanced h.sorted hin h.height_lt
    have hsub : (us ++ vs).Sublist (us ++ node :: vs) :=
      List.Sublist.append_left (sublist_cons_self node vs) us
    refine ⟨t', tree', hrun, hrep, hbal, ?_, ?_⟩
    · have hsorted := h.sorted
      rw [hlist] at hsorted
      rw [hlist']
      exact hsorted.sublist hsub
    · have hnodup := h.represents.nodup
      rw [hlist, nodup_middle, nodup_cons] at hnodup
      ext b
      rw [RbOp.apply, Finset.mem_erase, ← h.nodes_eq, mem_toFinset, mem_toFinset, hlist,
        hlist', perm_middle.mem_iff, mem_cons]
      constructor
      · intro hb
        exact ⟨ne_of_mem_of_not_mem hb hnodup.1, .inr hb⟩
      · rintro ⟨hne, hb⟩
        exact hb.resolve_left hne

lemma Stores.calls (hcmp : TotalPreorderCmp cmp) (h : Stores cmp t tree nodes) (ops : List RbOp)
    (hops : Allowed cmp ops nodes) :
    ∃ rets t' tree', calls cmp ops t = .ok (rets, t') ∧ (∀ ret ∈ rets, ret = .success) ∧
      Stores cmp t' tree' (contents ops nodes) := by
  induction ops generalizing t tree nodes with
  | nil => exact ⟨[], t, tree, rfl, by simp, h⟩
  | cons op ops ih =>
    obtain ⟨t1, tree1, hcall, h1⟩ := h.call hcmp op hops.1
    obtain ⟨rets, t', tree', hrun, hrets, h'⟩ := ih h1 hops.2
    refine ⟨.success :: rets, t', tree', ?_, ?_, h'⟩
    · rw [RbTree.calls, Exec.bind_of_ok hcall]
      dsimp only
      rw [Exec.bind_of_ok hrun]
      rfl
    · exact forall_mem_cons.2 ⟨rfl, hrets⟩

end Runs

/-- Along every run from the empty tree nothing aborts, the tree holds the nodes inserted and not
removed in a left-leaning red-black search tree, and its searches answer as the sorted list does. -/
theorem rbTree_run_spec (cmp : NodePtr → NodePtr → ℤ) (hcmp : TotalPreorderCmp cmp) (mem : Memory)
    (ops : List RbOp) (hops : Allowed cmp ops ∅) :
    ∃ rets t tree, calls cmp ops ⟨none, mem⟩ = .ok (rets, t) ∧ (∀ ret ∈ rets, ret = .success) ∧
      t.Represents tree ∧ tree.toList.toFinset = contents ops ∅ ∧ Sorted cmp tree.toList ∧
      tree.isRed = false ∧ (∃ n, LeftLeaning tree n) ∧
      ∀ fuel ≥ pathLength, Searches cmp fuel t tree.toList := by
  obtain ⟨rets, t, tree, hrun, hrets, h⟩ := (stores_empty cmp mem).calls hcmp ops hops
  refine ⟨rets, t, tree, hrun, hrets, h.represents, h.nodes_eq, h.sorted,
    h.balanced.1, h.balanced.2,
    ?_⟩
  intro fuel hfuel
  exact searches_of_sorted hcmp h.represents h.sorted (Nat.lt_of_lt_of_le h.height_lt hfuel)

/-- The searches of such a tree take a number of steps that is logarithmic in the number of its
nodes. -/
theorem rbTree_run_search_steps (cmp : NodePtr → NodePtr → ℤ) (hcmp : TotalPreorderCmp cmp)
    (mem : Memory)
    (ops : List RbOp) (hops : Allowed cmp ops ∅) :
    ∃ rets t nodes, calls cmp ops ⟨none, mem⟩ = .ok (rets, t) ∧ nodes.toFinset = contents ops ∅ ∧
      Sorted cmp nodes ∧ ∀ steps > 2 * (contents ops ∅).card.size, Searches cmp steps t nodes := by
  obtain ⟨rets, t, tree, hrun, -, h⟩ := (stores_empty cmp mem).calls hcmp ops hops
  refine ⟨rets, t, _, hrun, h.nodes_eq, h.sorted, fun steps hsteps => ?_⟩
  have hheight := h.balanced.height_le tree.toList.length.lt_size_self
  rw [← toFinset_card_of_nodup h.represents.nodup, h.nodes_eq] at hheight
  exact searches_of_sorted hcmp h.represents h.sorted (by omega)

/-- Nodes ordered by their addresses. -/
def cmpAddr (a b : NodePtr) : ℤ := a.addr.toNat - b.addr.toNat

lemma cmpAddr_total : TotalPreorderCmp cmpAddr where
  swap x y := by unfold cmpAddr; omega
  trans x y z := by unfold cmpAddr; omega

/-- Four insertions and the removal of the node that is at the root by then. -/
def fourThenRoot : List RbOp :=
  let node (addr : BitVec 64) (h : addr ≠ 0#64) (h' : addr &&& 1#64 = 0#64) : NodePtr :=
    ⟨addr, h, h'⟩
  [.insert (node 16#64 (by decide) (by decide)), .insert (node 32#64 (by decide) (by decide)),
    .insert (node 48#64 (by decide) (by decide)), .insert (node 64#64 (by decide) (by decide)),
    .remove (node 32#64 (by decide) (by decide))]

theorem rbTree_run_spec_fourThenRoot : Allowed cmpAddr fourThenRoot ∅ ∧
    ∃ rets t tree, calls cmpAddr fourThenRoot ⟨none, fun _ => ⟨none, 0#64⟩⟩ = .ok (rets, t) ∧
      (∀ ret ∈ rets, ret = .success) ∧ t.Represents tree ∧
      tree.toList.toFinset = contents fourThenRoot ∅ ∧ Sorted cmpAddr tree.toList ∧
      tree.isRed = false ∧ (∃ n, LeftLeaning tree n) ∧
      ∀ fuel ≥ pathLength, Searches cmpAddr fuel t tree.toList := by
  have hops : Allowed cmpAddr fourThenRoot ∅ := by
    simp only [Allowed, fourThenRoot, RbOp.Allowed]
    decide
  exact ⟨hops, rbTree_run_spec cmpAddr cmpAddr_total _ fourThenRoot hops⟩

theorem rbTree_run_search_steps_fourThenRoot :
    ∃ rets t nodes, calls cmpAddr fourThenRoot ⟨none, fun _ => ⟨none, 0#64⟩⟩ = .ok (rets, t) ∧
      nodes.toFinset = contents fourThenRoot ∅ ∧ Sorted cmpAddr nodes ∧
      ∀ steps > 2 * (contents fourThenRoot ∅).card.size, Searches cmpAddr steps t nodes := by
  refine rbTree_run_search_steps cmpAddr cmpAddr_total _ fourThenRoot ?_
  simp only [Allowed, fourThenRoot, RbOp.Allowed]
  decide

end OceanBase.Container.RbTree
