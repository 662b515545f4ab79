import DailyReadCoding.Bitcoin.Script.Interpreter

/-!
# The stack of conditions

`ConditionStack` keeps the size of a stack of truth values and the position of its first false
value.
-/

namespace Bitcoin.Script.ConditionStack

open List Nat

inductive Op
  | push_back (f : Bool)
  | toggle_top
  | pop_back

def Op.apply (s : ConditionStack) : Op → Except Halt ConditionStack
  | .push_back f => .ok (s.push_back f)
  | .toggle_top => s.toggle_top
  | .pop_back => s.pop_back

/-- The operation on the stack itself, of at most `2 ^ 32 - 2` levels. -/
def Op.onStack : List Bool → Op → Option (List Bool)
  | st, .push_back f => if st.length < 2 ^ 32 - 2 then some (f :: st) else none
  | f :: st, .toggle_top => some ((!f) :: st)
  | _ :: st, .pop_back => some st
  | [], _ => none

/-- The position of the first false value, from the bottom. -/
def firstFalse : List Bool → BitVec 32
  | [] => NO_FALSE
  | f :: st => if firstFalse st = NO_FALSE ∧ !f then .ofNat 32 st.length else firstFalse st

def ofStack (st : List Bool) : ConditionStack := ⟨.ofNat 32 st.length, firstFalse st⟩

lemma firstFalse_lt : ∀ st : List Bool, firstFalse st = NO_FALSE ∨ (firstFalse st).toNat < st.length
  | [] => .inl rfl
  | f :: st => by
    have ih := firstFalse_lt st
    rw [firstFalse]
    split_ifs
    · exact .inr (lt_succ_of_le (mod_le _ _))
    · exact ih.imp_right lt_succ_of_lt

lemma size_cons (f : Bool) (st : List Bool) :
    (ofStack (f :: st)).m_stack_size = .ofNat 32 st.length + 1 := BitVec.ofNat_add st.length 1

lemma push_back_ofStack (st : List Bool) (f : Bool) : (ofStack st).push_back f = ofStack
    (f :: st) := by
  rw [push_back, show (ofStack st).m_stack_size + 1 = _ from (size_cons f st).symm]
  rfl

lemma size_sub_one (f : Bool) (st : List Bool) :
    (ofStack (f :: st)).m_stack_size - 1 = .ofNat 32 st.length := by
  rw [size_cons, BitVec.add_sub_cancel]

section Bounded

variable {st : List Bool} (h : st.length < 2 ^ 32 - 2)
include h

lemma toNat_length : (BitVec.ofNat 32 st.length).toNat = st.length := mod_eq_of_lt (by omega)

lemma length_ne_noFalse : BitVec.ofNat 32 st.length ≠ NO_FALSE := by
  intro heq
  have hlen := toNat_length h
  rw [heq, show NO_FALSE.toNat = 2 ^ 32 - 1 from rfl] at hlen
  omega

/-- A first false value lies below the size. -/
lemma firstFalse_ne_length : firstFalse st ≠ .ofNat 32 st.length := by
  rcases firstFalse_lt st with heq | hlt
  · rw [heq]
    exact (length_ne_noFalse h).symm
  · intro heq
    rw [heq, toNat_length h] at hlt
    exact lt_irrefl _ hlt

lemma size_ne_zero (f : Bool) : (ofStack (f :: st)).m_stack_size ≠ 0 := by
  intro heq
  have hsize := congrArg BitVec.toNat heq
  rw [size_cons, BitVec.toNat_add, toNat_length h] at hsize
  simp only [BitVec.reduceToNat] at hsize
  omega

lemma toggle_top_ofStack (f : Bool) : (ofStack (f :: st)).toggle_top = .ok
    (ofStack ((!f) :: st)) := by
  have hlen := length_ne_noFalse h
  have hne := firstFalse_ne_length h
  rw [toggle_top, if_neg (size_ne_zero h f), size_sub_one]
  by_cases hst : firstFalse st = NO_FALSE <;> cases f <;> simp [ofStack, firstFalse, hst, hlen, hne]

lemma pop_back_ofStack (f : Bool) : (ofStack (f :: st)).pop_back = .ok (ofStack st) := by
  have hne := firstFalse_ne_length h
  rw [pop_back, if_neg (size_ne_zero h f), size_sub_one]
  by_cases hst : firstFalse st = NO_FALSE <;> cases f <;> simp [ofStack, firstFalse, hst, hne]

end Bounded

lemma all_true_ofStack : ∀ {st : List Bool},
    st.length ≤ 2 ^ 32 - 2 → (ofStack st).all_true = st.all id
  | [], _ => rfl
  | f :: st, h => by
    have ih := all_true_ofStack (le_of_succ_le h)
    have hlen := length_ne_noFalse h
    rw [all_cons, ← ih]
    simp only [all_true, ofStack, firstFalse]
    by_cases hst : firstFalse st = NO_FALSE <;> cases f <;> simp [hst, hlen]

/-- An operation keeps to the stack, whose size stays within the limit. -/
lemma apply_ofStack {st st' : List Bool} {op : Op} (h : st.length ≤ 2 ^ 32 - 2)
    (hop : op.onStack st = some st') : op.apply (ofStack st) = .ok (ofStack st') ∧
    st'.length ≤ 2 ^ 32 - 2 := by
  cases op with
  | push_back f =>
    obtain ⟨hlt, rfl⟩ : st.length < 2 ^ 32 - 2 ∧ f :: st = st' := by simpa [Op.onStack] using hop
    exact ⟨congrArg _ (push_back_ofStack st f), hlt⟩
  | toggle_top =>
    obtain _ | ⟨f, st⟩ := st
    · cases hop
    · cases hop
      exact ⟨toggle_top_ofStack h f, h⟩
  | pop_back =>
    obtain _ | ⟨f, st⟩ := st
    · cases hop
    · cases hop
      exact ⟨pop_back_ofStack h f, le_of_succ_le h⟩

lemma run_ofStack {ops : List Op} {st st' : List Bool} (h : st.length ≤ 2 ^ 32 - 2)
    (hrun : ops.foldlM Op.onStack st = some st') :
    ops.foldlM Op.apply (ofStack st) = .ok (ofStack st') ∧ st'.length ≤ 2 ^ 32 - 2 := by
  induction ops generalizing st with
  | nil =>
    cases hrun
    exact ⟨rfl, h⟩
  | cons op ops ih =>
    obtain ⟨mid, hop, hrest⟩ := Option.bind_eq_some_iff.1 hrun
    obtain ⟨happly, hmid⟩ := apply_ofStack h hop
    rw [foldlM_cons, happly]
    exact ih hmid hrest

/-- **The answers are those of the stack**: every run of the stack is one of the `ConditionStack`,
where no assertion fails. -/
theorem empty_all_true_of_run {ops : List Op} {st : List Bool}
    (h : ops.foldlM Op.onStack [] = some st) :
    ∃ s, ops.foldlM Op.apply new = .ok s ∧ s.empty = st.isEmpty ∧ s.all_true = st.all id := by
  obtain ⟨hrun, hlen⟩ := run_ofStack (Nat.zero_le _) h
  refine ⟨ofStack st, hrun, ?_, all_true_ofStack hlen⟩
  cases st with
  | nil => rfl
  | cons f st => exact decide_eq_false (size_ne_zero hlen f)

theorem empty_all_true_of_run_toggled : ∃ s,
    [Op.push_back true, .push_back false, .toggle_top, .pop_back].foldlM Op.apply new = .ok s ∧
      s.empty = false ∧ s.all_true = true :=
  @empty_all_true_of_run _ [true] rfl

end Bitcoin.Script.ConditionStack
