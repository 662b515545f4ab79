import Mathlib.Data.Int.Notation

/-!
# Three-way comparison

The containers compare with a function whose sign tells the order.
-/

namespace OceanBase.Container

variable {T : Type}

/-- `cmp` is negative, zero or positive as a total preorder says. -/
structure TotalPreorderCmp (cmp : T → T → ℤ) : Prop where
  swap : ∀ x y, cmp x y < 0 ↔ 0 < cmp y x
  trans : ∀ x y z, cmp x y ≤ 0 → cmp y z ≤ 0 → cmp x z ≤ 0

namespace TotalPreorderCmp

variable {cmp : T → T → ℤ}

variable (h : TotalPreorderCmp cmp)

include h

lemma refl (x : T) : cmp x x = 0 := by
  have := h.swap x x
  omega

lemma le_iff (x y : T) : cmp y x ≤ 0 ↔ 0 ≤ cmp x y := by
  have := h.swap x y
  omega

lemma lt_of_lt_of_le {x y z : T} (hxy : cmp x y < 0) (hyz : cmp y z ≤ 0) : cmp x z < 0 := by
  -- otherwise `y` would not be after `x`
  have hback := h.trans y z x hyz
  have hzx := h.le_iff x z
  have hyx := h.le_iff x y
  omega

lemma lt_of_le_of_lt {x y z : T} (hxy : cmp x y ≤ 0) (hyz : cmp y z < 0) : cmp x z < 0 := by
  have hback := h.trans z x y
  have hzx := h.le_iff x z
  have hzy := h.le_iff y z
  omega

lemma reverse : TotalPreorderCmp fun x y => cmp y x :=
  ⟨fun x y => h.swap y x, fun x y z hxy hyz => h.trans z y x hyz hxy⟩

end TotalPreorderCmp

end OceanBase.Container
