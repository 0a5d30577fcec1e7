import Mathlib.LinearAlgebra.Matrix.RowCol
import Mathlib.Tactic.FieldSimp
import Mathlib.Tactic.LinearCombination

/-!
# Gauss-Jordan elimination

Inverting a square matrix `A` of trivial kernel by row operations on `A` and on the identity side by side.
-/

namespace Rdpio.Lib

open Matrix

variable {F : Type*} [Field F] {e : ℕ}

/-- `b` took `A` to `a`, which has a trivial kernel and whose first `col` columns are done. -/
structure Reduced (A a b : Matrix (Fin e) (Fin e) F) (col : ℕ) : Prop where
  mul_eq : b * A = a
  kernel : ∀ v, a *ᵥ v = 0 → v = 0
  column : ∀ i j : Fin e, j.val < col → a i j = if i = j then 1 else 0

def swapRows (a : Matrix (Fin e) (Fin e) F) (i j : Fin e) : Matrix (Fin e) (Fin e) F := fun r => a (Equiv.swap i j r)

/-- Row `i` times `f`. -/
def scaleRow (a : Matrix (Fin e) (Fin e) F) (i : Fin e) (f : F) : Matrix (Fin e) (Fin e) F := a.updateRow i (f • a i)

/-- Row `r` less `f` times row `i`. -/
def subRow (a : Matrix (Fin e) (Fin e) F) (r i : Fin e) (f : F) : Matrix (Fin e) (Fin e) F :=
  a.updateRow r (a r - f • a i)

theorem Reduced.init {A : Matrix (Fin e) (Fin e) F} (hker : ∀ v, A *ᵥ v = 0 → v = 0) : Reduced A A 1 0 where
  mul_eq := one_mul A
  kernel := hker
  column _ _ hj := absurd hj (Nat.not_lt_zero _)

section

variable {A a b : Matrix (Fin e) (Fin e) F} {n : ℕ}

theorem row_mul (b A : Matrix (Fin e) (Fin e) F) (i : Fin e) : (b * A) i = b i ᵥ* A := by
  ext j
  rfl

theorem Reduced.exists_pivot (h : Reduced A a b n) {col : Fin e} (hcol : col.val = n) : ∃ r, col ≤ r ∧ a r col ≠ 0 := by
  by_contra hno
  push Not at hno
  let v : Fin e → F := fun j => if j < col then -a j col else if j = col then 1 else 0
  have hv : a *ᵥ v = 0 := by
    ext i
    rw [Matrix.mulVec, dotProduct, Pi.zero_apply]
    have hterm : ∀ j, a i j * v j =
        (if i = j then (if i < col then -a i col else 0) else 0) + if j = col then a i col else 0 := by
      intro j
      dsimp only [v]
      rcases lt_trichotomy j col with hlt | rfl | hgt
      · rw [if_pos hlt, h.column i j (by omega), if_neg hlt.ne]
        by_cases hij : i = j
        · subst hij
          simp [hlt]
        · simp [hij]
      · rw [if_neg (lt_irrefl j), if_pos rfl, if_pos rfl]
        by_cases hij : i = j
        · subst hij
          simp
        · simp [hij]
      · rw [if_neg hgt.not_gt, if_neg hgt.ne', if_neg hgt.ne']
        by_cases hij : i = j
        · subst hij
          simp [hgt.not_gt]
        · simp [hij]
    rw [Finset.sum_congr rfl fun j _ => hterm j, Finset.sum_add_distrib]
    simp only [Finset.sum_ite_eq, Finset.sum_ite_eq', Finset.mem_univ, if_true]
    by_cases hi : i < col
    · rw [if_pos hi, neg_add_cancel]
    · rw [if_neg hi, hno i (not_lt.mp hi), add_zero]
  have hone := congrFun (h.kernel v hv) col
  simp [v] at hone

theorem Reduced.swap (h : Reduced A a b n) {i j : Fin e} (hi : n ≤ i.val) (hj : n ≤ j.val) :
    Reduced A (swapRows a i j) (swapRows b i j) n where
  mul_eq := by
    ext r : 1
    rw [row_mul, swapRows, swapRows, ← row_mul, h.mul_eq]
  kernel v hv := by
    refine h.kernel v (funext fun r => ?_)
    have hr := congrFun hv (Equiv.swap i j r)
    simpa [Matrix.mulVec, swapRows] using hr
  column r c hc := by
    have hfix : Equiv.swap i j r = c ↔ r = c := by
      constructor
      · intro heq
        have hrc : r = Equiv.swap i j c := by rw [← heq, Equiv.swap_apply_self]
        rwa [Equiv.swap_apply_of_ne_of_ne (by rintro rfl; omega) (by rintro rfl; omega)] at hrc
      · rintro rfl
        exact Equiv.swap_apply_of_ne_of_ne (by rintro rfl; omega) (by rintro rfl; omega)
    rw [swapRows, h.column _ c hc]
    simp only [hfix]

theorem Reduced.scale (h : Reduced A a b n) {i : Fin e} (hi : n ≤ i.val) {f : F} (hf : f ≠ 0) :
    Reduced A (scaleRow a i f) (scaleRow b i f) n where
  mul_eq := by
    ext r : 1
    rw [row_mul]
    unfold scaleRow
    by_cases hr : r = i
    · subst hr
      rw [Matrix.updateRow_self, Matrix.updateRow_self, Matrix.smul_vecMul, ← row_mul, h.mul_eq]
    · rw [Matrix.updateRow_ne hr, Matrix.updateRow_ne hr, ← row_mul, h.mul_eq]
  kernel v hv := by
    refine h.kernel v (funext fun r => ?_)
    have hrow := congrFun hv r
    simp only [Matrix.mulVec, scaleRow] at hrow ⊢
    by_cases hr : r = i
    · subst hr
      rw [Matrix.updateRow_self, smul_dotProduct, smul_eq_mul, Pi.zero_apply] at hrow
      exact (mul_eq_zero.mp hrow).resolve_left hf
    · rwa [Matrix.updateRow_ne hr] at hrow
  column r c hc := by
    unfold scaleRow
    by_cases hr : r = i
    · subst hr
      have hne : r ≠ c := by rintro rfl; omega
      rw [Matrix.updateRow_self, Pi.smul_apply, h.column r c hc, if_neg hne, smul_zero]
    · rw [Matrix.updateRow_ne hr, h.column r c hc]

theorem Reduced.sub (h : Reduced A a b n) {r i : Fin e} (hi : n ≤ i.val) (hri : r ≠ i) (f : F) :
    Reduced A (subRow a r i f) (subRow b r i f) n where
  mul_eq := by
    ext s : 1
    rw [row_mul]
    unfold subRow
    by_cases hs : s = r
    · subst hs
      rw [Matrix.updateRow_self, Matrix.updateRow_self, Matrix.sub_vecMul, Matrix.smul_vecMul,
        ← row_mul, ← row_mul, h.mul_eq]
    · rw [Matrix.updateRow_ne hs, Matrix.updateRow_ne hs, ← row_mul, h.mul_eq]
  kernel v hv := by
    have hrow : ∀ s, subRow a r i f s ⬝ᵥ v = 0 := fun s => congrFun hv s
    have hpivot : a i ⬝ᵥ v = 0 := by
      have := hrow i
      rwa [subRow, Matrix.updateRow_ne hri.symm] at this
    refine h.kernel v (funext fun s => ?_)
    have hs := hrow s
    by_cases hsr : s = r
    · subst hsr
      rwa [subRow, Matrix.updateRow_self, sub_dotProduct, smul_dotProduct, hpivot, smul_zero, sub_zero] at hs
    · rwa [subRow, Matrix.updateRow_ne hsr] at hs
  column s c hc := by
    unfold subRow
    by_cases hs : s = r
    · subst hs
      have hne : i ≠ c := by rintro rfl; omega
      rw [Matrix.updateRow_self, Pi.sub_apply, Pi.smul_apply, h.column s c hc, h.column i c hc,
        if_neg hne, smul_zero, sub_zero]
    · rw [Matrix.updateRow_ne hs, h.column s c hc]

theorem Reduced.next (h : Reduced A a b n) {col : Fin e} (hcol : col.val = n)
    (hc : ∀ i, a i col = if i = col then 1 else 0) : Reduced A a b (n + 1) where
  mul_eq := h.mul_eq
  kernel := h.kernel
  column i j hj := by
    rcases Nat.lt_succ_iff_lt_or_eq.mp hj with hlt | heq
    · exact h.column i j hlt
    · have : j = col := Fin.ext (by omega)
      rw [this, hc i]

theorem Reduced.mul_eq_one (h : Reduced A a b e) : b * A = 1 := by
  rw [h.mul_eq]
  ext i j
  rw [h.column i j j.isLt, Matrix.one_apply]

end

end Rdpio.Lib
