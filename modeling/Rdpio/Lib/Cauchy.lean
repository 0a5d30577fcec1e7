import Mathlib.LinearAlgebra.Lagrange

/-!
# Cauchy matrices

A square matrix with entries `1 / (x i - y j)`, its nodes distinct, has a trivial kernel: a vector of it
gives a polynomial of degree less than the size that vanishes at every `x i`.
-/

namespace Rdpio.Lib

open Matrix Polynomial

variable {F : Type*} [Field F] {e : ℕ}

def cauchyMatrix (x y : Fin e → F) : Matrix (Fin e) (Fin e) F := fun i j => (x i - y j)⁻¹

/-- The product of `X - y l` over all `l` but `j`. -/
noncomputable def nodalWithout (y : Fin e → F) (j : Fin e) : F[X] := ∏ l ∈ Finset.univ.erase j, (X - C (y l))

theorem eval_nodalWithout (y : Fin e → F) (j : Fin e) (t : F) :
    (nodalWithout y j).eval t = ∏ l ∈ Finset.univ.erase j, (t - y l) := by
  simp [nodalWithout, Polynomial.eval_prod]

theorem degree_nodalWithout_lt (y : Fin e → F) (j : Fin e) : (nodalWithout y j).degree < e := by
  have hdeg : (nodalWithout y j).degree = ((Finset.univ.erase j).card : WithBot ℕ) := by
    simp [nodalWithout, Polynomial.degree_prod]
  have hcard : (Finset.univ.erase j).card < e := by
    have := Finset.card_erase_lt_of_mem (Finset.mem_univ j)
    rwa [Finset.card_univ, Fintype.card_fin] at this
  rw [hdeg]
  exact_mod_cast hcard

theorem eval_nodalWithout_of_ne (y : Fin e → F) {i j : Fin e} (hij : i ≠ j) : (nodalWithout y j).eval (y i) = 0 := by
  rw [eval_nodalWithout]
  exact Finset.prod_eq_zero (Finset.mem_erase.mpr ⟨hij, Finset.mem_univ i⟩) (sub_self _)

theorem eval_nodalWithout_self {y : Fin e → F} (hy : Function.Injective y) (j : Fin e) :
    (nodalWithout y j).eval (y j) ≠ 0 := by
  rw [eval_nodalWithout]
  refine Finset.prod_ne_zero_iff.mpr fun l hl => ?_
  exact sub_ne_zero.mpr fun heq => (Finset.mem_erase.mp hl).1 (hy heq).symm

theorem cauchyMatrix_mulVec_eq_zero {x y : Fin e → F} (hx : Function.Injective x)
    (hy : Function.Injective y) (hxy : ∀ i j, x i ≠ y j) {v : Fin e → F}
    (hv : cauchyMatrix x y *ᵥ v = 0) : v = 0 := by
  -- The polynomial whose values at the `x i` are the entries of the product, scaled.
  let p : F[X] := ∑ j, C (v j) * nodalWithout y j
  have hdeg : p.degree < (Finset.univ : Finset (Fin e)).card := by
    rw [Finset.card_univ, Fintype.card_fin]
    refine lt_of_le_of_lt (Polynomial.degree_sum_le _ _) ?_
    refine (Finset.sup_lt_iff (WithBot.bot_lt_coe e)).mpr ?_
    intro j _
    rw [← Polynomial.smul_eq_C_mul]
    exact lt_of_le_of_lt (Polynomial.degree_smul_le _ _) (degree_nodalWithout_lt y j)
  have hroot : ∀ i ∈ Finset.univ, p.eval (x i) = 0 := by
    intro i _
    have hfactor : ∀ j, v j * (nodalWithout y j).eval (x i) = (∏ l, (x i - y l)) * (cauchyMatrix x y i j * v j) := by
      intro j
      have hne : x i - y j ≠ 0 := sub_ne_zero.mpr (hxy i j)
      rw [eval_nodalWithout, ← Finset.mul_prod_erase _ _ (Finset.mem_univ j), cauchyMatrix]
      field_simp
    simp only [p, Polynomial.eval_finsetSum, Polynomial.eval_mul, Polynomial.eval_C]
    rw [Finset.sum_congr rfl fun j _ => hfactor j, ← Finset.mul_sum]
    have hrow := congrFun hv i
    rw [Matrix.mulVec, dotProduct, Pi.zero_apply] at hrow
    rw [hrow, mul_zero]
  have hp : p = 0 := eq_zero_of_degree_lt_of_eval_index_eq_zero Finset.univ hx.injOn hdeg hroot
  ext j
  have hval := congrArg (Polynomial.eval (y j)) hp
  simp only [p, Polynomial.eval_finsetSum, Polynomial.eval_mul, Polynomial.eval_C, Polynomial.eval_zero] at hval
  rw [Finset.sum_eq_single j (fun l _ hl => by rw [eval_nodalWithout_of_ne y hl.symm, mul_zero])
    (fun h => absurd (Finset.mem_univ j) h)] at hval
  exact (mul_eq_zero.mp hval).resolve_right (eval_nodalWithout_self hy j)

end Rdpio.Lib
