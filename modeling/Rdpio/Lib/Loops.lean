import Mathlib.Data.List.FinRange

/-!
# Counted loops

A loop over `0..n` is a fold over `List.range n` or, where the body needs its index in bounds, over
`List.finRange n`.
-/

namespace Rdpio.Lib

variable {σ : Type*} {n : ℕ}

theorem take_finRange_succ {i : ℕ} (hi : i < n) :
    (List.finRange n).take (i + 1) = (List.finRange n).take i ++ [⟨i, hi⟩] := by
  rw [List.take_add_one]
  congr 1
  simp [hi]

theorem foldl_range_rule (P : ℕ → σ → Prop) {f : σ → ℕ → σ} {s : σ} (hinit : P 0 s)
    (hstep : ∀ i s, i < n → P i s → P (i + 1) (f s i)) : P n ((List.range n).foldl f s) := by
  induction n with
  | zero => exact hinit
  | succ n ih =>
    rw [List.range_succ, List.foldl_append, List.foldl_cons, List.foldl_nil]
    exact hstep n _ (Nat.lt_succ_self n) (ih fun i s hi => hstep i s (by omega))

theorem foldl_range_rel {τ : Type*} (R : ℕ → σ → τ → Prop) {f : σ → ℕ → σ} {g : τ → ℕ → τ} {s : σ}
    {t : τ} (hinit : R 0 s t) (hstep : ∀ i s t, i < n → R i s t → R (i + 1) (f s i) (g t i)) :
    R n ((List.range n).foldl f s) ((List.range n).foldl g t) := by
  induction n with
  | zero => exact hinit
  | succ n ih =>
    rw [List.range_succ, List.foldl_append, List.foldl_append]
    exact hstep n _ _ (Nat.lt_succ_self n) (ih fun i s t hi => hstep i s t (by omega))

theorem foldl_finRange_rule (P : ℕ → σ → Prop) {f : σ → Fin n → σ} {s : σ} (hinit : P 0 s)
    (hstep : ∀ (i : Fin n) s, P i s → P (i + 1) (f s i)) : P n ((List.finRange n).foldl f s) := by
  have hpart : ∀ i ≤ n, P i (((List.finRange n).take i).foldl f s) := by
    intro i hi
    induction i with
    | zero => exact hinit
    | succ i ih =>
      rw [take_finRange_succ hi, List.foldl_append, List.foldl_cons, List.foldl_nil]
      exact hstep ⟨i, hi⟩ _ (ih (by omega))
  have hall := hpart n (Nat.le_refl n)
  rwa [List.take_of_length_le (by rw [List.length_finRange])] at hall

theorem foldlM_finRange_rule (P : ℕ → σ → Prop) {f : σ → Fin n → Option σ} {s : σ} (hinit : P 0 s)
    (hstep : ∀ (i : Fin n) s, P i s → ∃ s', f s i = some s' ∧ P (i + 1) s') :
    ∃ s', (List.finRange n).foldlM f s = some s' ∧ P n s' := by
  have hpart : ∀ i ≤ n, ∃ s', ((List.finRange n).take i).foldlM f s = some s' ∧ P i s' := by
    intro i hi
    induction i with
    | zero => exact ⟨s, rfl, hinit⟩
    | succ i ih =>
      obtain ⟨s', hs', hP⟩ := ih (by omega)
      obtain ⟨s'', hs'', hP'⟩ := hstep ⟨i, hi⟩ s' hP
      refine ⟨s'', ?_, hP'⟩
      rw [take_finRange_succ hi, List.foldlM_append, hs']
      simp [hs'']
  have hall := hpart n (Nat.le_refl n)
  rwa [List.take_of_length_le (by rw [List.length_finRange])] at hall

end Rdpio.Lib
