import Mathlib.Data.List.Basic
import Mathlib.Order.Basic

/-!
# Cutting a list into chunks

`chunks n l` cuts `l` into pieces of `n` elements, the last one shorter, as a slice's `chunks` does.
-/

namespace Rdpio.Lib

variable {α : Type*}

/-- `chunks` with fuel: at most `fuel` pieces. -/
def chunksFuel (n : ℕ) : ℕ → List α → List (List α)
  | 0, _ => []
  | _ + 1, [] => []
  | fuel + 1, a :: l => (a :: l).take n :: chunksFuel n fuel ((a :: l).drop n)

def chunks (n : ℕ) (l : List α) : List (List α) := chunksFuel n l.length l

theorem chunksFuel_eq {n : ℕ} (hn : 0 < n) :
    ∀ (fuel : ℕ) (l : List α), l.length ≤ fuel → chunksFuel n fuel l = chunks n l
  | 0, l, h => by
    have : l = [] := List.length_eq_zero_iff.mp (by omega)
    subst this
    rfl
  | fuel + 1, [], _ => rfl
  | fuel + 1, a :: l, h => by
    have hd : ((a :: l).drop n).length ≤ l.length := by
      rw [List.length_drop, List.length_cons]
      omega
    have hl : l.length ≤ fuel := by simpa using h
    unfold chunks
    rw [List.length_cons, chunksFuel, chunksFuel, chunksFuel_eq hn fuel _ (by omega), chunksFuel_eq hn l.length _ hd]

@[simp]
theorem chunks_nil (n : ℕ) : chunks n ([] : List α) = [] := rfl

theorem chunks_of_ne_nil {n : ℕ} (hn : 0 < n) {l : List α} (hl : l ≠ []) :
    chunks n l = l.take n :: chunks n (l.drop n) := by
  obtain ⟨a, l, rfl⟩ := List.exists_cons_of_ne_nil hl
  have hd : ((a :: l).drop n).length ≤ l.length := by
    rw [List.length_drop, List.length_cons]
    omega
  conv_lhs => rw [chunks, List.length_cons, chunksFuel, chunksFuel_eq hn _ _ hd]

theorem chunks_induction {n : ℕ} (hn : 0 < n) {P : List α → Prop} (nil : P [])
    (cons : ∀ l, l ≠ [] → P (l.drop n) → P l) (l : List α) : P l := by
  induction hk : l.length using Nat.strongRecOn generalizing l with
  | ind k ih =>
    by_cases hl : l = []
    · rw [hl]
      exact nil
    · have hpos := List.length_pos_iff.mpr hl
      refine cons l hl (ih _ ?_ _ rfl)
      rw [List.length_drop]
      omega

theorem flatten_chunks {n : ℕ} (hn : 0 < n) (l : List α) : (chunks n l).flatten = l := by
  induction l using chunks_induction hn with
  | nil => rfl
  | cons l hl ih => rw [chunks_of_ne_nil hn hl, List.flatten_cons, ih, List.take_append_drop]

theorem length_le_of_mem_chunks {n : ℕ} (hn : 0 < n) {l p : List α} (hp : p ∈ chunks n l) : p.length ≤ n := by
  induction l using chunks_induction hn with
  | nil => simp at hp
  | cons l hl ih =>
    rw [chunks_of_ne_nil hn hl, List.mem_cons] at hp
    rcases hp with rfl | hp
    · exact List.length_take_le n l
    · exact ih hp

theorem length_pos_of_mem_chunks {n : ℕ} (hn : 0 < n) {l p : List α} (hp : p ∈ chunks n l) : 0 < p.length := by
  induction l using chunks_induction hn with
  | nil => simp at hp
  | cons l hl ih =>
    rw [chunks_of_ne_nil hn hl, List.mem_cons] at hp
    rcases hp with rfl | hp
    · have := List.length_pos_iff.mpr hl
      rw [List.length_take]
      omega
    · exact ih hp

theorem length_chunks_le {n : ℕ} (hn : 0 < n) {k : ℕ} {l : List α} (h : l.length ≤ k * n) :
    (chunks n l).length ≤ k := by
  induction l using chunks_induction hn generalizing k with
  | nil => exact Nat.zero_le k
  | cons l hl ih =>
    have hpos := List.length_pos_iff.mpr hl
    rw [chunks_of_ne_nil hn hl, List.length_cons]
    cases k with
    | zero => omega
    | succ k =>
      rw [Nat.succ_mul] at h
      exact Nat.succ_le_succ (ih (by rw [List.length_drop]; omega))

theorem chunks_ne_nil {n : ℕ} (hn : 0 < n) {l : List α} (hl : l ≠ []) : chunks n l ≠ [] := by
  rw [chunks_of_ne_nil hn hl]
  exact List.cons_ne_nil _ _

end Rdpio.Lib
