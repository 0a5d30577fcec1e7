import Mathlib.Data.List.Basic
import Mathlib.Tactic.Ring

/-!
# Pieces of a buffer

A buffer seen as pieces of `n` elements, the last one shorter.
-/

namespace Rdpio.Lib

variable {α : Type*} {n q : ℕ} {l l' p : List α}

def piece (n q : ℕ) (l : List α) : List α := (l.drop (q * n)).take n

def putPiece (n q : ℕ) (l p : List α) : List α :=
  l.take (q * n) ++ p.take (piece n q l).length ++ l.drop (q * n + (piece n q l).length)

theorem length_piece (n q : ℕ) (l : List α) : (piece n q l).length = min n (l.length - q * n) := by
  rw [piece, List.length_take, List.length_drop]

theorem length_piece_congr (h : l.length = l'.length) : (piece n q l).length = (piece n q l').length := by
  rw [length_piece, length_piece, h]

theorem getElem?_piece (n q : ℕ) (l : List α) (t : ℕ) :
    (piece n q l)[t]? = if t < n then l[q * n + t]? else none := by
  rw [piece, List.getElem?_take, List.getElem?_drop]

variable (hp : n ≤ p.length)

include hp

theorem length_putPiece (q : ℕ) (l : List α) : (putPiece n q l p).length = l.length := by
  unfold putPiece
  simp only [List.length_append, List.length_take, List.length_drop, length_piece]
  omega

theorem getElem?_putPiece (q : ℕ) (l : List α) (j : ℕ) :
    (putPiece n q l p)[j]? = if q * n ≤ j ∧ j < q * n + (piece n q l).length then p[j - q * n]? else l[j]? := by
  have hroom := length_piece n q l
  unfold putPiece
  generalize hm : (piece n q l).length = m at hroom ⊢
  -- The position is before the piece, in it, or behind it.
  rcases Nat.lt_or_ge j (q * n) with hlt | hge
  · rw [if_neg (by omega), List.append_assoc]
    rcases Nat.lt_or_ge j l.length with hin | hout
    · rw [List.getElem?_append_left (by rw [List.length_take]; omega), List.getElem?_take, if_pos hlt]
    · have hzero : m = 0 := by omega
      rw [List.getElem?_eq_none hout, List.getElem?_eq_none]
      simp only [List.length_append, List.length_take, List.length_drop]
      omega
  · by_cases hin : j < q * n + m
    · rw [if_pos ⟨hge, hin⟩, List.append_assoc, List.getElem?_append_right (by rw [List.length_take]; omega),
        List.getElem?_append_left (by simp only [List.length_take]; omega), List.length_take,
        List.getElem?_take, if_pos (by omega), Nat.min_eq_left (by omega)]
    · rw [if_neg (by omega)]
      rcases Nat.lt_or_ge j l.length with hj | hout
      · rw [List.getElem?_append_right (by simp only [List.length_append, List.length_take]; omega),
          List.getElem?_drop]
        congr 1
        simp only [List.length_append, List.length_take]
        omega
      · rw [List.getElem?_eq_none hout, List.getElem?_eq_none]
        simp only [List.length_append, List.length_take, List.length_drop]
        omega

theorem piece_putPiece_self (q : ℕ) (l : List α) : piece n q (putPiece n q l p) = p.take (piece n q l).length := by
  have hroom := length_piece n q l
  apply List.ext_getElem?
  intro t
  rw [getElem?_piece, getElem?_putPiece hp, List.getElem?_take, Nat.add_sub_cancel_left]
  by_cases ht : t < (piece n q l).length
  · rw [if_pos (by omega), if_pos (by omega), if_pos ht]
  · rw [if_neg ht]
    split_ifs
    · omega
    · rw [List.getElem?_eq_none (by omega)]
    · rfl

theorem piece_putPiece_of_ne {q q' : ℕ} (hne : q ≠ q') (l : List α) : piece n q' (putPiece n q l p) = piece n q' l := by
  have hroom := length_piece n q l
  apply List.ext_getElem?
  intro t
  rw [getElem?_piece, getElem?_piece, getElem?_putPiece hp]
  split_ifs with ht hin
  · -- Two pieces have no position in common.
    exfalso
    rcases Nat.lt_or_gt_of_ne hne with hlt | hgt
    · have := Nat.mul_le_mul_right n hlt
      rw [Nat.succ_mul] at this
      omega
    · have := Nat.mul_le_mul_right n hgt
      rw [Nat.succ_mul] at this
      omega
  · rfl
  · rfl

omit hp

theorem ext_piece (hn : 0 < n) (hlen : l.length = l'.length)
    (h : ∀ q, q * n < l.length → piece n q l = piece n q l') : l = l' := by
  apply List.ext_getElem?
  intro j
  rcases Nat.lt_or_ge j l.length with hj | hj
  · have hdiv := Nat.div_add_mod' j n
    have hpiece := congrArg (·[j % n]?) (h (j / n) (by omega))
    rwa [getElem?_piece, getElem?_piece, if_pos (Nat.mod_lt j hn), if_pos (Nat.mod_lt j hn), hdiv] at hpiece
  · rw [List.getElem?_eq_none hj, List.getElem?_eq_none (hlen ▸ hj)]

theorem length_flatten_of {L : List (List α)} (h : ∀ b ∈ L, b.length = n) : L.flatten.length = L.length * n := by
  induction L with
  | nil => exact (Nat.zero_mul n).symm
  | cons b L ih =>
    rw [List.flatten_cons, List.length_append, h b List.mem_cons_self, ih fun b hb => h b (List.mem_cons_of_mem _ hb),
      List.length_cons, Nat.succ_mul, Nat.add_comm]

theorem piece_flatten {L : List (List α)} (h : ∀ b ∈ L, b.length = n) {i : ℕ} (hi : i < L.length) :
    piece n i L.flatten = L[i] := by
  induction L generalizing i with
  | nil => exact absurd hi (Nat.not_lt_zero i)
  | cons b L ih =>
    have hb := h b List.mem_cons_self
    cases i with
    | zero => rw [piece, Nat.zero_mul, List.drop_zero, List.flatten_cons, List.take_left' hb, List.getElem_cons_zero]
    | succ i =>
      have hrest := ih (fun b hb => h b (List.mem_cons_of_mem _ hb)) (Nat.lt_of_succ_lt_succ hi)
      rw [piece, Nat.succ_mul, Nat.add_comm, List.flatten_cons, ← List.drop_drop, List.drop_left' hb,
        List.getElem_cons_succ, ← hrest, piece]

end Rdpio.Lib
