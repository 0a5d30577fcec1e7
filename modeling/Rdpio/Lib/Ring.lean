import Mathlib.Algebra.Order.Ring.Nat
import Mathlib.Data.List.Basic
import Mathlib.Data.List.Induction

/-!
# Ring buffers

A window of the last `n` values written, in a buffer of fixed size with a write position.
-/

namespace Rdpio.Lib

variable {α : Type*} {n : ℕ}

@[ext]
structure Ring (α : Type*) (n : ℕ) where
  buf : List α
  index : ℕ
  length_buf : buf.length = n
  index_lt : index < n

namespace Ring

def push (r : Ring α n) (a : α) : Ring α n where
  buf := r.buf.set r.index a
  index := if r.index + 1 = n then 0 else r.index + 1
  length_buf := by rw [List.length_set, r.length_buf]
  index_lt := by
    have := r.index_lt
    split_ifs <;> omega

def pushes (r : Ring α n) (src : List α) : Ring α n := src.foldl push r

@[simp]
theorem pushes_nil (r : Ring α n) : r.pushes [] = r := rfl

theorem pushes_append (r : Ring α n) (as bs : List α) : r.pushes (as ++ bs) = (r.pushes as).pushes bs :=
  List.foldl_append

theorem pushes_concat (r : Ring α n) (as : List α) (a : α) : r.pushes (as ++ [a]) = (r.pushes as).push a :=
  r.pushes_append as [a]

def write (r : Ring α n) (src : List α) : Ring α n :=
  if hn : n ≤ src.length then
    { buf := (src.drop (src.length - n)).drop (n - (r.index + src.length) % n) ++
        (src.drop (src.length - n)).take (n - (r.index + src.length) % n)
      index := (r.index + src.length) % n
      length_buf := by
        simp only [List.length_append, List.length_drop, List.length_take]
        omega
      index_lt := Nat.mod_lt _ (Nat.zero_lt_of_lt r.index_lt) }
  else
    { buf := src.drop (min src.length (n - r.index)) ++
        (r.buf.take r.index ++ src.take (min src.length (n - r.index)) ++
          r.buf.drop (r.index + min src.length (n - r.index))).drop (src.length - min src.length (n - r.index))
      index := (r.index + src.length) % n
      length_buf := by
        have := r.index_lt
        have := r.length_buf
        simp only [List.length_append, List.length_drop, List.length_take]
        omega
      index_lt := Nat.mod_lt _ (Nat.zero_lt_of_lt r.index_lt) }

def window (r : Ring α n) : List α := r.buf.drop r.index ++ r.buf.take r.index

@[simp]
theorem length_window (r : Ring α n) : r.window.length = n := by
  have := r.index_lt
  have := r.length_buf
  simp only [window, List.length_append, List.length_drop, List.length_take]
  omega

/-! ## Where a value goes -/

/-- How many pushes before position `j` is written. -/
def before (r : Ring α n) (j : ℕ) : ℕ := if r.index ≤ j then j - r.index else j + n - r.index

theorem index_pushes (r : Ring α n) (src : List α) : (r.pushes src).index = (r.index + src.length) % n := by
  induction src using List.reverseRecOn with
  | nil => exact (Nat.mod_eq_of_lt r.index_lt).symm
  | append_singleton as a ih =>
    have hlt := (r.pushes as).index_lt
    rw [pushes_concat, List.length_append, List.length_singleton, ← Nat.add_assoc, Nat.add_mod, ← ih]
    simp only [push]
    split_ifs with hend
    · rw [Nat.add_mod_mod, hend, Nat.mod_self]
    · rw [Nat.add_mod_mod]
      exact (Nat.mod_eq_of_lt (by omega)).symm

theorem getElem?_pushes (r : Ring α n) {src : List α} (hlen : src.length ≤ n) {j : ℕ} (hj : j < n) :
    (r.pushes src).buf[j]? = if r.before j < src.length then src[r.before j]? else r.buf[j]? := by
  induction src using List.reverseRecOn with
  | nil => simp
  | append_singleton as a ih =>
    rw [List.length_append, List.length_singleton] at hlen ⊢
    have hindex := r.index_pushes as
    have hlt := r.index_lt
    have hat : (r.pushes as).index = j ↔ r.before j = as.length := by
      rw [hindex]
      unfold before
      rcases Nat.lt_or_ge (r.index + as.length) n with hsum | hsum
      · rw [Nat.mod_eq_of_lt hsum]
        split_ifs <;> omega
      · rw [Nat.mod_eq_sub_mod hsum, Nat.mod_eq_of_lt (by omega)]
        split_ifs <;> omega
    rw [pushes_concat]
    simp only [push]
    by_cases heq : r.before j = as.length
    · rw [hat.2 heq, heq, if_pos (Nat.lt_succ_self _), List.getElem?_concat_length]
      exact List.getElem?_set_self (by rw [(r.pushes as).length_buf]; exact hj)
    · rw [List.getElem?_set_ne (fun h => heq (hat.1 h)), ih (by omega)]
      by_cases hbefore : r.before j < as.length
      · rw [if_pos hbefore, if_pos (by omega), List.getElem?_append_left hbefore]
      · rw [if_neg hbefore, if_neg (by omega)]

theorem getElem?_pushes_full (r : Ring α n) {src : List α} (hlen : src.length = n) {j : ℕ} (hj : j < n) :
    (r.pushes src).buf[j]? = src[r.before j]? := by
  have hlt := r.index_lt
  have hbefore : r.before j < src.length := by
    unfold before
    split_ifs <;> omega
  rw [r.getElem?_pushes hlen.le hj, if_pos hbefore]

theorem getElem?_write_short (r : Ring α n) {src : List α} (hlen : src.length < n) {j : ℕ} (hj : j < n) :
    (r.write src).buf[j]? = if r.before j < src.length then src[r.before j]? else r.buf[j]? := by
  have hlt := r.index_lt
  have hbuf := r.length_buf
  rw [write, dif_neg (by omega)]
  dsimp only
  obtain ⟨first, hfirst⟩ : ∃ first, first = min src.length (n - r.index) := ⟨_, rfl⟩
  rw [← hfirst]
  have htake : (r.buf.take r.index).length = r.index := List.length_take_of_le (by omega)
  have htake' : (src.take first).length = first := List.length_take_of_le (by omega)
  rcases Nat.lt_or_ge j (src.length - first) with hwrap | hwrap
  · -- wrapped around to the start
    have hbefore : r.before j = first + j := by
      unfold before
      split_ifs <;> omega
    rw [List.getElem?_append_left (by rw [List.length_drop]; omega), List.getElem?_drop, hbefore, if_pos (by omega)]
  · rw [List.getElem?_append_right (by rw [List.length_drop]; omega), List.length_drop, List.getElem?_drop,
      Nat.add_sub_cancel' hwrap]
    rcases Nat.lt_or_ge j r.index with hbelow | habove
    · have hbefore : ¬ r.before j < src.length := by
        unfold before
        split_ifs <;> omega
      rw [if_neg hbefore, List.append_assoc, List.getElem?_append_left (by omega), List.getElem?_take_of_lt hbelow]
    · have hbefore : r.before j = j - r.index := if_pos habove
      rcases Nat.lt_or_ge (j - r.index) first with hin | hout
      · rw [hbefore, if_pos (by omega), List.getElem?_append_left (by rw [List.length_append]; omega),
          List.getElem?_append_right (by omega), htake, List.getElem?_take_of_lt hin]
      · rw [hbefore, if_neg (by omega), List.getElem?_append_right (by rw [List.length_append]; omega),
          List.length_append, htake, htake', List.getElem?_drop, Nat.add_sub_cancel' (by omega)]

theorem getElem?_write_long (r : Ring α n) {src : List α} (hlen : n ≤ src.length) {j : ℕ} (hj : j < n) :
    (r.write src).buf[j]? =
      (src.drop (src.length - n))[if (r.index + src.length) % n ≤ j then j - (r.index + src.length) % n
        else j + n - (r.index + src.length) % n]? := by
  have hlt : (r.index + src.length) % n < n := Nat.mod_lt _ (by omega)
  rw [write, dif_pos hlen]
  dsimp only
  obtain ⟨tail, htail⟩ : ∃ tail, tail = src.drop (src.length - n) := ⟨_, rfl⟩
  obtain ⟨fin, hfin⟩ : ∃ fin, fin = (r.index + src.length) % n := ⟨_, rfl⟩
  have hlength : tail.length = n := by
    rw [htail, List.length_drop]
    omega
  rw [← hfin] at hlt
  rw [← htail, ← hfin]
  rcases Nat.lt_or_ge j fin with hbelow | habove
  · rw [if_neg (by omega), List.getElem?_append_left (by rw [List.length_drop]; omega), List.getElem?_drop]
    congr 1
    omega
  · rw [if_pos habove, List.getElem?_append_right (by rw [List.length_drop]; omega), List.length_drop, hlength,
      List.getElem?_take_of_lt (by omega)]
    congr 1
    omega

theorem write_eq_pushes (r : Ring α n) (src : List α) : r.write src = r.pushes src := by
  have hindex : (r.write src).index = (r.pushes src).index := by
    rw [r.index_pushes]
    unfold write
    split_ifs <;> rfl
  refine Ring.ext (List.ext_getElem? fun j => ?_) hindex
  rcases Nat.lt_or_ge j n with hj | hj
  · rcases Nat.lt_or_ge src.length n with hlen | hlen
    · rw [r.getElem?_write_short hlen hj, r.getElem?_pushes hlen.le hj]
    · -- all but the last `n` are written over
      have hsplit : src.take (src.length - n) ++ src.drop (src.length - n) = src := List.take_append_drop _ _
      have htail : (src.drop (src.length - n)).length = n := by
        rw [List.length_drop]
        omega
      have hfull := (r.pushes (src.take (src.length - n))).getElem?_pushes_full htail hj
      rw [← r.pushes_append, hsplit] at hfull
      rw [r.getElem?_write_long hlen hj, hfull]
      congr 1
      unfold before
      rw [index_pushes, List.length_take, min_eq_left (Nat.sub_le _ _)]
      have hmod : (r.index + (src.length - n)) % n = (r.index + src.length) % n := by
        conv_rhs => rw [show r.index + src.length = r.index + (src.length - n) + n by omega, Nat.add_mod_right]
      rw [hmod]
  · rw [List.getElem?_eq_none (by rw [(r.write src).length_buf]; exact hj),
      List.getElem?_eq_none (by rw [(r.pushes src).length_buf]; exact hj)]

theorem write_append (r : Ring α n) (as bs : List α) : (r.write as).write bs = r.write (as ++ bs) := by
  rw [write_eq_pushes, write_eq_pushes, write_eq_pushes, pushes_append]

theorem foldl_write (r : Ring α n) (writes : List (List α)) : writes.foldl write r = r.pushes writes.flatten := by
  induction writes generalizing r with
  | nil => rfl
  | cons src writes ih => rw [List.foldl_cons, ih, List.flatten_cons, pushes_append, write_eq_pushes]

theorem take_window (r : Ring α n) {dist first : ℕ} (hpos : 0 < dist) (hdist : dist ≤ n) (hfirst : first ≤ dist) :
    (r.buf.drop ((r.index + n - dist) % n)).take (min first (n - (r.index + n - dist) % n)) ++
      r.buf.take (first - min first (n - (r.index + n - dist) % n)) = (r.window.drop (n - dist)).take first := by
  have hindex := r.index_lt
  have hbuf := r.length_buf
  rcases Nat.lt_or_ge r.index dist with hwrap | hwrap
  · -- the first piece goes up to the end of the buffer
    have hfrom : (r.index + n - dist) % n = r.index + n - dist := Nat.mod_eq_of_lt (by omega)
    have hshift : r.index + (n - dist) = r.index + n - dist := by omega
    rw [hfrom, window, List.drop_append_of_le_length (by rw [List.length_drop]; omega), List.drop_drop, hshift,
      List.take_append, List.length_drop, List.take_take, hbuf]
    congr 1
    · rcases Nat.le_total first (n - (r.index + n - dist)) with h | h
      · rw [min_eq_left h]
      · rw [min_eq_right h, List.take_of_length_le (by rw [List.length_drop]; omega),
          List.take_of_length_le (by rw [List.length_drop]; omega)]
    · congr 1
      omega
  · have hfrom : (r.index + n - dist) % n = r.index - dist := by
      rw [show r.index + n - dist = r.index - dist + n by omega, Nat.add_mod_right, Nat.mod_eq_of_lt (by omega)]
    have hbeyond : n - dist - (n - r.index) = r.index - dist := by omega
    have hnil : (r.buf.drop r.index).drop (n - dist) = [] := List.drop_eq_nil_of_le (by rw [List.length_drop]; omega)
    rw [hfrom, min_eq_left (by omega), Nat.sub_self, List.take_zero, List.append_nil, window, List.drop_append, hnil,
      List.nil_append, List.length_drop, hbuf, hbeyond, List.drop_take, List.take_take, min_eq_left (by omega)]

@[simp]
theorem write_nil (r : Ring α n) : r.write [] = r := by rw [write_eq_pushes, pushes_nil]

end Ring

end Rdpio.Lib
