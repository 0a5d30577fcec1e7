import Mathlib.Data.List.Basic

/-!
# Copies that overlap what they write

A match of a compressor of the LZ77 family copies a number of values from some distance back, one at a time,
so that it may read what it has just written (`backCopy`).
-/

namespace Rdpio.Lib

variable {α : Type*}

def backCopy (past : List α) (distance : ℕ) : ℕ → List α
  | 0 => []
  | count + 1 =>
    let copied := backCopy past distance count
    copied ++ (past ++ copied)[(past ++ copied).length - distance]?.toList

/-- The first `n` values of `xs` repeated for ever. -/
def cycle (xs : List α) (n : ℕ) : List α := (List.range n).filterMap fun i => xs[i % xs.length]?

section
variable {xs : List α} (hxs : xs ≠ [])
include hxs

theorem cycle_eq_map (n : ℕ) :
    cycle xs n = (List.range n).map fun i => xs.get ⟨i % xs.length, Nat.mod_lt i (List.length_pos_of_ne_nil hxs)⟩ := by
  rw [cycle, ← List.filterMap_eq_map]
  congr 1
  funext i
  exact List.getElem?_eq_getElem _

theorem length_cycle (n : ℕ) : (cycle xs n).length = n := by
  rw [cycle_eq_map hxs, List.length_map, List.length_range]

theorem getElem?_cycle {i n : ℕ} (h : i < n) : (cycle xs n)[i]? = xs[i % xs.length]? := by
  rw [cycle_eq_map hxs, List.getElem?_map, List.getElem?_range h, Option.map_some, List.getElem?_eq_getElem]
  rfl

theorem cycle_eq_take {n : ℕ} (h : n ≤ xs.length) : cycle xs n = xs.take n := by
  refine List.ext_getElem? fun i => ?_
  rcases Nat.lt_or_ge i n with hi | hi
  · rw [getElem?_cycle hxs hi, List.getElem?_take_of_lt hi, Nat.mod_eq_of_lt (by omega)]
  · rw [List.getElem?_eq_none (by rw [length_cycle hxs]; exact hi),
      List.getElem?_eq_none (by rw [List.length_take]; omega)]

theorem cycle_add {m n : ℕ} (hn : xs.length ∣ n) (hm : m ≤ n) : cycle xs (n + m) = cycle xs n ++ (cycle xs n).take m := by
  refine List.ext_getElem? fun i => ?_
  have hlen := length_cycle hxs n
  rcases Nat.lt_or_ge i n with hi | hi
  · rw [getElem?_cycle hxs (by omega), List.getElem?_append_left (by omega), getElem?_cycle hxs hi]
  rcases Nat.lt_or_ge i (n + m) with hi' | hi'
  · have hmod : i % xs.length = (i - n) % xs.length := by
      obtain ⟨j, rfl⟩ : ∃ j, i = n + j := ⟨i - n, by omega⟩
      rw [Nat.add_sub_cancel_left, Nat.add_mod, Nat.mod_eq_zero_of_dvd hn, Nat.zero_add, Nat.mod_mod]
    rw [getElem?_cycle hxs hi', List.getElem?_append_right (by omega), hlen, List.getElem?_take_of_lt (by omega),
      getElem?_cycle hxs (by omega), hmod]
  · rw [List.getElem?_eq_none (by rw [length_cycle hxs]; exact hi'),
      List.getElem?_eq_none (by rw [List.length_append, List.length_take, hlen]; omega)]

end

theorem backCopy_eq_cycle {past : List α} {distance : ℕ} (hpos : 0 < distance) (hle : distance ≤ past.length)
    (count : ℕ) : backCopy past distance count = cycle (past.drop (past.length - distance)) count := by
  obtain ⟨xs, hxs⟩ : ∃ xs, xs = past.drop (past.length - distance) := ⟨_, rfl⟩
  have hlen : xs.length = distance := by
    rw [hxs, List.length_drop]
    omega
  have hne : xs ≠ [] := List.ne_nil_of_length_pos (by omega)
  rw [← hxs]
  induction count with
  | zero => rfl
  | succ count ih =>
    have hnext : (past ++ cycle xs count)[(past ++ cycle xs count).length - distance]? = xs[count % xs.length]? := by
      rw [List.length_append, length_cycle hne, hlen]
      rcases Nat.lt_or_ge count distance with hshort | hlong
      · rw [List.getElem?_append_left (by omega), Nat.mod_eq_of_lt hshort, hxs, List.getElem?_drop]
        congr 1
        omega
      · have hindex : past.length + count - distance - past.length = count - distance := by omega
        rw [List.getElem?_append_right (by omega), hindex, getElem?_cycle hne (by omega), hlen,
          ← Nat.mod_eq_sub_mod hlong]
    rw [backCopy, ih]
    rw [hnext, cycle, cycle, List.range_succ, List.filterMap_append]
    congr 1

end Rdpio.Lib
