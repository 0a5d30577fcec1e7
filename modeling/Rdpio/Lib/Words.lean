import Mathlib.Data.List.DropRight
import Mathlib.Data.Nat.Digits.Lemmas
import Mathlib.Data.Nat.Size

/-!
# Numbers in words

A natural number is a list of 32-bit words, the lowest first (`val`).
-/

namespace Rdpio.Lib

def word (w n : ℕ) : Option ℕ := if n < 2^w then some n else none

theorem word_eq {w n : ℕ} (h : n < 2^w) : word w n = some n := if_pos h

def val (l : List UInt32) : ℕ := Nat.ofDigits (2^32) (l.map (·.toNat))

@[simp]
theorem val_nil : val [] = 0 := rfl

@[simp]
theorem val_cons (x : UInt32) (l : List UInt32) : val (x :: l) = x.toNat + 2^32 * val l := Nat.ofDigits_cons ..

theorem val_append (l l' : List UInt32) : val (l ++ l') = val l + (2^32)^l.length * val l' := by
  rw [val, List.map_append, Nat.ofDigits_append, List.length_map]
  rfl

theorem val_lt (l : List UInt32) : val l < (2^32)^l.length := by
  have h := Nat.ofDigits_lt_base_pow_length (b := 2^32) (l := l.map (·.toNat)) (by decide) fun x hx => by
    obtain ⟨y, -, rfl⟩ := List.mem_map.mp hx
    exact y.toNat_lt
  rwa [List.length_map] at h

theorem val_replicate_zero (n : ℕ) : val (List.replicate n 0) = 0 := by
  induction n with
  | zero => rfl
  | succ n ih => rw [List.replicate_succ, val_cons, ih, UInt32.toNat_zero, Nat.mul_zero]

theorem val_rdropWhile (l : List UInt32) : val (l.rdropWhile (· == 0)) = val l := by
  induction l using List.reverseRecOn with
  | nil => rfl
  | append_singleton l x ih =>
    by_cases hx : x = 0
    · rw [List.rdropWhile_concat_pos _ _ _ (by simpa using hx), ih, val_append, hx, val_cons, val_nil, UInt32.toNat_zero,
        Nat.mul_zero, Nat.mul_zero, Nat.add_zero]
    · rw [List.rdropWhile_concat_neg _ _ _ (by simpa using hx)]

theorem le_val {l : List UInt32} (hl : l ≠ []) (h : l.getLast? ≠ some 0) : (2^32)^(l.length - 1) ≤ val l := by
  obtain ⟨l, x, rfl⟩ := (List.eq_nil_or_concat' l).resolve_left hl
  have hx : 0 < x.toNat := by
    refine Nat.pos_of_ne_zero fun hx => h ?_
    rw [List.getLast?_concat, UInt32.toNat_inj.mp (hx.trans UInt32.toNat_zero.symm)]
  rw [List.length_append, List.length_singleton, Nat.add_sub_cancel, val_append, val_cons, val_nil, Nat.mul_zero,
    Nat.add_zero]
  exact Nat.le_add_left_of_le (Nat.le_mul_of_pos_right _ hx)

theorem val_lt_of_length_lt {l l' : List UInt32} (h' : l'.getLast? ≠ some 0) (h : l.length < l'.length) :
    val l < val l' := by
  have hl' : l' ≠ [] := List.ne_nil_of_length_pos (Nat.zero_lt_of_lt h)
  calc val l < (2^32)^l.length := val_lt l
    _ ≤ (2^32)^(l'.length - 1) := Nat.pow_le_pow_right (by decide) (by omega)
    _ ≤ val l' := le_val hl' h'

theorem testBit_val (l : List UInt32) (i : ℕ) : (val l).testBit i = ((l.getD (i / 32) 0).toNat).testBit (i % 32) := by
  induction l generalizing i with
  | nil => simp
  | cons x l ih =>
    rw [val_cons, Nat.add_comm]
    have hx : x.toNat < 2^32 := x.toNat_lt
    rw [Nat.testBit_two_pow_mul_add _ hx]
    by_cases hi : i < 32
    · rw [if_pos hi, Nat.div_eq_of_lt hi, Nat.mod_eq_of_lt hi]
      rfl
    · have hnext : i / 32 = (i - 32) / 32 + 1 := by omega
      have hmod : i % 32 = (i - 32) % 32 := by omega
      rw [if_neg hi, ih, hnext, hmod]
      rfl

end Rdpio.Lib
