import Mathlib.Data.Nat.Bitwise

/-!
# Single bits of machine words

The test `w & (1 << i) != 0` and the update `w |= 1 << i` on bytes and 64-bit words, in terms of
`Nat.testBit`.
-/

namespace Rdpio.Lib

theorem toNat_bit8 {j : ℕ} (hj : j < 8) : (1 <<< UInt8.ofNat j : UInt8).toNat = 2^j := by
  have hlt : 2^j < 2^8 := Nat.pow_lt_pow_right (by decide) hj
  rw [UInt8.toNat_shiftLeft, UInt8.toNat_ofNat', Nat.mod_eq_of_lt (a := j) (by omega),
    Nat.mod_eq_of_lt hj, UInt8.toNat_one, Nat.one_shiftLeft, Nat.mod_eq_of_lt hlt]

theorem toNat_bit64 {j : ℕ} (hj : j < 64) : (1 <<< UInt64.ofNat j : UInt64).toNat = 2^j := by
  have hlt : 2^j < 2^64 := Nat.pow_lt_pow_right (by decide) hj
  rw [UInt64.toNat_shiftLeft, UInt64.toNat_ofNat', Nat.mod_eq_of_lt (a := j) (by omega),
    Nat.mod_eq_of_lt hj, UInt64.toNat_one, Nat.one_shiftLeft, Nat.mod_eq_of_lt hlt]

theorem and_two_pow_ne_zero (n j : ℕ) : n &&& 2^j ≠ 0 ↔ n.testBit j = true := by
  rw [Nat.and_two_pow]
  cases n.testBit j <;> simp

theorem and_bit8_ne_zero (b : UInt8) {j : ℕ} (hj : j < 8) :
    b &&& 1 <<< UInt8.ofNat j ≠ 0 ↔ b.toNat.testBit j = true := by
  rw [← and_two_pow_ne_zero, ← toNat_bit8 hj, ← UInt8.toNat_and, ne_eq, ← UInt8.toNat_inj]
  rfl

theorem and_bit64_ne_zero (w : UInt64) {j : ℕ} (hj : j < 64) :
    w &&& 1 <<< UInt64.ofNat j ≠ 0 ↔ w.toNat.testBit j = true := by
  rw [← and_two_pow_ne_zero, ← toNat_bit64 hj, ← UInt64.toNat_and, ne_eq, ← UInt64.toNat_inj]
  rfl

theorem testBit_or_bit8 (b : UInt8) {j : ℕ} (hj : j < 8) (i : ℕ) :
    (b ||| 1 <<< UInt8.ofNat j).toNat.testBit i = (b.toNat.testBit i || decide (j = i)) := by
  rw [UInt8.toNat_or, toNat_bit8 hj, Nat.testBit_or, Nat.testBit_two_pow]

theorem testBit_or_bit64 (w : UInt64) {j : ℕ} (hj : j < 64) (i : ℕ) :
    (w ||| 1 <<< UInt64.ofNat j).toNat.testBit i = (w.toNat.testBit i || decide (j = i)) := by
  rw [UInt64.toNat_or, toNat_bit64 hj, Nat.testBit_or, Nat.testBit_two_pow]

end Rdpio.Lib

namespace Rdpio.Lib

def byteBits (b : UInt8) : List Bool := (List.range 8).map fun i => b.toNat.testBit (7 - i)

def bytesBits (bs : List UInt8) : List Bool := bs.flatMap byteBits

def unary (q : ℕ) : List Bool := List.replicate q true ++ [false]

def binary : ℕ → ℕ → List Bool
  | 0, _ => []
  | n + 1, v => v.testBit n :: binary n v

@[simp]
theorem length_byteBits (b : UInt8) : (byteBits b).length = 8 := by simp [byteBits]

@[simp]
theorem length_bytesBits (bs : List UInt8) : (bytesBits bs).length = bs.length * 8 := by
  induction bs with
  | nil => rfl
  | cons b bs ih =>
    unfold bytesBits at ih ⊢
    rw [List.flatMap_cons, List.length_append, length_byteBits, ih, List.length_cons]
    omega

@[simp]
theorem bytesBits_append (bs cs : List UInt8) : bytesBits (bs ++ cs) = bytesBits bs ++ bytesBits cs := by
  simp [bytesBits]

theorem bytesBits_singleton (b : UInt8) : bytesBits [b] = byteBits b := by simp [bytesBits]

@[simp]
theorem length_binary (n v : ℕ) : (binary n v).length = n := by
  induction n with
  | zero => rfl
  | succ n ih => rw [binary, List.length_cons, ih]

@[simp]
theorem length_unary (q : ℕ) : (unary q).length = q + 1 := by simp [unary]

theorem unary_succ (q : ℕ) : unary (q + 1) = true :: unary q := by
  rw [unary, List.replicate_succ, List.cons_append, unary]

theorem getElem?_bytesBits (bs : List UInt8) {p : ℕ} (hp : p < bs.length * 8) :
    (bytesBits bs)[p]? = some ((bs.getD (p / 8) 0).toNat.testBit (7 - p % 8)) := by
  induction bs generalizing p with
  | nil => simp at hp
  | cons b bs ih =>
    rw [List.length_cons] at hp
    unfold bytesBits at ih ⊢
    rw [List.flatMap_cons]
    rcases Nat.lt_or_ge p 8 with hsmall | hlarge
    · rw [List.getElem?_append_left (by rwa [length_byteBits]), Nat.div_eq_of_lt hsmall, Nat.mod_eq_of_lt hsmall]
      simp [byteBits, hsmall]
    · have hdiv : p / 8 = (p - 8) / 8 + 1 := by omega
      have hmod : p % 8 = (p - 8) % 8 := by omega
      rw [List.getElem?_append_right (by rwa [length_byteBits]), length_byteBits, ih (by omega), hdiv, hmod,
        List.getD_cons_succ]

theorem shiftRight_and_one (b : UInt8) {j : ℕ} (hj : j < 8) :
    ((b >>> UInt8.ofNat j) &&& 1).toNat = (b.toNat.testBit j).toNat := by
  rw [UInt8.toNat_and, UInt8.toNat_shiftRight, UInt8.toNat_ofNat', UInt8.toNat_one, Nat.and_one_is_mod,
    Nat.mod_eq_of_lt (a := j) (by omega), Nat.mod_eq_of_lt hj, Nat.shiftRight_eq_div_pow, Nat.testBit_eq_decide_div_mod_eq]
  have hlt := Nat.mod_lt (b.toNat / 2^j) (by decide : 0 < 2)
  rcases Nat.mod_two_eq_zero_or_one (b.toNat / 2^j) with h | h <;> rw [h] <;> rfl

theorem byteBits_or (b : UInt8) {n : ℕ} (hn : n < 8) :
    byteBits (b ||| 1 <<< UInt8.ofNat (7 - n)) = (byteBits b).set n true := by
  apply List.ext_getElem?
  intro i
  rw [List.getElem?_set]
  rcases Nat.lt_or_ge i 8 with hi | hi
  · have hbit := testBit_or_bit8 b (j := 7 - n) (by omega) (7 - i)
    simp only [byteBits, List.getElem?_map, List.getElem?_range hi, Option.map_some, hbit, List.length_map,
      List.length_range]
    rcases eq_or_ne n i with rfl | hne
    · simp [hn]
    · rw [if_neg hne]
      have : ¬ 7 - n = 7 - i := by omega
      simp [this]
  · rw [List.getElem?_eq_none (by simpa using hi), List.getElem?_eq_none (by simpa using hi)]
    split_ifs with h1 h2
    · rw [length_byteBits] at h2
      omega
    · rfl
    · rfl

end Rdpio.Lib
