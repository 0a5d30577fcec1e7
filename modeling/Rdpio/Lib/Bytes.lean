import Mathlib.Data.List.Basic
import Mathlib.Tactic.Ring

/-!
# Little-endian bytes

Numbers as little-endian byte strings of a fixed width, and back.
-/

namespace Rdpio.Lib

def leBytes : ℕ → ℕ → List UInt8
  | 0, _ => []
  | w + 1, n => UInt8.ofNat n :: leBytes w (n / 256)

def ofLe : List UInt8 → ℕ
  | [] => 0
  | b :: bs => b.toNat + 256 * ofLe bs

/-- `leBytes w` writes `w` bytes. -/
@[simp]
theorem length_leBytes (w n : ℕ) : (leBytes w n).length = w := by
  induction w generalizing n with
  | zero => rfl
  | succ w ih => simp [leBytes, ih]

/-- The field that a string begins with. -/
@[simp]
theorem take_leBytes_append (w n : ℕ) (rest : List UInt8) :
    (leBytes w n ++ rest).take w = leBytes w n := List.take_left' (length_leBytes w n)

/-- What lies behind it. -/
@[simp]
theorem drop_leBytes_append {w k : ℕ} (h : w ≤ k) (n : ℕ) (rest : List UInt8) :
    (leBytes w n ++ rest).drop k = rest.drop (k - w) := by
  rw [List.drop_append, length_leBytes, List.drop_eq_nil_of_le (by rwa [length_leBytes]), List.nil_append]

theorem ofLe_append (as bs : List UInt8) : ofLe (as ++ bs) = ofLe as + 256 ^ as.length * ofLe bs := by
  induction as with
  | nil => simp [ofLe]
  | cons a as ih =>
    rw [List.cons_append, ofLe, ofLe, ih, List.length_cons, pow_succ]
    ring

theorem ofLe_lt (bs : List UInt8) : ofLe bs < 256 ^ bs.length := by
  induction bs with
  | nil => simp [ofLe]
  | cons b bs ih =>
    have hb := b.toNat_lt
    simp only [ofLe, List.length_cons, pow_succ]
    omega

theorem ofLe_leBytes (w n : ℕ) : ofLe (leBytes w n) = n % 256 ^ w := by
  induction w generalizing n with
  | zero => simp [leBytes, ofLe, Nat.mod_one]
  | succ w ih =>
    simp only [leBytes, ofLe, ih, UInt8.toNat_ofNat']
    rw [pow_succ' 256 w, Nat.mod_mul]

theorem ofLe_leBytes_of_lt {w n : ℕ} (h : n < 256 ^ w) : ofLe (leBytes w n) = n := by
  rw [ofLe_leBytes, Nat.mod_eq_of_lt h]

theorem leBytes_ofLe (bs : List UInt8) : leBytes bs.length (ofLe bs) = bs := by
  induction bs with
  | nil => rfl
  | cons b bs ih =>
    have hb := b.toNat_lt
    have hmod : UInt8.ofNat (b.toNat + 256 * ofLe bs) = b := by
      apply UInt8.toNat_inj.mp
      rw [UInt8.toNat_ofNat']
      omega
    have hdiv : (b.toNat + 256 * ofLe bs) / 256 = ofLe bs := by omega
    simp only [List.length_cons, leBytes, ofLe, hmod, hdiv, ih]

theorem leBytes_inj {w m n : ℕ} (hm : m < 256 ^ w) (hn : n < 256 ^ w)
    (h : leBytes w m = leBytes w n) : m = n := by
  rw [← ofLe_leBytes_of_lt hm, h, ofLe_leBytes_of_lt hn]

end Rdpio.Lib

namespace Rdpio.Lib

def beBytes (w n : ℕ) : List UInt8 := (leBytes w n).reverse

def ofBe (bs : List UInt8) : ℕ := ofLe bs.reverse

@[simp]
theorem length_beBytes (w n : ℕ) : (beBytes w n).length = w := by rw [beBytes, List.length_reverse, length_leBytes]

theorem ofBe_lt (bs : List UInt8) : ofBe bs < 256^bs.length := by
  have h := ofLe_lt bs.reverse
  rwa [List.length_reverse] at h

@[simp]
theorem ofBe_beBytes (w n : ℕ) : ofBe (beBytes w n) = n % 256^w := by
  rw [ofBe, beBytes, List.reverse_reverse, ofLe_leBytes]

theorem ofBe_cons (b : UInt8) (bs : List UInt8) : ofBe (b :: bs) = b.toNat * 256^bs.length + ofBe bs := by
  rw [ofBe, List.reverse_cons, ofLe_append, List.length_reverse, ofBe, ofLe, ofLe]
  ring

@[simp]
theorem beBytes_ofBe (bs : List UInt8) : beBytes bs.length (ofBe bs) = bs := by
  rw [beBytes, ofBe, ← List.length_reverse, leBytes_ofLe, List.reverse_reverse]

theorem beBytes_ofBe_of_le {w : ℕ} {bs : List UInt8} (h : bs.length ≤ w) :
    beBytes w (ofBe bs) = List.replicate (w - bs.length) 0 ++ bs := by
  have hlen : (List.replicate (w - bs.length) (0 : UInt8) ++ bs).length = w := by
    rw [List.length_append, List.length_replicate]
    omega
  have hvalue : ofBe (List.replicate (w - bs.length) 0 ++ bs) = ofBe bs := by
    induction w - bs.length with
    | zero => rfl
    | succ n ih => rw [List.replicate_succ, List.cons_append, ofBe_cons, ih, UInt8.toNat_zero, Nat.zero_mul, Nat.zero_add]
  rw [← hvalue]
  nth_rewrite 1 [← hlen]
  exact beBytes_ofBe _

theorem ofBe_dropWhile (bs : List UInt8) : ofBe (bs.dropWhile (· == 0)) = ofBe bs := by
  induction bs with
  | nil => rfl
  | cons b bs ih =>
    by_cases hb : b = 0
    · rw [List.dropWhile_cons_of_pos (by simpa using hb), ih, ofBe_cons, hb, UInt8.toNat_zero, Nat.zero_mul, Nat.zero_add]
    · rw [List.dropWhile_cons_of_neg (by simpa using hb)]

theorem u16_ofBe_beBytes (n : UInt16) : UInt16.ofNat (ofBe (beBytes 2 n.toNat)) = n := by
  rw [ofBe_beBytes, Nat.mod_eq_of_lt (show n.toNat < 256^2 from n.toNat_lt), UInt16.ofNat_toNat]

theorem u32_ofBe_beBytes (n : UInt32) : UInt32.ofNat (ofBe (beBytes 4 n.toNat)) = n := by
  rw [ofBe_beBytes, Nat.mod_eq_of_lt (show n.toNat < 256^4 from n.toNat_lt), UInt32.ofNat_toNat]

end Rdpio.Lib
