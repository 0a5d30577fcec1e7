import Mathlib.Data.List.Nodup
import Mathlib.Tactic.Ring

/-!
# Wrapping sequence numbers

Protocols that number things with a `u32` compare two numbers by the sign of their wrapping difference, read
as an `i32`.
-/

namespace Rdpio.Lib

def asI32 (x : UInt32) : ℤ := if x.toNat < 2^31 then x.toNat else (x.toNat : ℤ) - 2^32

theorem asI32_sub {a b : UInt32} (ha : a.toNat < 2^31) (hb : b.toNat < 2^31) :
    asI32 (a - b) = (a.toNat : ℤ) - b.toNat := by
  unfold asI32
  rw [UInt32.toNat_sub]
  split_ifs <;> omega

theorem toNat_sub_of_le {a b : UInt32} (h : b.toNat ≤ a.toNat) : (a - b).toNat = a.toNat - b.toNat := by
  have := a.toNat_lt
  rw [UInt32.toNat_sub]
  omega

theorem toNat_add_one {a : UInt32} (h : a.toNat + 1 < 2^32) : (a + 1).toNat = a.toNat + 1 := by
  rw [UInt32.toNat_add]
  simpa using h

theorem toNat_ofNat_of_lt {n : ℕ} (h : n < 2^32) : (UInt32.ofNat n).toNat = n := by
  rw [UInt32.toNat_ofNat']
  omega

def since (o x : UInt32) : ℕ := (x - o).toNat

theorem since_lt (o x : UInt32) : since o x < 2^32 := (x - o).toNat_lt

theorem since_inj {o x y : UInt32} (h : since o x = since o y) : x = y := by
  have := x.toNat_lt
  have := y.toNat_lt
  have := o.toNat_lt
  unfold since at h
  rw [UInt32.toNat_sub, UInt32.toNat_sub] at h
  apply UInt32.toNat_inj.mp
  omega

theorem toNat_sub_eq_since (o x y : UInt32) : (x - y).toNat = (2^32 - since o y + since o x) % 2^32 := by
  have := x.toNat_lt
  have := y.toNat_lt
  have := o.toNat_lt
  unfold since
  rw [UInt32.toNat_sub, UInt32.toNat_sub, UInt32.toNat_sub]
  omega

theorem toNat_sub_of_since_le {o x y : UInt32} (h : since o y ≤ since o x) : (x - y).toNat = since o x - since o y := by
  have := since_lt o x
  rw [toNat_sub_eq_since o]
  omega

theorem toNat_sub_of_since_lt {o x y : UInt32} (h : since o x < since o y) :
    (x - y).toNat = 2^32 - (since o y - since o x) := by
  have := since_lt o y
  rw [toNat_sub_eq_since o]
  omega

theorem since_add {o x : UInt32} {n : ℕ} (h : since o x + n < 2^32) : since o (x + UInt32.ofNat n) = since o x + n := by
  have := x.toNat_lt
  have := o.toNat_lt
  unfold since at h ⊢
  rw [UInt32.toNat_sub] at h
  rw [UInt32.toNat_sub, UInt32.toNat_sub, UInt32.toNat_add, UInt32.toNat_ofNat']
  omega

theorem since_sub {o x : UInt32} {n : ℕ} (h : n ≤ since o x) : since o (x - UInt32.ofNat n) = since o x - n := by
  have := x.toNat_lt
  have := o.toNat_lt
  unfold since at h ⊢
  rw [UInt32.toNat_sub] at h
  rw [UInt32.toNat_sub, UInt32.toNat_sub, UInt32.toNat_sub, UInt32.toNat_ofNat']
  omega

theorem eq_of_mod_32 {o b x y : UInt32} (hx : since o b ≤ since o x ∧ since o x < since o b + 32)
    (hy : since o b ≤ since o y ∧ since o y < since o b + 32) (h : x.toNat % 32 = y.toNat % 32) :
    x = y := by
  have := x.toNat_lt
  have := y.toNat_lt
  have := o.toNat_lt
  apply since_inj (o := o)
  have hxs : since o x = (2^32 - o.toNat + x.toNat) % 2^32 := by
    unfold since
    rw [UInt32.toNat_sub]
  have hys : since o y = (2^32 - o.toNat + y.toNat) % 2^32 := by
    unfold since
    rw [UInt32.toNat_sub]
  omega

/-- The `n` numbers from `a` on. -/
def idsFrom (a : UInt32) (n : ℕ) : List UInt32 := (List.range n).map fun i => a + UInt32.ofNat i

@[simp]
theorem length_idsFrom (a : UInt32) (n : ℕ) : (idsFrom a n).length = n := by
  rw [idsFrom, List.length_map, List.length_range]

theorem idsFrom_one (a : UInt32) : idsFrom a 1 = [a] := by
  simp [idsFrom]

theorem add_ofNat_toNat_sub (a b : UInt32) : a + UInt32.ofNat (b - a).toNat = b := by
  rw [UInt32.ofNat_toNat, UInt32.add_comm, UInt32.sub_add_cancel]

theorem idsFrom_append (a : UInt32) (m n : ℕ) : idsFrom a m ++ idsFrom (a + UInt32.ofNat m) n = idsFrom a (m + n) := by
  rw [idsFrom, idsFrom, idsFrom, List.range_add, List.map_append, List.map_map]
  congr 1
  refine List.map_congr_left fun i _ => ?_
  rw [Function.comp_apply, UInt32.ofNat_add, UInt32.add_assoc]

theorem idsFrom_append_sub {a b c : UInt32} (h : (b - a).toNat + (c - b).toNat < 2^32) :
    idsFrom a (b - a).toNat ++ idsFrom b (c - b).toNat = idsFrom a (c - a).toNat := by
  have hsum : (c - a).toNat = (b - a).toNat + (c - b).toNat := by
    have := a.toNat_lt
    have := b.toNat_lt
    have := c.toNat_lt
    rw [UInt32.toNat_sub, UInt32.toNat_sub] at h
    rw [UInt32.toNat_sub, UInt32.toNat_sub, UInt32.toNat_sub]
    omega
  rw [hsum, ← idsFrom_append, add_ofNat_toNat_sub]

theorem mem_idsFrom {o a b x : UInt32} (ha : since o a ≤ since o x) (hb : since o x < since o b) :
    x ∈ idsFrom a (b - a).toNat := by
  refine List.mem_map.mpr ⟨since o x - since o a, ?_, ?_⟩
  · rw [List.mem_range, toNat_sub_of_since_le (ha.trans hb.le)]
    omega
  · apply since_inj (o := o)
    have := since_lt o x
    rw [since_add (by omega)]
    omega

theorem nodup_idsFrom (a : UInt32) {n : ℕ} (h : n ≤ 2^32) : (idsFrom a n).Nodup := by
  refine List.Nodup.map_on ?_ List.nodup_range
  intro i hi j hj hij
  rw [List.mem_range] at hi hj
  have := a.toNat_lt
  have hij' := congrArg UInt32.toNat hij
  rw [UInt32.toNat_add, UInt32.toNat_add, UInt32.toNat_ofNat', UInt32.toNat_ofNat'] at hij'
  omega

theorem toNat_sub_one_sub {a b : UInt32} (h : b ≠ a) : (b - 1 - a).toNat + 1 = (b - a).toNat := by
  have hne : b.toNat ≠ a.toNat := fun h' => h (UInt32.toNat_inj.mp h')
  have := a.toNat_lt
  have := b.toNat_lt
  rw [UInt32.toNat_sub, UInt32.toNat_sub, UInt32.toNat_sub, UInt32.toNat_one]
  omega

end Rdpio.Lib
