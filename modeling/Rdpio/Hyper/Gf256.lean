import Mathlib.Algebra.Field.MinimalAxioms
import Mathlib.Dynamics.PeriodicPts.Defs
import Mathlib.Order.Interval.Finset.Nat
import Rdpio.Hyper.Fec

/-!
# The field of the erasure code

Bytes with exclusive or for addition and `mul` for multiplication are a field. The powers of the generator 2
are the iterates of `xtime` on 1.
-/

namespace Rdpio.Hyper.Fec

def xtime (b : UInt8) : UInt8 := (double b.toUInt16).toUInt8

theorem double_toUInt16 (b : UInt8) : double b.toUInt16 = (xtime b).toUInt16 := by
  revert b
  have h : ∀ n : Fin 256, double (UInt8.ofFin n).toUInt16 = (xtime (UInt8.ofFin n)).toUInt16 := by
    decide +kernel
  exact fun b => h b.toFin

theorem xtime_eq (b : UInt8) :
    xtime b = b <<< 1 ^^^ if b.toBitVec.msb then 0x1d else 0 := by
  revert b
  have h : ∀ n : Fin 256, xtime (UInt8.ofFin n) =
      UInt8.ofFin n <<< 1 ^^^ if (UInt8.ofFin n).toBitVec.msb then 0x1d else 0 := by
    decide +kernel
  exact fun b => h b.toFin

theorem xtime_xor (a b : UInt8) : xtime (a ^^^ b) = xtime a ^^^ xtime b := by
  have hshift : (a ^^^ b) <<< 1 = a <<< 1 ^^^ b <<< 1 := by
    rw [← UInt8.toBitVec_inj]
    simp [BitVec.shiftLeft_xor_distrib]
  have hmsb : (a ^^^ b).toBitVec.msb = (a.toBitVec.msb ^^ b.toBitVec.msb) := by
    rw [UInt8.toBitVec_xor, BitVec.msb_xor]
  have hpoly : ∀ p q : Bool, (if p ^^ q then 0x1d else 0 : UInt8) =
      (if p then 0x1d else 0) ^^^ (if q then 0x1d else 0) := by decide
  rw [xtime_eq, xtime_eq, xtime_eq, hshift, hmsb, hpoly]
  ac_rfl

theorem xtime_zero : xtime 0 = 0 := by decide

theorem xtime_iterate_xor (n : ℕ) (a b : UInt8) : xtime^[n] (a ^^^ b) = xtime^[n] a ^^^ xtime^[n] b := by
  induction n generalizing a b with
  | zero => rfl
  | succ n ih => rw [Function.iterate_succ_apply, xtime_xor, ih]; rfl

theorem xtime_iterate_zero (n : ℕ) : xtime^[n] 0 = 0 := Function.iterate_fixed xtime_zero n

def gen (n : ℕ) : UInt8 := xtime^[n] 1

theorem gen_succ (n : ℕ) : gen (n + 1) = xtime (gen n) := Function.iterate_succ_apply' xtime n 1

theorem gen_add (m n : ℕ) : gen (m + n) = xtime^[m] (gen n) := Function.iterate_add_apply xtime m n 1

theorem gen_255 : gen 255 = 1 := by decide +kernel

theorem gen_add_255 (n : ℕ) : gen (n + 255) = gen n := by rw [gen_add, gen_255, gen]

theorem gen_ne_zero (n : ℕ) : gen n ≠ 0 := by
  intro h
  have hmul : ∀ k, gen (n + k) = 0 := by
    intro k
    rw [Nat.add_comm, gen_add, h, xtime_iterate_zero]
  have hper : ∀ q, gen (255 * q) = 1 := by
    intro q
    induction q with
    | zero => rfl
    | succ q ih => rw [Nat.mul_succ, gen_add_255, ih]
  have hzero := hmul (254 * n)
  rw [show n + 254 * n = 255 * n by omega, hper] at hzero
  exact absurd hzero (by decide)

theorem minimalPeriod_xtime : Function.minimalPeriod xtime 1 = 255 := by
  have hdvd : Function.minimalPeriod xtime 1 ∣ 255 := Function.IsPeriodicPt.minimalPeriod_dvd gen_255
  have hnot : ∀ d, xtime^[d] 1 ≠ 1 → ¬Function.minimalPeriod xtime 1 ∣ d :=
    fun d hne hd => hne (Function.isPeriodicPt_iff_minimalPeriod_dvd.mpr hd)
  have h85 := hnot 85 (by decide +kernel)
  have h51 := hnot 51 (by decide +kernel)
  have h15 := hnot 15 (by decide +kernel)
  generalize Function.minimalPeriod xtime 1 = p at *
  have hle : p ≤ 255 := Nat.le_of_dvd (by decide) hdvd
  have hall : ∀ q ≤ 255, q ∣ 255 → ¬q ∣ 85 → ¬q ∣ 51 → ¬q ∣ 15 → q = 255 := by decide +kernel
  exact hall p hle hdvd h85 h51 h15

theorem gen_injOn : Set.InjOn gen (Set.Iio 255) := by
  have h := Function.iterate_injOn_Iio_minimalPeriod (f := xtime) (x := 1)
  rwa [minimalPeriod_xtime] at h

theorem exists_gen_eq {a : UInt8} (ha : a ≠ 0) : ∃ n < 255, gen n = a := by
  have hsub : (Finset.range 255).image (fun n => (gen n).toNat) ⊆ Finset.Ioo 0 256 := by
    intro b hb
    obtain ⟨n, -, rfl⟩ := Finset.mem_image.mp hb
    have hne : (gen n).toNat ≠ 0 := fun h => gen_ne_zero n (UInt8.toNat_inj.mp h)
    exact Finset.mem_Ioo.mpr ⟨Nat.pos_of_ne_zero hne, (gen n).toNat_lt⟩
  have hcard : ((Finset.range 255).image fun n => (gen n).toNat).card = 255 := by
    rw [Finset.card_image_of_injOn, Finset.card_range]
    intro m hm n hn hmn
    exact gen_injOn (by simpa using hm) (by simpa using hn) (UInt8.toNat_inj.mp hmn)
  have himage := Finset.eq_of_subset_of_card_le hsub (by rw [hcard, Nat.card_Ioo])
  have hmem : a.toNat ∈ Finset.Ioo 0 256 := by
    have hne : a.toNat ≠ 0 := fun h => ha (UInt8.toNat_inj.mp h)
    exact Finset.mem_Ioo.mpr ⟨Nat.pos_of_ne_zero hne, a.toNat_lt⟩
  rw [← himage] at hmem
  obtain ⟨n, hn, heq⟩ := Finset.mem_image.mp hmem
  exact ⟨n, Finset.mem_range.mp hn, UInt8.toNat_inj.mp heq⟩

/-! ## The tables -/

theorem foldl_buildStep {n : ℕ} (hn : n ≤ 255) :
    let s := (List.range n).foldl buildStep (⟨List.replicate 512 0, List.replicate 256 0⟩, 1)
    s.1.exp.length = 512 ∧ s.1.log.length = 256 ∧ s.2 = (gen n).toUInt16 ∧ (∀ i < n, s.1.exp[i]? = some (gen i)) ∧
      ∀ i < n, s.1.log[(gen i).toNat]? = some (UInt8.ofNat i) := by
  induction n with
  | zero =>
    exact ⟨List.length_replicate, List.length_replicate, rfl,
      fun i hi => absurd hi (Nat.not_lt_zero i), fun i hi => absurd hi (Nat.not_lt_zero i)⟩
  | succ n ih =>
    obtain ⟨hexp, hlog, hx, hexps, hlogs⟩ := ih (by omega)
    rw [List.range_succ, List.foldl_append, List.foldl_cons, List.foldl_nil]
    generalize (List.range n).foldl buildStep (⟨List.replicate 512 0, List.replicate 256 0⟩, 1) = s
      at hexp hlog hx hexps hlogs ⊢
    have hto : (gen n).toUInt16.toNat = (gen n).toNat := UInt8.toNat_toUInt16 _
    have hback : (gen n).toUInt16.toUInt8 = gen n := UInt8.toUInt8_toUInt16 _
    simp only [buildStep, hx, hto, hback]
    refine ⟨by simp [hexp], by simp [hlog], ?_, ?_, ?_⟩
    · rw [double_toUInt16, gen_succ]
    · intro i hi
      rw [List.getElem?_set]
      split_ifs with heq hlt
      · rw [heq]
      · omega
      · exact hexps i (by omega)
    · -- The powers so far are distinct, so no entry is written twice.
      intro i hi
      rw [List.getElem?_set]
      split_ifs with heq hlt
      · have hni : n = i := gen_injOn (by simp; omega) (by simp; omega) (UInt8.toNat_inj.mp heq)
        rw [hni]
      · exact absurd (by rw [hlog]; exact (gen n).toNat_lt) hlt
      · refine hlogs i ?_
        rcases Nat.lt_succ_iff_lt_or_eq.mp hi with hlt | rfl
        · exact hlt
        · exact absurd rfl heq

theorem foldl_repeat {exp : List UInt8} (hlen : exp.length = 512)
    (hexp : ∀ i < 255, exp[i]? = some (gen i)) {n : ℕ} (hn : n ≤ 257) :
    let l := (List.range' 255 n).foldl (fun exp i => exp.set i (exp.getD (i - 255) 0)) exp
    l.length = 512 ∧ ∀ i < 255 + n, l[i]? = some (gen i) := by
  induction n with
  | zero => exact ⟨hlen, hexp⟩
  | succ n ih =>
    obtain ⟨hl, hget⟩ := ih (by omega)
    rw [List.range'_1_concat, List.foldl_append, List.foldl_cons, List.foldl_nil]
    generalize (List.range' 255 n).foldl (fun exp i => exp.set i (exp.getD (i - 255) 0)) exp = l at hl hget ⊢
    refine ⟨by simp [hl], ?_⟩
    intro i hi
    rw [List.getElem?_set]
    split_ifs with heq hlt
    · rw [List.getD_eq_getElem?_getD, hget _ (by omega), Option.getD_some, ← heq,
        ← gen_add_255 (255 + n - 255), Nat.sub_add_cancel (Nat.le_add_right 255 n)]
    · omega
    · exact hget i (by omega)

theorem buildPowers_spec : buildPowers.exp.length = 512 ∧ (∀ i < 255, buildPowers.exp[i]? = some (gen i)) ∧
    ∀ i < 255, buildPowers.log[(gen i).toNat]? = some (UInt8.ofNat i) := by
  obtain ⟨hexp, -, -, hexps, hlogs⟩ := foldl_buildStep (Nat.le_refl 255)
  unfold buildPowers
  exact ⟨hexp, hexps, hlogs⟩

theorem getD_exp {n : ℕ} (hn : n < 512) : buildTables.exp.getD n 0 = gen n := by
  obtain ⟨-, hget⟩ := foldl_repeat buildPowers_spec.1 buildPowers_spec.2.1 (Nat.le_refl 257)
  unfold buildTables
  rw [List.getD_eq_getElem?_getD, hget n (by omega), Option.getD_some]

theorem getD_log {n : ℕ} (hn : n < 255) : (buildTables.log.getD (gen n).toNat 0).toNat = n := by
  unfold buildTables
  rw [List.getD_eq_getElem?_getD, buildPowers_spec.2.2 n hn, Option.getD_some, UInt8.toNat_ofNat',
    Nat.mod_eq_of_lt (by omega)]

theorem mul_gen {m n : ℕ} (hm : m < 255) (hn : n < 255) : mul (gen m) (gen n) = gen (m + n) := by
  unfold mul
  rw [if_neg (by simp [gen_ne_zero]), getD_log hm, getD_log hn, getD_exp (by omega)]

theorem mul_zero_left (b : UInt8) : mul 0 b = 0 := by simp [mul]

theorem mul_zero_right (a : UInt8) : mul a 0 = 0 := by simp [mul]

theorem mul_iterate {m : ℕ} (hm : m < 255) (b : UInt8) : mul (gen m) b = xtime^[m] b := by
  by_cases hb : b = 0
  · rw [hb, mul_zero_right, xtime_iterate_zero]
  · obtain ⟨n, hn, rfl⟩ := exists_gen_eq hb
    rw [mul_gen hm hn, gen_add]

theorem mul_xor (a b c : UInt8) : mul a (b ^^^ c) = mul a b ^^^ mul a c := by
  by_cases ha : a = 0
  · rw [ha, mul_zero_left, mul_zero_left, mul_zero_left, UInt8.xor_self]
  · obtain ⟨m, hm, rfl⟩ := exists_gen_eq ha
    rw [mul_iterate hm, mul_iterate hm, mul_iterate hm, xtime_iterate_xor]

theorem mul_comm_byte (a b : UInt8) : mul a b = mul b a := by
  unfold mul
  rw [Nat.add_comm]
  simp only [or_comm]

theorem one_mul_byte (a : UInt8) : mul 1 a = a := mul_iterate (m := 0) (by decide) a

theorem mul_assoc_byte (a b c : UInt8) : mul (mul a b) c = mul a (mul b c) := by
  by_cases ha : a = 0
  · rw [ha, mul_zero_left, mul_zero_left, mul_zero_left]
  by_cases hb : b = 0
  · rw [hb, mul_zero_right, mul_zero_left, mul_zero_right]
  obtain ⟨m, hm, rfl⟩ := exists_gen_eq ha
  obtain ⟨n, hn, rfl⟩ := exists_gen_eq hb
  rw [mul_gen hm hn, mul_iterate hn, mul_iterate hm]
  -- The exponents are added modulo 255.
  by_cases hsum : m + n < 255
  · rw [mul_iterate hsum, Function.iterate_add_apply]
  · have hsub : gen (m + n) = gen (m + n - 255) := by
      rw [← gen_add_255 (m + n - 255), Nat.sub_add_cancel (by omega)]
    rw [hsub, mul_iterate (by omega), ← Function.iterate_add_apply]
    by_cases hc : c = 0
    · rw [hc, xtime_iterate_zero, xtime_iterate_zero]
    · obtain ⟨l, -, rfl⟩ := exists_gen_eq hc
      rw [← gen_add, ← gen_add, ← gen_add_255 (m + n - 255 + l)]
      exact congrArg gen (by omega)

theorem mul_inv_self {a : UInt8} (ha : a ≠ 0) : mul a (inv a) = 1 := by
  obtain ⟨n, hn, rfl⟩ := exists_gen_eq ha
  unfold inv
  rw [getD_log hn, getD_exp (by omega), mul_iterate hn, ← gen_add, show n + (255 - n) = 255 by omega, gen_255]

def Gf256 := UInt8

namespace Gf256

instance : DecidableEq Gf256 := inferInstanceAs (DecidableEq UInt8)
instance : Zero Gf256 := ⟨(0 : UInt8)⟩
instance : One Gf256 := ⟨(1 : UInt8)⟩
instance : Add Gf256 := ⟨fun a b => UInt8.xor a b⟩
instance : Neg Gf256 := ⟨id⟩
instance : Mul Gf256 := ⟨Fec.mul⟩
instance : Inv Gf256 := ⟨fun a => if a = 0 then 0 else Fec.inv a⟩

instance : Field Gf256 :=
  Field.ofMinimalAxioms Gf256 UInt8.xor_assoc (fun a => UInt8.zero_xor (a := a))
    (fun a => UInt8.xor_self (a := a)) Fec.mul_assoc_byte Fec.mul_comm_byte Fec.one_mul_byte
    (fun a ha => by
      change Fec.mul a (if a = 0 then 0 else Fec.inv a) = 1
      rw [if_neg ha]
      exact mul_inv_self ha)
    (if_pos rfl) Fec.mul_xor ⟨0, 1, by decide⟩

def of (b : UInt8) : Gf256 := b

theorem of_injective : Function.Injective of := fun _ _ h => h

theorem of_zero : of 0 = 0 := rfl

theorem of_xor (a b : UInt8) : of (a ^^^ b) = of a + of b := rfl

theorem of_mul (a b : UInt8) : of (Fec.mul a b) = of a * of b := rfl

theorem of_inv {a : UInt8} (ha : a ≠ 0) : of (Fec.inv a) = (of a)⁻¹ := (if_neg ha).symm

theorem add_self (a : Gf256) : a + a = 0 := UInt8.xor_self (a := a)

theorem sub_eq_add (a b : Gf256) : a - b = a + b := sub_eq_add_neg a b

end Gf256

end Rdpio.Hyper.Fec
