import Mathlib.Data.List.Induction
import Rdpio.Graphics.ProgressiveBatch
import Rdpio.Graphics.RlgrChecked

/-!
# The arithmetic of progressive tiles

Dequantization and refinement with the checks of the source's arithmetic: a shift by 32 or more, a sum, a
difference or a refinement outside its type, an index out of range and a `kp` beyond 80 are `none`.
-/

namespace Rdpio.Graphics

open Lib
open Rfx (addU32 subU32 shlU32 shrU32 negI32)

/-- `input << shift`, no bit of which leaves the `i32`. -/
def shlI32 (a : ℤ) (n : ℤ) : Option ℤ :=
  if 0 ≤ n ∧ n < 32 ∧ -2^31 ≤ a <<< n.toNat ∧ a <<< n.toNat < 2^31 then some (a <<< n.toNat) else none

def addI32 (a b : ℤ) : Option ℤ := if -2^31 ≤ a + b ∧ a + b < 2^31 then some (a + b) else none

def dequantChecked (buf : Plane) (lo hi : ℕ) (shift : ℤ) : Option Plane :=
  if shift ≤ 0 then some buf
  else (List.range (hi - lo)).foldlM (fun buf j =>
    if shift < 32 ∧ lo + j < 4096 then some (write buf (lo + j) (Int16.ofInt (coeff buf (lo + j) <<< shift.toNat)))
    else none) buf

def dequantBandsChecked (shift : Quant) (extrapolate : Bool) (buf : Plane) : Option Plane :=
  if extrapolate then do
    let buf ← dequantChecked buf 0 1023 shift.hl1
    let buf ← dequantChecked buf 1023 2046 shift.lh1
    let buf ← dequantChecked buf 2046 3007 shift.hh1
    let buf ← dequantChecked buf 3007 3279 shift.hl2
    let buf ← dequantChecked buf 3279 3551 shift.lh2
    let buf ← dequantChecked buf 3551 3807 shift.hh2
    let buf ← dequantChecked buf 3807 3879 shift.hl3
    let buf ← dequantChecked buf 3879 3951 shift.lh3
    let buf ← dequantChecked buf 3951 4015 shift.hh3
    dequantChecked (differentialDecode buf 4015 4096) 4015 4096 shift.ll3
  else do
    let buf ← dequantChecked (differentialDecode buf 4032 4096) 0 1024 shift.hl1
    let buf ← dequantChecked buf 1024 2048 shift.lh1
    let buf ← dequantChecked buf 2048 3072 shift.hh1
    let buf ← dequantChecked buf 3072 3328 shift.hl2
    let buf ← dequantChecked buf 3328 3584 shift.lh2
    let buf ← dequantChecked buf 3584 3840 shift.hh2
    let buf ← dequantChecked buf 3840 3904 shift.hl3
    let buf ← dequantChecked buf 3904 3968 shift.lh3
    let buf ← dequantChecked buf 3968 4032 shift.hh3
    dequantChecked buf 4032 4096 shift.ll3

def rawShiftChecked (raw : BitStream) (num_bits : ℕ) : Option (Int16 × BitStream) := do
  let one ← shlU32 1 num_bits
  let mask ← subU32 one 1
  let down ← subU32 32 num_bits
  let top ← shrU32 raw.accumulator.toNat down
  let raw ← raw.shiftChecked num_bits
  some (Int16.ofInt (top &&& mask : ℕ), raw)

def unaryMagChecked (max mag : ℕ) (srl : BitStream) : Option (ℕ × BitStream) :=
  if mag < max then do
    let srl' ← srl.shiftChecked 1
    if srl.topBit then some (mag, srl')
    else do
      let _ ← addU32 mag 1
      unaryMagChecked max (mag + 1) srl'
  else some (mag, srl)
termination_by max - mag

def srlUnaryChecked (state : UpgradeState) (num_bits : ℕ) : Option (Int16 × UpgradeState) := do
  let sign := state.srl.topBit
  let srl ← state.srl.shiftChecked 1
  let state := { state with mode := false, srl, kp := state.kp - 6 }
  if num_bits = 1 then some (Int16.ofInt (if sign then -1 else 1), state)
  else
    let one ← shlU32 1 num_bits
    let max ← subU32 one 1
    let (mag, srl) ← unaryMagChecked max 1 state.srl
    let mag := min mag 32767
    some (Int16.ofInt (signed sign mag), { state with srl })

def srlReadChecked (state : UpgradeState) (num_bits : ℕ) : Option (Int16 × UpgradeState) :=
  if state.nz ≠ 0 then some (0, { state with nz := state.nz - 1 })
  else
    let k := state.kp / 8
    if state.mode then srlUnaryChecked state num_bits
    else do
      let bit := state.srl.topBit
      let srl ← state.srl.shiftChecked 1
      if !bit then do
        let nz ← shlI32 1 k
        let kp ← addU32 state.kp 4
        some (0, { state with srl, nz := nz.toNat - 1, kp := min kp 80 })
      else do
        let (nz, srl) ← srl.bitsChecked k
        let state := { state with srl, nz, mode := true }
        if nz ≠ 0 then some (0, { state with nz := nz - 1 }) else srlUnaryChecked state num_bits

def refinedChecked (current : Plane) (i : ℕ) (input shift : ℤ) : Option Plane := do
  let add ← shlI32 input shift
  let v ← addI32 (coeff current i) add
  some (write current i (Int16.ofInt v))

def upgradeCoeffChecked (num_bits : ℕ) (shift : ℤ) (s : UpgradeState × Plane × Plane) (i : ℕ) :
    Option (UpgradeState × Plane × Plane) :=
  let (state, current, sign) := s
  if 4096 ≤ i ∨ 80 < state.kp then none
  else if !state.non_ll ∨ 0 < coeff sign i then do
    let (input, raw) ← rawShiftChecked state.raw num_bits
    let current ← refinedChecked current i input.toInt shift
    some ({ state with raw }, current, sign)
  else if coeff sign i < 0 then do
    let (input, raw) ← rawShiftChecked state.raw num_bits
    let input ← negI32 input.toInt
    let current ← refinedChecked current i input shift
    some ({ state with raw }, current, sign)
  else do
    let (v, state) ← srlReadChecked state num_bits
    let current ← refinedChecked current i v.toInt shift
    some (state, current, write sign i v)

def upgradeBlockChecked (s : UpgradeState × Plane × Plane) (off len : ℕ) (shift : ℤ) (num_bits : ℕ) :
    Option (UpgradeState × Plane × Plane) :=
  if num_bits < 1 then some s
  else (List.range len).foldlM (fun s i => upgradeCoeffChecked num_bits shift s (off + i)) s

def UpgradeState.start (srl_data raw_data : List UInt8) : UpgradeState :=
  { srl := .new srl_data, raw := .new raw_data, kp := 8, nz := 0, mode := false, non_ll := true }

def refine (shift num_bits : Quant) (comp : CompState) (srl_data raw_data : List UInt8) :
    UpgradeState × Plane × Plane :=
  let s := (detailBands shift num_bits).foldl (fun s (off, len, sh, nb) => upgradeBlock s off len sh nb)
    (UpgradeState.start srl_data raw_data, comp.current, comp.sign)
  upgradeBlock ({ s.1 with non_ll := false }, s.2) 4015 81 shift.ll3 num_bits.ll3.toNat

def refineChecked (shift num_bits : Quant) (comp : CompState) (srl_data raw_data : List UInt8) :
    Option (UpgradeState × Plane × Plane) := do
  let s ← (detailBands shift num_bits).foldlM (fun s (off, len, sh, nb) => upgradeBlockChecked s off len sh nb)
    (UpgradeState.start srl_data raw_data, comp.current, comp.sign)
  upgradeBlockChecked ({ s.1 with non_ll := false }, s.2) 4015 81 shift.ll3 num_bits.ll3.toNat

/-! ### No check fails -/

theorem dequantChecked_eq (buf : Plane) (lo : ℕ) {hi : ℕ} {shift : ℤ} (hhi : hi ≤ 4096) (hs : shift ≤ 29) :
    dequantChecked buf lo hi shift = some (dequant buf lo hi shift) := by
  unfold dequantChecked dequant
  split_ifs
  · rfl
  · refine (foldlM_range_eq (fun _ _ => True) trivial fun j buf hj _ => ⟨?_, trivial⟩).1
    rw [if_pos ⟨by omega, by omega⟩]

theorem abs_ofInt_le {x n : ℕ} (hx : x < 2^n) : (Int16.ofInt x).toInt.natAbs ≤ 2^n := by
  have hlo := Int16.le_toInt (Int16.ofInt x)
  have hhi := Int16.toInt_lt (Int16.ofInt x)
  rcases Nat.lt_or_ge n 15 with hn | hn
  · have hpow : 2^n < 2^15 := Nat.pow_lt_pow_right (by decide) hn
    have hself : (Int16.ofInt x).toInt = x := Int16.toInt_ofInt_of_le (by omega) (by omega)
    rw [hself, Int.natAbs_natCast]
    exact hx.le
  · have hpow : 2^15 ≤ 2^n := Nat.pow_le_pow_right (by decide) hn
    omega

theorem rawShiftChecked_eq (raw : BitStream) {n : ℕ} (hpos : 0 < n) (hn : n ≤ 29) :
    rawShiftChecked raw n = some (rawShift raw n) ∧ (rawShift raw n).1.toInt.natAbs ≤ 2^n := by
  have hpow : 2^n < 2^32 := Nat.pow_lt_pow_right (by decide) (by omega)
  have hone := Nat.one_le_two_pow (n := n)
  constructor
  · simp only [rawShiftChecked, rawShift, shlU32, subU32, shrU32, BitStream.shiftChecked,
      if_pos (show n < 32 by omega), Nat.one_mul, Nat.mod_eq_of_lt hpow, if_pos hone,
      if_pos (show n ≤ 32 by omega), if_pos (show 32 - n < 32 by omega), Option.bind_eq_bind,
      Option.bind_some, BitStream.peek, Nat.one_shiftLeft, Nat.shiftRight_eq_div_pow]
  · refine abs_ofInt_le (lt_of_le_of_lt Nat.and_le_right ?_)
    rw [Nat.one_shiftLeft]
    omega

theorem unaryMagChecked_eq {max mag : ℕ} (hmax : max < 2^32) (hmag : mag ≤ max) (srl : BitStream) :
    unaryMagChecked max mag srl = some (unaryMag max mag srl) ∧ (unaryMag max mag srl).1 ≤ max := by
  induction mag, srl using unaryMag.induct max with
  | case1 mag srl hlt htop =>
    rw [unaryMagChecked, unaryMag, if_pos hlt, if_pos hlt, if_pos htop]
    exact ⟨by simp [BitStream.shiftChecked, htop], hmag⟩
  | case2 mag srl hlt htop ih =>
    obtain ⟨heq, hle⟩ := ih hlt
    have hadd : addU32 mag 1 = some (mag + 1) := if_pos (by omega)
    rw [unaryMagChecked, unaryMag, if_pos hlt, if_pos hlt, if_neg htop]
    exact ⟨by simp [BitStream.shiftChecked, htop, hadd, heq], hle⟩
  | case3 mag srl hlt =>
    rw [unaryMagChecked, unaryMag, if_neg hlt, if_neg hlt]
    exact ⟨rfl, hmag⟩

theorem abs_signed_le (sign : Bool) {m n : ℕ} (hm : m ≤ 32767) (hle : m ≤ 2^n) :
    (Int16.ofInt (signed sign m)).toInt.natAbs ≤ 2^n := by
  have hself : (Int16.ofInt (signed sign m)).toInt = signed sign m :=
    Int16.toInt_ofInt_of_le (by rw [signed]; split <;> omega) (by rw [signed]; split <;> omega)
  have habs : (signed sign m).natAbs = m := by cases sign <;> simp [signed]
  rw [hself, habs]
  exact hle

theorem srlUnaryChecked_eq (state : UpgradeState) {n : ℕ} (hpos : 0 < n) (hn : n ≤ 29) (hkp : state.kp ≤ 80) :
    srlUnaryChecked state n = some (srlUnary state n) ∧ (srlUnary state n).1.toInt.natAbs ≤ 2^n ∧
      (srlUnary state n).2.kp ≤ 80 := by
  have hpow : 2^n < 2^32 := Nat.pow_lt_pow_right (by decide) (by omega)
  have hone := Nat.one_le_two_pow (n := n)
  have hshift : state.srl.shiftChecked 1 = some (state.srl.shift 1) := rfl
  by_cases h1 : n = 1
  · subst h1
    simp only [srlUnaryChecked, srlUnary, hshift, Option.bind_eq_bind, Option.bind_some, if_true, true_and]
    refine ⟨?_, by omega⟩
    cases state.srl.topBit <;> decide
  · obtain ⟨heq, hle⟩ := unaryMagChecked_eq (show 1 <<< n - 1 < 2^32 by rw [Nat.one_shiftLeft]; omega)
      (show 1 ≤ 1 <<< n - 1 by
        have : 2^1 ≤ 2^n := Nat.pow_le_pow_right (by decide) hpos
        rw [Nat.one_shiftLeft]
        omega) (state.srl.shift 1)
    simp only [Nat.one_shiftLeft] at heq hle
    simp only [srlUnaryChecked, srlUnary, hshift, shlU32, subU32, if_pos (show n < 32 by omega), Nat.one_mul,
      Nat.mod_eq_of_lt hpow, if_pos hone, heq, if_neg h1, Option.bind_eq_bind, Option.bind_some,
      Nat.one_shiftLeft, true_and]
    exact ⟨abs_signed_le _ (min_le_right _ _) (by omega), by omega⟩

theorem srlReadChecked_eq (state : UpgradeState) {n : ℕ} (hpos : 0 < n) (hn : n ≤ 29) (hkp : state.kp ≤ 80) :
    srlReadChecked state n = some (srlRead state n) ∧ (srlRead state n).1.toInt.natAbs ≤ 2^n ∧
      (srlRead state n).2.kp ≤ 80 := by
  have hzero : (0 : Int16).toInt.natAbs ≤ 2^n := Nat.zero_le _
  have hk : state.kp / 8 ≤ 10 := by omega
  have hshift : state.srl.shiftChecked 1 = some (state.srl.shift 1) := rfl
  unfold srlReadChecked srlRead
  split
  · exact ⟨rfl, hzero, hkp⟩
  simp only
  split
  · exact srlUnaryChecked_eq state hpos hn hkp
  simp only [hshift, Option.bind_eq_bind, Option.bind_some]
  split
  · -- A run of zeros.
    have hpow : 2^(state.kp / 8) ≤ 2^10 := Nat.pow_le_pow_right (by decide) hk
    have hval : (1 : ℤ) <<< (state.kp / 8) = (1 <<< (state.kp / 8) : ℕ) := by
      simp [Int.shiftLeft_eq, Nat.one_shiftLeft]
    have hshl : shlI32 1 (state.kp / 8 : ℕ) = some ((1 <<< (state.kp / 8) : ℕ) : ℤ) := by
      rw [shlI32, Int.toNat_natCast, hval, if_pos]
      rw [Nat.one_shiftLeft]
      generalize 2^(state.kp / 8) = p at hpow
      omega
    have hadd : addU32 state.kp 4 = some (state.kp + 4) := if_pos (by omega)
    simp only [hshl, hadd, Option.bind_some, Int.toNat_natCast]
    exact ⟨trivial, hzero, by omega⟩
  · simp only [bitsChecked_eq _ (show state.kp / 8 ≤ 31 by omega), Option.bind_some]
    split
    · exact ⟨rfl, hzero, hkp⟩
    · exact srlUnaryChecked_eq _ hpos hn hkp

theorem refinedChecked_eq (current : Plane) (i : ℕ) {input shift : ℤ} {n : ℕ} (hin : input.natAbs ≤ 2^n)
    (hs : 0 ≤ shift) (hsum : shift + n ≤ 29) :
    refinedChecked current i input shift =
      some (write current i (Int16.ofInt (coeff current i + input <<< shift.toNat))) := by
  have hle : (input <<< shift.toNat).natAbs ≤ 2^29 := by
    rw [Int.shiftLeft_eq, Int.natAbs_mul, Int.natAbs_pow]
    calc input.natAbs * 2 ^ shift.toNat ≤ 2^n * 2^shift.toNat := Nat.mul_le_mul_right _ hin
      _ = 2^(n + shift.toNat) := (pow_add ..).symm
      _ ≤ 2^29 := Nat.pow_le_pow_right (by decide) (by omega)
  have hlo := Int16.le_toInt (Lib.read current i)
  have hhi := Int16.toInt_lt (Lib.read current i)
  have hshl : shlI32 input shift = some (input <<< shift.toNat) := if_pos (by omega)
  have hadd : addI32 (coeff current i) (input <<< shift.toNat) =
      some (coeff current i + input <<< shift.toNat) := if_pos (by unfold coeff; omega)
  rw [refinedChecked, hshl, Option.bind_eq_bind, Option.bind_some, hadd]
  rfl

theorem upgradeCoeffChecked_eq {n : ℕ} {shift : ℤ} (hpos : 0 < n) (hs : 0 ≤ shift) (hsum : shift + n ≤ 29)
    {s : UpgradeState × Plane × Plane} (hkp : s.1.kp ≤ 80) {i : ℕ} (hi : i < 4096) :
    upgradeCoeffChecked n shift s i = some (upgradeCoeff n shift s i) ∧ (upgradeCoeff n shift s i).1.kp ≤ 80 := by
  obtain ⟨state, current, sign⟩ := s
  have hn : n ≤ 29 := by omega
  obtain ⟨hraw, hrawle⟩ := rawShiftChecked_eq state.raw hpos hn
  obtain ⟨hsrl, hsrlle, hsrlkp⟩ := srlReadChecked_eq state hpos hn hkp
  have hnegI : negI32 (rawShift state.raw n).1.toInt = some (-(rawShift state.raw n).1.toInt) := by
    have := Int16.le_toInt (rawShift state.raw n).1
    exact if_neg (by omega)
  have hneg' : (-(rawShift state.raw n).1.toInt).natAbs ≤ 2^n := by rwa [Int.natAbs_neg]
  unfold upgradeCoeffChecked upgradeCoeff
  simp only [if_neg (show ¬ (4096 ≤ i ∨ 80 < state.kp) from fun h => by
    simp only at hkp
    omega)]
  by_cases hll : state.non_ll = true
  · by_cases hposc : 0 < coeff sign i
    · simp only [hll, hposc, hraw, refinedChecked_eq current i hrawle hs hsum, Bool.not_true,
        Bool.false_eq_true, or_true, if_true, if_false, Option.bind_eq_bind, Option.bind_some, true_and]
      exact hkp
    · by_cases hneg : coeff sign i < 0
      · simp only [hll, hposc, hneg, hraw, hnegI,
          refinedChecked_eq current i hneg' hs hsum,
          Bool.not_true, Bool.false_eq_true, or_false, if_true, if_false, Option.bind_eq_bind,
          Option.bind_some, true_and]
        exact hkp
      · simp only [hll, hposc, hneg, hsrl, refinedChecked_eq current i hsrlle hs hsum, Bool.not_true,
          Bool.false_eq_true, or_false, if_false, Option.bind_eq_bind, Option.bind_some, true_and]
        exact hsrlkp
  · simp only [hll, hraw, refinedChecked_eq current i hrawle hs hsum, Bool.not_false, true_or, if_true,
      Option.bind_eq_bind, Option.bind_some, true_and]
    exact hkp

theorem upgradeBlockChecked_eq {n : ℕ} {shift : ℤ} (hs : 0 ≤ shift) (hsum : shift + n ≤ 29)
    {s : UpgradeState × Plane × Plane} (hkp : s.1.kp ≤ 80) {off len : ℕ} (hlen : off + len ≤ 4096) :
    upgradeBlockChecked s off len shift n = some (upgradeBlock s off len shift n) ∧
      (upgradeBlock s off len shift n).1.kp ≤ 80 := by
  unfold upgradeBlockChecked upgradeBlock
  split_ifs with hn
  · exact ⟨rfl, hkp⟩
  · exact foldlM_range_eq (fun _ (s : UpgradeState × Plane × Plane) => s.1.kp ≤ 80) hkp fun i s hi hkp =>
      upgradeCoeffChecked_eq (by omega) hs hsum hkp (by omega)

namespace Quant

def bands (q : Quant) : List ℤ := [q.ll3, q.hl3, q.lh3, q.hh3, q.hl2, q.lh2, q.hh2, q.hl1, q.lh1, q.hh1]

def Within (q : Quant) (lo hi : ℤ) : Prop := ∀ v ∈ q.bands, lo ≤ v ∧ v ≤ hi

theorem within_read (b : List UInt8) : (read b).Within 0 15 := by
  have hlow (x : UInt8) : ((x &&& 0x0F).toNat : ℤ) ≤ 15 := by
    have : (x &&& 0x0F).toNat ≤ 15 := by
      rw [UInt8.toNat_and]
      exact Nat.and_le_right
    omega
  have hhigh (x : UInt8) : ((x >>> 4).toNat : ℤ) ≤ 15 := by
    have hx := x.toNat_lt
    have : (x >>> 4).toNat ≤ 15 := by
      rw [UInt8.toNat_shiftRight, Nat.shiftRight_eq_div_pow]
      show x.toNat / 2^4 ≤ 15
      omega
    omega
  simp only [Within, bands, read, List.forall_mem_cons, List.not_mem_nil, false_implies, implies_true, and_true]
  refine ⟨?_, ?_, ?_, ?_, ?_, ?_, ?_, ?_, ?_, ?_⟩
  all_goals exact ⟨Int.natCast_nonneg _, by first | exact hlow _ | exact hhigh _⟩

theorem Within.add {q o : Quant} {a b c d : ℤ} (hq : q.Within a b) (ho : o.Within c d) :
    (q.add o).Within (a + c) (b + d) := by
  simp only [Within, bands, Quant.add, List.forall_mem_cons, List.not_mem_nil, false_implies, implies_true,
    and_true] at *
  omega

theorem bandSub_eq_some {a b d : ℤ} (h : bandSub a b = some d) : d = a - b ∧ 0 ≤ d := by
  rw [bandSub] at h
  split_ifs at h
  cases h
  omega

theorem sub_spec {q o r : Quant} (h : q.sub o = some r) : r.add o = q ∧ ∀ v ∈ r.bands, 0 ≤ v := by
  simp only [sub, Option.bind_eq_bind, Option.bind_eq_some_iff] at h
  obtain ⟨ll3, h0, hl3, h1, lh3, h2, hh3, h3, hl2, h4, lh2, h5, hh2, h6, hl1, h7, lh1, h8, hh1, h9, heq⟩ := h
  cases heq
  obtain ⟨rfl, h0⟩ := bandSub_eq_some h0
  obtain ⟨rfl, h1⟩ := bandSub_eq_some h1
  obtain ⟨rfl, h2⟩ := bandSub_eq_some h2
  obtain ⟨rfl, h3⟩ := bandSub_eq_some h3
  obtain ⟨rfl, h4⟩ := bandSub_eq_some h4
  obtain ⟨rfl, h5⟩ := bandSub_eq_some h5
  obtain ⟨rfl, h6⟩ := bandSub_eq_some h6
  obtain ⟨rfl, h7⟩ := bandSub_eq_some h7
  obtain ⟨rfl, h8⟩ := bandSub_eq_some h8
  obtain ⟨rfl, h9⟩ := bandSub_eq_some h9
  refine ⟨by simp only [Quant.add, Int.sub_add_cancel], ?_⟩
  simp only [bands, List.forall_mem_cons, List.not_mem_nil, false_implies, implies_true, and_true]
  exact ⟨h0, h1, h2, h3, h4, h5, h6, h7, h8, h9⟩

/-- The shifts of bit positions up to 30. -/
theorem within_lsub {q shift : Quant} (h : q.lsub 1 = some shift) (hq : q.Within 0 30) : shift.Within 0 29 := by
  obtain ⟨rfl, hnonneg⟩ := sub_spec h
  simp only [Within, bands, Quant.add, const, List.forall_mem_cons, List.not_mem_nil, false_implies,
    implies_true, and_true] at *
  omega

/-- A refinement down from bit positions up to 30. -/
theorem within_sub {old new num_bits shift : Quant} (hshift : new.lsub 1 = some shift)
    (hbits : old.sub new = some num_bits) (hold : old.Within 0 30) :
    num_bits.Within 0 30 ∧ (shift.add num_bits).Within 0 29 := by
  obtain ⟨rfl, hnonneg⟩ := sub_spec hshift
  obtain ⟨rfl, hnonneg'⟩ := sub_spec hbits
  simp only [Within, bands, Quant.add, const, List.forall_mem_cons, List.not_mem_nil, false_implies,
    implies_true, and_true] at *
  omega

end Quant

theorem dequantBandsChecked_eq {shift : Quant} (h : shift.Within 0 29) (extrapolate : Bool) (buf : Plane) :
    dequantBandsChecked shift extrapolate buf = some (dequantBands shift extrapolate buf) := by
  simp only [Quant.Within, Quant.bands, List.forall_mem_cons, List.not_mem_nil, false_implies, implies_true,
    and_true] at h
  obtain ⟨_, _, _, _, _, _, _, _, _, _⟩ := h
  unfold dequantBandsChecked dequantBands
  cases extrapolate <;>
    simp (disch := omega) only [dequantChecked_eq, Bool.false_eq_true, if_true, if_false, Option.bind_eq_bind,
      Option.bind_some]

/-- The passes of an upgrade, with every check. -/
theorem refineChecked_eq {shift num_bits : Quant} (hshift : shift.Within 0 29) (hbits : num_bits.Within 0 30)
    (hsum : (shift.add num_bits).Within 0 29) (comp : CompState) (srl_data raw_data : List UInt8) :
    refineChecked shift num_bits comp srl_data raw_data = some (refine shift num_bits comp srl_data raw_data) ∧
      (refine shift num_bits comp srl_data raw_data).1.kp ≤ 80 := by
  simp only [Quant.Within, Quant.bands, Quant.add, List.forall_mem_cons, List.not_mem_nil, false_implies,
    implies_true, and_true] at hshift hbits hsum
  -- A band that lies within the planes, its refinement within the bounds.
  have hband : ∀ b ∈ detailBands shift num_bits,
      b.1 + b.2.1 ≤ 4096 ∧ 0 ≤ b.2.2.1 ∧ b.2.2.1 + b.2.2.2 ≤ 29 := by
    simp only [detailBands, List.forall_mem_cons, List.not_mem_nil, false_implies, implies_true, and_true]
    omega
  have hbands (bs : List (ℕ × ℕ × ℤ × ℕ)) (s : UpgradeState × Plane × Plane) (hkp : s.1.kp ≤ 80)
      (hbs : ∀ b ∈ bs, b.1 + b.2.1 ≤ 4096 ∧ 0 ≤ b.2.2.1 ∧ b.2.2.1 + b.2.2.2 ≤ 29) :
      bs.foldlM (fun s (off, len, sh, nb) => upgradeBlockChecked s off len sh nb) s =
          some (bs.foldl (fun s (off, len, sh, nb) => upgradeBlock s off len sh nb) s) ∧
        (bs.foldl (fun s (off, len, sh, nb) => upgradeBlock s off len sh nb) s).1.kp ≤ 80 := by
    induction bs generalizing s with
    | nil => exact ⟨rfl, hkp⟩
    | cons b bs ih =>
      obtain ⟨hlen, hs, hb⟩ := hbs b List.mem_cons_self
      obtain ⟨heq, hkp'⟩ := upgradeBlockChecked_eq hs hb hkp hlen
      obtain ⟨hrest, hkp''⟩ := ih _ hkp' fun b hb => hbs b (List.mem_cons_of_mem _ hb)
      rw [List.foldlM_cons, List.foldl_cons, Option.bind_eq_bind]
      simp only [heq, Option.bind_some]
      exact ⟨hrest, hkp''⟩
  obtain ⟨hdetail, hkp⟩ := hbands _ (UpgradeState.start srl_data raw_data, comp.current, comp.sign)
    (show 8 ≤ 80 by decide) hband
  unfold refineChecked refine
  rw [hdetail, Option.bind_eq_bind, Option.bind_some]
  generalize List.foldl _ _ (detailBands shift num_bits) = s at hkp ⊢
  have hkp' : (({ s.1 with non_ll := false }, s.2) : UpgradeState × Plane × Plane).1.kp ≤ 80 := hkp
  exact upgradeBlockChecked_eq (show 0 ≤ shift.ll3 by omega)
    (show shift.ll3 + (num_bits.ll3.toNat : ℤ) ≤ 29 by omega) hkp' (show 4015 + 81 ≤ 4096 by decide)

def Components.Forall {α : Type} (P : α → Prop) (c : Components α) : Prop := P c.y ∧ P c.cb ∧ P c.cr

def TileState.InRange (st : TileState) : Prop := st.Forall fun comp => comp.bit_pos.Within 0 30

/-- A component of an upgrade: its pass within bounds, and no check of it failing. -/
def Refines (shift num_bits : Quant) (comp : CompState) (srl raw : List UInt8) : Prop :=
  shift.Within 0 29 ∧ num_bits.Within 0 30 ∧ (shift.add num_bits).Within 0 29 ∧
    refineChecked shift num_bits comp srl raw = some (refine shift num_bits comp srl raw)

/-- What holds of a slot that is to be decoded. -/
def Slot.InRange (slot : Slot) : Prop :=
  slot.state.InRange ∧
    match slot.parsed with
    | .first _ _ _ shift .. => shift.Forall fun shift => shift.Within 0 29 ∧
        ∀ extrapolate buf, dequantBandsChecked shift extrapolate buf = some (dequantBands shift extrapolate buf)
    | .upgrade _ _ _ shift srl raw =>
      Refines shift.y slot.num_bits.y slot.state.y srl.y raw.y ∧
        Refines shift.cb slot.num_bits.cb slot.state.cb srl.cb raw.cb ∧
        Refines shift.cr slot.num_bits.cr slot.state.cr srl.cr raw.cr

theorem Refines.of {old new shift num_bits : Quant} (hnew : new.Within 0 30)
    (hshift : new.lsub 1 = some shift) (hbits : old.sub new = some num_bits) (hold : old.Within 0 30)
    (comp : CompState) (srl raw : List UInt8) : Refines shift num_bits comp srl raw := by
  have hs := Quant.within_lsub hshift hnew
  obtain ⟨hb, hsum⟩ := Quant.within_sub hshift hbits hold
  exact ⟨hs, hb, hsum, (refineChecked_eq hs hb hsum comp srl raw).1⟩

/-- Bit positions of nibbles, and the shifts below them. -/
def ParsedTile.InRange : ParsedTile → Prop
  | .first _ _ bitpos shift .. | .upgrade _ _ bitpos shift .. =>
    bitpos.Forall (fun q => q.Within 0 30) ∧ bitpos.y.lsub 1 = some shift.y ∧
      bitpos.cb.lsub 1 = some shift.cb ∧ bitpos.cr.lsub 1 = some shift.cr

namespace ProgressiveDecoder

theorem bindState_inRange {entry : Option TileState} {p : ParsedTile} {slot : Slot}
    (h : bindState entry p = .ok slot) (hp : p.InRange) (he : ∀ st ∈ entry, st.InRange) : slot.InRange := by
  cases p with
  | first x_idx y_idx bitpos shift coeff_diff data =>
    obtain ⟨hb, hy, hcb, hcr⟩ := hp
    cases h
    have hs {q s : Quant} (hq : q.Within 0 30) (hl : q.lsub 1 = some s) : s.Within 0 29 ∧
        ∀ extrapolate buf, dequantBandsChecked s extrapolate buf = some (dequantBands s extrapolate buf) :=
      ⟨Quant.within_lsub hl hq, dequantBandsChecked_eq (Quant.within_lsub hl hq)⟩
    exact ⟨hb, hs hb.1 hy, hs hb.2.1 hcb, hs hb.2.2 hcr⟩
  | upgrade x_idx y_idx new_bitpos shift srl raw =>
    obtain ⟨hb, hy, hcb, hcr⟩ := hp
    obtain ⟨state, hstate, h⟩ := bind_eq_ok h
    obtain ⟨y, hny, h⟩ := bind_eq_ok h
    obtain ⟨cb, hncb, h⟩ := bind_eq_ok h
    obtain ⟨cr, hncr, h⟩ := bind_eq_ok h
    cases h
    have hold := he state (okOr_eq_ok hstate)
    exact ⟨hb, .of hb.1 hy (okOr_eq_ok hny) hold.1 .., .of hb.2.1 hcb (okOr_eq_ok hncb) hold.2.1 ..,
      .of hb.2.2 hcr (okOr_eq_ok hncr) hold.2.2 ..⟩

/-- A region whose quantisers were read as nibbles. -/
structure Region.Read (r : Region) : Prop where
  quants : ∀ q ∈ r.quants, q.Within 0 15
  prog_quants : ∀ q ∈ r.prog_quants, q.Forall fun q => q.Within 0 15

theorem progQuant_within {r : Region} (hr : Region.Read r) {quality : UInt8} {reason : String} {q : ProgQuant}
    (h : progQuant r.prog_quants quality reason = .ok q) : q.Forall fun q => q.Within 0 15 := by
  rw [progQuant] at h
  split_ifs at h
  · cases h
    have hzero : (Quant.const 0).Within 0 15 := by simp [Quant.Within, Quant.bands, Quant.const]
    exact ⟨hzero, hzero, hzero⟩
  · exact hr.prog_quants q (List.mem_of_getElem? (okOr_eq_ok h))

theorem resolveQuant_inRange {r : Region} (hr : Region.Read r) {idx : TileIndex} {quality : UInt8}
    {reason oor under : String} {bitpos shift : Components Quant}
    (h : resolveQuant r.quants idx (progQuant r.prog_quants quality reason) oor under = .ok (bitpos, shift)) :
    bitpos.Forall (fun q => q.Within 0 30) ∧ bitpos.y.lsub 1 = some shift.y ∧
      bitpos.cb.lsub 1 = some shift.cb ∧ bitpos.cr.lsub 1 = some shift.cr := by
  obtain ⟨quant_y, hqy, h⟩ := bind_eq_ok h
  obtain ⟨quant_cb, hqcb, h⟩ := bind_eq_ok h
  obtain ⟨quant_cr, hqcr, h⟩ := bind_eq_ok h
  obtain ⟨prog, hprog, h⟩ := bind_eq_ok h
  obtain ⟨shift_y, hy, h⟩ := bind_eq_ok h
  obtain ⟨shift_cb, hcb, h⟩ := bind_eq_ok h
  obtain ⟨shift_cr, hcr, h⟩ := bind_eq_ok h
  cases h
  have hquant {i : ℕ} {q : Quant} (hq : okOr r.quants[i]? oor = .ok q) : q.Within 0 15 :=
    hr.quants q (List.mem_of_getElem? (okOr_eq_ok hq))
  have hp := progQuant_within hr hprog
  exact ⟨⟨(hquant hqy).add hp.1, (hquant hqcb).add hp.2.1, (hquant hqcr).add hp.2.2⟩, okOr_eq_ok hy,
    okOr_eq_ok hcb, okOr_eq_ok hcr⟩

theorem parseTile_inRange {r : Region} (hr : Region.Read r) {stats stats' : FrameStats} {block_type : UInt16}
    {body : List UInt8} {p : ParsedTile} (h : parseTile r stats block_type body = some (stats', .ok p)) :
    p.InRange := by
  have hfirst (h : parseTileFirst block_type body r.quants r.prog_quants = .ok p) : p.InRange := by
    obtain ⟨idx, -, h⟩ := bind_eq_ok h
    obtain ⟨flags, -, h⟩ := bind_eq_ok h
    obtain ⟨quality, -, h⟩ := bind_eq_ok h
    obtain ⟨data, -, h⟩ := bind_eq_ok h
    obtain ⟨⟨bitpos, shift⟩, hquant, h⟩ := bind_eq_ok h
    cases h
    exact resolveQuant_inRange hr hquant
  have hupgrade (h : parseTileUpgrade body r.quants r.prog_quants = .ok p) : p.InRange := by
    obtain ⟨idx, -, h⟩ := bind_eq_ok h
    obtain ⟨quality, -, h⟩ := bind_eq_ok h
    obtain ⟨data, -, h⟩ := bind_eq_ok h
    obtain ⟨⟨bitpos, shift⟩, hquant, h⟩ := bind_eq_ok h
    cases h
    exact resolveQuant_inRange hr hquant
  rw [parseTile] at h
  split_ifs at h
  all_goals obtain ⟨-, hparse⟩ := Prod.mk.inj (Option.some.inj h)
  · exact hfirst hparse
  · exact hfirst hparse
  · exact hfirst hparse
  · exact hfirst hparse
  · exact hupgrade hparse

/-- What decoding keeps of a slot's bit positions. -/
theorem decodeSlot_inRange {slot : Slot} (h : slot.state.InRange) (extrapolate : Bool) (s : WorkerScratch) :
    (decodeSlot slot extrapolate s).1.state.InRange := by
  unfold decodeSlot
  cases slot.parsed <;> exact h

/-- The states at rest and the slots of a batch. -/
structure TilesLoop.InRange (s : TilesLoop) : Prop where
  tiles : ∀ k, ∀ st ∈ s.dec.tiles k, st.InRange
  batch : ∀ slot ∈ s.batch, slot.InRange

theorem update_inRange {tiles : Pos → Option TileState} (h : ∀ k, ∀ st ∈ tiles k, st.InRange) (key : Pos)
    {state : TileState} (hs : state.InRange) : ∀ k, ∀ st ∈ Function.update tiles key (some state) k, st.InRange := by
  intro k st hst
  by_cases hk : k = key
  · subst hk
    rw [Function.update_self] at hst
    exact Option.mem_some_iff.mp hst ▸ hs
  · rw [Function.update_of_ne hk] at hst
    exact h k st hst

theorem restore_inRange (rects : List RegionRect) (slots : List Slot) (hslots : ∀ slot ∈ slots, slot.state.InRange)
    {s : (Pos → Option TileState) × List ProgressiveTile} (h : ∀ k, ∀ st ∈ s.1 k, st.InRange) :
    ∀ k, ∀ st ∈ (slots.foldl (restore rects) s).1 k, st.InRange := by
  induction slots generalizing s with
  | nil => exact h
  | cons slot slots ih =>
    exact ih (fun t ht => hslots t (List.mem_cons_of_mem _ ht))
      (update_inRange h slot.parsed.key (hslots slot List.mem_cons_self))

theorem TilesLoop.InRange.flush {s : TilesLoop} (h : TilesLoop.InRange s) (w : Workers) (r : Region) : TilesLoop.InRange
      { dec := (flushBatch w s.dec s.batch r.extrapolate r.rects s.out).1, batch := [], in_batch := []
        out := (flushBatch w s.dec s.batch r.extrapolate r.rects s.out).2 } := by
  refine ⟨?_, fun _ hs => nomatch hs⟩
  have htiles : (flushBatch w s.dec s.batch r.extrapolate r.rects s.out).1.tiles = _ :=
    congrArg Prod.fst (flushBatch_spec w s.dec s.batch r.extrapolate r.rects s.out).1
  show ∀ k, ∀ st ∈ (flushBatch w s.dec s.batch r.extrapolate r.rects s.out).1.tiles k, TileState.InRange st
  rw [htiles]
  refine restore_inRange r.rects _ (fun slot hslot => ?_) h.tiles
  obtain ⟨b, hb, rfl⟩ := List.mem_map.mp hslot
  exact decodeSlot_inRange (h.batch b hb).1 _ _

theorem TilesLoop.InRange.block {s : TilesLoop} (h : TilesLoop.InRange s) (w : Workers) {r : Region}
    (hr : Region.Read r) (block_type : UInt16) (body : List UInt8) :
    TilesLoop.InRange (tileBlock w r s block_type body) := by
  rw [tileBlock]
  rcases hparse : parseTile r s.dec.stats block_type body with - | ⟨stats, reason | p⟩
  · exact h
  · exact ⟨h.tiles, h.batch⟩
  have hp := parseTile_inRange hr hparse
  simp only [Except.bind, bind]
  -- The loop after the flush that a position taken again makes.
  have hnext : ∀ s' : TilesLoop, TilesLoop.InRange s' →
      (∀ slot, bindState (s'.dec.tiles p.key) p = .ok slot → TilesLoop.InRange
        { s' with
          dec := { s'.dec with tiles := Function.update s'.dec.tiles p.key (some .default) }
          batch := s'.batch ++ [slot]
          in_batch := slot.parsed.key :: s'.in_batch }) ∧
      ∀ stats, TilesLoop.InRange { s' with dec := { s'.dec with stats } } := by
    refine fun s' hs' => ⟨fun slot hbind => ?_, fun _ => ⟨hs'.tiles, hs'.batch⟩⟩
    have hslot := bindState_inRange hbind hp (hs'.tiles p.key)
    have hdefault : TileState.InRange TileState.default := by
      simp [TileState.InRange, Components.Forall, TileState.default, Components.all, CompState.default,
        Quant.Within, Quant.bands, Quant.const]
    refine ⟨update_inRange hs'.tiles p.key hdefault, fun slot' hmem => ?_⟩
    rcases List.mem_append.mp hmem with hmem | hmem
    · exact hs'.batch slot' hmem
    · rw [List.mem_singleton.mp hmem]
      exact hslot
  have hstats : TilesLoop.InRange { s with dec := { s.dec with stats } } := ⟨h.tiles, h.batch⟩
  split_ifs
  · have hflush := hstats.flush w r
    rcases hbind : bindState
        ((flushBatch w { s.dec with stats } s.batch r.extrapolate r.rects s.out).1.tiles p.key) p with reason | slot
    · exact (hnext _ hflush).2 _
    · exact (hnext _ hflush).1 slot hbind
  · rcases hbind : bindState (s.dec.tiles p.key) p with reason | slot
    · exact (hnext _ hstats).2 _
    · exact (hnext _ hstats).1 slot hbind

inductive TileEvent where
  | block (w : Workers) (quants prog_quants : List (List UInt8)) (rects : List RegionRect)
      (extrapolate : Bool) (block_type : UInt16) (body : List UInt8)
  | flush (w : Workers) (r : Region)

def TilesLoop.event (s : TilesLoop) : TileEvent → TilesLoop
  | .block w quants prog_quants rects extrapolate block_type body =>
    tileBlock w ⟨quants.map Quant.read, prog_quants.map ProgQuant.read, rects, extrapolate⟩ s block_type body
  | .flush w r =>
    let (dec, out) := flushBatch w s.dec s.batch r.extrapolate r.rects s.out
    { dec, batch := [], in_batch := [], out }

/-- In every run of tile blocks, each bit position at rest is in 0..=30, and each slot that was bound decodes
within bounds and without a check failing. -/
theorem progressive_in_range (events : List TileEvent) :
    let s := events.foldl TilesLoop.event { dec := .new, batch := [], in_batch := [], out := [] }
    (∀ k, ∀ st ∈ s.dec.tiles k, st.InRange) ∧ ∀ slot ∈ s.batch, slot.InRange := by
  have hrun : TilesLoop.InRange
      (events.foldl TilesLoop.event { dec := .new, batch := [], in_batch := [], out := [] }) := by
    induction events using List.reverseRecOn with
    | nil => exact ⟨fun _ _ h => (nomatch h), fun _ h => (nomatch h)⟩
    | append_singleton events e ih =>
      rw [List.foldl_concat]
      cases e with
      | block w quants prog_quants rects extrapolate block_type body =>
        refine ih.block w ⟨fun q hq => ?_, fun q hq => ?_⟩ block_type body
        · obtain ⟨b, -, rfl⟩ := List.mem_map.mp hq
          exact Quant.within_read b
        · obtain ⟨b, -, rfl⟩ := List.mem_map.mp hq
          exact ⟨Quant.within_read _, Quant.within_read _, Quant.within_read _⟩
      | flush w r => exact ih.flush w r
  exact ⟨hrun.tiles, hrun.batch⟩

end ProgressiveDecoder

end Rdpio.Graphics
