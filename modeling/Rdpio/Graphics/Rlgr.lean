import Mathlib.Data.Int.Notation
import Mathlib.Logic.Function.Iterate
import Rdpio.Lib.Scratch

/-!
# RLGR entropy coding

`BitStream` and `rlgr_decode` of `crates/rdp-graphics/src/progressive.rs`.
-/

namespace Rdpio.Graphics

open Lib

def kpMax : ℕ := 80

def lsGr : ℕ := 3

def upGr : ℕ := 4

def dnGr : ℕ := 6

def uqGr : ℕ := 3

def dqGr : ℕ := 3

inductive RlgrMode where
  | rlgr1
  | rlgr3
deriving DecidableEq

def leadingZeros (x : UInt32) : ℕ := if x = 0 then 32 else 31 - x.toNat.log2

structure BitStream where
  data : List UInt8
  /-- How many bits were taken. -/
  pos : ℕ
  /-- The upcoming bits from bit 63 down, zero past the end. -/
  acc : UInt64
  /-- How many bits at the top of `acc` are valid. -/
  acc_bits : ℕ
  /-- The next byte to pull into `acc`. -/
  next : ℕ

namespace BitStream

/-- One turn of the loop of `refill`. -/
def refillByte (bs : BitStream) : BitStream :=
  match bs.data[bs.next]? with
  | none => bs
  | some b =>
    if bs.acc_bits ≤ 56 then
      { bs with
        acc := bs.acc ||| (b.toUInt64 <<< UInt64.ofNat (56 - bs.acc_bits))
        acc_bits := bs.acc_bits + 8
        next := bs.next + 1 }
    else bs

def refill (bs : BitStream) : BitStream := refillByte^[8] bs

def new (data : List UInt8) : BitStream := refill { data, pos := 0, acc := 0, acc_bits := 0, next := 0 }

def remaining (bs : BitStream) : ℕ := bs.data.length * 8 - bs.pos

def accumulator (bs : BitStream) : UInt32 := (bs.acc >>> 32).toUInt32

def shift (bs : BitStream) (n : ℕ) : BitStream :=
  refill { bs with
    pos := bs.pos + n
    acc := bs.acc <<< UInt64.ofNat n
    acc_bits := bs.acc_bits - n }

def topBit (bs : BitStream) : Bool := bs.accumulator &&& 0x80000000 != 0

def peek (bs : BitStream) (n : ℕ) : ℕ := bs.accumulator.toNat >>> (32 - n) &&& (1 <<< n - 1)

def bits (bs : BitStream) (n : ℕ) : ℕ × BitStream := if 0 < n then (bs.peek n, bs.shift n) else (0, bs)

/-- Refilling takes no bit. -/
@[simp]
theorem remaining_refill (bs : BitStream) : bs.refill.remaining = bs.remaining := by
  have hbyte : ∀ bs : BitStream, bs.refillByte.remaining = bs.remaining := by
    intro bs
    rw [refillByte]
    split
    · rfl
    · split_ifs <;> rfl
  have hiter : ∀ k (bs : BitStream), (refillByte^[k] bs).remaining = bs.remaining := by
    intro k
    induction k with
    | zero => exact fun _ => rfl
    | succ k ih => exact fun bs => (ih bs.refillByte).trans (hbyte bs)
  exact hiter 8 bs

@[simp]
theorem remaining_shift (bs : BitStream) (n : ℕ) : (bs.shift n).remaining = bs.remaining - n := by
  rw [shift, remaining_refill]
  simp only [remaining]
  omega

theorem remaining_bits_le (bs : BitStream) (n : ℕ) : (bs.bits n).2.remaining ≤ bs.remaining := by
  rw [bits]
  split_ifs with h
  · simp
  · exact Nat.le_refl _

end BitStream

def leadCount (ones : Bool) (bs : BitStream) : ℕ :=
  min (leadingZeros (if ones then ~~~bs.accumulator else bs.accumulator)) bs.remaining

def countLoop (ones : Bool) (cnt vk : ℕ) (bs : BitStream) : ℕ × BitStream :=
  if cnt = 32 ∧ 0 < bs.remaining then
    let bs' := bs.shift 32
    let cnt' := leadCount ones bs'
    countLoop ones cnt' (vk + cnt') bs'
  else (vk, bs)
termination_by bs.remaining
decreasing_by
  rw [BitStream.remaining_shift]
  omega

def countUnary (bs : BitStream) (ones : Bool) : Option (ℕ × BitStream) :=
  let cnt := leadCount ones bs
  let (vk, bs) := countLoop ones cnt cnt bs
  let bs := bs.shift (vk % 32)
  if bs.remaining < 1 then none else some (vk, bs.shift 1)

theorem countLoop_remaining (ones : Bool) (cnt vk : ℕ) (bs : BitStream) :
    (countLoop ones cnt vk bs).2.remaining ≤ bs.remaining := by
  fun_induction countLoop ones cnt vk bs with
  | case1 cnt vk bs h bs' cnt' ih =>
    have hshift : bs'.remaining = bs.remaining - 32 := bs.remaining_shift 32
    omega
  | case2 => exact Nat.le_refl _

theorem countUnary_remaining {bs bs' : BitStream} {ones : Bool} {vk : ℕ}
    (h : countUnary bs ones = some (vk, bs')) : bs'.remaining < bs.remaining := by
  have hloop := countLoop_remaining ones (leadCount ones bs) (leadCount ones bs) bs
  simp only [countUnary] at h
  generalize countLoop ones (leadCount ones bs) (leadCount ones bs) bs = r at h hloop
  obtain ⟨v, b⟩ := r
  split_ifs at h with hend
  obtain ⟨-, rfl⟩ := Prod.mk.inj (Option.some.inj h)
  rw [BitStream.remaining_shift] at hend
  rw [BitStream.remaining_shift, BitStream.remaining_shift]
  omega

def updateKr (vk kr krp : ℕ) : ℕ × ℕ :=
  if vk = 0 then
    let krp := krp - 2
    (krp >>> lsGr, krp)
  else if vk ≠ 1 then
    let krp := min (krp + vk) kpMax
    (krp >>> lsGr, krp)
  else (kr, krp)

def codeValue (code : ℕ) : ℤ := if code % 2 = 1 then -(((code + 1) >>> 1 : ℕ) : ℤ) else ((code >>> 1 : ℕ) : ℤ)

def signed (sign : Bool) (m : ℕ) : ℤ := if sign then -(m : ℤ) else m

def golombCode (bs : BitStream) (kr : ℕ) : Option (ℕ × ℕ × BitStream) :=
  match countUnary bs true with
  | none => none
  | some (vk, bs) =>
    if bs.remaining < kr then none
    else
      let (low, bs) := bs.bits kr
      some (vk, low ||| vk <<< kr, bs)

theorem golombCode_remaining {bs bs' : BitStream} {kr vk code : ℕ}
    (h : golombCode bs kr = some (vk, code, bs')) : bs'.remaining < bs.remaining := by
  rw [golombCode] at h
  split at h
  · cases h
  next v b hv =>
    have hprefix := countUnary_remaining hv
    have hlow := b.remaining_bits_le kr
    split_ifs at h
    simp only [Option.some.injEq, Prod.mk.injEq] at h
    obtain ⟨-, -, rfl⟩ := h
    omega

/-- What `rlgr_decode` carries from turn to turn. -/
structure Rlgr (len : ℕ) where
  bs : BitStream
  k : ℕ
  kp : ℕ
  kr : ℕ
  krp : ℕ
  n : ℕ
  out : Vector Int16 len

namespace Rlgr

variable {len : ℕ}

def emit (s : Rlgr len) (v : ℤ) : Rlgr len :=
  if s.n < len then { s with out := write s.out s.n (Int16.ofInt v), n := s.n + 1 } else s

def runDigit (r : ℕ × ℕ × ℕ) : ℕ × ℕ × ℕ :=
  let kp := min (r.2.2 + upGr) kpMax
  (r.1 + 1 <<< r.2.1, kp >>> lsGr, kp)

def runLength (s : Rlgr len) : Option (Rlgr len) :=
  match countUnary s.bs false with
  | none => none
  | some (vk, bs) =>
    let (run, k, kp) := runDigit^[vk] (0, s.k, s.kp)
    if bs.remaining < k then none
    else
      let (rest, bs) := bs.bits k
      if bs.remaining < 1 then none
      else
        let sign := bs.topBit
        match golombCode (bs.shift 1) s.kr with
        | none => none
        | some (vk2, code, bs) =>
          let (kr, krp) := updateKr vk2 s.kr s.krp
          let kp := kp - dnGr
          let n := min (s.n + (run + rest)) len
          some (emit { bs, k := kp >>> lsGr, kp, kr, krp, n, out := s.out } (signed sign (code + 1)))

def emit1 (s : Rlgr len) (code : ℕ) : Rlgr len :=
  let kp := if code = 0 then min (s.kp + uqGr) kpMax else s.kp - dqGr
  emit { s with k := kp >>> lsGr, kp } (codeValue code)

def emit3 (s : Rlgr len) (code : ℕ) : Option (Rlgr len) :=
  let nIdx := if code = 0 then 0 else code.log2 + 1
  if s.bs.remaining < nIdx then none
  else
    let (val1, bs) := s.bs.bits nIdx
    let val2 := code - val1
    let (k, kp) :=
      if val1 ≠ 0 ∧ val2 ≠ 0 then ((s.kp - 2 * dqGr) >>> lsGr, s.kp - 2 * dqGr)
      else if val1 = 0 ∧ val2 = 0 then (min (s.kp + 2 * uqGr) kpMax >>> lsGr, min (s.kp + 2 * uqGr) kpMax)
      else (s.k, s.kp)
    some ((emit { s with bs, k, kp } (codeValue val1)).emit (codeValue val2))

def golombRice (mode : RlgrMode) (s : Rlgr len) : Option (Rlgr len) :=
  match golombCode s.bs s.kr with
  | none => none
  | some (vk, code, bs) =>
    let (kr, krp) := updateKr vk s.kr s.krp
    let s := { s with bs, kr, krp }
    match mode with
    | .rlgr1 => some (s.emit1 code)
    | .rlgr3 => s.emit3 code

def step (mode : RlgrMode) (s : Rlgr len) : Option (Rlgr len) := if s.k ≠ 0 then s.runLength else s.golombRice mode

@[simp]
theorem emit_bs (s : Rlgr len) (v : ℤ) : (s.emit v).bs = s.bs := by
  rw [emit]
  split_ifs <;> rfl

theorem runLength_remaining {s s' : Rlgr len} (h : s.runLength = some s') : s'.bs.remaining < s.bs.remaining := by
  rw [runLength] at h
  split at h
  · cases h
  next vk bs hvk =>
    have hprefix := countUnary_remaining hvk
    generalize runDigit^[vk] (0, s.k, s.kp) = r at h
    obtain ⟨run, k, kp⟩ := r
    have hrun := bs.remaining_bits_le k
    simp only at h
    split_ifs at h
    split at h
    · cases h
    next vk2 code bs2 hcode =>
      have hshorter := golombCode_remaining hcode
      rw [BitStream.remaining_shift] at hshorter
      obtain rfl := Option.some.inj h
      rw [emit_bs]
      simp only
      omega

theorem emit3_remaining {s s' : Rlgr len} {code : ℕ} (h : s.emit3 code = some s') :
    s'.bs.remaining ≤ s.bs.remaining := by
  rw [emit3] at h
  generalize (if code = 0 then 0 else code.log2 + 1) = nIdx at h
  have hval := s.bs.remaining_bits_le nIdx
  split_ifs at h
  obtain rfl := Option.some.inj h
  rw [emit_bs, emit_bs]
  exact hval

theorem golombRice_remaining {mode : RlgrMode} {s s' : Rlgr len} (h : s.golombRice mode = some s') :
    s'.bs.remaining < s.bs.remaining := by
  rw [golombRice] at h
  split at h
  · cases h
  next vk code bs hcode =>
    have hshorter := golombCode_remaining hcode
    cases mode with
    | rlgr1 =>
      obtain rfl := Option.some.inj h
      rw [emit1, emit_bs]
      exact hshorter
    | rlgr3 => exact Nat.lt_of_le_of_lt (emit3_remaining h) hshorter

theorem step_remaining {mode : RlgrMode} {s s' : Rlgr len} (h : s.step mode = some s') :
    s'.bs.remaining < s.bs.remaining := by
  rw [step] at h
  split_ifs at h
  · exact runLength_remaining h
  · exact golombRice_remaining h

def loop (mode : RlgrMode) (s : Rlgr len) : Rlgr len :=
  if 0 < s.bs.remaining ∧ s.n < len then
    match _h : s.step mode with
    | none => s
    | some s' => loop mode s'
  else s
termination_by s.bs.remaining
decreasing_by exact step_remaining (by assumption)

end Rlgr

def rlgrDecode {len : ℕ} (mode : RlgrMode) (data : List UInt8) (out : Vector Int16 len) : Vector Int16 len :=
  (Rlgr.loop mode
    { bs := .new data, k := 1, kp := 1 <<< lsGr, kr := 1, krp := 1 <<< lsGr, n := 0
      out := fill out 0 }).out

theorem rlgrDecode_fresh {len : ℕ} (mode : RlgrMode) (data : List UInt8) (v w : Vector Int16 len) :
    rlgrDecode mode data v = rlgrDecode mode data w := by
  rw [rlgrDecode, rlgrDecode, fill_eq v w]

end Rdpio.Graphics
