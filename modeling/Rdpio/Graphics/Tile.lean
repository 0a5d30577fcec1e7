import Rdpio.Graphics.Dwt
import Rdpio.Lib.Bytes

/-!
# Progressive tiles

The component passes and the tile blocks of `crates/rdp-graphics/src/progressive.rs`.
-/

namespace Rdpio.Graphics

open Lib

/-- What a tile has one of for each of Y, Cb and Cr. -/
structure Components (α : Type) where
  y : α
  cb : α
  cr : α
deriving DecidableEq

def Components.all {α : Type} (a : α) : Components α := ⟨a, a, a⟩

def u16le (b : List UInt8) (o : ℕ) : Option UInt16 := do
  let b0 ← b[o]?
  let b1 ← b[o + 1]?
  some (UInt16.ofNat (ofLe [b0, b1]))

def u32le (b : List UInt8) (o : ℕ) : Option UInt32 := do
  let b0 ← b[o]?
  let b1 ← b[o + 1]?
  let b2 ← b[o + 2]?
  let b3 ← b[o + 3]?
  some (UInt32.ofNat (ofLe [b0, b1, b2, b3]))

/-- A component's ten sub-band shifts. -/
structure Quant where
  ll3 : ℤ
  hl3 : ℤ
  lh3 : ℤ
  hh3 : ℤ
  hl2 : ℤ
  lh2 : ℤ
  hh2 : ℤ
  hl1 : ℤ
  lh1 : ℤ
  hh1 : ℤ
deriving DecidableEq

namespace Quant

def const (q : ℤ) : Quant := ⟨q, q, q, q, q, q, q, q, q, q⟩

/-- Ten nibbles, the low one of each byte first. -/
def read (b : List UInt8) : Quant :=
  let low (i : ℕ) : ℤ := (b.getD i 0 &&& 0x0F).toNat
  let high (i : ℕ) : ℤ := (b.getD i 0 >>> 4).toNat
  { ll3 := low 0, hl3 := high 0, lh3 := low 1, hh3 := high 1, hl2 := low 2
    lh2 := high 2, hh2 := low 3, hl1 := high 3, lh1 := low 4, hh1 := high 4 }

def add (q o : Quant) : Quant where
  ll3 := q.ll3 + o.ll3
  hl3 := q.hl3 + o.hl3
  lh3 := q.lh3 + o.lh3
  hh3 := q.hh3 + o.hh3
  hl2 := q.hl2 + o.hl2
  lh2 := q.lh2 + o.lh2
  hh2 := q.hh2 + o.hh2
  hl1 := q.hl1 + o.hl1
  lh1 := q.lh1 + o.lh1
  hh1 := q.hh1 + o.hh1

def bandSub (a b : ℤ) : Option ℤ := if a < b then none else some (a - b)

def sub (q o : Quant) : Option Quant := do
  let ll3 ← bandSub q.ll3 o.ll3
  let hl3 ← bandSub q.hl3 o.hl3
  let lh3 ← bandSub q.lh3 o.lh3
  let hh3 ← bandSub q.hh3 o.hh3
  let hl2 ← bandSub q.hl2 o.hl2
  let lh2 ← bandSub q.lh2 o.lh2
  let hh2 ← bandSub q.hh2 o.hh2
  let hl1 ← bandSub q.hl1 o.hl1
  let lh1 ← bandSub q.lh1 o.lh1
  let hh1 ← bandSub q.hh1 o.hh1
  some { ll3, hl3, lh3, hh3, hl2, lh2, hh2, hl1, lh1, hh1 }

def lsub (q : Quant) (val : ℤ) : Option Quant := q.sub (const val)

theorem ll3_le_of_sub {q o r : Quant} (h : q.sub o = some r) : o.ll3 ≤ q.ll3 := by
  rw [sub, Option.bind_eq_bind, Option.bind_eq_some_iff] at h
  obtain ⟨d, hd, -⟩ := h
  rw [bandSub] at hd
  split_ifs at hd
  omega

end Quant

abbrev ProgQuant := Components Quant

def ProgQuant.read (b : List UInt8) : ProgQuant where
  y := Quant.read (b.drop 1)
  cb := Quant.read (b.drop 6)
  cr := Quant.read (b.drop 11)

def dequant (buf : Plane) (lo hi : ℕ) (shift : ℤ) : Plane :=
  if shift ≤ 0 then buf
  else (List.range (hi - lo)).foldl (fun buf j =>
    write buf (lo + j) (Int16.ofInt (coeff buf (lo + j) <<< shift.toNat))) buf

def differentialDecode (buf : Plane) (lo hi : ℕ) : Plane :=
  (List.range (hi - lo - 1)).foldl (fun buf j =>
    write buf (lo + j + 1) (Lib.read buf (lo + j + 1) + Lib.read buf (lo + j))) buf

/-- What is kept of one component of a tile. -/
structure CompState where
  current : Plane
  sign : Plane
  bit_pos : Quant
deriving DecidableEq

def CompState.default : CompState :=
  { current := Vector.replicate 4096 0, sign := Vector.replicate 4096 0, bit_pos := .const 0 }

def dequantBands (shift : Quant) (extrapolate : Bool) (buf : Plane) : Plane :=
  if extrapolate then
    let buf := dequant buf 0 1023 shift.hl1
    let buf := dequant buf 1023 2046 shift.lh1
    let buf := dequant buf 2046 3007 shift.hh1
    let buf := dequant buf 3007 3279 shift.hl2
    let buf := dequant buf 3279 3551 shift.lh2
    let buf := dequant buf 3551 3807 shift.hh2
    let buf := dequant buf 3807 3879 shift.hl3
    let buf := dequant buf 3879 3951 shift.lh3
    let buf := dequant buf 3951 4015 shift.hh3
    let buf := differentialDecode buf 4015 4096
    dequant buf 4015 4096 shift.ll3
  else
    let buf := differentialDecode buf 4032 4096
    let buf := dequant buf 0 1024 shift.hl1
    let buf := dequant buf 1024 2048 shift.lh1
    let buf := dequant buf 2048 3072 shift.hh1
    let buf := dequant buf 3072 3328 shift.hl2
    let buf := dequant buf 3328 3584 shift.lh2
    let buf := dequant buf 3584 3840 shift.hh2
    let buf := dequant buf 3840 3904 shift.hl3
    let buf := dequant buf 3904 3968 shift.lh3
    let buf := dequant buf 3968 4032 shift.hh3
    dequant buf 4032 4096 shift.ll3

def inverseDwt (extrapolate : Bool) (buf temp : Plane) : Plane × Plane :=
  if extrapolate then dwt2dExtrapolateDecode buf temp else dwt2dDecode buf temp

def decodeComponent (shift : Quant) (data : List UInt8) (buffer temp : Plane) (comp : CompState)
    (coeff_diff extrapolate : Bool) : Plane × Plane × CompState :=
  let buffer := rlgrDecode .rlgr1 data buffer
  let sign := buffer
  let buffer := dequantBands shift extrapolate buffer
  -- A difference tile adds onto what is kept, saturating; both buffers take the sum.
  let buffer :=
    if coeff_diff then Vector.zipWith (fun v c => clampi16 (v.toInt + c.toInt)) buffer comp.current
    else buffer
  let current := buffer
  let (buffer, temp) := inverseDwt extrapolate buffer temp
  (buffer, temp, { comp with current, sign })

structure UpgradeState where
  srl : BitStream
  raw : BitStream
  kp : ℕ
  nz : ℕ
  mode : Bool
  non_ll : Bool

def rawShift (raw : BitStream) (num_bits : ℕ) : Int16 × BitStream :=
  (Int16.ofInt (raw.peek num_bits), raw.shift num_bits)

def unaryMag (max mag : ℕ) (srl : BitStream) : ℕ × BitStream :=
  if mag < max then
    if srl.topBit then (mag, srl.shift 1) else unaryMag max (mag + 1) (srl.shift 1)
  else (mag, srl)
termination_by max - mag

def srlUnary (state : UpgradeState) (num_bits : ℕ) : Int16 × UpgradeState :=
  let sign := state.srl.topBit
  let state := { state with mode := false, srl := state.srl.shift 1, kp := state.kp - 6 }
  if num_bits = 1 then (Int16.ofInt (if sign then -1 else 1), state)
  else
    let (mag, srl) := unaryMag (1 <<< num_bits - 1) 1 state.srl
    let mag := min mag 32767
    (Int16.ofInt (signed sign mag), { state with srl })

def srlRead (state : UpgradeState) (num_bits : ℕ) : Int16 × UpgradeState :=
  if state.nz ≠ 0 then (0, { state with nz := state.nz - 1 })
  else
    let k := state.kp / 8
    if state.mode then srlUnary state num_bits
    else
      let bit := state.srl.topBit
      let srl := state.srl.shift 1
      if !bit then (0, { state with srl, nz := 1 <<< k - 1, kp := min (state.kp + 4) 80 })
      else
        let (nz, srl) := srl.bits k
        let state := { state with srl, nz, mode := true }
        if nz ≠ 0 then (0, { state with nz := nz - 1 }) else srlUnary state num_bits

def upgradeCoeff (num_bits : ℕ) (shift : ℤ) (s : UpgradeState × Plane × Plane) (i : ℕ) : UpgradeState × Plane × Plane :=
  let (state, current, sign) := s
  let refined (input : ℤ) := write current i (Int16.ofInt (coeff current i + input <<< shift.toNat))
  if !state.non_ll then
    let (input, raw) := rawShift state.raw num_bits
    ({ state with raw }, refined input.toInt, sign)
  else if 0 < coeff sign i then
    let (input, raw) := rawShift state.raw num_bits
    ({ state with raw }, refined input.toInt, sign)
  else if coeff sign i < 0 then
    let (input, raw) := rawShift state.raw num_bits
    ({ state with raw }, refined (-input.toInt), sign)
  else
    let (v, state) := srlRead state num_bits
    (state, refined v.toInt, write sign i v)

/-- Refine `current[off..off + len]`. -/
def upgradeBlock (s : UpgradeState × Plane × Plane) (off len : ℕ) (shift : ℤ) (num_bits : ℕ) :
    UpgradeState × Plane × Plane :=
  if num_bits < 1 then s
  else (List.range len).foldl (fun s i => upgradeCoeff num_bits shift s (off + i)) s

def detailBands (shift num_bits : Quant) : List (ℕ × ℕ × ℤ × ℕ) :=
  [(0, 1023, shift.hl1, num_bits.hl1.toNat),
    (1023, 1023, shift.lh1, num_bits.lh1.toNat),
    (2046, 961, shift.hh1, num_bits.hh1.toNat),
    (3007, 272, shift.hl2, num_bits.hl2.toNat),
    (3279, 272, shift.lh2, num_bits.lh2.toNat),
    (3551, 256, shift.hh2, num_bits.hh2.toNat),
    (3807, 72, shift.hl3, num_bits.hl3.toNat),
    (3879, 72, shift.lh3, num_bits.lh3.toNat),
    (3951, 64, shift.hh3, num_bits.hh3.toNat)]

/-- Refine a component and transform a copy of it. -/
def upgradeComponent (shift num_bits : Quant) (temp : Plane) (comp : CompState)
    (srl_data raw_data : List UInt8) (extrapolate : Bool) : Plane × Plane × CompState :=
  let state : UpgradeState :=
    { srl := .new srl_data, raw := .new raw_data, kp := 8, nz := 0, mode := false, non_ll := true }
  let (state, current, sign) :=
    (detailBands shift num_bits).foldl
      (fun s (off, len, sh, nb) => upgradeBlock s off len sh nb) (state, comp.current, comp.sign)
  let (_, current, sign) :=
    upgradeBlock ({ state with non_ll := false }, current, sign) 4015 81 shift.ll3 num_bits.ll3.toNat
  let (buffer, temp) := inverseDwt extrapolate current temp
  (buffer, temp, { comp with current, sign })

theorem inverseDwt_scratch (extrapolate : Bool) (buf v w : Plane) :
    (inverseDwt extrapolate buf v).1 = (inverseDwt extrapolate buf w).1 := by
  cases extrapolate
  · exact dwt2dDecode_scratch buf v w
  · exact dwt2dExtrapolateDecode_scratch buf v w

theorem decodeComponent_scratch (shift : Quant) (data : List UInt8) (buffer buffer' temp temp' : Plane)
    (comp : CompState) (coeff_diff extrapolate : Bool) :
    (decodeComponent shift data buffer temp comp coeff_diff extrapolate).1 =
        (decodeComponent shift data buffer' temp' comp coeff_diff extrapolate).1 ∧
      (decodeComponent shift data buffer temp comp coeff_diff extrapolate).2.2 =
        (decodeComponent shift data buffer' temp' comp coeff_diff extrapolate).2.2 := by
  simp only [decodeComponent, rlgrDecode_fresh .rlgr1 data buffer buffer', and_true]
  exact inverseDwt_scratch extrapolate _ temp temp'

theorem upgradeComponent_scratch (shift num_bits : Quant) (temp temp' : Plane) (comp : CompState)
    (srl_data raw_data : List UInt8) (extrapolate : Bool) :
    (upgradeComponent shift num_bits temp comp srl_data raw_data extrapolate).1 =
        (upgradeComponent shift num_bits temp' comp srl_data raw_data extrapolate).1 ∧
      (upgradeComponent shift num_bits temp comp srl_data raw_data extrapolate).2.2 =
        (upgradeComponent shift num_bits temp' comp srl_data raw_data extrapolate).2.2 := by
  simp only [upgradeComponent, and_true]
  exact inverseDwt_scratch extrapolate _ temp temp'

end Rdpio.Graphics
