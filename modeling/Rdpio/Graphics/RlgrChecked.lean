import Rdpio.Graphics.Rfx
import Rdpio.Graphics.RlgrBits

/-!
# The arithmetic of RLGR

The RLGR1 decoder with the `u32` arithmetic of the source: a sum that overflows, a shift by 32 or more and a
write past the end of `out` end it with `none`.
-/

namespace Rdpio.Graphics

open Lib
open Rfx (addU32 subU32 shlU32 shrU32 asI32 negI32)

def BitStream.shiftChecked (bs : BitStream) (n : ℕ) : Option BitStream := if n ≤ 32 then some (bs.shift n) else none

/-- `lead(bs.accumulator()).min(bs.remaining() as u32)`. -/
def leadChecked (ones : Bool) (bs : BitStream) : ℕ :=
  min (leadingZeros (if ones then ~~~bs.accumulator else bs.accumulator)) (bs.remaining % 2^32)

def countLoopChecked (ones : Bool) (cnt vk : ℕ) (bs : BitStream) : Option (ℕ × BitStream) :=
  if cnt = 32 ∧ 0 < bs.remaining then
    let bs' := bs.shift 32
    let cnt' := leadChecked ones bs'
    (addU32 vk cnt').bind fun vk' => countLoopChecked ones cnt' vk' bs'
  else some (vk, bs)
termination_by bs.remaining
decreasing_by
  rw [BitStream.remaining_shift]
  omega

def countUnaryChecked (bs : BitStream) (ones : Bool) : Option (Option (ℕ × BitStream)) := do
  let cnt := leadChecked ones bs
  let (vk, bs) ← countLoopChecked ones cnt cnt bs
  let bs ← bs.shiftChecked (vk % 32)
  if bs.remaining < 1 then some none
  else
    let bs ← bs.shiftChecked 1
    some (some (vk, bs))

/-- Take `n` bits, where `n` may be zero. -/
def BitStream.bitsChecked (bs : BitStream) (n : ℕ) : Option (ℕ × BitStream) :=
  if 0 < n then do
    let one ← shlU32 1 n
    let mask ← subU32 one 1
    let down ← subU32 32 n
    let top ← shrU32 bs.accumulator.toNat down
    let bs ← bs.shiftChecked n
    some (top &&& mask, bs)
  else some (0, bs)

/-- `update_kr`. -/
def updateKrChecked (vk kr krp : ℕ) : Option (ℕ × ℕ) :=
  if vk = 0 then
    let krp := krp - 2
    some (krp >>> lsGr, krp)
  else if vk ≠ 1 then do
    let sum ← addU32 krp vk
    let krp := min sum kpMax
    some (krp >>> lsGr, krp)
  else some (kr, krp)

def golombCodeChecked (bs : BitStream) (kr : ℕ) : Option (Option (ℕ × ℕ × BitStream)) := do
  match ← countUnaryChecked bs true with
  | none => some none
  | some (vk, bs) =>
    if bs.remaining % 2^32 < kr then some none
    else
      let (low, bs) ← bs.bitsChecked kr
      let high ← shlU32 vk kr
      some (some (vk, low ||| high, bs))

/-- `code as i32 + 1`, and its negative. -/
def magnitudeChecked (sign : Bool) (code : ℕ) : Option ℤ :=
  if asI32 code + 1 < 2^31 then
    if sign then negI32 (asI32 code + 1) else some (asI32 code + 1)
  else none

def codeValueChecked (code : ℕ) : Option ℤ :=
  if code % 2 = 1 then do
    let sum ← addU32 code 1
    negI32 (asI32 (sum >>> 1))
  else some (asI32 (code >>> 1))

namespace Rlgr

variable {len : ℕ}

/-- `out[n] = v as i16`, where `n` is below the length. -/
def emitChecked (s : Rlgr len) (v : ℤ) : Option (Rlgr len) :=
  if s.n < len then
    if s.n < s.out.size then some { s with out := write s.out s.n (Int16.ofInt v), n := s.n + 1 } else none
  else some s

/-- One turn of the loop over a run. -/
def runDigitChecked (r : ℕ × ℕ × ℕ) : Option (ℕ × ℕ × ℕ) := do
  let digit ← shlU32 1 r.2.1
  let run ← addU32 r.1 digit
  let sum ← addU32 r.2.2 upGr
  let kp := min sum kpMax
  some (run, kp >>> lsGr, kp)

def runDigitsChecked : ℕ → ℕ × ℕ × ℕ → Option (ℕ × ℕ × ℕ)
  | 0, r => some r
  | vk + 1, r => (runDigitsChecked vk r).bind runDigitChecked

def runLengthChecked (s : Rlgr len) : Option (Option (Rlgr len)) := do
  match ← countUnaryChecked s.bs false with
  | none => some none
  | some (vk, bs) =>
    let (run, k, kp) ← runDigitsChecked vk (0, s.k, s.kp)
    if bs.remaining % 2^32 < k then some none
    else
      let (rest, bs) ← bs.bitsChecked k
      let run ← addU32 run rest
      if bs.remaining < 1 then some none
      else
        let sign := bs.topBit
        let bs ← bs.shiftChecked 1
        match ← golombCodeChecked bs s.kr with
        | none => some none
        | some (vk2, code, bs) =>
          let (kr, krp) ← updateKrChecked vk2 s.kr s.krp
          let kp := kp - dnGr
          let mag ← magnitudeChecked sign code
          let n := min (s.n + run) len
          let s ← emitChecked { bs, k := kp >>> lsGr, kp, kr, krp, n, out := s.out } mag
          some (some s)

def golombRiceChecked (s : Rlgr len) : Option (Option (Rlgr len)) := do
  match ← golombCodeChecked s.bs s.kr with
  | none => some none
  | some (vk, code, bs) =>
    let (kr, krp) ← updateKrChecked vk s.kr s.krp
    if code = 0 then
      let sum ← addU32 s.kp uqGr
      let kp := min sum kpMax
      let s ← emitChecked { s with bs, kr, krp, kp, k := kp >>> lsGr } 0
      some (some s)
    else
      let kp := s.kp - dqGr
      let mag ← codeValueChecked code
      let s ← emitChecked { s with bs, kr, krp, kp, k := kp >>> lsGr } mag
      some (some s)

def stepChecked (s : Rlgr len) : Option (Option (Rlgr len)) :=
  if s.k ≠ 0 then s.runLengthChecked else s.golombRiceChecked

/-- The loop of `rlgr_decode`, in at most so many turns. -/
def loopChecked : ℕ → Rlgr len → Option (Rlgr len)
  | turns, s =>
    if 0 < s.bs.remaining ∧ s.n < len then
      match turns with
      | 0 => none
      | turns + 1 => do
        match ← s.stepChecked with
        | none => some s
        | some s' => loopChecked turns s'
    else some s

end Rlgr

def rlgrDecodeChecked {len : ℕ} (data : List UInt8) (out : Vector Int16 len) : Option (Vector Int16 len) :=
  (Rlgr.loopChecked (data.length * 8) (Rlgr.start data out)).map Rlgr.out

/-! ## Nothing overflows -/

def bitsMax : ℕ := 65535 * 8

theorem leadChecked_eq {bs : BitStream} (h : bs.remaining ≤ bitsMax) (ones : Bool) :
    leadChecked ones bs = leadCount ones bs := by
  rw [leadChecked, leadCount, Nat.mod_eq_of_lt (h.trans_lt (by decide))]

theorem countLoopChecked_eq {ones : Bool} {cnt vk : ℕ} {bs : BitStream} (h : bs.Full) (hbits : bs.remaining ≤ bitsMax)
    (hcnt : cnt = leadCount ones bs) {base : ℕ} (hvk : vk = base + cnt) (hbase : base + bs.remaining ≤ bitsMax) :
    countLoopChecked ones cnt vk bs = some (countLoop ones cnt vk bs) := by
  fun_induction countLoop ones cnt vk bs generalizing base with
  | case1 cnt vk bs hgo bs' cnt' ih =>
    have hahead := h.shift (n := 32) (Nat.le_refl _)
    have hless : bs'.remaining = bs.remaining - 32 := hahead.remaining
    have hle : cnt' ≤ bs'.remaining := Nat.min_le_right ..
    have h32 : cnt ≤ bs.remaining := hcnt ▸ Nat.min_le_right ..
    have hsum : addU32 vk cnt' = some (vk + cnt') := if_pos (by unfold bitsMax at hbase; omega)
    rw [countLoopChecked, if_pos hgo]
    simp only
    rw [leadChecked_eq (show bs'.remaining ≤ bitsMax by omega), hsum, Option.bind_some]
    exact ih hahead.full (by omega) rfl (show vk + cnt' = base + 32 + cnt' by omega) (by omega)
  | case2 cnt vk bs hstop => rw [countLoopChecked, if_neg hstop]

theorem countUnaryChecked_eq {bs : BitStream} (h : bs.Full) (hbits : bs.remaining ≤ bitsMax) (ones : Bool) :
    countUnaryChecked bs ones = some (countUnary bs ones) := by
  have hloop := countLoopChecked_eq h hbits (Eq.refl (leadCount ones bs)) (Nat.zero_add _).symm (by rwa [Nat.zero_add])
  unfold countUnaryChecked countUnary
  simp only [leadChecked_eq hbits, hloop, Option.bind_eq_bind, Option.bind_some, BitStream.shiftChecked]
  rw [if_pos (Nat.mod_lt _ (by decide)).le]
  simp only [Option.bind_some, if_pos (show 1 ≤ 32 by decide)]
  split_ifs <;> rfl

theorem bitsChecked_eq (bs : BitStream) {n : ℕ} (hn : n ≤ 31) : bs.bitsChecked n = some (bs.bits n) := by
  unfold BitStream.bitsChecked BitStream.bits
  split_ifs with hpos
  · have hpow : 2^n < 2^32 := Nat.pow_lt_pow_right (by decide) (by omega)
    have hone := Nat.one_le_two_pow (n := n)
    have hdown : 32 - n < 32 := by omega
    simp only [shlU32, subU32, shrU32, BitStream.shiftChecked, if_pos (show n < 32 by omega), Nat.one_mul,
      Nat.mod_eq_of_lt hpow, if_pos hone, if_pos (show n ≤ 32 by omega), if_pos hdown, Option.bind_eq_bind,
      Option.bind_some, BitStream.peek, Nat.one_shiftLeft, Nat.shiftRight_eq_div_pow]
  · rfl

theorem updateKrChecked_eq {vk krp : ℕ} (kr : ℕ) (hvk : vk ≤ bitsMax) (hkrp : krp ≤ kpMax) :
    updateKrChecked vk kr krp = some (updateKr vk kr krp) := by
  have hsum : addU32 krp vk = some (krp + vk) := if_pos (by unfold bitsMax kpMax at *; omega)
  unfold updateKrChecked updateKr
  rw [hsum]
  split_ifs <;> rfl

theorem golombCodeChecked_eq {bs : BitStream} (h : bs.Full) (hbits : bs.remaining ≤ bitsMax) {kr : ℕ}
    (hkr : kr ≤ 10) : golombCodeChecked bs kr = some (golombCode bs kr) := by
  unfold golombCodeChecked golombCode
  rw [countUnaryChecked_eq h hbits, Option.bind_eq_bind, Option.bind_some]
  obtain ⟨hnone, -⟩ | ⟨vk, bs', hsome, -, hvk, hahead⟩ := countUnary_eq h true
  · rw [hnone]
  · have hless := hahead.remaining
    have hpow : 2^kr ≤ 2^10 := Nat.pow_le_pow_right (by decide) hkr
    have hhigh : vk * 2^kr < 2^32 :=
      calc vk * 2^kr ≤ bitsMax * 2^10 := Nat.mul_le_mul (by omega) hpow
        _ < 2^32 := by decide
    rw [hsome]
    simp only
    rw [Nat.mod_eq_of_lt (show bs'.remaining < 2^32 by unfold bitsMax at hbits; omega)]
    split_ifs
    · rfl
    · simp only [bitsChecked_eq bs' (show kr ≤ 31 by omega), shlU32, if_pos (show kr < 32 by omega),
        Nat.mod_eq_of_lt hhigh, Option.bind_eq_bind, Option.bind_some, Nat.shiftLeft_eq]

theorem code_lt {vk code kr : ℕ} (h : code < (vk + 1) * 2^kr) (hvk : vk < bitsMax) (hkr : kr ≤ 10) : code < 2^30 :=
  calc code < (vk + 1) * 2^kr := h
    _ ≤ bitsMax * 2^10 := Nat.mul_le_mul hvk (Nat.pow_le_pow_right (by decide) hkr)
    _ < 2^30 := by decide

theorem asI32_eq {n : ℕ} (h : n < 2^31) : asI32 n = n := if_pos h

theorem magnitudeChecked_eq (sign : Bool) {code : ℕ} (h : code < 2^30) :
    magnitudeChecked sign code = some (signed sign (code + 1)) := by
  unfold magnitudeChecked signed
  rw [asI32_eq (by omega), if_pos (by omega)]
  cases sign
  · simp
  · simp only [if_true, negI32]
    rw [if_neg (by omega)]
    push_cast
    rfl

theorem codeValueChecked_eq {code : ℕ} (h : code < 2^30) : codeValueChecked code = some (codeValue code) := by
  have hhalf : code >>> 1 < 2^31 := (Nat.shiftRight_le ..).trans_lt (by omega)
  have hhalf' : (code + 1) >>> 1 < 2^31 := (Nat.shiftRight_le ..).trans_lt (by omega)
  have hsum : addU32 code 1 = some (code + 1) := if_pos (by omega)
  unfold codeValueChecked codeValue
  rw [hsum]
  split_ifs
  · rw [Option.bind_eq_bind, Option.bind_some, asI32_eq hhalf', negI32, if_neg (by omega)]
  · rw [asI32_eq hhalf]

namespace Rlgr

variable {len : ℕ}

theorem emitChecked_eq (s : Rlgr len) (v : ℤ) : s.emitChecked v = some (s.emit v) := by
  unfold emitChecked emit
  by_cases h : s.n < len
  · rw [if_pos h, if_pos h, if_pos (show s.n < s.out.size from h)]
  · rw [if_neg h, if_neg h]

theorem runDigitsChecked_eq {k kp : ℕ} (hk : k = kp >>> lsGr) (hkp : kp ≤ kpMax) {vk : ℕ} (hvk : vk ≤ bitsMax) :
    runDigitsChecked vk (0, k, kp) = some (runDigit^[vk] (0, k, kp)) := by
  induction vk with
  | zero => rfl
  | succ vk ih =>
    obtain ⟨hrun, hk', hkp'⟩ := runDigit_sound hk hkp vk
    have hle : (runDigit^[vk] (0, k, kp)).2.1 ≤ 10 := hk' ▸ shiftRight_le_of_le hkp'
    rw [runDigitsChecked, ih (by omega), Function.iterate_succ_apply', Option.bind_some]
    generalize runDigit^[vk] (0, k, kp) = r at hrun hk' hkp' hle ⊢
    have hdigit : 2^r.2.1 ≤ 2^10 := Nat.pow_le_pow_right (by decide) hle
    unfold bitsMax at hvk
    have hone : shlU32 1 r.2.1 = some (2^r.2.1) := by
      rw [shlU32, if_pos (by omega), Nat.one_mul, Nat.mod_eq_of_lt (by omega)]
    have hsum : addU32 r.1 (2^r.2.1) = some (r.1 + 2^r.2.1) := if_pos (by omega)
    have hgrow : addU32 r.2.2 upGr = some (r.2.2 + upGr) := if_pos (by unfold kpMax upGr at *; omega)
    simp only [runDigitChecked, runDigit, hone, hsum, hgrow, Option.bind_eq_bind, Option.bind_some, Nat.one_shiftLeft]

theorem runLengthChecked_eq {s : Rlgr len} (h : s.Sound) (hbits : s.bs.remaining ≤ bitsMax) :
    s.runLengthChecked = some s.runLength := by
  unfold runLengthChecked runLength
  simp only [Option.bind_eq_bind]
  rw [countUnaryChecked_eq h.full hbits, Option.bind_some]
  obtain ⟨hnone, -⟩ | ⟨vk, bs, hsome, -, hvk, hcounted⟩ := countUnary_eq h.full false
  · rw [hnone]
  have hdigits := runDigit_sound h.k_eq h.kp_le vk
  have hless := hcounted.remaining
  rw [hsome]
  simp only
  rw [runDigitsChecked_eq h.k_eq h.kp_le (by omega), Option.bind_some]
  revert hdigits
  generalize runDigit^[vk] (0, s.k, s.kp) = r
  obtain ⟨run, k, kp⟩ := r
  rintro ⟨hrun, hk, hkp⟩
  simp only at hrun hk hkp ⊢
  have hk10 : k ≤ 10 := hk ▸ shiftRight_le_of_le hkp
  have hkr10 : s.kr ≤ 10 := h.kr_le
  rw [Nat.mod_eq_of_lt (show bs.remaining < 2^32 by unfold bitsMax at hbits; omega)]
  obtain ⟨hfew, -⟩ | ⟨hle, -, hlt, htaken⟩ := takeNumber_eq hcounted.full (show k ≤ 32 by omega)
  · rw [if_pos hfew, if_pos hfew]
  have hpow : 2^k ≤ 2^10 := Nat.pow_le_pow_right (by decide) hk10
  have hsum : addU32 run (bs.bits k).1 = some (run + (bs.bits k).1) := if_pos (by unfold bitsMax at hbits; omega)
  rw [if_neg (Nat.not_lt.mpr hle), if_neg (Nat.not_lt.mpr hle), bitsChecked_eq bs (by omega), Option.bind_some]
  rw [hsum, Option.bind_some]
  by_cases hend : (bs.bits k).2.remaining < 1
  · rw [if_pos hend, if_pos hend]
  have hsign := htaken.full.shift (n := 1) (by decide)
  have hbits1 := htaken.remaining
  have hbits2 := hsign.remaining
  rw [if_neg hend, if_neg hend, BitStream.shiftChecked, if_pos (by decide), Option.bind_some,
    golombCodeChecked_eq hsign.full (by omega) hkr10, Option.bind_some]
  obtain ⟨hnone, -⟩ | ⟨vk2, code, bs2, n, hcode, -, hvk2, hlt2, -⟩ := golombCode_eq hsign.full (show s.kr ≤ 32 by omega)
  · rw [hnone]
  have hsmall : code < 2^30 := code_lt hlt2 (show vk2 < bitsMax by omega) hkr10
  rw [hcode]
  simp only
  rw [updateKrChecked_eq s.kr (by omega) h.krp_le, Option.bind_some]
  rw [magnitudeChecked_eq _ hsmall, Option.bind_some, emitChecked_eq, Option.bind_some]

theorem golombRiceChecked_eq {s : Rlgr len} (h : s.Sound) (hbits : s.bs.remaining ≤ bitsMax) :
    s.golombRiceChecked = some (s.golombRice .rlgr1) := by
  have hkr10 : s.kr ≤ 10 := h.kr_le
  unfold golombRiceChecked golombRice
  simp only [Option.bind_eq_bind]
  rw [golombCodeChecked_eq h.full hbits hkr10, Option.bind_some]
  obtain ⟨hnone, -⟩ | ⟨vk, code, bs, n, hcode, -, hvk, hlt, -⟩ := golombCode_eq h.full (show s.kr ≤ 32 by omega)
  · rw [hnone]
  have hsmall : code < 2^30 := code_lt hlt (show vk < bitsMax by omega) hkr10
  rw [hcode]
  simp only
  rw [updateKrChecked_eq s.kr (by omega) h.krp_le, Option.bind_some]
  simp only [emit1]
  by_cases hzero : code = 0
  · have hkp := h.kp_le
    have hsum : addU32 s.kp uqGr = some (s.kp + uqGr) := if_pos (by unfold kpMax uqGr at *; omega)
    rw [if_pos hzero, hsum, Option.bind_some, if_pos hzero, emitChecked_eq, Option.bind_some, hzero]
    rfl
  · rw [if_neg hzero, if_neg hzero, codeValueChecked_eq hsmall, Option.bind_some, emitChecked_eq, Option.bind_some]

theorem stepChecked_eq {s : Rlgr len} (h : s.Sound) (hbits : s.bs.remaining ≤ bitsMax) :
    s.stepChecked = some (s.step .rlgr1) := by
  unfold stepChecked step
  by_cases hk : s.k ≠ 0
  · rw [if_pos hk, if_pos hk, runLengthChecked_eq h hbits]
  · rw [if_neg hk, if_neg hk, golombRiceChecked_eq h hbits]

theorem loopChecked_eq {s : Rlgr len} (h : s.Sound) (hbits : s.bs.remaining ≤ bitsMax) {turns : ℕ}
    (hturns : s.bs.remaining ≤ turns) : loopChecked turns s = some (loop .rlgr1 s) := by
  induction turns generalizing s with
  | zero => rw [loopChecked, if_neg (by omega), loop, if_neg (by omega)]
  | succ turns ih =>
    rw [loopChecked, loop]
    by_cases hgo : 0 < s.bs.remaining ∧ s.n < len
    · rw [if_pos hgo, if_pos hgo, stepChecked_eq h hbits, Option.bind_eq_bind, Option.bind_some]
      obtain ⟨hnone, -⟩ | ⟨s', hsome, -, hsound⟩ := step_toBits h
      · rw [hnone]
      · have hless := step_remaining hsome
        rw [hsome]
        exact ih hsound (by omega) (by omega)
    · rw [if_neg hgo, if_neg hgo]

end Rlgr

theorem rlgrDecodeChecked_eq {len : ℕ} {data : List UInt8} (hdata : data.length ≤ 65535) (out : Vector Int16 len) :
    rlgrDecodeChecked data out = some (rlgrDecode .rlgr1 data out) := by
  have hremaining : (Rlgr.start data out).bs.remaining = data.length * 8 := by
    rw [← BitStream.length_rest, show (Rlgr.start data out).bs.rest = _ from (BitStream.new_full data).2,
      length_bytesBits]
  have hmax : data.length * 8 ≤ bitsMax := Nat.mul_le_mul_right 8 hdata
  rw [rlgrDecodeChecked, rlgrDecode_start,
    Rlgr.loopChecked_eq (Rlgr.start_sound data out) (by rwa [hremaining]) (Nat.le_of_eq hremaining), Option.map_some]

/-- A state that the decoder reaches: after some of its turns. -/
def Rlgr.Reached {len : ℕ} (data : List UInt8) (out : Vector Int16 len) (s : Rlgr len) : Prop :=
  Relation.ReflTransGen (fun s s' : Rlgr len => s.step .rlgr1 = some s') (.start data out) s

theorem Rlgr.Reached.sound {len : ℕ} {data : List UInt8} {out : Vector Int16 len} {s : Rlgr len}
    (h : s.Reached data out) : s.Sound := by
  induction h with
  | refl => exact start_sound data out
  | tail _ hstep ih =>
    obtain ⟨hnone, -⟩ | ⟨s', hsome, -, hsound⟩ := step_toBits ih
    · rw [hnone] at hstep
      cases hstep
    · rw [hsome, Option.some.injEq] at hstep
      rwa [← hstep]

/-- RLGR1 on the register is RLGR1 on the list of bits, and none of its arithmetic overflows: `k`, also within a run,
and `kr` stay within their range, and whatever was shifted out, the register shows the next 32 bits. -/
theorem rlgrDecode_refines {len : ℕ} (data : List UInt8) (hdata : data.length ≤ 65535) (out : Vector Int16 len) :
    rlgrDecode .rlgr1 data out = rlgrDecodeBits len (bytesBits data) ∧
      rlgrDecodeChecked data out = some (rlgrDecode .rlgr1 data out) ∧
      (∀ s : Rlgr len, s.Reached data out → s.kr ≤ kpMax >>> lsGr ∧
        ∀ vk, (Rlgr.runDigit^[vk] (0, s.k, s.kp)).2.1 ≤ kpMax >>> lsGr) ∧
      ∀ ns : List ℕ, (∀ n ∈ ns, n ≤ 32) →
        (ns.foldl BitStream.shift (.new data)).accumulator.toNat = number (window ((bytesBits data).drop ns.sum)) := by
  refine ⟨rlgrDecode_eq_bits data out, rlgrDecodeChecked_eq hdata out, fun s hs => ⟨hs.sound.kr_le, fun vk => ?_⟩,
    fun ns hns => ?_⟩
  · obtain ⟨-, hk, hkp⟩ := Rlgr.runDigit_sound hs.sound.k_eq hs.sound.kp_le vk
    rw [hk]
    exact Rlgr.shiftRight_le_of_le hkp
  · obtain ⟨hfull, hrest⟩ := BitStream.new_full data
    have hahead := hfull.shifts hns
    rw [hahead.full.accumulator_eq, hahead.rest, hrest]

/-- One byte: a run of two zeros, and the coefficient 1 behind it. -/
theorem rlgrDecode_refines_byte :
    ([0x40] : List UInt8).length ≤ 65535 ∧ (rlgrDecode .rlgr1 [0x40] (.replicate 3 7)).toList = [0, 0, 1] :=
  ⟨by decide, (congrArg Vector.toList (rlgrDecode_refines [0x40] (by decide) (.replicate 3 7)).1).trans (by decide)⟩

end Rdpio.Graphics
