import Rdpio.Graphics.RfxRoundTrip

/-!
# The streams that the RemoteFX decoder gets through

Nothing caps the Golomb-Rice parameter, so a stream can make `rlgr_decode` shift by 32 bits or more, or
overflow.
-/

namespace Rdpio.Graphics.Rfx

open Lib

def onesOf (bits : List Bool) : ℕ := (bits.takeWhile id).length

def numberOf : ℕ → List Bool → ℕ → ℕ
  | 0, _, v => v
  | n + 1, bits, v => numberOf n bits.tail (v * 2 % 2^32 + (bits.headD false).toNat)

def wordValue (k1 : ℕ) (bits : List Bool) : ℕ := onesOf bits * 2^k1 % 2^32 + numberOf k1 (bits.drop (onesOf bits + 1)) 0

def afterWord (k1 : ℕ) (bits : List Bool) : List Bool := (bits.drop (onesOf bits + 1)).drop k1

/-- The word is read with a shift below 32, and its ones can be added to the parameter. -/
def WordFits (p : Params) (bits : List Bool) : Prop := p.k1 < 32 ∧ p.k1p + onesOf bits < 2^32

/-- A word that ends a run: its magnitude is one more, and the lowest `i32` cannot be negated. -/
def MagnitudeFits (p : Params) (bits : List Bool) : Prop :=
  WordFits p bits ∧ wordValue p.k1 bits + 1 < 2^32 ∧
    ¬ (wordValue p.k1 bits + 1 = 2^31 ∧ (afterWord p.k1 bits).headD false = true)

def magnitudeOf (k1 : ℕ) (bits : List Bool) : Int16 :=
  let mag := asI32 (wordValue k1 bits + 1)
  clampI16 (if (afterWord k1 bits).headD false then -mag else mag)

def valueOf (k1 : ℕ) (bits : List Bool) : Int16 :=
  let n : ℤ := wordValue k1 bits
  clampI16 (if n % 2 ≠ 0 then -((n + 1) / 2) else n / 2)

structure Cursor where
  bits : List Bool
  out : List Int16
  p : Params

namespace Cursor

def afterRun (c : Cursor) : List Bool := (c.bits.drop (onesOf c.bits + 1)).drop c.p.k

def runOut (c : Cursor) (count : ℕ) : List Int16 :=
  c.out ++ List.replicate (min (onesOf c.bits * 2^c.p.k % 2^64 +
    numberOf c.p.k (c.bits.drop (onesOf c.bits + 1)) 0) (count - c.out.length)) 0

def TurnFits (count : ℕ) (c : Cursor) : Prop :=
  if c.p.k ≠ 0 then c.p.k < 64 ∧ onesOf c.bits < 2^32 ∧ ((c.runOut count).length < count → MagnitudeFits c.p c.afterRun)
  else WordFits c.p c.bits ∧ wordValue c.p.k1 c.bits ≠ 2^32 - 1

/-- Where the next turn leads. -/
def next (count : ℕ) (c : Cursor) : Cursor :=
  if c.p.k ≠ 0 then
    if (c.runOut count).length < count then
      { bits := (afterWord c.p.k1 c.afterRun).tail
        out := c.runOut count ++ [magnitudeOf c.p.k1 c.afterRun]
        p := (c.p.rated (onesOf c.afterRun)).ranged (onesOf c.bits ≠ 0) }
    else { bits := c.afterRun, out := c.runOut count, p := c.p.ranged (onesOf c.bits ≠ 0) }
  else
    { bits := afterWord c.p.k1 c.bits
      out := c.out ++ [valueOf c.p.k1 c.bits]
      p := (c.p.rated (onesOf c.bits)).ranged (wordValue c.p.k1 c.bits = 0) }

def Fits (count : ℕ) : ℕ → Cursor → Prop
  | 0, _ => True
  | turns + 1, c => c.out.length < count → c.bits ≠ [] → c.TurnFits count ∧ Fits count turns (c.next count)

/-- The coefficients that the turns lead to. -/
def run (count : ℕ) : ℕ → Cursor → List Int16
  | 0, c => c.out
  | turns + 1, c => if c.out.length < count ∧ c.bits ≠ [] then run count turns (c.next count) else c.out

end Cursor

/-- The stream is one that `rlgr_decode` gets through. -/
def StreamFits (data : List UInt8) (count : ℕ) : Prop := Cursor.Fits count (data.length * 8) ⟨bytesBits data, [], .new⟩

def streamCoeffs (data : List UInt8) (count : ℕ) : List Int16 :=
  resize (Cursor.run count (data.length * 8) ⟨bytesBits data, [], .new⟩) count

/-! ## Reading -/

theorem shl_add_lt {k w q r : ℕ} (hk : k ≤ w) (hr : r < 2^k) : q * 2^k % 2^w + r < 2^w := by
  have hpow : 2^w = 2^k * 2^(w - k) := by rw [← Nat.pow_add, Nat.add_sub_cancel' hk]
  rw [hpow, Nat.mul_comm q, Nat.mul_mod_mul_left]
  have hlt : q % 2^(w - k) + 1 ≤ 2^(w - k) := Nat.mod_lt _ (Nat.two_pow_pos _)
  calc 2^k * (q % 2^(w - k)) + r < 2^k * (q % 2^(w - k)) + 2^k := Nat.add_lt_add_left hr _
    _ = 2^k * (q % 2^(w - k) + 1) := (Nat.mul_succ _ _).symm
    _ ≤ 2^k * 2^(w - k) := Nat.mul_le_mul_left _ hlt

theorem numberOf_lt (n : ℕ) (bits : List Bool) (v : ℕ) : numberOf n bits v < (v + 1) * 2^n := by
  induction n generalizing bits v with
  | zero =>
    rw [numberOf]
    omega
  | succ n ih =>
    have hle : v * 2 % 2^32 + (bits.headD false).toNat + 1 ≤ (v + 1) * 2 := by
      have hbit : (bits.headD false).toNat ≤ 1 := Bool.toNat_le _
      have hmod := Nat.mod_le (v * 2) (2^32)
      omega
    calc numberOf (n + 1) bits v < (v * 2 % 2^32 + (bits.headD false).toNat + 1) * 2^n := ih _ _
      _ ≤ (v + 1) * 2 * 2^n := Nat.mul_le_mul_right _ hle
      _ = (v + 1) * 2^(n + 1) := by ring

namespace BitReader

theorem bit_eq (r : BitReader) : r.bit.1 = (r.rest.headD false).toNat ∧ r.bit.2.rest = r.rest.tail := by
  cases hrest : r.rest with
  | nil =>
    have hend : r.data.length * 8 ≤ r.pos := by
      have hlen := r.bitsLeft_eq
      rw [hrest, bitsLeft, List.length_nil] at hlen
      omega
    rw [bit, if_pos hend, hrest]
    exact ⟨rfl, rfl⟩
  | cons b tail =>
    rw [bit_cons hrest, rest_skip, hrest]
    exact ⟨rfl, rfl⟩

theorem bitsFrom_eq (n : ℕ) (r : BitReader) (v : ℕ) :
    (bitsFrom n r v).1 = numberOf n r.rest v ∧ (bitsFrom n r v).2.rest = r.rest.drop n := by
  induction n generalizing r v with
  | zero => exact ⟨rfl, rfl⟩
  | succ n ih =>
    obtain ⟨hbit, hrest⟩ := r.bit_eq
    obtain ⟨hnum, hafter⟩ := ih r.bit.2 (v * 2 % 2^32 + r.bit.1)
    rw [bitsFrom, hnum, hafter, hrest, hbit, List.drop_tail]
    exact ⟨rfl, rfl⟩

theorem onesFrom_eq (left : ℕ) (r : BitReader) (c : ℕ) (hleft : r.rest.length = left) (hc : c < 2^32) :
    (c + onesOf r.rest < 2^32 → ∃ r', onesFrom left r c = some (c + onesOf r.rest, r') ∧
        r'.rest = r.rest.drop (onesOf r.rest + 1)) ∧
      (2^32 ≤ c + onesOf r.rest → onesFrom left r c = none) := by
  induction left generalizing r c with
  | zero =>
    rw [List.length_eq_zero_iff] at hleft
    rw [hleft]
    refine ⟨fun _ => ⟨r, rfl, by rw [hleft]; rfl⟩, fun h => ?_⟩
    simp only [onesOf, List.takeWhile_nil, List.length_nil] at h
    omega
  | succ left ih =>
    obtain ⟨b, tail, hrest⟩ := List.exists_cons_of_length_eq_add_one hleft
    rw [hrest, List.length_cons] at hleft
    rw [onesFrom, bit_cons hrest]
    have hskip : (r.skip 1).rest = tail := by rw [rest_skip, hrest]; rfl
    cases b with
    | false =>
      have hones : onesOf r.rest = 0 := by rw [hrest]; rfl
      rw [if_neg (show ¬ (false.toNat, r.skip 1).1 = 1 from Nat.zero_ne_one), hones]
      exact ⟨fun _ => ⟨r.skip 1, rfl, rest_skip r 1⟩, fun h => by omega⟩
    | true =>
      have hones : onesOf r.rest = onesOf tail + 1 := by rw [hrest]; rfl
      rw [if_pos (show (true.toNat, r.skip 1).1 = 1 from rfl), hones]
      unfold addU32
      by_cases hroom : c + 1 < 2^32
      · obtain ⟨hfits, hnot⟩ := ih (r.skip 1) (c + 1) (by rw [hskip]; omega) hroom
        rw [hskip] at hfits hnot
        rw [if_pos hroom, Option.bind_some]
        refine ⟨fun h => ?_, fun h => hnot (by omega)⟩
        obtain ⟨r', hr', hrest'⟩ := hfits (by omega)
        refine ⟨r', by rw [hr']; congr 2; omega, ?_⟩
        rw [hrest', hrest, List.drop_succ_cons]
      · rw [if_neg hroom]
        exact ⟨fun h => by omega, fun _ => rfl⟩

theorem onesRun_eq (r : BitReader) : (onesOf r.rest < 2^32 → ∃ r', r.onesRun = some (onesOf r.rest, r') ∧
        r'.rest = r.rest.drop (onesOf r.rest + 1)) ∧
      (2^32 ≤ onesOf r.rest → r.onesRun = none) := by
  have hrun := onesFrom_eq r.bitsLeft r 0 r.bitsLeft_eq.symm (by decide)
  rwa [Nat.zero_add] at hrun

theorem bits_eq (r : BitReader) (n : ℕ) :
    ∃ r', (if 0 < n then r.bits n else (0, r)) = (numberOf n r.rest 0, r') ∧ r'.rest = r.rest.drop n := by
  obtain ⟨hnum, hrest⟩ := bitsFrom_eq n r 0
  split_ifs with hn
  · exact ⟨(r.bits n).2, Prod.ext hnum rfl, hrest⟩
  · obtain rfl : n = 0 := by omega
    exact ⟨r, rfl, rfl⟩

end BitReader

section

variable {r : BitReader} {p : Params} (mode : RlgrMode)

theorem wordValue_lt {k1 : ℕ} (hk1 : k1 < 32) (bits : List Bool) : wordValue k1 bits < 2^32 := by
  refine shl_add_lt (Nat.le_of_lt hk1) ?_
  have hlt := numberOf_lt k1 (bits.drop (onesOf bits + 1)) 0
  omega

theorem grDecode_eq (hp : p.Ok) :
    (WordFits p r.rest → ∃ r', grDecode r p mode = some (wordValue p.k1 r.rest, r', p.rated (onesOf r.rest)) ∧
        r'.rest = afterWord p.k1 r.rest) ∧
      (¬ WordFits p r.rest → grDecode r p mode = none) := by
  obtain ⟨hcounted, hmany⟩ := r.onesRun_eq
  have hread : onesOf r.rest < 2^32 → ∃ r', r'.rest = afterWord p.k1 r.rest ∧ grDecode r p mode =
      (shlU32 (onesOf r.rest) p.k1).bind fun high =>
        (addU32 high (numberOf p.k1 (r.rest.drop (onesOf r.rest + 1)) 0)).bind fun val =>
          (p.adapt (onesOf r.rest)).bind fun p => some (val, r', p) := by
    intro hones
    obtain ⟨r₁, hr₁, hrest₁⟩ := hcounted hones
    obtain ⟨r₂, hr₂, hrest₂⟩ := r₁.bits_eq p.k1
    refine ⟨r₂, by rw [hrest₂, hrest₁, afterWord], ?_⟩
    simp only [grDecode, hr₁, Option.bind_eq_bind, Option.bind_some, hr₂, hrest₁]
    rfl
  constructor
  · rintro ⟨hk1, hones⟩
    obtain ⟨r', hrest, hdecode⟩ := hread (by omega)
    have hsum := wordValue_lt hk1 r.rest
    unfold wordValue at hsum
    refine ⟨r', ?_, hrest⟩
    have hadapt : p.adapt (onesOf r.rest) = some (p.rated (onesOf r.rest)) := by
      unfold Params.adapt Params.rated
      split_ifs
      · rfl
      · rw [addU32, if_pos hones, Option.map_some]
    rw [hdecode, shlU32, if_pos hk1, Option.bind_some, addU32, if_pos hsum, Option.bind_some, hadapt]
    rfl
  · intro hnot
    by_cases hones : onesOf r.rest < 2^32
    · obtain ⟨r', -, hdecode⟩ := hread hones
      rw [hdecode]
      by_cases hk1 : p.k1 < 32
      · -- The ones do not go into the parameter.
        have hk1p : p.k1p < 256 := by
          have := hp.2
          unfold lsGr at this
          omega
        have hover : 2^32 ≤ p.k1p + onesOf r.rest := by
          by_contra hlt
          exact hnot ⟨hk1, by omega⟩
        have hadapt : p.adapt (onesOf r.rest) = none := by
          rw [Params.adapt, if_neg (by omega), addU32, if_neg (by omega)]
          rfl
        rw [hadapt]
        cases shlU32 (onesOf r.rest) p.k1 with
        | none => rfl
        | some high =>
          rw [Option.bind_some]
          cases addU32 high (numberOf p.k1 (r.rest.drop (onesOf r.rest + 1)) 0) <;> rfl
      · rw [shlU32, if_neg hk1]
        rfl
    · simp only [grDecode, hmany (by omega), Option.bind_eq_bind, Option.bind_none]

/-! ## Turns taken -/

def Decoding.cursor (s : Decoding) : Cursor := ⟨s.r.rest, s.out, s.p⟩

theorem asI32_eq_min {n : ℕ} (hn : n < 2^32) : asI32 n = -2^31 ↔ n = 2^31 := by
  unfold asI32
  split_ifs <;> omega

theorem signedValue_eq {s : Decoding} (hp : s.p.Ok) : (MagnitudeFits s.p s.r.rest → ∃ s', signedValue s mode = some s' ∧
        s'.r.rest = (afterWord s.p.k1 s.r.rest).tail ∧ s'.out = s.out ++ [magnitudeOf s.p.k1 s.r.rest] ∧
        s'.p = s.p.rated (onesOf s.r.rest)) ∧
      (¬ MagnitudeFits s.p s.r.rest → signedValue s mode = none) := by
  obtain ⟨hreads, hnot⟩ := grDecode_eq (r := s.r) mode hp
  by_cases hword : WordFits s.p s.r.rest
  · obtain ⟨r', hdecode, hrest⟩ := hreads hword
    obtain ⟨hbit, htail⟩ := r'.bit_eq
    rw [hrest] at hbit htail
    unfold signedValue
    rw [hdecode]
    simp only [Option.bind_eq_bind, Option.bind_some]
    obtain ⟨val, hval⟩ : ∃ val, wordValue s.p.k1 s.r.rest = val := ⟨_, rfl⟩
    obtain ⟨neg, hneg⟩ : ∃ neg, (afterWord s.p.k1 s.r.rest).headD false = neg := ⟨_, rfl⟩
    rw [hneg] at hbit
    unfold MagnitudeFits magnitudeOf
    rw [hval, hneg, hbit]
    by_cases hmag : val + 1 < 2^32
    · rw [addU32, if_pos hmag, Option.bind_some]
      cases neg with
      | false =>
        rw [if_neg (show ¬ false.toNat ≠ 0 from not_not_intro rfl)]
        exact ⟨fun _ => ⟨_, rfl, htail, rfl, rfl⟩, fun h => absurd ⟨hword, hmag, fun h => Bool.false_ne_true h.2⟩ h⟩
      | true =>
        rw [if_pos (show true.toNat ≠ 0 from Nat.one_ne_zero), negI32]
        by_cases hmin : val + 1 = 2^31
        · rw [if_pos ((asI32_eq_min hmag).2 hmin)]
          exact ⟨fun h => absurd ⟨hmin, rfl⟩ h.2.2, fun _ => rfl⟩
        · rw [if_neg fun h => hmin ((asI32_eq_min hmag).1 h)]
          exact ⟨fun _ => ⟨_, rfl, htail, rfl, rfl⟩, fun h => absurd ⟨hword, hmag, fun h => hmin h.1⟩ h⟩
    · rw [addU32, if_neg hmag]
      exact ⟨fun h => absurd h.2.1 hmag, fun _ => rfl⟩
  · unfold signedValue
    rw [hnot hword]
    exact ⟨fun h => absurd h.1 hword, fun _ => rfl⟩

theorem unzigzag_eq {n : ℕ} (hn : n < 2^32) :
    (n ≠ 2^32 - 1 → unzigzag n = some (if (n : ℤ) % 2 ≠ 0 then -(((n : ℤ) + 1) / 2) else (n : ℤ) / 2)) ∧
      (n = 2^32 - 1 → unzigzag n = none) := by
  unfold unzigzag
  constructor
  · intro hne
    by_cases hodd : n % 2 ≠ 0
    · have hmin : ¬ asI32 ((n + 1) / 2) = -2^31 := by
        rw [asI32_eq_min (by omega)]
        omega
      rw [if_pos hodd, addU32, if_pos (by omega), Option.bind_some, negI32, if_neg hmin, asI32, if_pos (by omega),
        if_pos (by omega)]
      norm_cast
    · rw [if_neg hodd, asI32, if_pos (by omega), if_neg (by omega)]
      norm_cast
  · rintro rfl
    decide

theorem Params.Ok.afterRun_eq (hp : p.Ok) (hk : p.k < 64) (runs : ℕ) :
    p.afterRun runs = some (p.ranged (runs ≠ 0)) := by
  have hkp : p.kp < 512 := by
    have := hp.1
    unfold lsGr at this
    omega
  have hup : p.up = some (p.ranged true) := by
    unfold Params.up Params.ranged upGr
    rw [addU32, if_pos (by omega), Option.map_some, if_pos rfl]
  rw [Params.afterRun, hup, Params.down_eq]
  by_cases hruns : runs = 0
  · rw [if_pos hruns, decide_eq_false (not_not_intro hruns)]
  · rw [if_neg hruns, decide_eq_true hruns]

/-- A turn leads on where its words fit, and ends the decoder where they do not. -/
def Leads (turn : Option Decoding) (fits : Prop) (c : Cursor) : Prop :=
  (fits → ∃ s', turn = some s' ∧ s'.cursor = c ∧ s'.p.Ok) ∧ (¬ fits → turn = none)

theorem runTurn_leads (count : ℕ) {s : Decoding} (hp : s.p.Ok) (hk0 : s.p.k ≠ 0) :
    Leads (runTurn mode count s) (s.cursor.TurnFits count) (s.cursor.next count) := by
  obtain ⟨hcounted, hmany⟩ := s.r.onesRun_eq
  have hfits : s.cursor.TurnFits count ↔ s.p.k < 64 ∧ onesOf s.r.rest < 2^32 ∧
      ((s.cursor.runOut count).length < count → MagnitudeFits s.p s.cursor.afterRun) := by
    unfold Cursor.TurnFits
    exact if_pos hk0 ▸ Iff.rfl
  unfold Leads
  rw [hfits]
  by_cases hones : onesOf s.r.rest < 2^32
  swap
  · unfold runTurn
    rw [hmany (by omega)]
    exact ⟨fun h => absurd h.2.1 hones, fun _ => rfl⟩
  obtain ⟨r₁, hr₁, hrest₁⟩ := hcounted hones
  by_cases hk : s.p.k < 64
  swap
  · unfold runTurn
    rw [hr₁]
    simp only [Option.bind_eq_bind, Option.bind_some]
    rw [shlUsize, if_neg hk]
    exact ⟨fun h => absurd h.1 hk, fun _ => rfl⟩
  obtain ⟨r₂, hr₂, hrest₂⟩ := r₁.bits_eq s.p.k
  rw [hrest₁] at hr₂ hrest₂
  have hsum : onesOf s.r.rest * 2^s.p.k % 2^64 + numberOf s.p.k (s.r.rest.drop (onesOf s.r.rest + 1)) 0 < 2^64 := by
    refine shl_add_lt (Nat.le_of_lt hk) ?_
    have hlt := numberOf_lt s.p.k (s.r.rest.drop (onesOf s.r.rest + 1)) 0
    omega
  obtain ⟨zeros, hzeros⟩ : ∃ zeros, onesOf s.r.rest * 2^s.p.k % 2^64 +
      numberOf s.p.k (s.r.rest.drop (onesOf s.r.rest + 1)) 0 = zeros := ⟨_, rfl⟩
  obtain ⟨out, hout⟩ : ∃ out, s.out ++ List.replicate (min zeros (count - s.out.length)) 0 = out := ⟨_, rfl⟩
  have hlen : s.cursor.runOut count = out := by
    rw [← hout, ← hzeros]
    rfl
  have hafter : s.cursor.afterRun = r₂.rest := hrest₂.symm
  have hturn : runTurn mode count s =
      (if out.length < count then signedValue ⟨r₂, out, s.p⟩ mode else some ⟨r₂, out, s.p⟩).bind fun s' =>
        (s'.p.afterRun (onesOf s.r.rest)).bind fun p => some { s' with p } := by
    unfold runTurn
    rw [hr₁]
    simp only [Option.bind_eq_bind, Option.bind_some]
    rw [shlUsize, if_pos hk, Option.bind_some, hr₂]
    dsimp only
    rw [addUsize, if_pos hsum, Option.bind_some, hzeros, hout]
    split_ifs <;> rfl
  have hnext : s.cursor.next count =
      if out.length < count then
        { bits := (afterWord s.p.k1 r₂.rest).tail
          out := out ++ [magnitudeOf s.p.k1 r₂.rest]
          p := (s.p.rated (onesOf r₂.rest)).ranged (onesOf s.r.rest ≠ 0) }
      else { bits := r₂.rest, out, p := s.p.ranged (onesOf s.r.rest ≠ 0) } := by
    unfold Cursor.next
    rw [hlen, hafter]
    exact if_pos hk0
  rw [hturn, hnext, hlen, hafter]
  by_cases hroom : out.length < count
  · obtain ⟨hreads, hnot⟩ := signedValue_eq (s := ⟨r₂, out, s.p⟩) mode hp
    rw [if_pos hroom, if_pos hroom]
    constructor
    · rintro ⟨-, -, hmag⟩
      obtain ⟨s', hs', hrest, hone, hp'⟩ := hreads (hmag hroom)
      have hok : s'.p.Ok := by
        rw [hp']
        exact Params.Ok.rated hp _
      have hk' : s'.p.k < 64 := by
        rw [hp']
        exact hk
      rw [hs', Option.bind_some, hok.afterRun_eq hk']
      refine ⟨_, rfl, ?_, hok.ranged _⟩
      unfold Decoding.cursor
      rw [hrest, hone, hp']
    · intro h
      rw [hnot fun hmag => h ⟨hk, hones, fun _ => hmag⟩]
      rfl
  · rw [if_neg hroom, if_neg hroom, Option.bind_some, hp.afterRun_eq hk]
    exact ⟨fun _ => ⟨_, rfl, rfl, hp.ranged _⟩, fun h => absurd ⟨hk, hones, fun h => absurd h hroom⟩ h⟩

theorem valueTurn_leads (count : ℕ) {s : Decoding} (hp : s.p.Ok) (hk0 : s.p.k = 0) :
    Leads (valueTurn mode s) (s.cursor.TurnFits count) (s.cursor.next count) := by
  obtain ⟨hreads, hnot⟩ := grDecode_eq (r := s.r) mode hp
  have hfits : s.cursor.TurnFits count ↔ WordFits s.p s.r.rest ∧ wordValue s.p.k1 s.r.rest ≠ 2^32 - 1 := by
    unfold Cursor.TurnFits
    exact if_neg (not_not_intro hk0) ▸ Iff.rfl
  have hnext : s.cursor.next count =
      { bits := afterWord s.p.k1 s.r.rest
        out := s.out ++ [valueOf s.p.k1 s.r.rest]
        p := (s.p.rated (onesOf s.r.rest)).ranged (wordValue s.p.k1 s.r.rest = 0) } := by
    unfold Cursor.next
    exact if_neg (not_not_intro hk0)
  unfold Leads
  rw [hfits, hnext]
  by_cases hword : WordFits s.p s.r.rest
  · obtain ⟨r', hdecode, hrest⟩ := hreads hword
    have hlt := wordValue_lt hword.1 s.r.rest
    obtain ⟨hsome, hnone⟩ := unzigzag_eq hlt
    unfold valueTurn
    rw [hdecode]
    simp only [Option.bind_eq_bind, Option.bind_some]
    by_cases hmax : wordValue s.p.k1 s.r.rest = 2^32 - 1
    · rw [hnone hmax]
      exact ⟨fun h => absurd hmax h.2, fun _ => rfl⟩
    · have hv := hsome hmax
      have hok : (s.p.rated (onesOf s.r.rest)).Ok := hp.rated _
      have hsmall : (s.p.rated (onesOf s.r.rest)).k ≤ 32 := by
        rw [show (s.p.rated (onesOf s.r.rest)).k = s.p.k from rfl, hk0]
        decide
      have hcursor : ∀ p, Decoding.cursor ⟨r', s.out ++ [valueOf s.p.k1 s.r.rest], p⟩ =
          ⟨afterWord s.p.k1 s.r.rest, s.out ++ [valueOf s.p.k1 s.r.rest], p⟩ := by
        intro p
        rw [Decoding.cursor, hrest]
      rw [hv, Option.bind_some]
      by_cases hzero : wordValue s.p.k1 s.r.rest = 0
      · rw [if_pos hzero, hok.up hsmall, decide_eq_true hzero]
        exact ⟨fun _ => ⟨_, rfl, hcursor _, hok.ranged _⟩, fun h => absurd ⟨hword, hmax⟩ h⟩
      · rw [if_neg hzero, Params.down_eq, decide_eq_false hzero]
        exact ⟨fun _ => ⟨_, rfl, hcursor _, hok.ranged _⟩, fun h => absurd ⟨hword, hmax⟩ h⟩
  · unfold valueTurn
    rw [hnot hword]
    exact ⟨fun h => absurd h.1 hword, fun _ => rfl⟩

theorem decodeTurn_leads (count : ℕ) {s : Decoding} (hp : s.p.Ok) :
    Leads (decodeTurn mode count s) (s.cursor.TurnFits count) (s.cursor.next count) := by
  unfold decodeTurn
  by_cases hk0 : s.p.k = 0
  · rw [if_neg (not_not_intro hk0)]
    exact valueTurn_leads mode count hp hk0
  · rw [if_pos hk0]
    exact runTurn_leads mode count hp hk0

theorem decodeLoop_eq (count turns : ℕ) {s : Decoding} (hp : s.p.Ok) :
    (s.cursor.Fits count turns → ∃ s', decodeLoop mode count turns s = some s' ∧ s'.out = s.cursor.run count turns) ∧
      (¬ s.cursor.Fits count turns → decodeLoop mode count turns s = none) := by
  induction turns generalizing s with
  | zero => exact ⟨fun _ => ⟨s, rfl, rfl⟩, fun h => absurd trivial h⟩
  | succ turns ih =>
    have hgoes : (s.out.length < count ∧ 0 < s.r.bitsLeft) ↔ (s.cursor.out.length < count ∧ s.cursor.bits ≠ []) := by
      rw [s.r.bitsLeft_eq, List.length_pos_iff]
      rfl
    obtain ⟨hleads, hends⟩ := decodeTurn_leads mode count hp
    unfold decodeLoop Cursor.Fits Cursor.run
    by_cases hmore : s.out.length < count ∧ 0 < s.r.bitsLeft
    · obtain ⟨hlen, hbits⟩ := hgoes.1 hmore
      rw [if_pos hmore, if_pos (hgoes.1 hmore)]
      by_cases hfits : s.cursor.TurnFits count
      · obtain ⟨s', hs', hcursor, hok⟩ := hleads hfits
        obtain ⟨hyes, hno⟩ := ih hok
        rw [hcursor] at hyes hno
        rw [hs', Option.bind_some]
        exact ⟨fun h => hyes (h hlen hbits).2, fun h => hno fun hall => h fun _ _ => ⟨hfits, hall⟩⟩
      · rw [hends hfits, Option.bind_none]
        exact ⟨fun h => absurd (h hlen hbits).1 hfits, fun _ => rfl⟩
    · rw [if_neg hmore, if_neg fun h => hmore (hgoes.2 h)]
      exact ⟨fun _ => ⟨s, rfl, rfl⟩, fun h => absurd (fun hlen hbits => absurd (hgoes.2 ⟨hlen, hbits⟩) hmore) h⟩

theorem Cursor.length_next_lt (count : ℕ) {c : Cursor} (h : c.bits ≠ []) :
    (c.next count).bits.length < c.bits.length := by
  have hpos := List.length_pos_iff.2 h
  unfold Cursor.next
  split_ifs
  · simp only [afterWord, Cursor.afterRun, List.length_tail, List.length_drop]
    omega
  · simp only [Cursor.afterRun, List.length_drop]
    omega
  · simp only [afterWord, List.length_drop]
    omega

theorem decodeLoop_add (count turns more : ℕ) {s : Decoding} (hp : s.p.Ok) (hturns : s.r.rest.length ≤ turns) :
    decodeLoop mode count (turns + more) s = decodeLoop mode count turns s := by
  have hstop : ∀ (turns : ℕ) (s : Decoding), ¬ (s.out.length < count ∧ 0 < s.r.bitsLeft) →
      decodeLoop mode count turns s = some s := by
    intro turns s hdone
    cases turns with
    | zero => rfl
    | succ turns => rw [decodeLoop, if_neg hdone]
  induction turns generalizing s with
  | zero =>
    have hempty : ¬ (s.out.length < count ∧ 0 < s.r.bitsLeft) := by
      rw [s.r.bitsLeft_eq]
      omega
    rw [hstop _ s hempty, hstop _ s hempty]
  | succ turns ih =>
    by_cases hmore : s.out.length < count ∧ 0 < s.r.bitsLeft
    · rw [Nat.succ_add, decodeLoop, decodeLoop, if_pos hmore, if_pos hmore]
      obtain ⟨hleads, hends⟩ := decodeTurn_leads mode count hp
      by_cases hfits : s.cursor.TurnFits count
      · obtain ⟨s', hs', hcursor, hok⟩ := hleads hfits
        have hbits : s.cursor.bits ≠ [] := by
          rw [s.r.bitsLeft_eq] at hmore
          exact List.length_pos_iff.1 hmore.2
        have hshort : s'.r.rest.length < s.r.rest.length := by
          have hlt := Cursor.length_next_lt count hbits
          rwa [← hcursor] at hlt
        rw [hs', Option.bind_some, Option.bind_some]
        exact ih hok (by omega)
      · rw [hends hfits, Option.bind_none, Option.bind_none]
    · rw [hstop _ s hmore, hstop _ s hmore]

theorem rlgrDecode_eq (data : List UInt8) (count : ℕ) :
    (StreamFits data count → rlgrDecode data mode count = some (streamCoeffs data count)) ∧
      (¬ StreamFits data count → rlgrDecode data mode count = none) := by
  obtain ⟨hyes, hno⟩ := decodeLoop_eq mode count (data.length * 8) (s := ⟨.new data, [], .new⟩) Params.ok_new
  unfold rlgrDecode
  refine ⟨fun h => ?_, fun h => by rw [hno h]; rfl⟩
  obtain ⟨s', hs', hout⟩ := hyes h
  rw [hs', Option.map_some, hout]
  rfl

theorem length_streamCoeffs (data : List UInt8) (count : ℕ) : (streamCoeffs data count).length = count := by
  rw [streamCoeffs, resize, List.length_append, List.length_take, List.length_replicate]
  omega

end

end Rdpio.Graphics.Rfx
