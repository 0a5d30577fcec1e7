import Mathlib.Tactic.Ring
import Rdpio.Graphics.Rfx

/-!
# The RemoteFX entropy coder undone

Encoder and decoder adapt their parameters by the same values, so the decoder reads what the encoder wrote, as long as no
value comes while the Golomb-Rice parameter, which nothing caps, is 32 or more (`rlgr_roundTrip_iff`).
-/

namespace Rdpio.Graphics.Rfx

open Lib

namespace BitReader

def rest (r : BitReader) : List Bool := (bytesBits r.data).drop r.pos

def skip (r : BitReader) (n : ℕ) : BitReader := { r with pos := r.pos + n }

variable {r : BitReader} {tail : List Bool}

@[simp]
theorem rest_skip (r : BitReader) (n : ℕ) : (r.skip n).rest = r.rest.drop n := by
  rw [rest, rest, List.drop_drop]
  rfl

@[simp]
theorem skip_skip (r : BitReader) (m n : ℕ) : (r.skip m).skip n = r.skip (m + n) := by
  simp [skip, Nat.add_assoc]

@[simp]
theorem skip_zero (r : BitReader) : r.skip 0 = r := rfl

theorem bitsLeft_eq (r : BitReader) : r.bitsLeft = r.rest.length := by
  rw [bitsLeft, rest, List.length_drop, length_bytesBits]
  omega

theorem bit_cons {b : Bool} (h : r.rest = b :: tail) : r.bit = (b.toNat, r.skip 1) := by
  have hlt : r.pos < r.data.length * 8 := by
    have hlen := congrArg List.length h
    rw [← bitsLeft_eq, bitsLeft, List.length_cons] at hlen
    omega
  have hget : (bytesBits r.data)[r.pos]? = some b := by
    have h0 := congrArg (·[0]?) h
    simpa [rest] using h0
  rw [getElem?_bytesBits r.data hlt, Option.some.injEq] at hget
  rw [bit, if_neg (by omega), shiftRight_and_one _ (by omega), hget]
  rfl

theorem bitsFrom_binary {n v a : ℕ} (h : r.rest = binary n v ++ tail) (ha : a * 2^n + v % 2^n < 2^32) :
    bitsFrom n r a = (a * 2^n + v % 2^n, r.skip n) := by
  induction n generalizing r a with
  | zero => simp [bitsFrom, Nat.mod_one]
  | succ n ih =>
    rw [binary, List.cons_append] at h
    have hmod : v % 2^(n + 1) = (v.testBit n).toNat * 2^n + v % 2^n := by
      rw [Nat.pow_succ, Nat.mod_mul, Nat.toNat_testBit, Nat.mul_comm, Nat.add_comm]
    have hpos : 0 < 2^n := Nat.two_pow_pos n
    have hsplit : a * 2^(n + 1) + v % 2^(n + 1) = (a * 2 + (v.testBit n).toNat) * 2^n + v % 2^n := by
      rw [hmod, Nat.pow_succ]
      ring
    rw [hsplit] at ha ⊢
    have hsmall : a * 2 < 2^32 := by
      have := Nat.le_mul_of_pos_right (a * 2 + (v.testBit n).toNat) hpos
      omega
    rw [bitsFrom, bit_cons h, Nat.mod_eq_of_lt hsmall, ih (by rw [rest_skip, h]; rfl) ha, skip_skip, Nat.add_comm 1 n]

theorem bits_binary {n v : ℕ} (h : r.rest = binary n v ++ tail) (hv : v % 2^n < 2^32) :
    r.bits n = (v % 2^n, r.skip n) := by
  rw [bits, bitsFrom_binary h (by rwa [Nat.zero_mul, Nat.zero_add]), Nat.zero_mul, Nat.zero_add]

theorem onesFrom_unary {q c left : ℕ} (h : r.rest = unary q ++ tail) (hc : c + q < 2^32) (hleft : q < left) :
    onesFrom left r c = some (c + q, r.skip (q + 1)) := by
  induction q generalizing r c left with
  | zero =>
    obtain ⟨left, rfl⟩ := Nat.exists_eq_succ_of_ne_zero (Nat.ne_of_gt hleft)
    rw [onesFrom, bit_cons (b := false) h]
    rfl
  | succ q ih =>
    obtain ⟨left, rfl⟩ := Nat.exists_eq_succ_of_ne_zero (Nat.ne_of_gt (Nat.zero_lt_of_lt hleft))
    rw [unary_succ, List.cons_append] at h
    rw [onesFrom, bit_cons h, if_pos (show (true.toNat, r.skip 1).1 = 1 from rfl), addU32, if_pos (by omega),
      Option.bind_some,
      ih (by rw [rest_skip, h]; rfl) (by omega) (by omega), skip_skip]
    congr 2
    · omega
    · congr 1
      omega

theorem onesRun_unary {q : ℕ} (h : r.rest = unary q ++ tail) (hq : q < 2^32) :
    r.onesRun = some (q, r.skip (q + 1)) := by
  rw [onesRun, onesFrom_unary h (by omega) ?_, Nat.zero_add]
  rw [bitsLeft_eq, h, List.length_append, length_unary]
  omega

end BitReader

/-! ## Writing -/

namespace BitWriter

def Holds (w : BitWriter) (bs : List Bool) : Prop :=
  bytesBits w.out = bs ++ List.replicate ((8 - w.nbits) % 8) false ∧ w.nbits = bs.length % 8

variable {w : BitWriter} {bs : List Bool}

theorem holds_new : new.Holds [] := ⟨rfl, rfl⟩

theorem Holds.open (h : w.Holds bs) :
    ∃ init last, (if w.nbits = 0 then w.out ++ [0] else w.out) = init ++ [last] ∧
      bytesBits init ++ byteBits last = bs ++ List.replicate (8 - w.nbits) false ∧
      (bytesBits init).length + w.nbits = bs.length := by
  obtain ⟨hbits, hn⟩ := h
  have hlt : w.nbits < 8 := by omega
  split_ifs with h0
  · have hbits' : bytesBits w.out = bs := by rw [hbits, h0]; simp
    refine ⟨w.out, 0, rfl, ?_, ?_⟩
    · rw [hbits', h0]
      rfl
    · rw [hbits', h0, Nat.add_zero]
  · have hlen := congrArg List.length hbits
    rw [length_bytesBits, List.length_append, List.length_replicate] at hlen
    have hne : w.out ≠ [] := by
      intro hnil
      rw [hnil, List.length_nil] at hlen
      omega
    obtain ⟨init, last, hout⟩ := (List.eq_nil_or_concat w.out).resolve_left hne
    rw [List.concat_eq_append] at hout
    refine ⟨init, last, hout, ?_, ?_⟩
    · rw [← bytesBits_singleton, ← bytesBits_append, ← hout, hbits]
      congr 2
      omega
    · rw [hout, List.length_append, List.length_singleton] at hlen
      rw [length_bytesBits]
      omega

theorem Holds.bit (h : w.Holds bs) (b : ℕ) : (w.bit b).Holds (bs ++ [b.testBit 0]) := by
  have hlt : w.nbits < 8 := by have := h.2; omega
  obtain ⟨init, last, hout, hbits, hlen⟩ := h.open
  have hnbits : (w.bit b).nbits = (bs ++ [b.testBit 0]).length % 8 := by
    have := h.2
    rw [List.length_append, List.length_singleton]
    change (w.nbits + 1) % 8 = _
    omega
  refine ⟨?_, hnbits⟩
  -- The bits of the last byte from `nbits` on are clear.
  have hpad : (8 - (w.bit b).nbits) % 8 = 8 - w.nbits - 1 := by
    change (8 - (w.nbits + 1) % 8) % 8 = _
    omega
  obtain ⟨m, hm⟩ : ∃ m, 8 - w.nbits = m + 1 := ⟨7 - w.nbits, by omega⟩
  rw [hpad, hm, Nat.add_sub_cancel]
  rw [hm, List.replicate_succ, List.append_cons] at hbits
  have hone : (b &&& 1 ≠ 0) ↔ b.testBit 0 = true := by
    rw [Nat.and_one_is_mod, Nat.testBit_zero]
    simp
  unfold BitWriter.bit
  dsimp only
  rw [hout]
  split_ifs with hb
  · rw [hone] at hb
    have hidx : (init ++ [last]).length - 1 = init.length := by simp
    rw [hidx, List.getD_append_right _ _ _ _ (Nat.le_refl _), Nat.sub_self, List.set_append_right _ _ (Nat.le_refl _),
      Nat.sub_self, List.set_cons_zero, bytesBits_append, bytesBits_singleton, List.getD_cons_zero,
      byteBits_or last hlt, hb]
    have hset := congrArg (fun l => l.set bs.length true) hbits
    rw [← hlen, List.set_append_right _ _ (Nat.le_add_right _ _), Nat.add_sub_cancel_left, hlen, List.append_assoc,
      List.set_append_right _ _ (Nat.le_refl _), Nat.sub_self] at hset
    rw [hset]
    simp
  · rw [hone, Bool.not_eq_true] at hb
    rw [bytesBits_append, bytesBits_singleton, hbits, hb]

theorem bits_eq_none {v n : ℕ} (w : BitWriter) (hn : 32 < n) : w.bits v n = none := by
  obtain ⟨i, rfl⟩ := Nat.exists_eq_succ_of_ne_zero (Nat.ne_of_gt (Nat.zero_lt_of_lt hn))
  rw [bits, shrU32, if_neg (by omega), Option.bind_none]

theorem Holds.bits (h : w.Holds bs) {v n : ℕ} (hn : n ≤ 32) :
    ∃ w', w.bits v n = some w' ∧ w'.Holds (bs ++ binary n v) := by
  induction n generalizing w bs with
  | zero => exact ⟨w, rfl, by simpa [binary] using h⟩
  | succ i ih =>
    have hbit : (v / 2^i &&& 1).testBit 0 = v.testBit i := by
      rw [Nat.and_one_is_mod, Nat.testBit_zero, Nat.mod_mod, Nat.testBit_eq_decide_div_mod_eq]
    have hnext := h.bit (v / 2^i &&& 1)
    rw [hbit] at hnext
    obtain ⟨w', hw', hholds⟩ := ih hnext (by omega)
    refine ⟨w', ?_, ?_⟩
    · rw [BitWriter.bits, shrU32, if_pos (by omega), Option.bind_some, hw']
    · rwa [List.append_assoc, List.singleton_append] at hholds

theorem Holds.onesRun (h : w.Holds bs) (q : ℕ) : (w.onesRun q).Holds (bs ++ unary q) := by
  induction q generalizing w bs with
  | zero => exact h.bit 0
  | succ q ih =>
    have hnext := ih (h.bit 1)
    rw [unary_succ]
    rwa [List.append_assoc, Nat.testBit_one_zero, List.singleton_append] at hnext

end BitWriter

/-! ## Parameters

`rated` and `ranged` are the adaptation where nothing overflows. -/

namespace Params

/-- `k1` adapted to a quotient. -/
def rated (p : Params) (q : ℕ) : Params :=
  let k1p := if q = 0 then p.k1p - uqGr else p.k1p + q
  { p with k1p, k1 := k1p / 2^lsGr }

/-- `k` adapted to a run that was long, or not. -/
def ranged (p : Params) (long : Bool) : Params :=
  let kp := if long then p.kp + upGr else p.kp - dnGr
  { p with kp, k := kp / 2^lsGr }

/-- `k` and `k1` go by eighths. -/
def Ok (p : Params) : Prop := p.k = p.kp / 2^lsGr ∧ p.k1 = p.k1p / 2^lsGr

variable {p : Params}

theorem ok_new : new.Ok := ⟨by decide, by decide⟩

theorem Ok.rated (h : p.Ok) (q : ℕ) : (p.rated q).Ok := ⟨h.1, rfl⟩

theorem Ok.ranged (h : p.Ok) (long : Bool) : (p.ranged long).Ok := ⟨rfl, h.2⟩

theorem Ok.adapt (h : p.Ok) (hk1 : p.k1 < 32) {q : ℕ} (hq : q < 2^31) : p.adapt q = some (p.rated q) := by
  have hk1p : p.k1p < 256 := by
    have := h.2
    unfold lsGr at this
    omega
  unfold Params.adapt Params.rated
  split_ifs
  · rfl
  · rw [addU32, if_pos (by omega), Option.map_some]

theorem Ok.up (h : p.Ok) (hk : p.k ≤ 32) : p.up = some (p.ranged true) := by
  have hkp : p.kp < 272 := by
    have := h.1
    unfold lsGr at this
    omega
  unfold Params.up Params.ranged upGr
  rw [addU32, if_pos (by omega), Option.map_some, if_pos rfl]

theorem down_eq (p : Params) : p.down = p.ranged false := rfl

theorem Ok.range (h : p.Ok) (hk : p.k ≤ 32) (runs : ℕ) : p.afterRun runs = some (p.ranged (runs ≠ 0)) := by
  rw [afterRun, h.up hk, down_eq]
  by_cases hruns : runs = 0
  · rw [if_pos hruns, decide_eq_false (not_not_intro hruns)]
  · rw [if_neg hruns, decide_eq_true hruns]

end Params

def riceBits (k1 val : ℕ) : List Bool := unary (val / 2^k1) ++ binary k1 val

theorem grDecode_riceBits {r : BitReader} {p : Params} {val : ℕ} {tail : List Bool} (mode : RlgrMode) (hp : p.Ok)
    (hk1 : p.k1 < 32) (hval : val < 2^31) (h : r.rest = riceBits p.k1 val ++ tail) :
    grDecode r p mode = some (val, r.skip (riceBits p.k1 val).length, p.rated (val / 2^p.k1)) := by
  have hpos : 0 < 2^p.k1 := Nat.two_pow_pos _
  have hq : val / 2^p.k1 ≤ val := Nat.div_le_self _ _
  have hdiv := Nat.div_add_mod' val (2^p.k1)
  rw [riceBits, List.append_assoc] at h
  have hrest : (r.skip (val / 2^p.k1 + 1)).rest = binary p.k1 val ++ tail := by
    rw [BitReader.rest_skip, h, ← length_unary, List.drop_left]
  have hrem : (if 0 < p.k1 then (r.skip (val / 2^p.k1 + 1)).bits p.k1 else (0, r.skip (val / 2^p.k1 + 1))) =
      (val % 2^p.k1, r.skip (riceBits p.k1 val).length) := by
    have hskip : (r.skip (val / 2^p.k1 + 1)).skip p.k1 = r.skip (riceBits p.k1 val).length := by
      rw [BitReader.skip_skip, riceBits, List.length_append, length_unary, length_binary]
    split_ifs with h0
    · rw [BitReader.bits_binary hrest (by omega), hskip]
    · have hzero : p.k1 = 0 := by omega
      rw [← hskip, hzero]
      simp [Nat.mod_one]
  simp only [grDecode, BitReader.onesRun_unary h (by omega), Option.bind_eq_bind, Option.bind_some, hrem]
  rw [shlU32, if_pos hk1, Option.bind_some, Nat.mod_eq_of_lt (by omega), addU32, if_pos (by omega), Option.bind_some,
    hp.adapt hk1 (by omega), Option.bind_some, hdiv]
  rfl

theorem grEncode_eq_none {w : BitWriter} {val : ℕ} {p : Params} (mode : RlgrMode) (hk1 : 32 ≤ p.k1) :
    grEncode w val p mode = none := by
  rw [grEncode, shrU32, if_neg (by omega)]
  rfl

theorem binary_and {n v : ℕ} : binary n (v &&& (2^n - 1)) = binary n v := by
  have hgen : ∀ m ≤ n, binary m (v &&& (2^n - 1)) = binary m v := by
    intro m hm
    induction m with
    | zero => rfl
    | succ m ih =>
      rw [binary, binary, ih (by omega), Nat.testBit_and, Nat.testBit_two_pow_sub_one, decide_eq_true (by omega),
        Bool.and_true]
  exact hgen n (Nat.le_refl n)

theorem grEncode_spec {w : BitWriter} {bs : List Bool} (h : w.Holds bs) {val : ℕ} {p : Params} (mode : RlgrMode)
    (hp : p.Ok) (hk1 : p.k1 < 32) (hval : val < 2^31) :
    ∃ w', grEncode w val p mode = some (w', p.rated (val / 2^p.k1)) ∧ w'.Holds (bs ++ riceBits p.k1 val) := by
  have hq : val / 2^p.k1 ≤ val := Nat.div_le_self _ _
  have hpow : 2^p.k1 < 2^32 := Nat.pow_lt_pow_right (by decide) hk1
  have hpos : 0 < 2^p.k1 := Nat.two_pow_pos _
  have hones := h.onesRun (val / 2^p.k1)
  obtain ⟨w', hw', hholds⟩ := hones.bits (v := val &&& (2^p.k1 - 1)) (Nat.le_of_lt hk1)
  rw [binary_and, List.append_assoc] at hholds
  refine ⟨w', ?_, hholds⟩
  simp only [grEncode, shrU32, if_pos hk1, Option.bind_eq_bind, Option.bind_some,
    hp.adapt hk1 (by omega : val / 2^p.k1 < 2^31),
    shlU32, Nat.one_mul, Nat.mod_eq_of_lt hpow, subU32, if_pos (show 1 ≤ 2^p.k1 from hpos)]
  split_ifs with h0
  · rw [hw', Option.bind_some]
    rfl
  · have hzero : p.k1 = 0 := by omega
    rw [hzero, BitWriter.bits, ← hzero, Option.some.injEq] at hw'
    rw [← hw']
    rfl

def Codable : ℕ → List Int16 → Params → Prop
  | 0, _, _ => True
  | _ + 1, [], _ => True
  | n + 1, c :: coeffs, p =>
    if p.k ≠ 0 then
      p.k ≤ 32 ∧ zeroRun (c :: coeffs) / 2^p.k < 2^32 ∧
        match (c :: coeffs).drop (zeroRun (c :: coeffs)) with
        | [] => True
        | v :: rest =>
          p.k1 < 32 ∧ Codable n rest
            ((p.rated ((v.toInt.natAbs - 1) / 2^p.k1)).ranged (zeroRun (c :: coeffs) / 2^p.k ≠ 0))
    else p.k1 < 32 ∧ Codable n coeffs ((p.rated (zigzag c.toInt / 2^p.k1)).ranged (zigzag c.toInt = 0))

theorem toInt_lt (c : Int16) : c.toInt.natAbs ≤ 2^15 := by
  have h1 := c.toInt_lt
  have h2 := c.le_toInt
  omega

theorem clampI16_toInt (c : Int16) : clampI16 c.toInt = c := by
  have h1 := c.toInt_lt
  have h2 := c.le_toInt
  rw [clampI16, show max (-32768) (min c.toInt 32767) = c.toInt by omega, Int16.ofInt_toInt]

theorem zigzag_lt (c : Int16) : zigzag c.toInt < 2^31 := by
  have h := toInt_lt c
  unfold zigzag
  split_ifs <;> omega

theorem unzigzag_zigzag (c : Int16) : unzigzag (zigzag c.toInt) = some c.toInt := by
  have h1 := c.toInt_lt
  have h2 := c.le_toInt
  unfold unzigzag zigzag
  split_ifs with hneg hodd hodd
  · rw [addU32, if_pos (by omega), Option.bind_some, asI32, if_pos (by omega), negI32, if_neg (by omega),
      Option.some.injEq]
    omega
  · omega
  · omega
  · rw [asI32, if_pos (by omega), Option.some.injEq]
    omega

theorem replicate_zeroRun_append (coeffs : List Int16) :
    List.replicate (zeroRun coeffs) 0 ++ coeffs.drop (zeroRun coeffs) = coeffs := by
  induction coeffs with
  | nil => rfl
  | cons c coeffs ih =>
    unfold zeroRun at ih ⊢
    rw [List.takeWhile_cons]
    split_ifs with hc
    · rw [List.length_cons, List.replicate_succ, List.drop_succ_cons, List.cons_append, ih, eq_of_beq hc]
    · rfl

theorem zeroRun_le (coeffs : List Int16) : zeroRun coeffs ≤ coeffs.length := (List.takeWhile_prefix _).length_le

theorem ne_zero_of_drop_zeroRun {coeffs rest : List Int16} {v : Int16}
    (h : coeffs.drop (zeroRun coeffs) = v :: rest) : v ≠ 0 := by
  induction coeffs with
  | nil => simp at h
  | cons c coeffs ih =>
    unfold zeroRun at ih h
    rw [List.takeWhile_cons] at h
    split_ifs at h with hc
    · rw [List.length_cons, List.drop_succ_cons] at h
      exact ih h
    · rw [List.length_nil, List.drop_zero, List.cons.injEq] at h
      rw [← h.1]
      simpa using hc

theorem natAbs_pos_of_ne {v : Int16} (hv : v ≠ 0) : 1 ≤ v.toInt.natAbs := by
  rw [Nat.one_le_iff_ne_zero, Int.natAbs_ne_zero]
  intro h
  exact hv (Int16.toInt_inj.1 h)

/-- A magnitude less one, and a sign. -/
def signedBits (k1 : ℕ) (v : Int16) : List Bool := riceBits k1 (v.toInt.natAbs - 1) ++ [decide (v.toInt < 0)]

theorem writeSigned_spec {w : BitWriter} {bs : List Bool} (h : w.Holds bs) {v : Int16} (hv : v ≠ 0) {p : Params}
    (mode : RlgrMode) (hp : p.Ok) (hk1 : p.k1 < 32) :
    ∃ w', writeSigned w v p mode = some (w', p.rated ((v.toInt.natAbs - 1) / 2^p.k1)) ∧
      w'.Holds (bs ++ signedBits p.k1 v) := by
  have hle := toInt_lt v
  have hval : v.toInt.natAbs - 1 < 2^31 := by omega
  obtain ⟨w', hw', hholds⟩ := grEncode_spec h mode hp hk1 hval
  have hbit := hholds.bit (if v.toInt < 0 then 1 else 0)
  have hsign : (if v.toInt < 0 then 1 else 0).testBit 0 = decide (v.toInt < 0) := by
    split_ifs with hneg <;> simp [hneg]
  rw [hsign, List.append_assoc] at hbit
  refine ⟨_, ?_, hbit⟩
  simp only [writeSigned, subU32, if_pos (natAbs_pos_of_ne hv), Option.bind_eq_bind, Option.bind_some, hw']
  rfl

theorem writeSigned_eq_none {w : BitWriter} {v : Int16} {p : Params} (mode : RlgrMode) (h : v = 0 ∨ 32 ≤ p.k1) :
    writeSigned w v p mode = none := by
  rcases h with rfl | hk1
  · rfl
  · rw [writeSigned]
    cases subU32 v.toInt.natAbs 1 with
    | none => rfl
    | some mag =>
      simp only [Option.bind_eq_bind, Option.bind_some, grEncode_eq_none mode hk1]
      rfl

theorem signedValue_spec {r : BitReader} {p : Params} {v : Int16} (hv : v ≠ 0) {tail : List Bool}
    (mode : RlgrMode) (hp : p.Ok) (hk1 : p.k1 < 32) (h : r.rest = signedBits p.k1 v ++ tail) (out : List Int16) :
    signedValue ⟨r, out, p⟩ mode =
      some ⟨r.skip (signedBits p.k1 v).length, out ++ [v], p.rated ((v.toInt.natAbs - 1) / 2^p.k1)⟩ := by
  have hle := toInt_lt v
  have hpos := natAbs_pos_of_ne hv
  rw [signedBits, List.append_assoc] at h
  have hgr := grDecode_riceBits mode hp hk1 (by omega) h
  have hsign : (r.skip (riceBits p.k1 (v.toInt.natAbs - 1)).length).bit =
      ((decide (v.toInt < 0)).toNat, r.skip (signedBits p.k1 v).length) := by
    have hrest : (r.skip (riceBits p.k1 (v.toInt.natAbs - 1)).length).rest = decide (v.toInt < 0) :: tail := by
      rw [BitReader.rest_skip, h, List.drop_left]
      rfl
    rw [BitReader.bit_cons hrest, BitReader.skip_skip, signedBits, List.length_append, List.length_singleton]
  have hmag : addU32 (v.toInt.natAbs - 1) 1 = some v.toInt.natAbs := by
    rw [addU32, if_pos (by omega), Nat.sub_add_cancel hpos]
  have hval : asI32 v.toInt.natAbs = v.toInt.natAbs := by rw [asI32, if_pos (by omega)]
  simp only [signedValue, hgr, Option.bind_eq_bind, Option.bind_some, hmag, hsign, hval]
  by_cases hneg : v.toInt < 0
  · have habs : -(v.toInt.natAbs : ℤ) = v.toInt := by omega
    rw [decide_eq_true hneg, if_pos (by decide), negI32, if_neg (by omega), Option.bind_some, habs, clampI16_toInt]
    rfl
  · have habs : (v.toInt.natAbs : ℤ) = v.toInt := by omega
    rw [decide_eq_false hneg, if_neg (by decide), habs, clampI16_toInt]
    rfl

def runBits (k zeros : ℕ) : List Bool := unary (zeros / 2^k) ++ binary k (zeros % 2^k)

theorem lt_of_runs {k zeros : ℕ} (hk : k ≤ 32) (hruns : zeros / 2^k < 2^32) : zeros < 2^64 := by
  have hpow : 2^k ≤ 2^32 := Nat.pow_le_pow_right (by decide) hk
  rw [Nat.div_lt_iff_lt_mul (Nat.two_pow_pos k)] at hruns
  calc zeros < 2^32 * 2^k := hruns
    _ ≤ 2^32 * 2^32 := Nat.mul_le_mul_left _ hpow
    _ = 2^64 := by decide

section Runs

variable {w : BitWriter} {bs : List Bool} {coeffs : List Int16} {p : Params}

theorem writeRun_spec (h : w.Holds bs) (hk0 : p.k ≠ 0) (hk : p.k ≤ 32)
    (hruns : zeroRun coeffs / 2^p.k < 2^32) :
    ∃ w', writeRun w coeffs p = some (zeroRun coeffs / 2^p.k, w', coeffs.drop (zeroRun coeffs)) ∧
      w'.Holds (bs ++ runBits p.k (zeroRun coeffs)) := by
  have hlt := lt_of_runs hk hruns
  obtain ⟨zeros, hz⟩ : ∃ zeros, zeroRun coeffs = zeros := ⟨_, rfl⟩
  rw [hz] at hruns hlt ⊢
  have hdiv := Nat.div_add_mod' zeros (2^p.k)
  have hmod : zeros % 2^p.k < 2^p.k := Nat.mod_lt _ (Nat.two_pow_pos _)
  have hpow : 2^p.k ≤ 2^32 := Nat.pow_le_pow_right (by decide) hk
  obtain ⟨w', hw', hholds⟩ := (h.onesRun (zeros / 2^p.k)).bits (v := zeros % 2^p.k) hk
  rw [List.append_assoc] at hholds
  have hpartial : (zeros - zeros / 2^p.k * 2^p.k) % 2^32 = zeros % 2^p.k := by
    rw [show zeros - zeros / 2^p.k * 2^p.k = zeros % 2^p.k by omega, Nat.mod_eq_of_lt (by omega)]
  refine ⟨w', ?_, hholds⟩
  simp only [writeRun, hz, shrUsize, if_pos (show p.k < 64 by omega), Option.bind_eq_bind, Option.bind_some,
    Nat.mod_eq_of_lt hruns, shlUsize, Nat.mod_eq_of_lt (show zeros / 2^p.k * 2^p.k < 2^64 by omega), hpartial,
    if_pos (Nat.pos_of_ne_zero hk0), hw', hdiv]
  rfl

theorem writeRun_eq_none (hk : 32 < p.k) : writeRun w coeffs p = none := by
  by_cases h64 : p.k < 64
  · simp only [writeRun, shrUsize, shlUsize, if_pos h64, if_pos (show 0 < p.k by omega), Option.bind_eq_bind,
      Option.bind_some, BitWriter.bits_eq_none _ hk]
    rfl
  · simp only [writeRun, shrUsize, if_neg h64]
    rfl

theorem writeRun_of_long (h : w.Holds bs) (hk0 : p.k ≠ 0) (hk : p.k ≤ 32)
    (hruns : 2^32 ≤ zeroRun coeffs / 2^p.k) :
    ∃ runs w' rest, writeRun w coeffs p = some (runs, w', 0 :: rest) := by
  obtain ⟨zeros, hz⟩ : ∃ zeros, zeroRun coeffs = zeros := ⟨_, rfl⟩
  rw [hz] at hruns
  have hpow : 1 ≤ 2^p.k := Nat.one_le_two_pow
  have hpos : 0 < 2^p.k := Nat.two_pow_pos _
  have hle : zeros / 2^p.k * 2^p.k ≤ zeros := Nat.div_mul_le_self _ _
  have hcut : zeros / 2^p.k % 2^32 + 2^32 ≤ zeros / 2^p.k := by omega
  have hwritten : zeros / 2^p.k % 2^32 * 2^p.k + 2^32 ≤ zeros := by
    have h1 := Nat.mul_le_mul_right (2^p.k) hcut
    have h2 := Nat.le_mul_of_pos_right (2^32) hpos
    rw [Nat.add_mul] at h1
    omega
  have hpartial := Nat.mod_lt (zeros - zeros / 2^p.k % 2^32 * 2^p.k % 2^64) (Nat.two_pow_pos 32)
  have hmod : zeros / 2^p.k % 2^32 * 2^p.k % 2^64 ≤ zeros / 2^p.k % 2^32 * 2^p.k := Nat.mod_le _ _
  obtain ⟨w', hw', -⟩ := (h.onesRun (zeros / 2^p.k % 2^32)).bits
    (v := (zeros - zeros / 2^p.k % 2^32 * 2^p.k % 2^64) % 2^32) hk
  obtain ⟨m, hm⟩ : ∃ m, zeros / 2^p.k % 2^32 * 2^p.k % 2^64 +
      (zeros - zeros / 2^p.k % 2^32 * 2^p.k % 2^64) % 2^32 = m := ⟨_, rfl⟩
  have hlt : m < zeroRun coeffs := by omega
  have hdrop : ∃ rest, coeffs.drop m = 0 :: rest := by
    rw [← replicate_zeroRun_append coeffs, List.drop_append_of_le_length (by rw [List.length_replicate]; omega),
      List.drop_replicate]
    obtain ⟨j, hj⟩ := Nat.exists_eq_succ_of_ne_zero (Nat.sub_ne_zero_of_lt hlt)
    rw [hj, List.replicate_succ]
    exact ⟨_, rfl⟩
  obtain ⟨rest, hrest⟩ := hdrop
  refine ⟨zeros / 2^p.k % 2^32, w', rest, ?_⟩
  simp only [writeRun, hz, shrUsize, if_pos (show p.k < 64 by omega), Option.bind_eq_bind, Option.bind_some, shlUsize,
    if_pos (Nat.pos_of_ne_zero hk0), hw', hm, hrest]
  rfl

end Runs

theorem runTurn_spec {r : BitReader} {out : List Int16} {p : Params} {zeros count : ℕ} {tail : List Bool}
    (mode : RlgrMode) (hk0 : p.k ≠ 0) (hk : p.k ≤ 32) (hruns : zeros / 2^p.k < 2^32)
    (h : r.rest = runBits p.k zeros ++ tail) (hroom : out.length + zeros ≤ count) :
    runTurn mode count ⟨r, out, p⟩ =
      (if out.length + zeros < count
        then signedValue ⟨r.skip (runBits p.k zeros).length, out ++ List.replicate zeros 0, p⟩ mode
        else some ⟨r.skip (runBits p.k zeros).length, out ++ List.replicate zeros 0, p⟩).bind fun s =>
      (s.p.afterRun (zeros / 2^p.k)).map fun p => { s with p } := by
  have hlt := lt_of_runs hk hruns
  have hdiv := Nat.div_add_mod' zeros (2^p.k)
  have hmod : zeros % 2^p.k < 2^p.k := Nat.mod_lt _ (Nat.two_pow_pos _)
  have hpow : 2^p.k ≤ 2^32 := Nat.pow_le_pow_right (by decide) hk
  rw [runBits, List.append_assoc] at h
  have hlow : (r.skip (zeros / 2^p.k + 1)).bits p.k = (zeros % 2^p.k, r.skip (runBits p.k zeros).length) := by
    have hrest : (r.skip (zeros / 2^p.k + 1)).rest = binary p.k (zeros % 2^p.k) ++ tail := by
      rw [BitReader.rest_skip, h, ← length_unary, List.drop_left]
    rw [BitReader.bits_binary hrest (by rw [Nat.mod_mod]; omega), Nat.mod_mod, BitReader.skip_skip, runBits,
      List.length_append, length_unary, length_binary]
  have hout : min zeros (count - out.length) = zeros := by omega
  simp only [runTurn, BitReader.onesRun_unary h hruns, Option.bind_eq_bind, Option.bind_some, shlUsize,
    if_pos (show p.k < 64 by omega), Nat.mod_eq_of_lt (show zeros / 2^p.k * 2^p.k < 2^64 by omega),
    if_pos (Nat.pos_of_ne_zero hk0), hlow, addUsize, hdiv, if_pos hlt, hout, List.length_append, List.length_replicate]
  split_ifs
  · simp only [Option.map_eq_bind]
    rfl
  · simp only [Option.map_eq_bind]
    rfl

/-! ## Lists -/

/-- Wherever these bits come next, the decoder makes these coefficients of them, if they are the last. -/
def Decodes (mode : RlgrMode) (bits : List Bool) (coeffs : List Int16) (p : Params) : Prop :=
  ∀ (r : BitReader) (tail : List Bool) (out : List Int16) (turns : ℕ), r.rest = bits ++ tail → bits.length ≤ turns →
    ∃ s, decodeLoop mode (out.length + coeffs.length) turns ⟨r, out, p⟩ = some s ∧ s.out = out ++ coeffs

theorem decodes_nil (mode : RlgrMode) (p : Params) : Decodes mode [] [] p := by
  intro r tail out turns _ _
  refine ⟨⟨r, out, p⟩, ?_, (List.append_nil out).symm⟩
  cases turns with
  | zero => rfl
  | succ turns => rw [decodeLoop, if_neg (by simp)]

theorem Decodes.cons {mode : RlgrMode} {bits bits' : List Bool} {cs coeffs : List Int16} {p p' : Params}
    (hbits : bits ≠ []) (hcs : cs ≠ [])
    (hturn : ∀ (r : BitReader) (tail : List Bool) (out : List Int16), r.rest = bits ++ tail →
      decodeTurn mode (out.length + (cs ++ coeffs).length) ⟨r, out, p⟩ = some ⟨r.skip bits.length, out ++ cs, p'⟩)
    (h : Decodes mode bits' coeffs p') : Decodes mode (bits ++ bits') (cs ++ coeffs) p := by
  intro r tail out turns hr hturns
  have hpos := List.length_pos_iff.2 hbits
  have hroom := List.length_pos_iff.2 hcs
  rw [List.length_append] at hturns
  obtain ⟨turns, rfl⟩ := Nat.exists_eq_succ_of_ne_zero (show turns ≠ 0 by omega)
  rw [List.append_assoc] at hr
  have hleft : 0 < r.bitsLeft := by
    rw [BitReader.bitsLeft_eq, hr, List.length_append]
    omega
  obtain ⟨s, hs, hout⟩ := h (r.skip bits.length) tail (out ++ cs) turns
    (by rw [BitReader.rest_skip, hr, List.drop_left]) (by omega)
  refine ⟨s, ?_, by rw [hout, List.append_assoc]⟩
  rw [decodeLoop, if_pos ⟨by rw [List.length_append]; dsimp only; omega, hleft⟩, hturn r _ out hr, Option.bind_some,
    ← hs, List.length_append, List.length_append, Nat.add_assoc]

theorem decodes_zeros {p : Params} {zeros : ℕ} (mode : RlgrMode) (hp : p.Ok) (hk0 : p.k ≠ 0) (hk : p.k ≤ 32)
    (hruns : zeros / 2^p.k < 2^32) (hzeros : zeros ≠ 0) :
    Decodes mode (runBits p.k zeros) (List.replicate zeros 0) p := by
  have hbits : runBits p.k zeros ≠ [] := by simp [runBits, unary]
  have hcs : List.replicate zeros (0 : Int16) ≠ [] := by simpa using hzeros
  suffices hdec : Decodes mode (runBits p.k zeros ++ []) (List.replicate zeros 0 ++ []) p by
    rwa [List.append_nil, List.append_nil] at hdec
  · refine Decodes.cons hbits hcs ?_ (decodes_nil mode (p.ranged (zeros / 2^p.k ≠ 0)))
    intro r tail out hr
    rw [List.append_nil, List.length_replicate, decodeTurn, if_pos hk0,
      runTurn_spec mode hk0 hk hruns hr (Nat.le_refl _), if_neg (Nat.lt_irrefl _), Option.bind_some, hp.range hk,
      Option.map_some]

theorem Decodes.run {mode : RlgrMode} {p : Params} {zeros : ℕ} {v : Int16} {rest : List Int16} {bits : List Bool}
    (hp : p.Ok) (hk0 : p.k ≠ 0) (hk : p.k ≤ 32) (hruns : zeros / 2^p.k < 2^32) (hv : v ≠ 0) (hk1 : p.k1 < 32)
    (h : Decodes mode bits rest ((p.rated ((v.toInt.natAbs - 1) / 2^p.k1)).ranged (zeros / 2^p.k ≠ 0))) :
    Decodes mode (runBits p.k zeros ++ signedBits p.k1 v ++ bits) (List.replicate zeros 0 ++ v :: rest) p := by
  have hrated := hp.rated ((v.toInt.natAbs - 1) / 2^p.k1)
  rw [List.append_cons]
  refine Decodes.cons (by simp [runBits, unary]) (by simp) ?_ h
  intro r tail out hr
  rw [List.append_assoc] at hr
  have hroom : out.length + zeros < out.length + (List.replicate zeros 0 ++ [v] ++ rest).length := by
    simp only [List.length_append, List.length_replicate, List.length_singleton]
    omega
  have hrest : (r.skip (runBits p.k zeros).length).rest = signedBits p.k1 v ++ tail := by
    rw [BitReader.rest_skip, hr, List.drop_left]
  have hsigned := signedValue_spec hv mode hp hk1 hrest
  rw [decodeTurn, if_pos hk0, runTurn_spec mode hk0 hk hruns hr (Nat.le_of_lt hroom), if_pos hroom, hsigned,
    Option.bind_some, hrated.range hk, Option.map_some, BitReader.skip_skip, List.length_append, List.append_assoc]

theorem valueTurn_spec {r : BitReader} {out : List Int16} {p : Params} {tail : List Bool} (mode : RlgrMode)
    (hp : p.Ok) (hk0 : p.k = 0) (hk1 : p.k1 < 32) (c : Int16) (h : r.rest = riceBits p.k1 (zigzag c.toInt) ++ tail) :
    valueTurn mode ⟨r, out, p⟩ = some ⟨r.skip (riceBits p.k1 (zigzag c.toInt)).length, out ++ [c],
      (p.rated (zigzag c.toInt / 2^p.k1)).ranged (zigzag c.toInt = 0)⟩ := by
  have hup := (hp.rated (zigzag c.toInt / 2^p.k1)).up (by change p.k ≤ 32; omega)
  simp only [valueTurn, grDecode_riceBits mode hp hk1 (zigzag_lt c) h, Option.bind_eq_bind, Option.bind_some,
    unzigzag_zigzag, clampI16_toInt, hup, Params.down_eq]
  by_cases hzero : zigzag c.toInt = 0
  · rw [if_pos hzero, decide_eq_true hzero]
    rfl
  · rw [if_neg hzero, decide_eq_false hzero]
    rfl

/-- As `n` turns of the encoder should go: they write bits that decode to the list just where it can be coded. -/
def Encodes (mode : RlgrMode) (n : ℕ) (coeffs : List Int16) (p : Params) (w : BitWriter) (bs : List Bool) : Prop :=
  (Codable n coeffs p → ∃ w' bits, encodeLoop mode n coeffs p w = some w' ∧ w'.Holds (bs ++ bits) ∧
      Decodes mode bits coeffs p) ∧
    (¬ Codable n coeffs p → encodeLoop mode n coeffs p w = none)

theorem encodes_nil (mode : RlgrMode) (n : ℕ) (p : Params) {w : BitWriter} {bs : List Bool} (hw : w.Holds bs) :
    Encodes mode n [] p w bs := by
  cases n with
  | zero => exact ⟨fun _ => ⟨w, [], rfl, by rwa [List.append_nil], decodes_nil mode p⟩, fun h => absurd trivial h⟩
  | succ n => exact ⟨fun _ => ⟨w, [], rfl, by rwa [List.append_nil], decodes_nil mode p⟩, fun h => absurd trivial h⟩

theorem encodes_value (mode : RlgrMode) {n : ℕ} (c : Int16) (coeffs : List Int16) {p : Params} {w : BitWriter}
    {bs : List Bool} (hw : w.Holds bs) (hp : p.Ok) (hk0 : p.k = 0)
    (ih : ∀ p w bs, w.Holds bs → p.Ok → Encodes mode n coeffs p w bs) : Encodes mode (n + 1) (c :: coeffs) p w bs := by
  unfold Encodes
  have hcodable : Codable (n + 1) (c :: coeffs) p ↔ p.k1 < 32 ∧ Codable n coeffs
      ((p.rated (zigzag c.toInt / 2^p.k1)).ranged (zigzag c.toInt = 0)) := by
    rw [Codable, if_neg (by simp [hk0])]
  rw [hcodable]
  by_cases hk1 : p.k1 < 32
  · obtain ⟨w', hw', hholds⟩ := grEncode_spec hw mode hp hk1 (zigzag_lt c)
    have hup := (hp.rated (zigzag c.toInt / 2^p.k1)).up (by change p.k ≤ 32; omega)
    have hstep : encodeLoop mode (n + 1) (c :: coeffs) p w = encodeLoop mode n coeffs
        ((p.rated (zigzag c.toInt / 2^p.k1)).ranged (zigzag c.toInt = 0)) w' := by
      simp only [encodeLoop, if_neg (show ¬ p.k ≠ 0 by simp [hk0]), Option.bind_eq_bind, hw', Option.bind_some,
        hup, Params.down_eq]
      by_cases hzero : zigzag c.toInt = 0
      · rw [if_pos hzero, decide_eq_true hzero]
      · rw [if_neg hzero, decide_eq_false hzero]
    obtain ⟨hyes, hno⟩ := ih _ w' _ hholds ((hp.rated _).ranged (zigzag c.toInt = 0))
    rw [hstep]
    refine ⟨fun h => ?_, fun h => hno fun hrest => h ⟨hk1, hrest⟩⟩
    obtain ⟨w'', bits, hloop, hall, hdec⟩ := hyes h.2
    refine ⟨w'', riceBits p.k1 (zigzag c.toInt) ++ bits, hloop, by rwa [List.append_assoc] at hall, ?_⟩
    refine Decodes.cons (by simp [riceBits, unary]) (List.cons_ne_nil c []) ?_ hdec
    intro r tail out hr
    rw [decodeTurn, if_neg (by simp [hk0]), valueTurn_spec mode hp hk0 hk1 c hr]
  · refine ⟨fun h => absurd h.1 hk1, fun _ => ?_⟩
    simp only [encodeLoop, if_neg (show ¬ p.k ≠ 0 by simp [hk0]), Option.bind_eq_bind,
      grEncode_eq_none mode (Nat.not_lt.1 hk1), Option.bind_none]

theorem encodes_run (mode : RlgrMode) {n : ℕ} (c : Int16) {coeffs : List Int16} {p : Params} {w : BitWriter}
    {bs : List Bool} (hw : w.Holds bs) (hp : p.Ok) (hk0 : p.k ≠ 0) (hn : coeffs.length ≤ n)
    (ih : ∀ coeffs p w bs, w.Holds bs → p.Ok → coeffs.length ≤ n → Encodes mode n coeffs p w bs) :
    Encodes mode (n + 1) (c :: coeffs) p w bs := by
  unfold Encodes
  have hrun : encodeLoop mode (n + 1) (c :: coeffs) p w = (writeRun w (c :: coeffs) p).bind fun x =>
      (writeNext x.2.1 x.2.2 p mode).bind fun y =>
      (y.2.1.afterRun x.1).bind fun p' => encodeLoop mode n y.2.2 p' y.1 := by
    rw [encodeLoop, if_pos hk0]
    rfl
  rw [hrun, Codable, if_pos hk0]
  by_cases hk : p.k ≤ 32
  · by_cases hruns : zeroRun (c :: coeffs) / 2^p.k < 2^32
    · obtain ⟨w', hw', hholds⟩ := writeRun_spec hw hk0 hk hruns
      have hsplit := replicate_zeroRun_append (c :: coeffs)
      have hzlen := zeroRun_le (c :: coeffs)
      rw [List.length_cons] at hzlen
      rw [hw', Option.bind_some]
      dsimp only
      cases hrest : (c :: coeffs).drop (zeroRun (c :: coeffs)) with
      | nil =>
        rw [hrest, List.append_nil] at hsplit
        refine ⟨fun _ => ⟨w', runBits p.k (zeroRun (c :: coeffs)), ?_, hholds, ?_⟩,
          fun h => absurd ⟨hk, hruns, trivial⟩ h⟩
        · rw [writeNext, Option.bind_some, hp.range hk, Option.bind_some]
          cases n <;> rfl
        · have hdec := decodes_zeros mode hp hk0 hk hruns (by
            intro hzero
            rw [hzero] at hsplit
            cases hsplit)
          rwa [hsplit] at hdec
      | cons v rest =>
        rw [hrest] at hsplit
        have hv := ne_zero_of_drop_zeroRun hrest
        by_cases hk1 : p.k1 < 32
        · obtain ⟨w'', hw'', hholds'⟩ := writeSigned_spec hholds hv mode hp hk1
          have hrated := hp.rated ((v.toInt.natAbs - 1) / 2^p.k1)
          have hlen : zeroRun (c :: coeffs) + (rest.length + 1) = coeffs.length + 1 := by
            have := congrArg List.length hsplit
            rwa [List.length_append, List.length_replicate, List.length_cons, List.length_cons] at this
          obtain ⟨hyes, hno⟩ := ih rest _ w'' _ hholds' (hrated.ranged (zeroRun (c :: coeffs) / 2^p.k ≠ 0)) (by omega)
          rw [writeNext, hw'', Option.map_some, Option.bind_some, hrated.range hk, Option.bind_some]
          refine ⟨fun h => ?_, fun h => hno fun hrest => h ⟨hk, hruns, hk1, hrest⟩⟩
          obtain ⟨w₃, bits, hloop, hall, hdec⟩ := hyes h.2.2.2
          refine ⟨w₃, runBits p.k (zeroRun (c :: coeffs)) ++ signedBits p.k1 v ++ bits, hloop, ?_, ?_⟩
          · rwa [← List.append_assoc, ← List.append_assoc]
          · have hrunDec := hdec.run hp hk0 hk hruns hv hk1
            rwa [hsplit] at hrunDec
        · refine ⟨fun h => absurd h.2.2.1 hk1, fun _ => ?_⟩
          rw [writeNext, writeSigned_eq_none mode (.inr (Nat.not_lt.1 hk1))]
          rfl
    · refine ⟨fun h => absurd h.2.1 hruns, fun _ => ?_⟩
      obtain ⟨runs, w', rest, hcut⟩ := writeRun_of_long hw hk0 hk (Nat.not_lt.1 hruns)
      rw [hcut, Option.bind_some]
      dsimp only
      rw [writeNext, writeSigned_eq_none mode (.inl rfl)]
      rfl
  · refine ⟨fun h => absurd h.1 hk, fun _ => ?_⟩
    rw [writeRun_eq_none (Nat.not_le.1 hk), Option.bind_none]

theorem encodeLoop_spec (mode : RlgrMode) (n : ℕ) (coeffs : List Int16) (p : Params) (w : BitWriter) (bs : List Bool)
    (hw : w.Holds bs) (hp : p.Ok) (hn : coeffs.length ≤ n) : Encodes mode n coeffs p w bs := by
  induction n generalizing coeffs p w bs with
  | zero =>
    obtain rfl : coeffs = [] := List.eq_nil_of_length_eq_zero (by omega)
    exact encodes_nil mode 0 p hw
  | succ n ih =>
    cases coeffs with
    | nil => exact encodes_nil mode (n + 1) p hw
    | cons c coeffs =>
      have hrest : coeffs.length ≤ n := Nat.le_of_succ_le_succ hn
      by_cases hk0 : p.k = 0
      · exact encodes_value mode c coeffs hw hp hk0 fun p w bs hw hp => ih coeffs p w bs hw hp hrest
      · exact encodes_run mode c hw hp hk0 hrest ih

/-- Coding and decoding a list runs without overflow and gives it back, just where it can be coded. -/
theorem rlgr_roundTrip_iff (coeffs : List Int16) (mode : RlgrMode) :
    (∃ data, rlgrEncode coeffs mode = some data ∧ rlgrDecode data mode coeffs.length = some coeffs) ↔
      Codable coeffs.length coeffs .new := by
  obtain ⟨hyes, hno⟩ := encodeLoop_spec mode coeffs.length coeffs .new .new [] BitWriter.holds_new Params.ok_new
    (Nat.le_refl _)
  constructor
  · rintro ⟨data, hdata, -⟩
    by_contra hnot
    rw [rlgrEncode, hno hnot] at hdata
    cases hdata
  · intro h
    obtain ⟨w', bits, hloop, hholds, hdec⟩ := hyes h
    refine ⟨w'.out, by rw [rlgrEncode, hloop]; rfl, ?_⟩
    have hlen := congrArg List.length hholds.1
    rw [length_bytesBits, List.nil_append, List.length_append] at hlen
    obtain ⟨s, hs, hout⟩ := hdec (.new w'.out) _ [] (w'.out.length * 8)
      (by rw [BitReader.rest, BitReader.new, List.drop_zero, hholds.1, List.nil_append]) (by omega)
    rw [List.length_nil, Nat.zero_add] at hs
    rw [List.nil_append] at hout
    rw [rlgrDecode, hs, Option.map_some, hout, resize, List.take_length, Nat.sub_self, List.replicate_zero,
      List.append_nil]

/-- The first value makes the parameter 32, and the second is to be shifted by it. -/
theorem rlgr_roundTrip_burst : ¬ ∀ coeffs mode, ∃ data, rlgrEncode coeffs mode = some data ∧
      rlgrDecode data mode coeffs.length = some coeffs := by
  intro h
  obtain ⟨data, hdata, -⟩ := h [500, 1] .rlgr1
  have hnone : rlgrEncode [500, 1] .rlgr1 = none := by decide +kernel
  cases hnone.symm.trans hdata

end Rdpio.Graphics.Rfx
