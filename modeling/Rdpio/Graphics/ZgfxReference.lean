import Mathlib.Data.Nat.Find
import Rdpio.Graphics.ZgfxReturns

/-!
# The reference ZGFX decoder

`decompress_ref` of `crates/rdp-graphics/src/zgfx.rs` reads bit by bit, looks tokens up one after the other
and feeds the history byte by byte.
-/

namespace Rdpio.Graphics.Zgfx

open Lib

def bit (input : Bytes) (i : ℕ) : ℕ := (input.getD (i / 8) 0).toNat / 2^(7 - i % 8) % 2

/-- The `n` bits from `pos` on, as a number. -/
def val (input : Bytes) (pos : ℕ) : ℕ → ℕ
  | 0 => 0
  | n + 1 => val input pos n * 2 + bit input (pos + n)

section
variable (input : Bytes)

theorem bit_lt (i : ℕ) : bit input i < 2 := Nat.mod_lt _ (by decide)

theorem val_lt (pos n : ℕ) : val input pos n < 2^n := by
  induction n with
  | zero => exact Nat.one_pos
  | succ n ih =>
    have hbit := bit_lt input (pos + n)
    rw [val, Nat.pow_succ]
    omega

theorem val_one (pos : ℕ) : val input pos 1 = bit input pos := by
  rw [val, val, Nat.zero_mul, Nat.zero_add, Nat.add_zero]

theorem val_add (pos m n : ℕ) : val input pos (m + n) = val input pos m * 2^n + val input (pos + m) n := by
  induction n with
  | zero => rw [Nat.add_zero, Nat.pow_zero, Nat.mul_one, val, Nat.add_zero]
  | succ n ih =>
    rw [← Nat.add_assoc, val, ih, val, Nat.pow_succ, Nat.add_assoc pos m n, Nat.add_mul, Nat.mul_assoc, Nat.add_assoc]

theorem val_div {p m n : ℕ} (h : m ≤ n) : val input p n / 2^(n - m) = val input p m := by
  obtain ⟨k, rfl⟩ := Nat.exists_eq_add_of_le h
  rw [val_add, Nat.add_sub_cancel_left, Nat.mul_comm, Nat.mul_add_div (Nat.two_pow_pos k),
    Nat.div_eq_of_lt (val_lt input _ k), Nat.add_zero]

theorem val_mod {p m n : ℕ} (h : m ≤ n) : val input p n % 2^(n - m) = val input (p + m) (n - m) := by
  obtain ⟨k, rfl⟩ := Nat.exists_eq_add_of_le h
  rw [val_add, Nat.add_sub_cancel_left, Nat.mul_add_mod_self_right, Nat.mod_eq_of_lt (val_lt input _ k)]

theorem val_of_byte (k : ℕ) {m : ℕ} (hm : m ≤ 8) : val input (8 * k) m = (input.getD k 0).toNat / 2^(8 - m) := by
  induction m with
  | zero =>
    have hlt := (input.getD k 0).toNat_lt
    exact (Nat.div_eq_of_lt hlt).symm
  | succ m ih =>
    have hdiv : (8 * k + m) / 8 = k := by omega
    have hmod : (8 * k + m) % 8 = m := by omega
    have hsucc : 8 - m = (7 - m) + 1 := by omega
    have hlast : 8 - (m + 1) = 7 - m := by omega
    rw [val, ih (by omega), bit, hdiv, hmod, hlast, hsucc, Nat.pow_succ, ← Nat.div_div_eq_div_mul]
    exact Nat.div_add_mod' _ 2

theorem val_byte (k : ℕ) : val input (8 * k) 8 = (input.getD k 0).toNat := by
  rw [val_of_byte input k (le_refl 8), Nat.sub_self, Nat.pow_zero, Nat.div_one]

theorem u64FromBe_window (k n : ℕ) :
    u64FromBe ((List.range n).map fun i => input.getD (k + i) 0) = val input (8 * k) (8 * n) := by
  induction n with
  | zero => rfl
  | succ n ih =>
    rw [List.range_succ, List.map_append, u64FromBe, List.foldl_append]
    change u64FromBe ((List.range n).map fun i => input.getD (k + i) 0) * 2^8 + (input.getD (k + n) 0).toNat = _
    rw [ih, Nat.mul_add 8 n 1, val_add, ← Nat.mul_add 8 k n, ← val_byte]

theorem window_eq (k n : ℕ) : ((input.drop k).take n ++ List.replicate (n - ((input.drop k).take n).length) 0) =
      (List.range n).map fun i => input.getD (k + i) 0 := by
  refine List.ext_getElem? fun i => ?_
  rw [List.getElem?_map]
  rcases Nat.lt_or_ge i n with hi | hi
  · rw [List.getElem?_range hi, Option.map_some, List.getD_eq_getElem?_getD]
    rcases Nat.lt_or_ge (k + i) input.length with hin | hout
    · rw [List.getElem?_append_left (by rw [List.length_take, List.length_drop]; omega),
        List.getElem?_take_of_lt hi, List.getElem?_drop, List.getElem?_eq_getElem hin]
      rfl
    · rw [List.getElem?_append_right (by rw [List.length_take, List.length_drop]; omega),
        List.getElem?_replicate_of_lt (by rw [List.length_take, List.length_drop]; omega),
        List.getElem?_eq_none hout]
      rfl
  · rw [List.getElem?_eq_none (l := List.range n) (by rw [List.length_range]; exact hi), Option.map_none]
    refine List.getElem?_eq_none ?_
    rw [List.length_append, List.length_replicate, List.length_take, List.length_drop]
    omega

theorem word_eq (b : ℕ) : word input b = val input b (64 - b % 8) * 2^(b % 8) := by
  have hb : 8 * (b / 8) + b % 8 = b := Nat.div_add_mod b 8
  have hlt : b % 8 < 8 := Nat.mod_lt _ (by decide)
  have hbytes : u64FromBe ((input.drop (b / 8)).take 8 ++
      List.replicate (8 - ((input.drop (b / 8)).take 8).length) 0) = val input (8 * (b / 8)) 64 := by
    rw [window_eq, u64FromBe_window]
  have hsplit := val_mod input (p := 8 * (b / 8)) (m := b % 8) (n := 64) (by omega)
  rw [hb] at hsplit
  have hpow : 2^64 = 2^(64 - b % 8) * 2^(b % 8) := by rw [← Nat.pow_add, Nat.sub_add_cancel (by omega)]
  unfold word
  dsimp only
  rw [hbytes, hpow, Nat.mul_mod_mul_right, hsplit]

theorem top_shl_word {b u n : ℕ} (h : u + n ≤ 57) : top (shl (word input b) u) n = val input (b + u) n := by
  have hlt : b % 8 < 8 := Nat.mod_lt _ (by decide)
  obtain ⟨s, hs⟩ : ∃ s, s = b % 8 := ⟨_, rfl⟩
  have hpow : 2^64 = 2^(64 - s - u) * 2^(s + u) := by rw [← Nat.pow_add]; congr 1; omega
  have hmul : word input b * 2^u = val input b (64 - s) * 2^(s + u) := by
    rw [word_eq, ← hs, Nat.mul_assoc, ← Nat.pow_add]
  have hshl : shl (word input b) u = val input (b + u) (64 - s - u) * 2^(s + u) := by
    rw [shl, hmul, hpow, Nat.mul_mod_mul_right, val_mod input (by omega)]
  have hpow' : 2^(64 - n) = 2^(64 - s - u - n) * 2^(s + u) := by rw [← Nat.pow_add]; congr 1; omega
  rw [top, hshl, hpow', Nat.mul_div_mul_right _ _ (Nat.two_pow_pos _), val_div input (by omega)]

theorem top_word {b n : ℕ} (h : n ≤ 57) : top (word input b) n = val input b n := by
  have hshl : shl (word input b) 0 = word input b := by
    rw [shl, Nat.pow_zero, Nat.mul_one, Nat.mod_eq_of_lt (word_lt input b)]
  have htop := top_shl_word input (b := b) (u := 0) (n := n) (by omega)
  rwa [hshl] at htop

end

structure BitReader where
  pos : ℕ
  acc : ℕ
  c_bits : ℕ
  remaining : ℕ
  bits : ℕ
deriving DecidableEq

namespace BitReader

def load (input : Bytes) (r : BitReader) : BitReader :=
  let acc := r.acc * 2^8 % 2^32
  if r.pos < input.length then
    { r with acc := acc + (input.getD r.pos 0).toNat, pos := r.pos + 1, c_bits := r.c_bits + 8 }
  else { r with acc, c_bits := r.c_bits + 8 }

def fill (input : Bytes) (n : ℕ) : ℕ → BitReader → BitReader
  | 0, r => r
  | passes + 1, r => if r.c_bits < n then fill input n passes (r.load input) else r

def get (input : Bytes) (n : ℕ) (r : BitReader) : BitReader :=
  let r := fill input n n r
  let c_bits := r.c_bits - n
  { r with remaining := r.remaining - n, c_bits, bits := r.acc / 2^c_bits, acc := r.acc % 2^c_bits }

end BitReader

def readPrefix (input : Bytes) : ℕ → ℕ → BitReader → ℕ × BitReader
  | 0, code, r => (code, r)
  | n + 1, code, r =>
    let r := r.get input 1
    readPrefix input n (code * 2 + r.bits) r

def scan (input : Bytes) : List Token → ℕ → ℕ → BitReader → Option Token × BitReader
  | [], _, _, r => (none, r)
  | tok :: toks, have_bits, code, r =>
    let (code, r) := readPrefix input (tok.prefix_len - have_bits) code r
    if code = tok.prefix_code then (some tok, r) else scan input toks (max have_bits tok.prefix_len) code r

def lengthLoop (input : Bytes) : ℕ → ℕ → ℕ → BitReader → Option (ℕ × ℕ × BitReader)
  | 0, _, _, _ => none
  | passes + 1, count, extra, r =>
    if r.bits = 1 then
      if 2^32 ≤ count * 2 then none else lengthLoop input passes (count * 2) (extra + 1) (r.get input 1)
    else some (count, extra, r)

def refLength (input : Bytes) (r : BitReader) : Option (ℕ × BitReader) :=
  let r := r.get input 1
  if r.bits = 0 then some (3, r)
  else (lengthLoop input 31 4 2 (r.get input 1)).bind fun (count, extra, r) =>
    let r := r.get input extra
    if 2^32 ≤ count + r.bits then none else some (count + r.bits, r)

/-- The reference at the head of its loop. -/
structure RefDecoding where
  history : History
  r : BitReader
  out : Bytes

inductive RefPass
  | next (st : RefDecoding)
  | done (st : RefDecoding) (ok : Bool)

/-- A pass of the token loop of `decompress_segment_ref`. -/
def refPass (fuel : ℕ) (input : Bytes) (seg_start : ℕ) (st : RefDecoding) : Option RefPass :=
  if st.r.remaining = 0 then some (.done st true)
  else if MAX_SEGMENT_OUTPUT < st.out.length - seg_start then some (.done st false)
  else match scan input TOKENS 0 0 st.r with
    | (none, _) => some (.done st false)
    | (some tok, r) =>
      let r := r.get input tok.value_bits
      match tok.token_type with
      | .literal =>
        let c := UInt8.ofNat (tok.value_base + r.bits)
        some (.next { history := st.history.push c, r, out := st.out ++ [c] })
      | .copy =>
        let distance := tok.value_base + r.bits
        if distance ≠ 0 then
          (refLength input r).bind fun (count, r) =>
            if MAX_SEGMENT_OUTPUT < count then some (.done st false)
            else (matchInto fuel st.history distance count st.out).map fun out =>
              .next { history := st.history.write (out.drop st.out.length), r, out }
        else
          let r := r.get input 15
          let count := r.bits
          let remaining := r.remaining - r.c_bits
          if r.pos + count ≤ input.length then
            let raw := (input.drop r.pos).take count
            some (.next { history := st.history.write raw
                          r := { r with
                            acc := 0
                            c_bits := 0
                            pos := r.pos + count
                            remaining := remaining - 8 * count }
                          out := st.out ++ raw })
          else some (.done st false)

def refTokens (input : Bytes) (seg_start : ℕ) : ℕ → RefDecoding → Option (RefDecoding × Bool)
  | 0, _ => none
  | fuel + 1, st => (refPass fuel input seg_start st).bind fun
    | .next st => refTokens input seg_start fuel st
    | .done st ok => some (st, ok)

def decompressBodyRef (fuel : ℕ) (history : History) (input : Bytes) (bits : ℕ) (out : Bytes) : Option Segment :=
  (refTokens input out.length fuel ⟨history, ⟨0, 0, 0, bits, 0⟩, out⟩).map fun (st, ok) => (st.history, st.out, ok)

def decompressRef (fuel : ℕ) : History → Bytes → Option (History × Option Bytes) :=
  decompressWith (segmentWith (decompressBodyRef fuel))

/-! ## The bit reader -/

section
variable {input : Bytes} {b : ℕ}

/-- The reader with `v` bytes loaded and bits from `b` on not yet read. -/
structure Loaded (input : Bytes) (b v : ℕ) (r : BitReader) : Prop where
  bytes : 8 * v = b + r.c_bits
  pos : r.pos = min v input.length
  acc : r.acc = val input b r.c_bits % 2^32

/-- The reader at bit `b`: less than a byte is left over. -/
structure At (input : Bytes) (b : ℕ) (r : BitReader) : Prop where
  few : r.c_bits < 8
  loaded : ∃ v, Loaded input b v r

theorem Loaded.load {v : ℕ} {r : BitReader} (h : Loaded input b v r) : Loaded input b (v + 1) (r.load input) := by
  have hval : val input b (r.c_bits + 8) = val input b r.c_bits * 2^8 + (input.getD v 0).toNat := by
    rw [val_add, ← h.bytes, val_byte]
  have hbyte := (input.getD v 0).toNat_lt
  have hacc : r.acc * 2^8 % 2^32 + (input.getD v 0).toNat = val input b (r.c_bits + 8) % 2^32 := by
    rw [hval, h.acc]
    omega
  have hpos := h.pos
  have hbytes := h.bytes
  unfold BitReader.load
  dsimp only
  split_ifs with hin
  · have hv : r.pos = v := by omega
    refine ⟨by dsimp only; omega, by dsimp only; omega, ?_⟩
    rw [← hacc, hv]
  · have hzero : (input.getD v 0).toNat = 0 := by
      rw [List.getD_eq_getElem?_getD, List.getElem?_eq_none (by omega)]
      rfl
    rw [hzero, Nat.add_zero] at hacc
    exact ⟨by dsimp only; omega, by dsimp only; omega, hacc⟩

theorem load_remaining (input : Bytes) (r : BitReader) :
    (r.load input).remaining = r.remaining ∧ (r.load input).c_bits = r.c_bits + 8 := by
  unfold BitReader.load
  dsimp only
  split_ifs <;> exact ⟨rfl, rfl⟩

theorem fill_spec {n passes v : ℕ} {r : BitReader} (h : Loaded input b v r) (hpasses : n < r.c_bits + passes + 1)
    (hfew : r.c_bits < n + 8) :
    (∃ v, Loaded input b v (BitReader.fill input n passes r)) ∧ n ≤ (BitReader.fill input n passes r).c_bits ∧
      (BitReader.fill input n passes r).c_bits < n + 8 ∧
      (BitReader.fill input n passes r).remaining = r.remaining := by
  induction passes generalizing v r with
  | zero => exact ⟨⟨v, h⟩, by rw [BitReader.fill]; omega, hfew, rfl⟩
  | succ passes ih =>
    rw [BitReader.fill]
    split_ifs with hmore
    · obtain ⟨hremaining, hbits⟩ := load_remaining input r
      obtain ⟨hloaded, hn, hless, hsame⟩ := ih h.load (by omega) (by omega)
      exact ⟨hloaded, hn, hless, hsame.trans hremaining⟩
    · exact ⟨⟨v, h⟩, by omega, hfew, rfl⟩

theorem At.get {r : BitReader} (h : At input b r) {n : ℕ} (hn : n ≤ 24) :
    At input (b + n) (r.get input n) ∧ (r.get input n).bits = val input b n ∧
      (r.get input n).remaining = r.remaining - n := by
  obtain ⟨v, hloaded⟩ := h.loaded
  have hfew := h.few
  obtain ⟨⟨v', hfill⟩, hle, hlt, hremaining⟩ := @fill_spec input b n n v r hloaded (by omega) (by omega)
  unfold BitReader.get
  dsimp only
  generalize BitReader.fill input n n r = f at hfill hle hlt hremaining
  have hacc : f.acc = val input b f.c_bits := by
    rw [hfill.acc, Nat.mod_eq_of_lt]
    exact (val_lt input b f.c_bits).trans_le (Nat.pow_le_pow_right (by decide) (by omega))
  have hbytes := hfill.bytes
  refine ⟨⟨by dsimp only; omega, v', ⟨by dsimp only; omega, hfill.pos, ?_⟩⟩, ?_, by rw [hremaining]⟩
  · dsimp only
    rw [hacc, val_mod input hle, Nat.mod_eq_of_lt]
    exact (val_lt input _ _).trans_le (Nat.pow_le_pow_right (by decide) (by omega))
  · rw [hacc, val_div input hle]

theorem At.readPrefix {r : BitReader} {m : ℕ} (h : At input (b + m) r) (n : ℕ) :
    (readPrefix input n (val input b m) r).1 = val input b (m + n) ∧
      At input (b + (m + n)) (readPrefix input n (val input b m) r).2 ∧
      (readPrefix input n (val input b m) r).2.remaining = r.remaining - n := by
  induction n generalizing m r with
  | zero => exact ⟨rfl, h, rfl⟩
  | succ n ih =>
    obtain ⟨hat, hbits, hremaining⟩ := h.get (n := 1) (by decide)
    rw [val_one] at hbits
    have hval : val input b m * 2 + (r.get input 1).bits = val input b (m + 1) := by rw [hbits]; rfl
    obtain ⟨hcode, hat', hremaining'⟩ := ih (m := m + 1) hat
    rw [Zgfx.readPrefix, hval]
    refine ⟨?_, ?_, ?_⟩
    · rw [hcode, Nat.add_right_comm, Nat.add_assoc]
    · rw [Nat.add_right_comm, Nat.add_assoc] at hat'
      exact hat'
    · rw [hremaining', hremaining, Nat.sub_sub, Nat.add_comm 1 n]

/-- Tokens whose prefixes do not get shorter. -/
def Ascending : ℕ → List Token → Prop
  | _, [] => True
  | m, tok :: toks => m ≤ tok.prefix_len ∧ tok.prefix_len ≤ PREFIX_BITS ∧ Ascending tok.prefix_len toks

instance : (m : ℕ) → (toks : List Token) → Decidable (Ascending m toks)
  | _, [] => inferInstanceAs (Decidable True)
  | m, tok :: toks =>
    have := instDecidableAscending tok.prefix_len toks
    inferInstanceAs (Decidable (m ≤ tok.prefix_len ∧ tok.prefix_len ≤ PREFIX_BITS ∧ Ascending tok.prefix_len toks))

theorem ascending_tokens : Ascending 0 TOKENS := by decide

theorem scan_spec {toks : List Token} {m : ℕ} {r : BitReader} (htoks : Ascending m toks) (h : At input (b + m) r) :
    (scan input toks m (val input b m) r).1 =
        toks.find? (fun tok => val input b PREFIX_BITS / 2^(PREFIX_BITS - tok.prefix_len) = tok.prefix_code) ∧
      ∀ tok, (scan input toks m (val input b m) r).1 = some tok → m ≤ tok.prefix_len ∧
        At input (b + tok.prefix_len) (scan input toks m (val input b m) r).2 ∧
          (scan input toks m (val input b m) r).2.remaining = r.remaining - (tok.prefix_len - m) := by
  induction toks generalizing m r with
  | nil => exact ⟨rfl, fun tok htok => by cases htok⟩
  | cons tok toks ih =>
    obtain ⟨hm, hlen, htoks⟩ := htoks
    obtain ⟨hcode, hat, hremaining⟩ := h.readPrefix (tok.prefix_len - m)
    rw [Nat.add_sub_cancel' hm] at hcode hat
    have hdiv : val input b PREFIX_BITS / 2^(PREFIX_BITS - tok.prefix_len) = val input b tok.prefix_len :=
      val_div input hlen
    rw [scan]
    obtain ⟨⟨code, r'⟩, hr'⟩ : ∃ p, p = readPrefix input (tok.prefix_len - m) (val input b m) r := ⟨_, rfl⟩
    rw [← hr'] at hcode hat hremaining ⊢
    dsimp only at hcode hat hremaining ⊢
    rw [hcode, List.find?_cons, hdiv]
    by_cases hfound : val input b tok.prefix_len = tok.prefix_code
    · rw [if_pos hfound, decide_eq_true hfound]
      refine ⟨rfl, fun tok' htok' => ?_⟩
      obtain rfl : tok = tok' := Option.some.inj htok'
      exact ⟨hm, hat, hremaining⟩
    · rw [if_neg hfound, decide_eq_false hfound, max_eq_right hm]
      obtain ⟨hfind, hsome⟩ := ih htoks hat
      refine ⟨hfind, fun tok' htok' => ?_⟩
      obtain ⟨hle, hat', hremaining'⟩ := hsome tok' htok'
      exact ⟨hm.trans hle, hat', by rw [hremaining', hremaining]; omega⟩

/-! ## Lengths -/

theorem testBit_shl_word {j u : ℕ} (h : u + j < 57) :
    (shl (word input b) u).testBit (63 - j) = decide (bit input (b + u + j) = 1) := by
  have htop := top_shl_word input (b := b) (u := u) (n := j + 1) (by omega)
  rw [top, val] at htop
  have hbit := bit_lt input (b + u + j)
  rw [Nat.testBit_eq_decide_div_mod_eq, show 63 - j = 64 - (j + 1) by omega, htop, Nat.mul_add_mod_self_right,
    Nat.mod_eq_of_lt hbit]

theorem leadingOnes_ge {width w m : ℕ} (hm : m ≤ width) (h : ∀ j < m, w.testBit (width - 1 - j) = true) :
    m ≤ leadingOnes width w := by
  induction width generalizing m with
  | zero => omega
  | succ width ih =>
    rcases m with - | m
    · exact Nat.zero_le _
    · have hfirst : w.testBit width = true := h 0 (Nat.succ_pos m)
      rw [leadingOnes, if_pos hfirst]
      refine Nat.succ_le_succ (ih (Nat.le_of_succ_le_succ hm) fun j hj => ?_)
      have hj' := h (j + 1) (Nat.succ_lt_succ hj)
      rwa [show width + 1 - 1 - (j + 1) = width - 1 - j by omega] at hj'

theorem leadingOnes_eq {width w m : ℕ} (hm : m < width) (h : ∀ j < m, w.testBit (width - 1 - j) = true)
    (hzero : w.testBit (width - 1 - m) = false) : leadingOnes width w = m := by
  induction width generalizing m with
  | zero => omega
  | succ width ih =>
    rcases m with - | m
    · have hfirst : w.testBit width = false := hzero
      rw [leadingOnes, if_neg (by rw [hfirst]; decide)]
    · have hfirst : w.testBit width = true := h 0 (Nat.succ_pos m)
      rw [leadingOnes, if_pos hfirst]
      refine congrArg (· + 1) (ih (Nat.lt_of_succ_lt_succ hm) (fun j hj => ?_) ?_)
      · have hj' := h (j + 1) (Nat.succ_lt_succ hj)
        rwa [show width + 1 - 1 - (j + 1) = width - 1 - j by omega] at hj'
      · rwa [show width + 1 - 1 - (m + 1) = width - 1 - m by omega] at hzero

theorem lengthLoop_few {k i passes : ℕ} {r : BitReader} (hk : k < 15) (hi : i ≤ k) (hpasses : k < i + passes)
    (hones : ∀ j < k, bit input (b + j) = 1) (hzero : bit input (b + k) = 0) (hat : At input (b + i + 1) r)
    (hbits : r.bits = bit input (b + i)) :
    ∃ r', lengthLoop input passes (4 * 2^i) (2 + i) r = some (4 * 2^k, 2 + k, r') ∧ At input (b + k + 1) r' ∧
      r'.remaining = r.remaining - (k - i) := by
  induction passes generalizing i r with
  | zero => omega
  | succ passes ih =>
    rw [lengthLoop]
    by_cases hik : i = k
    · subst hik
      rw [if_neg (by rw [hbits, hzero]; decide)]
      exact ⟨r, rfl, hat, by rw [Nat.sub_self, Nat.sub_zero]⟩
    · have hone := hones i (by omega)
      have hpow : 2^i ≤ 2^15 := Nat.pow_le_pow_right (by decide) (by omega)
      obtain ⟨hat', hbits', hremaining⟩ := hat.get (n := 1) (by decide)
      rw [val_one] at hbits'
      obtain ⟨r', hloop, hat'', hremaining'⟩ := @ih (i + 1) (r.get input 1) (by omega) (by omega) hat' hbits'
      rw [if_pos (hbits.trans hone), if_neg (by omega)]
      refine ⟨r', ?_, hat'', by rw [hremaining', hremaining]; omega⟩
      rw [← hloop, Nat.pow_succ, Nat.mul_assoc, Nat.add_assoc]

theorem lengthLoop_many {passes count extra c e : ℕ} {r r' : BitReader}
    (h : lengthLoop input passes count extra r = some (c, e, r')) : count ≤ c := by
  induction passes generalizing count extra r with
  | zero => cases h
  | succ passes ih =>
    rw [lengthLoop] at h
    split_ifs at h
    · exact (Nat.le_mul_of_pos_right count (by decide)).trans (ih h)
    · cases h
      exact le_rfl

theorem lengthLoop_ones {n i passes : ℕ} {r : BitReader} {c e : ℕ} {r' : BitReader} (hn : n ≤ 15)
    (hones : ∀ j < i + n, bit input (b + j) = 1) (hat : At input (b + i + 1) r) (hbits : r.bits = bit input (b + i))
    (h : lengthLoop input passes (4 * 2^i) (2 + i) r = some (c, e, r')) : 4 * 2^(i + n) ≤ c := by
  induction n generalizing i passes r with
  | zero => exact lengthLoop_many h
  | succ n ih =>
    rcases passes with - | passes
    · cases h
    rw [lengthLoop, if_pos (hbits.trans (hones i (by omega)))] at h
    split_ifs at h
    obtain ⟨hat', hbits', -⟩ := hat.get (n := 1) (by decide)
    rw [val_one] at hbits'
    rw [Nat.mul_assoc, ← Nat.pow_succ, Nat.add_assoc] at h
    have hle := @ih (i + 1) passes (r.get input 1) (by omega) (fun j hj => hones j (by omega)) hat' hbits' h
    rwa [Nat.add_right_comm, Nat.add_assoc] at hle

theorem refLength_some {r r' : BitReader} {count : ℕ} (h : At input b r)
    (hlength : refLength input r = some (count, r')) :
    (MAX_SEGMENT_OUTPUT < count ∧ readLength input ⟨b, r.remaining⟩ = none) ∨
      ∃ rd, readLength input ⟨b, r.remaining⟩ = some (count, rd) ∧ rd.remaining = r'.remaining ∧
        At input rd.bitpos r' := by
  obtain ⟨hat₁, hbits₁, hremaining₁⟩ := h.get (n := 1) (by decide)
  rw [val_one] at hbits₁
  have htop : top (word input b) 1 = bit input b := by rw [top_word input (by decide), val_one]
  unfold refLength at hlength
  unfold readLength
  dsimp only at hlength ⊢
  rw [htop]
  by_cases hzero : bit input b = 0
  · rw [if_pos (hbits₁.trans hzero)] at hlength
    cases hlength
    exact Or.inr ⟨_, if_pos hzero, hremaining₁.symm, hat₁⟩
  rw [if_neg (fun hbits => hzero (hbits₁.symm.trans hbits))] at hlength
  rw [if_neg hzero]
  obtain ⟨hat₂, hbits₂, hremaining₂⟩ := hat₁.get (n := 1) (by decide)
  rw [val_one] at hbits₂
  obtain ⟨⟨c, e, r₃⟩, hloop, hlength⟩ := Option.bind_eq_some_iff.1 hlength
  dsimp only at hlength
  split_ifs at hlength with hoverflow
  obtain ⟨hcount, rfl⟩ := Prod.mk.inj (Option.some.inj hlength)
  by_cases hmany : ∀ j < 15, bit input (b + 1 + j) = 1
  · -- fifteen ones: too long for either
    left
    have hle := lengthLoop_ones (b := b + 1) (n := 15) (i := 0) le_rfl (by simpa using hmany) hat₂ hbits₂ hloop
    have hones : 15 ≤ leadingOnes 64 (shl (word input b) 1) := by
      refine leadingOnes_ge (by decide) fun j hj => ?_
      rw [testBit_shl_word (by omega)]
      exact decide_eq_true (hmany j hj)
    refine ⟨?_, if_pos hones⟩
    rw [← hcount]
    exact lt_of_lt_of_le (by decide) (hle.trans (Nat.le_add_right _ _))
  · have hex : ∃ k, k < 15 ∧ bit input (b + 1 + k) = 0 := by
      simp only [not_forall] at hmany
      obtain ⟨k, hk, hne⟩ := hmany
      have hbit := bit_lt input (b + 1 + k)
      exact ⟨k, hk, by omega⟩
    obtain ⟨k, ⟨hk, hkzero⟩, hmin⟩ : ∃ k, (k < 15 ∧ bit input (b + 1 + k) = 0) ∧
        ∀ j < k, ¬ (j < 15 ∧ bit input (b + 1 + j) = 0) :=
      ⟨Nat.find hex, Nat.find_spec hex, fun j hj => Nat.find_min hex hj⟩
    have hones : ∀ j < k, bit input (b + 1 + j) = 1 := fun j hj => by
      have hbit := bit_lt input (b + 1 + j)
      have hne : bit input (b + 1 + j) ≠ 0 := fun hj0 => hmin j hj ⟨by omega, hj0⟩
      omega
    obtain ⟨r₄, hloop', hat₄, hremaining₄⟩ :=
      @lengthLoop_few input (b + 1) k 0 31 _ hk (Nat.zero_le k) (by omega) hones hkzero hat₂ hbits₂
    have heq := Option.some.inj (hloop.symm.trans hloop')
    obtain ⟨rfl, rfl, rfl⟩ : c = 4 * 2^k ∧ e = 2 + k ∧ r₃ = r₄ := by simpa using heq
    obtain ⟨hat₅, hbits₅, hremaining₅⟩ := hat₄.get (n := 2 + k) (by omega)
    have hlead : leadingOnes 64 (shl (word input b) 1) = k := by
      refine leadingOnes_eq (by omega) (fun j hj => ?_) ?_
      · rw [testBit_shl_word (by omega)]
        exact decide_eq_true (hones j hj)
      · rw [testBit_shl_word (by omega)]
        exact decide_eq_false (by rw [hkzero]; decide)
    have hat : b + 1 + k + 1 = b + (2 + k) := by omega
    have hcount' : 4 * 2^k + val input (b + (2 + k)) (2 + k) = count := by rw [← hcount, hbits₅, hat]
    right
    rw [hlead, if_neg (by omega), top_shl_word input (by omega), hcount']
    refine ⟨_, rfl, ?_, ?_⟩
    · rw [hremaining₅, hremaining₄, hremaining₂, hremaining₁]
      dsimp only [Reader.skip]
      omega
    · rw [hat] at hat₅
      dsimp only [Reader.skip]
      rwa [← Nat.add_assoc]

theorem At.c_bits {r : BitReader} (h : At input b r) :
    r.c_bits = (8 - b % 8) % 8 ∧ r.pos = min ((b + 7) / 8) input.length := by
  obtain ⟨v, hloaded⟩ := h.loaded
  have hfew := h.few
  have hbytes := hloaded.bytes
  have hv : v = (b + 7) / 8 := by omega
  rw [hloaded.pos, hv]
  exact ⟨by omega, rfl⟩

theorem readRaw_eq {r : BitReader} (h : At input b r) : readRaw input ⟨b, r.remaining⟩ =
      if (r.get input 15).pos + (r.get input 15).bits ≤ input.length then
        some ((input.drop (r.get input 15).pos).take (r.get input 15).bits,
          ⟨((r.get input 15).pos + (r.get input 15).bits) * 8,
            (r.get input 15).remaining - (r.get input 15).c_bits - 8 * (r.get input 15).bits⟩)
      else none := by
  obtain ⟨hat, hbits, hremaining⟩ := h.get (n := 15) (by decide)
  obtain ⟨hc, hpos⟩ := hat.c_bits
  unfold readRaw Reader.skip
  dsimp only
  rw [top_word input (by decide), hbits, hremaining, hc, hpos]

theorem at_byte {r : BitReader} {pos : ℕ} (hpos : pos ≤ input.length) (hc : r.c_bits = 0) (hacc : r.acc = 0)
    (hr : r.pos = pos) : At input (pos * 8) r := by
  refine ⟨by omega, pos, ⟨by omega, by omega, ?_⟩⟩
  rw [hacc, hc]
  rfl

theorem scan_tokens {r : BitReader} (h : At input b r) : (scan input TOKENS 0 0 r).1 =
        TOKENS.find? (fun tok => val input b PREFIX_BITS / 2^(PREFIX_BITS - tok.prefix_len) = tok.prefix_code) ∧
      ∀ tok, (scan input TOKENS 0 0 r).1 = some tok → At input (b + tok.prefix_len) (scan input TOKENS 0 0 r).2 ∧
          (scan input TOKENS 0 0 r).2.remaining = r.remaining - tok.prefix_len := by
  obtain ⟨hfind, hsome⟩ := scan_spec (m := 0) ascending_tokens h
  refine ⟨hfind, fun tok htok => ?_⟩
  obtain ⟨-, hat, hremaining⟩ := hsome tok htok
  exact ⟨hat, hremaining⟩

theorem tokens_fit : ∀ tok ∈ TOKENS, tok.prefix_len ≤ 9 ∧ tok.value_bits ≤ 24 ∧
    (tok.token_type = .literal → tok.prefix_len + tok.value_bits ≤ 9) := by decide

end

theorem slotFor_cases (idx : ℕ) :
    (TOKENS.find? (fun tok => idx / 2^(PREFIX_BITS - tok.prefix_len) = tok.prefix_code) = none ∧
        slotFor idx = ⟨0, 0, 0, .invalid⟩) ∨
      ∃ tok ∈ TOKENS, TOKENS.find? (fun tok => idx / 2^(PREFIX_BITS - tok.prefix_len) = tok.prefix_code) = some tok ∧
        slotFor idx = slotOf tok idx := by
  unfold slotFor
  cases hfind : TOKENS.find? (fun tok => idx / 2^(PREFIX_BITS - tok.prefix_len) = tok.prefix_code) with
  | none => exact Or.inl ⟨rfl, rfl⟩
  | some tok => exact Or.inr ⟨tok, List.mem_of_find?_eq_some hfind, rfl, rfl⟩

/-! ## Pass by pass -/

section
variable {input : Bytes} {seg_start fuel : ℕ}

theorem refPass_literal {s : RefDecoding} {b : ℕ} (hat : At input b s.r) (hmore : 0 < s.r.remaining)
    (hroom : s.out.length - seg_start ≤ MAX_SEGMENT_OUTPUT)
    (hlit : (slotFor (val input b PREFIX_BITS)).kind = .literal) :
    ∃ r', refPass fuel input seg_start s = some (.next
        { history := s.history.push (UInt8.ofNat (slotFor (val input b PREFIX_BITS)).base)
          r := r'
          out := s.out ++ [UInt8.ofNat (slotFor (val input b PREFIX_BITS)).base] }) ∧
      At input (b + (slotFor (val input b PREFIX_BITS)).len) r' ∧
      r'.remaining = s.r.remaining - (slotFor (val input b PREFIX_BITS)).len ∧
      (slotFor (val input b PREFIX_BITS)).len ≤ 9 := by
  obtain ⟨hfind, hscan⟩ := scan_tokens hat
  obtain ⟨-, hslot⟩ | ⟨tok, hmem, hsome, hslot⟩ := slotFor_cases (val input b PREFIX_BITS)
  · rw [hslot] at hlit
    cases hlit
  rw [hsome] at hfind
  obtain ⟨hat', hremaining⟩ := hscan tok hfind
  obtain ⟨hlen, hvbits, hfit⟩ := tokens_fit tok hmem
  have htype : tok.token_type = .literal := by
    rw [hslot] at hlit
    unfold slotOf at hlit
    cases htok : tok.token_type with
    | literal => rfl
    | copy => simp [htok] at hlit
  have hslot' : slotFor (val input b PREFIX_BITS) =
      ⟨tok.value_base + val input (b + tok.prefix_len) tok.value_bits, tok.prefix_len + tok.value_bits, 0,
        .literal⟩ := by
    have hfit' := hfit htype
    have hmod := val_mod input (p := b) (m := tok.prefix_len) (n := PREFIX_BITS) hlen
    have hdiv := val_div input (p := b + tok.prefix_len) (m := tok.value_bits) (n := PREFIX_BITS - tok.prefix_len)
      (show tok.value_bits ≤ 9 - tok.prefix_len by omega)
    rw [hslot]
    unfold slotOf
    simp only [htype, hmod, hdiv]
  obtain ⟨hat'', hbits, hremaining'⟩ := hat'.get hvbits
  rw [hslot']
  refine ⟨(scan input TOKENS 0 0 s.r).2.get input tok.value_bits, ?_, ?_, ?_, hfit htype⟩
  · have hpair : scan input TOKENS 0 0 s.r = (some tok, (scan input TOKENS 0 0 s.r).2) := Prod.ext hfind rfl
    rw [refPass, if_neg (by omega), if_neg (by omega), hpair]
    simp only [htype, hbits]
  · dsimp only
    rw [← Nat.add_assoc]
    exact hat''
  · rw [hremaining', hremaining, Nat.sub_sub]

theorem decode_word (input : Bytes) {b u : ℕ} (h : u + PREFIX_BITS ≤ 57) :
    decode (top (shl (word input b) u) PREFIX_BITS) = slotFor (val input (b + u) PREFIX_BITS) := by
  rw [decode_eq (top_lt (shl_lt _ _) (by decide)), top_shl_word input h]

theorem refTokens_burst {room used b : ℕ} {s : RefDecoding} {result : RefDecoding × Bool}
    (hlit : (slotFor (val input (b + used) PREFIX_BITS)).kind = .literal) (hused : used + 9 * room ≤ 54)
    (hpos : 0 < room) (hat : At input (b + used) s.r) (hmore : 9 * (room - 1) < s.r.remaining)
    (hroom : s.out.length - seg_start + (room - 1) ≤ MAX_SEGMENT_OUTPUT)
    (h : refTokens input seg_start fuel s = some result) :
    ∃ fuel' s', fuel' < fuel ∧ refTokens input seg_start fuel' s' = some result ∧
      s'.out = s.out ++ (literalBurst (word input b) room (slotFor (val input (b + used) PREFIX_BITS)) used).1 ∧
      s'.history =
        s.history.pushes (literalBurst (word input b) room (slotFor (val input (b + used) PREFIX_BITS)) used).1 ∧
      At input (b + (literalBurst (word input b) room (slotFor (val input (b + used) PREFIX_BITS)) used).2) s'.r ∧
      s'.r.remaining = s.r.remaining -
        ((literalBurst (word input b) room (slotFor (val input (b + used) PREFIX_BITS)) used).2 - used) := by
  induction room generalizing used s fuel with
  | zero => omega
  | succ room ih =>
    rcases fuel with - | fuel
    · simp [refTokens] at h
    obtain ⟨r', hpass, hat', hremaining, hlen⟩ :=
      @refPass_literal input seg_start fuel s (b + used) hat (by omega) (by omega) hlit
    rw [refTokens, hpass, Option.bind_some] at h
    dsimp only at h
    obtain ⟨slot, hslot⟩ : ∃ slot, slot = slotFor (val input (b + used) PREFIX_BITS) := ⟨_, rfl⟩
    rw [← hslot] at h hat' hremaining hlen ⊢
    rw [Nat.add_assoc] at hat'
    rw [literalBurst]
    dsimp only
    by_cases hend : room = 0 ∨ (decode (top (shl (word input b) (used + slot.len)) PREFIX_BITS)).kind ≠ .literal
    · rw [if_pos hend]
      exact ⟨fuel, _, Nat.lt_succ_self fuel, h, rfl, rfl, hat', by rw [hremaining, Nat.add_sub_cancel_left]⟩
    · obtain ⟨hroomne, hnext⟩ : room ≠ 0 ∧
          (decode (top (shl (word input b) (used + slot.len)) PREFIX_BITS)).kind = .literal := by
        simpa using hend
      have hword := decode_word input (b := b) (u := used + slot.len) (show used + slot.len + 9 ≤ 57 by omega)
      rw [if_neg hend, hword]
      rw [hword] at hnext
      have hle := le_literalBurst (word input b) room (slotFor (val input (b + (used + slot.len)) PREFIX_BITS))
        (used + slot.len)
      obtain ⟨fuel', s', hfuel, hrun, hout, hhistory, hat'', hremaining'⟩ :=
        ih hnext (by omega) (by omega) hat' (by rw [hremaining]; omega)
          (by rw [List.length_append, List.length_singleton]; omega) h
      refine ⟨fuel', s', hfuel.trans (Nat.lt_succ_self fuel), hrun, ?_, ?_, hat'', ?_⟩
      · rw [hout, List.append_assoc]
        rfl
      · rw [hhistory]
        rfl
      · rw [hremaining', hremaining]
        omega

theorem repeatFrom_extends {start count : ℕ} {out out' : Bytes} (h : repeatFrom start count fuel out = some out') :
    ∃ tail, out' = out ++ tail := by
  induction fuel generalizing out with
  | zero => cases h
  | succ fuel ih =>
    rw [repeatFrom] at h
    split_ifs at h
    · obtain ⟨tail, rfl⟩ := ih h
      exact ⟨_, List.append_assoc ..⟩
    · cases h
      exact ⟨[], (List.append_nil _).symm⟩

theorem matchInto_extends {history : History} {distance count : ℕ} {out out' : Bytes}
    (h : matchInto fuel history distance count out = some out') : ∃ tail, out' = out ++ tail := by
  unfold matchInto at h
  split_ifs at h
  · cases h
    exact ⟨[], (List.append_nil _).symm⟩
  · obtain ⟨tail, rfl⟩ := repeatFrom_extends h
    rw [List.append_assoc, List.append_assoc]
    exact ⟨_, rfl⟩

/-- The two decoders at the heads of their loops: the table-driven one's ring lags behind. -/
structure Sim (input : Bytes) (st : Decoding) (s : RefDecoding) : Prop where
  out : s.out = st.out
  history : s.history = st.history.write (st.out.drop st.synced)
  synced : st.synced ≤ st.out.length
  reader : At input st.r.bitpos s.r
  remaining : s.r.remaining = st.r.remaining

theorem Sim.append {st : Decoding} {s s' : RefDecoding} {rd : Reader} {bytes : Bytes} (h : Sim input st s)
    (hout : s'.out = s.out ++ bytes) (hhistory : s'.history = s.history.write bytes) (hr : At input rd.bitpos s'.r)
    (hremaining : s'.r.remaining = rd.remaining) : Sim input { st with r := rd, out := st.out ++ bytes } s' := by
  refine ⟨by rw [hout, h.out], ?_, ?_, hr, hremaining⟩
  · dsimp only
    rw [hhistory, h.history, Ring.write_append, List.drop_append_of_le_length h.synced]
  · dsimp only
    rw [List.length_append]
    exact h.synced.trans (Nat.le_add_right _ _)

/-- What the reference's loop returns, the table-driven one returns. -/
def Follows (input : Bytes) (seg_start fuel : ℕ) (st : Decoding) (result : RefDecoding × Bool) : Prop :=
  ∃ st', decodeTokens input seg_start fuel st = some (st', result.2) ∧ st'.out = result.1.out ∧
    st'.history.write (st'.out.drop st'.synced) = result.1.history

theorem Follows.mono {fuel' : ℕ} (hle : fuel ≤ fuel') {st : Decoding} {result : RefDecoding × Bool}
    (h : Follows input seg_start fuel st result) : Follows input seg_start fuel' st result := by
  obtain ⟨st', hrun, hrest⟩ := h
  exact ⟨st', decodeTokens_mono hle hrun, hrest⟩

theorem Follows.of_done {st : Decoding} {s : RefDecoding} {ok : Bool} (h : Sim input st s)
    (hpass : tokenPass fuel input seg_start st = some (.done st ok)) :
    Follows input seg_start (fuel + 1) st (s, ok) :=
  ⟨st, by rw [decodeTokens, hpass, Option.bind_some], h.out.symm, h.history.symm⟩

theorem Follows.of_next {st st' : Decoding} {result : RefDecoding × Bool}
    (hpass : tokenPass fuel input seg_start st = some (.next st')) (h : Follows input seg_start fuel st' result) :
    Follows input seg_start (fuel + 1) st result := by
  obtain ⟨st'', hrun, hrest⟩ := h
  refine ⟨st'', ?_, hrest⟩
  rw [decodeTokens, hpass, Option.bind_some]
  exact hrun

theorem readToken_slot {st : Decoding} {produced : ℕ} : readToken input produced st.r =
      readSlot input produced st.r (slotFor (val input st.r.bitpos PREFIX_BITS)) := by
  rw [readToken_eq, top_word input (by decide)]

theorem Sim.literals {st : Decoding} {s : RefDecoding} {result : RefDecoding × Bool} (h : Sim input st s)
    (hmore : st.r.remaining ≠ 0) (hmax : st.out.length - seg_start ≤ MAX_SEGMENT_OUTPUT)
    (hlit : (slotFor (val input st.r.bitpos PREFIX_BITS)).kind = .literal)
    (ih : ∀ fuel' < fuel + 1, ∀ st s, Sim input st s → refTokens input seg_start fuel' s = some result →
      Follows input seg_start fuel' st result)
    (hrun : refTokens input seg_start (fuel + 1) s = some result) :
    Follows input seg_start (fuel + 1) st result := by
  -- as many literals as the pass reads
  obtain ⟨room, hroom, hpos, hfit, hout, hread⟩ : ∃ room, 9 * (room - 1) < s.r.remaining ∧ 0 < room ∧
      0 + 9 * room ≤ 54 ∧ s.out.length - seg_start + (room - 1) ≤ MAX_SEGMENT_OUTPUT ∧
      readToken input (st.out.length - seg_start) st.r = some (.literals (literalBurst (word input st.r.bitpos) room
            (slotFor (val input st.r.bitpos PREFIX_BITS)) 0).1,
          st.r.skip (literalBurst (word input st.r.bitpos) room
            (slotFor (val input st.r.bitpos PREFIX_BITS)) 0).2) := by
    rw [readToken_slot, readSlot]
    dsimp only
    rw [hlit, h.remaining, h.out]
    by_cases hburst : 6 * PREFIX_BITS ≤ st.r.remaining ∧ st.out.length - seg_start + 5 ≤ MAX_SEGMENT_OUTPUT
    · have hbits : 54 ≤ st.r.remaining := hburst.1
      exact ⟨6, by omega, by decide, by decide, hburst.2, if_pos hburst⟩
    · refine ⟨1, by omega, by decide, by decide, hmax, ?_⟩
      dsimp only
      rw [if_neg hburst, literalBurst]
      dsimp only
      rw [if_pos (Or.inl rfl), Nat.zero_add]
  obtain ⟨fuel', s', hless, hrun', hout', hhistory, hat, hremaining⟩ :=
    @refTokens_burst input seg_start (fuel + 1) room 0 st.r.bitpos s result hlit hfit hpos h.reader hroom hout hrun
  rw [Nat.add_zero] at hout' hhistory hat hremaining
  obtain ⟨burst, hburst⟩ : ∃ burst, burst =
    literalBurst (word input st.r.bitpos) room (slotFor (val input st.r.bitpos PREFIX_BITS)) 0 := ⟨_, rfl⟩
  rw [← hburst] at hread hout' hhistory hat hremaining
  have hpass : tokenPass fuel input seg_start st =
      some (.next { st with r := st.r.skip burst.2, out := st.out ++ burst.1 }) := by
    rw [tokenPass, if_neg hmore, if_neg (by omega), hread]
  refine Follows.of_next hpass (Follows.mono (Nat.le_of_lt_succ hless) (ih fuel' hless _ s' ?_ hrun'))
  refine h.append hout' (by rw [hhistory, Ring.write_eq_pushes]) hat ?_
  rw [hremaining, h.remaining]
  rfl

theorem Sim.copies {st : Decoding} {s : RefDecoding} {result : RefDecoding × Bool} (h : Sim input st s)
    (hmore : st.r.remaining ≠ 0) (hmax : st.out.length - seg_start ≤ MAX_SEGMENT_OUTPUT)
    (hcopy : (slotFor (val input st.r.bitpos PREFIX_BITS)).kind = .copy)
    (ih : ∀ fuel' < fuel + 1, ∀ st s, Sim input st s → refTokens input seg_start fuel' s = some result →
      Follows input seg_start fuel' st result)
    (hrun : refTokens input seg_start (fuel + 1) s = some result) :
    Follows input seg_start (fuel + 1) st result := by
  obtain ⟨hfind, hscan⟩ := scan_tokens h.reader
  obtain ⟨-, hslot⟩ | ⟨tok, hmem, hsome, hslot⟩ := slotFor_cases (val input st.r.bitpos PREFIX_BITS)
  · rw [hslot] at hcopy
    cases hcopy
  rw [hsome] at hfind
  obtain ⟨hat, hremaining⟩ := hscan tok hfind
  obtain ⟨hlen, hvbits, -⟩ := tokens_fit tok hmem
  have htype : tok.token_type = .copy := by
    rw [hslot] at hcopy
    unfold slotOf at hcopy
    cases htok : tok.token_type with
    | copy => rfl
    | literal => simp [htok] at hcopy
  have hslot' : slotFor (val input st.r.bitpos PREFIX_BITS) =
      ⟨tok.value_base, tok.prefix_len, tok.value_bits, .copy⟩ := by
    rw [hslot]
    unfold slotOf
    simp only [htype]
  obtain ⟨hat', hbits, hremaining'⟩ := hat.get hvbits
  have hpair : scan input TOKENS 0 0 s.r = (some tok, (scan input TOKENS 0 0 s.r).2) := Prod.ext hfind rfl
  obtain ⟨r, hr⟩ : ∃ r, r = (scan input TOKENS 0 0 s.r).2.get input tok.value_bits := ⟨_, rfl⟩
  rw [← hr] at hat' hbits hremaining'
  have hrem : r.remaining = st.r.remaining - (tok.prefix_len + tok.value_bits) := by
    rw [hremaining', hremaining, h.remaining, Nat.sub_sub]
  rw [Nat.add_assoc] at hat'
  -- the reader behind the token, in both
  have hskip : st.r.skip (tok.prefix_len + tok.value_bits) =
      ⟨st.r.bitpos + (tok.prefix_len + tok.value_bits), r.remaining⟩ := by rw [hrem]; rfl
  have htop : top (shl (word input st.r.bitpos) tok.prefix_len) tok.value_bits = r.bits := by
    rw [top_shl_word input (by omega), hbits]
  obtain ⟨distance, hdistance⟩ : ∃ distance, distance = tok.value_base + r.bits := ⟨_, rfl⟩
  have hread : readToken input (st.out.length - seg_start) st.r =
      if distance ≠ 0 then
        (readLength input ⟨st.r.bitpos + (tok.prefix_len + tok.value_bits), r.remaining⟩).bind fun length =>
          if MAX_SEGMENT_OUTPUT < length.1 then none else some (.copy distance length.1, length.2)
      else
        (readRaw input ⟨st.r.bitpos + (tok.prefix_len + tok.value_bits), r.remaining⟩).map
          fun raw => (.raw raw.1, raw.2) := by
    rw [readToken_slot, hslot', readSlot]
    dsimp only
    rw [htop, hskip, ← hdistance]
  rw [refTokens, refPass, if_neg (by rw [h.remaining]; exact hmore), if_neg (by rw [h.out]; omega), hpair] at hrun
  simp only [htype, ← hr, ← hdistance] at hrun
  by_cases hzero : distance = 0
  · rw [if_neg (not_not_intro hzero)] at hread hrun
    rw [readRaw_eq hat'] at hread
    obtain ⟨r₁, hr₁⟩ : ∃ r₁, r₁ = r.get input 15 := ⟨_, rfl⟩
    rw [← hr₁] at hread hrun
    by_cases hfits : r₁.pos + r₁.bits ≤ input.length
    · rw [if_pos hfits] at hread hrun
      have hpass : tokenPass fuel input seg_start st = some (.next { st with
          r := ⟨(r₁.pos + r₁.bits) * 8, r₁.remaining - r₁.c_bits - 8 * r₁.bits⟩
          out := st.out ++ (input.drop r₁.pos).take r₁.bits }) := by
        rw [tokenPass, if_neg hmore, if_neg (by omega), hread]
        rfl
      refine Follows.of_next hpass (ih fuel (Nat.lt_succ_self fuel) _ _ ?_ hrun)
      exact h.append rfl rfl (at_byte hfits rfl rfl rfl) rfl
    · rw [if_neg hfits] at hread hrun
      cases hrun
      refine Follows.of_done h ?_
      rw [tokenPass, if_neg hmore, if_neg (by omega), hread]
      rfl
  · rw [if_pos hzero] at hread hrun
    rw [Option.bind_assoc, Option.bind_eq_some_iff] at hrun
    obtain ⟨⟨count, r₁⟩, hlength, hrun⟩ := hrun
    dsimp only at hrun
    have hdone (hnone : readToken input (st.out.length - seg_start) st.r = none) :
        Follows input seg_start (fuel + 1) st (s, false) := by
      refine Follows.of_done h ?_
      rw [tokenPass, if_neg hmore, if_neg (by omega), hnone]
    obtain ⟨hlong, hnone⟩ | ⟨rd, hsome', hsame, hat₁⟩ := refLength_some hat' hlength
    · -- a length that only the reference reads to its end
      rw [if_pos hlong, Option.bind_some] at hrun
      cases hrun
      exact hdone (by rw [hread, hnone, Option.bind_none])
    rw [hsome', Option.bind_some] at hread
    dsimp only at hread
    by_cases hlong : MAX_SEGMENT_OUTPUT < count
    · rw [if_pos hlong, Option.bind_some] at hrun
      cases hrun
      exact hdone (by rw [hread, if_pos hlong])
    rw [if_neg hlong] at hread hrun
    rw [Option.bind_map, Option.bind_eq_some_iff] at hrun
    obtain ⟨out, hmatch, hrun⟩ := hrun
    have hpass : tokenPass fuel input seg_start st = some (.next
        { history := s.history, r := rd, out, synced := st.out.length }) := by
      rw [tokenPass, if_neg hmore, if_neg (by omega), hread]
      dsimp only
      rw [Decoding.copyMatch, ← h.history, ← h.out, hmatch, Option.map_some, Option.map_some]
    obtain ⟨tail, htail⟩ := matchInto_extends hmatch
    refine Follows.of_next hpass (ih fuel (Nat.lt_succ_self fuel) _ _ ⟨rfl, ?_, ?_, hat₁, hsame.symm⟩ hrun)
    · rw [h.out]
    · dsimp only
      rw [htail, List.length_append, h.out]
      exact Nat.le_add_right _ _

theorem Sim.follows {st : Decoding} {s : RefDecoding} {result : RefDecoding × Bool} (h : Sim input st s)
    (hrun : refTokens input seg_start fuel s = some result) : Follows input seg_start fuel st result := by
  induction fuel using Nat.strong_induction_on generalizing st s with
  | _ fuel ih =>
    rcases fuel with - | fuel
    · simp [refTokens] at hrun
    by_cases hend : st.r.remaining = 0
    · have hpass : refPass fuel input seg_start s = some (.done s true) := by
        rw [refPass, if_pos (h.remaining.trans hend)]
      rw [refTokens, hpass, Option.bind_some] at hrun
      cases hrun
      exact Follows.of_done h (by rw [tokenPass, if_pos hend])
    by_cases hmax : MAX_SEGMENT_OUTPUT < st.out.length - seg_start
    · have hpass : refPass fuel input seg_start s = some (.done s false) := by
        rw [refPass, if_neg (by rw [h.remaining]; exact hend), if_pos (by rw [h.out]; exact hmax)]
      rw [refTokens, hpass, Option.bind_some] at hrun
      cases hrun
      exact Follows.of_done h (by rw [tokenPass, if_neg hend, if_pos hmax])
    cases hkind : (slotFor (val input st.r.bitpos PREFIX_BITS)).kind with
    | literal => exact h.literals hend (by omega) hkind (fun fuel' hless st s hsim hr => ih fuel' hless hsim hr) hrun
    | invalid =>
      obtain ⟨hfind, -⟩ := scan_tokens h.reader
      have hnone : TOKENS.find? (fun tok => val input st.r.bitpos PREFIX_BITS / 2^(PREFIX_BITS - tok.prefix_len) =
          tok.prefix_code) = none := by
        obtain ⟨hnone, -⟩ | ⟨tok, -, -, hslot⟩ := slotFor_cases (val input st.r.bitpos PREFIX_BITS)
        · exact hnone
        · rw [hslot] at hkind
          unfold slotOf at hkind
          cases htype : tok.token_type <;> simp [htype] at hkind
      rw [hnone] at hfind
      have hpair : scan input TOKENS 0 0 s.r = (none, (scan input TOKENS 0 0 s.r).2) := Prod.ext hfind rfl
      have hpass : refPass fuel input seg_start s = some (.done s false) := by
        rw [refPass, if_neg (by rw [h.remaining]; exact hend), if_neg (by rw [h.out]; exact hmax), hpair]
      rw [refTokens, hpass, Option.bind_some] at hrun
      cases hrun
      refine Follows.of_done h ?_
      rw [tokenPass, if_neg hend, if_neg hmax, readToken_slot, readSlot]
      simp only [hkind]
    | copy => refine h.copies hend (by omega) hkind (fun fuel' hless st s hsim hr => ih fuel' hless hsim hr) hrun

end

theorem decompressBody_of_ref {fuel bits : ℕ} {history : History} {input out : Bytes} {result : Segment}
    (h : decompressBodyRef fuel history input bits out = some result) :
    decompressBody fuel history input bits out = some result := by
  obtain ⟨⟨s, ok⟩, hrun, rfl⟩ := Option.map_eq_some_iff.mp h
  -- nothing is loaded and nothing is to be written
  have hat : At input 0 ⟨0, 0, 0, bits, 0⟩ := ⟨Nat.zero_lt_succ 7, 0, rfl, (Nat.zero_min _).symm, rfl⟩
  have hsim : Sim input ⟨history, ⟨0, bits⟩, out, out.length⟩ ⟨history, ⟨0, 0, 0, bits, 0⟩, out⟩ := by
    refine ⟨rfl, ?_, Nat.le_refl _, hat, rfl⟩
    dsimp only
    rw [List.drop_length, Ring.write_nil]
  obtain ⟨st', hdecode, hout, hhistory⟩ := hsim.follows hrun
  rw [decompressBody, hdecode, Option.map_some]
  dsimp only at hout hhistory ⊢
  rw [hhistory, hout]

section
variable {body body' : History → Bytes → ℕ → Bytes → Option Segment}

theorem segmentWith_imp (hbody : ∀ history input bits out result, body history input bits out = some result →
      body' history input bits out = some result)
    {history : History} {seg out : Bytes} {result : Segment} (h : segmentWith body history seg out = some result) :
    segmentWith body' history seg out = some result := by
  unfold segmentWith at h ⊢
  split at h
  · split_ifs at h ⊢
    · exact h
    · exact h
    · exact h
    · split at h
      · exact h
      · exact hbody _ _ _ _ _ h
  · exact h

end

section
variable {segment segment' : History → Bytes → Bytes → Option Segment}

theorem segments_imp (hsegment : ∀ history seg out result, segment history seg out = some result →
      segment' history seg out = some result)
    {count : ℕ} {history : History} {src out : Bytes} {result : History × Option Bytes}
    (h : segments segment count history src out = some result) :
    segments segment' count history src out = some result := by
  induction count generalizing history src out with
  | zero => exact h
  | succ count ih =>
    rw [segments] at h ⊢
    split at h
    · exact h
    · obtain ⟨seg, hseg, h⟩ := Option.bind_eq_some_iff.mp h
      rw [hsegment _ _ _ _ hseg, Option.bind_some]
      dsimp only at h ⊢
      split_ifs at h ⊢
      · exact ih h
      · exact h

theorem decompressWith_imp (hsegment : ∀ history seg out result, segment history seg out = some result →
      segment' history seg out = some result)
    {history : History} {src : Bytes} {result : History × Option Bytes}
    (h : decompressWith segment history src = some result) : decompressWith segment' history src = some result := by
  unfold decompressWith at h ⊢
  split at h
  · exact h
  · split_ifs at h ⊢
    · obtain ⟨seg, hseg, hresult⟩ := Option.map_eq_some_iff.mp h
      exact Option.map_eq_some_iff.mpr ⟨seg, hsegment _ _ _ _ hseg, hresult⟩
    · split at h
      · exact h
      · split at h
        · exact h
        · obtain ⟨parts, hparts, hresult⟩ := Option.map_eq_some_iff.mp h
          exact Option.map_eq_some_iff.mpr ⟨parts, segments_imp hsegment hparts, hresult⟩
    · exact h

end

/-- What the reference returns within a number of passes, the table-driven decoder returns within as many: the same
bytes, or `none`, and the same history. -/
theorem decompress_of_decompressRef {fuel : ℕ} {history : History} {src : Bytes} {result : History × Option Bytes}
    (h : decompressRef fuel history src = some result) : decompress fuel history src = some result :=
  decompressWith_imp (fun _ _ _ _ hseg => segmentWith_imp (fun _ _ _ _ _ hbody => decompressBody_of_ref hbody) hseg) h

/-- Three literals, the last two of them in tokens of their own. -/
theorem decompress_of_decompressRef_literals :
    decompress 9 new [0xE0, 0x20, 0x32, 0x64, 0x00, 0x05] = some (((new.push 100).push 1).push 0, some [100, 1, 0]) :=
  decompress_of_decompressRef rfl

end Rdpio.Graphics.Zgfx
