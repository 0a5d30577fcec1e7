import Rdpio.Lib.Ring

/-!
# ZGFX decompression

`crates/rdp-graphics/src/zgfx.rs`: the table-driven decoder, with the history that lives as long as the
connection.
-/

namespace Rdpio.Graphics.Zgfx

open Lib

abbrev Bytes := List UInt8

def SEGMENTED_SINGLE : UInt8 := 0xE0
def SEGMENTED_MULTIPART : UInt8 := 0xE1
def PACKET_COMPRESSED : UInt8 := 0x20
def HISTORY_SIZE : ℕ := 2500000

def MAX_SEGMENT_OUTPUT : ℕ := 65536

/-! ## Tokens -/

inductive TokenType
  | literal
  | copy
deriving DecidableEq

structure Token where
  prefix_len : ℕ
  prefix_code : ℕ
  value_bits : ℕ
  token_type : TokenType
  value_base : ℕ
deriving DecidableEq

def t (prefix_len prefix_code value_bits token_type value_base : ℕ) : Token :=
  ⟨prefix_len, prefix_code, value_bits, if token_type = 0 then .literal else .copy, value_base⟩

def TOKENS : List Token := [
  t 1 0 8 0 0,
  t 5 17 5 1 0,
  t 5 18 7 1 32,
  t 5 19 9 1 160,
  t 5 20 10 1 672,
  t 5 21 12 1 1696,
  t 5 24 0 0 0x00,
  t 5 25 0 0 0x01,
  t 6 44 14 1 5792,
  t 6 45 15 1 22176,
  t 6 52 0 0 0x02,
  t 6 53 0 0 0x03,
  t 6 54 0 0 0xFF,
  t 7 92 18 1 54944,
  t 7 93 20 1 317088,
  t 7 110 0 0 0x04,
  t 7 111 0 0 0x05,
  t 7 112 0 0 0x06,
  t 7 113 0 0 0x07,
  t 7 114 0 0 0x08,
  t 7 115 0 0 0x09,
  t 7 116 0 0 0x0A,
  t 7 117 0 0 0x0B,
  t 7 118 0 0 0x3A,
  t 7 119 0 0 0x3B,
  t 7 120 0 0 0x3C,
  t 7 121 0 0 0x3D,
  t 7 122 0 0 0x3E,
  t 7 123 0 0 0x3F,
  t 7 124 0 0 0x40,
  t 7 125 0 0 0x80,
  t 8 188 20 1 1365664,
  t 8 189 21 1 2414240,
  t 8 252 0 0 0x0C,
  t 8 253 0 0 0x38,
  t 8 254 0 0 0x39,
  t 8 255 0 0 0x66,
  t 9 380 22 1 4511392,
  t 9 381 23 1 8705696,
  t 9 382 24 1 17094304]

def PREFIX_BITS : ℕ := 9

inductive Kind
  | invalid
  | literal
  | copy
deriving DecidableEq

structure Slot where
  base : ℕ
  len : ℕ
  vbits : ℕ
  kind : Kind
deriving DecidableEq

def slotOf (tok : Token) (idx : ℕ) : Slot :=
  let shift := PREFIX_BITS - tok.prefix_len
  match tok.token_type with
  | .literal =>
    ⟨tok.value_base + idx % 2^shift / 2^(shift - tok.value_bits), tok.prefix_len + tok.value_bits, 0, .literal⟩
  | .copy => ⟨tok.value_base, tok.prefix_len, tok.value_bits, .copy⟩

def fill (tok : Token) (table : List Slot) : List Slot :=
  let shift := PREFIX_BITS - tok.prefix_len
  let first := tok.prefix_code * 2^shift
  (List.range (2^shift)).foldl (fun table k => table.set (first + k) (slotOf tok (first + k))) table

def buildDecode : List Slot := TOKENS.foldr fill (List.replicate (2^PREFIX_BITS) ⟨0, 0, 0, .invalid⟩)

def slotFor (idx : ℕ) : Slot :=
  match TOKENS.find? fun tok => idx / 2^(PREFIX_BITS - tok.prefix_len) = tok.prefix_code with
  | some tok => slotOf tok idx
  | none => ⟨0, 0, 0, .invalid⟩

theorem length_foldl_set (f : ℕ → Slot) (first : ℕ) (ks : List ℕ) (table : List Slot) :
    (ks.foldl (fun table k => table.set (first + k) (f (first + k))) table).length = table.length := by
  induction ks generalizing table with
  | nil => rfl
  | cons k ks ih => rw [List.foldl_cons, ih, List.length_set]

theorem getElem?_foldl_set (f : ℕ → Slot) (first n : ℕ) (table : List Slot) {idx : ℕ} (hidx : idx < table.length) :
    ((List.range n).foldl (fun table k => table.set (first + k) (f (first + k))) table)[idx]? =
      if first ≤ idx ∧ idx < first + n then some (f idx) else table[idx]? := by
  induction n with
  | zero => rw [if_neg (by omega), List.range_zero, List.foldl_nil]
  | succ n ih =>
    rw [List.range_succ, List.foldl_append, List.foldl_cons, List.foldl_nil, List.getElem?_set, ih, length_foldl_set]
    by_cases hlast : first + n = idx
    · rw [if_pos hlast, if_pos (hlast ▸ hidx), if_pos (by omega), hlast]
    · rw [if_neg hlast]
      exact if_congr (by omega) rfl rfl

theorem getElem?_fill (tok : Token) (table : List Slot) {idx : ℕ} (hidx : idx < table.length) : (fill tok table)[idx]? =
      if idx / 2^(PREFIX_BITS - tok.prefix_len) = tok.prefix_code then some (slotOf tok idx) else table[idx]? := by
  rw [fill, getElem?_foldl_set (slotOf tok) _ _ _ hidx]
  refine if_congr ?_ rfl rfl
  rw [Nat.div_eq_iff (Nat.two_pow_pos _)]
  have hpos := Nat.two_pow_pos (PREFIX_BITS - tok.prefix_len)
  omega

theorem length_foldr_fill (tokens : List Token) (table : List Slot) : (tokens.foldr fill table).length = table.length := by
  induction tokens with
  | nil => rfl
  | cons tok tokens ih => rw [List.foldr_cons, fill, length_foldl_set, ih]

theorem getElem?_foldr_fill (tokens : List Token) (table : List Slot) {idx : ℕ} (hidx : idx < table.length) :
    (tokens.foldr fill table)[idx]? =
      (tokens.find? fun tok => idx / 2^(PREFIX_BITS - tok.prefix_len) = tok.prefix_code).elim table[idx]?
        fun tok => some (slotOf tok idx) := by
  induction tokens with
  | nil => rfl
  | cons tok tokens ih =>
    rw [List.foldr_cons, getElem?_fill tok _ (hidx.trans_eq (length_foldr_fill tokens table).symm), ih, List.find?_cons]
    by_cases hfirst : idx / 2^(PREFIX_BITS - tok.prefix_len) = tok.prefix_code
    · rw [if_pos hfirst, decide_eq_true hfirst]
      rfl
    · rw [if_neg hfirst, decide_eq_false hfirst]

theorem buildDecode_eq : buildDecode = (List.range (2^PREFIX_BITS)).map slotFor := by
  have hlength := (length_foldr_fill TOKENS (List.replicate (2^PREFIX_BITS) ⟨0, 0, 0, .invalid⟩)).trans
    List.length_replicate
  refine List.ext_getElem? fun idx => ?_
  rw [buildDecode]
  by_cases hidx : idx < 2^PREFIX_BITS
  · rw [getElem?_foldr_fill _ _ (hidx.trans_eq List.length_replicate.symm), List.getElem?_map, List.getElem?_range hidx,
      List.getElem?_replicate_of_lt hidx, Option.map_some, slotFor]
    cases TOKENS.find? _ <;> rfl
  · rw [List.getElem?_eq_none (hlength.le.trans (not_lt.mp hidx)), List.getElem?_eq_none]
    rw [List.length_map, List.length_range]
    exact not_lt.mp hidx

def decode (idx : ℕ) : Slot := buildDecode.getD idx ⟨0, 0, 0, .invalid⟩

theorem decode_eq {idx : ℕ} (h : idx < 2^PREFIX_BITS) : decode idx = slotFor idx := by
  rw [decode, buildDecode_eq, List.getD_eq_getElem?_getD, List.getElem?_map, List.getElem?_range h]
  rfl

/-! ## Bits -/

def u64FromBe (bytes : Bytes) : ℕ := bytes.foldl (fun acc b => acc * 2^8 + b.toNat) 0

def word (input : Bytes) (bitpos : ℕ) : ℕ :=
  let tail := (input.drop (bitpos / 8)).take 8
  u64FromBe (tail ++ List.replicate (8 - tail.length) 0) * 2^(bitpos % 8) % 2^64

def shl (w n : ℕ) : ℕ := w * 2^n % 2^64

def top (w n : ℕ) : ℕ := w / 2^(64 - n)

def leadingOnes : ℕ → ℕ → ℕ
  | 0, _ => 0
  | width + 1, w => if w.testBit width then leadingOnes width w + 1 else 0

structure Reader where
  bitpos : ℕ
  remaining : ℕ
deriving DecidableEq

def Reader.skip (r : Reader) (n : ℕ) : Reader := ⟨r.bitpos + n, r.remaining - n⟩

/-- What a pass of the token loop has read. -/
inductive Read
  | literals (bytes : Bytes)
  | copy (distance count : ℕ)
  | raw (bytes : Bytes)
deriving DecidableEq

def literalBurst (w : ℕ) : ℕ → Slot → ℕ → Bytes × ℕ
  | 0, _, used => ([], used)
  | room + 1, s, used =>
    let used := used + s.len
    let next := decode (top (shl w used) PREFIX_BITS)
    if room = 0 ∨ next.kind ≠ .literal then ([UInt8.ofNat s.base], used)
    else
      let (bytes, used) := literalBurst w room next used
      (UInt8.ofNat s.base :: bytes, used)

def readLength (input : Bytes) (r : Reader) : Option (ℕ × Reader) :=
  let w := word input r.bitpos
  if top w 1 = 0 then some (3, r.skip 1)
  else
    let k := leadingOnes 64 (shl w 1)
    if 15 ≤ k then none
    else some (4 * 2^k + top (shl w (2 + k)) (2 + k), r.skip (2 + k + (2 + k)))

def readRaw (input : Bytes) (r : Reader) : Option (Bytes × Reader) :=
  let count := top (word input r.bitpos) 15
  let r := r.skip 15
  let remaining := r.remaining - (8 - r.bitpos % 8) % 8
  let pos := min ((r.bitpos + 7) / 8) input.length
  if pos + count ≤ input.length then some ((input.drop pos).take count, ⟨(pos + count) * 8, remaining - 8 * count⟩)
  else none

def readSlot (input : Bytes) (produced : ℕ) (r : Reader) (slot : Slot) : Option (Read × Reader) :=
  let w := word input r.bitpos
  match slot.kind with
  | .literal =>
    if 6 * PREFIX_BITS ≤ r.remaining ∧ produced + 5 ≤ MAX_SEGMENT_OUTPUT then
      let (bytes, used) := literalBurst w 6 slot 0
      some (.literals bytes, r.skip used)
    else some (.literals [UInt8.ofNat slot.base], r.skip slot.len)
  | .invalid => none
  | .copy =>
    let distance := slot.base + top (shl w slot.len) slot.vbits
    let r := r.skip (slot.len + slot.vbits)
    if distance ≠ 0 then
      (readLength input r).bind fun (count, r) =>
        if MAX_SEGMENT_OUTPUT < count then none else some (.copy distance count, r)
    else (readRaw input r).map fun (bytes, r) => (.raw bytes, r)

def readToken (input : Bytes) (produced : ℕ) (r : Reader) : Option (Read × Reader) :=
  readSlot input produced r (decode (top (word input r.bitpos) PREFIX_BITS))

theorem top_lt {w n : ℕ} (hw : w < 2^64) (hn : n ≤ 64) : top w n < 2^n := by
  rw [top, Nat.div_lt_iff_lt_mul (Nat.two_pow_pos _), ← Nat.pow_add, Nat.add_sub_cancel' hn]
  exact hw

theorem word_lt (input : Bytes) (bitpos : ℕ) : word input bitpos < 2^64 := Nat.mod_lt _ (Nat.two_pow_pos _)

theorem shl_lt (w n : ℕ) : shl w n < 2^64 := Nat.mod_lt _ (Nat.two_pow_pos _)

theorem readToken_eq (input : Bytes) (produced : ℕ) (r : Reader) :
    readToken input produced r = readSlot input produced r (slotFor (top (word input r.bitpos) PREFIX_BITS)) := by
  rw [readToken, decode_eq (top_lt (word_lt input r.bitpos) (by decide))]

abbrev History := Ring UInt8 HISTORY_SIZE

def repeatFrom (start count : ℕ) : ℕ → Bytes → Option Bytes
  | 0, _ => none
  | fuel + 1, out =>
    let produced := out.length - start
    if produced < count then
      repeatFrom start count fuel (out ++ (out.drop start).take (min produced (count - produced)))
    else some out

def matchInto (fuel : ℕ) (history : History) (distance count : ℕ) (out : Bytes) : Option Bytes :=
  if distance = 0 ∨ count = 0 then some out
  else
    let dist := distance % HISTORY_SIZE
    let index := (history.index + HISTORY_SIZE - dist) % HISTORY_SIZE
    let first := min count dist
    let run1 := min first (HISTORY_SIZE - index)
    repeatFrom out.length count fuel (out ++ (history.buf.drop index).take run1 ++ history.buf.take (first - run1))

/-- `decode_tokens` at the head of its loop. -/
structure Decoding where
  history : History
  r : Reader
  out : Bytes
  synced : ℕ

def Decoding.copyMatch (fuel : ℕ) (st : Decoding) (r : Reader) (distance count : ℕ) : Option Decoding :=
  let history := st.history.write (st.out.drop st.synced)
  (matchInto fuel history distance count st.out).map fun out => { history, r, out, synced := st.out.length }

inductive Pass
  | next (st : Decoding)
  | done (st : Decoding) (ok : Bool)

/-- A pass of `decode_tokens`. -/
def tokenPass (fuel : ℕ) (input : Bytes) (seg_start : ℕ) (st : Decoding) : Option Pass :=
  if st.r.remaining = 0 then some (.done st true)
  else if MAX_SEGMENT_OUTPUT < st.out.length - seg_start then some (.done st false)
  else match readToken input (st.out.length - seg_start) st.r with
    | none => some (.done st false)
    | some (.literals bytes, r) => some (.next { st with r, out := st.out ++ bytes })
    | some (.raw bytes, r) => some (.next { st with r, out := st.out ++ bytes })
    | some (.copy distance count, r) => (st.copyMatch fuel r distance count).map .next

/-- The loop of `decode_tokens`. -/
def decodeTokens (input : Bytes) (seg_start : ℕ) : ℕ → Decoding → Option (Decoding × Bool)
  | 0, _ => none
  | fuel + 1, st => (tokenPass fuel input seg_start st).bind fun
    | .next st => decodeTokens input seg_start fuel st
    | .done st ok => some (st, ok)

abbrev Segment := History × Bytes × Bool

def bodyBits (body : Bytes) : Option (Bytes × ℕ) :=
  let last := (body.getLastD 0).toNat
  let input := body.dropLast
  let total := 8 * (input.length % 2^32)
  if 2^32 ≤ total ∨ total < last then none else some (input, total - last)

def segmentWith (compressed : History → Bytes → ℕ → Bytes → Option Segment) (history : History) (seg out : Bytes) :
    Option Segment :=
  match seg with
  | flags :: body =>
    if body = [] then some (history, out, false)
    else if flags &&& PACKET_COMPRESSED = 0 then
      if MAX_SEGMENT_OUTPUT < body.length then some (history, out, false)
      else some (history.write body, out ++ body, true)
    else match bodyBits body with
      | none => some (history, out, false)
      | some (input, bits) => compressed history input bits out
  | [] => some (history, out, false)

def decompressBody (fuel : ℕ) (history : History) (input : Bytes) (bits : ℕ) (out : Bytes) : Option Segment :=
  (decodeTokens input out.length fuel ⟨history, ⟨0, bits⟩, out, out.length⟩).map fun (st, ok) =>
    (st.history.write (st.out.drop st.synced), st.out, ok)

def decompressSegment (fuel : ℕ) : History → Bytes → Bytes → Option Segment := segmentWith (decompressBody fuel)

def u16Le : Bytes → Option (ℕ × Bytes)
  | a :: b :: rest => some (a.toNat + b.toNat * 2^8, rest)
  | _ => none

def u32Le : Bytes → Option (ℕ × Bytes)
  | a :: b :: c :: d :: rest => some (a.toNat + b.toNat * 2^8 + c.toNat * 2^16 + d.toNat * 2^24, rest)
  | _ => none

def nextSegment (src : Bytes) : Option (Bytes × Bytes) :=
  (u32Le src).bind fun (seg_size, rest) =>
    if seg_size ≤ rest.length then some (rest.take seg_size, rest.drop seg_size) else none

def segments (segment : History → Bytes → Bytes → Option Segment) :
    ℕ → History → Bytes → Bytes → Option (History × Option Bytes)
  | 0, history, _, out => some (history, some out)
  | count + 1, history, src, out =>
    match nextSegment src with
    | none => some (history, none)
    | some (seg, rest) =>
      (segment history seg out).bind fun (history, out, ok) =>
        if ok then segments segment count history rest out else some (history, none)

def decompressWith (segment : History → Bytes → Bytes → Option Segment) (history : History) (src : Bytes) :
    Option (History × Option Bytes) :=
  match src with
  | [] => some (history, none)
  | descriptor :: src =>
    if descriptor = SEGMENTED_SINGLE then
      (segment history src []).map fun (history, out, ok) => (history, if ok then some out else none)
    else if descriptor = SEGMENTED_MULTIPART then
      match u16Le src with
      | none => some (history, none)
      | some (count, src) =>
        match u32Le src with
        | none => some (history, none)
        | some (uncompressed, src) =>
          (segments segment count history src []).map fun (history, out) =>
            (history, out.filter (·.length = uncompressed))
    else some (history, none)

def decompress (fuel : ℕ) : History → Bytes → Option (History × Option Bytes) := decompressWith (decompressSegment fuel)

def new : History := ⟨List.replicate HISTORY_SIZE 0, 0, List.length_replicate, by decide⟩

end Rdpio.Graphics.Zgfx
