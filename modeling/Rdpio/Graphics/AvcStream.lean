import Rdpio.Graphics.LengthPrefix

/-!
# H.264 stream framing

`crates/rdp-graphics/src/avc.rs`: the region metablock in front of an H.264 stream, the two streams of an AVC444
bitmap, and the NAL units of an Annex-B stream.
-/

namespace Rdpio.Graphics.Avc

open Lib

structure Rect where
  left : UInt16
  top : UInt16
  right : UInt16
  bottom : UInt16
deriving DecidableEq

structure QuantQuality where
  qp : UInt8
  quality : UInt8
deriving DecidableEq

structure Avc420Stream where
  rects : List Rect
  quants : List QuantQuality
  h264 : List UInt8
deriving DecidableEq

inductive Avc444Lc where
  | Both
  | LumaOnly
  | ChromaOnly
deriving DecidableEq

structure Avc444Stream where
  lc : Avc444Lc
  stream1 : Avc420Stream
  stream2 : Option Avc420Stream
deriving DecidableEq

/-! ### The parsers -/

def rect_at (buf : List UInt8) (off : ℕ) : Option Rect := do
  let left ← u16le buf off
  let top ← u16le buf (off + 2)
  let right ← u16le buf (off + 4)
  let bottom ← u16le buf (off + 6)
  some ⟨left, top, right, bottom⟩

def quant_at (buf : List UInt8) (off : ℕ) : Option QuantQuality := do
  let qp ← buf[off]?
  let quality ← buf[off + 1]?
  some ⟨qp, quality⟩

def records {α : Type} (at_off : ℕ → Option α) (width : ℕ) : ℕ → ℕ → Option (List α × ℕ)
  | 0, off => some ([], off)
  | count + 1, off => do
    let a ← at_off off
    let (as, behind) ← records at_off width count (off + width)
    some (a :: as, behind)

/-- `buf.get(off..)`. -/
def get_from (buf : List UInt8) (off : ℕ) : Option (List UInt8) :=
  if off ≤ buf.length then some (buf.drop off) else none

/-- `buf.get(start..end)`. -/
def get_range (buf : List UInt8) (start stop : ℕ) : Option (List UInt8) :=
  if start ≤ stop ∧ stop ≤ buf.length then some ((buf.take stop).drop start) else none

def parse_avc420 (buf : List UInt8) : ℕ × Option Avc420Stream :=
  match u32le buf 0 with
  | none => (0, none)
  | some n =>
    let count := n.toNat
    match records (rect_at buf) 8 count 4 with
    | none => (8 * count, none)
    | some (rects, off) =>
      (8 * count + 2 * count, do
        let (quants, off) ← records (quant_at buf) 2 count off
        let h264 ← get_from buf off
        some ⟨rects, quants, h264⟩)

def lc_of (word : ℕ) : Option Avc444Lc :=
  match word / 2^30 with
  | 0 => some .Both
  | 1 => some .LumaOnly
  | 2 => some .ChromaOnly
  | _ => none

def avc444_head (buf : List UInt8) : Option (Avc444Lc × ℕ × List UInt8) := do
  let word ← u32le buf 0
  let len1 := word.toNat % 2^30
  let lc ← lc_of word.toNat
  let stream1_bytes ← get_range buf 4 (4 + len1)
  some (lc, len1, stream1_bytes)

def parse_avc444 (buf : List UInt8) : ℕ × Option Avc444Stream :=
  match avc444_head buf with
  | none => (0, none)
  | some (lc, len1, stream1_bytes) =>
    match parse_avc420 stream1_bytes with
    | (reserved, none) => (reserved, none)
    | (reserved, some stream1) =>
      if lc = .Both then
        match get_from buf (4 + len1) with
        | none => (reserved, none)
        | some bytes =>
          let second := parse_avc420 bytes
          (reserved + second.1, second.2.map fun stream2 => ⟨lc, stream1, some stream2⟩)
      else (reserved, some ⟨lc, stream1, none⟩)

def start_codes (h264 : List UInt8) (i : ℕ) : Option (List (ℕ × ℕ)) :=
  if i + 3 ≤ h264.length then do
    let b0 ← h264[i]?
    let b1 ← h264[i + 1]?
    let b2 ← h264[i + 2]?
    if b0 = 0 ∧ b1 = 0 ∧ b2 = 1 then do
      let tail ← start_codes h264 (i + 3)
      some ((i, i + 3) :: tail)
    else start_codes h264 (i + 1)
  else some []
termination_by h264.length - i

def unit_end (h264 : List UInt8) (payload : ℕ) : List (ℕ × ℕ) → Option ℕ
  | (next_sc, _) :: _ =>
    if next_sc > payload then do
      let before ← h264[next_sc - 1]?
      some (if before = 0 then next_sc - 1 else next_sc)
    else some next_sc
  | [] => some h264.length

def units_at (h264 : List UInt8) : List (ℕ × ℕ) → Option (List (List UInt8))
  | [] => some []
  | (_, payload) :: starts => do
    let stop ← unit_end h264 payload starts
    let nals ← units_at h264 starts
    if payload ≤ stop then do
      let nal ← get_range h264 payload stop
      some (nal :: nals)
    else some nals

/-- A slice reference takes sixteen bytes. -/
def nal_units (h264 : List UInt8) : ℕ × Option (List (List UInt8)) :=
  match start_codes h264 0 with
  | none => (0, none)
  | some starts => (16 * starts.length, units_at h264 starts)

def Rect.bytes (r : Rect) : List UInt8 :=
  leBytes 2 r.left.toNat ++ leBytes 2 r.top.toNat ++ leBytes 2 r.right.toNat ++ leBytes 2 r.bottom.toNat

def QuantQuality.bytes (q : QuantQuality) : List UInt8 := [q.qp, q.quality]

/-- `RFX_AVC420_BITMAP_STREAM`. -/
def Avc420Stream.bytes (s : Avc420Stream) : List UInt8 :=
  leBytes 4 s.rects.length ++ s.rects.flatMap Rect.bytes ++ s.quants.flatMap QuantQuality.bytes ++ s.h264

/-- A quantiser for each rectangle, and no more of them than their count can say. -/
structure Avc420Stream.Valid (s : Avc420Stream) : Prop where
  quants : s.quants.length = s.rects.length
  count : s.rects.length < 2^32

def Avc444Lc.code : Avc444Lc → ℕ
  | .Both => 0
  | .LumaOnly => 1
  | .ChromaOnly => 2

def Avc444Lc.word (lc : Avc444Lc) (len1 : ℕ) : List UInt8 := leBytes 4 (lc.code * 2^30 + len1)

def avc444_bytes (lc : Avc444Lc) (luma chroma : Avc420Stream) : List UInt8 :=
  match lc with
  | .Both => lc.word luma.bytes.length ++ luma.bytes ++ chroma.bytes
  | .LumaOnly => lc.word luma.bytes.length ++ luma.bytes
  | .ChromaOnly => lc.word 0 ++ chroma.bytes

/-- What a receiver is to get. -/
def avc444_stream (lc : Avc444Lc) (luma chroma : Avc420Stream) : Avc444Stream :=
  match lc with
  | .Both => ⟨lc, luma, some chroma⟩
  | .LumaOnly => ⟨lc, luma, none⟩
  | .ChromaOnly => ⟨lc, chroma, none⟩

def start_code (four : Bool) : List UInt8 := if four then [0, 0, 0, 1] else [0, 0, 1]

def annex_b (units : List (Bool × List UInt8)) : List UInt8 := units.flatMap fun u => start_code u.1 ++ u.2

structure IsNal (unit : List UInt8) : Prop where
  last : ∃ b, unit.getLast? = some b ∧ b ≠ 0
  plain : ¬ [0, 0, 1] <:+: unit

theorem records_spec {α : Type} {buf rest : List UInt8} {at_off : ℕ → Option α} {width : ℕ}
    (bytes : α → List UInt8) (hlen : ∀ a, (bytes a).length = width)
    (hat : ∀ a off tail, buf.drop off = bytes a ++ tail → at_off off = some a) :
    ∀ (as : List α) (off : ℕ), buf.drop off = as.flatMap bytes ++ rest →
      records at_off width as.length off = some (as, off + width * as.length) := by
  intro as
  induction as with
  | nil => intro off _; rfl
  | cons a as ih =>
    intro off h
    rw [List.flatMap_cons, List.append_assoc] at h
    have hnext : buf.drop (off + width) = as.flatMap bytes ++ rest := by
      rw [← List.drop_drop, h, List.drop_left' (hlen a)]
    have hoff : off + width + width * as.length = off + width * (as.length + 1) := by ring
    simp [records, hat a off _ h, ih _ hnext, hoff]

theorem Rect.length_bytes (r : Rect) : r.bytes.length = 8 := by simp [Rect.bytes]

theorem rect_at_spec {buf : List UInt8} (r : Rect) (off : ℕ) (tail : List UInt8)
    (h : buf.drop off = r.bytes ++ tail) : rect_at buf off = some r := by
  simp only [Rect.bytes, List.append_assoc] at h
  have hnext {o : ℕ} {n : ℕ} {t : List UInt8} (ho : buf.drop o = leBytes 2 n ++ t) : buf.drop (o + 2) = t := by
    rw [← List.drop_drop, ho, List.drop_left' (length_leBytes 2 n)]
  have h2 := hnext h
  have h4 := hnext h2
  have h6 := hnext h4
  simp [rect_at, u16le_of_drop h, u16le_of_drop h2, u16le_of_drop h4, u16le_of_drop h6]

theorem QuantQuality.length_bytes (q : QuantQuality) : q.bytes.length = 2 := rfl

theorem quant_at_spec {buf : List UInt8} (q : QuantQuality) (off : ℕ) (tail : List UInt8)
    (h : buf.drop off = q.bytes ++ tail) : quant_at buf off = some q := by
  have h0 : buf[off]? = some q.qp := by
    rw [← Nat.add_zero off, ← List.getElem?_drop, h]
    rfl
  have h1 : buf[off + 1]? = some q.quality := by
    rw [← List.getElem?_drop, h]
    rfl
  simp [quant_at, h0, h1]

theorem length_flatMap_of {α : Type} {f : α → List UInt8} {w : ℕ} (hf : ∀ a, (f a).length = w)
    (as : List α) : (as.flatMap f).length = w * as.length := by
  induction as with
  | nil => rfl
  | cons a as ih =>
    rw [List.flatMap_cons, List.length_append, hf, ih, List.length_cons]
    ring

theorem parse_bytes {s : Avc420Stream} (hs : s.Valid) : (parse_avc420 s.bytes).2 = some s := by
  obtain ⟨rects, quants, h264⟩ := s
  obtain ⟨hq, hcount⟩ := hs
  simp only at hq hcount
  have h0 : (Avc420Stream.bytes ⟨rects, quants, h264⟩).drop 0 = leBytes 4 rects.length ++
      (rects.flatMap Rect.bytes ++ (quants.flatMap QuantQuality.bytes ++ h264)) := by
    simp only [Avc420Stream.bytes, List.drop_zero, List.append_assoc]
  have hn := u32le_of_drop h0
  have hnat : (UInt32.ofNat rects.length).toNat = rects.length := by
    rw [UInt32.toNat_ofNat', Nat.mod_eq_of_lt hcount]
  -- What lies behind the count, the rectangles and the quantisers.
  have h4 : (Avc420Stream.bytes ⟨rects, quants, h264⟩).drop 4 =
      rects.flatMap Rect.bytes ++ (quants.flatMap QuantQuality.bytes ++ h264) := by
    simp only [Avc420Stream.bytes, List.append_assoc]
    rw [List.drop_left' (length_leBytes 4 _)]
  have hrects := records_spec Rect.bytes Rect.length_bytes rect_at_spec rects 4 h4
  have hr : (rects.flatMap Rect.bytes).length = 8 * rects.length := length_flatMap_of Rect.length_bytes rects
  have hqs := length_flatMap_of QuantQuality.length_bytes quants
  have hq4 : (Avc420Stream.bytes ⟨rects, quants, h264⟩).drop (4 + 8 * rects.length) =
      quants.flatMap QuantQuality.bytes ++ h264 := by
    rw [← List.drop_drop, h4, List.drop_left' hr]
  have hquants := records_spec QuantQuality.bytes QuantQuality.length_bytes quant_at_spec quants _ hq4
  rw [hq] at hquants hqs
  have hend : (Avc420Stream.bytes ⟨rects, quants, h264⟩).drop
      (4 + 8 * rects.length + 2 * rects.length) = h264 := by
    rw [← List.drop_drop, hq4, List.drop_left' hqs]
  have hle : 4 + 8 * rects.length + 2 * rects.length ≤
      (Avc420Stream.bytes ⟨rects, quants, h264⟩).length := by
    simp only [Avc420Stream.bytes, List.length_append, length_leBytes, hr, hqs]
    omega
  simp only [parse_avc420, hn, hnat, hrects, hquants, get_from, if_pos hle, hend, Option.bind_eq_bind, Option.bind_some]

theorem records_fit {α : Type} {at_off : ℕ → Option α} {buf : List UInt8} {width : ℕ}
    (hat : ∀ off, (at_off off).isSome → off + width ≤ buf.length) :
    ∀ (count off : ℕ) {as : List α} {behind : ℕ}, off ≤ buf.length →
      records at_off width count off = some (as, behind) →
      behind = off + width * count ∧ behind ≤ buf.length := by
  intro count
  induction count with
  | zero =>
    intro off as behind hoff h
    simp only [records, Option.some.injEq, Prod.mk.injEq] at h
    simpa [← h.2] using hoff
  | succ count ih =>
    intro off as behind hoff h
    simp only [records, Option.bind_eq_bind, Option.bind_eq_some_iff] at h
    obtain ⟨a, ha, ⟨as', behind'⟩, htail, heq⟩ := h
    simp only [Option.some.injEq, Prod.mk.injEq] at heq
    have hfit := hat off (by simp [ha])
    obtain ⟨hb, hle⟩ := ih (off + width) hfit htail
    rw [← heq.2]
    refine ⟨?_, hle⟩
    rw [hb]
    ring

theorem rect_at_fits {buf : List UInt8} (off : ℕ) (h : (rect_at buf off).isSome) : off + 8 ≤ buf.length := by
  by_contra hlt
  have hlast : buf[off + 6 + 1]? = none := List.getElem?_eq_none (by omega)
  simp [rect_at, u16le, hlast] at h

theorem quant_at_fits {buf : List UInt8} (off : ℕ) (h : (quant_at buf off).isSome) : off + 2 ≤ buf.length := by
  by_contra hlt
  have hlast : buf[off + 1]? = none := List.getElem?_eq_none (by omega)
  simp [quant_at, hlast] at h

def count_of (buf : List UInt8) : ℕ := ((u32le buf 0).map UInt32.toNat).getD 0

theorem four_le {buf : List UInt8} {n : UInt32} (h : u32le buf 0 = some n) : 4 ≤ buf.length := by
  by_contra hlt
  have hlast : buf[0 + 3]? = none := List.getElem?_eq_none (by omega)
  simp only [u32le, hlast, Option.bind_eq_bind, Option.bind_none, Option.bind_fun_none, reduceCtorEq] at h

theorem reserved_avc420 (buf : List UInt8) : (parse_avc420 buf).1 = 8 * count_of buf ∨
      (parse_avc420 buf).1 = 10 * count_of buf ∧ 4 + 8 * count_of buf ≤ buf.length := by
  unfold parse_avc420 count_of
  cases hn : u32le buf 0 with
  | none => simp
  | some n =>
    cases hr : records (rect_at buf) 8 n.toNat 4 with
    | none => simp [hr]
    | some read =>
      obtain ⟨rects, off⟩ := read
      obtain ⟨hoff, hle⟩ := records_fit rect_at_fits n.toNat 4 (four_le hn) hr
      right
      simp only [hr, Option.map_some, Option.getD_some]
      omega

/-- A stream that parses has room for what its count says. -/
theorem whole_avc420 {buf : List UInt8} {s : Avc420Stream} (h : (parse_avc420 buf).2 = some s) :
    (parse_avc420 buf).1 = 10 * count_of buf ∧ 4 + 10 * count_of buf ≤ buf.length := by
  unfold parse_avc420 count_of at *
  cases hn : u32le buf 0 with
  | none => simp [hn] at h
  | some n =>
    cases hr : records (rect_at buf) 8 n.toNat 4 with
    | none => simp [hn, hr] at h
    | some read =>
      obtain ⟨rects, off⟩ := read
      simp only [hn, hr, Option.bind_eq_bind, Option.bind_eq_some_iff] at h
      obtain ⟨⟨quants, behind⟩, hq, -⟩ := h
      obtain ⟨hoff, hle⟩ := records_fit rect_at_fits n.toNat 4 (four_le hn) hr
      obtain ⟨hoff', hle'⟩ := records_fit quant_at_fits n.toNat off hle hq
      simp only [hr, Option.map_some, Option.getD_some]
      omega

theorem reserved_avc420_le {k : ℕ} (hk : 2 ≤ k) (buf : List UInt8) :
    (parse_avc420 buf).1 ≤ k * buf.length ↔ 8 * count_of buf ≤ k * buf.length := by
  have hlen : 2 * buf.length ≤ k * buf.length := Nat.mul_le_mul_right _ hk
  rcases reserved_avc420 buf with h | ⟨h, hfit⟩ <;> omega

/-! ### Two streams -/

theorem Avc444Lc.lc_of_code (lc : Avc444Lc) {n : ℕ} (hn : n < 2^30) : lc_of (lc.code * 2^30 + n) = some lc := by
  have hdiv : (lc.code * 2^30 + n) / 2^30 = lc.code := by omega
  rw [lc_of, hdiv]
  cases lc <;> rfl

theorem avc444_head_of {buf first : List UInt8} {w : UInt32} {lc : Avc444Lc} {n : ℕ}
    (h0 : u32le buf 0 = some w) (hlc : lc_of w.toNat = some lc) (hmod : w.toNat % 2^30 = n)
    (hrange : get_range buf 4 (4 + n) = some first) : avc444_head buf = some (lc, n, first) := by
  subst hmod
  simp only [avc444_head, h0, hlc, hrange, Option.bind_eq_bind, Option.bind_some]

theorem avc444_head_word (lc : Avc444Lc) {n : ℕ} (first rest : List UInt8) (hf : first.length = n)
    (hn : n < 2^30) : avc444_head (lc.word n ++ first ++ rest) = some (lc, n, first) := by
  have hword : lc.code * 2^30 + n < 2^32 := by
    have : lc.code ≤ 2 := by cases lc <;> decide
    omega
  have hnat : (UInt32.ofNat (lc.code * 2^30 + n)).toNat = lc.code * 2^30 + n := by
    rw [UInt32.toNat_ofNat', Nat.mod_eq_of_lt hword]
  have hmod : (lc.code * 2^30 + n) % 2^30 = n := by omega
  have hw : (lc.word n).length = 4 := length_leBytes 4 _
  have h0 : (lc.word n ++ first ++ rest).drop 0 = leBytes 4 (lc.code * 2^30 + n) ++ (first ++ rest) := by
    rw [List.drop_zero, List.append_assoc, Avc444Lc.word]
  have hrange : get_range (lc.word n ++ first ++ rest) 4 (4 + n) = some first := by
    have hle : 4 + n ≤ (lc.word n ++ first ++ rest).length := by
      simp only [List.length_append, hw, hf]
      omega
    have htake : (lc.word n ++ first ++ rest).take (4 + n) = lc.word n ++ first :=
      List.take_left' (by rw [List.length_append, hw, hf])
    rw [get_range, if_pos ⟨by omega, hle⟩, htake, List.drop_left' hw]
  exact avc444_head_of (u32le_of_drop h0) (by rw [hnat, lc.lc_of_code hn]) (by rw [hnat, hmod]) hrange

theorem parse_empty : parse_avc420 [] = (0, none) := rfl

theorem parse_avc444_bytes (lc : Avc444Lc) {luma chroma : Avc420Stream} (hl : luma.Valid)
    (hc : chroma.Valid) (hlen : luma.bytes.length < 2^30) :
    (parse_avc444 (avc444_bytes lc luma chroma)).2 = some (avc444_stream lc luma chroma) ↔ lc ≠ .ChromaOnly := by
  have hluma : parse_avc420 luma.bytes = ((parse_avc420 luma.bytes).1, some luma) := Prod.ext rfl (parse_bytes hl)
  cases lc with
  | Both =>
    have hhead := avc444_head_word .Both luma.bytes chroma.bytes rfl hlen
    have hfront : (Avc444Lc.Both.word luma.bytes.length ++ luma.bytes).length =
        4 + luma.bytes.length := by rw [List.length_append, Avc444Lc.word, length_leBytes]
    have hbehind : get_from (Avc444Lc.Both.word luma.bytes.length ++ luma.bytes ++ chroma.bytes)
        (4 + luma.bytes.length) = some chroma.bytes := by
      rw [get_from, if_pos (by rw [List.length_append, hfront]; omega), List.drop_left' hfront]
    simp only [parse_avc444, avc444_bytes, hhead, hbehind]
    rw [hluma]
    simp [parse_bytes hc, avc444_stream]
  | LumaOnly =>
    have hhead := avc444_head_word .LumaOnly luma.bytes [] rfl hlen
    rw [List.append_nil] at hhead
    simp only [parse_avc444, avc444_bytes, hhead]
    rw [hluma]
    simp [avc444_stream]
  | ChromaOnly =>
    -- The first stream is the luma stream's empty place, which is no stream.
    have hhead := avc444_head_word .ChromaOnly [] chroma.bytes List.length_nil (by decide)
    rw [List.append_nil] at hhead
    simp only [parse_avc444, avc444_bytes, hhead, parse_empty]
    simp

def second_of (buf : List UInt8) : Option (List UInt8) := do
  let (lc, len1, first) ← avc444_head buf
  let _ ← (parse_avc420 first).2
  if lc = .Both then get_from buf (4 + len1) else none

def first_of (buf : List UInt8) : List UInt8 := ((avc444_head buf).map fun head => head.2.2).getD []

theorem avc444_head_le {buf first : List UInt8} {lc : Avc444Lc} {len1 : ℕ}
    (h : avc444_head buf = some (lc, len1, first)) :
    first.length = len1 ∧ 4 + len1 ≤ buf.length := by
  simp only [avc444_head, Option.bind_eq_bind, Option.bind_eq_some_iff, Option.some.injEq, Prod.mk.injEq] at h
  obtain ⟨word, -, lc', -, bytes, hrange, -, rfl, rfl⟩ := h
  simp only [get_range, Option.ite_none_right_eq_some, Option.some.injEq] at hrange
  obtain ⟨⟨-, hle⟩, rfl⟩ := hrange
  simp only [List.length_drop, List.length_take]
  omega

theorem reserved_avc444_le {k : ℕ} (hk : 2 ≤ k) (buf : List UInt8) : (parse_avc444 buf).1 ≤ k * buf.length ↔
      8 * count_of (first_of buf) ≤ k * buf.length ∧
      ∀ second ∈ second_of buf,
        10 * count_of (first_of buf) + 8 * count_of second ≤ k * buf.length := by
  cases hhead : avc444_head buf with
  | none => simp [parse_avc444, hhead, first_of, second_of, count_of, u32le]
  | some head =>
    obtain ⟨lc, len1, first⟩ := head
    obtain ⟨hfirst, hle⟩ := avc444_head_le hhead
    have hlen : 2 * buf.length ≤ k * buf.length := Nat.mul_le_mul_right _ hk
    have hof : first_of buf = first := by simp [first_of, hhead]
    have hone := reserved_avc420 first
    cases hparse : (parse_avc420 first).2 with
    | none =>
      have h1 : parse_avc420 first = ((parse_avc420 first).1, none) := Prod.ext rfl hparse
      have hres : (parse_avc444 buf).1 = (parse_avc420 first).1 := by
        simp only [parse_avc444, hhead]
        rw [h1]
      have hsecond : second_of buf = none := by simp [second_of, hhead, hparse]
      rw [hres, hsecond, hof]
      simp only [Option.mem_def, reduceCtorEq, false_implies, implies_true, and_true]
      omega
    | some stream1 =>
      have h1 : parse_avc420 first = ((parse_avc420 first).1, some stream1) := Prod.ext rfl hparse
      obtain ⟨hr1, hfit⟩ := whole_avc420 hparse
      by_cases hlc : lc = .Both
      · subst hlc
        have hget : get_from buf (4 + len1) = some (buf.drop (4 + len1)) := by
          rw [get_from, if_pos hle]
        have hres : (parse_avc444 buf).1 = (parse_avc420 first).1 + (parse_avc420 (buf.drop (4 + len1))).1 := by
          simp only [parse_avc444, hhead, hget]
          rw [h1]
          rfl
        have hsecond : second_of buf = some (buf.drop (4 + len1)) := by
          simp [second_of, hhead, hparse, hget]
        have htwo := reserved_avc420 (buf.drop (4 + len1))
        have hdrop : (buf.drop (4 + len1)).length = buf.length - (4 + len1) := List.length_drop
        rw [hres, hsecond, hof]
        simp only [Option.mem_def, Option.some.injEq, forall_eq']
        omega
      · have hres : (parse_avc444 buf).1 = (parse_avc420 first).1 := by
          simp only [parse_avc444, hhead]
          rw [h1]
          simp only [if_neg hlc]
        have hsecond : second_of buf = none := by simp [second_of, hhead, hparse, hlc]
        rw [hres, hsecond, hof]
        simp only [Option.mem_def, reduceCtorEq, false_implies, implies_true, and_true]
        omega

/-! ### The units -/

/-- The start codes of a suffix that begins at `i`. -/
def codes (i : ℕ) : List UInt8 → List (ℕ × ℕ)
  | [] => []
  | b :: bs =>
    if [0, 0, 1] <+: b :: bs then (i, i + 3) :: codes (i + 3) (bs.drop 2) else codes (i + 1) bs
termination_by l => l.length
decreasing_by all_goals simp +arith

theorem codes_short {i : ℕ} {l : List UInt8} (h : l.length < 3) : codes i l = [] := by
  induction l generalizing i with
  | nil => rw [codes]
  | cons b bs ih =>
    have hno : ¬ [0, 0, 1] <+: b :: bs := fun hp => by
      have := hp.length_le
      simp only [List.length_cons, List.length_nil] at this h
      omega
    rw [codes, if_neg hno]
    exact ih (by simp only [List.length_cons] at h; omega)

theorem codes_code (i : ℕ) (l : List UInt8) : codes i (0 :: 0 :: 1 :: l) = (i, i + 3) :: codes (i + 3) l := by
  rw [codes, if_pos ⟨l, rfl⟩]
  rfl

theorem start_codes_eq (h264 : List UInt8) (i : ℕ) : start_codes h264 i = some (codes i (h264.drop i)) := by
  induction i using start_codes.induct h264 with
  | case1 i hfit ih3 ih1 =>
    obtain ⟨b0, b1, b2, rest, hdrop⟩ : ∃ b0 b1 b2 rest, h264.drop i = b0 :: b1 :: b2 :: rest := by
      have hlen : (h264.drop i).length = h264.length - i := List.length_drop
      match hd : h264.drop i with
      | [] | [_] | [_, _] =>
        rw [hd] at hlen
        simp only [List.length_cons, List.length_nil] at hlen
        omega
      | b0 :: b1 :: b2 :: rest => exact ⟨b0, b1, b2, rest, rfl⟩
    have hget (k : ℕ) : h264[i + k]? = (b0 :: b1 :: b2 :: rest)[k]? := by
      rw [← List.getElem?_drop, hdrop]
    have hnext (k : ℕ) : h264.drop (i + k) = (b0 :: b1 :: b2 :: rest).drop k := by
      rw [← List.drop_drop, hdrop]
    have hpre : [0, 0, 1] <+: b0 :: b1 :: b2 :: rest ↔ b0 = 0 ∧ b1 = 0 ∧ b2 = 1 := by
      simp only [List.cons_prefix_cons, List.nil_prefix, and_true]
      tauto
    have h0 := hget 0
    have h1 := hget 1
    have h2 := hget 2
    rw [start_codes, if_pos hfit, hdrop, codes]
    simp only [Nat.add_zero, List.getElem?_cons_zero, List.getElem?_cons_succ] at h0 h1 h2
    simp only [h0, h1, h2, Option.bind_eq_bind, Option.bind_some, ih3, ih1, hnext, hpre]
    split <;> rfl
  | case2 i hfit => rw [start_codes, if_neg hfit, codes_short (by rw [List.length_drop]; omega)]

/-- Each start code takes three bytes of its own. -/
theorem codes_fit (i : ℕ) (l : List UInt8) :
    3 * (codes i l).length ≤ l.length ∧ ∀ c ∈ codes i l, c.1 ≤ i + l.length := by
  induction i, l using codes.induct with
  | case1 i => simp [codes]
  | case2 i b bs hp ih =>
    have hlen := hp.length_le
    simp only [List.length_cons, List.length_nil, List.length_drop] at hlen ih
    rw [codes, if_pos hp]
    simp only [List.length_cons, List.mem_cons, forall_eq_or_imp]
    refine ⟨by omega, by omega, fun c hc => ?_⟩
    have := ih.2 c hc
    omega
  | case3 i b bs hp ih =>
    rw [codes, if_neg hp]
    simp only [List.length_cons]
    exact ⟨by omega, fun c hc => by have := ih.2 c hc; omega⟩

theorem unit_end_total {h264 : List UInt8} (payload : ℕ) {starts : List (ℕ × ℕ)}
    (h : ∀ c ∈ starts, c.1 ≤ h264.length) :
    ∃ stop, unit_end h264 payload starts = some stop ∧ stop ≤ h264.length := by
  cases starts with
  | nil => exact ⟨_, rfl, le_rfl⟩
  | cons c starts =>
    obtain ⟨next_sc, p⟩ := c
    have hc : next_sc ≤ h264.length := h _ List.mem_cons_self
    by_cases hgt : next_sc > payload
    · have hlt : next_sc - 1 < h264.length := by omega
      have hget : h264[next_sc - 1]? = some h264[next_sc - 1] := List.getElem?_eq_getElem hlt
      simp only [unit_end, if_pos hgt, hget, Option.bind_eq_bind, Option.bind_some]
      exact ⟨_, rfl, by split <;> omega⟩
    · exact ⟨next_sc, by simp only [unit_end, if_neg hgt], hc⟩

theorem units_at_total {h264 : List UInt8} {starts : List (ℕ × ℕ)} (h : ∀ c ∈ starts, c.1 ≤ h264.length) :
    (units_at h264 starts).isSome := by
  induction starts with
  | nil => rfl
  | cons c starts ih =>
    obtain ⟨nals, hnals⟩ := Option.isSome_iff_exists.mp (ih fun c hc => h c (List.mem_cons_of_mem _ hc))
    obtain ⟨stop, hstop, hle⟩ := unit_end_total c.2 fun c' hc => h c' (List.mem_cons_of_mem _ hc)
    simp only [units_at, hstop, hnals, Option.bind_eq_bind, Option.bind_some]
    split
    · next hp => simp [get_range, hp, hle]
    · rfl

theorem codes_unit {u : List UInt8} (hplain : ¬ [0, 0, 1] <:+: u)
    (hlast : ∀ b ∈ u.getLast?, b ≠ 0) (i : ℕ) (tail : List UInt8) :
    codes i (u ++ tail) = codes (i + u.length) tail := by
  induction u generalizing i with
  | nil => rfl
  | cons a u ih =>
    have hno : ¬ [0, 0, 1] <+: a :: (u ++ tail) := by
      match u, hplain, hlast with
      | [], _, hlast => simpa [List.cons_prefix_cons, eq_comm] using fun h : a = 0 => absurd h (hlast a rfl)
      | [b], _, hlast =>
        have hb : b ≠ 0 := hlast b rfl
        simp [List.cons_prefix_cons, hb.symm]
      | b :: c :: u, hplain, _ =>
        intro hp
        simp only [List.cons_append, List.cons_prefix_cons] at hp
        obtain ⟨rfl, rfl, rfl, -⟩ := hp
        exact hplain ⟨[], u, rfl⟩
    have htail : ∀ b ∈ u.getLast?, b ≠ 0 := by
      intro b hb
      cases u with
      | nil => simp at hb
      | cons c u => exact hlast b (by rwa [List.getLast?_cons_cons])
    rw [List.cons_append, codes, if_neg hno,
      ih (fun h => hplain (h.trans (List.suffix_cons a u).isInfix)) htail, List.length_cons]
    congr 1
    omega

/-- How far into a start code its last three bytes begin. -/
def lead (four : Bool) : ℕ := if four then 1 else 0

theorem length_start_code (four : Bool) : (start_code four).length = lead four + 3 := by
  cases four <;> rfl

theorem codes_start_code (i : ℕ) (four : Bool) (l : List UInt8) : codes i (start_code four ++ l) =
      (i + lead four, i + lead four + 3) :: codes (i + lead four + 3) l := by
  cases four with
  | false => exact codes_code i l
  | true =>
    have hno : ¬ [0, 0, 1] <+: (0 :: ([0, 0, 1] ++ l) : List UInt8) := by
      simp [List.cons_prefix_cons]
    rw [start_code, if_pos rfl, List.cons_append, codes, if_neg hno]
    exact codes_code (i + 1) l

/-- Leading zeros only lengthen the first start code. -/
theorem codes_zeros (k i : ℕ) {units : List (Bool × List UInt8)} (hunits : units ≠ []) :
    codes i (List.replicate k 0 ++ annex_b units) = codes (i + k) (annex_b units) := by
  induction k generalizing i with
  | zero => rfl
  | succ k ih =>
    have hno : ¬ [0, 0, 1] <+: 0 :: (List.replicate k 0 ++ annex_b units) := by
      obtain ⟨⟨four, u⟩, units, rfl⟩ := List.exists_cons_of_ne_nil hunits
      match k, four with
      | 0, true | 0, false | 1, true | 1, false | k + 2, _ =>
        simp [List.replicate_succ, annex_b, start_code, List.cons_prefix_cons]
    rw [List.replicate_succ, List.cons_append, codes, if_neg hno, ih]
    congr 1
    omega

theorem unit_end_spec (before : List UInt8) {u : List UInt8} (hu : IsNal u) (units : List (Bool × List UInt8))
    {payload : ℕ} (hpay : before.length = payload) :
    unit_end (before ++ u ++ annex_b units) payload (codes (payload + u.length) (annex_b units)) =
      some (payload + u.length) := by
  obtain ⟨b, hb, hb0⟩ := hu.last
  obtain ⟨front, rfl⟩ := List.getLast?_eq_some_iff.mp hb
  have hmid (l r : List UInt8) (a : UInt8) : (l ++ a :: r)[l.length]? = some a := by simp
  have hbehind : (before ++ (front ++ [b])).length = payload + (front ++ [b]).length := by
    rw [List.length_append, hpay]
  have hlen : (front ++ [b]).length = front.length + 1 := by simp
  cases units with
  | nil => simp [annex_b, codes, unit_end, hpay]
  | cons unit units =>
    obtain ⟨four, v⟩ := unit
    have hsplit : annex_b ((four, v) :: units) = start_code four ++ (v ++ annex_b units) := by
      simp [annex_b, List.flatMap_cons]
    rw [hsplit, codes_start_code, unit_end, if_pos (by omega)]
    cases four with
    | false =>
      -- The byte before the start code is the unit's last.
      have hat := hmid (before ++ front) (start_code false ++ (v ++ annex_b units)) b
      have hidx : payload + (front ++ [b]).length + lead false - 1 = (before ++ front).length := by
        simp only [List.length_append, hpay, lead, List.length_cons, List.length_nil]
        rfl
      have hwhole : before ++ (front ++ [b]) ++ (start_code false ++ (v ++ annex_b units)) =
          before ++ front ++ b :: (start_code false ++ (v ++ annex_b units)) := by
        simp only [List.append_assoc, List.cons_append, List.nil_append]
      rw [hidx, hwhole, hat]
      simp only [Option.bind_eq_bind, Option.bind_some, if_neg hb0]
      rfl
    | true =>
      -- It is the start code's own zero.
      have hat := hmid (before ++ (front ++ [b])) ([0, 0, 1] ++ (v ++ annex_b units)) 0
      have hidx : payload + (front ++ [b]).length + lead true - 1 = (before ++ (front ++ [b])).length := by
        rw [hbehind, lead, if_pos rfl, Nat.add_sub_cancel]
      rw [hidx]
      have hcode : start_code true ++ (v ++ annex_b units) = 0 :: ([0, 0, 1] ++ (v ++ annex_b units)) := rfl
      rw [hcode, hat, hbehind]
      rfl

theorem units_at_spec (units : List (Bool × List UInt8)) (hunits : ∀ u ∈ units, IsNal u.2) :
    ∀ (before : List UInt8) (i : ℕ), before.length = i →
      units_at (before ++ annex_b units) (codes i (annex_b units)) = some (units.map Prod.snd) := by
  induction units with
  | nil =>
    intro before i _
    simp [annex_b, codes, units_at]
  | cons unit units ih =>
    intro before i hi
    obtain ⟨four, u⟩ := unit
    have hu : IsNal u := hunits _ List.mem_cons_self
    have hplain : ∀ b ∈ u.getLast?, b ≠ 0 := by
      obtain ⟨b, hb, hb0⟩ := hu.last
      intro b' hb'
      rw [hb] at hb'
      exact Option.some.inj hb' ▸ hb0
    have hsplit : annex_b ((four, u) :: units) = start_code four ++ (u ++ annex_b units) := by
      simp [annex_b, List.flatMap_cons]
    have hpay : (before ++ start_code four).length = i + lead four + 3 := by
      rw [List.length_append, length_start_code, hi]
      omega
    have hwhole : before ++ annex_b ((four, u) :: units) = before ++ start_code four ++ u ++ annex_b units := by
      simp only [hsplit, List.append_assoc]
    have hend := unit_end_spec (before ++ start_code four) hu units hpay
    have hrest := ih (fun u hu => hunits u (List.mem_cons_of_mem _ hu)) (before ++ start_code four ++ u)
      (i + lead four + 3 + u.length) (by rw [List.length_append, hpay])
    have hrange : get_range (before ++ start_code four ++ u ++ annex_b units) (i + lead four + 3)
        (i + lead four + 3 + u.length) = some u := by
      rw [get_range, if_pos ⟨by omega, by rw [List.length_append, List.length_append, hpay]; omega⟩,
        List.take_left' (by rw [List.length_append, hpay]), List.drop_left' hpay]
    rw [hwhole, hsplit, codes_start_code, codes_unit hu.plain hplain]
    simp only [units_at, hend, hrest, hrange, Option.bind_eq_bind, Option.bind_some, List.map_cons]
    rw [if_pos (by omega)]

theorem nal_units_join (zeros : ℕ) {units : List (Bool × List UInt8)} (hunits : ∀ u ∈ units, IsNal u.2) :
    (nal_units (List.replicate zeros 0 ++ annex_b units)).2 = some (units.map Prod.snd) := by
  have hcodes : start_codes (List.replicate zeros 0 ++ annex_b units) 0 = some (codes zeros (annex_b units)) := by
    rw [start_codes_eq, List.drop_zero]
    cases units with
    | nil =>
      have hnone : ∀ k i, codes i (List.replicate k 0 ++ []) = [] := by
        intro k
        induction k with
        | zero => intro i; rw [List.replicate_zero, List.nil_append, codes]
        | succ k ih =>
          intro i
          have hno : ¬ [0, 0, 1] <+: 0 :: (List.replicate k (0 : UInt8) ++ []) := by
            match k with
            | 0 | 1 | k + 2 => simp [List.replicate_succ, List.cons_prefix_cons]
          rw [List.replicate_succ, List.cons_append, codes, if_neg hno, ih]
      exact congrArg some ((hnone zeros 0).trans (by rw [annex_b, List.flatMap_nil, codes]))
    | cons u units => rw [codes_zeros zeros 0 (List.cons_ne_nil _ _), Nat.zero_add]
  rw [nal_units, hcodes]
  exact units_at_spec units hunits (List.replicate zeros 0) zeros List.length_replicate

theorem nal_units_total (h264 : List UInt8) : (nal_units h264).2.isSome ∧ (nal_units h264).1 ≤ 6 * h264.length := by
  obtain ⟨hfit, hle⟩ := codes_fit 0 (h264.drop 0)
  rw [List.drop_zero] at hfit hle
  rw [nal_units, start_codes_eq, List.drop_zero]
  exact ⟨units_at_total fun c hc => by simpa using hle c hc, by simp only; omega⟩

/-- The framing of H.264 streams, and where it falls short: a stream that is chroma alone is refused, and what
the metablocks reserve stays within `k` bytes for each byte of input exactly as far as their counts do. -/
theorem stream_framing (buf : List UInt8) : (∀ s : Avc420Stream, s.Valid → (parse_avc420 s.bytes).2 = some s) ∧
    (∀ lc (luma chroma : Avc420Stream), luma.Valid → chroma.Valid → luma.bytes.length < 2^30 →
      ((parse_avc444 (avc444_bytes lc luma chroma)).2 = some (avc444_stream lc luma chroma) ↔ lc ≠ .ChromaOnly)) ∧
    (∀ zeros (units : List (Bool × List UInt8)), (∀ u ∈ units, IsNal u.2) →
      (nal_units (List.replicate zeros 0 ++ annex_b units)).2 = some (units.map Prod.snd)) ∧
    (nal_units buf).2.isSome ∧ (nal_units buf).1 ≤ 6 * buf.length ∧
    ∀ k ≥ 2,
      ((parse_avc420 buf).1 ≤ k * buf.length ↔ 8 * count_of buf ≤ k * buf.length) ∧
      ((parse_avc444 buf).1 ≤ k * buf.length ↔ 8 * count_of (first_of buf) ≤ k * buf.length ∧
        ∀ second ∈ second_of buf, 10 * count_of (first_of buf) + 8 * count_of second ≤ k * buf.length) :=
  ⟨fun _ => parse_bytes, fun lc _ _ => parse_avc444_bytes lc, fun zeros _ => nal_units_join zeros,
    (nal_units_total buf).1, (nal_units_total buf).2, fun _ hk =>
      ⟨reserved_avc420_le hk buf, reserved_avc444_le hk buf⟩⟩

/-- One empty chroma stream is refused, and four bytes reserve 32 GiB: for each of them 2^32 would not do. -/
theorem chroma_refused : ¬ (∀ lc (luma chroma : Avc420Stream), luma.Valid → chroma.Valid → luma.bytes.length < 2^30 →
      (parse_avc444 (avc444_bytes lc luma chroma)).2 = some (avc444_stream lc luma chroma)) ∧
    (parse_avc420 [255, 255, 255, 255]).1 = 8 * (2^32 - 1) := by
  constructor
  · intro h
    have hempty : Avc420Stream.Valid ⟨[], [], []⟩ := ⟨rfl, by decide⟩
    have := h .ChromaOnly ⟨[], [], []⟩ ⟨[], [], []⟩ hempty hempty (by decide)
    exact absurd this (by decide)
  · decide

end Rdpio.Graphics.Avc
