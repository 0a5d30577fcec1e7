import Rdpio.Lib.Bytes
import Rdpio.Lib.Scratch

/-!
# ClearCodec

`crates/rdp-graphics/src/clearcodec.rs`: the decoder, with its glyph and column caches, and `needs_seed`, which
says whether a stream can show the pixels that were there before.
-/

namespace Rdpio.Graphics.ClearCodec

open Lib

abbrev Bytes := List UInt8

def glyphCache : ℕ := 4000

def vbarCache : ℕ := 32768

def shortVbarCache : ℕ := 16384

def flagGlyphIndex : UInt8 := 0x01

def flagGlyphHit : UInt8 := 0x02

def flagCacheReset : UInt8 := 0x04

def subcodecRaw : UInt8 := 0

def subcodecNscodec : UInt8 := 1

def subcodecRlex : UInt8 := 2

/-- A cached column or glyph: `count` pixels of RGBA. -/
structure Pixels where
  count : ℕ
  rgba : Bytes
deriving Inhabited

structure ClearDecoder where
  glyphs : Vector Pixels glyphCache
  vbar : Vector Pixels vbarCache
  short_vbar : Vector Pixels shortVbarCache
  vbar_cursor : ℕ
  short_vbar_cursor : ℕ

def ClearDecoder.new : ClearDecoder where
  glyphs := Vector.replicate _ ⟨0, []⟩
  vbar := Vector.replicate _ ⟨0, []⟩
  short_vbar := Vector.replicate _ ⟨0, []⟩
  vbar_cursor := 0
  short_vbar_cursor := 0

abbrev Reader := Bytes

namespace Reader

def u8 (r : Reader) : Option (UInt8 × Reader) :=
  match r with
  | [] => none
  | b :: r => some (b, r)

def number (n : ℕ) (r : Reader) : Option (ℕ × Reader) := if r.length < n then none else some (ofLe (r.take n), r.drop n)

def u16 (r : Reader) : Option (ℕ × Reader) := number 2 r

def u32 (r : Reader) : Option (ℕ × Reader) := number 4 r

def take (r : Reader) (n : ℕ) : Option (Bytes × Reader) := if r.length < n then none else some (List.take n r, r.drop n)

def runLength (r : Reader) (first : UInt8) : Option (ℕ × Reader) :=
  if first < 0xFF then some (first.toNat, r)
  else (u16 r).bind fun two => if two.1 < 0xFFFF then some two else u32 two.2

end Reader

open Reader

def blit (dst : Bytes) (o : ℕ) (bytes : Bytes) : Bytes := dst.take o ++ bytes ++ dst.drop (o + bytes.length)

def pixel (b g r : UInt8) : Bytes := [r, g, b, 0xFF]

def pixels : Bytes → Bytes
  | b :: g :: r :: rest => pixel b g r ++ pixels rest
  | _ => []

def solid (n : ℕ) (px : Bytes) : Bytes := (List.replicate n px).flatten

def readFlags (data : Bytes) : Option (UInt8 × Reader) := do
  let (flags, r) ← u8 data
  let (_, r) ← u8 r
  return (flags, r)

def readLengths (r : Reader) : Option (ℕ × ℕ × ℕ × Reader) := do
  let (residual, r) ← u32 r
  let (bands, r) ← u32 r
  let (sub, r) ← u32 r
  return (residual, bands, sub, r)

structure RegionHeader where
  x : ℕ
  y : ℕ
  rw : ℕ
  rh : ℕ
  byte_count : ℕ
  id : UInt8

def RegionHeader.read (r : Reader) : Option (RegionHeader × Reader) := do
  let (x, r) ← u16 r
  let (y, r) ← u16 r
  let (rw, r) ← u16 r
  let (rh, r) ← u16 r
  let (byte_count, r) ← u32 r
  let (id, r) ← u8 r
  return (⟨x, y, rw, rh, byte_count, id⟩, r)

def needsSeed (data : Bytes) (width height : ℕ) : Bool :=
  match readFlags data with
  | none => true
  | some (flags, r) =>
    if flags &&& flagGlyphIndex ≠ 0 ∧ r.length < 2 then true
    else if flags &&& flagGlyphIndex ≠ 0 ∧ flags &&& flagGlyphHit ≠ 0 then false
    else
      match readLengths (if flags &&& flagGlyphIndex ≠ 0 then r.drop 2 else r) with
      | none => true
      | some (residual, bands, sub, r) =>
        if residual = 0 ∧ bands = 0 ∧ 0 < sub then
          match RegionHeader.read r with
          | none => true
          | some (h, _) =>
            -- A release build wraps here.
            let single_region := sub = (13 + h.byte_count) % 2^32
            let whole_tile := h.x = 0 ∧ h.y = 0 ∧ h.rw = width ∧ h.rh = height
            let full_fill := h.id = subcodecRaw ∨ h.id = subcodecNscodec
            !decide (single_region ∧ whole_tile ∧ full_fill)
        else true

def rowSpan (w h x0 y0 x y n : ℕ) : Option (ℕ × ℕ) :=
  if h ≤ y0 + y ∨ w ≤ x0 + x ∨ n = 0 then none
  else some (((y0 + y) * w + (x0 + x)) * 4, min n (w - (x0 + x)))

def residualLoop (w h : ℕ) : ℕ → Reader → ℕ → Bytes → Bytes
  | 0, _, _, dst => dst
  | turns + 1, r, idx, dst =>
    match r with
    | b :: g :: rr :: first :: rest =>
      if w * h ≤ idx then dst
      else
        match runLength rest first with
        | none => dst
        | some (run, r) =>
          let run := min run (w * h - idx)
          residualLoop w h turns r (idx + run) (blit dst (idx * 4) (solid run (pixel b g rr)))
    | _ => dst

def residual (data : Bytes) (w h : ℕ) (dst : Bytes) : Bytes := residualLoop w h data.length data 0 dst

def emitColumn (dst : Bytes) (w h dx y_start vbar_height : ℕ) (column : Bytes) : Bytes :=
  if w ≤ dx then dst
  else
    (List.range (min (min vbar_height (column.length / 4)) (h - y_start))).foldl
      (fun dst y => blit dst (((y_start + y) * w + dx) * 4) ((column.drop (y * 4)).take 4)) dst

structure Banding where
  dec : ClearDecoder
  dst : Bytes
  r : Option Reader

def shortVbar (dec : ClearDecoder) (header : ℕ) (r : Reader) : ClearDecoder × Option (ℕ × ℕ × Reader) :=
  if header / 0x4000 % 4 = 1 then (dec, (u8 r).map fun x => (header % 0x4000, x.1.toNat, x.2))
  else
    let y_on := header % 0x100
    let y_off := header / 0x100 % 0x40
    if y_off < y_on then (dec, none)
    else
      match take r ((y_off - y_on) * 3) with
      | none => (dec, none)
      | some (bgr, r) =>
        let cur := dec.short_vbar_cursor
        ({ dec with
            short_vbar_cursor := (cur + 1) % shortVbarCache
            short_vbar := write dec.short_vbar cur ⟨y_off - y_on, pixels bgr⟩ }, some (cur, y_on, r))

/-- One column of a band. -/
def vbarStep (w h y_start vbar_height : ℕ) (bg : Bytes) (dx : ℕ) (s : Banding) (r : Reader) : Banding :=
  match u16 r with
  | none => { s with r := none }
  | some (header, r) =>
    if header / 0x8000 % 2 = 1 then
      let entry := read s.dec.vbar (header % 0x8000)
      let column := if entry.count = 0 then solid vbar_height bg else entry.rgba
      { s with dst := emitColumn s.dst w h dx y_start vbar_height column, r := some r }
    else
      match shortVbar s.dec header r with
      | (dec, none) => { s with dec, r := none }
      | (dec, some (short_idx, y_on, r)) =>
        -- The background, then the short column's pixels.
        let cur := dec.vbar_cursor
        let short := read dec.short_vbar short_idx
        let column := solid vbar_height bg
        let column := if y_on < vbar_height
          then blit column (y_on * 4) (short.rgba.take (min short.count (vbar_height - y_on) * 4)) else column
        { dec := { dec with
            vbar_cursor := (cur + 1) % vbarCache
            vbar := write dec.vbar cur ⟨vbar_height, column⟩ }
          dst := emitColumn s.dst w h dx y_start vbar_height column
          r := some r }

/-- The columns of a band, from column `dx` on. -/
def vbarLoop (w h y_start vbar_height : ℕ) (bg : Bytes) : ℕ → ℕ → Banding → Banding
  | 0, _, s => s
  | n + 1, dx, s =>
    match s.r with
    | none => s
    | some r => vbarLoop w h y_start vbar_height bg n (dx + 1) (vbarStep w h y_start vbar_height bg dx s r)

def bandsLoop (w h : ℕ) : ℕ → Banding → Banding
  | 0, s => s
  | turns + 1, s =>
    match s.r with
    | none => s
    | some r =>
      if r.length < 11 then s
      else
        let number (i : ℕ) := ofLe ((r.drop i).take 2)
        let x_start := number 0
        let x_end := number 2
        let y_start := number 4
        let y_end := number 6
        let bg := pixel (r.getD 8 0) (r.getD 9 0) (r.getD 10 0)
        if x_end < x_start ∨ y_end < y_start then { s with r := none }
        else
          bandsLoop w h turns (vbarLoop w h y_start (y_end - y_start + 1) bg (x_end - x_start + 1) x_start
            { s with r := some (r.drop 11) })

def ClearDecoder.bands (dec : ClearDecoder) (data : Bytes) (w h : ℕ) (dst : Bytes) : ClearDecoder × Bytes :=
  let s := bandsLoop w h data.length ⟨dec, dst, some data⟩
  (s.dec, s.dst)

/-! ## The subcodec layer -/

/-- Row `y` of a RAW region of which `n` pixels came. -/
def rawRow (data : Bytes) (x0 y0 rw w h n : ℕ) (dst : Bytes) (y : ℕ) : Bytes :=
  if n ≤ y * rw then dst
  else
    match rowSpan w h x0 y0 0 y (min (n - y * rw) rw) with
    | none => dst
    | some (o, vis) => blit dst o (pixels ((data.drop (y * rw * 3)).take (vis * 3)))

def rawRegion (data : Bytes) (x0 y0 rw rh w h : ℕ) (dst : Bytes) : Bytes :=
  (List.range rh).foldl (rawRow data x0 y0 rw w h (min (data.length / 3) (rw * rh))) dst

/-- A cursor that goes through a region row after row. -/
structure Span where
  x : ℕ
  y : ℕ

/-- `n` pixels of one colour, in so many pieces at most. -/
def Span.fill (w h x0 y0 rw : ℕ) (px : Bytes) : ℕ → ℕ → Span → Bytes → Span × Bytes
  | 0, _, cur, dst => (cur, dst)
  | turns + 1, n, cur, dst =>
    if n = 0 then (cur, dst)
    else
      let seg := min n (rw - cur.x)
      let dst := match rowSpan w h x0 y0 cur.x cur.y seg with
        | none => dst
        | some (o, vis) => blit dst o (solid vis px)
      let cur := if cur.x + seg = rw then ⟨0, cur.y + 1⟩ else ⟨cur.x + seg, cur.y⟩
      Span.fill w h x0 y0 rw px turns (n - seg) cur dst

def readPalette : ℕ → Reader → Option (List Bytes × Reader)
  | 0, r => some ([], r)
  | n + 1, b :: g :: rr :: r => (readPalette n r).map fun x => (pixel b g rr :: x.1, x.2)
  | _ + 1, _ => none

def rlexLoop (w h x0 y0 rw rh num_bits : ℕ) (palette : List Bytes) : ℕ → Reader → ℕ → Span → Bytes → Bytes
  | 0, _, _, _, dst => dst
  | turns + 1, r, idx, cur, dst =>
    match r with
    | tmp :: first :: r =>
      if rw * rh ≤ idx then dst
      else
        let suite_depth := tmp.toNat / 2^num_bits % 2^(8 - num_bits)
        let stop_index := tmp.toNat % 2^num_bits
        if stop_index < suite_depth then dst
        else
          match runLength r first with
          | none => dst
          | some (run, r) =>
            let start_index := stop_index - suite_depth
            if palette.length ≤ start_index ∨ palette.length ≤ stop_index then dst
            else
              let n := min run (rw * rh - idx)
              let s := Span.fill w h x0 y0 rw (palette.getD start_index []) n n cur dst
              let suite := (palette.drop start_index).take (min (suite_depth + 1) (rw * rh - (idx + n)))
              let s := suite.foldl (fun s px => Span.fill w h x0 y0 rw px 1 1 s.1 s.2) s
              rlexLoop w h x0 y0 rw rh num_bits palette turns r (idx + n + suite.length) s.1 s.2
    | _ => dst

def rlexRegion (data : Bytes) (x0 y0 rw rh w h : ℕ) (dst : Bytes) : Bytes :=
  match u8 data with
  | none => dst
  | some (palette_count, r) =>
    if palette_count = 0 ∨ 127 < palette_count then dst
    else
      match readPalette palette_count.toNat r with
      | none => dst
      | some (palette, r) =>
        let num_bits := if palette_count ≤ 1 then 1 else (palette_count.toNat - 1).log2 + 1
        rlexLoop w h x0 y0 rw rh num_bits palette r.length r 0 ⟨0, 0⟩ dst

def fillRange (out : Bytes) (a b : ℕ) (value : UInt8) : Bytes :=
  out.take a ++ List.replicate (b - a) value ++ out.drop (max a b)

def nscRleLoop (input : Bytes) (orig_size : ℕ) : ℕ → ℕ → ℕ → Bytes → ℕ × ℕ × Bytes
  | 0, i, pos, out => (i, pos, out)
  | turns + 1, i, pos, out =>
    if orig_size ≤ pos + 4 then (i, pos, out)
    else
      let value := input.getD i 0
      if i + 7 ≤ input.length ∧ pos + 5 < orig_size then
        -- The whole token is there.
        if input.getD (i + 1) 0 ≠ value then nscRleLoop input orig_size turns (i + 1) (pos + 1) (out.set pos value)
        else
          let n := input.getD (i + 2) 0
          let len := if n < 0xFF then n.toNat + 2 else ofLe ((input.drop (i + 3)).take 4)
          let i := if n < 0xFF then i + 3 else i + 7
          if len ≤ 8 ∧ pos + 8 ≤ orig_size then
            nscRleLoop input orig_size turns i (pos + len) (fillRange out pos (pos + 8) value)
          else
            let stop := min (pos + len) orig_size
            nscRleLoop input orig_size turns i stop (fillRange out pos stop value)
      else if input.length ≤ i then (i, pos, out)
      else if pos + 5 = orig_size then nscRleLoop input orig_size turns (i + 1) (pos + 1) (out.set pos value)
      else if input[i + 1]? = some value then
        match input[i + 2]? with
        | none => (i + 2, pos, out)
        | some n =>
          if n < 0xFF then
            let stop := min (pos + (n.toNat + 2)) orig_size
            nscRleLoop input orig_size turns (i + 3) stop (fillRange out pos stop value)
          else if input.length < i + 7 then (i + 3, pos, out)
          else
            let stop := min (pos + ofLe ((input.drop (i + 3)).take 4)) orig_size
            nscRleLoop input orig_size turns (i + 7) stop (fillRange out pos stop value)
      else nscRleLoop input orig_size turns (i + 1) (pos + 1) (out.set pos value)

def nscRle (input : Bytes) (orig_size : ℕ) : Bytes :=
  if orig_size ≤ 4 then (List.range orig_size).map fun k => input.getD k 0
  else
    let (i, pos, out) := nscRleLoop input orig_size input.length 0 0 (List.replicate orig_size 0)
    -- An early stop leaves the rest zero.
    let out := if pos + 4 < orig_size then fillRange out pos (min (pos + 8) (orig_size - 4)) 0 else out
    (List.range 4).foldl (fun out k => out.set (orig_size - 4 + k) (input.getD (i + k) 0)) out

def nscPlane (rle : Bytes) (orig_size : ℕ) : Bytes :=
  if orig_size = 0 then []
  else if rle = [] then List.replicate orig_size 0xFF
  else if orig_size ≤ rle.length then rle.take orig_size
  else nscRle rle orig_size

def chroma (shift : ℕ) (v : UInt8) : ℤ :=
  let low := v.toNat * 2^shift % 256
  if low < 128 then low else low - 256

def clampU8 (v : ℤ) : UInt8 := UInt8.ofNat (max 0 (min v 255)).toNat

def nscPixel (shift : ℕ) (y co cg : UInt8) : Bytes :=
  let yv : ℤ := y.toNat
  let cov := chroma shift co
  let cgv := chroma shift cg
  [clampU8 (yv + cov - cgv), clampU8 (yv + cgv), clampU8 (yv - cov - cgv), 0xFF]

/-- Three planes of an NSCodec region and how they lie. -/
structure Planes where
  luma : Bytes
  co : Bytes
  cg : Bytes
  luma_stride : ℕ
  chroma_stride : ℕ
  subsample : Bool
  shift : ℕ

def nscPlanes (data : Bytes) (rw rh : ℕ) : Option Planes :=
  if rw = 0 ∨ rh = 0 ∨ data.length < 20 then none
  else
    let u32at (o : ℕ) := ofLe ((data.drop o).take 4)
    let color_loss := data.getD 16 0
    let subsample := data.getD 17 0 != 0
    if color_loss < 1 ∨ 7 < color_loss then none
    else
      let temp_w := (rw + 7) / 8 * 8
      let temp_h := (rh + 1) / 2 * 2
      let luma_orig := if subsample then temp_w * rh else rw * rh
      let chroma_orig := if subsample then temp_w / 2 * (temp_h / 2) else rw * rh
      let plane (off n orig : ℕ) := nscPlane ((data.drop off).take n) orig
      some
        { luma := plane 20 (u32at 0) luma_orig
          co := plane (20 + u32at 0) (u32at 4) chroma_orig
          cg := plane (20 + u32at 0 + u32at 4) (u32at 8) chroma_orig
          luma_stride := if subsample then temp_w else rw
          chroma_stride := if subsample then temp_w / 2 else rw
          subsample
          shift := color_loss.toNat - 1 }

/-- Row `y` of a region, `cols` pixels of it. -/
def Planes.row (p : Planes) (cols y : ℕ) : Bytes :=
  (List.range cols).flatMap fun x =>
    let at_ := if p.subsample then y / 2 * p.chroma_stride + x / 2 else y * p.chroma_stride + x
    nscPixel p.shift (p.luma.getD (y * p.luma_stride + x) 0) (p.co.getD at_ 0) (p.cg.getD at_ 0)

/-- Three planes, converted row after row. -/
def nscodecRegion (data : Bytes) (x0 y0 rw rh w h : ℕ) (dst : Bytes) : Bytes :=
  match nscPlanes data rw rh with
  | none => dst
  | some planes =>
    let rows := min rh (h - y0)
    let cols := min rw (w - x0)
    if cols = 0 then dst
    else (List.range rows).foldl (fun dst y => blit dst (((y0 + y) * w + x0) * 4) (planes.row cols y)) dst

def region (hd : RegionHeader) (sub : Bytes) (w h : ℕ) (dst : Bytes) : Bytes :=
  if hd.id = subcodecRaw then rawRegion sub hd.x hd.y hd.rw hd.rh w h dst
  else if hd.id = subcodecNscodec then nscodecRegion sub hd.x hd.y hd.rw hd.rh w h dst
  else if hd.id = subcodecRlex then rlexRegion sub hd.x hd.y hd.rw hd.rh w h dst
  else dst

def subcodecsLoop (w h : ℕ) : ℕ → Reader → Bytes → Bytes
  | 0, _, dst => dst
  | turns + 1, r, dst =>
    match (RegionHeader.read r).bind fun x => (take x.2 x.1.byte_count).map fun y => (x.1, y) with
    | none => dst
    | some (hd, sub, rest) => subcodecsLoop w h turns rest (region hd sub w h dst)

def subcodecs (data : Bytes) (w h : ℕ) (dst : Bytes) : Bytes := subcodecsLoop w h data.length data dst

def layer {σ : Type} (r : Reader) (n : ℕ) (s : σ) (fill : Bytes → σ → σ) : σ × Reader :=
  if n = 0 then (s, r)
  else
    match take r n with
    | none => (s, r)
    | some (data, r) => (fill data s, r)

def background (seed : Option Bytes) (size : ℕ) : Bytes :=
  match seed with
  | some s => if s.length = size then s else List.replicate size 0
  | none => List.replicate size 0

def ClearDecoder.compose (dec : ClearDecoder) (r : Reader) (glyph_index : Option ℕ) (w h : ℕ) (dst : Bytes) :
    ClearDecoder × Option Bytes :=
  match readLengths r with
  | none => (dec, none)
  | some (residual_bytes, bands_bytes, subcodec_bytes, r) =>
    let (dst, r) := layer r residual_bytes dst fun s dst => residual s w h dst
    let ((dec, dst), r) := layer r bands_bytes (dec, dst) fun s x => x.1.bands s w h x.2
    let (dst, _) := layer r subcodec_bytes dst fun s dst => subcodecs s w h dst
    let dec := match glyph_index with
      | some gi => { dec with glyphs := write dec.glyphs gi ⟨w * h, dst⟩ }
      | none => dec
    (dec, some dst)

def ClearDecoder.decodeSeeded (dec : ClearDecoder) (data : Bytes) (w h : ℕ) (seed : Option Bytes) :
    ClearDecoder × Option Bytes :=
  if w = 0 ∨ h = 0 then (dec, none)
  else
    match readFlags data with
    | none => (dec, none)
    | some (flags, r) =>
      if flags &&& flagGlyphIndex ≠ 0 ∧ r.length < 2 then (dec, none)
      else
        let dec := if flags &&& flagCacheReset ≠ 0 then { dec with vbar_cursor := 0, short_vbar_cursor := 0 } else dec
        if flags &&& flagGlyphIndex ≠ 0 then
          let gi := ofLe (List.take 2 r)
          if glyphCache ≤ gi then (dec, none)
          else if flags &&& flagGlyphHit ≠ 0 then
            let g := read dec.glyphs gi
            (dec, if g.count < w * h then none else some (g.rgba.take (w * h * 4)))
          else if 1024 * 1024 < w * h then (dec, none)
          else dec.compose (r.drop 2) (some gi) w h (background seed (w * h * 4))
        else dec.compose r none w h (background seed (w * h * 4))

end Rdpio.Graphics.ClearCodec
