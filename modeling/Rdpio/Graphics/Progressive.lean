import Rdpio.Graphics.Tile
import Rdpio.Lib.Chunks

/-!
# The progressive decoder

`ProgressiveDecoder` of `crates/rdp-graphics/src/progressive.rs`.
-/

namespace Rdpio.Graphics

open Lib

def tileSize : ℕ := 64

def wbtSync : UInt16 := 0xCCC0

def wbtFrameBegin : UInt16 := 0xCCC1

def wbtFrameEnd : UInt16 := 0xCCC2

def wbtContext : UInt16 := 0xCCC3

def wbtRegion : UInt16 := 0xCCC4

def wbtTileSimple : UInt16 := 0xCCC5

def wbtTileFirst : UInt16 := 0xCCC6

def wbtTileUpgrade : UInt16 := 0xCCC7

def rfxDwtReduceExtrapolate : UInt8 := 0x01

def rfxTileDifference : UInt8 := 0x01

def startsWithBlock (d : List UInt8) : Bool :=
  match u16le d 0 with
  | some t => wbtSync ≤ t && t ≤ wbtTileUpgrade
  | none => false

def stripLengthPrefix (data : List UInt8) : List UInt8 :=
  if startsWithBlock data then data
  else if 4 ≤ data.length && startsWithBlock (data.drop 4) then data.drop 4
  else data

/-- One pixel, in 16.16 fixed point. -/
def ycbcrPixel (y cb cr : Int16) : List UInt8 :=
  let clip (v : ℤ) : UInt8 := UInt8.ofNat (max 0 (min v 255)).toNat
  let yf := (y.toInt + 4096).shiftLeft 16
  let r := ((cr.toInt * 91916 + yf).shiftRight 16).shiftRight 5
  let g := ((yf - cb.toInt * 22527 - cr.toInt * 46819).shiftRight 16).shiftRight 5
  let b := ((cb.toInt * 115992 + yf).shiftRight 16).shiftRight 5
  [clip r, clip g, clip b, 0xFF]

def ycbcrToRgba (planes : Components Plane) : List UInt8 :=
  (List.range (tileSize * tileSize)).flatMap fun i => ycbcrPixel (read planes.y i) (read planes.cb i) (read planes.cr i)

structure ProgressiveTile where
  x : ℕ
  y : ℕ
  w : ℕ
  h : ℕ
  rgba : List UInt8
deriving DecidableEq

structure RegionRect where
  x : UInt16
  y : UInt16
  w : UInt16
  h : UInt16

def RegionRect.covers (r : RegionRect) (x y : ℕ) : Bool :=
  r.x.toNat ≤ x && r.y.toNat ≤ y && x + tileSize ≤ r.x.toNat + r.w.toNat && y + tileSize ≤ r.y.toNat + r.h.toNat

def RegionRect.crop (r : RegionRect) (x y : ℕ) (rgba : List UInt8) : Option ProgressiveTile :=
  let ix := max x r.x.toNat
  let iy := max y r.y.toNat
  let ir := min (x + tileSize) (r.x.toNat + r.w.toNat)
  let ib := min (y + tileSize) (r.y.toNat + r.h.toNat)
  if ir ≤ ix ∨ ib ≤ iy then none
  else
    let cw := ir - ix
    let ch := ib - iy
    let row (j : ℕ) := (rgba.drop (((iy - y + j) * tileSize + (ix - x)) * 4)).take (cw * 4)
    some { x := ix, y := iy, w := cw, h := ch, rgba := (List.range ch).flatMap row }

def emitClipped (x y : ℕ) (rgba : List UInt8) (rects : List RegionRect) : List ProgressiveTile :=
  if rects.isEmpty || rects.any (·.covers x y) then [{ x, y, w := tileSize, h := tileSize, rgba }]
  else rects.filterMap (·.crop x y rgba)

/-! ### Tile blocks -/

abbrev Pos := UInt16 × UInt16

abbrev TileState := Components CompState

def TileState.default : TileState := Components.all CompState.default

def TileState.withBitPos (s : TileState) (bitpos : Components Quant) : TileState where
  y := { s.y with bit_pos := bitpos.y }
  cb := { s.cb with bit_pos := bitpos.cb }
  cr := { s.cr with bit_pos := bitpos.cr }

inductive ParsedTile where
  | first (x_idx y_idx : UInt16) (bitpos shift : Components Quant) (coeff_diff : Bool)
      (data : Components (List UInt8))
  | upgrade (x_idx y_idx : UInt16) (new_bitpos shift : Components Quant)
      (srl raw : Components (List UInt8))

def ParsedTile.key : ParsedTile → Pos
  | .first x_idx y_idx .. => (x_idx, y_idx)
  | .upgrade x_idx y_idx .. => (x_idx, y_idx)

def ParsedTile.bitpos : ParsedTile → Components Quant
  | .first _ _ bitpos .. => bitpos
  | .upgrade _ _ new_bitpos .. => new_bitpos

def okOr {α : Type} (o : Option α) (reason : String) : Except String α :=
  match o with
  | some a => .ok a
  | none => .error reason

theorem bind_eq_ok {α β : Type} {x : Except String α} {f : α → Except String β} {b : β}
    (h : x >>= f = .ok b) : ∃ a, x = .ok a ∧ f a = .ok b := by
  cases x with
  | error reason => cases h
  | ok a => exact ⟨a, rfl, h⟩

theorem okOr_eq_ok {α : Type} {o : Option α} {reason : String} {a : α} (h : okOr o reason = .ok a) : o = some a := by
  cases o with
  | none => cases h
  | some b =>
    cases h
    rfl

def slice (b : List UInt8) (lo len : ℕ) : Option (List UInt8) :=
  if lo + len ≤ b.length then some ((b.drop lo).take len) else none

structure TileIndex where
  q_idx_y : UInt8
  q_idx_cb : UInt8
  q_idx_cr : UInt8
  x_idx : UInt16
  y_idx : UInt16

def tileIndex (body : List UInt8) (hdr : String) : Except String TileIndex := do
  let q_idx_y ← okOr body[0]? hdr
  let q_idx_cb ← okOr body[1]? hdr
  let q_idx_cr ← okOr body[2]? hdr
  let x_idx ← okOr (u16le body 3) hdr
  let y_idx ← okOr (u16le body 5) hdr
  return { q_idx_y, q_idx_cb, q_idx_cr, x_idx, y_idx }

def progQuant (prog_quants : List ProgQuant) (quality : UInt8) (reason : String) : Except String ProgQuant :=
  if quality = 0xFF then .ok (Components.all (.const 0)) else okOr prog_quants[quality.toNat]? reason

def resolveQuant (quants : List Quant) (idx : TileIndex) (prog : Except String ProgQuant)
    (oor under : String) : Except String (Components Quant × Components Quant) := do
  let quant_y ← okOr quants[idx.q_idx_y.toNat]? oor
  let quant_cb ← okOr quants[idx.q_idx_cb.toNat]? oor
  let quant_cr ← okOr quants[idx.q_idx_cr.toNat]? oor
  let prog ← prog
  let bitpos : Components Quant := ⟨quant_y.add prog.y, quant_cb.add prog.cb, quant_cr.add prog.cr⟩
  let shift_y ← okOr (bitpos.y.lsub 1) under
  let shift_cb ← okOr (bitpos.cb.lsub 1) under
  let shift_cr ← okOr (bitpos.cr.lsub 1) under
  return (bitpos, ⟨shift_y, shift_cb, shift_cr⟩)

def firstQuality (block_type : UInt16) (body : List UInt8) (hdr : String) : Except String (UInt8 × ℕ) :=
  if block_type = wbtTileFirst then
    match body[8]? with
    | some quality => .ok (quality, 9)
    | none => .error hdr
  else .ok (0xFF, 8)

def firstData (body : List UInt8) (p : ℕ) (hdr : String) : Except String (Components (List UInt8)) := do
  let y_len ← okOr (u16le body p) hdr
  let cb_len ← okOr (u16le body (p + 2)) hdr
  let cr_len ← okOr (u16le body (p + 4)) hdr
  let _tail_len ← okOr (u16le body (p + 6)) hdr
  let p := p + 8
  let short := "first/simple: short component data"
  let y_data ← okOr (slice body p y_len.toNat) short
  let cb_data ← okOr (slice body (p + y_len.toNat) cb_len.toNat) short
  let cr_data ← okOr (slice body (p + y_len.toNat + cb_len.toNat) cr_len.toNat) short
  return ⟨y_data, cb_data, cr_data⟩

def parseTileFirst (block_type : UInt16) (body : List UInt8) (quants : List Quant)
    (prog_quants : List ProgQuant) : Except String ParsedTile := do
  let hdr := "first/simple: short header"
  let idx ← tileIndex body hdr
  let flags ← okOr body[7]? hdr
  let (quality, p) ← firstQuality block_type body hdr
  let data ← firstData body p hdr
  let (bitpos, shift) ← resolveQuant quants idx
    (progQuant prog_quants quality "first: prog quality out of range")
    "first/simple: quant index out of range" "first/simple: bitpos underflow"
  return .first idx.x_idx idx.y_idx bitpos shift (flags &&& rfxTileDifference != 0) data

def upgradeData (body : List UInt8) (hdr : String) :
    Except String (Components (List UInt8) × Components (List UInt8)) := do
  let y_srl ← okOr (u16le body 8) hdr
  let y_raw ← okOr (u16le body 10) hdr
  let cb_srl ← okOr (u16le body 12) hdr
  let cb_raw ← okOr (u16le body 14) hdr
  let cr_srl ← okOr (u16le body 16) hdr
  let cr_raw ← okOr (u16le body 18) hdr
  let short := "upgrade: short srl/raw data"
  let p := 20
  let y_srl_d ← okOr (slice body p y_srl.toNat) short
  let p := p + y_srl.toNat
  let y_raw_d ← okOr (slice body p y_raw.toNat) short
  let p := p + y_raw.toNat
  let cb_srl_d ← okOr (slice body p cb_srl.toNat) short
  let p := p + cb_srl.toNat
  let cb_raw_d ← okOr (slice body p cb_raw.toNat) short
  let p := p + cb_raw.toNat
  let cr_srl_d ← okOr (slice body p cr_srl.toNat) short
  let p := p + cr_srl.toNat
  let cr_raw_d ← okOr (slice body p cr_raw.toNat) short
  return (⟨y_srl_d, cb_srl_d, cr_srl_d⟩, ⟨y_raw_d, cb_raw_d, cr_raw_d⟩)

def parseTileUpgrade (body : List UInt8) (quants : List Quant) (prog_quants : List ProgQuant) :
    Except String ParsedTile := do
  let hdr := "upgrade: short header"
  let idx ← tileIndex body hdr
  let quality ← okOr body[7]? hdr
  let (srl, raw) ← upgradeData body hdr
  let (new_bitpos, shift) ← resolveQuant quants idx
    (progQuant prog_quants quality "upgrade: prog quality out of range")
    "upgrade: quant index out of range" "upgrade: bitpos underflow"
  return .upgrade idx.x_idx idx.y_idx new_bitpos shift srl raw

/-- Planes and scratch plane of one thread. -/
structure WorkerScratch where
  planes : Components Plane
  temp : Plane

def WorkerScratch.new : WorkerScratch := { planes := .all (Vector.replicate 4096 0), temp := Vector.replicate 4096 0 }

structure Slot where
  parsed : ParsedTile
  num_bits : Components Quant
  state : TileState
  rgba : Option (List UInt8)

def decodeSlot (slot : Slot) (extrapolate : Bool) (s : WorkerScratch) : Slot × WorkerScratch :=
  let comps := slot.state
  let (planes, temp, comps) :=
    match slot.parsed with
    | .first _ _ _ shift coeff_diff data =>
      let (y, temp, comp_y) := decodeComponent shift.y data.y s.planes.y s.temp comps.y coeff_diff extrapolate
      let (cb, temp, comp_cb) := decodeComponent shift.cb data.cb s.planes.cb temp comps.cb coeff_diff extrapolate
      let (cr, temp, comp_cr) := decodeComponent shift.cr data.cr s.planes.cr temp comps.cr coeff_diff extrapolate
      ((⟨y, cb, cr⟩ : Components Plane), temp, (⟨comp_y, comp_cb, comp_cr⟩ : TileState))
    | .upgrade _ _ _ shift srl raw =>
      let (y, temp, comp_y) := upgradeComponent shift.y slot.num_bits.y s.temp comps.y srl.y raw.y extrapolate
      let (cb, temp, comp_cb) := upgradeComponent shift.cb slot.num_bits.cb temp comps.cb srl.cb raw.cb extrapolate
      let (cr, temp, comp_cr) := upgradeComponent shift.cr slot.num_bits.cr temp comps.cr srl.cr raw.cr extrapolate
      (⟨y, cb, cr⟩, temp, ⟨comp_y, comp_cb, comp_cr⟩)
  ({ slot with state := comps, rgba := some (ycbcrToRgba planes) }, { planes, temp })

def decodeSlots (extrapolate : Bool) : List Slot → WorkerScratch → List Slot × WorkerScratch
  | [], s => ([], s)
  | slot :: slots, s =>
    let (slot, s) := decodeSlot slot extrapolate s
    let (slots, s) := decodeSlots extrapolate slots s
    (slot :: slots, s)

def decodeChunks (extrapolate : Bool) : List (List Slot) → List WorkerScratch → List (List Slot) × List WorkerScratch
  | chunk :: chunks, s :: ss =>
    let (chunk, s) := decodeSlots extrapolate chunk s
    let (chunks, ss) := decodeChunks extrapolate chunks ss
    (chunk :: chunks, s :: ss)
  | chunks, ss => (chunks, ss)

/-! ### The decoder -/

structure Workers where
  threads : ℕ
  pool : Bool

structure FrameStats where
  simple : ℕ
  first : ℕ
  upgrade : ℕ
  diff : ℕ
  skipped : ℕ
deriving DecidableEq

def FrameStats.default : FrameStats := ⟨0, 0, 0, 0, 0⟩

structure ProgressiveDecoder where
  tiles : Pos → Option TileState
  /-- The calling thread's planes. -/
  scratch : WorkerScratch
  stats : FrameStats
  worker_scratch : List WorkerScratch

def ProgressiveDecoder.new : ProgressiveDecoder where
  tiles := fun _ => none
  scratch := .new
  stats := .default
  worker_scratch := []

namespace ProgressiveDecoder

def bindState (entry : Option TileState) (parsed : ParsedTile) : Except String Slot :=
  match parsed with
  | .first _ _ bitpos .. =>
    let state := entry.getD .default
    .ok { parsed, num_bits := .all (.const 0), state := state.withBitPos bitpos, rgba := none }
  | .upgrade _ _ new_bitpos .. => do
    let state ← okOr entry "upgrade: unknown tile (no FIRST seen)"
    let nb := "upgrade: numbits underflow (quality went backwards)"
    let y ← okOr (state.y.bit_pos.sub new_bitpos.y) nb
    let cb ← okOr (state.cb.bit_pos.sub new_bitpos.cb) nb
    let cr ← okOr (state.cr.bit_pos.sub new_bitpos.cr) nb
    return { parsed, num_bits := ⟨y, cb, cr⟩, state := state.withBitPos new_bitpos, rgba := none }

def bind (tiles : Pos → Option TileState) (parsed : ParsedTile) : Except String (Slot × (Pos → Option TileState)) :=
  match bindState (tiles parsed.key) parsed with
  | .ok slot => .ok (slot, Function.update tiles parsed.key (some .default))
  | .error reason => .error reason

def emitted (rects : List RegionRect) (slot : Slot) : List ProgressiveTile :=
  match slot.rgba with
  | some rgba => emitClipped (slot.parsed.key.1.toNat * tileSize) (slot.parsed.key.2.toNat * tileSize) rgba rects
  | none => []

/-- Put a decoded slot's state back and emit its tile. -/
def restore (rects : List RegionRect) (s : (Pos → Option TileState) × List ProgressiveTile)
    (slot : Slot) : (Pos → Option TileState) × List ProgressiveTile :=
  (Function.update s.1 slot.parsed.key (some slot.state), s.2 ++ emitted rects slot)

def parMin : ℕ := 24

def divCeil (a b : ℕ) : ℕ := (a + b - 1) / b

def batchThreads (w : Workers) (len : ℕ) : ℕ := min (min w.threads (divCeil len 8)) 16

def decodeBatch (w : Workers) (d : ProgressiveDecoder) (batch : List Slot) (extrapolate : Bool) :
    ProgressiveDecoder × List Slot :=
  let threads := batchThreads w batch.length
  if w.pool && parMin ≤ batch.length && 1 < threads then
    let per := divCeil batch.length threads
    let worker_scratch := d.worker_scratch ++ List.replicate (threads - 1 - d.worker_scratch.length) .new
    match chunks per batch with
    | [] => ({ d with worker_scratch }, [])
    | own :: rest =>
      let (rest, worker_scratch) := decodeChunks extrapolate rest worker_scratch
      let (own, scratch) := decodeSlots extrapolate own d.scratch
      ({ d with scratch, worker_scratch }, own ++ rest.flatten)
  else
    let (batch, scratch) := decodeSlots extrapolate batch d.scratch
    ({ d with scratch }, batch)

def flushBatch (w : Workers) (d : ProgressiveDecoder) (batch : List Slot) (extrapolate : Bool)
    (rects : List RegionRect) (out : List ProgressiveTile) :
    ProgressiveDecoder × List ProgressiveTile :=
  if batch.isEmpty then (d, out)
  else
    let (d, batch) := decodeBatch w d batch extrapolate
    let (tiles, out) := batch.foldl (restore rects) (d.tiles, out)
    ({ d with tiles }, out)

/-- What a region gives all of its tiles. -/
structure Region where
  quants : List Quant
  prog_quants : List ProgQuant
  rects : List RegionRect
  extrapolate : Bool

def parseTile (r : Region) (stats : FrameStats) (block_type : UInt16) (body : List UInt8) :
    Option (FrameStats × Except String ParsedTile) :=
  if block_type = wbtTileSimple ∨ block_type = wbtTileFirst then
    let stats :=
      if block_type = wbtTileSimple then { stats with simple := stats.simple + 1 }
      else { stats with first := stats.first + 1 }
    let stats :=
      if body.getD 7 0 &&& rfxTileDifference != 0 then { stats with diff := stats.diff + 1 }
      else stats
    some (stats, parseTileFirst block_type body r.quants r.prog_quants)
  else if block_type = wbtTileUpgrade then
    some ({ stats with upgrade := stats.upgrade + 1 }, parseTileUpgrade body r.quants r.prog_quants)
  else none

def walkTiles {σ : Type} (step : σ → UInt16 → List UInt8 → σ) (data : List UInt8) : ℕ → ℕ → σ → σ
  | 0, _, s => s
  | num_tiles + 1, off, s =>
    if data.length < off + 6 then s
    else
      let block_type := (u16le data off).getD 0
      let block_len := ((u32le data (off + 2)).getD 0).toNat
      if block_len < 6 ∨ data.length < off + block_len then s
      else
        let body := (data.drop (off + 6)).take (block_len - 6)
        walkTiles step data num_tiles (off + block_len) (step s block_type body)

/-- What `decode_tiles` carries from block to block. -/
structure TilesLoop where
  dec : ProgressiveDecoder
  batch : List Slot
  in_batch : List Pos
  out : List ProgressiveTile

def tileBlock (w : Workers) (r : Region) (s : TilesLoop) (block_type : UInt16) (body : List UInt8) : TilesLoop :=
  match parseTile r s.dec.stats block_type body with
  | none => s
  | some (stats, parsed) =>
    let s := { s with dec := { s.dec with stats } }
    let s : TilesLoop :=
      match parsed with
      | .ok p =>
        if p.key ∈ s.in_batch then
          let (dec, out) := flushBatch w s.dec s.batch r.extrapolate r.rects s.out
          { dec, batch := [], in_batch := [], out }
        else s
      | .error _ => s
    match parsed.bind (bind s.dec.tiles) with
    | .ok (slot, tiles) =>
      { s with
        dec := { s.dec with tiles }
        batch := s.batch ++ [slot]
        in_batch := slot.parsed.key :: s.in_batch }
    | .error _ =>
      { s with dec := { s.dec with stats := { stats with skipped := stats.skipped + 1 } } }

def decodeTiles (w : Workers) (r : Region) (d : ProgressiveDecoder) (data : List UInt8)
    (num_tiles : ℕ) (out : List ProgressiveTile) : ProgressiveDecoder × List ProgressiveTile :=
  let s := walkTiles (tileBlock w r) data num_tiles 0 { dec := d, batch := [], in_batch := [], out }
  flushBatch w s.dec s.batch r.extrapolate r.rects s.out

def table {α : Type} (b : List UInt8) (off n size : ℕ) (entry : List UInt8 → α) : Option (List α) :=
  if b.length < off + n * size then none
  else some ((List.range n).map fun i => entry ((b.drop (off + i * size)).take size))

def RegionRect.read (b : List UInt8) : RegionRect where
  x := UInt16.ofNat (ofLe (b.take 2))
  y := UInt16.ofNat (ofLe ((b.drop 2).take 2))
  w := UInt16.ofNat (ofLe ((b.drop 4).take 2))
  h := UInt16.ofNat (ofLe ((b.drop 6).take 2))

def parseRegion (b : List UInt8) : Option (ℕ × Region × List UInt8) := do
  let num_rects := (← u16le b 1).toNat
  let num_quant := (b.getD 3 0).toNat
  let num_prog_quant := (b.getD 4 0).toNat
  let flags := b.getD 5 0
  let num_tiles := (← u16le b 6).toNat
  let tile_data_size := (← u32le b 8).toNat
  let off := 12
  let rects ← table b off num_rects 8 RegionRect.read
  let off := off + num_rects * 8
  let quants ← table b off num_quant 5 Quant.read
  let off := off + num_quant * 5
  let prog_quants ← table b off num_prog_quant 16 ProgQuant.read
  let off := off + num_prog_quant * 16
  let region : Region :=
    { quants, prog_quants, rects, extrapolate := flags &&& rfxDwtReduceExtrapolate != 0 }
  some (num_tiles, region, (b.drop off).take tile_data_size)

def decodeRegion (w : Workers) (s : ProgressiveDecoder × List ProgressiveTile) (b : List UInt8) :
    ProgressiveDecoder × List ProgressiveTile :=
  match parseRegion b with
  | some (num_tiles, region, tile_data) => decodeTiles w region s.1 tile_data num_tiles s.2
  | none => s

/-- The walk over the top-level blocks from `off` on. -/
def walkBlocks {σ : Type} (region : σ → List UInt8 → σ) (data : List UInt8) (off : ℕ) (s : σ) : σ :=
  if off + 6 ≤ data.length then
    let block_type := (u16le data off).getD 0
    let block_len := ((u32le data (off + 2)).getD 0).toNat
    if 6 ≤ block_len ∧ off + block_len ≤ data.length then
      let s :=
        if block_type = wbtRegion then region s ((data.drop (off + 6)).take (block_len - 6)) else s
      walkBlocks region data (off + block_len) s
    else s
  else s
termination_by data.length - off

def decode (w : Workers) (d : ProgressiveDecoder) (data : List UInt8) : ProgressiveDecoder × List ProgressiveTile :=
  walkBlocks (decodeRegion w) (stripLengthPrefix data) 0 ({ d with stats := .default }, [])

end ProgressiveDecoder

end Rdpio.Graphics
