import Rdpio.Lib.Bits
import Rdpio.Lib.Bytes
import Rdpio.Lib.Scratch

/-!
# The entropy coder of RemoteFX

`BitReader`, `BitWriter`, `rlgr_decode` and `rlgr_encode` of `crates/rdp-graphics/src/rfx.rs`.
-/

namespace Rdpio.Graphics.Rfx

open Lib

inductive RlgrMode where
  | rlgr1
  | rlgr3
deriving DecidableEq

def lsGr : ℕ := 3

def upGr : ℕ := 4

def dnGr : ℕ := 6

def uqGr : ℕ := 3

def addU32 (a b : ℕ) : Option ℕ := if a + b < 2^32 then some (a + b) else none

def subU32 (a b : ℕ) : Option ℕ := if b ≤ a then some (a - b) else none

def shlU32 (a n : ℕ) : Option ℕ := if n < 32 then some (a * 2^n % 2^32) else none

def shrU32 (a n : ℕ) : Option ℕ := if n < 32 then some (a / 2^n) else none

def addUsize (a b : ℕ) : Option ℕ := if a + b < 2^64 then some (a + b) else none

def shlUsize (a n : ℕ) : Option ℕ := if n < 64 then some (a * 2^n % 2^64) else none

def shrUsize (a n : ℕ) : Option ℕ := if n < 64 then some (a / 2^n) else none

def asI32 (n : ℕ) : ℤ := if n < 2^31 then n else n - 2^32

def negI32 (v : ℤ) : Option ℤ := if v = -2^31 then none else some (-v)

def clampI16 (v : ℤ) : Int16 := Int16.ofInt (max (-32768) (min v 32767))

structure BitReader where
  data : List UInt8
  /-- Absolute bit position from the start. -/
  pos : ℕ

namespace BitReader

def new (data : List UInt8) : BitReader := ⟨data, 0⟩

def bitsLeft (r : BitReader) : ℕ := r.data.length * 8 - min r.pos (r.data.length * 8)

def bit (r : BitReader) : ℕ × BitReader :=
  if r.data.length * 8 ≤ r.pos then (0, r)
  else (((r.data.getD (r.pos / 8) 0 >>> UInt8.ofNat (7 - r.pos % 8)) &&& 1).toNat, { r with pos := r.pos + 1 })

def bitsFrom : ℕ → BitReader → ℕ → ℕ × BitReader
  | 0, r, v => (v, r)
  | n + 1, r, v => bitsFrom n r.bit.2 (v * 2 % 2^32 + r.bit.1)

def bits (r : BitReader) (n : ℕ) : ℕ × BitReader := bitsFrom n r 0

def onesFrom : ℕ → BitReader → ℕ → Option (ℕ × BitReader)
  | 0, r, c => some (c, r)
  | left + 1, r, c =>
    if r.bit.1 = 1 then (addU32 c 1).bind (onesFrom left r.bit.2) else some (c, r.bit.2)

def onesRun (r : BitReader) : Option (ℕ × BitReader) := onesFrom r.bitsLeft r 0

end BitReader

structure BitWriter where
  out : List UInt8
  /-- Bits filled in the last byte. -/
  nbits : ℕ

namespace BitWriter

def new : BitWriter := ⟨[], 0⟩

def bit (w : BitWriter) (b : ℕ) : BitWriter :=
  let out := if w.nbits = 0 then w.out ++ [0] else w.out
  { out := if b &&& 1 ≠ 0
      then out.set (out.length - 1) (out.getD (out.length - 1) 0 ||| 1 <<< UInt8.ofNat (7 - w.nbits))
      else out
    nbits := (w.nbits + 1) % 8 }

def bits (w : BitWriter) (v : ℕ) : ℕ → Option BitWriter
  | 0 => some w
  | i + 1 => (shrU32 v i).bind fun b => (w.bit (b &&& 1)).bits v i

def onesRun (w : BitWriter) : ℕ → BitWriter
  | 0 => w.bit 0
  | count + 1 => (w.bit 1).onesRun count

end BitWriter

def unzigzag (n : ℕ) : Option ℤ :=
  if n % 2 ≠ 0 then (addU32 n 1).bind fun m => negI32 (asI32 (m / 2)) else some (asI32 (n / 2))

def zigzag (v : ℤ) : ℕ := if v < 0 then (-v).toNat * 2 - 1 else v.toNat * 2

structure Params where
  k : ℕ
  kp : ℕ
  k1 : ℕ
  k1p : ℕ
deriving DecidableEq

def Params.new : Params := ⟨1, 1 * 2^lsGr, 1, 1 * 2^lsGr⟩

def Params.up (p : Params) : Option Params := (addU32 p.kp upGr).map fun kp => { p with kp, k := kp / 2^lsGr }

def Params.down (p : Params) : Params := { p with kp := p.kp - dnGr, k := (p.kp - dnGr) / 2^lsGr }

def Params.afterRun (p : Params) (runs : ℕ) : Option Params := if runs = 0 then some p.down else p.up

def Params.adapt (p : Params) (q : ℕ) : Option Params :=
  if q = 0 then some { p with k1p := p.k1p - uqGr, k1 := (p.k1p - uqGr) / 2^lsGr }
  else (addU32 p.k1p q).map fun k1p => { p with k1p, k1 := k1p / 2^lsGr }

def grDecode (r : BitReader) (p : Params) (_mode : RlgrMode) : Option (ℕ × BitReader × Params) := do
  let (q, r) ← r.onesRun
  let (rem, r) := if 0 < p.k1 then r.bits p.k1 else (0, r)
  let high ← shlU32 q p.k1
  let val ← addU32 high rem
  let p ← p.adapt q
  return (val, r, p)

def grEncode (w : BitWriter) (val : ℕ) (p : Params) (_mode : RlgrMode) : Option (BitWriter × Params) := do
  let q ← shrU32 val p.k1
  let w := w.onesRun q
  let w ← if 0 < p.k1 then do
      let bit ← shlU32 1 p.k1
      let mask ← subU32 bit 1
      w.bits (val &&& mask) p.k1
    else some w
  let p ← p.adapt q
  return (w, p)

/-- What `rlgr_decode` carries from turn to turn. -/
structure Decoding where
  r : BitReader
  out : List Int16
  p : Params

def signedValue (s : Decoding) (mode : RlgrMode) : Option Decoding := do
  let (val, r, p) ← grDecode s.r s.p mode
  let mag ← addU32 val 1
  let (sign, r) := r.bit
  let v ← if sign ≠ 0 then negI32 (asI32 mag) else some (asI32 mag)
  return { r, out := s.out ++ [clampI16 v], p }

def runTurn (mode : RlgrMode) (count : ℕ) (s : Decoding) : Option Decoding := do
  let (runs, r) ← s.r.onesRun
  let full ← shlUsize runs s.p.k
  let (low, r) := if 0 < s.p.k then r.bits s.p.k else (0, r)
  let zeros ← addUsize full low
  let out := s.out ++ List.replicate (min zeros (count - s.out.length)) 0
  let s ← if out.length < count then signedValue { s with r, out } mode else some { s with r, out }
  let p ← s.p.afterRun runs
  return { s with p }

def valueTurn (mode : RlgrMode) (s : Decoding) : Option Decoding := do
  let (n, r, p) ← grDecode s.r s.p mode
  let v ← unzigzag n
  let p ← if n = 0 then p.up else some p.down
  return { r, out := s.out ++ [clampI16 v], p }

def decodeTurn (mode : RlgrMode) (count : ℕ) (s : Decoding) : Option Decoding :=
  if s.p.k ≠ 0 then runTurn mode count s else valueTurn mode s

def decodeLoop (mode : RlgrMode) (count : ℕ) : ℕ → Decoding → Option Decoding
  | 0, s => some s
  | turns + 1, s =>
    if s.out.length < count ∧ 0 < s.r.bitsLeft then (decodeTurn mode count s).bind (decodeLoop mode count turns)
    else some s

def resize (out : List Int16) (count : ℕ) : List Int16 := out.take count ++ List.replicate (count - out.length) 0

def rlgrDecode (data : List UInt8) (mode : RlgrMode) (count : ℕ) : Option (List Int16) :=
  (decodeLoop mode count (data.length * 8) ⟨.new data, [], .new⟩).map fun s => resize s.out count

def zeroRun (coeffs : List Int16) : ℕ := (coeffs.takeWhile (· == 0)).length

def writeSigned (w : BitWriter) (c : Int16) (p : Params) (mode : RlgrMode) : Option (BitWriter × Params) := do
  let mag ← subU32 c.toInt.natAbs 1
  let (w, p) ← grEncode w mag p mode
  return (w.bit (if c.toInt < 0 then 1 else 0), p)

def writeRun (w : BitWriter) (coeffs : List Int16) (p : Params) : Option (ℕ × BitWriter × List Int16) := do
  let zeros := zeroRun coeffs
  let full ← shrUsize zeros p.k
  let runs := full % 2^32
  let w := w.onesRun runs
  let written ← shlUsize runs p.k
  let partial_ := (zeros - written) % 2^32
  let w ← if 0 < p.k then w.bits partial_ p.k else some w
  return (runs, w, coeffs.drop (written + partial_))

def writeNext (w : BitWriter) (coeffs : List Int16) (p : Params) (mode : RlgrMode) :
    Option (BitWriter × Params × List Int16) :=
  match coeffs with
  | [] => some (w, p, [])
  | v :: rest => (writeSigned w v p mode).map fun wp => (wp.1, wp.2, rest)

def encodeLoop (mode : RlgrMode) : ℕ → List Int16 → Params → BitWriter → Option BitWriter
  | 0, _, _, w => some w
  | _ + 1, [], _, w => some w
  | turns + 1, c :: coeffs, p, w =>
    if p.k ≠ 0 then do
      let (runs, w, rest) ← writeRun w (c :: coeffs) p
      let (w, p, rest) ← writeNext w rest p mode
      let p ← p.afterRun runs
      encodeLoop mode turns rest p w
    else do
      let n := zigzag c.toInt
      let (w, p) ← grEncode w n p mode
      let p ← if n = 0 then p.up else some p.down
      encodeLoop mode turns coeffs p w

def rlgrEncode (coeffs : List Int16) (mode : RlgrMode) : Option (List UInt8) :=
  (encodeLoop mode coeffs.length coeffs .new .new).map BitWriter.out

/-! ## The tiles and the blocks of a message -/

def tile : ℕ := 64

def tileArea : ℕ := tile * tile

abbrev Plane := Vector ℤ 4096

def I32 (v : ℤ) : Prop := -2^31 ≤ v ∧ v < 2^31

instance (v : ℤ) : Decidable (I32 v) := inferInstanceAs (Decidable (_ ∧ _))

def i32 (v : ℤ) : Option ℤ := if I32 v then some v else none

def shlI32 (v : ℤ) (n : ℕ) : ℤ := (v * 2^n + 2^31) % 2^32 - 2^31

abbrev Quants := Vector (Fin 16) 10

/-- A subband's region in the plane. -/
structure Subband where
  x0 : ℕ
  y0 : ℕ
  w : ℕ
  h : ℕ

def subbands : Vector Subband 10 :=
  #v[⟨0, 0, 8, 8⟩, ⟨8, 0, 8, 8⟩, ⟨0, 8, 8, 8⟩, ⟨8, 8, 8, 8⟩, ⟨16, 0, 16, 16⟩, ⟨0, 16, 16, 16⟩, ⟨16, 16, 16, 16⟩,
    ⟨32, 0, 32, 32⟩, ⟨0, 32, 32, 32⟩, ⟨32, 32, 32, 32⟩]

def dequantize (coeffs : Plane) (quants : Quants) : Plane :=
  (List.finRange 10).foldl (fun c sb =>
    let b := subbands[sb]
    (List.range b.h).foldl (fun c yy =>
      (List.range b.w).foldl (fun c xx =>
        let idx := (b.y0 + yy) * tile + (b.x0 + xx)
        write c idx (shlI32 (read c idx) quants[sb].val)) c) c) coeffs

def idwtEven (buf : List ℤ) (i : ℕ) : Option ℤ := do
  let half := buf.length / 2
  let hl := if 0 < i then buf.getD (half + i - 1) 0 else buf.getD half 0
  let hr := buf.getD (half + i) 0
  let sum ← i32 (hl + hr)
  let sum ← i32 (sum + 2)
  i32 (buf.getD i 0 - sum / 4)

def idwtOdd (buf evens : List ℤ) (i : ℕ) : Option ℤ := do
  let half := buf.length / 2
  let el := evens.getD i 0
  let er := if i + 1 < half then evens.getD (i + 1) 0 else evens.getD i 0
  let sum ← i32 (el + er)
  i32 (buf.getD (half + i) 0 + sum / 2)

def interleave (evens odds : List ℤ) : List ℤ := (evens.zip odds).flatMap fun eo => [eo.1, eo.2]

def idwt1d (buf : List ℤ) : Option (List ℤ) := do
  let evens ← (List.range (buf.length / 2)).mapM (idwtEven buf)
  ((List.range (buf.length / 2)).mapM (idwtOdd buf evens)).map (interleave evens)

def line (c : Plane) (start stride size : ℕ) : List ℤ := (List.range size).map fun i => read c (start + i * stride)

def setLine (c : Plane) (start stride : ℕ) (xs : List ℤ) : Plane :=
  (List.range xs.length).foldl (fun c i => write c (start + i * stride) (xs.getD i 0)) c

def dwtRow (size : ℕ) (c : Plane) (y : ℕ) : Option Plane :=
  (idwt1d (line c (y * tile) 1 size)).map (setLine c (y * tile) 1)

def dwtColumn (size : ℕ) (c : Plane) (x : ℕ) : Option Plane := (idwt1d (line c x tile size)).map (setLine c x tile)

def dwtLevel (c : Plane) (size : ℕ) : Option Plane := do
  let c ← (List.range size).foldlM (dwtRow size) c
  (List.range size).foldlM (dwtColumn size) c

def inverseDwt (c : Plane) : Option Plane := do
  let c ← dwtLevel c 16
  let c ← dwtLevel c 32
  dwtLevel c 64

def clamp8 (v : ℤ) : UInt8 := UInt8.ofNat (max 0 (min v 255)).toNat

def pixelRgba (y u v : ℤ) : Option (List UInt8) := do
  let yy ← i32 (y + 128)
  let rv ← i32 (359 * v)
  let r ← i32 (yy + rv / 256)
  let gu ← i32 (88 * u)
  let g ← i32 (yy - gu / 256)
  let gv ← i32 (183 * v)
  let g ← i32 (g - gv / 256)
  let bu ← i32 (454 * u)
  (i32 (yy + bu / 256)).map fun b => [clamp8 r, clamp8 g, clamp8 b, 0xFF]

def ycbcrTileToRgba (y cb cr : Plane) : Option (List UInt8) :=
  ((List.range tileArea).mapM fun i => pixelRgba (read y i) (read cb i) (read cr i)).map List.flatten

def planeOf (coeffs : List Int16) : Plane := Vector.ofFn fun i => (coeffs.getD i 0).toInt

def plane (data : List UInt8) (q : Quants) (mode : RlgrMode) : Option Plane := do
  let coeffs ← rlgrDecode data mode tileArea
  inverseDwt (dequantize (planeOf coeffs) q)

structure TileBlock where
  x_idx : ℕ
  y_idx : ℕ
  y_data : List UInt8
  cb_data : List UInt8
  cr_data : List UInt8
  quant_y : Quants
  quant_cb : Quants
  quant_cr : Quants

def decodeTile (t : TileBlock) (mode : RlgrMode) : Option (List UInt8) := do
  let y ← plane t.y_data t.quant_y mode
  let cb ← plane t.cb_data t.quant_cb mode
  let cr ← plane t.cr_data t.quant_cr mode
  ycbcrTileToRgba y cb cr

structure RfxTile where
  x : ℕ
  y : ℕ
  rgba : List UInt8

def wbtContext : ℕ := 0xCCC3

def wbtTileset : ℕ := 0xCCC7

def cbtTile : ℕ := 0xCAC3

def numberAt (n : ℕ) (b : List UInt8) (o : ℕ) : Option ℕ :=
  if b.length < o + n then none else some (ofLe ((b.drop o).take n))

def u16le (b : List UInt8) (o : ℕ) : Option ℕ := numberAt 2 b o

def u32le (b : List UInt8) (o : ℕ) : Option ℕ := numberAt 4 b o

def nibble (byte : UInt8) (high : Bool) : Fin 16 :=
  ⟨(if high then byte.toNat / 16 else byte.toNat) % 16, Nat.mod_lt _ (by decide)⟩

def quantSet (b : List UInt8) : Quants := Vector.ofFn fun i => nibble (b.getD (i / 2) 0) (i.val % 2 = 1)

def tileBlock (quants : List Quants) (block : List UInt8) : Option (TileBlock × ℕ) :=
  let blen := (u32le block 2).getD 0
  if block.length < 6 ∨ (u16le block 0).getD 0 ≠ cbtTile ∨ blen < 6 ∨ block.length < blen then none
  else
    let t := block.take blen
    let quant (o : ℕ) := quants.getD (t.getD o 0).toNat (quants.headD (quantSet []))
    let y_len := (u16le t 13).getD 0
    let cb_len := (u16le t 15).getD 0
    let cr_len := (u16le t 17).getD 0
    if t.length < 19 + y_len + cb_len + cr_len then none
    else
      some (
        { x_idx := (u16le t 9).getD 0
          y_idx := (u16le t 11).getD 0
          y_data := (t.drop 19).take y_len
          cb_data := (t.drop (19 + y_len)).take cb_len
          cr_data := (t.drop (19 + y_len + cb_len)).take cr_len
          quant_y := quant 6
          quant_cb := quant 7
          quant_cr := quant 8 }, blen)

/-- The tiles of a tile set, decoded behind those before. -/
def decodeTiles (quants : List Quants) (mode : RlgrMode) : ℕ → List UInt8 → List RfxTile → Option (List RfxTile)
  | 0, _, out => some out
  | n + 1, block, out =>
    match tileBlock quants block with
    | none => some out
    | some (t, blen) =>
      (decodeTile t mode).bind fun rgba =>
        decodeTiles quants mode n (block.drop blen) (out ++ [⟨t.x_idx * tile, t.y_idx * tile, rgba⟩])

def tileset (block : List UInt8) : Option (List Quants × ℕ × List UInt8) :=
  match block[12]?, u16le block 14 with
  | some num_quant, some num_tiles =>
    if block.length < 20 + num_quant.toNat * 5 ∨ num_quant = 0 then none
    else
      some ((List.range num_quant.toNat).map fun i => quantSet (block.drop (20 + i * 5)), num_tiles,
        block.drop (20 + num_quant.toNat * 5))
  | _, _ => none

def decodeTileset (block : List UInt8) (mode : RlgrMode) (out : List RfxTile) : Option (List RfxTile) :=
  match tileset block with
  | none => some out
  | some (quants, num_tiles, tiles) => decodeTiles quants mode num_tiles tiles out

def nextBlock (data : List UInt8) : Option (ℕ × List UInt8) :=
  match u16le data 0, u32le data 2 with
  | some block_type, some block_len =>
    if block_len < 6 ∨ data.length < block_len then none else some (block_type, data.take block_len)
  | _, _ => none

def contextMode (block : List UInt8) (mode : RlgrMode) : RlgrMode :=
  match u16le block 11 with
  | some props => if props / 8 % 4 = 2 then .rlgr3 else .rlgr1
  | none => mode

/-- Walk the blocks of `data`, with so many turns at most. -/
def walkBlocks : ℕ → List UInt8 → RlgrMode → List RfxTile → Option (RlgrMode × List RfxTile)
  | 0, _, mode, tiles => some (mode, tiles)
  | turns + 1, data, mode, tiles =>
    match nextBlock data with
    | none => some (mode, tiles)
    | some (block_type, block) =>
      if block_type = wbtContext then walkBlocks turns (data.drop block.length) (contextMode block mode) tiles
      else if block_type = wbtTileset then
        (decodeTileset block mode tiles).bind fun tiles => walkBlocks turns (data.drop block.length) mode tiles
      else walkBlocks turns (data.drop block.length) mode tiles

def decodeMessage (data : List UInt8) : Option (List RfxTile) := (walkBlocks data.length data .rlgr1 []).map Prod.snd

end Rdpio.Graphics.Rfx
