import Rdpio.Android.Canvas

/-!
# The compositor

`Compositor::apply` of `android/rust/src/rdp/compositor.rs`: the desktop, assembled from its EGFX commands in
one framebuffer.
-/

namespace Rdpio.Android

open Graphics

structure Tile where
  x : UInt32
  y : UInt32
  w : ℕ
  h : ℕ
  rgba : List Pixel

structure Codecs (κ π η : Type) where
  needsSeed : List UInt8 → UInt16 → UInt16 → Bool
  decodeSeeded : κ → List UInt8 → UInt16 → UInt16 → Option (List Pixel) → κ × Option (List Pixel)
  progressive : π
  decode : π → UInt32 → List UInt8 → π × List Tile
  deleteContext : π → UInt32 → π
  decodeAvc : Option η → Option Graphics.Surface → ℕ × ℕ → List UInt8 →
    Option η × Option ((ℕ → ℕ → Pixel) × List Rect16)

def toRgba (data : List UInt8) (width height : UInt16) : Option (List Pixel) :=
  let w := width.toNat
  let h := height.toNat
  if w = 0 ∨ h = 0 ∨ 16384 < w ∨ 16384 < h then none
  else if data.length < w * h * 4 then none
  else some ((List.range (w * h)).map fun i =>
    ⟨data.getD (4 * i + 2) 0, data.getD (4 * i + 1) 0, data.getD (4 * i) 0, 0xFF⟩)

def fillPixel (color : UInt32) : Pixel := ⟨(color >>> 16).toUInt8, (color >>> 8).toUInt8, color.toUInt8, 0xFF⟩

def CODECID_UNCOMPRESSED : UInt16 := 0x0000
def CODECID_CAVIDEO : UInt16 := 0x0003
def CODECID_CLEARCODEC : UInt16 := 0x0008
def CODECID_AVC420 : UInt16 := 0x000B

structure Compositor (κ π η : Type) where
  canvas : Canvas
  surfaces : SurfaceTable
  clear : κ
  progressive : UInt16 → Option π
  h264 : UInt16 → Option η
  cache : UInt16 → Option (ℕ × ℕ × List Pixel)
  frames : ℕ

namespace Compositor

variable {κ π η : Type} (codecs : Codecs κ π η)

def new (width height : UInt32) (clear : κ) : Compositor κ π η where
  canvas := .new width.toNat height.toNat
  surfaces := .new
  clear := clear
  progressive _ := none
  h264 _ := none
  cache _ := none
  frames := 0

variable (c : Compositor κ π η)

def draw (canvas : Canvas) : Compositor κ π η := { c with canvas }

def putAll (o : UInt32 × UInt32) (w h : ℕ) (rgba : List Pixel) (dest_pts : List Point16) : Compositor κ π η :=
  c.draw (dest_pts.foldl (fun canvas p => canvas.put (placed o p.x p.y).1 (placed o p.x p.y).2 w h rgba) c.canvas)

def solidFill (surface_id : UInt16) (color : UInt32) (rects : List Rect16) : Compositor κ π η :=
  let o := c.surfaces.origin surface_id
  c.draw (rects.foldl (fun canvas r =>
    canvas.fill (placed o r.left r.top).1 (placed o r.left r.top).2 r.width r.height (fillPixel color)) c.canvas)

def surfaceToSurface (surface_src surface_dst : UInt16) (r : Rect16) (dest_pts : List Point16) : Compositor κ π η :=
  let o := c.surfaces.origin surface_dst
  let s := placed (c.surfaces.origin surface_src) r.left r.top
  if 0 < r.width ∧ 0 < r.height then
    match dest_pts with
    | [p] => -- A scroll: no copy of the whole area first.
      c.draw (c.canvas.copyWithin s.1 s.2 r.width r.height (placed o p.x p.y).1 (placed o p.x p.y).2)
    | _ => c.putAll o r.width r.height (c.canvas.region s.1 s.2 r.width r.height) dest_pts
  else c

def surfaceToCache (surface_id slot : UInt16) (r : Rect16) : Compositor κ π η :=
  let s := placed (c.surfaces.origin surface_id) r.left r.top
  if 0 < r.width ∧ 0 < r.height then
    let px := c.canvas.region s.1 s.2 r.width r.height
    { c with cache := Function.update c.cache slot (some (r.width, r.height, px)) }
  else c

def cacheToSurface (slot surface_id : UInt16) (dest_pts : List Point16) : Compositor κ π η :=
  match c.cache slot with
  | some (w, h, px) => c.putAll (c.surfaces.origin surface_id) w h px dest_pts
  | none => c

def wireToSurface2 (surface_id : UInt16) (codec_context_id : UInt32) (bitmap : List UInt8) : Compositor κ π η :=
  let o := c.surfaces.origin surface_id
  let (dec, tiles) := codecs.decode ((c.progressive surface_id).getD codecs.progressive) codec_context_id bitmap
  { c with
    canvas := tiles.foldl (fun canvas t => canvas.put (o.1 + t.x).toNat (o.2 + t.y).toNat t.w t.h t.rgba) c.canvas
    progressive := Function.update c.progressive surface_id (some dec) }

def avc420 (surface_id : UInt16) (bitmap : List UInt8) : Compositor κ π η :=
  let o := c.surfaces.origin surface_id
  let (dec, painted) := codecs.decodeAvc (c.h264 surface_id) (c.surfaces surface_id)
    (c.canvas.width, c.canvas.height) bitmap
  { c with
    canvas := (painted.map fun p => c.canvas.avc420 o.1.toNat o.2.toNat p.1 p.2).getD c.canvas
    h264 := Function.update c.h264 surface_id dec }

def uncompressed (surface_id : UInt16) (dest : Rect16) (bitmap : List UInt8) : Compositor κ π η :=
  let p := placed (c.surfaces.origin surface_id) dest.left dest.top
  match toRgba bitmap (dest.right - min dest.left dest.right) (dest.bottom - min dest.top dest.bottom) with
  | some rgba => c.draw (c.canvas.put p.1 p.2 dest.width dest.height rgba)
  | none => c

def clearCodec (surface_id : UInt16) (dest : Rect16) (bitmap : List UInt8) : Compositor κ π η :=
  let p := placed (c.surfaces.origin surface_id) dest.left dest.top
  let w := dest.right - min dest.left dest.right
  let h := dest.bottom - min dest.top dest.bottom
  let seed := if codecs.needsSeed bitmap w h then some (c.canvas.region p.1 p.2 dest.width dest.height) else none
  let (clear, rgba) := codecs.decodeSeeded c.clear bitmap w h seed
  { c with
    clear
    canvas := (rgba.map (c.canvas.put p.1 p.2 dest.width dest.height)).getD c.canvas }

def wireToSurface1 (surface_id codec_id : UInt16) (dest : Rect16) (bitmap : List UInt8) : Compositor κ π η :=
  if codec_id = CODECID_AVC420 ∨ codec_id = CODECID_CAVIDEO then c.avc420 codecs surface_id bitmap
  else if codec_id = CODECID_UNCOMPRESSED then c.uncompressed surface_id dest bitmap
  else if codec_id = CODECID_CLEARCODEC then c.clearCodec codecs surface_id dest bitmap
  else c

def drawn : GfxCommand → Compositor κ π η
  | .resetGraphics width height _ => -- Stream-scoped decoders go; the ClearCodec and surface caches stay.
    { c with h264 := fun _ => none, progressive := fun _ => none
             canvas := c.canvas.resize width.toNat height.toNat }
  | .deleteSurface surface_id =>
    { c with h264 := Function.update c.h264 surface_id none
             progressive := Function.update c.progressive surface_id none }
  | .deleteEncodingContext surface_id codec_context_id =>
    let dec := (c.progressive surface_id).map (codecs.deleteContext · codec_context_id)
    { c with progressive := Function.update c.progressive surface_id dec }
  | .endFrame _ => { c with frames := c.frames + 1 }
  | .solidFill surface_id color rects => c.solidFill surface_id color rects
  | .surfaceToSurface surface_src surface_dst rect_src dest_pts =>
    c.surfaceToSurface surface_src surface_dst rect_src dest_pts
  | .surfaceToCache surface_id _ slot rect_src => c.surfaceToCache surface_id slot rect_src
  | .cacheToSurface slot surface_id dest_pts => c.cacheToSurface slot surface_id dest_pts
  | .wireToSurface2 surface_id _ codec_context_id _ bitmap => c.wireToSurface2 codecs surface_id codec_context_id bitmap
  | .wireToSurface1 surface_id codec_id _ dest bitmap => c.wireToSurface1 codecs surface_id codec_id dest bitmap
  | _ => c

def apply (command : GfxCommand) : Compositor κ π η :=
  drawn codecs { c with surfaces := c.surfaces.apply command } command

end Compositor

end Rdpio.Android
