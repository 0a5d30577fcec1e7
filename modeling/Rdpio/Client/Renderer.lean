import Rdpio.Android.Compositor

/-!
# The desktop's renderer

`MfRenderer::render` of `crates/rdp-client/src/main.rs`: the blits an EGFX command comes to, and the desktop's
shadow on the CPU, which ClearCodec, the copies and the cache read from.
-/

namespace Rdpio.Client

open Graphics Android

/-- Frame-relative: a corner and a size. -/
structure DirtyRect where
  x : UInt16
  y : UInt16
  w : UInt16
  h : UInt16

inductive GfxBlit where
  | rgba (x y w h : UInt16) (rgba : List Pixel)
  /-- `Nv12` and `Texture`: only the rectangles are painted, where there are any. -/
  | picture (x y w h : UInt16) (pixel : ℕ → ℕ → Pixel) (rects : List DirtyRect)
  | copyRect (sx sy w h dx dy : UInt16)
  | cacheRect (slot sx sy w h : UInt16)
  | cacheBlit (slot dx dy : UInt16)

inductive Decoded where
  | picture (w h : UInt16) (pixel : ℕ → ℕ → Pixel) (rects : List DirtyRect)
  | crop (x y w h : UInt16) (rgba : List Pixel)

structure AvcDecoders (θ : Type) where
  decode : θ → UInt16 → UInt16 → Rect16 → UInt32 × UInt32 → UInt32 × UInt32 → List UInt8 → θ × List Decoded
  remove : θ → UInt16 → θ
  clear : θ → θ

def CODECID_AVC444 : UInt16 := 0x000E
def CODECID_AVC444V2 : UInt16 := 0x000F

def clamp (v : ℕ) : UInt16 := if v < 65536 then UInt16.ofNat v else 0xFFFF

structure MfRenderer (κ π θ : Type) where
  surfaces : SurfaceTable
  desktop_w : UInt32
  desktop_h : UInt32
  avc : θ
  clear_decoder : κ
  progressive_decoders : UInt16 → Option π
  fb : ℕ → ℕ → Pixel
  fb_w : ℕ
  fb_h : ℕ
  gfx_cache : UInt16 → Option (ℕ × ℕ × List Pixel)
  seed_disabled : Bool

def joins (p n : Tile) : Bool := n.y == p.y && n.h == p.h && n.x == p.x + UInt32.ofNat p.w

def tileLe (a b : Tile) : Bool := a.y < b.y || (a.y == b.y && a.x ≤ b.x)

def bandRgba (h : ℕ) (run : List Tile) : List Pixel :=
  (List.range h).flatMap fun row => run.flatMap fun t => (t.rgba.drop (row * t.w)).take t.w

def bandBlit (o : UInt32 × UInt32) : List Tile → Option GfxBlit
  | [] => none
  | t :: run =>
    let run_w := ((t :: run).map Tile.w).sum
    let rgba := if run.isEmpty then t.rgba else bandRgba t.h (t :: run)
    some (.rgba (clamp (o.1 + t.x).toNat) (clamp (o.2 + t.y).toNat) (clamp run_w) (clamp t.h) rgba)

namespace MfRenderer

variable {κ π η θ : Type} (codecs : Codecs κ π η) (decoders : AvcDecoders θ)

def new (desktop_w desktop_h : UInt32) (clear_decoder : κ) (avc : θ) (seed_disabled : Bool) : MfRenderer κ π θ where
  surfaces := .new
  desktop_w := desktop_w
  desktop_h := desktop_h
  avc := avc
  clear_decoder := clear_decoder
  progressive_decoders _ := none
  fb _ _ := .black
  fb_w := 0
  fb_h := 0
  gfx_cache _ := none
  seed_disabled := seed_disabled

variable (r : MfRenderer κ π θ)

def fbEnsure (w h : ℕ) : MfRenderer κ π θ :=
  if r.fb_w ≠ w ∨ r.fb_h ≠ h then { r with fb := fun _ _ => .black, fb_w := w, fb_h := h } else r

/-- A row is written if the bytes have all of it. -/
def fbPut (x y w h : ℕ) (rgba : List Pixel) : MfRenderer κ π θ :=
  let r :=
    if r.fb_w = 0 then r.fbEnsure (max r.desktop_w.toNat ((x + w) % 2 ^ 32)) (max r.desktop_h.toNat ((y + h) % 2 ^ 32))
    else r
  if r.fb_w ≤ x then r
  else
    let cols := min (r.fb_w - x) w
    let rows := min (r.fb_h - y) h
    { r with
      fb := fun px py =>
        if Within x y cols rows px py ∧ (py - y) * w + cols ≤ rgba.length then
          rgba.getD ((py - y) * w + (px - x)) .black
        else r.fb px py }

def fbRegion (x y w h : ℕ) : List Pixel :=
  (List.range (w * h)).map fun i =>
    if x + i % w < r.fb_w ∧ y + i / w < r.fb_h then r.fb (x + i % w) (y + i / w) else .black

def shadowBlit : GfxBlit → MfRenderer κ π θ
  | .rgba x y w h rgba => r.fbPut x.toNat y.toNat w.toNat h.toNat rgba
  | _ => r

def shadowBlits (blits : List GfxBlit) : MfRenderer κ π θ := blits.foldl shadowBlit r

def mirrored (blits : List GfxBlit) : MfRenderer κ π θ × List GfxBlit := (r.shadowBlits blits, blits)

def solidFill (surface_id : UInt16) (color : UInt32) (rects : List Rect16) : MfRenderer κ π θ × List GfxBlit :=
  let o := r.surfaces.origin surface_id
  r.mirrored (rects.filterMap fun rect =>
    let w := rect.right - min rect.left rect.right
    let h := rect.bottom - min rect.top rect.bottom
    let p := placed o rect.left rect.top
    if w = 0 ∨ h = 0 then none
    else some (.rgba (clamp p.1) (clamp p.2) w h (List.replicate (w.toNat * h.toNat) (fillPixel color))))

def fbPutAll (o : UInt32 × UInt32) (w h : ℕ) (rgba : List Pixel) (dest_pts : List Point16) : MfRenderer κ π θ :=
  dest_pts.foldl (fun r p => r.fbPut (placed o p.x p.y).1 (placed o p.x p.y).2 w h rgba) r

def surfaceToSurface (surface_src surface_dst : UInt16) (rect : Rect16) (dest_pts : List Point16) :
    MfRenderer κ π θ × List GfxBlit :=
  let o := r.surfaces.origin surface_dst
  let s := placed (r.surfaces.origin surface_src) rect.left rect.top
  if 0 < rect.width ∧ 0 < rect.height then
    (r.fbPutAll o rect.width rect.height (r.fbRegion s.1 s.2 rect.width rect.height) dest_pts,
      dest_pts.map fun p => .copyRect (clamp s.1) (clamp s.2) (clamp rect.width) (clamp rect.height)
        (clamp (placed o p.x p.y).1) (clamp (placed o p.x p.y).2))
  else (r, [])

def surfaceToCache (surface_id slot : UInt16) (rect : Rect16) : MfRenderer κ π θ × List GfxBlit :=
  let s := placed (r.surfaces.origin surface_id) rect.left rect.top
  if 0 < rect.width ∧ 0 < rect.height then
    let px := r.fbRegion s.1 s.2 rect.width rect.height
    ({ r with gfx_cache := Function.update r.gfx_cache slot (some (rect.width, rect.height, px)) },
      [.cacheRect slot (clamp s.1) (clamp s.2) (clamp rect.width) (clamp rect.height)])
  else (r, [])

def cacheToSurface (slot surface_id : UInt16) (dest_pts : List Point16) : MfRenderer κ π θ × List GfxBlit :=
  let o := r.surfaces.origin surface_id
  match r.gfx_cache slot with
  | some (w, h, px) =>
    (r.fbPutAll o w h px dest_pts,
      dest_pts.map fun p => .cacheBlit slot (clamp (placed o p.x p.y).1) (clamp (placed o p.x p.y).2))
  | none => (r, [])

def wireToSurface2 (surface_id : UInt16) (codec_context_id : UInt32) (bitmap : List UInt8) :
    MfRenderer κ π θ × List GfxBlit :=
  let o := r.surfaces.origin surface_id
  let (dec, tiles) :=
    codecs.decode ((r.progressive_decoders surface_id).getD codecs.progressive) codec_context_id bitmap
  let blits := ((tiles.mergeSort tileLe).splitBy joins).filterMap (bandBlit o)
  { r with progressive_decoders := Function.update r.progressive_decoders surface_id (some dec) }.mirrored blits

def surfaceDims (surface_id : UInt16) : UInt32 × UInt32 :=
  match r.surfaces surface_id with
  | some s => ((max s.width 1).toUInt32, (max s.height 1).toUInt32)
  | none => (r.desktop_w, r.desktop_h)

def avcBlit (o : UInt32 × UInt32) : Decoded → GfxBlit
  | .picture w h pixel rects => .picture (clamp o.1.toNat) (clamp o.2.toNat) w h pixel rects
  | .crop x y w h rgba => .rgba x y w h rgba

def avc444 (surface_id codec_id : UInt16) (dest : Rect16) (bitmap : List UInt8) : MfRenderer κ π θ × List GfxBlit :=
  let o := r.surfaces.origin surface_id
  let (avc, decoded) := decoders.decode r.avc codec_id surface_id dest (r.surfaceDims surface_id) o bitmap
  { r with avc }.mirrored (decoded.map (avcBlit o))

def uncompressed (surface_id : UInt16) (dest : Rect16) (bitmap : List UInt8) : MfRenderer κ π θ × List GfxBlit :=
  let p := placed (r.surfaces.origin surface_id) dest.left dest.top
  let w := dest.right - min dest.left dest.right
  let h := dest.bottom - min dest.top dest.bottom
  r.mirrored (((toRgba bitmap w h).map fun rgba => GfxBlit.rgba (clamp p.1) (clamp p.2) w h rgba).toList)

def seed (surface_id : UInt16) (dest : Rect16) (bitmap : List UInt8) : Option (List Pixel) :=
  let p := placed (r.surfaces.origin surface_id) dest.left dest.top
  let w := dest.right - min dest.left dest.right
  let h := dest.bottom - min dest.top dest.bottom
  if !r.seed_disabled && codecs.needsSeed bitmap w h then some (r.fbRegion p.1 p.2 w.toNat h.toNat) else none

def clearCodec (surface_id : UInt16) (dest : Rect16) (bitmap : List UInt8) : MfRenderer κ π θ × List GfxBlit :=
  let p := placed (r.surfaces.origin surface_id) dest.left dest.top
  let w := dest.right - min dest.left dest.right
  let h := dest.bottom - min dest.top dest.bottom
  let (clear_decoder, rgba) := codecs.decodeSeeded r.clear_decoder bitmap w h (r.seed codecs surface_id dest bitmap)
  let whole := rgba.filter fun rgba => rgba.length = w.toNat * h.toNat
  { r with clear_decoder }.mirrored
    ((whole.map fun rgba => GfxBlit.rgba (clamp p.1) (clamp p.2) w h rgba).toList)

def wireToSurface1 (surface_id codec_id : UInt16) (dest : Rect16) (bitmap : List UInt8) :
    MfRenderer κ π θ × List GfxBlit :=
  if codec_id = CODECID_AVC420 ∨ codec_id = CODECID_CAVIDEO ∨ codec_id = CODECID_AVC444 ∨
      codec_id = CODECID_AVC444V2 then
    r.avc444 decoders surface_id codec_id dest bitmap
  else if codec_id = CODECID_UNCOMPRESSED then r.uncompressed surface_id dest bitmap
  else if codec_id = CODECID_CLEARCODEC then r.clearCodec codecs surface_id dest bitmap
  else (r, [])

def rendered : GfxCommand → MfRenderer κ π θ × List GfxBlit
  | .resetGraphics width height _ => -- Stream-scoped decoders go; the ClearCodec and surface caches stay.
    let r := { r with
      desktop_w := width, desktop_h := height, avc := decoders.clear r.avc, progressive_decoders := fun _ => none }
    (r.fbEnsure width.toNat height.toNat, [])
  | .deleteSurface surface_id =>
    ({ r with avc := decoders.remove r.avc surface_id
              progressive_decoders := Function.update r.progressive_decoders surface_id none }, [])
  | .deleteEncodingContext surface_id codec_context_id =>
    let dec := (r.progressive_decoders surface_id).map (codecs.deleteContext · codec_context_id)
    ({ r with progressive_decoders := Function.update r.progressive_decoders surface_id dec }, [])
  | .solidFill surface_id color rects => r.solidFill surface_id color rects
  | .surfaceToSurface surface_src surface_dst rect_src dest_pts =>
    r.surfaceToSurface surface_src surface_dst rect_src dest_pts
  | .surfaceToCache surface_id _ slot rect_src => r.surfaceToCache surface_id slot rect_src
  | .cacheToSurface slot surface_id dest_pts => r.cacheToSurface slot surface_id dest_pts
  | .wireToSurface2 surface_id _ codec_context_id _ bitmap => r.wireToSurface2 codecs surface_id codec_context_id bitmap
  | .wireToSurface1 surface_id codec_id _ dest bitmap =>
    r.wireToSurface1 codecs decoders surface_id codec_id dest bitmap
  | _ => (r, [])

def render (command : GfxCommand) : MfRenderer κ π θ × List GfxBlit :=
  { r with surfaces := r.surfaces.apply command }.rendered codecs decoders command

end MfRenderer

end Rdpio.Client
