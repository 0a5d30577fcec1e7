import Rdpio.Client.Renderer
import Rdpio.Lib.Run

/-!
# The screen and the shadow

A ClearCodec tile that does not code all its pixels is decoded on the shadow's, which are to be those on the
screen.
-/

namespace Rdpio.Client

open Graphics Android Lib

/-- The framebuffer of the GPU, and its surface cache. -/
structure Sink where
  fb : ℕ → ℕ → Pixel
  fb_width : ℕ
  fb_height : ℕ
  gfx_cache : UInt16 → Option (ℕ × ℕ × (ℕ → ℕ → Pixel))

namespace Sink

def new : Sink := ⟨fun _ _ => .black, 0, 0, fun _ => none⟩

variable (s : Sink)

/-- A new framebuffer is cleared to opaque black. -/
def ensureFramebuffer (width height : ℕ) : Sink :=
  if width = 0 ∨ height = 0 then s
  else if s.fb_width = width ∧ s.fb_height = height then s
  else { s with fb := fun _ _ => ⟨0, 0, 0, 0xFF⟩, fb_width := width, fb_height := height }

def resize (width height : UInt32) : Sink := s.ensureFramebuffer width.toUInt16.toNat height.toUInt16.toNat

def ensureSome (width height : ℕ) : Sink :=
  if s.fb_width = 0 then s.ensureFramebuffer (max width 1) (max height 1) else s

/-- Clipped to the desktop; a short buffer is dropped. -/
def updateRect (x y w h : ℕ) (rgba : List Pixel) : Sink :=
  let s := s.ensureSome (x + w) (y + h)
  if w = 0 ∨ h = 0 ∨ s.fb_width ≤ x ∨ s.fb_height ≤ y ∨ rgba.length < w * h then s
  else
    { s with
      fb := fun px py =>
        if Within x y (min (x + w) s.fb_width - x) (min (y + h) s.fb_height - y) px py then
          rgba.getD ((py - y) * w + (px - x)) .black
        else s.fb px py }

/-- The frame's place lies in its picture's dirty rectangles, or there are none. -/
def Dirty (rects : List DirtyRect) (i j : ℕ) : Prop :=
  rects = [] ∨ ∃ r ∈ rects, Within r.x.toNat r.y.toNat r.w.toNat r.h.toNat i j

instance (rects : List DirtyRect) (i j : ℕ) : Decidable (Dirty rects i j) :=
  decidable_of_iff (rects.isEmpty = true ∨ ∃ r ∈ rects, Within r.x.toNat r.y.toNat r.w.toNat r.h.toNat i j)
    (or_congr_left List.isEmpty_iff)

def blitPicture (x y w h : ℕ) (pixel : ℕ → ℕ → Pixel) (rects : List DirtyRect) : Sink :=
  let s := s.ensureSome (x + w) (y + h)
  { s with
    fb := fun px py =>
      if Within x y w h px py ∧ Dirty rects (px - x) (py - y) then pixel (px - x) (py - y) else s.fb px py }

def copyRect (sx sy w h dx dy : ℕ) : Sink :=
  if s.fb_width ≤ sx ∨ s.fb_height ≤ sy ∨ s.fb_width ≤ dx ∨ s.fb_height ≤ dy then s
  else
    let cw := min (min w (s.fb_width - sx)) (s.fb_width - dx)
    let ch := min (min h (s.fb_height - sy)) (s.fb_height - dy)
    { s with
      fb := fun px py => if Within dx dy cw ch px py then s.fb (sx + (px - dx)) (sy + (py - dy)) else s.fb px py }

def cacheRect (slot : UInt16) (sx sy w h : ℕ) : Sink :=
  if w = 0 ∨ h = 0 ∨ s.fb_width ≤ sx ∨ s.fb_height ≤ sy then s
  else
    let entry := (min w (s.fb_width - sx), min h (s.fb_height - sy), fun i j => s.fb (sx + i) (sy + j))
    { s with gfx_cache := Function.update s.gfx_cache slot (some entry) }

def cacheBlit (slot : UInt16) (dx dy : ℕ) : Sink :=
  match s.gfx_cache slot with
  | some (w, h, pixel) =>
    if s.fb_width ≤ dx ∨ s.fb_height ≤ dy then s
    else
      { s with
        fb := fun px py =>
          if Within dx dy (min w (s.fb_width - dx)) (min h (s.fb_height - dy)) px py then pixel (px - dx) (py - dy)
          else s.fb px py }
  | none => s

def blit : GfxBlit → Sink
  | .rgba x y w h rgba => s.updateRect x.toNat y.toNat w.toNat h.toNat rgba
  | .picture x y w h pixel rects => s.blitPicture x.toNat y.toNat w.toNat h.toNat pixel rects
  | .copyRect sx sy w h dx dy => s.copyRect sx.toNat sy.toNat w.toNat h.toNat dx.toNat dy.toNat
  | .cacheRect slot sx sy w h => s.cacheRect slot sx.toNat sy.toNat w.toNat h.toNat
  | .cacheBlit slot dx dy => s.cacheBlit slot dx.toNat dy.toNat

def region (x y w h : ℕ) : List Pixel :=
  (List.range (w * h)).map fun i =>
    if x + i % w < s.fb_width ∧ y + i / w < s.fb_height then s.fb (x + i % w) (y + i / w) else .black

end Sink

structure Fresh where
  desktop : ℕ → ℕ → Bool
  kept : ℕ → ℕ → Bool
  cached : UInt16 → ℕ → ℕ → Bool

namespace Fresh

variable (f : Fresh) (cache : UInt16 → Option (ℕ × ℕ × List Pixel)) (s : Sink)

def stored (slot : UInt16) (i j : ℕ) : Bool :=
  ((cache slot).any fun e => i < e.1 && j < e.2.1) || ((s.gfx_cache slot).any fun e => i < e.1 && j < e.2.1)

/-- A copy of places of the desktop that are fresh is. -/
def copied (sx sy w h dx dy px py : ℕ) : Bool :=
  if Within dx dy w h px py then
    sx + (px - dx) < s.fb_width && sy + (py - dy) < s.fb_height &&
      f.kept (sx + (px - dx)) (sy + (py - dy)) && f.desktop (sx + (px - dx)) (sy + (py - dy))
  else f.desktop px py

def copyRect (sx sy w h dx dy : ℕ) : Fresh :=
  { f with
    desktop := f.copied s sx sy w h dx dy
    kept := fun px py => f.kept px py && !decide (Within dx dy w h px py) }

def cacheRect (slot : UInt16) (sx sy w h : ℕ) : Fresh :=
  { f with cached := Function.update f.cached slot fun i j =>
      i < w && j < h && sx + i < s.fb_width && sy + j < s.fb_height && f.desktop (sx + i) (sy + j) }

def cacheBlit (slot : UInt16) (dx dy : ℕ) : Fresh :=
  { f with desktop := fun px py =>
      if dx ≤ px ∧ dy ≤ py ∧ stored cache s slot (px - dx) (py - dy) = true then f.cached slot (px - dx) (py - dy)
      else f.desktop px py }

def blit : GfxBlit → Fresh
  | .rgba x y w h rgba =>
    { f with desktop := fun px py =>
        if Within x.toNat y.toNat w.toNat h.toNat px py then w.toNat * h.toNat ≤ rgba.length else f.desktop px py }
  | .picture x y w h _ rects =>
    { f with desktop := fun px py =>
        if Within x.toNat y.toNat w.toNat h.toNat px py ∧ Sink.Dirty rects (px - x.toNat) (py - y.toNat) then false
        else f.desktop px py }
  | .copyRect sx sy w h dx dy => f.copyRect s sx.toNat sy.toNat w.toNat h.toNat dx.toNat dy.toNat
  | .cacheRect slot sx sy w h => f.cacheRect s slot sx.toNat sy.toNat w.toNat h.toNat
  | .cacheBlit slot dx dy => f.cacheBlit cache s slot dx.toNat dy.toNat

end Fresh

structure Screen (κ π θ : Type) where
  renderer : MfRenderer κ π θ
  sink : Sink
  fresh : Fresh

namespace Screen

variable {κ π η θ : Type} (codecs : Codecs κ π η) (decoders : AvcDecoders θ)

def new (renderer : MfRenderer κ π θ) : Screen κ π θ :=
  ⟨renderer, .new, ⟨fun _ _ => false, fun _ _ => true, fun _ _ _ => false⟩⟩

variable (m : Screen κ π θ)

def blit (b : GfxBlit) : Screen κ π θ :=
  { m with sink := m.sink.blit b, fresh := m.fresh.blit m.renderer.gfx_cache m.sink b }

def resized : GfxCommand → Screen κ π θ
  | .resetGraphics width height _ =>
    let sink := m.sink.resize width height
    let same := sink.fb_width = m.sink.fb_width ∧ sink.fb_height = m.sink.fb_height
    { m with sink, fresh := if same then m.fresh else { m.fresh with desktop := fun _ _ => false } }
  | _ => m

/-- `run_decode_loop` on one command. -/
def step (command : GfxCommand) : Screen κ π θ :=
  let (renderer, blits) := m.renderer.render codecs decoders command
  let m := m.resized command
  blits.foldl blit { m with renderer, fresh := { m.fresh with kept := fun _ _ => true } }

/-- The places of the desktop that a seed is made of. -/
def seeded : GfxCommand → List (ℕ × ℕ)
  | .wireToSurface1 surface_id codec_id _ dest bitmap =>
    let p := placed (m.renderer.surfaces.origin surface_id) dest.left dest.top
    if codec_id = CODECID_CLEARCODEC ∧ (m.renderer.seed codecs surface_id dest bitmap).isSome then
      ((List.range (dest.width * dest.height)).map fun i => (p.1 + i % dest.width, p.2 + i / dest.width)).filter
        fun q => q.1 < m.sink.fb_width && q.2 < m.sink.fb_height
    else []
  | _ => []

def sized : GfxCommand → Bool
  | .resetGraphics width height _ => 0 < width && width < 65536 && 0 < height && height < 65536
  | _ => true

/-- What a seed is made of was last painted in RGBA. -/
def SeedFresh (command : GfxCommand) : Prop :=
  sized command = true ∧ ∀ q ∈ m.seeded codecs command, m.fresh.desktop q.1 q.2 = true

instance (command : GfxCommand) : Decidable (m.SeedFresh codecs command) := inferInstanceAs (Decidable (_ ∧ _))

def SeedShown : GfxCommand → Prop
  | .wireToSurface1 surface_id codec_id _ dest bitmap =>
    let p := placed (m.renderer.surfaces.origin surface_id) dest.left dest.top
    codec_id = CODECID_CLEARCODEC → ∀ px, m.renderer.seed codecs surface_id dest bitmap = some px →
      px = m.sink.region p.1 p.2 dest.width dest.height
  | _ => True

end Screen

end Rdpio.Client
