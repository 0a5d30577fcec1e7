import Rdpio.Android.Compositor
import Rdpio.Lib.Run

/-!
# Surfaces in one framebuffer

What the commands mean in MS-RDPEGFX: each surface is a bitmap of its own, and mapping one shows it on the
desktop.
-/

namespace Rdpio.Android

open Graphics Lib

structure Bitmap where
  pixel : ℕ → ℕ → Pixel
  known : ℕ → ℕ → Prop

namespace Bitmap

def blank : Bitmap := ⟨fun _ _ => .black, fun _ _ => False⟩

def const (px : Pixel) : Bitmap := ⟨fun _ _ => px, fun _ _ => True⟩

def ofList (w : ℕ) (rgba : List Pixel) : Bitmap := ⟨fun i j => rgba.getD (j * w + i) .black, fun _ _ => True⟩

def shift (b : Bitmap) (x y : ℕ) : Bitmap := ⟨fun i j => b.pixel (x + i) (y + j), fun i j => b.known (x + i) (y + j)⟩

end Bitmap

structure Plane where
  output : Option (UInt32 × UInt32)
  bitmap : Bitmap

structure Egfx where
  width : ℕ
  height : ℕ
  surfaces : UInt16 → Option Plane
  cache : UInt16 → Option (ℕ × ℕ × Bitmap)

namespace Egfx

def new (width height : ℕ) : Egfx := ⟨width, height, fun _ => none, fun _ => none⟩

variable (m : Egfx)

/-- Where the compositor draws a surface. -/
def origin (surface_id : UInt16) : UInt32 × UInt32 := ((m.surfaces surface_id).bind Plane.output).getD (0, 0)

/-- The pixel is shown, within the desktop. -/
def Visible (s : Plane) (x y : ℕ) : Prop := ∃ o, s.output = some o ∧ o.1.toNat + x < m.width ∧ o.2.toNat + y < m.height

/-- The place on the desktop of a surface's pixel lies in a rectangle. -/
def Plane.At (s : Plane) (q : ℕ × ℕ) (w h x y : ℕ) : Prop :=
  ∃ o, s.output = some o ∧ Within q.1 q.2 w h (o.1.toNat + x) (o.2.toNat + y)

def draw (surface_id : UInt16) (x y : UInt16) (w h : ℕ) (src : Bitmap) : Egfx :=
  let q := placed (m.origin surface_id) x y
  { m with surfaces := fun id => (m.surfaces id).map fun s =>
      { s with bitmap :=
          { pixel := fun px py =>
              if id = surface_id ∧ Within x.toNat y.toNat w h px py then src.pixel (px - x.toNat) (py - y.toNat)
              else s.bitmap.pixel px py
            known := fun px py =>
              if id = surface_id ∧ Within x.toNat y.toNat w h px py then
                m.Visible s px py ∧ src.known (px - x.toNat) (py - y.toNat)
              else s.bitmap.known px py ∧ ¬Plane.At s q w h px py } } }

def read (surface_id : UInt16) (x y : UInt16) : Bitmap :=
  match m.surfaces surface_id with
  | some s => s.bitmap.shift x.toNat y.toNat
  | none => .blank

def apply : GfxCommand → Egfx
  | .createSurface surface_id _ _ _ =>
    { m with surfaces := Function.update m.surfaces surface_id (some ⟨none, .blank⟩) }
  | .deleteSurface surface_id => { m with surfaces := Function.update m.surfaces surface_id none }
  | .mapSurfaceToOutput surface_id x y =>
    let mapped := (m.surfaces surface_id).map fun s => ⟨some (x, y), s.bitmap.pixel, fun _ _ => False⟩
    { m with surfaces := Function.update m.surfaces surface_id mapped }
  | .solidFill surface_id color rects =>
    rects.foldl (fun m r => m.draw surface_id r.left r.top r.width r.height (.const (fillPixel color))) m
  | .surfaceToSurface surface_src surface_dst r dest_pts =>
    let src := m.read surface_src r.left r.top
    dest_pts.foldl (fun m p => m.draw surface_dst p.x p.y r.width r.height src) m
  | .surfaceToCache surface_id _ slot r =>
    let stored := (r.width, r.height, m.read surface_id r.left r.top)
    if 0 < r.width ∧ 0 < r.height then { m with cache := Function.update m.cache slot (some stored) } else m
  | .cacheToSurface slot surface_id dest_pts =>
    match m.cache slot with
    | some (w, h, src) => dest_pts.foldl (fun m p => m.draw surface_id p.x p.y w h src) m
    | none => m
  | .wireToSurface1 surface_id _ _ dest bitmap =>
    match toRgba bitmap (dest.right - min dest.left dest.right) (dest.bottom - min dest.top dest.bottom) with
    | some rgba => m.draw surface_id dest.left dest.top dest.width dest.height (.ofList dest.width rgba)
    | none => m
  | _ => m

end Egfx

def Modelled : GfxCommand → Prop
  | .createSurface .. | .deleteSurface _ | .mapSurfaceToOutput .. | .solidFill .. | .surfaceToSurface ..
  | .surfaceToCache .. | .cacheToSurface .. => True
  | .wireToSurface1 _ codec_id _ _ _ => codec_id = CODECID_UNCOMPRESSED
  | _ => False

/-- The rectangle of a canvas now holds what a bitmap knows, and nothing else changed. -/
structure Painted (c c' : Canvas) (q : ℕ × ℕ) (w h : ℕ) (src : Bitmap) : Prop where
  width : c'.width = c.width
  height : c'.height = c.height
  outside : ∀ px py, ¬Within q.1 q.2 w h px py → c'.fb px py = c.fb px py
  inside : ∀ i j, i < w → j < h → q.1 + i < c.width → q.2 + j < c.height → src.known i j →
    c'.fb (q.1 + i) (q.2 + j) = src.pixel i j

structure Holds (rgba : List Pixel) (w h : ℕ) (b : Bitmap) : Prop where
  length : rgba.length = w * h
  pixel : ∀ i j, i < w → j < h → b.known i j → rgba.getD (j * w + i) .black = b.pixel i j

theorem Canvas.mark_width (c : Canvas) (x y w h : ℕ) : (c.mark x y w h).width = c.width := (c.drawn_mark x y w h).width

theorem Canvas.mark_height (c : Canvas) (x y w h : ℕ) : (c.mark x y w h).height = c.height :=
  (c.drawn_mark x y w h).height

theorem fill_outside (c : Canvas) {x y w h : ℕ} (px : Pixel) {px' py' : ℕ} (hout : ¬Within x y w h px' py') :
    (c.fill x y w h px).fb px' py' = c.fb px' py' := by
  unfold Canvas.fill
  split
  · rfl
  · rw [Canvas.mark_fb]
    refine if_neg fun hin => hout ?_
    obtain ⟨h1, h2, h3, h4⟩ := hin
    exact ⟨h1, by omega, h3, by omega⟩

theorem put_outside (c : Canvas) {x y w h : ℕ} (rgba : List Pixel) {px' py' : ℕ} (hout : ¬Within x y w h px' py') :
    (c.put x y w h rgba).fb px' py' = c.fb px' py' := by
  unfold Canvas.put
  split
  · rfl
  · rw [Canvas.mark_fb]
    refine if_neg fun hin => hout ?_
    obtain ⟨h1, h2, h3, h4⟩ := hin.1
    exact ⟨h1, by omega, h3, by omega⟩

theorem copyWithin_outside (c : Canvas) {sx sy w h dx dy : ℕ} {px' py' : ℕ} (hout : ¬Within dx dy w h px' py') :
    (c.copyWithin sx sy w h dx dy).fb px' py' = c.fb px' py' := by
  unfold Canvas.copyWithin
  split
  · rfl
  · rw [Canvas.mark_fb]
    refine (foldl_copyRow_ordered ..).trans (if_neg fun hin => hout ?_)
    obtain ⟨h1, h2, h3, h4⟩ := hin
    exact ⟨h1, by omega, h3, by omega⟩

theorem fill_size (c : Canvas) (x y w h : ℕ) (px : Pixel) :
    (c.fill x y w h px).width = c.width ∧ (c.fill x y w h px).height = c.height := by
  unfold Canvas.fill
  split
  · exact ⟨rfl, rfl⟩
  · exact ⟨Canvas.mark_width .., Canvas.mark_height ..⟩

theorem put_size (c : Canvas) (x y w h : ℕ) (rgba : List Pixel) :
    (c.put x y w h rgba).width = c.width ∧ (c.put x y w h rgba).height = c.height := by
  unfold Canvas.put
  split
  · exact ⟨rfl, rfl⟩
  · exact ⟨Canvas.mark_width .., Canvas.mark_height ..⟩

theorem copyWithin_size (c : Canvas) (sx sy w h dx dy : ℕ) :
    (c.copyWithin sx sy w h dx dy).width = c.width ∧ (c.copyWithin sx sy w h dx dy).height = c.height := by
  unfold Canvas.copyWithin
  split
  · exact ⟨rfl, rfl⟩
  · exact ⟨Canvas.mark_width .., Canvas.mark_height ..⟩

theorem painted_fill (c : Canvas) (q : ℕ × ℕ) (w h : ℕ) (px : Pixel) :
    Painted c (c.fill q.1 q.2 w h px) q w h (.const px) := by
  refine ⟨(fill_size ..).1, (fill_size ..).2, fun _ _ hout => fill_outside c px hout, fun i j hi hj hx hy _ => ?_⟩
  unfold Canvas.fill
  rw [if_neg (by omega), Canvas.mark_fb]
  exact if_pos ⟨by omega, by omega, by omega, by omega⟩

theorem painted_put (c : Canvas) (q : ℕ × ℕ) {w h : ℕ} {rgba : List Pixel} {src : Bitmap}
    (hsrc : Holds rgba w h src) : Painted c (c.put q.1 q.2 w h rgba) q w h src := by
  refine ⟨(put_size ..).1, (put_size ..).2, fun _ _ hout => put_outside c rgba hout, fun i j hi hj hx hy hknown => ?_⟩
  have hrow : j * w + min (c.width - q.1) w ≤ rgba.length :=
    calc j * w + min (c.width - q.1) w ≤ j * w + w := by omega
      _ = (j + 1) * w := (Nat.succ_mul j w).symm
      _ ≤ h * w := Nat.mul_le_mul_right w hj
      _ = rgba.length := by rw [hsrc.length, Nat.mul_comm]
  unfold Canvas.put
  rw [if_neg (by omega), Canvas.mark_fb, ← hsrc.pixel i j hi hj hknown]
  show (if _ then rgba.getD ((q.2 + j - q.2) * w + (q.1 + i - q.1)) .black else _) = _
  rw [Nat.add_sub_cancel_left, Nat.add_sub_cancel_left]
  exact if_pos ⟨⟨by omega, by omega, by omega, by omega⟩, hrow⟩

theorem painted_copyWithin (c : Canvas) (s q : ℕ × ℕ) {w h : ℕ} {src : Bitmap}
    (hsrc : ∀ i j, i < w → j < h → src.known i j →
      s.1 + i < c.width ∧ s.2 + j < c.height ∧ c.fb (s.1 + i) (s.2 + j) = src.pixel i j) :
    Painted c (c.copyWithin s.1 s.2 w h q.1 q.2) q w h src := by
  refine ⟨(copyWithin_size ..).1, (copyWithin_size ..).2, fun _ _ hout => copyWithin_outside c hout,
    fun i j hi hj hx hy hknown => ?_⟩
  obtain ⟨hsx, hsy, hpx⟩ := hsrc i j hi hj hknown
  unfold Canvas.copyWithin
  rw [if_neg (by omega), Canvas.mark_fb]
  refine (foldl_copyRow_ordered ..).trans ?_
  rw [if_pos ⟨by omega, by omega, by omega, by omega⟩, Nat.add_sub_cancel_left, Nat.add_sub_cancel_left, hpx]

theorem holds_region (c : Canvas) (s : ℕ × ℕ) {w h : ℕ} {src : Bitmap}
    (hsrc : ∀ i j, i < w → j < h → src.known i j →
      s.1 + i < c.width ∧ s.2 + j < c.height ∧ c.fb (s.1 + i) (s.2 + j) = src.pixel i j) :
    Holds (c.region s.1 s.2 w h) w h src := by
  refine ⟨by rw [Canvas.region, List.length_map, List.length_range], fun i j hi hj hknown => ?_⟩
  obtain ⟨hsx, hsy, hpx⟩ := hsrc i j hi hj hknown
  rw [Canvas.region, getD_grid (fun i j => if s.1 + i < c.width ∧ s.2 + j < c.height then c.fb (s.1 + i) (s.2 + j)
    else .black) hi hj, if_pos ⟨hsx, hsy⟩, hpx]

/-! ## The framebuffer holds what the model knows -/

/-- The desktop shows what the model knows. -/
structure Shown (m : Egfx) (c : Canvas) : Prop where
  width : c.width = m.width
  height : c.height = m.height
  fb : ∀ id s, m.surfaces id = some s → ∀ x y, s.bitmap.known x y →
    ∃ o, s.output = some o ∧ o.1.toNat + x < c.width ∧ o.2.toNat + y < c.height ∧
      c.fb (o.1.toNat + x) (o.2.toNat + y) = s.bitmap.pixel x y

namespace Egfx

theorem draw_origin (m : Egfx) (id : UInt16) (x y : UInt16) (w h : ℕ) (src : Bitmap) (surface_id : UInt16) :
    (m.draw id x y w h src).origin surface_id = m.origin surface_id := by
  show (((m.surfaces surface_id).map _).bind Plane.output).getD _ = _
  rw [Option.bind_map]
  rfl

theorem foldl_draw {α : Type} (m : Egfx) (id : UInt16) (x y : α → UInt16) (w h : α → ℕ) (src : Bitmap)
    (items : List α) :
    ∃ surfaces, items.foldl (fun m a => m.draw id (x a) (y a) (w a) (h a) src) m = { m with surfaces } ∧
      ∀ id, (surfaces id).map Plane.output = (m.surfaces id).map Plane.output := by
  induction items generalizing m with
  | nil => exact ⟨m.surfaces, rfl, fun _ => rfl⟩
  | cons a items ih =>
    obtain ⟨surfaces, heq, houtput⟩ := ih (m.draw id (x a) (y a) (w a) (h a) src)
    refine ⟨surfaces, heq, fun id' => (houtput id').trans ?_⟩
    show ((m.surfaces id').map _).map _ = _
    rw [Option.map_map]
    rfl

theorem placed_of_visible {m : Egfx} (hw : m.width ≤ 2 ^ 32) (hh : m.height ≤ 2 ^ 32) {id : UInt16} {s : Plane}
    (hs : m.surfaces id = some s) {o : UInt32 × UInt32} (ho : s.output = some o) {x y : UInt16}
    (hx : o.1.toNat + x.toNat < m.width) (hy : o.2.toNat + y.toNat < m.height) :
    placed (m.origin id) x y = (o.1.toNat + x.toNat, o.2.toNat + y.toNat) := by
  have horigin : m.origin id = o := by rw [origin, hs, Option.bind_some, ho, Option.getD_some]
  rw [horigin]
  exact placed_of_lt (by omega) (by omega)

end Egfx

theorem Shown.draw {m : Egfx} {c c' : Canvas} (h : Shown m c) (hw : m.width ≤ 2 ^ 32) (hh : m.height ≤ 2 ^ 32)
    {id : UInt16} {x y : UInt16} {w h' : ℕ} {src : Bitmap}
    (hpaint : Painted c c' (placed (m.origin id) x y) w h' src) : Shown (m.draw id x y w h' src) c' := by
  refine ⟨hpaint.width.trans h.width, hpaint.height.trans h.height, fun id' s' hs' px py hknown => ?_⟩
  obtain ⟨s, hs, rfl⟩ := Option.map_eq_some_iff.mp hs'
  by_cases hin : id' = id ∧ Within x.toNat y.toNat w h' px py
  · -- Drawn just now: the place does not wrap, since it is within the desktop.
    obtain ⟨⟨o, ho, hx, hy⟩, hsrc⟩ := (if_pos hin).mp hknown
    obtain ⟨rfl, h1, h2, h3, h4⟩ := hin
    have hplaced := Egfx.placed_of_visible hw hh hs ho (x := x) (y := y) (by omega) (by omega)
    have hinside := hpaint.inside (px - x.toNat) (py - y.toNat) (by omega) (by omega)
      (by rw [hplaced, h.width]; show o.1.toNat + x.toNat + _ < _; omega)
      (by rw [hplaced, h.height]; show o.2.toNat + y.toNat + _ < _; omega) hsrc
    rw [hplaced] at hinside
    refine ⟨o, ho, by rw [hpaint.width, h.width]; exact hx, by rw [hpaint.height, h.height]; exact hy, ?_⟩
    calc c'.fb (o.1.toNat + px) (o.2.toNat + py)
        = c'.fb (o.1.toNat + x.toNat + (px - x.toNat)) (o.2.toNat + y.toNat + (py - y.toNat)) := by
          rw [Nat.add_assoc, Nat.add_sub_cancel' h1, Nat.add_assoc, Nat.add_sub_cancel' h3]
      _ = src.pixel (px - x.toNat) (py - y.toNat) := hinside
      _ = _ := (if_pos ⟨rfl, h1, h2, h3, h4⟩).symm
  · obtain ⟨hbefore, hapart⟩ := (if_neg hin).mp hknown
    obtain ⟨o, ho, hx, hy, hfb⟩ := h.fb id' s hs px py hbefore
    refine ⟨o, ho, by rw [hpaint.width]; exact hx, by rw [hpaint.height]; exact hy, ?_⟩
    rw [hpaint.outside _ _ fun hat => hapart ⟨o, ho, hat⟩, hfb]
    exact (if_neg hin).symm

theorem Shown.drawAll {α : Type} {m : Egfx} {c : Canvas} (h : Shown m c) (hw : m.width ≤ 2 ^ 32)
    (hh : m.height ≤ 2 ^ 32) {id : UInt16} (x y : α → UInt16) (w h' : α → ℕ) (src : Bitmap)
    (paint : Canvas → α → Canvas) (items : List α)
    (hpaint : ∀ c a, a ∈ items → Painted c (paint c a) (placed (m.origin id) (x a) (y a)) (w a) (h' a) src) :
    Shown (items.foldl (fun m a => m.draw id (x a) (y a) (w a) (h' a) src) m) (items.foldl paint c) := by
  induction items generalizing m c with
  | nil => exact h
  | cons a items ih =>
    refine ih (h.draw hw hh (hpaint c a List.mem_cons_self)) hw hh fun c' a' ha' => ?_
    rw [Egfx.draw_origin]
    exact hpaint c' a' (List.mem_cons_of_mem a ha')

theorem Shown.read {m : Egfx} {c : Canvas} (h : Shown m c) (hw : m.width ≤ 2 ^ 32) (hh : m.height ≤ 2 ^ 32)
    {id : UInt16} {x y : UInt16} (i j : ℕ) (hknown : (m.read id x y).known i j) :
    (placed (m.origin id) x y).1 + i < c.width ∧ (placed (m.origin id) x y).2 + j < c.height ∧
      c.fb ((placed (m.origin id) x y).1 + i) ((placed (m.origin id) x y).2 + j) = (m.read id x y).pixel i j := by
  unfold Egfx.read at hknown ⊢
  rcases hs : m.surfaces id with _ | s
  · rw [hs] at hknown
    exact hknown.elim
  · rw [hs] at hknown
    obtain ⟨o, ho, hx, hy, hfb⟩ := h.fb id s hs _ _ hknown
    rw [← Nat.add_assoc] at hx hy
    have hplaced := Egfx.placed_of_visible hw hh hs ho (x := x) (y := y) (by have := h.width; omega)
      (by have := h.height; omega)
    rw [hplaced]
    refine ⟨hx, hy, ?_⟩
    rw [← Nat.add_assoc, ← Nat.add_assoc] at hfb
    exact hfb

/-- The compositor holds what the model knows, in its framebuffer and in its cache. -/
structure Holding {κ π η : Type} (m : Egfx) (c : Compositor κ π η) : Prop where
  shown : Shown m c.canvas
  width : m.width ≤ 2 ^ 32
  height : m.height ≤ 2 ^ 32
  table : ∀ id, (c.surfaces id).map Graphics.Surface.output = (m.surfaces id).map Plane.output
  cache : ∀ slot, (c.cache slot = none ∧ m.cache slot = none) ∨
    ∃ w h px b, c.cache slot = some (w, h, px) ∧ m.cache slot = some (w, h, b) ∧ Holds px w h b

namespace Holding

variable {κ π η : Type} {codecs : Codecs κ π η} {m : Egfx} {c : Compositor κ π η}

theorem origin (h : Holding m c) (id : UInt16) : c.surfaces.origin id = m.origin id := by
  have htable := h.table id
  unfold SurfaceTable.origin SurfaceTable.outputOrigin Egfx.origin
  rcases hc : c.surfaces id with _ | s <;> rcases hm : m.surfaces id with _ | s'
  · rfl
  · rw [hc, hm] at htable
    exact absurd htable (by simp)
  · rw [hc, hm] at htable
    exact absurd htable (by simp)
  · rw [hc, hm] at htable
    rw [Option.map_some, Option.bind_some, Option.getD_some, ← Option.some.inj htable]

theorem draw (h : Holding m c) {id : UInt16} {x y : UInt16} {w h' : ℕ} {src : Bitmap} {canvas : Canvas}
    (hpaint : Painted c.canvas canvas (placed (c.surfaces.origin id) x y) w h' src) :
    Holding (m.draw id x y w h' src) (c.draw canvas) := by
  rw [h.origin] at hpaint
  refine ⟨h.shown.draw h.width h.height hpaint, h.width, h.height, fun id' => (h.table id').trans ?_, h.cache⟩
  show _ = ((m.surfaces id').map _).map _
  rw [Option.map_map]
  rfl

theorem drawAll (h : Holding m c) {α : Type} {id : UInt16} (x y : α → UInt16) (w h' : α → ℕ) (src : Bitmap)
    (paint : Canvas → α → Canvas) (items : List α)
    (hpaint : ∀ canvas a, a ∈ items →
      Painted canvas (paint canvas a) (placed (c.surfaces.origin id) (x a) (y a)) (w a) (h' a) src) :
    Holding (items.foldl (fun m a => m.draw id (x a) (y a) (w a) (h' a) src) m)
      (c.draw (items.foldl paint c.canvas)) := by
  rw [h.origin] at hpaint
  have hshown := h.shown.drawAll h.width h.height x y w h' src paint items hpaint
  obtain ⟨surfaces, heq, houtput⟩ := m.foldl_draw id x y w h' src items
  rw [heq] at hshown ⊢
  exact ⟨hshown, h.width, h.height, fun id' => (h.table id').trans (houtput id').symm, h.cache⟩

theorem putAll (h : Holding m c) {id : UInt16} {w h' : ℕ} {rgba : List Pixel} {src : Bitmap}
    (hsrc : Holds rgba w h' src) (dest_pts : List Point16) :
    Holding (dest_pts.foldl (fun m p => m.draw id p.x p.y w h' src) m)
      (c.putAll (c.surfaces.origin id) w h' rgba dest_pts) :=
  h.drawAll Point16.x Point16.y (fun _ => w) (fun _ => h') src _ dest_pts
    fun canvas p _ => painted_put canvas (placed _ p.x p.y) hsrc

theorem solidFill (h : Holding m c) (id : UInt16) (color : UInt32) (rects : List Rect16) :
    Holding (m.apply (.solidFill id color rects)) (c.solidFill id color rects) :=
  h.drawAll Rect16.left Rect16.top Rect16.width Rect16.height _ _ rects
    fun canvas r _ => painted_fill canvas (placed _ r.left r.top) r.width r.height (fillPixel color)

theorem source (h : Holding m c) (id : UInt16) (r : Rect16) (i j : ℕ)
    (hknown : (m.read id r.left r.top).known i j) :
    (placed (c.surfaces.origin id) r.left r.top).1 + i < c.canvas.width ∧
      (placed (c.surfaces.origin id) r.left r.top).2 + j < c.canvas.height ∧
      c.canvas.fb ((placed (c.surfaces.origin id) r.left r.top).1 + i)
        ((placed (c.surfaces.origin id) r.left r.top).2 + j) = (m.read id r.left r.top).pixel i j := by
  rw [h.origin]
  exact h.shown.read h.width h.height i j hknown

theorem drawAll_empty (h : Holding m c) {id : UInt16} {w h' : ℕ} (hempty : ¬(0 < w ∧ 0 < h')) (src : Bitmap)
    (dest_pts : List Point16) :
    Holding (dest_pts.foldl (fun m p => m.draw id p.x p.y w h' src) m) c := by
  have hpaint : ∀ canvas (p : Point16), p ∈ dest_pts →
      Painted canvas canvas (placed (c.surfaces.origin id) p.x p.y) w h' src := fun canvas p _ =>
    ⟨rfl, rfl, fun _ _ _ => rfl, fun i j hi hj => absurd ⟨by omega, by omega⟩ hempty⟩
  have hdraw := h.drawAll Point16.x Point16.y (fun _ => w) (fun _ => h') src (fun canvas _ => canvas) dest_pts hpaint
  rw [List.foldl_fixed] at hdraw
  exact hdraw

theorem surfaceToSurface (h : Holding m c) (surface_src surface_dst : UInt16) (r : Rect16)
    (dest_pts : List Point16) :
    Holding (m.apply (.surfaceToSurface surface_src surface_dst r dest_pts))
      (c.surfaceToSurface surface_src surface_dst r dest_pts) := by
  unfold Compositor.surfaceToSurface
  dsimp only
  by_cases hsize : 0 < r.width ∧ 0 < r.height
  · rw [if_pos hsize]
    have hsrc := fun i j (_ : i < r.width) (_ : j < r.height) => h.source surface_src r i j
    split
    case h_1 p =>
      -- One destination: in place.
      exact h.draw (painted_copyWithin c.canvas _ _ hsrc)
    case h_2 => exact h.putAll (holds_region c.canvas _ hsrc) dest_pts
  · rw [if_neg hsize]
    exact h.drawAll_empty hsize _ dest_pts

theorem surfaceToCache (h : Holding m c) (id : UInt16) (cache_key : UInt64) (slot : UInt16) (r : Rect16) :
    Holding (m.apply (.surfaceToCache id cache_key slot r)) (c.surfaceToCache id slot r) := by
  unfold Egfx.apply Compositor.surfaceToCache
  dsimp only
  by_cases hsize : 0 < r.width ∧ 0 < r.height
  · rw [if_pos hsize, if_pos hsize]
    refine ⟨⟨h.shown.width, h.shown.height, h.shown.fb⟩, h.width, h.height, h.table, fun slot' => ?_⟩
    by_cases hslot : slot' = slot
    · have hregion := holds_region c.canvas _ (w := r.width) (h := r.height) fun i j _ _ => h.source id r i j
      rw [hslot]
      exact .inr ⟨_, _, _, _, Function.update_self .., Function.update_self .., hregion⟩
    · show (Function.update _ _ _ _ = _ ∧ Function.update _ _ _ _ = _) ∨ ∃ _ _ _ _, Function.update _ _ _ _ = _ ∧
        Function.update _ _ _ _ = _ ∧ _
      rw [Function.update_of_ne hslot, Function.update_of_ne hslot]
      exact h.cache slot'
  · rw [if_neg hsize, if_neg hsize]
    exact h

theorem cacheToSurface (h : Holding m c) (slot id : UInt16) (dest_pts : List Point16) :
    Holding (m.apply (.cacheToSurface slot id dest_pts)) (c.cacheToSurface slot id dest_pts) := by
  unfold Egfx.apply Compositor.cacheToSurface
  dsimp only
  obtain ⟨hc, hm⟩ | ⟨w, h', px, b, hc, hm, hpx⟩ := h.cache slot
  · rw [hc, hm]
    exact h
  · rw [hc, hm]
    exact h.putAll hpx dest_pts

theorem holds_toRgba {data : List UInt8} {dest : Rect16} {rgba : List Pixel}
    (hrgba : toRgba data (dest.right - min dest.left dest.right) (dest.bottom - min dest.top dest.bottom) = some rgba) :
    Holds rgba dest.width dest.height (.ofList dest.width rgba) := by
  refine ⟨?_, fun _ _ _ _ _ => rfl⟩
  unfold toRgba at hrgba
  dsimp only at hrgba
  split at hrgba
  · cases hrgba
  · split at hrgba
    · cases hrgba
    · rw [← Option.some.inj hrgba, List.length_map, List.length_range, toNat_saturatingSub, toNat_saturatingSub]
      rfl

theorem uncompressed (h : Holding m c) (id codec_id : UInt16) (pixel_format : UInt8) (dest : Rect16)
    (bitmap : List UInt8) :
    Holding (m.apply (.wireToSurface1 id codec_id pixel_format dest bitmap)) (c.uncompressed id dest bitmap) := by
  unfold Egfx.apply Compositor.uncompressed
  dsimp only
  rcases hrgba : toRgba bitmap (dest.right - min dest.left dest.right) (dest.bottom - min dest.top dest.bottom)
    with _ | rgba
  · exact h
  · exact h.draw (painted_put c.canvas _ (holds_toRgba hrgba))

theorem update (h : Holding m c) (id : UInt16) (s : Option Graphics.Surface) (s' : Option Plane)
    (hs : s.map Graphics.Surface.output = s'.map Plane.output) (hnone : ∀ p, s' = some p → ∀ x y, ¬p.bitmap.known x y)
    (progressive : UInt16 → Option π) (h264 : UInt16 → Option η) :
    Holding { m with surfaces := Function.update m.surfaces id s' }
      { c with surfaces := Function.update c.surfaces id s, progressive, h264 } := by
  refine ⟨⟨h.shown.width, h.shown.height, fun id' p hp x y hknown => ?_⟩, h.width, h.height, fun id' => ?_, h.cache⟩
  · have hp : Function.update m.surfaces id s' id' = some p := hp
    by_cases hid : id' = id
    · rw [hid, Function.update_self] at hp
      exact absurd hknown (hnone p hp x y)
    · rw [Function.update_of_ne hid] at hp
      exact h.shown.fb id' p hp x y hknown
  · show Option.map Graphics.Surface.output (Function.update c.surfaces id s id') =
      Option.map Plane.output (Function.update m.surfaces id s' id')
    by_cases hid : id' = id
    · rw [hid, Function.update_self, Function.update_self]
      exact hs
    · rw [Function.update_of_ne hid, Function.update_of_ne hid]
      exact h.table id'

theorem apply (h : Holding m c) {command : GfxCommand} (hcommand : Modelled command) :
    Holding (m.apply command) (c.apply codecs command) := by
  cases command with
  | createSurface id width height pixel_format =>
    exact h.update id _ _ rfl (fun p hp _ _ => by cases hp; exact not_false) c.progressive c.h264
  | deleteSurface id => exact h.update id none none rfl (fun p hp => by cases hp) _ _
  | mapSurfaceToOutput id x y =>
    unfold Compositor.apply
    rw [SurfaceTable.apply_map]
    refine h.update id _ _ ?_ (fun p hp _ _ hknown => ?_) c.progressive c.h264
    · have htable := congrArg (Option.map fun _ => some (x, y)) (h.table id)
      rw [Option.map_map, Option.map_map] at htable ⊢
      exact htable
    · obtain ⟨s, hs, rfl⟩ := Option.map_eq_some_iff.mp hp
      exact hknown
  | solidFill id color rects => exact h.solidFill id color rects
  | surfaceToSurface src dst r dest_pts => exact h.surfaceToSurface src dst r dest_pts
  | surfaceToCache id cache_key slot r => exact h.surfaceToCache id cache_key slot r
  | cacheToSurface slot id dest_pts => exact h.cacheToSurface slot id dest_pts
  | wireToSurface1 id codec_id pixel_format dest bitmap =>
    have huncompressed := h.uncompressed id codec_id pixel_format dest bitmap
    have hcodec : codec_id = CODECID_UNCOMPRESSED := hcommand
    rw [hcodec] at huncompressed ⊢
    exact huncompressed
  | _ => exact hcommand.elim

end Holding

/-! ## Runs -/

def Compositor.touches {κ π η : Type} (c : Compositor κ π η) : GfxCommand → List ((ℕ × ℕ) × ℕ × ℕ)
  | .solidFill surface_id _ rects =>
    rects.map fun r => (placed (c.surfaces.origin surface_id) r.left r.top, r.width, r.height)
  | .surfaceToSurface _ surface_dst r dest_pts =>
    dest_pts.map fun p => (placed (c.surfaces.origin surface_dst) p.x p.y, r.width, r.height)
  | .cacheToSurface slot surface_id dest_pts =>
    dest_pts.map fun p => (placed (c.surfaces.origin surface_id) p.x p.y, ((c.cache slot).map (·.1)).getD 0,
      ((c.cache slot).map (·.2.1)).getD 0)
  | .wireToSurface1 surface_id _ _ dest _ =>
    [(placed (c.surfaces.origin surface_id) dest.left dest.top, dest.width, dest.height)]
  | _ => []

/-- The place lies in none of some rectangles. -/
def Outside (qs : List ((ℕ × ℕ) × ℕ × ℕ)) (px py : ℕ) : Prop := ∀ q ∈ qs, ¬Within q.1.1 q.1.2 q.2.1 q.2.2 px py

theorem foldl_outside {α : Type} {paint : Canvas → α → Canvas} {q : α → (ℕ × ℕ) × ℕ × ℕ} {items : List α} {px py : ℕ}
    (hout : Outside (items.map q) px py)
    (hpaint : ∀ c a, ¬Within (q a).1.1 (q a).1.2 (q a).2.1 (q a).2.2 px py → (paint c a).fb px py = c.fb px py)
    (c : Canvas) : (items.foldl paint c).fb px py = c.fb px py := by
  induction items generalizing c with
  | nil => rfl
  | cons a items ih =>
    rw [List.foldl_cons, ih (fun q hq => hout q (List.mem_cons_of_mem _ hq))]
    exact hpaint c a (hout (q a) List.mem_cons_self)

section Frame

variable {κ π η : Type} {codecs : Codecs κ π η} (c : Compositor κ π η)

theorem putAll_outside {o : UInt32 × UInt32} {w h : ℕ} (rgba : List Pixel) {dest_pts : List Point16} {px py : ℕ}
    (hout : Outside (dest_pts.map fun p => (placed o p.x p.y, w, h)) px py) :
    (c.putAll o w h rgba dest_pts).canvas.fb px py = c.canvas.fb px py :=
  foldl_outside hout (fun canvas _ hpoint => put_outside canvas rgba hpoint) c.canvas

theorem apply_outside {command : GfxCommand} (hcommand : Modelled command) {px py : ℕ}
    (hout : Outside (c.touches command) px py) :
    (c.apply codecs command).canvas.fb px py = c.canvas.fb px py := by
  cases command with
  | createSurface | deleteSurface | mapSurfaceToOutput => rfl
  | solidFill id color rects => exact foldl_outside hout (fun canvas _ hrect => fill_outside canvas _ hrect) c.canvas
  | surfaceToSurface src dst r dest_pts =>
    show (c.surfaceToSurface src dst r dest_pts).canvas.fb px py = _
    unfold Compositor.surfaceToSurface
    dsimp only
    split
    · split
      · exact copyWithin_outside c.canvas (hout _ List.mem_cons_self)
      · exact putAll_outside c _ hout
    · rfl
  | surfaceToCache id cache_key slot r =>
    show (c.surfaceToCache id slot r).canvas.fb px py = _
    unfold Compositor.surfaceToCache
    dsimp only
    split <;> rfl
  | cacheToSurface slot id dest_pts =>
    show (c.cacheToSurface slot id dest_pts).canvas.fb px py = _
    unfold Compositor.touches at hout
    dsimp only at hout
    unfold Compositor.cacheToSurface
    rcases hslot : c.cache slot with _ | ⟨w, h, rgba⟩
    · rfl
    · rw [hslot] at hout
      exact putAll_outside c rgba hout
  | wireToSurface1 id codec_id pixel_format dest bitmap =>
    have hcodec : codec_id = CODECID_UNCOMPRESSED := hcommand
    rw [hcodec]
    show (c.uncompressed id dest bitmap).canvas.fb px py = _
    unfold Compositor.uncompressed
    dsimp only
    split
    · exact put_outside c.canvas _ (hout _ List.mem_cons_self)
    · rfl
  | _ => exact hcommand.elim

end Frame

theorem holding_run {κ π η : Type} (codecs : Codecs κ π η) (clear : κ) (width height : UInt32)
    {commands : List GfxCommand} (hcommands : ∀ command ∈ commands, Modelled command) :
    Holding (run Egfx.apply (Egfx.new width.toNat height.toNat) commands)
      (run (Compositor.apply codecs) (.new width height clear) commands) := by
  induction commands using List.reverseRecOn with
  | nil =>
    exact ⟨⟨rfl, rfl, fun _ _ hs => by cases hs⟩, width.toNat_lt.le, height.toNat_lt.le, fun _ => rfl,
      fun _ => .inl ⟨rfl, rfl⟩⟩
  | append_singleton commands command ih =>
    rw [run_concat, run_concat]
    exact (ih fun command' hmem => hcommands command' (List.mem_append_left _ hmem)).apply
      (hcommands command (List.mem_append_right _ List.mem_cons_self))

/-- **What the desktop shows of the surfaces**: after any run, of a mapped surface what the model knows, at the
surface's origin. -/
theorem shows_what_is_known {κ π η : Type} (codecs : Codecs κ π η) (clear : κ) (width height : UInt32)
    (commands : List GfxCommand) (hcommands : ∀ command ∈ commands, Modelled command) :
    let m := run Egfx.apply (Egfx.new width.toNat height.toNat) commands
    let c := run (Compositor.apply codecs) (.new width height clear) commands
    (∀ id s o, m.surfaces id = some s → s.output = some o → ∀ x y, s.bitmap.known x y →
      c.canvas.fb (o.1.toNat + x) (o.2.toNat + y) = s.bitmap.pixel x y) ∧
    (∀ id, (∀ s, m.surfaces id = some s → s.output = none) → c.surfaces.origin id = (0, 0)) ∧
    ∀ command, Modelled command → ∀ px py, Outside (c.touches command) px py →
      (c.apply codecs command).canvas.fb px py = c.canvas.fb px py := by
  have hholding := holding_run codecs clear width height hcommands
  refine ⟨fun id s o hs ho x y hknown => ?_, fun id hunmapped => ?_, fun command hcommand px py hout => ?_⟩
  · obtain ⟨o', ho', _, _, hfb⟩ := hholding.shown.fb id s hs x y hknown
    rw [ho, Option.some.injEq] at ho'
    rw [ho']
    exact hfb
  · rw [hholding.origin, Egfx.origin]
    rcases hs : (run Egfx.apply (Egfx.new width.toNat height.toNat) commands).surfaces id with _ | s
    · rfl
    · rw [Option.bind_some, hunmapped s hs]
      rfl
  · exact apply_outside _ hcommand hout

def noCodecs : Codecs Unit Unit Unit where
  needsSeed _ _ _ := false
  decodeSeeded _ _ _ _ _ := ((), none)
  progressive := ()
  decode _ _ _ := ((), [])
  deleteContext _ _ := ()
  decodeAvc _ _ _ _ := (none, none)

/-- A surface at (2, 1), filled with red. -/
theorem shows_what_is_known_fill : (run (Compositor.apply noCodecs) (.new 8 4 ())
      [.createSurface 1 4 3 0x20, .mapSurfaceToOutput 1 2 1, .solidFill 1 0xFF0000 [⟨0, 0, 2, 2⟩]]).canvas.fb
        (2 + 1) (1 + 1) = ⟨255, 0, 0, 255⟩ :=
  (shows_what_is_known noCodecs () 8 4
    [.createSurface 1 4 3 0x20, .mapSurfaceToOutput 1 2 1, .solidFill 1 0xFF0000 [⟨0, 0, 2, 2⟩]]
    (by simp [Modelled])).1 1 _ (2, 1) rfl rfl 1 1
    ⟨⟨(2, 1), rfl, by decide, by decide⟩, trivial⟩

/-- A fill of a surface that is not mapped covers the pixel of one that is: red in its bitmap, blue on the
desktop. -/
theorem unmapped_is_drawn :
    let commands := [.createSurface 1 4 3 0x20, .mapSurfaceToOutput 1 0 0, .solidFill 1 0xFF0000 [⟨0, 0, 2, 2⟩],
      .createSurface 2 4 3 0x20, .solidFill 2 0x0000FF [⟨0, 0, 1, 1⟩]]
    ((run Egfx.apply (.new 8 4) commands).surfaces 1).map (·.output) = some (some (0, 0)) ∧
    ((run Egfx.apply (.new 8 4) commands).surfaces 1).map (·.bitmap.pixel 0 0) = some ⟨255, 0, 0, 255⟩ ∧
    ((run Egfx.apply (.new 8 4) commands).surfaces 2).map (·.output) = some none ∧
    (run (Compositor.apply noCodecs) (.new 8 4 ()) commands).canvas.fb 0 0 = ⟨0, 0, 255, 255⟩ := by
  decide +kernel

end Rdpio.Android
