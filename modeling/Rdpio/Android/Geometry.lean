import Rdpio.Client.Both

/-!
# Where commands paint

What `Compositor::apply` means to do with a command that paints: patches of the desktop (`patches`), each at
an origin plus a coordinate over the integers, cut to the desktop, with a source for each of its pixels.
-/

namespace Rdpio.Android.Geometry

open Graphics Client

structure Patch where
  x : ℕ
  y : ℕ
  w : ℕ
  h : ℕ
  pixel : ℕ → ℕ → Pixel

def Patch.over (p : Patch) (px py : ℕ) (v : Pixel) : Pixel :=
  if Within p.x p.y p.w p.h px py then p.pixel (px - p.x) (py - p.y) else v

def paint (ps : List Patch) (px py : ℕ) (v : Pixel) : Pixel := ps.foldl (fun v p => p.over px py v) v

def corner (o : UInt32 × UInt32) (x y : UInt16) : ℕ × ℕ := (o.1.toNat + x.toNat, o.2.toNat + y.toNat)

/-- The desktop from a corner on, black outside. -/
def source (c : Canvas) (s : ℕ × ℕ) (i j : ℕ) : Pixel :=
  if s.1 + i < c.width ∧ s.2 + j < c.height then c.fb (s.1 + i) (s.2 + j) else .black

/-- The pixel of a tile's 32-bit B, G, R, X data. -/
def bgrx (bitmap : List UInt8) (w i j : ℕ) : Pixel :=
  ⟨bitmap.getD (4 * (j * w + i) + 2) 0, bitmap.getD (4 * (j * w + i) + 1) 0, bitmap.getD (4 * (j * w + i)) 0, 0xFF⟩

section Commands

variable {κ π η : Type} (codecs : Codecs κ π η) (c : Compositor κ π η)

abbrev origin (surface_id : UInt16) : UInt32 × UInt32 := c.surfaces.origin surface_id

def picture (surface_id : UInt16) (bitmap : List UInt8) : Option ((ℕ → ℕ → Pixel) × List Rect16) :=
  (codecs.decodeAvc (c.h264 surface_id) (c.surfaces surface_id) (c.canvas.width, c.canvas.height) bitmap).2

def isAvc (codec_id : UInt16) : Bool := codec_id == CODECID_AVC420 || codec_id == CODECID_CAVIDEO

def patchesAt (o : UInt32 × UInt32) (w h : ℕ) (pixel : ℕ → ℕ → Pixel) (dest_pts : List Point16) : List Patch :=
  dest_pts.map fun p => ⟨(corner o p.x p.y).1, (corner o p.x p.y).2, w, h, pixel⟩

def patches : GfxCommand → List Patch
  | .solidFill surface_id color rects =>
    rects.map fun r => ⟨(corner (origin c surface_id) r.left r.top).1, (corner (origin c surface_id) r.left r.top).2,
      r.width, r.height, fun _ _ => fillPixel color⟩
  | .surfaceToSurface surface_src surface_dst r dest_pts =>
    patchesAt (origin c surface_dst) r.width r.height (source c.canvas (corner (origin c surface_src) r.left r.top))
      dest_pts
  | .cacheToSurface slot surface_id dest_pts =>
    match c.cache slot with
    | some (w, h, px) => patchesAt (origin c surface_id) w h (fun i j => px.getD (j * w + i) .black) dest_pts
    | none => []
  | .wireToSurface1 surface_id codec_id _ dest bitmap =>
    if isAvc codec_id then
      match picture codecs c surface_id bitmap with
      | some (pic, rects) => rects.map fun r =>
          ⟨(corner (origin c surface_id) r.left r.top).1, (corner (origin c surface_id) r.left r.top).2, r.width,
            r.height, fun i j => pic (r.left.toNat + i) (r.top.toNat + j)⟩
      | none => []
    else if codec_id = CODECID_UNCOMPRESSED then
      [⟨(corner (origin c surface_id) dest.left dest.top).1, (corner (origin c surface_id) dest.left dest.top).2,
        dest.width, dest.height, bgrx bitmap dest.width⟩]
    else []
  | _ => []

def cached : GfxCommand → UInt16 → Option (ℕ × ℕ × List Pixel)
  | .surfaceToCache surface_id _ slot r =>
    if 0 < r.width ∧ 0 < r.height then
      Function.update c.cache slot (some (r.width, r.height, (List.range (r.width * r.height)).map fun i =>
        source c.canvas (corner (origin c surface_id) r.left r.top) (i % r.width) (i / r.width)))
    else c.cache
  | _ => c.cache

def sums : GfxCommand → List (ℕ × ℕ)
  | .solidFill surface_id _ rects => rects.map fun r => corner (origin c surface_id) r.left r.top
  | .surfaceToSurface surface_src surface_dst r dest_pts =>
    corner (origin c surface_src) r.left r.top ::
      if 0 < r.width ∧ 0 < r.height then dest_pts.map fun p => corner (origin c surface_dst) p.x p.y else []
  | .surfaceToCache surface_id _ _ r =>
    if 0 < r.width ∧ 0 < r.height then [corner (origin c surface_id) r.left r.top] else []
  | .cacheToSurface slot surface_id dest_pts =>
    if (c.cache slot).isSome then dest_pts.map fun p => corner (origin c surface_id) p.x p.y else []
  | .wireToSurface1 surface_id _ _ dest _ => [corner (origin c surface_id) dest.left dest.top]
  | _ => []

/-- What is marked as it is, not cut to the desktop. -/
def marked : GfxCommand → List Patch
  | .surfaceToSurface _ _ _ [_] => []
  | .wireToSurface1 surface_id codec_id pixel_format dest bitmap =>
    if isAvc codec_id then [] else patches codecs c (.wireToSurface1 surface_id codec_id pixel_format dest bitmap)
  | command => patches codecs c command

structure NoWrap (command : GfxCommand) : Prop where
  sums : ∀ s ∈ sums c command, s.1 < 2 ^ 32 ∧ s.2 < 2 ^ 32
  marks : ∀ p ∈ marked codecs c command, p.x < c.canvas.width → p.y < c.canvas.height →
    p.x + p.w < 2 ^ 32 ∧ p.y + p.h < 2 ^ 32

def Kept : GfxCommand → Prop
  | .surfaceToSurface surface_src surface_dst r [p] =>
    ∀ px py, px < c.canvas.width → py < c.canvas.height →
      Within (corner (origin c surface_dst) p.x p.y).1 (corner (origin c surface_dst) p.x p.y).2 r.width r.height px py →
      ¬ ((corner (origin c surface_src) r.left r.top).1 + (px - (corner (origin c surface_dst) p.x p.y).1) <
          c.canvas.width ∧
        (corner (origin c surface_src) r.left r.top).2 + (py - (corner (origin c surface_dst) p.x p.y).2) <
          c.canvas.height) → c.canvas.fb px py = .black
  | .wireToSurface1 surface_id codec_id _ dest bitmap =>
    codec_id = CODECID_UNCOMPRESSED →
      toRgba bitmap (dest.right - min dest.left dest.right) (dest.bottom - min dest.top dest.bottom) = none →
      ∀ px py, px < c.canvas.width → py < c.canvas.height →
        Within (corner (origin c surface_id) dest.left dest.top).1 (corner (origin c surface_id) dest.left dest.top).2
          dest.width dest.height px py →
        c.canvas.fb px py = bgrx bitmap dest.width (px - (corner (origin c surface_id) dest.left dest.top).1)
          (py - (corner (origin c surface_id) dest.left dest.top).2)
  | _ => True

def geometric : GfxCommand → Bool
  | .solidFill .. | .surfaceToSurface .. | .surfaceToCache .. | .cacheToSurface .. => true
  | .wireToSurface1 _ codec_id _ _ _ => isAvc codec_id || codec_id == CODECID_UNCOMPRESSED
  | _ => false

def reads : GfxCommand → List (ℕ × ℕ × ℕ × ℕ)
  | .surfaceToSurface surface_src _ r _ =>
    [((corner (origin c surface_src) r.left r.top).1, (corner (origin c surface_src) r.left r.top).2, r.width,
      r.height)]
  | .surfaceToCache surface_id _ _ r =>
    [((corner (origin c surface_id) r.left r.top).1, (corner (origin c surface_id) r.left r.top).2, r.width, r.height)]
  | _ => []

/-- The slices for a rectangle's rows, cut to the desktop, lie in the framebuffer. -/
def InRange (q : ℕ × ℕ × ℕ × ℕ) : Prop :=
  q.1 < c.canvas.width → q.2.1 < c.canvas.height → ∀ row < min (c.canvas.height - q.2.1) q.2.2.2,
    (q.2.1 + row) * c.canvas.width + q.1 + min (c.canvas.width - q.1) q.2.2.1 ≤ c.canvas.width * c.canvas.height

structure Exact (command : GfxCommand) : Prop where
  size : (c.apply codecs command).canvas.width = c.canvas.width ∧
    (c.apply codecs command).canvas.height = c.canvas.height
  pixels : ∀ px py, px < c.canvas.width → py < c.canvas.height →
    (c.apply codecs command).canvas.fb px py = paint (patches codecs c command) px py (c.canvas.fb px py)
  cache : (c.apply codecs command).cache = cached c command
  inRange : ∀ q ∈ ((patches codecs c command).map fun p => (p.x, p.y, p.w, p.h)) ++ reads c command, InRange c q
  noWrap : NoWrap codecs c command

end Commands

theorem foldl_patches {α : Type} (draw : Canvas → α → Canvas) (patch : α → Patch) (l : List α) (c : Canvas)
    (h : ∀ a ∈ l, ∀ c' : Canvas, c'.width = c.width → c'.height = c.height →
      ((draw c' a).width = c'.width ∧ (draw c' a).height = c'.height) ∧
        ∀ px py, px < c.width → py < c.height → (draw c' a).fb px py = (patch a).over px py (c'.fb px py)) :
    ((l.foldl draw c).width = c.width ∧ (l.foldl draw c).height = c.height) ∧
      ∀ px py, px < c.width → py < c.height → (l.foldl draw c).fb px py = paint (l.map patch) px py (c.fb px py) := by
  induction l generalizing c with
  | nil => exact ⟨⟨rfl, rfl⟩, fun px py _ _ => rfl⟩
  | cons a l ih =>
    obtain ⟨⟨hw, hh⟩, hfb⟩ := h a List.mem_cons_self c rfl rfl
    obtain ⟨⟨hw', hh'⟩, hfb'⟩ := ih (draw c a) fun b hb c' hcw hch => by
      rw [hw] at hcw ⊢
      rw [hh] at hch ⊢
      exact h b (List.mem_cons_of_mem a hb) c' hcw hch
    refine ⟨⟨hw'.trans hw, hh'.trans hh⟩, fun px py hpx hpy => ?_⟩
    rw [List.foldl_cons, hfb' px py (hpx.trans_eq hw.symm) (hpy.trans_eq hh.symm), hfb px py hpx hpy]
    rfl

theorem put_patch {c : Canvas} {x y w h : ℕ} {rgba : List Pixel} (hlen : rgba.length = w * h) {px py : ℕ}
    (hpx : px < c.width) (hpy : py < c.height) :
    (c.put x y w h rgba).fb px py =
      (Patch.mk x y w h fun i j => rgba.getD (j * w + i) .black).over px py (c.fb px py) := by
  rw [put_fb c x y w h rgba hpx hpy]
  unfold Patch.over
  by_cases hin : Within x y w h px py
  · have hplace := hin
    obtain ⟨-, -, hy, hy'⟩ := hplace
    have hrow := row_le_of_whole (j := py - y) hlen.ge (by omega) (Nat.min_le_right (c.width - x) w)
    rw [if_pos ⟨hin, hrow⟩, if_pos hin]
  · rw [if_neg fun h => hin h.1, if_neg hin]

theorem over_congr {x y w h : ℕ} {f g : ℕ → ℕ → Pixel} (hfg : ∀ i j, i < w → j < h → f i j = g i j) (px py : ℕ)
    (v : Pixel) : (Patch.mk x y w h f).over px py v = (Patch.mk x y w h g).over px py v := by
  unfold Patch.over
  by_cases hin : Within x y w h px py
  · have hplace := hin
    obtain ⟨hx, hx', hy, hy'⟩ := hplace
    rw [if_pos hin, if_pos hin]
    dsimp only at hx hx' hy hy' ⊢
    exact hfg _ _ (by omega) (by omega)
  · rw [if_neg hin, if_neg hin]

theorem region_eq (c : Canvas) (s : ℕ × ℕ) (w h : ℕ) :
    c.region s.1 s.2 w h = (List.range (w * h)).map fun i => source c s (i % w) (i / w) := rfl

theorem placed_corner {o : UInt32 × UInt32} {x y : UInt16}
    (h : (corner o x y).1 < 2 ^ 32 ∧ (corner o x y).2 < 2 ^ 32) : placed o x y = corner o x y :=
  placed_of_lt h.1 h.2

theorem putAll_patches {κ π η : Type} (c : Compositor κ π η) {o : UInt32 × UInt32} {w h : ℕ} {rgba : List Pixel}
    {dest_pts : List Point16} (hlen : rgba.length = w * h)
    (hsums : ∀ p ∈ dest_pts, (corner o p.x p.y).1 < 2 ^ 32 ∧ (corner o p.x p.y).2 < 2 ^ 32) :
    ((c.putAll o w h rgba dest_pts).canvas.width = c.canvas.width ∧
        (c.putAll o w h rgba dest_pts).canvas.height = c.canvas.height) ∧
      ∀ px py, px < c.canvas.width → py < c.canvas.height → (c.putAll o w h rgba dest_pts).canvas.fb px py =
        paint (patchesAt o w h (fun i j => rgba.getD (j * w + i) .black) dest_pts) px py (c.canvas.fb px py) := by
  refine foldl_patches _ _ _ c.canvas fun p hp c' hw hh => ⟨put_size .., fun px py hpx hpy => ?_⟩
  rw [placed_corner (hsums p hp)]
  exact put_patch hlen (hpx.trans_eq hw.symm) (hpy.trans_eq hh.symm)

theorem paint_patchesAt {o : UInt32 × UInt32} {w h : ℕ} {f g : ℕ → ℕ → Pixel}
    (hfg : ∀ i j, i < w → j < h → f i j = g i j) (dest_pts : List Point16) (px py : ℕ) (v : Pixel) :
    paint (patchesAt o w h f dest_pts) px py v = paint (patchesAt o w h g dest_pts) px py v := by
  unfold paint patchesAt
  rw [List.foldl_map, List.foldl_map]
  congr 1
  funext v p
  exact over_congr hfg px py v

theorem inRange {κ π η : Type} (c : Compositor κ π η) (q : ℕ × ℕ × ℕ × ℕ) : InRange c q := by
  intro hx hy row hrow
  have hcols : q.1 + min (c.canvas.width - q.1) q.2.2.1 ≤ c.canvas.width := by omega
  have hlast : (q.2.1 + row + 1) * c.canvas.width ≤ c.canvas.height * c.canvas.width :=
    Nat.mul_le_mul_right _ (by omega)
  rw [Nat.succ_mul] at hlast
  rw [Nat.mul_comm c.canvas.width]
  omega

/-! ## Command by command -/

section Commands

variable {κ π η : Type} {codecs : Codecs κ π η} {c : Compositor κ π η}

/-- What painting is, of a command that only draws. -/
def Paints (c c' : Compositor κ π η) (ps : List Patch) : Prop :=
  (c'.canvas.width = c.canvas.width ∧ c'.canvas.height = c.canvas.height) ∧
    ∀ px py, px < c.canvas.width → py < c.canvas.height → c'.canvas.fb px py = paint ps px py (c.canvas.fb px py)

theorem solidFill_paints {surface_id : UInt16} {color : UInt32} {rects : List Rect16}
    (hsums : ∀ s ∈ sums c (.solidFill surface_id color rects), s.1 < 2 ^ 32 ∧ s.2 < 2 ^ 32) :
    Paints c (c.solidFill surface_id color rects) (patches codecs c (.solidFill surface_id color rects)) := by
  refine foldl_patches _ _ _ c.canvas fun r hr c' hw hh => ⟨fill_size .., fun px py hpx hpy => ?_⟩
  rw [placed_corner (hsums _ (List.mem_map_of_mem hr))]
  exact fill_fb c' _ _ _ _ _ (hpx.trans_eq hw.symm) (hpy.trans_eq hh.symm)

theorem cacheToSurface_paints {slot surface_id : UInt16} {dest_pts : List Point16}
    (hwhole : ∀ w h px, c.cache slot = some (w, h, px) → px.length = w * h)
    (hsums : ∀ s ∈ sums c (.cacheToSurface slot surface_id dest_pts), s.1 < 2 ^ 32 ∧ s.2 < 2 ^ 32) :
    Paints c (c.cacheToSurface slot surface_id dest_pts)
      (patches codecs c (.cacheToSurface slot surface_id dest_pts)) := by
  rw [Compositor.cacheToSurface, patches]
  rw [sums] at hsums
  cases hslot : c.cache slot with
  | none => exact ⟨⟨rfl, rfl⟩, fun px py _ _ => rfl⟩
  | some e =>
    obtain ⟨w, h, px⟩ := e
    rw [hslot] at hsums
    dsimp only
    exact putAll_patches c (hwhole w h px hslot) fun p hp => hsums _ (List.mem_map_of_mem hp)

theorem scroll_paints {surface_src surface_dst : UInt16} {r : Rect16} {p : Point16} (hr : 0 < r.width ∧ 0 < r.height)
    (hsums : ∀ s ∈ sums c (.surfaceToSurface surface_src surface_dst r [p]), s.1 < 2 ^ 32 ∧ s.2 < 2 ^ 32) :
    Paints c (c.surfaceToSurface surface_src surface_dst r [p])
        (patches codecs c (.surfaceToSurface surface_src surface_dst r [p])) ↔
      Kept c (.surfaceToSurface surface_src surface_dst r [p]) := by
  have hsrc := hsums (corner (origin c surface_src) r.left r.top) List.mem_cons_self
  have hdst := hsums (corner (origin c surface_dst) p.x p.y) (by
    refine List.mem_cons_of_mem _ ?_
    rw [if_pos hr]
    exact List.mem_singleton_self _)
  have hcanvas : (c.surfaceToSurface surface_src surface_dst r [p]).canvas =
      c.canvas.copyWithin (corner (origin c surface_src) r.left r.top).1 (corner (origin c surface_src) r.left r.top).2
        r.width r.height (corner (origin c surface_dst) p.x p.y).1 (corner (origin c surface_dst) p.x p.y).2 := by
    unfold Compositor.surfaceToSurface
    dsimp only
    rw [if_pos hr]
    show c.canvas.copyWithin (placed _ _ _).1 (placed _ _ _).2 _ _ (placed _ _ _).1 (placed _ _ _).2 = _
    unfold origin at hsrc hdst ⊢
    rw [placed_corner hsrc, placed_corner hdst]
  unfold Paints
  rw [hcanvas]
  have hsize := copyWithin_size c.canvas (corner (origin c surface_src) r.left r.top).1
    (corner (origin c surface_src) r.left r.top).2 r.width r.height (corner (origin c surface_dst) p.x p.y).1
    (corner (origin c surface_dst) p.x p.y).2
  rw [and_iff_right hsize]
  unfold Kept
  refine forall₄_congr fun px py hpx hpy => ?_
  rw [copyWithin_fb c.canvas _ _ _ _ _ _ hpx hpy]
  show _ = Patch.over _ px py _ ↔ _
  unfold Patch.over source
  dsimp only
  split_ifs with hboth hin hsource hin hsource
  · exact ⟨fun _ _ hout => absurd hboth.2 hout, fun _ => rfl⟩
  · exact absurd hboth.2 hsource
  · exact absurd hboth.1 hin
  · exact absurd ⟨hin, hsource⟩ hboth
  · exact ⟨fun heq _ _ => heq, fun h => h hin hsource⟩
  · exact ⟨fun _ hin' => absurd hin' hin, fun _ => rfl⟩

theorem paint_empty {o : UInt32 × UInt32} {w h : ℕ} (hempty : ¬ (0 < w ∧ 0 < h)) (f : ℕ → ℕ → Pixel)
    (dest_pts : List Point16) (px py : ℕ) (v : Pixel) : paint (patchesAt o w h f dest_pts) px py v = v := by
  unfold paint patchesAt
  rw [List.foldl_map]
  induction dest_pts with
  | nil => rfl
  | cons p dest_pts ih =>
    have hout : ∀ x y, ¬ Within x y w h px py := by
      intro x y hin
      obtain ⟨h1, h2, h3, h4⟩ := hin
      omega
    rw [List.foldl_cons]
    unfold Patch.over at ih ⊢
    rw [if_neg (hout _ _)]
    exact ih

theorem copies_paint {surface_src surface_dst : UInt16} {r : Rect16} {dest_pts : List Point16}
    (hpts : dest_pts.length ≠ 1 ∨ ¬ (0 < r.width ∧ 0 < r.height))
    (hsums : ∀ s ∈ sums c (.surfaceToSurface surface_src surface_dst r dest_pts), s.1 < 2 ^ 32 ∧ s.2 < 2 ^ 32) :
    Paints c (c.surfaceToSurface surface_src surface_dst r dest_pts)
      (patches codecs c (.surfaceToSurface surface_src surface_dst r dest_pts)) := by
  unfold Compositor.surfaceToSurface
  rw [patches]
  rw [sums] at hsums
  dsimp only
  by_cases hr : 0 < r.width ∧ 0 < r.height
  · rw [if_pos hr]
    rw [if_pos hr] at hsums
    have hsrc := hsums _ List.mem_cons_self
    have hcopies : Paints c (c.putAll (origin c surface_dst) r.width r.height
        (c.canvas.region (corner (origin c surface_src) r.left r.top).1 (corner (origin c surface_src) r.left r.top).2
          r.width r.height) dest_pts)
        (patchesAt (origin c surface_dst) r.width r.height
          (source c.canvas (corner (origin c surface_src) r.left r.top)) dest_pts) := by
      have hlen : (c.canvas.region (corner (origin c surface_src) r.left r.top).1
          (corner (origin c surface_src) r.left r.top).2 r.width r.height).length = r.width * r.height := by
        rw [region_eq, List.length_map, List.length_range]
      obtain ⟨hsize, hfb⟩ := putAll_patches c (o := origin c surface_dst) hlen fun p hp =>
        hsums _ (List.mem_cons_of_mem _ (List.mem_map_of_mem hp))
      refine ⟨hsize, fun px py hpx hpy => (hfb px py hpx hpy).trans ?_⟩
      refine paint_patchesAt (fun i j hi hj => ?_) dest_pts px py _
      rw [region_eq]
      exact getD_grid _ hi hj Pixel.black
    rcases dest_pts with - | ⟨p, - | ⟨q, dest_pts⟩⟩
    · rw [placed_corner hsrc]
      exact hcopies
    · rcases hpts with hone | hempty
      · exact absurd rfl hone
      · exact absurd hr hempty
    · rw [placed_corner hsrc]
      exact hcopies
  · rw [if_neg hr]
    exact ⟨⟨rfl, rfl⟩, fun px py _ _ => (paint_empty hr _ _ _ _ _).symm⟩

theorem surfaceToCache_cached {surface_id slot : UInt16} {key : UInt64} {r : Rect16}
    (hsums : ∀ s ∈ sums c (.surfaceToCache surface_id key slot r), s.1 < 2 ^ 32 ∧ s.2 < 2 ^ 32) :
    (c.surfaceToCache surface_id slot r).canvas = c.canvas ∧
      (c.surfaceToCache surface_id slot r).cache = cached c (.surfaceToCache surface_id key slot r) := by
  rw [Compositor.surfaceToCache, cached]
  rw [sums] at hsums
  dsimp only
  by_cases hr : 0 < r.width ∧ 0 < r.height
  · rw [if_pos hr] at hsums
    rw [if_pos hr, if_pos hr, placed_corner (hsums _ (List.mem_singleton_self _)), region_eq]
    exact ⟨rfl, rfl⟩
  · rw [if_neg hr, if_neg hr]
    exact ⟨rfl, rfl⟩

theorem getD_toRgba {bitmap : List UInt8} {w h : UInt16} {rgba : List Pixel} (hrgba : toRgba bitmap w h = some rgba) :
    rgba.length = w.toNat * h.toNat ∧ ∀ i j, i < w.toNat → j < h.toNat →
      rgba.getD (j * w.toNat + i) .black = bgrx bitmap w.toNat i j := by
  unfold toRgba at hrgba
  dsimp only at hrgba
  split_ifs at hrgba with hdims hshort
  rw [← Option.some.inj hrgba]
  constructor
  · rw [List.length_map, List.length_range]
  · intro i j hi hj
    have hlt : j * w.toNat + i < w.toNat * h.toNat := row_le_of_whole (le_refl _) hj hi
    rw [List.getD_eq_getElem?_getD, List.getElem?_map, List.getElem?_range hlt]
    rfl

theorem uncompressed_paints {surface_id : UInt16} {pixel_format : UInt8} {dest : Rect16} {bitmap : List UInt8}
    (hsums : ∀ s ∈ sums c (.wireToSurface1 surface_id CODECID_UNCOMPRESSED pixel_format dest bitmap),
      s.1 < 2 ^ 32 ∧ s.2 < 2 ^ 32) :
    Paints c (c.uncompressed surface_id dest bitmap)
        (patches codecs c (.wireToSurface1 surface_id CODECID_UNCOMPRESSED pixel_format dest bitmap)) ↔
      Kept c (.wireToSurface1 surface_id CODECID_UNCOMPRESSED pixel_format dest bitmap) := by
  have hcorner := hsums _ (List.mem_singleton_self _)
  have hpatch : patches codecs c (.wireToSurface1 surface_id CODECID_UNCOMPRESSED pixel_format dest bitmap) =
      [⟨(corner (origin c surface_id) dest.left dest.top).1, (corner (origin c surface_id) dest.left dest.top).2,
        dest.width, dest.height, bgrx bitmap dest.width⟩] := by
    rw [patches, if_neg (by decide), if_pos rfl]
  rw [Compositor.uncompressed, Kept, hpatch]
  cases hrgba : toRgba bitmap (dest.right - min dest.left dest.right) (dest.bottom - min dest.top dest.bottom) with
  | some rgba =>
    obtain ⟨hlen, hget⟩ := getD_toRgba hrgba
    rw [toNat_saturatingSub, toNat_saturatingSub] at hlen hget
    refine iff_of_true ⟨put_size .., fun px py hpx hpy => ?_⟩ fun _ hnone => nomatch hnone
    rw [placed_corner hcorner]
    exact (put_patch hlen hpx hpy).trans (over_congr hget px py _)
  | none =>
    unfold Paints
    rw [and_iff_right ⟨rfl, rfl⟩]
    constructor
    · intro heq _ _ px py hpx hpy hin
      exact (heq px py hpx hpy).trans (if_pos hin)
    · intro hkept px py hpx hpy
      show c.canvas.fb px py = Patch.over _ px py _
      unfold Patch.over
      split_ifs with hin
      · exact hkept rfl rfl px py hpx hpy hin
      · rfl

theorem convert_patch {c : Canvas} {ox oy : ℕ} {pic : ℕ → ℕ → Pixel} {r : Rect16} {px py : ℕ} (hpx : px < c.width)
    (hpy : py < c.height) :
    (c.convert ox oy pic r).fb px py = (Patch.mk (ox + r.left.toNat) (oy + r.top.toNat) r.width r.height fun i j =>
      pic (r.left.toNat + i) (r.top.toNat + j)).over px py (c.fb px py) := by
  unfold Canvas.convert Canvas.painted Patch.over
  dsimp only
  split_ifs with hout hin hin
  · obtain ⟨h1, h2, h3, h4⟩ := hin
    omega
  · rfl
  · dsimp only
    refine if_pos ?_
    obtain ⟨h1, h2, h3, h4⟩ := hin
    unfold Rect16.width at h2
    unfold Rect16.height at h4
    exact ⟨h1, by omega, h3, by omega⟩
  · dsimp only
    refine if_neg fun hin' => hin ?_
    obtain ⟨h1, h2, h3, h4⟩ := hin'
    unfold Rect16.width Rect16.height
    exact ⟨h1, by omega, h3, by omega⟩

theorem convert_size (c : Canvas) (ox oy : ℕ) (pic : ℕ → ℕ → Pixel) (r : Rect16) :
    (c.convert ox oy pic r).width = c.width ∧ (c.convert ox oy pic r).height = c.height := by
  unfold Canvas.convert
  cases c.painted ox oy r <;> exact ⟨rfl, rfl⟩

theorem foldl_mark (l : List (ℕ × ℕ × ℕ × ℕ)) (c : Canvas) :
    (l.foldl (fun c q => c.mark q.1 q.2.1 q.2.2.1 q.2.2.2) c).fb = c.fb ∧
      (l.foldl (fun c q => c.mark q.1 q.2.1 q.2.2.1 q.2.2.2) c).width = c.width ∧
      (l.foldl (fun c q => c.mark q.1 q.2.1 q.2.2.1 q.2.2.2) c).height = c.height := by
  induction l generalizing c with
  | nil => exact ⟨rfl, rfl, rfl⟩
  | cons q l ih =>
    obtain ⟨hfb, hw, hh⟩ := ih (c.mark q.1 q.2.1 q.2.2.1 q.2.2.2)
    exact ⟨hfb.trans (Canvas.mark_fb ..), hw.trans (Canvas.mark_width ..), hh.trans (Canvas.mark_height ..)⟩

theorem canvas_avc420 (o : ℕ × ℕ) (c : Canvas) (pic : ℕ → ℕ → Pixel) (rects : List Rect16) :
    ((c.avc420 o.1 o.2 pic rects).width = c.width ∧ (c.avc420 o.1 o.2 pic rects).height = c.height) ∧
      ∀ px py, px < c.width → py < c.height → (c.avc420 o.1 o.2 pic rects).fb px py =
        paint (rects.map fun r => ⟨o.1 + r.left.toNat, o.2 + r.top.toNat, r.width, r.height, fun i j =>
          pic (r.left.toNat + i) (r.top.toNat + j)⟩) px py (c.fb px py) := by
  obtain ⟨⟨hw, hh⟩, hfb⟩ := foldl_patches (fun (c' : Canvas) (r : Rect16) => c'.convert o.1 o.2 pic r)
    (fun r => ⟨o.1 + r.left.toNat, o.2 + r.top.toNat, r.width, r.height, fun i j =>
      pic (r.left.toNat + i) (r.top.toNat + j)⟩) rects c
    fun r _ c' hcw hch => ⟨convert_size .., fun px py hpx hpy =>
      convert_patch (hpx.trans_eq hcw.symm) (hpy.trans_eq hch.symm)⟩
  obtain ⟨hmfb, hmw, hmh⟩ := foldl_mark (rects.filterMap (c.painted o.1 o.2))
    (rects.foldl (fun c' r => c'.convert o.1 o.2 pic r) c)
  exact ⟨⟨hmw.trans hw, hmh.trans hh⟩, fun px py hpx hpy => (congrFun (congrFun hmfb px) py).trans (hfb px py hpx hpy)⟩

theorem avc420_paints {surface_id codec_id : UInt16} {pixel_format : UInt8} {dest : Rect16} {bitmap : List UInt8}
    (havc : isAvc codec_id = true) :
    Paints c (c.avc420 codecs surface_id bitmap)
      (patches codecs c (.wireToSurface1 surface_id codec_id pixel_format dest bitmap)) := by
  rw [Compositor.avc420, patches, if_pos havc, picture]
  dsimp only
  cases (codecs.decodeAvc (c.h264 surface_id) (c.surfaces surface_id) (c.canvas.width, c.canvas.height) bitmap).2 with
  | none => exact ⟨⟨rfl, rfl⟩, fun px py _ _ => rfl⟩
  | some p =>
    obtain ⟨pic, rects⟩ := p
    exact canvas_avc420 ((origin c surface_id).1.toNat, (origin c surface_id).2.toNat) c.canvas pic rects

/-! ## Every run -/

def CacheWhole (c : Compositor κ π η) : Prop := ∀ slot w h px, c.cache slot = some (w, h, px) → px.length = w * h

theorem surfaceToSurface_cache (surface_src surface_dst : UInt16) (r : Rect16) (dest_pts : List Point16) :
    (c.surfaceToSurface surface_src surface_dst r dest_pts).cache = c.cache := by
  unfold Compositor.surfaceToSurface
  dsimp only
  split_ifs
  · split <;> rfl
  · rfl

theorem cacheToSurface_cache (slot surface_id : UInt16) (dest_pts : List Point16) :
    (c.cacheToSurface slot surface_id dest_pts).cache = c.cache := by
  unfold Compositor.cacheToSurface
  split <;> rfl

theorem wireToSurface1_cache (surface_id codec_id : UInt16) (dest : Rect16) (bitmap : List UInt8) :
    (c.wireToSurface1 codecs surface_id codec_id dest bitmap).cache = c.cache := by
  unfold Compositor.wireToSurface1
  split_ifs
  · rfl
  · unfold Compositor.uncompressed
    dsimp only
    split <;> rfl
  · rfl
  · rfl

theorem cacheWhole_apply (h : CacheWhole c) (command : GfxCommand) : CacheWhole (c.apply codecs command) := by
  intro slot w h' px hslot
  cases command with
  | surfaceToCache surface_id key slot' r =>
    have hcache : (c.apply codecs (.surfaceToCache surface_id key slot' r)).cache =
        (c.surfaceToCache surface_id slot' r).cache := rfl
    rw [hcache] at hslot
    unfold Compositor.surfaceToCache at hslot
    dsimp only at hslot
    split_ifs at hslot
    · dsimp only at hslot
      by_cases hsame : slot = slot'
      · rw [hsame, Function.update_self] at hslot
        obtain ⟨rfl, rfl, rfl⟩ : _ = w ∧ _ = h' ∧ _ = px := by simpa using hslot
        rw [region_eq, List.length_map, List.length_range]
      · rw [Function.update_of_ne hsame] at hslot
        exact h slot w h' px hslot
    · exact h slot w h' px hslot
  | surfaceToSurface surface_src surface_dst r dest_pts =>
    exact h slot w h' px (surfaceToSurface_cache (c := c) surface_src surface_dst r dest_pts ▸ hslot)
  | cacheToSurface slot' surface_id dest_pts =>
    exact h slot w h' px (cacheToSurface_cache (c := c) slot' surface_id dest_pts ▸ hslot)
  | wireToSurface1 surface_id codec_id pixel_format dest bitmap =>
    exact h slot w h' px (wireToSurface1_cache (c := c) surface_id codec_id dest bitmap ▸ hslot)
  | _ => exact h slot w h' px hslot

def run (codecs : Codecs κ π η) (width height : UInt32) (clear : κ) (commands : List GfxCommand) : Compositor κ π η :=
  commands.foldl (fun c command => c.apply codecs command) (Compositor.new width height clear)

theorem cacheWhole_run (codecs : Codecs κ π η) (width height : UInt32) (clear : κ) (commands : List GfxCommand) :
    CacheWhole (run codecs width height clear commands) := by
  suffices hall : ∀ c : Compositor κ π η, CacheWhole c →
      CacheWhole (commands.foldl (fun c command => c.apply codecs command) c) from
    hall _ fun slot w h px hslot => nomatch hslot
  induction commands with
  | nil => exact fun c h => h
  | cons command commands ih => exact fun c h => ih _ (cacheWhole_apply h command)

theorem drawn_iff (hwhole : CacheWhole c) {command : GfxCommand} (hcmd : geometric command = true)
    (hwrap : NoWrap codecs c command) :
    (Paints c (c.apply codecs command) (patches codecs c command) ∧
      (c.apply codecs command).cache = cached c command) ↔ Kept c command := by
  have hsums := hwrap.sums
  cases command with
  | solidFill surface_id color rects => exact iff_of_true ⟨solidFill_paints hsums, rfl⟩ trivial
  | surfaceToSurface surface_src surface_dst r dest_pts =>
    refine (and_iff_left (surfaceToSurface_cache surface_src surface_dst r dest_pts)).trans ?_
    by_cases hone : dest_pts.length ≠ 1 ∨ ¬ (0 < r.width ∧ 0 < r.height)
    · refine iff_of_true (copies_paint hone hsums) ?_
      rcases dest_pts with - | ⟨p, - | ⟨q, dest_pts⟩⟩
      · trivial
      · have hr := hone.resolve_left fun hne => hne rfl
        intro px py _ _ hin
        obtain ⟨h1, h2, h3, h4⟩ := hin
        omega
      · trivial
    · obtain ⟨hlen, hr⟩ := not_or.mp hone
      obtain ⟨p, rfl⟩ := List.length_eq_one_iff.mp (not_not.mp hlen)
      exact scroll_paints (not_not.mp hr) hsums
  | surfaceToCache surface_id key slot r =>
    obtain ⟨hcanvas, hcache⟩ := surfaceToCache_cached hsums
    refine iff_of_true ⟨⟨⟨?_, ?_⟩, fun px py _ _ => ?_⟩, hcache⟩ trivial
    · exact congrArg Canvas.width hcanvas
    · exact congrArg Canvas.height hcanvas
    · exact congrFun (congrFun (congrArg Canvas.fb hcanvas) px) py
  | cacheToSurface slot surface_id dest_pts =>
    exact iff_of_true ⟨cacheToSurface_paints (hwhole slot) hsums, cacheToSurface_cache slot surface_id dest_pts⟩ trivial
  | wireToSurface1 surface_id codec_id pixel_format dest bitmap =>
    refine (and_iff_left (wireToSurface1_cache surface_id codec_id dest bitmap)).trans ?_
    by_cases havc : isAvc codec_id = true
    · have hne : codec_id ≠ CODECID_UNCOMPRESSED := by
        rintro rfl
        exact absurd havc (by decide)
      have hcodec : codec_id = CODECID_AVC420 ∨ codec_id = CODECID_CAVIDEO := by simpa [isAvc] using havc
      refine iff_of_true ?_ fun heq => absurd heq hne
      have happly : (c.apply codecs (.wireToSurface1 surface_id codec_id pixel_format dest bitmap)) =
          c.avc420 codecs surface_id bitmap := if_pos hcodec
      rw [happly]
      exact avc420_paints havc
    · have hcodec : codec_id = CODECID_UNCOMPRESSED := by simpa [geometric, havc] using hcmd
      subst hcodec
      have happly : (c.apply codecs (.wireToSurface1 surface_id CODECID_UNCOMPRESSED pixel_format dest bitmap)) =
          c.uncompressed surface_id dest bitmap := rfl
      rw [happly]
      exact uncompressed_paints hsums
  | _ => cases hcmd

/-- After any commands, a fill, a copy, a cached rectangle, an uncompressed tile or an H.264 picture is painted exactly
just where none of its sums passes 32 bits and where it leaves alone nothing that it would have changed: a scroll's
source is on the desktop, or what it would bring black to is black, and a tile is not refused for its size. -/
theorem exact_iff (codecs : Codecs κ π η) (width height : UInt32) (clear : κ) (commands : List GfxCommand)
    (command : GfxCommand) (hcmd : geometric command = true) :
    Exact codecs (run codecs width height clear commands) command ↔
      NoWrap codecs (run codecs width height clear commands) command ∧
        Kept (run codecs width height clear commands) command := by
  have hwhole := cacheWhole_run codecs width height clear commands
  generalize run codecs width height clear commands = c at hwhole ⊢
  constructor
  · rintro ⟨hsize, hpixels, hcache, -, hwrap⟩
    exact ⟨hwrap, (drawn_iff hwhole hcmd hwrap).1 ⟨⟨hsize, hpixels⟩, hcache⟩⟩
  · rintro ⟨hwrap, hkept⟩
    obtain ⟨⟨hsize, hpixels⟩, hcache⟩ := (drawn_iff hwhole hcmd hwrap).2 hkept
    exact ⟨hsize, hpixels, hcache, fun q _ => inRange c q, hwrap⟩

end Commands

/-- Decoders that give nothing. -/
def noCodecs : Codecs Unit Unit Unit where
  needsSeed _ _ _ := false
  decodeSeeded k _ _ _ _ := (k, none)
  progressive := ()
  decode _ _ _ := ((), [])
  deleteContext _ _ := ()
  decodeAvc _ _ _ _ := (none, none)

def mapped : List GfxCommand := [.createSurface 1 4 4 0x20, .mapSurfaceToOutput 1 0xFFFFFFFF 0]

theorem exact_iff_fill : Exact noCodecs (run noCodecs 4 4 () mapped) (.solidFill 1 0x00FFFFFF [⟨0, 0, 1, 1⟩]) ↔
      NoWrap noCodecs (run noCodecs 4 4 () mapped) (.solidFill 1 0x00FFFFFF [⟨0, 0, 1, 1⟩]) ∧
        Kept (run noCodecs 4 4 () mapped) (.solidFill 1 0x00FFFFFF [⟨0, 0, 1, 1⟩]) :=
  exact_iff noCodecs 4 4 () mapped _ rfl

/-- A rectangle far outside of the desktop is filled in its corner. -/
theorem fill_wraps : ¬ Exact noCodecs (run noCodecs 4 4 () mapped) (.solidFill 1 0x00FFFFFF [⟨1, 0, 2, 1⟩]) := by
  intro h
  have hcorner := h.pixels 0 0 (by decide) (by decide)
  revert hcorner
  decide

end Rdpio.Android.Geometry
