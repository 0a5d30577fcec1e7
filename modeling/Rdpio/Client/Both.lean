import Rdpio.Android.Flattened
import Rdpio.Client.Seeds

/-!
# The compositor beside the renderer

The Android client's compositor is to keep the command semantics of the desktop client's renderer, as the
shadow has them.
-/

namespace Rdpio.Client

open Graphics Android Lib

structure Both (κ π η θ : Type) where
  android : Compositor κ π η
  desktop : MfRenderer κ π θ

namespace Both

variable {κ π η θ : Type} (codecs : Codecs κ π η) (decoders : AvcDecoders θ)

def new (width height desktop_w desktop_h : UInt32) (clear : κ) (avc : θ) : Both κ π η θ :=
  ⟨.new width height clear, .new desktop_w desktop_h clear avc false⟩

variable (m : Both κ π η θ)

def step (command : GfxCommand) : Both κ π η θ :=
  ⟨m.android.apply codecs command, (m.desktop.render codecs decoders command).1⟩

/-- The framebuffers are equal. -/
structure SameDesktop (m : Both κ π η θ) : Prop where
  width : m.android.canvas.width = m.desktop.fb_w
  height : m.android.canvas.height = m.desktop.fb_h
  fb : ∀ px py, px < m.desktop.fb_w → py < m.desktop.fb_h → m.android.canvas.fb px py = m.desktop.fb px py

/-- What a progressive payload decodes to. -/
def tiles (surface_id : UInt16) (codec_context_id : UInt32) (bitmap : List UInt8) : List Tile :=
  (codecs.decode ((m.android.progressive surface_id).getD codecs.progressive) codec_context_id bitmap).2

def inRange : GfxCommand → Bool
  | .solidFill surface_id _ rects =>
    rects.all fun r =>
      let p := placed (m.android.surfaces.origin surface_id) r.left r.top
      p.1 < 65536 && p.2 < 65536
  | .wireToSurface2 surface_id _ codec_context_id _ bitmap =>
    let o := m.android.surfaces.origin surface_id
    (m.tiles codecs surface_id codec_context_id bitmap).all fun t =>
      (o.1 + t.x).toNat + t.w < 65536 && (o.2 + t.y).toNat + t.h < 65536
  | .wireToSurface1 surface_id codec_id _ dest _ =>
    let p := placed (m.android.surfaces.origin surface_id) dest.left dest.top
    codec_id ∉ [CODECID_AVC420, CODECID_CAVIDEO, CODECID_AVC444, CODECID_AVC444V2] && p.1 < 65536 && p.2 < 65536
  | _ => true

/-- Tiles that have a place of the desktop in common. -/
def Overlap (o : UInt32 × UInt32) (a b : Tile) : Prop :=
  (o.1 + a.x).toNat < (o.1 + b.x).toNat + b.w ∧ (o.1 + b.x).toNat < (o.1 + a.x).toNat + a.w ∧
    (o.2 + a.y).toNat < (o.2 + b.y).toNat + b.h ∧ (o.2 + b.y).toNat < (o.2 + a.y).toNat + a.h

instance (o : UInt32 × UInt32) (a b : Tile) : Decidable (Overlap o a b) := inferInstanceAs (Decidable (_ ∧ _))

def ScrollWithin (c : Canvas) (s d : ℕ × ℕ) (w h : ℕ) : Prop :=
  ∀ i < w, ∀ j < h, d.1 + i < c.width → d.2 + j < c.height →
    (s.1 + i < c.width ∧ s.2 + j < c.height) ∨ c.fb (d.1 + i) (d.2 + j) = .black

instance (c : Canvas) (s d : ℕ × ℕ) (w h : ℕ) : Decidable (ScrollWithin c s d w h) :=
  have (i j : ℕ) : Decidable (d.1 + i < c.width → d.2 + j < c.height →
    (s.1 + i < c.width ∧ s.2 + j < c.height) ∨ c.fb (d.1 + i) (d.2 + j) = .black) := inferInstance
  Nat.decidableBallLT w fun i _ => ∀ j < h, d.1 + i < c.width → d.2 + j < c.height →
    (s.1 + i < c.width ∧ s.2 + j < c.height) ∨ c.fb (d.1 + i) (d.2 + j) = .black

def covered : GfxCommand → Bool
  | .resetGraphics width _ _ => width ≠ 0
  | .surfaceToSurface surface_src surface_dst r [p] =>
    decide (ScrollWithin m.android.canvas (placed (m.android.surfaces.origin surface_src) r.left r.top)
      (placed (m.android.surfaces.origin surface_dst) p.x p.y) r.width r.height)
  | .wireToSurface2 surface_id _ codec_context_id _ bitmap =>
    let o := m.android.surfaces.origin surface_id
    decide ((m.tiles codecs surface_id codec_context_id bitmap).Pairwise fun a b => tileLe a b = true ∨ ¬Overlap o a b)
  | _ => true

end Both

/-! ## One rectangle -/

/-- The framebuffers of the two. -/
structure SameFb {κ π θ : Type} (canvas : Canvas) (r : MfRenderer κ π θ) : Prop where
  width : canvas.width = r.fb_w
  height : canvas.height = r.fb_h
  pos : 0 < r.fb_w
  fb : ∀ px py, px < r.fb_w → py < r.fb_h → canvas.fb px py = r.fb px py

/-- After a drawing the framebuffers are the same, and the renderer is otherwise as it was. -/
structure Alike {κ π θ : Type} (r : MfRenderer κ π θ) (canvas' : Canvas) (r' : MfRenderer κ π θ) : Prop where
  same : SameFb canvas' r'
  frame : r' = { r with fb := r'.fb }

theorem put_fb (c : Canvas) (x y w h : ℕ) (rgba : List Pixel) {px py : ℕ} (hpx : px < c.width) (hpy : py < c.height) :
    (c.put x y w h rgba).fb px py =
      if Within x y w h px py ∧ (py - y) * w + min (c.width - x) w ≤ rgba.length then
        rgba.getD ((py - y) * w + (px - x)) .black
      else c.fb px py := by
  unfold Canvas.put
  split
  · refine (if_neg fun hin => ?_).symm
    obtain ⟨⟨hx, _, hy, _⟩, _⟩ := hin
    omega
  · rw [Canvas.mark_fb]
    simp only [within_min, hpx, hpy, true_and]

theorem fill_fb (c : Canvas) (x y w h : ℕ) (px : Pixel) {px' py' : ℕ} (hpx : px' < c.width) (hpy : py' < c.height) :
    (c.fill x y w h px).fb px' py' = if Within x y w h px' py' then px else c.fb px' py' := by
  unfold Canvas.fill
  split
  · refine (if_neg fun hin => ?_).symm
    obtain ⟨hx, _, hy, _⟩ := hin
    omega
  · rw [Canvas.mark_fb]
    simp only [within_min, hpx, hpy, true_and]

theorem copyWithin_fb (c : Canvas) (sx sy w h dx dy : ℕ) {px py : ℕ} (hpx : px < c.width) (hpy : py < c.height) :
    (c.copyWithin sx sy w h dx dy).fb px py =
      if Within dx dy w h px py ∧ sx + (px - dx) < c.width ∧ sy + (py - dy) < c.height then
        c.fb (sx + (px - dx)) (sy + (py - dy))
      else c.fb px py := by
  unfold Canvas.copyWithin
  split
  · refine (if_neg fun hin => ?_).symm
    obtain ⟨⟨hx, _, hy, _⟩, hsx, hsy⟩ := hin
    omega
  · rw [Canvas.mark_fb]
    refine (foldl_copyRow_ordered ..).trans ?_
    congr 1
    rw [eq_iff_iff]
    unfold Within
    omega

namespace SameFb

variable {κ π θ : Type} {canvas : Canvas} {r : MfRenderer κ π θ}

theorem put (h : SameFb canvas r) (x y w h' : ℕ) (rgba : List Pixel) :
    Alike r (canvas.put x y w h' rgba) (r.fbPut x y w h' rgba) := by
  rw [MfRenderer.fbPut_eq h.pos]
  refine ⟨⟨(put_size ..).1.trans h.width, (put_size ..).2.trans h.height, h.pos, fun px py hpx hpy => ?_⟩, rfl⟩
  rw [put_fb canvas _ _ _ _ _ (hpx.trans_eq h.width.symm) (hpy.trans_eq h.height.symm), h.width, h.fb px py hpx hpy]
  have hpx : px < r.fb_w := hpx
  have hpy : py < r.fb_h := hpy
  simp only [hpx, hpy, true_and]

theorem region (h : SameFb canvas r) (x y w h' : ℕ) : canvas.region x y w h' = r.fbRegion x y w h' := by
  refine List.map_congr_left fun i _ => ?_
  rw [h.width, h.height]
  by_cases hin : x + i % w < r.fb_w ∧ y + i / w < r.fb_h
  · rw [if_pos hin, if_pos hin, h.fb _ _ hin.1 hin.2]
  · rw [if_neg hin, if_neg hin]

theorem fill (h : SameFb canvas r) (x y w h' : ℕ) (px : Pixel) :
    Alike r (canvas.fill x y w h' px) (r.fbPut x y w h' (List.replicate (w * h') px)) := by
  rw [MfRenderer.fbPut_eq h.pos]
  refine ⟨⟨(fill_size ..).1.trans h.width, (fill_size ..).2.trans h.height, h.pos, fun px' py' hpx hpy => ?_⟩, rfl⟩
  rw [fill_fb canvas _ _ _ _ _ (hpx.trans_eq h.width.symm) (hpy.trans_eq h.height.symm), h.fb px' py' hpx hpy]
  dsimp only
  by_cases hin : Within x y w h' px' py'
  · have hplace := hin
    obtain ⟨hx, hx', hy, hy'⟩ := hplace
    have hrow := row_le_of_whole (List.length_replicate.ge : w * h' ≤ (List.replicate (w * h') px).length)
      (show py' - y < h' by omega) (Nat.min_le_right (r.fb_w - x) w)
    have hlt : (py' - y) * w + (px' - x) < w * h' :=
      row_le_of_whole le_rfl (show py' - y < h' by omega) (show px' - x + 1 ≤ w by omega)
    rw [if_pos hin, if_pos ⟨⟨hpx, hpy, hin⟩, hrow⟩, List.getD_eq_getElem?_getD, List.getElem?_replicate, if_pos hlt,
      Option.getD_some]
  · rw [if_neg hin, if_neg fun hin' => hin hin'.1.2.2]

theorem fill_empty (h : SameFb canvas r) (x y : ℕ) {w h' : ℕ} (hempty : w = 0 ∨ h' = 0) (px : Pixel) :
    Alike r (canvas.fill x y w h' px) r := by
  refine ⟨⟨(fill_size ..).1.trans h.width, (fill_size ..).2.trans h.height, h.pos, fun px' py' hpx hpy => ?_⟩, rfl⟩
  rw [fill_fb canvas _ _ _ _ _ (hpx.trans_eq h.width.symm) (hpy.trans_eq h.height.symm), if_neg, h.fb px' py' hpx hpy]
  unfold Within
  omega

theorem tile (h : SameFb canvas r) {p : ℕ × ℕ} (hrange : p.1 < 65536 ∧ p.2 < 65536) (dest : Rect16)
    (rgba : List Pixel) :
    Alike r (canvas.put p.1 p.2 dest.width dest.height rgba)
      (r.shadowBlits [.rgba (clamp p.1) (clamp p.2) (dest.right - min dest.left dest.right)
        (dest.bottom - min dest.top dest.bottom) rgba]) := by
  show Alike r _ (r.fbPut (clamp p.1).toNat (clamp p.2).toNat (dest.right - min dest.left dest.right).toNat
    (dest.bottom - min dest.top dest.bottom).toNat rgba)
  rw [toNat_clamp, toNat_clamp, min_eq_left (Nat.le_of_lt_succ hrange.1), min_eq_left (Nat.le_of_lt_succ hrange.2),
    toNat_saturatingSub, toNat_saturatingSub]
  exact h.put ..

theorem copy (h : SameFb canvas r) {sx sy w h' dx dy : ℕ}
    (hsrc : Both.ScrollWithin canvas (sx, sy) (dx, dy) w h') :
    Alike r (canvas.copyWithin sx sy w h' dx dy) (r.fbPut dx dy w h' (r.fbRegion sx sy w h')) := by
  rw [MfRenderer.fbPut_eq h.pos]
  refine ⟨⟨(copyWithin_size ..).1.trans h.width, (copyWithin_size ..).2.trans h.height, h.pos,
    fun px py hpx hpy => ?_⟩, rfl⟩
  have hcx := hpx.trans_eq h.width.symm
  have hcy := hpy.trans_eq h.height.symm
  rw [copyWithin_fb canvas _ _ _ _ _ _ hcx hcy, h.width, h.height]
  dsimp only
  by_cases hin : Within dx dy w h' px py
  · have hplace := hin
    obtain ⟨hx, hx', hy, hy'⟩ := hplace
    have hlen : (r.fbRegion sx sy w h').length = w * h' := by
      rw [MfRenderer.fbRegion, List.length_map, List.length_range]
    have hrow := row_le_of_whole hlen.ge (show py - dy < h' by omega) (Nat.min_le_right (r.fb_w - dx) w)
    have hpixel := getD_grid (fun i j => if sx + i < r.fb_w ∧ sy + j < r.fb_h then r.fb (sx + i) (sy + j) else .black)
      (show px - dx < w by omega) (show py - dy < h' by omega) Pixel.black
    have hpixel : (r.fbRegion sx sy w h').getD ((py - dy) * w + (px - dx)) .black = _ := hpixel
    by_cases hsource : sx + (px - dx) < r.fb_w ∧ sy + (py - dy) < r.fb_h
    · rw [if_pos ⟨hin, hsource⟩, if_pos ⟨⟨hpx, hpy, hin⟩, hrow⟩, hpixel, if_pos hsource, h.fb _ _ hsource.1 hsource.2]
    · -- Outside the desktop: nothing is copied, and black is written.
      have hblack := hsrc (px - dx) (by omega) (py - dy) (by omega) (by dsimp only; omega) (by dsimp only; omega)
      dsimp only at hblack
      rw [Nat.add_sub_cancel' hx, Nat.add_sub_cancel' hy, h.width, h.height] at hblack
      rw [if_neg fun hin' => hsource hin'.2, if_pos ⟨⟨hpx, hpy, hin⟩, hrow⟩, hpixel, if_neg hsource]
      exact hblack.resolve_left hsource
  · rw [if_neg fun hin' => hin hin'.1, if_neg fun hin' => hin hin'.1.2.2, h.fb px py hpx hpy]

end SameFb

theorem Alike.trans {κ π θ : Type} {r r' r'' : MfRenderer κ π θ} {canvas' canvas'' : Canvas} (h : Alike r canvas' r')
    (h' : Alike r' canvas'' r'') : Alike r canvas'' r'' := by
  refine ⟨h'.same, ?_⟩
  have hframe := h'.frame
  rw [h.frame] at hframe
  exact hframe

theorem alike_foldl {κ π θ α : Type} {draw : Canvas → α → Canvas} {put : MfRenderer κ π θ → α → MfRenderer κ π θ}
    {items : List α} (hstep : ∀ canvas r, ∀ a ∈ items, SameFb canvas r → Alike r (draw canvas a) (put r a))
    {canvas : Canvas} {r : MfRenderer κ π θ} (h : SameFb canvas r) :
    Alike r (items.foldl draw canvas) (items.foldl put r) := by
  induction items generalizing canvas r with
  | nil => exact ⟨h, rfl⟩
  | cons a items ih =>
    have hfirst := hstep canvas r a List.mem_cons_self h
    exact hfirst.trans (ih (fun canvas r b hb => hstep canvas r b (List.mem_cons_of_mem a hb)) hfirst.same)

end Rdpio.Client
