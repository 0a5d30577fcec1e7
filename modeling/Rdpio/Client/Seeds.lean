import Rdpio.Client.Screen

/-!
# What ClearCodec builds on

Where the shadow and the screen agree, over a run of commands: each blit keeps it (`Agree`), a copy's
destinations as long as the source is not copied over, and so does each command (`Agrees.step`).
-/

namespace Rdpio.Client

open Graphics Android Lib

/-! ## What one blit changes -/

theorem toNat_clamp (v : ℕ) : (clamp v).toNat = min v 65535 := by
  unfold clamp
  split
  · rw [UInt16.toNat_ofNat', Nat.mod_eq_of_lt ‹_›]
    omega
  · show 65535 = min v 65535
    omega

theorem within_min {x y w h W H px py : ℕ} :
    Within x y (min (W - x) w) (min (H - y) h) px py ↔ px < W ∧ py < H ∧ Within x y w h px py := by
  unfold Within
  omega

namespace MfRenderer

variable {κ π θ : Type} {r : MfRenderer κ π θ}

theorem fbPut_eq (hpos : 0 < r.fb_w) (x y w h : ℕ) (rgba : List Pixel) : r.fbPut x y w h rgba =
      { r with fb := fun px py =>
          if (px < r.fb_w ∧ py < r.fb_h ∧ Within x y w h px py) ∧ (py - y) * w + min (r.fb_w - x) w ≤ rgba.length then
            rgba.getD ((py - y) * w + (px - x)) .black
          else r.fb px py } := by
  unfold fbPut
  dsimp only
  rw [if_neg hpos.ne']
  split
  · have hfb : r.fb = fun px py =>
        if (px < r.fb_w ∧ py < r.fb_h ∧ Within x y w h px py) ∧ (py - y) * w + min (r.fb_w - x) w ≤ rgba.length then
          rgba.getD ((py - y) * w + (px - x)) .black
        else r.fb px py := by
      funext px py
      refine (if_neg fun hin => ?_).symm
      obtain ⟨⟨hpx, _, hx, _⟩, _⟩ := hin
      omega
    rw [← hfb]
  · simp only [within_min]

theorem fbPut_gfx_cache (x y w h : ℕ) (rgba : List Pixel) : (r.fbPut x y w h rgba).gfx_cache = r.gfx_cache := by
  unfold fbPut fbEnsure
  dsimp only
  split_ifs <;> rfl

theorem fbPutAll_gfx_cache (o : UInt32 × UInt32) (w h : ℕ) (rgba : List Pixel) (dest_pts : List Point16) :
    (r.fbPutAll o w h rgba dest_pts).gfx_cache = r.gfx_cache := by
  induction dest_pts generalizing r with
  | nil => rfl
  | cons p dest_pts ih => exact (ih (r := r.fbPut _ _ _ _ _)).trans (fbPut_gfx_cache ..)

end MfRenderer

namespace Sink

variable {s : Sink}

theorem updateRect_eq (hpos : 0 < s.fb_width) (x y w h : ℕ) (rgba : List Pixel) : s.updateRect x y w h rgba =
      { s with fb := fun px py =>
          if (px < s.fb_width ∧ py < s.fb_height ∧ Within x y w h px py) ∧ w * h ≤ rgba.length then
            rgba.getD ((py - y) * w + (px - x)) .black
          else s.fb px py } := by
  unfold updateRect ensureSome
  dsimp only
  rw [if_neg hpos.ne']
  split
  · have hfb : s.fb = fun px py =>
        if (px < s.fb_width ∧ py < s.fb_height ∧ Within x y w h px py) ∧ w * h ≤ rgba.length then
          rgba.getD ((py - y) * w + (px - x)) .black
        else s.fb px py := by
      funext px py
      refine (if_neg fun hin => ?_).symm
      obtain ⟨⟨hpx, hpy, hx, hx', hy, hy'⟩, hlen⟩ := hin
      omega
    rw [← hfb]
  · have hin : ∀ px py, Within x y (min (x + w) s.fb_width - x) (min (y + h) s.fb_height - y) px py ↔
        (px < s.fb_width ∧ py < s.fb_height ∧ Within x y w h px py) ∧ w * h ≤ rgba.length := by
      intro px py
      unfold Within
      omega
    simp only [hin]

theorem copyRect_eq (sx sy w h dx dy : ℕ) : s.copyRect sx sy w h dx dy =
      { s with fb := fun px py =>
          if (px < s.fb_width ∧ py < s.fb_height ∧ Within dx dy w h px py) ∧
              sx + (px - dx) < s.fb_width ∧ sy + (py - dy) < s.fb_height then
            s.fb (sx + (px - dx)) (sy + (py - dy))
          else s.fb px py } := by
  unfold copyRect
  dsimp only
  split
  · have hfb : s.fb = fun px py =>
        if (px < s.fb_width ∧ py < s.fb_height ∧ Within dx dy w h px py) ∧
            sx + (px - dx) < s.fb_width ∧ sy + (py - dy) < s.fb_height then
          s.fb (sx + (px - dx)) (sy + (py - dy))
        else s.fb px py := by
      funext px py
      refine (if_neg fun hin => ?_).symm
      obtain ⟨⟨hpx, hpy, hx, hx', hy, hy'⟩, hsx, hsy⟩ := hin
      omega
    rw [← hfb]
  · have hin : ∀ px py, Within dx dy (min (min w (s.fb_width - sx)) (s.fb_width - dx))
        (min (min h (s.fb_height - sy)) (s.fb_height - dy)) px py ↔
        (px < s.fb_width ∧ py < s.fb_height ∧ Within dx dy w h px py) ∧
          sx + (px - dx) < s.fb_width ∧ sy + (py - dy) < s.fb_height := by
      intro px py
      unfold Within
      omega
    simp only [hin]

theorem cacheBlit_eq {slot : UInt16} {w h : ℕ} {pixel : ℕ → ℕ → Pixel}
    (hslot : s.gfx_cache slot = some (w, h, pixel)) (dx dy : ℕ) :
    s.cacheBlit slot dx dy =
      { s with fb := fun px py =>
          if px < s.fb_width ∧ py < s.fb_height ∧ Within dx dy w h px py then pixel (px - dx) (py - dy)
          else s.fb px py } := by
  unfold cacheBlit
  rw [hslot]
  dsimp only
  split
  · have hfb : s.fb = fun px py =>
        if px < s.fb_width ∧ py < s.fb_height ∧ Within dx dy w h px py then pixel (px - dx) (py - dy)
        else s.fb px py := by
      funext px py
      refine (if_neg fun hin => ?_).symm
      obtain ⟨hpx, hpy, hx, hx', hy, hy'⟩ := hin
      omega
    rw [← hfb]
  · have hin : ∀ px py, Within dx dy (min w (s.fb_width - dx)) (min h (s.fb_height - dy)) px py ↔
        px < s.fb_width ∧ py < s.fb_height ∧ Within dx dy w h px py := by
      intro px py
      unfold Within
      omega
    simp only [hin]

theorem blitPicture_eq (hpos : 0 < s.fb_width) (x y w h : ℕ) (pixel : ℕ → ℕ → Pixel) (rects : List DirtyRect) :
    s.blitPicture x y w h pixel rects =
      { s with fb := fun px py =>
          if Within x y w h px py ∧ Dirty rects (px - x) (py - y) then pixel (px - x) (py - y)
          else s.fb px py } := by
  unfold blitPicture ensureSome
  rw [if_neg hpos.ne']

end Sink

/-! ## The two framebuffers -/

/-- The shadow and the screen are of one size, and agree in the places that are fresh; so do the two caches. -/
structure Agree {κ π θ : Type} (r : MfRenderer κ π θ) (s : Sink) (f : Fresh) : Prop where
  width : s.fb_width = r.fb_w
  height : s.fb_height = r.fb_h
  pos : 0 < r.fb_w
  width_lt : r.fb_w < 65536
  height_lt : r.fb_h < 65536
  desktop : ∀ px py, px < r.fb_w → py < r.fb_h → f.desktop px py = true → s.fb px py = r.fb px py
  whole : ∀ slot w h px, r.gfx_cache slot = some (w, h, px) → px.length = w * h
  cached : ∀ slot i j, f.cached slot i j = true →
    ∃ w h px w' h' pixel, r.gfx_cache slot = some (w, h, px) ∧ s.gfx_cache slot = some (w', h', pixel) ∧
      (i < w ∧ j < h) ∧ (i < w' ∧ j < h') ∧ pixel i j = px.getD (j * w + i) .black

namespace Agree

variable {κ π θ : Type} {r : MfRenderer κ π θ} {s : Sink} {f : Fresh}

theorem sink_pos (h : Agree r s f) : 0 < s.fb_width := h.width ▸ h.pos

theorem draw (h : Agree r s f) {fb sfb : ℕ → ℕ → Pixel} {desktop kept : ℕ → ℕ → Bool}
    (hdesktop : ∀ px py, px < r.fb_w → py < r.fb_h → desktop px py = true → sfb px py = fb px py) :
    Agree { r with fb := fb } { s with fb := sfb } { f with desktop := desktop, kept := kept } :=
  ⟨h.width, h.height, h.pos, h.width_lt, h.height_lt, hdesktop, h.whole, h.cached⟩

theorem rgba (h : Agree r s f) (cache : UInt16 → Option (ℕ × ℕ × List Pixel)) (x y w h' : UInt16)
    (rgba : List Pixel) :
    Agree (r.shadowBlit (.rgba x y w h' rgba)) (s.blit (.rgba x y w h' rgba))
      (f.blit cache s (.rgba x y w h' rgba)) := by
  show Agree (r.fbPut x.toNat y.toNat w.toNat h'.toNat rgba) (s.updateRect x.toNat y.toNat w.toNat h'.toNat rgba) _
  rw [MfRenderer.fbPut_eq h.pos, Sink.updateRect_eq h.sink_pos]
  refine h.draw fun px py hpx hpy hfresh => ?_
  rw [h.width, h.height]
  by_cases hin : Within x.toNat y.toNat w.toNat h'.toNat px py
  · rw [if_pos hin] at hfresh
    have hlen : w.toNat * h'.toNat ≤ rgba.length := of_decide_eq_true hfresh
    have hplace := hin
    obtain ⟨_, _, hy, hy'⟩ := hplace
    have hrow := row_le_of_whole hlen (show py - y.toNat < h'.toNat by omega) (Nat.min_le_right (r.fb_w - x.toNat) _)
    rw [if_pos ⟨⟨hpx, hpy, hin⟩, hlen⟩, if_pos ⟨⟨hpx, hpy, hin⟩, hrow⟩]
  · rw [if_neg hin] at hfresh
    rw [if_neg fun hin' => hin hin'.1.2.2, if_neg fun hin' => hin hin'.1.2.2]
    exact h.desktop px py hpx hpy hfresh

theorem picture (h : Agree r s f) (cache : UInt16 → Option (ℕ × ℕ × List Pixel)) (x y w h' : UInt16)
    (pixel : ℕ → ℕ → Pixel) (rects : List DirtyRect) :
    Agree (r.shadowBlit (.picture x y w h' pixel rects)) (s.blit (.picture x y w h' pixel rects))
      (f.blit cache s (.picture x y w h' pixel rects)) := by
  show Agree r (s.blitPicture x.toNat y.toNat w.toNat h'.toNat pixel rects) _
  rw [Sink.blitPicture_eq h.sink_pos]
  refine h.draw fun px py hpx hpy hfresh => ?_
  by_cases hin : Within x.toNat y.toNat w.toNat h'.toNat px py ∧ Sink.Dirty rects (px - x.toNat) (py - y.toNat)
  · rw [if_pos hin] at hfresh
    cases hfresh
  · rw [if_neg hin] at hfresh ⊢
    exact h.desktop px py hpx hpy hfresh

theorem copyRect (h : Agree r s f) {fb : ℕ → ℕ → Pixel}
    (hkept : ∀ px py, f.kept px py = true → r.fb px py = fb px py)
    {sx sy w h' : ℕ} {rgba : List Pixel} (hlen : w * h' ≤ rgba.length)
    (hrgba : ∀ i j, i < w → j < h' → sx + i < r.fb_w → sy + j < r.fb_h →
      rgba.getD (j * w + i) .black = fb (sx + i) (sy + j)) (dx dy : ℕ) :
    Agree (r.fbPut dx dy w h' rgba) (s.copyRect (min sx 65535) (min sy 65535) w h' (min dx 65535) (min dy 65535))
      (f.copyRect s (min sx 65535) (min sy 65535) w h' (min dx 65535) (min dy 65535)) ∧
      ∀ qx qy, (f.copyRect s (min sx 65535) (min sy 65535) w h' (min dx 65535) (min dy 65535)).kept qx qy = true →
        (r.fbPut dx dy w h' rgba).fb qx qy = fb qx qy := by
  have hlt := h.width_lt
  have hlt' := h.height_lt
  -- A place within the desktop is not at the bound.
  have hwithin : ∀ px py, px < r.fb_w → py < r.fb_h →
      (Within (min dx 65535) (min dy 65535) w h' px py ↔ Within dx dy w h' px py) := by
    intro px py hpx hpy
    unfold Within
    omega
  rw [MfRenderer.fbPut_eq h.pos, Sink.copyRect_eq]
  constructor
  · refine h.draw fun px py hpx hpy hfresh => ?_
    rw [Fresh.copied, h.width, h.height] at hfresh
    rw [h.width, h.height]
    by_cases hin : Within dx dy w h' px py
    · rw [if_pos ((hwithin px py hpx hpy).mpr hin)] at hfresh
      simp only [Bool.and_eq_true, decide_eq_true_eq] at hfresh
      obtain ⟨⟨⟨hsx, hsy⟩, hk⟩, hd⟩ := hfresh
      have hplace := hin
      obtain ⟨hx1, hx2, hy1, hy2⟩ := hplace
      have hrow := row_le_of_whole hlen (show py - dy < h' by omega) (Nat.min_le_right (r.fb_w - dx) w)
      rw [if_pos ⟨⟨hpx, hpy, (hwithin px py hpx hpy).mpr hin⟩, hsx, hsy⟩, if_pos ⟨⟨hpx, hpy, hin⟩, hrow⟩]
      have hx : min sx 65535 + (px - min dx 65535) = sx + (px - dx) := by omega
      have hy : min sy 65535 + (py - min dy 65535) = sy + (py - dy) := by omega
      rw [hx] at hsx hk hd ⊢
      rw [hy] at hsy hk hd ⊢
      rw [h.desktop _ _ hsx hsy hd, hkept _ _ hk, hrgba _ _ (by omega) (by omega) hsx hsy]
    · rw [if_neg fun hin' => hin ((hwithin px py hpx hpy).mp hin')] at hfresh
      rw [if_neg fun hin' => hin ((hwithin px py hpx hpy).mp hin'.1.2.2), if_neg fun hin' => hin hin'.1.2.2]
      exact h.desktop px py hpx hpy hfresh
  · intro qx qy hk
    have hk : (f.kept qx qy && !decide (Within (min dx 65535) (min dy 65535) w h' qx qy)) = true := hk
    rw [Bool.and_eq_true, Bool.not_eq_true', decide_eq_false_iff_not] at hk
    rw [← hkept qx qy hk.1]
    exact if_neg fun hin => hk.2 ((hwithin qx qy hin.1.1 hin.1.2.1).mpr hin.1.2.2)

theorem congr (h : Agree r s f) {r' : MfRenderer κ π θ} {f' : Fresh} (hfb : r'.fb = r.fb) (hw : r'.fb_w = r.fb_w)
    (hh : r'.fb_h = r.fb_h) (hcache : r'.gfx_cache = r.gfx_cache) (hdesktop : f'.desktop = f.desktop)
    (hcached : f'.cached = f.cached) : Agree r' s f' := by
  refine ⟨h.width.trans hw.symm, h.height.trans hh.symm, hw ▸ h.pos, hw ▸ h.width_lt, hh ▸ h.height_lt, ?_, ?_, ?_⟩
  · rw [hfb, hw, hh, hdesktop]
    exact h.desktop
  · rw [hcache]
    exact h.whole
  · rw [hcache, hcached]
    exact h.cached

theorem cacheRect (h : Agree r s f) (slot : UInt16) (sx sy w h' : ℕ) :
    Agree { r with gfx_cache := Function.update r.gfx_cache slot (some (w, h', r.fbRegion sx sy w h')) }
      (s.cacheRect slot (min sx 65535) (min sy 65535) w h')
      (f.cacheRect s slot (min sx 65535) (min sy 65535) w h') := by
  have hlt := h.width_lt
  have hlt' := h.height_lt
  have hframe : (s.cacheRect slot (min sx 65535) (min sy 65535) w h').fb = s.fb ∧
      (s.cacheRect slot (min sx 65535) (min sy 65535) w h').fb_width = s.fb_width ∧
      (s.cacheRect slot (min sx 65535) (min sy 65535) w h').fb_height = s.fb_height ∧
      ∀ slot', slot' ≠ slot →
        (s.cacheRect slot (min sx 65535) (min sy 65535) w h').gfx_cache slot' = s.gfx_cache slot' := by
    unfold Sink.cacheRect
    split
    · exact ⟨rfl, rfl, rfl, fun _ _ => rfl⟩
    · exact ⟨rfl, rfl, rfl, fun slot' hne => Function.update_of_ne hne ..⟩
  obtain ⟨hfb, hwidth, hheight, hother⟩ := hframe
  refine ⟨hwidth.trans h.width, hheight.trans h.height, h.pos, h.width_lt, h.height_lt, ?_, ?_, ?_⟩
  · rw [hfb]
    exact h.desktop
  · intro slot' w₀ h₀ px hentry
    have hentry : Function.update r.gfx_cache slot (some (w, h', r.fbRegion sx sy w h')) slot' =
      some (w₀, h₀, px) := hentry
    by_cases hslot : slot' = slot
    · rw [hslot, Function.update_self] at hentry
      cases hentry
      rw [MfRenderer.fbRegion, List.length_map, List.length_range]
    · rw [Function.update_of_ne hslot] at hentry
      exact h.whole slot' w₀ h₀ px hentry
  · intro slot' i j hfresh
    show ∃ w₀ h₀ px w₁ h₁ pixel, Function.update r.gfx_cache slot _ slot' = some (w₀, h₀, px) ∧
      _ = some (w₁, h₁, pixel) ∧ _
    rw [Fresh.cacheRect] at hfresh
    by_cases hslot : slot' = slot
    · rw [hslot]
      simp only [hslot, Function.update_self, Bool.and_eq_true, decide_eq_true_eq] at hfresh
      obtain ⟨⟨⟨⟨hi, hj⟩, hsx⟩, hsy⟩, hd⟩ := hfresh
      rw [h.width] at hsx
      rw [h.height] at hsy
      have hx : min sx 65535 = sx := by omega
      have hy : min sy 65535 = sy := by omega
      rw [hx] at hsx hd ⊢
      rw [hy] at hsy hd ⊢
      refine ⟨w, h', _, min w (s.fb_width - sx), min h' (s.fb_height - sy), fun i j => s.fb (sx + i) (sy + j),
        Function.update_self .., ?_, ⟨hi, hj⟩, ⟨?_, ?_⟩, ?_⟩
      · rw [Sink.cacheRect, if_neg (by rw [h.width, h.height]; omega)]
        exact Function.update_self ..
      · rw [h.width]
        omega
      · rw [h.height]
        omega
      · show s.fb (sx + i) (sy + j) = _
        rw [h.desktop _ _ hsx hsy hd, MfRenderer.fbRegion,
          getD_grid (fun i j => if sx + i < r.fb_w ∧ sy + j < r.fb_h then r.fb (sx + i) (sy + j) else .black) hi hj,
          if_pos ⟨hsx, hsy⟩]
    · rw [hother slot' hslot, Function.update_of_ne hslot]
      have hfresh : Function.update f.cached slot _ slot' i j = true := hfresh
      rw [Function.update_of_ne hslot] at hfresh
      exact h.cached slot' i j hfresh

theorem cacheBlit (h : Agree r s f) {slot : UInt16} {w h' : ℕ} {px : List Pixel}
    (hslot : r.gfx_cache slot = some (w, h', px)) (dx dy : ℕ) :
    Agree (r.fbPut dx dy w h' px) (s.cacheBlit slot (min dx 65535) (min dy 65535))
      (f.cacheBlit r.gfx_cache s slot (min dx 65535) (min dy 65535)) := by
  have hlt := h.width_lt
  have hlt' := h.height_lt
  have hlen : w * h' ≤ px.length := (h.whole slot w h' px hslot).ge
  -- A place that is not in the rectangle of either.
  have hrest : ∀ qx qy, qx < r.fb_w → qy < r.fb_h → ¬(min dx 65535 ≤ qx ∧ min dy 65535 ≤ qy ∧
      Fresh.stored r.gfx_cache s slot (qx - min dx 65535) (qy - min dy 65535) = true) →
      ¬Within dx dy w h' qx qy ∧ ∀ w₁ h₁ pixel, s.gfx_cache slot = some (w₁, h₁, pixel) →
        ¬Within (min dx 65535) (min dy 65535) w₁ h₁ qx qy := by
    intro qx qy hqx hqy hnot
    rw [Fresh.stored, hslot] at hnot
    simp only [Option.any_some, Bool.or_eq_true, Bool.and_eq_true, decide_eq_true_eq] at hnot
    refine ⟨fun hin => hnot ?_, fun w₁ h₁ pixel hsome hin => hnot ?_⟩
    · obtain ⟨hx1, hx2, hy1, hy2⟩ := hin
      exact ⟨by omega, by omega, .inl ⟨by omega, by omega⟩⟩
    · obtain ⟨hx1, hx2, hy1, hy2⟩ := hin
      rw [hsome]
      refine ⟨hx1, hy1, .inr ?_⟩
      simp only [Option.any_some, Bool.and_eq_true, decide_eq_true_eq]
      exact ⟨by omega, by omega⟩
  rw [MfRenderer.fbPut_eq h.pos]
  rcases hsink : s.gfx_cache slot with _ | ⟨w₁, h₁, pixel⟩
  · have hnone : s.cacheBlit slot (min dx 65535) (min dy 65535) = s := by rw [Sink.cacheBlit, hsink]
    rw [hnone]
    refine h.draw fun qx qy hqx hqy hfresh => ?_
    by_cases hcov : min dx 65535 ≤ qx ∧ min dy 65535 ≤ qy ∧
        Fresh.stored r.gfx_cache s slot (qx - min dx 65535) (qy - min dy 65535) = true
    · rw [if_pos hcov] at hfresh
      obtain ⟨_, _, _, _, _, _, _, hsome, _⟩ := h.cached slot _ _ hfresh
      rw [hsink] at hsome
      cases hsome
    · rw [if_neg hcov] at hfresh
      rw [if_neg fun hin => (hrest qx qy hqx hqy hcov).1 hin.1.2.2]
      exact h.desktop qx qy hqx hqy hfresh
  · rw [Sink.cacheBlit_eq hsink]
    refine h.draw fun qx qy hqx hqy hfresh => ?_
    rw [h.width, h.height]
    by_cases hcov : min dx 65535 ≤ qx ∧ min dy 65535 ≤ qy ∧
        Fresh.stored r.gfx_cache s slot (qx - min dx 65535) (qy - min dy 65535) = true
    · rw [if_pos hcov] at hfresh
      obtain ⟨w₀, h₀, px₀, w₂, h₂, pixel₂, hr, hs, ⟨hi, hj⟩, ⟨hi', hj'⟩, hpixel⟩ := h.cached slot _ _ hfresh
      rw [hslot] at hr
      cases hr
      rw [hsink] at hs
      cases hs
      have hx : min dx 65535 = dx := by omega
      have hy : min dy 65535 = dy := by omega
      rw [hx] at hi hi' hpixel hcov ⊢
      rw [hy] at hj hj' hpixel hcov ⊢
      have hrow := row_le_of_whole hlen hj (Nat.min_le_right (r.fb_w - dx) w)
      rw [if_pos ⟨hqx, hqy, hcov.1, by omega, hcov.2.1, by omega⟩,
        if_pos ⟨⟨hqx, hqy, hcov.1, by omega, hcov.2.1, by omega⟩, hrow⟩]
      exact hpixel
    · rw [if_neg hcov] at hfresh
      rw [if_neg fun hin => (hrest qx qy hqx hqy hcov).2 w₁ h₁ pixel hsink hin.2.2,
        if_neg fun hin => (hrest qx qy hqx hqy hcov).1 hin.1.2.2]
      exact h.desktop qx qy hqx hqy hfresh

end Agree

/-! ## A command -/

def GfxBlit.Paints : GfxBlit → Prop
  | .rgba .. | .picture .. => True
  | _ => False

namespace MfRenderer

variable {κ π η θ : Type} {codecs : Codecs κ π η} {decoders : AvcDecoders θ}

/-- A command comes to blits that are all mirrored, and to changes that the shadow has no part in. -/
def Mirrors (r : MfRenderer κ π θ) (out : MfRenderer κ π θ × List GfxBlit) : Prop :=
  ∃ (r' : MfRenderer κ π θ) (blits : List GfxBlit), out = r'.mirrored blits ∧ r'.fb = r.fb ∧ r'.fb_w = r.fb_w ∧
    r'.fb_h = r.fb_h ∧ r'.gfx_cache = r.gfx_cache ∧ ∀ b ∈ blits, b.Paints

variable {r : MfRenderer κ π θ}

theorem mirrors_nil : r.Mirrors (r, []) := ⟨r, [], rfl, rfl, rfl, rfl, rfl, fun _ hb => absurd hb List.not_mem_nil⟩

theorem mirrors_solidFill (surface_id : UInt16) (color : UInt32) (rects : List Rect16) :
    r.Mirrors (r.solidFill surface_id color rects) := by
  refine ⟨r, _, rfl, rfl, rfl, rfl, rfl, fun b hb => ?_⟩
  obtain ⟨rect, _, hrect⟩ := List.mem_filterMap.mp hb
  dsimp only at hrect
  split at hrect
  · cases hrect
  · cases hrect
    trivial

theorem mirrors_wireToSurface2 (surface_id : UInt16) (codec_context_id : UInt32) (bitmap : List UInt8) :
    r.Mirrors (r.wireToSurface2 codecs surface_id codec_context_id bitmap) := by
  refine ⟨_, _, rfl, rfl, rfl, rfl, rfl, fun b hb => ?_⟩
  obtain ⟨run, _, hrun⟩ := List.mem_filterMap.mp hb
  unfold bandBlit at hrun
  split at hrun
  · cases hrun
  · cases hrun
    trivial

theorem paints_tile {rgba : Option (List Pixel)} {x y w h : UInt16} :
    ∀ b ∈ (rgba.map fun rgba => GfxBlit.rgba x y w h rgba).toList, b.Paints := by
  intro b hb
  obtain ⟨px, _, rfl⟩ := Option.map_eq_some_iff.mp (Option.mem_toList.mp hb)
  trivial

theorem mirrors_wireToSurface1 (surface_id codec_id : UInt16) (dest : Rect16) (bitmap : List UInt8) :
    r.Mirrors (r.wireToSurface1 codecs decoders surface_id codec_id dest bitmap) := by
  unfold wireToSurface1
  split
  · refine ⟨_, _, rfl, rfl, rfl, rfl, rfl, fun b hb => ?_⟩
    obtain ⟨d, _, rfl⟩ := List.mem_map.mp hb
    cases d <;> trivial
  · split
    · exact ⟨r, _, rfl, rfl, rfl, rfl, rfl, paints_tile⟩
    · split
      · exact ⟨_, _, rfl, rfl, rfl, rfl, rfl, paints_tile⟩
      · exact mirrors_nil

end MfRenderer

namespace Screen

variable {κ π η θ : Type} {codecs : Codecs κ π η} {decoders : AvcDecoders θ} {m : Screen κ π θ}

theorem foldl_blit_renderer (blits : List GfxBlit) : (blits.foldl blit m).renderer = m.renderer := by
  induction blits generalizing m with
  | nil => rfl
  | cons b blits ih => exact ih

theorem agree_mirrored {r : MfRenderer κ π θ} (h : Agree r m.sink m.fresh) {blits : List GfxBlit}
    (hpaints : ∀ b ∈ blits, b.Paints) :
    Agree (r.shadowBlits blits) (blits.foldl blit m).sink (blits.foldl blit m).fresh := by
  induction blits generalizing r m with
  | nil => exact h
  | cons b blits ih =>
    have hrest : ∀ b ∈ blits, b.Paints := fun b hb => hpaints b (List.mem_cons_of_mem _ hb)
    have hfirst := hpaints b List.mem_cons_self
    cases b with
    | rgba x y w h' rgba => exact ih (m := m.blit _) (h.rgba m.renderer.gfx_cache x y w h' rgba) hrest
    | picture x y w h' pixel rects =>
      exact ih (m := m.blit _) (h.picture m.renderer.gfx_cache x y w h' pixel rects) hrest
    | _ => exact hfirst.elim

theorem agree_copies {r : MfRenderer κ π θ} (h : Agree r m.sink m.fresh) {fb : ℕ → ℕ → Pixel}
    (hkept : ∀ px py, m.fresh.kept px py = true → r.fb px py = fb px py) {sx sy w h' : ℕ} (hw : w < 65536)
    (hh : h' < 65536) {rgba : List Pixel} (hlen : w * h' ≤ rgba.length)
    (hrgba : ∀ i j, i < w → j < h' → sx + i < r.fb_w → sy + j < r.fb_h →
      rgba.getD (j * w + i) .black = fb (sx + i) (sy + j)) (o : UInt32 × UInt32) (dest_pts : List Point16) :
    let blits := dest_pts.map fun p => GfxBlit.copyRect (clamp sx) (clamp sy) (clamp w) (clamp h')
      (clamp (placed o p.x p.y).1) (clamp (placed o p.x p.y).2)
    Agree (r.fbPutAll o w h' rgba dest_pts) (blits.foldl blit m).sink (blits.foldl blit m).fresh := by
  induction dest_pts generalizing r m with
  | nil => exact h
  | cons p dest_pts ih =>
    obtain ⟨hstep, hkept'⟩ := h.copyRect hkept hlen hrgba (placed o p.x p.y).1 (placed o p.x p.y).2
    have hw' : (clamp w).toNat = w := by rw [toNat_clamp]; omega
    have hh' : (clamp h').toNat = h' := by rw [toNat_clamp]; omega
    have hm : (m.blit (.copyRect (clamp sx) (clamp sy) (clamp w) (clamp h') (clamp (placed o p.x p.y).1)
        (clamp (placed o p.x p.y).2))).sink =
          m.sink.copyRect (min sx 65535) (min sy 65535) w h' (min (placed o p.x p.y).1 65535)
            (min (placed o p.x p.y).2 65535) ∧
        (m.blit (.copyRect (clamp sx) (clamp sy) (clamp w) (clamp h') (clamp (placed o p.x p.y).1)
          (clamp (placed o p.x p.y).2))).fresh =
          m.fresh.copyRect m.sink (min sx 65535) (min sy 65535) w h' (min (placed o p.x p.y).1 65535)
            (min (placed o p.x p.y).2 65535) := by
      unfold Screen.blit Sink.blit Fresh.blit
      dsimp only
      rw [hw', hh', toNat_clamp, toNat_clamp, toNat_clamp, toNat_clamp]
      exact ⟨rfl, rfl⟩
    rw [← hm.1, ← hm.2] at hstep
    rw [← hm.2] at hkept'
    have hsize : (r.fbPut (placed o p.x p.y).1 (placed o p.x p.y).2 w h' rgba).fb_w = r.fb_w ∧
        (r.fbPut (placed o p.x p.y).1 (placed o p.x p.y).2 w h' rgba).fb_h = r.fb_h := by
      rw [MfRenderer.fbPut_eq h.pos]
      exact ⟨rfl, rfl⟩
    exact ih hstep hkept' fun i j hi hj hsx hsy => hrgba i j hi hj (hsx.trans_eq hsize.1) (hsy.trans_eq hsize.2)

theorem agree_cacheBlits {r : MfRenderer κ π θ} (h : Agree r m.sink m.fresh)
    (hcache : m.renderer.gfx_cache = r.gfx_cache) {slot : UInt16} {w h' : ℕ} {px : List Pixel}
    (hslot : r.gfx_cache slot = some (w, h', px)) (o : UInt32 × UInt32) (dest_pts : List Point16) :
    let blits := dest_pts.map fun p => GfxBlit.cacheBlit slot (clamp (placed o p.x p.y).1) (clamp (placed o p.x p.y).2)
    Agree (r.fbPutAll o w h' px dest_pts) (blits.foldl blit m).sink (blits.foldl blit m).fresh := by
  induction dest_pts generalizing r m with
  | nil => exact h
  | cons p dest_pts ih =>
    have hstep := h.cacheBlit hslot (placed o p.x p.y).1 (placed o p.x p.y).2
    rw [← toNat_clamp, ← toNat_clamp, ← hcache] at hstep
    have hkeeps : (r.fbPut (placed o p.x p.y).1 (placed o p.x p.y).2 w h' px).gfx_cache = r.gfx_cache := by
      rw [MfRenderer.fbPut_eq h.pos]
    exact ih (m := m.blit _) hstep (hcache.trans hkeeps.symm) (hkeeps ▸ hslot)

def Agrees (m : Screen κ π θ) : Prop := Agree m.renderer m.sink m.fresh

theorem Agrees.begin (h : m.Agrees) {r : MfRenderer κ π θ} (hfb : r.fb = m.renderer.fb)
    (hw : r.fb_w = m.renderer.fb_w) (hh : r.fb_h = m.renderer.fb_h) (hcache : r.gfx_cache = m.renderer.gfx_cache) :
    Agree r m.sink { m.fresh with kept := fun _ _ => true } := Agree.congr h hfb hw hh hcache rfl rfl

theorem Agrees.mirrored (h : m.Agrees) {out : MfRenderer κ π θ × List GfxBlit} (hout : m.renderer.Mirrors out) :
    Agrees (out.2.foldl blit { m with renderer := out.1, fresh := { m.fresh with kept := fun _ _ => true } }) := by
  obtain ⟨r, blits, rfl, hfb, hw, hh, hcache, hpaints⟩ := hout
  unfold Agrees
  rw [foldl_blit_renderer]
  exact agree_mirrored (h.begin hfb hw hh hcache) hpaints

theorem toNat_toUInt16_of_lt {v : UInt32} (h : v.toNat < 65536) : v.toUInt16.toNat = v.toNat := by
  rw [UInt32.toNat_toUInt16, Nat.mod_eq_of_lt h]

theorem agree_reset {r : MfRenderer κ π θ} {s : Sink} {f : Fresh} (hwidth : s.fb_width = r.fb_w)
    (hheight : s.fb_height = r.fb_h)
    (hdesktop : ∀ px py, px < r.fb_w → py < r.fb_h → f.desktop px py = true → s.fb px py = r.fb px py)
    (hwhole : ∀ slot w h px, r.gfx_cache slot = some (w, h, px) → px.length = w * h)
    (hcached : ∀ slot i j, f.cached slot i j = true →
      ∃ w h px w' h' pixel, r.gfx_cache slot = some (w, h, px) ∧ s.gfx_cache slot = some (w', h', pixel) ∧
        (i < w ∧ j < h) ∧ (i < w' ∧ j < h') ∧ pixel i j = px.getD (j * w + i) .black)
    {width height monitor_count : UInt32} (hsized : sized (.resetGraphics width height monitor_count) = true) :
    Agree (r.fbEnsure width.toNat height.toNat) (resized ⟨r, s, f⟩ (.resetGraphics width height monitor_count)).sink
      (resized ⟨r, s, f⟩ (.resetGraphics width height monitor_count)).fresh := by
  simp only [sized, Bool.and_eq_true, decide_eq_true_eq, UInt32.lt_iff_toNat_lt] at hsized
  obtain ⟨⟨⟨hw, hw'⟩, hh⟩, hh'⟩ := hsized
  have hw : 0 < width.toNat := hw
  have hh : 0 < height.toNat := hh
  have hw' : width.toNat < 65536 := hw'
  have hh' : height.toNat < 65536 := hh'
  have hsink : s.resize width height = s.ensureFramebuffer width.toNat height.toNat := by
    rw [Sink.resize, toNat_toUInt16_of_lt hw', toNat_toUInt16_of_lt hh']
  unfold resized
  dsimp only
  rw [hsink, Sink.ensureFramebuffer, if_neg (by omega), MfRenderer.fbEnsure, hwidth, hheight]
  by_cases hsame : r.fb_w = width.toNat ∧ r.fb_h = height.toNat
  · rw [if_pos hsame, if_neg (by omega), if_pos ⟨hwidth, hheight⟩]
    exact ⟨hwidth, hheight, hsame.1 ▸ hw, hsame.1 ▸ hw', hsame.2 ▸ hh', hdesktop, hwhole, hcached⟩
  · rw [if_neg hsame, if_pos (by omega), if_neg (by dsimp only; omega)]
    exact ⟨rfl, rfl, hw, hw', hh', fun _ _ _ _ hfresh => (by cases hfresh), hwhole, hcached⟩

theorem Agrees.surfaceToSurface (h : m.Agrees) (surface_src surface_dst : UInt16) (rect : Rect16)
    (dest_pts : List Point16) :
    let out := m.renderer.surfaceToSurface surface_src surface_dst rect dest_pts
    Agrees (out.2.foldl blit { m with renderer := out.1, fresh := { m.fresh with kept := fun _ _ => true } }) := by
  have hbegin := h.begin rfl rfl rfl rfl
  unfold MfRenderer.surfaceToSurface Agrees
  dsimp only
  rw [foldl_blit_renderer]
  split
  · refine agree_copies hbegin (fun _ _ _ => rfl) rect.width_lt rect.height_lt ?_ ?_ _ dest_pts
    · rw [MfRenderer.fbRegion, List.length_map, List.length_range]
    · intro i j hi hj hsx hsy
      rw [MfRenderer.fbRegion, getD_grid (fun i j => if _ + i < m.renderer.fb_w ∧ _ + j < m.renderer.fb_h then
        m.renderer.fb (_ + i) (_ + j) else .black) hi hj, if_pos ⟨hsx, hsy⟩]
  · exact hbegin

theorem Agrees.surfaceToCache (h : m.Agrees) (surface_id slot : UInt16) (rect : Rect16) :
    let out := m.renderer.surfaceToCache surface_id slot rect
    Agrees (out.2.foldl blit { m with renderer := out.1, fresh := { m.fresh with kept := fun _ _ => true } }) := by
  have hbegin := h.begin rfl rfl rfl rfl
  unfold MfRenderer.surfaceToCache
  dsimp only
  split
  · have hw : (clamp rect.width).toNat = rect.width := by
      rw [toNat_clamp]
      exact min_eq_left (Nat.le_of_lt_succ rect.width_lt)
    have hh : (clamp rect.height).toNat = rect.height := by
      rw [toNat_clamp]
      exact min_eq_left (Nat.le_of_lt_succ rect.height_lt)
    have hcache := hbegin.cacheRect slot (placed (m.renderer.surfaces.origin surface_id) rect.left rect.top).1
      (placed (m.renderer.surfaces.origin surface_id) rect.left rect.top).2 rect.width rect.height
    show Agree _ (m.sink.cacheRect slot (clamp _).toNat (clamp _).toNat (clamp _).toNat (clamp _).toNat)
      (Fresh.cacheRect _ m.sink slot (clamp _).toNat (clamp _).toNat (clamp _).toNat (clamp _).toNat)
    rw [hw, hh, toNat_clamp, toNat_clamp]
    exact hcache
  · exact hbegin

theorem Agrees.cacheToSurface (h : m.Agrees) (slot surface_id : UInt16) (dest_pts : List Point16) :
    let out := m.renderer.cacheToSurface slot surface_id dest_pts
    Agrees (out.2.foldl blit { m with renderer := out.1, fresh := { m.fresh with kept := fun _ _ => true } }) := by
  have hbegin := h.begin rfl rfl rfl rfl
  unfold MfRenderer.cacheToSurface Agrees
  dsimp only
  rw [foldl_blit_renderer]
  split
  · exact agree_cacheBlits hbegin (MfRenderer.fbPutAll_gfx_cache ..) ‹_› _ dest_pts
  · exact hbegin

theorem Agrees.step (h : m.Agrees) {command : GfxCommand} (hsized : sized command = true) :
    (m.step codecs decoders command).Agrees := by
  cases command with
  | resetGraphics width height monitor_count =>
    let r : MfRenderer κ π θ := { m.renderer with
      desktop_w := width, desktop_h := height, avc := decoders.clear m.renderer.avc,
      progressive_decoders := fun _ => none }
    have hreset := agree_reset (r := r) h.width h.height h.desktop h.whole h.cached hsized
    exact hreset.congr rfl rfl rfl rfl rfl rfl
  | solidFill surface_id color rects => exact h.mirrored (MfRenderer.mirrors_solidFill ..)
  | surfaceToSurface surface_src surface_dst rect_src dest_pts => exact h.surfaceToSurface ..
  | surfaceToCache surface_id cache_key slot rect_src => exact h.surfaceToCache ..
  | cacheToSurface slot surface_id dest_pts => exact h.cacheToSurface ..
  | wireToSurface2 surface_id codec_id codec_context_id pixel_format bitmap =>
    exact h.mirrored (MfRenderer.mirrors_wireToSurface2 ..)
  | wireToSurface1 surface_id codec_id pixel_format dest bitmap =>
    exact h.mirrored (MfRenderer.mirrors_wireToSurface1 ..)
  | _ => exact h.begin rfl rfl rfl rfl

theorem Agrees.seedShown (h : m.Agrees) {command : GfxCommand} (hfresh : m.SeedFresh codecs command) :
    m.SeedShown codecs command := by
  cases command with
  | wireToSurface1 surface_id codec_id pixel_format dest bitmap =>
    intro hcodec px hseed
    let p := placed (m.renderer.surfaces.origin surface_id) dest.left dest.top
    have hsome : codec_id = CODECID_CLEARCODEC ∧ (m.renderer.seed codecs surface_id dest bitmap).isSome = true :=
      ⟨hcodec, by rw [hseed]; rfl⟩
    have hplaces := hfresh.2
    rw [seeded, if_pos hsome] at hplaces
    unfold MfRenderer.seed at hseed
    dsimp only at hseed
    split at hseed
    · rw [← Option.some.inj hseed, toNat_saturatingSub, toNat_saturatingSub]
      refine List.map_congr_left fun i hi => ?_
      show (if p.1 + i % dest.width < m.renderer.fb_w ∧ p.2 + i / dest.width < m.renderer.fb_h then _ else _) =
        if p.1 + i % dest.width < m.sink.fb_width ∧ p.2 + i / dest.width < m.sink.fb_height then _ else _
      rw [h.width, h.height]
      by_cases hin : p.1 + i % dest.width < m.renderer.fb_w ∧ p.2 + i / dest.width < m.renderer.fb_h
      · rw [if_pos hin, if_pos hin]
        refine (h.desktop _ _ hin.1 hin.2 (hplaces _ (List.mem_filter.mpr ⟨List.mem_map_of_mem hi, ?_⟩))).symm
        rw [h.width, h.height, Bool.and_eq_true, decide_eq_true_eq, decide_eq_true_eq]
        exact hin
      · rw [if_neg hin, if_neg hin]
    · cases hseed
  | _ => trivial

theorem agrees_first (renderer : MfRenderer κ π θ) (hnew : renderer.fb_w = 0 ∧ renderer.fb_h = 0)
    (hcache : ∀ slot, renderer.gfx_cache slot = none) {width height monitor_count : UInt32}
    (hsized : sized (.resetGraphics width height monitor_count) = true) :
    ((Screen.new renderer).step codecs decoders (.resetGraphics width height monitor_count)).Agrees := by
  let r : MfRenderer κ π θ := { renderer with
    desktop_w := width, desktop_h := height, avc := decoders.clear renderer.avc,
    progressive_decoders := fun _ => none }
  have hreset := agree_reset (r := r) (s := .new) (f := (Screen.new renderer).fresh) hnew.1.symm hnew.2.symm
    (fun _ _ _ _ hfresh => by cases hfresh) (fun slot w h px hsome => ?_) (fun _ _ _ hfresh => by cases hfresh)
    hsized
  · exact hreset.congr rfl rfl rfl rfl rfl rfl
  · rw [show r.gfx_cache slot = none from hcache slot] at hsome
    cases hsome

end Screen

/-- **What ClearCodec builds on**: in a run from a reset on, of desktop sizes that the sink can have, where all
that each seed is made of was last painted in RGBA, each seed is what is on the screen. -/
theorem seed_shown_of_fresh {κ π η θ : Type} (codecs : Codecs κ π η) (decoders : AvcDecoders θ)
    (desktop_w desktop_h : UInt32) (clear_decoder : κ) (avc : θ) (seed_disabled : Bool)
    (width height monitor_count : UInt32) (commands : List GfxCommand)
    (h : Along (Screen.step codecs decoders) (fun m command => m.SeedFresh codecs command)
      (.new (.new desktop_w desktop_h clear_decoder avc seed_disabled))
      (.resetGraphics width height monitor_count :: commands)) :
    Along (Screen.step codecs decoders) (fun m command => m.SeedShown codecs command)
      (.new (.new desktop_w desktop_h clear_decoder avc seed_disabled))
      (.resetGraphics width height monitor_count :: commands) := by
  obtain ⟨hfirst, hrest⟩ := h
  refine ⟨trivial, hrest.imp_of_invariant Screen.Agrees ?_ (fun m command hm hc => hm.step hc.1)
    fun m command hm hc => hm.seedShown hc⟩
  exact Screen.agrees_first _ ⟨rfl, rfl⟩ (fun _ => rfl) hfirst.1

def tinyCodecs : Codecs Unit Unit Unit where
  needsSeed bitmap _ _ := bitmap.isEmpty
  decodeSeeded _ bitmap _ _ seed := ((), some (seed.getD (bitmap.map fun b => ⟨0, 0, b, 255⟩)))
  progressive := ()
  decode _ _ _ := ((), [])
  deleteContext _ _ := ()
  decodeAvc _ _ _ _ := (none, none)

/-- Every unit is a white picture of 2 by 2. -/
def tinyDecoders : AvcDecoders Unit where
  decode _ _ _ _ _ _ _ := ((), [.picture 2 2 (fun _ _ => ⟨255, 255, 255, 255⟩) []])
  remove _ _ := ()
  clear _ := ()

/-- A blue tile, and one built on it. -/
theorem seed_shown_of_fresh_tile :
    Along (Screen.step tinyCodecs tinyDecoders) (fun m command => m.SeedShown tinyCodecs command)
      (.new (.new 4 4 () () false))
      [.resetGraphics 4 4 1, .wireToSurface1 1 CODECID_CLEARCODEC 0x20 ⟨0, 0, 2, 1⟩ [7, 9],
        .wireToSurface1 1 CODECID_CLEARCODEC 0x20 ⟨1, 0, 2, 1⟩ []] :=
  seed_shown_of_fresh tinyCodecs tinyDecoders 4 4 () () false 4 4 1
    [.wireToSurface1 1 CODECID_CLEARCODEC 0x20 ⟨0, 0, 2, 1⟩ [7, 9],
      .wireToSurface1 1 CODECID_CLEARCODEC 0x20 ⟨1, 0, 2, 1⟩ []] (by decide +kernel)

/-- The picture is on the screen, and the tile is built on what was there before. -/
theorem seed_is_older :
    let m := run (Screen.step tinyCodecs tinyDecoders) (.new (.new 4 4 () () false))
      [.resetGraphics 4 4 1, .wireToSurface1 1 CODECID_CLEARCODEC 0x20 ⟨0, 0, 2, 1⟩ [7, 9],
        .wireToSurface1 1 CODECID_AVC420 0x20 ⟨0, 0, 2, 2⟩ []]
    m.renderer.seed tinyCodecs 1 ⟨0, 0, 1, 1⟩ [] = some [⟨0, 0, 7, 255⟩] ∧
      m.sink.region 0 0 1 1 = [⟨255, 255, 255, 255⟩] ∧
      ¬m.SeedShown tinyCodecs (.wireToSurface1 1 CODECID_CLEARCODEC 0x20 ⟨0, 0, 1, 1⟩ []) := by
  refine ⟨by decide +kernel, by decide +kernel, fun hshown => ?_⟩
  have hseed := hshown rfl [⟨0, 0, 7, 255⟩] (by decide +kernel)
  exact absurd hseed (by decide +kernel)


end Rdpio.Client
