import Rdpio.Client.Bands

/-!
# The same desktop

The compositor and the renderer hold the same after each command (`Both.same_step`), so their framebuffers are
equal after every command of a run (`same_desktop`).
-/

namespace Rdpio.Client

open Graphics Android Lib

/-! ## A command -/

/-- What the decoders give has all its bytes. -/
structure Whole {κ π η : Type} (codecs : Codecs κ π η) : Prop where
  tile : ∀ dec codec_context_id bitmap, ∀ t ∈ (codecs.decode dec codec_context_id bitmap).2, t.rgba.length = t.w * t.h
  clear : ∀ clear bitmap w h seed rgba, (codecs.decodeSeeded clear bitmap w h seed).2 = some rgba →
    rgba.length = w.toNat * h.toNat

structure Same {κ π η θ : Type} (c : Compositor κ π η) (r : MfRenderer κ π θ) : Prop where
  fb : SameFb c.canvas r
  surfaces : c.surfaces = r.surfaces
  clear : c.clear = r.clear_decoder
  progressive : c.progressive = r.progressive_decoders
  cache : c.cache = r.gfx_cache
  seeds : r.seed_disabled = false

namespace Same

variable {κ π η θ : Type} {codecs : Codecs κ π η} {decoders : AvcDecoders θ} {c : Compositor κ π η}
  {r : MfRenderer κ π θ}

theorem draw (h : Same c r) {canvas' : Canvas} {r' : MfRenderer κ π θ} (ha : Alike r canvas' r') :
    Same { c with canvas := canvas' } r' := by
  refine ⟨ha.same, ?_, ?_, ?_, ?_, ?_⟩ <;> rw [ha.frame]
  · exact h.surfaces
  · exact h.clear
  · exact h.progressive
  · exact h.cache
  · exact h.seeds

theorem origin (h : Same c r) (surface_id : UInt16) : c.surfaces.origin surface_id = r.surfaces.origin surface_id := by
  rw [h.surfaces]

theorem putAll (h : Same c r) (o : UInt32 × UInt32) (w h' : ℕ) (rgba : List Pixel) (dest_pts : List Point16) :
    Same (c.putAll o w h' rgba dest_pts) (r.fbPutAll o w h' rgba dest_pts) :=
  h.draw (alike_foldl (fun _ _ p _ hfb => hfb.put (placed o p.x p.y).1 (placed o p.x p.y).2 w h' rgba) h.fb)

theorem solidFill (h : Same c r) {surface_id : UInt16} (color : UInt32) {rects : List Rect16}
    (hrange : ∀ rect ∈ rects, (placed (r.surfaces.origin surface_id) rect.left rect.top).1 < 65536 ∧
      (placed (r.surfaces.origin surface_id) rect.left rect.top).2 < 65536) :
    Same (c.solidFill surface_id color rects) (r.solidFill surface_id color rects).1 := by
  unfold Compositor.solidFill MfRenderer.solidFill MfRenderer.mirrored MfRenderer.shadowBlits
  dsimp only
  rw [h.origin, List.foldl_filterMap]
  refine h.draw (alike_foldl (fun canvas r' rect hrect hfb => ?_) h.fb)
  obtain ⟨hx, hy⟩ := hrange rect hrect
  have hw : (rect.right - min rect.left rect.right).toNat = rect.width := toNat_saturatingSub ..
  have hh : (rect.bottom - min rect.top rect.bottom).toNat = rect.height := toNat_saturatingSub ..
  by_cases hempty : rect.right - min rect.left rect.right = 0 ∨ rect.bottom - min rect.top rect.bottom = 0
  · rw [if_pos hempty]
    refine hfb.fill_empty _ _ (hempty.imp (fun hz => ?_) fun hz => ?_) _
    · rw [← hw, hz]
      rfl
    · rw [← hh, hz]
      rfl
  · rw [if_neg hempty]
    have hfill := hfb.fill (placed (r.surfaces.origin surface_id) rect.left rect.top).1
      (placed (r.surfaces.origin surface_id) rect.left rect.top).2 rect.width rect.height (fillPixel color)
    show Alike r' _ (r'.fbPut (clamp _).toNat (clamp _).toNat _ _ _)
    rw [toNat_clamp, toNat_clamp, min_eq_left (Nat.le_of_lt_succ hx), min_eq_left (Nat.le_of_lt_succ hy), hw, hh]
    exact hfill

theorem surfaceToSurface (h : Same c r) {surface_src surface_dst : UInt16} {rect : Rect16} {dest_pts : List Point16}
    (hsrc : ∀ p, dest_pts = [p] → Both.ScrollWithin c.canvas
      (placed (r.surfaces.origin surface_src) rect.left rect.top) (placed (r.surfaces.origin surface_dst) p.x p.y)
      rect.width rect.height) :
    Same (c.surfaceToSurface surface_src surface_dst rect dest_pts)
      (r.surfaceToSurface surface_src surface_dst rect dest_pts).1 := by
  unfold Compositor.surfaceToSurface MfRenderer.surfaceToSurface
  dsimp only
  rw [h.origin, h.origin]
  by_cases hsize : 0 < rect.width ∧ 0 < rect.height
  · rw [if_pos hsize, if_pos hsize]
    split
    case h_1 p => exact h.draw (h.fb.copy (hsrc p rfl))
    case h_2 =>
      rw [h.fb.region]
      exact h.putAll ..
  · rw [if_neg hsize, if_neg hsize]
    exact h

theorem surfaceToCache (h : Same c r) (surface_id slot : UInt16) (rect : Rect16) :
    Same (c.surfaceToCache surface_id slot rect) (r.surfaceToCache surface_id slot rect).1 := by
  unfold Compositor.surfaceToCache MfRenderer.surfaceToCache
  dsimp only
  rw [h.origin]
  by_cases hsize : 0 < rect.width ∧ 0 < rect.height
  · rw [if_pos hsize, if_pos hsize, h.fb.region, h.cache]
    exact ⟨⟨h.fb.width, h.fb.height, h.fb.pos, h.fb.fb⟩, h.surfaces, h.clear, h.progressive, rfl, h.seeds⟩
  · rw [if_neg hsize, if_neg hsize]
    exact h

theorem cacheToSurface (h : Same c r) (slot surface_id : UInt16) (dest_pts : List Point16) :
    Same (c.cacheToSurface slot surface_id dest_pts) (r.cacheToSurface slot surface_id dest_pts).1 := by
  unfold Compositor.cacheToSurface MfRenderer.cacheToSurface
  rw [h.cache, h.origin]
  rcases r.gfx_cache slot with _ | ⟨w, h', px⟩
  · exact h
  · exact h.putAll ..

theorem foldl_put_size (o : UInt32 × UInt32) (tiles : List Tile) (canvas : Canvas) :
    (tiles.foldl (fun canvas t => canvas.put (o.1 + t.x).toNat (o.2 + t.y).toNat t.w t.h t.rgba) canvas).width =
        canvas.width ∧
      (tiles.foldl (fun canvas t => canvas.put (o.1 + t.x).toNat (o.2 + t.y).toNat t.w t.h t.rgba) canvas).height =
        canvas.height := by
  induction tiles generalizing canvas with
  | nil => exact ⟨rfl, rfl⟩
  | cons t tiles ih =>
    obtain ⟨hw, hh⟩ := ih (canvas.put (o.1 + t.x).toNat (o.2 + t.y).toNat t.w t.h t.rgba)
    exact ⟨hw.trans (put_size ..).1, hh.trans (put_size ..).2⟩

theorem wireToSurface2 (h : Same c r) {surface_id : UInt16} {codec_context_id : UInt32} {bitmap : List UInt8}
    (hfits : ∀ t ∈ (Both.tiles codecs ⟨c, r⟩ surface_id codec_context_id bitmap), Fits (r.surfaces.origin surface_id) t)
    (horder : (Both.tiles codecs ⟨c, r⟩ surface_id codec_context_id bitmap).Pairwise fun a b =>
      tileLe a b = true ∨ ¬Both.Overlap (r.surfaces.origin surface_id) a b) :
    Same (c.wireToSurface2 codecs surface_id codec_context_id bitmap)
      (r.wireToSurface2 codecs surface_id codec_context_id bitmap).1 := by
  unfold Both.tiles at hfits horder
  unfold Compositor.wireToSurface2 MfRenderer.wireToSurface2
  dsimp only at hfits horder
  rw [h.progressive] at hfits horder ⊢
  rw [h.origin]
  generalize codecs.decode _ codec_context_id bitmap = out at hfits horder ⊢
  obtain ⟨dec, tiles⟩ := out
  dsimp only at hfits horder ⊢
  let r' : MfRenderer κ π θ :=
    { r with progressive_decoders := Function.update r.progressive_decoders surface_id (some dec) }
  have hbands : ∀ run ∈ (tiles.mergeSort tileLe).splitBy joins,
      run ≠ [] ∧ (run.IsChain fun p n => joins p n = true) ∧ ∀ n ∈ run, Fits (r.surfaces.origin surface_id) n := by
    refine fun run hrun => ⟨List.ne_nil_of_mem_splitBy hrun, List.isChain_of_mem_splitBy hrun, fun n hn => ?_⟩
    have hmem : n ∈ ((tiles.mergeSort tileLe).splitBy joins).flatten := List.mem_flatten.mpr ⟨run, hrun, hn⟩
    rw [List.flatten_splitBy] at hmem
    exact hfits n (List.mem_mergeSort.mp hmem)
  obtain ⟨fb, hfb, hat⟩ := shadow_bands (r := r') h.fb.pos hbands
  have hsize := foldl_put_size (r.surfaces.origin surface_id) tiles c.canvas
  have hr : (r'.mirrored (((tiles.mergeSort tileLe).splitBy joins).filterMap
    (bandBlit (r.surfaces.origin surface_id)))).1 = { r' with fb := fb } := hfb
  rw [hr]
  refine ⟨⟨hsize.1.trans h.fb.width, hsize.2.trans h.fb.height, h.fb.pos, fun px py hpx hpy => ?_⟩, h.surfaces,
    h.clear, rfl, h.cache, h.seeds⟩
  have hcx := hpx.trans_eq h.fb.width.symm
  have hcy := hpy.trans_eq h.fb.height.symm
  refine (foldl_put_fb hfits c.canvas hcx hcy).trans (Eq.trans ?_ (hat px py hpx hpy).symm)
  rw [List.flatten_splitBy, foldl_tileAt_mergeSort horder]
  exact congrArg (fun v => tiles.foldl (tileAt (r.surfaces.origin surface_id) px py) v) (h.fb.fb px py hpx hpy)

theorem uncompressed (h : Same c r) {surface_id : UInt16} {dest : Rect16} (bitmap : List UInt8)
    (hrange : (placed (r.surfaces.origin surface_id) dest.left dest.top).1 < 65536 ∧
      (placed (r.surfaces.origin surface_id) dest.left dest.top).2 < 65536) :
    Same (c.uncompressed surface_id dest bitmap) (r.uncompressed surface_id dest bitmap).1 := by
  unfold Compositor.uncompressed MfRenderer.uncompressed MfRenderer.mirrored
  dsimp only
  rw [h.origin]
  rcases toRgba bitmap (dest.right - min dest.left dest.right) (dest.bottom - min dest.top dest.bottom) with _ | rgba
  · exact h
  · exact h.draw (h.fb.tile hrange dest rgba)

theorem clearCodec (h : Same c r) (hwhole : Whole codecs) {surface_id : UInt16} {dest : Rect16} (bitmap : List UInt8)
    (hrange : (placed (r.surfaces.origin surface_id) dest.left dest.top).1 < 65536 ∧
      (placed (r.surfaces.origin surface_id) dest.left dest.top).2 < 65536) :
    Same (c.clearCodec codecs surface_id dest bitmap) (r.clearCodec codecs surface_id dest bitmap).1 := by
  let w := dest.right - min dest.left dest.right
  let h' := dest.bottom - min dest.top dest.bottom
  obtain ⟨seed, hseed⟩ : ∃ seed, seed = r.seed codecs surface_id dest bitmap := ⟨_, rfl⟩
  have hshadow : (r.clearCodec codecs surface_id dest bitmap).1 =
      { r with clear_decoder := (codecs.decodeSeeded r.clear_decoder bitmap w h' seed).1 }.shadowBlits
        ((((codecs.decodeSeeded r.clear_decoder bitmap w h' seed).2.filter fun rgba : List Pixel =>
          rgba.length = w.toNat * h'.toNat).map fun rgba =>
            GfxBlit.rgba (clamp (placed (r.surfaces.origin surface_id) dest.left dest.top).1)
              (clamp (placed (r.surfaces.origin surface_id) dest.left dest.top).2) w h' rgba).toList) := by
    rw [hseed]
    rfl
  have hcanvas : c.clearCodec codecs surface_id dest bitmap =
      { c with
        clear := (codecs.decodeSeeded c.clear bitmap w h' seed).1
        canvas := ((codecs.decodeSeeded c.clear bitmap w h' seed).2.map
          (c.canvas.put (placed (c.surfaces.origin surface_id) dest.left dest.top).1
            (placed (c.surfaces.origin surface_id) dest.left dest.top).2 dest.width dest.height)).getD
          c.canvas } := by
    unfold MfRenderer.seed at hseed
    dsimp only at hseed
    rw [h.seeds, toNat_saturatingSub, toNat_saturatingSub, ← h.origin, ← h.fb.region] at hseed
    rw [hseed]
    rfl
  rw [hcanvas, hshadow, h.origin, h.clear]
  rcases hout : codecs.decodeSeeded r.clear_decoder bitmap w h' seed with ⟨clear, rgba⟩
  have hstep : Same { c with clear } { r with clear_decoder := clear } :=
    ⟨⟨h.fb.width, h.fb.height, h.fb.pos, h.fb.fb⟩, h.surfaces, rfl, h.progressive, h.cache, h.seeds⟩
  rcases rgba with _ | rgba
  · exact hstep
  · have hlen := hwhole.clear r.clear_decoder bitmap w h' seed rgba (congrArg Prod.snd hout)
    rw [Option.filter_some, if_pos (decide_eq_true hlen)]
    exact hstep.draw (hstep.fb.tile hrange dest rgba)

end Same

namespace Both

variable {κ π η θ : Type} {codecs : Codecs κ π η} {decoders : AvcDecoders θ} {m : Both κ π η θ}

theorem same_wireToSurface1 (h : Same m.android m.desktop) (hwhole : Whole codecs) {surface_id codec_id : UInt16}
    {pixel_format : UInt8} {dest : Rect16} {bitmap : List UInt8}
    (hrange : m.inRange codecs (.wireToSurface1 surface_id codec_id pixel_format dest bitmap) = true) :
    Same (m.android.wireToSurface1 codecs surface_id codec_id dest bitmap)
      (m.desktop.wireToSurface1 codecs decoders surface_id codec_id dest bitmap).1 := by
  simp only [inRange, Bool.and_eq_true, decide_eq_true_eq, List.mem_cons, List.not_mem_nil, or_false, not_or,
    h.origin] at hrange
  obtain ⟨⟨⟨h420, hca, h444, h444v2⟩, hx⟩, hy⟩ := hrange
  unfold Compositor.wireToSurface1 MfRenderer.wireToSurface1
  rw [if_neg (not_or.mpr ⟨h420, hca⟩), if_neg (not_or.mpr ⟨h420, not_or.mpr ⟨hca, not_or.mpr ⟨h444, h444v2⟩⟩⟩)]
  by_cases huncompressed : codec_id = CODECID_UNCOMPRESSED
  · rw [if_pos huncompressed, if_pos huncompressed]
    exact h.uncompressed bitmap ⟨hx, hy⟩
  · rw [if_neg huncompressed, if_neg huncompressed]
    by_cases hclear : codec_id = CODECID_CLEARCODEC
    · rw [if_pos hclear, if_pos hclear]
      exact h.clearCodec hwhole bitmap ⟨hx, hy⟩
    · rw [if_neg hclear, if_neg hclear]
      exact h

theorem fbEnsure_eq (r : MfRenderer κ π θ) (w h : ℕ) :
    r.fbEnsure w h = { r with fb := (r.fbEnsure w h).fb, fb_w := w, fb_h := h } := by
  by_cases hsize : r.fb_w ≠ w ∨ r.fb_h ≠ h
  · rw [MfRenderer.fbEnsure, if_pos hsize]
  · have hw : r.fb_w = w := by omega
    have hh : r.fb_h = h := by omega
    rw [MfRenderer.fbEnsure, if_neg hsize, ← hw, ← hh]

theorem same_reset (h : Same m.android m.desktop) (width height monitor_count : UInt32) (hwidth : width ≠ 0) :
    Same (m.step codecs decoders (.resetGraphics width height monitor_count)).android
      (m.step codecs decoders (.resetGraphics width height monitor_count)).desktop := by
  have hw : 0 < width.toNat := Nat.pos_of_ne_zero fun hz => hwidth (UInt32.toNat_inj.mp hz)
  let r : MfRenderer κ π θ := { m.desktop with
    desktop_w := width, desktop_h := height, avc := decoders.clear m.desktop.avc,
    progressive_decoders := fun _ => none }
  have hdesktop : (m.step codecs decoders (.resetGraphics width height monitor_count)).desktop =
    { r with fb := (r.fbEnsure width.toNat height.toNat).fb, fb_w := width.toNat, fb_h := height.toNat } :=
    fbEnsure_eq r width.toNat height.toNat
  rw [hdesktop]
  refine ⟨?_, h.surfaces, h.clear, rfl, h.cache, h.seeds⟩
  rw [← fbEnsure_eq r]
  show SameFb (m.android.canvas.resize width.toNat height.toNat) (r.fbEnsure width.toNat height.toNat)
  unfold Canvas.resize MfRenderer.fbEnsure
  dsimp only
  rw [h.fb.width, h.fb.height, show r.fb_w = m.desktop.fb_w from rfl, show r.fb_h = m.desktop.fb_h from rfl]
  by_cases hsame : m.desktop.fb_w = width.toNat ∧ m.desktop.fb_h = height.toNat
  · rw [if_neg (by simp [hsame]), if_neg (by omega)]
    exact ⟨rfl, rfl, h.fb.pos, h.fb.fb⟩
  · rw [if_pos (by simp only [ne_eq, Prod.mk.injEq]; omega), if_pos (by omega)]
    exact ⟨rfl, rfl, hw, fun _ _ _ _ => rfl⟩

theorem same_first (w h desktop_w desktop_h : UInt32) (clear : κ) (avc : θ) (width height monitor_count : UInt32)
    (hwidth : width ≠ 0) :
    let m : Both κ π η θ := .new w h desktop_w desktop_h clear avc
    Same (m.step codecs decoders (.resetGraphics width height monitor_count)).android
      (m.step codecs decoders (.resetGraphics width height monitor_count)).desktop := by
  have hw : 0 < width.toNat := Nat.pos_of_ne_zero fun hz => hwidth (UInt32.toNat_inj.mp hz)
  let r : MfRenderer κ π θ := { (MfRenderer.new desktop_w desktop_h clear avc false : MfRenderer κ π θ) with
    desktop_w := width, desktop_h := height, avc := decoders.clear avc }
  intro m
  have hdesktop : (m.step codecs decoders (.resetGraphics width height monitor_count)).desktop =
    { r with fb := (r.fbEnsure width.toNat height.toNat).fb, fb_w := width.toNat, fb_h := height.toNat } :=
    fbEnsure_eq r width.toNat height.toNat
  rw [hdesktop]
  refine ⟨?_, rfl, rfl, rfl, rfl, rfl⟩
  rw [← fbEnsure_eq r]
  show SameFb (Canvas.resize (.new w.toNat h.toNat) width.toNat height.toNat) (r.fbEnsure width.toNat height.toNat)
  unfold Canvas.resize MfRenderer.fbEnsure
  dsimp only
  rw [show r.fb_w = 0 from rfl, if_pos (Or.inl hw.ne)]
  split
  · exact ⟨rfl, rfl, hw, fun _ _ _ _ => rfl⟩
  · have hsize : (width.toNat, height.toNat) = (w.toNat, h.toNat) := not_not.mp ‹_›
    obtain ⟨hw', hh'⟩ := Prod.mk.inj hsize
    exact ⟨hw'.symm, hh'.symm, hw, fun _ _ _ _ => rfl⟩

theorem same_step (h : Same m.android m.desktop) (hwhole : Whole codecs) {command : GfxCommand}
    (hrange : m.inRange codecs command = true) (hcovered : m.covered codecs command = true) :
    Same (m.step codecs decoders command).android (m.step codecs decoders command).desktop := by
  have hsurfaces : m.android.surfaces.apply command = m.desktop.surfaces.apply command := by rw [h.surfaces]
  cases command with
  | resetGraphics width height monitor_count =>
    exact same_reset h width height monitor_count (of_decide_eq_true hcovered)
  | solidFill surface_id color rects =>
    refine h.solidFill color fun rect hrect => ?_
    have hcorner := List.all_eq_true.mp hrange rect hrect
    simp only [Bool.and_eq_true, decide_eq_true_eq, h.origin] at hcorner
    exact hcorner
  | surfaceToSurface surface_src surface_dst rect_src dest_pts =>
    refine h.surfaceToSurface fun p hp => ?_
    rw [hp] at hcovered
    have hsrc : ScrollWithin m.android.canvas
      (placed (m.android.surfaces.origin surface_src) rect_src.left rect_src.top)
      (placed (m.android.surfaces.origin surface_dst) p.x p.y) rect_src.width rect_src.height :=
      of_decide_eq_true hcovered
    rw [h.origin, h.origin] at hsrc
    exact hsrc
  | surfaceToCache surface_id cache_key slot rect_src => exact h.surfaceToCache ..
  | cacheToSurface slot surface_id dest_pts => exact h.cacheToSurface ..
  | wireToSurface2 surface_id codec_id codec_context_id pixel_format bitmap =>
    refine h.wireToSurface2 (fun t ht => ?_) ?_
    · have hplace := List.all_eq_true.mp hrange t ht
      simp only [Bool.and_eq_true, decide_eq_true_eq, h.origin] at hplace
      exact ⟨hwhole.tile _ _ _ t ht, hplace.1, hplace.2⟩
    · have horder := of_decide_eq_true hcovered
      rw [h.origin] at horder
      exact horder
  | wireToSurface1 surface_id codec_id pixel_format dest bitmap => exact same_wireToSurface1 h hwhole hrange
  | deleteSurface surface_id =>
    refine ⟨⟨h.fb.width, h.fb.height, h.fb.pos, h.fb.fb⟩, hsurfaces, h.clear, ?_, h.cache, h.seeds⟩
    show Function.update m.android.progressive surface_id none =
      Function.update m.desktop.progressive_decoders surface_id none
    rw [h.progressive]
  | deleteEncodingContext surface_id codec_context_id =>
    refine ⟨⟨h.fb.width, h.fb.height, h.fb.pos, h.fb.fb⟩, h.surfaces, h.clear, ?_, h.cache, h.seeds⟩
    show Function.update m.android.progressive surface_id _ =
      Function.update m.desktop.progressive_decoders surface_id _
    rw [h.progressive]
  | _ => exact ⟨⟨h.fb.width, h.fb.height, h.fb.pos, h.fb.fb⟩, hsurfaces, h.clear, h.progressive, h.cache, h.seeds⟩

end Both

/-- **The same desktop**: in a run from a reset on, without H.264, whose coordinates stay below 65536, where no
desktop is of no width, no scroll has its source outside the desktop and no progressive payload has tiles that
overlap out of order, the compositor's framebuffer and the renderer's shadow are equal after every command. -/
theorem same_desktop {κ π η θ : Type} {codecs : Codecs κ π η} (hwhole : Whole codecs) (decoders : AvcDecoders θ)
    (w h desktop_w desktop_h : UInt32) (clear : κ) (avc : θ) (width height monitor_count : UInt32)
    (commands : List GfxCommand)
    (hcommands : Along (Both.step codecs decoders)
      (fun m command => m.inRange codecs command = true ∧ m.covered codecs command = true)
      (.new w h desktop_w desktop_h clear avc) (.resetGraphics width height monitor_count :: commands))
    (done : List GfxCommand) (hdone : done <+: commands) :
    (run (Both.step codecs decoders) (.new w h desktop_w desktop_h clear avc)
      (.resetGraphics width height monitor_count :: done)).SameDesktop := by
  obtain ⟨hfirst, hrest⟩ := hcommands
  have hsame := invariant_along (fun m : Both κ π η θ => Same m.android m.desktop)
    (Both.same_first w h desktop_w desktop_h clear avc width height monitor_count (of_decide_eq_true hfirst.2))
    (fun m command hm hc => Both.same_step hm hwhole hc.1 hc.2) (hrest.of_prefix hdone)
  exact ⟨hsame.fb.width, hsame.fb.height, hsame.fb.fb⟩

/-- Codecs that decode to one color, and to one tile. -/
def plainCodecs : Codecs Unit Unit Unit where
  needsSeed _ _ _ := false
  decodeSeeded _ _ w h _ := ((), some (List.replicate (w.toNat * h.toNat) ⟨0, 9, 0, 255⟩))
  progressive := ()
  decode _ _ _ := ((), [⟨1, 0, 1, 1, [⟨0, 0, 9, 255⟩]⟩])
  deleteContext _ _ := ()
  decodeAvc _ _ _ _ := (none, none)

theorem whole_plainCodecs : Whole plainCodecs := by
  refine ⟨fun _ _ _ t ht => ?_, fun _ _ w h _ rgba hrgba => ?_⟩
  · rw [List.mem_singleton.mp ht]
    rfl
  · rw [← Option.some.inj hrgba, List.length_replicate]

/-- A fill, a tile of each kind and a scroll. -/
theorem same_desktop_scroll : (run (Both.step plainCodecs tinyDecoders) (.new 3 2 3 2 () ())
      [.resetGraphics 3 2 1, .solidFill 1 0xFF0000 [⟨0, 0, 3, 2⟩], .wireToSurface2 1 9 0 0x20 [],
        .wireToSurface1 1 CODECID_CLEARCODEC 0x20 ⟨0, 0, 1, 1⟩ [],
        .surfaceToSurface 1 1 ⟨0, 0, 2, 1⟩ [⟨1, 1⟩]]).SameDesktop :=
  same_desktop whole_plainCodecs tinyDecoders 3 2 3 2 () () 3 2 1
    [.solidFill 1 0xFF0000 [⟨0, 0, 3, 2⟩], .wireToSurface2 1 9 0 0x20 [],
      .wireToSurface1 1 CODECID_CLEARCODEC 0x20 ⟨0, 0, 1, 1⟩ [], .surfaceToSurface 1 1 ⟨0, 0, 2, 1⟩ [⟨1, 1⟩]]
    (by decide +kernel) _ List.prefix_rfl

/-- A scroll from the desktop's edge on: what comes from outside is black in the shadow, and left in the
compositor as it was. -/
theorem scroll_differs :
    let m := run (Both.step plainCodecs tinyDecoders) (.new 2 1 2 1 () ())
      [.resetGraphics 2 1 1, .solidFill 1 0xFF0000 [⟨0, 0, 2, 1⟩], .surfaceToSurface 1 1 ⟨1, 0, 3, 1⟩ [⟨0, 0⟩]]
    m.android.canvas.fb 1 0 = ⟨255, 0, 0, 255⟩ ∧ m.desktop.fb 1 0 = .black ∧ ¬m.SameDesktop := by
  refine ⟨by decide +kernel, by decide +kernel, fun hsame => ?_⟩
  exact absurd (hsame.fb 1 0 (by decide +kernel) (by decide +kernel)) (by decide +kernel)

end Rdpio.Client
