import Rdpio.Client.Bands
import Rdpio.Graphics.ProgressiveBatch

/-!
# The order of joined bands

The renderer sorts a payload's tiles by row and column before it joins them, so that of two pieces of a tile
the newer may be painted before the older.
-/

namespace Rdpio.Client

open Graphics Android Lib

def toPixels : List UInt8 → List Pixel
  | r :: g :: b :: a :: rgba => ⟨r, g, b, a⟩ :: toPixels rgba
  | _ => []

def toTile (t : ProgressiveTile) : Tile := ⟨UInt32.ofNat t.x, UInt32.ofNat t.y, t.w, t.h, toPixels t.rgba⟩

/-- What a progressive payload is painted as. -/
def bandBlits (o : UInt32 × UInt32) (tiles : List Tile) : List GfxBlit :=
  ((tiles.mergeSort tileLe).splitBy joins).filterMap (bandBlit o)

def tileBlits (o : UInt32 × UInt32) (tiles : List Tile) : List GfxBlit := tiles.filterMap fun t => bandBlit o [t]

def wholeBlit : GfxBlit → Prop
  | .rgba _ _ w h rgba => rgba.length = w.toNat * h.toNat
  | _ => True

/-- The bands paint what the tiles paint, and each buffer has just its bytes. -/
structure PaintsTiles {κ π θ : Type} (r : MfRenderer κ π θ) (o : UInt32 × UInt32) (tiles : List Tile) : Prop where
  same : ∀ px py, px < r.fb_w → py < r.fb_h →
    (r.shadowBlits (bandBlits o tiles)).fb px py = (r.shadowBlits (tileBlits o tiles)).fb px py
  whole : ∀ b ∈ bandBlits o tiles, wholeBlit b

def covers (o : UInt32 × UInt32) (px py : ℕ) (t : Tile) : Bool :=
  decide (Within (o.1 + t.x).toNat (o.2 + t.y).toNat t.w t.h px py)

def shown (o : UInt32 × UInt32) (px py : ℕ) (tiles : List Tile) : Option Pixel :=
  ((tiles.filter (covers o px py)).getLast?).map fun t =>
    t.rgba.getD ((py - (o.2 + t.y).toNat) * t.w + (px - (o.1 + t.x).toNat)) .black

/-- At every place of the framebuffer the last tile as decoded shows what the last one by row and column shows. -/
def SameTop (o : UInt32 × UInt32) (w h : ℕ) (tiles : List Tile) : Prop :=
  ∀ px py, px < w → py < h → shown o px py (tiles.mergeSort tileLe) = shown o px py tiles

/-- No tiles side by side reach over more columns than a blit can have. -/
def Narrow (tiles : List Tile) : Prop := ∀ run ∈ (tiles.mergeSort tileLe).splitBy joins, (run.map Tile.w).sum < 65536

theorem shown_cons (o : UInt32 × UInt32) (px py : ℕ) (t : Tile) (tiles : List Tile) (v : Pixel) :
    (shown o px py (t :: tiles)).getD v = (shown o px py tiles).getD (tileAt o px py v t) := by
  unfold shown tileAt
  by_cases hin : Within (o.1 + t.x).toNat (o.2 + t.y).toNat t.w t.h px py
  · rw [List.filter_cons_of_pos (by simpa [covers] using hin), List.getLast?_cons, if_pos hin]
    cases (tiles.filter (covers o px py)).getLast? <;> rfl
  · rw [List.filter_cons_of_neg (by simpa [covers] using hin), if_neg hin]

theorem foldl_tileAt_eq (o : UInt32 × UInt32) (px py : ℕ) (tiles : List Tile) (v : Pixel) :
    tiles.foldl (tileAt o px py) v = (shown o px py tiles).getD v := by
  induction tiles generalizing v with
  | nil => rfl
  | cons t tiles ih => rw [List.foldl_cons, ih, shown_cons]

theorem shown_eq_none_iff {o : UInt32 × UInt32} {px py : ℕ} {tiles : List Tile} :
    shown o px py tiles = none ↔ ∀ t ∈ tiles, covers o px py t = false := by
  unfold shown
  rw [Option.map_eq_none_iff, List.getLast?_eq_none_iff, List.filter_eq_nil_iff]
  refine forall_congr' fun t => ?_
  rw [Bool.not_eq_true]

theorem shown_perm {o : UInt32 × UInt32} {px py : ℕ} {tiles tiles' : List Tile} (h : tiles.Perm tiles') {v : Pixel}
    (heq : (shown o px py tiles).getD v = (shown o px py tiles').getD v) :
    shown o px py tiles = shown o px py tiles' := by
  cases hl : shown o px py tiles with
  | none =>
    symm
    rw [shown_eq_none_iff] at hl ⊢
    exact fun t ht => hl t (h.mem_iff.2 ht)
  | some p =>
    cases hl' : shown o px py tiles' with
    | none =>
      rw [shown_eq_none_iff] at hl'
      have hnone : shown o px py tiles = none := shown_eq_none_iff.2 fun t ht => hl' t (h.mem_iff.1 ht)
      rw [hnone] at hl
      cases hl
    | some p' =>
      rw [hl, hl'] at heq
      exact congrArg some heq

section Wide

variable {κ π θ : Type} {o : UInt32 × UInt32} {t : Tile} {rest : List Tile} {r : MfRenderer κ π θ}

theorem shadow_wide (hpos : 0 < r.fb_w) (hw : r.fb_w < 65536) (hh : r.fb_h < 65536)
    (hchain : (t :: rest).IsChain fun p n => joins p n = true) (hlies : ∀ n ∈ t :: rest, Lies o n)
    (hnarrow : ((t :: rest).map Tile.w).sum < 65536) (hlow : t.h < 65536) :
    ∃ b, bandBlit o (t :: rest) = some b ∧ ∃ fb, r.shadowBlit b = { r with fb := fb } ∧
      ∀ px py, px < r.fb_w → py < r.fb_h → fb px py = (t :: rest).foldl (tileAt o px py) (r.fb px py) := by
  obtain ⟨hlen, hrgba⟩ := band_rgba hchain hlies
  refine ⟨_, rfl, _, MfRenderer.fbPut_eq hpos .., fun px py hpx hpy => ?_⟩
  rw [toNat_clamp, toNat_clamp, toNat_clamp, toNat_clamp, min_eq_left (a := List.sum _) (by omega),
    min_eq_left (a := t.h) (by omega), foldl_tileAt_band hchain hlies]
  by_cases hin : Within (o.1 + t.x).toNat (o.2 + t.y).toNat ((t :: rest).map Tile.w).sum t.h px py
  · have hplace := hin
    obtain ⟨hx, hx', hy, hy'⟩ := hplace
    have hrow := row_le_of_whole hlen (show py - (o.2 + t.y).toNat < t.h by omega)
      (Nat.min_le_right (r.fb_w - (o.1 + t.x).toNat) _)
    rw [min_eq_left (by omega), min_eq_left (by omega), if_pos hin, if_pos ⟨⟨hpx, hpy, hin⟩, hrow⟩]
    exact hrgba _ _ (by omega) (by omega)
  · rw [if_neg hin, if_neg]
    rintro ⟨⟨-, -, hplace⟩, -⟩
    refine hin ?_
    unfold Within at hplace ⊢
    omega

theorem shadow_wides (bands : List (List Tile)) (hpos : 0 < r.fb_w) (hw : r.fb_w < 65536) (hh : r.fb_h < 65536)
    (hbands : ∀ run ∈ bands, run ≠ [] ∧ (run.IsChain fun p n => joins p n = true) ∧
      (∀ n ∈ run, Lies o n ∧ n.h < 65536) ∧ (run.map Tile.w).sum < 65536) :
    ∃ fb, r.shadowBlits (bands.filterMap (bandBlit o)) = { r with fb := fb } ∧
      ∀ px py, px < r.fb_w → py < r.fb_h → fb px py = bands.flatten.foldl (tileAt o px py) (r.fb px py) := by
  refine shadow_runs fun run hrun fb => ?_
  obtain ⟨hne, hchain, hlies, hnarrow⟩ := hbands run hrun
  obtain ⟨t, rest, rfl⟩ := List.exists_cons_of_ne_nil hne
  exact shadow_wide (r := { r with fb := fb }) hpos hw hh hchain (fun n hn => (hlies n hn).1) hnarrow
    (hlies t List.mem_cons_self).2

theorem wholeBlit_band {b : GfxBlit} (hchain : (t :: rest).IsChain fun p n => joins p n = true)
    (hlies : ∀ n ∈ t :: rest, Lies o n) (hpos : 0 < t.h) (hlow : t.h < 65536) (hb : bandBlit o (t :: rest) = some b) :
    wholeBlit b ↔ ((t :: rest).map Tile.w).sum < 65536 := by
  have hlen : (if rest.isEmpty then t.rgba else bandRgba t.h (t :: rest)).length =
      ((t :: rest).map Tile.w).sum * t.h := by
    cases rest with
    | nil =>
      rw [List.map_cons, List.map_nil, List.sum_cons, List.sum_nil, Nat.add_zero]
      exact (hlies t List.mem_cons_self).whole
    | cons n rest =>
      rw [Nat.mul_comm]
      exact length_flatMap_range fun row hrow => length_bandRow hchain hlies hrow
  rw [bandBlit, Option.some.injEq] at hb
  rw [← hb]
  show _ = (clamp _).toNat * (clamp t.h).toNat ↔ _
  rw [hlen, toNat_clamp, toNat_clamp, min_eq_left (a := t.h) (by omega)]
  constructor
  · intro heq
    have := Nat.eq_of_mul_eq_mul_right hpos heq
    omega
  · intro hnarrow
    rw [min_eq_left (by omega)]

end Wide

/-! ## A whole payload -/

theorem length_toPixels (rgba : List UInt8) : (toPixels rgba).length = rgba.length / 4 := by
  induction rgba using toPixels.induct with
  | case1 r g b a rgba ih =>
    rw [toPixels, List.length_cons, ih, List.length_cons, List.length_cons, List.length_cons, List.length_cons]
    omega
  | case2 rgba h =>
    rw [toPixels, List.length_nil]
    · rcases rgba with - | ⟨r, - | ⟨g, - | ⟨b, - | ⟨a, rgba⟩⟩⟩⟩
      · rfl
      · simp
      · simp
      · simp
      · exact absurd rfl (h r g b a rgba)
    · exact h

structure Sound (o : UInt32 × UInt32) (t : Tile) : Prop where
  lies : Lies o t
  w_lt : t.w < 65536
  h_pos : 0 < t.h
  h_lt : t.h < 65536

theorem paintsTiles_iff {κ π θ : Type} {r : MfRenderer κ π θ} {o : UInt32 × UInt32} {tiles : List Tile}
    (hpos : 0 < r.fb_w) (hw : r.fb_w < 65536) (hh : r.fb_h < 65536) (hsound : ∀ t ∈ tiles, Sound o t) :
    PaintsTiles r o tiles ↔ Narrow tiles ∧ SameTop o r.fb_w r.fb_h tiles := by
  have hperm := List.mergeSort_perm tiles tileLe
  have hmem : ∀ run ∈ (tiles.mergeSort tileLe).splitBy joins, ∀ n ∈ run, Sound o n := by
    intro run hrun n hn
    refine hsound n (hperm.mem_iff.1 ?_)
    rw [← List.flatten_splitBy joins (tiles.mergeSort tileLe)]
    exact List.mem_flatten.2 ⟨run, hrun, hn⟩
  have hchain : ∀ run ∈ (tiles.mergeSort tileLe).splitBy joins, run ≠ [] ∧ run.IsChain fun p n => joins p n = true :=
    fun run hrun => ⟨List.ne_nil_of_mem_splitBy hrun, List.isChain_of_mem_splitBy hrun⟩
  -- One by one, each tile is a band of its own.
  obtain ⟨alone, halone, hatAlone⟩ := shadow_wides (r := r) (o := o) (tiles.map fun t => [t]) hpos hw hh (by
    intro run hrun
    obtain ⟨t, ht, rfl⟩ := List.mem_map.mp hrun
    have hs := hsound t ht
    refine ⟨List.cons_ne_nil _ _, List.isChain_singleton _, fun n hn => ?_, by simpa using hs.w_lt⟩
    obtain rfl := List.mem_singleton.mp hn
    exact ⟨hs.lies, hs.h_lt⟩)
  have hflat : (tiles.map fun t => [t]).flatten = tiles := List.flatMap_singleton' tiles
  rw [List.filterMap_map] at halone
  have halone' : (r.shadowBlits (tileBlits o tiles)).fb = alone := congrArg MfRenderer.fb halone
  have hwhole : (∀ b ∈ bandBlits o tiles, wholeBlit b) ↔ Narrow tiles := by
    constructor
    · intro hall run hrun
      obtain ⟨hne, hrunChain⟩ := hchain run hrun
      obtain ⟨t, rest, rfl⟩ := List.exists_cons_of_ne_nil hne
      have hs := hmem _ hrun
      have hfirst := hs t List.mem_cons_self
      exact (wholeBlit_band hrunChain (fun n hn => (hs n hn).lies) hfirst.h_pos hfirst.h_lt rfl).1
        (hall _ (List.mem_filterMap.2 ⟨_, hrun, rfl⟩))
    · intro hnarrow b hb
      obtain ⟨run, hrun, hblit⟩ := List.mem_filterMap.1 hb
      obtain ⟨hne, hrunChain⟩ := hchain run hrun
      obtain ⟨t, rest, rfl⟩ := List.exists_cons_of_ne_nil hne
      have hs := hmem _ hrun
      have hfirst := hs t List.mem_cons_self
      exact (wholeBlit_band hrunChain (fun n hn => (hs n hn).lies) hfirst.h_pos hfirst.h_lt hblit).2 (hnarrow _ hrun)
  have hsame : Narrow tiles → ((∀ px py, px < r.fb_w → py < r.fb_h →
      (r.shadowBlits (bandBlits o tiles)).fb px py = (r.shadowBlits (tileBlits o tiles)).fb px py) ↔
        SameTop o r.fb_w r.fb_h tiles) := by
    intro hnarrow
    obtain ⟨joined, hjoined, hatJoined⟩ := shadow_wides (r := r) (o := o) _ hpos hw hh fun run hrun =>
      ⟨(hchain run hrun).1, (hchain run hrun).2, fun n hn => ⟨(hmem run hrun n hn).lies, (hmem run hrun n hn).h_lt⟩,
        hnarrow run hrun⟩
    have hjoined' : (r.shadowBlits (bandBlits o tiles)).fb = joined := congrArg MfRenderer.fb hjoined
    rw [List.flatten_splitBy] at hatJoined
    rw [hjoined', halone']
    refine forall₄_congr fun px py hpx hpy => ?_
    rw [hatJoined px py hpx hpy, hatAlone px py hpx hpy, hflat, foldl_tileAt_eq, foldl_tileAt_eq]
    constructor
    · exact shown_perm hperm
    · exact fun heq => by rw [heq]
  constructor
  · rintro ⟨hall, hbuffers⟩
    have hnarrow := hwhole.1 hbuffers
    exact ⟨hnarrow, (hsame hnarrow).1 hall⟩
  · rintro ⟨hnarrow, htop⟩
    exact ⟨(hsame hnarrow).2 htop, hwhole.2 hnarrow⟩

theorem sound_toTile {o : UInt32 × UInt32} {t : ProgressiveTile} (h : t.Piece)
    (ho : (o.1 + UInt32.ofNat t.x).toNat + t.w < 2 ^ 32) : Sound o (toTile t) := by
  have hw := h.w_le
  have hh := h.h_le
  have hlen : (toPixels t.rgba).length = t.w * t.h := by
    rw [length_toPixels, h.whole, Nat.mul_div_cancel _ (by decide)]
  exact ⟨⟨hlen, ho⟩, show t.w < 65536 by omega, h.h_pos, show t.h < 65536 by omega⟩

def desktop : MfRenderer Unit Unit Unit := (MfRenderer.new 64 64 () () false).fbEnsure 64 64

def grey (v : UInt8) : List UInt8 := (List.replicate 4096 [v, v, v, 0xFF]).flatten

def twoPasses : List ProgressiveTile :=
  emitClipped 0 0 (grey 0x40) [⟨10, 10, 1, 1⟩] ++ emitClipped 0 0 (grey 0xC0) [⟨10, 9, 1, 2⟩]

theorem twoPasses_tiles : twoPasses.map toTile = [⟨10, 10, 1, 1, [⟨0x40, 0x40, 0x40, 0xFF⟩]⟩, ⟨10, 9, 1, 2,
      [⟨0xC0, 0xC0, 0xC0, 0xFF⟩, ⟨0xC0, 0xC0, 0xC0, 0xFF⟩]⟩] := by
  have hpieces : twoPasses = [⟨10, 10, 1, 1, [0x40, 0x40, 0x40, 0xFF]⟩,
      ⟨10, 9, 1, 2, [0xC0, 0xC0, 0xC0, 0xFF, 0xC0, 0xC0, 0xC0, 0xFF]⟩] := by decide +kernel
  rw [hpieces]
  rfl

end Rdpio.Client
