import Mathlib.Data.List.SplitBy
import Rdpio.Client.Both
import Rdpio.Lib.Grid

/-!
# Tiles and bands

A progressive payload's tiles are put one by one by the compositor; the renderer sorts them by place and joins
those side by side into one blit.
-/

namespace Rdpio.Client

open Graphics Android Lib

/-- What is at a place of the desktop after a tile. -/
def tileAt (o : UInt32 × UInt32) (px py : ℕ) (v : Pixel) (t : Tile) : Pixel :=
  if Within (o.1 + t.x).toNat (o.2 + t.y).toNat t.w t.h px py then
    t.rgba.getD ((py - (o.2 + t.y).toNat) * t.w + (px - (o.1 + t.x).toNat)) .black
  else v

/-- A tile has its bytes, and lies where the coordinates do. -/
structure Fits (o : UInt32 × UInt32) (t : Tile) : Prop where
  whole : t.rgba.length = t.w * t.h
  right : (o.1 + t.x).toNat + t.w < 65536
  bottom : (o.2 + t.y).toNat + t.h < 65536

/-- A tile has its bytes, and ends before coordinates start again from 0. -/
structure Lies (o : UInt32 × UInt32) (t : Tile) : Prop where
  whole : t.rgba.length = t.w * t.h
  right : (o.1 + t.x).toNat + t.w < 2 ^ 32

theorem Fits.lies {o : UInt32 × UInt32} {t : Tile} (h : Fits o t) : Lies o t := ⟨h.whole, h.right.trans (by decide)⟩

def tileRow (row : ℕ) (t : Tile) : List Pixel := (t.rgba.drop (row * t.w)).take t.w

theorem foldl_put_fb {o : UInt32 × UInt32} {tiles : List Tile} (hfits : ∀ t ∈ tiles, Fits o t) (c : Canvas)
    {px py : ℕ} (hpx : px < c.width) (hpy : py < c.height) :
    (tiles.foldl (fun canvas t => canvas.put (o.1 + t.x).toNat (o.2 + t.y).toNat t.w t.h t.rgba) c).fb px py =
      tiles.foldl (tileAt o px py) (c.fb px py) := by
  induction tiles generalizing c with
  | nil => rfl
  | cons t tiles ih =>
    obtain ⟨hw, hh⟩ := put_size c (o.1 + t.x).toNat (o.2 + t.y).toNat t.w t.h t.rgba
    rw [List.foldl_cons, List.foldl_cons, ih (fun t' ht' => hfits t' (List.mem_cons_of_mem t ht')) _
      (hpx.trans_eq hw.symm) (hpy.trans_eq hh.symm), put_fb c _ _ _ _ _ hpx hpy, tileAt]
    by_cases hin : Within (o.1 + t.x).toNat (o.2 + t.y).toNat t.w t.h px py
    · have hplace := hin
      obtain ⟨_, _, hy, hy'⟩ := hplace
      have hrow := row_le_of_whole (hfits t List.mem_cons_self).whole.ge
        (show py - (o.2 + t.y).toNat < t.h by omega) (Nat.min_le_right (c.width - (o.1 + t.x).toNat) t.w)
      rw [if_pos ⟨hin, hrow⟩, if_pos hin]
    · rw [if_neg fun hin' => hin hin'.1, if_neg hin]

section Bands

variable {o : UInt32 × UInt32} {t : Tile} {rest : List Tile} {row i : ℕ}

theorem length_tileRow (hfits : Lies o t) (hrow : row < t.h) : (tileRow row t).length = t.w := by
  have hle := row_le_of_whole hfits.whole.ge hrow le_rfl
  rw [tileRow, List.length_take, List.length_drop]
  omega

theorem getD_tileRow (hi : i < t.w) : (tileRow row t).getD i .black = t.rgba.getD (row * t.w + i) .black := by
  rw [tileRow, List.getD_eq_getElem?_getD, List.getElem?_take_of_lt hi, List.getElem?_drop, List.getD_eq_getElem?_getD]

theorem beside {n : Tile} (h : joins t n = true) (hfits : Lies o t) :
    n.y = t.y ∧ n.h = t.h ∧ (o.1 + n.x).toNat = (o.1 + t.x).toNat + t.w := by
  simp only [joins, Bool.and_eq_true, beq_iff_eq] at h
  obtain ⟨⟨hy, hh⟩, hx⟩ := h
  have hright := hfits.right
  refine ⟨hy, hh, ?_⟩
  rw [hx, ← UInt32.add_assoc, UInt32.toNat_add, UInt32.toNat_ofNat', Nat.mod_eq_of_lt (show t.w < 2 ^ 32 by omega),
    Nat.mod_eq_of_lt (by omega)]

theorem band_right (hchain : (t :: rest).IsChain fun p n => joins p n = true) (hfits : ∀ n ∈ t :: rest, Fits o n) :
    (o.1 + t.x).toNat + ((t :: rest).map Tile.w).sum < 65536 := by
  induction rest generalizing t with
  | nil =>
    rw [List.map_cons, List.map_nil, List.sum_cons, List.sum_nil, Nat.add_zero]
    exact (hfits t List.mem_cons_self).right
  | cons n rest ih =>
    obtain ⟨hjoins, htail⟩ := List.isChain_cons_cons.mp hchain
    obtain ⟨_, _, hx⟩ := beside hjoins (hfits t List.mem_cons_self).lies
    have hrest := ih htail fun n' hn' => hfits n' (List.mem_cons_of_mem t hn')
    rw [List.map_cons, List.sum_cons]
    omega

theorem length_bandRow (hchain : (t :: rest).IsChain fun p n => joins p n = true)
    (hfits : ∀ n ∈ t :: rest, Lies o n) (hrow : row < t.h) :
    ((t :: rest).flatMap (tileRow row)).length = ((t :: rest).map Tile.w).sum := by
  induction rest generalizing t with
  | nil =>
    rw [List.flatMap_cons, List.flatMap_nil, List.append_nil, length_tileRow (hfits t List.mem_cons_self) hrow]
    rfl
  | cons n rest ih =>
    obtain ⟨hjoins, htail⟩ := List.isChain_cons_cons.mp hchain
    obtain ⟨_, hh, _⟩ := beside hjoins (hfits t List.mem_cons_self)
    have hrest := ih htail (fun n' hn' => hfits n' (List.mem_cons_of_mem t hn')) (hh ▸ hrow)
    show (tileRow row t ++ (n :: rest).flatMap (tileRow row)).length = t.w + ((n :: rest).map Tile.w).sum
    rw [List.length_append, length_tileRow (hfits t List.mem_cons_self) hrow, hrest]

theorem foldl_tileAt_band (hchain : (t :: rest).IsChain fun p n => joins p n = true)
    (hfits : ∀ n ∈ t :: rest, Lies o n) (px py : ℕ) (v : Pixel) :
    (t :: rest).foldl (tileAt o px py) v =
      if Within (o.1 + t.x).toNat (o.2 + t.y).toNat ((t :: rest).map Tile.w).sum t.h px py then
        ((t :: rest).flatMap (tileRow (py - (o.2 + t.y).toNat))).getD (px - (o.1 + t.x).toNat) .black
      else v := by
  induction rest generalizing t v with
  | nil =>
    rw [List.foldl_cons, List.foldl_nil, List.flatMap_cons, List.flatMap_nil, List.append_nil, List.map_cons,
      List.map_nil, List.sum_cons, List.sum_nil, Nat.add_zero, tileAt]
    by_cases hin : Within (o.1 + t.x).toNat (o.2 + t.y).toNat t.w t.h px py
    · rw [if_pos hin, if_pos hin, getD_tileRow]
      obtain ⟨hx, hx', _⟩ := hin
      omega
    · rw [if_neg hin, if_neg hin]
  | cons n rest ih =>
    obtain ⟨hjoins, htail⟩ := List.isChain_cons_cons.mp hchain
    have hfirst := hfits t List.mem_cons_self
    obtain ⟨hy, hh, hx⟩ := beside hjoins hfirst
    have hrest := ih htail (fun n' hn' => hfits n' (List.mem_cons_of_mem t hn')) (tileAt o px py v t)
    rw [hy, hh, hx] at hrest
    show (n :: rest).foldl (tileAt o px py) (tileAt o px py v t) =
      if Within (o.1 + t.x).toNat (o.2 + t.y).toNat (t.w + ((n :: rest).map Tile.w).sum) t.h px py then
        (tileRow (py - (o.2 + t.y).toNat) t ++ (n :: rest).flatMap (tileRow (py - (o.2 + t.y).toNat))).getD
          (px - (o.1 + t.x).toNat) .black
      else v
    rw [hrest, tileAt]
    generalize ((n :: rest).map Tile.w).sum = run_w
    generalize (n :: rest).flatMap (tileRow (py - (o.2 + t.y).toNat)) = later
    by_cases hlater : Within ((o.1 + t.x).toNat + t.w) (o.2 + t.y).toNat run_w t.h px py
    · -- A later tile's place.
      have hplace := hlater
      obtain ⟨hx1, hx2, hy1, hy2⟩ := hplace
      have hlen := length_tileRow hfirst (show py - (o.2 + t.y).toNat < t.h by omega)
      rw [if_pos hlater, if_pos ⟨by omega, by omega, hy1, hy2⟩, List.getD_append_right _ _ _ _ (by omega), hlen,
        Nat.sub_add_eq]
    · rw [if_neg hlater]
      by_cases hin : Within (o.1 + t.x).toNat (o.2 + t.y).toNat t.w t.h px py
      · have hplace := hin
        obtain ⟨hx1, hx2, hy1, hy2⟩ := hplace
        have hlen := length_tileRow hfirst (show py - (o.2 + t.y).toNat < t.h by omega)
        rw [if_pos hin, if_pos ⟨hx1, by omega, hy1, hy2⟩, List.getD_append _ _ _ _ (by omega), getD_tileRow (by omega)]
      · rw [if_neg hin, if_neg]
        unfold Within at hlater hin ⊢
        omega

end Bands

theorem tileLe_trans (a b c : Tile) (hab : tileLe a b = true) (hbc : tileLe b c = true) : tileLe a c = true := by
  simp only [tileLe, Bool.or_eq_true, Bool.and_eq_true, beq_iff_eq, decide_eq_true_eq, UInt32.lt_iff_toNat_lt,
    UInt32.le_iff_toNat_le, ← UInt32.toNat_inj] at hab hbc ⊢
  omega

theorem tileLe_total (a b : Tile) : (tileLe a b || tileLe b a) = true := by
  simp only [tileLe, Bool.or_eq_true, Bool.and_eq_true, beq_iff_eq, decide_eq_true_eq, UInt32.lt_iff_toNat_lt,
    UInt32.le_iff_toNat_le, ← UInt32.toNat_inj]
  omega

section Payload

variable {κ π θ : Type} {o : UInt32 × UInt32} {t : Tile} {rest : List Tile} {r : MfRenderer κ π θ}

theorem band_rgba (hchain : (t :: rest).IsChain fun p n => joins p n = true) (hfits : ∀ n ∈ t :: rest, Lies o n) :
    let rgba := if rest.isEmpty then t.rgba else bandRgba t.h (t :: rest)
    let run_w := ((t :: rest).map Tile.w).sum
    run_w * t.h ≤ rgba.length ∧ ∀ row i, row < t.h → i < run_w →
      rgba.getD (row * run_w + i) .black = ((t :: rest).flatMap (tileRow row)).getD i .black := by
  have hrows : ∀ row < t.h, ((t :: rest).flatMap (tileRow row)).length = ((t :: rest).map Tile.w).sum :=
    fun row hrow => length_bandRow hchain hfits hrow
  intro rgba run_w
  rcases rest with _ | ⟨n, rest⟩
  · have hrun : run_w = t.w := Nat.add_zero t.w
    have hrgba : rgba = t.rgba := rfl
    rw [hrun, hrgba]
    refine ⟨(hfits t List.mem_cons_self).whole.ge, fun row i _ hi => ?_⟩
    rw [List.flatMap_cons, List.flatMap_nil, List.append_nil, getD_tileRow hi]
  · have hrgba : rgba = (List.range t.h).flatMap fun row => (t :: n :: rest).flatMap (tileRow row) := rfl
    rw [hrgba]
    refine ⟨?_, fun row i hrow hi => getD_flatMap_range hrows hrow hi .black⟩
    rw [length_flatMap_range hrows, Nat.mul_comm]

theorem shadow_band (hpos : 0 < r.fb_w) (hchain : (t :: rest).IsChain fun p n => joins p n = true)
    (hfits : ∀ n ∈ t :: rest, Fits o n) :
    ∃ b, bandBlit o (t :: rest) = some b ∧ ∃ fb, r.shadowBlit b = { r with fb := fb } ∧
      ∀ px py, px < r.fb_w → py < r.fb_h → fb px py = (t :: rest).foldl (tileAt o px py) (r.fb px py) := by
  have hright := band_right hchain hfits
  have hbottom := (hfits t List.mem_cons_self).bottom
  have hlies : ∀ n ∈ t :: rest, Lies o n := fun n hn => (hfits n hn).lies
  obtain ⟨hlen, hrgba⟩ := band_rgba hchain hlies
  refine ⟨_, rfl, _, MfRenderer.fbPut_eq hpos .., fun px py hpx hpy => ?_⟩
  rw [toNat_clamp, toNat_clamp, toNat_clamp, toNat_clamp, min_eq_left (by omega), min_eq_left (by omega),
    min_eq_left (by omega), min_eq_left (by omega), foldl_tileAt_band hchain hlies]
  by_cases hin : Within (o.1 + t.x).toNat (o.2 + t.y).toNat ((t :: rest).map Tile.w).sum t.h px py
  · have hplace := hin
    obtain ⟨hx, hx', hy, hy'⟩ := hplace
    have hrow := row_le_of_whole hlen (show py - (o.2 + t.y).toNat < t.h by omega)
      (Nat.min_le_right (r.fb_w - (o.1 + t.x).toNat) _)
    rw [if_pos hin, if_pos ⟨⟨hpx, hpy, hin⟩, hrow⟩]
    exact hrgba _ _ (by omega) (by omega)
  · rw [if_neg hin, if_neg fun hin' => hin hin'.1.2.2]

theorem shadow_runs {bands : List (List Tile)}
    (hruns : ∀ run ∈ bands, ∀ fb, ∃ b, bandBlit o run = some b ∧
      ∃ fb', { r with fb := fb }.shadowBlit b = { r with fb := fb' } ∧
        ∀ px py, px < r.fb_w → py < r.fb_h → fb' px py = run.foldl (tileAt o px py) (fb px py)) :
    ∃ fb, r.shadowBlits (bands.filterMap (bandBlit o)) = { r with fb := fb } ∧
      ∀ px py, px < r.fb_w → py < r.fb_h → fb px py = bands.flatten.foldl (tileAt o px py) (r.fb px py) := by
  induction bands generalizing r with
  | nil => exact ⟨r.fb, rfl, fun _ _ _ _ => rfl⟩
  | cons run bands ih =>
    obtain ⟨b, hb, fb, hfb, hat⟩ := hruns run List.mem_cons_self r.fb
    obtain ⟨fb', hfb', hat'⟩ := ih (r := { r with fb := fb }) fun run' hrun' =>
      hruns run' (List.mem_cons_of_mem _ hrun')
    refine ⟨fb', ?_, fun px py hpx hpy => ?_⟩
    · rw [List.filterMap_cons_some hb, MfRenderer.shadowBlits, List.foldl_cons, hfb]
      exact hfb'
    · rw [hat' px py hpx hpy, List.flatten_cons, List.foldl_append]
      exact congrArg (bands.flatten.foldl (tileAt o px py)) (hat px py hpx hpy)

theorem shadow_bands {bands : List (List Tile)} (hpos : 0 < r.fb_w)
    (hbands : ∀ run ∈ bands, run ≠ [] ∧ (run.IsChain fun p n => joins p n = true) ∧ ∀ n ∈ run, Fits o n) :
    ∃ fb, r.shadowBlits (bands.filterMap (bandBlit o)) = { r with fb := fb } ∧
      ∀ px py, px < r.fb_w → py < r.fb_h → fb px py = bands.flatten.foldl (tileAt o px py) (r.fb px py) := by
  refine shadow_runs fun run hrun fb => ?_
  obtain ⟨hne, hchain, hfits⟩ := hbands run hrun
  obtain ⟨t, rest, rfl⟩ := List.exists_cons_of_ne_nil hne
  exact shadow_band (r := { r with fb := fb }) hpos hchain hfits

theorem foldl_tileAt_mergeSort {tiles : List Tile}
    (horder : tiles.Pairwise fun a b => tileLe a b = true ∨ ¬Both.Overlap o a b) (px py : ℕ) (v : Pixel) :
    (tiles.mergeSort tileLe).foldl (tileAt o px py) v = tiles.foldl (tileAt o px py) v := by
  let covers : Tile → Bool := fun t => decide (Within (o.1 + t.x).toNat (o.2 + t.y).toNat t.w t.h px py)
  have hfilter : ∀ (l : List Tile) (v : Pixel),
      l.foldl (tileAt o px py) v = (l.filter covers).foldl (tileAt o px py) v := by
    intro l v
    rw [List.foldl_filter]
    congr 1
    funext v t
    by_cases hin : Within (o.1 + t.x).toNat (o.2 + t.y).toNat t.w t.h px py
    · rw [if_pos (decide_eq_true hin)]
    · rw [if_neg (by simpa [covers] using hin), tileAt, if_neg hin]
  -- Those that cover the place overlap there, so they keep their order.
  have hsorted : (tiles.filter covers).Pairwise fun a b => tileLe a b = true := by
    rw [List.pairwise_filter]
    refine horder.imp fun {a b} hab ha hb => hab.resolve_right fun hnot => hnot ?_
    obtain ⟨h1, h2, h3, h4⟩ := of_decide_eq_true ha
    obtain ⟨h5, h6, h7, h8⟩ := of_decide_eq_true hb
    exact ⟨by omega, by omega, by omega, by omega⟩
  have hsub : (tiles.filter covers).Sublist (tiles.mergeSort tileLe) :=
    List.sublist_mergeSort tileLe_trans tileLe_total hsorted List.filter_sublist
  have hperm : ((tiles.mergeSort tileLe).filter covers).Perm (tiles.filter covers) :=
    (List.mergeSort_perm tiles tileLe).filter covers
  have heq : tiles.filter covers = (tiles.mergeSort tileLe).filter covers := by
    refine List.Sublist.eq_of_length ?_ hperm.length_eq.symm
    have hsub' := hsub.filter covers
    rw [List.filter_filter, funext fun t => Bool.and_self (covers t)] at hsub'
    exact hsub'
  rw [hfilter, ← heq, ← hfilter]

end Payload

end Rdpio.Client
