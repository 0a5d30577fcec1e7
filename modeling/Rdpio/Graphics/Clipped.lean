import Rdpio.Graphics.Progressive
import Rdpio.Lib.Grid

/-!
# Clipped tiles

What a progressive tile paints.
-/

namespace Rdpio.Graphics

open Lib

/-- The tile at `(x, y)` has the place. -/
def InTile (x y px py : ℕ) : Prop := (x ≤ px ∧ px < x + tileSize) ∧ y ≤ py ∧ py < y + tileSize

/-- The rectangle has the place. -/
def RegionRect.Has (r : RegionRect) (px py : ℕ) : Prop :=
  (r.x.toNat ≤ px ∧ px < r.x.toNat + r.w.toNat) ∧ r.y.toNat ≤ py ∧ py < r.y.toNat + r.h.toNat

namespace ProgressiveTile

/-- The piece paints the place. -/
def Has (t : ProgressiveTile) (px py : ℕ) : Prop := (t.x ≤ px ∧ px < t.x + t.w) ∧ t.y ≤ py ∧ py < t.y + t.h

def pixel (t : ProgressiveTile) (px py : ℕ) : List UInt8 := cell 4 t.w t.rgba (px - t.x) (py - t.y)

/-- A piece of the tile at `(x, y)`: it lies in the tile, has its bytes, and has the tile's colours. -/
structure PieceOf (t : ProgressiveTile) (x y : ℕ) (rgba : List UInt8) : Prop where
  inside : ∀ px py, t.Has px py → InTile x y px py
  whole : t.rgba.length = t.w * t.h * 4
  pixels : ∀ px py, t.Has px py → t.pixel px py = cell 4 tileSize rgba (px - x) (py - y)

end ProgressiveTile

section

variable {x y : ℕ} {rgba : List UInt8}

theorem pieceOf_whole (hrgba : rgba.length = tileSize * tileSize * 4) :
    (⟨x, y, tileSize, tileSize, rgba⟩ : ProgressiveTile).PieceOf x y rgba where
  inside _ _ h := h
  whole := hrgba
  pixels _ _ _ := rfl

theorem RegionRect.not_has_of_crop {r : RegionRect} {px py : ℕ} (h : r.crop x y rgba = none) (hin : InTile x y px py) :
    ¬ r.Has px py := by
  unfold RegionRect.crop at h
  dsimp only at h
  split_ifs at h with hempty
  unfold InTile at hin
  unfold RegionRect.Has
  omega

theorem RegionRect.crop_spec {r : RegionRect} {t : ProgressiveTile} (hrgba : rgba.length = tileSize * tileSize * 4)
    (h : r.crop x y rgba = some t) :
    (∀ px py, t.Has px py ↔ InTile x y px py ∧ r.Has px py) ∧ t.PieceOf x y rgba := by
  unfold RegionRect.crop at h
  dsimp only at h
  split_ifs at h with hempty
  rw [Option.some.injEq] at h
  have hplace : ∀ px py, t.Has px py ↔ InTile x y px py ∧ r.Has px py := by
    intro px py
    rw [← h]
    unfold ProgressiveTile.Has InTile RegionRect.Has
    dsimp only
    omega
  obtain ⟨hright, hbottom⟩ := not_or.1 hempty
  -- Each row of the part lies in the tile's row.
  have hrow : ∀ j < t.h, ((rgba.drop (((t.y - y + j) * tileSize + (t.x - x)) * 4)).take (t.w * 4)).length = t.w * 4 := by
    intro j hj
    have hlt : (t.y - y + j) * tileSize + (t.x - x + (t.w - 1)) < tileSize * tileSize := by
      rw [← h] at hj ⊢
      dsimp only at hj ⊢
      exact add_lt_of_row (by omega) (by omega)
    have hpos : 0 < t.w := by
      rw [← h]
      dsimp only
      omega
    rw [List.length_take, List.length_drop, hrgba]
    omega
  have hbytes : t.rgba = (List.range t.h).flatMap fun j =>
      (rgba.drop (((t.y - y + j) * tileSize + (t.x - x)) * 4)).take (t.w * 4) := by rw [← h]
  refine ⟨hplace, fun px py hp => ((hplace px py).1 hp).1, ?_, fun px py hp => ?_⟩
  · rw [hbytes, length_flatMap_range hrow, ← Nat.mul_assoc, Nat.mul_comm t.h]
  · have hleft : x ≤ t.x := by
      rw [← h]
      exact Nat.le_max_left _ _
    have htop : y ≤ t.y := by
      rw [← h]
      exact Nat.le_max_left _ _
    obtain ⟨⟨hx, hx'⟩, hy, hy'⟩ := hp
    unfold ProgressiveTile.pixel
    rw [hbytes, cell_flatMap_range hrow (by omega) (by omega), cell, List.drop_take, List.take_take, List.drop_drop,
      Nat.min_eq_left (by omega)]
    congr 2
    rw [← Nat.add_mul, Nat.add_assoc, show t.y - y + (py - t.y) = py - y by omega,
      show t.x - x + (px - t.x) = px - x by omega]

/-- What a tile emits: itself where no rectangle is given, and else the places that it has in one of them, in pieces
that lie in it and have its colours. -/
theorem emitClipped_spec (hrgba : rgba.length = tileSize * tileSize * 4) (rects : List RegionRect) :
    (rects = [] → emitClipped x y rgba rects = [⟨x, y, tileSize, tileSize, rgba⟩]) ∧
      (rects ≠ [] → ∀ px py, (∃ t ∈ emitClipped x y rgba rects, t.Has px py) ↔
        InTile x y px py ∧ ∃ r ∈ rects, r.Has px py) ∧
      ∀ t ∈ emitClipped x y rgba rects, t.PieceOf x y rgba := by
  refine ⟨fun hnil => by rw [hnil]; rfl, fun hne px py => ?_, fun t ht => ?_⟩
  · unfold emitClipped
    split_ifs with hwhole
    · obtain ⟨r, hr, hcovers⟩ := List.any_eq_true.1 ((Bool.or_eq_true_iff.1 hwhole).resolve_left
        (by rw [List.isEmpty_iff]; exact hne))
      have hin : InTile x y px py → r.Has px py := by
        simp only [RegionRect.covers, Bool.and_eq_true, decide_eq_true_eq] at hcovers
        unfold InTile RegionRect.Has
        omega
      constructor
      · rintro ⟨t, ht, hp⟩
        rw [List.mem_singleton.1 ht] at hp
        exact ⟨hp, r, hr, hin hp⟩
      · rintro ⟨hp, -⟩
        exact ⟨_, List.mem_singleton_self _, hp⟩
    · constructor
      · rintro ⟨t, ht, hp⟩
        obtain ⟨r, hr, hcrop⟩ := List.mem_filterMap.1 ht
        obtain ⟨hin, hhas⟩ := ((RegionRect.crop_spec hrgba hcrop).1 px py).1 hp
        exact ⟨hin, r, hr, hhas⟩
      · rintro ⟨hin, r, hr, hhas⟩
        cases hcrop : r.crop x y rgba with
        | none => exact absurd hhas (RegionRect.not_has_of_crop hcrop hin)
        | some t =>
          exact ⟨t, List.mem_filterMap.2 ⟨r, hr, hcrop⟩, ((RegionRect.crop_spec hrgba hcrop).1 px py).2 ⟨hin, hhas⟩⟩
  · unfold emitClipped at ht
    split_ifs at ht
    · rw [List.mem_singleton.1 ht]
      exact pieceOf_whole hrgba
    · obtain ⟨r, -, hcrop⟩ := List.mem_filterMap.1 ht
      exact (RegionRect.crop_spec hrgba hcrop).2

end

/-- Two rectangles that overlap, over a tile of one colour. -/
theorem emitClipped_spec_overlap :
    (∃ t ∈ emitClipped 64 0 (List.replicate 16384 7) [⟨70, 2, 10, 10⟩, ⟨75, 5, 100, 4⟩], t.Has 76 6) ∧
      ¬ ∃ t ∈ emitClipped 64 0 (List.replicate 16384 7) [⟨70, 2, 10, 10⟩, ⟨75, 5, 100, 4⟩], t.Has 69 6 := by
  obtain ⟨-, hplaces, -⟩ := @emitClipped_spec 64 0 (List.replicate 16384 7) List.length_replicate
    [⟨70, 2, 10, 10⟩, ⟨75, 5, 100, 4⟩]
  constructor
  · rw [hplaces (List.cons_ne_nil _ _)]
    exact ⟨by unfold InTile; decide, ⟨70, 2, 10, 10⟩, List.mem_cons_self, by unfold RegionRect.Has; decide⟩
  · rw [hplaces (List.cons_ne_nil _ _)]
    rintro ⟨-, r, hr, hhas⟩
    simp only [List.mem_cons, List.not_mem_nil, or_false] at hr
    unfold RegionRect.Has at hhas
    rcases hr with rfl | rfl
    · exact absurd hhas (by decide)
    · exact absurd hhas (by decide)

end Rdpio.Graphics
