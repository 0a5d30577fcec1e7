import Rdpio.Lib.Checked

/-!
# Rows joined

A list made of `h` rows of one length `w`.
-/

namespace Rdpio.Lib

variable {α : Type*} {f : ℕ → List α} {w h j i : ℕ}

theorem add_lt_of_row (hj : j < h) (hi : i < w) : j * w + i < h * w :=
  calc j * w + i < j * w + w := Nat.add_lt_add_left hi _
    _ = (j + 1) * w := (Nat.succ_mul j w).symm
    _ ≤ h * w := Nat.mul_le_mul_right w hj

theorem length_flatMap_range (hf : ∀ j < h, (f j).length = w) : ((List.range h).flatMap f).length = h * w := by
  induction h with
  | zero => exact (Nat.zero_mul w).symm
  | succ h ih =>
    rw [List.range_succ, List.flatMap_append, List.flatMap_cons, List.flatMap_nil, List.append_nil,
      List.length_append, ih fun j hj => hf j (Nat.lt_succ_of_lt hj), hf h (Nat.lt_succ_self h), Nat.succ_mul]

theorem drop_flatMap_range (hf : ∀ j < h, (f j).length = w) (hj : j < h) :
    ∃ later, ((List.range h).flatMap f).drop (j * w) = f j ++ later := by
  have hsplit : List.range h = List.range j ++ j :: ((List.range (h - j - 1)).map Nat.succ).map (j + ·) := by
    conv_lhs => rw [show h = j + (h - j - 1 + 1) by omega, List.range_add, List.range_succ_eq_map, List.map_cons]
    rfl
  refine ⟨(((List.range (h - j - 1)).map Nat.succ).map (j + ·)).flatMap f, ?_⟩
  rw [hsplit, List.flatMap_append, List.flatMap_cons]
  exact List.drop_left' (length_flatMap_range fun i hi => hf i (by omega))

theorem take_drop_flatMap_range (hf : ∀ j < h, (f j).length = w) (hj : j < h) {n : ℕ} (hi : i + n ≤ w) :
    (((List.range h).flatMap f).drop (j * w + i)).take n = ((f j).drop i).take n := by
  obtain ⟨later, hlater⟩ := drop_flatMap_range hf hj
  have hlen := hf j hj
  rw [← List.drop_drop, hlater, List.drop_append_of_le_length (by omega),
    List.take_append_of_le_length (by rw [List.length_drop]; omega)]

theorem getD_flatMap_range (hf : ∀ j < h, (f j).length = w) (hj : j < h) (hi : i < w) (d : α) :
    ((List.range h).flatMap f).getD (j * w + i) d = (f j).getD i d := by
  obtain ⟨later, hlater⟩ := drop_flatMap_range hf hj
  rw [List.getD_eq_getElem?_getD, ← List.getElem?_drop, hlater, List.getElem?_append_left (by rw [hf j hj]; exact hi),
    List.getD_eq_getElem?_getD]

/-- The `n` elements of a place, in rows of `w` places. -/
def cell (n w : ℕ) (l : List α) (x y : ℕ) : List α := (l.drop ((y * w + x) * n)).take n

theorem cell_flatMap_range {n : ℕ} (hf : ∀ j < h, (f j).length = w * n) (hj : j < h) (hi : i < w) :
    cell n w ((List.range h).flatMap f) i j = ((f j).drop (i * n)).take n := by
  have hin : i * n + n ≤ w * n :=
    calc i * n + n = (i + 1) * n := (Nat.succ_mul i n).symm
      _ ≤ w * n := Nat.mul_le_mul_right n hi
  rw [cell, Nat.add_mul, Nat.mul_assoc, take_drop_flatMap_range hf hj hin]

theorem row_inj {y x y' x' : ℕ} (hx : x < w) (hx' : x' < w) (h : y * w + x = y' * w + x') : y = y' ∧ x = x' := by
  have hpos : 0 < w := by omega
  have hrow : ∀ {a b : ℕ}, b < w → (a * w + b) / w = a := fun hb => by
    rw [Nat.mul_comm, Nat.mul_add_div hpos, Nat.div_eq_of_lt hb, Nat.add_zero]
  obtain rfl : y = y' :=
    calc y = (y * w + x) / w := (hrow hx).symm
      _ = (y' * w + x') / w := by rw [h]
      _ = y' := hrow hx'
  exact ⟨rfl, Nat.add_left_cancel h⟩

/-- The list has `h` rows of `w`, with `g y x` in row `y` at `x`. -/
structure Shows (w h : ℕ) (l : List α) (g : ℕ → ℕ → Option α) : Prop where
  whole : l.length = w * h
  places : ∀ y < h, ∀ x < w, l[y * w + x]? = g y x

namespace Shows

variable {l : List α} {g : ℕ → ℕ → Option α}

theorem congr {g' : ℕ → ℕ → Option α} (hl : Shows w h l g) (hg : ∀ y < h, ∀ x < w, g y x = g' y x) :
    Shows w h l g' := ⟨hl.whole, fun y hy x hx => (hl.places y hy x hx).trans (hg y hy x hx)⟩

theorem replicate (w h : ℕ) (c : α) : Shows w h (List.replicate (w * h) c) fun _ _ => some c where
  whole := List.length_replicate
  places y hy x hx := by
    rw [List.getElem?_replicate, if_pos (by rw [Nat.mul_comm w]; exact add_lt_of_row hy hx)]

theorem put (hl : Shows w h l g) {y x : ℕ} (hy : y < h) (hx : x < w) (c : α) : ∃ l', Lib.put l (y * w + x) c = some l' ∧
      Shows w h l' fun y' x' => if y' = y ∧ x' = x then some c else g y' x' := by
  have hin : y * w + x < l.length := by
    rw [hl.whole, Nat.mul_comm w]
    exact add_lt_of_row hy hx
  refine ⟨_, if_pos hin, (List.length_set ..).trans hl.whole, fun y' hy' x' hx' => ?_⟩
  rw [List.getElem?_set]
  by_cases hplace : y' = y ∧ x' = x
  · rw [if_pos hplace, hplace.1, hplace.2, if_pos rfl, if_pos hin]
  · rw [if_neg hplace, if_neg fun heq => hplace (row_inj hx' hx heq.symm), hl.places y' hy' x' hx']

theorem putRow (hl : Shows w h l g) {y : ℕ} (hy : y < h) {src : List α} (hsrc : src.length = w) :
    ∃ l', copyTo l (y * w) (y * w + w) src = some l' ∧
      Shows w h l' fun y' x' => if y' = y then src[x']? else g y' x' := by
  have hin : y * w + w ≤ l.length := by
    rw [hl.whole, Nat.mul_comm w, ← Nat.succ_mul]
    exact Nat.mul_le_mul_right w hy
  obtain ⟨l', hcopy, hlen, hat⟩ := copyTo_spec _ _ _ _ (Nat.le_add_right (y * w) w) hin (by rw [hsrc, Nat.add_sub_cancel_left])
  refine ⟨l', hcopy, hlen.trans hl.whole, fun y' hy' x' hx' => ?_⟩
  rw [hat]
  by_cases hrow : y' = y
  · rw [if_pos hrow, hrow, if_pos ⟨Nat.le_add_right .., Nat.add_lt_add_left hx' _⟩, Nat.add_sub_cancel_left]
  · -- A place of another row is before this one or behind it.
    rw [if_neg hrow, if_neg, hl.places y' hy' x' hx']
    rintro ⟨hge, hlt⟩
    obtain ⟨hsame, -⟩ := @row_inj w y' _ y _ hx' (show y' * w + x' - y * w < w by omega) (by omega)
    exact hrow hsame

end Shows

end Rdpio.Lib
