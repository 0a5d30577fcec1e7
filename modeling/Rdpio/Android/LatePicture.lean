import Mathlib.Data.Nat.Find
import Rdpio.Android.Geometry

/-!
# Late H.264 pictures

`AvcDecoder::decode` of `android/rust/src/rdp/avc.rs`, called by `Compositor::avc420` of `compositor.rs` for every
access unit: it waits 80 ms for the unit's picture, painted through the unit's rectangles; a later one is released
unpainted by the next call.
-/

namespace Rdpio.Android.LatePicture

open Graphics Geometry

structure AccessUnit where
  rects : List Rect16
  /-- How many pictures come out before the wait of its call is over, of those that are due. -/
  ready : ℕ

def outputs (pts : ℕ) : ℕ → ℕ → ℕ × Bool
  | 0, given => (given, false)
  | ready + 1, given =>
    if given < pts then outputs pts ready (given + 1) -- Released unpainted.
    else if given = pts then (given + 1, true)
    else (given, false)

def AccessUnit.named (whole : Rect16) (u : AccessUnit) : List Rect16 := if u.rects = [] then [whole] else u.rects

structure State where
  canvas : Canvas
  pts : ℕ
  given : ℕ

def avc420 (whole : Rect16) (o : ℕ × ℕ) (pictures : ℕ → ℕ → ℕ → Pixel) (s : State) (u : AccessUnit) : State :=
  let (given, painted) := outputs s.pts u.ready s.given
  { canvas := if painted then s.canvas.avc420 o.1 o.2 (pictures s.pts) (u.named whole) else s.canvas
    pts := s.pts + 1
    given }

/-- What there is before unit `k`. -/
def before (whole : Rect16) (o : ℕ × ℕ) (pictures : ℕ → ℕ → ℕ → Pixel) (us : ℕ → AccessUnit) (canvas : Canvas) :
    ℕ → State
  | 0 => ⟨canvas, 0, 0⟩
  | k + 1 => avc420 whole o pictures (before whole o pictures us canvas k) (us k)

def givenBefore (us : ℕ → AccessUnit) : ℕ → ℕ
  | 0 => 0
  | k + 1 => (outputs k (us k).ready (givenBefore us k)).1

/-- Unit `k`'s picture comes out while its own call waits. -/
def InTime (us : ℕ → AccessUnit) (k : ℕ) : Prop := (outputs k (us k).ready (givenBefore us k)).2 = true

instance (us : ℕ → AccessUnit) (k : ℕ) : Decidable (InTime us k) := inferInstanceAs (Decidable (_ = true))

def Names (whole : Rect16) (u : AccessUnit) (x y : ℕ) : Prop :=
  ∃ r ∈ u.named whole, Within r.left.toNat r.top.toNat r.width r.height x y

structure LosesNothing (whole : Rect16) (us : ℕ → AccessUnit) (n : ℕ) : Prop where
  shows : ∀ (canvas : Canvas) (o : ℕ × ℕ) (pictures : ℕ → ℕ → ℕ → Pixel) (k : ℕ), k < n → InTime us k → ∀ j ≤ k,
    ∀ x y, Names whole (us j) x y → o.1 + x < canvas.width → o.2 + y < canvas.height →
      ∃ i, j ≤ i ∧ i ≤ k ∧ (before whole o pictures us canvas (k + 1)).canvas.fb (o.1 + x) (o.2 + y) = pictures i x y
  own : ∀ (canvas : Canvas) (o : ℕ × ℕ) (pictures : ℕ → ℕ → ℕ → Pixel) (k : ℕ), k < n → ∀ px py, px < canvas.width →
    py < canvas.height →
      (before whole o pictures us canvas (k + 1)).canvas.fb px py ≠ (before whole o pictures us canvas k).canvas.fb px py →
        ∃ x y, px = o.1 + x ∧ py = o.2 + y ∧ Names whole (us k) x y ∧
          (before whole o pictures us canvas (k + 1)).canvas.fb px py = pictures k x y

/-- The next unit in time after a late one names every place that the late one named. -/
def Covered (whole : Rect16) (us : ℕ → AccessUnit) (n : ℕ) : Prop :=
  ∀ j k, j < k → k < n → ¬ InTime us j → InTime us k → (∀ i, j < i → i < k → ¬ InTime us i) →
    ∀ x y, Names whole (us j) x y → Names whole (us k) x y

theorem paint_picture (o : ℕ × ℕ) (pic : ℕ → ℕ → Pixel) (rects : List Rect16) (px py : ℕ) (v : Pixel) :
    paint (rects.map fun r => ⟨o.1 + r.left.toNat, o.2 + r.top.toNat, r.width, r.height, fun i j =>
        pic (r.left.toNat + i) (r.top.toNat + j)⟩) px py v = v ∧
      (∀ r ∈ rects, ¬ Within (o.1 + r.left.toNat) (o.2 + r.top.toNat) r.width r.height px py) ∨
    paint (rects.map fun r => ⟨o.1 + r.left.toNat, o.2 + r.top.toNat, r.width, r.height, fun i j =>
        pic (r.left.toNat + i) (r.top.toNat + j)⟩) px py v = pic (px - o.1) (py - o.2) ∧
      ∃ r ∈ rects, Within (o.1 + r.left.toNat) (o.2 + r.top.toNat) r.width r.height px py := by
  unfold paint
  rw [List.foldl_map]
  induction rects generalizing v with
  | nil => exact .inl ⟨rfl, fun r hr => absurd hr List.not_mem_nil⟩
  | cons r rects ih =>
    rw [List.foldl_cons]
    unfold Patch.over at ih ⊢
    by_cases hin : Within (o.1 + r.left.toNat) (o.2 + r.top.toNat) r.width r.height px py
    · have hplace := hin
      obtain ⟨h1, -, h3, -⟩ := hplace
      have hx : r.left.toNat + (px - (o.1 + r.left.toNat)) = px - o.1 := by omega
      have hy : r.top.toNat + (py - (o.2 + r.top.toNat)) = py - o.2 := by omega
      rw [if_pos hin]
      dsimp only
      rw [hx, hy]
      rcases ih (pic (px - o.1) (py - o.2)) with ⟨hkeep, -⟩ | ⟨hpaint, -⟩
      · exact .inr ⟨hkeep, r, List.mem_cons_self, hin⟩
      · exact .inr ⟨hpaint, r, List.mem_cons_self, hin⟩
    · rw [if_neg hin]
      rcases ih v with ⟨hkeep, hnone⟩ | ⟨hpaint, r', hr', hin'⟩
      · exact .inl ⟨hkeep, List.forall_mem_cons.2 ⟨hin, hnone⟩⟩
      · exact .inr ⟨hpaint, r', List.mem_cons_of_mem r hr', hin'⟩

section Run

variable {whole : Rect16} {o : ℕ × ℕ} {pictures : ℕ → ℕ → ℕ → Pixel} {us : ℕ → AccessUnit} {canvas : Canvas}

variable (whole o pictures us canvas) in
theorem before_counts (k : ℕ) : (before whole o pictures us canvas k).pts = k ∧
    (before whole o pictures us canvas k).given = givenBefore us k := by
  induction k with
  | zero => exact ⟨rfl, rfl⟩
  | succ k ih =>
    obtain ⟨hpts, hgiven⟩ := ih
    rw [before, avc420, givenBefore]
    dsimp only
    rw [hpts, hgiven]
    exact ⟨rfl, rfl⟩

theorem before_canvas (k : ℕ) : (before whole o pictures us canvas (k + 1)).canvas =
    if InTime us k then (before whole o pictures us canvas k).canvas.avc420 o.1 o.2 (pictures k) ((us k).named whole)
    else (before whole o pictures us canvas k).canvas := by
  obtain ⟨hpts, hgiven⟩ := before_counts whole o pictures us canvas k
  rw [before, avc420]
  dsimp only
  rw [hpts, hgiven]
  rfl

variable (whole o pictures us canvas) in
theorem before_size (k : ℕ) : (before whole o pictures us canvas k).canvas.width = canvas.width ∧
    (before whole o pictures us canvas k).canvas.height = canvas.height := by
  induction k with
  | zero => exact ⟨rfl, rfl⟩
  | succ k ih =>
    rw [before_canvas]
    split_ifs
    · have hsize := (canvas_avc420 o (before whole o pictures us canvas k).canvas (pictures k)
        ((us k).named whole)).1
      exact ⟨hsize.1.trans ih.1, hsize.2.trans ih.2⟩
    · exact ih

variable (whole pictures us) in
theorem before_succ (k : ℕ) {x y : ℕ} (hx : o.1 + x < canvas.width) (hy : o.2 + y < canvas.height) :
    (InTime us k ∧ Names whole (us k) x y ∧
        (before whole o pictures us canvas (k + 1)).canvas.fb (o.1 + x) (o.2 + y) = pictures k x y) ∨
      (¬ (InTime us k ∧ Names whole (us k) x y) ∧
        (before whole o pictures us canvas (k + 1)).canvas.fb (o.1 + x) (o.2 + y) =
          (before whole o pictures us canvas k).canvas.fb (o.1 + x) (o.2 + y)) := by
  obtain ⟨hw, hh⟩ := before_size whole o pictures us canvas k
  rw [before_canvas]
  by_cases hintime : InTime us k
  · rw [if_pos hintime, (canvas_avc420 _ _ _ _).2 _ _ (hx.trans_eq hw.symm) (hy.trans_eq hh.symm)]
    rcases paint_picture o (pictures k) ((us k).named whole) (o.1 + x) (o.2 + y)
      ((before whole o pictures us canvas k).canvas.fb (o.1 + x) (o.2 + y)) with ⟨hkeep, hnone⟩ | ⟨hpaint, r, hr, hin⟩
    · refine .inr ⟨?_, hkeep⟩
      rintro ⟨-, r, hr, hin⟩
      refine hnone r hr ?_
      obtain ⟨h1, h2, h3, h4⟩ := hin
      exact ⟨by omega, by omega, by omega, by omega⟩
    · refine .inl ⟨hintime, ⟨r, hr, ?_⟩, ?_⟩
      · obtain ⟨h1, h2, h3, h4⟩ := hin
        exact ⟨by omega, by omega, by omega, by omega⟩
      · rw [hpaint, Nat.add_sub_cancel_left, Nat.add_sub_cancel_left]
  · rw [if_neg hintime]
    exact .inr ⟨fun h => hintime h.1, rfl⟩

theorem shows_of_painted {j i k : ℕ} {x y : ℕ} (hx : o.1 + x < canvas.width) (hy : o.2 + y < canvas.height)
    (hji : j ≤ i) (hik : i ≤ k) (hintime : InTime us i) (hnames : Names whole (us i) x y) :
    ∃ i, j ≤ i ∧ i ≤ k ∧
      (before whole o pictures us canvas (k + 1)).canvas.fb (o.1 + x) (o.2 + y) = pictures i x y := by
  induction k with
  | zero =>
    obtain rfl := Nat.le_zero.mp hik
    rcases before_succ whole pictures us 0 hx hy with ⟨-, -, hpic⟩ | ⟨hnot, -⟩
    · exact ⟨0, hji, Nat.le_refl _, hpic⟩
    · exact absurd ⟨hintime, hnames⟩ hnot
  | succ k ih =>
    rcases before_succ whole pictures us (k + 1) hx hy with ⟨-, -, hpic⟩ | ⟨hnot, hkeep⟩
    · exact ⟨k + 1, hji.trans hik, Nat.le_refl _, hpic⟩
    · have hne : i ≠ k + 1 := by
        rintro rfl
        exact hnot ⟨hintime, hnames⟩
      obtain ⟨i', hji', hik', hpic⟩ := ih (by omega)
      exact ⟨i', hji', by omega, hkeep.trans hpic⟩

variable (whole pictures us) in
theorem painted_of_shows (k : ℕ) {x y : ℕ} (hx : o.1 + x < canvas.width) (hy : o.2 + y < canvas.height) :
    (before whole o pictures us canvas k).canvas.fb (o.1 + x) (o.2 + y) = canvas.fb (o.1 + x) (o.2 + y) ∨
      ∃ i < k, InTime us i ∧ Names whole (us i) x y ∧
        (before whole o pictures us canvas k).canvas.fb (o.1 + x) (o.2 + y) = pictures i x y := by
  induction k with
  | zero => exact .inl rfl
  | succ k ih =>
    rcases before_succ whole pictures us k hx hy with
      ⟨hintime, hnames, hpic⟩ | ⟨-, hkeep⟩
    · exact .inr ⟨k, Nat.lt_succ_self k, hintime, hnames, hpic⟩
    · rw [hkeep]
      rcases ih with hold | ⟨i, hi, hintime, hnames, hpic⟩
      · exact .inl hold
      · exact .inr ⟨i, Nat.lt_succ_of_lt hi, hintime, hnames, hpic⟩

theorem own_picture (k : ℕ) {px py : ℕ} (hpx : px < canvas.width) (hpy : py < canvas.height)
    (hne : (before whole o pictures us canvas (k + 1)).canvas.fb px py ≠
      (before whole o pictures us canvas k).canvas.fb px py) :
    ∃ x y, px = o.1 + x ∧ py = o.2 + y ∧ Names whole (us k) x y ∧
      (before whole o pictures us canvas (k + 1)).canvas.fb px py = pictures k x y := by
  obtain ⟨hw, hh⟩ := before_size whole o pictures us canvas k
  rw [before_canvas] at hne ⊢
  split_ifs at hne ⊢ with hintime
  · rw [(canvas_avc420 _ _ _ _).2 _ _ (hpx.trans_eq hw.symm) (hpy.trans_eq hh.symm)] at hne ⊢
    rcases paint_picture o (pictures k) ((us k).named whole) px py
      ((before whole o pictures us canvas k).canvas.fb px py) with ⟨hkeep, -⟩ | ⟨hpaint, r, hr, hin⟩
    · exact absurd hkeep hne
    · obtain ⟨h1, h2, h3, h4⟩ := hin
      refine ⟨px - o.1, py - o.2, by omega, by omega, ⟨r, hr, ?_⟩, hpaint⟩
      exact ⟨by omega, by omega, by omega, by omega⟩
  · exact absurd rfl hne

end Run

/-- No region is lost just where every late unit's places are named again by the next unit that is in time. -/
theorem losesNothing_iff (whole : Rect16) (us : ℕ → AccessUnit) (n : ℕ) :
    LosesNothing whole us n ↔ Covered whole us n := by
  constructor
  · intro h j k hjk hkn hlate hintime hfirst x y hnames
    -- Black before unit `j`, white from it on.
    let pictures : ℕ → ℕ → ℕ → Pixel := fun i _ _ => if i < j then .black else ⟨0xFF, 0xFF, 0xFF, 0xFF⟩
    let canvas := Canvas.new (x + 1) (y + 1)
    have hx : (0, 0).1 + x < canvas.width := by
      show 0 + x < x + 1
      omega
    have hy : (0, 0).2 + y < canvas.height := by
      show 0 + y < y + 1
      omega
    obtain ⟨i, hji, -, hwhite⟩ := h.shows canvas (0, 0) pictures k hkn hintime j (Nat.le_of_lt hjk) x y hnames hx hy
    have hpic : pictures i x y = ⟨0xFF, 0xFF, 0xFF, 0xFF⟩ := if_neg (by omega)
    rw [hpic] at hwhite
    rcases painted_of_shows whole pictures us (k + 1) hx hy with
      hold | ⟨i', hi', hintime', hnames', hpic'⟩
    · rw [hwhite] at hold
      have hblack : canvas.fb ((0, 0).1 + x) ((0, 0).2 + y) = .black := rfl
      rw [hblack] at hold
      exact absurd hold (by decide)
    · rw [hwhite] at hpic'
      have hge : j ≤ i' := by
        by_contra hlt
        have hblack : pictures i' x y = .black := if_pos (by omega)
        rw [hblack] at hpic'
        exact absurd hpic' (by decide)
      have hne : i' ≠ j := by
        rintro rfl
        exact hlate hintime'
      have hlast : i' = k := by
        by_contra hnot
        exact hfirst i' (by omega) (by omega) hintime'
      rwa [hlast] at hnames'
  · intro h
    constructor
    · intro canvas o pictures k hkn hintime j hjk x y hnames hx hy
      by_cases hj : InTime us j
      · exact shows_of_painted hx hy (Nat.le_refl j) hjk hj hnames
      · have hlt' : j < k := by
          refine Nat.lt_of_le_of_ne hjk ?_
          rintro rfl
          exact hj hintime
        have hlater : ∃ m, j < m ∧ InTime us m := ⟨k, hlt', hintime⟩
        obtain ⟨hlt, hm⟩ := Nat.find_spec hlater
        have hmk : Nat.find hlater ≤ k := Nat.find_min' hlater ⟨hlt', hintime⟩
        refine shows_of_painted hx hy (Nat.le_of_lt hlt) hmk hm ?_
        exact h j _ hlt (Nat.lt_of_le_of_lt hmk hkn) hj hm
          (fun i hji him hi => Nat.find_min hlater him ⟨hji, hi⟩) x y hnames
    · intro canvas o pictures k _ px py hpx hpy
      exact own_picture k hpx hpy

def twoUnits : ℕ → AccessUnit
  | 0 => ⟨[⟨0, 0, 1, 1⟩], 0⟩
  | _ => ⟨[⟨1, 0, 2, 1⟩], 2⟩

/-- What the late picture changed is not painted. -/
theorem late_region_lost : ¬ LosesNothing ⟨0, 0, 2, 1⟩ twoUnits 2 := by
  intro h
  obtain ⟨i, -, -, hshown⟩ := h.shows (.new 2 1) (0, 0) (fun _ _ _ => ⟨0xFF, 0xFF, 0xFF, 0xFF⟩)
    1 (by decide) (by decide) 0
    (by decide) 0 0 ⟨⟨0, 0, 1, 1⟩, by decide, by decide⟩ (by decide) (by decide)
  revert hshown
  decide

end Rdpio.Android.LatePicture
