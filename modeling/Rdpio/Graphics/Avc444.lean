import Rdpio.Graphics.Yuv
import Rdpio.Lib.Grid

/-!
# The chroma of an AVC444 pair

Where each sample of the combined planes comes from.
-/

namespace Rdpio.Graphics.Yuv

open Lib

variable {w h : ℕ}

theorem half_lt {a n : ℕ} (ha : a < n) : a / 2 < half n := by
  unfold half
  omega

structure PlanesShow (w h : ℕ) (p : Planes) (gu gv : ℕ → ℕ → Option UInt8) : Prop where
  u : Shows w h p.u gu
  v : Shows w h p.v gv

theorem PlanesShow.congr {p : Planes} {gu gv gu' gv' : ℕ → ℕ → Option UInt8} (hp : PlanesShow w h p gu gv)
    (hu : ∀ y < h, ∀ x < w, gu y x = gu' y x) (hv : ∀ y < h, ∀ x < w, gv y x = gv' y x) : PlanesShow w h p gu' gv' :=
  ⟨hp.u.congr hu, hp.v.congr hv⟩

theorem PlanesShow.set {p : Planes} {gu gv : ℕ → ℕ → Option UInt8} (hp : PlanesShow w h p gu gv) (yy xx : ℕ)
    (u v : UInt8) :
    ∃ p', p.set w h yy xx u v = some p' ∧ PlanesShow w h p'
      (fun y x => if y = yy ∧ x = xx then some u else gu y x) fun y x => if y = yy ∧ x = xx then some v else gv y x := by
  unfold Planes.set
  split_ifs with hin
  · obtain ⟨u', hu', hu⟩ := hp.u.put hin.1 hin.2 u
    obtain ⟨v', hv', hv⟩ := hp.v.put hin.1 hin.2 v
    rw [hu', hv']
    exact ⟨⟨u', v'⟩, rfl, hu, hv⟩
  · have hout : ∀ y < h, ∀ x < w, ¬ (y = yy ∧ x = xx) := by
      rintro y hy x hx ⟨rfl, rfl⟩
      exact hin ⟨hy, hx⟩
    exact ⟨p, rfl, hp.congr (fun y hy x hx => (if_neg (hout y hy x hx)).symm) fun y hy x hx =>
      (if_neg (hout y hy x hx)).symm⟩

theorem blocks_spec {block : ℕ → Planes → ℕ → Option Planes} {p : Planes} {gu gv fu fv : ℕ → ℕ → Option UInt8}
    (hp : PlanesShow w h p gu gv)
    (hblock : ∀ cy < half h, ∀ cx < half w, ∀ p eu ev, PlanesShow w h p eu ev →
      (∀ y x, y / 2 = cy → x / 2 = cx → eu y x = gu y x ∧ ev y x = gv y x) → ∃ p', block cy p cx = some p' ∧
        PlanesShow w h p' (fun y x => if y / 2 = cy ∧ x / 2 = cx then fu y x else eu y x)
          fun y x => if y / 2 = cy ∧ x / 2 = cx then fv y x else ev y x) :
    ∃ p', blocks block w h p = some p' ∧ PlanesShow w h p' fu fv := by
  obtain ⟨p', hp', hshow⟩ := foldlM_range_rule (n := half h)
    (fun cy p => PlanesShow w h p (fun y x => if y / 2 < cy then fu y x else gu y x)
      fun y x => if y / 2 < cy then fv y x else gv y x)
    (g := fun p cy => (List.range (half w)).foldlM (block cy) p) (s := p) hp (by
      intro cy p hcy hp
      obtain ⟨p', hp', hshow⟩ := foldlM_range_rule (n := half w)
        (fun cx p => PlanesShow w h p
          (fun y x => if y / 2 < cy ∨ y / 2 = cy ∧ x / 2 < cx then fu y x else gu y x)
          fun y x => if y / 2 < cy ∨ y / 2 = cy ∧ x / 2 < cx then fv y x else gv y x)
        (g := block cy) (s := p)
        (hp.congr (fun y _ x _ => if_congr (by omega) rfl rfl) fun y _ x _ => if_congr (by omega) rfl rfl) (by
          intro cx p hcx hp
          obtain ⟨p', hp', hshow⟩ := hblock cy hcy cx hcx p _ _ hp fun y x hy hx =>
            ⟨if_neg (by omega), if_neg (by omega)⟩
          refine ⟨p', hp', hshow.congr (fun y _ x _ => ?_) fun y _ x _ => ?_⟩
          · split_ifs <;> first | rfl | omega
          · split_ifs <;> first | rfl | omega)
      refine ⟨p', hp', hshow.congr (fun y _ x hx => if_congr ?_ rfl rfl) fun y _ x hx => if_congr ?_ rfl rfl⟩
      · have := half_lt hx
        omega
      · have := half_lt hx
        omega)
  exact ⟨p', hp', hshow.congr (fun y hy x _ => if_pos (half_lt hy)) fun y hy x _ => if_pos (half_lt hy)⟩

/-! ## The passes -/

section

variable {main_u main_v aux_y aux_u aux_v : List UInt8}

def blockSample (plane : List UInt8) (w y x : ℕ) : Option UInt8 := plane[y / 2 * half w + x / 2]?

theorem exists_blockSample {plane : List UInt8} (hlen : half w * half h ≤ plane.length) {cy cx : ℕ} (hcy : cy < half h)
    (hcx : cx < half w) : ∃ c, plane[cy * half w + cx]? = some c := by
  have hin : cy * half w + cx < half w * half h := by
    rw [Nat.mul_comm (half w)]
    exact add_lt_of_row hcy hcx
  exact ⟨_, List.getElem?_eq_getElem (Nat.lt_of_lt_of_le hin hlen)⟩

theorem baseBlock_spec (hu : half w * half h ≤ main_u.length) (hv : half w * half h ≤ main_v.length) {cy cx : ℕ}
    (hcy : cy < half h) (hcx : cx < half w) {p : Planes} {gu gv : ℕ → ℕ → Option UInt8} (hp : PlanesShow w h p gu gv) :
    ∃ p', baseBlock main_u main_v w h cy p cx = some p' ∧
      PlanesShow w h p' (fun y x => if y / 2 = cy ∧ x / 2 = cx then blockSample main_u w y x else gu y x)
        fun y x => if y / 2 = cy ∧ x / 2 = cx then blockSample main_v w y x else gv y x := by
  obtain ⟨um, hum⟩ := exists_blockSample hu hcy hcx
  obtain ⟨vm, hvm⟩ := exists_blockSample hv hcy hcx
  obtain ⟨p₁, hp₁, h₁⟩ := hp.set (2 * cy + 0) (2 * cx + 0) um vm
  obtain ⟨p₂, hp₂, h₂⟩ := h₁.set (2 * cy + 0) (2 * cx + 1) um vm
  obtain ⟨p₃, hp₃, h₃⟩ := h₂.set (2 * cy + 1) (2 * cx + 0) um vm
  obtain ⟨p₄, hp₄, h₄⟩ := h₃.set (2 * cy + 1) (2 * cx + 1) um vm
  refine ⟨p₄, ?_, h₄.congr (fun y _ x _ => ?_) fun y _ x _ => ?_⟩
  · unfold baseBlock
    simp only [hum, hvm, Option.bind_eq_bind, Option.bind_some, List.foldlM_cons, List.foldlM_nil, hp₁, hp₂, hp₃, hp₄]
    rfl
  · by_cases hin : y / 2 = cy ∧ x / 2 = cx
    · rw [if_pos hin, blockSample, hin.1, hin.2, hum]
      split_ifs <;> first | rfl | omega
    · rw [if_neg hin]
      split_ifs <;> first | rfl | omega
  · by_cases hin : y / 2 = cy ∧ x / 2 = cx
    · rw [if_pos hin, blockSample, hin.1, hin.2, hvm]
      split_ifs <;> first | rfl | omega
    · rw [if_neg hin]
      split_ifs <;> first | rfl | omega

theorem auxBlock_spec (hu : half w * half h ≤ aux_u.length) (hv : half w * half h ≤ aux_v.length) {cy cx : ℕ}
    (hcy : cy < half h) (hcx : cx < half w) {p : Planes} {eu ev : ℕ → ℕ → Option UInt8} (hp : PlanesShow w h p eu ev) :
    ∃ p', auxBlock aux_u aux_v w h cy p cx = some p' ∧ PlanesShow w h p'
        (fun y x => if (y / 2 = cy ∧ x / 2 = cx) ∧ y % 2 = 0 ∧ x % 2 = 1 then blockSample aux_u w y x else eu y x)
        fun y x => if (y / 2 = cy ∧ x / 2 = cx) ∧ y % 2 = 0 ∧ x % 2 = 1 then blockSample aux_v w y x else ev y x := by
  obtain ⟨ua, hua⟩ := exists_blockSample hu hcy hcx
  obtain ⟨va, hva⟩ := exists_blockSample hv hcy hcx
  unfold auxBlock
  by_cases hin : 2 * cy < h ∧ 2 * cx + 1 < w
  · obtain ⟨p', hp', hshow⟩ := hp.set (2 * cy) (2 * cx + 1) ua va
    refine ⟨p', ?_, hshow.congr (fun y _ x _ => ?_) fun y _ x _ => ?_⟩
    · rw [if_pos hin]
      simp only [hua, hva, Option.bind_eq_bind, Option.bind_some, hp']
    · by_cases hplace : y = 2 * cy ∧ x = 2 * cx + 1
      · rw [if_pos hplace, if_pos (by omega), blockSample, show y / 2 = cy by omega, show x / 2 = cx by omega, hua]
      · rw [if_neg hplace, if_neg (by omega)]
    · by_cases hplace : y = 2 * cy ∧ x = 2 * cx + 1
      · rw [if_pos hplace, if_pos (by omega), blockSample, show y / 2 = cy by omega, show x / 2 = cx by omega, hva]
      · rw [if_neg hplace, if_neg (by omega)]
  · rw [if_neg hin]
    exact ⟨p, rfl, hp.congr (fun y hy x hx => (if_neg (by omega)).symm) fun y hy x hx => (if_neg (by omega)).symm⟩

def uRow (k : ℕ) : ℕ := 16 * (k / 8) + k % 8

def vRow (k : ℕ) : ℕ := 16 * (k / 8) + 8 + k % 8

def banded (aux_y : List UInt8) (w sy : ℕ) (row : ℕ → ℕ) (f : ℕ → ℕ → Option UInt8) (y x : ℕ) : Option UInt8 :=
  if y % 2 = 1 ∧ row ((y - 1) / 2) < sy then aux_y[row ((y - 1) / 2) * w + x]? else f y x

/-- The planes after `sy` rows of auxiliary luma, and how many went to each. -/
structure Bands.After (aux_y : List UInt8) (w h : ℕ) (fu fv : ℕ → ℕ → Option UInt8) (sy : ℕ) (b : Bands) : Prop where
  planes : PlanesShow w h b.planes (banded aux_y w sy uRow fu) (banded aux_y w sy vRow fv)
  uy : b.uy = 8 * (sy / 16) + min (sy % 16) 8
  vy : b.vy = 8 * (sy / 16) + (sy % 16 - 8)

theorem banded_of_ne {row : ℕ → ℕ} {f : ℕ → ℕ → Option UInt8} {sy y x : ℕ}
    (hne : y % 2 = 1 → row ((y - 1) / 2) ≠ sy) : banded aux_y w (sy + 1) row f y x = banded aux_y w sy row f y x := by
  unfold banded
  refine if_congr ⟨fun h => ⟨h.1, ?_⟩, fun h => ⟨h.1, Nat.lt_succ_of_lt h.2⟩⟩ rfl rfl
  have := hne h.1
  omega

theorem banded_of_eq {row : ℕ → ℕ} {f : ℕ → ℕ → Option UInt8} {sy y x : ℕ} (hy : y % 2 = 1)
    (hrow : row ((y - 1) / 2) = sy) : banded aux_y w (sy + 1) row f y x = aux_y[sy * w + x]? := by
  unfold banded
  rw [hrow, if_pos ⟨hy, Nat.lt_succ_self sy⟩]

theorem bandRow_spec {aux_h : ℕ} (hlen : w * aux_h ≤ aux_y.length) {fu fv : ℕ → ℕ → Option UInt8} {sy : ℕ} {b : Bands}
    (hsy : sy < aux_h) (hb : b.After aux_y w h fu fv sy) :
    ∃ b', bandRow aux_y w h b sy = some b' ∧ b'.After aux_y w h fu fv (sy + 1) := by
  have huy := hb.uy
  have hvy := hb.vy
  have hin : sy * w + w ≤ aux_y.length :=
    calc sy * w + w = (sy + 1) * w := (Nat.succ_mul sy w).symm
      _ ≤ aux_h * w := Nat.mul_le_mul_right w hsy
      _ = w * aux_h := Nat.mul_comm aux_h w
      _ ≤ aux_y.length := hlen
  have hslice : Lib.slice aux_y (sy * w) (sy * w + w) = some ((aux_y.drop (sy * w)).take w) := by
    rw [Lib.slice, if_pos ⟨Nat.le_add_right .., hin⟩, Nat.add_sub_cancel_left]
  have hsrc : ((aux_y.drop (sy * w)).take w).length = w := by
    rw [List.length_take, List.length_drop]
    omega
  have hat : ∀ x < w, ((aux_y.drop (sy * w)).take w)[x]? = aux_y[sy * w + x]? := fun x hx => by
    rw [List.getElem?_take, if_pos hx, List.getElem?_drop]
  unfold bandRow
  by_cases hband : sy % 16 < 8
  · -- A row of U: `uRow` of the rows of U met so far is this row.
    have hrow : uRow b.uy = sy := by
      unfold uRow
      omega
    have hother : ∀ k, vRow k ≠ sy := fun k => by
      unfold vRow
      omega
    have hinj : ∀ k, uRow k = sy → k = b.uy := fun k hk => by
      unfold uRow at hk
      omega
    rw [if_pos hband]
    dsimp only
    split_ifs with hpos
    · refine ⟨_, rfl, hb.planes.congr (fun y hy x _ => (banded_of_ne fun hodd hk => ?_).symm) fun y _ x _ =>
        (banded_of_ne fun _ => hother _).symm, ?_, ?_⟩
      · have := hinj _ hk
        omega
      · dsimp only
        omega
      · dsimp only
        omega
    · obtain ⟨u, hu, hshow⟩ := hb.planes.u.putRow (y := 2 * b.uy + 1) (by omega) hsrc
      refine ⟨⟨⟨u, b.planes.v⟩, b.uy + 1, b.vy⟩, by
          simp only [hslice, hu, Option.bind_eq_bind, Option.bind_some]
          rfl,
        ⟨hshow.congr fun y hy x hx => ?_, hb.planes.v.congr fun y _ x _ => (banded_of_ne fun _ => hother _).symm⟩, ?_, ?_⟩
      · by_cases hy' : y = 2 * b.uy + 1
        · rw [if_pos hy', hat x hx, banded_of_eq (by omega) (by rw [show (y - 1) / 2 = b.uy by omega, hrow])]
        · rw [if_neg hy', banded_of_ne fun hodd hk => ?_]
          have := hinj _ hk
          omega
      · dsimp only
        omega
      · dsimp only
        omega
  · have hrow : vRow b.vy = sy := by
      unfold vRow
      omega
    have hother : ∀ k, uRow k ≠ sy := fun k => by
      unfold uRow
      omega
    have hinj : ∀ k, vRow k = sy → k = b.vy := fun k hk => by
      unfold vRow at hk
      omega
    rw [if_neg hband]
    dsimp only
    split_ifs with hpos
    · refine ⟨_, rfl, hb.planes.congr (fun y _ x _ => (banded_of_ne fun _ => hother _).symm) fun y hy x _ =>
        (banded_of_ne fun hodd hk => ?_).symm, ?_, ?_⟩
      · have := hinj _ hk
        omega
      · dsimp only
        omega
      · dsimp only
        omega
    · obtain ⟨v, hv, hshow⟩ := hb.planes.v.putRow (y := 2 * b.vy + 1) (by omega) hsrc
      refine ⟨⟨⟨b.planes.u, v⟩, b.uy, b.vy + 1⟩, by
          simp only [hslice, hv, Option.bind_eq_bind, Option.bind_some]
          rfl,
        ⟨hb.planes.u.congr fun y _ x _ => (banded_of_ne fun _ => hother _).symm, hshow.congr fun y hy x hx => ?_⟩, ?_, ?_⟩
      · by_cases hy' : y = 2 * b.vy + 1
        · rw [if_pos hy', hat x hx, banded_of_eq (by omega) (by rw [show (y - 1) / 2 = b.vy by omega, hrow])]
        · rw [if_neg hy', banded_of_ne fun hodd hk => ?_]
          have := hinj _ hk
          omega
      · dsimp only
        omega
      · dsimp only
        omega

def combined (main aux aux_y : List UInt8) (w aux_h : ℕ) (row : ℕ → ℕ) (y x : ℕ) : Option UInt8 :=
  if y % 2 = 0 then if x % 2 = 0 then main[y / 2 * half w + x / 2]? else aux[y / 2 * half w + x / 2]?
  else if row ((y - 1) / 2) < aux_h then aux_y[row ((y - 1) / 2) * w + x]?
  else main[y / 2 * half w + x / 2]?

theorem banded_passes (main aux aux_y : List UInt8) (w aux_h : ℕ) (row : ℕ → ℕ) (y x : ℕ) : banded aux_y w aux_h row
        (fun y x => if y % 2 = 0 ∧ x % 2 = 1 then blockSample aux w y x else blockSample main w y x) y x =
      combined main aux aux_y w aux_h row y x := by
  unfold banded combined blockSample
  dsimp only
  rcases Nat.mod_two_eq_zero_or_one y with hy | hy
  · rw [if_neg (by omega), if_pos hy]
    rcases Nat.mod_two_eq_zero_or_one x with hx | hx
    · rw [if_neg (by omega), if_pos hx]
    · rw [if_pos ⟨hy, hx⟩, if_neg (by omega)]
  · rw [if_neg (show ¬ y % 2 = 0 by omega)]
    by_cases hrow : row ((y - 1) / 2) < aux_h
    · rw [if_pos ⟨hy, hrow⟩, if_pos hrow]
    · rw [if_neg fun h => hrow h.2, if_neg hrow, if_neg (by omega)]

end

/-- Planes of the sizes that are asked for are combined without an index out of range, and each sample of the result is
the one of the main or the auxiliary view that belongs there; others are refused. -/
theorem combineAvc444_spec (main_u main_v aux_y aux_u aux_v : List UInt8) (w h aux_h : ℕ) :
    (¬ Sized main_u main_v aux_y aux_u aux_v w h aux_h →
        combineAvc444ToYuv444 main_u main_v aux_y aux_u aux_v w h aux_h = some none) ∧
      (Sized main_u main_v aux_y aux_u aux_v w h aux_h →
        ∃ p, combineAvc444ToYuv444 main_u main_v aux_y aux_u aux_v w h aux_h = some (some p) ∧
          p.u.length = w * h ∧ p.v.length = w * h ∧ ∀ y < h, ∀ x < w,
            p.u[y * w + x]? = combined main_u aux_u aux_y w aux_h uRow y x ∧
            p.v[y * w + x]? = combined main_v aux_v aux_y w aux_h vRow y x) := by
  refine ⟨fun hnot => if_pos hnot, fun hsized => ?_⟩
  obtain ⟨-, hmain_u, hmain_v, haux_u, haux_v, haux_y⟩ := id hsized
  obtain ⟨p₁, hp₁, h₁⟩ := @blocks_spec w h (baseBlock main_u main_v w h)
    ⟨List.replicate (w * h) 0, List.replicate (w * h) 0⟩ _ _ (blockSample main_u w) (blockSample main_v w)
    ⟨Shows.replicate w h 0, Shows.replicate w h 0⟩
    fun cy hcy cx hcx p eu ev hp _ => baseBlock_spec hmain_u hmain_v hcy hcx hp
  obtain ⟨p₂, hp₂, h₂⟩ := @blocks_spec w h (auxBlock aux_u aux_v w h) p₁ _ _
    (fun y x => if y % 2 = 0 ∧ x % 2 = 1 then blockSample aux_u w y x else blockSample main_u w y x)
    (fun y x => if y % 2 = 0 ∧ x % 2 = 1 then blockSample aux_v w y x else blockSample main_v w y x) h₁ (by
      intro cy hcy cx hcx p eu ev hp hsame
      obtain ⟨p', hp', hshow⟩ := auxBlock_spec haux_u haux_v hcy hcx hp
      refine ⟨p', hp', hshow.congr (fun y _ x _ => ?_) fun y _ x _ => ?_⟩
      · by_cases hin : y / 2 = cy ∧ x / 2 = cx
        · simp only [hin, true_and, and_self, if_true, (hsame y x hin.1 hin.2).1]
        · rw [if_neg hin, if_neg fun h => hin h.1]
      · by_cases hin : y / 2 = cy ∧ x / 2 = cx
        · simp only [hin, true_and, and_self, if_true, (hsame y x hin.1 hin.2).2]
        · rw [if_neg hin, if_neg fun h => hin h.1])
  obtain ⟨b, hb, h₃⟩ := foldlM_range_rule (n := aux_h)
    (fun sy (b : Bands) => b.After aux_y w h
      (fun y x => if y % 2 = 0 ∧ x % 2 = 1 then blockSample aux_u w y x else blockSample main_u w y x)
      (fun y x => if y % 2 = 0 ∧ x % 2 = 1 then blockSample aux_v w y x else blockSample main_v w y x) sy)
    (g := bandRow aux_y w h) (s := ⟨p₂, 0, 0⟩)
    ⟨h₂.congr (fun y _ x _ => (if_neg fun h => Nat.not_lt_zero _ h.2).symm) fun y _ x _ =>
      (if_neg fun h => Nat.not_lt_zero _ h.2).symm, rfl, rfl⟩
    fun sy b hsy hb => bandRow_spec haux_y hsy hb
  refine ⟨b.planes, ?_, h₃.planes.u.whole, h₃.planes.v.whole, fun y hy x hx => ⟨?_, ?_⟩⟩
  · unfold combineAvc444ToYuv444
    rw [if_neg (not_not_intro hsized)]
    simp only [hp₁, hp₂, hb, Option.bind_eq_bind, Option.bind_some]
    rfl
  · rw [h₃.planes.u.places y hy x hx]
    exact banded_passes ..
  · rw [h₃.planes.v.places y hy x hx]
    exact banded_passes ..

end Rdpio.Graphics.Yuv
