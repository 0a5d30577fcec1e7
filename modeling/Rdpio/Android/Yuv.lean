import Mathlib.Tactic.Ring
import Rdpio.Lib.Checked

/-!
# YUV to RGBA on Android

`android/rust/src/rdp/yuv.rs`: the plain conversion of a picture's rectangle, a pixel at a time, and the fast
one, which goes through a row as an odd first pixel, blocks of 16, pairs, and a last single pixel.
-/

namespace Rdpio.Android.Yuv

open Lib (slice)

/-- A decoded picture's planes. -/
structure Planes where
  width : ℕ
  height : ℕ
  y : List UInt8
  y_stride : ℕ
  /-- NV12: interleaved U,V (one plane); I420: U then V planes. -/
  u : List UInt8
  v : List UInt8
  uv_stride : ℕ
  interleaved : Bool

def half (a : ℕ) : ℕ := (a + 1) / 2

def sat (v : ℤ) : UInt8 := UInt8.ofNat (max 0 (min v 255)).toNat

def rgb (y u v : ℤ) : List UInt8 :=
  let c := 298 * (y - 16)
  let d := u - 128
  let e := v - 128
  [sat ((c + 459 * e + 128) / 256), sat ((c - 55 * d - 136 * e + 128) / 256), sat ((c + 541 * d + 128) / 256), 0xFF]

def eachRow (dst_stride w : ℕ) (convert : ℕ → List UInt8 → Option (List UInt8)) : ℕ → ℕ → List UInt8 → List UInt8
  | _, 0, dst => dst
  | row, n + 1, dst =>
    match (slice dst (row * dst_stride) (row * dst_stride + w * 4)).bind (convert row) with
    | none => dst
    | some out =>
      eachRow dst_stride w convert (row + 1) n
        (dst.take (row * dst_stride) ++ out ++ dst.drop (row * dst_stride + w * 4))

def plainPixels (x : ℕ) (chroma : ℕ → UInt8 × UInt8) : ℕ → List UInt8 → List UInt8 → List UInt8
  | i, yy :: yr, _ :: _ :: _ :: _ :: out =>
    rgb yy.toNat (chroma ((x + i) / 2)).1.toNat (chroma ((x + i) / 2)).2.toNat ++ plainPixels x chroma (i + 1) yr out
  | _, _, out => out

def plainRow (pic : Planes) (x py w : ℕ) (out : List UInt8) : Option (List UInt8) := do
  let yr ← slice pic.y (py * pic.y_stride + x) (py * pic.y_stride + x + w)
  let crow := py / 2 * pic.uv_stride
  if pic.interleaved then do
    let uv ← slice pic.u crow (crow + half (x + w) * 2)
    return plainPixels x (fun cx => (uv.getD (cx * 2) 0, uv.getD (cx * 2 + 1) 0)) 0 yr out
  else do
    let ur ← slice pic.u crow (crow + half (x + w))
    let vr ← slice pic.v crow (crow + half (x + w))
    return plainPixels x (fun cx => (ur.getD cx 0, vr.getD cx 0)) 0 yr out

def convertPlain (pic : Planes) (x y w h : ℕ) (dst : List UInt8) (dst_stride : ℕ) : List UInt8 :=
  let w := min w (pic.width - x)
  let h := min h (pic.height - y)
  eachRow dst_stride w (fun row => plainRow pic x (y + row) w) 0 h dst

def terms (c : UInt8 × UInt8) : ℤ × ℤ × ℤ :=
  let d := (c.1.toNat : ℤ) - 128
  let e := (c.2.toNat : ℤ) - 128
  (459 * e, -55 * d - 136 * e, 541 * d)

def luma (y : UInt8) : ℤ := 298 * ((y.toNat : ℤ) - 16) + 128

def pixel (y : UInt8) (t : ℤ × ℤ × ℤ) : List UInt8 :=
  [sat ((luma y + t.1) / 256), sat ((luma y + t.2.1) / 256), sat ((luma y + t.2.2) / 256), 0xFF]

def block16 (y16 : List UInt8) (uv : ℕ → UInt8 × UInt8) : List UInt8 :=
  (List.range 16).flatMap fun i =>
    let c := 298 * ((y16.getD i 0).toNat : ℤ) - 298 * 16 + 128
    let d := ((uv i).1.toNat : ℤ) - 128
    let e := ((uv i).2.toNat : ℤ) - 128
    [sat ((c + 459 * e) / 256), sat ((c - 55 * d - 136 * e) / 256), sat ((c + 541 * d) / 256), 0xFF]

def blocks {γ : Type} (k : ℕ) (uv : List γ → ℕ → UInt8 × UInt8) : ℕ → List UInt8 → List UInt8 → List γ → List UInt8
  | 0, out, _, _ => out
  | m + 1, out, yr, c => block16 (yr.take 16) (uv (c.take k)) ++ blocks k uv m (out.drop 64) (yr.drop 16) (c.drop k)

def pairs : ℕ → List UInt8 → List UInt8 → List (UInt8 × UInt8) → List UInt8
  | 0, out, _, _ => out
  | m + 1, out, yr, chroma =>
    pixel (yr.getD 0 0) (terms (chroma.getD 0 (0, 0))) ++ pixel (yr.getD 1 0) (terms (chroma.getD 0 (0, 0))) ++
      pairs m (out.drop 8) (yr.drop 2) (chroma.drop 1)

def rowPairs (out yr : List UInt8) (chroma : List (UInt8 × UInt8)) : List UInt8 :=
  let m := min (min (out.length / 8) (yr.length / 2)) chroma.length
  let out := pairs m out yr chroma
  -- An odd end: one pixel left of its pair.
  if yr.length % 2 = 1 ∧ 4 ≤ out.length % 8 then
    match chroma[m]? with
    | some c =>
      let at_ := out.length - out.length % 8
      out.take at_ ++ pixel (yr.getD (yr.length - 1) 0) (terms c) ++ out.drop (at_ + 4)
    | none => out
  else out

def pairsOf : List UInt8 → List (UInt8 × UInt8)
  | u :: v :: uv => (u, v) :: pairsOf uv
  | _ => []

def rowOf {γ : Type} (k : ℕ) (uv : List γ → ℕ → UInt8 × UInt8) (chroma : List γ → List (UInt8 × UInt8))
    (out yr : List UInt8) (c : List γ) : List UInt8 :=
  let n := yr.length / 16
  let out := blocks k uv (min (min (out.length / 64) n) (c.length / k)) out yr c
  out.take (n * 64) ++ rowPairs (out.drop (n * 64)) (yr.drop (n * 16)) (chroma (c.drop (min (n * k) c.length)))

def fromOdd {γ : Type} (odd : Bool) (step : ℕ) (first : List γ → UInt8 × UInt8)
    (row : List UInt8 → List UInt8 → List γ → List UInt8) (out yr : List UInt8) (c : List γ) : List UInt8 :=
  if odd then pixel (yr.getD 0 0) (terms (first c)) ++ row (out.drop 4) (yr.drop 1) (c.drop step) else row out yr c

def fastRow (pic : Planes) (x py w : ℕ) (out : List UInt8) : Option (List UInt8) := do
  let yr ← slice pic.y (py * pic.y_stride + x) (py * pic.y_stride + x + w)
  let crow := py / 2 * pic.uv_stride
  let c0 := x / 2
  let c1 := half (x + w)
  let odd := x % 2 = 1
  if pic.interleaved then do
    let uv ← slice pic.u (crow + c0 * 2) (crow + c1 * 2)
    return fromOdd odd 2 (fun uv => (uv.getD 0 0, uv.getD 1 0))
      (rowOf 16 (fun uv16 i => (uv16.getD (i / 2 * 2) 0, uv16.getD (i / 2 * 2 + 1) 0)) pairsOf) out yr uv
  else do
    let ur ← slice pic.u (crow + c0) (crow + c1)
    let vr ← slice pic.v (crow + c0) (crow + c1)
    -- The two planes go side by side.
    return fromOdd odd 1 (fun uv => uv.getD 0 (0, 0)) (rowOf 8 (fun uv8 i => uv8.getD (i / 2) (0, 0)) id) out yr
      (ur.zip vr)

def convertFast (pic : Planes) (x y w h : ℕ) (dst : List UInt8) (dst_stride : ℕ) : List UInt8 :=
  let w := min w (pic.width - x)
  let h := min h (pic.height - y)
  if w = 0 then dst
  else eachRow dst_stride w (fun row => fastRow pic x (y + row) w) 0 h dst

/-! ## The fast conversion is the plain one -/

/-- A row's pixels, each two with one chroma sample. -/
def pixels : List UInt8 → List (UInt8 × UInt8) → List UInt8
  | y0 :: y1 :: ys, c :: cs => pixel y0 (terms c) ++ pixel y1 (terms c) ++ pixels ys cs
  | [y], c :: _ => pixel y (terms c)
  | _, _ => []

theorem pixels_nil (cs : List (UInt8 × UInt8)) : pixels [] cs = [] := by cases cs <;> rfl

theorem length_pixel (y : UInt8) (t : ℤ × ℤ × ℤ) : (pixel y t).length = 4 := rfl

theorem rgb_eq_pixel (y : UInt8) (c : UInt8 × UInt8) : rgb y.toNat c.1.toNat c.2.toNat = pixel y (terms c) := by
  unfold rgb pixel terms luma
  dsimp only
  generalize (y.toNat : ℤ) = a, (c.1.toNat : ℤ) = u, (c.2.toNat : ℤ) = v
  have hr : 298 * (a - 16) + 459 * (v - 128) + 128 = 298 * (a - 16) + 128 + 459 * (v - 128) := by ring
  have hg : 298 * (a - 16) - 55 * (u - 128) - 136 * (v - 128) + 128 =
      298 * (a - 16) + 128 + (-55 * (u - 128) - 136 * (v - 128)) := by ring
  have hb : 298 * (a - 16) + 541 * (u - 128) + 128 = 298 * (a - 16) + 128 + 541 * (u - 128) := by ring
  rw [hr, hg, hb]

theorem length_pixels {ys : List UInt8} {cs : List (UInt8 × UInt8)} (h : ys.length ≤ 2 * cs.length) :
    (pixels ys cs).length = 4 * ys.length := by
  induction ys, cs using pixels.induct with
  | case1 y0 y1 ys c cs ih =>
    rw [List.length_cons, List.length_cons, List.length_cons] at h
    rw [pixels, List.length_append, List.length_append, length_pixel, length_pixel, ih (by omega), List.length_cons,
      List.length_cons]
    omega
  | case2 y c cs => rfl
  | case3 ys cs hmany hone =>
    cases ys with
    | nil => rw [pixels_nil]; rfl
    | cons y ys =>
      cases cs with
      | nil => exact absurd h (by simp)
      | cons c cs =>
        cases ys with
        | nil => exact absurd rfl (hone y c cs rfl)
        | cons y1 ys => exact absurd rfl (hmany y y1 ys c cs rfl)

theorem pixels_append {ys₁ ys₂ : List UInt8} {cs₁ cs₂ : List (UInt8 × UInt8)} (h : ys₁.length = 2 * cs₁.length) :
    pixels (ys₁ ++ ys₂) (cs₁ ++ cs₂) = pixels ys₁ cs₁ ++ pixels ys₂ cs₂ := by
  induction cs₁ generalizing ys₁ with
  | nil =>
    obtain rfl := List.length_eq_zero_iff.mp h
    rfl
  | cons c cs₁ ih =>
    rw [List.length_cons] at h
    obtain ⟨y0, ys₁, rfl⟩ := List.exists_cons_of_length_pos (show 0 < ys₁.length by omega)
    rw [List.length_cons] at h
    obtain ⟨y1, ys₁, rfl⟩ := List.exists_cons_of_length_pos (show 0 < ys₁.length by omega)
    rw [List.length_cons] at h
    rw [List.cons_append, List.cons_append, List.cons_append, pixels, pixels, ih (by omega)]
    simp only [List.append_assoc]

theorem pixels_split (ys : List UInt8) (cs : List (UInt8 × UInt8)) {m : ℕ} (hys : 2 * m ≤ ys.length)
    (hcs : m ≤ cs.length) : pixels ys cs = pixels (ys.take (2 * m)) (cs.take m) ++ pixels (ys.drop (2 * m)) (cs.drop m) := by
  rw [← pixels_append, List.take_append_drop, List.take_append_drop]
  rw [List.length_take_of_le hys, List.length_take_of_le hcs]

theorem plainPixels_eq {x i : ℕ} {g : ℕ → UInt8 × UInt8} {ys out : List UInt8} {cs : List (UInt8 × UInt8)}
    (heven : (x + i) % 2 = 0) (hout : out.length = 4 * ys.length)
    (hcs : ∀ j, 2 * j < ys.length → cs[j]? = some (g ((x + i) / 2 + j))) :
    plainPixels x g i ys out = pixels ys cs := by
  induction ys, cs using pixels.induct generalizing i out with
  | case1 y0 y1 ys c cs ih =>
    have hc : c = g ((x + i) / 2) := by simpa using hcs 0 (by simp)
    have hodd : (x + (i + 1)) / 2 = (x + i) / 2 := by omega
    have hnext : (x + (i + 1 + 1)) / 2 = (x + i) / 2 + 1 := by omega
    match out, hout with
    | _ :: _ :: _ :: _ :: _ :: _ :: _ :: _ :: out, hout =>
      rw [plainPixels, plainPixels, rgb_eq_pixel, rgb_eq_pixel, pixels, hodd, ← hc, List.append_assoc]
      congr 2
      refine ih (by omega) (by simp only [List.length_cons] at hout; omega) fun j hj => ?_
      have hj' := hcs (j + 1) (by rw [List.length_cons, List.length_cons]; omega)
      rw [hnext, Nat.add_assoc, Nat.add_comm 1 j, ← hj', List.getElem?_cons_succ]
  | case2 y c cs =>
    have hc : c = g ((x + i) / 2) := by simpa using hcs 0 (by simp)
    match out, hout with
    | [_, _, _, _], _ =>
      rw [plainPixels, rgb_eq_pixel, pixels, ← hc]
      exact List.append_nil _
  | case3 ys cs hmany hone =>
    cases ys with
    | nil =>
      obtain rfl := List.length_eq_zero_iff.mp hout
      rw [pixels_nil]
      rfl
    | cons y ys =>
      have hfirst := hcs 0 (by simp)
      cases cs with
      | nil => cases hfirst
      | cons c cs =>
        cases ys with
        | nil => exact absurd rfl (hone y c cs rfl)
        | cons y1 ys => exact absurd rfl (hmany y y1 ys c cs rfl)

theorem pairs_eq {m : ℕ} {out ys : List UInt8} {cs : List (UInt8 × UInt8)} (hys : 2 * m ≤ ys.length)
    (hcs : m ≤ cs.length) : pairs m out ys cs = pixels (ys.take (2 * m)) (cs.take m) ++ out.drop (8 * m) := by
  induction m generalizing out ys cs with
  | zero => rfl
  | succ m ih =>
    obtain ⟨y0, ys, rfl⟩ := List.exists_cons_of_length_pos (show 0 < ys.length by omega)
    rw [List.length_cons] at hys
    obtain ⟨y1, ys, rfl⟩ := List.exists_cons_of_length_pos (show 0 < ys.length by omega)
    rw [List.length_cons] at hys
    obtain ⟨c, cs, rfl⟩ := List.exists_cons_of_length_pos (show 0 < cs.length by omega)
    rw [List.length_cons] at hcs
    have hrest := @ih (out.drop 8) ys cs (by omega) (by omega)
    have htake : (y0 :: y1 :: ys).take (2 * (m + 1)) = y0 :: y1 :: ys.take (2 * m) := rfl
    rw [List.drop_drop, Nat.add_comm, ← Nat.mul_succ] at hrest
    rw [htake, List.take_succ_cons, pixels, List.append_assoc, ← hrest]
    rfl

theorem rowPairs_eq {out ys : List UInt8} {cs : List (UInt8 × UInt8)} (hout : out.length = 4 * ys.length)
    (hcs : ys.length ≤ 2 * cs.length) : rowPairs out ys cs = pixels ys cs := by
  have hm : min (min (out.length / 8) (ys.length / 2)) cs.length = ys.length / 2 := by omega
  have hpairs := @pairs_eq (ys.length / 2) out ys cs (by omega) (by omega)
  have hfront : (pixels (ys.take (2 * (ys.length / 2))) (cs.take (ys.length / 2))).length = 8 * (ys.length / 2) := by
    rw [length_pixels, List.length_take_of_le (by omega)]
    · omega
    · rw [List.length_take_of_le (by omega), List.length_take_of_le (by omega)]
  have hlen : (pairs (ys.length / 2) out ys cs).length = out.length := by
    rw [hpairs, List.length_append, List.length_drop, hfront]
    omega
  have hsplit := pixels_split ys cs (m := ys.length / 2) (by omega) (by omega)
  unfold rowPairs
  dsimp only
  rw [hm, hlen]
  by_cases hodd : ys.length % 2 = 1
  · have hc : ys.length / 2 < cs.length := by omega
    have hat : out.length - out.length % 8 = 8 * (ys.length / 2) := by omega
    have hlast : ys.length - 1 = 2 * (ys.length / 2) := by omega
    have hdrop : ys.drop (2 * (ys.length / 2)) = [ys.getD (ys.length - 1) 0] := by
      rw [List.drop_eq_getElem_cons (by omega), List.drop_eq_nil_of_le (by omega), hlast,
        List.getD_eq_getElem _ _ (by omega)]
    rw [if_pos ⟨hodd, by omega⟩, List.getElem?_eq_getElem hc]
    dsimp only
    rw [hat, hpairs, List.take_left' hfront, ← List.drop_drop, List.drop_left' hfront, List.drop_drop,
      List.drop_eq_nil_of_le (by omega), List.append_nil, hsplit, hdrop, List.drop_eq_getElem_cons hc, pixels]
  · rw [if_neg (by omega), hpairs, List.drop_eq_nil_of_le (by omega), hsplit,
      List.drop_eq_nil_of_le (show ys.length ≤ 2 * (ys.length / 2) by omega), pixels_nil]

/-! ## Blocks -/

theorem pixels_range {ys : List UInt8} {cs : List (UInt8 × UInt8)} (h : ys.length = 2 * cs.length) :
    pixels ys cs = (List.range ys.length).flatMap fun i => pixel (ys.getD i 0) (terms (cs.getD (i / 2) (0, 0))) := by
  induction cs generalizing ys with
  | nil =>
    obtain rfl := List.length_eq_zero_iff.mp h
    rfl
  | cons c cs ih =>
    rw [List.length_cons] at h
    obtain ⟨y0, ys, rfl⟩ := List.exists_cons_of_length_pos (show 0 < ys.length by omega)
    rw [List.length_cons] at h
    obtain ⟨y1, ys, rfl⟩ := List.exists_cons_of_length_pos (show 0 < ys.length by omega)
    rw [List.length_cons] at h
    have hshift : ∀ i, (i + 1 + 1) / 2 = i / 2 + 1 := fun i => by omega
    rw [pixels, ih (by omega), List.length_cons, List.length_cons, List.range_succ_eq_map, List.range_succ_eq_map]
    simp only [List.map_cons, List.map_map, List.flatMap_cons, List.flatMap_map, Function.comp_apply,
      Nat.succ_eq_add_one, List.getD_cons_succ, List.getD_cons_zero, hshift, List.append_assoc]
    rfl

theorem block16_eq (y16 : List UInt8) (uv : ℕ → UInt8 × UInt8) :
    block16 y16 uv = (List.range 16).flatMap fun i => pixel (y16.getD i 0) (terms (uv i)) := by
  unfold block16 pixel terms luma
  congr 1
  funext i
  dsimp only
  generalize ((y16.getD i 0).toNat : ℤ) = a, ((uv i).1.toNat : ℤ) = u, ((uv i).2.toNat : ℤ) = v
  have hr : 298 * a - 298 * 16 + 128 + 459 * (v - 128) = 298 * (a - 16) + 128 + 459 * (v - 128) := by ring
  have hg : 298 * a - 298 * 16 + 128 - 55 * (u - 128) - 136 * (v - 128) =
      298 * (a - 16) + 128 + (-55 * (u - 128) - 136 * (v - 128)) := by ring
  have hb : 298 * a - 298 * 16 + 128 + 541 * (u - 128) = 298 * (a - 16) + 128 + 541 * (u - 128) := by ring
  rw [hr, hg, hb]

structure Layout {γ : Type} (k : ℕ) (uv : List γ → ℕ → UInt8 × UInt8) (chroma : List γ → List (UInt8 × UInt8)) :
    Prop where
  pos : 0 < k
  drop : ∀ n c, chroma (c.drop (n * k)) = (chroma c).drop (n * 8)
  sample : ∀ c i, i < 16 → k ≤ c.length → uv (c.take k) i = (chroma c).getD (i / 2) (0, 0)
  room : ∀ n c, n * 8 ≤ (chroma c).length → n * k ≤ c.length

section Row

variable {γ : Type} {k : ℕ} {uv : List γ → ℕ → UInt8 × UInt8} {chroma : List γ → List (UInt8 × UInt8)}

theorem blocks_eq (hl : Layout k uv chroma) {m : ℕ} {out ys : List UInt8} {c : List γ} (hys : 16 * m ≤ ys.length)
    (hc : 8 * m ≤ (chroma c).length) :
    blocks k uv m out ys c = pixels (ys.take (16 * m)) ((chroma c).take (8 * m)) ++ out.drop (64 * m) := by
  induction m generalizing out ys c with
  | zero => rfl
  | succ m ih =>
    have hdrop : chroma (c.drop k) = (chroma c).drop 8 := by simpa using hl.drop 1 c
    have hrest := @ih (out.drop 64) (ys.drop 16) (c.drop k) (by rw [List.length_drop]; omega)
      (by rw [hdrop, List.length_drop]; omega)
    have h16 : (ys.take 16).length = 16 := List.length_take_of_le (by omega)
    have h8 : ((chroma c).take 8).length = 8 := List.length_take_of_le (by omega)
    have hroom : k ≤ c.length := by simpa using hl.room 1 c (by omega)
    have hblock : block16 (ys.take 16) (uv (c.take k)) = pixels (ys.take 16) ((chroma c).take 8) := by
      rw [block16_eq, pixels_range (by rw [h16, h8]), h16]
      refine congrArg List.flatten (List.map_congr_left fun i hi => ?_)
      have hlt : i < 16 := List.mem_range.mp hi
      have hget : ((chroma c).take 8).getD (i / 2) (0, 0) = (chroma c).getD (i / 2) (0, 0) := by
        rw [List.getD_eq_getElem?_getD, List.getElem?_take, if_pos (by omega), List.getD_eq_getElem?_getD]
      rw [hl.sample c i hlt hroom, hget]
    have hsplit := pixels_split (ys.take (16 * (m + 1))) ((chroma c).take (8 * (m + 1))) (m := 8)
      (by rw [List.length_take_of_le hys]; omega) (by rw [List.length_take_of_le hc]; omega)
    rw [List.take_take, List.take_take, List.drop_take, List.drop_take, Nat.min_eq_left (by omega),
      Nat.min_eq_left (by omega), show 16 * (m + 1) - 2 * 8 = 16 * m by omega,
      show 8 * (m + 1) - 8 = 8 * m by omega] at hsplit
    rw [hdrop, List.drop_drop, show 64 + 64 * m = 64 * (m + 1) by omega] at hrest
    rw [blocks, hblock, hrest, hsplit, List.append_assoc]

theorem rowOf_eq (hl : Layout k uv chroma) {out ys : List UInt8} {c : List γ} (hout : out.length = 4 * ys.length)
    (hc : ys.length ≤ 2 * (chroma c).length) : rowOf k uv chroma out ys c = pixels ys (chroma c) := by
  have hroom : ys.length / 16 * k ≤ c.length := hl.room _ c (by omega)
  have hm : min (min (out.length / 64) (ys.length / 16)) (c.length / k) = ys.length / 16 := by
    have := (Nat.le_div_iff_mul_le hl.pos).mpr hroom
    omega
  have hfront : (pixels (ys.take (16 * (ys.length / 16))) ((chroma c).take (8 * (ys.length / 16)))).length =
      ys.length / 16 * 64 := by
    rw [length_pixels, List.length_take_of_le (by omega)]
    · omega
    · rw [List.length_take_of_le (by omega), List.length_take_of_le (by omega)]
      omega
  have hsplit := pixels_split ys (chroma c) (m := 8 * (ys.length / 16)) (by omega) (by omega)
  unfold rowOf
  dsimp only
  rw [hm, blocks_eq hl (by omega) (by omega), List.take_left' hfront, List.drop_left' hfront, Nat.min_eq_left hroom,
    hl.drop, rowPairs_eq, hsplit]
  · rw [show 2 * (8 * (ys.length / 16)) = 16 * (ys.length / 16) by omega, Nat.mul_comm _ 16, Nat.mul_comm _ 8]
  · rw [List.length_drop, List.length_drop]
    omega
  · rw [List.length_drop, List.length_drop]
    omega

theorem fromOdd_eq (hl : Layout k uv chroma) {step : ℕ} {first : List γ → UInt8 × UInt8}
    (hstep : ∀ c, chroma (c.drop step) = (chroma c).drop 1) {x : ℕ} {g : ℕ → UInt8 × UInt8} {out ys : List UInt8}
    {c : List γ} (hfirst : 0 < (chroma c).length → first c = (chroma c).getD 0 (0, 0))
    (hout : out.length = 4 * ys.length)
    (hpos : 0 < ys.length) (hlen : (chroma c).length = half (x + ys.length) - x / 2)
    (hg : ∀ j, j < (chroma c).length → (chroma c)[j]? = some (g (x / 2 + j))) :
    fromOdd (x % 2 = 1) step first (rowOf k uv chroma) out ys c = plainPixels x g 0 ys out := by
  unfold half at hlen
  unfold fromOdd
  by_cases hodd : x % 2 = 1
  · obtain ⟨y, ys, rfl⟩ := List.exists_cons_of_length_pos hpos
    rw [List.length_cons] at hlen hout
    have hc : (chroma c).getD 0 (0, 0) = g (x / 2) := by
      rw [List.getD_eq_getElem?_getD, hg 0 (by omega)]
      rfl
    match out, hout with
    | _ :: _ :: _ :: _ :: out, hout =>
      rw [List.length_cons, List.length_cons, List.length_cons, List.length_cons] at hout
      have hrow : rowOf k uv chroma out ys (c.drop step) = pixels ys (chroma (c.drop step)) :=
        rowOf_eq hl (by omega) (by rw [hstep, List.length_drop]; omega)
      -- The first pixel has the second half of its pair's chroma; the rest starts on a pair.
      have hrest : plainPixels x g 1 ys out = pixels ys (chroma (c.drop step)) := by
        refine plainPixels_eq (by omega) (by omega) fun j hj => ?_
        rw [hstep, List.getElem?_drop, hg _ (by omega)]
        congr 2
        omega
      rw [if_pos (by simpa using hodd), plainPixels, rgb_eq_pixel, hfirst (by omega), hc, Nat.add_zero, hrest, ← hrow]
      rfl
  · rw [if_neg (by simpa using hodd), rowOf_eq hl hout (by omega)]
    symm
    refine plainPixels_eq (by omega) hout fun j hj => ?_
    rw [hg _ (by omega), Nat.add_zero]

end Row

theorem length_pairsOf (l : List UInt8) : (pairsOf l).length = l.length / 2 := by
  induction l using pairsOf.induct with
  | case1 u v uv ih =>
    rw [pairsOf, List.length_cons, List.length_cons, List.length_cons, ih]
    omega
  | case2 l hl =>
    cases l with
    | nil => rfl
    | cons a l =>
      cases l with
      | nil => simp [pairsOf]
      | cons b l => exact absurd rfl (hl a b l)

theorem getElem?_pairsOf {l : List UInt8} {i : ℕ} (h : i * 2 + 1 < l.length) :
    (pairsOf l)[i]? = some (l.getD (i * 2) 0, l.getD (i * 2 + 1) 0) := by
  induction i generalizing l with
  | zero =>
    obtain ⟨u, l, rfl⟩ := List.exists_cons_of_length_pos (show 0 < l.length by omega)
    rw [List.length_cons] at h
    obtain ⟨v, l, rfl⟩ := List.exists_cons_of_length_pos (show 0 < l.length by omega)
    rfl
  | succ i ih =>
    obtain ⟨u, l, rfl⟩ := List.exists_cons_of_length_pos (show 0 < l.length by omega)
    rw [List.length_cons] at h
    obtain ⟨v, l, rfl⟩ := List.exists_cons_of_length_pos (show 0 < l.length by omega)
    rw [List.length_cons] at h
    rw [pairsOf, List.getElem?_cons_succ, ih (by omega), Nat.succ_mul]
    rfl

theorem pairsOf_drop (n : ℕ) (l : List UInt8) : pairsOf (l.drop (n * 2)) = (pairsOf l).drop n := by
  induction n generalizing l with
  | zero => simp
  | succ n ih =>
    cases l with
    | nil => simp [pairsOf]
    | cons u l =>
      cases l with
      | nil => simp [Nat.succ_mul, pairsOf]
      | cons v l => rw [Nat.succ_mul, pairsOf, List.drop_succ_cons, List.drop_succ_cons, List.drop_succ_cons, ih]

theorem nv12 : Layout 16 (fun uv16 i => (uv16.getD (i / 2 * 2) 0, uv16.getD (i / 2 * 2 + 1) 0)) pairsOf where
  pos := by omega
  drop n c := by rw [← pairsOf_drop, Nat.mul_assoc]
  sample c i hi hroom := by
    have h0 : i / 2 * 2 < 16 := by omega
    have h1 : i / 2 * 2 + 1 < 16 := by omega
    have hpair := getElem?_pairsOf (l := c) (i := i / 2) (by omega)
    have hget : (pairsOf c).getD (i / 2) (0, 0) = (c.getD (i / 2 * 2) 0, c.getD (i / 2 * 2 + 1) 0) := by
      rw [List.getD_eq_getElem?_getD, hpair, Option.getD_some]
    rw [hget]
    simp only [List.getD_eq_getElem?_getD, List.getElem?_take, h0, h1, if_true]
  room n c h := by
    rw [length_pairsOf] at h
    omega

theorem i420 : Layout 8 (fun uv8 i => uv8.getD (i / 2) (0, 0)) (id : List (UInt8 × UInt8) → List (UInt8 × UInt8)) where
  pos := by omega
  drop n c := rfl
  sample c i hi hroom := by
    rw [List.getD_eq_getElem?_getD, List.getElem?_take, if_pos (by omega), List.getD_eq_getElem?_getD]
    rfl
  room n c h := h

theorem slice_length {α : Type} {l s : List α} {lo hi : ℕ} (h : slice l lo hi = some s) : s.length = hi - lo := by
  unfold slice at h
  split_ifs at h with hin
  rw [← Option.some.inj h, List.length_take, List.length_drop]
  omega

theorem slice_add {α : Type} (l : List α) (lo d hi : ℕ) (h : lo + d ≤ hi) :
    slice l (lo + d) hi = (slice l lo hi).map (List.drop d) := by
  unfold slice
  by_cases hin : hi ≤ l.length
  · rw [if_pos ⟨h, hin⟩, if_pos ⟨by omega, hin⟩, Option.map_some, List.drop_take, List.drop_drop, Nat.sub_sub]
  · rw [if_neg fun h' => hin h'.2, if_neg fun h' => hin h'.2]
    rfl

theorem fastRow_eq (pic : Planes) (x py : ℕ) {w : ℕ} {out : List UInt8} (hw : 0 < w) (hout : out.length = w * 4) :
    fastRow pic x py w out = plainRow pic x py w out := by
  have hhalf : x / 2 ≤ half (x + w) := by
    unfold half
    omega
  unfold fastRow plainRow
  cases hy : slice pic.y (py * pic.y_stride + x) (py * pic.y_stride + x + w) with
  | none => rfl
  | some ys =>
    have hys : ys.length = w := by rw [slice_length hy, Nat.add_sub_cancel_left]
    dsimp only [Option.bind_eq_bind, Option.bind_some]
    split_ifs with hlayout
    · have hlate := slice_add pic.u (py / 2 * pic.uv_stride) (x / 2 * 2)
        (py / 2 * pic.uv_stride + half (x + w) * 2) (by omega)
      rw [hlate]
      cases hu : slice pic.u (py / 2 * pic.uv_stride) (py / 2 * pic.uv_stride + half (x + w) * 2) with
      | none => rfl
      | some uv =>
        have huv : uv.length = half (x + w) * 2 := by rw [slice_length hu, Nat.add_sub_cancel_left]
        have hlen : (pairsOf (uv.drop (x / 2 * 2))).length = half (x + w) - x / 2 := by
          rw [length_pairsOf, List.length_drop, huv]
          omega
        refine congrArg some (fromOdd_eq nv12 (fun c => pairsOf_drop 1 c) (fun hpos => ?_) (by omega) (by omega)
          (by rw [hlen, hys]) fun j hj => ?_)
        · have hget := getElem?_pairsOf (l := uv.drop (x / 2 * 2)) (i := 0)
            (by rw [hlen] at hpos; rw [List.length_drop, huv]; omega)
          rw [List.getD_eq_getElem?_getD (l := pairsOf _), hget]
          rfl
        · rw [hlen] at hj
          rw [getElem?_pairsOf (by rw [List.length_drop, huv]; omega)]
          simp only [List.getD_eq_getElem?_getD, List.getElem?_drop, ← Nat.add_mul, ← Nat.add_assoc]
    · have hu := slice_add pic.u (py / 2 * pic.uv_stride) (x / 2) (py / 2 * pic.uv_stride + half (x + w)) (by omega)
      have hv := slice_add pic.v (py / 2 * pic.uv_stride) (x / 2) (py / 2 * pic.uv_stride + half (x + w)) (by omega)
      rw [hu, hv]
      cases hu' : slice pic.u (py / 2 * pic.uv_stride) (py / 2 * pic.uv_stride + half (x + w)) with
      | none => rfl
      | some ur =>
        cases hv' : slice pic.v (py / 2 * pic.uv_stride) (py / 2 * pic.uv_stride + half (x + w)) with
        | none => rfl
        | some vr =>
          have hur : ur.length = half (x + w) := by rw [slice_length hu', Nat.add_sub_cancel_left]
          have hvr : vr.length = half (x + w) := by rw [slice_length hv', Nat.add_sub_cancel_left]
          have hlen : ((ur.drop (x / 2)).zip (vr.drop (x / 2))).length = half (x + w) - x / 2 := by
            rw [List.length_zip, List.length_drop, List.length_drop, hur, hvr, Nat.min_self]
          refine congrArg some (fromOdd_eq i420 (fun c => rfl) (fun _ => rfl) (by omega) (by omega)
            (by rw [id, hlen, hys]) fun j hj => ?_)
          rw [id, hlen] at hj
          rw [id, List.getElem?_zip_eq_some, List.getElem?_drop, List.getElem?_drop]
          dsimp only
          constructor
          · rw [List.getD_eq_getElem _ _ (by omega)]
            exact List.getElem?_eq_getElem _
          · rw [List.getD_eq_getElem _ _ (by omega)]
            exact List.getElem?_eq_getElem _

theorem eachRow_congr {dst_stride w : ℕ} {f g : ℕ → List UInt8 → Option (List UInt8)}
    (h : ∀ row out, out.length = w * 4 → f row out = g row out) (row n : ℕ) (dst : List UInt8) :
    eachRow dst_stride w f row n dst = eachRow dst_stride w g row n dst := by
  induction n generalizing row dst with
  | zero => rfl
  | succ n ih =>
    have hrow : (slice dst (row * dst_stride) (row * dst_stride + w * 4)).bind (f row) =
        (slice dst (row * dst_stride) (row * dst_stride + w * 4)).bind (g row) := by
      cases hs : slice dst (row * dst_stride) (row * dst_stride + w * 4) with
      | none => rfl
      | some out => exact h row out (by rw [slice_length hs, Nat.add_sub_cancel_left])
    rw [eachRow, eachRow, hrow]
    cases (slice dst (row * dst_stride) (row * dst_stride + w * 4)).bind (g row) with
    | none => rfl
    | some out => exact ih _ _

theorem eachRow_empty {dst_stride : ℕ} {f : ℕ → List UInt8 → Option (List UInt8)}
    (h : ∀ row out, f row [] = some out → out = []) (row n : ℕ) (dst : List UInt8) :
    eachRow dst_stride 0 f row n dst = dst := by
  induction n generalizing row dst with
  | zero => rfl
  | succ n ih =>
    rw [eachRow]
    cases hs : (slice dst (row * dst_stride) (row * dst_stride + 0 * 4)).bind (f row) with
    | none => rfl
    | some out =>
      obtain ⟨old, hold, hout⟩ := Option.bind_eq_some_iff.mp hs
      have hlen : old.length = 0 := by rw [slice_length hold, Nat.add_sub_cancel_left, Nat.zero_mul]
      obtain rfl := List.length_eq_zero_iff.mp hlen
      obtain rfl := h row out hout
      dsimp only
      rw [ih, List.append_nil, Nat.zero_mul, Nat.add_zero, List.take_append_drop]

theorem plainPixels_empty (x : ℕ) (g : ℕ → UInt8 × UInt8) (i : ℕ) (ys : List UInt8) : plainPixels x g i ys [] = [] := by
  cases ys <;> rfl

theorem plainRow_empty {pic : Planes} {x py w : ℕ} {out : List UInt8} (h : plainRow pic x py w [] = some out) :
    out = [] := by
  unfold plainRow at h
  obtain ⟨ys, -, h⟩ := Option.bind_eq_some_iff.mp h
  dsimp only at h
  split_ifs at h with hlayout
  · obtain ⟨uv, -, h⟩ := Option.bind_eq_some_iff.mp h
    rw [plainPixels_empty] at h
    exact (Option.some.inj h).symm
  · obtain ⟨ur, -, h⟩ := Option.bind_eq_some_iff.mp h
    obtain ⟨vr, -, h⟩ := Option.bind_eq_some_iff.mp h
    rw [plainPixels_empty] at h
    exact (Option.some.inj h).symm

theorem length_plainPixels (x : ℕ) (g : ℕ → UInt8 × UInt8) (i : ℕ) (ys out : List UInt8) :
    (plainPixels x g i ys out).length = out.length := by
  induction i, ys, out using plainPixels.induct with
  | case1 i y ys a b c d out ih =>
    rw [plainPixels, List.length_append, ih]
    simp only [rgb, List.length_cons, List.length_nil]
    omega
  | case2 i ys out h =>
    rw [plainPixels]
    exact h

theorem length_plainRow {pic : Planes} {x py w : ℕ} {out out' : List UInt8} (h : plainRow pic x py w out = some out') :
    out'.length = out.length := by
  unfold plainRow at h
  obtain ⟨ys, -, h⟩ := Option.bind_eq_some_iff.mp h
  dsimp only at h
  split_ifs at h with hlayout
  · obtain ⟨uv, -, h⟩ := Option.bind_eq_some_iff.mp h
    rw [← Option.some.inj h, length_plainPixels]
  · obtain ⟨ur, -, h⟩ := Option.bind_eq_some_iff.mp h
    obtain ⟨vr, -, h⟩ := Option.bind_eq_some_iff.mp h
    rw [← Option.some.inj h, length_plainPixels]

theorem eachRow_outside {dst_stride w : ℕ} {f : ℕ → List UInt8 → Option (List UInt8)}
    (hf : ∀ row out out', f row out = some out' → out'.length = out.length) (row n : ℕ) (dst : List UInt8) {i : ℕ}
    (hi : ∀ r, row ≤ r → r < row + n → i < r * dst_stride ∨ r * dst_stride + w * 4 ≤ i) :
    (eachRow dst_stride w f row n dst)[i]? = dst[i]? := by
  induction n generalizing row dst with
  | zero => rfl
  | succ n ih =>
    rw [eachRow]
    cases hs : (slice dst (row * dst_stride) (row * dst_stride + w * 4)).bind (f row) with
    | none => rfl
    | some out =>
      obtain ⟨old, hold, hout⟩ := Option.bind_eq_some_iff.mp hs
      have hlen : out.length = w * 4 := by rw [hf _ _ _ hout, slice_length hold, Nat.add_sub_cancel_left]
      have hroom : row * dst_stride + w * 4 ≤ dst.length := by
        unfold slice at hold
        split_ifs at hold with hin
        exact hin.2
      have hfront : (dst.take (row * dst_stride)).length = row * dst_stride := List.length_take_of_le (by omega)
      dsimp only
      rw [ih (row + 1) _ fun r hr hrn => hi r (by omega) (by omega)]
      rcases hi row (Nat.le_refl _) (by omega) with hbefore | hafter
      · rw [List.append_assoc, List.getElem?_append_left (by omega), List.getElem?_take, if_pos hbefore]
      · rw [List.getElem?_append_right (by rw [List.length_append]; omega), List.getElem?_drop, List.length_append,
          hfront,
          hlen, Nat.add_sub_cancel' hafter]

/-- The fast conversion leaves every destination as the plain one does, and both leave the bytes outside the
rectangle. -/
theorem convertFast_eq (pic : Planes) (x y w h : ℕ) (dst : List UInt8) (dst_stride : ℕ) :
    convertFast pic x y w h dst dst_stride = convertPlain pic x y w h dst dst_stride ∧
      ∀ i : ℕ, (∀ row, row < min h (pic.height - y) →
          i < row * dst_stride ∨ row * dst_stride + min w (pic.width - x) * 4 ≤ i) →
        (convertFast pic x y w h dst dst_stride)[i]? = dst[i]? := by
  have heq : convertFast pic x y w h dst dst_stride = convertPlain pic x y w h dst dst_stride := by
    unfold convertFast convertPlain
    dsimp only
    split_ifs with hw
    · rw [hw]
      exact (eachRow_empty (fun row out hout => plainRow_empty hout) 0 _ dst).symm
    · exact eachRow_congr (fun row out hout => fastRow_eq pic x (y + row) (by omega) hout) 0 _ dst
  constructor
  · exact heq
  · intro i hi
    rw [heq]
    unfold convertPlain
    refine eachRow_outside (fun row out out' hout => length_plainRow hout) 0 _ dst fun r _ hr => hi r ?_
    simpa using hr

end Rdpio.Android.Yuv
