import Rdpio.Graphics.Yuv
import Rdpio.Lib.Grid

/-!
# What an NV12 picture shows

A conversion makes each pixel from its luma and from the chroma pair of its block, whatever the output held
and however its rows are shared out (`nv12ToRgbaInto_eq`).
-/

namespace Rdpio.Graphics.Yuv

open Lib

def byteAt (l : List UInt8) (i : ℕ) : ℤ := ((l.getD i 0).toNat : ℤ)

def shownAt (y_plane uv_plane : List UInt8) (luma chroma x : ℕ) : List UInt8 :=
  rgba (yuvToRgb (byteAt y_plane (luma + x)) (byteAt uv_plane (chroma + x / 2 * 2))
    (byteAt uv_plane (chroma + x / 2 * 2 + 1)))

def shownRow (y_plane uv_plane : List UInt8) (width stride y : ℕ) : List UInt8 :=
  (List.range width).flatMap (shownAt y_plane uv_plane (y * stride) (y / 2 * stride))

theorem length_shownAt (y_plane uv_plane : List UInt8) (luma chroma x : ℕ) :
    (shownAt y_plane uv_plane luma chroma x).length = 4 := rfl

theorem length_shownRow (y_plane uv_plane : List UInt8) (width stride y : ℕ) :
    (shownRow y_plane uv_plane width stride y).length = width * 4 :=
  length_flatMap_range fun _ _ => length_shownAt ..

theorem take_drop_shownRow (y_plane uv_plane : List UInt8) {width stride y x : ℕ} (hx : x < width) :
    ((shownRow y_plane uv_plane width stride y).drop (x * 4)).take 4 =
      shownAt y_plane uv_plane (y * stride) (y / 2 * stride) x :=
  take_drop_flatMap_range (f := shownAt y_plane uv_plane (y * stride) (y / 2 * stride)) (w := 4) (i := 0) (n := 4)
    (fun _ _ => length_shownAt ..) hx (Nat.le_refl 4)

theorem byteAt_congr {l l' : List UInt8} {i i' : ℕ} (h : l[i]? = l'[i']?) : byteAt l i = byteAt l' i' := by
  unfold byteAt
  rw [List.getD_eq_getElem?_getD, List.getD_eq_getElem?_getD, h]

theorem sample_eq {l : List UInt8} {i : ℕ} (hi : i < l.length) : sample l i = some (byteAt l i) := by
  rw [sample, byteAt, List.getElem?_eq_getElem hi, List.getD_eq_getElem _ _ hi]
  rfl

theorem byteAt_slice {l : List UInt8} {lo n i : ℕ} (hi : i < n) : byteAt ((l.drop lo).take n) i = byteAt l (lo + i) := by
  unfold byteAt
  rw [List.getD_eq_getElem?_getD, List.getElem?_take, if_pos hi, List.getElem?_drop, ← List.getD_eq_getElem?_getD]

theorem yuvToRgba4x_eq (y0 y1 y2 y3 u0 u1 v0 v1 : ℤ) :
    yuvToRgba4x #v[y0, y1, y2, y3] #v[u0, u0, u1, u1] #v[v0, v0, v1, v1] =
      rgba (yuvToRgb y0 u0 v0) ++ rgba (yuvToRgb y1 u0 v0) ++ rgba (yuvToRgb y2 u1 v1) ++ rgba (yuvToRgb y3 u1 v1) := by
  have hlane : ∀ y u v : ℤ,
      [UInt8.ofNat (max 0 (min (((y - 16) * 298 + (v - 128) * 459 + 128) / 256) 255)).toNat,
        UInt8.ofNat (max 0 (min (((y - 16) * 298 - (u - 128) * 55 - (v - 128) * 136 + 128) / 256) 255)).toNat,
        UInt8.ofNat (max 0 (min (((y - 16) * 298 + (u - 128) * 541 + 128) / 256) 255)).toNat, 0xFF] =
      rgba (yuvToRgb y u v) := by
    intro y u v
    unfold rgba yuvToRgb clamp
    dsimp only
    rw [Int.mul_comm (y - 16), Int.mul_comm (v - 128) 459, Int.mul_comm (u - 128) 55, Int.mul_comm (v - 128) 136,
      Int.mul_comm (u - 128) 541]
  rw [← hlane, ← hlane, ← hlane, ← hlane]
  rfl

section

variable {yr uvr : List UInt8} {width : ℕ} (hyr : yr.length = width) (huvr : uvr.length = half width * 2)

include hyr huvr

theorem simdChunks_spec (turns x : ℕ) {dst : List UInt8} (hx : x % 4 = 0) (hle : x ≤ width)
    (hlen : dst.length = width * 4) (hdone : dst.take (x * 4) = (List.range x).flatMap (shownAt yr uvr 0 0)) :
    ∃ x' dst', simdChunks yr uvr width turns x dst = some (x', dst') ∧ x' ≤ width ∧ dst'.length = width * 4 ∧
      dst'.take (x' * 4) = (List.range x').flatMap (shownAt yr uvr 0 0) := by
  induction turns generalizing x dst with
  | zero => exact ⟨x, dst, rfl, hle, hlen, hdone⟩
  | succ turns ih =>
    unfold simdChunks
    by_cases hend : width < x + 4
    · rw [if_pos hend]
      exact ⟨x, dst, rfl, hle, hlen, hdone⟩
    · have hchroma : x + 3 < half width * 2 := by
        unfold half
        omega
      rw [if_neg hend]
      have hsrc : rgba (yuvToRgb (byteAt yr x) (byteAt uvr x) (byteAt uvr (x + 1))) ++
          rgba (yuvToRgb (byteAt yr (x + 1)) (byteAt uvr x) (byteAt uvr (x + 1))) ++
          rgba (yuvToRgb (byteAt yr (x + 2)) (byteAt uvr (x + 2)) (byteAt uvr (x + 3))) ++
          rgba (yuvToRgb (byteAt yr (x + 3)) (byteAt uvr (x + 2)) (byteAt uvr (x + 3))) =
            ((List.range 4).map (x + ·)).flatMap (shownAt yr uvr 0 0) := by
        simp only [show List.range 4 = [0, 1, 2, 3] from rfl, List.map_cons, List.map_nil, List.flatMap_cons,
          List.flatMap_nil, List.append_nil, List.append_assoc, shownAt, Nat.zero_add, Nat.add_zero,
          show x / 2 * 2 = x by omega, show (x + 1) / 2 * 2 = x by omega, show (x + 2) / 2 * 2 = x + 2 by omega,
          show (x + 3) / 2 * 2 = x + 2 by omega]
      obtain ⟨dst', hcopy, -, -⟩ := copyTo_spec dst
        (((List.range 4).map (x + ·)).flatMap (shownAt yr uvr 0 0)) (x * 4) (x * 4 + 16) (by omega) (by omega)
        (by rw [Nat.add_sub_cancel_left]; rfl)
      obtain ⟨hlen', hdone'⟩ := take_of_copyTo hcopy
      simp only [sample_eq (l := yr) (i := x) (by omega), sample_eq (l := yr) (i := x + 1) (by omega),
        sample_eq (l := yr) (i := x + 2) (by omega), sample_eq (l := yr) (i := x + 3) (by omega),
        sample_eq (l := uvr) (i := x) (by omega), sample_eq (l := uvr) (i := x + 1) (by omega),
        sample_eq (l := uvr) (i := x + 2) (by omega), sample_eq (l := uvr) (i := x + 3) (by omega),
        Option.bind_eq_bind, Option.bind_some, yuvToRgba4x_eq, hsrc, hcopy]
      refine ih (x + 4) (by omega) (by omega) (hlen'.trans hlen) ?_
      rw [Nat.add_mul, hdone', hdone, List.range_add, List.flatMap_append]

theorem scalarTail_spec {x : ℕ} {dst : List UInt8} (hle : x ≤ width) (hlen : dst.length = width * 4)
    (hdone : dst.take (x * 4) = (List.range x).flatMap (shownAt yr uvr 0 0)) :
    (List.range' x (width - x)).foldlM (scalarPixel yr uvr) dst =
      some ((List.range width).flatMap (shownAt yr uvr 0 0)) := by
  obtain ⟨dst', hloop, hlen', hdone'⟩ := foldlM_range_rule (n := width - x)
    (fun i (dst : List UInt8) => dst.length = width * 4 ∧
      dst.take ((x + i) * 4) = (List.range (x + i)).flatMap (shownAt yr uvr 0 0))
    (g := fun dst i => scalarPixel yr uvr dst (x + i)) ⟨hlen, hdone⟩ (by
      rintro i dst hi ⟨hlen, hdone⟩
      have hchroma : (x + i) / 2 * 2 + 1 < half width * 2 := by
        unfold half
        omega
      obtain ⟨dst', hcopy, -, -⟩ := copyTo_spec dst (shownAt yr uvr 0 0 (x + i)) ((x + i) * 4)
        ((x + i) * 4 + 4) (by omega) (by omega)
        (by rw [Nat.add_sub_cancel_left]; rfl)
      obtain ⟨hlen', hdone'⟩ := take_of_copyTo hcopy
      refine ⟨dst', ?_, hlen'.trans hlen, ?_⟩
      · unfold scalarPixel
        simp only [sample_eq (l := yr) (i := x + i) (by omega), sample_eq (l := uvr) (i := (x + i) / 2 * 2) (by omega),
          sample_eq (l := uvr) (i := (x + i) / 2 * 2 + 1) (by omega), Option.bind_eq_bind, Option.bind_some]
        rw [shownAt, Nat.zero_add, Nat.zero_add] at hcopy
        exact hcopy
      · rw [← Nat.add_assoc, Nat.add_mul (x + i), hdone', hdone, List.range_succ, List.flatMap_append]
        rfl)
  rw [Nat.add_sub_cancel' hle] at hdone'
  rw [List.range'_eq_map_range, List.foldlM_map, hloop, ← hdone', List.take_of_length_le (Nat.le_of_eq hlen')]

end

theorem nv12Row_eq {y_plane uv_plane dst : List UInt8} {width stride y : ℕ}
    (hluma : y * stride + width ≤ y_plane.length) (hchroma : y / 2 * stride + half width * 2 ≤ uv_plane.length)
    (hlen : dst.length = width * 4) :
    nv12Row y_plane uv_plane width stride y dst = some (shownRow y_plane uv_plane width stride y) := by
  have hyr : ((y_plane.drop (y * stride)).take width).length = width := by
    rw [List.length_take, List.length_drop]
    omega
  have huvr : ((uv_plane.drop (y / 2 * stride)).take (half width * 2)).length = half width * 2 := by
    rw [List.length_take, List.length_drop]
    omega
  obtain ⟨x, dst', hsimd, hle, hlen', hdone⟩ := simdChunks_spec hyr huvr width 0 rfl (Nat.zero_le _) hlen
    (by rw [Nat.zero_mul]; rfl)
  unfold nv12Row
  rw [Lib.slice, if_pos ⟨Nat.le_add_right .., hluma⟩, Lib.slice, if_pos ⟨Nat.le_add_right .., hchroma⟩,
    Nat.add_sub_cancel_left, Nat.add_sub_cancel_left]
  simp only [Option.bind_eq_bind, Option.bind_some, hsimd]
  rw [scalarTail_spec hyr huvr hle hlen' hdone, shownRow, Option.some.injEq]
  refine List.flatMap_congr fun x hx => ?_
  have hx := List.mem_range.1 hx
  have hpair : x / 2 * 2 + 1 < half width * 2 := by
    unfold half
    omega
  unfold shownAt
  rw [Nat.zero_add, Nat.zero_add, byteAt_slice hx, byteAt_slice (by omega), byteAt_slice hpair, Nat.add_assoc]

theorem mapM_zipIdx_chunks {α β : Type*} (size rows total : ℕ) (part : ℕ → List β) (hsize : 0 < size)
    (hrows : 0 < rows) {f : List α → ℕ → Option (List β)}
    (hf : ∀ c i k, 0 < k → k ≤ rows → c.length = k * size → i * rows + k ≤ total →
      f c i = some ((List.range k).flatMap fun r => part (i * rows + r))) (m i : ℕ) {l : List α} (hlen : l.length = m * size)
    (hm : 0 < m → i * rows + m ≤ total) :
    ∃ cs, ((chunks (rows * size) l).zipIdx i).mapM (fun c => f c.1 c.2) = some cs ∧
      cs.flatten = (List.range m).flatMap fun r => part (i * rows + r) := by
  have hpos : 0 < rows * size := Nat.mul_pos hrows hsize
  induction m using Nat.strongRecOn generalizing i l with
  | ind m ih =>
    rcases Nat.eq_zero_or_pos m with rfl | hmpos
    · obtain rfl : l = [] := List.length_eq_zero_iff.1 (hlen.trans (Nat.zero_mul size))
      exact ⟨[], rfl, rfl⟩
    · have hne : l ≠ [] := by
        intro hnil
        rw [hnil, List.length_nil] at hlen
        exact absurd hlen (Nat.ne_of_lt (Nat.mul_pos hmpos hsize))
      -- The first chunk has as many parts as fit.
      have hfirst : (l.take (rows * size)).length = min rows m * size := by
        rw [List.length_take, hlen]
        exact (Nat.mul_min_mul_right ..)
      have hrest : (l.drop (rows * size)).length = (m - rows) * size := by
        rw [List.length_drop, hlen, Nat.sub_mul]
      have hm := hm hmpos
      obtain ⟨cs, hcs, hflat⟩ := ih (m - rows) (by omega) (i + 1) hrest (fun hmore => by rw [Nat.succ_mul]; omega)
      have hhead := hf _ i (min rows m) (by omega) (Nat.min_le_left ..) hfirst (by omega)
      refine ⟨((List.range (min rows m)).flatMap fun r => part (i * rows + r)) :: cs, ?_, ?_⟩
      · rw [chunks_of_ne_nil hpos hne, List.zipIdx_cons, List.mapM_cons, hhead, hcs]
        rfl
      · have hsplit : m = min rows m + (m - rows) := by omega
        rw [List.flatten_cons, hflat]
        conv_rhs => rw [hsplit, List.range_add, List.flatMap_append, List.flatMap_map]
        congr 1
        refine List.flatMap_congr fun r hr => ?_
        have hr := List.mem_range.1 hr
        rw [Nat.succ_mul, Nat.min_eq_left (by omega : rows ≤ m), Nat.add_assoc]

section

variable {y_plane uv_plane : List UInt8} {width height stride : ℕ} (hstride : width ≤ stride)
  (hluma : stride * height ≤ y_plane.length) (hchroma : (half height - 1) * stride + half width * 2 ≤ uv_plane.length)

include hstride hluma hchroma

theorem nv12RowsToRgba_eq (hwidth : 0 < width) {first n : ℕ} {out : List UInt8} (hlen : out.length = n * (width * 4))
    (hn : first + n ≤ height) :
    nv12RowsToRgba y_plane uv_plane width stride first out =
      some ((List.range n).flatMap fun r => shownRow y_plane uv_plane width stride (first + r)) := by
  obtain ⟨rows, hrows, hflat⟩ := mapM_zipIdx_chunks (width * 4) 1 height
    (shownRow y_plane uv_plane width stride) (by omega) Nat.one_pos
    (f := fun row y => nv12Row y_plane uv_plane width stride y row) (by
      intro c y k hpos hone hc hk
      obtain rfl : k = 1 := by omega
      have hlast : y * stride + width ≤ stride * height :=
        calc y * stride + width ≤ y * stride + stride := Nat.add_le_add_left hstride _
          _ = (y + 1) * stride := (Nat.succ_mul y stride).symm
          _ ≤ height * stride := Nat.mul_le_mul_right stride (by omega)
          _ = stride * height := Nat.mul_comm height stride
      have hblock : y / 2 * stride ≤ (half height - 1) * stride := by
        refine Nat.mul_le_mul_right stride ?_
        unfold half
        omega
      rw [nv12Row_eq (Nat.le_trans hlast hluma) (by omega) (by rw [hc, Nat.one_mul]), Nat.mul_one]
      exact congrArg some (List.append_nil _).symm) n first hlen (by omega)
  rw [Nat.one_mul] at hrows
  rw [Nat.mul_one] at hflat
  rw [nv12RowsToRgba, hrows, Option.map_some, hflat]

theorem nv12ToRgbaInto_eq (out : List UInt8) (threads : ℕ) :
    nv12ToRgbaInto y_plane uv_plane width height stride out threads =
      some (true, (List.range height).flatMap (shownRow y_plane uv_plane width stride)) := by
  have hneed : (if half height = 0 then 0 else (half height - 1) * stride + half width * 2) ≤ uv_plane.length := by
    split_ifs
    · exact Nat.zero_le _
    · exact hchroma
  unfold nv12ToRgbaInto
  dsimp only
  rw [if_neg (by omega)]
  have hlen : (out.take (width * 4 * height) ++ List.replicate (width * 4 * height - out.length) 0).length =
      width * 4 * height := by
    rw [List.length_append, List.length_take, List.length_replicate]
    omega
  generalize out.take (width * 4 * height) ++ List.replicate (width * 4 * height - out.length) 0 = buf at hlen ⊢
  by_cases hempty : width * 4 = 0 ∨ height = 0
  · -- No pixels.
    have hnone : (List.range height).flatMap (shownRow y_plane uv_plane width stride) = [] := by
      refine List.length_eq_zero_iff.1 ((length_flatMap_range fun _ _ => length_shownRow ..).trans ?_)
      rcases hempty with hw | hh
      · rw [hw, Nat.mul_zero]
      · rw [hh, Nat.zero_mul]
    have hbuf : buf = [] := by
      refine List.length_eq_zero_iff.1 (hlen.trans ?_)
      rcases hempty with hw | hh
      · rw [hw, Nat.zero_mul]
      · rw [hh, Nat.mul_zero]
    rw [if_pos hempty, hnone, hbuf]
  · obtain ⟨hw, hh⟩ := not_or.1 hempty
    rw [if_neg hempty]
    obtain ⟨rows, hrows⟩ : ∃ rows, (height + max 1 (min threads height) - 1) / max 1 (min threads height) = rows :=
      ⟨_, rfl⟩
    have hpos : 0 < rows := by
      rw [← hrows]
      exact Nat.div_pos (by omega) (by omega)
    rw [hrows]
    obtain ⟨shares, hshares, hflat⟩ := mapM_zipIdx_chunks (width * 4) rows height
      (shownRow y_plane uv_plane width stride) (by omega) hpos
      (f := fun share i => nv12RowsToRgba y_plane uv_plane width stride (i * rows) share)
      (fun c i k _ _ hc hk => nv12RowsToRgba_eq hstride hluma hchroma (by omega) hc hk) height 0
      (hlen.trans (Nat.mul_comm ..)) (by omega)
    rw [hshares, Option.map_some, hflat]
    simp only [Nat.zero_mul, Nat.zero_add]

theorem nv12ToRgba_eq : nv12ToRgba y_plane uv_plane width height stride =
      some (some ((List.range height).flatMap (shownRow y_plane uv_plane width stride))) := by
  rw [nv12ToRgba, nv12ToRgbaInto_eq hstride hluma hchroma, Option.map_some]
  rfl

end

theorem sizes_of_nv12ToRgba {y_plane uv_plane out : List UInt8} {width height stride : ℕ}
    (h : nv12ToRgba y_plane uv_plane width height stride = some (some out)) (hheight : 0 < height) :
    width ≤ stride ∧ stride * height ≤ y_plane.length ∧
      (half height - 1) * stride + half width * 2 ≤ uv_plane.length := by
  unfold nv12ToRgba nv12ToRgbaInto at h
  dsimp only at h
  have hhalf : half height ≠ 0 := by
    unfold half
    omega
  rw [if_neg hhalf] at h
  by_cases hsmall : stride < width ∨ y_plane.length < stride * height ∨
      uv_plane.length < (half height - 1) * stride + half width * 2
  · rw [if_pos hsmall] at h
    cases h
  · omega

/-! ## Packing -/

section

variable {src : List UInt8} {src_at dst_at width stride : ℕ}

theorem length_repackRows (rows row : ℕ) {out out' : List UInt8}
    (h : repackRows src src_at dst_at width stride rows row out = some out') : out'.length = out.length := by
  induction rows generalizing row out with
  | zero =>
    cases h
    rfl
  | succ rows ih =>
    unfold repackRows at h
    dsimp only at h
    split_ifs at h with hend
    · cases h
      rfl
    · simp only [Option.bind_eq_bind, Option.bind_eq_some_iff] at h
      obtain ⟨part, -, next, hcopy, hrest⟩ := h
      exact (ih (row + 1) hrest).trans (take_of_copyTo hcopy).1

theorem repackRows_spec (rows row : ℕ) {out : List UInt8}
    (hsrc : ∀ r < row + rows, src_at + r * stride + width ≤ src.length)
    (hdst : dst_at + (row + rows) * width ≤ out.length) :
    ∃ out', repackRows src src_at dst_at width stride rows row out = some out' ∧ out'.length = out.length ∧
      (∀ r x, row ≤ r → r < row + rows → x < width → out'[dst_at + r * width + x]? = src[src_at + r * stride + x]?) ∧
      ∀ i, i < dst_at + row * width ∨ dst_at + (row + rows) * width ≤ i → out'[i]? = out[i]? := by
  induction rows generalizing row out with
  | zero => exact ⟨out, rfl, rfl, fun r x hr hr' _ => by omega, fun _ _ => rfl⟩
  | succ rows ih =>
    have hrow := hsrc row (by omega)
    have hnext : (row + 1) * width ≤ (row + (rows + 1)) * width := Nat.mul_le_mul_right width (by omega)
    rw [Nat.succ_mul] at hnext
    have hpart : ((src.drop (src_at + row * stride)).take width).length = width := by
      rw [List.length_take, List.length_drop]
      omega
    obtain ⟨out₁, hcopy, hlen₁, hat⟩ := copyTo_spec out
      ((src.drop (src_at + row * stride)).take width) (dst_at + row * width) (dst_at + row * width + width) (by omega) (by omega)
      (by rw [hpart, Nat.add_sub_cancel_left])
    obtain ⟨out', hrest, hlen', hrows, hkeep⟩ := @ih (row + 1) out₁
      (fun r hr => hsrc r (by omega)) (by rw [hlen₁, Nat.add_right_comm row]; exact hdst)
    rw [Nat.succ_mul] at hkeep
    refine ⟨out', ?_, hlen'.trans hlen₁, fun r x hr hr' hx => ?_, fun i hi => ?_⟩
    · unfold repackRows
      dsimp only
      rw [if_neg (by omega), Lib.slice, if_pos ⟨Nat.le_add_right .., by omega⟩, Nat.add_sub_cancel_left]
      simp only [Option.bind_eq_bind, Option.bind_some, hcopy]
      exact hrest
    · rcases Nat.eq_or_lt_of_le hr with rfl | hlt
      · -- This row: no later one reaches it.
        rw [hkeep _ (.inl (by omega)), hat, if_pos ⟨by omega, by omega⟩, Nat.add_sub_cancel_left, List.getElem?_take,
          if_pos hx, List.getElem?_drop]
      · exact hrows r x hlt (by omega) hx
    · rw [show row + 1 + rows = row + (rows + 1) by omega] at hkeep
      rw [hkeep i (by omega), hat, if_neg (by omega)]

end

section

variable {src : List UInt8} {w h stride coded_h : ℕ}

theorem length_nv12RepackTight {tight : List UInt8} (h' : nv12RepackTight src w h stride coded_h = some (some tight)) :
    tight.length = w * h + (w * h * 3 / 2 - w * h) := by
  unfold nv12RepackTight at h'
  split_ifs at h'
  · cases h'
  simp only [Option.bind_eq_bind, Option.bind_eq_some_iff] at h'
  obtain ⟨luma, hluma, chroma, hchroma, hsome⟩ := h'
  cases hsome
  rw [length_repackRows _ _ hchroma, length_repackRows _ _ hluma, List.length_append, List.length_replicate,
    List.length_replicate]

theorem nv12RepackTight_even (hw : 0 < w) (hh : 0 < h) (hstride : w ≤ stride) (hcoded : h ≤ coded_h)
    (hsrc : stride * coded_h + (half h - 1) * stride + half w * 2 ≤ src.length) (heven : w % 2 = 0 ∧ h % 2 = 0) :
    ∃ tight, nv12RepackTight src w h stride coded_h = some (some tight) ∧
      (∀ y < h, ∀ x < w, tight[y * w + x]? = src[y * stride + x]?) ∧
      ∀ y < half h, ∀ x < w, tight[w * h + (y * w + x)]? = src[stride * coded_h + (y * stride + x)]? := by
  have hhalf : half h = h / 2 := by
    unfold half
    omega
  have hpair : half w * 2 = w := by
    unfold half
    omega
  rw [hhalf, hpair] at hsrc
  have hchroma : w * h * 3 / 2 - w * h = h / 2 * w := by
    have hprod : w * h = 2 * (h / 2 * w) :=
      calc w * h = w * (2 * (h / 2)) := by rw [show 2 * (h / 2) = h by omega]
        _ = 2 * (w * (h / 2)) := Nat.mul_left_comm ..
        _ = 2 * (h / 2 * w) := by rw [Nat.mul_comm w]
    omega
  have hlast : ∀ r < h, r * stride + w ≤ stride * coded_h := fun r hr =>
    calc r * stride + w ≤ r * stride + stride := Nat.add_le_add_left hstride _
      _ = (r + 1) * stride := (Nat.succ_mul r stride).symm
      _ ≤ coded_h * stride := Nat.mul_le_mul_right stride (by omega)
      _ = stride * coded_h := Nat.mul_comm ..
  obtain ⟨luma, hluma, hlen, hrows, hkeep⟩ := @repackRows_spec src 0 0 w stride h 0
    (List.replicate (w * h) 0 ++ List.replicate (w * h * 3 / 2 - w * h) 128)
    (fun r hr => by have := hlast r (by omega); omega) (by
      rw [List.length_append, List.length_replicate, Nat.zero_add, Nat.zero_add, Nat.mul_comm h]
      exact Nat.le_add_right ..)
  rw [List.length_append, List.length_replicate, List.length_replicate, hchroma] at hlen
  obtain ⟨tight, htight, -, hrows', hkeep'⟩ := @repackRows_spec src (stride * coded_h) (w * h) w
    stride (h / 2) 0 luma (fun r hr => by
      have : r * stride ≤ (h / 2 - 1) * stride := Nat.mul_le_mul_right stride (by omega)
      omega) (by
      exact Nat.le_of_eq (by rw [hlen, Nat.zero_add]))
  refine ⟨tight, ?_, fun y hy x hx => ?_, fun y hy x hx => ?_⟩
  · unfold nv12RepackTight
    dsimp only
    rw [if_neg (by omega), hluma, Option.bind_eq_bind, Option.bind_some, htight]
    rfl
  · have hin : y * w + x < w * h := by
      rw [Nat.mul_comm w]
      exact add_lt_of_row hy hx
    have hrow := hrows y x (Nat.zero_le _) (by omega) hx
    rw [Nat.zero_add, Nat.zero_add] at hrow
    rw [hkeep' _ (.inl (by omega)), hrow]
  · rw [hhalf] at hy
    have hrow := hrows' y x (Nat.zero_le _) (by omega) hx
    rwa [Nat.add_assoc, Nat.add_assoc] at hrow

theorem even_of_nv12ToRgba {tight rgba : List UInt8} {s : ℕ} (hw : 0 < w) (hh : 0 < h)
    (hlen : tight.length = w * h + (w * h * 3 / 2 - w * h))
    (hrgba : nv12ToRgba (tight.take (w * h)) (tight.drop (w * h)) w h s = some (some rgba)) :
    w % 2 = 0 ∧ h % 2 = 0 := by
  obtain ⟨hstride, hluma, hchroma⟩ := sizes_of_nv12ToRgba hrgba hh
  rw [List.length_take, hlen, Nat.min_eq_left (Nat.le_add_right ..)] at hluma
  rw [List.length_drop, hlen, Nat.add_sub_cancel_left] at hchroma
  -- A wider stride asks for more luma than there is.
  have hsw : s = w := by
    have hle : s ≤ w := Nat.le_of_mul_le_mul_right hluma hh
    omega
  have hrows : w * h = 2 * (h / 2 * w) + h % 2 * w := by
    have hh2 : h = 2 * (h / 2) + h % 2 := by omega
    calc w * h = w * (2 * (h / 2) + h % 2) := by rw [← hh2]
      _ = w * (2 * (h / 2)) + w * (h % 2) := Nat.mul_add ..
      _ = 2 * (h / 2 * w) + h % 2 * w := by rw [Nat.mul_left_comm, Nat.mul_comm w (h / 2), Nat.mul_comm w (h % 2)]
  rw [hsw] at hchroma
  unfold half at hchroma
  rcases Nat.mod_two_eq_zero_or_one h with heven | hodd
  · -- The last chroma row ends in a pair of which half is in the picture.
    rw [heven, Nat.zero_mul, Nat.add_zero] at hrows
    rw [hrows, show (h + 1) / 2 - 1 = h / 2 - 1 by omega, Nat.sub_mul, Nat.one_mul] at hchroma
    have hone : w ≤ h / 2 * w := Nat.le_mul_of_pos_left w (by omega)
    omega
  · -- The last chroma row is missing.
    rw [hodd, Nat.one_mul] at hrows
    rw [hrows, show (h + 1) / 2 - 1 = h / 2 by omega] at hchroma
    omega

end

/-- The picture that is packed and converted shows the decoder's buffer, just where its width and height are even. -/
theorem repack_shows_iff (src : List UInt8) {w h stride coded_h s : ℕ} (hw : 0 < w) (hh : 0 < h) (hstride : w ≤ stride)
    (hcoded : h ≤ coded_h) (hsrc : stride * coded_h + (half h - 1) * stride + half w * 2 ≤ src.length)
    (hs : s = w ∨ s = half w * 2) :
    (∃ tight rgba, nv12RepackTight src w h stride coded_h = some (some tight) ∧
        nv12ToRgba (tight.take (w * h)) (tight.drop (w * h)) w h s = some (some rgba) ∧ rgba.length = w * h * 4 ∧
        ∀ y < h, ∀ x < w, cell 4 w rgba x y = shownAt src src (y * stride) (stride * coded_h + y / 2 * stride) x) ↔
      w % 2 = 0 ∧ h % 2 = 0 := by
  constructor
  · rintro ⟨tight, rgba, htight, hrgba, -, -⟩
    exact even_of_nv12ToRgba hw hh (length_nv12RepackTight htight) hrgba
  · intro heven
    obtain ⟨tight, htight, hluma, hchroma⟩ := nv12RepackTight_even hw hh hstride hcoded hsrc heven
    have hpair : half w * 2 = w := by
      unfold half
      omega
    obtain rfl : s = w := by omega
    have hlen := length_nv12RepackTight htight
    have hrows : (half h - 1) * s + half s * 2 ≤ s * h * 3 / 2 - s * h := by
      have hprod : s * h = 2 * (half h * s) :=
        calc s * h = s * (half h * 2) := by rw [show half h * 2 = h by unfold half; omega]
          _ = 2 * (half h * s) := by rw [← Nat.mul_assoc, Nat.mul_comm _ 2, Nat.mul_comm s]
      have hone : s ≤ half h * s := Nat.le_mul_of_pos_left s (by unfold half; omega)
      rw [hpair, Nat.sub_mul, Nat.one_mul]
      omega
    have hall := @nv12ToRgba_eq (tight.take (s * h)) (tight.drop (s * h)) s h s
      (Nat.le_refl s) (by rw [List.length_take, hlen]; omega)
      (by rw [List.length_drop, hlen, Nat.add_sub_cancel_left]; exact hrows)
    refine ⟨tight, _, htight, hall, ?_, fun y hy x hx => ?_⟩
    · rw [length_flatMap_range fun _ _ => length_shownRow .., ← Nat.mul_assoc, Nat.mul_comm h]
    · have hin : y * s + x < s * h := by
        rw [Nat.mul_comm s]
        exact add_lt_of_row hy hx
      have hpix : x / 2 * 2 + 1 < s := by
        unfold half at hpair
        omega
      have hrow : y / 2 < half h := by
        unfold half
        omega
      have hchromaAt : ∀ x < s, byteAt (tight.drop (s * h)) (y / 2 * s + x) =
          byteAt src (stride * coded_h + y / 2 * stride + x) := by
        intro x hx
        rw [Nat.add_assoc]
        refine byteAt_congr ?_
        rw [List.getElem?_drop, hchroma (y / 2) hrow x hx]
      have hlumaAt : byteAt (tight.take (s * h)) (y * s + x) = byteAt src (y * stride + x) := by
        refine byteAt_congr ?_
        rw [List.getElem?_take, if_pos hin, hluma y hy x hx]
      rw [cell_flatMap_range (fun _ _ => length_shownRow ..) hy hx, take_drop_shownRow _ _ hx]
      unfold shownAt
      rw [hlumaAt, hchromaAt _ (by omega), Nat.add_assoc (y / 2 * s), hchromaAt _ hpix, Nat.add_assoc (_ + _) _ 1]

/-- A picture of four by two pixels, in rows of six. -/
theorem repack_shows_iff_padded : ∃ tight rgba, nv12RepackTight (List.replicate 18 100) 4 2 6 2 = some (some tight) ∧
      nv12ToRgba (tight.take (4 * 2)) (tight.drop (4 * 2)) 4 2 4 = some (some rgba) ∧ rgba.length = 4 * 2 * 4 ∧
      ∀ y < 2, ∀ x < 4, cell 4 4 rgba x y =
        shownAt (List.replicate 18 100) (List.replicate 18 100) (y * 6) (6 * 2 + y / 2 * 6) x :=
  (repack_shows_iff (List.replicate 18 100) (by decide) (by decide) (by decide) (by decide) (by decide)
    (.inl rfl)).2 ⟨rfl, rfl⟩

/-- Two by three pixels: the second chroma row is not packed, and the conversion asks for it. -/
theorem repack_odd_height :
    nv12RepackTight [1, 2, 3, 4, 5, 6, 7, 8, 9, 10] 2 3 2 3 = some (some [1, 2, 3, 4, 5, 6, 7, 8, 128]) ∧
      nv12ToRgba [1, 2, 3, 4, 5, 6] [7, 8, 128] 2 3 2 = some none := by decide

end Rdpio.Graphics.Yuv
