import Mathlib.Data.Int.Notation
import Rdpio.Lib.Checked
import Rdpio.Lib.Chunks

/-!
# YUV to RGBA

`crates/rdp-graphics/src/yuv.rs`: NV12 pictures as a decoder leaves them are packed tightly and converted to
RGBA, and the chroma of an AVC444 pair is put together.
-/

namespace Rdpio.Graphics.Yuv

open Lib

def half (a : ℕ) : ℕ := (a + 1) / 2

def clamp (v : ℤ) : UInt8 := UInt8.ofNat (max 0 (min v 255)).toNat

def yuvToRgb (yy u v : ℤ) : UInt8 × UInt8 × UInt8 :=
  let c := 298 * (yy - 16)
  let d := u - 128
  let e := v - 128
  (clamp ((c + 459 * e + 128) / 256), clamp ((c - 55 * d - 136 * e + 128) / 256), clamp ((c + 541 * d + 128) / 256))

def rgba (c : UInt8 × UInt8 × UInt8) : List UInt8 := [c.1, c.2.1, c.2.2, 0xFF]

def lanes (f : ℤ → ℤ → ℤ → ℤ) (y u v : Vector ℤ 4) : Vector ℤ 4 := Vector.ofFn fun i => f y[i] u[i] v[i]

/-- Four pixels at once. -/
def yuvToRgba4x (y u v : Vector ℤ 4) : List UInt8 :=
  let r := lanes (fun y _ v => max 0 (min (((y - 16) * 298 + (v - 128) * 459 + 128) / 256) 255)) y u v
  let g := lanes (fun y u v => max 0 (min (((y - 16) * 298 - (u - 128) * 55 - (v - 128) * 136 + 128) / 256) 255)) y u v
  let b := lanes (fun y u _ => max 0 (min (((y - 16) * 298 + (u - 128) * 541 + 128) / 256) 255)) y u v
  (List.finRange 4).flatMap fun i => [UInt8.ofNat r[i].toNat, UInt8.ofNat g[i].toNat, UInt8.ofNat b[i].toNat, 0xFF]

/-! ## NV12 -/

def sample (row : List UInt8) (i : ℕ) : Option ℤ := row[i]?.map fun b => (b.toNat : ℤ)

def simdChunks (yr uvr : List UInt8) (width : ℕ) : ℕ → ℕ → List UInt8 → Option (ℕ × List UInt8)
  | 0, x, dst => some (x, dst)
  | turns + 1, x, dst =>
    if width < x + 4 then some (x, dst)
    else do
      let y0 ← sample yr x
      let y1 ← sample yr (x + 1)
      let y2 ← sample yr (x + 2)
      let y3 ← sample yr (x + 3)
      let u0 ← sample uvr x
      let v0 ← sample uvr (x + 1)
      let u1 ← sample uvr (x + 2)
      let v1 ← sample uvr (x + 3)
      let dst ← copyTo dst (x * 4) (x * 4 + 16) (yuvToRgba4x #v[y0, y1, y2, y3] #v[u0, u0, u1, u1] #v[v0, v0, v1, v1])
      simdChunks yr uvr width turns (x + 4) dst

def scalarPixel (yr uvr dst : List UInt8) (x : ℕ) : Option (List UInt8) := do
  let uv_x := x / 2 * 2
  let y ← sample yr x
  let u ← sample uvr uv_x
  let v ← sample uvr (uv_x + 1)
  copyTo dst (x * 4) (x * 4 + 4) (rgba (yuvToRgb y u v))

/-- One row, over what `dst` holds. -/
def nv12Row (y_plane uv_plane : List UInt8) (width stride y : ℕ) (dst : List UInt8) : Option (List UInt8) := do
  let yr ← Lib.slice y_plane (y * stride) (y * stride + width)
  let uvr ← Lib.slice uv_plane (y / 2 * stride) (y / 2 * stride + half width * 2)
  let (x, dst) ← simdChunks yr uvr width width 0 dst
  (List.range' x (width - x)).foldlM (scalarPixel yr uvr) dst

def nv12RowsToRgba (y_plane uv_plane : List UInt8) (width stride first : ℕ) (out : List UInt8) : Option (List UInt8) :=
  (((chunks (width * 4) out).zipIdx first).mapM fun row => nv12Row y_plane uv_plane width stride row.2 row.1).map
    List.flatten

def nv12ToRgbaInto (y_plane uv_plane : List UInt8) (width height stride : ℕ) (out : List UInt8) (threads : ℕ) :
    Option (Bool × List UInt8) :=
  let uv_rows := half height
  let uv_need := if uv_rows = 0 then 0 else (uv_rows - 1) * stride + half width * 2
  if stride < width ∨ y_plane.length < stride * height ∨ uv_plane.length < uv_need then some (false, out)
  else
    let row_bytes := width * 4
    let out := out.take (row_bytes * height) ++ List.replicate (row_bytes * height - out.length) 0
    if row_bytes = 0 ∨ height = 0 then some (true, out)
    else
      let threads := max 1 (min threads height)
      let rows := (height + threads - 1) / threads
      (((chunks (rows * row_bytes) out).zipIdx).mapM fun share =>
        nv12RowsToRgba y_plane uv_plane width stride (share.2 * rows) share.1).map fun shares => (true, shares.flatten)

def nv12ToRgba (y_plane uv_plane : List UInt8) (width height stride : ℕ) : Option (Option (List UInt8)) :=
  (nv12ToRgbaInto y_plane uv_plane width height stride [] 1).map fun result => if result.1 then some result.2 else none

def repackRows (src : List UInt8) (src_at dst_at width stride : ℕ) : ℕ → ℕ → List UInt8 → Option (List UInt8)
  | 0, _, out => some out
  | rows + 1, row, out =>
    let s := src_at + row * stride
    if src.length < s + width then some out
    else do
      let part ← Lib.slice src s (s + width)
      let out ← copyTo out (dst_at + row * width) (dst_at + row * width + width) part
      repackRows src src_at dst_at width stride rows (row + 1) out

def nv12RepackTight (src : List UInt8) (width height stride coded_h : ℕ) : Option (Option (List UInt8)) :=
  if width = 0 ∨ height = 0 ∨ stride < width then some none
  else do
    let luma := width * height
    let out := List.replicate luma 0 ++ List.replicate (width * height * 3 / 2 - luma) 128
    let out ← repackRows src 0 0 width stride height 0 out
    let out ← repackRows src (stride * coded_h) luma width stride (height / 2) 0 out
    return some out

/-- The chroma of a picture, a sample for each pixel. -/
structure Planes where
  u : List UInt8
  v : List UInt8

def Planes.set (p : Planes) (w h yy xx : ℕ) (u v : UInt8) : Option Planes :=
  if yy < h ∧ xx < w then do
    let u ← put p.u (yy * w + xx) u
    let v ← put p.v (yy * w + xx) v
    return ⟨u, v⟩
  else some p

def baseBlock (main_u main_v : List UInt8) (w h cy : ℕ) (p : Planes) (cx : ℕ) : Option Planes := do
  let um ← main_u[cy * half w + cx]?
  let vm ← main_v[cy * half w + cx]?
  [(0, 0), (0, 1), (1, 0), (1, 1)].foldlM (fun (p : Planes) (d : ℕ × ℕ) =>
    p.set w h (2 * cy + d.1) (2 * cx + d.2) um vm) p

def auxBlock (aux_u aux_v : List UInt8) (w h cy : ℕ) (p : Planes) (cx : ℕ) : Option Planes :=
  if 2 * cy < h ∧ 2 * cx + 1 < w then do
    let ua ← aux_u[cy * half w + cx]?
    let va ← aux_v[cy * half w + cx]?
    p.set w h (2 * cy) (2 * cx + 1) ua va
  else some p

structure Bands where
  planes : Planes
  uy : ℕ
  vy : ℕ

def bandRow (aux_y : List UInt8) (w h : ℕ) (b : Bands) (sy : ℕ) : Option Bands :=
  if sy % 16 < 8 then
    let pos := 2 * b.uy + 1
    let b := { b with uy := b.uy + 1 }
    if h ≤ pos then some b
    else do
      let src ← Lib.slice aux_y (sy * w) (sy * w + w)
      let u ← copyTo b.planes.u (pos * w) (pos * w + w) src
      return { b with planes := { b.planes with u } }
  else
    let pos := 2 * b.vy + 1
    let b := { b with vy := b.vy + 1 }
    if h ≤ pos then some b
    else do
      let src ← Lib.slice aux_y (sy * w) (sy * w + w)
      let v ← copyTo b.planes.v (pos * w) (pos * w + w) src
      return { b with planes := { b.planes with v } }

def blocks (block : ℕ → Planes → ℕ → Option Planes) (w h : ℕ) (p : Planes) : Option Planes :=
  (List.range (half h)).foldlM (fun p cy => (List.range (half w)).foldlM (block cy) p) p

/-- The planes have the sizes that are asked for. -/
def Sized (main_u main_v aux_y aux_u aux_v : List UInt8) (w h aux_h : ℕ) : Prop :=
  (w ≠ 0 ∧ h ≠ 0) ∧ half w * half h ≤ main_u.length ∧ half w * half h ≤ main_v.length ∧
    half w * half h ≤ aux_u.length ∧ half w * half h ≤ aux_v.length ∧ w * aux_h ≤ aux_y.length

instance (main_u main_v aux_y aux_u aux_v : List UInt8) (w h aux_h : ℕ) :
    Decidable (Sized main_u main_v aux_y aux_u aux_v w h aux_h) := inferInstanceAs (Decidable (_ ∧ _))

def combineAvc444ToYuv444 (main_u main_v aux_y aux_u aux_v : List UInt8) (w h aux_h : ℕ) : Option (Option Planes) :=
  if ¬ Sized main_u main_v aux_y aux_u aux_v w h aux_h then some none
  else do
    let p : Planes := ⟨List.replicate (w * h) 0, List.replicate (w * h) 0⟩
    let p ← blocks (baseBlock main_u main_v w h) w h p
    let p ← blocks (auxBlock aux_u aux_v w h) w h p
    let b ← (List.range aux_h).foldlM (bandRow aux_y w h) ⟨p, 0, 0⟩
    return some b.planes

end Rdpio.Graphics.Yuv
