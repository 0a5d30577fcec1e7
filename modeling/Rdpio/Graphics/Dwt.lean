import Mathlib.Tactic.Ring
import Rdpio.Graphics.Rlgr
import Rdpio.Lib.Loops

/-!
# The inverse wavelet transforms

`dwt_2d_decode` and `dwt_2d_extrapolate_decode` of `crates/rdp-graphics/src/progressive.rs`: three levels,
each a horizontal pass from the plane into a scratch plane and a vertical pass back.
-/

namespace Rdpio.Graphics

open Lib

abbrev Plane := Vector Int16 4096

def coeff (v : Plane) (i : ℕ) : ℤ := (read v i).toInt

def half (v : ℤ) : ℤ := v.shiftRight 1

def clampi16 (v : ℤ) : Int16 := Int16.ofInt (max (-32768) (min v 32767))

structure DwtRow where
  ll : ℕ
  hl : ℕ
  lh : ℕ
  hh : ℕ
  l_dst : ℕ
  h_dst : ℕ

def dwtRow (base sw y : ℕ) : DwtRow where
  ll := base + sw * sw * 3 + y * sw
  hl := base + y * sw
  lh := base + sw * sw + y * sw
  hh := base + sw * sw * 2 + y * sw
  l_dst := y * (2 * sw)
  h_dst := sw * sw * 2 + y * (2 * sw)

namespace DwtRow

/-- The first even coefficient of both halves. -/
def first (r : DwtRow) (buf idwt : Plane) : Plane :=
  let idwt := write idwt r.l_dst
    (clampi16 (coeff buf r.ll - half (coeff buf r.hl + coeff buf r.hl + 1)))
  write idwt r.h_dst (clampi16 (coeff buf r.lh - half (coeff buf r.hh + coeff buf r.hh + 1)))

/-- Even coefficient `n = m + 1` of both halves. -/
def even (r : DwtRow) (buf idwt : Plane) (m : ℕ) : Plane :=
  let n := m + 1
  let x := 2 * n
  let idwt := write idwt (r.l_dst + x)
    (clampi16 (coeff buf (r.ll + n) - half (coeff buf (r.hl + n - 1) + coeff buf (r.hl + n) + 1)))
  write idwt (r.h_dst + x)
    (clampi16 (coeff buf (r.lh + n) - half (coeff buf (r.hh + n - 1) + coeff buf (r.hh + n) + 1)))

def odd (r : DwtRow) (buf idwt : Plane) (n : ℕ) : Plane :=
  let x := 2 * n
  let ld := coeff buf (r.hl + n) * 2 +
    half (coeff idwt (r.l_dst + x) + coeff idwt (r.l_dst + x + 2))
  let hd := coeff buf (r.hh + n) * 2 +
    half (coeff idwt (r.h_dst + x) + coeff idwt (r.h_dst + x + 2))
  write (write idwt (r.l_dst + x + 1) (clampi16 ld)) (r.h_dst + x + 1) (clampi16 hd)

/-- The last odd coefficient of both halves. -/
def last (r : DwtRow) (buf idwt : Plane) (sw : ℕ) : Plane :=
  let n := sw - 1
  let x := 2 * n
  let idwt := write idwt (r.l_dst + x + 1)
    (clampi16 (coeff buf (r.hl + n) * 2 + coeff idwt (r.l_dst + x)))
  write idwt (r.h_dst + x + 1) (clampi16 (coeff buf (r.hh + n) * 2 + coeff idwt (r.h_dst + x)))

def run (r : DwtRow) (buf : Plane) (sw : ℕ) (idwt : Plane) : Plane :=
  let idwt := r.first buf idwt
  let idwt := (List.range (sw - 1)).foldl (r.even buf) idwt
  let idwt := (List.range (sw - 1)).foldl (r.odd buf) idwt
  r.last buf idwt sw

end DwtRow

/-- What a column of the vertical pass carries. -/
structure DwtColumn where
  buf : Plane
  l : ℕ
  h : ℕ
  dst : ℕ

/-- The first coefficient of column `x`. -/
def DwtColumn.start (idwt : Plane) (base sw : ℕ) (buf : Plane) (x : ℕ) : DwtColumn :=
  let h := x + sw * (2 * sw)
  let dst := base + x
  { buf := write buf dst (clampi16 (coeff idwt x - half (coeff idwt h * 2 + 1))), l := x, h, dst }

/-- Two coefficients further down the column. -/
def DwtColumn.next (idwt : Plane) (total : ℕ) (c : DwtColumn) : DwtColumn :=
  let l := c.l + total
  let h := c.h + total
  let even := coeff idwt l - half (coeff idwt (h - total) + coeff idwt h + 1)
  let buf := write c.buf (c.dst + 2 * total) (clampi16 even)
  let odd := coeff idwt (h - total) * 2 + half (coeff buf c.dst + coeff buf (c.dst + 2 * total))
  { buf := write buf (c.dst + total) (clampi16 odd), l, h, dst := c.dst + 2 * total }

/-- Column `x` of the vertical pass. -/
def dwtColumn (idwt : Plane) (base sw : ℕ) (buf : Plane) (x : ℕ) : Plane :=
  let total := 2 * sw
  let c := (List.range (sw - 1)).foldl (fun (c : DwtColumn) _ => c.next idwt total)
    (DwtColumn.start idwt base sw buf x)
  write c.buf (c.dst + total) (clampi16 (coeff idwt c.h * 2 + half (coeff c.buf c.dst * 2)))

/-- One level over the block at `base`. -/
def dwtBlock (buf : Plane) (base : ℕ) (idwt : Plane) (sw : ℕ) : Plane × Plane :=
  let idwt := (List.range sw).foldl (fun idwt y => (dwtRow base sw y).run buf sw idwt) idwt
  ((List.range (2 * sw)).foldl (dwtColumn idwt base sw) buf, idwt)

def dwt2dDecode (buf idwt : Plane) : Plane × Plane :=
  let (buf, idwt) := dwtBlock buf 3840 idwt 8
  let (buf, idwt) := dwtBlock buf 3072 idwt 16
  dwtBlock buf 0 idwt 32

def bandLCount (level : ℕ) : ℕ := (64 >>> level) + 1

def bandHCount (level : ℕ) : ℕ := if level = 1 then (64 >>> 1) - 1 else (64 + 1 <<< (level - 1)) >>> level

/-- What the lifting of one line carries. -/
structure Lift where
  dst : Plane
  p_l : ℕ
  p_h : ℕ
  p_x : ℕ
  h0 : ℤ
  x0 : ℤ
  x2 : ℤ

structure Steps where
  low : ℕ
  high : ℕ
  dst : ℕ

/-- The first coefficients of the line. -/
def Lift.start (src : Plane) (st : Steps) (p_l p_h p_x : ℕ) (dst : Plane) : Lift :=
  let h0 := coeff src p_h
  let l0 := coeff src p_l
  let x0 := (clampi16 (l0 - h0)).toInt
  { dst, p_l := p_l + st.low, p_h := p_h + st.high, p_x, h0, x0, x2 := x0 }

def Lift.next (src : Plane) (st : Steps) (s : Lift) : Lift :=
  let h1 := coeff src s.p_h
  let l0 := coeff src s.p_l
  let x2 := (clampi16 (l0 - (s.h0 + h1).tdiv 2)).toInt
  let x1 := clampi16 ((s.x0 + x2).tdiv 2 + 2 * s.h0)
  { dst := write (write s.dst s.p_x (clampi16 s.x0)) (s.p_x + st.dst) x1
    p_l := s.p_l + st.low, p_h := s.p_h + st.high, p_x := s.p_x + 2 * st.dst
    h0 := h1, x0 := x2, x2 }

def Lift.finish (src : Plane) (st : Steps) (n_low n_high : ℕ) (s : Lift) : Plane :=
  let dst := write s.dst s.p_x (clampi16 s.x2)
  if n_low ≤ n_high then write dst (s.p_x + st.dst) (clampi16 (s.x2 + 2 * s.h0))
  else if n_low ≤ n_high + 1 then
    let x0 := (clampi16 (coeff src s.p_l - s.h0)).toInt
    let dst := write dst (s.p_x + st.dst) (clampi16 ((x0 + s.x2).tdiv 2 + 2 * s.h0))
    write dst (s.p_x + 2 * st.dst) (clampi16 x0)
  else
    let x0 := (clampi16 (coeff src s.p_l - s.h0.tdiv 2)).toInt
    let dst := write dst (s.p_x + st.dst) (clampi16 ((x0 + s.x2).tdiv 2 + 2 * s.h0))
    let dst := write dst (s.p_x + 2 * st.dst) (clampi16 x0)
    let l0 := coeff src (s.p_l + st.low)
    write dst (s.p_x + 3 * st.dst) (clampi16 ((x0 + l0).tdiv 2))

def liftLine (src : Plane) (st : Steps) (n_low n_high p_l p_h p_x : ℕ) (dst : Plane) : Plane :=
  ((List.range (n_high - 1)).foldl (fun s _ => s.next src st) (Lift.start src st p_l p_h p_x dst)).finish
    src st n_low n_high

def idwtX (src : Plane) (low_off high_off : ℕ) (dst : Plane)
    (dst_off low_step high_step dst_step n_low n_high n_dst : ℕ) : Plane :=
  (List.range n_dst).foldl (fun dst i =>
    liftLine src ⟨1, 1, 1⟩ n_low n_high (low_off + i * low_step) (high_off + i * high_step)
      (dst_off + i * dst_step) dst) dst

def idwtY (src : Plane) (low_off high_off : ℕ) (dst : Plane)
    (dst_off low_step high_step dst_step n_low n_high n_dst : ℕ) : Plane :=
  (List.range n_dst).foldl (fun dst i =>
    liftLine src ⟨low_step, high_step, dst_step⟩ n_low n_high (low_off + i) (high_off + i) (dst_off + i) dst) dst

/-- One level over the block at `base`. -/
def dwtExtrapolateBlock (buf : Plane) (base : ℕ) (temp : Plane) (level : ℕ) : Plane × Plane :=
  let n_l := bandLCount level
  let n_h := bandHCount level
  let hl := base
  let lh := base + n_h * n_l
  let hh := base + 2 * n_l * n_h
  let ll := base + 2 * n_l * n_h + n_h * n_h
  let dst_step := n_l + n_h
  let l := 0
  let h := n_l * dst_step
  let temp := idwtX buf ll hl temp l n_l n_h dst_step n_l n_h n_l
  let temp := idwtX buf lh hh temp h n_l n_h dst_step n_l n_h n_h
  (idwtY temp l h buf base dst_step dst_step dst_step n_l n_h (n_l + n_h), temp)

def dwt2dExtrapolateDecode (buf temp : Plane) : Plane × Plane :=
  let (buf, temp) := dwtExtrapolateBlock buf 3807 temp 3
  let (buf, temp) := dwtExtrapolateBlock buf 3007 temp 2
  dwtExtrapolateBlock buf 0 temp 1

theorem coeff_congr {S : ℕ → Prop} {v w : Plane} {i : ℕ} (h : AgreeOn S v w) (hi : S i) : coeff v i = coeff w i := by
  rw [coeff, coeff, h i hi]

/-! ### The classic variant: the scratch plane -/

namespace DwtRow

variable {S : ℕ → Prop} {v w : Plane}

/-- The positions of the row that hold its first `evens` even and `odds` odd coefficients. -/
def Written (r : DwtRow) (evens odds i : ℕ) : Prop :=
  (r.l_dst ≤ i ∧ i < r.l_dst + 2 * (if (i - r.l_dst) % 2 = 0 then evens else odds)) ∨
    (r.h_dst ≤ i ∧ i < r.h_dst + 2 * (if (i - r.h_dst) % 2 = 0 then evens else odds))

theorem even_agree (r : DwtRow) (buf : Plane) {m : ℕ}
    (h : AgreeOn (fun i => S i ∨ r.Written (m + 1) 0 i) v w) :
    AgreeOn (fun i => S i ∨ r.Written (m + 2) 0 i) (r.even buf v m) (r.even buf w m) := by
  refine ((h.write _ rfl).write _ rfl).mono fun i hi => ?_
  grind [Written]

theorem odd_agree (r : DwtRow) (buf : Plane) {sw n : ℕ} (hn : n + 1 < sw)
    (h : AgreeOn (fun i => S i ∨ r.Written sw n i) v w) :
    AgreeOn (fun i => S i ∨ r.Written sw (n + 1) i) (r.odd buf v n) (r.odd buf w n) := by
  -- The even coefficients on both sides of an odd one are already there.
  have heven : ∀ k ≤ n + 1, coeff v (r.l_dst + 2 * k) = coeff w (r.l_dst + 2 * k) ∧
      coeff v (r.h_dst + 2 * k) = coeff w (r.h_dst + 2 * k) := by
    intro k hk
    constructor
    · exact coeff_congr h (.inr (.inl ⟨by omega, by rw [if_pos (by omega)]; omega⟩))
    · exact coeff_congr h (.inr (.inr ⟨by omega, by rw [if_pos (by omega)]; omega⟩))
  obtain ⟨hl, hh⟩ := heven n (by omega)
  obtain ⟨hl', hh'⟩ := heven (n + 1) (by omega)
  rw [show 2 * (n + 1) = 2 * n + 2 by ring, ← Nat.add_assoc] at hl' hh'
  rw [odd, odd, hl, hh, hl', hh']
  refine ((h.write _ rfl).write _ rfl).mono fun i hi => ?_
  grind [Written]

theorem last_agree (r : DwtRow) (buf : Plane) {sw : ℕ} (hsw : 0 < sw)
    (h : AgreeOn (fun i => S i ∨ r.Written sw (sw - 1) i) v w) :
    AgreeOn (fun i => S i ∨ r.Written sw sw i) (r.last buf v sw) (r.last buf w sw) := by
  have hl : coeff v (r.l_dst + 2 * (sw - 1)) = coeff w (r.l_dst + 2 * (sw - 1)) :=
    coeff_congr h (.inr (.inl ⟨by omega, by rw [if_pos (by omega)]; omega⟩))
  have hwl := h.write (r.l_dst + 2 * (sw - 1) + 1)
    (congrArg (fun c => clampi16 (coeff buf (r.hl + (sw - 1)) * 2 + c)) hl)
  have hh := coeff_congr hwl (.inl (.inr (.inr ⟨Nat.le_add_right _ (2 * (sw - 1)), by rw [if_pos (by omega)]; omega⟩)))
  refine (hwl.write (r.h_dst + 2 * (sw - 1) + 1)
    (congrArg (fun c => clampi16 (coeff buf (r.hh + (sw - 1)) * 2 + c)) hh)).mono fun i hi => ?_
  grind [Written]

theorem run_agree (r : DwtRow) (buf : Plane) {sw : ℕ} (hsw : 0 < sw) (h : AgreeOn S v w) :
    AgreeOn (fun i => S i ∨ (r.l_dst ≤ i ∧ i < r.l_dst + 2 * sw) ∨
      (r.h_dst ≤ i ∧ i < r.h_dst + 2 * sw)) (r.run buf sw v) (r.run buf sw w) := by
  have hfirst : AgreeOn (fun i => S i ∨ r.Written (0 + 1) 0 i) (r.first buf v) (r.first buf w) := by
    refine ((h.write _ rfl).write _ rfl).mono fun i hi => ?_
    grind [Written]
  have hevens := foldl_range_rel (n := sw - 1)
    (fun k v w => AgreeOn (fun i => S i ∨ r.Written (k + 1) 0 i) v w) hfirst
    (fun m v w _ h => r.even_agree buf h)
  rw [Nat.sub_add_cancel hsw] at hevens
  have hodds := foldl_range_rel (n := sw - 1)
    (fun k v w => AgreeOn (fun i => S i ∨ r.Written sw k i) v w) hevens
    (fun n v w hn h => r.odd_agree buf (by omega) h)
  refine (r.last_agree buf hsw hodds).mono fun i hi => ?_
  simp only [Written, ite_self]
  exact hi

end DwtRow

theorem dwtRows_agree (buf : Plane) (base : ℕ) {sw : ℕ} (hsw : 0 < sw) (v w : Plane) :
    AgreeOn (fun i => i < 2 * (sw * (2 * sw)))
      ((List.range sw).foldl (fun idwt y => (dwtRow base sw y).run buf sw idwt) v)
      ((List.range sw).foldl (fun idwt y => (dwtRow base sw y).run buf sw idwt) w) := by
  have hrows := foldl_range_rel (n := sw) (s := v) (t := w)
    (f := fun idwt y => (dwtRow base sw y).run buf sw idwt)
    (g := fun idwt y => (dwtRow base sw y).run buf sw idwt)
    (fun y v w => AgreeOn (fun i => i < y * (2 * sw) ∨ (sw * sw * 2 ≤ i ∧ i < sw * sw * 2 + y * (2 * sw))) v w)
    (fun i hi => by omega)
    (fun y v w _ h => ((dwtRow base sw y).run_agree buf hsw h).mono fun i hi => by
      simp only [dwtRow]
      rw [Nat.succ_mul] at hi
      omega)
  refine hrows.mono fun i hi => ?_
  rw [show sw * sw * 2 = sw * (2 * sw) by ring]
  omega

theorem DwtColumn.next_congr {v w : Plane} {total : ℕ} {c : DwtColumn}
    (h : AgreeOn (fun i => i ≤ c.h + total) v w) (hl : c.l ≤ c.h) :
    c.next v total = c.next w total := by
  rw [next, next, coeff_congr h (show c.l + total ≤ c.h + total by omega),
    coeff_congr h (show c.h + total ≤ c.h + total by omega),
    coeff_congr h (show c.h + total - total ≤ c.h + total by omega)]

theorem dwtColumn_congr {v w : Plane} (base : ℕ) {sw x : ℕ} (hsw : 0 < sw) (hx : x < 2 * sw)
    (h : AgreeOn (fun i => i < 2 * (sw * (2 * sw))) v w) (buf : Plane) :
    dwtColumn v base sw buf x = dwtColumn w base sw buf x := by
  have hrow : ∀ k < sw, k * (2 * sw) + 2 * sw ≤ sw * (2 * sw) := by
    intro k hk
    rw [← Nat.succ_mul]
    exact Nat.mul_le_mul_right _ hk
  have hfirst := hrow 0 hsw
  have hlast := hrow (sw - 1) (by omega)
  have hstart : DwtColumn.start v base sw buf x = DwtColumn.start w base sw buf x := by
    rw [DwtColumn.start, DwtColumn.start, coeff_congr h (show x < 2 * (sw * (2 * sw)) by omega),
      coeff_congr h (show x + sw * (2 * sw) < 2 * (sw * (2 * sw)) by omega)]
  have hloop := foldl_range_rel (n := sw - 1)
    (f := fun c _ => c.next v (2 * sw)) (g := fun c _ => c.next w (2 * sw))
    (s := DwtColumn.start v base sw buf x) (t := DwtColumn.start w base sw buf x)
    (fun k c d => c = d ∧ c.l = x + k * (2 * sw) ∧ c.h = x + sw * (2 * sw) + k * (2 * sw))
    ⟨hstart, by simp [DwtColumn.start], by simp [DwtColumn.start]⟩
    (fun k c d hk ⟨hcd, hl, hh⟩ => by
      subst hcd
      have hbelow := hrow (k + 1) (by omega)
      have hsucc : (k + 1) * (2 * sw) = k * (2 * sw) + 2 * sw := Nat.succ_mul k (2 * sw)
      refine ⟨DwtColumn.next_congr (h.mono fun i hi => ?_) (by omega), ?_, ?_⟩
      · omega
      · simp only [DwtColumn.next]
        omega
      · simp only [DwtColumn.next]
        omega)
  rw [dwtColumn, dwtColumn]
  generalize (List.range (sw - 1)).foldl _ _ = c at hloop ⊢
  generalize (List.range (sw - 1)).foldl _ _ = d at hloop ⊢
  obtain ⟨rfl, -, hh⟩ := hloop
  rw [coeff_congr h (show c.h < 2 * (sw * (2 * sw)) by omega)]

theorem dwtBlock_scratch (buf : Plane) (base : ℕ) {sw : ℕ} (hsw : 0 < sw) (v w : Plane) :
    (dwtBlock buf base v sw).1 = (dwtBlock buf base w sw).1 := by
  have hagree := dwtRows_agree buf base hsw v w
  rw [dwtBlock, dwtBlock]
  generalize (List.range sw).foldl _ v = v at hagree ⊢
  generalize (List.range sw).foldl _ w = w at hagree ⊢
  exact foldl_range_rel (n := 2 * sw) (fun _ buf buf' => buf = buf') rfl fun x buf _ hx hbuf => by
    subst hbuf
    exact dwtColumn_congr base hsw hx hagree buf

theorem dwt2dDecode_scratch (buf v w : Plane) : (dwt2dDecode buf v).1 = (dwt2dDecode buf w).1 := by
  rw [dwt2dDecode, dwt2dDecode]
  simp only
  rw [dwtBlock_scratch buf 3840 (by decide) v w,
    dwtBlock_scratch _ 3072 (by decide) (dwtBlock buf 3840 v 8).2 (dwtBlock buf 3840 w 8).2]
  exact dwtBlock_scratch _ 0 (by decide) _ _

/-! ### The reduce-extrapolate variant: the scratch plane -/

structure Lift.Alongside (S : ℕ → Prop) (st : Steps) (p_l p_h p_x k : ℕ) (s t : Lift) : Prop where
  low : s.p_l = p_l + (k + 1) * st.low ∧ t.p_l = s.p_l
  high : s.p_h = p_h + (k + 1) * st.high ∧ t.p_h = s.p_h
  dst : s.p_x = p_x + 2 * k * st.dst ∧ t.p_x = s.p_x
  carried : s.h0 = t.h0 ∧ s.x0 = t.x0 ∧ s.x2 = t.x2
  agree : AgreeOn (fun i => S i ∨ ∃ j < 2 * k, i = p_x + j * st.dst) s.dst t.dst

section

variable {S : ℕ → Prop} {src src' : Plane} {st : Steps} {n_low n_high p_l p_h p_x : ℕ}

theorem exists_lt_add_two {k i d : ℕ} (h : ∃ j < 2 * (k + 1), i = p_x + j * d) :
    (∃ j < 2 * k, i = p_x + j * d) ∨ i = p_x + 2 * k * d ∨ i = p_x + 2 * k * d + d := by
  obtain ⟨j, hj, rfl⟩ := h
  rcases Nat.lt_or_ge j (2 * k) with hlt | hge
  · exact .inl ⟨j, hlt, rfl⟩
  · obtain rfl | rfl : j = 2 * k ∨ j = 2 * k + 1 := by omega
    · exact .inr (.inl rfl)
    · exact .inr (.inr (by ring))

theorem Lift.start_alongside {v w : Plane} (h : AgreeOn S v w)
    (hlow : coeff src p_l = coeff src' p_l) (hhigh : coeff src p_h = coeff src' p_h) :
    Lift.Alongside S st p_l p_h p_x 0 (.start src st p_l p_h p_x v)
      (.start src' st p_l p_h p_x w) where
  low := by simp [start]
  high := by simp [start]
  dst := by simp [start]
  carried := by simp [start, hlow, hhigh]
  agree := h.mono fun i hi => hi.resolve_right fun ⟨j, hj, _⟩ => by omega

theorem Lift.next_alongside {k : ℕ} {s t : Lift} (h : Lift.Alongside S st p_l p_h p_x k s t)
    (hlow : coeff src (p_l + (k + 1) * st.low) = coeff src' (p_l + (k + 1) * st.low))
    (hhigh : coeff src (p_h + (k + 1) * st.high) = coeff src' (p_h + (k + 1) * st.high)) :
    Lift.Alongside S st p_l p_h p_x (k + 1) (s.next src st) (t.next src' st) := by
  obtain ⟨⟨hsl, htl⟩, ⟨hsh, hth⟩, ⟨hsx, htx⟩, ⟨hh0, hx0, hx2⟩, hagree⟩ := h
  rw [← hsl] at hlow
  rw [← hsh] at hhigh
  refine ⟨⟨?_, ?_⟩, ⟨?_, ?_⟩, ⟨?_, ?_⟩, ⟨?_, ?_, ?_⟩, ?_⟩
  · simp only [next, hsl]
    ring
  · simp only [next, htl]
  · simp only [next, hsh]
    ring
  · simp only [next, hth]
  · simp only [next, hsx]
    ring
  · simp only [next, htx]
  · simp only [next, hth, hhigh]
  · simp only [next, htl, hth, hlow, hhigh, hh0]
  · simp only [next, htl, hth, hlow, hhigh, hh0]
  · simp only [next, htl, hth, htx, hlow, hhigh, hh0, hx0]
    refine ((hagree.write s.p_x rfl).write (s.p_x + st.dst) rfl).mono fun i hi => ?_
    rw [hsx]
    rcases hi with hi | hi
    · exact .inl (.inl (.inl hi))
    · rcases exists_lt_add_two hi with hi | hi | hi
      · exact .inl (.inl (.inr hi))
      · exact .inl (.inr hi)
      · exact .inr hi

theorem liftLine_agree (st : Steps) (p_l p_h p_x : ℕ) {v w : Plane} (h : AgreeOn S v w)
    (hpos : 0 < n_high) (hle : n_high ≤ n_low) (hle' : n_low ≤ n_high + 2)
    (hlow : ∀ j < n_low, coeff src (p_l + j * st.low) = coeff src' (p_l + j * st.low))
    (hhigh : ∀ j < n_high, coeff src (p_h + j * st.high) = coeff src' (p_h + j * st.high)) :
    AgreeOn (fun i => S i ∨ ∃ j < n_low + n_high, i = p_x + j * st.dst)
      (liftLine src st n_low n_high p_l p_h p_x v)
      (liftLine src' st n_low n_high p_l p_h p_x w) := by
  have hloop := foldl_range_rel (n := n_high - 1) (f := fun (s : Lift) _ => s.next src st)
    (g := fun (s : Lift) _ => s.next src' st)
    (fun k s t => Lift.Alongside S st p_l p_h p_x k s t)
    (Lift.start_alongside h (by simpa using hlow 0 (by omega)) (by simpa using hhigh 0 hpos))
    (fun k s t hk hst => Lift.next_alongside hst (hlow (k + 1) (by omega)) (hhigh (k + 1) (by omega)))
  rw [liftLine, liftLine]
  generalize (List.range (n_high - 1)).foldl _ _ = s at hloop ⊢
  generalize (List.range (n_high - 1)).foldl _ _ = t at hloop ⊢
  obtain ⟨⟨hsl, htl⟩, -, ⟨hsx, htx⟩, ⟨hh0, hx0, hx2⟩, hagree⟩ := hloop
  rw [Nat.sub_add_cancel hpos] at hsl
  -- The positions of the line in the order in which they are written.
  have hline : ∀ {i : ℕ}, (S i ∨ ∃ j < n_low + n_high, i = p_x + j * st.dst) →
      (((S i ∨ ∃ j < 2 * (n_high - 1), i = p_x + j * st.dst) ∨ i = s.p_x) ∨ i = s.p_x + st.dst) ∨
        (n_high < n_low ∧ i = s.p_x + 2 * st.dst) ∨
        (n_high + 1 < n_low ∧ i = s.p_x + 3 * st.dst) := by
    rintro i (hi | ⟨j, hj, rfl⟩)
    · exact .inl (.inl (.inl (.inl hi)))
    · rcases Nat.lt_or_ge j (2 * (n_high - 1)) with hlt | hge
      · exact .inl (.inl (.inl (.inr ⟨j, hlt, rfl⟩)))
      · obtain ⟨d, rfl⟩ := Nat.exists_eq_add_of_le hge
        have hpos : p_x + (2 * (n_high - 1) + d) * st.dst = s.p_x + d * st.dst := by
          rw [hsx]
          ring
        rw [hpos]
        obtain rfl | rfl | rfl | rfl : d = 0 ∨ d = 1 ∨ d = 2 ∨ d = 3 := by omega
        · exact .inl (.inl (.inr (by ring)))
        · exact .inl (.inr (by ring))
        · exact .inr (.inl ⟨by omega, rfl⟩)
        · exact .inr (.inr ⟨by omega, rfl⟩)
  have hfirst := hagree.write s.p_x (congrArg clampi16 hx2)
  rw [Lift.finish, Lift.finish]
  simp only [htl, htx]
  by_cases hsame : n_low ≤ n_high
  · rw [if_pos hsame, if_pos hsame, hh0, hx2]
    rw [hx2] at hfirst
    refine (hfirst.write (s.p_x + st.dst) rfl).mono fun i hi => ?_
    exact (hline hi).resolve_right fun h => by omega
  · rw [if_neg hsame, if_neg hsame]
    have hl : coeff src s.p_l = coeff src' s.p_l := by
      rw [hsl]
      exact hlow n_high (by omega)
    by_cases hone : n_low ≤ n_high + 1
    · rw [if_pos hone, if_pos hone, hh0, hx2, hl]
      rw [hx2] at hfirst
      refine ((hfirst.write _ rfl).write _ rfl).mono fun i hi => ?_
      rcases hline hi with hi | ⟨-, hi⟩ | ⟨hn, -⟩
      · exact .inl hi
      · exact .inr hi
      · omega
    · rw [if_neg hone, if_neg hone]
      have hl' : coeff src (s.p_l + st.low) = coeff src' (s.p_l + st.low) := by
        rw [hsl, Nat.add_assoc, ← Nat.succ_mul]
        exact hlow (n_high + 1) (by omega)
      rw [hh0, hx2, hl, hl']
      rw [hx2] at hfirst
      refine (((hfirst.write _ rfl).write _ rfl).write _ rfl).mono fun i hi => ?_
      rcases hline hi with hi | ⟨-, hi⟩ | ⟨-, hi⟩
      · exact .inl (.inl hi)
      · exact .inl (.inr hi)
      · exact .inr hi

theorem idwtX_agree (buf : Plane) {v w : Plane} (h : AgreeOn S v w)
    (low_off high_off dst_off low_step high_step n : ℕ) (hpos : 0 < n_high) (hle : n_high ≤ n_low)
    (hle' : n_low ≤ n_high + 2) :
    AgreeOn (fun i => S i ∨ (dst_off ≤ i ∧ i < dst_off + n * (n_low + n_high)))
      (idwtX buf low_off high_off v dst_off low_step high_step (n_low + n_high) n_low n_high n)
      (idwtX buf low_off high_off w dst_off low_step high_step (n_low + n_high) n_low n_high n) := by
  refine foldl_range_rel
    (fun k v w => AgreeOn (fun i => S i ∨ (dst_off ≤ i ∧ i < dst_off + k * (n_low + n_high))) v w)
    (h.mono fun i hi => hi.resolve_right fun hi => by omega) (fun k v w _ hk => ?_)
  refine (liftLine_agree _ _ _ _ hk hpos hle hle' (fun _ _ => rfl) (fun _ _ => rfl)).mono fun i hi => ?_
  rw [Nat.succ_mul] at hi
  rcases hi with hi | ⟨hge, hlt⟩
  · exact .inl (.inl hi)
  · rcases Nat.lt_or_ge i (dst_off + k * (n_low + n_high)) with hold | hnew
    · exact .inl (.inr ⟨hge, hold⟩)
    · exact .inr ⟨i - (dst_off + k * (n_low + n_high)), by omega, by rw [Nat.mul_one]; omega⟩

theorem idwtY_congr {v w : Plane} {step : ℕ} (hagree : AgreeOn (fun i => i < (n_low + n_high) * step) v w)
    (buf : Plane) (base : ℕ) (hpos : 0 < n_high) (hle : n_high ≤ n_low) (hle' : n_low ≤ n_high + 2) :
    idwtY v 0 (n_low * step) buf base step step step n_low n_high step =
      idwtY w 0 (n_low * step) buf base step step step n_low n_high step := by
  have hbelow : ∀ {i j n : ℕ}, i < step → j < n → i + j * step < n * step := by
    intro i j n hi hj
    calc i + j * step < (j + 1) * step := by rw [Nat.succ_mul]; omega
      _ ≤ n * step := Nat.mul_le_mul_right _ hj
  refine foldl_range_rel (n := step) (fun _ b b' => b = b') rfl fun i b b' hi hb => ?_
  subst hb
  have hself : AgreeOn (fun _ => True) b b := AgreeOn.refl
  have hline := liftLine_agree ⟨step, step, step⟩ (0 + i) (n_low * step + i) (base + i) hself hpos hle
    hle' (fun j hj => coeff_congr hagree (hbelow (i := 0 + i) (by omega) (by omega)))
    (fun j hj => coeff_congr hagree (by
      have hhigh := hbelow hi hj
      rw [Nat.add_mul]
      simp only
      omega))
  exact hline.eq fun _ => .inl trivial

end

theorem dwtExtrapolateBlock_scratch (buf : Plane) (base : ℕ) {level : ℕ}
    (hlevel : 1 ≤ level ∧ level ≤ 3) (v w : Plane) :
    (dwtExtrapolateBlock buf base v level).1 = (dwtExtrapolateBlock buf base w level).1 := by
  have hcounts : 0 < bandHCount level ∧ bandHCount level ≤ bandLCount level ∧
      bandLCount level ≤ bandHCount level + 2 := by
    obtain rfl | rfl | rfl : level = 1 ∨ level = 2 ∨ level = 3 := by omega
    all_goals decide
  rw [dwtExtrapolateBlock, dwtExtrapolateBlock]
  generalize bandHCount level = n_h at hcounts ⊢
  generalize bandLCount level = n_l at hcounts ⊢
  obtain ⟨hpos, hle, hle'⟩ := hcounts
  have hlow := idwtX_agree buf (AgreeOn.none (v := v) (w := w)) (base + 2 * n_l * n_h + n_h * n_h) base
    0 n_l n_h n_l hpos hle hle'
  have hhigh := idwtX_agree buf hlow (base + n_h * n_l) (base + 2 * n_l * n_h)
    (n_l * (n_l + n_h)) n_l n_h n_h hpos hle hle'
  refine idwtY_congr (hhigh.mono fun i hi => ?_) buf base hpos hle hle'
  rw [Nat.add_mul] at hi
  omega

theorem dwt2dExtrapolateDecode_scratch (buf v w : Plane) :
    (dwt2dExtrapolateDecode buf v).1 = (dwt2dExtrapolateDecode buf w).1 := by
  rw [dwt2dExtrapolateDecode, dwt2dExtrapolateDecode]
  simp only
  rw [dwtExtrapolateBlock_scratch buf 3807 (by decide) v w,
    dwtExtrapolateBlock_scratch _ 3007 (by decide) (dwtExtrapolateBlock buf 3807 v 3).2
      (dwtExtrapolateBlock buf 3807 w 3).2]
  exact dwtExtrapolateBlock_scratch _ 0 (by decide) _ _

end Rdpio.Graphics
