import Mathlib.Data.List.Induction
import Rdpio.Android.Damage
import Rdpio.Graphics.Commands

/-!
# The desktop's framebuffer

The drawing of `Compositor`, `android/rust/src/rdp/compositor.rs`: every way a part of the framebuffer is
written or read.
-/

namespace Rdpio.Android

open Graphics

structure Pixel where
  r : UInt8
  g : UInt8
  b : UInt8
  a : UInt8
deriving DecidableEq

def Pixel.black : Pixel := ⟨0, 0, 0, 0⟩

structure Canvas where
  fb : ℕ → ℕ → Pixel
  width : ℕ
  height : ℕ
  damage : Damage

/-- The place lies in a rectangle given by its corner and its size. -/
def Within (x y w h px py : ℕ) : Prop := x ≤ px ∧ px < x + w ∧ y ≤ py ∧ py < y + h

instance (x y w h px py : ℕ) : Decidable (Within x y w h px py) := inferInstanceAs (Decidable (_ ∧ _))

def copyRow (sx sy dx dy cols : ℕ) (fb : ℕ → ℕ → Pixel) (r : ℕ) : ℕ → ℕ → Pixel := fun px py =>
  if py = dy + r ∧ dx ≤ px ∧ px < dx + cols then fb (sx + (px - dx)) (sy + r) else fb px py

namespace Canvas

def new (width height : ℕ) : Canvas := ⟨fun _ _ => .black, width, height, Damage.default.reset width height⟩

variable (c : Canvas)

def resize (width height : ℕ) : Canvas :=
  let damage := c.damage.reset width height
  if (width, height) ≠ (c.width, c.height) then { fb := fun _ _ => .black, width, height, damage }
  else { c with damage }

def mark (x y w h : ℕ) : Canvas :=
  let r := min (x + w) c.width
  let b := min (y + h) c.height
  if r ≤ x ∨ b ≤ y then c else { c with damage := c.damage.add ⟨x, y, r, b⟩ }

def copyWithin (sx sy w h dx dy : ℕ) : Canvas :=
  if c.width ≤ sx ∨ c.height ≤ sy ∨ c.width ≤ dx ∨ c.height ≤ dy then c
  else
    let cols := min (min w (c.width - sx)) (c.width - dx)
    let rows := min (min h (c.height - sy)) (c.height - dy)
    let rs := if sy < dy then (List.range rows).reverse else List.range rows
    { c with fb := rs.foldl (copyRow sx sy dx dy cols) c.fb }.mark dx dy cols rows

/-- A row is written if the bytes have all of it. -/
def put (x y w h : ℕ) (rgba : List Pixel) : Canvas :=
  if c.width ≤ x ∨ c.height ≤ y then c
  else
    let cols := min (c.width - x) w
    let rows := min (c.height - y) h
    { c with
      fb := fun px py =>
        if Within x y cols rows px py ∧ (py - y) * w + cols ≤ rgba.length then
          rgba.getD ((py - y) * w + (px - x)) .black
        else c.fb px py }.mark x y w h

/-- Black outside the desktop. -/
def region (x y w h : ℕ) : List Pixel :=
  (List.range (w * h)).map fun i =>
    if x + i % w < c.width ∧ y + i / w < c.height then c.fb (x + i % w) (y + i / w) else .black

def fill (x y w h : ℕ) (px : Pixel) : Canvas :=
  if c.width ≤ x ∨ c.height ≤ y then c
  else
    let cols := min (c.width - x) w
    let rows := min (c.height - y) h
    { c with fb := fun px' py' => if Within x y cols rows px' py' then px else c.fb px' py' }.mark x y w h

def painted (ox oy : ℕ) (r : Rect16) : Option (ℕ × ℕ × ℕ × ℕ) :=
  let dx := ox + r.left.toNat
  let dy := oy + r.top.toNat
  if c.width ≤ dx ∨ c.height ≤ dy then none
  else some (dx, dy, min (r.right.toNat - r.left.toNat) (c.width - dx),
    min (r.bottom.toNat - r.top.toNat) (c.height - dy))

/-- A rectangle of a decoded picture is converted in. -/
def convert (ox oy : ℕ) (pic : ℕ → ℕ → Pixel) (r : Rect16) : Canvas :=
  match c.painted ox oy r with
  | some (dx, dy, w, h) =>
    { c with
      fb := fun px py =>
        if Within dx dy w h px py then pic (r.left.toNat + (px - dx)) (r.top.toNat + (py - dy)) else c.fb px py }
  | none => c

def avc420 (ox oy : ℕ) (pic : ℕ → ℕ → Pixel) (rects : List Rect16) : Canvas :=
  (rects.filterMap (c.painted ox oy)).foldl (fun c q => c.mark q.1 q.2.1 q.2.2.1 q.2.2.2)
    (rects.foldl (fun c r => c.convert ox oy pic r) c)

end Canvas

theorem row_le_of_whole {len w h j cols : ℕ} (hlen : w * h ≤ len) (hj : j < h) (hcols : cols ≤ w) :
    j * w + cols ≤ len :=
  calc j * w + cols ≤ j * w + w := Nat.add_le_add_left hcols _
    _ = (j + 1) * w := (Nat.succ_mul j w).symm
    _ ≤ h * w := Nat.mul_le_mul_right w hj
    _ = w * h := Nat.mul_comm h w
    _ ≤ len := hlen

theorem getD_grid {α : Type} (f : ℕ → ℕ → α) {w h i j : ℕ} (hi : i < w) (hj : j < h) (d : α) :
    ((List.range (w * h)).map fun n => f (n % w) (n / w)).getD (j * w + i) d = f i j := by
  have hcol : (j * w + i) % w = i := by rw [Nat.mul_comm, Nat.mul_add_mod, Nat.mod_eq_of_lt hi]
  have hrow : (j * w + i) / w = j := by
    rw [Nat.mul_comm, Nat.mul_add_div (by omega), Nat.div_eq_of_lt hi, Nat.add_zero]
  have hlt : j * w + i < w * h := row_le_of_whole le_rfl hj hi
  rw [List.getD_eq_getElem?_getD, List.getElem?_map, List.getElem?_range hlt, Option.map_some, Option.getD_some,
    hcol, hrow]

theorem copyRow_of_ne {sx sy dx dy cols r px py : ℕ} {fb : ℕ → ℕ → Pixel} (h : py ≠ dy + r) :
    copyRow sx sy dx dy cols fb r px py = fb px py := if_neg fun hin => h hin.1

theorem foldl_copyRow {sx sy dx dy cols : ℕ} {rs : List ℕ} (h : rs.Pairwise fun r r' => sy + r' ≠ dy + r)
    (fb : ℕ → ℕ → Pixel) (px py : ℕ) :
    rs.foldl (copyRow sx sy dx dy cols) fb px py =
      if (∃ r ∈ rs, py = dy + r) ∧ dx ≤ px ∧ px < dx + cols then fb (sx + (px - dx)) (sy + (py - dy))
      else fb px py := by
  induction rs generalizing fb with
  | nil => simp
  | cons r rs ih =>
    obtain ⟨hfirst, hrest⟩ := List.pairwise_cons.mp h
    rw [List.foldl_cons, ih hrest]
    by_cases hlater : (∃ r' ∈ rs, py = dy + r') ∧ dx ≤ px ∧ px < dx + cols
    · obtain ⟨⟨r', hr', hpy⟩, hpx⟩ := hlater
      rw [if_pos ⟨⟨r', hr', hpy⟩, hpx⟩, if_pos ⟨⟨r', List.mem_cons_of_mem r hr', hpy⟩, hpx⟩]
      have hne : sy + (py - dy) ≠ dy + r := by
        rw [hpy, Nat.add_sub_cancel_left]
        exact hfirst r' hr'
      rw [copyRow_of_ne hne]
    · rw [if_neg hlater]
      by_cases hr : py = dy + r ∧ dx ≤ px ∧ px < dx + cols
      · rw [if_pos ⟨⟨r, List.mem_cons_self, hr.1⟩, hr.2⟩, copyRow, if_pos hr, hr.1, Nat.add_sub_cancel_left]
      · rw [copyRow, if_neg hr, if_neg]
        rintro ⟨⟨r', hr', hpy⟩, hpx⟩
        rcases List.mem_cons.mp hr' with rfl | hr'
        · exact hr ⟨hpy, hpx⟩
        · exact hlater ⟨⟨r', hr', hpy⟩, hpx⟩

theorem foldl_copyRow_ordered (sx sy dx dy cols rows : ℕ) (fb : ℕ → ℕ → Pixel) (px py : ℕ) :
    (if sy < dy then (List.range rows).reverse else List.range rows).foldl (copyRow sx sy dx dy cols) fb px py =
      if Within dx dy cols rows px py then fb (sx + (px - dx)) (sy + (py - dy)) else fb px py := by
  have hrows : (if sy < dy then (List.range rows).reverse else List.range rows).Pairwise
      (fun r r' => sy + r' ≠ dy + r) ∧
      ∀ r, r ∈ (if sy < dy then (List.range rows).reverse else List.range rows) ↔ r < rows := by
    by_cases hdown : sy < dy
    · rw [if_pos hdown]
      refine ⟨?_, fun r => by rw [List.mem_reverse, List.mem_range]⟩
      rw [List.pairwise_reverse]
      exact List.pairwise_lt_range.imp fun hlt => by omega
    · rw [if_neg hdown]
      exact ⟨List.pairwise_lt_range.imp fun hlt => by omega, fun r => List.mem_range⟩
  rw [foldl_copyRow hrows.1]
  congr 1
  rw [Within, eq_iff_iff]
  constructor
  · rintro ⟨⟨r, hr, rfl⟩, hpx⟩
    have := (hrows.2 r).mp hr
    omega
  · rintro ⟨hx, hx', hy, hy'⟩
    exact ⟨⟨py - dy, (hrows.2 _).mpr (by omega), by omega⟩, hx, hx'⟩

/-! ## What is drawn is marked -/

/-- The canvas after some drawing: what changed, and what was marked before, is marked. -/
structure Drawn (c c' : Canvas) : Prop where
  width : c'.width = c.width
  height : c'.height = c.height
  full : c'.damage.full = c.damage.full
  buffers : c'.damage.buffers = c.damage.buffers
  broken : c'.damage.broken = c.damage.broken
  kept : ∀ x y, Covers c.damage.fresh x y → Covers c'.damage.fresh x y
  rest : c'.damage.fresh = [] → c.damage.fresh = []
  marked : ∀ x y, x < c.width → y < c.height → c'.fb x y ≠ c.fb x y → Covers c'.damage.fresh x y

/-- The damage is of the desktop's size. -/
def Canvas.Sized (c : Canvas) : Prop := c.damage.full = ⟨0, 0, c.width, c.height⟩

theorem Canvas.mark_fb (c : Canvas) (x y w h : ℕ) : (c.mark x y w h).fb = c.fb := by
  unfold Canvas.mark
  dsimp only
  split <;> rfl

theorem Drawn.refl (c : Canvas) : Drawn c c :=
  ⟨rfl, rfl, rfl, rfl, rfl, fun _ _ h => h, fun h => h, fun _ _ _ _ h => absurd rfl h⟩

theorem Drawn.trans {c c' c'' : Canvas} (h : Drawn c c') (h' : Drawn c' c'') : Drawn c c'' where
  width := h'.width.trans h.width
  height := h'.height.trans h.height
  full := h'.full.trans h.full
  buffers := h'.buffers.trans h.buffers
  broken := h'.broken.trans h.broken
  kept x y hc := h'.kept x y (h.kept x y hc)
  rest hc := h.rest (h'.rest hc)
  marked x y hx hy hne := by
    by_cases hsame : c''.fb x y = c'.fb x y
    · exact h'.kept x y (h.marked x y hx hy (hsame ▸ hne))
    · exact h'.marked x y (h.width ▸ hx) (h.height ▸ hy) hsame

theorem Drawn.sized {c c' : Canvas} (h : Drawn c c') (hc : c.Sized) : c'.Sized := by
  unfold Canvas.Sized
  rw [h.full, h.width, h.height]
  exact hc

theorem covers_mark {c : Canvas} (hc : c.Sized) {x y w h px py : ℕ} (hx : px < c.width) (hy : py < c.height)
    (hin : Within x y w h px py) : Covers (c.mark x y w h).damage.fresh px py := by
  obtain ⟨h1, h2, h3, h4⟩ := hin
  unfold Canvas.mark
  dsimp only
  rw [if_neg (by omega)]
  refine Damage.covers_add (.inr ⟨⟨h1, lt_min h2 hx, h3, lt_min h4 hy⟩, ?_⟩)
  rw [hc]
  exact ⟨hx, hy⟩

theorem Canvas.drawn_mark (c : Canvas) (x y w h : ℕ) : Drawn c (c.mark x y w h) := by
  unfold Canvas.mark
  dsimp only
  split
  · exact .refl c
  · exact ⟨rfl, rfl, rfl, rfl, rfl, fun px py h => Damage.covers_add (.inl h), fun h => eq_nil_of_addTo h,
      fun _ _ _ _ hne => absurd rfl hne⟩

theorem drawn_mark_of {c : Canvas} (hc : c.Sized) {fb : ℕ → ℕ → Pixel} {x y w h : ℕ}
    (hfb : ∀ px py, fb px py ≠ c.fb px py → Within x y w h px py) :
    Drawn c ({ c with fb := fb }.mark x y w h) := by
  have hmark := Canvas.drawn_mark { c with fb := fb } x y w h
  refine ⟨hmark.width, hmark.height, hmark.full, hmark.buffers, hmark.broken, hmark.kept, hmark.rest,
    fun px py hx hy hne => ?_⟩
  rw [Canvas.mark_fb] at hne
  exact covers_mark (c := { c with fb := fb }) hc hx hy (hfb px py hne)

theorem Canvas.drawn_put {c : Canvas} (hc : c.Sized) (x y w h : ℕ) (rgba : List Pixel) :
    Drawn c (c.put x y w h rgba) := by
  unfold Canvas.put
  split
  · exact .refl c
  · refine drawn_mark_of hc fun px py hne => ?_
    by_contra hout
    refine hne (if_neg fun hin => hout ?_)
    obtain ⟨h1, h2, h3, h4⟩ := hin.1
    exact ⟨h1, by omega, h3, by omega⟩

theorem Canvas.drawn_fill {c : Canvas} (hc : c.Sized) (x y w h : ℕ) (px : Pixel) : Drawn c (c.fill x y w h px) := by
  unfold Canvas.fill
  split
  · exact .refl c
  · refine drawn_mark_of hc fun px py hne => ?_
    by_contra hout
    refine hne (if_neg fun hin => hout ?_)
    obtain ⟨h1, h2, h3, h4⟩ := hin
    exact ⟨h1, by omega, h3, by omega⟩

theorem Canvas.drawn_copyWithin {c : Canvas} (hc : c.Sized) (sx sy w h dx dy : ℕ) :
    Drawn c (c.copyWithin sx sy w h dx dy) := by
  unfold Canvas.copyWithin
  split
  · exact .refl c
  · refine drawn_mark_of hc fun px py hne => ?_
    by_contra hout
    refine hne ?_
    rw [foldl_copyRow_ordered, if_neg hout]

theorem Canvas.foldl_convert (c : Canvas) (ox oy : ℕ) (pic : ℕ → ℕ → Pixel) (rects : List Rect16) :
    ∃ fb, rects.foldl (fun c r => c.convert ox oy pic r) c = { c with fb := fb } ∧ ∀ px py, fb px py ≠ c.fb px py →
        ∃ q ∈ rects.filterMap (c.painted ox oy), Within q.1 q.2.1 q.2.2.1 q.2.2.2 px py := by
  induction rects using List.reverseRecOn with
  | nil => exact ⟨c.fb, rfl, fun _ _ h => absurd rfl h⟩
  | append_singleton rects r ih =>
    obtain ⟨fb, heq, hfb⟩ := ih
    rw [List.foldl_append, heq, List.filterMap_append]
    have hpainted : ({ c with fb := fb } : Canvas).painted ox oy r = c.painted ox oy r := rfl
    show ∃ fb', ({ c with fb := fb } : Canvas).convert ox oy pic r = _ ∧ _
    unfold Canvas.convert
    rw [hpainted]
    rcases hr : c.painted ox oy r with _ | ⟨dx, dy, w, h⟩
    · refine ⟨fb, rfl, fun px py hne => ?_⟩
      obtain ⟨q, hq, hin⟩ := hfb px py hne
      exact ⟨q, List.mem_append_left _ hq, hin⟩
    · refine ⟨_, rfl, fun px py hne => ?_⟩
      by_cases hin : Within dx dy w h px py
      · exact ⟨(dx, dy, w, h), List.mem_append_right _ (by simp [hr]), hin⟩
      · rw [if_neg hin] at hne
        obtain ⟨q, hq, hin⟩ := hfb px py hne
        exact ⟨q, List.mem_append_left _ hq, hin⟩

theorem Canvas.foldl_mark {c : Canvas} (hc : c.Sized) (qs : List (ℕ × ℕ × ℕ × ℕ)) :
    Drawn c (qs.foldl (fun c q => c.mark q.1 q.2.1 q.2.2.1 q.2.2.2) c) ∧
      (qs.foldl (fun c q => c.mark q.1 q.2.1 q.2.2.1 q.2.2.2) c).fb = c.fb ∧
      ∀ q ∈ qs, ∀ px py, px < c.width → py < c.height → Within q.1 q.2.1 q.2.2.1 q.2.2.2 px py →
        Covers (qs.foldl (fun c q => c.mark q.1 q.2.1 q.2.2.1 q.2.2.2) c).damage.fresh px py := by
  induction qs generalizing c with
  | nil => exact ⟨.refl c, rfl, fun _ hq => absurd hq List.not_mem_nil⟩
  | cons q qs ih =>
    have hmark := c.drawn_mark q.1 q.2.1 q.2.2.1 q.2.2.2
    obtain ⟨hdrawn, hfb, hcover⟩ := ih (hmark.sized hc)
    refine ⟨hmark.trans hdrawn, hfb.trans (Canvas.mark_fb ..), fun q' hq' px py hx hy hin => ?_⟩
    rcases List.mem_cons.mp hq' with rfl | hq'
    · exact hdrawn.kept px py (covers_mark hc hx hy hin)
    · exact hcover q' hq' px py (hmark.width ▸ hx) (hmark.height ▸ hy) hin

theorem Canvas.drawn_avc420 {c : Canvas} (hc : c.Sized) (ox oy : ℕ) (pic : ℕ → ℕ → Pixel) (rects : List Rect16) :
    Drawn c (c.avc420 ox oy pic rects) := by
  obtain ⟨fb, heq, hfb⟩ := c.foldl_convert ox oy pic rects
  unfold Canvas.avc420
  rw [heq]
  obtain ⟨hdrawn, hsame, hcover⟩ := Canvas.foldl_mark (c := { c with fb := fb }) hc (rects.filterMap (c.painted ox oy))
  refine ⟨hdrawn.width, hdrawn.height, hdrawn.full, hdrawn.buffers, hdrawn.broken, hdrawn.kept,
    hdrawn.rest, fun px py hx hy hne => ?_⟩
  rw [hsame] at hne
  obtain ⟨q, hq, hin⟩ := hfb px py hne
  exact hcover q hq px py hx hy hin

end Rdpio.Android
