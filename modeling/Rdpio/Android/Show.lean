import Rdpio.Android.Canvas
import Rdpio.Lib.Run

/-!
# Showing the desktop

`Compositor::show` and `show_rects` of `android/rust/src/rdp/compositor.rs`, with `set_surface` of `driver.rs`.
-/

namespace Rdpio.Android

open Graphics Lib

structure Surface where
  mem : ℕ → ℕ → ℕ → Pixel
  shown : Option ℕ

inductive Lock where
  | failed
  | granted (address width height : ℕ) (extra : Rect) (bytes : Bool)

def Surface.lock (s : Surface) (address : ℕ) (bounds : Rect) : Surface where
  mem := Function.update s.mem address fun x y =>
    if bounds.Has x y then s.mem address x y else s.mem (s.shown.getD address) x y
  shown := some address

def Surface.paint (s : Surface) (address : ℕ) (c : Canvas) (rects : List Rect) : Surface :=
  { s with mem := Function.update s.mem address fun x y =>
      if Covers rects x y ∧ x < c.width ∧ y < c.height then c.fb x y else s.mem address x y }

structure Screen where
  canvas : Canvas
  window_size : Option (ℕ × ℕ × ℕ)
  surface : Surface
  painted : Option ℕ

namespace Screen

variable (s : Screen)

def withDamage (damage : Damage) : Screen := { s with canvas := { s.canvas with damage } }

def reset : Screen := s.withDamage (s.canvas.damage.reset s.canvas.width s.canvas.height)

def showRects (lock : Lock) (bounds : Rect) (which : ℕ → Option (List Rect)) : Screen × Option ℕ :=
  match lock with
  | .failed => (s, none)
  | .granted address width height extra bytes =>
    let bounds := bounds.union extra
    let s := { s with surface := s.surface.lock address bounds }
    if (width, height) ≠ (s.canvas.width, s.canvas.height) then ({ s with window_size := none }.reset, none)
    else if bytes then
      let clipped : Rect := ⟨min bounds.left width, min bounds.top height, min bounds.right width,
        min bounds.bottom height⟩
      let rects := (which address).getD [clipped]
      ({ s with surface := s.surface.paint address s.canvas rects, painted := some address }, some address)
    else (s, none)

def geometry (window : ℕ) : Screen :=
  let key := (s.canvas.width, s.canvas.height, window)
  if s.window_size ≠ some key then { s with window_size := some key }.reset else s

def showBounds (lock : Lock) : Screen :=
  let damage := s.canvas.damage.takeBounds.1
  match s.canvas.damage.takeBounds.2 with
  | some b => ((s.withDamage damage).showRects lock b fun _ => none).1
  | none => s.withDamage damage

/-- Each buffer gets what it is missing. -/
def showBuffer (lock : Lock) : Screen :=
  let damage := s.canvas.damage
  let (s', asked) := (s.withDamage .default).showRects lock ⟨0, 0, s.canvas.width, s.canvas.height⟩
    fun address => some (damage.forBuffer address).2
  let damage := match asked with
    | some address => (damage.forBuffer address).1
    | none => damage
  -- `show_rects` may have reset it: the Surface wasn't ready.
  s'.withDamage (if s'.canvas.damage.isEmpty then damage else damage.reset s.canvas.width s.canvas.height)

def show_ (window : ℕ) (lock : Lock) : Screen :=
  let s := { s with painted := none }
  if s.canvas.damage.isEmpty then s
  else
    let s := s.geometry window
    if s.canvas.damage.broken then s.showBounds lock else s.showBuffer lock

end Screen

inductive Event where
  | put (x y w h : ℕ) (rgba : List Pixel)
  | fill (x y w h : ℕ) (px : Pixel)
  | copyWithin (sx sy w h dx dy : ℕ)
  | avc420 (ox oy : ℕ) (pic : ℕ → ℕ → Pixel) (rects : List Rect16)
  | resize (width height : ℕ)
  | shows (lock : Lock)
  /-- Another Surface, whose buffers hold anything, or none. -/
  | setSurface (window : Option ℕ) (mem : ℕ → ℕ → ℕ → Pixel) (lock : Lock)

structure Desktop extends Screen where
  window : Option ℕ

namespace Desktop

def start (width height : ℕ) (mem : ℕ → ℕ → ℕ → Pixel) : Desktop := ⟨⟨.new width height, none, ⟨mem, none⟩, none⟩, none⟩

def draw (s : Desktop) (canvas : Canvas) : Desktop := { s with canvas, painted := none }

def step (s : Desktop) : Event → Desktop
  | .put x y w h rgba => s.draw (s.canvas.put x y w h rgba)
  | .fill x y w h px => s.draw (s.canvas.fill x y w h px)
  | .copyWithin sx sy w h dx dy => s.draw (s.canvas.copyWithin sx sy w h dx dy)
  | .avc420 ox oy pic rects => s.draw (s.canvas.avc420 ox oy pic rects)
  | .resize width height => s.draw (s.canvas.resize width height)
  | .shows lock =>
    match s.window with
    | some window => { s with toScreen := s.toScreen.show_ window lock }
    | none => { s with painted := none }
  | .setSurface (some window) mem lock =>
    let canvas := s.canvas.resize s.canvas.width s.canvas.height
    ⟨{ s.toScreen with canvas, surface := ⟨mem, none⟩ }.show_ window lock, some window⟩
  | .setSurface none _ _ => { s with window := none, painted := none }

end Desktop

def Screen.Equal (s : Screen) (address : ℕ) : Prop :=
  ∀ x y, x < s.canvas.width → y < s.canvas.height → s.surface.mem address x y = s.canvas.fb x y

structure Screen.Faithful (s : Screen) : Prop where
  painted : ∀ address, s.painted = some address → s.Equal address
  kept : s.canvas.damage.isEmpty = true → ∀ address, s.surface.shown = some address → s.Equal address

/-- Android's way loses what it took for a lock that is not given, or for a buffer without bytes. -/
def Lock.Gives (lock : Lock) (c : Canvas) : Prop :=
  ∃ address width height extra bytes, lock = .granted address width height extra bytes ∧
    ((width, height) = (c.width, c.height) → bytes = true)

def Desktop.Given (s : Desktop) : Event → Prop
  | .shows lock => s.canvas.damage.broken = true → s.canvas.damage.isEmpty = false → s.window.isSome → lock.Gives s.canvas
  | .setSurface (some _) _ lock => s.canvas.damage.broken = true → lock.Gives s.canvas
  | _ => True

/-! ## What every buffer is missing is on its list -/

structure Screen.Inv (s : Screen) : Prop where
  sized : s.canvas.Sized
  known : ∀ b ∈ s.canvas.damage.buffers, ∀ x y, x < s.canvas.width → y < s.canvas.height →
    s.surface.mem b.1 x y ≠ s.canvas.fb x y → Covers b.2 x y ∨ Covers s.canvas.damage.fresh x y
  latest : ∀ x y, x < s.canvas.width → y < s.canvas.height →
    s.canvas.damage.broken = true ∧ ¬ Covers s.canvas.damage.fresh x y ∨ s.canvas.damage.fresh = [] →
    ∃ address, s.surface.shown = some address ∧ s.surface.mem address x y = s.canvas.fb x y

section Invariant

variable {s : Screen} {lock : Lock}

theorem Screen.inv_of_full (hfull : s.canvas.damage.full = ⟨0, 0, s.canvas.width, s.canvas.height⟩)
    (hfresh : s.canvas.damage.fresh = [⟨0, 0, s.canvas.width, s.canvas.height⟩])
    (hbuffers : s.canvas.damage.buffers = []) : s.Inv where
  sized := hfull
  known b hb := by
    rw [hbuffers] at hb
    cases hb
  latest x y hx hy h := by
    have hcover : Covers s.canvas.damage.fresh x y := by
      rw [hfresh]
      exact ⟨_, List.mem_singleton_self _, Nat.zero_le x, hx, Nat.zero_le y, hy⟩
    rcases h with h | h
    · exact absurd hcover h.2
    · rw [hfresh] at h
      cases h

theorem Screen.inv_reset (s : Screen) : s.reset.Inv := Screen.inv_of_full rfl rfl rfl

theorem Screen.Inv.faithful (h : s.Inv) (hpainted : ∀ address, s.painted = some address →
    s.canvas.damage.fresh = [] ∧ s.surface.shown = some address) : s.Faithful := by
  have hkept : s.canvas.damage.fresh = [] → ∀ address, s.surface.shown = some address → s.Equal address := by
    intro hempty address hshown x y hx hy
    obtain ⟨address', hshown', hsame⟩ := h.latest x y hx hy (.inr hempty)
    cases hshown.symm.trans hshown'
    exact hsame
  refine ⟨fun address ha => ?_, fun hempty => hkept (List.isEmpty_iff.mp hempty)⟩
  obtain ⟨hempty, hshown⟩ := hpainted address ha
  exact hkept hempty address hshown

theorem Screen.Inv.drawn (h : s.Inv) {c : Canvas} (hc : Drawn s.canvas c) {window_size : Option (ℕ × ℕ × ℕ)}
    {painted : Option ℕ} : Screen.Inv ⟨c, window_size, s.surface, painted⟩ where
  sized := hc.sized h.sized
  known b hb x y hx hy hne := by
    have hx' : x < s.canvas.width := hc.width ▸ hx
    have hy' : y < s.canvas.height := hc.height ▸ hy
    have hb' : b ∈ s.canvas.damage.buffers := hc.buffers ▸ hb
    by_cases hsame : c.fb x y = s.canvas.fb x y
    · exact (h.known b hb' x y hx' hy' (hsame ▸ hne)).imp_right (hc.kept x y)
    · exact .inr (hc.marked x y hx' hy' hsame)
  latest x y hx hy hwhere := by
    have hx' : x < s.canvas.width := hc.width ▸ hx
    have hy' : y < s.canvas.height := hc.height ▸ hy
    have hno : ¬ Covers c.damage.fresh x y := by
      rcases hwhere with hwhere | hempty
      · exact hwhere.2
      · rintro ⟨r, hr, -⟩
        rw [show c.damage.fresh = [] from hempty] at hr
        cases hr
    have hsame : c.fb x y = s.canvas.fb x y := by
      by_contra hne
      exact hno (hc.marked x y hx' hy' hne)
    have hbefore : s.canvas.damage.broken = true ∧ ¬ Covers s.canvas.damage.fresh x y ∨ s.canvas.damage.fresh = [] := by
      rcases hwhere with hwhere | hempty
      · exact .inl ⟨hc.broken ▸ hwhere.1, fun hcover => hno (hc.kept x y hcover)⟩
      · exact .inr (hc.rest hempty)
    obtain ⟨address, hshown, hmem⟩ := h.latest x y hx' hy' hbefore
    exact ⟨address, hshown, hmem.trans hsame.symm⟩

theorem Surface.mem_lock (surface : Surface) (address : ℕ) {bounds : Rect} {x y : ℕ} (hin : bounds.Has x y)
    (address' : ℕ) : (surface.lock address bounds).mem address' x y = surface.mem address' x y := by
  unfold Surface.lock
  dsimp only
  by_cases ha : address' = address
  · rw [ha, Function.update_self, if_pos hin]
  · rw [Function.update_of_ne ha]

theorem Surface.mem_paint_of_ne (surface : Surface) {address address' : ℕ} (h : address' ≠ address) (c : Canvas)
    (rects : List Rect) : (surface.paint address c rects).mem address' = surface.mem address' :=
  Function.update_of_ne h ..

theorem Surface.mem_paint_self (surface : Surface) (address : ℕ) (c : Canvas) {rects : List Rect} {x y : ℕ}
    (hx : x < c.width) (hy : y < c.height) (h : surface.mem address x y ≠ c.fb x y → Covers rects x y) :
    (surface.paint address c rects).mem address x y = c.fb x y := by
  unfold Surface.paint
  dsimp only
  rw [Function.update_self]
  split
  · rfl
  · rename_i hno
    by_contra hne
    exact hno ⟨h hne, hx, hy⟩

theorem Rect.has_full (c : Canvas) {x y : ℕ} (hx : x < c.width) (hy : y < c.height) (extra : Rect) :
    ((⟨0, 0, c.width, c.height⟩ : Rect).union extra).Has x y :=
  Rect.has_union_left ⟨Nat.zero_le x, hx, Nat.zero_le y, hy⟩ extra

theorem Damage.covers_spread {d : Damage} {b : ℕ × List Rect} (hb : b ∈ d.spread) :
    ∃ b' ∈ d.buffers, b'.1 = b.1 ∧ ∀ x y, Covers b'.2 x y ∨ Covers d.fresh x y → Covers b.2 x y := by
  obtain ⟨b', hb', rfl⟩ := List.mem_map.mp hb
  exact ⟨b', hb', rfl, fun x y h => covers_foldl_addTo d.full h⟩

theorem Damage.forBuffer_spec (d : Damage) (address : ℕ) :
    (d.forBuffer address).1.full = d.full ∧ (d.forBuffer address).1.fresh = [] ∧
      ∀ b ∈ (d.forBuffer address).1.buffers, b.1 = address ∨ b ∈ d.spread := by
  unfold Damage.forBuffer
  split
  · refine ⟨rfl, rfl, fun b hb => ?_⟩
    rcases List.mem_or_eq_of_mem_set hb with hb | rfl
    · exact .inr hb
    · exact .inl rfl
  · refine ⟨rfl, rfl, fun b hb => ?_⟩
    rcases List.mem_append.mp hb with hb | hb
    · exact .inr hb
    · rw [List.mem_singleton.mp hb]
      exact .inl rfl

theorem Screen.Inv.covers_forBuffer (h : s.Inv) {address x y : ℕ} (hx : x < s.canvas.width)
    (hy : y < s.canvas.height) (hne : s.surface.mem address x y ≠ s.canvas.fb x y) :
    Covers (s.canvas.damage.forBuffer address).2 x y := by
  unfold Damage.forBuffer
  split
  case h_2 =>
    refine ⟨s.canvas.damage.full, List.mem_singleton_self _, ?_⟩
    rw [h.sized]
    exact ⟨Nat.zero_le x, hx, Nat.zero_le y, hy⟩
  case h_1 b hfind =>
    obtain ⟨b', hb', haddress, hcover⟩ := Damage.covers_spread (List.mem_of_find?_eq_some hfind)
    have hb : b.1 = address := by simpa using List.find?_some hfind
    refine hcover x y (h.known b' hb' x y hx hy ?_)
    rwa [haddress, hb]

/-! ## The three ways a granted lock goes -/

section Granted

variable (s) {width height : ℕ} (address : ℕ) (extra bounds : Rect) (which : ℕ → Option (List Rect))

theorem Screen.showRects_resized (hsize : (width, height) ≠ (s.canvas.width, s.canvas.height)) (bytes : Bool) :
    s.showRects (.granted address width height extra bytes) bounds which =
      ({ s with surface := s.surface.lock address (bounds.union extra), window_size := none }.reset, none) :=
  if_pos hsize

theorem Screen.showRects_unreadable (hsize : (width, height) = (s.canvas.width, s.canvas.height)) :
    s.showRects (.granted address width height extra false) bounds which =
      ({ s with surface := s.surface.lock address (bounds.union extra) }, none) :=
  if_neg (not_not.mpr hsize)

theorem Screen.showRects_painted (hsize : (width, height) = (s.canvas.width, s.canvas.height)) :
    s.showRects (.granted address width height extra true) bounds which = ({ s with
          surface := (s.surface.lock address (bounds.union extra)).paint address s.canvas
            ((which address).getD [⟨min (bounds.union extra).left width, min (bounds.union extra).top height,
              min (bounds.union extra).right width, min (bounds.union extra).bottom height⟩])
          painted := some address }, some address) :=
  if_neg (not_not.mpr hsize)

end Granted

theorem Screen.Inv.showBuffer (h : s.Inv) (hbroken : s.canvas.damage.broken = false)
    (hfresh : s.canvas.damage.fresh ≠ []) (hpainted : s.painted = none) (lock : Lock) :
    (s.showBuffer lock).Inv ∧ ∀ address, (s.showBuffer lock).painted = some address →
      (s.showBuffer lock).canvas.damage.fresh = [] ∧ (s.showBuffer lock).surface.shown = some address := by
  rcases lock with _ | ⟨address, width, height, extra, bytes⟩
  · -- The lock failed, and all is as it was.
    have hsame : s.showBuffer .failed = s := rfl
    rw [hsame]
    exact ⟨h, fun address ha => absurd (hpainted.symm.trans ha) (Option.some_ne_none _).symm⟩
  by_cases hsize : (width, height) = (s.canvas.width, s.canvas.height)
  case neg =>
    have hreset : s.showBuffer (.granted address width height extra bytes) = Screen.reset
        { s with surface := s.surface.lock address (.union ⟨0, 0, s.canvas.width, s.canvas.height⟩ extra)
                 window_size := none } := by
      unfold Screen.showBuffer
      dsimp only
      rw [Screen.showRects_resized (s.withDamage .default) address extra _ _ hsize bytes]
      rfl
    rw [hreset]
    exact ⟨Screen.inv_reset _, fun address ha => absurd (hpainted.symm.trans ha) (Option.some_ne_none _).symm⟩
  obtain ⟨area, harea⟩ : ∃ area, area = (⟨0, 0, s.canvas.width, s.canvas.height⟩ : Rect).union extra := ⟨_, rfl⟩
  -- Over the whole desktop, locking fills nothing from the buffer shown before.
  have hlock : ∀ address' x y, x < s.canvas.width → y < s.canvas.height →
      (s.surface.lock address area).mem address' x y = s.surface.mem address' x y := fun address' x y hx hy => by
    rw [harea]
    exact Surface.mem_lock _ _ (Rect.has_full s.canvas hx hy extra) address'
  cases bytes
  · have hkept : s.showBuffer (.granted address width height extra false) =
        { s with surface := s.surface.lock address area } := by
      unfold Screen.showBuffer
      dsimp only
      rw [Screen.showRects_unreadable (s.withDamage .default) address extra _ _ hsize, harea]
      rfl
    rw [hkept]
    refine ⟨⟨h.sized, fun b hb x y hx hy hne => ?_, fun x y hx hy hwhere => ?_⟩,
      fun address ha => absurd (hpainted.symm.trans ha) (Option.some_ne_none _).symm⟩
    · refine h.known b hb x y hx hy ?_
      rwa [← hlock b.1 x y hx hy]
    · rcases hwhere with hwhere | hempty
      · exact absurd (hbroken.symm.trans hwhere.1) (by decide)
      · exact absurd hempty hfresh
  · have hpaint : s.showBuffer (.granted address width height extra true) =
        { s with
          canvas := { s.canvas with damage := (s.canvas.damage.forBuffer address).1 }
          surface := (s.surface.lock address area).paint address s.canvas (s.canvas.damage.forBuffer address).2
          painted := some address } := by
      unfold Screen.showBuffer
      dsimp only
      rw [Screen.showRects_painted (s.withDamage .default) address extra _ _ hsize, harea]
      rfl
    obtain ⟨hfull, hempty, hbuffers⟩ := s.canvas.damage.forBuffer_spec address
    have hequal : ∀ x y, x < s.canvas.width → y < s.canvas.height →
        ((s.surface.lock address area).paint address s.canvas
          (s.canvas.damage.forBuffer address).2).mem address x y = s.canvas.fb x y := by
      refine fun x y hx hy => Surface.mem_paint_self _ _ _ hx hy fun hne => h.covers_forBuffer hx hy ?_
      rwa [← hlock address x y hx hy]
    rw [hpaint]
    refine ⟨⟨hfull.trans h.sized, fun b hb x y hx hy hne => ?_, fun x y hx hy _ => ⟨address, rfl, hequal x y hx hy⟩⟩,
      fun address' ha => ⟨hempty, ha⟩⟩
    rcases hbuffers b hb with hb' | hb'
    · exact absurd (hb' ▸ hequal x y hx hy) hne
    · by_cases haddress : b.1 = address
      · exact absurd (haddress ▸ hequal x y hx hy) hne
      · obtain ⟨b', hb', hsame, hcover⟩ := Damage.covers_spread hb'
        refine .inl (hcover x y (h.known b' hb' x y hx hy ?_))
        dsimp only at hne
        rw [Surface.mem_paint_of_ne _ haddress, hlock b.1 x y hx hy] at hne
        rwa [hsame]

theorem Screen.Inv.showBounds (h : s.Inv) (hbroken : s.canvas.damage.broken = true)
    (hfresh : s.canvas.damage.fresh ≠ []) (hpainted : s.painted = none) {lock : Lock}
    (hlock : lock.Gives s.canvas) :
    (s.showBounds lock).Inv ∧ ∀ address, (s.showBounds lock).painted = some address →
      (s.showBounds lock).canvas.damage.fresh = [] ∧ (s.showBounds lock).surface.shown = some address := by
  obtain ⟨address, width, height, extra, bytes, rfl, hbytes⟩ := hlock
  obtain ⟨b, hb, hencloses⟩ : ∃ b, s.canvas.damage.takeBounds.2 = some b ∧
      ∀ x y, Covers s.canvas.damage.fresh x y → b.Has x y := by
    rcases hlist : s.canvas.damage.fresh with _ | ⟨r, rest⟩
    · exact absurd hlist hfresh
    · refine ⟨rest.foldl Rect.union r, ?_, fun x y hcover => ?_⟩
      · show enclosing s.canvas.damage.fresh = _
        rw [hlist]
        rfl
      · obtain ⟨b', hb', hhas⟩ := has_enclosing hcover
        cases hb'
        exact hhas
  have hshow : s.showBounds (.granted address width height extra bytes) =
      ((s.withDamage s.canvas.damage.takeBounds.1).showRects (.granted address width height extra bytes) b
        fun _ => none).1 := by
    unfold Screen.showBounds
    rw [hb]
  rw [hshow]
  by_cases hsize : (width, height) = (s.canvas.width, s.canvas.height)
  case neg =>
    rw [Screen.showRects_resized (s.withDamage s.canvas.damage.takeBounds.1) address extra _ _ hsize bytes]
    exact ⟨Screen.inv_reset _, fun address ha => absurd (hpainted.symm.trans ha) (Option.some_ne_none _).symm⟩
  obtain rfl := hbytes hsize
  rw [Screen.showRects_painted (s.withDamage s.canvas.damage.takeBounds.1) address extra _ _ hsize]
  obtain ⟨rfl, rfl⟩ := Prod.mk.inj hsize
  have hequal : ∀ x y, x < s.canvas.width → y < s.canvas.height →
      ((s.surface.lock address (b.union extra)).paint address s.canvas
        [⟨min (b.union extra).left s.canvas.width, min (b.union extra).top s.canvas.height,
          min (b.union extra).right s.canvas.width, min (b.union extra).bottom s.canvas.height⟩]).mem address x y =
        s.canvas.fb x y := by
    refine fun x y hx hy => Surface.mem_paint_self _ _ _ hx hy fun hne => ?_
    refine ⟨_, List.mem_singleton_self _, ?_⟩
    by_cases hin : (b.union extra).Has x y
    · obtain ⟨h1, h2, h3, h4⟩ := hin
      exact ⟨(min_le_left ..).trans h1, lt_min h2 hx, (min_le_left ..).trans h3, lt_min h4 hy⟩
    · -- Outside of it nothing changed, and Android has filled in the buffer shown before.
      refine absurd ?_ hne
      obtain ⟨address', hshown, hsame⟩ := h.latest x y hx hy
        (.inl ⟨hbroken, fun hcover => hin (Rect.has_union_left (hencloses x y hcover) extra)⟩)
      unfold Surface.lock
      dsimp only
      rw [Function.update_self, if_neg hin, hshown]
      exact hsame
  refine ⟨⟨h.sized, fun b hb => absurd hb List.not_mem_nil, fun x y hx hy _ => ⟨address, rfl, hequal x y hx hy⟩⟩,
    fun address' ha => ⟨rfl, ha⟩⟩

theorem Screen.Inv.geometry (h : s.Inv) (hfresh : s.canvas.damage.fresh ≠ []) (window : ℕ) :
    (s.geometry window).Inv ∧ (s.geometry window).canvas.damage.fresh ≠ [] ∧
      (s.geometry window).painted = s.painted ∧ (s.geometry window).canvas.width = s.canvas.width ∧
      (s.geometry window).canvas.height = s.canvas.height ∧
      (s.geometry window).canvas.damage.broken = s.canvas.damage.broken := by
  unfold Screen.geometry
  dsimp only
  split
  · exact ⟨Screen.inv_reset _, List.cons_ne_nil _ _, rfl, rfl, rfl, rfl⟩
  · exact ⟨h, hfresh, rfl, rfl, rfl, rfl⟩

theorem Screen.Inv.show_ (h : s.Inv) (window : ℕ) {lock : Lock}
    (hlock : s.canvas.damage.broken = true → s.canvas.damage.isEmpty = false → lock.Gives s.canvas) :
    (s.show_ window lock).Inv ∧ (s.show_ window lock).Faithful := by
  unfold Screen.show_
  have hnone : Screen.Inv { s with painted := none } := ⟨h.sized, h.known, h.latest⟩
  by_cases hempty : s.canvas.damage.isEmpty = true
  · dsimp only
    rw [if_pos hempty]
    exact ⟨hnone, hnone.faithful fun _ ha => absurd ha (Option.some_ne_none _).symm⟩
  · dsimp only
    rw [if_neg hempty]
    have hfresh : s.canvas.damage.fresh ≠ [] := fun hnil => hempty (List.isEmpty_iff.mpr hnil)
    obtain ⟨hinv, hfresh', hpainted, hwidth, hheight, hbroken⟩ := hnone.geometry hfresh window
    generalize ({ s with painted := none } : Screen).geometry window = s' at hinv hfresh' hpainted hwidth hheight hbroken
    by_cases hmode : s'.canvas.damage.broken = true
    · rw [if_pos hmode]
      obtain ⟨address, width, height, extra, bytes, rfl, hbytes⟩ :=
        hlock (hbroken.symm.trans hmode) (Bool.not_eq_true _ ▸ hempty)
      have hgives : (Lock.granted address width height extra bytes).Gives s'.canvas :=
        ⟨address, width, height, extra, bytes, rfl, by rw [hwidth, hheight]; exact hbytes⟩
      obtain ⟨hinv', hpaint⟩ := hinv.showBounds hmode hfresh' hpainted hgives
      exact ⟨hinv', hinv'.faithful hpaint⟩
    · rw [if_neg hmode]
      obtain ⟨hinv', hpaint⟩ := hinv.showBuffer (Bool.not_eq_true _ ▸ hmode) hfresh' hpainted lock
      exact ⟨hinv', hinv'.faithful hpaint⟩

end Invariant

theorem Desktop.inv_start (width height : ℕ) (mem : ℕ → ℕ → ℕ → Pixel) :
    (Desktop.start width height mem).Inv := Screen.inv_of_full rfl rfl rfl

theorem Desktop.inv_step {s : Desktop} (h : s.Inv) (e : Event) (hgiven : s.Given e) :
    (s.step e).Inv ∧ (s.step e).Faithful := by
  have hdraw : ∀ c, Drawn s.canvas c → (s.draw c).Inv ∧ (s.draw c).Faithful := fun c hc => by
    have hinv : (s.draw c).Inv := h.drawn hc
    exact ⟨hinv, hinv.faithful fun _ ha => absurd ha (Option.some_ne_none _).symm⟩
  cases e with
  | put x y w h' rgba => exact hdraw _ (Canvas.drawn_put h.sized ..)
  | fill x y w h' px => exact hdraw _ (Canvas.drawn_fill h.sized ..)
  | copyWithin sx sy w h' dx dy => exact hdraw _ (Canvas.drawn_copyWithin h.sized ..)
  | avc420 ox oy pic rects => exact hdraw _ (Canvas.drawn_avc420 h.sized ..)
  | resize width height =>
    have hinv : (s.draw (s.canvas.resize width height)).Inv := by
      show Screen.Inv ⟨s.canvas.resize width height, s.window_size, s.surface, none⟩
      unfold Canvas.resize
      dsimp only
      split
      · exact Screen.inv_of_full rfl rfl rfl
      · rename_i hsame
        obtain ⟨hwidth, hheight⟩ := Prod.mk.inj (not_not.mp hsame)
        exact Screen.inv_of_full (by rw [hwidth, hheight]; rfl) (by rw [hwidth, hheight]; rfl) rfl
    exact ⟨hinv, hinv.faithful fun _ ha => absurd ha (Option.some_ne_none _).symm⟩
  | shows lock =>
    rcases hwindow : s.window with _ | window
    · have hstep : s.step (.shows lock) = { s with painted := none } := by simp only [Desktop.step, hwindow]
      rw [hstep]
      have hinv : Screen.Inv ⟨s.canvas, s.window_size, s.surface, none⟩ := ⟨h.sized, h.known, h.latest⟩
      exact ⟨hinv, hinv.faithful fun _ ha => absurd ha (Option.some_ne_none _).symm⟩
    · have hstep : s.step (.shows lock) = { s with toScreen := s.toScreen.show_ window lock } := by
        simp only [Desktop.step, hwindow]
      rw [hstep]
      exact h.show_ window fun hbroken hempty => hgiven hbroken hempty (by rw [hwindow]; rfl)
  | setSurface window mem lock =>
    rcases window with _ | window
    · have hinv : Screen.Inv ⟨s.canvas, s.window_size, s.surface, none⟩ := ⟨h.sized, h.known, h.latest⟩
      exact ⟨hinv, hinv.faithful fun _ ha => absurd ha (Option.some_ne_none _).symm⟩
    · have hsame : s.canvas.resize s.canvas.width s.canvas.height =
          { s.canvas with damage := s.canvas.damage.reset s.canvas.width s.canvas.height } :=
        if_neg (not_not.mpr rfl)
      have hinv : Screen.Inv { s.toScreen with
          canvas := s.canvas.resize s.canvas.width s.canvas.height, surface := ⟨mem, none⟩ } := by
        rw [hsame]
        exact Screen.inv_of_full rfl rfl rfl
      refine hinv.show_ window fun hbroken _ => ?_
      rw [hsame] at hbroken ⊢
      exact hgiven hbroken

/-- In every run in which Android's way gets its locks, every show that paints a buffer leaves it equal to the
desktop, and nothing that changed is forgotten. -/
theorem every_buffer_equal (width height : ℕ) (mem : ℕ → ℕ → ℕ → Pixel) (events : List Event)
    (hgiven : Along Desktop.step Desktop.Given (.start width height mem) events) (done : List Event)
    (hdone : done <+: events) : (run Desktop.step (.start width height mem) done).Faithful := by
  have hinv : ∀ done, done <+: events → (run Desktop.step (.start width height mem) done).Inv := fun done hdone =>
    invariant_along (fun s : Desktop => s.Inv) (Desktop.inv_start width height mem)
      (fun s e h he => (Desktop.inv_step h e he).1) (hgiven.of_prefix hdone)
  induction done using List.reverseRecOn with
  | nil => exact (Desktop.inv_start width height mem).faithful fun _ ha => absurd ha (Option.some_ne_none _).symm
  | append_singleton done e ih =>
    have hlast := along_append.mp (hgiven.of_prefix hdone)
    rw [run_concat]
    exact (Desktop.inv_step (hinv done ((List.prefix_append done [e]).trans hdone)) e hlast.2.1).2

def oneLock (address : ℕ) : Lock := .granted address 1 1 ⟨0, 0, 0, 0⟩ true

def oneFill (n : ℕ) : Event := .fill 0 0 1 1 ⟨UInt8.ofNat n, 0, 0, 255⟩

def noMem : ℕ → ℕ → ℕ → Pixel := fun _ _ _ => .black

def oneRun : List Event := [.setSurface (some 0) noMem (oneLock 7), oneFill 1, .shows (oneLock 8)]

theorem every_buffer_equal_one : (run Desktop.step (.start 1 1 noMem) oneRun).Faithful := by
  refine every_buffer_equal 1 1 noMem oneRun ⟨fun h => ?_, trivial, fun h => ?_, trivial⟩ _ (List.prefix_refl _)
  · exact absurd h (by decide +kernel)
  · exact absurd h (by decide +kernel)

def unstableRun : List Event :=
  .setSurface (some 0) noMem (oneLock 1) ::
    ((List.range 6).flatMap fun i => [oneFill (i + 1), .shows (oneLock (i + 2))]) ++ [oneFill 9, .shows .failed]

/-- The change is forgotten: nothing is left to show, and the buffer that is shown does not have it. -/
theorem forgotten_change : ¬ (run Desktop.step (.start 1 1 noMem) unstableRun).Faithful := fun h =>
  absurd (h.kept (by decide +kernel) 7 (by decide +kernel) 0 0 (by decide +kernel) (by decide +kernel))
    (by decide +kernel)

end Rdpio.Android
