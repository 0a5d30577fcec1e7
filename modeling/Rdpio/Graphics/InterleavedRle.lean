import Mathlib.Algebra.Order.Ring.Nat
import Mathlib.Data.List.Basic

/-!
# Interleaved RLE bitmaps

`decompress_interleaved` of `crates/rdp-graphics/src/bitmap.rs` beside the procedure of MS-RDPBCGR that it
implements.
-/

namespace Rdpio.Graphics.InterleavedRle

abbrev Bytes := List UInt8

def C_BG_RUN : UInt8 := 0x00
def C_FG_RUN : UInt8 := 0x01
def C_FGBG_IMAGE : UInt8 := 0x02
def C_COLOR_RUN : UInt8 := 0x03
def C_COLOR_IMAGE : UInt8 := 0x04
def C_LITE_SET_FG_FG_RUN : UInt8 := 0x0C
def C_LITE_SET_FG_FGBG_IMAGE : UInt8 := 0x0D
def C_LITE_DITHERED_RUN : UInt8 := 0x0E
def C_MEGA_BG_RUN : UInt8 := 0xF0
def C_MEGA_FG_RUN : UInt8 := 0xF1
def C_MEGA_FGBG_IMAGE : UInt8 := 0xF2
def C_MEGA_COLOR_RUN : UInt8 := 0xF3
def C_MEGA_COLOR_IMAGE : UInt8 := 0xF4
def C_MEGA_SET_FG_RUN : UInt8 := 0xF6
def C_MEGA_SET_FGBG_IMAGE : UInt8 := 0xF7
def C_MEGA_DITHERED_RUN : UInt8 := 0xF8
def C_SPECIAL_FGBG_1 : UInt8 := 0xF9
def C_SPECIAL_FGBG_2 : UInt8 := 0xFA
def C_SPECIAL_WHITE : UInt8 := 0xFD
def C_SPECIAL_BLACK : UInt8 := 0xFE

def extractCodeId (h : UInt8) : UInt8 := if h &&& 0xC0 ≠ 0xC0 then h >>> 5 else if h &&& 0x30 ≠ 0x30 then h >>> 4 else h

def runField (mask : UInt8) (scale base : ℕ) : Bytes → Option (ℕ × Bytes)
  | [] => none
  | h :: rest =>
    if h &&& mask ≠ 0 then some ((h &&& mask).toNat * scale, rest)
    else match rest with
      | [] => none
      | n :: rest => some (n.toNat + base, rest)

def megaField : Bytes → Option (ℕ × Bytes)
  | _ :: lo :: hi :: rest => some (lo.toNat + hi.toNat * 256, rest)
  | _ => none

def extractRunLength (code : UInt8) (src : Bytes) : Option (ℕ × Bytes) :=
  if code = C_FGBG_IMAGE then runField 0x1F 8 1 src
  else if code = C_LITE_SET_FG_FGBG_IMAGE then runField 0x0F 8 1 src
  else if code ∈ [C_BG_RUN, C_FG_RUN, C_COLOR_RUN, C_COLOR_IMAGE] then runField 0x1F 1 32 src
  else if code ∈ [C_LITE_SET_FG_FG_RUN, C_LITE_DITHERED_RUN] then runField 0x0F 1 16 src
  else if code ∈ [C_MEGA_BG_RUN, C_MEGA_FG_RUN, C_MEGA_SET_FG_RUN, C_MEGA_DITHERED_RUN, C_MEGA_COLOR_RUN,
      C_MEGA_FGBG_IMAGE, C_MEGA_SET_FGBG_IMAGE, C_MEGA_COLOR_IMAGE] then megaField src
  else none

inductive Pel
  | bg
  | fg (pel : Bytes)
  | abs (pel : Bytes)
deriving DecidableEq

def takePel (p : ℕ) (src : Bytes) : Option (Bytes × Bytes) :=
  if p ≤ src.length then some (src.take p, src.drop p) else none

def fgbgPels (fg : Bytes) (mask : UInt8) (cbits : ℕ) : List Pel :=
  (List.range cbits).map fun i => if mask >>> UInt8.ofNat i &&& 1 = 1 then .fg fg else .bg

def fgbgImage (fg : Bytes) : ℕ → Bytes → Option (List Pel × Bytes)
  | 0, rest => some ([], rest)
  | _ + 1, [] => none
  | n + 1, mask :: rest =>
    (fgbgImage fg (n + 1 - min (n + 1) 8) rest).map fun (pels, rest) => (fgbgPels fg mask (min (n + 1) 8) ++ pels, rest)

def colorImage (p : ℕ) : ℕ → Bytes → Option (List Pel × Bytes)
  | 0, rest => some ([], rest)
  | run + 1, rest => do
    let (px, rest) ← takePel p rest
    let (pels, rest) ← colorImage p run rest
    some (.abs px :: pels, rest)

structure Order where
  pels : List Pel
  fg : Bytes
  bg : Bool
  rest : Bytes
deriving DecidableEq

def setFg (p : ℕ) (sets : Bool) (fg rest : Bytes) : Option (Bytes × Bytes) :=
  if sets then takePel p rest else some (fg, rest)

def order (p : ℕ) (fg : Bytes) (insert : Bool) (src : Bytes) : Option Order := do
  let code := extractCodeId (← src.head?)
  if code ∈ [C_BG_RUN, C_MEGA_BG_RUN] then
    let (run, rest) ← extractRunLength code src
    some ⟨if insert then .fg fg :: List.replicate (run - 1) .bg else List.replicate run .bg, fg, true, rest⟩
  else if code ∈ [C_FG_RUN, C_MEGA_FG_RUN, C_LITE_SET_FG_FG_RUN, C_MEGA_SET_FG_RUN] then
    let (run, rest) ← extractRunLength code src
    let (fg, rest) ← setFg p (code ∈ [C_LITE_SET_FG_FG_RUN, C_MEGA_SET_FG_RUN]) fg rest
    some ⟨List.replicate run (.fg fg), fg, false, rest⟩
  else if code ∈ [C_COLOR_RUN, C_MEGA_COLOR_RUN] then
    let (run, rest) ← extractRunLength code src
    let (color, rest) ← takePel p rest
    some ⟨List.replicate run (.abs color), fg, false, rest⟩
  else if code ∈ [C_COLOR_IMAGE, C_MEGA_COLOR_IMAGE] then
    let (run, rest) ← extractRunLength code src
    let (pels, rest) ← colorImage p run rest
    some ⟨pels, fg, false, rest⟩
  else if code ∈ [C_FGBG_IMAGE, C_MEGA_FGBG_IMAGE, C_LITE_SET_FG_FGBG_IMAGE, C_MEGA_SET_FGBG_IMAGE] then
    let (run, rest) ← extractRunLength code src
    let (fg, rest) ← setFg p (code ∈ [C_LITE_SET_FG_FGBG_IMAGE, C_MEGA_SET_FGBG_IMAGE]) fg rest
    let (pels, rest) ← fgbgImage fg run rest
    some ⟨pels, fg, false, rest⟩
  else if code ∈ [C_LITE_DITHERED_RUN, C_MEGA_DITHERED_RUN] then
    let (run, rest) ← extractRunLength code src
    let (pel1, rest) ← takePel p rest
    let (pel2, rest) ← takePel p rest
    some ⟨(List.replicate run [.abs pel1, .abs pel2]).flatten, fg, false, rest⟩
  else if code = C_SPECIAL_FGBG_1 then some ⟨fgbgPels fg 0x03 8, fg, false, src.tail⟩
  else if code = C_SPECIAL_FGBG_2 then some ⟨fgbgPels fg 0x05 8, fg, false, src.tail⟩
  else if code = C_SPECIAL_WHITE then some ⟨[.abs (List.replicate p 0xFF)], fg, false, src.tail⟩
  else if code = C_SPECIAL_BLACK then some ⟨[.abs (List.replicate p 0)], fg, false, src.tail⟩
  else none

/-! ### What an order leaves of the stream -/

theorem length_takePel {p : ℕ} {src pel rest : Bytes} (h : takePel p src = some (pel, rest)) :
    pel.length = p ∧ rest.length ≤ src.length := by
  unfold takePel at h
  split_ifs at h with hp
  cases h
  rw [List.length_take, List.length_drop]
  omega

theorem length_setFg {p : ℕ} {sets : Bool} {fg fg' src rest : Bytes} (h : setFg p sets fg src = some (fg', rest)) :
    (fg.length = p → fg'.length = p) ∧ rest.length ≤ src.length := by
  unfold setFg at h
  split_ifs at h
  · obtain ⟨hpel, hle⟩ := length_takePel h
    exact ⟨fun _ => hpel, hle⟩
  · cases h
    exact ⟨id, le_rfl⟩

theorem length_runField {mask : UInt8} {scale base run : ℕ} {src rest : Bytes}
    (h : runField mask scale base src = some (run, rest)) : rest.length < src.length := by
  rcases src with - | ⟨head, - | ⟨n, src⟩⟩ <;> simp only [runField, reduceCtorEq] at h <;> split_ifs at h <;>
    cases h <;> simp only [List.length_cons] <;> omega

theorem length_megaField {run : ℕ} {src rest : Bytes} (h : megaField src = some (run, rest)) :
    rest.length < src.length := by
  rcases src with - | ⟨a, - | ⟨b, - | ⟨c, src⟩⟩⟩ <;> simp only [megaField, reduceCtorEq] at h
  cases h
  simp only [List.length_cons]
  omega

theorem length_extractRunLength {code : UInt8} {run : ℕ} {src rest : Bytes}
    (h : extractRunLength code src = some (run, rest)) : rest.length < src.length := by
  unfold extractRunLength at h
  split_ifs at h
  all_goals first | exact length_runField h | exact length_megaField h

theorem length_colorImage {p run : ℕ} {src rest : Bytes} {pels : List Pel}
    (h : colorImage p run src = some (pels, rest)) : rest.length ≤ src.length := by
  induction run generalizing src pels with
  | zero =>
    cases h
    exact le_rfl
  | succ run ih =>
    simp only [colorImage, Option.bind_eq_bind, Option.bind_eq_some_iff] at h
    obtain ⟨⟨px, src'⟩, hpx, ⟨pels', rest'⟩, himage, h⟩ := h
    cases h
    exact (ih himage).trans (length_takePel hpx).2

theorem length_fgbgImage {fg : Bytes} {run : ℕ} {src rest : Bytes} {pels : List Pel}
    (h : fgbgImage fg run src = some (pels, rest)) : rest.length ≤ src.length := by
  induction src generalizing run pels with
  | nil =>
    rcases run with - | n <;> simp only [fgbgImage, reduceCtorEq] at h
    cases h
    exact le_rfl
  | cons mask src ih =>
    rcases run with - | n
    · cases h
      exact le_rfl
    · simp only [fgbgImage, Option.map_eq_some_iff] at h
      obtain ⟨⟨pels', rest'⟩, himage, h⟩ := h
      cases h
      exact (ih himage).trans (Nat.le_succ _)

/-- The foreground of a pixel has the pixel's size. -/
def Pel.Sized (p : ℕ) (pel : Pel) : Prop := ∀ color, pel = .fg color → color.length = p

theorem sized_bg {p : ℕ} : Pel.bg.Sized p := fun _ h => nomatch h

theorem sized_abs {p : ℕ} (color : Bytes) : (Pel.abs color).Sized p := fun _ h => nomatch h

theorem sized_fg {p : ℕ} {fg : Bytes} (h : fg.length = p) : (Pel.fg fg).Sized p := by
  rintro color ⟨⟩
  exact h

theorem sized_fgbgPels {p : ℕ} {fg : Bytes} (h : fg.length = p) (mask : UInt8) (cbits : ℕ) :
    ∀ pel ∈ fgbgPels fg mask cbits, pel.Sized p := by
  simp only [fgbgPels, List.mem_map]
  rintro pel ⟨i, -, rfl⟩
  split_ifs
  · exact sized_fg h
  · exact sized_bg

theorem sized_fgbgImage {p : ℕ} {fg : Bytes} (hfg : fg.length = p) {run : ℕ} {src rest : Bytes} {pels : List Pel}
    (h : fgbgImage fg run src = some (pels, rest)) : ∀ pel ∈ pels, pel.Sized p := by
  induction src generalizing run pels with
  | nil =>
    rcases run with - | n <;> simp only [fgbgImage, reduceCtorEq] at h
    cases h
    exact fun pel hmem => absurd hmem List.not_mem_nil
  | cons mask src ih =>
    rcases run with - | n
    · cases h
      exact fun pel hmem => absurd hmem List.not_mem_nil
    · simp only [fgbgImage, Option.map_eq_some_iff] at h
      obtain ⟨⟨pels', rest'⟩, himage, h⟩ := h
      cases h
      intro pel hmem
      obtain hmem | hmem := List.mem_append.1 hmem
      · exact sized_fgbgPels hfg _ _ pel hmem
      · exact ih himage pel hmem

theorem sized_colorImage {p run : ℕ} {src rest : Bytes} {pels : List Pel}
    (h : colorImage p run src = some (pels, rest)) : ∀ pel ∈ pels, pel.Sized p := by
  induction run generalizing src pels with
  | zero =>
    cases h
    exact fun pel hmem => absurd hmem List.not_mem_nil
  | succ run ih =>
    simp only [colorImage, Option.bind_eq_bind, Option.bind_eq_some_iff] at h
    obtain ⟨⟨px, src'⟩, hpx, ⟨pels', rest'⟩, himage, h⟩ := h
    cases h
    rintro pel (_ | ⟨_, hmem⟩)
    · exact sized_abs px
    · exact ih himage pel hmem

def BgRun (head : UInt8) : Prop := extractCodeId head ∈ [C_BG_RUN, C_MEGA_BG_RUN]

/-- What any order is: sizes, progress, and whether it is a background run. -/
structure Order.Sound (p : ℕ) (fg src : Bytes) (o : Order) : Prop where
  size : fg.length = p → o.fg.length = p
  sized : fg.length = p → ∀ pel ∈ o.pels, pel.Sized p
  rest : o.rest.length < src.length
  bg : ∀ head, src.head? = some head → (o.bg = true ↔ BgRun head)

theorem order_sound {p : ℕ} {fg : Bytes} {insert : Bool} {src : Bytes} {o : Order}
    (h : order p fg insert src = some o) : o.Sound p fg src := by
  simp only [order, Option.bind_eq_bind, Option.bind_eq_some_iff] at h
  obtain ⟨head, hhead, h⟩ := h
  have hhead' : ∀ head', src.head? = some head' → head = head' := fun head' h => Option.some.inj (hhead.symm.trans h)
  have htail : src.tail.length < src.length := by
    rcases src with - | ⟨head, src⟩
    · cases hhead
    · exact Nat.lt_succ_self _
  by_cases hbg : extractCodeId head ∈ [C_BG_RUN, C_MEGA_BG_RUN]
  · simp only [if_pos hbg, Option.bind_eq_some_iff, Option.some.injEq, Prod.exists] at h
    obtain ⟨run, rest, hrun, rfl⟩ := h
    refine ⟨id, fun hfg => ?_, length_extractRunLength hrun, fun head' h => ?_⟩
    · dsimp only
      intro pel hmem
      split_ifs at hmem
      · obtain rfl | hmem := List.mem_cons.1 hmem
        · exact sized_fg hfg
        · rw [List.eq_of_mem_replicate hmem]
          exact sized_bg
      · rw [List.eq_of_mem_replicate hmem]
        exact sized_bg
    · rw [← hhead' head' h]
      exact iff_of_true rfl hbg
  have hnot : ∀ head', src.head? = some head' → (false = true ↔ BgRun head') := by
    intro head' h
    rw [← hhead' head' h]
    exact iff_of_false Bool.false_ne_true hbg
  rw [if_neg hbg] at h
  split_ifs at h
  all_goals simp only [Option.bind_eq_some_iff, Option.some.injEq, Prod.exists] at h
  · obtain ⟨run, rest, hrun, fg', rest', hset, rfl⟩ := h
    obtain ⟨hlen, hle⟩ := length_setFg hset
    refine ⟨hlen, fun hfg pel hmem => ?_, hle.trans_lt (length_extractRunLength hrun), hnot⟩
    rw [List.eq_of_mem_replicate hmem]
    exact sized_fg (hlen hfg)
  · obtain ⟨run, rest, hrun, color, rest', hcolor, rfl⟩ := h
    refine ⟨id, fun hfg pel hmem => ?_, (length_takePel hcolor).2.trans_lt (length_extractRunLength hrun), hnot⟩
    rw [List.eq_of_mem_replicate hmem]
    exact sized_abs color
  · obtain ⟨run, rest, hrun, pels, rest', himage, rfl⟩ := h
    exact ⟨id, fun _ => sized_colorImage himage, (length_colorImage himage).trans_lt (length_extractRunLength hrun),
      hnot⟩
  · obtain ⟨run, rest, hrun, fg', rest', hset, pels, rest'', himage, rfl⟩ := h
    obtain ⟨hlen, hle⟩ := length_setFg hset
    exact ⟨hlen, fun hfg => sized_fgbgImage (hlen hfg) himage,
      (length_fgbgImage himage).trans_lt (hle.trans_lt (length_extractRunLength hrun)), hnot⟩
  · obtain ⟨run, rest, hrun, pel1, rest', hpel1, pel2, rest'', hpel2, rfl⟩ := h
    refine ⟨id, fun hfg pel hmem => ?_, (length_takePel hpel2).2.trans_lt
      ((length_takePel hpel1).2.trans_lt (length_extractRunLength hrun)), hnot⟩
    obtain ⟨pair, hpair, hmem⟩ := List.mem_flatten.1 hmem
    rw [List.eq_of_mem_replicate hpair] at hmem
    obtain rfl | rfl : pel = .abs pel1 ∨ pel = .abs pel2 := by simpa using hmem
    · exact sized_abs pel1
    · exact sized_abs pel2
  · subst h
    exact ⟨id, fun hfg => sized_fgbgPels hfg _ _, htail, hnot⟩
  · subst h
    exact ⟨id, fun hfg => sized_fgbgPels hfg _ _, htail, hnot⟩
  all_goals
    subst h
    refine ⟨id, fun hfg pel hmem => ?_, htail, hnot⟩
    rw [List.mem_singleton.1 hmem]
    exact sized_abs _

/-- The bitmap so far, with the cursor in it. -/
structure Cur where
  dst : Bytes
  d : ℕ
deriving DecidableEq

/-- A pixel at the cursor, which it moves on. -/
def put (p : ℕ) (c : Cur) (pel : Bytes) : Option Cur :=
  if c.dst.length < c.d + p then none
  else some ⟨c.dst.take c.d ++ pel.take p ++ c.dst.drop (c.d + p), c.d + p⟩

def writePel (above : Cur → Bytes) (p : ℕ) (c : Cur) : Pel → Option Cur
  | .bg => put p c (above c)
  | .fg pel => put p c (List.zipWith (· ^^^ ·) (above c) pel)
  | .abs pel => put p c pel

def black (p : ℕ) : Bytes := List.replicate p 0

def rowUp (row_delta p : ℕ) (c : Cur) : Bytes := (c.dst.drop (c.d - row_delta)).take p

def abovePel (row_delta p : ℕ) (c : Cur) : Bytes := if row_delta ≤ c.d then rowUp row_delta p c else black p

def aboveLine (first : Bool) (row_delta p : ℕ) (c : Cur) : Bytes := if first then black p else rowUp row_delta p c

def writePels (above : Cur → Bytes) (p : ℕ) (c : Cur) (pels : List Pel) : Option Cur := pels.foldlM (writePel above p) c

/-- The decoder between two orders. -/
structure State where
  cur : Cur
  fg : Bytes
  prev_bg : Bool
deriving DecidableEq

/-- One pass of the loop of `decompress_interleaved`. -/
def pass (row_delta p : ℕ) (st : State) (src : Bytes) : Option (State × Bytes) := do
  let o ← order p st.fg st.prev_bg src
  let cur ← writePels (abovePel row_delta p) p st.cur o.pels
  some (⟨cur, o.fg, o.bg⟩, o.rest)


theorem length_pass {row_delta p : ℕ} {st st' : State} {src rest : Bytes}
    (h : pass row_delta p st src = some (st', rest)) : rest.length < src.length := by
  simp only [pass, Option.bind_eq_bind, Option.bind_eq_some_iff, Option.some.injEq, Prod.mk.injEq] at h
  obtain ⟨o, ho, cur, -, -, rfl⟩ := h
  exact (order_sound ho).rest

/-- The loop of `decompress_interleaved`. -/
def decompressLoop (row_delta p : ℕ) (st : State) (src : Bytes) : Option Bytes :=
  if src = [] then some st.cur.dst
  else match _h : pass row_delta p st src with
    | none => none
    | some (st, rest) => decompressLoop row_delta p st rest
termination_by src.length
decreasing_by exact length_pass _h

def pixelSize (bpp : UInt16) : Option ℕ :=
  if bpp = 8 then some 1 else if bpp = 15 ∨ bpp = 16 then some 2 else if bpp = 24 then some 3 else none

def start (total : ℕ) : Cur := ⟨List.replicate total 0, 0⟩

def white (p : ℕ) : Bytes := List.replicate p 0xFF

def decompressInterleaved (src : Bytes) (width height bpp : UInt16) : Option Bytes := do
  let p ← pixelSize bpp
  let total := width.toNat * height.toNat * p
  if total = 0 then some []
  else decompressLoop (width.toNat * p) p ⟨start total, white p, false⟩ src

/-- The procedure between two orders. -/
structure Scan where
  cur : Cur
  fg : Bytes
  first : Bool
  insert : Bool
deriving DecidableEq

def Scan.boundary (row_delta : ℕ) (s : Scan) : Scan :=
  if s.first ∧ row_delta ≤ s.cur.d then { s with first := false, insert := false } else s

def scanPass (row_delta p : ℕ) (s : Scan) (src : Bytes) : Option (Scan × Bytes) := do
  let s := s.boundary row_delta
  let o ← order p s.fg s.insert src
  let cur ← writePels (aboveLine s.first row_delta p) p s.cur o.pels
  some (⟨cur, o.fg, s.first, o.bg⟩, o.rest)

theorem length_scanPass {row_delta p : ℕ} {s s' : Scan} {src rest : Bytes}
    (h : scanPass row_delta p s src = some (s', rest)) : rest.length < src.length := by
  simp only [scanPass, Option.bind_eq_bind, Option.bind_eq_some_iff, Option.some.injEq, Prod.mk.injEq] at h
  obtain ⟨o, ho, cur, -, -, rfl⟩ := h
  exact (order_sound ho).rest

def scanLoop (row_delta p : ℕ) (s : Scan) (src : Bytes) : Option Bytes :=
  if src = [] then some s.cur.dst
  else match _h : scanPass row_delta p s src with
    | none => none
    | some (s, rest) => scanLoop row_delta p s rest
termination_by src.length
decreasing_by exact length_scanPass _h

def rdpDecompress (src : Bytes) (width height bpp : UInt16) : Option Bytes := do
  let p ← pixelSize bpp
  scanLoop (width.toNat * p) p ⟨start (width.toNat * height.toNat * p), white p, true, false⟩ src

/-- Pixels that refer to the one a row up. -/
def Pel.Relative (pel : Pel) : Prop := ∀ color, pel ≠ .abs color

def BlackAbove (row_delta p : ℕ) : Cur → List Pel → Prop
  | _, [] => True
  | c, pel :: pels =>
    (pel.Relative → row_delta ≤ c.d → rowUp row_delta p c = black p) ∧
      ∀ c', writePel (aboveLine true row_delta p) p c pel = some c' → BlackAbove row_delta p c' pels

/-- A background run after another, between which the first line ended. -/
def Reset (row_delta : ℕ) (s : Scan) (o : Order) : Prop :=
  o.bg = true ∧ s.insert = true ∧ (s.boundary row_delta).insert = false

/-- An order that does not reach the first line's end in a way that shows. -/
def Settled (row_delta p : ℕ) (s : Scan) (src : Bytes) : Prop :=
  ∀ o, order p s.fg (s.boundary row_delta).insert src = some o →
    ((s.boundary row_delta).first = true → BlackAbove row_delta p s.cur o.pels) ∧
      (Reset row_delta s o → s.fg = black p ∧ o.pels ≠ [])

/-- An order that is not an empty background run at the first line's end. -/
def Proper (row_delta p : ℕ) (s : Scan) (src : Bytes) : Prop :=
  ∀ o, order p s.fg (s.boundary row_delta).insert src = some o → Reset row_delta s o → o.pels ≠ []

/-- `P` at every boundary of the procedure's run. -/
inductive Throughout (row_delta p : ℕ) (P : Scan → Bytes → Prop) : Scan → Bytes → Prop
  | nil (s : Scan) : Throughout row_delta p P s []
  | cons {s s' : Scan} {src rest : Bytes} (h : P s src) (hpass : scanPass row_delta p s src = some (s', rest))
      (hrest : Throughout row_delta p P s' rest) : Throughout row_delta p P s src

def ThroughoutOf (P : ℕ → ℕ → Scan → Bytes → Prop) (src : Bytes) (width height bpp : UInt16) : Prop :=
  ∀ p, pixelSize bpp = some p → width.toNat * height.toNat * p ≠ 0 →
    Throughout (width.toNat * p) p (P (width.toNat * p) p)
      ⟨start (width.toNat * height.toNat * p), white p, true, false⟩ src

/-- What lies behind the cursor stays. -/
structure Grows (c c' : Cur) : Prop where
  d : c.d ≤ c'.d
  dst : c'.dst.take c.d = c.dst.take c.d

theorem Grows.refl (c : Cur) : Grows c c := ⟨le_rfl, rfl⟩

theorem Grows.trans {c c' c'' : Cur} (h : Grows c c') (h' : Grows c' c'') : Grows c c'' := by
  refine ⟨h.d.trans h'.d, ?_⟩
  calc c''.dst.take c.d = (c''.dst.take c'.d).take c.d := by rw [List.take_take, min_eq_left h.d]
    _ = (c'.dst.take c'.d).take c.d := by rw [h'.dst]
    _ = c'.dst.take c.d := by rw [List.take_take, min_eq_left h.d]
    _ = c.dst.take c.d := h.dst

/-- Behind both cursors the two bitmaps differ. -/
def Differ (c c' : Cur) : Prop := ∃ n, n ≤ c.d ∧ n ≤ c'.d ∧ c.dst.take n ≠ c'.dst.take n

theorem Differ.of_grows {c c' e e' : Cur} (h : Differ c c') (he : Grows c e) (he' : Grows c' e') : Differ e e' := by
  obtain ⟨n, hn, hn', hne⟩ := h
  refine ⟨n, hn.trans he.d, hn'.trans he'.d, fun heq => hne ?_⟩
  calc c.dst.take n = (c.dst.take c.d).take n := by rw [List.take_take, min_eq_left hn]
    _ = e.dst.take n := by rw [← he.dst, List.take_take, min_eq_left hn]
    _ = e'.dst.take n := heq
    _ = (c'.dst.take c'.d).take n := by rw [← he'.dst, List.take_take, min_eq_left hn']
    _ = c'.dst.take n := by rw [List.take_take, min_eq_left hn']

theorem Differ.ne {c c' : Cur} (h : Differ c c') : c.dst ≠ c'.dst := by
  obtain ⟨n, -, -, hne⟩ := h
  exact fun heq => hne (by rw [heq])

variable {row_delta p : ℕ}

theorem put_eq_some {c c' : Cur} {pel : Bytes} (h : put p c pel = some c') :
    c.d + p ≤ c.dst.length ∧ c' = ⟨c.dst.take c.d ++ pel.take p ++ c.dst.drop (c.d + p), c.d + p⟩ := by
  unfold put at h
  split_ifs at h with hlen
  exact ⟨not_lt.1 hlen, (Option.some.inj h).symm⟩

theorem grows_put {c c' : Cur} {pel : Bytes} (h : put p c pel = some c') : Grows c c' := by
  obtain ⟨hlen, rfl⟩ := put_eq_some h
  refine ⟨Nat.le_add_right _ _, ?_⟩
  have htake : (c.dst.take c.d).length = c.d := List.length_take_of_le (by omega)
  dsimp only
  rw [List.append_assoc, List.take_append_of_le_length htake.ge, List.take_take, min_self]

theorem put_congr {c : Cur} {pel pel' : Bytes} (h : c.d + p ≤ c.dst.length → pel = pel') :
    put p c pel = put p c pel' := by
  unfold put
  split_ifs with hlen
  · rfl
  · rw [h (not_lt.1 hlen)]

theorem differ_put {c c₁ c₂ : Cur} {pel₁ pel₂ : Bytes} (h₁ : put p c pel₁ = some c₁) (h₂ : put p c pel₂ = some c₂)
    (hlen₁ : pel₁.length = p) (hlen₂ : pel₂.length = p) (hne : pel₁ ≠ pel₂) : Differ c₁ c₂ := by
  obtain ⟨hlen, rfl⟩ := put_eq_some h₁
  obtain ⟨-, rfl⟩ := put_eq_some h₂
  refine ⟨c.d + p, le_rfl, le_rfl, fun heq => hne ?_⟩
  have htake : (c.dst.take c.d).length = c.d := List.length_take_of_le (by omega)
  have hcut : ∀ pel : Bytes, pel.length = p →
      (c.dst.take c.d ++ pel.take p ++ c.dst.drop (c.d + p)).take (c.d + p) = c.dst.take c.d ++ pel := by
    intro pel hpel
    rw [List.take_of_length_le hpel.le]
    exact List.take_left' (by rw [List.length_append, htake, hpel])
  dsimp only at heq
  rw [hcut _ hlen₁, hcut _ hlen₂] at heq
  exact List.append_cancel_left heq

theorem grows_writePel {above : Cur → Bytes} {c c' : Cur} {pel : Pel} (h : writePel above p c pel = some c') :
    Grows c c' := by
  cases pel <;> exact grows_put h

theorem grows_writePels {above : Cur → Bytes} {c c' : Cur} {pels : List Pel}
    (h : writePels above p c pels = some c') : Grows c c' := by
  induction pels generalizing c with
  | nil =>
    cases h
    exact Grows.refl _
  | cons pel pels ih =>
    simp only [writePels, List.foldlM_cons, Option.bind_eq_bind, Option.bind_eq_some_iff] at h
    obtain ⟨e, he, h⟩ := h
    exact (grows_writePel he).trans (ih h)

theorem writePels_cons (above : Cur → Bytes) (c : Cur) (pel : Pel) (pels : List Pel) :
    writePels above p c (pel :: pels) = (writePel above p c pel).bind (writePels above p · pels) := rfl

/-! ### The pixels of one order -/

theorem xor_right_inj {as bs fg : Bytes} (hlen : as.length = bs.length) (hfg : as.length ≤ fg.length)
    (h : List.zipWith (· ^^^ ·) as fg = List.zipWith (· ^^^ ·) bs fg) : as = bs := by
  induction as generalizing bs fg with
  | nil => exact (List.length_eq_zero_iff.1 hlen.symm).symm
  | cons a as ih =>
    rcases bs with - | ⟨b, bs⟩
    · cases hlen
    rcases fg with - | ⟨f, fg⟩
    · exact absurd hfg (Nat.not_succ_le_zero _)
    simp only [List.zipWith_cons_cons, List.cons.injEq, UInt8.xor_left_inj] at h
    rw [h.1, ih (Nat.succ.inj hlen) (Nat.le_of_succ_le_succ hfg) h.2]

theorem xor_black {as : Bytes} (hlen : as.length = p) : List.zipWith (· ^^^ ·) as (black p) = as := by
  induction as generalizing p with
  | nil => rfl
  | cons a as ih =>
    subst hlen
    simp only [black, List.length_cons, List.replicate_succ, List.zipWith_cons_cons, UInt8.xor_zero]
    exact congrArg (a :: ·) (ih rfl)

theorem length_black : (black p).length = p := List.length_replicate

theorem length_rowUp {c : Cur} (h : c.d + p ≤ c.dst.length) : (rowUp row_delta p c).length = p := by
  unfold rowUp
  rw [List.length_take, List.length_drop]
  omega

theorem writePel_congr {above above' : Cur → Bytes} {c : Cur} {pel : Pel}
    (h : pel.Relative → c.d + p ≤ c.dst.length → above c = above' c) :
    writePel above p c pel = writePel above' p c pel := by
  cases pel with
  | bg => exact put_congr (h (by simp [Pel.Relative]))
  | fg pel => exact put_congr fun hlen => by rw [h (by simp [Pel.Relative]) hlen]
  | abs pel => rfl

theorem differ_writePel {above above' : Cur → Bytes} {c c₁ c₂ : Cur} {pel : Pel} (hrel : pel.Relative)
    (hsized : pel.Sized p) (h₁ : writePel above p c pel = some c₁) (h₂ : writePel above' p c pel = some c₂)
    (hlen : (above c).length = p) (hlen' : (above' c).length = p) (hne : above c ≠ above' c) : Differ c₁ c₂ := by
  cases pel with
  | bg => exact differ_put h₁ h₂ hlen hlen' hne
  | fg color =>
    have hcolor : color.length = p := hsized color rfl
    refine differ_put h₁ h₂ ?_ ?_ fun heq => hne (xor_right_inj (hlen.trans hlen'.symm) (by omega) heq)
    · rw [List.length_zipWith, hlen, hcolor, min_self]
    · rw [List.length_zipWith, hlen', hcolor, min_self]
  | abs color => exact absurd rfl (hrel color)

theorem room_of_writePel {above : Cur → Bytes} {c c' : Cur} {pel : Pel} (h : writePel above p c pel = some c') :
    c.d + p ≤ c.dst.length := by
  cases pel <;> exact (put_eq_some h).1

theorem writePel_first {c : Cur} {pel : Pel}
    (hup : pel.Relative → row_delta ≤ c.d → rowUp row_delta p c = black p) :
    writePel (abovePel row_delta p) p c pel = writePel (aboveLine true row_delta p) p c pel := by
  refine writePel_congr fun hrel _ => ?_
  by_cases hd : row_delta ≤ c.d
  · rw [abovePel, if_pos hd, hup hrel hd]
    rfl
  · exact if_neg hd

theorem writePels_of_blackAbove {c c' : Cur} {pels : List Pel} (h : BlackAbove row_delta p c pels)
    (hpels : writePels (aboveLine true row_delta p) p c pels = some c') :
    writePels (abovePel row_delta p) p c pels = some c' := by
  induction pels generalizing c with
  | nil => exact hpels
  | cons pel pels ih =>
    obtain ⟨hup, hnext⟩ := h
    rw [writePels_cons, Option.bind_eq_some_iff] at hpels
    obtain ⟨e, he, hpels⟩ := hpels
    rw [writePels_cons, writePel_first hup, he]
    exact ih (hnext e he) hpels

theorem differ_of_not_blackAbove {c c₁ c₂ : Cur} {pels : List Pel} (hsized : ∀ pel ∈ pels, pel.Sized p)
    (h : ¬ BlackAbove row_delta p c pels) (h₁ : writePels (aboveLine true row_delta p) p c pels = some c₁)
    (h₂ : writePels (abovePel row_delta p) p c pels = some c₂) : Differ c₁ c₂ := by
  induction pels generalizing c with
  | nil => exact absurd trivial h
  | cons pel pels ih =>
    rw [writePels_cons, Option.bind_eq_some_iff] at h₁ h₂
    obtain ⟨e₁, he₁, h₁⟩ := h₁
    obtain ⟨e₂, he₂, h₂⟩ := h₂
    have hroom := room_of_writePel he₁
    by_cases hup : pel.Relative → row_delta ≤ c.d → rowUp row_delta p c = black p
    · -- this pixel is the same in both, so it is one that follows
      have heq : e₁ = e₂ := Option.some.inj (by rw [← he₁, ← he₂, writePel_first hup])
      subst heq
      refine ih (fun pel' hmem => hsized pel' (List.mem_cons_of_mem _ hmem)) (fun hnext => h ⟨hup, ?_⟩) h₁ h₂
      intro e he
      rwa [← Option.some.inj (he₁.symm.trans he)]
    · obtain ⟨hrel, hd, hne⟩ : pel.Relative ∧ row_delta ≤ c.d ∧ rowUp row_delta p c ≠ black p := by
        simpa only [Classical.not_imp] using hup
      have habove : abovePel row_delta p c = rowUp row_delta p c := if_pos hd
      have hdiffer : Differ e₁ e₂ := by
        refine differ_writePel hrel (hsized pel List.mem_cons_self) he₁ he₂ length_black ?_ ?_
        · rw [habove]
          exact length_rowUp hroom
        · rw [habove]
          exact hne.symm
      exact hdiffer.of_grows (grows_writePels h₁) (grows_writePels h₂)

theorem writePels_beyond {c : Cur} {pels : List Pel} (h : row_delta ≤ c.d) :
    writePels (abovePel row_delta p) p c pels = writePels (aboveLine false row_delta p) p c pels := by
  induction pels generalizing c with
  | nil => rfl
  | cons pel pels ih =>
    have hpel : writePel (abovePel row_delta p) p c pel = writePel (aboveLine false row_delta p) p c pel :=
      writePel_congr fun _ _ => if_pos h
    rw [writePels_cons, writePels_cons, hpel]
    refine Option.bind_congr fun e he => ih (h.trans (grows_writePel he).d)

theorem writePels_insert_black {c : Cur} {n : ℕ} (hn : n ≠ 0) :
    writePels (aboveLine false row_delta p) p c (.fg (black p) :: List.replicate (n - 1) .bg) =
      writePels (aboveLine false row_delta p) p c (List.replicate n .bg) := by
  obtain ⟨n, rfl⟩ := Nat.exists_eq_succ_of_ne_zero hn
  have hpel : writePel (aboveLine false row_delta p) p c (.fg (black p)) =
      writePel (aboveLine false row_delta p) p c .bg :=
    put_congr fun hlen => xor_black (length_rowUp hlen)
  rw [List.replicate_succ, writePels_cons, writePels_cons, hpel]
  rfl

theorem differ_insert {c c₁ c₂ : Cur} {n : ℕ} {fg : Bytes} (hn : n ≠ 0) (hlen : fg.length = p) (hfg : fg ≠ black p)
    (h₁ : writePels (aboveLine false row_delta p) p c (List.replicate n .bg) = some c₁)
    (h₂ : writePels (aboveLine false row_delta p) p c (.fg fg :: List.replicate (n - 1) .bg) = some c₂) :
    Differ c₁ c₂ := by
  obtain ⟨n, rfl⟩ := Nat.exists_eq_succ_of_ne_zero hn
  rw [List.replicate_succ, writePels_cons, Option.bind_eq_some_iff] at h₁
  rw [writePels_cons, Option.bind_eq_some_iff] at h₂
  obtain ⟨e₁, he₁, h₁⟩ := h₁
  obtain ⟨e₂, he₂, h₂⟩ := h₂
  have hup : (rowUp row_delta p c).length = p := length_rowUp (room_of_writePel he₁)
  have hdiffer : Differ e₁ e₂ := by
    refine differ_put he₁ he₂ hup (by rw [List.length_zipWith, hlen]; exact min_eq_right hup.ge) fun heq => hfg ?_
    -- the pixel above is the foreground's mask in itself, so the mask is black
    have hzip : List.zipWith (· ^^^ ·) fg (rowUp row_delta p c) =
        List.zipWith (· ^^^ ·) (black p) (rowUp row_delta p c) := by
      rw [List.zipWith_comm_of_comm UInt8.xor_comm, List.zipWith_comm_of_comm UInt8.xor_comm (l := black p),
        xor_black hup]
      exact heq.symm
    exact xor_right_inj (by rw [hlen, length_black]) (by rw [hlen, hup]) hzip
  exact hdiffer.of_grows (grows_writePels h₁) (grows_writePels h₂)

theorem order_insert {fg src : Bytes} {o : Order} (h : order p fg false src = some o) :
    (o.bg = true ∧ o.fg = fg ∧ o.pels = List.replicate o.pels.length .bg ∧
        order p fg true src = some { o with pels := .fg fg :: List.replicate (o.pels.length - 1) .bg }) ∨
      o.bg = false ∧ order p fg true src = some o := by
  have ho := h
  simp only [order, Option.bind_eq_bind, Option.bind_eq_some_iff] at h
  obtain ⟨head, hhead, h⟩ := h
  by_cases hbg : extractCodeId head ∈ [C_BG_RUN, C_MEGA_BG_RUN]
  · left
    simp only [if_pos hbg, Option.bind_eq_some_iff, Option.some.injEq, Prod.exists] at h
    obtain ⟨run, rest, hrun, rfl⟩ := h
    refine ⟨rfl, rfl, by simp, ?_⟩
    simp only [order, hhead, hrun, if_pos hbg, Option.bind_eq_bind, Option.bind_some]
    simp
  · right
    have heq : order p fg true src = order p fg false src := by
      simp only [order, hhead, if_neg hbg, Option.bind_eq_bind, Option.bind_some]
    exact ⟨Bool.eq_false_iff.2 fun hrun => hbg (((order_sound ho).bg head hhead).1 hrun), heq.trans ho⟩

/-! ### Pass by pass -/

def Scan.state (s : Scan) : State := ⟨s.cur, s.fg, s.insert⟩

/-- Past the first line the flag says so, and the foreground has a pixel's size. -/
structure Scan.Sound (row_delta p : ℕ) (s : Scan) : Prop where
  beyond : s.first = false → row_delta ≤ s.cur.d
  fg : s.fg.length = p

theorem Scan.boundary_eq (s : Scan) (row_delta : ℕ) :
    (s.boundary row_delta).cur = s.cur ∧ (s.boundary row_delta).fg = s.fg := by
  unfold boundary
  split_ifs <;> exact ⟨rfl, rfl⟩

theorem Scan.Sound.boundary_beyond {s : Scan} (h : s.Sound row_delta p)
    (hfirst : (s.boundary row_delta).first = false) : row_delta ≤ s.cur.d := by
  unfold boundary at hfirst
  split_ifs at hfirst with hreset
  · exact hreset.2
  · exact h.beyond hfirst

theorem Scan.boundary_insert (s : Scan) (row_delta : ℕ) : (s.boundary row_delta).insert = s.insert ∨
      s.insert = true ∧ (s.boundary row_delta).insert = false ∧ (s.boundary row_delta).first = false := by
  unfold boundary
  split_ifs
  · cases s.insert
    · exact Or.inl rfl
    · exact Or.inr ⟨rfl, rfl, rfl⟩
  · exact Or.inl rfl

theorem scanPass_eq_some {s s' : Scan} {src rest : Bytes} (h : scanPass row_delta p s src = some (s', rest)) :
    ∃ o, order p s.fg (s.boundary row_delta).insert src = some o ∧
      writePels (aboveLine (s.boundary row_delta).first row_delta p) p s.cur o.pels = some s'.cur ∧
      s'.fg = o.fg ∧ s'.first = (s.boundary row_delta).first ∧ s'.insert = o.bg ∧ rest = o.rest := by
  obtain ⟨hcur, hfg⟩ := s.boundary_eq row_delta
  simp only [scanPass, Option.bind_eq_bind, Option.bind_eq_some_iff, Option.some.injEq, Prod.mk.injEq, hcur, hfg] at h
  obtain ⟨o, ho, cur, hpels, rfl, rfl⟩ := h
  exact ⟨o, ho, hpels, rfl, rfl, rfl, rfl⟩

theorem Scan.Sound.scanPass {s s' : Scan} {src rest : Bytes} (h : s.Sound row_delta p)
    (hpass : scanPass row_delta p s src = some (s', rest)) : s'.Sound row_delta p := by
  obtain ⟨o, ho, hpels, hfg, hfirst, -, -⟩ := scanPass_eq_some hpass
  constructor
  · intro hbeyond
    exact (h.boundary_beyond (hfirst.symm.trans hbeyond)).trans (grows_writePels hpels).d
  · rw [hfg]
    exact (order_sound ho).size h.fg

theorem pass_of_order {st : State} {src : Bytes} {o : Order} {cur : Cur}
    (ho : order p st.fg st.prev_bg src = some o)
    (hpels : writePels (abovePel row_delta p) p st.cur o.pels = some cur) :
    pass row_delta p st src = some (⟨cur, o.fg, o.bg⟩, o.rest) := by
  simp [pass, ho, hpels]

theorem pass_order {st st' : State} {src rest : Bytes} (h : pass row_delta p st src = some (st', rest)) :
    ∃ o, order p st.fg st.prev_bg src = some o ∧ writePels (abovePel row_delta p) p st.cur o.pels = some st'.cur := by
  simp only [pass, Option.bind_eq_bind, Option.bind_eq_some_iff, Option.some.injEq, Prod.mk.injEq] at h
  obtain ⟨o, ho, cur, hpels, rfl, -⟩ := h
  exact ⟨o, ho, hpels⟩

theorem writePels_settled {s : Scan} {o : Order} {cur : Cur} (hs : s.Sound row_delta p)
    (hblack : (s.boundary row_delta).first = true → BlackAbove row_delta p s.cur o.pels)
    (hpels : writePels (aboveLine (s.boundary row_delta).first row_delta p) p s.cur o.pels = some cur) :
    writePels (abovePel row_delta p) p s.cur o.pels = some cur := by
  cases hfirst : (s.boundary row_delta).first with
  | true =>
    rw [hfirst] at hpels
    exact writePels_of_blackAbove (hblack hfirst) hpels
  | false =>
    rw [hfirst] at hpels
    rw [writePels_beyond (hs.boundary_beyond hfirst), hpels]

theorem pass_of_settled {s s' : Scan} {src rest : Bytes} (hs : s.Sound row_delta p) (h : Settled row_delta p s src)
    (hpass : scanPass row_delta p s src = some (s', rest)) :
    pass row_delta p s.state src = some (s'.state, rest) := by
  obtain ⟨o, ho, hpels, hfg, -, hbg, rfl⟩ := scanPass_eq_some hpass
  obtain ⟨hblack, hreset⟩ := h o ho
  have hwrite := writePels_settled hs hblack hpels
  have hstate : s'.state = ⟨s'.cur, o.fg, o.bg⟩ := by rw [Scan.state, hfg, hbg]
  rw [hstate]
  obtain hsame | ⟨hset, hclear, hfirst⟩ := s.boundary_insert row_delta
  · rw [hsame] at ho
    exact pass_of_order ho hwrite
  · rw [hclear] at ho
    obtain ⟨hrun, hofg, hrep, hins⟩ | ⟨-, hins⟩ := order_insert ho
    · -- the flag is cleared here, in the procedure only
      obtain ⟨hfgblack, hne⟩ := hreset ⟨hrun, hset, hclear⟩
      have hn : o.pels.length ≠ 0 := fun hzero => hne (List.length_eq_zero_iff.1 hzero)
      have hd := hs.boundary_beyond hfirst
      have hsource : order p s.state.fg s.state.prev_bg src =
          some { o with pels := .fg s.fg :: List.replicate (o.pels.length - 1) .bg } := by
        rw [← hins]
        exact congrArg (order p s.fg · src) hset
      have hpels' : writePels (abovePel row_delta p) p s.state.cur (.fg s.fg :: List.replicate (o.pels.length - 1) .bg) =
          some s'.cur := by
        change writePels (abovePel row_delta p) p s.cur _ = _
        rw [writePels_beyond hd, hfgblack, writePels_insert_black hn, ← hrep, ← writePels_beyond hd, hwrite]
      have hsource' := pass_of_order hsource hpels'
      exact hsource'
    · refine pass_of_order ?_ hwrite
      rw [← hins]
      exact congrArg (order p s.fg · src) hset

theorem differ_of_not_settled {s s' : Scan} {st : State} {src rest rest' : Bytes} (hs : s.Sound row_delta p)
    (hproper : Proper row_delta p s src) (h : ¬ Settled row_delta p s src)
    (hpass : scanPass row_delta p s src = some (s', rest))
    (hsource : pass row_delta p s.state src = some (st, rest')) : Differ s'.cur st.cur := by
  obtain ⟨o, ho, hpels, -, -, -, -⟩ := scanPass_eq_some hpass
  obtain ⟨o', ho', hpels'⟩ := pass_order hsource
  have hsized := (order_sound ho).sized hs.fg
  by_cases hblack : (s.boundary row_delta).first = true → BlackAbove row_delta p s.cur o.pels
  · -- then the flag was cleared under a foreground that is not black
    obtain ⟨⟨hrun, hset, hclear⟩, hfg⟩ : Reset row_delta s o ∧ ¬ (s.fg = black p ∧ o.pels ≠ []) := by
      by_contra hnot
      refine h fun o'' ho'' => ?_
      obtain rfl : o = o'' := Option.some.inj (ho.symm.trans ho'')
      exact ⟨hblack, fun hreset => by_contra fun hfg => hnot ⟨hreset, hfg⟩⟩
    have hne : o.pels ≠ [] := hproper o ho ⟨hrun, hset, hclear⟩
    have hfgne : s.fg ≠ black p := fun heq => hfg ⟨heq, hne⟩
    have hn : o.pels.length ≠ 0 := fun hzero => hne (List.length_eq_zero_iff.1 hzero)
    obtain hsame | ⟨-, -, hfirst⟩ := s.boundary_insert row_delta
    · rw [hsame, hset] at hclear
      cases hclear
    rw [hclear] at ho
    obtain ⟨-, -, hrep, hins⟩ | ⟨hnot, -⟩ := order_insert ho
    · have ho'' : order p s.fg true src = some o' := by
        rw [← ho']
        exact (congrArg (order p s.fg · src) hset).symm
      rw [hins] at ho''
      cases ho''
      have hd := hs.boundary_beyond hfirst
      rw [hfirst, hrep] at hpels
      have hpels'' := hpels'
      dsimp only [Scan.state] at hpels''
      rw [writePels_beyond hd] at hpels''
      exact differ_insert hn hs.fg hfgne hpels hpels''
    · rw [hrun] at hnot
      cases hnot
  · obtain ⟨hfirst, hblack⟩ := Classical.not_imp.1 hblack
    obtain hsame | ⟨-, -, hnot⟩ := s.boundary_insert row_delta
    · rw [hsame] at ho
      obtain rfl : o = o' := Option.some.inj (ho.symm.trans ho')
      rw [hfirst] at hpels
      exact differ_of_not_blackAbove hsized hblack hpels hpels'
    · rw [hfirst] at hnot
      cases hnot

/-! ### Whole streams -/

theorem decompressLoop_nil (st : State) : decompressLoop row_delta p st [] = some st.cur.dst := by
  rw [decompressLoop, if_pos rfl]

theorem decompressLoop_of_pass {st st' : State} {src rest : Bytes} (h : pass row_delta p st src = some (st', rest)) :
    decompressLoop row_delta p st src = decompressLoop row_delta p st' rest := by
  have hne : src ≠ [] := by
    rintro rfl
    exact absurd (length_pass h) (Nat.not_lt_zero _)
  rw [decompressLoop, if_neg hne]
  split
  · next hnone => rw [h] at hnone; cases hnone
  · next hsome =>
    rw [h] at hsome
    cases hsome
    rfl

theorem decompressLoop_eq_some {st : State} {src bs : Bytes} (h : decompressLoop row_delta p st src = some bs)
    (hne : src ≠ []) : ∃ st' rest, pass row_delta p st src = some (st', rest) ∧
      decompressLoop row_delta p st' rest = some bs := by
  cases hpass : pass row_delta p st src with
  | none =>
    rw [decompressLoop, if_neg hne] at h
    split at h
    · cases h
    · next hsome => rw [hpass] at hsome; cases hsome
  | some next =>
    obtain ⟨st', rest⟩ := next
    exact ⟨st', rest, rfl, (decompressLoop_of_pass hpass).symm.trans h⟩

theorem scanLoop_eq_some {s : Scan} {src bs : Bytes} (h : scanLoop row_delta p s src = some bs) (hne : src ≠ []) :
    ∃ s' rest, scanPass row_delta p s src = some (s', rest) ∧ scanLoop row_delta p s' rest = some bs := by
  rw [scanLoop, if_neg hne] at h
  split at h
  · cases h
  · next s' rest hsome => exact ⟨s', rest, hsome, h⟩

theorem take_decompressLoop {st : State} {src bs : Bytes} (h : decompressLoop row_delta p st src = some bs) :
    bs.take st.cur.d = st.cur.dst.take st.cur.d := by
  induction hn : src.length using Nat.strong_induction_on generalizing src st with
  | _ n ih =>
    by_cases hne : src = []
    · subst hne
      rw [decompressLoop_nil] at h
      cases h
      rfl
    · obtain ⟨st', rest, hpass, hloop⟩ := decompressLoop_eq_some h hne
      obtain ⟨o, -, hpels⟩ := pass_order hpass
      have hgrows := grows_writePels hpels
      exact (hgrows.trans ⟨le_rfl, ih _ (hn ▸ length_pass hpass) hloop rfl⟩ : Grows st.cur ⟨bs, st'.cur.d⟩).dst

theorem take_scanLoop {s : Scan} {src bs : Bytes} (h : scanLoop row_delta p s src = some bs) :
    bs.take s.cur.d = s.cur.dst.take s.cur.d := by
  induction hn : src.length using Nat.strong_induction_on generalizing src s with
  | _ n ih =>
    by_cases hne : src = []
    · subst hne
      rw [scanLoop, if_pos rfl] at h
      cases h
      rfl
    · obtain ⟨s', rest, hpass, hloop⟩ := scanLoop_eq_some h hne
      obtain ⟨o, -, hpels, -⟩ := scanPass_eq_some hpass
      have hgrows := grows_writePels hpels
      exact (hgrows.trans ⟨le_rfl, ih _ (hn ▸ length_scanPass hpass) hloop rfl⟩ : Grows s.cur ⟨bs, s'.cur.d⟩).dst

theorem decompressLoop_of_throughout {s : Scan} {src bs : Bytes} (hs : s.Sound row_delta p)
    (h : Throughout row_delta p (Settled row_delta p) s src) (hscan : scanLoop row_delta p s src = some bs) :
    decompressLoop row_delta p s.state src = some bs := by
  induction h with
  | nil s =>
    rw [scanLoop, if_pos rfl] at hscan
    rw [decompressLoop_nil]
    exact hscan
  | cons hsettled hpass hrest ih =>
    obtain ⟨s'', rest', hpass', hscan⟩ := scanLoop_eq_some hscan (by
      rintro rfl
      exact absurd (length_scanPass hpass) (Nat.not_lt_zero _))
    cases hpass.symm.trans hpass'
    rw [decompressLoop_of_pass (pass_of_settled hs hsettled hpass)]
    exact ih (hs.scanPass hpass) hscan

theorem throughout_of_decompressLoop {s : Scan} {src bs : Bytes} (hs : s.Sound row_delta p)
    (h : Throughout row_delta p (Proper row_delta p) s src) (hscan : scanLoop row_delta p s src = some bs)
    (hsource : decompressLoop row_delta p s.state src = some bs) :
    Throughout row_delta p (Settled row_delta p) s src := by
  induction h with
  | nil s => exact .nil s
  | @cons s s' src rest hproper hpass hrest ih =>
    have hne : src ≠ [] := by
      rintro rfl
      exact absurd (length_scanPass hpass) (Nat.not_lt_zero _)
    obtain ⟨s'', rest', hpass', hscan⟩ := scanLoop_eq_some hscan hne
    cases hpass.symm.trans hpass'
    obtain ⟨st, rest', hsourcePass, hsource⟩ := decompressLoop_eq_some hsource hne
    by_cases hsettled : Settled row_delta p s src
    · cases hsourcePass.symm.trans (pass_of_settled hs hsettled hpass)
      exact .cons hsettled hpass (ih (hs.scanPass hpass) hscan hsource)
    · -- the difference would still be there at the end
      have hdiffer := differ_of_not_settled hs hproper hsettled hpass hsourcePass
      have hfinal : Differ ⟨bs, s'.cur.d⟩ ⟨bs, st.cur.d⟩ :=
        hdiffer.of_grows ⟨le_rfl, take_scanLoop hscan⟩ ⟨le_rfl, take_decompressLoop hsource⟩
      exact absurd rfl hfinal.ne

theorem sound_start (total : ℕ) : (⟨start total, white p, true, false⟩ : Scan).Sound row_delta p :=
  ⟨fun h => Bool.noConfusion h, List.length_replicate⟩

theorem writePels_empty {above : Cur → Bytes} {c c' : Cur} {pels : List Pel} (hp : 0 < p) (hc : c.dst = [])
    (h : writePels above p c pels = some c') : c' = c := by
  rcases pels with - | ⟨pel, pels⟩
  · exact (Option.some.inj h).symm
  · rw [writePels_cons, Option.bind_eq_some_iff] at h
    obtain ⟨e, he, -⟩ := h
    have hroom := room_of_writePel he
    rw [hc, List.length_nil] at hroom
    omega

theorem scanLoop_empty {s : Scan} {src bs : Bytes} (hp : 0 < p) (hs : s.cur.dst = [])
    (h : scanLoop row_delta p s src = some bs) : bs = [] := by
  induction hn : src.length using Nat.strong_induction_on generalizing src s with
  | _ n ih =>
    by_cases hne : src = []
    · subst hne
      rw [scanLoop, if_pos rfl] at h
      rw [← Option.some.inj h, hs]
    · obtain ⟨s', rest, hpass, hloop⟩ := scanLoop_eq_some h hne
      obtain ⟨o, -, hpels, -⟩ := scanPass_eq_some hpass
      have hcur : s'.cur = s.cur := writePels_empty hp hs hpels
      exact ih _ (hn ▸ length_scanPass hpass) (by rw [hcur, hs]) hloop rfl

theorem pos_of_pixelSize {bpp : UInt16} (h : pixelSize bpp = some p) : 0 < p := by
  unfold pixelSize at h
  split_ifs at h <;> cases h <;> decide

variable {src bs : Bytes} {width height bpp : UInt16}

end Rdpio.Graphics.InterleavedRle
