import Mathlib.Algebra.Order.Ring.Nat

/-!
# EGFX commands

`crates/rdp-pdu/src/gfx.rs`: the commands of the graphics pipeline (MS-RDPEGFX), as its parser hands
them on.
-/

namespace Rdpio.Graphics

/-- `RDPGFX_RECT16`: right and bottom are exclusive. -/
structure Rect16 where
  left : UInt16
  top : UInt16
  right : UInt16
  bottom : UInt16
deriving DecidableEq

structure Point16 where
  x : UInt16
  y : UInt16
deriving DecidableEq

/-- A parsed EGFX server command. -/
inductive GfxCommand where
  | capsConfirm (version flags : UInt32)
  | createSurface (surface_id width height : UInt16) (pixel_format : UInt8)
  | deleteSurface (surface_id : UInt16)
  | mapSurfaceToOutput (surface_id : UInt16) (x y : UInt32)
  | startFrame (timestamp frame_id : UInt32)
  | endFrame (frame_id : UInt32)
  | resetGraphics (width height monitor_count : UInt32)
  /-- The color's bytes are B, G, R, XA. -/
  | solidFill (surface_id : UInt16) (color : UInt32) (rects : List Rect16)
  | wireToSurface1 (surface_id codec_id : UInt16) (pixel_format : UInt8) (dest : Rect16)
      (bitmap : List UInt8)
  /-- A progressive payload: its tiles' positions are in the bitstream. -/
  | wireToSurface2 (surface_id codec_id : UInt16) (codec_context_id : UInt32) (pixel_format : UInt8)
      (bitmap : List UInt8)
  | deleteEncodingContext (surface_id : UInt16) (codec_context_id : UInt32)
  | surfaceToSurface (surface_src surface_dst : UInt16) (rect_src : Rect16) (dest_pts : List Point16)
  | surfaceToCache (surface_id : UInt16) (cache_key : UInt64) (slot : UInt16) (rect_src : Rect16)
  | cacheToSurface (slot surface_id : UInt16) (dest_pts : List Point16)
  | other (cmd_id : UInt16)
deriving DecidableEq

def GfxCommand.frames : GfxCommand → Bool
  | .startFrame _ _ | .endFrame _ => true
  | _ => false

def GfxCommand.endsFrame : GfxCommand → Bool
  | .endFrame _ => true
  | _ => false

def openAfter (in_frame : Bool) : GfxCommand → Bool
  | .startFrame _ _ => true
  | .endFrame _ => false
  | _ => in_frame

def openFrom (in_frame : Bool) (cs : List GfxCommand) : Bool := cs.foldl openAfter in_frame

def alternate (in_frame : Bool) : GfxCommand → Option Bool
  | .startFrame _ _ => if in_frame then none else some true
  | .endFrame _ => if in_frame then some false else none
  | _ => some in_frame

def Alternate (cs : List GfxCommand) : Prop := (cs.foldlM alternate false).isSome

instance (cs : List GfxCommand) : Decidable (Alternate cs) := inferInstanceAs (Decidable (_ = true))

theorem openFrom_concat (o : Bool) (cs : List GfxCommand) (c : GfxCommand) :
    openFrom o (cs ++ [c]) = openAfter (openFrom o cs) c := by
  rw [openFrom, List.foldl_append]
  rfl

theorem openFrom_append (o : Bool) (cs ds : List GfxCommand) :
    openFrom o (cs ++ ds) = openFrom (openFrom o cs) ds := List.foldl_append

theorem openAfter_of_frames {c : GfxCommand} (h : c.frames = true) (o o' : Bool) : openAfter o c = openAfter o' c := by
  cases c <;> first | rfl | simp [GfxCommand.frames] at h

theorem openAfter_of_not_frames {c : GfxCommand} (h : c.frames = false) (o : Bool) : openAfter o c = o := by
  cases c <;> first | rfl | simp [GfxCommand.frames] at h

theorem openFrom_of_not_frames {cs : List GfxCommand} (h : cs.any GfxCommand.frames = false)
    (o : Bool) : openFrom o cs = o := by
  induction cs with
  | nil => rfl
  | cons c cs ih =>
    rw [List.any_cons, Bool.or_eq_false_iff] at h
    rw [openFrom, List.foldl_cons, openAfter_of_not_frames h.1]
    exact ih h.2

theorem openFrom_of_frames {cs : List GfxCommand} (h : cs.any GfxCommand.frames = true)
    (o o' : Bool) : openFrom o cs = openFrom o' cs := by
  induction cs generalizing o o' with
  | nil => simp at h
  | cons c cs ih =>
    rw [openFrom, openFrom, List.foldl_cons, List.foldl_cons]
    cases hc : c.frames
    · rw [List.any_cons, hc, Bool.false_or] at h
      exact ih h _ _
    · rw [openAfter_of_frames hc o o']

end Rdpio.Graphics

namespace Rdpio.Graphics

structure Surface where
  width : UInt16
  height : UInt16
  pixel_format : UInt8
  output : Option (UInt32 × UInt32)
deriving DecidableEq

abbrev SurfaceTable := UInt16 → Option Surface

namespace SurfaceTable

def new : SurfaceTable := fun _ => none

variable (t : SurfaceTable)

/-- Only create, delete and map affect the table. -/
def apply : GfxCommand → SurfaceTable
  | .createSurface surface_id width height pixel_format =>
    Function.update t surface_id (some ⟨width, height, pixel_format, none⟩)
  | .deleteSurface surface_id => Function.update t surface_id none
  | .mapSurfaceToOutput surface_id x y =>
    match t surface_id with
    | some s => Function.update t surface_id (some { s with output := some (x, y) })
    | none => t
  | _ => t

def outputOrigin (surface_id : UInt16) : Option (UInt32 × UInt32) := (t surface_id).map fun s => s.output.getD (0, 0)

def origin (surface_id : UInt16) : UInt32 × UInt32 := (t.outputOrigin surface_id).getD (0, 0)

theorem apply_map (surface_id : UInt16) (x y : UInt32) : t.apply (.mapSurfaceToOutput surface_id x y) =
      Function.update t surface_id ((t surface_id).map fun s => { s with output := some (x, y) }) := by
  unfold apply
  dsimp only
  rcases hs : t surface_id with _ | s
  · exact (Function.update_eq_self_iff.mpr hs.symm).symm
  · rfl

end SurfaceTable

namespace Rect16

variable (r : Rect16)

def width : ℕ := r.right.toNat - r.left.toNat

def height : ℕ := r.bottom.toNat - r.top.toNat

theorem width_lt : r.width < 65536 := Nat.lt_of_le_of_lt (Nat.sub_le ..) r.right.toNat_lt

theorem height_lt : r.height < 65536 := Nat.lt_of_le_of_lt (Nat.sub_le ..) r.bottom.toNat_lt

end Rect16

theorem toNat_saturatingSub (a b : UInt16) : (a - min b a).toNat = a.toNat - b.toNat := by
  have hmin : min b a = if b ≤ a then b else a := rfl
  rw [hmin]
  split
  · exact UInt16.toNat_sub_of_le a b ‹_›
  · rw [UInt16.sub_self, Nat.sub_eq_zero_of_le (Nat.le_of_not_le fun hle => ‹¬b ≤ a› (UInt16.le_iff_toNat_le.mpr hle))]
    rfl

def placed (o : UInt32 × UInt32) (x y : UInt16) : ℕ × ℕ := ((o.1 + x.toUInt32).toNat, (o.2 + y.toUInt32).toNat)

theorem placed_of_lt {o : UInt32 × UInt32} {x y : UInt16} (hx : o.1.toNat + x.toNat < 2 ^ 32)
    (hy : o.2.toNat + y.toNat < 2 ^ 32) : placed o x y = (o.1.toNat + x.toNat, o.2.toNat + y.toNat) := by
  rw [placed, UInt32.toNat_add, UInt32.toNat_add, UInt16.toNat_toUInt32, UInt16.toNat_toUInt32,
    Nat.mod_eq_of_lt hx, Nat.mod_eq_of_lt hy]

end Rdpio.Graphics
