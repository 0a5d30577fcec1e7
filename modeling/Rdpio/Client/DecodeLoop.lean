import Rdpio.Graphics.Commands
import Rdpio.Lib.Run

/-!
# The decode loops

`run_decode_loop` of `crates/rdp-client/src/session.rs` and `decode_loop` of `android/rust/src/rdp/driver.rs`:
the thread that renders EGFX commands.
-/

namespace Rdpio.Client.DecodeLoop

open Lib Graphics

/-- What a decode loop does. -/
inductive Act (Blit : Type) where
  | rendered (c : GfxCommand)
  | resized (width height : UInt16)
  | drew (blit : Blit)
  | presented

structure Desk (R Blit : Type) where
  renderer : R
  log : List (Act Blit)

variable {R Blit : Type}

def Act.command? : Act Blit → Option GfxCommand
  | .rendered c => some c
  | _ => none

def frameOpen (log : List (Act Blit)) : Bool := openFrom false (log.filterMap Act.command?)

def Act.draws : Act Blit → Bool
  | .drew _ => true
  | _ => false

def Act.renders : Act Blit → Bool
  | .rendered _ => true
  | _ => false

def pendingAfter (draws : Act Blit → Bool) (pending : Bool) (a : Act Blit) : Bool :=
  match a with
  | .presented => false
  | a => pending || draws a

def pending (draws : Act Blit → Bool) (log : List (Act Blit)) : Bool := log.foldl (pendingAfter draws) false

/-- Whatever is presented is presented with no frame open. -/
def PresentsWhole (log : List (Act Blit)) : Prop := ∀ pre, pre ++ [.presented] <+: log → frameOpen pre = false

/-- Only whole frames are shown, and every whole frame is. -/
structure Whole (draws : Act Blit → Bool) (log : List (Act Blit)) : Prop where
  presents : PresentsWhole log
  shown : frameOpen log = false → pending draws log = false

/-- Within a burst. -/
structure Drain (R Blit : Type) extends Desk R Blit where
  seen_end_frames : ℕ
  painted : Bool
  in_frame : Bool

/-- What the sink is told before a command is rendered. -/
def sized (c : GfxCommand) : List (Act Blit) :=
  match c with
  | .resetGraphics width height _ => [.resized width.toUInt16 height.toUInt16]
  | _ => []

variable (render : R → GfxCommand → R × List Blit)

def Drain.drawn (d : Drain R Blit) (c : GfxCommand) : Drain R Blit :=
  let (renderer, blits) := render d.renderer c
  { d with
    renderer := renderer
    log := d.log ++ sized c ++ .rendered c :: blits.map .drew
    painted := d.painted || !blits.isEmpty
    in_frame := openAfter d.in_frame c }

/-- After the last frame of the burst. -/
def Drain.ended (total_end_frames : ℕ) (d : Drain R Blit) : Drain R Blit :=
  let seen := d.seen_end_frames + 1
  if seen = total_end_frames ∧ d.painted = true then
    { d with seen_end_frames := seen, log := d.log ++ [.presented], painted := false }
  else { d with seen_end_frames := seen }

def Drain.command (total_end_frames : ℕ) (d : Drain R Blit) (c : GfxCommand) : Drain R Blit :=
  if c.endsFrame then (d.drawn render c).ended total_end_frames else d.drawn render c

/-- One pass of the loop of `run_decode_loop`. -/
def runDecodeLoop (s : Desk R Blit) (batches : List (List GfxCommand)) : Desk R Blit :=
  let total_end_frames := batches.flatten.countP GfxCommand.endsFrame
  let d := batches.flatten.foldl (Drain.command render total_end_frames) ⟨s, 0, false, false⟩
  if d.painted = true ∧ d.in_frame = false then ⟨d.renderer, d.log ++ [.presented]⟩ else d.toDesk

variable (apply : R → GfxCommand → R)

def composed (s : Desk R Blit) (c : GfxCommand) : Desk R Blit := ⟨apply s.renderer c, s.log ++ [.rendered c]⟩

def decodeLoop (s : Desk R Blit) (batches : List (List GfxCommand)) : Desk R Blit :=
  let in_frame := openFrom false batches.flatten
  let s := batches.flatten.foldl (composed apply) s
  if in_frame then s else { s with log := s.log ++ [.presented] }

section Log

variable (draws : Act Blit → Bool) (log : List (Act Blit)) (c : GfxCommand)

theorem frameOpen_append (more : List (Act Blit)) :
    frameOpen (log ++ more) = openFrom (frameOpen log) (more.filterMap Act.command?) := by
  rw [frameOpen, List.filterMap_append, openFrom_append, frameOpen]

@[simp]
theorem frameOpen_presented : frameOpen (log ++ [.presented]) = frameOpen log := frameOpen_append ..

theorem command?_drew (blits : List Blit) : (blits.map Act.drew).filterMap Act.command? = [] := by
  rw [List.filterMap_eq_nil_iff]
  rintro a ha
  obtain ⟨b, -, rfl⟩ := List.mem_map.mp ha
  rfl

theorem command?_sized : (sized c : List (Act Blit)).filterMap Act.command? = [] := by
  cases c <;> rfl

theorem frameOpen_drawn (blits : List Blit) :
    frameOpen (log ++ sized c ++ .rendered c :: blits.map .drew) = openAfter (frameOpen log) c := by
  rw [frameOpen_append, frameOpen_append, command?_sized,
    List.filterMap_cons_some (show Act.command? (.rendered c : Act Blit) = some c from rfl),
    command?_drew]
  rfl

@[simp]
theorem frameOpen_rendered : frameOpen (log ++ [.rendered c]) = openAfter (frameOpen log) c := frameOpen_append ..

@[simp]
theorem pending_presented : pending draws (log ++ [.presented]) = false := by
  rw [pending, List.foldl_append]
  rfl

theorem pending_drawn (blits : List Blit) : pending Act.draws (log ++ sized c ++ .rendered c :: blits.map .drew) =
      (pending Act.draws log || !blits.isEmpty) := by
  have hsized : ∀ p : Bool, (sized c).foldl (pendingAfter (@Act.draws Blit)) p = p := by
    intro p
    cases c <;> first | rfl | exact Bool.or_false p
  have hblits : ∀ (bs : List Blit) (p : Bool),
      (bs.map Act.drew).foldl (pendingAfter Act.draws) p = (p || !bs.isEmpty) := by
    intro bs p
    induction bs generalizing p with
    | nil => exact (Bool.or_false p).symm
    | cons b bs ih =>
      rw [List.map_cons, List.foldl_cons, ih]
      simp [pendingAfter, Act.draws]
  rw [pending, List.foldl_append, List.foldl_append, hsized, List.foldl_cons, hblits, ← pending]
  simp [pendingAfter, Act.draws]

variable {log}

theorem presentsWhole_presented (h : PresentsWhole log) :
    PresentsWhole (log ++ [.presented]) ↔ frameOpen log = false := by
  refine ⟨fun hw => hw log (List.prefix_refl _), fun ho pre hpre => ?_⟩
  rcases List.prefix_concat_iff.mp hpre with heq | hpre
  · rw [List.append_cancel_right heq]
    exact ho
  · exact h pre hpre

theorem PresentsWhole.concat (h : PresentsWhole log) {a : Act Blit} (ha : a ≠ .presented) :
    PresentsWhole (log ++ [a]) := by
  intro pre hpre
  rcases List.prefix_concat_iff.mp hpre with heq | hpre
  · have hlast := congrArg List.getLast? heq
    rw [List.getLast?_concat, List.getLast?_concat, Option.some_inj] at hlast
    exact absurd hlast.symm ha
  · exact h pre hpre

theorem PresentsWhole.append (h : PresentsWhole log) {more : List (Act Blit)}
    (hmore : Act.presented ∉ more) : PresentsWhole (log ++ more) := by
  induction more generalizing log with
  | nil => rwa [List.append_nil]
  | cons a more ih =>
    rw [List.mem_cons, not_or] at hmore
    rw [List.append_cons]
    exact ih (h.concat (Ne.symm hmore.1)) hmore.2

theorem not_presented_drawn (blits : List Blit) :
    (.presented : Act Blit) ∉ sized c ++ .rendered c :: blits.map .drew := by
  cases c <;> simp [sized]

end Log

/-! ## A burst -/

def rendererAfter (r : R) (cs : List GfxCommand) : R := cs.foldl (fun r c => (render r c).1) r

def paints (r : R) : List GfxCommand → Bool
  | [] => false
  | c :: cs => !(render r c).2.isEmpty || paints (render r c).1 cs

theorem rendererAfter_concat (r : R) (cs : List GfxCommand) (c : GfxCommand) :
    rendererAfter render r (cs ++ [c]) = (render (rendererAfter render r cs) c).1 := by
  rw [rendererAfter, List.foldl_append]
  rfl

theorem paints_concat (r : R) (cs : List GfxCommand) (c : GfxCommand) : paints render r (cs ++ [c]) =
      (paints render r cs || !(render (rendererAfter render r cs) c).2.isEmpty) := by
  induction cs generalizing r with
  | nil => exact Bool.or_false _
  | cons c' cs ih => rw [List.cons_append, paints, paints, ih, Bool.or_assoc, rendererAfter,
      rendererAfter, List.foldl_cons]

structure Timely (s : Desk R Blit) (cs : List GfxCommand) : Prop where
  inside : frameOpen s.log = true → cs.any GfxCommand.frames = false → paints render s.renderer cs = false
  closing : pending Act.draws s.log = true → openFrom (frameOpen s.log) cs = false → paints render s.renderer cs = true

structure Drain.Inv (s : Desk R Blit) (done : List GfxCommand) (d : Drain R Blit) : Prop where
  renderer : d.renderer = rendererAfter render s.renderer done
  opened : frameOpen d.log = openFrom (frameOpen s.log) done
  in_frame : d.in_frame = openFrom false done
  pending : pending Act.draws d.log = (d.painted || (!paints render s.renderer done && pending Act.draws s.log))
  painted : done.any GfxCommand.frames = false → d.painted = paints render s.renderer done
  drew : d.painted = true → paints render s.renderer done = true
  presents : PresentsWhole d.log

section Burst

variable {render} {s : Desk R Blit} {done : List GfxCommand} {d : Drain R Blit}

theorem Drain.inv_start (hs : PresentsWhole s.log) : Drain.Inv render s [] ⟨s, 0, false, false⟩ where
  renderer := rfl
  opened := rfl
  in_frame := rfl
  pending := rfl
  painted := fun _ => rfl
  drew := fun h => absurd h Bool.false_ne_true
  presents := hs

theorem Drain.Inv.drawn (h : Drain.Inv render s done d) (c : GfxCommand) :
    Drain.Inv render s (done ++ [c]) (d.drawn render c) where
  renderer := by
    rw [rendererAfter_concat, ← h.renderer]
    rfl
  opened := by
    rw [openFrom_concat, ← h.opened]
    exact frameOpen_drawn ..
  in_frame := by
    rw [openFrom_concat, ← h.in_frame]
    rfl
  pending := by
    have hdrew := h.drew
    rw [paints_concat, ← h.renderer]
    refine (pending_drawn ..).trans ?_
    rw [h.pending]
    show _ = ((d.painted || !(render d.renderer c).2.isEmpty) || _)
    generalize d.painted = p, paints render s.renderer done = drew at hdrew ⊢
    generalize DecodeLoop.pending Act.draws s.log = q, (!(render d.renderer c).2.isEmpty) = more
    revert p drew q more
    decide
  painted := by
    intro hframes
    rw [List.any_append, Bool.or_eq_false_iff] at hframes
    rw [paints_concat, ← h.renderer, ← h.painted hframes.1]
    rfl
  drew := by
    rw [paints_concat, ← h.renderer]
    show (d.painted || !(render d.renderer c).2.isEmpty) = true → _
    rw [Bool.or_eq_true, Bool.or_eq_true]
    exact Or.imp_left h.drew
  presents := by
    show PresentsWhole (d.log ++ sized c ++ .rendered c :: (render d.renderer c).2.map .drew)
    rw [List.append_assoc]
    exact h.presents.append (not_presented_drawn c _)

theorem Drain.Inv.ended (h : Drain.Inv render s done d) (total : ℕ) (hopen : frameOpen d.log = false)
    (hframes : done.any GfxCommand.frames = true) : Drain.Inv render s done (d.ended total) := by
  unfold Drain.ended
  by_cases hlast : d.seen_end_frames + 1 = total ∧ d.painted = true
  · rw [if_pos hlast]
    exact
      { renderer := h.renderer
        opened := (frameOpen_presented _).trans h.opened
        in_frame := h.in_frame
        pending := by
          -- What an earlier burst left was presented as well, as this one has painted.
          rw [pending_presented, h.drew hlast.2]
          rfl
        painted := fun hno => absurd (hframes.symm.trans hno) (by decide)
        drew := fun hno => absurd hno Bool.false_ne_true
        presents := (presentsWhole_presented h.presents).mpr hopen }
  · rw [if_neg hlast]
    exact { h with }

theorem Drain.Inv.command (h : Drain.Inv render s done d) (total : ℕ) (c : GfxCommand) :
    Drain.Inv render s (done ++ [c]) (d.command render total c) := by
  unfold Drain.command
  by_cases hend : c.endsFrame = true
  · rw [if_pos hend]
    have hdrawn := h.drawn c
    refine hdrawn.ended total ?_ ?_
    · rw [hdrawn.opened, openFrom_concat]
      cases c <;> first | rfl | simp [GfxCommand.endsFrame] at hend
    · rw [List.any_append, Bool.or_eq_true]
      right
      cases c <;> first | rfl | simp [GfxCommand.endsFrame] at hend
  · rw [if_neg hend]
    exact h.drawn c

theorem Drain.inv_burst (hs : PresentsWhole s.log) (total : ℕ) (cs : List GfxCommand) :
    Drain.Inv render s cs (cs.foldl (Drain.command render total) ⟨s, 0, false, false⟩) := by
  induction cs using List.reverseRecOn with
  | nil => exact Drain.inv_start hs
  | append_singleton cs c ih =>
    rw [List.foldl_append]
    exact ih.command total c

theorem runDecodeLoop_whole_iff (hs : Whole Act.draws s.log) (batches : List (List GfxCommand)) :
    Whole Act.draws (runDecodeLoop render s batches).log ↔ Timely render s batches.flatten := by
  unfold runDecodeLoop
  extract_lets total d
  have hd : Drain.Inv render s batches.flatten d := Drain.inv_burst hs.presents total _
  clear_value d
  generalize batches.flatten = cs at hd
  -- Whether `in_frame` is right depends on whether the burst opens or closes a frame.
  have hin : cs.any GfxCommand.frames = true → d.in_frame = frameOpen d.log := fun h => by
    rw [hd.in_frame, hd.opened]
    exact openFrom_of_frames h ..
  have hout : cs.any GfxCommand.frames = false → d.in_frame = false ∧ frameOpen d.log = frameOpen s.log := fun h => by
    rw [hd.in_frame, hd.opened, openFrom_of_not_frames h, openFrom_of_not_frames h]
    exact ⟨rfl, rfl⟩
  by_cases hlast : d.painted = true ∧ d.in_frame = false
  · rw [if_pos hlast]
    -- All is presented, and what is in doubt is whether a frame is open.
    have hpaints : paints render s.renderer cs = true := hd.drew hlast.1
    have hwhole : Whole Act.draws (d.log ++ [.presented]) ↔ frameOpen d.log = false :=
      ⟨fun h => (presentsWhole_presented hd.presents).mp h.presents,
        fun h => ⟨(presentsWhole_presented hd.presents).mpr h, fun _ => pending_presented ..⟩⟩
    refine hwhole.trans ⟨fun hopen => ⟨fun hs' hno => ?_, fun _ _ => hpaints⟩, fun ht => ?_⟩
    · rw [(hout hno).2, hs'] at hopen
      exact absurd hopen (by decide)
    · cases hframes : cs.any GfxCommand.frames
      · rw [(hout hframes).2, ← Bool.not_eq_true]
        intro hs'
        exact Bool.false_ne_true ((ht.inside hs' hframes).symm.trans hpaints)
      · exact (hin hframes).symm.trans hlast.2
  · rw [if_neg hlast]
    -- Nothing is presented, and what is in doubt is whether something is pending.
    have hpainted : frameOpen d.log = false → d.painted = false := fun hopen => by
      rw [← Bool.not_eq_true]
      intro hp
      refine hlast ⟨hp, ?_⟩
      cases hframes : cs.any GfxCommand.frames
      · exact (hout hframes).1
      · exact (hin hframes).trans hopen
    refine ⟨fun hw => ⟨fun _ hno => ?_, fun hpend hopen => ?_⟩, fun ht => ⟨hd.presents, fun hopen => ?_⟩⟩
    · rw [← hd.painted hno, ← Bool.not_eq_true]
      exact fun hp => hlast ⟨hp, (hout hno).1⟩
    · rw [← hd.opened] at hopen
      have hnone := hw.shown hopen
      rw [hd.pending, hpainted hopen, hpend, Bool.and_true, Bool.false_or] at hnone
      simpa using hnone
    · have hpaints := fun hpend => ht.closing hpend (hd.opened.symm.trans hopen)
      rw [hd.pending, hpainted hopen, Bool.false_or, Bool.and_eq_false_imp]
      intro hno
      rw [← Bool.not_eq_true]
      intro hpend
      rw [hpaints hpend] at hno
      exact absurd hno (by decide)

theorem composed_spec (apply : R → GfxCommand → R) (hs : PresentsWhole s.log) (cs : List GfxCommand) :
    frameOpen (cs.foldl (composed apply) s).log = openFrom (frameOpen s.log) cs ∧
      PresentsWhole (cs.foldl (composed apply) s).log := by
  induction cs using List.reverseRecOn with
  | nil => exact ⟨rfl, hs⟩
  | append_singleton cs c ih =>
    rw [List.foldl_append, openFrom_concat, ← ih.1]
    exact ⟨frameOpen_rendered .., ih.2.concat (by simp)⟩

theorem decodeLoop_whole_iff {apply : R → GfxCommand → R} (hs : Whole Act.renders s.log)
    (batches : List (List GfxCommand)) :
    Whole Act.renders (decodeLoop apply s batches).log ↔
      (frameOpen s.log = true → batches.flatten.any GfxCommand.frames = true) := by
  unfold decodeLoop
  generalize batches.flatten = cs
  obtain ⟨hopened, hpresents⟩ := composed_spec apply hs.presents cs
  extract_lets in_frame d
  change frameOpen d.log = _ at hopened
  by_cases hin : in_frame = true
  · rw [if_pos hin]
    -- The burst opened a frame, and nothing is shown.
    have hframes : cs.any GfxCommand.frames = true := by
      rw [← Bool.not_eq_false]
      intro hno
      exact Bool.false_ne_true ((openFrom_of_not_frames hno false).symm.trans hin)
    have hopen : frameOpen d.log = true := hopened.trans ((openFrom_of_frames hframes ..).trans hin)
    exact ⟨fun _ _ => hframes, fun _ => ⟨hpresents, fun hno => absurd (hno.symm.trans hopen) Bool.false_ne_true⟩⟩
  · rw [if_neg hin]
    rw [Bool.not_eq_true] at hin
    have hwhole : Whole Act.renders (d.log ++ [.presented]) ↔ frameOpen d.log = false :=
      ⟨fun h => (presentsWhole_presented hpresents).mp h.presents,
        fun h => ⟨(presentsWhole_presented hpresents).mpr h, fun _ => pending_presented ..⟩⟩
    refine hwhole.trans ⟨fun hopen hs' => ?_, fun h => ?_⟩
    · rw [← Bool.not_eq_false]
      intro hno
      rw [hopened, openFrom_of_not_frames hno, hs'] at hopen
      exact Bool.false_ne_true hopen.symm
    · rw [hopened]
      cases hframes : cs.any GfxCommand.frames
      · rw [openFrom_of_not_frames hframes, ← Bool.not_eq_true]
        intro hs'
        exact Bool.false_ne_true (hframes.symm.trans (h hs'))
      · exact (openFrom_of_frames hframes ..).trans hin

end Burst

theorem whole_start (draws : Act Blit → Bool) : Whole draws [] :=
  ⟨fun pre hpre => absurd (List.prefix_nil.mp hpre) (by simp), fun _ => rfl⟩

/-- Only whole frames are shown and every whole frame is, over the whole run, if and only if frames that
bursts cut in two make no trouble: in `run_decode_loop` every burst is timely, and in the Android loop every
burst that follows an open frame opens or closes one. -/
theorem whole_frames_iff (render : R → GfxCommand → R × List Blit) (apply : R → GfxCommand → R) (r : R)
    (bursts : List (List (List GfxCommand))) :
    ((∀ done, done <+: bursts → Whole Act.draws (run (runDecodeLoop render) ⟨r, []⟩ done).log) ↔
        Along (runDecodeLoop render) (fun s batches => Timely render s batches.flatten) ⟨r, []⟩ bursts) ∧
      ((∀ done, done <+: bursts → Whole Act.renders (run (decodeLoop apply) (⟨r, []⟩ : Desk R Blit) done).log) ↔
        Along (decodeLoop apply) (fun (s : Desk R Blit) batches => frameOpen s.log = true →
          batches.flatten.any GfxCommand.frames = true) ⟨r, []⟩ bursts) :=
  ⟨always_iff_along (I := fun s : Desk R Blit => Whole Act.draws s.log)
      (fun _ batches hs => runDecodeLoop_whole_iff hs batches) (whole_start _) bursts,
    always_iff_along (I := fun s : Desk R Blit => Whole Act.renders s.log)
      (fun _ batches hs => decodeLoop_whole_iff hs batches) (whole_start _) bursts⟩

def fills (r : Unit) : GfxCommand → Unit × List Unit
  | .solidFill _ _ _ => (r, [()])
  | _ => (r, [])

/-- A frame in three bursts: its fill is shown while it is open, by both loops. -/
theorem torn_frame : Alternate [.startFrame 0 1, .solidFill 0 0 [], .endFrame 1] ∧
      ¬ Whole Act.draws (run (runDecodeLoop fills) ⟨(), []⟩
        [[[.startFrame 0 1]], [[.solidFill 0 0 []]], [[.endFrame 1]]]).log ∧
      ¬ Whole Act.renders (run (decodeLoop fun r _ => r) (⟨(), []⟩ : Desk Unit Unit)
        [[[.startFrame 0 1]], [[.solidFill 0 0 []]], [[.endFrame 1]]]).log ∧
      ¬ Whole Act.draws (run (runDecodeLoop fills) ⟨(), []⟩
        [[[.startFrame 0 1, .solidFill 0 0 []]], [[.endFrame 1]]]).log := by
  refine ⟨by decide, fun h => ?_, fun h => ?_, fun h => ?_⟩
  · exact Bool.false_ne_true (h.presents [.rendered (.startFrame 0 1), .rendered (.solidFill 0 0 []), .drew ()]
      ⟨[.rendered (.endFrame 1)], rfl⟩).symm
  · exact Bool.false_ne_true (h.presents [.rendered (.startFrame 0 1), .rendered (.solidFill 0 0 [])]
      ⟨[.rendered (.endFrame 1), .presented], rfl⟩).symm
  · exact Bool.false_ne_true (h.shown rfl).symm

end Rdpio.Client.DecodeLoop
