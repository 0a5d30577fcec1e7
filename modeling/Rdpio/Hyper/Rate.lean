import Mathlib.Data.Rat.Floor
import Mathlib.Tactic.IntervalCases
import Mathlib.Tactic.Linarith
import Rdpio.Hyper.Controls
import Rdpio.Lib.Run

/-!
# The rate controller

`RateController` of `crates/rdp-hyper/src/rate.rs`, with its real numbers taken over the rationals and its
whole numbers as the release build has them, which wraps.
-/

namespace Rdpio.Hyper.Rate

open Controls (Feedback)

def u32 (n : ℕ) : ℕ := n % 2^32

def u64 (n : ℕ) : ℕ := n % 2^64

def i64 (z : ℤ) : ℤ := z.bmod (2^64)

structure Limits where
  min_bps : ℕ
  start_bps : ℕ
  max_bps : ℕ

/-- Behaviours that the host can switch off. -/
structure Switches where
  standing_queue : Bool := true
  drain : Bool := true
  one_keyframe : Bool := true
  key_probe : Bool := true
  gap_cut : Bool := true
  grow_cap : Bool := true
  soft_slow : Bool := true
  probe_train : Bool := true
  pause_hold : Bool := true
  held_burst : Bool := true
  own_queue : Bool := true
  lone_frame : Bool := true
  probe_idle : Bool := true
  lan_floor : Bool := true
  link_memory : Bool := true

inductive Cut where
  | probe
  | gap
  | standing
  | drain
  | loss
  | queue
  | soft
deriving DecidableEq

/-! ## Constants -/

def queueSoftUs : ℤ := 10000
def queueHardUs : ℤ := 30000

def holdMs : ℕ := 600
def recoverAfterMs : ℕ := 5000
def paceMin : ℚ := 3 / 100
def paceMax : ℚ := 6 / 10
def baselineWindows : ℕ := 600
def baselineMs : ℕ := 30000
def pauseMs : ℕ := 2000
def standingUs : ℤ := 100000
def standingMs : ℕ := 500
def standingEveryMs : ℕ := 1000
def standingRebaseMs : ℕ := 15000
def standingFlatUs : ℤ := 50000
def bulkStart : ℚ := 8000000
def bulkMinBps : ℚ := 1000000
def bulkLanMin : ℚ := 20000000
def bulkMax : ℚ := 100000000
def cleanAfterMs : ℕ := 10000
def drainEndUs : ℤ := 50000
def drainTailMs : ℕ := 2000
def keyWaitBaseMs : ℚ := 400
def keyWaitMinMs : ℚ := 600
def keyWaitMaxMs : ℚ := 10000
def keyProbeMs : ℕ := 250
def keyQueueMs : ℕ := 1000
def gapMs : ℕ := 500
def gapCutBelow : ℚ := 1 / 2
def gapGrow : ℚ := 8 / 10
def slowPaceBelowBps : ℚ := 3000000
def warmRamp : ℚ := 106 / 100
def warmRetuneMs : ℕ := 30000
def linkKeepReadings : ℕ := 4
def linkKeepMs : ℕ := 30000
def linkWindowMs : ℕ := 2000
def linkWindowTrainMs : ℕ := 4000
def linkDoubtMs : ℕ := 3000
def linkBestMs : ℕ := 60000
def linkRampBelow : ℚ := 1 / 10
def linkMaxBps : ℚ := 5000000000
def slowPathMs : ℕ := 60000
def carriedMs : ℕ := 20000
def growHeadroom : ℚ := 2
def lanFloorBps : ℚ := 20000000
def lanFloorYieldMs : ℕ := 5000
def lanFloorYieldMaxMs : ℕ := 120000
def lanFloorCalmMs : ℕ := 30000

structure RateController where
  limits : Limits
  bitrate : ℚ
  fec : ℚ := 1 / 10
  loss : ℚ := 0
  pace : ℚ := paceMin
  /-- (when, the window's lowest delay). -/
  minima : List (ℕ × ℤ) := []
  hold_until_ms : ℕ := 0
  last_cut_ms : Option ℕ := none
  queue_cut : Option (ℕ × ℤ) := none
  resting : ℚ
  sent_payload : ℕ := 0
  sent_wire : ℕ := 0
  /-- Wire bytes per payload byte, smoothed. -/
  overhead : ℚ := 115 / 100
  bulk : ℚ := bulkStart
  bulk_busy : Bool := false
  clean_since_ms : Option ℕ := none
  clean : Bool := false
  last_used : ℚ := 0
  last_frames_ms : Option ℕ := none
  standing_since_ms : Option ℕ := none
  standing_start_us : ℤ := 0
  standing_cut : Option (ℕ × ℤ) := none
  standing_span_us : ℤ × ℤ := (0, 0)
  switches : Switches := {}
  draining : Bool := false
  drain_tail_since_ms : Option ℕ := none
  queue_min_us : ℤ := 0
  last_queue_us : ℤ := 0
  /-- Frames sent, and frames that the client has resolved, as its feedback counts them. -/
  sent_frames : ℕ := 0
  resolved : ℕ := 0
  /-- The resolved count to wait for the newest keyframe, and until when at most (ms). -/
  key_wait : Option (ℕ × ℕ) := none
  collapsed : ℕ := 0
  quiet_since_ms : Option ℕ := none
  sent_at_last_update : ℕ := 0
  sustained : ℚ := 0
  sustained_n : ℕ := 0
  warm_cap : Option ℚ := none
  warm_retune : Option (ℕ × ℕ) := none
  lan : Bool := false
  floor_yield_until_ms : ℕ := 0
  floor_yield_ms : ℕ := 0
  link_bps : Option ℚ := none
  link_seen : List (ℕ × ℚ) := []
  link_doubt_until_ms : ℕ := 0
  link_best : List (ℕ × ℚ) := []
  pad_pending : ℕ := 0
  key_sent_ms : ℕ := 0
  key_landed_ms : Option ℕ := none
  key_probe : ℕ × ℕ := (0, 0)
  key_probe_cut : Bool := false
  standing_delivered : ℕ × ℕ := (0, 0)
  /-- Per window: when, wire bytes sent since the one before, bytes delivered, and its length (ms). -/
  gap : List (ℕ × ℕ × ℕ × ℕ) := []
  slow_until_ms : ℕ := 0
  carried : List (ℕ × ℚ) := []
  cuts : Cut → ℕ := fun _ => 0
  paused : Bool := false

def RateController.new (limits : Limits) : RateController :=
  { limits, bitrate := limits.start_bps, resting := limits.start_bps }

structure Window where
  shards : ℕ
  recovered : ℕ
  frames : ℕ
  frames_lost : ℕ
  bytes : ℕ
  delay_min_us : ℤ
  delay_avg_us : ℤ
  link_kbps : ℕ
  window_ms : ℕ
  now_ms : ℕ

def Window.of (fb : Feedback) (window_ms now_ms : ℕ) : Window :=
  ⟨fb.shards.toNat, fb.recovered.toNat, fb.frames.toNat, fb.frames_lost.toNat, fb.bytes.toNat, fb.delay_min_us.toInt,
    fb.delay_avg_us.toInt, fb.link_kbps.toNat, window_ms, now_ms⟩

def clamp (x lo hi : ℚ) : ℚ := max lo (min x hi)

def rateOf (bytes ms : ℕ) (overhead : ℚ) : ℚ := bytes * 8 * 1000 / (max ms 1 : ℕ) / overhead

namespace RateController

variable (s : RateController)

def takeCuts : RateController × (Cut → ℕ) := ({ s with cuts := fun _ => 0 }, s.cuts)

def setSwitches (switches : Switches) : RateController :=
  { s with switches, draining := if !switches.standing_queue || !switches.drain then false else s.draining }

def warmStart (bps : ℕ) : RateController :=
  let bps := clamp bps s.limits.min_bps s.limits.max_bps
  if bps < s.bitrate then
    { s with
      bitrate := bps
      warm_cap := some bps
      -- A relay's rate, remembered: slow from the first window on.
      slow_until_ms := if bps < slowPaceBelowBps then 2^64 - 1 else s.slow_until_ms }
  else s

def setLan (lan : Bool) : RateController := { s with lan }

def noteProbePadding (bytes : ℕ) : RateController := { s with pad_pending := u64 (s.pad_pending + bytes) }

def setPaused (paused : Bool) : RateController := { s with paused }

def noteSent (payload wire : ℕ) : RateController :=
  { s with
    sent_payload := u64 (s.sent_payload + payload)
    sent_wire := u64 (s.sent_wire + wire)
    sent_frames := u64 (s.sent_frames + 1) }

def setBulkBusy (bulk_busy : Bool) : RateController := { s with bulk_busy }

def setResting (bps : ℕ) : RateController := { s with resting := clamp bps s.limits.min_bps s.limits.max_bps }

def keyInFlight (now_ms : ℕ) : Bool := s.key_wait.any fun p => s.resolved < p.1 ∧ now_ms < p.2

/-- How long a keyframe is waited for (ms). -/
def keyWait (bytes : ℕ) : ℚ :=
  let transmit_ms := bytes * 8 * 1000 / max s.bitrate 1
  let queue_ms : ℚ := (max s.queue_min_us 0 : ℤ) / 1000
  -- The stream's first is waited for as long as it takes.
  if s.resolved = 0 then keyWaitMaxMs else clamp (keyWaitBaseMs + 2 * transmit_ms + queue_ms) keyWaitMinMs keyWaitMaxMs

def noteKeyframe (frame_id bytes now_ms : ℕ) : RateController :=
  { s with
    key_wait := some (u64 (frame_id + 1), u64 (now_ms + ⌊s.keyWait bytes⌋₊))
    key_sent_ms := now_ms
    key_probe := (0, 0)
    key_landed_ms := none
    key_probe_cut := false }

def collapseKeyframeRequest (now_ms : ℕ) : RateController × Bool :=
  let waiting := s.switches.one_keyframe && s.keyInFlight now_ms
  ({ s with collapsed := if waiting then u32 (s.collapsed + 1) else s.collapsed }, waiting)

def noteSustained : RateController :=
  { s with
    sustained := if s.sustained_n = 0 then s.bitrate else s.sustained * (95 / 100) + s.bitrate * (5 / 100)
    sustained_n := min (s.sustained_n + 1) (2^32 - 1) }

def floorYield (now_ms : ℕ) : RateController :=
  let again := 0 < s.floor_yield_ms ∧ now_ms < u64 (s.floor_yield_until_ms + lanFloorCalmMs)
  if now_ms < s.floor_yield_until_ms then s
  else
    let floor_yield_ms := if again then min (u64 (s.floor_yield_ms * 2)) lanFloorYieldMaxMs else lanFloorYieldMs
    { s with
      floor_yield_ms
      link_best := if again then [] else s.link_best
      floor_yield_until_ms := u64 (now_ms + floor_yield_ms) }

def linkShown : Option ℚ :=
  let best := if s.lan && s.switches.link_memory then (s.link_best.map Prod.snd).max? else none
  match s.link_bps, best with
  | some l, some b => some (max l b)
  | l, b => l.or b

/-- The rate that delay bumps alone don't cut under. -/
def lanFloor (now_ms : ℕ) : ℚ :=
  if !(s.lan && s.switches.lan_floor) || now_ms < s.floor_yield_until_ms then 0
  else
    let least := min lanFloorBps s.limits.max_bps
    match s.linkShown with
    | some l => min (l / s.overhead * (1 / 2)) least
    | none => least

/-- The least the bulk lane is cut to. -/
def bulkMin (now_ms : ℕ) : ℚ :=
  if 0 < s.lanFloor now_ms then
    match s.linkShown with
    | some l => max (min bulkLanMin (l / 2)) bulkMinBps
    | none => max bulkLanMin bulkMinBps
  else bulkMinBps

/-- The link carries far less than it seemed. -/
def doubtLink (carried : ℚ) (now_ms : ℕ) : RateController :=
  { s with
    link_bps := if s.lan then some (carried * s.overhead) else none
    link_doubt_until_ms := u64 (now_ms + linkDoubtMs)
    link_seen := [] }

def deliveryGap : Option (ℚ × ℚ) :=
  let sent := u64 (s.gap.map fun e => e.2.1).sum
  let got := u64 (s.gap.map fun e => e.2.2.1).sum
  let ms := u64 (s.gap.map fun e => e.2.2.2).sum
  let sent_bps : ℚ := sent * 8 * 1000 / (max ms 1 : ℕ)
  if ms < gapMs * 4 / 5 ∨ got = 0 ∨ sent_bps < s.limits.min_bps then none
  -- Nothing sent (with no least rate): an infinite share, which is under no bound.
  else if sent = 0 then none
  else some (got / sent, got * 8 * 1000 / ms / s.overhead)

def count (c : Cut) : RateController := { s with cuts := Function.update s.cuts c (u32 (s.cuts c + 1)) }

def cutAt (bitrate : ℚ) (now_ms : ℕ) : RateController :=
  { s with
    bitrate
    hold_until_ms := u64 (now_ms + holdMs)
    last_cut_ms := some now_ms
    slow_until_ms := u64 (now_ms + slowPathMs) }

end RateController

end Rdpio.Hyper.Rate

/-! ## The frame rate, over the rationals too -/

namespace Rdpio.Hyper

open Lib

structure FrameRate where
  step : ℕ
  low_since_ms : Option ℕ
  high_since_ms : Option ℕ

namespace FrameRate

def bppLow : ℚ := 15 / 1000

def bppHigh : ℚ := 25 / 1000

def fpsDivisors : List ℕ := [1, 2, 3, 4, 6]

def fpsDownAfterMs : ℕ := 1000

def fpsUpAfterMs : ℕ := 3000

/-- What a call is given besides the time: `floor` is 20, in office mode 10. -/
structure Stream where
  bps : ℕ
  pixels : ℕ
  full : ℕ
  floor : ℕ

variable (c : Stream)

def rate (step : ℕ) : ℕ := max c.full 1 / fpsDivisors.getD step 1

def usable (step : ℕ) : Prop := step = 0 ∨ step < fpsDivisors.length ∧ c.floor ≤ rate c step

instance (step : ℕ) : Decidable (usable c step) := inferInstanceAs (Decidable (_ ∨ _))

def nearest : ℕ → ℕ
  | 0 => 0
  | step + 1 => if usable c (step + 1) then step + 1 else nearest step

def bpp (fps : ℕ) : ℚ := c.bps / (max c.pixels 1 * max fps 1)

/-- Too few bits at a step, and there is a slower one. -/
def Low (step : ℕ) : Prop := usable c (step + 1) ∧ bpp c (rate c step) < bppLow

/-- Bits enough for the step before. -/
def High (step : ℕ) : Prop := 0 < step ∧ bppHigh ≤ bpp c (rate c (step - 1))

instance (step : ℕ) : Decidable (Low c step) := inferInstanceAs (Decidable (_ ∧ _))

instance (step : ℕ) : Decidable (High c step) := inferInstanceAs (Decidable (_ ∧ _))

/-- The new state; the rate returned is that of its step. -/
def followFloor (f : FrameRate) (now_ms : ℕ) : FrameRate :=
  let step := nearest c f.step
  if Low c step then
    let since := f.low_since_ms.getD now_ms
    if fpsDownAfterMs ≤ now_ms - since then ⟨step + 1, none, none⟩ else ⟨step, some since, none⟩
  else if High c step then
    let since := f.high_since_ms.getD now_ms
    if fpsUpAfterMs ≤ now_ms - since then ⟨step - 1, none, none⟩ else ⟨step, none, some since⟩
  else ⟨step, none, none⟩

def Falling (f : FrameRate) : Prop := usable c f.step ∧ (Low c f.step ∨ ¬ High c f.step)

def Rising (f : FrameRate) : Prop := usable c f.step ∧ ¬ Low c f.step

variable {c} {step : ℕ} {f : FrameRate}

theorem usable_nearest (c : Stream) (step : ℕ) : usable c (nearest c step) := by
  induction step with
  | zero => exact .inl rfl
  | succ step ih =>
    rw [nearest]
    split_ifs with h
    · exact h
    · exact ih

theorem nearest_of_usable (h : usable c step) : nearest c step = step := by
  cases step with
  | zero => rfl
  | succ step => rw [nearest, if_pos h]

theorem usable_pred (h : usable c (step + 1)) : usable c step := by
  obtain ⟨hlt, hfloor⟩ := h.resolve_left (Nat.succ_ne_zero step)
  have hle : rate c (step + 1) ≤ rate c step := by
    change step + 1 < 5 at hlt
    have hstep : step < 4 := by omega
    refine Nat.div_le_div_left ?_ ?_ <;> interval_cases step <;> decide
  exact .inr ⟨by omega, hfloor.trans hle⟩

theorem not_high_of_low (h : Low c step) : ¬ High c (step + 1) := by
  intro hhigh
  have hlow := h.2
  have hhigh := hhigh.2
  rw [Nat.add_sub_cancel] at hhigh
  norm_num [bppLow, bppHigh] at hlow hhigh
  linarith

theorem step_followFloor (hnear : nearest c f.step = step) (now_ms : ℕ) :
    let step' := (followFloor c f now_ms).step
    step' = step ∨ Low c step ∧ step' = step + 1 ∨
      ¬ Low c step ∧ ∃ faster, step = faster + 1 ∧ step' = faster ∧ High c step := by
  intro step'
  have hstep : step' = (followFloor c f now_ms).step := rfl
  unfold followFloor at hstep
  rw [hnear] at hstep
  dsimp only at hstep
  split_ifs at hstep with hlow hlong hhigh hlong
  · exact .inr (.inl ⟨hlow, hstep⟩)
  · exact .inl hstep
  · exact .inr (.inr ⟨hlow, step - 1, by have := hhigh.1; omega, hstep, hhigh⟩)
  · exact .inl hstep
  · exact .inl hstep

theorem usable_followFloor (c : Stream) (f : FrameRate) (now_ms : ℕ) : usable c (followFloor c f now_ms).step := by
  have h := usable_nearest c f.step
  obtain hs | ⟨hl, hs⟩ | ⟨-, faster, hstep, hs, -⟩ := step_followFloor (c := c) (f := f) rfl now_ms
  · rwa [hs]
  · exact hs ▸ hl.1
  · exact hs ▸ usable_pred (hstep ▸ h)

theorem Falling.follow (h : Falling c f) (now_ms : ℕ) :
    Falling c (followFloor c f now_ms) ∧ f.step ≤ (followFloor c f now_ms).step := by
  have husable := usable_followFloor c f now_ms
  obtain hs | ⟨hl, hs⟩ | ⟨hl, -, -, -, hh⟩ := step_followFloor (nearest_of_usable h.1) now_ms
  · exact ⟨⟨husable, hs ▸ h.2⟩, hs.ge⟩
  · exact ⟨⟨husable, .inr (hs ▸ not_high_of_low hl)⟩, hs ▸ Nat.le_succ _⟩
  · exact absurd hh (h.2.resolve_left hl)

theorem Rising.follow (h : Rising c f) (now_ms : ℕ) :
    Rising c (followFloor c f now_ms) ∧ (followFloor c f now_ms).step ≤ f.step := by
  have husable := usable_followFloor c f now_ms
  obtain hs | ⟨hl, -⟩ | ⟨-, step, hstep, hs, hh⟩ := step_followFloor (nearest_of_usable h.1) now_ms
  · exact ⟨⟨husable, hs ▸ h.2⟩, hs.le⟩
  · exact absurd hl h.2
  · exact ⟨⟨husable, fun hl => not_high_of_low (hs ▸ hl) (hstep ▸ hh)⟩, hs.le.trans (hstep ▸ Nat.le_succ _)⟩

/-- On a stream that stays as it is the rate never turns: it only falls, or it only rises, at steps its full rate allows. -/
theorem never_turns (c : Stream) (f : FrameRate) (first : ℕ) :
    let after := run (followFloor c) (followFloor c f first)
    (∀ times, usable c (after times).step) ∧ ((∀ times more, (after times).step ≤ (after (times ++ more)).step) ∨
      ∀ times more, (after (times ++ more)).step ≤ (after times).step) := by
  intro after
  have husable := usable_followFloor c f first
  refine ⟨invariant_run (fun f => usable c f.step) husable fun f now _ => usable_followFloor c f now, ?_⟩
  by_cases hlow : Low c (followFloor c f first).step
  · refine .inl fun times more => ?_
    have h := invariant_run (Falling c) ⟨husable, .inl hlow⟩ (fun _ now h => (h.follow now).1) times
    exact (run_mono (fun _ now h => h.follow now) h more).trans_eq (by rw [← run_append])
  · refine .inr fun times more => ?_
    have h := invariant_run (Rising c) ⟨husable, hlow⟩ (fun _ now h => (h.follow now).1) times
    have hle := run_mono (β := ℕᵒᵈ) (fun _ now h => h.follow now) h more
    rwa [← run_append] at hle

end FrameRate

end Rdpio.Hyper
