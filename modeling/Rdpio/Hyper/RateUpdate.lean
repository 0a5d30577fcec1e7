import Rdpio.Hyper.Rate

/-!
# A window of feedback

`RateController::update`, part by part. The parts that only read come as functions of the state they read.
-/

namespace Rdpio.Hyper.Rate

def trimMinima (now_ms : ℕ) : List (ℕ × ℤ) → List (ℕ × ℤ)
  | [] => []
  | e :: rest =>
    if baselineWindows ≤ rest.length + 1 ∨ baselineMs < now_ms - e.1 then trimMinima now_ms rest else e :: rest

def trimLinkSeen (now_ms window keep : ℕ) : List (ℕ × ℚ) → List (ℕ × ℚ)
  | [] => []
  | e :: rest =>
    let age := now_ms - e.1
    if window < age ∧ (keep < rest.length + 1 ∨ linkKeepMs < age) then trimLinkSeen now_ms window keep rest
    else e :: rest

namespace RateController

variable (s : RateController) (w : Window)

def unpadded : Window := { w with bytes := w.bytes - min s.pad_pending w.bytes }

def measureOverhead : RateController :=
  if 0 < s.sent_payload then
    let ratio := clamp (s.sent_wire / s.sent_payload) 1 3
    { s with overhead := s.overhead * (8 / 10) + ratio * (2 / 10) }
  else s

/-- Sent and delivered over the last half second. -/
def noteGap : RateController :=
  let gap := (s.gap ++ [(w.now_ms, s.sent_wire, w.bytes, w.window_ms)]).dropWhile fun e => gapMs < w.now_ms - e.1
  let bytes := u64 (gap.map fun e => e.2.2.1).sum
  let ms := u64 (gap.map fun e => e.2.2.2).sum
  let carried := if gapMs / 2 ≤ ms then s.carried ++ [(w.now_ms, bytes * 8 * 1000 / ms / s.overhead)] else s.carried
  { s with
    gap
    carried := carried.dropWhile fun e => carriedMs < w.now_ms - e.1
    sent_payload := 0
    sent_wire := 0 }

def retune : RateController :=
  let slow_until_ms := if s.slow_until_ms = 2^64 - 1 then u64 (w.now_ms + slowPathMs) else s.slow_until_ms
  let s := { s with slow_until_ms }
  if s.warm_cap.isSome then
    let p := s.warm_retune.getD (u64 (w.now_ms + warmRetuneMs), s.slow_until_ms)
    let s := { s with warm_retune := some p }
    if p.1 ≤ w.now_ms then
      { s with
        warm_cap := none
        -- A slow path from a cut since stays.
        slow_until_ms := if s.slow_until_ms = p.2 then min s.slow_until_ms w.now_ms else s.slow_until_ms }
    else s
  else s

def resolve : RateController :=
  let resolved := u64 (s.resolved + u32 (w.frames + w.frames_lost))
  let s := { s with resolved }
  let s :=
    if w.frames = 0 ∧ w.frames_lost = 0 ∧ s.sent_frames = s.sent_at_last_update then
      let since := s.quiet_since_ms.getD w.now_ms
      { s with
        quiet_since_ms := some since
        resolved := if 1000 ≤ w.now_ms - since then max s.resolved s.sent_frames else s.resolved }
    else { s with quiet_since_ms := none }
  { s with sent_at_last_update := s.sent_frames }

def lossSeen : RateController :=
  let total := u32 (w.shards + w.recovered)
  let raw : ℚ := if 0 < total then w.recovered / total else 0
  let loss := if 0 < total then s.loss * (85 / 100) + raw * (15 / 100) else s.loss
  let pace :=
    if 1 / 100 < raw ∨ 0 < w.frames_lost then min (s.pace * (3 / 2)) paceMax
    else if loss < 2 / 1000 then max (s.pace * (97 / 100)) paceMin
    else s.pace
  let fec := clamp (5 / 100 + loss * 3) (5 / 100) (1 / 2)
  let clean_since_ms :=
    if 0 < raw ∨ 0 < w.frames_lost then none else some (s.clean_since_ms.getD w.now_ms)
  { s with
    loss
    pace
    fec := if 0 < w.frames_lost then max fec (1 / 4) else fec
    clean_since_ms
    clean := clean_since_ms.any fun t => cleanAfterMs ≤ w.now_ms - t }

def linkWindow : ℕ := if s.switches.probe_train then linkWindowTrainMs else linkWindowMs

/-- What the link's probes show. -/
def linkRead : RateController :=
  let reading := (w.now_ms, min (w.link_kbps * 1000 : ℚ) linkMaxBps)
  let read := s.lan && 0 < w.link_kbps
  let seen := if read && s.link_doubt_until_ms ≤ w.now_ms then s.link_seen ++ [reading] else s.link_seen
  let best := if read then s.link_best ++ [reading] else s.link_best
  let keep := if s.switches.probe_idle && s.switches.probe_train then linkKeepReadings else 0
  let link_seen := trimLinkSeen w.now_ms s.linkWindow keep seen
  let link_bps := ((link_seen.map Prod.snd).max?).or s.link_bps
  let recent := (s.carried.filter fun e => w.now_ms - e.1 ≤ s.linkWindow).map Prod.snd
  -- Never under what it demonstrably delivered lately.
  let link_bps :=
    if s.switches.probe_train && s.link_doubt_until_ms ≤ w.now_ms then
      link_bps.map fun l => (recent.max?).elim l fun most => max l (most * s.overhead)
    else link_bps
  { s with
    link_seen
    link_best := best.dropWhile fun e => linkBestMs < w.now_ms - e.1
    link_bps }

/-- The baseline of delays, with the window's own. -/
def baseline : RateController :=
  if 0 < w.frames then
    let minima := if s.last_frames_ms.any fun t => pauseMs < w.now_ms - t then [] else s.minima
    { s with last_frames_ms := some w.now_ms, minima := trimMinima w.now_ms minima ++ [(w.now_ms, w.delay_min_us)] }
  else s

def base : ℤ := ((s.minima.map Prod.snd).min?).getD 0

def queues : ℤ × ℤ := if 0 < w.frames then (i64 (w.delay_min_us - s.base), i64 (w.delay_avg_us - s.base)) else (0, 0)

/-- A queue still there a window later. -/
def lasting (q : ℤ × ℤ) : Bool :=
  let burst := s.switches.held_burst && q.1 < max (q.2.tdiv 2) queueSoftUs
  let lone := s.switches.lone_frame && (w.frames < 2 && q.2 ≤ standingUs)
  0 < w.frames && queueHardUs < q.2 && queueHardUs < s.last_queue_us && !burst && !lone

/-- Could the stream's own bytes have made this queue? -/
def ours (q : ℤ × ℤ) : Bool :=
  let recent := u64 ((s.gap.reverse.take 2).map fun e => e.2.1).sum
  let could := fun l : ℚ =>
    -- Over a link that carries nothing, any bytes take forever; and no bytes, no number of seconds.
    if l = 0 then decide (0 < recent)
    else
      let own_us : ℚ := recent * 8 / l * 1000000
      let too_big := s.switches.own_queue && (2 * own_us < q.2 && q.1 < queueSoftUs)
      queueSoftUs ≤ own_us && !too_big
  s.linkShown.all could || s.lasting w q

def bulkYield (q : ℤ × ℤ) : RateController :=
  if 0 < w.frames_lost ∨ queueSoftUs / 2 < q.2 then { s with bulk := max (s.bulk * (1 / 2)) (s.bulkMin w.now_ms) }
  else if s.bulk_busy then { s with bulk := min (s.bulk * (115 / 100)) bulkMax }
  else s

def delivered : ℚ := rateOf w.bytes w.window_ms s.overhead

def busy : Bool := s.bitrate * (1 / 2) ≤ max (s.delivered w) s.last_used

def keyProbe : RateController :=
  if s.switches.key_probe && s.keyInFlight w.now_ms then
    let s :=
      if 0 < w.bytes ∨ 0 < s.key_probe.2 then
        { s with key_probe := (u64 (s.key_probe.1 + w.bytes), u64 (s.key_probe.2 + w.window_ms)) }
      else s
    let roomy := s.lan && s.link_bps.any fun l => 2 * s.bitrate < l / s.overhead
    let link := rateOf s.key_probe.1 s.key_probe.2 s.overhead * (85 / 100)
    if (keyProbeMs ≤ w.now_ms - s.key_sent_ms ∧ 100 ≤ s.key_probe.2 ∧ !s.key_probe_cut ∧ !roomy) ∧ link < s.bitrate then
      (({ s with key_probe_cut := true }.cutAt (max link s.limits.min_bps) w.now_ms).count .probe).doubtLink link w.now_ms
    else s
  else s

def held (g : ℚ × ℚ) : Bool := s.lan && s.link_bps.any fun l => 2 * g.2 / max g.1 (1 / 100) < l / s.overhead

/-- Far more sent than delivered, for half a second. -/
def gapCut (gap : Option (ℚ × ℚ)) : RateController :=
  let probing := s.switches.key_probe && s.keyInFlight w.now_ms
  match gap.filter fun g => s.switches.gap_cut && g.1 < gapCutBelow && !probing && !s.held g with
  | some (_, link) =>
    let floor := s.lanFloor w.now_ms
    if link * (85 / 100) < s.bitrate ∧ floor < s.bitrate then
      let s := ((s.cutAt (max (max (link * (85 / 100)) s.limits.min_bps) floor) w.now_ms).count .gap).doubtLink link
        w.now_ms
      { s with bulk := s.bulkMin w.now_ms, gap := [] }
    else s
  | none => s

def standingBegins (q : ℤ × ℤ) : RateController :=
  let s :=
    if s.standing_since_ms.isNone then
      { s with standing_start_us := q.1, standing_span_us := (q.1, q.1), standing_since_ms := some w.now_ms }
    else s
  { s with
    drain_tail_since_ms := none
    standing_span_us := (min s.standing_span_us.1 q.1, max s.standing_span_us.2 q.1) }

def standingFlat : Bool :=
  i64 (s.standing_span_us.2 - s.standing_span_us.1) ≤ max (s.standing_start_us.tdiv 5) standingFlatUs

def standingStands (q : ℤ × ℤ) : RateController × Bool × Option ℚ :=
  let since := s.standing_since_ms.getD w.now_ms
  let shrinking := s.standing_cut.any fun p => q.1 < (i64 (p.2 * 9)).tdiv 10
  let due := s.standing_cut.all fun p => standingEveryMs ≤ w.now_ms - p.1
  if standingRebaseMs ≤ w.now_ms - since ∧ (i64 (s.standing_start_us * 9)).tdiv 10 ≤ q.1 ∧ s.standingFlat then
    -- Never drained, never grew.
    ({ s with
        minima := [(w.now_ms, w.delay_min_us)]
        standing_since_ms := none
        standing_cut := none
        draining := false
        standing_delivered := (0, 0) }, false, none)
  else if standingMs ≤ w.now_ms - since then
    let s := { s with draining := s.switches.drain }
    if due then
      let acc := s.standing_delivered
      let link := if 200 ≤ acc.2 then rateOf acc.1 acc.2 s.overhead else s.delivered w
      ({ s with standing_cut := some (w.now_ms, q.1), standing_delivered := (0, 0) }, !shrinking, some link)
    else (s, false, none)
  else (s, false, none)

def standingEnds (q : ℤ × ℤ) : RateController :=
  let near := s.drain_tail_since_ms.getD w.now_ms
  let draining :=
    if q.1 < drainEndUs ∨ !s.switches.standing_queue ∨ drainTailMs ≤ w.now_ms - near then false else s.draining
  { s with
    standing_since_ms := none
    standing_cut := none
    drain_tail_since_ms := some near
    draining
    standing_delivered := if draining then s.standing_delivered else (0, 0) }

def standing (q : ℤ × ℤ) : RateController × Bool × Option ℚ :=
  let s :=
    if s.standing_since_ms.isSome ∨ s.draining then
      { s with
        standing_delivered := (u64 (s.standing_delivered.1 + w.bytes), u64 (s.standing_delivered.2 + w.window_ms)) }
    else s
  if 0 < w.frames then
    let s := { s with queue_min_us := q.1, last_queue_us := q.2 }
    if s.switches.standing_queue ∧ standingUs < q.1 then (s.standingBegins w q).standingStands w q
    else (s.standingEnds w q, false, none)
  else (s, false, none)

def drainCut (link : Option ℚ) : RateController :=
  match link with
  | some link =>
    let s := if link * (85 / 100) < s.bitrate then (s.count .drain).floorYield w.now_ms else s
    { s with bitrate := max (min s.bitrate (link * (85 / 100))) s.limits.min_bps }
  | none => s

def standingCut (link : ℚ) : RateController :=
  let s := (((s.cutAt (min (s.bitrate * (3 / 4)) (link * (85 / 100))) w.now_ms).count .standing).floorYield
    w.now_ms).doubtLink link w.now_ms
  let s := { s with link_best := [] }
  let s := { s with bulk := s.bulkMin w.now_ms }
  { s with bitrate := clamp s.bitrate s.limits.min_bps s.limits.max_bps }.noteSustained

def keyLanded : RateController :=
  if s.key_landed_ms.isNone ∧ s.key_wait.any (fun p => p.1 ≤ s.resolved) then { s with key_landed_ms := some w.now_ms }
  else s

def recut (q : ℤ × ℤ) : Bool :=
  let after_key := s.key_wait.any (fun p => p.1 = 1) &&
    (s.key_landed_ms.any (fun t => t - s.key_sent_ms < keyProbeMs) && w.now_ms - s.key_sent_ms < keyQueueMs)
  !after_key || s.queue_cut.all fun p => holdMs ≤ w.now_ms - p.1 || (i64 (p.2 * 3)).tdiv 2 < q.2

def decrease (q : ℤ × ℤ) (busy ours : Bool) : Option (ℚ × Cut) :=
  if 0 < w.frames_lost then some (3 / 4, .loss)
  else if queueHardUs < q.2 ∧ busy ∧ ours ∧ s.recut w q then some (3 / 4, .queue)
  else if (queueSoftUs < q.2 ∧ busy ∧ ours ∧ s.recut w q) ∧
      !(s.switches.soft_slow && s.bitrate < slowPaceBelowBps) then some (93 / 100, .soft)
  else none

def cutRate (q : ℤ × ℤ) (f : ℚ) : ℚ :=
  let cut := s.bitrate * f
  -- A lost frame alone shouldn't cut below what demonstrably gets through; a growing queue has to drain.
  if q.2 ≤ queueSoftUs then min (max cut (s.delivered w * (85 / 100))) (cut / f) else cut

def lossYield (q : ℤ × ℤ) : RateController :=
  (if queueSoftUs < q.2 then { s with link_best := [] } else s).floorYield w.now_ms

def queueFloor (q : ℤ × ℤ) (f : ℚ) : RateController :=
  { s with
    queue_cut := some (w.now_ms, q.2)
    bitrate := max s.bitrate (min (s.lanFloor w.now_ms) (s.bitrate / f)) }

def holdGrowth (now_ms : ℕ) : RateController :=
  { s with hold_until_ms := u64 (now_ms + holdMs), last_cut_ms := some now_ms }

def decreased (q : ℤ × ℤ) (f : ℚ) (why : Cut) : RateController :=
  let r := { s.count why with bitrate := s.cutRate w q f }
  (if why = .loss then r.lossYield w q else r.queueFloor w q f).holdGrowth w.now_ms

def warm : Bool :=
  (s.warm_cap.isSome && (s.last_cut_ms.isNone && s.bitrate < s.resting)) ||
    s.link_bps.any fun l => s.bitrate < l / s.overhead * linkRampBelow

def halfLink : ℚ := s.link_bps.elim 0 fun l => l / s.overhead / 2

def calm (q : ℤ × ℤ) (ours : Bool) (gap : Option (ℚ × ℚ)) : Bool :=
  (if 0 < w.frames then q.2 ≤ queueSoftUs || !ours
    else w.bytes == 0 || s.last_queue_us ≤ queueSoftUs || !ours) &&
  !(s.switches.gap_cut && gap.any fun g => g.1 < gapGrow)

def capped (x : ℚ) : ℚ :=
  if s.switches.grow_cap ∧ w.now_ms < s.slow_until_ms then
    let carried := (s.carried.map Prod.snd).foldl max (s.delivered w)
    min x (max (max (max (carried * growHeadroom) s.halfLink) s.limits.min_bps) s.bitrate)
  else x

def grow (q : ℤ × ℤ) (busy ours : Bool) (gap : Option (ℚ × ℚ)) : RateController :=
  let factor := if s.warm then warmRamp else 102 / 100
  let resting := s.warm_cap.elim s.resting fun c => min (max c s.halfLink) s.resting
  let calm := s.calm w q ours gap
  if busy ∧ calm then
    let bitrate := s.capped w (s.bitrate * factor)
    { s with bitrate, warm_cap := s.warm_cap.map fun c => max c bitrate }
  else if !busy ∧ calm ∧ !(s.paused && s.switches.pause_hold) ∧ s.bitrate < resting ∧
      s.last_cut_ms.all fun t => recoverAfterMs ≤ w.now_ms - t then
    { s with bitrate := s.capped w (min (s.bitrate * factor) resting) }
  else s

def settle (busy : Bool) : RateController :=
  let s := { s with bitrate := clamp (max s.bitrate (s.lanFloor w.now_ms)) s.limits.min_bps s.limits.max_bps }
  if busy ∧ 0 < w.frames then s.noteSustained else s

def heard : RateController :=
  ((((((({ s with pad_pending := 0 }.measureOverhead).noteGap w).retune w).resolve w).lossSeen w).linkRead w).baseline w)

/-- What follows the cuts for a link that carries less. -/
def adjust (q : ℤ × ℤ) (busy ours : Bool) (gap : Option (ℚ × ℚ)) : RateController :=
  let s := s.keyLanded w
  let s :=
    match s.decrease w q busy ours with
    | some (f, why) => s.decreased w q f why
    | none => if s.hold_until_ms ≤ w.now_ms then s.grow w q busy ours gap else s
  s.settle w busy

/-- `update`, its window without the padding. -/
def updateWith : RateController :=
  let s := s.heard w
  let q := s.queues w
  let ours := s.ours w q
  let s := s.bulkYield w q
  let busy := s.busy w
  let s := ({ s with last_used := s.delivered w }).keyProbe w
  let gap := s.deliveryGap
  let s := s.gapCut w gap
  let p := s.standing w q
  if p.2.1 then p.1.standingCut w (p.2.2.getD (p.1.delivered w))
  else
    let s := if p.1.draining then p.1.drainCut w p.2.2 else p.1
    s.adjust w q busy ours gap

def update (fb : Controls.Feedback) (window_ms now_ms : ℕ) : RateController :=
  s.updateWith (s.unpadded (Window.of fb window_ms now_ms))

end RateController

end Rdpio.Hyper.Rate
