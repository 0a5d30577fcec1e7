import Rdpio.Hyper.RateTrouble

/-!
# One keyframe in flight

Requests for a keyframe are collapsed into the one under way.
-/

namespace Rdpio.Hyper.Rate

open Controls (Feedback)
open Lib (run Along)

namespace RateController

variable {s t u : RateController} {w : Window}

/-! ## What `update` counts -/

def SameWait (s t : RateController) : Prop := t.resolved = s.resolved ∧ t.key_wait = s.key_wait

theorem SameWait.trans (h : SameWait s t) (h' : SameWait t u) : SameWait s u := ⟨h'.1.trans h.1, h'.2.trans h.2⟩

theorem sameWait_floorYield (s : RateController) (now : ℕ) : SameWait s (s.floorYield now) := by
  unfold floorYield
  dsimp only
  split_ifs <;> exact ⟨rfl, rfl⟩

theorem sameWait_bulkYield (s : RateController) (w : Window) (q : ℤ × ℤ) : SameWait s (s.bulkYield w q) := by
  unfold bulkYield
  split_ifs <;> exact ⟨rfl, rfl⟩

theorem sameWait_keyProbe (s : RateController) (w : Window) : SameWait s (s.keyProbe w) := by
  unfold keyProbe
  dsimp only
  split_ifs <;> exact ⟨rfl, rfl⟩

theorem sameWait_gapCut (s : RateController) (w : Window) (gap : Option (ℚ × ℚ)) : SameWait s (s.gapCut w gap) := by
  unfold gapCut
  dsimp only
  cases gap.filter _ with
  | none => exact ⟨rfl, rfl⟩
  | some g =>
    dsimp only
    split_ifs <;> exact ⟨rfl, rfl⟩

theorem sameWait_standing (s : RateController) (w : Window) (q : ℤ × ℤ) : SameWait s (s.standing w q).1 := by
  have hbegins : ∀ s : RateController, SameWait s (s.standingBegins w q) := by
    intro s
    unfold standingBegins
    dsimp only
    split_ifs <;> exact ⟨rfl, rfl⟩
  have hstands : ∀ s : RateController, SameWait s (s.standingStands w q).1 := by
    intro s
    unfold standingStands
    dsimp only
    split_ifs <;> exact ⟨rfl, rfl⟩
  have hends : ∀ s : RateController, SameWait s (s.standingEnds w q) := fun s => ⟨rfl, rfl⟩
  unfold standing
  generalize hread : (if s.standing_since_ms.isSome ∨ s.draining then
      { s with
        standing_delivered := (u64 (s.standing_delivered.1 + w.bytes), u64 (s.standing_delivered.2 + w.window_ms)) }
    else s) = r
  have hr : SameWait s r := by
    rw [← hread]
    split_ifs <;> exact ⟨rfl, rfl⟩
  dsimp only
  set r' := ({ r with queue_min_us := q.1, last_queue_us := q.2 } : RateController)
  have hr' : SameWait s r' := hr.trans ⟨rfl, rfl⟩
  split_ifs
  · exact (hr'.trans (hbegins r')).trans (hstands _)
  · exact hr'.trans (hends r')
  · exact hr

theorem sameWait_drainCut (s : RateController) (w : Window) (link : Option ℚ) : SameWait s (s.drainCut w link) := by
  cases link with
  | none => exact ⟨rfl, rfl⟩
  | some link =>
    unfold drainCut
    dsimp only
    split_ifs
    · exact sameWait_floorYield (s.count .drain) w.now_ms
    · exact ⟨rfl, rfl⟩

theorem sameWait_standingCut (s : RateController) (w : Window) (link : ℚ) : SameWait s (s.standingCut w link) :=
  sameWait_floorYield ((s.cutAt (min (s.bitrate * (3 / 4)) (link * (85 / 100))) w.now_ms).count .standing) w.now_ms

theorem sameWait_adjust (s : RateController) (w : Window) (q : ℤ × ℤ) (busy ours : Bool) (gap : Option (ℚ × ℚ)) :
    SameWait s (s.adjust w q busy ours gap) := by
  have hlanded : SameWait s (s.keyLanded w) := by
    unfold keyLanded
    split_ifs <;> exact ⟨rfl, rfl⟩
  have hsettle : ∀ s : RateController, SameWait s (s.settle w busy) := by
    intro s
    unfold settle
    dsimp only
    split_ifs <;> exact ⟨rfl, rfl⟩
  have hgrow : ∀ s : RateController, SameWait s (s.grow w q busy ours gap) := by
    intro s
    unfold grow
    dsimp only
    split_ifs <;> exact ⟨rfl, rfl⟩
  have hdecreased : ∀ (s : RateController) f why, SameWait s (s.decreased w q f why) := by
    intro s f why
    unfold decreased holdGrowth
    dsimp only
    split_ifs
    · unfold lossYield
      split_ifs
      · exact sameWait_floorYield { { s.count why with bitrate := s.cutRate w q f } with link_best := [] } w.now_ms
      · exact sameWait_floorYield { s.count why with bitrate := s.cutRate w q f } w.now_ms
    · exact ⟨rfl, rfl⟩
  unfold adjust
  dsimp only
  generalize s.keyLanded w = r at hlanded ⊢
  cases r.decrease w q busy ours with
  | some p => exact (hlanded.trans (hdecreased r p.1 p.2)).trans (hsettle _)
  | none =>
    dsimp only
    split_ifs
    · exact (hlanded.trans (hgrow r)).trans (hsettle _)
    · exact hlanded.trans (hsettle r)

/-- A second without a frame sent or resolved has passed: everything sent counts as resolved. -/
def quietSecond (s : RateController) (w : Window) : Prop :=
  (w.frames = 0 ∧ w.frames_lost = 0 ∧ s.sent_frames = s.sent_at_last_update) ∧
    1000 ≤ w.now_ms - s.quiet_since_ms.getD w.now_ms

instance (s : RateController) (w : Window) : Decidable (s.quietSecond w) := inferInstanceAs (Decidable (_ ∧ _))

/-- What an update makes of the count. -/
def counted (s : RateController) (w : Window) : ℕ :=
  let resolved := u64 (s.resolved + u32 (w.frames + w.frames_lost))
  if s.quietSecond w then max resolved s.sent_frames else resolved

theorem resolve_counted (s : RateController) (w : Window) :
    (s.resolve w).resolved = s.counted w ∧ (s.resolve w).key_wait = s.key_wait := by
  unfold resolve
  dsimp only
  split_ifs with hquiet hsecond
  · exact ⟨(if_pos (⟨hquiet, hsecond⟩ : s.quietSecond w)).symm, rfl⟩
  · exact ⟨(if_neg fun h : s.quietSecond w => hsecond h.2).symm, rfl⟩
  · exact ⟨(if_neg fun h : s.quietSecond w => hquiet h.1).symm, rfl⟩

theorem heard_counted (s : RateController) (w : Window) :
    (s.heard w).resolved = s.counted w ∧ (s.heard w).key_wait = s.key_wait := by
  have hbefore : ∃ r : RateController, s.heard w = (((r.resolve w).lossSeen w).linkRead w).baseline w ∧
      (r.resolved = s.resolved ∧ r.key_wait = s.key_wait) ∧ r.sent_frames = s.sent_frames ∧
        r.sent_at_last_update = s.sent_at_last_update ∧ r.quiet_since_ms = s.quiet_since_ms := by
    refine ⟨_, rfl, ?_⟩
    unfold retune noteGap measureOverhead
    dsimp only
    split_ifs <;> exact ⟨⟨rfl, rfl⟩, rfl, rfl, rfl⟩
  obtain ⟨r, hheard, ⟨hresolved, hwait⟩, hsent, hlast, hquiet⟩ := hbefore
  obtain ⟨hcounted, hkept⟩ := resolve_counted r w
  have hbaseline : SameWait (r.resolve w) ((((r.resolve w).lossSeen w).linkRead w).baseline w) := by
    unfold baseline
    dsimp only
    split_ifs <;> exact ⟨rfl, rfl⟩
  rw [hheard]
  refine ⟨hbaseline.1.trans (hcounted.trans ?_), hbaseline.2.trans (hkept.trans hwait)⟩
  have hsecond : r.quietSecond w ↔ s.quietSecond w := by
    unfold quietSecond
    rw [hsent, hlast, hquiet]
  unfold counted
  dsimp only
  rw [hresolved, hsent]
  exact if_congr hsecond rfl rfl

theorem updateWith_counted (s : RateController) (w : Window) :
    (s.updateWith w).resolved = s.counted w ∧ (s.updateWith w).key_wait = s.key_wait := by
  obtain ⟨q, busy, ours, gap, heq⟩ := updateWith_eq s w
  have hearly : SameWait (s.heard w) (s.early w) := by
    have hyield := sameWait_bulkYield (s.heard w) w ((s.heard w).queues w)
    unfold early
    dsimp only
    generalize (s.heard w).bulkYield w ((s.heard w).queues w) = a at hyield ⊢
    have hprobe := sameWait_keyProbe { a with last_used := a.delivered w } w
    exact (hyield.trans (hprobe.trans ⟨rfl, rfl⟩ : SameWait a _)).trans (sameWait_gapCut _ w _)
  obtain ⟨hresolved, hwait⟩ := heard_counted s w
  have hstanding := hearly.trans (sameWait_standing (s.early w) w q)
  have hsame : SameWait (s.heard w) (s.updateWith w) := by
    rw [heq]
    split_ifs
    · exact hstanding.trans (sameWait_standingCut _ w _)
    · exact (hstanding.trans (sameWait_drainCut _ w _)).trans (sameWait_adjust _ w q busy ours gap)
    · exact hstanding.trans (sameWait_adjust _ w q busy ours gap)
  exact ⟨hsame.1.trans hresolved, hsame.2.trans hwait⟩

end RateController

/-! ## A run, and what the client has resolved -/

structure Keyframe where
  frame_id : ℕ
  at_ms : ℕ
  until_ms : ℕ
deriving DecidableEq

structure Watch where
  rate : RateController
  heard : ℕ := 0
  keys : List Keyframe := []
  now_ms : ℕ := 0

namespace Watch

open RateController

def noted (a : Watch) (frame_id : UInt32) (bytes : ℕ) (now_us : UInt64) : Keyframe :=
  ⟨frame_id.toNat, nowMs now_us, nowMs now_us + ⌊a.rate.keyWait bytes⌋₊⟩

def step (a : Watch) (c : Call) : Watch :=
  let rate := a.rate.step c
  match c with
  | .noteKeyframe frame_id bytes now_us =>
    { a with rate, keys := a.keys ++ [a.noted frame_id bytes now_us], now_ms := nowMs now_us }
  | .collapseKeyframeRequest now_us => { a with rate, now_ms := nowMs now_us }
  | .update fb _ now_us =>
    { a with rate, heard := a.heard + (fb.frames.toNat + fb.frames_lost.toNat), now_ms := nowMs now_us }
  | _ => { a with rate }

def start (limits : Limits) : Watch := { rate := new limits }

def Clear (a : Watch) : Call → Prop
  | .noteKeyframe frame_id bytes now_us =>
    a.now_ms ≤ nowMs now_us ∧ ∀ k ∈ a.keys, a.heard ≤ k.frame_id → nowMs now_us < k.until_ms →
      k.frame_id ≤ frame_id.toNat ∧ k.until_ms ≤ (a.noted frame_id bytes now_us).until_ms
  | .collapseKeyframeRequest now_us => a.now_ms ≤ nowMs now_us
  | .update fb window_ms now_us =>
    (a.now_ms ≤ nowMs now_us ∧ fb.frames.toNat + fb.frames_lost.toNat < 2^32 ∧
        a.heard + (fb.frames.toNat + fb.frames_lost.toNat) < 2^64) ∧
      (a.rate.quietSecond (Window.of fb window_ms (nowMs now_us)) → a.rate.sent_frames ≤ a.heard)
  | _ => True

structure Collapses (a : Watch) : Prop where
  waits : ∀ now, a.now_ms ≤ now → a.rate.switches.one_keyframe = true → ∀ k ∈ a.keys, a.heard ≤ k.frame_id →
    now < k.until_ms → (a.rate.collapseKeyframeRequest now).2 = true
  answers : ∀ now, (a.rate.collapseKeyframeRequest now).2 = true →
    ∃ k, a.keys.getLast? = some k ∧ a.heard ≤ k.frame_id ∧ (now : ℚ) < k.at_ms + keyWaitMaxMs

/-- What holds in a run of clear calls. -/
structure Inv (a : Watch) : Prop where
  resolved : a.rate.resolved = a.heard
  wait : a.rate.key_wait = a.keys.getLast?.map fun k => (k.frame_id + 1, k.until_ms)
  most : ∀ k ∈ a.keys, k.until_ms ≤ k.at_ms + 10000
  -- The newest keyframe stands for those before it.
  covered : ∀ k ∈ a.keys, a.heard ≤ k.frame_id → a.now_ms < k.until_ms →
    ∃ last, a.keys.getLast? = some last ∧ k.frame_id ≤ last.frame_id ∧ k.until_ms ≤ last.until_ms

theorem keyWait_le (s : RateController) (bytes : ℕ) : ⌊s.keyWait bytes⌋₊ ≤ 10000 := by
  have hmost : s.keyWait bytes ≤ keyWaitMaxMs := by
    have hle : keyWaitMinMs ≤ keyWaitMaxMs := by unfold keyWaitMinMs keyWaitMaxMs; norm_num
    unfold keyWait
    dsimp only
    split_ifs
    · exact le_refl _
    · exact max_le hle (min_le_right _ _)
  refine Nat.floor_le_of_le (hmost.trans ?_)
  unfold keyWaitMaxMs
  norm_num

theorem Inv.collapses {a : Watch} (h : a.Inv) : a.Collapses := by
  constructor
  case waits =>
    intro now hnow hone k hk hheard huntil
    obtain ⟨last, hlast, hid, hlonger⟩ := h.covered k hk hheard (hnow.trans_lt huntil)
    unfold collapseKeyframeRequest keyInFlight
    rw [hone, h.wait, hlast, h.resolved]
    exact decide_eq_true ⟨Nat.lt_succ_of_le (hheard.trans hid), huntil.trans_le hlonger⟩
  case answers =>
    intro now hasked
    unfold collapseKeyframeRequest keyInFlight at hasked
    rw [h.wait, h.resolved, Bool.and_eq_true] at hasked
    have hflight := hasked.2
    cases hlast : a.keys.getLast? with
    | none =>
      rw [hlast] at hflight
      cases hflight
    | some k =>
      rw [hlast] at hflight
      obtain ⟨hheard, huntil⟩ := of_decide_eq_true hflight
      refine ⟨k, rfl, Nat.le_of_lt_succ hheard, ?_⟩
      have hmost := h.most k (List.mem_of_getLast? hlast)
      have hlt : now < k.at_ms + 10000 := huntil.trans_le hmost
      unfold keyWaitMaxMs
      exact_mod_cast hlt

theorem Inv.quiet {a : Watch} (h : a.Inv) {r : RateController} (hr : SameWait a.rate r) : Inv { a with rate := r } :=
  ⟨hr.1.trans h.resolved, hr.2.trans h.wait, h.most, h.covered⟩

theorem Inv.later {a : Watch} (h : a.Inv) {now n : ℕ} (hnow : a.now_ms ≤ now) {r : RateController}
    (hresolved : r.resolved = a.heard + n) (hwait : r.key_wait = a.rate.key_wait) :
    Inv { a with rate := r, heard := a.heard + n, now_ms := now } where
  resolved := hresolved
  wait := hwait.trans h.wait
  most := h.most
  covered := fun k hk hheard huntil => h.covered k hk ((Nat.le_add_right _ _).trans hheard) (hnow.trans_lt huntil)

theorem Inv.step {a : Watch} (h : a.Inv) {c : Call} (hc : a.Clear c) : (a.step c).Inv := by
  cases c with
  | noteKeyframe frame_id bytes now_us =>
    obtain ⟨hnow, hlonger⟩ := hc
    have hwait := keyWait_le a.rate bytes
    have hclock := nowMs_lt now_us
    have hid := frame_id.toNat_lt
    constructor
    case resolved => exact h.resolved
    case wait =>
      change some (u64 (frame_id.toNat + 1), u64 (nowMs now_us + ⌊a.rate.keyWait bytes⌋₊)) =
        ((a.keys ++ [a.noted frame_id bytes now_us]).getLast?).map _
      rw [List.getLast?_concat, u64, u64, Nat.mod_eq_of_lt (by omega), Nat.mod_eq_of_lt (by omega)]
      rfl
    case most =>
      intro k hk
      rcases List.mem_append.mp hk with hk | hk
      · exact h.most k hk
      · rw [List.mem_singleton.mp hk]
        exact Nat.add_le_add_left hwait _
    case covered =>
      intro k hk hheard huntil
      refine ⟨a.noted frame_id bytes now_us, List.getLast?_concat, ?_⟩
      rcases List.mem_append.mp hk with hk | hk
      · exact hlonger k hk hheard huntil
      · rw [List.mem_singleton.mp hk]
        exact ⟨le_refl _, le_refl _⟩
  | collapseKeyframeRequest now_us =>
    have hlater := h.later (n := 0) hc (r := (a.rate.collapseKeyframeRequest (nowMs now_us)).1) h.resolved rfl
    exact hlater
  | update fb window_ms now_us =>
    obtain ⟨⟨hnow, hframes, hheard⟩, hquiet⟩ := hc
    obtain ⟨hcounted, hwait⟩ := updateWith_counted a.rate (a.rate.unpadded (Window.of fb window_ms (nowMs now_us)))
    have hresolved : a.rate.counted (a.rate.unpadded (Window.of fb window_ms (nowMs now_us))) =
        a.heard + (fb.frames.toNat + fb.frames_lost.toNat) := by
      have hsum : u64 (a.rate.resolved + u32 (fb.frames.toNat + fb.frames_lost.toNat)) =
          a.heard + (fb.frames.toNat + fb.frames_lost.toNat) := by
        rw [u32, Nat.mod_eq_of_lt hframes, h.resolved, u64, Nat.mod_eq_of_lt hheard]
      unfold counted
      dsimp only
      rw [show u64 (a.rate.resolved + u32 ((a.rate.unpadded (Window.of fb window_ms (nowMs now_us))).frames +
        (a.rate.unpadded (Window.of fb window_ms (nowMs now_us))).frames_lost)) = _ from hsum]
      split_ifs with hsecond
      · exact max_eq_left ((hquiet hsecond).trans (Nat.le_add_right _ _))
      · rfl
    have hlater := h.later hnow (hcounted.trans hresolved) hwait
    exact hlater
  | warmStart bps =>
    have hsame : SameWait a.rate (a.rate.warmStart bps) := by
      unfold warmStart
      dsimp only
      split_ifs <;> exact ⟨rfl, rfl⟩
    exact h.quiet hsame
  | _ => exact h.quiet ⟨rfl, rfl⟩

theorem inv_start (limits : Limits) : (start limits).Inv where
  resolved := rfl
  wait := rfl
  most := by rintro k ⟨⟩
  covered := by rintro k ⟨⟩

end Watch

/-- In every state of a run of clear calls, requests are collapsed as they should be. -/
theorem requests_collapse (limits : Limits) (calls : List Call)
    (h : Along Watch.step Watch.Clear (Watch.start limits) calls) (done : List Call) (hdone : done <+: calls) :
    (run Watch.step (Watch.start limits) done).Collapses :=
  (Lib.invariant_along Watch.Inv (Watch.inv_start limits) (fun _ _ hinv hc => hinv.step hc)
    (h.of_prefix hdone)).collapses

theorem requests_collapse_first :
    ((run Watch.step (Watch.start ⟨500000, 1000000, 100000000⟩) [.noteSent 300000 330000, .noteKeyframe 0 300000 0]).rate
      |>.collapseKeyframeRequest 9999).2 = true := by
  have hclear : Along Watch.step Watch.Clear (Watch.start ⟨500000, 1000000, 100000000⟩)
      [.noteSent 300000 330000, .noteKeyframe 0 300000 0] := ⟨trivial, ⟨Nat.zero_le _, by rintro k ⟨⟩⟩, trivial⟩
  exact (requests_collapse ⟨500000, 1000000, 100000000⟩ _ hclear _ List.prefix_rfl).waits 9999 (Nat.zero_le _) rfl
    ⟨0, 0, 10000⟩ (by decide +kernel) (Nat.zero_le _) (by decide)

def bytesOnly : Feedback := ⟨25, 0, 0, 0, 30000, 0, 0, 0, none, 0⟩

/-- The first keyframe's bytes still come, and nothing else was sent; after a quiet second of windows the next request lets
a second keyframe out, though the client has resolved none and the wait is not over. -/
theorem second_keyframe_let_out :
    let a := run Watch.step (Watch.start ⟨500000, 1000000, 100000000⟩)
      [.noteSent 300000 330000, .noteKeyframe 0 300000 0, .update bytesOnly 100 100000, .update bytesOnly 100 200000,
        .update bytesOnly 1000 1200000]
    a.rate.switches.one_keyframe = true ∧ ⟨0, 0, 10000⟩ ∈ a.keys ∧ a.heard = 0 ∧
      (a.rate.collapseKeyframeRequest 1300).2 = false := by
  decide +kernel

end Rdpio.Hyper.Rate
