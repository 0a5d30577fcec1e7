import Rdpio.Hyper.RateUpdate

/-!
# Trouble and the rate

What a window of feedback that cuts the rate, or reports a lost frame or a queue, does to the bitrate and the
bulk rate.
-/

namespace Rdpio.Hyper.Rate

open Controls (Feedback)

namespace RateController

variable {s t u : RateController} {w : Window} {now : ℕ}

theorem lt_u64 {d : ℕ} (hnow : now < 2^63) (hpos : 0 < d) (hd : d < 2^62) : now < u64 (now + d) := by
  unfold u64
  omega

/-- The rate is not raised and not put under its least; and where anything but a drain is counted, growth is held. -/
structure Eases (now : ℕ) (s t : RateController) : Prop where
  limits : t.limits = s.limits
  lan : t.lan = s.lan
  switches : t.switches = s.switches
  bitrate : t.bitrate ≤ s.bitrate
  least : (s.limits.min_bps : ℚ) ≤ t.bitrate
  yield_ms : s.floor_yield_ms ≤ lanFloorYieldMaxMs → t.floor_yield_ms ≤ lanFloorYieldMaxMs
  counted : (∀ c, c ≠ .drain → t.cuts c = s.cuts c) ∧ t.hold_until_ms = s.hold_until_ms ∨ now < t.hold_until_ms

theorem Eases.trans (h : Eases now s t) (h' : Eases now t u) : Eases now s u where
  limits := h'.limits.trans h.limits
  lan := h'.lan.trans h.lan
  switches := h'.switches.trans h.switches
  bitrate := h'.bitrate.trans h.bitrate
  least := h.limits ▸ h'.least
  yield_ms := h'.yield_ms ∘ h.yield_ms
  counted := by
    rcases h'.counted with ⟨hcuts', hhold'⟩ | hheld
    · rcases h.counted with ⟨hcuts, hhold⟩ | hheld
      · exact .inl ⟨fun c hc => (hcuts' c hc).trans (hcuts c hc), hhold'.trans hhold⟩
      · exact .inr (hhold' ▸ hheld)
    · exact .inr hheld

/-- Everything that counts here is as it was. -/
structure Keeps (s t : RateController) : Prop where
  limits : t.limits = s.limits
  lan : t.lan = s.lan
  switches : t.switches = s.switches
  bitrate : t.bitrate = s.bitrate
  cuts : t.cuts = s.cuts
  hold : t.hold_until_ms = s.hold_until_ms
  yields : t.floor_yield_until_ms = s.floor_yield_until_ms
  yield_ms : t.floor_yield_ms = s.floor_yield_ms

theorem Keeps.trans (h : Keeps s t) (h' : Keeps t u) : Keeps s u where
  limits := h'.limits.trans h.limits
  lan := h'.lan.trans h.lan
  switches := h'.switches.trans h.switches
  bitrate := h'.bitrate.trans h.bitrate
  cuts := h'.cuts.trans h.cuts
  hold := h'.hold.trans h.hold
  yields := h'.yields.trans h.yields
  yield_ms := h'.yield_ms.trans h.yield_ms

theorem Keeps.eases (h : Keeps s t) (hleast : (s.limits.min_bps : ℚ) ≤ s.bitrate) : Eases now s t where
  limits := h.limits
  lan := h.lan
  switches := h.switches
  bitrate := h.bitrate.le
  least := h.bitrate ▸ hleast
  yield_ms := h.yield_ms.le.trans
  counted := .inl ⟨fun c _ => by rw [h.cuts], h.hold⟩

theorem keeps_heard (s : RateController) (w : Window) : Keeps s (s.heard w) ∧ (s.heard w).bulk = s.bulk := by
  have hoverhead : ∀ s : RateController, Keeps s s.measureOverhead ∧ s.measureOverhead.bulk = s.bulk := by
    intro s
    unfold measureOverhead
    split_ifs <;> exact ⟨⟨rfl, rfl, rfl, rfl, rfl, rfl, rfl, rfl⟩, rfl⟩
  have hretune : ∀ s : RateController, Keeps s (s.retune w) ∧ (s.retune w).bulk = s.bulk := by
    intro s
    unfold retune
    dsimp only
    generalize (if s.slow_until_ms = _ then _ else _) = slow
    split_ifs <;> exact ⟨⟨rfl, rfl, rfl, rfl, rfl, rfl, rfl, rfl⟩, rfl⟩
  have hresolve : ∀ s : RateController, Keeps s (s.resolve w) ∧ (s.resolve w).bulk = s.bulk := by
    intro s
    unfold resolve
    dsimp only
    split_ifs <;> exact ⟨⟨rfl, rfl, rfl, rfl, rfl, rfl, rfl, rfl⟩, rfl⟩
  have hbaseline : ∀ s : RateController, Keeps s (s.baseline w) ∧ (s.baseline w).bulk = s.bulk := by
    intro s
    unfold baseline
    dsimp only
    split_ifs <;> exact ⟨⟨rfl, rfl, rfl, rfl, rfl, rfl, rfl, rfl⟩, rfl⟩
  unfold heard
  obtain ⟨h1, b1⟩ := hoverhead { s with pad_pending := 0 }
  generalize { s with pad_pending := 0 }.measureOverhead = s1 at h1 b1 ⊢
  obtain ⟨h2, b2⟩ := hretune (s1.noteGap w)
  generalize (s1.noteGap w).retune w = s2 at h2 b2 ⊢
  obtain ⟨h3, b3⟩ := hresolve s2
  generalize s2.resolve w = s3 at h3 b3 ⊢
  obtain ⟨h4, b4⟩ := hbaseline ((s3.lossSeen w).linkRead w)
  have hgap : Keeps s1 (s1.noteGap w) := ⟨rfl, rfl, rfl, rfl, rfl, rfl, rfl, rfl⟩
  have hlink : Keeps s3 ((s3.lossSeen w).linkRead w) := ⟨rfl, rfl, rfl, rfl, rfl, rfl, rfl, rfl⟩
  have hpad : Keeps s { s with pad_pending := 0 } := ⟨rfl, rfl, rfl, rfl, rfl, rfl, rfl, rfl⟩
  refine ⟨((((hpad.trans h1).trans hgap).trans h2).trans h3).trans (hlink.trans h4), ?_⟩
  exact b4.trans (b3.trans (b2.trans b1))

theorem keeps_floorYield_bitrate (s : RateController) (now : ℕ) :
    (s.floorYield now).limits = s.limits ∧ (s.floorYield now).lan = s.lan ∧
      (s.floorYield now).switches = s.switches ∧ (s.floorYield now).bitrate = s.bitrate ∧
      (s.floorYield now).cuts = s.cuts ∧ (s.floorYield now).hold_until_ms = s.hold_until_ms ∧
      (s.floorYield now).bulk = s.bulk := by
  unfold floorYield
  dsimp only
  split_ifs <;> exact ⟨rfl, rfl, rfl, rfl, rfl, rfl, rfl⟩

theorem floorYield_ms_le (h : s.floor_yield_ms ≤ lanFloorYieldMaxMs) :
    (s.floorYield now).floor_yield_ms ≤ lanFloorYieldMaxMs := by
  unfold floorYield
  dsimp only
  split_ifs
  · exact h
  · exact min_le_right _ _
  · exact (by decide : lanFloorYieldMs ≤ lanFloorYieldMaxMs)

theorem lt_floorYield (hyield : s.floor_yield_ms ≤ lanFloorYieldMaxMs) (hnow : now < 2^63) :
    now < (s.floorYield now).floor_yield_until_ms := by
  unfold floorYield
  dsimp only
  split_ifs with hyet hagain
  · exact hyet
  · refine lt_u64 hnow ?_ ?_
    · unfold lanFloorYieldMaxMs at hyield ⊢
      have hpos := hagain.1
      unfold u64
      omega
    · exact (Nat.min_le_right _ _).trans_lt (by decide)
  · exact lt_u64 hnow (by decide) (by decide)

theorem lanFloor_eq_zero (h : now < s.floor_yield_until_ms) : s.lanFloor now = 0 := by
  unfold lanFloor
  rw [decide_eq_true h, Bool.or_true, if_pos rfl]

theorem eases_keyProbe (hleast : (s.limits.min_bps : ℚ) ≤ s.bitrate) (hnow : w.now_ms < 2^63) :
    Eases w.now_ms s (s.keyProbe w) := by
  have hsame : Eases w.now_ms s s := Keeps.eases ⟨rfl, rfl, rfl, rfl, rfl, rfl, rfl, rfl⟩ hleast
  unfold keyProbe
  by_cases hprobing : (s.switches.key_probe && s.keyInFlight w.now_ms) = true
  · rw [if_pos hprobing]
    generalize hread : (if 0 < w.bytes ∨ 0 < s.key_probe.2 then
      { s with key_probe := (u64 (s.key_probe.1 + w.bytes), u64 (s.key_probe.2 + w.window_ms)) } else s) = r
    have hr : Keeps s r := by
      rw [← hread]
      split_ifs <;> exact ⟨rfl, rfl, rfl, rfl, rfl, rfl, rfl, rfl⟩
    dsimp only
    split_ifs with hcut
    · refine (hr.eases hleast).trans ⟨rfl, rfl, rfl, ?_, le_max_right _ _, id,
        .inr (lt_u64 hnow (by decide) (by decide))⟩
      exact max_le hcut.2.le (by rw [hr.limits, hr.bitrate]; exact hleast)
    · exact hr.eases hleast
  · rw [if_neg hprobing]
    exact hsame

theorem eases_gapCut (hleast : (s.limits.min_bps : ℚ) ≤ s.bitrate) (hnow : w.now_ms < 2^63) (gap : Option (ℚ × ℚ)) :
    Eases w.now_ms s (s.gapCut w gap) := by
  have hsame : Eases w.now_ms s s := Keeps.eases ⟨rfl, rfl, rfl, rfl, rfl, rfl, rfl, rfl⟩ hleast
  unfold gapCut
  dsimp only
  cases gap.filter _ with
  | none => exact hsame
  | some g =>
    dsimp only
    split_ifs with hcut
    · refine ⟨rfl, rfl, rfl, ?_, ?_, id, .inr (lt_u64 hnow (by decide) (by decide))⟩
      · exact max_le (max_le hcut.1.le hleast) hcut.2.le
      · exact (le_max_right _ _).trans (le_max_left _ _)
    · exact hsame

theorem keeps_standing (s : RateController) (w : Window) (q : ℤ × ℤ) :
    Keeps s (s.standing w q).1 ∧ (s.standing w q).1.bulk = s.bulk := by
  have hbegins : ∀ s : RateController, Keeps s (s.standingBegins w q) ∧ (s.standingBegins w q).bulk = s.bulk := by
    intro s
    unfold standingBegins
    dsimp only
    split_ifs <;> exact ⟨⟨rfl, rfl, rfl, rfl, rfl, rfl, rfl, rfl⟩, rfl⟩
  have hstands : ∀ s : RateController, Keeps s (s.standingStands w q).1 ∧ (s.standingStands w q).1.bulk = s.bulk := by
    intro s
    unfold standingStands
    dsimp only
    split_ifs <;> exact ⟨⟨rfl, rfl, rfl, rfl, rfl, rfl, rfl, rfl⟩, rfl⟩
  have hends : ∀ s : RateController, Keeps s (s.standingEnds w q) ∧ (s.standingEnds w q).bulk = s.bulk :=
    fun s => ⟨⟨rfl, rfl, rfl, rfl, rfl, rfl, rfl, rfl⟩, rfl⟩
  unfold standing
  generalize hread : (if s.standing_since_ms.isSome ∨ s.draining then
      { s with
        standing_delivered := (u64 (s.standing_delivered.1 + w.bytes), u64 (s.standing_delivered.2 + w.window_ms)) }
    else s) = r
  have hr : Keeps s r ∧ r.bulk = s.bulk := by
    rw [← hread]
    split_ifs <;> exact ⟨⟨rfl, rfl, rfl, rfl, rfl, rfl, rfl, rfl⟩, rfl⟩
  dsimp only
  split_ifs
  · set r' := ({ r with queue_min_us := q.1, last_queue_us := q.2 } : RateController)
    have hr' : Keeps r r' ∧ r'.bulk = r.bulk := ⟨⟨rfl, rfl, rfl, rfl, rfl, rfl, rfl, rfl⟩, rfl⟩
    obtain ⟨hk, hb⟩ := hbegins r'
    obtain ⟨hk', hb'⟩ := hstands (r'.standingBegins w q)
    exact ⟨((hr.1.trans hr'.1).trans hk).trans hk', hb'.trans (hb.trans (hr'.2.trans hr.2))⟩
  · set r' := ({ r with queue_min_us := q.1, last_queue_us := q.2 } : RateController)
    have hr' : Keeps r r' ∧ r'.bulk = r.bulk := ⟨⟨rfl, rfl, rfl, rfl, rfl, rfl, rfl, rfl⟩, rfl⟩
    obtain ⟨hk, hb⟩ := hends r'
    exact ⟨(hr.1.trans hr'.1).trans hk, hb.trans (hr'.2.trans hr.2)⟩
  · exact hr

theorem eases_drainCut (hleast : (s.limits.min_bps : ℚ) ≤ s.bitrate) (link : Option ℚ) :
    Eases w.now_ms s (s.drainCut w link) ∧ (s.drainCut w link).bulk = s.bulk := by
  cases link with
  | none => exact ⟨Keeps.eases ⟨rfl, rfl, rfl, rfl, rfl, rfl, rfl, rfl⟩ hleast, rfl⟩
  | some link =>
    unfold drainCut
    dsimp only
    split_ifs with hcut
    · obtain ⟨hlimits, hlan, hswitches, hbitrate, hcuts, hhold, hbulk⟩ :=
        keeps_floorYield_bitrate (s.count .drain) w.now_ms
      refine ⟨⟨hlimits, hlan, hswitches, ?_, ?_, floorYield_ms_le (s := s.count .drain),
        .inl ⟨fun c hc => ?_, hhold⟩⟩, hbulk⟩
      · rw [hbitrate, hlimits]
        exact max_le (min_le_left _ _) hleast
      · rw [hlimits]
        exact le_max_right _ _
      · change ((s.count .drain).floorYield w.now_ms).cuts c = s.cuts c
        rw [hcuts]
        exact Function.update_of_ne hc _ _
    · refine ⟨⟨rfl, rfl, rfl, ?_, le_max_right _ _, id, .inl ⟨fun _ _ => rfl, rfl⟩⟩, rfl⟩
      exact max_le (min_le_left _ _) hleast

theorem standingCut_le (hleast : (s.limits.min_bps : ℚ) ≤ s.bitrate) (link : ℚ) :
    (s.standingCut w link).bitrate ≤ s.bitrate := by
  obtain ⟨hlimits, -, -, hbitrate, -, -, -⟩ := keeps_floorYield_bitrate
    ((s.cutAt (min (s.bitrate * (3 / 4)) (link * (85 / 100))) w.now_ms).count .standing) w.now_ms
  have hpos : (0 : ℚ) ≤ s.bitrate := (Nat.cast_nonneg _).trans hleast
  change clamp (((s.cutAt _ w.now_ms).count .standing).floorYield w.now_ms).bitrate
    (((s.cutAt _ w.now_ms).count .standing).floorYield w.now_ms).limits.min_bps
    (((s.cutAt _ w.now_ms).count .standing).floorYield w.now_ms).limits.max_bps ≤ s.bitrate
  rw [hlimits, hbitrate]
  refine max_le hleast ((min_le_left _ _).trans ((min_le_left _ _).trans ?_))
  linarith

/-! ## What follows them -/

theorem keeps_keyLanded (s : RateController) (w : Window) :
    Keeps s (s.keyLanded w) ∧ (s.keyLanded w).bulk = s.bulk := by
  unfold keyLanded
  split_ifs <;> exact ⟨⟨rfl, rfl, rfl, rfl, rfl, rfl, rfl, rfl⟩, rfl⟩

theorem cutRate_le {q : ℤ × ℤ} {f : ℚ} (hf : 0 < f) (hf1 : f ≤ 1) (hpos : 0 ≤ s.bitrate) :
    s.cutRate w q f ≤ s.bitrate := by
  unfold cutRate
  dsimp only
  split_ifs
  · exact (min_le_right _ _).trans (mul_div_cancel_right₀ _ hf.ne').le
  · exact mul_le_of_le_one_right hpos hf1

theorem lossYield_spec (hyield : s.floor_yield_ms ≤ lanFloorYieldMaxMs) (hnow : w.now_ms < 2^63) (q : ℤ × ℤ) :
    (s.lossYield w q).bitrate = s.bitrate ∧ (s.lossYield w q).bulk = s.bulk ∧
      (s.lossYield w q).limits = s.limits ∧ w.now_ms < (s.lossYield w q).floor_yield_until_ms := by
  unfold lossYield
  generalize hr : (if queueSoftUs < q.2 then { s with link_best := [] } else s) = r
  have hsame : r.bitrate = s.bitrate ∧ r.bulk = s.bulk ∧ r.limits = s.limits ∧ r.floor_yield_ms = s.floor_yield_ms := by
    rw [← hr]
    split_ifs <;> exact ⟨rfl, rfl, rfl, rfl⟩
  obtain ⟨hlimits, -, -, hbitrate, -, -, hbulk⟩ := keeps_floorYield_bitrate r w.now_ms
  exact ⟨hbitrate.trans hsame.1, hbulk.trans hsame.2.1, hlimits.trans hsame.2.2.1,
    lt_floorYield (hsame.2.2.2 ▸ hyield) hnow⟩

theorem holdGrowth_spec (s : RateController) (now : ℕ) :
    (s.holdGrowth now).bitrate = s.bitrate ∧ (s.holdGrowth now).bulk = s.bulk ∧
      (s.holdGrowth now).limits = s.limits ∧ (s.holdGrowth now).floor_yield_until_ms = s.floor_yield_until_ms := by
  unfold holdGrowth
  exact ⟨rfl, rfl, rfl, rfl⟩

theorem decreased_loss {q : ℤ × ℤ} {f : ℚ} (hf : 0 < f) (hf1 : f ≤ 1) (hpos : 0 ≤ s.bitrate)
    (hyield : s.floor_yield_ms ≤ lanFloorYieldMaxMs) (hnow : w.now_ms < 2^63) :
    (s.decreased w q f .loss).bitrate ≤ s.bitrate ∧ (s.decreased w q f .loss).bulk = s.bulk ∧
      (s.decreased w q f .loss).limits = s.limits ∧
      w.now_ms < (s.decreased w q f .loss).floor_yield_until_ms := by
  have hcut := cutRate_le (w := w) (q := q) hf hf1 hpos
  have hdec : s.decreased w q f .loss =
      (({ s.count .loss with bitrate := s.cutRate w q f } : RateController).lossYield w q).holdGrowth w.now_ms :=
    congrArg (holdGrowth · w.now_ms) (if_pos rfl)
  rw [hdec]
  generalize hr : ({ s.count .loss with bitrate := s.cutRate w q f } : RateController) = r
  have hbitrate : r.bitrate = s.cutRate w q f := by rw [← hr]
  have hbulk : r.bulk = s.bulk := by rw [← hr]; rfl
  have hlimits : r.limits = s.limits := by rw [← hr]; rfl
  have hryield : r.floor_yield_ms ≤ lanFloorYieldMaxMs := by rw [← hr]; exact hyield
  obtain ⟨hbitrate', hbulk', hlimits', hyields⟩ := lossYield_spec hryield hnow q
  obtain ⟨ebitrate, ebulk, elimits, eyields⟩ := holdGrowth_spec (r.lossYield w q) w.now_ms
  rw [ebitrate, ebulk, elimits, eyields]
  exact ⟨(hbitrate'.trans hbitrate).le.trans hcut, hbulk'.trans hbulk, hlimits'.trans hlimits, hyields⟩

theorem decreased_queue {q : ℤ × ℤ} {f : ℚ} {why : Cut} (hf : 0 < f) (hf1 : f ≤ 1) (hpos : 0 ≤ s.bitrate)
    (hwhy : why ≠ .loss) (hq : queueSoftUs < q.2) :
    (s.decreased w q f why).bitrate ≤ s.bitrate ∧ (s.decreased w q f why).bulk = s.bulk ∧
      (s.decreased w q f why).limits = s.limits := by
  have hcut : s.cutRate w q f = s.bitrate * f := if_neg (not_le.mpr hq)
  have hle := cutRate_le (w := w) (q := q) hf hf1 hpos
  have hback : s.cutRate w q f / f ≤ s.bitrate := by rw [hcut, mul_div_cancel_right₀ _ hf.ne']
  unfold decreased
  dsimp only
  rw [if_neg hwhy]
  exact ⟨max_le hle ((min_le_right _ _).trans hback), rfl, rfl⟩

theorem bulk_grow (s : RateController) (w : Window) (q : ℤ × ℤ) (busy ours : Bool) (gap : Option (ℚ × ℚ)) :
    (s.grow w q busy ours gap).bulk = s.bulk ∧ (s.grow w q busy ours gap).cuts = s.cuts := by
  unfold grow
  dsimp only
  split_ifs <;> exact ⟨rfl, rfl⟩

theorem settle_spec (s : RateController) (w : Window) (busy : Bool) :
    (s.settle w busy).bitrate = clamp (max s.bitrate (s.lanFloor w.now_ms)) s.limits.min_bps s.limits.max_bps ∧
      (s.settle w busy).bulk = s.bulk ∧ (s.settle w busy).cuts = s.cuts ∧
      (s.settle w busy).lanFloor w.now_ms = s.lanFloor w.now_ms := by
  unfold settle
  dsimp only
  split_ifs <;> exact ⟨rfl, rfl, rfl, rfl⟩

theorem decrease_spec {q : ℤ × ℤ} {busy ours : Bool} {f : ℚ} {why : Cut}
    (h : s.decrease w q busy ours = some (f, why)) :
    (0 < f ∧ f ≤ 1) ∧ (why ≠ .loss → queueSoftUs < q.2) ∧ (0 < w.frames_lost → why = .loss) := by
  unfold decrease at h
  split_ifs at h with hlost hhard hsoft
  · obtain ⟨rfl, rfl⟩ := Prod.mk.inj (Option.some.inj h)
    exact ⟨by norm_num, fun h => absurd rfl h, fun _ => rfl⟩
  · obtain ⟨rfl, rfl⟩ := Prod.mk.inj (Option.some.inj h)
    refine ⟨by norm_num, fun _ => lt_trans (by decide) hhard.1, fun h => absurd h hlost⟩
  · obtain ⟨rfl, rfl⟩ := Prod.mk.inj (Option.some.inj h)
    exact ⟨by norm_num, fun _ => hsoft.1.1, fun h => absurd h hlost⟩

theorem adjust_spec {q : ℤ × ℤ} {busy ours : Bool} {gap : Option (ℚ × ℚ)}
    (hleast : (s.limits.min_bps : ℚ) ≤ s.bitrate) (hyield : s.floor_yield_ms ≤ lanFloorYieldMaxMs)
    (hnow : w.now_ms < 2^63) :
    (s.adjust w q busy ours gap).bulk = s.bulk ∧
      (0 < w.frames_lost → (s.adjust w q busy ours gap).bitrate ≤ s.bitrate) ∧
      ((w.now_ms < s.hold_until_ms ∨ ∃ c, (s.adjust w q busy ours gap).cuts c ≠ s.cuts c) →
        (s.adjust w q busy ours gap).bitrate ≤
          max s.bitrate ((s.adjust w q busy ours gap).lanFloor w.now_ms)) := by
  have hpos : (0 : ℚ) ≤ s.bitrate := (Nat.cast_nonneg _).trans hleast
  obtain ⟨hlanded, hlandedBulk⟩ := keeps_keyLanded s w
  unfold adjust
  dsimp only
  generalize s.keyLanded w = r at hlanded hlandedBulk ⊢
  have hsettled : ∀ t : RateController, t.limits = s.limits → t.bitrate ≤ s.bitrate →
      (t.settle w busy).bitrate ≤ max s.bitrate ((t.settle w busy).lanFloor w.now_ms) := by
    intro t hlimits hle
    obtain ⟨hbitrate, -, -, hfloor⟩ := settle_spec t w busy
    rw [hbitrate, hfloor, hlimits]
    refine max_le (hleast.trans (le_max_left _ _)) ((min_le_left _ _).trans (max_le_max hle (le_refl _)))
  cases hdecrease : r.decrease w q busy ours with
  | some p =>
    obtain ⟨f, why⟩ := p
    obtain ⟨⟨hf, hf1⟩, hqueue, hloss⟩ := decrease_spec hdecrease
    have hrpos : 0 ≤ r.bitrate := hlanded.bitrate ▸ hpos
    dsimp only
    by_cases hwhy : why = .loss
    · subst hwhy
      obtain ⟨hbitrate, hbulk, hlimits, hyields⟩ :=
        decreased_loss (q := q) hf hf1 hrpos (hlanded.yield_ms.le.trans hyield) hnow
      have hle := hsettled _ (hlimits.trans hlanded.limits) (hbitrate.trans hlanded.bitrate.le)
      refine ⟨(settle_spec _ w busy).2.1.trans (hbulk.trans hlandedBulk), fun _ => ?_, fun _ => hle⟩
      rwa [(settle_spec _ w busy).2.2.2, lanFloor_eq_zero hyields, max_eq_left hpos] at hle
    · obtain ⟨hbitrate, hbulk, hlimits⟩ := decreased_queue (w := w) hf hf1 hrpos hwhy (hqueue hwhy)
      have hle := hsettled _ (hlimits.trans hlanded.limits) (hbitrate.trans hlanded.bitrate.le)
      exact ⟨(settle_spec _ w busy).2.1.trans (hbulk.trans hlandedBulk), fun hlost => absurd (hloss hlost) hwhy,
        fun _ => hle⟩
  | none =>
    have hnotLost : ¬0 < w.frames_lost := by
      intro hlost
      rw [decrease, if_pos hlost] at hdecrease
      cases hdecrease
    dsimp only
    split_ifs with hheld
    · obtain ⟨hbulk, hcuts⟩ := bulk_grow r w q busy ours gap
      refine ⟨(settle_spec _ w busy).2.1.trans (hbulk.trans hlandedBulk), fun hlost => absurd hlost hnotLost, ?_⟩
      rintro (hheld' | ⟨c, hc⟩)
      · exact absurd hheld (not_le.mpr (hlanded.hold ▸ hheld'))
      · rw [(settle_spec _ w busy).2.2.1, hcuts, hlanded.cuts] at hc
        exact absurd rfl hc
    · have hle := hsettled r hlanded.limits hlanded.bitrate.le
      exact ⟨(settle_spec _ w busy).2.1.trans hlandedBulk, fun hlost => absurd hlost hnotLost, fun _ => hle⟩

def bulkFloor (s : RateController) (now : ℕ) : ℚ :=
  if (s.lan && s.switches.lan_floor) = true ∧ s.floor_yield_until_ms ≤ now then bulkLanMin else bulkMinBps

theorem bulkMin_le (s : RateController) (now : ℕ) : s.bulkMin now ≤ s.bulkFloor now := by
  have hlan : bulkMinBps ≤ bulkLanMin := by unfold bulkMinBps bulkLanMin; norm_num
  unfold bulkMin
  split_ifs with hfloor
  · have hholds : (s.lan && s.switches.lan_floor) = true ∧ s.floor_yield_until_ms ≤ now := by
      unfold lanFloor at hfloor
      split_ifs at hfloor with hnone
      · exact absurd hfloor (lt_irrefl _)
      · simpa using hnone
    rw [bulkFloor, if_pos hholds]
    cases s.linkShown with
    | none => exact max_le (le_refl _) hlan
    | some l => exact max_le (min_le_left _ _) hlan
  · unfold bulkFloor
    split_ifs
    · exact hlan
    · exact le_refl _

theorem le_bulkMin (s : RateController) (now : ℕ) : bulkMinBps ≤ s.bulkMin now := by
  unfold bulkMin
  split_ifs
  · cases s.linkShown with
    | none => exact le_max_right _ _
    | some l => exact le_max_right _ _
  · exact le_refl _

theorem bulkMin_eq_least (h : now < s.floor_yield_until_ms) : s.bulkMin now = bulkMinBps := by
  unfold bulkMin
  rw [lanFloor_eq_zero h, if_neg (lt_irrefl _)]

/-- The bulk lane of one part of `update`: cut at most to its floor, and not under its least. -/
structure BulkEases (now : ℕ) (s t : RateController) : Prop where
  bulk : t.bulk ≤ max s.bulk (s.bulkFloor now)
  least : bulkMinBps ≤ s.bulk → bulkMinBps ≤ t.bulk

theorem keyProbe_yields (s : RateController) (w : Window) :
    (s.keyProbe w).floor_yield_until_ms = s.floor_yield_until_ms ∧ (s.keyProbe w).bulk = s.bulk := by
  unfold keyProbe
  dsimp only
  split_ifs <;> exact ⟨rfl, rfl⟩

theorem bulk_gapCut (s : RateController) (w : Window) (gap : Option (ℚ × ℚ)) :
    BulkEases w.now_ms s (s.gapCut w gap) := by
  have hsame : BulkEases w.now_ms s s := ⟨le_max_left _ _, id⟩
  unfold gapCut
  dsimp only
  cases gap.filter _ with
  | none => exact hsame
  | some g =>
    dsimp only
    split_ifs
    · exact ⟨(bulkMin_le _ w.now_ms).trans (le_max_right _ _), fun _ => le_bulkMin _ _⟩
    · exact hsame

theorem bulk_standingCut (hyield : s.floor_yield_ms ≤ lanFloorYieldMaxMs) (hnow : w.now_ms < 2^63) (link : ℚ) :
    (s.standingCut w link).bulk = bulkMinBps := by
  have hyields := lt_floorYield
    (s := (s.cutAt (min (s.bitrate * (3 / 4)) (link * (85 / 100))) w.now_ms).count .standing) hyield hnow
  unfold standingCut noteSustained
  dsimp only
  generalize ((s.cutAt _ w.now_ms).count .standing).floorYield w.now_ms = r at hyields ⊢
  exact bulkMin_eq_least hyields

/-! ## All of `update` -/

/-- What one update leaves of a rate in range. -/
structure Ranged (s : RateController) : Prop where
  least : (s.limits.min_bps : ℚ) ≤ s.bitrate
  bulk : bulkMinBps ≤ s.bulk
  yield_ms : s.floor_yield_ms ≤ lanFloorYieldMaxMs

def early (s : RateController) (w : Window) : RateController :=
  let s := (s.heard w).bulkYield w ((s.heard w).queues w)
  let s := ({ s with last_used := s.delivered w }).keyProbe w
  s.gapCut w s.deliveryGap

/-- Late: a lost frame, or an average delay of more than 5 ms over the baseline. -/
def late (s : RateController) (w : Window) : Prop := 0 < w.frames_lost ∨ queueSoftUs / 2 < ((s.heard w).queues w).2

instance (s : RateController) (w : Window) : Decidable (s.late w) := inferInstanceAs (Decidable (_ ∨ _))

theorem keeps_bulkYield (s : RateController) (w : Window) (q : ℤ × ℤ) : Keeps s (s.bulkYield w q) := by
  unfold bulkYield
  split_ifs <;> exact ⟨rfl, rfl, rfl, rfl, rfl, rfl, rfl, rfl⟩

theorem bulk_bulkYield (s : RateController) (w : Window) (q : ℤ × ℤ) :
    (0 < w.frames_lost ∨ queueSoftUs / 2 < q.2 → (s.bulkYield w q).bulk ≤ max s.bulk (s.bulkFloor w.now_ms)) ∧
      (bulkMinBps ≤ s.bulk → bulkMinBps ≤ (s.bulkYield w q).bulk) := by
  have hmost : bulkMinBps ≤ bulkMax := by unfold bulkMinBps bulkMax; norm_num
  have hpos : 0 ≤ bulkMinBps := by unfold bulkMinBps; norm_num
  unfold bulkYield
  split_ifs with hlate hbusy
  · refine ⟨fun _ => max_le ?_ ((bulkMin_le s _).trans (le_max_right _ _)),
      fun _ => (le_bulkMin s _).trans (le_max_right _ _)⟩
    rcases le_total 0 s.bulk with hbulk | hbulk
    · exact (mul_le_of_le_one_right hbulk (by norm_num)).trans (le_max_left _ _)
    · refine (mul_nonpos_of_nonpos_of_nonneg hbulk (by norm_num)).trans (le_trans ?_ (le_max_right _ _))
      exact hpos.trans ((le_bulkMin s w.now_ms).trans (bulkMin_le s _))
  · refine ⟨fun h => absurd h hlate, fun hleast => le_min ?_ hmost⟩
    exact hleast.trans (le_mul_of_one_le_right (hpos.trans hleast) (by norm_num))
  · exact ⟨fun _ => le_max_left _ _, id⟩

theorem early_spec (h : Ranged s) (hnow : w.now_ms < 2^63) :
    Eases w.now_ms s (s.early w) ∧ bulkMinBps ≤ (s.early w).bulk ∧
      (s.late w → (s.early w).bulk ≤ max s.bulk (s.bulkFloor w.now_ms)) := by
  obtain ⟨hheard, hheardBulk⟩ := keeps_heard s w
  have hyield := keeps_bulkYield (s.heard w) w ((s.heard w).queues w)
  obtain ⟨hlate, hleast⟩ := bulk_bulkYield (s.heard w) w ((s.heard w).queues w)
  have hfloor : ∀ {r r' : RateController}, r'.lan = r.lan → r'.switches = r.switches →
      r'.floor_yield_until_ms = r.floor_yield_until_ms → r'.bulkFloor w.now_ms = r.bulkFloor w.now_ms := by
    intro r r' hlan hswitches hyields
    rw [bulkFloor, bulkFloor, hlan, hswitches, hyields]
  unfold early late
  dsimp only
  generalize (s.heard w).queues w = q at hyield hlate hleast ⊢
  rw [hheardBulk, hfloor hheard.lan hheard.switches hheard.yields] at hlate
  rw [hheardBulk] at hleast
  have hkept := hheard.trans hyield
  generalize (s.heard w).bulkYield w q = a at hkept hlate hleast ⊢
  have hused : Keeps a { a with last_used := a.delivered w } := ⟨rfl, rfl, rfl, rfl, rfl, rfl, rfl, rfl⟩
  have hkept := hkept.trans hused
  have husedBulk : ({ a with last_used := a.delivered w } : RateController).bulk = a.bulk := rfl
  generalize ({ a with last_used := a.delivered w } : RateController) = b at hkept husedBulk ⊢
  rw [← husedBulk] at hlate hleast
  have hb : Eases w.now_ms s b := hkept.eases h.least
  have hprobe : Eases w.now_ms s (b.keyProbe w) := hb.trans (eases_keyProbe (hkept.limits ▸ hb.least) hnow)
  obtain ⟨hyields, hbulk⟩ := keyProbe_yields b w
  have hfloor' : (b.keyProbe w).bulkFloor w.now_ms = s.bulkFloor w.now_ms :=
    hfloor hprobe.lan hprobe.switches (hyields.trans hkept.yields)
  rw [← hbulk] at hlate hleast
  generalize b.keyProbe w = c at hprobe hfloor' hlate hleast ⊢
  have hgap := bulk_gapCut c w c.deliveryGap
  refine ⟨hprobe.trans (eases_gapCut (hprobe.limits ▸ hprobe.least) hnow _), hgap.least (hleast h.bulk), fun hl => ?_⟩
  refine hgap.bulk.trans (max_le (hlate hl) ?_)
  rw [hfloor']
  exact le_max_right _ _

theorem adjust_ranged {q : ℤ × ℤ} {busy ours : Bool} {gap : Option (ℚ × ℚ)} :
    (s.adjust w q busy ours gap).limits = s.limits ∧ (s.limits.min_bps : ℚ) ≤ (s.adjust w q busy ours gap).bitrate ∧
      (s.floor_yield_ms ≤ lanFloorYieldMaxMs → (s.adjust w q busy ours gap).floor_yield_ms ≤ lanFloorYieldMaxMs) := by
  obtain ⟨hlanded, -⟩ := keeps_keyLanded s w
  unfold adjust
  dsimp only
  generalize s.keyLanded w = r at hlanded ⊢
  have hsettle : ∀ t : RateController, (t.settle w busy).limits = t.limits ∧
      (t.settle w busy).floor_yield_ms = t.floor_yield_ms := by
    intro t
    unfold settle
    dsimp only
    split_ifs <;> exact ⟨rfl, rfl⟩
  have hsettled : ∀ t : RateController, t.limits = s.limits →
      (s.floor_yield_ms ≤ lanFloorYieldMaxMs → t.floor_yield_ms ≤ lanFloorYieldMaxMs) →
      (t.settle w busy).limits = s.limits ∧ (s.limits.min_bps : ℚ) ≤ (t.settle w busy).bitrate ∧
        (s.floor_yield_ms ≤ lanFloorYieldMaxMs → (t.settle w busy).floor_yield_ms ≤ lanFloorYieldMaxMs) := by
    intro t hlimits hyield
    obtain ⟨hlimits', hyield'⟩ := hsettle t
    refine ⟨hlimits'.trans hlimits, ?_, fun h => hyield'.le.trans (hyield h)⟩
    rw [(settle_spec t w busy).1, hlimits]
    exact le_max_left _ _
  have hkept : s.floor_yield_ms ≤ lanFloorYieldMaxMs → r.floor_yield_ms ≤ lanFloorYieldMaxMs :=
    hlanded.yield_ms.le.trans
  cases r.decrease w q busy ours with
  | some p =>
    obtain ⟨f, why⟩ := p
    have hdecreased : (r.decreased w q f why).limits = r.limits ∧
        (r.floor_yield_ms ≤ lanFloorYieldMaxMs → (r.decreased w q f why).floor_yield_ms ≤ lanFloorYieldMaxMs) := by
      unfold decreased holdGrowth
      dsimp only
      split_ifs
      · unfold lossYield
        split_ifs
        · exact ⟨(keeps_floorYield_bitrate _ _).1, fun h => floorYield_ms_le h⟩
        · exact ⟨(keeps_floorYield_bitrate _ _).1, fun h => floorYield_ms_le h⟩
      · exact ⟨rfl, id⟩
    exact hsettled _ (hdecreased.1.trans hlanded.limits) (hdecreased.2 ∘ hkept)
  | none =>
    dsimp only
    have hgrow : (r.grow w q busy ours gap).limits = r.limits ∧
        (r.grow w q busy ours gap).floor_yield_ms = r.floor_yield_ms := by
      unfold grow
      dsimp only
      split_ifs <;> exact ⟨rfl, rfl⟩
    split_ifs
    · exact hsettled _ (hgrow.1.trans hlanded.limits) fun h => hgrow.2.le.trans (hkept h)
    · exact hsettled r hlanded.limits hkept

theorem standingCut_ranged (link : ℚ) (hyield : s.floor_yield_ms ≤ lanFloorYieldMaxMs) :
    (s.standingCut w link).limits = s.limits ∧ (s.limits.min_bps : ℚ) ≤ (s.standingCut w link).bitrate ∧
      (s.standingCut w link).floor_yield_ms ≤ lanFloorYieldMaxMs := by
  set r := (s.cutAt (min (s.bitrate * (3 / 4)) (link * (85 / 100))) w.now_ms).count .standing
  have hlimits := (keeps_floorYield_bitrate r w.now_ms).1
  have hyield' : (r.floorYield w.now_ms).floor_yield_ms ≤ lanFloorYieldMaxMs := floorYield_ms_le hyield
  refine ⟨hlimits, ?_, hyield'⟩
  change (s.limits.min_bps : ℚ) ≤ clamp _ (r.floorYield w.now_ms).limits.min_bps _
  rw [hlimits]
  exact le_max_left _ _

theorem adjusted_spec {e : RateController} {q : ℤ × ℤ} {busy ours : Bool} {gap : Option (ℚ × ℚ)} (h : Ranged s)
    (hnow : w.now_ms < 2^63) (ht : Eases w.now_ms s t) (hbulk : t.bulk = e.bulk) (hleast : bulkMinBps ≤ e.bulk)
    (hlate : s.late w → e.bulk ≤ max s.bulk (s.bulkFloor w.now_ms)) :
    ((0 < w.frames_lost → (t.adjust w q busy ours gap).bitrate ≤ s.bitrate) ∧
      ((∃ c, c ≠ .drain ∧ (t.adjust w q busy ours gap).cuts c ≠ s.cuts c) →
        (t.adjust w q busy ours gap).bitrate ≤ max s.bitrate ((t.adjust w q busy ours gap).lanFloor w.now_ms)) ∧
      (s.late w → (t.adjust w q busy ours gap).bulk ≤ max s.bulk (s.bulkFloor w.now_ms))) ∧
      Ranged (t.adjust w q busy ours gap) ∧ (t.adjust w q busy ours gap).limits = s.limits := by
  have htLeast : (t.limits.min_bps : ℚ) ≤ t.bitrate := ht.limits ▸ ht.least
  have htYield := ht.yield_ms h.yield_ms
  obtain ⟨hbulk', hlost, hcut⟩ := @adjust_spec t w q busy ours gap htLeast htYield hnow
  obtain ⟨hlimits, hleast', hyield⟩ := @adjust_ranged t w q busy ours gap
  refine ⟨⟨fun hl => (hlost hl).trans ht.bitrate, fun hc => ?_, fun hl => ?_⟩, ⟨?_, ?_, hyield htYield⟩,
    hlimits.trans ht.limits⟩
  · refine (hcut ?_).trans (max_le_max ht.bitrate (le_refl _))
    obtain ⟨c, hdrain, hc⟩ := hc
    rcases ht.counted with ⟨hcuts, -⟩ | hheld
    · exact .inr ⟨c, hcuts c hdrain ▸ hc⟩
    · exact .inl hheld
  · exact (hbulk'.trans hbulk).le.trans (hlate hl)
  · exact hlimits ▸ hleast'
  · exact hleast.trans (hbulk'.trans hbulk).ge

theorem updateWith_eq (s : RateController) (w : Window) : ∃ q busy ours gap, s.updateWith w =
      if ((s.early w).standing w q).2.1 = true then
        ((s.early w).standing w q).1.standingCut w
          (((s.early w).standing w q).2.2.getD (((s.early w).standing w q).1.delivered w))
      else
        (if ((s.early w).standing w q).1.draining = true then
          ((s.early w).standing w q).1.drainCut w ((s.early w).standing w q).2.2
        else ((s.early w).standing w q).1).adjust w q busy ours gap :=
  ⟨_, _, _, _, rfl⟩

theorem updateWith_spec (h : Ranged s) (hnow : w.now_ms < 2^63) :
    ((0 < w.frames_lost → (s.updateWith w).bitrate ≤ s.bitrate) ∧
      ((∃ c, c ≠ .drain ∧ (s.updateWith w).cuts c ≠ s.cuts c) →
        (s.updateWith w).bitrate ≤ max s.bitrate ((s.updateWith w).lanFloor w.now_ms)) ∧
      (s.late w → (s.updateWith w).bulk ≤ max s.bulk (s.bulkFloor w.now_ms))) ∧
      Ranged (s.updateWith w) ∧ (s.updateWith w).limits = s.limits := by
  obtain ⟨hearly, hleast, hlate⟩ := early_spec h hnow
  obtain ⟨q, busy, ours, gap, heq⟩ := updateWith_eq s w
  rw [heq]
  generalize s.early w = e at hearly hleast hlate ⊢
  obtain ⟨hstanding, hbulk⟩ := keeps_standing e w q
  generalize e.standing w q = p at hstanding hbulk ⊢
  have hp : Eases w.now_ms s p.1 := hearly.trans (hstanding.eases (hearly.limits ▸ hearly.least))
  have hpLeast : (p.1.limits.min_bps : ℚ) ≤ p.1.bitrate := hp.limits ▸ hp.least
  have hpYield := hp.yield_ms h.yield_ms
  split_ifs with hcut hdraining
  · have hle := (standingCut_le (w := w) hpLeast (p.2.2.getD (p.1.delivered w))).trans hp.bitrate
    have hbulk := bulk_standingCut (s := p.1) hpYield hnow (p.2.2.getD (p.1.delivered w))
    obtain ⟨hlimits, hleast', hyield⟩ := standingCut_ranged (w := w) (p.2.2.getD (p.1.delivered w)) hpYield
    refine ⟨⟨fun _ => hle, fun _ => hle.trans (le_max_left _ _), fun _ => ?_⟩, ⟨?_, hbulk.ge, hyield⟩,
      hlimits.trans hp.limits⟩
    · exact hbulk.le.trans (h.bulk.trans (le_max_left _ _))
    · exact hlimits ▸ hleast'
  · obtain ⟨hdrain, hdrainBulk⟩ := eases_drainCut (w := w) hpLeast p.2.2
    exact adjusted_spec h hnow (hp.trans hdrain) (hdrainBulk.trans hbulk) hleast hlate
  · exact adjusted_spec h hnow hp hbulk hleast hlate

end RateController

end Rdpio.Hyper.Rate

namespace Rdpio.Hyper.Rate

open Controls (Feedback)
open Lib (run)

inductive Call where
  | takeCuts
  | setSwitches (switches : Switches)
  | warmStart (bps : ℕ)
  | setLan (lan : Bool)
  | noteProbePadding (bytes : ℕ)
  | setPaused (paused : Bool)
  | noteSent (payload wire : ℕ)
  | setBulkBusy (busy : Bool)
  | setResting (bps : ℕ)
  | noteKeyframe (frame_id : UInt32) (bytes : ℕ) (now_us : UInt64)
  | collapseKeyframeRequest (now_us : UInt64)
  | update (fb : Feedback) (window_ms : ℕ) (now_us : UInt64)

def nowMs (now_us : UInt64) : ℕ := now_us.toNat / 1000

theorem nowMs_lt (now_us : UInt64) : nowMs now_us < 2^63 := by
  have h := now_us.toNat_lt
  unfold nowMs
  omega

namespace RateController

def step (s : RateController) : Call → RateController
  | .takeCuts => s.takeCuts.1
  | .setSwitches switches => s.setSwitches switches
  | .warmStart bps => s.warmStart bps
  | .setLan lan => s.setLan lan
  | .noteProbePadding bytes => s.noteProbePadding bytes
  | .setPaused paused => s.setPaused paused
  | .noteSent payload wire => s.noteSent payload wire
  | .setBulkBusy busy => s.setBulkBusy busy
  | .setResting bps => s.setResting bps
  | .noteKeyframe frame_id bytes now_us => s.noteKeyframe frame_id.toNat bytes (nowMs now_us)
  | .collapseKeyframeRequest now_us => (s.collapseKeyframeRequest (nowMs now_us)).1
  | .update fb window_ms now_us => s.update fb window_ms (nowMs now_us)

variable {s : RateController}

theorem Ranged.step (h : Ranged s) (c : Call) : Ranged (s.step c) := by
  cases c with
  | warmStart bps =>
    unfold RateController.step warmStart
    dsimp only
    split_ifs
    · exact ⟨le_max_left _ _, h.bulk, h.yield_ms⟩
    · exact ⟨le_max_left _ _, h.bulk, h.yield_ms⟩
    · exact h
  | update fb window_ms now_us => exact (updateWith_spec h (nowMs_lt now_us)).2.1
  | _ => exact ⟨h.least, h.bulk, h.yield_ms⟩

theorem ranged_new {limits : Limits} (h : limits.min_bps ≤ limits.start_bps) : Ranged (new limits) where
  least := Nat.cast_le.mpr h
  bulk := by
    change bulkMinBps ≤ bulkStart
    unfold bulkMinBps bulkStart
    norm_num
  yield_ms := Nat.zero_le _

def after (limits : Limits) (calls : List Call) : RateController := run step (new limits) calls

theorem ranged_after {limits : Limits} (h : limits.min_bps ≤ limits.start_bps) (calls : List Call) :
    Ranged (after limits calls) :=
  Lib.invariant_run Ranged (ranged_new h) (fun _ c hs => hs.step c) calls

def oneFrame (bytes : UInt64) (delay_min_us delay_avg_us : Int64) : Feedback :=
  ⟨0, 0, 1, 0, bytes, delay_min_us, delay_avg_us, 0, none, 0⟩

end RateController

end Rdpio.Hyper.Rate
