import Rdpio.Hyper.Playout
import Rdpio.Lib.Run

/-!
# Frames through the jitter buffer

Whatever is pushed and played, no index of the jitter buffer is wrong, and the frames that were pushed are
those that left the queue, each under one fate, and those still queued (`Playout.Accounts`).
-/

namespace Rdpio.Hyper.Jitter

open Lib

namespace Playout

variable {α σ : Type} {p : Playout α}

/-- One channel or two, and a frame remembered. -/
structure Sound (p : Playout α) : Prop where
  pos : 0 < p.ch
  prev : p.prev.length = 2
  le : p.ch ≤ 2

theorem level_mul_le (p : Playout α) : p.level * p.ch ≤ p.q.length := Nat.div_mul_le_self ..

theorem sample_lt {k c : ℕ} (hk : k < p.level) (hc : c < p.ch) : k * p.ch + c < p.q.length :=
  calc k * p.ch + c < k * p.ch + p.ch := Nat.add_lt_add_left hc _
    _ = (k + 1) * p.ch := (Nat.succ_mul ..).symm
    _ ≤ p.level * p.ch := Nat.mul_le_mul_right _ hk
    _ ≤ p.q.length := p.level_mul_le

theorem mul_le_of_le_level {k : ℕ} (hk : k ≤ p.level) : k * p.ch ≤ p.q.length :=
  Nat.le_trans (Nat.mul_le_mul_right _ hk) p.level_mul_le

theorem mono_some (dsp : Dsp α σ) {k : ℕ} (hk : k < p.level) : ∃ x, p.mono dsp k = some x := by
  obtain ⟨frame, hframe, -⟩ := mapM_rule (f := fun c => p.q[k * p.ch + c]?) (l := List.range p.ch) fun c hc =>
    ⟨_, List.getElem?_eq_getElem (sample_lt hk (List.mem_range.mp hc))⟩
  exact ⟨dsp.sum frame, by rw [mono, hframe, Option.map_some]⟩

theorem bestJoin_spec (dsp : Dsp α σ) {lo hi target : ℕ} (hhi : hi + frames xfadeMs ≤ p.level)
    (htarget : lo ≤ target ∧ target ≤ hi) :
    ∃ k, p.bestJoin dsp lo hi target = some k ∧ lo ≤ k ∧ k ≤ hi ∧ ((∀ s b, dsp.better s b = true) → k = hi) := by
  obtain ⟨head, hhead, -⟩ := mapM_rule (f := p.mono dsp) (l := List.range (frames xfadeMs)) fun k hk =>
    mono_some dsp (by rw [List.mem_range] at hk; omega)
  obtain ⟨tail, htail, hlen⟩ := mapM_rule (f := fun i => p.mono dsp (lo + i))
    (l := List.range (hi + frames xfadeMs - lo)) fun i hi => mono_some dsp (by rw [List.mem_range] at hi; omega)
  rw [List.length_range] at hlen
  have hscore : ∀ k, lo ≤ k → k ≤ hi →
      ∃ s, (slice tail (k - lo) (k - lo + frames xfadeMs)).map (dsp.score head) = some s := fun k hk hk' =>
    ⟨_, by rw [slice, if_pos ⟨Nat.le_add_right .., by omega⟩, Option.map_some]⟩
  obtain ⟨first, hfirst⟩ := hscore target htarget.1 htarget.2
  obtain ⟨best, hbest, hrange, hlast⟩ := foldlM_range_rule (n := hi + 1 - lo)
    (fun i (best : ℕ × σ) => (lo ≤ best.1 ∧ best.1 ≤ hi) ∧
      ((∀ s b, dsp.better s b = true) → 0 < i → best.1 + 1 = lo + i))
    (g := fun best i => do
      let s ← (slice tail (lo + i - lo) (lo + i - lo + frames xfadeMs)).map (dsp.score head)
      some (if dsp.better s best.2 then (lo + i, s) else best))
    (s := (target, first)) ⟨htarget, fun _ h => absurd h (Nat.lt_irrefl 0)⟩ fun i best hi hbest => by
      obtain ⟨s, hs⟩ := hscore (lo + i) (Nat.le_add_right ..) (by omega)
      rw [hs]
      refine ⟨_, rfl, ?_, fun hall _ => ?_⟩
      · split_ifs
        · exact ⟨Nat.le_add_right .., by dsimp only; omega⟩
        · exact hbest.1
      · rw [if_pos (hall _ _)]
        rfl
  refine ⟨best.1, ?_, hrange.1, hrange.2, fun hall => ?_⟩
  · unfold bestJoin
    dsimp only
    rw [hhead, Option.bind_eq_bind, Option.bind_some, htail, Option.bind_eq_bind, Option.bind_some, hfirst,
      Option.bind_eq_bind, Option.bind_some]
    exact congrArg (Option.bind · _) hbest
  · have := hlast hall (by omega)
    omega

theorem crossfade_spec (dsp : Dsp α σ) {k : ℕ} (hk : k + frames xfadeMs ≤ p.level) :
    ∃ q, p.crossfade dsp k = some q ∧ q.length = p.q.length := by
  refine foldlM_range_rule (fun _ (q : List α) => q.length = p.q.length) rfl fun i q hi hq => ?_
  refine foldlM_range_rule (fun _ (q : List α) => q.length = p.q.length) hq fun c q hc hq => ?_
  have hold : i * p.ch + c < q.length := by
    rw [hq]
    exact sample_lt (by omega) hc
  have hnew : (k + i) * p.ch + c < q.length := by
    rw [hq]
    exact sample_lt (by omega) hc
  refine ⟨q.set ((k + i) * p.ch + c) (dsp.fade i q[i * p.ch + c] q[(k + i) * p.ch + c]), ?_,
    (List.length_set ..).trans hq⟩
  rw [List.getElem?_eq_getElem hold, List.getElem?_eq_getElem hnew, Option.bind_eq_bind, Option.bind_some,
    Option.bind_some]
  exact if_pos hnew

theorem drain_of_le {k : ℕ} (fate : Fate) (hk : k * p.ch ≤ p.q.length) :
    p.drain fate k = some { p with q := p.q.drop (k * p.ch), left := p.left ++ [(fate, k)] } := if_pos hk

/-- The player after `k` frames were cut out. -/
def cutBy (p : Playout α) (q : List α) (k : ℕ) : Playout α :=
  { p with q, cut := p.cut + k, left := p.left ++ [(.cut, k)] }

/-- How many frames a cut of about `drop` may take off: of those searched, and with some scores the last. -/
def Joins (dsp : Dsp α σ) (level drop k : ℕ) : Prop :=
  let lo := max (drop - frames searchMs) (frames xfadeMs)
  let hi := min (drop + frames searchMs) (level - frames xfadeMs)
  (hi < lo → k = min drop level) ∧ (lo ≤ hi → lo ≤ k ∧ k ≤ hi ∧ ((∀ s b, dsp.better s b = true) → k = hi))

theorem splice_spec (dsp : Dsp α σ) (p : Playout α) (drop : ℕ) :
    ∃ k q, p.splice dsp drop = some (p.cutBy q k) ∧ q.length + k * p.ch = p.q.length ∧ Joins dsp p.level drop k := by
  have hf : 0 < frames xfadeMs := by decide
  unfold splice Joins
  dsimp only
  generalize hlo : max (drop - frames searchMs) (frames xfadeMs) = lo
  generalize hhi : min (drop + frames searchMs) (p.level - frames xfadeMs) = hi
  split_ifs with hempty
  · have hin := mul_le_of_le_level (Nat.min_le_right drop p.level)
    refine ⟨min drop p.level, p.q.drop (min drop p.level * p.ch), ?_, ?_, fun _ => rfl, fun h => by omega⟩
    · rw [drain_of_le .cut hin]
      rfl
    · rw [List.length_drop]
      omega
  · obtain ⟨k, hk, hklo, hkhi, hlast⟩ := @bestJoin_spec α σ p dsp lo hi (max lo (min drop hi)) (by omega) (by omega)
    have hend : k + frames xfadeMs ≤ p.level := by omega
    obtain ⟨q, hq, hlen⟩ := crossfade_spec dsp hend
    have hin := @mul_le_of_le_level α p k (by omega)
    have hin' : k * p.ch ≤ q.length := by
      rw [hlen]
      exact hin
    refine ⟨k, q.drop (k * p.ch), ?_, ?_, fun h => absurd h hempty, fun _ => ⟨hklo, hkhi, hlast⟩⟩
    · rw [hk, Option.bind_eq_bind, Option.bind_some, hq, Option.bind_eq_bind, Option.bind_some,
        @drain_of_le α { p with q } k .cut hin']
      rfl
    · rw [List.length_drop, hlen]
      exact Nat.sub_add_cancel hin

theorem prev_spec {l : List α} (ch : ℕ) (get : ℕ → Option α) (hl : l.length = 2) (hch : ch ≤ 2)
    (hget : ∀ c < ch, ∃ x, get c = some x) :
    ∃ l', (List.range ch).foldlM (fun prev c => (get c).bind (put prev c)) l = some l' ∧ l'.length = 2 :=
  foldlM_range_rule (fun _ (l : List α) => l.length = 2) hl fun c l hc hl => by
    obtain ⟨x, hx⟩ := hget c hc
    exact ⟨_, by rw [hx, Option.bind_some, put, if_pos (by omega)], (List.length_set ..).trans hl⟩

theorem copy_spec (hp : p.Sound) (out : List α) : ∃ prev, p.copy out = some ({ p with
        q := p.q.drop (min (out.length / p.ch) p.level * p.ch)
        prev
        left := p.left ++ [(.played, min (out.length / p.ch) p.level)] },
      p.q.take (min (out.length / p.ch) p.level * p.ch) ++ out.drop (min (out.length / p.ch) p.level * p.ch),
      min (out.length / p.ch) p.level * p.ch) ∧ prev.length = 2 := by
  have hin := mul_le_of_le_level (Nat.min_le_right (out.length / p.ch) p.level)
  unfold copy
  dsimp only
  generalize min (out.length / p.ch) p.level = k at hin
  obtain ⟨prev, hprev, hlen⟩ := prev_spec (if 0 < k * p.ch then p.ch else 0)
    (fun c => (subChecked (k * p.ch) p.ch).bind fun start => p.q[start + c]?) hp.prev
    (by have := hp.le; split_ifs <;> omega) fun c hc => by
      split_ifs at hc with hpos
      · have hk : 0 < k := Nat.pos_of_mul_pos_right hpos
        have hone : p.ch ≤ k * p.ch := Nat.le_mul_of_pos_left _ hk
        exact ⟨_, by rw [subChecked, if_pos hone, Option.bind_some, List.getElem?_eq_getElem (by omega)]⟩
      · exact absurd hc (Nat.not_lt_zero c)
  simp only [Option.bind_assoc] at hprev
  refine ⟨prev, ?_, hlen⟩
  simp only [Option.bind_eq_bind]
  rw [hprev, Option.bind_some, @drain_of_le α { p with prev } k .played hin]
  rfl

theorem sampleAt_some (hp : p.Sound) {k c : ℕ} (hk : k ≤ p.level) (hc : c < p.ch) : ∃ x, p.sampleAt k c = some x := by
  unfold sampleAt
  split_ifs with hzero
  · exact ⟨_, List.getElem?_eq_getElem (by have := hp.le; have := hp.prev; omega)⟩
  · exact ⟨_, List.getElem?_eq_getElem (sample_lt (by omega) hc)⟩

theorem resample_spec (dsp : Dsp α σ) (hp : p.Sound) {out : List α} {n : ℕ} (hout : out.length = n * p.ch) {d : ℤ}
    (hspan : 0 < (n + d).toNat) (hroom : (n + d).toNat + 2 ≤ p.level) :
    ∃ prev out', p.resample dsp out d = some ({ p with
        q := p.q.drop ((n + d).toNat * p.ch)
        prev
        left := p.left ++ [(.resampled, (n + d).toNat)] }, out', n * p.ch) ∧ prev.length = 2 ∧
      out'.length = n * p.ch := by
  have hn : out.length / p.ch = n := by rw [hout, Nat.mul_div_cancel _ hp.pos]
  unfold resample
  dsimp only
  rw [hn]
  generalize (n + d).toNat = span at hspan hroom
  obtain ⟨out', hloop, hlen⟩ := foldlM_range_rule (n := n) (fun _ (out' : List α) => out'.length = n * p.ch)
    (g := fun out j => (List.range p.ch).foldlM (fun out c => do
      let a ← p.sampleAt (j * span / n) c
      let b ← p.sampleAt (j * span / n + 1) c
      let c' ← p.sampleAt (j * span / n + 2) c
      let d ← p.sampleAt (j * span / n + 3) c
      put out (j * p.ch + c) (dsp.cubic a b c' d (j * span % n) n)) out) hout fun j out' hj hout' => by
    -- The last position is in front of the last frame taken.
    have hk : j * span / n < span := by
      rw [Nat.div_lt_iff_lt_mul (by omega), Nat.mul_comm span]
      exact (Nat.mul_lt_mul_right hspan).mpr hj
    refine foldlM_range_rule (fun _ (out' : List α) => out'.length = n * p.ch) hout' fun c out' hc hout' => ?_
    obtain ⟨a, ha⟩ := @sampleAt_some α p hp (j * span / n) c (by omega) hc
    obtain ⟨b, hb⟩ := @sampleAt_some α p hp (j * span / n + 1) c (by omega) hc
    obtain ⟨c', hc'⟩ := @sampleAt_some α p hp (j * span / n + 2) c (by omega) hc
    obtain ⟨d, hd⟩ := @sampleAt_some α p hp (j * span / n + 3) c (by omega) hc
    have hplace : j * p.ch + c < out'.length := by
      rw [hout']
      calc j * p.ch + c < j * p.ch + p.ch := Nat.add_lt_add_left hc _
        _ = (j + 1) * p.ch := (Nat.succ_mul ..).symm
        _ ≤ n * p.ch := Nat.mul_le_mul_right _ hj
    refine ⟨out'.set (j * p.ch + c) (dsp.cubic a b c' d (j * span % n) n), ?_, (List.length_set ..).trans hout'⟩
    simp only [ha, hb, hc', hd, Option.bind_eq_bind, Option.bind_some]
    exact if_pos hplace
  obtain ⟨prev, hprev, hprevlen⟩ := prev_spec p.ch
    (fun c => (subChecked span 1).bind fun last => p.q[last * p.ch + c]?) hp.prev hp.le fun c hc =>
      ⟨_, by rw [subChecked, if_pos (by omega), Option.bind_some, List.getElem?_eq_getElem (sample_lt (by omega) hc)]⟩
  simp only [Option.bind_assoc] at hprev
  have hin := @mul_le_of_le_level α p span (by omega)
  refine ⟨prev, out', ?_, hprevlen, hlen⟩
  rw [Option.bind_eq_bind, hloop, Option.bind_some]
  simp only [Option.bind_eq_bind]
  rw [hprev, Option.bind_some, @drain_of_le α { p with prev } span .resampled hin]
  rfl

theorem share_spec (p : Playout α) (n level : ℕ) : (p.share n level).natAbs * skew ≤ p.budget ∧
      (p.share n level ≠ 0 → 0 < n ∧ 0 < (n + p.share n level).toNat ∧
        (n + p.share n level).toNat + 2 ≤ level ∧ p.pending ≠ 0) := by
  have hdiv : p.budget / skew * skew ≤ p.budget := Nat.div_mul_le_self ..
  unfold share
  dsimp only
  generalize p.budget / skew = step at hdiv ⊢
  generalize hd : (if 0 < p.pending ∧ p.target < level then min p.pending (step : ℤ)
    else if p.pending < 0 ∧ level < p.target then max p.pending (-(step : ℤ)) else 0) = d
  have habs : d.natAbs ≤ step ∧ (d ≠ 0 → p.pending ≠ 0) := by
    split_ifs at hd <;> omega
  split_ifs with hsmall
  · exact ⟨by rw [Int.natAbs_zero, Nat.zero_mul]; exact Nat.zero_le _, fun h => absurd rfl h⟩
  · exact ⟨Nat.le_trans (Nat.mul_le_mul_right _ habs.1) hdiv,
      fun hne => ⟨by omega, by omega, by omega, habs.2 hne⟩⟩

structure Accounts (p : Playout α) (pushed : ℕ) : Prop where
  sound : p.Sound
  samples : pushed = (p.left.map Prod.snd).sum * p.ch + p.q.length
  cut : p.cut = ((p.left.filter (·.1 = .cut)).map Prod.snd).sum
  once : (p.left.filter (·.1 = .dropped)).length ≤ if p.started then 1 else 0

theorem Accounts.took {p p' : Playout α} {pushed k : ℕ} (h : p.Accounts pushed) {fate : Fate} (hch : p'.ch = p.ch)
    (hprev : p'.prev.length = 2) (hq : p'.q.length + k * p.ch = p.q.length) (hleft : p'.left = p.left ++ [(fate, k)])
    (hcut : p'.cut = p.cut + if fate = .cut then k else 0)
    (hstarted : if fate = .dropped then p.started = false ∧ p'.started = true else p'.started = p.started) :
    p'.Accounts pushed where
  sound := ⟨by rw [hch]; exact h.sound.pos, hprev, by rw [hch]; exact h.sound.le⟩
  samples := by
    rw [h.samples, hleft, hch, List.map_append, List.sum_append, List.map_singleton, List.sum_singleton, Nat.add_mul]
    dsimp only
    omega
  cut := by
    rw [hcut, h.cut, hleft, List.filter_append, List.map_append, List.sum_append]
    congr 1
    cases fate <;> rfl
  once := by
    have honce := h.once
    rw [hleft, List.filter_append, List.length_append]
    cases fate with
    | dropped =>
      rw [if_pos rfl] at hstarted
      rw [hstarted.1, if_neg Bool.false_ne_true] at honce
      rw [hstarted.2, if_pos rfl]
      change _ + 1 ≤ 1
      omega
    | _ =>
      rw [if_neg (by decide)] at hstarted
      rw [hstarted]
      exact honce

theorem Accounts.cutBy {pushed k : ℕ} {q : List α} (h : p.Accounts pushed) (hq : q.length + k * p.ch = p.q.length) :
    (p.cutBy q k).Accounts pushed :=
  @Accounts.took α p (p.cutBy q k) pushed k h .cut rfl h.sound.prev hq rfl rfl rfl

theorem Accounts.splice {pushed : ℕ} (h : p.Accounts pushed) (dsp : Dsp α σ) (drop : ℕ) :
    ∃ p', p.splice dsp drop = some p' ∧ p'.Accounts pushed := by
  obtain ⟨k, q, hsplice, hq, -⟩ := p.splice_spec dsp drop
  exact ⟨_, hsplice, h.cutBy hq⟩

theorem Accounts.congr {p' : Playout α} {pushed : ℕ} (h : p.Accounts pushed) (hq : p'.q = p.q) (hch : p'.ch = p.ch)
    (hprev : p'.prev.length = 2) (hleft : p'.left = p.left) (hcut : p'.cut = p.cut) (hstarted : p'.started = p.started) :
    p'.Accounts pushed where
  sound := ⟨by rw [hch]; exact h.sound.pos, hprev, by rw [hch]; exact h.sound.le⟩
  samples := by rw [hleft, hch, hq, h.samples]
  cut := by rw [hcut, hleft, h.cut]
  once := by rw [hleft, hstarted]; exact h.once

theorem Accounts.reset {pushed : ℕ} (h : p.Accounts pushed) : p.reset.Accounts pushed :=
  h.congr rfl rfl h.sound.prev rfl rfl rfl

theorem Accounts.push {pushed : ℕ} (h : p.Accounts pushed) (dsp : Dsp α σ) (samples : List α) :
    ∃ p', p.push dsp samples = some p' ∧ p'.Accounts (pushed + samples.length) := by
  have hmore : Accounts { p with q := p.q ++ samples } (pushed + samples.length) :=
    ⟨⟨h.sound.pos, h.sound.prev, h.sound.le⟩, by
      dsimp only
      rw [h.samples, List.length_append, Nat.add_assoc], h.cut, h.once⟩
  obtain ⟨p₁, hp₁⟩ : ∃ p₁ : Playout α, { p with q := p.q ++ samples } = p₁ := ⟨_, rfl⟩
  have hpush : p.push dsp samples = if p₁.target + frames maxQueueMs < p₁.level then
      if p₁.catchup then (p₁.splice dsp (p₁.level - p₁.target)).map Playout.reset
      else (p₁.drain .cut (p₁.level - p₁.target)).map fun p => { p with cut := p.cut + (p₁.level - p₁.target) }.reset
      else some p₁ := by
    rw [← hp₁]
    rfl
  rw [hp₁] at hmore
  rw [hpush]
  split_ifs with hmany hcatchup
  · obtain ⟨p', hp', ha⟩ := hmore.splice dsp (p₁.level - p₁.target)
    exact ⟨p'.reset, by rw [hp', Option.map_some], ha.reset⟩
  · have hin := @mul_le_of_le_level α p₁ (p₁.level - p₁.target) (Nat.sub_le ..)
    have hcut := @Accounts.cutBy α p₁ _ _ (p₁.q.drop ((p₁.level - p₁.target) * p₁.ch)) hmore (by
      rw [List.length_drop]
      exact Nat.sub_add_cancel hin)
    refine ⟨_, ?_, hcut.reset⟩
    rw [drain_of_le .cut hin, Option.map_some]
    rfl
  · exact ⟨_, rfl, hmore⟩

/-! ## One fill -/

theorem Accounts.prime {pushed : ℕ} (h : p.Accounts pushed) (dsp : Dsp α σ) (hready : p.primed = true ∨ p.target ≤ p.level) :
    ∃ p', p.prime dsp = some p' ∧ p'.Accounts pushed ∧ p'.ch = p.ch := by
  unfold Playout.prime
  dsimp only
  split_ifs with hprimed hstarted
  · exact ⟨p, rfl, h, rfl⟩
  · exact ⟨_, rfl, h.congr rfl rfl rfl rfl rfl rfl, rfl⟩
  · have hin := @mul_le_of_le_level α p (p.level - p.target) (Nat.sub_le ..)
    rw [subChecked, if_pos (hready.resolve_left hprimed), Option.bind_eq_bind, Option.bind_some,
      drain_of_le .dropped hin]
    refine ⟨_, rfl, ?_, rfl⟩
    refine @Accounts.took α p _ pushed (p.level - p.target) h .dropped rfl rfl ?_ rfl rfl ⟨by simpa using hstarted, rfl⟩
    change (p.q.drop _).length + _ = _
    rw [List.length_drop]
    exact Nat.sub_add_cancel hin

theorem Accounts.correct {pushed : ℕ} (h : p.Accounts pushed) (dsp : Dsp α σ) (n : ℕ) :
    ∃ p', p.correct dsp n = some p' ∧ p'.Accounts pushed ∧ p'.ch = p.ch ∧
      ((¬ (frames windowMs ≤ p.played ∧ p.cutsOut n = true) ∧ p'.q = p.q) ∨
        (frames windowMs ≤ p.played ∧ p.cutsOut n = true) ∧ p'.pending = 0 ∧
          ∃ q k, p' = p.reset.cutBy q k ∧ q.length + k * p.ch = p.q.length ∧ Joins dsp p.level p.error.toNat k) := by
  unfold Playout.correct
  by_cases hwindow : frames windowMs ≤ p.played
  · rw [if_pos hwindow]
    dsimp only
    by_cases hcut : p.cutsOut n = true
    · obtain ⟨k, q, hsplice, hq, hk⟩ := p.reset.splice_spec dsp p.error.toNat
      rw [if_pos hcut]
      exact ⟨_, hsplice, h.reset.cutBy hq, rfl, .inr ⟨⟨hwindow, hcut⟩, rfl, q, k, rfl, hq, hk⟩⟩
    · rw [if_neg hcut]
      exact ⟨_, rfl, h.congr rfl rfl h.sound.prev rfl rfl rfl, rfl, .inl ⟨fun hboth => hcut hboth.2, rfl⟩⟩
  · rw [if_neg hwindow]
    exact ⟨p, rfl, h, rfl, .inl ⟨fun hboth => hwindow hboth.1, rfl⟩⟩

theorem Accounts.play {pushed n : ℕ} (h : p.Accounts pushed) (dsp : Dsp α σ) {out : List α}
    (hout : out.length = n * p.ch) {d : ℤ} (hbudget : d.natAbs * skew ≤ p.budget)
    (hroom : d ≠ 0 → 0 < (n + d).toNat ∧ (n + d).toNat + 2 ≤ p.level) :
    ∃ p' out', p.play dsp out d = some (p', out', (if d = 0 then min n p.level else n) * p.ch) ∧
      p'.Accounts pushed ∧ p'.ch = p.ch ∧ out'.length = out.length := by
  have hn : out.length / p.ch = n := by rw [hout, Nat.mul_div_cancel _ h.sound.pos]
  unfold Playout.play
  split_ifs with hzero
  · obtain ⟨prev, hcopy, hprev⟩ := copy_spec h.sound out
    have hin := mul_le_of_le_level (Nat.min_le_right n p.level)
    rw [hn] at hcopy
    refine ⟨_, _, hcopy, ?_, rfl, ?_⟩
    · refine @Accounts.took α p _ pushed (min n p.level) h .played rfl hprev ?_ rfl rfl rfl
      change (p.q.drop _).length + _ = _
      rw [List.length_drop]
      exact Nat.sub_add_cancel hin
    · have hle := Nat.mul_le_mul_right p.ch (Nat.min_le_left n p.level)
      rw [List.length_append, List.length_take, List.length_drop, hout]
      omega
  · obtain ⟨hspan, hroom⟩ := hroom hzero
    obtain ⟨prev, out', hresample, hprev, hlen⟩ := resample_spec dsp h.sound hout hspan hroom
    have hin := @mul_le_of_le_level α p (n + d).toNat (by omega)
    rw [hresample, Option.bind_some, settle]
    dsimp only
    rw [subChecked, if_pos hbudget, Option.bind_eq_bind, Option.bind_some, Option.map_some]
    refine ⟨_, out', rfl, ?_, rfl, hlen.trans hout.symm⟩
    refine @Accounts.took α p _ pushed (n + d).toNat h .resampled rfl hprev ?_ rfl rfl rfl
    change (p.q.drop _).length + _ = _
    rw [List.length_drop]
    exact Nat.sub_add_cancel hin

theorem Accounts.fill {pushed n : ℕ} (h : p.Accounts pushed) (dsp : Dsp α σ) {out : List α} (hout : out.length = n * p.ch) :
    ∃ p' out' filled, p.fill dsp out = some (p', out', filled) ∧ p'.Accounts pushed ∧ p'.ch = p.ch ∧
      out'.length = out.length ∧
      (p.primed = true → ∃ p₁, (p.watch n).correct dsp n = some p₁ ∧
        filled = (if p₁.share n p.level = 0 then min n p₁.level else n) * p.ch) := by
  have hn : out.length / p.ch = n := by rw [hout, Nat.mul_div_cancel _ h.sound.pos]
  unfold Playout.fill
  dsimp only
  rw [hn]
  split_ifs with hearly
  · exact ⟨p, _, 0, rfl, h, rfl, List.length_replicate, fun hprimed => absurd hprimed hearly.1⟩
  · have hready : p.primed = true ∨ p.target ≤ p.level := by
      by_cases hprimed : p.primed = true
      · exact .inl hprimed
      · exact .inr (Nat.not_lt.mp fun hlt => hearly ⟨hprimed, .inr hlt⟩)
    obtain ⟨p₀, hprime, ha₀, hch₀⟩ := h.prime dsp hready
    have hwatch : (p₀.watch n).Accounts pushed := ha₀.congr rfl rfl ha₀.sound.prev rfl rfl rfl
    obtain ⟨p₁, hcorrect, ha₁, hch₁, hcases⟩ := hwatch.correct dsp n
    have hshare := p₁.share_spec n p₀.level
    have hch : p₁.ch = p.ch := hch₁.trans hch₀
    obtain ⟨p₂, out', hplay, ha₂, hch₂, hlen⟩ := ha₁.play dsp (hout.trans (by rw [hch])) hshare.1 fun hne => by
      obtain ⟨-, hspan, hroom, hpending⟩ := hshare.2 hne
      rcases hcases with ⟨-, hq⟩ | ⟨-, hnone, -⟩
      · refine ⟨hspan, Nat.le_trans hroom (Nat.le_of_eq ?_)⟩
        rw [Playout.level, Playout.level, hq, hch₁]
        rfl
      · exact absurd hnone hpending
    rw [hprime, Option.bind_eq_bind, Option.bind_some, hcorrect, Option.bind_some, hplay,
      Option.bind_eq_bind, Option.bind_some]
    have hfilled : p.primed = true → ∃ p₁', (p.watch n).correct dsp n = some p₁' ∧
        (if p₁.share n p₀.level = 0 then min n p₁.level else n) * p₁.ch =
          (if p₁'.share n p.level = 0 then min n p₁'.level else n) * p.ch := by
      intro hprimed
      obtain rfl : p = p₀ := by
        unfold Playout.prime at hprime
        dsimp only at hprime
        rwa [if_pos hprimed, Option.some_inj] at hprime
      exact ⟨p₁, hcorrect, by rw [hch]⟩
    generalize (if p₁.share n p₀.level = 0 then min n p₁.level else n) * p₁.ch = filled at hplay hfilled ⊢
    dsimp only
    split_ifs with hdry
    · refine ⟨_, _, _, rfl, ha₂.congr rfl rfl ha₂.sound.prev rfl rfl rfl, hch₂.trans hch, ?_, hfilled⟩
      rw [List.length_append, List.length_take, List.length_replicate, hlen]
      omega
    · exact ⟨_, _, _, rfl, ha₂, hch₂.trans hch, hlen, hfilled⟩

theorem fill_of_quiet {p₀ : Playout α} {n : ℕ} (dsp : Dsp α σ) (out : List α) (hp₀ : p₀.Sound)
    (hprime : p.prime dsp = some p₀) (hch : p₀.ch = p.ch) (hready : p.primed = true ∨ 0 < n ∧ p.target ≤ p.level)
    (hout : out.length = n * p.ch) (hwindow : p₀.played + n < frames windowMs) (hpending : p₀.pending = 0)
    (hn : n ≤ p₀.level) :
    ∃ prev, p.fill dsp out = some ({ p₀.watch n with
        q := p₀.q.drop (n * p.ch), prev, left := p₀.left ++ [(.played, n)] }, p₀.q.take (n * p.ch), n * p.ch) := by
  have hn' : out.length / p.ch = n := by rw [hout, Nat.mul_div_cancel _ (by rw [← hch]; exact hp₀.pos)]
  have hcorrect : (p₀.watch n).correct dsp n = some (p₀.watch n) := if_neg (Nat.not_le.mpr hwindow)
  have hzero : (p₀.watch n).share n p₀.level = 0 := by
    by_contra hne
    exact ((share_spec _ n p₀.level).2 hne).2.2.2 hpending
  obtain ⟨prev, hcopy, -⟩ := @copy_spec α (p₀.watch n) ⟨hp₀.pos, hp₀.prev, hp₀.le⟩ out
  change (p₀.watch n).copy out = some ({ p₀.watch n with
      q := p₀.q.drop (min (out.length / p₀.ch) p₀.level * p₀.ch), prev
      left := p₀.left ++ [(.played, min (out.length / p₀.ch) p₀.level)] },
    p₀.q.take (min (out.length / p₀.ch) p₀.level * p₀.ch) ++ out.drop (min (out.length / p₀.ch) p₀.level * p₀.ch),
    min (out.length / p₀.ch) p₀.level * p₀.ch) at hcopy
  rw [hch, hn', Nat.min_eq_left hn, List.drop_of_length_le (Nat.le_of_eq hout), List.append_nil] at hcopy
  have hearly : ¬ (¬ p.primed = true ∧ (n = 0 ∨ p.level < p.target)) := fun ⟨hnot, hsmall⟩ => by
    have := hready.resolve_left hnot
    omega
  have hlen : (p₀.q.take (n * p.ch)).length = n * p.ch := by
    rw [List.length_take]
    exact Nat.min_eq_left (by rw [← hch]; exact mul_le_of_le_level hn)
  refine ⟨prev, ?_⟩
  unfold Playout.fill
  dsimp only
  rw [hn', if_neg hearly, hprime, Option.bind_eq_bind, Option.bind_some, hcorrect, Option.bind_some, hzero, Playout.play,
    if_pos rfl, hcopy, Option.bind_eq_bind, Option.bind_some]
  dsimp only
  rw [hlen, if_neg (Nat.lt_irrefl _)]

/-- A fill of `n` frames that cuts out a backlog leaves itself enough, wherever the join is. -/
def LeavesEnough (p : Playout α) (n : ℕ) : Prop :=
  frames windowMs ≤ (p.watch n).played → (p.watch n).cutsOut n = true →
    n ≤ frames xfadeMs ∨ (p.watch n).error.toNat + frames searchMs + n ≤ p.level

instance (p : Playout α) (n : ℕ) : Decidable (p.LeavesEnough n) := inferInstanceAs (Decidable (_ → _ → _))

theorem level_of_length {p p' : Playout α} (hch : p'.ch = p.ch) {k : ℕ}
    (hq : p'.q.length + k * p.ch = p.q.length) : p'.level = p.level - k := by
  have hsub : p'.q.length = p.q.length - p.ch * k := by
    rw [Nat.mul_comm]
    omega
  rw [level, level, hch, hsub, Nat.sub_mul_div]

theorem fill_full {pushed n : ℕ} (h : p.Accounts pushed) {out : List α} (hout : out.length = n * p.ch)
    (hprimed : p.primed = true) (hlevel : n ≤ p.level) (dsp₀ : Dsp α σ) :
    (∀ (τ : Type) (dsp : Dsp α τ), ∃ p' out', p.fill dsp out = some (p', out', n * p.ch)) ↔ p.LeavesEnough n := by
  have hwatch : (p.watch n).Accounts pushed := h.congr rfl rfl h.sound.prev rfl rfl rfl
  have hx : frames xfadeMs = 240 := rfl
  have hs : frames searchMs = 240 := rfl
  have ho : frames spliceOverMs = 1440 := rfl
  -- What is filled after a cut, and where none is made.
  have hfill : ∀ (τ : Type) (dsp : Dsp α τ), ∃ p' out' filled, p.fill dsp out = some (p', out', filled) ∧
      ((¬ (frames windowMs ≤ (p.watch n).played ∧ (p.watch n).cutsOut n = true) ∧ filled = n * p.ch) ∨
        (frames windowMs ≤ (p.watch n).played ∧ (p.watch n).cutsOut n = true) ∧
          ∃ k, filled = min n (p.level - k) * p.ch ∧ Joins dsp p.level (p.watch n).error.toNat k) := by
    intro τ dsp
    obtain ⟨p', out', filled, hfill, -, -, -, hfilled⟩ := h.fill dsp hout
    obtain ⟨p₁, hcorrect, hfilled⟩ := hfilled hprimed
    obtain ⟨p₁', hcorrect', -, hch, hcases⟩ := hwatch.correct dsp n
    obtain rfl : p₁ = p₁' := Option.some_inj.mp (hcorrect.symm.trans hcorrect')
    refine ⟨p', out', filled, hfill, hcases.imp (fun hnone => ⟨hnone.1, ?_⟩) fun hcut => ⟨hcut.1, ?_⟩⟩
    · have hsame : p₁.level = p.level := by
        rw [level, level, hnone.2, hch]
        rfl
      rw [hfilled, hsame, Nat.min_eq_left hlevel]
      split_ifs <;> rfl
    · obtain ⟨-, hpending, q, k, hp₁, hq, hk⟩ := hcut
      have hzero : p₁.share n p.level = 0 := by
        by_contra hne
        exact ((p₁.share_spec n p.level).2 hne).2.2.2 hpending
      refine ⟨k, ?_, hk⟩
      rw [hfilled, if_pos hzero, hp₁, @level_of_length α p ((p.watch n).reset.cutBy q k) rfl k hq]
  constructor
  · intro hall hwindow hcut
    obtain ⟨p', out', filled, hfill, hcases⟩ :=
      hfill Unit ⟨dsp₀.zero, dsp₀.sum, fun _ _ => (), fun _ _ => true, dsp₀.fade, dsp₀.cubic⟩
    obtain ⟨p'', out'', hfull⟩ := hall Unit ⟨dsp₀.zero, dsp₀.sum, fun _ _ => (), fun _ _ => true, dsp₀.fade, dsp₀.cubic⟩
    rw [hfill, Option.some_inj] at hfull
    have hfilled : filled = n * p.ch := congrArg (fun r => r.2.2) hfull
    obtain ⟨hnone, -⟩ | ⟨-, k, hk, -, hjoin⟩ := hcases
    · exact absurd ⟨hwindow, hcut⟩ hnone
    · have hleft : n ≤ p.level - k := by
        have := Nat.eq_of_mul_eq_mul_right h.sound.pos (hfilled.symm.trans hk)
        omega
      simp only [cutsOut, Bool.and_eq_true, decide_eq_true_eq] at hcut
      have hroom : (p.watch n).error.toNat + n ≤ p.level := hcut.2
      have hlast := (hjoin (by omega)).2.2 fun _ _ => rfl
      omega
  · intro hle τ dsp
    obtain ⟨p', out', filled, hfill, hcases⟩ := hfill τ dsp
    refine ⟨p', out', hfill.trans ?_⟩
    obtain ⟨-, hfilled⟩ | ⟨hboth, k, hk, -, hjoin⟩ := hcases
    · rw [hfilled]
    · have henough := hle hboth.1 hboth.2
      have hcut := hboth.2
      simp only [cutsOut, Bool.and_eq_true, decide_eq_true_eq] at hcut
      have hroom : (p.watch n).error.toNat + n ≤ p.level := hcut.2
      have hmost := (hjoin (by omega)).2.1
      rw [hk, Nat.min_eq_left (by omega)]

end Playout

/-! ## Runs -/

inductive Reached {α : Type} (ch : ℕ) : Playout α → ℕ → Prop where
  | new (zero : α) : Reached ch (Playout.new zero ch) 0
  | push {p p' : Playout α} {pushed : ℕ} {σ : Type} (dsp : Dsp α σ) (samples : List α) (h : Reached ch p pushed)
      (hpush : p.push dsp samples = some p') : Reached ch p' (pushed + samples.length)
  | retarget {p : Playout α} {pushed : ℕ} {target : ℕ} (h : Reached ch p pushed) (htarget : frames 10 ≤ target) :
      Reached ch { p with target } pushed
  | catchUp {p : Playout α} {pushed : ℕ} (catchup : Bool) (h : Reached ch p pushed) :
      Reached ch { p with catchup } pushed
  | fill {p p' : Playout α} {pushed n : ℕ} {σ : Type} (dsp : Dsp α σ) {out out' : List α} {filled : ℕ}
      (h : Reached ch p pushed) (hout : out.length = n * p.ch) (hn : n ≤ p.target)
      (hfill : p.fill dsp out = some (p', out', filled)) : Reached ch p' pushed

theorem Reached.accounts {α : Type} {ch pushed : ℕ} {p : Playout α} (h : Reached ch p pushed) : p.Accounts pushed := by
  induction h with
  | new zero =>
    refine ⟨⟨?_, rfl, ?_⟩, (Nat.zero_mul _).symm, rfl, Nat.zero_le _⟩
    · exact Nat.lt_of_lt_of_le Nat.one_pos (Nat.le_max_left 1 (min ch 2))
    · exact Nat.max_le.mpr ⟨by decide, Nat.min_le_right ch 2⟩
  | push dsp samples _ hpush ih =>
    obtain ⟨p', hp', ha⟩ := ih.push dsp samples
    rw [hpush, Option.some_inj] at hp'
    exact hp' ▸ ha
  | retarget _ _ ih => exact ih.congr rfl rfl ih.sound.prev rfl rfl rfl
  | catchUp _ _ ih => exact ih.congr rfl rfl ih.sound.prev rfl rfl rfl
  | fill dsp _ hout _ hfill ih =>
    obtain ⟨p', out', filled, hp', ha, -⟩ := ih.fill dsp hout
    rw [hfill] at hp'
    cases hp'
    exact ha

/-- After every run: no push and no fill meets a wrong index; each frame that was pushed left the queue under one fate
or is queued, with `cut` counting those cut out, and a backlog dropped once at most; and a fill that begins with enough
frames, the player playing, plays them all wherever the join is, just when its cut leaves it enough. -/
theorem playout_fills {α σ : Type} {ch pushed : ℕ} {p : Playout α} (h : Reached ch p pushed) (dsp₀ : Dsp α σ) :
    (∀ (τ : Type) (dsp : Dsp α τ) (samples : List α), ∃ p', p.push dsp samples = some p') ∧
      (∀ (τ : Type) (dsp : Dsp α τ) (n : ℕ) (out : List α), out.length = n * p.ch →
        ∃ p' out' filled, p.fill dsp out = some (p', out', filled)) ∧
      p.Accounts pushed ∧
      ∀ n out, out.length = n * p.ch → n ≤ p.target → p.primed = true → n ≤ p.level →
        ((∀ (τ : Type) (dsp : Dsp α τ), ∃ p' out', p.fill dsp out = some (p', out', n * p.ch)) ↔ p.LeavesEnough n) := by
  have ha := h.accounts
  refine ⟨fun τ dsp samples => ?_, fun τ dsp n out hout => ?_, ha, fun n out hout _ hprimed hlevel =>
    Playout.fill_full ha hout hprimed hlevel dsp₀⟩
  · obtain ⟨p', hp', -⟩ := ha.push dsp samples
    exact ⟨p', hp'⟩
  · obtain ⟨p', out', filled, hfill, -⟩ := ha.fill dsp hout
    exact ⟨p', out', filled, hfill⟩

theorem Playout.push_of_le {α σ : Type} {p : Playout α} (dsp : Dsp α σ) {samples : List α}
    (h : (p.q ++ samples).length / p.ch ≤ p.target + frames maxQueueMs) :
    p.push dsp samples = some { p with q := p.q ++ samples } := if_neg (Nat.not_lt.mpr h)

theorem reached_backlog : ∃ p : Playout Unit, Reached 1 p 25921 ∧ p.ch = 1 ∧ p.primed = true ∧ p.catchup = true ∧
    p.target = 480 ∧ p.level = 2401 ∧ p.low = 24000 ∧ p.played = 23520 := by
  obtain ⟨dsp⟩ : Nonempty (Dsp Unit Unit) :=
    ⟨(), fun _ => (), fun _ _ => (), fun _ _ => true, fun _ _ _ => (), fun _ _ _ _ _ _ => ()⟩
  have hlist : ∀ n, ∃ l : List Unit, l.length = n := fun n => ⟨List.replicate n (), List.length_replicate⟩
  obtain ⟨l, hl⟩ := hlist 24000
  obtain ⟨out, hout⟩ := hlist 23520
  obtain ⟨l', hl'⟩ := hlist 1921
  -- Half a second's frames are queued, and all but one period of them are played.
  have hwide := @Reached.retarget Unit 1 _ _ _ (.new ()) (show frames 10 ≤ 24000 by decide)
  have hfull : Reached 1 { Playout.new () 1 with target := 24000, q := [] ++ l } (0 + l.length) :=
    hwide.push dsp l (Playout.push_of_le dsp (by
      rw [List.length_append, hl]
      decide))
  rw [hl] at hfull
  generalize hp : ({ Playout.new () 1 with target := 24000, q := [] ++ l } : Playout Unit) = p at hfull
  have hch : p.ch = 1 := by rw [← hp]; rfl
  have hq : p.q = l := by rw [← hp]; rfl
  have htarget : p.target = 24000 := by rw [← hp]
  have hlevel : p.level = p.target := by rw [Playout.level, hch, hq, hl, htarget]
  have hprime : p.prime dsp = some { p with
      q := p.q.drop 0, left := p.left ++ [(.dropped, 0)], prev := [(), ()], primed := true, started := true
      low := usizeMax, played := 0, pending := 0 } := by
    have hprimed : p.primed = false := by rw [← hp]; rfl
    have hstarted : p.started = false := by rw [← hp]; rfl
    rw [Playout.prime, hprimed, if_neg Bool.false_ne_true, hstarted, if_neg Bool.false_ne_true, hlevel,
      subChecked, if_pos (Nat.le_refl _), Nat.sub_self, Option.bind_eq_bind, Option.bind_some,
      Playout.drain_of_le .dropped (by rw [Nat.zero_mul]; exact Nat.zero_le _), Nat.zero_mul]
    rfl
  generalize hp₀ : ({ p with
      q := p.q.drop 0, left := p.left ++ [(.dropped, 0)], prev := [(), ()], primed := true, started := true
      low := usizeMax, played := 0, pending := 0 } : Playout Unit) = p₀ at hprime
  have hch₀ : p₀.ch = 1 := by rw [← hp₀, ← hch]
  have hq₀ : p₀.q = l := by rw [← hp₀, ← hq]; rfl
  have hlow₀ : p₀.low = usizeMax := by rw [← hp₀]
  have hplayed₀ : p₀.played = 0 := by rw [← hp₀]
  have hlevel₀ : p₀.level = 24000 := by rw [Playout.level, hch₀, hq₀, hl]
  obtain ⟨prev, hfill⟩ := Playout.fill_of_quiet (p := p) (n := 23520) dsp out
    ⟨by omega, by rw [← hp₀]; rfl, by omega⟩ hprime (hch₀.trans hch.symm) (.inr ⟨by decide, by omega⟩)
    (by rw [hch, hout]) (by rw [hplayed₀]; decide) (by rw [← hp₀]) (by omega)
  have hplayed := Reached.fill (n := 23520) dsp hfull (by rw [hch, hout]) (by omega) hfill
  -- The target goes down to one period, and a backlog under the cap arrives.
  have hnarrow := Reached.retarget hplayed (show frames 10 ≤ 480 by decide)
  have hqueued : (p₀.q.drop (23520 * p.ch)).length = 480 := by rw [List.length_drop, hq₀, hl, hch]
  have hbacklog := hnarrow.push dsp l' (Playout.push_of_le dsp (by
    change (p₀.q.drop (23520 * p.ch) ++ l').length / p₀.ch ≤ 480 + frames maxQueueMs
    rw [List.length_append, hqueued, hl', hch₀]
    decide))
  rw [hl'] at hbacklog
  refine ⟨_, hbacklog, hch₀, by rw [← hp₀]; rfl, by rw [← hp₀, ← hp]; rfl, rfl, ?_, ?_, ?_⟩
  · change (p₀.q.drop (23520 * p.ch) ++ l').length / p₀.ch = 2401
    rw [List.length_append, hqueued, hl', hch₀]
  · change min p₀.low p₀.level = 24000
    rw [hlow₀, hlevel₀]
    rfl
  · change p₀.played + 23520 = 23520
    rw [hplayed₀]

/-- A fill of 5 ms has enough even there. -/
theorem playout_fills_backlog : ∃ p : Playout Unit, p.level = 2401 ∧ ∀ (τ : Type) (dsp : Dsp Unit τ),
    ∃ p' out', p.fill dsp (List.replicate 240 ()) = some (p', out', 240 * p.ch) := by
  obtain ⟨p, hreached, hch, hprimed, -, htarget, hlevel, -⟩ := reached_backlog
  obtain ⟨-, -, -, hfull⟩ := playout_fills hreached
    (⟨(), fun _ => (), fun _ _ => (), fun _ _ => true, fun _ _ _ => (), fun _ _ _ _ _ _ => ()⟩ : Dsp Unit Unit)
  exact ⟨p, hlevel, (hfull 240 _ (by rw [hch, List.length_replicate]) (by omega) hprimed (by omega)).mpr
    fun _ _ => .inl (Nat.le_refl 240)⟩

/-- So the window's last fill finds a backlog of 1921 frames, may cut out 2161, and has 240 of its 480 frames. -/
theorem fill_runs_dry : ¬ ∀ (σ : Type) (dsp : Dsp Unit σ) (ch pushed : ℕ) (p : Playout Unit), Reached ch p pushed →
    ∀ n out, out.length = n * p.ch → n ≤ p.target → p.primed = true → n ≤ p.level →
      ∃ p' out', p.fill dsp out = some (p', out', n * p.ch) := by
  intro hall
  obtain ⟨p, hreached, hch, hprimed, hcatchup, htarget, hlevel, hlow, hplayed⟩ := reached_backlog
  have hout : (List.replicate 480 ()).length = 480 * p.ch := by rw [hch, List.length_replicate]
  have henough := (Playout.fill_full hreached.accounts hout hprimed (by omega)
    (⟨(), fun _ => (), fun _ _ => (), fun _ _ => true, fun _ _ _ => (), fun _ _ _ _ _ _ => ()⟩ : Dsp Unit Unit)).mp
    fun τ dsp => hall τ dsp 1 25921 p hreached 480 _ hout (by omega) hprimed (by omega)
  have herror : (p.watch 480).error = 1921 := by
    change ((min p.low p.level : ℕ) : ℤ) - p.target = 1921
    rw [hlow, hlevel, htarget]
    rfl
  have hcut : (p.watch 480).cutsOut 480 = true := by
    rw [Playout.cutsOut, herror]
    change (p.catchup && decide _ && decide (_ ≤ p.level)) = true
    rw [hcatchup, hlevel]
    rfl
  have hwindow : frames windowMs ≤ (p.watch 480).played := by
    change 24000 ≤ p.played + 480
    omega
  have hleft := henough hwindow hcut
  rw [herror, hlevel] at hleft
  exact absurd hleft (by decide)

end Rdpio.Hyper.Jitter
