import Mathlib.Tactic.Linarith
import Mathlib.Tactic.Positivity
import Rdpio.Hyper.AutoRes

/-!
# The promises of the automatic resolution

What holds over every run with times that do not go back (`autores_promises`).
-/

namespace Rdpio.Hyper.AutoRes

open Lib

structure Entry where
  c : Call
  before : State
  decision : Option Decision
  after : State

structure World where
  res : State := {}
  past : List Entry := []

def World.step (w : World) (c : Call) : World :=
  let r := w.res.step c
  ⟨r.1, w.past ++ [⟨c, w.res, r.2, r.1⟩]⟩

def World.after (cs : List Call) : World := run World.step {} cs

def Entry.now (e : Entry) : ℚ := e.c.s.now_s

def Entry.judged (e : Entry) : State := (e.before.watch e.c).heard e.c

def Entry.Starved (e : Entry) : Prop := e.c.behind = true ∧ e.judged.bppAt e.c e.c.current < downBpp e.c.office

/-- Keeping up, with bits to spare for the next step up. -/
def Entry.Spare (e : Entry) : Prop :=
  e.c.behind = false ∧ ∃ next, higher e.c = some next ∧ upBpp e.c.office ≤ e.judged.bppAt e.c next

def Entry.Raises (e : Entry) : Prop := ∃ d, e.decision = some d ∧ e.c.current < d.scale

/-- A call at a scale and in a mode, with evidence `Q` if it counts. -/
def Under (Q : Entry → Prop) (office : Bool) (current : ℕ) (e : Entry) : Prop :=
  e.c.office = office ∧ e.c.current = current ∧ (e.c.counts = true → Q e)

theorem State.watch_cases (a : State) (c : Call) : a.watch c = { a with
        below_since := none
        above_since := none
        recent := if a.office ≠ some c.office then [] else a.recent
        office := some c.office
        current := c.current } ∨
      a.watch c = a ∧ a.office = some c.office ∧ a.current = c.current := by
  unfold State.watch
  by_cases h : a.office ≠ some c.office ∨ a.current ≠ c.current
  · exact .inl (if_pos h)
  · refine .inr ⟨if_neg h, ?_⟩
    rwa [not_or, not_not, not_not] at h

theorem State.watch_current (a : State) (c : Call) :
    (a.watch c).office = some c.office ∧ (a.watch c).current = c.current := by
  rcases a.watch_cases c with h | ⟨h, hsame⟩
  · rw [h]
    exact ⟨rfl, rfl⟩
  · rwa [h]

theorem State.watch_keeps (a : State) (c : Call) :
    (a.watch c).last_change = a.last_change ∧ (a.watch c).last_up = a.last_up ∧
      (a.watch c).last_behind = a.last_behind ∧ (a.watch c).up_hold_s = a.up_hold_s := by
  rcases a.watch_cases c with h | ⟨h, -⟩ <;> rw [h] <;> exact ⟨rfl, rfl, rfl, rfl⟩

theorem State.mem_recent_watch {a : State} {c : Call} {x : ℚ} (hx : x ∈ (a.watch c).recent) : x ∈ a.recent := by
  rcases a.watch_cases c with h | ⟨h, -⟩
  · rw [h] at hx
    dsimp only at hx
    split_ifs at hx
    · cases hx
    · exact hx
  · rwa [h] at hx

theorem State.heard_keeps (a : State) (c : Call) :
    (a.heard c).office = a.office ∧ (a.heard c).current = a.current ∧ (a.heard c).below_since = a.below_since ∧
      (a.heard c).above_since = a.above_since ∧ (a.heard c).last_change = a.last_change ∧
      (a.heard c).last_up = a.last_up := by
  unfold State.heard
  dsimp only
  split_ifs <;> exact ⟨rfl, rfl, rfl, rfl, rfl, rfl⟩

theorem State.heard_behind {a : State} {c : Call} (h : c.behind = true) :
    (a.heard c).last_behind = some c.s.now_s ∧ (a.heard c).up_hold_s = a.up_hold_s := by
  unfold State.heard
  rw [if_pos h]
  exact ⟨rfl, rfl⟩

theorem State.heard_not_behind {a : State} {c : Call} (h : ¬c.behind = true) : (a.heard c).last_behind = a.last_behind ∧
      ((a.heard c).up_hold_s = a.up_hold_s ∨
        (a.heard c).up_hold_s = upAfterS ∧ ∀ t, a.last_behind = some t → calmS ≤ c.s.now_s - t) := by
  unfold State.heard
  dsimp only
  rw [if_neg h]
  split_ifs with hcalm
  · refine ⟨rfl, .inr ⟨rfl, fun t ht => ?_⟩⟩
    rw [ht] at hcalm
    simpa using hcalm
  · exact ⟨rfl, .inl rfl⟩

theorem State.nonneg_recent_heard {a : State} {c : Call} (h : ∀ x ∈ a.recent, 0 ≤ x) :
    ∀ x ∈ (a.heard c).recent, 0 ≤ x := by
  have hrecent : ∃ n, (a.heard c).recent = (a.recent ++ [max c.s.received_bps 0]).drop n := by
    unfold State.heard
    dsimp only
    split_ifs <;> exact ⟨_, rfl⟩
  obtain ⟨n, hn⟩ := hrecent
  rw [hn]
  intro x hx
  rcases List.mem_append.mp (List.mem_of_mem_drop hx) with hx | hx
  · exact h x hx
  · rw [List.mem_singleton.mp hx]
    exact le_max_right _ _

theorem State.down_cases (a : State) (c : Call) :
    let b := { a with below_since := some (a.below_since.getD c.s.now_s) }
    (c.behind = true ∧ a.bppAt c c.current < downBpp c.office ∧ smallest c.office < c.current ∧
      downAfterS ≤ c.s.now_s - a.below_since.getD c.s.now_s ∧ a.changedOk c.s.now_s = true ∧
      a.down c = ((b.takenBack c.s.now_s).changed c (a.lower c)).map id some) ∨
    (c.behind = true ∧ a.bppAt c c.current < downBpp c.office ∧ a.down c = (b, none)) ∨
    a.down c = ({ a with below_since := none }, none) := by
  intro b
  unfold State.down
  split_ifs with hstarved
  · rw [State.short, decide_eq_true_eq] at hstarved
    dsimp only
    split_ifs with hnow
    · exact .inl ⟨hstarved.1, hstarved.2.2, hstarved.2.1, hnow.1, hnow.2, rfl⟩
    · exact .inr (.inl ⟨hstarved.1, hstarved.2.2, rfl⟩)
  · exact .inr (.inr rfl)

theorem State.uncapped_keeps (a : State) (now : ℚ) :
    a.uncapped now = { a with ceiling := (a.uncapped now).ceiling } := by
  unfold State.uncapped
  split_ifs <;> rfl

theorem State.up_cases (a : State) (c : Call) :
    let b := a.uncapped c.s.now_s
    (∃ next, higher c = some next ∧ c.behind = false ∧ b.plenty c next = true ∧
      b.up_hold_s ≤ c.s.now_s - b.above_since.getD c.s.now_s ∧ b.changedOk c.s.now_s = true ∧
      a.up c = (State.changed { b with
        above_since := some (b.above_since.getD c.s.now_s)
        last_up := some c.s.now_s } c next).map id some) ∨
    (∃ next, higher c = some next ∧ c.behind = false ∧ b.plenty c next = true ∧
      a.up c = ({ b with above_since := some (b.above_since.getD c.s.now_s) }, none)) ∨
    a.up c = ({ b with above_since := none }, none) := by
  intro b
  unfold State.up
  cases hnext : higher c with
  | none => exact .inr (.inr rfl)
  | some next =>
    dsimp only
    split_ifs with hspare hnow
    · exact .inl ⟨next, rfl, eq_false_of_ne_true hspare.1, hspare.2, hnow.1, hnow.2, rfl⟩
    · exact .inr (.inl ⟨next, rfl, eq_false_of_ne_true hspare.1, hspare.2, rfl⟩)
    · exact .inr (.inr rfl)

/-! ## What the timers say -/

def Holds (Q : Entry → Prop) (a : State) (since : Option ℚ) (past : List Entry) : Prop :=
  ∀ t, since = some t → (∃ office, a.office = some office ∧ Lasted Entry.now (Under Q office a.current) t past) ∧
      ∀ s, a.last_change = some s → settleS ≤ t - s

/-- What the state keeps of the samples so far. -/
structure State.Tracks (a : State) (past : List Entry) : Prop where
  changes : Latest Entry.now (fun e => e.decision.isSome = true) a.last_change past
  ups : Latest Entry.now Entry.Raises a.last_up past
  behinds : Latest Entry.now (fun e => e.c.counts = true ∧ e.c.behind = true) a.last_behind past
  below : Holds Entry.Starved a a.below_since past
  above : Holds Entry.Spare a a.above_since past
  recent : ∀ x ∈ a.recent, 0 ≤ x
  hold : upAfterS ≤ a.up_hold_s

theorem holds_none (Q : Entry → Prop) (a : State) (past : List Entry) : Holds Q a none past := fun t ht => by cases ht

theorem Holds.congr {Q : Entry → Prop} {a b : State} {since : Option ℚ} {past : List Entry} (h : Holds Q a since past)
    (hoffice : b.office = a.office) (hcurrent : b.current = a.current) (hchange : b.last_change = a.last_change) :
    Holds Q b since past := by
  intro t ht
  rw [hoffice, hcurrent, hchange]
  exact h t ht

theorem Holds.skip {Q : Entry → Prop} {a : State} {since : Option ℚ} {past : List Entry} (h : Holds Q a since past)
    {e : Entry} (hoffice : a.office = some e.c.office) (hcurrent : a.current = e.c.current)
    (hcounts : ¬e.c.counts = true) : Holds Q a since (past ++ [e]) := by
  intro t ht
  obtain ⟨⟨office, heq, hlasted⟩, hsettled⟩ := h t ht
  obtain rfl : e.c.office = office := by rw [hoffice, Option.some.injEq] at heq; exact heq
  exact ⟨⟨_, hoffice, hlasted.concat ⟨rfl, hcurrent.symm, fun h => absurd h hcounts⟩⟩, hsettled⟩

theorem Holds.next {Q : Entry → Prop} {a : State} {since : Option ℚ} {past : List Entry} (h : Holds Q a since past)
    {e : Entry} (hoffice : a.office = some e.c.office) (hcurrent : a.current = e.c.current) (hQ : Q e)
    (hsettled : ∀ s, a.last_change = some s → settleS ≤ e.now - s) :
    Holds Q a (some (since.getD e.now)) (past ++ [e]) := by
  have hunder : Under Q e.c.office a.current e := ⟨rfl, hcurrent.symm, fun _ => hQ⟩
  rintro t ⟨⟩
  cases since with
  | none => exact ⟨⟨_, hoffice, lasted_first past hunder⟩, hsettled⟩
  | some t =>
    obtain ⟨⟨office, heq, hlasted⟩, hold⟩ := h t rfl
    obtain rfl : e.c.office = office := by rw [hoffice, Option.some.injEq] at heq; exact heq
    exact ⟨⟨_, hoffice, hlasted.concat hunder⟩, hold⟩

theorem Holds.eq_none {Q : Entry → Prop} {a : State} {since : Option ℚ} {past : List Entry} (h : Holds Q a since past)
    {now : ℚ} (hnow : ∀ e ∈ past, e.now ≤ now) (hsettling : a.settling now = true) : since = none := by
  cases since with
  | none => rfl
  | some t =>
    obtain ⟨⟨office, -, hlasted⟩, hsettled⟩ := h t rfl
    unfold State.settling at hsettling
    cases hchange : a.last_change with
    | none =>
      rw [hchange] at hsettling
      cases hsettling
    | some s =>
      have hs := hsettled s hchange
      have ht := hlasted.le hnow
      rw [hchange, Option.any_some, decide_eq_true_eq] at hsettling
      linarith

theorem State.tracks_nil : ({} : State).Tracks [] :=
  ⟨by simp [Latest], by simp [Latest], by simp [Latest], holds_none _ _ _, holds_none _ _ _, by simp, le_refl _⟩

theorem State.Tracks.watch {a : State} {past : List Entry} (h : a.Tracks past) (c : Call) :
    (a.watch c).Tracks past := by
  have hrecent : ∀ x ∈ (a.watch c).recent, 0 ≤ x := fun x hx => h.recent x (State.mem_recent_watch hx)
  rcases a.watch_cases c with hnew | ⟨hsame, -⟩
  · rw [hnew] at hrecent ⊢
    exact ⟨h.changes, h.ups, h.behinds, holds_none _ _ _, holds_none _ _ _, hrecent, h.hold⟩
  · rwa [hsame]

theorem State.Tracks.concat {a b : State} {past : List Entry} (h : a.Tracks past) {e : Entry}
    (hnow : ∀ f ∈ past, f.now ≤ e.now)
    (hchange : b.last_change = some e.now ∨ b.last_change = a.last_change ∧ e.decision = none)
    (hup : b.last_up = some e.now ∨ b.last_up = a.last_up ∧ ¬e.Raises)
    (hbehind : b.last_behind = some e.now ∨ b.last_behind = a.last_behind ∧ ¬(e.c.counts = true ∧ e.c.behind = true))
    (hbelow : Holds Entry.Starved b b.below_since (past ++ [e]))
    (habove : Holds Entry.Spare b b.above_since (past ++ [e])) (hrecent : ∀ x ∈ b.recent, 0 ≤ x)
    (hhold : upAfterS ≤ b.up_hold_s) : b.Tracks (past ++ [e]) := by
  refine ⟨h.changes.concat hnow ?_, h.ups.concat hnow hup, h.behinds.concat hnow hbehind, hbelow, habove, hrecent,
    hhold⟩
  exact hchange.imp_right fun ⟨hsame, hnone⟩ => ⟨hsame, by simp [hnone]⟩

/-- What a step decides, and when. -/
structure Entry.Sound (past : List Entry) (e : Entry) : Prop where
  apart : e.decision.isSome = true → ∀ f ∈ past, f.decision.isSome = true → changeEveryS ≤ e.now - f.now
  reason : ∀ d, e.decision = some d → d.scale ∈ steps e.c.office ∧ (d.scale < e.c.current ∧
        (∃ t, downAfterS ≤ e.now - t ∧ Lasted Entry.now (Under Entry.Starved e.c.office e.c.current) t (past ++ [e])) ∨
      (e.c.current < d.scale ∧ ∀ p ∈ steps e.c.office, e.c.current < p → d.scale ≤ p) ∧
        ∃ t, e.after.up_hold_s ≤ e.now - t ∧
          Lasted Entry.now (Under Entry.Spare e.c.office e.c.current) t (past ++ [e]))
  doubles : ∀ d, e.decision = some d → d.scale < e.c.current →
    ∀ f ∈ past, f.Raises → e.now - f.now < flapS → e.after.up_hold_s = min (e.before.up_hold_s * 2) upAfterMaxS
  calm : e.after.up_hold_s = upAfterS → e.before.up_hold_s ≠ upAfterS →
    ∀ f ∈ past ++ [e], f.c.counts = true → f.c.behind = true → calmS ≤ e.now - f.now

theorem smallest_mem_steps (office : Bool) : smallest office ∈ steps office := by cases office <;> decide

theorem State.lower_spec {a : State} {c : Call} (hsmallest : smallest c.office < c.current) :
    a.lower c ∈ steps c.office ∧ a.lower c < c.current := by
  unfold State.lower
  cases hfind : ((steps c.office).filter (· < c.current)).find?
      fun p => downBpp c.office * (13 / 10) ≤ a.bppAt c p with
  | none => exact ⟨smallest_mem_steps _, hsmallest⟩
  | some p => simpa using List.mem_filter.mp (List.mem_of_find?_eq_some hfind)

theorem higher_spec {c : Call} {next : ℕ} (h : higher c = some next) :
    next ∈ steps c.office ∧ c.current < next ∧ ∀ p ∈ steps c.office, c.current < p → next ≤ p := by
  obtain ⟨hmem, hmin⟩ := List.min?_eq_some_iff.mp h
  obtain ⟨hstep, hlt⟩ := List.mem_filter.mp hmem
  exact ⟨hstep, by simpa using hlt, fun p hp hcp => hmin p (List.mem_filter.mpr ⟨hp, by simpa using hcp⟩)⟩

theorem State.arrived_nonneg {a : State} (h : ∀ x ∈ a.recent, 0 ≤ x) : 0 ≤ a.arrived :=
  div_nonneg (List.sum_nonneg h) (Nat.cast_nonneg _)

theorem State.budget_nonneg {a : State} (h : ∀ x ∈ a.recent, 0 ≤ x) (c : Call) : 0 ≤ a.budget c := by
  have harrived := State.arrived_nonneg h
  unfold State.budget
  dsimp only
  split_ifs with hbehind htarget htarget
  · exact le_min htarget.le harrived
  · exact le_min harrived harrived
  · exact htarget.le
  · exact harrived

theorem State.bppAt_nonneg {a : State} (h : ∀ x ∈ a.recent, 0 ≤ x) (c : Call) (scale : ℕ) : 0 ≤ a.bppAt c scale := by
  have hbudget := State.budget_nonneg h c
  have hfps : (0 : ℚ) ≤ if 1 ≤ c.s.fps then min c.s.fps 60 else 60 := by
    split_ifs with hfps
    · exact le_min (by linarith) (by norm_num)
    · norm_num
  unfold State.bppAt
  positivity

theorem State.room_le_one (a : State) (c : Call) : a.room c ≤ 1 := by
  unfold State.room
  cases a.ceiling with
  | none => exact le_refl 1
  | some p =>
    have hpos : 0 < max (a.budget c) 1 := lt_max_of_lt_right one_pos
    rw [div_le_one hpos]
    exact (min_le_left _ _).trans (le_max_left _ _)

theorem State.plenty_spec {a : State} (h : ∀ x ∈ a.recent, 0 ≤ x) {c : Call} {next : ℕ}
    (hplenty : a.plenty c next = true) : upBpp c.office ≤ a.bppAt c next := by
  rw [State.plenty, decide_eq_true_eq] at hplenty
  exact hplenty.trans (mul_le_of_le_one_right (State.bppAt_nonneg h c next) (a.room_le_one c))

theorem State.changedOk_spec {a : State} {now : ℚ} (h : a.changedOk now = true) {s : ℚ}
    (hs : a.last_change = some s) : changeEveryS ≤ now - s := by
  rw [State.changedOk, hs] at h
  simpa using h

theorem State.settled_spec {a : State} {now : ℚ} (h : ¬a.settling now = true) {s : ℚ}
    (hs : a.last_change = some s) : settleS ≤ now - s := by
  rw [State.settling, hs] at h
  simpa using h

theorem State.takenBack_keeps (a : State) (now : ℚ) :
    (a.takenBack now).last_up = a.last_up ∧ (a.takenBack now).last_behind = a.last_behind ∧
      (a.takenBack now).recent = a.recent ∧ (a.takenBack now).office = a.office ∧
      ((a.takenBack now).up_hold_s = a.up_hold_s ∨ (a.takenBack now).up_hold_s = min (a.up_hold_s * 2) upAfterMaxS) ∧
      ∀ t, a.last_up = some t → now - t < flapS → (a.takenBack now).up_hold_s = min (a.up_hold_s * 2) upAfterMaxS := by
  unfold State.takenBack
  split_ifs with hflap
  · exact ⟨rfl, rfl, rfl, rfl, .inr rfl, fun _ _ _ => rfl⟩
  · refine ⟨rfl, rfl, rfl, rfl, .inl rfl, fun t ht hlt => absurd ?_ hflap⟩
    simpa [ht] using hlt

/-! ## A step -/

def State.entry (a : State) (c : Call) : Entry := ⟨c, a, (a.step c).2, (a.step c).1⟩

theorem State.Tracks.heard {a : State} {past : List Entry} (h : a.Tracks past) {c : Call}
    (hnow : ∀ f ∈ past, f.now ≤ c.s.now_s) :
    Latest Entry.now (fun e => e.c.counts = true ∧ e.c.behind = true) ((a.watch c).heard c).last_behind
        (past ++ [a.entry c]) ∧
      (∀ x ∈ ((a.watch c).heard c).recent, 0 ≤ x) ∧ upAfterS ≤ ((a.watch c).heard c).up_hold_s ∧
      (((a.watch c).heard c).up_hold_s = a.up_hold_s ∨ ((a.watch c).heard c).up_hold_s = upAfterS ∧
          ∀ f ∈ past ++ [a.entry c], f.c.counts = true → f.c.behind = true → calmS ≤ c.s.now_s - f.now) := by
  have hw := h.watch c
  have hhold := (a.watch_keeps c).2.2.2
  have hnow' : ∀ f ∈ past, f.now ≤ (a.entry c).now := hnow
  refine ⟨?_, State.nonneg_recent_heard hw.recent, ?_, ?_⟩
  · by_cases hbehind : c.behind = true
    · exact hw.behinds.concat hnow' (.inl (State.heard_behind hbehind).1)
    · exact hw.behinds.concat hnow' (.inr ⟨(State.heard_not_behind hbehind).1, fun hh => hbehind hh.2⟩)
  · by_cases hbehind : c.behind = true
    · rw [(State.heard_behind hbehind).2]
      exact hw.hold
    · rcases (State.heard_not_behind (a := a.watch c) hbehind).2 with hsame | ⟨hreset, -⟩
      · rw [hsame]
        exact hw.hold
      · rw [hreset]
  · by_cases hbehind : c.behind = true
    · exact .inl ((State.heard_behind hbehind).2.trans hhold)
    · refine (State.heard_not_behind hbehind).2.imp (·.trans hhold) fun ⟨hreset, hcalm⟩ => ⟨hreset, ?_⟩
      intro f hf hcounts hfbehind
      rcases List.mem_append.mp hf with hf | hf
      · obtain ⟨t, ht, hle⟩ := hw.behinds f hf ⟨hcounts, hfbehind⟩
        have := hcalm t ht
        linarith
      · obtain rfl := List.mem_singleton.mp hf
        exact absurd hfbehind hbehind

theorem Entry.sound_of_none {past : List Entry} {e : Entry} (hnone : e.decision = none)
    (hhold : e.after.up_hold_s = e.before.up_hold_s ∨
      ∀ f ∈ past ++ [e], f.c.counts = true → f.c.behind = true → calmS ≤ e.now - f.now) : e.Sound past where
  apart h := by simp [hnone] at h
  reason d h := by simp [hnone] at h
  doubles d h := by simp [hnone] at h
  calm h10 hne := hhold.resolve_left fun hsame => hne (hsame ▸ h10)

/-- What is kept before a sample that counts is judged, its own evidence included. -/
structure State.Judging (g : State) (past : List Entry) (e : Entry) : Prop where
  office : g.office = some e.c.office
  current : g.current = e.c.current
  changes : Latest Entry.now (fun f => f.decision.isSome = true) g.last_change past
  ups : Latest Entry.now Entry.Raises g.last_up past
  behinds : Latest Entry.now (fun f => f.c.counts = true ∧ f.c.behind = true) g.last_behind (past ++ [e])
  below : Holds Entry.Starved g g.below_since past
  above : Holds Entry.Spare g g.above_since past
  recent : ∀ x ∈ g.recent, 0 ≤ x
  hold : upAfterS ≤ g.up_hold_s
  reset : g.up_hold_s = e.before.up_hold_s ∨ g.up_hold_s = upAfterS ∧
    ∀ f ∈ past ++ [e], f.c.counts = true → f.c.behind = true → calmS ≤ e.now - f.now
  nowLast : ∀ f ∈ past, f.now ≤ e.now

theorem State.Tracks.judging {a : State} {past : List Entry} (h : a.Tracks past) {c : Call}
    (hnow : ∀ f ∈ past, f.now ≤ c.s.now_s) : ((a.watch c).heard c).Judging past (a.entry c) := by
  have hw := h.watch c
  have hmode := a.watch_current c
  obtain ⟨hbehinds, hrecent, hhold, hreset⟩ := h.heard hnow
  obtain ⟨hoffice, hcurrent, hbelow, habove, hchange, hup⟩ := (a.watch c).heard_keeps c
  exact {
    office := hoffice.trans hmode.1
    current := hcurrent.trans hmode.2
    changes := hchange ▸ hw.changes
    ups := hup ▸ hw.ups
    behinds := hbehinds
    below := hbelow ▸ hw.below.congr hoffice hcurrent hchange
    above := habove ▸ hw.above.congr hoffice hcurrent hchange
    recent := hrecent
    hold := hhold
    reset := hreset
    nowLast := hnow }

theorem State.Judging.quiet {g b : State} {past : List Entry} {e : Entry} (h : g.Judging past e)
    (hb : b = { g with below_since := b.below_since, above_since := b.above_since, ceiling := b.ceiling })
    (hdecision : e.decision = none) (hafter : e.after = b)
    (hbelow : Holds Entry.Starved g b.below_since (past ++ [e]))
    (habove : Holds Entry.Spare g b.above_since (past ++ [e])) :
    b.Tracks (past ++ [e]) ∧ e.Sound past := by
  have hoffice : b.office = g.office := by rw [hb]
  have hcurrent : b.current = g.current := by rw [hb]
  have hchange : b.last_change = g.last_change := by rw [hb]
  have hup : b.last_up = g.last_up := by rw [hb]
  have hbehind : b.last_behind = g.last_behind := by rw [hb]
  have hrecent : b.recent = g.recent := by rw [hb]
  have hhold : b.up_hold_s = g.up_hold_s := by rw [hb]
  constructor
  · exact {
      changes := h.changes.concat h.nowLast (.inr ⟨hchange, by simp [hdecision]⟩)
      ups := h.ups.concat h.nowLast (.inr ⟨hup, by simp [Entry.Raises, hdecision]⟩)
      behinds := hbehind ▸ h.behinds
      below := hbelow.congr hoffice hcurrent hchange
      above := habove.congr hoffice hcurrent hchange
      recent := hrecent ▸ h.recent
      hold := hhold ▸ h.hold }
  · refine Entry.sound_of_none hdecision ?_
    rw [hafter, hhold]
    exact h.reset.imp_right (·.2)

theorem State.Judging.decided {g b : State} {past : List Entry} {e : Entry} (h : g.Judging past e)
    (hbehind : b.last_behind = g.last_behind) (hrecent : b.recent = g.recent) (hhold : upAfterS ≤ b.up_hold_s)
    (hup : b.last_up = some e.now ∨ b.last_up = g.last_up ∧ ¬e.Raises) (hchange : b.last_change = some e.now)
    (hbelow : b.below_since = none) (habove : b.above_since = none) : b.Tracks (past ++ [e]) where
  changes := h.changes.concat h.nowLast (.inl hchange)
  ups := h.ups.concat h.nowLast hup
  behinds := hbehind ▸ h.behinds
  below := hbelow ▸ holds_none _ _ _
  above := habove ▸ holds_none _ _ _
  recent := hrecent ▸ h.recent
  hold := hhold

theorem State.Judging.apart {g : State} {past : List Entry} {e : Entry} (h : g.Judging past e)
    (hok : g.changedOk e.now = true) : ∀ f ∈ past, f.decision.isSome = true → changeEveryS ≤ e.now - f.now := by
  intro f hf hdecided
  obtain ⟨t, ht, hle⟩ := h.changes f hf hdecided
  have := State.changedOk_spec hok ht
  linarith

theorem State.Judging.lasted {g : State} {past : List Entry} {e : Entry} (h : g.Judging past e)
    (hsettled : ¬g.settling e.now = true) {Q : Entry → Prop} {since : Option ℚ} (hsince : Holds Q g since past)
    (hQ : Q e) : Holds Q g (some (since.getD e.now)) (past ++ [e]) ∧
      Lasted Entry.now (Under Q e.c.office e.c.current) (since.getD e.now) (past ++ [e]) := by
  have hnext := hsince.next h.office h.current hQ fun s hs => State.settled_spec hsettled hs
  obtain ⟨⟨office, hoffice, hlasted⟩, -⟩ := hnext _ rfl
  rw [h.office, Option.some.injEq] at hoffice
  rw [← hoffice, h.current] at hlasted
  exact ⟨hnext, hlasted⟩

theorem State.Judging.hold_eq {g : State} {past : List Entry} {e : Entry} (h : g.Judging past e)
    (hcounts : e.c.counts = true) (hbehind : e.c.behind = true) : g.up_hold_s = e.before.up_hold_s := by
  refine h.reset.resolve_right fun ⟨_, hcalm⟩ => ?_
  have := hcalm e (by simp) hcounts hbehind
  rw [sub_self, calmS] at this
  norm_num at this

theorem State.Judging.lowers {g : State} {past : List Entry} {e : Entry} (h : g.Judging past e) (hjudged : e.judged = g)
    (hcounts : e.c.counts = true) (hsettled : ¬g.settling e.now = true) (hbehind : e.c.behind = true)
    (hshort : g.bppAt e.c e.c.current < downBpp e.c.office) (hsmallest : smallest e.c.office < e.c.current)
    (hlong : downAfterS ≤ e.now - g.below_since.getD e.now) (hok : g.changedOk e.now = true) {b : State}
    (hb : b = { g with below_since := some (g.below_since.getD e.now) })
    (heq : (e.after, e.decision) = ((b.takenBack e.now).changed e.c (g.lower e.c)).map id some) :
    e.after.Tracks (past ++ [e]) ∧ e.Sound past := by
  obtain ⟨hup, hlast, hrecent, -, hhold, hdoubles⟩ := b.takenBack_keeps e.now
  have hholdb : b.up_hold_s = g.up_hold_s := by rw [hb]
  have hupb : b.last_up = g.last_up := by rw [hb]
  rw [hholdb] at hhold hdoubles
  rw [hupb] at hdoubles
  obtain ⟨hafter, hdecision⟩ := Prod.mk.inj heq
  obtain ⟨hmem, hlower⟩ := State.lower_spec (a := g) hsmallest
  have hafterHold : e.after.up_hold_s = (b.takenBack e.now).up_hold_s := by rw [hafter]; rfl
  -- The hold is at its least ten seconds, so doubled it is not that.
  have hten : upAfterS ≤ e.after.up_hold_s ∧ (e.after.up_hold_s = upAfterS → g.up_hold_s = upAfterS) := by
    have hg := h.hold
    rw [hafterHold]
    rcases hhold with hsame | hdoubled
    · rw [hsame]
      exact ⟨hg, id⟩
    · rw [hdoubled]
      have htwice : upAfterS < min (g.up_hold_s * 2) upAfterMaxS := by
        unfold upAfterS at hg ⊢
        unfold upAfterMaxS
        exact lt_min (by linarith) (by norm_num)
      exact ⟨htwice.le, fun h10 => absurd h10 htwice.ne'⟩
  constructor
  · refine h.decided ?_ ?_ hten.1 (.inr ⟨?_, ?_⟩) ?_ ?_ ?_
    · rw [hafter]
      exact hlast.trans (by rw [hb])
    · rw [hafter]
      exact hrecent.trans (by rw [hb])
    · rw [hafter]
      exact hup.trans hupb
    · rintro ⟨d, hd, hraise⟩
      rw [hdecision] at hd
      obtain rfl := Option.some.inj hd
      exact absurd hlower (Nat.lt_asymm hraise)
    · rw [hafter]; rfl
    · rw [hafter]; rfl
    · rw [hafter]; rfl
  · constructor
    case apart => exact fun _ => h.apart hok
    case reason =>
      intro d hd
      rw [hdecision] at hd
      obtain rfl := Option.some.inj hd
      exact ⟨hmem, .inl ⟨hlower, _, hlong, (h.lasted hsettled h.below ⟨hbehind, hjudged ▸ hshort⟩).2⟩⟩
    case doubles =>
      intro d _ _ f hf hraised hflap
      obtain ⟨t, ht, hle⟩ := h.ups f hf hraised
      rw [hafterHold, hdoubles t ht (by linarith), h.hold_eq hcounts hbehind]
    case calm =>
      intro h10 hne
      exact absurd ((h.hold_eq hcounts hbehind).symm.trans (hten.2 h10)) hne

theorem State.Judging.raises {g : State} {past : List Entry} {e : Entry} (h : g.Judging past e) (hjudged : e.judged = g)
    (hsettled : ¬g.settling e.now = true) {next : ℕ} (hnext : higher e.c = some next) (hbehind : e.c.behind = false)
    (hplenty : upBpp e.c.office ≤ g.bppAt e.c next) (hlong : g.up_hold_s ≤ e.now - g.above_since.getD e.now)
    (hok : g.changedOk e.now = true) {b : State}
    (hb : b = { g with
      below_since := b.below_since, above_since := b.above_since, ceiling := b.ceiling, last_up := some e.now })
    (heq : (e.after, e.decision) = (b.changed e.c next).map id some) :
    e.after.Tracks (past ++ [e]) ∧ e.Sound past := by
  obtain ⟨hafter, hdecision⟩ := Prod.mk.inj heq
  obtain ⟨hmem, hlt, hleast⟩ := higher_spec hnext
  have hhold : e.after.up_hold_s = g.up_hold_s := by
    rw [hafter]
    change b.up_hold_s = g.up_hold_s
    rw [hb]
  constructor
  · refine h.decided ?_ ?_ (hhold ▸ h.hold) (.inl ?_) ?_ ?_ ?_
    · rw [hafter]
      change b.last_behind = g.last_behind
      rw [hb]
    · rw [hafter]
      change b.recent = g.recent
      rw [hb]
    · rw [hafter]
      change b.last_up = some e.now
      rw [hb]
    · rw [hafter]; rfl
    · rw [hafter]; rfl
    · rw [hafter]; rfl
  · constructor
    case apart => exact fun _ => h.apart hok
    case reason =>
      intro d hd
      rw [hdecision] at hd
      obtain rfl := Option.some.inj hd
      refine ⟨hmem, .inr ⟨⟨hlt, hleast⟩, _, hhold ▸ hlong, ?_⟩⟩
      exact (h.lasted hsettled h.above ⟨hbehind, next, hnext, hjudged ▸ hplenty⟩).2
    case doubles =>
      intro d hd hlower
      rw [hdecision] at hd
      obtain rfl := Option.some.inj hd
      exact absurd hlower (Nat.lt_asymm hlt)
    case calm =>
      intro h10 hne
      rw [hhold] at h10
      exact (h.reset.resolve_left fun hsame => hne (hsame ▸ h10)).2

theorem State.Judging.judge {g : State} {past : List Entry} {e : Entry} (h : g.Judging past e) (hjudged : e.judged = g)
    (hcounts : e.c.counts = true) (hsettled : ¬g.settling e.now = true)
    (heq : (e.after, e.decision) = if (g.down e.c).2.isSome then g.down e.c else (g.down e.c).1.up e.c) :
    e.after.Tracks (past ++ [e]) ∧ e.Sound past := by
  -- No step down: its streak goes on or ends, and the step up is looked at.
  have hup : ∀ since, g.down e.c = ({ g with below_since := since }, none) →
      Holds Entry.Starved g since (past ++ [e]) → e.after.Tracks (past ++ [e]) ∧ e.Sound past := by
    intro since hdown hbelow
    rw [hdown, Option.isSome_none, if_neg (by decide)] at heq
    have hcases := State.up_cases { g with below_since := since } e.c
    have hbg := State.uncapped_keeps { g with below_since := since } e.c.s.now_s
    dsimp only at hcases
    generalize State.uncapped { g with below_since := since } e.c.s.now_s = b at hcases hbg
    have hspare : ∀ next, b.plenty e.c next = true → upBpp e.c.office ≤ g.bppAt e.c next := by
      intro next hplenty
      have hrecent : b.recent = g.recent := by rw [hbg]
      have hbpp : b.bppAt e.c next = g.bppAt e.c next := by rw [hbg]; rfl
      rw [← hbpp]
      exact State.plenty_spec (hrecent ▸ h.recent) hplenty
    have habove : b.above_since = g.above_since := by rw [hbg]
    have hhold : b.up_hold_s = g.up_hold_s := by rw [hbg]
    have hchanged : b.changedOk e.now = g.changedOk e.now := by rw [hbg]; rfl
    rcases hcases with ⟨next, hnext, hkeeps, hplenty, hlong, hok, htaken⟩ | ⟨next, hnext, hkeeps, hplenty, hwait⟩ | hend
    · rw [htaken] at heq
      change b.up_hold_s ≤ e.now - b.above_since.getD e.now at hlong
      rw [hhold, habove] at hlong
      refine h.raises hjudged hsettled hnext hkeeps (hspare next hplenty) hlong (hchanged ▸ hok) ?_ heq
      rw [hbg]
      rfl
    · rw [hwait] at heq
      obtain ⟨hafter, hdecision⟩ := Prod.mk.inj heq
      rw [hafter]
      refine h.quiet ?_ hdecision hafter ?_ ?_
      · rw [hbg]
      · change Holds Entry.Starved g b.below_since _
        rw [hbg]
        exact hbelow
      · change Holds Entry.Spare g (some (b.above_since.getD e.now)) _
        rw [habove]
        exact (h.lasted hsettled h.above ⟨hkeeps, next, hnext, hjudged ▸ hspare next hplenty⟩).1
    · rw [hend] at heq
      obtain ⟨hafter, hdecision⟩ := Prod.mk.inj heq
      rw [hafter]
      refine h.quiet ?_ hdecision hafter ?_ (holds_none _ _ _)
      · rw [hbg]
      · change Holds Entry.Starved g b.below_since _
        rw [hbg]
        exact hbelow
  rcases g.down_cases e.c with ⟨hbehind, hshort, hsmallest, hlong, hok, htaken⟩ | ⟨hbehind, hshort, hwait⟩ | hend
  · rw [htaken] at heq
    exact h.lowers hjudged hcounts hsettled hbehind hshort hsmallest hlong hok rfl heq
  · exact hup _ hwait (h.lasted hsettled h.below ⟨hbehind, hjudged ▸ hshort⟩).1
  · exact hup _ hend (holds_none _ _ _)

theorem State.Tracks.step {a : State} {past : List Entry} (h : a.Tracks past) {c : Call}
    (hnow : ∀ f ∈ past, f.now ≤ c.s.now_s) :
    (a.step c).1.Tracks (past ++ [a.entry c]) ∧ (a.entry c).Sound past := by
  have hmode := a.watch_current c
  have hw := h.watch c
  have hjudging := h.judging hnow
  have heq : ((a.entry c).after, (a.entry c).decision) = a.step c := rfl
  change (a.entry c).after.Tracks _ ∧ _
  unfold State.step at heq
  dsimp only at heq
  split_ifs at heq with hcounts hsettling hdown
  · -- Settling: no streak is under way, and none begins.
    obtain ⟨hafter, hdecision⟩ := Prod.mk.inj heq
    rw [hafter]
    refine hjudging.quiet rfl hdecision hafter ?_ ?_
    · rw [hjudging.below.eq_none hnow hsettling]
      exact holds_none _ _ _
    · rw [hjudging.above.eq_none hnow hsettling]
      exact holds_none _ _ _
  · exact hjudging.judge rfl hcounts hsettling (heq.trans (if_pos hdown).symm)
  · exact hjudging.judge rfl hcounts hsettling (heq.trans (if_neg hdown).symm)
  · obtain ⟨hafter, hdecision⟩ := Prod.mk.inj heq
    rw [hafter]
    constructor
    · refine hw.concat hnow (.inr ⟨rfl, hdecision⟩) (.inr ⟨rfl, by simp [Entry.Raises, hdecision]⟩)
        (.inr ⟨rfl, fun hh => hcounts hh.1⟩) ?_ ?_ hw.recent hw.hold
      · exact hw.below.skip hmode.1 hmode.2 hcounts
      · exact hw.above.skip hmode.1 hmode.2 hcounts
    · refine Entry.sound_of_none hdecision (.inl ?_)
      rw [hafter]
      exact (a.watch_keeps c).2.2.2

/-- What holds after every run with times that do not go back. -/
structure World.Inv (w : World) : Prop where
  tracks : w.res.Tracks w.past
  sound : ∀ pre e post, w.past = pre ++ e :: post → e.Sound pre

theorem World.Inv.step {w : World} (h : w.Inv) {c : Call} (hnow : ∀ e ∈ w.past, e.now ≤ c.s.now_s) :
    (w.step c).Inv := by
  obtain ⟨htracks, hsound⟩ := h.tracks.step hnow
  refine ⟨htracks, fun pre e post hsplit => ?_⟩
  change w.past ++ [w.res.entry c] = pre ++ e :: post at hsplit
  rcases List.eq_nil_or_concat post with rfl | ⟨post, last, rfl⟩
  · obtain ⟨rfl, he⟩ := List.append_inj' hsplit rfl
    obtain rfl := List.singleton_inj.mp he
    exact hsound
  · rw [List.concat_eq_append, ← List.cons_append, ← List.append_assoc] at hsplit
    exact h.sound pre e post (List.append_inj' hsplit rfl).1

theorem World.after_concat (cs : List Call) (c : Call) : World.after (cs ++ [c]) = (World.after cs).step c :=
  run_concat World.step {} cs c

theorem World.calls_after (cs : List Call) : (World.after cs).past.map Entry.c = cs := by
  induction cs using List.reverseRecOn with
  | nil => rfl
  | append_singleton cs c ih =>
    rw [World.after_concat]
    change ((World.after cs).past ++ [_]).map Entry.c = _
    rw [List.map_append, ih]
    rfl

/-- Every decision of every run whose times do not go back keeps the promises, at whatever scales and in whatever modes. -/
theorem autores_promises (cs : List Call) (htimes : cs.Pairwise fun c d => c.s.now_s ≤ d.s.now_s)
    (pre : List Entry) (e : Entry) (post : List Entry) (hpast : (World.after cs).past = pre ++ e :: post) :
    e.Sound pre := by
  suffices h : (World.after cs).Inv from h.sound pre e post hpast
  clear hpast
  induction cs using List.reverseRecOn with
  | nil => exact ⟨State.tracks_nil, fun pre e post h => by simp [World.after] at h⟩
  | append_singleton cs c ih =>
    obtain ⟨hcs, -, hlast⟩ := List.pairwise_append.mp htimes
    rw [World.after_concat]
    refine (ih hcs).step fun f hf => ?_
    have hmem : f.c ∈ cs := World.calls_after cs ▸ List.mem_map_of_mem hf
    exact hlast f.c hmem c (List.mem_singleton_self c)

def second (now latency shown : ℚ) (scale : ℕ) : Call :=
  ⟨⟨now, 1000000, 60000000, latency, 20, 60, shown, 3000 * scale / 100, 2120 * scale / 100⟩, scale, false⟩

/-- Ten seconds clear at half size: the second call raises the scale. -/
theorem autores_promises_raise : ∃ pre e, (World.after [second 0 20 30 50, second 10 20 30 50]).past = pre ++ [e] ∧
      e.decision.map Decision.scale = some 75 ∧ e.Sound pre := by
  refine ⟨_, _, rfl, by decide +kernel, ?_⟩
  refine autores_promises [second 0 20 30 50, second 10 20 30 50] ?_ _ _ [] rfl
  simp [second]

/-- A raise at 10 s, taken back at 20 s, which doubles the hold. -/
theorem hold_reset_after_behind :
    let w := World.after [second 0 20 30 50, second 10 20 30 50, second 17 3000 30 75, second 20 3000 30 75,
      second 200 3000 0 50, second 320 20 30 50]
    (w.past.map fun e => (e.now, e.c.behind, e.after.up_hold_s)) =
      [(0, false, 10), (10, false, 10), (17, true, 10), (20, true, 20), (200, true, 20), (320, false, 10)] := by
  decide +kernel

end Rdpio.Hyper.AutoRes
