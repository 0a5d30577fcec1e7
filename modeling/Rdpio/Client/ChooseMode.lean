import Mathlib.Data.List.MinMax
import Mathlib.Data.Prod.Lex
import Mathlib.Data.Rat.Floor

/-!
# The monitor mode to stream at

`choose_mode` of `crates/rdp-client/src/hyper_host.rs`, its arithmetic taken over the rationals, where a size
over a side of no length is infinite as in floating point.
-/

namespace Rdpio.Client.ChooseMode

abbrev Mode := ℕ × ℕ × ℕ

def resOf (m : Mode) : ℕ × ℕ := (m.1, m.2.1)

def rank (target : ℕ) (fastest : Bool) (hz : ℕ) : ℕ ×ₗ Bool ×ₗ ℕ :=
  let r : ℚ := hz / target
  let even : Bool := target ≤ hz ∧ |(hz : ℚ) - round r * target| ≤ 2 / 100 * hz
  toLex (min hz target, toLex (even, if even && fastest then hz else 2^32 - 1 - hz))

def rates (modes : List Mode) (res : ℕ × ℕ) : List ℕ := (modes.filter fun m => resOf m = res).map fun m => m.2.2

def rate (modes : List Mode) (target : ℕ) (fastest : Bool) (res : ℕ × ℕ) : Option ℕ :=
  (rates modes res).reverse.argmax (rank target fastest)

def ratio (screen side : ℕ) : WithTop ℚ := if side = 0 then ⊤ else ((screen / side : ℚ) : WithTop ℚ)

def scaleOf (screen res : ℕ × ℕ) : WithTop ℚ := min (ratio screen.1 res.1) (ratio screen.2 res.2)

def fillOf (screen res : ℕ × ℕ) : ℕ :=
  -- No width and no height: not a number, which is cast to 0.
  match scaleOf screen res with
  | none => 0
  | some s => ⌊(res.1 * s) * (res.2 * s) / (screen.1 * screen.2) * 200 + 1 / 2⌋₊

def shown (screen res : ℕ × ℕ) : ℕ × WithTop ℚ := (fillOf screen res, scaleOf screen res)

def tolerance : ℚ := 1 + 1 / 10^9

def consider (modes : List Mode) (current screen : ℕ × ℕ) (target : ℕ) (fastest : Bool) (fps_here : ℕ)
    (best : (ℕ × ℕ) × (ℕ × WithTop ℚ)) (m : Mode) : (ℕ × ℕ) × (ℕ × WithTop ℚ) :=
  let res := resOf m
  let here := shown screen res
  if res = best.1 ∨ current.1 * current.2 < res.1 * res.2 ∨ (tolerance : WithTop ℚ) < here.2 then best
  else if (rate modes target fastest res).all fun hz => min hz target < fps_here then best
  else if best.2.1 < here.1 ∨ here.1 = best.2.1 ∧ best.2.2 < here.2 then (res, here)
  else best

def usable (client : Option (ℕ × ℕ)) : Option (ℕ × ℕ) := client.filter fun c => 320 ≤ c.1 ∧ 200 ≤ c.2

/-- A better rate at the resolution as it is. -/
def better (modes : List Mode) (current : Mode) (target : ℕ) (fastest : Bool) : Option ℕ :=
  (rate modes target fastest (resOf current)).filter fun hz => rank target fastest current.2.2 < rank target fastest hz

def keep (modes : List Mode) (current : Mode) (target : ℕ) (fastest : Bool) : Option Mode :=
  (better modes current target fastest).map fun hz => (current.1, current.2.1, hz)

def chooseOn (modes : List Mode) (current : Mode) (screen : ℕ × ℕ) (target : ℕ) (fastest : Bool) : Option Mode :=
  let res := resOf current
  let fps_here := min ((better modes current target fastest).getD current.2.2) target
  let best := modes.foldl (consider modes res screen target fastest fps_here) (res, shown screen res)
  if best.1 ≠ res then (rate modes target fastest best.1).map fun hz => (best.1.1, best.1.2, hz)
  else keep modes current target fastest

def chooseMode (modes : List Mode) (current : Mode) (client : Option (ℕ × ℕ)) (target : ℕ) (fastest : Bool) :
    Option Mode :=
  let target := max target 1
  (usable client).elim (keep modes current target fastest) fun screen => chooseOn modes current screen target fastest

example : chooseMode [(1920, 1080, 60), (1920, 1080, 240), (2560, 1440, 144)] (2560, 1440, 60) (some (1920, 1080)) 120
    true = some (1920, 1080, 240) := by decide +kernel

theorem mem_rates {modes : List Mode} {res : ℕ × ℕ} {hz : ℕ} : hz ∈ rates modes res ↔ (res.1, res.2, hz) ∈ modes := by
  rw [rates, List.mem_map]
  constructor
  · rintro ⟨m, hm, rfl⟩
    obtain ⟨hmem, hres⟩ := List.mem_filter.mp hm
    obtain rfl : resOf m = res := by simpa using hres
    exact hmem
  · intro hmem
    exact ⟨_, List.mem_filter.mpr ⟨hmem, by simp [resOf]⟩, rfl⟩

theorem mem_rates_resOf {modes : List Mode} {m : Mode} (hm : m ∈ modes) : m.2.2 ∈ rates modes (resOf m) :=
  mem_rates.mpr hm

theorem rate_spec {modes : List Mode} {target : ℕ} {fastest : Bool} {res : ℕ × ℕ} {hz : ℕ}
    (h : rate modes target fastest res = some hz) :
    hz ∈ rates modes res ∧ ∀ hz' ∈ rates modes res, rank target fastest hz' ≤ rank target fastest hz :=
  ⟨List.mem_reverse.mp (List.argmax_mem h), fun _ hz' => List.le_of_mem_argmax (List.mem_reverse.mpr hz') h⟩

theorem exists_rate {modes : List Mode} (target : ℕ) (fastest : Bool) {res : ℕ × ℕ} {hz : ℕ}
    (h : hz ∈ rates modes res) : ∃ best, rate modes target fastest res = some best := by
  refine Option.ne_none_iff_exists'.mp fun hnone => ?_
  rw [rate, List.argmax_eq_none, List.reverse_eq_nil_iff] at hnone
  rw [hnone] at h
  cases h

theorem min_le_of_rank_le {target : ℕ} {fastest : Bool} {a b : ℕ}
    (h : rank target fastest a ≤ rank target fastest b) : min a target ≤ min b target := by
  rcases Prod.Lex.le_iff.mp h with hlt | ⟨heq, -⟩
  · exact hlt.le
  · exact heq.le

/-- As many frames as any rate at the resolution as it is gives. -/
def Enough (modes : List Mode) (current : Mode) (target hz : ℕ) : Prop :=
  ∀ hz', hz' = current.2.2 ∨ hz' ∈ rates modes (resOf current) → min hz' target ≤ min hz target

theorem better_spec (modes : List Mode) (current : Mode) (target : ℕ) (fastest : Bool) :
    (∃ hz, better modes current target fastest = some hz ∧ rate modes target fastest (resOf current) = some hz ∧
        rank target fastest current.2.2 < rank target fastest hz) ∨
      better modes current target fastest = none ∧
        ∀ hz ∈ rates modes (resOf current), rank target fastest hz ≤ rank target fastest current.2.2 := by
  unfold better
  cases hrate : rate modes target fastest (resOf current) with
  | none =>
    refine .inr ⟨rfl, fun hz hmem => ?_⟩
    obtain ⟨best, hbest⟩ := exists_rate target fastest hmem
    rw [hrate] at hbest
    cases hbest
  | some hz =>
    rw [Option.filter_some]
    split_ifs with hlt
    · exact .inl ⟨hz, rfl, rfl, by simpa using hlt⟩
    · refine .inr ⟨rfl, fun hz' hmem => ((rate_spec hrate).2 hz' hmem).trans (not_lt.mp ?_)⟩
      simpa using hlt

theorem enough_iff (modes : List Mode) (current : Mode) (target : ℕ) (fastest : Bool) (hz : ℕ) :
    Enough modes current target hz ↔
      min ((better modes current target fastest).getD current.2.2) target ≤ min hz target := by
  rcases better_spec modes current target fastest with ⟨best, hbetter, hrate, hlt⟩ | ⟨hbetter, hall⟩
  · obtain ⟨hmem, hbest⟩ := rate_spec hrate
    rw [hbetter, Option.getD_some]
    refine ⟨fun h => h best (.inr hmem), fun h hz' hhz' => ?_⟩
    rcases hhz' with rfl | hhz'
    · exact (min_le_of_rank_le hlt.le).trans h
    · exact (min_le_of_rank_le (hbest hz' hhz')).trans h
  · rw [hbetter, Option.getD_none]
    refine ⟨fun h => h _ (.inl rfl), fun h hz' hhz' => ?_⟩
    rcases hhz' with rfl | hhz'
    · exact h
    · exact (min_le_of_rank_le (hall hz' hhz')).trans h

/-! ## The search -/

/-- A resolution the loop may take: not of more pixels, not enlarged, and fast enough. -/
def Candidate (modes : List Mode) (current screen : ℕ × ℕ) (target : ℕ) (fastest : Bool) (fps_here : ℕ)
    (res : ℕ × ℕ) : Prop :=
  res.1 * res.2 ≤ current.1 * current.2 ∧ scaleOf screen res ≤ (tolerance : WithTop ℚ) ∧
    ∃ hz, rate modes target fastest res = some hz ∧ fps_here ≤ min hz target

theorem consider_cases (modes : List Mode) (current screen : ℕ × ℕ) (target : ℕ) (fastest : Bool) (fps_here : ℕ)
    {best : (ℕ × ℕ) × (ℕ × WithTop ℚ)} (hbest : best.2 = shown screen best.1) (m : Mode) :
    consider modes current screen target fastest fps_here best m = best ∧
        (Candidate modes current screen target fastest fps_here (resOf m) →
          toLex (shown screen (resOf m)) ≤ toLex best.2) ∨
      consider modes current screen target fastest fps_here best m = (resOf m, shown screen (resOf m)) ∧
        Candidate modes current screen target fastest fps_here (resOf m) ∧
        toLex best.2 < toLex (shown screen (resOf m)) := by
  generalize hnext : consider modes current screen target fastest fps_here best m = next
  unfold consider at hnext
  dsimp only at hnext
  split_ifs at hnext with hskip hslow hshows
  · refine .inl ⟨hnext.symm, fun hc => ?_⟩
    rcases hskip with hsame | hlarge | henlarged
    · rw [hbest, hsame]
    · exact absurd hc.1 (not_le.mpr hlarge)
    · exact absurd hc.2.1 (not_le.mpr henlarged)
  · refine .inl ⟨hnext.symm, fun hc => ?_⟩
    obtain ⟨hz, hrate, hfast⟩ := hc.2.2
    rw [hrate, Option.all_some, decide_eq_true_eq] at hslow
    exact absurd hfast (not_le.mpr hslow)
  · refine .inr ⟨hnext.symm, ?_, ?_⟩
    · rw [not_or, not_or, not_lt, not_lt] at hskip
      refine ⟨hskip.2.1, hskip.2.2, ?_⟩
      cases hrate : rate modes target fastest (resOf m) with
      | none =>
        rw [hrate] at hslow
        exact absurd rfl hslow
      | some hz =>
        rw [hrate, Option.all_some, decide_eq_true_eq, not_lt] at hslow
        exact ⟨hz, rfl, hslow⟩
    · exact Prod.Lex.lt_iff.mpr (hshows.imp_right fun h => ⟨h.1.symm, h.2⟩)
  · refine .inl ⟨hnext.symm, fun _ => not_lt.mp fun hlt => hshows ?_⟩
    exact (Prod.Lex.lt_iff.mp hlt).imp_right fun h => ⟨h.1.symm, h.2⟩

structure Found (modes : List Mode) (current screen : ℕ × ℕ) (target : ℕ) (fastest : Bool) (fps_here : ℕ)
    (done : List Mode) (best : (ℕ × ℕ) × (ℕ × WithTop ℚ)) : Prop where
  shows : best.2 = shown screen best.1
  taken : best.1 = current ∨ Candidate modes current screen target fastest fps_here best.1
  seed : toLex (shown screen current) ≤ toLex best.2
  most : ∀ m ∈ done, Candidate modes current screen target fastest fps_here (resOf m) →
    toLex (shown screen (resOf m)) ≤ toLex best.2

theorem found_foldl (modes : List Mode) (current screen : ℕ × ℕ) (target : ℕ) (fastest : Bool) (fps_here : ℕ)
    (done : List Mode) : Found modes current screen target fastest fps_here done
      (done.foldl (consider modes current screen target fastest fps_here) (current, shown screen current)) := by
  induction done using List.reverseRecOn with
  | nil => exact ⟨rfl, .inl rfl, le_refl _, by simp⟩
  | append_singleton done m ih =>
    rw [List.foldl_append, List.foldl_cons, List.foldl_nil]
    generalize done.foldl _ _ = best at ih ⊢
    rcases consider_cases modes current screen target fastest fps_here ih.shows m with
      ⟨hsame, hno⟩ | ⟨hnew, hcandidate, hlt⟩
    · rw [hsame]
      refine ⟨ih.shows, ih.taken, ih.seed, fun m' hm' hc => ?_⟩
      rcases List.mem_append.mp hm' with hm' | hm'
      · exact ih.most m' hm' hc
      · obtain rfl := List.mem_singleton.mp hm'
        exact hno hc
    · rw [hnew]
      refine ⟨rfl, .inr hcandidate, ih.seed.trans hlt.le, fun m' hm' hc => ?_⟩
      rcases List.mem_append.mp hm' with hm' | hm'
      · exact (ih.most m' hm' hc).trans hlt.le
      · obtain rfl := List.mem_singleton.mp hm'
        exact le_refl _

theorem ratio_le_one {screen side : ℕ} (h : ratio screen side ≤ (tolerance : WithTop ℚ)) (hside : side < 10^9) :
    ratio screen side ≤ 1 := by
  unfold ratio at h ⊢
  split_ifs at h ⊢ with hzero
  · exact absurd h (not_le.mpr (WithTop.coe_lt_top _))
  · have hpos : (0 : ℚ) < side := by exact_mod_cast Nat.pos_of_ne_zero hzero
    have hle : (screen : ℚ) / side ≤ tolerance := WithTop.coe_le_coe.mp h
    rw [div_le_iff₀ hpos, tolerance] at hle
    have hshort : (side : ℚ) < 10^9 := by exact_mod_cast hside
    have hnext : (screen : ℚ) < side + 1 := by linarith
    have hscreen : screen ≤ side := Nat.lt_succ_iff.mp (by exact_mod_cast hnext)
    refine WithTop.coe_le_coe.mpr ?_
    rw [div_le_one hpos]
    exact_mod_cast hscreen

theorem scaleOf_le_one {screen res : ℕ × ℕ} (h : scaleOf screen res ≤ (tolerance : WithTop ℚ))
    (hw : res.1 < 10^9) (hh : res.2 < 10^9) : scaleOf screen res ≤ 1 :=
  min_le_iff.mpr ((min_le_iff.mp h).imp (ratio_le_one · hw) (ratio_le_one · hh))

structure Fits (modes : List Mode) (current : Mode) (target : ℕ) (screen : ℕ × ℕ) (m : Mode) : Prop where
  mem : m ∈ modes
  pixels : m.1 * m.2.1 ≤ current.1 * current.2.1
  scale : resOf m ≠ resOf current → scaleOf screen (resOf m) ≤ (tolerance : WithTop ℚ)
  frames : Enough modes current target m.2.2

theorem keep_spec {modes : List Mode} {current m : Mode} {target : ℕ} {fastest : Bool} (screen : ℕ × ℕ)
    (h : keep modes current target fastest = some m) :
    resOf m = resOf current ∧ Fits modes current target screen m ∧
      ∀ hz ∈ rates modes (resOf m), rank target fastest hz ≤ rank target fastest m.2.2 := by
  unfold keep at h
  rcases better_spec modes current target fastest with ⟨hz, hbetter, hrate, hlt⟩ | ⟨hnone, -⟩
  · rw [hbetter, Option.map_some, Option.some.injEq] at h
    subst h
    obtain ⟨hmem, hbest⟩ := rate_spec hrate
    refine ⟨rfl, ⟨mem_rates.mp hmem, le_refl _, fun hne => absurd rfl hne, ?_⟩, hbest⟩
    rw [enough_iff modes current target fastest, hbetter]
    exact le_refl _
  · rw [hnone] at h
    cases h

theorem Fits.candidate {modes : List Mode} {current m : Mode} {target : ℕ} {screen : ℕ × ℕ}
    (h : Fits modes current target screen m) (fastest : Bool) (hne : resOf m ≠ resOf current) :
    Candidate modes (resOf current) screen target fastest
      (min ((better modes current target fastest).getD current.2.2) target) (resOf m) := by
  obtain ⟨best, hbest⟩ := exists_rate target fastest (mem_rates_resOf h.mem)
  refine ⟨h.pixels, h.scale hne, best, hbest, ?_⟩
  exact ((enough_iff modes current target fastest _).mp h.frames).trans
    (min_le_of_rank_le ((rate_spec hbest).2 _ (mem_rates_resOf h.mem)))

theorem Candidate.spec {modes : List Mode} {current : Mode} {target : ℕ} {screen : ℕ × ℕ} {fastest : Bool} {res : ℕ × ℕ}
    (h : Candidate modes (resOf current) screen target fastest
      (min ((better modes current target fastest).getD current.2.2) target) res) {m : Mode}
    (hm : (rate modes target fastest res).map (fun hz => (res.1, res.2, hz)) = some m) :
    resOf m = res ∧ Fits modes current target screen m ∧
      ∀ hz ∈ rates modes (resOf m), rank target fastest hz ≤ rank target fastest m.2.2 := by
  obtain ⟨hpixels, hscale, hz, hrate, hfast⟩ := h
  rw [hrate, Option.map_some, Option.some.injEq] at hm
  subst hm
  obtain ⟨hmem, hbest⟩ := rate_spec hrate
  exact ⟨rfl, ⟨mem_rates.mp hmem, hpixels, fun _ => hscale, (enough_iff modes current target fastest hz).mpr hfast⟩,
    hbest⟩

theorem keep_none {modes : List Mode} {current : Mode} {target : ℕ} {fastest : Bool}
    (h : keep modes current target fastest = none) :
    ∀ hz ∈ rates modes (resOf current), rank target fastest hz ≤ rank target fastest current.2.2 := by
  rcases better_spec modes current target fastest with ⟨hz, hbetter, -, -⟩ | ⟨-, hall⟩
  · rw [keep, hbetter] at h
    cases h
  · exact hall

theorem chooseOn_spec (modes : List Mode) (current : Mode) (screen : ℕ × ℕ) (target : ℕ) (fastest : Bool) :
    (∀ m, chooseOn modes current screen target fastest = some m → Fits modes current target screen m ∧
      (∀ hz ∈ rates modes (resOf m), rank target fastest hz ≤ rank target fastest m.2.2) ∧
      toLex (shown screen (resOf current)) ≤ toLex (shown screen (resOf m)) ∧
      ∀ m', Fits modes current target screen m' → toLex (shown screen (resOf m')) ≤ toLex (shown screen (resOf m))) ∧
    (chooseOn modes current screen target fastest = none →
      (∀ hz ∈ rates modes (resOf current), rank target fastest hz ≤ rank target fastest current.2.2) ∧
      ∀ m', Fits modes current target screen m' →
        toLex (shown screen (resOf m')) ≤ toLex (shown screen (resOf current))) := by
  have hfound := found_foldl modes (resOf current) screen target fastest
    (min ((better modes current target fastest).getD current.2.2) target) modes
  unfold chooseOn
  dsimp only
  generalize modes.foldl _ _ = best at hfound ⊢
  -- No mode that fits shows better than what the loop has found.
  have hmost : ∀ m', Fits modes current target screen m' → toLex (shown screen (resOf m')) ≤ toLex best.2 := by
    intro m' hfits
    by_cases hres : resOf m' = resOf current
    · rw [hres]
      exact hfound.seed
    · exact hfound.most m' hfits.mem (hfits.candidate fastest hres)
  have hseed := hfound.seed
  rw [hfound.shows] at hmost hseed
  split_ifs with hmoved
  · have hcandidate := hfound.taken.resolve_left hmoved
    constructor
    · intro m hm
      obtain ⟨hres, hfits, hrank⟩ := hcandidate.spec hm
      rw [hres] at hrank ⊢
      exact ⟨hfits, hrank, hseed, hmost⟩
    · intro hnone
      obtain ⟨hz, hrate, -⟩ := hcandidate.2.2
      rw [hrate] at hnone
      cases hnone
  · rw [not_not] at hmoved
    rw [hmoved] at hmost hseed
    constructor
    · intro m hm
      obtain ⟨hres, hfits, hrank⟩ := keep_spec screen hm
      rw [hres] at hrank ⊢
      exact ⟨hfits, hrank, hseed, hmost⟩
    · exact fun hnone => ⟨keep_none hnone, hmost⟩

/-- A mode chosen is one of the list, of at most as many pixels as now, and gives as many frames as any rate at
the current resolution would; its rate is the highest-ranked one offered at its resolution. -/
theorem choose_mode_spec (modes : List Mode) (current : Mode) (client : Option (ℕ × ℕ)) (target : ℕ) (fastest : Bool) :
    let t := max target 1
    (∀ m, chooseMode modes current client target fastest = some m →
      m ∈ modes ∧ m.1 * m.2.1 ≤ current.1 * current.2.1 ∧ Enough modes current t m.2.2 ∧
      (∀ hz ∈ rates modes (resOf m), rank t fastest hz ≤ rank t fastest m.2.2) ∧
      (usable client = none → resOf m = resOf current) ∧
      ∀ screen, usable client = some screen →
        (resOf m ≠ resOf current → scaleOf screen (resOf m) ≤ (tolerance : WithTop ℚ) ∧
          (m.1 < 10^9 → m.2.1 < 10^9 → scaleOf screen (resOf m) ≤ 1)) ∧
        toLex (shown screen (resOf current)) ≤ toLex (shown screen (resOf m)) ∧
        ∀ m', Fits modes current t screen m' → toLex (shown screen (resOf m')) ≤ toLex (shown screen (resOf m))) ∧
    (chooseMode modes current client target fastest = none →
      (∀ hz ∈ rates modes (resOf current), rank t fastest hz ≤ rank t fastest current.2.2) ∧
      ∀ screen, usable client = some screen → ∀ m', Fits modes current t screen m' →
        toLex (shown screen (resOf m')) ≤ toLex (shown screen (resOf current))) := by
  intro t
  have hchoose : chooseMode modes current client target fastest =
      (usable client).elim (keep modes current t fastest) fun screen => chooseOn modes current screen t fastest := rfl
  rw [hchoose]
  cases husable : usable client with
  | none =>
    rw [Option.elim_none]
    refine ⟨fun m hm => ?_, fun hnone => ⟨keep_none hnone, fun screen h => by cases h⟩⟩
    obtain ⟨hres, hfits, hrank⟩ := keep_spec (0, 0) hm
    exact ⟨hfits.mem, hfits.pixels, hfits.frames, hrank, fun _ => hres, fun screen h => by cases h⟩
  | some screen =>
    rw [Option.elim_some]
    obtain ⟨hsome, hnone⟩ := chooseOn_spec modes current screen t fastest
    refine ⟨fun m hm => ?_, fun h => ⟨(hnone h).1, fun s hs => ?_⟩⟩
    · obtain ⟨hfits, hrank, hseed, hmost⟩ := hsome m hm
      refine ⟨hfits.mem, hfits.pixels, hfits.frames, hrank, (fun h => by cases h), fun s hs => ?_⟩
      obtain rfl := Option.some.inj hs
      exact ⟨fun hne => ⟨hfits.scale hne, scaleOf_le_one (hfits.scale hne)⟩, hseed, hmost⟩
    · obtain rfl := Option.some.inj hs
      exact (hnone h).2

/-- A screen of less than 320 by 200 is not gone by, though the monitor has its resolution. -/
theorem choose_mode_not_own : chooseMode [(300, 150, 60)] (640, 480, 60) (some (300, 150)) 60 true = none ∧
      toLex (shown (300, 150) (640, 480)) < toLex (shown (300, 150) (300, 150)) ∧
      chooseMode [(1920, 1078, 60), (1920, 1080, 60)] (3840, 2160, 60) (some (1920, 1080)) 60 true =
        some (1920, 1078, 60) := by
  decide +kernel

end Rdpio.Client.ChooseMode
