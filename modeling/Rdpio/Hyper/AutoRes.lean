import Mathlib.Tactic.NormNum
import Rdpio.Lib.Run

/-!
# Automatic stream resolution

`AutoRes` of `crates/rdp-hyper/src/autores.rs`, with its numbers taken over the rationals: the stream's size
as a share of the screen, a step down after seconds behind and short of bits, a step up after seconds clear.
-/

namespace Rdpio.Hyper.AutoRes

open Lib

/-- One second's numbers. -/
structure Sample where
  now_s : ℚ
  received_bps : ℚ
  target_bps : ℚ
  /-- Capture to screen, median. -/
  latency_ms : ℚ
  rtt_ms : ℚ
  fps : ℚ
  /-- Pictures shown that second: none, no evidence either way. -/
  shown_fps : ℚ
  width : ℕ
  height : ℕ

/-- A change to make. -/
structure Decision where
  scale : ℕ
  from_ : ℕ
  budget_bps : ℚ
  /-- At the new scale, and at the old. -/
  bpp : ℚ
  bpp_from : ℚ
  behind : Bool
deriving DecidableEq

def steps (office : Bool) : List ℕ := if office then [100, 75, 50, 33] else [100, 75, 50]

def smallest (office : Bool) : ℕ := if office then 33 else 50

def downBpp (office : Bool) : ℚ := if office then 12 / 1000 else 3 / 100

def upBpp (office : Bool) : ℚ := if office then 25 / 1000 else 6 / 100

def behindLatencyMs : ℚ := 250

def behindRttMs : ℚ := 500

def downAfterS : ℚ := 3

def upAfterS : ℚ := 10

def upAfterMaxS : ℚ := 160

def changeEveryS : ℚ := 10

def settleS : ℚ := 2

def flapS : ℚ := 30

def calmS : ℚ := 300

def ceilingRoom : ℚ := 5 / 4

def recentLen : ℕ := 5

structure State where
  office : Option Bool := none
  current : ℕ := 0
  below_since : Option ℚ := none
  above_since : Option ℚ := none
  last_change : Option ℚ := none
  last_up : Option ℚ := none
  last_behind : Option ℚ := none
  up_hold_s : ℚ := upAfterS
  recent : List ℚ := []
  /-- What arrived when an up last had to be taken back, and when. -/
  ceiling : Option (ℚ × ℚ) := none

/-- A second's call: its sample, the scale and the mode. -/
structure Call where
  s : Sample
  current : ℕ
  office : Bool

def Call.counts (c : Call) : Bool := 1 ≤ c.s.shown_fps ∧ c.s.width ≠ 0 ∧ c.s.height ≠ 0 ∧ c.current ≠ 0

def Call.behind (c : Call) : Bool := behindLatencyMs < c.s.latency_ms ∨ behindRttMs < c.s.rtt_ms

def State.watch (a : State) (c : Call) : State :=
  if a.office ≠ some c.office ∨ a.current ≠ c.current then
    { a with
      below_since := none
      above_since := none
      recent := if a.office ≠ some c.office then [] else a.recent
      office := some c.office
      current := c.current }
  else a

def State.heard (a : State) (c : Call) : State :=
  let pushed := a.recent ++ [max c.s.received_bps 0]
  let a := { a with recent := pushed.drop (pushed.length - recentLen) }
  if c.behind then { a with last_behind := some c.s.now_s }
  else if a.last_behind.all fun t => calmS ≤ c.s.now_s - t then { a with up_hold_s := upAfterS }
  else a

def State.arrived (a : State) : ℚ := a.recent.sum / a.recent.length

def State.budget (a : State) (c : Call) : ℚ :=
  let target := if 0 < c.s.target_bps then c.s.target_bps else a.arrived
  if c.behind then min target a.arrived else target

def State.bppAt (a : State) (c : Call) (scale : ℕ) : ℚ :=
  -- Past 60 fps each frame differs less from the last: counted as 60.
  let fps := if 1 ≤ c.s.fps then min c.s.fps 60 else 60
  let r : ℚ := scale / c.current
  a.budget c / (c.s.width * c.s.height * r * r * fps)

def State.short (a : State) (c : Call) : Bool := a.bppAt c c.current < downBpp c.office

def State.changedOk (a : State) (now : ℚ) : Bool := a.last_change.all fun t => changeEveryS ≤ now - t

def State.changed (a : State) (c : Call) (scale : ℕ) : State × Decision :=
  ({ a with last_change := some c.s.now_s, below_since := none, above_since := none, current := scale },
    ⟨scale, c.current, a.budget c, a.bppAt c scale, a.bppAt c c.current, c.behind⟩)

def State.lower (a : State) (c : Call) : ℕ :=
  (((steps c.office).filter (· < c.current)).find? fun p => downBpp c.office * (13 / 10) ≤ a.bppAt c p).getD
    (smallest c.office)

def State.takenBack (a : State) (now : ℚ) : State :=
  if a.last_up.any fun t => now - t < flapS then
    { a with up_hold_s := min (a.up_hold_s * 2) upAfterMaxS, ceiling := some (a.arrived, now) }
  else a

/-- Down: behind, and too few bits for this size. -/
def State.down (a : State) (c : Call) : State × Option Decision :=
  if c.behind ∧ smallest c.office < c.current ∧ a.short c then
    let since := a.below_since.getD c.s.now_s
    let a := { a with below_since := some since }
    if downAfterS ≤ c.s.now_s - since ∧ a.changedOk c.s.now_s then
      let d := (a.takenBack c.s.now_s).changed c (a.lower c)
      (d.1, some d.2)
    else (a, none)
  else ({ a with below_since := none }, none)

def State.room (a : State) (c : Call) : ℚ :=
  match a.ceiling with
  | some (bps, _) => min (a.budget c) (max bps a.arrived * ceilingRoom) / max (a.budget c) 1
  | none => 1

def higher (c : Call) : Option ℕ := ((steps c.office).filter (c.current < ·)).min?

def State.plenty (a : State) (c : Call) (scale : ℕ) : Bool := upBpp c.office ≤ a.bppAt c scale * a.room c

def State.uncapped (a : State) (now : ℚ) : State :=
  if a.ceiling.any fun p => calmS ≤ now - p.2 then { a with ceiling := none } else a

def State.up (a : State) (c : Call) : State × Option Decision :=
  let a := a.uncapped c.s.now_s
  match higher c with
  | some scale =>
    if ¬c.behind ∧ a.plenty c scale then
      let since := a.above_since.getD c.s.now_s
      let a := { a with above_since := some since }
      if a.up_hold_s ≤ c.s.now_s - since ∧ a.changedOk c.s.now_s then
        let d := { a with last_up := some c.s.now_s }.changed c scale
        (d.1, some d.2)
      else (a, none)
    else ({ a with above_since := none }, none)
  | none => ({ a with above_since := none }, none)

def State.settling (a : State) (now : ℚ) : Bool := a.last_change.any fun t => now - t < settleS

def State.step (a : State) (c : Call) : State × Option Decision :=
  let a := a.watch c
  if c.counts then
    let a := a.heard c
    if a.settling c.s.now_s then (a, none)
    else
      let d := a.down c
      if d.2.isSome then d else d.1.up c
  else (a, none)

end Rdpio.Hyper.AutoRes
