import Rdpio.Lib.Checked
import Mathlib.Algebra.GroupWithZero.Nat
import Mathlib.Algebra.Order.BigOperators.Group.List

/-!
# The jitter buffer

`Playout` of `crates/rdp-hyper/src/playout.rs`: audio is queued, played at a target depth, steered by playing
a little faster or slower, and cut where a backlog stands.
-/

namespace Rdpio.Hyper.Jitter

open Lib

def frames (ms : ℕ) : ℕ := ms * 48000 / 1000

def targetMs : ℕ := 30

def maxQueueMs : ℕ := 60

def slackMs : ℕ := 10

def windowMs : ℕ := 500

def skew : ℕ := 200

def spliceOverMs : ℕ := 30

def xfadeMs : ℕ := 5

def searchMs : ℕ := 5

def usizeMax : ℕ := 2^64 - 1

/-- What is computed from samples. -/
structure Dsp (α σ : Type) where
  /-- Silence. -/
  zero : α
  /-- The channels of a frame, mixed. -/
  sum : List α → α
  /-- How well the sound after a join matches the sound before. -/
  score : List α → List α → σ
  /-- Whether a score is better than the best so far. -/
  better : σ → σ → Bool
  /-- Sample `i` of a crossfade. -/
  fade : ℕ → α → α → α
  /-- Between `b` and `c`, at `r / n`. -/
  cubic : α → α → α → α → ℕ → ℕ → α

/-- The source's. -/
def Dsp.float32 : Dsp Float32 Float32 where
  zero := 0
  sum l := l.foldl (· + ·) 0
  score head b :=
    let (dot, energy) := (head.zip b).foldl (fun (d, e) (x, y) => (d + x * y, e + y * y)) (0, 0)
    dot / (energy.sqrt + 1e-6)
  better s best := s > best + 1e-4
  fade i old new :=
    let w := 0.5 - 0.5 * (3.14159274 * (Float32.ofNat i + 0.5) / Float32.ofNat (frames xfadeMs)).cos
    old * (1.0 - w) + new * w
  cubic a b c d r n :=
    let t := Float32.ofNat r / Float32.ofNat n
    b + 0.5 * t * (c - a + t * (2.0 * a - 5.0 * b + 4.0 * c - d + t * (3.0 * (b - c) + d - a)))

/-- What became of a frame that left the queue. -/
inductive Fate where
  | played
  /-- Interpolated, at a little more or less than its own speed. -/
  | resampled
  | cut
  /-- The backlog at the first start. -/
  | dropped
deriving DecidableEq

structure Playout (α : Type) where
  q : List α
  ch : ℕ
  primed : Bool
  /-- Lowest level (frames) at the start of a fill this window. -/
  low : ℕ
  /-- Frames played this window. -/
  played : ℕ
  /-- Frames still to play away or, below 0, to stretch in. -/
  pending : ℤ
  /-- Frames played toward the next corrected frame. -/
  budget : ℕ
  /-- The frame before the queue's front. -/
  prev : List α
  started : Bool
  /-- The low point held (frames). -/
  target : ℕ
  /-- Times playback ran dry. -/
  underruns : ℕ
  catchup : Bool
  /-- Backlog cut out so far (frames). -/
  cut : ℕ
  /-- The frames that left the queue, oldest first. -/
  left : List (Fate × ℕ)

namespace Playout

variable {α σ : Type}

def new (zero : α) (ch : ℕ) : Playout α where
  q := []
  ch := max 1 (min ch 2)
  primed := false
  low := usizeMax
  played := 0
  pending := 0
  budget := 0
  prev := [zero, zero]
  started := false
  target := frames targetMs
  underruns := 0
  catchup := true
  cut := 0
  left := []

def level (p : Playout α) : ℕ := p.q.length / p.ch

def reset (p : Playout α) : Playout α := { p with low := usizeMax, played := 0, pending := 0 }

def drain (p : Playout α) (fate : Fate) (k : ℕ) : Option (Playout α) :=
  if k * p.ch ≤ p.q.length then some { p with q := p.q.drop (k * p.ch), left := p.left ++ [(fate, k)] } else none

def mono (dsp : Dsp α σ) (p : Playout α) (k : ℕ) : Option α :=
  ((List.range p.ch).mapM fun c => p.q[k * p.ch + c]?).map dsp.sum

def bestJoin (dsp : Dsp α σ) (p : Playout α) (lo hi target : ℕ) : Option ℕ := do
  let f := frames xfadeMs
  let head ← (List.range f).mapM (p.mono dsp)
  let tail ← (List.range (hi + f - lo)).mapM fun i => p.mono dsp (lo + i)
  let score (k : ℕ) : Option σ := (slice tail (k - lo) (k - lo + f)).map (dsp.score head)
  let first ← score target
  let best ← (List.range (hi + 1 - lo)).foldlM (fun best i => do
    let s ← score (lo + i)
    some (if dsp.better s best.2 then (lo + i, s) else best)) (target, first)
  some best.1

def crossfade (dsp : Dsp α σ) (p : Playout α) (k : ℕ) : Option (List α) :=
  (List.range (frames xfadeMs)).foldlM (fun q i => (List.range p.ch).foldlM (fun q c => do
    let old ← q[i * p.ch + c]?
    let new ← q[(k + i) * p.ch + c]?
    put q ((k + i) * p.ch + c) (dsp.fade i old new)) q) p.q

/-- Cut about `drop` frames from the front of the queue. -/
def splice (dsp : Dsp α σ) (p : Playout α) (drop : ℕ) : Option (Playout α) :=
  let f := frames xfadeMs
  let lo := max (drop - frames searchMs) f
  let hi := min (drop + frames searchMs) (p.level - f)
  if hi < lo then do
    let n := min drop p.level
    let p ← p.drain .cut n
    some { p with cut := p.cut + n }
  else do
    let k ← p.bestJoin dsp lo hi (max lo (min drop hi))
    let q ← p.crossfade dsp k
    let p ← { p with q }.drain .cut k
    some { p with cut := p.cut + k }

def push (dsp : Dsp α σ) (p : Playout α) (samples : List α) : Option (Playout α) :=
  let p := { p with q := p.q ++ samples }
  if p.target + frames maxQueueMs < p.level then
    let drop := p.level - p.target
    if p.catchup then (p.splice dsp drop).map reset
    else (p.drain .cut drop).map fun p => { p with cut := p.cut + drop }.reset
  else some p

def copy (p : Playout α) (out : List α) : Option (Playout α × List α × ℕ) := do
  let k := min (out.length / p.ch) p.level
  let take := k * p.ch
  let prev ← (List.range (if 0 < take then p.ch else 0)).foldlM (fun prev c => do
    let start ← subChecked take p.ch
    let sample ← p.q[start + c]?
    put prev c sample) p.prev
  let p' ← { p with prev }.drain .played k
  some (p', p.q.take take ++ out.drop take, take)

def sampleAt (p : Playout α) (k c : ℕ) : Option α := if k = 0 then p.prev[c]? else p.q[(k - 1) * p.ch + c]?

def resample (dsp : Dsp α σ) (p : Playout α) (out : List α) (d : ℤ) : Option (Playout α × List α × ℕ) := do
  let n := out.length / p.ch
  let span := (n + d).toNat
  let out ← (List.range n).foldlM (fun out j => (List.range p.ch).foldlM (fun out c => do
    let k := j * span / n
    let a ← p.sampleAt k c
    let b ← p.sampleAt (k + 1) c
    let c' ← p.sampleAt (k + 2) c
    let d ← p.sampleAt (k + 3) c
    put out (j * p.ch + c) (dsp.cubic a b c' d (j * span % n) n)) out) out
  let prev ← (List.range p.ch).foldlM (fun prev c => do
    let last ← subChecked span 1
    let sample ← p.q[last * p.ch + c]?
    put prev c sample) p.prev
  let p ← { p with prev }.drain .resampled span
  some (p, out, n * p.ch)

def prime (dsp : Dsp α σ) (p : Playout α) : Option (Playout α) :=
  if p.primed then some p
  else
    let start (p : Playout α) : Playout α := { p with prev := [dsp.zero, dsp.zero], primed := true }.reset
    if p.started then some (start p)
    else do
      let backlog ← subChecked p.level p.target
      let p ← p.drain .dropped backlog
      some (start { p with started := true })

def watch (p : Playout α) (n : ℕ) : Playout α :=
  { p with low := min p.low p.level, played := p.played + n, budget := min (p.budget + n) (2 * skew) }

def error (p : Playout α) : ℤ := (p.low : ℤ) - p.target

def cutsOut (p : Playout α) (n : ℕ) : Bool := p.catchup && frames spliceOverMs < p.error && p.error.toNat + n ≤ p.level

/-- The decision at the end of a window. -/
def correct (dsp : Dsp α σ) (p : Playout α) (n : ℕ) : Option (Playout α) :=
  if frames windowMs ≤ p.played then
    let error := p.error
    let off := error.natAbs
    let pending := if frames slackMs < off ∨ (p.pending ≠ 0 ∧ frames 1 < off) then error else 0
    if p.cutsOut n then p.reset.splice dsp error.toNat else some { p.reset with pending }
  else some p

def share (p : Playout α) (n level : ℕ) : ℤ :=
  let step : ℤ := (p.budget / skew : ℕ)
  let d := if 0 < p.pending ∧ p.target < level then min p.pending step
    else if p.pending < 0 ∧ level < p.target then max p.pending (-step)
    else 0
  if n < d.natAbs * 8 ∨ level < (n + d).toNat + 2 then 0 else d

def settle (p : Playout α) (d : ℤ) : Option (Playout α) := do
  let budget ← subChecked p.budget (d.natAbs * skew)
  some { p with pending := p.pending - d, budget, low := min (p.low - d : ℤ).toNat usizeMax }

def play (dsp : Dsp α σ) (p : Playout α) (out : List α) (d : ℤ) : Option (Playout α × List α × ℕ) :=
  if d = 0 then p.copy out
  else (p.resample dsp out d).bind fun r => (r.1.settle d).map fun p => (p, r.2)

def fill (dsp : Dsp α σ) (p : Playout α) (out : List α) : Option (Playout α × List α × ℕ) :=
  let n := out.length / p.ch
  if ¬ p.primed ∧ (n = 0 ∨ p.level < p.target) then some (p, List.replicate out.length dsp.zero, 0)
  else do
    let p ← p.prime dsp
    let level := p.level
    let p ← (p.watch n).correct dsp n
    let (p, out, filled) ← p.play dsp out (p.share n level)
    some (if filled < out.length then
      ({ p with primed := false, underruns := p.underruns + 1 },
        out.take filled ++ List.replicate (out.length - filled) dsp.zero, filled)
    else (p, out, filled))

end Playout

end Rdpio.Hyper.Jitter
