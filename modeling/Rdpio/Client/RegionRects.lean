import Mathlib.Algebra.Order.Ring.Int
import Mathlib.Data.List.Pairwise
import Rdpio.Lib.Run

/-!
# Region rects of late pictures

The H.264 part of `MfRenderer` in `crates/rdp-client/src/main.rs`: the region rects of a unit wait in the
queue of its surface until a decoder gives the unit's picture, which may be some calls later.
-/

namespace Rdpio.Client.RegionRects

open Lib

abbrev Rects := List (UInt16 × UInt16 × UInt16 × UInt16)

structure AccessUnit where
  empty : Bool
  rects : Rects

structure Given where
  rects : Rects
  queued : Bool

structure Decoder where
  given : List Given
  floor : ℕ
  since : ℕ

def Decoder.new : Decoder := ⟨[], 0, 0⟩

def Decoder.next_unit_id (d : Decoder) : ℕ := d.given.length

inductive Answer
  | failed (numbered : Bool)
  | pictures (units : List ℕ)

/-- An empty unit is not given to the transform. -/
def Decoder.decode (d : Decoder) (u : AccessUnit) (queued : Bool) (a : Answer) : Decoder × Option (List ℕ) :=
  if u.empty then (d, some [])
  else
    match a with
    | .failed false => (d, none)
    | .failed true => ({ d with given := d.given ++ [⟨u.rects, queued⟩] }, none)
    | .pictures units =>
      (⟨d.given ++ [⟨u.rects, queued⟩], (units.getLast?.map (· + 1)).getD d.floor, d.since⟩, some units)

def take_rects (q : List (ℤ × Rects)) (unit_id : ℤ) : Rects × List (ℤ × Rects) :=
  if unit_id < 0 then
    match q with
    | [] => ([], [])
    | e :: rest => (e.2, rest)
  else
    match q.dropWhile fun e => e.1 < unit_id with
    | [] => ([], [])
    | e :: rest => if e.1 = unit_id then (e.2, rest) else ([], e :: rest)

/-- A unit's rects are queued, at most 32 of them. -/
def enqueue (q : List (ℤ × Rects)) (unit_id : ℤ) (rects : Rects) : List (ℤ × Rects) :=
  (q ++ [(unit_id, rects)]).drop (q.length + 1 - 32)

structure Painted where
  own : Option Rects
  rects : Rects

def paint (given : List Given) (q : List (ℤ × Rects)) : List ℕ → List Painted × List (ℤ × Rects)
  | [] => ([], q)
  | k :: ks =>
    let taken := take_rects q k
    let rest := paint given taken.2 ks
    (⟨given[k]?.map Given.rects, taken.1⟩ :: rest.1, rest.2)

structure MfRenderer where
  cpu_decoders : UInt16 → Option Decoder
  gpu_decoders : UInt16 → Option Decoder
  pending_rects : UInt16 → List (ℤ × Rects)
  device : Bool
  gpu_fail_count : ℕ
  gpu_retry_at : Option ℕ

structure Env where
  now : ℕ
  gpuMade : Bool
  cpuMade : Bool
  gpu : Answer
  cpu : Answer

def MAX_GPU_DECODE_FAILURES : ℕ := 3

namespace MfRenderer

/-- Whether the DXVA path may be tried right now. -/
def gpu_decode_allowed (r : MfRenderer) (now : ℕ) : MfRenderer × Bool :=
  if r.device = false ∨ MAX_GPU_DECODE_FAILURES ≤ r.gpu_fail_count then (r, false)
  else
    match r.gpu_retry_at with
    | none => (r, true)
    | some t => if now < t then (r, false) else ({ r with gpu_retry_at := none }, true)

def note_gpu_failure (r : MfRenderer) (now : ℕ) : MfRenderer :=
  { r with
    gpu_fail_count := r.gpu_fail_count + 1
    gpu_decoders := fun _ => none
    pending_rects := fun _ => []
    cpu_decoders := fun s => (r.cpu_decoders s).map fun d => { d with since := d.given.length }
    gpu_retry_at :=
      if MAX_GPU_DECODE_FAILURES ≤ r.gpu_fail_count + 1 then r.gpu_retry_at
      else some (now + (2 <<< r.gpu_fail_count) * 1000000000) }

def decoderOf (d : Option Decoder) (made : Bool) : Option Decoder := d.or (if made then some .new else none)

/-- Try the DXVA path; `none` is to fall back to the CPU. -/
def decode_avc420_gpu (r : MfRenderer) (s : UInt16) (u : AccessUnit) (env : Env) : MfRenderer × Option (List Painted) :=
  let allowed := r.gpu_decode_allowed env.now
  if allowed.2 = false then (allowed.1, none)
  else
    match decoderOf (allowed.1.gpu_decoders s) env.gpuMade with
    | none => (allowed.1.note_gpu_failure env.now, none)
    | some d =>
      let q := enqueue (allowed.1.pending_rects s) d.next_unit_id u.rects
      let decoded := d.decode u true env.gpu
      match decoded.2 with
      | none => (allowed.1.note_gpu_failure env.now, none)
      | some units =>
        let painted := paint decoded.1.given q units
        ({ allowed.1 with
            gpu_decoders := Function.update allowed.1.gpu_decoders s (some decoded.1)
            pending_rects := Function.update allowed.1.pending_rects s painted.2 }, some painted.1)

/-- The CPU part of `decode_avc420`. -/
def cpu420 (r : MfRenderer) (s : UInt16) (u : AccessUnit) (env : Env) : MfRenderer × List Painted :=
  match decoderOf (r.cpu_decoders s) env.cpuMade with
  | none => (r, [])
  | some d =>
    let q := enqueue (r.pending_rects s) d.next_unit_id u.rects
    let decoded := d.decode u true env.cpu
    let painted := paint decoded.1.given q (decoded.2.getD [])
    ({ r with
        cpu_decoders := Function.update r.cpu_decoders s (some decoded.1)
        pending_rects := Function.update r.pending_rects s painted.2 }, painted.1)

def decode_avc420 (r : MfRenderer) (s : UInt16) (u : AccessUnit) (env : Env) : MfRenderer × List Painted :=
  let tried := r.decode_avc420_gpu s u env
  match tried.2 with
  | some painted => (tried.1, painted)
  | none => tried.1.cpu420 s u env

def cpu444 (r : MfRenderer) (s : UInt16) (u : AccessUnit) (env : Env) : MfRenderer × List Painted :=
  match decoderOf (r.cpu_decoders s) env.cpuMade with
  | none => (r, [])
  | some d =>
    let decoded := d.decode u false env.cpu
    ({ r with cpu_decoders := Function.update r.cpu_decoders s (some decoded.1) },
      (decoded.2.getD []).map fun k => ⟨decoded.1.given[k]?.map Given.rects, u.rects⟩)

/-- The main view goes to the GPU as an AVC420 unit does. -/
def decode_avc444 (r : MfRenderer) (s : UInt16) (u : AccessUnit) (env : Env) : MfRenderer × List Painted :=
  let allowed := r.gpu_decode_allowed env.now
  if allowed.2 = false then allowed.1.cpu444 s u env
  else
    let tried := allowed.1.decode_avc420_gpu s u env
    match tried.2 with
    | some painted => (tried.1, painted)
    | none => tried.1.cpu444 s u env

end MfRenderer

inductive Command
  | avc420 (s : UInt16) (u : AccessUnit) (env : Env)
  | avc444 (s : UInt16) (u : AccessUnit) (env : Env)
  | resetGraphics
  | deleteSurface (s : UInt16)

/-- The renderer, and all it has painted. -/
structure Session where
  renderer : MfRenderer
  painted : List Painted

def render (r : MfRenderer) : Command → MfRenderer × List Painted
  | .avc420 s u env => r.decode_avc420 s u env
  | .avc444 s u env => r.decode_avc444 s u env
  | .resetGraphics =>
    ({ r with cpu_decoders := fun _ => none, gpu_decoders := fun _ => none, pending_rects := fun _ => [] }, [])
  | .deleteSurface s =>
    ({ r with
        cpu_decoders := Function.update r.cpu_decoders s none
        gpu_decoders := Function.update r.gpu_decoders s none
        pending_rects := Function.update r.pending_rects s [] }, [])

def step (w : Session) (c : Command) : Session := ⟨(render w.renderer c).1, w.painted ++ (render w.renderer c).2⟩

def start (device : Bool) : Session := ⟨⟨fun _ => none, fun _ => none, fun _ => [], device, 0, none⟩, []⟩

def Decoder.Answers (d : Decoder) : Answer → Prop
  | .failed _ => True
  | .pictures units => units.Pairwise (· < ·) ∧
      ∀ k ∈ units, d.floor ≤ k ∧ k ≤ d.given.length ∧ d.given.length + 1 ≤ k + 32

/-- For a unit that goes to the GPU: it is not empty, and a decoder made for it finds the queue empty. -/
def GpuFine (r : MfRenderer) (s : UInt16) (u : AccessUnit) (env : Env) : Prop :=
  ∀ d, MfRenderer.decoderOf (r.gpu_decoders s) env.gpuMade = some d → u.empty = false ∧ d.Answers env.gpu ∧
    (r.gpu_decoders s = none → r.pending_rects s = [])

def Cpu420Fine (r : MfRenderer) (s : UInt16) (u : AccessUnit) (env : Env) : Prop :=
  ∀ d, MfRenderer.decoderOf (r.cpu_decoders s) env.cpuMade = some d → u.empty = false ∧ env.cpu ≠ .failed false ∧
    d.Answers env.cpu ∧ ∀ units, env.cpu = .pictures units → ∀ k ∈ units, ∀ g, d.given[k]? = some g →
      d.since ≤ k ∧ g.queued = true

/-- For an AVC444 unit that goes to the CPU: a picture is the one of this very unit. -/
def Cpu444Fine (r : MfRenderer) (s : UInt16) (u : AccessUnit) (env : Env) : Prop :=
  ∀ d, MfRenderer.decoderOf (r.cpu_decoders s) env.cpuMade = some d → u.empty = false →
    ∀ units, env.cpu = .pictures units → ∀ k ∈ units, k = d.given.length

def leftToCpu (r : MfRenderer) (s : UInt16) (u : AccessUnit) (env : Env) : Option MfRenderer :=
  match (r.decode_avc420_gpu s u env).2 with
  | some _ => none
  | none => some (r.decode_avc420_gpu s u env).1

def Fine (r : MfRenderer) : Command → Prop
  | .avc420 s u env => ((r.gpu_decode_allowed env.now).2 = true → GpuFine r s u env) ∧
      ∀ r', leftToCpu r s u env = some r' → Cpu420Fine r' s u env
  | .avc444 s u env => ((r.gpu_decode_allowed env.now).2 = true → GpuFine r s u env) ∧
      ∀ r', leftToCpu r s u env = some r' → Cpu444Fine r' s u env
  | _ => True

/-! ## Queues -/

structure Fit (q : List (ℤ × Rects)) (given : List Given) (floor since : ℕ) : Prop where
  sorted : q.Pairwise fun a b => a.1 < b.1
  below : ∀ e ∈ q, e.1 < given.length
  since_le : since ≤ given.length
  complete : ∀ k g, given[k]? = some g → g.queued = true → since ≤ k → floor ≤ k → given.length ≤ k + 32 →
    ((k : ℤ), g.rects) ∈ q

section
variable {q : List (ℤ × Rects)} {given : List Given} {floor since : ℕ}

theorem Fit.answered (h : Fit q given floor since) {floor' : ℕ} (hle : given.length ≤ floor') :
    Fit q given floor' since := by
  refine ⟨h.sorted, h.below, h.since_le, fun k g hk _ _ hf _ => ?_⟩
  obtain ⟨hlt, -⟩ := List.getElem?_eq_some_iff.mp hk
  omega

theorem length_lt_of_sorted {a : ℤ} {n : ℕ} (h : q.Pairwise fun a b => a.1 < b.1)
    (hbounds : ∀ e ∈ q, a < e.1 ∧ e.1 < a + n) (hn : 0 < n) : q.length < n := by
  induction q generalizing a n with
  | nil => exact hn
  | cons e q ih =>
    obtain ⟨hfirst, hrest⟩ := List.pairwise_cons.mp h
    obtain ⟨hlo, hhi⟩ := hbounds e List.mem_cons_self
    have hlen := ih (a := e.1) (n := n - 1) hrest (fun x hx => ⟨hfirst x hx, ?_⟩) (by omega)
    · rw [List.length_cons]
      omega
    · have hx := (hbounds x (List.mem_cons_of_mem _ hx)).2
      omega

theorem mem_drop_of_sorted {e : ℤ × Rects} (h : q.Pairwise fun a b => a.1 < b.1) (he : e ∈ q)
    (hlast : ∀ x ∈ q, x.1 < e.1 + 32) : e ∈ q.drop (q.length - 32) := by
  obtain ⟨before, after, rfl⟩ := List.append_of_mem he
  have hafter := (List.pairwise_append.mp h).2.1
  obtain ⟨hfirst, hrest⟩ := List.pairwise_cons.mp hafter
  have hlen : after.length < 32 := by
    refine length_lt_of_sorted (a := e.1) hrest (fun x hx => ⟨hfirst x hx, ?_⟩) (by omega)
    exact hlast x (List.mem_append_right _ (List.mem_cons_of_mem _ hx))
  rw [List.drop_append_of_le_length]
  · exact List.mem_append_right _ List.mem_cons_self
  · rw [List.length_append, List.length_cons]
    omega

theorem Fit.enqueue (h : Fit q given floor since) (rects : Rects) :
    Fit (enqueue q given.length rects) (given ++ [⟨rects, true⟩]) floor since := by
  have hsorted : (q ++ [((given.length : ℤ), rects)]).Pairwise fun a b => a.1 < b.1 := by
    refine List.pairwise_append.mpr ⟨h.sorted, List.pairwise_singleton _ _, fun a ha b hb => ?_⟩
    rw [List.mem_singleton.mp hb]
    exact h.below a ha
  have hbelow : ∀ e ∈ q ++ [((given.length : ℤ), rects)], e.1 < given.length + 1 := by
    intro e he
    rcases List.mem_append.mp he with he | he
    · have := h.below e he
      omega
    · rw [List.mem_singleton.mp he]
      exact lt_add_one _
  have hdrop : RegionRects.enqueue q given.length rects = (q ++ [((given.length : ℤ), rects)]).drop
      ((q ++ [((given.length : ℤ), rects)]).length - 32) := by
    rw [List.length_append, List.length_singleton]
    rfl
  rw [hdrop]
  constructor
  case sorted => exact hsorted.sublist (List.drop_sublist ..)
  case below =>
    intro e he
    rw [List.length_append, List.length_singleton]
    have := hbelow e (List.mem_of_mem_drop he)
    omega
  case since_le =>
    rw [List.length_append]
    exact h.since_le.trans (Nat.le_add_right ..)
  case complete =>
    intro k g hk hq hs hf hlate
    rw [List.length_append, List.length_singleton] at hlate
    refine mem_drop_of_sorted hsorted ?_ fun x hx => ?_
    · rcases lt_or_ge k given.length with hlt | hge
      · rw [List.getElem?_append_left hlt] at hk
        exact List.mem_append_left _ (h.complete k g hk hq hs hf (by omega))
      · rw [List.getElem?_append_right hge] at hk
        have hzero : k - given.length = 0 := by
          by_contra hne
          rw [List.getElem?_eq_none (by rw [List.length_singleton]; omega)] at hk
          cases hk
        rw [hzero] at hk
        obtain rfl : (⟨rects, true⟩ : Given) = g := Option.some.inj hk
        obtain rfl : k = given.length := by omega
        exact List.mem_append_right _ (List.mem_singleton.mpr rfl)
    · have := hbelow x hx
      dsimp only
      omega

theorem Fit.unqueued (h : Fit q given floor since) (rects : Rects) : Fit q (given ++ [⟨rects, false⟩]) floor since := by
  constructor
  case sorted => exact h.sorted
  case below =>
    intro e he
    rw [List.length_append, List.length_singleton]
    have := h.below e he
    omega
  case since_le =>
    rw [List.length_append]
    exact h.since_le.trans (Nat.le_add_right ..)
  case complete =>
    intro k g hk hq hs hf hlate
    rw [List.length_append, List.length_singleton] at hlate
    rcases lt_or_ge k given.length with hlt | hge
    · rw [List.getElem?_append_left hlt] at hk
      exact h.complete k g hk hq hs hf (by omega)
    · rw [List.getElem?_append_right hge] at hk
      have hmem := List.mem_of_getElem? hk
      rw [List.mem_singleton.mp hmem] at hq
      cases hq

theorem take_rects_spec {k : ℕ} {r : Rects} (h : q.Pairwise fun a b => a.1 < b.1) (hk : ((k : ℤ), r) ∈ q) :
    (take_rects q k).1 = r ∧ (take_rects q k).2.Sublist q ∧ ∀ e ∈ q, (k : ℤ) < e.1 → e ∈ (take_rects q k).2 := by
  obtain ⟨before, after, rfl⟩ := List.append_of_mem hk
  obtain ⟨-, -, hbefore⟩ := List.pairwise_append.mp h
  have hall : ∀ e ∈ before, decide (e.1 < (k : ℤ)) = true := fun e he =>
    decide_eq_true (hbefore e he _ List.mem_cons_self)
  have htake : take_rects (before ++ ((k : ℤ), r) :: after) k = (r, after) := by
    unfold take_rects
    rw [if_neg (by omega), List.dropWhile_append_of_pos hall, List.dropWhile_cons_of_neg (by simp)]
    exact if_pos rfl
  rw [htake]
  refine ⟨rfl, (List.sublist_cons_self ..).trans (List.sublist_append_right ..), fun e he hlater => ?_⟩
  rcases List.mem_append.mp he with he | he
  · have := hbefore e he _ List.mem_cons_self
    dsimp only at this
    omega
  · rcases List.mem_cons.mp he with rfl | he
    · exact absurd hlater (lt_irrefl _)
    · exact he

theorem Fit.paint {units : List ℕ} (h : Fit q given floor since) (horder : units.Pairwise (· < ·))
    (hunits : ∀ k ∈ units, floor ≤ k ∧ since ≤ k ∧ given.length ≤ k + 32 ∧ ∃ g, given[k]? = some g ∧ g.queued = true) :
    (∀ p ∈ (RegionRects.paint given q units).1, p.own = some p.rects) ∧
      Fit (RegionRects.paint given q units).2 given ((units.getLast?.map (· + 1)).getD floor) since := by
  induction units generalizing q floor with
  | nil => exact ⟨fun p hp => absurd hp List.not_mem_nil, h⟩
  | cons k units ih =>
    obtain ⟨hfirst, hrest⟩ := List.pairwise_cons.mp horder
    obtain ⟨hf, hs, hlate, g, hg, hqueued⟩ := hunits k List.mem_cons_self
    obtain ⟨htaken, hsub, hlater⟩ := take_rects_spec h.sorted (h.complete k g hg hqueued hs hf hlate)
    have hfit : Fit (take_rects q k).2 given (k + 1) since := by
      constructor
      case sorted => exact h.sorted.sublist hsub
      case below => exact fun e he => h.below e (hsub.subset he)
      case since_le => exact h.since_le
      case complete =>
        intro k' g' hk' hq' hs' hf' hlate'
        refine hlater _ (h.complete k' g' hk' hq' hs' (by omega) hlate') ?_
        dsimp only
        omega
    obtain ⟨hpainted, hleft⟩ := ih hfit hrest fun k' hk' => by
      obtain ⟨-, hs', hlate', hg'⟩ := hunits k' (List.mem_cons_of_mem _ hk')
      exact ⟨hfirst k' hk', hs', hlate', hg'⟩
    constructor
    · intro p hp
      rcases List.mem_cons.mp hp with rfl | hp
      · dsimp only
        rw [hg, htaken]
        rfl
      · exact hpainted p hp
    · have hlast : ((k :: units).getLast?.map (· + 1)).getD floor = (units.getLast?.map (· + 1)).getD (k + 1) := by
        rw [List.getLast?_cons]
        cases units.getLast? <;> rfl
      rw [hlast]
      exact hleft

end

/-- A decoder whose units are all in order with the queue. -/
def Decoder.Served (d : Decoder) (q : List (ℤ × Rects)) : Prop := Fit q d.given d.floor d.since

theorem served_new : Decoder.new.Served [] := by
  constructor
  case sorted => exact List.Pairwise.nil
  case below => exact fun e he => absurd he List.not_mem_nil
  case since_le => exact Nat.le_refl _
  case complete =>
    intro k g hk
    cases hk

theorem Decoder.Served.decode {d : Decoder} {q : List (ℤ × Rects)} (h : d.Served q) {u : AccessUnit} {a : Answer}
    (hempty : u.empty = false) (hnumbered : a ≠ .failed false) (hanswers : d.Answers a)
    (hold : ∀ units, a = .pictures units → ∀ k ∈ units, ∀ g, d.given[k]? = some g → d.since ≤ k ∧ g.queued = true) :
    (∀ p ∈ (paint (d.decode u true a).1.given (enqueue q d.next_unit_id u.rects)
        ((d.decode u true a).2.getD [])).1, p.own = some p.rects) ∧
      (d.decode u true a).1.Served (paint (d.decode u true a).1.given (enqueue q d.next_unit_id u.rects)
        ((d.decode u true a).2.getD [])).2 := by
  have hqueued := Fit.enqueue h u.rects
  unfold Decoder.decode
  rw [if_neg (by rw [hempty]; exact Bool.false_ne_true)]
  cases a with
  | failed numbered =>
    cases numbered with
    | false => exact absurd rfl hnumbered
    | true => exact ⟨fun p hp => absurd hp List.not_mem_nil, hqueued⟩
  | pictures units =>
    obtain ⟨horder, hbounds⟩ := hanswers
    refine hqueued.paint horder fun k hk => ?_
    obtain ⟨hfloor, hle, hlate⟩ := hbounds k hk
    rcases hle.lt_or_eq with hlt | rfl
    · -- An earlier unit.
      obtain ⟨hs, hq⟩ := hold units rfl k hk _ (List.getElem?_eq_getElem hlt)
      refine ⟨hfloor, hs, ?_, _, ?_, hq⟩
      · rw [List.length_append, List.length_singleton]
        exact hlate
      · rw [List.getElem?_append_left hlt, List.getElem?_eq_getElem hlt]
    · refine ⟨hfloor, h.since_le, ?_, _, List.getElem?_concat_length, rfl⟩
      rw [List.length_append, List.length_singleton]
      exact hlate

theorem Decoder.Served.decodeAlone {d : Decoder} {q : List (ℤ × Rects)} (h : d.Served q) {u : AccessUnit} {a : Answer}
    (hown : u.empty = false → ∀ units, a = .pictures units → ∀ k ∈ units, k = d.given.length) :
    (∀ k ∈ (d.decode u false a).2.getD [], ((d.decode u false a).1.given[k]?).map Given.rects = some u.rects) ∧
      (d.decode u false a).1.Served q := by
  have hgiven := Fit.unqueued h u.rects
  unfold Decoder.decode
  split_ifs with hempty
  · exact ⟨fun k hk => absurd hk List.not_mem_nil, h⟩
  · cases a with
    | failed numbered =>
      cases numbered with
      | false => exact ⟨fun k hk => absurd hk List.not_mem_nil, h⟩
      | true => exact ⟨fun k hk => absurd hk List.not_mem_nil, hgiven⟩
    | pictures units =>
      have hunits := hown (Bool.eq_false_iff.mpr hempty) units rfl
      constructor
      · intro k hk
        rw [hunits k hk, List.getElem?_concat_length]
        rfl
      · dsimp only
        cases hlast : units.getLast? with
        | none => exact hgiven
        | some k =>
          refine hgiven.answered ?_
          rw [hunits k (List.mem_of_getLast? hlast), List.length_append, List.length_singleton]
          exact Nat.le_refl _

/-! ## The renderer -/

def Serves (q : List (ℤ × Rects)) : Option Decoder → Option Decoder → Prop
  | some d, _ => d.Served q ∧ d.since = 0 ∧ ∀ g ∈ d.given, g.queued = true
  | none, some d => d.Served q
  | none, none => q = []

/-- What holds of the renderer between calls. While the GPU is not to be tried there are no GPU decoders. -/
structure Inv (r : MfRenderer) : Prop where
  blocked : r.device = false ∨ MAX_GPU_DECODE_FAILURES ≤ r.gpu_fail_count ∨ r.gpu_retry_at ≠ none →
    ∀ s, r.gpu_decoders s = none
  serves : ∀ s, Serves (r.pending_rects s) (r.gpu_decoders s) (r.cpu_decoders s)

section
variable {r : MfRenderer} {s : UInt16} {u : AccessUnit} {env : Env}

theorem allowed_spec (r : MfRenderer) (now : ℕ) : (r.gpu_decode_allowed now).1.gpu_decoders = r.gpu_decoders ∧
      (r.gpu_decode_allowed now).1.cpu_decoders = r.cpu_decoders ∧
      (r.gpu_decode_allowed now).1.pending_rects = r.pending_rects ∧
      (r.gpu_decode_allowed now).1.device = r.device ∧
      (r.gpu_decode_allowed now).1.gpu_fail_count = r.gpu_fail_count := by
  unfold MfRenderer.gpu_decode_allowed
  split_ifs
  · exact ⟨rfl, rfl, rfl, rfl, rfl⟩
  · split
    · exact ⟨rfl, rfl, rfl, rfl, rfl⟩
    · split_ifs <;> exact ⟨rfl, rfl, rfl, rfl, rfl⟩

theorem Inv.allowed (h : Inv r) (now : ℕ) : Inv (r.gpu_decode_allowed now).1 ∧
    ((r.gpu_decode_allowed now).2 = true → r.device = true ∧ r.gpu_fail_count < MAX_GPU_DECODE_FAILURES ∧
      (r.gpu_decode_allowed now).1.gpu_retry_at = none) ∧
    ((r.gpu_decode_allowed now).2 = false → ∀ s, r.gpu_decoders s = none) := by
  unfold MfRenderer.gpu_decode_allowed
  split_ifs with hnever
  · exact ⟨h, fun hcon => by simp at hcon, fun _ => h.blocked (hnever.imp_right .inl)⟩
  · obtain ⟨hdevice, hcount⟩ := not_or.mp hnever
    have hready : r.device = true ∧ r.gpu_fail_count < MAX_GPU_DECODE_FAILURES :=
      ⟨by simpa using hdevice, not_le.mp hcount⟩
    cases hretry : r.gpu_retry_at with
    | none => exact ⟨h, fun _ => ⟨hready.1, hready.2, hretry⟩, fun hcon => absurd hcon.symm Bool.false_ne_true⟩
    | some t =>
      have hnone := h.blocked (.inr (.inr (by rw [hretry]; exact Option.some_ne_none _)))
      dsimp only
      split_ifs with hwait
      · exact ⟨h, fun hcon => by simp at hcon, fun _ => hnone⟩
      · exact ⟨⟨fun _ => hnone, h.serves⟩, fun _ => ⟨hready.1, hready.2, rfl⟩, fun _ => hnone⟩

theorem failed_inv (r : MfRenderer) (now : ℕ) : Inv (r.note_gpu_failure now) := by
  constructor
  case blocked => exact fun _ s => rfl
  case serves =>
    intro s
    unfold MfRenderer.note_gpu_failure
    dsimp only
    cases hcpu : r.cpu_decoders s with
    | none => rfl
    | some d =>
      constructor
      case sorted => exact List.Pairwise.nil
      case below => exact fun e he => absurd he List.not_mem_nil
      case since_le => exact Nat.le_refl _
      case complete =>
        intro k g hk _ hs
        obtain ⟨hlt, -⟩ := List.getElem?_eq_some_iff.mp hk
        dsimp only at hs hlt
        omega

theorem none_paints {P : List Painted → Prop} (painted : List Painted) (h : none = some painted) : P painted :=
  absurd h.symm (Option.some_ne_none _)

theorem decode_given (d : Decoder) (u : AccessUnit) (a : Answer) :
    (d.decode u true a).1.since = d.since ∧ ∀ g ∈ (d.decode u true a).1.given, g ∈ d.given ∨ g.queued = true := by
  have hgiven : ∀ g ∈ d.given ++ [⟨u.rects, true⟩], g ∈ d.given ∨ g.queued = true := by
    intro g hg
    rcases List.mem_append.mp hg with hg | hg
    · exact .inl hg
    · rw [List.mem_singleton.mp hg]
      exact .inr rfl
  unfold Decoder.decode
  split_ifs
  · exact ⟨rfl, fun g hg => .inl hg⟩
  · cases a with
    | failed numbered =>
      cases numbered with
      | false => exact ⟨rfl, fun g hg => .inl hg⟩
      | true => exact ⟨rfl, hgiven⟩
    | pictures units => exact ⟨rfl, hgiven⟩

theorem decoderOf_some {d : Decoder} {made : Bool} (x : Decoder) (h : MfRenderer.decoderOf (some x) made = some d) :
    d = x := (Option.some.inj h).symm

theorem decoderOf_none {d : Decoder} {made : Bool} (h : MfRenderer.decoderOf none made = some d) : d = .new := by
  unfold MfRenderer.decoderOf at h
  cases made with
  | false => cases h
  | true => exact (Option.some.inj h).symm

theorem serves_update (q : List (ℤ × Rects)) (gpu cpu : Option Decoder) (h : ∀ s', s' ≠ s →
      Serves (r.pending_rects s') (r.gpu_decoders s') (r.cpu_decoders s')) (hs : Serves q gpu cpu) (s' : UInt16) :
    Serves (Function.update r.pending_rects s q s') (Function.update r.gpu_decoders s gpu s')
      (Function.update r.cpu_decoders s cpu s') := by
  by_cases heq : s' = s
  · subst heq
    rw [Function.update_self, Function.update_self, Function.update_self]
    exact hs
  · rw [Function.update_of_ne heq, Function.update_of_ne heq, Function.update_of_ne heq]
    exact h s' heq

theorem Inv.gpu (h : Inv r) (hfine : (r.gpu_decode_allowed env.now).2 = true → GpuFine r s u env) :
    Inv (r.decode_avc420_gpu s u env).1 ∧
      (∀ painted, (r.decode_avc420_gpu s u env).2 = some painted → ∀ p ∈ painted, p.own = some p.rects) ∧
      ((r.decode_avc420_gpu s u env).2 = none → ∀ s', (r.decode_avc420_gpu s u env).1.gpu_decoders s' = none) := by
  obtain ⟨hinv, hready, hnone⟩ := h.allowed env.now
  obtain ⟨hgpu, hcpu, hpending, hdevice, hcount⟩ := allowed_spec r env.now
  unfold MfRenderer.decode_avc420_gpu
  dsimp only
  by_cases hallowed : (r.gpu_decode_allowed env.now).2 = true
  · have hfine := hfine hallowed
    obtain ⟨hdev, hfew, hretry⟩ := hready hallowed
    rw [if_neg (by rw [hallowed]; decide), hgpu, hpending]
    cases hd : MfRenderer.decoderOf (r.gpu_decoders s) env.gpuMade with
    | none =>
      dsimp only
      exact ⟨failed_inv .., none_paints, fun _ s' => rfl⟩
    | some d =>
      obtain ⟨hempty, hanswers, hqueue⟩ := hfine d hd
      -- The decoder and the queue, both there or both new.
      have hserved : d.Served (r.pending_rects s) ∧ d.since = 0 ∧ ∀ g ∈ d.given, g.queued = true := by
        have hs := h.serves s
        cases hg : r.gpu_decoders s with
        | some x =>
          rw [hg] at hd hs
          obtain rfl := decoderOf_some x hd
          exact hs
        | none =>
          rw [hg] at hd
          obtain rfl := decoderOf_none hd
          rw [hqueue hg]
          exact ⟨served_new, rfl, fun g hg => absurd hg List.not_mem_nil⟩
      obtain ⟨hserved, hsince, hall⟩ := hserved
      dsimp only
      by_cases hfailed : (d.decode u true env.gpu).2 = none
      · rw [hfailed]
        dsimp only
        exact ⟨failed_inv .., none_paints, fun _ s' => rfl⟩
      · have hnumbered : env.gpu ≠ .failed false := by
          intro heq
          refine hfailed ?_
          unfold Decoder.decode
          rw [hempty, heq]
          rfl
        obtain ⟨units, hunits⟩ := Option.ne_none_iff_exists'.mp hfailed
        obtain ⟨hown, hleft⟩ := hserved.decode hempty hnumbered hanswers fun units _ k _ g hg =>
          ⟨by rw [hsince]; exact Nat.zero_le _, hall g (List.mem_of_getElem? hg)⟩
        rw [hunits] at hown hleft ⊢
        refine ⟨⟨fun hblocked => ?_, fun s' => ?_⟩, fun painted hp p hmem => ?_, fun hcon => by simp at hcon⟩
        · dsimp only at hblocked
          rw [hdevice, hcount] at hblocked
          rcases hblocked with hno | hmany | hwait
          · exact absurd (hdev.symm.trans hno) (by decide)
          · exact absurd hmany (not_le.mpr hfew)
          · exact absurd hretry hwait
        · obtain ⟨hsince', hall'⟩ := decode_given d u env.gpu
          have hupdate := serves_update (s := s) _ (some (d.decode u true env.gpu).1) (r.cpu_decoders s)
            (fun s' _ => h.serves s') ⟨hleft, hsince'.trans hsince, fun g hg => (hall' g hg).elim (hall g) id⟩ s'
          rw [Function.update_eq_self] at hupdate
          dsimp only
          rw [hcpu]
          exact hupdate
        · exact hown p ((Option.some.inj hp) ▸ hmem)
  · rw [if_pos (Bool.eq_false_iff.mpr hallowed)]
    refine ⟨hinv, none_paints, fun _ s' => ?_⟩
    dsimp only
    rw [hgpu]
    exact hnone (Bool.eq_false_iff.mpr hallowed) s'

theorem Inv.servesCpu (h : Inv r) (hgpu : ∀ s, r.gpu_decoders s = none) {d : Decoder} {made : Bool}
    (hd : MfRenderer.decoderOf (r.cpu_decoders s) made = some d) : d.Served (r.pending_rects s) := by
  have hs := h.serves s
  rw [hgpu s] at hs
  cases hc : r.cpu_decoders s with
  | some x =>
    rw [hc] at hd hs
    obtain rfl := decoderOf_some x hd
    exact hs
  | none =>
    rw [hc] at hd hs
    obtain rfl := decoderOf_none hd
    rw [show r.pending_rects s = [] from hs]
    exact served_new

theorem Inv.cpu420 (h : Inv r) (hgpu : ∀ s, r.gpu_decoders s = none) (hfine : Cpu420Fine r s u env) :
    Inv (r.cpu420 s u env).1 ∧ ∀ p ∈ (r.cpu420 s u env).2, p.own = some p.rects := by
  unfold MfRenderer.cpu420
  cases hd : MfRenderer.decoderOf (r.cpu_decoders s) env.cpuMade with
  | none => exact ⟨h, fun p hp => absurd hp List.not_mem_nil⟩
  | some d =>
    obtain ⟨hempty, hnumbered, hanswers, hold⟩ := hfine d hd
    obtain ⟨hown, hleft⟩ := (h.servesCpu hgpu hd).decode hempty hnumbered hanswers hold
    refine ⟨⟨fun _ => hgpu, fun s' => ?_⟩, hown⟩
    have hupdate := serves_update (s := s) _ (r.gpu_decoders s) (some (d.decode u true env.cpu).1)
      (fun s' _ => h.serves s') (by rw [hgpu s]; exact hleft) s'
    rw [Function.update_eq_self] at hupdate
    exact hupdate

theorem Inv.cpu444 (h : Inv r) (hgpu : ∀ s, r.gpu_decoders s = none) (hfine : Cpu444Fine r s u env) :
    Inv (r.cpu444 s u env).1 ∧ ∀ p ∈ (r.cpu444 s u env).2, p.own = some p.rects := by
  unfold MfRenderer.cpu444
  cases hd : MfRenderer.decoderOf (r.cpu_decoders s) env.cpuMade with
  | none => exact ⟨h, fun p hp => absurd hp List.not_mem_nil⟩
  | some d =>
    obtain ⟨hown, hleft⟩ := (h.servesCpu hgpu hd).decodeAlone (hfine d hd)
    refine ⟨⟨fun _ => hgpu, fun s' => ?_⟩, fun p hp => ?_⟩
    · have hupdate := serves_update (s := s) (r.pending_rects s) (r.gpu_decoders s)
        (some (d.decode u false env.cpu).1) (fun s' _ => h.serves s') (by rw [hgpu s]; exact hleft) s'
      rw [Function.update_eq_self, Function.update_eq_self] at hupdate
      exact hupdate
    · obtain ⟨k, hk, rfl⟩ := List.mem_map.mp hp
      exact hown k hk

theorem allowed_again (r : MfRenderer) (now : ℕ) (h : (r.gpu_decode_allowed now).2 = true) :
    (r.gpu_decode_allowed now).1.gpu_decode_allowed now = r.gpu_decode_allowed now := by
  have hnever : ¬ (r.device = false ∨ MAX_GPU_DECODE_FAILURES ≤ r.gpu_fail_count) := by
    intro hnever
    unfold MfRenderer.gpu_decode_allowed at h
    rw [if_pos hnever] at h
    exact absurd h Bool.false_ne_true
  cases hretry : r.gpu_retry_at with
  | none =>
    have hsame : r.gpu_decode_allowed now = (r, true) := by
      unfold MfRenderer.gpu_decode_allowed
      rw [if_neg hnever, hretry]
    rw [hsame]
    exact hsame
  | some t =>
    have hafter : r.gpu_decode_allowed now = ({ r with gpu_retry_at := none }, true) := by
      unfold MfRenderer.gpu_decode_allowed at h ⊢
      rw [if_neg hnever, hretry] at h ⊢
      dsimp only at h ⊢
      split_ifs at h ⊢
      rfl
    rw [hafter]
    unfold MfRenderer.gpu_decode_allowed
    exact if_neg hnever

theorem Inv.render (h : Inv r) {c : Command} (hfine : Fine r c) :
    Inv (render r c).1 ∧ ∀ p ∈ (render r c).2, p.own = some p.rects := by
  cases c with
  | avc420 s u env =>
    obtain ⟨hgpu, hcpu⟩ := hfine
    obtain ⟨hinv, hown, hnone⟩ := h.gpu hgpu
    unfold RegionRects.render MfRenderer.decode_avc420
    dsimp only
    cases htried : (r.decode_avc420_gpu s u env).2 with
    | some painted => exact ⟨hinv, hown painted htried⟩
    | none =>
      refine hinv.cpu420 (hnone htried) (hcpu _ ?_)
      unfold leftToCpu
      rw [htried]
  | avc444 s u env =>
    obtain ⟨hgpu, hcpu⟩ := hfine
    obtain ⟨hinv, hown, hnone⟩ := h.gpu hgpu
    unfold RegionRects.render MfRenderer.decode_avc444
    dsimp only
    -- The main view takes the way of an AVC420 unit.
    have hsame : (r.gpu_decode_allowed env.now).2 = true →
        (r.gpu_decode_allowed env.now).1.decode_avc420_gpu s u env = r.decode_avc420_gpu s u env := by
      intro hallowed
      unfold MfRenderer.decode_avc420_gpu
      rw [allowed_again r env.now hallowed]
    by_cases hallowed : (r.gpu_decode_allowed env.now).2 = true
    · rw [if_neg (by rw [hallowed]; decide), hsame hallowed]
      cases htried : (r.decode_avc420_gpu s u env).2 with
      | some painted => exact ⟨hinv, hown painted htried⟩
      | none =>
        refine hinv.cpu444 (hnone htried) (hcpu _ ?_)
        unfold leftToCpu
        rw [htried]
    · have hleft : r.decode_avc420_gpu s u env = ((r.gpu_decode_allowed env.now).1, none) := by
        unfold MfRenderer.decode_avc420_gpu
        exact if_pos (Bool.eq_false_iff.mpr hallowed)
      rw [if_pos (Bool.eq_false_iff.mpr hallowed)]
      rw [hleft] at hinv hnone
      refine hinv.cpu444 (hnone rfl) (hcpu _ ?_)
      unfold leftToCpu
      rw [hleft]
  | resetGraphics => exact ⟨⟨fun _ s => rfl, fun s => rfl⟩, fun p hp => absurd hp List.not_mem_nil⟩
  | deleteSurface s =>
    refine ⟨⟨fun hblocked s' => ?_, serves_update _ _ _ (fun s' _ => h.serves s') rfl⟩,
      fun p hp => absurd hp List.not_mem_nil⟩
    have hnone := h.blocked hblocked s'
    change Function.update r.gpu_decoders s none s' = none
    rw [Function.update_apply]
    split_ifs
    · rfl
    · exact hnone

end

/-- In a run whose calls are all fine, every picture is painted with the rects of the unit it was decoded from. -/
theorem painted_with_own {device : Bool} {commands : List Command}
    (h : Along step (fun w c => Fine w.renderer c) (start device) commands) (done : List Command)
    (hdone : done <+: commands) : ∀ p ∈ (run step (start device) done).painted, p.own = some p.rects := by
  have hinv : Inv (run step (start device) done).renderer ∧
      ∀ p ∈ (run step (start device) done).painted, p.own = some p.rects := by
    refine invariant_along (fun w => Inv w.renderer ∧ ∀ p ∈ w.painted, p.own = some p.rects) ?_
      (fun w c hw hc => ?_) (h.of_prefix hdone)
    · exact ⟨⟨fun _ s => rfl, fun s => rfl⟩, fun p hp => absurd hp List.not_mem_nil⟩
    · obtain ⟨hinv, hown⟩ := hw.1.render hc
      refine ⟨hinv, fun p hp => ?_⟩
      rcases List.mem_append.mp hp with hp | hp
      · exact hw.2 p hp
      · exact hown p hp
  exact hinv.2

def lateUnits : List Command :=
  [.avc420 0 ⟨false, [(0, 0, 16, 16)]⟩ ⟨0, false, true, .pictures [], .pictures []⟩,
    .avc420 0 ⟨false, [(16, 0, 32, 16)]⟩ ⟨1, false, true, .pictures [], .pictures [0, 1]⟩]

theorem painted_with_own_late : (run step (start false) lateUnits).painted.length = 2 ∧
    ∀ p ∈ (run step (start false) lateUnits).painted, p.own = some p.rects := by
  refine ⟨rfl, @painted_with_own false lateUnits ⟨⟨fun hcon => ?_, fun r' hr d hd => ?_⟩, ⟨fun hcon => ?_, fun r' hr d hd => ?_⟩,
    trivial⟩ lateUnits (List.prefix_refl _)⟩
  · exact absurd hcon (by decide)
  · cases hr
    cases hd
    refine ⟨rfl, by simp, ⟨List.Pairwise.nil, fun k hk => absurd hk List.not_mem_nil⟩, fun units hu k hk => ?_⟩
    cases hu
    cases hk
  · exact absurd hcon (by decide)
  · cases hr
    cases hd
    refine ⟨rfl, by simp, ⟨by decide, by decide⟩, fun units hu k hk g hg => ?_⟩
    cases hu
    refine ⟨Nat.zero_le _, ?_⟩
    have hgiven := List.mem_of_getElem? hg
    exact (List.mem_singleton.mp hgiven) ▸ rfl

/-- The DXVA decoder cannot be made, so a unit goes to the CPU, which does not answer yet; two seconds later the GPU
takes the next unit, and its picture is painted with the rects of the first. -/
theorem painted_with_others : (run step (start true)
        [.avc420 0 ⟨false, [(0, 0, 16, 16)]⟩ ⟨0, false, true, .pictures [], .pictures []⟩,
          .avc420 0 ⟨false, [(16, 0, 32, 16)]⟩ ⟨2000000000, true, true, .pictures [0], .pictures []⟩]).painted =
      [⟨some [(16, 0, 32, 16)], [(0, 0, 16, 16)]⟩] := by
  rfl

end Rdpio.Client.RegionRects
