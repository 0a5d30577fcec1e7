import Rdpio.Lib.Run
import Rdpio.Lib.Serial

/-!
# Audio sequencing

`crates/rdp-hyper/src/audio.rs`: the `Sequencer` puts the frames of the audio packets in order, plays the copies of
lost ones, conceals short gaps, and tells a restarted sender from a late packet by the distance of the numbers and the
time of capture.
-/

namespace Rdpio.Hyper.Audio

open Lib

variable {F β : Type*}

structure AudioPacket (F : Type*) where
  /-- Sequence number of the newest frame (the last in `frames`). -/
  seq : UInt32
  /-- Sender clock (µs) when the newest frame was captured. -/
  capture_us : UInt64
  /-- Consecutive Opus frames, oldest first. -/
  frames : List F
  ne_nil : frames ≠ []
  length_lt : frames.length < 256

/-- What the receiver should decode next. -/
inductive Decode (F : Type*) where
  | frame (f : F)
  /-- A frame that never arrived. -/
  | conceal
  /-- A frame that never arrived, just before the one given. -/
  | fec (f : F)
  /-- The sender started a new stream. -/
  | restart
deriving DecidableEq

def restartBehind : ℤ := 16

def maxConceal : ℕ := 3

/-- Orders frames. -/
structure Sequencer where
  next : Option UInt32
  newest_capture_us : UInt64
  fec : Bool
  lost_packets : UInt32

def Sequencer.new (fec : Bool) : Sequencer := { next := none, newest_capture_us := 0, fec, lost_packets := 0 }

def saturatingAdd (a b : UInt32) : UInt32 := if a.toNat + b.toNat < 2^32 then a + b else 0xFFFFFFFF

def later (a b : UInt64) : UInt64 := if a ≤ b then b else a

theorem le_later (a b : UInt64) : b ≤ later a b := by
  unfold later
  split_ifs with h
  · exact UInt64.le_refl b
  · exact UInt64.le_of_lt (UInt64.not_le.mp h)

def AudioPacket.first (p : AudioPacket F) : UInt32 := p.seq - (UInt32.ofNat p.frames.length - 1)

def filling (fec : Bool) (p : AudioPacket F) (gap : ℤ) : List (Decode F) :=
  if 0 < gap then
    List.replicate (min (gap.toNat - fec.toNat) maxConceal) .conceal ++
      if fec then [.fec (p.frames.head p.ne_nil)] else []
  else []

def fresh (p : AudioPacket F) (next : UInt32) : List F :=
  (p.frames.zipIdx.filter fun fi => 0 ≤ asI32 (p.first + UInt32.ofNat fi.2 - next)).map (·.1)

/-- The packet played from `next` on. -/
def Sequencer.play (s : Sequencer) (p : AudioPacket F) (next : UInt32) : Sequencer × List (Decode F) :=
  ({ s with next := some (p.seq + 1), newest_capture_us := later s.newest_capture_us p.capture_us },
    filling s.fec p (asI32 (p.first - next)) ++ (fresh p next).map .frame)

def Sequencer.ahead (s : Sequencer) (p : AudioPacket F) : ℤ := asI32 (p.seq - s.next.getD p.first)

/-- The packet is taken for the first one of a sender that restarted. -/
def Sequencer.Restarts (s : Sequencer) (p : AudioPacket F) : Prop :=
  s.ahead p < -restartBehind ∧ s.newest_capture_us < p.capture_us

instance (s : Sequencer) (p : AudioPacket F) : Decidable (s.Restarts p) := inferInstanceAs (Decidable (_ ∧ _))

def Sequencer.missed (s : Sequencer) (p : AudioPacket F) : UInt32 :=
  if s.next.isSome ∧ 0 < s.ahead p then
    let ahead := p.seq - s.next.getD p.first
    if ahead < 50 then ahead else 50
  else 0

def Sequencer.push (s : Sequencer) (p : AudioPacket F) : Sequencer × List (Decode F) :=
  if s.Restarts p then
    let (s, out) := s.play p p.first
    (s, .restart :: out)
  else if s.ahead p < 0 then (s, [])
  else
    { s with lost_packets := saturatingAdd s.lost_packets (s.missed p) }.play p (s.next.getD p.first)

structure Captured (β : Type*) where
  numbering : ℕ
  index : ℕ
  data : β
deriving DecidableEq

structure Sender (β : Type*) where
  first : ℕ → UInt32
  length : ℕ → ℕ
  data : ℕ → ℕ → β
  capture_us : ℕ → ℕ → UInt64
  clock : ∀ n i m j, n < m ∨ n = m ∧ i ≤ j → capture_us n i ≤ capture_us m j

/-- `a` was captured before `b`. -/
def Captured.Before (a b : Captured β) : Prop :=
  a.numbering < b.numbering ∨ a.numbering = b.numbering ∧ a.index < b.index

instance (a b : Captured β) : Decidable (a.Before b) := inferInstanceAs (Decidable (_ ∨ _))

variable (sender : Sender β)

def Sender.frame (n i : ℕ) : Captured β := ⟨n, i, sender.data n i⟩

/-- A frame of the sender was captured between `a` and `b`. -/
def Sender.Missing (a b : Captured β) : Prop :=
  ∃ n i, i < sender.length n ∧ a.Before (sender.frame n i) ∧ (sender.frame n i).Before b

structure Sent where
  numbering : ℕ
  index : ℕ
  extra : ℕ
  extra_le : extra ≤ index
  extra_lt : extra < 255
  sent : index < sender.length numbering

variable {sender}

def Sent.frames (p : Sent sender) : List (Captured β) :=
  (List.range' (p.index - p.extra) (p.extra + 1)).map (sender.frame p.numbering)

theorem Sent.length_frames (p : Sent sender) : p.frames.length = p.extra + 1 := by
  rw [frames, List.length_map, List.length_range']

def Sent.packet (p : Sent sender) : AudioPacket (Captured β) where
  seq := sender.first p.numbering + UInt32.ofNat p.index
  capture_us := sender.capture_us p.numbering p.index
  frames := p.frames
  ne_nil := List.ne_nil_of_length_pos (by rw [p.length_frames]; omega)
  length_lt := by have := p.extra_lt; rw [p.length_frames]; omega

def Sent.oldest (p : Sent sender) : Captured β := sender.frame p.numbering (p.index - p.extra)

def Sent.newest (p : Sent sender) : Captured β := sender.frame p.numbering p.index

def Decode.isFrame : Decode F → Bool
  | .frame _ => true
  | _ => false

def Decode.isConceal : Decode F → Bool
  | .conceal => true
  | _ => false

def Decode.isFec : Decode F → Bool
  | .fec _ => true
  | _ => false

def Decode.isRestart : Decode F → Bool
  | .restart => true
  | _ => false

def Decode.frame? : Decode F → Option F
  | .frame f => some f
  | _ => none

def played (out : List (Decode F)) : List F := out.filterMap Decode.frame?

structure Gap (F : Type*) where
  old : F
  between : List (Decode F)
  new : F

def gapsFrom (last : Option F) (acc : List (Decode F)) : List (Decode F) → List (Gap F)
  | [] => []
  | .frame f :: ds => (last.map fun a => ⟨a, acc, f⟩).toList ++ gapsFrom (some f) [] ds
  | d :: ds => gapsFrom last (acc ++ [d]) ds

def gaps (out : List (Decode F)) : List (Gap F) := gapsFrom none [] out

structure Gap.Good (sender : Sender β) (fec : Bool) (g : Gap (Captured β)) : Prop where
  onward : g.old.Before g.new
  restarts : g.between.countP Decode.isRestart ≤ g.new.numbering - g.old.numbering
  conceals : g.between.countP Decode.isConceal ≤ maxConceal
  fecs : g.between.countP Decode.isFec ≤ fec.toNat
  full : ¬ sender.Missing g.old g.new → ∀ d ∈ g.between, d.isRestart = true

/-- What is decoded is in order. -/
structure Sequenced (sender : Sender β) (fec : Bool) (out : List (Decode (Captured β))) : Prop where
  /-- No frame is played twice, and none after a later one. -/
  onward : (played out).Pairwise Captured.Before
  /-- Nothing is decoded before the first frame, or after the last. -/
  opening : ∀ d ∈ out.head?, d.isFrame = true
  closing : ∀ d ∈ out.getLast?, d.isFrame = true
  gaps : ∀ g ∈ gaps out, g.Good sender fec

/-- A sequencer, and all that it gave to decode. -/
structure Session (F : Type*) where
  sequencer : Sequencer
  out : List (Decode F)

def Session.new (fec : Bool) : Session F := ⟨.new fec, []⟩

def Session.push (s : Session F) (p : AudioPacket F) : Session F :=
  ⟨(s.sequencer.push p).1, s.out ++ (s.sequencer.push p).2⟩

def Session.last (s : Session F) : Option F := (played s.out).getLast?

def Session.step (s : Session (Captured β)) (p : Sent sender) : Session (Captured β) := s.push p.packet

def Timely (s : Session (Captured β)) (p : Sent sender) : Prop :=
  ∀ a, s.last = some a →
    if a.Before p.newest then
      if a.numbering = p.numbering then ¬ s.sequencer.Restarts p.packet
      else 0 ≤ s.sequencer.ahead p.packet → (p.extra : ℤ) < s.sequencer.ahead p.packet → sender.Missing a p.oldest
    else s.sequencer.ahead p.packet < 0

theorem asI32_first_add (p : AudioPacket F) {next : UInt32} (hahead : 0 ≤ asI32 (p.seq - next)) {k : ℕ}
    (hk : k < p.frames.length) :
    asI32 (p.first + UInt32.ofNat k - next) = asI32 (p.seq - next) - (p.frames.length - 1 : ℕ) + k := by
  have hlt := p.length_lt
  have hseq := p.seq.toNat_lt
  have hnext := next.toNat_lt
  unfold AudioPacket.first
  unfold asI32 at hahead ⊢
  rw [UInt32.toNat_sub] at hahead ⊢
  rw [UInt32.toNat_sub, UInt32.toNat_add, UInt32.toNat_sub, UInt32.toNat_sub, UInt32.toNat_one,
    UInt32.toNat_ofNat', UInt32.toNat_ofNat']
  split_ifs at hahead ⊢ <;> omega

theorem map_filter_zipIdx (l : List F) (m k : ℕ) :
    ((l.zipIdx m).filter fun fi => k ≤ fi.2).map (·.1) = l.drop (k - m) := by
  induction l generalizing m with
  | nil => simp
  | cons f l ih =>
    rw [List.zipIdx_cons]
    by_cases hm : k ≤ m
    · have hall : ((f, m) :: l.zipIdx (m + 1)).filter (fun fi => k ≤ fi.2) = (f, m) :: l.zipIdx (m + 1) := by
        refine List.filter_eq_self.mpr fun fi hfi => decide_eq_true ?_
        rcases List.mem_cons.mp hfi with rfl | hfi
        · exact hm
        · have := List.le_snd_of_mem_zipIdx hfi
          omega
      rw [hall, show k - m = 0 by omega, List.map_cons, List.zipIdx_map_fst, List.drop_zero]
    · rw [List.filter_cons_of_neg (by simpa using hm), ih, show k - m = k - (m + 1) + 1 by omega,
        List.drop_succ_cons]

theorem fresh_eq (p : AudioPacket F) {next : UInt32} (hahead : 0 ≤ asI32 (p.seq - next)) :
    fresh p next = p.frames.drop (p.frames.length - 1 - (asI32 (p.seq - next)).toNat) := by
  unfold fresh
  have hfilter : (p.frames.zipIdx.filter fun fi => 0 ≤ asI32 (p.first + UInt32.ofNat fi.2 - next)) =
      p.frames.zipIdx.filter fun fi => p.frames.length - 1 - (asI32 (p.seq - next)).toNat ≤ fi.2 := by
    refine List.filter_congr fun fi hfi => ?_
    have hk := List.snd_lt_of_mem_zipIdx hfi
    rw [asI32_first_add p hahead (by omega)]
    rw [decide_eq_decide]
    omega
  rw [hfilter, map_filter_zipIdx, Nat.sub_zero]

theorem gap_eq (p : AudioPacket F) {next : UInt32} (hahead : 0 ≤ asI32 (p.seq - next)) :
    asI32 (p.first - next) = asI32 (p.seq - next) - (p.frames.length - 1 : ℕ) := by
  have h := asI32_first_add p hahead (List.length_pos_iff.mpr p.ne_nil)
  simpa using h

theorem asI32_seq_sub_first (p : AudioPacket F) : asI32 (p.seq - p.first) = (p.frames.length - 1 : ℕ) := by
  have hlt := p.length_lt
  have hpos := List.length_pos_iff.mpr p.ne_nil
  have hseq := p.seq.toNat_lt
  unfold AudioPacket.first asI32
  rw [UInt32.toNat_sub, UInt32.toNat_sub, UInt32.toNat_sub, UInt32.toNat_one, UInt32.toNat_ofNat']
  split_ifs <;> omega

theorem push_restart {s : Sequencer} {p : AudioPacket F} (h : s.Restarts p) :
    s.push p = ({ s with next := some (p.seq + 1), newest_capture_us := later s.newest_capture_us p.capture_us },
      .restart :: p.frames.map .frame) := by
  have hahead := asI32_seq_sub_first p
  have hpos : 0 ≤ asI32 (p.seq - p.first) := by omega
  unfold Sequencer.push
  rw [if_pos h]
  unfold Sequencer.play
  rw [gap_eq p hpos, hahead, sub_self, filling, if_neg (lt_irrefl 0), fresh_eq p hpos, hahead,
    Int.toNat_natCast, Nat.sub_self, List.drop_zero, List.nil_append]

theorem push_late {s : Sequencer} {p : AudioPacket F} (h : ¬ s.Restarts p) (hahead : s.ahead p < 0) :
    s.push p = (s, []) := by
  unfold Sequencer.push
  rw [if_neg h, if_pos hahead]

theorem push_play {s : Sequencer} {p : AudioPacket F} (h : ¬ s.Restarts p) (hahead : 0 ≤ s.ahead p) :
    s.push p = ({ s with
        next := some (p.seq + 1)
        newest_capture_us := later s.newest_capture_us p.capture_us
        lost_packets := saturatingAdd s.lost_packets (s.missed p) },
      filling s.fec p (s.ahead p - (p.frames.length - 1 : ℕ)) ++
        (p.frames.drop (p.frames.length - 1 - (s.ahead p).toNat)).map .frame) := by
  unfold Sequencer.push
  rw [if_neg h, if_neg (by omega)]
  unfold Sequencer.play
  rw [gap_eq p hahead, fresh_eq p hahead]
  rfl

/-! ## Gaps -/

def track (last : Option F × List (Decode F)) : Decode F → Option F × List (Decode F)
  | .frame f => (some f, [])
  | d => (last.1, last.2 ++ [d])

theorem gapsFrom_append (last : Option F) (acc xs ys : List (Decode F)) : gapsFrom last acc (xs ++ ys) =
      gapsFrom last acc xs ++ gapsFrom (run track (last, acc) xs).1 (run track (last, acc) xs).2 ys := by
  induction xs generalizing last acc with
  | nil => rfl
  | cons d xs ih =>
    cases d with
    | frame f => rw [List.cons_append, gapsFrom, gapsFrom, ih, List.append_assoc, run_cons, track]
    | _ => exact ih _ _

theorem gapsFrom_skip (last : Option F) (acc : List (Decode F)) {pre : List (Decode F)}
    (hpre : ∀ d ∈ pre, d.isFrame = false) (ds : List (Decode F)) :
    gapsFrom last acc (pre ++ ds) = gapsFrom last (acc ++ pre) ds := by
  induction pre generalizing acc with
  | nil => rw [List.nil_append, List.append_nil]
  | cons d pre ih =>
    have hrest : ∀ e ∈ pre, e.isFrame = false := fun e he => hpre e (List.mem_cons_of_mem d he)
    have hd := hpre d List.mem_cons_self
    cases d with
    | frame f => exact absurd hd.symm Bool.false_ne_true
    | _ =>
      refine (ih _ hrest).trans ?_
      rw [List.append_assoc, List.singleton_append]

theorem run_track_skip (last : Option F) (acc : List (Decode F)) {pre : List (Decode F)}
    (hpre : ∀ d ∈ pre, d.isFrame = false) : run track (last, acc) pre = (last, acc ++ pre) := by
  induction pre generalizing acc with
  | nil => rw [run_nil, List.append_nil]
  | cons d pre ih =>
    have hrest : ∀ e ∈ pre, e.isFrame = false := fun e he => hpre e (List.mem_cons_of_mem d he)
    have hd := hpre d List.mem_cons_self
    cases d with
    | frame f => exact absurd hd.symm Bool.false_ne_true
    | _ =>
      refine (ih _ hrest).trans ?_
      rw [List.append_assoc, List.singleton_append]

theorem run_track_frames (last : Option F) (acc : List (Decode F)) {fs : List F} (hfs : fs ≠ []) :
    run track (last, acc) (fs.map .frame) = (some (fs.getLast hfs), []) := by
  induction fs generalizing last acc with
  | nil => exact absurd rfl hfs
  | cons f fs ih =>
    rcases fs with _ | ⟨f', fs⟩
    · rfl
    · rw [List.map_cons, run_cons, track, ih _ _ (List.cons_ne_nil f' fs),
        List.getLast_cons (List.cons_ne_nil f' fs)]

theorem played_append (xs ys : List (Decode F)) : played (xs ++ ys) = played xs ++ played ys := List.filterMap_append

theorem played_skip {pre : List (Decode F)} (hpre : ∀ d ∈ pre, d.isFrame = false) : played pre = [] := by
  refine List.filterMap_eq_nil_iff.mpr fun d hd => ?_
  have h := hpre d hd
  cases d with
  | frame f => exact absurd h.symm Bool.false_ne_true
  | _ => rfl

theorem played_frames (fs : List F) : played (fs.map .frame) = fs := by
  rw [played, List.filterMap_map]
  exact List.filterMap_some

theorem good_consecutive (sender : Sender β) (fec : Bool) (n i c : ℕ) : ∀ g ∈ gapsFrom (some (sender.frame n i)) []
        (((List.range' (i + 1) c).map (sender.frame n)).map .frame), g.Good sender fec := by
  induction c generalizing i with
  | zero => exact fun g hg => absurd hg List.not_mem_nil
  | succ c ih =>
    rw [List.range'_succ, List.map_cons, List.map_cons, gapsFrom]
    intro g hg
    rcases List.mem_append.mp hg with hg | hg
    · rw [Option.map_some, Option.toList_some, List.mem_singleton] at hg
      rw [hg]
      exact ⟨.inr ⟨rfl, Nat.lt_succ_self i⟩, Nat.zero_le _, Nat.zero_le _, Nat.zero_le _,
        fun _ d hd => absurd hd List.not_mem_nil⟩
    · exact ih (i + 1) g hg

theorem pairwise_played {last : Option (Captured β)} {acc out : List (Decode (Captured β))}
    (h : ∀ g ∈ gapsFrom last acc out, g.old.Before g.new) :
    (last.toList ++ played out).Pairwise Captured.Before := by
  induction out generalizing last acc with
  | nil =>
    rw [played, List.filterMap_nil, List.append_nil]
    cases last with
    | none => exact .nil
    | some a => exact List.pairwise_singleton _ a
  | cons d out ih =>
    cases d with
    | frame f =>
      rw [gapsFrom] at h
      have hrest := ih fun g hg => h g (List.mem_append_right _ hg)
      rw [Option.toList_some, List.singleton_append] at hrest
      rw [show played (.frame f :: out) = f :: played out from rfl]
      cases last with
      | none => exact hrest
      | some a =>
        have haf : a.Before f := h ⟨a, acc, f⟩ (List.mem_append_left _ List.mem_cons_self)
        refine List.pairwise_cons.mpr ⟨fun b hb => ?_, hrest⟩
        rcases List.mem_cons.mp hb with rfl | hb
        · exact haf
        · have hfb : f.Before b := (List.pairwise_cons.mp hrest).1 b hb
          unfold Captured.Before at haf hfb ⊢
          omega
    | _ => exact ih h

theorem filling_not_frame (fec : Bool) (p : AudioPacket F) (gap : ℤ) : ∀ d ∈ filling fec p gap, d.isFrame = false := by
  intro d hd
  unfold filling at hd
  split_ifs at hd with hgap hfec
  · rcases List.mem_append.mp hd with hd | hd
    · rw [List.eq_of_mem_replicate hd]
      rfl
    · rw [List.mem_singleton.mp hd]
      rfl
  · rw [List.append_nil] at hd
    rw [List.eq_of_mem_replicate hd]
    rfl
  · exact absurd hd List.not_mem_nil

theorem good_filling {fec : Bool} {p : AudioPacket (Captured β)} {gap : ℤ} {a f : Captured β} :
    Gap.Good sender fec ⟨a, filling fec p gap, f⟩ ↔ a.Before f ∧ (0 < gap → sender.Missing a f) := by
  constructor
  · intro h
    refine ⟨h.onward, fun hgap => not_not.mp fun hfull => ?_⟩
    -- A gap is never filled with nothing, and no filling is a restart.
    have hall := h.full hfull
    unfold filling at hall
    rw [if_pos hgap] at hall
    cases fec with
    | true =>
      have hfec := hall _ (List.mem_append_right _ List.mem_cons_self)
      exact Bool.false_ne_true hfec
    | false =>
      have hone : min (gap.toNat - false.toNat) maxConceal ≠ 0 := by
        rw [Bool.toNat_false, maxConceal]
        omega
      have hconceal := hall .conceal (List.mem_append_left _ (List.mem_replicate.mpr ⟨hone, rfl⟩))
      exact Bool.false_ne_true hconceal
  · rintro ⟨honward, hmissing⟩
    by_cases hgap : 0 < gap
    · have hfilling : filling fec p gap = List.replicate (min (gap.toNat - fec.toNat) maxConceal) .conceal ++
          if fec then [.fec (p.frames.head p.ne_nil)] else [] := if_pos hgap
      refine ⟨honward, ?_, ?_, ?_, fun hfull => absurd (hmissing hgap) hfull⟩
      all_goals
        dsimp only
        rw [hfilling, List.countP_append, List.countP_replicate]
        cases fec <;> simp [Decode.isRestart, Decode.isConceal, Decode.isFec]
    · have hfilling : filling fec p gap = [] := if_neg hgap
      rw [hfilling]
      exact ⟨honward, Nat.zero_le _, Nat.zero_le _, Nat.zero_le _, fun _ d hd => absurd hd List.not_mem_nil⟩

theorem good_restart {fec : Bool} {a f : Captured β} :
    Gap.Good sender fec ⟨a, [.restart], f⟩ ↔ a.numbering < f.numbering := by
  constructor
  · intro h
    have hone : 1 ≤ f.numbering - a.numbering := h.restarts
    omega
  · intro h
    refine ⟨.inl h, ?_, Nat.zero_le _, Nat.zero_le _, fun _ d hd => ?_⟩
    · show 1 ≤ f.numbering - a.numbering
      omega
    · rw [List.mem_singleton.mp hd]
      rfl

/-! ## One step -/

structure Session.Consistent (sender : Sender β) (fec : Bool) (s : Session (Captured β)) : Prop where
  fec : s.sequencer.fec = fec
  start : s.last = none → s.out = [] ∧ s.sequencer.next = none
  next : ∀ a, s.last = some a → s.sequencer.next = some (sender.first a.numbering + UInt32.ofNat a.index + 1)
  capture : ∀ a, s.last = some a → sender.capture_us a.numbering a.index ≤ s.sequencer.newest_capture_us
  waiting : run track (none, []) s.out = (s.last, [])
  opening : ∀ d ∈ s.out.head?, d.isFrame = true
  closing : ∀ d ∈ s.out.getLast?, d.isFrame = true

theorem consistent_new (sender : Sender β) (fec : Bool) : (Session.new fec).Consistent sender fec where
  fec := rfl
  start _ := ⟨rfl, rfl⟩
  next a ha := absurd ha (Option.some_ne_none a).symm
  capture a ha := absurd ha (Option.some_ne_none a).symm
  waiting := rfl
  opening d hd := absurd hd (Option.some_ne_none d).symm
  closing d hd := absurd hd (Option.some_ne_none d).symm

def Session.GapsGood (sender : Sender β) (fec : Bool) (s : Session (Captured β)) : Prop :=
  ∀ g ∈ gaps s.out, g.Good sender fec

structure Adds (s s' : Session (Captured β)) (p : Sent sender) (pre : List (Decode (Captured β))) (j : ℕ) : Prop where
  le : j ≤ p.index
  not_frame : ∀ d ∈ pre, d.isFrame = false
  first : s.last = none → pre = []
  out : s'.out = s.out ++ (pre ++ ((List.range' j (p.index - j + 1)).map (sender.frame p.numbering)).map .frame)
  next : s'.sequencer.next = some (p.packet.seq + 1)
  newest : s'.sequencer.newest_capture_us = later s.sequencer.newest_capture_us p.packet.capture_us
  fec : s'.sequencer.fec = s.sequencer.fec

section Adds

variable {s s' : Session (Captured β)} {p : Sent sender} {pre : List (Decode (Captured β))} {j : ℕ} {fec : Bool}

theorem frames_from (p : Sent sender) (j : ℕ) : (List.range' j (p.index - j + 1)).map (sender.frame p.numbering) =
      sender.frame p.numbering j ::
        (List.range' (j + 1) (p.index - j)).map (sender.frame p.numbering) := by
  rw [List.range'_succ, List.map_cons]

theorem getLast_frames_from (h : Adds s s' p pre j)
    (hne : (List.range' j (p.index - j + 1)).map (sender.frame p.numbering) ≠ []) :
    ((List.range' j (p.index - j + 1)).map (sender.frame p.numbering)).getLast hne = p.newest := by
  have := h.le
  rw [List.getLast_map, List.getLast_range', show j + (p.index - j + 1) - 1 = p.index by omega]
  rfl

theorem Adds.last (h : Adds s s' p pre j) : s'.last = some p.newest := by
  have hne : (List.range' j (p.index - j + 1)).map (sender.frame p.numbering) ≠ [] := by
    rw [frames_from]
    exact List.cons_ne_nil _ _
  rw [Session.last, h.out, played_append, played_append, played_skip h.not_frame, List.nil_append,
    played_frames, List.getLast?_append_of_ne_nil _ hne, List.getLast?_eq_some_getLast hne,
    getLast_frames_from h hne]

theorem Adds.consistent (h : Adds s s' p pre j) (hs : s.Consistent sender fec) : s'.Consistent sender fec where
  fec := h.fec.trans hs.fec
  start hlast := absurd (h.last.symm.trans hlast) (Option.some_ne_none _)
  next a ha := by
    rw [← Option.some.inj (h.last.symm.trans ha), h.next]
    rfl
  capture a ha := by
    rw [← Option.some.inj (h.last.symm.trans ha), h.newest]
    exact le_later _ _
  waiting := by
    have hne : (List.range' j (p.index - j + 1)).map (sender.frame p.numbering) ≠ [] := by
      rw [frames_from]
      exact List.cons_ne_nil _ _
    rw [h.out, run_append, hs.waiting, run_append, run_track_skip _ _ h.not_frame, run_track_frames _ _ hne,
      getLast_frames_from h hne, h.last]
  opening d hd := by
    rcases hlast : s.last with _ | a
    · rw [h.out, (hs.start hlast).1, h.first hlast, frames_from] at hd
      rw [← Option.some.inj hd]
      rfl
    · have hout : s.out ≠ [] := by
        intro hnil
        rw [Session.last, hnil] at hlast
        exact Option.some_ne_none a hlast.symm
      rw [h.out, List.head?_append_of_ne_nil _ hout] at hd
      exact hs.opening d hd
  closing d hd := by
    have hne : ((List.range' j (p.index - j + 1)).map (sender.frame p.numbering)).map Decode.frame ≠ [] := by
      rw [frames_from]
      exact List.cons_ne_nil _ _
    rw [h.out, ← List.append_assoc, List.getLast?_append_of_ne_nil _ hne,
      List.getLast?_eq_some_getLast hne, List.getLast_map] at hd
    rw [← Option.some.inj hd]
    rfl

theorem Adds.gapsGood (h : Adds s s' p pre j) (hs : s.Consistent sender fec) :
    s'.GapsGood sender fec ↔ s.GapsGood sender fec ∧
      ∀ a, s.last = some a → Gap.Good sender fec ⟨a, pre, sender.frame p.numbering j⟩ := by
  have hgaps : gaps s'.out = gaps s.out ++
      ((s.last.map fun a => ⟨a, pre, sender.frame p.numbering j⟩).toList ++
        gapsFrom (some (sender.frame p.numbering j)) []
          (((List.range' (j + 1) (p.index - j)).map (sender.frame p.numbering)).map .frame)) := by
    rw [gaps, h.out, gapsFrom_append, hs.waiting, gapsFrom_skip _ _ h.not_frame, List.nil_append,
      frames_from, List.map_cons, gapsFrom]
    rfl
  unfold Session.GapsGood
  rw [hgaps]
  constructor
  · intro hgood
    refine ⟨fun g hg => hgood g (List.mem_append_left _ hg), fun a ha => hgood _ ?_⟩
    rw [ha]
    exact List.mem_append_right _ (List.mem_append_left _ List.mem_cons_self)
  · rintro ⟨hold, hnew⟩ g hg
    rcases List.mem_append.mp hg with hg | hg
    · exact hold g hg
    rcases List.mem_append.mp hg with hg | hg
    · rw [Option.mem_toList, Option.map_eq_some_iff] at hg
      obtain ⟨a, ha, rfl⟩ := hg
      exact hnew a ha
    · exact good_consecutive sender fec p.numbering j (p.index - j) g hg

end Adds

section Step

variable {s : Session (Captured β)} {p : Sent sender} {fec : Bool}

theorem adds_play (h : ¬ s.sequencer.Restarts p.packet) (hahead : 0 ≤ s.sequencer.ahead p.packet)
    (hs : s.Consistent sender fec) :
    Adds s (s.step p) p (filling s.sequencer.fec p.packet (s.sequencer.ahead p.packet - p.extra))
      (p.index - p.extra + (p.extra - (s.sequencer.ahead p.packet).toNat)) where
  le := by
    have := p.extra_le
    omega
  not_frame := filling_not_frame _ _ _
  first hlast := by
    have hnext := (hs.start hlast).2
    have hfirst : s.sequencer.ahead p.packet = p.extra := by
      rw [Sequencer.ahead, hnext, Option.getD_none, asI32_seq_sub_first]
      rw [show p.packet.frames = p.frames from rfl, p.length_frames, Nat.add_sub_cancel]
    rw [hfirst, sub_self]
    exact if_neg (lt_irrefl 0)
  out := by
    have hextra := p.extra_le
    rw [Session.step, Session.push, push_play h hahead]
    dsimp only
    rw [show p.packet.frames = p.frames from rfl, p.length_frames, Nat.add_sub_cancel, Sent.frames,
      ← List.map_drop, List.drop_range', Nat.mul_one]
    congr 6
    omega
  next := by rw [Session.step, Session.push, push_play h hahead]
  newest := by rw [Session.step, Session.push, push_play h hahead]
  fec := by rw [Session.step, Session.push, push_play h hahead]

theorem adds_restart (h : s.sequencer.Restarts p.packet) (hlast : s.last ≠ none) :
    Adds s (s.step p) p [.restart] (p.index - p.extra) where
  le := Nat.sub_le _ _
  not_frame d hd := by
    rw [List.mem_singleton.mp hd]
    rfl
  first hnone := absurd hnone hlast
  out := by
    have hextra := p.extra_le
    rw [Session.step, Session.push, push_restart h, show p.packet.frames = p.frames from rfl, Sent.frames,
      List.singleton_append, show p.index - (p.index - p.extra) + 1 = p.extra + 1 by omega]
  next := by rw [Session.step, Session.push, push_restart h]
  newest := by rw [Session.step, Session.push, push_restart h]
  fec := by rw [Session.step, Session.push, push_restart h]

theorem not_restarts_of_none (hs : s.Consistent sender fec) (hlast : s.last = none) :
    ¬ s.sequencer.Restarts p.packet := by
  rintro ⟨hahead, -⟩
  rw [Sequencer.ahead, (hs.start hlast).2, Option.getD_none, asI32_seq_sub_first, restartBehind] at hahead
  omega

theorem capture_le {a : Captured β} (h : ¬ a.Before p.newest) :
    p.packet.capture_us ≤ sender.capture_us a.numbering a.index := by
  refine sender.clock _ _ _ _ ?_
  unfold Captured.Before at h
  rw [show p.newest.numbering = p.numbering from rfl, show p.newest.index = p.index from rfl] at h
  omega

theorem ahead_eq {a : Captured β} (hs : s.Consistent sender fec) (ha : s.last = some a)
    (hnumbering : a.numbering = p.numbering) (hindex : a.index < p.index)
    (hahead : 0 ≤ s.sequencer.ahead p.packet) :
    s.sequencer.ahead p.packet = ((p.index - a.index - 1) % 2^32 : ℕ) := by
  have hnext := hs.next a ha
  have hfirst := (sender.first p.numbering).toNat_lt
  rw [Sequencer.ahead, hnext, Option.getD_some, hnumbering] at hahead ⊢
  rw [show p.packet.seq = sender.first p.numbering + UInt32.ofNat p.index from rfl] at hahead ⊢
  unfold asI32 at hahead ⊢
  rw [UInt32.toNat_sub, UInt32.toNat_add, UInt32.toNat_add, UInt32.toNat_add, UInt32.toNat_one,
    UInt32.toNat_ofNat', UInt32.toNat_ofNat'] at hahead ⊢
  split_ifs at hahead ⊢ <;> omega

theorem timely_iff {a : Captured β} (hlast : s.last = some a) :
    Timely s p ↔ if a.Before p.newest then
      if a.numbering = p.numbering then ¬ s.sequencer.Restarts p.packet
      else 0 ≤ s.sequencer.ahead p.packet → (p.extra : ℤ) < s.sequencer.ahead p.packet → sender.Missing a p.oldest
    else s.sequencer.ahead p.packet < 0 := by
  unfold Timely
  rw [hlast]
  exact ⟨fun h => h a rfl, fun h b hb => Option.some.inj hb ▸ h⟩

theorem step_first (hs : s.Consistent sender fec) (hlast : s.last = none) : (s.step p).Consistent sender fec ∧
      ((s.step p).GapsGood sender fec ↔ s.GapsGood sender fec ∧ Timely s p) := by
  have hrestart : ¬ s.sequencer.Restarts p.packet := not_restarts_of_none hs hlast
  have hahead : 0 ≤ s.sequencer.ahead p.packet := by
    rw [Sequencer.ahead, (hs.start hlast).2, Option.getD_none, asI32_seq_sub_first]
    exact Int.natCast_nonneg _
  have hadds := adds_play hrestart hahead hs
  refine ⟨hadds.consistent hs, (hadds.gapsGood hs).trans (and_congr_right fun _ => ?_)⟩
  constructor
  · intro _ a ha
    exact absurd (hlast.symm.trans ha) (Option.some_ne_none a).symm
  · intro _ a ha
    exact absurd (hlast.symm.trans ha) (Option.some_ne_none a).symm

theorem step_restart {a : Captured β} (hs : s.Consistent sender fec) (hlast : s.last = some a)
    (hrestart : s.sequencer.Restarts p.packet) :
    (s.step p).Consistent sender fec ∧ ((s.step p).GapsGood sender fec ↔ s.GapsGood sender fec ∧ Timely s p) := by
  have hforall : ∀ P : Captured β → Prop, (∀ b, s.last = some b → P b) ↔ P a := fun P =>
    ⟨fun h => h a hlast, fun h b hb => Option.some.inj (hlast.symm.trans hb) ▸ h⟩
  rw [timely_iff hlast]
  have hadds := adds_restart hrestart (by rw [hlast]; exact Option.some_ne_none a)
  have hbefore : a.Before p.newest := by
    refine not_not.mp fun hlate => ?_
    have hle := UInt64.le_trans (capture_le hlate) (hs.capture a hlast)
    exact UInt64.not_lt.mpr hle hrestart.2
  refine ⟨hadds.consistent hs, (hadds.gapsGood hs).trans (and_congr_right fun _ => ?_)⟩
  rw [hforall, good_restart, if_pos hbefore]
  have hnumbering : (sender.frame p.numbering (p.index - p.extra)).numbering = p.numbering := rfl
  rw [hnumbering]
  have hbound := hrestart.1
  rw [restartBehind] at hbound
  unfold Captured.Before at hbefore
  rw [show p.newest.numbering = p.numbering from rfl] at hbefore
  split_ifs with hsame
  · exact iff_of_false (by omega) (not_not.mpr hrestart)
  · exact iff_of_true (by omega) fun hahead => absurd hahead (by omega)

theorem step_late {a : Captured β} (hs : s.Consistent sender fec) (hlast : s.last = some a)
    (hrestart : ¬ s.sequencer.Restarts p.packet) (hahead : s.sequencer.ahead p.packet < 0) :
    (s.step p).Consistent sender fec ∧ ((s.step p).GapsGood sender fec ↔ s.GapsGood sender fec ∧ Timely s p) := by
  rw [timely_iff hlast]
  have hstep : s.step p = s := by
    rw [Session.step, Session.push, push_late hrestart hahead, List.append_nil]
  rw [hstep]
  refine ⟨hs, (and_iff_left ?_).symm⟩
  split_ifs
  · exact hrestart
  · exact fun h => absurd hahead (not_lt.mpr h)
  · exact hahead

theorem step_play {a : Captured β} (hs : s.Consistent sender fec) (hlast : s.last = some a)
    (hrestart : ¬ s.sequencer.Restarts p.packet) (hahead : 0 ≤ s.sequencer.ahead p.packet) :
    (s.step p).Consistent sender fec ∧ ((s.step p).GapsGood sender fec ↔ s.GapsGood sender fec ∧ Timely s p) := by
  have hforall : ∀ P : Captured β → Prop, (∀ b, s.last = some b → P b) ↔ P a := fun P =>
    ⟨fun h => h a hlast, fun h b hb => Option.some.inj (hlast.symm.trans hb) ▸ h⟩
  rw [timely_iff hlast]
  have hadds := adds_play hrestart hahead hs
  refine ⟨hadds.consistent hs, (hadds.gapsGood hs).trans (and_congr_right fun _ => ?_)⟩
  rw [hforall, hs.fec, good_filling, Int.sub_pos]
  obtain ⟨k, hk⟩ := Int.eq_ofNat_of_zero_le hahead
  have hextra := p.extra_le
  rw [hk, Int.toNat_natCast]
  have hnewest : a.Before p.newest ↔ a.numbering < p.numbering ∨ a.numbering = p.numbering ∧ a.index < p.index :=
    Iff.rfl
  have hfirst : a.Before (sender.frame p.numbering (p.index - p.extra + (p.extra - k))) ↔
      a.numbering < p.numbering ∨ a.numbering = p.numbering ∧ a.index < p.index - p.extra + (p.extra - k) := Iff.rfl
  by_cases hbefore : a.Before p.newest
  · rw [if_pos hbefore]
    by_cases hsame : a.numbering = p.numbering
    · -- In the same numbering the distance is the one of the numbers, up to a turn of 2^32.
      have hindex : a.index < p.index := by
        rw [hnewest] at hbefore
        omega
      have hdist := ahead_eq hs hlast hsame hindex hahead
      have hlt := p.extra_lt
      rw [hk] at hdist
      rw [if_pos hsame]
      refine iff_of_true ⟨hfirst.mpr (.inr ⟨hsame, by omega⟩), fun hgap => ?_⟩ hrestart
      have hsent := p.sent
      refine ⟨p.numbering, a.index + 1, by omega, .inr ⟨hsame, Nat.lt_succ_self _⟩, .inr ⟨rfl, ?_⟩⟩
      show a.index + 1 < p.index - p.extra + (p.extra - k)
      omega
    · rw [if_neg hsame]
      have hlater : a.numbering < p.numbering := by
        rw [hnewest] at hbefore
        omega
      have holdest : (p.extra : ℤ) < k → p.index - p.extra + (p.extra - k) = p.index - p.extra := by omega
      constructor
      · rintro ⟨-, hmissing⟩ - hgap
        have h := hmissing hgap
        rwa [holdest hgap] at h
      · intro hmissing
        refine ⟨hfirst.mpr (.inl hlater), fun hgap => ?_⟩
        rw [holdest hgap]
        exact hmissing (Int.natCast_nonneg k) hgap
  · rw [if_neg hbefore]
    refine iff_of_false (fun h => hbefore ?_) (by omega)
    have hle := hadds.le
    rw [hk, Int.toNat_natCast] at hle
    have hfirst' := hfirst.mp h.1
    rw [hnewest]
    omega

theorem step_iff (hs : s.Consistent sender fec) : (s.step p).Consistent sender fec ∧
      ((s.step p).GapsGood sender fec ↔ s.GapsGood sender fec ∧ Timely s p) := by
  rcases hlast : s.last with _ | a
  · exact step_first hs hlast
  · by_cases hrestart : s.sequencer.Restarts p.packet
    · exact step_restart hs hlast hrestart
    · rcases lt_or_ge (s.sequencer.ahead p.packet) 0 with hahead | hahead
      · exact step_late hs hlast hrestart hahead
      · exact step_play hs hlast hrestart hahead

end Step

theorem run_iff {fec : Bool} {s : Session (Captured β)} (hs : s.Consistent sender fec)
    (history : List (Sent sender)) :
    (run Session.step s history).Consistent sender fec ∧ ((run Session.step s history).GapsGood sender fec ↔
        s.GapsGood sender fec ∧ Along Session.step Timely s history) := by
  induction history generalizing s with
  | nil => exact ⟨hs, (and_iff_left trivial).symm⟩
  | cons p history ih =>
    obtain ⟨hstep, hgood⟩ := step_iff (p := p) hs
    obtain ⟨hrun, hgoods⟩ := ih hstep
    refine ⟨hrun, ?_⟩
    rw [run_cons, hgoods, hgood, Along, and_assoc]

/-- Whatever packets of a sender come, in whatever order and how often: what is decoded is in order if and
only if every packet is timely. -/
theorem sequenced_iff (sender : Sender β) (fec : Bool) (history : List (Sent sender)) :
    Sequenced sender fec (run Session.step (Session.new fec) history).out ↔
      Along Session.step Timely (Session.new fec) history := by
  obtain ⟨hconsistent, hgood⟩ := run_iff (consistent_new sender fec) history
  have hstart : (Session.new fec).GapsGood sender fec := fun g hg => absurd hg List.not_mem_nil
  rw [and_iff_right hstart] at hgood
  rw [← hgood]
  constructor
  · exact Sequenced.gaps
  · intro hgaps
    refine ⟨?_, hconsistent.opening, hconsistent.closing, hgaps⟩
    have honward : ∀ g ∈ gapsFrom none [] (run Session.step (Session.new fec) history).out,
        g.old.Before g.new := fun g hg => (hgaps g hg).onward
    exact pairwise_played honward

/-- A sender that restarts after 22 frames. -/
def restarted : Sender Unit where
  first _ := 1
  length n := if n = 0 then 22 else 2
  data _ _ := ()
  capture_us n i := UInt64.ofNat (if n = 0 then min i 21 else if n = 1 then 22 + min i 1 else 30)
  clock n i m j h := by
    rw [UInt64.le_iff_toNat_le, UInt64.toNat_ofNat', UInt64.toNat_ofNat']
    split_ifs <;> omega

def overtaken : List (Sent restarted) :=
  [⟨0, 20, 0, by decide, by decide, by decide⟩, ⟨1, 0, 0, by decide, by decide, by decide⟩,
    ⟨0, 21, 0, by decide, by decide, by decide⟩, ⟨1, 1, 0, by decide, by decide, by decide⟩]

/-- The overtaken packet is played after the one that overtook it, and the next packet restarts the decoder
again. -/
theorem stale_plays_back : (run Session.step (Session.new false) overtaken).out =
        [.frame ⟨0, 20, ()⟩, .restart, .frame ⟨1, 0, ()⟩, .conceal, .conceal, .conceal, .frame ⟨0, 21, ()⟩,
          .restart, .frame ⟨1, 1, ()⟩] ∧
      ¬ Sequenced restarted false (run Session.step (Session.new false) overtaken).out := by
  have hout : (run Session.step (Session.new false) overtaken).out =
      [.frame ⟨0, 20, ()⟩, .restart, .frame ⟨1, 0, ()⟩, .conceal, .conceal, .conceal, .frame ⟨0, 21, ()⟩,
        .restart, .frame ⟨1, 1, ()⟩] := by decide
  refine ⟨hout, fun h => ?_⟩
  have hpairwise := h.onward
  rw [hout] at hpairwise
  exact absurd hpairwise (by decide)

end Rdpio.Hyper.Audio
