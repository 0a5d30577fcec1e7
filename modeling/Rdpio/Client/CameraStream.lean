import Rdpio.Hyper.VideoWhole

/-!
# The camera's frames on the host

`send_loop` and `decode_loop` of `crates/rdp-client/src/hyper_camera.rs`.
-/

namespace Rdpio.Client.CameraStream

open Lib Hyper Hyper.Video

structure Picture where
  data : List UInt8
  capture_us : UInt64

/-- Whether there is an IDR picture (NAL type 5). -/
def hasIdr (h264 : List UInt8) : Bool :=
  h264.tails.any fun w =>
    match w with
    | 0 :: 0 :: 1 :: nal :: _ => nal &&& 0x1f == 5
    | _ => false

/-- Frame `frame_id` of a sender. -/
def outFrame (frame_id : ℕ) (p : Picture) : OutFrame where
  frame_id := .ofNat frame_id
  data := p.data
  keyframe := hasIdr p.data
  ltr := false
  recovery := false
  capture_us := p.capture_us
  encode_us := 0
  probe := false

abbrev Pictures := ℕ → Picture

/-- The packets of a frame, with a tenth of parity. -/
def bodies (cpu : Fec.Cpu) (trains : Bool) (pictures : Pictures) (frame : ℕ) : Option (List (List UInt8)) :=
  packetize cpu trains (outFrame frame (pictures frame)) 0.1

structure Packet where
  sender : ℕ
  frame : ℕ
  body : List UInt8
  now_us : UInt64
  /-- `H264Decoder::new` and `decode` succeed. -/
  starts : Bool
  decodes : Bool

structure Given where
  sender : ℕ
  frame : InFrame

structure Host where
  reassembler : Reassembler
  decoder : Bool
  awaiting_key : Bool
  /-- The thread has returned. -/
  ended : Bool
  given : List Given
  arrived : List Packet

namespace Host

variable (c : Host)

def start (buffers : List Buf) : Host := ⟨.new buffers false, false, true, false, [], []⟩

def onEvent (p : Packet) (c : Host) (e : Event) : Host :=
  if c.ended then c
  else
    match e with
    | .lost _ _ => { c with awaiting_key := true }
    | .frame f =>
      if c.awaiting_key && !f.keyframe then c
      else if !c.decoder && !p.starts then { c with ended := true }
      else { c with decoder := true, awaiting_key := !p.decodes, given := c.given ++ [⟨p.sender, f⟩] }

/-- `decode_loop`, for a packet. -/
def step (cpu : Fec.Cpu) (c : Host) (p : Packet) : Host :=
  if c.ended then c
  else
    let (r, events) := c.reassembler.push cpu p.body p.now_us
    events.foldl (onEvent p) { c with reassembler := r, arrived := c.arrived ++ [p] }

def newest : ℕ := c.arrived.foldl (fun n p => max n p.frame) 0

end Host

section
variable (cpu : Fec.Cpu) (trains : Bool) (cameras : ℕ → Pictures)

def Sent (p : Packet) : Prop := ∃ all, bodies cpu trains (cameras p.sender) p.frame = some all ∧ p.body ∈ all

/-- All data shards of the frame are among these packets. -/
def Whole (arrived : List Packet) (sender frame : ℕ) : Prop :=
  ∃ data, packetizeData trains (outFrame frame (cameras sender frame)) 0.1 = some data ∧
    ∀ body ∈ data, ∃ p ∈ arrived, p.sender = sender ∧ p.frame = frame ∧ p.body = body

/-- From frame `key` on each frame is whole before anything of a later one comes. -/
def InOrder (arrived : List Packet) (sender key : ℕ) : Prop :=
  ∀ before p after, arrived = before ++ p :: after → p.sender = sender → ∀ j, key ≤ j → j < p.frame →
    Whole trains cameras before sender j

structure ComesBack (c : Host) : Prop where
  given : ∀ sender key last, key ≤ last → hasIdr (cameras sender key).data = true →
    InOrder trains cameras c.arrived sender key →
    (∀ j, key ≤ j → j ≤ last → Whole trains cameras c.arrived sender j) →
    ∃ before after, c.given.map (fun g => (g.sender, g.frame.frame_id)) =
      before ++ ((List.range' key (last + 1 - key)).map fun j => (sender, UInt32.ofNat j)) ++ after
  next : ∀ before g after, c.given = before ++ g :: after → g.frame.keyframe = true ∨
    ∃ others last, before = others ++ [last] ∧ last.sender = g.sender ∧ g.frame.frame_id = last.frame.frame_id + 1

structure Sole (c : Host) (p : Packet) : Prop where
  sent : Sent cpu trains cameras p
  sole : ∀ p' ∈ c.arrived, p'.sender = p.sender
  near : ∀ b, c.reassembler.base = some (.ofNat b) → b ≤ c.newest + 1 → c.newest < b + 32 →
    p.frame < b + 2^31 ∧ b ≤ p.frame + 2^31
  decodes : p.starts = true ∧ p.decodes = true

end

section
variable {c : Host} {p : Packet} {next last : Option UInt32} {events : List Event}

/-- Each frame given follows the one before, and in step the next one would, behind `next`. -/
structure Chained (c : Host) (sender : ℕ) (next : Option UInt32) : Prop where
  senders : ∀ g ∈ c.given, g.sender = sender
  chain : ∀ before g after, c.given = before ++ g :: after → g.frame.keyframe = true ∨
    ∃ others last, before = others ++ [last] ∧ last.sender = g.sender ∧ g.frame.frame_id = last.frame.frame_id + 1
  in_step : c.awaiting_key = false → ∃ g, c.given.getLast? = some g ∧ next = some (g.frame.frame_id + 1)

theorem Chained.give (h : Chained c p.sender next) {f : InFrame}
    (hfits : f.keyframe = true ∨ ∃ g, c.given.getLast? = some g ∧ f.frame_id = g.frame.frame_id + 1) :
    Chained { c with decoder := true, awaiting_key := !p.decodes, given := c.given ++ [⟨p.sender, f⟩] } p.sender
      (some (f.frame_id + 1)) := by
  refine ⟨fun g hg => ?_, fun before g after hgiven => ?_, fun _ => ⟨⟨p.sender, f⟩, List.getLast?_concat, rfl⟩⟩
  · obtain hg | hg := List.mem_append.mp hg
    · exact h.senders g hg
    · rw [List.mem_singleton.mp hg]
  · dsimp only at hgiven
    obtain rfl | ⟨after', x, rfl⟩ := List.eq_nil_or_concat after
    · obtain ⟨hbefore, hg⟩ := List.append_inj' hgiven rfl
      obtain rfl := (List.cons.inj hg).1
      rw [← hbefore]
      obtain hkey | ⟨g, hlast, hid⟩ := hfits
      · exact .inl hkey
      · exact .inr ⟨c.given.dropLast, g, (List.dropLast_append_getLast? g hlast).symm,
          h.senders g (List.mem_of_getLast? hlast), hid⟩
    · rw [List.concat_eq_append, ← List.cons_append, ← List.append_assoc] at hgiven
      exact h.chain before g after' (List.append_inj' hgiven rfl).1

theorem Chained.waits {c' : Host} {next' : Option UInt32} {sender : ℕ} (h : Chained c sender next)
    (hgiven : c'.given = c.given) (hkey : c'.awaiting_key = true) : Chained c' sender next' :=
  ⟨hgiven ▸ h.senders, hgiven ▸ h.chain, fun hnot => absurd (hkey.symm.trans hnot) (by decide)⟩

theorem onEvent_ended (hended : c.ended = false) (hstarts : p.starts = true) (e : Event) :
    (c.onEvent p e).ended = false := by
  have hgoes : ¬ c.ended = true := by
    rw [hended]
    decide
  unfold Host.onEvent
  rw [if_neg hgoes]
  cases e with
  | lost first last => exact hended
  | frame f =>
    dsimp only
    rw [hstarts, Bool.not_true, Bool.and_false, if_neg Bool.false_ne_true]
    split_ifs
    · exact hended
    · exact hended

theorem Chained.event (h : Chained c p.sender next) (hended : c.ended = false) (hstarts : p.starts = true) {e : Event}
    (hfirst : e = .nudge ∨ ∀ n, next = some n → e.first = n) :
    Chained (c.onEvent p e) p.sender (e.after next) := by
  have hgoes : ¬ c.ended = true := by
    rw [hended]
    decide
  unfold Host.onEvent
  rw [if_neg hgoes]
  cases e with
  | lost first last => exact h.waits rfl rfl
  | frame f =>
    have hnot : Event.frame f ≠ .nudge := by simp [Event.nudge]
    have hafter : (Event.frame f).after next = some (f.frame_id + 1) := by
      unfold Event.after
      rw [if_neg hnot]
    dsimp only
    rw [hstarts, Bool.not_true, Bool.and_false, if_neg Bool.false_ne_true, hafter]
    split_ifs with hwait
    · exact h.waits rfl (Bool.and_eq_true_iff.mp hwait).1
    · refine h.give ?_
      cases hkey : f.keyframe with
      | true => exact .inl rfl
      | false =>
        rw [hkey, Bool.not_false, Bool.and_true, Bool.not_eq_true] at hwait
        obtain ⟨g, hlast, hnext⟩ := h.in_step hwait
        exact .inr ⟨g, hlast, hfirst.resolve_left hnot _ hnext⟩

theorem Chained.all (h : Chained c p.sender next) (hended : c.ended = false) (hstarts : p.starts = true)
    (hfollow : Follow next events last) :
    Chained (events.foldl (Host.onEvent p) c) p.sender last ∧ (events.foldl (Host.onEvent p) c).ended = false := by
  induction events generalizing c next with
  | nil =>
    refine ⟨⟨h.senders, h.chain, fun hkey => ?_⟩, hended⟩
    obtain ⟨g, hlast, hnext⟩ := h.in_step hkey
    exact ⟨g, hlast, hfollow _ hnext⟩
  | cons e events ih => exact ih (h.event hended hstarts hfollow.1) (onEvent_ended hended hstarts e) hfollow.2

end

/-! ## The frames of a sender -/

section
variable {cpu : Fec.Cpu} {trains : Bool} {cameras : ℕ → Pictures} {c : Host} {p : Packet} {sender key b i j : ℕ}

def frames (cameras : ℕ → Pictures) (sender : ℕ) (j : ℕ) : OutFrame := outFrame j (cameras sender j)

/-- Every data shard that came of frame `j` is in. -/
def Gotten (c : Host) (j : ℕ) : Prop :=
  ∀ p ∈ c.arrived, p.frame = j → ∀ hd payload, Reassembler.admitted p.body = some (hd, payload) →
    hd.shard.toNat < hd.k.toNat → c.reassembler.Has j hd.block.toNat hd.shard.toNat

/-- Where the reassembler is on the way to frame `key`, or behind it: `b` is its base. -/
inductive Target (c : Host) (sender key b : ℕ) : Prop
  | ahead (le : b ≤ key) (arrived : ∀ p ∈ c.arrived, p.frame ≤ key) (gotten : Gotten c key)
  | past (lt : key < b) (next : c.reassembler.next = some (.ofNat b)) (in_step : c.awaiting_key = false)
      (arrived : ∀ p ∈ c.arrived, p.frame ≤ b) (gotten : Gotten c b)
      (given : ∃ before, c.given.map (fun g => (g.sender, g.frame.frame_id)) =
        before ++ (List.range' key (b - key)).map fun j => (sender, UInt32.ofNat j))

theorem not_whole (htracks : c.reassembler.Tracks trains (frames cameras sender) 0.1 b)
    (hj : b ≤ j ∧ ((∃ p ∈ c.arrived, p.frame = j) → j < b + 32)) (hgotten : Gotten c j) :
    ¬ Whole trains cameras c.arrived sender j := by
  rintro ⟨data, hdata, hall⟩
  have hhas : ∀ bl s, bl < (frames cameras sender j).blocksOf trains →
      s < (frames cameras sender j).dataOf trains bl → c.reassembler.Has j bl s ∧ ∃ p ∈ c.arrived, p.frame = j := by
    intro bl s hbl hs
    obtain ⟨body, hbody, hd, payload, hadmitted, hblock, hshard, hdatum⟩ := admitted_of_packetizeData hdata hbl hs
    obtain ⟨p, hp, -, hframe, rfl⟩ := hall body hbody
    have hin := hgotten p hp hframe hd payload hadmitted hdatum
    rw [hblock, hshard] at hin
    exact ⟨hin, p, hp, hframe⟩
  -- it has a shard, so it is in flight, and then one is missing
  have hpos := OutFrame.blocksOf_pos trains (frames cameras sender j)
  obtain ⟨⟨a, ha, -⟩, hcame⟩ := hhas 0 0 hpos (OutFrame.dataOf_pos hpos)
  have hgathers := htracks.gathers ha ⟨hj.1, hj.2 hcame⟩
  obtain ⟨bl, s, hbl, hs, hlacks⟩ := hgathers.lacks
  obtain ⟨⟨a', ha', hhas'⟩, -⟩ := hhas bl s hbl hs
  obtain rfl := Option.some.inj (ha.1.symm.trans ha'.1)
  exact hlacks hhas'

theorem le_newest (hp : p ∈ c.arrived) : p.frame ≤ c.newest := by
  have hfold : ∀ (l : List Packet) (n : ℕ), n ≤ l.foldl (fun n p => max n p.frame) n ∧
      ∀ p ∈ l, p.frame ≤ l.foldl (fun n p => max n p.frame) n := by
    intro l
    induction l with
    | nil => exact fun n => ⟨Nat.le_refl n, fun _ hp => (List.not_mem_nil hp).elim⟩
    | cons q l ih =>
      intro n
      obtain ⟨hle, hall⟩ := ih (max n q.frame)
      refine ⟨Nat.le_trans (Nat.le_max_left _ _) hle, fun p hp => ?_⟩
      obtain rfl | hp := List.mem_cons.mp hp
      · exact Nat.le_trans (Nat.le_max_right _ _) hle
      · exact hall p hp
  exact (hfold c.arrived 0).2 p hp

theorem InOrder.of_concat {arrived : List Packet} (h : InOrder trains cameras (arrived ++ [p]) sender key) :
    InOrder trains cameras arrived sender key ∧
      (p.sender = sender → ∀ j, key ≤ j → j < p.frame → Whole trains cameras arrived sender j) := by
  refine ⟨fun before q after harrived => h before q (after ++ [p]) ?_, h arrived p [] rfl⟩
  rw [harrived, List.append_assoc]
  rfl

theorem admitted_k {body : List UInt8} {hd : ShardHeader} {payload : List UInt8}
    (h : Reassembler.admitted body = some (hd, payload)) : hd.k.toNat ≤ 64 := by
  unfold Reassembler.admitted at h
  split at h
  · cases h
  · dsimp only at h
    split_ifs at h with hbad
    obtain rfl := (Prod.mk.inj (Option.some.inj h)).1
    push Not at hbad
    exact hbad.2.1

theorem Gotten.more {c' : Host} (h : Gotten c j) (harrived : c'.arrived = c.arrived ++ [p])
    (hkeeps : (∃ p ∈ c.arrived, p.frame = j) → ∀ bl s, s < 64 → c.reassembler.Has j bl s → c'.reassembler.Has j bl s)
    (hnew : p.frame = j → ∀ hd payload, Reassembler.admitted p.body = some (hd, payload) →
      hd.shard.toNat < hd.k.toNat → c'.reassembler.Has j hd.block.toNat hd.shard.toNat) : Gotten c' j := by
  intro q hq hframe hd payload hadmitted hdata
  rw [harrived] at hq
  obtain hq | hq := List.mem_append.mp hq
  · exact hkeeps ⟨q, hq, hframe⟩ _ _ (Nat.lt_of_lt_of_le hdata (admitted_k hadmitted))
      (h q hq hframe hd payload hadmitted hdata)
  · rw [List.mem_singleton.mp hq] at hframe hadmitted
    exact hnew hframe hd payload hadmitted hdata

theorem onEvent_reassembler (c : Host) (p : Packet) (events : List Event) :
    (events.foldl (Host.onEvent p) c).reassembler = c.reassembler ∧
      (events.foldl (Host.onEvent p) c).arrived = c.arrived := by
  induction events generalizing c with
  | nil => exact ⟨rfl, rfl⟩
  | cons e events ih =>
    have hone : (c.onEvent p e).reassembler = c.reassembler ∧ (c.onEvent p e).arrived = c.arrived := by
      unfold Host.onEvent
      split
      · exact ⟨rfl, rfl⟩
      · cases e with
        | lost first last => exact ⟨rfl, rfl⟩
        | frame f =>
          dsimp only
          split_ifs <;> exact ⟨rfl, rfl⟩
    exact ⟨(ih _).1.trans hone.1, (ih _).2.trans hone.2⟩

theorem onEvent_lost {events : List Event} (hlost : ∀ e ∈ events, ∀ f, e ≠ .frame f) :
    (events.foldl (Host.onEvent p) c).given = c.given ∧ (events.foldl (Host.onEvent p) c).ended = c.ended := by
  induction events generalizing c with
  | nil => exact ⟨rfl, rfl⟩
  | cons e events ih =>
    obtain ⟨hgiven, hended⟩ := @ih (c.onEvent p e) fun e' he' => hlost e' (List.mem_cons_of_mem _ he')
    have hone : (c.onEvent p e).given = c.given ∧ (c.onEvent p e).ended = c.ended := by
      unfold Host.onEvent
      split
      · exact ⟨rfl, rfl⟩
      · cases e with
        | lost first last => exact ⟨rfl, rfl⟩
        | frame f => exact absurd rfl (hlost _ List.mem_cons_self f)
    exact ⟨hgiven.trans hone.1, hended.trans hone.2⟩

theorem onEvent_frame (hended : c.ended = false) (hdecodes : p.starts = true ∧ p.decodes = true) {f : InFrame}
    (hgives : f.keyframe = true ∨ c.awaiting_key = false) :
    (c.onEvent p (.frame f)).given = c.given ++ [⟨p.sender, f⟩] ∧ (c.onEvent p (.frame f)).awaiting_key = false := by
  have hgoes : ¬ c.ended = true := by
    rw [hended]
    decide
  have hpass : ¬ (c.awaiting_key && !f.keyframe) = true := by
    rcases hgives with hkey | hkey
    · rw [hkey, Bool.not_true, Bool.and_false]
      decide
    · rw [hkey, Bool.false_and]
      decide
  unfold Host.onEvent
  rw [if_neg hgoes]
  dsimp only
  rw [if_neg hpass, hdecodes.1, hdecodes.2, Bool.not_true, Bool.and_false, if_neg Bool.false_ne_true]
  exact ⟨rfl, rfl⟩

/-! ## The way of the reassembler -/

/-- `decode_loop` up to the events of a packet. -/
def pushed (cpu : Fec.Cpu) (c : Host) (p : Packet) : Host :=
  { c with reassembler := (c.reassembler.push cpu p.body p.now_us).1, arrived := c.arrived ++ [p] }

theorem step_eq (hended : c.ended = false) : c.step cpu p =
    (c.reassembler.push cpu p.body p.now_us).2.foldl (Host.onEvent p) (pushed cpu c p) := by
  unfold Host.step
  rw [if_neg (by rw [hended]; decide)]
  rfl

theorem Target.frame_le (h : Target c sender key b)
    (htracks : c.reassembler.Tracks trains (frames cameras sender) 0.1 b) (hnewest : c.newest < b + 32)
    (hwhole : ∀ j, key ≤ j → j < p.frame → Whole trains cameras c.arrived sender j) :
    (b ≤ key ∧ p.frame ≤ key ∧ (∀ p ∈ c.arrived, p.frame ≤ key) ∧ Gotten c key) ∨
      key < b ∧ p.frame ≤ b ∧ (∀ p ∈ c.arrived, p.frame ≤ b) ∧ Gotten c b ∧ c.reassembler.next = some (.ofNat b) ∧
        c.awaiting_key = false ∧ ∃ before, c.given.map (fun g => (g.sender, g.frame.frame_id)) =
          before ++ (List.range' key (b - key)).map fun j => (sender, UInt32.ofNat j) := by
  have hcame : ∀ j, (∃ p ∈ c.arrived, p.frame = j) → j < b + 32 := by
    rintro j ⟨q, hq, rfl⟩
    exact Nat.lt_of_le_of_lt (le_newest hq) hnewest
  cases h with
  | ahead le arrived gotten =>
    refine .inl ⟨le, ?_, arrived, gotten⟩
    by_contra hlt
    exact not_whole htracks ⟨le, hcame key⟩ gotten (hwhole key (Nat.le_refl _) (Nat.lt_of_not_le hlt))
  | past lt next in_step arrived gotten given =>
    refine .inr ⟨lt, ?_, arrived, gotten, next, in_step, given⟩
    by_contra hlt
    exact not_whole htracks ⟨Nat.le_refl _, hcame b⟩ gotten (hwhole b (Nat.le_of_lt lt) (Nat.lt_of_not_le hlt))

theorem frames_id (cameras : ℕ → Pictures) (sender j : ℕ) : (frames cameras sender j).frame_id = .ofNat j := rfl

theorem arrived_concat {n : ℕ} (h : ∀ q ∈ c.arrived, q.frame ≤ n) (hp : p.frame ≤ n) :
    ∀ q ∈ c.arrived ++ [p], q.frame ≤ n := by
  intro q hq
  obtain hq | hq := List.mem_append.mp hq
  · exact h q hq
  · rw [List.mem_singleton.mp hq]
    exact hp

theorem Target.older {c' : Host} (h : Target c sender key b)
    (htracks : c.reassembler.Tracks trains (frames cameras sender) 0.1 b) (hnewest : c.newest < b + 32)
    (hwhole : ∀ j, key ≤ j → j < p.frame → Whole trains cameras c.arrived sender j) (hold : p.frame < b)
    (harrived : c'.arrived = c.arrived ++ [p]) (hnext : c'.reassembler.next = c.reassembler.next)
    (hhas : ∀ j bl s, c.reassembler.Has j bl s → c'.reassembler.Has j bl s) (hgiven : c'.given = c.given)
    (hkey : c'.awaiting_key = c.awaiting_key) : Target c' sender key b := by
  obtain ⟨hle, -, hall, hgotten⟩ | ⟨hlt, -, hall, hgotten, hn, hstep, hg⟩ := h.frame_le htracks hnewest hwhole
  · refine .ahead hle (harrived ▸ arrived_concat hall (by omega)) (hgotten.more harrived ?_ fun hframe => by omega)
    exact fun _ bl s _ => hhas key bl s
  · refine .past hlt (hnext.trans hn) (hkey.trans hstep) (harrived ▸ arrived_concat hall (Nat.le_of_lt hold))
      (hgotten.more harrived (fun _ bl s _ => hhas b bl s) fun hframe => by omega) ?_
    rw [hgiven]
    exact hg

theorem Target.keeps {c' : Host} {b' : ℕ} {hd : ShardHeader} {payload : List UInt8} (h : Target c sender key b)
    (htracks : c.reassembler.Tracks trains (frames cameras sender) 0.1 b) (hnewest : c.newest < b + 32)
    (hwhole : ∀ j, key ≤ j → j < p.frame → Whole trains cameras c.arrived sender j)
    (hadmitted : Reassembler.admitted p.body = some (hd, payload))
    (hkeeps : c.reassembler.Keeps trains (frames cameras sender) 0.1 hd (c.reassembler.push cpu p.body p.now_us) b b'
      p.frame)
    (harrived : c'.arrived = c.arrived ++ [p])
    (hreassembler : c'.reassembler = (c.reassembler.push cpu p.body p.now_us).1)
    (hstill : b' = b → c'.given = c.given ∧ c'.awaiting_key = c.awaiting_key) : Target c' sender key b' := by
  have hown : ∀ j, p.frame = j → ∀ hd payload, Reassembler.admitted p.body = some (hd, payload) →
      hd.shard.toNat < hd.k.toNat → c'.reassembler.Has j hd.block.toNat hd.shard.toNat := by
    rintro j rfl hd' payload' hadmitted' hdata
    obtain rfl := (Prod.mk.inj (Option.some.inj (hadmitted.symm.trans hadmitted'))).1
    rw [hreassembler]
    exact hkeeps.own hdata
  have hmore : ∀ j, b' ≤ j → (∃ p ∈ c.arrived, p.frame = j) → ∀ bl s, s < 64 → c.reassembler.Has j bl s →
      c'.reassembler.Has j bl s := by
    rintro j hj ⟨q, hq, rfl⟩ bl s hs hhas
    rw [hreassembler]
    exact hkeeps.keeps _ bl s hs hhas hj (Nat.lt_of_le_of_lt (le_newest hq) hnewest)
  obtain ⟨hle, hframe, hall, hgotten⟩ | ⟨hlt, hframe, hall, hgotten, hn, hstep, hg⟩ := h.frame_le htracks hnewest hwhole
  · have hle' : b' ≤ key := Nat.le_trans hkeeps.le.2.1 hframe
    exact .ahead hle' (harrived ▸ arrived_concat hall hframe) (hgotten.more harrived (hmore key hle') (hown key))
  · -- in step with the stream, the window stays
    obtain ⟨hge, hle', -⟩ := hkeeps.le
    obtain rfl : b' = b := by omega
    obtain ⟨hgiven, hkey⟩ := hstill rfl
    refine .past hlt ?_ (hkey.trans hstep) (harrived ▸ arrived_concat hall hframe)
      (hgotten.more harrived (hmore b' (Nat.le_refl _)) (hown b')) ?_
    · rw [hreassembler]
      exact (hkeeps.still rfl).2.trans hn
    · rw [hgiven]
      exact hg

theorem Target.delivers (h : Target c sender key b)
    (htracks : c.reassembler.Tracks trains (frames cameras sender) 0.1 b) (hnewest : c.newest < b + 32)
    (hwhole : ∀ j, key ≤ j → j < p.frame → Whole trains cameras c.arrived sender j) (hb : b ≤ p.frame)
    (hdelivers : c.reassembler.Delivers trains (frames cameras sender) 0.1 (c.reassembler.push cpu p.body p.now_us) b
      p.frame)
    (hsender : p.sender = sender) (hended : c.ended = false) (hdecodes : p.starts = true ∧ p.decodes = true)
    (hidr : hasIdr (cameras sender key).data = true) : Target (c.step cpu p) sender key (p.frame + 1) := by
  obtain ⟨lost, f, hevents, hlost, hdirect, hid, hkeyframe⟩ := hdelivers.events
  obtain ⟨hgiven, hended'⟩ := @onEvent_lost (pushed cpu c p) p lost hlost
  have hstep : c.step cpu p = (lost.foldl (Host.onEvent p) (pushed cpu c p)).onEvent p (.frame f) := by
    rw [step_eq hended, hevents, List.foldl_append]
    rfl
  have hsame := onEvent_reassembler (pushed cpu c p) p (lost ++ [.frame f])
  rw [List.foldl_append] at hsame
  have hreassembler : (c.step cpu p).reassembler = (c.reassembler.push cpu p.body p.now_us).1 := by
    rw [hstep]
    exact hsame.1
  have harrived : (c.step cpu p).arrived = c.arrived ++ [p] := by
    rw [hstep]
    exact hsame.2
  have hnext : (c.step cpu p).reassembler.next = some (.ofNat (p.frame + 1)) := by
    rw [hreassembler]
    exact hdelivers.next
  have hgives := @onEvent_frame (lost.foldl (Host.onEvent p) (pushed cpu c p)) p (hended'.trans hended) hdecodes f
  rw [hgiven, ← hstep] at hgives
  obtain ⟨hle, hframe, hall, hgotten⟩ | ⟨hlt, hframe, hall, hgotten, hn, hstep', before, hg⟩ :=
    h.frame_le htracks hnewest hwhole
  · by_cases hearlier : p.frame < key
    · refine .ahead hearlier (harrived ▸ arrived_concat hall hframe) (hgotten.more harrived ?_ fun hframe => by omega)
      rintro ⟨q, hq, hcame⟩ bl s _ hhas
      rw [hreassembler]
      exact hdelivers.keeps key bl s hhas hearlier (hcame ▸ Nat.lt_of_le_of_lt (le_newest hq) hnewest)
    · -- the keyframe itself
      obtain rfl : p.frame = key := by omega
      obtain ⟨hgiven', hkey⟩ := hgives (.inl (hkeyframe.trans hidr))
      refine .past (Nat.lt_succ_self _) hnext hkey ?_ ?_ ⟨c.given.map fun g => (g.sender, g.frame.frame_id), ?_⟩
      · exact harrived ▸ arrived_concat (fun q hq => Nat.le_succ_of_le (hall q hq)) (Nat.le_succ _)
      · intro q hq hq'
        rw [harrived] at hq
        have hle' := arrived_concat hall (Nat.le_refl _) q hq
        omega
      · rw [hgiven', List.map_append, Nat.add_sub_cancel_left]
        simp only [pushed, List.map_cons, List.map_nil, hsender, hid, List.range'_one]
  · obtain rfl : p.frame = b := by omega
    obtain rfl := hdirect rfl hn
    obtain ⟨hgiven', hkey⟩ := hgives (.inr hstep')
    refine .past (Nat.lt_succ_of_lt hlt) hnext hkey ?_ ?_ ⟨before, ?_⟩
    · exact harrived ▸ arrived_concat (fun q hq => Nat.le_succ_of_le (hall q hq)) (Nat.le_succ _)
    · intro q hq hq'
      rw [harrived] at hq
      have hle' := arrived_concat hall (Nat.le_refl _) q hq
      omega
    · have hcount : p.frame + 1 - key = (p.frame - key) + 1 := by omega
      have hend : key + (p.frame - key) = p.frame := by omega
      rw [hgiven', List.map_append, hcount, List.range'_1_concat, List.map_append, hend]
      simp only [pushed, hg, List.map_cons, List.map_nil, hsender, hid, List.append_assoc]

/-! ## Runs -/

/-- The packets that came are of one sender, and the reassembler is somewhere in its stream. -/
structure Inv (trains : Bool) (cameras : ℕ → Pictures) (sender : ℕ) (c : Host) : Prop where
  sole : ∀ p ∈ c.arrived, p.sender = sender
  going : c.ended = false
  chained : Chained c sender c.reassembler.next
  place : (c.arrived = [] ∧ c.given = [] ∧ c.reassembler.base = none ∧ c.reassembler.stage = false ∧
      ∀ z, c.reassembler.slot z = none) ∨
    c.arrived ≠ [] ∧ ∃ b, c.reassembler.base = some (.ofNat b) ∧
      c.reassembler.Tracks trains (frames cameras sender) 0.1 b ∧ b ≤ c.newest + 1 ∧ c.newest < b + 32 ∧
      ∀ key, hasIdr (cameras sender key).data = true → InOrder trains cameras c.arrived sender key →
        Target c sender key b

theorem newest_concat (harrived : (c.step cpu p).arrived = c.arrived ++ [p]) :
    (c.step cpu p).newest = max c.newest p.frame := by
  unfold Host.newest
  rw [harrived, List.foldl_append]
  rfl

theorem Inv.before (h : Inv trains cameras sender c) (hp : Sole cpu trains cameras c p)
    (hsender : p.sender = sender) :
    ∃ b, c.reassembler.Tracks trains (frames cameras sender) 0.1 b ∧ (c.reassembler.base = some (.ofNat b) ∨
        c.reassembler.base = none ∧ b = p.frame ∧ ∀ z, c.reassembler.slot z = none) ∧
      (p.frame < b + 2^31 ∧ b ≤ p.frame + 2^31) ∧ b ≤ max c.newest p.frame + 1 ∧ c.newest < b + 32 ∧
      ∀ key, hasIdr (cameras sender key).data = true → InOrder trains cameras (c.arrived ++ [p]) sender key →
        Target c sender key b := by
  obtain ⟨hempty, -, hbase, hstage, hslots⟩ | ⟨-, b, hbase, htracks, hle, hlt, htargets⟩ := h.place
  · have hanywhere : ∀ b, c.reassembler.Tracks trains (frames cameras sender) 0.1 b := fun b =>
      ⟨hstage, fun z a hz _ => (Option.some_ne_none a (hz.symm.trans (hslots z))).elim⟩
    have hzero : c.newest = 0 := by
      unfold Host.newest
      rw [hempty]
      rfl
    have hnone : ∀ q, q ∉ c.arrived := by
      rw [hempty]
      exact fun q => List.not_mem_nil
    refine ⟨p.frame, hanywhere _, .inr ⟨hbase, rfl, hslots⟩, by omega, by omega, by omega, fun key _ horder => ?_⟩
    refine .ahead ?_ (fun q hq => absurd hq (hnone q)) fun q hq => absurd hq (hnone q)
    by_contra hlt
    have hcame : (∃ q ∈ c.arrived, q.frame = key) → key < key + 32 := fun _ => by omega
    exact not_whole (hanywhere key) ⟨Nat.le_refl _, hcame⟩ (fun q hq => absurd hq (hnone q))
      (horder.of_concat.2 hsender key (Nat.le_refl _) (Nat.lt_of_not_le hlt))
  · exact ⟨b, htracks, .inl hbase, hp.near b hbase hle hlt, by omega, hlt,
      fun key hidr horder => htargets key hidr horder.of_concat.1⟩

theorem Inv.step (h : Inv trains cameras sender c) (hp : Sole cpu trains cameras c p) (hsender : p.sender = sender) :
    Inv trains cameras sender (c.step cpu p) := by
  obtain ⟨all, hall, hbody⟩ := hp.sent
  rw [hsender] at hall
  obtain ⟨hd, payload, hadmitted, hsends, hblock⟩ := sends_of_packetize hall hbody
  obtain ⟨b, htracks, hbase, hnear, hle, hlt, htargets⟩ := h.before hp hsender
  have hstep := @step_eq cpu c p h.going
  obtain ⟨hreassembler, harrived⟩ := onEvent_reassembler (pushed cpu c p) p (c.reassembler.push cpu p.body p.now_us).2
  rw [← hstep] at hreassembler harrived
  have hnewest := newest_concat harrived
  have hfollow := @Reassembler.push_follow cpu c.reassembler p.body p.now_us
  have hchained : Chained (pushed cpu c p) p.sender c.reassembler.next := by
    rw [hsender]
    exact ⟨h.chained.senders, h.chained.chain, h.chained.in_step⟩
  obtain ⟨hchained, hgoing⟩ := hchained.all h.going hp.decodes.1 hfollow
  rw [← hstep] at hchained hgoing
  have hwhole : ∀ key, InOrder trains cameras (c.arrived ++ [p]) sender key → ∀ j, key ≤ j → j < p.frame →
      Whole trains cameras c.arrived sender j := fun key horder => horder.of_concat.2 hsender
  have hcame : (c.step cpu p).arrived ≠ [] := harrived ▸ List.append_ne_nil_of_right_ne_nil _ (List.cons_ne_nil p [])
  refine ⟨fun q hq => ?_, hgoing, ?_, .inr ⟨hcame, ?_⟩⟩
  · rw [harrived] at hq
    obtain hq | hq := List.mem_append.mp hq
    · exact h.sole q hq
    · rw [List.mem_singleton.mp hq]
      exact hsender
  · rw [hreassembler, ← hsender]
    exact hchained
  · rw [hnewest, harrived, hreassembler]
    obtain ⟨hold, hnone, htracks', hbase', hnext, hhas⟩ | ⟨hge, ⟨b', hkeeps⟩ | hdelivers⟩ :=
      htracks.push hbase hnear (frames_id cameras sender p.frame) hadmitted hsends hblock p.now_us
    · have hnothing : c.step cpu p = pushed cpu c p := by rw [hstep, hnone]; rfl
      refine ⟨b, hbase', htracks', by omega, by omega, fun key hidr horder => ?_⟩
      have htarget := htargets key hidr horder
      rw [hnothing]
      exact htarget.older htracks hlt (hwhole key horder) hold rfl hnext hhas rfl rfl
    · obtain ⟨hb, hb', hnear'⟩ := hkeeps.le
      refine ⟨b', hkeeps.base, hkeeps.tracks, by omega, by omega, fun key hidr horder => ?_⟩
      refine (htargets key hidr horder).keeps htracks hlt (hwhole key horder) hadmitted hkeeps harrived hreassembler ?_
      intro heq
      rw [hstep, (hkeeps.still heq).1]
      exact ⟨rfl, rfl⟩
    · refine ⟨p.frame + 1, hdelivers.base, hdelivers.tracks, by omega, by omega, fun key hidr horder => ?_⟩
      exact (htargets key hidr horder).delivers htracks hlt (hwhole key horder) hge hdelivers hsender h.going
        hp.decodes hidr

theorem Inv.of_empty {sender' : ℕ} (h : Inv trains cameras sender c) (hempty : c.arrived = []) :
    Inv trains cameras sender' c := by
  obtain ⟨-, hgiven, hrest⟩ | ⟨hne, -⟩ := h.place
  · refine ⟨?_, h.going, ⟨?_, h.chained.chain, h.chained.in_step⟩, .inl ⟨hempty, hgiven, hrest⟩⟩
    · rw [hempty]
      exact fun _ hq => (List.not_mem_nil hq).elim
    · rw [hgiven]
      exact fun _ hq => (List.not_mem_nil hq).elim
  · exact absurd hempty hne

theorem inv_start (buffers : List Buf) : Inv trains cameras sender (.start buffers) := by
  refine ⟨fun _ hq => (List.not_mem_nil hq).elim, rfl, ⟨fun _ hq => (List.not_mem_nil hq).elim,
    fun before g after hg => ?_, fun hkey => Bool.noConfusion hkey⟩, .inl ⟨rfl, rfl, rfl, rfl, fun z => ?_⟩⟩
  · exact absurd (congrArg List.length hg) (by simp [Host.start])
  · change (Vector.replicate 32 (none : Option Assembly))[slotOf z]?.getD default = none
    rw [Vector.getElem?_replicate]
    split_ifs <;> rfl

theorem Whole.came {arrived : List Packet} (h : Whole trains cameras arrived sender j) :
    ∃ p ∈ arrived, p.sender = sender ∧ p.frame = j := by
  obtain ⟨data, hdata, hall⟩ := h
  have hpos := OutFrame.blocksOf_pos trains (frames cameras sender j)
  obtain ⟨body, hbody, -⟩ := admitted_of_packetizeData hdata hpos (OutFrame.dataOf_pos hpos)
  obtain ⟨p, hp, hsender, hframe, -⟩ := hall body hbody
  exact ⟨p, hp, hsender, hframe⟩

theorem Inv.comesBack (h : Inv trains cameras sender c) : ComesBack trains cameras c := by
  refine ⟨fun s key last hle hidr horder hall => ?_, h.chained.chain⟩
  obtain ⟨q, hq, hs, -⟩ := (hall key (Nat.le_refl _) hle).came
  obtain rfl : sender = s := (h.sole q hq).symm.trans hs
  obtain ⟨hempty, -⟩ | ⟨-, b, -, htracks, -, hlt, htargets⟩ := h.place
  · rw [hempty] at hq
    exact (List.not_mem_nil hq).elim
  · have hcame : ∀ j, (∃ p ∈ c.arrived, p.frame = j) → j < b + 32 := by
      rintro j ⟨q, hq, rfl⟩
      exact Nat.lt_of_le_of_lt (le_newest hq) hlt
    cases htargets key hidr horder with
    | ahead le _ gotten => exact absurd (hall key (Nat.le_refl _) hle) (not_whole htracks ⟨le, hcame key⟩ gotten)
    | past lt _ _ _ gotten given =>
      have hpast : last < b := by
        by_contra hge
        exact not_whole htracks ⟨Nat.le_refl _, hcame b⟩ gotten (hall b (Nat.le_of_lt lt) (Nat.le_of_not_lt hge))
      obtain ⟨before, hgiven⟩ := given
      have hsplit : List.range' key (b - key) =
          List.range' key (last + 1 - key) ++ List.range' (last + 1) (b - (last + 1)) := by
        have hjoin := @List.range'_append_1 key (last + 1 - key) (b - (last + 1))
        rw [Nat.add_sub_cancel' (Nat.le_succ_of_le hle)] at hjoin
        rw [hjoin]
        congr 1
        omega
      rw [hgiven, hsplit, List.map_append, ← List.append_assoc]
      exact ⟨before, _, rfl⟩

/-- As long as the packets are of one sender, each by less than half the range of ids away from where the reassembler
is, and the decoder starts and decodes, the camera's frames are given to it. -/
theorem comesBack_of_sole {buffers : List Buf} {packets : List Packet}
    (h : Along (Host.step cpu) (Sole cpu trains cameras) (.start buffers) packets) :
    ∀ done, done <+: packets → ComesBack trains cameras (run (Host.step cpu) (.start buffers) done) := by
  intro done hdone
  have hstep : ∀ c p, (∃ sender, Inv trains cameras sender c) → Sole cpu trains cameras c p →
      ∃ sender, Inv trains cameras sender (c.step cpu p) := by
    rintro c p ⟨sender, hinv⟩ hp
    by_cases hempty : c.arrived = []
    · exact ⟨p.sender, (hinv.of_empty hempty).step hp rfl⟩
    · obtain ⟨q, hq⟩ := List.exists_mem_of_ne_nil _ hempty
      exact ⟨sender, hinv.step hp ((hp.sole q hq).symm.trans (hinv.sole q hq))⟩
  obtain ⟨sender, hinv⟩ := invariant_along (fun c => ∃ sender, Inv trains cameras sender c)
    ⟨0, inv_start buffers⟩ hstep (h.of_prefix hdone)
  exact hinv.comesBack

theorem arrived_step (hended : c.ended = false) : (c.step cpu p).arrived = c.arrived ++ [p] := by
  rw [step_eq hended]
  exact (onEvent_reassembler (pushed cpu c p) p _).2

end

def idr : Picture := ⟨[0, 0, 1, 5], 7⟩

def idrs : ℕ → Pictures := fun _ _ => idr

def idrPacket (sender frame : ℕ) : Packet where
  sender
  frame
  body := ((outFrame frame idr).header false 0.1 0 0).write ++ (outFrame frame idr).payload false 0 0
  now_us := 0
  starts := true
  decodes := true

theorem idrPacket_sent (sender frame : ℕ) : Sent .scalar false idrs (idrPacket sender frame) := by
  obtain ⟨ps, hall, -⟩ := @packetize_eq false (outFrame frame idr) 0.1 .scalar
    (show divCeil (layoutOf false 4 false).1 maxBlockData ≤ 255 by decide)
  refine ⟨_, hall, List.mem_append_left ps (List.mem_flatMap.mpr ⟨0, ?_, List.mem_map.mpr ⟨0, ?_, rfl⟩⟩)⟩
  · exact List.mem_range.mpr (show 0 < divCeil (layoutOf false 4 false).1 maxBlockData by decide)
  · exact List.mem_range.mpr (show 0 < blockData (layoutOf false 4 false).1 0 by decide)

theorem idrPacket_whole {arrived : List Packet} {sender frame : ℕ} (h : idrPacket sender frame ∈ arrived) :
    Whole false idrs arrived sender frame := by
  have hblocks : divCeil (layoutOf false 4 false).1 maxBlockData = 1 := by decide
  have hshards : blockData (layoutOf false 4 false).1 0 = 1 := by decide
  refine ⟨_, if_neg (show ¬ 255 < divCeil (layoutOf false 4 false).1 maxBlockData by decide), fun body hbody => ?_⟩
  obtain ⟨b, hb, hbody⟩ := List.mem_flatMap.mp hbody
  obtain rfl : b = 0 := Nat.lt_one_iff.mp (hblocks ▸ List.mem_range.mp hb)
  obtain ⟨i, hi, rfl⟩ := List.mem_map.mp hbody
  obtain rfl : i = 0 := Nat.lt_one_iff.mp (hshards ▸ List.mem_range.mp hi)
  exact ⟨_, h, rfl, rfl, rfl⟩

theorem sole_start (sender frame : ℕ) : Sole .scalar false idrs (.start []) (idrPacket sender frame) where
  sent := idrPacket_sent sender frame
  sole _ hq := (List.not_mem_nil hq).elim
  near _ hbase := (Option.some_ne_none _ hbase.symm).elim
  decodes := ⟨rfl, rfl⟩

theorem inOrder_zero {trains : Bool} {cameras : ℕ → Pictures} {arrived : List Packet} {sender : ℕ}
    (h : ∀ p ∈ arrived, p.frame = 0) : InOrder trains cameras arrived sender 0 := by
  rintro before p after rfl - j - hj
  rw [h p (List.mem_append_right _ List.mem_cons_self)] at hj
  cases hj

/-- Two frames of one sender. -/
theorem comesBack_of_sole_two :
    ComesBack false idrs (run (Host.step .scalar) (.start []) [idrPacket 0 0, idrPacket 0 1]) := by
  have hsecond : Sole .scalar false idrs ((Host.start []).step .scalar (idrPacket 0 0)) (idrPacket 0 1) := by
    refine ⟨idrPacket_sent 0 1, fun q hq => ?_, fun b _ hle hlt => ?_, rfl, rfl⟩
    · rw [arrived_step rfl] at hq
      rw [List.mem_singleton.mp hq]
      rfl
    · rw [newest_concat (arrived_step rfl)] at hle hlt
      have hzero : max (Host.start []).newest (idrPacket 0 0).frame = 0 := rfl
      have hone : (idrPacket 0 1).frame = 1 := rfl
      omega
  have halong : Along (Host.step .scalar) (Sole .scalar false idrs) (.start []) [idrPacket 0 0, idrPacket 0 1] :=
    And.intro (sole_start 0 0) (And.intro hsecond trivial)
  exact comesBack_of_sole halong _ List.prefix_rfl

/-- The camera is started a second time: its keyframe is taken for an old frame. -/
theorem not_comesBack : (∀ p ∈ [idrPacket 0 0, idrPacket 1 0], Sent .scalar false idrs p) ∧
      ¬ ComesBack false idrs (run (Host.step .scalar) (.start []) [idrPacket 0 0, idrPacket 1 0]) := by
  refine ⟨fun p hp => ?_, fun hback => ?_⟩
  · rcases List.mem_cons.mp hp with rfl | hp
    · exact idrPacket_sent 0 0
    · rw [List.mem_singleton.mp hp]
      exact idrPacket_sent 1 0
  have hinv := (@inv_start false idrs 0 []).step (sole_start 0 0) rfl
  generalize hc : (Host.start []).step .scalar (idrPacket 0 0) = c at hinv
  have harrived : c.arrived = [idrPacket 0 0] := by
    rw [← hc]
    exact arrived_step rfl
  -- the first sender's frame is delivered, so the base is past it
  have hbase : c.reassembler.base = some (.ofNat 1) := by
    obtain ⟨hempty, -⟩ | ⟨-, b, hbase, htracks, hle, hlt, htargets⟩ := hinv.place
    · rw [harrived] at hempty
      cases hempty
    · have hzero : c.newest = 0 := by
        unfold Host.newest
        rw [harrived]
        rfl
      have horder : InOrder false idrs c.arrived 0 0 := by
        rw [harrived]
        exact inOrder_zero (by simp [idrPacket])
      cases htargets 0 (by decide) horder with
      | ahead le _ gotten =>
        have hwhole : Whole false idrs c.arrived 0 0 := idrPacket_whole (harrived ▸ List.mem_cons_self)
        exact absurd hwhole (not_whole htracks ⟨le, fun _ => by omega⟩ gotten)
      | past lt _ _ _ _ _ =>
        obtain rfl : b = 1 := by omega
        exact hbase
  have hnothing : (c.reassembler.push .scalar (idrPacket 1 0).body (idrPacket 1 0).now_us).2 = [] := by
    obtain ⟨all, hall, hbody⟩ := idrPacket_sent 1 0
    obtain ⟨hd, payload, hadmitted, hsends, -⟩ := sends_of_packetize hall hbody
    obtain ⟨stats, floor, train, hpush⟩ := Reassembler.push_of_admitted .scalar c.reassembler hadmitted 0
    have hold : c.reassembler.base.any (Reassembler.older hd.frame_id) = true := by
      rw [hbase, hsends.frame_id]
      exact (@older_ofNat 0 1 (by omega) (by omega)).mpr Nat.one_pos
    rw [if_pos hold] at hpush
    exact congrArg Prod.snd hpush
  have hrun : run (Host.step .scalar) (.start []) [idrPacket 0 0, idrPacket 1 0] =
      pushed .scalar c (idrPacket 1 0) := by
    rw [run_cons, run_cons, run_nil, hc, step_eq hinv.going, hnothing]
    rfl
  rw [hrun] at hback
  have harrived' : (pushed .scalar c (idrPacket 1 0)).arrived = [idrPacket 0 0, idrPacket 1 0] := by
    rw [pushed, harrived]
    rfl
  have horder : InOrder false idrs (pushed .scalar c (idrPacket 1 0)).arrived 1 0 := by
    rw [harrived']
    exact inOrder_zero (by simp [idrPacket])
  have hwhole : ∀ j, 0 ≤ j → j ≤ 0 → Whole false idrs (pushed .scalar c (idrPacket 1 0)).arrived 1 j := by
    intro j _ hj
    obtain rfl := Nat.le_zero.mp hj
    exact idrPacket_whole (harrived' ▸ List.mem_cons_of_mem _ List.mem_cons_self)
  obtain ⟨before, after, hgiven⟩ := hback.given 1 0 0 (Nat.le_refl _) (by decide) horder hwhole
  have hmem : (1, UInt32.ofNat 0) ∈
      (pushed .scalar c (idrPacket 1 0)).given.map fun g => (g.sender, g.frame.frame_id) := by
    rw [hgiven]
    simp
  obtain ⟨g, hg, hpair⟩ := List.mem_map.mp hmem
  have hsender := hinv.chained.senders g hg
  rw [(Prod.mk.inj hpair).1] at hsender
  cases hsender

end Rdpio.Client.CameraStream
