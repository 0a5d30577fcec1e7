import Rdpio.Hyper.VideoAccounting

/-!
# The video thread of the Android client

`video_loop`, `make_decoder`, `output_loop` and `set_surface` of `android/rust/src/client.rs`, with the
receive thread that feeds them from a `Reassembler`.
-/

namespace Rdpio.Android.VideoLoop

open Lib Hyper Hyper.Video

abbrev Size := ℕ × ℕ

structure Sent where
  event : Video.Event
  reference : ℕ

/-- A frame in the decoder, until its picture comes out. -/
structure InFlight where
  pts : UInt64
  frame_id : UInt32
  ltr : Bool
  serial : ℕ

structure Decoder where
  id : ℕ
  size : Size
  is_async : Bool

structure Screen where
  size : Size
  surface : Bool
  surface_gen : UInt32
  paused : Bool
  /-- `self.decoder`. -/
  slot : Option ℕ
  parked : ℕ → Bool
  released : ℕ → Bool
  decoder_gen : UInt32
  /-- A kept decoder was moved, and has shown nothing yet. -/
  moved : Bool
  bad_keyframes : ℕ

structure Client where
  screen : Screen
  reassembler : Reassembler
  /-- What the receive thread is still to send. -/
  outbox : List Video.Event
  /-- The events sent, and how many of them the video thread has taken. -/
  sent : List Sent
  taken : ℕ
  /-- `live.queued`. -/
  queued : ℕ
  ltr_decoded : UInt32
  in_flight : List InFlight
  /-- A queued frame that is not in `in_flight` yet. -/
  entering : Option InFlight
  /-- The video thread waits for an event. -/
  receiving : Bool
  decoder : Option Decoder
  output : Bool
  awaiting_key : Bool
  can_repair : Bool
  was_paused : Bool
  /-- The last decoder made, and how many events were taken before. -/
  made : ℕ
  since : ℕ
  /-- The frames that its codec has, and all that were queued without error, and put out, each with its decoder. -/
  inside : List ℕ
  queues : List (ℕ × ℕ)
  outs : List (ℕ × ℕ)
  /-- The frames that `ltr_decoded` has named. -/
  decoded : List ℕ

def frameAt (sent : List Sent) (i : ℕ) : Option InFrame :=
  match sent[i]? with
  | some ⟨.frame f, _⟩ => some f
  | _ => none

def referenceAt (sent : List Sent) (i : ℕ) : ℕ := (sent[i]?.map (·.reference)).getD 0

def Sent.isFrame (s : Sent) : Bool :=
  match s.event with
  | .frame _ => true
  | .lost _ _ => false

namespace Client

def start (buffers : List Buf) (stage surface : Bool) (size : Size) (slot : Option ℕ) : Client where
  screen :=
    { size, surface, surface_gen := 0, paused := false, slot, parked := fun _ => false, released := fun _ => false
      decoder_gen := 0xFFFFFFFF, moved := false, bad_keyframes := 0 }
  reassembler := .new buffers stage
  outbox := []
  sent := []
  taken := 0
  queued := 0
  ltr_decoded := 0xFFFFFFFF
  in_flight := []
  entering := none
  receiving := false
  decoder := none
  output := false
  awaiting_key := true
  can_repair := false
  was_paused := false
  made := slot.getD 0
  since := 0
  inside := []
  queues := []
  outs := []
  decoded := []

end Client

namespace Screen

variable (s : Screen)

/-- Take the decoder out of the slot and release it. -/
def release : Screen :=
  match s.slot with
  | some n =>
    { s with slot := none, released := Function.update s.released n true, parked := Function.update s.parked n false }
  | none => s

def letSurfaceGo (keep parks : Bool) : Screen :=
  match s.slot with
  | some n =>
    if keep && (s.parked n || (parks && !s.released n)) then { s with parked := Function.update s.parked n true }
    else s.release
  | none => s

end Screen

/-! ## The video thread -/

structure Top where
  wants_async : Bool
  /-- The parked decoder goes onto the new Surface. -/
  unparks : Bool
  /-- It was parked for longer than `PARK_AT_MOST`. -/
  long : Bool
  /-- The moved decoder has shown something, or should have by now. -/
  shows : Bool
  blank : Bool
  /-- Another try at a decoder is due. -/
  again : Bool
  /-- `Decoder::new` succeeds, and the output thread is spawned. -/
  starts : Bool
  spawns : Bool

namespace Client

variable (c : Client)

/-- A parked decoder and a Surface change. -/
def unpark (t : Top) (d : Decoder) : Screen :=
  let s := c.screen
  if s.surface_gen ≠ s.decoder_gen ∧ s.parked d.id then
    let fits := d.size = s.size ∧ d.is_async = t.wants_async
    if s.slot ≠ some d.id then s
    else if !s.surface then { s with decoder_gen := s.surface_gen }
    else if fits ∧ t.unparks ∧ !s.released d.id then
      { s with parked := Function.update s.parked d.id false, decoder_gen := s.surface_gen, moved := true }
    else s
  else s

def letGo (d : Decoder) : Client :=
  { c with
    decoder := none
    output := false
    screen := { c.screen with
      slot := if c.screen.slot = some d.id then none else c.screen.slot
      released := Function.update c.screen.released d.id true
      parked := Function.update c.screen.parked d.id false } }

/-- A moved decoder that shows nothing is replaced. -/
def watch (t : Top) : Screen :=
  let s := c.screen
  if s.moved ∧ c.decoder.isSome then
    if t.shows then { s with moved := false }
    else if t.blank then { s with decoder_gen := 0xFFFFFFFF, moved := false }
    else s
  else s

def remake (t : Top) : Client :=
  let s := { c.screen.release with moved := false, decoder_gen := c.screen.surface_gen }
  let c := { c with awaiting_key := true, can_repair := false, ltr_decoded := 0xFFFFFFFF }
  if s.surface && t.starts then
    { c with
      screen := { s with slot := some (c.made + 1) }
      decoder := some ⟨c.made + 1, s.size, t.wants_async⟩
      output := t.spawns
      in_flight := []
      made := c.made + 1
      since := c.taken
      inside := [] }
  else { c with screen := s, decoder := none, output := false }

def stale (t : Top) : Bool :=
  c.decoder.all (fun d => d.size ≠ c.screen.size || d.is_async ≠ t.wants_async) ||
    c.screen.surface_gen ≠ c.screen.decoder_gen

def ensure (t : Top) : Client :=
  let retry := c.screen.surface_gen ≠ c.screen.decoder_gen ∨ t.again
  if c.stale t ∧ 0 < c.screen.size.1 ∧ 0 < c.screen.size.2 ∧ retry then c.remake t else c

/-- The pass up to `recv_timeout`. -/
def top (t : Top) : Client :=
  let c := match c.decoder with
    | some d =>
      let c := { c with screen := c.unpark t d }
      if c.screen.parked d.id && t.long then c.letGo d else c
    | none => c
  let c := { c with screen := c.watch t }
  let c := c.ensure t
  { c with
    awaiting_key := c.awaiting_key || c.was_paused && !c.screen.paused
    was_paused := c.screen.paused
    receiving := true }

inductive Queued
  | ok
  | full
  | error
deriving DecidableEq

def onFrame (f : InFrame) (serial : ℕ) (skip : Bool) (queued : Queued) : Client :=
  let c := { c with queued := c.queued - 1 }
  if !c.awaiting_key && skip then
    { c with
      queued := c.queued - (c.sent.drop c.taken).countP Sent.isFrame
      taken := c.sent.length
      awaiting_key := true
      can_repair := false }
  else match c.decoder with
    | none => { c with awaiting_key := true }
    | some d =>
      if c.was_paused || c.awaiting_key && !f.keyframe && !(f.recovery && c.can_repair) then c
      else match if c.screen.released d.id then .error else queued with
        | .ok =>
          { c with
            awaiting_key := false
            screen := { c.screen with bad_keyframes := 0 }
            can_repair := c.can_repair || f.keyframe
            queues := c.queues ++ [(d.id, serial)]
            inside := c.inside ++ [serial]
            entering := some ⟨f.capture_us, f.frame_id, f.ltr, serial⟩ }
        | .full => { c with awaiting_key := true, can_repair := false }
        | .error =>
          let bad := c.screen.bad_keyframes + 1
          { c with
            awaiting_key := true
            can_repair := false
            screen :=
              if !f.keyframe then c.screen
              else if bad < 3 then { c.screen with bad_keyframes := bad }
              else { c.screen with bad_keyframes := 0, decoder_gen := 0xFFFFFFFF } }

/-- What `recv_timeout` returns, and what is done with it. -/
def recv (skip : Bool) (queued : Queued) : Client :=
  let i := c.taken
  match c.sent[i]? with
  | none => { c with receiving := false }
  | some ⟨.lost first last, _⟩ =>
    let c := { c with receiving := false, taken := i + 1 }
    if Video.Event.lost first last = .nudge then c else { c with awaiting_key := true }
  | some ⟨.frame f, _⟩ => { c with receiving := false, taken := i + 1 }.onFrame f i skip queued

/-- The queued frame's entry. -/
def enter : Client :=
  match c.entering with
  | some e =>
    let q := c.in_flight ++ [e]
    { c with in_flight := q.drop (q.length - 32), entering := none }
  | none => c

def pops (shown : UInt64) (skipped : List UInt64) : List InFlight → List InFlight × List InFlight
  | [] => ([], [])
  | f :: q =>
    if f.pts < shown then
      let (stored, rest) := pops shown skipped q
      (if f.ltr && skipped.contains f.pts then f :: stored else stored, rest)
    else (if f.pts = shown ∧ f.ltr then [f] else [], f :: q)

def ptsAt (i : ℕ) : UInt64 := ((frameAt c.sent i).map (·.capture_us)).getD 0

def pictures (marks : List Bool) : List ℕ := ((c.inside.zip marks).filter (·.2)).map (·.1)

def render (marks : List Bool) : Client :=
  let pictures := c.pictures marks
  let c := { c with inside := c.inside.drop marks.length }
  match pictures.getLast? with
  | none => c
  | some shown =>
    let (stored, rest) := pops (c.ptsAt shown) (pictures.dropLast.map c.ptsAt) c.in_flight
    { c with
      in_flight := rest
      ltr_decoded := (stored.getLast?.map (·.frame_id)).getD c.ltr_decoded
      decoded := c.decoded ++ stored.map (·.serial)
      outs := c.outs ++ pictures.map fun i => (c.made, i) }

end Client

inductive Step
  | receive (body : List UInt8) (now_us : UInt64)
  /-- The receive thread sends an event. -/
  | send (reference : ℕ)
  | resize (size : Size)
  /-- What `set_surface` does, one after the other, and `set_paused`. -/
  | letSurfaceGo (keep parks : Bool)
  | surface (there : Bool)
  | surfaceChanged
  | pause (paused : Bool)
  | nudge
  | top (t : Top)
  | recv (skip : Bool) (queued : Client.Queued)
  | enter
  | render (marks : List Bool)

def Client.step (cpu : Fec.Cpu) (c : Client) : Step → Client
  | .receive body now_us =>
    match c.outbox with
    | [] =>
      let (r, events) := c.reassembler.push cpu body now_us
      { c with reassembler := r, outbox := events }
    | _ => c
  | .send reference =>
    match c.outbox with
    | e :: rest =>
      let s : Sent := ⟨e, reference⟩
      { c with outbox := rest, sent := c.sent ++ [s], queued := c.queued + if s.isFrame then 1 else 0 }
    | [] => c
  | .resize size => { c with screen := { c.screen with size } }
  | .letSurfaceGo keep parks => { c with screen := c.screen.letSurfaceGo keep parks }
  | .surface there => { c with screen := { c.screen with surface := there } }
  | .surfaceChanged => { c with screen := { c.screen with surface_gen := c.screen.surface_gen + 1 } }
  | .pause paused => { c with screen := { c.screen with paused } }
  | .nudge => { c with sent := c.sent ++ [⟨.nudge, 0⟩] }
  | .top t => if c.receiving || c.entering.isSome then c else c.top t
  | .recv skip queued => if c.receiving then c.recv skip queued else c
  | .enter => c.enter
  | .render marks => if c.output && !c.screen.released c.made then c.render marks else c

/-- A frame has what it is coded from among those queued before it into the same decoder. -/
def Has (sent : List Sent) (before : List (ℕ × ℕ)) (d i : ℕ) : Prop :=
  ∃ f, frameAt sent i = some f ∧ (f.keyframe = false →
    if f.recovery then (d, referenceAt sent i) ∈ before
    else ∃ j g, (d, j) ∈ before ∧ frameAt sent j = some g ∧ g.frame_id + 1 = f.frame_id)

/-- `ltr_decoded` names a long-term frame that a decoder has put out. -/
def Client.Names (c : Client) (d : ℕ) : Prop :=
  ∃ j f, (d, j) ∈ c.outs ∧ frameAt c.sent j = some f ∧ f.ltr = true ∧ f.frame_id = c.ltr_decoded

structure Held (c : Client) : Prop where
  has : ∀ before d i after, c.queues = before ++ (d, i) :: after → Has c.sent before d i
  /-- The last decoder that was put in place. -/
  named : c.ltr_decoded ≠ 0xFFFFFFFF → c.Names c.made
  count : c.queued = (c.sent.drop c.taken).countP Sent.isFrame

def Host (c : Client) : Step → Prop
  | .send reference =>
    ∀ f rest, c.outbox = .frame f :: rest →
      (f.recovery = true → f.keyframe = false → reference ∈ c.decoded ∧ reference < c.sent.length ∧
        ∀ j g, reference < j → frameAt c.sent j = some g → g.keyframe = false) ∧
      ∀ j g, frameAt c.sent j = some g → g.capture_us < f.capture_us
  | _ => True

section
variable {sent more : List Sent} {i : ℕ} {f : InFrame}

theorem frameAt_lt (h : frameAt sent i = some f) : i < sent.length := by
  by_contra hge
  rw [frameAt, List.getElem?_eq_none (Nat.le_of_not_lt hge)] at h
  cases h

theorem frameAt_append (h : frameAt sent i = some f) : frameAt (sent ++ more) i = some f := by
  rw [frameAt, List.getElem?_append_left (frameAt_lt h)]
  exact h

theorem frameAt_concat {s : Sent} (h : frameAt (sent ++ [s]) i = some f) :
    frameAt sent i = some f ∨ i = sent.length ∧ s.event = .frame f := by
  obtain hlt | hge := Nat.lt_or_ge i sent.length
  · rw [frameAt, List.getElem?_append_left hlt] at h
    exact .inl h
  · have hi : i = sent.length := by
      have hle := frameAt_lt h
      rw [List.length_append, List.length_singleton] at hle
      exact Nat.le_antisymm (Nat.le_of_lt_succ hle) hge
    subst hi
    refine .inr ⟨rfl, ?_⟩
    rw [frameAt, List.getElem?_append_right (Nat.le_refl _), Nat.sub_self] at h
    obtain ⟨event, reference⟩ := s
    cases event with
    | frame g => exact congrArg _ (Option.some.inj h)
    | lost first last => cases h

theorem referenceAt_append (h : i < sent.length) : referenceAt (sent ++ more) i = referenceAt sent i := by
  rw [referenceAt, referenceAt, List.getElem?_append_left h]

theorem Has.append {before : List (ℕ × ℕ)} {d : ℕ} (h : Has sent before d i) : Has (sent ++ more) before d i := by
  obtain ⟨f, hf, hneeds⟩ := h
  refine ⟨f, frameAt_append hf, fun hkey => ?_⟩
  have hneed := hneeds hkey
  split_ifs at hneed ⊢
  · rw [referenceAt_append (frameAt_lt hf)]
    exact hneed
  · obtain ⟨j, g, hj, hg, hid⟩ := hneed
    exact ⟨j, g, hj, frameAt_append hg, hid⟩

end

def nextOf (events : List Video.Event) : Option UInt32 := events.foldl (fun next e => e.after next) none

theorem nextOf_concat (events : List Video.Event) (e : Video.Event) :
    nextOf (events ++ [e]) = e.after (nextOf events) := by
  rw [nextOf, List.foldl_append]
  rfl

theorem follow_at {next last : Option UInt32} {events more : List Video.Event} {e : Video.Event}
    (h : Follow next (events ++ e :: more) last) :
    e = .nudge ∨ ∀ n, events.foldl (fun next e => e.after next) next = some n → e.first = n := by
  induction events generalizing next with
  | nil => exact h.1
  | cons e' events ih => exact ih h.2

theorem follow_nudge {next last : Option UInt32} {events more : List Video.Event}
    (h : Follow next (events ++ more) last) :
    Follow next (events ++ .nudge :: more) last := by
  induction events generalizing next with
  | nil => exact ⟨.inl rfl, h⟩
  | cons e events ih => exact ⟨h.1, ih h.2⟩

def Client.events (c : Client) : List Video.Event := c.sent.map (·.event)

/-! ## The invariant -/

/-- A frame of the decoder in place that is in flight. -/
def Client.Flies (c : Client) (e : InFlight) : Prop :=
  (c.made, e.serial) ∈ c.queues ∧ ∃ f, frameAt c.sent e.serial = some f ∧ e.pts = f.capture_us ∧
    e.frame_id = f.frame_id ∧ e.ltr = f.ltr

/-- With `Held`: what the video thread knows of the stream is so. -/
structure Inv (c : Client) : Prop extends Held c where
  follows : Follow none (c.events ++ c.outbox) c.reassembler.next
  taken_le : c.taken ≤ c.sent.length
  place : ∀ d, c.decoder = some d → d.id = c.made
  queued_le : ∀ q ∈ c.queues, q.1 ≤ c.made ∧ q.2 < c.taken
  since_le : c.since ≤ c.taken ∧ ∀ j, (c.made, j) ∈ c.queues → c.since ≤ j
  /-- In step with the stream, the last frame taken is in the decoder. -/
  link : c.awaiting_key = false → c.was_paused = false → ∀ d, c.decoder = some d →
    ∃ j f, (d.id, j) ∈ c.queues ∧ frameAt c.sent j = some f ∧ nextOf (c.events.take c.taken) = some (f.frame_id + 1)
  key : c.can_repair = true ∨ c.awaiting_key = false → ∀ d, c.decoder = some d →
    ∃ j f, (d.id, j) ∈ c.queues ∧ frameAt c.sent j = some f ∧ f.keyframe = true
  decoded_from : ∀ j ∈ c.decoded, (c.made, j) ∈ c.queues ∨ j < c.since
  repairs : ∀ i f, frameAt c.sent i = some f → f.recovery = true → f.keyframe = false →
    referenceAt c.sent i ∈ c.decoded ∧
      ∀ j g, referenceAt c.sent i < j → j < i → frameAt c.sent j = some g → g.keyframe = false
  clock : ∀ i j f g, frameAt c.sent i = some f → frameAt c.sent j = some g → i < j → f.capture_us < g.capture_us
  codec : ∀ j ∈ c.inside, (c.made, j) ∈ c.queues
  flying : ∀ e, e ∈ c.in_flight ∨ c.entering = some e → c.Flies e

section
variable {c : Client} {cpu : Fec.Cpu}

theorem Inv.onScreen (h : Inv c) (s : Screen) : Inv { c with screen := s } :=
  ⟨⟨h.has, h.named, h.count⟩, h.follows, h.taken_le, h.place, h.queued_le, h.since_le, h.link, h.key, h.decoded_from,
    h.repairs, h.clock, h.codec, h.flying⟩

theorem Inv.receive (h : Inv c) (body : List UInt8) (now_us : UInt64) : Inv (c.step cpu (.receive body now_us)) := by
  simp only [Client.step]
  split
  · rename_i hempty
    have hfollows : Follow none (c.events ++ (c.reassembler.push cpu body now_us).2)
        (c.reassembler.push cpu body now_us).1.next := by
      have hsent := h.follows
      rw [hempty, List.append_nil] at hsent
      exact hsent.append (c.reassembler.push_follow body now_us)
    exact ⟨⟨h.has, h.named, h.count⟩, hfollows, h.taken_le, h.place, h.queued_le, h.since_le, h.link, h.key,
      h.decoded_from, h.repairs, h.clock, h.codec, h.flying⟩
  · exact h

theorem Inv.sends (h : Inv c) {s : Sent} {outbox : List Video.Event}
    (hfollows : Follow none ((c.events ++ [s.event]) ++ outbox) c.reassembler.next)
    (hframe : ∀ f, s.event = .frame f → (f.recovery = true → f.keyframe = false → s.reference ∈ c.decoded ∧
        ∀ j g, s.reference < j → frameAt c.sent j = some g → g.keyframe = false) ∧
      ∀ j g, frameAt c.sent j = some g → g.capture_us < f.capture_us) :
    Inv { c with outbox, sent := c.sent ++ [s], queued := c.queued + if s.isFrame then 1 else 0 } := by
  have hevents : ({ c with outbox, sent := c.sent ++ [s], queued := c.queued + if s.isFrame then 1 else 0 } :
      Client).events = c.events ++ [s.event] := List.map_append
  have htake : (c.events ++ [s.event]).take c.taken = c.events.take c.taken := by
    refine List.take_append_of_le_length ?_
    rw [Client.events, List.length_map]
    exact h.taken_le
  have href : referenceAt (c.sent ++ [s]) c.sent.length = s.reference := by
    rw [referenceAt, List.getElem?_append_right (Nat.le_refl _), Nat.sub_self]
    rfl
  constructor
  · refine ⟨fun before d i after hq => (h.has before d i after hq).append, fun hne => ?_, ?_⟩
    · obtain ⟨j, f, hj, hf, hrest⟩ := h.named hne
      exact ⟨j, f, hj, frameAt_append hf, hrest⟩
    · dsimp only
      rw [List.drop_append_of_le_length h.taken_le, List.countP_append, h.count, List.countP_singleton]
  · rw [hevents]
    exact hfollows
  · dsimp only
    rw [List.length_append]
    exact Nat.le_trans h.taken_le (Nat.le_add_right _ _)
  · exact h.place
  · exact h.queued_le
  · exact h.since_le
  · intro hkey hpaused d hd
    obtain ⟨j, f, hj, hf, hnext⟩ := h.link hkey hpaused d hd
    rw [hevents]
    exact ⟨j, f, hj, frameAt_append hf, by rw [htake]; exact hnext⟩
  · intro hor d hd
    obtain ⟨j, f, hj, hf, hkey⟩ := h.key hor d hd
    exact ⟨j, f, hj, frameAt_append hf, hkey⟩
  · exact h.decoded_from
  · intro i f hf hrecovery hkey
    dsimp only at hf ⊢
    obtain hold | ⟨rfl, hnew⟩ := frameAt_concat hf
    · obtain ⟨hdecoded, hbetween⟩ := h.repairs i f hold hrecovery hkey
      rw [referenceAt_append (frameAt_lt hold)]
      refine ⟨hdecoded, fun j g hlj hji hg => ?_⟩
      obtain hg | ⟨rfl, -⟩ := frameAt_concat hg
      · exact hbetween j g hlj hji hg
      · exact absurd (Nat.lt_trans hji (frameAt_lt hold)) (Nat.lt_irrefl _)
    · obtain ⟨hdecoded, hlater⟩ := (hframe f hnew).1 hrecovery hkey
      rw [href]
      refine ⟨hdecoded, fun j g hlj hji hg => ?_⟩
      obtain hg | ⟨rfl, -⟩ := frameAt_concat hg
      · exact hlater j g hlj hg
      · exact absurd hji (Nat.lt_irrefl _)
  · intro i j f g hf hg hij
    obtain hg | ⟨rfl, hnew⟩ := frameAt_concat hg
    · obtain hf | ⟨rfl, -⟩ := frameAt_concat hf
      · exact h.clock i j f g hf hg hij
      · exact absurd (Nat.lt_trans hij (frameAt_lt hg)) (Nat.lt_irrefl _)
    · obtain hf | ⟨rfl, -⟩ := frameAt_concat hf
      · exact (hframe g hnew).2 i f hf
      · exact absurd hij (Nat.lt_irrefl _)
  · exact h.codec
  · intro e he
    obtain ⟨hq, f, hf, hrest⟩ := h.flying e he
    exact ⟨hq, f, frameAt_append hf, hrest⟩

theorem Inv.nudge (h : Inv c) : Inv (c.step cpu .nudge) := by
  have hsent := @Inv.sends c h ⟨.nudge, 0⟩ c.outbox (by
    rw [List.append_assoc]
    exact follow_nudge h.follows) (fun f hf => by cases hf)
  exact hsent

theorem Inv.send (h : Inv c) (reference : ℕ) (hhost : Host c (.send reference)) :
    Inv (c.step cpu (.send reference)) := by
  simp only [Client.step]
  split
  · rename_i e rest hout
    refine @Inv.sends c h ⟨e, reference⟩ rest ?_ fun f hf => ?_
    · have hfollows := h.follows
      rw [hout] at hfollows
      rw [List.append_assoc]
      exact hfollows
    · obtain ⟨hrepair, hclock⟩ := hhost f rest (by rw [hout]; exact congrArg (· :: rest) hf)
      refine ⟨fun hrecovery hkey => ?_, hclock⟩
      obtain ⟨hdecoded, -, hlater⟩ := hrepair hrecovery hkey
      exact ⟨hdecoded, hlater⟩
  · exact h

theorem Inv.letGo (h : Inv c) (d : Decoder) : Inv (c.letGo d) :=
  ⟨⟨h.has, h.named, h.count⟩, h.follows, h.taken_le, fun _ hd => (Option.some_ne_none _ hd.symm).elim, h.queued_le,
    h.since_le, fun _ _ _ hd => (Option.some_ne_none _ hd.symm).elim,
    fun _ _ hd => (Option.some_ne_none _ hd.symm).elim, h.decoded_from, h.repairs, h.clock, h.codec, h.flying⟩

theorem Inv.remake (h : Inv c) (hentering : c.entering = none) (t : Top) : Inv (c.remake t) := by
  unfold Client.remake
  dsimp only
  split_ifs
  · have hnew : ∀ j, (c.made + 1, j) ∉ c.queues := fun j hj =>
      absurd (h.queued_le _ hj).1 (Nat.not_succ_le_self c.made)
    constructor
    · exact ⟨h.has, fun hne => absurd rfl hne, h.count⟩
    · exact h.follows
    · exact h.taken_le
    · rintro d hd
      rw [← Option.some.inj hd]
    · exact fun q hq => ⟨Nat.le_succ_of_le (h.queued_le q hq).1, (h.queued_le q hq).2⟩
    · exact ⟨Nat.le_refl _, fun j hj => absurd hj (hnew j)⟩
    · exact fun hkey => Bool.noConfusion hkey
    · rintro (hrepair | hkey)
      · cases hrepair
      · cases hkey
    · intro j hj
      obtain hq | hlt := h.decoded_from j hj
      · exact .inr (h.queued_le _ hq).2
      · exact .inr (Nat.lt_of_lt_of_le hlt h.since_le.1)
    · exact h.repairs
    · exact h.clock
    · exact fun j hj => (List.not_mem_nil hj).elim
    · rintro e (he | he)
      · exact (List.not_mem_nil he).elim
      · dsimp only at he
        rw [hentering] at he
        cases he
  · exact ⟨⟨h.has, fun hne => absurd rfl hne, h.count⟩, h.follows, h.taken_le,
      fun _ hd => (Option.some_ne_none _ hd.symm).elim, h.queued_le, h.since_le, fun hkey => Bool.noConfusion hkey,
      fun _ _ hd => (Option.some_ne_none _ hd.symm).elim, h.decoded_from, h.repairs, h.clock, h.codec, h.flying⟩

theorem Inv.waits (h : Inv c) : Inv { c with
    awaiting_key := c.awaiting_key || c.was_paused && !c.screen.paused
    was_paused := c.screen.paused
    receiving := true } := by
  refine ⟨⟨h.has, h.named, h.count⟩, h.follows, h.taken_le, h.place, h.queued_le, h.since_le, ?_, ?_, h.decoded_from,
    h.repairs, h.clock, h.codec, h.flying⟩
  · intro hkey hpaused
    dsimp only at hkey hpaused
    obtain ⟨hkey, hresumed⟩ := Bool.or_eq_false_iff.mp hkey
    rw [hpaused, Bool.not_false, Bool.and_true] at hresumed
    exact h.link hkey hresumed
  · exact fun hor => h.key (hor.imp_right fun hkey => (Bool.or_eq_false_iff.mp hkey).1)

theorem Inv.top (h : Inv c) (hentering : c.entering = none) (t : Top) : Inv (c.top t) := by
  unfold Client.top
  dsimp only
  refine Inv.waits ?_
  obtain ⟨c', hc', hnone, hinv⟩ : ∃ c', c' = (match c.decoder with
      | some d =>
        let c := { c with screen := c.unpark t d }
        if c.screen.parked d.id && t.long then c.letGo d else c
      | none => c) ∧ c'.entering = none ∧ Inv c' := by
    refine ⟨_, rfl, ?_⟩
    split
    · dsimp only
      split_ifs
      · exact ⟨hentering, (h.onScreen _).letGo _⟩
      · exact ⟨hentering, h.onScreen _⟩
    · exact ⟨hentering, h⟩
  rw [← hc']
  unfold Client.ensure
  dsimp only
  split_ifs
  · exact (hinv.onScreen (c'.watch t)).remake hnone t
  · exact hinv.onScreen (c'.watch t)

/-! ### What is done with an event -/

theorem drop_taken {s : Sent} (hs : c.sent[c.taken]? = some s) :
    c.sent.drop c.taken = s :: c.sent.drop (c.taken + 1) := by
  obtain ⟨hlt, rfl⟩ := List.getElem?_eq_some_iff.mp hs
  exact List.drop_eq_getElem_cons hlt

theorem take_taken {s : Sent} (hs : c.sent[c.taken]? = some s) :
    c.events.take (c.taken + 1) = c.events.take c.taken ++ [s.event] := by
  have hevent : c.events[c.taken]? = some s.event := by rw [Client.events, List.getElem?_map, hs, Option.map_some]
  rw [List.take_add_one, hevent]
  rfl

theorem Inv.takes (h : Inv c) {s : Sent} (hs : c.sent[c.taken]? = some s) {awaiting_key can_repair : Bool}
    {queued : ℕ} (screen : Screen) (hqueued : queued = (c.sent.drop (c.taken + 1)).countP Sent.isFrame)
    (hrepair : can_repair = true → c.can_repair = true) (hkey : awaiting_key = false → c.awaiting_key = false)
    (hlink : awaiting_key = false → c.was_paused = false → s.event = .nudge) :
    Inv { c with receiving := false, taken := c.taken + 1, queued, awaiting_key, can_repair, screen } := by
  have hlt : c.taken < c.sent.length := (List.getElem?_eq_some_iff.mp hs).1
  refine ⟨⟨h.has, h.named, hqueued⟩, h.follows, hlt, h.place,
    fun q hq => ⟨(h.queued_le q hq).1, Nat.lt_succ_of_lt (h.queued_le q hq).2⟩,
    ⟨Nat.le_succ_of_le h.since_le.1, h.since_le.2⟩, fun hawaiting hpaused d hd => ?_,
    fun hor => h.key (hor.imp hrepair hkey), h.decoded_from, h.repairs, h.clock, h.codec, h.flying⟩
  obtain ⟨j, f, hj, hf, hnext⟩ := h.link (hkey hawaiting) hpaused d hd
  refine ⟨j, f, hj, hf, ?_⟩
  have htake := take_taken hs
  rw [hlink hawaiting hpaused] at htake
  exact (congrArg nextOf htake).trans ((nextOf_concat _ _).trans hnext)

theorem Inv.has_next (h : Inv c) {f : InFrame} {d : Decoder} {reference : ℕ}
    (hs : c.sent[c.taken]? = some ⟨.frame f, reference⟩) (hd : c.decoder = some d) (hpaused : c.was_paused = false)
    (hready : c.awaiting_key = false ∨ f.keyframe = true ∨ f.recovery = true ∧ c.can_repair = true) :
    Has c.sent c.queues d.id c.taken := by
  have hf : frameAt c.sent c.taken = some f := by rw [frameAt, hs]
  refine ⟨f, hf, fun hkey => ?_⟩
  have hplace := h.place d hd
  split_ifs with hrecovery
  · -- the reference came after the decoder's keyframe, so it went into the same decoder
    obtain ⟨K, g, hK, hg, hkeyK⟩ := h.key (by
      rcases hready with hready | hready | hready
      · exact .inr hready
      · rw [hkey] at hready
        cases hready
      · exact .inl hready.2) d hd
    obtain ⟨hdecoded, hbetween⟩ := h.repairs c.taken f hf hrecovery hkey
    obtain hq | hlt := h.decoded_from _ hdecoded
    · rw [hplace]
      exact hq
    · rw [hplace] at hK
      have hKlt := (h.queued_le _ hK).2
      have hno := hbetween K g (Nat.lt_of_lt_of_le hlt (h.since_le.2 K hK)) hKlt hg
      rw [hkeyK] at hno
      cases hno
  · have hawaiting : c.awaiting_key = false := by
      rcases hready with hready | hready | hready
      · exact hready
      · rw [hkey] at hready
        cases hready
      · exact absurd hready.1 hrecovery
    obtain ⟨j, g, hj, hg, hnext⟩ := h.link hawaiting hpaused d hd
    refine ⟨j, g, hj, hg, ?_⟩
    have hsplit : c.events = c.events.take c.taken ++ .frame f :: c.events.drop (c.taken + 1) :=
      calc c.events = c.events.take (c.taken + 1) ++ c.events.drop (c.taken + 1) :=
            (List.take_append_drop (c.taken + 1) c.events).symm
        _ = _ := by
            rw [take_taken hs, List.append_assoc]
            rfl
    have hfollows := h.follows
    rw [hsplit, List.append_assoc, List.cons_append] at hfollows
    obtain hnudge | hfirst := follow_at hfollows
    · cases hnudge
    · exact (hfirst _ hnext).symm

theorem Inv.queues (h : Inv c) {f : InFrame} {d : Decoder} {reference : ℕ}
    (hs : c.sent[c.taken]? = some ⟨.frame f, reference⟩) (hd : c.decoder = some d) (hpaused : c.was_paused = false)
    (hready : c.awaiting_key = false ∨ f.keyframe = true ∨ f.recovery = true ∧ c.can_repair = true)
    (screen : Screen) :
    Inv { c with
      receiving := false
      taken := c.taken + 1
      queued := c.queued - 1
      awaiting_key := false
      screen
      can_repair := c.can_repair || f.keyframe
      queues := c.queues ++ [(d.id, c.taken)]
      inside := c.inside ++ [c.taken]
      entering := some ⟨f.capture_us, f.frame_id, f.ltr, c.taken⟩ } := by
  have hlt : c.taken < c.sent.length := (List.getElem?_eq_some_iff.mp hs).1
  have hf : frameAt c.sent c.taken = some f := by rw [frameAt, hs]
  have hplace := h.place d hd
  have hlast : (d.id, c.taken) ∈ c.queues ++ [(d.id, c.taken)] := List.mem_append_right _ (List.mem_singleton_self _)
  have hmem : ∀ {q : ℕ × ℕ}, q ∈ c.queues ++ [(d.id, c.taken)] → q ∈ c.queues ∨ q = (d.id, c.taken) := fun hq =>
    (List.mem_append.mp hq).imp_right List.mem_singleton.mp
  constructor
  · refine ⟨fun before d' i after hq => ?_, h.named, ?_⟩
    · dsimp only at hq
      obtain rfl | ⟨after', x, rfl⟩ := List.eq_nil_or_concat after
      · obtain ⟨rfl, hpair⟩ := List.append_inj' hq rfl
        cases hpair
        exact h.has_next hs hd hpaused hready
      · rw [List.concat_eq_append, ← List.cons_append, ← List.append_assoc] at hq
        exact h.has before d' i after' (List.append_inj' hq rfl).1
    · dsimp only
      rw [h.count, drop_taken hs, List.countP_cons_of_pos rfl, Nat.add_sub_cancel]
  · exact h.follows
  · exact hlt
  · exact h.place
  · intro q hq
    obtain hq | rfl := hmem hq
    · exact ⟨(h.queued_le q hq).1, Nat.lt_succ_of_lt (h.queued_le q hq).2⟩
    · exact ⟨Nat.le_of_eq hplace, Nat.lt_succ_self _⟩
  · refine ⟨Nat.le_succ_of_le h.since_le.1, fun j hj => ?_⟩
    obtain hj | hj := hmem hj
    · exact h.since_le.2 j hj
    · rw [(Prod.mk.inj hj).2]
      exact h.since_le.1
  · intro _ _ d' hd'
    obtain rfl := Option.some.inj (hd.symm.trans hd')
    refine ⟨c.taken, f, hlast, hf, ?_⟩
    exact (congrArg nextOf (take_taken hs)).trans (nextOf_concat _ _)
  · intro _ d' hd'
    obtain rfl := Option.some.inj (hd.symm.trans hd')
    cases hkey : f.keyframe with
    | true => exact ⟨c.taken, f, hlast, hf, hkey⟩
    | false =>
      have hearlier : c.can_repair = true ∨ c.awaiting_key = false := by
        rw [hkey] at hready
        rcases hready with hready | hready | hready
        · exact .inr hready
        · cases hready
        · exact .inl hready.2
      obtain ⟨j, g, hj, hg⟩ := h.key hearlier d hd
      exact ⟨j, g, List.mem_append_left _ hj, hg⟩
  · exact fun j hj => (h.decoded_from j hj).imp_left (List.mem_append_left _)
  · exact h.repairs
  · exact h.clock
  · intro j hj
    obtain hj | hj := List.mem_append.mp hj
    · exact List.mem_append_left _ (h.codec j hj)
    · rw [List.mem_singleton.mp hj]
      exact hplace ▸ hlast
  · rintro e (he | he)
    · obtain ⟨hq, hrest⟩ := h.flying e (.inl he)
      exact ⟨List.mem_append_left _ hq, hrest⟩
    · rw [← Option.some.inj he]
      exact ⟨hplace ▸ hlast, f, hf, rfl, rfl, rfl⟩

theorem Inv.skips (h : Inv c) {s : Sent} (hs : c.sent[c.taken]? = some s) (hframe : s.isFrame = true) : Inv { c with
      receiving := false
      queued := c.queued - 1 - (c.sent.drop (c.taken + 1)).countP Sent.isFrame
      taken := c.sent.length
      awaiting_key := true
      can_repair := false } := by
  have hlt : c.taken < c.sent.length := (List.getElem?_eq_some_iff.mp hs).1
  refine ⟨⟨h.has, h.named, ?_⟩, h.follows, Nat.le_refl _, h.place,
    fun q hq => ⟨(h.queued_le q hq).1, Nat.lt_trans (h.queued_le q hq).2 hlt⟩,
    ⟨Nat.le_trans h.since_le.1 h.taken_le, h.since_le.2⟩, fun hkey => Bool.noConfusion hkey, ?_, h.decoded_from,
    h.repairs, h.clock, h.codec, h.flying⟩
  · dsimp only
    rw [h.count, drop_taken hs, List.countP_cons_of_pos hframe, Nat.add_sub_cancel, Nat.sub_self, List.drop_length]
    rfl
  · rintro (hrepair | hkey)
    · cases hrepair
    · cases hkey

theorem Inv.recv (h : Inv c) (skip : Bool) (queued : Client.Queued) : Inv (c.recv skip queued) := by
  unfold Client.recv
  dsimp only
  split
  · exact ⟨⟨h.has, h.named, h.count⟩, h.follows, h.taken_le, h.place, h.queued_le, h.since_le, h.link, h.key,
      h.decoded_from, h.repairs, h.clock, h.codec, h.flying⟩
  · rename_i first last reference hs
    have hqueued : c.queued = (c.sent.drop (c.taken + 1)).countP Sent.isFrame := by
      rw [h.count, drop_taken hs]
      rfl
    split_ifs with hnudge
    · exact h.takes hs c.screen hqueued id id fun _ _ => hnudge
    · exact h.takes hs c.screen hqueued id (fun hkey => Bool.noConfusion hkey) fun hkey => Bool.noConfusion hkey
  · rename_i f reference hs
    have hqueued : c.queued - 1 = (c.sent.drop (c.taken + 1)).countP Sent.isFrame := by
      rw [h.count, drop_taken hs, List.countP_cons_of_pos rfl, Nat.add_sub_cancel]
    have hwaits : ∀ {can_repair : Bool} (screen : Screen), (can_repair = true → c.can_repair = true) → Inv { c with
          receiving := false, taken := c.taken + 1, queued := c.queued - 1, awaiting_key := true, can_repair
          screen } :=
      fun screen hrepair => h.takes hs screen hqueued hrepair (fun hkey => Bool.noConfusion hkey)
        fun hkey => Bool.noConfusion hkey
    unfold Client.onFrame
    dsimp only
    split
    · exact h.skips hs rfl
    · split
      · exact hwaits c.screen id
      · rename_i d hd
        split
        · rename_i hwait
          -- only out of step does the video thread pass a frame by
          refine h.takes hs c.screen hqueued id id fun hkey hpaused => ?_
          rw [hkey, hpaused] at hwait
          cases hwait
        · rename_i hwait
          have hready : c.was_paused = false ∧
              (c.awaiting_key = false ∨ f.keyframe = true ∨ f.recovery = true ∧ c.can_repair = true) := by
            revert hwait
            cases c.was_paused <;> cases c.awaiting_key <;> cases f.keyframe <;> cases f.recovery <;>
              cases c.can_repair <;> decide
          split
          · exact h.queues hs hd hready.1 hready.2 _
          · exact hwaits c.screen fun hrepair => Bool.noConfusion hrepair
          · exact hwaits _ fun hrepair => Bool.noConfusion hrepair

theorem Inv.enter (h : Inv c) : Inv c.enter := by
  unfold Client.enter
  split
  · rename_i e he
    refine ⟨⟨h.has, h.named, h.count⟩, h.follows, h.taken_le, h.place, h.queued_le, h.since_le, h.link, h.key,
      h.decoded_from, h.repairs, h.clock, h.codec, ?_⟩
    rintro e' (he' | he')
    · obtain hold | hnew := List.mem_append.mp (List.mem_of_mem_drop he')
      · exact h.flying e' (.inl hold)
      · rw [List.mem_singleton.mp hnew]
        exact h.flying e (.inr he)
    · cases he'
  · exact h

theorem pops_spec (shown : UInt64) (skipped : List UInt64) (q : List InFlight) :
    (∀ e ∈ (Client.pops shown skipped q).1, e ∈ q ∧ e.ltr = true ∧ (e.pts = shown ∨ e.pts ∈ skipped)) ∧
      ∀ e ∈ (Client.pops shown skipped q).2, e ∈ q := by
  induction q with
  | nil => exact ⟨fun e he => (List.not_mem_nil he).elim, fun e he => he⟩
  | cons f q ih =>
    have hrest : ∀ e ∈ (Client.pops shown skipped q).1,
        e ∈ f :: q ∧ e.ltr = true ∧ (e.pts = shown ∨ e.pts ∈ skipped) := fun e he =>
      ⟨List.mem_cons_of_mem _ (ih.1 e he).1, (ih.1 e he).2⟩
    unfold Client.pops
    dsimp only
    split_ifs with hearlier hstored hshown
    · refine ⟨fun e he => ?_, fun e he => List.mem_cons_of_mem _ (ih.2 e he)⟩
      obtain rfl | he := List.mem_cons.mp he
      · obtain ⟨hltr, hskipped⟩ := Bool.and_eq_true_iff.mp hstored
        exact ⟨List.mem_cons_self, hltr, .inr (List.contains_iff_mem.mp hskipped)⟩
      · exact hrest e he
    · exact ⟨hrest, fun e he => List.mem_cons_of_mem _ (ih.2 e he)⟩
    · refine ⟨fun e he => ?_, fun e he => he⟩
      rw [List.mem_singleton.mp he]
      exact ⟨List.mem_cons_self, hshown.2, .inl hshown.1⟩
    · exact ⟨fun e he => (List.not_mem_nil he).elim, fun e he => he⟩

theorem pictures_inside {marks : List Bool} {i : ℕ} (hi : i ∈ c.pictures marks) : i ∈ c.inside := by
  obtain ⟨⟨j, b⟩, hj, rfl⟩ := List.mem_map.mp hi
  exact (List.of_mem_zip (List.mem_filter.mp hj).1).1

theorem Inv.frame (h : Inv c) {d i : ℕ} (hi : (d, i) ∈ c.queues) : ∃ f, frameAt c.sent i = some f := by
  obtain ⟨before, after, hq⟩ := List.append_of_mem hi
  obtain ⟨f, hf, -⟩ := h.has before d i after hq
  exact ⟨f, hf⟩

theorem Inv.serial (h : Inv c) {e : InFlight} {i : ℕ} (he : c.Flies e) (hi : i ∈ c.inside)
    (hpts : e.pts = c.ptsAt i) : e.serial = i := by
  obtain ⟨-, f, hf, hf', -⟩ := he
  obtain ⟨g, hg⟩ := h.frame (h.codec i hi)
  have hsame : f.capture_us = g.capture_us := by
    rw [← hf', hpts, Client.ptsAt, hg]
    rfl
  obtain hlt | heq | hlt := Nat.lt_trichotomy e.serial i
  · exact absurd (hsame ▸ h.clock _ _ f g hf hg hlt) (UInt64.lt_irrefl _)
  · exact heq
  · exact absurd (hsame ▸ h.clock _ _ g f hg hf hlt) (UInt64.lt_irrefl _)

theorem Inv.putsOut (h : Inv c) {inside pictures : List ℕ} {stored rest : List InFlight}
    (hinside : ∀ j ∈ inside, j ∈ c.inside) (hrest : ∀ e ∈ rest, e ∈ c.in_flight)
    (hstored : ∀ e ∈ stored, e ∈ c.in_flight ∧ e.ltr = true ∧ e.serial ∈ pictures) :
    Inv { c with
      inside
      in_flight := rest
      ltr_decoded := (stored.getLast?.map (·.frame_id)).getD c.ltr_decoded
      decoded := c.decoded ++ stored.map (·.serial)
      outs := c.outs ++ pictures.map fun i => (c.made, i) } := by
  constructor
  · refine ⟨h.has, fun hne => ?_, h.count⟩
    cases hlast : stored.getLast? with
    | none =>
      simp only [hlast, Option.map_none, Option.getD_none] at hne ⊢
      obtain ⟨j, f, hj, hrest⟩ := h.named hne
      exact ⟨j, f, List.mem_append_left _ hj, hrest⟩
    | some e =>
      obtain ⟨hin, hltr, hout⟩ := hstored e (List.mem_of_getLast? hlast)
      obtain ⟨-, f, hf, -, hid, hltr'⟩ := h.flying e (.inl hin)
      simp only [Option.map_some, Option.getD_some]
      exact ⟨e.serial, f, List.mem_append_right _ (List.mem_map.mpr ⟨e.serial, hout, rfl⟩), hf, hltr'.symm.trans hltr,
        hid.symm⟩
  · exact h.follows
  · exact h.taken_le
  · exact h.place
  · exact h.queued_le
  · exact h.since_le
  · exact h.link
  · exact h.key
  · intro j hj
    obtain hj | hj := List.mem_append.mp hj
    · exact h.decoded_from j hj
    · obtain ⟨e, he, rfl⟩ := List.mem_map.mp hj
      exact .inl (h.flying e (.inl (hstored e he).1)).1
  · intro i f hf hrecovery hkey
    obtain ⟨hdecoded, hbetween⟩ := h.repairs i f hf hrecovery hkey
    exact ⟨List.mem_append_left _ hdecoded, hbetween⟩
  · exact h.clock
  · exact fun j hj => h.codec j (hinside j hj)
  · rintro e (he | he)
    · exact h.flying e (.inl (hrest e he))
    · exact h.flying e (.inr he)

theorem Inv.render (h : Inv c) (marks : List Bool) : Inv (c.render marks) := by
  have hinside : ∀ j ∈ c.inside.drop marks.length, j ∈ c.inside := fun j hj => List.mem_of_mem_drop hj
  unfold Client.render
  dsimp only
  split
  · exact ⟨⟨h.has, h.named, h.count⟩, h.follows, h.taken_le, h.place, h.queued_le, h.since_le, h.link, h.key,
      h.decoded_from, h.repairs, h.clock, fun j hj => h.codec j (hinside j hj), h.flying⟩
  · rename_i shown hshown
    obtain ⟨hstored, hrest⟩ := pops_spec (c.ptsAt shown) ((c.pictures marks).dropLast.map c.ptsAt) c.in_flight
    refine h.putsOut hinside hrest fun e he => ?_
    obtain ⟨hin, hltr, hpts⟩ := hstored e he
    obtain ⟨i, hi, hpts⟩ : ∃ i ∈ c.pictures marks, e.pts = c.ptsAt i := by
      rcases hpts with hpts | hpts
      · exact ⟨shown, List.mem_of_getLast? hshown, hpts⟩
      · obtain ⟨i, hi, hpts⟩ := List.mem_map.mp hpts
        exact ⟨i, List.dropLast_subset _ hi, hpts.symm⟩
    refine ⟨hin, hltr, ?_⟩
    rw [h.serial (h.flying e (.inl hin)) (pictures_inside hi) hpts]
    exact hi

theorem Inv.step (h : Inv c) (s : Step) (hhost : Host c s) : Inv (c.step cpu s) := by
  cases s with
  | receive body now_us => exact h.receive body now_us
  | send reference => exact h.send reference hhost
  | resize size => exact h.onScreen _
  | letSurfaceGo keep parks => exact h.onScreen _
  | surface there => exact h.onScreen _
  | surfaceChanged => exact h.onScreen _
  | pause paused => exact h.onScreen _
  | nudge => exact @Inv.nudge c cpu h
  | top t =>
    simp only [Client.step]
    split_ifs with hbusy
    · exact h
    · refine h.top (Option.not_isSome_iff_eq_none.mp fun hentering => hbusy ?_) t
      rw [hentering, Bool.or_true]
  | recv skip queued =>
    simp only [Client.step]
    split_ifs
    · exact h.recv skip queued
    · exact h
  | enter => exact h.enter
  | render marks =>
    simp only [Client.step]
    split_ifs
    · exact h.render marks
    · exact h

end

theorem inv_start (buffers : List Buf) (stage surface : Bool) (size : Size) (slot : Option ℕ) :
    Inv (.start buffers stage surface size slot) where
  has before d i after hq := absurd (congrArg List.length hq) (by simp [Client.start])
  named hne := absurd rfl hne
  count := rfl
  follows _ hn := hn
  taken_le := Nat.le_refl _
  place _ hd := (Option.some_ne_none _ hd.symm).elim
  queued_le _ hq := (List.not_mem_nil hq).elim
  since_le := ⟨Nat.le_refl _, fun _ hj => (List.not_mem_nil hj).elim⟩
  link _ _ _ hd := (Option.some_ne_none _ hd.symm).elim
  key _ _ hd := (Option.some_ne_none _ hd.symm).elim
  decoded_from _ hj := (List.not_mem_nil hj).elim
  repairs _ _ hf := (Option.some_ne_none _ hf.symm).elim
  clock _ _ _ _ hf := (Option.some_ne_none _ hf.symm).elim
  codec _ hj := (List.not_mem_nil hj).elim
  flying _ he := he.elim (fun hin => (List.not_mem_nil hin).elim) fun hsome => (Option.some_ne_none _ hsome.symm).elim

/-- Whatever the app, the decoder and the codec do: each queued frame has what it needs in its decoder, `ltr_decoded`
names a long-term frame that the last decoder put in place has put out, and `queued` is the frames in the channel. -/
theorem held_of_host {cpu : Fec.Cpu} {buffers : List Buf} {stage surface : Bool} {size : Size} {slot : Option ℕ}
    {steps : List Step} (h : Along (Client.step cpu) Host (.start buffers stage surface size slot) steps) :
    ∀ done, done <+: steps → Held (run (Client.step cpu) (.start buffers stage surface size slot) done) :=
  fun _ hdone =>
    (invariant_along Inv (inv_start buffers stage surface size slot) (fun _ s hinv hhost => hinv.step s hhost)
      (h.of_prefix hdone)).toHeld

/-- A frame in a single shard. -/
def oneShard (id : UInt32) (flags : UInt8) (capture_us : UInt64) : List UInt8 :=
  ShardHeader.write
    { frame_id := id, block := 0, blocks := 1, shard := 0, k := 1, m := 0, flags, frame_len := 1, capture_us
      encode_us := 0 } ++ [7]

/-- A decoder starts at once, and shows what it puts out. -/
def Top.easy : Top :=
  { wants_async := false, unparks := true, long := false, shows := true, blank := false, again := true, starts := true
    spawns := true }

def arrives (body : List UInt8) : List Step := [.top .easy, .receive body 0, .send 0, .recv false .ok, .enter]

/-- A long-term keyframe is put out, and the Surface goes. -/
theorem held_of_host_first_picture :
    let c := run (Client.step .scalar) (.start [] false true (2, 2) none)
      (arrives (oneShard 10 3 5) ++ [.render [true], .letSurfaceGo true true])
    c.queues = [(1, 0)] ∧ Held c := by
  refine ⟨by decide +kernel, held_of_host ?_ _ List.prefix_rfl⟩
  refine ⟨trivial, trivial, fun f rest hout => ⟨fun hrecovery => ?_, fun j g hg => by cases hg⟩, trivial, trivial,
    trivial, trivial, trivial⟩
  have hfirst : (run (Client.step .scalar) (Client.start [] false true (2, 2) none)
      [.top .easy, .receive (oneShard 10 3 5) 0]).outbox = [.frame ⟨10, true, true, false, [7], 5, 0, 0⟩] := by
    decide +kernel
  have hf := Video.Event.frame.inj (List.head_eq_of_cons_eq (hout.symm.trans hfirst))
  rw [hf] at hrecovery
  cases hrecovery

/-- The Surface goes and the decoder with it, and `ltr_decoded` stays until the next pass; of two frames captured at
one time the codec loses the first, a long-term frame, and puts out the second: `ltr_decoded` names the first. -/
theorem named_not_in_place :
    (let c := run (Client.step .scalar) (.start [] false true (2, 2) none)
      (arrives (oneShard 10 3 5) ++ [.render [true], .letSurfaceGo false false])
    c.ltr_decoded = 10 ∧ c.screen.slot = none) ∧
    let c := run (Client.step .scalar) (.start [] false true (2, 2) none)
      (arrives (oneShard 10 3 5) ++ arrives (oneShard 11 0 5) ++ [.render [false, true]])
    c.ltr_decoded = 10 ∧ ¬ c.Names 1 := by
  have hname : (run (Client.step .scalar) (Client.start [] false true (2, 2) none)
      (arrives (oneShard 10 3 5) ++ arrives (oneShard 11 0 5) ++ [.render [false, true]])).ltr_decoded = 10 := by
    decide +kernel
  refine ⟨by decide +kernel, hname, ?_⟩
  rintro ⟨j, f, hout, hf, -, hid⟩
  have houts : (run (Client.step .scalar) (Client.start [] false true (2, 2) none)
      (arrives (oneShard 10 3 5) ++ arrives (oneShard 11 0 5) ++ [.render [false, true]])).outs = [(1, 1)] := by
    decide +kernel
  have hother : (frameAt (run (Client.step .scalar) (Client.start [] false true (2, 2) none)
      (arrives (oneShard 10 3 5) ++ arrives (oneShard 11 0 5) ++ [.render [false, true]])).sent 1).map (·.frame_id) =
        some 11 := by
    decide +kernel
  rw [houts] at hout
  obtain rfl := (Prod.mk.inj (List.mem_singleton.mp hout)).2
  rw [hf, Option.map_some, hid, hname] at hother
  exact absurd hother (by decide)

end Rdpio.Android.VideoLoop
