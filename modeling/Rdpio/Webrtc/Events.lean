import Rdpio.Lib.Run

/-!
# Events and their peer connections

The bridge's `run`, the dispatcher and the libwebrtc engine (`bridge.rs`, `dispatch.rs` and `engine_lw.rs` of
`crates/rdp-webrtc/src`), as far as they decide which connection a call reaches and which object id and channel a
candidate or a state event goes out with.
-/

namespace Rdpio.Webrtc.Events

open Lib

inductive Event
  | signaling
  | iceConnection
  | iceGathering
  | connection
deriving DecidableEq

structure Queued where
  conn : ℕ
  event : Event
  state : String

structure Held where
  conn : ℕ
  object_id : Option ℕ
  state : String

structure Candidate where
  conn : ℕ
  candidate : ℕ

inductive Message
  /-- The reply to a `setLocalDescription` that succeeded. -/
  | localReply
  | candidate (candidate : ℕ)
  | state (event : Event) (state : String)
  /-- A gathering event that was held back. -/
  | held (state : String)

/-- What goes out, on a channel and with an object id. -/
structure Sent where
  conn : ℕ
  channel : ℕ
  object_id : Option ℕ
  message : Message

structure Conn where
  object_id : Option ℕ
  channel : ℕ
  gathered : List ℕ
  held : ℕ
  calls : List ℕ

/-- `Redirector`, and its engine's queues. -/
structure Redirector where
  pc : Option ℕ
  pc_object_id : Option ℕ
  local_offer_set : Bool
  held_events : List Held
  candidates : List Candidate
  events : List Queued

def Redirector.new : Redirector := ⟨none, none, false, [], [], []⟩

structure State where
  redirector : Redirector
  channel : Option ℕ
  outbound : List Sent
  conns : ℕ → Conn
  count : ℕ

/-- A call on a peer connection's object. -/
inductive Call
  /-- With whether the library makes it. -/
  | createPeerConnection (object_id : Option ℕ) (made : Bool)
  | close (object_id : Option ℕ)
  | createOffer (object_id : Option ℕ) (ok : Bool)
  /-- With whether a reply is asked for, and whether the library applies it. -/
  | setLocalDescription (object_id : Option ℕ) (replies ok : Bool)
  | setRemoteDescription (object_id : Option ℕ) (replies ok : Bool)
  /-- `addTransceiver`, `createDataChannel` or `createAnswer`. -/
  | use (object_id : Option ℕ)
  /-- `getStats`, or a call on another object. -/
  | other

namespace State

variable (b : State)

def new : State := ⟨.new, none, [], fun _ => ⟨none, 0, [], 0, []⟩, 0⟩

def carryOut (object_id : Option ℕ) : State :=
  match b.redirector.pc, object_id with
  | some n, some o => { b with conns := Function.update b.conns n { b.conns n with calls := (b.conns n).calls ++ [o] } }
  | _, _ => b

/-- A message of `handle` itself about connection `n`. -/
def push (channel_id n : ℕ) (message : Message) : State :=
  { b with outbound := b.outbound ++ [⟨n, channel_id, b.redirector.pc_object_id, message⟩] }

def createPeerConnection (channel_id : ℕ) (object_id : Option ℕ) (made : Bool) : State :=
  let r : Redirector := ⟨none, object_id, false, [], [], []⟩
  if made then
    { b with
      redirector := { r with pc := some b.count }
      conns := Function.update b.conns b.count ⟨object_id, channel_id, [], 0, []⟩
      count := b.count + 1 }
  else { b with redirector := r }

def handle (channel_id : ℕ) : Call → State
  | .createPeerConnection object_id made => b.createPeerConnection channel_id object_id made
  | .close object_id =>
    let b := b.carryOut object_id
    { b with redirector := { b.redirector with pc := none, candidates := [] } }
  | .createOffer object_id ok =>
    let b := b.carryOut object_id
    if b.redirector.pc.isSome && ok then { b with redirector.local_offer_set := false } else b
  | .setLocalDescription object_id replies ok =>
    let b := b.carryOut object_id
    match b.redirector.pc with
    | some n =>
      if replies && ok then
        let b := b.push channel_id n .localReply
        let b := b.push channel_id n (.state .signaling "have-local-offer")
        let b := b.push channel_id n (.state .iceGathering "gathering")
        { b with redirector.local_offer_set := true }
      else b
    | none => b
  | .setRemoteDescription object_id replies ok =>
    let b := b.carryOut object_id
    match b.redirector.pc with
    | some n =>
      if replies && ok then
        let b := b.push channel_id n (.state .signaling "stable")
        b.push channel_id n (.state .iceConnection "checking")
      else b
    | none => b
  | .use object_id => b.carryOut object_id
  | .other => b

/-- `drain_ice`, for the current channel. -/
def drainIce : State :=
  match b.channel with
  | none => b
  | some channel_id =>
    if b.redirector.local_offer_set then
      { b with
        redirector := { b.redirector with candidates := [] }
        outbound := b.outbound ++ b.redirector.candidates.map fun c =>
          ⟨c.conn, channel_id, b.redirector.pc_object_id, .candidate c.candidate⟩ }
    else b

def sentEvent (channel_id : ℕ) (e : Queued) : Sent :=
  ⟨e.conn, channel_id, b.redirector.pc_object_id, .state e.event e.state⟩

def drainEvents : State :=
  match b.channel with
  | none => b
  | some channel_id =>
    if b.redirector.local_offer_set then
      { b with
        redirector := { b.redirector with held_events := [], events := [] }
        outbound := b.outbound ++
          (b.redirector.held_events.map (fun h => ⟨h.conn, channel_id, h.object_id, .held h.state⟩) ++
            b.redirector.events.map (b.sentEvent channel_id)) }
    else
      let gathering := b.redirector.events.filter (·.event = .iceGathering)
      { b with
        redirector := { b.redirector with
          held_events := b.redirector.held_events ++ gathering.map fun e => ⟨e.conn, b.redirector.pc_object_id, e.state⟩
          events := [] }
        conns := fun n => { b.conns n with held := (b.conns n).held + gathering.countP (·.conn = n) }
        outbound := b.outbound ++ (b.redirector.events.filter (·.event ≠ .iceGathering)).map (b.sentEvent channel_id) }

end State

inductive Step
  | create (channel_id : ℕ)
  | data (channel_id : ℕ) (call : Call)
  | close (channel_id : ℕ)
  /-- The two sweeps, which follow each message and each tick. -/
  | drainIce
  | drainEvents
  /-- The callbacks of the engine's connection, until it is dropped. -/
  | gathers (candidate : ℕ)
  | changes (event : Event) (state : String)

def State.step (b : State) : Step → State
  | .create channel_id => { b with redirector := .new, channel := some channel_id }
  | .data channel_id call => { b with channel := some channel_id }.handle channel_id call
  | .close channel_id => { b with channel := if b.channel = some channel_id then none else b.channel }
  | .drainIce => b.drainIce
  | .drainEvents => b.drainEvents
  | .gathers candidate =>
    match b.redirector.pc with
    | some n =>
      { b with
        redirector := { b.redirector with candidates := b.redirector.candidates ++ [⟨n, candidate⟩] }
        conns := Function.update b.conns n { b.conns n with gathered := (b.conns n).gathered ++ [candidate] } }
    | none => b
  | .changes event state =>
    match b.redirector.pc with
    | some n => { b with redirector := { b.redirector with events := b.redirector.events ++ [⟨n, event, state⟩] } }
    | none => b

def Message.candidate? : Message → Option ℕ
  | .candidate c => some c
  | _ => none

def Message.isHeld : Message → Bool
  | .held _ => true
  | _ => false

def Message.waits : Message → Bool
  | .candidate _ | .held _ | .state .iceGathering _ => true
  | _ => false

def candidatesOf (n : ℕ) (out : List Sent) : List ℕ := (out.filter (·.conn = n)).filterMap (·.message.candidate?)

def State.pending (b : State) (n : ℕ) : List ℕ := (b.redirector.candidates.filter (·.conn = n)).map (·.candidate)

/-- The reply to a `setLocalDescription` of the connection has gone out. -/
def Replied (n : ℕ) (out : List Sent) : Prop := ∃ e ∈ out, e.conn = n ∧ e.message = .localReply

structure Stays (b : State) : Prop where
  /-- No call that names an earlier connection is carried out on this one. -/
  calls : ∀ n < b.count, ∀ o ∈ (b.conns n).calls,
    (b.conns n).object_id = some o ∨ ∀ m < n, (b.conns m).object_id ≠ some o
  /-- What goes out has the connection's object id and goes out on its channel. -/
  sent : ∀ e ∈ b.outbound, e.object_id = (b.conns e.conn).object_id ∧ e.channel = (b.conns e.conn).channel
  /-- The candidates go out once and in order; what has not gone out waits. -/
  candidates : ∀ n < b.count, (b.conns n).gathered = candidatesOf n b.outbound ++ b.pending n
  /-- No candidate and no gathering event goes out before the reply. -/
  waits : ∀ before e after, b.outbound = before ++ e :: after → e.message.waits = true → Replied e.conn before
  /-- A gathering event that was held back goes out once, or is held back still. -/
  held : ∀ n < b.count, (b.conns n).held =
    b.outbound.countP (fun e => e.conn = n ∧ e.message.isHeld) + b.redirector.held_events.countP (·.conn = n)

/-- Once the offer is set a sweep sends what waits. -/
structure Swept (b : State) : Prop where
  candidates : ∀ n < b.count, (b.conns n).gathered = candidatesOf n b.drainIce.outbound
  held : ∀ n < b.count, (b.conns n).held = b.drainEvents.outbound.countP (fun e => e.conn = n ∧ e.message.isHeld)

/-- Connection `n` is the engine's, or something of it is queued. -/
def State.Engaged (b : State) (n : ℕ) : Prop :=
  b.redirector.pc = some n ∨ (∃ c ∈ b.redirector.candidates, c.conn = n) ∨
    (∃ e ∈ b.redirector.events, e.conn = n) ∨ ∃ h ∈ b.redirector.held_events, h.conn = n

/-- Nothing of the redirector's is lost if its connection goes. -/
def State.Settled (b : State) : Prop := b.redirector.candidates = [] ∧ b.redirector.held_events = []

def State.Own (b : State) (channel_id : ℕ) (object_id : Option ℕ) : Prop :=
  (∀ n, b.Engaged n → (b.conns n).channel = channel_id) ∧
    ∀ n, b.redirector.pc = some n → ∀ o, object_id = some o → (b.conns n).object_id = some o ∨
      ∀ m < n, (b.conns m).object_id ≠ some o

def Proper (b : State) : Step → Prop
  | .create _ => b.Settled
  | .data channel_id call =>
    match call with
    | .createPeerConnection _ _ => b.Settled
    | .close object_id => b.Own channel_id object_id ∧ b.redirector.candidates = []
    | .createOffer object_id _ => b.Own channel_id object_id
    | .setLocalDescription object_id _ _ => b.Own channel_id object_id
    | .setRemoteDescription object_id _ _ => b.Own channel_id object_id
    | .use object_id => b.Own channel_id object_id
    | .other => b.Own channel_id none
  | _ => True

/-! ## The invariant -/

/-- With `Stays`: what the redirector has is of one connection, with its object id and on its channel. -/
structure Inv (b : State) : Prop extends Stays b where
  engaged_lt : ∀ n, b.Engaged n → n < b.count
  same : ∀ n m, b.Engaged n → b.Engaged m → n = m
  ids : ∀ n, b.Engaged n → (b.conns n).object_id = b.redirector.pc_object_id
  channels : ∀ n, b.Engaged n → ∀ channel_id, b.channel = some channel_id → (b.conns n).channel = channel_id
  replied : b.redirector.local_offer_set = true → ∀ n, b.Engaged n → Replied n b.outbound
  held_ids : ∀ h ∈ b.redirector.held_events, h.object_id = (b.conns h.conn).object_id
  outbound_lt : ∀ e ∈ b.outbound, e.conn < b.count

theorem Replied.append {n : ℕ} {out : List Sent} (h : Replied n out) (more : List Sent) : Replied n (out ++ more) := by
  obtain ⟨e, he, hrest⟩ := h
  exact ⟨e, List.mem_append_left _ he, hrest⟩

theorem waits_append {out more : List Sent}
    (h : ∀ before e after, out = before ++ e :: after → e.message.waits = true → Replied e.conn before)
    (hmore : ∀ e ∈ more, e.message.waits = true → Replied e.conn out) :
    ∀ before e after, out ++ more = before ++ e :: after → e.message.waits = true → Replied e.conn before := by
  intro before e after heq hwaits
  obtain ⟨rest, rfl, hrest⟩ | ⟨rest, hout, hrest⟩ := List.append_eq_append_iff.mp heq
  · -- in what is new
    have he : e ∈ more := by simp [hrest]
    exact (hmore e he hwaits).append rest
  · rcases rest with - | ⟨e', rest⟩
    · rw [List.append_nil] at hout
      rw [List.nil_append] at hrest
      rw [← hout]
      exact hmore e (by simp [← hrest]) hwaits
    · obtain ⟨rfl, -⟩ := List.cons_eq_cons.mp hrest
      exact h before e rest hout hwaits

section
variable {b b' : State}

theorem Inv.keep (h : Inv b) (hconns : b'.conns = b.conns) (hcount : b'.count = b.count)
    (hout : b'.outbound = b.outbound) (hcandidates : b'.redirector.candidates = b.redirector.candidates)
    (hheld : b'.redirector.held_events = b.redirector.held_events)
    (hengaged : ∀ n, b'.Engaged n → b.Engaged n)
    (hids : ∀ n, b'.Engaged n → b'.redirector.pc_object_id = b.redirector.pc_object_id)
    (hflag : b'.redirector.local_offer_set = true → b.redirector.local_offer_set = true)
    (hchannels : ∀ n, b'.Engaged n → ∀ channel_id, b'.channel = some channel_id → (b.conns n).channel = channel_id) :
    Inv b' where
  calls := by
    rw [hconns, hcount]
    exact h.calls
  sent := by
    rw [hconns, hout]
    exact h.sent
  candidates := by
    rw [hconns, hcount, hout]
    unfold State.pending
    rw [hcandidates]
    exact h.candidates
  waits := by
    rw [hout]
    exact h.waits
  held := by
    rw [hconns, hcount, hout, hheld]
    exact h.held
  engaged_lt n hn := by
    rw [hcount]
    exact h.engaged_lt n (hengaged n hn)
  same n m hn hm := h.same n m (hengaged n hn) (hengaged m hm)
  ids n hn := by
    rw [hconns, hids n hn]
    exact h.ids n (hengaged n hn)
  channels := by
    rw [hconns]
    exact hchannels
  replied hset n hn := by
    rw [hout]
    exact h.replied (hflag hset) n (hengaged n hn)
  held_ids := by
    rw [hconns, hheld]
    exact h.held_ids
  outbound_lt := by
    rw [hout, hcount]
    exact h.outbound_lt

theorem Inv.emit (h : Inv b) {out : List Sent} (hconns : b'.conns = b.conns) (hcount : b'.count = b.count)
    (hout : b'.outbound = b.outbound ++ out) (hchannel : b'.channel = b.channel)
    (hids : b'.redirector.pc_object_id = b.redirector.pc_object_id)
    (hflag : b'.redirector.local_offer_set = b.redirector.local_offer_set)
    (hengaged : ∀ n, b'.Engaged n → b.Engaged n)
    (hheldIds : ∀ e ∈ b'.redirector.held_events, e ∈ b.redirector.held_events)
    (hsent : ∀ e ∈ out, b.Engaged e.conn ∧ b.channel = some e.channel ∧ e.object_id = (b.conns e.conn).object_id)
    (hwaits : ∀ e ∈ out, e.message.waits = true → Replied e.conn b.outbound)
    (hcandidates : ∀ n, b.pending n = candidatesOf n out ++ b'.pending n)
    (hheld : ∀ n, b.redirector.held_events.countP (·.conn = n) =
      out.countP (fun e => e.conn = n ∧ e.message.isHeld) + b'.redirector.held_events.countP (·.conn = n)) :
    Inv b' where
  calls := by
    rw [hconns, hcount]
    exact h.calls
  sent e he := by
    rw [hconns]
    obtain he | he := List.mem_append.mp (hout ▸ he)
    · exact h.sent e he
    · obtain ⟨hn, hch, hid⟩ := hsent e he
      exact ⟨hid, (h.channels e.conn hn e.channel hch).symm⟩
  candidates n hn := by
    rw [hcount] at hn
    rw [hconns, hout, h.candidates n hn, hcandidates n, ← List.append_assoc]
    unfold candidatesOf
    rw [List.filter_append, List.filterMap_append]
  waits := by
    rw [hout]
    exact waits_append h.waits hwaits
  held n hn := by
    rw [hcount] at hn
    rw [hconns, hout, h.held n hn, hheld n, List.countP_append, Nat.add_assoc]
  engaged_lt n hn := by
    rw [hcount]
    exact h.engaged_lt n (hengaged n hn)
  same n m hn hm := h.same n m (hengaged n hn) (hengaged m hm)
  ids n hn := by
    rw [hconns, hids]
    exact h.ids n (hengaged n hn)
  channels n hn channel_id hch := by
    rw [hconns]
    exact h.channels n (hengaged n hn) channel_id (hchannel ▸ hch)
  replied hset n hn := by
    rw [hout]
    exact (h.replied (hflag ▸ hset) n (hengaged n hn)).append out
  held_ids e he := by
    rw [hconns]
    exact h.held_ids e (hheldIds e he)
  outbound_lt e he := by
    rw [hcount]
    obtain he | he := List.mem_append.mp (hout ▸ he)
    · exact h.outbound_lt e he
    · exact h.engaged_lt _ (hsent e he).1

theorem Inv.push (h : Inv b) {n channel_id : ℕ} (message : Message) (hn : b.Engaged n)
    (hchannel : b.channel = some channel_id) (hcandidate : message.candidate? = none)
    (hheld : message.isHeld = false) (hwaits : message.waits = true → Replied n b.outbound) :
    Inv (b.push channel_id n message) := by
  refine @Inv.emit b (b.push channel_id n message) h _ rfl rfl rfl rfl rfl rfl (fun _ => id) (fun _ => id) ?_ ?_ ?_ ?_
  · intro e he
    rw [List.mem_singleton.mp he]
    exact ⟨hn, hchannel, (h.ids n hn).symm⟩
  · intro e he
    rw [List.mem_singleton.mp he]
    exact hwaits
  · intro m
    by_cases hm : n = m
    · simp [candidatesOf, State.pending, State.push, hm, hcandidate]
    · simp [candidatesOf, State.pending, State.push, hm]
  · intro m
    simp [State.push, hheld]

theorem Inv.requeue (h : Inv b) (hcount : b'.count = b.count) (hout : b'.outbound = b.outbound)
    (hchannel : b'.channel = b.channel) (hids : b'.redirector.pc_object_id = b.redirector.pc_object_id)
    (hflag : b'.redirector.local_offer_set = b.redirector.local_offer_set)
    (hengaged : ∀ n, b'.Engaged n → b.Engaged n)
    (hconns : ∀ n, (b'.conns n).object_id = (b.conns n).object_id ∧ (b'.conns n).channel = (b.conns n).channel)
    (hcalls : ∀ n < b.count, ∀ o ∈ (b'.conns n).calls,
      (b.conns n).object_id = some o ∨ ∀ m < n, (b.conns m).object_id ≠ some o)
    (hcandidates : ∀ n < b.count, (b'.conns n).gathered = candidatesOf n b.outbound ++ b'.pending n)
    (hheld : ∀ n < b.count, (b'.conns n).held =
      b.outbound.countP (fun e => e.conn = n ∧ e.message.isHeld) + b'.redirector.held_events.countP (·.conn = n))
    (hheldIds : ∀ e ∈ b'.redirector.held_events, e.object_id = (b.conns e.conn).object_id) : Inv b' where
  calls n hn o ho := by
    rw [hcount] at hn
    rw [(hconns n).1]
    refine (hcalls n hn o ho).imp_right fun hall m hm => ?_
    rw [(hconns m).1]
    exact hall m hm
  sent e he := by
    rw [(hconns e.conn).1, (hconns e.conn).2]
    exact h.sent e (hout ▸ he)
  candidates n hn := by
    rw [hout]
    exact hcandidates n (hcount ▸ hn)
  waits := by
    rw [hout]
    exact h.waits
  held n hn := by
    rw [hout]
    exact hheld n (hcount ▸ hn)
  engaged_lt n hn := by
    rw [hcount]
    exact h.engaged_lt n (hengaged n hn)
  same n m hn hm := h.same n m (hengaged n hn) (hengaged m hm)
  ids n hn := by
    rw [(hconns n).1, hids]
    exact h.ids n (hengaged n hn)
  channels n hn channel_id hch := by
    rw [(hconns n).2]
    exact h.channels n (hengaged n hn) channel_id (hchannel ▸ hch)
  replied hset n hn := by
    rw [hout]
    exact h.replied (hflag ▸ hset) n (hengaged n hn)
  held_ids e he := by
    rw [(hconns e.conn).1]
    exact hheldIds e he
  outbound_lt e he := by
    rw [hcount]
    exact h.outbound_lt e (hout ▸ he)

theorem Inv.carryOut (h : Inv b) {object_id : Option ℕ}
    (hown : ∀ n, b.redirector.pc = some n → ∀ o, object_id = some o → (b.conns n).object_id = some o ∨
      ∀ m < n, (b.conns m).object_id ≠ some o) : Inv (b.carryOut object_id) := by
  unfold State.carryOut
  split
  · rename_i n o hpc
    -- only the calls of connection `n` change
    have hconn : ∀ {β : Type} (f : Conn → β), (∀ c calls, f { c with calls } = f c) → ∀ m,
        f (Function.update b.conns n { b.conns n with calls := (b.conns n).calls ++ [o] } m) = f (b.conns m) := by
      intro β f hf m
      by_cases hm : m = n
      · rw [hm, Function.update_self, hf]
      · rw [Function.update_of_ne hm]
    refine h.requeue rfl rfl rfl rfl rfl (fun _ => id)
      (fun m => ⟨hconn Conn.object_id (fun _ _ => rfl) m, hconn Conn.channel (fun _ _ => rfl) m⟩) ?_ ?_ ?_ h.held_ids
    · intro m hm o' ho'
      dsimp only at ho'
      by_cases hmn : m = n
      · subst hmn
        rw [Function.update_self] at ho'
        obtain hold | hnew := List.mem_append.mp ho'
        · exact h.calls m hm o' hold
        · rw [List.mem_singleton.mp hnew]
          exact hown m hpc o rfl
      · rw [Function.update_of_ne hmn] at ho'
        exact h.calls m hm o' ho'
    · exact fun m hm => (hconn Conn.gathered (fun _ _ => rfl) m).trans (h.candidates m hm)
    · exact fun m hm => (hconn Conn.held (fun _ _ => rfl) m).trans (h.held m hm)
  · exact h

theorem Inv.gathers (h : Inv b) (c : ℕ) : Inv (b.step (.gathers c)) := by
  simp only [State.step]
  split
  · rename_i n hpc
    have hconn : ∀ {β : Type} (f : Conn → β), (∀ c gathered, f { c with gathered } = f c) → ∀ m,
        f (Function.update b.conns n { b.conns n with gathered := (b.conns n).gathered ++ [c] } m) = f (b.conns m) := by
      intro β f hf m
      by_cases hm : m = n
      · rw [hm, Function.update_self, hf]
      · rw [Function.update_of_ne hm]
    refine h.requeue rfl rfl rfl rfl rfl ?_
      (fun m => ⟨hconn Conn.object_id (fun _ _ => rfl) m, hconn Conn.channel (fun _ _ => rfl) m⟩) ?_ ?_ ?_ h.held_ids
    · rintro m (hm | ⟨q, hq, hqm⟩ | hrest)
      · exact .inl hm
      · obtain hq | hq := List.mem_append.mp hq
        · exact .inr (.inl ⟨q, hq, hqm⟩)
        · rw [List.mem_singleton.mp hq] at hqm
          exact .inl (hqm ▸ hpc)
      · exact .inr (.inr hrest)
    · intro m hm
      rw [hconn Conn.calls (fun _ _ => rfl) m]
      exact h.calls m hm
    · intro m hm
      by_cases hmn : m = n
      · subst hmn
        simp [State.pending, h.candidates m hm]
      · have hne : n ≠ m := fun heq => hmn heq.symm
        simp [State.pending, h.candidates m hm, Function.update_of_ne hmn, hne]
    · exact fun m hm => (hconn Conn.held (fun _ _ => rfl) m).trans (h.held m hm)
  · exact h

theorem Inv.changes (h : Inv b) (event : Event) (state : String) : Inv (b.step (.changes event state)) := by
  simp only [State.step]
  split
  · rename_i n hpc
    have hengaged : ∀ m, ({ b with redirector := { b.redirector with
        events := b.redirector.events ++ [⟨n, event, state⟩] } } : State).Engaged m → b.Engaged m := by
      rintro m (hm | hm | ⟨q, hq, hqm⟩ | hm)
      · exact .inl hm
      · exact .inr (.inl hm)
      · obtain hq | hq := List.mem_append.mp hq
        · exact .inr (.inr (.inl ⟨q, hq, hqm⟩))
        · rw [List.mem_singleton.mp hq] at hqm
          exact .inl (hqm ▸ hpc)
      · exact .inr (.inr (.inr hm))
    exact h.keep rfl rfl rfl rfl rfl hengaged (fun _ _ => rfl) id fun m hm => h.channels m (hengaged m hm)
  · exact h

theorem Inv.drainIce (h : Inv b) : Inv b.drainIce := by
  unfold State.drainIce
  split
  · exact h
  · rename_i channel_id hchannel
    split_ifs with hset
    · refine h.emit rfl rfl rfl rfl rfl rfl ?_ (fun _ => id) ?_ ?_ ?_ ?_
      · rintro m (hm | ⟨q, hq, -⟩ | hrest)
        · exact .inl hm
        · cases hq
        · exact .inr (.inr hrest)
      · intro e he
        obtain ⟨c, hc, rfl⟩ := List.mem_map.mp he
        have hn : b.Engaged c.conn := .inr (.inl ⟨c, hc, rfl⟩)
        exact ⟨hn, hchannel, (h.ids _ hn).symm⟩
      · intro e he _
        obtain ⟨c, hc, rfl⟩ := List.mem_map.mp he
        exact h.replied hset _ (.inr (.inl ⟨c, hc, rfl⟩))
      · intro n
        simp [State.pending, candidatesOf, List.filter_map, Function.comp_def, List.filterMap_map, Message.candidate?]
      · intro n
        simp [List.countP_map, Function.comp_def, Message.isHeld]
    · exact h

theorem Inv.hold (h : Inv b) : Inv { b with
    redirector := { b.redirector with
      held_events := b.redirector.held_events ++
        (b.redirector.events.filter (·.event = .iceGathering)).map fun e => ⟨e.conn, b.redirector.pc_object_id, e.state⟩
      events := b.redirector.events.filter (·.event ≠ .iceGathering) }
    conns := fun n => { b.conns n with
      held := (b.conns n).held + (b.redirector.events.filter (·.event = .iceGathering)).countP (·.conn = n) } } := by
  have hgathering : ∀ e ∈ b.redirector.events.filter (·.event = .iceGathering), b.Engaged e.conn := fun e he =>
    .inr (.inr (.inl ⟨e, (List.mem_filter.mp he).1, rfl⟩))
  refine h.requeue rfl rfl rfl rfl rfl ?_ (fun _ => ⟨rfl, rfl⟩) h.calls h.candidates ?_ ?_
  · rintro m (hm | hm | ⟨q, hq, hqm⟩ | ⟨q, hq, hqm⟩)
    · exact .inl hm
    · exact .inr (.inl hm)
    · exact .inr (.inr (.inl ⟨q, (List.mem_filter.mp hq).1, hqm⟩))
    · obtain hq | hq := List.mem_append.mp hq
      · exact .inr (.inr (.inr ⟨q, hq, hqm⟩))
      · obtain ⟨e, he, rfl⟩ := List.mem_map.mp hq
        exact hqm ▸ hgathering e he
  · intro n hn
    dsimp only
    rw [h.held n hn, List.countP_append, List.countP_map, Nat.add_assoc]
    rfl
  · intro e he
    obtain he | he := List.mem_append.mp he
    · exact h.held_ids e he
    · obtain ⟨q, hq, rfl⟩ := List.mem_map.mp he
      exact (h.ids _ (hgathering q hq)).symm

theorem Inv.drainEvents (h : Inv b) : Inv b.drainEvents := by
  unfold State.drainEvents
  split
  · exact h
  · rename_i channel_id hchannel
    have hengaged : ∀ e ∈ b.redirector.events, b.Engaged e.conn := fun e he => .inr (.inr (.inl ⟨e, he, rfl⟩))
    have hnone : ∀ (n : ℕ) (events : List Queued), candidatesOf n (events.map (b.sentEvent channel_id)) = [] ∧
        (events.map (b.sentEvent channel_id)).countP (fun e => e.conn = n ∧ e.message.isHeld) = 0 := by
      intro n events
      constructor
      · simp [candidatesOf, State.sentEvent, Message.candidate?]
      · simp [List.countP_eq_zero, State.sentEvent, Message.isHeld]
    split_ifs with hset
    · have hheld : ∀ q ∈ b.redirector.held_events, b.Engaged q.conn := fun q hq =>
        .inr (.inr (.inr ⟨q, hq, rfl⟩))
      refine h.emit rfl rfl rfl rfl rfl rfl ?_ ?_ ?_ ?_ ?_ ?_
      · rintro m (hm | hm | ⟨q, hq, -⟩ | ⟨q, hq, -⟩)
        · exact .inl hm
        · exact .inr (.inl hm)
        · cases hq
        · cases hq
      · intro e he
        cases he
      · intro e he
        obtain he | he := List.mem_append.mp he
        · obtain ⟨q, hq, rfl⟩ := List.mem_map.mp he
          exact ⟨hheld q hq, hchannel, h.held_ids q hq⟩
        · obtain ⟨q, hq, rfl⟩ := List.mem_map.mp he
          exact ⟨hengaged q hq, hchannel, (h.ids _ (hengaged q hq)).symm⟩
      · intro e he _
        obtain he | he := List.mem_append.mp he
        · obtain ⟨q, hq, rfl⟩ := List.mem_map.mp he
          exact h.replied hset _ (hheld q hq)
        · obtain ⟨q, hq, rfl⟩ := List.mem_map.mp he
          exact h.replied hset _ (hengaged q hq)
      · intro n
        have hcandidates : candidatesOf n (b.redirector.held_events.map fun q =>
            (⟨q.conn, channel_id, q.object_id, .held q.state⟩ : Sent)) = [] := by
          simp [candidatesOf, Message.candidate?]
        have happend : ∀ as bs, candidatesOf n (as ++ bs) = candidatesOf n as ++ candidatesOf n bs := fun as bs => by
          unfold candidatesOf
          rw [List.filter_append, List.filterMap_append]
        rw [happend, hcandidates, (hnone n _).1]
        rfl
      · intro n
        rw [List.countP_append, (hnone n _).2]
        simp [List.countP_map, Function.comp_def, Message.isHeld]
    · refine h.hold.emit rfl rfl rfl rfl rfl rfl ?_ (fun _ => id) ?_ ?_ ?_ ?_
      · rintro m (hm | hm | ⟨q, hq, -⟩ | hm)
        · exact .inl hm
        · exact .inr (.inl hm)
        · cases hq
        · exact .inr (.inr (.inr hm))
      · intro e he
        obtain ⟨q, hq, rfl⟩ := List.mem_map.mp he
        exact ⟨.inr (.inr (.inl ⟨q, hq, rfl⟩)), hchannel, (h.ids _ (hengaged q (List.mem_filter.mp hq).1)).symm⟩
      · intro e he hwaits
        obtain ⟨q, hq, rfl⟩ := List.mem_map.mp he
        have hother : q.event ≠ .iceGathering := of_decide_eq_true (List.mem_filter.mp hq).2
        unfold State.sentEvent Message.waits at hwaits
        cases hevent : q.event <;> simp_all
      · intro n
        rw [(hnone n _).1]
        rfl
      · intro n
        rw [(hnone n _).2, Nat.zero_add]

theorem Inv.leave (h : Inv b) (hsettled : b.Settled) {r : Redirector} (hpc : r.pc = none)
    (hcandidates : r.candidates = []) (hevents : r.events = []) (hheld : r.held_events = [])
    (hset : r.local_offer_set = false) (channel : Option ℕ) :
    Inv { b with redirector := r, channel } ∧ ∀ n, ¬({ b with redirector := r, channel } : State).Engaged n := by
  have hnone : ∀ n, ¬({ b with redirector := r, channel } : State).Engaged n := by
    rintro n (hn | ⟨q, hq, -⟩ | ⟨q, hq, -⟩ | ⟨q, hq, -⟩)
    · rw [hpc] at hn
      cases hn
    · rw [hcandidates] at hq
      cases hq
    · rw [hevents] at hq
      cases hq
    · rw [hheld] at hq
      cases hq
  refine ⟨h.keep rfl rfl rfl (hcandidates.trans hsettled.1.symm) (hheld.trans hsettled.2.symm)
    (fun n hn => absurd hn (hnone n)) (fun n hn => absurd hn (hnone n)) (fun hyes => ?_)
    (fun n hn => absurd hn (hnone n)), hnone⟩
  rw [hset] at hyes
  cases hyes

theorem Inv.connect (h : Inv b) (hnone : ∀ n, ¬b.Engaged n) {object_id : Option ℕ} {channel_id : ℕ}
    (hid : b.redirector.pc_object_id = object_id) (hset : b.redirector.local_offer_set = false)
    (hchannel : b.channel = some channel_id) :
    Inv { b with
      redirector := { b.redirector with pc := some b.count }
      conns := Function.update b.conns b.count ⟨object_id, channel_id, [], 0, []⟩
      count := b.count + 1 } := by
  have hold : ∀ n < b.count, Function.update b.conns b.count ⟨object_id, channel_id, [], 0, []⟩ n = b.conns n :=
    fun n hn => Function.update_of_ne (Nat.ne_of_lt hn) ..
  have hnew : ∀ n, ({ b with
      redirector := { b.redirector with pc := some b.count }
      conns := Function.update b.conns b.count ⟨object_id, channel_id, [], 0, []⟩
      count := b.count + 1 } : State).Engaged n → n = b.count := by
    rintro n (hn | hn)
    · exact (Option.some.inj hn).symm
    · exact absurd (.inr hn) (hnone n)
  have hcandidates : b.redirector.candidates = [] := by
    refine List.eq_nil_iff_forall_not_mem.mpr fun q hq => hnone q.conn (.inr (.inl ⟨q, hq, rfl⟩))
  have hheld : b.redirector.held_events = [] := by
    refine List.eq_nil_iff_forall_not_mem.mpr fun q hq => hnone q.conn (.inr (.inr (.inr ⟨q, hq, rfl⟩)))
  have hsilent : ∀ e ∈ b.outbound, e.conn ≠ b.count := fun e he => Nat.ne_of_lt (h.outbound_lt e he)
  constructor
  · constructor
    · intro n hn o ho
      obtain hn | rfl := Nat.lt_succ_iff_lt_or_eq.mp hn
      · dsimp only at ho ⊢
        rw [hold n hn] at ho ⊢
        refine (h.calls n hn o ho).imp_right fun hall m hm => ?_
        rw [hold m (Nat.lt_trans hm hn)]
        exact hall m hm
      · dsimp only at ho
        rw [Function.update_self] at ho
        cases ho
    · intro e he
      dsimp only
      rw [hold _ (h.outbound_lt e he)]
      exact h.sent e he
    · intro n hn
      obtain hn | rfl := Nat.lt_succ_iff_lt_or_eq.mp hn
      · dsimp only
        rw [hold n hn]
        exact h.candidates n hn
      · have hfilter : b.outbound.filter (·.conn = b.count) = [] :=
          List.filter_eq_nil_iff.mpr fun e he => by simpa using hsilent e he
        simp [candidatesOf, State.pending, hfilter, hcandidates]
    · exact h.waits
    · intro n hn
      obtain hn | rfl := Nat.lt_succ_iff_lt_or_eq.mp hn
      · dsimp only
        rw [hold n hn]
        exact h.held n hn
      · have hzero : b.outbound.countP (fun e => e.conn = b.count ∧ e.message.isHeld) = 0 :=
          List.countP_eq_zero.mpr fun e he => by simp [hsilent e he]
        simp only [Function.update_self, hzero, hheld, List.countP_nil]
  · intro n hn
    rw [hnew n hn]
    exact Nat.lt_succ_self _
  · intro n m hn hm
    rw [hnew n hn, hnew m hm]
  · intro n hn
    dsimp only
    rw [hnew n hn, Function.update_self, hid]
  · intro n hn ch hch
    dsimp only
    rw [hnew n hn, Function.update_self]
    exact Option.some.inj (hchannel.symm.trans hch)
  · intro hyes
    dsimp only at hyes
    rw [hset] at hyes
    cases hyes
  · intro e he
    dsimp only at he
    rw [hheld] at he
    cases he
  · exact fun e he => Nat.lt_succ_of_lt (h.outbound_lt e he)

theorem Inv.onChannel (h : Inv b) {channel_id : ℕ} (hown : ∀ n, b.Engaged n → (b.conns n).channel = channel_id) :
    Inv { b with channel := some channel_id } :=
  h.keep rfl rfl rfl rfl rfl (fun _ => id) (fun _ _ => rfl) id fun n hn ch hch => by
    rw [hown n hn, Option.some.inj hch]

end

theorem carryOut_redirector (b : State) (object_id : Option ℕ) :
    (b.carryOut object_id).redirector = b.redirector ∧ (b.carryOut object_id).channel = b.channel := by
  unfold State.carryOut
  split <;> exact ⟨rfl, rfl⟩

theorem Inv.handle {b : State} (h : Inv b) {channel_id : ℕ} (hchannel : b.channel = some channel_id) {call : Call}
    (hproper : Proper b (.data channel_id call)) : Inv (b.handle channel_id call) := by
  have hcarry : ∀ {object_id : Option ℕ}, b.Own channel_id object_id →
      Inv (b.carryOut object_id) ∧ (b.carryOut object_id).redirector = b.redirector ∧
        (b.carryOut object_id).channel = some channel_id := fun {object_id} hown =>
    ⟨h.carryOut hown.2, (carryOut_redirector b object_id).1, (carryOut_redirector b object_id).2.trans hchannel⟩
  cases call with
  | createPeerConnection object_id made =>
    obtain ⟨hleft, hnone⟩ := @Inv.leave b h hproper ⟨none, object_id, false, [], [], []⟩ rfl rfl rfl rfl rfl b.channel
    simp only [State.handle, State.createPeerConnection]
    split_ifs
    · exact hleft.connect hnone rfl rfl hchannel
    · exact hleft
  | close object_id =>
    obtain ⟨hown, hcandidates⟩ := hproper
    obtain ⟨hb, hr, -⟩ := hcarry hown
    have hengaged : ∀ n, ({ b.carryOut object_id with redirector := { (b.carryOut object_id).redirector with
        pc := none, candidates := [] } } : State).Engaged n → (b.carryOut object_id).Engaged n := by
      rintro n (hn | ⟨q, hq, -⟩ | hn)
      · cases hn
      · cases hq
      · exact .inr (.inr hn)
    have hempty : (b.carryOut object_id).redirector.candidates = [] := by
      rw [hr]
      exact hcandidates
    exact hb.keep rfl rfl rfl hempty.symm rfl hengaged (fun _ _ => rfl) id fun n hn => hb.channels n (hengaged n hn)
  | createOffer object_id ok =>
    obtain ⟨hb, -, -⟩ := hcarry hproper
    simp only [State.handle]
    split_ifs
    · exact hb.keep rfl rfl rfl rfl rfl (fun _ => id) (fun _ _ => rfl) (fun h => Bool.noConfusion h)
        fun n hn => hb.channels n hn
    · exact hb
  | setLocalDescription object_id replies ok =>
    obtain ⟨hb, -, hch⟩ := hcarry hproper
    simp only [State.handle]
    split
    · rename_i n hpc
      split_ifs
      · have hn : (b.carryOut object_id).Engaged n := .inl hpc
        have hreply := hb.push .localReply hn hch rfl rfl fun h => Bool.noConfusion h
        have hreplied : Replied n ((b.carryOut object_id).push channel_id n .localReply).outbound :=
          ⟨_, List.mem_append_right _ (List.mem_singleton_self _), rfl, rfl⟩
        have hsignaling := hreply.push (.state .signaling "have-local-offer") hn hch rfl rfl fun h => Bool.noConfusion h
        have hgathering := hsignaling.push (.state .iceGathering "gathering") hn hch rfl rfl fun _ => hreplied.append _
        -- the reply is out, so what waits may follow
        exact { hgathering with
          replied := fun _ m hm => by
            rw [hgathering.same m n hm hn]
            exact (hreplied.append _).append _ }
      · exact hb
    · exact hb
  | setRemoteDescription object_id replies ok =>
    obtain ⟨hb, -, hch⟩ := hcarry hproper
    simp only [State.handle]
    split
    · rename_i n hpc
      split_ifs
      · have hn : (b.carryOut object_id).Engaged n := .inl hpc
        have hsignaling := hb.push (.state .signaling "stable") hn hch rfl rfl fun h => Bool.noConfusion h
        exact hsignaling.push (.state .iceConnection "checking") hn hch rfl rfl fun h => Bool.noConfusion h
      · exact hb
    · exact hb
  | use object_id => exact (hcarry hproper).1
  | other => exact h

theorem not_engaged_new (n : ℕ) : ¬State.new.Engaged n := by
  rintro (hn | ⟨q, hq, -⟩ | ⟨q, hq, -⟩ | ⟨q, hq, -⟩)
  · cases hn
  · cases hq
  · cases hq
  · cases hq

theorem inv_new : Inv .new where
  calls _ hn := (Nat.not_lt_zero _ hn).elim
  sent _ he := (List.not_mem_nil he).elim
  candidates _ hn := (Nat.not_lt_zero _ hn).elim
  waits before e after h := by
    have hmem : e ∈ State.new.outbound := by rw [h]; simp
    exact (List.not_mem_nil hmem).elim
  held _ hn := (Nat.not_lt_zero _ hn).elim
  engaged_lt n hn := (not_engaged_new n hn).elim
  same n _ hn := (not_engaged_new n hn).elim
  ids n hn := (not_engaged_new n hn).elim
  channels n hn := (not_engaged_new n hn).elim
  replied h := Bool.noConfusion h
  held_ids _ he := (List.not_mem_nil he).elim
  outbound_lt _ he := (List.not_mem_nil he).elim

theorem Inv.step {b : State} (h : Inv b) (s : Step) (hproper : Proper b s) : Inv (b.step s) := by
  cases s with
  | create channel_id => exact (h.leave hproper rfl rfl rfl rfl rfl (some channel_id)).1
  | data channel_id call =>
    have hcall : Proper { b with channel := some channel_id } (.data channel_id call) := by
      cases call <;> exact hproper
    by_cases hnew : ∃ object_id made, call = .createPeerConnection object_id made
    · -- what the last connection had is gone before the channel matters
      obtain ⟨object_id, made, rfl⟩ := hnew
      obtain ⟨hleft, hnone⟩ := @Inv.leave b h hproper ⟨none, object_id, false, [], [], []⟩ rfl rfl rfl rfl rfl
        (some channel_id)
      simp only [State.step, State.handle, State.createPeerConnection]
      split_ifs
      · exact hleft.connect hnone rfl rfl rfl
      · exact hleft
    · have hown : ∀ n, b.Engaged n → (b.conns n).channel = channel_id := by
        cases call with
        | createPeerConnection object_id made => exact absurd ⟨object_id, made, rfl⟩ hnew
        | close object_id => exact hproper.1.1
        | createOffer object_id ok => exact hproper.1
        | setLocalDescription object_id replies ok => exact hproper.1
        | setRemoteDescription object_id replies ok => exact hproper.1
        | use object_id => exact hproper.1
        | other => exact hproper.1
      exact (h.onChannel hown).handle rfl hcall
  | close channel_id =>
    refine h.keep rfl rfl rfl rfl rfl (fun _ => id) (fun _ _ => rfl) id fun n hn ch hch => h.channels n hn ch ?_
    simp only [State.step] at hch
    split_ifs at hch
    exact hch
  | drainIce => exact h.drainIce
  | drainEvents => exact h.drainEvents
  | gathers candidate => exact h.gathers candidate
  | changes event state => exact h.changes event state

theorem Inv.swept {b : State} (h : Inv b) (hchannel : b.channel.isSome)
    (hset : b.redirector.local_offer_set = true) : Swept b := by
  obtain ⟨channel_id, hch⟩ := Option.isSome_iff_exists.mp hchannel
  constructor
  · intro n hn
    have hgathered := h.drainIce.candidates n
    unfold State.drainIce at hgathered ⊢
    simp only [hch, if_pos hset] at hgathered ⊢
    simpa [State.pending] using hgathered hn
  · intro n hn
    have hheld := h.drainEvents.held n
    unfold State.drainEvents at hheld ⊢
    simp only [hch, if_pos hset] at hheld ⊢
    simpa using hheld hn

/-- In a run whose steps are proper, calls and events stay with their connections; and what waits goes out with the
next sweep once the offer is set. -/
theorem stays_of_proper {steps : List Step} (h : Along State.step Proper .new steps) :
    ∀ done, done <+: steps → Stays (run State.step .new done) ∧
      ((run State.step .new done).channel.isSome → (run State.step .new done).redirector.local_offer_set = true →
        Swept (run State.step .new done)) := by
  intro done hdone
  have hinv : Inv (run State.step .new done) :=
    invariant_along Inv inv_new (fun _ s hb hs => hb.step s hs) (h.of_prefix hdone)
  exact ⟨hinv.toStays, hinv.swept⟩

/-- A connection that gathers a candidate before its offer is set, and is closed after it has gone out. -/
theorem stays_one_call :
    Stays (run State.step .new [.create 1, .data 1 (.createPeerConnection (some 10) true), .gathers 5,
      .data 1 (.setLocalDescription (some 10) true true), .drainIce, .data 1 (.close (some 10))]) := by
  refine (@stays_of_proper [.create 1, .data 1 (.createPeerConnection (some 10) true), .gathers 5,
    .data 1 (.setLocalDescription (some 10) true true), .drainIce, .data 1 (.close (some 10))] ?_ _
    (List.prefix_refl _)).1
  refine ⟨⟨rfl, rfl⟩, ⟨rfl, rfl⟩, trivial, ⟨?_, ?_⟩, trivial, ⟨⟨?_, ?_⟩, rfl⟩, trivial⟩
  · rintro n (hn | ⟨q, hq, rfl⟩ | ⟨q, hq, -⟩ | ⟨q, hq, -⟩)
    · cases hn
      rfl
    · rw [List.mem_singleton.mp hq]
      rfl
    · cases hq
    · cases hq
  · intro n hn o ho
    cases hn
    cases ho
    exact .inl rfl
  · rintro n (hn | ⟨q, hq, -⟩ | ⟨q, hq, -⟩ | ⟨q, hq, -⟩)
    · cases hn
      rfl
    · cases hq
    · cases hq
    · cases hq
  · intro n hn o ho
    cases hn
    cases ho
    exact .inl rfl

/-- A call that names the first connection is carried out on the second; the first one's event goes out on a channel
that it was not created on, where some message came; and a candidate is lost with its connection. -/
theorem not_stays : ¬Stays (run State.step .new [.create 1, .data 1 (.createPeerConnection (some 10) true),
        .data 1 (.createPeerConnection (some 20) true), .data 1 (.close (some 10))]) ∧
      ¬Stays (run State.step .new [.create 1, .data 1 (.createPeerConnection (some 10) true), .data 2 .other,
        .changes .connection "connected", .drainEvents]) ∧
      ¬Stays (run State.step .new [.create 1, .data 1 (.createPeerConnection (some 10) true), .gathers 5,
        .data 1 (.close (some 10))]) := by
  refine ⟨fun h => ?_, fun h => ?_, fun h => ?_⟩
  · obtain hown | hearlier := h.calls 1 (by decide) 10 (by decide)
    · revert hown
      decide
    · exact hearlier 0 (by decide) (by decide)
  · have hsent := (h.sent ⟨0, 2, some 10, .state .connection "connected"⟩ (List.mem_singleton_self _)).2
    revert hsent
    decide
  · have hgathered := h.candidates 0 (by decide)
    revert hgathered
    decide

end Rdpio.Webrtc.Events
