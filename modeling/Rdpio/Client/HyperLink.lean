import Rdpio.Hyper.Messages
import Rdpio.Hyper.ReliableChannel

/-!
# The reliable link

`ReliableLink` of `crates/rdp-client/src/hyper_link.rs`: a sender and a receiver for each of two lanes, over one kind
of packet. Two links are joined by a network that drops, duplicates, delays and reorders.
-/

namespace Rdpio.Client.HyperLink

open Hyper.Messages Hyper.Reliable

inductive Lane where
  | urgent
  | bulk
deriving DecidableEq

def Lane.toU8 : Lane → UInt8
  | urgent => 0
  | bulk => 1

def Lane.fromU8 (b : UInt8) : Option Lane := if b = 0 then some .urgent else if b = 1 then some .bulk else none

def lane : Message → Lane
  | .cursorShape .. => .urgent
  | .cursorVisible _ => .urgent
  | _ => .bulk

def BULK_QUEUE_LIMIT : Duration := fromMillis 10

def framed (lane : Lane) (body : List UInt8) : List UInt8 := lane.toU8 :: body

def isAck (body : List UInt8) : Bool := body.head? = some typeAck

structure ReliableLink where
  tx : Lane → Sender
  rx : Lane → Receiver

namespace ReliableLink

variable (link : ReliableLink)

def new : ReliableLink where
  tx := Function.update (fun _ => Sender.new) .bulk (Sender.new.setQueueLimit BULK_QUEUE_LIMIT)
  rx _ := Receiver.new

def withTx (lane : Lane) (s : Sender) : ReliableLink := { link with tx := Function.update link.tx lane s }

def withRx (lane : Lane) (r : Receiver) : ReliableLink := { link with rx := Function.update link.rx lane r }

def send (json : Json) (m : Message) : ReliableLink := link.withTx (lane m) ((link.tx (lane m)).send (m.toBytes json))

/-- A lane's ack in `due_acks` and in a turn of the pump, before it is framed. -/
def dueAck (lane : Lane) (now : Instant) : ReliableLink × Option (List UInt8) :=
  let a := (link.rx lane).ack now
  (link.withRx lane a.1, a.2)

/-- A lane's chunks in a turn of the pump, before they are framed. -/
def poll (lane : Lane) (now : Instant) : ReliableLink × List (List UInt8) :=
  let p := (link.tx lane).poll now
  (link.withTx lane p.1, p.2)

/-- An incoming body: its lane, the ack to send back now, and the messages that it completed, to be parsed. -/
def onPacket (now : Instant) (body : List UInt8) :
    Option (Lane × ReliableLink × Option (List UInt8) × List (List UInt8)) := do
  let lane ← Lane.fromU8 (← body.head?)
  let body := body.tail
  if isAck body then some (lane, link.withTx lane ((link.tx lane).onAck body now), none, [])
  else
    let d := (link.rx lane).onData body now
    let a := d.1.ack now
    some (lane, link.withRx lane a.1, a.2, d.2)

end ReliableLink

inductive Side where
  | host
  | client
deriving DecidableEq

def Side.other : Side → Side
  | host => client
  | client => host

variable {α : Type}

def add (f : Side → Lane → List α) (s : Side) (l : Lane) (more : List α) : Side → Lane → List α :=
  Function.update f s (Function.update (f s) l (f s l ++ more))

/-- Two links, with what went from each side on each lane: chunks, acks of them, the messages sent, and those that the
other side got. -/
structure Links where
  link : Side → ReliableLink := fun _ => .new
  data : Side → Lane → List (List UInt8) := fun _ _ => []
  acks : Side → Lane → List (List UInt8) := fun _ _ => []
  sent : Side → Lane → List Message := fun _ _ => []
  got : Side → Lane → List (List UInt8) := fun _ _ => []

inductive Turn where
  | send (s : Side) (m : Message)
  | dueAck (s : Side) (lane : Lane) (now : Instant)
  | poll (s : Side) (lane : Lane) (now : Instant)
  /-- Body `i` of those that the other side put out comes in. -/
  | onPacket (s : Side) (i : ℕ) (now : Instant)
  | setBulkRate (s : Side) (bps : Option ℕ)
  | setBulkQueueLimit (s : Side) (limit : Duration)
  | setBulkJitterTolerant (s : Side) (on : Bool)

namespace Links

variable (json : Json) (w : Links)

def withLink (s : Side) (link : ReliableLink) : Links := { w with link := Function.update w.link s link }

def withBulk (s : Side) (tx : Sender) : Links := w.withLink s ((w.link s).withTx .bulk tx)

def wire (s : Side) : List (List UInt8) :=
  [Lane.urgent, .bulk].flatMap fun l => (w.data s l ++ w.acks s.other l).map (framed l)

def step : Turn → Links
  | .send s m => { w.withLink s ((w.link s).send json m) with sent := add w.sent s (lane m) [m] }
  | .dueAck s l now =>
    let a := (w.link s).dueAck l now
    { w.withLink s a.1 with acks := add w.acks s.other l a.2.toList }
  | .poll s l now =>
    let p := (w.link s).poll l now
    { w.withLink s p.1 with data := add w.data s l p.2 }
  | .onPacket s i now =>
    match (w.wire s.other)[i]?.bind ((w.link s).onPacket now) with
    | none => w
    | some (l, link, ack, msgs) =>
      { w.withLink s link with acks := add w.acks s.other l ack.toList, got := add w.got s.other l msgs }
  | .setBulkRate s bps => w.withBulk s (((w.link s).tx .bulk).setRate bps)
  | .setBulkQueueLimit s limit => w.withBulk s (((w.link s).tx .bulk).setQueueLimit limit)
  | .setBulkJitterTolerant s on => w.withBulk s (((w.link s).tx .bulk).setJitterTolerant on)

def after (as : List Turn) : Links := Lib.run (step json) {} as

/-- One lane in one direction: a reliable channel by itself. -/
def channel (s : Side) (l : Lane) : World :=
  ⟨(w.link s).tx l, (w.link s.other).rx l, w.data s l, w.acks s l, (w.sent s l).map (·.toBytes json), w.got s l⟩

variable {json : Json} {w : Links}

theorem fromU8_toU8 (l : Lane) : Lane.fromU8 l.toU8 = some l := by cases l <;> rfl

theorem channel_onPacket (h : ∀ s l, (w.channel json s l).Inv) (t : Side) (i : ℕ) (now : Instant) (s : Side)
    (l : Lane) : ∃ as, (w.step json (.onPacket t i now)).channel json s l = Lib.run World.step (w.channel json s l) as := by
  cases hi : (w.wire t.other)[i]? with
  | none => exact ⟨[], by simp [step, hi]⟩
  | some b =>
    obtain ⟨l', -, hb⟩ := List.mem_flatMap.mp (List.mem_of_getElem? hi)
    obtain ⟨d, hd, rfl⟩ := List.mem_map.mp hb
    obtain hd | hd := List.mem_append.mp hd
    · have hack : isAck d = false := by
        obtain ⟨n, x, -, -, -, rfl⟩ := (h t.other l').data d hd
        rfl
      obtain ⟨j, hj⟩ := List.mem_iff_getElem?.mp hd
      refine ⟨if s = t.other ∧ l = l' then [.onData j now, .ack now] else [], ?_⟩
      cases s <;> cases t <;> by_cases hl : l = l' <;> simp only [Side.other] at hi hj <;>
        simp [channel, step, withLink, add, ReliableLink.onPacket, ReliableLink.withRx, World.step, World.onData,
          Side.other, hl, hi, hj, hack, framed, fromU8_toU8]
    · have hack : isAck d = true := by
        obtain ⟨cum, bits, hparse, -⟩ := (h t.other.other l').acks d hd
        unfold parseAck at hparse
        split_ifs at hparse with hshort
        exact decide_eq_true (not_not.mp (not_or.mp hshort).1)
      obtain ⟨j, hj⟩ := List.mem_iff_getElem?.mp hd
      refine ⟨if s = t ∧ l = l' then [.onAck j now] else [], ?_⟩
      cases s <;> cases t <;> by_cases hl : l = l' <;> simp only [Side.other] at hi hj <;>
        simp [channel, step, withLink, add, ReliableLink.onPacket, ReliableLink.withTx, World.step, World.onAck,
          Side.other, hl, hi, hj, hack, framed, fromU8_toU8]

theorem channel_step (h : ∀ s l, (w.channel json s l).Inv) (a : Turn) (s : Side) (l : Lane) :
    ∃ as, (w.step json a).channel json s l = Lib.run World.step (w.channel json s l) as := by
  have hbulk (t : Side) (tx : Sender) (a : Action) (ha : (w.channel json t .bulk).step a =
      { w.channel json t .bulk with sender := tx }) :
      ∃ as, (w.withBulk t tx).channel json s l = Lib.run World.step (w.channel json s l) as := by
    refine ⟨if s = t ∧ l = .bulk then [a] else [], ?_⟩
    cases s <;> cases t <;> by_cases hl : l = .bulk <;>
      simp [hl, ha] <;> simp [channel, withLink, withBulk, ReliableLink.withTx, Side.other, hl]
  cases a with
  | send t m =>
    refine ⟨if s = t ∧ l = lane m then [.send (m.toBytes json)] else [], ?_⟩
    cases s <;> cases t <;> by_cases hl : l = lane m <;>
      simp [channel, step, withLink, add, ReliableLink.send, ReliableLink.withTx, World.step, Side.other, hl]
  | dueAck t l' now =>
    refine ⟨if s.other = t ∧ l = l' then [.ack now] else [], ?_⟩
    cases s <;> cases t <;> by_cases hl : l = l' <;>
      simp [channel, step, withLink, add, ReliableLink.dueAck, ReliableLink.withRx, World.step, Side.other, hl]
  | poll t l' now =>
    refine ⟨if s = t ∧ l = l' then [.poll now] else [], ?_⟩
    cases s <;> cases t <;> by_cases hl : l = l' <;>
      simp [channel, step, withLink, add, ReliableLink.poll, ReliableLink.withTx, World.step, Side.other, hl]
  | onPacket t i now => exact channel_onPacket h t i now s l
  | setBulkRate t bps => exact hbulk t _ (.setRate bps) rfl
  | setBulkQueueLimit t limit => exact hbulk t _ (.setQueueLimit limit) rfl
  | setBulkJitterTolerant t on => exact hbulk t _ (.setJitterTolerant on) rfl

def Short (json : Json) (w : Links) : Prop := ∀ s l, (w.channel json s l).stream.length < 2^31

theorem short_of_step (a : Turn) (h : (w.step json a).Short json) : w.Short json := by
  intro s l
  have hgrows : w.sent s l <+: (w.step json a).sent s l := by
    cases a with
    | send t m => cases s <;> cases t <;> by_cases hl : l = lane m <;> simp [step, add, hl]
    | onPacket t i now =>
      unfold step
      dsimp only
      split <;> exact List.prefix_refl _
    | _ => exact List.prefix_refl _
  obtain ⟨more, hmore⟩ := hgrows
  have hlen := h s l
  rw [World.stream, channel, ← hmore, List.map_append, streamOf, List.flatMap_append, List.length_append] at hlen
  exact Nat.lt_of_le_of_lt (Nat.le_add_right _ _) hlen

/-- Each lane in each direction is a run of a reliable channel. -/
theorem channel_after (as : List Turn) (hshort : (after json as).Short json) (s : Side) (l : Lane) :
    ∃ as', (after json as).channel json s l = World.after as' := by
  refine Lib.invariant_run_of_bound (fun w : Links => ∀ s l, ∃ as', w.channel json s l = World.after as') (Short json)
    ?_ (fun _ a => short_of_step a) (fun w a h hshort s l => ?_) as hshort s l
  · intro s l
    cases l with
    | urgent => exact ⟨[], by cases s <;> rfl⟩
    | bulk => exact ⟨[.setQueueLimit BULK_QUEUE_LIMIT], by cases s <;> rfl⟩
  · have hinv : ∀ s l, (w.channel json s l).Inv := by
      intro s l
      obtain ⟨as', has⟩ := h s l
      rw [has]
      exact World.inv_after as' (has ▸ short_of_step a hshort s l)
    obtain ⟨before, hbefore⟩ := h s l
    obtain ⟨more, hmore⟩ := channel_step hinv a s l
    exact ⟨before ++ more, by rw [hmore, hbefore, World.after, World.after, Lib.run_append]⟩

end Links

theorem returned_begins {w : World} (h : w.Inv) : w.returned <+: w.deliverable := by
  have hsplit : assemble w.stream =
      (w.stream.drop w.receiver.cum.toNat).foldl Assembly.step (assemble (w.stream.take w.receiver.cum.toNat)) := by
    simp only [assemble, ← List.foldl_append, List.take_append_drop]
  have hall : w.deliverable = (assemble w.stream).out := by
    rw [World.stream, assemble_streamOf]
    rfl
  rw [hall, h.returned_eq, hsplit]
  exact Assembly.out_prefix_foldl _ _

/-- Whatever the network does, on each lane a side gets the messages that the other sent on it and that are not too
large, from the first on, each once and in order, and has all of them when the other's sender has no backlog. -/
theorem lanes_deliver (json : Json) (as : List Turn) (hshort : (Links.after json as).Short json)
    (hsent : ∀ s l, ∀ m ∈ (Links.after json as).sent s l, m.Carried json) (s : Side) (l : Lane) :
    let w := Links.after json as
    let got := (w.got s l).filterMap (Message.parse json)
    let all := (w.sent s l).filter fun m => (m.toBytes json).length ≤ maxMessage
    got <+: all ∧ (((w.link s).tx l).backlog = 0 → got = all) := by
  intro w got all
  obtain ⟨as', has⟩ := Links.channel_after as hshort s l
  have hlen := hshort s l
  have hinv := World.inv_after as' (has ▸ hlen)
  rw [← has] at hinv
  have hall : (w.channel json s l).deliverable.filterMap (Message.parse json) = all := by
    rw [World.deliverable, Links.channel, List.filter_map, List.filterMap_map]
    refine (List.filterMap_congr fun m hm => ?_).trans List.filterMap_some
    exact Message.parse_toBytes (hsent s l m (List.mem_of_mem_filter hm))
  rw [← hall]
  exact ⟨(returned_begins hinv).filterMap _, fun hzero =>
    congrArg (List.filterMap _) (hinv.returned_of_backlog_eq_zero hlen hzero)⟩

def noFiles : Json := ⟨fun _ => [], fun _ => none⟩

/-- A pointer overtakes a picture. -/
def twoLanes : List Turn :=
  [.send .host (.clipboardImage [7]), .send .host (.cursorVisible true), .poll .host .bulk 0, .poll .host .urgent 0,
    .onPacket .client 0 1, .onPacket .client 1 2, .onPacket .host 1 3]

theorem lanes_deliver_twoLanes :
    ((Links.after noFiles twoLanes).got .host .bulk).filterMap (Message.parse noFiles) = [.clipboardImage [7]] := by
  have hsent : ∀ s l, ∀ m ∈ (Links.after noFiles twoLanes).sent s l,
      m = .clipboardImage [7] ∨ m = .cursorVisible true := by
    intro s l
    cases s <;> cases l <;> decide +kernel
  have hcarried : ∀ s l, ∀ m ∈ (Links.after noFiles twoLanes).sent s l, m.Carried noFiles := by
    intro s l m hm
    obtain rfl | rfl := hsent s l m hm <;> trivial
  have hshort : (Links.after noFiles twoLanes).Short noFiles := by
    intro s l
    cases s <;> cases l <;> decide +kernel
  exact ((lanes_deliver noFiles twoLanes hshort hcarried .host .bulk).2 (by decide +kernel)).trans (by decide +kernel)

end Rdpio.Client.HyperLink
