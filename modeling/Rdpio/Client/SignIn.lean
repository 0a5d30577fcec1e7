import Rdpio.Hyper.Auth
import Rdpio.Hyper.Controls
import Rdpio.Lib.Run

/-!
# The host's sign-in

`SignIn` of `crates/rdp-client/src/hyper_direct.rs`: what the host does with each datagram that reaches it
before a stream, from whatever address.
-/

namespace Rdpio.Client.SignIn

open Lib
open Hyper.Auth
open Hyper.Controls (Control)
open Hyper.Update (Text)

/-! ## Attempts -/

inductive Codec where
  | h264
  | hevc
  | av1
deriving DecidableEq

def Codec.fromName (s : Text) : Option Codec :=
  if s = "h264".toList then some .h264
  else if s = "hevc".toList then some .hevc
  else if s = "av1".toList then some .av1
  else none

/-- An unfinished sign-in. -/
structure Pending where
  number : ℕ
  addr : SocketAddr
  key : List UInt8
  deadline : ℕ
  /-- A packet that its key could not open arrived. -/
  tested : Bool
  fps : UInt32
  monitors : UInt32
  codec : Codec
  fit_to : Option (UInt32 × UInt32)
  office : Bool
  fast_text : Bool
  scale : UInt32
  protocol : UInt8

/-- A client that proved it knows the password. -/
structure SignedIn where
  addr : SocketAddr
  recv : Hyper.Wire.Session
  send : Hyper.Wire.Session
  fps : UInt32
  monitors : UInt32
  codec : Codec
  fit_to : Option (UInt32 × UInt32)
  office : Bool
  fast_text : Bool
  scale : UInt32
  update_only : Bool
  first_update : Option (List UInt8)

def maxPending : ℕ := 16
def maxPendingPerIp : ℕ := 2
def afterFailedOpen : ℕ := fromSecs 1
def maxWorkPerS : ℕ := 20

structure Host where
  protocols : UInt8 × UInt8
  version : Text
  build : Text
  newerThan : Text → Text → Bool

def negotiate (ours theirs : UInt8 × UInt8) : Option UInt8 :=
  let hi := min ours.2 theirs.2
  let lo := max ours.1 theirs.1
  if lo ≤ hi then some hi else none

structure State where
  secret : List UInt8
  lockout : Lockout IpAddr
  epoch : ℕ
  pending : List Pending
  /-- The SPAKE2 computations of the second that began then. -/
  work : ℕ × ℕ
  /-- The attempts so far. -/
  begun : ℕ

structure Arrival where
  d : List UInt8
  source : SocketAddr
  clock : ℕ → ℕ
  seed : List UInt8
  nonce : Nonce
  offer : Want → Option Offer
  host_us : UInt64

structure Outcome where
  state : State
  sent : List (List UInt8) := []
  charged : List IpAddr := []
  signed : Option SignedIn := none

variable (libs : AuthLibs) (host : Host)

def openWith (p : Pending) (d : List UInt8) :
    Hyper.Wire.Session × Except Hyper.Wire.OpenError (Hyper.Wire.Kind × List UInt8) :=
  let version := if p.protocol = 0 then Hyper.Wire.version else p.protocol
  (Hyper.Wire.Session.withVersion .hostToClient version).open_ (libs.aead p.key) d

/-- Packets sealed one after another. -/
def sealAll (aead : Hyper.Wire.Aead) :
    Hyper.Wire.Session → List (Hyper.Wire.Kind × List UInt8) → Hyper.Wire.Session × List (List UInt8)
  | send, [] => (send, [])
  | send, (kind, body) :: rest =>
    let (send, d) := send.seal aead kind body
    let (send, ds) := sealAll aead send rest
    (send, d :: ds)

def noted (a : Arrival) (p : Pending) : Pending :=
  if p.addr = a.source ∧ p.tested = false then
    { p with tested := true, deadline := min p.deadline (a.clock 0 + afterFailedOpen) }
  else p

namespace State

variable (s : State)

def new (secret : List UInt8) (epoch work : ℕ) : State := ⟨secret, .new, epoch, [], (work, 0), 0⟩

def find (addr : SocketAddr) : Option Pending := s.pending.find? (·.addr = addr)

def remove (addr : SocketAddr) : List Pending := s.pending.filter (·.addr ≠ addr)

def failAll (ips : List IpAddr) (now : ℕ) : Lockout IpAddr := ips.foldl (fun l ip => l.fail ip now) s.lockout

/-- Expire unfinished attempts. -/
def tick (now : ℕ) : Outcome :=
  let charged := (s.pending.filter fun p => decide (p.deadline < now) && p.tested).map (·.addr.ip)
  { state := { s with
      pending := s.pending.filter fun p => !decide (p.deadline < now)
      lockout := s.failAll charged now }
    charged }

def offerTo (a : Arrival) (want : Want) : Option Offer := do
  let offer ←
    match negotiate host.protocols want.protocols with
    | some v => (a.offer want).map fun o => { o with protocol := v }
    | none => some { Offer.default with protocol := 0, codec := "h264".toList }
  return { offer with
    app := host.version
    build := host.build
    update := want.app ≠ [] && host.newerThan want.app want.build }

/-- The challenge to a hello, and the new attempt. -/
def attempt (a : Arrival) (want : Want) : Option (List UInt8 × Pending) := do
  let offer ← offerTo host a want
  let codec ← Codec.fromName offer.codec
  let (challenge, key) ← hostRespond libs s.secret a.seed a.nonce a.d offer
  return (challenge,
    { number := s.begun
      addr := a.source
      key
      deadline := a.clock 0 + fromSecs 5
      tested := false
      fps := offer.fps
      monitors := want.monitors
      codec
      fit_to := if want.fit then some (want.width, want.height) else none
      office := want.office
      fast_text := want.fast_text
      scale := want.scale
      protocol := offer.protocol })

def beginAttempt (a : Arrival) (want : Want) : Outcome :=
  let charged := ((s.find a.source).toList.filter (·.tested)).map (·.addr.ip)
  let s := { s with pending := s.remove a.source, lockout := s.failAll charged (a.clock 0) }
  if maxPending ≤ s.pending.length ∨ maxPendingPerIp ≤ s.pending.countP (·.addr.ip = a.source.ip) then
    { state := s, charged }
  else
    match s.attempt libs host a want with
    | none => { state := s, charged }
    | some (challenge, p) =>
      { state := { s with pending := p :: s.pending, begun := s.begun + 1 }, sent := [challenge], charged }

def proved (a : Arrival) (want : Want) : Bool :=
  (want.cookie.bind cookieFromHex).any fun c => checkCookie libs a.source c ((a.clock 1 - s.epoch) / fromSecs 1)

def hello (a : Arrival) (want : Want) : Outcome :=
  match s.lockout.check a.source.ip (a.clock 0) with
  | .error wait =>
    { state := s
      sent := [(AuthMsg.denied (UInt16.ofNat (min (max (wait / fromSecs 1) 1) 65535))).toDatagram libs] }
  | .ok () =>
    if s.proved libs a want then
      let work := if fromSecs 1 ≤ a.clock 2 - s.work.1 then (a.clock 0, 0) else s.work
      if maxWorkPerS ≤ work.2 then { state := { s with work } }
      else { s with work := (work.1, work.2 + 1) }.beginAttempt libs host a want
    else
      { state := s
        sent := [(AuthMsg.cookie (makeCookie libs a.source ((a.clock 1 - s.epoch) / fromSecs 1))).toDatagram libs] }

/-- A packet opened with the attempt's key. -/
def signIn (a : Arrival) (p : Pending) (recv : Hyper.Wire.Session) (ping : Option (UInt32 × UInt64))
    (first_update : Option (List UInt8)) : Outcome :=
  let version := if p.protocol = 0 then Hyper.Wire.version else p.protocol
  let pongs := ping.toList.flatMap fun q =>
    List.replicate 3 (Hyper.Wire.Kind.control, (Control.pong q.1 q.2 a.host_us).toBytes)
  let (send, sent) := sealAll (libs.aead p.key) (.withVersion .hostToClient version) pongs
  { state := { s with pending := s.remove a.source, lockout := s.lockout.succeed a.source.ip }
    sent
    signed := some
      { addr := a.source
        recv
        send
        fps := p.fps
        monitors := p.monitors
        codec := p.codec
        fit_to := p.fit_to
        office := p.office
        fast_text := p.fast_text
        scale := p.scale
        update_only := p.protocol = 0
        first_update } }

def note (a : Arrival) : State := { s with pending := s.pending.map (noted a) }

def sealedPacket (a : Arrival) : Outcome :=
  match s.find a.source with
  | none => { state := s }
  | some p =>
    match openWith libs p a.d with
    | (recv, .ok (.control, body)) =>
      match Control.parse body with
      | .ok (some (.ping id client_us)) => s.signIn libs a p recv (some (id, client_us)) none
      | _ => { state := s }
    | (recv, .ok (.update, body)) => s.signIn libs a p recv none (some body)
    | _ => { state := s.note a }

def handle (a : Arrival) : Outcome :=
  if (foreignVersion a.d).isSome then { state := s, sent := [(AuthMsg.denied 0).toDatagram libs] }
  else if isAuth a.d then
    match AuthMsg.parse libs a.d with
    | some (.hello _ _ want) => s.hello libs host a want
    | _ => { state := s }
  else s.sealedPacket libs a

end State

inductive Event where
  | tick (now : ℕ)
  | datagram (a : Arrival)

def State.act (s : State) : Event → Outcome
  | .tick now => s.tick now
  | .datagram a => s.handle libs host a

def State.step (s : State) (e : Event) : State := (s.act libs host e).state

end Rdpio.Client.SignIn
