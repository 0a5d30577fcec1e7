import Std.Data.TreeMap
import Rdpio.Lib.Bytes
import Rdpio.Lib.Chunks
import Rdpio.Lib.Serial

/-!
# The reliable channel

`Sender` and `Receiver` of `crates/rdp-hyper/src/reliable.rs`.
-/

namespace Rdpio.Hyper.Reliable

open Lib

abbrev Instant := ℕ

abbrev Duration := ℕ

def fromMillis (ms : ℕ) : Duration := ms * 1000000

def asSecsF64 (d : Duration) : Float := Float.ofNat (d / 10^9) + Float.ofNat (d % 10^9) / 1000000000.0

def maxDatagram : ℕ := 1200

def maxBody : ℕ := maxDatagram - (12 + 16)

def maxChunk : ℕ := maxBody - 16

def span : ℕ := 256

def bitmapBytes : ℕ := span / 8

def wideSpan : ℕ := 4096

def wideBitmapBytes : ℕ := wideSpan / 8

def minRto : Duration := fromMillis 40

def maxRto : Duration := fromMillis 1000

def initialRto : Duration := fromMillis 200

def cwndMin : Float := 4.0

def cwndStart : Float := 32.0

def reorder : ℕ := 3

def queueLimit : Duration := fromMillis 25

def minRttWindow : Duration := fromMillis 10000

def tolerantMinRto : Duration := fromMillis 200

def typeData : UInt8 := 1

def typeAck : UInt8 := 2

def maxMessage : ℕ := 256 * 1024 * 1024

def ackEvery : ℕ := 4

def ackDelay : Duration := fromMillis 5

def clamp (lo hi x : ℕ) : ℕ := max lo (min hi x)

def optMax : Option ℕ → Option ℕ → Option ℕ
  | none, b => b
  | a, none => a
  | some a, some b => some (max a b)

def optLt : Option ℕ → Option ℕ → Bool
  | _, none => false
  | none, some _ => true
  | some a, some b => a < b

/-! ## The sender -/

structure Chunk where
  seq : UInt32
  body : List UInt8
  /-- When it was last transmitted (`none`: not yet). -/
  sent : Option Instant
  /-- Transmission number of the last send. -/
  tx : ℕ
  retries : ℕ
  acked : Bool
  /-- Declared lost: no longer counted in flight, resent as soon as the window allows. -/
  lost : Bool

def Chunk.inFlight (c : Chunk) : Bool := c.sent.isSome && !c.acked && !c.lost

/-- Why the window was cut. -/
inductive Cut where
  | timeout
  | loss
  | delay

structure SenderStats where
  cuts_timeout : ℕ
  cuts_loss : ℕ
  cuts_delay : ℕ
  resent : ℕ

structure Sender where
  next_seq : UInt32
  /-- Ordered by `seq`; acknowledged chunks are popped from the front. -/
  queue : List Chunk
  backlog_bytes : ℕ
  next_tx : ℕ
  /-- Highest transmission number acknowledged so far. -/
  acked_tx : ℕ
  /-- Losses of transmissions before this one belong to an episode already paid for. -/
  recovery_tx : ℕ
  srtt : Option Duration
  rttvar : Duration
  tolerant : Bool
  stats : SenderStats
  /-- Lowest round trip seen, and when. -/
  min_rtt : Option (Duration × Instant)
  queue_limit : Duration
  cwnd : Float
  ssthresh : Float
  /-- The peer's acks can cover `wideSpan`. -/
  wide : Bool
  rate_bps : Float
  tokens : Float
  last_refill : Option Instant

def infinity : Float := 1.0 / 0.0

def Sender.new : Sender where
  next_seq := 1
  queue := []
  backlog_bytes := 0
  next_tx := 1
  acked_tx := 0
  recovery_tx := 0
  srtt := none
  rttvar := 0
  tolerant := false
  stats := ⟨0, 0, 0, 0⟩
  min_rtt := none
  queue_limit := queueLimit
  cwnd := cwndStart
  ssthresh := Float.ofNat wideSpan
  wide := false
  rate_bps := infinity
  tokens := 0.0
  last_refill := none

def Sender.setRate (s : Sender) (bps : Option ℕ) : Sender :=
  { s with rate_bps := bps.elim infinity fun b => Float.ofNat (max b 64000) }

def Sender.setQueueLimit (s : Sender) (limit : Duration) : Sender := { s with queue_limit := limit }

def Sender.setJitterTolerant (s : Sender) (on : Bool) : Sender := { s with tolerant := on }

def dataBody (seq : UInt32) (last : Bool) (c : List UInt8) : List UInt8 :=
  typeData :: (leBytes 4 seq.toNat ++ (if last then 1 else 0) :: c)

def Sender.pushChunk (s : Sender) (last : Bool) (c : List UInt8) : Sender :=
  let body := dataBody s.next_seq last c
  { s with
    backlog_bytes := s.backlog_bytes + body.length
    queue := s.queue ++ [⟨s.next_seq, body, none, 0, 0, false, false⟩]
    next_seq := s.next_seq + 1 }

def messageChunks (msg : List UInt8) : List (List UInt8) := if msg.isEmpty then [[]] else chunks maxChunk msg

def Sender.send (s : Sender) (msg : List UInt8) : Sender :=
  let cs := messageChunks msg
  let last := cs.length - 1
  cs.zipIdx.foldl (fun s ci => s.pushChunk (ci.2 == last) ci.1) s

def Sender.backlog (s : Sender) : ℕ := s.backlog_bytes

def Sender.rto (s : Sender) : Duration :=
  if s.tolerant then s.srtt.elim initialRto fun r => clamp tolerantMinRto maxRto (r + s.rttvar * 4 + fromMillis 10)
  else s.srtt.elim initialRto fun r => clamp minRto maxRto (r * 2 + fromMillis 10)

def Sender.span (s : Sender) : ℕ := if s.wide then wideSpan else Reliable.span

def Sender.inWindow (s : Sender) (c : Chunk) : Bool :=
  let front := (s.queue.head?.map Chunk.seq).getD 0
  (c.seq - front).toNat < s.span

def Sender.window (s : Sender) : List Chunk × List Chunk := (s.queue.takeWhile s.inWindow, s.queue.dropWhile s.inWindow)

/-- Halve the window, once per congestion episode. -/
def Sender.onCongestion (s : Sender) (tx : ℕ) (cause : Cut) : Sender :=
  if s.recovery_tx ≤ tx then
    let half := s.cwnd / 2.0
    let ssthresh := if half < cwndMin then cwndMin else half
    let stats := match cause with
      | .timeout => { s.stats with cuts_timeout := s.stats.cuts_timeout + 1 }
      | .loss => { s.stats with cuts_loss := s.stats.cuts_loss + 1 }
      | .delay => { s.stats with cuts_delay := s.stats.cuts_delay + 1 }
    { s with ssthresh := ssthresh, cwnd := ssthresh, recovery_tx := s.next_tx, stats := stats }
  else s

def Sender.refill (s : Sender) (now : Instant) : Sender :=
  if s.rate_bps.isFinite then
    let dt := s.last_refill.elim 0.0 fun t => asSecsF64 (now - t)
    let burst := s.rate_bps / 8.0 * 0.02
    let two := 2.0 * Float.ofNat maxDatagram
    let cap := if burst < two then two else burst
    let tokens := s.tokens + dt * s.rate_bps / 8.0
    { s with tokens := if cap < tokens then cap else tokens, last_refill := some now }
  else s

def pollTimeouts (now : Instant) (rto : Duration) : List Chunk → Float → Option ℕ → List Chunk × Float × Option ℕ
  | [], in_flight, lost_tx => ([], in_flight, lost_tx)
  | c :: cs, in_flight, lost_tx =>
    if !c.inFlight then
      let r := pollTimeouts now rto cs in_flight lost_tx
      (c :: r.1, r.2)
    else if c.sent.any fun t => rto * 2^(min c.retries 4) ≤ now - t then
      let r := pollTimeouts now rto cs in_flight (optMax lost_tx (some c.tx))
      ({ c with lost := true } :: r.1, r.2)
    else
      let r := pollTimeouts now rto cs (in_flight + 1.0) lost_tx
      (c :: r.1, r.2)

structure SendPass where
  in_flight : Float
  tokens : Float
  next_tx : ℕ
  resent : ℕ
  out : List (List UInt8)

def SendPass.put (p : SendPass) (paced : Bool) (c : Chunk) : SendPass where
  in_flight := p.in_flight + 1.0
  tokens := if paced then p.tokens - Float.ofNat c.body.length else p.tokens
  next_tx := p.next_tx + 1
  resent := if c.sent.isSome then p.resent + 1 else p.resent
  out := p.out ++ [c.body]

def Chunk.transmit (c : Chunk) (now : Instant) (tx : ℕ) : Chunk :=
  { c with
    retries := if c.sent.isSome then c.retries + 1 else c.retries
    lost := false
    sent := some now
    tx := tx }

def pollSend (now : Instant) (cwnd : Float) (paced : Bool) : List Chunk → SendPass → List Chunk × SendPass
  | [], p => ([], p)
  | c :: cs, p =>
    if c.acked || (c.sent.isSome && !c.lost) then
      let r := pollSend now cwnd paced cs p
      (c :: r.1, r.2)
    else if cwnd ≤ p.in_flight then (c :: cs, p)
    else if paced && p.tokens < Float.ofNat c.body.length then (c :: cs, p)
    else
      let r := pollSend now cwnd paced cs (p.put paced c)
      (c.transmit now p.next_tx :: r.1, r.2)

def Sender.poll (s : Sender) (now : Instant) : Sender × List (List UInt8) :=
  let s := s.refill now
  let t := pollTimeouts now s.rto s.window.1 0.0 none
  let s := { s with queue := t.1 ++ s.window.2 }
  let s := t.2.2.elim s fun tx => s.onCongestion tx .timeout
  let r := pollSend now s.cwnd s.rate_bps.isFinite s.window.1 ⟨t.2.1, s.tokens, s.next_tx, 0, []⟩
  ({ s with
      queue := r.1 ++ s.window.2
      tokens := r.2.tokens
      next_tx := r.2.next_tx
      stats := { s.stats with resent := s.stats.resent + r.2.resent } }, r.2.out)

def parseAck (b : List UInt8) : Option (UInt32 × List UInt8) :=
  if b.head? ≠ some typeAck ∨ b.length < 5 + bitmapBytes then none
  else some (UInt32.ofNat (ofLe ((b.drop 1).take 4)), (b.drop 5).take wideBitmapBytes)

structure AckPass where
  newly : ℕ
  acked_tx : ℕ
  sample : Option (Duration × ℕ)

def AckPass.take (now : Instant) (a : AckPass) (c : Chunk) : AckPass :=
  match c.acked, c.sent with
  | false, some t =>
    if c.retries = 0 then
      { newly := a.newly + 1
        acked_tx := max a.acked_tx c.tx
        sample := if a.sample.all fun s => s.2 < c.tx then some (now - t, c.tx) else a.sample }
    else { a with newly := a.newly + 1 }
  | _, _ => a

def popCumulative (now : Instant) (cum : UInt32) : List Chunk → ℕ → AckPass → List Chunk × ℕ × AckPass
  | [], backlog, a => ([], backlog, a)
  | c :: cs, backlog, a =>
    if asI32 (c.seq - cum) ≤ 0 then popCumulative now cum cs (backlog - c.body.length) (a.take now c)
    else (c :: cs, backlog, a)

def ackBit (bits : List UInt8) (i : ℕ) : Bool := bits.getD (i / 8) 0 &&& 1 <<< UInt8.ofNat (i % 8) != 0

def selectiveStep (now : Instant) (cum front : UInt32) (bits : List UInt8)
    (qa : List Chunk × AckPass) (i : ℕ) : List Chunk × AckPass :=
  if ackBit bits i then
    let seq := cum + 1 + UInt32.ofNat i
    let idx := (seq - front).toNat
    match qa.1[idx]? with
    | none => qa
    | some c =>
      if c.seq = seq then (qa.1.set idx { c with acked := true, lost := false }, qa.2.take now c)
      else qa
  else qa

def detectLoss (acked_tx : ℕ) : List Chunk → Option ℕ → List Chunk × Option ℕ
  | [], lost_tx => ([], lost_tx)
  | c :: cs, lost_tx =>
    if c.inFlight && c.tx + reorder ≤ acked_tx then
      let r := detectLoss acked_tx cs (optMax lost_tx (some c.tx))
      ({ c with lost := true } :: r.1, r.2)
    else
      let r := detectLoss acked_tx cs lost_tx
      (c :: r.1, r.2)

def Sender.foldSample (s : Sender) (now : Instant) (rtt : Duration) (tx : ℕ) : Sender × Option ℕ :=
  let rttvar := s.srtt.elim (rtt / 2) fun r => (s.rttvar * 3 + (if r < rtt then rtt - r else r - rtt)) / 4
  let srtt := s.srtt.elim rtt fun r => (r * 7 + rtt) / 8
  let judged := if s.tolerant then srtt else rtt
  let s := { s with rttvar := rttvar, srtt := some srtt }
  match s.min_rtt with
  | some (m, since) =>
    if m ≤ rtt ∧ now - since < minRttWindow then
      (s, if m + s.queue_limit < judged then some tx else none)
    else ({ s with min_rtt := some (rtt, now) }, none)
  | none => ({ s with min_rtt := some (rtt, now) }, none)

def Sender.grow (s : Sender) (newly : ℕ) : Sender :=
  let grow := if s.cwnd < s.ssthresh then Float.ofNat newly else Float.ofNat newly / s.cwnd
  let cwnd := s.cwnd + grow
  let cap := Float.ofNat s.span
  { s with cwnd := if cap < cwnd then cap else cwnd }

def popAcked : List Chunk → ℕ → List Chunk × ℕ
  | [], backlog => ([], backlog)
  | c :: cs, backlog => if c.acked then popAcked cs (backlog - c.body.length) else (c :: cs, backlog)

def Sender.foldAck (s : Sender) (cum : UInt32) (bits : List UInt8) (now : Instant) : Sender × AckPass :=
  let p := popCumulative now cum s.queue s.backlog_bytes ⟨0, s.acked_tx, none⟩
  let q := p.1.head?.elim (p.1, p.2.2) fun front =>
    (List.range (min (bits.length * 8) s.span)).foldl (selectiveStep now cum front.seq bits) (p.1, p.2.2)
  ({ s with queue := q.1, backlog_bytes := p.2.1, acked_tx := q.2.acked_tx }, q.2)

def Sender.adjust (s : Sender) (lost_tx queued_tx : Option ℕ) (newly : ℕ) : Sender :=
  let cause := if optLt lost_tx queued_tx then Cut.delay else Cut.loss
  match optMax lost_tx queued_tx with
  | some tx => s.onCongestion tx cause
  | none => if 0 < newly then s.grow newly else s

def Sender.settle (s : Sender) (a : AckPass) (now : Instant) : Sender :=
  let l := detectLoss s.acked_tx s.window.1 none
  let s := { s with queue := l.1 ++ s.window.2 }
  let g := a.sample.elim (s, none) fun (rtt, tx) => s.foldSample now rtt tx
  let s := g.1.adjust l.2 g.2 a.newly
  let p := popAcked s.queue s.backlog_bytes
  { s with queue := p.1, backlog_bytes := p.2 }

def Sender.onAck (s : Sender) (body : List UInt8) (now : Instant) : Sender :=
  match parseAck body with
  | none => s
  | some (cum, bits) =>
    let s := { s with wide := s.wide || bitmapBytes < bits.length }
    -- Never acknowledges what wasn't sent yet (a confused peer).
    if 0 ≤ asI32 (cum - s.next_seq) then s
    else
      let f := s.foldAck cum bits now
      f.1.settle f.2 now

structure Receiver where
  /-- Highest sequence number delivered in order (0: none yet). -/
  cum : UInt32
  pending : Std.TreeMap UInt32 (Bool × List UInt8)
  partial_ : List UInt8
  /-- The message being assembled outgrew `maxMessage`: drop it whole. -/
  oversize : Bool
  /-- Chunks received since the last ack, and when the first of them came. -/
  unacked : ℕ
  first_unacked : Option Instant
  /-- Something happened that the sender should hear about at once. -/
  urgent : Bool

def Receiver.new : Receiver := ⟨0, ∅, [], false, 0, none, false⟩

def Receiver.absorb (r : Receiver) (last : Bool) (data : List UInt8) : Receiver × List (List UInt8) :=
  let outgrew := maxMessage < r.partial_.length + data.length
  let r := if outgrew then { r with oversize := true, partial_ := [] } else r
  let r := if r.oversize then r else { r with partial_ := r.partial_ ++ data }
  if last then
    ({ r with partial_ := [], oversize := false, urgent := true }, if r.oversize then [] else [r.partial_])
  else (r, [])

def Receiver.drain : ℕ → Receiver → Receiver × List (List UInt8)
  | 0, r => (r, [])
  | fuel + 1, r =>
    match r.pending[r.cum + 1]? with
    | none => (r, [])
    | some (last, data) =>
      let a := Receiver.absorb
        { r with pending := r.pending.erase (r.cum + 1), cum := r.cum + 1 } last data
      let d := Receiver.drain fuel a.1
      (d.1, a.2 ++ d.2)

/-- Fold in a data body; returns completed messages. -/
def Receiver.onData (r : Receiver) (body : List UInt8) (now : Instant) : Receiver × List (List UInt8) :=
  if body.head? ≠ some typeData ∨ body.length < 6 then (r, [])
  else
    let seq := UInt32.ofNat (ofLe ((body.drop 1).take 4))
    let last := body.getD 5 0 != 0
    let r := { r with unacked := r.unacked + 1, first_unacked := some (r.first_unacked.getD now) }
    let ahead := seq - r.cum
    if asI32 ahead ≤ 0 ∨ wideSpan < ahead.toNat then
      -- A duplicate (our ack was probably lost) or nonsense.
      ({ r with urgent := true }, [])
    else
      let r := if ahead ≠ 1 then { r with urgent := true } else r
      let r := { r with pending := r.pending.insertIfNew seq (last, body.drop 6) }
      r.drain r.pending.size

def setAckBit (cum : UInt32) (bits : List UInt8) (s : UInt32) : List UInt8 :=
  let i := (s - (cum + 1)).toNat
  if i < wideSpan then
    let byte := i / 8
    let bits := if bits.length ≤ byte then bits ++ List.replicate (byte + 1 - bits.length) 0 else bits
    bits.set byte (bits.getD byte 0 ||| 1 <<< UInt8.ofNat (i % 8))
  else bits

def ackBody (cum : UInt32) (bits : List UInt8) : List UInt8 := typeAck :: (leBytes 4 cum.toNat ++ bits)

def Receiver.ackDue (r : Receiver) (now : Instant) : Bool :=
  r.urgent || ackEvery ≤ r.unacked || r.first_unacked.any fun t => ackDelay ≤ now - t

def Receiver.ack (r : Receiver) (now : Instant) : Receiver × Option (List UInt8) :=
  if r.unacked = 0 then (r, none)
  else if r.ackDue now then
    ({ r with unacked := 0, first_unacked := none, urgent := false },
      some (ackBody r.cum (r.pending.keys.foldl (setAckBit r.cum) (List.replicate (bitmapBytes + 1) 0))))
  else (r, none)

end Rdpio.Hyper.Reliable
