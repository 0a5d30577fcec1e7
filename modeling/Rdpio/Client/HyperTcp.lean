import Rdpio.Hyper.BulkTcp
import Rdpio.Lib.Run

/-!
# The copy stream

`crates/rdp-client/src/hyper_tcp.rs`: messages numbered and striped over the connections of a session, sealed
by a writer for each connection, opened by a reader for each, and put back in order.
-/

namespace Rdpio.Client.HyperTcp

open Lib Hyper.BulkTcp
open Hyper.Messages (Json Message clampStreams)
open Hyper.Wire (Aead)

/-- Records from all connections, back in order. -/
structure Reorder where
  next : UInt64 := 0
  held : List (UInt64 × List UInt8) := []

def Reorder.insert (o : Reorder) (seq : UInt64) (rec : List UInt8) : Reorder :=
  { o with held := (seq, rec) :: o.held.filter (·.1 ≠ seq) }

def Reorder.pop (o : Reorder) : Reorder := ⟨o.next + 1, o.held.filter (·.1 ≠ o.next)⟩

theorem Reorder.mem_held {o : Reorder} {seq : UInt64} {rec : List UInt8}
    (h : o.held.lookup seq = some rec) : (seq, rec) ∈ o.held := by
  obtain ⟨l₁, l₂, hsplit, -⟩ := List.lookup_eq_some_iff.mp h
  simp [hsplit]

theorem Reorder.length_pop_lt {o : Reorder} {rec : List UInt8} (h : o.held.lookup o.next = some rec) :
    o.pop.held.length < o.held.length :=
  List.length_filter_lt_length_iff_exists.mpr ⟨(o.next, rec), Reorder.mem_held h, by simp⟩

def Reorder.drain (o : Reorder) : Reorder × List (List UInt8) :=
  match _h : o.held.lookup o.next with
  | none => (o, [])
  | some rec => (o.pop.drain.1, rec :: o.pop.drain.2)
termination_by o.held.length
decreasing_by all_goals exact Reorder.length_pop_lt _h

/-! ## One way -/

structure Tx where
  next_seq : UInt64 := 0
  handing : List (UInt8 × List UInt8) := []
  queue : UInt8 → List (List UInt8) := fun _ => []
  sealer : UInt8 → Sealer
  writing : UInt8 → Bool

structure Wire where
  bytes : List UInt8 := []
  cut : Bool := false

/-- The receiving side. -/
structure Rx where
  opener : UInt8 → Opener
  reading : UInt8 → Bool
  order : Reorder := {}
  sunk : List Message := []

/-- A record that was sealed, and what for. -/
structure Sealed where
  lane : UInt8
  counter : UInt64
  plain : List UInt8

/-- One direction of a stream. -/
structure Way where
  tx : Tx
  wire : UInt8 → Wire := fun _ => {}
  rx : Rx
  sent : List Message := []
  sealed : List Sealed := []

def numbered (json : Json) (seq : UInt64) (m : Message) : List UInt8 := leBytes 8 seq.toNat ++ m.toBytes json

/-- `send`, up to the queue of its connection. -/
def Way.send (json : Json) (lanes : ℕ) (w : Way) (m : Message) (width : ℕ) : Way :=
  let seq := w.tx.next_seq
  let lane := UInt8.ofNat (seq.toNat % max 1 (min width lanes))
  { w with
    tx := { w.tx with
      next_seq := seq + 1
      handing := w.tx.handing ++ [(lane, numbered json seq m)] }
    sent := w.sent ++ [m] }

def Way.hand (w : Way) (k : ℕ) : Way :=
  match w.tx.handing[k]? with
  | none => w
  | some (lane, rec) =>
    { w with tx := { w.tx with
      handing := w.tx.handing.eraseIdx k
      queue := if w.tx.writing lane then Function.update w.tx.queue lane (w.tx.queue lane ++ [rec]) else w.tx.queue } }

def Tx.stop (tx : Tx) (lane : UInt8) : Tx :=
  { tx with
    writing := Function.update tx.writing lane false
    queue := Function.update tx.queue lane [] }

def Wire.put (wire : Wire) (bytes : List UInt8) : Wire :=
  if wire.cut then wire else { wire with bytes := wire.bytes ++ bytes }

def Way.write (aead : Aead) (w : Way) (lane : UInt8) (out : Option ℕ) : Way × Bool :=
  match w.tx.queue lane with
  | [] => (w, false)
  | rec :: rest =>
    if w.tx.writing lane then
      let sealer := w.tx.sealer lane
      match sealer.write aead rec with
      | none => ({ w with tx := w.tx.stop lane }, true)
      | some (sealer', bytes) =>
        let tx := { w.tx with
          queue := Function.update w.tx.queue lane rest
          sealer := Function.update w.tx.sealer lane sealer' }
        let sealed := w.sealed ++ [⟨lane, sealer.counter, rec⟩]
        match out with
        | none =>
          ({ w with
            tx, sealed
            wire := Function.update w.wire lane ((w.wire lane).put bytes) }, false)
        | some k =>
          ({ w with
            tx := tx.stop lane, sealed
            wire := Function.update w.wire lane ((w.wire lane).put (bytes.take k)) }, true)
    else (w, false)

def Rx.take (json : Json) (rx : Rx) (rec : List UInt8) : Rx :=
  let drained := (rx.order.insert (UInt64.ofNat (ofLe (rec.take 8))) rec).drain
  { rx with
    order := drained.1
    sunk := rx.sunk ++ drained.2.filterMap fun r => Message.parse json (r.drop 8) }

def Rx.stop (rx : Rx) (lane : UInt8) : Rx := { rx with reading := Function.update rx.reading lane false }

/-- A reader's turn; whether the stream ends. -/
def Way.read (aead : Aead) (json : Json) (w : Way) (lane : UInt8) : Way × Bool :=
  if w.rx.reading lane then
    match (w.rx.opener lane).read aead (w.wire lane).bytes with
    | .wait => if (w.wire lane).cut then ({ w with rx := w.rx.stop lane }, true) else (w, false)
    | .error => ({ w with rx := w.rx.stop lane }, true)
    | .record opener rec rest =>
      let rx := { w.rx with opener := Function.update w.rx.opener lane opener }
      let wire := Function.update w.wire lane { w.wire lane with bytes := rest }
      if rec.length < 8 then ({ w with rx := rx.stop lane, wire }, true)
      else ({ w with rx := rx.take json rec, wire }, false)
  else (w, false)

def Way.cut (w : Way) (lane : UInt8) (k : ℕ) : Way :=
  { w with wire := Function.update w.wire lane ⟨(w.wire lane).bytes.take k, true⟩ }

def sealerFor (dir : Dir) (lane : UInt8) : Sealer :=
  if dir = .clientToHost then Sealer.skipOne { dir, lane } else { dir, lane }

def openerFor (dir : Dir) (lane : UInt8) : Opener :=
  if dir = .clientToHost then Opener.skipOne { dir, lane } else { dir, lane }

def hellos (streams : UInt8) : List Sealed :=
  (List.range streams.toNat).map fun i =>
    let sealer : Sealer := { dir := .clientToHost, lane := UInt8.ofNat i }
    ⟨sealer.lane, sealer.counter, hello (UInt8.ofNat i) streams⟩

def startWith (streams : UInt8) (dir : Dir) : Way where
  tx := { sealer := sealerFor dir, writing := fun lane => lane < streams }
  rx := { opener := openerFor dir, reading := fun lane => lane < streams }
  sealed := if dir = .clientToHost then hellos streams else []

structure Session where
  lanes : ℕ
  dead : Dir → Bool := fun _ => false
  way : Dir → Way

def Session.start (offered : UInt8) : Session where
  lanes := (clampStreams offered).toNat
  way := startWith (clampStreams offered)

/-- What a thread does next, or a connection. -/
inductive Action
  | send (dir : Dir) (m : Message) (width : ℕ)
  | hand (dir : Dir) (k : ℕ)
  | write (dir : Dir) (lane : UInt8) (out : Option ℕ)
  | read (dir : Dir) (lane : UInt8)
  | cut (dir : Dir) (lane : UInt8) (k : ℕ)
  | finish (dir : Dir)

def Session.put (s : Session) (dir : Dir) (w : Way) (ender : Dir) (ends : Bool) : Session :=
  { s with
    way := Function.update s.way dir w
    dead := if ends then Function.update s.dead ender true else s.dead }

def Session.step (aead : Aead) (json : Json) (s : Session) : Action → Session
  | .send dir m width =>
    if s.dead dir then s else s.put dir ((s.way dir).send json s.lanes m width) dir false
  | .hand dir k => s.put dir ((s.way dir).hand k) dir false
  | .write dir lane out =>
    let o := (s.way dir).write aead lane out
    s.put dir o.1 dir o.2
  | .read dir lane =>
    let o := (s.way dir).read aead json lane
    s.put dir o.1 dir.reverse o.2
  | .cut dir lane k => s.put dir ((s.way dir).cut lane k) dir false
  | .finish dir => { s with dead := Function.update s.dead dir true }

def laneOf (aead : Aead) (streams : UInt8) (free : UInt8 → Bool) (raw : List UInt8) : Option UInt8 :=
  ((List.range streams.toNat).map UInt8.ofNat).find? fun lane =>
    free lane &&
      match Opener.read aead { dir := .clientToHost, lane } raw with
      | .record _ plain _ => plain = hello lane streams
      | _ => false

end Rdpio.Client.HyperTcp
