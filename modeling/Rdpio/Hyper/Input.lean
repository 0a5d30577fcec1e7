import Rdpio.Lib.Bytes
import Rdpio.Lib.Chunks
import Rdpio.Lib.Serial

/-!
# Client input

`InputSender` and `InputReceiver` of `crates/rdp-hyper/src/input.rs`.
-/

namespace Rdpio.Hyper.Input

open Lib

inductive TouchPhase where
  | down
  | move
  | up
  /-- The gesture was taken away: lift without a tap. -/
  | cancel
deriving DecidableEq

def TouchPhase.toU8 : TouchPhase → UInt8
  | .down => 0
  | .move => 1
  | .up => 2
  | .cancel => 3

def TouchPhase.fromU8 (b : UInt8) : Option TouchPhase :=
  if b = 0 then some .down
  else if b = 1 then some .move
  else if b = 2 then some .up
  else if b = 3 then some .cancel
  else none

inductive InputEvent where
  | key (scancode : UInt16) (extended down : Bool)
  | mouseAbs (x y : UInt16)
  | mouseRel (dx dy : Int16)
  | button (button : UInt8) (down : Bool)
  | wheel (delta : Int16) (horizontal : Bool)
  | char (code : UInt16) (down : Bool)
  | secureAttention
  | touch (id : UInt8) (phase : TouchPhase) (x y : UInt16)
deriving DecidableEq

def bit (b : Bool) : UInt8 := if b then 1 else 0

def le16 (x : UInt16) : List UInt8 := leBytes 2 x.toNat

def InputEvent.write : InputEvent → List UInt8
  | .key scancode extended down => 1 :: (le16 scancode ++ [bit extended ||| bit down <<< 1])
  | .mouseAbs x y => 2 :: (le16 x ++ le16 y)
  | .mouseRel dx dy => 3 :: (le16 dx.toUInt16 ++ le16 dy.toUInt16)
  | .button b down => [4, b, bit down]
  | .wheel delta horizontal => 5 :: (le16 delta.toUInt16 ++ [bit horizontal])
  | .char code down => 6 :: (le16 code ++ [bit down])
  | .secureAttention => [7]
  | .touch id phase x y => [8, id, phase.toU8] ++ le16 x ++ le16 y

def u16At (b : List UInt8) (i : ℕ) : Option UInt16 :=
  if i + 2 ≤ b.length then some (UInt16.ofNat (ofLe ((b.drop i).take 2))) else none

/-- An event and how many bytes it took. -/
def InputEvent.read (b : List UInt8) : Option (InputEvent × ℕ) := do
  let kind ← b[0]?
  if kind = 1 then
    let f ← b[3]?
    return (.key (← u16At b 1) (f &&& 1 != 0) (f &&& 2 != 0), 4)
  else if kind = 2 then return (.mouseAbs (← u16At b 1) (← u16At b 3), 5)
  else if kind = 3 then return (.mouseRel (← u16At b 1).toInt16 (← u16At b 3).toInt16, 5)
  else if kind = 4 then return (.button (← b[1]?) ((← b[2]?) != 0), 3)
  else if kind = 5 then return (.wheel (← u16At b 1).toInt16 ((← b[3]?) != 0), 4)
  else if kind = 6 then return (.char (← u16At b 1) ((← b[3]?) != 0), 4)
  else if kind = 7 then return (.secureAttention, 1)
  else if kind = 8 then return (.touch (← b[1]?) (← TouchPhase.fromU8 (← b[2]?)) (← u16At b 3) (← u16At b 5), 7)
  else none

def maxPerPacket : ℕ := (1200 - (12 + 16) - 5) / 7

def cappedTail : ℕ := 16

def cappedRepeats : UInt8 := 3

/-- An event not yet acknowledged by the host. -/
structure Entry where
  seq : UInt32
  event : InputEvent
  /-- Packets it went in. -/
  sends : UInt8

structure InputSender where
  /-- Oldest first. -/
  pending : List Entry
  next_seq : UInt32
  /-- Highest sequence number already put in a packet. -/
  sent : UInt32

def InputSender.new : InputSender := ⟨[], 1, 0⟩

def checkedAdd (a b : Int16) : Option Int16 :=
  if -(2^15) ≤ a.toInt + b.toInt ∧ a.toInt + b.toInt < 2^15 then some (a + b) else none

def merge : InputEvent → InputEvent → Option InputEvent
  | .mouseRel px py, .mouseRel dx dy => do return .mouseRel (← checkedAdd px dx) (← checkedAdd py dy)
  | .mouseAbs _ _, .mouseAbs x y => some (.mouseAbs x y)
  | .touch i .move _ _, .touch id .move x y => if i = id then some (.touch id .move x y) else none
  | _, _ => none

def InputSender.mergeable (s : InputSender) (ev : InputEvent) : Option InputEvent := do
  let last ← s.pending.getLast?
  if 0 < asI32 (last.seq - s.sent) then merge last.event ev else none

def InputSender.push (s : InputSender) (ev : InputEvent) : InputSender :=
  match s.mergeable ev with
  | some merged =>
    { s with pending := s.pending.modify (s.pending.length - 1) fun e => { e with event := merged } }
  | none =>
    { s with pending := s.pending ++ [⟨s.next_seq, ev, 0⟩], next_seq := s.next_seq + 1 }

def InputSender.ack (s : InputSender) (seq : UInt32) : InputSender :=
  { s with pending := s.pending.filter fun e => 0 < asI32 (e.seq - seq) }

def packetBody (events : List Entry) : List UInt8 :=
  leBytes 4 ((events.head?.map Entry.seq).getD 0).toNat ++
    UInt8.ofNat events.length :: events.flatMap fun e => e.event.write

def Entry.bump (e : Entry) : Entry := { e with sends := if e.sends = 255 then 255 else e.sends + 1 }

def advanceSent (sent : UInt32) (events : List Entry) : UInt32 :=
  let last := (events.getLast?.map Entry.seq).getD 0
  if 0 < asI32 (last - sent) then last else sent

def InputSender.packetsFrom (s : InputSender) (start max_packets : ℕ) : InputSender × List (List UInt8) :=
  if s.pending.length < start then (s, [])
  else
    let rest := s.pending.drop start
    let packets := (chunks maxPerPacket rest).take max_packets
    let n := packets.flatten.length
    ({ s with
        pending := s.pending.take start ++ (rest.take n).map Entry.bump ++ rest.drop n
        sent := packets.foldl advanceSent s.sent },
      packets.map packetBody)

def InputSender.packets (s : InputSender) (max_packets : ℕ) : InputSender × List (List UInt8) :=
  s.packetsFrom 0 max_packets

def InputSender.cappedPackets (s : InputSender) (max_packets : ℕ) : InputSender × List (List UInt8) :=
  let tail := s.pending.length - cappedTail
  let start := (s.pending.findIdx? fun e => e.sends < cappedRepeats).elim tail fun i => min i tail
  s.packetsFrom start max_packets

structure InputReceiver where
  /-- Highest sequence number applied. -/
  applied : UInt32

def InputReceiver.new : InputReceiver := ⟨0⟩

def InputReceiver.receiveLoop (r : InputReceiver) (seq : UInt32) : ℕ → List UInt8 → InputReceiver × List InputEvent
  | 0, _ => (r, [])
  | count + 1, b =>
    match InputEvent.read b with
    | none => (r, [])
    | some (ev, used) =>
      let d := asI32 (seq - r.applied)
      if d = 1 then
        let next := InputReceiver.receiveLoop ⟨seq⟩ (seq + 1) count (b.drop used)
        (next.1, ev :: next.2)
      -- A gap: never skip an event.
      else if 1 < d then (r, [])
      else r.receiveLoop (seq + 1) count (b.drop used)

def InputReceiver.receive (r : InputReceiver) (body : List UInt8) : InputReceiver × List InputEvent :=
  if body.length < 5 then (r, [])
  else r.receiveLoop (UInt32.ofNat (ofLe (body.take 4))) (body.getD 4 0).toNat (body.drop 5)

theorem u16At_cons (k : UInt8) (b : List UInt8) (i : ℕ) : u16At (k :: b) (i + 1) = u16At b i := by
  unfold u16At
  simp only [List.length_cons, List.drop_succ_cons]
  congr 1
  simp only [eq_iff_iff]
  omega

theorem u16At_le16 (x : UInt16) (rest : List UInt8) : u16At (le16 x ++ rest) 0 = some x := by
  unfold u16At le16
  have hlen : (leBytes 2 x.toNat).length = 2 := length_leBytes 2 _
  rw [if_pos (by rw [List.length_append, hlen]; omega), List.drop_zero, List.take_left' hlen,
    ofLe_leBytes_of_lt (by simpa using x.toNat_lt), UInt16.ofNat_toNat]

theorem u16At_append (x : UInt16) (b : List UInt8) (i : ℕ) : u16At (le16 x ++ b) (i + 2) = u16At b i := by
  obtain ⟨a, c, hac⟩ : ∃ a c, le16 x = [a, c] := List.length_eq_two.mp (length_leBytes 2 _)
  rw [hac, List.cons_append, u16At_cons, List.cons_append, u16At_cons, List.nil_append]

theorem TouchPhase.fromU8_toU8 (p : TouchPhase) : TouchPhase.fromU8 p.toU8 = some p := by
  cases p <;> rfl

theorem bit_ne_zero (b : Bool) : (bit b != 0) = b := by cases b <;> rfl

theorem InputEvent.read_write (e : InputEvent) (rest : List UInt8) :
    InputEvent.read (e.write ++ rest) = some (e, e.write.length) := by
  have hlen : ∀ x, (le16 x).length = 2 := fun x => length_leBytes 2 _
  cases e with
  | key scancode extended down =>
    have hflags : ∀ e d : Bool, ((bit e ||| bit d <<< 1) &&& 1 != 0) = e ∧
        ((bit e ||| bit d <<< 1) &&& 2 != 0) = d := by decide
    simp [InputEvent.write, InputEvent.read, u16At_cons, u16At_le16, hlen, hflags extended down]
  | touch id phase x y =>
    simp [InputEvent.write, InputEvent.read, u16At_cons, u16At_le16, u16At_append, hlen, TouchPhase.fromU8_toU8]
  | _ => simp [InputEvent.write, InputEvent.read, u16At_cons, u16At_le16, u16At_append, hlen, bit_ne_zero]

end Rdpio.Hyper.Input
