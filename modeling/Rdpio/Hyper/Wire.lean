import Rdpio.Lib.Bytes

/-!
# The wire

`Session` of `crates/rdp-hyper/src/wire.rs`: a cleartext header, then the sealed body.
-/

namespace Rdpio.Hyper.Wire

open Lib

def magic : UInt8 := 0xD7

def version : UInt8 := 4

def headerLen : ℕ := 12

def tagLen : ℕ := 16

def overhead : ℕ := headerLen + tagLen

/-- What a packet carries. -/
inductive Kind where
  | video
  | audio
  | input
  | control
  | reliable
  | update
  | camera
deriving DecidableEq

def Kind.toU8 : Kind → UInt8
  | .video => 1
  | .audio => 2
  | .input => 3
  | .control => 4
  | .reliable => 6
  | .update => 7
  | .camera => 8

def Kind.fromU8 (v : UInt8) : Option Kind :=
  if v = 1 then some .video
  else if v = 2 then some .audio
  else if v = 3 then some .input
  else if v = 4 then some .control
  else if v = 6 then some .reliable
  else if v = 7 then some .update
  else if v = 8 then some .camera
  else none

/-- Which way a packet travels; part of the nonce. -/
inductive Direction where
  | hostToClient
  | clientToHost
deriving DecidableEq

def Direction.tag : Direction → List UInt8
  | .hostToClient => [0x48, 0x32, 0x43, 0]
  | .clientToHost => [0x43, 0x32, 0x48, 0]

def Direction.reverse : Direction → Direction
  | .hostToClient => .clientToHost
  | .clientToHost => .hostToClient

inductive OpenError where
  | notOurs
  | version (v : UInt8)
  | kind (v : UInt8)
  | auth
  | replay
deriving DecidableEq

def replayWindow : ℕ := 1024

def windowWords : ℕ := replayWindow / 64

structure Aead where
  sealAppendTag : List UInt8 → List UInt8 → List UInt8 → List UInt8
  openInPlace : List UInt8 → List UInt8 → List UInt8 → Option (List UInt8)

/-- One endpoint's half of the encrypted session. -/
structure Session where
  version : UInt8
  send_dir : Direction
  send_seq : UInt64
  /-- Highest sequence number accepted so far, and a bitmap of the `replayWindow` below it (bit `i` is
  `recv_top - i` seen). -/
  recv_top : UInt64
  recv_window : Vector UInt64 windowWords
  recv_any : Bool

def Session.withVersion (send_dir : Direction) (version : UInt8) : Session :=
  ⟨version, send_dir, 0, 0, Vector.replicate windowWords 0, false⟩

def Session.new (send_dir : Direction) : Session := Session.withVersion send_dir Wire.version

def nonce (dir : Direction) (seq : UInt64) : List UInt8 := dir.tag ++ leBytes 8 seq.toNat

def header (version : UInt8) (kind : Kind) (seq : UInt64) : List UInt8 :=
  [magic, version, kind.toU8, 0] ++ leBytes 8 seq.toNat

/-- Seal `body` into a datagram of `kind`. -/
def Session.seal (s : Session) (aead : Aead) (kind : Kind) (body : List UInt8) : Session × List UInt8 :=
  let seq := s.send_seq + 1
  let h := header s.version kind seq
  ({ s with send_seq := seq }, h ++ aead.sealAppendTag (nonce s.send_dir seq) h body)

def Session.fresh (s : Session) (seq : UInt64) : Bool :=
  if !s.recv_any || s.recv_top < seq then true
  else
    let back := (s.recv_top - seq).toNat
    back < replayWindow && (s.recv_window[back / 64]?.getD 0 &&& 1 <<< UInt64.ofNat (back % 64)) == 0

def seqOf (datagram : List UInt8) : UInt64 := UInt64.ofNat (ofLe ((datagram.drop 4).take 8))

def Session.check (s : Session) (datagram : List UInt8) : Except OpenError (Kind × UInt64) :=
  if datagram.length < overhead ∨ datagram.getD 0 0 ≠ magic then .error .notOurs
  else
    match Kind.fromU8 (datagram.getD 2 0) with
    | none => .error (.kind (datagram.getD 2 0))
    | some kind =>
      -- Update packets cross versions; everything else is in the session's.
      if datagram.getD 1 0 ≠ s.version ∧ kind ≠ .update then .error (.version (datagram.getD 1 0))
      else if !s.fresh (seqOf datagram) then .error .replay
      else .ok (kind, seqOf datagram)

def shiftWord (words bits : ℕ) (window : Vector UInt64 windowWords) (w : ℕ) : Vector UInt64 windowWords :=
  let at_ := fun i => window[i]?.getD 0
  let v := if words ≤ w then at_ (w - words) <<< UInt64.ofNat bits else 0
  let v := if 0 < bits ∧ words < w then v ||| at_ (w - words - 1) >>> UInt64.ofNat (64 - bits) else v
  window.setIfInBounds w v

/-- Age the window by `n` (bit `i` moves to `i + n`). -/
def Session.shift (s : Session) (n : ℕ) : Session :=
  if replayWindow ≤ n then { s with recv_window := Vector.replicate windowWords 0 }
  else
    { s with recv_window := (List.range windowWords).reverse.foldl (shiftWord (n / 64) (n % 64)) s.recv_window }

def Session.accept (s : Session) (seq : UInt64) : Session :=
  let s :=
    if !s.recv_any then
      { s with recv_any := true, recv_top := seq, recv_window := Vector.replicate windowWords 0 }
    else if s.recv_top < seq then
      let s' := s.shift (seq - s.recv_top).toNat
      { s' with recv_top := seq }
    else s
  let back := (s.recv_top - seq).toNat
  let word := s.recv_window[back / 64]?.getD 0 ||| 1 <<< UInt64.ofNat (back % 64)
  { s with recv_window := s.recv_window.setIfInBounds (back / 64) word }

/-- Authenticate and decrypt a received datagram. -/
def Session.open_ (s : Session) (aead : Aead) (datagram : List UInt8) :
    Session × Except OpenError (Kind × List UInt8) :=
  match s.check datagram with
  | .error e => (s, .error e)
  | .ok (kind, seq) =>
    match aead.openInPlace (nonce s.send_dir.reverse seq) (datagram.take headerLen)
      (datagram.drop headerLen) with
    | none => (s, .error .auth)
    | some body => (s.accept seq, .ok (kind, body))

def Session.openInPlace (s : Session) (aead : Aead) (datagram : List UInt8) :
    Session × Except OpenError (Kind × List UInt8) :=
  match s.check datagram with
  | .error e => (s, .error e)
  | .ok (kind, seq) =>
    let header := datagram.take headerLen
    let body := datagram.drop headerLen
    match aead.openInPlace (nonce s.send_dir.reverse seq) header body with
    | none => (s, .error .auth)
    | some plain => (s.accept seq, .ok (kind, plain))

end Rdpio.Hyper.Wire
