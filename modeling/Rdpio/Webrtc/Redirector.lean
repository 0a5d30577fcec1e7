import Mathlib.Data.Nat.Notation
import Mathlib.Logic.Function.Basic

/-!
# Calls and what they send

`Redirector::handle` of `crates/rdp-webrtc/src/dispatch.rs`, as far as it decides what of the microphone and
the camera a call sends: streams, tracks, senders and mute.
-/

namespace Rdpio.Webrtc

abbrev TrackId : Type := Option ℕ

inductive SourceId (Device : Type) where
  | device (d : Device)
  | track (t : TrackId)

inductive Kind where
  | audio
  | video
deriving DecidableEq

inductive Call (Device : Type) where
  | createPeerConnection (made : Bool)
  /-- With whether the library closes it without an error. -/
  | close (closed : Bool)
  | addTransceiver (kind : Kind) (sender_id : ℕ) (added : Bool)
  | createMediaStream (id : Option ℕ) (device : Option Device)
  | createMediaStreamTrack (id stream : Option ℕ)
  | replaceTrack (sender_id : ℕ) (track_id : TrackId) (starts : Bool)
  | onEnabledAttributeChanged (id : Option ℕ) (enabled : Option Bool)

variable {Device : Type}

def startMic (starts : Bool) (id : SourceId Device) (capturing : Option (SourceId Device)) : Option (SourceId Device) :=
  if capturing.isSome then capturing else if starts then some id else none

def deviceFor (track_devices : ℕ → Option Device) (track_id : TrackId) : SourceId Device :=
  match track_id.bind track_devices with
  | some d => .device d
  | none => .track track_id

structure RsEngine (Device : Type) where
  pc : Bool
  next : ℕ
  senders : ℕ → Option (ℕ × Kind)
  /-- Whether an audio sender's Opus track is still to be taken. -/
  audio_tracks : ℕ → Bool
  mic_track : Option TrackId
  mic_enabled : Bool
  send_stop : Bool
  pumps : ℕ
  track_devices : ℕ → Option Device
  mic_source : Option (SourceId Device)

namespace RsEngine

variable (e : RsEngine Device)

def new : RsEngine Device where
  pc := false
  next := 0
  senders := fun _ => none
  audio_tracks := fun _ => false
  mic_track := none
  mic_enabled := true
  send_stop := false
  pumps := 0
  track_devices := fun _ => none
  mic_source := none

def create_peer_connection (made : Bool) : RsEngine Device :=
  { e with
    pc := e.pc || made
    senders := fun _ => none
    audio_tracks := fun _ => false
    mic_track := none
    send_stop := false
    pumps := 0
    mic_source := none }

/-- An error leaves the senders. -/
def close_peer_connection (closed : Bool) : RsEngine Device :=
  let e := { e with pc := false, send_stop := true, pumps := 0, mic_source := none }
  if closed then { e with senders := fun _ => none, audio_tracks := fun _ => false } else e

def add_transceiver (kind : Kind) (sender_id : ℕ) (added : Bool) : RsEngine Device :=
  if e.pc && added then
    { e with
      next := e.next + 1
      senders := Function.update e.senders sender_id (some (e.next, kind))
      audio_tracks := match kind with
        | .audio => Function.update e.audio_tracks sender_id true
        | .video => e.audio_tracks }
  else e

def attach_mic (source : Bool) (sender_id : ℕ) (track_id : TrackId) (starts : Bool) : RsEngine Device :=
  if e.audio_tracks sender_id then
    let e := { e with audio_tracks := Function.update e.audio_tracks sender_id false }
    if source then
      { e with
        mic_source := startMic starts (deviceFor e.track_devices track_id) e.mic_source
        mic_track := some track_id
        mic_enabled := true
        pumps := if e.send_stop then e.pumps else e.pumps + 1 }
    else e
  else e

def replace_track (source : Bool) (sender_id : ℕ) (track_id : TrackId) (starts : Bool) : RsEngine Device :=
  match e.senders sender_id with
  | some (_, .audio) => e.attach_mic source sender_id track_id starts
  | _ => e

def set_track_enabled (track_id : TrackId) (enabled : Bool) : RsEngine Device :=
  if e.mic_track = some track_id then { e with mic_enabled := enabled } else e

def set_track_device (track : ℕ) (device : Device) : RsEngine Device :=
  { e with track_devices := Function.update e.track_devices track (some device) }

end RsEngine

structure LwEngine (Device : Type) where
  pc : Bool
  next : ℕ
  senders : ℕ → Option (ℕ × Kind)
  mic : Option (TrackId × Bool)
  /-- The track that feeds the camera, and the transceiver that it is set on. -/
  camera : Option (TrackId × ℕ)
  /-- Whether the track set on a video transceiver is enabled. -/
  tracks : ℕ → Option Bool
  track_devices : ℕ → Option Device
  mic_source : Option (SourceId Device)
  camera_source : Option (SourceId Device)

namespace LwEngine

variable (e : LwEngine Device)

def new : LwEngine Device where
  pc := false
  next := 0
  senders := fun _ => none
  mic := none
  camera := none
  tracks := fun _ => none
  track_devices := fun _ => none
  mic_source := none
  camera_source := none

def close_peer_connection : LwEngine Device :=
  { e with
    pc := false
    senders := fun _ => none
    mic_source := if e.mic.isSome then none else e.mic_source
    mic := none
    camera_source := if e.camera.isSome then none else e.camera_source
    camera := none
    tracks := fun _ => none }

def create_peer_connection (made : Bool) : LwEngine Device := { e.close_peer_connection with pc := made }

def add_transceiver (kind : Kind) (sender_id : ℕ) (added : Bool) : LwEngine Device :=
  if e.pc && added then
    { e with next := e.next + 1, senders := Function.update e.senders sender_id (some (e.next, kind)) }
  else e

/-- `CameraVideoSource::start` takes the new device. -/
def attach_camera (source : Bool) (transceiver : ℕ) (track_id : TrackId) (starts : Bool) : LwEngine Device :=
  if source then
    let stopped := if e.camera.any (·.1 ≠ track_id) then none else e.camera_source
    { e with
      camera_source := if starts then some (deviceFor e.track_devices track_id) else stopped
      tracks := Function.update e.tracks transceiver (some true)
      camera := some (track_id, transceiver) }
  else e

def replace_track (mic_source camera_source : Bool) (sender_id : ℕ) (track_id : TrackId) (starts : Bool) :
    LwEngine Device :=
  match e.senders sender_id with
  | none => e
  | some (transceiver, .video) => e.attach_camera camera_source transceiver track_id starts
  | some (_, .audio) =>
    if e.mic.isSome then e
    else if mic_source then
      { e with
        mic_source := startMic starts (deviceFor e.track_devices track_id) e.mic_source
        mic := some (track_id, true) }
    else e

def set_track_enabled (track_id : TrackId) (enabled : Bool) : LwEngine Device :=
  { e with
    mic := e.mic.map fun m => (m.1, if m.1 = track_id then enabled else m.2)
    tracks := match e.camera with
      | some (id, transceiver) =>
        if id = track_id then Function.update e.tracks transceiver (some enabled) else e.tracks
      | none => e.tracks }

def set_track_device (track : ℕ) (device : Device) : LwEngine Device :=
  { e with track_devices := Function.update e.track_devices track (some device) }

end LwEngine

/-- What the dispatcher drives. -/
structure Engine (Device E : Type) where
  create_peer_connection : E → Bool → E
  close_peer_connection : E → Bool → E
  add_transceiver : E → Kind → ℕ → Bool → E
  replace_track : E → ℕ → TrackId → Bool → E
  set_track_enabled : E → TrackId → Bool → E
  set_track_device : E → ℕ → Device → E
  senders : E → ℕ → Option (ℕ × Kind)

def rsEngine (mic_source : Bool) : Engine Device (RsEngine Device) where
  create_peer_connection := .create_peer_connection
  close_peer_connection := .close_peer_connection
  add_transceiver := .add_transceiver
  replace_track e := e.replace_track mic_source
  set_track_enabled := .set_track_enabled
  set_track_device := .set_track_device
  senders := RsEngine.senders

def lwEngine (mic_source camera_source : Bool) : Engine Device (LwEngine Device) where
  create_peer_connection := .create_peer_connection
  close_peer_connection e _ := e.close_peer_connection
  add_transceiver := .add_transceiver
  replace_track e := e.replace_track mic_source camera_source
  set_track_enabled := .set_track_enabled
  set_track_device := .set_track_device
  senders := LwEngine.senders

structure Redirector (Device E : Type) where
  engine : E
  stream_devices : ℕ → Option Device

def Redirector.handle {E : Type} (api : Engine Device E) (r : Redirector Device E) : Call Device → Redirector Device E
  | .createPeerConnection made => { r with engine := api.create_peer_connection r.engine made }
  | .close closed => { r with engine := api.close_peer_connection r.engine closed }
  | .addTransceiver kind sender_id added => { r with engine := api.add_transceiver r.engine kind sender_id added }
  | .createMediaStream (some id) (some device) =>
    { r with stream_devices := Function.update r.stream_devices id (some device) }
  | .createMediaStream _ _ => r
  | .createMediaStreamTrack id stream =>
    match id, stream.bind r.stream_devices with
    | some track, some device => { r with engine := api.set_track_device r.engine track device }
    | _, _ => r
  | .replaceTrack sender_id track_id starts =>
    { r with engine := api.replace_track r.engine sender_id track_id starts }
  | .onEnabledAttributeChanged (some id) (some enabled) =>
    { r with engine := api.set_track_enabled r.engine (some id) enabled }
  | .onEnabledAttributeChanged _ _ => r

end Rdpio.Webrtc
