import Rdpio.Lib.Run
import Rdpio.Webrtc.Redirector

/-!
# Muted is silent

What Teams said in its calls, kept beside the redirector: the track that each sender was last given, which
tracks are muted, and the device that a track's stream was created for.
-/

namespace Rdpio.Webrtc

open Lib

variable {Device E : Type}

structure Said (Device : Type) where
  /-- The track that an audio sender's last `replaceTrack` named, by its transceiver. -/
  audio : ℕ → Option ℕ
  video : ℕ → Option ℕ
  /-- The tracks whose last `onEnabledAttributeChanged` was false. -/
  muted : ℕ → Bool
  stream_device : ℕ → Option Device
  track_stream : ℕ → Option ℕ

namespace Said

variable (said : Said Device)

def new : Said Device := ⟨fun _ => none, fun _ => none, fun _ => false, fun _ => none, fun _ => none⟩

def device (t : ℕ) : Option Device := (said.track_stream t).bind said.stream_device

def source (t : ℕ) : SourceId Device := deviceFor said.device (some t)

def after (senders : ℕ → Option (ℕ × Kind)) : Call Device → Said Device
  | .createPeerConnection _ | .close _ => { said with audio := fun _ => none, video := fun _ => none }
  | .addTransceiver _ _ _ => said
  | .createMediaStream (some id) device =>
    { said with stream_device := Function.update said.stream_device id device }
  | .createMediaStream none _ => said
  | .createMediaStreamTrack (some id) stream =>
    { said with track_stream := Function.update said.track_stream id stream }
  | .createMediaStreamTrack none _ => said
  | .replaceTrack sender_id track_id _ =>
    match senders sender_id with
    | some (k, .audio) => { said with audio := Function.update said.audio k track_id }
    | some (k, .video) => { said with video := Function.update said.video k track_id }
    | none => said
  | .onEnabledAttributeChanged (some id) (some enabled) =>
    { said with muted := Function.update said.muted id !enabled }
  | .onEnabledAttributeChanged _ _ => said

/-- A sender of these was given a track that is not muted, whose source this is. -/
def Asked (given : ℕ → Option ℕ) (d : SourceId Device) : Prop :=
  ∃ k t, given k = some t ∧ said.muted t = false ∧ d = said.source t

def Steady (follows : ℕ → Prop) : Call Device → Prop
  | .createMediaStream (some id) device =>
    device = said.stream_device id ∨ device.isSome ∧ ∀ t, said.track_stream t ≠ some id
  | .createMediaStreamTrack (some id) stream =>
    stream.bind said.stream_device = said.device id ∨ (stream.bind said.stream_device).isSome ∧ ¬ follows id
  | _ => True

end Said

/-- The redirector, and what Teams said to it. -/
structure World (Device E : Type) where
  redirector : Redirector Device E
  said : Said Device

def World.step (api : Engine Device E) (w : World Device E) (call : Call Device) : World Device E :=
  ⟨w.redirector.handle api call, w.said.after (api.senders w.redirector.engine) call⟩

/-- What the redirector and its engine know of devices is what was said. -/
structure Devices (said : Said Device) (stream_devices track_devices : ℕ → Option Device) : Prop where
  streams : stream_devices = said.stream_device
  tracks : track_devices = said.device

theorem Devices.source_eq {said : Said Device} {stream_devices track_devices : ℕ → Option Device}
    (h : Devices said stream_devices track_devices) (t : ℕ) : deviceFor track_devices (some t) = said.source t := by
  rw [h.tracks]
  rfl

theorem Said.device_stream {said : Said Device} {id : ℕ} {device : Option Device}
    (h : device = said.stream_device id ∨ device.isSome ∧ ∀ t, said.track_stream t ≠ some id) :
    ({ said with stream_device := Function.update said.stream_device id device } : Said Device).device =
      said.device := by
  rcases h with rfl | ⟨-, hnone⟩
  · rw [Function.update_eq_self]
  · funext t
    unfold Said.device
    dsimp only
    rcases ht : said.track_stream t with _ | s
    · rfl
    · have hs : s ≠ id := fun hs => hnone t (by rw [ht, hs])
      rw [Option.bind_some, Option.bind_some, Function.update_of_ne hs]

theorem Said.device_track (said : Said Device) (id : ℕ) (stream : Option ℕ) :
    ({ said with track_stream := Function.update said.track_stream id stream } : Said Device).device =
      Function.update said.device id (stream.bind said.stream_device) := by
  funext t
  unfold Said.device
  dsimp only
  by_cases ht : t = id
  · rw [ht, Function.update_self, Function.update_self]
  · rw [Function.update_of_ne ht, Function.update_of_ne ht]

theorem Said.source_stream {said : Said Device} {id : ℕ} {device : Option Device}
    (h : device = said.stream_device id ∨ device.isSome ∧ ∀ t, said.track_stream t ≠ some id) (t : ℕ) :
    ({ said with stream_device := Function.update said.stream_device id device } : Said Device).source t =
      said.source t := by
  unfold Said.source
  rw [Said.device_stream h]

theorem Said.source_track {said : Said Device} {id t : ℕ} {stream : Option ℕ} {follows : ℕ → Prop}
    (h : stream.bind said.stream_device = said.device id ∨
      (stream.bind said.stream_device).isSome ∧ ¬ follows id) (ht : follows t) :
    ({ said with track_stream := Function.update said.track_stream id stream } : Said Device).source t =
      said.source t := by
  unfold Said.source
  rw [said.device_track]
  rcases h with h | ⟨-, hid⟩
  · rw [h, Function.update_eq_self]
  · have hne : t ≠ id := fun heq => hid (heq ▸ ht)
    unfold deviceFor
    rw [Option.bind_some, Option.bind_some, Function.update_of_ne hne]

theorem Devices.stream {said : Said Device} {stream_devices track_devices : ℕ → Option Device}
    (h : Devices said stream_devices track_devices) {id : ℕ} {device : Option Device}
    (hsteady : device = said.stream_device id ∨ device.isSome ∧ ∀ t, said.track_stream t ≠ some id) :
    Devices { said with stream_device := Function.update said.stream_device id device }
      (Function.update stream_devices id device) track_devices where
  streams := by rw [h.streams]
  tracks := h.tracks.trans (Said.device_stream hsteady).symm

theorem Devices.track {said : Said Device} {stream_devices track_devices : ℕ → Option Device}
    (h : Devices said stream_devices track_devices) (id : ℕ) (stream : Option ℕ) :
    Devices { said with track_stream := Function.update said.track_stream id stream } stream_devices
      (Function.update track_devices id (stream.bind said.stream_device)) where
  streams := h.streams
  tracks := by rw [said.device_track, h.tracks]

theorem Devices.update_none {said : Said Device} {stream_devices track_devices : ℕ → Option Device}
    (h : Devices said stream_devices track_devices) {id : ℕ} {device : Option Device} {follows : Prop}
    (hsteady : device = said.device id ∨ device.isSome ∧ follows) (hnone : device = none) :
    Function.update track_devices id none = track_devices := by
  subst hnone
  have hid : none = track_devices id := by
    rw [h.tracks]
    exact hsteady.resolve_right (by simp)
  rw [hid, Function.update_eq_self]

theorem Redirector.handle_stream (api : Engine Device E) (r : Redirector Device E) (id : ℕ)
    (device : Option Device) (h : device = r.stream_devices id ∨ device.isSome) :
    r.handle api (.createMediaStream (some id) device) =
      { r with stream_devices := Function.update r.stream_devices id device } := by
  rcases device with _ | device
  · have hnone : none = r.stream_devices id := h.resolve_right (by simp)
    have hsame : Function.update r.stream_devices id none = r.stream_devices := by
      rw [hnone, Function.update_eq_self]
    rw [hsame]
    rfl
  · rfl

theorem Redirector.handle_track (api : Engine Device E) {said : Said Device} {e : E} {id : ℕ} {stream : Option ℕ}
    {stream_devices track_devices : ℕ → Option Device} {follows : Prop} (keep : (ℕ → Option Device) → E)
    (hsame : keep track_devices = e)
    (hset : ∀ t d, api.set_track_device e t d = keep (Function.update track_devices t (some d)))
    (h : Devices said stream_devices track_devices)
    (hsteady : stream.bind said.stream_device = said.device id ∨ (stream.bind said.stream_device).isSome ∧ follows) :
    Redirector.handle api ⟨e, stream_devices⟩ (.createMediaStreamTrack (some id) stream) =
      ⟨keep (Function.update track_devices id (stream.bind said.stream_device)), stream_devices⟩ := by
  have hbind : stream.bind said.stream_device = stream.bind stream_devices := by rw [h.streams]
  rcases hdevice : stream.bind stream_devices with _ | d
  · rw [hbind, hdevice, h.update_none hsteady (hbind.trans hdevice), hsame]
    simp only [Redirector.handle, hdevice]
  · rw [hbind, hdevice, ← hset]
    simp only [Redirector.handle, hdevice]

/-! ## webrtc-rs -/

/-- What the microphone captures is sent. -/
def RsEngine.Sends (e : RsEngine Device) (d : SourceId Device) : Prop :=
  0 < e.pumps ∧ e.mic_enabled = true ∧ e.mic_source = some d

def RsGood (mic_source : Bool) (w : World Device (RsEngine Device)) (call : Call Device) : Prop :=
  w.said.Steady (fun t => w.redirector.engine.mic_track = some (some t)) call ∧
  match call with
  | .replaceTrack sender_id track_id _ =>
    ∀ k, mic_source = true → w.redirector.engine.senders sender_id = some (k, .audio) →
      if w.redirector.engine.audio_tracks sender_id then
        ∃ t, track_id = some t ∧ w.said.muted t = false ∧
          ∀ d, w.redirector.engine.mic_source = some d → d = w.said.source t
      else ∀ t, w.redirector.engine.mic_track = some (some t) → w.said.audio k = some t → track_id = some t
  | _ => True

/-- The mic is fed for a track that a sender was given, as it was muted or not, from its device. -/
structure RsEngine.Follows (e : RsEngine Device) (said : Said Device) : Prop where
  track : ∃ t k, e.mic_track = some (some t) ∧ said.audio k = some t ∧ e.mic_enabled = !said.muted t ∧
    ∀ d, e.mic_source = some d → d = said.source t

theorem RsEngine.Follows.congr {e e' : RsEngine Device} {said said' : Said Device} (h : e.Follows said)
    (htrack : e'.mic_track = e.mic_track) (henabled : e'.mic_enabled = e.mic_enabled)
    (hcaptured : e'.mic_source = e.mic_source) (haudio : said'.audio = said.audio)
    (hmuted : said'.muted = said.muted)
    (hsource : ∀ t, e.mic_track = some (some t) → said'.source t = said.source t) : e'.Follows said' := by
  obtain ⟨t, k, hmic, hgiven, hsame, hdevice⟩ := h.track
  refine ⟨t, k, htrack.trans hmic, by rw [haudio, hgiven], by rw [henabled, hmuted, hsame], fun d hd => ?_⟩
  rw [hsource t hmic]
  exact hdevice d (hcaptured ▸ hd)

structure RsInv (mic_source : Bool) (w : World Device (RsEngine Device)) : Prop where
  devices : Devices w.said w.redirector.stream_devices w.redirector.engine.track_devices
  idle : mic_source = false → w.redirector.engine.pumps = 0
  follows : 0 < w.redirector.engine.pumps → w.redirector.engine.Follows w.said

section Rs

variable {mic_source : Bool} {w : World Device (RsEngine Device)}

theorem RsInv.of_stopped {said : Said Device} {r : Redirector Device (RsEngine Device)}
    (h : Devices said r.stream_devices r.engine.track_devices) (hpumps : r.engine.pumps = 0) :
    RsInv mic_source ⟨r, said⟩ :=
  ⟨h, fun _ => hpumps, fun hpos => absurd hpos (by rw [hpumps]; exact Nat.lt_irrefl 0)⟩

theorem RsInv.attach (h : RsInv mic_source w) {sender_id k t : ℕ} {starts : Bool} (hsource : mic_source = true)
    (hfresh : w.redirector.engine.audio_tracks sender_id = true) (hmuted : w.said.muted t = false)
    (hcaptured : ∀ d, w.redirector.engine.mic_source = some d → d = w.said.source t) :
    RsInv mic_source
      ⟨{ w.redirector with engine := w.redirector.engine.attach_mic mic_source sender_id (some t) starts },
        { w.said with audio := Function.update w.said.audio k (some t) }⟩ := by
  subst hsource
  unfold RsEngine.attach_mic
  rw [if_pos hfresh, if_pos rfl]
  refine ⟨h.devices.rec fun hs ht => ⟨hs, ht⟩, fun hno => absurd hno (by decide), fun _ => ⟨t, k, rfl, ?_, ?_, ?_⟩⟩
  · exact Function.update_self ..
  · show true = !w.said.muted t
    rw [hmuted]
    rfl
  · intro d hd
    show d = w.said.source t
    change startMic starts (deviceFor w.redirector.engine.track_devices (some t)) _ = some d at hd
    unfold startMic at hd
    split at hd
    · exact hcaptured d hd
    · split at hd
      · rw [h.devices.source_eq, Option.some_inj] at hd
        exact hd.symm
      · cases hd

section

variable {engine : RsEngine Device} {stream_devices : ℕ → Option Device} {said : Said Device}

theorem RsInv.replaced {sender_id k : ℕ} {track_id : TrackId} {starts : Bool}
    (h : RsInv mic_source ⟨⟨engine, stream_devices⟩, said⟩)
    (hgood : mic_source = true → if engine.audio_tracks sender_id then
        ∃ t, track_id = some t ∧ said.muted t = false ∧ ∀ d, engine.mic_source = some d → d = said.source t
      else ∀ t, engine.mic_track = some (some t) → said.audio k = some t → track_id = some t) :
    RsInv mic_source ⟨⟨engine.attach_mic mic_source sender_id track_id starts, stream_devices⟩,
      { said with audio := Function.update said.audio k track_id }⟩ := by
  cases hsource : mic_source
  · -- Without a source no pump ever runs.
    subst hsource
    have hattach : (engine.attach_mic false sender_id track_id starts).pumps = engine.pumps ∧
        (engine.attach_mic false sender_id track_id starts).track_devices = engine.track_devices := by
      unfold RsEngine.attach_mic
      split <;> exact ⟨rfl, rfl⟩
    refine .of_stopped ⟨h.devices.streams, hattach.2.trans h.devices.tracks⟩ (hattach.1.trans (h.idle rfl))
  · subst hsource
    have hgood := hgood rfl
    by_cases hfresh : engine.audio_tracks sender_id = true
    · rw [if_pos hfresh] at hgood
      obtain ⟨t, rfl, hmuted, hcaptured⟩ := hgood
      exact h.attach rfl hfresh hmuted hcaptured
    · rw [if_neg hfresh] at hgood
      have hattach : engine.attach_mic true sender_id track_id starts = engine := if_neg hfresh
      rw [hattach]
      refine ⟨⟨h.devices.streams, h.devices.tracks⟩, h.idle, fun hpos => ?_⟩
      obtain ⟨t, k', hmic, hgiven, hsame, hdevice⟩ := (h.follows hpos).track
      refine ⟨t, k', hmic, ?_, hsame, hdevice⟩
      show Function.update said.audio k track_id k' = some t
      by_cases hk : k' = k
      · subst hk
        rw [Function.update_self]
        exact hgood t hmic hgiven
      · rw [Function.update_of_ne hk]
        exact hgiven

theorem RsInv.set_enabled (h : RsInv mic_source ⟨⟨engine, stream_devices⟩, said⟩) (id : ℕ) (enabled : Bool) :
    RsInv mic_source ⟨⟨engine.set_track_enabled (some id) enabled, stream_devices⟩,
      { said with muted := Function.update said.muted id !enabled }⟩ := by
  unfold RsEngine.set_track_enabled
  by_cases hid : engine.mic_track = some (some id)
  · rw [if_pos hid]
    refine ⟨⟨h.devices.streams, h.devices.tracks⟩, h.idle, fun hpos => ?_⟩
    obtain ⟨t, k, hmic, hgiven, -, hdevice⟩ := (h.follows hpos).track
    have ht : t = id := by simpa using hmic.symm.trans hid
    subst ht
    refine ⟨t, k, hmic, hgiven, ?_, hdevice⟩
    show enabled = !Function.update said.muted t (!enabled) t
    rw [Function.update_self, Bool.not_not]
  · rw [if_neg hid]
    refine ⟨⟨h.devices.streams, h.devices.tracks⟩, h.idle, fun hpos => ?_⟩
    obtain ⟨t, k, hmic, hgiven, hsame, hdevice⟩ := (h.follows hpos).track
    have ht : t ≠ id := fun ht => hid (ht ▸ hmic)
    refine ⟨t, k, hmic, hgiven, ?_, hdevice⟩
    show engine.mic_enabled = !Function.update said.muted id (!enabled) t
    rw [Function.update_of_ne ht]
    exact hsame

end

theorem RsInv.step (h : RsInv mic_source w) (call : Call Device) (hgood : RsGood mic_source w call) :
    RsInv mic_source (w.step (rsEngine mic_source) call) := by
  obtain ⟨⟨engine, stream_devices⟩, said⟩ := w
  obtain ⟨hsteady, hgood⟩ := hgood
  cases call with
  | createPeerConnection made => exact .of_stopped ⟨h.devices.streams, h.devices.tracks⟩ rfl
  | close closed =>
    cases closed
    · exact .of_stopped ⟨h.devices.streams, h.devices.tracks⟩ rfl
    · exact .of_stopped ⟨h.devices.streams, h.devices.tracks⟩ rfl
  | addTransceiver kind sender_id added =>
    show RsInv mic_source ⟨⟨engine.add_transceiver kind sender_id added, stream_devices⟩, said⟩
    unfold RsEngine.add_transceiver
    split
    · exact ⟨⟨h.devices.streams, h.devices.tracks⟩, h.idle, fun hpos => ⟨(h.follows hpos).track⟩⟩
    · exact h
  | createMediaStream id device =>
    rcases id with _ | id
    · exact h
    have hsaid : Devices { said with stream_device := Function.update said.stream_device id device }
        (Function.update stream_devices id device) engine.track_devices := h.devices.stream hsteady
    have hredirector := Redirector.handle_stream (rsEngine mic_source) ⟨engine, stream_devices⟩ id device
      (hsteady.imp (fun heq => heq.trans (congrFun h.devices.streams.symm id)) And.left)
    unfold World.step
    rw [hredirector]
    exact ⟨hsaid, h.idle, fun hpos => (h.follows hpos).congr rfl rfl rfl rfl rfl fun t _ =>
      Said.source_stream hsteady t⟩
  | createMediaStreamTrack id stream =>
    rcases id with _ | id
    · exact h
    have hsaid := h.devices.track id stream
    have hredirector := Redirector.handle_track (rsEngine mic_source)
      (fun devices => { engine with track_devices := devices }) rfl (fun _ _ => rfl) h.devices hsteady
    unfold World.step
    rw [hredirector]
    exact ⟨hsaid, h.idle, fun hpos => (h.follows hpos).congr rfl rfl rfl rfl rfl fun t ht =>
      @Said.source_track _ _ _ _ _ (fun t => engine.mic_track = some (some t)) hsteady ht⟩
  | replaceTrack sender_id track_id starts =>
    rcases hsender : engine.senders sender_id with _ | ⟨k, kind⟩
    · have hstep : World.step (rsEngine mic_source) ⟨⟨engine, stream_devices⟩, said⟩
          (.replaceTrack sender_id track_id starts) = ⟨⟨engine, stream_devices⟩, said⟩ := by
        simp [World.step, Redirector.handle, rsEngine, RsEngine.replace_track, Said.after, hsender]
      rw [hstep]
      exact h
    rcases kind with _ | _
    · have hstep : World.step (rsEngine mic_source) ⟨⟨engine, stream_devices⟩, said⟩
          (.replaceTrack sender_id track_id starts) =
            ⟨⟨engine.attach_mic mic_source sender_id track_id starts, stream_devices⟩,
              { said with audio := Function.update said.audio k track_id }⟩ := by
        simp [World.step, Redirector.handle, rsEngine, RsEngine.replace_track, Said.after, hsender]
      rw [hstep]
      exact h.replaced fun hsource => hgood k hsource hsender
    · have hstep : World.step (rsEngine mic_source) ⟨⟨engine, stream_devices⟩, said⟩
          (.replaceTrack sender_id track_id starts) = ⟨⟨engine, stream_devices⟩,
            { said with video := Function.update said.video k track_id }⟩ := by
        simp [World.step, Redirector.handle, rsEngine, RsEngine.replace_track, Said.after, hsender]
      rw [hstep]
      exact ⟨⟨h.devices.streams, h.devices.tracks⟩, h.idle, fun hpos =>
        (h.follows hpos).congr rfl rfl rfl rfl rfl fun _ _ => rfl⟩
  | onEnabledAttributeChanged id enabled =>
    rcases id with _ | id
    · exact h
    rcases enabled with _ | enabled
    · exact h
    show RsInv mic_source ⟨⟨engine.set_track_enabled (some id) enabled, stream_devices⟩,
      { said with muted := Function.update said.muted id !enabled }⟩
    exact h.set_enabled id enabled

end Rs

/-! ## libwebrtc -/

/-- What the microphone captures is sent. -/
def LwEngine.SendsMic (e : LwEngine Device) (d : SourceId Device) : Prop :=
  (∃ id, e.mic = some (id, true)) ∧ e.mic_source = some d

/-- What the camera captures is sent. -/
def LwEngine.SendsCamera (e : LwEngine Device) (d : SourceId Device) : Prop :=
  (∃ k, e.tracks k = some true) ∧ e.camera_source = some d

/-- The mic or the camera is fed for the track. -/
def LwEngine.FedFor (e : LwEngine Device) (t : ℕ) : Prop :=
  (∃ b, e.mic = some (some t, b)) ∨ ∃ k, e.camera = some (some t, k)

def LwGood (mic_source camera_source : Bool) (w : World Device (LwEngine Device)) (call : Call Device) : Prop :=
  w.said.Steady w.redirector.engine.FedFor call ∧
  match call with
  | .replaceTrack sender_id track_id _ =>
    ∀ k, (mic_source = true → w.redirector.engine.senders sender_id = some (k, .audio) →
        (w.redirector.engine.mic = none → ∃ t, track_id = some t ∧ w.said.muted t = false) ∧
          ∀ t b, w.redirector.engine.mic = some (some t, b) → w.said.audio k = some t → track_id = some t) ∧
      (camera_source = true → w.redirector.engine.senders sender_id = some (k, .video) →
        (∃ t, track_id = some t ∧ w.said.muted t = false) ∧ ∀ k', k' ≠ k → w.redirector.engine.tracks k' ≠ some true)
  | _ => True

/-- The mic is fed for a track that a sender was given, as it was muted or not, from its device. -/
structure LwEngine.MicFollows (e : LwEngine Device) (said : Said Device) : Prop where
  off : e.mic = none → e.mic_source = none
  on : ∀ id b, e.mic = some (id, b) → ∃ t k, id = some t ∧ said.audio k = some t ∧ b = !said.muted t ∧
    ∀ d, e.mic_source = some d → d = said.source t

/-- So is the camera, and no other sender has it on. -/
structure LwEngine.CameraFollows (e : LwEngine Device) (said : Said Device) : Prop where
  off : e.camera = none → e.camera_source = none ∧ ∀ k, e.tracks k = none
  on : ∀ id k, e.camera = some (id, k) → ∃ t, id = some t ∧ said.video k = some t ∧
    e.tracks k = some (!said.muted t) ∧ (∀ d, e.camera_source = some d → d = said.source t) ∧
    ∀ k', k' ≠ k → e.tracks k' ≠ some true

structure LwInv (mic_source camera_source : Bool) (w : World Device (LwEngine Device)) : Prop where
  devices : Devices w.said w.redirector.stream_devices w.redirector.engine.track_devices
  unheard : mic_source = false → w.redirector.engine.mic = none
  unseen : camera_source = false → w.redirector.engine.camera = none
  mic : w.redirector.engine.MicFollows w.said
  camera : w.redirector.engine.CameraFollows w.said

section Lw

variable {mic_source camera_source : Bool} {w : World Device (LwEngine Device)} {e e' : LwEngine Device}
  {said said' : Said Device}

theorem LwEngine.MicFollows.congr (h : e.MicFollows said) (hmic : e'.mic = e.mic)
    (hcaptured : e'.mic_source = e.mic_source) (haudio : said'.audio = said.audio)
    (hmuted : said'.muted = said.muted)
    (hsource : ∀ t b, e.mic = some (some t, b) → said'.source t = said.source t) : e'.MicFollows said' where
  off hnone := hcaptured.trans (h.off (hmic.symm.trans hnone))
  on id b hon := by
    obtain ⟨t, k, rfl, hgiven, hsame, hdevice⟩ := h.on id b (hmic.symm.trans hon)
    refine ⟨t, k, rfl, by rw [haudio, hgiven], by rw [hmuted, hsame], fun d hd => ?_⟩
    rw [hsource t b (hmic.symm.trans hon)]
    exact hdevice d (hcaptured.symm.trans hd)

theorem LwEngine.CameraFollows.congr (h : e.CameraFollows said) (hcamera : e'.camera = e.camera)
    (htracks : e'.tracks = e.tracks) (hcaptured : e'.camera_source = e.camera_source)
    (hvideo : said'.video = said.video) (hmuted : said'.muted = said.muted)
    (hsource : ∀ t k, e.camera = some (some t, k) → said'.source t = said.source t) : e'.CameraFollows said' where
  off hnone := by
    rw [hcaptured, htracks]
    exact h.off (hcamera.symm.trans hnone)
  on id k hon := by
    obtain ⟨t, rfl, hgiven, hsame, hdevice, hothers⟩ := h.on id k (hcamera.symm.trans hon)
    refine ⟨t, rfl, by rw [hvideo, hgiven], by rw [hmuted, htracks, hsame], fun d hd => ?_, by rwa [htracks]⟩
    rw [hsource t k (hcamera.symm.trans hon)]
    exact hdevice d (hcaptured.symm.trans hd)

theorem LwInv.of_off {r : Redirector Device (LwEngine Device)}
    (h : Devices said r.stream_devices r.engine.track_devices) (hmic : r.engine.mic = none)
    (hheard : r.engine.mic_source = none) (hcamera : r.engine.camera = none)
    (hseen : r.engine.camera_source = none) (htracks : ∀ k, r.engine.tracks k = none) :
    LwInv mic_source camera_source ⟨r, said⟩ where
  devices := h
  unheard _ := hmic
  unseen _ := hcamera
  mic := ⟨fun _ => hheard, fun _ _ hon => absurd (hmic.symm.trans hon) (Option.some_ne_none _).symm⟩
  camera := ⟨fun _ => ⟨hseen, htracks⟩, fun _ _ hon => absurd (hcamera.symm.trans hon) (Option.some_ne_none _).symm⟩

theorem LwInv.closed (h : LwInv mic_source camera_source w) (made : Bool) (hsaid : w.said.device = said.device)
    (hstreams : w.said.stream_device = said.stream_device) :
    LwInv mic_source camera_source
      ⟨{ w.redirector with engine := { w.redirector.engine.close_peer_connection with pc := made } }, said⟩ := by
  refine .of_off ⟨h.devices.streams.trans hstreams, h.devices.tracks.trans hsaid⟩ rfl ?_ rfl ?_ fun _ => rfl
  · show (if w.redirector.engine.mic.isSome then none else w.redirector.engine.mic_source) = none
    split
    · rfl
    · rename_i hnone
      exact h.mic.off (by simpa using hnone)
  · show (if w.redirector.engine.camera.isSome then none else w.redirector.engine.camera_source) = none
    split
    · rfl
    · rename_i hnone
      exact (h.camera.off (by simpa using hnone)).1

theorem LwEngine.MicFollows.set_enabled (h : e.MicFollows said) (id : ℕ) (enabled : Bool) :
    (e.set_track_enabled (some id) enabled).MicFollows
      { said with muted := Function.update said.muted id !enabled } where
  off hnone := h.off (Option.map_eq_none_iff.mp hnone)
  on label b hon := by
    obtain ⟨⟨label', b'⟩, hmic, heq⟩ := Option.map_eq_some_iff.mp hon
    obtain ⟨t, k, rfl, hgiven, hsame, hdevice⟩ := h.on label' b' hmic
    cases heq
    refine ⟨t, k, rfl, hgiven, ?_, hdevice⟩
    show (if some t = some id then enabled else b') = !Function.update said.muted id (!enabled) t
    by_cases ht : t = id
    · rw [ht, if_pos rfl, Function.update_self, Bool.not_not]
    · rw [if_neg (by simpa using ht), Function.update_of_ne ht]
      exact hsame

theorem LwEngine.CameraFollows.set_enabled (h : e.CameraFollows said) (id : ℕ) (enabled : Bool) :
    (e.set_track_enabled (some id) enabled).CameraFollows
      { said with muted := Function.update said.muted id !enabled } where
  off hnone := by
    have hnone : e.camera = none := hnone
    refine ⟨(h.off hnone).1, fun k => ?_⟩
    simp only [LwEngine.set_track_enabled, hnone]
    exact (h.off hnone).2 k
  on label k hon := by
    have hon : e.camera = some (label, k) := hon
    obtain ⟨t, rfl, hgiven, hsame, hdevice, hothers⟩ := h.on label k hon
    have htracks : (e.set_track_enabled (some id) enabled).tracks =
        if some t = some id then Function.update e.tracks k (some enabled) else e.tracks := by
      simp only [LwEngine.set_track_enabled, hon]
    refine ⟨t, rfl, hgiven, ?_, hdevice, fun k' hk' => ?_⟩
    · show _ = some !Function.update said.muted id (!enabled) t
      rw [htracks]
      by_cases ht : t = id
      · rw [ht, if_pos rfl, Function.update_self, Function.update_self, Bool.not_not]
      · rw [if_neg (by simpa using ht), Function.update_of_ne ht]
        exact hsame
    · rw [htracks]
      split
      · rw [Function.update_of_ne hk']
        exact hothers k' hk'
      · exact hothers k' hk'

theorem LwEngine.MicFollows.replace (h : e.MicFollows said) {k sender_id : ℕ} {track_id : TrackId} {starts : Bool}
    (hsource : mic_source = false → e.mic = none) (hsender : e.senders sender_id = some (k, .audio))
    (hdevices : ∀ t, deviceFor e.track_devices (some t) = said.source t)
    (hgood : mic_source = true → (e.mic = none → ∃ t, track_id = some t ∧ said.muted t = false) ∧
      ∀ t b, e.mic = some (some t, b) → said.audio k = some t → track_id = some t) :
    (e.replace_track mic_source camera_source sender_id track_id starts).MicFollows
      { said with audio := Function.update said.audio k track_id } := by
  unfold LwEngine.replace_track
  rw [hsender]
  dsimp only
  rcases hmic : e.mic with _ | ⟨label, b⟩
  · rw [Option.isSome_none, if_neg Bool.false_ne_true]
    cases hmics : mic_source
    · exact ⟨fun _ => h.off hmic, fun _ _ hon => absurd (hmic.symm.trans hon) (Option.some_ne_none _).symm⟩
    · obtain ⟨t, rfl, hmuted⟩ := (hgood hmics).1 hmic
      refine ⟨fun hnone => absurd hnone (Option.some_ne_none _), fun label b hon => ?_⟩
      cases hon
      refine ⟨t, k, rfl, Function.update_self .., by rw [hmuted]; rfl, fun d hd => ?_⟩
      change startMic starts (deviceFor e.track_devices (some t)) e.mic_source = some d at hd
      show d = said.source t
      rw [h.off hmic, startMic, Option.isSome_none, if_neg Bool.false_ne_true] at hd
      split at hd
      · rw [hdevices, Option.some_inj] at hd
        exact hd.symm
      · cases hd
  · rw [Option.isSome_some, if_pos rfl]
    have hmics : mic_source = true := by
      rw [← Bool.not_eq_false]
      intro hno
      exact absurd (hmic.symm.trans (hsource hno)) (Option.some_ne_none _)
    refine ⟨fun hnone => absurd (hmic.symm.trans hnone) (Option.some_ne_none _), fun label' b' hon => ?_⟩
    obtain ⟨t, k', rfl, hgiven, hsame, hdevice⟩ := h.on label' b' hon
    refine ⟨t, k', rfl, ?_, hsame, hdevice⟩
    show Function.update said.audio k track_id k' = some t
    by_cases hk : k' = k
    · subst hk
      rw [Function.update_self]
      exact (hgood hmics).2 t b' hon hgiven
    · rw [Function.update_of_ne hk]
      exact hgiven

theorem LwEngine.CameraFollows.attach (h : e.CameraFollows said) {k t : ℕ} {starts : Bool}
    (hdevices : deviceFor e.track_devices (some t) = said.source t) (hmuted : said.muted t = false)
    (hothers : ∀ k', k' ≠ k → e.tracks k' ≠ some true) :
    (e.attach_camera true k (some t) starts).CameraFollows
      { said with video := Function.update said.video k (some t) } := by
  unfold LwEngine.attach_camera
  rw [if_pos rfl]
  refine ⟨fun hnone => absurd hnone (Option.some_ne_none _), fun label k' hon => ?_⟩
  cases hon
  refine ⟨t, rfl, Function.update_self .., ?_, fun d hd => ?_, fun k' hk' => ?_⟩
  · show Function.update e.tracks k (some true) k = some !said.muted t
    rw [Function.update_self, hmuted]
    rfl
  · show d = said.source t
    dsimp only at hd
    split at hd
    · rw [hdevices, Option.some_inj] at hd
      exact hd.symm
    · rcases hcamera : e.camera with _ | ⟨label, k0⟩
      · rw [hcamera, (h.off hcamera).1] at hd
        cases hd
      · obtain ⟨t', rfl, -, -, hdevice, -⟩ := h.on label k0 hcamera
        rw [hcamera, Option.any_some] at hd
        by_cases ht : t' = t
        · subst ht
          exact hdevice d (by simpa using hd)
        · rw [if_pos (by simpa using ht)] at hd
          cases hd
  · show Function.update e.tracks k (some true) k' ≠ some true
    rw [Function.update_of_ne hk']
    exact hothers k' hk'

section

variable {engine : LwEngine Device} {stream_devices : ℕ → Option Device} {said : Said Device} {sender_id k : ℕ}
variable {track_id : TrackId} {starts : Bool}

theorem LwInv.replaced_audio (h : LwInv mic_source camera_source ⟨⟨engine, stream_devices⟩, said⟩)
    (hsender : engine.senders sender_id = some (k, .audio))
    (hgood : mic_source = true → (engine.mic = none → ∃ t, track_id = some t ∧ said.muted t = false) ∧
      ∀ t b, engine.mic = some (some t, b) → said.audio k = some t → track_id = some t) :
    LwInv mic_source camera_source
      ⟨⟨engine.replace_track mic_source camera_source sender_id track_id starts, stream_devices⟩,
        { said with audio := Function.update said.audio k track_id }⟩ := by
  have hmic : (engine.replace_track mic_source camera_source sender_id track_id starts).MicFollows
      { said with audio := Function.update said.audio k track_id } :=
    h.mic.replace h.unheard hsender h.devices.source_eq hgood
  -- Nothing but the mic is touched, and that only where there is a source.
  have hrest : engine.replace_track mic_source camera_source sender_id track_id starts = engine ∨
      mic_source = true ∧ ∃ captured fed, engine.replace_track mic_source camera_source sender_id track_id
        starts = { engine with mic_source := captured, mic := fed } := by
    unfold LwEngine.replace_track
    rw [hsender]
    dsimp only
    split
    · exact .inl rfl
    · split
      · rename_i hmics
        exact .inr ⟨hmics, _, _, rfl⟩
      · exact .inl rfl
  rcases hrest with hsame | ⟨hmics, captured, fed, hsame⟩
  · rw [hsame] at hmic ⊢
    exact ⟨⟨h.devices.streams, h.devices.tracks⟩, h.unheard, h.unseen, hmic,
      h.camera.congr rfl rfl rfl rfl rfl fun _ _ _ => rfl⟩
  · rw [hsame] at hmic ⊢
    exact ⟨⟨h.devices.streams, h.devices.tracks⟩, fun hno => absurd (hmics.symm.trans hno) (by decide), h.unseen,
      hmic, h.camera.congr rfl rfl rfl rfl rfl fun _ _ _ => rfl⟩

theorem LwInv.replaced_video (h : LwInv mic_source camera_source ⟨⟨engine, stream_devices⟩, said⟩)
    (hgood : camera_source = true → (∃ t, track_id = some t ∧ said.muted t = false) ∧
      ∀ k', k' ≠ k → engine.tracks k' ≠ some true) :
    LwInv mic_source camera_source ⟨⟨engine.attach_camera camera_source k track_id starts, stream_devices⟩,
      { said with video := Function.update said.video k track_id }⟩ := by
  cases hcameras : camera_source
  · have hattach : engine.attach_camera false k track_id starts = engine := rfl
    subst hcameras
    rw [hattach]
    refine ⟨⟨h.devices.streams, h.devices.tracks⟩, h.unheard, h.unseen,
      h.mic.congr rfl rfl rfl rfl fun _ _ _ => rfl, ⟨h.camera.off, fun id k' hon => ?_⟩⟩
    exact absurd ((h.unseen rfl).symm.trans hon) (Option.some_ne_none _).symm
  · subst hcameras
    obtain ⟨⟨t, rfl, hmuted⟩, hothers⟩ := hgood rfl
    exact ⟨⟨h.devices.streams, h.devices.tracks⟩, h.unheard, fun hno => absurd hno (by decide),
      h.mic.congr rfl rfl rfl rfl fun _ _ _ => rfl,
      h.camera.attach (h.devices.source_eq t) hmuted hothers⟩

end

theorem LwInv.step (h : LwInv mic_source camera_source w) (call : Call Device)
    (hgood : LwGood mic_source camera_source w call) :
    LwInv mic_source camera_source (w.step (lwEngine mic_source camera_source) call) := by
  obtain ⟨⟨engine, stream_devices⟩, said⟩ := w
  obtain ⟨hsteady, hgood⟩ := hgood
  cases call with
  | createPeerConnection made => exact h.closed made rfl rfl
  | close closed => exact h.closed false rfl rfl
  | addTransceiver kind sender_id added =>
    show LwInv _ _ ⟨⟨engine.add_transceiver kind sender_id added, stream_devices⟩, said⟩
    unfold LwEngine.add_transceiver
    split
    · exact ⟨⟨h.devices.streams, h.devices.tracks⟩, h.unheard, h.unseen,
        h.mic.congr rfl rfl rfl rfl fun _ _ _ => rfl, h.camera.congr rfl rfl rfl rfl rfl fun _ _ _ => rfl⟩
    · exact h
  | createMediaStream id device =>
    rcases id with _ | id
    · exact h
    have hsaid : Devices { said with stream_device := Function.update said.stream_device id device }
        (Function.update stream_devices id device) engine.track_devices := h.devices.stream hsteady
    have hredirector := Redirector.handle_stream (lwEngine mic_source camera_source) ⟨engine, stream_devices⟩ id
      device (hsteady.imp (fun heq => heq.trans (congrFun h.devices.streams.symm id)) And.left)
    unfold World.step
    rw [hredirector]
    exact ⟨hsaid, h.unheard, h.unseen, h.mic.congr rfl rfl rfl rfl fun t _ _ => Said.source_stream hsteady t,
      h.camera.congr rfl rfl rfl rfl rfl fun t _ _ => Said.source_stream hsteady t⟩
  | createMediaStreamTrack id stream =>
    rcases id with _ | id
    · exact h
    have hsaid := h.devices.track id stream
    have hsource : ∀ t, engine.FedFor t → ({ said with
        track_stream := Function.update said.track_stream id stream } : Said Device).source t = said.source t :=
      fun t ht => @Said.source_track _ _ _ _ _ engine.FedFor hsteady ht
    have hredirector := Redirector.handle_track (lwEngine mic_source camera_source)
      (fun devices => { engine with track_devices := devices }) rfl (fun _ _ => rfl) h.devices hsteady
    unfold World.step
    rw [hredirector]
    exact ⟨hsaid, h.unheard, h.unseen,
      h.mic.congr rfl rfl rfl rfl fun t b hon => hsource t (.inl ⟨b, hon⟩),
      h.camera.congr rfl rfl rfl rfl rfl fun t k hon => hsource t (.inr ⟨k, hon⟩)⟩
  | replaceTrack sender_id track_id starts =>
    rcases hsender : engine.senders sender_id with _ | ⟨k, kind⟩
    · have hstep : World.step (lwEngine mic_source camera_source) ⟨⟨engine, stream_devices⟩, said⟩
          (.replaceTrack sender_id track_id starts) = ⟨⟨engine, stream_devices⟩, said⟩ := by
        simp [World.step, Redirector.handle, lwEngine, LwEngine.replace_track, Said.after, hsender]
      rw [hstep]
      exact h
    have hgood := hgood k
    rcases kind with _ | _
    · have hstep : World.step (lwEngine mic_source camera_source) ⟨⟨engine, stream_devices⟩, said⟩
          (.replaceTrack sender_id track_id starts) =
            ⟨⟨engine.replace_track mic_source camera_source sender_id track_id starts, stream_devices⟩,
              { said with audio := Function.update said.audio k track_id }⟩ := by
        simp [World.step, Redirector.handle, lwEngine, Said.after, hsender]
      rw [hstep]
      exact h.replaced_audio hsender fun hmics => hgood.1 hmics hsender
    · have hstep : World.step (lwEngine mic_source camera_source) ⟨⟨engine, stream_devices⟩, said⟩
          (.replaceTrack sender_id track_id starts) =
            ⟨⟨engine.attach_camera camera_source k track_id starts, stream_devices⟩,
              { said with video := Function.update said.video k track_id }⟩ := by
        simp [World.step, Redirector.handle, lwEngine, LwEngine.replace_track, Said.after, hsender]
      rw [hstep]
      exact h.replaced_video fun hcameras => hgood.2 hcameras hsender
  | onEnabledAttributeChanged id enabled =>
    rcases id with _ | id
    · exact h
    rcases enabled with _ | enabled
    · exact h
    exact ⟨⟨h.devices.streams, h.devices.tracks⟩, fun hno => Option.map_eq_none_iff.mpr (h.unheard hno), h.unseen,
      h.mic.set_enabled id enabled, h.camera.set_enabled id enabled⟩

end Lw

def World.start (engine : E) : World Device E := ⟨⟨engine, fun _ => none⟩, .new⟩

theorem devices_start : Devices (Said.new : Said Device) (fun _ => none) (fun _ => none) := ⟨rfl, rfl⟩

def RsSilent (w : World Device (RsEngine Device)) : Prop :=
  ∀ d, w.redirector.engine.Sends d → w.said.Asked w.said.audio d

/-- So are the microphone and the camera. -/
def LwSilent (w : World Device (LwEngine Device)) : Prop :=
  ∀ d, (w.redirector.engine.SendsMic d → w.said.Asked w.said.audio d) ∧
    (w.redirector.engine.SendsCamera d → w.said.Asked w.said.video d)

theorem RsInv.silent {mic_source : Bool} {w : World Device (RsEngine Device)} (h : RsInv mic_source w) :
    RsSilent w := by
  rintro d ⟨hpumps, henabled, hd⟩
  obtain ⟨t, k, -, hgiven, hsame, hdevice⟩ := (h.follows hpumps).track
  rw [henabled, eq_comm, Bool.not_eq_true'] at hsame
  exact ⟨k, t, hgiven, hsame, hdevice d hd⟩

theorem LwInv.silent {mic_source camera_source : Bool} {w : World Device (LwEngine Device)}
    (h : LwInv mic_source camera_source w) : LwSilent w := by
  refine fun d => ⟨fun ⟨⟨id, hon⟩, hd⟩ => ?_, fun ⟨⟨k, hk⟩, hd⟩ => ?_⟩
  · obtain ⟨t, k, -, hgiven, hsame, hdevice⟩ := h.mic.on id true hon
    rw [eq_comm, Bool.not_eq_true'] at hsame
    exact ⟨k, t, hgiven, hsame, hdevice d hd⟩
  · rcases hcamera : w.redirector.engine.camera with _ | ⟨id, k0⟩
    · exact absurd (((h.camera.off hcamera).2 k).symm.trans hk) (Option.some_ne_none _).symm
    obtain ⟨t, -, hgiven, hsame, hdevice, hothers⟩ := h.camera.on id k0 hcamera
    have hk0 : k = k0 := by
      by_contra hne
      exact hothers k hne hk
    rw [← hk0, hk, Option.some_inj, eq_comm, Bool.not_eq_true'] at hsame
    exact ⟨k0, t, hgiven, hsame, hdevice d hd⟩

/-- In a run none of whose calls takes a wrong branch, a call sends nothing that is muted, with either engine. -/
theorem muted_is_silent (mic_source camera_source : Bool) (calls : List (Call Device)) :
    (Along (World.step (rsEngine mic_source)) (RsGood mic_source) (.start .new) calls →
      ∀ done, done <+: calls → RsSilent (run (World.step (rsEngine mic_source)) (.start .new) done)) ∧
    (Along (World.step (lwEngine mic_source camera_source)) (LwGood mic_source camera_source) (.start .new) calls →
      ∀ done, done <+: calls → LwSilent (run (World.step (lwEngine mic_source camera_source)) (.start .new) done)) := by
  refine ⟨fun hgood done hdone => ?_, fun hgood done hdone => ?_⟩
  · have hstart : RsInv mic_source (.start (RsEngine.new : RsEngine Device)) := .of_stopped devices_start rfl
    exact (invariant_along _ hstart (fun _ call h hcall => h.step call hcall) (hgood.of_prefix hdone)).silent
  · have hstart : LwInv mic_source camera_source (.start (LwEngine.new : LwEngine Device)) :=
      .of_off devices_start rfl rfl rfl rfl fun _ => rfl
    exact (invariant_along _ hstart (fun _ call h hcall => h.step call hcall) (hgood.of_prefix hdone)).silent

def plainCall (kind : Kind) : List (Call Unit) :=
  [.createPeerConnection true, .addTransceiver kind 1 true, .createMediaStream (some 7) (some ()),
    .createMediaStreamTrack (some 5) (some 7), .replaceTrack 1 (some 5) true,
    .onEnabledAttributeChanged (some 5) (some false)]

theorem muted_is_silent_plain : RsSilent (run (World.step (rsEngine true)) (.start .new) (plainCall .audio)) ∧
      LwSilent (run (World.step (lwEngine true true)) (.start .new) (plainCall .video)) := by
  refine ⟨(muted_is_silent true true (plainCall .audio)).1 ?_ _ (List.prefix_refl _),
    (muted_is_silent true true (plainCall .video)).2 ?_ _ (List.prefix_refl _)⟩
  · refine ⟨⟨trivial, trivial⟩, ⟨trivial, trivial⟩, ⟨.inr ⟨rfl, fun t h => ?_⟩, trivial⟩,
      ⟨.inr ⟨rfl, fun h => ?_⟩, trivial⟩, ⟨trivial, fun k _ _ => ?_⟩, ⟨trivial, trivial⟩, trivial⟩
    · exact Option.some_ne_none _ h.symm
    · exact Option.some_ne_none _ h.symm
    · exact (if_pos rfl).mpr ⟨5, rfl, rfl, fun d hd => absurd hd.symm (Option.some_ne_none _)⟩
  · refine ⟨⟨trivial, trivial⟩, ⟨trivial, trivial⟩, ⟨.inr ⟨rfl, fun t h => ?_⟩, trivial⟩,
      ⟨.inr ⟨rfl, fun h => ?_⟩, trivial⟩, ⟨trivial, fun k => ⟨fun _ hk => ?_, fun _ _ => ⟨⟨5, rfl, rfl⟩, ?_⟩⟩⟩,
      ⟨trivial, trivial⟩, trivial⟩
    · exact Option.some_ne_none _ h.symm
    · rcases h with ⟨_, h⟩ | ⟨_, h⟩ <;> exact Option.some_ne_none _ h.symm
    · cases hk
    · exact fun _ _ h => Option.some_ne_none _ h.symm

/-- A track is muted, and then given to a sender. -/
def mutedCall (kind : Kind) : List (Call Unit) :=
  [.createPeerConnection true, .addTransceiver kind 1 true, .onEnabledAttributeChanged (some 5) (some false),
    .replaceTrack 1 (some 5) true]

/-- What is muted before it is attached is sent: the microphone with both engines, and the camera. -/
theorem sent_though_muted : ¬ RsSilent (run (World.step (rsEngine true)) (.start .new) (mutedCall .audio)) ∧
      ¬ LwSilent (run (World.step (lwEngine true true)) (.start .new) (mutedCall .audio)) ∧
      ¬ LwSilent (run (World.step (lwEngine true true)) (.start .new) (mutedCall .video)) := by
  have hnone : ∀ (k t : ℕ), Function.update (fun _ => none) 0 (some 5) k = some t → t = 5 := by
    intro k t h
    by_cases hk : k = 0
    · rw [hk, Function.update_self] at h
      exact (Option.some_inj.mp h).symm
    · rw [Function.update_of_ne hk] at h
      cases h
  refine ⟨fun h => ?_, fun h => ?_, fun h => ?_⟩
  · obtain ⟨k, t, hgiven, hmuted, -⟩ := h (.track (some 5)) ⟨Nat.zero_lt_one, rfl, rfl⟩
    rw [hnone k t hgiven] at hmuted
    cases hmuted
  · obtain ⟨k, t, hgiven, hmuted, -⟩ := (h (.track (some 5))).1 ⟨⟨_, rfl⟩, rfl⟩
    rw [hnone k t hgiven] at hmuted
    cases hmuted
  · obtain ⟨k, t, hgiven, hmuted, -⟩ := (h (.track (some 5))).2 ⟨⟨0, rfl⟩, rfl⟩
    rw [hnone k t hgiven] at hmuted
    cases hmuted

end Rdpio.Webrtc
