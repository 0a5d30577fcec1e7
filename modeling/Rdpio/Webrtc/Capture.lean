import Rdpio.Lib.Run
import Rdpio.Webrtc.Redirector

/-!
# Capture and calls

The bridge's `run` (`crates/rdp-webrtc/src/bridge.rs`) with the dispatcher and the libwebrtc engine under it,
as far as they decide what captures: the microphone and the camera sources, the tasks that feed their frames
into tracks, and the peer connections.
-/

namespace Rdpio.Webrtc.Capture

open Lib

/-- What `run` is told, as far as the engine acts on it. -/
inductive Call
  | createPeerConnection (made : Bool)
  | close
  | addTransceiver (kind : Kind) (sender_id : ℕ) (added : Bool)
  /-- With whether the source starts, and whether the library sets the track on the sender. -/
  | replaceTrack (sender_id : ℕ) (track_id : TrackId) (starts set : Bool)
  /-- Any other message, one that does not parse among them. -/
  | other
deriving DecidableEq

structure Engine where
  pc : Option ℕ
  senders : ℕ → Option Kind
  mic : Option TrackId
  camera : Option TrackId
  /-- The flag that stops this peer connection's pumps. -/
  send_stop : ℕ

namespace Engine

variable (e : Engine)

def attached : Kind → Option TrackId
  | .audio => e.mic
  | .video => e.camera

def setAttached (track_id : Option TrackId) : Kind → Engine
  | .audio => { e with mic := track_id }
  | .video => { e with camera := track_id }

variable {e} {k : Kind} {track_id : Option TrackId}

@[simp]
theorem pc_setAttached : (e.setAttached track_id k).pc = e.pc := by cases k <;> rfl

@[simp]
theorem senders_setAttached : (e.setAttached track_id k).senders = e.senders := by cases k <;> rfl

@[simp]
theorem send_stop_setAttached : (e.setAttached track_id k).send_stop = e.send_stop := by cases k <;> rfl

@[simp]
theorem attached_setAttached : (e.setAttached track_id k).attached k = track_id := by cases k <;> rfl

theorem attached_setAttached_of_ne {k' : Kind} (h : k' ≠ k) :
    (e.setAttached track_id k).attached k' = e.attached k' := by
  cases k <;> cases k' <;> first | rfl | exact absurd rfl h

theorem setAttached_attached : e.setAttached (e.attached k) k = e := by cases k <;> rfl

end Engine

structure Pump where
  kind : Kind
  stop : ℕ
  track : ℕ
deriving DecidableEq

structure Peer where
  id : ℕ
  channel : ℕ
deriving DecidableEq

structure Frame where
  kind : Kind
  track : ℕ
  attached : Option ℕ
deriving DecidableEq

structure State where
  engine : Engine
  /-- `run`'s current channel. -/
  channel : Option ℕ
  /-- The channels that were created, or carried data, and were not closed since. -/
  opened : ℕ → Bool
  peers : List Peer
  /-- The tasks that have not ended. -/
  pumps : List Pump
  /-- The flags that are set. -/
  stopped : ℕ → Bool
  capturing : Kind → Bool
  /-- The track that was attached last to a sender for each source. -/
  last : Kind → Option ℕ
  frames : List Frame
  next : ℕ

namespace State

variable (b : State)

def fresh : Engine where
  pc := none
  senders := fun _ => none
  mic := none
  camera := none
  send_stop := b.next

def new : State where
  engine := { pc := none, senders := fun _ => none, mic := none, camera := none, send_stop := 0 }
  channel := none
  opened := fun _ => false
  peers := []
  pumps := []
  stopped := fun _ => false
  capturing := fun _ => false
  last := fun _ => none
  frames := []
  next := 1

/-- A source is stopped if its track is attached. -/
def close_peer_connection : State :=
  { b with
    stopped := Function.update b.stopped b.engine.send_stop true
    capturing := fun k => b.capturing k && (b.engine.attached k).isNone
    peers := b.peers.filter (b.engine.pc ≠ some ·.id)
    engine := { b.engine with pc := none, senders := fun _ => none, mic := none, camera := none } }

def create_peer_connection (channel_id : ℕ) (made : Bool) : State :=
  let b := b.close_peer_connection
  let b := { b with engine.send_stop := b.next, next := b.next + 1 }
  if made then { b with engine.pc := some b.next, peers := ⟨b.next, channel_id⟩ :: b.peers, next := b.next + 1 } else b

def add_transceiver (kind : Kind) (sender_id : ℕ) (added : Bool) : State :=
  if b.engine.pc.isSome && added then
    { b with engine.senders := Function.update b.engine.senders sender_id (some kind) }
  else b

def attach (k : Kind) (track_id : TrackId) : State :=
  { b with
    engine := b.engine.setAttached (some track_id) k
    pumps := ⟨k, b.engine.send_stop, b.next⟩ :: b.pumps
    last := Function.update b.last k (some b.next)
    next := b.next + 1 }

def attach_mic (track_id : TrackId) (starts set : Bool) : State :=
  let b := { b with capturing := Function.update b.capturing .audio (starts || b.capturing .audio) }
  if set then b.attach .audio track_id else b

def attach_camera (track_id : TrackId) (starts set : Bool) : State :=
  let kept := b.capturing .video && !b.engine.camera.any (· ≠ track_id)
  let b := { b with
    engine := b.engine.setAttached none .video
    capturing := Function.update b.capturing .video (starts || kept) }
  if set then b.attach .video track_id else b

/-- `sources` are the capture sources that the host has. -/
def replace_track (sources : Kind → Bool) (sender_id : ℕ) (track_id : TrackId) (starts set : Bool) : State :=
  match b.engine.senders sender_id with
  | none => b
  | some .video => if sources .video then b.attach_camera track_id starts set else b
  | some .audio =>
    if b.engine.mic.isSome then b else if sources .audio then b.attach_mic track_id starts set else b

def handle (sources : Kind → Bool) (channel_id : ℕ) : Call → State
  | .createPeerConnection made => b.create_peer_connection channel_id made
  | .close => b.close_peer_connection
  | .addTransceiver kind sender_id added => b.add_transceiver kind sender_id added
  | .replaceTrack sender_id track_id starts set => b.replace_track sources sender_id track_id starts set
  | .other => b

end State

inductive Step
  | create (channel_id : ℕ)
  | data (channel_id : ℕ) (call : Call)
  | close (channel_id : ℕ)
  /-- A pump takes a frame that its source has captured. -/
  | frame (i : ℕ)
  /-- A pump checks its flag, which it does before each pass only. -/
  | check (i : ℕ)
deriving DecidableEq

def State.step (sources : Kind → Bool) (b : State) : Step → State
  | .create channel_id =>
    { b with
      engine := b.fresh
      channel := some channel_id
      opened := Function.update b.opened channel_id true
      next := b.next + 1 }
  | .data channel_id call =>
    { b with
      channel := some channel_id
      opened := Function.update b.opened channel_id true }.handle sources channel_id call
  | .close channel_id =>
    { b with
      channel := if b.channel = some channel_id then none else b.channel
      opened := Function.update b.opened channel_id false }
  | .frame i =>
    match b.pumps[i]? with
    | some p =>
      if b.capturing p.kind then { b with frames := b.frames ++ [⟨p.kind, p.track, b.last p.kind⟩] } else b
    | none => b
  | .check i =>
    match b.pumps[i]? with
    | some p => if b.stopped p.stop then { b with pumps := b.pumps.eraseIdx i } else b
    | none => b

def State.Runs (b : State) (k : Kind) : Prop := ∃ p ∈ b.pumps, p.kind = k ∧ b.stopped p.stop = false

/-- Nothing captures but for the call of the current channel, and nothing is left of any other. -/
structure Contained (b : State) : Prop where
  /-- A source captures, and its pump runs, only for an attached track of the engine's peer connection. -/
  attached : ∀ k, b.capturing k = true ∨ b.Runs k → b.channel.isSome ∧ b.engine.pc.isSome ∧ (b.engine.attached k).isSome
  one : ∀ k, b.pumps.countP (·.kind = k) ≤ 1
  last : ∀ p ∈ b.pumps, b.last p.kind = some p.track
  frames : ∀ f ∈ b.frames, f.attached = some f.track
  peers : ∀ p ∈ b.peers, b.engine.pc = some p.id ∧ b.opened p.channel = true

/-- The sender is of this kind, there is a source, and a microphone is not attached yet. -/
def State.Starts (b : State) (sources : Kind → Bool) (sender_id : ℕ) (k : Kind) : Prop :=
  b.engine.senders sender_id = some k ∧ sources k = true ∧ (k = .audio → b.engine.mic = none)

def State.Free (b : State) (k : Kind) (starts set : Bool) : Prop :=
  if set then ∀ p ∈ b.pumps, p.kind ≠ k else b.engine.attached k = none ∧ starts = false

def Proper (sources : Kind → Bool) (b : State) : Step → Prop
  | .create _ => b.engine.pc = none
  | .close channel_id =>
    (∀ p ∈ b.peers, p.channel ≠ channel_id) ∧ (b.channel = some channel_id → ∀ k, b.engine.attached k = none)
  | .data _ (.replaceTrack sender_id _ starts set) => ∀ k, b.Starts sources sender_id k → b.Free k starts set
  | _ => True

/-! ## What holds of every run -/

/-- The engine's peer connection has a flag that is not set, and each attached track a pump with that flag. -/
structure Sound (b : State) : Prop where
  fresh : ∀ n, b.next ≤ n → b.stopped n = false
  flag : b.engine.send_stop < b.next
  idle : b.engine.pc = none → (∀ s, b.engine.senders s = none) ∧ ∀ k, b.engine.attached k = none
  live : b.engine.pc.isSome → b.stopped b.engine.send_stop = false
  peer : ∀ id, b.engine.pc = some id → ∃ p ∈ b.peers, p.id = id
  pumped : ∀ k, (b.engine.attached k).isSome → ∃ p ∈ b.pumps, p.kind = k ∧ p.stop = b.engine.send_stop

section
variable {b : State} {k : Kind}

theorem Sound.pc_of_attached (h : Sound b) (hk : (b.engine.attached k).isSome) : b.engine.pc.isSome := by
  by_contra hpc
  rw [(h.idle (Option.not_isSome_iff_eq_none.mp hpc)).2 k] at hk
  exact Bool.noConfusion hk

theorem Sound.pc_of_sender (h : Sound b) {sender_id : ℕ} (hk : b.engine.senders sender_id = some k) :
    b.engine.pc.isSome := by
  by_contra hpc
  rw [(h.idle (Option.not_isSome_iff_eq_none.mp hpc)).1 sender_id] at hk
  cases hk

theorem Sound.runs (h : Sound b) (hk : (b.engine.attached k).isSome) : b.Runs k := by
  obtain ⟨p, hp, hkind, hstop⟩ := h.pumped k hk
  exact ⟨p, hp, hkind, by rw [hstop]; exact h.live (h.pc_of_attached hk)⟩

theorem Sound.of_none (fresh : ∀ n, b.next ≤ n → b.stopped n = false) (flag : b.engine.send_stop < b.next)
    (hpc : b.engine.pc = none) (hsenders : ∀ s, b.engine.senders s = none)
    (hattached : ∀ k, b.engine.attached k = none) : Sound b where
  fresh := fresh
  flag := flag
  idle _ := ⟨hsenders, hattached⟩
  live h := by
    rw [hpc] at h
    exact Bool.noConfusion h
  peer id h := by
    rw [hpc] at h
    cases h
  pumped k h := by
    rw [hattached k] at h
    exact Bool.noConfusion h

theorem sound_new : Sound .new :=
  .of_none (fun _ _ => rfl) Nat.zero_lt_one rfl (fun _ => rfl) fun k => by cases k <;> rfl

theorem attached_close (k : Kind) : b.close_peer_connection.engine.attached k = none := by cases k <;> rfl

theorem Sound.close_peer_connection (h : Sound b) : Sound b.close_peer_connection := by
  refine .of_none (fun n hn => ?_) h.flag rfl (fun _ => rfl) attached_close
  have hne : n ≠ b.engine.send_stop := Nat.ne_of_gt (Nat.lt_of_lt_of_le h.flag hn)
  exact (Function.update_of_ne hne ..).trans (h.fresh n hn)

theorem Sound.create_peer_connection (h : Sound b) (channel_id : ℕ) (made : Bool) :
    Sound (b.create_peer_connection channel_id made) := by
  have hclosed := h.close_peer_connection
  cases made with
  | false =>
    exact .of_none (fun n hn => hclosed.fresh n (Nat.le_of_succ_le hn)) (Nat.lt_succ_self _) rfl (fun _ => rfl)
      fun k => by cases k <;> rfl
  | true =>
    exact {
      fresh := fun n hn => hclosed.fresh n (Nat.le_of_succ_le (Nat.le_of_succ_le hn))
      flag := Nat.lt_trans (Nat.lt_succ_self _) (Nat.lt_succ_self _)
      idle := fun hnone => by cases hnone
      live := fun _ => hclosed.fresh _ (Nat.le_refl _)
      peer := fun id hid => ⟨_, List.mem_cons_self, Option.some.inj hid⟩
      pumped := fun k hk => by cases k <;> exact Bool.noConfusion hk }

theorem Sound.attach (h : Sound b) (hpc : b.engine.pc.isSome) (track_id : TrackId) : Sound (b.attach k track_id) where
  fresh n hn := h.fresh n (Nat.le_of_succ_le hn)
  flag := by
    simp only [State.attach, Engine.send_stop_setAttached]
    exact Nat.lt_succ_of_lt h.flag
  idle hnone := by
    simp only [State.attach, Engine.pc_setAttached] at hnone
    rw [hnone] at hpc
    exact Bool.noConfusion hpc
  live _ := by
    simp only [State.attach, Engine.send_stop_setAttached]
    exact h.live hpc
  peer id hid := by
    simp only [State.attach, Engine.pc_setAttached] at hid ⊢
    exact h.peer id hid
  pumped k' hk' := by
    simp only [State.attach, Engine.send_stop_setAttached] at hk' ⊢
    by_cases hkk : k' = k
    · exact ⟨_, List.mem_cons_self, hkk.symm, rfl⟩
    · rw [Engine.attached_setAttached_of_ne hkk] at hk'
      obtain ⟨p, hp, hrest⟩ := h.pumped k' hk'
      exact ⟨p, List.mem_cons_of_mem _ hp, hrest⟩

end

def State.started (b : State) (k : Kind) (captures : Bool) : State :=
  { b with engine := b.engine.setAttached none k, capturing := Function.update b.capturing k captures }

section
variable {b : State} {k : Kind}

theorem Sound.started (h : Sound b) (captures : Bool) : Sound (b.started k captures) where
  fresh := h.fresh
  flag := by
    simp only [State.started, Engine.send_stop_setAttached]
    exact h.flag
  idle hnone := by
    simp only [State.started, Engine.pc_setAttached, Engine.senders_setAttached] at hnone ⊢
    refine ⟨(h.idle hnone).1, fun k' => ?_⟩
    by_cases hkk : k' = k
    · rw [hkk, Engine.attached_setAttached]
    · rw [Engine.attached_setAttached_of_ne hkk, (h.idle hnone).2]
  live hpc := by
    simp only [State.started, Engine.pc_setAttached, Engine.send_stop_setAttached] at hpc ⊢
    exact h.live hpc
  peer id hid := by
    simp only [State.started, Engine.pc_setAttached] at hid ⊢
    exact h.peer id hid
  pumped k' hk' := by
    simp only [State.started, Engine.send_stop_setAttached] at hk' ⊢
    by_cases hkk : k' = k
    · rw [hkk, Engine.attached_setAttached] at hk'
      exact Bool.noConfusion hk'
    · rw [Engine.attached_setAttached_of_ne hkk] at hk'
      exact h.pumped k' hk'

theorem replace_track_eq (sources : Kind → Bool) (b : State) (sender_id : ℕ) (track_id : TrackId) (starts set : Bool) :
    b.replace_track sources sender_id track_id starts set = b ∧ (∀ k, ¬b.Starts sources sender_id k) ∨
      ∃ k kept, b.Starts sources sender_id k ∧ (kept = true → b.capturing k = true) ∧
        b.replace_track sources sender_id track_id starts set =
          if set then (b.started k (starts || kept)).attach k track_id else b.started k (starts || kept) := by
  unfold State.Starts
  unfold State.replace_track
  cases hsender : b.engine.senders sender_id with
  | none => exact .inl ⟨rfl, fun k hk => by cases hk.1⟩
  | some k =>
    cases k with
    | audio =>
      dsimp only
      by_cases hmic : b.engine.mic.isSome
      · refine .inl ⟨if_pos hmic, fun k hk => ?_⟩
        rw [hk.2.2 (Option.some.inj hk.1).symm] at hmic
        cases hmic
      rw [if_neg hmic]
      by_cases hsource : sources .audio
      · have hnone : b.engine.mic = none := Option.not_isSome_iff_eq_none.mp hmic
        have hengine : b.engine.setAttached none .audio = b.engine := by
          rw [← hnone]
          exact Engine.setAttached_attached (k := .audio)
        refine .inr ⟨.audio, b.capturing .audio, ⟨rfl, hsource, fun _ => hnone⟩, id, ?_⟩
        rw [if_pos hsource, State.started, hengine]
        rfl
      · exact .inl ⟨if_neg hsource, fun k hk => hsource (by rw [Option.some.inj hk.1]; exact hk.2.1)⟩
    | video =>
      dsimp only
      by_cases hsource : sources .video
      · rw [if_pos hsource]
        exact .inr ⟨.video, b.capturing .video && !b.engine.camera.any (· ≠ track_id),
          ⟨rfl, hsource, fun h => Kind.noConfusion h⟩,
          fun h => (Bool.and_eq_true_iff.mp h).1, rfl⟩
      · exact .inl ⟨if_neg hsource, fun k hk => hsource (by rw [Option.some.inj hk.1]; exact hk.2.1)⟩

theorem Sound.replace_track (h : Sound b) (sources : Kind → Bool) (sender_id : ℕ) (track_id : TrackId)
    (starts set : Bool) : Sound (b.replace_track sources sender_id track_id starts set) := by
  obtain ⟨heq, -⟩ | ⟨k, kept, ⟨hsender, -⟩, -, heq⟩ := replace_track_eq sources b sender_id track_id starts set
  · rw [heq]
    exact h
  · rw [heq]
    have hstarted : Sound (b.started k (starts || kept)) := h.started _
    split_ifs
    · refine hstarted.attach ?_ track_id
      rw [State.started, Engine.pc_setAttached]
      exact h.pc_of_sender hsender
    · exact hstarted

end

theorem Sound.handle {sources : Kind → Bool} {b : State} (h : Sound b) (channel_id : ℕ) (call : Call) :
    Sound (b.handle sources channel_id call) := by
  cases call with
  | createPeerConnection made => exact h.create_peer_connection channel_id made
  | close => exact h.close_peer_connection
  | addTransceiver kind sender_id added =>
    simp only [State.handle, State.add_transceiver]
    split_ifs with hadded
    · have hpc : b.engine.pc.isSome := (Bool.and_eq_true_iff.mp hadded).1
      refine ⟨h.fresh, h.flag, fun hnone => ?_, h.live, h.peer, fun k => ?_⟩
      · have hnone' : b.engine.pc = none := hnone
        rw [hnone'] at hpc
        exact Bool.noConfusion hpc
      · cases k
        · exact h.pumped .audio
        · exact h.pumped .video
    · exact h
  | replaceTrack sender_id track_id starts set => exact h.replace_track sources sender_id track_id starts set
  | other => exact h

theorem Sound.step {sources : Kind → Bool} {b : State} (h : Sound b) (s : Step) : Sound (b.step sources s) := by
  cases s with
  | create channel_id =>
    exact .of_none (fun n hn => h.fresh n (Nat.le_of_succ_le hn)) (Nat.lt_succ_self _) rfl (fun _ => rfl)
      fun k => by cases k <;> rfl
  | data channel_id call =>
    have hdata : Sound { b with
        channel := some channel_id, opened := Function.update b.opened channel_id true } :=
      ⟨h.fresh, h.flag, h.idle, h.live, h.peer, h.pumped⟩
    exact hdata.handle channel_id call
  | close channel_id => exact ⟨h.fresh, h.flag, h.idle, h.live, h.peer, h.pumped⟩
  | frame i =>
    simp only [State.step]
    split
    · split_ifs
      · exact ⟨h.fresh, h.flag, h.idle, h.live, h.peer, h.pumped⟩
      · exact h
    · exact h
  | check i =>
    simp only [State.step]
    split
    · rename_i p hp
      split_ifs with hstopped
      · refine ⟨h.fresh, h.flag, h.idle, h.live, h.peer, fun k hk => ?_⟩
        obtain ⟨q, hq, hkind, hstop⟩ := h.pumped k hk
        -- the engine's flag is not the one that this pump found set
        have hne : q ≠ p := by
          rintro rfl
          have hlive := h.live (h.pc_of_attached hk)
          rw [← hstop, hstopped] at hlive
          cases hlive
        obtain ⟨j, hj⟩ := List.mem_iff_getElem?.mp hq
        refine ⟨q, List.mem_eraseIdx_iff_getElem?.mpr ⟨j, ?_, hj⟩, hkind, hstop⟩
        rintro rfl
        exact hne (Option.some.inj (hj.symm.trans hp))
      · exact h
    · exact h

/-! ## When a step keeps to the call -/

section
variable {b : State} {k : Kind}

theorem Contained.eq (h : Contained b) {p q : Pump} (hp : p ∈ b.pumps) (hq : q ∈ b.pumps) (hkind : p.kind = q.kind) :
    p = q := by
  have hone := h.one q.kind
  rw [List.countP_eq_length_filter] at hone
  have hmem : ∀ r ∈ b.pumps, r.kind = q.kind → r ∈ b.pumps.filter (·.kind = q.kind) := fun r hr hrk =>
    List.mem_filter.mpr ⟨hr, decide_eq_true hrk⟩
  have hp' := hmem p hp hkind
  have hq' := hmem q hq rfl
  rcases hlist : b.pumps.filter (·.kind = q.kind) with - | ⟨r, - | ⟨r', rest⟩⟩
  · rw [hlist] at hp'
    cases hp'
  · rw [hlist, List.mem_singleton] at hp' hq'
    rw [hp', hq']
  · rw [hlist] at hone
    exact absurd hone (by simp)

theorem Contained.stop_eq (h : Contained b) (hs : Sound b) {p : Pump} (hp : p ∈ b.pumps)
    (hlive : b.stopped p.stop = false) : p.stop = b.engine.send_stop := by
  obtain ⟨-, -, hattached⟩ := h.attached p.kind (.inr ⟨p, hp, rfl, hlive⟩)
  obtain ⟨q, hq, hkind, hstop⟩ := hs.pumped p.kind hattached
  rw [h.eq hp hq hkind.symm, hstop]

theorem Contained.idle (h : Contained b) (hk : b.engine.attached k = none) : b.capturing k = false ∧ ¬b.Runs k := by
  have hnot : ¬(b.capturing k = true ∨ b.Runs k) := fun hor => by
    have hsome := (h.attached k hor).2.2
    rw [hk] at hsome
    cases hsome
  rw [not_or, Bool.not_eq_true] at hnot
  exact hnot

theorem Contained.data (h : Contained b) (channel_id : ℕ) :
    Contained { b with channel := some channel_id, opened := Function.update b.opened channel_id true } where
  attached k hk := ⟨rfl, (h.attached k hk).2⟩
  one := h.one
  last := h.last
  frames := h.frames
  peers p hp := by
    refine ⟨(h.peers p hp).1, ?_⟩
    dsimp only
    by_cases hchannel : p.channel = channel_id
    · rw [hchannel, Function.update_self]
    · rw [Function.update_of_ne hchannel]
      exact (h.peers p hp).2

theorem Contained.closed (h : Contained b) (hs : Sound b) (k : Kind) :
    b.close_peer_connection.capturing k = false ∧ ¬b.close_peer_connection.Runs k := by
  constructor
  · by_cases hattached : b.engine.attached k = none
    · exact Bool.and_eq_false_iff.mpr (.inl (h.idle hattached).1)
    · refine Bool.and_eq_false_iff.mpr (.inr ?_)
      rw [Option.isNone_eq_false_iff]
      exact Option.isSome_iff_ne_none.mpr hattached
  · rintro ⟨p, hp, hkind, hlive⟩
    have hne : p.stop ≠ b.engine.send_stop := by
      intro heq
      have hset : b.close_peer_connection.stopped b.engine.send_stop = true := Function.update_self ..
      rw [heq, hset] at hlive
      cases hlive
    exact hne (h.stop_eq hs hp ((Function.update_of_ne hne ..).symm.trans hlive))

theorem Contained.peers_close (h : Contained b) : b.close_peer_connection.peers = [] := by
  refine List.filter_eq_nil_iff.mpr fun p hp => ?_
  rw [(h.peers p hp).1]
  simp

theorem Contained.close_peer_connection (h : Contained b) (hs : Sound b) : Contained b.close_peer_connection where
  attached k hk := by
    obtain ⟨hcapturing, hruns⟩ := h.closed hs k
    rw [hcapturing] at hk
    exact absurd hk (by simp [hruns])
  one := h.one
  last := h.last
  frames := h.frames
  peers p hp := by
    rw [h.peers_close] at hp
    cases hp

theorem Contained.create_peer_connection (h : Contained b) (hs : Sound b) {channel_id : ℕ} (made : Bool)
    (hopened : b.opened channel_id = true) : Contained (b.create_peer_connection channel_id made) := by
  have hclosed := h.closed hs
  have hidle : ∀ k, ¬((b.create_peer_connection channel_id made).capturing k = true ∨
      (b.create_peer_connection channel_id made).Runs k) := by
    intro k hor
    have hsame : b.close_peer_connection.capturing k = true ∨ b.close_peer_connection.Runs k := by
      cases made <;> exact hor
    rcases hsame with hcapturing | hruns
    · rw [(hclosed k).1] at hcapturing
      cases hcapturing
    · exact (hclosed k).2 hruns
  cases made with
  | false =>
    refine ⟨fun k hk => absurd hk (hidle k), h.one, h.last, h.frames, fun p hp => ?_⟩
    rw [State.create_peer_connection, if_neg (by decide)] at hp
    rw [h.peers_close] at hp
    cases hp
  | true =>
    refine ⟨fun k hk => absurd hk (hidle k), h.one, h.last, h.frames, fun p hp => ?_⟩
    simp only [State.create_peer_connection, if_true, h.peers_close, List.mem_singleton] at hp
    rw [hp]
    exact ⟨rfl, hopened⟩

theorem Contained.started_iff (h : Contained b) (hs : Sound b) {captures : Bool} :
    Contained (b.started k captures) ↔ b.engine.attached k = none ∧ captures = false := by
  have hnone : (b.started k captures).engine.attached k = none := Engine.attached_setAttached
  constructor
  · intro hstarted
    obtain ⟨hcapturing, hruns⟩ := hstarted.idle hnone
    have hself : (b.started k captures).capturing k = captures := Function.update_self ..
    refine ⟨?_, hself.symm.trans hcapturing⟩
    by_contra hattached
    exact hruns (hs.runs (Option.isSome_iff_ne_none.mpr hattached))
  · rintro ⟨hattached, rfl⟩
    have hsame : b.started k false = b := by
      unfold State.started
      rw [← hattached, Engine.setAttached_attached, ← (h.idle hattached).1, Function.update_eq_self]
    rw [hsame]
    exact h

theorem countP_attach {k' : Kind} {captures : Bool} {track_id : TrackId} :
    ((b.started k captures).attach k track_id).pumps.countP (·.kind = k') =
      b.pumps.countP (·.kind = k') + if k = k' then 1 else 0 := by
  simp [State.attach, State.started, List.countP_cons]

theorem Contained.attach_iff (h : Contained b) (hchannel : b.channel.isSome) (hpc : b.engine.pc.isSome)
    {captures : Bool} {track_id : TrackId} :
    Contained ((b.started k captures).attach k track_id) ↔ ∀ p ∈ b.pumps, p.kind ≠ k := by
  constructor
  · intro hattached p hp hkind
    have hcount := hattached.one k
    have hpos : 0 < b.pumps.countP (·.kind = k) := List.countP_pos_iff.mpr ⟨p, hp, decide_eq_true hkind⟩
    rw [countP_attach, if_pos rfl] at hcount
    exact absurd hcount (Nat.not_le_of_lt (Nat.succ_lt_succ hpos))
  · intro hfree
    constructor
    · -- the other source is as it was
      intro k' hk'
      refine ⟨hchannel, by simpa [State.attach, State.started] using hpc, ?_⟩
      by_cases hkk : k' = k
      · rw [hkk]
        simp [State.attach, State.started]
      · have hother : b.capturing k' = true ∨ b.Runs k' := by
          refine hk'.imp (fun hcap => (Function.update_of_ne hkk captures b.capturing).symm.trans hcap) ?_
          rintro ⟨p, hp, hkind, hlive⟩
          obtain rfl | hp := List.mem_cons.mp hp
          · exact absurd hkind.symm hkk
          · exact ⟨p, hp, hkind, hlive⟩
        have hsame : ((b.started k captures).attach k track_id).engine.attached k' = b.engine.attached k' := by
          rw [State.attach, Engine.attached_setAttached_of_ne hkk, State.started, Engine.attached_setAttached_of_ne hkk]
        rw [hsame]
        exact (h.attached k' hother).2.2
    · intro k'
      by_cases hkk : k = k'
      · have hzero : b.pumps.countP (·.kind = k') = 0 :=
          List.countP_eq_zero.mpr fun p hp => by simpa [hkk] using hfree p hp
        have hcount := @countP_attach b k k' captures track_id
        rw [hzero, if_pos hkk] at hcount
        exact Nat.le_of_eq hcount
      · rw [countP_attach, if_neg hkk]
        exact h.one k'
    · intro p hp
      obtain rfl | hp := List.mem_cons.mp hp
      · exact Function.update_self ..
      · exact (Function.update_of_ne (hfree p hp) ..).trans (h.last p hp)
    · exact h.frames
    · intro p hp
      obtain ⟨hid, hopened⟩ := h.peers p hp
      exact ⟨by simpa [State.attach, State.started] using hid, hopened⟩

theorem Contained.replace_track_iff (h : Contained b) (hs : Sound b) (hchannel : b.channel.isSome)
    {sources : Kind → Bool} {sender_id : ℕ} {track_id : TrackId} {starts set : Bool} :
    Contained (b.replace_track sources sender_id track_id starts set) ↔
      ∀ k, b.Starts sources sender_id k → b.Free k starts set := by
  obtain ⟨heq, hnone⟩ | ⟨k, kept, hstarts, hkept, heq⟩ := replace_track_eq sources b sender_id track_id starts set
  · rw [heq]
    exact ⟨fun _ k hk => absurd hk (hnone k), fun _ => h⟩
  · have honly : (∀ k, b.Starts sources sender_id k → b.Free k starts set) ↔ b.Free k starts set := by
      refine ⟨fun hall => hall k hstarts, fun hfree k' hk' => ?_⟩
      rw [← Option.some.inj (hstarts.1.symm.trans hk'.1)]
      exact hfree
    rw [heq, honly, State.Free]
    cases set with
    | true => exact h.attach_iff hchannel (hs.pc_of_sender hstarts.1)
    | false =>
      refine (h.started_iff hs).trans (and_congr_right fun hattached => ?_)
      -- what does not capture is not kept
      have hno : kept = false := by
        by_contra hyes
        rw [(h.idle hattached).1] at hkept
        exact Bool.noConfusion (hkept (Bool.not_eq_false _ ▸ hyes))
      rw [hno, Bool.or_false]

end

theorem Contained.step_iff {sources : Kind → Bool} {b : State} (h : Contained b) (hs : Sound b) (s : Step) :
    Contained (b.step sources s) ↔ Proper sources b s := by
  cases s with
  | create channel_id =>
    refine ⟨fun hstep => ?_, fun hpc => ?_⟩
    · by_contra hpc
      obtain ⟨id, hid⟩ := Option.ne_none_iff_exists'.mp hpc
      obtain ⟨p, hp, -⟩ := hs.peer id hid
      cases (hstep.peers p hp).1
    · have hpc' : b.engine.pc = none := hpc
      refine ⟨fun k hk => ?_, h.one, h.last, h.frames, fun p hp => ?_⟩
      · have hsome := (h.attached k hk).2.1
        rw [hpc'] at hsome
        cases hsome
      · have hid := (h.peers p hp).1
        rw [hpc'] at hid
        cases hid
  | data channel_id call =>
    have hdata := h.data channel_id
    have hsdata : Sound { b with
        channel := some channel_id, opened := Function.update b.opened channel_id true } :=
      ⟨hs.fresh, hs.flag, hs.idle, hs.live, hs.peer, hs.pumped⟩
    cases call with
    | createPeerConnection made =>
      exact iff_of_true (hdata.create_peer_connection hsdata made (Function.update_self ..)) trivial
    | close => exact iff_of_true (hdata.close_peer_connection hsdata) trivial
    | addTransceiver kind sender_id added =>
      refine iff_of_true ?_ trivial
      simp only [State.step, State.handle, State.add_transceiver]
      split_ifs
      · refine ⟨fun k hk => ?_, h.one, h.last, h.frames, hdata.peers⟩
        cases k
        · exact hdata.attached .audio hk
        · exact hdata.attached .video hk
      · exact hdata
    | replaceTrack sender_id track_id starts set => exact hdata.replace_track_iff hsdata rfl
    | other => exact iff_of_true hdata trivial
  | close channel_id =>
    constructor
    · intro hstep
      refine ⟨fun p hp hchannel => ?_, fun hcurrent k => ?_⟩
      · have hopened := (hstep.peers p hp).2
        rw [State.step, hchannel] at hopened
        exact Bool.noConfusion ((Function.update_self channel_id false b.opened).symm.trans hopened)
      · by_contra hattached
        have hsome := (hstep.attached k (.inr (hs.runs (Option.isSome_iff_ne_none.mpr hattached)))).1
        rw [State.step] at hsome
        dsimp only at hsome
        rw [if_pos hcurrent] at hsome
        cases hsome
    · rintro ⟨hpeers, hcurrent⟩
      refine ⟨fun k hk => ?_, h.one, h.last, h.frames, fun p hp => ⟨(h.peers p hp).1, ?_⟩⟩
      · obtain ⟨hchannel, hpc, hattached⟩ := h.attached k hk
        refine ⟨?_, hpc, hattached⟩
        have hother : b.channel ≠ some channel_id := fun heq => by
          rw [hcurrent heq k] at hattached
          cases hattached
        rw [State.step]
        dsimp only
        rw [if_neg hother]
        exact hchannel
      · exact (Function.update_of_ne (hpeers p hp) ..).trans (h.peers p hp).2
  | frame i =>
    refine iff_of_true ?_ trivial
    simp only [State.step]
    split
    · rename_i p hp
      split_ifs
      · refine ⟨h.attached, h.one, h.last, fun f hf => ?_, h.peers⟩
        obtain hf | hf := List.mem_append.mp hf
        · exact h.frames f hf
        · rw [List.mem_singleton.mp hf]
          exact h.last p (List.mem_of_getElem? hp)
      · exact h
    · exact h
  | check i =>
    refine iff_of_true ?_ trivial
    simp only [State.step]
    split
    · split_ifs
      · refine ⟨fun k hk => h.attached k (hk.imp id ?_), fun k => ?_, fun p hp => ?_, h.frames, h.peers⟩
        · rintro ⟨p, hp, hrest⟩
          exact ⟨p, List.mem_of_mem_eraseIdx hp, hrest⟩
        · exact Nat.le_trans (List.eraseIdx_sublist b.pumps i).countP_le (h.one k)
        · exact h.last p (List.mem_of_mem_eraseIdx hp)
      · exact h
    · exact h

/-- Throughout a run nothing captures, or is left behind, but for the current call, exactly if every step is
proper. -/
theorem contained_iff (sources : Kind → Bool) (steps : List Step) :
    (∀ done, done <+: steps → Contained (run (State.step sources) .new done)) ↔
      Along (State.step sources) (Proper sources) .new steps := by
  have hsound : ∀ done, Sound (run (State.step sources) .new done) :=
    invariant_run Sound sound_new fun _ s h => h.step s
  have hnew : Contained .new :=
    ⟨fun k hk => hk.elim (fun h => Bool.noConfusion h) fun ⟨_, hp, _⟩ => (List.not_mem_nil hp).elim,
      fun _ => Nat.zero_le _, fun _ hp => (List.not_mem_nil hp).elim, fun _ hf => (List.not_mem_nil hf).elim,
      fun _ hp => (List.not_mem_nil hp).elim⟩
  refine Iff.trans (forall₂_congr fun done _ => ?_)
    (always_iff_along (I := fun b => Contained b ∧ Sound b) (fun b s hb => ?_) ⟨hnew, sound_new⟩ steps)
  · exact (and_iff_left (hsound done)).symm
  · rw [and_iff_left (hb.2.step s)]
    exact hb.1.step_iff hb.2 s

def attachBoth : List Step := [
  .create 1,
  .data 1 (.createPeerConnection true),
  .data 1 (.addTransceiver .audio 7 true),
  .data 1 (.addTransceiver .video 8 true),
  .data 1 (.replaceTrack 7 (some 5) true true),
  .data 1 (.replaceTrack 8 (some 6) true true)]

/-- The channel's `Close` leaves them capturing, so does another `Create`; and the camera's track set once more leaves
two pumps. -/
theorem not_contained : ¬Contained (run (State.step fun _ => true) .new (attachBoth ++ [.close 1])) ∧
      ¬Contained (run (State.step fun _ => true) .new (attachBoth ++ [.create 2])) ∧
      ¬Contained (run (State.step fun _ => true) .new
        (attachBoth ++ [.data 1 (.replaceTrack 8 (some 6) true true)])) := by
  refine ⟨fun h => ?_, fun h => ?_, fun h => ?_⟩
  · exact absurd (h.attached .audio (.inl (by decide))).1 (by decide)
  · exact absurd (h.attached .audio (.inl (by decide))).2.1 (by decide)
  · exact absurd (h.one .video) (by decide)

end Rdpio.Webrtc.Capture
