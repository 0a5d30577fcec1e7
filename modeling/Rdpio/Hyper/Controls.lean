import Rdpio.Hyper.Messages
import Rdpio.Lib.Utf8

/-!
# Control messages

`crates/rdp-hyper/src/control.rs`: the small binary messages inside control packets, as they are written and as
they are read.
-/

namespace Rdpio.Hyper.Controls

open Lib
open Messages (leAt leAt_append)

/-- What the client has received since its last report. -/
structure Feedback where
  shards : UInt32
  recovered : UInt32
  frames : UInt32
  frames_lost : UInt32
  bytes : UInt64
  delay_min_us : Int64
  delay_avg_us : Int64
  window_us : UInt32
  /-- The newest long-term reference frame that the client decoded. -/
  ltr_frame : Option UInt32
  link_kbps : UInt32
deriving DecidableEq

/-- How the client is reached. -/
inductive PathKind where
  | unknown
  | lan
  | direct
  | relay
  | peerRelay
deriving DecidableEq

def PathKind.toU8 : PathKind → UInt8
  | .unknown => 0
  | .lan => 1
  | .direct => 2
  | .relay => 3
  | .peerRelay => 4

def PathKind.fromU8 (b : UInt8) : PathKind :=
  if b = 1 then .lan else if b = 2 then .direct else if b = 3 then .relay
  else if b = 4 then .peerRelay else .unknown

/-- Texts are lists of characters. -/
inductive Control where
  | ping (id : UInt32) (client_us : UInt64)
  | pong (id : UInt32) (client_us host_us : UInt64)
  | keyframeRequest
  | recover
  | feedback (f : Feedback)
  | status (input_ack : UInt32) (width height fps : UInt16) (bitrate_kbps : UInt32) (fec_permille : UInt16)
  | bye
  | mic (on : Bool)
  | paused (still : Bool)
  | mode (office fast_text : Bool)
  | reconnect
  | refresh (hz : UInt16)
  | cameras (count : UInt8)
  | camera (on : Bool)
  | cameraKeyframe
  | notice (text : List Char)
  | audioReport (frame_ms : UInt8) (lost : UInt16)
  | view (width height : UInt16)
  | path (kind : PathKind) (relay : List Char)
deriving DecidableEq

def relayMax : ℕ := 32

def noticeMax : ℕ := 600

def noFrame : UInt32 := 0xFFFFFFFF

def cut (max : ℕ) (text : List Char) : List UInt8 :=
  (utf8 text).take (floorBoundary (utf8 text) (min (utf8 text).length max))

def ofBool (on : Bool) : UInt8 := if on then 1 else 0

def Control.toBytes : Control → List UInt8
  | .ping id client_us => 1 :: (leBytes 4 id.toNat ++ leBytes 8 client_us.toNat)
  | .pong id client_us host_us => 2 :: (leBytes 4 id.toNat ++ (leBytes 8 client_us.toNat ++ leBytes 8 host_us.toNat))
  | .keyframeRequest => [3]
  | .feedback f =>
    4 :: (leBytes 4 f.shards.toNat ++ (leBytes 4 f.recovered.toNat ++ (leBytes 4 f.frames.toNat ++
      (leBytes 4 f.frames_lost.toNat ++ (leBytes 8 f.bytes.toNat ++
        (leBytes 8 f.delay_min_us.toUInt64.toNat ++ (leBytes 8 f.delay_avg_us.toUInt64.toNat ++
          (leBytes 4 f.window_us.toNat ++ (leBytes 4 (f.ltr_frame.getD noFrame).toNat ++
            leBytes 4 f.link_kbps.toNat)))))))))
  | .status input_ack width height fps bitrate_kbps fec_permille =>
    5 :: (leBytes 4 input_ack.toNat ++ (leBytes 2 width.toNat ++ (leBytes 2 height.toNat ++
      (leBytes 2 fps.toNat ++ (leBytes 4 bitrate_kbps.toNat ++ leBytes 2 fec_permille.toNat)))))
  | .bye => [6]
  | .mic on => [7, ofBool on]
  | .paused still => [8, ofBool still]
  | .mode office fast_text => [9, ofBool office, ofBool fast_text]
  | .reconnect => [10]
  | .recover => [11]
  | .refresh hz => 12 :: leBytes 2 hz.toNat
  | .cameras count => [13, count]
  | .camera on => [14, ofBool on]
  | .cameraKeyframe => [15]
  | .notice text => 16 :: cut noticeMax text
  | .audioReport frame_ms lost => 17 :: frame_ms :: leBytes 2 lost.toNat
  | .view width height => 18 :: (leBytes 2 width.toNat ++ leBytes 2 height.toNat)
  | .path kind relay => 19 :: kind.toU8 :: cut relayMax relay

/-- A slice past the end of what is sliced. -/
inductive OutOfRange where
  | slice
deriving DecidableEq

/-- `b[lo..hi]`. -/
def slice (b : List UInt8) (lo hi : ℕ) : Except OutOfRange (List UInt8) :=
  if lo ≤ hi ∧ hi ≤ b.length then .ok ((b.take hi).drop lo) else .error .slice

def u16At (b : List UInt8) (i : ℕ) : Option UInt16 := (leAt 2 b i).map UInt16.ofNat

def u32At (b : List UInt8) (i : ℕ) : Option UInt32 := (leAt 4 b i).map UInt32.ofNat

def u64At (b : List UInt8) (i : ℕ) : Option UInt64 := (leAt 8 b i).map UInt64.ofNat

def parseFields (kind : UInt8) (b : List UInt8) : Option Control :=
  match kind with
  | 1 => do
    let id ← u32At b 1
    let client_us ← u64At b 5
    some (.ping id client_us)
  | 2 => do
    let id ← u32At b 1
    let client_us ← u64At b 5
    let host_us ← u64At b 13
    some (.pong id client_us host_us)
  | 3 => some .keyframeRequest
  | 4 => do
    let shards ← u32At b 1
    let recovered ← u32At b 5
    let frames ← u32At b 9
    let frames_lost ← u32At b 13
    let bytes ← u64At b 17
    let delay_min_us ← u64At b 25
    let delay_avg_us ← u64At b 33
    some (.feedback
      { shards, recovered, frames, frames_lost, bytes
        delay_min_us := delay_min_us.toInt64
        delay_avg_us := delay_avg_us.toInt64
        window_us := (u32At b 41).getD 0
        ltr_frame := (u32At b 45).filter (· ≠ noFrame)
        link_kbps := (u32At b 49).getD 0 })
  | 5 => do
    let input_ack ← u32At b 1
    let width ← u16At b 5
    let height ← u16At b 7
    let fps ← u16At b 9
    let bitrate_kbps ← u32At b 11
    let fec_permille ← u16At b 15
    some (.status input_ack width height fps bitrate_kbps fec_permille)
  | 6 => some .bye
  | 7 => b[1]?.map fun v => .mic (v ≠ 0)
  | 8 => b[1]?.map fun v => .paused (v ≠ 0)
  | 9 => b[1]?.map fun v => .mode (v ≠ 0) (b[2]?.any (· ≠ 0))
  | 10 => some .reconnect
  | 11 => some .recover
  | 12 => (u16At b 1).map .refresh
  | 13 => b[1]?.map .cameras
  | 14 => b[1]?.map fun v => .camera (v ≠ 0)
  | 15 => some .cameraKeyframe
  | 17 => do
    let frame_ms ← b[1]?
    let lost ← u16At b 2
    some (.audioReport frame_ms lost)
  | 18 => do
    let width ← u16At b 1
    let height ← u16At b 3
    some (.view width height)
  | _ => none

def Control.parse (b : List UInt8) : Except OutOfRange (Option Control) :=
  match b with
  | [] => .ok none
  | kind :: _ =>
    if kind = 16 then do
      let text ← slice b 1 (min b.length (1 + noticeMax))
      .ok (some (.notice (fromUtf8Lossy text)))
    else if kind = 19 then
      match b[1]? with
      | none => .ok none
      | some kind => do
        let relay ← slice b 2 (min b.length (2 + relayMax))
        .ok (some (.path (.fromU8 kind) (fromUtf8Lossy relay)))
    else .ok (parseFields kind b)

/-! ## Reading back -/

def Control.carried : Control → Control
  | .feedback f => .feedback { f with ltr_frame := f.ltr_frame.filter (· ≠ noFrame) }
  | .notice text => .notice (fitting noticeMax text)
  | .path kind relay => .path kind (fitting relayMax relay)
  | c => c

theorem u16At_append (before : List UInt8) {i : ℕ} (hi : before.length = i) (v : UInt16)
    (rest : List UInt8) : u16At (before ++ (leBytes 2 v.toNat ++ rest)) i = some v := by
  rw [u16At, leAt_append before hi v.toNat_lt, Option.map_some, UInt16.ofNat_toNat]

theorem u16At_append_nil (before : List UInt8) {i : ℕ} (hi : before.length = i) (v : UInt16) :
    u16At (before ++ leBytes 2 v.toNat) i = some v := by
  simpa only [List.append_nil] using u16At_append before hi v []

theorem u32At_append (before : List UInt8) {i : ℕ} (hi : before.length = i) (v : UInt32)
    (rest : List UInt8) : u32At (before ++ (leBytes 4 v.toNat ++ rest)) i = some v := by
  rw [u32At, leAt_append before hi v.toNat_lt, Option.map_some, UInt32.ofNat_toNat]

theorem u32At_append_nil (before : List UInt8) {i : ℕ} (hi : before.length = i) (v : UInt32) :
    u32At (before ++ leBytes 4 v.toNat) i = some v := by
  simpa only [List.append_nil] using u32At_append before hi v []

theorem u64At_append (before : List UInt8) {i : ℕ} (hi : before.length = i) (v : UInt64)
    (rest : List UInt8) : u64At (before ++ (leBytes 8 v.toNat ++ rest)) i = some v := by
  rw [u64At, leAt_append before hi v.toNat_lt, Option.map_some, UInt64.ofNat_toNat]

theorem u64At_append_nil (before : List UInt8) {i : ℕ} (hi : before.length = i) (v : UInt64) :
    u64At (before ++ leBytes 8 v.toNat) i = some v := by
  simpa only [List.append_nil] using u64At_append before hi v []

theorem fromU8_toU8 (kind : PathKind) : PathKind.fromU8 kind.toU8 = kind := by
  cases kind <;> rfl

theorem cut_eq (max : ℕ) (text : List Char) : cut max text = utf8 (fitting max text) := take_floorBoundary max text

theorem length_cut_le (max : ℕ) (text : List Char) : (cut max text).length ≤ max := by
  rw [cut_eq]
  exact length_utf8_fitting max text

theorem slice_min {b : List UInt8} {lo : ℕ} (hlo : lo ≤ b.length) (max : ℕ) :
    slice b lo (min b.length (lo + max)) = .ok ((b.drop lo).take max) := by
  rw [slice, if_pos ⟨by omega, Nat.min_le_left _ _⟩]
  congr 1
  rw [List.drop_take]
  rcases Nat.le_total b.length (lo + max) with h | h
  · rw [Nat.min_eq_left h, List.take_of_length_le (by rw [List.length_drop]),
      List.take_of_length_le (by rw [List.length_drop]; omega)]
  · rw [Nat.min_eq_right h, Nat.add_sub_cancel_left]

theorem parseFields_feedback (f : Feedback) :
    parseFields 4 (Control.feedback f).toBytes = some (Control.feedback f).carried := by
  let b1 := 4 :: leBytes 4 f.shards.toNat
  let b2 := b1 ++ leBytes 4 f.recovered.toNat
  let b3 := b2 ++ leBytes 4 f.frames.toNat
  let b4 := b3 ++ leBytes 4 f.frames_lost.toNat
  let b5 := b4 ++ leBytes 8 f.bytes.toNat
  let b6 := b5 ++ leBytes 8 f.delay_min_us.toUInt64.toNat
  let b7 := b6 ++ leBytes 8 f.delay_avg_us.toUInt64.toNat
  let b8 := b7 ++ leBytes 4 f.window_us.toNat
  let b9 := b8 ++ leBytes 4 (f.ltr_frame.getD noFrame).toNat
  obtain ⟨b, hb⟩ : ∃ b, b = (Control.feedback f).toBytes := ⟨_, rfl⟩
  have hshards : u32At b 1 = some f.shards := by rw [hb]; exact u32At_append [4] rfl _ _
  have hrecovered : u32At b 5 = some f.recovered := by rw [hb]; exact u32At_append b1 rfl _ _
  have hframes : u32At b 9 = some f.frames := by rw [hb]; exact u32At_append b2 rfl _ _
  have hlost : u32At b 13 = some f.frames_lost := by rw [hb]; exact u32At_append b3 rfl _ _
  have hbytes : u64At b 17 = some f.bytes := by rw [hb]; exact u64At_append b4 rfl _ _
  have hmin : u64At b 25 = some f.delay_min_us.toUInt64 := by rw [hb]; exact u64At_append b5 rfl _ _
  have havg : u64At b 33 = some f.delay_avg_us.toUInt64 := by rw [hb]; exact u64At_append b6 rfl _ _
  have hwindow : u32At b 41 = some f.window_us := by rw [hb]; exact u32At_append b7 rfl _ _
  have hltr : u32At b 45 = some (f.ltr_frame.getD noFrame) := by rw [hb]; exact u32At_append b8 rfl _ _
  have hlink : u32At b 49 = some f.link_kbps := by rw [hb]; exact u32At_append_nil b9 rfl _
  -- The number that stands for no frame is filtered away, whichever of the two wrote it.
  have hfilter : (some (f.ltr_frame.getD noFrame)).filter (· ≠ noFrame) = f.ltr_frame.filter (· ≠ noFrame) := by
    rcases f.ltr_frame with _ | frame
    · rfl
    · rfl
  rw [← hb]
  dsimp only [parseFields]
  rw [hshards, hrecovered, hframes, hlost, hbytes, hmin, havg, hwindow, hltr, hlink, hfilter]
  rfl

theorem parseFields_status (input_ack : UInt32) (width height fps : UInt16) (bitrate_kbps : UInt32)
    (fec_permille : UInt16) :
    parseFields 5 (Control.status input_ack width height fps bitrate_kbps fec_permille).toBytes =
      some (.status input_ack width height fps bitrate_kbps fec_permille) := by
  let b1 := 5 :: leBytes 4 input_ack.toNat
  let b2 := b1 ++ leBytes 2 width.toNat
  let b3 := b2 ++ leBytes 2 height.toNat
  let b4 := b3 ++ leBytes 2 fps.toNat
  let b5 := b4 ++ leBytes 4 bitrate_kbps.toNat
  obtain ⟨b, hb⟩ : ∃ b, b = (Control.status input_ack width height fps bitrate_kbps fec_permille).toBytes := ⟨_, rfl⟩
  have hack : u32At b 1 = some input_ack := by rw [hb]; exact u32At_append [5] rfl _ _
  have hwidth : u16At b 5 = some width := by rw [hb]; exact u16At_append b1 rfl _ _
  have hheight : u16At b 7 = some height := by rw [hb]; exact u16At_append b2 rfl _ _
  have hfps : u16At b 9 = some fps := by rw [hb]; exact u16At_append b3 rfl _ _
  have hbitrate : u32At b 11 = some bitrate_kbps := by rw [hb]; exact u32At_append b4 rfl _ _
  have hfec : u16At b 15 = some fec_permille := by rw [hb]; exact u16At_append_nil b5 rfl _
  rw [← hb]
  dsimp only [parseFields]
  rw [hack, hwidth, hheight, hfps, hbitrate, hfec]
  rfl

theorem parseFields_pong (id : UInt32) (client_us host_us : UInt64) :
    parseFields 2 (Control.pong id client_us host_us).toBytes = some (.pong id client_us host_us) := by
  let b1 := 2 :: leBytes 4 id.toNat
  let b2 := b1 ++ leBytes 8 client_us.toNat
  obtain ⟨b, hb⟩ : ∃ b, b = (Control.pong id client_us host_us).toBytes := ⟨_, rfl⟩
  have hid : u32At b 1 = some id := by rw [hb]; exact u32At_append [2] rfl _ _
  have hclient : u64At b 5 = some client_us := by rw [hb]; exact u64At_append b1 rfl _ _
  have hhost : u64At b 13 = some host_us := by rw [hb]; exact u64At_append_nil b2 rfl _
  rw [← hb]
  dsimp only [parseFields]
  rw [hid, hclient, hhost]
  rfl

theorem parse_cons {kind : UInt8} {rest : List UInt8} (h16 : kind ≠ 16) (h19 : kind ≠ 19) :
    Control.parse (kind :: rest) = .ok (parseFields kind (kind :: rest)) := by
  rw [Control.parse, if_neg h16, if_neg h19]

theorem slice_append {before text : List UInt8} {lo max : ℕ} (hlo : before.length = lo)
    (htext : text.length ≤ max) :
    slice (before ++ text) lo (min (before ++ text).length (lo + max)) = .ok text := by
  rw [slice_min (by rw [List.length_append]; omega), List.drop_left' hlo, List.take_of_length_le htext]

theorem Control.parse_toBytes (c : Control) : Control.parse c.toBytes = .ok (some c.carried) := by
  cases c with
  | ping id client_us =>
    have hid : u32At (Control.ping id client_us).toBytes 1 = some id := u32At_append [1] rfl id _
    have hclient : u64At (Control.ping id client_us).toBytes 5 = some client_us :=
      u64At_append_nil (1 :: leBytes 4 id.toNat) rfl client_us
    calc Control.parse (Control.ping id client_us).toBytes
        = .ok (parseFields 1 (Control.ping id client_us).toBytes) := parse_cons (by decide) (by decide)
      _ = .ok (some (.ping id client_us)) := by
        dsimp only [parseFields]
        rw [hid, hclient]
        rfl
  | pong id client_us host_us =>
    exact (parse_cons (by decide) (by decide)).trans (congrArg _ (parseFields_pong id client_us host_us))
  | feedback f => exact (parse_cons (by decide) (by decide)).trans (congrArg _ (parseFields_feedback f))
  | status input_ack width height fps bitrate_kbps fec_permille =>
    exact (parse_cons (by decide) (by decide)).trans
      (congrArg _ (parseFields_status input_ack width height fps bitrate_kbps fec_permille))
  | mic on => cases on <;> rfl
  | paused still => cases still <;> rfl
  | mode office fast_text => cases office <;> cases fast_text <;> rfl
  | refresh hz =>
    have hhz : u16At (Control.refresh hz).toBytes 1 = some hz := u16At_append_nil [12] rfl hz
    calc Control.parse (Control.refresh hz).toBytes
        = .ok (parseFields 12 (Control.refresh hz).toBytes) := parse_cons (by decide) (by decide)
      _ = .ok (some (.refresh hz)) := by
        dsimp only [parseFields]
        rw [hhz]
        rfl
  | camera on => cases on <;> rfl
  | notice text =>
    have hslice : slice (16 :: cut noticeMax text) 1
        (min (16 :: cut noticeMax text).length (1 + noticeMax)) = .ok (cut noticeMax text) :=
      slice_append (show [(16 : UInt8)].length = 1 from rfl) (length_cut_le noticeMax text)
    rw [Control.toBytes, Control.parse, if_pos rfl, hslice, cut_eq]
    change Except.ok (some (Control.notice (fromUtf8Lossy (utf8 (fitting noticeMax text))))) = _
    rw [fromUtf8Lossy_utf8]
    rfl
  | audioReport frame_ms lost =>
    have hlost : u16At (Control.audioReport frame_ms lost).toBytes 2 = some lost :=
      u16At_append_nil [17, frame_ms] rfl lost
    calc Control.parse (Control.audioReport frame_ms lost).toBytes
        = .ok (parseFields 17 (Control.audioReport frame_ms lost).toBytes) := parse_cons (by decide) (by decide)
      _ = .ok (some (.audioReport frame_ms lost)) := by
        dsimp only [parseFields]
        rw [hlost]
        rfl
  | view width height =>
    have hwidth : u16At (Control.view width height).toBytes 1 = some width := u16At_append [18] rfl width _
    have hheight : u16At (Control.view width height).toBytes 3 = some height :=
      u16At_append_nil (18 :: leBytes 2 width.toNat) rfl height
    calc Control.parse (Control.view width height).toBytes
        = .ok (parseFields 18 (Control.view width height).toBytes) := parse_cons (by decide) (by decide)
      _ = .ok (some (.view width height)) := by
        dsimp only [parseFields]
        rw [hwidth, hheight]
        rfl
  | path kind relay =>
    have hslice : slice (19 :: kind.toU8 :: cut relayMax relay) 2
        (min (19 :: kind.toU8 :: cut relayMax relay).length (2 + relayMax)) = .ok (cut relayMax relay) :=
      slice_append (show [19, kind.toU8].length = 2 from rfl) (length_cut_le relayMax relay)
    rw [Control.toBytes, Control.parse, if_neg (by decide), if_pos rfl]
    dsimp only [List.getElem?_cons_succ, List.getElem?_cons_zero]
    rw [hslice, cut_eq]
    change Except.ok (some (Control.path (.fromU8 kind.toU8) (fromUtf8Lossy (utf8 (fitting relayMax relay))))) = _
    rw [fromUtf8Lossy_utf8, fromU8_toU8]
    rfl
  | _ => rfl

theorem Control.parse_inRange (b : List UInt8) : ∃ m, Control.parse b = .ok m := by
  rcases b with _ | ⟨kind, rest⟩
  · exact ⟨none, rfl⟩
  rw [Control.parse]
  by_cases h16 : kind = 16
  · have hlo : 1 ≤ (kind :: rest).length := by rw [List.length_cons]; omega
    rw [if_pos h16, slice_min hlo]
    exact ⟨_, rfl⟩
  rw [if_neg h16]
  by_cases h19 : kind = 19
  · rw [if_pos h19]
    -- Only behind a byte of the path's kind is the name sliced, so two bytes are there.
    rcases rest with _ | ⟨path, relay⟩
    · exact ⟨none, rfl⟩
    · have hlo : 2 ≤ (kind :: path :: relay).length := by
        rw [List.length_cons, List.length_cons]
        omega
      dsimp only [List.getElem?_cons_succ, List.getElem?_cons_zero]
      rw [slice_min hlo]
      exact ⟨_, rfl⟩
  · rw [if_neg h19]
    exact ⟨_, rfl⟩

def Control.Fits : Control → Prop
  | .feedback f => f.ltr_frame ≠ some noFrame
  | .notice text => (utf8 text).length ≤ noticeMax
  | .path _ relay => (utf8 relay).length ≤ relayMax
  | _ => True

theorem Control.carried_of_fits {c : Control} (h : c.Fits) : c.carried = c := by
  cases c with
  | feedback f =>
    obtain ⟨shards, recovered, frames, frames_lost, bytes, delay_min_us, delay_avg_us, window_us, ltr_frame,
      link_kbps⟩ := f
    rcases ltr_frame with _ | frame
    · rfl
    · have hframe : frame ≠ noFrame := fun he => h (congrArg some he)
      rw [Control.carried, Option.filter_some, if_pos (decide_eq_true hframe)]
  | notice text => exact congrArg Control.notice (fitting_of_le h)
  | path kind relay => exact congrArg (Control.path kind) (fitting_of_le h)
  | _ => rfl

/-- The codec: a message that fits is read back as it is, a text that is too long as the longest part of
whole characters that fits, a frame with the number of none as none; and whatever the bytes are, nothing is
read out of range. -/
theorem Control.codec : (∀ c : Control, c.Fits → Control.parse c.toBytes = .ok (some c)) ∧
    (∀ f : Feedback, f.ltr_frame = some noFrame →
      Control.parse (Control.feedback f).toBytes = .ok (some (.feedback { f with ltr_frame := none }))) ∧
    (∀ text, ∃ t, LongestFitting noticeMax text t ∧
      Control.parse (Control.notice text).toBytes = .ok (some (.notice t))) ∧
    (∀ kind relay, ∃ t, LongestFitting relayMax relay t ∧
      Control.parse (Control.path kind relay).toBytes = .ok (some (.path kind t))) ∧
    ∀ b, ∃ m, Control.parse b = .ok m := by
  refine ⟨fun c hc => ?_, fun f hf => ?_, fun text => ?_, fun kind relay => ?_, Control.parse_inRange⟩
  · rw [Control.parse_toBytes, Control.carried_of_fits hc]
  · rw [Control.parse_toBytes, Control.carried, hf]
    rfl
  · exact ⟨_, longestFitting_fitting noticeMax text, Control.parse_toBytes (.notice text)⟩
  · exact ⟨_, longestFitting_fitting relayMax relay, Control.parse_toBytes (.path kind relay)⟩

def newestFrame : Feedback where
  shards := 0
  recovered := 0
  frames := 1
  frames_lost := 0
  bytes := 0
  delay_min_us := 0
  delay_avg_us := 0
  window_us := 50000
  ltr_frame := some 0xFFFFFFFF
  link_kbps := 0

theorem Control.codec_mic : Control.parse (Control.mic true).toBytes = .ok (some (.mic true)) :=
  Control.codec.1 (.mic true) trivial

/-- A report of the newest frame number is read as a report of no frame. -/
theorem Control.newestFrame_lost :
    Control.parse (Control.feedback newestFrame).toBytes ≠ .ok (some (.feedback newestFrame)) := by
  rw [Control.parse_toBytes]
  decide

end Rdpio.Hyper.Controls
