import Rdpio.Channels.Serial
import Rdpio.Lib.Ends

/-!
# Sound and microphone

`crates/rdp-channels/src/rdpsnd.rs` and `audio_input.rs`: the server offers formats, and the client offers
back those that it can play or record, with the byte rate of each.
-/

namespace Rdpio.Channels

open Hyper.Messages (leAt)
open Lib (leBytes Yields)

def WAVE_FORMAT_PCM : ℕ := 0x0001

def mulU16 (a b : ℕ) : Option ℕ := if a * b < 2^16 then some (a * b) else none

def mulU32 (a b : ℕ) : Option ℕ := if a * b < 2^32 then some (a * b) else none

def addUsize (a b : ℕ) : Option ℕ := if a + b < 2^64 then some (a + b) else none

/-- A sound format: `WAVEFORMATEX`. -/
structure Format where
  tag : ℕ := WAVE_FORMAT_PCM
  channels : ℕ
  samples_per_sec : ℕ
  bits_per_sample : ℕ
  extra : List UInt8 := []
deriving DecidableEq

namespace Format

variable (f : Format)

def blockAlign : Option ℕ := mulU16 f.channels (f.bits_per_sample / 8)

def avgBytesPerSec : Option ℕ := do
  let align ← f.blockAlign
  mulU32 f.samples_per_sec align

/-- A format on the wire. -/
def write : Option (List UInt8) := do
  let avg ← f.avgBytesPerSec
  let align ← f.blockAlign
  some (leBytes 2 f.tag ++ leBytes 2 f.channels ++ leBytes 4 f.samples_per_sec ++ leBytes 4 avg ++ leBytes 2 align ++
    leBytes 2 f.bits_per_sample ++ leBytes 2 f.extra.length ++ f.extra)

/-- Its block and its byte rate fit in their fields. -/
def Fits : Prop :=
  f.channels * (f.bits_per_sample / 8) < 2^16 ∧ f.samples_per_sec * (f.channels * (f.bits_per_sample / 8)) < 2^32

instance : Decidable f.Fits := inferInstanceAs (Decidable (_ ∧ _))

theorem write_isSome_iff : f.write.isSome ↔ f.Fits := by
  unfold write avgBytesPerSec blockAlign mulU16 mulU32 Fits
  generalize f.channels * (f.bits_per_sample / 8) = align
  simp only [Option.bind_eq_bind]
  by_cases halign : align < 2^16
  · by_cases hrate : f.samples_per_sec * align < 2^32
    · simp only [if_pos halign, if_pos hrate, Option.bind_some]
      exact iff_of_true rfl ⟨halign, hrate⟩
    · simp only [if_pos halign, if_neg hrate, Option.bind_some, Option.bind_none]
      exact iff_of_false (by simp) fun h => hrate h.2
  · simp only [if_neg halign, Option.bind_none]
    exact iff_of_false (by simp) fun h => halign h.1

/-- 16 bits, one channel or two: what is played and recorded as it is. -/
def Plain : Prop :=
  f.tag = WAVE_FORMAT_PCM ∧ f.bits_per_sample = 16 ∧ (1 ≤ f.channels ∧ f.channels ≤ 2) ∧ 0 < f.samples_per_sec

instance : Decidable f.Plain := inferInstanceAs (Decidable (_ ∧ _ ∧ _ ∧ _))

end Format

theorem writeAll_isSome_iff (formats : List Format) : (formats.mapM Format.write).isSome ↔ ∀ f ∈ formats, f.Fits := by
  have hyields : ∀ f : Format, Yields f.write f.Fits (f.write.getD []) := by
    intro f
    constructor
    · intro h
      obtain ⟨b, hb⟩ := Option.isSome_iff_exists.mp (f.write_isSome_iff.mpr h)
      rw [hb, Option.getD_some]
    · intro h
      rw [← Option.not_isSome_iff_eq_none, f.write_isSome_iff]
      exact h
  rw [Option.isSome_iff_exists]
  exact (Yields.mapM hyields formats).ends_iff

/-! ## Sound -/

namespace Rdpsnd

def SNDC_WAVE : UInt8 := 0x02
def SNDC_WAVECONFIRM : UInt8 := 0x05
def SNDC_TRAINING : UInt8 := 0x06
def SNDC_FORMATS : UInt8 := 0x07
def SNDC_QUALITYMODE : UInt8 := 0x0C
def SNDC_WAVE2 : UInt8 := 0x0D
def TSSNDCAPS_ALIVE : ℕ := 0x0000_0001
def SNDQUALITY_DYNAMIC : ℕ := 0x0000

def clientFormats : List Format :=
  [{ channels := 2, samples_per_sec := 44_100, bits_per_sample := 16 },
    { channels := 2, samples_per_sec := 22_050, bits_per_sample := 16 }]

def message (msg_type : UInt8) (body : List UInt8) : List UInt8 := [msg_type, 0] ++ leBytes 2 body.length ++ body

inductive SinkCall where
  | setFormat (channels samples_per_sec bits_per_sample : ℕ)
  | play (pcm : List UInt8)
  | setCompressedFormat (format : Format)
  | playCompressed (format : Format) (payload : List UInt8)
deriving DecidableEq

structure PendingWave where
  timestamp : ℕ
  block_no : UInt8
  format_no : ℕ
  first4 : List UInt8
deriving DecidableEq

structure RdpsndChannel where
  formats : List Format := clientFormats
  pending_wave : Option PendingWave := none
  waves_played : ℕ := 0
deriving DecidableEq

abbrev Outcome := RdpsndChannel × List SinkCall × List (List UInt8)

def formatsFrom (body : List UInt8) : ℕ → ℕ → Option (List Format)
  | 0, _ => some []
  | count + 1, off =>
    match leAt 2 body off with
    | none => some []
    | some tag => do
      let f : Format :=
        { tag
          channels := (leAt 2 body (off + 2)).getD 0
          samples_per_sec := (leAt 4 body (off + 4)).getD 0
          bits_per_sample := (leAt 2 body (off + 14)).getD 0 }
      let cb := (leAt 2 body (off + 16)).getD 0
      let next ← addUsize off (18 + cb)
      let rest ← formatsFrom body count next
      some (if f.Plain then f :: rest else rest)

def parseServerFormats (body : List UInt8) : Option (List Format) := formatsFrom body ((leAt 2 body 14).getD 0) 20

def qualityMode : List UInt8 := message SNDC_QUALITYMODE (leBytes 2 SNDQUALITY_DYNAMIC ++ [0, 0])

def waveConfirm (timestamp : ℕ) (block_no : UInt8) : List UInt8 :=
  message SNDC_WAVECONFIRM (leBytes 2 timestamp ++ [block_no, 0])

namespace RdpsndChannel

variable (ch : RdpsndChannel)

def formatsReply : Option (List UInt8) := do
  let formats ← ch.formats.mapM Format.write
  some (message SNDC_FORMATS (leBytes 4 TSSNDCAPS_ALIVE ++ leBytes 4 0xFFFF_FFFF ++ leBytes 4 0 ++ leBytes 2 0 ++
    leBytes 2 ch.formats.length ++ [0] ++ leBytes 2 0x0008 ++ [0] ++ formats.flatten))

def sinkCalls (format_no : ℕ) (payload : List UInt8) : List SinkCall :=
  match ch.formats[format_no]? with
  | none => []
  | some f =>
    if f.tag = WAVE_FORMAT_PCM then [.setFormat f.channels f.samples_per_sec f.bits_per_sample, .play payload]
    else [.setCompressedFormat f, .playCompressed f payload]

/-- Play a wave; the counter is a `u64`. -/
def playWave (timestamp : ℕ) (block_no : UInt8) (format_no : ℕ) (payload : List UInt8) : Option Outcome :=
  if ch.waves_played + 1 < 2^64 then
    some ({ ch with waves_played := ch.waves_played + 1 }, ch.sinkCalls format_no payload,
      [waveConfirm timestamp block_no])
  else none

def processPdu (msg : List UInt8) : Option Outcome :=
  if msg.length < 4 then some (ch, [], [])
  else do
    let msg_type ← msg[0]?
    let body := msg.drop 4
    if msg_type = SNDC_FORMATS then
      let selected ← parseServerFormats body
      let ch := if selected ≠ [] then { ch with formats := selected } else ch
      let reply ← ch.formatsReply
      some (ch, [], [reply, qualityMode])
    else if msg_type = SNDC_TRAINING then
      let echo := if 4 ≤ body.length then body.take 4 else [0, 0, 0, 0]
      some (ch, [], [message SNDC_TRAINING echo])
    else if msg_type = SNDC_WAVE then
      let first4 := if 12 ≤ body.length then (body.drop 8).take 4 else []
      let wave : PendingWave := ⟨(leAt 2 body 0).getD 0, body.getD 4 0, (leAt 2 body 2).getD 0, first4⟩
      some ({ ch with pending_wave := some wave }, [], [])
    else if msg_type = SNDC_WAVE2 then
      ch.playWave ((leAt 2 body 0).getD 0) (body.getD 4 0) ((leAt 2 body 2).getD 0) (body.drop 12)
    else some (ch, [], [])

def process (msg : List UInt8) : Option Outcome :=
  let rest := { ch with pending_wave := none }
  match ch.pending_wave with
  | some wave =>
    if msg.head? = some 0x00 then rest.playWave wave.timestamp wave.block_no wave.format_no (wave.first4 ++ msg.drop 4)
    else rest.processPdu msg
  | none => rest.processPdu msg

def EndsWave (msg : List UInt8) : Prop :=
  ch.pending_wave.isSome ∧ msg.head? = some 0x00 ∨ 4 ≤ msg.length ∧ msg.head? = some SNDC_WAVE2

/-- What a message has to keep to: the byte rates of the formats that it offers, and the count of waves. -/
structure Fits (msg : List UInt8) : Prop where
  formats : 4 ≤ msg.length → msg.head? = some SNDC_FORMATS → ∀ formats, parseServerFormats (msg.drop 4) = some formats →
    ∀ f ∈ formats, f.Fits
  waves : ch.EndsWave msg → ch.waves_played + 1 < 2^64

def Sound : Prop := ∀ f ∈ ch.formats, f.Fits

end RdpsndChannel

theorem formatsFrom_isSome (body : List UInt8) (hbody : body.length < 2^63) (count off : ℕ) :
    (formatsFrom body count off).isSome := by
  induction count generalizing off with
  | zero => rfl
  | succ count ih =>
    rw [formatsFrom]
    cases htag : leAt 2 body off with
    | none => rfl
    | some tag =>
      have hin : off + 2 ≤ body.length := leAt_isSome_iff.mp (by rw [htag]; rfl)
      have hcb : (leAt 2 body (off + 16)).getD 0 < 2^16 := by
        rw [leAt]
        split_ifs with h
        · have := Lib.ofLe_lt ((body.drop (off + 16)).take 2)
          rw [List.length_take_of_le (by rw [List.length_drop]; omega)] at this
          exact this
        · decide
      have hnext : addUsize off (18 + (leAt 2 body (off + 16)).getD 0) =
          some (off + (18 + (leAt 2 body (off + 16)).getD 0)) := if_pos (by omega)
      obtain ⟨rest, hrest⟩ := Option.isSome_iff_exists.mp (ih (off + (18 + (leAt 2 body (off + 16)).getD 0)))
      simp only [hnext, hrest, Option.bind_eq_bind, Option.bind_some]
      rfl

theorem parseServerFormats_isSome (body : List UInt8) (hbody : body.length < 2^63) :
    ∃ formats, parseServerFormats body = some formats :=
  Option.isSome_iff_exists.mp (formatsFrom_isSome body hbody _ _)

namespace RdpsndChannel

variable {ch : RdpsndChannel}

theorem formatsReply_isSome_iff : ch.formatsReply.isSome ↔ ch.Sound := by
  unfold formatsReply Sound
  rw [← writeAll_isSome_iff]
  cases ch.formats.mapM Format.write <;> exact Iff.rfl

theorem playWave_isSome_iff {timestamp : ℕ} {block_no : UInt8} {format_no : ℕ} {payload : List UInt8} :
    (ch.playWave timestamp block_no format_no payload).isSome ↔ ch.waves_played + 1 < 2^64 := by
  unfold playWave
  split_ifs with h
  · exact iff_of_true rfl h
  · exact iff_of_false (by simp) h

theorem sound_select {formats : List Format} (hch : ch.Sound) :
    (if formats ≠ [] then { ch with formats } else ch).Sound ↔ ∀ f ∈ formats, f.Fits := by
  split_ifs with h
  · exact Iff.rfl
  · rw [not_ne_iff] at h
    rw [h]
    exact iff_of_true hch fun f hf => absurd hf List.not_mem_nil

theorem processPdu_isSome_iff (hch : ch.Sound) {msg : List UInt8} (hmsg : msg.length < 2^63) :
    (ch.processPdu msg).isSome ↔ (4 ≤ msg.length → msg.head? = some SNDC_FORMATS →
      ∀ formats, parseServerFormats (msg.drop 4) = some formats → ∀ f ∈ formats, f.Fits) ∧
      (4 ≤ msg.length ∧ msg.head? = some SNDC_WAVE2 → ch.waves_played + 1 < 2^64) := by
  unfold processPdu
  by_cases hshort : msg.length < 4
  · rw [if_pos hshort]
    exact iff_of_true rfl ⟨fun h => absurd h (by omega), fun h => absurd h.1 (by omega)⟩
  obtain ⟨msg_type, hhead⟩ : ∃ msg_type, msg.head? = some msg_type := by
    cases msg with
    | nil => exact absurd (by decide) hshort
    | cons b msg => exact ⟨b, rfl⟩
  have hlong : 4 ≤ msg.length := by omega
  rw [if_neg hshort, ← List.head?_eq_getElem?, hhead]
  simp only [Option.bind_eq_bind, Option.bind_some, Option.some.injEq]
  obtain ⟨formats, hformats⟩ := parseServerFormats_isSome (msg.drop 4) (by rw [List.length_drop]; omega)
  by_cases htype : msg_type = SNDC_FORMATS
  · have hnot : ¬ SNDC_FORMATS = SNDC_WAVE2 := by decide
    have hreply := (@formatsReply_isSome_iff (if formats ≠ [] then { ch with formats } else ch)).trans
      (sound_select hch)
    rw [if_pos htype, hformats, Option.bind_some, htype]
    simp only [hlong, hnot, hformats, true_implies, forall_eq', Option.some.injEq, and_false, false_implies, and_true]
    rw [← hreply]
    cases formatsReply (if formats ≠ [] then { ch with formats } else ch) <;> exact Iff.rfl
  rw [if_neg htype]
  simp only [hlong, htype, true_and, true_implies, false_implies]
  by_cases htraining : msg_type = SNDC_TRAINING
  · have hnot : ¬ SNDC_TRAINING = SNDC_WAVE2 := by decide
    rw [if_pos htraining, htraining]
    exact iff_of_true rfl fun h => absurd h hnot
  by_cases hwave : msg_type = SNDC_WAVE
  · have hnot : ¬ SNDC_WAVE = SNDC_WAVE2 := by decide
    rw [if_neg htraining, if_pos hwave, hwave]
    exact iff_of_true rfl fun h => absurd h hnot
  rw [if_neg htraining, if_neg hwave]
  by_cases hwave2 : msg_type = SNDC_WAVE2
  · rw [if_pos hwave2, playWave_isSome_iff]
    exact ⟨fun h _ => h, fun h => h hwave2⟩
  · rw [if_neg hwave2]
    exact iff_of_true rfl fun h => absurd h hwave2

theorem process_isSome_iff (hch : ch.Sound) {msg : List UInt8} (hmsg : msg.length < 2^63) :
    (ch.process msg).isSome ↔ ch.Fits msg := by
  have hpdu := @processPdu_isSome_iff { ch with pending_wave := none } hch msg hmsg
  have hformats : msg.head? = some 0x00 → msg.head? ≠ some SNDC_FORMATS ∧ msg.head? ≠ some SNDC_WAVE2 := by
    intro h
    rw [h]
    decide
  unfold process
  cases hpending : ch.pending_wave with
  | none =>
    simp only
    rw [hpdu]
    constructor
    · rintro ⟨hf, hw⟩
      refine ⟨hf, ?_⟩
      rintro (h | h)
      · rw [hpending] at h
        cases h.1
      · exact hw h
    · exact fun h => ⟨h.formats, fun hw => h.waves (.inr hw)⟩
  | some wave =>
    simp only
    by_cases hzero : msg.head? = some 0x00
    · rw [if_pos hzero, playWave_isSome_iff]
      constructor
      · exact fun h => ⟨fun _ hf => absurd hf (hformats hzero).1, fun _ => h⟩
      · exact fun h => h.waves (.inl ⟨by rw [hpending]; rfl, hzero⟩)
    · rw [if_neg hzero, hpdu]
      constructor
      · rintro ⟨hf, hw⟩
        exact ⟨hf, fun h => h.elim (fun h => absurd h.2 hzero) hw⟩
      · exact fun h => ⟨h.formats, fun hw => h.waves (.inr hw)⟩

theorem processPdu_sound (hch : ch.Sound) {msg : List UInt8} {r : Outcome} (h : ch.processPdu msg = some r) :
    r.1.Sound := by
  unfold processPdu at h
  split_ifs at h with hshort
  · rw [← Option.some.inj h]
    exact hch
  obtain ⟨msg_type, hhead, h⟩ := Option.bind_eq_some_iff.mp h
  simp only at h
  split at h
  · obtain ⟨formats, -, h⟩ := Option.bind_eq_some_iff.mp h
    obtain ⟨reply, hreply, h⟩ := Option.bind_eq_some_iff.mp h
    rw [← Option.some.inj h]
    exact formatsReply_isSome_iff.mp (by rw [hreply]; rfl)
  split at h
  · rw [← Option.some.inj h]
    exact hch
  split at h
  · rw [← Option.some.inj h]
    exact hch
  split at h
  · unfold playWave at h
    split_ifs at h
    rw [← Option.some.inj h]
    exact hch
  · rw [← Option.some.inj h]
    exact hch

theorem process_sound (hch : ch.Sound) {msg : List UInt8} {r : Outcome} (h : ch.process msg = some r) : r.1.Sound := by
  have hrest : ({ ch with pending_wave := none } : RdpsndChannel).Sound := hch
  unfold process at h
  cases hpending : ch.pending_wave with
  | none =>
    rw [hpending] at h
    exact processPdu_sound hrest h
  | some wave =>
    rw [hpending] at h
    simp only at h
    split_ifs at h
    · unfold playWave at h
      split_ifs at h
      rw [← Option.some.inj h]
      exact hch
    · exact processPdu_sound hrest h

theorem sound_new : ({} : RdpsndChannel).Sound := show ∀ f ∈ clientFormats, f.Fits by decide

end RdpsndChannel

end Rdpsnd

/-! ## The microphone -/

namespace AudioInput

def MSG_VERSION : UInt8 := 0x01
def MSG_FORMATS : UInt8 := 0x02
def MSG_OPEN : UInt8 := 0x03
def MSG_OPEN_REPLY : UInt8 := 0x04
def MSG_FORMAT_CHANGE : UInt8 := 0x07
def SNDIN_VERSION : ℕ := 0x0000_0001

/-- The formats that are offered first: of one channel. -/
def clientFormats : List Format :=
  [{ channels := 1, samples_per_sec := 44_100, bits_per_sample := 16 },
    { channels := 1, samples_per_sec := 16_000, bits_per_sample := 16 }]

def formatsFrom : ℕ → List UInt8 → Option (List Format)
  | 0, _ => some []
  | num + 1, rest =>
    if rest.length < 18 then some []
    else do
      let tag ← leAt 2 rest 0
      let channels ← leAt 2 rest 2
      let samples_per_sec ← leAt 4 rest 4
      let bits_per_sample ← leAt 2 rest 14
      let cb_size ← leAt 2 rest 16
      let f : Format := { tag, channels, samples_per_sec, bits_per_sample }
      let next ← addUsize 18 cb_size
      let more ← formatsFrom num (rest.drop next)
      some (if f.Plain then f :: more else more)

def serverPcmFormats (body : List UInt8) : Option (List Format) :=
  match leAt 4 body 0 with
  | none => some []
  | some num => formatsFrom num (body.drop 8)

structure AudioInputChannel where
  formats : List Format := clientFormats
  open_format : Option Format := none
deriving DecidableEq

def message (id : UInt8) (body : List UInt8) : List UInt8 := id :: body

def versionReply : List UInt8 := message MSG_VERSION (leBytes 4 SNDIN_VERSION)

def openReplyOk : List UInt8 := message MSG_OPEN_REPLY (leBytes 4 0)

def formatChange (index : ℕ) : List UInt8 := message MSG_FORMAT_CHANGE (leBytes 4 index)

namespace AudioInputChannel

variable (ch : AudioInputChannel)

def formatsReply : Option (List UInt8) := do
  let formats ← ch.formats.mapM Format.write
  some (message MSG_FORMATS (leBytes 4 ch.formats.length ++ leBytes 4 formats.flatten.length ++ formats.flatten))

def process (pdu : List UInt8) : Option (AudioInputChannel × List (List UInt8)) :=
  match pdu with
  | [] => some (ch, [])
  | id :: body =>
    if id = MSG_VERSION then some (ch, [versionReply])
    else if id = MSG_FORMATS then do
      let offered ← serverPcmFormats body
      let ch := { ch with formats := if offered = [] then clientFormats else offered }
      let reply ← ch.formatsReply
      some (ch, [reply])
    else if id = MSG_OPEN then
      let initial := (leAt 4 body 4).getD 0
      let index := if initial < ch.formats.length then initial else 0
      some ({ ch with open_format := ch.formats[index]? }, [formatChange index, openReplyOk])
    else if id = MSG_FORMAT_CHANGE then
      match leAt 4 body 0 with
      | none => some (ch, [])
      | some idx =>
        match ch.formats[idx]? with
        | none => some (ch, [])
        | some f => some ({ ch with open_format := some f }, [formatChange idx])
    else some (ch, [])

end AudioInputChannel

/-- What a message has to keep to: the byte rates of the formats that it offers. -/
def Fits (pdu : List UInt8) : Prop :=
  pdu.head? = some MSG_FORMATS → ∀ formats, serverPcmFormats (pdu.drop 1) = some formats → ∀ f ∈ formats, f.Fits

theorem formatsFrom_isSome (num : ℕ) (rest : List UInt8) : (formatsFrom num rest).isSome := by
  induction num generalizing rest with
  | zero => rfl
  | succ num ih =>
    rw [formatsFrom]
    split_ifs with hshort
    · rfl
    have hcb : Lib.ofLe ((rest.drop 16).take 2) < 2^16 := by
      have := Lib.ofLe_lt ((rest.drop 16).take 2)
      rwa [List.length_take_of_le (by rw [List.length_drop]; omega)] at this
    have hnext : addUsize 18 (Lib.ofLe ((rest.drop 16).take 2)) = some (18 + Lib.ofLe ((rest.drop 16).take 2)) :=
      if_pos (by omega)
    obtain ⟨more, hmore⟩ := Option.isSome_iff_exists.mp (ih (rest.drop (18 + Lib.ofLe ((rest.drop 16).take 2))))
    rw [leAt_eq (show 0 + 2 ≤ rest.length by omega), leAt_eq (show 2 + 2 ≤ rest.length by omega),
      leAt_eq (show 4 + 4 ≤ rest.length by omega), leAt_eq (show 14 + 2 ≤ rest.length by omega),
      leAt_eq (show 16 + 2 ≤ rest.length by omega)]
    simp only [hnext, hmore, Option.bind_eq_bind, Option.bind_some]
    rfl

theorem serverPcmFormats_isSome (body : List UInt8) : ∃ formats, serverPcmFormats body = some formats := by
  unfold serverPcmFormats
  cases leAt 4 body 0 with
  | none => exact ⟨[], rfl⟩
  | some num => exact Option.isSome_iff_exists.mp (formatsFrom_isSome num _)

namespace AudioInputChannel

variable {ch : AudioInputChannel}

theorem formatsReply_isSome_iff : ch.formatsReply.isSome ↔ ∀ f ∈ ch.formats, f.Fits := by
  unfold formatsReply
  rw [← writeAll_isSome_iff]
  cases ch.formats.mapM Format.write <;> exact Iff.rfl

theorem process_isSome_iff (pdu : List UInt8) : (ch.process pdu).isSome ↔ Fits pdu := by
  unfold process Fits
  cases pdu with
  | nil => exact iff_of_true rfl fun h => absurd h (by decide)
  | cons id body =>
    simp only [List.head?_cons, Option.some.injEq, List.drop_succ_cons, List.drop_zero]
    by_cases hversion : id = MSG_VERSION
    · have hnot : ¬ MSG_VERSION = MSG_FORMATS := by decide
      rw [if_pos hversion, hversion]
      exact iff_of_true rfl fun h => absurd h hnot
    rw [if_neg hversion]
    by_cases hformats : id = MSG_FORMATS
    · obtain ⟨offered, hoffered⟩ := serverPcmFormats_isSome body
      have hclient : ∀ f ∈ clientFormats, f.Fits := by decide
      have hreply := @formatsReply_isSome_iff { ch with formats := if offered = [] then clientFormats else offered }
      rw [if_pos hformats, hoffered]
      simp only [hformats, true_implies, Option.some.injEq, forall_eq', Option.bind_eq_bind, Option.bind_some]
      have hsame : (∀ f ∈ if offered = [] then clientFormats else offered, f.Fits) ↔ ∀ f ∈ offered, f.Fits := by
        split_ifs with hnil
        · rw [hnil]
          exact iff_of_true hclient fun f hf => absurd hf List.not_mem_nil
        · exact Iff.rfl
      rw [← hsame, ← hreply]
      cases formatsReply { ch with formats := if offered = [] then clientFormats else offered } <;> exact Iff.rfl
    rw [if_neg hformats]
    refine iff_of_true ?_ fun h => absurd h hformats
    split
    · rfl
    split
    · cases leAt 4 body 0 with
      | none => rfl
      | some idx =>
        simp only
        cases ch.formats[idx]? <;> rfl
    · rfl

end AudioInputChannel

end AudioInput

end Rdpio.Channels
