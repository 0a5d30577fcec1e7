import Rdpio.Channels.Audio
import Rdpio.Lib.Run

/-!
# The redirected microphone

AUDIO_INPUT in `run_graphics_session`: the state machine of `audio_input.rs`, the channel's id in `GraphicsChannel`
and `mic_started` are kept apart, and a close touches only the id.
-/

namespace Rdpio.Client.Microphone

open Lib Channels Channels.AudioInput
open Hyper.Messages (leAt)

structure World where
  audio_in_channel_id : Option UInt32 := none
  audio_in : AudioInputChannel := {}
  mic_started : Bool := false
  /-- The format in which the device records. -/
  device : Option Format := none
  /-- What a state machine made together with the channel would hold. -/
  life : AudioInputChannel := {}
  /-- Whether the channel has had an Open. -/
  opened : Bool := false
  /-- Whether the loop ended: the byte rate of an offered format overflowed. -/
  ended : Bool := false

inductive Event where
  /-- A create-request for AUDIO_INPUT. -/
  | created (channel_id : UInt32)
  | closed (channel_id : UInt32)
  /-- A message on a dynamic channel, whole. -/
  | data (channel_id : UInt32) (msg : List UInt8)
  /-- A pass of the loop, and what the device captured since the last. -/
  | pass (pcm : List UInt8)

/-- What the loop does at an event: what it sends goes out on a channel, cut to pieces by `data_message`. -/
structure Done where
  started : Option Format := none
  polled : Bool := false
  recorded : List (UInt32 × List UInt8) := []
  replies : List (UInt32 × List UInt8) := []

def MSG_DATA_INCOMING : UInt8 := 0x05
def MSG_DATA : UInt8 := 0x06

def dataPdus (ch : AudioInputChannel) (pcm : List UInt8) : List (List UInt8) :=
  if ch.open_format = none ∨ pcm = [] then [] else [message MSG_DATA_INCOMING [], message MSG_DATA pcm]

/-- A confirmation is of a format in the list, and of the one selected. -/
def Confirms (ch : AudioInputChannel) (pdu : List UInt8) : Prop :=
  ∃ idx f, pdu = formatChange idx ∧ ch.formats[idx]? = some f ∧ ch.open_format = some f

namespace World

variable (mic : Bool) (w : World)

/-- `wrap_audio_input` of each PDU. -/
def wrap (pdus : List (List UInt8)) : List (UInt32 × List UInt8) :=
  w.audio_in_channel_id.toList.flatMap fun id => pdus.map (id, ·)

def turn : Event → World × Done
  | .created id => ({ w with audio_in_channel_id := some id, life := {}, opened := false }, {})
  | .closed id => if w.audio_in_channel_id = some id then ({ w with audio_in_channel_id := none }, {}) else (w, {})
  | .data id msg =>
    if w.audio_in_channel_id = some id then
      match w.audio_in.process msg with
      | none => ({ w with ended := true }, {})
      | some (audio_in, responses) =>
        let life := ((w.life.process msg).map Prod.fst).getD w.life
        ({ w with audio_in, life, opened := w.opened || msg.head? = some MSG_OPEN }, { replies := w.wrap responses })
    else (w, {})
  | .pass pcm =>
    match w.audio_in.open_format with
    | none => (w, {})
    | some fmt =>
      if mic then
        (if w.mic_started then w else { w with mic_started := true, device := some fmt },
          { started := if w.mic_started then none else some fmt, polled := true
            recorded := w.wrap (dataPdus w.audio_in pcm) })
      else (w, {})

def step (w : World) (e : Event) : World := if w.ended then w else (w.turn mic e).1

/-- What the client holds is the open channel's own; the device is started and polled, and what it recorded sent, for
that channel and in its format; and what is selected is confirmed from its list. -/
structure Keeps (w' : World) (done : Done) : Prop where
  anew : w'.ended = false → w'.audio_in_channel_id ≠ none → w'.audio_in = w'.life
  start : done.started ≠ none → w.audio_in_channel_id ≠ none ∧ w.opened
  poll : done.polled → w.audio_in_channel_id ≠ none
  recorded : ∀ id pdu, (id, pdu) ∈ done.recorded → w.audio_in_channel_id = some id ∧ w.opened ∧
    ∃ fmt, w'.device = some fmt ∧ w.life.open_format = some fmt
  listed : ∀ id pdu, (id, pdu) ∈ done.replies → w'.audio_in_channel_id = some id ∧
    (pdu.head? = some MSG_FORMAT_CHANGE → Confirms w'.life pdu)
  confirmed : w'.life.open_format = none ∨ w'.life.open_format = w.life.open_format ∨
    ∃ id pdu, (id, pdu) ∈ done.replies ∧ Confirms w'.life pdu

def Follows (e : Event) : Prop := w.ended = false → w.Keeps (w.turn mic e).1 (w.turn mic e).2

/-- No channel is created after one that was negotiated; a pass with a format selected finds the channel open, and an
Open before the start and before the samples, which are of the format that the device was started in. -/
def Clear (e : Event) : Prop :=
  w.ended = false →
    match e with
    | .created _ => w.audio_in = {}
    | .pass pcm => ∀ fmt, w.audio_in.open_format = some fmt → mic →
      w.audio_in_channel_id ≠ none ∧ (w.mic_started = false ∨ pcm ≠ [] → w.opened) ∧
        (w.mic_started → pcm ≠ [] → w.device = some fmt)
    | _ => True

/-- While a channel is open, what is held is its own. -/
def Inv : Prop := w.ended = false → w.audio_in_channel_id ≠ none → w.audio_in = w.life ∧ w.life.formats ≠ []

end World

structure Heard (ch ch' : AudioInputChannel) (responses : List (List UInt8)) : Prop where
  formats : ch'.formats ≠ []
  listed : ∀ pdu ∈ responses, pdu.head? = some MSG_FORMAT_CHANGE → Confirms ch' pdu
  confirmed : ch'.open_format = ch.open_format ∨ ∃ pdu ∈ responses, Confirms ch' pdu

theorem heard_of_selected {ch : AudioInputChannel} {idx : ℕ} {f : Format} (hf : ch.formats[idx]? = some f)
    {more : List (List UInt8)} (hmore : ∀ pdu ∈ more, pdu.head? ≠ some MSG_FORMAT_CHANGE) :
    Heard ch { ch with open_format := some f } (formatChange idx :: more) := by
  have hconfirms : Confirms { ch with open_format := some f } (formatChange idx) := ⟨idx, f, rfl, hf, rfl⟩
  refine ⟨?_, fun pdu hpdu hhead => ?_, .inr ⟨_, List.mem_cons_self, hconfirms⟩⟩
  · intro hnil
    rw [show ch.formats = [] from hnil] at hf
    cases hf
  · rcases List.mem_cons.mp hpdu with rfl | hpdu
    · exact hconfirms
    · exact absurd hhead (hmore pdu hpdu)

theorem heard_process {ch ch' : AudioInputChannel} {pdu : List UInt8} {responses : List (List UInt8)}
    (hch : ch.formats ≠ []) (h : ch.process pdu = some (ch', responses)) : Heard ch ch' responses := by
  have hkept : ∀ responses : List (List UInt8), (∀ pdu ∈ responses, pdu.head? ≠ some MSG_FORMAT_CHANGE) →
      Heard ch ch responses :=
    fun responses hother => ⟨hch, fun pdu hpdu hhead => absurd hhead (hother pdu hpdu), .inl rfl⟩
  unfold AudioInputChannel.process at h
  cases pdu with
  | nil =>
    cases h
    exact hkept [] (by simp)
  | cons id body =>
    dsimp only at h
    split_ifs at h with hversion hformats hopen hin hchange
    · cases h
      exact hkept _ (by decide)
    · simp only [Option.bind_eq_bind, Option.bind_eq_some_iff] at h
      obtain ⟨offered, -, reply, hreply, h⟩ := h
      cases h
      obtain ⟨formats, -, hreply⟩ := Option.bind_eq_some_iff.mp hreply
      cases hreply
      refine ⟨?_, fun pdu hpdu hhead => ?_, .inl rfl⟩
      · dsimp only
        split_ifs with hoffered
        · decide
        · exact hoffered
      · cases List.mem_singleton.mp hpdu
        exact absurd (Option.some.inj hhead) (by decide)
    · cases h
      rw [List.getElem?_eq_getElem hin]
      exact heard_of_selected (List.getElem?_eq_getElem hin) (by decide)
    · -- An index out of range is taken for the first.
      have hpos := List.length_pos_iff.mpr hch
      cases h
      rw [List.getElem?_eq_getElem hpos]
      exact heard_of_selected (List.getElem?_eq_getElem hpos) (by decide)
    · cases hidx : leAt 4 body 0 with
      | none =>
        rw [hidx] at h
        cases h
        exact hkept [] (by simp)
      | some idx =>
        rw [hidx] at h
        cases hf : ch.formats[idx]? with
        | none =>
          simp only [hf] at h
          cases h
          exact hkept [] (by simp)
        | some f =>
          simp only [hf] at h
          cases h
          exact heard_of_selected hf (by simp)
    · cases h
      exact hkept [] (by simp)

/-! ## The loop -/

namespace World

variable {mic : Bool} {w : World}

theorem mem_wrap {pdus : List (List UInt8)} {id : UInt32} {pdu : List UInt8} :
    (id, pdu) ∈ w.wrap pdus ↔ w.audio_in_channel_id = some id ∧ pdu ∈ pdus := by
  unfold wrap
  cases w.audio_in_channel_id <;> simp [and_comm, eq_comm]

/-- An event at which the device is left alone and nothing is sent. -/
theorem keeps_quiet {w' : World} (h : w'.Inv)
    (hlife : w'.life.open_format = none ∨ w'.life.open_format = w.life.open_format) : w.Keeps w' {} where
  anew := fun hover hopen => (h hover hopen).1
  start := fun hstart => absurd rfl hstart
  poll := fun hpoll => by contradiction
  recorded := fun _ _ hmem => by cases hmem
  listed := fun _ _ hmem => by cases hmem
  confirmed := hlife.imp_right .inl

theorem keeps_data (h : w.Inv) (hover : w.ended = false) (id : UInt32) (msg : List UInt8) :
    (w.turn mic (.data id msg)).1.Inv ∧ w.Keeps (w.turn mic (.data id msg)).1 (w.turn mic (.data id msg)).2 := by
  unfold turn
  dsimp only
  split_ifs with hid
  · obtain ⟨hsame, hformats⟩ := h hover (hid ▸ Option.some_ne_none id)
    cases hprocess : w.audio_in.process msg with
    | none =>
      have hinv : ({ w with ended := true } : World).Inv := fun hover => by contradiction
      exact ⟨hinv, keeps_quiet hinv (.inr rfl)⟩
    | some r =>
      obtain ⟨audio_in, responses⟩ := r
      rw [hsame] at hprocess
      have hheard := heard_process hformats hprocess
      simp only [hprocess, Option.map_some, Option.getD_some]
      refine ⟨fun _ _ => ⟨rfl, hheard.formats⟩, fun _ _ => rfl, fun hstart => absurd rfl hstart,
        fun hpoll => (by contradiction), fun _ _ hmem => (by cases hmem), fun id pdu hmem => ?_, .inr ?_⟩
      · obtain ⟨hopen, hmem⟩ := mem_wrap.mp hmem
        exact ⟨hopen, hheard.listed pdu hmem⟩
      · rcases hheard.confirmed with hkept | ⟨pdu, hmem, hconfirms⟩
        · exact .inl hkept
        · exact .inr ⟨id, pdu, mem_wrap.mpr ⟨hid, hmem⟩, hconfirms⟩
  · exact ⟨h, keeps_quiet h (.inr rfl)⟩

theorem keeps_pass (h : w.Inv) (hover : w.ended = false) {pcm : List UInt8} {fmt : Format}
    (hfmt : w.audio_in.open_format = some fmt) :
    w.Keeps (w.turn true (.pass pcm)).1 (w.turn true (.pass pcm)).2 ↔
      w.audio_in_channel_id ≠ none ∧ (w.mic_started = false ∨ pcm ≠ [] → w.opened) ∧
        (w.mic_started → pcm ≠ [] → w.device = some fmt) := by
  have hlife (hopen : w.audio_in_channel_id ≠ none) : w.life.open_format = some fmt := (h hover hopen).1 ▸ hfmt
  have hdata {id : UInt32} (hid : w.audio_in_channel_id = some id) (hpcm : pcm ≠ []) :
      (id, message MSG_DATA pcm) ∈ w.wrap (dataPdus w.audio_in pcm) :=
    mem_wrap.mpr ⟨hid, by simp [dataPdus, hfmt, hpcm]⟩
  have hturn : w.turn true (.pass pcm) = (if w.mic_started then w else { w with mic_started := true, device := some fmt },
      { started := if w.mic_started then none else some fmt, polled := true
        recorded := w.wrap (dataPdus w.audio_in pcm) }) := by
    simp [turn, hfmt]
  rw [hturn]
  constructor
  · rintro ⟨-, hstart, hpoll, hrecorded, -, -⟩
    have hopen := hpoll rfl
    obtain ⟨id, hid⟩ := Option.ne_none_iff_exists'.mp hopen
    refine ⟨hopen, ?_, fun hstarted hpcm => ?_⟩
    · rintro (hstarted | hpcm)
      · exact (hstart (by simp [hstarted])).2
      · exact (hrecorded _ _ (hdata hid hpcm)).2.1
    · obtain ⟨fmt', hdevice, hselected⟩ := (hrecorded _ _ (hdata hid hpcm)).2.2
      rw [if_pos hstarted] at hdevice
      rw [hdevice, ← hselected, hlife hopen]
  · rintro ⟨hopen, hopened, hdevice⟩
    refine ⟨?_, fun hstart => ⟨hopen, hopened (.inl ?_)⟩, fun _ => hopen, fun id pdu hpdu => ?_,
      fun _ _ hmem => (by cases hmem), .inr (.inl ?_)⟩
    · split_ifs <;> exact fun hover hopen => (h hover hopen).1
    · exact Bool.eq_false_of_not_eq_true fun hstarted => hstart (if_pos hstarted)
    · obtain ⟨hid, hmem⟩ := mem_wrap.mp hpdu
      have hpcm : pcm ≠ [] := by
        rintro rfl
        simp [dataPdus] at hmem
      refine ⟨hid, hopened (.inr hpcm), fmt, ?_, hlife hopen⟩
      split_ifs with hstarted
      · exact hdevice hstarted hpcm
      · rfl
    · split_ifs <;> rfl

theorem inv_turn (h : w.Inv) (hover : w.ended = false) {e : Event} (hclear : w.Clear mic e) : (w.turn mic e).1.Inv := by
  cases e with
  | created id => exact fun _ _ => ⟨hclear hover, show clientFormats ≠ [] by decide⟩
  | closed id =>
    unfold turn
    dsimp only
    split_ifs
    · exact fun _ hopen => absurd rfl hopen
    · exact h
  | data id msg => exact (keeps_data h hover id msg).1
  | pass pcm =>
    unfold turn
    dsimp only
    split
    · exact h
    · split_ifs <;> exact h

theorem follows_iff (h : w.Inv) (e : Event) : w.Follows mic e ↔ w.Clear mic e := by
  constructor
  · intro hfollows hover
    have hkeeps := hfollows hover
    cases e with
    | created id => exact hkeeps.anew hover (Option.some_ne_none id)
    | pass pcm =>
      rintro fmt hfmt rfl
      exact (keeps_pass h hover hfmt).mp hkeeps
    | _ => trivial
  · intro hclear hover
    have hinv := inv_turn h hover hclear
    cases e with
    | created id => exact keeps_quiet hinv (.inl rfl)
    | closed id =>
      unfold turn at hinv ⊢
      dsimp only at hinv ⊢
      split_ifs at hinv ⊢ <;> exact keeps_quiet hinv (.inr rfl)
    | data id msg => exact (keeps_data h hover id msg).2
    | pass pcm =>
      cases hfmt : w.audio_in.open_format with
      | none => simpa [turn, hfmt] using keeps_quiet h (.inr rfl)
      | some fmt =>
        cases mic with
        | false => simpa [turn, hfmt] using keeps_quiet h (.inr rfl)
        | true => exact (keeps_pass h hover hfmt).mpr (hclear hover fmt hfmt rfl)

theorem inv_step (h : w.Inv) {e : Event} (hclear : w.Clear mic e) : (w.step mic e).Inv := by
  unfold step
  split_ifs with hover
  · exact h
  · exact inv_turn h (Bool.eq_false_of_not_eq_true hover) hclear

end World

/-- The device is started and polled for the channel that is open, in the format selected on it, if and only if
no channel follows a negotiated one and no pass finds the selection gone or changed. -/
theorem microphone_follows (mic : Bool) (events : List Event) :
    Along (World.step mic) (World.Follows mic) {} events ↔ Along (World.step mic) (World.Clear mic) {} events := by
  have hstart : World.Inv {} := fun _ hopen => absurd rfl hopen
  exact along_iff_of_invariant World.Inv hstart (fun _ _ hw hclear => World.inv_step hw hclear)
    (fun _ e hw => World.follows_iff hw e) events

/-- The server closes the channel after an Open: the microphone is polled on. -/
theorem polled_once_closed : ¬ ∀ events, Along (World.step true) (World.Follows true) {} events := by
  intro h
  obtain ⟨-, -, -, -, hlast, -⟩ := h [.created 3, .data 3 (message MSG_OPEN []), .pass [], .closed 3, .pass []]
  exact absurd ((hlast rfl).poll rfl) (by decide)

end Rdpio.Client.Microphone
