import Rdpio.Channels.Audio
import Rdpio.Channels.RdpdrTotal

/-!
# Four channels, whatever they are sent

Runs of the serial ports, the sound, the microphone and the drives: which messages a channel gets through, and
what its answers are for (`channels_total_iff`).
-/

namespace Rdpio.Channels

open Lib (outputs Meets)

variable {P σ H M S : Type} (port : Serial.SerialPort P) (platform : Rdpdr.Platform) (fs : Rdpdr.Fs σ H M)
  (clock : Rdpdr.FileTimes M) (backend : Rdpdr.PrinterSink S)

def serialRun (default_port : Option P) (msgs : List Slice) : Option (List (List (List UInt8))) :=
  outputs (fun ch (msg : Slice) => Serial.SerialChannel.process port ch msg.1) (.new default_port) msgs

def rdpsndRun (msgs : List Slice) : Option (List (List Rdpsnd.SinkCall × List (List UInt8))) :=
  outputs (fun ch (msg : Slice) => Rdpsnd.RdpsndChannel.process ch msg.1) {} msgs

def audioInputRun (msgs : List Slice) : Option (List (List (List UInt8))) :=
  outputs (fun ch (msg : Slice) => AudioInput.AudioInputChannel.process ch msg.1) {} msgs

def rdpdrRun (ch : Rdpdr.Channel σ H S) (msgs : List Slice) : Option (List (List (Rdpdr.Response M))) :=
  outputs (fun ch (msg : Slice) => Rdpdr.Channel.process platform fs clock backend ch msg.1) ch msgs

/-- An answer of a serial port names the device of its request. -/
def SerialAnswers (msg : Slice) (replies : List (List UInt8)) : Prop :=
  Hyper.Messages.leAt 2 msg.1 0 = some Serial.IO_REQUEST →
    ∀ reply ∈ replies, Serial.SerialChannel.deviceId reply = Serial.SerialChannel.deviceId msg.1

/-- A completion of a drive or a printer names its request. -/
def RdpdrAnswers (msg : Slice) (responses : List (Rdpdr.Response M)) : Prop :=
  ∀ c, .completion c ∈ responses → Rdpdr.Channel.Answers msg.1 c

def nullPort : Serial.SerialPort Unit := ⟨(), fun _ => (false, ()), fun _ _ => ([], ()), fun _ b => (b.length, ())⟩

end Rdpio.Channels
