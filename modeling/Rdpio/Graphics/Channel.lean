import Mathlib.Data.Finset.Basic
import Rdpio.Channels.DvcMux

/-!
# The dynamic channel multiplexer

`crates/rdp-graphics/src/channel.rs`, with the handshake of `crates/rdp-channels/src/rdpei.rs`.
-/

namespace Rdpio.Graphics

open Lib Channels.Drdynvc

def bytesOf (name : List Char) : List UInt8 := name.map fun c => UInt8.ofNat c.toNat

namespace Names

def graphics : List UInt8 := bytesOf "Microsoft::Windows::RDS::Graphics".toList
def audioInput : List UInt8 := bytesOf "AUDIO_INPUT".toList
def audioPlayback : List UInt8 := bytesOf "AUDIO_PLAYBACK_DVC".toList
def audioPlaybackLossy : List UInt8 := bytesOf "AUDIO_PLAYBACK_LOSSY_DVC".toList
def cameraEnumerator : List UInt8 := bytesOf "RDCamera_Device_Enumerator".toList
def cameraDevicePrefix : List UInt8 := bytesOf "rdpio_cam".toList
def rdpinput : List UInt8 := bytesOf "Microsoft::Windows::RDS::Input".toList
def displaycontrol : List UInt8 := bytesOf "Microsoft::Windows::RDS::DisplayControl".toList

end Names

def statusDecline : UInt32 := 0xC0000001

def eventidScReady : UInt16 := 0x0001
def eventidCsReady : UInt16 := 0x0002

inductive RdpInputState
  | idle
  | ready (channel_id : UInt32)
deriving DecidableEq

def clientReadyPdu : List UInt8 :=
  leBytes 2 eventidCsReady.toNat ++ leBytes 4 16 ++ leBytes 4 2 ++ leBytes 4 0x00010001 ++ leBytes 2 10

def RdpInputState.processServerPayload (s : RdpInputState) (channel_id : UInt32)
    (payload : List UInt8) : RdpInputState × Option (List UInt8) :=
  if payload.length < 6 then (s, none)
  else if UInt16.ofNat (ofLe (payload.take 2)) = eventidScReady ∧ 10 ≤ payload.length then
    (.ready channel_id, some clientReadyPdu)
  else (s, none)

/-! ## The multiplexer -/

/-- What the redirector answers now to a create-request. -/
structure Redirector where
  claims : List UInt8 → Bool
  on_create : UInt32 → List UInt8 → Bool

/-- What the redirector is told. -/
inductive Call
  | onCreate (channel_id : UInt32) (name : List UInt8)
  | onData (channel_id : UInt32) (message : List UInt8)
  | onClose (channel_id : UInt32)
deriving DecidableEq

structure GraphicsOutput (Command : Type) where
  responses : List (List UInt8) := []
  commands : List Command := []
  audio_input : List (List UInt8) := []
  audio_output : List (List UInt8) := []
  audio_output_opened : Bool := false
  camera_opened : Bool := false
  camera : List (List UInt8) := []
  camera_device : List (UInt32 × List UInt8) := []
  calls : List Call := []

structure Pipeline (State Command : Type) where
  caps_advertise : State → List UInt8
  process : State → List UInt8 → State × Option (List Command)

structure GraphicsChannel (State : Type) where
  reassembler : Reassembler := {}
  pipeline : State
  gfx_channel_id : Option UInt32 := none
  disp_channel_id : Option UInt32 := none
  audio_in_channel_id : Option UInt32 := none
  audio_out_channel_id : Option UInt32 := none
  audio_out_lossy_channel_id : Option UInt32 := none
  camera_channel_id : Option UInt32 := none
  camera_device_ids : List UInt32 := []
  rdpei_channel_id : Option UInt32 := none
  rdpei : RdpInputState := .idle
  redirector_channels : Finset UInt32 := ∅

/-- Who gets a channel's data. -/
inductive Endpoint
  | graphics
  | audioInput
  | audioOutput
  | camera
  | cameraDevice
  | input
  | redirected
deriving DecidableEq

namespace GraphicsChannel
variable {State Command : Type} (P : Pipeline State Command) (g : GraphicsChannel State)

def createOther (redirector : Option Redirector) (channel_id : UInt32) (name : List UInt8) :
    GraphicsChannel State × GraphicsOutput Command :=
  match redirector.filter (·.claims name) with
  | none => (g, { responses := [createResponse channel_id statusDecline] })
  | some r =>
    if r.on_create channel_id name then
      ({ g with redirector_channels := insert channel_id g.redirector_channels },
        { responses := [createResponse channel_id 0], calls := [.onCreate channel_id name] })
    else
      (g, { responses := [createResponse channel_id statusDecline],
            calls := [.onCreate channel_id name] })

def create (redirector : Option Redirector) (channel_id : UInt32) (name : List UInt8) :
    GraphicsChannel State × GraphicsOutput Command :=
  let accept := createResponse channel_id 0
  if name = Names.graphics then
    ({ g with gfx_channel_id := some channel_id },
      { responses := [accept, data channel_id (P.caps_advertise g.pipeline)] })
  else if name = Names.displaycontrol then ({ g with disp_channel_id := some channel_id }, { responses := [accept] })
  else if name = Names.audioInput then ({ g with audio_in_channel_id := some channel_id }, { responses := [accept] })
  else if name = Names.audioPlayback then
    ({ g with audio_out_channel_id := some channel_id }, { responses := [accept], audio_output_opened := true })
  else if name = Names.audioPlaybackLossy then
    ({ g with audio_out_lossy_channel_id := some channel_id }, { responses := [accept] })
  else if name = Names.cameraEnumerator then
    ({ g with camera_channel_id := some channel_id }, { responses := [accept], camera_opened := true })
  else if Names.cameraDevicePrefix.isPrefixOf name then
    ({ g with camera_device_ids := g.camera_device_ids ++ [channel_id] }, { responses := [accept] })
  else if name = Names.rdpinput then ({ g with rdpei_channel_id := some channel_id }, { responses := [accept] })
  else g.createOther redirector channel_id name

def route (channel_id : UInt32) : Option Endpoint :=
  if g.gfx_channel_id = some channel_id then some .graphics
  else if g.audio_in_channel_id = some channel_id then some .audioInput
  else if g.audio_out_channel_id = some channel_id ∨ g.audio_out_lossy_channel_id = some channel_id then
    some .audioOutput
  else if g.camera_channel_id = some channel_id then some .camera
  else if channel_id ∈ g.camera_device_ids then some .cameraDevice
  else if g.rdpei_channel_id = some channel_id then some .input
  else if channel_id ∈ g.redirector_channels then some .redirected
  else none

def surface (redirector : Option Redirector) (channel_id : UInt32) (message : List UInt8) :
    Endpoint → GraphicsChannel State × GraphicsOutput Command
  | .graphics =>
    let (pipeline, commands) := P.process g.pipeline message
    ({ g with pipeline }, { commands := commands.getD [] })
  | .audioInput => (g, { audio_input := [message] })
  | .audioOutput => (g, { audio_output := [message] })
  | .camera => (g, { camera := [message] })
  | .cameraDevice => (g, { camera_device := [(channel_id, message)] })
  | .input => (g, {})
  | .redirected =>
    (g, { calls := if redirector.isSome then [.onData channel_id message] else [] })

def touch (channel_id : UInt32) : DvcPdu → GraphicsChannel State × GraphicsOutput Command
  | .data _ payload =>
    let (rdpei, response) := g.rdpei.processServerPayload channel_id payload
    ({ g with rdpei }, { responses := response.toList.map (data channel_id) })
  | _ => (g, {})

def fragment (redirector : Option Redirector) (channel_id : UInt32) (pdu : DvcPdu) :
    GraphicsChannel State × GraphicsOutput Command :=
  match g.route channel_id with
  | none => (g, {})
  | some .input => g.touch channel_id pdu
  | some endpoint =>
    match g.reassembler.accept pdu with
    | (reassembler, none) => ({ g with reassembler }, {})
    | (reassembler, some (id, message)) =>
      { g with reassembler }.surface P redirector id message endpoint

def close (redirector : Option Redirector) (channel_id : UInt32) : GraphicsChannel State × GraphicsOutput Command :=
  let cleared (id : Option UInt32) := if id = some channel_id then none else id
  ({ g with
      gfx_channel_id := cleared g.gfx_channel_id
      disp_channel_id := cleared g.disp_channel_id
      audio_in_channel_id := cleared g.audio_in_channel_id
      audio_out_channel_id := cleared g.audio_out_channel_id
      audio_out_lossy_channel_id := cleared g.audio_out_lossy_channel_id
      camera_channel_id := cleared g.camera_channel_id
      camera_device_ids := g.camera_device_ids.filter (· ≠ channel_id)
      rdpei_channel_id := cleared g.rdpei_channel_id
      redirector_channels := g.redirector_channels.erase channel_id },
    { calls := if channel_id ∈ g.redirector_channels ∧ redirector.isSome then [.onClose channel_id]
               else [] })

/-- One DRDYNVC PDU received on the static channel. -/
def process (redirector : Option Redirector) (payload : List UInt8) : GraphicsChannel State × GraphicsOutput Command :=
  match parse payload with
  | none => (g, {})
  | some (.capabilitiesRequest version) => (g, { responses := [capabilitiesResponse version] })
  | some (.createRequest channel_id name) => g.create P redirector channel_id name
  | some (.dataFirst channel_id total_length payload) =>
    g.fragment P redirector channel_id (.dataFirst channel_id total_length payload)
  | some (.data channel_id payload) => g.fragment P redirector channel_id (.data channel_id payload)
  | some (.close channel_id) => g.close redirector channel_id
  | some (.other _) => (g, {})

end GraphicsChannel

end Rdpio.Graphics
