import Rdpio.Hyper.Messages

/-!
# Serial ports

`crates/rdp-channels/src/serial.rs`: the server announces ports and sends requests to them.
-/

namespace Rdpio.Channels

open Hyper.Messages (leAt)

abbrev Slice := { b : List UInt8 // b.length < 2^63 }

theorem leAt_isSome_iff {w i : ℕ} {b : List UInt8} : (leAt w b i).isSome ↔ i + w ≤ b.length := by
  rw [leAt]
  split_ifs with h <;> simp [h]

theorem leAt_eq {w i : ℕ} {b : List UInt8} (h : i + w ≤ b.length) :
    leAt w b i = some (Lib.ofLe ((b.drop i).take w)) := if_pos h

namespace Serial

structure SerialPort (P : Type) where
  null : P
  open_ : P → Bool × P
  read : P → ℕ → List UInt8 × P
  write : P → List UInt8 → ℕ × P

inductive State where
  | idle
  | ready
deriving DecidableEq

structure SerialChannel (P : Type) where
  state : State
  /-- The port behind a device id. -/
  ports : ℕ → Option P
  /-- The port that the first device gets. -/
  default_port : Option P

def SERVER_ANNOUNCE_REQUEST : ℕ := 0x0002
def CLIENT_ANNOUNCE_REPLY : ℕ := 0x0003
def DEVICE_ANNOUNCE : ℕ := 0x0004
def DEVICE_COMPLETION : ℕ := 0x0005
def IO_REQUEST : ℕ := 0x0006
def IO_RESPONSE : ℕ := 0x0007
def RDPESP_VERSION : ℕ := 0x0000_0001

def IRP_MJ_READ : ℕ := 0x04
def IRP_MJ_WRITE : ℕ := 0x08
def IRP_MJ_DEVICE_CONTROL : ℕ := 0x0E
def IRP_MJ_CLOSE : ℕ := 0x02

def clientAnnounceReply : List UInt8 := Lib.leBytes 2 CLIENT_ANNOUNCE_REPLY ++ Lib.leBytes 4 RDPESP_VERSION

def deviceCompletion (device_id : ℕ) (success : Bool) : List UInt8 :=
  Lib.leBytes 2 DEVICE_COMPLETION ++ Lib.leBytes 4 device_id ++ Lib.leBytes 4 (if success then 0 else 1)

namespace SerialChannel

variable {P : Type} (port : SerialPort P) (ch : SerialChannel P)

def new (default_port : Option P) : SerialChannel P := ⟨.idle, fun _ => none, default_port⟩

def request (device_id major_func : ℕ) (data : List UInt8) : SerialChannel P × ℕ × List UInt8 :=
  if major_func = IRP_MJ_READ then
    let len := Lib.ofLe [data.getD 0 0, data.getD 1 0, data.getD 2 0, data.getD 3 0]
    match ch.ports device_id with
    | some p =>
      let (response, p) := port.read p len
      ({ ch with ports := Function.update ch.ports device_id (some p) }, 0, response)
    | none => (ch, 1, [])
  else if major_func = IRP_MJ_WRITE then
    match ch.ports device_id with
    | some p =>
      let (count, p) := port.write p data
      ({ ch with ports := Function.update ch.ports device_id (some p) }, count, [])
    | none => (ch, 0, [])
  else if major_func = IRP_MJ_DEVICE_CONTROL then (ch, 0, [])
  else if major_func = IRP_MJ_CLOSE then ({ ch with ports := Function.update ch.ports device_id none }, 0, [])
  else (ch, 1, [])

def handleIoRequest (device_id major_func : ℕ) (data : List UInt8) : SerialChannel P × List (List UInt8) :=
  let (ch, result, response) := ch.request port device_id major_func data
  (ch, [Lib.leBytes 2 IO_RESPONSE ++ Lib.leBytes 4 device_id ++ Lib.leBytes 4 result ++
    Lib.leBytes 8 response.length ++ response])

def process (pdu : List UInt8) : Option (SerialChannel P × List (List UInt8)) :=
  if pdu.length < 2 then some (ch, [])
  else do
    let msg_type ← leAt 2 pdu 0
    if msg_type = SERVER_ANNOUNCE_REQUEST then some ({ ch with state := .ready }, [clientAnnounceReply])
    else if msg_type = DEVICE_ANNOUNCE then
      if pdu.length < 10 then some (ch, [])
      else
        let device_id ← leAt 4 pdu 2
        let _port_type ← leAt 4 pdu 6
        let (opened, p) := port.open_ (ch.default_port.getD port.null)
        some ({ ch with ports := Function.update ch.ports device_id (some p), default_port := none },
          [deviceCompletion device_id opened])
    else if msg_type = IO_REQUEST then
      if pdu.length < 12 then some (ch, [])
      else
        let device_id ← leAt 4 pdu 2
        let major_func ← leAt 4 pdu 6
        let _minor_func ← leAt 4 pdu 10
        some (ch.handleIoRequest port device_id major_func (pdu.drop 14))
    else some (ch, [])

/-- A request that ends within its last number. -/
def Cut (pdu : List UInt8) : Prop := leAt 2 pdu 0 = some IO_REQUEST ∧ 12 ≤ pdu.length ∧ pdu.length < 14

instance (pdu : List UInt8) : Decidable (Cut pdu) := inferInstanceAs (Decidable (_ ∧ _))

theorem process_isSome_iff (pdu : List UInt8) : (ch.process port pdu).isSome ↔ ¬ Cut pdu := by
  unfold process Cut
  by_cases hshort : pdu.length < 2
  · rw [if_pos hshort]
    exact iff_of_true rfl fun h => absurd h.2.1 (by omega)
  rw [if_neg hshort, leAt_eq (show 0 + 2 ≤ pdu.length by omega)]
  generalize Lib.ofLe ((pdu.drop 0).take 2) = msg_type
  simp only [Option.bind_eq_bind, Option.bind_some, Option.some.injEq]
  by_cases hserver : msg_type = SERVER_ANNOUNCE_REQUEST
  · rw [if_pos hserver, hserver]
    exact iff_of_true rfl fun h => absurd h.1 (by decide)
  rw [if_neg hserver]
  by_cases hdevice : msg_type = DEVICE_ANNOUNCE
  · rw [if_pos hdevice, hdevice]
    refine iff_of_true ?_ fun h => absurd h.1 (by decide)
    split_ifs with hlen
    · rfl
    · rw [leAt_eq (show 2 + 4 ≤ pdu.length by omega), leAt_eq (show 6 + 4 ≤ pdu.length by omega)]
      rfl
  rw [if_neg hdevice]
  by_cases hio : msg_type = IO_REQUEST
  · rw [if_pos hio]
    by_cases hfew : pdu.length < 12
    · rw [if_pos hfew]
      exact iff_of_true rfl fun h => absurd h.2.1 (by omega)
    rw [if_neg hfew, leAt_eq (show 2 + 4 ≤ pdu.length by omega), leAt_eq (show 6 + 4 ≤ pdu.length by omega)]
    simp only [Option.bind_some]
    by_cases hlong : 10 + 4 ≤ pdu.length
    · rw [leAt_eq hlong]
      exact iff_of_true rfl fun h => absurd h.2.2 (by omega)
    · rw [leAt, if_neg hlong]
      exact iff_of_false (by simp) fun h => h ⟨hio, by omega, by omega⟩
  · rw [if_neg hio]
    exact iff_of_true rfl fun h => hio h.1

def deviceId (b : List UInt8) : List UInt8 := (b.drop 2).take 4

theorem deviceId_of_process {pdu : List UInt8} {r : SerialChannel P × List (List UInt8)}
    (h : ch.process port pdu = some r) (hio : leAt 2 pdu 0 = some IO_REQUEST) :
    ∀ reply ∈ r.2, deviceId reply = deviceId pdu := by
  unfold process at h
  by_cases hshort : pdu.length < 2
  · rw [if_pos hshort] at h
    rw [← Option.some.inj h]
    exact fun reply hreply => absurd hreply List.not_mem_nil
  rw [if_neg hshort, hio] at h
  simp only [Option.bind_eq_bind, Option.bind_some, if_neg (show ¬ IO_REQUEST = SERVER_ANNOUNCE_REQUEST by decide),
    if_neg (show ¬ IO_REQUEST = DEVICE_ANNOUNCE by decide), if_true] at h
  by_cases hfew : pdu.length < 12
  · rw [if_pos hfew] at h
    rw [← Option.some.inj h]
    exact fun reply hreply => absurd hreply List.not_mem_nil
  rw [if_neg hfew, leAt_eq (show 2 + 4 ≤ pdu.length by omega), leAt_eq (show 6 + 4 ≤ pdu.length by omega)] at h
  simp only [Option.bind_some] at h
  obtain ⟨minor_func, -, h⟩ := Option.bind_eq_some_iff.mp h
  rw [← Option.some.inj h]
  intro reply hreply
  have hid : (deviceId pdu).length = 4 := by
    rw [deviceId, List.length_take, List.length_drop]
    omega
  have hback : Lib.leBytes 4 (Lib.ofLe (deviceId pdu)) = deviceId pdu := by
    rw [← hid]
    exact Lib.leBytes_ofLe _
  unfold handleIoRequest at hreply
  rw [List.mem_singleton] at hreply
  rw [hreply, ← hback]
  rfl

end SerialChannel

end Serial

end Rdpio.Channels
