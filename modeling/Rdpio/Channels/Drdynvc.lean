import Rdpio.Channels.Svc
import Rdpio.Lib.Chunks

/-!
# The dynamic virtual channel manager

`crates/rdp-channels/src/drdynvc.rs`. Every PDU starts with a byte of command, `Sp` and `Cb`, the widths of a
length and of the channel id behind it.
-/

namespace Rdpio.Channels.Drdynvc

open Lib

def cmdCreate : UInt8 := 0x01
def cmdDataFirst : UInt8 := 0x02
def cmdData : UInt8 := 0x03
def cmdClose : UInt8 := 0x04
def cmdCapabilities : UInt8 := 0x05

def maxDataChunk : ℕ := 1500

inductive DvcPdu
  | capabilitiesRequest (version : UInt16)
  | createRequest (channel_id : UInt32) (name : List UInt8)
  | dataFirst (channel_id total_length : UInt32) (payload : List UInt8)
  | data (channel_id : UInt32) (payload : List UInt8)
  | close (channel_id : UInt32)
  | other (cmd : UInt8)
deriving DecidableEq

def width (sel : UInt8) : Option ℕ :=
  if sel = 0 then some 1 else if sel = 1 then some 2 else if sel = 2 then some 4 else none

def readNumber (sel : UInt8) (data : List UInt8) : Option (UInt32 × ℕ) :=
  match width sel with
  | some w => if w ≤ data.length then some (UInt32.ofNat (ofLe (data.take w)), w) else none
  | none => none

def readChannelId (cb : UInt8) (data : List UInt8) : Option (UInt32 × ℕ) := readNumber cb data

def readLength (sp : UInt8) (data : List UInt8) : Option (UInt32 × ℕ) := readNumber sp data

def writeNumber (n : UInt32) : UInt8 × List UInt8 :=
  if n ≤ 0xff then (0, leBytes 1 n.toNat)
  else if n ≤ 0xffff then (1, leBytes 2 n.toNat)
  else (2, leBytes 4 n.toNat)

def writeChannelId (id : UInt32) : UInt8 × List UInt8 := writeNumber id

def writeLength (len : UInt32) : UInt8 × List UInt8 := writeNumber len

def header (cmd sp cb : UInt8) : UInt8 := (cmd <<< 4) ||| (sp <<< 2) ||| cb

/-- One inbound PDU; none where it is truncated. -/
def parse : List UInt8 → Option DvcPdu
  | [] => none
  | first :: rest =>
    let cmd := first >>> 4
    let cb := first &&& 0x03
    if cmd = cmdCapabilities then
      if rest.length < 3 then none
      else some (.capabilitiesRequest (UInt16.ofNat (ofLe ((rest.drop 1).take 2))))
    else if cmd = cmdCreate then
      (readChannelId cb rest).map fun (channel_id, n) => .createRequest channel_id ((rest.drop n).takeWhile (· ≠ 0))
    else if cmd = cmdDataFirst then
      (readChannelId cb rest).bind fun (channel_id, n) =>
        let after_id := rest.drop n
        (readLength ((first >>> 2) &&& 0x03) after_id).map fun (total_length, m) =>
          .dataFirst channel_id total_length (after_id.drop m)
    else if cmd = cmdData then (readChannelId cb rest).map fun (channel_id, n) => .data channel_id (rest.drop n)
    else if cmd = cmdClose then (readChannelId cb rest).map fun (channel_id, _) => .close channel_id
    else some (.other cmd)

def capabilitiesResponse (version : UInt16) : List UInt8 :=
  header cmdCapabilities 0 0 :: 0x00 :: leBytes 2 version.toNat

def createResponse (channel_id status : UInt32) : List UInt8 :=
  let (cb, tail) := writeChannelId channel_id
  header cmdCreate 0 cb :: (tail ++ leBytes 4 status.toNat)

def data (channel_id : UInt32) (payload : List UInt8) : List UInt8 :=
  let (cb, tail) := writeChannelId channel_id
  header cmdData 0 cb :: (tail ++ payload)

def dataFirst (channel_id len : UInt32) (first : List UInt8) : List UInt8 :=
  let (cb, tail) := writeChannelId channel_id
  let (sp, len_bytes) := writeLength len
  header cmdDataFirst sp cb :: (tail ++ len_bytes ++ first)

/-- `payload` as one or more PDUs. -/
def dataMessage (channel_id : UInt32) (payload : List UInt8) : List (List UInt8) :=
  if payload.length ≤ maxDataChunk then [data channel_id payload]
  else
    match Lib.chunks maxDataChunk payload with
    | [] => [dataFirst channel_id (UInt32.ofNat payload.length) []]
    | first :: chunks => dataFirst channel_id (UInt32.ofNat payload.length) first :: chunks.map (data channel_id)

structure Reassembler where
  pending : UInt32 → Option (ℕ × List UInt8) := fun _ => none

def Reassembler.accept (r : Reassembler) : DvcPdu → Reassembler × Option (UInt32 × List UInt8)
  | .dataFirst channel_id total_length payload =>
    let total := total_length.toNat
    if total ≤ payload.length then (r, some (channel_id, payload))
    else ({ r with pending := Function.update r.pending channel_id (some (total, payload)) }, none)
  | .data channel_id payload =>
    match r.pending channel_id with
    | some (total, buf) =>
      let buf := buf ++ payload
      if total ≤ buf.length then
        ({ r with pending := Function.update r.pending channel_id none }, some (channel_id, buf))
      else ({ r with pending := Function.update r.pending channel_id (some (total, buf)) }, none)
    | none => (r, some (channel_id, payload))
  | _ => (r, none)

theorem readNumber_writeNumber (n : UInt32) (rest : List UInt8) :
    readNumber (writeNumber n).1 ((writeNumber n).2 ++ rest) = some (n, (writeNumber n).2.length) := by
  have hread : ∀ (sel : UInt8) (w : ℕ), width sel = some w → n.toNat < 256 ^ w →
      readNumber sel (leBytes w n.toNat ++ rest) = some (n, (leBytes w n.toNat).length) := by
    intro sel w hw hn
    unfold readNumber
    rw [hw, length_leBytes]
    dsimp only
    rw [if_pos (by rw [List.length_append, length_leBytes]; omega), take_leBytes_append,
      ofLe_leBytes_of_lt hn, UInt32.ofNat_toNat]
  unfold writeNumber
  split_ifs with h1 h2
  · have hn : n.toNat ≤ 255 := UInt32.le_iff_toNat_le.mp h1
    exact hread 0 1 rfl (by omega)
  · have hn : n.toNat ≤ 65535 := UInt32.le_iff_toNat_le.mp h2
    exact hread 1 2 rfl (by omega)
  · exact hread 2 4 rfl n.toNat_lt

theorem writeNumber_sel (n : UInt32) : (writeNumber n).1 = 0 ∨ (writeNumber n).1 = 1 ∨ (writeNumber n).1 = 2 := by
  unfold writeNumber
  split_ifs
  · exact .inl rfl
  · exact .inr (.inl rfl)
  · exact .inr (.inr rfl)

theorem parse_data (channel_id : UInt32) (payload : List UInt8) :
    parse (data channel_id payload) = some (.data channel_id payload) := by
  have hread := readNumber_writeNumber channel_id payload
  have hsel : header cmdData 0 (writeNumber channel_id).1 >>> 4 = cmdData ∧
      header cmdData 0 (writeNumber channel_id).1 &&& 0x03 = (writeNumber channel_id).1 := by
    rcases writeNumber_sel channel_id with h | h | h <;> rw [h] <;> decide
  unfold data writeChannelId parse
  dsimp only
  rw [hsel.1, hsel.2, if_neg (by decide), if_neg (by decide), if_neg (by decide), if_pos rfl,
    readChannelId, hread, Option.map_some, List.drop_left]

theorem parse_dataFirst (channel_id len : UInt32) (first : List UInt8) :
    parse (dataFirst channel_id len first) = some (.dataFirst channel_id len first) := by
  have hid := readNumber_writeNumber channel_id ((writeNumber len).2 ++ first)
  have hlen := readNumber_writeNumber len first
  have hsel : header cmdDataFirst (writeNumber len).1 (writeNumber channel_id).1 >>> 4 = cmdDataFirst ∧
      header cmdDataFirst (writeNumber len).1 (writeNumber channel_id).1 &&& 0x03 = (writeNumber channel_id).1 ∧
      (header cmdDataFirst (writeNumber len).1 (writeNumber channel_id).1 >>> 2) &&& 0x03 = (writeNumber len).1 := by
    rcases writeNumber_sel channel_id with h | h | h <;> rw [h] <;>
      rcases writeNumber_sel len with h' | h' | h' <;> rw [h'] <;> decide
  unfold dataFirst writeChannelId writeLength parse
  dsimp only
  rw [hsel.1, hsel.2.1, hsel.2.2, if_neg (by decide), if_neg (by decide), if_pos rfl, readChannelId,
    List.append_assoc, hid, Option.bind_some, List.drop_left]
  dsimp only
  rw [readLength, hlen, Option.map_some, List.drop_left]

end Rdpio.Channels.Drdynvc
