import Rdpio.Lib.Bytes

/-!
# The frames of the stream

TPKT frames (`crates/rdp-pdu/src/x224.rs`), the MCS indication in one (`mcs.rs`), and the share control
headers by which a reactivation is recognised (`capabilities.rs`, `finalization.rs`).
-/

namespace Rdpio.Pdu

abbrev Bytes := List UInt8

def tpktVersion : UInt8 := 3
def tpktHeaderLen : ℕ := 4

def be16 (hi lo : UInt8) : ℕ := hi.toNat * 256 + lo.toNat
def le16 (lo hi : UInt8) : ℕ := lo.toNat + hi.toNat * 256

def readTpktLen (header : Bytes) : Option ℕ :=
  if header.length < tpktHeaderLen ∨ header.getD 0 0 ≠ tpktVersion then none
  else some (be16 (header.getD 2 0) (header.getD 3 0))

/-- A well-formed frame. -/
def Tpkt (pdu : Bytes) : Prop := tpktHeaderLen ≤ pdu.length ∧ readTpktLen (pdu.take tpktHeaderLen) = some pdu.length

instance (pdu : Bytes) : Decidable (Tpkt pdu) := inferInstanceAs (Decidable (_ ∧ _))

theorem Tpkt.readTpktLen_append {pdu : Bytes} (h : Tpkt pdu) (rest : Bytes) :
    readTpktLen ((pdu ++ rest).take tpktHeaderLen) = some pdu.length := by
  rw [List.take_append_of_le_length h.1]
  exact h.2

def stripFraming (pdu : Bytes) : Bytes :=
  if pdu.head? = some tpktVersion ∧ tpktHeaderLen < pdu.length ∧
      tpktHeaderLen + (pdu.getD tpktHeaderLen 0).toNat + 1 ≤ pdu.length then
    pdu.drop (tpktHeaderLen + (pdu.getD tpktHeaderLen 0).toNat + 1)
  else pdu

def parseSendDataIndication (pdu : Bytes) : Option (ℕ × Bytes) :=
  let mcs := stripFraming pdu
  if mcs.length < 7 ∨ mcs.getD 0 0 >>> 2 ≠ 26 then none
  else
    let channel := be16 (mcs.getD 3 0) (mcs.getD 4 0)
    let first := mcs.getD 6 0
    if first &&& 0x80 ≠ 0 then
      let len := be16 (first &&& 0x7F) (mcs.getD 7 0)
      if mcs.length < 8 ∨ mcs.length < 8 + len then none else some (channel, (mcs.drop 8).take len)
    else if mcs.length < 7 + first.toNat then none
    else some (channel, (mcs.drop 7).take first.toNat)

def sharePduType (share_pdu : Bytes) : ℕ := le16 (share_pdu.getD 2 0) (share_pdu.getD 3 0) % 16

def isDeactivateAll (share_pdu : Bytes) : Bool := decide (4 ≤ share_pdu.length) && sharePduType share_pdu == 6

def parseDemandActive (share_pdu : Bytes) : Option ℕ :=
  if share_pdu.length < 10 ∨ sharePduType share_pdu ≠ 1 then none
  else some (Lib.ofLe ((share_pdu.drop 6).take 4))

def dataPduType2 (share_pdu : Bytes) : Option UInt8 :=
  if share_pdu.length < 18 ∨ sharePduType share_pdu ≠ 7 then none else some (share_pdu.getD 14 0)

def PDUTYPE2_FONTMAP : UInt8 := 0x28

end Rdpio.Pdu
