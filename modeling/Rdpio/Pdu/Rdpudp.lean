import Rdpio.Pdu.Framing

/-!
# RDP-UDP datagrams

`crates/rdp-pdu/src/rdpudp.rs`: the header of every datagram, the handshake, acknowledgement vectors, the parser
of a DATA datagram, and the connection that sends and receives them.
-/

namespace Rdpio.Pdu.Rdpudp

namespace flags

def SYN : UInt16 := 0x0001
def FIN : UInt16 := 0x0002
def ACK : UInt16 := 0x0004
def DATA : UInt16 := 0x0008
def FEC : UInt16 := 0x0010
def SYNLOSSY : UInt16 := 0x0080

end flags

def SYN_PACKET_SIZE : ℕ := 1232

def u16ToBe (n : UInt16) : Bytes := [UInt8.ofNat (n.toNat / 2^8), UInt8.ofNat n.toNat]

def u32ToBe (n : UInt32) : Bytes :=
  [UInt8.ofNat (n.toNat / 2^24), UInt8.ofNat (n.toNat / 2^16), UInt8.ofNat (n.toNat / 2^8), UInt8.ofNat n.toNat]

def u16FromBe (a b : UInt8) : UInt16 := UInt16.ofNat (be16 a b)

def u32FromBe (a b c d : UInt8) : UInt32 := UInt32.ofNat (be16 a b * 2^16 + be16 c d)

@[simp]
theorem u16FromBe_toBe (n : UInt16) : u16FromBe (UInt8.ofNat (n.toNat / 2^8)) (UInt8.ofNat n.toNat) = n := by
  have hn := n.toNat_lt
  rw [← UInt16.toNat_inj]
  simp only [u16FromBe, be16, UInt16.toNat_ofNat', UInt8.toNat_ofNat']
  omega

@[simp]
theorem u32FromBe_toBe (n : UInt32) :
    u32FromBe (UInt8.ofNat (n.toNat / 2^24)) (UInt8.ofNat (n.toNat / 2^16)) (UInt8.ofNat (n.toNat / 2^8))
      (UInt8.ofNat n.toNat) = n := by
  have hn := n.toNat_lt
  rw [← UInt32.toNat_inj]
  simp only [u32FromBe, be16, UInt32.toNat_ofNat', UInt8.toNat_ofNat']
  omega

/-- `RDPUDP_FEC_HEADER`, at the front of every datagram. -/
structure FecHeader where
  sn_source_ack : UInt32
  receiver_window : UInt16
  flags : UInt16
deriving DecidableEq

namespace FecHeader

def write (h : FecHeader) : Bytes := u32ToBe h.sn_source_ack ++ u16ToBe h.receiver_window ++ u16ToBe h.flags

def parse : Bytes → Option FecHeader
  | a :: b :: c :: d :: e :: f :: g :: h :: _ => some ⟨u32FromBe a b c d, u16FromBe e f, u16FromBe g h⟩
  | _ => none

def has (h : FecHeader) (flag : UInt16) : Bool := h.flags &&& flag != 0

@[simp]
theorem length_write (h : FecHeader) : h.write.length = 8 := rfl

/-- A header is read back, whatever follows it. -/
@[simp]
theorem parse_write (h : FecHeader) (rest : Bytes) : parse (h.write ++ rest) = some h := by
  simp only [write, u32ToBe, u16ToBe, parse, List.cons_append, List.nil_append, u32FromBe_toBe, u16FromBe_toBe]

end FecHeader

/-- `RDPUDP_SYNDATA_PAYLOAD`. -/
structure SynData where
  initial_sequence : UInt32
  upstream_mtu : UInt16
  downstream_mtu : UInt16
deriving DecidableEq

namespace SynData

def write (s : SynData) : Bytes := u32ToBe s.initial_sequence ++ u16ToBe s.upstream_mtu ++ u16ToBe s.downstream_mtu

def parse : Bytes → Option SynData
  | a :: b :: c :: d :: e :: f :: g :: h :: _ => some ⟨u32FromBe a b c d, u16FromBe e f, u16FromBe g h⟩
  | _ => none

end SynData

/-- The client's first datagram. -/
def buildSyn (initial_sequence : UInt32) (receiver_window : UInt16) (lossy : Bool) : Bytes :=
  let header : FecHeader :=
    ⟨initial_sequence - 1, receiver_window, if lossy then flags.SYN ||| flags.SYNLOSSY else flags.SYN⟩
  let syn : SynData := ⟨initial_sequence, UInt16.ofNat SYN_PACKET_SIZE, UInt16.ofNat SYN_PACKET_SIZE⟩
  let out := header.write ++ syn.write
  out ++ List.replicate (SYN_PACKET_SIZE - out.length) 0

def ackElements : ℕ → ℕ → Bytes
  | 0, _ => []
  | room + 1, remaining =>
    if remaining = 0 then [] else UInt8.ofNat (min remaining 63) :: ackElements room (remaining - min remaining 63)

def ackVector (received : ℕ) : Bytes :=
  let elements := ackElements 0xFFFF received
  u16ToBe (UInt16.ofNat elements.length) ++ elements

def buildAckWith (sn_source_ack : UInt32) (receiver_window : UInt16) (received : ℕ) : Bytes :=
  FecHeader.write ⟨sn_source_ack, receiver_window, flags.ACK⟩ ++ ackVector received

def buildAck (sn_source_ack : UInt32) (receiver_window : UInt16) : Bytes := buildAckWith sn_source_ack receiver_window 0

def sourceHeaderAt (data : Bytes) (flag_word : UInt16) : Option ℕ :=
  if flag_word &&& flags.ACK ≠ 0 then do
    let size := be16 (← data[8]?) (← data[9]?)
    some ((8 + (2 + size) + 3) / 4 * 4)
  else some 8

def getFrom (data : Bytes) (off : ℕ) : Option Bytes := if off ≤ data.length then some (data.drop off) else none

def sourcePayload (data : Bytes) (flag_word : UInt16) : Option Bytes := do
  let off ← sourceHeaderAt data flag_word
  getFrom data (if flag_word &&& flags.DATA ≠ 0 then off + 8 else off)

def sourceSeq (data : Bytes) (flag_word : UInt16) : Option UInt32 :=
  if flag_word &&& flags.DATA = 0 then none
  else do
    let s := (← sourceHeaderAt data flag_word) + 4
    some (u32FromBe (← data[s]?) (← data[s + 1]?) (← data[s + 2]?) (← data[s + 3]?))

inductive DatagramKind
  | synAck
  | ack
  | data
  | fin
  | other
deriving DecidableEq

def classify (data : Bytes) : Option (FecHeader × DatagramKind × Option SynData) := do
  let header ← FecHeader.parse data
  let kind :=
    if header.has flags.SYN && header.has flags.ACK then .synAck
    else if header.has flags.FIN then .fin
    else if header.has flags.DATA then .data
    else if header.has flags.ACK then .ack
    else .other
  let syn := if header.has flags.SYN then SynData.parse (data.drop 8) else none
  some (header, kind, syn)

inductive State
  | synSent
  | established
  | closed
deriving DecidableEq

inductive Action
  | send (datagram : Bytes)
  | deliver (payload : Bytes)
  | established
  | closed
deriving DecidableEq

def insertKey (k : UInt32) (v : Bytes) (m : List (UInt32 × Bytes)) : List (UInt32 × Bytes) :=
  m.filter (·.1 < k) ++ (k, v) :: m.filter (k < ·.1)

def removeKey (k : UInt32) (m : List (UInt32 × Bytes)) : List (UInt32 × Bytes) := m.filter (·.1 ≠ k)

theorem length_removeKey_lt {k : UInt32} {held : Bytes} {m : List (UInt32 × Bytes)} (h : m.lookup k = some held) :
    (removeKey k m).length < m.length := by
  obtain ⟨l₁, l₂, rfl, -⟩ := List.lookup_eq_some_iff.1 h
  have h₁ := List.length_filter_le (fun e : UInt32 × Bytes => decide (e.1 ≠ k)) l₁
  have h₂ := List.length_filter_le (fun e : UInt32 × Bytes => decide (e.1 ≠ k)) l₂
  simp only [removeKey, List.filter_append, List.filter_cons, List.length_append, List.length_cons]
  simp only [ne_eq, not_true_eq_false, decide_false, Bool.false_eq_true, ↓reduceIte]
  simp only [ne_eq] at h₁ h₂
  omega

structure Connection where
  state : State
  send_seq : UInt32
  recv_seq : UInt32
  recv_count : ℕ
  window : UInt16
  lossy : Bool
  unacked : List (UInt32 × Bytes)
  recv_source_total : ℕ
  recv_lost : ℕ
  recv_next : Option UInt32
  reorder : List (UInt32 × Bytes)
deriving DecidableEq

def MAX_REORDER : ℕ := 256
def MAX_UNACKED : ℕ := 512

namespace Connection

def connect (initial_sequence : UInt32) (window : UInt16) (lossy : Bool) : Connection × Bytes :=
  (⟨.synSent, initial_sequence, 0, 0, window, lossy, [], 0, 0, none, []⟩, buildSyn initial_sequence window lossy)

/-- What the peer has not acknowledged. -/
def retain (c : Connection) (sn_source_ack : UInt32) : Connection :=
  { c with unacked := c.unacked.filter fun e => e.1 - sn_source_ack ≠ 0 ∧ e.1 - sn_source_ack < 0x80000000 }

def drain (window next : UInt32) (recv_count : ℕ) (reorder : List (UInt32 × Bytes)) :
    List Action × UInt32 × ℕ × List (UInt32 × Bytes) :=
  match h : reorder.lookup next with
  | some held =>
    let (actions, rest) := drain window (next + 1) (min (recv_count + 1) window.toNat) (removeKey next reorder)
    (.deliver held :: actions, rest)
  | none => ([], next, recv_count, reorder)
termination_by reorder.length
decreasing_by exact length_removeKey_lt h

/-- A DATA datagram with a sequence number and a payload. -/
def onSource (c : Connection) (seq : UInt32) (payload : Bytes) : Connection × List Action :=
  let next := c.recv_next.getD seq
  let c := { c with recv_next := some next }
  if 0x80000000 ≤ seq - next then (c, [])
  else if seq - next = 0 then
    let (actions, next, recv_count, reorder) :=
      drain c.window.toUInt32 (next + 1) (min (c.recv_count + 1) c.window.toNat) c.reorder
    ({ c with recv_count, reorder, recv_next := some next, recv_seq := next - 1 }, .deliver payload :: actions)
  else
    let c := { c with recv_lost := c.recv_lost + 1 }
    (if c.reorder.length < MAX_REORDER then { c with reorder := insertKey seq payload c.reorder } else c, [])

def onData (c : Connection) (header : FecHeader) (datagram : Bytes) : Connection × List Action :=
  if header.has flags.FEC then (c, [.send (buildAckWith c.recv_seq c.window c.recv_count)])
  else
    let c := { c with recv_source_total := c.recv_source_total + 1 }
    let (c, actions) :=
      match sourceSeq datagram header.flags, (sourcePayload datagram header.flags).filter (· ≠ []) with
      | some seq, some payload => c.onSource seq payload
      | _, _ => (c, [])
    (c, actions ++ [.send (buildAckWith c.recv_seq c.window c.recv_count)])

def onSynAck (c : Connection) (header : FecHeader) (syn : Option SynData) : Connection × List Action :=
  let c := match syn with
    | some s => { c with recv_seq := s.initial_sequence, recv_next := some (s.initial_sequence + 1) }
    | none => { c with recv_seq := header.sn_source_ack }
  ({ c with state := .established }, [.send (buildAck c.recv_seq c.window), .established])

def onReceive (c : Connection) (datagram : Bytes) : Connection × List Action :=
  match classify datagram with
  | none => (c, [])
  | some (header, kind, syn) =>
    let c := c.retain header.sn_source_ack
    if kind = .synAck ∧ c.state = .synSent then c.onSynAck header syn
    else if kind = .data ∧ c.state = .established then c.onData header datagram
    else if kind = .fin then ({ c with state := .closed }, [.closed])
    else (c, [])

def dataHeader (c : Connection) : FecHeader := ⟨c.recv_seq, c.window, flags.DATA ||| flags.ACK⟩

def buildData (c : Connection) (payload : Bytes) : Connection × Bytes :=
  let c := { c with send_seq := c.send_seq + 1 }
  let out := c.dataHeader.write ++ payload
  let c :=
    if c.lossy then c
    else
      let unacked := if MAX_UNACKED ≤ c.unacked.length then c.unacked.drop 1 else c.unacked
      { c with unacked := insertKey c.send_seq out unacked }
  (c, out)

end Connection

def delivered (actions : List Action) : List Bytes :=
  actions.filterMap fun
    | .deliver payload => some payload
    | _ => none

theorem le_sourceHeaderAt {data : Bytes} {flag_word : UInt16} {off : ℕ} (hack : flag_word &&& flags.ACK ≠ 0)
    (h : sourceHeaderAt data flag_word = some off) : 12 ≤ off := by
  simp only [sourceHeaderAt, if_pos hack, Option.bind_eq_bind, Option.bind_eq_some_iff, Option.some.injEq] at h
  obtain ⟨a, -, b, -, rfl⟩ := h
  omega

theorem length_of_getFrom {data payload : Bytes} {off : ℕ} (h : getFrom data off = some payload) :
    payload.length + off = data.length := by
  unfold getFrom at h
  split_ifs at h with hle
  cases h
  rw [List.length_drop]
  omega

theorem length_of_sourcePayload {data payload : Bytes}
    (h : sourcePayload data (flags.DATA ||| flags.ACK) = some payload) : payload.length + 20 ≤ data.length := by
  have hack : (flags.DATA ||| flags.ACK) &&& flags.ACK ≠ 0 := by decide
  have hdata : (flags.DATA ||| flags.ACK) &&& flags.DATA ≠ 0 := by decide
  simp only [sourcePayload, if_pos hdata, Option.bind_eq_bind, Option.bind_eq_some_iff] at h
  obtain ⟨off, hoff, hget⟩ := h
  have h12 := le_sourceHeaderAt hack hoff
  have hlen := length_of_getFrom hget
  omega

namespace Connection

variable (c : Connection) (payload : Bytes)

theorem buildData_snd : (c.buildData payload).2 = c.dataHeader.write ++ payload := rfl

@[simp]
theorem buildData_send_seq : (c.buildData payload).1.send_seq = c.send_seq + 1 := by
  simp only [buildData]
  split_ifs <;> rfl

theorem sourcePayload_buildData : sourcePayload (c.buildData payload).2 (flags.DATA ||| flags.ACK) ≠ some payload := by
  intro h
  have hlen := length_of_sourcePayload h
  rw [buildData_snd, List.length_append, FecHeader.length_write] at hlen
  omega

theorem dataHeader_has (flag : UInt16) : c.dataHeader.has flag = ((flags.DATA ||| flags.ACK) &&& flag != 0) := rfl

theorem classify_buildData : classify (c.buildData payload).2 = some (c.dataHeader, .data, none) := by
  have hsyn : ((flags.DATA ||| flags.ACK) &&& flags.SYN != 0) = false := by decide
  have hfin : ((flags.DATA ||| flags.ACK) &&& flags.FIN != 0) = false := by decide
  have hdata : ((flags.DATA ||| flags.ACK) &&& flags.DATA != 0) = true := by decide
  rw [buildData_snd]
  simp only [classify, FecHeader.parse_write, Option.bind_eq_bind, Option.bind_some, dataHeader_has]
  simp [hsyn, hfin, hdata]

theorem head_delivered_onSource (seq : UInt32) : delivered (c.onSource seq payload).2 = [] ∨
      ∃ held, delivered (c.onSource seq payload).2 = payload :: held := by
  simp only [onSource]
  split_ifs
  · exact Or.inl rfl
  · exact Or.inr ⟨_, rfl⟩
  · exact Or.inl rfl
  · exact Or.inl rfl

theorem delivered_append_send (actions : List Action) (datagram : Bytes) :
    delivered (actions ++ [.send datagram]) = delivered actions := by
  simp [delivered]

theorem head_delivered_onReceive_buildData (peer : Connection) :
    (delivered (peer.onReceive (c.buildData payload).2).2).head? ≠ some payload := by
  have hfec : c.dataHeader.has flags.FEC = false := by
    rw [dataHeader_has]
    decide
  simp only [onReceive, classify_buildData, reduceCtorEq, false_and, if_false, true_and]
  split_ifs
  · simp only [onData, hfec, Bool.false_eq_true, if_false, delivered_append_send]
    split
    · next seq read _ hread =>
      obtain ⟨hread, -⟩ := Option.filter_eq_some_iff.1 hread
      -- the peer has read something else
      have hne : read ≠ payload := by
        rintro rfl
        exact c.sourcePayload_buildData read hread
      obtain h | ⟨held, h⟩ := head_delivered_onSource
        { peer.retain c.dataHeader.sn_source_ack with recv_source_total := _ } read seq
      · rw [h]
        simp
      · rw [h]
        simpa using hne
    · simp [delivered]
  · simp [delivered]

/-- No datagram of `buildData` is read back, by the parser or by a peer that waits for it. -/
theorem buildData_not_read_back (c : Connection) (payload : Bytes) :
    ∃ header, FecHeader.parse (c.buildData payload).2 = some header ∧
      sourcePayload (c.buildData payload).2 header.flags ≠ some payload ∧
      ∀ peer : Connection, (delivered (peer.onReceive (c.buildData payload).2).2).head? ≠ some payload := by
  refine ⟨c.dataHeader, ?_, c.sourcePayload_buildData payload, c.head_delivered_onReceive_buildData payload⟩
  rw [buildData_snd]
  exact FecHeader.parse_write _ _

/-- Four bytes sent by a connection just established: the parser takes the first two for the size of a vector. -/
theorem four_bytes_not_read :
    let c := ((connect 1 64 false).1.onReceive
      (FecHeader.write ⟨10, 64, flags.SYN ||| flags.ACK⟩ ++ SynData.write ⟨10, 1232, 1232⟩)).1
    let peer := { (connect 1 64 false).1 with state := .established, recv_next := some 2 }
    let (sent, datagram) := c.buildData [0xDE, 0xAD, 0xBE, 0xEF]
    c.state = .established ∧ sent.send_seq = 2 ∧ sourceSeq datagram (flags.DATA ||| flags.ACK) = none ∧
      sourcePayload datagram (flags.DATA ||| flags.ACK) = none ∧ delivered (peer.onReceive datagram).2 = [] := by
  decide +kernel

end Connection

end Rdpio.Pdu.Rdpudp
