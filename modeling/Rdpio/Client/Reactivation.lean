import Rdpio.Lib.Run
import Rdpio.Pdu.Framing

/-!
# Reactivation

The graphics session's loop reads ahead into its own buffer (`poll_tpkt_pdu`, `take_buffered_tpkt` of
`crates/rdp-client/src/session.rs`), and `reactivate` reads frame by frame from the socket (`read_tpkt_pdu` of
`transport.rs`).
-/

namespace Rdpio.Client.Reactivation

open Pdu Lib

inductive Arrival where
  | data (first : UInt8) (more : Bytes)
  | nothing (late : Bool)
deriving DecidableEq

abbrev Socket := List Arrival

namespace Socket

def bytes : Socket → Bytes
  | [] => []
  | .data b bs :: s => b :: bs ++ bytes s
  | .nothing _ :: s => bytes s

/-- No reading comes after `reactivate`'s time. -/
def InTime (s : Socket) : Prop := .nothing true ∉ s

instance (s : Socket) : Decidable s.InTime := inferInstanceAs (Decidable (¬_))

def push (bs : Bytes) (s : Socket) : Socket :=
  match bs with
  | [] => s
  | b :: bs => .data b bs :: s

end Socket

/-- `read_exact_riding_timeouts`. -/
def readExact : ℕ → Socket → Option (Bytes × Socket)
  | 0, s => some ([], s)
  | _ + 1, [] => none
  | n + 1, .nothing late :: s => if late then none else readExact (n + 1) s
  | n + 1, .data b bs :: s =>
    if n + 1 ≤ (b :: bs).length then some ((b :: bs).take (n + 1), Socket.push ((b :: bs).drop (n + 1)) s)
    else (readExact (n + 1 - (b :: bs).length) s).map fun r => (b :: bs ++ r.1, r.2)

def readTpktPdu (s : Socket) : Option (Bytes × Socket) :=
  (readExact tpktHeaderLen s).bind fun (header, s) =>
    (readTpktLen header).bind fun total =>
      if total < tpktHeaderLen then none
      else (readExact (total - tpktHeaderLen) s).map fun (body, s) => (header ++ body, s)

def takeBufferedTpkt (buf : Bytes) : Except Unit (Option (Bytes × Bytes)) :=
  if buf.length < tpktHeaderLen then .ok none
  else
    match readTpktLen (buf.take tpktHeaderLen) with
    | none => .error ()
    | some total =>
      if total < tpktHeaderLen then .error ()
      else if buf.length < total then .ok none
      else .ok (some (buf.take total, buf.drop total))

inductive Polled where
  | pdu (pdu rx_buf : Bytes) (socket : Socket)
  /-- Nothing yet: partial bytes stay in the buffer. -/
  | waiting (rx_buf : Bytes) (socket : Socket)
  | failed
deriving DecidableEq

def pollTpktPdu (socket : Socket) (buf : Bytes) : Polled :=
  match takeBufferedTpkt buf with
  | .error _ => .failed
  | .ok (some (pdu, rest)) => .pdu pdu rest socket
  | .ok none =>
    match socket with
    | [] => .failed -- The server closed the connection.
    | .nothing _ :: s => .waiting buf s
    | .data b bs :: s => pollTpktPdu s (buf ++ b :: bs)

structure Config (ι : Type) where
  io_channel : ℕ
  cliprdr : Option ℕ
  rdpsnd : Option ℕ
  rdpdr : Option ℕ
  dvc_channel : Option ℕ
  unwrapInbound : ι → Bytes → ι × Bytes
  answered : ℕ → Bytes → Bool

structure Session (ι : Type) where
  inbound : ι
  rx_buf : Bytes
  socket : Socket
  ended : Bool
  /-- The PDUs parsed so far, by the loop or by `reactivate`. -/
  parsed : List Bytes
  /-- What the channels' reassemblers were given. -/
  chunks : List (ℕ × Bytes)

variable {ι : Type} (cfg : Config ι)

def Config.static (channel : ℕ) : Bool :=
  channel != cfg.io_channel && [cfg.cliprdr, cfg.rdpsnd, cfg.rdpdr, cfg.dvc_channel].contains (some channel)

/-- The channel and the decrypted payload of a PDU. -/
def Config.view (inbound : ι) (pdu : Bytes) : Option (ι × ℕ × Bytes) :=
  (parseSendDataIndication pdu).map fun (channel, payload) =>
    ((cfg.unwrapInbound inbound payload).1, channel, (cfg.unwrapInbound inbound payload).2)

namespace Session

variable (s : Session ι)

def fail : Session ι := { s with ended := true }

/-- `reactivate` waits for a PDU, among so many. -/
def await (wanted : Bytes → Bool) : ℕ → Session ι → Session ι
  | 0, s => s.fail
  | n + 1, s =>
    match readTpktPdu s.socket with
    | none => s.fail
    | some (pdu, socket) =>
      match cfg.view s.inbound pdu with
      | none => { s with socket }.fail
      | some (inbound, _, plaintext) =>
        let s := { s with socket, inbound, parsed := s.parsed ++ [pdu] }
        if wanted plaintext then s else await wanted n s

def demandActive (plaintext : Bytes) : Bool := (parseDemandActive plaintext).isSome

def fontMap (plaintext : Bytes) : Bool := dataPduType2 plaintext == some PDUTYPE2_FONTMAP

def reactivate : Session ι :=
  let s := await cfg demandActive 64 s
  if s.ended then s else await cfg fontMap 64 s

def deactivates (channel : ℕ) (plaintext : Bytes) : Bool :=
  channel == cfg.io_channel && !cfg.answered s.parsed.length plaintext && isDeactivateAll plaintext

def handle (pdu : Bytes) : Session ι :=
  match cfg.view s.inbound pdu with
  | none => s.fail
  | some (inbound, channel, plaintext) =>
    let deactivated := s.deactivates cfg channel plaintext
    let s := { s with inbound, parsed := s.parsed ++ [pdu] }
    if deactivated then s.reactivate cfg
    else if cfg.static channel then { s with chunks := s.chunks ++ [(channel, plaintext)] }
    else s

def turn : Session ι :=
  if s.ended then s
  else
    match pollTpktPdu s.socket s.rx_buf with
    | .failed => s.fail
    | .waiting rx_buf socket => { s with rx_buf, socket }
    | .pdu pdu rx_buf socket => { s with rx_buf, socket }.handle cfg pdu

end Session

/-! ## Reading loses nothing -/

namespace Socket

@[simp]
theorem bytes_push (bs : Bytes) (s : Socket) : (push bs s).bytes = bs ++ s.bytes := by
  cases bs <;> rfl

theorem InTime.push {s : Socket} (h : s.InTime) (bs : Bytes) : (push bs s).InTime := by
  cases bs with
  | nil => exact h
  | cons b bs => exact fun hmem => h ((List.mem_cons.mp hmem).resolve_left (by simp))

theorem length_push_le (bs : Bytes) (s : Socket) : (push bs s).length ≤ s.length + 1 := by
  cases bs with
  | nil => exact Nat.le_succ _
  | cons b bs => exact le_rfl

theorem InTime.tail {a : Arrival} {s : Socket} (h : InTime (a :: s)) : InTime s :=
  fun hmem => h (List.mem_cons_of_mem a hmem)

end Socket

structure Left (s : Socket) (bytes : Bytes) (most : ℕ) : Prop where
  bytes : s.bytes = bytes
  inTime : s.InTime
  length : s.length ≤ most

theorem readExact_eq {n : ℕ} {s : Socket} (hs : s.InTime) (hn : n ≤ s.bytes.length) :
    ∃ s', readExact n s = some (s.bytes.take n, s') ∧ Left s' (s.bytes.drop n) s.length := by
  induction s generalizing n with
  | nil =>
    obtain rfl : n = 0 := Nat.le_zero.mp hn
    exact ⟨[], rfl, rfl, hs, le_rfl⟩
  | cons a s ih =>
    cases n with
    | zero => exact ⟨a :: s, rfl, rfl, hs, le_rfl⟩
    | succ n =>
      cases a with
      | nothing late =>
        have hlate : late = false := by
          rcases late with _ | _
          · rfl
          · exact absurd List.mem_cons_self hs
        obtain ⟨s', heq, hleft⟩ := ih hs.tail hn
        refine ⟨s', ?_, hleft.bytes, hleft.inTime, Nat.le_succ_of_le hleft.length⟩
        rw [readExact, hlate, if_neg Bool.false_ne_true, heq]
        rfl
      | data b bs =>
        have hbytes : Socket.bytes (.data b bs :: s) = (b :: bs) ++ Socket.bytes s := rfl
        rw [hbytes] at hn ⊢
        by_cases hle : n + 1 ≤ (b :: bs).length
        · -- The arrival has it all.
          refine ⟨_, by rw [readExact, if_pos hle, List.take_append_of_le_length hle], ?_, hs.tail.push _,
            Socket.length_push_le _ s⟩
          rw [Socket.bytes_push, List.drop_append_of_le_length hle]
        · rw [List.length_append] at hn
          obtain ⟨s', heq, hleft⟩ := ih (n := n + 1 - (b :: bs).length) hs.tail (by omega)
          have hlong : (b :: bs).length ≤ n + 1 := by omega
          refine ⟨s', ?_, ?_, hleft.inTime, Nat.le_succ_of_le hleft.length⟩
          · rw [readExact, if_neg hle, heq, List.take_append, List.take_of_length_le hlong]
            rfl
          · rw [hleft.bytes, List.drop_append, List.drop_of_length_le hlong, List.nil_append]

theorem readTpktPdu_eq {s : Socket} (hs : s.InTime) {pdu rest : Bytes} (hpdu : Tpkt pdu)
    (hbytes : s.bytes = pdu ++ rest) : ∃ s', readTpktPdu s = some (pdu, s') ∧ Left s' rest s.length := by
  have hlen := hpdu.1
  obtain ⟨s₁, hheader, hleft₁⟩ := readExact_eq (n := tpktHeaderLen) hs (by rw [hbytes, List.length_append]; omega)
  have hrest : s₁.bytes = pdu.drop tpktHeaderLen ++ rest := by
    rw [hleft₁.bytes, hbytes, List.drop_append_of_le_length hlen]
  have hbody : (pdu.drop tpktHeaderLen).length = pdu.length - tpktHeaderLen := List.length_drop
  obtain ⟨s₂, hread, hleft₂⟩ := readExact_eq (n := pdu.length - tpktHeaderLen) hleft₁.inTime
    (by rw [hrest, List.length_append]; omega)
  refine ⟨s₂, ?_, ?_, hleft₂.inTime, hleft₂.length.trans hleft₁.length⟩
  · rw [readTpktPdu, hheader, hbytes, Option.bind_some]
    show (readTpktLen ((pdu ++ rest).take tpktHeaderLen)).bind _ = _
    rw [hpdu.readTpktLen_append, Option.bind_some, if_neg (by omega), hread, hrest, ← hbody, List.take_left,
      List.take_append_of_le_length hlen]
    show some (_ ++ _, s₂) = _
    rw [List.take_append_drop]
  · rw [hleft₂.bytes, hrest, ← hbody, List.drop_left]

theorem takeBufferedTpkt_eq {buf more pdu rest : Bytes} (hpdu : Tpkt pdu) (hbytes : buf ++ more = pdu ++ rest) :
    takeBufferedTpkt buf =
      if buf.length < pdu.length then .ok none else .ok (some (pdu, buf.drop pdu.length)) := by
  unfold takeBufferedTpkt
  by_cases hheader : buf.length < tpktHeaderLen
  · rw [if_pos hheader, if_pos (lt_of_lt_of_le hheader hpdu.1)]
  · have hlen : readTpktLen (buf.take tpktHeaderLen) = some pdu.length := by
      have htake : (buf ++ more).take tpktHeaderLen = buf.take tpktHeaderLen :=
        List.take_append_of_le_length (Nat.le_of_not_lt hheader)
      rw [← htake, hbytes]
      exact hpdu.readTpktLen_append rest
    rw [if_neg hheader, hlen]
    dsimp only
    rw [if_neg (Nat.not_lt.mpr hpdu.1)]
    split
    · rfl
    · have hle : pdu.length ≤ buf.length := by omega
      have htake : (buf ++ more).take pdu.length = buf.take pdu.length := List.take_append_of_le_length hle
      rw [← htake, hbytes, List.take_left]

/-- What a poll finds in a stream of frames. -/
def PollSpec (pdus : List Bytes) (most : ℕ) : Polled → Prop
  | .failed => pdus = []
  | .waiting buf s => buf ++ s.bytes = pdus.flatten ∧ s.InTime ∧ s.length < most
  | .pdu pdu buf s => ∃ rest, pdus = pdu :: rest ∧ buf ++ s.bytes = rest.flatten ∧ s.InTime ∧ s.length ≤ most

theorem PollSpec.mono {pdus : List Bytes} {most most' : ℕ} (hle : most ≤ most') {r : Polled}
    (h : PollSpec pdus most r) : PollSpec pdus most' r := by
  cases r with
  | failed => exact h
  | waiting buf s => exact ⟨h.1, h.2.1, lt_of_lt_of_le h.2.2 hle⟩
  | pdu pdu buf s =>
    obtain ⟨rest, hpdus, hbytes, htime, hlen⟩ := h
    exact ⟨rest, hpdus, hbytes, htime, hlen.trans hle⟩

theorem takeBufferedTpkt_spec {pdus : List Bytes} (hpdus : ∀ pdu ∈ pdus, Tpkt pdu) {buf more : Bytes}
    (hbytes : buf ++ more = pdus.flatten) :
    (takeBufferedTpkt buf = .ok none ∧ ∀ pdu ∈ pdus.head?, buf.length < pdu.length) ∨
      ∃ pdu rest buf', takeBufferedTpkt buf = .ok (some (pdu, buf')) ∧ pdus = pdu :: rest ∧
        buf' ++ more = rest.flatten := by
  cases pdus with
  | nil =>
    obtain ⟨rfl, rfl⟩ := List.append_eq_nil_iff.mp hbytes
    exact .inl ⟨rfl, by simp⟩
  | cons pdu rest =>
    rw [List.flatten_cons] at hbytes
    have htake := takeBufferedTpkt_eq (hpdus pdu List.mem_cons_self) hbytes
    by_cases hlen : buf.length < pdu.length
    · rw [if_pos hlen] at htake
      exact .inl ⟨htake, by simpa using hlen⟩
    · rw [if_neg hlen] at htake
      refine .inr ⟨pdu, rest, _, htake, rfl, ?_⟩
      have hdrop := congrArg (List.drop pdu.length) hbytes
      rwa [List.drop_left, List.drop_append_of_le_length (Nat.le_of_not_lt hlen)] at hdrop

theorem pollTpktPdu_spec {pdus : List Bytes} (hpdus : ∀ pdu ∈ pdus, Tpkt pdu) {s : Socket} (hs : s.InTime)
    {buf : Bytes} (hbytes : buf ++ s.bytes = pdus.flatten) :
    PollSpec pdus s.length (pollTpktPdu s buf) := by
  induction s generalizing buf with
  | nil =>
    obtain ⟨htake, hshort⟩ | ⟨pdu, rest, buf', htake, rfl, hrest⟩ := takeBufferedTpkt_spec hpdus hbytes
    · rw [pollTpktPdu, htake]
      show pdus = []
      rcases pdus with _ | ⟨pdu, rest⟩
      · rfl
      · have hlen := congrArg List.length hbytes
        have hpdu := hshort pdu rfl
        simp only [Socket.bytes, List.append_nil, List.flatten_cons, List.length_append] at hlen
        omega
    · rw [pollTpktPdu, htake]
      exact ⟨rest, rfl, hrest, hs, le_rfl⟩
  | cons a s ih =>
    obtain ⟨htake, hshort⟩ | ⟨pdu, rest, buf', htake, rfl, hrest⟩ := takeBufferedTpkt_spec hpdus hbytes
    · cases a with
      | nothing late =>
        rw [pollTpktPdu, htake]
        exact ⟨hbytes, hs.tail, Nat.lt_succ_self _⟩
      | data b bs =>
        rw [pollTpktPdu, htake]
        have hbytes' : (buf ++ b :: bs) ++ Socket.bytes s = pdus.flatten := by
          rw [← hbytes, List.append_assoc]
          rfl
        exact (ih hs.tail hbytes').mono (Nat.le_succ _)
    · unfold pollTpktPdu
      rw [htake]
      exact ⟨rest, rfl, hrest, hs, le_rfl⟩

def Config.replayOne (r : ι × List (ℕ × Bytes)) (pdu : Bytes) : ι × List (ℕ × Bytes) :=
  match cfg.view r.1 pdu with
  | none => r
  | some (inbound, channel, plaintext) =>
    (inbound, if cfg.static channel then r.2 ++ [(channel, plaintext)] else r.2)

def Config.replay (inbound : ι) (pdus : List Bytes) : ι × List (ℕ × Bytes) := pdus.foldl cfg.replayOne (inbound, [])

def Config.skipTo (wanted : Bytes → Bool) : ℕ → ι → List Bytes → Option (ι × List Bytes)
  | 0, _, _ => none
  | _ + 1, _, [] => none
  | n + 1, inbound, pdu :: rest =>
    (cfg.view inbound pdu).bind fun (inbound, channel, plaintext) =>
      if cfg.static channel then none
      else if wanted plaintext then some (inbound, rest)
      else skipTo wanted n inbound rest

/-- A Demand Active and a Font Map come, in time and with no chunk before or between them. -/
def Config.Handshake (inbound : ι) (pdus : List Bytes) : Prop :=
  ((cfg.skipTo Session.demandActive 64 inbound pdus).bind fun (inbound, rest) =>
    cfg.skipTo Session.fontMap 64 inbound rest).isSome

instance (inbound : ι) (pdus : List Bytes) : Decidable (cfg.Handshake inbound pdus) :=
  inferInstanceAs (Decidable (_ = true))

def Undisturbed (pdus : List Bytes) (s : Session ι) : Prop :=
  ∀ pdu rx_buf socket, pollTpktPdu s.socket s.rx_buf = .pdu pdu rx_buf socket →
    ∀ inbound channel plaintext, cfg.view s.inbound pdu = some (inbound, channel, plaintext) →
      s.deactivates cfg channel plaintext = true → rx_buf = [] ∧ cfg.Handshake inbound (pdus.drop (s.parsed.length + 1))

structure Delivered (inbound : ι) (pdus : List Bytes) (s : Session ι) : Prop where
  parsed : s.parsed <+: pdus
  chunks : s.chunks = (cfg.replay inbound s.parsed).2
  complete : s.ended = true → (∀ pdu ∈ pdus, (parseSendDataIndication pdu).isSome) → s.parsed = pdus

/-- What a turn keeps. -/
structure Intact (inbound : ι) (pdus : List Bytes) (s : Session ι) : Prop extends
    Delivered cfg inbound pdus s where
  inbound : s.inbound = (cfg.replay inbound s.parsed).1
  rest : s.ended = false → s.rx_buf ++ s.socket.bytes = (pdus.drop s.parsed.length).flatten ∧ s.socket.InTime

/-! ## Every turn delivers -/

section Turns

variable {cfg} {inbound : ι} {pdus : List Bytes} {s : Session ι}

theorem replay_concat (inbound : ι) (done : List Bytes) {pdu : Bytes} {inbound' : ι} {channel : ℕ}
    {plaintext : Bytes}
    (hview : cfg.view (cfg.replay inbound done).1 pdu = some (inbound', channel, plaintext)) :
    cfg.replay inbound (done ++ [pdu]) = (inbound',
      if cfg.static channel then (cfg.replay inbound done).2 ++ [(channel, plaintext)]
      else (cfg.replay inbound done).2) := by
  rw [Config.replay, List.foldl_append]
  show cfg.replayOne (cfg.replay inbound done) pdu = _
  rw [Config.replayOne, hview]

theorem drop_length_concat {done : List Bytes} {pdu : Bytes} {rest : List Bytes}
    (h : pdus.drop done.length = pdu :: rest) : pdus.drop (done ++ [pdu]).length = rest := by
  rw [List.length_append, ← List.drop_drop, h]
  rfl

theorem Intact.parse (h : Intact cfg inbound pdus s) (hended : s.ended = false) {pdu : Bytes} {rest : List Bytes}
    (hnext : pdus.drop s.parsed.length = pdu :: rest) {inbound' : ι} {channel : ℕ} {plaintext : Bytes}
    (hview : cfg.view s.inbound pdu = some (inbound', channel, plaintext)) {rx_buf : Bytes} {socket : Socket}
    (hbytes : rx_buf ++ socket.bytes = rest.flatten) (htime : socket.InTime) {chunks : List (ℕ × Bytes)}
    (hchunks : chunks = if cfg.static channel then s.chunks ++ [(channel, plaintext)] else s.chunks) :
    Intact cfg inbound pdus { s with rx_buf, socket, inbound := inbound', parsed := s.parsed ++ [pdu], chunks } := by
  rw [h.inbound] at hview
  have hreplay := replay_concat inbound s.parsed hview
  refine ⟨⟨?_, ?_, fun hend => ?_⟩, (congrArg Prod.fst hreplay).symm, fun _ => ⟨?_, htime⟩⟩
  · obtain ⟨after, hafter⟩ := h.parsed
    rw [← hafter, List.drop_left] at hnext
    exact ⟨rest, by rw [List.append_assoc, List.singleton_append, ← hnext, hafter]⟩
  · show chunks = (cfg.replay inbound (s.parsed ++ [pdu])).2
    rw [hreplay, hchunks, h.chunks]
  · exact absurd (hended.symm.trans hend) Bool.false_ne_true
  · rw [drop_length_concat hnext]
    exact hbytes

theorem Intact.fail (h : Intact cfg inbound pdus s) (rx_buf : Bytes) (socket : Socket)
    (hend : ∀ pdu ∈ (pdus.drop s.parsed.length).head?, parseSendDataIndication pdu = none) :
    Intact cfg inbound pdus { s with rx_buf, socket }.fail := by
  refine ⟨⟨h.parsed, h.chunks, fun _ hwell => ?_⟩, h.inbound, fun hended => absurd hended (by simp [Session.fail])⟩
  show s.parsed = pdus
  obtain ⟨after, rfl⟩ := h.parsed
  rw [List.drop_left] at hend
  rcases after with _ | ⟨pdu, after⟩
  · rw [List.append_nil]
  · have hsome := hwell pdu (List.mem_append_right _ List.mem_cons_self)
    rw [hend pdu rfl] at hsome
    exact absurd hsome Bool.false_ne_true

def Session.weight (s : Session ι) : ℕ := s.socket.length + (s.rx_buf ++ s.socket.bytes).length

theorem await_intact {wanted : Bytes → Bool} {n : ℕ} (hpdus : ∀ pdu ∈ pdus, Tpkt pdu)
    (h : Intact cfg inbound pdus s) (hended : s.ended = false) (hbuf : s.rx_buf = []) {inbound' : ι}
    {rest' : List Bytes}
    (hskip : cfg.skipTo wanted n s.inbound (pdus.drop s.parsed.length) = some (inbound', rest')) :
    let s' := Session.await cfg wanted n s
    Intact cfg inbound pdus s' ∧ s'.ended = false ∧ s'.rx_buf = [] ∧ s'.inbound = inbound' ∧
      pdus.drop s'.parsed.length = rest' ∧ s'.weight ≤ s.weight := by
  induction n generalizing s with
  | zero => cases hskip
  | succ n ih =>
    obtain ⟨hbytes, htime⟩ := h.rest hended
    rcases hnext : pdus.drop s.parsed.length with _ | ⟨pdu, rest⟩
    · rw [hnext] at hskip
      cases hskip
    · rw [hnext, Config.skipTo] at hskip
      obtain ⟨⟨inbound₁, channel, plaintext⟩, hview, hskip⟩ := Option.bind_eq_some_iff.mp hskip
      dsimp only at hskip
      have hpdu : Tpkt pdu := hpdus pdu (List.mem_of_mem_drop (hnext ▸ List.mem_cons_self))
      rw [hnext, hbuf, List.nil_append, List.flatten_cons] at hbytes
      obtain ⟨socket, hread, hleft⟩ := readTpktPdu_eq htime hpdu hbytes
      by_cases hstatic : cfg.static channel = true
      · rw [if_pos hstatic] at hskip
        cases hskip
      · rw [if_neg hstatic] at hskip
        have hrest : s.rx_buf ++ socket.bytes = rest.flatten := by
          rw [hbuf, hleft.bytes]
          rfl
        have hparse := h.parse hended hnext hview hrest hleft.inTime (if_neg hstatic).symm
        have hweight : ({ s with socket, inbound := inbound₁, parsed := s.parsed ++ [pdu] } : Session ι).weight ≤
            s.weight := by
          have := hleft.length
          simp only [Session.weight, hbuf, List.nil_append, hleft.bytes, hbytes, List.length_append]
          omega
        rw [Session.await, hread]
        dsimp only
        rw [hview]
        dsimp only
        by_cases hwanted : wanted plaintext = true
        · rw [if_pos hwanted] at hskip ⊢
          obtain ⟨rfl, rfl⟩ := Prod.mk.inj (Option.some.inj hskip)
          exact ⟨hparse, hended, hbuf, rfl, drop_length_concat hnext, hweight⟩
        · rw [if_neg hwanted] at hskip ⊢
          obtain ⟨h1, h2, h3, h4, h5, h6⟩ := ih hparse hended hbuf (by rw [drop_length_concat hnext]; exact hskip)
          exact ⟨h1, h2, h3, h4, h5, h6.trans hweight⟩

theorem reactivate_intact (hpdus : ∀ pdu ∈ pdus, Tpkt pdu) (h : Intact cfg inbound pdus s)
    (hended : s.ended = false) (hbuf : s.rx_buf = [])
    (hshake : cfg.Handshake s.inbound (pdus.drop s.parsed.length)) :
    Intact cfg inbound pdus (s.reactivate cfg) ∧ (s.reactivate cfg).weight ≤ s.weight := by
  obtain ⟨r, hr⟩ := Option.isSome_iff_exists.mp hshake
  obtain ⟨⟨inbound₁, rest₁⟩, hdemand, hfont⟩ := Option.bind_eq_some_iff.mp hr
  obtain ⟨h₁, hended₁, hbuf₁, rfl, rfl, hweight₁⟩ := await_intact hpdus h hended hbuf hdemand
  obtain ⟨h₂, -, -, -, -, hweight₂⟩ := await_intact hpdus h₁ hended₁ hbuf₁ hfont
  unfold Session.reactivate
  dsimp only
  rw [if_neg (by rw [hended₁]; exact Bool.false_ne_true)]
  exact ⟨h₂, hweight₂.trans hweight₁⟩

theorem view_eq_none {pdu : Bytes} {i : ι} : cfg.view i pdu = none ↔ parseSendDataIndication pdu = none :=
  Option.map_eq_none_iff

theorem turn_intact (hpdus : ∀ pdu ∈ pdus, Tpkt pdu) (h : Intact cfg inbound pdus s)
    (hquiet : Undisturbed cfg pdus s) :
    Intact cfg inbound pdus (s.turn cfg) ∧ ((s.turn cfg).ended = true ∨ (s.turn cfg).weight < s.weight) := by
  unfold Session.turn
  by_cases hended : s.ended = true
  · rw [if_pos hended]
    exact ⟨h, .inl hended⟩
  · rw [if_neg hended]
    rw [Bool.not_eq_true] at hended
    obtain ⟨hbytes, htime⟩ := h.rest hended
    have hspec := pollTpktPdu_spec (fun pdu hmem => hpdus pdu (List.mem_of_mem_drop hmem)) htime hbytes
    rcases hpoll : pollTpktPdu s.socket s.rx_buf with ⟨pdu, rx_buf, socket⟩ | ⟨rx_buf, socket⟩ | _
    · -- A PDU is there.
      rw [hpoll] at hspec
      obtain ⟨rest, hnext, hrest, htime', hlen⟩ := hspec
      have hlong := (hpdus pdu (List.mem_of_mem_drop (hnext ▸ List.mem_cons_self))).1
      have hless : (rx_buf ++ socket.bytes).length < (s.rx_buf ++ s.socket.bytes).length := by
        rw [hbytes, hnext, hrest, List.flatten_cons, List.length_append]
        have : tpktHeaderLen = 4 := rfl
        omega
      dsimp only
      unfold Session.handle
      dsimp only
      rcases hview : cfg.view s.inbound pdu with _ | ⟨inbound', channel, plaintext⟩
      · refine ⟨h.fail _ _ fun next hmem => ?_, .inl rfl⟩
        rw [hnext] at hmem
        obtain rfl := Option.some.inj hmem
        exact view_eq_none.mp hview
      · dsimp only
        have hparse := h.parse hended hnext hview hrest htime'
          (Eq.refl (if cfg.static channel then s.chunks ++ [(channel, plaintext)] else s.chunks))
        have hweight : s.socket.length + (rx_buf ++ socket.bytes).length < s.weight := by
          show _ < s.socket.length + (s.rx_buf ++ s.socket.bytes).length
          omega
        by_cases hdeact : s.deactivates cfg channel plaintext = true
        · -- A Deactivate All: the loop has read nothing beyond it.
          obtain ⟨rfl, hshake⟩ := hquiet pdu rx_buf socket hpoll inbound' channel plaintext hview hdeact
          have hio : cfg.static channel = false := by
            have hchannel := (Bool.and_eq_true_iff.mp (Bool.and_eq_true_iff.mp hdeact).1).1
            rw [Config.static, bne, hchannel]
            rfl
          have hdeact' : Session.deactivates cfg { s with rx_buf := [], socket } channel plaintext = true := hdeact
          rw [if_pos hdeact']
          rw [hio] at hparse
          have hdrop : pdus.drop (s.parsed.length + 1) = pdus.drop (s.parsed ++ [pdu]).length := by
            rw [List.length_append, List.length_singleton]
          rw [hdrop] at hshake
          obtain ⟨hintact, hle⟩ := reactivate_intact hpdus hparse hended rfl hshake
          refine ⟨hintact, .inr (lt_of_le_of_lt hle (lt_of_le_of_lt ?_ hweight))⟩
          exact Nat.add_le_add_right hlen _
        · have hdeact' : ¬Session.deactivates cfg { s with rx_buf, socket } channel plaintext = true := hdeact
          rw [if_neg hdeact']
          have hless : socket.length + (rx_buf ++ socket.bytes).length < s.weight :=
            lt_of_le_of_lt (Nat.add_le_add_right hlen _) hweight
          by_cases hstatic : cfg.static channel = true
          · rw [if_pos hstatic] at hparse ⊢
            exact ⟨hparse, .inr hless⟩
          · rw [if_neg hstatic] at hparse ⊢
            exact ⟨hparse, .inr hless⟩
    · rw [hpoll] at hspec
      obtain ⟨hrest, htime', hlen⟩ := hspec
      refine ⟨⟨⟨h.parsed, h.chunks, fun hend => absurd (hended.symm.trans hend) Bool.false_ne_true⟩, h.inbound,
        fun _ => ⟨hrest, htime'⟩⟩, .inr ?_⟩
      simp only [Session.weight, hrest, hbytes]
      omega
    · rw [hpoll] at hspec
      refine ⟨h.fail s.rx_buf s.socket fun pdu hmem => ?_, .inl rfl⟩
      rw [show pdus.drop s.parsed.length = [] from hspec] at hmem
      cases hmem

def Session.start (inbound : ι) (socket : Socket) : Session ι := ⟨inbound, [], socket, false, [], []⟩

theorem Intact.start {socket : Socket} (hbytes : socket.bytes = pdus.flatten) (htime : socket.InTime) :
    Intact cfg inbound pdus (.start inbound socket) :=
  ⟨⟨List.nil_prefix, rfl, fun hend => absurd hend Bool.false_ne_true⟩, rfl, fun _ => ⟨hbytes, htime⟩⟩

theorem turns_intact (hpdus : ∀ pdu ∈ pdus, Tpkt pdu) (h : Intact cfg inbound pdus s) (n : ℕ)
    (hquiet : ∀ k < n, Undisturbed cfg pdus ((Session.turn cfg)^[k] s)) :
    Intact cfg inbound pdus ((Session.turn cfg)^[n] s) ∧
      (((Session.turn cfg)^[n] s).ended = true ∨ ((Session.turn cfg)^[n] s).weight + n ≤ s.weight) := by
  induction n with
  | zero => exact ⟨h, .inr le_rfl⟩
  | succ n ih =>
    obtain ⟨hintact, hweight⟩ := ih fun k hk => hquiet k (Nat.lt_succ_of_lt hk)
    rw [Function.iterate_succ_apply']
    obtain ⟨hnext, hend | hless⟩ := turn_intact hpdus hintact (hquiet n (Nat.lt_succ_self n))
    · exact ⟨hnext, .inl hend⟩
    · refine ⟨hnext, ?_⟩
      rcases hweight with hended | hle
      · refine .inl ?_
        rw [Session.turn, if_pos hended]
        exact hended
      · exact .inr (by omega)

end Turns

/-- **Reactivation**: the frames of a stream, cut into readings in any way. -/
theorem delivered_of_undisturbed {ι : Type} (cfg : Config ι) (inbound : ι) (pdus : List Bytes)
    (hpdus : ∀ pdu ∈ pdus, Tpkt pdu) (socket : Socket) (hbytes : socket.bytes = pdus.flatten)
    (htime : socket.InTime) :
    let after := fun n => (Session.turn cfg)^[n] (.start inbound socket)
    (∀ n, (∀ k < n, Undisturbed cfg pdus (after k)) → Delivered cfg inbound pdus (after n)) ∧
      ((∀ k, Undisturbed cfg pdus (after k)) → ∃ n, (after n).ended = true) := by
  have hstart : Intact cfg inbound pdus (.start inbound socket) := .start hbytes htime
  refine ⟨fun n hquiet => (turns_intact hpdus hstart n hquiet).1.toDelivered, fun hquiet => ?_⟩
  -- Each turn reads something, or ends the session.
  refine ⟨(Session.start inbound socket).weight + 1, ?_⟩
  obtain ⟨-, hend | hle⟩ := turns_intact hpdus hstart ((Session.start inbound socket).weight + 1) fun k _ => hquiet k
  · exact hend
  · omega

def frame (channel : UInt16) (payload : Bytes) : Bytes :=
  [3, 0, 0, UInt8.ofNat (14 + payload.length), 2, 0xF0, 0x80, 0x68, 0, 1, (channel >>> 8).toUInt8, channel.toUInt8,
    0x70, UInt8.ofNat payload.length] ++ payload

def deactivateAll : Bytes := frame 1003 [6, 0, 0x16, 0, 0xEA, 3]

def demandActivePdu : Bytes := frame 1003 [10, 0, 0x11, 0, 0xEA, 3, 1, 0, 1, 0]

def fontMapPdu : Bytes := frame 1003 [18, 0, 0x17, 0, 0xEA, 3, 1, 0, 1, 0, 0, 1, 4, 0, 0x28, 0, 0, 0]

def chunk : Bytes := frame 1006 [4, 0, 0, 0, 3, 0, 0, 0, 0x50, 1, 0, 0]

/-- A session over TLS. -/
def plain : Config Unit where
  io_channel := 1003
  cliprdr := some 1004
  rdpsnd := some 1005
  rdpdr := none
  dvc_channel := some 1006
  unwrapInbound _ payload := ((), payload)
  answered _ _ := false

def arrivals (readings : List Bytes) : Socket := readings.foldr Socket.push []

theorem delivered_of_undisturbed_plain : Delivered plain () [deactivateAll, demandActivePdu, fontMapPdu, chunk]
      ((Session.turn plain)^[2] (.start () (arrivals [deactivateAll, demandActivePdu, fontMapPdu, chunk]))) := by
  refine (delivered_of_undisturbed plain () [deactivateAll, demandActivePdu, fontMapPdu, chunk] (by decide)
    (arrivals [deactivateAll, demandActivePdu, fontMapPdu, chunk]) (by decide) (by decide)).1 2 fun k hk => ?_
  intro pdu rx_buf socket hpoll inbound channel plaintext hview hdeact
  obtain rfl | rfl : k = 0 ∨ k = 1 := by omega
  · obtain ⟨rfl, rfl, rfl⟩ := Polled.pdu.inj ((show pollTpktPdu _ _ = .pdu deactivateAll []
      (arrivals [demandActivePdu, fontMapPdu, chunk]) by decide).symm.trans hpoll)
    exact ⟨rfl, show plain.Handshake () [demandActivePdu, fontMapPdu, chunk] by decide +kernel⟩
  · obtain ⟨rfl, rfl, rfl⟩ := Polled.pdu.inj ((show pollTpktPdu _ _ = .pdu chunk [] [] by decide +kernel).symm.trans
      hpoll)
    obtain ⟨-, rfl, rfl⟩ := Prod.mk.inj (Option.some.inj hview)
    exact absurd hdeact (by decide +kernel)

/-- The loop reads the Demand Active and the Font Map with the Deactivate All: `reactivate` waits for them on
the socket, to its end. -/
theorem reactivation_loses :
    let together := (Session.turn plain)^[1] (.start () (arrivals [deactivateAll ++ demandActivePdu ++ fontMapPdu]))
    let apart := (Session.turn plain)^[2] (.start () (arrivals [deactivateAll, chunk, demandActivePdu, fontMapPdu]))
    (together.ended = true ∧ together.parsed = [deactivateAll] ∧ together.rx_buf = demandActivePdu ++ fontMapPdu) ∧
      apart.parsed = [deactivateAll, chunk, demandActivePdu, fontMapPdu] ∧ apart.chunks = [] := by
  decide +kernel

end Rdpio.Client.Reactivation
