import Rdpio.Client.Reactivation

/-!
# The tunnel over a WebSocket

`WebSocketStream` of `crates/rdp-client/src/websocket.rs` turns messages into a stream of bytes, and
`poll_tpkt_pdu` of `session.rs` reads TPKTs from it.
-/

namespace Rdpio.Client.WebSocket

open Pdu Reactivation

/-- What a reading of the connection finds. -/
inductive Inbound where
  | binary (data : Bytes)
  | text
  | ping
  | pong
  | close
  | timeout
  /-- Any other error. -/
  | broken
deriving DecidableEq

inductive ErrorKind where
  | WouldBlock
  | UnexpectedEof
  | BrokenPipe
deriving DecidableEq

structure Stream where
  inbox : List Inbound
  read_buf : Bytes
  read_pos : ℕ
  closed : Bool
  write_buf : Bytes
  /-- The binary messages sent. -/
  outbox : List Bytes
deriving DecidableEq

def Stream.new (inbox : List Inbound) : Stream := ⟨inbox, [], 0, false, [], []⟩

def fillReadBuf (s : Stream) : List Inbound → Except ErrorKind Unit × Stream
  | [] => (.error .WouldBlock, { s with inbox := [] })
  | .timeout :: inbox => (.error .WouldBlock, { s with inbox })
  | .broken :: inbox => (.error .BrokenPipe, { s with inbox })
  | .binary data :: inbox => (.ok (), { s with inbox, read_buf := data, read_pos := 0 })
  | .text :: inbox => fillReadBuf s inbox
  | .ping :: inbox => fillReadBuf s inbox
  | .pong :: inbox => fillReadBuf s inbox
  | .close :: inbox => (.error .UnexpectedEof, { s with inbox, closed := true })

/-- The part of `read` behind the reading of a message. -/
def Stream.serve (s : Stream) (len : ℕ) : Except ErrorKind Bytes × Stream :=
  let available := s.read_buf.drop s.read_pos
  let n := min available.length len
  (.ok (available.take n), { s with read_pos := s.read_pos + n })

/-- `read` into a buffer of `len` bytes. -/
def Stream.read (s : Stream) (len : ℕ) : Except ErrorKind Bytes × Stream :=
  if len = 0 then (.ok [], s)
  else if s.read_buf.length ≤ s.read_pos then
    if s.closed then (.ok [], s)
    else
      match fillReadBuf s s.inbox with
      | (.error e, s') => (.error e, s')
      | (.ok _, s') => s'.serve len
  else s.serve len

def Stream.write (s : Stream) (buf : Bytes) : Stream := { s with write_buf := s.write_buf ++ buf }

/-- `flush`, the sending succeeding. -/
def Stream.flush (s : Stream) : Stream :=
  if s.write_buf = [] then s else { s with write_buf := [], outbox := s.outbox ++ [s.write_buf] }

/-! ### The stream of bytes -/

def Inbound.payload : Inbound → Bytes
  | .binary data => data
  | _ => []

def payloads (inbox : List Inbound) : Bytes := inbox.flatMap Inbound.payload

def Stream.available (s : Stream) : Bytes := s.read_buf.drop s.read_pos

/-- What is still to be returned. -/
def Stream.rest (s : Stream) : Bytes := s.available ++ payloads s.inbox

def Stream.left (s : Stream) : ℕ := s.rest.length + s.inbox.length

def Whole : List Inbound → Prop
  | [] => True
  | .close :: inbox => inbox = []
  | .broken :: _ => False
  | _ :: inbox => Whole inbox

instance : (inbox : List Inbound) → Decidable (Whole inbox)
  | [] => inferInstanceAs (Decidable True)
  | .close :: inbox => inferInstanceAs (Decidable (inbox = []))
  | .broken :: _ => inferInstanceAs (Decidable False)
  | .binary _ :: inbox | .text :: inbox | .ping :: inbox | .pong :: inbox | .timeout :: inbox =>
    instDecidableWhole inbox

inductive Read (s : Stream) : Except ErrorKind Bytes → Stream → Prop where
  | data {bs : Bytes} {s' : Stream} (some : bs ≠ []) (rest : s.rest = bs ++ s'.rest)
      (left : s'.left < s.left) (closed : s'.closed = s.closed)
      (empty : Inbound.binary [] ∈ s'.inbox ↔ Inbound.binary [] ∈ s.inbox)
      (whole : Whole s.inbox → Whole s'.inbox) (moved : s'.left + bs.length ≤ s.left) :
      Read s (.ok bs) s'
  | closed (closed : s.closed = true) (none : s.available = []) : Read s (.ok []) s
  | empty {s' : Stream} (mem : Inbound.binary [] ∈ s.inbox) (rest : s'.rest = s.rest)
      (left : s'.left < s.left) (opened : s.closed = false) (closed : s'.closed = false)
      (whole : Whole s.inbox → Whole s'.inbox) : Read s (.ok []) s'
  | waits {s' : Stream} (rest : s'.rest = s.rest)
      (left : s'.left < s.left ∨ s'.left = 0 ∧ s.inbox = []) (closed : s'.closed = s.closed)
      (empty : Inbound.binary [] ∈ s'.inbox ↔ Inbound.binary [] ∈ s.inbox)
      (whole : Whole s.inbox → Whole s'.inbox) : Read s (.error .WouldBlock) s'
  | ends {s' : Stream} (rest : s'.rest = s.rest) (closed : s'.closed = true)
      (whole : Whole s.inbox → s'.left = 0 ∧ Inbound.binary [] ∉ s.inbox) :
      Read s (.error .UnexpectedEof) s'
  | breaks {s' : Stream} (rest : s'.rest = s.rest) (whole : ¬ Whole s.inbox) : Read s (.error .BrokenPipe) s'

theorem serve_eq (s : Stream) (len : ℕ) :
    (s.serve len).1 = .ok (s.available.take len) ∧ (s.serve len).2.available = s.available.drop len ∧
      (s.serve len).2.inbox = s.inbox ∧ (s.serve len).2.closed = s.closed := by
  have hmin (l : Bytes) : l.take (min l.length len) = l.take len ∧ l.drop (min l.length len) = l.drop len := by
    rcases le_total l.length len with h | h
    · rw [min_eq_left h, List.take_of_length_le h, List.take_length, List.drop_of_length_le h,
        List.drop_length]
      exact ⟨rfl, rfl⟩
    · rw [min_eq_right h]
      exact ⟨rfl, rfl⟩
  refine ⟨congrArg Except.ok (hmin _).1, ?_, rfl, rfl⟩
  rw [Stream.serve, Stream.available, Stream.available, ← (hmin _).2, List.drop_drop]

theorem rest_of {s s' : Stream} {bs : Bytes} (ha : s.available = bs ++ s'.available)
    (hi : s'.inbox = s.inbox) : s.rest = bs ++ s'.rest := by
  rw [Stream.rest, Stream.rest, ha, hi, List.append_assoc]

theorem fill_read {s : Stream} {len : ℕ} (hlen : 0 < len) (hopen : s.closed = false)
    (hnone : s.available = []) (inbox : List Inbound) :
    Read { s with inbox }
      (match fillReadBuf s inbox with
        | (.error e, _) => .error e
        | (.ok _, s') => (s'.serve len).1)
      (match fillReadBuf s inbox with
        | (.error _, s') => s'
        | (.ok _, s') => (s'.serve len).2) := by
  -- A message that carries nothing leaves what the next reading finds.
  have hskip {m : Inbound} {inbox : List Inbound} {r : Except ErrorKind Bytes} {s' : Stream}
      (hp : m.payload = []) (hm : m ≠ .binary [])
      (hwhole : Whole (m :: inbox) ↔ Whole inbox) (h : Read { s with inbox } r s') :
      Read { s with inbox := m :: inbox } r s' := by
    have hrest : Stream.rest { s with inbox := m :: inbox } = Stream.rest { s with inbox } := by
      simp only [Stream.rest, payloads, List.flatMap_cons, hp, List.nil_append]
      rfl
    have hleft : Stream.left { s with inbox := m :: inbox } = Stream.left { s with inbox } + 1 := by
      simp only [Stream.left, hrest, List.length_cons, Nat.add_assoc]
    have hmem : Inbound.binary [] ∈ m :: inbox ↔ Inbound.binary [] ∈ inbox := by
      simp [List.mem_cons, hm.symm]
    cases h with
    | data hs hr hl hc he hw hm =>
      exact .data hs (hrest.trans hr) (by omega) hc (he.trans hmem.symm) (fun h => hw (hwhole.mp h)) (by omega)
    | closed hc _ => exact absurd (hopen.symm.trans hc) Bool.false_ne_true
    | empty he hr hl ho hc hw =>
      exact .empty (hmem.mpr he) (hr.trans hrest.symm) (by omega) ho hc (fun h => hw (hwhole.mp h))
    | waits hr hl hc he hw =>
      refine .waits (hr.trans hrest.symm) ?_ hc (he.trans hmem.symm) (fun h => hw (hwhole.mp h))
      rcases hl with hl | ⟨hl, hi⟩
      · left
        omega
      · left
        rw [hl, hleft]
        exact Nat.succ_pos _
    | ends hr hc hw =>
      exact .ends (hr.trans hrest.symm) hc fun h => ⟨(hw (hwhole.mp h)).1, fun he => (hw (hwhole.mp h)).2 (hmem.mp he)⟩
    | breaks hr hw => exact .breaks (hr.trans hrest.symm) fun h => hw (hwhole.mp h)
  induction inbox with
  | nil => exact .waits rfl (.inr ⟨by simp [fillReadBuf, Stream.left, Stream.rest, Stream.available] at hnone ⊢; simp [hnone, payloads], rfl⟩) rfl Iff.rfl id
  | cons m inbox ih =>
    have hrest : ∀ m' : Inbound, Stream.rest { s with inbox := m' :: inbox } =
        m'.payload ++ payloads inbox := fun m' => by
      simp only [Stream.rest, payloads, List.flatMap_cons]
      rw [show Stream.available { s with inbox := m' :: inbox } = [] from hnone, List.nil_append]
    have hbehind : Stream.rest { s with inbox } = payloads inbox := by
      rw [Stream.rest, show Stream.available { s with inbox } = [] from hnone, List.nil_append]
    cases m with
    | text => exact hskip rfl (by simp) Iff.rfl ih
    | ping => exact hskip rfl (by simp) Iff.rfl ih
    | pong => exact hskip rfl (by simp) Iff.rfl ih
    | timeout =>
      refine .waits ?_ (.inl ?_) rfl ?_ id
      · rw [hrest]
        exact hbehind
      · show Stream.left { s with inbox } < _
        rw [Stream.left, Stream.left, hrest, hbehind]
        simp [Inbound.payload]
      · simp [fillReadBuf]
    | broken => exact .breaks (by rw [hrest]; exact hbehind) (fun h => h)
    | close =>
      refine .ends (by rw [hrest]; exact hbehind) rfl fun h => ?_
      have hnil : inbox = [] := h
      subst hnil
      refine ⟨?_, by simp⟩
      show Stream.left { s with inbox := [], closed := true } = 0
      rw [Stream.left, show Stream.rest { s with inbox := [], closed := true } = [] from hbehind]
      rfl
    | binary data =>
      simp only [fillReadBuf]
      set s' : Stream := { s with inbox, read_buf := data, read_pos := 0 } with hs'
      obtain ⟨hr, ha, hi, hc⟩ := serve_eq s' len
      have hav : s'.available = data := rfl
      rw [hr, hav]
      have hsplit : Stream.rest { s with inbox := .binary data :: inbox } = data.take len ++ (s'.serve len).2.rest := by
        rw [hrest, Stream.rest, ha, hi, hav, ← List.append_assoc, List.take_append_drop]
        rfl
      by_cases hd : data = []
      · subst hd
        rw [List.take_nil] at hsplit ⊢
        refine .empty List.mem_cons_self (by rw [hsplit]; rfl) ?_ hopen (hc.trans hopen) ?_
        · rw [Stream.left, Stream.left, hsplit, List.nil_append, hi]
          exact Nat.lt_succ_self _
        · rw [hi]
          exact id
      · have hlens := congrArg List.length hsplit
        rw [List.length_append] at hlens
        have hi' : (s'.serve len).2.inbox = inbox := hi
        have hleft : Stream.left { s with inbox := .binary data :: inbox } =
            (s'.serve len).2.left + (data.take len).length + 1 := by
          rw [Stream.left, Stream.left, hlens, hi']
          simp only [List.length_cons]
          omega
        refine .data (by simp [hd, hlen.ne']) hsplit ?_ hc ?_ ?_ ?_
        · omega
        · rw [hi]
          simp [hs', hd]
        · rw [hi]
          exact id
        · omega

theorem read_spec (s : Stream) {len : ℕ} (hlen : 0 < len) : Read s (s.read len).1 (s.read len).2 := by
  rw [Stream.read, if_neg hlen.ne']
  by_cases hpos : s.read_buf.length ≤ s.read_pos
  · have hnone : s.available = [] := List.drop_eq_nil_of_le hpos
    rw [if_pos hpos]
    cases hc : s.closed with
    | true => exact .closed hc hnone
    | false =>
      have h := fill_read hlen hc hnone s.inbox
      rw [if_neg Bool.false_ne_true]
      generalize fillReadBuf s s.inbox = out at h ⊢
      obtain ⟨_ | _, s'⟩ := out
      · exact h
      · exact h
  · rw [if_neg hpos]
    obtain ⟨hr, ha, hi, hc⟩ := serve_eq s len
    have hsome : s.available ≠ [] := by
      rw [Stream.available, ne_eq, List.drop_eq_nil_iff]
      exact hpos
    have hsplit : s.rest = s.available.take len ++ (s.serve len).2.rest :=
      rest_of (by rw [ha, List.take_append_drop]) hi
    have htake : s.available.take len ≠ [] := by simp [hsome, hlen.ne']
    have hlens := congrArg List.length hsplit
    have htlen := List.length_pos_iff.mpr htake
    rw [List.length_append] at hlens
    have hleft : s.left = (s.serve len).2.left + (s.available.take len).length := by
      rw [Stream.left, Stream.left, hlens, hi]
      omega
    rw [hr]
    exact .data htake hsplit (by omega) hc (by rw [hi]) (by rw [hi]; exact id) hleft.ge

/-! ### Runs of readings -/

def after (s : Stream) (lens : List ℕ) : Stream := lens.foldl (fun s len => (s.read len).2) s

def bytesOf : Except ErrorKind Bytes → Bytes
  | .ok bs => bs
  | .error _ => []

/-- The bytes that readings of these lengths return. -/
def returned (s : Stream) : List ℕ → Bytes
  | [] => []
  | len :: lens => bytesOf (s.read len).1 ++ returned (s.read len).2 lens

theorem Read.rest_eq {s s' : Stream} {r : Except ErrorKind Bytes} (h : Read s r s') :
    bytesOf r ++ s'.rest = s.rest := by
  cases h with
  | data hs hr => exact hr.symm
  | closed => rfl
  | empty _ hr | waits hr | ends hr | breaks hr => exact hr

theorem returned_rest (s : Stream) (lens : List ℕ) : returned s lens ++ (after s lens).rest = s.rest := by
  induction lens generalizing s with
  | nil => rfl
  | cons len lens ih =>
    rw [returned, List.append_assoc]
    show _ ++ (_ ++ (after (s.read len).2 lens).rest) = _
    rw [ih]
    rcases Nat.eq_zero_or_pos len with rfl | hlen
    · rfl
    · exact (read_spec s hlen).rest_eq

/-- What stays true of a stream of messages, time-outs and perhaps a close. -/
structure Stream.Live (s : Stream) : Prop where
  whole : Whole s.inbox
  closed : s.closed = true → s.left = 0

theorem Read.live {s s' : Stream} {r : Except ErrorKind Bytes} (h : Read s r s') (hs : s.Live) : s'.Live := by
  cases h with
  | data _ _ hl hc _ hw =>
    exact ⟨hw hs.whole, fun h => by have := hs.closed (hc ▸ h); omega⟩
  | closed => exact hs
  | empty _ _ _ _ hc hw => exact ⟨hw hs.whole, fun h => absurd (hc.symm.trans h) Bool.false_ne_true⟩
  | waits _ hl hc _ hw =>
    refine ⟨hw hs.whole, fun h => ?_⟩
    have := hs.closed (hc ▸ h)
    omega
  | ends _ _ hw =>
    have hzero := (hw hs.whole).1
    refine ⟨?_, fun _ => hzero⟩
    have : s'.inbox = [] := List.length_eq_zero_iff.mp (by rw [Stream.left] at hzero; omega)
    rw [this]
    trivial
  | breaks _ hw => exact absurd hs.whole hw

theorem rest_of_left {s : Stream} (h : s.left = 0) : s.rest = [] ∧ s.inbox = [] := by
  rw [Stream.left] at h
  exact ⟨List.length_eq_zero_iff.mp (by omega), List.length_eq_zero_iff.mp (by omega)⟩

theorem comes_to_empty {s : Stream} (hs : s.Live) (hopen : s.closed = false)
    (hmem : Inbound.binary [] ∈ s.inbox) :
    ∃ lens, ((after s lens).read 1).1 = .ok [] ∧ (after s lens).closed = false := by
  induction hk : s.left using Nat.strongRecOn generalizing s with
  | ind k ih =>
    subst hk
    have hread := read_spec s Nat.one_pos
    by_cases hr : (s.read 1).1 = .ok []
    · exact ⟨[], hr, hopen⟩
    · have hlive := hread.live hs
      have hnext (hlt : (s.read 1).2.left < s.left) (hc : (s.read 1).2.closed = false)
          (hm : Inbound.binary [] ∈ (s.read 1).2.inbox) :
          ∃ lens, ((after s lens).read 1).1 = .ok [] ∧ (after s lens).closed = false := by
        obtain ⟨lens, h⟩ := ih _ hlt hlive hc hm rfl
        exact ⟨1 :: lens, h⟩
      generalize hout : s.read 1 = out at *
      obtain ⟨r, s'⟩ := out
      cases hread with
      | data _ _ hl hc he => exact hnext hl (hc.trans hopen) (he.mpr hmem)
      | closed | empty => exact absurd rfl hr
      | waits _ hl hc he =>
        rcases hl with hl | ⟨-, hnil⟩
        · exact hnext hl (hc.trans hopen) (he.mpr hmem)
        · rw [hnil] at hmem
          cases hmem
      | ends _ _ hw => exact absurd hmem (hw hs.whole).2
      | breaks _ hw => exact absurd hs.whole hw

theorem zero_only_after_close {s : Stream} (hmem : Inbound.binary [] ∉ s.inbox) {len : ℕ}
    (hlen : 0 < len) (hzero : (s.read len).1 = .ok []) : s.closed = true := by
  have hread := read_spec s hlen
  generalize (s.read len).2 = s' at hread
  rw [hzero] at hread
  cases hread with
  | data hs => exact absurd rfl hs
  | closed hc => exact hc
  | empty he => exact absurd he hmem

theorem live_read {s : Stream} (hs : s.Live) (hmem : Inbound.binary [] ∉ s.inbox) (len : ℕ) :
    (s.read len).2.Live ∧ Inbound.binary [] ∉ (s.read len).2.inbox := by
  rcases Nat.eq_zero_or_pos len with rfl | hlen
  · exact ⟨hs, hmem⟩
  · have hread := read_spec s hlen
    refine ⟨hread.live hs, ?_⟩
    generalize (s.read len).2 = s', (s.read len).1 = r at hread
    cases hread with
    | data _ _ _ _ he => exact fun h => hmem (he.mp h)
    | closed => exact hmem
    | empty he => exact absurd he hmem
    | waits _ _ _ he => exact fun h => hmem (he.mp h)
    | ends _ _ hw =>
      rw [(rest_of_left (hw hs.whole).1).2]
      exact List.not_mem_nil
    | breaks _ hw => exact absurd hs.whole hw

theorem live_after {s : Stream} (hs : s.Live) (hmem : Inbound.binary [] ∉ s.inbox) (lens : List ℕ) :
    (after s lens).Live ∧ Inbound.binary [] ∉ (after s lens).inbox := by
  induction lens generalizing s with
  | nil => exact ⟨hs, hmem⟩
  | cons len lens ih =>
    obtain ⟨hs', hmem'⟩ := live_read hs hmem len
    exact ih hs' hmem'

theorem live_new {inbox : List Inbound} (h : Whole inbox) : (Stream.new inbox).Live :=
  ⟨h, fun h => absurd h Bool.false_ne_true⟩

theorem zero_iff {inbox : List Inbound} (h : Whole inbox) :
    (∀ lens len, 0 < len → ((after (.new inbox) lens).read len).1 = .ok [] → (after (.new inbox) lens).closed = true) ↔
      Inbound.binary [] ∉ inbox := by
  constructor
  · intro hzero hmem
    obtain ⟨lens, hread, hopen⟩ := comes_to_empty (live_new h) rfl hmem
    exact absurd (hopen.symm.trans (hzero lens 1 Nat.one_pos hread)) Bool.false_ne_true
  · intro hmem lens len hlen hread
    have hmem' := (live_after (live_new h) hmem lens).2
    exact zero_only_after_close hmem' hlen hread

/-- Enough readings return everything. -/
theorem returned_all {s : Stream} (hs : s.Live) {lens : List ℕ} (hpos : ∀ len ∈ lens, 0 < len)
    (henough : s.left ≤ lens.length) : returned s lens = s.rest := by
  induction lens generalizing s with
  | nil => exact (rest_of_left (Nat.le_zero.mp henough)).1.symm
  | cons len lens ih =>
    have hread := read_spec s (hpos len List.mem_cons_self)
    have hless : (s.read len).2.left < s.left ∨ (s.read len).2.left = 0 := by
      generalize (s.read len).2 = s', (s.read len).1 = r at hread
      cases hread with
      | data _ _ hl | empty _ _ hl => exact .inl hl
      | closed hc => exact .inr (hs.closed hc)
      | waits _ hl => exact hl.imp_right And.left
      | ends _ _ hw => exact .inr (hw hs.whole).1
      | breaks _ hw => exact absurd hs.whole hw
    rw [returned, ih (hread.live hs) (fun len h => hpos len (List.mem_cons_of_mem _ h)) ?_]
    · exact hread.rest_eq
    · rw [List.length_cons] at henough
      omega

/-! ### The TPKTs -/

theorem takeBufferedTpkt_shorter {buf pdu rest : Bytes} (h : takeBufferedTpkt buf = .ok (some (pdu, rest))) :
    rest.length < buf.length := by
  unfold takeBufferedTpkt at h
  split at h
  · cases h
  · next hlen =>
    split at h
    · cases h
    · next total _ =>
      split at h
      · cases h
      · split at h
        · cases h
        · cases h
          rw [List.length_drop]
          simp only [tpktHeaderLen] at *
          omega

inductive Polled where
  | pdu (pdu buf : Bytes) (s : Stream)
  | waiting (buf : Bytes) (s : Stream)
  | failed (s : Stream)

theorem read_of {s s' : Stream} {r : Except ErrorKind Bytes} {len : ℕ} (hlen : 0 < len)
    (h : s.read len = (r, s')) : Read s r s' := by
  have hread := read_spec s hlen
  rw [h] at hread
  exact hread

theorem read_left {s s' : Stream} {b : UInt8} {bs : Bytes} {len : ℕ} (hlen : 0 < len)
    (h : s.read len = (.ok (b :: bs), s')) : s'.left < s.left := by
  have hread := read_of hlen h
  generalize hbs : b :: bs = r at hread
  cases hread with
  | data _ _ hl => exact hl
  | closed | empty => cases hbs

/-- `poll_tpkt_pdu` on the tunnel. -/
def pollTpktPdu (s : Stream) (buf : Bytes) : Polled :=
  match takeBufferedTpkt buf with
  | .error _ => .failed s
  | .ok (some (pdu, rest)) => .pdu pdu rest s
  | .ok none =>
    match _h : s.read (64 * 1024) with
    | (.ok [], s') => .failed s' -- "server closed the connection"
    | (.ok (b :: bs), s') => pollTpktPdu s' (buf ++ b :: bs)
    | (.error .WouldBlock, s') => .waiting buf s'
    | (.error _, s') => .failed s'
termination_by s.left
decreasing_by exact read_left (by decide) _h

theorem poll_none {s s' : Stream} {buf : Bytes} {r : Except ErrorKind Bytes}
    (h : takeBufferedTpkt buf = .ok none) (hread : s.read (64 * 1024) = (r, s')) :
    pollTpktPdu s buf =
      match r with
      | .ok [] => .failed s'
      | .ok (b :: bs) => pollTpktPdu s' (buf ++ b :: bs)
      | .error .WouldBlock => .waiting buf s'
      | .error _ => .failed s' := by
  rw [pollTpktPdu, h]
  dsimp only
  split
  · next h => cases hread.symm.trans h; rfl
  · next h => cases hread.symm.trans h; rfl
  · next h => cases hread.symm.trans h; rfl
  · next e s'' hne h =>
    cases hread.symm.trans h
    cases e with
    | WouldBlock => exact (hne rfl).elim
    | UnexpectedEof | BrokenPipe => rfl

/-- What is still to come, for the progress of polls. -/
def measure (s : Stream) (buf : Bytes) : ℕ := 2 * s.left + buf.length

/-- What a poll does, `pdus` being still to come. -/
def PollSpec (pdus : List Bytes) (s : Stream) (buf : Bytes) : Polled → Prop
  | .pdu pdu buf' s' => ∃ rest, pdus = pdu :: rest ∧ buf' ++ s'.rest = rest.flatten ∧ s'.Live ∧
      s'.closed = s.closed ∧ (Inbound.binary [] ∈ s'.inbox ↔ Inbound.binary [] ∈ s.inbox) ∧
      measure s' buf' < measure s buf
  | .waiting buf' s' => buf' ++ s'.rest = pdus.flatten ∧ s'.Live ∧ s'.closed = s.closed ∧
      (Inbound.binary [] ∈ s'.inbox ↔ Inbound.binary [] ∈ s.inbox) ∧
      (measure s' buf' < measure s buf ∨ pdus = [] ∧ s'.inbox = [])
  | .failed s' => s.closed = false → (s'.closed = false ∧ Inbound.binary [] ∈ s.inbox) ∨
      (s'.closed = true ∧ pdus = [] ∧ Inbound.binary [] ∉ s.inbox)

theorem none_left {pdus : List Bytes} (hpdus : ∀ pdu ∈ pdus, Tpkt pdu) {buf : Bytes}
    (htake : takeBufferedTpkt buf = .ok none) (hbytes : buf = pdus.flatten) : pdus = [] := by
  obtain ⟨-, hshort⟩ | ⟨_, _, _, htake', -⟩ :=
    takeBufferedTpkt_spec hpdus (show buf ++ [] = pdus.flatten by rw [List.append_nil, hbytes])
  · cases pdus with
    | nil => rfl
    | cons pdu pdus =>
      have := hshort pdu rfl
      rw [hbytes, List.flatten_cons, List.length_append] at this
      omega
  · cases htake.symm.trans htake'

theorem poll_spec {pdus : List Bytes} (hpdus : ∀ pdu ∈ pdus, Tpkt pdu) {s : Stream} {buf : Bytes}
    (hs : s.Live) (hbytes : buf ++ s.rest = pdus.flatten) :
    PollSpec pdus s buf (pollTpktPdu s buf) := by
  induction s, buf using pollTpktPdu.induct with
  | case1 s buf e htake =>
    obtain ⟨htake', -⟩ | ⟨_, _, _, htake', -⟩ := takeBufferedTpkt_spec hpdus hbytes
    all_goals cases htake.symm.trans htake'
  | case2 s buf pdu rest htake =>
    rw [pollTpktPdu, htake]
    obtain ⟨htake', -⟩ | ⟨pdu', rest', buf', htake', rfl, hrest⟩ := takeBufferedTpkt_spec hpdus hbytes
    · cases htake.symm.trans htake'
    · cases htake.symm.trans htake'
      have := takeBufferedTpkt_shorter htake
      exact ⟨rest', rfl, hrest, hs, rfl, Iff.rfl, by unfold measure; omega⟩
  | case3 s buf htake s' hread =>
    have h := read_of (by decide) hread
    rw [poll_none htake hread]
    intro hopen
    cases h with
    | data hne => exact absurd rfl hne
    | closed hc => exact absurd (hopen.symm.trans hc) Bool.false_ne_true
    | empty hmem _ _ _ hc => exact .inl ⟨hc, hmem⟩
  | case4 s buf htake b bs s' hread ih =>
    have h := read_of (by decide) hread
    rw [poll_none htake hread]
    have hlive := h.live hs
    cases h with
    | data _ hr _ hc he _ hm =>
      have hle : measure s' (buf ++ b :: bs) ≤ measure s buf := by
        simp only [measure, List.length_append]
        omega
      have hspec := ih hlive (by rw [List.append_assoc, ← hr, hbytes])
      dsimp only
      cases hpoll : pollTpktPdu s' (buf ++ b :: bs) with
      | pdu pdu buf' s'' =>
        rw [hpoll] at hspec
        obtain ⟨rest, hp, hb, hl, hc', he', hm'⟩ := hspec
        exact ⟨rest, hp, hb, hl, hc'.trans hc, he'.trans he, by omega⟩
      | waiting buf' s'' =>
        rw [hpoll] at hspec
        obtain ⟨hb, hl, hc', he', hm'⟩ := hspec
        exact ⟨hb, hl, hc'.trans hc, he'.trans he, hm'.imp_left fun h => by omega⟩
      | failed s'' =>
        rw [hpoll] at hspec
        intro hopen
        have := hspec (hc.trans hopen)
        rwa [he] at this
  | case5 s buf htake s' hread =>
    have h := read_of (by decide) hread
    rw [poll_none htake hread]
    have hlive := h.live hs
    cases h with
    | waits hr hl hc he =>
      refine ⟨by rw [hr, hbytes], hlive, hc, he, ?_⟩
      rcases hl with hl | ⟨hl, -⟩
      · exact .inl (by unfold measure; omega)
      · -- Nothing is left: what is buffered would be a whole frame.
        exact .inr ⟨none_left hpdus htake (by rw [← hbytes, ← hr, (rest_of_left hl).1, List.append_nil]),
          (rest_of_left hl).2⟩
  | case6 s buf htake e s' hne hread =>
    have h := read_of (by decide) hread
    rw [poll_none htake hread]
    cases h with
    | waits => exact (hne rfl).elim
    | ends hr hc hw =>
      intro _
      obtain ⟨hleft, hmem⟩ := hw hs.whole
      refine .inr ⟨hc, none_left hpdus htake ?_, hmem⟩
      rw [← hbytes, ← hr, (rest_of_left hleft).1, List.append_nil]
    | breaks _ hw => exact absurd hs.whole hw

def polls : ℕ → Stream → Bytes → List Bytes × Option Stream
  | 0, _, _ => ([], none)
  | n + 1, s, buf =>
    match pollTpktPdu s buf with
    | .pdu pdu buf s => ((pdu :: (polls n s buf).1), (polls n s buf).2)
    | .waiting buf s => polls n s buf
    | .failed s => ([], some s)

def Delivers (s : Stream) (buf : Bytes) (pdus : List Bytes) : Prop :=
  (∀ n, (polls n s buf).1 <+: pdus ∧ ∀ s' ∈ (polls n s buf).2, (polls n s buf).1 = pdus ∧ s'.closed = true) ∧
  ∃ n, (polls n s buf).1 = pdus

theorem delivers_of {pdus : List Bytes} (hpdus : ∀ pdu ∈ pdus, Tpkt pdu) {s : Stream} {buf : Bytes}
    (hs : s.Live) (hopen : s.closed = false) (hmem : Inbound.binary [] ∉ s.inbox)
    (hbytes : buf ++ s.rest = pdus.flatten) : Delivers s buf pdus := by
  constructor
  · intro n
    induction n generalizing s buf pdus with
    | zero => exact ⟨List.nil_prefix, fun _ h => (nomatch h)⟩
    | succ n ih =>
      have hspec := poll_spec hpdus hs hbytes
      rw [polls]
      cases hpoll : pollTpktPdu s buf with
      | pdu pdu buf' s' =>
        rw [hpoll] at hspec
        obtain ⟨rest, rfl, hb, hl, hc, he, -⟩ := hspec
        obtain ⟨hpre, hfail⟩ := ih (fun p hp => hpdus p (List.mem_cons_of_mem _ hp)) hl (hc.trans hopen)
          (fun h => hmem (he.mp h)) hb
        exact ⟨(List.prefix_cons_inj pdu).mpr hpre, fun s'' h => ⟨congrArg _ (hfail s'' h).1, (hfail s'' h).2⟩⟩
      | waiting buf' s' =>
        rw [hpoll] at hspec
        obtain ⟨hb, hl, hc, he, -⟩ := hspec
        exact ih hpdus hl (hc.trans hopen) (fun h => hmem (he.mp h)) hb
      | failed s' =>
        rw [hpoll] at hspec
        obtain ⟨-, hm⟩ | ⟨hc, rfl, -⟩ := hspec hopen
        · exact absurd hm hmem
        · refine ⟨List.nil_prefix, fun s'' h => ?_⟩
          obtain rfl := Option.mem_some_iff.mp h
          exact ⟨rfl, hc⟩
  · induction hk : measure s buf using Nat.strongRecOn generalizing s buf pdus with
    | ind k ih =>
      subst hk
      cases pdus with
      | nil => exact ⟨0, rfl⟩
      | cons pdu pdus =>
        have hspec := poll_spec hpdus hs hbytes
        cases hpoll : pollTpktPdu s buf with
        | pdu pdu' buf' s' =>
          rw [hpoll] at hspec
          obtain ⟨rest, heq, hb, hl, hc, he, hlt⟩ := hspec
          cases heq
          obtain ⟨n, hn⟩ := ih _ hlt (fun p hp => hpdus p (List.mem_cons_of_mem _ hp)) hl (hc.trans hopen)
            (fun h => hmem (he.mp h)) hb rfl
          exact ⟨n + 1, by rw [polls, hpoll]; exact congrArg _ hn⟩
        | waiting buf' s' =>
          rw [hpoll] at hspec
          obtain ⟨hb, hl, hc, he, hlt | ⟨hnil, -⟩⟩ := hspec
          · obtain ⟨n, hn⟩ := ih _ hlt hpdus hl (hc.trans hopen) (fun h => hmem (he.mp h)) hb rfl
            exact ⟨n + 1, by rw [polls, hpoll]; exact hn⟩
          · cases hnil
        | failed s' =>
          rw [hpoll] at hspec
          obtain ⟨-, hm⟩ | ⟨-, hnil, -⟩ := hspec hopen
          · exact absurd hm hmem
          · cases hnil

theorem empty_fails {pdus : List Bytes} (hpdus : ∀ pdu ∈ pdus, Tpkt pdu) {s : Stream} {buf : Bytes}
    (hs : s.Live) (hopen : s.closed = false) (hmem : Inbound.binary [] ∈ s.inbox)
    (hbytes : buf ++ s.rest = pdus.flatten) : ∃ n, ∃ s' ∈ (polls n s buf).2, s'.closed = false := by
  induction hk : measure s buf using Nat.strongRecOn generalizing s buf pdus with
  | ind k ih =>
    subst hk
    have hspec := poll_spec hpdus hs hbytes
    cases hpoll : pollTpktPdu s buf with
    | pdu pdu buf' s' =>
      rw [hpoll] at hspec
      obtain ⟨rest, rfl, hb, hl, hc, he, hlt⟩ := hspec
      obtain ⟨n, s'', hs'', hc''⟩ := ih _ hlt (fun p hp => hpdus p (List.mem_cons_of_mem _ hp)) hl
        (hc.trans hopen) (he.mpr hmem) hb rfl
      exact ⟨n + 1, s'', by rw [polls, hpoll]; exact hs'', hc''⟩
    | waiting buf' s' =>
      rw [hpoll] at hspec
      obtain ⟨hb, hl, hc, he, hlt | ⟨-, hnil⟩⟩ := hspec
      · obtain ⟨n, s'', hs'', hc''⟩ := ih _ hlt hpdus hl (hc.trans hopen) (he.mpr hmem) hb rfl
        exact ⟨n + 1, s'', by rw [polls, hpoll]; exact hs'', hc''⟩
      · rw [← he, hnil] at hmem
        cases hmem
    | failed s' =>
      rw [hpoll] at hspec
      obtain ⟨hc, -⟩ | ⟨-, -, hm⟩ := hspec hopen
      · exact ⟨1, s', by rw [polls, hpoll]; rfl, hc⟩
      · exact absurd hmem hm

theorem carries_iff {inbox : List Inbound} (h : Whole inbox) {pdus : List Bytes}
    (hpdus : ∀ pdu ∈ pdus, Tpkt pdu) (hbytes : payloads inbox = pdus.flatten) :
    Delivers (.new inbox) [] pdus ↔ Inbound.binary [] ∉ inbox := by
  have hrest : ([] : Bytes) ++ (Stream.new inbox).rest = pdus.flatten := hbytes
  constructor
  · intro hdel hmem
    obtain ⟨n, s', hs', hc⟩ := empty_fails hpdus (live_new h) rfl hmem hrest
    exact absurd (hc.symm.trans ((hdel.1 n).2 s' hs').2) Bool.false_ne_true
  · exact fun hmem => delivers_of hpdus (live_new h) rfl hmem hrest

inductive Op where
  | write (buf : Bytes)
  | flush

def Stream.op (s : Stream) : Op → Stream
  | .write buf => s.write buf
  | .flush => s.flush

def Op.written : Op → Bytes
  | .write buf => buf
  | .flush => []

theorem ops_sent (ops : List Op) (s : Stream) (hs : ∀ m ∈ s.outbox, m ≠ []) :
    let s' := ops.foldl Stream.op s
    s'.outbox.flatten ++ s'.write_buf = s.outbox.flatten ++ s.write_buf ++ ops.flatMap Op.written ∧
      ∀ m ∈ s'.outbox, m ≠ [] := by
  induction ops generalizing s with
  | nil => simpa using hs
  | cons op ops ih =>
    have hstep : (s.op op).outbox.flatten ++ (s.op op).write_buf =
        s.outbox.flatten ++ s.write_buf ++ op.written ∧ ∀ m ∈ (s.op op).outbox, m ≠ [] := by
      cases op with
      | write buf => exact ⟨(List.append_assoc ..).symm, hs⟩
      | flush =>
        rw [Stream.op, Stream.flush]
        split
        · exact ⟨(List.append_nil _).symm, hs⟩
        · next hne =>
          refine ⟨by simp [Op.written], fun m hm => ?_⟩
          rcases List.mem_append.mp hm with hm | hm
          · exact hs m hm
          · rwa [List.mem_singleton.mp hm]
    obtain ⟨hsent, hne⟩ := ih (s.op op) hstep.2
    refine ⟨?_, hne⟩
    rw [List.foldl_cons, hsent, hstep.1, List.flatMap_cons, List.append_assoc]

def upToFlush (ops : List Op) (bufs : List Bytes) : List Op := ops ++ Op.flush :: bufs.map Op.write

theorem flushed (ops : List Op) (bufs : List Bytes) (s : Stream) (hs : s.write_buf = []) (ho : s.outbox = []) :
    let s' := (upToFlush ops bufs).foldl Stream.op s
    s'.outbox.flatten = ops.flatMap Op.written ∧ ∀ m ∈ s'.outbox, m ≠ [] := by
  have hwrites (s : Stream) : ((bufs.map Op.write).foldl Stream.op s).outbox = s.outbox := by
    induction bufs generalizing s with
    | nil => rfl
    | cons buf bufs ih => exact ih (s.write buf)
  obtain ⟨hsent, hne⟩ := ops_sent (ops ++ [Op.flush]) s (by simp [ho])
  have hempty : ((ops ++ [Op.flush]).foldl Stream.op s).write_buf = [] := by
    rw [List.foldl_concat]
    show (Stream.flush _).write_buf = []
    rw [Stream.flush]
    split
    · assumption
    · rfl
  rw [ho, hs, hempty, List.append_nil] at hsent
  have hsplit : upToFlush ops bufs = (ops ++ [Op.flush]) ++ bufs.map Op.write := by
    rw [upToFlush, List.append_assoc]
    rfl
  rw [hsplit, List.foldl_append]
  simp only [hwrites]
  exact ⟨by simpa [Op.written] using hsent, hne⟩

/-- The tunnel is a byte stream both ways, but for an empty message: a reader takes it for the end, and the
TPKTs come through exactly when there is none. -/
theorem tunnel_stream {inbox : List Inbound} (h : Whole inbox) :
    (∀ lens, returned (.new inbox) lens ++ (after (.new inbox) lens).rest = payloads inbox) ∧
    (∀ lens, (∀ len ∈ lens, 0 < len) → (Stream.new inbox).left ≤ lens.length →
      returned (.new inbox) lens = payloads inbox) ∧
    ((∀ lens len, 0 < len → ((after (.new inbox) lens).read len).1 = .ok [] →
        (after (.new inbox) lens).closed = true) ↔ Inbound.binary [] ∉ inbox) ∧
    (∀ ops bufs, let s := (upToFlush ops bufs).foldl Stream.op (.new inbox)
      s.outbox.flatten = ops.flatMap Op.written ∧ ∀ m ∈ s.outbox, m ≠ []) ∧
    ∀ pdus : List Bytes, (∀ pdu ∈ pdus, Tpkt pdu) → payloads inbox = pdus.flatten →
      (Delivers (.new inbox) [] pdus ↔ Inbound.binary [] ∉ inbox) :=
  ⟨returned_rest _, fun _ hpos henough => returned_all (live_new h) hpos henough, zero_iff h,
    fun ops bufs => flushed ops bufs _ rfl rfl, fun _ => carries_iff h⟩

/-- A frame in two messages with a time-out between them, and a close. -/
theorem tunnel_stream_split :
    Delivers (.new [.binary [3, 0], .timeout, .text, .binary [0, 5, 7], .close]) [] [[3, 0, 0, 5, 7]] ↔
      Inbound.binary [] ∉ [.binary [3, 0], .timeout, .text, .binary [0, 5, 7], .close] :=
  (tunnel_stream (by decide)).2.2.2.2 [[3, 0, 0, 5, 7]] (by decide) (by decide)

/-- An empty message is told as the end of the stream. -/
theorem empty_message_ends : ¬ ∀ inbox, Whole inbox → ∀ lens len, 0 < len →
      ((after (.new inbox) lens).read len).1 = .ok [] → (after (.new inbox) lens).closed = true := by
  intro h
  exact absurd (h [.binary [], .binary [1]] (by decide) [] 1 (by decide) rfl) (by decide)

end Rdpio.Client.WebSocket
