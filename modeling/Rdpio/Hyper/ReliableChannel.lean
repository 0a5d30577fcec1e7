import Rdpio.Lib.Run
import Rdpio.Hyper.ReliableReceiver

/-!
# The reliable channel end to end

A sender and a receiver over a network that drops, duplicates, delays and reorders whatever it is given: every
body that a party ever put out stays on the wire, and a step hands over any of them.
-/

namespace Rdpio.Hyper.Reliable

open Lib

structure World where
  sender : Sender
  receiver : Receiver
  /-- Every data body that the sender put out. -/
  data : List (List UInt8)
  /-- Every ack body that the receiver put out. -/
  acks : List (List UInt8)
  sent : List (List UInt8)
  /-- The messages returned by `on_data`. -/
  returned : List (List UInt8)

inductive Action where
  | send (msg : List UInt8)
  | poll (now : Instant)
  | onData (i : ℕ) (now : Instant)
  | ack (now : Instant)
  | onAck (i : ℕ) (now : Instant)
  | setRate (bps : Option ℕ)
  | setQueueLimit (limit : Duration)
  | setJitterTolerant (on : Bool)

def World.new : World := ⟨Sender.new, Receiver.new, [], [], [], []⟩

def World.onData (w : World) (now : Instant) (body : List UInt8) : World :=
  let d := w.receiver.onData body now
  { w with receiver := d.1, returned := w.returned ++ d.2 }

def World.onAck (w : World) (now : Instant) (body : List UInt8) : World := { w with sender := w.sender.onAck body now }

def World.step (w : World) : Action → World
  | .send msg => { w with sender := w.sender.send msg, sent := w.sent ++ [msg] }
  | .poll now =>
    let p := w.sender.poll now
    { w with sender := p.1, data := w.data ++ p.2 }
  | .onData i now => w.data[i]?.elim w (w.onData now)
  | .ack now =>
    let a := w.receiver.ack now
    { w with receiver := a.1, acks := w.acks ++ a.2.toList }
  | .onAck i now => w.acks[i]?.elim w (w.onAck now)
  | .setRate bps => { w with sender := w.sender.setRate bps }
  | .setQueueLimit limit => { w with sender := w.sender.setQueueLimit limit }
  | .setJitterTolerant on => { w with sender := w.sender.setJitterTolerant on }

def World.stream (w : World) : List (Bool × List UInt8) := streamOf w.sent

def World.after (as : List Action) : World := run World.step World.new as

/-! ## The invariant -/

/-- A data body on the wire is a chunk of the stream, no further ahead than the receiver tracks. -/
def World.DataOk (w : World) (b : List UInt8) : Prop :=
  ∃ n x, 1 ≤ n ∧ n ≤ w.receiver.cum.toNat + wideSpan ∧ w.stream[n - 1]? = some x ∧ b = dataBody (UInt32.ofNat n) x.1 x.2

/-- An ack on the wire acknowledges only chunks that the receiver has. -/
def World.AckOk (w : World) (b : List UInt8) : Prop :=
  ∃ cum bits, parseAck b = some (cum, bits) ∧ cum.toNat ≤ w.receiver.cum.toNat ∧
    ∀ i, ackBit bits i = true → w.receiver.Accepted (cum + 1 + UInt32.ofNat i)

/-- The sender holds what the receiver lacks, and the wire carries only what either can use. -/
structure World.Inv (w : World) : Prop where
  sender : ∃ front, w.sender.Inv w.stream front w.receiver.Accepted
  receiver : w.receiver.Inv w.stream w.returned
  data : ∀ b ∈ w.data, w.DataOk b
  acks : ∀ b ∈ w.acks, w.AckOk b

theorem World.inv_new : World.new.Inv where
  sender := ⟨1, Sender.inv_new _⟩
  receiver := Receiver.inv_new
  data _ hb := absurd hb List.not_mem_nil
  acks _ hb := absurd hb List.not_mem_nil

theorem Receiver.accepted_ofNat {r : Receiver} {n : ℕ} (hn : n < 2^32) (h : n ≤ r.cum.toNat) :
    r.Accepted (UInt32.ofNat n) :=
  .inl (by rwa [toNat_ofNat_of_lt hn])

theorem World.front_le {w : World} {front : ℕ} (hs : w.sender.Inv w.stream front w.receiver.Accepted)
    (hr : w.receiver.Inv w.stream w.returned) (hlen : w.stream.length < 2^31) :
    front ≤ w.receiver.cum.toNat + 1 := by
  by_contra hlt
  have hcum := hr.cum_le
  have hseq : UInt32.ofNat (w.receiver.cum.toNat + 1) = w.receiver.cum + 1 := by
    rw [UInt32.ofNat_add, UInt32.ofNat_toNat]
    rfl
  rcases hs.2.removed (w.receiver.cum.toNat + 1) (by omega) (by omega) with h | h
  · rw [toNat_ofNat_of_lt (by omega)] at h
    omega
  · rw [hseq, Std.TreeMap.mem_iff_isSome_getElem?, hr.hole] at h
    exact absurd h (by decide)

theorem Sender.span_le_wideSpan (s : Sender) : s.span ≤ wideSpan := by
  unfold Sender.span
  split_ifs <;> decide

theorem World.Inv.congrSender {w : World} (h : w.Inv) {s : Sender} (hcore : s.core = w.sender.core) :
    World.Inv { w with sender := s } := by
  obtain ⟨front, hs⟩ := h.sender
  exact ⟨⟨front, hs.congr hcore⟩, h.receiver, h.data, h.acks⟩

theorem World.Inv.send {w : World} (h : w.Inv) (msg : List UInt8) : (w.step (.send msg)).Inv := by
  have hstream : (w.step (.send msg)).stream = w.stream ++ flagged msg := by
    simp [World.step, World.stream, streamOf]
  obtain ⟨front, hs⟩ := h.sender
  refine ⟨⟨front, ?_⟩, ?_, ?_, h.acks⟩
  · rw [hstream]
    exact hs.send msg
  · rw [hstream]
    exact h.receiver.extend _
  · intro b hb
    obtain ⟨n, x, hn, hle, hx, hbody⟩ := h.data b hb
    refine ⟨n, x, hn, hle, ?_, hbody⟩
    rw [hstream, List.getElem?_append_left (List.getElem?_eq_some_iff.mp hx).1]
    exact hx

theorem World.Inv.poll {w : World} (h : w.Inv) (hlen : w.stream.length < 2^31) (now : Instant) :
    (w.step (.poll now)).Inv := by
  obtain ⟨front, hs⟩ := h.sender
  obtain ⟨hpoll, hout⟩ := hs.poll hlen now
  refine ⟨⟨front, hpoll⟩, h.receiver, ?_, h.acks⟩
  intro b hb
  rcases List.mem_append.mp hb with hb | hb
  · exact h.data b hb
  · obtain ⟨n, x, hge, hlt, hx, hbody⟩ := hout b hb
    have hfront := World.front_le hs h.receiver hlen
    have hspan := w.sender.span_le_wideSpan
    have := hs.2.front_pos
    exact ⟨n, x, by omega, by change n ≤ w.receiver.cum.toNat + wideSpan; omega, hx, hbody⟩

theorem World.Inv.onData {w : World} (h : w.Inv) (hlen : w.stream.length < 2^31) (i : ℕ)
    (now : Instant) : (w.step (.onData i now)).Inv := by
  cases hi : w.data[i]? with
  | none => simpa [World.step, hi] using h
  | some b =>
    rw [show w.step (.onData i now) = w.onData now b by simp [World.step, hi]]
    obtain ⟨n, x, hn, hle, hx, rfl⟩ := h.data b (List.mem_of_getElem? hi)
    obtain ⟨hinv, hcum, hacc, -⟩ := h.receiver.onData hlen now hx hle
    obtain ⟨front, hs⟩ := h.sender
    refine ⟨⟨front, hs.1, hs.2.mono hacc⟩, hinv, ?_, ?_⟩
    · intro b hb
      obtain ⟨m, y, hm, hmle, hy, hbody⟩ := h.data b hb
      exact ⟨m, y, hm, hmle.trans (Nat.add_le_add_right hcum _), hy, hbody⟩
    · intro b hb
      obtain ⟨cum, bits, hparse, hc, hbits⟩ := h.acks b hb
      exact ⟨cum, bits, hparse, hc.trans hcum, fun i hi => hacc _ (hbits i hi)⟩

theorem World.Inv.ack {w : World} (h : w.Inv) (now : Instant) : (w.step (.ack now)).Inv := by
  obtain ⟨⟨hcum, hpending, hasm⟩, hack⟩ := w.receiver.ack_spec now
  have hacc : ∀ s, (w.receiver.ack now).1.Accepted s ↔ w.receiver.Accepted s := by
    intro s
    unfold Receiver.Accepted
    rw [hcum, hpending]
  obtain ⟨front, hs⟩ := h.sender
  refine ⟨⟨front, hs.1, hs.2.mono fun s => (hacc s).mpr⟩, ?_, ?_, ?_⟩
  · refine ⟨⟨?_, ?_, ?_⟩, ?_⟩
    · exact hcum ▸ h.receiver.cum_le
    · intro s x hsx
      change (w.receiver.ack now).1.cum.toNat < s.toNat ∧ _
      change (w.receiver.ack now).1.pending[s]? = some x at hsx
      rw [hpending] at hsx
      rw [hcum]
      exact h.receiver.pending s x hsx
    · change (w.receiver.ack now).1.assembly w.returned = assemble (w.stream.take (w.receiver.ack now).1.cum.toNat)
      rw [hasm, hcum, h.receiver.assembly]
    · change (w.receiver.ack now).1.pending[(w.receiver.ack now).1.cum + 1]? = none
      rw [hpending, hcum, h.receiver.hole]
  · intro b hb
    obtain ⟨n, x, hn, hle, hx, hbody⟩ := h.data b hb
    exact ⟨n, x, hn, hcum.symm ▸ hle, hx, hbody⟩
  · intro b hb
    rcases List.mem_append.mp hb with hb | hb
    · obtain ⟨cum, bits, hparse, hc, hbits⟩ := h.acks b hb
      exact ⟨cum, bits, hparse, hcum.symm ▸ hc, fun i hi => (hacc _).mpr (hbits i hi)⟩
    · obtain ⟨bits, hparse, hbits⟩ := hack b (Option.mem_toList.mp hb)
      exact ⟨w.receiver.cum, bits, hparse, hcum.symm ▸ Nat.le_refl _, fun i hi => (hacc _).mpr (.inr (hbits i hi))⟩

theorem World.Inv.onAck {w : World} (h : w.Inv) (hlen : w.stream.length < 2^31) (i : ℕ)
    (now : Instant) : (w.step (.onAck i now)).Inv := by
  cases hi : w.acks[i]? with
  | none => simpa [World.step, hi] using h
  | some b =>
    rw [show w.step (.onAck i now) = w.onAck now b by simp [World.step, hi]]
    obtain ⟨cum, bits, hparse, hc, hbits⟩ := h.acks b (List.mem_of_getElem? hi)
    have hcum := h.receiver.cum_le
    obtain ⟨front, hs⟩ := h.sender
    obtain ⟨front', hs'⟩ := hs.onAck hlen b now (by
      intro cum' bits' hparse'
      rw [hparse, Option.some.injEq, Prod.mk.injEq] at hparse'
      obtain ⟨rfl, rfl⟩ := hparse'
      exact ⟨by omega, fun n _ hn => Receiver.accepted_ofNat (by omega) (by omega), fun i _ hi => hbits i hi⟩)
    exact ⟨⟨front', hs'⟩, h.receiver, h.data, h.acks⟩

theorem World.Inv.step {w : World} (h : w.Inv) (hlen : w.stream.length < 2^31) (a : Action) : (w.step a).Inv := by
  cases a with
  | send msg => exact h.send msg
  | poll now => exact h.poll hlen now
  | onData i now => exact h.onData hlen i now
  | ack now => exact h.ack now
  | onAck i now => exact h.onAck hlen i now
  | setRate bps => exact h.congrSender rfl
  | setQueueLimit limit => exact h.congrSender rfl
  | setJitterTolerant on => exact h.congrSender rfl

theorem World.length_stream_le (w : World) (a : Action) : w.stream.length ≤ (w.step a).stream.length := by
  cases a with
  | send msg => simp [World.step, World.stream, streamOf]
  | onData i now => cases hi : w.data[i]? <;> simp [World.step, World.stream, World.onData, hi]
  | onAck i now => cases hi : w.acks[i]? <;> simp [World.step, World.stream, World.onAck, hi]
  | _ => exact Nat.le_refl _

theorem World.inv_after (as : List Action) (hlen : (World.after as).stream.length < 2^31) : (World.after as).Inv :=
  invariant_run_of_bound World.Inv (fun w => w.stream.length < 2^31) World.inv_new
    (fun w a => (w.length_stream_le a).trans_lt)
    (fun w a h hlt => h.step ((w.length_stream_le a).trans_lt hlt) a) as hlen

/-! ## What follows -/

def World.deliverable (w : World) : List (List UInt8) := w.sent.filter fun m => m.length ≤ maxMessage

theorem World.Inv.returned_eq {w : World} (h : w.Inv) :
    w.returned = (assemble (w.stream.take w.receiver.cum.toNat)).out := by
  rw [← h.receiver.assembly]
  rfl

/-- In every run of fewer than `2^31` chunks, over any network, `on_data` returned the messages sent
that are not too large, from the first on, each whole and once, in order. -/
theorem returned_isPrefix (as : List Action) (hlen : (World.after as).stream.length < 2^31) :
    (World.after as).returned <+: (World.after as).deliverable := by
  have h := World.inv_after as hlen
  generalize World.after as = w at h hlen ⊢
  have hall : w.deliverable = (assemble w.stream).out := by
    rw [World.stream, assemble_streamOf]
    rfl
  rw [hall, h.returned_eq]
  -- The chunks not delivered yet only add messages.
  conv_rhs => rw [← List.take_append_drop w.receiver.cum.toNat w.stream]
  unfold assemble
  rw [List.foldl_append]
  exact Assembly.out_prefix_foldl _ _

def crossing : List Action :=
  [.send [], .send [7, 8], .poll 0, .onData 1 1, .ack 1, .onData 0 2, .onData 1 3, .ack 3, .onAck 1 4, .onAck 0 5]

theorem returned_isPrefix_crossing : (World.after crossing).returned = [[], [7, 8]] ∧
      (World.after crossing).returned <+: (World.after crossing).deliverable :=
  ⟨by decide +kernel, returned_isPrefix crossing (by decide +kernel)⟩

/-- Chunk `n` of the stream is one that the sender is done with: it left the queue, or is marked
acknowledged there. -/
def World.Done (w : World) (n : ℕ) : Prop := ∀ c ∈ w.sender.queue, c.seq = UInt32.ofNat n → c.acked = true

/-- The receiver has chunk `n`: it delivered it, or holds it with the bytes that were sent. -/
def World.Has (w : World) (n : ℕ) : Prop :=
  n ≤ w.receiver.cum.toNat ∨ ∃ x, w.stream[n - 1]? = some x ∧ w.receiver.pending[UInt32.ofNat n]? = some x

theorem World.Inv.has_of_accepted {w : World} (h : w.Inv) {n : ℕ} (hn : n < 2^32)
    (hacc : w.receiver.Accepted (UInt32.ofNat n)) : w.Has n := by
  unfold Receiver.Accepted at hacc
  rw [toNat_ofNat_of_lt hn] at hacc
  rcases hacc with hacc | hacc
  · exact .inl hacc
  · obtain ⟨x, hx⟩ := Option.isSome_iff_exists.mp (Std.TreeMap.mem_iff_isSome_getElem?.mp hacc)
    have hsx := (h.receiver.pending _ x hx).2
    rw [toNat_ofNat_of_lt hn] at hsx
    exact .inr ⟨x, hsx, hx⟩

theorem World.Inv.has_of_done {w : World} (h : w.Inv) (hlen : w.stream.length < 2^31) {n : ℕ}
    (hpos : 1 ≤ n) (hn : n ≤ w.stream.length) (hdone : w.Done n) : w.Has n := by
  obtain ⟨front, hs⟩ := h.sender
  refine h.has_of_accepted (by omega) ?_
  by_cases hlt : n < front
  · exact hs.2.removed n hpos hlt
  · -- Still in the queue: then it is marked.
    have hq := hs.2.length_eq
    obtain ⟨c, hget⟩ : ∃ c, w.sender.queue[n - front]? = some c := ⟨_, List.getElem?_eq_getElem (by omega)⟩
    have hseq := (hs.2.getElem? hget).1
    rw [show front + (n - front) = n by omega] at hseq
    have hmem := List.mem_of_getElem? hget
    rw [← hseq]
    exact hs.2.acked _ hmem (hdone _ hmem hseq)

theorem World.Inv.returned_of_backlog_eq_zero {w : World} (h : w.Inv)
    (hlen : w.stream.length < 2^31) (hzero : w.sender.backlog = 0) : w.returned = w.deliverable := by
  have ⟨front, hs⟩ := h.sender
  have hempty : w.sender.queue = [] := by
    by_contra hne
    obtain ⟨c, cs, hcs⟩ := List.exists_cons_of_ne_nil hne
    have hget : w.sender.queue[0]? = some c := by rw [hcs]; rfl
    obtain ⟨-, x, -, hbody⟩ := hs.2.getElem? hget
    have hsum := hs.2.backlog
    rw [show w.sender.backlog_bytes = 0 from hzero, hcs, List.map_cons, List.sum_cons, hbody, length_dataBody] at hsum
    omega
  have hcum : w.receiver.cum.toNat = w.stream.length := by
    have hle := h.receiver.cum_le
    by_contra hne
    -- The chunk at the hole would have been given up.
    have hfront := World.front_le hs h.receiver hlen
    have hq := hs.2.length_eq
    rw [hempty, List.length_nil] at hq
    omega
  rw [h.returned_eq, hcum, List.take_length, World.stream, assemble_streamOf]
  rfl

theorem World.Inv.ahead_le {w : World} (h : w.Inv) (hlen : w.stream.length < 2^31) {b : List UInt8}
    (hb : w.DataOk b) :
    let seq := UInt32.ofNat (ofLe ((b.drop 1).take 4))
    asI32 (seq - w.receiver.cum) ≤ 0 ∨ (seq - w.receiver.cum).toNat ≤ wideSpan := by
  obtain ⟨n, x, hpos, hle, hx, rfl⟩ := hb
  intro seq
  have hseq : seq = UInt32.ofNat n := seq_dataBody _ _ _
  have hn := (List.getElem?_eq_some_iff.mp hx).1
  have hcum := h.receiver.cum_le
  have hto : (UInt32.ofNat n).toNat = n := toNat_ofNat_of_lt (by omega)
  rw [hseq]
  by_cases hold : n ≤ w.receiver.cum.toNat
  · refine .inl ?_
    rw [asI32_sub (by omega) (by omega), hto]
    omega
  · refine .inr ?_
    rw [toNat_sub_of_le (by omega), hto]
    omega

theorem QueueInv.lt_of_inFlight {stream : List (Bool × List UInt8)} {front w : ℕ}
    {Acc : UInt32 → Prop} {q : List Chunk} {backlog : ℕ}
    (h : QueueInv stream front w Acc q backlog) {i : ℕ} {c : Chunk} (hi : q[i]? = some c)
    (hfl : c.inFlight = true) : i < w := by
  by_contra hge
  have hmem : c ∈ q.drop w := by
    refine List.mem_iff_getElem?.mpr ⟨i - w, ?_⟩
    rw [List.getElem?_drop, show w + (i - w) = i by omega, hi]
  have hun := h.unsent c hmem
  simp [Chunk.inFlight, hun] at hfl

theorem World.Inv.inFlight_spec {w : World} (h : w.Inv) (hlen : w.stream.length < 2^31) {c : Chunk}
    (hc : c ∈ w.sender.queue) (hfl : c.inFlight = true) :
    (∃ f, w.sender.queue.head? = some f ∧ (c.seq - f.seq).toNat < w.sender.span) ∧ w.DataOk c.body := by
  obtain ⟨front, hs⟩ := h.sender
  obtain ⟨i, hi⟩ := List.mem_iff_getElem?.mp hc
  have hlt := hs.2.lt_of_inFlight hi hfl
  have hseq := hs.2.toNat_seq hlen hi
  have hfront := World.front_le hs h.receiver hlen
  have hpos := hs.2.front_pos
  constructor
  · obtain ⟨f, cs, hcs⟩ := List.exists_cons_of_ne_nil (List.ne_nil_of_mem hc)
    have hf := hs.2.toNat_seq hlen (i := 0) (by rw [hcs]; rfl)
    refine ⟨f, by rw [hcs]; rfl, ?_⟩
    rw [toNat_sub_of_le (by omega), hseq, hf]
    omega
  · obtain ⟨hnum, x, hx, hbody⟩ := hs.2.getElem? hi
    have hspan := w.sender.span_le_wideSpan
    exact ⟨front + i, x, by omega, by omega, hx, by rw [hbody, hnum]⟩

theorem World.Inv.queue_contiguous {w : World} (h : w.Inv) {i : ℕ} {c d : Chunk}
    (hc : w.sender.queue[i]? = some c) (hd : w.sender.queue[i + 1]? = some d) :
    d.seq = c.seq + 1 := by
  obtain ⟨front, hs⟩ := h.sender
  rw [(hs.2.getElem? hc).1, (hs.2.getElem? hd).1, ← Nat.add_assoc, UInt32.ofNat_add _ 1]
  rfl

/-- In every state of every run of fewer than `2^31` chunks: what the sender is done with, the
receiver has, byte for byte; with no backlog all was delivered; the backlog is what the queue holds;
the queue is contiguous; and what is in flight lies within the span, so that neither it nor anything
else on the wire is further ahead than the receiver tracks. -/
theorem nothing_acknowledged_away (as : List Action)
    (hlen : (World.after as).stream.length < 2^31) :
    let w := World.after as
    (∀ n, 1 ≤ n → n ≤ w.stream.length → w.Done n → w.Has n) ∧
    (w.sender.backlog = 0 → w.returned = w.deliverable) ∧
    w.sender.backlog = (w.sender.queue.map fun c => c.body.length).sum ∧
    (∀ (i : ℕ) (c d : Chunk), w.sender.queue[i]? = some c → w.sender.queue[i + 1]? = some d → d.seq = c.seq + 1) ∧
    (∀ c ∈ w.sender.queue, c.inFlight = true →
      (∃ f, w.sender.queue.head? = some f ∧ (c.seq - f.seq).toNat < w.sender.span) ∧
      (asI32 (c.seq - w.receiver.cum) ≤ 0 ∨ (c.seq - w.receiver.cum).toNat ≤ wideSpan)) ∧
    ∀ b ∈ w.data, let seq := UInt32.ofNat (ofLe ((b.drop 1).take 4))
      asI32 (seq - w.receiver.cum) ≤ 0 ∨ (seq - w.receiver.cum).toNat ≤ wideSpan := by
  intro w
  have h : w.Inv := World.inv_after as hlen
  obtain ⟨front, hs⟩ := h.sender
  refine ⟨fun n => h.has_of_done hlen, h.returned_of_backlog_eq_zero hlen, hs.2.backlog,
    fun i c d => h.queue_contiguous, ?_, fun b hb => h.ahead_le hlen (h.data b hb)⟩
  intro c hc hfl
  obtain ⟨hspan, hok⟩ := h.inFlight_spec hlen hc hfl
  have hahead := h.ahead_le hlen hok
  obtain ⟨i, hi⟩ := List.mem_iff_getElem?.mp hc
  obtain ⟨-, x, -, hbody⟩ := hs.2.getElem? hi
  rw [hbody, seq_dataBody] at hahead
  exact ⟨hspan, hahead⟩

theorem nothing_acknowledged_away_crossing :
    (World.after crossing).sender.backlog = 0 ∧ (World.after crossing).returned = (World.after crossing).deliverable :=
  ⟨by decide +kernel, (nothing_acknowledged_away crossing (by decide +kernel)).2.1 (by decide +kernel)⟩

end Rdpio.Hyper.Reliable
