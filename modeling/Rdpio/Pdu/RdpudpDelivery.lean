import Rdpio.Lib.Run
import Rdpio.Lib.Serial
import Rdpio.Pdu.Rdpudp

/-!
# What an RDP-UDP connection delivers

A connection that has taken the SYN+ACK delivers the payloads in the order of their numbers, whatever the
network does to the datagrams in between.
-/

namespace Rdpio.Pdu.Rdpudp

open Lib

inductive Op
  | receive (datagram : Bytes)
  | send (payload : Bytes)
deriving DecidableEq

/-- A connection with what it has done so far. -/
structure Link where
  conn : Connection
  actions : List Action
  /-- Every datagram built, with its number, in the order of sending. -/
  sent : List (UInt32 × Bytes)
  /-- How many of them the highest acknowledgement covers. -/
  acked : ℕ

namespace Link

/-- A connection before its first datagram. -/
def start (initial_sequence : UInt32) (window : UInt16) (lossy : Bool) : Link :=
  ⟨(Connection.connect initial_sequence window lossy).1, [], [], 0⟩

def covered (l : Link) (sn_source_ack : UInt32) : ℕ := l.sent.length - (l.conn.send_seq - sn_source_ack).toNat

def step (l : Link) : Op → Link
  | .receive datagram =>
    { l with
      conn := (l.conn.onReceive datagram).1
      actions := l.actions ++ (l.conn.onReceive datagram).2
      acked := match FecHeader.parse datagram with
        | some header => max l.acked (l.covered header.sn_source_ack)
        | none => l.acked }
  | .send payload =>
    { l with
      conn := (l.conn.buildData payload).1
      sent := l.sent ++ [((l.conn.buildData payload).1.send_seq, (l.conn.buildData payload).2)] }

end Link

theorem parse_of_classify {datagram : Bytes} {header : FecHeader} {kind : DatagramKind} {syn : Option SynData}
    (h : classify datagram = some (header, kind, syn)) : FecHeader.parse datagram = some header := by
  simp only [classify, Option.bind_eq_bind, Option.bind_eq_some_iff, Option.some.injEq, Prod.mk.injEq] at h
  obtain ⟨header', hparse, rfl, -⟩ := h
  exact hparse

theorem parse_of_classify_none {datagram : Bytes} (h : classify datagram = none) : FecHeader.parse datagram = none := by
  cases hparse : FecHeader.parse datagram with
  | none => rfl
  | some header => simp [classify, hparse] at h

def Drawn (payload : UInt32 → Bytes) (datagram : Bytes) : Prop :=
  ∀ header, FecHeader.parse datagram = some header → header.has flags.FEC = false →
    ∀ seq ∈ sourceSeq datagram header.flags, ∀ p ∈ sourcePayload datagram header.flags, p = payload seq

def paddedVector (elements : Bytes) : Bytes :=
  let vector := u16ToBe (UInt16.ofNat elements.length) ++ elements
  vector ++ List.replicate ((8 + vector.length + 3) / 4 * 4 - (8 + vector.length)) 0

def sourceDatagram (header : FecHeader) (elements : Bytes) (coded seq : UInt32) (payload : Bytes) : Bytes :=
  (header.write ++ if header.flags &&& flags.ACK ≠ 0 then paddedVector elements else []) ++
    (u32ToBe coded ++ (u32ToBe seq ++ payload))

theorem sourceHeaderAt_sourceDatagram {header : FecHeader} {elements : Bytes} (helements : elements.length < 2^16)
    (coded seq : UInt32) (payload : Bytes) :
    sourceHeaderAt (sourceDatagram header elements coded seq payload) header.flags =
      some (header.write ++ if header.flags &&& flags.ACK ≠ 0 then paddedVector elements else []).length := by
  unfold sourceHeaderAt sourceDatagram
  split_ifs with hack
  · have hsize : be16 (UInt8.ofNat ((UInt16.ofNat elements.length).toNat / 2^8))
        (UInt8.ofNat (UInt16.ofNat elements.length).toNat) = elements.length := by
      simp only [be16, UInt16.toNat_ofNat', UInt8.toNat_ofNat']
      omega
    simp only [FecHeader.write, u32ToBe, u16ToBe, paddedVector, List.cons_append, List.nil_append,
      List.getElem?_cons_succ, List.getElem?_cons_zero, Option.bind_eq_bind, Option.bind_some, hsize, List.length_cons,
      List.length_append, List.length_replicate, Option.some.injEq]
    omega
  · rw [List.append_nil, FecHeader.length_write]

theorem sourceSeq_sourceDatagram {header : FecHeader} {elements : Bytes} (hdata : header.flags &&& flags.DATA ≠ 0)
    (helements : elements.length < 2^16) (coded seq : UInt32) (payload : Bytes) :
    sourceSeq (sourceDatagram header elements coded seq payload) header.flags = some seq := by
  rw [sourceSeq, if_neg hdata, sourceHeaderAt_sourceDatagram helements, sourceDatagram]
  simp only [Option.bind_eq_bind, Option.bind_some, Nat.add_assoc, List.getElem?_append_right (Nat.le_add_right _ _),
    Nat.add_sub_cancel_left]
  simp only [u32ToBe, List.cons_append, List.nil_append, List.getElem?_cons_succ, List.getElem?_cons_zero,
    Option.bind_some, u32FromBe_toBe]

theorem sourcePayload_sourceDatagram {header : FecHeader} {elements : Bytes} (hdata : header.flags &&& flags.DATA ≠ 0)
    (helements : elements.length < 2^16) (coded seq : UInt32) (payload : Bytes) :
    sourcePayload (sourceDatagram header elements coded seq payload) header.flags = some payload := by
  have hlen : ∀ pre : Bytes,
      getFrom (pre ++ (u32ToBe coded ++ (u32ToBe seq ++ payload))) (pre.length + 8) = some payload := by
    intro pre
    rw [getFrom, if_pos (by simp [u32ToBe]), List.drop_append, List.drop_eq_nil_of_le (Nat.le_add_right _ _),
      Nat.add_sub_cancel_left]
    rfl
  rw [sourcePayload, sourceHeaderAt_sourceDatagram helements, Option.bind_eq_bind, Option.bind_some, if_pos hdata]
  exact hlen _

theorem drawn_sourceDatagram (payload : UInt32 → Bytes) {header : FecHeader} {elements : Bytes}
    (helements : elements.length < 2^16) (coded seq : UInt32) :
    Drawn payload (sourceDatagram header elements coded seq (payload seq)) := by
  intro header' hparse _ seq' hseq p hp
  have hheader : FecHeader.parse (sourceDatagram header elements coded seq (payload seq)) = some header := by
    rw [sourceDatagram, List.append_assoc, FecHeader.parse_write]
  obtain rfl : header = header' := Option.some.inj (hheader.symm.trans hparse)
  by_cases hdata : header.flags &&& flags.DATA = 0
  · rw [sourceSeq, if_pos hdata] at hseq
    cases hseq
  · rw [sourceSeq_sourceDatagram hdata helements] at hseq
    rw [sourcePayload_sourceDatagram hdata helements] at hp
    cases hseq
    cases hp
    rfl

theorem toNat_sub_succ {a b : UInt32} (h : a ≠ b) : (a - (b + 1)).toNat + 1 = (a - b).toNat := by
  have hne : a.toNat ≠ b.toNat := fun heq => h (UInt32.toNat_inj.1 heq)
  have ha := a.toNat_lt
  have hb := b.toNat_lt
  rw [UInt32.toNat_sub, UInt32.toNat_sub, UInt32.toNat_add, UInt32.toNat_one]
  omega

theorem idsFrom_succ (a : UInt32) (n : ℕ) : idsFrom a (n + 1) = a :: idsFrom (a + 1) n := by
  have h := idsFrom_append a 1 n
  rw [idsFrom_one, Nat.add_comm] at h
  exact h.symm

/-- What is held back: payloads of their numbers, less than half the number space past the next one. -/
def Held (payload : UInt32 → Bytes) (next : UInt32) (m : List (UInt32 × Bytes)) : Prop :=
  ∀ e ∈ m, e.2 = payload e.1 ∧ (e.1 - next).toNat < 2^31

def deliveries (payload : UInt32 → Bytes) (first : UInt32) (n : ℕ) : List Action :=
  (idsFrom first n).map fun seq => .deliver (payload seq)

theorem mem_of_lookup {k : UInt32} {v : Bytes} {m : List (UInt32 × Bytes)} (h : m.lookup k = some v) : (k, v) ∈ m := by
  obtain ⟨l₁, l₂, rfl, -⟩ := List.lookup_eq_some_iff.1 h
  simp

theorem ne_of_lookup_eq_none {k : UInt32} {m : List (UInt32 × Bytes)} (h : m.lookup k = none) {e : UInt32 × Bytes}
    (he : e ∈ m) : e.1 ≠ k := by
  rintro rfl
  exact absurd (List.lookup_eq_none_iff.1 h e he) (by simp)

variable {payload : UInt32 → Bytes}

theorem drain_spec (window : UInt32) {next : UInt32} (recv_count : ℕ) {m : List (UInt32 × Bytes)}
    (h : Held payload next m) :
    ∃ n, (Connection.drain window next recv_count m).1 = deliveries payload next n ∧
      (Connection.drain window next recv_count m).2.1 = next + UInt32.ofNat n ∧
      Held payload (next + UInt32.ofNat n) (Connection.drain window next recv_count m).2.2.2 ∧
      (∀ e ∈ (Connection.drain window next recv_count m).2.2.2, e.1 ≠ next + UInt32.ofNat n) ∧
      (Connection.drain window next recv_count m).2.2.2.length ≤ m.length := by
  induction hm : m.length using Nat.strong_induction_on generalizing next recv_count m with
  | h len ih =>
    subst hm
    unfold Connection.drain
    split
    · next held hlookup =>
      obtain ⟨hheld, -⟩ := h _ (mem_of_lookup hlookup)
      dsimp only at hheld
      subst hheld
      have hlt := length_removeKey_lt hlookup
      have hrest : Held payload (next + 1) (removeKey next m) := by
        intro e he
        obtain ⟨he, hne⟩ := List.mem_filter.1 he
        obtain ⟨hpayload, hahead⟩ := h e he
        have hsub := toNat_sub_succ (of_decide_eq_true hne)
        exact ⟨hpayload, by omega⟩
      obtain ⟨n, hactions, hnext, hheld, hbeyond, hlen⟩ := ih _ hlt (min (recv_count + 1) window.toNat) hrest rfl
      have hadd : next + 1 + UInt32.ofNat n = next + UInt32.ofNat (n + 1) := by
        rw [UInt32.ofNat_add, UInt32.add_assoc, UInt32.add_comm (UInt32.ofNat n)]
        rfl
      rw [hadd] at hnext hheld hbeyond
      refine ⟨n + 1, ?_, hnext, hheld, hbeyond, hlen.trans hlt.le⟩
      rw [deliveries, idsFrom_succ, List.map_cons]
      exact congrArg _ hactions
    · next hlookup =>
      have hzero : next + UInt32.ofNat 0 = next := UInt32.add_zero next
      refine ⟨0, rfl, hzero.symm, ?_, ?_, le_rfl⟩
      · rw [hzero]
        exact h
      · rw [hzero]
        exact fun e he => ne_of_lookup_eq_none hlookup he

theorem mem_insertKey {k : UInt32} {v : Bytes} {m : List (UInt32 × Bytes)} {e : UInt32 × Bytes}
    (h : e ∈ insertKey k v m) : e = (k, v) ∨ e ∈ m := by
  simp only [insertKey, List.mem_append, List.mem_cons, List.mem_filter] at h
  tauto

theorem length_insertKey_le (k : UInt32) (v : Bytes) (m : List (UInt32 × Bytes)) :
    (insertKey k v m).length ≤ m.length + 1 := by
  have h : (m.filter fun e => decide (e.1 < k)).length + (m.filter fun e => decide (k < e.1)).length ≤ m.length := by
    induction m with
    | nil => exact le_rfl
    | cons e m ih =>
      simp only [List.filter_cons, List.length_cons]
      by_cases hlt : e.1 < k
      · rw [if_pos (decide_eq_true hlt), if_neg (by simpa using UInt32.le_of_lt hlt), List.length_cons]
        omega
      · rw [if_neg (by simpa using hlt)]
        split_ifs
        · rw [List.length_cons]
          omega
        · omega
  simp only [insertKey, List.length_append, List.length_cons]
  omega

def AcksName (s : UInt32) : ℕ → List Action → Prop
  | _, [] => True
  | n, .deliver _ :: actions => AcksName s (n + 1) actions
  | n, .send datagram :: actions =>
    (FecHeader.parse datagram).map (·.sn_source_ack) = some (s + UInt32.ofNat n) ∧ AcksName s n actions
  | n, .established :: actions => AcksName s n actions
  | n, .closed :: actions => AcksName s n actions

theorem delivered_append (as bs : List Action) : delivered (as ++ bs) = delivered as ++ delivered bs :=
  List.filterMap_append

theorem acksName_append {s : UInt32} {n : ℕ} {as bs : List Action} :
    AcksName s n (as ++ bs) ↔ AcksName s n as ∧ AcksName s (n + (delivered as).length) bs := by
  induction as generalizing n with
  | nil => simp [AcksName, delivered]
  | cons a as ih =>
    cases a with
    | deliver p =>
      have hlen : n + (delivered (.deliver p :: as)).length = n + 1 + (delivered as).length := by
        simp only [delivered, List.filterMap_cons, List.length_cons]
        omega
      rw [List.cons_append, AcksName, AcksName, ih, hlen]
    | send d => rw [List.cons_append, AcksName, AcksName, ih, and_assoc]; rfl
    | established => rw [List.cons_append, AcksName, AcksName, ih]; rfl
    | closed => rw [List.cons_append, AcksName, AcksName, ih]; rfl

@[simp]
theorem delivered_deliveries (first : UInt32) (n : ℕ) :
    delivered (deliveries payload first n) = (idsFrom first n).map payload := by
  simp [delivered, deliveries, List.filterMap_map]

theorem acksName_deliveries (s first : UInt32) (n m : ℕ) : AcksName s m (deliveries payload first n) := by
  induction n generalizing first m with
  | zero => trivial
  | succ n ih =>
    rw [deliveries, idsFrom_succ, List.map_cons, AcksName]
    exact ih (first + 1) (m + 1)

theorem parse_buildAckWith (sn_source_ack : UInt32) (receiver_window : UInt16) (received : ℕ) :
    FecHeader.parse (buildAckWith sn_source_ack receiver_window received) =
      some ⟨sn_source_ack, receiver_window, flags.ACK⟩ := FecHeader.parse_write _ _

/-- A connection that has delivered the payloads of the `n` numbers after `s`. -/
structure At (payload : UInt32 → Bytes) (s : UInt32) (n : ℕ) (c : Connection) : Prop where
  state_ne : c.state ≠ .synSent
  recv_next : c.recv_next = some (s + 1 + UInt32.ofNat n)
  recv_seq : c.recv_seq = s + UInt32.ofNat n
  held : Held payload (s + 1 + UInt32.ofNat n) c.reorder
  beyond : ∀ e ∈ c.reorder, e.1 ≠ s + 1 + UInt32.ofNat n
  room : c.reorder.length ≤ MAX_REORDER

namespace At

variable {s : UInt32} {n : ℕ} {c : Connection} (h : At payload s n c)

include h in
theorem congr {c' : Connection} (hstate : c'.state ≠ .synSent) (hnext : c'.recv_next = c.recv_next)
    (hseq : c'.recv_seq = c.recv_seq) (hreorder : c'.reorder = c.reorder) : At payload s n c' :=
  ⟨hstate, hnext.trans h.recv_next, hseq.trans h.recv_seq, hreorder ▸ h.held, hreorder ▸ h.beyond, hreorder ▸ h.room⟩

include h in
theorem onSource (seq : UInt32) : ∃ k, At payload s (n + k) (c.onSource seq (payload seq)).1 ∧
      (c.onSource seq (payload seq)).2 = deliveries payload (s + 1 + UInt32.ofNat n) k := by
  have hstate := h.state_ne
  have hnext : c.recv_next.getD seq = s + 1 + UInt32.ofNat n := by rw [h.recv_next, Option.getD_some]
  have hstored : some (s + 1 + UInt32.ofNat n) = c.recv_next := h.recv_next.symm
  simp only [Connection.onSource, hnext]
  split_ifs with hbehind hhere hfits
  · exact ⟨0, h.congr hstate hstored rfl rfl, rfl⟩
  · -- the next number: the loop follows
    have hseq : seq = s + 1 + UInt32.ofNat n := by
      rw [← UInt32.sub_add_cancel seq (s + 1 + UInt32.ofNat n), hhere, UInt32.zero_add]
    subst hseq
    have hheld : Held payload (s + 1 + UInt32.ofNat n + 1) c.reorder := by
      intro e he
      obtain ⟨hpayload, hahead⟩ := h.held e he
      have hsub := toNat_sub_succ (h.beyond e he)
      exact ⟨hpayload, by omega⟩
    obtain ⟨k, hactions, hreached, hheld, hbeyond, hlen⟩ :=
      drain_spec c.window.toUInt32 (min (c.recv_count + 1) c.window.toNat) hheld
    have hadd : s + 1 + UInt32.ofNat n + 1 + UInt32.ofNat k = s + 1 + UInt32.ofNat (n + (k + 1)) := by
      rw [Nat.add_comm k, ← Nat.add_assoc, UInt32.ofNat_add, UInt32.ofNat_add, ← UInt32.add_assoc, ← UInt32.add_assoc]
      rfl
    rw [hadd] at hreached hheld hbeyond
    refine ⟨k + 1, ⟨hstate, congrArg some hreached, ?_, hheld, hbeyond, hlen.trans h.room⟩, ?_⟩
    · dsimp only
      rw [hreached, UInt32.add_assoc, UInt32.add_comm 1, ← UInt32.add_assoc, UInt32.add_sub_cancel]
    · rw [deliveries, idsFrom_succ, List.map_cons]
      exact congrArg _ hactions
  · -- a gap, and room to hold what lies behind it
    refine ⟨0, ⟨hstate, rfl, h.recv_seq, ?_, ?_, ?_⟩, rfl⟩
    · intro e he
      obtain rfl | he := mem_insertKey he
      · have hlt : (seq - (s + 1 + UInt32.ofNat n)).toNat < 2^31 := by
          rw [UInt32.le_iff_toNat_le] at hbehind
          simpa using hbehind
        exact ⟨rfl, hlt⟩
      · exact h.held e he
    · intro e he
      obtain rfl | he := mem_insertKey he
      · intro hseq
        dsimp only at hseq
        rw [hseq] at hhere
        exact hhere (UInt32.sub_self _)
      · exact h.beyond e he
    · have hinsert := length_insertKey_le seq (payload seq) c.reorder
      dsimp only at hfits ⊢
      omega
  · exact ⟨0, h.congr hstate hstored rfl rfl, rfl⟩

theorem answered {r : Connection × List Action}
    (hr : ∃ k, At payload s (n + k) r.1 ∧ r.2 = deliveries payload (s + 1 + UInt32.ofNat n) k) :
    ∃ k, At payload s (n + k) r.1 ∧ ∃ window received,
      r.2 ++ [.send (buildAckWith r.1.recv_seq r.1.window r.1.recv_count)] =
        deliveries payload (s + 1 + UInt32.ofNat n) k ++
          [.send (buildAckWith (s + UInt32.ofNat (n + k)) window received)] := by
  obtain ⟨k, hat, hactions⟩ := hr
  exact ⟨k, hat, r.1.window, r.1.recv_count, by rw [hactions, ← hat.recv_seq]⟩

theorem onData {header : FecHeader} {datagram : Bytes} (h : At payload s n c)
    (hparse : FecHeader.parse datagram = some header) (hdrawn : Drawn payload datagram) :
    ∃ k, At payload s (n + k) (c.onData header datagram).1 ∧ ∃ window received,
      (c.onData header datagram).2 = deliveries payload (s + 1 + UInt32.ofNat n) k ++
        [.send (buildAckWith (s + UInt32.ofNat (n + k)) window received)] := by
  unfold Connection.onData
  split_ifs with hfec
  · exact answered (r := (c, [])) ⟨0, h, rfl⟩
  · have h' : At payload s n { c with recv_source_total := c.recv_source_total + 1 } :=
      h.congr h.state_ne rfl rfl rfl
    dsimp only
    split
    · next seq p hseq hp =>
      obtain ⟨hp, -⟩ := Option.filter_eq_some_iff.1 hp
      have heq : p = payload seq := hdrawn header hparse (Bool.eq_false_iff.2 hfec) seq hseq p hp
      subst heq
      exact answered (h'.onSource seq)
    · exact answered ⟨0, h', rfl⟩

include h in
theorem onReceive {datagram : Bytes} (hdrawn : Drawn payload datagram) :
    ∃ k, At payload s (n + k) (c.onReceive datagram).1 ∧
      delivered (c.onReceive datagram).2 = (idsFrom (s + 1 + UInt32.ofNat n) k).map payload ∧
      AcksName s n (c.onReceive datagram).2 := by
  unfold Connection.onReceive
  split
  · exact ⟨0, h, rfl, trivial⟩
  · next header kind syn hclassify =>
    have hparse := parse_of_classify hclassify
    have h' : At payload s n (c.retain header.sn_source_ack) := h.congr h.state_ne rfl rfl rfl
    dsimp only
    split_ifs with hsyn hdata hfin
    · exact absurd hsyn.2 h.state_ne
    · obtain ⟨k, hat, window, received, hactions⟩ := h'.onData hparse hdrawn
      refine ⟨k, hat, ?_, ?_⟩
      · rw [hactions, Connection.delivered_append_send, delivered_deliveries]
      · rw [hactions, acksName_append, delivered_deliveries, List.length_map, length_idsFrom]
        refine ⟨acksName_deliveries _ _ _ _, ?_, trivial⟩
        rw [parse_buildAckWith]
        rfl
    · exact ⟨0, h'.congr (by simp) rfl rfl rfl, rfl, trivial⟩
    · exact ⟨0, h', rfl, trivial⟩

include h in
theorem buildData (p : Bytes) : At payload s n (c.buildData p).1 := by
  refine h.congr ?_ ?_ ?_ ?_ <;> simp only [Connection.buildData] <;> split_ifs <;> first | exact h.state_ne | rfl

end At

theorem Connection.delivered_onReceive_fec (c : Connection) (hstate : c.state ≠ .synSent) {datagram : Bytes}
    {header : FecHeader} (hparse : FecHeader.parse datagram = some header) (hfec : header.has flags.FEC = true) :
    delivered (c.onReceive datagram).2 = [] := by
  unfold Connection.onReceive
  split
  · rfl
  · next header' kind syn hclassify =>
    obtain rfl : header = header' := Option.some.inj (hparse.symm.trans (parse_of_classify hclassify))
    dsimp only
    split_ifs with hsyn hdata
    · exact absurd hsyn.2 hstate
    · rw [Connection.onData, if_pos hfec]
      rfl
    · rfl
    · rfl

/-- What has been delivered and answered since the handshake that named `s`. -/
structure InOrder (payload : UInt32 → Bytes) (s : UInt32) (l : Link) : Prop where
  conn : At payload s (delivered l.actions).length l.conn
  delivered : delivered l.actions = (idsFrom (s + 1) (delivered l.actions).length).map payload
  acks : AcksName s 0 l.actions

theorem InOrder.step {s : UInt32} {l : Link} (h : InOrder payload s l) (op : Op)
    (hdrawn : ∀ datagram, op = .receive datagram → Drawn payload datagram) : InOrder payload s (l.step op) := by
  cases op with
  | receive datagram =>
    obtain ⟨k, hat, hdelivered, hacks⟩ := h.conn.onReceive (hdrawn datagram rfl)
    have hlen : (Rdpudp.delivered (l.step (.receive datagram)).actions).length =
        (Rdpudp.delivered l.actions).length + k := by
      rw [Link.step, delivered_append, hdelivered, List.length_append, List.length_map, length_idsFrom]
    refine ⟨hlen ▸ hat, ?_, ?_⟩
    · rw [hlen, ← idsFrom_append, List.map_append, ← h.delivered, Link.step, delivered_append, hdelivered]
    · rw [Link.step, acksName_append, Nat.zero_add]
      exact ⟨h.acks, hacks⟩
  | send p => exact ⟨h.conn.buildData p, h.delivered, h.acks⟩

theorem InOrder.run {s : UInt32} {l : Link} (h : InOrder payload s l) {ops : List Op}
    (hdrawn : ∀ datagram, .receive datagram ∈ ops → Drawn payload datagram) :
    InOrder payload s (run Link.step l ops) := by
  induction ops generalizing l with
  | nil => exact h
  | cons op ops ih =>
    refine ih (h.step op fun datagram heq => hdrawn datagram ?_) fun datagram hmem => hdrawn datagram ?_
    · rw [heq]
      exact List.mem_cons_self
    · exact List.mem_cons_of_mem op hmem

theorem InOrder.handshake {synAck : Bytes} {header : FecHeader} {syn : SynData}
    (hsyn : classify synAck = some (header, .synAck, some syn)) (initial_sequence : UInt32) (window : UInt16)
    (lossy : Bool) :
    InOrder payload syn.initial_sequence ((Link.start initial_sequence window lossy).step (.receive synAck)) := by
  have hadd : ∀ x : UInt32, x + UInt32.ofNat 0 = x := UInt32.add_zero
  have hreceive : (Link.start initial_sequence window lossy).conn.onReceive synAck =
      Connection.onSynAck ((Connection.connect initial_sequence window lossy).1.retain header.sn_source_ack) header
        (some syn) := by
    simp only [Connection.onReceive, hsyn]
    exact if_pos ⟨trivial, rfl⟩
  have hactions : ((Link.start initial_sequence window lossy).step (.receive synAck)).actions =
      [.send (buildAck syn.initial_sequence window), .established] := by
    simp only [Link.step, hreceive]
    rfl
  refine ⟨?_, ?_, ?_⟩
  · rw [hactions, Link.step, hreceive]
    refine ⟨by simp [Connection.onSynAck], ?_, ?_, ?_, ?_, ?_⟩
    · exact congrArg some (hadd _).symm
    · exact (hadd _).symm
    · exact fun e he => absurd he (by simp [Connection.onSynAck, Connection.retain, Connection.connect])
    · exact fun e he => absurd he (by simp [Connection.onSynAck, Connection.retain, Connection.connect])
    · exact Nat.zero_le _
  · rw [hactions]
    rfl
  · rw [hactions]
    refine ⟨?_, trivial⟩
    rw [buildAck, parse_buildAckWith, hadd, Option.map_some]

/-- Since the handshake the payloads have been delivered in the order of their numbers, each once; every datagram sent
in answer named the number then reached, parity was not delivered, and the reorder buffer is bounded and holds what
lies beyond the number that is missing. -/
theorem delivers_in_order (payload : UInt32 → Bytes) (initial_sequence : UInt32) (window : UInt16) (lossy : Bool)
    {synAck : Bytes} {header : FecHeader} {syn : SynData} (hsyn : classify synAck = some (header, .synAck, some syn))
    (ops : List Op) (hdrawn : ∀ datagram, .receive datagram ∈ ops → Drawn payload datagram) :
    let l := run Link.step (Link.start initial_sequence window lossy) (.receive synAck :: ops)
    let s := syn.initial_sequence
    let n := (delivered l.actions).length
    delivered l.actions = (idsFrom (s + 1) n).map payload ∧ AcksName s 0 l.actions ∧
      (∀ datagram header, FecHeader.parse datagram = some header → header.has flags.FEC = true →
        delivered (l.conn.onReceive datagram).2 = []) ∧
      l.conn.reorder.length ≤ MAX_REORDER ∧
      ∀ e ∈ l.conn.reorder, 0 < (e.1 - (s + UInt32.ofNat n + 1)).toNat ∧ (e.1 - (s + UInt32.ofNat n + 1)).toNat < 2^31 := by
  intro l s n
  have h : InOrder payload s l := (InOrder.handshake hsyn initial_sequence window lossy).run hdrawn
  refine ⟨h.delivered, h.acks, ?_, h.conn.room, ?_⟩
  · intro datagram header hparse hfec
    exact l.conn.delivered_onReceive_fec h.conn.state_ne hparse hfec
  · intro e he
    have hnext : s + UInt32.ofNat n + 1 = s + 1 + UInt32.ofNat n := by
      rw [UInt32.add_assoc, UInt32.add_comm _ 1, ← UInt32.add_assoc]
    rw [hnext]
    have hne := h.conn.beyond e he
    have hsub := toNat_sub_succ hne
    exact ⟨hsub ▸ Nat.succ_pos _, (h.conn.held e he).2⟩

/-- Across the wrap, with the second datagram before the first and once more after it. -/
theorem delivers_in_order_reordered :
    let header : FecHeader := ⟨1, 64, flags.DATA ||| flags.ACK⟩
    let payload : UInt32 → Bytes := fun seq => [UInt8.ofNat seq.toNat]
    let source : UInt32 → Bytes := fun seq => sourceDatagram header [3] seq seq (payload seq)
    let l := run Link.step (Link.start 1 64 false)
      (.receive (FecHeader.write ⟨1, 64, flags.SYN ||| flags.ACK⟩ ++ SynData.write ⟨0xFFFFFFFE, 1232, 1232⟩) ::
        [.receive (source 0), .send [1], .receive (source 0xFFFFFFFF), .receive (source 0)])
    delivered l.actions = [[255], [0]] ∧ AcksName 0xFFFFFFFE 0 l.actions := by
  intro header payload source l
  have hdrawn : ∀ datagram, Op.receive datagram ∈
      [.receive (source 0), .send [1], .receive (source 0xFFFFFFFF), .receive (source 0)] → Drawn payload datagram := by
    intro datagram hmem
    simp only [List.mem_cons, Op.receive.injEq, reduceCtorEq, List.not_mem_nil, or_false, false_or] at hmem
    obtain rfl | rfl | rfl := hmem
    · exact drawn_sourceDatagram payload (by decide) 0 0
    · exact drawn_sourceDatagram payload (by decide) 0xFFFFFFFF 0xFFFFFFFF
    · exact drawn_sourceDatagram payload (by decide) 0 0
  have hsyn : classify (FecHeader.write ⟨1, 64, flags.SYN ||| flags.ACK⟩ ++ SynData.write ⟨0xFFFFFFFE, 1232, 1232⟩) =
      some (⟨1, 64, flags.SYN ||| flags.ACK⟩, .synAck, some ⟨0xFFFFFFFE, 1232, 1232⟩) := by decide +kernel
  exact ⟨by decide +kernel, (delivers_in_order payload 1 64 false hsyn _ hdrawn).2.1⟩

end Rdpio.Pdu.Rdpudp
