import Mathlib.Data.List.Infix
import Rdpio.Pdu.RdpudpDelivery

/-!
# What an RDP-UDP connection keeps for retransmission

On the reliable channel a connection keeps the last `MAX_UNACKED` datagrams that the peer has not
acknowledged.
-/

namespace Rdpio.Pdu.Rdpudp

open Lib

def Connection.retransmit (c : Connection) : List Bytes := c.unacked.map (·.2)

namespace Link

def outstanding (l : Link) : List (UInt32 × Bytes) := l.sent.drop (max l.acked (l.sent.length - MAX_UNACKED))

/-- The buffer holds them and no others, and retransmission lists them in the order of sending. -/
def Keeps (l : Link) : Prop := l.conn.unacked = l.outstanding ∧ l.conn.retransmit = l.outstanding.map (·.2)

/-- They do not lie on both sides of the wrap. -/
def OneSide (l : Link) : Prop := l.outstanding.length ≤ l.conn.send_seq.toNat + 1

def PeerAcks (l : Link) : Op → Prop
  | .receive datagram => ∀ header, FecHeader.parse datagram = some header →
      (l.conn.send_seq - header.sn_source_ack).toNat ≤ l.sent.length ∧
        (l.conn.send_seq - header.sn_source_ack).toNat < 2^31
  | .send _ => True

end Link

theorem toNat_add_ofNat (a : UInt32) (j : ℕ) : (a + UInt32.ofNat j).toNat = (a.toNat + j) % 2^32 := by
  rw [UInt32.toNat_add, UInt32.toNat_ofNat']
  omega

theorem pairwise_idsFrom_iff {a last : UInt32} {n : ℕ} (hn : n < 2^32) (hlast : last + 1 = a + UInt32.ofNat n) :
    (idsFrom a n).Pairwise (· < ·) ↔ n ≤ last.toNat + 1 := by
  have ha := a.toNat_lt
  have hl : last.toNat = (a.toNat + n + (2^32 - 1)) % 2^32 := by
    have h := congrArg UInt32.toNat hlast
    rw [toNat_add_ofNat, UInt32.toNat_add, UInt32.toNat_one] at h
    have := last.toNat_lt
    omega
  rw [idsFrom, List.pairwise_map]
  constructor
  · intro h
    rcases Nat.lt_or_ge n 2 with hsmall | htwo
    · omega
    · -- the first number and the last
      have hends := List.pairwise_iff_getElem.1 h 0 (n - 1) (by simp; omega) (by simp; omega) (by omega)
      simp only [List.getElem_range, UInt32.lt_iff_toNat_lt, toNat_add_ofNat] at hends
      omega
  · intro h
    refine List.Pairwise.imp_of_mem ?_ List.pairwise_lt_range
    intro i j hi hj hij
    rw [List.mem_range] at hi hj
    rw [UInt32.lt_iff_toNat_lt, toNat_add_ofNat, toNat_add_ofNat]
    omega

theorem pairwise_insertKey {k : UInt32} {v : Bytes} {m : List (UInt32 × Bytes)}
    (h : m.Pairwise (·.1 < ·.1)) : (insertKey k v m).Pairwise (·.1 < ·.1) := by
  rw [insertKey, List.pairwise_append, List.pairwise_cons]
  refine ⟨h.filter _, ⟨?_, h.filter _⟩, ?_⟩
  · intro e he
    exact of_decide_eq_true (List.mem_filter.1 he).2
  · intro e he f hf
    have hek : e.1 < k := of_decide_eq_true (List.mem_filter.1 he).2
    obtain rfl | hf := List.mem_cons.1 hf
    · exact hek
    · exact UInt32.lt_trans hek (of_decide_eq_true (List.mem_filter.1 hf).2)

theorem insertKey_of_lt {k : UInt32} {v : Bytes} {m : List (UInt32 × Bytes)} (h : ∀ e ∈ m, e.1 < k) :
    insertKey k v m = m ++ [(k, v)] := by
  rw [insertKey, List.filter_eq_self.2 fun e he => decide_eq_true (h e he), List.filter_eq_nil_iff.2]
  intro e he
  simpa using UInt32.le_of_lt (h e he)

namespace Connection

variable (c : Connection)

@[simp]
theorem onSource_unacked (seq : UInt32) (p : Bytes) : (c.onSource seq p).1.unacked = c.unacked := by
  simp only [onSource]
  split_ifs <;> rfl

@[simp]
theorem onSource_send_seq (seq : UInt32) (p : Bytes) : (c.onSource seq p).1.send_seq = c.send_seq := by
  simp only [onSource]
  split_ifs <;> rfl

@[simp]
theorem onSource_lossy (seq : UInt32) (p : Bytes) : (c.onSource seq p).1.lossy = c.lossy := by
  simp only [onSource]
  split_ifs <;> rfl

theorem onReceive_sending (datagram : Bytes) : (c.onReceive datagram).1.unacked = (match FecHeader.parse datagram with
          | some header => (c.retain header.sn_source_ack).unacked
          | none => c.unacked) ∧
      (c.onReceive datagram).1.send_seq = c.send_seq ∧ (c.onReceive datagram).1.lossy = c.lossy := by
  unfold onReceive
  split
  · next hclassify =>
    rw [parse_of_classify_none hclassify]
    exact ⟨rfl, rfl, rfl⟩
  · next header kind syn hclassify =>
    rw [parse_of_classify hclassify]
    dsimp only
    split_ifs with hsyn hdata hfin
    · unfold onSynAck
      split <;> exact ⟨rfl, rfl, rfl⟩
    · unfold onData
      split_ifs with hfec
      · exact ⟨rfl, rfl, rfl⟩
      · dsimp only
        split
        · exact ⟨onSource_unacked _ _ _, onSource_send_seq _ _ _, onSource_lossy _ _ _⟩
        · exact ⟨rfl, rfl, rfl⟩
    · exact ⟨rfl, rfl, rfl⟩
    · exact ⟨rfl, rfl, rfl⟩

end Connection

theorem filter_drop_eq {α : Type*} {xs : List α} {p : α → Bool} {lo k : ℕ}
    (h : ∀ j (hj : j < xs.length), lo ≤ j → (p xs[j] = true ↔ k ≤ j)) :
    (xs.drop lo).filter p = xs.drop (max lo k) := by
  have hsplit : (xs.drop lo).take (k - lo) ++ xs.drop (max lo k) = xs.drop lo := by
    have hmax : max lo k = lo + (k - lo) := by omega
    rw [hmax, ← List.drop_drop, List.take_append_drop]
  have hgone : ((xs.drop lo).take (k - lo)).filter p = [] := by
    rw [List.filter_eq_nil_iff]
    intro e he
    obtain ⟨j, hj, rfl⟩ := List.mem_iff_getElem.1 he
    rw [List.length_take, List.length_drop] at hj
    rw [List.getElem_take, List.getElem_drop, h _ (by omega) (Nat.le_add_right _ _)]
    omega
  have hkept : (xs.drop (max lo k)).filter p = xs.drop (max lo k) := by
    rw [List.filter_eq_self]
    intro e he
    obtain ⟨j, hj, rfl⟩ := List.mem_iff_getElem.1 he
    rw [List.length_drop] at hj
    rw [List.getElem_drop, h _ (by omega) (by omega)]
    omega
  calc (xs.drop lo).filter p
      = ((xs.drop lo).take (k - lo) ++ xs.drop (max lo k)).filter p := by rw [hsplit]
    _ = xs.drop (max lo k) := by rw [List.filter_append, hgone, hkept, List.nil_append]

namespace Link

/-! ## A run -/

/-- How the numbers of a link lie: the datagrams sent are numbered in a row, and the map is in the order of its keys. -/
structure Numbered (i : UInt32) (l : Link) : Prop where
  reliable : l.conn.lossy = false
  send_seq : l.conn.send_seq = i + UInt32.ofNat l.sent.length
  numbers : l.sent.map (·.1) = idsFrom (i + 1) l.sent.length
  ordered : l.conn.unacked.Pairwise (·.1 < ·.1)
  acked_le : l.acked ≤ l.sent.length

namespace Numbered

variable {i : UInt32} {l : Link} (h : Numbered i l)

include h

theorem step (op : Op) : Numbered i (l.step op) := by
  cases op with
  | receive datagram =>
    obtain ⟨hunacked, hseq, hlossy⟩ := l.conn.onReceive_sending datagram
    refine ⟨hlossy.trans h.reliable, hseq.trans h.send_seq, h.numbers, ?_, ?_⟩
    · rw [Link.step, hunacked]
      split
      · exact h.ordered.filter _
      · exact h.ordered
    · dsimp only [Link.step]
      split
      · exact max_le h.acked_le (Nat.sub_le _ _)
      · exact h.acked_le
  | send p =>
    have hseq : (l.conn.buildData p).1.send_seq = i + UInt32.ofNat (l.sent.length + 1) := by
      rw [Connection.buildData_send_seq, h.send_seq, UInt32.ofNat_add, UInt32.add_assoc]
      rfl
    refine ⟨?_, ?_, ?_, ?_, ?_⟩
    · simp only [Link.step, Connection.buildData, h.reliable, Bool.false_eq_true, if_false]
    · rw [Link.step, hseq, List.length_append, List.length_singleton]
    · rw [Link.step, List.map_append, List.map_singleton, h.numbers, hseq, List.length_append, List.length_singleton,
        ← idsFrom_append, idsFrom_one, Nat.add_comm, UInt32.ofNat_add, ← UInt32.add_assoc]
      rfl
    · simp only [Link.step, Connection.buildData, h.reliable, Bool.false_eq_true, if_false]
      refine pairwise_insertKey ?_
      split_ifs
      · exact h.ordered.drop
      · exact h.ordered
    · rw [Link.step, List.length_append]
      exact h.acked_le.trans (Nat.le_add_right _ _)

theorem number {j : ℕ} (hj : j < l.sent.length) : l.sent[j].1 = i + 1 + UInt32.ofNat j := by
  have hmap : (l.sent.map (·.1))[j]? = some l.sent[j].1 := by
    rw [List.getElem?_map, List.getElem?_eq_getElem hj]
    rfl
  rw [h.numbers, idsFrom, List.getElem?_map, List.getElem?_range hj] at hmap
  exact (Option.some.inj hmap).symm

theorem pairwise_outstanding : l.outstanding.Pairwise (·.1 < ·.1) ↔ l.OneSide := by
  obtain ⟨lo, hlo⟩ : ∃ lo, lo = max l.acked (l.sent.length - MAX_UNACKED) := ⟨_, rfl⟩
  have hlen : l.outstanding.length = l.sent.length - lo := by rw [outstanding, List.length_drop, ← hlo]
  have hsmall : l.sent.length - lo ≤ 512 := by
    have : MAX_UNACKED = 512 := rfl
    omega
  have hnumbers : l.outstanding.map (·.1) = idsFrom (i + 1 + UInt32.ofNat lo) (l.sent.length - lo) := by
    refine List.ext_getElem (by rw [List.length_map, length_idsFrom, hlen]) fun j hj _ => ?_
    rw [List.length_map, hlen] at hj
    simp only [outstanding, ← hlo, List.getElem_map, List.getElem_drop, idsFrom, List.getElem_range]
    rw [h.number, UInt32.ofNat_add, ← UInt32.add_assoc]
  rcases Nat.le_total l.sent.length lo with hnone | hsome
  · have hempty : l.outstanding = [] := List.eq_nil_of_length_eq_zero (by omega)
    simp [OneSide, hempty]
  · have hlast : l.conn.send_seq + 1 = i + 1 + UInt32.ofNat lo + UInt32.ofNat (l.sent.length - lo) := by
      rw [h.send_seq, UInt32.add_assoc (i + 1), ← UInt32.ofNat_add, Nat.add_sub_cancel' hsome, UInt32.add_assoc,
        UInt32.add_assoc, UInt32.add_comm 1]
    rw [OneSide, hlen, ← pairwise_idsFrom_iff (by omega) hlast, ← hnumbers, List.pairwise_map]

end Numbered

theorem keeps_iff_unacked {l : Link} : l.Keeps ↔ l.conn.unacked = l.outstanding :=
  ⟨And.left, fun h => ⟨h, by rw [Connection.retransmit, h]⟩⟩

variable {i : UInt32} {l : Link}

theorem Numbered.after_iff (hnum : Numbered i l) {sn_source_ack : UInt32}
    (hback : (l.conn.send_seq - sn_source_ack).toNat ≤ l.sent.length)
    (hhalf : (l.conn.send_seq - sn_source_ack).toNat < 2^31) {j : ℕ} (hj : j < l.sent.length)
    (hrecent : l.sent.length ≤ j + 512) :
    (l.sent[j].1 - sn_source_ack ≠ 0 ∧ l.sent[j].1 - sn_source_ack < 0x80000000) ↔ l.covered sn_source_ack ≤ j := by
  have hhalf' : (0x80000000 : UInt32).toNat = 2^31 := by decide
  have hahead : (l.sent[j].1 - sn_source_ack).toNat =
      (2^32 + j + 1 + (l.conn.send_seq - sn_source_ack).toNat - l.sent.length) % 2^32 := by
    have hi := i.toNat_lt
    have hack := sn_source_ack.toNat_lt
    have hd : (l.conn.send_seq - sn_source_ack).toNat =
        (2^32 - sn_source_ack.toNat + (i.toNat + l.sent.length) % 2^32) % 2^32 := by
      rw [UInt32.toNat_sub, hnum.send_seq, toNat_add_ofNat]
    have hx : (l.sent[j].1 - sn_source_ack).toNat = (2^32 - sn_source_ack.toNat + (i.toNat + 1 + j) % 2^32) % 2^32 := by
      rw [UInt32.toNat_sub, hnum.number hj, toNat_add_ofNat, UInt32.toNat_add, UInt32.toNat_one]
      omega
    rw [hx]
    rw [hd] at hback ⊢
    omega
  rw [UInt32.lt_iff_toNat_lt, hhalf', ne_eq, ← UInt32.toNat_inj, UInt32.toNat_zero, covered]
  omega

theorem Keeps.receive (hnum : Numbered i l) (h : l.Keeps) {datagram : Bytes} (hacks : l.PeerAcks (.receive datagram)) :
    (l.step (.receive datagram)).Keeps := by
  rw [keeps_iff_unacked] at h ⊢
  simp only [Link.step, outstanding, (l.conn.onReceive_sending datagram).1]
  cases hparse : FecHeader.parse datagram with
  | none => exact h
  | some header =>
    obtain ⟨hback, hhalf⟩ := hacks header hparse
    have hmax : MAX_UNACKED = 512 := rfl
    obtain ⟨k, hk⟩ : ∃ k, k = l.covered header.sn_source_ack := ⟨_, rfl⟩
    have hlo : max (max l.acked k) (l.sent.length - MAX_UNACKED) =
        max (max l.acked (l.sent.length - MAX_UNACKED)) k := by omega
    simp only [Connection.retain, h, outstanding]
    rw [← hk, hlo]
    refine filter_drop_eq fun j hj hlo => ?_
    rw [decide_eq_true_eq, hk]
    exact hnum.after_iff hback hhalf hj (by omega)

theorem outstanding_send (hacked : l.acked ≤ l.sent.length) (p : Bytes) : (l.step (.send p)).outstanding =
      (if MAX_UNACKED ≤ l.outstanding.length then l.outstanding.drop 1 else l.outstanding) ++
        [((l.conn.buildData p).1.send_seq, (l.conn.buildData p).2)] := by
  have hmax : MAX_UNACKED = 512 := rfl
  obtain ⟨e, he⟩ : ∃ e, e = ((l.conn.buildData p).1.send_seq, (l.conn.buildData p).2) := ⟨_, rfl⟩
  simp only [Link.step, outstanding, List.length_append, List.length_singleton, List.length_drop, List.drop_drop, ← he]
  split_ifs with hfull
  · have hlo : max l.acked (l.sent.length + 1 - MAX_UNACKED) = max l.acked (l.sent.length - MAX_UNACKED) + 1 := by omega
    rw [hlo, List.drop_append_of_le_length (by omega)]
  · have hlo : max l.acked (l.sent.length + 1 - MAX_UNACKED) = max l.acked (l.sent.length - MAX_UNACKED) := by omega
    rw [hlo, List.drop_append_of_le_length (by omega)]

theorem Keeps.send (hnum : Numbered i l) (h : l.Keeps) (p : Bytes) (hside : (l.step (.send p)).OneSide) :
    (l.step (.send p)).Keeps := by
  have hordered := (hnum.step (.send p)).pairwise_outstanding.2 hside
  have hunacked : (l.step (.send p)).conn.unacked = insertKey (l.conn.buildData p).1.send_seq (l.conn.buildData p).2
        (if MAX_UNACKED ≤ l.conn.unacked.length then l.conn.unacked.drop 1 else l.conn.unacked) := by
    simp only [Link.step, Connection.buildData, hnum.reliable, Bool.false_eq_true, if_false]
  rw [keeps_iff_unacked] at h ⊢
  rw [outstanding_send hnum.acked_le] at hordered ⊢
  rw [hunacked, h]
  -- the new number is beyond all that are kept
  exact insertKey_of_lt fun e he => (List.pairwise_append.1 hordered).2.2 e he _ (List.mem_singleton_self _)

theorem Keeps.step (hnum : Numbered i l) (h : l.Keeps) {op : Op} (hacks : l.PeerAcks op)
    (hside : (l.step op).OneSide) : (l.step op).Keeps := by
  cases op with
  | receive datagram => exact h.receive hnum hacks
  | send p => exact h.send hnum p hside

theorem Keeps.oneSide (hnum : Numbered i l) (h : l.Keeps) : l.OneSide := by
  rw [← hnum.pairwise_outstanding, ← h.1]
  exact hnum.ordered

theorem numbered_start (i : UInt32) (window : UInt16) : Numbered i (start i window false) :=
  ⟨rfl, (UInt32.add_zero i).symm, rfl, List.Pairwise.nil, le_rfl⟩

theorem keeps_start (i : UInt32) (window : UInt16) : (start i window false).Keeps := by
  rw [keeps_iff_unacked, outstanding]
  exact List.drop_nil.symm

end Link

open Link in
/-- After every prefix of a run the buffer is right if and only if the datagrams to be kept were never on both sides
of the wrap. -/
theorem keeps_iff (i : UInt32) (window : UInt16) {ops : List Op}
    (hacks : Along Link.step PeerAcks (start i window false) ops) :
    (∀ pre, pre <+: ops → (run Link.step (start i window false) pre).Keeps) ↔
      ∀ pre, pre <+: ops → (run Link.step (start i window false) pre).OneSide := by
  have hnum : ∀ pre, Numbered i (run Link.step (start i window false) pre) :=
    invariant_run (Numbered i) (numbered_start i window) fun l op h => h.step op
  refine ⟨fun h pre hpre => (h pre hpre).oneSide (hnum pre), fun h pre => ?_⟩
  induction pre using List.reverseRecOn with
  | nil => exact fun _ => keeps_start i window
  | append_singleton pre op ih =>
    intro hpre
    have hside := h _ hpre
    obtain ⟨post, rfl⟩ := hpre
    rw [List.append_assoc] at hacks ih
    rw [run_concat] at hside ⊢
    exact (ih (List.prefix_append _ _)).step (hnum pre) ((along_append.1 hacks).2.1) hside

/-- Two datagrams, sent to each side of the wrap and not acknowledged: the second is listed first. -/
theorem keeps_iff_wrap : ¬ ∀ pre, pre <+: [Op.send [1], .send [2]] →
    (run Link.step (Link.start 0xFFFFFFFE 64 false) pre).Keeps := by
  intro h
  have hlast := (h _ (List.prefix_refl _)).1
  revert hlast
  decide +kernel

/-- The same, and an acknowledgement, away from the wrap. -/
theorem keeps_iff_away :
    let ops := [Op.send [1], .send [2], .receive (FecHeader.write ⟨101, 64, flags.ACK⟩)]
    (∀ pre, pre <+: ops → (run Link.step (Link.start 100 64 false) pre).Keeps) ↔
      ∀ pre, pre <+: ops → (run Link.step (Link.start 100 64 false) pre).OneSide := by
  intro ops
  refine keeps_iff 100 64 ⟨trivial, trivial, ?_, trivial⟩
  intro header hparse
  rw [show FecHeader.parse (FecHeader.write ⟨101, 64, flags.ACK⟩) = some ⟨101, 64, flags.ACK⟩ from
    FecHeader.parse_write _ []] at hparse
  cases hparse
  decide +kernel

end Rdpio.Pdu.Rdpudp
