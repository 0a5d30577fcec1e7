import Mathlib.Data.List.TakeWhile
import Rdpio.Lib.Bits
import Rdpio.Hyper.Reliable

/-!
# What the sender's queue holds

The chunks of all messages sent so far form one stream, numbered from 1.
-/

namespace Rdpio.Hyper.Reliable

open Lib

def Chunk.wire (c : Chunk) : UInt32 × List UInt8 := (c.seq, c.body)

/-- What only an ack changes of a chunk in the queue. -/
def Chunk.kept (c : Chunk) : UInt32 × List UInt8 × Bool := (c.seq, c.body, c.acked)

def wireFrom : ℕ → List (Bool × List UInt8) → List (UInt32 × List UInt8)
  | _, [] => []
  | n, x :: xs => (UInt32.ofNat n, dataBody (UInt32.ofNat n) x.1 x.2) :: wireFrom (n + 1) xs

theorem wireFrom_append (n : ℕ) (xs ys : List (Bool × List UInt8)) :
    wireFrom n (xs ++ ys) = wireFrom n xs ++ wireFrom (n + xs.length) ys := by
  induction xs generalizing n with
  | nil => rfl
  | cons x xs ih =>
    rw [List.cons_append, wireFrom, wireFrom, ih, List.length_cons, List.cons_append]
    congr 3
    omega

theorem getElem?_wireFrom (n i : ℕ) (xs : List (Bool × List UInt8)) : (wireFrom n xs)[i]? =
      xs[i]?.map fun x => (UInt32.ofNat (n + i), dataBody (UInt32.ofNat (n + i)) x.1 x.2) := by
  induction xs generalizing n i with
  | nil => simp [wireFrom]
  | cons x xs ih =>
    cases i with
    | zero => simp [wireFrom]
    | succ i =>
      rw [wireFrom, List.getElem?_cons_succ, List.getElem?_cons_succ, ih, show n + 1 + i = n + (i + 1) by omega]

@[simp]
theorem length_wireFrom (n : ℕ) (xs : List (Bool × List UInt8)) : (wireFrom n xs).length = xs.length := by
  induction xs generalizing n with
  | nil => rfl
  | cons x xs ih => simp [wireFrom, ih]

/-- The queue is the stream from chunk `front` on, and whatever left it or is marked acknowledged satisfies
`Acc`. -/
structure QueueInv (stream : List (Bool × List UInt8)) (front w : ℕ) (Acc : UInt32 → Prop)
    (q : List Chunk) (backlog : ℕ) : Prop where
  front_pos : 1 ≤ front
  front_le : front ≤ stream.length + 1
  wire : q.map Chunk.wire = wireFrom front (stream.drop (front - 1))
  backlog : backlog = (q.map fun c => c.body.length).sum
  unsent : ∀ c ∈ q.drop w, c.sent = none
  acked : ∀ c ∈ q, c.acked = true → Acc c.seq
  removed : ∀ n, 1 ≤ n → n < front → Acc (UInt32.ofNat n)

section QueueInv

variable {stream : List (Bool × List UInt8)} {front w : ℕ} {Acc : UInt32 → Prop} {q : List Chunk} {backlog : ℕ}

theorem QueueInv.length_eq (h : QueueInv stream front w Acc q backlog) : front + q.length = stream.length + 1 := by
  have hlen := congrArg List.length h.wire
  have := h.front_pos
  have := h.front_le
  rw [List.length_map, length_wireFrom, List.length_drop] at hlen
  omega

theorem QueueInv.getElem? (h : QueueInv stream front w Acc q backlog) {i : ℕ} {c : Chunk}
    (hc : q[i]? = some c) :
    c.seq = UInt32.ofNat (front + i) ∧ ∃ x, stream[front + i - 1]? = some x ∧ c.body = dataBody c.seq x.1 x.2 := by
  have hi := congrArg (fun l => l[i]?) h.wire
  simp only [List.getElem?_map, hc, Option.map_some, getElem?_wireFrom, List.getElem?_drop] at hi
  have := h.front_pos
  rw [show front - 1 + i = front + i - 1 by omega] at hi
  cases hx : stream[front + i - 1]? with
  | none => simp [hx] at hi
  | some x =>
    rw [hx, Option.map_some, Option.some.injEq, Chunk.wire, Prod.mk.injEq] at hi
    exact ⟨hi.1, x, rfl, by rw [hi.1]; exact hi.2⟩

theorem QueueInv.toNat_seq (h : QueueInv stream front w Acc q backlog)
    (hlen : stream.length < 2^31) {i : ℕ} {c : Chunk} (hc : q[i]? = some c) :
    c.seq.toNat = front + i := by
  have hi := (List.getElem?_eq_some_iff.mp hc).1
  have := h.length_eq
  rw [(h.getElem? hc).1, toNat_ofNat_of_lt (by omega)]

theorem QueueInv.pop {c : Chunk} (h : QueueInv stream front w Acc (c :: q) backlog)
    (hc : Acc c.seq) : QueueInv stream (front + 1) w Acc q (backlog - c.body.length) where
  front_pos := by omega
  front_le := by
    have := h.length_eq
    rw [List.length_cons] at this
    omega
  wire := by
    have hpos := h.front_pos
    have hlen := h.length_eq
    rw [List.length_cons] at hlen
    have hwire := h.wire
    rw [List.drop_eq_getElem_cons (by omega), wireFrom, List.map_cons, List.cons.injEq] at hwire
    rw [hwire.2]
    congr 2
    omega
  backlog := by
    have hb := h.backlog
    rw [List.map_cons, List.sum_cons] at hb
    omega
  unsent c' hc' := h.unsent c' (by
    have hsub : q.drop w ⊆ (c :: q).drop w := by
      cases w with
      | zero => exact List.subset_cons_self c q
      | succ w => exact List.drop_subset_drop_left q (Nat.le_succ w)
    exact hsub hc')
  acked c' hc' := h.acked c' (List.mem_cons_of_mem c hc')
  removed n hn hlt := by
    rcases Nat.lt_succ_iff_lt_or_eq.mp hlt with hlt | rfl
    · exact h.removed n hn hlt
    · have := (h.getElem? (i := 0) rfl).1
      rwa [this] at hc

theorem QueueInv.update {win win' rest : List Chunk}
    (h : QueueInv stream front w Acc (win ++ rest) backlog) (hw : win.length ≤ w)
    (hkept : win'.map Chunk.kept = win.map Chunk.kept) :
    QueueInv stream front w Acc (win' ++ rest) backlog where
  front_pos := h.front_pos
  front_le := h.front_le
  wire := by
    have hwire := congrArg (List.map fun k => (k.1, k.2.1)) hkept
    rw [List.map_map, List.map_map] at hwire
    rw [← h.wire, List.map_append, List.map_append]
    exact congrArg (· ++ rest.map Chunk.wire) hwire
  backlog := by
    have hbody := congrArg (List.map fun k => k.2.1.length) hkept
    rw [List.map_map, List.map_map] at hbody
    rw [h.backlog, List.map_append, List.map_append]
    exact congrArg (fun l => (l ++ rest.map fun c => c.body.length).sum) hbody.symm
  unsent c hc := by
    have hlen : win'.length = win.length := by simpa using congrArg List.length hkept
    apply h.unsent c
    rw [List.drop_append, List.drop_of_length_le (by omega), List.nil_append] at hc ⊢
    rwa [hlen] at hc
  acked c hc hac := by
    rcases List.mem_append.mp hc with hc | hc
    · have hmem : c.kept ∈ win.map Chunk.kept := hkept ▸ List.mem_map_of_mem hc
      obtain ⟨c₀, hc₀, heq⟩ := List.mem_map.mp hmem
      simp only [Chunk.kept, Prod.mk.injEq] at heq
      rw [← heq.1]
      exact h.acked c₀ (List.mem_append_left _ hc₀) (by rw [heq.2.2, hac])
    · exact h.acked c (List.mem_append_right _ hc) hac
  removed := h.removed

theorem QueueInv.widen (h : QueueInv stream front w Acc q backlog) {w' : ℕ} (hw : w ≤ w') :
    QueueInv stream front w' Acc q backlog :=
  { h with unsent := fun c hc => h.unsent c (List.drop_subset_drop_left q hw hc) }

theorem QueueInv.mono (h : QueueInv stream front w Acc q backlog) {Acc' : UInt32 → Prop}
    (hAcc : ∀ s, Acc s → Acc' s) : QueueInv stream front w Acc' q backlog :=
  { h with
    acked := fun c hc hac => hAcc _ (h.acked c hc hac)
    removed := fun n hn hlt => hAcc _ (h.removed n hn hlt) }

end QueueInv

/-- The fields that the invariant speaks about. -/
def Sender.core (s : Sender) : UInt32 × List Chunk × ℕ × Bool := (s.next_seq, s.queue, s.backlog_bytes, s.wide)

def Sender.Inv (stream : List (Bool × List UInt8)) (front : ℕ) (Acc : UInt32 → Prop) (s : Sender) : Prop :=
  s.next_seq = UInt32.ofNat (stream.length + 1) ∧ QueueInv stream front s.span Acc s.queue s.backlog_bytes

theorem Sender.Inv.congr {stream : List (Bool × List UInt8)} {front : ℕ} {Acc : UInt32 → Prop}
    {s t : Sender} (h : s.Inv stream front Acc) (hcore : t.core = s.core) :
    t.Inv stream front Acc := by
  simp only [Sender.core, Prod.mk.injEq] at hcore
  obtain ⟨h1, h2, h3, h4⟩ := hcore
  unfold Sender.Inv Sender.span at *
  rwa [h1, h2, h3, h4]

theorem Sender.inv_new (Acc : UInt32 → Prop) : Sender.new.Inv [] 1 Acc := by
  refine ⟨rfl, ?_⟩
  constructor
  case removed => intro n hn hlt; omega
  all_goals simp [Sender.new, wireFrom]

@[simp]
theorem Sender.core_onCongestion (s : Sender) (tx : ℕ) (cause : Cut) : (s.onCongestion tx cause).core = s.core := by
  unfold Sender.onCongestion
  split <;> rfl

@[simp]
theorem Sender.core_refill (s : Sender) (now : Instant) : (s.refill now).core = s.core := by
  unfold Sender.refill
  split <;> rfl

@[simp]
theorem Sender.core_foldSample (s : Sender) (now : Instant) (rtt : Duration) (tx : ℕ) :
    (s.foldSample now rtt tx).1.core = s.core := by
  unfold Sender.foldSample
  dsimp only
  split
  · split <;> rfl
  · rfl

@[simp]
theorem Sender.core_adjust (s : Sender) (lost_tx queued_tx : Option ℕ) (newly : ℕ) :
    (s.adjust lost_tx queued_tx newly).core = s.core := by
  unfold Sender.adjust
  dsimp only
  split
  · simp
  · split <;> rfl

def flagged (msg : List UInt8) : List (Bool × List UInt8) :=
  (messageChunks msg).zipIdx.map fun ci => (ci.2 == (messageChunks msg).length - 1, ci.1)

def streamOf (msgs : List (List UInt8)) : List (Bool × List UInt8) := msgs.flatMap flagged

theorem Sender.Inv.pushChunk {stream : List (Bool × List UInt8)} {front : ℕ} {Acc : UInt32 → Prop}
    {s : Sender} (h : s.Inv stream front Acc) (last : Bool) (c : List UInt8) :
    (s.pushChunk last c).Inv (stream ++ [(last, c)]) front Acc := by
  obtain ⟨hnext, hq⟩ := h
  have hpos := hq.front_pos
  have hle := hq.front_le
  refine ⟨?_, hq.front_pos, ?_, ?_, ?_, ?_, ?_, hq.removed⟩
  · simp only [Sender.pushChunk, hnext, List.length_append, List.length_singleton]
    rw [UInt32.ofNat_add (stream.length + 1) 1]
    rfl
  · rw [List.length_append]
    omega
  · have hd : (stream ++ [(last, c)]).drop (front - 1) = stream.drop (front - 1) ++ [(last, c)] := by
      rw [List.drop_append_of_le_length (by omega)]
    rw [hd, wireFrom_append, ← hq.wire, List.length_drop]
    simp only [Sender.pushChunk, List.map_append, List.map_singleton, Chunk.wire, wireFrom, hnext]
    rw [show front + (stream.length - (front - 1)) = stream.length + 1 by omega]
  · simp [Sender.pushChunk, hq.backlog]
  · intro c' hc'
    simp only [Sender.pushChunk, List.drop_append, List.mem_append] at hc'
    rcases hc' with hc' | hc'
    · exact hq.unsent c' hc'
    · have := List.mem_of_mem_drop hc'
      rw [List.mem_singleton] at this
      rw [this]
  · intro c' hc' hac
    simp only [Sender.pushChunk, List.mem_append, List.mem_singleton] at hc'
    rcases hc' with hc' | rfl
    · exact hq.acked c' hc' hac
    · simp at hac

theorem Sender.Inv.send {stream : List (Bool × List UInt8)} {front : ℕ} {Acc : UInt32 → Prop}
    {s : Sender} (h : s.Inv stream front Acc) (msg : List UInt8) :
    (s.send msg).Inv (stream ++ flagged msg) front Acc := by
  unfold Sender.send flagged
  dsimp only
  generalize (messageChunks msg).length - 1 = last
  induction (messageChunks msg).zipIdx generalizing s stream with
  | nil => simpa using h
  | cons ci cs ih =>
    rw [List.foldl_cons, List.map_cons, List.append_cons]
    exact ih (h.pushChunk (ci.2 == last) ci.1)

theorem Sender.window_append (s : Sender) : s.window.1 ++ s.window.2 = s.queue := by
  exact List.takeWhile_append_dropWhile

theorem Sender.Inv.length_window_le {stream : List (Bool × List UInt8)} {front : ℕ}
    {Acc : UInt32 → Prop} {s : Sender} (h : s.Inv stream front Acc)
    (hlen : stream.length < 2^31) : s.window.1.length ≤ s.span := by
  by_contra hlt
  rw [not_le] at hlt
  have happ := s.window_append
  have hq : s.queue[s.span]? = some (s.window.1[s.span]) := by
    rw [← happ, List.getElem?_append_left hlt, List.getElem?_eq_getElem]
  have hin := List.mem_takeWhile_imp (List.getElem_mem hlt)
  -- The chunk at position `span` is not within `span` of the front.
  have hseq := h.2.toNat_seq hlen hq
  have hfront : ((s.queue.head?.map Chunk.seq).getD 0).toNat = front := by
    cases hs : s.queue with
    | nil => simp [hs] at hq
    | cons c cs =>
      rw [List.head?_cons, Option.map_some, Option.getD_some]
      exact h.2.toNat_seq hlen (i := 0) (by rw [hs]; rfl)
  unfold Sender.inWindow at hin
  rw [decide_eq_true_eq, toNat_sub_of_le (by omega)] at hin
  omega

theorem Sender.Inv.updateWindow {stream : List (Bool × List UInt8)} {front : ℕ}
    {Acc : UInt32 → Prop} {s : Sender} (h : s.Inv stream front Acc)
    (hlen : stream.length < 2^31) {win : List Chunk}
    (hkept : win.map Chunk.kept = s.window.1.map Chunk.kept) :
    Sender.Inv stream front Acc { s with queue := win ++ s.window.2 } := by
  refine ⟨h.1, ?_⟩
  have hq := h.2
  rw [← s.window_append] at hq
  exact hq.update (h.length_window_le hlen) hkept

theorem kept_pollTimeouts (now : Instant) (rto : Duration) (cs : List Chunk) (in_flight : Float)
    (lost_tx : Option ℕ) :
    (pollTimeouts now rto cs in_flight lost_tx).1.map Chunk.kept = cs.map Chunk.kept := by
  induction cs generalizing in_flight lost_tx with
  | nil => rfl
  | cons c cs ih =>
    unfold pollTimeouts
    split_ifs <;> simp [ih, Chunk.kept]

theorem kept_pollSend (now : Instant) (cwnd : Float) (paced : Bool) (cs : List Chunk) (p : SendPass) :
    (pollSend now cwnd paced cs p).1.map Chunk.kept = cs.map Chunk.kept := by
  induction cs generalizing p with
  | nil => rfl
  | cons c cs ih =>
    unfold pollSend
    split_ifs <;> simp [ih, Chunk.kept, Chunk.transmit]

theorem mem_out_pollSend (now : Instant) (cwnd : Float) (paced : Bool) (cs : List Chunk)
    (p : SendPass) {b : List UInt8} (hb : b ∈ (pollSend now cwnd paced cs p).2.out) :
    b ∈ p.out ∨ ∃ c ∈ cs, c.body = b := by
  induction cs generalizing p with
  | nil => exact .inl hb
  | cons c cs ih =>
    unfold pollSend at hb
    split_ifs at hb
    · -- Acknowledged or in flight: passed over.
      rcases ih _ hb with hb | ⟨c', hc', rfl⟩
      · exact .inl hb
      · exact .inr ⟨c', List.mem_cons_of_mem c hc', rfl⟩
    · exact .inl hb
    · exact .inl hb
    · rcases ih _ hb with hb | ⟨c', hc', rfl⟩
      · rcases List.mem_append.mp hb with hb | hb
        · exact .inl hb
        · exact .inr ⟨c, List.mem_cons_self, (List.mem_singleton.mp hb).symm⟩
      · exact .inr ⟨c', List.mem_cons_of_mem c hc', rfl⟩

def spanBodies (stream : List (Bool × List UInt8)) (front w : ℕ) : Set (List UInt8) :=
  {b | ∃ n x, front ≤ n ∧ n < front + w ∧ stream[n - 1]? = some x ∧ b = dataBody (UInt32.ofNat n) x.1 x.2}

theorem Sender.Inv.body_mem_spanBodies {stream : List (Bool × List UInt8)} {front : ℕ}
    {Acc : UInt32 → Prop} {s : Sender} (h : s.Inv stream front Acc)
    (hlen : stream.length < 2^31) {c : Chunk} (hc : c ∈ s.window.1) :
    c.body ∈ spanBodies stream front s.span := by
  obtain ⟨i, hi⟩ := List.mem_iff_getElem?.mp hc
  have hlt := (List.getElem?_eq_some_iff.mp hi).1
  have hw := h.length_window_le hlen
  have hq : s.queue[i]? = some c := by rw [← s.window_append, List.getElem?_append_left hlt, hi]
  obtain ⟨hseq, x, hx, hbody⟩ := h.2.getElem? hq
  exact ⟨front + i, x, by omega, by omega, hx, by rw [hbody, hseq]⟩

theorem Sender.Inv.poll {stream : List (Bool × List UInt8)} {front : ℕ} {Acc : UInt32 → Prop}
    {s : Sender} (h : s.Inv stream front Acc) (hlen : stream.length < 2^31) (now : Instant) :
    (s.poll now).1.Inv stream front Acc ∧ ∀ b ∈ (s.poll now).2, b ∈ spanBodies stream front s.span := by
  have hspan : ∀ t : Sender, t.core = s.core → t.span = s.span := by
    intro t ht
    simp only [Sender.core, Prod.mk.injEq] at ht
    unfold Sender.span
    rw [ht.2.2.2]
  unfold Sender.poll
  dsimp only
  -- Refill, then the timeout pass and its cut: the queue keeps what it must.
  have h1 : (s.refill now).Inv stream front Acc := h.congr (s.core_refill now)
  have hs1 := hspan _ (s.core_refill now)
  generalize s.refill now = s1 at h1 hs1 ⊢
  generalize ht : pollTimeouts now s1.rto s1.window.1 0.0 none = t
  have h2 : Sender.Inv stream front Acc { s1 with queue := t.1 ++ s1.window.2 } :=
    h1.updateWindow hlen (by rw [← ht, kept_pollTimeouts])
  have hs2 : Sender.span { s1 with queue := t.1 ++ s1.window.2 } = s.span := hs1
  generalize ({ s1 with queue := t.1 ++ s1.window.2 } : Sender) = s2 at h2 hs2 ⊢
  have hcut : (t.2.2.elim s2 fun tx => s2.onCongestion tx .timeout).core = s2.core := by
    cases t.2.2 <;> simp
  have h3 := h2.congr hcut
  have hs3 : (t.2.2.elim s2 fun tx => s2.onCongestion tx .timeout).span = s.span := by
    rw [← hs2]
    simp only [Sender.core, Prod.mk.injEq] at hcut
    unfold Sender.span
    rw [hcut.2.2.2]
  generalize (t.2.2.elim s2 fun tx => s2.onCongestion tx .timeout) = s3 at h3 hs3 ⊢
  -- The sending pass.
  constructor
  · exact (h3.updateWindow hlen (kept_pollSend _ _ _ _ _)).congr rfl
  · intro b hb
    rcases mem_out_pollSend _ _ _ _ _ hb with hb | ⟨c, hc, rfl⟩
    · simp at hb
    · rw [← hs3]
      exact h3.body_mem_spanBodies hlen hc

/-! ## Acks -/

theorem QueueInv.popCumulative {stream : List (Bool × List UInt8)} {front w : ℕ}
    {Acc : UInt32 → Prop} {q : List Chunk} {backlog : ℕ}
    (h : QueueInv stream front w Acc q backlog) (hlen : stream.length < 2^31) (now : Instant)
    {cum : UInt32} (hcum : cum.toNat < 2^31)
    (hAcc : ∀ n, 1 ≤ n → n ≤ cum.toNat → Acc (UInt32.ofNat n)) (a : AckPass) :
    ∃ front', QueueInv stream front' w Acc (popCumulative now cum q backlog a).1
      (popCumulative now cum q backlog a).2.1 := by
  induction q generalizing front backlog a with
  | nil => exact ⟨front, h⟩
  | cons c q ih =>
    unfold Reliable.popCumulative
    split_ifs with hle
    · -- The chunk at the front is at most `cum`.
      have hseq := h.toNat_seq hlen (i := 0) rfl
      have hpos := h.front_pos
      have hlt := h.length_eq
      rw [List.length_cons] at hlt
      rw [asI32_sub (by omega) hcum] at hle
      have hacc : Acc c.seq := by
        rw [(h.getElem? (i := 0) rfl).1]
        exact hAcc _ (by omega) (by omega)
      exact ih (h.pop hacc) _
    · exact ⟨front, h⟩

theorem QueueInv.selectiveStep {stream : List (Bool × List UInt8)} {front w : ℕ}
    {Acc : UInt32 → Prop} {qa : List Chunk × AckPass} {backlog : ℕ}
    (h : QueueInv stream front w Acc qa.1 backlog) (now : Instant) (cum fr : UInt32)
    (bits : List UInt8) (i : ℕ) (hbit : ackBit bits i = true → Acc (cum + 1 + UInt32.ofNat i)) :
    QueueInv stream front w Acc (selectiveStep now cum fr bits qa i).1 backlog := by
  unfold Reliable.selectiveStep
  dsimp only
  split_ifs with hset
  · generalize (cum + 1 + UInt32.ofNat i - fr).toNat = idx
    split
    · exact h
    · next c hc =>
      split_ifs with hseq
      · -- The chunk marked: only `acked` and `lost` change.
        obtain ⟨hidx, hget⟩ := List.getElem?_eq_some_iff.mp hc
        constructor
        · exact h.front_pos
        · exact h.front_le
        · rw [List.map_set, ← h.wire]
          apply List.ext_getElem?
          intro j
          rw [List.getElem?_set]
          split_ifs with hij hj
          · subst hij
            simp [Chunk.wire, hget, hidx]
          · subst hij
            simp only [List.length_map] at hj
            omega
          · rfl
        · rw [h.backlog]
          congr 1
          rw [List.map_set]
          apply List.ext_getElem?
          intro j
          rw [List.getElem?_set]
          split_ifs with hij hj
          · subst hij
            simp [hget, hidx]
          · subst hij
            simp only [List.length_map] at hj
            omega
          · rfl
        · intro c' hc'
          obtain ⟨j, hj⟩ := List.mem_iff_getElem?.mp hc'
          rw [List.getElem?_drop, List.getElem?_set] at hj
          split_ifs at hj with h1
          · simp only [Option.some.injEq] at hj
            rw [← hj]
            refine h.unsent c (List.mem_iff_getElem?.mpr ⟨j, ?_⟩)
            rw [List.getElem?_drop, ← h1, hc]
          · exact h.unsent c' (List.mem_iff_getElem?.mpr ⟨j, by rw [List.getElem?_drop, hj]⟩)
        · intro c' hc' hac
          rcases List.mem_or_eq_of_mem_set hc' with hc' | rfl
          · exact h.acked c' hc' hac
          · rw [hseq]
            exact hbit hset
        · exact h.removed
      · exact h
  · exact h

theorem kept_detectLoss (acked_tx : ℕ) (cs : List Chunk) (lost_tx : Option ℕ) :
    (detectLoss acked_tx cs lost_tx).1.map Chunk.kept = cs.map Chunk.kept := by
  induction cs generalizing lost_tx with
  | nil => rfl
  | cons c cs ih =>
    unfold detectLoss
    split_ifs <;> simp [ih, Chunk.kept]

theorem QueueInv.popAcked {stream : List (Bool × List UInt8)} {front w : ℕ} {Acc : UInt32 → Prop}
    {q : List Chunk} {backlog : ℕ} (h : QueueInv stream front w Acc q backlog) :
    ∃ front', QueueInv stream front' w Acc (popAcked q backlog).1 (popAcked q backlog).2 := by
  induction q generalizing front backlog with
  | nil => exact ⟨front, h⟩
  | cons c q ih =>
    unfold Reliable.popAcked
    split_ifs with hac
    · exact ih (h.pop (h.acked c List.mem_cons_self hac))
    · exact ⟨front, h⟩

theorem Sender.Inv.foldAck {stream : List (Bool × List UInt8)} {front : ℕ} {Acc : UInt32 → Prop}
    {s : Sender} (h : s.Inv stream front Acc) (hlen : stream.length < 2^31) (now : Instant)
    {cum : UInt32} {bits : List UInt8} (hcum : cum.toNat < 2^31)
    (hAcc : ∀ n, 1 ≤ n → n ≤ cum.toNat → Acc (UInt32.ofNat n))
    (hbits : ∀ i, i < bits.length * 8 → ackBit bits i = true → Acc (cum + 1 + UInt32.ofNat i)) :
    ∃ front', (s.foldAck cum bits now).1.Inv stream front' Acc := by
  obtain ⟨front', hp⟩ := h.2.popCumulative hlen now hcum hAcc ⟨0, s.acked_tx, none⟩
  refine ⟨front', h.1, ?_⟩
  unfold Sender.foldAck
  dsimp only
  generalize Reliable.popCumulative now cum s.queue s.backlog_bytes ⟨0, s.acked_tx, none⟩ = p at hp ⊢
  cases p.1.head? with
  | none => exact hp
  | some fr =>
    rw [Option.elim_some]
    refine List.foldlRecOn (motive := fun qa : List Chunk × AckPass =>
      QueueInv stream front' s.span Acc qa.1 p.2.1) _ _ hp ?_
    intro qa hqa i hi
    rw [List.mem_range] at hi
    exact hqa.selectiveStep now cum fr.seq bits i (hbits i (by omega))

theorem Sender.Inv.settle {stream : List (Bool × List UInt8)} {front : ℕ} {Acc : UInt32 → Prop}
    {s : Sender} (h : s.Inv stream front Acc) (hlen : stream.length < 2^31) (a : AckPass)
    (now : Instant) : ∃ front', (s.settle a now).Inv stream front' Acc := by
  unfold Sender.settle
  dsimp only
  generalize hl : detectLoss s.acked_tx s.window.1 none = l
  have h2 : Sender.Inv stream front Acc { s with queue := l.1 ++ s.window.2 } :=
    h.updateWindow hlen (by rw [← hl, kept_detectLoss])
  generalize ({ s with queue := l.1 ++ s.window.2 } : Sender) = s2 at h2 ⊢
  have hg : (a.sample.elim (s2, none) fun x => s2.foldSample now x.1 x.2).1.core = s2.core := by
    cases a.sample <;> simp
  generalize (a.sample.elim (s2, none) fun x => s2.foldSample now x.1 x.2) = g at hg ⊢
  have h3 := (h2.congr hg).congr (g.1.core_adjust l.2 g.2 a.newly)
  generalize g.1.adjust l.2 g.2 a.newly = s3 at h3 ⊢
  obtain ⟨front', hpop⟩ := h3.2.popAcked
  exact ⟨front', h3.1, hpop⟩

theorem Sender.Inv.onAck {stream : List (Bool × List UInt8)} {front : ℕ} {Acc : UInt32 → Prop}
    {s : Sender} (h : s.Inv stream front Acc) (hlen : stream.length < 2^31) (body : List UInt8)
    (now : Instant)
    (hack : ∀ cum bits, parseAck body = some (cum, bits) → cum.toNat < 2^31 ∧
      (∀ n, 1 ≤ n → n ≤ cum.toNat → Acc (UInt32.ofNat n)) ∧
      ∀ i, i < bits.length * 8 → ackBit bits i = true → Acc (cum + 1 + UInt32.ofNat i)) :
    ∃ front', (s.onAck body now).Inv stream front' Acc := by
  unfold Sender.onAck
  split
  · exact ⟨front, h⟩
  · next cum bits hparse =>
    obtain ⟨hcum, hAcc, hbits⟩ := hack cum bits hparse
    have hwide : Sender.Inv stream front Acc
        { s with wide := s.wide || bitmapBytes < bits.length } := by
      refine ⟨h.1, h.2.widen ?_⟩
      have : Reliable.span ≤ wideSpan := by decide
      unfold Sender.span
      cases s.wide <;> cases decide (bitmapBytes < bits.length) <;> simp [this]
    dsimp only
    split_ifs with hneg
    · exact ⟨front, hwide⟩
    · obtain ⟨front', hf⟩ := hwide.foldAck hlen now hcum hAcc hbits
      exact hf.settle hlen _ now

end Rdpio.Hyper.Reliable
