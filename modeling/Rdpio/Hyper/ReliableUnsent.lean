import Rdpio.Lib.Run
import Rdpio.Hyper.ReliableSender

/-!
# Acks for what was never sent

The guard of `Sender.onAck` compares the cumulative number of an ack with the last number assigned, not the
last one sent, and its bitmap is applied to whatever is queued.
-/

namespace Rdpio.Hyper.Reliable

open Lib

def Chunk.unsent (c : Chunk) : Bool := c.sent.isNone

def Chunk.upTo (cum : UInt32) (c : Chunk) : Bool := asI32 (c.seq - cum) ≤ 0

def Chunk.mark (c : Chunk) : Chunk := { c with acked := true, lost := false }

def totalLen (cs : List Chunk) : ℕ := (cs.map fun c => c.body.length).sum

def chunkAt (q : List Chunk) (seq : UInt32) : Option Chunk :=
  q.head?.bind fun front => q[(seq - front.seq).toNat]?.filter (·.seq == seq)

def Sender.named (s : Sender) (body : List UInt8) : List Chunk :=
  match parseAck body with
  | none => []
  | some (cum, bits) =>
    if 0 ≤ asI32 (cum - s.next_seq) then []
    else
      s.queue.takeWhile (Chunk.upTo cum) ++
        (List.range (min (bits.length * 8) { s with wide := s.wide || bitmapBytes < bits.length }.span)).filterMap
          fun i => if ackBit bits i then chunkAt (s.queue.dropWhile (Chunk.upTo cum)) (cum + 1 + UInt32.ofNat i)
            else none

/-! ## Runs of a sender -/

inductive Op where
  | send (msg : List UInt8)
  | poll (now : Instant)
  | ack (body : List UInt8) (now : Instant)
  | setRate (bps : Option ℕ)
  | setQueueLimit (limit : Duration)
  | setJitterTolerant (on : Bool)

structure Feed where
  sender : Sender
  queued : List (List UInt8)
  out : List (List UInt8)

namespace Feed

def new : Feed := ⟨Sender.new, [], []⟩

def step (f : Feed) : Op → Feed
  | .send msg =>
    { f with
      sender := f.sender.send msg
      queued := f.queued ++ (wireFrom f.sender.next_seq.toNat (flagged msg)).map Prod.snd }
  | .poll now => { f with sender := (f.sender.poll now).1, out := f.out ++ (f.sender.poll now).2 }
  | .ack body now => { f with sender := f.sender.onAck body now }
  | .setRate bps => { f with sender := f.sender.setRate bps }
  | .setQueueLimit limit => { f with sender := f.sender.setQueueLimit limit }
  | .setJitterTolerant on => { f with sender := f.sender.setJitterTolerant on }

def unsent (f : Feed) : List Chunk := f.sender.queue.filter Chunk.unsent

/-- What was queued has gone out, in order, but for what still waits to. -/
def Complete (f : Feed) : Prop := ∃ t, t.Sublist f.out ∧ f.queued = t ++ f.unsent.map Chunk.body

/-- The step leaves the chunks still to be transmitted as they are, if it is an ack, and nothing queued is lost. -/
def Keeps (f : Feed) (op : Op) : Prop :=
  (∀ body now, op = .ack body now → (f.step op).unsent = f.unsent) ∧ (f.step op).Complete

def Counts (f : Feed) (op : Op) : Prop :=
  (f.step op).sender.backlog = totalLen (f.step op).sender.queue ∧ ∀ body now, op = .ack body now →
      f.sender.backlog = (f.step op).sender.backlog +
        totalLen (f.sender.queue.take (f.sender.queue.length - (f.step op).sender.queue.length))

/-- An ack names only chunks that were transmitted. -/
def NamesSent (f : Feed) (op : Op) : Prop :=
  ∀ body now, op = .ack body now → ∀ c ∈ f.sender.named body, c.sent.isSome = true

end Feed

/-! ## Chunks that fade

Declaring a chunk lost changes nothing that matters here, and happens to transmitted chunks only. -/

/-- The same chunk, unless it was transmitted and is now declared lost. -/
def Chunk.Fades (c c' : Chunk) : Prop := c' = c ∨ c.sent.isSome = true ∧ c' = { c with lost := true }

/-- Every chunk that is marked acknowledged was transmitted. -/
def AckedSent (q : List Chunk) : Prop := ∀ c ∈ q, c.acked = true → c.sent.isSome = true

theorem Chunk.unsent_eq_false_iff (c : Chunk) : c.unsent = false ↔ c.sent.isSome = true := by
  unfold Chunk.unsent
  cases c.sent <;> simp

theorem fades_refl (q : List Chunk) : List.Forall₂ Chunk.Fades q q := by
  induction q with
  | nil => exact .nil
  | cons c q ih => exact .cons (.inl rfl) ih

section Fades

variable {q q' : List Chunk} (h : List.Forall₂ Chunk.Fades q q')

include h

theorem filter_unsent_of_fades : q'.filter Chunk.unsent = q.filter Chunk.unsent := by
  induction h with
  | nil => rfl
  | cons hc _ ih =>
    obtain rfl | ⟨hsent, rfl⟩ := hc
    · rw [List.filter_cons, List.filter_cons, ih]
    · have hold := (Chunk.unsent_eq_false_iff _).2 hsent
      rw [List.filter_cons_of_neg (by rw [Bool.not_eq_true]; exact hold),
        List.filter_cons_of_neg (by rw [Bool.not_eq_true]; exact hold), ih]

theorem totalLen_of_fades : totalLen q' = totalLen q := by
  induction h with
  | nil => rfl
  | cons hc _ ih =>
    unfold totalLen at ih ⊢
    obtain rfl | ⟨-, rfl⟩ := hc <;> rw [List.map_cons, List.map_cons, List.sum_cons, List.sum_cons, ih]

theorem AckedSent.of_fades (hq : AckedSent q) : AckedSent q' := by
  induction h with
  | nil => exact hq
  | cons hc _ ih =>
    have htail := ih fun c hmem => hq c (List.mem_cons_of_mem _ hmem)
    have hhead := hq _ List.mem_cons_self
    rintro c (hmem | ⟨_, hmem⟩)
    · obtain rfl | ⟨hsent, rfl⟩ := hc
      · exact hhead
      · exact fun _ => hsent
    · exact htail c hmem

end Fades

theorem sent_of_inFlight {c : Chunk} (h : c.inFlight = true) : c.sent.isSome = true := by
  simp only [Chunk.inFlight, Bool.and_eq_true] at h
  exact h.1.1

theorem fades_detectLoss (acked_tx : ℕ) (cs : List Chunk) (lost_tx : Option ℕ) :
    List.Forall₂ Chunk.Fades cs (detectLoss acked_tx cs lost_tx).1 := by
  induction cs generalizing lost_tx with
  | nil => exact .nil
  | cons c cs ih =>
    unfold detectLoss
    split_ifs with hlost
    · rw [Bool.and_eq_true] at hlost
      exact .cons (.inr ⟨sent_of_inFlight hlost.1, rfl⟩) (ih _)
    · exact .cons (.inl rfl) (ih _)

theorem fades_pollTimeouts (now : Instant) (rto : Duration) (cs : List Chunk) (in_flight : Float)
    (lost_tx : Option ℕ) : List.Forall₂ Chunk.Fades cs (pollTimeouts now rto cs in_flight lost_tx).1 := by
  induction cs generalizing in_flight lost_tx with
  | nil => exact .nil
  | cons c cs ih =>
    unfold pollTimeouts
    split_ifs with hflight hdue
    · exact .cons (.inl rfl) (ih _ _)
    · have : c.inFlight = true := by simpa using hflight
      exact .cons (.inr ⟨sent_of_inFlight this, rfl⟩) (ih _ _)
    · exact .cons (.inl rfl) (ih _ _)

@[simp]
theorem totalLen_append (xs ys : List Chunk) : totalLen (xs ++ ys) = totalLen xs + totalLen ys := by
  simp [totalLen]

theorem totalLen_cons (c : Chunk) (cs : List Chunk) : totalLen (c :: cs) = c.body.length + totalLen cs := by
  simp [totalLen]

theorem popCumulative_eq (now : Instant) (cum : UInt32) (q : List Chunk) (backlog : ℕ) (a : AckPass) :
    (popCumulative now cum q backlog a).1 = q.dropWhile (Chunk.upTo cum) ∧
      (popCumulative now cum q backlog a).2.1 = backlog - totalLen (q.takeWhile (Chunk.upTo cum)) := by
  induction q generalizing backlog a with
  | nil => exact ⟨rfl, rfl⟩
  | cons c q ih =>
    unfold popCumulative
    split_ifs with hle
    · have hup : Chunk.upTo cum c = true := decide_eq_true hle
      rw [List.dropWhile_cons_of_pos hup, List.takeWhile_cons_of_pos hup, totalLen_cons, ← Nat.sub_sub]
      exact ih _ _
    · have hup : ¬ Chunk.upTo cum c = true := by simpa [Chunk.upTo] using hle
      rw [List.dropWhile_cons_of_neg hup, List.takeWhile_cons_of_neg hup]
      exact ⟨rfl, rfl⟩

theorem popAcked_eq (q : List Chunk) (backlog : ℕ) :
    popAcked q backlog = (q.dropWhile Chunk.acked, backlog - totalLen (q.takeWhile Chunk.acked)) := by
  induction q generalizing backlog with
  | nil => rfl
  | cons c q ih =>
    unfold popAcked
    split_ifs with hac
    · rw [List.dropWhile_cons_of_pos hac, List.takeWhile_cons_of_pos hac, totalLen_cons, ← Nat.sub_sub]
      exact ih _
    · rw [List.dropWhile_cons_of_neg hac, List.takeWhile_cons_of_neg hac]
      rfl

/-! ## The bits of an ack -/

def hits (cum front : UInt32) (bits : List UInt8) (j : ℕ) (c : Chunk) (i : ℕ) : Bool :=
  ackBit bits i && ((cum + 1 + UInt32.ofNat i - front).toNat == j && c.seq == cum + 1 + UInt32.ofNat i)

theorem selectiveStep_fst (now : Instant) (cum front : UInt32) (bits : List UInt8) (qa : List Chunk × AckPass)
    (i : ℕ) :
    (selectiveStep now cum front bits qa i).1 =
      qa.1.mapIdx fun j c => if hits cum front bits j c i then c.mark else c := by
  unfold selectiveStep
  dsimp only
  apply List.ext_getElem?
  intro j
  rw [List.getElem?_mapIdx]
  unfold hits
  split_ifs with hbit
  · generalize hseq : cum + 1 + UInt32.ofNat i = seq
    generalize hidx : (seq - front).toNat = idx
    split
    · next hnone =>
      cases hj : qa.1[j]? with
      | none => rfl
      | some c =>
        have hne : idx ≠ j := by
          rintro rfl
          rw [hnone] at hj
          cases hj
        simp [hne]
    · next c hc =>
      split_ifs with hcseq
      · rw [List.getElem?_set]
        split_ifs with hij hlt
        · subst hij
          simp [hbit, hc, hcseq, Chunk.mark]
        · subst hij
          exact absurd (List.getElem?_eq_some_iff.1 hc).1 hlt
        · cases qa.1[j]? <;> simp [hij]
      · cases hj : qa.1[j]? with
        | none => rfl
        | some c' =>
          rcases eq_or_ne idx j with rfl | hij
          · rw [hc, Option.some.injEq] at hj
            subst hj
            simp [hcseq]
          · simp [hij]
  · cases qa.1[j]? <;> simp [hbit]

theorem foldl_selectiveStep_fst (now : Instant) (cum front : UInt32) (bits : List UInt8) (is : List ℕ)
    (qa : List Chunk × AckPass) :
    (is.foldl (selectiveStep now cum front bits) qa).1 =
      qa.1.mapIdx fun j c => if is.any (hits cum front bits j c) then c.mark else c := by
  induction is generalizing qa with
  | nil => exact List.ext_getElem? fun j => by simp
  | cons i is ih =>
    rw [List.foldl_cons, ih, selectiveStep_fst, List.mapIdx_mapIdx]
    congr 1
    funext j c
    have hsame : hits cum front bits j c.mark = hits cum front bits j c := rfl
    simp only [Function.comp_apply, List.any_cons]
    rcases Bool.eq_false_or_eq_true (hits cum front bits j c i) with hi | hi
    · simp only [hi, if_true, Bool.true_or, hsame]
      split_ifs <;> rfl
    · simp [hi]

def markAll (cum : UInt32) (bits : List UInt8) (n : ℕ) (q : List Chunk) : List Chunk :=
  q.mapIdx fun j c =>
    if (List.range n).any (hits cum ((q.head?.map Chunk.seq).getD 0) bits j c) then c.mark else c

theorem mem_chunkAt_iff {q : List Chunk} {seq : UInt32} {c : Chunk} : chunkAt q seq = some c ↔
      q[(seq - (q.head?.map Chunk.seq).getD 0).toNat]? = some c ∧ c.seq = seq := by
  unfold chunkAt
  cases q with
  | nil => simp
  | cons front q => simp [Option.filter_eq_some_iff]

theorem filter_mapIdx_eq_iff {α : Type*} {p : α → Bool} {l : List α} {f : ℕ → α → α}
    (hp : ∀ i a, p (f i a) = p a) :
    (l.mapIdx f).filter p = l.filter p ↔ ∀ i a, l[i]? = some a → p a = true → f i a = a := by
  induction l generalizing f with
  | nil => simp
  | cons x l ih =>
    have htail := ih (f := fun i => f (i + 1)) fun i a => hp (i + 1) a
    rw [List.mapIdx_cons, List.filter_cons, List.filter_cons, hp]
    constructor
    · intro h i a hi ha
      cases i with
      | zero =>
        rw [List.getElem?_cons_zero, Option.some.injEq] at hi
        subst hi
        rw [ha, if_pos rfl, if_pos rfl, List.cons.injEq] at h
        exact h.1
      | succ i =>
        refine htail.1 ?_ i a hi ha
        split_ifs at h with hx
        · exact (List.cons.injEq _ _ _ _ ▸ h).2
        · exact h
    · intro h
      rw [htail.2 fun i a hi ha => h (i + 1) a hi ha]
      split_ifs with hx
      · rw [h 0 x rfl hx]
      · rfl

theorem countP_mapIdx {α : Type*} {p : α → Bool} {l : List α} {f : ℕ → α → α} (hp : ∀ i a, p (f i a) = p a) :
    (l.mapIdx f).countP p = l.countP p := by
  induction l generalizing f with
  | nil => rfl
  | cons x l ih => rw [List.mapIdx_cons, List.countP_cons, List.countP_cons, hp, ih fun i a => hp (i + 1) a]

section MarkAll

variable (cum : UInt32) (bits : List UInt8) (n : ℕ) (q : List Chunk)

theorem map_body_markAll : (markAll cum bits n q).map Chunk.body = q.map Chunk.body := by
  apply List.ext_getElem?
  intro j
  rw [List.getElem?_map, List.getElem?_map, markAll, List.getElem?_mapIdx]
  cases q[j]? with
  | none => rfl
  | some c =>
    simp only [Option.map_some]
    split_ifs <;> rfl

theorem filter_unsent_markAll_iff (hq : AckedSent q) :
    (markAll cum bits n q).filter Chunk.unsent = q.filter Chunk.unsent ↔
      ∀ i < n, ackBit bits i = true → ∀ c, chunkAt q (cum + 1 + UInt32.ofNat i) = some c → c.sent.isSome = true := by
  unfold markAll
  generalize hfront : (q.head?.map Chunk.seq).getD 0 = front
  rw [filter_mapIdx_eq_iff]
  · constructor
    · intro h i hi hbit c hc
      rw [mem_chunkAt_iff, hfront] at hc
      by_contra hsent
      -- A chunk that the bit marks would come out marked.
      have hun : c.unsent = true := by
        rw [← Bool.not_eq_false, Chunk.unsent_eq_false_iff]
        exact hsent
      have hhit : (List.range n).any (hits cum front bits (cum + 1 + UInt32.ofNat i - front).toNat c) = true := by
        rw [List.any_eq_true]
        exact ⟨i, List.mem_range.2 hi, by simp [hits, hbit, hc.2]⟩
      have hsame := h _ c hc.1 hun
      rw [if_pos hhit] at hsame
      have hacked : c.acked = true := by rw [← hsame]; rfl
      exact hsent (hq c (List.mem_of_getElem? hc.1) hacked)
    · intro h j c hj hun
      split_ifs with hany
      · rw [List.any_eq_true] at hany
        obtain ⟨i, hi, hhit⟩ := hany
        simp only [hits, Bool.and_eq_true, beq_iff_eq] at hhit
        obtain ⟨hbit, hidx, hseq⟩ := hhit
        have hsent := h i (List.mem_range.1 hi) hbit c (mem_chunkAt_iff.2 ⟨by rw [hfront, hidx]; exact hj, hseq⟩)
        rw [← Chunk.unsent_eq_false_iff, hun] at hsent
        cases hsent
      · rfl
  · intro j c
    split_ifs <;> rfl

theorem AckedSent.markAll (hq : AckedSent q)
    (h : ∀ i < n, ackBit bits i = true → ∀ c, chunkAt q (cum + 1 + UInt32.ofNat i) = some c → c.sent.isSome = true) :
    AckedSent (markAll cum bits n q) := by
  intro c hc hac
  obtain ⟨j, hj⟩ := List.mem_iff_getElem?.1 hc
  unfold Reliable.markAll at hj
  rw [List.getElem?_mapIdx, Option.map_eq_some_iff] at hj
  obtain ⟨c₀, hj, rfl⟩ := hj
  split_ifs at hac ⊢ with hany
  · rw [List.any_eq_true] at hany
    obtain ⟨i, hi, hhit⟩ := hany
    simp only [hits, Bool.and_eq_true, beq_iff_eq] at hhit
    obtain ⟨hbit, hidx, hseq⟩ := hhit
    exact h i (List.mem_range.1 hi) hbit c₀ (mem_chunkAt_iff.2 ⟨by rw [hidx]; exact hj, hseq⟩)
  · exact hq c₀ (List.mem_of_getElem? hj) hac

end MarkAll

/-! ## What an ack does -/

theorem Sender.foldAck_spec (s : Sender) (cum : UInt32) (bits : List UInt8) (now : Instant) :
    (s.foldAck cum bits now).1.queue =
        markAll cum bits (min (bits.length * 8) s.span) (s.queue.dropWhile (Chunk.upTo cum)) ∧
      (s.foldAck cum bits now).1.backlog_bytes = s.backlog_bytes - totalLen (s.queue.takeWhile (Chunk.upTo cum)) := by
  have hpop := popCumulative_eq now cum s.queue s.backlog_bytes ⟨0, s.acked_tx, none⟩
  unfold Sender.foldAck
  dsimp only
  refine ⟨?_, hpop.2⟩
  rw [hpop.1]
  cases hhead : (s.queue.dropWhile (Chunk.upTo cum)).head? with
  | none =>
    rw [List.head?_eq_none_iff.1 hhead]
    rfl
  | some front =>
    rw [Option.elim_some, foldl_selectiveStep_fst, markAll, hhead]
    rfl

theorem Sender.settle_spec (s : Sender) (a : AckPass) (now : Instant) :
    ∃ q, List.Forall₂ Chunk.Fades s.queue q ∧ (s.settle a now).queue = q.dropWhile Chunk.acked ∧
      (s.settle a now).backlog_bytes = s.backlog_bytes - totalLen (q.takeWhile Chunk.acked) := by
  unfold Sender.settle
  dsimp only
  have hfades : List.Forall₂ Chunk.Fades s.queue
      ((detectLoss s.acked_tx s.window.1 none).1 ++ s.window.2) := by
    have happ : List.Forall₂ Chunk.Fades (s.window.1 ++ s.window.2)
        ((detectLoss s.acked_tx s.window.1 none).1 ++ s.window.2) :=
      List.rel_append (fades_detectLoss s.acked_tx s.window.1 none) (fades_refl s.window.2)
    rwa [s.window_append] at happ
  generalize detectLoss s.acked_tx s.window.1 none = l at hfades ⊢
  generalize hs2 : ({ s with queue := l.1 ++ s.window.2 } : Sender) = s2
  -- The congestion window has no say in the queue.
  have hg : (a.sample.elim (s2, none) fun x => s2.foldSample now x.1 x.2).1.core = s2.core := by
    cases a.sample <;> simp
  generalize (a.sample.elim (s2, none) fun x => s2.foldSample now x.1 x.2) = g at hg ⊢
  have hcore := (g.1.core_adjust l.2 g.2 a.newly).trans hg
  generalize g.1.adjust l.2 g.2 a.newly = s3 at hcore ⊢
  simp only [Sender.core, Prod.mk.injEq, ← hs2] at hcore
  refine ⟨l.1 ++ s.window.2, hfades, ?_, ?_⟩
  · rw [popAcked_eq, hcore.2.1]
  · rw [popAcked_eq, hcore.2.1, hcore.2.2.1]

theorem Sender.onAck_spec (s : Sender) (body : List UInt8) (now : Instant) :
    (s.named body = [] ∧ (s.onAck body now).queue = s.queue ∧ (s.onAck body now).backlog_bytes = s.backlog_bytes) ∨
      ∃ cum bits n q,
        (∀ c, c ∈ s.named body ↔ c ∈ s.queue.takeWhile (Chunk.upTo cum) ∨ ∃ i < n, ackBit bits i = true ∧
            chunkAt (s.queue.dropWhile (Chunk.upTo cum)) (cum + 1 + UInt32.ofNat i) = some c) ∧
        List.Forall₂ Chunk.Fades (markAll cum bits n (s.queue.dropWhile (Chunk.upTo cum))) q ∧
        (s.onAck body now).queue = q.dropWhile Chunk.acked ∧
        (s.onAck body now).backlog_bytes =
          s.backlog_bytes - totalLen (s.queue.takeWhile (Chunk.upTo cum)) - totalLen (q.takeWhile Chunk.acked) := by
  unfold Sender.onAck Sender.named
  cases parseAck body with
  | none => exact .inl ⟨rfl, rfl, rfl⟩
  | some ack =>
    obtain ⟨cum, bits⟩ := ack
    dsimp only
    split_ifs with hneg
    · exact .inl ⟨rfl, rfl, rfl⟩
    · right
      generalize hs : ({ s with wide := s.wide || decide (bitmapBytes < bits.length) } : Sender) = s'
      have hqueue : s'.queue = s.queue := by rw [← hs]
      have hbacklog : s'.backlog_bytes = s.backlog_bytes := by rw [← hs]
      obtain ⟨hfold, hfoldlen⟩ := s'.foldAck_spec cum bits now
      obtain ⟨q, hfades, hq, hqlen⟩ := (s'.foldAck cum bits now).1.settle_spec (s'.foldAck cum bits now).2 now
      rw [hfold, hqueue] at hfades
      rw [hfoldlen, hbacklog, hqueue] at hqlen
      refine ⟨cum, bits, min (bits.length * 8) s'.span, q, ?_, hfades, hq, hqlen⟩
      intro c
      simp only [List.mem_append, List.mem_filterMap, List.mem_range, Option.ite_none_right_eq_some]

theorem totalLen_eq_sum_map_body (q : List Chunk) : totalLen q = ((q.map Chunk.body).map List.length).sum := by
  rw [List.map_map]
  rfl

theorem map_body_of_fades {q q' : List Chunk} (h : List.Forall₂ Chunk.Fades q q') :
    q'.map Chunk.body = q.map Chunk.body := by
  induction h with
  | nil => rfl
  | cons hc _ ih => obtain rfl | ⟨-, rfl⟩ := hc <;> rw [List.map_cons, List.map_cons, ih]

theorem totalLen_take_of_suffix {q q' : List Chunk} (h : q'.map Chunk.body <:+ q.map Chunk.body) :
    totalLen q = totalLen q' + totalLen (q.take (q.length - q'.length)) := by
  obtain ⟨t, ht⟩ := h
  have hlen := congrArg List.length ht
  rw [List.length_append, List.length_map, List.length_map] at hlen
  have htake : (q.take (q.length - q'.length)).map Chunk.body = t := by
    rw [List.map_take, ← ht, show q.length - q'.length = t.length by omega, List.take_left]
  rw [totalLen_eq_sum_map_body q, totalLen_eq_sum_map_body q', totalLen_eq_sum_map_body (q.take _), htake, ← ht,
    List.map_append, List.sum_append, Nat.add_comm]

theorem totalLen_takeWhile_add (p : Chunk → Bool) (q : List Chunk) :
    totalLen (q.takeWhile p) + totalLen (q.dropWhile p) = totalLen q := by
  rw [← totalLen_append, List.takeWhile_append_dropWhile]

theorem Sender.backlog_onAck (s : Sender) (body : List UInt8) (now : Instant)
    (h : s.backlog_bytes = totalLen s.queue) :
    (s.onAck body now).backlog_bytes = totalLen (s.onAck body now).queue ∧
      s.backlog_bytes = (s.onAck body now).backlog_bytes +
        totalLen (s.queue.take (s.queue.length - (s.onAck body now).queue.length)) := by
  rcases s.onAck_spec body now with ⟨-, hq, hb⟩ | ⟨cum, bits, n, q, -, hfades, hq, hb⟩
  · rw [hq, hb]
    exact ⟨h, by simp [totalLen]⟩
  · have hfront := totalLen_takeWhile_add (Chunk.upTo cum) s.queue
    have hback := totalLen_takeWhile_add Chunk.acked q
    have hbodies := (map_body_of_fades hfades).trans (map_body_markAll _ _ _ _)
    have hrest : totalLen q = totalLen (s.queue.dropWhile (Chunk.upTo cum)) := by
      rw [totalLen_eq_sum_map_body, hbodies, ← totalLen_eq_sum_map_body]
    have hsum : (s.onAck body now).backlog_bytes = totalLen (s.onAck body now).queue := by
      rw [hq, hb]
      omega
    refine ⟨hsum, ?_⟩
    rw [hsum, h]
    apply totalLen_take_of_suffix
    rw [hq]
    have hsuffix := (List.dropWhile_suffix Chunk.acked (l := q)).map Chunk.body
    rw [hbodies] at hsuffix
    exact hsuffix.trans ((List.dropWhile_suffix _).map Chunk.body)

theorem Sender.filter_unsent_onAck_iff (s : Sender) (body : List UInt8) (now : Instant) (hs : AckedSent s.queue) :
    (s.onAck body now).queue.filter Chunk.unsent = s.queue.filter Chunk.unsent ↔
      ∀ c ∈ s.named body, c.sent.isSome = true := by
  rcases s.onAck_spec body now with ⟨hnamed, hq, -⟩ | ⟨cum, bits, n, q, hnamed, hfades, hq, -⟩
  · rw [hq, hnamed]
    simp
  · have hrest : AckedSent (s.queue.dropWhile (Chunk.upTo cum)) := fun c hc =>
      hs c ((List.dropWhile_suffix _).subset hc)
    have hmarks := filter_unsent_markAll_iff cum bits n _ hrest
    have hacked := AckedSent.markAll cum bits n _ hrest
    have hfaded := filter_unsent_of_fades hfades
    have hsplit : s.queue.filter Chunk.unsent = (s.queue.takeWhile (Chunk.upTo cum)).filter Chunk.unsent ++
        (s.queue.dropWhile (Chunk.upTo cum)).filter Chunk.unsent := by
      rw [← List.filter_append, List.takeWhile_append_dropWhile]
    have hpop : q.filter Chunk.unsent = (q.takeWhile Chunk.acked).filter Chunk.unsent ++
        (q.dropWhile Chunk.acked).filter Chunk.unsent := by
      rw [← List.filter_append, List.takeWhile_append_dropWhile]
    generalize s.queue.dropWhile (Chunk.upTo cum) = rest at *
    have hlen : ((markAll cum bits n rest).filter Chunk.unsent).length = (rest.filter Chunk.unsent).length := by
      unfold markAll
      rw [← List.countP_eq_length_filter, ← List.countP_eq_length_filter]
      exact countP_mapIdx fun j c => by split_ifs <;> rfl
    rw [hq]
    constructor
    · intro h
      -- Nothing to be transmitted was lost at any stage, since the number of such chunks never grows.
      have hlens := congrArg List.length hsplit
      have hlenq := congrArg List.length hpop
      rw [List.length_append] at hlens hlenq
      rw [h, hfaded, hlen] at hlenq
      have htake : (s.queue.takeWhile (Chunk.upTo cum)).filter Chunk.unsent = [] :=
        List.eq_nil_of_length_eq_zero (by omega)
      have hdrop : (q.takeWhile Chunk.acked).filter Chunk.unsent = [] := List.eq_nil_of_length_eq_zero (by omega)
      rw [htake, List.nil_append] at hsplit
      rw [hdrop, List.nil_append, hfaded, h, hsplit] at hpop
      intro c hc
      rcases (hnamed c).1 hc with hc | ⟨i, hi, hbit, hchunk⟩
      · have := List.filter_eq_nil_iff.1 htake c hc
        rwa [Bool.not_eq_true, Chunk.unsent_eq_false_iff] at this
      · exact hmarks.1 hpop i hi hbit c hchunk
    · intro h
      have hbits : ∀ i < n, ackBit bits i = true → ∀ c, chunkAt rest (cum + 1 + UInt32.ofNat i) = some c →
          c.sent.isSome = true := fun i hi hbit c hc => h c ((hnamed c).2 (.inr ⟨i, hi, hbit, hc⟩))
      have htake : (s.queue.takeWhile (Chunk.upTo cum)).filter Chunk.unsent = [] := by
        rw [List.filter_eq_nil_iff]
        intro c hc
        rw [Bool.not_eq_true, Chunk.unsent_eq_false_iff]
        exact h c ((hnamed c).2 (.inl hc))
      have hdrop : (q.takeWhile Chunk.acked).filter Chunk.unsent = [] := by
        rw [List.filter_eq_nil_iff]
        intro c hc
        rw [Bool.not_eq_true, Chunk.unsent_eq_false_iff]
        exact AckedSent.of_fades hfades (hacked hbits) c ((List.takeWhile_prefix _).subset hc)
          (List.mem_takeWhile_imp hc)
      rw [hdrop, List.nil_append, hfaded, hmarks.2 hbits] at hpop
      rw [← hpop, hsplit, htake, List.nil_append]

theorem AckedSent.onAck {s : Sender} (hs : AckedSent s.queue) (body : List UInt8) (now : Instant)
    (h : ∀ c ∈ s.named body, c.sent.isSome = true) : AckedSent (s.onAck body now).queue := by
  rcases s.onAck_spec body now with ⟨-, hq, -⟩ | ⟨cum, bits, n, q, hnamed, hfades, hq, -⟩
  · rwa [hq]
  · rw [hq]
    have hrest : AckedSent (s.queue.dropWhile (Chunk.upTo cum)) := fun c hc =>
      hs c ((List.dropWhile_suffix _).subset hc)
    have hmarked := AckedSent.markAll cum bits n _ hrest fun i hi hbit c hc =>
      h c ((hnamed c).2 (.inr ⟨i, hi, hbit, hc⟩))
    exact fun c hc => AckedSent.of_fades hfades hmarked c ((List.dropWhile_suffix _).subset hc)

theorem Sender.foldl_pushChunk_spec (last : ℕ) (cs : List (List UInt8 × ℕ)) (s : Sender) (n : ℕ)
    (hn : s.next_seq = UInt32.ofNat n) :
    ∃ new, (cs.foldl (fun s ci => s.pushChunk (ci.2 == last) ci.1) s).queue = s.queue ++ new ∧
      (cs.foldl (fun s ci => s.pushChunk (ci.2 == last) ci.1) s).backlog_bytes = s.backlog_bytes + totalLen new ∧
      (∀ c ∈ new, c.sent = none ∧ c.acked = false) ∧
      new.map Chunk.body = (wireFrom n (cs.map fun ci => (ci.2 == last, ci.1))).map Prod.snd := by
  induction cs generalizing s n with
  | nil => exact ⟨[], by simp [totalLen, wireFrom]⟩
  | cons ci cs ih =>
    have hnext : (s.pushChunk (ci.2 == last) ci.1).next_seq = UInt32.ofNat (n + 1) := by
      rw [UInt32.ofNat_add n 1, ← hn]
      rfl
    obtain ⟨new, hq, hb, hfresh, hbody⟩ := ih (s.pushChunk (ci.2 == last) ci.1) (n + 1) hnext
    refine ⟨⟨s.next_seq, dataBody s.next_seq (ci.2 == last) ci.1, none, 0, 0, false, false⟩ :: new, ?_, ?_, ?_, ?_⟩
    · rw [List.foldl_cons, hq]
      simp [Sender.pushChunk]
    · rw [List.foldl_cons, hb, totalLen_cons, ← Nat.add_assoc]
      rfl
    · intro c hc
      rcases List.mem_cons.1 hc with rfl | hc
      · exact ⟨rfl, rfl⟩
      · exact hfresh c hc
    · rw [List.map_cons, List.map_cons, wireFrom, List.map_cons, hbody, hn]

theorem Sender.send_spec (s : Sender) (msg : List UInt8) : ∃ new, (s.send msg).queue = s.queue ++ new ∧
      (s.send msg).backlog_bytes = s.backlog_bytes + totalLen new ∧
      (∀ c ∈ new, c.sent = none ∧ c.acked = false) ∧
      new.map Chunk.body = (wireFrom s.next_seq.toNat (flagged msg)).map Prod.snd :=
  Sender.foldl_pushChunk_spec _ _ s _ (UInt32.ofNat_toNat).symm

theorem pollSend_spec (now : Instant) (cwnd : Float) (paced : Bool) (cs : List Chunk) (p : SendPass)
    (hcs : AckedSent cs) :
    ∃ new t, (pollSend now cwnd paced cs p).2.out = p.out ++ new ∧ t.Sublist new ∧
      (cs.filter Chunk.unsent).map Chunk.body =
        t ++ ((pollSend now cwnd paced cs p).1.filter Chunk.unsent).map Chunk.body := by
  induction cs generalizing p with
  | nil => exact ⟨[], [], by simp [pollSend]⟩
  | cons c cs ih =>
    have htail : AckedSent cs := fun c' hc' => hcs c' (List.mem_cons_of_mem c hc')
    unfold pollSend
    split_ifs with hskip hfull htokens
    · -- Acknowledged or in flight: it was transmitted before.
      obtain ⟨new, t, hout, hsub, heq⟩ := ih p htail
      have hsent : c.unsent = false := by
        rw [Chunk.unsent_eq_false_iff]
        rw [Bool.or_eq_true, Bool.and_eq_true] at hskip
        exact hskip.elim (hcs c List.mem_cons_self) And.left
      refine ⟨new, t, hout, hsub, ?_⟩
      rw [List.filter_cons_of_neg (by simp [hsent]), List.filter_cons_of_neg (by simp [hsent])]
      exact heq
    · exact ⟨[], [], by simp⟩
    · exact ⟨[], [], by simp⟩
    · obtain ⟨new, t, hout, hsub, heq⟩ := ih (p.put paced c) htail
      have hnow : (c.transmit now p.next_tx).unsent = false := rfl
      have hout' : (p.put paced c).out ++ new = p.out ++ (c.body :: new) := by
        simp [SendPass.put]
      rcases Bool.eq_false_or_eq_true c.unsent with hun | hun
      · refine ⟨c.body :: new, c.body :: t, hout.trans hout', hsub.cons_cons _, ?_⟩
        rw [List.filter_cons_of_pos hun, List.filter_cons_of_neg (by simp [hnow]), List.map_cons, heq, List.cons_append]
      · refine ⟨c.body :: new, t, hout.trans hout', hsub.cons _, ?_⟩
        rw [List.filter_cons_of_neg (by simp [hun]), List.filter_cons_of_neg (by simp [hnow]), heq]

theorem AckedSent.pollSend (now : Instant) (cwnd : Float) (paced : Bool) {cs : List Chunk} (p : SendPass)
    (hcs : AckedSent cs) : AckedSent (pollSend now cwnd paced cs p).1 := by
  induction cs generalizing p with
  | nil => exact hcs
  | cons c cs ih =>
    have htail : AckedSent cs := fun c' hc' => hcs c' (List.mem_cons_of_mem c hc')
    unfold Reliable.pollSend
    split_ifs with hskip hfull htokens
    · exact fun c' hc' => (List.mem_cons.1 hc').elim (fun h => h ▸ hcs c List.mem_cons_self) (ih p htail c')
    · exact hcs
    · exact hcs
    · exact fun c' hc' => (List.mem_cons.1 hc').elim (fun h _ => h ▸ rfl) (ih _ htail c')

theorem map_body_pollSend (now : Instant) (cwnd : Float) (paced : Bool) (cs : List Chunk) (p : SendPass) :
    (pollSend now cwnd paced cs p).1.map Chunk.body = cs.map Chunk.body := by
  have h := congrArg (List.map fun k => k.2.1) (kept_pollSend now cwnd paced cs p)
  rwa [List.map_map, List.map_map] at h

theorem Sender.poll_spec (s : Sender) (now : Instant) :
    ∃ win rest cwnd paced p, p.out = [] ∧ List.Forall₂ Chunk.Fades s.queue (win ++ rest) ∧
      (s.poll now).1.queue = (pollSend now cwnd paced win p).1 ++ rest ∧
      (s.poll now).2 = (pollSend now cwnd paced win p).2.out ∧
      (s.poll now).1.backlog_bytes = s.backlog_bytes := by
  unfold Sender.poll
  dsimp only
  have hrefill := s.core_refill now
  generalize s.refill now = s1 at hrefill ⊢
  have hfades : List.Forall₂ Chunk.Fades (s1.window.1 ++ s1.window.2)
      ((pollTimeouts now s1.rto s1.window.1 0.0 none).1 ++ s1.window.2) :=
    List.rel_append (fades_pollTimeouts _ _ _ _ _) (fades_refl _)
  rw [s1.window_append] at hfades
  generalize pollTimeouts now s1.rto s1.window.1 0.0 none = t at hfades ⊢
  generalize hs2 : ({ s1 with queue := t.1 ++ s1.window.2 } : Sender) = s2
  have hcut : (t.2.2.elim s2 fun tx => s2.onCongestion tx .timeout).core = s2.core := by
    cases t.2.2 <;> simp
  generalize (t.2.2.elim s2 fun tx => s2.onCongestion tx .timeout) = s3 at hcut ⊢
  simp only [Sender.core, Prod.mk.injEq, ← hs2] at hcut hrefill
  rw [hrefill.2.1] at hfades
  refine ⟨s3.window.1, s3.window.2, s3.cwnd, s3.rate_bps.isFinite, _, rfl, ?_, rfl, rfl, ?_⟩
  · rw [s3.window_append, hcut.2.1]
    exact hfades
  · exact hcut.2.2.1.trans hrefill.2.2.1

/-! ## Runs -/

namespace Feed

/-- What holds as long as acks name only what was transmitted. -/
def Good (f : Feed) : Prop := AckedSent f.sender.queue ∧ f.Complete

theorem good_new : new.Good := by
  refine ⟨?_, [], .slnil, rfl⟩
  intro c hc
  simp [new, Sender.new] at hc

theorem Good.send {f : Feed} (h : f.Good) (msg : List UInt8) : (f.step (.send msg)).Good := by
  obtain ⟨hacked, t, hsub, hqueued⟩ := h
  obtain ⟨cs, hq, -, hfresh, hbody⟩ := f.sender.send_spec msg
  have hall : cs.filter Chunk.unsent = cs := by
    rw [List.filter_eq_self]
    intro c hc
    rw [Chunk.unsent, (hfresh c hc).1]
    rfl
  constructor
  · intro c hc hac
    change c ∈ (f.sender.send msg).queue at hc
    rw [hq] at hc
    rcases List.mem_append.1 hc with hc | hc
    · exact hacked c hc hac
    · rw [(hfresh c hc).2] at hac
      cases hac
  · refine ⟨t, hsub, ?_⟩
    change f.queued ++ _ = t ++ ((f.sender.send msg).queue.filter Chunk.unsent).map Chunk.body
    rw [hq, List.filter_append, hall, List.map_append, hbody, ← List.append_assoc, hqueued]
    rfl

theorem Good.poll {f : Feed} (h : f.Good) (now : Instant) : (f.step (.poll now)).Good := by
  obtain ⟨hacked, t, hsub, hqueued⟩ := h
  obtain ⟨win, rest, cwnd, paced, p, hp, hfades, hq, hout, -⟩ := f.sender.poll_spec now
  have hbetween := AckedSent.of_fades hfades hacked
  have hwin : AckedSent win := fun c hc => hbetween c (List.mem_append_left _ hc)
  obtain ⟨out, new, hnew, hnewsub, hput⟩ := pollSend_spec now cwnd paced win p hwin
  rw [hp, List.nil_append] at hnew
  constructor
  · intro c hc
    change c ∈ (f.sender.poll now).1.queue at hc
    rw [hq] at hc
    rcases List.mem_append.1 hc with hc | hc
    · exact AckedSent.pollSend now cwnd paced p hwin c hc
    · exact hbetween c (List.mem_append_right _ hc)
  · refine ⟨t ++ new, ?_, ?_⟩
    · change (t ++ new).Sublist (f.out ++ (f.sender.poll now).2)
      rw [hout, hnew]
      exact hsub.append hnewsub
    · change f.queued = t ++ new ++ ((f.sender.poll now).1.queue.filter Chunk.unsent).map Chunk.body
      rw [hqueued, hq, unsent, ← filter_unsent_of_fades hfades, List.filter_append, List.map_append, hput,
        List.filter_append, List.map_append, List.append_assoc, List.append_assoc]

theorem Good.ack {f : Feed} (h : f.Good) (body : List UInt8) (now : Instant)
    (hnamed : ∀ c ∈ f.sender.named body, c.sent.isSome = true) : (f.step (.ack body now)).Good := by
  obtain ⟨hacked, t, hsub, hqueued⟩ := h
  refine ⟨hacked.onAck body now hnamed, t, hsub, ?_⟩
  have hsame := (f.sender.filter_unsent_onAck_iff body now hacked).2 hnamed
  change f.queued = t ++ ((f.sender.onAck body now).queue.filter Chunk.unsent).map Chunk.body
  rw [hsame]
  exact hqueued

theorem Good.step {f : Feed} (h : f.Good) (op : Op) (hop : f.NamesSent op) : (f.step op).Good := by
  cases op with
  | send msg => exact h.send msg
  | poll now => exact h.poll now
  | ack body now => exact h.ack body now (hop body now rfl)
  | setRate bps => exact h
  | setQueueLimit limit => exact h
  | setJitterTolerant on => exact h

theorem Good.keeps_iff_namesSent {f : Feed} (h : f.Good) (op : Op) : f.Keeps op ↔ f.NamesSent op := by
  constructor
  · rintro ⟨hkept, -⟩ body now rfl
    exact (f.sender.filter_unsent_onAck_iff body now h.1).1 (hkept body now rfl)
  · intro hop
    refine ⟨?_, (h.step op hop).2⟩
    rintro body now rfl
    exact (f.sender.filter_unsent_onAck_iff body now h.1).2 (hop body now rfl)

theorem counts_of_balanced {f : Feed} (h : f.sender.backlog_bytes = totalLen f.sender.queue) (op : Op) :
    f.Counts op := by
  cases op with
  | send msg =>
    obtain ⟨cs, hq, hb, -, -⟩ := f.sender.send_spec msg
    refine ⟨?_, by rintro body now ⟨⟩⟩
    change (f.sender.send msg).backlog_bytes = totalLen (f.sender.send msg).queue
    rw [hb, hq, totalLen_append, h]
  | poll now =>
    obtain ⟨win, rest, cwnd, paced, p, -, hfades, hq, -, hb⟩ := f.sender.poll_spec now
    refine ⟨?_, by rintro body now ⟨⟩⟩
    change (f.sender.poll now).1.backlog_bytes = totalLen (f.sender.poll now).1.queue
    rw [hb, hq, h, ← totalLen_of_fades hfades, totalLen_append, totalLen_append,
      totalLen_eq_sum_map_body (pollSend now cwnd paced win p).1, map_body_pollSend, ← totalLen_eq_sum_map_body]
  | ack body now =>
    refine ⟨(f.sender.backlog_onAck body now h).1, ?_⟩
    rintro _ _ ⟨⟩
    exact (f.sender.backlog_onAck body now h).2
  | setRate bps => exact ⟨h, by rintro body now ⟨⟩⟩
  | setQueueLimit limit => exact ⟨h, by rintro body now ⟨⟩⟩
  | setJitterTolerant on => exact ⟨h, by rintro body now ⟨⟩⟩

theorem along_counts (ops : List Op) {f : Feed} (h : f.sender.backlog_bytes = totalLen f.sender.queue) :
    Along step Counts f ops := by
  induction ops generalizing f with
  | nil => trivial
  | cons op ops ih =>
    have hcounts := counts_of_balanced h op
    exact ⟨hcounts, ih hcounts.1⟩

/-- Throughout a run, acks leave the chunks still to be transmitted alone, and so all that is queued goes out or
waits to, just when every ack names only chunks that were transmitted. -/
theorem unsent_kept_iff (ops : List Op) :
    (Along step (fun f op => f.Keeps op ∧ f.Counts op) new ops ↔ Along step NamesSent new ops) ∧
      Along step Counts new ops := by
  have hcounts : Along step Counts new ops := along_counts ops rfl
  refine ⟨?_, hcounts⟩
  rw [along_and, and_iff_left hcounts]
  exact along_iff_of_invariant Good good_new (fun f op hf hop => hf.step op hop)
    (fun f op hf => hf.keeps_iff_namesSent op) ops

/-- One chunk is queued and none sent, and an ack for number 1 comes in: the chunk is gone, and the backlog empty. -/
theorem unsent_kept_unpolled : ¬ ∀ ops, Along step (fun f op => f.Keeps op ∧ f.Counts op) new ops := by
  intro h
  have hack := (h [.send [65], .ack (typeAck :: 1 :: List.replicate 35 0) 0]).2.1.1.1 _ _ rfl
  have hlen := congrArg List.length hack
  revert hlen
  decide +kernel

end Feed

end Rdpio.Hyper.Reliable
