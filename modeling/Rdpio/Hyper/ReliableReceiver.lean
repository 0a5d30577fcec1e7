import Mathlib.Data.List.Induction
import Rdpio.Hyper.ReliableSender

/-!
# What the receiver has

`Receiver.Inv` says that the receiver has delivered exactly what the first `cum` chunks of the stream
complete, and holds in `pending` only chunks of the stream that follow a hole.
-/

namespace Rdpio.Hyper.Reliable

open Lib

structure Assembly where
  part : List UInt8
  oversize : Bool
  out : List (List UInt8)

/-- One chunk of the stream, in order. -/
def Assembly.step (a : Assembly) (x : Bool × List UInt8) : Assembly :=
  let oversize := a.oversize || maxMessage < a.part.length + x.2.length
  let part := if oversize then [] else a.part ++ x.2
  if x.1 then ⟨[], false, if oversize then a.out else a.out ++ [part]⟩ else ⟨part, oversize, a.out⟩

/-- All that the first chunks of the stream complete. -/
def assemble (stream : List (Bool × List UInt8)) : Assembly := stream.foldl Assembly.step ⟨[], false, []⟩

theorem Assembly.out_prefix_foldl (a : Assembly) (xs : List (Bool × List UInt8)) :
    a.out <+: (xs.foldl Assembly.step a).out := by
  induction xs generalizing a with
  | nil => exact List.prefix_refl _
  | cons x xs ih =>
    refine List.IsPrefix.trans ?_ (ih _)
    unfold Assembly.step
    dsimp only
    cases x.1
    · exact List.prefix_refl _
    · rw [if_pos rfl]
      dsimp only
      split_ifs
      · exact List.prefix_refl _
      · exact List.prefix_append _ _

theorem assemble_part_eq_nil (stream : List (Bool × List UInt8))
    (h : (assemble stream).oversize = true) : (assemble stream).part = [] := by
  unfold assemble at *
  induction stream using List.reverseRecOn with
  | nil => rfl
  | append_singleton xs x _ =>
    rw [List.foldl_append, List.foldl_cons, List.foldl_nil] at *
    obtain ⟨last, c⟩ := x
    cases last
    · exact if_pos h
    · rfl

theorem foldl_step_oversize (cs out : List (List UInt8)) :
    (cs.map fun c => (false, c)).foldl Assembly.step ⟨[], true, out⟩ = ⟨[], true, out⟩ := by
  induction cs with
  | nil => rfl
  | cons c cs ih => simpa [Assembly.step] using ih

theorem foldl_step_middle (cs out : List (List UInt8)) (p : List UInt8) (hp : p.length ≤ maxMessage) :
    (cs.map fun c => (false, c)).foldl Assembly.step ⟨p, false, out⟩ =
      if (p ++ cs.flatten).length ≤ maxMessage then ⟨p ++ cs.flatten, false, out⟩
      else ⟨[], true, out⟩ := by
  induction cs generalizing p with
  | nil =>
    rw [List.flatten_nil, List.append_nil, if_pos hp]
    rfl
  | cons c cs ih =>
    rw [List.map_cons, List.foldl_cons, List.flatten_cons, ← List.append_assoc]
    by_cases hc : (p ++ c).length ≤ maxMessage
    · have hstep : Assembly.step ⟨p, false, out⟩ (false, c) = ⟨p ++ c, false, out⟩ := by
        have : ¬maxMessage < p.length + c.length := by rw [← List.length_append]; omega
        simp [Assembly.step, this]
      rw [hstep, ih _ hc]
    · have hstep : Assembly.step ⟨p, false, out⟩ (false, c) = ⟨[], true, out⟩ := by
        have : maxMessage < p.length + c.length := by rw [← List.length_append]; omega
        simp [Assembly.step, this]
      rw [hstep, foldl_step_oversize, if_neg]
      rw [List.length_append]
      omega

theorem messageChunks_ne_nil (msg : List UInt8) : messageChunks msg ≠ [] := by
  unfold messageChunks
  split_ifs with h
  · exact List.cons_ne_nil _ _
  · exact chunks_ne_nil (by decide) (by simpa using h)

theorem flatten_messageChunks (msg : List UInt8) : (messageChunks msg).flatten = msg := by
  unfold messageChunks
  split_ifs with h
  · simpa using (List.isEmpty_iff.mp h).symm
  · exact flatten_chunks (by decide) msg

theorem flagged_eq {msg : List UInt8} {cs : List (List UInt8)} {c : List UInt8}
    (h : messageChunks msg = cs ++ [c]) :
    flagged msg = (cs.map fun c => (false, c)) ++ [(true, c)] := by
  unfold flagged
  rw [h, List.zipIdx_append, List.map_append, List.length_append, List.length_singleton, Nat.add_sub_cancel]
  congr 1
  · apply List.ext_getElem?
    intro i
    simp only [List.getElem?_map, List.getElem?_zipIdx]
    by_cases hi : i < cs.length
    · simp [hi]
      omega
    · simp [List.getElem?_eq_none (not_lt.mp hi)]
  · simp

theorem foldl_step_flagged (msg : List UInt8) (out : List (List UInt8)) :
    (flagged msg).foldl Assembly.step ⟨[], false, out⟩ =
      ⟨[], false, if msg.length ≤ maxMessage then out ++ [msg] else out⟩ := by
  obtain ⟨cs, c, hcs⟩ := (List.eq_nil_or_concat' (messageChunks msg)).resolve_left (messageChunks_ne_nil msg)
  have hmsg : cs.flatten ++ c = msg := by
    rw [← flatten_messageChunks msg, hcs, List.flatten_append, List.flatten_singleton]
  have hlen : msg.length = cs.flatten.length + c.length := by rw [← hmsg, List.length_append]
  rw [flagged_eq hcs, List.foldl_append, foldl_step_middle _ _ _ (Nat.zero_le _), List.nil_append,
    List.foldl_cons, List.foldl_nil]
  generalize cs.flatten = d at hmsg hlen ⊢
  by_cases hmid : d.length ≤ maxMessage
  · rw [if_pos hmid]
    by_cases hle : msg.length ≤ maxMessage
    · have : ¬maxMessage < d.length + c.length := by omega
      simp [Assembly.step, this, hmsg, hle]
    · have : maxMessage < d.length + c.length := by omega
      simp [Assembly.step, this, hle]
  · have hle : ¬msg.length ≤ maxMessage := by omega
    simp [if_neg hmid, hle, Assembly.step]

theorem assemble_streamOf (msgs : List (List UInt8)) :
    assemble (streamOf msgs) = ⟨[], false, msgs.filter fun m => m.length ≤ maxMessage⟩ := by
  suffices h : ∀ out, (streamOf msgs).foldl Assembly.step ⟨[], false, out⟩ =
      ⟨[], false, out ++ msgs.filter fun m => m.length ≤ maxMessage⟩ by
    simpa [assemble] using h []
  induction msgs with
  | nil => simp [streamOf]
  | cons m ms ih =>
    intro out
    rw [streamOf, List.flatMap_cons, List.foldl_append, foldl_step_flagged, ← streamOf, ih]
    by_cases hm : m.length ≤ maxMessage <;> simp [hm]

/-- The receiver has chunk `s`: it delivered it, or holds it. -/
def Receiver.Accepted (r : Receiver) (s : UInt32) : Prop := s.toNat ≤ r.cum.toNat ∨ s ∈ r.pending

def Receiver.assembly (r : Receiver) (out : List (List UInt8)) : Assembly := ⟨r.partial_, r.oversize, out⟩

structure Receiver.InvCore (stream : List (Bool × List UInt8)) (out : List (List UInt8))
    (r : Receiver) : Prop where
  cum_le : r.cum.toNat ≤ stream.length
  pending : ∀ (s : UInt32) (x : Bool × List UInt8),
    r.pending[s]? = some x → r.cum.toNat < s.toNat ∧ stream[s.toNat - 1]? = some x
  assembly : r.assembly out = assemble (stream.take r.cum.toNat)

/-- Moreover a hole follows what was delivered. -/
structure Receiver.Inv (stream : List (Bool × List UInt8)) (out : List (List UInt8))
    (r : Receiver) : Prop extends Receiver.InvCore stream out r where
  hole : r.pending[r.cum + 1]? = none

theorem Receiver.absorb_spec (r : Receiver) (out : List (List UInt8)) (last : Bool)
    (data : List UInt8) (hok : r.oversize = true → r.partial_ = []) :
    (r.absorb last data).1.assembly (out ++ (r.absorb last data).2) = (r.assembly out).step (last, data) ∧
      (r.absorb last data).1.cum = r.cum ∧ (r.absorb last data).1.pending = r.pending := by
  unfold Receiver.absorb Receiver.assembly Assembly.step
  by_cases hover : maxMessage < r.partial_.length + data.length
  · cases last <;> simp [hover]
  · cases ho : r.oversize
    · cases last <;> simp [hover, ho]
    · have hnil := hok ho
      have hdata : ¬maxMessage < data.length := by
        rwa [hnil, List.length_nil, Nat.zero_add] at hover
      cases last <;> simp [hdata, ho, hnil]

theorem Receiver.inv_new : Receiver.new.Inv [] [] where
  cum_le := Nat.le_refl 0
  pending s x h := by simp [Receiver.new] at h
  assembly := rfl
  hole := by simp [Receiver.new]

theorem Receiver.Inv.extend {stream : List (Bool × List UInt8)} {out : List (List UInt8)}
    {r : Receiver} (h : r.Inv stream out) (xs : List (Bool × List UInt8)) :
    r.Inv (stream ++ xs) out where
  cum_le := by
    rw [List.length_append]
    exact Nat.le_add_right_of_le h.cum_le
  pending s x hs := by
    obtain ⟨hlt, hx⟩ := h.pending s x hs
    rw [List.getElem?_append_left (List.getElem?_eq_some_iff.mp hx).1]
    exact ⟨hlt, hx⟩
  assembly := by rw [h.assembly, List.take_append_of_le_length h.cum_le]
  hole := h.hole

theorem Receiver.InvCore.absorb {stream : List (Bool × List UInt8)} {out : List (List UInt8)}
    {r : Receiver} (h : r.InvCore stream out) (hlen : stream.length < 2^31) {last : Bool}
    {data : List UInt8} (hnext : r.pending[r.cum + 1]? = some (last, data)) :
    let a := Receiver.absorb
      { r with pending := r.pending.erase (r.cum + 1), cum := r.cum + 1 } last data
    a.1.InvCore stream (out ++ a.2) ∧ a.1.pending = r.pending.erase (r.cum + 1) ∧ a.1.cum.toNat = r.cum.toNat + 1 := by
  intro a
  have hcum := h.cum_le
  have hone : (r.cum + 1).toNat = r.cum.toNat + 1 := toNat_add_one (by omega)
  have hx := (h.pending _ _ hnext).2
  rw [hone, Nat.add_sub_cancel] at hx
  have hlt := (List.getElem?_eq_some_iff.mp hx).1
  have hok : r.oversize = true → r.partial_ = [] := by
    have := assemble_part_eq_nil (stream.take r.cum.toNat)
    rwa [← h.assembly] at this
  obtain ⟨hasm, hc, hp⟩ := Receiver.absorb_spec
    { r with pending := r.pending.erase (r.cum + 1), cum := r.cum + 1 } out last data hok
  refine ⟨⟨?_, ?_, ?_⟩, hp, by rw [hc, hone]⟩
  · rw [hc, hone]
    omega
  · intro s x hs
    rw [hp, Std.TreeMap.getElem?_erase] at hs
    split_ifs at hs with hne
    obtain ⟨hgt, hsx⟩ := h.pending s x hs
    refine ⟨?_, hsx⟩
    rw [hc, hone]
    have : r.cum + 1 ≠ s := fun heq => hne (Std.compare_eq_iff_eq.mpr heq)
    have : (r.cum + 1).toNat ≠ s.toNat := fun heq => this (UInt32.toNat_inj.mp heq)
    omega
  · rw [hasm, hc, hone, List.take_add_one, hx]
    simp only [Option.toList_some, assemble, List.foldl_append, List.foldl_cons, List.foldl_nil]
    rw [← assemble, ← h.assembly]
    rfl

theorem Receiver.drain_spec {stream : List (Bool × List UInt8)} (hlen : stream.length < 2^31) :
    ∀ (fuel : ℕ) (r : Receiver) (out : List (List UInt8)), r.InvCore stream out → r.pending.size ≤ fuel →
      (r.drain fuel).1.Inv stream (out ++ (r.drain fuel).2) ∧ r.cum.toNat ≤ (r.drain fuel).1.cum.toNat ∧
        ∀ s, r.Accepted s → (r.drain fuel).1.Accepted s
  | 0, r, out, h, hfuel => by
    have hempty : r.pending.isEmpty := by
      rw [Std.TreeMap.isEmpty_eq_size_eq_zero]
      simpa using hfuel
    rw [Receiver.drain, List.append_nil]
    exact ⟨⟨h, Std.TreeMap.getElem?_of_isEmpty hempty⟩, Nat.le_refl _, fun s hs => hs⟩
  | fuel + 1, r, out, h, hfuel => by
    unfold Receiver.drain
    split
    · next hnone =>
      rw [List.append_nil]
      exact ⟨⟨h, hnone⟩, Nat.le_refl _, fun s hs => hs⟩
    · next last data hnext =>
      obtain ⟨hcore, hp, hc⟩ := h.absorb hlen hnext
      dsimp only
      generalize Receiver.absorb
        { r with pending := r.pending.erase (r.cum + 1), cum := r.cum + 1 } last data = a
        at hcore hp hc ⊢
      have hmem : r.cum + 1 ∈ r.pending := by
        rw [Std.TreeMap.mem_iff_isSome_getElem?, hnext]
        rfl
      have hsize : a.1.pending.size ≤ fuel := by
        rw [hp, Std.TreeMap.size_erase, if_pos (Std.TreeMap.contains_iff_mem.mpr hmem)]
        omega
      obtain ⟨hinv, hle, hacc⟩ := Receiver.drain_spec hlen fuel a.1 _ hcore hsize
      refine ⟨by rwa [List.append_assoc] at hinv, by omega, fun s hs => hacc s ?_⟩
      -- What was held either is the chunk absorbed or is still held.
      have hone : (r.cum + 1).toNat = r.cum.toNat + 1 := toNat_add_one (by have := h.cum_le; omega)
      rcases hs with hs | hs
      · exact .inl (by omega)
      · by_cases heq : r.cum + 1 = s
        · exact .inl (by rw [hc, ← heq, hone])
        · refine .inr ?_
          rw [hp, Std.TreeMap.mem_erase]
          exact ⟨fun hcmp => heq (Std.compare_eq_iff_eq.mp hcmp), hs⟩

@[simp]
theorem head?_dataBody (seq : UInt32) (last : Bool) (c : List UInt8) : (dataBody seq last c).head? = some typeData := rfl

@[simp]
theorem length_dataBody (seq : UInt32) (last : Bool) (c : List UInt8) :
    (dataBody seq last c).length = c.length + 6 := by
  simp only [dataBody, List.length_cons, List.length_append, length_leBytes]
  omega

theorem seq_dataBody (seq : UInt32) (last : Bool) (c : List UInt8) :
    UInt32.ofNat (ofLe (((dataBody seq last c).drop 1).take 4)) = seq := by
  rw [dataBody, List.drop_one, List.tail_cons, List.take_append_of_le_length (by simp),
    List.take_of_length_le (by simp), ofLe_leBytes_of_lt (by simpa using seq.toNat_lt),
    UInt32.ofNat_toNat]

theorem last_dataBody (seq : UInt32) (last : Bool) (c : List UInt8) : ((dataBody seq last c).getD 5 0 != 0) = last := by
  have : (dataBody seq last c)[5]? = some (if last then 1 else 0) := by
    rw [dataBody, List.getElem?_cons_succ, List.getElem?_append_right (by simp)]
    simp
  rw [List.getD_eq_getElem?_getD, this]
  cases last <;> rfl

theorem drop_dataBody (seq : UInt32) (last : Bool) (c : List UInt8) : (dataBody seq last c).drop 6 = c := by
  rw [dataBody, List.drop_succ_cons, List.drop_append]
  simp

theorem Receiver.Inv.onData {stream : List (Bool × List UInt8)} {out : List (List UInt8)}
    {r : Receiver} (h : r.Inv stream out) (hlen : stream.length < 2^31) (now : Instant) {n : ℕ}
    {x : Bool × List UInt8} (hx : stream[n - 1]? = some x)
    (hspan : n ≤ r.cum.toNat + wideSpan) :
    let d := r.onData (dataBody (UInt32.ofNat n) x.1 x.2) now
    d.1.Inv stream (out ++ d.2) ∧ r.cum.toNat ≤ d.1.cum.toNat ∧
      (∀ s, r.Accepted s → d.1.Accepted s) ∧ d.1.Accepted (UInt32.ofNat n) := by
  intro d
  have hn := (List.getElem?_eq_some_iff.mp hx).1
  have hcum := h.cum_le
  have hseq : (UInt32.ofNat n).toNat = n := toNat_ofNat_of_lt (by omega)
  have hd : d = r.onData (dataBody (UInt32.ofNat n) x.1 x.2) now := rfl
  unfold Receiver.onData at hd
  rw [if_neg (by simp)] at hd
  simp only [seq_dataBody, last_dataBody, drop_dataBody] at hd
  by_cases hold : n ≤ r.cum.toNat
  · -- A duplicate of what was delivered.
    rw [if_pos (.inl (by rw [asI32_sub (by omega) (by omega), hseq]; omega))] at hd
    rw [hd, List.append_nil]
    exact ⟨⟨⟨h.cum_le, h.pending, h.assembly⟩, h.hole⟩, Nat.le_refl _, fun s hs => hs, .inl (by rwa [hseq])⟩
  · have hahead : (UInt32.ofNat n - r.cum).toNat = n - r.cum.toNat := by
      rw [toNat_sub_of_le (by omega), hseq]
    rw [if_neg (by rw [asI32_sub (by omega) (by omega), hseq, hahead]; omega)] at hd
    generalize hr1 : (if UInt32.ofNat n - r.cum ≠ 1 then
      { r with unacked := r.unacked + 1, first_unacked := some (r.first_unacked.getD now), urgent := true }
      else { r with unacked := r.unacked + 1, first_unacked := some (r.first_unacked.getD now) }
      : Receiver) = r1 at hd
    have hcore1 : r1.pending = r.pending ∧ r1.cum = r.cum ∧ r1.assembly out = r.assembly out := by
      rw [← hr1]
      split_ifs <;> exact ⟨rfl, rfl, rfl⟩
    obtain ⟨hp1, hc1, ha1⟩ := hcore1
    -- Held, unless it was already.
    have hcore : Receiver.InvCore stream out
        { r1 with pending := r1.pending.insertIfNew (UInt32.ofNat n) (x.1, x.2) } := by
      refine ⟨by rw [hc1]; exact h.cum_le, ?_, by rw [hc1, ← h.assembly, ← ha1]; rfl⟩
      intro s y hs
      rw [Std.TreeMap.getElem?_insertIfNew] at hs
      split_ifs at hs with hnew
      · have heq := Std.compare_eq_iff_eq.mp hnew.1
        rw [Option.some.injEq] at hs
        rw [← heq, hseq, hc1, ← hs]
        exact ⟨by omega, hx⟩
      · rw [hp1] at hs
        rw [hc1]
        exact h.pending s y hs
    obtain ⟨hinv, hle, hacc⟩ := Receiver.drain_spec hlen _ _ _ hcore (Nat.le_refl _)
    have hle' : r.cum.toNat ≤ _ := Eq.trans_le (congrArg UInt32.toNat hc1.symm) hle
    rw [hd]
    refine ⟨hinv, hle', fun s hs => hacc s ?_, hacc _ (.inr ?_)⟩
    · rcases hs with hs | hs
      · exact .inl (by rwa [hc1])
      · refine .inr (Std.TreeMap.mem_insertIfNew.mpr (.inr ?_))
        rwa [hp1]
    · exact Std.TreeMap.mem_insertIfNew_self

theorem ackBit_eq (bits : List UInt8) (i : ℕ) :
    ackBit bits i = true ↔ (bits.getD (i / 8) 0).toNat.testBit (i % 8) = true := by
  rw [ackBit, bne_iff_ne, and_bit8_ne_zero _ (Nat.mod_lt i (by decide))]

theorem ackBit_append_replicate (bits : List UInt8) (n i : ℕ) :
    ackBit (bits ++ List.replicate n 0) i = ackBit bits i := by
  have hget : (bits ++ List.replicate n 0).getD (i / 8) 0 = bits.getD (i / 8) 0 := by
    by_cases hlt : i / 8 < bits.length
    · rw [List.getD_append _ _ _ _ hlt]
    · rw [List.getD_append_right _ _ _ _ (not_lt.mp hlt),
        List.getD_eq_default _ _ (not_lt.mp hlt), List.getD_eq_getElem?_getD,
        List.getElem?_replicate]
      split_ifs <;> rfl
  rw [ackBit, hget, ackBit]

theorem ackBit_set {bits : List UInt8} {i j : ℕ}
    (h : ackBit (bits.set (j / 8) (bits.getD (j / 8) 0 ||| 1 <<< UInt8.ofNat (j % 8))) i = true) :
    ackBit bits i = true ∨ j = i := by
  rw [ackBit_eq] at h ⊢
  rw [List.getD_eq_getElem?_getD, List.getElem?_set] at h
  split_ifs at h with hbyte hin
  · rw [Option.getD_some, testBit_or_bit8 _ (Nat.mod_lt j (by decide)), Bool.or_eq_true,
      decide_eq_true_eq, hbyte] at h
    rcases h with h | h
    · exact .inl h
    · exact .inr (by omega)
  · simp at h
  · rw [← List.getD_eq_getElem?_getD] at h
    exact .inl h

theorem ackBit_setAckBit {cum : UInt32} {bits : List UInt8} {s : UInt32} {i : ℕ}
    (h : ackBit (setAckBit cum bits s) i = true) :
    ackBit bits i = true ∨ (s - (cum + 1)).toNat = i := by
  unfold setAckBit at h
  dsimp only at h
  generalize (s - (cum + 1)).toNat = j at h ⊢
  split_ifs at h with hj hlen
  · rcases ackBit_set h with h | h
    · rw [ackBit_append_replicate] at h
      exact .inl h
    · exact .inr h
  · exact ackBit_set h
  · exact .inl h

theorem length_setAckBit (cum : UInt32) (bits : List UInt8) (s : UInt32) : bits.length ≤ (setAckBit cum bits s).length ∧
      (bits.length ≤ wideBitmapBytes → (setAckBit cum bits s).length ≤ wideBitmapBytes) := by
  unfold setAckBit
  dsimp only
  have hwide : wideSpan = wideBitmapBytes * 8 := by decide
  split_ifs
  · simp only [List.length_set, List.length_append, List.length_replicate]
    omega
  · simp
  · simp

theorem parseAck_ackBody (cum : UInt32) {bits : List UInt8} (hmin : bitmapBytes ≤ bits.length)
    (hmax : bits.length ≤ wideBitmapBytes) : parseAck (ackBody cum bits) = some (cum, bits) := by
  unfold parseAck ackBody
  rw [if_neg]
  · rw [List.drop_one, List.tail_cons, List.take_append_of_le_length (by simp),
      List.take_of_length_le (by simp), ofLe_leBytes_of_lt (by simpa using cum.toNat_lt),
      UInt32.ofNat_toNat, List.drop_succ_cons, List.drop_append_of_le_length (by simp),
      List.drop_of_length_le (by simp), List.nil_append, List.take_of_length_le hmax]
  · simp only [List.head?_cons, List.length_cons, List.length_append, length_leBytes]
    simp
    omega

theorem Receiver.ack_spec (r : Receiver) (now : Instant) :
    ((r.ack now).1.cum = r.cum ∧ (r.ack now).1.pending = r.pending ∧
      ∀ out, (r.ack now).1.assembly out = r.assembly out) ∧
    ∀ b, (r.ack now).2 = some b → ∃ bits, parseAck b = some (r.cum, bits) ∧
      ∀ i, ackBit bits i = true → r.cum + 1 + UInt32.ofNat i ∈ r.pending := by
  unfold Receiver.ack
  split_ifs
  · exact ⟨⟨rfl, rfl, fun _ => rfl⟩, by simp⟩
  · refine ⟨⟨rfl, rfl, fun _ => rfl⟩, ?_⟩
    intro b hb
    rw [Option.some.injEq] at hb
    generalize hbits : r.pending.keys.foldl (setAckBit r.cum) (List.replicate (bitmapBytes + 1) 0) = bits at hb
    have hinv : bitmapBytes + 1 ≤ bits.length ∧ bits.length ≤ wideBitmapBytes ∧
        ∀ i, ackBit bits i = true → r.cum + 1 + UInt32.ofNat i ∈ r.pending := by
      rw [← hbits]
      refine List.foldlRecOn (motive := fun bs : List UInt8 => bitmapBytes + 1 ≤ bs.length ∧
        bs.length ≤ wideBitmapBytes ∧
        ∀ i, ackBit bs i = true → r.cum + 1 + UInt32.ofNat i ∈ r.pending) _ _ ?_ ?_
      · refine ⟨by simp, by decide, ?_⟩
        intro i hi
        rw [ackBit_eq, List.getD_eq_getElem?_getD, List.getElem?_replicate] at hi
        split_ifs at hi <;> simp at hi
      · intro bs ⟨hmin, hmax, hset⟩ s hs
        obtain ⟨hge, hle⟩ := length_setAckBit r.cum bs s
        refine ⟨by omega, hle hmax, ?_⟩
        intro i hi
        rcases ackBit_setAckBit hi with hi | hi
        · exact hset i hi
        · have hseq : r.cum + 1 + UInt32.ofNat i = s := by
            rw [← hi, UInt32.ofNat_toNat, UInt32.add_comm, UInt32.sub_add_cancel]
          rw [hseq]
          exact Std.TreeMap.mem_keys.mp hs
    exact ⟨bits, by rw [← hb]; exact parseAck_ackBody _ (by omega) hinv.2.1, hinv.2.2⟩
  · exact ⟨⟨rfl, rfl, fun _ => rfl⟩, by simp⟩

end Rdpio.Hyper.Reliable
