import Rdpio.Hyper.InputStream
import Rdpio.Hyper.Wire

/-!
# What merged input does to a host

`InputSender::push` merges motion into the last pending event while that is unsent.
-/

namespace Rdpio.Hyper.Input

open Lib

def maxBody : ℕ := 1200 - Wire.overhead

def InputEvent.isMotion : InputEvent → Bool
  | .mouseRel _ _ | .mouseAbs _ _ | .touch _ .move _ _ => true
  | _ => false

/-- Where a host has the pointer and the fingers. -/
structure Motion where
  position : Option (UInt16 × UInt16)
  /-- Relative motion since then. -/
  moved : ℤ × ℤ
  contacts : UInt8 → Option (UInt16 × UInt16)

def Motion.apply (m : Motion) : InputEvent → Motion
  | .mouseAbs x y => { m with position := some (x, y), moved := (0, 0) }
  | .mouseRel dx dy => { m with moved := (m.moved.1 + dx.toInt, m.moved.2 + dy.toInt) }
  | .touch id _ x y => { m with contacts := fun i => if i = id then some (x, y) else m.contacts i }
  | _ => m

structure Host where
  motion : Motion
  /-- The events that are not motion, each with what the motion was just before it. -/
  log : List (Motion × InputEvent)

def Host.new : Host := ⟨⟨none, (0, 0), fun _ => none⟩, []⟩

def Host.apply (h : Host) (ev : InputEvent) : Host where
  motion := h.motion.apply ev
  log := if ev.isMotion then h.log else h.log ++ [(h.motion, ev)]

def Host.after (h : Host) (evs : List InputEvent) : Host := evs.foldl Host.apply h

theorem toInt_of_checkedAdd {a b c : Int16} (h : checkedAdd a b = some c) : c.toInt = a.toInt + b.toInt := by
  unfold checkedAdd at h
  split_ifs at h with hrange
  rw [← Option.some_inj.mp h, Int16.toInt_add]
  exact Int.bmod_eq_of_le (by omega) (by omega)

theorem Host.apply_merge {last ev merged : InputEvent} (h : merge last ev = some merged) (host : Host) :
    host.apply merged = (host.apply last).apply ev := by
  unfold merge at h
  split at h
  · next px py dx dy =>
    obtain ⟨x, hx, hrest⟩ := Option.bind_eq_some_iff.mp h
    obtain ⟨y, hy, hmerged⟩ := Option.bind_eq_some_iff.mp hrest
    cases hmerged
    simp only [Host.apply, Motion.apply, InputEvent.isMotion, toInt_of_checkedAdd hx, toInt_of_checkedAdd hy,
      Int.add_assoc, if_true]
  · cases h
    rfl
  · next i x' y' id x y =>
    split_ifs at h with hid
    cases h
    subst hid
    simp only [Host.apply, Motion.apply, InputEvent.isMotion, if_true]
    congr 2
    funext j
    split_ifs <;> rfl
  · cases h

/-! ## Runs of a sender -/

/-- A sender, and what it was given and gave so far. -/
structure Sending where
  sender : InputSender
  /-- The events that were acknowledged. -/
  gone : List Entry
  pushed : List InputEvent
  /-- Every packet body that was put out. -/
  bodies : List (List UInt8)

inductive Call where
  | push (ev : InputEvent)
  | packets (max_packets : ℕ)
  | cappedPackets (max_packets : ℕ)
  | ack (seq : UInt32)

def Sending.new : Sending := ⟨InputSender.new, [], [], []⟩

def Sending.put (s : Sending) (p : InputSender × List (List UInt8)) : Sending :=
  { s with sender := p.1, bodies := s.bodies ++ p.2 }

def Sending.step (s : Sending) : Call → Sending
  | .push ev => { s with sender := s.sender.push ev, pushed := s.pushed ++ [ev] }
  | .packets max_packets => s.put (s.sender.packets max_packets)
  | .cappedPackets max_packets => s.put (s.sender.cappedPackets max_packets)
  | .ack seq =>
    { s with
      sender := s.sender.ack seq
      gone := s.gone ++ s.sender.pending.filter fun e => ¬ 0 < asI32 (e.seq - seq) }

def Sending.after (calls : List Call) : Sending := run Sending.step Sending.new calls

def Sending.numbered (s : Sending) : List Entry := s.gone ++ s.sender.pending

def Sending.Orderly (s : Sending) : Call → Prop
  | .ack seq => (s.sender.ack seq).pending <:+ s.sender.pending
  | _ => True

structure Sending.Inv (s : Sending) : Prop where
  consecutive : Consecutive 1 s.numbered
  next_seq : s.sender.next_seq = UInt32.ofNat (s.numbered.length + 1)
  effect : ∀ host : Host, host.after (s.numbered.map Entry.event) = host.after s.pushed
  bodies : ∀ body ∈ s.bodies, body.length ≤ maxBody
  wire : s.numbered.length < 2^31 → s.sender.sent.toNat ≤ s.numbered.length ∧
    ∀ body ∈ s.bodies, ∀ x ∈ carried body, x ∈ s.numbered.map Entry.content ∧ x.1.toNat ≤ s.sender.sent.toNat

theorem Sending.inv_new : Sending.new.Inv where
  consecutive i e hi := by simp [Sending.new, Sending.numbered, InputSender.new] at hi
  next_seq := rfl
  effect _ := rfl
  bodies _ hbody := absurd hbody List.not_mem_nil
  wire _ := ⟨Nat.le_refl _, fun _ hbody => absurd hbody List.not_mem_nil⟩

theorem Host.after_concat (h : Host) (evs : List InputEvent) (ev : InputEvent) :
    h.after (evs ++ [ev]) = (h.after evs).apply ev := List.foldl_append

theorem Sending.Inv.numbering {s : Sending} (h : s.Inv) (hsent : s.sender.sent.toNat ≤ s.numbered.length) :
    s.sender.Numbered s.gone.length where
  consecutive := by
    rw [Nat.add_comm]
    exact (Consecutive.append.mp h.consecutive).2
  next_seq := by
    rw [h.next_seq]
    congr 1
    unfold Sending.numbered
    rw [List.length_append]
  sent_le := by
    unfold Sending.numbered at hsent
    rwa [List.length_append] at hsent

theorem Sending.Inv.push {s : Sending} (h : s.Inv) (ev : InputEvent) : (s.step (.push ev)).Inv := by
  rcases s.sender.push_cases ev with ⟨es, last, merged, hes, hunsent, hmerge, hpush⟩ | hpush
  · -- The last number stands for both events now.
    have hold : s.numbered = (s.gone ++ es) ++ [last] := by rw [Sending.numbered, hes, List.append_assoc]
    have hnew : (s.step (.push ev)).numbered = (s.gone ++ es) ++ [{ last with event := merged }] := by
      change s.gone ++ (s.sender.push ev).pending = _
      rw [hpush, List.append_assoc]
    have hsame : (s.step (.push ev)).numbered.length = s.numbered.length := by
      simp only [hnew, hold, List.length_append, List.length_singleton]
    have hsender : (s.step (.push ev)).sender = { s.sender with pending := es ++ [{ last with event := merged }] } :=
      hpush
    have hcons := h.consecutive
    rw [hold] at hcons
    refine ⟨?_, ?_, fun host => ?_, h.bodies, fun hlt => ?_⟩
    · rw [hnew]
      obtain ⟨hfront, hlast⟩ := Consecutive.append.mp hcons
      refine Consecutive.append.mpr ⟨hfront, fun i e hi => ?_⟩
      obtain ⟨hi0, hget⟩ := List.getElem?_eq_some_iff.mp hi
      rw [List.length_singleton, Nat.lt_one_iff] at hi0
      subst hi0
      rw [← hget]
      exact hlast 0 last rfl
    · rw [hsender, hsame]
      exact h.next_seq
    · have heffect := h.effect host
      rw [hold, List.map_append, List.map_singleton, Host.after_concat] at heffect
      change _ = host.after (s.pushed ++ [ev])
      rw [hnew, List.map_append, List.map_singleton, Host.after_concat, Host.after_concat, ← heffect,
        Host.apply_merge hmerge]
    · rw [hsame] at hlt ⊢
      obtain ⟨hsent, hwire⟩ := h.wire hlt
      rw [hsender]
      refine ⟨hsent, fun body hbody x hx => ?_⟩
      obtain ⟨hmem, hle⟩ := hwire body hbody x hx
      refine ⟨?_, hle⟩
      rw [hold, List.map_append, List.map_singleton, List.mem_append, List.mem_singleton] at hmem
      rw [hnew, List.map_append, List.mem_append]
      refine .inl (hmem.resolve_right fun hx => ?_)
      -- What is merged into is above all that packets carry.
      have hnum := hcons.toNat_seq (i := (s.gone ++ es).length) (e := last)
        (by rw [← hold]; omega) (by rw [List.getElem?_append_right (Nat.le_refl _), Nat.sub_self]; rfl)
      have hlen : s.numbered.length = (s.gone ++ es).length + 1 := by rw [hold, List.length_append]; rfl
      rw [hx] at hle
      change last.seq.toNat ≤ _ at hle
      rw [asI32_sub (by omega) (by omega)] at hunsent
      omega
  · have hnew : (s.step (.push ev)).numbered = s.numbered ++ [⟨s.sender.next_seq, ev, 0⟩] := by
      change s.gone ++ (s.sender.push ev).pending = _
      rw [hpush, Sending.numbered, List.append_assoc]
    have hlen : (s.step (.push ev)).numbered.length = s.numbered.length + 1 := by
      rw [hnew, List.length_append]
      rfl
    have hsender : (s.step (.push ev)).sender = { s.sender with
        pending := s.sender.pending ++ [⟨s.sender.next_seq, ev, 0⟩], next_seq := s.sender.next_seq + 1 } := hpush
    refine ⟨?_, ?_, fun host => ?_, h.bodies, fun hlt => ?_⟩
    · rw [hnew]
      refine Consecutive.append.mpr ⟨h.consecutive, fun i e hi => ?_⟩
      obtain ⟨hi0, hget⟩ := List.getElem?_eq_some_iff.mp hi
      rw [List.length_singleton, Nat.lt_one_iff] at hi0
      subst hi0
      rw [← hget, Nat.add_zero, Nat.add_comm]
      exact h.next_seq
    · rw [hsender, hlen]
      dsimp only
      rw [h.next_seq]
      exact (UInt32.ofNat_add _ 1).symm
    · change _ = host.after (s.pushed ++ [ev])
      rw [hnew, List.map_append, List.map_singleton, Host.after_concat, Host.after_concat, h.effect]
    · rw [hlen] at hlt ⊢
      obtain ⟨hsent, hwire⟩ := h.wire (by omega)
      rw [hsender]
      refine ⟨hsent.trans (Nat.le_succ _), fun body hbody x hx => ?_⟩
      obtain ⟨hmem, hle⟩ := hwire body hbody x hx
      refine ⟨?_, hle⟩
      rw [hnew, List.map_append]
      exact List.mem_append_left _ hmem

theorem InputEvent.length_write_le (e : InputEvent) : e.write.length ≤ 7 := by
  have hlen : ∀ x, (le16 x).length = 2 := fun x => length_leBytes 2 _
  cases e <;> simp [InputEvent.write, hlen]

theorem length_packetBody_le {es : List Entry} (h : es.length ≤ maxPerPacket) : (packetBody es).length ≤ maxBody := by
  have hevents : (es.flatMap fun e => e.event.write).length ≤ es.length * 7 := by
    clear h
    induction es with
    | nil => exact Nat.le_refl _
    | cons e es ih =>
      have := e.event.length_write_le
      rw [List.flatMap_cons, List.length_append, List.length_cons]
      omega
  have hmax : 5 + maxPerPacket * 7 ≤ maxBody := by decide
  rw [packetBody, List.length_append, length_leBytes, List.length_cons]
  omega

theorem InputSender.length_le_of_mem_packetsFrom {s : InputSender} {start max_packets : ℕ} {body : List UInt8}
    (h : body ∈ (s.packetsFrom start max_packets).2) : body.length ≤ maxBody := by
  unfold InputSender.packetsFrom at h
  split_ifs at h
  · exact absurd h List.not_mem_nil
  · obtain ⟨es, hes, rfl⟩ := List.mem_map.mp h
    exact length_packetBody_le (length_le_of_mem_chunks (by decide) (List.mem_of_mem_take hes))

theorem Sending.Inv.put {s : Sending} (h : s.Inv) (start max_packets : ℕ) :
    (s.put (s.sender.packetsFrom start max_packets)).Inv := by
  obtain ⟨hcontent, hnext⟩ := s.sender.packetsFrom_content start max_packets
  have hnumbered : (s.put (s.sender.packetsFrom start max_packets)).numbered.map Entry.content =
      s.numbered.map Entry.content := by
    change (s.gone ++ (s.sender.packetsFrom start max_packets).1.pending).map Entry.content = _
    rw [Sending.numbered, List.map_append, List.map_append, hcontent]
  have hlen : (s.put (s.sender.packetsFrom start max_packets)).numbered.length = s.numbered.length := by
    simpa only [List.length_map] using congrArg List.length hnumbered
  refine ⟨h.consecutive.congr hnumbered, ?_, fun host => ?_, fun body hbody => ?_, fun hlt => ?_⟩
  · rw [hlen]
    exact hnext.trans h.next_seq
  · have hevents := congrArg (List.map Prod.snd) hnumbered
    rw [List.map_map, List.map_map] at hevents
    exact (congrArg host.after hevents).trans (h.effect host)
  · rcases List.mem_append.mp hbody with hbody | hbody
    · exact h.bodies body hbody
    · exact InputSender.length_le_of_mem_packetsFrom hbody
  · rw [hlen] at hlt ⊢
    obtain ⟨hsent, hwire⟩ := h.wire hlt
    have htotal : s.gone.length + s.sender.pending.length = s.numbered.length := (List.length_append ..).symm
    obtain ⟨hnum, -, -, hge, hout⟩ := s.sender.packetsFrom_spec (h.numbering hsent) (by omega) start max_packets
    have hpending := congrArg List.length hcontent
    rw [List.length_map, List.length_map] at hpending
    have hle := hnum.sent_le
    refine ⟨by rw [← htotal, ← hpending]; exact hle, fun body hbody x hx => ?_⟩
    rw [hnumbered]
    rcases List.mem_append.mp hbody with hbody | hbody
    · obtain ⟨hmem, hle⟩ := hwire body hbody x hx
      exact ⟨hmem, hle.trans hge⟩
    · obtain ⟨hmem, hle⟩ := hout body hbody x hx
      refine ⟨?_, hle⟩
      rw [Sending.numbered, List.map_append]
      exact List.mem_append_right _ hmem

theorem filter_not_append_filter {α : Type*} {p : α → Bool} {l : List α} (h : l.filter p <:+ l) :
    (l.filter fun a => !p a) ++ l.filter p = l := by
  obtain ⟨front, hfront⟩ := h
  have hkept : l.filter p = front.filter p ++ l.filter p := by
    conv_lhs => rw [← hfront, List.filter_append, List.filter_filter]
    simp only [Bool.and_self]
  have hnone := List.self_eq_append_left.mp hkept
  have hall : front.filter (fun a => !p a) = front := by
    rw [List.filter_eq_self]
    intro a ha
    have := List.filter_eq_nil_iff.mp hnone a ha
    simpa using this
  have hleft : l.filter (fun a => !p a) = front := by
    conv_lhs => rw [← hfront, List.filter_append, hall, List.filter_filter]
    simp
  rw [hleft, hfront]

theorem Sending.Inv.ack {s : Sending} (h : s.Inv) {seq : UInt32} (horder : s.Orderly (.ack seq)) :
    (s.step (.ack seq)).Inv := by
  have hnumbered : (s.step (.ack seq)).numbered = s.numbered := by
    change (s.gone ++ s.sender.pending.filter fun e => ¬ 0 < asI32 (e.seq - seq)) ++ (s.sender.ack seq).pending = _
    have hsplit := filter_not_append_filter (p := fun e : Entry => 0 < asI32 (e.seq - seq)) (l := s.sender.pending) horder
    rw [Sending.numbered, List.append_assoc]
    conv_rhs => rw [← hsplit]
    congr 2
    simp only [decide_not]
  obtain ⟨hcons, hnext, heffect, hbodies, hwire⟩ := h
  rw [← hnumbered] at hcons hnext heffect hwire
  exact ⟨hcons, hnext, heffect, hbodies, hwire⟩

theorem Sending.Inv.step {s : Sending} (h : s.Inv) (c : Call) (horder : s.Orderly c) : (s.step c).Inv := by
  cases c with
  | push ev => exact h.push ev
  | packets max_packets => exact h.put 0 max_packets
  | cappedPackets max_packets => exact h.put _ max_packets
  | ack seq => exact h.ack horder

theorem filter_suffix_of_pairwise {α : Type*} {p : α → Bool} {l : List α}
    (h : l.Pairwise fun a b => p a = true → p b = true) : l.filter p <:+ l := by
  induction l with
  | nil => exact List.suffix_refl []
  | cons a l ih =>
    obtain ⟨ha, hl⟩ := List.pairwise_cons.mp h
    rcases Bool.eq_false_or_eq_true (p a) with hpa | hpa
    · exact ⟨[], List.filter_eq_self.mpr fun b hb =>
        (List.mem_cons.mp hb).elim (fun hab => hab ▸ hpa) fun hb => ha b hb hpa⟩
    · rw [List.filter_cons_of_neg (by rw [hpa]; decide)]
      exact (ih hl).trans (List.suffix_cons a l)

theorem Sending.Inv.orderly {s : Sending} (h : s.Inv) (hlt : s.sender.pending.length < 2^31) {seq : UInt32}
    (hseq : 0 ≤ asI32 (s.sender.next_seq - 1 - seq)) : s.Orderly (.ack seq) := by
  refine filter_suffix_of_pairwise (List.pairwise_iff_getElem.mpr fun i j hi hj hij => ?_)
  have hcons := (Consecutive.append.mp h.consecutive).2
  have hfirst := congrArg UInt32.toNat (hcons i _ (List.getElem?_eq_getElem hi))
  have hsecond := congrArg UInt32.toNat (hcons j _ (List.getElem?_eq_getElem hj))
  have hnext := congrArg UInt32.toNat h.next_seq
  rw [Sending.numbered, List.length_append, UInt32.toNat_ofNat'] at hnext
  rw [UInt32.toNat_ofNat'] at hfirst hsecond
  simp only [decide_eq_true_eq]
  unfold asI32 at hseq ⊢
  rw [UInt32.toNat_sub, UInt32.toNat_sub, UInt32.toNat_one] at hseq
  rw [UInt32.toNat_sub, UInt32.toNat_sub]
  intro hgt
  generalize (s.sender.pending[i]).seq.toNat = a at *
  generalize (s.sender.pending[j]).seq.toNat = b at *
  have := seq.toNat_lt
  split_ifs at * <;> omega

/-- In every run whose acknowledgements are orderly, the numbered events take any host where the pushed ones do,
with the same other events in the same motion; no packet is too long. -/
theorem numbered_drives {calls : List Call} (h : Along Sending.step Sending.Orderly Sending.new calls) :
    let s := Sending.after calls
    Consecutive 1 s.numbered ∧ (∀ host : Host, host.after (s.numbered.map Entry.event) = host.after s.pushed) ∧
      (∀ body ∈ s.bodies, body.length ≤ maxBody) ∧
      (s.sender.pending.length < 2^31 → ∀ seq, 0 ≤ asI32 (s.sender.next_seq - 1 - seq) → s.Orderly (.ack seq)) ∧
      (s.numbered.length < 2^31 → ∀ body ∈ s.bodies, ∀ x ∈ carried body, x ∈ s.numbered.map Entry.content) := by
  have hinv : (Sending.after calls).Inv :=
    invariant_along Sending.Inv Sending.inv_new (fun s c hs horder => hs.step c horder) h
  exact ⟨hinv.consecutive, hinv.effect, hinv.bodies, fun hlt seq hseq => hinv.orderly hlt hseq,
    fun hlt body hbody x hx => ((hinv.wire hlt).2 body hbody x hx).1⟩

def moves : List Call :=
  [.push (.mouseRel 3 4), .push (.mouseRel 5 (-6)), .packets 1, .push (.mouseRel 1 1), .ack 1,
    .push (.key 30 false true)]

theorem numbered_drives_moves :
    (Sending.after moves).numbered.map Entry.event = [.mouseRel 8 (-2), .mouseRel 1 1, .key 30 false true] ∧
      Host.new.after ((Sending.after moves).numbered.map Entry.event) =
        Host.new.after [.mouseRel 3 4, .mouseRel 5 (-6), .mouseRel 1 1, .key 30 false true] := by
  obtain ⟨-, heffect, -⟩ := @numbered_drives moves
    ⟨trivial, trivial, trivial, trivial, ⟨[⟨1, .mouseRel 8 (-2), 1⟩], rfl⟩, trivial, trivial⟩
  exact ⟨rfl, heffect Host.new⟩

def farAhead : List Call := [.push (.mouseRel 1 0), .push (.key 30 false true), .ack 2147483650, .push (.mouseRel 1 0)]

theorem numbered_far_ahead : ¬ ∀ (calls : List Call) (es : List Entry), es.Perm (Sending.after calls).numbered →
    Consecutive 1 es → ∀ host : Host, host.after (es.map Entry.event) = host.after (Sending.after calls).pushed := by
  intro hall
  have hcons : Consecutive 1 [⟨1, .mouseRel 2 0, 0⟩, ⟨2, .key 30 false true, 0⟩] := by
    intro i e hi
    rcases i with _ | _ | i
    · cases hi
      rfl
    · cases hi
      rfl
    · cases hi
  have hsame := hall farAhead _ (List.Perm.swap _ _ _) hcons Host.new
  have hmoved := congrArg (fun host : Host => host.log.map fun x => x.1.moved) hsame
  exact absurd hmoved (by decide)

end Rdpio.Hyper.Input
