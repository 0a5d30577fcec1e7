import Rdpio.Lib.Run
import Rdpio.Hyper.Input

/-!
# The input stream end to end

An `InputSender` and an `InputReceiver` over a network that drops, duplicates, delays and reorders packets and
acks.
-/

namespace Rdpio.Hyper.Input

open Lib

def readEvents : ℕ → UInt32 → List UInt8 → List (UInt32 × InputEvent)
  | 0, _, _ => []
  | count + 1, seq, b =>
    match InputEvent.read b with
    | none => []
    | some (ev, used) => (seq, ev) :: readEvents count (seq + 1) (b.drop used)

def carried (body : List UInt8) : List (UInt32 × InputEvent) :=
  if body.length < 5 then []
  else readEvents (body.getD 4 0).toNat (UInt32.ofNat (ofLe (body.take 4))) (body.drop 5)

def InputReceiver.applyAll (r : InputReceiver) : List (UInt32 × InputEvent) → InputReceiver × List InputEvent
  | [] => (r, [])
  | (seq, ev) :: xs =>
    let d := asI32 (seq - r.applied)
    if d = 1 then
      let next := InputReceiver.applyAll ⟨seq⟩ xs
      (next.1, ev :: next.2)
    else if 1 < d then (r, [])
    else r.applyAll xs

theorem InputReceiver.receive_eq (r : InputReceiver) (body : List UInt8) :
    r.receive body = r.applyAll (carried body) := by
  have hloop : ∀ (count : ℕ) (r : InputReceiver) (seq : UInt32) (b : List UInt8),
      r.receiveLoop seq count b = r.applyAll (readEvents count seq b) := by
    intro count
    induction count with
    | zero => intro r seq b; rfl
    | succ count ih =>
      intro r seq b
      unfold InputReceiver.receiveLoop readEvents
      cases InputEvent.read b with
      | none => rfl
      | some x =>
        rw [InputReceiver.applyAll]
        simp only [ih]
  unfold InputReceiver.receive carried
  split_ifs
  · rfl
  · exact hloop _ _ _ _

def Consecutive (n : ℕ) (es : List Entry) : Prop := ∀ i e, es[i]? = some e → e.seq = UInt32.ofNat (n + i)

theorem Consecutive.tail {n : ℕ} {e : Entry} {es : List Entry} (h : Consecutive n (e :: es)) :
    Consecutive (n + 1) es := by
  intro i e' hi
  rw [h (i + 1) e' hi]
  congr 1
  omega

theorem Consecutive.append {n : ℕ} {es fs : List Entry} :
    Consecutive n (es ++ fs) ↔ Consecutive n es ∧ Consecutive (n + es.length) fs := by
  constructor
  · intro h
    constructor
    · intro i e hi
      exact h i e (by rw [List.getElem?_append_left (List.getElem?_eq_some_iff.mp hi).1, hi])
    · intro i e hi
      rw [h (es.length + i) e (by rw [List.getElem?_append_right (by omega)]; simpa using hi)]
      congr 1
      omega
  · rintro ⟨hes, hfs⟩ i e hi
    by_cases hlt : i < es.length
    · rw [List.getElem?_append_left hlt] at hi
      exact hes i e hi
    · rw [List.getElem?_append_right (not_lt.mp hlt)] at hi
      rw [hfs _ e hi]
      congr 1
      omega

theorem carried_packetBody {n : ℕ} {es : List Entry} (h : Consecutive n es) (hlen : es.length ≤ 255) :
    carried (packetBody es) = es.map fun e => (e.seq, e.event) := by
  have hread : ∀ (es : List Entry) (n : ℕ), Consecutive n es →
      readEvents es.length (UInt32.ofNat n) (es.flatMap fun e => e.event.write) = es.map fun e => (e.seq, e.event) := by
    intro es
    induction es with
    | nil => intro n _; rfl
    | cons e es ih =>
      intro n hn
      have hseq := hn 0 e rfl
      rw [List.length_cons, readEvents, List.flatMap_cons, InputEvent.read_write]
      dsimp only
      rw [List.drop_left, ← show UInt32.ofNat (n + 1) = UInt32.ofNat n + 1 from UInt32.ofNat_add n 1,
        ih (n + 1) hn.tail, List.map_cons, hseq, Nat.add_zero]
  have hsplit : ∀ (hd rest : List UInt8) (c : UInt8), hd.length = 4 →
      (hd ++ c :: rest).getD 4 0 = c ∧ (hd ++ c :: rest).drop 5 = rest := by
    intro hd rest c h4
    rw [List.getD_eq_getElem?_getD, List.getElem?_append_right (by omega), h4, List.drop_append, h4,
      List.drop_of_length_le (by omega)]
    exact ⟨rfl, rfl⟩
  obtain ⟨hcount, hrest⟩ := hsplit (leBytes 4 ((es.head?.map Entry.seq).getD 0).toNat)
    (es.flatMap fun e => e.event.write) (UInt8.ofNat es.length) (length_leBytes 4 _)
  unfold carried packetBody
  rw [if_neg (by rw [List.length_append, length_leBytes, List.length_cons]; omega), hcount, hrest,
    List.take_left' (length_leBytes 4 _), ofLe_leBytes_of_lt (by simpa using UInt32.toNat_lt _),
    UInt32.ofNat_toNat, UInt8.toNat_ofNat', Nat.mod_eq_of_lt (by omega)]
  cases es with
  | nil => rfl
  | cons e es =>
    rw [List.head?_cons, Option.map_some, Option.getD_some, h 0 e rfl]
    exact hread (e :: es) n h

/-! ## The packets of a sender -/

/-- The events of a sender are consecutive, from the first one not acknowledged on. -/
structure InputSender.Numbered (s : InputSender) (base : ℕ) : Prop where
  consecutive : Consecutive (base + 1) s.pending
  next_seq : s.next_seq = UInt32.ofNat (base + s.pending.length + 1)
  sent_le : s.sent.toNat ≤ base + s.pending.length

def Entry.content (e : Entry) : UInt32 × InputEvent := (e.seq, e.event)

theorem Consecutive.toNat_seq {n : ℕ} {es : List Entry} (h : Consecutive n es)
    (hlt : n + es.length ≤ 2^31) {i : ℕ} {e : Entry} (hi : es[i]? = some e) : e.seq.toNat = n + i := by
  have := (List.getElem?_eq_some_iff.mp hi).1
  rw [h i e hi, toNat_ofNat_of_lt (by omega)]

theorem foldl_advanceSent {base total : ℕ} (htotal : base + total < 2^31) (packets : List (List Entry))
    {sent : UInt32} (hsent : sent.toNat ≤ base + total)
    (hnum : ∀ p ∈ packets, ∃ off, Consecutive (base + 1 + off) p ∧ off + p.length ≤ total) :
    let sent' := packets.foldl advanceSent sent
    sent.toNat ≤ sent'.toNat ∧ sent'.toNat ≤ base + total ∧ ∀ p ∈ packets, ∀ e ∈ p, e.seq.toNat ≤ sent'.toNat := by
  induction packets generalizing sent with
  | nil => exact ⟨Nat.le_refl _, hsent, fun p hp => absurd hp List.not_mem_nil⟩
  | cons p packets ih =>
    obtain ⟨off, hp, hoff⟩ := hnum p List.mem_cons_self
    have hone : sent.toNat ≤ (advanceSent sent p).toNat ∧ (advanceSent sent p).toNat ≤ base + total ∧
        ∀ e ∈ p, e.seq.toNat ≤ (advanceSent sent p).toNat := by
      unfold advanceSent
      rcases List.eq_nil_or_concat' p with rfl | ⟨q, l, rfl⟩
      · dsimp only
        have hz : ¬0 < asI32 ((Option.map Entry.seq ([] : List Entry).getLast?).getD 0 - sent) := by
          rw [List.getLast?_nil, Option.map_none, Option.getD_none, asI32_sub (by decide) (by omega)]
          simp
        rw [if_neg hz]
        exact ⟨Nat.le_refl _, hsent, fun e he => absurd he List.not_mem_nil⟩
      · rw [List.length_append, List.length_singleton] at hoff
        have hlast : l.seq.toNat = base + 1 + off + q.length :=
          hp.toNat_seq (by rw [List.length_append, List.length_singleton]; omega) (by simp)
        have hle : ∀ e ∈ q ++ [l], e.seq.toNat ≤ l.seq.toNat := by
          intro e he
          obtain ⟨i, hi⟩ := List.mem_iff_getElem?.mp he
          have hlt := (List.getElem?_eq_some_iff.mp hi).1
          rw [List.length_append, List.length_singleton] at hlt
          rw [hp.toNat_seq (by rw [List.length_append, List.length_singleton]; omega) hi, hlast]
          omega
        rw [List.getLast?_concat, Option.map_some, Option.getD_some]
        dsimp only
        rw [asI32_sub (by omega) (by omega)]
        split_ifs with hgt
        · exact ⟨by omega, by omega, hle⟩
        · exact ⟨Nat.le_refl _, hsent, fun e he => (hle e he).trans (by omega)⟩
    obtain ⟨hge, hle, hall⟩ := hone
    obtain ⟨hge', hle', hall'⟩ := ih hle fun p hp => hnum p (List.mem_cons_of_mem _ hp)
    refine ⟨hge.trans hge', hle', ?_⟩
    intro p' hp' e he
    rcases List.mem_cons.mp hp' with rfl | hp'
    · exact (hall e he).trans hge'
    · exact hall' p' hp' e he

theorem Consecutive.congr {n : ℕ} {es es' : List Entry} (h : Consecutive n es)
    (hcontent : es'.map Entry.content = es.map Entry.content) : Consecutive n es' := by
  intro i e hi
  have hi' := congrArg (fun l => l[i]?) hcontent
  simp only [List.getElem?_map] at hi'
  rw [hi, Option.map_some] at hi'
  obtain ⟨e', he', heq⟩ := Option.map_eq_some_iff.mp hi'.symm
  rw [← h i e' he']
  exact (congrArg Prod.fst heq).symm

theorem InputSender.packetsFrom_content (s : InputSender) (start max_packets : ℕ) :
    (s.packetsFrom start max_packets).1.pending.map Entry.content = s.pending.map Entry.content ∧
      (s.packetsFrom start max_packets).1.next_seq = s.next_seq := by
  unfold InputSender.packetsFrom
  split_ifs with hstart
  · exact ⟨rfl, rfl⟩
  · have hbump : Entry.content ∘ Entry.bump = Entry.content := rfl
    refine ⟨?_, rfl⟩
    dsimp only
    rw [List.map_append, List.map_append, List.map_map, hbump, ← List.map_append, ← List.map_append,
      List.append_assoc, List.take_append_drop, List.take_append_drop]

theorem InputSender.packetsFrom_spec {s : InputSender} {base : ℕ} (h : s.Numbered base)
    (hlt : base + s.pending.length < 2^31) (start max_packets : ℕ) :
    let p := s.packetsFrom start max_packets
    p.1.Numbered base ∧ p.1.pending.map Entry.content = s.pending.map Entry.content ∧
      p.1.next_seq = s.next_seq ∧ s.sent.toNat ≤ p.1.sent.toNat ∧
      ∀ body ∈ p.2, ∀ x ∈ carried body, x ∈ s.pending.map Entry.content ∧ x.1.toNat ≤ p.1.sent.toNat := by
  obtain ⟨hcontent, -⟩ := s.packetsFrom_content start max_packets
  unfold InputSender.packetsFrom at hcontent ⊢
  split_ifs at hcontent ⊢ with hstart
  · exact ⟨h, rfl, rfl, Nat.le_refl _, fun body hb => absurd hb List.not_mem_nil⟩
  dsimp only at hcontent ⊢
  generalize hpk : (chunks maxPerPacket (s.pending.drop start)).take max_packets = packets at hcontent ⊢
  have hmax : 0 < maxPerPacket := by decide
  -- Every packet is a stretch of the pending events.
  have hmem : ∀ p ∈ packets, ∃ pre post, s.pending = pre ++ p ++ post ∧ p.length ≤ 255 := by
    intro p hp
    rw [← hpk] at hp
    have hpc := List.mem_of_mem_take hp
    obtain ⟨l₁, l₂, hl⟩ := List.append_of_mem hpc
    have hflat := flatten_chunks hmax (s.pending.drop start)
    rw [hl, List.flatten_append, List.flatten_cons] at hflat
    refine ⟨s.pending.take start ++ l₁.flatten, l₂.flatten, ?_, ?_⟩
    · conv_lhs => rw [← List.take_append_drop start s.pending, ← hflat]
      simp only [List.append_assoc]
    · have := length_le_of_mem_chunks hmax hpc
      have : maxPerPacket = 166 := by decide
      omega
  have hnum : ∀ p ∈ packets, ∃ off, Consecutive (base + 1 + off) p ∧ off + p.length ≤ s.pending.length := by
    intro p hp
    obtain ⟨pre, post, heq, -⟩ := hmem p hp
    have hc := h.consecutive
    rw [heq, List.append_assoc] at hc
    refine ⟨pre.length, (Consecutive.append.mp (Consecutive.append.mp hc).2).1, ?_⟩
    rw [heq, List.length_append, List.length_append]
    omega
  obtain ⟨hge, hle, hall⟩ := foldl_advanceSent hlt packets h.sent_le hnum
  have hlen : (s.pending.take start ++ ((s.pending.drop start).take packets.flatten.length).map Entry.bump
      ++ (s.pending.drop start).drop packets.flatten.length).length = s.pending.length := by
    simpa using congrArg List.length hcontent
  refine ⟨⟨h.consecutive.congr hcontent, ?_, ?_⟩, hcontent, rfl, hge, ?_⟩
  · dsimp only
    rw [hlen]
    exact h.next_seq
  · dsimp only
    rw [hlen]
    exact hle
  · intro body hb x hx
    obtain ⟨p, hp, rfl⟩ := List.mem_map.mp hb
    obtain ⟨pre, post, heq, h255⟩ := hmem p hp
    obtain ⟨off, hc, -⟩ := hnum p hp
    rw [carried_packetBody hc h255] at hx
    obtain ⟨e, he, rfl⟩ := List.mem_map.mp hx
    refine ⟨List.mem_map.mpr ⟨e, ?_, rfl⟩, hall p hp e he⟩
    rw [heq]
    exact List.mem_append_left _ (List.mem_append_right _ he)

theorem InputSender.push_cases (s : InputSender) (ev : InputEvent) :
    (∃ es last merged, s.pending = es ++ [last] ∧ 0 < asI32 (last.seq - s.sent) ∧ merge last.event ev = some merged ∧
      s.push ev = { s with pending := es ++ [{ last with event := merged }] }) ∨
    s.push ev = { s with pending := s.pending ++ [⟨s.next_seq, ev, 0⟩], next_seq := s.next_seq + 1 } := by
  unfold InputSender.push
  cases hm : s.mergeable ev with
  | none => exact .inr rfl
  | some merged =>
    refine .inl ?_
    unfold InputSender.mergeable at hm
    rcases List.eq_nil_or_concat' s.pending with hnil | ⟨es, last, hes⟩
    · simp [hnil] at hm
    · rw [hes, List.getLast?_concat, Option.bind_eq_bind, Option.bind_some] at hm
      split_ifs at hm with hunsent
      refine ⟨es, last, merged, hes, hunsent, hm, ?_⟩
      dsimp only
      rw [hes, List.length_append, List.length_singleton, Nat.add_sub_cancel, List.modify_eq_take_cons_drop (by simp)]
      simp

theorem InputSender.ack_spec {s : InputSender} {base : ℕ} (h : s.Numbered base)
    (hlt : base + s.pending.length < 2^31) (seq : UInt32) (hseq : seq.toNat < 2^31) :
    (s.ack seq).pending = s.pending.drop (seq.toNat - base) := by
  unfold InputSender.ack
  dsimp only
  have hc := h.consecutive
  generalize s.pending = es at hc hlt
  clear h
  induction es generalizing base with
  | nil => simp
  | cons e es ih =>
    rw [List.length_cons] at hlt
    have he := hc.toNat_seq (by rw [List.length_cons]; omega) (i := 0) rfl
    rw [List.filter_cons, asI32_sub (by omega) hseq]
    have hih := ih hc.tail (by omega)
    split_ifs with hgt
    · rw [decide_eq_true_eq] at hgt
      rw [hih, Nat.sub_eq_zero_of_le (by omega), Nat.sub_eq_zero_of_le (by omega)]
      rfl
    · rw [decide_eq_true_eq] at hgt
      rw [hih, show seq.toNat - base = seq.toNat - (base + 1) + 1 by omega, List.drop_succ_cons]

theorem InputReceiver.applyAll_spec {content : ℕ → InputEvent} {limit : ℕ} (hlimit : limit < 2^31)
    (xs : List (UInt32 × InputEvent))
    (hxs : ∀ x ∈ xs, 1 ≤ x.1.toNat ∧ x.1.toNat ≤ limit ∧ x.2 = content x.1.toNat)
    {r : InputReceiver} (hr : r.applied.toNat ≤ limit) :
    let d := r.applyAll xs
    r.applied.toNat ≤ d.1.applied.toNat ∧ d.1.applied.toNat ≤ limit ∧
      d.2 = (List.range' (r.applied.toNat + 1) (d.1.applied.toNat - r.applied.toNat)).map content ∧
      ∀ n, r.applied.toNat < n → n ≤ d.1.applied.toNat → ∃ x ∈ xs, x.1.toNat = n := by
  induction xs generalizing r with
  | nil =>
    refine ⟨Nat.le_refl _, hr, ?_, fun n h1 h2 => absurd h2 (not_le.mpr h1)⟩
    rw [InputReceiver.applyAll, Nat.sub_self]
    rfl
  | cons x xs ih =>
    obtain ⟨seq, ev⟩ := x
    obtain ⟨hpos, hle, hev⟩ := hxs _ List.mem_cons_self
    have hxs' := fun x hx => hxs x (List.mem_cons_of_mem _ hx)
    dsimp only at hpos hle hev
    unfold InputReceiver.applyAll
    dsimp only
    rw [asI32_sub (by omega) (by omega)]
    split_ifs with hone hgap
    · -- The next event due.
      have hnext : seq.toNat = r.applied.toNat + 1 := by omega
      obtain ⟨hge, hle', hout, hall⟩ := ih hxs' (r := ⟨seq⟩) hle
      dsimp only at hge hle' hout hall ⊢
      refine ⟨by omega, hle', ?_, ?_⟩
      · rw [hout, show (InputReceiver.applyAll ⟨seq⟩ xs).1.applied.toNat - r.applied.toNat =
          (InputReceiver.applyAll ⟨seq⟩ xs).1.applied.toNat - seq.toNat + 1 by omega,
          List.range'_succ, List.map_cons, ← hnext, hev]
      · intro n hn hn'
        by_cases heq : seq.toNat = n
        · exact ⟨_, List.mem_cons_self, heq⟩
        · obtain ⟨x, hx, hxn⟩ := hall n (by omega) hn'
          exact ⟨x, List.mem_cons_of_mem _ hx, hxn⟩
    · refine ⟨Nat.le_refl _, hr, ?_, fun n h1 h2 => absurd h2 (not_le.mpr h1)⟩
      rw [Nat.sub_self]
      rfl
    · obtain ⟨hge, hle', hout, hall⟩ := ih hxs' hr
      refine ⟨hge, hle', hout, fun n hn hn' => ?_⟩
      obtain ⟨x, hx, hxn⟩ := hall n hn hn'
      exact ⟨x, List.mem_cons_of_mem _ hx, hxn⟩

/-! ## Runs -/

structure World where
  sender : InputSender
  receiver : InputReceiver
  /-- Every packet body that the sender put out. -/
  wire : List (List UInt8)
  /-- Every value of `applied()` that the receiver put out. -/
  acks : List UInt32
  pushed : List InputEvent
  /-- The events returned by `receive`. -/
  returned : List InputEvent

inductive Action where
  | push (ev : InputEvent)
  | packets (max_packets : ℕ)
  | cappedPackets (max_packets : ℕ)
  | receive (i : ℕ)
  | report
  | ack (i : ℕ)

def World.new : World := ⟨InputSender.new, InputReceiver.new, [], [], [], []⟩

/-- A packet body handed to the receiver. -/
def World.receive (w : World) (body : List UInt8) : World :=
  let r := w.receiver.receive body
  { w with receiver := r.1, returned := w.returned ++ r.2 }

def World.put (w : World) (p : InputSender × List (List UInt8)) : World :=
  { w with sender := p.1, wire := w.wire ++ p.2 }

def World.step (w : World) : Action → World
  | .push ev => { w with sender := w.sender.push ev, pushed := w.pushed ++ [ev] }
  | .packets max_packets => w.put (w.sender.packets max_packets)
  | .cappedPackets max_packets => w.put (w.sender.cappedPackets max_packets)
  | .receive i => w.wire[i]?.elim w w.receive
  | .report => { w with acks := w.acks ++ [w.receiver.applied] }
  | .ack i => w.acks[i]?.elim w fun seq => { w with sender := w.sender.ack seq }

def World.after (as : List Action) : World := run World.step World.new as

structure World.Inv (content : ℕ → InputEvent) (base : ℕ) (w : World) : Prop where
  numbered : w.sender.Numbered base
  le_pushed : base + w.sender.pending.length ≤ w.pushed.length
  base_le : base ≤ w.receiver.applied.toNat
  applied_le : w.receiver.applied.toNat ≤ w.sender.sent.toNat
  pending : ∀ x ∈ w.sender.pending.map Entry.content, x.1.toNat ≤ w.sender.sent.toNat → x.2 = content x.1.toNat
  wire : ∀ body ∈ w.wire, ∀ x ∈ carried body, 1 ≤ x.1.toNat ∧ x.1.toNat ≤ w.sender.sent.toNat ∧ x.2 = content x.1.toNat
  acks : ∀ a ∈ w.acks, a.toNat ≤ w.receiver.applied.toNat
  returned : w.returned = (List.range' 1 w.receiver.applied.toNat).map content
  applied : ∀ n, 1 ≤ n → n ≤ w.receiver.applied.toNat → ∃ body ∈ w.wire, ∃ x ∈ carried body, x.1.toNat = n

theorem World.inv_new (content : ℕ → InputEvent) : World.new.Inv content 0 where
  numbered := ⟨fun i e hi => by simp [World.new, InputSender.new] at hi, rfl, Nat.le_refl _⟩
  le_pushed := Nat.le_refl _
  base_le := Nat.le_refl _
  applied_le := Nat.le_refl _
  pending x hx := by simp [World.new, InputSender.new] at hx
  wire body hb := absurd hb List.not_mem_nil
  acks a ha := absurd ha List.not_mem_nil
  returned := rfl
  applied n h1 h2 := by
    change n ≤ 0 at h2
    omega

theorem World.Inv.push {content : ℕ → InputEvent} {base : ℕ} {w : World} (h : w.Inv content base)
    (hlt : w.pushed.length + 1 < 2^31) (ev : InputEvent) : (w.step (.push ev)).Inv content base := by
  have hpushed := h.le_pushed
  have hsent := h.numbered.sent_le
  rcases w.sender.push_cases ev with ⟨es, last, merged, hes, hunsent, -, hpush⟩ | hpush
  · have hc := h.numbered.consecutive
    rw [hes] at hc
    have hlen : w.sender.pending.length = es.length + 1 := by simp [hes]
    have hlast : last.seq.toNat = base + 1 + es.length := hc.toNat_seq (by simp; omega) (by simp)
    rw [asI32_sub (by omega) (by omega)] at hunsent
    have hsender : (w.step (.push ev)).sender =
        { w.sender with pending := es ++ [{ last with event := merged }] } := hpush
    constructor
    · rw [hsender]
      refine ⟨?_, ?_, ?_⟩
      · obtain ⟨hes', hl⟩ := Consecutive.append.mp hc
        refine Consecutive.append.mpr ⟨hes', fun i e hi => ?_⟩
        obtain ⟨hi0, hget⟩ := List.getElem?_eq_some_iff.mp hi
        rw [List.length_singleton] at hi0
        rw [Nat.lt_one_iff] at hi0
        subst hi0
        rw [← hget]
        exact hl 0 last rfl
      · simpa [hlen] using h.numbered.next_seq
      · simpa [hlen] using hsent
    · rw [hsender]
      change base + (es ++ [_]).length ≤ (w.pushed ++ [ev]).length
      simp only [List.length_append, List.length_singleton]
      omega
    · exact h.base_le
    · rw [hsender]
      exact h.applied_le
    · rw [hsender]
      intro x hx hle
      dsimp only at hx hle
      rw [List.map_append, List.map_singleton, List.mem_append, List.mem_singleton] at hx
      rcases hx with hx | rfl
      · refine h.pending x ?_ hle
        rw [hes, List.map_append]
        exact List.mem_append_left _ hx
      · -- The event merged into is above the watermark.
        change last.seq.toNat ≤ _ at hle
        omega
    · rw [hsender]
      exact h.wire
    · exact h.acks
    · exact h.returned
    · exact h.applied
  · have hsender : (w.step (.push ev)).sender = { w.sender with
        pending := w.sender.pending ++ [⟨w.sender.next_seq, ev, 0⟩],
        next_seq := w.sender.next_seq + 1 } := hpush
    have hnext : w.sender.next_seq = UInt32.ofNat (base + 1 + w.sender.pending.length) := by
      rw [h.numbered.next_seq]
      congr 1
      omega
    constructor
    · rw [hsender]
      refine ⟨?_, ?_, ?_⟩
      · refine Consecutive.append.mpr ⟨h.numbered.consecutive, fun i e hi => ?_⟩
        obtain ⟨hi0, hget⟩ := List.getElem?_eq_some_iff.mp hi
        rw [List.length_singleton, Nat.lt_one_iff] at hi0
        subst hi0
        rw [← hget]
        exact hnext
      · dsimp only
        rw [hnext, List.length_append, List.length_singleton,
          show base + (w.sender.pending.length + 1) + 1 = base + 1 + w.sender.pending.length + 1 by omega]
        exact (UInt32.ofNat_add _ 1).symm
      · dsimp only
        rw [List.length_append, List.length_singleton]
        omega
    · rw [hsender]
      change base + (w.sender.pending ++ [_]).length ≤ (w.pushed ++ [ev]).length
      simp only [List.length_append, List.length_singleton]
      omega
    · exact h.base_le
    · rw [hsender]
      exact h.applied_le
    · rw [hsender]
      intro x hx hle
      dsimp only at hx hle
      rw [List.map_append, List.map_singleton, List.mem_append, List.mem_singleton] at hx
      rcases hx with hx | rfl
      · exact h.pending x hx hle
      · change w.sender.next_seq.toNat ≤ _ at hle
        rw [hnext, toNat_ofNat_of_lt (by omega)] at hle
        omega
    · rw [hsender]
      exact h.wire
    · exact h.acks
    · exact h.returned
    · exact h.applied

/-- The event pending under number `n`. -/
def InputSender.eventAt (s : InputSender) (base n : ℕ) : InputEvent :=
  (s.pending[n - (base + 1)]?.map Entry.event).getD .secureAttention

theorem World.Inv.put {content : ℕ → InputEvent} {base : ℕ} {w : World} (h : w.Inv content base)
    (hlt : w.pushed.length < 2^31) (start max_packets : ℕ) :
    ∃ content', (w.put (w.sender.packetsFrom start max_packets)).Inv content' base := by
  have hpushed := h.le_pushed
  have hsent := h.numbered.sent_le
  have hbase := h.base_le
  have happlied := h.applied_le
  obtain ⟨hnum, hcontent, hnext, hge, hout⟩ := w.sender.packetsFrom_spec h.numbered (by omega) start max_packets
  unfold World.put
  generalize w.sender.packetsFrom start max_packets = p at hnum hcontent hnext hge hout ⊢
  have hlen : p.1.pending.length = w.sender.pending.length := by
    simpa using congrArg List.length hcontent
  -- What is pending above the old watermark is fixed now.
  let content' : ℕ → InputEvent := fun n =>
    if n ≤ w.sender.sent.toNat then content n else w.sender.eventAt base n
  have hold : ∀ n ≤ w.sender.sent.toNat, content' n = content n := fun n hn => if_pos hn
  have hpending : ∀ x ∈ w.sender.pending.map Entry.content, 1 ≤ x.1.toNat ∧ x.2 = content' x.1.toNat := by
    intro x hx
    obtain ⟨e, he, rfl⟩ := List.mem_map.mp hx
    obtain ⟨i, hi⟩ := List.mem_iff_getElem?.mp he
    have hseq := h.numbered.consecutive.toNat_seq (by omega) hi
    change 1 ≤ e.seq.toNat ∧ e.event = content' e.seq.toNat
    refine ⟨by omega, ?_⟩
    by_cases hle : e.seq.toNat ≤ w.sender.sent.toNat
    · rw [hold _ hle]
      exact h.pending _ hx hle
    · change e.event = if _ then _ else _
      rw [if_neg hle, InputSender.eventAt, hseq, Nat.add_sub_cancel_left, hi]
      rfl
  refine ⟨content', ⟨hnum, by rw [hlen]; exact hpushed, hbase, happlied.trans hge, ?_, ?_, h.acks, ?_, ?_⟩⟩
  · intro x hx _
    rw [hcontent] at hx
    exact (hpending x hx).2
  · intro body hb x hx
    rcases List.mem_append.mp hb with hb | hb
    · obtain ⟨hpos, hle, heq⟩ := h.wire body hb x hx
      exact ⟨hpos, hle.trans hge, by rw [heq, hold _ hle]⟩
    · obtain ⟨hmem, hle⟩ := hout body hb x hx
      obtain ⟨hpos, heq⟩ := hpending x hmem
      exact ⟨hpos, hle, heq⟩
  · dsimp only
    rw [h.returned]
    refine List.map_congr_left fun n hn => ?_
    rw [List.mem_range'_1] at hn
    exact (hold n (by omega)).symm
  · intro n h1 h2
    obtain ⟨body, hb, hx⟩ := h.applied n h1 h2
    exact ⟨body, List.mem_append_left _ hb, hx⟩

theorem World.Inv.receive {content : ℕ → InputEvent} {base : ℕ} {w : World} (h : w.Inv content base)
    (hlt : w.pushed.length < 2^31) {body : List UInt8} (hb : body ∈ w.wire) :
    (w.receive body).Inv content base := by
  have hpushed := h.le_pushed
  have hsent := h.numbered.sent_le
  have hrec := InputReceiver.applyAll_spec (by omega) (carried body) (h.wire body hb) h.applied_le
  obtain ⟨hge, hle, hout, hall⟩ := hrec
  unfold World.receive
  rw [InputReceiver.receive_eq]
  generalize w.receiver.applyAll (carried body) = r at hge hle hout hall ⊢
  refine ⟨h.numbered, h.le_pushed, h.base_le.trans hge, hle, h.pending, h.wire,
    fun a ha => (h.acks a ha).trans hge, ?_, ?_⟩
  · dsimp only
    rw [h.returned, hout, ← List.map_append, Nat.add_comm w.receiver.applied.toNat 1,
      List.range'_append_1, Nat.add_sub_cancel' hge]
  · intro n h1 h2
    by_cases hn : n ≤ w.receiver.applied.toNat
    · exact h.applied n h1 hn
    · obtain ⟨x, hx, hxn⟩ := hall n (by omega) h2
      exact ⟨body, hb, x, hx, hxn⟩

theorem World.Inv.ack {content : ℕ → InputEvent} {base : ℕ} {w : World} (h : w.Inv content base)
    (hlt : w.pushed.length < 2^31) {seq : UInt32} (hseq : seq ∈ w.acks) :
    ∃ base', World.Inv content base' { w with sender := w.sender.ack seq } := by
  have hpushed := h.le_pushed
  have hsent := h.numbered.sent_le
  have happlied := h.applied_le
  have hack := h.acks seq hseq
  have hpend := InputSender.ack_spec h.numbered (by omega) seq (by omega)
  have hlen : (w.sender.ack seq).pending.length = w.sender.pending.length - (seq.toNat - base) := by
    rw [hpend, List.length_drop]
  refine ⟨base + (seq.toNat - base), ⟨⟨?_, ?_, ?_⟩, ?_, ?_, happlied, ?_, h.wire, h.acks, h.returned, h.applied⟩⟩
  · intro i e hi
    dsimp only at hi
    rw [hpend, List.getElem?_drop] at hi
    rw [h.numbered.consecutive _ e hi]
    congr 1
    omega
  · dsimp only
    rw [hlen]
    change w.sender.next_seq = _
    rw [h.numbered.next_seq]
    congr 1
    omega
  · dsimp only
    rw [hlen]
    change w.sender.sent.toNat ≤ _
    omega
  · dsimp only
    rw [hlen]
    omega
  · have := h.base_le
    dsimp only
    omega
  · intro x hx hle
    dsimp only at hx
    rw [hpend] at hx
    exact h.pending x (List.map_subset _ (List.drop_subset _ _) hx) hle

theorem World.Inv.step {content : ℕ → InputEvent} {base : ℕ} {w : World} (h : w.Inv content base)
    (a : Action) (hlt : (w.step a).pushed.length < 2^31) :
    ∃ content' base', (w.step a).Inv content' base' := by
  cases a with
  | push ev => exact ⟨content, base, h.push (by simpa [World.step] using hlt) ev⟩
  | packets max_packets =>
    obtain ⟨content', h'⟩ := h.put hlt 0 max_packets
    exact ⟨content', base, h'⟩
  | cappedPackets max_packets =>
    obtain ⟨content', h'⟩ := h.put hlt _ max_packets
    exact ⟨content', base, h'⟩
  | receive i =>
    cases hi : w.wire[i]? with
    | none => exact ⟨content, base, by simpa [World.step, hi] using h⟩
    | some body =>
      have hstep : w.step (.receive i) = w.receive body := by simp [World.step, hi]
      rw [hstep] at hlt ⊢
      exact ⟨content, base, h.receive hlt (List.mem_of_getElem? hi)⟩
  | report =>
    refine ⟨content, base, ⟨h.numbered, h.le_pushed, h.base_le, h.applied_le, h.pending, h.wire, ?_,
      h.returned, h.applied⟩⟩
    intro a ha
    rcases List.mem_append.mp ha with ha | ha
    · exact h.acks a ha
    · rw [List.mem_singleton.mp ha]
      exact Nat.le_refl _
  | ack i =>
    cases hi : w.acks[i]? with
    | none => exact ⟨content, base, by simpa [World.step, hi] using h⟩
    | some seq =>
      have hstep : w.step (.ack i) = { w with sender := w.sender.ack seq } := by
        simp [World.step, hi]
      rw [hstep] at hlt ⊢
      obtain ⟨base', h'⟩ := h.ack hlt (List.mem_of_getElem? hi)
      exact ⟨content, base', h'⟩

theorem World.length_pushed_le (w : World) (a : Action) : w.pushed.length ≤ (w.step a).pushed.length := by
  cases a with
  | push ev => simp [World.step]
  | receive i => cases hi : w.wire[i]? <;> simp [World.step, World.receive, hi]
  | ack i => cases hi : w.acks[i]? <;> simp [World.step, hi]
  | _ => exact Nat.le_refl _

theorem World.inv_after (as : List Action) (hlen : (World.after as).pushed.length < 2^31) :
    ∃ content base, (World.after as).Inv content base :=
  invariant_run_of_bound (fun w => ∃ content base, World.Inv content base w)
    (fun w => w.pushed.length < 2^31) ⟨fun _ => .secureAttention, 0, World.inv_new _⟩
    (fun w a => (w.length_pushed_le a).trans_lt)
    (fun _ a ⟨_, _, h⟩ hlt => h.step a hlt) as hlen

/-- In every run of fewer than `2^31` events, over any network: there is one content for each number
such that the events returned are those numbered `1..applied`, in order, each of them carried by some
packet; every packet that ever carried a number, and the sender up to its watermark, has that content
for it; and the sender still holds every number above `applied`. -/
theorem input_exactly_once (as : List Action) (hlen : (World.after as).pushed.length < 2^31) :
    let w := World.after as
    ∃ content : ℕ → InputEvent,
      w.returned = (List.range' 1 w.receiver.applied.toNat).map content ∧
      (∀ n, 1 ≤ n → n ≤ w.receiver.applied.toNat → ∃ body ∈ w.wire, ∃ x ∈ carried body, x.1.toNat = n) ∧
      (∀ body ∈ w.wire, ∀ x ∈ carried body, x.2 = content x.1.toNat) ∧
      (∀ e ∈ w.sender.pending, e.seq.toNat ≤ w.sender.sent.toNat → e.event = content e.seq.toNat) ∧
      (∀ body ∈ w.wire, ∀ x ∈ carried body, x.1.toNat ≤ w.sender.sent.toNat) ∧
      ∀ n, w.receiver.applied.toNat < n → n < w.sender.next_seq.toNat → ∃ e ∈ w.sender.pending, e.seq.toNat = n := by
  intro w
  obtain ⟨content, base, h⟩ := World.inv_after as hlen
  have hpushed := h.le_pushed
  refine ⟨content, h.returned, h.applied, fun body hb x hx => (h.wire body hb x hx).2.2, ?_,
    fun body hb x hx => (h.wire body hb x hx).2.1, ?_⟩
  · intro e he hle
    exact h.pending _ (List.mem_map_of_mem he) hle
  · intro n hn hnext
    have hbase := h.base_le
    have hnum := h.numbered
    change (World.after as).receiver.applied.toNat < n at hn
    rw [hnum.next_seq, toNat_ofNat_of_lt (by omega)] at hnext
    obtain ⟨e, hget⟩ : ∃ e, (World.after as).sender.pending[n - (base + 1)]? = some e :=
      ⟨_, List.getElem?_eq_getElem (by omega)⟩
    refine ⟨_, List.mem_of_getElem? hget, ?_⟩
    rw [hnum.consecutive.toNat_seq (by omega) hget]
    omega

def lossy : List Action :=
  [.push (.key 30 false true), .packets 1, .push (.key 30 false false), .packets 1, .receive 1,
    .receive 1, .push (.mouseAbs 1 1), .push (.mouseAbs 2 2), .packets 1, .push (.mouseAbs 3 3),
    .receive 2, .report, .ack 0]

theorem input_exactly_once_lossy :
    (World.after lossy).returned = [.key 30 false true, .key 30 false false, .mouseAbs 2 2] ∧
      ∀ n, 3 < n → n < (World.after lossy).sender.next_seq.toNat →
        ∃ e ∈ (World.after lossy).sender.pending, e.seq.toNat = n := by
  have happlied : (World.after lossy).receiver.applied.toNat = 3 := by decide +kernel
  obtain ⟨content, -, -, -, -, -, hheld⟩ := input_exactly_once lossy (by decide +kernel)
  exact ⟨by decide +kernel, fun n hn => hheld n (by rwa [happlied])⟩

end Rdpio.Hyper.Input
