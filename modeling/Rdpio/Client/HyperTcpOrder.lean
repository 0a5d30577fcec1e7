import Mathlib.Data.List.Nodup
import Mathlib.Data.List.Perm.Basic
import Rdpio.Client.HyperTcp

/-!
# What the copy stream hands over

What is sealed, opened and handed to the sink, whatever threads and connections do (`striped_copy_stream`).
-/

namespace Rdpio.Client.HyperTcp

open Lib Hyper.BulkTcp
open Hyper.Messages (Json Message clampStreams)
open Hyper.Wire (Aead)

def Encodes (json : Json) (sent : List Message) (rec : List UInt8) : Prop :=
  ∃ (seq : ℕ) (m : Message), sent[seq]? = some m ∧ rec = numbered json (UInt64.ofNat seq) m

theorem Encodes.mono {json : Json} {sent : List Message} {rec : List UInt8}
    (h : Encodes json sent rec) (m : Message) : Encodes json (sent ++ [m]) rec := by
  obtain ⟨seq, m', hm, hrec⟩ := h
  exact ⟨seq, m', by rw [List.getElem?_append_left (List.getElem?_eq_some_iff.mp hm).1, hm], hrec⟩

/-- What waits for its turn, when the first `count` messages have been handed out. -/
structure Reorder.Valid (json : Json) (sent : List Message) (o : Reorder) (count : ℕ) : Prop where
  next : o.next = UInt64.ofNat count
  count_le : count ≤ sent.length
  held : ∀ x ∈ o.held, ∃ m, sent[x.1.toNat]? = some m ∧ x.2 = numbered json x.1 m

section
variable {json : Json} {sent : List Message}

theorem Reorder.Valid.mono {o : Reorder} {count : ℕ} (h : o.Valid json sent count) (m : Message) :
    o.Valid json (sent ++ [m]) count := by
  refine ⟨h.next, ?_, fun x hx => ?_⟩
  · rw [List.length_append]
    exact h.count_le.trans (Nat.le_add_right _ _)
  · obtain ⟨m', hm, hrec⟩ := h.held x hx
    exact ⟨m', by rw [List.getElem?_append_left (List.getElem?_eq_some_iff.mp hm).1, hm], hrec⟩

theorem seq_numbered (json : Json) (seq : UInt64) (m : Message) :
    UInt64.ofNat (ofLe ((numbered json seq m).take 8)) = seq := by
  rw [numbered, take_leBytes_append, ofLe_leBytes_of_lt seq.toNat_lt, UInt64.ofNat_toNat]

theorem Reorder.Valid.insert {o : Reorder} {count : ℕ} (h : o.Valid json sent count)
    (hlen : sent.length < 2^64) {rec : List UInt8} (hrec : Encodes json sent rec) :
    (o.insert (UInt64.ofNat (ofLe (rec.take 8))) rec).Valid json sent count := by
  obtain ⟨seq, m, hm, rfl⟩ := hrec
  have hlt : seq < sent.length := (List.getElem?_eq_some_iff.mp hm).1
  have hseq : (UInt64.ofNat seq).toNat = seq := UInt64.toNat_ofNat_of_lt' (hlt.trans hlen)
  rw [seq_numbered]
  refine ⟨h.next, h.count_le, fun x hx => ?_⟩
  rcases List.mem_cons.mp hx with rfl | hx
  · exact ⟨m, by rw [hseq, hm], rfl⟩
  · exact h.held x (List.mem_filter.mp hx).1

theorem Reorder.drain_none {o : Reorder} (h : o.held.lookup o.next = none) : o.drain = (o, []) := by
  rw [Reorder.drain]
  split
  · rfl
  next hsome =>
    rw [h] at hsome
    cases hsome

theorem Reorder.drain_some {o : Reorder} {rec : List UInt8} (h : o.held.lookup o.next = some rec) :
    o.drain = (o.pop.drain.1, rec :: o.pop.drain.2) := by
  rw [Reorder.drain]
  split
  next hnone =>
    rw [h] at hnone
    cases hnone
  next hsome =>
    rw [h] at hsome
    rw [Option.some.inj hsome]

theorem Reorder.Valid.pop {o : Reorder} {count : ℕ} (h : o.Valid json sent count)
    (hcount : count < sent.length) : o.pop.Valid json sent (count + 1) := by
  refine ⟨?_, hcount, fun x hx => h.held x (List.mem_filter.mp hx).1⟩
  change o.next + 1 = _
  rw [h.next, UInt64.ofNat_add]
  rfl

theorem Reorder.Valid.drain (hlen : sent.length < 2^64) (hcarried : ∀ m ∈ sent, m.Carried json) (o : Reorder) {count : ℕ}
    (h : o.Valid json sent count) :
    ∃ count', o.drain.1.Valid json sent count' ∧
      sent.take count ++ o.drain.2.filterMap (fun r => Message.parse json (r.drop 8)) = sent.take count' := by
  induction o using Reorder.drain.induct generalizing count with
  | case1 o hnone =>
    rw [Reorder.drain_none hnone]
    exact ⟨count, h, List.append_nil _⟩
  | case2 o rec hsome ih =>
    obtain ⟨m, hm, hrec⟩ := h.held _ (Reorder.mem_held hsome)
    dsimp only at hm hrec
    have hnext : o.next.toNat = count := by
      rw [h.next]
      exact UInt64.toNat_ofNat_of_lt' (h.count_le.trans_lt hlen)
    rw [hnext] at hm
    obtain ⟨hcount, hget⟩ := List.getElem?_eq_some_iff.mp hm
    obtain ⟨count', hvalid, htaken⟩ := ih (h.pop hcount)
    have hparse : Message.parse json (rec.drop 8) = some m := by
      rw [hrec, numbered, List.drop_left' (length_leBytes _ _)]
      exact Message.parse_toBytes (hcarried m (List.mem_of_getElem? hm))
    refine ⟨count', ?_, ?_⟩
    · rw [Reorder.drain_some hsome]
      exact hvalid
    · rw [Reorder.drain_some hsome]
      dsimp only
      rw [List.filterMap_cons, hparse, ← htaken, List.take_add_one, hm]
      simp

end

/-! ## One way -/

def plainsOf (sealed : List Sealed) (lane : UInt8) : List (List UInt8) :=
  (sealed.filter (·.lane = lane)).map Sealed.plain

def Way.plains (w : Way) (lane : UInt8) : List (List UInt8) := plainsOf w.sealed lane

theorem plainsOf_concat_self (sealed : List Sealed) (lane : UInt8) (counter : UInt64)
    (plain : List UInt8) :
    plainsOf (sealed ++ [⟨lane, counter, plain⟩]) lane = plainsOf sealed lane ++ [plain] := by
  simp [plainsOf]

theorem plainsOf_concat_of_ne (sealed : List Sealed) {lane l : UInt8} (h : l ≠ lane)
    (counter : UInt64) (plain : List UInt8) :
    plainsOf (sealed ++ [⟨lane, counter, plain⟩]) l = plainsOf sealed l := by
  simp [plainsOf, h.symm]

/-- The records of a connection, from number `c` on. -/
def frames (aead : Aead) (dir : Dir) (lane : UInt8) : ℕ → List (List UInt8) → List UInt8
  | _, [] => []
  | c, plain :: plains => record aead dir lane (UInt64.ofNat c) plain ++ frames aead dir lane (c + 1) plains

theorem frames_concat (aead : Aead) (dir : Dir) (lane : UInt8) (c : ℕ) (plains : List (List UInt8))
    (plain : List UInt8) : frames aead dir lane c (plains ++ [plain]) =
      frames aead dir lane c plains ++ record aead dir lane (UInt64.ofNat (c + plains.length)) plain := by
  induction plains generalizing c with
  | nil => simp [frames]
  | cons p plains ih =>
    rw [List.cons_append, frames, frames, ih, List.append_assoc, List.length_cons]
    congr 4
    omega

def hellosOf (dir : Dir) : ℕ := if dir = .clientToHost then 1 else 0

structure Way.Streaming (aead : Aead) (dir : Dir) (w : Way) (lane : UInt8) (past : ℕ) : Prop where
  hellos : hellosOf dir ≤ past
  past_le : past ≤ (w.plains lane).length
  opener : w.rx.opener lane = ⟨dir, lane, UInt64.ofNat past⟩
  bytes : (w.wire lane).bytes <+: frames aead dir lane past ((w.plains lane).drop past)
  whole : w.tx.writing lane = true → (w.wire lane).cut = false →
    (w.wire lane).bytes = frames aead dir lane past ((w.plains lane).drop past)

/-- What holds of one way after every step. -/
structure Way.Inv (aead : Aead) (json : Json) (lanes : UInt8) (dir : Dir) (w : Way) : Prop where
  next : w.tx.next_seq = UInt64.ofNat w.sent.length
  writing : ∀ lane, w.tx.writing lane = true → lane < lanes
  reading : ∀ lane, w.rx.reading lane = true → lane < lanes
  sealer : ∀ lane, lane < lanes → w.tx.sealer lane = ⟨dir, lane, UInt64.ofNat (w.plains lane).length⟩
  handing : ∀ x ∈ w.tx.handing, Encodes json w.sent x.2
  queue : ∀ lane, ∀ rec ∈ w.tx.queue lane, Encodes json w.sent rec
  plains : ∀ lane, ∀ rec ∈ (w.plains lane).drop (hellosOf dir), Encodes json w.sent rec
  fits : ∀ x ∈ w.sealed, x.plain.length + tagLen ≤ maxRecord
  count : ∀ lane, (w.plains lane).length + (w.tx.queue lane).length +
    w.tx.handing.countP (·.1 = lane) ≤ w.sent.length + hellosOf dir
  keys : (w.sealed.map fun x => nonce dir x.lane x.counter).Nodup
  below : ∀ x ∈ w.sealed, x.counter.toNat < (w.plains x.lane).length
  streaming : ∀ lane, w.rx.reading lane = true → ∃ past, w.Streaming aead dir lane past
  order : ∃ count, w.rx.order.Valid json w.sent count ∧ w.rx.sunk = w.sent.take count

section
variable {aead : Aead} {json : Json} {lanes : UInt8} {dir : Dir} {w : Way}

theorem Way.Inv.send (h : w.Inv aead json lanes dir) (n : ℕ) (m : Message) (width : ℕ) :
    (w.send json n m width).Inv aead json lanes dir := by
  have hseq : w.tx.next_seq = UInt64.ofNat w.sent.length := h.next
  obtain ⟨lane, hlane⟩ : ∃ lane, lane = UInt8.ofNat (w.tx.next_seq.toNat % max 1 (min width n)) := ⟨_, rfl⟩
  have hnew : Encodes json (w.sent ++ [m]) (numbered json w.tx.next_seq m) := by
    refine ⟨w.sent.length, m, ?_, by rw [hseq]⟩
    rw [List.getElem?_append_right (Nat.le_refl _), Nat.sub_self]
    rfl
  rw [Way.send]
  dsimp only
  rw [← hlane]
  constructor
  case next =>
    change w.tx.next_seq + 1 = UInt64.ofNat (w.sent ++ [m]).length
    rw [hseq, List.length_append, UInt64.ofNat_add]
    rfl
  case writing => exact h.writing
  case reading => exact h.reading
  case sealer => exact h.sealer
  case handing =>
    intro x hx
    rcases List.mem_append.mp hx with hx | hx
    · exact (h.handing x hx).mono m
    · rw [List.mem_singleton.mp hx]
      exact hnew
  case queue => exact fun lane rec hrec => (h.queue lane rec hrec).mono m
  case plains => exact fun lane rec hrec => (h.plains lane rec hrec).mono m
  case fits => exact h.fits
  -- One more is sent in all, so each connection may have one more.
  case count =>
    intro l
    have hcount := h.count l
    change (w.plains l).length + (w.tx.queue l).length +
      (w.tx.handing ++ [(lane, numbered json w.tx.next_seq m)]).countP (·.1 = l) ≤ (w.sent ++ [m]).length + hellosOf dir
    have hone : [(lane, numbered json w.tx.next_seq m)].countP (·.1 = l) ≤ 1 := List.countP_le_length
    rw [List.countP_append, List.length_append, List.length_singleton]
    omega
  case keys => exact h.keys
  case below => exact h.below
  case streaming =>
    intro l hl
    obtain ⟨past, hs⟩ := h.streaming l hl
    exact ⟨past, hs.hellos, hs.past_le, hs.opener, hs.bytes, hs.whole⟩
  case order =>
    obtain ⟨count, hvalid, hsunk⟩ := h.order
    refine ⟨count, hvalid.mono m, ?_⟩
    change w.rx.sunk = (w.sent ++ [m]).take count
    rw [hsunk, List.take_append_of_le_length hvalid.count_le]

theorem Way.Inv.hand (h : w.Inv aead json lanes dir) (k : ℕ) : (w.hand k).Inv aead json lanes dir := by
  unfold Way.hand
  rcases hk : w.tx.handing[k]? with _ | ⟨lane, rec⟩
  · exact h
  · dsimp only
    obtain ⟨hlt, hget⟩ := List.getElem?_eq_some_iff.mp hk
    have hmem : (lane, rec) ∈ w.tx.handing := List.mem_of_getElem? hk
    -- The message handed over leaves the list it was in.
    have hcount : ∀ l, w.tx.handing.countP (·.1 = l) =
        (if lane = l then 1 else 0) + (w.tx.handing.eraseIdx k).countP (·.1 = l) := by
      intro l
      have hperm := (List.getElem_cons_eraseIdx_perm hlt).countP_eq (fun x => decide (x.1 = l))
      rw [hget, List.countP_cons] at hperm
      rw [← hperm, Nat.add_comm]
      simp
    refine { h with handing := ?handing, queue := ?queue, count := ?count, streaming := ?streaming }
    case handing => exact fun x hx => h.handing x (List.mem_of_mem_eraseIdx hx)
    case queue =>
      intro l r hr
      by_cases hwriting : w.tx.writing lane = true
      · rw [if_pos hwriting] at hr
        dsimp only at hr
        by_cases hl : l = lane
        · rw [hl, Function.update_self] at hr
          rcases List.mem_append.mp hr with hr | hr
          · exact h.queue lane r hr
          · rw [List.mem_singleton.mp hr]
            exact h.handing _ hmem
        · rw [Function.update_of_ne hl] at hr
          exact h.queue l r hr
      · rw [if_neg hwriting] at hr
        exact h.queue l r hr
    case count =>
      intro l
      have hall := h.count l
      rw [hcount l] at hall
      change (w.plains l).length + ((if w.tx.writing lane = true then
          Function.update w.tx.queue lane (w.tx.queue lane ++ [rec]) else w.tx.queue) l).length +
        (w.tx.handing.eraseIdx k).countP (·.1 = l) ≤ w.sent.length + hellosOf dir
      by_cases hwriting : w.tx.writing lane = true
      · rw [if_pos hwriting]
        by_cases hl : l = lane
        · subst hl
          rw [Function.update_self, List.length_append, List.length_singleton]
          rw [if_pos rfl] at hall
          omega
        · rw [Function.update_of_ne hl]
          omega
      · rw [if_neg hwriting]
        omega
    case streaming =>
      intro l hl
      obtain ⟨past, hs⟩ := h.streaming l hl
      exact ⟨past, hs.hellos, hs.past_le, hs.opener, hs.bytes, hs.whole⟩

theorem Way.Inv.cut (h : w.Inv aead json lanes dir) (lane : UInt8) (k : ℕ) :
    (w.cut lane k).Inv aead json lanes dir := by
  refine { h with streaming := ?streaming }
  case streaming =>
    intro l hl
    obtain ⟨past, hs⟩ := h.streaming l hl
    refine ⟨past, hs.hellos, hs.past_le, hs.opener, ?_, ?_⟩
    · change (Function.update w.wire lane _ l).bytes <+: _
      by_cases hlane : l = lane
      · subst hlane
        rw [Function.update_self]
        exact List.IsPrefix.trans ( List.take_prefix _ _) hs.bytes
      · rw [Function.update_of_ne hlane]
        exact hs.bytes
    · change _ → (Function.update w.wire lane _ l).cut = false → (Function.update w.wire lane _ l).bytes = _
      by_cases hlane : l = lane
      · subst hlane
        rw [Function.update_self]
        rintro - ⟨⟩
      · rw [Function.update_of_ne hlane]
        exact hs.whole

theorem Way.Inv.stopWriter (h : w.Inv aead json lanes dir) (lane : UInt8) :
    ({ w with tx := w.tx.stop lane } : Way).Inv aead json lanes dir := by
  have hwriting : ∀ l, (w.tx.stop lane).writing l = true → w.tx.writing l = true := by
    intro l hl
    change Function.update w.tx.writing lane false l = true at hl
    by_cases hlane : l = lane
    · rw [hlane, Function.update_self] at hl
      cases hl
    · rwa [Function.update_of_ne hlane] at hl
  have hqueue : ∀ l, (w.tx.stop lane).queue l = [] ∨ (w.tx.stop lane).queue l = w.tx.queue l := by
    intro l
    change Function.update w.tx.queue lane [] l = [] ∨ Function.update w.tx.queue lane [] l = _
    by_cases hlane : l = lane
    · rw [hlane, Function.update_self]
      exact .inl rfl
    · rw [Function.update_of_ne hlane]
      exact .inr rfl
  refine { h with writing := ?writing, queue := ?queue, count := ?count, streaming := ?streaming }
  case writing => exact fun l hl => h.writing l (hwriting l hl)
  case queue =>
    intro l rec hrec
    rcases hqueue l with hq | hq
    · rw [hq] at hrec
      cases hrec
    · rw [hq] at hrec
      exact h.queue l rec hrec
  case count =>
    intro l
    have hcount := h.count l
    change (w.plains l).length + ((w.tx.stop lane).queue l).length +
      w.tx.handing.countP (·.1 = l) ≤ w.sent.length + hellosOf dir
    rcases hqueue l with hq | hq
    · rw [hq, List.length_nil]
      omega
    · rw [hq]
      exact hcount
  case streaming =>
    intro l hl
    obtain ⟨past, hs⟩ := h.streaming l hl
    exact ⟨past, hs.hellos, hs.past_le, hs.opener, hs.bytes, fun hw => hs.whole (hwriting l hw)⟩

theorem Way.Inv.stopReader (h : w.Inv aead json lanes dir) (lane : UInt8) :
    ({ w with rx := w.rx.stop lane } : Way).Inv aead json lanes dir := by
  have hreading : ∀ l, (w.rx.stop lane).reading l = true → w.rx.reading l = true := by
    intro l hl
    change Function.update w.rx.reading lane false l = true at hl
    by_cases hlane : l = lane
    · rw [hlane, Function.update_self] at hl
      cases hl
    · rwa [Function.update_of_ne hlane] at hl
  refine { h with reading := ?reading, streaming := ?streaming }
  case reading => exact fun l hl => h.reading l (hreading l hl)
  case streaming =>
    intro l hl
    obtain ⟨past, hs⟩ := h.streaming l (hreading l hl)
    exact ⟨past, hs.hellos, hs.past_le, hs.opener, hs.bytes, hs.whole⟩

def Way.wrote (w : Way) (lane : UInt8) (rec : List UInt8) (rest : List (List UInt8))
    (piece : List UInt8) (whole : Bool) : Way :=
  { w with
    tx := { w.tx with
      queue := Function.update w.tx.queue lane rest
      sealer := Function.update w.tx.sealer lane (w.tx.sealer lane).skipOne
      writing := Function.update w.tx.writing lane whole }
    sealed := w.sealed ++ [⟨lane, (w.tx.sealer lane).counter, rec⟩]
    wire := Function.update w.wire lane ((w.wire lane).put piece) }

theorem Way.Inv.wrote (h : w.Inv aead json lanes dir) (hlen : w.sent.length < 2^64) {lane : UInt8}
    {rec : List UInt8} {rest : List (List UInt8)} (hqueue : w.tx.queue lane = rec :: rest)
    (hwriting : w.tx.writing lane = true) (hfits : rec.length + tagLen ≤ maxRecord)
    {piece : List UInt8} {whole : Bool}
    (hpiece : piece <+: record aead dir lane (w.tx.sealer lane).counter rec)
    (hwhole : whole = true → piece = record aead dir lane (w.tx.sealer lane).counter rec) :
    (w.wrote lane rec rest piece whole).Inv aead json lanes dir := by
  have hlane : lane < lanes := h.writing lane hwriting
  have hsealer := h.sealer lane hlane
  have hcounter : (w.tx.sealer lane).counter = UInt64.ofNat (w.plains lane).length := by rw [hsealer]
  have hroom := h.count lane
  rw [hqueue, List.length_cons] at hroom
  have hhello : hellosOf dir ≤ 1 := by
    rw [hellosOf]
    split_ifs <;> omega
  have hnat : (UInt64.ofNat (w.plains lane).length).toNat = (w.plains lane).length :=
    UInt64.toNat_ofNat_of_lt' (lt_of_le_of_lt (by omega : _ ≤ w.sent.length) hlen)
  have hself : (w.wrote lane rec rest piece whole).plains lane = w.plains lane ++ [rec] := plainsOf_concat_self _ _ _ _
  have hother : ∀ l, l ≠ lane → (w.wrote lane rec rest piece whole).plains l = w.plains l :=
    fun l hl => plainsOf_concat_of_ne _ hl _ _
  constructor
  case next => exact h.next
  case writing =>
    intro l hl
    by_cases hl' : l = lane
    · rw [hl']
      exact hlane
    · change Function.update w.tx.writing lane whole l = true at hl
      rw [Function.update_of_ne hl'] at hl
      exact h.writing l hl
  case reading => exact h.reading
  case sealer =>
    intro l hl
    change Function.update w.tx.sealer lane _ l = _
    by_cases hl' : l = lane
    · rw [hl', Function.update_self, hself, hsealer, List.length_append, UInt64.ofNat_add]
      rfl
    · rw [Function.update_of_ne hl', hother l hl']
      exact h.sealer l hl
  case handing => exact h.handing
  case queue =>
    intro l r hr
    change r ∈ Function.update w.tx.queue lane rest l at hr
    by_cases hl' : l = lane
    · rw [hl', Function.update_self] at hr
      exact h.queue lane r (by rw [hqueue]; exact List.mem_cons_of_mem _ hr)
    · rw [Function.update_of_ne hl'] at hr
      exact h.queue l r hr
  case plains =>
    intro l r hr
    by_cases hl' : l = lane
    · rw [hl', hself, List.drop_append] at hr
      rcases List.mem_append.mp hr with hr | hr
      · exact h.plains lane r hr
      · rw [List.mem_singleton.mp (List.mem_of_mem_drop hr)]
        exact h.queue lane rec (by rw [hqueue]; exact List.mem_cons_self)
    · rw [hother l hl'] at hr
      exact h.plains l r hr
  case fits =>
    intro x hx
    rcases List.mem_append.mp hx with hx | hx
    · exact h.fits x hx
    · rw [List.mem_singleton.mp hx]
      exact hfits
  case count =>
    intro l
    have hcount := h.count l
    change ((w.wrote lane rec rest piece whole).plains l).length +
      (Function.update w.tx.queue lane rest l).length + w.tx.handing.countP (·.1 = l) ≤ w.sent.length + hellosOf dir
    by_cases hl' : l = lane
    · rw [hl', hself, Function.update_self, List.length_append, List.length_singleton]
      rw [hl', hqueue, List.length_cons] at hcount
      omega
    · rw [hother l hl', Function.update_of_ne hl']
      exact hcount
  case keys =>
    change ((w.sealed ++ [_]).map fun x : Sealed => nonce dir x.lane x.counter).Nodup
    rw [List.map_append, List.nodup_append]
    refine ⟨h.keys, List.nodup_singleton _, ?_⟩
    intro a ha b hb heq
    obtain ⟨x, hx, rfl⟩ := List.mem_map.mp ha
    rw [List.map_singleton, List.mem_singleton] at hb
    obtain ⟨-, hl, hc⟩ := nonce_inj (heq.trans hb)
    -- The number of the new record is past those of the records before.
    have hbelow := h.below x hx
    dsimp only at hl hc
    rw [hl, hc, hcounter, hnat] at hbelow
    exact absurd hbelow (lt_irrefl _)
  case below =>
    intro x hx
    rcases List.mem_append.mp hx with hx | hx
    · have hbelow := h.below x hx
      by_cases hl' : x.lane = lane
      · rw [hl', hself, List.length_append]
        rw [hl'] at hbelow
        omega
      · rw [hother _ hl']
        exact hbelow
    · rw [List.mem_singleton.mp hx]
      change (w.tx.sealer lane).counter.toNat < ((w.wrote lane rec rest piece whole).plains lane).length
      rw [hself, hcounter, hnat, List.length_append, List.length_singleton]
      exact Nat.lt_succ_self _
  case streaming =>
    intro l hl
    obtain ⟨past, hs⟩ := h.streaming l hl
    by_cases hl' : l = lane
    · subst hl'
      have hframes : frames aead dir l past (((w.wrote l rec rest piece whole).plains l).drop past) =
          frames aead dir l past ((w.plains l).drop past) ++
            record aead dir l (w.tx.sealer l).counter rec := by
        rw [hself, List.drop_append_of_le_length hs.past_le, frames_concat, List.length_drop,
          Nat.add_sub_cancel' hs.past_le, hcounter]
      have hwire : (w.wrote l rec rest piece whole).wire l = (w.wire l).put piece := Function.update_self _ _ _
      refine ⟨past, hs.hellos, ?_, hs.opener, ?_, ?_⟩
      · rw [hself, List.length_append]
        exact hs.past_le.trans (Nat.le_add_right _ _)
      · rw [hframes, hwire, Wire.put]
        by_cases hcut : (w.wire l).cut = true
        · rw [if_pos hcut]
          exact hs.bytes.trans (List.prefix_append _ _)
        · rw [if_neg hcut, hs.whole hwriting (Bool.not_eq_true _ ▸ hcut)]
          exact (List.prefix_append_right_inj _).mpr hpiece
      · intro hw hcut
        have hw' : whole = true := by
          change Function.update w.tx.writing l whole l = true at hw
          rwa [Function.update_self] at hw
        rw [hwire, Wire.put] at hcut ⊢
        by_cases hcut' : (w.wire l).cut = true
        · rw [if_pos hcut'] at hcut
          rw [hcut] at hcut'
          cases hcut'
        · rw [hframes, if_neg hcut', hwhole hw', hs.whole hwriting (Bool.not_eq_true _ ▸ hcut')]
    · have hwire : (w.wrote lane rec rest piece whole).wire l = w.wire l := Function.update_of_ne hl' _ _
      refine ⟨past, hs.hellos, ?_, hs.opener, ?_, ?_⟩
      · rw [hother l hl']
        exact hs.past_le
      · rw [hother l hl', hwire]
        exact hs.bytes
      · intro hw hcut
        change Function.update w.tx.writing lane whole l = true at hw
        rw [Function.update_of_ne hl'] at hw
        rw [hwire] at hcut ⊢
        rw [hother l hl']
        exact hs.whole hw hcut
  case order => exact h.order

theorem Way.Inv.write (h : w.Inv aead json lanes dir) (hlen : w.sent.length < 2^64) (lane : UInt8)
    (out : Option ℕ) : (w.write aead lane out).1.Inv aead json lanes dir := by
  unfold Way.write
  rcases hqueue : w.tx.queue lane with _ | ⟨rec, rest⟩
  · exact h
  · dsimp only
    by_cases hwriting : w.tx.writing lane = true
    · rw [if_pos hwriting, Sealer.write]
      by_cases hbig : maxRecord < rec.length + tagLen
      · rw [if_pos hbig]
        exact h.stopWriter lane
      · rw [if_neg hbig]
        dsimp only
        have hdir : (w.tx.sealer lane).dir = dir := by rw [h.sealer lane (h.writing lane hwriting)]
        have hlane : (w.tx.sealer lane).lane = lane := by rw [h.sealer lane (h.writing lane hwriting)]
        rw [hdir, hlane]
        rcases out with _ | k
        · have hwrote := h.wrote hlen hqueue hwriting (Nat.not_lt.mp hbig) (List.prefix_refl _)
            (fun _ => rfl : true = true → _)
          have hsame : Function.update w.tx.writing lane true = w.tx.writing := by
            rw [← hwriting, Function.update_eq_self]
          rw [Way.wrote, hsame] at hwrote
          exact hwrote
        · have hwrote := h.wrote hlen hqueue hwriting (Nat.not_lt.mp hbig) ( List.take_prefix k _)
            (fun hw => nomatch hw : false = true → _)
          have hstop := hwrote.stopWriter lane
          simpa [Way.wrote, Tx.stop] using hstop
    · rw [if_neg hwriting]
      exact h

theorem Way.Inv.read (hsound : Sound aead) (h : w.Inv aead json lanes dir)
    (hlen : w.sent.length < 2^64) (hcarried : ∀ m ∈ w.sent, m.Carried json) (lane : UInt8) :
    (w.read aead json lane).1.Inv aead json lanes dir := by
  unfold Way.read
  by_cases hreading : w.rx.reading lane = true
  · rw [if_pos hreading]
    obtain ⟨past, hs⟩ := h.streaming lane hreading
    have hwaits : (if (w.wire lane).cut then ({ w with rx := w.rx.stop lane }, true)
        else (w, false) : Way × Bool).1.Inv aead json lanes dir := by
      split_ifs
      · exact h.stopReader lane
      · exact h
    rcases hleft : (w.plains lane).drop past with _ | ⟨plain, plains⟩
    · -- Nothing has been sealed that was not read.
      have hbytes := hs.bytes
      rw [hleft, frames] at hbytes
      have hwait : (w.rx.opener lane).read aead (w.wire lane).bytes = .wait := by
        rw [List.prefix_nil.mp hbytes]
        simp [Opener.read]
      rw [hwait]
      exact hwaits
    · have hmem : plain ∈ (w.plains lane).drop (hellosOf dir) := by
        have : (w.plains lane).drop past = ((w.plains lane).drop (hellosOf dir)).drop
            (past - hellosOf dir) := by
          rw [List.drop_drop, Nat.add_sub_cancel' hs.hellos]
        exact List.mem_of_mem_drop (by rw [← this, hleft]; exact List.mem_cons_self)
      have hencodes := h.plains lane plain hmem
      have hfits : plain.length + tagLen ≤ maxRecord := by
        obtain ⟨x, hx, hxp⟩ := List.mem_map.mp (List.mem_of_mem_drop hmem)
        rw [← hxp]
        exact h.fits x (List.mem_filter.mp hx).1
      have hbytes := hs.bytes
      rw [hleft, frames] at hbytes
      have hopener := hs.opener
      have hbytes' : (w.wire lane).bytes <+: record aead (w.rx.opener lane).dir (w.rx.opener lane).lane
          (w.rx.opener lane).counter plain ++ frames aead dir lane (past + 1) plains := by
        rw [hopener]
        exact hbytes
      rcases (w.rx.opener lane).read_of_part hsound hfits hbytes' with hwait | ⟨rest, hrest, hall, hread⟩
      · rw [hwait]
        exact hwaits
      · rw [hread]
        dsimp only
        have hlong : ¬ plain.length < 8 := by
          obtain ⟨seq, m, -, rfl⟩ := hencodes
          rw [numbered, List.length_append, length_leBytes]
          omega
        rw [if_neg hlong]
        -- What was read goes into the reordering, which may hand on more than one.
        obtain ⟨count, hvalid, hsunk⟩ := h.order
        obtain ⟨count', hvalid', htaken⟩ := Reorder.Valid.drain hlen hcarried _ (hvalid.insert hlen hencodes)
        have hplains : plains = (w.plains lane).drop (past + 1) := by
          rw [← List.drop_drop, hleft]
          rfl
        have hpast : past + 1 ≤ (w.plains lane).length := by
          have hlen := congrArg List.length hleft
          rw [List.length_drop, List.length_cons] at hlen
          omega
        refine { h with streaming := ?streaming, order := ?order }
        case streaming =>
          intro l hl
          by_cases hl' : l = lane
          · -- The connection read from is one record further.
            subst hl'
            refine ⟨past + 1, hs.hellos.trans (Nat.le_succ _), hpast, ?_, ?_, ?_⟩
            · change Function.update w.rx.opener l _ l = _
              rw [Function.update_self, hopener, UInt64.ofNat_add]
              rfl
            · change (Function.update w.wire l _ l).bytes <+: frames aead dir l (past + 1)
                ((w.plains l).drop (past + 1))
              rw [Function.update_self, ← hplains]
              exact hrest
            · intro hw hcut
              change (Function.update w.wire l _ l).cut = false at hcut
              change (Function.update w.wire l _ l).bytes = frames aead dir l (past + 1) ((w.plains l).drop (past + 1))
              rw [Function.update_self] at hcut ⊢
              have hwhole := hs.whole hw hcut
              rw [hall, hleft, frames, hopener] at hwhole
              rw [← hplains]
              exact List.append_cancel_left hwhole
          · obtain ⟨past', hs'⟩ := h.streaming l hl
            have hwire : Function.update w.wire lane { w.wire lane with bytes := rest } l = w.wire l :=
              Function.update_of_ne hl' _ _
            refine ⟨past', hs'.hellos, hs'.past_le, ?_, ?_, ?_⟩
            · change Function.update w.rx.opener lane _ l = _
              rw [Function.update_of_ne hl']
              exact hs'.opener
            · change (Function.update w.wire lane _ l).bytes <+: _
              rw [hwire]
              exact hs'.bytes
            · change _ → (Function.update w.wire lane _ l).cut = false → (Function.update w.wire lane _ l).bytes = _
              rw [hwire]
              exact hs'.whole
        case order =>
          refine ⟨count', hvalid', ?_⟩
          change w.rx.sunk ++ _ = w.sent.take count'
          rw [hsunk]
          exact htaken
  · rw [if_neg hreading]
    exact h

end

/-! ## The first state -/

/-- The hellos of the first `k` connections. -/
def firstHellos (streams : UInt8) (k : ℕ) : List Sealed :=
  (List.range k).map fun i => ⟨UInt8.ofNat i, 0, hello (UInt8.ofNat i) streams⟩

theorem firstHellos_succ (streams : UInt8) (k : ℕ) : firstHellos streams (k + 1) =
      firstHellos streams k ++ [⟨UInt8.ofNat k, 0, hello (UInt8.ofNat k) streams⟩] := by
  rw [firstHellos, List.range_succ, List.map_append]
  rfl

theorem plainsOf_firstHellos (streams : UInt8) {k : ℕ} (hk : k ≤ 256) (lane : UInt8) :
    plainsOf (firstHellos streams k) lane = if lane.toNat < k then [hello lane streams] else [] := by
  induction k with
  | zero => rfl
  | succ k ih =>
    have hnat : (UInt8.ofNat k).toNat = k := UInt8.toNat_ofNat_of_lt' hk
    rw [firstHellos_succ]
    by_cases hlane : lane = UInt8.ofNat k
    · rw [hlane, plainsOf_concat_self, ← hlane, ih (by omega), hlane, hnat, if_neg (by omega),
        if_pos (by omega), List.nil_append]
    · have hne : lane.toNat ≠ k := by
        intro h
        exact hlane (UInt8.toNat_inj.mp (h.trans hnat.symm))
      rw [plainsOf_concat_of_ne _ hlane, ih (by omega)]
      split_ifs <;> first | rfl | omega

section
variable (aead : Aead) (json : Json) {streams : UInt8}

theorem startWith_plains (dir : Dir) (lane : UInt8) : (startWith streams dir).plains lane =
      if dir = .clientToHost ∧ lane < streams then [hello lane streams] else [] := by
  have hle : streams.toNat ≤ 256 := streams.toNat_lt.le
  have hhellos : plainsOf (hellos streams) lane = if lane < streams then [hello lane streams] else [] := by
    change plainsOf (firstHellos streams streams.toNat) lane = _
    rw [plainsOf_firstHellos streams hle]
    rfl
  cases dir with
  | hostToClient => rfl
  | clientToHost =>
    change plainsOf (hellos streams) lane = _
    rw [hhellos]
    simp

theorem inv_startWith (dir : Dir) : (startWith streams dir).Inv aead json streams dir := by
  have hplains : ∀ lane, (startWith streams dir).plains lane =
      if dir = .clientToHost ∧ lane < streams then [hello lane streams] else [] := startWith_plains dir
  have hdrop : ∀ lane, ((startWith streams dir).plains lane).drop (hellosOf dir) = [] := by
    intro lane
    rw [hplains]
    cases dir with
    | hostToClient => rfl
    | clientToHost =>
      change (if _ then [hello lane streams] else []).drop 1 = []
      split_ifs <;> rfl
  have hlength : ∀ lane, lane < streams → ((startWith streams dir).plains lane).length = hellosOf dir := by
    intro lane hlane
    rw [hplains, hellosOf]
    cases dir with
    | hostToClient => rfl
    | clientToHost =>
      rw [if_pos ⟨rfl, hlane⟩]
      rfl
  have hsealed : ∀ x ∈ (startWith streams dir).sealed, dir = .clientToHost ∧
      ∃ i < streams.toNat, x = ⟨UInt8.ofNat i, 0, hello (UInt8.ofNat i) streams⟩ := by
    intro x hx
    cases dir with
    | hostToClient => cases hx
    | clientToHost =>
      obtain ⟨i, hi, rfl⟩ := List.mem_map.mp hx
      exact ⟨rfl, i, List.mem_range.mp hi, rfl⟩
  constructor
  case next => rfl
  case writing => exact fun lane hlane => of_decide_eq_true hlane
  case reading => exact fun lane hlane => of_decide_eq_true hlane
  case sealer =>
    intro lane hlane
    rw [hlength lane hlane]
    cases dir <;> rfl
  case handing => exact fun x hx => nomatch hx
  case queue => exact fun lane x hx => nomatch hx
  case plains =>
    intro lane rec hrec
    rw [hdrop lane] at hrec
    cases hrec
  case fits =>
    intro x hx
    obtain ⟨-, i, -, rfl⟩ := hsealed x hx
    change (helloText ++ [UInt8.ofNat i, streams]).length + tagLen ≤ maxRecord
    have htext : helloText.length = 18 := by decide
    simp [htext, tagLen, maxRecord]
  case count =>
    intro lane
    change ((startWith streams dir).plains lane).length + 0 + 0 ≤ 0 + hellosOf dir
    rw [hplains]
    cases dir with
    | hostToClient => exact Nat.le_refl _
    | clientToHost =>
      change (if _ then [hello lane streams] else []).length + 0 + 0 ≤ 1
      split_ifs <;> simp
  case keys =>
    cases dir with
    | hostToClient => exact List.nodup_nil
    | clientToHost =>
      change ((hellos streams).map _).Nodup
      rw [hellos, List.map_map]
      refine List.nodup_range.map_on fun i hi j hj hij => ?_
      obtain ⟨-, hlane, -⟩ := nonce_inj hij
      have hle : streams.toNat < 256 := streams.toNat_lt
      have hi' := List.mem_range.mp hi
      have hj' := List.mem_range.mp hj
      have hnat := congrArg UInt8.toNat hlane
      dsimp only at hnat
      rwa [UInt8.toNat_ofNat_of_lt' (hi'.trans hle), UInt8.toNat_ofNat_of_lt' (hj'.trans hle)] at hnat
  case below =>
    intro x hx
    obtain ⟨rfl, i, hi, rfl⟩ := hsealed x hx
    have hlane : UInt8.ofNat i < streams := by
      rw [UInt8.lt_iff_toNat_lt, UInt8.toNat_ofNat_of_lt' (hi.trans streams.toNat_lt)]
      exact hi
    rw [hlength _ hlane]
    exact Nat.zero_lt_one
  case streaming =>
    intro lane hlane
    have hlane' : lane < streams := of_decide_eq_true hlane
    refine ⟨hellosOf dir, Nat.le_refl _, (hlength lane hlane').ge, ?_, ?_, ?_⟩
    · cases dir <;> rfl
    · exact List.nil_prefix
    · intro _ _
      rw [hdrop lane]
      rfl
  case order => exact ⟨0, ⟨rfl, Nat.zero_le _, fun x hx => nomatch hx⟩, rfl⟩

end

/-! ## Every run -/

/-- The nonces used under the key. -/
def Session.nonces (s : Session) : List (List UInt8) :=
  ((s.way .clientToHost).sealed.map fun x => nonce .clientToHost x.lane x.counter) ++
    (s.way .hostToClient).sealed.map fun x => nonce .hostToClient x.lane x.counter

/-- Fewer messages than a `u64` counts were sent each way, and they are read back as they were written. -/
def Session.Moderate (json : Json) (s : Session) : Prop :=
  ∀ dir, (s.way dir).sent.length < 2^64 ∧ ∀ m ∈ (s.way dir).sent, m.Carried json

section
variable {aead : Aead} {json : Json}

theorem Way.sent_write (w : Way) (lane : UInt8) (out : Option ℕ) : (w.write aead lane out).1.sent = w.sent := by
  unfold Way.write
  split
  · rfl
  · split_ifs
    · dsimp only
      split
      · rfl
      · split <;> rfl
    · rfl

theorem Way.sent_read (w : Way) (lane : UInt8) : (w.read aead json lane).1.sent = w.sent := by
  unfold Way.read
  split
  · split
    · split <;> rfl
    · rfl
    · dsimp only
      split <;> rfl
  · rfl

theorem Way.sent_hand (w : Way) (k : ℕ) : (w.hand k).sent = w.sent := by
  unfold Way.hand
  split <;> rfl

variable (aead json) in
theorem Session.step_cases (s : Session) (a : Action) : (s.step aead json a).way = s.way ∨
      ∃ dir w, (s.step aead json a).way = Function.update s.way dir w ∧
        ((∃ m width, w = (s.way dir).send json s.lanes m width) ∨ (∃ k, w = (s.way dir).hand k) ∨
          (∃ lane out, w = ((s.way dir).write aead lane out).1) ∨
          (∃ lane, w = ((s.way dir).read aead json lane).1) ∨
          ∃ lane k, w = (s.way dir).cut lane k) := by
  cases a with
  | send dir m width =>
    rw [Session.step]
    split_ifs
    · exact .inl rfl
    · exact .inr ⟨dir, _, rfl, .inl ⟨m, width, rfl⟩⟩
  | hand dir k => exact .inr ⟨dir, _, rfl, .inr (.inl ⟨k, rfl⟩)⟩
  | write dir lane out => exact .inr ⟨dir, _, rfl, .inr (.inr (.inl ⟨lane, out, rfl⟩))⟩
  | read dir lane => exact .inr ⟨dir, _, rfl, .inr (.inr (.inr (.inl ⟨lane, rfl⟩)))⟩
  | cut dir lane k => exact .inr ⟨dir, _, rfl, .inr (.inr (.inr (.inr ⟨lane, k, rfl⟩)))⟩
  | finish dir => exact .inl rfl

variable (aead json) in
theorem Session.sent_grows (s : Session) (a : Action) (dir : Dir) :
    (s.way dir).sent <+: ((s.step aead json a).way dir).sent := by
  rcases s.step_cases aead json a with hway | ⟨d, w, hway, hw⟩
  · simp only [hway, List.prefix_rfl]
  · rw [hway]
    by_cases hd : dir = d
    · subst hd
      rw [Function.update_self]
      rcases hw with ⟨m, width, rfl⟩ | ⟨k, rfl⟩ | ⟨lane, out, rfl⟩ | ⟨lane, rfl⟩ | ⟨lane, k, rfl⟩
      · exact List.prefix_append _ _
      · simp only [Way.sent_hand, List.prefix_rfl]
      · simp only [Way.sent_write, List.prefix_rfl]
      · simp only [Way.sent_read, List.prefix_rfl]
      · exact List.prefix_rfl
    · simp only [Function.update_of_ne hd, List.prefix_rfl]

theorem Session.Moderate.of_step {s : Session} {a : Action} (h : (s.step aead json a).Moderate json) :
    s.Moderate json := by
  intro dir
  have hpre := s.sent_grows aead json a dir
  obtain ⟨hlen, hcarried⟩ := h dir
  exact ⟨hpre.length_le.trans_lt hlen, fun m hm => hcarried m (hpre.subset hm)⟩

theorem Session.inv_step (hsound : Sound aead) {streams : UInt8} {s : Session} {a : Action}
    (h : ∀ dir, (s.way dir).Inv aead json streams dir) (hmoderate : s.Moderate json) (dir : Dir) :
    ((s.step aead json a).way dir).Inv aead json streams dir := by
  rcases s.step_cases aead json a with hway | ⟨d, w, hway, hw⟩
  · rw [hway]
    exact h dir
  · rw [hway]
    by_cases hd : dir = d
    · subst hd
      rw [Function.update_self]
      obtain ⟨hlen, hcarried⟩ := hmoderate dir
      rcases hw with ⟨m, width, rfl⟩ | ⟨k, rfl⟩ | ⟨lane, out, rfl⟩ | ⟨lane, rfl⟩ | ⟨lane, k, rfl⟩
      · exact (h dir).send _ m width
      · exact (h dir).hand k
      · exact (h dir).write hlen lane out
      · exact (h dir).read hsound hlen hcarried lane
      · exact (h dir).cut lane k
    · rw [Function.update_of_ne hd]
      exact h dir

theorem Session.inv_run (hsound : Sound aead) (offered : UInt8) (as : List Action)
    (hmoderate : (run (Session.step aead json) (Session.start offered) as).Moderate json) (dir : Dir) :
    ((run (Session.step aead json) (Session.start offered) as).way dir).Inv aead json (clampStreams offered) dir :=
  invariant_run_of_bound (fun s => ∀ dir, (s.way dir).Inv aead json (clampStreams offered) dir)
    (Session.Moderate json) (fun dir => inv_startWith aead json dir)
    (fun _ _ h => Session.Moderate.of_step h)
    (fun _ _ h hmoderate dir => Session.inv_step hsound h hmoderate.of_step dir) as hmoderate dir

end

/-- Whatever the threads and the connections do: each sink has been handed the first messages sent its
way, in their order; no nonce has been used twice under the key, the hellos' included; and no record of
theirs opens on another connection, in the other direction or at another position. -/
theorem striped_copy_stream {aead : Aead} (hsound : Sound aead) (json : Json) (offered : UInt8)
    (as : List Action) :
    let s := run (Session.step aead json) (Session.start offered) as
    s.Moderate json →
    (∀ dir, (s.way dir).rx.sunk <+: (s.way dir).sent) ∧ s.nonces.Nodup ∧
      ∀ dir, ∀ x ∈ (s.way dir).sealed, ∀ (o o' : Opener) (rest plain rest' : List UInt8),
        o.read aead (record aead dir x.lane x.counter x.plain ++ rest) = .record o' plain rest' →
        o.dir = dir ∧ o.lane = x.lane ∧ o.counter = x.counter := by
  intro s hmoderate
  have hinv : ∀ dir, (s.way dir).Inv aead json (clampStreams offered) dir := Session.inv_run hsound offered as hmoderate
  refine ⟨fun dir => ?_, ?_, fun dir x hx o o' rest plain rest' hread => ?_⟩
  · obtain ⟨count, -, hsunk⟩ := (hinv dir).order
    rw [hsunk]
    exact List.take_prefix _ _
  · rw [Session.nonces, List.nodup_append]
    refine ⟨(hinv _).keys, (hinv _).keys, fun a ha b hb heq => ?_⟩
    obtain ⟨x, -, rfl⟩ := List.mem_map.mp ha
    obtain ⟨y, -, rfl⟩ := List.mem_map.mp hb
    exact absurd (nonce_inj heq).1 (by decide)
  · exact o.read_record hsound ((hinv dir).fits x hx) hread

def tagCipher : Aead where
  sealAppendTag n _ p := p ++ (n ++ [0, 0, 0, 0])
  openInPlace n _ c :=
    if c.drop (c.length - tagLen) = n ++ [0, 0, 0, 0] then some (c.take (c.length - tagLen)) else none

theorem sound_tagCipher : Sound tagCipher := by
  have hlen : ∀ n : List UInt8, n.length = nonceLen → (n ++ [0, 0, 0, 0]).length = tagLen := by
    intro n hn
    rw [List.length_append, hn]
    rfl
  have hsplit : ∀ (n p : List UInt8), n.length = nonceLen → (p ++ (n ++ [0, 0, 0, 0])).length - tagLen = p.length := by
    intro n p hn
    rw [List.length_append, hlen n hn, Nat.add_sub_cancel]
  constructor
  case opens =>
    intro n p hn
    dsimp only [tagCipher]
    rw [hsplit n p hn, List.drop_left, List.take_left, if_pos rfl]
  case apart =>
    intro n n' p hn hn' hne
    dsimp only [tagCipher]
    rw [hsplit n p hn, List.drop_left, List.take_left, if_neg]
    exact fun h => hne (List.append_cancel_right h)
  case length =>
    intro n p hn
    dsimp only [tagCipher]
    rw [List.length_append, hlen n hn]

def noJson : Json := ⟨fun _ => [], fun _ => none⟩

/-- Two chunks over two connections, the second one queued, sealed and read first. -/
theorem striped_copy_stream_two :
    let chunks := [Message.fileChunk 1 0 0 [5, 6], Message.fileChunk 1 0 2 [7]]
    let s := run (Session.step tagCipher noJson) (Session.start 2)
      ((chunks.map fun m => .send .clientToHost m 2) ++
        [.hand .clientToHost 1, .hand .clientToHost 0, .write .clientToHost 1 none,
          .write .clientToHost 0 none, .read .clientToHost 1, .read .clientToHost 0])
    (s.way .clientToHost).rx.sunk = chunks ∧ (∀ dir, (s.way dir).rx.sunk <+: (s.way dir).sent) ∧ s.nonces.Nodup := by
  intro chunks s
  have hto : (s.way .clientToHost).sent = chunks := by decide +kernel
  have hfrom : (s.way .hostToClient).sent = [] := by decide +kernel
  have hmoderate : s.Moderate noJson := by
    intro dir
    cases dir with
    | hostToClient =>
      rw [hfrom]
      exact ⟨by decide, fun m hm => nomatch hm⟩
    | clientToHost =>
      rw [hto]
      refine ⟨by decide, fun m hm => ?_⟩
      simp only [chunks, List.mem_cons, List.not_mem_nil, or_false] at hm
      rcases hm with rfl | rfl <;> trivial
  have h := striped_copy_stream sound_tagCipher noJson 2 _ hmoderate
  exact ⟨by decide +kernel, h.1, h.2.1⟩

/-- A pointer with fewer pixels than its size says is not read back, and the chunk behind it is handed over
alone. -/
theorem striped_copy_stream_skips :
    let chunk := Message.fileChunk 1 0 0 [5]
    let s := run (Session.step tagCipher noJson) (Session.start 1)
      [.send .clientToHost (.cursorShape 1 1 0 0 []) 1, .send .clientToHost chunk 1,
        .hand .clientToHost 0, .hand .clientToHost 0, .write .clientToHost 0 none,
        .write .clientToHost 0 none, .read .clientToHost 0, .read .clientToHost 0]
    ((s.way .clientToHost).rx.sunk = [chunk] ∧ ¬ (s.way .clientToHost).rx.sunk <+: (s.way .clientToHost).sent) ∧
      nonce .hostToClient 0 (Sealer.skipOne^[2^64] { dir := .hostToClient, lane := 0 }).counter =
        nonce .hostToClient 0 0 := by
  intro chunk s
  refine ⟨⟨by decide +kernel, by decide +kernel⟩, ?_⟩
  rw [Sealer.counter_iterate]
  rfl

end Rdpio.Client.HyperTcp
