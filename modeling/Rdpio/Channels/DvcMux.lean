import Rdpio.Channels.Drdynvc

/-!
# Messages over dynamic channels

A message is cut into fragments, a PDU each, and the PDUs of all channels go over one static channel in
chunks.
-/

namespace Rdpio.Channels.Drdynvc

open Lib

structure Fragment where
  total : Option UInt32
  payload : List UInt8
deriving DecidableEq

def Fragment.pdu (channel_id : UInt32) (f : Fragment) : DvcPdu :=
  match f.total with
  | some total => .dataFirst channel_id total f.payload
  | none => .data channel_id f.payload

def Fragment.bytes (channel_id : UInt32) (f : Fragment) : List UInt8 :=
  match f.total with
  | some total => dataFirst channel_id total f.payload
  | none => data channel_id f.payload

def Fragment.ofBytes (pdu : List UInt8) : Fragment :=
  match parse pdu with
  | some (.dataFirst _ total payload) => ⟨some total, payload⟩
  | some (.data _ payload) => ⟨none, payload⟩
  | _ => ⟨none, []⟩

theorem Fragment.parse_bytes (channel_id : UInt32) (f : Fragment) :
    parse (f.bytes channel_id) = some (f.pdu channel_id) := by
  obtain ⟨_ | total, payload⟩ := f
  · exact parse_data channel_id payload
  · exact parse_dataFirst channel_id total payload

@[simp]
theorem Fragment.ofBytes_bytes (channel_id : UInt32) (f : Fragment) : Fragment.ofBytes (f.bytes channel_id) = f := by
  unfold ofBytes
  rw [parse_bytes]
  obtain ⟨_ | total, payload⟩ := f
  · rfl
  · rfl

def acceptOne (pending : Option (ℕ × List UInt8)) (f : Fragment) : Option (ℕ × List UInt8) × Option (List UInt8) :=
  match f.total, pending with
  | some total, _ =>
    if total.toNat ≤ f.payload.length then (pending, some f.payload)
    else (some (total.toNat, f.payload), none)
  | none, some (total, buf) =>
    if total ≤ (buf ++ f.payload).length then (none, some (buf ++ f.payload))
    else (some (total, buf ++ f.payload), none)
  | none, none => (none, some f.payload)

theorem Reassembler.accept_pdu (r : Reassembler) (channel_id : UInt32) (f : Fragment) : r.accept (f.pdu channel_id) =
      (⟨(keyed acceptOne r.pending (channel_id, f)).1⟩,
        (keyed acceptOne r.pending (channel_id, f)).2) := by
  obtain ⟨_ | total, payload⟩ := f
  · unfold Fragment.pdu Reassembler.accept keyed acceptOne
    dsimp only
    cases hp : r.pending channel_id with
    | none =>
      dsimp only
      rw [← hp, Function.update_eq_self]
      rfl
    | some p =>
      dsimp only
      split_ifs
      · rfl
      · rfl
  · unfold Fragment.pdu Reassembler.accept keyed acceptOne
    dsimp only
    split_ifs
    · rw [Function.update_eq_self]
      rfl
    · rfl

/-! ## Cut messages -/

/-- `pre` of the message `m` is out, and the fragments `rest` are to come: all of them are needed. -/
structure Partway (m pre : List UInt8) (rest : List (List UInt8)) : Prop where
  join : pre ++ rest.flatten = m
  short : (pre ++ rest.dropLast.flatten).length < m.length

inductive Cut (m : List UInt8) : List Fragment → Prop
  | whole : Cut m [⟨none, m⟩]
  | announced : m.length < 2^32 → Cut m [⟨some (UInt32.ofNat m.length), m⟩]
  | parts {first : List UInt8} {rest : List (List UInt8)} : m.length < 2^32 → Partway m first rest →
      Cut m (⟨some (UInt32.ofNat m.length), first⟩ :: rest.map (⟨none, ·⟩))

section Partway
variable {m pre c d : List UInt8} {rest : List (List UInt8)}

theorem Partway.pre_lt (h : Partway m pre rest) : pre.length < m.length := by
  have hshort := h.short
  rw [List.length_append] at hshort
  omega

theorem Partway.rest_ne_nil (h : Partway m pre rest) : rest ≠ [] := by
  rintro rfl
  have hpre := h.pre_lt
  have hjoin := h.join
  rw [List.flatten_nil, List.append_nil] at hjoin
  rw [hjoin] at hpre
  exact Nat.lt_irrefl _ hpre

theorem Partway.last (h : Partway m pre [c]) : acceptOne (some (m.length, pre)) ⟨none, c⟩ = (none, some m) := by
  have hjoin : pre ++ c = m := by simpa using h.join
  unfold acceptOne
  dsimp only
  rw [hjoin, if_pos (le_refl _)]

theorem Partway.next (h : Partway m pre (c :: d :: rest)) :
    acceptOne (some (m.length, pre)) ⟨none, c⟩ = (some (m.length, pre ++ c), none) ∧
      Partway m (pre ++ c) (d :: rest) := by
  have hnext : Partway m (pre ++ c) (d :: rest) := by
    constructor
    · have hjoin := h.join
      rwa [List.flatten_cons, ← List.append_assoc] at hjoin
    · have hshort := h.short
      rwa [List.dropLast_cons_of_ne_nil (List.cons_ne_nil d rest), List.flatten_cons, ← List.append_assoc] at hshort
  refine ⟨?_, hnext⟩
  unfold acceptOne
  dsimp only
  rw [if_neg (Nat.not_le.mpr hnext.pre_lt)]

theorem Partway.transduce (h : Partway m pre rest) :
    Lib.transduce acceptOne (some (m.length, pre)) (rest.map (⟨none, ·⟩)) = (none, [m]) := by
  induction rest generalizing pre with
  | nil => exact absurd rfl h.rest_ne_nil
  | cons c rest ih =>
    cases rest with
    | nil =>
      rw [List.map_cons, transduce_cons, h.last]
      rfl
    | cons d rest =>
      obtain ⟨hstep, hnext⟩ := h.next
      rw [List.map_cons, transduce_cons, hstep, ih hnext]
      rfl

end Partway

theorem acceptOne_first {m first : List UInt8} (hm : m.length < 2^32) (h : first.length < m.length)
    (pending : Option (ℕ × List UInt8)) :
    acceptOne pending ⟨some (UInt32.ofNat m.length), first⟩ = (some (m.length, first), none) := by
  have htotal : (UInt32.ofNat m.length).toNat = m.length := UInt32.toNat_ofNat_of_lt' hm
  unfold acceptOne
  dsimp only
  rw [htotal, if_neg (Nat.not_le.mpr h)]

theorem acceptOne_announced {m : List UInt8} (hm : m.length < 2^32)
    (pending : Option (ℕ × List UInt8)) :
    acceptOne pending ⟨some (UInt32.ofNat m.length), m⟩ = (pending, some m) := by
  have htotal : (UInt32.ofNat m.length).toNat = m.length := UInt32.toNat_ofNat_of_lt' hm
  unfold acceptOne
  dsimp only
  rw [htotal, if_pos (le_refl _)]

theorem Cut.transduce {m : List UInt8} {fs : List Fragment} (h : Cut m fs) :
    Lib.transduce acceptOne none fs = (none, [m]) := by
  cases h with
  | whole => rfl
  | announced hm =>
    rw [transduce_cons, acceptOne_announced hm]
    rfl
  | parts hm hpart =>
    rw [transduce_cons, acceptOne_first hm hpart.pre_lt]
    dsimp only
    rw [hpart.transduce]
    rfl

/-- The fragments that `data_message` makes of a message. -/
def fragments (payload : List UInt8) : List Fragment :=
  if payload.length ≤ maxDataChunk then [⟨none, payload⟩]
  else
    match chunks maxDataChunk payload with
    | [] => [⟨some (UInt32.ofNat payload.length), []⟩]
    | first :: chunks => ⟨some (UInt32.ofNat payload.length), first⟩ :: chunks.map (⟨none, ·⟩)

theorem dataMessage_eq (channel_id : UInt32) (payload : List UInt8) :
    dataMessage channel_id payload = (fragments payload).map (Fragment.bytes channel_id) := by
  unfold dataMessage fragments
  split_ifs
  · rfl
  · cases chunks maxDataChunk payload with
    | nil => rfl
    | cons first chunks =>
      simp only [List.map_cons, List.map_map]
      rfl

theorem cut_fragments {payload : List UInt8} (h : payload.length < 2^32) : Cut payload (fragments payload) := by
  have hpos : 0 < maxDataChunk := by decide
  unfold fragments
  split_ifs with hle
  · exact .whole
  · have hne : payload ≠ [] := by
      rintro rfl
      exact hle (Nat.zero_le _)
    have hrest : payload.drop maxDataChunk ≠ [] := by
      intro hnil
      have hlen := congrArg List.length hnil
      rw [List.length_drop, List.length_nil] at hlen
      omega
    rw [chunks_of_ne_nil hpos hne]
    refine .parts h ⟨?_, ?_⟩
    · rw [flatten_chunks hpos, List.take_append_drop]
    · -- The last piece is not empty, so what comes before it falls short.
      have hchunks := chunks_ne_nil hpos hrest
      have hlast := length_pos_of_mem_chunks hpos (List.getLast_mem hchunks)
      have hsplit : (payload.take maxDataChunk ++
          (chunks maxDataChunk (payload.drop maxDataChunk)).dropLast.flatten) ++
          (chunks maxDataChunk (payload.drop maxDataChunk)).getLast hchunks = payload := by
        have hflat := flatten_chunks hpos (payload.drop maxDataChunk)
        rw [← List.dropLast_append_getLast hchunks, List.flatten_append, List.flatten_singleton] at hflat
        rw [List.append_assoc, hflat, List.take_append_drop]
      have hlen := congrArg List.length hsplit
      rw [List.length_append] at hlen
      omega

theorem transduce_fragments {payloads : List (List UInt8)} (h : ∀ p ∈ payloads, p.length < 2^32) :
    transduce acceptOne none (payloads.flatMap fragments) = (none, payloads) := by
  induction payloads with
  | nil => rfl
  | cons p payloads ih =>
    have hp := cut_fragments (h p (List.mem_cons_self ..))
    rw [List.flatMap_cons, transduce_append, hp.transduce, ih fun q hq => h q (List.mem_cons_of_mem p hq)]
    rfl

def Reassembler.acceptBytes (r : Reassembler) (pdu : List UInt8) : Reassembler × Option (UInt32 × List UInt8) :=
  match parse pdu with
  | some pdu => r.accept pdu
  | none => (r, none)

def receive (s : Svc.Reassembler × Reassembler) (chunk : List UInt8) :
    (Svc.Reassembler × Reassembler) × Option (UInt32 × List UInt8) :=
  pipe Svc.Reassembler.push Reassembler.acceptBytes s chunk

theorem transduce_acceptBytes (r : Reassembler) (fs : List (UInt32 × Fragment)) :
    (transduce Reassembler.acceptBytes r (fs.map fun f => f.2.bytes f.1)).2 =
      (transduce (keyed acceptOne) r.pending fs).2 := by
  induction fs generalizing r with
  | nil => rfl
  | cons f fs ih =>
    have hstep : r.acceptBytes (f.2.bytes f.1) = r.accept (f.2.pdu f.1) := by
      unfold Reassembler.acceptBytes
      rw [Fragment.parse_bytes]
    rw [List.map_cons, transduce_cons, transduce_cons, hstep, Reassembler.accept_pdu]
    dsimp only
    rw [ih]

theorem exists_fragments {messages pdus : List (UInt32 × List UInt8)}
    (h : ∀ id, under id pdus = (under id messages).flatMap (dataMessage id)) :
    ∃ fs : List (UInt32 × Fragment), pdus.map Prod.snd = fs.map (fun f => f.2.bytes f.1) ∧
      ∀ id, under id fs = (under id messages).flatMap fragments := by
  refine ⟨pdus.map fun p => (p.1, Fragment.ofBytes p.2), ?_, fun id => ?_⟩
  · rw [List.map_map]
    refine List.map_congr_left fun p hp => ?_
    -- The PDU is one that `data_message` made.
    have hmem : p.2 ∈ under p.1 pdus := mem_under.mpr hp
    rw [h, List.mem_flatMap] at hmem
    obtain ⟨payload, -, hpdu⟩ := hmem
    rw [dataMessage_eq, List.mem_map] at hpdu
    obtain ⟨f, -, hf⟩ := hpdu
    rw [Function.comp_apply, ← hf, Fragment.ofBytes_bytes]
  · have hunder := under_map (fun _ => Fragment.ofBytes) id pdus
    rw [hunder, h, List.map_flatMap]
    refine List.flatMap_congr fun payload _ => ?_
    rw [dataMessage_eq, List.map_map]
    exact (List.map_congr_left fun f _ => Fragment.ofBytes_bytes id f).trans (List.map_id _)

/-- The messages of all channels arrive: each channel's are what was sent on it, in order, whatever the
other channels' PDUs between its own. -/
theorem channels_end_to_end (messages pdus : List (UInt32 × List UInt8))
    (hlen : ∀ m ∈ messages, m.2.length < 2^32)
    (hpdus : ∀ id, under id pdus = (under id messages).flatMap (dataMessage id)) :
    let out := (transduce receive ({}, {}) (pdus.flatMap fun p => Svc.chunksDvc p.2)).2
    (∀ id, under id out = under id messages) ∧ out.Perm messages := by
  intro out
  have hunder : ∀ id, under id out = under id messages := by
    intro id
    obtain ⟨fs, hbytes, hfs⟩ := exists_fragments hpdus
    have hchunks : (transduce Svc.Reassembler.push {}
        (pdus.flatMap fun p => Svc.chunksDvc p.2)).2 = pdus.map Prod.snd := by
      have h := Svc.transduce_chunks (.inl rfl) (pdus.map Prod.snd) {}
      rwa [List.flatMap_map] at h
    have hout : out = (transduce (keyed acceptOne) (fun _ => none) fs).2 := by
      have hpipe := transduce_pipe Svc.Reassembler.push Reassembler.acceptBytes {} {}
        (pdus.flatMap fun p => Svc.chunksDvc p.2)
      rw [hchunks, hbytes] at hpipe
      calc out = (transduce Reassembler.acceptBytes {} (fs.map fun f => f.2.bytes f.1)).2 :=
            congrArg Prod.snd hpipe
        _ = _ := transduce_acceptBytes {} fs
    rw [hout, (transduce_keyed acceptOne _ fs id).2, hfs, transduce_fragments]
    intro p hp
    exact hlen (id, p) (mem_under.mp hp)
  exact ⟨hunder, perm_of_under hunder⟩

/-- Two channels, one with an empty message and one of two PDUs, the empty one between these. -/
theorem channels_end_to_end_two :
    let long := (List.range 1501).map UInt8.ofNat
    let messages : List (UInt32 × List UInt8) := [(3, []), (300, long)]
    let pdus : List (UInt32 × List UInt8) := [(300, dataFirst 300 1501 (long.take 1500)), (3, data 3 []),
      (300, data 300 (long.drop 1500))]
    let out := (transduce receive ({}, {}) (pdus.flatMap fun p => Svc.chunksDvc p.2)).2
    (∀ id, under id out = under id messages) ∧ out.Perm messages := by
  intro long messages pdus
  have hlong : dataMessage 300 long = [dataFirst 300 1501 (long.take 1500),
      data 300 (long.drop 1500)] := by decide +kernel
  have hlen : long.length < 2^32 := by decide +kernel
  clear_value long
  have hmessages : ∀ m ∈ messages, m.2.length < 2^32 := by
    simp only [messages, List.forall_mem_cons, List.not_mem_nil, false_implies, implies_true, and_true]
    exact ⟨by decide, hlen⟩
  refine channels_end_to_end messages pdus hmessages fun id => ?_
  by_cases h3 : id = 3
  · subst h3
    rfl
  · by_cases h300 : id = 300
    · subst h300
      have hmsgs : under 300 messages = [long] := rfl
      rw [hmsgs, List.flatMap_cons, List.flatMap_nil, hlong]
      rfl
    · have hother : under id pdus = [] := by
        simp only [pdus, under_cons_of_ne (Ne.symm h300), under_cons_of_ne (Ne.symm h3), under_nil]
      have hnone : under id messages = [] := by
        simp only [messages, under_cons_of_ne (Ne.symm h300), under_cons_of_ne (Ne.symm h3), under_nil]
      rw [hother, hnone]
      rfl

end Rdpio.Channels.Drdynvc
