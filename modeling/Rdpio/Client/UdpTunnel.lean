import Rdpio.Channels.Emt

/-!
# The UDP tunnel

`rdp-client/src/udp.rs`: `connect` takes the create response out of one plain read, and `recv` frames what the
reads after it give.
-/

namespace Rdpio.Client.UdpTunnel

open Channels Channels.Emt

/-- What one read of the decrypted stream comes to. -/
inductive Read where
  | chunk (bytes : List UInt8)
  | timeout

def Read.bytes : Read → List UInt8
  | chunk b => b
  | timeout => []

def bytes (reads : List Read) : List UInt8 := reads.flatMap Read.bytes

structure UdpTunnel where
  rx : List UInt8
  tls : List Read

def connect : List Read → Option UdpTunnel
  | .chunk resp :: tls =>
    match parse_create_response resp with
    | some hr => if hr = 0 then some ⟨[], tls⟩ else none
    | none => none
  | _ => none

def takeData : ℕ → List UInt8 → Option (List UInt8) × List UInt8
  | 0, rx => (none, rx)
  | fuel + 1, rx =>
    match take_pdu rx with
    | some (consumed, pdu) =>
      if pdu.action = ACTION_DATA then (some pdu.payload, rx.drop consumed) else takeData fuel (rx.drop consumed)
    | none => (none, rx)

def recv : List Read → List UInt8 → Option (List UInt8) × UdpTunnel
  | [], rx => ((takeData rx.length rx).1, ⟨(takeData rx.length rx).2, []⟩)
  | read :: tls, rx =>
    match takeData rx.length rx with
    | (some payload, rx) => (some payload, ⟨rx, read :: tls⟩)
    | (none, rx) =>
      match read with
      | .timeout => (none, ⟨rx, tls⟩)
      | .chunk buf => if buf = [] then (none, ⟨rx, tls⟩) else recv tls (rx ++ buf)

/-- The `Ok` results of so many calls. -/
def okResults : ℕ → UdpTunnel → List (List UInt8)
  | 0, _ => []
  | n + 1, t => (recv t.tls t.rx).1.toList ++ okResults n (recv t.tls t.rx).2

/-! ## From the handshake on, every cut is as good -/

theorem takeData_spec {fuel : ℕ} {rx : List UInt8} (h : rx.length ≤ fuel) :
    ((takeData fuel rx).1 = none → dataOf (takeData fuel rx).2 = []) ∧
      ∀ t, dataOf (rx ++ t) = (takeData fuel rx).1.toList ++ dataOf ((takeData fuel rx).2 ++ t) := by
  induction fuel generalizing rx with
  | zero =>
    obtain rfl := List.length_eq_zero_iff.mp (Nat.le_zero.mp h)
    exact ⟨fun _ => rfl, fun t => rfl⟩
  | succ fuel ih =>
    rw [takeData]
    cases hpdu : take_pdu rx with
    | none => exact ⟨fun _ => dataOf_none hpdu, fun t => rfl⟩
    | some p =>
      obtain ⟨n, pdu⟩ := p
      have hn := take_pdu_bounds hpdu
      have hrest := @ih (rx.drop n) (by rw [List.length_drop]; omega)
      dsimp only
      split_ifs with hdata
      · constructor
        · intro hnone
          cases hnone
        · intro t
          rw [dataOf_some hpdu, if_pos hdata]
          rfl
      · constructor
        · exact hrest.1
        · intro t
          rw [dataOf_some hpdu, if_neg hdata]
          exact hrest.2 t

theorem recv_spec (reads : List Read) (rx : List UInt8) : dataOf (rx ++ bytes reads) =
        (recv reads rx).1.toList ++ dataOf ((recv reads rx).2.rx ++ bytes (recv reads rx).2.tls) ∧
      (recv reads rx).2.tls.length ≤ reads.length ∧
      ((recv reads rx).1 = none → (recv reads rx).2.tls.length < reads.length ∨ (recv reads rx).2.tls = [] ∧
        dataOf ((recv reads rx).2.rx ++ bytes (recv reads rx).2.tls) = []) := by
  induction reads generalizing rx with
  | nil =>
    have hdata := takeData_spec (Nat.le_refl rx.length)
    refine ⟨hdata.2 [], Nat.le_refl _, fun hnone => .inr ⟨rfl, ?_⟩⟩
    rw [recv] at hnone ⊢
    rw [bytes, List.flatMap_nil, List.append_nil]
    exact hdata.1 hnone
  | cons read tls ih =>
    have hdata := takeData_spec (Nat.le_refl rx.length)
    rw [recv]
    generalize takeData rx.length rx = r at hdata ⊢
    obtain ⟨payload, rx'⟩ := r
    cases payload with
    | some payload => exact ⟨hdata.2 _, Nat.le_refl _, fun hnone => nomatch hnone⟩
    | none =>
      have hbytes : bytes (read :: tls) = read.bytes ++ bytes tls := List.flatMap_cons ..
      dsimp only at hdata ⊢
      rw [hdata.2, hbytes]
      cases read with
      | timeout => exact ⟨rfl, Nat.le_succ _, fun _ => .inl (Nat.lt_succ_self _)⟩
      | chunk buf =>
        dsimp only
        split_ifs with hempty
        · subst hempty
          exact ⟨rfl, Nat.le_succ _, fun _ => .inl (Nat.lt_succ_self _)⟩
        · obtain ⟨hall, hle, hnone⟩ := ih (rx' ++ buf)
          rw [List.append_assoc] at hall
          exact ⟨hall, Nat.le_succ_of_le hle, fun h => (hnone h).imp_left Nat.lt_succ_of_lt⟩

theorem okResults_eq {n : ℕ} {t : UdpTunnel} (h : t.tls.length + (dataOf (t.rx ++ bytes t.tls)).length ≤ n) :
    okResults n t = dataOf (t.rx ++ bytes t.tls) := by
  induction n generalizing t with
  | zero => exact (List.length_eq_zero_iff.mp (by omega)).symm
  | succ n ih =>
    obtain ⟨hall, hle, hnone⟩ := recv_spec t.tls t.rx
    rw [okResults]
    generalize recv t.tls t.rx = r at hall hle hnone ⊢
    obtain ⟨payload, t'⟩ := r
    dsimp only at hall hle hnone ⊢
    rw [hall] at h ⊢
    rw [List.length_append] at h
    congr 1
    cases payload with
    | some payload =>
      refine ih ?_
      rw [Option.toList_some, List.length_singleton] at h
      omega
    | none =>
      rcases hnone rfl with hfewer | ⟨htls, hover⟩
      · exact ih (by omega)
      · have hlen : (dataOf (t'.rx ++ bytes t'.tls)).length = 0 := by rw [hover, List.length_nil]
        have htls' : t'.tls.length = 0 := by rw [htls, List.length_nil]
        exact ih (by omega)

theorem one_lt_sixteen : 1 < 16 := by decide

/-- A create response that says `S_OK`. -/
structure Response where
  flags : Fin 16
  subheaders : List UInt8
  subheaders_le : subheaders.length ≤ 251

def Response.pdu (r : Response) : Pdu :=
  ⟨⟨1, one_lt_sixteen⟩, r.flags, r.subheaders, [0, 0, 0, 0], r.subheaders_le, by decide⟩

def Response.wire (r : Response) : List UInt8 := r.pdu.wire

theorem parse_response (r : Response) (lost : List UInt8) : parse_create_response (r.wire ++ lost) = some 0 := by
  obtain ⟨b1, b2, hwire, hlen⟩ := wire_eq r.pdu
  have htotal := length_wire r.pdu
  have hbody : (r.wire ++ lost).drop (4 + r.pdu.subheaders.length) = [0, 0, 0, 0] ++ lost := by
    unfold Response.wire
    rw [hwire, Nat.add_comm]
    rw [List.cons_append, List.cons_append, List.cons_append, List.cons_append, List.append_assoc]
    exact List.drop_left
  have hparse : parse (r.wire ++ lost) = some ⟨ACTION_CREATE_RESPONSE, [0, 0, 0, 0]⟩ := by
    have haction : UInt8.ofNat r.pdu.action = ACTION_CREATE_RESPONSE := rfl
    have hfour : r.pdu.payload.length = 4 := rfl
    unfold Response.wire at hbody ⊢
    rw [hwire] at hbody htotal ⊢
    rw [List.cons_append, List.cons_append, List.cons_append, List.cons_append] at hbody ⊢
    rw [parse, header_len]
    dsimp only
    rw [hbody, hlen, low_nibble, haction, hfour, if_neg]
    · rfl
    · simp only [List.length_cons, List.length_append] at htotal ⊢
      omega
  unfold parse_create_response
  rw [hparse]
  rfl

theorem parse_short (r : Response) (resp : List UInt8) (h : resp <+: r.wire) (hshort : resp.length < r.wire.length) :
    parse_create_response resp = none := by
  obtain ⟨b1, b2, hwire, -⟩ := wire_eq r.pdu
  have htotal : r.wire.length = 4 + r.pdu.subheaders.length + 4 := length_wire r.pdu
  have hparse : ∀ pdu, parse resp = some pdu → pdu.payload.length < 4 := by
    intro pdu hpdu
    unfold parse at hpdu
    split at hpdu
    · rename_i c0 c1 c2 c3 rest
      obtain ⟨t, ht⟩ := h
      unfold Response.wire at ht
      rw [hwire, List.cons_append, List.cons_append, List.cons_append, List.cons_append] at ht
      simp only [List.cons.injEq] at ht
      obtain ⟨-, -, -, rfl, -⟩ := ht
      dsimp only at hpdu
      rw [header_len] at hpdu
      split_ifs at hpdu with hheader
      rw [← Option.some.inj hpdu, List.length_take, List.length_drop]
      omega
    · cases hpdu
  unfold parse_create_response
  cases hpdu : parse resp with
  | none => rfl
  | some pdu => exact if_pos (.inr (hparse pdu hpdu))

/-! ## The whole tunnel -/

/-- `connect` succeeds, and the calls after it give these payloads, and no others however many are made. -/
def Delivers (reads : List Read) (ps : List (List UInt8)) : Prop :=
  ∃ t, connect reads = some t ∧ ∃ n₀, ∀ n, n₀ ≤ n → okResults n t = ps

def FirstRead (r : Response) (pdus : List Pdu) (reads : List Read) : Prop :=
  ∃ lost tls, reads = .chunk (r.wire ++ lost) :: tls ∧ dataOf ((pdus.flatMap Pdu.wire).drop lost.length) = payloads pdus

theorem delivers_firstRead (r : Response) (pdus : List Pdu) (reads : List Read)
    (h : bytes reads = r.wire ++ pdus.flatMap Pdu.wire) : Delivers reads (payloads pdus) ↔ FirstRead r pdus reads := by
  cases reads with
  | nil =>
    constructor
    · rintro ⟨t, ht, -⟩
      cases ht
    · rintro ⟨lost, tls, hreads, -⟩
      cases hreads
  | cons read tls =>
    cases read with
    | timeout =>
      constructor
      · rintro ⟨t, ht, -⟩
        cases ht
      · rintro ⟨lost, tls, hreads, -⟩
        cases hreads
    | chunk resp =>
      have hbytes : resp ++ bytes tls = r.wire ++ pdus.flatMap Pdu.wire := h
      rcases Nat.lt_or_ge resp.length r.wire.length with hshort | hwhole
      · have hprefix : resp <+: r.wire :=
          List.prefix_of_prefix_length_le ⟨_, hbytes⟩ ⟨_, rfl⟩ (Nat.le_of_lt hshort)
        constructor
        · rintro ⟨t, ht, -⟩
          rw [connect, parse_short r resp hprefix hshort] at ht
          cases ht
        · rintro ⟨lost, tls', hreads, -⟩
          cases hreads
          rw [List.length_append] at hshort
          omega
      · obtain ⟨lost, hlost⟩ : r.wire <+: resp := List.prefix_of_prefix_length_le ⟨_, rfl⟩ ⟨_, hbytes⟩ hwhole
        have hconnect : connect (.chunk resp :: tls) = some ⟨[], tls⟩ := by
          rw [connect, ← hlost, parse_response r lost]
          rfl
        have hrest : (pdus.flatMap Pdu.wire).drop lost.length = bytes tls := by
          rw [← hlost, List.append_assoc] at hbytes
          rw [← List.append_cancel_left hbytes]
          exact List.drop_left
        constructor
        · rintro ⟨t, ht, n₀, hn₀⟩
          rw [hconnect] at ht
          obtain rfl := Option.some.inj ht
          refine ⟨lost, tls, by rw [hlost], ?_⟩
          have hall := okResults_eq (t := ⟨[], tls⟩)
            (Nat.le_max_right n₀ (tls.length + (dataOf ([] ++ bytes tls)).length))
          rw [hn₀ _ (Nat.le_max_left _ _), List.nil_append] at hall
          rw [hrest, hall]
        · rintro ⟨lost', tls', hreads, hdata⟩
          obtain ⟨hresp, rfl⟩ := List.cons.inj hreads
          have hsame : lost' = lost := by
            rw [Read.chunk.injEq, ← hlost] at hresp
            exact (List.append_cancel_left hresp).symm
          rw [hsame, hrest] at hdata
          refine ⟨_, hconnect, tls.length + (dataOf ([] ++ bytes tls)).length, fun n hn => ?_⟩
          rw [okResults_eq (t := ⟨[], tls⟩) hn, List.nil_append, hdata]

theorem firstRead_control {r : Response} {control pdus : List Pdu} {tls : List Read}
    (h : ∀ p ∈ control, p.action ≠ 2) :
    FirstRead r (control ++ pdus) (.chunk (r.wire ++ control.flatMap Pdu.wire) :: tls) := by
  refine ⟨_, _, rfl, ?_⟩
  have hnone : payloads control = [] := by
    unfold payloads
    rw [List.filter_eq_nil_iff.2 fun p hp => by simpa using h p hp, List.map_nil]
  have hsplit : payloads (control ++ pdus) = payloads control ++ payloads pdus := by
    unfold payloads
    rw [List.filter_append, List.map_append]
  rw [List.flatMap_append, List.drop_left, dataOf_flatMap, hsplit, hnone, List.nil_append]

theorem firstRead_plain {r : Response} {pdus : List Pdu} {reads : List Read}
    (hcut : bytes reads = r.wire ++ pdus.flatMap Pdu.wire) (h : ∀ p ∈ pdus, p.action = 2 ∧ p.subheaders = []) :
    FirstRead r pdus reads ↔ ∃ tls, reads = .chunk r.wire :: tls := by
  have hall : payloads pdus = pdus.map Pdu.payload := by
    unfold payloads
    rw [List.filter_eq_self.2 fun p hp => by simpa using (h p hp).1]
  have hsum : ((payloads pdus).map fun p => p.length + 4).sum = (pdus.flatMap Pdu.wire).length := by
    rw [hall, List.map_map, List.length_flatMap]
    refine congrArg List.sum (List.map_congr_left fun p hp => ?_)
    rw [length_wire, (h p hp).2, List.length_nil]
    exact (Nat.add_comm ..)
  constructor
  · rintro ⟨lost, tls, rfl, hdata⟩
    have hle := sum_dataOf_le ((pdus.flatMap Pdu.wire).drop lost.length)
    rw [hdata, hsum, List.length_drop] at hle
    have hlost : lost ++ bytes tls = pdus.flatMap Pdu.wire := by
      refine @List.append_cancel_left _ r.wire _ _ ?_
      rw [← hcut, ← List.append_assoc]
      rfl
    have hroom : lost.length ≤ (pdus.flatMap Pdu.wire).length := by
      rw [← hlost, List.length_append]
      exact Nat.le_add_right ..
    obtain rfl := List.length_eq_zero_iff.mp (show lost.length = 0 by omega)
    exact ⟨tls, by rw [List.append_nil]⟩
  · rintro ⟨tls, rfl⟩
    exact ⟨[], tls, by rw [List.append_nil], dataOf_flatMap pdus⟩

/-- The tunnel delivers every payload just where its first read ends as `FirstRead` has it: with the response, or with
whole control PDUs after it; in a stream of plain data PDUs with the response alone. -/
theorem delivers_iff (r : Response) (pdus : List Pdu) (reads : List Read)
    (hcut : bytes reads = r.wire ++ pdus.flatMap Pdu.wire) :
    (Delivers reads (payloads pdus) ↔ FirstRead r pdus reads) ∧
      (∀ control rest tls, pdus = control ++ rest → (∀ p ∈ control, p.action ≠ 2) →
        reads = .chunk (r.wire ++ control.flatMap Pdu.wire) :: tls → FirstRead r pdus reads) ∧
      ((∀ p ∈ pdus, p.action = 2 ∧ p.subheaders = []) →
        (FirstRead r pdus reads ↔ ∃ tls, reads = .chunk r.wire :: tls)) := by
  refine ⟨delivers_firstRead r pdus reads hcut, ?_, firstRead_plain hcut⟩
  rintro control rest tls rfl hcontrol rfl
  exact firstRead_control hcontrol

theorem no_subheaders : ([] : List UInt8).length ≤ 251 := by decide

def plainResponse : Response := ⟨⟨0, zero_lt_sixteen⟩, [], no_subheaders⟩

/-- A response, and one payload after it, in reads of their own. -/
theorem delivers_iff_apart : Delivers [.chunk plainResponse.wire, .timeout, .chunk [2, 1, 0, 4], .chunk [7]] [[7]] ↔
      FirstRead plainResponse [Pdu.data [7] (by decide)]
        [.chunk plainResponse.wire, .timeout, .chunk [2, 1, 0, 4], .chunk [7]] :=
  (delivers_iff plainResponse [Pdu.data [7] (by decide)]
    [.chunk plainResponse.wire, .timeout, .chunk [2, 1, 0, 4], .chunk [7]] (by decide)).1

/-- The response and the first payload in one read: that payload never comes out. -/
theorem first_payload_lost : ¬ Delivers [.chunk (plainResponse.wire ++ Emt.data [7])] [[7]] ∧
      connect [.chunk (plainResponse.wire.take 4), .chunk (plainResponse.wire.drop 4 ++ Emt.data [7])] = none := by
  constructor
  · rintro ⟨t, ht, n₀, hn₀⟩
    have hconnect : connect [.chunk (plainResponse.wire ++ Emt.data [7])] = some ⟨[], []⟩ := by
      rw [connect, parse_response]
      rfl
    rw [hconnect] at ht
    obtain rfl := Option.some.inj ht
    have hnone := hn₀ n₀ (Nat.le_refl _)
    rw [okResults_eq (Nat.zero_le _)] at hnone
    cases hnone
  · decide

end Rdpio.Client.UdpTunnel
