import Mathlib.Algebra.Order.BigOperators.Group.List
import Rdpio.Lib.Bytes

/-!
# The multitransport tunnel's PDUs

`rdp-channels/src/emt.rs`: PDUs of an action, a payload's length, a header's length and, after the header's
subheaders, the payload.
-/

namespace Rdpio.Channels.Emt

open Lib (leBytes ofLe)

def ACTION_CREATE_REQUEST : UInt8 := 0x00

def ACTION_CREATE_RESPONSE : UInt8 := 0x01

def ACTION_DATA : UInt8 := 0x02

def HEADER_LEN : UInt8 := 0x04

structure TunnelPdu where
  action : UInt8
  payload : List UInt8
  deriving DecidableEq

def frame (action : UInt8) (payload : List UInt8) : List UInt8 :=
  [action &&& 0x0F] ++ leBytes 2 payload.length ++ [HEADER_LEN] ++ payload

/-- A PDU, of a payload cut to what is there. -/
def parse : List UInt8 → Option TunnelPdu
  | b0 :: b1 :: b2 :: b3 :: rest =>
    let data := b0 :: b1 :: b2 :: b3 :: rest
    let payload_len := ofLe [b1, b2]
    let header_len := max b3.toNat 4
    if data.length < header_len then none
    else
      let body := data.drop header_len
      some ⟨b0 &&& 0x0F, body.take (min payload_len body.length)⟩
  | _ => none

def take_pdu : List UInt8 → Option (ℕ × TunnelPdu)
  | b0 :: b1 :: b2 :: b3 :: rest =>
    let data := b0 :: b1 :: b2 :: b3 :: rest
    let payload_len := ofLe [b1, b2]
    let header_len := max b3.toNat 4
    let total := header_len + payload_len
    if data.length < total then none else some (total, ⟨b0 &&& 0x0F, (data.take total).drop header_len⟩)
  | _ => none

/-- The server's `HRESULT`. -/
def parse_create_response (data : List UInt8) : Option ℕ := do
  let pdu ← parse data
  if pdu.action ≠ ACTION_CREATE_RESPONSE ∨ pdu.payload.length < 4 then none else some (ofLe (pdu.payload.take 4))

def data (payload : List UInt8) : List UInt8 := frame ACTION_DATA payload

/-! ## Framing a stream -/

theorem take_pdu_bounds {l : List UInt8} {n : ℕ} {pdu : TunnelPdu} (h : take_pdu l = some (n, pdu)) :
    pdu.payload.length + 4 ≤ n ∧ n ≤ l.length := by
  unfold take_pdu at h
  split at h
  · rename_i b0 b1 b2 b3 rest
    dsimp only at h
    split_ifs at h with hshort
    obtain ⟨rfl, rfl⟩ := Prod.mk.inj (Option.some.inj h)
    rw [List.length_drop, List.length_take]
    omega
  · cases h

theorem take_pdu_append {l : List UInt8} {n : ℕ} {pdu : TunnelPdu} (h : take_pdu l = some (n, pdu)) (t : List UInt8) :
    take_pdu (l ++ t) = some (n, pdu) := by
  unfold take_pdu at h
  split at h
  · rename_i b0 b1 b2 b3 rest
    dsimp only at h
    split_ifs at h with hshort
    rw [← h, List.cons_append, List.cons_append, List.cons_append, List.cons_append, take_pdu]
    have hlen : (b0 :: b1 :: b2 :: b3 :: (rest ++ t)).length = (b0 :: b1 :: b2 :: b3 :: rest).length + t.length := by
      simp only [List.length_cons, List.length_append]
      omega
    have htake := fun n hn => @List.take_append_of_le_length _ (b0 :: b1 :: b2 :: b3 :: rest) t n hn
    simp only [List.cons_append] at htake
    rw [if_neg (by omega), htake _ (Nat.not_lt.mp hshort)]
  · cases h

def dataN : ℕ → List UInt8 → List (List UInt8)
  | 0, _ => []
  | fuel + 1, l =>
    match take_pdu l with
    | none => []
    | some (n, pdu) => if pdu.action = ACTION_DATA then pdu.payload :: dataN fuel (l.drop n) else dataN fuel (l.drop n)

def dataOf (l : List UInt8) : List (List UInt8) := dataN l.length l

theorem dataN_enough {fuel : ℕ} {l : List UInt8} (h : l.length ≤ fuel) : dataN fuel l = dataOf l := by
  unfold dataOf
  -- Both fuels are enough for every stream that is shorter.
  suffices hall : ∀ a b (l : List UInt8), l.length ≤ a → l.length ≤ b → dataN a l = dataN b l from
    hall _ _ l h (Nat.le_refl _)
  intro a
  induction a with
  | zero =>
    intro b l ha hb
    obtain rfl := List.length_eq_zero_iff.mp (Nat.le_zero.mp ha)
    cases b <;> rfl
  | succ a ih =>
    intro b l ha hb
    cases b with
    | zero =>
      obtain rfl := List.length_eq_zero_iff.mp (Nat.le_zero.mp hb)
      rfl
    | succ b =>
      rw [dataN, dataN]
      cases hpdu : take_pdu l with
      | none => rfl
      | some p =>
        obtain ⟨n, pdu⟩ := p
        have hn := take_pdu_bounds hpdu
        dsimp only
        rw [ih b (l.drop n) (by rw [List.length_drop]; omega) (by rw [List.length_drop]; omega)]

theorem dataOf_none {l : List UInt8} (h : take_pdu l = none) : dataOf l = [] := by
  rw [← dataN_enough (Nat.le_succ l.length), dataN, h]

theorem dataOf_some {l : List UInt8} {n : ℕ} {pdu : TunnelPdu} (h : take_pdu l = some (n, pdu)) (t : List UInt8) :
    dataOf (l ++ t) =
      if pdu.action = ACTION_DATA then pdu.payload :: dataOf (l.drop n ++ t) else dataOf (l.drop n ++ t) := by
  have hn := take_pdu_bounds h
  rw [← dataN_enough (Nat.le_succ (l ++ t).length), dataN, take_pdu_append h]
  dsimp only
  rw [List.drop_append_of_le_length hn.2, dataN_enough]
  rw [List.length_append, List.length_drop, List.length_append]
  omega

theorem sum_dataOf_le (l : List UInt8) : ((dataOf l).map fun p => p.length + 4).sum ≤ l.length := by
  suffices hall : ∀ fuel (l : List UInt8), ((dataN fuel l).map fun p => p.length + 4).sum ≤ l.length from hall _ l
  intro fuel
  induction fuel with
  | zero => exact fun l => Nat.zero_le _
  | succ fuel ih =>
    intro l
    rw [dataN]
    cases hpdu : take_pdu l with
    | none => exact Nat.zero_le _
    | some p =>
      obtain ⟨n, pdu⟩ := p
      have hn := take_pdu_bounds hpdu
      have hrest := ih (l.drop n)
      rw [List.length_drop] at hrest
      dsimp only
      split_ifs
      · rw [List.map_cons, List.sum_cons]
        omega
      · omega

/-- A PDU as a server may send it. -/
structure Pdu where
  action : Fin 16
  flags : Fin 16
  subheaders : List UInt8
  payload : List UInt8
  subheaders_le : subheaders.length ≤ 251
  payload_lt : payload.length < 65536

def Pdu.wire (p : Pdu) : List UInt8 :=
  [UInt8.ofNat (p.action + 16 * p.flags)] ++ leBytes 2 p.payload.length ++ [UInt8.ofNat (4 + p.subheaders.length)] ++
    p.subheaders ++ p.payload

theorem zero_lt_sixteen : 0 < 16 := by decide

theorem two_lt_sixteen : 2 < 16 := by decide

/-- `emt::data(payload)` as a PDU. -/
def Pdu.data (payload : List UInt8) (h : payload.length < 65536) : Pdu :=
  ⟨⟨2, two_lt_sixteen⟩, ⟨0, zero_lt_sixteen⟩, [], payload, Nat.zero_le _, h⟩

theorem length_wire (p : Pdu) : p.wire.length = 4 + p.subheaders.length + p.payload.length := by
  unfold Pdu.wire
  simp only [List.length_append, List.length_singleton, Lib.length_leBytes]

theorem low_nibble : ∀ a f : Fin 16, UInt8.ofNat (a + 16 * f) &&& 0x0F = UInt8.ofNat a := by decide

theorem wire_eq (p : Pdu) : ∃ b1 b2, p.wire = UInt8.ofNat (p.action + 16 * p.flags) :: b1 :: b2 ::
    UInt8.ofNat (4 + p.subheaders.length) :: (p.subheaders ++ p.payload) ∧ ofLe [b1, b2] = p.payload.length := by
  refine ⟨_, _, rfl, ?_⟩
  exact Lib.ofLe_leBytes_of_lt (w := 2) p.payload_lt

theorem header_len (p : Pdu) : max (UInt8.ofNat (4 + p.subheaders.length)).toNat 4 = 4 + p.subheaders.length := by
  have hsub := p.subheaders_le
  rw [UInt8.toNat_ofNat']
  omega

theorem take_pdu_wire (p : Pdu) (t : List UInt8) :
    take_pdu (p.wire ++ t) = some (p.wire.length, ⟨UInt8.ofNat p.action, p.payload⟩) := by
  refine take_pdu_append ?_ t
  obtain ⟨b1, b2, hwire, hlen⟩ := wire_eq p
  have htotal := length_wire p
  have hdrop : p.wire.drop (4 + p.subheaders.length) = p.payload := by
    rw [hwire, Nat.add_comm]
    exact List.drop_left
  rw [hwire, take_pdu]
  rw [← hwire, header_len, hlen, if_neg (by omega), ← htotal, List.take_length, hdrop, low_nibble]

def payloads (pdus : List Pdu) : List (List UInt8) := (pdus.filter fun p => p.action = 2).map Pdu.payload

theorem isData_iff : ∀ a : Fin 16, UInt8.ofNat a = ACTION_DATA ↔ a = 2 := by decide

theorem dataOf_pdus (pdus : List Pdu) (t : List UInt8) :
    dataOf (pdus.flatMap Pdu.wire ++ t) = payloads pdus ++ dataOf t := by
  induction pdus with
  | nil => rfl
  | cons p pdus ih =>
    have hfirst := dataOf_some (take_pdu_wire p []) (pdus.flatMap Pdu.wire ++ t)
    rw [List.append_nil, List.drop_length, List.nil_append, ih] at hfirst
    rw [List.flatMap_cons, List.append_assoc, hfirst]
    unfold payloads
    by_cases hdata : p.action = 2
    · rw [if_pos ((isData_iff _).2 hdata), List.filter_cons_of_pos (by simpa using hdata), List.map_cons,
        List.cons_append]
    · rw [if_neg fun h => hdata ((isData_iff _).1 h), List.filter_cons_of_neg (by simpa using hdata)]

theorem dataOf_flatMap (pdus : List Pdu) : dataOf (pdus.flatMap Pdu.wire) = payloads pdus := by
  have hall := dataOf_pdus pdus []
  have hnil : dataOf [] = [] := rfl
  rwa [hnil, List.append_nil, List.append_nil] at hall

end Rdpio.Channels.Emt
