import Rdpio.Hyper.Messages
import Rdpio.Hyper.Wire

/-!
# Records of the copy stream

`crates/rdp-hyper/src/bulk_tcp.rs`: the records of one connection, sealed under the session's key with a nonce
of their direction, their connection and a counter.
-/

namespace Rdpio.Hyper.BulkTcp

open Lib
open Wire (Aead)

def helloText : List UInt8 := "rdpio bulk hello 1".toList.map fun c => UInt8.ofNat c.toNat

def maxRecord : ℕ := 4 * 1024 * 1024

def tagLen : ℕ := 16

inductive Dir
  | hostToClient
  | clientToHost
deriving DecidableEq

def Dir.toU8 : Dir → UInt8
  | .hostToClient => 1
  | .clientToHost => 2

def Dir.reverse : Dir → Dir
  | .hostToClient => .clientToHost
  | .clientToHost => .hostToClient

def nonce (dir : Dir) (lane : UInt8) (counter : UInt64) : List UInt8 :=
  [dir.toU8, lane, 0, 0] ++ leBytes 8 counter.toNat

/-- Seals records going one way. -/
structure Sealer where
  dir : Dir
  lane : UInt8
  counter : UInt64 := 0

def Sealer.skipOne (s : Sealer) : Sealer := { s with counter := s.counter + 1 }

/-- A record: its length, then what is sealed. -/
def record (aead : Aead) (dir : Dir) (lane : UInt8) (counter : UInt64) (plain : List UInt8) : List UInt8 :=
  leBytes 4 (plain.length + tagLen) ++ aead.sealAppendTag (nonce dir lane counter) [] plain

/-- Seal `plain` as one record. -/
def Sealer.write (aead : Aead) (s : Sealer) (plain : List UInt8) : Option (Sealer × List UInt8) :=
  if maxRecord < plain.length + tagLen then none
  else some (s.skipOne, record aead s.dir s.lane s.counter plain)

/-- Opens records coming one way. -/
structure Opener where
  dir : Dir
  lane : UInt8
  counter : UInt64 := 0
deriving DecidableEq

def Opener.skipOne (o : Opener) : Opener := { o with counter := o.counter + 1 }

inductive Read
  | wait
  | error
  | record (opener : Opener) (plain rest : List UInt8)
deriving DecidableEq

def Opener.read (aead : Aead) (o : Opener) (bytes : List UInt8) : Read :=
  if bytes.length < 4 then .wait
  else
    let len := ofLe (bytes.take 4)
    if len < tagLen ∨ maxRecord < len then .error
    else if (bytes.drop 4).length < len then .wait
    else
      match aead.openInPlace (nonce o.dir o.lane o.counter) [] ((bytes.drop 4).take len) with
      | none => .error
      | some plain => .record o.skipOne plain ((bytes.drop 4).drop len)

def hello (lane streams : UInt8) : List UInt8 := helloText ++ [lane, streams]

theorem Dir.toU8_inj {d d' : Dir} (h : d.toU8 = d'.toU8) : d = d' := by
  cases d <;> cases d' <;> first | rfl | exact absurd h (by decide)

theorem nonce_inj {d d' : Dir} {l l' : UInt8} {c c' : UInt64} (h : nonce d l c = nonce d' l' c') :
    d = d' ∧ l = l' ∧ c = c' := by
  simp only [nonce, List.cons_append, List.nil_append, List.cons.injEq, true_and] at h
  obtain ⟨hd, hl, hc⟩ := h
  have hnat := leBytes_inj (w := 8) c.toNat_lt c'.toNat_lt hc
  exact ⟨Dir.toU8_inj hd, hl, UInt64.toNat_inj.mp hnat⟩

theorem Sealer.counter_iterate (s : Sealer) (n : ℕ) : (Sealer.skipOne^[n] s).counter = s.counter + UInt64.ofNat n := by
  induction n with
  | zero => exact (UInt64.add_zero _).symm
  | succ n ih =>
    rw [Function.iterate_succ_apply', Sealer.skipOne, ih, UInt64.ofNat_add, ← UInt64.add_assoc]
    rfl

def nonceLen : ℕ := 12

theorem length_nonce (dir : Dir) (lane : UInt8) (counter : UInt64) : (nonce dir lane counter).length = nonceLen := by
  rw [nonce, List.length_append, length_leBytes]
  rfl

structure Sound (aead : Aead) : Prop where
  opens : ∀ n p, n.length = nonceLen → aead.openInPlace n [] (aead.sealAppendTag n [] p) = some p
  apart : ∀ n n' p, n.length = nonceLen → n'.length = nonceLen → n ≠ n' →
    aead.openInPlace n' [] (aead.sealAppendTag n [] p) = none
  length : ∀ n p, n.length = nonceLen → (aead.sealAppendTag n [] p).length = p.length + tagLen

section
variable {aead : Aead} (hsound : Sound aead)
include hsound

theorem length_record (dir : Dir) (lane : UInt8) (counter : UInt64) (plain : List UInt8) :
    (record aead dir lane counter plain).length = 4 + (plain.length + tagLen) := by
  rw [record, List.length_append, length_leBytes, hsound.length _ _ (length_nonce _ _ _)]

theorem Opener.read_record_append (o : Opener) {dir : Dir} {lane : UInt8} {counter : UInt64}
    {plain : List UInt8} (hfits : plain.length + tagLen ≤ maxRecord) (rest : List UInt8) :
    o.read aead (record aead dir lane counter plain ++ rest) =
      match aead.openInPlace (nonce o.dir o.lane o.counter) []
        (aead.sealAppendTag (nonce dir lane counter) [] plain) with
      | none => .error
      | some plain => .record o.skipOne plain rest := by
  obtain ⟨body, hbody⟩ : ∃ body, body = aead.sealAppendTag (nonce dir lane counter) [] plain := ⟨_, rfl⟩
  have hlen : body.length = plain.length + tagLen := by
    rw [hbody, hsound.length _ _ (length_nonce _ _ _)]
  have hfield : ofLe (leBytes 4 (plain.length + tagLen)) = plain.length + tagLen :=
    ofLe_leBytes_of_lt (hfits.trans_lt (by decide))
  have hall : record aead dir lane counter plain ++ rest = leBytes 4 (plain.length + tagLen) ++ (body ++ rest) := by
    rw [record, hbody, List.append_assoc]
  have hdrop : (leBytes 4 (plain.length + tagLen) ++ (body ++ rest)).drop 4 = body ++ rest :=
    List.drop_left' (length_leBytes _ _)
  have htag : tagLen ≤ plain.length + tagLen := Nat.le_add_left _ _
  rw [hall, Opener.read, if_neg (by rw [List.length_append, length_leBytes]; omega)]
  dsimp only
  rw [take_leBytes_append, hfield, if_neg (by omega), hdrop,
    if_neg (by rw [List.length_append]; omega), List.take_left' hlen, List.drop_left' hlen, hbody]

theorem Opener.read_record (o : Opener) {dir : Dir} {lane : UInt8} {counter : UInt64}
    {plain : List UInt8} (hfits : plain.length + tagLen ≤ maxRecord) {rest : List UInt8}
    {o' : Opener} {plain' rest' : List UInt8}
    (h : o.read aead (record aead dir lane counter plain ++ rest) = .record o' plain' rest') :
    o.dir = dir ∧ o.lane = lane ∧ o.counter = counter := by
  rw [o.read_record_append hsound hfits] at h
  by_cases hn : nonce dir lane counter = nonce o.dir o.lane o.counter
  · obtain ⟨hd, hl, hc⟩ := nonce_inj hn
    exact ⟨hd.symm, hl.symm, hc.symm⟩
  · rw [hsound.apart _ _ _ (length_nonce _ _ _) (length_nonce _ _ _) hn] at h
    cases h

theorem Opener.read_of_part (o : Opener) {plain : List UInt8}
    (hfits : plain.length + tagLen ≤ maxRecord) {bytes more : List UInt8}
    (h : bytes <+: record aead o.dir o.lane o.counter plain ++ more) :
    o.read aead bytes = .wait ∨ ∃ rest, rest <+: more ∧ bytes = record aead o.dir o.lane o.counter plain ++ rest ∧
        o.read aead bytes = .record o.skipOne plain rest := by
  obtain ⟨whole, hwhole⟩ : ∃ whole, whole = record aead o.dir o.lane o.counter plain := ⟨_, rfl⟩
  have hlen : whole.length = 4 + (plain.length + tagLen) := by rw [hwhole, length_record hsound]
  rw [← hwhole] at h ⊢
  rcases Nat.lt_or_ge bytes.length whole.length with hpart | hall
  · -- Less than the record: the length is not there, or not all that it counts.
    left
    have hpre : bytes <+: whole := List.prefix_of_prefix_length_le h (List.prefix_append _ _) hpart.le
    by_cases hfour : bytes.length < 4
    · rw [Opener.read, if_pos hfour]
    · obtain ⟨tail, htail⟩ := hpre
      have hfield : bytes.take 4 = leBytes 4 (plain.length + tagLen) := by
        have h4 : (bytes ++ tail).take 4 = bytes.take 4 := List.take_append_of_le_length (by omega)
        rw [← h4, htail, hwhole, record, take_leBytes_append]
      have hlt : plain.length + tagLen < 256 ^ 4 := hfits.trans_lt (by decide)
      have htag : tagLen ≤ plain.length + tagLen := Nat.le_add_left _ _
      rw [Opener.read, if_neg hfour]
      dsimp only
      rw [hfield, ofLe_leBytes_of_lt hlt, if_neg (by omega), if_pos (by rw [List.length_drop]; omega)]
  · right
    obtain ⟨rest, rfl⟩ : whole <+: bytes := List.prefix_of_prefix_length_le (List.prefix_append _ _) h hall
    have hrest : rest <+: more := (List.prefix_append_right_inj whole).mp h
    refine ⟨rest, hrest, rfl, ?_⟩
    rw [hwhole, o.read_record_append hsound hfits, hsound.opens _ _ (length_nonce _ _ _)]

end

end Rdpio.Hyper.BulkTcp
