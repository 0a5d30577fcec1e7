import Rdpio.Lib.Bytes
import Rdpio.Lib.Transducer

/-!
# Static virtual channel chunking

`crates/rdp-channels/src/svc.rs`.
-/

namespace Rdpio.Channels.Svc

open Lib

def channelFlagFirst : UInt32 := 0x00000001

def channelFlagLast : UInt32 := 0x00000002

def channelFlagShowProtocol : UInt32 := 0x00000010

def chunkSize : ℕ := 1600

def chunk (total flags : UInt32) (piece : List UInt8) : List UInt8 :=
  leBytes 4 total.toNat ++ leBytes 4 flags.toNat ++ piece

def flags (base_flags : UInt32) (first last : Bool) : UInt32 :=
  let flags := if first then base_flags ||| channelFlagFirst else base_flags
  if last then flags ||| channelFlagLast else flags

def chunksFrom (total base_flags : UInt32) (first : Bool) (rest : List UInt8) : List (List UInt8) :=
  if rest.length ≤ chunkSize then [chunk total (flags base_flags first true) rest]
  else
    chunk total (flags base_flags first false) (rest.take chunkSize) ::
      chunksFrom total base_flags false (rest.drop chunkSize)
termination_by rest.length
decreasing_by
  rw [List.length_drop]
  unfold chunkSize at *
  omega

def chunksWith (data : List UInt8) (base_flags : UInt32) : List (List UInt8) :=
  chunksFrom (UInt32.ofNat data.length) base_flags true data

def chunks (data : List UInt8) : List (List UInt8) := chunksWith data channelFlagShowProtocol

def chunksDvc (data : List UInt8) : List (List UInt8) := chunksWith data 0

/-- What has come of the current message. -/
structure Reassembler where
  buf : List UInt8 := []
deriving DecidableEq

/-- One inbound chunk; the message when it is the last. -/
def Reassembler.push (r : Reassembler) (chunk : List UInt8) : Reassembler × Option (List UInt8) :=
  if chunk.length < 8 then (r, none)
  else
    let flags := UInt32.ofNat (ofLe ((chunk.drop 4).take 4))
    let buf := (if flags &&& channelFlagFirst ≠ 0 then [] else r.buf) ++ chunk.drop 8
    if flags &&& channelFlagLast ≠ 0 then (⟨[]⟩, some buf) else (⟨buf⟩, none)

theorem push_chunk (r : Reassembler) (total flags : UInt32) (piece : List UInt8) : r.push (chunk total flags piece) =
      let buf := (if flags &&& channelFlagFirst ≠ 0 then [] else r.buf) ++ piece
      if flags &&& channelFlagLast ≠ 0 then (⟨[]⟩, some buf) else (⟨buf⟩, none) := by
  have hlen : (chunk total flags piece).length = 8 + piece.length := by
    simp only [chunk, List.length_append, length_leBytes]
  have hflags : UInt32.ofNat (ofLe (((chunk total flags piece).drop 4).take 4)) = flags := by
    have hdrop : (chunk total flags piece).drop 4 = leBytes 4 flags.toNat ++ piece := by
      rw [chunk, List.append_assoc, drop_leBytes_append (le_refl 4), Nat.sub_self, List.drop_zero]
    have hlt : flags.toNat < 256 ^ 4 := flags.toNat_lt
    rw [hdrop, take_leBytes_append, ofLe_leBytes_of_lt hlt, UInt32.ofNat_toNat]
  have hpiece : (chunk total flags piece).drop 8 = piece := by
    rw [chunk, List.append_assoc, drop_leBytes_append (by decide),
      drop_leBytes_append (by decide), Nat.sub_self, List.drop_zero]
  unfold Reassembler.push
  rw [if_neg (by omega), hflags, hpiece]

/-- The flags that the two kinds of channel put into every chunk. -/
def Base (base_flags : UInt32) : Prop := base_flags = 0 ∨ base_flags = channelFlagShowProtocol

theorem flags_of_base {base_flags : UInt32} (h : Base base_flags) (first last : Bool) :
    (flags base_flags first last &&& channelFlagFirst ≠ 0 ↔ first = true) ∧
      (flags base_flags first last &&& channelFlagLast ≠ 0 ↔ last = true) := by
  rcases h with rfl | rfl <;> cases first <;> cases last <;> decide

theorem transduce_chunksFrom {base_flags : UInt32} (h : Base base_flags) (total : UInt32)
    (first : Bool) (rest : List UInt8) (r : Reassembler) :
    transduce Reassembler.push r (chunksFrom total base_flags first rest) =
      (⟨[]⟩, [(if first then [] else r.buf) ++ rest]) := by
  induction hn : rest.length using Nat.strongRecOn generalizing first rest r with
  | ind n ih =>
    rw [chunksFrom]
    by_cases hle : rest.length ≤ chunkSize
    · -- The last chunk.
      obtain ⟨hfirst, hlast⟩ := flags_of_base h first true
      rw [if_pos hle, transduce_cons, push_chunk]
      simp only [hfirst, hlast, if_true, transduce_nil, Option.toList_some, List.append_nil]
    · obtain ⟨hfirst, hlast⟩ := flags_of_base h first false
      have hshort : (rest.drop chunkSize).length < n := by
        rw [List.length_drop]
        unfold chunkSize at *
        omega
      rw [if_neg hle, transduce_cons, push_chunk]
      simp only [hfirst, hlast, if_false, Bool.false_eq_true]
      rw [ih _ hshort false (rest.drop chunkSize) _ rfl]
      simp only [if_false, Bool.false_eq_true, Option.toList_none, List.nil_append,
        List.append_assoc, List.take_append_drop]

theorem transduce_chunksWith {base_flags : UInt32} (h : Base base_flags) (data : List UInt8)
    (r : Reassembler) :
    transduce Reassembler.push r (chunksWith data base_flags) = (⟨[]⟩, [data]) :=
  transduce_chunksFrom h _ true data r

theorem transduce_chunks {base_flags : UInt32} (h : Base base_flags) (datas : List (List UInt8))
    (r : Reassembler) :
    (transduce Reassembler.push r (datas.flatMap fun data => chunksWith data base_flags)).2 = datas := by
  induction datas generalizing r with
  | nil => rfl
  | cons data datas ih =>
    rw [List.flatMap_cons, transduce_append, transduce_chunksWith h]
    dsimp only
    rw [ih, List.singleton_append]

end Rdpio.Channels.Svc
