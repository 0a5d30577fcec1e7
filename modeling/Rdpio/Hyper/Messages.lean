import Rdpio.Client.HyperClipboard

/-!
# Messages of the reliable channel

`crates/rdp-hyper/src/messages.rs`: how a message is written and read. What `serde_json` makes of a list of
entries is a parameter.
-/

namespace Rdpio.Hyper.Messages

open Lib
open Client.HyperClipboard (FileEntry)

def keyLen : ℕ := 32

def maxStreams : UInt8 := 16

def clampStreams (streams : UInt8) : UInt8 :=
  if streams < 1 then 1 else if maxStreams < streams then maxStreams else streams

/-- `serde_json`, on lists of entries. -/
structure Json where
  toVec : List FileEntry → List UInt8
  fromSlice : List UInt8 → Option (List FileEntry)

inductive Message
  | cursorShape (width height hot_x hot_y : UInt16) (rgba : List UInt8)
  | cursorVisible (visible : Bool)
  | clipboardText (text : String)
  | clipboardImage (dib : List UInt8)
  | clipboardFiles (transfer : UInt32) (entries : List FileEntry)
  | fileChunk (transfer index : UInt32) (offset : UInt64) (data : List UInt8)
  | bulkTcp (port : UInt16) (key : { k : List UInt8 // k.length = keyLen }) (streams : UInt8)
deriving DecidableEq

def Message.toBytes (json : Json) : Message → List UInt8
  | .cursorShape width height hot_x hot_y rgba =>
    1 :: (leBytes 2 width.toNat ++ (leBytes 2 height.toNat ++ (leBytes 2 hot_x.toNat ++
      (leBytes 2 hot_y.toNat ++ rgba))))
  | .cursorVisible visible => [2, if visible then 1 else 0]
  | .clipboardText text => 3 :: text.toUTF8.data.toList
  | .clipboardImage dib => 4 :: dib
  | .clipboardFiles transfer entries => 5 :: (leBytes 4 transfer.toNat ++ json.toVec entries)
  | .fileChunk transfer index offset data =>
    6 :: (leBytes 4 transfer.toNat ++ (leBytes 4 index.toNat ++ (leBytes 8 offset.toNat ++ data)))
  | .bulkTcp port key streams => 7 :: (leBytes 2 port.toNat ++ (key.val ++ [streams]))

def leAt (w : ℕ) (b : List UInt8) (i : ℕ) : Option ℕ :=
  if i + w ≤ b.length then some (ofLe ((b.drop i).take w)) else none

def restAt (b : List UInt8) (i : ℕ) : Option (List UInt8) := if i ≤ b.length then some (b.drop i) else none

/-- The key of an offered copy stream. -/
def keyAt (b : List UInt8) (i : ℕ) : Option { k : List UInt8 // k.length = keyLen } :=
  if h : ((b.drop i).take keyLen).length = keyLen then some ⟨(b.drop i).take keyLen, h⟩ else none

def Message.parse (json : Json) (b : List UInt8) : Option Message :=
  match b with
  | [] => none
  | 1 :: _ => do
    let width ← leAt 2 b 1
    let height ← leAt 2 b 3
    let rgba ← restAt b 9
    if rgba.length ≠ width * height * 4 then none
    else
      let hot_x ← leAt 2 b 5
      let hot_y ← leAt 2 b 7
      some (.cursorShape (UInt16.ofNat width) (UInt16.ofNat height) (UInt16.ofNat hot_x) (UInt16.ofNat hot_y) rgba)
  | 2 :: _ => b[1]?.map fun v => .cursorVisible (v ≠ 0)
  | 3 :: text => (String.fromUTF8? ⟨text.toArray⟩).map .clipboardText
  | 4 :: dib => some (.clipboardImage dib)
  | 5 :: _ => do
    let transfer ← leAt 4 b 1
    let rest ← restAt b 5
    let entries ← json.fromSlice rest
    some (.clipboardFiles (UInt32.ofNat transfer) entries)
  | 6 :: _ => do
    let transfer ← leAt 4 b 1
    let index ← leAt 4 b 5
    let offset ← leAt 8 b 9
    let data ← restAt b 17
    some (.fileChunk (UInt32.ofNat transfer) (UInt32.ofNat index) (UInt64.ofNat offset) data)
  | 7 :: _ => do
    let port ← leAt 2 b 1
    let key ← keyAt b 3
    let streams := (b[3 + keyLen]?).getD 1
    some (.bulkTcp (UInt16.ofNat port) key (clampStreams streams))
  | _ => none

def Message.Carried (json : Json) : Message → Prop
  | .cursorShape width height _ _ rgba => rgba.length = width.toNat * height.toNat * 4
  | .clipboardFiles _ entries => json.fromSlice (json.toVec entries) = some entries
  | .bulkTcp _ _ streams => 1 ≤ streams ∧ streams ≤ maxStreams
  | _ => True

def Message.isCopy : Message → Bool
  | .clipboardFiles .. => true
  | .fileChunk .. => true
  | _ => false

theorem leAt_append {w n i : ℕ} (before : List UInt8) (hi : before.length = i) (hn : n < 256 ^ w)
    (rest : List UInt8) : leAt w (before ++ (leBytes w n ++ rest)) i = some n := by
  have hfits : i + w ≤ (before ++ (leBytes w n ++ rest)).length := by
    rw [List.length_append, List.length_append, length_leBytes, hi]
    omega
  rw [leAt, if_pos hfits, List.drop_left' hi, take_leBytes_append, ofLe_leBytes_of_lt hn]

theorem restAt_append {i : ℕ} (before : List UInt8) (hi : before.length = i) (rest : List UInt8) :
    restAt (before ++ rest) i = some rest := by
  rw [restAt, if_pos (by rw [List.length_append]; omega), List.drop_left' hi]

theorem keyAt_append {i : ℕ} (before : List UInt8) (hi : before.length = i)
    (key : { k : List UInt8 // k.length = keyLen }) (rest : List UInt8) :
    keyAt (before ++ (key.val ++ rest)) i = some key := by
  have htake : ((before ++ (key.val ++ rest)).drop i).take keyLen = key.val := by
    rw [List.drop_left' hi, List.take_left' key.property]
  rw [keyAt, dif_pos (by rw [htake, key.property])]
  exact congrArg some (Subtype.ext htake)

theorem Message.parse_toBytes {json : Json} {m : Message} (h : m.Carried json) : parse json (m.toBytes json) = some m := by
  cases m with
  | cursorShape width height hot_x hot_y rgba =>
    obtain ⟨b, hb⟩ : ∃ b, b = toBytes json (.cursorShape width height hot_x hot_y rgba) := ⟨_, rfl⟩
    rw [← hb]
    have hwidth : leAt 2 b 1 = some width.toNat := by
      rw [hb]
      exact leAt_append [1] rfl width.toNat_lt _
    have hheight : leAt 2 b 3 = some height.toNat := by
      have h := leAt_append (w := 2) (1 :: leBytes 2 width.toNat) rfl height.toNat_lt
        (leBytes 2 hot_x.toNat ++ (leBytes 2 hot_y.toNat ++ rgba))
      simpa [hb, toBytes] using h
    have hx : leAt 2 b 5 = some hot_x.toNat := by
      have h := leAt_append (w := 2) (1 :: (leBytes 2 width.toNat ++ leBytes 2 height.toNat)) rfl
        hot_x.toNat_lt (leBytes 2 hot_y.toNat ++ rgba)
      simpa [hb, toBytes] using h
    have hy : leAt 2 b 7 = some hot_y.toNat := by
      have h := leAt_append (w := 2)
        (1 :: (leBytes 2 width.toNat ++ (leBytes 2 height.toNat ++ leBytes 2 hot_x.toNat))) rfl
        hot_y.toNat_lt rgba
      simpa [hb, toBytes] using h
    have hrgba : restAt b 9 = some rgba := by
      have h := restAt_append (1 :: (leBytes 2 width.toNat ++ (leBytes 2 height.toNat ++
        (leBytes 2 hot_x.toNat ++ leBytes 2 hot_y.toNat)))) rfl rgba
      simpa [hb, toBytes] using h
    obtain ⟨tail, htail⟩ : ∃ tail, b = 1 :: tail := ⟨_, hb⟩
    have hpixels : ¬ rgba.length ≠ width.toNat * height.toNat * 4 := not_not.mpr h
    rw [htail] at hwidth hheight hx hy hrgba ⊢
    dsimp only [parse]
    rw [hwidth, hheight, hrgba]
    dsimp only [Option.bind_eq_bind, Option.bind_some]
    rw [if_neg hpixels, hx, hy]
    simp
  | cursorVisible visible => cases visible <;> rfl
  | clipboardText text =>
    dsimp only [toBytes, parse]
    have hread : String.fromUTF8? ⟨text.toUTF8.data.toList.toArray⟩ = some text := by
      rw [Array.toArray_toList, String.fromUTF8?]
      exact dif_pos (show ByteArray.IsValidUTF8 ⟨text.toUTF8.data⟩ from text.isValidUTF8)
    change (String.fromUTF8? ⟨text.toUTF8.data.toList.toArray⟩).map Message.clipboardText = _
    rw [hread]
    rfl
  | clipboardImage dib => rfl
  | clipboardFiles transfer entries =>
    obtain ⟨b, hb⟩ : ∃ b, b = toBytes json (.clipboardFiles transfer entries) := ⟨_, rfl⟩
    rw [← hb]
    have htransfer : leAt 4 b 1 = some transfer.toNat := by
      rw [hb]
      exact leAt_append [5] rfl transfer.toNat_lt _
    have hrest : restAt b 5 = some (json.toVec entries) := by
      rw [hb]
      exact restAt_append (5 :: leBytes 4 transfer.toNat) rfl _
    obtain ⟨tail, htail⟩ : ∃ tail, b = 5 :: tail := ⟨_, hb⟩
    rw [htail] at htransfer hrest ⊢
    dsimp only [parse]
    rw [htransfer, hrest]
    dsimp only [Option.bind_eq_bind, Option.bind_some]
    rw [show json.fromSlice (json.toVec entries) = some entries from h]
    simp
  | fileChunk transfer index offset data =>
    obtain ⟨b, hb⟩ : ∃ b, b = toBytes json (.fileChunk transfer index offset data) := ⟨_, rfl⟩
    rw [← hb]
    have htransfer : leAt 4 b 1 = some transfer.toNat := by
      rw [hb]
      exact leAt_append [6] rfl transfer.toNat_lt _
    have hindex : leAt 4 b 5 = some index.toNat := by
      rw [hb]
      exact leAt_append (6 :: leBytes 4 transfer.toNat) rfl index.toNat_lt _
    have hoffset : leAt 8 b 9 = some offset.toNat := by
      have h := leAt_append (w := 8) (6 :: (leBytes 4 transfer.toNat ++ leBytes 4 index.toNat)) rfl offset.toNat_lt data
      simpa [hb, toBytes] using h
    have hdata : restAt b 17 = some data := by
      have h := restAt_append (6 :: (leBytes 4 transfer.toNat ++ (leBytes 4 index.toNat ++
        leBytes 8 offset.toNat))) rfl data
      simpa [hb, toBytes] using h
    obtain ⟨tail, htail⟩ : ∃ tail, b = 6 :: tail := ⟨_, hb⟩
    rw [htail] at htransfer hindex hoffset hdata ⊢
    dsimp only [parse]
    rw [htransfer, hindex, hoffset, hdata]
    simp
  | bulkTcp port key streams =>
    obtain ⟨b, hb⟩ : ∃ b, b = toBytes json (.bulkTcp port key streams) := ⟨_, rfl⟩
    rw [← hb]
    have hport : leAt 2 b 1 = some port.toNat := by
      rw [hb]
      exact leAt_append [7] rfl port.toNat_lt _
    have hkey : keyAt b 3 = some key := by
      rw [hb]
      exact keyAt_append (7 :: leBytes 2 port.toNat) rfl key _
    have hstreams : b[3 + keyLen]? = some streams := by
      have hlen : (7 :: (leBytes 2 port.toNat ++ key.val)).length = 3 + keyLen := by
        simp [key.property]
        omega
      have h : b = (7 :: (leBytes 2 port.toNat ++ key.val)) ++ [streams] := by simp [hb, toBytes]
      rw [h, List.getElem?_append_right hlen.le, hlen, Nat.sub_self]
      rfl
    obtain ⟨tail, htail⟩ : ∃ tail, b = 7 :: tail := ⟨_, hb⟩
    have hclamp : clampStreams streams = streams := by
      rw [clampStreams, if_neg (UInt8.not_lt.mpr h.1), if_neg (UInt8.not_lt.mpr h.2)]
    rw [htail] at hport hkey hstreams ⊢
    dsimp only [parse]
    rw [hport, hkey, hstreams]
    dsimp only [Option.bind_eq_bind, Option.bind_some, Option.getD_some]
    rw [hclamp]
    simp

end Rdpio.Hyper.Messages
