import Mathlib.Algebra.Order.BigOperators.Group.List
import Mathlib.Data.List.Chain
import Mathlib.Data.List.Nodup
import Rdpio.Lib.Reader

/-!
# Touch events

`touch_event` of `crates/rdp-channels/src/rdpei.rs`: contacts go to the server in frames, in each of which a
contact id stands once.
-/

namespace Rdpio.Channels.Rdpei

open Lib (leBytes Reader Reads)

def EVENTID_TOUCH : ℕ := 0x0003

structure RdpInputContact where
  id : UInt8
  x : Int32
  y : Int32
  flags : UInt32
deriving DecidableEq

def unsigned (value : ℕ) : List UInt8 :=
  if value ≤ 0x3F then [.ofNat value]
  else if value ≤ 0x3FFF then [.ofNat (0x40 ||| ((value >>> 8) &&& 0x3F)), .ofNat (value &&& 0xFF)]
  else if value ≤ 0x3F_FFFF then
    [.ofNat (0x80 ||| ((value >>> 16) &&& 0x3F)), .ofNat ((value >>> 8) &&& 0xFF), .ofNat (value &&& 0xFF)]
  else if value ≤ 0x3FFF_FFFF then
    [.ofNat (0xC0 ||| ((value >>> 24) &&& 0x3F)), .ofNat ((value >>> 16) &&& 0xFF), .ofNat ((value >>> 8) &&& 0xFF),
      .ofNat (value &&& 0xFF)]
  else [0xC0 ||| 0x3F, 0xFF, 0xFF, 0xFF]

/-- A `u16`: the two shorter forms. -/
def writeVu16 (value : ℕ) : List UInt8 :=
  if value ≤ 0x3F then [.ofNat value] else [.ofNat (0x40 ||| ((value >>> 8) &&& 0x3F)), .ofNat (value &&& 0xFF)]

def writeVu32 (value : ℕ) : List UInt8 := unsigned value

def writeVu64 (value : ℕ) : List UInt8 := unsigned value

def writeVi32 (value : Int32) : List UInt8 :=
  let sign := if value < 0 then 0x20 else 0
  let v := value.toInt.natAbs
  if v ≤ 0x1F then [.ofNat (sign ||| v)]
  else if v ≤ 0x1FFF then [.ofNat (0x40 ||| sign ||| ((v >>> 8) &&& 0x1F)), .ofNat (v &&& 0xFF)]
  else if v ≤ 0x1F_FFFF then
    [.ofNat (0x80 ||| sign ||| ((v >>> 16) &&& 0x1F)), .ofNat ((v >>> 8) &&& 0xFF), .ofNat (v &&& 0xFF)]
  else
    let v := min v 0x1FFF_FFFF
    [.ofNat (0xC0 ||| sign ||| ((v >>> 24) &&& 0x1F)), .ofNat ((v >>> 16) &&& 0xFF), .ofNat ((v >>> 8) &&& 0xFF),
      .ofNat (v &&& 0xFF)]

/-- A contact: no rectangle, orientation or pressure. -/
def touchContact (c : RdpInputContact) : List UInt8 :=
  [c.id] ++ writeVu16 0 ++ writeVi32 c.x ++ writeVi32 c.y ++ writeVu32 c.flags.toNat

def touchFrame (contacts : List RdpInputContact) (frame_offset : ℕ) : List UInt8 :=
  writeVu16 (contacts.length % 2^16) ++ writeVu64 frame_offset ++ (contacts.map touchContact).flatten

def pushContact (frames : List (List RdpInputContact)) (c : RdpInputContact) : List (List RdpInputContact) :=
  match frames.getLast? with
  | some f => if !f.any fun e => e.id == c.id then frames.dropLast ++ [f ++ [c]] else frames ++ [[c]]
  | none => frames ++ [[c]]

def frames (contacts : List RdpInputContact) : List (List RdpInputContact) := contacts.foldl pushContact []

def frameOffset (i : ℕ) : ℕ := if i = 0 then 0 else 10

def touchEvent (contacts : List RdpInputContact) : Option (List UInt8) :=
  if contacts = [] then none
  else
    let fs := frames contacts
    let head := leBytes 2 EVENTID_TOUCH
    let body := writeVu32 0 ++ writeVu16 (fs.length % 2^16) ++
      (fs.mapIdx fun i f => touchFrame f (frameOffset i)).flatten
    some (head ++ leBytes 4 (head.length + 4 + body.length) ++ body)

def readVu16 : Reader ℕ := do
  let p ← Lib.unpack 2 id
  if p.1 ≤ 1 then pure p.2 else failure

def readVu32 : Reader ℕ := do
  let p ← Lib.unpack 2 id
  pure p.2

def readVi32 : Reader ℤ := do
  let p ← Lib.unpack 3 (· / 2)
  pure (if p.1 % 2 = 1 then -(p.2 : ℤ) else p.2)

def readVu64 : Reader ℕ := do
  let p ← Lib.unpack 3 id
  pure p.2

structure Contact where
  id : UInt8
  x : ℤ
  y : ℤ
  flags : ℕ
deriving DecidableEq

structure Frame where
  offset : ℕ
  contacts : List Contact
deriving DecidableEq

structure TouchEvent where
  pdu_length : ℕ
  encode_time : ℕ
  frames : List Frame
deriving DecidableEq

def readContact : Reader Contact := do
  let id ← Lib.takeByte
  let fields_present ← readVu16
  if fields_present ≠ 0 then failure
  else
    let x ← readVi32
    let y ← readVi32
    let flags ← readVu32
    pure ⟨id, x, y, flags⟩

def readFrame : Reader Frame := do
  let count ← readVu16
  let offset ← readVu64
  let contacts ← Lib.readTimes readContact count
  pure ⟨offset, contacts⟩

def readTouchEvent : Reader TouchEvent := do
  let event_id ← Lib.takeLe 2
  if event_id ≠ EVENTID_TOUCH then failure
  else
    let pdu_length ← Lib.takeLe 4
    let encode_time ← readVu32
    let count ← readVu16
    let frames ← Lib.readTimes readFrame count
    pure ⟨pdu_length, encode_time, frames⟩

def decodeTouchEvent (b : List UInt8) : Option TouchEvent :=
  match readTouchEvent.run b with
  | some (event, []) => some event
  | _ => none

def RdpInputContact.read (c : RdpInputContact) : Contact := ⟨c.id, c.x.toInt, c.y.toInt, c.flags.toNat⟩

/-! ## Numbers -/

theorem ofNat_and (v : ℕ) : UInt8.ofNat (v &&& 0xFF) = .ofNat v := by
  rw [show 0xFF = 2^8 - 1 from rfl, Nat.and_two_pow_sub_one_eq_mod]
  exact UInt8.ofNat_mod_size

theorem low_bytes (v : ℕ) : [UInt8.ofNat (v &&& 0xFF)] = Lib.beBytes 1 v ∧
      [UInt8.ofNat ((v >>> 8) &&& 0xFF), .ofNat (v &&& 0xFF)] = Lib.beBytes 2 v ∧
      [UInt8.ofNat ((v >>> 16) &&& 0xFF), .ofNat ((v >>> 8) &&& 0xFF), .ofNat (v &&& 0xFF)] = Lib.beBytes 3 v := by
  have h8 : v >>> 8 = v / 256 := Nat.shiftRight_eq_div_pow v 8
  have h16 : v >>> 16 = v / 256 / 256 := by rw [Nat.shiftRight_eq_div_pow, Nat.div_div_eq_div_mul]
  simp only [ofNat_and, h8, h16]
  exact ⟨rfl, rfl, rfl⟩

theorem first_byte {k t v i : ℕ} (h : v / 256^i < 2^k) :
    2^k * t ||| ((v >>> (8 * i)) &&& (2^k - 1)) = t * 2^k + v / 256^i := by
  rw [Nat.shiftRight_eq_div_pow, pow_mul, Nat.and_two_pow_sub_one_eq_mod]
  change 2^k * t ||| v / 256^i % 2^k = _
  rw [Nat.mod_eq_of_lt h, ← Nat.two_pow_add_eq_or_of_lt h, Nat.mul_comm]

theorem unsigned_eq_pack {v : ℕ} (h : v < 2^30) :
    ∃ n < 4, unsigned v = Lib.pack 2 n n v ∧ v < 2^6 * 256^n ∧ (v < 2^14 → n ≤ 1) := by
  obtain ⟨hone, htwo, hthree⟩ := low_bytes v
  unfold unsigned
  split_ifs with h1 h2 h3 h4
  · refine ⟨0, by omega, ?_, by omega, by omega⟩
    rw [Lib.pack, Nat.zero_mul, Nat.zero_add, pow_zero, Nat.div_one]
    rfl
  · have hfirst := first_byte (k := 6) (t := 1) (v := v) (i := 1) (by omega)
    exact ⟨1, by omega, congrArg₂ List.cons (congrArg UInt8.ofNat hfirst) hone, by omega, by omega⟩
  · have hfirst := first_byte (k := 6) (t := 2) (v := v) (i := 2) (by omega)
    exact ⟨2, by omega, congrArg₂ List.cons (congrArg UInt8.ofNat hfirst) htwo, by omega, by omega⟩
  · have hfirst := first_byte (k := 6) (t := 3) (v := v) (i := 3) (by omega)
    exact ⟨3, by omega, congrArg₂ List.cons (congrArg UInt8.ofNat hfirst) hthree, by omega, by omega⟩
  · omega

theorem writeVi32_eq_pack {value : Int32} (h : value.toInt.natAbs ≤ 0x1FFF_FFFF) :
    ∃ n < 4, writeVi32 value = Lib.pack 3 n (2 * n + if value < 0 then 1 else 0) value.toInt.natAbs ∧
      value.toInt.natAbs < 2^5 * 256^n := by
  unfold writeVi32
  simp only
  generalize hv : value.toInt.natAbs = v at h
  obtain ⟨hone, htwo, hthree⟩ := low_bytes v
  rw [Nat.min_eq_left h]
  -- The first byte has the length, then the sign, then the number.
  obtain ⟨t, hsign, ht, hle⟩ : ∃ t, (if value < 0 then 0x20 else 0) = 2^5 * t ∧
      (if value < 0 then 1 else 0) = t ∧ t ≤ 1 := by
    split_ifs
    · exact ⟨1, rfl, rfl, le_rfl⟩
    · exact ⟨0, rfl, rfl, Nat.zero_le 1⟩
  have htag : ∀ n ∈ [0, 1, 2, 3], 2^6 * n ||| 2^5 * t = 2^5 * (2 * n + t) := by
    rcases Nat.le_one_iff_eq_zero_or_eq_one.mp hle with rfl | rfl <;> decide
  rw [hsign, ht]
  split_ifs with h1 h2 h3
  · refine ⟨0, by omega, ?_, by omega⟩
    have hfirst : 2^5 * t ||| v = t * 2^5 + v := by
      rw [← Nat.two_pow_add_eq_or_of_lt (show v < 2^5 by omega), Nat.mul_comm]
    rw [hfirst, Lib.pack, Nat.mul_zero, Nat.zero_add, pow_zero, Nat.div_one]
    rfl
  · have hfirst := first_byte (k := 5) (t := 2 * 1 + t) (v := v) (i := 1) (by omega)
    rw [← htag 1 (by decide)] at hfirst
    exact ⟨1, by omega, congrArg₂ List.cons (congrArg UInt8.ofNat hfirst) hone, by omega⟩
  · have hfirst := first_byte (k := 5) (t := 2 * 2 + t) (v := v) (i := 2) (by omega)
    rw [← htag 2 (by decide)] at hfirst
    exact ⟨2, by omega, congrArg₂ List.cons (congrArg UInt8.ofNat hfirst) htwo, by omega⟩
  · have hfirst := first_byte (k := 5) (t := 2 * 3 + t) (v := v) (i := 3) (by omega)
    rw [← htag 3 (by decide)] at hfirst
    exact ⟨3, by omega, congrArg₂ List.cons (congrArg UInt8.ofNat hfirst) hthree, by omega⟩

theorem reads_writeVu32 {v : ℕ} (h : v < 2^30) : Reads readVu32 (writeVu32 v) v := by
  obtain ⟨n, hn, hwrite, hv, -⟩ := unsigned_eq_pack h
  rw [writeVu32, hwrite]
  exact (Lib.reads_pack (by omega) hn hv rfl).last Prod.snd

theorem reads_writeVu16 {v : ℕ} (h : v < 2^14) : Reads readVu16 (writeVu16 v) v := by
  have hunsigned : writeVu16 v = unsigned v := by
    unfold writeVu16 unsigned
    split_ifs
    · rfl
    · rfl
    all_goals omega
  obtain ⟨n, hn, hwrite, hv, hshort⟩ := unsigned_eq_pack (show v < 2^30 by omega)
  have hlast : Reads (if n ≤ 1 then pure v else failure : Reader ℕ) [] v := by
    rw [if_pos (hshort h)]
    exact Lib.reads_pure v
  have hbind := (Lib.reads_pack (k := 2) (m := id) (by omega) hn hv rfl).bind
    (f := fun p => if p.1 ≤ 1 then pure p.2 else failure) hlast
  rw [List.append_nil] at hbind
  rw [hunsigned, hwrite]
  exact hbind

theorem reads_writeVu64 {v : ℕ} (h : v < 2^5) : Reads readVu64 (writeVu64 v) v := by
  have hpack : writeVu64 v = Lib.pack 3 0 0 v := by
    rw [writeVu64, unsigned, if_pos (by omega), Lib.pack, Nat.zero_mul, Nat.zero_add, pow_zero, Nat.div_one]
    rfl
  have hfits : v < 2^(8 - 3) * 256^0 := by omega
  rw [hpack]
  exact (Lib.reads_pack (by omega) (by omega) hfits rfl).last Prod.snd

theorem reads_writeVi32 {value : Int32} (h : value.toInt.natAbs ≤ 0x1FFF_FFFF) :
    Reads readVi32 (writeVi32 value) value.toInt := by
  obtain ⟨n, hn, hwrite, hv⟩ := writeVi32_eq_pack h
  have hneg : value < 0 ↔ value.toInt < 0 := Int32.lt_iff_toInt_lt
  have hlast := (Lib.reads_pack (k := 3) (t := 2 * n + if value < 0 then 1 else 0) (m := (· / 2)) (by omega)
    (by split_ifs <;> omega) hv (by split_ifs <;> omega)).last
    fun p => if p.1 % 2 = 1 then -(p.2 : ℤ) else p.2
  have hvalue : (if (2 * n + if value < 0 then 1 else 0) % 2 = 1 then -(value.toInt.natAbs : ℤ)
      else value.toInt.natAbs) = value.toInt := by
    by_cases hsign : value < 0
    · rw [if_pos hsign, if_pos (by omega)]
      have := hneg.mp hsign
      omega
    · rw [if_neg hsign, if_neg (by omega)]
      have := mt hneg.mpr hsign
      omega
  rw [hvalue] at hlast
  rw [hwrite]
  exact hlast

variable {c : RdpInputContact}

/-- What the four bytes of a coordinate and of the flags can hold. -/
structure RdpInputContact.Fits (c : RdpInputContact) : Prop where
  x : c.x.toInt.natAbs ≤ 0x1FFF_FFFF
  y : c.y.toInt.natAbs ≤ 0x1FFF_FFFF
  flags : c.flags.toNat < 2^30

theorem reads_touchContact (h : c.Fits) : Reads readContact (touchContact c) c.read := by
  have hwrite : touchContact c =
      [c.id] ++ (writeVu16 0 ++ (writeVi32 c.x ++ (writeVi32 c.y ++ writeVu32 c.flags.toNat))) := by
    simp only [touchContact, List.append_assoc]
  rw [hwrite]
  refine (Lib.reads_takeByte c.id).bind ((reads_writeVu16 (by omega)).bind ?_)
  rw [if_neg (by simp)]
  exact (reads_writeVi32 h.x).bind ((reads_writeVi32 h.y).bind ((reads_writeVu32 h.flags).last _))

theorem reads_touchFrame {contacts : List RdpInputContact} {offset : ℕ} (hfits : ∀ c ∈ contacts, c.Fits)
    (hlen : contacts.length < 2^14) (hoffset : offset < 2^5) :
    Reads readFrame (touchFrame contacts offset) ⟨offset, contacts.map RdpInputContact.read⟩ := by
  have hcontacts := Lib.reads_readTimes fun c hc => reads_touchContact (hfits c hc)
  rw [touchFrame, List.append_assoc, Nat.mod_eq_of_lt (by omega)]
  exact (reads_writeVu16 hlen).bind ((reads_writeVu64 hoffset).bind (hcontacts.last _))

def readFrames (fs : List (List RdpInputContact)) : List Frame :=
  fs.mapIdx fun i f => ⟨frameOffset i, f.map RdpInputContact.read⟩

theorem reads_frames {fs : List (List RdpInputContact)} (hfits : ∀ f ∈ fs, ∀ c ∈ f, c.Fits)
    (hlen : ∀ f ∈ fs, f.length < 2^14) :
    Reads (Lib.readTimes readFrame fs.length) (fs.mapIdx fun i f => touchFrame f (frameOffset i)).flatten
      (readFrames fs) := by
  have hread : ∀ p ∈ fs.zipIdx, Reads readFrame (touchFrame p.1 (frameOffset p.2))
      ⟨frameOffset p.2, p.1.map RdpInputContact.read⟩ := by
    intro p hp
    have hmem : p.1 ∈ fs := List.fst_mem_of_mem_zipIdx hp
    have hoffset : frameOffset p.2 < 2^5 := by
      unfold frameOffset
      split_ifs <;> omega
    exact reads_touchFrame (hfits _ hmem) (hlen _ hmem) hoffset
  have hall := Lib.reads_readTimes hread
  rw [List.length_zipIdx] at hall
  rw [readFrames, List.mapIdx_eq_zipIdx_map, List.mapIdx_eq_zipIdx_map]
  exact hall

def Repeats (f g : List RdpInputContact) : Prop := ∃ c ∈ g.head?, c.id ∈ f.map (·.id)

/-- No id stands twice in a frame, no frame is empty, and frames are only split at an id that repeats. -/
structure Split (fs : List (List RdpInputContact)) : Prop where
  nodup : ∀ f ∈ fs, (f.map (·.id)).Nodup
  nonempty : ∀ f ∈ fs, f ≠ []
  repeats : fs.IsChain Repeats

theorem pushContact_spec {fs : List (List RdpInputContact)} (h : Split fs) (c : RdpInputContact) :
    (pushContact fs c).flatten = fs.flatten ++ [c] ∧ Split (pushContact fs c) := by
  unfold pushContact
  cases hlast : fs.getLast? with
  | none =>
    rw [List.getLast?_eq_none_iff] at hlast
    subst hlast
    exact ⟨rfl, by simp, by simp, by simp⟩
  | some f =>
    obtain ⟨before, rfl⟩ := List.getLast?_eq_some_iff.mp hlast
    obtain ⟨hbefore, -, hjoin⟩ := List.isChain_append.mp h.repeats
    have hf : f ≠ [] := h.nonempty f (by simp)
    dsimp only
    by_cases hthere : c.id ∈ f.map (·.id)
    · have hany : (f.any fun e => e.id == c.id) = true := by simpa using hthere
      rw [hany, if_neg (by decide)]
      refine ⟨by simp, ?_, ?_, ?_⟩
      · exact List.forall_mem_append.mpr ⟨h.nodup, by simp⟩
      · exact List.forall_mem_append.mpr ⟨h.nonempty, by simp⟩
      · refine List.isChain_append.mpr ⟨h.repeats, List.isChain_singleton _, ?_⟩
        intro e he g hg
        rw [List.getLast?_append, List.getLast?_singleton, Option.some_or, Option.mem_some_iff] at he
        rw [List.head?_cons, Option.mem_some_iff] at hg
        rw [← he, ← hg]
        exact ⟨c, rfl, hthere⟩
    · have hany : (f.any fun e => e.id == c.id) = false := by simpa using hthere
      rw [hany, Bool.not_false, if_pos rfl, List.dropLast_concat]
      refine ⟨by simp, ?_, ?_, ?_⟩
      · intro g hg
        rcases List.mem_append.mp hg with hg | hg
        · exact h.nodup g (List.mem_append_left _ hg)
        · rw [List.mem_singleton.mp hg, List.map_append, List.map_singleton]
          exact List.Nodup.append (h.nodup f (by simp)) (List.nodup_singleton _) (List.disjoint_singleton.mpr hthere)
      · intro g hg
        rcases List.mem_append.mp hg with hg | hg
        · exact h.nonempty g (List.mem_append_left _ hg)
        · rw [List.mem_singleton.mp hg]
          exact List.append_ne_nil_of_right_ne_nil _ (List.cons_ne_nil _ _)
      · -- The frame that takes the contact begins as it did.
        refine List.isChain_append.mpr ⟨hbefore, List.isChain_singleton _, ?_⟩
        intro e he g hg
        rw [List.head?_cons, Option.mem_some_iff] at hg
        obtain ⟨d, hd, hrepeats⟩ := hjoin e he f rfl
        refine ⟨d, ?_, hrepeats⟩
        rw [← hg, List.head?_append_of_ne_nil _ hf]
        exact hd

theorem frames_spec (contacts : List RdpInputContact) :
    (frames contacts).flatten = contacts ∧ Split (frames contacts) := by
  induction contacts using List.reverseRecOn with
  | nil => exact ⟨rfl, by simp [frames], by simp [frames], by simp [frames]⟩
  | append_singleton contacts c ih =>
    have hpush := pushContact_spec ih.2 c
    rw [ih.1] at hpush
    rw [frames, List.foldl_append]
    exact hpush

theorem length_frames {contacts : List RdpInputContact} {fs : List (List RdpInputContact)}
    (hflat : fs.flatten = contacts) (h : Split fs) :
    fs.length ≤ contacts.length ∧ ∀ f ∈ fs, f.length ≤ contacts.length := by
  rw [← hflat]
  constructor
  · rw [List.length_flatten]
    refine le_trans (le_of_eq ?_) (List.length_le_sum_of_one_le _ ?_)
    · rw [List.length_map]
    · intro n hn
      obtain ⟨f, hf, rfl⟩ := List.mem_map.mp hn
      exact List.length_pos_of_ne_nil (h.nonempty f hf)
  · exact fun f hf => (List.sublist_flatten_of_mem hf).length_le

theorem contacts_readFrames (fs : List (List RdpInputContact)) :
    (readFrames fs).map (·.contacts) = fs.map (List.map RdpInputContact.read) := by
  apply List.ext_getElem?
  intro i
  simp [readFrames, Function.comp_def]

theorem id_read (f : List RdpInputContact) : (f.map RdpInputContact.read).map (·.id) = f.map (·.id) := by
  rw [List.map_map]
  rfl

/-! ## Lengths -/

theorem length_writeVu16_le (v : ℕ) : (writeVu16 v).length ≤ 2 := by
  unfold writeVu16
  split_ifs <;> simp

theorem length_unsigned_le (v : ℕ) : (unsigned v).length ≤ 4 := by
  unfold unsigned
  split_ifs <;> simp

theorem length_writeVi32_le (v : Int32) : (writeVi32 v).length ≤ 4 := by
  unfold writeVi32
  simp only
  split_ifs <;> simp

theorem length_touchContact_le (c : RdpInputContact) : (touchContact c).length ≤ 15 := by
  have hpresent := length_writeVu16_le 0
  have hx := length_writeVi32_le c.x
  have hy := length_writeVi32_le c.y
  have hflags : (writeVu32 c.flags.toNat).length ≤ 4 := length_unsigned_le _
  simp only [touchContact, List.length_append, List.length_singleton]
  omega

theorem length_flatten_le {l : List (List UInt8)} {k : ℕ} (h : ∀ w ∈ l, w.length ≤ k) :
    l.flatten.length ≤ l.length * k := by
  rw [List.length_flatten]
  calc (l.map List.length).sum ≤ (l.map List.length).length • k := by
        refine List.sum_le_card_nsmul _ _ fun n hn => ?_
        obtain ⟨w, hw, rfl⟩ := List.mem_map.mp hn
        exact h w hw
    _ = l.length * k := by
        rw [List.length_map]
        rfl

theorem length_touchFrame_le (f : List RdpInputContact) (offset : ℕ) :
    (touchFrame f offset).length ≤ 6 + f.length * 15 := by
  have hcount := length_writeVu16_le (f.length % 2^16)
  have hoffset : (writeVu64 offset).length ≤ 4 := length_unsigned_le _
  have hcontacts := length_flatten_le (l := f.map touchContact) (k := 15) fun w hw => by
    obtain ⟨c, -, rfl⟩ := List.mem_map.mp hw
    exact length_touchContact_le c
  rw [List.length_map] at hcontacts
  simp only [touchFrame, List.length_append]
  omega

theorem length_frames_lt {fs : List (List RdpInputContact)} (hcount : fs.length < 16384)
    (hsizes : ∀ f ∈ fs, f.length < 16384) :
    (fs.mapIdx fun i f => touchFrame f (frameOffset i)).flatten.length < 4_200_000_000 := by
  have hflat := length_flatten_le (l := fs.mapIdx fun i f => touchFrame f (frameOffset i)) (k := 245751) fun w hw => by
    obtain ⟨i, hi, rfl⟩ := List.mem_mapIdx.mp hw
    have hframe := length_touchFrame_le fs[i] (frameOffset i)
    have hsize := hsizes fs[i] (List.getElem_mem hi)
    omega
  rw [List.length_mapIdx] at hflat
  omega

/-- A touch event is read back: its length is its own, its frames are the contacts in their order, no id stands twice in
a frame, and a frame begins with an id that is in the one before. -/
theorem touchEvent_roundTrip {contacts : List RdpInputContact} (hsome : contacts ≠ [])
    (hlen : contacts.length < 16384) (hfits : ∀ c ∈ contacts, c.Fits) :
    ∃ pdu event, touchEvent contacts = some pdu ∧ decodeTouchEvent pdu = some event ∧
      event.pdu_length = pdu.length ∧ event.encode_time = 0 ∧
      (event.frames.map (·.contacts)).flatten = contacts.map RdpInputContact.read ∧
      (∀ f ∈ event.frames, (f.contacts.map (·.id)).Nodup) ∧
      event.frames.IsChain fun f g => ∃ c ∈ g.contacts.head?, c.id ∈ f.contacts.map (·.id) := by
  obtain ⟨hflat, hsplit⟩ := frames_spec contacts
  obtain ⟨hcount, hsizes⟩ := length_frames hflat hsplit
  generalize hfs : frames contacts = fs at hflat hsplit hcount hsizes
  have hmem : ∀ f ∈ fs, ∀ c ∈ f, c.Fits := by
    intro f hf c hc
    refine hfits c ?_
    rw [← hflat]
    exact List.mem_flatten_of_mem hf hc
  have hsmall : ∀ f ∈ fs, f.length < 16384 := fun f hf => Nat.lt_of_le_of_lt (hsizes f hf) hlen
  have hframes := reads_frames hmem hsmall
  -- The PDU, field by field.
  let w := (fs.mapIdx fun i f => touchFrame f (frameOffset i)).flatten
  have hshort : w.length < 4_200_000_000 := length_frames_lt (Nat.lt_of_le_of_lt hcount hlen) hsmall
  let pdu := leBytes 2 EVENTID_TOUCH ++ (leBytes 4 (2 + 4 + (writeVu32 0 ++ writeVu16 fs.length ++ w).length) ++
    (writeVu32 0 ++ (writeVu16 fs.length ++ w)))
  have hbody : (writeVu32 0 ++ writeVu16 fs.length ++ w).length < 2^32 - 6 := by
    have hvu32 : (writeVu32 0).length ≤ 4 := length_unsigned_le 0
    have hvu16 := length_writeVu16_le fs.length
    simp only [List.length_append]
    omega
  have hlength : pdu.length = 2 + 4 + (writeVu32 0 ++ writeVu16 fs.length ++ w).length := by
    simp only [pdu, List.length_append, Lib.length_leBytes]
    omega
  have hwrite : touchEvent contacts = some pdu := by
    rw [touchEvent, if_neg hsome]
    simp only [hfs, Nat.mod_eq_of_lt (show fs.length < 2^16 by omega), Lib.length_leBytes, pdu, w, List.append_assoc]
  have hread : Reads readTouchEvent pdu ⟨pdu.length, 0, readFrames fs⟩ := by
    rw [hlength]
    refine (Lib.reads_takeLe (by decide)).bind ?_
    rw [if_neg (by simp)]
    refine (Lib.reads_takeLe (by omega)).bind ((reads_writeVu32 (by omega)).bind ?_)
    exact (reads_writeVu16 (by omega)).bind (hframes.last _)
  refine ⟨pdu, ⟨pdu.length, 0, readFrames fs⟩, hwrite, ?_, rfl, rfl, ?_, ?_, ?_⟩
  · have hwhole := hread []
    rw [List.append_nil] at hwhole
    rw [decodeTouchEvent, hwhole]
    rfl
  · rw [contacts_readFrames, ← List.map_flatten, hflat]
  · intro f hf
    obtain ⟨g, hg, hcontacts⟩ : ∃ g ∈ fs, g.map RdpInputContact.read = f.contacts := by
      rw [← List.mem_map, ← contacts_readFrames]
      exact List.mem_map_of_mem hf
    rw [← hcontacts, id_read]
    exact hsplit.nodup g hg
  · suffices hchain : ((readFrames fs).map Frame.contacts).IsChain fun f g => ∃ c ∈ g.head?, c.id ∈ f.map (·.id) from
      (List.isChain_map Frame.contacts).mp hchain
    rw [contacts_readFrames, List.isChain_map]
    refine hsplit.repeats.imp fun f g hrepeats => ?_
    obtain ⟨c, hc, hid⟩ := hrepeats
    refine ⟨c.read, ?_, ?_⟩
    · rw [List.head?_map, Option.mem_def, Option.mem_def.mp hc]
      rfl
    · rw [id_read]
      exact hid

/-- A contact that is there twice goes in two frames. -/
theorem touchEvent_roundTrip_twice :
    let c : RdpInputContact := ⟨7, 8192, -3, 5⟩
    [c, c] ≠ [] ∧ [c, c].length < 16384 ∧ ∃ pdu event, touchEvent [c, c] = some pdu ∧
      decodeTouchEvent pdu = some event ∧ event.pdu_length = pdu.length ∧ event.encode_time = 0 ∧
      (event.frames.map (·.contacts)).flatten = [c, c].map RdpInputContact.read ∧
      (∀ f ∈ event.frames, (f.contacts.map (·.id)).Nodup) ∧
      event.frames.IsChain fun f g => ∃ c ∈ g.contacts.head?, c.id ∈ f.contacts.map (·.id) := by
  have hfits : ∀ c ∈ [(⟨7, 8192, -3, 5⟩ : RdpInputContact), ⟨7, 8192, -3, 5⟩], c.Fits := by
    intro c hc
    have hc : c = ⟨7, 8192, -3, 5⟩ := by simpa using hc
    rw [hc]
    exact ⟨by decide, by decide, by decide⟩
  exact ⟨by decide, by decide, touchEvent_roundTrip (by decide) (by decide) hfits⟩

end Rdpio.Channels.Rdpei
