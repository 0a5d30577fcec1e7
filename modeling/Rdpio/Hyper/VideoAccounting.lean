import Rdpio.Hyper.Video
import Rdpio.Lib.Loops
import Rdpio.Lib.Run
import Rdpio.Lib.Serial

/-!
# Frames accounted for

What the `Reassembler` says of the frames that come, as long as no frame overtakes the first before anything was
delivered or given up on (`Reassembler.Overtakes`, `frames_accounted`).
-/

namespace Rdpio.Hyper.Video

open Lib

def Event.ids : Event → List UInt32
  | .frame f => [f.frame_id]
  | .lost first last => idsFrom first ((last - first).toNat + 1)

/-- The frame is being assembled. -/
def Reassembler.InFlight (r : Reassembler) (id : UInt32) : Prop := ∃ a, r.slot id = some a ∧ a.frame_id = id

def Reassembler.assemblyFor (r : Reassembler) (h : ShardHeader) (payload_len : ℕ) (now_us : UInt64) : Option Assembly :=
  if (r.slot h.frame_id).any (·.frame_id == h.frame_id) then r.slot h.frame_id
  else if h.blocks.toNat * maxBlockData * payload_len < h.frame_len.toNat then none
  else some (Assembly.start h payload_len now_us (takeBuf r.buffers h.frame_len.toNat).2)

/-- The shard makes the frame whole. -/
def Assembly.Finishes (cpu : Fec.Cpu) (a : Assembly) (stage : Bool) (pool : List (List UInt8))
    (h : ShardHeader) (payload : List UInt8) : Prop :=
  payload.length = a.shard_size ∧ a.blocks.length = h.blocks.toNat ∧
    ∃ a' pool' recovered, a.push cpu stage pool h payload = .whole a' pool' recovered

def Reassembler.Overtakes (cpu : Fec.Cpu) (r : Reassembler) (packet : List UInt8 × UInt64) : Prop :=
  r.next = none ∧ ∃ base h payload, r.base = some base ∧ admitted packet.1 = some (h, payload) ∧
    h.frame_id ≠ base ∧ h.frame_id - base < 32 ∧
      ∃ a, r.assemblyFor h payload.length packet.2 = some a ∧ a.Finishes cpu r.stage r.pool h payload

theorem frame_id_rebuild (cpu : Fec.Cpu) (a : Assembly) (b : ℕ) (block : Block) (stage : Bool)
    (pool : List (List UInt8)) : (rebuild cpu a b block stage pool).2.1.frame_id = a.frame_id := by
  unfold rebuild
  dsimp only
  split_ifs
  · refine foldl_range_rule (fun _ (a' : Assembly) => a'.frame_id = a.frame_id) rfl ?_
    intro i a' _ h
    split_ifs <;> exact h
  · rfl
  · rfl

theorem Assembly.frame_id_takeShard (a : Assembly) (stage : Bool) (pool : List (List UInt8))
    (h : ShardHeader) (payload : List UInt8) (block : Block) :
    (a.takeShard stage pool h payload block).1.frame_id = a.frame_id := by
  unfold Assembly.takeShard
  dsimp only
  split_ifs <;> rfl

def Arrival.assembly : Arrival → Option Assembly
  | .ignored => none
  | .kept a _ _ => some a
  | .whole a _ _ => some a

theorem Assembly.frame_id_push {cpu : Fec.Cpu} {stage : Bool} {pool : List (List UInt8)} {a a' : Assembly}
    {h : ShardHeader} {payload : List UInt8} (ha : (a.push cpu stage pool h payload).assembly = some a') :
    a'.frame_id = a.frame_id := by
  unfold Assembly.push at ha
  extract_lets b k i block at ha
  clear_value block
  obtain ⟨seen, hseen⟩ : ∃ seen, seen =
      if i < k then block.hasData i else (block.parity.getD (i - k) none).isSome := ⟨_, rfl⟩
  rw [← hseen] at ha
  dsimp only at ha
  split at ha
  · cases ha
  split at ha
  · cases ha
  have htaken := a.frame_id_takeShard stage pool h payload
  split at ha
  · cases ha
    exact htaken _
  split at ha
  · -- The block is rebuilt, or that fails.
    split at ha
    · cases ha
      exact (frame_id_rebuild ..).trans (htaken _)
    · split at ha <;> (cases ha; exact (frame_id_rebuild ..).trans (htaken _))
  · split at ha
    · cases ha
      exact htaken _
    · split at ha <;> (cases ha; exact htaken _)

/-! ## Slots -/

namespace Reassembler

variable {r r' : Reassembler} {id x : UInt32} {a : Assembly}

theorem slotOf_lt (id : UInt32) : slotOf id < 32 := Nat.mod_lt _ (by decide)

theorem slot_setSlot_self (r : Reassembler) (a : Option Assembly) (h : slotOf id = slotOf x) :
    (r.setSlot id a).slot x = a := by
  rw [slot, ← h]
  exact read_write_self _ _ (slotOf_lt id)

theorem slot_setSlot_of_ne (r : Reassembler) (a : Option Assembly) (h : slotOf id ≠ slotOf x) :
    (r.setSlot id a).slot x = r.slot x := read_write_of_ne _ _ h

theorem inFlight_congr (h : r'.slots = r.slots) : r'.InFlight x ↔ r.InFlight x := by
  rw [InFlight, InFlight, slot, slot, h]

theorem inFlight_setSlot_some (ha : a.frame_id = id) (h : (r.setSlot id (some a)).InFlight x) :
    x = id ∨ r.InFlight x := by
  obtain ⟨a', hslot, rfl⟩ := h
  by_cases hsame : slotOf id = slotOf a'.frame_id
  · rw [slot_setSlot_self r _ hsame] at hslot
    cases hslot
    exact .inl ha
  · rw [slot_setSlot_of_ne r _ hsame] at hslot
    exact .inr ⟨a', hslot, rfl⟩

theorem inFlight_setSlot_self (ha : a.frame_id = id) : (r.setSlot id (some a)).InFlight id :=
  ⟨a, slot_setSlot_self r _ rfl, ha⟩

theorem InFlight.setSlot (h : r.InFlight x) (hne : slotOf id ≠ slotOf x) (a : Option Assembly) :
    (r.setSlot id a).InFlight x := by
  obtain ⟨a', hslot, hid⟩ := h
  exact ⟨a', (slot_setSlot_of_ne r a hne).trans hslot, hid⟩

theorem inFlight_setSlot_none (ha : r.InFlight id) : (r.setSlot id none).InFlight x ↔ r.InFlight x ∧ x ≠ id := by
  obtain ⟨a, hslot, hid⟩ := ha
  constructor
  · rintro ⟨a', hslot', hx⟩
    by_cases hsame : slotOf id = slotOf x
    · rw [slot_setSlot_self r _ hsame] at hslot'
      cases hslot'
    · rw [slot_setSlot_of_ne r _ hsame] at hslot'
      exact ⟨⟨a', hslot', hx⟩, fun h => hsame (by rw [h])⟩
  · rintro ⟨⟨a', hslot', hx⟩, hne⟩
    refine InFlight.setSlot ⟨a', hslot', hx⟩ (fun hsame => hne ?_) none
    rw [slot, ← hsame] at hslot'
    cases hslot.symm.trans hslot'
    exact hx.symm.trans hid

theorem read_dropSlot {i : ℕ} (hi : i < 32) (j : ℕ) :
    read (r.dropSlot i).slots j = if i = j then none else read r.slots j := by
  unfold dropSlot
  rcases ha : read r.slots i with _ | a
  · split_ifs with hij
    · rw [← hij, ha]
    · rfl
  · split_ifs with hij
    · rw [← hij]
      exact read_write_self _ _ hi
    · exact read_write_of_ne _ _ hij

theorem next_dropSlot (r : Reassembler) (i : ℕ) : (r.dropSlot i).next = r.next := by
  unfold dropSlot
  split <;> rfl

/-- Give up on frame `id`. -/
def dropId (r : Reassembler) (id : UInt32) : Reassembler :=
  match r.slot id with
  | some o => if o.frame_id = id then r.dropSlot (slotOf id) else r
  | none => r

theorem inFlight_dropId (r : Reassembler) (id x : UInt32) : (r.dropId id).InFlight x ↔ r.InFlight x ∧ x ≠ id := by
  have hnot : ¬ r.InFlight id → (r.InFlight x ↔ r.InFlight x ∧ x ≠ id) := by
    intro hno
    refine ⟨fun h => ⟨h, ?_⟩, And.left⟩
    rintro rfl
    exact hno h
  unfold dropId
  split
  next o ho =>
    split_ifs with hid
    · rw [← inFlight_setSlot_none ⟨o, ho, hid⟩]
      refine exists_congr fun a => and_congr_left fun _ => ?_
      rw [slot, slot, read_dropSlot (slotOf_lt id)]
      by_cases hsame : slotOf id = slotOf x
      · rw [if_pos hsame]
        exact (congrArg (· = some a) (slot_setSlot_self r none hsame)).symm.to_iff
      · rw [if_neg hsame]
        exact (congrArg (· = some a) (slot_setSlot_of_ne r none hsame)).symm.to_iff
    · apply hnot
      rintro ⟨a, ha, ha'⟩
      cases ho.symm.trans ha
      exact hid ha'
  next ho =>
    apply hnot
    rintro ⟨a, ha, -⟩
    cases ho.symm.trans ha

theorem inFlight_dropIds (r : Reassembler) (base : UInt32) (n : ℕ) :
    ((List.range n).foldl (fun r i => r.dropId (base + UInt32.ofNat i)) r).InFlight x ↔
      r.InFlight x ∧ ∀ i < n, x ≠ base + UInt32.ofNat i := by
  refine foldl_range_rule (fun k (s : Reassembler) =>
    s.InFlight x ↔ r.InFlight x ∧ ∀ i < k, x ≠ base + UInt32.ofNat i) (by simp) ?_
  intro k s _ hs
  rw [inFlight_dropId, hs, and_assoc]
  refine and_congr_right fun _ => ⟨fun h i hi => ?_, fun h => ⟨fun i hi => h i (by omega), h k (by omega)⟩⟩
  rcases Nat.lt_succ_iff_lt_or_eq.mp hi with hlt | rfl
  · exact h.1 i hlt
  · exact h.2

def dropOlder (base : UInt32) (r : Reassembler) (i : ℕ) : Reassembler :=
  match read r.slots i with
  | some a => if older a.frame_id base then r.dropSlot i else r
  | none => r

theorem next_dropOlder (base : UInt32) (r : Reassembler) (i : ℕ) : (dropOlder base r i).next = r.next := by
  unfold dropOlder
  split
  · split_ifs
    · exact r.next_dropSlot i
    · rfl
  · rfl

theorem next_dropOlders (base : UInt32) (r : Reassembler) (n : ℕ) :
    ((List.range n).foldl (dropOlder base) r).next = r.next :=
  foldl_range_rule (fun _ (s : Reassembler) => s.next = r.next) rfl fun i s _ h => (next_dropOlder base s i).trans h

theorem read_dropOlder (base : UInt32) {i : ℕ} (hi : i < 32) (j : ℕ) : read (dropOlder base r i).slots j =
      if i = j ∧ (read r.slots i).any (older ·.frame_id base) then none else read r.slots j := by
  unfold dropOlder
  rcases ha : read r.slots i with _ | a
  · simp
  · by_cases hold : older a.frame_id base = true
    · simp [hold, read_dropSlot hi]
    · simp [hold]

theorem inFlight_dropOlder (r : Reassembler) (base : UInt32) :
    ((List.range maxInFlight).foldl (dropOlder base) r).InFlight x ↔ r.InFlight x ∧ older x base = false := by
  have hread := foldl_range_rule (n := maxInFlight) (fun k (s : Reassembler) => ∀ j,
    read s.slots j = if j < k ∧ (read r.slots j).any (older ·.frame_id base) then none else read r.slots j)
    (f := dropOlder base) (s := r) (by simp) (by
      intro k s hk hs j
      rw [read_dropOlder base hk, hs, hs]
      by_cases hj : k = j
      · subst hj
        simp
      · have hiff : j < k + 1 ↔ j < k := by omega
        simp [hj, hiff])
  -- The slot that a frame is in is its own, so its turn of the loop tells.
  constructor
  · rintro ⟨a, hslot, rfl⟩
    rw [slot, hread] at hslot
    split_ifs at hslot with hold
    rw [not_and] at hold
    refine ⟨⟨a, hslot, rfl⟩, ?_⟩
    have hnot := hold (slotOf_lt _)
    rw [hslot] at hnot
    simpa using hnot
  · rintro ⟨⟨a, hslot, rfl⟩, hyoung⟩
    refine ⟨a, ?_, rfl⟩
    rw [slot] at hslot
    rw [slot, hread, hslot, if_neg]
    simp [hyoung]

theorem startFrame_some {r₂ : Reassembler} {h : ShardHeader} {len : ℕ} {now_us : UInt64}
    (hstart : r.startFrame h len now_us = some r₂) :
    ¬ h.blocks.toNat * maxBlockData * len < h.frame_len.toNat ∧ ∃ buffers, r₂ =
      ({ r with buffers } : Reassembler).setSlot h.frame_id
        (some (Assembly.start h len now_us (takeBuf r.buffers h.frame_len.toNat).2)) := by
  unfold startFrame at hstart
  dsimp only at hstart
  split_ifs at hstart with hmore
  cases hstart
  exact ⟨hmore, _, rfl⟩

theorem advance_congr {α : Type*} (g : Reassembler → α)
    (hg : ∀ (s : Reassembler) next base stats, g { s with next, base, stats } = g s) (r : Reassembler) (id b : UInt32) :
    g (r.advance id b).1 = g ((List.range maxInFlight).foldl (dropOlder (id - 31)) r) := by
  unfold advance
  dsimp only
  refine (hg _ _ _ _).trans (congrArg g (congrArg (fun f => List.foldl f r (List.range maxInFlight)) ?_))
  funext s i
  unfold dropOlder
  rcases Lib.read s.slots i with _ | a <;> rfl

theorem inFlight_advance (r : Reassembler) (id b : UInt32) :
    (r.advance id b).1.InFlight x ↔ r.InFlight x ∧ older x (id - 31) = false := by
  rw [inFlight_congr (advance_congr slots (fun _ _ _ _ => rfl) r id b), inFlight_dropOlder]

theorem slots_complete (r : Reassembler) (a : Assembly) : ∃ stats, (r.complete a).1.slots =
    ((List.range (min (a.frame_id - r.base.getD a.frame_id).toNat maxInFlight)).foldl
      (fun s i => s.dropId (r.base.getD a.frame_id + UInt32.ofNat i))
      (({ r with stats } : Reassembler).setSlot a.frame_id none)).slots := ⟨_, rfl⟩

theorem inFlight_complete {b : UInt32} (hbase : r.base = some b) (hin : r.InFlight a.frame_id) :
    (r.complete a).1.InFlight x ↔ (r.InFlight x ∧ x ≠ a.frame_id) ∧
      ∀ i < min (a.frame_id - b).toNat maxInFlight, x ≠ b + UInt32.ofNat i := by
  obtain ⟨stats, hslots⟩ := r.slots_complete a
  simp only [hbase, Option.getD_some] at hslots
  rw [inFlight_congr hslots, inFlight_dropIds]
  exact and_congr_left fun _ => inFlight_setSlot_none hin

/-! ## What a part of a push does -/

/-- Frame `x` is in the window that begins at `b`. -/
def Window (o b x : UInt32) : Prop := since o b ≤ since o x ∧ since o x < since o b + 32

structure Moves (o : UInt32) (r r' : Reassembler) (events : List Event) (b b' : UInt32) : Prop where
  base : r'.base = some b'
  up : since o b ≤ since o b'
  bound : since o b' ≤ 2^31
  ids : events.flatMap Event.ids = idsFrom b (b' - b).toNat
  next : r'.next = some b' ∨ b' = b ∧ r'.next = r.next
  window : ∀ x, r'.InFlight x → Window o b' x
  keeps : ∀ x, r.InFlight x → r'.InFlight x ∨ since o x < since o b'

variable {o b b' : UInt32}

theorem Moves.trans {r₁ r₂ : Reassembler} {events₁ events₂ : List Event} {b₁ b₂ : UInt32}
    (h₁ : Moves o r r₁ events₁ b b₁) (h₂ : Moves o r₁ r₂ events₂ b₁ b₂) :
    Moves o r r₂ (events₁ ++ events₂) b b₂ := by
  have hup := h₁.up
  have hup' := h₂.up
  constructor
  case base => exact h₂.base
  case up => exact hup.trans hup'
  case bound => exact h₂.bound
  case ids =>
    rw [List.flatMap_append, h₁.ids, h₂.ids]
    apply idsFrom_append_sub
    rw [toNat_sub_of_since_le hup, toNat_sub_of_since_le hup']
    have := since_lt o b₂
    omega
  case next =>
    rcases h₂.next with hnext | ⟨rfl, hsame⟩
    · exact .inl hnext
    · rw [hsame]
      exact h₁.next
  case window => exact h₂.window
  case keeps =>
    intro x hx
    rcases h₁.keeps x hx with hin | hlt
    · exact h₂.keeps x hin
    · exact .inr (hlt.trans_le hup')

section

variable (hbound : since o b ≤ 2^31) (hwin : ∀ x, r.InFlight x → Window o b x)
include hwin

section

include hbound

theorem Moves.still (hbase : r'.base = some b) (hnext : r'.next = r.next) (hslots : r'.slots = r.slots) :
    Moves o r r' [] b b := by
  constructor
  case base => exact hbase
  case up => exact Nat.le_refl _
  case bound => exact hbound
  case ids => simp [idsFrom]
  case next => exact .inr ⟨rfl, hnext⟩
  case window => exact fun x hx => hwin x ((inFlight_congr hslots).mp hx)
  case keeps => exact fun x hx => .inl ((inFlight_congr hslots).mpr hx)

theorem Moves.put (hbase : r'.base = some b) (hnext : r'.next = r.next) (ha : a.frame_id = id)
    (hslots : r'.slots = (r.setSlot id (some a)).slots) (hid : Window o b id) :
    Moves o r r' [] b b := by
  constructor
  case base => exact hbase
  case up => exact Nat.le_refl _
  case bound => exact hbound
  case ids => simp [idsFrom]
  case next => exact .inr ⟨rfl, hnext⟩
  case window =>
    intro x hx
    rcases inFlight_setSlot_some ha ((inFlight_congr hslots).mp hx) with rfl | hin
    · exact hid
    · exact hwin x hin
  case keeps =>
    intro x hx
    refine .inl ((inFlight_congr hslots).mpr ?_)
    by_cases hsame : slotOf id = slotOf x
    · rw [← eq_of_mod_32 hid (hwin x hx) hsame]
      exact inFlight_setSlot_self ha
    · exact hx.setSlot hsame _

end

theorem advance_moves (hnext : r.next.getD b = b) (hid : since o id < 2^31)
    (hfar : since o b + 32 ≤ since o id) :
    Moves o r (r.advance id b).1 (r.advance id b).2 b (id - 31) := by
  have hup : since o (id - 31) = since o id - 31 := since_sub (n := 31) (by omega)
  have hkept : ∀ x, (r.advance id b).1.InFlight x ↔ r.InFlight x ∧ older x (id - 31) = false := fun _ =>
    r.inFlight_advance id b
  have hold : ∀ x, older x (id - 31) = true ↔ 2^31 ≤ (x - (id - 31)).toNat := by
    intro x
    simp [older, UInt32.lt_iff_toNat_lt]
    omega
  -- The window only moves forward, and not past `id`, so nothing wraps.
  constructor
  case base => rfl
  case up => omega
  case bound => omega
  case ids =>
    have hevents : (r.advance id b).2 =
        [.lost (((List.range maxInFlight).foldl (dropOlder (id - 31)) r).next.getD b) (id - 31 - 1)] := rfl
    rw [next_dropOlders, hnext] at hevents
    have hne : id - 31 ≠ b := by
      intro heq
      rw [heq] at hup
      omega
    rw [hevents, List.flatMap_cons, List.flatMap_nil, List.append_nil, Event.ids, toNat_sub_one_sub hne]
  case next => exact .inl rfl
  case window =>
    intro x hx
    obtain ⟨hin, hyoung⟩ := (hkept x).mp hx
    obtain ⟨hge, hlt⟩ := hwin x hin
    rw [← Bool.not_eq_true, hold] at hyoung
    refine ⟨?_, by omega⟩
    by_contra hbelow
    rw [toNat_sub_of_since_lt (Nat.lt_of_not_le hbelow)] at hyoung
    omega
  case keeps =>
    intro x hx
    obtain ⟨hge, hlt⟩ := hwin x hx
    by_cases hbelow : since o x < since o (id - 31)
    · exact .inr hbelow
    · refine .inl ((hkept x).mpr ⟨hx, ?_⟩)
      rw [← Bool.not_eq_true, hold, toNat_sub_of_since_le (Nat.le_of_not_lt hbelow)]
      omega

theorem complete_moves (hbase : r.base = some b) (hnext : r.next.getD a.frame_id = b)
    (hin : r.InFlight a.frame_id) (hid : since o a.frame_id < 2^31) :
    Moves o r (r.complete a).1 (r.complete a).2 b (a.frame_id + 1) := by
  obtain ⟨hge, hlt⟩ := hwin _ hin
  have hone : since o (a.frame_id + 1) = since o a.frame_id + 1 := since_add (n := 1) (by omega)
  have hkept : ∀ x, (r.complete a).1.InFlight x ↔ (r.InFlight x ∧ x ≠ a.frame_id) ∧
      ∀ i < min (a.frame_id - b).toNat maxInFlight, x ≠ b + UInt32.ofNat i := fun _ => inFlight_complete hbase hin
  constructor
  case base => rfl
  case up => omega
  case bound => omega
  case ids =>
    have hevents : (r.complete a).2 =
        (if a.frame_id ≠ b then [.lost b (a.frame_id - 1)] else []) ++ [.frame a.inFrame] := by
      rw [← hnext]
      rfl
    have hthis : idsFrom a.frame_id (a.frame_id + 1 - a.frame_id).toNat = [a.frame_id] := by
      rw [toNat_sub_of_since_le (o := o) (by omega), hone, Nat.add_sub_cancel_left, idsFrom_one]
    rw [hevents, List.flatMap_append]
    have hbelow : (if a.frame_id ≠ b then [Event.lost b (a.frame_id - 1)] else []).flatMap Event.ids =
        idsFrom b (a.frame_id - b).toNat := by
      split_ifs with hne
      · rw [List.flatMap_cons, List.flatMap_nil, List.append_nil, Event.ids, toNat_sub_one_sub hne]
      · rw [not_not.mp hne]
        simp [idsFrom]
    -- The frames below, then the frame.
    calc _ = idsFrom b (a.frame_id - b).toNat ++ [a.frame_id] := by rw [hbelow]; rfl
      _ = idsFrom b (a.frame_id - b).toNat ++ idsFrom a.frame_id (a.frame_id + 1 - a.frame_id).toNat := by
        rw [hthis]
      _ = idsFrom b (a.frame_id + 1 - b).toNat := by
        apply idsFrom_append_sub
        rw [toNat_sub_of_since_le hge, toNat_sub_of_since_le (o := o) (by omega)]
        omega
  case next => exact .inl rfl
  case window =>
    intro x hx
    obtain ⟨⟨hx, hne⟩, hout⟩ := (hkept x).mp hx
    obtain ⟨hge', hlt'⟩ := hwin x hx
    have hne' : since o x ≠ since o a.frame_id := fun h => hne (since_inj h)
    refine ⟨?_, by omega⟩
    by_contra hbelow
    -- It would have been given up on, being between the base and the frame.
    have hi : since o x - since o b < min (a.frame_id - b).toNat maxInFlight := by
      rw [toNat_sub_of_since_le hge, maxInFlight]
      omega
    apply hout _ hi
    apply since_inj (o := o)
    rw [since_add (by omega)]
    omega
  case keeps =>
    intro x hx
    obtain ⟨hge', hlt'⟩ := hwin x hx
    by_cases hbelow : since o x < since o (a.frame_id + 1)
    · exact .inr hbelow
    · refine .inl ((hkept x).mpr ⟨⟨hx, ?_⟩, ?_⟩)
      · rintro rfl
        omega
      · rintro i hi rfl
        rw [toNat_sub_of_since_le hge, maxInFlight] at hi
        rw [since_add (by omega)] at hbelow
        omega

theorem pushShard_moves {cpu : Fec.Cpu} {h : ShardHeader} {payload : List UInt8} (hbound : since o b ≤ 2^31)
    (hbase : r.base = some b) (hslot : r.slot h.frame_id = some a) (ha : a.frame_id = h.frame_id)
    (hid : since o h.frame_id < 2^31)
    (hfinishes : a.Finishes cpu r.stage r.pool h payload → r.next.getD h.frame_id = b) :
    ∃ b', Moves o r (r.pushShard cpu h payload).1 (r.pushShard cpu h payload).2 b b' := by
  have hin : Window o b h.frame_id := hwin _ ⟨a, hslot, ha⟩
  have hsame : Moves o r r [] b b := Moves.still hbound hwin hbase rfl rfl
  unfold pushShard
  rw [hslot]
  dsimp only
  split_ifs with hfits
  · exact ⟨b, hsame⟩
  · rcases harrival : a.push cpu r.stage r.pool h payload with _ | ⟨a', pool, recovered⟩ |
      ⟨a', pool, recovered⟩
    · exact ⟨b, hsame⟩
    · have ha' : a'.frame_id = h.frame_id :=
        (Assembly.frame_id_push (by rw [harrival, Arrival.assembly])).trans ha
      exact ⟨b, Moves.put hbound hwin hbase rfl ha' rfl hin⟩
    · have ha' : a'.frame_id = h.frame_id :=
        (Assembly.frame_id_push (by rw [harrival, Arrival.assembly])).trans ha
      rw [not_or, not_not, not_not] at hfits
      have hfirst := hfinishes ⟨hfits.1, hfits.2, a', pool, recovered, harrival⟩
      dsimp only
      obtain ⟨r₁, hr₁⟩ : ∃ r₁, r₁ = ({ r with
          pool
          stats := { r.stats with recovered := r.stats.recovered + UInt32.ofNat recovered } } :
            Reassembler).setSlot h.frame_id (some a') := ⟨_, rfl⟩
      have hput : Moves o r r₁ [] b b := by
        rw [hr₁]
        exact Moves.put hbound hwin hbase rfl ha' rfl hin
      have hin' : r₁.InFlight a'.frame_id := by
        rw [hr₁, ha']
        exact inFlight_setSlot_self ha'
      have hnext' : r₁.next.getD a'.frame_id = b := by
        rw [hr₁, ha']
        exact hfirst
      rw [← hr₁]
      exact ⟨_, hput.trans (complete_moves hput.window hput.base hnext' hin' (by rw [ha']; exact hid))⟩

theorem pushFrame_moves {cpu : Fec.Cpu} {h : ShardHeader} {payload : List UInt8} {now_us : UInt64}
    (hbound : since o b ≤ 2^31) (hbase : r.base.getD h.frame_id = b)
    (hfresh : r.base = none → ∀ x, ¬ r.InFlight x) (hnext : r.next = some b ∨ r.next = none)
    (hid : since o h.frame_id < 2^31) (hyoung : since o b ≤ since o h.frame_id)
    (hfirst : r.next = none → h.frame_id ≠ b → h.frame_id - b < 32 →
      ∀ a, r.assemblyFor h payload.length now_us = some a → ¬ a.Finishes cpu r.stage r.pool h payload) :
    ∃ b', Moves o r (r.pushFrame cpu h payload now_us).1 (r.pushFrame cpu h payload now_us).2 b b' := by
  have hnear : h.frame_id - b < 32 ↔ since o h.frame_id < since o b + 32 := by
    rw [UInt32.lt_iff_toNat_lt, toNat_sub_of_since_le hyoung]
    change _ < 32 ↔ _
    omega
  by_cases hflight : (r.slot h.frame_id).any (·.frame_id == h.frame_id) = true
  · -- The frame is in flight already.
    obtain ⟨a, hslot, ha⟩ := Option.any_eq_true _ _ |>.mp hflight
    rw [beq_iff_eq] at ha
    have hbase' : r.base = some b := by
      rcases hb : r.base with _ | b₀
      · exact absurd ⟨a, hslot, ha⟩ (hfresh hb _)
      · rw [hb] at hbase
        exact congrArg some hbase
    have hpush : r.pushFrame cpu h payload now_us = r.pushShard cpu h payload := by
      rw [pushFrame, if_pos hflight]
    rw [hpush]
    refine pushShard_moves hwin hbound hbase' hslot ha hid fun hfinishes => ?_
    rcases hnext with hsome | hnone
    · rw [hsome]
      rfl
    · rw [hnone]
      by_contra hne
      refine hfirst hnone hne (hnear.mpr (hwin _ ⟨a, hslot, ha⟩).2) a ?_ hfinishes
      rw [assemblyFor, if_pos hflight, hslot]
  · -- The frame is started, after the window has moved up to it.
    have hgo : ∀ r₁ events b₁, r.makeRoom h.frame_id = (r₁, events) → Moves o r r₁ events b b₁ →
        Window o b₁ h.frame_id →
        (¬ h.blocks.toNat * maxBlockData * payload.length < h.frame_len.toNat →
          (Assembly.start h payload.length now_us (takeBuf r₁.buffers h.frame_len.toNat).2).Finishes cpu
            r₁.stage r₁.pool h payload → r₁.next.getD h.frame_id = b₁) →
        ∃ b', Moves o r (r.pushFrame cpu h payload now_us).1 (r.pushFrame cpu h payload now_us).2 b b' := by
      intro r₁ events b₁ hmade hmoves hin hfinishes
      unfold pushFrame
      rw [if_neg hflight, hmade]
      dsimp only
      rcases hstart : r₁.startFrame h payload.length now_us with _ | r₂
      · exact ⟨b₁, hmoves⟩
      · obtain ⟨hroom, buffers, rfl⟩ := startFrame_some hstart
        obtain ⟨a, ha⟩ : ∃ a, a =
            Assembly.start h payload.length now_us (takeBuf r₁.buffers h.frame_len.toNat).2 := ⟨_, rfl⟩
        rw [← ha] at hfinishes ⊢
        have hid' : a.frame_id = h.frame_id := by
          rw [ha]
          rfl
        have hput : Moves o r₁ (({ r₁ with buffers } : Reassembler).setSlot h.frame_id (some a)) []
            b₁ b₁ :=
          Moves.put hmoves.bound hmoves.window hmoves.base rfl hid' rfl hin
        obtain ⟨b', hshard⟩ := pushShard_moves hput.window hput.bound hput.base
          (slot_setSlot_self _ _ rfl) hid' hid (hfinishes hroom)
        exact ⟨b', hmoves.trans (hput.trans hshard)⟩
    have hgetD : r.next.getD b = b := by
      rcases hnext with hsome | hnone
      · rw [hsome]
        rfl
      · rw [hnone]
        rfl
    by_cases hfar : 32 ≤ h.frame_id - b
    · have hfar' : since o b + 32 ≤ since o h.frame_id := by
        rw [← Nat.not_lt, ← hnear, UInt32.not_lt]
        exact hfar
      have hadvance := advance_moves (r := { r with base := some b }) hwin hgetD hid hfar'
      have hup : since o (h.frame_id - 31) = since o h.frame_id - 31 := since_sub (n := 31) (by omega)
      refine hgo _ _ _ (by rw [makeRoom, hbase]; exact if_pos hfar) ⟨hadvance.base, hadvance.up,
        hadvance.bound, hadvance.ids, .inl rfl, hadvance.window, hadvance.keeps⟩ ⟨by omega, by omega⟩ ?_
      exact fun _ _ => rfl
    · have hnear' : h.frame_id - b < 32 := UInt32.not_le.mp hfar
      refine hgo { r with base := some b } [] b (by rw [makeRoom, hbase]; exact if_neg hfar)
        (Moves.still hbound hwin rfl rfl rfl) ⟨hyoung, hnear.mp hnear'⟩ ?_
      intro hroom hfinishes
      rcases hnext with hsome | hnone
      · exact (congrArg (·.getD h.frame_id) hsome).trans rfl
      · refine (congrArg (·.getD h.frame_id) hnone).trans ?_
        by_contra hne
        refine hfirst hnone hne hnear' _ ?_ hfinishes
        rw [assemblyFor, if_neg hflight, if_neg hroom]

end

theorem finishTrain_eq (r : Reassembler) : ∃ stats, r.finishTrain = { r with train := none, stats } := by
  unfold finishTrain
  split
  next h => exact ⟨r.stats, by rw [← h]⟩
  next t h =>
    split_ifs
    · exact ⟨_, rfl⟩
    · exact ⟨_, rfl⟩

theorem timeTrain_eq (r : Reassembler) (h : ShardHeader) (len : ℕ) (now_us : UInt64) :
    ∃ stats floor train, r.timeTrain h len now_us = { r with stats, floor, train } := by
  obtain ⟨stats, hfinish⟩ := r.finishTrain_eq
  unfold timeTrain
  dsimp only
  rw [hfinish]
  split_ifs
  · split
    · split_ifs
      · exact ⟨_, _, _, rfl⟩
      · exact ⟨_, _, _, rfl⟩
    · exact ⟨_, _, _, rfl⟩
  · split
    · split_ifs
      · exact ⟨_, _, _, rfl⟩
      · exact ⟨_, _, _, rfl⟩
    · exact ⟨_, _, _, rfl⟩

theorem push_of_admitted (cpu : Fec.Cpu) (r : Reassembler) {body : List UInt8} {h : ShardHeader}
    {payload : List UInt8} (hadmitted : admitted body = some (h, payload)) (now_us : UInt64) :
    ∃ stats floor train, r.push cpu body now_us =
      if r.base.any (older h.frame_id) then ({ r with stats, floor, train }, [])
      else ({ r with stats := { stats with shards := stats.shards + 1 }, floor, train } :
        Reassembler).pushFrame cpu h payload now_us := by
  obtain ⟨stats, floor, train, htrain⟩ := timeTrain_eq
    { r with stats := { r.stats with bytes := r.stats.bytes + UInt64.ofNat body.length } } h body.length now_us
  refine ⟨stats, floor, train, ?_⟩
  unfold push
  rw [hadmitted]
  dsimp only
  rw [htrain]

end Reassembler

/-! ## Runs -/

structure Account where
  r : Reassembler
  events : List Event
  first : Option UInt32

namespace Account

def start (buffers : List Buf) (stage : Bool) : Account := ⟨.new buffers stage, [], none⟩

/-- A packet body comes, at some time. -/
def push (cpu : Fec.Cpu) (s : Account) (packet : List UInt8 × UInt64) : Account :=
  let out := s.r.push cpu packet.1 packet.2
  ⟨out.1, s.events ++ out.2, s.first.or ((Reassembler.admitted packet.1).map (·.1.frame_id))⟩

def ids (s : Account) : List UInt32 := s.events.flatMap Event.ids

/-- The events tile the line of ids from `f` up to the base, `b`. -/
structure Tiles (o f b : UInt32) (s : Account) : Prop where
  first : s.first = some f
  base : s.r.base = some b
  up : since o f ≤ since o b
  bound : since o b ≤ 2^31
  ids : s.ids = idsFrom f (b - f).toNat
  next : s.r.next = some b ∨ s.r.next = none ∧ b = f
  window : ∀ x, s.r.InFlight x → Reassembler.Window o b x

/-- Nothing has been admitted. -/
structure Fresh (s : Account) : Prop where
  first : s.first = none
  base : s.r.base = none
  events : s.events = []
  next : s.r.next = none
  empty : ∀ x, ¬ s.r.InFlight x

def Inv (o : UInt32) (s : Account) : Prop := s.Fresh ∨ ∃ f b, s.Tiles o f b

/-- The packet's frame is less than half the range past the origin. -/
def InRange (o : UInt32) (packet : List UInt8 × UInt64) : Prop :=
  ∀ h payload, Reassembler.admitted packet.1 = some (h, payload) → since o h.frame_id < 2^31

theorem fresh_start (buffers : List Buf) (stage : Bool) : (start buffers stage).Fresh := by
  constructor
  case first => rfl
  case base => rfl
  case events => rfl
  case next => rfl
  case empty =>
    rintro x ⟨a, hslot, -⟩
    have hnone : (Reassembler.new buffers stage).slot x = none := by
      rw [Reassembler.slot, Reassembler.new, Lib.read]
      simp [Reassembler.slotOf_lt]
    cases hnone.symm.trans hslot

variable {cpu : Fec.Cpu} {o : UInt32} {s : Account} {packet : List UInt8 × UInt64}

theorem Tiles.moves {f b b' : UInt32} {s' : Account} {events : List Event} (hfirst : s'.first = some f)
    (hup : since o f ≤ since o b) (hids : s.ids = idsFrom f (b - f).toNat)
    (hnext : s.r.next = some b ∨ s.r.next = none ∧ b = f) (hevents : s'.events = s.events ++ events)
    (hmoves : Reassembler.Moves o s.r s'.r events b b') : s'.Tiles o f b' := by
  constructor
  case first => exact hfirst
  case base => exact hmoves.base
  case up => exact hup.trans hmoves.up
  case bound => exact hmoves.bound
  case ids =>
    rw [Account.ids, hevents, List.flatMap_append, ← Account.ids, hids, hmoves.ids]
    apply idsFrom_append_sub
    rw [toNat_sub_of_since_le hup, toNat_sub_of_since_le hmoves.up]
    have := since_lt o b'
    have := hmoves.up
    omega
  case next =>
    rcases hmoves.next with hsome | ⟨rfl, hsame⟩
    · exact .inl hsome
    · rw [hsame]
      exact hnext
  case window => exact hmoves.window

theorem Inv.push (hinv : s.Inv o) (hrange : InRange o packet) (hok : ¬ s.r.Overtakes cpu packet) :
    (s.push cpu packet).Inv o ∧
      ∀ x, s.r.InFlight x → (s.push cpu packet).r.InFlight x ∨ x ∈ (s.push cpu packet).ids := by
  rcases hadmitted : Reassembler.admitted packet.1 with _ | ⟨h, payload⟩
  · have hsame : s.push cpu packet = s := by
      rw [Account.push, Reassembler.push, hadmitted]
      simp
    rw [hsame]
    exact ⟨hinv, fun x hx => .inl hx⟩
  have hid := hrange h payload hadmitted
  obtain ⟨stats, floor, train, hpush⟩ := s.r.push_of_admitted cpu hadmitted packet.2
  -- Where the window begins, and what was said of the frames below it.
  obtain ⟨f, b, hfirst, hbase, hup, hbound, hids, hnext, hwin⟩ : ∃ f b,
      (s.push cpu packet).first = some f ∧ s.r.base.getD h.frame_id = b ∧ since o f ≤ since o b ∧
        since o b ≤ 2^31 ∧ s.ids = idsFrom f (b - f).toNat ∧
        (s.r.next = some b ∨ s.r.next = none ∧ b = f) ∧
        ∀ x, s.r.InFlight x → Reassembler.Window o b x := by
    rcases hinv with hfresh | ⟨f, b, htiles⟩
    · refine ⟨h.frame_id, h.frame_id, ?_, ?_, Nat.le_refl _, hid.le, ?_, .inr ⟨hfresh.next, rfl⟩,
        fun x hx => absurd hx (hfresh.empty x)⟩
      · rw [Account.push, hfresh.first, hadmitted]
        rfl
      · rw [hfresh.base]
        rfl
      · rw [Account.ids, hfresh.events]
        simp [idsFrom]
    · refine ⟨f, b, ?_, ?_, htiles.up, htiles.bound, htiles.ids, htiles.next, htiles.window⟩
      · rw [Account.push, htiles.first]
        rfl
      · rw [htiles.base]
        rfl
  obtain ⟨b', hmoves⟩ : ∃ b', Reassembler.Moves o s.r (s.push cpu packet).r
      (s.r.push cpu packet.1 packet.2).2 b b' := by
    change ∃ b', Reassembler.Moves o s.r (s.r.push cpu packet.1 packet.2).1 _ b b'
    rw [hpush]
    rcases Option.eq_none_or_eq_some s.r.base with hb | ⟨b₀, hb⟩
    · -- The frame is the first.
      rw [hb] at hbase
      obtain rfl : h.frame_id = b := hbase
      have hempty : ∀ x, ¬ s.r.InFlight x := by
        rcases hinv with hfresh | ⟨f, b, htiles⟩
        · exact hfresh.empty
        · cases htiles.base.symm.trans hb
      rw [if_neg (by rw [hb]; simp)]
      obtain ⟨b', hmoves⟩ := Reassembler.pushFrame_moves
        (r := { s.r with stats := { stats with shards := stats.shards + 1 }, floor, train })
        hwin hbound (by rw [hb]; rfl) (fun _ => hempty) (hnext.imp_right And.left) hid
        (Nat.le_refl _) (fun _ hne => absurd rfl hne)
      exact ⟨b', hmoves.base, hmoves.up, hmoves.bound, hmoves.ids, hmoves.next, hmoves.window, hmoves.keeps⟩
    · rw [hb] at hbase
      obtain rfl : b₀ = b := hbase
      by_cases hold : s.r.base.any (Reassembler.older h.frame_id) = true
      · rw [if_pos hold]
        exact ⟨b₀, Reassembler.Moves.still hbound hwin hb rfl rfl⟩
      · rw [if_neg hold]
        have hyoung : since o b₀ ≤ since o h.frame_id := by
          by_contra hlt
          apply hold
          have hfar := toNat_sub_of_since_lt (Nat.lt_of_not_le hlt)
          rw [hb, Option.any_some, Reassembler.older, decide_eq_true_eq, UInt32.lt_iff_toNat_lt, hfar]
          change 2147483647 < _
          omega
        obtain ⟨b', hmoves⟩ := Reassembler.pushFrame_moves
          (r := { s.r with stats := { stats with shards := stats.shards + 1 }, floor, train })
          hwin hbound (by rw [hb]; rfl) (fun hnone => absurd (hb.symm.trans hnone) (Option.some_ne_none b₀))
          (hnext.imp_right And.left) hid hyoung
          (fun hnone hne hnear a ha hfinishes =>
            hok ⟨hnone, b₀, h, payload, hb, hadmitted, hne, hnear, a, ha, hfinishes⟩)
        exact ⟨b', hmoves.base, hmoves.up, hmoves.bound, hmoves.ids, hmoves.next, hmoves.window, hmoves.keeps⟩
  have htiles := Tiles.moves hfirst hup hids hnext rfl hmoves
  refine ⟨.inr ⟨f, b', htiles⟩, fun x hx => (hmoves.keeps x hx).imp_right fun hlt => ?_⟩
  rw [htiles.ids]
  exact mem_idsFrom (hup.trans (hwin x hx).1) hlt

theorem ids_push (cpu : Fec.Cpu) (s : Account) (packet : List UInt8 × UInt64) {x : UInt32}
    (hx : x ∈ s.ids) : x ∈ (s.push cpu packet).ids := by
  rw [Account.ids, Account.push, List.flatMap_append, List.mem_append]
  exact .inl hx

variable {packets later : List (List UInt8 × UInt64)}

theorem Inv.run (hinv : s.Inv o) (hrange : ∀ packet ∈ packets, InRange o packet)
    (halong : Along (Account.push cpu) (fun s packet => ¬ s.r.Overtakes cpu packet) s packets) :
    let s' := Lib.run (Account.push cpu) s packets
    s'.Inv o ∧ ∀ x, s.r.InFlight x ∨ x ∈ s.ids → s'.r.InFlight x ∨ x ∈ s'.ids := by
  induction packets generalizing s with
  | nil => exact ⟨hinv, fun x hx => hx⟩
  | cons packet packets ih =>
    obtain ⟨hinv', hkeeps⟩ := hinv.push (hrange packet List.mem_cons_self) halong.1
    obtain ⟨hinv'', hkeeps'⟩ := ih hinv' (fun p hp => hrange p (List.mem_cons_of_mem _ hp)) halong.2
    refine ⟨hinv'', fun x hx => hkeeps' x ?_⟩
    rcases hx with hin | hsaid
    · exact hkeeps x hin
    · exact .inr (ids_push cpu s packet hsaid)

end Account

/-- In a run of any reassembler's, in which ids stay less than half the range past some origin and no frame
overtakes the first: the events speak, in order and once each, of the frames from the first on up to the
base, and a frame in flight at any moment is in flight still or they speak of it. -/
theorem frames_accounted (cpu : Fec.Cpu) (buffers : List Buf) (stage : Bool) {o : UInt32}
    {packets later : List (List UInt8 × UInt64)}
    (hrange : ∀ packet ∈ packets ++ later, Account.InRange o packet)
    (halong : Along (Account.push cpu) (fun s packet => ¬ s.r.Overtakes cpu packet)
      (.start buffers stage) (packets ++ later)) :
    let s := run (Account.push cpu) (.start buffers stage) packets
    let s' := run (Account.push cpu) (.start buffers stage) (packets ++ later)
    (∀ f b, s'.first = some f → s'.r.base = some b → s'.ids = idsFrom f (b - f).toNat ∧ s'.ids.Nodup) ∧
      (s'.first = none ↔ s'.r.base = none) ∧ (s'.first = none → s'.events = []) ∧
      ∀ id, s.r.InFlight id → s'.r.InFlight id ∨ id ∈ s'.ids := by
  have hstart : (Account.start buffers stage).Inv o := .inl (Account.fresh_start buffers stage)
  obtain ⟨halong₁, halong₂⟩ := along_append.mp halong
  obtain ⟨hinv, -⟩ := hstart.run (fun p hp => hrange p (List.mem_append_left _ hp)) halong₁
  obtain ⟨hinv', hkeeps⟩ := hinv.run (fun p hp => hrange p (List.mem_append_right _ hp)) halong₂
  dsimp only
  rw [run_append]
  refine ⟨?_, ?_, ?_, fun id hid => hkeeps id (.inl hid)⟩
  · intro f b hf hb
    rcases hinv' with hfresh | ⟨f', b', htiles⟩
    · cases hfresh.first.symm.trans hf
    · cases htiles.first.symm.trans hf
      cases htiles.base.symm.trans hb
      rw [htiles.ids]
      exact ⟨rfl, nodup_idsFrom f (b - f).toNat_lt.le⟩
  · rcases hinv' with hfresh | ⟨f', b', htiles⟩
    · rw [hfresh.first, hfresh.base]
    · rw [htiles.first, htiles.base]
      exact iff_of_false (Option.some_ne_none _) (Option.some_ne_none _)
  · intro hnone
    rcases hinv' with hfresh | ⟨f', b', htiles⟩
    · exact hfresh.events
    · cases htiles.first.symm.trans hnone

def oneByte (id : UInt32) (k i : UInt8) : List UInt8 :=
  ShardHeader.write
    { frame_id := id, block := 0, blocks := 1, shard := i, k, m := 0, flags := 0
      frame_len := k.toUInt32, capture_us := 0, encode_us := 0 } ++ [7]

/-- Frame 10, and frame 12 without frame 11 before it. -/
theorem frames_accounted_gap :
    let s := run (Account.push .scalar) (.start [] false) [(oneByte 10 1 0, 0), (oneByte 12 1 0, 1)]
    s.ids = [10, 11, 12] ∧ s.ids.Nodup := by
  have hadmitted : ∀ packet ∈ [(oneByte 10 1 0, (0 : UInt64)), (oneByte 12 1 0, 1)],
      ∀ x ∈ Reassembler.admitted packet.1, since 10 x.1.frame_id < 2^31 := by decide +kernel
  have hdelivered : ((Account.start [] false).push .scalar (oneByte 10 1 0, 0)).r.next = some 11 := by
    decide +kernel
  have hfirst : ¬ (Account.start [] false).r.Overtakes .scalar (oneByte 10 1 0, 0) := by
    rintro ⟨-, base, -, -, hbase, -⟩
    cases hbase
  have hsecond : ¬ ((Account.start [] false).push .scalar (oneByte 10 1 0, 0)).r.Overtakes .scalar
      (oneByte 12 1 0, 1) := by
    rintro ⟨hnone, -⟩
    cases hdelivered.symm.trans hnone
  obtain ⟨htiles, -⟩ := @frames_accounted .scalar [] false 10
    [(oneByte 10 1 0, 0), (oneByte 12 1 0, 1)] []
    (fun packet hp h payload hx => hadmitted packet hp (h, payload) hx)
    (And.intro hfirst (And.intro hsecond trivial))
  obtain ⟨hids, hnodup⟩ := htiles 10 13 (by decide +kernel) (by decide +kernel)
  refine ⟨hids.trans ?_, hnodup⟩
  decide

/-- Half of frame 10, which sets the base, and frame 11, whole: nothing says that frame 10 is lost, though
the base is past it. -/
theorem overtaken_unreported :
    let s := run (Account.push .scalar) (.start [] false) [(oneByte 10 2 0, 0), (oneByte 11 1 0, 1)]
    s.first = some 10 ∧ s.r.base = some 12 ∧ s.ids = [11] ∧ idsFrom 10 (12 - 10 : UInt32).toNat = [10, 11] := by
  decide +kernel

end Rdpio.Hyper.Video

/-! ## Events one behind the other, over any packets -/

namespace Rdpio.Hyper.Video

namespace Event

def nudge : Event := .lost 1 0

def first : Event → UInt32
  | .frame f => f.frame_id
  | .lost first _ => first

def after (next : Option UInt32) (e : Event) : Option UInt32 :=
  if e = nudge then next
  else
    match e with
    | .frame f => some (f.frame_id + 1)
    | .lost _ last => some (last + 1)

end Event

def Follow : Option UInt32 → List Event → Option UInt32 → Prop
  | next, [], last => ∀ n, next = some n → last = some n
  | next, e :: events, last => (e = .nudge ∨ ∀ n, next = some n → e.first = n) ∧ Follow (e.after next) events last

section
variable {next mid last : Option UInt32} {events more : List Event}

theorem Follow.of_some (h : Follow next events last) : Follow none events last := by
  induction events generalizing next with
  | nil =>
    intro n hn
    cases hn
  | cons e events ih =>
    have hfirst : ∀ n, none = some n → e.first = n := fun n hn => (Option.some_ne_none n hn.symm).elim
    refine ⟨.inr hfirst, ?_⟩
    by_cases hnudge : e = .nudge
    · rw [hnudge]
      exact ih h.2
    · have hsame : e.after none = e.after next := by
        unfold Event.after
        rw [if_neg hnudge, if_neg hnudge]
      rw [hsame]
      exact h.2

theorem Follow.append (h : Follow next events mid) (hmore : Follow mid more last) :
    Follow next (events ++ more) last := by
  induction events generalizing next with
  | nil =>
    cases next with
    | none => exact hmore.of_some
    | some n =>
      have hmid : mid = some n := h n rfl
      rw [hmid] at hmore
      exact hmore
  | cons e events ih => exact ⟨h.1, ih h.2⟩

theorem follow_lost {first n : UInt32} (hfirst : ∀ m, next = some m → first = m) :
    Follow next [.lost first (n - 1)] (some n) := by
  refine ⟨.inr hfirst, fun m hm => ?_⟩
  unfold Event.after at hm
  split_ifs at hm with hnudge
  · -- a loss of no frame
    obtain ⟨hone, hzero⟩ : first = 1 ∧ n - 1 = 0 := by simpa [Event.nudge] using hnudge
    have hn : n = 1 := by
      rw [← UInt32.sub_add_cancel n 1, hzero]
      rfl
    rw [hn, ← hone, hfirst m hm]
  · rw [← hm]
    dsimp only
    rw [UInt32.sub_add_cancel]

theorem follow_frame {f : InFrame} (hfirst : ∀ m, next = some m → f.frame_id = m) :
    Follow next [.frame f] (some (f.frame_id + 1)) := by
  refine ⟨.inr hfirst, fun m hm => ?_⟩
  unfold Event.after at hm
  rw [if_neg (by simp [Event.nudge])] at hm
  exact hm

end

namespace Reassembler

variable {cpu : Fec.Cpu}

theorem advance_follow (r : Reassembler) (id base : UInt32) :
    Follow r.next (r.advance id base).2 (r.advance id base).1.next := by
  have hevents : (r.advance id base).2 =
      [.lost (((List.range maxInFlight).foldl (dropOlder (id - 31)) r).next.getD base) (id - 31 - 1)] := rfl
  have hnext : (r.advance id base).1.next = some (id - 31) := rfl
  rw [hevents, hnext, next_dropOlders]
  refine follow_lost fun m hm => ?_
  rw [hm, Option.getD_some]

theorem complete_follow (r : Reassembler) (a : Assembly) : Follow r.next (r.complete a).2 (r.complete a).1.next := by
  have hnext : (r.complete a).1.next = some (a.frame_id + 1) := rfl
  rw [hnext]
  by_cases hgap : a.frame_id ≠ r.next.getD a.frame_id
  · have hevents : (r.complete a).2 = [.lost (r.next.getD a.frame_id) (a.frame_id - 1)] ++ [.frame a.inFrame] := by
      unfold complete
      dsimp only
      rw [if_pos hgap]
    rw [hevents]
    refine Follow.append (follow_lost fun m hm => ?_) (follow_frame fun m hm => ?_)
    · rw [hm, Option.getD_some]
    · exact Option.some.inj hm
  · have hevents : (r.complete a).2 = [.frame a.inFrame] := by
      unfold complete
      dsimp only
      rw [if_neg hgap]
      rfl
    rw [hevents]
    refine follow_frame fun m hm => ?_
    rw [hm, Option.getD_some, not_not] at hgap
    exact hgap

theorem makeRoom_follow (r : Reassembler) (id : UInt32) : Follow r.next (r.makeRoom id).2 (r.makeRoom id).1.next := by
  unfold makeRoom
  dsimp only
  split_ifs
  · exact advance_follow { r with base := some (r.base.getD id) } id (r.base.getD id)
  · exact fun _ hn => hn

theorem pushShard_follow (r : Reassembler) (h : ShardHeader) (payload : List UInt8) :
    Follow r.next (r.pushShard cpu h payload).2 (r.pushShard cpu h payload).1.next := by
  unfold pushShard
  split
  · exact fun _ hn => hn
  · split_ifs
    · exact fun _ hn => hn
    · dsimp only
      split
      · exact fun _ hn => hn
      · exact fun _ hn => hn
      · exact complete_follow _ _

theorem pushFrame_follow (r : Reassembler) (h : ShardHeader) (payload : List UInt8) (now_us : UInt64) :
    Follow r.next (r.pushFrame cpu h payload now_us).2 (r.pushFrame cpu h payload now_us).1.next := by
  unfold pushFrame
  split_ifs
  · exact pushShard_follow r h payload
  · have hroom := makeRoom_follow r h.frame_id
    dsimp only
    cases hstart : (r.makeRoom h.frame_id).1.startFrame h payload.length now_us with
    | none => exact hroom
    | some r' =>
      have hnext : r'.next = (r.makeRoom h.frame_id).1.next := by
        unfold startFrame at hstart
        dsimp only at hstart
        split_ifs at hstart
        rw [← Option.some.inj hstart]
        rfl
      refine hroom.append ?_
      rw [← hnext]
      exact pushShard_follow r' h payload

theorem push_follow (r : Reassembler) (body : List UInt8) (now_us : UInt64) :
    Follow r.next (r.push cpu body now_us).2 (r.push cpu body now_us).1.next := by
  cases hadmitted : admitted body with
  | none =>
    unfold push
    rw [hadmitted]
    exact fun _ hn => hn
  | some found =>
    obtain ⟨h, payload⟩ := found
    obtain ⟨stats, floor, train, hpush⟩ := push_of_admitted cpu r hadmitted now_us
    rw [hpush]
    split_ifs
    · exact fun _ hn => hn
    · have hsame : ∀ r' : Reassembler, r'.next = r.next →
          Follow r.next (r'.pushFrame cpu h payload now_us).2 (r'.pushFrame cpu h payload now_us).1.next := by
        intro r' hr'
        rw [← hr']
        exact pushFrame_follow r' h payload now_us
      exact hsame _ rfl

end Reassembler

end Rdpio.Hyper.Video
