import Rdpio.Hyper.VideoInRange

/-!
# Any bodies at all

The reassembler is given bodies with any headers.
-/

namespace Rdpio.Hyper.Video

open Lib

def Event.frame? : Event → Option InFrame
  | .frame f => some f
  | .lost _ _ => none

namespace Reassembler

variable {r r' : Reassembler} {announced : UInt32 → ℕ} {id b : UInt32} {a : Assembly}

/-- Frames are within 32 ids of the base, each in its slot, with the length that was announced. -/
structure Sound (announced : UInt32 → ℕ) (r : Reassembler) : Prop where
  slot : ∀ z a, r.slot z = some a → slotOf a.frame_id = slotOf z
  window : ∀ z a, r.slot z = some a → ∃ b, r.base = some b ∧ (a.frame_id - b).toNat < 32
  frame : ∀ z a, r.slot z = some a → a.Sound r.stage
  length : ∀ z a, r.slot z = some a → a.frame_len = announced a.frame_id

theorem slotChecked_eq (r : Reassembler) (id : UInt32) : r.slotChecked id = some (r.slot id) := by
  have hlt := slotOf_lt id
  have hget : r.slots[slotOf id]? = some r.slots[slotOf id] := Vector.getElem?_eq_getElem hlt
  rw [slotChecked, Reassembler.slot, Lib.read, hget]
  rfl

theorem setSlotChecked_eq (r : Reassembler) (id : UInt32) (a : Option Assembly) :
    r.setSlotChecked id a = some (r.setSlot id a) := if_pos (slotOf_lt id)

theorem dropIdChecked_eq (r : Reassembler) (id : UInt32) : r.dropIdChecked id = some (r.dropId id) := by
  unfold dropIdChecked dropId
  rw [slotChecked_eq]
  rfl

theorem completeChecked_eq (hslot : r.slot a.frame_id = some a) :
    r.completeChecked a.frame_id = some (r.complete a) := by
  have hloop : ∀ (s : Reassembler) base n, (List.range n).foldlM
      (fun s i => s.dropIdChecked (base + UInt32.ofNat i)) s =
        some ((List.range n).foldl (fun s i => s.dropId (base + UInt32.ofNat i)) s) := fun s base n =>
    (foldlM_range_eq (fun _ _ => True) trivial fun i s _ _ => ⟨s.dropIdChecked_eq _, trivial⟩).1
  unfold completeChecked
  rw [slotChecked_eq, hslot]
  simp only [Option.bind_eq_bind, Option.bind_some]
  rw [setSlotChecked_eq, Option.bind_some, hloop]
  rfl

/-! ## What keeps the frames in order -/

theorem Sound.thin (h : r.Sound announced) (hslot : ∀ z a, r'.slot z = some a → r.slot z = some a)
    (hstage : r'.stage = r.stage)
    (hwindow : ∀ z a, r'.slot z = some a → ∃ b, r'.base = some b ∧ (a.frame_id - b).toNat < 32) :
    r'.Sound announced where
  slot z a ha := h.slot z a (hslot z a ha)
  window := hwindow
  frame z a ha := by
    rw [hstage]
    exact h.frame z a (hslot z a ha)
  length z a ha := h.length z a (hslot z a ha)

theorem Sound.congr (h : r.Sound announced) (hslots : r'.slots = r.slots) (hbase : r'.base = r.base)
    (hstage : r'.stage = r.stage) : r'.Sound announced := by
  have hslot : ∀ z, r'.slot z = r.slot z := fun z => by rw [Reassembler.slot, Reassembler.slot, hslots]
  refine h.thin (fun z a ha => (hslot z).symm.trans ha) hstage fun z a ha => ?_
  rw [hbase]
  exact h.window z a ((hslot z).symm.trans ha)

theorem Sound.announce (h : r.Sound announced) (hid : ¬ r.InFlight id) (len : ℕ) :
    r.Sound (Function.update announced id len) where
  slot := h.slot
  window := h.window
  frame := h.frame
  length z a ha := by
    rw [Function.update_of_ne, h.length z a ha]
    rintro rfl
    refine hid ⟨a, ?_, rfl⟩
    rwa [Reassembler.slot, h.slot z a ha]

theorem Sound.setSlot (h : r.Sound announced) (hbase : r.base = some b) (hid : (a.frame_id - b).toNat < 32)
    (ha : a.Sound r.stage) (hlen : a.frame_len = announced a.frame_id) :
    (r.setSlot a.frame_id (some a)).Sound announced := by
  have hcases : ∀ z a', (r.setSlot a.frame_id (some a)).slot z = some a' →
      slotOf a.frame_id = slotOf z ∧ a' = a ∨ r.slot z = some a' := by
    intro z a' hz
    by_cases hsame : slotOf a.frame_id = slotOf z
    · rw [slot_setSlot_self r _ hsame] at hz
      exact .inl ⟨hsame, (Option.some.inj hz).symm⟩
    · rw [slot_setSlot_of_ne r _ hsame] at hz
      exact .inr hz
  constructor
  · intro z a' hz
    rcases hcases z a' hz with ⟨hsame, rfl⟩ | hold
    · exact hsame
    · exact h.slot z a' hold
  · intro z a' hz
    rcases hcases z a' hz with ⟨-, rfl⟩ | hold
    · exact ⟨b, hbase, hid⟩
    · exact h.window z a' hold
  · intro z a' hz
    rcases hcases z a' hz with ⟨-, rfl⟩ | hold
    · exact ha
    · exact h.frame z a' hold
  · intro z a' hz
    rcases hcases z a' hz with ⟨-, rfl⟩ | hold
    · exact hlen
    · exact h.length z a' hold

theorem Sound.complete (h : r.Sound announced) (hslot : r.slot a.frame_id = some a) :
    (r.complete a).1.Sound announced := by
  obtain ⟨b, hbase, hnear⟩ := h.window _ a hslot
  have hthins : ∀ z a', (r.complete a).1.slot z = some a' → r.slot z = some a' := by
    intro z a' hz
    obtain ⟨stats, hslots⟩ := r.slots_complete a
    rw [Reassembler.slot, hslots] at hz
    have hz := slot_of_dropIds _ _ hz
    by_cases hsame : slotOf a.frame_id = slotOf z
    · rw [slot_setSlot_self _ _ hsame] at hz
      cases hz
    · rwa [slot_setSlot_of_ne _ _ hsame] at hz
  refine h.thin hthins (r.stage_complete a) fun z a' hz => ⟨a.frame_id + 1, rfl, ?_⟩
  have hold := hthins z a' hz
  obtain ⟨b', hbase', hnear'⟩ := h.window z a' hold
  cases hbase.symm.trans hbase'
  have hin : (r.complete a).1.InFlight a'.frame_id := by
    refine ⟨a', ?_, rfl⟩
    rwa [Reassembler.slot, h.slot z a' hold]
  obtain ⟨⟨-, hne⟩, hbelow⟩ := (inFlight_complete hbase ⟨a, hslot, rfl⟩).mp hin
  -- A frame below would have been given up on.
  have habove : (a.frame_id - b).toNat ≤ (a'.frame_id - b).toNat := by
    by_contra hlt
    refine hbelow (a'.frame_id - b).toNat ?_ (add_ofNat_toNat_sub b a'.frame_id).symm
    rw [maxInFlight]
    omega
  have hne' : a'.frame_id.toNat ≠ a.frame_id.toNat := fun heq => hne (UInt32.toNat_inj.mp heq)
  rw [UInt32.toNat_sub] at hnear hnear' habove
  rw [UInt32.toNat_sub] at habove
  rw [UInt32.toNat_sub, UInt32.toNat_add]
  have hone : (1 : UInt32).toNat = 1 := rfl
  have h1 := a'.frame_id.toNat_lt
  have h2 := a.frame_id.toNat_lt
  have h3 := b.toNat_lt
  omega

theorem Sound.makeRoom (h : r.Sound announced) (hnew : r.base.any (older id) = false) :
    (r.makeRoom id).1.Sound announced ∧ (r.makeRoom id).1.stage = r.stage ∧
      (∃ b, (r.makeRoom id).1.base = some b ∧ (id - b).toNat < 32) ∧
      (r.makeRoom id).2.filterMap Event.frame? = [] := by
  obtain ⟨b, hb⟩ : ∃ b, r.base.getD id = b := ⟨_, rfl⟩
  have hfar : (id - b).toNat < 2^31 := by
    cases hbase : r.base with
    | none =>
      rw [hbase] at hb
      subst hb
      simp
    | some b' =>
      rw [hbase] at hnew hb
      subst hb
      have hle : ¬ 0x7FFFFFFF < id - b' := of_decide_eq_false hnew
      rw [UInt32.not_lt, UInt32.le_iff_toNat_le] at hle
      exact Nat.lt_of_le_of_lt hle (by decide)
  have hmoved : ({ r with base := some b } : Reassembler).Sound announced := by
    refine h.thin (fun _ _ ha => ha) rfl fun z a ha => ?_
    obtain ⟨b', hbase, hnear⟩ := h.window z a ha
    rw [hbase, Option.getD_some] at hb
    subst hb
    exact ⟨b', rfl, hnear⟩
  unfold Reassembler.makeRoom
  dsimp only
  rw [hb]
  by_cases hwide : 32 ≤ id - b
  · rw [if_pos hwide]
    have hge : 32 ≤ (id - b).toNat := UInt32.le_iff_toNat_le.mp hwide
    have hslots := advance_congr Reassembler.slots (fun _ _ _ _ => rfl) { r with base := some b } id b
    have hthins : ∀ z a, (advance { r with base := some b } id b).1.slot z = some a → r.slot z = some a := by
      intro z a hz
      refine slot_of_dropOlders (r := { r with base := some b }) (id - 31) maxInFlight (Nat.le_refl _) ?_
      rw [Reassembler.slot, ← hslots]
      exact hz
    have hnum : (31 : UInt32).toNat = 31 := rfl
    have h31 : (id - (id - 31)).toNat < 32 := by
      rw [UInt32.toNat_sub, UInt32.toNat_sub, hnum]
      have hlt := id.toNat_lt
      omega
    refine ⟨hmoved.thin hthins (stage_advance _ id b) fun z a hz => ⟨id - 31, rfl, ?_⟩, stage_advance _ id b,
      ⟨id - 31, rfl, h31⟩, rfl⟩
    have hold := hthins z a hz
    obtain ⟨b', hbase, hnear⟩ := hmoved.window z a hold
    cases hbase
    have hin : (advance { r with base := some b } id b).1.InFlight a.frame_id :=
      ⟨a, (congrArg (Lib.read _) (h.slot z a hold)).trans hz, rfl⟩
    have hyoung := ((inFlight_advance _ id b).mp hin).2
    rw [older, decide_eq_false_iff_not, UInt32.not_lt, UInt32.le_iff_toNat_le] at hyoung
    have hhalf : (0x7FFFFFFF : UInt32).toNat = 2^31 - 1 := rfl
    rw [hhalf] at hyoung
    have hnew : (id - 31).toNat = (2^32 - 31 + id.toNat) % 2^32 := by rw [UInt32.toNat_sub, hnum]
    rw [UInt32.toNat_sub] at hnear hfar hge hyoung ⊢
    have h1 := a.frame_id.toNat_lt
    have h2 := id.toNat_lt
    have h3 := b.toNat_lt
    omega
  · rw [if_neg hwide]
    rw [UInt32.not_le, UInt32.lt_iff_toNat_lt] at hwide
    exact ⟨hmoved, rfl, ⟨b, rfl, hwide⟩, rfl⟩

/-! ## A shard -/

section

variable {h : ShardHeader} {payload : List UInt8}

/-- What a shard of a frame may lead to: nothing is delivered, or the frame is and the base is behind it. -/
structure Answers (announced : UInt32 → ℕ) (id : UInt32) (answer : Reassembler × List Event) : Prop where
  sound : answer.1.Sound announced
  base : ∃ b, answer.1.base = some b
  frames : answer.2.filterMap Event.frame? = [] ∨ ∃ f, answer.2.filterMap Event.frame? = [f] ∧
    f.frame_id = id ∧ f.data.length = announced id ∧ answer.1.base = some (id + 1)

theorem Sound.pushShard (hr : r.Sound announced) (cpu : Fec.Cpu) (payload : List UInt8)
    (hslot : r.slot h.frame_id = some a)
    (hid : a.frame_id = h.frame_id) (hk : h.k.toNat ≤ 64) (hshard : h.shard.toNat < h.k.toNat + h.m.toNat)
    (hb : h.block.toNat < h.blocks.toNat) :
    r.pushShardChecked cpu h payload = some (r.pushShard cpu h payload) ∧
      Answers announced h.frame_id (r.pushShard cpu h payload) := by
  obtain ⟨b, hbase, hnear⟩ := hr.window _ a hslot
  unfold pushShardChecked Reassembler.pushShard
  rw [slotChecked_eq, hslot]
  simp only [Option.bind_eq_bind, Option.bind_some]
  by_cases hodd : payload.length ≠ a.shard_size ∨ a.blocks.length ≠ h.blocks.toNat
  · rw [if_pos hodd, if_pos hodd]
    exact ⟨rfl, hr, ⟨b, hbase⟩, .inl rfl⟩
  · rw [if_neg hodd, if_neg hodd]
    rw [not_or, not_not, not_not] at hodd
    obtain ⟨hchecked, hafter⟩ := (hr.frame _ a hslot).push cpu r.pool hk hshard (hb.trans_eq hodd.2.symm) hodd.1
    have hname : ∀ a', (a.push cpu r.stage r.pool h payload).assembly = some a' → a'.frame_id = h.frame_id :=
      fun a' ha' => (Assembly.frame_id_push ha').trans hid
    -- The frame is put back in its slot.
    have hput : ∀ a' pool stats, (a.push cpu r.stage r.pool h payload).assembly = some a' →
        (({ r with pool, stats } : Reassembler).setSlot h.frame_id (some a')).Sound announced := by
      intro a' pool stats ha'
      obtain ⟨hsound, hlen⟩ := hafter a' ha'
      have hname' := hname a' ha'
      have hsame : ({ r with pool, stats } : Reassembler).Sound announced := hr.congr rfl rfl rfl
      rw [← hname']
      refine hsame.setSlot hbase ?_ hsound ?_
      · rwa [hname', ← hid]
      · rw [hlen, hr.length _ a hslot, hid, hname']
    rw [hchecked, Option.bind_some]
    rcases hpush : a.push cpu r.stage r.pool h payload with _ | ⟨a', pool, recovered⟩ | ⟨a', pool, recovered⟩
    · exact ⟨rfl, hr, ⟨b, hbase⟩, .inl rfl⟩
    · have hsound := hput a' pool { r.stats with recovered := r.stats.recovered + UInt32.ofNat recovered }
        (by rw [hpush]; rfl)
      refine ⟨?_, hsound, ⟨b, hbase⟩, .inl rfl⟩
      unfold arriveChecked
      dsimp only
      rw [setSlotChecked_eq]
      rfl
    · have hassembly : (a.push cpu r.stage r.pool h payload).assembly = some a' := by
        rw [hpush]
        rfl
      have hsound := hput a' pool { r.stats with recovered := r.stats.recovered + UInt32.ofNat recovered } hassembly
      have hname' := hname a' hassembly
      obtain ⟨r', hr'⟩ : ∃ r', ({ r with
          pool
          stats := { r.stats with recovered := r.stats.recovered + UInt32.ofNat recovered } } :
          Reassembler).setSlot h.frame_id (some a') = r' := ⟨_, rfl⟩
      have hin : r'.slot a'.frame_id = some a' := by
        rw [← hr', hname']
        exact slot_setSlot_self _ _ rfl
      unfold arriveChecked
      dsimp only
      rw [setSlotChecked_eq, hr', Option.bind_some]
      rw [hr'] at hsound
      refine ⟨?_, hsound.complete hin, ⟨_, rfl⟩, .inr ⟨a'.inFrame, ?_, hname', ?_, ?_⟩⟩
      · rw [← hname', completeChecked_eq hin]
      · rw [complete_eq]
        dsimp only
        split_ifs <;> rfl
      · exact ((hafter a' hassembly).1.bytes.trans (hafter a' hassembly).2).trans
          ((hr.length _ a hslot).trans (by rw [hid]))
      · rw [← hname']
        rfl

theorem Sound.startFrame (hr : r.Sound announced) (hbase : r.base = some b) (hid : (h.frame_id - b).toNat < 32)
    (hlen : announced h.frame_id = h.frame_len.toNat) (payload_len : ℕ) (now_us : UInt64) :
    r.startFrameChecked h payload_len now_us = some (r.startFrame h payload_len now_us) ∧
      ∀ r', r.startFrame h payload_len now_us = some r' →
        r'.Sound announced ∧ ∃ a, r'.slot h.frame_id = some a ∧ a.frame_id = h.frame_id := by
  constructor
  · unfold startFrameChecked Reassembler.startFrame
    dsimp only
    split_ifs
    · rfl
    · rw [setSlotChecked_eq]
      rfl
  · intro r' hstart
    obtain ⟨-, buffers, rfl⟩ := startFrame_some hstart
    have hsame : ({ r with buffers } : Reassembler).Sound announced := hr.congr rfl rfl rfl
    refine ⟨hsame.setSlot (a := .start h payload_len now_us _) hbase hid ⟨?_, ?_⟩ hlen.symm,
      ⟨_, slot_setSlot_self _ _ rfl, rfl⟩⟩
    · exact length_resize _ _
    · intro j x hx
      unfold Assembly.start at hx
      dsimp only at hx
      rw [getD_blank fun y hy => List.eq_of_mem_replicate hy] at hx
      cases hx

theorem Sound.pushFrame (hr : r.Sound announced) (cpu : Fec.Cpu) (payload : List UInt8)
    (hnew : r.base.any (older h.frame_id) = false)
    (hlen : ¬ r.InFlight h.frame_id → announced h.frame_id = h.frame_len.toNat) (hk : h.k.toNat ≤ 64)
    (hshard : h.shard.toNat < h.k.toNat + h.m.toNat) (hb : h.block.toNat < h.blocks.toNat) (now_us : UInt64) :
    r.pushFrameChecked cpu h payload now_us = some (r.pushFrame cpu h payload now_us) ∧
      Answers announced h.frame_id (r.pushFrame cpu h payload now_us) := by
  unfold pushFrameChecked Reassembler.pushFrame
  rw [slotChecked_eq]
  simp only [Option.bind_eq_bind, Option.bind_some]
  by_cases hthere : (r.slot h.frame_id).any (·.frame_id == h.frame_id) = true
  · rw [if_pos hthere, if_pos hthere]
    rw [Option.any_eq_true] at hthere
    obtain ⟨a, hslot, hid⟩ := hthere
    exact hr.pushShard cpu payload hslot (eq_of_beq hid) hk hshard hb
  · rw [if_neg hthere, if_neg hthere]
    have hout : ¬ r.InFlight h.frame_id := by
      rintro ⟨a, hslot, hid⟩
      rw [hslot, Option.any_some, hid, beq_self_eq_true] at hthere
      exact hthere rfl
    obtain ⟨hroom, -, ⟨b, hbase, hnear⟩, hquiet⟩ := hr.makeRoom hnew
    obtain ⟨⟨r₁, events⟩, hr₁⟩ : ∃ t, r.makeRoom h.frame_id = t := ⟨_, rfl⟩
    rw [hr₁] at hroom hbase hquiet ⊢
    dsimp only at hroom hbase hquiet ⊢
    obtain ⟨hchecked, hstarted⟩ := hroom.startFrame hbase hnear (hlen hout) payload.length now_us
    rw [hchecked, Option.bind_some]
    cases hstart : r₁.startFrame h payload.length now_us with
    | none => exact ⟨rfl, hroom, ⟨b, hbase⟩, .inl hquiet⟩
    | some r₂ =>
      obtain ⟨hsound, a, hslot, hid⟩ := hstarted r₂ hstart
      obtain ⟨hshardChecked, hanswer⟩ := hsound.pushShard cpu payload hslot hid hk hshard hb
      dsimp only
      rw [hshardChecked]
      refine ⟨rfl, hanswer.sound, hanswer.base, ?_⟩
      dsimp only
      rw [List.filterMap_append, hquiet, List.nil_append]
      exact hanswer.frames

def announces (r : Reassembler) (body : List UInt8) : Option (UInt32 × ℕ) :=
  (admitted body).bind fun x =>
    if r.base.any (older x.1.frame_id) || (r.slot x.1.frame_id).any (·.frame_id == x.1.frame_id) then none
    else some (x.1.frame_id, x.1.frame_len.toNat)

def announcedAfter (r : Reassembler) (body : List UInt8) (announced : UInt32 → ℕ) : UInt32 → ℕ :=
  match r.announces body with
  | some (id, len) => Function.update announced id len
  | none => announced

theorem admitted_bounds {body : List UInt8} (hbody : admitted body = some (h, payload)) :
    h.k.toNat ≤ 64 ∧ h.shard.toNat < h.k.toNat + h.m.toNat ∧ h.block.toNat < h.blocks.toNat := by
  unfold admitted at hbody
  cases hread : ShardHeader.read body with
  | none =>
    rw [hread] at hbody
    cases hbody
  | some h' =>
    rw [hread] at hbody
    dsimp only at hbody
    split_ifs at hbody with hodd
    cases hbody
    rw [not_or, not_or, not_or, not_or, not_or] at hodd
    obtain ⟨-, hk, -, hshard, hblock, -⟩ := hodd
    rw [UInt8.not_le, UInt8.lt_iff_toNat_lt] at hblock
    unfold maxBlockData at hk
    exact ⟨by omega, by omega, hblock⟩

theorem Sound.push (hr : r.Sound announced) (cpu : Fec.Cpu) (body : List UInt8) (now_us : UInt64) :
    r.pushChecked cpu body now_us = some (r.push cpu body now_us) ∧
      (r.push cpu body now_us).1.Sound (r.announcedAfter body announced) ∧
      (r.base ≠ none → (r.push cpu body now_us).1.base ≠ none) ∧
      ((r.push cpu body now_us).2.filterMap Event.frame? = [] ∨
        ∃ f, (r.push cpu body now_us).2.filterMap Event.frame? = [f] ∧
          f.data.length = r.announcedAfter body announced f.frame_id ∧
          (r.push cpu body now_us).1.base = some (f.frame_id + 1) ∧
          ∀ b, r.base = some b → (f.frame_id - b).toNat < 2^31) := by
  unfold pushChecked Reassembler.push
  cases hbody : admitted body with
  | none =>
    have hafter : r.announcedAfter body announced = announced := by
      unfold announcedAfter announces
      rw [hbody]
      rfl
    rw [hafter]
    exact ⟨rfl, hr, id, .inl rfl⟩
  | some x =>
    obtain ⟨h, payload⟩ := x
    obtain ⟨hk, hshard, hb⟩ := admitted_bounds hbody
    dsimp only
    obtain ⟨stats, floor, train, htimed⟩ := timeTrain_eq
      { r with stats := { r.stats with bytes := r.stats.bytes + UInt64.ofNat body.length } } h body.length now_us
    rw [htimed]
    dsimp only
    by_cases hold : r.base.any (older h.frame_id) = true
    · have hafter : r.announcedAfter body announced = announced := by
        unfold announcedAfter announces
        rw [hbody, Option.bind_some, hold, Bool.true_or, if_pos rfl]
      rw [if_pos hold, if_pos hold, hafter]
      exact ⟨rfl, hr.congr rfl rfl rfl, id, .inl rfl⟩
    · rw [if_neg hold, if_neg hold]
      have hnew : r.base.any (older h.frame_id) = false := Bool.eq_false_iff.mpr hold
      obtain ⟨after, hafter⟩ : ∃ after, r.announcedAfter body announced = after := ⟨_, rfl⟩
      have hsound : r.Sound after ∧ (¬ r.InFlight h.frame_id → after h.frame_id = h.frame_len.toNat) := by
        rw [← hafter]
        unfold announcedAfter announces
        rw [hbody, Option.bind_some, hnew, Bool.false_or]
        by_cases hin : (r.slot h.frame_id).any (·.frame_id == h.frame_id) = true
        · rw [if_pos hin]
          refine ⟨hr, fun hout => absurd ?_ hout⟩
          rw [Option.any_eq_true] at hin
          obtain ⟨a, hslot, hid⟩ := hin
          exact ⟨a, hslot, eq_of_beq hid⟩
        · rw [if_neg hin]
          refine ⟨hr.announce ?_ _, fun _ => Function.update_self _ _ _⟩
          rintro ⟨a, hslot, hid⟩
          rw [hslot, Option.any_some, hid, beq_self_eq_true] at hin
          exact hin rfl
      rw [hafter]
      have hcounted : Sound after { r with stats := { stats with shards := stats.shards + 1 }, floor, train } :=
        hsound.1.congr rfl rfl rfl
      obtain ⟨hchecked, hanswer⟩ := hcounted.pushFrame cpu payload hnew hsound.2 hk hshard hb now_us
      refine ⟨hchecked, hanswer.sound, fun _ => ?_, ?_⟩
      · obtain ⟨b, hbase⟩ := hanswer.base
        rw [hbase]
        exact Option.some_ne_none b
      · refine hanswer.frames.imp id ?_
        rintro ⟨f, hf, hid, hlen, hbase⟩
        rw [← hid] at hlen hbase
        refine ⟨f, hf, hlen, hbase, fun b hb => ?_⟩
        rw [hid]
        rw [hb, Option.any_some, older, decide_eq_false_iff_not, UInt32.not_lt, UInt32.le_iff_toNat_le] at hnew
        exact Nat.lt_of_le_of_lt hnew (by decide)

end

end Reassembler

/-! ## Runs -/

structure Delivery where
  frame : InFrame
  announced : ℕ
  moved : ℕ

structure Log where
  r : Reassembler
  announced : UInt32 → ℕ
  moved : ℕ
  delivered : List Delivery

namespace Log

def start (buffers : List Buf) (stage : Bool) : Log := ⟨.new buffers stage, fun _ => 0, 0, []⟩

/-- How far the base moves on. -/
def step : Option UInt32 → Option UInt32 → ℕ
  | some b, some b' => (b' - b).toNat
  | _, _ => 0

def push (cpu : Fec.Cpu) (s : Log) (packet : List UInt8 × UInt64) : Log :=
  let answer := s.r.push cpu packet.1 packet.2
  let announced := s.r.announcedAfter packet.1 s.announced
  let moved := s.moved + step s.r.base answer.1.base
  { r := answer.1, announced, moved
    delivered := s.delivered ++ (answer.2.filterMap Event.frame?).map fun f => ⟨f, announced f.frame_id, moved⟩ }

/-- `e` is delivered after `d`: its id is as far on as the window moved in between. -/
def Later (d e : Delivery) : Prop :=
  d.moved < e.moved ∧ e.frame.frame_id = d.frame.frame_id + UInt32.ofNat (e.moved - d.moved)

structure Inv (s : Log) : Prop where
  sound : s.r.Sound s.announced
  lengths : ∀ d ∈ s.delivered, d.frame.data.length = d.announced
  /-- The base is past each frame by as much as it has moved since. -/
  base : ∀ d ∈ s.delivered, d.moved ≤ s.moved ∧
    s.r.base = some (d.frame.frame_id + 1 + UInt32.ofNat (s.moved - d.moved))
  order : s.delivered.Pairwise Later

variable {cpu : Fec.Cpu} {s : Log} {packet : List UInt8 × UInt64}

theorem Inv.start (buffers : List Buf) (stage : Bool) : (start buffers stage).Inv := by
  have hempty : ∀ z a, (Reassembler.new buffers stage).slot z ≠ some a := by
    intro z a hz
    have hlt := Reassembler.slotOf_lt z
    simp [Reassembler.slot, Reassembler.new, Lib.read, hlt] at hz
  exact
    { sound := ⟨fun z a hz => absurd hz (hempty z a), fun z a hz => absurd hz (hempty z a),
        fun z a hz => absurd hz (hempty z a), fun z a hz => absurd hz (hempty z a)⟩
      lengths := fun d hd => by cases hd
      base := fun d hd => by cases hd
      order := .nil }

theorem Inv.push (h : s.Inv) : (s.push cpu packet).Inv := by
  obtain ⟨-, hsound, hstays, hframes⟩ := h.sound.push cpu packet.1 packet.2
  obtain ⟨after, hafter⟩ : ∃ after, s.r.announcedAfter packet.1 s.announced = after := ⟨_, rfl⟩
  obtain ⟨⟨r', events⟩, hr'⟩ : ∃ t, s.r.push cpu packet.1 packet.2 = t := ⟨_, rfl⟩
  rw [hr', hafter] at hsound hframes
  rw [hr'] at hstays
  dsimp only at hsound hstays hframes
  -- The window moved on for what was delivered before.
  have hbase : ∀ d ∈ s.delivered, d.moved ≤ s.moved + step s.r.base r'.base ∧
      r'.base = some (d.frame.frame_id + 1 + UInt32.ofNat (s.moved + step s.r.base r'.base - d.moved)) := by
    intro d hd
    obtain ⟨hle, hb⟩ := h.base d hd
    obtain ⟨b', hb'⟩ := Option.ne_none_iff_exists'.mp (hstays (by rw [hb]; exact Option.some_ne_none _))
    refine ⟨by omega, ?_⟩
    rw [hb', hb, step, Nat.sub_add_comm hle, UInt32.ofNat_add, ← UInt32.add_assoc, add_ofNat_toNat_sub]
  have hpush : s.push cpu packet = ⟨r', after, s.moved + step s.r.base r'.base, s.delivered ++
      (events.filterMap Event.frame?).map fun f => ⟨f, after f.frame_id, s.moved + step s.r.base r'.base⟩⟩ := by
    rw [Log.push, hr', hafter]
  rw [hpush]
  rcases hframes with hnone | ⟨f, hf, hlen, hb', hnear⟩
  · rw [hnone, List.map_nil, List.append_nil]
    exact ⟨hsound, h.lengths, hbase, h.order⟩
  · rw [hf, List.map_singleton]
    constructor
    · exact hsound
    · intro d hd
      rcases List.mem_append.mp hd with hd | hd
      · exact h.lengths d hd
      · rw [List.mem_singleton.mp hd]
        exact hlen
    · intro d hd
      rcases List.mem_append.mp hd with hd | hd
      · exact hbase d hd
      · rw [List.mem_singleton.mp hd]
        dsimp only
        rw [Nat.sub_self, hb']
        exact ⟨Nat.le_refl _, by simp⟩
    · refine List.pairwise_append.mpr ⟨h.order, List.pairwise_singleton _ _, fun d hd e he => ?_⟩
      obtain rfl := List.mem_singleton.mp he
      obtain ⟨hle, hb⟩ := h.base d hd
      obtain ⟨hle', hb''⟩ := hbase d hd
      have hmoves : 0 < step s.r.base r'.base := by
        obtain ⟨b, hat⟩ : ∃ b, d.frame.frame_id + 1 + UInt32.ofNat (s.moved - d.moved) = b := ⟨_, rfl⟩
        rw [hat] at hb
        have hnear := hnear b hb
        rw [hb, hb', step, UInt32.toNat_sub, UInt32.toNat_add]
        rw [UInt32.toNat_sub] at hnear
        have hone : (1 : UInt32).toNat = 1 := rfl
        have h1 := f.frame_id.toNat_lt
        omega
      refine ⟨by dsimp only; omega, ?_⟩
      dsimp only
      rw [hb', Option.some.injEq, UInt32.add_assoc, UInt32.add_comm 1, ← UInt32.add_assoc, UInt32.add_left_inj] at hb''
      rw [hb']
      exact hb''

theorem Inv.run (h : s.Inv) (packets : List (List UInt8 × UInt64)) : (Lib.run (Log.push cpu) s packets).Inv :=
  invariant_run Inv h (fun _ _ hs => Inv.push hs) packets

end Log

/-- Whatever bodies come: no slot, block, shard or slice is out of range and nothing that is expected is missing; every
frame in flight is in its slot, within 32 ids of the base; a frame that is delivered has the length that the shard that
started it announced; and its id is past those delivered before by as much as the window moved on. -/
theorem anyBodies_inRange (cpu : Fec.Cpu) (buffers : List Buf) (stage : Bool) (packets : List (List UInt8 × UInt64)) :
    let s := run (Log.push cpu) (.start buffers stage) packets
    (∀ body now_us, s.r.pushChecked cpu body now_us = some (s.r.push cpu body now_us)) ∧
      s.r.slots.toList.countP (·.isSome) ≤ maxInFlight ∧
      (∀ i < maxInFlight, ∀ a, read s.r.slots i = some a →
        i = slotOf a.frame_id ∧ ∃ b, s.r.base = some b ∧ (a.frame_id - b).toNat < maxInFlight) ∧
      (∀ d ∈ s.delivered, d.frame.data.length = d.announced) ∧
      s.delivered.Pairwise fun d e => d.moved < e.moved ∧
        e.frame.frame_id = d.frame.frame_id + UInt32.ofNat (e.moved - d.moved) ∧
        (e.moved - d.moved < 2^31 → 0 < (e.frame.frame_id - d.frame.frame_id).toNat ∧
          (e.frame.frame_id - d.frame.frame_id).toNat < 2^31) := by
  intro s
  have hinv : s.Inv := (Log.Inv.start buffers stage).run packets
  refine ⟨fun body now_us => (hinv.sound.push cpu body now_us).1, ?_, fun i hi a ha => ?_, hinv.lengths, ?_⟩
  · exact List.countP_le_length.trans_eq Vector.length_toList
  · have hslot : slotOf (UInt32.ofNat i) = i := by
      unfold slotOf maxInFlight at *
      rw [UInt32.toNat_ofNat']
      omega
    have ha' : s.r.slot (UInt32.ofNat i) = some a := by
      rw [Reassembler.slot, hslot]
      exact ha
    exact ⟨hslot.symm.trans (hinv.sound.slot _ a ha').symm, hinv.sound.window _ a ha'⟩
  · refine hinv.order.imp fun {d e} hlater => ⟨hlater.1, hlater.2, fun hhalf => ?_⟩
    have hpos := hlater.1
    have hdiff : (e.frame.frame_id - d.frame.frame_id).toNat = e.moved - d.moved := by
      rw [hlater.2, UInt32.toNat_sub, UInt32.toNat_add, UInt32.toNat_ofNat']
      have hlt := d.frame.frame_id.toNat_lt
      omega
    omega

/-- Frame 10 is delivered; half of frame 0x8000000A moves the window to 0x7FFFFFEB, and frame 0x80000010 is delivered,
which is more than half the ids past frame 10. -/
theorem anyBodies_turned :
    ¬ ∀ packets : List (List UInt8 × UInt64), (run (Log.push .scalar) (.start [] false) packets).delivered.Pairwise
      fun d e => 0 < (e.frame.frame_id - d.frame.frame_id).toNat ∧
        (e.frame.frame_id - d.frame.frame_id).toNat < 2^31 := by
  intro hordered
  have hids : (run (Log.push .scalar) (.start [] false)
      [(oneByte 10 1 0, 0), (oneByte 0x8000000A 2 0, 1), (oneByte 0x80000010 1 0, 2)]).delivered.map
        (·.frame.frame_id) = [10, 0x80000010] := by decide +kernel
  have hpair : List.Pairwise (fun x y : UInt32 => 0 < (y - x).toNat ∧ (y - x).toNat < 2^31) [10, 0x80000010] := by
    rw [← hids, List.pairwise_map]
    exact hordered _
  exact absurd hpair (by decide)

end Rdpio.Hyper.Video
