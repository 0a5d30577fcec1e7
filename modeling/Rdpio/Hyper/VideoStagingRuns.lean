import Rdpio.Hyper.VideoStaging

/-!
# Reassembly in place and staged

The two reassemblers of `VideoStaging`, over whole runs: they answer every call the same, whatever their
buffers and their pools held before (`inPlace_eq_staged`).
-/

namespace Rdpio.Hyper.Video

open Lib

/-! ## The reassemblers -/

theorem Assembly.Twin.start {trains : Bool} {f : OutFrame} {h : ShardHeader} {payload : List UInt8}
    (hfits : f.Fits trains h payload) (now_us : UInt64) (data data' : Buf) :
    Assembly.Twin trains f (.start h payload.length now_us data) (.start h payload.length now_us data') where
  same := rfl
  frame_id := hfits.frame_id
  shard_size := hfits.size
  frame_len := hfits.frame_len
  length := length_resize _ _
  length' := length_resize _ _
  count := by
    unfold Assembly.start
    rw [List.length_replicate, hfits.blocks]
  count' := rfl
  blocks b := by
    unfold Assembly.start
    dsimp only
    rw [List.getD_eq_getElem?_getD, List.getElem?_replicate]
    split_ifs <;> exact .none
  k b x hx := by
    unfold Assembly.start at hx
    dsimp only at hx
    rw [List.getD_eq_getElem?_getD, List.getElem?_replicate] at hx
    split_ifs at hx
    · exact absurd hx (Option.some_ne_none x).symm
    · exact absurd hx (Option.some_ne_none x).symm
  done := by
    unfold Assembly.start
    rw [List.countP_replicate, if_neg (by decide)]

structure Reassembler.Twin (trains : OutFrame → Bool) (frames : Set OutFrame) (r s : Reassembler) : Prop where
  same : ∃ slots pool buffers, s = { r with slots, pool, buffers, stage := true }
  stage : r.stage = false
  slots : ∀ i, Option.Rel (fun a c => ∃ f ∈ frames, a.Twin (trains f) f c) (read r.slots i) (read s.slots i)

namespace Reassembler

def rebase (r : Reassembler) (new_base base : UInt32) : Reassembler × List Event :=
  ({ r with
      next := some new_base
      base := some new_base
      stats := { r.stats with frames_lost := r.stats.frames_lost + (new_base - r.next.getD base) } },
    [.lost (r.next.getD base) (new_base - 1)])

theorem advance_eq (r : Reassembler) (frame_id base : UInt32) : r.advance frame_id base =
    ((List.range maxInFlight).foldl (dropOlder (frame_id - 31)) r).rebase (frame_id - 31) base := by
  unfold advance
  dsimp only
  generalize frame_id - 31 = new_base
  refine congrArg (fun body => ((List.range maxInFlight).foldl body r).rebase new_base base) ?_
  funext r i
  unfold dropOlder
  rcases read r.slots i with _ | a <;> rfl

def deliver (r : Reassembler) (a : Assembly) : Reassembler :=
  { r with
    next := some (a.frame_id + 1)
    base := some (a.frame_id + 1)
    floor := (r.floor.prompt (delayUs a.first_rx_us a.capture_us a.encode_us) a.first_rx_us).2
    pool := scrap r.pool a
    stats := { r.stats with frames := r.stats.frames + 1 } }

def takeOut (r : Reassembler) (frame_id : UInt32) : Reassembler :=
  let stats := { r.stats with frames_lost := r.stats.frames_lost + (frame_id - r.next.getD frame_id) }
  ({ r with stats } : Reassembler).setSlot frame_id none

theorem complete_eq (r : Reassembler) (a : Assembly) : r.complete a =
    (((List.range (min (a.frame_id - r.base.getD a.frame_id).toNat maxInFlight)).foldl
        (fun r' i => r'.dropId (r.base.getD a.frame_id + UInt32.ofNat i)) (r.takeOut a.frame_id)).deliver a,
      (if a.frame_id ≠ r.next.getD a.frame_id then
        [Event.lost (r.next.getD a.frame_id) (a.frame_id - 1)] else []) ++ [.frame a.inFrame]) := rfl

namespace Twin

variable {trains : OutFrame → Bool} {frames : Set OutFrame} {r s : Reassembler}

theorem base_eq (h : Twin trains frames r s) : s.base = r.base := by
  obtain ⟨-, -, -, rfl⟩ := h.same
  rfl

theorem next_eq (h : Twin trains frames r s) : s.next = r.next := by
  obtain ⟨-, -, -, rfl⟩ := h.same
  rfl

theorem stats_eq (h : Twin trains frames r s) : s.stats = r.stats := by
  obtain ⟨-, -, -, rfl⟩ := h.same
  rfl

theorem setSlot (h : Twin trains frames r s) (id : UInt32) {a c : Option Assembly}
    (hac : Option.Rel (fun a c => ∃ f ∈ frames, a.Twin (trains f) f c) a c) :
    Twin trains frames (r.setSlot id a) (s.setSlot id c) := by
  obtain ⟨slots, pool, buffers, rfl⟩ := h.same
  refine ⟨⟨_, pool, buffers, rfl⟩, h.stage, fun i => ?_⟩
  unfold Reassembler.setSlot
  dsimp only
  by_cases hi : slotOf id = i
  · rw [← hi, read_write_self _ _ (slotOf_lt id), read_write_self _ _ (slotOf_lt id)]
    exact hac
  · rw [read_write_of_ne _ _ hi, read_write_of_ne _ _ hi]
    exact h.slots i

theorem dropSlot (h : Twin trains frames r s) {i : ℕ} (hi : i < 32) :
    Twin trains frames (r.dropSlot i) (s.dropSlot i) := by
  have hslots : ∀ j, Option.Rel (fun a c => ∃ f ∈ frames, a.Twin (trains f) f c)
      (read (r.dropSlot i).slots j) (read (s.dropSlot i).slots j) := by
    intro j
    rw [read_dropSlot hi, read_dropSlot hi]
    split_ifs
    · exact .none
    · exact h.slots j
  obtain ⟨slots, pool, buffers, rfl⟩ := h.same
  have hpair := h.slots i
  unfold Reassembler.dropSlot at hslots ⊢
  dsimp only at hpair hslots ⊢
  rcases ha : read r.slots i with _ | a
  · rw [ha] at hpair
    rw [rel_none_left hpair]
    exact h
  · rw [ha] at hpair hslots
    obtain ⟨c, hc, -⟩ := rel_some_left hpair
    rw [hc] at hslots ⊢
    exact ⟨⟨_, _, _, rfl⟩, h.stage, hslots⟩

theorem frame_id_slot (h : Twin trains frames r s) (i : ℕ) :
    (read s.slots i).map (·.frame_id) = (read r.slots i).map (·.frame_id) := by
  have hpair := h.slots i
  rcases ha : read r.slots i with _ | a
  · rw [ha] at hpair
    rw [rel_none_left hpair]
  · rw [ha] at hpair
    obtain ⟨c, hc, f, -, hac⟩ := rel_some_left hpair
    rw [hc, hac.same]
    rfl

theorem dropOlder (h : Twin trains frames r s) (base : UInt32) {i : ℕ} (hi : i < 32) :
    Twin trains frames (r.dropOlder base i) (s.dropOlder base i) := by
  have hid := h.frame_id_slot i
  unfold Reassembler.dropOlder
  rcases ha : read r.slots i with _ | a
  · rw [ha, Option.map_none, Option.map_eq_none_iff] at hid
    rw [hid]
    exact h
  · rw [ha, Option.map_some, Option.map_eq_some_iff] at hid
    obtain ⟨c, hc, hid⟩ := hid
    rw [hc]
    dsimp only
    rw [hid]
    split_ifs
    · exact h.dropSlot hi
    · exact h

theorem dropId (h : Twin trains frames r s) (id : UInt32) : Twin trains frames (r.dropId id) (s.dropId id) := by
  have hid := h.frame_id_slot (slotOf id)
  unfold Reassembler.dropId Reassembler.slot
  rcases ha : read r.slots (slotOf id) with _ | a
  · rw [ha, Option.map_none, Option.map_eq_none_iff] at hid
    rw [hid]
    exact h
  · rw [ha, Option.map_some, Option.map_eq_some_iff] at hid
    obtain ⟨c, hc, hid⟩ := hid
    rw [hc]
    dsimp only
    rw [hid]
    split_ifs
    · exact h.dropSlot (slotOf_lt id)
    · exact h

theorem rebase (h : Twin trains frames r s) (new_base base : UInt32) :
    Twin trains frames (r.rebase new_base base).1 (s.rebase new_base base).1 ∧
      (r.rebase new_base base).2 = (s.rebase new_base base).2 := by
  obtain ⟨slots, pool, buffers, rfl⟩ := h.same
  exact ⟨⟨⟨_, _, _, rfl⟩, h.stage, h.slots⟩, rfl⟩

theorem advance (h : Twin trains frames r s) (frame_id base : UInt32) :
    Twin trains frames (r.advance frame_id base).1 (s.advance frame_id base).1 ∧
      (r.advance frame_id base).2 = (s.advance frame_id base).2 := by
  have hold : Twin trains frames ((List.range maxInFlight).foldl (Reassembler.dropOlder (frame_id - 31)) r)
      ((List.range maxInFlight).foldl (Reassembler.dropOlder (frame_id - 31)) s) :=
    foldl_range_rel (n := maxInFlight) (fun _ => Twin trains frames) h fun i r s hi h => h.dropOlder _ hi
  rw [advance_eq, advance_eq]
  exact hold.rebase _ _

theorem makeRoom (h : Twin trains frames r s) (frame_id : UInt32) :
    Twin trains frames (r.makeRoom frame_id).1 (s.makeRoom frame_id).1 ∧
      (r.makeRoom frame_id).2 = (s.makeRoom frame_id).2 := by
  have hbase : Twin trains frames { r with base := some (r.base.getD frame_id) }
      { s with base := some (r.base.getD frame_id) } := by
    obtain ⟨slots, pool, buffers, rfl⟩ := h.same
    exact ⟨⟨_, _, _, rfl⟩, h.stage, h.slots⟩
  unfold Reassembler.makeRoom
  dsimp only
  rw [h.base_eq]
  split_ifs
  · exact hbase.advance _ _
  · exact ⟨hbase, rfl⟩

theorem complete {a c : Assembly} (h : Twin trains frames r s)
    (hsame : c = { a with blocks := c.blocks, data := c.data }) (hbytes : a.data.bytes = c.data.bytes) :
    Twin trains frames (r.complete a).1 (s.complete c).1 ∧ (r.complete a).2 = (s.complete c).2 := by
  have hframe : c.inFrame = a.inFrame := by
    rw [hsame]
    unfold Assembly.inFrame
    dsimp only
    rw [hbytes]
  have hid : c.frame_id = a.frame_id := by rw [hsame]
  have hout : Twin trains frames (r.takeOut a.frame_id) (s.takeOut a.frame_id) := by
    refine setSlot ?_ a.frame_id .none
    obtain ⟨slots, pool, buffers, rfl⟩ := h.same
    exact ⟨⟨_, _, _, rfl⟩, h.stage, h.slots⟩
  rw [complete_eq, complete_eq, hframe, hid, h.base_eq, h.next_eq]
  refine ⟨?_, rfl⟩
  have hloop := foldl_range_rel (n := min (a.frame_id - r.base.getD a.frame_id).toNat maxInFlight)
    (fun _ => Twin trains frames) hout
    fun i r' s' _ h' => h'.dropId (r.base.getD a.frame_id + UInt32.ofNat i)
  obtain ⟨slots, pool, buffers, heq⟩ := hloop.same
  have hslots := hloop.slots
  have hstage := hloop.stage
  rw [heq] at hslots ⊢
  generalize (List.range (min (a.frame_id - r.base.getD a.frame_id).toNat maxInFlight)).foldl
    (fun r' i => r'.dropId (r.base.getD a.frame_id + UInt32.ofNat i)) (r.takeOut a.frame_id) = r'
    at hslots hstage ⊢
  refine ⟨⟨slots, scrap pool c, buffers, ?_⟩, hstage, hslots⟩
  unfold deliver
  rw [hsame]

theorem startFrame (h : Twin trains frames r s) {f : OutFrame} (hf : f ∈ frames) {hd : ShardHeader}
    {payload : List UInt8} (hfits : f.Fits (trains f) hd payload) (now_us : UInt64) :
    Option.Rel (Twin trains frames) (r.startFrame hd payload.length now_us)
      (s.startFrame hd payload.length now_us) := by
  unfold Reassembler.startFrame
  dsimp only
  split_ifs
  · exact .none
  · refine .some (setSlot ?_ hd.frame_id (.some ⟨f, hf, .start hfits now_us _ _⟩))
    obtain ⟨slots, pool, buffers, rfl⟩ := h.same
    exact ⟨⟨_, _, _, rfl⟩, h.stage, h.slots⟩

theorem pushShard (cpu : Fec.Cpu) (h : Twin trains frames r s) {hd : ShardHeader} {payload : List UInt8}
    (hb : hd.block < hd.blocks)
    (hfits : ∀ a f, r.slot hd.frame_id = some a → f ∈ frames → a.frame_id = f.frame_id → f.Fits (trains f) hd payload) :
    Twin trains frames (r.pushShard cpu hd payload).1 (s.pushShard cpu hd payload).1 ∧
      (r.pushShard cpu hd payload).2 = (s.pushShard cpu hd payload).2 := by
  have hpair := h.slots (slotOf hd.frame_id)
  unfold Reassembler.pushShard
  unfold Reassembler.slot at hfits ⊢
  rcases ha : read r.slots (slotOf hd.frame_id) with _ | a
  · rw [ha] at hpair
    rw [rel_none_left hpair]
    exact ⟨h, rfl⟩
  rw [ha] at hpair
  obtain ⟨c, hc, f, hf, hac⟩ := rel_some_left hpair
  rw [hc]
  dsimp only
  have hsize : c.shard_size = a.shard_size := by rw [hac.same]
  rw [hsize, hac.count']
  split_ifs with hodd
  · exact ⟨h, rfl⟩
  rw [not_or, not_not, not_not] at hodd
  have hlt : hd.block.toNat < a.blocks.length := by
    rw [hodd.2]
    exact UInt8.lt_iff_toNat_lt.mp hb
  have hpush := hac.push (hfits a f ha hf hac.frame_id) hlt cpu r.pool s.pool
  have hstage := h.stage
  obtain ⟨slots, pool, buffers, rfl⟩ := h.same
  dsimp only at hpush ⊢
  rw [hstage]
  generalize a.push cpu false r.pool hd payload = x at hpush ⊢
  generalize c.push cpu true pool hd payload = y at hpush ⊢
  cases hpush with
  | ignored => exact ⟨h, rfl⟩
  | kept hac' =>
    refine ⟨setSlot ?_ hd.frame_id (.some ⟨f, hf, hac'⟩), rfl⟩
    exact ⟨⟨_, _, _, rfl⟩, rfl, h.slots⟩
  | whole hac' hbytes =>
    refine complete (setSlot ?_ hd.frame_id (.some ⟨f, hf, hac'⟩)) hac'.same hbytes
    exact ⟨⟨_, _, _, rfl⟩, rfl, h.slots⟩

theorem pushFrame (cpu : Fec.Cpu) (h : Twin trains frames r s)
    (hdistinct : ∀ f ∈ frames, ∀ g ∈ frames, f.frame_id = g.frame_id → f = g) {f : OutFrame}
    (hf : f ∈ frames) {hd : ShardHeader} {payload : List UInt8} (hb : hd.block < hd.blocks)
    (hfits : f.Fits (trains f) hd payload) (now_us : UInt64) :
    Twin trains frames (r.pushFrame cpu hd payload now_us).1 (s.pushFrame cpu hd payload now_us).1 ∧
      (r.pushFrame cpu hd payload now_us).2 = (s.pushFrame cpu hd payload now_us).2 := by
  -- The frame in the slot is the one that the shard is of.
  have hsame : ∀ (r : Reassembler), (∀ a, r.slot hd.frame_id = some a → a.frame_id = hd.frame_id) →
      ∀ a g, r.slot hd.frame_id = some a → g ∈ frames → a.frame_id = g.frame_id → g.Fits (trains g) hd payload := by
    intro r hslot a g ha hg hag
    have : g = f := hdistinct g hg f hf (hag.symm.trans ((hslot a ha).trans hfits.frame_id))
    rwa [this]
  have hany : (s.slot hd.frame_id).any (·.frame_id == hd.frame_id) =
      (r.slot hd.frame_id).any (·.frame_id == hd.frame_id) := by
    have hid := congrArg (Option.any (· == hd.frame_id)) (h.frame_id_slot (slotOf hd.frame_id))
    rwa [Option.any_map, Option.any_map] at hid
  unfold Reassembler.pushFrame
  rw [hany]
  split_ifs with hin
  · refine h.pushShard cpu hb (hsame r fun a ha => ?_)
    rw [ha, Option.any_some, beq_iff_eq] at hin
    exact hin
  · obtain ⟨hroom, hevents⟩ := h.makeRoom hd.frame_id
    generalize r.makeRoom hd.frame_id = made at hroom hevents ⊢
    generalize s.makeRoom hd.frame_id = made' at hroom hevents ⊢
    obtain ⟨r₁, events⟩ := made
    obtain ⟨s₁, events'⟩ := made'
    dsimp only at hroom hevents ⊢
    subst hevents
    have hstart := hroom.startFrame hf hfits now_us
    rcases hr₂ : r₁.startFrame hd payload.length now_us with _ | r₂
    · rw [hr₂] at hstart
      rw [rel_none_left hstart]
      exact ⟨hroom, rfl⟩
    · rw [hr₂] at hstart
      obtain ⟨s₂, hs₂, hbegun⟩ := rel_some_left hstart
      obtain ⟨-, buffers, hput⟩ := startFrame_some hr₂
      rw [hs₂]
      obtain ⟨hshard, hmore⟩ := hbegun.pushShard cpu hb (hsame r₂ fun a ha => by
        rw [hput, slot_setSlot_self _ _ rfl] at ha
        cases ha
        rfl)
      exact ⟨hshard, congrArg (events ++ ·) hmore⟩

end Twin

theorem finishTrain_with (r : Reassembler) (slots : Vector (Option Assembly) 32) (pool : List (List UInt8))
    (buffers : List Buf) : ({ r with slots, pool, buffers, stage := true } : Reassembler).finishTrain =
      { r.finishTrain with slots, pool, buffers, stage := true } := by
  obtain ⟨_, _, _, _, _, train, _, _, _⟩ := r
  unfold finishTrain
  cases train with
  | none => rfl
  | some t =>
    dsimp only
    split_ifs <;> rfl

theorem timeTrain_with (r : Reassembler) (slots : Vector (Option Assembly) 32) (pool : List (List UInt8))
    (buffers : List Buf) (h : ShardHeader) (len : ℕ) (now_us : UInt64) :
    ({ r with slots, pool, buffers, stage := true } : Reassembler).timeTrain h len now_us =
      { r.timeTrain h len now_us with slots, pool, buffers, stage := true } := by
  obtain ⟨stats, heq⟩ := r.finishTrain_eq
  have hwith := r.finishTrain_with slots pool buffers
  rw [heq] at hwith
  obtain ⟨_, _, _, _, _, train, _, _, _⟩ := r
  unfold timeTrain
  dsimp only at heq hwith ⊢
  rw [heq, hwith]
  cases train with
  | none =>
    dsimp only
    split_ifs <;> rfl
  | some t =>
    dsimp only
    split_ifs <;> rfl

theorem admitted_block {body : List UInt8} {h : ShardHeader} {payload : List UInt8}
    (hadmitted : admitted body = some (h, payload)) : h.block < h.blocks := by
  unfold admitted at hadmitted
  split at hadmitted
  · cases hadmitted
  · dsimp only at hadmitted
    split_ifs at hadmitted with hodd
    cases hadmitted
    simp only [not_or, UInt8.not_le] at hodd
    exact hodd.2.2.2.2.1

namespace Twin

variable {trains : OutFrame → Bool} {frames : Set OutFrame} {r s : Reassembler}

theorem push (cpu : Fec.Cpu) (h : Twin trains frames r s)
    (hdistinct : ∀ f ∈ frames, ∀ g ∈ frames, f.frame_id = g.frame_id → f = g) {body : List UInt8}
    (hbody : ∀ hd payload, admitted body = some (hd, payload) → ∃ f ∈ frames, f.Fits (trains f) hd payload)
    (now_us : UInt64) :
    Twin trains frames (r.push cpu body now_us).1 (s.push cpu body now_us).1 ∧
      (r.push cpu body now_us).2 = (s.push cpu body now_us).2 := by
  unfold Reassembler.push
  rcases hadmitted : admitted body with _ | ⟨hd, payload⟩
  · exact ⟨h, rfl⟩
  obtain ⟨f, hf, hfits⟩ := hbody hd payload hadmitted
  dsimp only
  have htimed : Twin trains frames
      (({ r with stats := { r.stats with bytes := r.stats.bytes + UInt64.ofNat body.length } } :
        Reassembler).timeTrain hd body.length now_us)
      (({ s with stats := { s.stats with bytes := s.stats.bytes + UInt64.ofNat body.length } } :
        Reassembler).timeTrain hd body.length now_us) := by
    have hstage := h.stage
    have hslots := h.slots
    obtain ⟨slots, pool, buffers, rfl⟩ := h.same
    obtain ⟨stats, floor, train, heq⟩ := timeTrain_eq
      { r with stats := { r.stats with bytes := r.stats.bytes + UInt64.ofNat body.length } } hd body.length
      now_us
    refine ⟨⟨slots, pool, buffers, ?_⟩, ?_, ?_⟩
    · exact timeTrain_with { r with stats := { r.stats with
        bytes := r.stats.bytes + UInt64.ofNat body.length } } slots pool buffers hd body.length now_us
    · rw [heq]
      exact hstage
    · have hwith := timeTrain_with { r with stats := { r.stats with
        bytes := r.stats.bytes + UInt64.ofNat body.length } } slots pool buffers hd body.length now_us
      dsimp only at hwith ⊢
      rw [hwith, heq]
      exact hslots
  rw [htimed.base_eq]
  split_ifs
  · exact ⟨htimed, rfl⟩
  · refine pushFrame cpu ?_ hdistinct hf (admitted_block hadmitted) hfits now_us
    rw [htimed.stats_eq]
    obtain ⟨slots, pool, buffers, heq⟩ := htimed.same
    have hslots := htimed.slots
    rw [heq] at hslots ⊢
    exact ⟨⟨_, _, _, rfl⟩, htimed.stage, hslots⟩

theorem takeStats (h : Twin trains frames r s) :
    Twin trains frames r.takeStats.1 s.takeStats.1 ∧ r.takeStats.2 = s.takeStats.2 := by
  obtain ⟨stats, heq⟩ := r.finishTrain_eq
  obtain ⟨slots, pool, buffers, rfl⟩ := h.same
  unfold Reassembler.takeStats
  rw [finishTrain_with]
  dsimp only
  rw [heq]
  exact ⟨⟨⟨_, _, _, rfl⟩, h.stage, h.slots⟩, rfl⟩

theorem withBuffers (h : Twin trains frames r s) (buffers buffers' : List Buf) :
    Twin trains frames { r with buffers } { s with buffers := buffers' } := by
  obtain ⟨slots, pool, buffers, rfl⟩ := h.same
  exact ⟨⟨_, _, _, rfl⟩, h.stage, h.slots⟩

end Twin

inductive Call where
  | push (body : List UInt8) (now_us : UInt64)
  | takeStats

inductive Answer where
  | events (events : List Event)
  | stats (stats : Stats)

def call (cpu : Fec.Cpu) (r : Reassembler) : Call → Reassembler × Answer
  | .push body now_us =>
    let (r, events) := r.push cpu body now_us
    (r, .events events)
  | .takeStats =>
    let (r, stats) := r.takeStats
    (r, .stats stats)

def answers (cpu : Fec.Cpu) (r : Reassembler) (others : ℕ → List Buf → List Buf) : List Call → List Answer
  | [] => []
  | c :: calls =>
    let (r, answer) := ({ r with buffers := others 0 r.buffers } : Reassembler).call cpu c
    answer :: r.answers cpu (fun i => others (i + 1)) calls

end Reassembler

theorem Reassembler.Twin.answers_eq {trains : OutFrame → Bool} {frames : Set OutFrame} (cpu : Fec.Cpu)
    (hdistinct : ∀ f ∈ frames, ∀ g ∈ frames, f.frame_id = g.frame_id → f = g) {calls : List Call}
    (hcalls : ∀ body now_us, Call.push body now_us ∈ calls → ∀ hd payload,
      admitted body = some (hd, payload) → ∃ f ∈ frames, f.Fits (trains f) hd payload)
    {r s : Reassembler} (h : Twin trains frames r s) (others others' : ℕ → List Buf → List Buf) :
    r.answers cpu others calls = s.answers cpu others' calls := by
  induction calls generalizing r s others others' with
  | nil => rfl
  | cons c calls ih =>
    have hhere := h.withBuffers (others 0 r.buffers) (others' 0 s.buffers)
    have hlater := fun body now_us hin => hcalls body now_us (List.mem_cons_of_mem c hin)
    unfold Reassembler.answers
    cases c with
    | push body now_us =>
      obtain ⟨hnext, hevents⟩ := hhere.push cpu hdistinct (hcalls body now_us List.mem_cons_self) now_us
      unfold Reassembler.call
      dsimp only
      rw [hevents, ih hlater hnext]
    | takeStats =>
      obtain ⟨hnext, hstats⟩ := hhere.takeStats
      unfold Reassembler.call
      dsimp only
      rw [hstats, ih hlater hnext]

theorem Reassembler.Twin.new (trains : OutFrame → Bool) (frames : Set OutFrame) (buffers buffers' : List Buf)
    (pool pool' : List (List UInt8)) :
    Twin trains frames { Reassembler.new buffers false with pool }
      { Reassembler.new buffers' true with pool := pool' } := by
  refine ⟨⟨_, _, _, rfl⟩, rfl, fun i => ?_⟩
  have hnone : read (Vector.replicate 32 (none : Option Assembly)) i = none := by
    unfold Lib.read
    rw [Vector.getElem?_replicate]
    split_ifs <;> rfl
  unfold Reassembler.new
  dsimp only
  rw [hnone]
  exact .none

/-- In place or staged, a reassembler answers every call the same: the packets, which come in any order, with
any of them lost or doubled, are of frames with ids of their own. -/
theorem inPlace_eq_staged (cpu : Fec.Cpu) {trains : OutFrame → Bool} {frames : Set OutFrame}
    (hdistinct : ∀ f ∈ frames, ∀ g ∈ frames, f.frame_id = g.frame_id → f = g)
    {calls : List Reassembler.Call}
    (hcalls : ∀ body now_us, Reassembler.Call.push body now_us ∈ calls →
      ∃ f ∈ frames, ∃ sender fec bodies, packetize sender (trains f) f fec = some bodies ∧ body ∈ bodies)
    (buffers buffers' : List Buf) (pool pool' : List (List UInt8))
    (others others' : ℕ → List Buf → List Buf) :
    ({ Reassembler.new buffers false with pool } : Reassembler).answers cpu others calls =
      ({ Reassembler.new buffers' true with pool := pool' } : Reassembler).answers cpu others' calls := by
  have hnew := Reassembler.Twin.new trains frames buffers buffers' pool pool'
  refine hnew.answers_eq cpu hdistinct ?_ others others'
  intro body now_us hin hd payload hadmitted
  obtain ⟨f, hf, sender, fec, bodies, hsent, hbody⟩ := hcalls body now_us hin
  exact ⟨f, hf, fits_of_packetize hsent hbody hadmitted⟩

/-- A keyframe of three bytes. -/
def smallFrame : OutFrame where
  frame_id := 7
  data := [1, 2, 3]
  keyframe := true
  ltr := false
  recovery := false
  capture_us := 40
  encode_us := 2
  probe := false

/-- Its data shard comes twice, to a reassembler with a buffer that is full of other bytes and to one that
stages and has none. -/
theorem inPlace_eq_staged_small :
    let body := (smallFrame.header true 0.5 0 0).write ++ smallFrame.payload true 0 0
    let calls := [Reassembler.Call.push body 100, .push body 101, .takeStats]
    ({ Reassembler.new [⟨[9, 9, 9, 9], 8⟩] false with pool := [[5]] } : Reassembler).answers .scalar
        (fun _ b => b) calls =
      ({ Reassembler.new [] true with pool := [] } : Reassembler).answers .scalar (fun _ b => b) calls := by
  dsimp only
  refine @inPlace_eq_staged .scalar (fun _ => true) {smallFrame} ?_ _ ?_ _ _ _ _ _ _
  · rintro f rfl g rfl -
    rfl
  · obtain ⟨ps, hsent, -⟩ := @packetize_eq true smallFrame 0.5 .scalar (by decide)
    have hbody : (smallFrame.header true 0.5 0 0).write ++ smallFrame.payload true 0 0 ∈
        (List.range (divCeil (layoutOf true smallFrame.data.length smallFrame.probe).1 maxBlockData)).flatMap
          (smallFrame.blockBodies true 0.5) ++ ps :=
      List.mem_append_left _ (List.mem_flatMap.mpr ⟨0, by decide, List.mem_map.mpr ⟨0, by decide, rfl⟩⟩)
    intro body now_us hin
    refine ⟨smallFrame, rfl, .scalar, 0.5, _, hsent, ?_⟩
    have heq : body = (smallFrame.header true 0.5 0 0).write ++ smallFrame.payload true 0 0 := by
      simp only [List.mem_cons, Reassembler.Call.push.injEq, reduceCtorEq, List.not_mem_nil, or_false] at hin
      rcases hin with ⟨rfl, -⟩ | ⟨rfl, -⟩ <;> rfl
    rw [heq]
    exact hbody

end Rdpio.Hyper.Video
