import Rdpio.Hyper.VideoStagingRuns
import Rdpio.Hyper.VideoWhole

/-!
# The reassembler with its bounds checked

`Reassembler.push` once more, with every slot, block, shard and slice looked up where the source does it: `none` is an
index out of range, a shift or a subtraction past its end, or an `expect` of what is not there.
-/

namespace Rdpio.Hyper.Video

open Lib

def Block.hasDataChecked (x : Block) (i : ℕ) : Option Bool := if i < 64 then some (x.hasData i) else none

/-- The shard's part of the frame copied into its span. -/
def Assembly.placeChecked (a : Assembly) (block shard : ℕ) (payload : List UInt8) : Option Assembly := do
  let (lo, hi) := a.span block shard
  let part ← slice payload 0 (hi - lo)
  let bytes ← copyTo a.data.bytes lo hi part
  return { a with data := { a.data with bytes } }

def Assembly.entry (a : Assembly) (b : ℕ) : Option Block := (a.blocks[b]?).join

def shardChecked (a : Assembly) (b : ℕ) (block : Block) (stage : Bool)
    (s : List (List UInt8) × List (Option (List UInt8))) (i : ℕ) :
    Option (List (List UInt8) × List (Option (List UInt8))) :=
  if stage then (block.staged[i]?).map fun x => (s.1, s.2 ++ [x])
  else
    (block.hasDataChecked i).bind fun there =>
      if there then
        (slice a.data.bytes (a.span b i).1 (a.span b i).2).map fun bytes =>
          ((pooled s.1 bytes a.shard_size).1, s.2 ++ [some (pooled s.1 bytes a.shard_size).2])
      else some (s.1, s.2 ++ [none])

def placeRebuilt (b : ℕ) (block : Block) (stage : Bool) (shards : List (Option (List UInt8))) (a : Assembly) (i : ℕ) :
    Option Assembly :=
  match shards.getD i none with
  | none => some a
  | some s =>
    if stage then a.placeChecked b i s
    else (block.hasDataChecked i).bind fun there => if there then some a else a.placeChecked b i s

def Block.keepShards (block : Block) (stage ok : Bool) (shards : List (Option (List UInt8))) : Option Block :=
  if ok then
    some { block with
      staged := block.staged.map fun _ => none
      parity := block.parity.map fun _ => none }
  else if stage then
    (putBack (block.staged.map fun _ => none) (shards.take block.k)).bind fun staged =>
      (putBack (block.parity.map fun _ => none) (shards.drop block.k)).map fun parity => { block with staged, parity }
  else (putBack (block.parity.map fun _ => none) (shards.drop block.k)).map fun parity => { block with parity }

def rebuildChecked (cpu : Fec.Cpu) (a : Assembly) (b : ℕ) (stage : Bool) (pool : List (List UInt8)) :
    Option (Bool × Assembly × List (List UInt8)) := do
  let block ← a.entry b
  let (pool, data) ← (List.range block.k).foldlM (shardChecked a b block stage) (pool, [])
  let _ ← subChecked (data ++ block.parity).length block.k
  let (ok, shards) := Fec.reconstruct cpu (data ++ block.parity) block.k
  let a ← (List.range (if ok then block.k else 0)).foldlM (placeRebuilt b block stage shards) a
  let block' ← block.keepShards stage ok shards
  let blocks ← put a.blocks b (some block')
  let spare := if ok then shards else if stage then [] else shards.take block.k
  return (ok, { a with blocks }, (spare.filterMap id).foldl recycle pool)

def Block.seenChecked (x : Block) (h : ShardHeader) : Option Bool :=
  if h.shard.toNat < h.k.toNat then x.hasDataChecked h.shard.toNat
  else (x.parity[h.shard.toNat - h.k.toNat]?).map (·.isSome)

def Assembly.takeShardChecked (a : Assembly) (stage : Bool) (pool : List (List UInt8)) (h : ShardHeader)
    (payload : List UInt8) (block : Block) : Option (Assembly × Block × List (List UInt8)) :=
  let i := h.shard.toNat
  if i < h.k.toNat then
    let block := { block with data := block.data ||| 1 <<< UInt64.ofNat i }
    if stage then
      let (pool, copy) := pooled pool payload payload.length
      (put block.staged i (some copy)).map fun staged => (a, { block with staged }, pool)
    else (a.placeChecked h.block.toNat i payload).map fun a => (a, block, pool)
  else
    let (pool, copy) := pooled pool payload payload.length
    (put block.parity (i - h.k.toNat) (some copy)).map fun parity => (a, { block with parity }, pool)

def Assembly.completeBlock (cpu : Fec.Cpu) (a : Assembly) (b missing : ℕ) (stage : Bool)
    (pool : List (List UInt8)) : Option (Bool × Assembly × List (List UInt8)) :=
  if 0 < missing || stage then rebuildChecked cpu a b stage pool else some (true, a, pool)

/-- A block that has enough shards. -/
def Assembly.closeBlock (cpu : Fec.Cpu) (a : Assembly) (b missing : ℕ) (stage : Bool) (pool : List (List UInt8)) :
    Option Arrival := do
  let (ok, a, pool) ← a.completeBlock cpu b missing stage pool
  if !ok then return .kept a pool 0
  else
    let block ← a.entry b
    let blocks ← put a.blocks b (some { block with done := true, parity := [] })
    let pool := (block.parity.filterMap id).foldl recycle pool
    let a := { a with blocks, blocks_done := a.blocks_done + 1 }
    return if a.blocks_done < a.blocks.length then .kept a pool missing else .whole a pool missing

def Assembly.addShard (cpu : Fec.Cpu) (stage : Bool) (pool : List (List UInt8)) (a : Assembly) (h : ShardHeader)
    (payload : List UInt8) (block : Block) : Option Arrival := do
  let (a, block, pool) ← a.takeShardChecked stage pool h payload block
  let block := { block with have_shards := block.have_shards + 1 }
  let blocks ← put a.blocks h.block.toNat (some block)
  let a := { a with blocks }
  if block.have_shards < block.k then return .kept a pool 0
  else
    let missing ← subChecked h.k.toNat (countOnes block.data)
    a.closeBlock cpu h.block.toNat missing stage pool

/-- A shard of a frame in flight. -/
def Assembly.pushChecked (cpu : Fec.Cpu) (stage : Bool) (pool : List (List UInt8)) (a : Assembly)
    (h : ShardHeader) (payload : List UInt8) : Option Arrival := do
  let held ← a.blocks[h.block.toNat]?
  let block := held.getD (.fresh stage h.k.toNat h.m.toNat)
  if block.done || block.k != h.k.toNat || block.parity.length != h.m.toNat then return .ignored
  else
    let seen ← block.seenChecked h
    if seen then return .ignored
    else a.addShard cpu stage pool h payload block

namespace Reassembler

def slotChecked (r : Reassembler) (frame_id : UInt32) : Option (Option Assembly) := r.slots[slotOf frame_id]?

def setSlotChecked (r : Reassembler) (frame_id : UInt32) (a : Option Assembly) : Option Reassembler :=
  if slotOf frame_id < r.slots.size then some (r.setSlot frame_id a) else none

def dropIdChecked (r : Reassembler) (id : UInt32) : Option Reassembler :=
  (r.slotChecked id).map fun held => match held with
    | some o => if o.frame_id = id then r.dropSlot (slotOf id) else r
    | none => r

/-- The frame that is whole is expected in its slot. -/
def completeChecked (r : Reassembler) (frame_id : UInt32) : Option (Reassembler × List Event) := do
  let held ← r.slotChecked frame_id
  let a ← held
  let next := r.next.getD frame_id
  let lost := if frame_id ≠ next then [Event.lost next (frame_id - 1)] else []
  let stats := { r.stats with frames_lost := r.stats.frames_lost + (frame_id - next) }
  let r ← ({ r with stats } : Reassembler).setSlotChecked frame_id none
  let base := r.base.getD frame_id
  let r ← (List.range (min (frame_id - base).toNat maxInFlight)).foldlM
    (fun r i => r.dropIdChecked (base + UInt32.ofNat i)) r
  return (r.deliver a, lost ++ [.frame a.inFrame])

def startFrameChecked (r : Reassembler) (h : ShardHeader) (payload_len : ℕ) (now_us : UInt64) :
    Option (Option Reassembler) :=
  let frame_len := h.frame_len.toNat
  if h.blocks.toNat * maxBlockData * payload_len < frame_len then some none
  else
    let (buffers, data) := takeBuf r.buffers frame_len
    let r := { r with buffers }
    (r.setSlotChecked h.frame_id (some (Assembly.start h payload_len now_us data))).map some

def arriveChecked (r : Reassembler) (frame_id : UInt32) : Arrival → Option (Reassembler × List Event)
  | .ignored => some (r, [])
  | .kept a pool recovered =>
    let stats := { r.stats with recovered := r.stats.recovered + UInt32.ofNat recovered }
    (({ r with pool, stats } : Reassembler).setSlotChecked frame_id (some a)).map fun r => (r, [])
  | .whole a pool recovered =>
    let stats := { r.stats with recovered := r.stats.recovered + UInt32.ofNat recovered }
    (({ r with pool, stats } : Reassembler).setSlotChecked frame_id (some a)).bind (·.completeChecked frame_id)

/-- A shard for the frame that is expected in its slot. -/
def pushShardChecked (cpu : Fec.Cpu) (r : Reassembler) (h : ShardHeader) (payload : List UInt8) :
    Option (Reassembler × List Event) := do
  let held ← r.slotChecked h.frame_id
  let a ← held
  if payload.length ≠ a.shard_size ∨ a.blocks.length ≠ h.blocks.toNat then return (r, [])
  else
    let arrival ← a.pushChecked cpu r.stage r.pool h payload
    r.arriveChecked h.frame_id arrival

def pushFrameChecked (cpu : Fec.Cpu) (r : Reassembler) (h : ShardHeader) (payload : List UInt8) (now_us : UInt64) :
    Option (Reassembler × List Event) := do
  let held ← r.slotChecked h.frame_id
  if held.any (·.frame_id == h.frame_id) then r.pushShardChecked cpu h payload
  else
    let (r, events) := r.makeRoom h.frame_id
    match ← r.startFrameChecked h payload.length now_us with
    | none => return (r, events)
    | some r =>
      let (r, more) ← r.pushShardChecked cpu h payload
      return (r, events ++ more)

def pushChecked (cpu : Fec.Cpu) (r : Reassembler) (body : List UInt8) (now_us : UInt64) :
    Option (Reassembler × List Event) :=
  match admitted body with
  | none => some (r, [])
  | some (h, payload) =>
    let r := { r with stats := { r.stats with bytes := r.stats.bytes + UInt64.ofNat body.length } }
    let r := r.timeTrain h body.length now_us
    if r.base.any (older h.frame_id) then some (r, [])
    else
      let r := { r with stats := { r.stats with shards := r.stats.shards + 1 } }
      r.pushFrameChecked cpu h payload now_us

end Reassembler

/-! ## A frame in flight has its bytes and its shards at their sizes (`Assembly.Sound`) -/

/-! ## Blocks and frames -/

structure Block.Sound (size : ℕ) (stage : Bool) (x : Block) : Prop where
  k : x.k ≤ 64
  bits : ∀ i < 64, x.hasData i = true → i < x.k
  staged : x.done = false → stage = true → x.staged.length = x.k
  staged_size : ∀ i s, x.staged.getD i none = some s → s.length = size
  parity_size : ∀ i s, x.parity.getD i none = some s → s.length = size

structure Assembly.Sound (stage : Bool) (a : Assembly) : Prop where
  bytes : a.data.bytes.length = a.frame_len
  blocks : ∀ b x, a.blocks.getD b none = some x → x.Sound a.shard_size stage

theorem getD_blank {α : Type*} {l : List (Option α)} (h : ∀ x ∈ l, x = none) (i : ℕ) : l.getD i none = none := by
  rw [List.getD_eq_getElem?_getD]
  cases hx : l[i]? with
  | none => rfl
  | some x => exact h x (List.mem_of_getElem? hx)

theorem Block.fresh_sound (size : ℕ) (stage : Bool) {k : ℕ} (hk : k ≤ 64) (m : ℕ) :
    (Block.fresh stage k m).Sound size stage where
  k := hk
  bits i hi hset := by
    rw [Block.hasData_iff _ hi] at hset
    simp [Block.fresh] at hset
  staged _ hstage := by
    rw [Block.fresh, if_pos hstage, List.length_replicate]
  staged_size i s hs := by
    have hblank : ∀ x ∈ (Block.fresh stage k m).staged, x = none := by
      intro x hx
      unfold Block.fresh at hx
      dsimp only at hx
      split_ifs at hx
      · exact List.eq_of_mem_replicate hx
      · cases hx
    rw [getD_blank hblank] at hs
    cases hs
  parity_size i s hs := by
    have hblank : ∀ x ∈ (Block.fresh stage k m).parity, x = none := fun x hx => List.eq_of_mem_replicate hx
    rw [getD_blank hblank] at hs
    cases hs

theorem Block.Sound.countOnes_le {size : ℕ} {stage : Bool} {x : Block} (h : x.Sound size stage) :
    countOnes x.data ≤ x.k := by
  have hk := h.k
  unfold countOnes
  rw [show 64 = x.k + (64 - x.k) by omega, List.range_add, List.countP_append, List.countP_map]
  have hnone : List.countP ((fun i => x.data.toNat.testBit i) ∘ (x.k + ·)) (List.range (64 - x.k)) = 0 := by
    rw [List.countP_eq_zero]
    intro i hi hset
    rw [List.mem_range] at hi
    have := h.bits (x.k + i) (by omega) ((x.hasData_iff (by omega)).mpr hset)
    omega
  have hle : List.countP (fun i => x.data.toNat.testBit i) (List.range x.k) ≤ (List.range x.k).length :=
    List.countP_le_length
  rw [List.length_range] at hle
  omega

theorem Assembly.span_bounds (a : Assembly) (b i : ℕ) : (a.span b i).1 ≤ (a.span b i).2 ∧ (a.span b i).2 ≤ a.frame_len ∧
      (a.span b i).2 - (a.span b i).1 ≤ a.shard_size := by
  unfold Assembly.span
  dsimp only
  omega

theorem Assembly.placeChecked_eq {a : Assembly} (hbytes : a.data.bytes.length = a.frame_len) (b i : ℕ)
    {payload : List UInt8} (hsize : payload.length = a.shard_size) :
    a.placeChecked b i payload = some (a.place b i payload) ∧
      a.place b i payload = { a with data := (a.place b i payload).data } ∧
      (a.place b i payload).data.bytes.length = a.frame_len := by
  obtain ⟨hlo, hhi, hlen⟩ := a.span_bounds b i
  have hplace := Assembly.place_eq hbytes b i hsize.ge
  refine ⟨?_, by rw [hplace], ?_⟩
  · have hpart : slice payload 0 ((a.span b i).2 - (a.span b i).1) =
        some (payload.take ((a.span b i).2 - (a.span b i).1)) := by
      rw [slice, if_pos (by omega), List.drop_zero, Nat.sub_zero]
    have htake : (payload.take ((a.span b i).2 - (a.span b i).1)).length = (a.span b i).2 - (a.span b i).1 := by
      rw [List.length_take]
      omega
    unfold Assembly.placeChecked Assembly.place
    dsimp only
    rw [hpart]
    simp only [Option.bind_eq_bind, Option.bind_some]
    rw [copyTo, if_pos ⟨hlo, by omega, htake⟩]
    rfl
  · rw [hplace]
    exact (length_putPiece hsize.ge _ _).trans hbytes

section

variable {a : Assembly} {b : ℕ} {x : Block} {stage : Bool}

theorem Assembly.shardChecked_eq (hbytes : a.data.bytes.length = a.frame_len) (hx : x.Sound a.shard_size stage)
    (hdone : x.done = false) (pool : List (List UInt8)) :
    (List.range x.k).foldlM (shardChecked a b x stage) (pool, []) = some (rebuildData a b x stage pool) := by
  refine (foldlM_range_eq (fun _ _ => True) trivial fun i s hi _ => ⟨?_, trivial⟩).1
  unfold shardChecked
  by_cases hstage : stage = true
  · have hlt : i < x.staged.length := by
      rw [hx.staged hdone hstage]
      exact hi
    rw [if_pos hstage, if_pos hstage, List.getElem?_eq_getElem hlt, List.getD_eq_getElem _ _ hlt]
    rfl
  · have hk := hx.k
    obtain ⟨hlo, hhi, -⟩ := a.span_bounds b i
    rw [if_neg hstage, if_neg hstage, Block.hasDataChecked, if_pos (by omega), Option.bind_some]
    split_ifs
    · rw [slice, if_pos ⟨hlo, by omega⟩]
      rfl
    · rfl

theorem Assembly.rebuildData_sound (hbytes : a.data.bytes.length = a.frame_len) (hx : x.Sound a.shard_size stage)
    (pool : List (List UInt8)) :
    (rebuildData a b x stage pool).2.length = x.k ∧
      ∀ i s, (rebuildData a b x stage pool).2.getD i none = some s → s.length = a.shard_size := by
  cases stage with
  | true =>
    rw [rebuildData_staged]
    refine ⟨by rw [List.length_map, List.length_range], fun i s hs => ?_⟩
    rw [List.getD_eq_getElem?_getD, List.getElem?_map] at hs
    by_cases hi : i < x.k
    · rw [List.getElem?_range hi] at hs
      exact hx.staged_size i s hs
    · rw [List.getElem?_eq_none (by rw [List.length_range]; omega)] at hs
      cases hs
  | false =>
    rw [rebuildData_inPlace b x pool hbytes]
    refine ⟨by rw [List.length_map, List.length_range], fun i s hs => ?_⟩
    rw [List.getD_eq_getElem?_getD, List.getElem?_map] at hs
    by_cases hi : i < x.k
    · rw [List.getElem?_range hi, Option.map_some, Option.getD_some] at hs
      split_ifs at hs
      cases hs
      exact length_resize _ _
    · rw [List.getElem?_eq_none (by rw [List.length_range]; omega)] at hs
      cases hs

theorem Assembly.placeRebuilt_eq (stage : Bool) (hbytes : a.data.bytes.length = a.frame_len) (hk : x.k ≤ 64)
    {shards : List (Option (List UInt8))}
    (hshards : ∀ i < x.k, ∃ s, shards.getD i none = some s ∧ s.length = a.shard_size) :
    let a' := (List.range x.k).foldl (fun a i =>
      if stage || !x.hasData i then a.place b i ((shards.getD i none).getD []) else a) a
    (List.range x.k).foldlM (placeRebuilt b x stage shards) a = some a' ∧
      a' = { a with data := a'.data } ∧ a'.data.bytes.length = a.frame_len := by
  refine foldlM_range_eq (fun _ (a' : Assembly) => a' = { a with data := a'.data } ∧ a'.data.bytes.length = a.frame_len)
    ⟨rfl, hbytes⟩ ?_
  rintro i a' hi ⟨hsame, hlen⟩
  obtain ⟨s, hs, hsize⟩ := hshards i hi
  have hframe : a'.frame_len = a.frame_len := by rw [hsame]
  obtain ⟨hplace, hdata, hlen'⟩ := Assembly.placeChecked_eq (hlen.trans hframe.symm) b i
    (hsize.trans (show a.shard_size = a'.shard_size by rw [hsame]))
  have hkeeps : a'.place b i s = { a with data := (a'.place b i s).data } ∧
      (a'.place b i s).data.bytes.length = a.frame_len := by
    refine ⟨?_, hlen'.trans hframe⟩
    obtain ⟨placed, hplaced⟩ : ∃ placed, (a'.place b i s).data = placed := ⟨_, rfl⟩
    rw [hplaced] at hdata ⊢
    rw [hdata, hsame]
  unfold placeRebuilt
  rw [hs, Option.getD_some]
  dsimp only
  cases stage with
  | true =>
    rw [if_pos rfl, if_pos (Bool.true_or _)]
    exact ⟨hplace, hkeeps⟩
  | false =>
    rw [if_neg Bool.false_ne_true, Block.hasDataChecked, if_pos (by omega), Option.bind_some, Bool.false_or]
    cases x.hasData i with
    | true => exact ⟨rfl, hsame, hlen⟩
    | false => exact ⟨hplace, hkeeps⟩

theorem rebuild_data (cpu : Fec.Cpu) (a : Assembly) (b : ℕ) (x : Block) (stage : Bool) (pool : List (List UInt8)) :
    (rebuild cpu a b x stage pool).2.1 = { a with data := (rebuild cpu a b x stage pool).2.1.data } := by
  unfold rebuild
  dsimp only
  split_ifs
  · refine foldl_range_rule (fun _ (a' : Assembly) => a' = { a with data := a'.data }) rfl ?_
    rintro i a' - hsame
    split_ifs
    · unfold Assembly.place
      dsimp only
      rw [hsame]
    · exact hsame
  · rfl
  · rfl

theorem rebuild_blocks (cpu : Fec.Cpu) (a : Assembly) (b : ℕ) (x : Block) (stage : Bool) (pool : List (List UInt8))
    (l : List (Option Block)) :
    rebuild cpu { a with blocks := l } b x stage pool =
      ((rebuild cpu a b x stage pool).1, { (rebuild cpu a b x stage pool).2.1 with blocks := l },
        (rebuild cpu a b x stage pool).2.2) := by
  have hdata : rebuildData { a with blocks := l } b x stage pool = rebuildData a b x stage pool := rfl
  unfold rebuild
  rw [hdata]
  dsimp only
  split_ifs
  · dsimp only
    congr 2
    refine foldl_range_rel (fun _ (a' a'' : Assembly) => a' = { a'' with blocks := l }) rfl ?_
    rintro i a' a'' - rfl
    split_ifs <;> rfl
  · rfl
  · rfl

theorem Block.Sound.blank {size : ℕ} (hx : x.Sound size stage) (hdone : x.done = false) : ({ x with
      staged := x.staged.map fun _ => none
      parity := x.parity.map fun _ => none } : Block).Sound size stage where
  k := hx.k
  bits := hx.bits
  staged := fun _ hstage => (List.length_map _).trans (hx.staged hdone hstage)
  staged_size := fun i s hs => by
    rw [getD_blank fun y hy => by obtain ⟨_, -, rfl⟩ := List.mem_map.mp hy; rfl] at hs
    cases hs
  parity_size := fun i s hs => by
    rw [getD_blank fun y hy => by obtain ⟨_, -, rfl⟩ := List.mem_map.mp hy; rfl] at hs
    cases hs

theorem Block.Sound.putBack {size : ℕ} (hx : x.Sound size stage) {shards : List (Option (List UInt8))}
    (hcount : shards.length = x.k) (hsizes : ∀ i s, shards.getD i none = some s → s.length = size) :
    ({ x with staged := if stage then shards else x.staged, parity := x.parity } : Block).Sound size stage where
  k := hx.k
  bits := hx.bits
  staged := fun _ hstage => (congrArg List.length (if_pos hstage)).trans hcount
  staged_size := fun i s hs => by
    dsimp only at hs
    split_ifs at hs
    · exact hsizes i s hs
    · exact hx.staged_size i s hs
  parity_size := hx.parity_size

theorem Block.keepShards_failed {size : ℕ} (hx : x.Sound size stage) (hdone : x.done = false)
    {shards : List (Option (List UInt8))} (hcount : shards.length = x.k) :
    x.keepShards stage false (shards ++ x.parity) =
      some { x with staged := if stage then shards else x.staged, parity := x.parity } := by
  unfold Block.keepShards
  rw [if_neg Bool.false_ne_true, List.take_left' hcount, List.drop_left' hcount, putBack_blank _ _ rfl]
  by_cases hstage : stage = true
  · rw [if_pos hstage, if_pos hstage, putBack_blank _ _ ((hx.staged hdone hstage).trans hcount.symm)]
    rfl
  · rw [if_neg hstage, if_neg hstage]
    rfl

theorem Assembly.rebuildChecked_eq (cpu : Fec.Cpu) (hbytes : a.data.bytes.length = a.frame_len)
    (hx : x.Sound a.shard_size stage) (hdone : x.done = false) (hb : a.blocks[b]? = some (some x))
    (pool : List (List UInt8)) :
    ∃ ok a' x' p, rebuild cpu a b x stage pool = (ok, a', x', p) ∧
      rebuildChecked cpu a b stage pool = some (ok, { a' with blocks := a.blocks.set b (some x') }, p) ∧
      a' = { a with data := a'.data } ∧ a'.data.bytes.length = a.frame_len ∧ x'.Sound a.shard_size stage ∧
      x'.done = false := by
  obtain ⟨hcount, hsizes⟩ := Assembly.rebuildData_sound (b := b) hbytes hx pool
  have hdata := Assembly.shardChecked_eq (b := b) hbytes hx hdone pool
  obtain ⟨data, hfrom⟩ : ∃ data, rebuildData a b x stage pool = data := ⟨_, rfl⟩
  rw [hfrom] at hcount hsizes hdata
  have hin : b < a.blocks.length := (List.getElem?_eq_some_iff.mp hb).1
  have hlen : (data.2 ++ x.parity).length = x.k + x.parity.length := by rw [List.length_append, hcount]
  have hparity : ∀ i s, (data.2 ++ x.parity).getD (x.k + i) none = some s → s.length = a.shard_size := by
    intro i s hs
    rw [List.getD_eq_getElem?_getD, List.getElem?_append_right (by omega), hcount, Nat.add_sub_cancel_left,
      ← List.getD_eq_getElem?_getD] at hs
    exact hx.parity_size i s hs
  have hleft : ∀ i < x.k, (data.2 ++ x.parity).getD i none = data.2.getD i none := by
    intro i hi
    rw [List.getD_eq_getElem?_getD, List.getElem?_append_left (by omega), ← List.getD_eq_getElem?_getD]
  obtain ⟨hfailed, hmade⟩ := Fec.reconstruct_spec cpu (k := x.k) (by omega) hparity
  have hchecked : rebuildChecked cpu a b stage pool = do
      let r := Fec.reconstruct cpu (data.2 ++ x.parity) x.k
      let a' ← (List.range (if r.1 then x.k else 0)).foldlM (placeRebuilt b x stage r.2) a
      let x' ← x.keepShards stage r.1 r.2
      let blocks ← put a'.blocks b (some x')
      let spare := if r.1 then r.2 else if stage then [] else r.2.take x.k
      return (r.1, { a' with blocks }, (spare.filterMap id).foldl recycle data.1) := by
    have hentry : a.entry b = some x := by rw [Assembly.entry, hb]; rfl
    unfold rebuildChecked
    rw [hentry]
    simp only [Option.bind_eq_bind, Option.bind_some]
    rw [hdata]
    simp only [Option.bind_some]
    rw [subChecked, if_pos (by omega), Option.bind_some]
  have hrebuild : rebuild cpu a b x stage pool =
      let r := Fec.reconstruct cpu (data.2 ++ x.parity) x.k
      if r.1 then
        (true, (List.range x.k).foldl (fun a i =>
            if stage || !x.hasData i then a.place b i ((r.2.getD i none).getD []) else a) a,
          { x with staged := x.staged.map fun _ => none, parity := x.parity.map fun _ => none },
          (r.2.filterMap id).foldl recycle data.1)
      else
        (false, a, { x with staged := if stage then r.2.take x.k else x.staged, parity := r.2.drop x.k },
          if stage then data.1 else ((r.2.take x.k).filterMap id).foldl recycle data.1) := by
    unfold rebuild
    rw [hfrom]
  rw [hchecked, hrebuild]
  rcases hR : Fec.reconstruct cpu (data.2 ++ x.parity) x.k with ⟨ok, shards⟩
  rw [hR] at hfailed hmade
  dsimp only at hfailed hmade ⊢
  cases ok with
  | true =>
    have hshards : ∀ i < x.k, ∃ s, shards.getD i none = some s ∧ s.length = a.shard_size := by
      intro i hi
      obtain ⟨s, hs, hwas | ⟨-, hsize⟩⟩ := hmade rfl i hi
      · rw [hleft i hi] at hwas
        exact ⟨s, hs, hsizes i s hwas⟩
      · exact ⟨s, hs, hsize⟩
    obtain ⟨hplaces, hsame, hlen'⟩ := Assembly.placeRebuilt_eq (b := b) stage hbytes hx.k hshards
    refine ⟨true, _, _, _, if_pos rfl, ?_, hsame, hlen', ?_, hdone⟩
    · rw [if_pos rfl, hplaces]
      simp only [Option.bind_eq_bind, Option.bind_some, Block.keepShards, if_true]
      rw [hsame, put, if_pos hin]
      rfl
    · exact hx.blank hdone
  | false =>
    obtain rfl : shards = data.2 ++ x.parity := hfailed rfl
    have htake : (data.2 ++ x.parity).take x.k = data.2 := List.take_left' hcount
    have hdrop : (data.2 ++ x.parity).drop x.k = x.parity := List.drop_left' hcount
    simp only [Bool.false_eq_true, if_false]
    rw [htake, hdrop, Block.keepShards_failed hx hdone hcount]
    refine ⟨false, a, _, _, rfl, ?_, rfl, hbytes, ?_, hdone⟩
    · simp only [Option.bind_eq_bind, Option.bind_some, List.range_zero, List.foldlM_nil, Option.pure_def]
      rw [put, if_pos hin, Option.bind_some]
      split_ifs <;> rfl
    · exact hx.putBack hcount hsizes

end

/-! ## A shard -/

section

variable {a : Assembly} {h : ShardHeader} {payload : List UInt8} {x : Block} {stage : Bool}

theorem Assembly.entry_set {b : ℕ} (hb : b < a.blocks.length) (x : Block) :
    Assembly.entry { a with blocks := a.blocks.set b (some x) } b = some x := by
  unfold Assembly.entry
  rw [List.getElem?_set_self hb]
  rfl

theorem Assembly.takeShardChecked_eq (hbytes : a.data.bytes.length = a.frame_len) (hx : x.Sound a.shard_size stage)
    (hdone : x.done = false) (hk : x.k = h.k.toNat) (hm : x.parity.length = h.m.toNat)
    (hshard : h.shard.toNat < h.k.toNat + h.m.toNat) (hsize : payload.length = a.shard_size)
    (pool : List (List UInt8)) :
    ∃ a' x' p, a.takeShard stage pool h payload x = (a', x', p) ∧
      a.takeShardChecked stage pool h payload x = some (a', x', p) ∧ a' = { a with data := a'.data } ∧
      a'.data.bytes.length = a.frame_len ∧ x'.Sound a.shard_size stage ∧ x'.k = x.k ∧ x'.done = false := by
  have hk64 := hx.k
  have hcopy : resize payload payload.length = payload := resize_self payload
  have hset : ∀ (l : List (Option (List UInt8))) j, (∀ i s, l.getD i none = some s → s.length = a.shard_size) →
      ∀ i s, (l.set j (some payload)).getD i none = some s → s.length = a.shard_size := by
    intro l j hl i s hs
    rw [List.getD_eq_getElem?_getD, List.getElem?_set] at hs
    split_ifs at hs
    · cases hs
      exact hsize
    · cases hs
    · rw [← List.getD_eq_getElem?_getD] at hs
      exact hl i s hs
  unfold Assembly.takeShard Assembly.takeShardChecked pooled
  dsimp only
  rw [hcopy]
  by_cases hi : h.shard.toNat < h.k.toNat
  · have hbits : ∀ j < 64, Block.hasData { x with data := x.data ||| 1 <<< UInt64.ofNat h.shard.toNat } j = true →
        j < x.k := by
      intro j hj hon
      rw [Block.hasData_or x (by omega) hj, Bool.or_eq_true, decide_eq_true_eq] at hon
      rcases hon with hon | rfl
      · exact hx.bits j hj hon
      · omega
    rw [if_pos hi, if_pos hi]
    by_cases hstage : stage = true
    · have hstaged := hx.staged hdone hstage
      rw [if_pos hstage, if_pos hstage, put, if_pos (by omega)]
      refine ⟨_, _, _, rfl, rfl, rfl, hbytes, ?_, rfl, hdone⟩
      exact ⟨hx.k, hbits, fun _ _ => List.length_set.trans hstaged, hset _ _ hx.staged_size, hx.parity_size⟩
    · obtain ⟨hplace, hsame, hlen⟩ := Assembly.placeChecked_eq hbytes h.block.toNat h.shard.toNat hsize
      rw [if_neg hstage, if_neg hstage, hplace]
      refine ⟨_, _, _, rfl, rfl, hsame, hlen, ?_, rfl, hdone⟩
      exact ⟨hx.k, hbits, fun _ hstage' => absurd hstage' hstage, hx.staged_size, hx.parity_size⟩
  · rw [if_neg hi, if_neg hi, put, if_pos (by omega)]
    refine ⟨_, _, _, rfl, rfl, rfl, hbytes, ?_, rfl, hdone⟩
    exact ⟨hx.k, hx.bits, hx.staged, hx.staged_size, hset _ _ hx.parity_size⟩

theorem Assembly.Sound.blockOf (ha : a.Sound stage) (hk : h.k.toNat ≤ 64) :
    (a.blockOf stage h).Sound a.shard_size stage := by
  unfold Assembly.blockOf
  cases hx : a.blocks.getD h.block.toNat none with
  | none => exact Block.fresh_sound _ _ hk _
  | some x => exact ha.blocks _ x hx

theorem Assembly.pushChecked_eq_addShard (cpu : Fec.Cpu) (pool : List (List UInt8)) (hk : h.k.toNat ≤ 64)
    (hshard : h.shard.toNat < h.k.toNat + h.m.toNat) (hb : h.block.toNat < a.blocks.length) :
    a.pushChecked cpu stage pool h payload =
      if (a.blockOf stage h).refuses h then some .ignored
      else a.addShard cpu stage pool h payload (a.blockOf stage h) := by
  have hheld : a.blocks[h.block.toNat]? = some (a.blocks.getD h.block.toNat none) := by
    rw [List.getD_eq_getElem _ _ hb, List.getElem?_eq_getElem hb]
  unfold Assembly.pushChecked
  rw [hheld]
  simp only [Option.bind_eq_bind, Option.bind_some]
  rw [show (a.blocks.getD h.block.toNat none).getD (.fresh stage h.k.toNat h.m.toNat) = a.blockOf stage h from rfl]
  obtain ⟨x, hx⟩ : ∃ x, a.blockOf stage h = x := ⟨_, rfl⟩
  rw [hx]
  unfold Block.refuses
  by_cases hodd : (x.done || x.k != h.k.toNat || x.parity.length != h.m.toNat) = true
  · rw [if_pos hodd, if_pos (by rw [hodd, Bool.true_or])]
    rfl
  · have hm : x.parity.length = h.m.toNat := by
      simp only [Bool.or_eq_true, not_or, bne_iff_ne, not_not] at hodd
      exact hodd.2
    have hseen : x.seenChecked h = some (if h.shard.toNat < h.k.toNat then x.hasData h.shard.toNat
        else (x.parity.getD (h.shard.toNat - h.k.toNat) none).isSome) := by
      unfold Block.seenChecked
      split_ifs with hi
      · rw [Block.hasDataChecked, if_pos (by omega)]
      · rw [List.getElem?_eq_getElem (by omega), List.getD_eq_getElem _ _ (by omega)]
        rfl
    rw [if_neg hodd, hseen, Option.bind_some, Bool.eq_false_iff.mpr hodd, Bool.false_or]
    rfl

theorem Assembly.Sound.set (ha : a.Sound stage) {a' : Assembly} (hsame : a' = { a with data := a'.data })
    (hlen : a'.data.bytes.length = a.frame_len) (hx : x.Sound a.shard_size stage) (b n : ℕ) :
    Assembly.Sound stage { a' with blocks := a'.blocks.set b (some x), blocks_done := n } where
  bytes := hlen.trans (by rw [hsame])
  blocks := by
    intro j y hy
    have hblocks : a'.blocks = a.blocks := by rw [hsame]
    have hsize : a'.shard_size = a.shard_size := by rw [hsame]
    dsimp only at hy ⊢
    rw [hsize]
    rw [hblocks, List.getD_eq_getElem?_getD, List.getElem?_set] at hy
    split_ifs at hy
    · cases hy
      exact hx
    · cases hy
    · rw [← List.getD_eq_getElem?_getD] at hy
      exact ha.blocks j y hy

theorem Assembly.closeBlock_eq (cpu : Fec.Cpu) (hbytes : a.data.bytes.length = a.frame_len)
    (hx : x.Sound a.shard_size stage) (hdone : x.done = false) {b : ℕ} (hb : b < a.blocks.length) (missing : ℕ)
    (pool : List (List UInt8)) :
    ∃ ok a' x' p, (if 0 < missing || stage then rebuild cpu a b x stage pool else (true, a, x, pool)) =
        (ok, a', x', p) ∧
      a' = { a with data := a'.data } ∧ a'.data.bytes.length = a.frame_len ∧ x'.Sound a.shard_size stage ∧
      Assembly.closeBlock cpu { a with blocks := a.blocks.set b (some x) } b missing stage pool = some
        (if ok = false then .kept { a' with blocks := a'.blocks.set b (some x') } p 0
        else if a'.blocks_done + 1 < a'.blocks.length then
          .kept { a' with
            blocks := a'.blocks.set b (some { x' with done := true, parity := [] })
            blocks_done := a'.blocks_done + 1 } ((x'.parity.filterMap id).foldl recycle p) missing
        else .whole { a' with
            blocks := a'.blocks.set b (some { x' with done := true, parity := [] })
            blocks_done := a'.blocks_done + 1 } ((x'.parity.filterMap id).foldl recycle p) missing) := by
  have hcomplete : ∃ ok a' x' p,
      (if 0 < missing || stage then rebuild cpu a b x stage pool else (true, a, x, pool)) = (ok, a', x', p) ∧
      a' = { a with data := a'.data } ∧ a'.data.bytes.length = a.frame_len ∧ x'.Sound a.shard_size stage ∧
      Assembly.completeBlock cpu { a with blocks := a.blocks.set b (some x) } b missing stage pool =
        some (ok, { a' with blocks := a.blocks.set b (some x') }, p) := by
    unfold Assembly.completeBlock
    split_ifs with hneeded
    · obtain ⟨ok, a', x', p, hrebuild, hchecked, hsame, hlen, hx', -⟩ := Assembly.rebuildChecked_eq
        (a := { a with blocks := a.blocks.set b (some x) }) cpu hbytes hx hdone (List.getElem?_set_self hb) pool
      rw [rebuild_blocks] at hrebuild
      rcases hr : rebuild cpu a b x stage pool with ⟨ok', a'', x'', p'⟩
      rw [hr] at hrebuild
      obtain ⟨rfl, rfl, rfl, rfl⟩ : ok' = ok ∧ { a'' with blocks := a.blocks.set b (some x) } = a' ∧ x'' = x' ∧
          p' = p := by simpa only [Prod.mk.injEq] using hrebuild
      have hdata : a'' = { a with data := a''.data } := by
        have hkeep := rebuild_data cpu a b x stage pool
        rwa [hr] at hkeep
      refine ⟨ok', a'', x'', p', rfl, hdata, hlen, hx', ?_⟩
      rw [hchecked]
      simp only [List.set_set]
    · exact ⟨true, a, x, pool, rfl, rfl, hbytes, hx, rfl⟩
  obtain ⟨ok, a', x', p, hfinish, hsame, hlen, hx', hchecked⟩ := hcomplete
  refine ⟨ok, a', x', p, hfinish, hsame, hlen, hx', ?_⟩
  have hblocks : a'.blocks = a.blocks := by rw [hsame]
  unfold Assembly.closeBlock
  rw [hchecked]
  simp only [Option.bind_eq_bind, Option.bind_some]
  cases ok with
  | false =>
    rw [hblocks]
    rfl
  | true =>
    rw [← hblocks, Assembly.entry_set (by rwa [hblocks])]
    simp only [Bool.not_true, Bool.false_eq_true, if_false, Option.bind_some]
    rw [put, if_pos (by rwa [List.length_set, hblocks])]
    simp only [Option.bind_some, List.set_set, List.length_set, Bool.true_eq_false, if_false, Option.pure_def]

theorem Assembly.Sound.push (ha : a.Sound stage) (cpu : Fec.Cpu) (pool : List (List UInt8)) (hk : h.k.toNat ≤ 64)
    (hshard : h.shard.toNat < h.k.toNat + h.m.toNat) (hb : h.block.toNat < a.blocks.length)
    (hsize : payload.length = a.shard_size) :
    a.pushChecked cpu stage pool h payload = some (a.push cpu stage pool h payload) ∧
      ∀ a', (a.push cpu stage pool h payload).assembly = some a' → a'.Sound stage ∧ a'.frame_len = a.frame_len := by
  have hx := ha.blockOf (h := h) hk
  rw [Assembly.pushChecked_eq_addShard cpu pool hk hshard hb]
  obtain ⟨x, hblock⟩ : ∃ x, a.blockOf stage h = x := ⟨_, rfl⟩
  rw [hblock] at hx ⊢
  by_cases hrefused : x.refuses h = true
  · rw [if_pos hrefused, Assembly.push_of_refused hblock hrefused]
    exact ⟨rfl, fun a' h => by cases h⟩
  have htakes : x.refuses h = false := Bool.eq_false_iff.mpr hrefused
  obtain ⟨hdone, hxk, hm⟩ : x.done = false ∧ x.k = h.k.toNat ∧ x.parity.length = h.m.toNat := by
    unfold Block.refuses at htakes
    simp only [Bool.or_eq_false_iff, bne_eq_false_iff_eq] at htakes
    exact ⟨htakes.1.1.1, htakes.1.1.2, htakes.1.2⟩
  obtain ⟨a', x', p, htaken, htakenChecked, hsame, hlen, hx', hk', hdone'⟩ :=
    Assembly.takeShardChecked_eq ha.bytes hx hdone hxk hm hshard hsize pool
  have hblocks : a'.blocks = a.blocks := by rw [hsame]
  have hframe : a'.frame_len = a.frame_len := by rw [hsame]
  have hshardSize : a'.shard_size = a.shard_size := by rw [hsame]
  have hcounted : Block.Sound a.shard_size stage { x' with have_shards := x'.have_shards + 1 } :=
    ⟨hx'.k, hx'.bits, hx'.staged, hx'.staged_size, hx'.parity_size⟩
  rw [if_neg hrefused]
  unfold Assembly.addShard
  rw [htakenChecked]
  simp only [Option.bind_eq_bind, Option.bind_some]
  rw [put, if_pos (by rwa [hblocks]), Option.bind_some]
  by_cases hfew : x'.have_shards + 1 < x'.k
  · rw [if_pos hfew, Assembly.push_of_few hblock htakes htaken hfew]
    refine ⟨rfl, fun b hb => ?_⟩
    cases hb
    exact ⟨ha.set hsame hlen hcounted _ _, hframe⟩
  · obtain ⟨ok, a'', x'', p', hfinish, hsame', hlen', hx'', hclosed⟩ := Assembly.closeBlock_eq cpu
      (x := { x' with have_shards := x'.have_shards + 1 }) (hlen.trans hframe.symm) (hshardSize.symm ▸ hcounted)
      hdone' (b := h.block.toNat) (by rwa [hblocks]) (x'.k - countOnes x'.data) p
    have hpush := Assembly.push_of_enough hblock htakes htaken (Nat.not_lt.mp hfew) (hxk.symm.trans hk'.symm) hfinish
    have hsame'' : a'' = { a with data := a''.data } := by
      obtain ⟨data, hdata⟩ : ∃ data, a''.data = data := ⟨_, rfl⟩
      rw [hdata] at hsame' ⊢
      rw [hsame', hsame]
    have hframe'' : a''.frame_len = a.frame_len := by rw [hsame'']
    rw [hshardSize] at hx''
    have hclose : Block.Sound a.shard_size stage { x'' with done := true, parity := [] } :=
      ⟨hx''.k, hx''.bits, fun h => absurd h.symm Bool.false_ne_true, hx''.staged_size, fun i s hs => by cases hs⟩
    rw [if_neg hfew, subChecked, if_pos (by rw [← hxk, ← hk']; exact hx'.countOnes_le), Option.bind_some,
      ← hxk, ← hk', hclosed, hpush]
    refine ⟨rfl, fun b hb => ?_⟩
    split_ifs at hb
    all_goals cases hb
    · exact ⟨ha.set hsame'' (hlen'.trans hframe) hx'' _ _, hframe''⟩
    · exact ⟨ha.set hsame'' (hlen'.trans hframe) hclose _ _, hframe''⟩
    · exact ⟨ha.set hsame'' (hlen'.trans hframe) hclose _ _, hframe''⟩

end

end Rdpio.Hyper.Video
