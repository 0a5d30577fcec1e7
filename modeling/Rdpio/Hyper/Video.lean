import Rdpio.Hyper.Fec
import Rdpio.Hyper.Wire
import Rdpio.Lib.Scratch

/-!
# Video frames in packets

`crates/rdp-hyper/src/video.rs`.
-/

namespace Rdpio.Hyper.Video

open Lib

def shardHeader : ℕ := 26

def maxBody : ℕ := 1200 - Wire.overhead

def maxShard : ℕ := maxBody - shardHeader

def maxBlockData : ℕ := 64

def maxBlockParity : ℕ := 64

def flagKeyframe : UInt8 := 1

def flagLtr : UInt8 := 2

def flagRecovery : UInt8 := 4

def flagProbe : UInt8 := 8

structure ShardHeader where
  frame_id : UInt32
  block : UInt8
  blocks : UInt8
  shard : UInt8
  k : UInt8
  m : UInt8
  flags : UInt8
  frame_len : UInt32
  capture_us : UInt64
  encode_us : UInt32
deriving DecidableEq

def ShardHeader.write (h : ShardHeader) : List UInt8 :=
  leBytes 4 h.frame_id.toNat ++ [h.block, h.blocks, h.shard, h.k, h.m, h.flags] ++
    leBytes 4 h.frame_len.toNat ++ leBytes 8 h.capture_us.toNat ++ leBytes 4 h.encode_us.toNat

def ShardHeader.read (b : List UInt8) : Option ShardHeader :=
  if b.length < shardHeader then none
  else
    let number (i w : ℕ) := ofLe ((b.drop i).take w)
    let byte (i : ℕ) := b.getD i 0
    some
      { frame_id := UInt32.ofNat (number 0 4), block := byte 4, blocks := byte 5, shard := byte 6
        k := byte 7, m := byte 8, flags := byte 9, frame_len := UInt32.ofNat (number 10 4)
        capture_us := UInt64.ofNat (number 14 8), encode_us := UInt32.ofNat (number 22 4) }

/-- One encoded frame handed to `packetize`. -/
structure OutFrame where
  frame_id : UInt32
  data : List UInt8
  keyframe : Bool
  ltr : Bool
  recovery : Bool
  capture_us : UInt64
  encode_us : UInt32
  probe : Bool

def probeTrainPackets : ℕ := 48

def burstMinShards : ℕ := 8

def divCeil (a b : ℕ) : ℕ := (a + b - 1) / b

def layoutOf (trains : Bool) (len : ℕ) (probe : Bool) : ℕ × ℕ :=
  let len := max len 1
  if probe && trains then (divCeil len maxShard, maxShard)
  else
    let least := if probe then burstMinShards else 1
    let size := divCeil len (max (divCeil len maxShard) least)
    (divCeil len size, size)

def parityCount (trains : Bool) (k b shards : ℕ) (fec : Float32) (probe : Bool) : ℕ :=
  let m := if fec ≤ 0.0 then 0
    else max 1 (min (Float32.ofNat k * fec).ceil.toUInt64.toNat maxBlockParity)
  let last := b + 1 = divCeil shards maxBlockData
  let fill := if probe ∧ last ∧ trains then probeTrainPackets - (shards + m) else 0
  min (m + fill) maxBlockParity

def OutFrame.flags (f : OutFrame) : UInt8 :=
  [(f.keyframe, flagKeyframe), (f.ltr, flagLtr), (f.recovery, flagRecovery), (f.probe, flagProbe)].foldl
    (fun flags on => if on.1 then flags ||| on.2 else flags) 0

def resize (bytes : List UInt8) (len : ℕ) : List UInt8 := bytes.take len ++ List.replicate (len - bytes.length) 0

def blockData (shards b : ℕ) : ℕ := min (shards - b * maxBlockData) maxBlockData

/-- The header of shard `i` of block `b`. -/
def OutFrame.header (trains : Bool) (f : OutFrame) (fec : Float32) (b i : ℕ) : ShardHeader :=
  let shards := (layoutOf trains f.data.length f.probe).1
  let k := blockData shards b
  { frame_id := f.frame_id
    block := UInt8.ofNat b
    blocks := UInt8.ofNat (divCeil shards maxBlockData)
    shard := UInt8.ofNat i
    k := UInt8.ofNat k
    m := UInt8.ofNat (parityCount trains k b shards fec f.probe)
    flags := f.flags
    frame_len := UInt32.ofNat f.data.length
    capture_us := f.capture_us
    encode_us := f.encode_us }

def OutFrame.payload (trains : Bool) (f : OutFrame) (b i : ℕ) : List UInt8 :=
  let size := (layoutOf trains f.data.length f.probe).2
  resize ((f.data.drop ((b * maxBlockData + i) * size)).take size) size

def packetizeData (trains : Bool) (f : OutFrame) (fec : Float32) : Option (List (List UInt8)) :=
  let shards := (layoutOf trains f.data.length f.probe).1
  let blocks := divCeil shards maxBlockData
  if 255 < blocks then none
  else some ((List.range blocks).flatMap fun b =>
    (List.range (blockData shards b)).map fun i => (f.header trains fec b i).write ++ f.payload trains b i)

def parity (cpu : Fec.Cpu) : List (List UInt8) → Option (List (List UInt8))
  | [] => some []
  | first :: tail =>
    match ShardHeader.read first with
    | none => some []
    | some head => do
      let data := first :: tail
      let k := max 1 (min head.k.toNat data.length)
      let m := head.m.toNat
      let coded ← if m = 0 then some []
        else Fec.encode cpu ((data.take k).map (·.drop shardHeader)) m
      let rest ← parity cpu (data.drop k)
      some (coded.mapIdx (fun i payload =>
        { head with shard := UInt8.ofNat (k + i) }.write ++ payload) ++ rest)
termination_by data => data.length
decreasing_by
  rw [List.length_drop, List.length_cons]
  omega

def packetize (cpu : Fec.Cpu) (trains : Bool) (f : OutFrame) (fec : Float32) :
    Option (List (List UInt8)) := do
  let data ← packetizeData trains f fec
  let parity ← parity cpu data
  some (data ++ parity)

/-! ## Receiving -/

structure InFrame where
  frame_id : UInt32
  keyframe : Bool
  ltr : Bool
  recovery : Bool
  data : List UInt8
  capture_us : UInt64
  encode_us : UInt32
  first_rx_us : UInt64
deriving DecidableEq

inductive Event where
  | frame (f : InFrame)
  /-- Frames `first..=last` will never complete. -/
  | lost (first last : UInt32)
deriving DecidableEq

structure Stats where
  shards : UInt32
  recovered : UInt32
  frames : UInt32
  frames_lost : UInt32
  bytes : UInt64
  link_kbps : UInt32

def Stats.default : Stats := ⟨0, 0, 0, 0, 0, 0⟩

structure DelayFloor where
  floor0 : Int64
  floor1 : Int64
  since_us : UInt64

def promptUs : Int64 := 2000

def floorPeriodUs : UInt64 := 2500000

def DelayFloor.default : DelayFloor := ⟨Int64.maxValue, Int64.maxValue, 0⟩

def satSub (a b : UInt64) : UInt64 := if a < b then 0 else a - b

def DelayFloor.prompt (d : DelayFloor) (delay_us : Int64) (now_us : UInt64) : Bool × DelayFloor :=
  let d := if floorPeriodUs ≤ satSub now_us d.since_us then ⟨Int64.maxValue, d.floor0, now_us⟩ else d
  let d := { d with floor0 := min d.floor0 delay_us }
  let lowest := min d.floor0 d.floor1
  let limit := if Int64.maxValue - promptUs < lowest then Int64.maxValue else lowest + promptUs
  (delay_us ≤ limit, d)

structure Train where
  frame_id : UInt32
  first_us : UInt64
  last_us : UInt64
  bytes : UInt64
  packets : UInt32
  prompt : Bool

structure Block where
  k : ℕ
  data : UInt64
  /-- Data shards' payloads until the block is done, only when staging. -/
  staged : List (Option (List UInt8))
  /-- Parity, kept for a rebuild until the block is done. -/
  parity : List (Option (List UInt8))
  have_shards : ℕ
  done : Bool

/-- A vector that is kept for reuse. -/
structure Buf where
  bytes : List UInt8
  capacity : ℕ

structure Assembly where
  frame_id : UInt32
  blocks : List (Option Block)
  blocks_done : ℕ
  shard_size : ℕ
  frame_len : ℕ
  flags : UInt8
  capture_us : UInt64
  encode_us : UInt32
  first_rx_us : UInt64
  /-- The frame's data, filled in shard by shard. -/
  data : Buf

def Assembly.span (a : Assembly) (block shard : ℕ) : ℕ × ℕ :=
  let lo := min ((block * maxBlockData + shard) * a.shard_size) a.frame_len
  (lo, min (lo + a.shard_size) a.frame_len)

def maxInFlight : ℕ := 32

def poolMax : ℕ := 1024

def frameBuffersMax : ℕ := 8

def giveBuf (free : List Buf) (data : Buf) : List Buf := if free.length < frameBuffersMax then free ++ [data] else free

def swapRemove (free : List Buf) (i : ℕ) : List Buf :=
  match free.getLast? with
  | some b => (free.set i b).dropLast
  | none => free

def Buf.reserve (b : Buf) (len : ℕ) : Buf :=
  if b.capacity < len then { b with capacity := max (max len (2 * b.capacity)) 8 } else b

def argMin (key : Buf → ℕ) (l : List (Buf × ℕ)) : Option ℕ :=
  (l.foldl (fun best c => match best with
    | some b => if key c.1 < key b.1 then some c else some b
    | none => some c) none).map (·.2)

def argMax (key : Buf → ℕ) (l : List (Buf × ℕ)) : Option ℕ :=
  (l.foldl (fun best c => match best with
    | some b => if key b.1 ≤ key c.1 then some c else some b
    | none => some c) none).map (·.2)

def takeBuf (free : List Buf) (len : ℕ) : List Buf × Buf :=
  let fits := argMin (·.capacity) (free.zipIdx.filter fun c => len ≤ c.1.capacity)
  let pick := fits.or (argMax (·.capacity) free.zipIdx)
  match pick with
  | some i => (swapRemove free i, (free.getD i ⟨[], 0⟩).reserve len)
  | none => (free, Buf.reserve ⟨[], 0⟩ len)

def pooled (pool : List (List UInt8)) (bytes : List UInt8) (len : ℕ) : List (List UInt8) × List UInt8 :=
  (pool.dropLast, resize bytes len)

def recycle (pool : List (List UInt8)) (v : List UInt8) : List (List UInt8) :=
  if pool.length < poolMax then pool ++ [v] else pool

def Assembly.start (h : ShardHeader) (payload_len : ℕ) (now_us : UInt64) (data : Buf) : Assembly where
  frame_id := h.frame_id
  blocks := List.replicate h.blocks.toNat none
  blocks_done := 0
  shard_size := payload_len
  frame_len := h.frame_len.toNat
  flags := h.flags
  capture_us := h.capture_us
  encode_us := h.encode_us
  first_rx_us := now_us
  data := { data with bytes := resize data.bytes h.frame_len.toNat }

def Assembly.inFrame (a : Assembly) : InFrame where
  frame_id := a.frame_id
  keyframe := a.flags &&& flagKeyframe != 0
  ltr := a.flags &&& flagLtr != 0
  recovery := a.flags &&& flagRecovery != 0
  data := a.data.bytes
  capture_us := a.capture_us
  encode_us := a.encode_us
  first_rx_us := a.first_rx_us

def writeAt (data : List UInt8) (lo : ℕ) (bytes : List UInt8) : List UInt8 :=
  data.take lo ++ bytes ++ data.drop (lo + bytes.length)

def Assembly.place (a : Assembly) (block shard : ℕ) (payload : List UInt8) : Assembly :=
  let (lo, hi) := a.span block shard
  { a with data := { a.data with bytes := writeAt a.data.bytes lo (payload.take (hi - lo)) } }

def countOnes (w : UInt64) : ℕ := (List.range 64).countP fun i => w.toNat.testBit i

def Block.hasData (b : Block) (i : ℕ) : Bool := b.data &&& 1 <<< UInt64.ofNat i != 0

def rebuildData (a : Assembly) (b : ℕ) (block : Block) (stage : Bool) (pool : List (List UInt8)) :
    List (List UInt8) × List (Option (List UInt8)) :=
  (List.range block.k).foldl (fun s i =>
    if stage then (s.1, s.2 ++ [block.staged.getD i none])
    else if block.hasData i then
      let (lo, hi) := a.span b i
      let (pool, copy) := pooled s.1 ((a.data.bytes.drop lo).take (hi - lo)) a.shard_size
      (pool, s.2 ++ [some copy])
    else (s.1, s.2 ++ [none])) (pool, [])

def rebuild (cpu : Fec.Cpu) (a : Assembly) (b : ℕ) (block : Block) (stage : Bool)
    (pool : List (List UInt8)) : Bool × Assembly × Block × List (List UInt8) :=
  let (pool, data) := rebuildData a b block stage pool
  let (ok, shards) := Fec.reconstruct cpu (data ++ block.parity) block.k
  if ok then
    let a := (List.range block.k).foldl (fun a i =>
      if stage || !block.hasData i then a.place b i ((shards.getD i none).getD []) else a) a
    let pool := (shards.filterMap id).foldl recycle pool
    (true, a,
      { block with
        staged := block.staged.map fun _ => none
        parity := block.parity.map fun _ => none }, pool)
  else
    let pool := if stage then pool else ((shards.take block.k).filterMap id).foldl recycle pool
    (false, a,
      { block with
        staged := if stage then shards.take block.k else block.staged
        parity := shards.drop block.k }, pool)

def scrap (pool : List (List UInt8)) (a : Assembly) : List (List UInt8) :=
  (a.blocks.filterMap id).foldl (fun pool b => ((b.staged ++ b.parity).filterMap id).foldl recycle pool) pool

/-- What a shard does to its frame. -/
inductive Arrival where
  /-- It says nothing new, or it does not fit its block. -/
  | ignored
  /-- It is kept; the frame is not whole. -/
  | kept (a : Assembly) (pool : List (List UInt8)) (recovered : ℕ)
  /-- It makes the frame whole. -/
  | whole (a : Assembly) (pool : List (List UInt8)) (recovered : ℕ)

def Assembly.takeShard (a : Assembly) (stage : Bool) (pool : List (List UInt8)) (h : ShardHeader)
    (payload : List UInt8) (block : Block) : Assembly × Block × List (List UInt8) :=
  let i := h.shard.toNat
  if i < h.k.toNat then
    let block := { block with data := block.data ||| 1 <<< UInt64.ofNat i }
    if stage then
      let (pool, copy) := pooled pool payload payload.length
      (a, { block with staged := block.staged.set i (some copy) }, pool)
    else (a.place h.block.toNat i payload, block, pool)
  else
    let (pool, copy) := pooled pool payload payload.length
    (a, { block with parity := block.parity.set (i - h.k.toNat) (some copy) }, pool)

/-- A shard of a frame in flight. -/
def Assembly.push (cpu : Fec.Cpu) (stage : Bool) (pool : List (List UInt8)) (a : Assembly)
    (h : ShardHeader) (payload : List UInt8) : Arrival :=
  let b := h.block.toNat
  let k := h.k.toNat
  let i := h.shard.toNat
  let block := (a.blocks.getD b none).getD
    { k, data := 0, staged := if stage then List.replicate k none else []
      parity := List.replicate h.m.toNat none, have_shards := 0, done := false }
  if block.done || block.k != k || block.parity.length != h.m.toNat then .ignored
  else if (if i < k then block.hasData i else (block.parity.getD (i - k) none).isSome) then .ignored
  else
    let (a, block, pool) := a.takeShard stage pool h payload block
    let block := { block with have_shards := block.have_shards + 1 }
    if block.have_shards < block.k then .kept { a with blocks := a.blocks.set b (some block) } pool 0
    else
      let missing := k - countOnes block.data
      let (ok, a, block, pool) :=
        if 0 < missing || stage then rebuild cpu a b block stage pool else (true, a, block, pool)
      if !ok then .kept { a with blocks := a.blocks.set b (some block) } pool 0
      else
        let pool := (block.parity.filterMap id).foldl recycle pool
        let block := { block with done := true, parity := [] }
        let a :=
          { a with blocks := a.blocks.set b (some block), blocks_done := a.blocks_done + 1 }
        if a.blocks_done < a.blocks.length then .kept a pool missing else .whole a pool missing

structure Reassembler where
  /-- Frames being assembled, in slot `frame_id % 32`. -/
  slots : Vector (Option Assembly) 32
  /-- Oldest frame that may still be in flight. -/
  base : Option UInt32
  /-- Lowest frame id not yet delivered or declared lost. -/
  next : Option UInt32
  stats : Stats
  floor : DelayFloor
  train : Option Train
  pool : List (List UInt8)
  buffers : List Buf
  stage : Bool

def Reassembler.new (buffers : List Buf) (stage : Bool) : Reassembler where
  slots := Vector.replicate 32 none
  base := none
  next := none
  stats := .default
  floor := .default
  train := none
  pool := []
  buffers := buffers
  stage := stage

def slotOf (frame_id : UInt32) : ℕ := frame_id.toNat % maxInFlight

namespace Reassembler

def slot (r : Reassembler) (frame_id : UInt32) : Option Assembly := read r.slots (slotOf frame_id)

def setSlot (r : Reassembler) (frame_id : UInt32) (a : Option Assembly) : Reassembler :=
  { r with slots := write r.slots (slotOf frame_id) a }

def dropSlot (r : Reassembler) (i : ℕ) : Reassembler :=
  match read r.slots i with
  | some a =>
    { r with slots := write r.slots i none, pool := scrap r.pool a, buffers := giveBuf r.buffers a.data }
  | none => r

def finishTrain (r : Reassembler) : Reassembler :=
  match r.train with
  | none => r
  | some t =>
    if 8 ≤ t.packets && t.prompt then
      let spread := max (max (satSub t.last_us t.first_us) 150) (t.packets.toUInt64 * 8)
      let kbps := (min (t.bytes * 8 * 1000 / spread) 0xFFFFFFFF).toUInt32
      { r with train := none, stats := { r.stats with link_kbps := max r.stats.link_kbps kbps } }
    else { r with train := none }

def takeStats (r : Reassembler) : Reassembler × Stats :=
  let r := r.finishTrain
  ({ r with stats := .default }, r.stats)

def delayUs (now_us capture_us : UInt64) (encode_us : UInt32) : Int64 :=
  now_us.toInt64 - (capture_us + encode_us.toUInt64).toInt64

/-- A probe train is timed whole. -/
def timeTrain (r : Reassembler) (h : ShardHeader) (len : ℕ) (now_us : UInt64) : Reassembler :=
  if h.flags &&& flagProbe ≠ 0 then
    let start (r : Reassembler) : Reassembler :=
      let r := r.finishTrain
      let (prompt, floor) := r.floor.prompt (delayUs now_us h.capture_us h.encode_us) now_us
      { r with
        floor
        train := some ⟨h.frame_id, now_us, now_us, 0, 1, prompt⟩ }
    match r.train with
    | some t =>
      if t.frame_id = h.frame_id then
        let t :=
          { t with last_us := now_us, bytes := t.bytes + UInt64.ofNat len, packets := t.packets + 1 }
        { r with train := some t }
      else start r
    | none => start r
  else
    match r.train with
    | some t => if t.frame_id ≠ h.frame_id then r.finishTrain else r
    | none => r

def older (id base : UInt32) : Bool := 0x7FFFFFFF < id - base

def advance (r : Reassembler) (frame_id base : UInt32) : Reassembler × List Event :=
  let new_base := frame_id - 31
  let r := (List.range maxInFlight).foldl (fun r i =>
    match read r.slots i with
    | some a => if older a.frame_id new_base then r.dropSlot i else r
    | none => r) r
  let next := r.next.getD base
  ({ r with
      next := some new_base
      base := some new_base
      stats := { r.stats with frames_lost := r.stats.frames_lost + (new_base - next) } },
    [.lost next (new_base - 1)])

def makeRoom (r : Reassembler) (frame_id : UInt32) : Reassembler × List Event :=
  let base := r.base.getD frame_id
  let r := { r with base := some base }
  if 32 ≤ frame_id - base then r.advance frame_id base else (r, [])

def startFrame (r : Reassembler) (h : ShardHeader) (payload_len : ℕ) (now_us : UInt64) : Option Reassembler :=
  let frame_len := h.frame_len.toNat
  if h.blocks.toNat * maxBlockData * payload_len < frame_len then none
  else
    let (buffers, data) := takeBuf r.buffers frame_len
    let r := { r with buffers }
    some (r.setSlot h.frame_id (some (Assembly.start h payload_len now_us data)))

def complete (r : Reassembler) (a : Assembly) : Reassembler × List Event :=
  let frame_id := a.frame_id
  let next := r.next.getD frame_id
  let lost := if frame_id ≠ next then [Event.lost next (frame_id - 1)] else []
  let r := { r with stats := { r.stats with frames_lost := r.stats.frames_lost + (frame_id - next) } }
  let r := r.setSlot frame_id none
  let base := r.base.getD frame_id
  let r := (List.range (min (frame_id - base).toNat maxInFlight)).foldl (fun r i =>
    let id := base + UInt32.ofNat i
    match r.slot id with
    | some o => if o.frame_id = id then r.dropSlot (slotOf id) else r
    | none => r) r
  let (_, floor) := r.floor.prompt (delayUs a.first_rx_us a.capture_us a.encode_us) a.first_rx_us
  ({ r with
      next := some (frame_id + 1)
      base := some (frame_id + 1)
      floor
      pool := scrap r.pool a
      stats := { r.stats with frames := r.stats.frames + 1 } },
    lost ++ [.frame a.inFrame])

def admitted (body : List UInt8) : Option (ShardHeader × List UInt8) :=
  match ShardHeader.read body with
  | none => none
  | some h =>
    let payload := body.drop shardHeader
    let k := h.k.toNat
    let m := h.m.toNat
    if k = 0 ∨ maxBlockData < k ∨ maxBlockParity < m ∨ k + m ≤ h.shard.toNat ∨ h.blocks ≤ h.block ∨
        payload = [] then none
    else some (h, payload)

def pushShard (cpu : Fec.Cpu) (r : Reassembler) (h : ShardHeader) (payload : List UInt8) : Reassembler × List Event :=
  match r.slot h.frame_id with
  | none => (r, [])
  | some a =>
    if payload.length ≠ a.shard_size ∨ a.blocks.length ≠ h.blocks.toNat then (r, [])
    else
      let counted (pool : List (List UInt8)) (recovered : ℕ) : Reassembler :=
        { r with
          pool
          stats := { r.stats with recovered := r.stats.recovered + UInt32.ofNat recovered } }
      match a.push cpu r.stage r.pool h payload with
      | .ignored => (r, [])
      | .kept a pool recovered => ((counted pool recovered).setSlot h.frame_id (some a), [])
      | .whole a pool recovered => ((counted pool recovered).setSlot h.frame_id (some a)).complete a

def pushFrame (cpu : Fec.Cpu) (r : Reassembler) (h : ShardHeader) (payload : List UInt8)
    (now_us : UInt64) : Reassembler × List Event :=
  if (r.slot h.frame_id).any (·.frame_id == h.frame_id) then r.pushShard cpu h payload
  else
    let (r, events) := r.makeRoom h.frame_id
    match r.startFrame h payload.length now_us with
    | none => (r, events)
    | some r =>
      let (r, more) := r.pushShard cpu h payload
      (r, events ++ more)

def push (cpu : Fec.Cpu) (r : Reassembler) (body : List UInt8) (now_us : UInt64) : Reassembler × List Event :=
  match admitted body with
  | none => (r, [])
  | some (h, payload) =>
    let r := { r with stats := { r.stats with bytes := r.stats.bytes + UInt64.ofNat body.length } }
    let r := r.timeTrain h body.length now_us
    if r.base.any (older h.frame_id) then (r, [])
    else
      let r := { r with stats := { r.stats with shards := r.stats.shards + 1 } }
      r.pushFrame cpu h payload now_us

end Reassembler

end Rdpio.Hyper.Video
