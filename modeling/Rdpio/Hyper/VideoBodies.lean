import Rdpio.Hyper.FecRoundTrip
import Rdpio.Hyper.VideoAccounting
import Rdpio.Lib.Grid
import Rdpio.Lib.Pieces

/-!
# What a frame's packets hold

Every body of `packetize` has a header that says where its payload belongs, and the payload of a data shard is
a piece of the frame, padded with zeros (`fits_of_packetize`).
-/

namespace Rdpio.Hyper.Video

open Lib

/-- Shard `h.shard` of block `h.block` of the frame, as `packetize` writes it. -/
structure OutFrame.Fits (trains : Bool) (f : OutFrame) (h : ShardHeader) (payload : List UInt8) : Prop where
  frame_id : h.frame_id = f.frame_id
  frame_len : h.frame_len.toNat = f.data.length
  size : payload.length = (layoutOf trains f.data.length f.probe).2
  blocks : h.blocks.toNat = divCeil (layoutOf trains f.data.length f.probe).1 maxBlockData
  k : h.k.toNat = blockData (layoutOf trains f.data.length f.probe).1 h.block.toNat
  padded : h.shard.toNat < h.k.toNat → payload = f.payload trains h.block.toNat h.shard.toNat

theorem length_resize (bytes : List UInt8) (len : ℕ) : (resize bytes len).length = len := by
  rw [resize, List.length_append, List.length_take, List.length_replicate]
  omega

theorem blockData_le (shards b : ℕ) : blockData shards b ≤ maxBlockData := Nat.min_le_right _ _

theorem le_divCeil_mul (m : ℕ) {n : ℕ} (hn : 0 < n) : m ≤ divCeil m n * n := by
  unfold divCeil
  have hdiv := Nat.div_add_mod (m + n - 1) n
  have hmod := Nat.mod_lt (m + n - 1) hn
  rw [Nat.mul_comm]
  omega

theorem divCeil_le {m n q : ℕ} (hn : 0 < n) (h : m ≤ q * n) : divCeil m n ≤ q := by
  unfold divCeil
  rw [← Nat.lt_succ_iff, Nat.div_lt_iff_lt_mul hn, Nat.succ_mul]
  omega

theorem divCeil_pos {m n : ℕ} (hm : 0 < m) (hn : 0 < n) : 0 < divCeil m n := Nat.div_pos (by omega) hn

theorem layoutOf_covers (trains : Bool) (len : ℕ) (probe : Bool) :
    0 < (layoutOf trains len probe).2 ∧ (layoutOf trains len probe).2 ≤ maxShard ∧
      len ≤ (layoutOf trains len probe).1 * (layoutOf trains len probe).2 := by
  have hmax : 0 < maxShard := by decide
  have hlen : 0 < max len 1 := Nat.lt_of_lt_of_le Nat.one_pos (Nat.le_max_right len 1)
  unfold layoutOf
  dsimp only
  by_cases htrain : (probe && trains) = true
  · rw [if_pos htrain]
    exact ⟨hmax, Nat.le_refl _, (Nat.le_max_left len 1).trans (le_divCeil_mul _ hmax)⟩
  · rw [if_neg htrain]
    dsimp only
    generalize (if probe = true then burstMinShards else 1) = least
    have hcount := divCeil_pos hlen hmax
    have hn : 0 < max (divCeil (max len 1) maxShard) least := Nat.lt_of_lt_of_le hcount (Nat.le_max_left _ _)
    have hpos := divCeil_pos hlen hn
    refine ⟨hpos, divCeil_le hn ?_, (Nat.le_max_left len 1).trans (le_divCeil_mul _ hpos)⟩
    calc max len 1 ≤ divCeil (max len 1) maxShard * maxShard := le_divCeil_mul _ hmax
      _ ≤ max (divCeil (max len 1) maxShard) least * maxShard := Nat.mul_le_mul_right _ (Nat.le_max_left _ _)
      _ = maxShard * max (divCeil (max len 1) maxShard) least := Nat.mul_comm _ _

theorem ShardHeader.length_write (h : ShardHeader) : h.write.length = shardHeader := by
  unfold ShardHeader.write
  simp only [List.length_append, length_leBytes]
  rfl

theorem ShardHeader.drop_write (h : ShardHeader) (payload : List UInt8) :
    (h.write ++ payload).drop shardHeader = payload := List.drop_left' h.length_write

theorem ShardHeader.read_write (h : ShardHeader) (payload : List UInt8) :
    ShardHeader.read (h.write ++ payload) = some h := by
  have hlen : ¬ (h.write ++ payload).length < shardHeader := by
    rw [List.length_append, h.length_write]
    omega
  have hid : ((h.write ++ payload).drop 0).take 4 = leBytes 4 h.frame_id.toNat := rfl
  have hframe : ((h.write ++ payload).drop 10).take 4 = leBytes 4 h.frame_len.toNat := rfl
  have hcapture : ((h.write ++ payload).drop 14).take 8 = leBytes 8 h.capture_us.toNat := rfl
  have hencode : ((h.write ++ payload).drop 22).take 4 = leBytes 4 h.encode_us.toNat := rfl
  unfold ShardHeader.read
  rw [if_neg hlen]
  dsimp only
  rw [hid, hframe, hcapture, hencode, ofLe_leBytes_of_lt h.frame_id.toNat_lt,
    ofLe_leBytes_of_lt h.frame_len.toNat_lt, ofLe_leBytes_of_lt h.capture_us.toNat_lt,
    ofLe_leBytes_of_lt h.encode_us.toNat_lt, UInt32.ofNat_toNat, UInt32.ofNat_toNat, UInt64.ofNat_toNat,
    UInt32.ofNat_toNat]
  rfl

theorem Reassembler.admitted_write {h h' : ShardHeader} {payload payload' : List UInt8}
    (hadmitted : Reassembler.admitted (h.write ++ payload) = some (h', payload')) :
    h' = h ∧ payload' = payload := by
  unfold Reassembler.admitted at hadmitted
  rw [ShardHeader.read_write] at hadmitted
  dsimp only at hadmitted
  split_ifs at hadmitted
  cases hadmitted
  exact ⟨rfl, h.drop_write payload⟩

/-! ## The bodies of a frame -/

section

variable {trains : Bool} {f : OutFrame} {fec : Float32}

theorem parityCount_le (trains : Bool) (k b shards : ℕ) (fec : Float32) (probe : Bool) :
    parityCount trains k b shards fec probe ≤ maxBlockParity := Nat.min_le_right _ _

theorem toNat_ofNat8 {n : ℕ} (h : n < 256) : (UInt8.ofNat n).toNat = n := by
  rw [UInt8.toNat_ofNat']
  exact Nat.mod_eq_of_lt h

theorem OutFrame.fits_header (hblocks : divCeil (layoutOf trains f.data.length f.probe).1 maxBlockData ≤ 255)
    {b s : ℕ} (hb : b ≤ 255) {payload : List UInt8}
    (hsize : payload.length = (layoutOf trains f.data.length f.probe).2)
    (hpadded : s % 256 < blockData (layoutOf trains f.data.length f.probe).1 b →
      payload = f.payload trains b (s % 256)) :
    f.Fits trains (f.header trains fec b s) payload := by
  have hk := blockData_le (layoutOf trains f.data.length f.probe).1 b
  have hk' : (f.header trains fec b s).k.toNat = blockData (layoutOf trains f.data.length f.probe).1 b :=
    toNat_ofNat8 (Nat.lt_of_le_of_lt hk (by decide))
  have hb' : (f.header trains fec b s).block.toNat = b := toNat_ofNat8 (by omega)
  have hs' : (f.header trains fec b s).shard.toNat = s % 256 := UInt8.toNat_ofNat'
  constructor
  case frame_id => rfl
  case frame_len =>
    obtain ⟨hpos, hmost, hcover⟩ := layoutOf_covers trains f.data.length f.probe
    have hshards : (layoutOf trains f.data.length f.probe).1 ≤ 255 * maxBlockData :=
      (le_divCeil_mul _ (by decide)).trans (Nat.mul_le_mul_right _ hblocks)
    have hlen : f.data.length ≤ 255 * maxBlockData * maxShard := hcover.trans (Nat.mul_le_mul hshards hmost)
    have hsmall : 255 * maxBlockData * maxShard < 2 ^ 32 := by decide
    exact UInt32.toNat_ofNat_of_lt' (Nat.lt_of_le_of_lt hlen hsmall)
  case size => exact hsize
  case blocks => exact toNat_ofNat8 (by omega)
  case k => rw [hk', hb']
  case padded =>
    rw [hk', hb', hs']
    exact hpadded

/-- A shard of the frame's, data or parity, behind its header. -/
def OutFrame.IsPacket (trains : Bool) (f : OutFrame) (fec : Float32) (body : List UInt8) : Prop :=
  ∃ b s payload, b < divCeil (layoutOf trains f.data.length f.probe).1 maxBlockData ∧
    s < blockData (layoutOf trains f.data.length f.probe).1 b +
      parityCount trains (blockData (layoutOf trains f.data.length f.probe).1 b) b
        (layoutOf trains f.data.length f.probe).1 fec f.probe ∧
    body = (f.header trains fec b s).write ++ payload ∧ f.Fits trains (f.header trains fec b s) payload

/-- The bodies of block `b`'s data shards. -/
def OutFrame.blockBodies (trains : Bool) (f : OutFrame) (fec : Float32) (b : ℕ) : List (List UInt8) :=
  (List.range (blockData (layoutOf trains f.data.length f.probe).1 b)).map fun i =>
    (f.header trains fec b i).write ++ f.payload trains b i

theorem OutFrame.length_blockBodies (b : ℕ) : (f.blockBodies trains fec b).length =
    blockData (layoutOf trains f.data.length f.probe).1 b := by
  rw [OutFrame.blockBodies, List.length_map, List.length_range]

theorem OutFrame.blockBodies_cons {b : ℕ} (hk : 0 < blockData (layoutOf trains f.data.length f.probe).1 b) :
    ∃ others, f.blockBodies trains fec b = ((f.header trains fec b 0).write ++ f.payload trains b 0) :: others := by
  obtain ⟨k, hk⟩ := Nat.exists_eq_add_of_lt hk
  unfold OutFrame.blockBodies
  rw [hk, Nat.zero_add, List.range_succ_eq_map, List.map_cons]
  exact ⟨_, rfl⟩

theorem OutFrame.encode_blockBodies (cpu : Fec.Cpu) {b m : ℕ}
    (hk : 0 < blockData (layoutOf trains f.data.length f.probe).1 b) (hm : m ≤ maxBlockParity) :
    ∃ coded, (if m = 0 then some [] else
        Fec.encode cpu ((f.blockBodies trains fec b).map (·.drop shardHeader)) m) = some coded ∧
      coded.length = m ∧ ∀ p ∈ coded, p.length = (layoutOf trains f.data.length f.probe).2 := by
  have hmost := blockData_le (layoutOf trains f.data.length f.probe).1 b
  have hpayloads : ∀ d ∈ (f.blockBodies trains fec b).map (·.drop shardHeader),
      d.length = (layoutOf trains f.data.length f.probe).2 := by
    intro d hd
    unfold OutFrame.blockBodies at hd
    rw [List.map_map, List.mem_map] at hd
    obtain ⟨i, -, rfl⟩ := hd
    dsimp only [Function.comp]
    rw [ShardHeader.drop_write]
    exact length_resize _ _
  by_cases hzero : m = 0
  · exact ⟨[], if_pos hzero, hzero.symm, fun _ hp => absurd hp List.not_mem_nil⟩
  · have hfew : 0 < ((f.blockBodies trains fec b).map (·.drop shardHeader)).length ∧
        ((f.blockBodies trains fec b).map (·.drop shardHeader)).length + m ≤ Fec.maxShards := by
      rw [List.length_map, OutFrame.length_blockBodies]
      unfold maxBlockData at hmost
      unfold maxBlockParity at hm
      unfold Fec.maxShards
      omega
    refine ⟨_, (if_neg hzero).trans (if_pos hfew), by simp, fun p hp => ?_⟩
    obtain ⟨i, -, rfl⟩ := List.mem_map.mp hp
    exact (Fec.parityShard_spec cpu hfew.1 hpayloads i).1

theorem parity_blocks (cpu : Fec.Cpu) {n b : ℕ}
    (hn : b + n = divCeil (layoutOf trains f.data.length f.probe).1 maxBlockData) (hblocks : b + n ≤ 255) :
    ∃ ps, parity cpu ((List.range' b n).flatMap (f.blockBodies trains fec)) = some ps ∧
      ∀ body ∈ ps, f.IsPacket trains fec body := by
  induction n generalizing b with
  | zero =>
    refine ⟨[], ?_, fun _ hbody => absurd hbody List.not_mem_nil⟩
    rw [List.range'_zero, List.flatMap_nil, parity]
  | succ n ih =>
    obtain ⟨rest, hrest, hfits⟩ := ih (b := b + 1) (by omega) (by omega)
    rw [List.range'_succ, List.flatMap_cons]
    generalize htail : (List.range' (b + 1) n).flatMap (f.blockBodies trains fec) = tail at hrest
    -- The block has a data shard, so the block's header is there to be read.
    have hk := blockData_le (layoutOf trains f.data.length f.probe).1 b
    have hm := parityCount_le trains (blockData (layoutOf trains f.data.length f.probe).1 b) b
      (layoutOf trains f.data.length f.probe).1 fec f.probe
    have hkpos : 0 < blockData (layoutOf trains f.data.length f.probe).1 b := by
      unfold blockData
      unfold divCeil maxBlockData at hn
      unfold maxBlockData
      omega
    have hlength := @OutFrame.length_blockBodies trains f fec b
    obtain ⟨others, hcons⟩ := @OutFrame.blockBodies_cons trains f fec b hkpos
    have hk8 : (f.header trains fec b 0).k.toNat = blockData (layoutOf trains f.data.length f.probe).1 b :=
      toNat_ofNat8 (Nat.lt_of_le_of_lt hk (by decide))
    have hm8 : (f.header trains fec b 0).m.toNat = parityCount trains
        (blockData (layoutOf trains f.data.length f.probe).1 b) b
        (layoutOf trains f.data.length f.probe).1 fec f.probe :=
      toNat_ofNat8 (Nat.lt_of_le_of_lt hm (by decide))
    generalize hparity : parityCount trains (blockData (layoutOf trains f.data.length f.probe).1 b) b
      (layoutOf trains f.data.length f.probe).1 fec f.probe = m at hm hm8
    obtain ⟨coded, hcoded, hcount, hlens⟩ := @OutFrame.encode_blockBodies trains f fec cpu b m hkpos hm
    unfold maxBlockData at hk
    unfold maxBlockParity at hm
    have hall : max 1 (min (blockData (layoutOf trains f.data.length f.probe).1 b)
        (f.blockBodies trains fec b ++ tail).length) = blockData (layoutOf trains f.data.length f.probe).1 b := by
      rw [List.length_append, hlength]
      omega
    rw [hcons, List.cons_append, parity, ShardHeader.read_write]
    dsimp only
    rw [← List.cons_append, ← hcons, hk8, hall, hm8, List.take_left' hlength, List.drop_left' hlength]
    refine ⟨coded.mapIdx (fun i payload => (f.header trains fec b
      (blockData (layoutOf trains f.data.length f.probe).1 b + i)).write ++ payload) ++ rest, ?_,
      fun body hbody => ?_⟩
    · by_cases hzero : m = 0
      · rw [if_pos hzero] at hcoded ⊢
        rw [hcoded, hrest]
        rfl
      · rw [if_neg hzero] at hcoded ⊢
        rw [hcoded, hrest]
        rfl
    rcases List.mem_append.mp hbody with hhere | hlater
    · -- A parity shard counts on behind the data shards.
      obtain ⟨i, hi, rfl⟩ := List.mem_mapIdx.mp hhere
      refine ⟨b, blockData (layoutOf trains f.data.length f.probe).1 b + i, coded[i], by omega,
        by rw [hparity]; omega, rfl, OutFrame.fits_header (by omega) (by omega) (hlens _ (List.getElem_mem hi)) fun hlt => ?_⟩
      rw [Nat.mod_eq_of_lt (by omega)] at hlt
      omega
    · exact hfits body hlater

theorem packetize_eq (cpu : Fec.Cpu)
    (hblocks : divCeil (layoutOf trains f.data.length f.probe).1 maxBlockData ≤ 255) :
    ∃ ps, packetize cpu trains f fec =
        some ((List.range (divCeil (layoutOf trains f.data.length f.probe).1 maxBlockData)).flatMap
          (f.blockBodies trains fec) ++ ps) ∧
      ∀ body ∈ ps, f.IsPacket trains fec body := by
  obtain ⟨ps, hps, hfits⟩ := @parity_blocks trains f fec cpu _ 0 (Nat.zero_add _) (by rw [Nat.zero_add]; exact hblocks)
  rw [← List.range_eq_range'] at hps
  refine ⟨ps, ?_, hfits⟩
  unfold packetize packetizeData
  dsimp only
  rw [if_neg (Nat.not_lt.mpr hblocks), Option.bind_eq_bind, Option.bind_some]
  change (parity cpu ((List.range _).flatMap (f.blockBodies trains fec))).bind _ = _
  rw [hps, Option.bind_some]
  rfl

theorem isPacket_of_packetize {cpu : Fec.Cpu} {bodies : List (List UInt8)}
    (h : packetize cpu trains f fec = some bodies) {body : List UInt8} (hbody : body ∈ bodies) :
    f.IsPacket trains fec body := by
  by_cases hmany : 255 < divCeil (layoutOf trains f.data.length f.probe).1 maxBlockData
  · unfold packetize packetizeData at h
    dsimp only at h
    rw [if_pos hmany] at h
    cases h
  have hblocks := Nat.not_lt.mp hmany
  obtain ⟨ps, hps, hfits⟩ := @packetize_eq trains f fec cpu hblocks
  rw [hps, Option.some_inj] at h
  rw [← h, List.mem_append] at hbody
  rcases hbody with hdata | hparity
  · obtain ⟨b, hb, hin⟩ := List.mem_flatMap.mp hdata
    obtain ⟨i, hi, rfl⟩ := List.mem_map.mp hin
    have hk := blockData_le (layoutOf trains f.data.length f.probe).1 b
    rw [List.mem_range] at hb hi
    unfold maxBlockData at hk
    refine ⟨b, i, _, hb, by omega, rfl, OutFrame.fits_header hblocks (by omega) (length_resize _ _) fun _ => ?_⟩
    rw [Nat.mod_eq_of_lt (by omega)]
  · exact hfits body hparity

theorem fits_of_packetize {cpu : Fec.Cpu} {bodies : List (List UInt8)}
    (h : packetize cpu trains f fec = some bodies) {body : List UInt8} (hbody : body ∈ bodies)
    {hd : ShardHeader} {payload : List UInt8} (hadmitted : Reassembler.admitted body = some (hd, payload)) :
    f.Fits trains hd payload := by
  obtain ⟨b, s, payload', -, -, rfl, hfits⟩ := isPacket_of_packetize h hbody
  obtain ⟨rfl, rfl⟩ := Reassembler.admitted_write hadmitted
  exact hfits

end

/-! ## `packetize_shards` and `parity_shards`: all of a frame's bodies in one buffer -/

structure Shards where
  buf : List UInt8
  /-- Each body's length. -/
  size : ℕ

namespace Shards

def len (s : Shards) : ℕ := if s.size = 0 then 0 else s.buf.length / s.size

def get (s : Shards) (i : ℕ) : Option (List UInt8) := slice s.buf (i * s.size) ((i + 1) * s.size)

/-- `iter`: the whole bodies, in order. -/
def bodies (s : Shards) : List (List UInt8) :=
  (List.range (s.buf.length / max s.size 1)).map fun i => piece (max s.size 1) i s.buf

end Shards

def OutFrame.fill (trains : Bool) (f : OutFrame) (fec : Float32) (b : ℕ) (buf : List UInt8) (i : ℕ) : List UInt8 :=
  let shard_size := (layoutOf trains f.data.length f.probe).2
  let first := b * maxBlockData
  let buf := buf ++ (f.header trains fec b i).write
  let start := (first + i) * shard_size
  let stop := min (start + shard_size) f.data.length
  let buf := if start < f.data.length then buf ++ (f.data.drop start).take (stop - start) else buf
  resize buf ((first + i + 1) * (shardHeader + shard_size))

def packetizeShards (trains : Bool) (f : OutFrame) (fec : Float32) (free : List Buf) : Option (List Buf × Shards) :=
  let shards := (layoutOf trains f.data.length f.probe).1
  let blocks := divCeil shards maxBlockData
  if 255 < blocks then none
  else
    let size := shardHeader + (layoutOf trains f.data.length f.probe).2
    let taken := takeBuf free (shards * size)
    let buf := taken.2.bytes
    -- `buf.clear()`
    let buf := buf.take 0
    let buf := (List.range blocks).foldl (fun buf b =>
      (List.range (blockData shards b)).foldl (f.fill trains fec b) buf) buf
    some (taken.1, ⟨buf, size⟩)

def readRefs (data : Shards) (start k : ℕ) (refs : List (List UInt8)) : Option (List (List UInt8)) :=
  (List.range k).foldlM (fun refs j => do
    let body ← data.get (start + j)
    let payload ← slice body shardHeader body.length
    put refs j payload) refs

def parityFrom (cpu : Fec.Cpu) (data : Shards) (start : ℕ) (refs : List (List UInt8)) (out : List UInt8) :
    Option (List UInt8) :=
  if start < data.len then do
    let body ← data.get start
    match ShardHeader.read body with
    | none => some out
    | some head =>
      let k := max 1 (min head.k.toNat (min (data.len - start) maxBlockData))
      let refs ← readRefs data start k refs
      let m := head.m.toNat
      let coded ← if m = 0 then some [] else Fec.encode cpu (refs.take k) m
      parityFrom cpu data (start + k) refs (coded.zipIdx.foldl (fun out c =>
        out ++ { head with shard := UInt8.ofNat (k + c.2) }.write ++ c.1) out)
  else some out
termination_by data.len - start
decreasing_by
  have : 0 < max 1 (min head.k.toNat (min (data.len - start) maxBlockData)) :=
    Nat.lt_of_lt_of_le Nat.one_pos (Nat.le_max_left ..)
  omega

def parityShards (cpu : Fec.Cpu) (data out : Shards) : Option Shards := do
  -- `out.buf.clear()`
  let out := out.buf.take 0
  let refs := List.replicate maxBlockData []
  let out ← parityFrom cpu data 0 refs out
  some ⟨out, data.size⟩

section

variable {trains : Bool} {f : OutFrame} {fec : Float32}

theorem resize_append {a b : List UInt8} {n : ℕ} (ha : a.length = n) (m : ℕ) :
    resize (a ++ b) (n + m) = a ++ resize b m := by
  rw [resize, resize, ← ha, List.take_length_add_append, List.length_append, Nat.add_sub_add_left, List.append_assoc]

theorem OutFrame.fill_spec {b i : ℕ} {buf : List UInt8}
    (hbuf : buf.length = (b * maxBlockData + i) * (shardHeader + (layoutOf trains f.data.length f.probe).2)) :
    f.fill trains fec b buf i = buf ++ ((f.header trains fec b i).write ++ f.payload trains b i) := by
  have hwrite := (f.header trains fec b i).length_write
  have hchunk : (if (b * maxBlockData + i) * (layoutOf trains f.data.length f.probe).2 < f.data.length then
      buf ++ (f.header trains fec b i).write ++
        (f.data.drop ((b * maxBlockData + i) * (layoutOf trains f.data.length f.probe).2)).take
          (min ((b * maxBlockData + i) * (layoutOf trains f.data.length f.probe).2 +
            (layoutOf trains f.data.length f.probe).2) f.data.length -
              (b * maxBlockData + i) * (layoutOf trains f.data.length f.probe).2)
      else buf ++ (f.header trains fec b i).write) =
      (buf ++ (f.header trains fec b i).write) ++
        (f.data.drop ((b * maxBlockData + i) * (layoutOf trains f.data.length f.probe).2)).take
          (layoutOf trains f.data.length f.probe).2 := by
    split_ifs with hstart
    · congr 1
      rw [List.take_eq_take_iff, List.length_drop]
      omega
    · rw [List.drop_of_length_le (by omega), List.take_nil, List.append_nil]
  unfold OutFrame.fill OutFrame.payload
  dsimp only
  rw [hchunk, Nat.succ_mul, ← Nat.add_assoc, resize_append (by rw [List.length_append, hwrite, hbuf]), List.append_assoc]

theorem blockData_of_lt {shards b : ℕ} (hb : b + 1 < divCeil shards maxBlockData) : blockData shards b = maxBlockData := by
  unfold divCeil at hb
  unfold blockData
  unfold maxBlockData at *
  omega

theorem OutFrame.length_of_mem_blockBodies {b : ℕ} {body : List UInt8} (h : body ∈ f.blockBodies trains fec b) :
    body.length = shardHeader + (layoutOf trains f.data.length f.probe).2 := by
  obtain ⟨i, -, rfl⟩ := List.mem_map.mp h
  rw [List.length_append, ShardHeader.length_write]
  exact congrArg (shardHeader + ·) (length_resize _ _)

theorem OutFrame.fill_block {b : ℕ} {buf : List UInt8}
    (hbuf : buf.length = b * maxBlockData * (shardHeader + (layoutOf trains f.data.length f.probe).2)) :
    (List.range (blockData (layoutOf trains f.data.length f.probe).1 b)).foldl (f.fill trains fec b) buf =
      buf ++ (f.blockBodies trains fec b).flatten := by
  unfold OutFrame.blockBodies
  generalize blockData (layoutOf trains f.data.length f.probe).1 b = k
  induction k with
  | zero => rw [List.range_zero, List.map_nil, List.flatten_nil, List.append_nil, List.foldl_nil]
  | succ k ih =>
    have hlen := @length_flatten_of UInt8 (shardHeader + (layoutOf trains f.data.length f.probe).2)
      ((List.range k).map fun i => (f.header trains fec b i).write ++ f.payload trains b i) fun body hbody => by
        obtain ⟨i, -, rfl⟩ := List.mem_map.mp hbody
        rw [List.length_append, ShardHeader.length_write]
        exact congrArg (shardHeader + ·) (length_resize _ _)
    rw [List.length_map, List.length_range] at hlen
    rw [List.range_succ, List.foldl_append, ih, List.foldl_cons, List.foldl_nil,
      OutFrame.fill_spec (by rw [List.length_append, hbuf, hlen, Nat.add_mul]), List.map_append, List.flatten_append,
      List.append_assoc, List.map_cons, List.map_nil, List.flatten_singleton]

theorem packetizeShards_of_le (hblocks : divCeil (layoutOf trains f.data.length f.probe).1 maxBlockData ≤ 255)
    (free : List Buf) :
    packetizeShards trains f fec free = some ((takeBuf free ((layoutOf trains f.data.length f.probe).1 *
          (shardHeader + (layoutOf trains f.data.length f.probe).2))).1,
        ⟨((List.range (divCeil (layoutOf trains f.data.length f.probe).1 maxBlockData)).flatMap
          (f.blockBodies trains fec)).flatten, shardHeader + (layoutOf trains f.data.length f.probe).2⟩) := by
  unfold packetizeShards
  dsimp only
  rw [if_neg (Nat.not_lt.mpr hblocks), List.take_zero]
  have hloop := foldl_range_rule (n := divCeil (layoutOf trains f.data.length f.probe).1 maxBlockData)
    (fun b buf => buf = ((List.range b).flatMap (f.blockBodies trains fec)).flatten)
    (f := fun buf b => (List.range (blockData (layoutOf trains f.data.length f.probe).1 b)).foldl
      (f.fill trains fec b) buf) (s := []) rfl fun b buf hb hbuf => by
    have hlen := length_flatten_of (L := (List.range b).flatMap (f.blockBodies trains fec)) fun body hbody => by
      obtain ⟨b', -, hin⟩ := List.mem_flatMap.mp hbody
      exact OutFrame.length_of_mem_blockBodies hin
    have hfull := length_flatMap_range (h := b) (w := maxBlockData) (f := f.blockBodies trains fec) fun b' hb' => by
      rw [OutFrame.length_blockBodies, blockData_of_lt (by omega)]
    rw [hfull] at hlen
    rw [List.range_succ, List.flatMap_append, List.flatMap_cons, List.flatMap_nil, List.append_nil, List.flatten_append,
      ← hbuf]
    exact OutFrame.fill_block (by rw [hbuf]; exact hlen)
  rw [hloop]

/-! ## Reading it back -/

section Joined

variable {L : List (List UInt8)} {size : ℕ} (hsize : 0 < size) (hL : ∀ body ∈ L, body.length = size)

include hsize hL

theorem Shards.len_flatten : (Shards.mk L.flatten size).len = L.length := by
  unfold Shards.len
  dsimp only
  rw [if_neg (by omega), length_flatten_of hL, Nat.mul_div_cancel _ hsize]

omit hsize in
theorem Shards.get_flatten {i : ℕ} (hi : i < L.length) : (Shards.mk L.flatten size).get i = some L[i] := by
  have hin : (i + 1) * size ≤ L.length * size := Nat.mul_le_mul_right size hi
  unfold Shards.get slice
  dsimp only
  rw [if_pos ⟨Nat.mul_le_mul_right size (Nat.le_succ i), by rw [length_flatten_of hL]; exact hin⟩,
    ← piece_flatten hL hi, piece, Nat.succ_mul, Nat.add_sub_cancel_left]

theorem Shards.bodies_flatten : (Shards.mk L.flatten size).bodies = L := by
  unfold Shards.bodies
  dsimp only
  rw [Nat.max_eq_left hsize, length_flatten_of hL, Nat.mul_div_cancel _ hsize]
  refine List.ext_getElem (by rw [List.length_map, List.length_range]) fun i hi hi' => ?_
  rw [List.getElem_map, List.getElem_range, piece_flatten hL hi']

omit hsize in
theorem readRefs_flatten (hroom : shardHeader ≤ size) {start k : ℕ} (hk : start + k ≤ L.length)
    {refs : List (List UInt8)} (hrefs : k ≤ refs.length) :
    ∃ refs', readRefs ⟨L.flatten, size⟩ start k refs = some refs' ∧ refs'.length = refs.length ∧
      refs'.take k = ((L.drop start).take k).map (·.drop shardHeader) := by
  obtain ⟨refs', hloop, hlen, hplaces⟩ := foldlM_range_rule (n := k)
    (fun j refs' => refs'.length = refs.length ∧ ∀ i, i < j → refs'[i]? = ((L.drop start)[i]?).map (·.drop shardHeader))
    (g := fun refs j => do
      let body ← (Shards.mk L.flatten size).get (start + j)
      let payload ← slice body shardHeader body.length
      put refs j payload) (s := refs) ⟨rfl, fun i hi => absurd hi (Nat.not_lt_zero i)⟩ fun j s hj hs => by
    have hbody : L[start + j].length = size := hL _ (List.getElem_mem _)
    have hslice : slice L[start + j] shardHeader L[start + j].length = some (L[start + j].drop shardHeader) := by
      unfold slice
      rw [if_pos ⟨by omega, Nat.le_refl _⟩, ← List.length_drop, List.take_length]
    have hput : put s j (L[start + j].drop shardHeader) = some (s.set j (L[start + j].drop shardHeader)) :=
      if_pos (by omega)
    refine ⟨s.set j (L[start + j].drop shardHeader), ?_, (List.length_set ..).trans hs.1, fun i hi => ?_⟩
    · rw [Shards.get_flatten hL (by omega), Option.bind_eq_bind, Option.bind_some, hslice]
      exact hput
    · rw [List.getElem?_set, List.getElem?_drop]
      split_ifs with heq hin
      · rw [← heq, List.getElem?_eq_getElem (by omega), Option.map_some]
      · omega
      · rw [hs.2 i (by omega), List.getElem?_drop]
  refine ⟨refs', hloop, hlen, List.ext_getElem? fun i => ?_⟩
  rw [List.getElem?_take, List.getElem?_map, List.getElem?_take]
  split_ifs with hi
  · exact hplaces i hi
  · rfl

theorem parityFrom_eq (cpu : Fec.Cpu) (hroom : shardHeader ≤ size)
    (hmost : ∀ body ∈ L, ∀ h, ShardHeader.read body = some h → h.k.toNat ≤ maxBlockData) (start : ℕ)
    {refs : List (List UInt8)} (hrefs : refs.length = maxBlockData) (out : List UInt8) :
    parityFrom cpu ⟨L.flatten, size⟩ start refs out = (parity cpu (L.drop start)).map fun ps => out ++ ps.flatten := by
  induction hn : L.length - start using Nat.strongRecOn generalizing start refs out with
  | ind n ih =>
    have hlen := Shards.len_flatten hsize hL
    rw [parityFrom, hlen]
    rcases Nat.lt_or_ge start L.length with hlt | hge
    · have hfirst := List.drop_eq_getElem_cons hlt
      rw [if_pos hlt, Shards.get_flatten hL hlt, Option.bind_eq_bind, Option.bind_some]
      cases hread : ShardHeader.read L[start] with
      | none => rw [hfirst, parity, hread, Option.map_some, List.flatten_nil, List.append_nil]
      | some head =>
        have hk64 := hmost _ (List.getElem_mem hlt) _ hread
        have hk : max 1 (min head.k.toNat (min (L.length - start) maxBlockData)) =
            max 1 (min head.k.toNat (L.drop start).length) := by
          rw [List.length_drop]
          omega
        have hkin : max 1 (min head.k.toNat (L.drop start).length) ≤ L.length - start := by
          rw [List.length_drop]
          omega
        have hkmost : max 1 (min head.k.toNat (L.drop start).length) ≤ maxBlockData := by
          unfold maxBlockData at *
          omega
        dsimp only
        rw [hk, hfirst, parity, hread, ← hfirst]
        dsimp only
        have hkpos : 0 < max 1 (min head.k.toNat (L.drop start).length) :=
          Nat.lt_of_lt_of_le Nat.one_pos (Nat.le_max_left ..)
        generalize max 1 (min head.k.toNat (L.drop start).length) = k at hkin hkmost hkpos
        obtain ⟨refs', hrefs', hlen', htake⟩ := readRefs_flatten hL hroom (show start + k ≤ L.length by omega)
          (show k ≤ refs.length by omega)
        -- The block's parity goes behind `out`, and the rest behind that.
        have hrest : ∀ coded : List (List UInt8),
            parityFrom cpu ⟨L.flatten, size⟩ (start + k) refs' (coded.zipIdx.foldl (fun out c =>
              out ++ { head with shard := UInt8.ofNat (k + c.2) }.write ++ c.1) out) =
            ((parity cpu ((L.drop start).drop k)).bind fun rest => some (coded.mapIdx (fun i payload =>
              { head with shard := UInt8.ofNat (k + i) }.write ++ payload) ++ rest)).map fun ps => out ++ ps.flatten := by
          intro coded
          have hwritten : (coded.zipIdx.foldl (fun out c =>
              out ++ { head with shard := UInt8.ofNat (k + c.2) }.write ++ c.1) out) =
              out ++ (coded.mapIdx fun i payload =>
                { head with shard := UInt8.ofNat (k + i) }.write ++ payload).flatten := by
            simp only [List.append_assoc, List.foldl_append_eq_append, List.mapIdx_eq_zipIdx_map]
          rw [hwritten, ih _ (by omega) (start + k) (hlen'.trans hrefs) _ rfl, List.drop_drop]
          cases parity cpu (L.drop (start + k)) with
          | none => rfl
          | some rest => rw [Option.map_some, Option.bind_some, Option.map_some, List.flatten_append, List.append_assoc]
        rw [hrefs', Option.bind_eq_bind, Option.bind_some, htake]
        split_ifs with hm
        · exact hrest []
        · cases Fec.encode cpu (((L.drop start).take k).map (·.drop shardHeader)) head.m.toNat with
          | none => rfl
          | some coded => exact hrest coded
    · rw [if_neg (Nat.not_lt.mpr hge), List.drop_of_length_le hge, parity, Option.map_some, List.flatten_nil,
        List.append_nil]

end Joined

/-- Bodies in one buffer are the bodies one by one, whatever the buffers held before: a frame too large is refused by
both, and of any other the data and the parity are the same. -/
theorem packetizeShards_spec (cpu : Fec.Cpu) (trains : Bool) (f : OutFrame) (fec : Float32) (free : List Buf)
    (used : Shards) :
    (255 < divCeil (layoutOf trains f.data.length f.probe).1 maxBlockData →
        packetizeShards trains f fec free = none ∧ packetizeData trains f fec = none) ∧
      (divCeil (layoutOf trains f.data.length f.probe).1 maxBlockData ≤ 255 →
        ∃ free' data ps, packetizeShards trains f fec free = some (free', data) ∧
          parityShards cpu data used = some ps ∧ packetizeData trains f fec = some data.bodies ∧
          parity cpu data.bodies = some ps.bodies) := by
  refine ⟨fun hmany => ⟨if_pos hmany, if_pos hmany⟩, fun hblocks => ?_⟩
  have hroom : 0 < shardHeader + (layoutOf trains f.data.length f.probe).2 :=
    Nat.lt_of_lt_of_le (by decide) (Nat.le_add_right ..)
  obtain ⟨ps, hps, hpackets⟩ := @parity_blocks trains f fec cpu _ 0 (Nat.zero_add _)
    (by rw [Nat.zero_add]; exact hblocks)
  rw [← List.range_eq_range'] at hps
  have hdata : ∀ body ∈ (List.range (divCeil (layoutOf trains f.data.length f.probe).1 maxBlockData)).flatMap
      (f.blockBodies trains fec), body.length = shardHeader + (layoutOf trains f.data.length f.probe).2 := by
    intro body hbody
    obtain ⟨b, -, hin⟩ := List.mem_flatMap.mp hbody
    exact OutFrame.length_of_mem_blockBodies hin
  have hmost : ∀ body ∈ (List.range (divCeil (layoutOf trains f.data.length f.probe).1 maxBlockData)).flatMap
      (f.blockBodies trains fec), ∀ h, ShardHeader.read body = some h → h.k.toNat ≤ maxBlockData := by
    intro body hbody h hread
    obtain ⟨b, -, hin⟩ := List.mem_flatMap.mp hbody
    obtain ⟨i, -, rfl⟩ := List.mem_map.mp hin
    have hk := blockData_le (layoutOf trains f.data.length f.probe).1 b
    rw [ShardHeader.read_write, Option.some_inj] at hread
    rw [← hread]
    exact (toNat_ofNat8 (Nat.lt_of_le_of_lt hk (by decide))).trans_le hk
  have hparity : ∀ body ∈ ps, body.length = shardHeader + (layoutOf trains f.data.length f.probe).2 := by
    intro body hbody
    obtain ⟨b, s, payload, -, -, rfl, hfits⟩ := hpackets body hbody
    rw [List.length_append, ShardHeader.length_write, hfits.size]
  have hwritten := parityFrom_eq hroom hdata cpu (Nat.le_add_right ..) hmost 0
    (List.length_replicate (n := maxBlockData) (a := [])) []
  rw [List.drop_zero, hps, Option.map_some, List.nil_append] at hwritten
  refine ⟨_, _, ⟨ps.flatten, shardHeader + (layoutOf trains f.data.length f.probe).2⟩,
    packetizeShards_of_le hblocks free, ?_, ?_, ?_⟩
  · unfold parityShards
    dsimp only
    rw [List.take_zero, hwritten]
    rfl
  · rw [Shards.bodies_flatten hroom hdata]
    exact if_neg (Nat.not_lt.mpr hblocks)
  · rw [Shards.bodies_flatten hroom hdata, Shards.bodies_flatten hroom hparity]
    exact hps

end

end Rdpio.Hyper.Video
