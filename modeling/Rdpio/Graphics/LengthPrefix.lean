import Rdpio.Graphics.ProgressiveBatch

/-!
# The length prefix of a progressive payload

On the wire a payload is the length of its block stream, in four bytes, and the stream.
-/

namespace Rdpio.Graphics

open Lib

theorem u16le_of_drop {b rest : List UInt8} {o n : ℕ} (h : b.drop o = leBytes 2 n ++ rest) :
    u16le b o = some (UInt16.ofNat n) := by
  have h0 : b[o]? = some (UInt8.ofNat n) := by
    rw [← Nat.add_zero o, ← List.getElem?_drop, h]
    rfl
  have h1 : b[o + 1]? = some (UInt8.ofNat (n / 256)) := by
    rw [← List.getElem?_drop, h]
    rfl
  have hle : ofLe [UInt8.ofNat n, UInt8.ofNat (n / 256)] = n % 256 ^ 2 := ofLe_leBytes 2 n
  rw [u16le, h0, h1]
  simp only [Option.bind_eq_bind, Option.bind_some, hle]
  rw [show (256 ^ 2 : ℕ) = 2^16 by rfl, UInt16.ofNat_mod_size]

theorem u32le_of_drop {b rest : List UInt8} {o n : ℕ} (h : b.drop o = leBytes 4 n ++ rest) :
    u32le b o = some (UInt32.ofNat n) := by
  have hbyte : ∀ i < 4, b[o + i]? = (leBytes 4 n)[i]? := by
    intro i hi
    rw [← List.getElem?_drop, h, List.getElem?_append_left (by rw [length_leBytes]; exact hi)]
  have hle : ofLe (leBytes 4 n) = n % 256 ^ 4 := ofLe_leBytes 4 n
  have h0 := hbyte 0 (by decide)
  have h1 := hbyte 1 (by decide)
  have h2 := hbyte 2 (by decide)
  have h3 := hbyte 3 (by decide)
  simp only [leBytes, List.getElem?_cons_zero, List.getElem?_cons_succ, Nat.add_zero] at h0 h1 h2 h3
  simp only [leBytes] at hle
  rw [u32le, h0, h1, h2, h3]
  simp only [Option.bind_eq_bind, Option.bind_some, hle]
  rw [show (256 ^ 4 : ℕ) = 2^32 by rfl, UInt32.ofNat_mod_size]

namespace ProgressiveDecoder

def block (block_type : UInt16) (body : List UInt8) : List UInt8 :=
  leBytes 2 block_type.toNat ++ (leBytes 4 (6 + body.length) ++ body)

theorem length_block (block_type : UInt16) (body : List UInt8) : (block block_type body).length = 6 + body.length := by
  rw [block, List.length_append, List.length_append, length_leBytes, length_leBytes]
  omega

def stream (blocks : List (UInt16 × List UInt8)) : List UInt8 := blocks.flatMap fun b => block b.1 b.2

theorem walkBlocks_block {σ : Type} (region : σ → List UInt8 → σ) (before after : List UInt8)
    (block_type : UInt16) {body : List UInt8} (hlen : 6 + body.length < 2^32) (s : σ) :
    walkBlocks region (before ++ (block block_type body ++ after)) before.length s =
      walkBlocks region (before ++ (block block_type body ++ after))
        (before.length + (6 + body.length))
        (if block_type = wbtRegion then region s body else s) := by
  have hall : (before ++ (block block_type body ++ after)).length =
      before.length + (6 + body.length + after.length) := by
    rw [List.length_append, List.length_append, length_block]
  have hdrop : (before ++ (block block_type body ++ after)).drop before.length =
      leBytes 2 block_type.toNat ++ (leBytes 4 (6 + body.length) ++ (body ++ after)) := by
    rw [List.drop_left, block, List.append_assoc, List.append_assoc]
  have htype := u16le_of_drop hdrop
  have hdrop2 : (before ++ (block block_type body ++ after)).drop (before.length + 2) =
      leBytes 4 (6 + body.length) ++ (body ++ after) := by
    rw [← List.drop_drop, hdrop]
    exact List.drop_left' (length_leBytes 2 _)
  have hblock_len := u32le_of_drop hdrop2
  have hdrop6 : (before ++ (block block_type body ++ after)).drop (before.length + 6) = body ++ after := by
    rw [show before.length + 6 = before.length + 2 + 4 by rfl, ← List.drop_drop, hdrop2]
    exact List.drop_left' (length_leBytes 4 _)
  have hnat : (UInt32.ofNat (6 + body.length)).toNat = 6 + body.length := by
    rw [UInt32.toNat_ofNat']
    exact Nat.mod_eq_of_lt hlen
  rw [walkBlocks, if_pos (by omega), htype, hblock_len]
  simp only [Option.getD_some, UInt16.ofNat_toNat, hnat]
  rw [if_pos (by omega), hdrop6, show 6 + body.length - 6 = body.length by omega, List.take_left]

theorem walkBlocks_stream {σ : Type} (region : σ → List UInt8 → σ) (before : List UInt8)
    (blocks : List (UInt16 × List UInt8)) (hlen : ∀ b ∈ blocks, 6 + b.2.length < 2^32) (s : σ) :
    walkBlocks region (before ++ stream blocks) before.length s =
      blocks.foldl (fun s b => if b.1 = wbtRegion then region s b.2 else s) s := by
  induction blocks generalizing before s with
  | nil =>
    rw [walkBlocks, if_neg (by simp [stream])]
    rfl
  | cons b blocks ih =>
    have hcons : stream (b :: blocks) = block b.1 b.2 ++ stream blocks := List.flatMap_cons
    have hnext := ih (before ++ block b.1 b.2) (fun c hc => hlen c (List.mem_cons_of_mem _ hc))
      (if b.1 = wbtRegion then region s b.2 else s)
    rw [List.append_assoc, List.length_append, length_block] at hnext
    rw [hcons, walkBlocks_block region before (stream blocks) b.1 (hlen b List.mem_cons_self) s, hnext, List.foldl_cons]

/-- Is this a block that `decode_tiles` counts? -/
def isTileBlock (block_type : UInt16) : Bool :=
  block_type == wbtTileSimple || block_type == wbtTileFirst || block_type == wbtTileUpgrade

def regionTiles (b : List UInt8) : ℕ :=
  match parseRegion b with
  | some (num_tiles, _, tile_data) =>
    walkTiles (fun k block_type _ => if isTileBlock block_type then k + 1 else k) tile_data num_tiles 0 0
  | none => 0

def countTiles (data : List UInt8) : ℕ := walkBlocks (fun k b => k + regionTiles b) data 0 0

def FrameStats.total (s : FrameStats) : ℕ := s.simple + s.first + s.upgrade

theorem parseTile_eq_none (r : Region) (stats : FrameStats) {block_type : UInt16} (body : List UInt8)
    (h : isTileBlock block_type = false) : parseTile r stats block_type body = none := by
  simp only [isTileBlock, Bool.or_eq_false_iff, beq_eq_false_iff_ne] at h
  rw [parseTile, if_neg (by tauto), if_neg h.2]

theorem parseTile_total (r : Region) (stats : FrameStats) {block_type : UInt16} (body : List UInt8)
    (h : isTileBlock block_type = true) : ∃ stats' parsed,
      parseTile r stats block_type body = some (stats', parsed) ∧
        FrameStats.total stats' = FrameStats.total stats + 1 := by
  simp only [isTileBlock, Bool.or_eq_true, beq_iff_eq] at h
  rw [parseTile]
  split_ifs
  · exact ⟨_, _, rfl, by simp only [FrameStats.total]; omega⟩
  · exact ⟨_, _, rfl, by simp only [FrameStats.total]; omega⟩
  · exact ⟨_, _, rfl, by simp only [FrameStats.total]; omega⟩
  · exact ⟨_, _, rfl, by simp only [FrameStats.total]; omega⟩
  · exact ⟨_, _, rfl, by simp only [FrameStats.total]; omega⟩
  · tauto

theorem tileAlone_total (r : Region) (s : ProgressiveDecoder × List ProgressiveTile)
    (block_type : UInt16) (body : List UInt8) :
    FrameStats.total (tileAlone r s block_type body).1.stats =
      FrameStats.total s.1.stats + if isTileBlock block_type then 1 else 0 := by
  rw [tileAlone]
  by_cases h : isTileBlock block_type
  · obtain ⟨stats, parsed, hparse, htotal⟩ := parseTile_total r s.1.stats body h
    rw [hparse, if_pos h, ← htotal]
    simp only
    rcases parsed.bind (bind s.1.tiles) with reason | slot <;> rfl
  · rw [parseTile_eq_none r s.1.stats body (by simpa using h), if_neg h]
    rfl

theorem decodeRegion_total (w : Workers) (s : ProgressiveDecoder × List ProgressiveTile)
    (b : List UInt8) :
    FrameStats.total (decodeRegion w s b).1.stats = FrameStats.total s.1.stats + regionTiles b := by
  rw [decodeRegion, regionTiles]
  rcases parseRegion b with - | ⟨num_tiles, region, tile_data⟩
  · rfl
  · simp only
    rw [(decodeTiles_eq_alone w region s.1 tile_data num_tiles s.2).2.2]
    refine walkTiles_rel (fun (t : ProgressiveDecoder × List ProgressiveTile) k =>
      FrameStats.total t.1.stats = FrameStats.total s.1.stats + k)
      (fun t k block_type body ht => ?_) tile_data num_tiles 0 rfl
    rw [tileAlone_total, ht]
    split_ifs <;> omega

theorem decodeRegion_of_empty (w : Workers) (s : ProgressiveDecoder × List ProgressiveTile)
    {b : List UInt8} (h : regionTiles b = 0) : decodeRegion w s b = s := by
  rw [regionTiles] at h
  rw [decodeRegion]
  rcases hparse : parseRegion b with - | ⟨num_tiles, region, tile_data⟩
  · rfl
  · rw [hparse] at h
    simp only at h ⊢
    have hwalk := walkTiles_rel
      (fun (t : TilesLoop) k => k = 0 → t = { dec := s.1, batch := [], in_batch := [], out := s.2 })
      (f := tileBlock w region)
      (g := fun k block_type _ => if isTileBlock block_type then k + 1 else k)
      (fun t k block_type body ht hk => by
        by_cases htile : isTileBlock block_type = true
        · rw [if_pos htile] at hk
          omega
        · rw [if_neg htile] at hk
          rw [ht hk, tileBlock, parseTile_eq_none _ _ _ (by simpa using htile)])
      tile_data num_tiles 0 (fun _ => rfl) h
    rw [decodeTiles, hwalk]
    rfl

theorem walkBlocks_rel {σ τ : Type} (R : σ → τ → Prop) {f : σ → List UInt8 → σ}
    {g : τ → List UInt8 → τ} (hregion : ∀ s t b, R s t → R (f s b) (g t b)) (data : List UInt8)
    (off : ℕ) {s : σ} {t : τ} (h : R s t) : R (walkBlocks f data off s) (walkBlocks g data off t) := by
  fun_induction walkBlocks f data off s generalizing t with
  | case1 off s hoff block_type block_len hlen s' =>
    rename_i ih
    rw [walkBlocks.eq_def g data off t, if_pos hoff, if_pos hlen]
    refine ih ?_
    simp only [s']
    split_ifs
    · exact hregion _ _ _ h
    · exact h
  | case2 off s hoff block_len =>
    rename_i hlen
    rw [walkBlocks.eq_def g data off t, if_pos hoff, if_neg hlen]
    exact h
  | case3 off s hoff =>
    rw [walkBlocks.eq_def g data off t, if_neg hoff]
    exact h

/-! ### Payloads with and without the prefix -/

def blank (d : ProgressiveDecoder) : ProgressiveDecoder × List ProgressiveTile := ({ d with stats := .default }, [])

theorem decode_total (w : Workers) (d : ProgressiveDecoder) {data : List UInt8}
    (h : startsWithBlock data = true) :
    FrameStats.total (decode w d data).1.stats = countTiles data := by
  rw [decode, stripLengthPrefix, if_pos h]
  refine walkBlocks_rel (fun (s : ProgressiveDecoder × List ProgressiveTile) k =>
    FrameStats.total s.1.stats = k) (fun s k b hs => ?_) data 0 rfl
  rw [decodeRegion_total, hs]

theorem decode_of_empty (w : Workers) (d : ProgressiveDecoder) {data : List UInt8}
    (h : startsWithBlock data = true) (hempty : countTiles data = 0) : decode w d data = blank d := by
  rw [decode, stripLengthPrefix, if_pos h]
  refine walkBlocks_rel (fun (s : ProgressiveDecoder × List ProgressiveTile) k => k = 0 → s = blank d)
    (fun s k b hs hk => ?_) data 0 (fun _ => rfl) hempty
  rw [hs (by omega)]
  exact decodeRegion_of_empty w _ (by omega)

def prefixed (data : List UInt8) : List UInt8 := leBytes 4 data.length ++ data

/-- Are the low two bytes of a length a block type? -/
def LengthLooksLikeBlock (len : ℕ) : Prop := 0xCCC0 ≤ len % 65536 ∧ len % 65536 ≤ 0xCCC7

theorem startsWithBlock_of_drop {data rest : List UInt8} {n : ℕ} (h : data = leBytes 2 n ++ rest) :
    startsWithBlock data = true ↔ LengthLooksLikeBlock n := by
  have htype := u16le_of_drop (b := data) (o := 0) h
  rw [startsWithBlock, htype]
  simp only [Bool.and_eq_true, decide_eq_true_eq, UInt16.le_iff_toNat_le, UInt16.toNat_ofNat', LengthLooksLikeBlock]
  exact Iff.rfl

theorem startsWithBlock_prefixed (data : List UInt8) :
    startsWithBlock (prefixed data) = true ↔ LengthLooksLikeBlock data.length :=
  have hdrop : prefixed data = leBytes 2 data.length ++ (leBytes 2 (data.length / 256 / 256) ++ data) := rfl
  startsWithBlock_of_drop hdrop

theorem decode_prefixed_of_not_looks (w : Workers) (d : ProgressiveDecoder) {data : List UInt8}
    (h : startsWithBlock data = true) (hlooks : ¬ LengthLooksLikeBlock data.length) :
    decode w d (prefixed data) = decode w d data := by
  have hdrop : (prefixed data).drop 4 = data := List.drop_left' (length_leBytes 4 _)
  have hlen : 4 ≤ (prefixed data).length := by
    rw [prefixed, List.length_append, length_leBytes]
    omega
  have hstrip : stripLengthPrefix (prefixed data) = data := by
    rw [stripLengthPrefix, if_neg (by rw [startsWithBlock_prefixed]; exact hlooks), hdrop, h,
      if_pos (by simpa using hlen)]
  rw [decode, decode, hstrip, stripLengthPrefix, if_pos h]

theorem decode_prefixed_of_looks (w : Workers) (d : ProgressiveDecoder) {data : List UInt8}
    (h : startsWithBlock data = true) (hlooks : LengthLooksLikeBlock data.length)
    (hlen : data.length < 0xCCC00000) : decode w d (prefixed data) = blank d := by
  have hstart := (startsWithBlock_prefixed data).mpr hlooks
  obtain ⟨a, b, rest, rfl⟩ : ∃ a b rest, data = a :: b :: rest := by
    rcases data with - | ⟨a, - | ⟨b, rest⟩⟩
    · cases h
    · cases h
    · exact ⟨a, b, rest, rfl⟩
  generalize hn : (a :: b :: rest).length = n at *
  -- The type of the first block, which the prefix's length field takes in.
  have htwo : a :: b :: rest = leBytes 2 (ofLe [a, b]) ++ rest := congrArg (· ++ rest) (leBytes_ofLe [a, b]).symm
  have htype : LengthLooksLikeBlock (ofLe [a, b]) := (startsWithBlock_of_drop htwo).mp h
  have hlt := ofLe_lt [a, b]
  have hbytes : (prefixed (a :: b :: rest)).drop 2 = leBytes 4 (n / 65536 + 65536 * ofLe [a, b]) ++ rest := by
    have hhigh : n / 65536 < 65536 := by omega
    have hle := leBytes_ofLe (leBytes 2 (n / 65536) ++ [a, b])
    have hvalue : ofLe (leBytes 2 (n / 65536) ++ [a, b]) = n / 65536 + 65536 * ofLe [a, b] := by
      have hlow := ofLe_leBytes_of_lt (w := 2) (show n / 65536 < 256 ^ 2 by omega)
      simp only [leBytes, ofLe, List.cons_append, List.nil_append] at hlow ⊢
      omega
    rw [hvalue] at hle
    rw [prefixed, hn]
    change leBytes 2 (n / 256 / 256) ++ ([a, b] ++ rest) = _
    rw [← List.append_assoc, Nat.div_div_eq_div_mul, ← hle]
    rfl
  have hfield := u32le_of_drop hbytes
  have hnat : (UInt32.ofNat (n / 65536 + 65536 * ofLe [a, b])).toNat = n / 65536 + 65536 * ofLe [a, b] := by
    rw [UInt32.toNat_ofNat']
    refine Nat.mod_eq_of_lt ?_
    simp only [List.length_cons, List.length_nil] at hlt
    omega
  have hall : (prefixed (a :: b :: rest)).length = 4 + n := by
    rw [prefixed, List.length_append, length_leBytes, hn]
  rw [decode, stripLengthPrefix, if_pos hstart, walkBlocks]
  split_ifs with hoff
  · simp only [hfield, Option.getD_some, hnat]
    obtain ⟨hlow, hhigh⟩ := htype
    simp only [List.length_cons, List.length_nil] at hlt
    rw [if_neg (by omega)]
    rfl
  · rfl

/-- A payload below 0xCCC00000 bytes decodes as its stream does exactly where its length is not taken for a
block type, or the stream carries no tile. -/
theorem decode_prefixed_iff (w : Workers) (d : ProgressiveDecoder) {data : List UInt8}
    (h : startsWithBlock data = true) :
    (¬ LengthLooksLikeBlock data.length → decode w d (prefixed data) = decode w d data) ∧
    (data.length < 0xCCC00000 → (decode w d (prefixed data) = decode w d data ↔
      ¬ LengthLooksLikeBlock data.length ∨ countTiles data = 0)) := by
  refine ⟨decode_prefixed_of_not_looks w d h, fun hlen => ?_⟩
  constructor
  · intro hsame
    by_contra hcon
    obtain ⟨hlooks, htiles⟩ := not_or.mp hcon
    -- The stream counts its tile blocks; the payload counts none.
    have htotal := decode_total w d h
    rw [← hsame, decode_prefixed_of_looks w d h (not_not.mp hlooks) hlen] at htotal
    exact htiles htotal.symm
  · rintro (hlooks | hempty)
    · exact decode_prefixed_of_not_looks w d h hlooks
    · by_cases hlooks : LengthLooksLikeBlock data.length
      · rw [decode_prefixed_of_looks w d h hlooks hlen, decode_of_empty w d h hempty]
      · exact decode_prefixed_of_not_looks w d h hlooks

def syncStream : List UInt8 := stream [(wbtSync, [0xCA, 0xAC, 0xCC, 0xCA, 0x00, 0x01])]

theorem decode_prefixed_iff_sync : startsWithBlock syncStream = true ∧ ((¬ LengthLooksLikeBlock syncStream.length →
        decode ⟨8, true⟩ .new (prefixed syncStream) = decode ⟨8, true⟩ .new syncStream) ∧
      (syncStream.length < 0xCCC00000 →
        (decode ⟨8, true⟩ .new (prefixed syncStream) = decode ⟨8, true⟩ .new syncStream ↔
          ¬ LengthLooksLikeBlock syncStream.length ∨ countTiles syncStream = 0))) :=
  ⟨by decide, decode_prefixed_iff ⟨8, true⟩ .new (by decide)⟩

/-- A well-formed stream: whole blocks, the first of a known type. -/
def WellFormed (data : List UInt8) : Prop :=
  startsWithBlock data = true ∧ ∃ blocks, data = stream blocks ∧ ∀ b ∈ blocks, 6 + b.2.length < 2^32

def tileRegion : List UInt8 :=
  [64, 0, 0, 1, 0, 0, 1, 0] ++ leBytes 4 22 ++ [0x11, 0x11, 0x11, 0x11, 0x11] ++
    block wbtTileSimple [0, 0, 0, 2, 0, 3, 0, 0, 0, 0, 0, 0, 0, 0, 0, 0]

def paddedFrame (n : ℕ) : List UInt8 := stream [(wbtRegion, tileRegion), (wbtFrameEnd, List.replicate n 0)]

theorem length_paddedFrame (n : ℕ) : (paddedFrame n).length = 51 + n := by
  have hregion : tileRegion.length = 39 := by decide
  simp only [paddedFrame, stream, List.flatMap_cons, List.flatMap_nil, List.length_append,
    length_block, List.length_replicate, List.length_nil, hregion]
  omega

theorem paddedFrame_blocks {n : ℕ} (hn : n < 2^31) :
    ∀ b ∈ [(wbtRegion, tileRegion), (wbtFrameEnd, List.replicate n 0)], 6 + b.2.length < 2^32 := by
  intro b hb
  simp only [List.mem_cons, List.not_mem_nil, or_false] at hb
  rcases hb with rfl | rfl
  · decide
  · simp only [List.length_replicate]
    omega

theorem startsWithBlock_paddedFrame (n : ℕ) : startsWithBlock (paddedFrame n) = true := by
  have hdrop : paddedFrame n = leBytes 2 0xCCC4 ++ (leBytes 4 (6 + tileRegion.length) ++ tileRegion ++
      stream [(wbtFrameEnd, List.replicate n 0)]) := by
    rw [paddedFrame, stream, List.flatMap_cons, block, List.append_assoc]
    rfl
  exact (startsWithBlock_of_drop hdrop).mpr ⟨by decide, by decide⟩

theorem decode_paddedFrame {n : ℕ} (hn : n < 2^31) : (decode ⟨8, true⟩ .new (paddedFrame n)).2.length = 1 := by
  have hwalk := walkBlocks_stream (decodeRegion ⟨8, true⟩) [] _ (paddedFrame_blocks hn) (blank .new)
  have hskip : wbtFrameEnd ≠ wbtRegion := by decide
  rw [List.nil_append, List.length_nil, List.foldl_cons, List.foldl_cons, List.foldl_nil, if_pos rfl,
    if_neg hskip] at hwalk
  rw [decode, stripLengthPrefix, if_pos (startsWithBlock_paddedFrame n)]
  change (walkBlocks (decodeRegion ⟨8, true⟩) (paddedFrame n) 0 (blank .new)).2.length = 1
  rw [paddedFrame, hwalk]
  decide +kernel

/-- The prefix of a well-formed stream of 0xCCC0 bytes is walked as a SYNC block: the stream paints a
tile, and with its prefix it paints none. -/
theorem decode_prefixed_lost : WellFormed (paddedFrame 52365) ∧ (paddedFrame 52365).length = 0xCCC0 ∧
      (decode ⟨8, true⟩ .new (paddedFrame 52365)).2.length = 1 ∧
      decode ⟨8, true⟩ .new (prefixed (paddedFrame 52365)) = blank .new ∧
      decode ⟨8, true⟩ .new (prefixed (paddedFrame 52365)) ≠
        decode ⟨8, true⟩ .new (paddedFrame 52365) := by
  have hlen := length_paddedFrame 52365
  have hstart := startsWithBlock_paddedFrame 52365
  have htile := decode_paddedFrame (n := 52365) (by decide)
  have hlooks : LengthLooksLikeBlock (paddedFrame 52365).length := by
    rw [hlen]
    exact ⟨by decide, by decide⟩
  have hlost := decode_prefixed_of_looks ⟨8, true⟩ .new hstart hlooks (by rw [hlen]; decide)
  refine ⟨⟨hstart, _, rfl, paddedFrame_blocks (by decide)⟩, hlen, htile, hlost, fun hsame => ?_⟩
  rw [← hsame, hlost] at htile
  cases htile

end ProgressiveDecoder

end Rdpio.Graphics
