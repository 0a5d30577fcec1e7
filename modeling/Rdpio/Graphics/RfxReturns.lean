import Rdpio.Graphics.RfxFits
import Rdpio.Lib.Ends

/-!
# When RemoteFX decoding returns

What a tile's transforms and colours come to in exact integers, with the values that have to be in an `i32` on
the way.
-/

namespace Rdpio.Graphics.Rfx

open Lib

def highBefore (buf : List ℤ) (i : ℕ) : ℤ :=
  if 0 < i then buf.getD (buf.length / 2 + i - 1) 0 else buf.getD (buf.length / 2) 0

def highSum (buf : List ℤ) (i : ℕ) : ℤ := highBefore buf i + buf.getD (buf.length / 2 + i) 0

def exactEven (buf : List ℤ) (i : ℕ) : ℤ := buf.getD i 0 - (highSum buf i + 2) / 4

def EvenFits (buf : List ℤ) (i : ℕ) : Prop := I32 (highSum buf i) ∧ I32 (highSum buf i + 2) ∧ I32 (exactEven buf i)

def evenSum (buf evens : List ℤ) (i : ℕ) : ℤ :=
  evens.getD i 0 + if i + 1 < buf.length / 2 then evens.getD (i + 1) 0 else evens.getD i 0

def exactOdd (buf evens : List ℤ) (i : ℕ) : ℤ := buf.getD (buf.length / 2 + i) 0 + evenSum buf evens i / 2

def OddFits (buf evens : List ℤ) (i : ℕ) : Prop := I32 (evenSum buf evens i) ∧ I32 (exactOdd buf evens i)

def exactEvens (buf : List ℤ) : List ℤ := (List.range (buf.length / 2)).map (exactEven buf)

def exactIdwt1d (buf : List ℤ) : List ℤ :=
  interleave (exactEvens buf) ((List.range (buf.length / 2)).map (exactOdd buf (exactEvens buf)))

/-- A line's samples are in range, and so are the sums they are made from. -/
def LineFits (buf : List ℤ) : Prop :=
  (∀ i ∈ List.range (buf.length / 2), EvenFits buf i) ∧
    ∀ i ∈ List.range (buf.length / 2), OddFits buf (exactEvens buf) i

def exactRow (size : ℕ) (c : Plane) (y : ℕ) : Plane := setLine c (y * tile) 1 (exactIdwt1d (line c (y * tile) 1 size))

def exactColumn (size : ℕ) (c : Plane) (x : ℕ) : Plane := setLine c x tile (exactIdwt1d (line c x tile size))

def exactRows (size : ℕ) (c : Plane) : Plane := (List.range size).foldl (exactRow size) c

def exactLevel (c : Plane) (size : ℕ) : Plane := (List.range size).foldl (exactColumn size) (exactRows size c)

def LevelFits (c : Plane) (size : ℕ) : Prop :=
  EachTurn (fun c y => LineFits (line c (y * tile) 1 size)) (exactRow size) (List.range size) c ∧
    EachTurn (fun c x => LineFits (line c x tile size)) (exactColumn size) (List.range size) (exactRows size c)

def exactDwt (c : Plane) : Plane := exactLevel (exactLevel (exactLevel c 16) 32) 64

def DwtFits (c : Plane) : Prop :=
  LevelFits c 16 ∧ LevelFits (exactLevel c 16) 32 ∧ LevelFits (exactLevel (exactLevel c 16) 32) 64

def exactPixel (y u v : ℤ) : List UInt8 :=
  [clamp8 (y + 128 + 359 * v / 256), clamp8 (y + 128 - 88 * u / 256 - 183 * v / 256), clamp8 (y + 128 + 454 * u / 256),
    0xFF]

/-- A pixel's products and sums are in range. -/
def PixelFits (y u v : ℤ) : Prop :=
  I32 (y + 128) ∧ I32 (359 * v) ∧ I32 (y + 128 + 359 * v / 256) ∧ I32 (88 * u) ∧ I32 (y + 128 - 88 * u / 256) ∧
    I32 (183 * v) ∧ I32 (y + 128 - 88 * u / 256 - 183 * v / 256) ∧ I32 (454 * u) ∧ I32 (y + 128 + 454 * u / 256)

def exactPlane (data : List UInt8) (q : Quants) : Plane :=
  exactDwt (dequantize (planeOf (streamCoeffs data tileArea)) q)

/-- A component's stream is one that the decoder gets through, and its transform is in range. -/
def PlaneFits (data : List UInt8) (q : Quants) : Prop :=
  StreamFits data tileArea ∧ DwtFits (dequantize (planeOf (streamCoeffs data tileArea)) q)

namespace TileBlock

def exactY (t : TileBlock) : Plane := exactPlane t.y_data t.quant_y

def exactCb (t : TileBlock) : Plane := exactPlane t.cb_data t.quant_cb

def exactCr (t : TileBlock) : Plane := exactPlane t.cr_data t.quant_cr

def Fits (t : TileBlock) : Prop :=
  PlaneFits t.y_data t.quant_y ∧ PlaneFits t.cb_data t.quant_cb ∧ PlaneFits t.cr_data t.quant_cr ∧
    ∀ i ∈ List.range tileArea, PixelFits (read t.exactY i) (read t.exactCb i) (read t.exactCr i)

def exactRgba (t : TileBlock) : List UInt8 :=
  ((List.range tileArea).map fun i => exactPixel (read t.exactY i) (read t.exactCb i) (read t.exactCr i)).flatten

def placed (t : TileBlock) : RfxTile := ⟨t.x_idx * tile, t.y_idx * tile, t.exactRgba⟩

end TileBlock

def tilesIn (quants : List Quants) : ℕ → List UInt8 → List TileBlock
  | 0, _ => []
  | n + 1, block =>
    match tileBlock quants block with
    | none => []
    | some (t, blen) => t :: tilesIn quants n (block.drop blen)

def tilesetTiles (block : List UInt8) : List TileBlock :=
  match tileset block with
  | none => []
  | some (quants, num_tiles, tiles) => tilesIn quants num_tiles tiles

def messageTiles : ℕ → List UInt8 → List TileBlock
  | 0, _ => []
  | turns + 1, data =>
    match nextBlock data with
    | none => []
    | some (block_type, block) =>
      (if block_type = wbtTileset then tilesetTiles block else []) ++ messageTiles turns (data.drop block.length)

def tilesOf (data : List UInt8) : List TileBlock := messageTiles data.length data

theorem i32_yields (v : ℤ) : Yields (i32 v) (I32 v) v := .guard (I32 v) v

theorem idwtEven_yields (buf : List ℤ) (i : ℕ) : Yields (idwtEven buf i) (EvenFits buf i) (exactEven buf i) :=
  (i32_yields _).bind ((i32_yields _).bind (i32_yields _))

theorem idwtOdd_yields (buf evens : List ℤ) (i : ℕ) :
    Yields (idwtOdd buf evens i) (OddFits buf evens i) (exactOdd buf evens i) := (i32_yields _).bind (i32_yields _)

theorem idwt1d_yields (buf : List ℤ) : Yields (idwt1d buf) (LineFits buf) (exactIdwt1d buf) := by
  unfold idwt1d
  refine (Yields.mapM (idwtEven_yields buf) (List.range (buf.length / 2))).bind ?_
  exact (Yields.mapM (idwtOdd_yields buf (exactEvens buf)) (List.range (buf.length / 2))).map _

theorem dwtLevel_yields (c : Plane) (size : ℕ) : Yields (dwtLevel c size) (LevelFits c size) (exactLevel c size) := by
  have hrow : ∀ c y, Yields (dwtRow size c y) (LineFits (line c (y * tile) 1 size)) (exactRow size c y) :=
    fun c y => (idwt1d_yields (line c (y * tile) 1 size)).map (setLine c (y * tile) 1)
  have hcolumn : ∀ c x, Yields (dwtColumn size c x) (LineFits (line c x tile size)) (exactColumn size c x) :=
    fun c x => (idwt1d_yields (line c x tile size)).map (setLine c x tile)
  exact (Yields.foldlM hrow (List.range size) c).bind (Yields.foldlM hcolumn (List.range size) (exactRows size c))

theorem inverseDwt_yields (c : Plane) : Yields (inverseDwt c) (DwtFits c) (exactDwt c) :=
  (dwtLevel_yields c 16).bind ((dwtLevel_yields _ 32).bind (dwtLevel_yields _ 64))

theorem pixelRgba_yields (y u v : ℤ) : Yields (pixelRgba y u v) (PixelFits y u v) (exactPixel y u v) := by
  unfold pixelRgba
  iterate 8 refine (i32_yields _).bind ?_
  exact (i32_yields _).map _

theorem rlgrDecode_yields (data : List UInt8) (mode : RlgrMode) (count : ℕ) :
    Yields (rlgrDecode data mode count) (StreamFits data count) (streamCoeffs data count) :=
  rlgrDecode_eq mode data count

theorem plane_yields (data : List UInt8) (q : Quants) (mode : RlgrMode) :
    Yields (plane data q mode) (PlaneFits data q) (exactPlane data q) :=
  (rlgrDecode_yields data mode tileArea).bind (inverseDwt_yields _)

theorem decodeTile_yields (t : TileBlock) (mode : RlgrMode) : Yields (decodeTile t mode) t.Fits t.exactRgba := by
  have hpixels := Yields.mapM (fun i => pixelRgba_yields (read t.exactY i) (read t.exactCb i) (read t.exactCr i))
    (List.range tileArea)
  refine (plane_yields t.y_data t.quant_y mode).bind ?_
  refine (plane_yields t.cb_data t.quant_cb mode).bind ?_
  exact (plane_yields t.cr_data t.quant_cr mode).bind (hpixels.map List.flatten)

theorem noTiles_yields (out : List RfxTile) :
    Yields (some out) (∀ t ∈ ([] : List TileBlock), t.Fits) (out ++ [].map TileBlock.placed) :=
  ⟨fun _ => by rw [List.map_nil, List.append_nil], fun hnot => absurd (fun t ht => absurd ht List.not_mem_nil) hnot⟩

theorem decodeTiles_yields (quants : List Quants) (mode : RlgrMode) (n : ℕ) (block : List UInt8) (out : List RfxTile) :
    Yields (decodeTiles quants mode n block out) (∀ t ∈ tilesIn quants n block, t.Fits)
      (out ++ (tilesIn quants n block).map TileBlock.placed) := by
  induction n generalizing block out with
  | zero => exact noTiles_yields out
  | succ n ih =>
    unfold decodeTiles tilesIn
    cases tileBlock quants block with
    | none => exact noTiles_yields out
    | some found =>
      obtain ⟨t, blen⟩ := found
      have hall := (decodeTile_yields t mode).bind
        (f := fun rgba => decodeTiles quants mode n (block.drop blen) (out ++ [⟨t.x_idx * tile, t.y_idx * tile, rgba⟩]))
        (ih (block.drop blen) (out ++ [t.placed]))
      rw [List.append_assoc] at hall
      exact hall.congr List.forall_mem_cons.symm

theorem decodeTileset_yields (block : List UInt8) (mode : RlgrMode) (out : List RfxTile) :
    Yields (decodeTileset block mode out) (∀ t ∈ tilesetTiles block, t.Fits)
      (out ++ (tilesetTiles block).map TileBlock.placed) := by
  unfold decodeTileset tilesetTiles
  cases tileset block with
  | none => exact noTiles_yields out
  | some found => exact decodeTiles_yields found.1 mode found.2.1 found.2.2 out

theorem walkBlocks_yields (turns : ℕ) (data : List UInt8) (mode : RlgrMode) (tiles : List RfxTile) :
    Yields ((walkBlocks turns data mode tiles).map Prod.snd) (∀ t ∈ messageTiles turns data, t.Fits)
      (tiles ++ (messageTiles turns data).map TileBlock.placed) := by
  induction turns generalizing data mode tiles with
  | zero => exact noTiles_yields tiles
  | succ turns ih =>
    unfold walkBlocks messageTiles
    cases nextBlock data with
    | none => exact noTiles_yields tiles
    | some found =>
      obtain ⟨block_type, block⟩ := found
      dsimp only
      by_cases hset : block_type = wbtTileset
      · have hall := (decodeTileset_yields block mode tiles).bind
          (f := fun tiles => (walkBlocks turns (data.drop block.length) mode tiles).map Prod.snd)
          (ih (data.drop block.length) mode _)
        rw [List.append_assoc, ← List.map_append] at hall
        rw [if_neg (show ¬ block_type = wbtContext by rw [hset]; decide), if_pos hset, if_pos hset, Option.map_bind]
        exact hall.congr List.forall_mem_append.symm
      · rw [if_neg hset, if_neg hset, List.nil_append]
        split_ifs
        · exact ih (data.drop block.length) (contextMode block mode) tiles
        · exact ih (data.drop block.length) mode tiles

theorem decodeMessage_yields (data : List UInt8) :
    Yields (decodeMessage data) (∀ t ∈ tilesOf data, t.Fits) ((tilesOf data).map TileBlock.placed) :=
  walkBlocks_yields data.length data .rlgr1 []

theorem nextBlock_length {data block : List UInt8} {block_type : ℕ} (h : nextBlock data = some (block_type, block)) :
    6 ≤ block.length ∧ block.length ≤ data.length := by
  unfold nextBlock at h
  split at h
  · split_ifs at h with hbad
    rw [Option.some.injEq, Prod.mk.injEq] at h
    rw [← h.2, List.length_take]
    omega
  · cases h

theorem walkBlocks_add (turns more : ℕ) {data : List UInt8} (mode : RlgrMode) (tiles : List RfxTile)
    (hturns : data.length ≤ turns) : walkBlocks (turns + more) data mode tiles = walkBlocks turns data mode tiles := by
  induction turns generalizing data mode tiles with
  | zero =>
    obtain rfl : data = [] := List.length_eq_zero_iff.1 (by omega)
    rw [Nat.zero_add]
    cases more <;> rfl
  | succ turns ih =>
    rw [Nat.succ_add]
    unfold walkBlocks
    cases hnext : nextBlock data with
    | none => rfl
    | some found =>
      obtain ⟨block_type, block⟩ := found
      obtain ⟨hsix, hle⟩ := nextBlock_length hnext
      have hshort : (data.drop block.length).length ≤ turns := by
        rw [List.length_drop]
        omega
      simp only [ih _ _ hshort]

def rlgrDecodeVec (data : List UInt8) (mode : RlgrMode) (count : ℕ) : Option (List Int16) :=
  if count * 2 < 2^63 then rlgrDecode data mode count else none

/-- The decoder ends with `count` coefficients just where each turn of its loop gets through, and a message
decodes just where each of its tiles fits. -/
theorem decode_returns_iff (data : List UInt8) :
    (∀ mode count, (∃ out, rlgrDecodeVec data mode count = some out ∧ out.length = count) ↔
        count < 2^62 ∧ StreamFits data count) ∧
      ((∃ tiles, decodeMessage data = some tiles) ↔ ∀ t ∈ tilesOf data, t.Fits) ∧
      (∀ mode count more, decodeLoop mode count (data.length * 8 + more) ⟨.new data, [], .new⟩ =
        decodeLoop mode count (data.length * 8) ⟨.new data, [], .new⟩) ∧
      ∀ mode tiles more, walkBlocks (data.length + more) data mode tiles = walkBlocks data.length data mode tiles := by
  refine ⟨fun mode count => ?_, (decodeMessage_yields data).ends_iff, fun mode count more => ?_,
    fun mode tiles more => walkBlocks_add data.length more mode tiles le_rfl⟩
  · unfold rlgrDecodeVec
    by_cases hroom : count * 2 < 2^63
    · rw [if_pos hroom]
      constructor
      · rintro ⟨out, hout, -⟩
        exact ⟨by omega, (rlgrDecode_yields data mode count).ends_iff.1 ⟨out, hout⟩⟩
      · rintro ⟨-, hfits⟩
        exact ⟨streamCoeffs data count, (rlgrDecode_yields data mode count).1 hfits, length_streamCoeffs data count⟩
    · rw [if_neg hroom]
      constructor
      · rintro ⟨out, hout, -⟩
        cases hout
      · rintro ⟨hcount, -⟩
        omega
  · refine decodeLoop_add mode count (data.length * 8) more Params.ok_new (Nat.le_of_eq ?_)
    exact (BitReader.bitsLeft_eq (.new data)).symm

def steepStream : List UInt8 := [0x3F] ++ List.replicate 32 0xFF ++ List.replicate 8 0x00

def steepMessage : List UInt8 :=
  [0xC7, 0xCC, 85, 0, 0, 0, 0, 0, 0, 0, 0, 0, 1, 64, 1, 0, 60, 0, 0, 0, 0, 0, 0, 0, 0] ++
    [0xC3, 0xCA, 60, 0, 0, 0, 0, 0, 0, 0, 0, 0, 0, 41, 0, 0, 0, 0, 0] ++ steepStream

/-- The parameter goes past 31 there, and the next quotient is to be shifted by it. -/
theorem rlgrDecode_steep : rlgrDecodeVec steepStream .rlgr1 4096 = none ∧ decodeMessage steepMessage = none := by
  decide +kernel

end Rdpio.Graphics.Rfx
