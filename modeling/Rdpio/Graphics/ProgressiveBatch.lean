import Mathlib.Algebra.Order.BigOperators.Group.List
import Rdpio.Graphics.Progressive
import Rdpio.Lib.Grid

/-!
# Tiles decoded in batches

`decode_tiles` binds tile blocks into a batch and decodes the batch later, over several threads.
-/

namespace Rdpio.Graphics

open Lib

/-! ### Decoding a slot does not depend on the thread -/

theorem decodeSlot_scratch (slot : Slot) (extrapolate : Bool) (s s' : WorkerScratch) :
    (decodeSlot slot extrapolate s).1 = (decodeSlot slot extrapolate s').1 := by
  obtain ⟨parsed, num_bits, state, rgba⟩ := slot
  cases parsed with
  | first x_idx y_idx bitpos shift coeff_diff data =>
    obtain ⟨hy, hy'⟩ := decodeComponent_scratch shift.y data.y s.planes.y s'.planes.y s.temp s'.temp
      state.y coeff_diff extrapolate
    simp only [decodeSlot]
    generalize decodeComponent shift.y data.y s.planes.y s.temp state.y _ _ = y at hy hy' ⊢
    generalize decodeComponent shift.y data.y s'.planes.y s'.temp state.y _ _ = z at hy hy' ⊢
    obtain ⟨hcb, hcb'⟩ := decodeComponent_scratch shift.cb data.cb s.planes.cb s'.planes.cb y.2.1
      z.2.1 state.cb coeff_diff extrapolate
    generalize decodeComponent shift.cb data.cb s.planes.cb _ state.cb _ _ = cb at hcb hcb' ⊢
    generalize decodeComponent shift.cb data.cb s'.planes.cb _ state.cb _ _ = cb2 at hcb hcb' ⊢
    obtain ⟨hcr, hcr'⟩ := decodeComponent_scratch shift.cr data.cr s.planes.cr s'.planes.cr cb.2.1
      cb2.2.1 state.cr coeff_diff extrapolate
    rw [hy, hy', hcb, hcb', hcr, hcr']
  | upgrade x_idx y_idx new_bitpos shift srl raw =>
    obtain ⟨hy, hy'⟩ := upgradeComponent_scratch shift.y num_bits.y s.temp s'.temp state.y srl.y raw.y extrapolate
    simp only [decodeSlot]
    generalize upgradeComponent shift.y num_bits.y s.temp state.y _ _ _ = y at hy hy' ⊢
    generalize upgradeComponent shift.y num_bits.y s'.temp state.y _ _ _ = z at hy hy' ⊢
    obtain ⟨hcb, hcb'⟩ := upgradeComponent_scratch shift.cb num_bits.cb y.2.1 z.2.1 state.cb srl.cb raw.cb extrapolate
    generalize upgradeComponent shift.cb num_bits.cb y.2.1 state.cb _ _ _ = cb at hcb hcb' ⊢
    generalize upgradeComponent shift.cb num_bits.cb z.2.1 state.cb _ _ _ = cb2 at hcb hcb' ⊢
    obtain ⟨hcr, hcr'⟩ := upgradeComponent_scratch shift.cr num_bits.cr cb.2.1 cb2.2.1 state.cr srl.cr
      raw.cr extrapolate
    rw [hy, hy', hcb, hcb', hcr, hcr']

def decoded (extrapolate : Bool) (slot : Slot) : Slot := (decodeSlot slot extrapolate .new).1

theorem decodeSlots_eq (extrapolate : Bool) (slots : List Slot) (s : WorkerScratch) :
    (decodeSlots extrapolate slots s).1 = slots.map (decoded extrapolate) := by
  induction slots generalizing s with
  | nil => rfl
  | cons slot slots ih =>
    rw [decodeSlots, List.map_cons, decoded, decodeSlot_scratch slot extrapolate .new s]
    exact congrArg _ (ih _)

theorem decodeChunks_eq (extrapolate : Bool) (chunks : List (List Slot)) (ss : List WorkerScratch)
    (h : chunks.length ≤ ss.length) :
    (decodeChunks extrapolate chunks ss).1 = chunks.map (·.map (decoded extrapolate)) := by
  induction chunks generalizing ss with
  | nil => cases ss <;> rfl
  | cons chunk chunks ih =>
    cases ss with
    | nil => simp at h
    | cons s ss =>
      simp only [decodeChunks, List.map_cons, decodeSlots_eq]
      exact congrArg _ (ih ss (by simpa using h))

namespace ProgressiveDecoder

theorem length_chunks_le_threads {len threads : ℕ} (hlen : 0 < len) (ht : 0 < threads)
    {batch : List Slot} (hb : batch.length = len) :
    (chunks (divCeil len threads) batch).length ≤ threads := by
  have hper : len ≤ threads * divCeil len threads := by
    have hmod := Nat.mod_add_div (len + threads - 1) threads
    have hlt := Nat.mod_lt (len + threads - 1) ht
    rw [divCeil]
    omega
  have hpos : 0 < divCeil len threads := by
    by_contra hzero
    obtain hz : divCeil len threads = 0 := by omega
    rw [hz] at hper
    omega
  exact length_chunks_le hpos (by rw [hb]; exact hper)

theorem decodeBatch_slots (w : Workers) (d : ProgressiveDecoder) (batch : List Slot)
    (extrapolate : Bool) :
    (decodeBatch w d batch extrapolate).2 = batch.map (decoded extrapolate) := by
  rw [decodeBatch]
  split_ifs with h
  · simp only [Bool.and_eq_true, decide_eq_true_eq] at h
    obtain ⟨⟨-, hlen⟩, hthreads⟩ := h
    rw [parMin] at hlen
    generalize batchThreads w batch.length = threads at hthreads ⊢
    have hcount : (chunks (divCeil batch.length threads) batch).length ≤ threads :=
      length_chunks_le_threads (by omega) (by omega) rfl
    have hpos : 0 < divCeil batch.length threads := by
      rw [divCeil]
      exact Nat.div_pos (by omega) (by omega)
    have hflat := flatten_chunks hpos batch
    simp only
    split
    next hchunks =>
      rw [hchunks] at hflat
      rw [← hflat]
      rfl
    next own rest hchunks =>
      rw [hchunks] at hcount hflat
      rw [decodeSlots_eq, decodeChunks_eq, ← hflat, List.flatten_cons, List.map_append, List.map_flatten]
      rw [List.length_append, List.length_replicate]
      rw [List.length_cons] at hcount
      omega
  · exact decodeSlots_eq extrapolate batch d.scratch

theorem decodeBatch_tiles (w : Workers) (d : ProgressiveDecoder) (batch : List Slot)
    (extrapolate : Bool) :
    (decodeBatch w d batch extrapolate).1.tiles = d.tiles ∧ (decodeBatch w d batch extrapolate).1.stats = d.stats := by
  rw [decodeBatch]
  split_ifs
  · simp only
    split <;> exact ⟨rfl, rfl⟩
  · exact ⟨rfl, rfl⟩

theorem flushBatch_spec (w : Workers) (d : ProgressiveDecoder) (batch : List Slot) (extrapolate : Bool)
    (rects : List RegionRect) (out : List ProgressiveTile) :
    ((flushBatch w d batch extrapolate rects out).1.tiles,
        (flushBatch w d batch extrapolate rects out).2) =
          (batch.map (decoded extrapolate)).foldl (restore rects) (d.tiles, out) ∧
      (flushBatch w d batch extrapolate rects out).1.stats = d.stats := by
  rw [flushBatch]
  by_cases h : batch.isEmpty
  · rw [if_pos h, List.isEmpty_iff.mp h]
    exact ⟨rfl, rfl⟩
  · rw [if_neg h]
    simp only [decodeBatch_slots, decodeBatch_tiles, and_self]

def tileAlone (r : Region) (s : ProgressiveDecoder × List ProgressiveTile) (block_type : UInt16)
    (body : List UInt8) : ProgressiveDecoder × List ProgressiveTile :=
  match parseTile r s.1.stats block_type body with
  | none => s
  | some (stats, parsed) =>
    match parsed.bind (bind s.1.tiles) with
    | .ok (slot, tiles) =>
      let (slot, scratch) := decodeSlot slot r.extrapolate s.1.scratch
      let (tiles, out) := restore r.rects (tiles, s.2) slot
      ({ s.1 with stats, tiles, scratch }, out)
    | .error _ => ({ s.1 with stats := { stats with skipped := stats.skipped + 1 } }, s.2)

def decodeTilesAlone (r : Region) (d : ProgressiveDecoder) (data : List UInt8) (num_tiles : ℕ)
    (out : List ProgressiveTile) : ProgressiveDecoder × List ProgressiveTile :=
  walkTiles (tileAlone r) data num_tiles 0 (d, out)

theorem walkTiles_succ {σ : Type} (step : σ → UInt16 → List UInt8 → σ) (data : List UInt8) (n off : ℕ)
    (s : σ) : walkTiles step data (n + 1) off s = walkTiles step data n off s ∨ ∃ block_type body,
        walkTiles step data (n + 1) off s = step (walkTiles step data n off s) block_type body := by
  induction n generalizing off s with
  | zero =>
    simp only [walkTiles]
    split_ifs
    · exact .inl rfl
    · exact .inl rfl
    · exact .inr ⟨_, _, rfl⟩
  | succ n ih =>
    rw [walkTiles.eq_2 step data off s (n + 1), walkTiles.eq_2 step data off s n]
    split_ifs
    · exact .inl rfl
    · simp only
      split_ifs
      · exact .inl rfl
      · exact ih _ _

theorem walkTiles_rel {σ τ : Type} (R : σ → τ → Prop) {f : σ → UInt16 → List UInt8 → σ}
    {g : τ → UInt16 → List UInt8 → τ} (hstep : ∀ s t b body, R s t → R (f s b body) (g t b body))
    (data : List UInt8) (n off : ℕ) {s : σ} {t : τ} (h : R s t) :
    R (walkTiles f data n off s) (walkTiles g data n off t) := by
  induction n generalizing off s t with
  | zero => exact h
  | succ n ih =>
    rw [walkTiles, walkTiles]
    split_ifs
    · exact h
    · simp only
      split_ifs
      · exact h
      · exact ih _ (hstep _ _ _ _ h)

/-! ### The batch -/

theorem bindState_parsed {entry : Option TileState} {p : ParsedTile} {slot : Slot}
    (h : bindState entry p = .ok slot) : slot.parsed = p := by
  cases p with
  | first => cases h; rfl
  | upgrade =>
    obtain ⟨_, -, h⟩ := bind_eq_ok h
    obtain ⟨_, -, h⟩ := bind_eq_ok h
    obtain ⟨_, -, h⟩ := bind_eq_ok h
    obtain ⟨_, -, h⟩ := bind_eq_ok h
    cases h
    rfl

theorem restore_tiles_of_notMem (rects : List RegionRect) (slots : List Slot) (k : Pos)
    (hk : ∀ slot ∈ slots, slot.parsed.key ≠ k)
    (s : (Pos → Option TileState) × List ProgressiveTile) :
    (slots.foldl (restore rects) s).1 k = s.1 k := by
  induction slots generalizing s with
  | nil => rfl
  | cons slot slots ih =>
    have hne := hk slot List.mem_cons_self
    rw [List.foldl_cons, ih fun t ht => hk t (List.mem_cons_of_mem _ ht), restore]
    exact Function.update_of_ne hne.symm _ _

theorem restore_update (rects : List RegionRect) (slots : List Slot) (k : Pos) (v : Option TileState)
    (hk : ∀ slot ∈ slots, slot.parsed.key ≠ k)
    (s : (Pos → Option TileState) × List ProgressiveTile) :
    slots.foldl (restore rects) (Function.update s.1 k v, s.2) =
      (Function.update (slots.foldl (restore rects) s).1 k v, (slots.foldl (restore rects) s).2) := by
  induction slots generalizing s with
  | nil => rfl
  | cons slot slots ih =>
    have hne := hk slot List.mem_cons_self
    have hstep : restore rects (Function.update s.1 k v, s.2) slot =
        (Function.update (restore rects s slot).1 k v, (restore rects s slot).2) := by
      simp only [restore]
      rw [Function.update_comm hne]
    rw [List.foldl_cons, List.foldl_cons, hstep]
    exact ih (fun t ht => hk t (List.mem_cons_of_mem _ ht)) _

structure Refines (r : Region) (s : TilesLoop) (t : ProgressiveDecoder × List ProgressiveTile) : Prop where
  stats : s.dec.stats = t.1.stats
  restored : (s.batch.map (decoded r.extrapolate)).foldl (restore r.rects) (s.dec.tiles, s.out) = (t.1.tiles, t.2)
  in_batch : ∀ k, k ∈ s.in_batch ↔ ∃ slot ∈ s.batch, slot.parsed.key = k

namespace Refines

variable {r : Region} {s : TilesLoop} {t : ProgressiveDecoder × List ProgressiveTile}

theorem tiles_eq (h : Refines r s t) {k : Pos} (hk : k ∉ s.in_batch) : s.dec.tiles k = t.1.tiles k := by
  have hrest := restore_tiles_of_notMem r.rects (s.batch.map (decoded r.extrapolate)) k
    (fun slot hslot heq => by
      obtain ⟨b, hb, rfl⟩ := List.mem_map.mp hslot
      exact hk ((h.in_batch k).mpr ⟨b, hb, heq⟩)) (s.dec.tiles, s.out)
  rw [h.restored] at hrest
  exact hrest.symm

theorem flush (w : Workers) (h : Refines r s t) : Refines r
      { dec := (flushBatch w s.dec s.batch r.extrapolate r.rects s.out).1, batch := [], in_batch := []
        out := (flushBatch w s.dec s.batch r.extrapolate r.rects s.out).2 } t := by
  obtain ⟨hrest, hstats⟩ := flushBatch_spec w s.dec s.batch r.extrapolate r.rects s.out
  exact ⟨hstats.trans h.stats, hrest.trans h.restored, by simp⟩

theorem block (w : Workers) (h : Refines r s t) (block_type : UInt16) (body : List UInt8) :
    Refines r (tileBlock w r s block_type body) (tileAlone r t block_type body) := by
  rw [tileBlock, tileAlone, ← h.stats]
  rcases hparse : parseTile r s.dec.stats block_type body with - | ⟨stats, parsed⟩
  · exact h
  have hcount : Refines r { s with dec := { s.dec with stats } } ({ t.1 with stats }, t.2) :=
    ⟨rfl, h.restored, h.in_batch⟩
  rcases parsed with reason | p
  · exact ⟨rfl, h.restored, h.in_batch⟩
  -- A batch that has the block's position is flushed; after that it does not have it.
  obtain ⟨u, hu, hrefines, hnot⟩ : ∃ u : TilesLoop,
      (if p.key ∈ s.in_batch then
        { dec := (flushBatch w { s.dec with stats } s.batch r.extrapolate r.rects s.out).1, batch := []
          in_batch := []
          out := (flushBatch w { s.dec with stats } s.batch r.extrapolate r.rects s.out).2 }
        else { s with dec := { s.dec with stats } }) = u ∧
      Refines r u ({ t.1 with stats }, t.2) ∧ p.key ∉ u.in_batch := by
    refine ⟨_, rfl, ?_⟩
    split_ifs with hmem
    · exact ⟨hcount.flush w, List.not_mem_nil⟩
    · exact ⟨hcount, hmem⟩
  simp only [hu, Except.bind]
  have hout : ∀ slot ∈ u.batch.map (decoded r.extrapolate), slot.parsed.key ≠ p.key := by
    intro slot hslot heq
    obtain ⟨b, hb, rfl⟩ := List.mem_map.mp hslot
    exact hnot ((hrefines.in_batch p.key).mpr ⟨b, hb, heq⟩)
  rw [bind, bind, ← hrefines.tiles_eq hnot]
  rcases hbind : bindState (u.dec.tiles p.key) p with reason | slot
  · exact ⟨rfl, hrefines.restored, hrefines.in_batch⟩
  have hslot := bindState_parsed hbind
  refine ⟨hrefines.stats, ?_, ?_⟩
  · have hdec : (decodeSlot slot r.extrapolate t.1.scratch).1 = decoded r.extrapolate slot :=
      decodeSlot_scratch slot r.extrapolate _ _
    simp only [List.map_append, List.map_cons, List.map_nil, List.foldl_append, List.foldl_cons, List.foldl_nil, hdec]
    rw [restore_update r.rects _ p.key _ hout (u.dec.tiles, u.out), hrefines.restored]
  · intro k
    simp only [List.mem_cons, List.mem_append, List.not_mem_nil, or_false, hrefines.in_batch k]
    constructor
    · rintro (rfl | ⟨b, hb, rfl⟩)
      · exact ⟨slot, .inr rfl, rfl⟩
      · exact ⟨b, .inl hb, rfl⟩
    · rintro ⟨b, hb | rfl, rfl⟩
      · exact .inr ⟨b, hb, rfl⟩
      · exact .inl rfl

end Refines

theorem decodeTiles_eq_alone (w : Workers) (r : Region) (d : ProgressiveDecoder) (data : List UInt8)
    (num_tiles : ℕ) (out : List ProgressiveTile) :
    (decodeTiles w r d data num_tiles out).2 = (decodeTilesAlone r d data num_tiles out).2 ∧
      (decodeTiles w r d data num_tiles out).1.tiles = (decodeTilesAlone r d data num_tiles out).1.tiles ∧
      (decodeTiles w r d data num_tiles out).1.stats = (decodeTilesAlone r d data num_tiles out).1.stats := by
  have hstart : Refines r { dec := d, batch := [], in_batch := [], out } (d, out) := ⟨rfl, rfl, by simp⟩
  have hwalk := walkTiles_rel (Refines r) (fun s t b body h => h.block w b body) data num_tiles 0 hstart
  obtain ⟨hstats, hrest, -⟩ := hwalk.flush w
  obtain ⟨htiles, hout⟩ := Prod.mk.inj hrest
  exact ⟨hout, htiles, hstats⟩

theorem parseTile_skipped {r : Region} {stats stats' : FrameStats} {block_type : UInt16}
    {body : List UInt8} {parsed : Except String ParsedTile}
    (h : parseTile r stats block_type body = some (stats', parsed)) :
    stats'.skipped = stats.skipped := by
  rw [parseTile] at h
  split_ifs at h <;> cases h <;> rfl

theorem tileAlone_skipped {r : Region} {s : ProgressiveDecoder × List ProgressiveTile}
    {block_type : UInt16} {body : List UInt8}
    (h : s.1.stats.skipped < (tileAlone r s block_type body).1.stats.skipped) :
    (tileAlone r s block_type body).1.tiles = s.1.tiles ∧ (tileAlone r s block_type body).2 = s.2 := by
  rw [tileAlone] at h ⊢
  rcases hparse : parseTile r s.1.stats block_type body with - | ⟨stats, parsed⟩
  · exact ⟨rfl, rfl⟩
  rw [hparse] at h
  simp only at h ⊢
  rcases hbind : parsed.bind (bind s.1.tiles) with reason | ⟨slot, tiles⟩
  · exact ⟨rfl, rfl⟩
  · have hsame := parseTile_skipped hparse
    simp only [hbind] at h
    omega

theorem resolveQuant_pos {quants : List Quant} {idx : TileIndex} {prog : Except String ProgQuant}
    {oor under : String} {bitpos shift : Components Quant}
    (h : resolveQuant quants idx prog oor under = .ok (bitpos, shift)) : 1 ≤ bitpos.y.ll3 := by
  obtain ⟨quant_y, -, h⟩ := bind_eq_ok h
  obtain ⟨quant_cb, -, h⟩ := bind_eq_ok h
  obtain ⟨quant_cr, -, h⟩ := bind_eq_ok h
  obtain ⟨prog, -, h⟩ := bind_eq_ok h
  obtain ⟨shift_y, hy, h⟩ := bind_eq_ok h
  obtain ⟨shift_cb, -, h⟩ := bind_eq_ok h
  obtain ⟨shift_cr, -, h⟩ := bind_eq_ok h
  cases h
  exact Quant.ll3_le_of_sub (okOr_eq_ok hy)

theorem parseTileFirst_pos {block_type : UInt16} {body : List UInt8} {quants : List Quant}
    {prog_quants : List ProgQuant} {p : ParsedTile}
    (h : parseTileFirst block_type body quants prog_quants = .ok p) : 1 ≤ p.bitpos.y.ll3 := by
  obtain ⟨idx, -, h⟩ := bind_eq_ok h
  obtain ⟨flags, -, h⟩ := bind_eq_ok h
  obtain ⟨quality, -, h⟩ := bind_eq_ok h
  obtain ⟨data, -, h⟩ := bind_eq_ok h
  obtain ⟨⟨bitpos, shift⟩, hquant, h⟩ := bind_eq_ok h
  cases h
  exact resolveQuant_pos hquant

theorem parseTileUpgrade_pos {body : List UInt8} {quants : List Quant} {prog_quants : List ProgQuant}
    {p : ParsedTile} (h : parseTileUpgrade body quants prog_quants = .ok p) :
    1 ≤ p.bitpos.y.ll3 := by
  obtain ⟨idx, -, h⟩ := bind_eq_ok h
  obtain ⟨quality, -, h⟩ := bind_eq_ok h
  obtain ⟨data, -, h⟩ := bind_eq_ok h
  obtain ⟨⟨bitpos, shift⟩, hquant, h⟩ := bind_eq_ok h
  cases h
  exact resolveQuant_pos hquant

theorem parseTile_pos {r : Region} {stats stats' : FrameStats} {block_type : UInt16}
    {body : List UInt8} {p : ParsedTile}
    (h : parseTile r stats block_type body = some (stats', .ok p)) : 1 ≤ p.bitpos.y.ll3 := by
  rw [parseTile] at h
  split_ifs at h
  all_goals obtain ⟨-, hparse⟩ := Prod.mk.inj (Option.some.inj h)
  · exact parseTileFirst_pos hparse
  · exact parseTileFirst_pos hparse
  · exact parseTileFirst_pos hparse
  · exact parseTileFirst_pos hparse
  · exact parseTileUpgrade_pos hparse

theorem decodeSlot_bit_pos {entry : Option TileState} {p : ParsedTile} {slot : Slot}
    (h : bindState entry p = .ok slot) (extrapolate : Bool) (s : WorkerScratch) :
    (decodeSlot slot extrapolate s).1.state.y.bit_pos = p.bitpos.y := by
  cases p with
  | first =>
    cases h
    rfl
  | upgrade =>
    obtain ⟨state, -, h⟩ := bind_eq_ok h
    obtain ⟨y, -, h⟩ := bind_eq_ok h
    obtain ⟨cb, -, h⟩ := bind_eq_ok h
    obtain ⟨cr, -, h⟩ := bind_eq_ok h
    cases h
    rfl

theorem tileAlone_tiles (r : Region) (s : ProgressiveDecoder × List ProgressiveTile)
    (block_type : UInt16) (body : List UInt8) (k : Pos) :
    (tileAlone r s block_type body).1.tiles k = s.1.tiles k ∨
      ∃ state, (tileAlone r s block_type body).1.tiles k = some state ∧ state ≠ TileState.default := by
  rw [tileAlone]
  rcases hparse : parseTile r s.1.stats block_type body with - | ⟨stats, reason | p⟩
  · exact .inl rfl
  · exact .inl rfl
  simp only [Except.bind, bind]
  rcases hbind : bindState (s.1.tiles p.key) p with reason | slot
  · exact .inl rfl
  have hparsed : (decodeSlot slot r.extrapolate s.1.scratch).1.parsed = slot.parsed := rfl
  have hkey : (decodeSlot slot r.extrapolate s.1.scratch).1.parsed.key = p.key := by
    rw [hparsed, bindState_parsed hbind]
  simp only [restore, hkey, Function.update_idem]
  by_cases hk : k = p.key
  · subst hk
    refine .inr ⟨_, Function.update_self _ _ _, fun hdefault => ?_⟩
    have hpos := parseTile_pos hparse
    rw [← decodeSlot_bit_pos hbind r.extrapolate s.1.scratch, hdefault] at hpos
    exact absurd hpos (by decide)
  · exact .inl (Function.update_of_ne hk _ _)

/-- Tiles decoded in batches are those of the blocks taken strictly one after another: the same tiles in the
same order and the same states. -/
theorem decodeTiles_as_alone (w : Workers) (r : Region) (d : ProgressiveDecoder) (data : List UInt8)
    (num_tiles : ℕ) (out : List ProgressiveTile) :
    ((decodeTiles w r d data num_tiles out).2 = (decodeTilesAlone r d data num_tiles out).2 ∧
      (decodeTiles w r d data num_tiles out).1.tiles = (decodeTilesAlone r d data num_tiles out).1.tiles ∧
      (decodeTiles w r d data num_tiles out).1.stats = (decodeTilesAlone r d data num_tiles out).1.stats) ∧
    (∀ n, (decodeTiles w r d data n out).1.stats.skipped <
        (decodeTiles w r d data (n + 1) out).1.stats.skipped →
      (decodeTiles w r d data (n + 1) out).1.tiles = (decodeTiles w r d data n out).1.tiles ∧
        (decodeTiles w r d data (n + 1) out).2 = (decodeTiles w r d data n out).2) ∧
    ∀ k, (decodeTiles w r d data num_tiles out).1.tiles k = d.tiles k ∨
      ∃ state, (decodeTiles w r d data num_tiles out).1.tiles k = some state ∧ state ≠ TileState.default := by
  refine ⟨decodeTiles_eq_alone w r d data num_tiles out, fun n hskip => ?_, fun k => ?_⟩
  · obtain ⟨hout, htiles, hstats⟩ := decodeTiles_eq_alone w r d data n out
    obtain ⟨hout', htiles', hstats'⟩ := decodeTiles_eq_alone w r d data (n + 1) out
    rw [hstats, hstats'] at hskip
    rw [hout, hout', htiles, htiles']
    rcases walkTiles_succ (tileAlone r) data n 0 (d, out) with hend | ⟨block_type, body, hblock⟩
    · rw [decodeTilesAlone, decodeTilesAlone, hend]
      exact ⟨rfl, rfl⟩
    · rw [decodeTilesAlone, decodeTilesAlone, hblock] at hskip ⊢
      exact tileAlone_skipped hskip
  · rw [(decodeTiles_eq_alone w r d data num_tiles out).2.1]
    -- Along the walk alone: a position is as it was at the start, or not the default.
    refine walkTiles_rel (fun (s _ : ProgressiveDecoder × List ProgressiveTile) =>
      s.1.tiles k = d.tiles k ∨ ∃ state, s.1.tiles k = some state ∧ state ≠ TileState.default)
      (g := tileAlone r) (t := (d, out)) (fun s _ block_type body hs => ?_) data num_tiles 0 (.inl rfl)
    rcases tileAlone_tiles r s block_type body k with hsame | hnew
    · rw [hsame]
      exact hs
    · exact .inr hnew

end ProgressiveDecoder

/-! ## The pieces a payload decodes to -/

structure ProgressiveTile.Piece (t : ProgressiveTile) : Prop where
  w_pos : 0 < t.w
  h_pos : 0 < t.h
  w_le : t.w ≤ 64
  h_le : t.h ≤ 64
  right : t.x + t.w ≤ 2 ^ 22
  bottom : t.y + t.h ≤ 2 ^ 22
  whole : t.rgba.length = t.w * t.h * 4

theorem length_ycbcrToRgba (planes : Components Plane) : (ycbcrToRgba planes).length = 64 * 64 * 4 := by
  unfold ycbcrToRgba
  rw [Lib.length_flatMap_range (w := 4) fun i _ => rfl]
  rfl

theorem piece_of_crop {r : RegionRect} {x y : ℕ} {rgba : List UInt8} {t : ProgressiveTile} (hx : x + 64 ≤ 2 ^ 22)
    (hy : y + 64 ≤ 2 ^ 22) (hrgba : rgba.length = 64 * 64 * 4) (h : r.crop x y rgba = some t) : t.Piece := by
  have hsize : tileSize = 64 := rfl
  unfold RegionRect.crop at h
  dsimp only at h
  rw [hsize] at h
  generalize hix : max x r.x.toNat = ix at h
  generalize hiy : max y r.y.toNat = iy at h
  generalize hir : min (x + 64) (r.x.toNat + r.w.toNat) = ir at h
  generalize hib : min (y + 64) (r.y.toNat + r.h.toNat) = ib at h
  split_ifs at h with hempty
  rw [← Option.some.inj h]
  constructor
  · exact Nat.sub_pos_of_lt (by omega)
  · exact Nat.sub_pos_of_lt (by omega)
  · show ir - ix ≤ 64
    omega
  · show ib - iy ≤ 64
    omega
  · show ix + (ir - ix) ≤ 2 ^ 22
    omega
  · show iy + (ib - iy) ≤ 2 ^ 22
    omega
  · dsimp only
    rw [Lib.length_flatMap_range (w := (ir - ix) * 4) fun j hj => ?_]
    · ring
    · rw [List.length_take, List.length_drop, hrgba]
      omega

theorem piece_of_emitClipped {x y : ℕ} {rgba : List UInt8} {rects : List RegionRect} (hx : x + 64 ≤ 2 ^ 22)
    (hy : y + 64 ≤ 2 ^ 22) (hrgba : rgba.length = 64 * 64 * 4) : ∀ t ∈ emitClipped x y rgba rects, t.Piece := by
  intro t ht
  unfold emitClipped at ht
  split_ifs at ht with hwhole
  · obtain rfl := List.mem_singleton.mp ht
    exact ⟨Nat.succ_pos _, Nat.succ_pos _, Nat.le_refl _, Nat.le_refl _, hx, hy, hrgba⟩
  · obtain ⟨r, -, hcrop⟩ := List.mem_filterMap.mp ht
    exact piece_of_crop hx hy hrgba hcrop

namespace ProgressiveDecoder

theorem piece_of_decodeSlot {rects : List RegionRect} (slot : Slot) (extrapolate : Bool) (s : WorkerScratch) :
    ∀ t ∈ emitted rects (decodeSlot slot extrapolate s).1, t.Piece := by
  intro t ht
  unfold emitted decodeSlot at ht
  dsimp only at ht
  have hlow : ∀ i : UInt16, i.toNat * tileSize + 64 ≤ 2 ^ 22 := by
    intro i
    have hi : i.toNat < 2 ^ 16 := i.toNat_lt
    have hsize : tileSize = 64 := rfl
    rw [hsize]
    omega
  exact piece_of_emitClipped (hlow _) (hlow _) (length_ycbcrToRgba _) t ht

theorem pieces_of_tileAlone {r : Region} {s : ProgressiveDecoder × List ProgressiveTile} (h : ∀ t ∈ s.2, t.Piece)
    (block_type : UInt16) (body : List UInt8) : ∀ t ∈ (tileAlone r s block_type body).2, t.Piece := by
  rw [tileAlone]
  rcases parseTile r s.1.stats block_type body with - | ⟨stats, parsed⟩
  · exact h
  dsimp only
  rcases parsed.bind (bind s.1.tiles) with reason | ⟨slot, tiles⟩
  · exact h
  · intro t ht
    rcases List.mem_append.mp ht with hold | hnew
    · exact h t hold
    · exact piece_of_decodeSlot slot _ _ t hnew

theorem pieces_of_decodeRegion (w : Workers) {s : ProgressiveDecoder × List ProgressiveTile} (h : ∀ t ∈ s.2, t.Piece)
    (b : List UInt8) : ∀ t ∈ (decodeRegion w s b).2, t.Piece := by
  unfold decodeRegion
  cases parseRegion b with
  | none => exact h
  | some p =>
    obtain ⟨num_tiles, region, tile_data⟩ := p
    dsimp only
    rw [(decodeTiles_eq_alone w region s.1 tile_data num_tiles s.2).1]
    exact walkTiles_rel (fun s _ => ∀ t ∈ s.2, t.Piece) (g := fun (u : Unit) _ _ => u)
      (fun s _ b body hs => pieces_of_tileAlone hs b body) tile_data num_tiles 0 (s := s) (t := ()) h

theorem decode_pieces (w : Workers) (d : ProgressiveDecoder) (data : List UInt8) :
    ∀ t ∈ (decode w d data).2, t.Piece := by
  have hwalk : ∀ n data off s, data.length - off ≤ n → (∀ t ∈ s.2, t.Piece) →
      ∀ t ∈ (walkBlocks (decodeRegion w) data off s).2, t.Piece := by
    intro n
    induction n with
    | zero =>
      intro data off s hn hs
      rw [walkBlocks, if_neg (by omega)]
      exact hs
    | succ n ih =>
      intro data off s hn hs
      rw [walkBlocks]
      split_ifs with hroom
      · dsimp only
        split_ifs with hblock hregion
        · exact ih _ _ _ (by omega) (pieces_of_decodeRegion w hs _)
        · exact ih _ _ _ (by omega) hs
        · exact hs
      · exact hs
  exact hwalk _ _ _ _ (Nat.le_refl _) (fun t ht => absurd ht List.not_mem_nil)

end ProgressiveDecoder

end Rdpio.Graphics
