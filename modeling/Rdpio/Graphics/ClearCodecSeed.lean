import Mathlib.Data.List.GetD
import Rdpio.Lib.Loops
import Rdpio.Graphics.ClearCodec

/-!
# When the seed does not show

`needs_seed` judges from headers that a stream covers its tile.
-/

namespace Rdpio.Graphics.ClearCodec

open Lib Reader

/-- The first `n` bytes are overwritten, whatever they were, and the others are left alone. -/
def Paints (f : Bytes → Bytes) (n : ℕ) : Prop := ∃ front : Bytes, front.length = n ∧ ∀ dst, f dst = front ++ dst.drop n

theorem paints_id : Paints (fun dst => dst) 0 := ⟨[], rfl, fun _ => rfl⟩

theorem blit_front (front dst bytes : Bytes) : blit (front ++ dst.drop front.length) front.length bytes =
      front ++ bytes ++ dst.drop (front ++ bytes).length := by
  rw [blit, List.take_left, List.drop_append, List.drop_of_length_le (Nat.le_add_right _ _), List.nil_append,
    List.drop_drop, List.length_append]
  congr 2
  omega

theorem Paints.blit {f : Bytes → Bytes} {n : ℕ} (h : Paints f n) (bytes : Bytes) :
    Paints (fun dst => blit (f dst) n bytes) (n + bytes.length) := by
  obtain ⟨front, rfl, hf⟩ := h
  refine ⟨front ++ bytes, List.length_append, fun dst => ?_⟩
  change ClearCodec.blit (f dst) front.length bytes = _
  rw [hf, blit_front, List.length_append]

theorem paints_rows {rows : ℕ} {step : Bytes → ℕ → Bytes} (done : ℕ → ℕ) (hzero : done 0 = 0)
    (hstep : ∀ y < rows, ∃ bytes : Bytes, done (y + 1) = done y + bytes.length ∧
      ∀ dst, done y ≤ dst.length → step dst y = ClearCodec.blit dst (done y) bytes) :
    Paints (fun dst => (List.range rows).foldl step dst) (done rows) := by
  have hall : ∀ k ≤ rows, Paints (fun dst => (List.range k).foldl step dst) (done k) := by
    intro k hk
    induction k with
    | zero =>
      rw [hzero]
      exact paints_id
    | succ k ih =>
      obtain ⟨bytes, hdone, hrow⟩ := hstep k hk
      obtain ⟨front, hfront, hf⟩ := (ih (by omega)).blit bytes
      refine ⟨front, hfront.trans hdone.symm, fun dst => ?_⟩
      obtain ⟨front', hfront', hf'⟩ := ih (by omega)
      have hsofar : (List.range k).foldl step dst = front' ++ dst.drop (done k) := hf' dst
      have hlen : done k ≤ ((List.range k).foldl step dst).length := by
        rw [hsofar, List.length_append, hfront']
        omega
      change (List.range (k + 1)).foldl step dst = _
      rw [List.range_succ, List.foldl_append, List.foldl_cons, List.foldl_nil, hrow _ hlen, hdone]
      exact hf dst
  exact hall rows (Nat.le_refl _)

theorem Paints.forall_seed_iff {f : Bytes → Bytes} {n size : ℕ} (h : Paints f n) :
    (∀ s s', f (background s size) = f (background s' size)) ↔ size ≤ n := by
  obtain ⟨front, hfront, hf⟩ := h
  have hlen : ∀ s, (background s size).length = size := by
    intro s
    unfold background
    split
    · split_ifs with hs
      · exact hs
      · exact List.length_replicate
    · exact List.length_replicate
  constructor
  · intro hsame
    by_contra hshort
    have hdiff := hsame none (some (List.replicate size 255))
    rw [hf, hf, List.append_cancel_left_eq] at hdiff
    simp only [background, List.length_replicate, if_pos, List.drop_replicate] at hdiff
    obtain ⟨m, hm⟩ := Nat.exists_eq_succ_of_ne_zero (show size - n ≠ 0 by omega)
    rw [hm, List.replicate_succ, List.replicate_succ, List.cons.injEq] at hdiff
    exact absurd hdiff.1 (by decide)
  · intro hall s s'
    rw [hf, hf, List.drop_of_length_le (by rw [hlen]; exact hall), List.drop_of_length_le (by rw [hlen]; exact hall)]

@[simp]
theorem length_pixel (b g r : UInt8) : (pixel b g r).length = 4 := rfl

theorem length_pixels (n : ℕ) (data : Bytes) (h : data.length = n * 3) : (pixels data).length = n * 4 := by
  induction n generalizing data with
  | zero =>
    rw [Nat.zero_mul] at h
    rw [List.eq_nil_of_length_eq_zero h]
    rfl
  | succ n ih =>
    match data, h with
    | [], h => simp at h
    | [_], h => simp at h; omega
    | [_, _], h => simp at h; omega
    | b :: g :: r :: rest, h =>
      simp only [List.length_cons] at h
      rw [pixels, List.length_append, length_pixel, ih rest (by omega)]
      omega

theorem paints_rawRegion (data : Bytes) {w h : ℕ} (hw : 0 < w) :
    Paints (rawRegion data 0 0 w h w h) (min (data.length / 3) (w * h) * 4) := by
  obtain ⟨n, hn⟩ : ∃ n, min (data.length / 3) (w * h) = n := ⟨_, rfl⟩
  have hnw : n ≤ w * h := by omega
  have hdata : n * 3 ≤ data.length := by omega
  unfold rawRegion
  rw [hn, show n * 4 = min n (h * w) * 4 by rw [Nat.mul_comm h w, Nat.min_eq_left hnw]]
  refine paints_rows (fun y => min n (y * w) * 4) (by simp) ?_
  intro y hy
  have hrow : y * w + w = (y + 1) * w := by ring
  unfold rawRow
  rcases Nat.lt_or_ge (y * w) n with hlt | hge
  · refine ⟨pixels ((data.drop (y * w * 3)).take (min (n - y * w) w * 3)), ?_, fun dst _ => ?_⟩
    · rw [length_pixels (min (n - y * w) w) _ (by rw [List.length_take, List.length_drop]; omega), ← hrow]
      omega
    · rw [if_neg (by omega), rowSpan, if_neg (by omega)]
      simp only [Nat.zero_add, Nat.add_zero, Nat.sub_zero, Nat.min_eq_right (Nat.le_of_lt hlt)]
      rw [Nat.min_assoc, Nat.min_self]
  · refine ⟨[], ?_, fun dst hdst => ?_⟩
    · rw [← hrow, List.length_nil]
      omega
    · rw [if_pos hge, ClearCodec.blit, List.append_nil, List.length_nil, Nat.add_zero, List.take_append_drop]

theorem length_row (p : Planes) (cols y : ℕ) : (p.row cols y).length = cols * 4 := by
  unfold Planes.row
  simp only [List.length_flatMap, nscPixel, List.length_cons, List.length_nil, List.map_const',
    List.sum_replicate_nat, List.length_range]

theorem paints_nscodecRegion (data : Bytes) {w h : ℕ} (hw : 0 < w) :
    Paints (nscodecRegion data 0 0 w h w h) (if (nscPlanes data w h).isSome then w * h * 4 else 0) := by
  unfold nscodecRegion
  cases nscPlanes data w h with
  | none => exact paints_id
  | some planes =>
    dsimp only
    rw [Nat.sub_zero, Nat.min_self, Nat.sub_zero, Nat.min_self, Option.isSome_some, if_pos rfl,
      show w * h * 4 = h * w * 4 by ring]
    have hcols : ¬ w = 0 := by omega
    simp only [if_neg hcols]
    refine paints_rows (fun y => y * w * 4) (by simp) ?_
    intro y _
    refine ⟨planes.row w y, ?_, fun dst _ => by rw [Nat.zero_add, Nat.add_zero]⟩
    rw [length_row]
    ring

theorem isSome_nscPlanes_iff (data : Bytes) {w h : ℕ} (hw : 0 < w) (hh : 0 < h) :
    (nscPlanes data w h).isSome = true ↔ 20 ≤ data.length ∧ 1 ≤ data.getD 16 0 ∧ data.getD 16 0 ≤ 7 := by
  unfold nscPlanes
  by_cases h1 : w = 0 ∨ h = 0 ∨ data.length < 20
  · rw [if_pos h1]
    simp only [Option.isSome_none, Bool.false_eq_true, false_iff]
    omega
  · rw [if_neg h1]
    by_cases h2 : data.getD 16 0 < 1 ∨ 7 < data.getD 16 0
    · simp only [if_pos h2, Option.isSome_none, Bool.false_eq_true, false_iff]
      rintro ⟨-, hlo, hhi⟩
      rcases h2 with h2 | h2
      · exact absurd h2 (UInt8.not_lt.2 hlo)
      · exact absurd h2 (UInt8.not_lt.2 hhi)
    · simp only [if_neg h2, Option.isSome_some, true_iff]
      rw [not_or, UInt8.not_lt, UInt8.not_lt] at h2
      exact ⟨by omega, h2⟩

theorem number_eq_some {n v : ℕ} {r r' : Reader} :
    number n r = some (v, r') ↔ n ≤ r.length ∧ ofLe (List.take n r) = v ∧ r.drop n = r' := by
  unfold number
  split_ifs with h
  · simp only [false_iff]
    omega
  · simp only [Option.some.injEq, Prod.mk.injEq]
    exact ⟨fun heq => ⟨by omega, heq⟩, And.right⟩

theorem number_of_le {n : ℕ} {r : Reader} (h : n ≤ r.length) :
    number n r = some (ofLe (List.take n r), r.drop n) := number_eq_some.2 ⟨h, rfl, rfl⟩

theorem number_of_lt {n : ℕ} {r : Reader} (h : r.length < n) : number n r = none := if_pos h

def RegionHeader.of (r : Reader) : RegionHeader where
  x := ofLe (List.take 2 r)
  y := ofLe (List.take 2 (r.drop 2))
  rw := ofLe (List.take 2 (r.drop 4))
  rh := ofLe (List.take 2 (r.drop 6))
  byte_count := ofLe (List.take 4 (r.drop 8))
  id := r.getD 12 0

theorem RegionHeader.read_eq (r : Reader) :
    RegionHeader.read r = if r.length < 13 then none else some (RegionHeader.of r, r.drop 13) := by
  unfold RegionHeader.read u16 u32
  simp only [Option.bind_eq_bind]
  split_ifs with h
  · -- Some field is cut off.
    by_cases h2 : r.length < 2
    · rw [number_of_lt h2, Option.bind_none]
    rw [number_of_le (by omega), Option.bind_some]
    by_cases h4 : r.length < 4
    · rw [number_of_lt (by rw [List.length_drop]; omega), Option.bind_none]
    rw [number_of_le (by rw [List.length_drop]; omega), Option.bind_some]
    by_cases h6 : r.length < 6
    · rw [number_of_lt (by simp only [List.length_drop]; omega), Option.bind_none]
    rw [number_of_le (by simp only [List.length_drop]; omega), Option.bind_some]
    by_cases h8 : r.length < 8
    · rw [number_of_lt (by simp only [List.length_drop]; omega), Option.bind_none]
    rw [number_of_le (by simp only [List.length_drop]; omega), Option.bind_some]
    by_cases h12 : r.length < 12
    · rw [number_of_lt (by simp only [List.length_drop]; omega), Option.bind_none]
    rw [number_of_le (by simp only [List.length_drop]; omega), Option.bind_some]
    have hnil : ((((r.drop 2).drop 2).drop 2).drop 2).drop 4 = [] := by
      rw [List.drop_drop, List.drop_drop, List.drop_drop, List.drop_drop, List.drop_of_length_le (by omega)]
    dsimp only
    rw [hnil]
    rfl
  · rw [number_of_le (by omega), Option.bind_some, number_of_le (by rw [List.length_drop]; omega), Option.bind_some,
      number_of_le (by simp only [List.length_drop]; omega), Option.bind_some,
      number_of_le (by simp only [List.length_drop]; omega), Option.bind_some,
      number_of_le (by simp only [List.length_drop]; omega), Option.bind_some]
    have hlast : ((((r.drop 2).drop 2).drop 2).drop 2).drop 4 = r.getD 12 0 :: r.drop 13 := by
      rw [List.drop_drop, List.drop_drop, List.drop_drop, List.drop_drop, List.drop_eq_getElem_cons (by omega),
        List.getD_eq_getElem _ _ (by omega)]
    dsimp only
    rw [hlast]
    simp only [u8, Option.bind_some, List.drop_drop]
    rfl

theorem RegionHeader.of_take {r : Reader} {n : ℕ} (hn : 13 ≤ n) :
    RegionHeader.of (List.take n r) = RegionHeader.of r := by
  unfold RegionHeader.of
  have hfield : ∀ i k, i + k ≤ n → List.take k ((List.take n r).drop i) = List.take k (r.drop i) := by
    intro i k hik
    rw [List.drop_take, List.take_take, Nat.min_eq_left (by omega)]
  have hfirst : List.take 2 (List.take n r) = List.take 2 r := by rw [List.take_take, Nat.min_eq_left (by omega)]
  have hid : (List.take n r).getD 12 0 = r.getD 12 0 := by
    rw [List.getD_eq_getElem?_getD, List.getD_eq_getElem?_getD, List.getElem?_take_of_lt (by omega)]
  rw [hfirst, hfield 2 2 (by omega), hfield 4 2 (by omega), hfield 6 2 (by omega), hfield 8 4 (by omega), hid]

theorem take_eq (r : Reader) (n : ℕ) :
    Reader.take r n = if r.length < n then none else some (List.take n r, r.drop n) := rfl

def Complete (layers : Reader) (sub : ℕ) (hd : RegionHeader) (w h : ℕ) : Prop :=
  sub ≤ layers.length ∧ 13 + hd.byte_count < 2^32 ∧
    if hd.id = subcodecRaw then w * h ≤ hd.byte_count / 3
    else 20 ≤ hd.byte_count ∧ 1 ≤ (layers.drop 13).getD 16 0 ∧ (layers.drop 13).getD 16 0 ≤ 7

theorem paints_layer {layers : Reader} {sub w h : ℕ} (hw : 0 < w) (hh : 0 < h) (hlen : 13 ≤ layers.length)
    (hsub : 0 < sub) (hsingle : sub = (13 + (RegionHeader.of layers).byte_count) % 2^32)
    (htile : (RegionHeader.of layers).x = 0 ∧ (RegionHeader.of layers).y = 0 ∧ (RegionHeader.of layers).rw = w ∧
      (RegionHeader.of layers).rh = h)
    (hid : (RegionHeader.of layers).id = subcodecRaw ∨ (RegionHeader.of layers).id = subcodecNscodec) :
    ∃ n, Paints (fun dst => (layer layers sub dst fun s dst => subcodecs s w h dst).1) n ∧
      (w * h * 4 ≤ n ↔ Complete layers sub (RegionHeader.of layers) w h) := by
  have hsize : 0 < w * h := Nat.mul_pos hw hh
  have hcount : (RegionHeader.of layers).byte_count < 2^32 := by
    have hlt := ofLe_lt (List.take 4 (layers.drop 8))
    have hfour : (List.take 4 (layers.drop 8)).length = 4 := by
      rw [List.length_take, List.length_drop]
      omega
    rw [hfour] at hlt
    exact hlt
  have hlayer : ∀ dst, (layer layers sub dst fun s dst => subcodecs s w h dst).1 =
      if layers.length < sub then dst else subcodecs (List.take sub layers) w h dst := by
    intro dst
    rw [layer, if_neg (Nat.ne_of_gt hsub), take_eq]
    split_ifs <;> rfl
  simp only [hlayer]
  obtain ⟨hd, hhd⟩ : ∃ hd, RegionHeader.of layers = hd := ⟨_, rfl⟩
  rw [hhd] at hsingle htile hid hcount ⊢
  unfold Complete
  by_cases hcut : layers.length < sub
  · simp only [if_pos hcut]
    exact ⟨0, paints_id, by omega⟩
  simp only [if_neg hcut]
  by_cases hwrap : 13 + hd.byte_count < 2^32
  · rw [Nat.mod_eq_of_lt hwrap] at hsingle
    subst hsingle
    have hslice : (List.take (13 + hd.byte_count) layers).length = 13 + hd.byte_count := by
      rw [List.length_take]
      omega
    have hpayload : (List.take (13 + hd.byte_count) layers).drop 13 = List.take hd.byte_count (layers.drop 13) := by
      rw [List.drop_take, Nat.add_sub_cancel_left]
    have hpaylen : (List.take hd.byte_count (layers.drop 13)).length = hd.byte_count := by
      rw [List.length_take, List.length_drop]
      omega
    have hrun : ∀ dst, subcodecs (List.take (13 + hd.byte_count) layers) w h dst =
        region hd (List.take hd.byte_count (layers.drop 13)) w h dst := by
      intro dst
      obtain ⟨turns, hturns⟩ : ∃ turns, (List.take (13 + hd.byte_count) layers).length = turns + 1 + 1 :=
        ⟨hd.byte_count + 11, by omega⟩
      rw [subcodecs, hturns, subcodecsLoop, RegionHeader.read_eq, if_neg (by omega), Option.bind_some]
      dsimp only
      rw [RegionHeader.of_take (by omega), hhd, hpayload, take_eq, if_neg (by omega), Option.map_some]
      dsimp only
      rw [List.take_take, Nat.min_self, List.drop_of_length_le (by omega), subcodecsLoop]
      rfl
    simp only [hrun]
    obtain ⟨hx, hy, hrw, hrh⟩ := htile
    unfold region
    rw [hx, hy, hrw, hrh]
    rcases hid with hid | hid
    · simp only [hid, if_true]
      refine ⟨_, paints_rawRegion _ hw, ?_⟩
      rw [hpaylen]
      omega
    · simp only [hid, if_neg (show ¬ subcodecNscodec = subcodecRaw by decide), if_true]
      refine ⟨_, paints_nscodecRegion _ hw, ?_⟩
      have hsome := isSome_nscPlanes_iff (List.take hd.byte_count (layers.drop 13)) hw hh
      rw [hpaylen] at hsome
      have hbyte : 20 ≤ hd.byte_count →
          (List.take hd.byte_count (layers.drop 13)).getD 16 0 = (layers.drop 13).getD 16 0 := by
        intro h20
        rw [List.getD_eq_getElem?_getD, List.getD_eq_getElem?_getD, List.getElem?_take_of_lt (by omega)]
      split_ifs with hplanes
      · obtain ⟨h20, hloss⟩ := hsome.1 hplanes
        rw [hbyte h20] at hloss
        exact ⟨fun _ => ⟨by omega, hwrap, h20, hloss⟩, fun _ => Nat.le_refl _⟩
      · refine ⟨fun h => by omega, fun h => absurd (hsome.2 ⟨h.2.2.1, ?_⟩) hplanes⟩
        rw [hbyte h.2.2.1]
        exact h.2.2.2
  · refine ⟨0, ?_, by omega⟩
    have hrun : ∀ dst, subcodecs (List.take sub layers) w h dst = dst := by
      intro dst
      have hslice : (List.take sub layers).length < 13 := by
        rw [List.length_take]
        omega
      unfold subcodecs
      cases (List.take sub layers).length with
      | zero => rfl
      | succ turns =>
        rw [subcodecsLoop, RegionHeader.read_eq, if_pos hslice]
        rfl
    simp only [hrun]
    exact paints_id

/-! ## The stream -/

def Hidden (data : Bytes) (w h : ℕ) : Prop :=
  w = 0 ∨ h = 0 ∨ ∃ flags r, readFlags data = some (flags, r) ∧ (flags &&& flagGlyphIndex ≠ 0 ∧
        (flags &&& flagGlyphHit ≠ 0 ∨ glyphCache ≤ ofLe (List.take 2 r) ∨ 1024 * 1024 < w * h) ∨
      ∃ residual bands sub layers, 13 ≤ layers.length ∧
        readLengths (if flags &&& flagGlyphIndex ≠ 0 then r.drop 2 else r) = some (residual, bands, sub, layers) ∧
        Complete layers sub (RegionHeader.of layers) w h)

theorem headers_of_needsSeed {data : Bytes} {w h : ℕ} (hno : needsSeed data w h = false) :
    ∃ flags r, readFlags data = some (flags, r) ∧ ¬ (flags &&& flagGlyphIndex ≠ 0 ∧ r.length < 2) ∧
      (flags &&& flagGlyphIndex ≠ 0 ∧ flags &&& flagGlyphHit ≠ 0 ∨
        ¬ (flags &&& flagGlyphIndex ≠ 0 ∧ flags &&& flagGlyphHit ≠ 0) ∧
        ∃ sub layers,
          readLengths (if flags &&& flagGlyphIndex ≠ 0 then r.drop 2 else r) = some (0, 0, sub, layers) ∧
          0 < sub ∧ 13 ≤ layers.length ∧ sub = (13 + (RegionHeader.of layers).byte_count) % 2^32 ∧
          ((RegionHeader.of layers).x = 0 ∧ (RegionHeader.of layers).y = 0 ∧ (RegionHeader.of layers).rw = w ∧
            (RegionHeader.of layers).rh = h) ∧
          ((RegionHeader.of layers).id = subcodecRaw ∨ (RegionHeader.of layers).id = subcodecNscodec)) := by
  unfold needsSeed at hno
  cases hflags : readFlags data with
  | none =>
    rw [hflags] at hno
    cases hno
  | some first =>
    obtain ⟨flags, r⟩ := first
    rw [hflags] at hno
    dsimp only at hno
    refine ⟨flags, r, rfl, ?_⟩
    obtain ⟨r', hr'⟩ : ∃ r', (if flags &&& flagGlyphIndex ≠ 0 then r.drop 2 else r) = r' := ⟨_, rfl⟩
    rw [hr'] at hno ⊢
    by_cases hshort : flags &&& flagGlyphIndex ≠ 0 ∧ r.length < 2
    · rw [if_pos hshort] at hno
      cases hno
    refine ⟨hshort, ?_⟩
    rw [if_neg hshort] at hno
    by_cases hhit : flags &&& flagGlyphIndex ≠ 0 ∧ flags &&& flagGlyphHit ≠ 0
    · exact .inl hhit
    refine .inr ⟨hhit, ?_⟩
    rw [if_neg hhit] at hno
    cases hlens : readLengths r' with
    | none =>
      rw [hlens] at hno
      cases hno
    | some lens =>
      obtain ⟨residual, bands, sub, layers⟩ := lens
      rw [hlens] at hno
      dsimp only at hno
      by_cases hlone : residual = 0 ∧ bands = 0 ∧ 0 < sub
      · obtain ⟨rfl, rfl, hsub⟩ := hlone
        rw [if_pos ⟨rfl, rfl, hsub⟩, RegionHeader.read_eq] at hno
        by_cases hlen : layers.length < 13
        · rw [if_pos hlen] at hno
          cases hno
        · rw [if_neg hlen] at hno
          simp only [Bool.not_eq_false', decide_eq_true_eq] at hno
          exact ⟨sub, layers, rfl, hsub, by omega, hno⟩
      · rw [if_neg hlone] at hno
        cases hno

theorem compose_eq (dec : ClearDecoder) {r layers : Reader} {sub : ℕ} (glyph_index : Option ℕ) (w h : ℕ)
    (hlens : readLengths r = some (0, 0, sub, layers)) :
    ∃ keep : Bytes → ClearDecoder, ∀ dst, dec.compose r glyph_index w h dst =
      (keep (layer layers sub dst fun s dst => subcodecs s w h dst).1,
        some (layer layers sub dst fun s dst => subcodecs s w h dst).1) := by
  refine ⟨fun dst => glyph_index.elim dec fun gi => { dec with glyphs := write dec.glyphs gi ⟨w * h, dst⟩ },
    fun dst => ?_⟩
  unfold ClearDecoder.compose
  rw [hlens]
  cases glyph_index <;> rfl

theorem decodeSeeded_of_needsSeed {data : Bytes} {w h : ℕ} (hno : needsSeed data w h = false) :
    (Hidden data w h ∧ ∀ (dec : ClearDecoder) s s', dec.decodeSeeded data w h s = dec.decodeSeeded data w h s') ∨
      ∃ f n, Paints f n ∧ (w * h * 4 ≤ n ↔ Hidden data w h) ∧ ∀ dec : ClearDecoder, ∃ keep : Bytes → ClearDecoder,
        ∀ s, dec.decodeSeeded data w h s =
          (keep (f (background s (w * h * 4))), some (f (background s (w * h * 4)))) := by
  by_cases hempty : w = 0 ∨ h = 0
  · refine .inl ⟨hempty.elim .inl fun hh => .inr (.inl hh), fun dec s s' => ?_⟩
    rw [ClearDecoder.decodeSeeded, if_pos hempty, ClearDecoder.decodeSeeded, if_pos hempty]
  obtain ⟨flags, r, hflags, hshort, hcase⟩ := headers_of_needsSeed hno
  have hdecode : ∀ (dec : ClearDecoder) s, dec.decodeSeeded data w h s =
      let dec := if flags &&& flagCacheReset ≠ 0 then { dec with vbar_cursor := 0, short_vbar_cursor := 0 } else dec
      if flags &&& flagGlyphIndex ≠ 0 then
        let gi := ofLe (List.take 2 r)
        if glyphCache ≤ gi then (dec, none)
        else if flags &&& flagGlyphHit ≠ 0 then
          let g := read dec.glyphs gi
          (dec, if g.count < w * h then none else some (g.rgba.take (w * h * 4)))
        else if 1024 * 1024 < w * h then (dec, none)
        else dec.compose (r.drop 2) (some gi) w h (background s (w * h * 4))
      else dec.compose r none w h (background s (w * h * 4)) := by
    intro dec s
    rw [ClearDecoder.decodeSeeded, if_neg hempty, hflags]
    dsimp only
    rw [if_neg hshort]
  by_cases hrefused : flags &&& flagGlyphIndex ≠ 0 ∧
      (flags &&& flagGlyphHit ≠ 0 ∨ glyphCache ≤ ofLe (List.take 2 r) ∨ 1024 * 1024 < w * h)
  · refine .inl ⟨.inr (.inr ⟨flags, r, hflags, .inl hrefused⟩), fun dec s s' => ?_⟩
    rw [hdecode, hdecode]
    dsimp only
    rw [if_pos hrefused.1, if_pos hrefused.1]
    by_cases hgi : glyphCache ≤ ofLe (List.take 2 r)
    · rw [if_pos hgi, if_pos hgi]
    rw [if_neg hgi, if_neg hgi]
    by_cases hhit : flags &&& flagGlyphHit ≠ 0
    · rw [if_pos hhit, if_pos hhit]
    have hlarge : 1024 * 1024 < w * h := (hrefused.2.resolve_left hhit).resolve_left hgi
    rw [if_neg hhit, if_neg hhit, if_pos hlarge, if_pos hlarge]
  · obtain ⟨-, sub, layers, hlens, hsub, hlen, hsingle, htile, hid⟩ :=
      hcase.resolve_left fun hhit => hrefused ⟨hhit.1, .inl hhit.2⟩
    obtain ⟨n, hpaints, hall⟩ := paints_layer (by omega) (by omega) hlen hsub hsingle htile hid
    refine .inr ⟨_, n, hpaints, hall.trans ⟨fun hc => ?_, ?_⟩, fun dec => ?_⟩
    · exact .inr (.inr ⟨flags, r, hflags, .inr ⟨0, 0, sub, layers, hlen, hlens, hc⟩⟩)
    · rintro (hw | hh | ⟨flags', r', hflags', hcase'⟩)
      · exact absurd (.inl hw) hempty
      · exact absurd (.inr hh) hempty
      · obtain ⟨rfl, rfl⟩ : flags = flags' ∧ r = r' := by
          simpa only [Option.some.injEq, Prod.mk.injEq] using hflags.symm.trans hflags'
        obtain ⟨_, _, sub', layers', -, hlens', hc⟩ := hcase'.resolve_left hrefused
        rw [hlens] at hlens'
        simp only [Option.some.injEq, Prod.mk.injEq] at hlens'
        obtain ⟨-, -, rfl, rfl⟩ := hlens'
        exact hc
    · by_cases hglyph : flags &&& flagGlyphIndex ≠ 0
      · rw [if_pos hglyph] at hlens
        have hok : ¬ (glyphCache ≤ ofLe (List.take 2 r)) ∧ ¬ flags &&& flagGlyphHit ≠ 0 ∧ ¬ 1024 * 1024 < w * h :=
          ⟨fun hgi => hrefused ⟨hglyph, .inr (.inl hgi)⟩, fun hhit => hrefused ⟨hglyph, .inl hhit⟩,
            fun hlarge => hrefused ⟨hglyph, .inr (.inr hlarge)⟩⟩
        obtain ⟨keep, hkeep⟩ := compose_eq (if flags &&& flagCacheReset ≠ 0
          then { dec with vbar_cursor := 0, short_vbar_cursor := 0 } else dec) (some (ofLe (List.take 2 r))) w h hlens
        refine ⟨keep, fun s => ?_⟩
        rw [hdecode]
        dsimp only
        rw [if_pos hglyph, if_neg hok.1, if_neg hok.2.1, if_neg hok.2.2]
        exact hkeep _
      · rw [if_neg hglyph] at hlens
        obtain ⟨keep, hkeep⟩ := compose_eq (if flags &&& flagCacheReset ≠ 0
          then { dec with vbar_cursor := 0, short_vbar_cursor := 0 } else dec) none w h hlens
        refine ⟨keep, fun s => ?_⟩
        rw [hdecode]
        dsimp only
        rw [if_neg hglyph]
        exact hkeep _

theorem decodeSeeded_of_hidden {data : Bytes} {w h : ℕ} (hno : needsSeed data w h = false) (hhid : Hidden data w h)
    (dec : ClearDecoder) (s s' : Option Bytes) : dec.decodeSeeded data w h s = dec.decodeSeeded data w h s' := by
  rcases decodeSeeded_of_needsSeed hno with ⟨-, hsame⟩ | ⟨f, n, hpaints, hall, hdecode⟩
  · exact hsame dec s s'
  · obtain ⟨keep, hkeep⟩ := hdecode dec
    rw [hkeep, hkeep, hpaints.forall_seed_iff.2 (hall.2 hhid) s s']

/-- `needs_seed` is right about a stream just when it asks for the seed, or the seed is hidden indeed. -/
theorem needsSeed_sound_iff (data : Bytes) (w h : ℕ) : (needsSeed data w h = false →
        ∀ (dec : ClearDecoder) s s', (dec.decodeSeeded data w h s).2 = (dec.decodeSeeded data w h s').2) ↔
      (needsSeed data w h = true ∨ Hidden data w h) := by
  cases hno : needsSeed data w h with
  | true => simp
  | false =>
    simp only [Bool.false_eq_true, false_or, true_implies]
    constructor
    · intro hsame
      rcases decodeSeeded_of_needsSeed hno with ⟨hhid, -⟩ | ⟨f, n, hpaints, hall, hdecode⟩
      · exact hhid
      · rw [← hall, ← hpaints.forall_seed_iff]
        intro s s'
        obtain ⟨keep, hkeep⟩ := hdecode ClearDecoder.new
        have heq := hsame ClearDecoder.new s s'
        rw [hkeep, hkeep] at heq
        exact Option.some.inj heq
    · intro hhid dec s s'
      rw [decodeSeeded_of_hidden hno hhid dec s s']

/-- A RAW region of one pixel without a payload: its header alone covers the tile. -/
theorem needsSeed_sound_empty_payload : ¬ ∀ (data : Bytes) (w h : ℕ), needsSeed data w h = false →
      ∀ (dec : ClearDecoder) s s', (dec.decodeSeeded data w h s).2 = (dec.decodeSeeded data w h s').2 := by
  intro hsound
  have hsame := hsound
    [0, 0, 0, 0, 0, 0, 0, 0, 0, 0, 13, 0, 0, 0, 0, 0, 0, 0, 1, 0, 1, 0, 0, 0, 0, 0, 0] 1 1 (by decide)
    ClearDecoder.new none (some [1, 2, 3, 4])
  exact absurd hsame (by decide)

end Rdpio.Graphics.ClearCodec
