import Rdpio.Hyper.VideoBodies
import Rdpio.Lib.Bits

/-!
# A frame in place and staged

The `Reassembler` writes data shards into the frame as they come, over what its buffer last held, and reads them back
for a rebuild; or it stages each by itself and places them once the block is whole.
-/

namespace Rdpio.Hyper

open Lib

namespace Fec

theorem length_rebuiltShard (cpu : Cpu) (len : ℕ) (residuals : List (List UInt8)) {e : ℕ} (b : Square e)
    (x : Fin e) : (rebuiltShard cpu len residuals b x).length = len := by
  have hfold : ∀ (l : List (List UInt8 × ℕ)) (out : List UInt8),
      (l.foldl (fun out rr => mulAdd cpu out rr.1 (b[x].getD rr.2 0)) out).length = out.length := by
    intro l
    induction l with
    | nil => exact fun out => rfl
    | cons rr l ih =>
      intro out
      rw [List.foldl_cons, ih, length_mulAdd]
  rw [rebuiltShard, hfold, List.length_replicate]

theorem foldl_set_cases {α β : Type*} (v : β → α) (js : List (ℕ × β)) (l : List α) {i : ℕ}
    (hi : i < l.length) :
    (∃ j ∈ js, j.1 = i ∧ (js.foldl (fun l j => l.set j.1 (v j.2)) l)[i]? = some (v j.2)) ∨
      i ∉ js.map Prod.fst ∧ (js.foldl (fun l j => l.set j.1 (v j.2)) l)[i]? = l[i]? := by
  induction js generalizing l with
  | nil => exact .inr ⟨List.not_mem_nil, rfl⟩
  | cons j js ih =>
    rw [List.foldl_cons]
    rcases ih (l.set j.1 (v j.2)) (by rwa [List.length_set]) with ⟨j', hj', hlater⟩ | ⟨hnot, hsame⟩
    · exact .inl ⟨j', List.mem_cons_of_mem j hj', hlater⟩
    · rw [hsame]
      by_cases hij : j.1 = i
      · refine .inl ⟨j, List.mem_cons_self, hij, ?_⟩
        rw [← hij, List.getElem?_set_self (by rwa [hij])]
      · refine .inr ⟨?_, List.getElem?_set_ne hij⟩
        rw [List.map_cons, List.mem_cons, not_or]
        exact ⟨Ne.symm hij, hnot⟩

theorem reconstruct_spec (cpu : Cpu) {shards : List (Option (List UInt8))} {k size : ℕ}
    (hk : k ≤ shards.length) (hparity : ∀ i s, shards.getD (k + i) none = some s → s.length = size) :
    ((reconstruct cpu shards k).1 = false → (reconstruct cpu shards k).2 = shards) ∧
      ((reconstruct cpu shards k).1 = true → ∀ i < k, ∃ s,
        (reconstruct cpu shards k).2.getD i none = some s ∧
          (shards.getD i none = some s ∨ shards.getD i none = none ∧ s.length = size)) := by
  have hpresent : ∀ i < k, i ∉ missingShards shards k → ∃ s, shards.getD i none = some s := by
    intro i hi hnot
    rw [mem_missingShards, not_and] at hnot
    exact Option.ne_none_iff_exists'.mp (hnot hi)
  unfold reconstruct
  dsimp only
  split_ifs with hempty hfew
  · refine ⟨False.elim, fun _ i hi => ?_⟩
    obtain ⟨s, hs⟩ := hpresent i hi (by rw [List.isEmpty_iff.mp hempty]; exact List.not_mem_nil)
    exact ⟨s, hs, .inl hs⟩
  · exact ⟨fun _ => rfl, False.elim⟩
  · split
    · exact ⟨fun _ => rfl, fun h => (Bool.false_ne_true h).elim⟩
    next b hinvert =>
      refine ⟨fun h => (Bool.false_ne_true h.symm).elim, fun _ i hi => ?_⟩
      -- The parity shard that gives the length is one of those there.
      have hlen : ((shards.getD (k + (usedParity shards k).headD 0) none).getD []).length = size := by
        have hpos : 0 < (missingShards shards k).length :=
          List.length_pos_iff.mpr fun h => hempty (List.isEmpty_iff.mpr h)
        obtain ⟨p, ps, hused⟩ := List.exists_cons_of_length_pos (Nat.lt_of_lt_of_le hpos (Nat.not_lt.mp hfew))
        have hmem := @mem_usedParity shards k p (by rw [hused]; exact List.mem_cons_self)
        obtain ⟨s, hs⟩ := Option.isSome_iff_exists.mp hmem.2
        rw [hused, List.headD_cons, hs]
        exact hparity p s hs
      rw [List.getD_eq_getElem?_getD]
      rcases foldl_set_cases some ((missingShards shards k).zip ((List.finRange _).map (rebuiltShard cpu
        ((shards.getD (k + (usedParity shards k).headD 0) none).getD []).length
        ((usedParity shards k).map (residual cpu shards k)) b))) shards (Nat.lt_of_lt_of_le hi hk) with
        ⟨j, hj, rfl, hset⟩ | ⟨hnot, hsame⟩
      · rw [hset]
        obtain ⟨hj₁, hj₂⟩ := List.of_mem_zip hj
        obtain ⟨x, -, hx⟩ := List.mem_map.mp hj₂
        refine ⟨j.2, rfl, .inr ⟨?_, ?_⟩⟩
        · exact (mem_missingShards.mp hj₁).2
        · rw [← hx, length_rebuiltShard, hlen]
      · rw [hsame, ← List.getD_eq_getElem?_getD]
        rw [List.map_fst_zip (by rw [List.length_map, List.length_finRange])] at hnot
        obtain ⟨s, hs⟩ := hpresent i hi hnot
        exact ⟨s, hs, .inl hs⟩

end Fec

namespace Video

/-! ## Placing shards -/

/-- `a'` is `a` but for what is in the frame at block `b`. -/
def Assembly.Within (b : ℕ) (a a' : Assembly) : Prop :=
  a' = { a with data := a'.data } ∧ a'.data.bytes.length = a.data.bytes.length ∧
    ∀ q, q / maxBlockData ≠ b → piece a.shard_size q a'.data.bytes = piece a.shard_size q a.data.bytes

theorem Assembly.Within.refl (b : ℕ) (a : Assembly) : a.Within b a := ⟨rfl, rfl, fun _ _ => rfl⟩

theorem Assembly.Within.trans {b : ℕ} {a a' a'' : Assembly} (h : a.Within b a') (h' : a'.Within b a'') :
    a.Within b a'' := by
  obtain ⟨hsame, hlen, hpiece⟩ := h
  obtain ⟨hsame', hlen', hpiece'⟩ := h'
  have hsize : a'.shard_size = a.shard_size := by rw [hsame]
  rw [hsize] at hpiece'
  refine ⟨?_, hlen'.trans hlen, fun q hq => (hpiece' q hq).trans (hpiece q hq)⟩
  rw [hsame', hsame]

theorem Assembly.place_eq {a : Assembly} (hlen : a.data.bytes.length = a.frame_len) (b i : ℕ)
    {payload : List UInt8} (hp : a.shard_size ≤ payload.length) :
    a.place b i payload =
      { a with data := { a.data with
          bytes := putPiece a.shard_size (b * maxBlockData + i) a.data.bytes payload } } := by
  have hroom := length_piece a.shard_size (b * maxBlockData + i) a.data.bytes
  unfold Assembly.place Assembly.span
  dsimp only
  congr 2
  unfold writeAt putPiece
  rw [hroom]
  generalize (b * maxBlockData + i) * a.shard_size = lo
  rw [← hlen]
  have hhi : min (min lo a.data.bytes.length + a.shard_size) a.data.bytes.length -
      min lo a.data.bytes.length = min a.shard_size (a.data.bytes.length - lo) := by omega
  rw [hhi, List.length_take, Nat.min_eq_left (a := min _ _) (by omega)]
  rcases Nat.le_total lo a.data.bytes.length with hle | hge
  · rw [Nat.min_eq_left hle]
  · rw [Nat.min_eq_right hge, List.take_length, List.take_of_length_le hge, List.drop_eq_nil_of_le (by omega),
      List.drop_eq_nil_of_le (by omega)]

theorem Assembly.span_eq {a : Assembly} (hlen : a.data.bytes.length = a.frame_len) (b i : ℕ) :
    (a.data.bytes.drop (a.span b i).1).take ((a.span b i).2 - (a.span b i).1) =
      piece a.shard_size (b * maxBlockData + i) a.data.bytes := by
  unfold Assembly.span piece
  dsimp only
  generalize (b * maxBlockData + i) * a.shard_size = lo
  rw [← hlen]
  rcases Nat.le_total lo a.data.bytes.length with hle | hge
  · rw [Nat.min_eq_left hle, List.take_eq_take_iff, List.length_drop]
    omega
  · rw [Nat.min_eq_right hge, List.drop_length, List.drop_eq_nil_of_le hge]
    simp

theorem Assembly.foldl_place {a : Assembly} (hlen : a.data.bytes.length = a.frame_len) (b : ℕ) {k : ℕ}
    (hk : k ≤ maxBlockData) (on : ℕ → Bool) (s : ℕ → List UInt8)
    (hs : ∀ i < k, on i = true → a.shard_size ≤ (s i).length) :
    let a' := (List.range k).foldl (fun a i => if on i then a.place b i (s i) else a) a
    a.Within b a' ∧ ∀ i < k, piece a.shard_size (b * maxBlockData + i) a'.data.bytes =
      if on i then (s i).take (piece a.shard_size (b * maxBlockData + i) a.data.bytes).length
      else piece a.shard_size (b * maxBlockData + i) a.data.bytes := by
  have hloop := foldl_range_rule (n := k) (fun j (a' : Assembly) => a.Within b a' ∧
    ∀ i < k, piece a.shard_size (b * maxBlockData + i) a'.data.bytes =
      if i < j ∧ on i then (s i).take (piece a.shard_size (b * maxBlockData + i) a.data.bytes).length
      else piece a.shard_size (b * maxBlockData + i) a.data.bytes)
    (f := fun a i => if on i then a.place b i (s i) else a) (s := a)
    ⟨.refl b a, fun i _ => by rw [if_neg (by omega)]⟩ (by
      rintro j a' hj ⟨⟨hsame, hlen', hother⟩, hpiece⟩
      have hsize : a'.shard_size = a.shard_size := by rw [hsame]
      have hframe : a'.frame_len = a.frame_len := by rw [hsame]
      by_cases hon : on j = true
      · have hfits : a.shard_size ≤ (s j).length := hs j hj hon
        rw [if_pos hon, Assembly.place_eq (by rw [hlen', hframe, hlen]) b j (by rwa [hsize]), hsize]
        refine ⟨⟨by rw [hsame], ?_, fun q hq => ?_⟩, fun i hi => ?_⟩
        · exact (length_putPiece hfits _ _).trans hlen'
        · refine (piece_putPiece_of_ne hfits ?_ _).trans (hother q hq)
          rintro rfl
          apply hq
          unfold maxBlockData at hk ⊢
          omega
        · dsimp only
          by_cases hij : i = j
          · rw [if_pos ⟨by omega, by rwa [hij]⟩, hij, piece_putPiece_self hfits]
            rw [length_piece_congr hlen']
          · rw [piece_putPiece_of_ne hfits (by omega), hpiece i hi]
            exact if_congr (and_congr_left fun _ => by omega) rfl rfl
      · rw [if_neg hon]
        refine ⟨⟨hsame, hlen', hother⟩, fun i hi => ?_⟩
        rw [hpiece i hi]
        by_cases hij : i = j
        · rw [hij, if_neg (by omega), if_neg (fun h => hon h.2)]
        · exact if_congr (and_congr_left fun _ => by omega) rfl rfl)
  refine ⟨hloop.1, fun i hi => ?_⟩
  rw [hloop.2 i hi]
  simp only [hi, true_and]

section

variable (cpu : Fec.Cpu) (a : Assembly) (b : ℕ) (block : Block) (stage : Bool) (pool : List (List UInt8))
  {shards : List (Option (List UInt8))}

theorem rebuild_of_failed (h : Fec.reconstruct cpu
      ((rebuildData a b block stage pool).2 ++ block.parity) block.k = (false, shards)) :
    ∃ pool', rebuild cpu a b block stage pool = (false, a,
      { block with
        staged := if stage then shards.take block.k else block.staged
        parity := shards.drop block.k }, pool') := by
  refine ⟨(rebuild cpu a b block stage pool).2.2.2, ?_⟩
  unfold rebuild
  dsimp only
  rw [h, if_neg Bool.false_ne_true]

theorem rebuild_of_ok (h : Fec.reconstruct cpu
      ((rebuildData a b block stage pool).2 ++ block.parity) block.k = (true, shards)) :
    ∃ pool', rebuild cpu a b block stage pool = (true,
      (List.range block.k).foldl (fun a' i => if stage || !block.hasData i then
        a'.place b i ((shards.getD i none).getD []) else a') a,
      { block with
        staged := block.staged.map fun _ => none
        parity := block.parity.map fun _ => none }, pool') := by
  refine ⟨(rebuild cpu a b block stage pool).2.2.2, ?_⟩
  unfold rebuild
  dsimp only
  rw [h, if_pos rfl]

theorem rebuildData_staged : (rebuildData a b block true pool).2 =
    (List.range block.k).map fun i => block.staged.getD i none := by
  unfold rebuildData
  refine foldl_range_rule (fun j (s : List (List UInt8) × List (Option (List UInt8))) =>
    s.2 = (List.range j).map fun i => block.staged.getD i none) rfl ?_
  intro j s _ hs
  rw [if_pos rfl, List.range_succ, List.map_append, hs]
  rfl

variable {a}

theorem rebuildData_inPlace (hlen : a.data.bytes.length = a.frame_len) :
    (rebuildData a b block false pool).2 = (List.range block.k).map fun i =>
      if block.hasData i then some (resize (piece a.shard_size (b * maxBlockData + i) a.data.bytes) a.shard_size)
      else none := by
  unfold rebuildData
  refine foldl_range_rule (fun j (s : List (List UInt8) × List (Option (List UInt8))) =>
    s.2 = (List.range j).map fun i => if block.hasData i then
      some (resize (piece a.shard_size (b * maxBlockData + i) a.data.bytes) a.shard_size) else none) rfl ?_
  intro j s _ hs
  rw [if_neg (by decide), List.range_succ, List.map_append, List.map_cons, List.map_nil]
  dsimp only
  split_ifs
  · rw [hs]
    unfold pooled
    dsimp only
    rw [Assembly.span_eq hlen]
  · rw [hs]

end

/-! ## A frame in place and staged -/

/-- A block with none of its shards yet. -/
def Block.fresh (stage : Bool) (k m : ℕ) : Block where
  k
  data := 0
  staged := if stage then List.replicate k none else []
  parity := List.replicate m none
  have_shards := 0
  done := false

/-- Block `b` in place, in a frame that holds `bytes`, and staged, in one that holds `bytes'`. -/
structure Block.Twin (size b : ℕ) (bytes bytes' : List UInt8) (x y : Block) : Prop where
  same : y = { x with staged := y.staged }
  bits : ∀ i < 64, x.hasData i = true → i < x.k
  parity : ∀ i s, x.parity.getD i none = some s → s.length = size
  /-- Until the block is done, what is staged is what is in the frame, padded. -/
  staged : x.done = false → y.staged = (List.range x.k).map fun i =>
    if x.hasData i then some (resize (piece size (b * maxBlockData + i) bytes) size) else none
  /-- From then on the frames hold the same there. -/
  whole : x.done = true → ∀ i < x.k, piece size (b * maxBlockData + i) bytes = piece size (b * maxBlockData + i) bytes'

theorem length_piece_le (n q : ℕ) (l : List UInt8) : (piece n q l).length ≤ n := by
  rw [length_piece]
  exact Nat.min_le_left _ _

theorem take_resize {bytes : List UInt8} {len : ℕ} (h : bytes.length ≤ len) :
    (resize bytes len).take bytes.length = bytes := by
  rw [resize, List.take_of_length_le h, List.take_left]

theorem resize_self (bytes : List UInt8) : resize bytes bytes.length = bytes := by
  rw [resize, List.take_length, Nat.sub_self, List.replicate_zero, List.append_nil]

theorem Block.hasData_iff (x : Block) {i : ℕ} (hi : i < 64) : x.hasData i = true ↔ x.data.toNat.testBit i = true := by
  rw [Block.hasData, bne_iff_ne]
  exact and_bit64_ne_zero x.data hi

theorem Block.hasData_or (x : Block) {i j : ℕ} (hi : i < 64) (hj : j < 64) :
    Block.hasData { x with data := x.data ||| 1 <<< UInt64.ofNat i } j = (x.hasData j || decide (i = j)) := by
  rw [Bool.eq_iff_iff, Block.hasData_iff _ hj, Bool.or_eq_true, Block.hasData_iff x hj]
  dsimp only
  rw [testBit_or_bit64 x.data hi, Bool.or_eq_true]

theorem Block.hasData_of_countOnes {x : Block} (hk : x.k ≤ 64)
    (hbits : ∀ i < 64, x.hasData i = true → i < x.k) (hall : x.k ≤ countOnes x.data) :
    ∀ i < x.k, x.hasData i = true := by
  have hsplit : countOnes x.data = (List.range x.k).countP fun i => x.data.toNat.testBit i := by
    unfold countOnes
    rw [show 64 = x.k + (64 - x.k) by omega, List.range_add, List.countP_append, List.countP_map]
    have hnone : List.countP ((fun i => x.data.toNat.testBit i) ∘ (x.k + ·)) (List.range (64 - x.k)) = 0 := by
      rw [List.countP_eq_zero]
      intro i hi hset
      rw [List.mem_range] at hi
      have := hbits (x.k + i) (by omega) ((x.hasData_iff (by omega)).mpr hset)
      omega
    rw [hnone, Nat.add_zero]
  have hcount : (List.range x.k).countP (fun i => x.data.toNat.testBit i) = (List.range x.k).length := by
    apply Nat.le_antisymm List.countP_le_length
    rw [← hsplit, List.length_range]
    exact hall
  intro i hi
  exact (x.hasData_iff (by omega)).mpr (List.countP_eq_length.mp hcount i (List.mem_range.mpr hi))

namespace Block.Twin

variable {size b : ℕ} {bytes bytes' : List UInt8} {x y : Block}

theorem k_eq (h : Twin size b bytes bytes' x y) : y.k = x.k := by rw [h.same]

theorem parity_eq (h : Twin size b bytes bytes' x y) : y.parity = x.parity := by rw [h.same]

theorem data_eq (h : Twin size b bytes bytes' x y) : y.data = x.data := by rw [h.same]

theorem have_eq (h : Twin size b bytes bytes' x y) : y.have_shards = x.have_shards := by rw [h.same]

theorem congr {bytes₂ bytes₂' : List UInt8} (h : Twin size b bytes bytes' x y)
    (hpiece : ∀ i < x.k, piece size (b * maxBlockData + i) bytes₂ = piece size (b * maxBlockData + i) bytes)
    (hpiece' : ∀ i < x.k, piece size (b * maxBlockData + i) bytes₂' = piece size (b * maxBlockData + i) bytes') :
    Twin size b bytes₂ bytes₂' x y where
  same := h.same
  bits := h.bits
  parity := h.parity
  staged hdone := by
    rw [h.staged hdone]
    refine List.map_congr_left fun i hi => ?_
    rw [hpiece i (List.mem_range.mp hi)]
  whole hdone i hi := by rw [hpiece i hi, hpiece' i hi, h.whole hdone i hi]

theorem fresh (size b : ℕ) (bytes bytes' : List UInt8) (k m : ℕ) :
    Twin size b bytes bytes' (.fresh false k m) (.fresh true k m) where
  same := rfl
  bits i hi hset := by
    rw [Block.hasData_iff _ hi] at hset
    simp [Block.fresh] at hset
  parity i s hs := by
    unfold Block.fresh at hs
    rw [List.getD_eq_getElem?_getD, List.getElem?_replicate] at hs
    split_ifs at hs
    · exact absurd hs (Option.some_ne_none s).symm
    · exact absurd hs (Option.some_ne_none s).symm
  staged _ := by
    have hnone : ∀ i, (Block.fresh false k m).hasData i = false := by
      intro i
      unfold Block.hasData Block.fresh
      simp
    simp only [hnone, Bool.false_eq_true, if_false, List.map_const', List.length_range]
    rfl
  whole h := absurd h Bool.false_ne_true

end Block.Twin

namespace Block.Twin

variable {size b : ℕ} {bytes bytes' : List UInt8} {x y : Block} {payload : List UInt8}

theorem store (h : Twin size b bytes bytes' x y) (hk : x.k ≤ maxBlockData) (hdone : x.done = false) {i : ℕ}
    (hi : i < x.k) (hsize : payload.length = size)
    (hpadded : payload = resize (payload.take (piece size (b * maxBlockData + i) bytes).length) size) :
    Twin size b (putPiece size (b * maxBlockData + i) bytes payload) bytes'
      { x with data := x.data ||| 1 <<< UInt64.ofNat i }
      { y with data := y.data ||| 1 <<< UInt64.ofNat i, staged := y.staged.set i (some payload) } := by
  unfold maxBlockData at hk
  constructor
  case same => rw [h.same]
  case bits =>
    intro j hj hset
    rw [Block.hasData_or x (by omega) hj, Bool.or_eq_true, decide_eq_true_eq] at hset
    rcases hset with hset | rfl
    · exact h.bits j hj hset
    · exact hi
  case parity => exact h.parity
  case staged =>
    intro _
    dsimp only
    rw [h.staged hdone]
    apply List.ext_getElem?
    intro j
    rw [List.getElem?_set, List.length_map, List.length_range]
    by_cases hij : i = j
    · rw [if_pos hij, if_pos (by omega), ← hij, List.getElem?_map, List.getElem?_range (by omega),
        Option.map_some, Block.hasData_or x (by omega) (by omega), decide_eq_true rfl, Bool.or_true,
        if_pos rfl, piece_putPiece_self hsize.ge, ← hpadded]
    · rw [if_neg hij, List.getElem?_map, List.getElem?_map]
      by_cases hj : j < x.k
      · rw [List.getElem?_range hj, Option.map_some, Option.map_some,
          Block.hasData_or x (by omega) (by omega), decide_eq_false hij, Bool.or_false,
          piece_putPiece_of_ne hsize.ge (by omega)]
      · rw [List.getElem?_eq_none (by rw [List.length_range]; omega)]
        rfl
  case whole => exact fun hwhole => absurd (hdone.symm.trans hwhole) Bool.false_ne_true

theorem keepParity (h : Twin size b bytes bytes' x y) (hsize : payload.length = size) (j : ℕ) :
    Twin size b bytes bytes' { x with parity := x.parity.set j (some payload) }
      { y with parity := y.parity.set j (some payload) } := by
  constructor
  case same => conv_lhs => rw [h.same]
  case bits => exact h.bits
  case parity =>
    intro i s hs
    dsimp only at hs
    rw [List.getD_eq_getElem?_getD, List.getElem?_set] at hs
    split_ifs at hs
    · cases hs
      exact hsize
    · cases hs
    · rw [← List.getD_eq_getElem?_getD] at hs
      exact h.parity i s hs
  case staged => exact h.staged
  case whole => exact h.whole

theorem counted (h : Twin size b bytes bytes' x y) (n : ℕ) :
    Twin size b bytes bytes' { x with have_shards := n } { y with have_shards := n } := by
  refine { h with same := ?same }
  case same => conv_lhs => rw [h.same]

theorem close (h : Twin size b bytes bytes' x y) {bytes₂ bytes₂' : List UInt8} {x' y' : Block}
    (hx : x' = { x with staged := x'.staged, parity := x'.parity })
    (hy : y' = { y with staged := y'.staged, parity := y'.parity })
    (hpiece : ∀ i < x.k, piece size (b * maxBlockData + i) bytes₂ = piece size (b * maxBlockData + i) bytes₂') :
    Twin size b bytes₂ bytes₂' { x' with done := true, parity := [] }
      { y' with done := true, parity := [] } := by
  constructor
  case same =>
    rw [hy, hx]
    dsimp only
    rw [h.k_eq, h.data_eq, h.have_eq]
  case bits =>
    intro i hi hset
    rw [hx] at hset ⊢
    exact h.bits i hi hset
  case parity => exact fun i s hs => absurd hs (Option.some_ne_none s).symm
  case staged => exact fun hdone => absurd hdone Bool.false_ne_true.symm
  case whole =>
    intro _ i hi
    rw [hx] at hi
    exact hpiece i hi

end Block.Twin

theorem Block.Twin.takeShard {a c : Assembly} {x y : Block} {h : ShardHeader} {payload data : List UInt8}
    (hxy : Block.Twin a.shard_size h.block.toNat a.data.bytes c.data.bytes x y)
    (hlen : a.data.bytes.length = a.frame_len) (hdata : data.length = a.frame_len) (hk : x.k ≤ maxBlockData)
    (hdone : x.done = false) (hkh : x.k = h.k.toNat) (hsize : payload.length = a.shard_size)
    (hpadded : h.shard.toNat < h.k.toNat → payload =
      resize (piece a.shard_size (h.block.toNat * maxBlockData + h.shard.toNat) data) a.shard_size)
    (pool pool' : List (List UInt8)) :
    ∃ a' x' y' p p', a.takeShard false pool h payload x = (a', x', p) ∧
      c.takeShard true pool' h payload y = (c, y', p') ∧ a.Within h.block.toNat a' ∧
      Block.Twin a.shard_size h.block.toNat a'.data.bytes c.data.bytes x' y' ∧ x'.k = x.k ∧
      x'.done = false := by
  have hcopy : resize payload payload.length = payload := resize_self payload
  unfold Assembly.takeShard pooled
  dsimp only
  rw [hcopy]
  by_cases hi : h.shard.toNat < h.k.toNat
  · rw [if_pos hi, if_pos hi, if_neg Bool.false_ne_true, if_pos rfl, Assembly.place_eq hlen _ _ hsize.ge]
    have hshard : h.shard.toNat < x.k := hkh ▸ hi
    refine ⟨_, _, _, _, _, rfl, rfl, ?_, hxy.store hk hdone hshard hsize ?_, rfl, hdone⟩
    · refine ⟨rfl, length_putPiece hsize.ge _ _, fun q hq => piece_putPiece_of_ne hsize.ge ?_ _⟩
      rintro rfl
      apply hq
      unfold maxBlockData at hk ⊢
      omega
    · rw [length_piece_congr (hlen.trans hdata.symm)]
      have hcut := take_resize (length_piece_le a.shard_size (h.block.toNat * maxBlockData + h.shard.toNat) data)
      rw [← hpadded hi] at hcut
      rw [hcut]
      exact hpadded hi
  · rw [if_neg hi, if_neg hi]
    exact ⟨_, _, _, _, _, rfl, rfl, .refl _ a, hxy.keepParity hsize _, rfl, hdone⟩

section

variable {a c : Assembly} {b : ℕ} {x y : Block}

theorem Block.Twin.rebuildData (hxy : Block.Twin a.shard_size b a.data.bytes c.data.bytes x y)
    (hlen : a.data.bytes.length = a.frame_len) (hdone : x.done = false) (pool pool' : List (List UInt8)) :
    (rebuildData a b x false pool).2 = y.staged ∧ (rebuildData c b y true pool').2 = y.staged := by
  refine ⟨(rebuildData_inPlace b x pool hlen).trans (hxy.staged hdone).symm, ?_⟩
  rw [rebuildData_staged, hxy.k_eq, hxy.staged hdone]
  refine List.map_congr_left fun i hi => ?_
  rw [List.getD_eq_getElem?_getD, List.getElem?_map, List.getElem?_range (List.mem_range.mp hi)]
  rfl

theorem Block.Twin.getD_shards (hxy : Block.Twin a.shard_size b a.data.bytes c.data.bytes x y)
    (hdone : x.done = false) {i : ℕ} (hi : i < x.k) :
    (y.staged ++ x.parity).getD i none = if x.hasData i then
      some (resize (piece a.shard_size (b * maxBlockData + i) a.data.bytes) a.shard_size) else none := by
  rw [hxy.staged hdone, List.getD_eq_getElem?_getD,
    List.getElem?_append_left (by rwa [List.length_map, List.length_range]), List.getElem?_map,
    List.getElem?_range hi]
  rfl

theorem Block.Twin.length_staged (hxy : Block.Twin a.shard_size b a.data.bytes c.data.bytes x y)
    (hdone : x.done = false) : y.staged.length = x.k := by
  rw [hxy.staged hdone, List.length_map, List.length_range]

theorem Block.Twin.reconstruct_of_all (cpu : Fec.Cpu)
    (hxy : Block.Twin a.shard_size b a.data.bytes c.data.bytes x y) (hdone : x.done = false)
    (hall : ∀ i < x.k, x.hasData i = true) :
    (Fec.reconstruct cpu (y.staged ++ x.parity) x.k).1 = true := by
  have hempty : Fec.missingShards (y.staged ++ x.parity) x.k = [] := by
    rw [List.eq_nil_iff_forall_not_mem]
    intro i hi
    obtain ⟨hlt, hgone⟩ := Fec.mem_missingShards.mp hi
    rw [hxy.getD_shards hdone hlt, if_pos (hall i hlt)] at hgone
    cases hgone
  unfold Fec.reconstruct
  rw [hempty]
  rfl

theorem Block.Twin.le_shards (hxy : Block.Twin a.shard_size b a.data.bytes c.data.bytes x y)
    (hdone : x.done = false) : x.k ≤ (y.staged ++ x.parity).length := by
  rw [List.length_append, hxy.length_staged hdone]
  exact Nat.le_add_right _ _

theorem Block.Twin.parity_shards (hxy : Block.Twin a.shard_size b a.data.bytes c.data.bytes x y)
    (hdone : x.done = false) (i : ℕ) (s : List UInt8)
    (hs : (y.staged ++ x.parity).getD (x.k + i) none = some s) : s.length = a.shard_size := by
  have hcount := hxy.length_staged hdone
  rw [List.getD_eq_getElem?_getD, List.getElem?_append_right (by omega), hcount, Nat.add_sub_cancel_left,
    ← List.getD_eq_getElem?_getD] at hs
  exact hxy.parity i s hs

theorem Block.Twin.reconstruct_failed {cpu : Fec.Cpu} {shards : List (Option (List UInt8))}
    (hxy : Block.Twin a.shard_size b a.data.bytes c.data.bytes x y) (hdone : x.done = false)
    (h : Fec.reconstruct cpu (y.staged ++ x.parity) x.k = (false, shards)) :
    shards = y.staged ++ x.parity := by
  have hspec := (Fec.reconstruct_spec cpu (hxy.le_shards hdone) (hxy.parity_shards hdone)).1
  rw [h] at hspec
  exact hspec rfl

theorem Block.Twin.reconstruct_ok {cpu : Fec.Cpu} {shards : List (Option (List UInt8))}
    (hxy : Block.Twin a.shard_size b a.data.bytes c.data.bytes x y) (hdone : x.done = false)
    (h : Fec.reconstruct cpu (y.staged ++ x.parity) x.k = (true, shards)) {i : ℕ} (hi : i < x.k) :
    a.shard_size ≤ ((shards.getD i none).getD []).length ∧ (x.hasData i = true →
      ((shards.getD i none).getD []).take (piece a.shard_size (b * maxBlockData + i) a.data.bytes).length =
        piece a.shard_size (b * maxBlockData + i) a.data.bytes) := by
  have hspec := (Fec.reconstruct_spec cpu (hxy.le_shards hdone) (hxy.parity_shards hdone)).2
  rw [h] at hspec
  obtain ⟨s, hs, hs'⟩ := hspec rfl i hi
  dsimp only at hs
  rw [hs, Option.getD_some]
  rw [hxy.getD_shards hdone hi] at hs'
  by_cases hset : x.hasData i = true
  · rw [if_pos hset] at hs'
    rcases hs' with hkept | ⟨hgone, -⟩
    · cases hkept
      exact ⟨(length_resize _ _).ge, fun _ => take_resize (length_piece_le _ _ _)⟩
    · cases hgone
  · rw [if_neg hset] at hs'
    rcases hs' with hkept | ⟨-, hlong⟩
    · cases hkept
    · exact ⟨hlong.ge, fun hset' => absurd hset' hset⟩

theorem Block.Twin.finish (cpu : Fec.Cpu) (hxy : Block.Twin a.shard_size b a.data.bytes c.data.bytes x y)
    (hsame : c = { a with blocks := c.blocks, data := c.data })
    (hlen : a.data.bytes.length = a.frame_len) (hlen' : c.data.bytes.length = a.frame_len)
    (hk : x.k ≤ maxBlockData) (hdone : x.done = false) (pool pool' : List (List UInt8)) :
    ∃ ok a' c' x' y' p p',
      (if 0 < x.k - countOnes x.data || false then rebuild cpu a b x false pool else (true, a, x, pool)) =
        (ok, a', x', p) ∧
      (if 0 < x.k - countOnes x.data || true then rebuild cpu c b y true pool' else (true, c, y, pool')) =
        (ok, c', y', p') ∧
      (ok = false → a' = a ∧ c' = c ∧ x' = x ∧ y' = y) ∧
      (ok = true → a.Within b a' ∧ c.Within b c' ∧ x' = { x with staged := x'.staged, parity := x'.parity } ∧
        y' = { y with staged := y'.staged, parity := y'.parity } ∧
        ∀ i < x.k, piece a.shard_size (b * maxBlockData + i) a'.data.bytes =
          piece a.shard_size (b * maxBlockData + i) c'.data.bytes) := by
  have hsize : c.shard_size = a.shard_size := by rw [hsame]
  have hframe : c.frame_len = a.frame_len := by rw [hsame]
  obtain ⟨hx, hy⟩ := hxy.rebuildData hlen hdone pool pool'
  have hcount := hxy.length_staged hdone
  have hall : ¬ 0 < x.k - countOnes x.data → ∀ i < x.k, x.hasData i = true := fun hnone =>
    Block.hasData_of_countOnes hk hxy.bits (by omega)
  rcases hR : Fec.reconstruct cpu (y.staged ++ x.parity) x.k with ⟨ok, shards⟩
  rw [if_pos (Bool.or_true _)]
  cases ok with
  | false =>
    have hmissing : 0 < x.k - countOnes x.data := by
      by_contra hnone
      have htrue := hxy.reconstruct_of_all cpu hdone (hall hnone)
      rw [hR] at htrue
      exact Bool.false_ne_true htrue
    obtain rfl := hxy.reconstruct_failed hdone hR
    obtain ⟨p, hp⟩ := rebuild_of_failed cpu a b x false pool (by rw [hx]; exact hR)
    obtain ⟨p', hp'⟩ := rebuild_of_failed cpu c b y true pool' (by rw [hy, hxy.parity_eq, hxy.k_eq]; exact hR)
    refine ⟨false, a, c, x, y, p, p', ?_, ?_, fun _ => ⟨rfl, rfl, rfl, rfl⟩, fun h => absurd h Bool.false_ne_true⟩
    · rw [if_pos (by simpa using hmissing), hp, if_neg Bool.false_ne_true, List.drop_left' hcount]
    · have htake : (y.staged ++ x.parity).take y.k = y.staged := List.take_left' (hcount.trans hxy.k_eq.symm)
      have hdrop : (y.staged ++ x.parity).drop y.k = y.parity := by
        rw [List.drop_left' (hcount.trans hxy.k_eq.symm), hxy.parity_eq]
      rw [hp', if_pos rfl, htake, hdrop]
  | true =>
    have hfits := fun i (hi : i < x.k) => (hxy.reconstruct_ok hdone hR hi).1
    have hkept := fun i (hi : i < x.k) => (hxy.reconstruct_ok hdone hR hi).2
    obtain ⟨p', hp'⟩ := rebuild_of_ok cpu c b y true pool' (by rw [hy, hxy.parity_eq, hxy.k_eq]; exact hR)
    obtain ⟨hwithin', hpiece'⟩ := Assembly.foldl_place (hlen'.trans hframe.symm) b (k := y.k)
      (by rw [hxy.k_eq]; exact hk) (fun i => true || !y.hasData i) (fun i => (shards.getD i none).getD [])
      (fun i hi _ => by rw [hsize]; exact hfits i (by rwa [hxy.k_eq] at hi))
    rw [hxy.k_eq, hsize] at hpiece'
    have hroom : ∀ q, (piece a.shard_size q c.data.bytes).length =
        (piece a.shard_size q a.data.bytes).length := fun q => length_piece_congr (hlen'.trans hlen.symm)
    by_cases hmissing : 0 < x.k - countOnes x.data
    · obtain ⟨p, hp⟩ := rebuild_of_ok cpu a b x false pool (by rw [hx]; exact hR)
      obtain ⟨hwithin, hpiece⟩ := Assembly.foldl_place hlen b hk (fun i => false || !x.hasData i)
        (fun i => (shards.getD i none).getD []) (fun i hi _ => hfits i hi)
      refine ⟨true, _, _,
        { x with staged := x.staged.map fun _ => none, parity := x.parity.map fun _ => none },
        { y with staged := y.staged.map fun _ => none, parity := y.parity.map fun _ => none },
        p, p', ?_, hp', fun h => absurd h.symm Bool.false_ne_true,
        fun _ => ⟨hwithin, hwithin', rfl, rfl, fun i hi => ?_⟩⟩
      · rw [if_pos (by simpa using hmissing), hp]
      · rw [hpiece i hi, hxy.k_eq, hpiece' i hi, if_pos (Bool.true_or _), hroom]
        split_ifs with hset
        · rfl
        · exact (hkept i hi (by simpa using hset)).symm
    · refine ⟨true, a, _, x,
        { y with staged := y.staged.map fun _ => none, parity := y.parity.map fun _ => none },
        pool, p', ?_, hp', fun h => absurd h.symm Bool.false_ne_true,
        fun _ => ⟨.refl b a, hwithin', rfl, rfl, fun i hi => ?_⟩⟩
      · rw [if_neg (by simpa using hmissing)]
      · rw [hxy.k_eq, hpiece' i hi, if_pos (Bool.true_or _), hroom,
          hkept i hi (hall hmissing i hi)]

end

/-! ## A shard for a frame in flight -/

theorem rel_none_left {α β : Type*} {r : α → β → Prop} {z : Option β} (h : Option.Rel r none z) : z = none := by
  cases h
  rfl

theorem rel_some_left {α β : Type*} {r : α → β → Prop} {x : α} {z : Option β}
    (h : Option.Rel r (some x) z) : ∃ y, z = some y ∧ r x y := by
  cases h with
  | some h => exact ⟨_, rfl, h⟩

/-- A frame in flight, in place and staged. -/
structure Assembly.Twin (trains : Bool) (f : OutFrame) (a c : Assembly) : Prop where
  same : c = { a with blocks := c.blocks, data := c.data }
  frame_id : a.frame_id = f.frame_id
  shard_size : a.shard_size = (layoutOf trains f.data.length f.probe).2
  frame_len : a.frame_len = f.data.length
  length : a.data.bytes.length = a.frame_len
  length' : c.data.bytes.length = a.frame_len
  count : a.blocks.length = divCeil (layoutOf trains f.data.length f.probe).1 maxBlockData
  count' : c.blocks.length = a.blocks.length
  blocks : ∀ b, Option.Rel (Block.Twin a.shard_size b a.data.bytes c.data.bytes) (a.blocks.getD b none)
    (c.blocks.getD b none)
  k : ∀ b x, a.blocks.getD b none = some x → x.k = blockData (layoutOf trains f.data.length f.probe).1 b
  done : a.blocks_done = a.blocks.countP (·.any (·.done))

inductive Arrival.Twin (trains : Bool) (f : OutFrame) : Arrival → Arrival → Prop
  | ignored : Twin trains f .ignored .ignored
  | kept {a c : Assembly} {pool pool' : List (List UInt8)} {recovered : ℕ} (h : a.Twin trains f c) :
      Twin trains f (.kept a pool recovered) (.kept c pool' recovered)
  | whole {a c : Assembly} {pool pool' : List (List UInt8)} {recovered : ℕ} (h : a.Twin trains f c)
      (hsame : a.data.bytes = c.data.bytes) :
      Twin trains f (.whole a pool recovered) (.whole c pool' recovered)

section

variable {trains : Bool} {f : OutFrame} {a c : Assembly}

theorem Assembly.Twin.set (h : a.Twin trains f c) {b : ℕ} {a' c' : Assembly} {x y : Block}
    (hb : b < a.blocks.length) (ha : a.Within b a') (hc : c.Within b c')
    (hxy : Block.Twin a.shard_size b a'.data.bytes c'.data.bytes x y)
    (hk : x.k = blockData (layoutOf trains f.data.length f.probe).1 b)
    (hnew : (a.blocks.getD b none).any (·.done) = false) {n m : ℕ}
    (hn : n = a.blocks_done + if x.done then 1 else 0) (hm : m = n) :
    Assembly.Twin trains f { a' with blocks := a'.blocks.set b (some x), blocks_done := n }
      { c' with blocks := c'.blocks.set b (some y), blocks_done := m } := by
  subst hm
  obtain ⟨hsame, hlen, hpiece⟩ := ha
  obtain ⟨hsame', hlen', hpiece'⟩ := hc
  have hblocks : a'.blocks = a.blocks := by rw [hsame]
  have hblocks' : c'.blocks = c.blocks := by rw [hsame']
  have hframe : a'.frame_len = a.frame_len := by rw [hsame]
  have hsize : a'.shard_size = a.shard_size := by rw [hsame]
  have hsize' : c.shard_size = a.shard_size := by rw [h.same]
  rw [hsize'] at hpiece'
  constructor
  case same => rw [hsame', hsame, h.same]
  case frame_id => exact (by rw [hsame] : a'.frame_id = a.frame_id).trans h.frame_id
  case shard_size => exact hsize.trans h.shard_size
  case frame_len => exact hframe.trans h.frame_len
  case length => exact hlen.trans (h.length.trans hframe.symm)
  case length' => exact hlen'.trans (h.length'.trans hframe.symm)
  case count =>
    dsimp only
    rw [List.length_set, hblocks, h.count]
  case count' =>
    dsimp only
    rw [List.length_set, List.length_set, hblocks, hblocks', h.count']
  case blocks =>
    intro j
    dsimp only
    rw [hblocks, hblocks', hsize, List.getD_eq_getElem?_getD, List.getD_eq_getElem?_getD, List.getElem?_set,
      List.getElem?_set]
    by_cases hj : b = j
    · subst hj
      rw [if_pos rfl, if_pos rfl, if_pos hb, if_pos (by rwa [h.count'])]
      exact .some hxy
    · rw [if_neg hj, if_neg hj, ← List.getD_eq_getElem?_getD, ← List.getD_eq_getElem?_getD]
      have hold := h.blocks j
      rcases hx : a.blocks.getD j none with _ | x'
      · rw [hx] at hold
        rw [rel_none_left hold]
        exact .none
      · have hsmall : x'.k ≤ maxBlockData := by
          rw [h.k j x' hx]
          exact blockData_le _ _
        rw [hx] at hold
        obtain ⟨y', hy', hpair⟩ := rel_some_left hold
        rw [hy']
        unfold maxBlockData at hsmall hpiece hpiece'
        refine .some (hpair.congr (fun i hi => hpiece _ ?_) (fun i hi => hpiece' _ ?_))
        · unfold maxBlockData
          omega
        · unfold maxBlockData
          omega
  case k =>
    intro j x' hx'
    dsimp only at hx'
    rw [hblocks, List.getD_eq_getElem?_getD, List.getElem?_set] at hx'
    by_cases hj : b = j
    · rw [if_pos hj, if_pos hb] at hx'
      cases hx'
      rw [← hj]
      exact hk
    · rw [if_neg hj, ← List.getD_eq_getElem?_getD] at hx'
      exact h.k j x' hx'
  case done =>
    dsimp only
    have hold : a.blocks[b].any (·.done) = false := by
      rwa [List.getD_eq_getElem?_getD, List.getElem?_eq_getElem hb] at hnew
    rw [hblocks, List.countP_set hb, hn, h.done, hold, if_neg Bool.false_ne_true, Nat.sub_zero, Option.any_some]

theorem Assembly.Twin.bytes_eq (h : a.Twin trains f c) (hwhole : a.blocks.length ≤ a.blocks_done) :
    a.data.bytes = c.data.bytes := by
  obtain ⟨hpos, -, hcover⟩ := layoutOf_covers trains f.data.length f.probe
  rw [← h.shard_size] at hpos hcover
  have hdone : ∀ x ∈ a.blocks, x.any (·.done) = true := by
    have hle : a.blocks.countP (·.any (·.done)) ≤ a.blocks.length := List.countP_le_length
    rw [h.done] at hwhole
    exact List.countP_eq_length.mp (Nat.le_antisymm hle hwhole)
  refine ext_piece hpos (h.length.trans h.length'.symm) fun q hq => ?_
  -- The piece is a data shard of a block.
  generalize hs : (layoutOf trains f.data.length f.probe).1 = shards at hcover
  have hshard : q < shards := by
    rw [h.length, h.frame_len] at hq
    exact Nat.lt_of_mul_lt_mul_right (Nat.lt_of_lt_of_le hq hcover)
  have hb : q / maxBlockData < a.blocks.length := by
    rw [h.count, hs]
    unfold divCeil maxBlockData
    omega
  have hin := hdone _ (List.getElem_mem hb)
  have hget : a.blocks.getD (q / maxBlockData) none = a.blocks[q / maxBlockData] := by
    rw [List.getD_eq_getElem?_getD, List.getElem?_eq_getElem hb]
    rfl
  have hpair := h.blocks (q / maxBlockData)
  rcases hx : a.blocks[q / maxBlockData] with _ | x
  · rw [hx] at hin
    cases hin
  · rw [hx] at hin hget
    have hk := h.k _ x hget
    rw [hget] at hpair
    obtain ⟨y, -, hxy⟩ := rel_some_left hpair
    have hlt : q % maxBlockData < x.k := by
      rw [hk, hs]
      unfold blockData maxBlockData
      omega
    have hsame := hxy.whole hin (q % maxBlockData) hlt
    rwa [Nat.div_add_mod'] at hsame

end

section

variable {cpu : Fec.Cpu} {stage : Bool} {pool p : List (List UInt8)} {a a' : Assembly} {h : ShardHeader}
  {payload : List UInt8} {x x' : Block}

def Assembly.blockOf (a : Assembly) (stage : Bool) (h : ShardHeader) : Block :=
  (a.blocks.getD h.block.toNat none).getD (.fresh stage h.k.toNat h.m.toNat)

def Block.refuses (block : Block) (h : ShardHeader) : Bool :=
  block.done || block.k != h.k.toNat || block.parity.length != h.m.toNat ||
    if h.shard.toNat < h.k.toNat then block.hasData h.shard.toNat
    else (block.parity.getD (h.shard.toNat - h.k.toNat) none).isSome

theorem Assembly.push_of_refused (hx : a.blockOf stage h = x) (hrefused : x.refuses h = true) :
    a.push cpu stage pool h payload = .ignored := by
  unfold Assembly.push
  extract_lets b k i block
  have hblock : block = x := hx
  clear_value block
  subst hblock
  unfold Block.refuses at hrefused
  rw [Bool.or_eq_true] at hrefused
  rcases hrefused with hodd | hseen
  · exact if_pos hodd
  · by_cases hodd : (block.done || block.k != h.k.toNat || block.parity.length != h.m.toNat) = true
    · exact if_pos hodd
    · exact (if_neg hodd).trans (if_pos hseen)

theorem Assembly.push_of_few (hx : a.blockOf stage h = x) (htakes : x.refuses h = false)
    (htaken : a.takeShard stage pool h payload x = (a', x', p)) (hfew : x'.have_shards + 1 < x'.k) :
    a.push cpu stage pool h payload = .kept { a' with
      blocks := a'.blocks.set h.block.toNat (some { x' with have_shards := x'.have_shards + 1 }) } p 0 := by
  unfold Assembly.push
  extract_lets b k i block
  have hblock : block = x := hx
  clear_value block
  subst hblock
  unfold Block.refuses at htakes
  rw [Bool.or_eq_false_iff] at htakes
  rw [htaken, if_neg (by rw [htakes.1]; decide), if_neg (by rw [htakes.2]; decide)]
  exact if_pos hfew

theorem Assembly.push_of_enough {ok : Bool} {a'' : Assembly} {x'' : Block} {p' : List (List UInt8)}
    (hx : a.blockOf stage h = x) (htakes : x.refuses h = false)
    (htaken : a.takeShard stage pool h payload x = (a', x', p)) (henough : x'.k ≤ x'.have_shards + 1)
    (hk : h.k.toNat = x'.k) (hfinish : (if 0 < x'.k - countOnes x'.data || stage then
        rebuild cpu a' h.block.toNat { x' with have_shards := x'.have_shards + 1 } stage p
      else (true, a', { x' with have_shards := x'.have_shards + 1 }, p)) = (ok, a'', x'', p')) :
    a.push cpu stage pool h payload =
      if ok = false then
        .kept { a'' with blocks := a''.blocks.set h.block.toNat (some x'') } p' 0
      else if a''.blocks_done + 1 < a''.blocks.length then
        .kept { a'' with
          blocks := a''.blocks.set h.block.toNat (some { x'' with done := true, parity := [] })
          blocks_done := a''.blocks_done + 1 }
          ((x''.parity.filterMap id).foldl recycle p') (x'.k - countOnes x'.data)
      else .whole { a'' with
          blocks := a''.blocks.set h.block.toNat (some { x'' with done := true, parity := [] })
          blocks_done := a''.blocks_done + 1 }
          ((x''.parity.filterMap id).foldl recycle p') (x'.k - countOnes x'.data) := by
  unfold Assembly.push
  extract_lets b k i block
  have hblock : block = x := hx
  clear_value block
  subst hblock
  unfold Block.refuses at htakes
  rw [Bool.or_eq_false_iff] at htakes
  rw [htaken, if_neg (by rw [htakes.1]; decide), if_neg (by rw [htakes.2]; decide)]
  dsimp only
  rw [if_neg (Nat.not_lt.mpr henough), show k = x'.k from hk, hfinish]
  dsimp only
  cases ok with
  | false => rfl
  | true =>
    rw [List.length_set]
    rfl

end

theorem Assembly.Twin.blockOf {trains : Bool} {f : OutFrame} {a c : Assembly} (hac : a.Twin trains f c)
    (h : ShardHeader) :
    Block.Twin a.shard_size h.block.toNat a.data.bytes c.data.bytes (a.blockOf false h) (c.blockOf true h) ∧
      ((a.blockOf false h).done = false → (a.blocks.getD h.block.toNat none).any (·.done) = false) := by
  have hpair := hac.blocks h.block.toNat
  unfold Assembly.blockOf
  rcases hold : a.blocks.getD h.block.toNat none with _ | x
  · rw [hold] at hpair
    rw [rel_none_left hpair]
    exact ⟨.fresh _ _ _ _ _ _, fun _ => rfl⟩
  · rw [hold] at hpair
    obtain ⟨y, hy, hpair⟩ := rel_some_left hpair
    rw [hy]
    exact ⟨hpair, fun hdone => hdone⟩

theorem Assembly.Twin.push {trains : Bool} {f : OutFrame} {a c : Assembly} (hac : a.Twin trains f c)
    {h : ShardHeader} {payload : List UInt8} (hfits : f.Fits trains h payload)
    (hb : h.block.toNat < a.blocks.length) (cpu : Fec.Cpu) (pool pool' : List (List UInt8)) :
    Arrival.Twin trains f (a.push cpu false pool h payload) (c.push cpu true pool' h payload) := by
  obtain ⟨x, hx⟩ : ∃ x, a.blockOf false h = x := ⟨_, rfl⟩
  obtain ⟨y, hy⟩ : ∃ y, c.blockOf true h = y := ⟨_, rfl⟩
  obtain ⟨hxy, hnew⟩ := hac.blockOf h
  rw [hx, hy] at hxy
  rw [hx] at hnew
  have hsame : y.refuses h = x.refuses h := by
    rw [hxy.same]
    rfl
  by_cases hrefused : x.refuses h = true
  · rw [Assembly.push_of_refused hx hrefused, Assembly.push_of_refused hy (hsame.trans hrefused)]
    exact .ignored
  have htakes : x.refuses h = false := Bool.eq_false_iff.mpr hrefused
  obtain ⟨hdone, hk⟩ : x.done = false ∧ x.k = h.k.toNat := by
    unfold Block.refuses at htakes
    rw [Bool.or_eq_false_iff, Bool.or_eq_false_iff, Bool.or_eq_false_iff, bne_eq_false_iff_eq] at htakes
    exact ⟨htakes.1.1.1, htakes.1.1.2⟩
  have hdata : x.k = blockData (layoutOf trains f.data.length f.probe).1 h.block.toNat := hk.trans hfits.k
  have hsmall : x.k ≤ maxBlockData := by
    rw [hdata]
    exact blockData_le _ _
  obtain ⟨a', x', y', p, p', htaken, htaken', hwithin, hxy', hk', hdone'⟩ :=
    hxy.takeShard hac.length hac.frame_len.symm hsmall hdone hk
    (hfits.size.trans hac.shard_size.symm)
    (fun hi => by rw [hac.shard_size]; exact hfits.padded hi) pool pool'
  have hwithin' : c.Within h.block.toNat c := .refl _ c
  have hcount : x'.have_shards = y'.have_shards := hxy'.have_eq.symm
  have hcount₁ : a'.blocks_done = a.blocks_done := by rw [hwithin.1]
  have hcount₂ : c.blocks_done = a.blocks_done := by rw [hac.same]
  have hxy'' : Block.Twin a.shard_size h.block.toNat a'.data.bytes c.data.bytes
      { x' with have_shards := x'.have_shards + 1 } { y' with have_shards := y'.have_shards + 1 } := by
    rw [← hcount]
    exact hxy'.counted _
  by_cases hfew : x'.have_shards + 1 < x'.k
  · rw [Assembly.push_of_few hx htakes htaken hfew, Assembly.push_of_few hy (hsame.trans htakes) htaken'
      (by rw [← hcount, hxy'.k_eq]; exact hfew)]
    exact .kept (hac.set hb hwithin hwithin' hxy'' (hk'.trans hdata) (hnew hdone)
      (by rw [hcount₁]; dsimp only; rw [hdone', if_neg Bool.false_ne_true, Nat.add_zero])
      (hcount₂.trans hcount₁.symm))
  · have hlen : a'.data.bytes.length = a'.frame_len := by
      rw [hwithin.2.1, hac.length, hwithin.1]
    have hframe : a'.frame_len = a.frame_len := by rw [hwithin.1]
    have hsize : a'.shard_size = a.shard_size := by rw [hwithin.1]
    rw [← hsize] at hxy''
    obtain ⟨ok, a'', c'', x'', y'', p'', p''', hfin, hfin', hnot, hok⟩ := hxy''.finish cpu
      (by rw [hwithin.1, hac.same]) hlen (hac.length'.trans hframe.symm) (by rw [hk']; exact hsmall) hdone'
      p p'
    dsimp only at hfin hfin' hok
    rw [← hxy'.k_eq, ← hxy'.data_eq] at hfin'
    have hpush := Assembly.push_of_enough hx htakes htaken (Nat.not_lt.mp hfew) (hk'.trans hk).symm hfin
    have hpush' := Assembly.push_of_enough hy (hsame.trans htakes) htaken'
      (by rw [← hcount, hxy'.k_eq]; exact Nat.not_lt.mp hfew) (by rw [hxy'.k_eq, hk', hk]) hfin'
    rw [hpush, hpush', hxy'.data_eq, hxy'.k_eq]
    rw [hsize] at hxy'' hok
    cases ok with
    | false =>
      obtain ⟨rfl, rfl, rfl, rfl⟩ := hnot rfl
      rw [if_pos rfl, if_pos rfl]
      exact .kept (hac.set hb hwithin hwithin' hxy'' (hk'.trans hdata) (hnew hdone)
        (by rw [hcount₁]; dsimp only; rw [hdone', if_neg Bool.false_ne_true, Nat.add_zero])
      (hcount₂.trans hcount₁.symm))
    | true =>
      obtain ⟨hin, hin', hxsame, hysame, hpieces⟩ := hok rfl
      rw [if_neg Bool.false_ne_true.symm, if_neg Bool.false_ne_true.symm]
      have hall := hwithin.trans hin
      have hdone₁ : a''.blocks_done = a.blocks_done := by rw [hall.1]
      have hdone₂ : c''.blocks_done = a''.blocks_done := by rw [hin'.1, hcount₂, hdone₁]
      have hblocks₁ : a''.blocks = a.blocks := by rw [hall.1]
      have hblocks₂ : c''.blocks = c.blocks := by rw [hin'.1]
      have hkx : x''.k = x'.k := by rw [hxsame]
      have hdoneTwin : Block.Twin a.shard_size h.block.toNat a''.data.bytes c''.data.bytes
          { x'' with done := true, parity := [] } { y'' with done := true, parity := [] } :=
        hxy''.close hxsame hysame hpieces
      have hset := hac.set hb hall hin' hdoneTwin (hkx.trans (hk'.trans hdata)) (hnew hdone)
        (n := a''.blocks_done + 1) (m := c''.blocks_done + 1)
        (by rw [hdone₁]; rfl) (by rw [hdone₂])
      by_cases hmore : a''.blocks_done + 1 < a''.blocks.length
      · rw [if_pos hmore, if_pos (by rw [hdone₂, hblocks₂, hac.count', ← hblocks₁]; exact hmore)]
        exact .kept hset
      · rw [if_neg hmore, if_neg (by rw [hdone₂, hblocks₂, hac.count', ← hblocks₁]; exact hmore)]
        refine .whole hset (hset.bytes_eq ?_)
        dsimp only
        rw [List.length_set]
        exact Nat.not_lt.mp hmore

end Video

end Rdpio.Hyper
