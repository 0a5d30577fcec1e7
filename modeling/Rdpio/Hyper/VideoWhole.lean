import Rdpio.Hyper.VideoStaging

/-!
# Frames that arrive whole

An assembly that is given packets of its own frame alone is whole as soon as every data shard has come, whatever the
parity does before (`Assembly.Gathers`): until then some data shard is missing.
-/

namespace Rdpio.Hyper.Video

open Lib

theorem countP_or_le {α : Type*} (p q : α → Bool) (l : List α) :
    (l.countP fun x => p x || q x) ≤ l.countP p + l.countP q := by
  induction l with
  | nil => exact Nat.le_refl _
  | cons x l ih =>
    simp only [List.countP_cons]
    cases p x <;> cases q x <;> simp <;> omega

theorem countP_eq_le_one {l : List ℕ} (hl : l.Nodup) (i : ℕ) : l.countP (fun j => decide (i = j)) ≤ 1 := by
  have hsame : l.countP (fun j => decide (i = j)) = l.count i := List.countP_congr fun j _ => by
    rw [decide_eq_true_eq, beq_iff_eq, eq_comm]
  rw [hsame]
  exact List.nodup_iff_count_le_one.mp hl i

theorem countOnes_or_le (w : UInt64) {i : ℕ} (hi : i < 64) :
    countOnes (w ||| 1 <<< UInt64.ofNat i) ≤ countOnes w + 1 := by
  have hbits : ∀ j ∈ List.range 64, ((w ||| 1 <<< UInt64.ofNat i).toNat.testBit j = true ↔
      (w.toNat.testBit j || decide (i = j)) = true) := by
    intro j _
    rw [testBit_or_bit64 w hi, Bool.or_eq_true]
  calc countOnes (w ||| 1 <<< UInt64.ofNat i)
      = (List.range 64).countP fun j => w.toNat.testBit j || decide (i = j) := List.countP_congr hbits
    _ ≤ countOnes w + (List.range 64).countP fun j => decide (i = j) := countP_or_le _ _ _
    _ ≤ countOnes w + 1 := Nat.add_le_add_left (countP_eq_le_one List.nodup_range i) _

theorem Block.missing_of_countOnes {x : Block} (hk : x.k ≤ 64) (hfew : countOnes x.data < x.k) :
    ∃ i < x.k, x.hasData i = false := by
  by_contra hall
  push Not at hall
  refine absurd hfew (Nat.not_lt.mpr ?_)
  have hset : (List.range x.k).countP (fun i => x.data.toNat.testBit i) = x.k := by
    rw [List.countP_eq_length.mpr fun i hi => ?_, List.length_range]
    have hi' := List.mem_range.mp hi
    exact (x.hasData_iff (by omega)).mp (Bool.eq_true_of_not_eq_false (hall i hi'))
  calc x.k = (List.range x.k).countP fun i => x.data.toNat.testBit i := hset.symm
    _ ≤ countOnes x.data := (List.range_sublist.mpr hk).countP_le

/-- Shard `h.shard` of the frame, data or parity. -/
structure OutFrame.Sends (trains : Bool) (f : OutFrame) (fec : Float32) (h : ShardHeader) (payload : List UInt8) :
    Prop extends f.Fits trains h payload where
  flags : h.flags = f.flags
  m : h.m.toNat = parityCount trains (blockData (layoutOf trains f.data.length f.probe).1 h.block.toNat) h.block.toNat
    (layoutOf trains f.data.length f.probe).1 fec f.probe

/-- How many data shards block `b` of the frame has. -/
def OutFrame.dataOf (trains : Bool) (f : OutFrame) (b : ℕ) : ℕ := blockData (layoutOf trains f.data.length f.probe).1 b

def OutFrame.parityOf (trains : Bool) (f : OutFrame) (fec : Float32) (b : ℕ) : ℕ :=
  parityCount trains (f.dataOf trains b) b (layoutOf trains f.data.length f.probe).1 fec f.probe

def OutFrame.blocksOf (trains : Bool) (f : OutFrame) : ℕ :=
  divCeil (layoutOf trains f.data.length f.probe).1 maxBlockData

/-- A block of a frame that only this frame's shards went into: until it is done, a data shard is missing. -/
structure Block.Gathers (trains : Bool) (f : OutFrame) (fec : Float32) (b : ℕ) (x : Block) : Prop where
  k : x.k = f.dataOf trains b
  parity : x.done = false → x.parity.length = f.parityOf trains fec b
  counted : countOnes x.data ≤ x.have_shards
  few : x.done = false → countOnes x.data < x.k

structure Assembly.Gathers (trains : Bool) (f : OutFrame) (fec : Float32) (a : Assembly) : Prop where
  frame_id : a.frame_id = f.frame_id
  shard_size : a.shard_size = (layoutOf trains f.data.length f.probe).2
  flags : a.flags = f.flags
  length : a.blocks.length = f.blocksOf trains
  block : ∀ b x, a.blocks.getD b none = some x → x.Gathers trains f fec b
  count : a.blocks_done = a.blocks.countP (·.any (·.done))
  left : a.blocks_done < a.blocks.length

/-- Data shard `i` of block `b` is in, or is not needed any more. -/
def Assembly.Has (a : Assembly) (b i : ℕ) : Prop :=
  ∃ x, a.blocks.getD b none = some x ∧ (x.done = true ∨ x.hasData i = true)

section

variable {trains : Bool} {f : OutFrame} {fec : Float32} {a : Assembly}

theorem OutFrame.dataOf_le (b : ℕ) : f.dataOf trains b ≤ 64 := blockData_le _ _

theorem OutFrame.dataOf_pos {b : ℕ} (hb : b < f.blocksOf trains) : 0 < f.dataOf trains b := by
  unfold blocksOf divCeil maxBlockData at hb
  unfold dataOf blockData maxBlockData
  omega

theorem OutFrame.blocksOf_pos (trains : Bool) (f : OutFrame) : 0 < f.blocksOf trains := by
  have hmax : 0 < maxShard := by decide
  have hlen : 0 < max f.data.length 1 := Nat.lt_of_lt_of_le Nat.one_pos (Nat.le_max_right _ 1)
  refine divCeil_pos ?_ (by decide)
  unfold layoutOf
  dsimp only
  split_ifs
  · exact divCeil_pos hlen hmax
  · exact divCeil_pos hlen (divCeil_pos hlen (Nat.lt_of_lt_of_le (divCeil_pos hlen hmax) (Nat.le_max_left _ _)))
  · exact divCeil_pos hlen (divCeil_pos hlen (Nat.lt_of_lt_of_le (divCeil_pos hlen hmax) (Nat.le_max_left _ _)))

theorem Assembly.Gathers.lacks (h : a.Gathers trains f fec) :
    ∃ b i, b < f.blocksOf trains ∧ i < f.dataOf trains b ∧ ¬ a.Has b i := by
  have hopen : ∃ o ∈ a.blocks, ¬ (o.any (·.done)) = true := by
    by_contra hall
    push Not at hall
    have hcount := List.countP_eq_length.mpr hall
    rw [← h.count] at hcount
    exact absurd h.left (Nat.not_lt.mpr (Nat.le_of_eq hcount.symm))
  obtain ⟨o, ho, hdone⟩ := hopen
  obtain ⟨b, hb, rfl⟩ := List.getElem_of_mem ho
  have hget : a.blocks.getD b none = a.blocks[b] := by
    rw [List.getD_eq_getElem?_getD, List.getElem?_eq_getElem hb]
    rfl
  rw [← hget] at hdone
  have hlt : b < f.blocksOf trains := h.length ▸ hb
  cases hx : a.blocks.getD b none with
  | none =>
    refine ⟨b, 0, hlt, OutFrame.dataOf_pos hlt, ?_⟩
    rintro ⟨x, hx', -⟩
    exact Option.some_ne_none x (hx'.symm.trans hx)
  | some x =>
    rw [hx] at hdone
    have hgathers := h.block b x hx
    obtain ⟨i, hi, hmissing⟩ := Block.missing_of_countOnes (hgathers.k ▸ OutFrame.dataOf_le b)
      (hgathers.few (Bool.eq_false_of_not_eq_true hdone))
    refine ⟨b, i, hlt, hgathers.k ▸ hi, ?_⟩
    rintro ⟨x', hx', hhas⟩
    obtain rfl := Option.some.inj (hx.symm.trans hx')
    rcases hhas with hhas | hhas
    · exact hdone hhas
    · rw [hmissing] at hhas
      cases hhas

end

/-! ## A shard in its block -/

structure Block.Takes (hd : ShardHeader) (x₀ x : Block) : Prop where
  k : x.k = x₀.k
  ones : countOnes x.data ≤ countOnes x₀.data + 1
  counted : x.have_shards = x₀.have_shards + 1
  bits : ∀ i < 64, x₀.hasData i = true → x.hasData i = true
  own : hd.shard.toNat < hd.k.toNat → x.hasData hd.shard.toNat = true
  rest : x.done = false → x.parity.length = x₀.parity.length ∧ countOnes x.data < x.k

def Assembly.Puts (a : Assembly) (b : ℕ) (x : Block) (a' : Assembly) : Prop :=
  ∃ data, a' = { a with
    data
    blocks := a.blocks.set b (some x)
    blocks_done := a.blocks_done + if x.done then 1 else 0 }

section

variable {cpu : Fec.Cpu} {a : Assembly} {hd : ShardHeader} {payload : List UInt8} {pool : List (List UInt8)}
  {x₀ : Block}

theorem Assembly.takeShard_spec (a : Assembly) (pool : List (List UInt8)) (payload : List UInt8) (x₀ : Block)
    (hk : hd.k.toNat ≤ 64) :
    ∃ data x p, a.takeShard false pool hd payload x₀ = ({ a with data }, x, p) ∧
      x = { x₀ with data := x.data, parity := x.parity } ∧ x.parity.length = x₀.parity.length ∧
      countOnes x.data ≤ countOnes x₀.data + 1 ∧ (∀ i < 64, x₀.hasData i = true → x.hasData i = true) ∧
      (hd.shard.toNat < hd.k.toNat → x.hasData hd.shard.toNat = true) := by
  unfold Assembly.takeShard
  dsimp only
  by_cases hi : hd.shard.toNat < hd.k.toNat
  · have hi64 : hd.shard.toNat < 64 := Nat.lt_of_lt_of_le hi hk
    rw [if_pos hi, if_neg Bool.false_ne_true]
    refine ⟨_, _, _, rfl, rfl, rfl, countOnes_or_le _ hi64, fun i hi' hset => ?_, fun _ => ?_⟩
    · rw [Block.hasData_or x₀ hi64 hi', hset, Bool.true_or]
    · rw [Block.hasData_or x₀ hi64 hi64, decide_eq_true rfl, Bool.or_true]
  · rw [if_neg hi]
    exact ⟨a.data, _, _, rfl, rfl, List.length_set, Nat.le_succ _, fun _ _ hset => hset, fun hlt => absurd hlt hi⟩

theorem length_rebuildData (a : Assembly) (b : ℕ) (x : Block) (pool : List (List UInt8)) :
    (rebuildData a b x false pool).2.length = x.k := by
  unfold rebuildData
  refine foldl_range_rule (fun j (s : List (List UInt8) × List (Option (List UInt8))) => s.2.length = j) rfl ?_
  intro j s _ hs
  dsimp only
  split_ifs <;> simp [hs]

theorem reconstruct_failed (cpu : Fec.Cpu) (shards : List (Option (List UInt8))) (k : ℕ)
    (h : (Fec.reconstruct cpu shards k).1 = false) : (Fec.reconstruct cpu shards k).2 = shards := by
  unfold Fec.reconstruct at h ⊢
  dsimp only at h ⊢
  split_ifs at h ⊢
  · rfl
  · split at h
    · rfl
    · cases h

theorem Assembly.rebuild_cases (cpu : Fec.Cpu) (a : Assembly) (b : ℕ) (x : Block) (pool : List (List UInt8)) :
    ∃ ok data x' p, (if 0 < x.k - countOnes x.data || false then rebuild cpu a b x false pool
        else (true, a, x, pool)) = (ok, { a with data }, x', p) ∧
      x' = { x with staged := x'.staged, parity := x'.parity } ∧
      (ok = false → x'.parity.length = x.parity.length ∧ countOnes x.data < x.k) := by
  by_cases hmissing : 0 < x.k - countOnes x.data
  · rw [if_pos (by simpa using hmissing)]
    rcases hR : Fec.reconstruct cpu ((rebuildData a b x false pool).2 ++ x.parity) x.k with ⟨ok, shards⟩
    cases ok with
    | false =>
      have hshards : shards = (rebuildData a b x false pool).2 ++ x.parity := by
        have hkept := reconstruct_failed cpu ((rebuildData a b x false pool).2 ++ x.parity) x.k (by rw [hR])
        rw [hR] at hkept
        exact hkept
      obtain ⟨p, hp⟩ := rebuild_of_failed cpu a b x false pool hR
      refine ⟨_, a.data, _, _, hp, rfl, fun _ => ⟨?_, by omega⟩⟩
      dsimp only
      rw [hshards, List.drop_left' (length_rebuildData a b x pool)]
    | true =>
      obtain ⟨p, hp⟩ := rebuild_of_ok cpu a b x false pool hR
      obtain ⟨data, hdata⟩ : ∃ data, (List.range x.k).foldl (fun a' i => if false || !x.hasData i then
          a'.place b i ((shards.getD i none).getD []) else a') a = { a with data } := by
        refine foldl_range_rule (fun _ (a' : Assembly) => ∃ data, a' = { a with data }) ⟨a.data, rfl⟩ ?_
        rintro i a' _ ⟨data, rfl⟩
        split_ifs
        · exact ⟨_, rfl⟩
        · exact ⟨data, rfl⟩
      rw [hdata] at hp
      exact ⟨_, data, _, _, hp, rfl, fun h => absurd h.symm Bool.false_ne_true⟩
  · rw [if_neg (by simpa using hmissing)]
    exact ⟨_, a.data, _, _, rfl, rfl, fun h => absurd h.symm Bool.false_ne_true⟩

theorem Assembly.push_spec (cpu : Fec.Cpu) (pool : List (List UInt8)) (payload : List UInt8)
    (hx : a.blockOf false hd = x₀) (hk : hd.k.toNat ≤ 64) (hcounted : countOnes x₀.data ≤ x₀.have_shards) :
    (x₀.refuses hd = true ∧ a.push cpu false pool hd payload = .ignored) ∨
      x₀.refuses hd = false ∧ ∃ x a', x₀.Takes hd x ∧ a.Puts hd.block.toNat x a' ∧
        ((∃ p n, a.push cpu false pool hd payload = .kept a' p n) ∧
            (x.done = true → a'.blocks_done < a'.blocks.length) ∨
          ∃ p n, a.push cpu false pool hd payload = .whole a' p n) := by
  cases hrefused : x₀.refuses hd with
  | true => exact .inl ⟨rfl, Assembly.push_of_refused hx hrefused⟩
  | false =>
    refine .inr ⟨rfl, ?_⟩
    obtain ⟨hdone, hk'⟩ : x₀.done = false ∧ x₀.k = hd.k.toNat := by
      unfold Block.refuses at hrefused
      rw [Bool.or_eq_false_iff, Bool.or_eq_false_iff, Bool.or_eq_false_iff, bne_eq_false_iff_eq] at hrefused
      exact ⟨hrefused.1.1.1, hrefused.1.1.2⟩
    obtain ⟨data, x, p, htaken, hx', hparity, hones, hbits, hown⟩ := a.takeShard_spec pool payload x₀ hk
    have hkx : x.k = x₀.k := by rw [hx']
    have hhave : x.have_shards = x₀.have_shards := by rw [hx']
    have hdonex : x.done = false := by rw [hx']; exact hdone
    by_cases hfew : x.have_shards + 1 < x.k
    · refine ⟨{ x with have_shards := x.have_shards + 1 }, _, ⟨hkx, hones, congrArg (· + 1) hhave, hbits, hown,
        fun _ => ⟨hparity, ?_⟩⟩, ⟨data, ?_⟩, .inl ⟨⟨p, 0, Assembly.push_of_few hx hrefused htaken hfew⟩, fun h => ?_⟩⟩
      · dsimp only
        omega
      · rw [if_neg (by rw [hdonex]; decide), Nat.add_zero]
        rfl
      · exact absurd (hdonex.symm.trans h) Bool.false_ne_true
    · obtain ⟨ok, data', x'', p', hfinish, hx'', hfailed⟩ :=
        Assembly.rebuild_cases cpu { a with data } hd.block.toNat { x with have_shards := x.have_shards + 1 } p
      have hpush := Assembly.push_of_enough hx hrefused htaken (Nat.not_lt.mp hfew) (hk'.symm.trans hkx.symm) hfinish
      have hkx'' : x''.k = x₀.k := by rw [hx'']; exact hkx
      have hones'' : countOnes x''.data ≤ countOnes x₀.data + 1 := by rw [hx'']; exact hones
      have hhave'' : x''.have_shards = x₀.have_shards + 1 := by rw [hx'']; exact congrArg (· + 1) hhave
      have hdata'' : ∀ i, x''.hasData i = x.hasData i := fun i => by rw [hx'']; rfl
      have hdone'' : x''.done = false := by rw [hx'']; exact hdonex
      cases ok with
      | false =>
        rw [if_pos rfl] at hpush
        refine ⟨x'', _, ⟨hkx'', hones'', hhave'', fun i hi hset => (hdata'' i).trans (hbits i hi hset),
          fun hi => (hdata'' _).trans (hown hi), fun _ => ?_⟩, ⟨data', ?_⟩, .inl ⟨⟨_, _, hpush⟩, fun h => ?_⟩⟩
        · obtain ⟨hlen, hfew⟩ := hfailed rfl
          rw [hlen, hx'']
          exact ⟨hparity, hfew⟩
        · rw [if_neg (by rw [hdone'']; decide), Nat.add_zero]
        · exact absurd (hdone''.symm.trans h) Bool.false_ne_true
      | true =>
        rw [if_neg Bool.false_ne_true.symm] at hpush
        refine ⟨{ x'' with done := true, parity := [] }, _, ⟨hkx'', hones'', hhave'',
          fun i hi hset => (hdata'' i).trans (hbits i hi hset), fun hi => (hdata'' _).trans (hown hi),
          fun h => absurd h.symm Bool.false_ne_true⟩, ⟨data', rfl⟩, ?_⟩
        by_cases hmore : a.blocks_done + 1 < a.blocks.length
        · rw [if_pos hmore] at hpush
          refine .inl ⟨⟨_, _, hpush⟩, fun _ => ?_⟩
          dsimp only
          rw [List.length_set]
          exact hmore
        · rw [if_neg hmore] at hpush
          exact .inr ⟨_, _, hpush⟩

end

/-! ## A packet of the frame -/

section

variable {trains : Bool} {f : OutFrame} {fec : Float32} {cpu : Fec.Cpu} {a a' : Assembly} {hd : ShardHeader}
  {payload : List UInt8} {x₀ x : Block}

theorem Assembly.Gathers.blockOf (h : a.Gathers trains f fec) (hsends : f.Sends trains fec hd payload)
    (hb : hd.block.toNat < f.blocksOf trains) : (a.blockOf false hd).Gathers trains f fec hd.block.toNat := by
  unfold Assembly.blockOf
  cases hx : a.blocks.getD hd.block.toNat none with
  | none =>
    have hones : countOnes (Block.fresh false hd.k.toNat hd.m.toNat).data = 0 := show countOnes 0 = 0 by decide
    refine ⟨hsends.k, fun _ => ?_, ?_, fun _ => ?_⟩
    · exact List.length_replicate.trans hsends.m
    · exact Nat.le_of_eq hones
    · rw [Option.getD_none, hones]
      exact hsends.k ▸ OutFrame.dataOf_pos hb
  | some x => exact h.block _ x hx

theorem Block.Gathers.takes {b : ℕ} (h : x₀.Gathers trains f fec b) (htakes : x₀.Takes hd x)
    (hdone : x₀.done = false) : x.Gathers trains f fec b where
  k := htakes.k.trans h.k
  parity hx := (htakes.rest hx).1.trans (h.parity hdone)
  counted := by
    rw [htakes.counted]
    exact Nat.le_trans htakes.ones (Nat.succ_le_succ h.counted)
  few hx := (htakes.rest hx).2

theorem getD_set {l : List (Option Block)} {b : ℕ} (hb : b < l.length) (o : Option Block) (b' : ℕ) :
    (l.set b o).getD b' none = if b = b' then o else l.getD b' none := by
  rw [List.getD_eq_getElem?_getD, List.getD_eq_getElem?_getD, List.getElem?_set]
  split_ifs
  · rfl
  · rfl

theorem Assembly.Has.puts {b b' i : ℕ} (h : a.Has b' i) (hb : b < a.blocks.length)
    (hputs : a.Puts b x a')
    (hmore : ∀ x₀, a.blocks.getD b none = some x₀ → x₀.done = false ∧ (x₀.hasData i = true → x.hasData i = true)) :
    a'.Has b' i := by
  obtain ⟨data, rfl⟩ := hputs
  obtain ⟨x', hx', hin⟩ := h
  by_cases hbb : b = b'
  · subst hbb
    refine ⟨x, (getD_set hb _ _).trans (if_pos rfl), ?_⟩
    obtain ⟨hopen, hbits⟩ := hmore x' hx'
    rcases hin with hdone | hset
    · rw [hopen] at hdone
      cases hdone
    · exact .inr (hbits hset)
  · exact ⟨x', ((getD_set hb _ _).trans (if_neg hbb)).trans hx', hin⟩

theorem Assembly.Gathers.puts {b : ℕ} (h : a.Gathers trains f fec) (hb : b < f.blocksOf trains)
    (hx : x.Gathers trains f fec b) (hopen : ((a.blocks.getD b none).any (·.done)) = false) (hputs : a.Puts b x a')
    (hleft : x.done = true → a'.blocks_done < a'.blocks.length) : a'.Gathers trains f fec := by
  obtain ⟨data, rfl⟩ := hputs
  have hb' : b < a.blocks.length := h.length.symm ▸ hb
  have hget : a.blocks.getD b none = a.blocks[b] := by
    rw [List.getD_eq_getElem?_getD, List.getElem?_eq_getElem hb']
    rfl
  refine ⟨h.frame_id, h.shard_size, h.flags, List.length_set.trans h.length, fun b' x' hx' => ?_, ?_, ?_⟩
  · have hx' := (getD_set hb' _ _).symm.trans hx'
    split_ifs at hx' with hbb
    · rw [← hbb, ← Option.some.inj hx']
      exact hx
    · exact h.block b' x' hx'
  · dsimp only
    rw [List.countP_set hb', ← hget, hopen, h.count, if_neg Bool.false_ne_true, Nat.sub_zero]
    rfl
  · by_cases hdone : x.done = true
    · exact hleft hdone
    · dsimp only
      rw [if_neg hdone, Nat.add_zero, List.length_set]
      exact h.left

theorem Assembly.Gathers.push (h : a.Gathers trains f fec) (hsends : f.Sends trains fec hd payload)
    (hb : hd.block.toNat < f.blocksOf trains) (cpu : Fec.Cpu) (pool : List (List UInt8)) :
    (a.push cpu false pool hd payload = .ignored ∧
        (hd.shard.toNat < hd.k.toNat → a.Has hd.block.toNat hd.shard.toNat)) ∨
      (∃ a' p n, a.push cpu false pool hd payload = .kept a' p n ∧ a'.Gathers trains f fec ∧
        (hd.shard.toNat < hd.k.toNat → a'.Has hd.block.toNat hd.shard.toNat) ∧ ∀ b i, i < 64 → a.Has b i → a'.Has b i) ∨
      ∃ a' p n, a.push cpu false pool hd payload = .whole a' p n ∧ a'.frame_id = f.frame_id ∧ a'.flags = f.flags := by
  have hk : hd.k.toNat ≤ 64 := hsends.k ▸ blockData_le _ _
  have hb' : hd.block.toNat < a.blocks.length := h.length.symm ▸ hb
  have hgathers := h.blockOf hsends hb
  obtain ⟨hrefused, hpush⟩ | ⟨htakes, x, a', hx, hputs, hpush⟩ :=
    Assembly.push_spec cpu pool payload rfl hk hgathers.counted
  · refine .inl ⟨hpush, fun hi => ?_⟩
    -- the block is done, or has the shard: its counts are those that the header has
    unfold Block.refuses at hrefused
    cases hdone : (a.blockOf false hd).done with
    | true =>
      unfold Assembly.blockOf at hdone
      cases hx : a.blocks.getD hd.block.toNat none with
      | none =>
        rw [hx] at hdone
        cases hdone
      | some x =>
        rw [hx] at hdone
        exact ⟨x, hx, .inl hdone⟩
    | false =>
      have hsame : ((a.blockOf false hd).k != hd.k.toNat) = false :=
        bne_eq_false_iff_eq.mpr (hgathers.k.trans hsends.k.symm)
      have hparity : ((a.blockOf false hd).parity.length != hd.m.toNat) = false :=
        bne_eq_false_iff_eq.mpr ((hgathers.parity hdone).trans hsends.m.symm)
      rw [hdone, hsame, hparity, if_pos hi, Bool.or_false, Bool.or_false, Bool.false_or] at hrefused
      unfold Assembly.blockOf at hrefused
      cases hx : a.blocks.getD hd.block.toNat none with
      | none =>
        rw [hx] at hrefused
        simp [Block.fresh, Block.hasData] at hrefused
      | some x =>
        rw [hx] at hrefused
        exact ⟨x, hx, .inr hrefused⟩
  · have hdone : (a.blockOf false hd).done = false := by
      unfold Block.refuses at htakes
      rw [Bool.or_eq_false_iff, Bool.or_eq_false_iff, Bool.or_eq_false_iff] at htakes
      exact htakes.1.1.1
    rcases hpush with ⟨⟨p, n, hpush⟩, hleft⟩ | ⟨p, n, hpush⟩
    · refine .inr (.inl ⟨a', p, n, hpush, ?_, fun hi => ?_, fun b i hi hin => ?_⟩)
      · refine h.puts hb (hgathers.takes hx hdone) ?_ hputs hleft
        unfold Assembly.blockOf at hdone
        cases hold : a.blocks.getD hd.block.toNat none with
        | none => rfl
        | some x₀ =>
          rw [hold] at hdone
          exact hdone
      · obtain ⟨data, rfl⟩ := hputs
        exact ⟨x, (getD_set hb' _ _).trans (if_pos rfl), .inr (hx.own hi)⟩
      · refine hin.puts hb' hputs fun x₀ hx₀ => ?_
        unfold Assembly.blockOf at hdone hx
        rw [hx₀] at hdone hx
        exact ⟨hdone, hx.bits i hi⟩
    · obtain ⟨data, rfl⟩ := hputs
      exact .inr (.inr ⟨_, p, n, hpush, h.frame_id, h.flags⟩)

end

theorem older_ofNat {i b : ℕ} (hahead : i < b + 2^31) (hbehind : b ≤ i + 2^31) :
    Reassembler.older (.ofNat i) (.ofNat b) = true ↔ i < b := by
  rw [Reassembler.older, decide_eq_true_iff, UInt32.lt_iff_toNat_lt, UInt32.toNat_sub, UInt32.toNat_ofNat',
    UInt32.toNat_ofNat']
  change 0x7FFFFFFF < _ ↔ _
  omega

theorem ofNat_inj {i j b : ℕ} (hi : b ≤ i ∧ i < b + 2^31) (hj : b ≤ j ∧ j < b + 2^31)
    (h : UInt32.ofNat i = UInt32.ofNat j) : i = j := by
  have hmod := congrArg UInt32.toNat h
  rw [UInt32.toNat_ofNat', UInt32.toNat_ofNat'] at hmod
  omega

theorem ofNat_sub_31 {i : ℕ} (hi : 31 ≤ i) : UInt32.ofNat i - 31 = UInt32.ofNat (i - 31) := by
  apply UInt32.toNat_inj.mp
  rw [UInt32.toNat_sub, UInt32.toNat_ofNat', UInt32.toNat_ofNat']
  have hnum : (31 : UInt32).toNat = 31 := rfl
  omega

theorem ofNat_add_one (i : ℕ) : UInt32.ofNat i + 1 = UInt32.ofNat (i + 1) := by
  rw [UInt32.ofNat_add]
  rfl

namespace Reassembler

variable {r : Reassembler} {z : UInt32} {a : Assembly}

theorem slot_of_dropSlot {i : ℕ} (hi : i < 32) (h : (r.dropSlot i).slot z = some a) : r.slot z = some a := by
  rw [slot, read_dropSlot hi] at h
  split_ifs at h
  exact h

theorem slot_of_dropOlders (base : UInt32) (n : ℕ) (hn : n ≤ 32)
    (h : ((List.range n).foldl (dropOlder base) r).slot z = some a) : r.slot z = some a := by
  revert h
  refine foldl_range_rule (fun _ (s : Reassembler) => s.slot z = some a → r.slot z = some a) id ?_
  intro i s hi ih h
  refine ih ?_
  unfold dropOlder at h
  split at h
  · split_ifs at h
    · exact slot_of_dropSlot (Nat.lt_of_lt_of_le hi hn) h
    · exact h
  · exact h

theorem slot_of_dropIds (base : UInt32) (n : ℕ)
    (h : ((List.range n).foldl (fun s i => s.dropId (base + UInt32.ofNat i)) r).slot z = some a) :
    r.slot z = some a := by
  revert h
  refine foldl_range_rule (fun _ (s : Reassembler) => s.slot z = some a → r.slot z = some a) id ?_
  intro i s _ ih h
  refine ih ?_
  unfold dropId at h
  split at h
  · split_ifs at h
    · exact slot_of_dropSlot (slotOf_lt _) h
    · exact h
  · exact h

theorem stage_dropSlot (r : Reassembler) (i : ℕ) : (r.dropSlot i).stage = r.stage := by
  unfold dropSlot
  split <;> rfl

theorem stage_dropOlder (base : UInt32) (r : Reassembler) (i : ℕ) : (dropOlder base r i).stage = r.stage := by
  unfold dropOlder
  split
  · split_ifs
    · exact r.stage_dropSlot i
    · rfl
  · rfl

theorem stage_advance (r : Reassembler) (id b : UInt32) : (r.advance id b).1.stage = r.stage := by
  rw [advance_congr stage (fun _ _ _ _ => rfl)]
  exact foldl_range_rule (fun _ (s : Reassembler) => s.stage = r.stage) rfl
    fun i s _ hs => (stage_dropOlder _ s i).trans hs

theorem stage_dropId (r : Reassembler) (id : UInt32) : (r.dropId id).stage = r.stage := by
  unfold dropId
  split
  · split_ifs
    · exact r.stage_dropSlot _
    · rfl
  · rfl

theorem stage_complete (r : Reassembler) (a : Assembly) : (r.complete a).1.stage = r.stage := by
  obtain ⟨stats, hstage⟩ : ∃ stats, (r.complete a).1.stage =
      ((List.range (min (a.frame_id - r.base.getD a.frame_id).toNat maxInFlight)).foldl
        (fun s i => s.dropId (r.base.getD a.frame_id + UInt32.ofNat i))
        (({ r with stats } : Reassembler).setSlot a.frame_id none)).stage := ⟨_, rfl⟩
  rw [hstage]
  exact foldl_range_rule (fun _ (s : Reassembler) => s.stage = r.stage) rfl fun _ s _ hs => (s.stage_dropId _).trans hs

/-- Frame `j` is in flight, so far assembled to `a`. -/
def At (r : Reassembler) (j : ℕ) (a : Assembly) : Prop := r.slot (.ofNat j) = some a ∧ a.frame_id = .ofNat j

end Reassembler

/-! ## The packets of one sender -/

section

variable {trains : Bool} {frames : ℕ → OutFrame} {fec : Float32} {cpu : Fec.Cpu} {r r' : Reassembler} {a : Assembly}
  {b i j : ℕ} {hd : ShardHeader} {payload : List UInt8} {events : List Event}

structure Reassembler.Tracks (trains : Bool) (frames : ℕ → OutFrame) (fec : Float32) (r : Reassembler) (b : ℕ) :
    Prop where
  stage : r.stage = false
  slots : ∀ z a, r.slot z = some a → a.frame_id = z →
    ∃ j, z = .ofNat j ∧ b ≤ j ∧ j < b + 32 ∧ a.Gathers trains (frames j) fec

theorem Reassembler.Tracks.gathers (h : r.Tracks trains frames fec b) (ha : r.At j a) (hj : b ≤ j ∧ j < b + 32) :
    a.Gathers trains (frames j) fec := by
  obtain ⟨j', hjj, hge, hlt, hgathers⟩ := h.slots _ a ha.1 ha.2
  rw [ofNat_inj (b := b) (by omega) (by omega) hjj]
  exact hgathers

theorem Reassembler.Tracks.congr (h : r.Tracks trains frames fec b) (hslots : r'.slots = r.slots)
    (hstage : r'.stage = r.stage) : r'.Tracks trains frames fec b := by
  refine ⟨hstage.trans h.stage, fun z a hz ha => h.slots z a ?_ ha⟩
  rw [Reassembler.slot, ← hslots]
  exact hz

theorem Reassembler.At.congr (h : r.At j a) (hslots : r'.slots = r.slots) : r'.At j a := by
  refine ⟨?_, h.2⟩
  rw [Reassembler.slot, hslots]
  exact h.1

theorem Reassembler.Tracks.advance (h : r.Tracks trains frames fec b) (hfar : b + 32 ≤ i) (hnear : i < b + 2^31) :
    (r.advance (.ofNat i) (.ofNat b)).1.Tracks trains frames fec (i - 31) ∧
      ∀ j a, r.At j a → i - 31 ≤ j → j < b + 32 → (r.advance (.ofNat i) (.ofNat b)).1.At j a := by
  have hnew : UInt32.ofNat i - 31 = UInt32.ofNat (i - 31) := ofNat_sub_31 (by omega)
  have hslots := Reassembler.advance_congr Reassembler.slots (fun _ _ _ _ => rfl) r (.ofNat i) (.ofNat b)
  have hthins : ∀ z a, (r.advance (.ofNat i) (.ofNat b)).1.slot z = some a → r.slot z = some a := by
    intro z a hz
    refine Reassembler.slot_of_dropOlders (.ofNat i - 31) maxInFlight (Nat.le_refl _) ?_
    rw [Reassembler.slot, ← hslots]
    exact hz
  refine ⟨⟨?_, fun z a hz ha => ?_⟩, fun j a ha hge hlt => ?_⟩
  · exact (r.stage_advance _ _).trans h.stage
  · obtain ⟨j, rfl, hge, hlt, hgathers⟩ := h.slots z a (hthins z a hz) ha
    refine ⟨j, rfl, ?_, by omega, hgathers⟩
    have hyoung := ((r.inFlight_advance (.ofNat i) (.ofNat b)).mp ⟨a, hz, ha⟩).2
    have hiff := @older_ofNat j (i - 31) (by omega) (by omega)
    rw [hnew] at hyoung
    exact Nat.le_of_not_lt fun hbelow => Bool.false_ne_true (hyoung.symm.trans (hiff.mpr hbelow))
  · have hyoung : Reassembler.older (.ofNat j) (.ofNat i - 31) = false := by
      have hiff := @older_ofNat j (i - 31) (by omega) (by omega)
      rw [hnew]
      exact Bool.eq_false_of_not_eq_true fun hold => Nat.not_lt.mpr hge (hiff.mp hold)
    obtain ⟨a', ha', hid⟩ := (r.inFlight_advance (.ofNat i) (.ofNat b)).mpr ⟨⟨a, ha⟩, hyoung⟩
    obtain rfl := Option.some.inj (ha.1.symm.trans (hthins _ _ ha'))
    exact ⟨ha', hid⟩

theorem slotOf_ne (hi : b ≤ i ∧ i < b + 32) (hj : b ≤ j ∧ j < b + 32) (hne : j ≠ i) :
    slotOf (.ofNat i) ≠ slotOf (.ofNat j) := by
  unfold slotOf maxInFlight
  rw [UInt32.toNat_ofNat', UInt32.toNat_ofNat']
  omega

theorem Reassembler.At.setSlot (ha : r.At j a) (hi : b ≤ i ∧ i < b + 32) (hj : b ≤ j ∧ j < b + 32) (hne : j ≠ i)
    (o : Option Assembly) : (r.setSlot (.ofNat i) o).At j a :=
  ⟨(Reassembler.slot_setSlot_of_ne r o (slotOf_ne hi hj hne)).trans ha.1, ha.2⟩

theorem Reassembler.Tracks.complete (h : r.Tracks trains frames fec b) (hbase : r.base = some (.ofNat b))
    (ha : a.frame_id = .ofNat i) (hi : b ≤ i ∧ i < b + 32) :
    ((r.setSlot (.ofNat i) (some a)).complete a).1.Tracks trains frames fec (i + 1) ∧
      ∀ j a', r.At j a' → i < j → j < b + 32 → ((r.setSlot (.ofNat i) (some a)).complete a).1.At j a' := by
  generalize hr' : r.setSlot (.ofNat i) (some a) = r'
  have hbase' : r'.base = some (.ofNat b) := by rw [← hr']; exact hbase
  have hin : r'.InFlight a.frame_id := by
    rw [← hr', ha]
    exact Reassembler.inFlight_setSlot_self ha
  have hcount : (a.frame_id - UInt32.ofNat b).toNat = i - b := by
    rw [ha, UInt32.toNat_sub, UInt32.toNat_ofNat', UInt32.toNat_ofNat']
    omega
  have hadd : ∀ n, UInt32.ofNat b + UInt32.ofNat n = UInt32.ofNat (b + n) := fun n => (UInt32.ofNat_add b n).symm
  have hthins : ∀ z a', (r'.complete a).1.slot z = some a' → r.slot z = some a' := by
    intro z a' hz
    obtain ⟨stats, hslots⟩ := r'.slots_complete a
    rw [Reassembler.slot, hslots] at hz
    have hz := Reassembler.slot_of_dropIds _ _ hz
    by_cases hsame : slotOf (.ofNat i) = slotOf z
    · rw [ha, Reassembler.slot_setSlot_self _ _ hsame] at hz
      cases hz
    · rw [ha, Reassembler.slot_setSlot_of_ne _ _ hsame] at hz
      rw [← Reassembler.slot_setSlot_of_ne r (some a) hsame, hr']
      exact hz
  refine ⟨⟨?_, fun z a' hz ha' => ?_⟩, fun j a' ha' hge hlt => ?_⟩
  · rw [r'.stage_complete, ← hr']
    exact h.stage
  · obtain ⟨j, rfl, hge, hlt, hgathers⟩ := h.slots z a' (hthins z a' hz) ha'
    refine ⟨j, rfl, ?_, by omega, hgathers⟩
    obtain ⟨⟨-, hne⟩, hbelow⟩ := (Reassembler.inFlight_complete hbase' hin).mp ⟨a', hz, ha'⟩
    -- a frame below would have been given up on
    by_contra hle
    have hne' : j ≠ i := by
      rintro rfl
      exact hne ha.symm
    refine hbelow (j - b) ?_ ?_
    · rw [hcount, maxInFlight]
      omega
    · exact (congrArg UInt32.ofNat (Nat.add_sub_cancel' hge)).symm.trans (hadd (j - b)).symm
  · have hne : UInt32.ofNat j ≠ a.frame_id := by
      intro heq
      rw [ha] at heq
      exact absurd (ofNat_inj (b := b) (by omega) (by omega) heq) (by omega)
    have habove : ∀ n < min (a.frame_id - UInt32.ofNat b).toNat maxInFlight,
        UInt32.ofNat j ≠ UInt32.ofNat b + UInt32.ofNat n := by
      intro n hn heq
      rw [hcount, maxInFlight] at hn
      rw [hadd] at heq
      exact absurd (ofNat_inj (b := b) (by omega) (by omega) heq) (by omega)
    have hin' : r'.At j a' := by
      rw [← hr']
      exact ha'.setSlot hi (by omega) (by omega) _
    obtain ⟨a'', ha'', hid⟩ := (Reassembler.inFlight_complete hbase' hin).mpr ⟨⟨⟨a', hin'⟩, hne⟩, habove⟩
    obtain rfl := Option.some.inj (ha'.1.symm.trans (hthins _ _ ha''))
    exact ⟨ha'', hid⟩

/-- Data shard `s` of block `bl` of frame `j`, which is in flight, is in, or is not needed any more. -/
def Reassembler.Has (r : Reassembler) (j bl s : ℕ) : Prop := ∃ a, r.At j a ∧ a.Has bl s

/-- A shard of frame `i` is kept: the window is now at `b'`, moved up to the frame if need be. -/
structure Reassembler.Keeps (trains : Bool) (frames : ℕ → OutFrame) (fec : Float32) (hd : ShardHeader)
    (r : Reassembler) (p : Reassembler × List Event) (b b' i : ℕ) : Prop where
  tracks : p.1.Tracks trains frames fec b'
  base : p.1.base = some (.ofNat b')
  le : b ≤ b' ∧ b' ≤ i ∧ i < b' + 32
  own : hd.shard.toNat < hd.k.toNat → p.1.Has i hd.block.toNat hd.shard.toNat
  keeps : ∀ j bl s, s < 64 → r.Has j bl s → b' ≤ j → j < b + 32 → p.1.Has j bl s
  events : ∀ e ∈ p.2, ∀ f, e ≠ .frame f
  still : b' = b → p.2 = [] ∧ p.1.next = r.next

/-- Frame `i` is delivered. -/
structure Reassembler.Delivers (trains : Bool) (frames : ℕ → OutFrame) (fec : Float32) (r : Reassembler)
    (p : Reassembler × List Event) (b i : ℕ) : Prop where
  tracks : p.1.Tracks trains frames fec (i + 1)
  base : p.1.base = some (.ofNat (i + 1))
  next : p.1.next = some (.ofNat (i + 1))
  keeps : ∀ j bl s, r.Has j bl s → i < j → j < b + 32 → p.1.Has j bl s
  events : ∃ lost f, p.2 = lost ++ [.frame f] ∧ (∀ e ∈ lost, ∀ f, e ≠ .frame f) ∧
    (b = i → r.next = some (.ofNat i) → lost = []) ∧ f.frame_id = .ofNat i ∧ f.keyframe = (frames i).keyframe

theorem keyframe_flags (f : OutFrame) : (f.flags &&& flagKeyframe != 0) = f.keyframe := by
  unfold OutFrame.flags
  cases f.keyframe <;> cases f.ltr <;> cases f.recovery <;> cases f.probe <;> rfl

theorem Reassembler.Tracks.setSlot (h : r.Tracks trains frames fec b) (hi : b ≤ i ∧ i < b + 32)
    (ha : a.frame_id = .ofNat i) (hgathers : a.Gathers trains (frames i) fec) :
    (r.setSlot (.ofNat i) (some a)).Tracks trains frames fec b := by
  refine ⟨h.stage, fun z a' hz ha' => ?_⟩
  by_cases hsame : slotOf (.ofNat i) = slotOf z
  · rw [Reassembler.slot_setSlot_self r _ hsame] at hz
    obtain rfl := Option.some.inj hz
    exact ⟨i, ha'.symm.trans ha, hi.1, hi.2, hgathers⟩
  · rw [Reassembler.slot_setSlot_of_ne r _ hsame] at hz
    exact h.slots z a' hz ha'

theorem complete_events (ha : a.frame_id = .ofNat i) (hflags : a.flags = (frames i).flags) :
    ∃ lost f, (r.complete a).2 = lost ++ [.frame f] ∧ (∀ e ∈ lost, ∀ f, e ≠ .frame f) ∧
      (r.next = some (.ofNat i) → lost = []) ∧ f.frame_id = .ofNat i ∧ f.keyframe = (frames i).keyframe := by
  refine ⟨if a.frame_id ≠ r.next.getD a.frame_id then [.lost (r.next.getD a.frame_id) (a.frame_id - 1)] else [],
    a.inFrame, rfl, ?_, ?_, ha, ?_⟩
  · intro e he f hf
    split_ifs at he
    · rw [List.mem_singleton.mp he] at hf
      cases hf
    · exact List.not_mem_nil he
  · intro hnext
    rw [hnext, Option.getD_some, ha, if_neg (not_not.mpr rfl)]
  · unfold Assembly.inFrame
    dsimp only
    rw [hflags]
    exact keyframe_flags _

theorem Reassembler.Tracks.pushShard (h : r.Tracks trains frames fec b) (hbase : r.base = some (.ofNat b))
    (hi : b ≤ i ∧ i < b + 32) (ha : r.At i a) (hid : (frames i).frame_id = .ofNat i)
    (hsends : (frames i).Sends trains fec hd payload) (hblock : hd.block.toNat < (frames i).blocksOf trains) :
    r.Keeps trains frames fec hd (r.pushShard cpu hd payload) b b i ∨
      r.Delivers trains frames fec (r.pushShard cpu hd payload) b i := by
  have hgathers := h.gathers ha hi
  have hframe : hd.frame_id = .ofNat i := hsends.frame_id.trans hid
  have hfits : ¬ (payload.length ≠ a.shard_size ∨ a.blocks.length ≠ hd.blocks.toNat) := by
    rintro (hne | hne)
    · exact hne (hsends.size.trans hgathers.shard_size.symm)
    · exact hne (hgathers.length.trans hsends.blocks.symm)
  have hpushed := hgathers.push hsends hblock cpu r.pool
  rw [← h.stage] at hpushed
  unfold Reassembler.pushShard
  rw [hframe, ha.1]
  dsimp only
  rw [if_neg hfits]
  obtain ⟨hpush, hown⟩ | ⟨a', p, n, hpush, hgathers', hown, hmore⟩ | ⟨a', p, n, hpush, hid', hflags⟩ := hpushed
  · rw [hpush]
    exact .inl ⟨h, hbase, ⟨Nat.le_refl _, hi.1, hi.2⟩, fun hdata => ⟨a, ha, hown hdata⟩,
      fun _ _ _ _ hhas _ _ => hhas, fun _ he => (List.not_mem_nil he).elim, fun _ => ⟨rfl, rfl⟩⟩
  · rw [hpush]
    dsimp only
    generalize hcounted : ({ r with
      pool := p, stats := { r.stats with recovered := r.stats.recovered + UInt32.ofNat n } } : Reassembler) = r₁
    have hslots : r₁.slots = r.slots := by rw [← hcounted]
    have h₁ : r₁.Tracks trains frames fec b := h.congr hslots (by rw [← hcounted])
    have ha' : a'.frame_id = .ofNat i := hgathers'.frame_id.trans hid
    have hat : (r₁.setSlot (.ofNat i) (some a')).At i a' := ⟨Reassembler.slot_setSlot_self r₁ _ rfl, ha'⟩
    refine .inl ⟨h₁.setSlot hi ha' hgathers', ?_, ⟨Nat.le_refl _, hi.1, hi.2⟩, fun hdata => ⟨a', hat, hown hdata⟩, ?_,
      fun _ he => (List.not_mem_nil he).elim, fun _ => ⟨rfl, ?_⟩⟩
    · rw [← hcounted]
      exact hbase
    · rintro j bl s hs ⟨a₀, ha₀, hhas⟩ hge hlt
      by_cases hji : j = i
      · subst hji
        obtain rfl := Option.some.inj (ha.1.symm.trans ha₀.1)
        exact ⟨a', hat, hmore bl s hs hhas⟩
      · exact ⟨a₀, (ha₀.congr hslots).setSlot hi ⟨hge, hlt⟩ hji _, hhas⟩
    · rw [← hcounted]
      rfl
  · rw [hpush]
    dsimp only
    generalize hcounted : ({ r with
      pool := p, stats := { r.stats with recovered := r.stats.recovered + UInt32.ofNat n } } : Reassembler) = r₁
    have hslots : r₁.slots = r.slots := by rw [← hcounted]
    have h₁ : r₁.Tracks trains frames fec b := h.congr hslots (by rw [← hcounted])
    have hbase₁ : r₁.base = some (.ofNat b) := by rw [← hcounted]; exact hbase
    have ha' : a'.frame_id = .ofNat i := hid'.trans hid
    obtain ⟨htracks, hothers⟩ := h₁.complete hbase₁ ha' hi
    have hnext : ((r₁.setSlot (.ofNat i) (some a')).complete a').1.next = some (.ofNat (i + 1)) := by
      rw [← ofNat_add_one, ← ha']
      rfl
    have hbase' : ((r₁.setSlot (.ofNat i) (some a')).complete a').1.base = some (.ofNat (i + 1)) := by
      rw [← ofNat_add_one, ← ha']
      rfl
    refine .inr ⟨htracks, hbase', hnext, ?_, ?_⟩
    · rintro j bl s ⟨a₀, ha₀, hhas⟩ hlt hwin
      exact ⟨a₀, hothers j a₀ (ha₀.congr hslots) hlt hwin, hhas⟩
    · obtain ⟨lost, f, hevents, hlost, hdirect, hf⟩ :=
        @complete_events frames (r₁.setSlot (.ofNat i) (some a')) a' i ha' hflags
      refine ⟨lost, f, hevents, hlost, fun _ hn => hdirect ?_, hf⟩
      rw [← hcounted]
      exact hn

theorem far_ofNat (hi : b ≤ i ∧ i < b + 2^31) : 32 ≤ UInt32.ofNat i - UInt32.ofNat b ↔ b + 32 ≤ i := by
  rw [UInt32.le_iff_toNat_le, UInt32.toNat_sub, UInt32.toNat_ofNat', UInt32.toNat_ofNat']
  change 32 ≤ _ ↔ _
  omega

theorem Reassembler.Tracks.makeRoom (h : r.Tracks trains frames fec b)
    (hbase : r.base.getD (.ofNat i) = .ofNat b) (hi : b ≤ i ∧ i < b + 2^31) :
    ∃ r₁ b₁ events, r.makeRoom (.ofNat i) = (r₁, events) ∧ r₁.Tracks trains frames fec b₁ ∧
      r₁.base = some (.ofNat b₁) ∧ (b ≤ b₁ ∧ b₁ ≤ i ∧ i < b₁ + 32) ∧
      (∀ j a, r.At j a → b₁ ≤ j → j < b + 32 → r₁.At j a) ∧ (∀ e ∈ events, ∀ f, e ≠ .frame f) ∧
      (b₁ = b → events = [] ∧ r₁.next = r.next) := by
  unfold Reassembler.makeRoom
  dsimp only
  rw [hbase]
  have h' : ({ r with base := some (.ofNat b) } : Reassembler).Tracks trains frames fec b := h.congr rfl rfl
  by_cases hfar : b + 32 ≤ i
  · obtain ⟨htracks, hothers⟩ := h'.advance hfar hi.2
    rw [if_pos ((far_ofNat hi).mpr hfar)]
    refine ⟨_, i - 31, _, rfl, htracks, congrArg some (ofNat_sub_31 (by omega)), by omega, hothers, ?_, fun heq => ?_⟩
    · intro e he f hf
      rw [List.mem_singleton.mp he] at hf
      cases hf
    · omega
  · rw [if_neg fun hle => hfar ((far_ofNat hi).mp hle)]
    exact ⟨_, b, [], rfl, h', rfl, by omega, fun _ _ ha _ _ => ha, fun _ he => (List.not_mem_nil he).elim,
      fun _ => ⟨rfl, rfl⟩⟩

theorem gathers_start {f : OutFrame} (hsends : f.Sends trains fec hd payload)
    (hblock : hd.block.toNat < f.blocksOf trains) (now_us : UInt64) (data : Buf) :
    (Assembly.start hd payload.length now_us data).Gathers trains f fec := by
  have hlength : (Assembly.start hd payload.length now_us data).blocks.length = f.blocksOf trains :=
    List.length_replicate.trans hsends.blocks
  refine ⟨hsends.frame_id, hsends.size, hsends.flags, hlength, fun b x hx => ?_, ?_, ?_⟩
  · unfold Assembly.start at hx
    rw [List.getD_eq_getElem?_getD, List.getElem?_replicate] at hx
    split_ifs at hx
    · exact (Option.some_ne_none x hx.symm).elim
    · exact (Option.some_ne_none x hx.symm).elim
  · unfold Assembly.start
    dsimp only
    rw [List.countP_replicate, if_neg (by decide)]
  · rw [hlength]
    exact Nat.lt_of_le_of_lt (Nat.zero_le _) hblock

theorem Reassembler.Tracks.pushFrame (h : r.Tracks trains frames fec b)
    (hbase : r.base = some (.ofNat b) ∨ r.base = none ∧ b = i ∧ ∀ z, r.slot z = none) (hi : b ≤ i ∧ i < b + 2^31)
    (hid : (frames i).frame_id = .ofNat i) (hsends : (frames i).Sends trains fec hd payload)
    (hblock : hd.block.toNat < (frames i).blocksOf trains) (now_us : UInt64) :
    (∃ b', r.Keeps trains frames fec hd (r.pushFrame cpu hd payload now_us) b b' i) ∨
      r.Delivers trains frames fec (r.pushFrame cpu hd payload now_us) b i := by
  have hframe : hd.frame_id = .ofNat i := hsends.frame_id.trans hid
  unfold Reassembler.pushFrame
  rw [hframe]
  by_cases hin : (r.slot (.ofNat i)).any (·.frame_id == .ofNat i) = true
  · obtain ⟨a, ha, hid'⟩ : ∃ a, r.slot (.ofNat i) = some a ∧ a.frame_id = .ofNat i := by
      cases hslot : r.slot (.ofNat i) with
      | none =>
        rw [hslot] at hin
        cases hin
      | some a =>
        rw [hslot] at hin
        exact ⟨a, rfl, beq_iff_eq.mp hin⟩
    obtain ⟨j, hij, hge, hlt, -⟩ := h.slots _ a ha hid'
    obtain rfl : i = j := ofNat_inj (b := b) hi (by omega) hij
    have hbase' : r.base = some (.ofNat b) := by
      rcases hbase with hbase | ⟨-, -, hnone⟩
      · exact hbase
      · exact (Option.some_ne_none a (ha.symm.trans (hnone _))).elim
    rw [if_pos hin]
    exact (h.pushShard hbase' ⟨hge, hlt⟩ ⟨ha, hid'⟩ hid hsends hblock).imp_left fun hkeeps => ⟨b, hkeeps⟩
  · have hnot : ∀ a, ¬ r.At i a := by
      rintro a ⟨ha, hid'⟩
      refine hin ?_
      rw [ha, Option.any_some, hid']
      exact beq_self_eq_true _
    have hgetD : r.base.getD (.ofNat i) = .ofNat b := by
      rcases hbase with hbase | ⟨hbase, hbi, -⟩
      · rw [hbase]
        rfl
      · rw [hbase, hbi]
        rfl
    obtain ⟨r₁, b₁, events, hroom, h₁, hbase₁, hb₁, hothers, hlost, hstill⟩ := h.makeRoom hgetD hi
    rw [if_neg hin, hroom]
    dsimp only
    obtain ⟨buffers, hstart⟩ : ∃ buffers, r₁.startFrame hd payload.length now_us =
        some (({ r₁ with buffers } : Reassembler).setSlot (.ofNat i)
          (some (Assembly.start hd payload.length now_us (takeBuf r₁.buffers hd.frame_len.toNat).2))) := by
      have hroom : ¬ hd.blocks.toNat * maxBlockData * payload.length < hd.frame_len.toNat := by
        rw [hsends.blocks, hsends.size, hsends.frame_len]
        obtain ⟨-, -, hcover⟩ := layoutOf_covers trains (frames i).data.length (frames i).probe
        exact Nat.not_lt.mpr (hcover.trans (Nat.mul_le_mul_right _ (le_divCeil_mul _ (by decide))))
      unfold Reassembler.startFrame
      dsimp only
      rw [if_neg hroom, hframe]
      exact ⟨_, rfl⟩
    rw [hstart]
    dsimp only
    have hfirst := gathers_start hsends hblock now_us (takeBuf r₁.buffers hd.frame_len.toNat).2
    generalize Assembly.start hd payload.length now_us (takeBuf r₁.buffers hd.frame_len.toNat).2 = a at hfirst
    have h₂ : ({ r₁ with buffers } : Reassembler).Tracks trains frames fec b₁ := h₁.congr rfl rfl
    have ha : a.frame_id = .ofNat i := hfirst.frame_id.trans hid
    have hin₁ : b₁ ≤ i ∧ i < b₁ + 32 := hb₁.2
    have h₃ := h₂.setSlot hin₁ ha hfirst
    have hothers' : ∀ j a', r.At j a' → b₁ ≤ j → j < b + 32 →
        (({ r₁ with buffers } : Reassembler).setSlot (.ofNat i) (some a)).At j a' := by
      intro j a' ha' hge hlt
      have hne : j ≠ i := by
        rintro rfl
        exact hnot a' ha'
      have hsame : ({ r₁ with buffers } : Reassembler).slots = r₁.slots := rfl
      exact ((hothers j a' ha' hge hlt).congr hsame).setSlot hin₁ (by omega) hne _
    generalize hr₃ : ({ r₁ with buffers } : Reassembler).setSlot (.ofNat i) (some a) = r₃ at h₃ hothers'
    have hbase₃ : r₃.base = some (.ofNat b₁) := by rw [← hr₃]; exact hbase₁
    have hnext₃ : r₃.next = r₁.next := by rw [← hr₃]; rfl
    have hat : r₃.At i a := by
      rw [← hr₃]
      exact ⟨Reassembler.slot_setSlot_self _ _ rfl, ha⟩
    obtain hkeeps | hdelivers := @Reassembler.Tracks.pushShard trains frames fec cpu r₃ a b₁ i hd payload h₃ hbase₃
      hin₁ hat hid hsends hblock
    · refine .inl ⟨b₁, hkeeps.tracks, hkeeps.base, hb₁, hkeeps.own, ?_, ?_, fun heq => ?_⟩
      · rintro j bl s hs ⟨a', ha', hhas⟩ hge hlt
        exact hkeeps.keeps j bl s hs ⟨a', hothers' j a' ha' hge hlt, hhas⟩ hge (by omega)
      · intro e he
        exact (List.mem_append.mp he).elim (hlost e) (hkeeps.events e)
      · obtain ⟨hnil, hnext⟩ := hstill heq
        obtain ⟨hnil', hnext'⟩ := hkeeps.still rfl
        dsimp only
        rw [hnil, hnil']
        exact ⟨rfl, hnext'.trans (hnext₃.trans hnext)⟩
    · refine .inr ⟨hdelivers.tracks, hdelivers.base, hdelivers.next, ?_, ?_⟩
      · rintro j bl s ⟨a', ha', hhas⟩ hlt hwin
        exact hdelivers.keeps j bl s ⟨a', hothers' j a' ha' (by omega) hwin, hhas⟩ hlt (by omega)
      · obtain ⟨lost, f, hevents, hlost', hdirect, hf⟩ := hdelivers.events
        refine ⟨events ++ lost, f, ?_, fun e he => (List.mem_append.mp he).elim (hlost e) (hlost' e),
          fun hbi hnext => ?_, hf⟩
        · dsimp only
          rw [hevents, List.append_assoc]
        · obtain ⟨hnil, hnext'⟩ := hstill (by omega)
          rw [hnil, hdirect (by omega) (hnext₃.trans (hnext'.trans hnext))]
          rfl

theorem Reassembler.Tracks.push (h : r.Tracks trains frames fec b)
    (hbase : r.base = some (.ofNat b) ∨ r.base = none ∧ b = i ∧ ∀ z, r.slot z = none)
    (hnear : i < b + 2^31 ∧ b ≤ i + 2^31) (hid : (frames i).frame_id = .ofNat i) {body : List UInt8}
    (hadmitted : Reassembler.admitted body = some (hd, payload)) (hsends : (frames i).Sends trains fec hd payload)
    (hblock : hd.block.toNat < (frames i).blocksOf trains) (now_us : UInt64) :
    (i < b ∧ (r.push cpu body now_us).2 = [] ∧ (r.push cpu body now_us).1.Tracks trains frames fec b ∧
        (r.push cpu body now_us).1.base = some (.ofNat b) ∧ (r.push cpu body now_us).1.next = r.next ∧
        ∀ j bl s, r.Has j bl s → (r.push cpu body now_us).1.Has j bl s) ∨
      b ≤ i ∧ ((∃ b', r.Keeps trains frames fec hd (r.push cpu body now_us) b b' i) ∨
        r.Delivers trains frames fec (r.push cpu body now_us) b i) := by
  obtain ⟨stats, floor, train, hpush⟩ := Reassembler.push_of_admitted cpu r hadmitted now_us
  have hframe : hd.frame_id = .ofNat i := hsends.frame_id.trans hid
  have hany : r.base.any (Reassembler.older hd.frame_id) = true ↔ i < b := by
    rw [hframe]
    rcases hbase with hbase | ⟨hbase, hbi, -⟩
    · rw [hbase]
      exact older_ofNat hnear.1 hnear.2
    · rw [hbase, hbi]
      exact iff_of_false Bool.false_ne_true (Nat.lt_irrefl i)
  rw [hpush]
  by_cases hold : i < b
  · have hbase' : r.base = some (.ofNat b) := by
      rcases hbase with hbase | ⟨-, hbi, -⟩
      · exact hbase
      · omega
    rw [if_pos (hany.mpr hold)]
    refine .inl ⟨hold, rfl, h.congr rfl rfl, hbase', rfl, ?_⟩
    rintro j bl s ⟨a, ha, hhas⟩
    exact ⟨a, ha.congr rfl, hhas⟩
  · rw [if_neg fun hany' => hold (hany.mp hany')]
    have hge := Nat.le_of_not_lt hold
    generalize hr' : ({ r with stats := { stats with shards := stats.shards + 1 }, floor, train } : Reassembler) = r'
    have hslots : r'.slots = r.slots := by rw [← hr']
    have hbase' : r'.base = r.base := by rw [← hr']
    have hnext' : r'.next = r.next := by rw [← hr']
    have hhas' : ∀ j bl s, r.Has j bl s → r'.Has j bl s := by
      rintro j bl s ⟨a, ha, hhas⟩
      exact ⟨a, ha.congr hslots, hhas⟩
    have h' : r'.Tracks trains frames fec b := h.congr hslots (by rw [← hr'])
    have hbase'' : r'.base = some (.ofNat b) ∨ r'.base = none ∧ b = i ∧ ∀ z, r'.slot z = none := by
      rw [hbase']
      refine hbase.imp_right fun hfresh => ⟨hfresh.1, hfresh.2.1, fun z => ?_⟩
      rw [Reassembler.slot, hslots]
      exact hfresh.2.2 z
    refine .inr ⟨hge, ?_⟩
    obtain ⟨b', hkeeps⟩ | hdelivers :=
      @Reassembler.Tracks.pushFrame trains frames fec cpu r' b i hd payload h' hbase'' ⟨hge, hnear.1⟩ hid hsends
        hblock now_us
    · refine .inl ⟨b', hkeeps.tracks, hkeeps.base, hkeeps.le, hkeeps.own, ?_, hkeeps.events, fun heq => ?_⟩
      · exact fun j bl s hs hhas => hkeeps.keeps j bl s hs (hhas' j bl s hhas)
      · obtain ⟨hnil, hnext⟩ := hkeeps.still heq
        exact ⟨hnil, hnext.trans hnext'⟩
    · refine .inr ⟨hdelivers.tracks, hdelivers.base, hdelivers.next, ?_, ?_⟩
      · exact fun j bl s hhas => hdelivers.keeps j bl s (hhas' j bl s hhas)
      · obtain ⟨lost, f, hevents, hlost, hdirect, hf⟩ := hdelivers.events
        exact ⟨lost, f, hevents, hlost, fun hbi hnext => hdirect hbi (hnext'.trans hnext), hf⟩

end

section

variable {trains : Bool} {f : OutFrame} {fec : Float32} {cpu : Fec.Cpu} {body : List UInt8}

theorem OutFrame.parityOf_le (b : ℕ) : f.parityOf trains fec b ≤ 64 := parityCount_le _ _ _ _ _ _

theorem OutFrame.admitted_header (hblocks : f.blocksOf trains ≤ 255) {b s : ℕ} (hb : b < f.blocksOf trains)
    (hs : s < f.dataOf trains b + f.parityOf trains fec b) {payload : List UInt8}
    (hfits : f.Fits trains (f.header trains fec b s) payload) :
    Reassembler.admitted ((f.header trains fec b s).write ++ payload) = some (f.header trains fec b s, payload) ∧
      f.Sends trains fec (f.header trains fec b s) payload ∧ (f.header trains fec b s).block.toNat = b ∧
      (f.header trains fec b s).shard.toNat = s := by
  have hk := @OutFrame.dataOf_le trains f b
  have hm := @OutFrame.parityOf_le trains f fec b
  have hpos := OutFrame.dataOf_pos hb
  have hblock : (f.header trains fec b s).block.toNat = b := toNat_ofNat8 (by omega)
  have hshard : (f.header trains fec b s).shard.toNat = s := toNat_ofNat8 (by omega)
  have hk' : (f.header trains fec b s).k.toNat = f.dataOf trains b := toNat_ofNat8 (Nat.lt_of_le_of_lt hk (by decide))
  have hm' : (f.header trains fec b s).m.toNat = f.parityOf trains fec b :=
    toNat_ofNat8 (Nat.lt_of_le_of_lt hm (by decide))
  refine ⟨?_, ⟨hfits, rfl, ?_⟩, hblock, hshard⟩
  · unfold Reassembler.admitted
    rw [ShardHeader.read_write]
    dsimp only
    rw [ShardHeader.drop_write, if_neg ?_]
    rw [hk', hm', hshard, UInt8.le_iff_toNat_le, hfits.blocks, hblock]
    rintro (h | h | h | h | h | h)
    · omega
    · exact absurd h (Nat.not_lt.mpr hk)
    · exact absurd h (Nat.not_lt.mpr hm)
    · omega
    · exact absurd h (Nat.not_le.mpr hb)
    · have hsize := (layoutOf_covers trains f.data.length f.probe).1
      rw [← hfits.size, h] at hsize
      cases hsize
  · rw [hm', hblock]
    rfl

theorem blocksOf_le {bodies : List (List UInt8)} (h : packetizeData trains f fec = some bodies) :
    f.blocksOf trains ≤ 255 := by
  by_contra hmany
  unfold OutFrame.blocksOf at hmany
  unfold packetizeData at h
  dsimp only at h
  rw [if_pos (Nat.lt_of_not_le hmany)] at h
  cases h

theorem sends_of_packetize {bodies : List (List UInt8)} (h : packetize cpu trains f fec = some bodies)
    (hbody : body ∈ bodies) :
    ∃ hd payload, Reassembler.admitted body = some (hd, payload) ∧ f.Sends trains fec hd payload ∧
      hd.block.toNat < f.blocksOf trains := by
  obtain ⟨b, s, payload, hb, hs, rfl, hfits⟩ := isPacket_of_packetize h hbody
  obtain ⟨data, hdata, -⟩ := Option.bind_eq_some_iff.mp h
  obtain ⟨hadmitted, hsends, hblock, -⟩ := OutFrame.admitted_header (blocksOf_le hdata) hb hs hfits
  exact ⟨_, _, hadmitted, hsends, hblock.symm ▸ hb⟩

theorem admitted_of_packetizeData {bodies : List (List UInt8)} (h : packetizeData trains f fec = some bodies)
    {b s : ℕ} (hb : b < f.blocksOf trains) (hs : s < f.dataOf trains b) :
    ∃ body ∈ bodies, ∃ hd payload, Reassembler.admitted body = some (hd, payload) ∧ hd.block.toNat = b ∧
      hd.shard.toNat = s ∧ hd.shard.toNat < hd.k.toNat := by
  have hblocks := blocksOf_le h
  have hk := @OutFrame.dataOf_le trains f b
  have hfits : f.Fits trains (f.header trains fec b s) (f.payload trains b s) :=
    OutFrame.fits_header hblocks (by omega) (length_resize _ _) fun _ => by rw [Nat.mod_eq_of_lt (by omega)]
  obtain ⟨hadmitted, hsends, hblock, hshard⟩ := OutFrame.admitted_header hblocks hb (Nat.lt_add_right _ hs) hfits
  refine ⟨_, ?_, _, _, hadmitted, hblock, hshard, ?_⟩
  · unfold packetizeData at h
    dsimp only at h
    split_ifs at h
    rw [← Option.some.inj h]
    exact List.mem_flatMap.mpr ⟨b, List.mem_range.mpr hb, List.mem_map.mpr ⟨s, List.mem_range.mpr hs, rfl⟩⟩
  · rw [hshard, hsends.k, hblock]
    exact hs

end

end Rdpio.Hyper.Video
