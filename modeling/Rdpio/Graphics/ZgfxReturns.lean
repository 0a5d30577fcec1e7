import Rdpio.Graphics.Zgfx

/-!
# When ZGFX decompression returns

Every token takes a bit of the budget at least, so the token loop comes to an end; what may not is the loop of
`match_into`, which repeats what it has produced.
-/

namespace Rdpio.Graphics.Zgfx

open Lib

section
variable {start count : ℕ}

theorem repeatFrom_stalled (hcount : 0 < count) {out : Bytes} (hout : out.length = start) (fuel : ℕ) :
    repeatFrom start count fuel out = none := by
  induction fuel with
  | zero => rfl
  | succ fuel ih =>
    have hzero : out.length - start = 0 := by omega
    rw [repeatFrom, if_pos (by omega), hzero, Nat.zero_min, List.take_zero, List.append_nil]
    exact ih

theorem repeatFrom_mono {fuel fuel' : ℕ} (hle : fuel ≤ fuel') {out out' : Bytes}
    (h : repeatFrom start count fuel out = some out') : repeatFrom start count fuel' out = some out' := by
  induction fuel generalizing fuel' out with
  | zero => cases h
  | succ fuel ih =>
    obtain ⟨fuel', rfl⟩ : ∃ n, fuel' = n + 1 := ⟨fuel' - 1, by omega⟩
    rw [repeatFrom] at h ⊢
    split_ifs at h ⊢ with hmore
    · exact ih (Nat.le_of_succ_le_succ hle) h
    · exact h

theorem repeatFrom_returns {out : Bytes} (hsome : start < out.length) (hroom : out.length ≤ start + count) :
    ∃ tail, (out ++ tail).length = start + count ∧
      ∀ fuel, start + count < out.length + fuel → repeatFrom start count fuel out = some (out ++ tail) := by
  induction hn : start + count - out.length using Nat.strong_induction_on generalizing out with
  | _ n ih =>
    by_cases hmore : out.length - start < count
    · obtain ⟨next, hnext⟩ : ∃ next,
          next = (out.drop start).take (min (out.length - start) (count - (out.length - start))) := ⟨_, rfl⟩
      have hlen : (out ++ next).length = out.length + min (out.length - start) (count - (out.length - start)) := by
        rw [hnext, List.length_append, List.length_take, List.length_drop]
        omega
      obtain ⟨tail, hlength, htail⟩ := @ih _ (by omega) (out ++ next) (by omega) (by omega) rfl
      refine ⟨next ++ tail, by rw [← List.append_assoc, hlength], fun fuel hfuel => ?_⟩
      obtain ⟨fuel, rfl⟩ : ∃ n, fuel = n + 1 := ⟨fuel - 1, by omega⟩
      rw [repeatFrom, if_pos hmore, ← hnext, htail fuel (by omega), List.append_assoc]
    · refine ⟨[], by rw [List.append_nil]; omega, fun fuel hfuel => ?_⟩
      obtain ⟨fuel, rfl⟩ : ∃ n, fuel = n + 1 := ⟨fuel - 1, by omega⟩
      rw [repeatFrom, if_neg hmore, List.append_nil]

end

section
variable (history : History) {distance count : ℕ}

theorem matchInto_mono {fuel fuel' : ℕ} (hle : fuel ≤ fuel') {out out' : Bytes}
    (h : matchInto fuel history distance count out = some out') :
    matchInto fuel' history distance count out = some out' := by
  unfold matchInto at h ⊢
  split_ifs at h ⊢ with hnone
  · exact h
  · exact repeatFrom_mono hle h

theorem matchInto_returns (count : ℕ) (hdist : distance % HISTORY_SIZE ≠ 0) (out : Bytes) :
    ∃ tail, tail.length = count ∧
      ∀ fuel, count < fuel → matchInto fuel history distance count out = some (out ++ tail) := by
  have hne : distance ≠ 0 := by
    rintro rfl
    exact hdist (Nat.zero_mod _)
  by_cases hcount : count = 0
  · exact ⟨[], hcount.symm, fun fuel _ => by rw [matchInto, if_pos (Or.inr hcount), List.append_nil]⟩
  have hbuf := history.length_buf
  have hindex := Nat.mod_lt (history.index + HISTORY_SIZE - distance % HISTORY_SIZE) (y := HISTORY_SIZE) (by decide)
  have hlt := Nat.mod_lt distance (y := HISTORY_SIZE) (by decide)
  obtain ⟨index, hindexeq⟩ : ∃ index, index = (history.index + HISTORY_SIZE - distance % HISTORY_SIZE) %
    HISTORY_SIZE := ⟨_, rfl⟩
  obtain ⟨dist, hdisteq⟩ : ∃ dist, dist = distance % HISTORY_SIZE := ⟨_, rfl⟩
  obtain ⟨first, hfirst⟩ : ∃ first, first =
    (history.buf.drop index).take (min (min count dist) (HISTORY_SIZE - index)) ++
      history.buf.take (min count dist - min (min count dist) (HISTORY_SIZE - index)) := ⟨_, rfl⟩
  rw [← hindexeq] at hindex
  rw [← hdisteq] at hdist hlt
  have hlen : first.length = min count dist := by
    rw [hfirst]
    simp only [List.length_append, List.length_take, List.length_drop]
    omega
  obtain ⟨tail, hlength, htail⟩ := @repeatFrom_returns out.length count (out ++ first)
    (by rw [List.length_append]; omega) (by rw [List.length_append]; omega)
  refine ⟨first ++ tail, ?_, fun fuel hfuel => ?_⟩
  · simp only [List.length_append] at hlength ⊢
    omega
  · rw [matchInto, if_neg (by tauto)]
    dsimp only
    rw [← hindexeq, ← hdisteq, List.append_assoc out, ← hfirst, htail fuel (by rw [List.length_append]; omega), List.append_assoc]

theorem matchInto_stalled (hdistance : distance ≠ 0) (hdist : distance % HISTORY_SIZE = 0) (hcount : count ≠ 0)
    (out : Bytes) (fuel : ℕ) : matchInto fuel history distance count out = none := by
  rw [matchInto, if_neg (by tauto), hdist]
  dsimp only
  rw [Nat.min_zero, Nat.zero_min, Nat.sub_zero, List.take_zero, List.take_zero, List.append_nil, List.append_nil]
  exact repeatFrom_stalled (Nat.pos_of_ne_zero hcount) rfl fuel

end

theorem len_pos {idx : ℕ} (h : (decode idx).kind ≠ .invalid) : 0 < (decode idx).len := by
  rcases Nat.lt_or_ge idx (2^PREFIX_BITS) with hlt | hge
  · have hall : ∀ idx < 2^PREFIX_BITS, (slotFor idx).kind ≠ .invalid → 0 < (slotFor idx).len := by decide +kernel
    rw [decode_eq hlt] at h ⊢
    exact hall idx hlt h
  · have hdefault : decode idx = ⟨0, 0, 0, .invalid⟩ := by
      rw [decode, buildDecode_eq, List.getD_eq_getElem?_getD,
        List.getElem?_eq_none (by rw [List.length_map, List.length_range]; exact hge)]
      rfl
    rw [hdefault] at h
    exact absurd rfl h

theorem le_literalBurst (w room : ℕ) (s : Slot) (used : ℕ) : used ≤ (literalBurst w room s used).2 := by
  induction room generalizing s used with
  | zero => exact le_rfl
  | succ room ih =>
    rw [literalBurst]
    dsimp only
    split_ifs
    · exact Nat.le_add_right _ _
    · exact (Nat.le_add_right _ _).trans (ih _ _)

theorem lt_literalBurst (w room : ℕ) {s : Slot} (hs : 0 < s.len) (used : ℕ) :
    used < (literalBurst w (room + 1) s used).2 := by
  rw [literalBurst]
  dsimp only
  split_ifs
  · exact Nat.lt_add_of_pos_right hs
  · exact (Nat.lt_add_of_pos_right hs).trans_le (le_literalBurst _ _ _ _)

theorem readLength_remaining {input : Bytes} {r r' : Reader} {count : ℕ} (h : readLength input r = some (count, r')) :
    r'.remaining ≤ r.remaining ∧ count ≠ 0 := by
  unfold readLength at h
  dsimp only at h
  have htwo := Nat.two_pow_pos (leadingOnes 64 (shl (word input r.bitpos) 1))
  split_ifs at h <;> cases h
  · exact ⟨Nat.sub_le _ _, by decide⟩
  · exact ⟨Nat.sub_le _ _, by omega⟩

theorem readRaw_remaining {input : Bytes} {r r' : Reader} {bytes : Bytes} (h : readRaw input r = some (bytes, r')) :
    r'.remaining ≤ r.remaining := by
  unfold readRaw Reader.skip at h
  dsimp only at h
  split_ifs at h
  cases h
  dsimp only
  omega

theorem readToken_remaining {input : Bytes} {produced : ℕ} {r r' : Reader} {read : Read} (hr : 0 < r.remaining)
    (h : readToken input produced r = some (read, r')) : r'.remaining < r.remaining := by
  unfold readToken readSlot at h
  dsimp only at h
  have hlen := @len_pos (top (word input r.bitpos) PREFIX_BITS)
  generalize decode (top (word input r.bitpos) PREFIX_BITS) = slot at h hlen
  cases hkind : slot.kind with
  | invalid => simp [hkind] at h
  | literal =>
    have hpos : 0 < slot.len := hlen (by rw [hkind]; decide)
    simp only [hkind] at h
    split_ifs at h <;> cases h
    · exact Nat.sub_lt hr (lt_literalBurst _ _ hpos _)
    · exact Nat.sub_lt hr hpos
  | copy =>
    have hpos : 0 < slot.len := hlen (by rw [hkind]; decide)
    have hskip : (r.skip (slot.len + slot.vbits)).remaining < r.remaining := Nat.sub_lt hr (by omega)
    simp only [hkind] at h
    split_ifs at h
    · obtain ⟨⟨count, r''⟩, hlength, h⟩ := Option.bind_eq_some_iff.1 h
      dsimp only at h
      split_ifs at h
      cases h
      exact (readLength_remaining hlength).1.trans_lt hskip
    · obtain ⟨⟨bytes, r''⟩, hraw, h⟩ := Option.map_eq_some_iff.1 h
      cases h
      exact (readRaw_remaining hraw).trans_lt hskip

theorem readToken_copy {input : Bytes} {produced : ℕ} {r r' : Reader} {distance count : ℕ}
    (h : readToken input produced r = some (.copy distance count, r')) : distance ≠ 0 ∧ count ≠ 0 := by
  unfold readToken readSlot at h
  dsimp only at h
  generalize decode (top (word input r.bitpos) PREFIX_BITS) = slot at h
  cases hkind : slot.kind with
  | invalid => simp [hkind] at h
  | literal =>
    simp only [hkind] at h
    split_ifs at h <;> cases h
  | copy =>
    simp only [hkind] at h
    split_ifs at h with hdistance
    · obtain ⟨⟨count', r''⟩, hlength, h⟩ := Option.bind_eq_some_iff.1 h
      dsimp only at h
      split_ifs at h
      cases h
      exact ⟨hdistance, (readLength_remaining hlength).2⟩
    · obtain ⟨⟨bytes, r''⟩, -, h⟩ := Option.map_eq_some_iff.1 h
      cases h

/-! ## A walk along the stream -/

inductive Walk
  | stalls
  | fails
  | passes
deriving DecidableEq

def walkPass (input : Bytes) (r : Reader) (produced : ℕ) : Except Walk (Reader × ℕ) :=
  if r.remaining = 0 then .error .passes
  else if MAX_SEGMENT_OUTPUT < produced then .error .fails
  else match readToken input produced r with
    | none => .error .fails
    | some (.literals bytes, r) => .ok (r, produced + bytes.length)
    | some (.raw bytes, r) => .ok (r, produced + bytes.length)
    | some (.copy distance count, r) =>
      if distance % HISTORY_SIZE = 0 then .error .stalls else .ok (r, produced + count)

def walkTokens (input : Bytes) : ℕ → Reader → ℕ → Walk
  | 0, _, _ => .fails
  | passes + 1, r, produced =>
    match walkPass input r produced with
    | .error w => w
    | .ok (r, produced) => walkTokens input passes r produced

def walkSegment (seg : Bytes) : Walk :=
  match seg with
  | flags :: body =>
    if body = [] then .fails
    else if flags &&& PACKET_COMPRESSED = 0 then if MAX_SEGMENT_OUTPUT < body.length then .fails else .passes
    else match bodyBits body with
      | none => .fails
      | some (input, bits) => walkTokens input (bits + 1) ⟨0, bits⟩ 0
  | [] => .fails

def walkSegments : ℕ → Bytes → Walk
  | 0, _ => .passes
  | count + 1, src =>
    match nextSegment src with
    | none => .fails
    | some (seg, rest) =>
      match walkSegment seg with
      | .stalls => .stalls
      | .fails => .fails
      | .passes => walkSegments count rest

def walk (src : Bytes) : Walk :=
  match src with
  | [] => .fails
  | descriptor :: src =>
    if descriptor = SEGMENTED_SINGLE then walkSegment src
    else if descriptor = SEGMENTED_MULTIPART then
      match u16Le src with
      | none => .fails
      | some (count, src) =>
        match u32Le src with
        | none => .fails
        | some (_, src) => walkSegments count src
    else .fails

/-- A computation that some number of passes is enough for, with a result that has `P`. -/
def Returns {α : Type} (f : ℕ → Option α) (P : α → Prop) : Prop := ∃ k a, P a ∧ ∀ fuel, k ≤ fuel → f fuel = some a

/-- What a walk says about a computation. -/
structure Walk.Tells {α : Type} (w : Walk) (f : ℕ → Option α) (ok : α → Bool) : Prop where
  stalls : w = .stalls → ∀ fuel, f fuel = none
  returns : w ≠ .stalls → Returns f fun a => ok a = decide (w = .passes)

theorem Walk.tells_some {α : Type} {w : Walk} {f : ℕ → Option α} {ok : α → Bool} (hw : w ≠ .stalls) (a : α)
    (h : ∀ fuel, f fuel = some a) (hok : ok a = decide (w = .passes)) : w.Tells f ok :=
  ⟨fun hstalls => absurd hstalls hw, fun _ => ⟨0, a, hok, fun fuel _ => h fuel⟩⟩

theorem Walk.Tells.congr {α : Type} {w : Walk} {f g : ℕ → Option α} {ok : α → Bool} (h : w.Tells f ok)
    (hfg : ∀ fuel, g (fuel + 1) = f fuel) (hzero : g 0 = none) : w.Tells g ok := by
  constructor
  · rintro hw (_ | fuel)
    · exact hzero
    · rw [hfg, h.stalls hw]
  · intro hw
    obtain ⟨k, a, ha, hk⟩ := h.returns hw
    refine ⟨k + 1, a, ha, fun fuel hfuel => ?_⟩
    obtain ⟨fuel, rfl⟩ : ∃ n, fuel = n + 1 := ⟨fuel - 1, by omega⟩
    rw [hfg]
    exact hk fuel (Nat.le_of_succ_le_succ hfuel)

theorem copyMatch_mono {fuel fuel' : ℕ} (hle : fuel ≤ fuel') {st st' : Decoding} {r : Reader} {distance count : ℕ}
    (h : st.copyMatch fuel r distance count = some st') : st.copyMatch fuel' r distance count = some st' := by
  unfold Decoding.copyMatch at h ⊢
  obtain ⟨out, hout, h⟩ := Option.map_eq_some_iff.1 h
  exact Option.map_eq_some_iff.2 ⟨out, matchInto_mono _ hle hout, h⟩

theorem walkTokens_tells (input : Bytes) (seg_start : ℕ) {passes : ℕ} {st : Decoding} {produced : ℕ}
    (hpasses : st.r.remaining < passes) (hout : st.out.length = seg_start + produced) :
    (walkTokens input passes st.r produced).Tells (decodeTokens input seg_start · st) (·.2) := by
  induction passes generalizing st produced with
  | zero => exact (Nat.not_lt_zero _ hpasses).elim
  | succ passes ih =>
    have hproduced : st.out.length - seg_start = produced := by rw [hout, Nat.add_sub_cancel_left]
    have hdone : ∀ {w : Walk} (ok : Bool), w ≠ .stalls → ok = decide (w = .passes) →
        (∀ fuel, tokenPass fuel input seg_start st = some (.done st ok)) →
        w.Tells (decodeTokens input seg_start · st) (·.2) := fun ok hw hok h =>
      Walk.Tells.congr (Walk.tells_some hw (st, ok) (fun _ => rfl) hok)
        (fun fuel => by rw [decodeTokens, h, Option.bind_some]) rfl
    have hnext : ∀ {w : Walk} (st' : Decoding), w.Tells (decodeTokens input seg_start · st') (·.2) →
        (∀ fuel, tokenPass fuel input seg_start st = some (.next st')) →
        w.Tells (decodeTokens input seg_start · st) (·.2) := fun st' hst' h =>
      Walk.Tells.congr hst' (fun fuel => by rw [decodeTokens, h, Option.bind_some]) rfl
    rw [walkTokens]
    by_cases hend : st.r.remaining = 0
    · rw [walkPass, if_pos hend]
      exact hdone (w := .passes) true (by decide) rfl fun fuel => by rw [tokenPass, if_pos hend]
    by_cases hmax : MAX_SEGMENT_OUTPUT < produced
    · rw [walkPass, if_neg hend, if_pos hmax]
      exact hdone (w := .fails) false (by decide) rfl fun fuel => by
        rw [tokenPass, if_neg hend, hproduced, if_pos hmax]
    rw [walkPass, if_neg hend, if_neg hmax]
    have hpass : ∀ fuel, tokenPass fuel input seg_start st = _ := fun fuel => by
      rw [tokenPass, if_neg hend, hproduced, if_neg hmax]
    cases hread : readToken input produced st.r with
    | none =>
      simp only [hread] at hpass ⊢
      exact hdone (w := .fails) false (by decide) rfl hpass
    | some found =>
      obtain ⟨read, r⟩ := found
      have hless : r.remaining < passes :=
        (readToken_remaining (Nat.pos_of_ne_zero hend) hread).trans_le (Nat.le_of_lt_succ hpasses)
      simp only [hread] at hpass ⊢
      cases read with
      | literals bytes =>
        refine hnext _ (@ih { st with r, out := st.out ++ bytes } (produced + bytes.length) hless ?_) hpass
        rw [List.length_append, hout, Nat.add_assoc]
      | raw bytes =>
        refine hnext _ (@ih { st with r, out := st.out ++ bytes } (produced + bytes.length) hless ?_) hpass
        rw [List.length_append, hout, Nat.add_assoc]
      | copy distance count =>
        obtain ⟨hdistance, hcount⟩ := readToken_copy hread
        dsimp only at hpass ⊢
        split_ifs with hdist
        · refine ⟨fun _ fuel => ?_, fun h => absurd rfl h⟩
          rcases fuel with - | fuel
          · rfl
          · have hnone : st.copyMatch fuel r distance count = none := by
              rw [Decoding.copyMatch, matchInto_stalled _ hdistance hdist hcount, Option.map_none]
            rw [decodeTokens, hpass, hnone, Option.map_none, Option.bind_none]
        · obtain ⟨tail, htail, hmatch⟩ :=
            matchInto_returns (st.history.write (st.out.drop st.synced)) count hdist st.out
          obtain ⟨st', hst'⟩ : ∃ st' : Decoding, st' =
            ⟨st.history.write (st.out.drop st.synced), r, st.out ++ tail, st.out.length⟩ := ⟨_, rfl⟩
          have hcopy : ∀ fuel, count < fuel → st.copyMatch fuel r distance count = some st' := fun fuel hfuel => by
            rw [Decoding.copyMatch, hmatch fuel hfuel, Option.map_some, hst']
          have hrest : (walkTokens input passes r (produced + count)).Tells (decodeTokens input seg_start · st')
              (·.2) := by
            have hr : st'.r = r := by rw [hst']
            rw [← hr]
            exact ih (by rw [hr]; exact hless) (by rw [hst', List.length_append, hout, htail, Nat.add_assoc])
          constructor
          · rintro hw (_ | fuel)
            · rfl
            rw [decodeTokens, hpass]
            refine Option.bind_eq_none_iff.2 fun pass hsome => ?_
            obtain ⟨st'', hst'', rfl⟩ := Option.map_eq_some_iff.1 hsome
            -- fewer passes produce the same, if they produce anything
            have hmax := copyMatch_mono (Nat.le_max_left fuel (count + 1)) hst''
            rw [hcopy _ (Nat.lt_of_succ_le (Nat.le_max_right _ _))] at hmax
            rw [← Option.some.inj hmax]
            exact hrest.stalls hw fuel
          · intro hw
            obtain ⟨k, a, ha, hk⟩ := hrest.returns hw
            refine ⟨max k (count + 1) + 1, a, ha, fun fuel hfuel => ?_⟩
            obtain ⟨fuel, rfl⟩ : ∃ n, fuel = n + 1 := ⟨fuel - 1, by omega⟩
            dsimp only
            rw [decodeTokens, hpass, hcopy fuel (by omega)]
            exact hk fuel (by omega)

/-! ## Segments and messages -/

theorem tokenPass_mono {input : Bytes} {seg_start fuel fuel' : ℕ} (hle : fuel ≤ fuel') {st : Decoding} {pass : Pass}
    (h : tokenPass fuel input seg_start st = some pass) : tokenPass fuel' input seg_start st = some pass := by
  unfold tokenPass at h ⊢
  split_ifs at h ⊢
  · exact h
  · exact h
  cases hread : readToken input (st.out.length - seg_start) st.r with
  | none =>
    simp only [hread] at h ⊢
    exact h
  | some found =>
    obtain ⟨read, r⟩ := found
    simp only [hread] at h ⊢
    cases read with
    | literals bytes => exact h
    | raw bytes => exact h
    | copy distance count =>
      obtain ⟨st', hst', h⟩ := Option.map_eq_some_iff.1 h
      exact Option.map_eq_some_iff.2 ⟨st', copyMatch_mono hle hst', h⟩

theorem decodeTokens_mono {input : Bytes} {seg_start fuel fuel' : ℕ} (hle : fuel ≤ fuel') {st : Decoding}
    {result : Decoding × Bool} (h : decodeTokens input seg_start fuel st = some result) :
    decodeTokens input seg_start fuel' st = some result := by
  induction fuel generalizing fuel' st with
  | zero => simp [decodeTokens] at h
  | succ fuel ih =>
    obtain ⟨fuel', rfl⟩ : ∃ n, fuel' = n + 1 := ⟨fuel' - 1, by omega⟩
    have hle' := Nat.le_of_succ_le_succ hle
    rw [decodeTokens] at h ⊢
    obtain ⟨pass, hpass, h⟩ := Option.bind_eq_some_iff.1 h
    refine Option.bind_eq_some_iff.2 ⟨pass, tokenPass_mono hle' hpass, ?_⟩
    cases pass with
    | next st' => exact ih hle' h
    | done st' ok => exact h

theorem decompressSegment_mono {fuel fuel' : ℕ} (hle : fuel ≤ fuel') {history : History} {seg out : Bytes}
    {result : Segment} (h : decompressSegment fuel history seg out = some result) :
    decompressSegment fuel' history seg out = some result := by
  unfold decompressSegment segmentWith at h ⊢
  rcases seg with - | ⟨flags, body⟩
  · exact h
  dsimp only at h ⊢
  split_ifs at h ⊢
  · exact h
  · exact h
  · exact h
  cases hbits : bodyBits body with
  | none =>
    simp only [hbits] at h ⊢
    exact h
  | some found =>
    simp only [hbits] at h ⊢
    obtain ⟨st, hst, h⟩ := Option.map_eq_some_iff.1 h
    exact Option.map_eq_some_iff.2 ⟨st, decodeTokens_mono hle hst, h⟩

theorem walkSegment_tells (history : History) (seg out : Bytes) :
    (walkSegment seg).Tells (decompressSegment · history seg out) (·.2.2) := by
  unfold walkSegment
  rcases seg with - | ⟨flags, body⟩
  · exact Walk.tells_some (by decide) _ (fun _ => rfl) rfl
  dsimp only
  simp only [decompressSegment, segmentWith]
  split_ifs with hbody hraw hmax
  · exact Walk.tells_some (by decide) _ (fun _ => rfl) rfl
  · exact Walk.tells_some (by decide) _ (fun _ => rfl) rfl
  · exact Walk.tells_some (by decide) _ (fun _ => rfl) rfl
  rcases bodyBits body with - | ⟨input, bits⟩
  · exact Walk.tells_some (by decide) _ (fun _ => rfl) rfl
  · dsimp only
    have htokens := @walkTokens_tells input out.length (bits + 1) ⟨history, ⟨0, bits⟩, out, out.length⟩ 0
      (Nat.lt_succ_self bits) rfl
    constructor
    · intro hw fuel
      simp only [decompressBody, htokens.stalls hw, Option.map_none]
    · intro hw
      obtain ⟨k, ⟨st, ok⟩, hok, hk⟩ := htokens.returns hw
      refine ⟨k, (st.history.write (st.out.drop st.synced), st.out, ok), hok, fun fuel hfuel => ?_⟩
      exact Option.map_eq_some_iff.2 ⟨_, hk fuel hfuel, rfl⟩

theorem walkSegments_tells (count : ℕ) (history : History) (src out : Bytes) :
    (walkSegments count src).Tells (fun fuel => segments (decompressSegment fuel) count history src out)
      (·.2.isSome) := by
  induction count generalizing history src out with
  | zero => exact Walk.tells_some (w := .passes) (by decide) _ (fun _ => rfl) rfl
  | succ count ih =>
    simp only [walkSegments, segments]
    rcases nextSegment src with - | ⟨seg, rest⟩
    · exact Walk.tells_some (w := .fails) (by decide) _ (fun _ => rfl) rfl
    have hseg := walkSegment_tells history seg out
    dsimp only
    cases hwalk : walkSegment seg with
    | stalls =>
      refine ⟨fun _ fuel => ?_, fun h => absurd rfl h⟩
      rw [hseg.stalls hwalk, Option.bind_none]
    | fails =>
      obtain ⟨k, ⟨history', out', ok⟩, hok, hk⟩ := hseg.returns (by rw [hwalk]; decide)
      obtain rfl : ok = false := by simpa [hwalk] using hok
      refine ⟨fun h => (by cases h), fun _ => ⟨k, (history', none), rfl, fun fuel hfuel => ?_⟩⟩
      exact Option.bind_eq_some_iff.2 ⟨_, hk fuel hfuel, rfl⟩
    | passes =>
      obtain ⟨k, ⟨history', out', ok⟩, hok, hk⟩ := hseg.returns (by rw [hwalk]; decide)
      obtain rfl : ok = true := by simpa [hwalk] using hok
      have hrest := ih history' rest out'
      constructor
      · intro hw fuel
        refine Option.bind_eq_none_iff.2 fun result hsome => ?_
        have hmax := decompressSegment_mono (Nat.le_max_left fuel k) hsome
        rw [show decompressSegment (max fuel k) history seg out = _ from hk _ (Nat.le_max_right _ _)] at hmax
        rw [← Option.some.inj hmax]
        exact hrest.stalls hw fuel
      · intro hw
        obtain ⟨k', a, ha, hk'⟩ := hrest.returns hw
        refine ⟨max k k', a, ha, fun fuel hfuel => ?_⟩
        exact Option.bind_eq_some_iff.2 ⟨_, hk fuel (by omega), hk' fuel (by omega)⟩


theorem walk_tells (history : History) (src : Bytes) :
    ((walk src = .stalls → ∀ fuel, decompress fuel history src = none) ∧
      (walk src ≠ .stalls → ∃ fuel result, decompress fuel history src = some result)) := by
  unfold walk decompress decompressWith
  rcases src with - | ⟨descriptor, src⟩
  · exact ⟨fun h => (by cases h), fun _ => ⟨0, _, rfl⟩⟩
  dsimp only
  split_ifs with hsingle hmulti
  · have hseg := walkSegment_tells history src []
    refine ⟨fun hw fuel => ?_, fun hw => ?_⟩
    · exact Option.map_eq_none_iff.2 (hseg.stalls hw fuel)
    · obtain ⟨k, a, -, hk⟩ := hseg.returns hw
      exact ⟨k, _, Option.map_eq_some_iff.2 ⟨a, hk k le_rfl, rfl⟩⟩
  · rcases u16Le src with - | ⟨count, src⟩
    · exact ⟨fun h => (by cases h), fun _ => ⟨0, _, rfl⟩⟩
    dsimp only
    rcases u32Le src with - | ⟨uncompressed, src⟩
    · exact ⟨fun h => (by cases h), fun _ => ⟨0, _, rfl⟩⟩
    dsimp only
    have hsegs := walkSegments_tells count history src []
    refine ⟨fun hw fuel => ?_, fun hw => ?_⟩
    · exact Option.map_eq_none_iff.2 (hsegs.stalls hw fuel)
    · obtain ⟨k, a, -, hk⟩ := hsegs.returns hw
      exact ⟨k, _, Option.map_eq_some_iff.2 ⟨a, hk k le_rfl, rfl⟩⟩
  · exact ⟨fun h => (by cases h), fun _ => ⟨0, _, rfl⟩⟩

/-- `decompress` returns where the stream does not come to a match whose distance is a multiple of the history's
size, and `match_into` appends its count for any other distance, or where there is nothing to copy. -/
theorem returns_iff (history : History) :
    (∀ src : Bytes, (∃ fuel result, decompress fuel history src = some result) ↔ walk src ≠ .stalls) ∧
    ∀ (distance count : ℕ) (out : Bytes),
      (∃ fuel tail, matchInto fuel history distance count out = some (out ++ tail) ∧ tail.length = count) ↔
        count = 0 ∨ distance % HISTORY_SIZE ≠ 0 := by
  constructor
  · intro src
    obtain ⟨hstalls, hreturns⟩ := walk_tells history src
    refine ⟨?_, hreturns⟩
    rintro ⟨fuel, result, hresult⟩ hw
    rw [hstalls hw fuel] at hresult
    cases hresult
  · intro distance count out
    constructor
    · rintro ⟨fuel, tail, hmatch, hlen⟩
      by_contra hnot
      obtain ⟨hcount, hdist⟩ : count ≠ 0 ∧ distance % HISTORY_SIZE = 0 := by simpa using hnot
      by_cases hdistance : distance = 0
      · -- nothing is copied at no distance
        rw [matchInto, if_pos (Or.inl hdistance)] at hmatch
        have hnil : tail = [] := by simpa using Option.some.inj hmatch
        rw [hnil] at hlen
        exact hcount hlen.symm
      · rw [matchInto_stalled history hdistance hdist hcount] at hmatch
        cases hmatch
    · rintro (rfl | hdist)
      · exact ⟨0, [], by rw [matchInto, if_pos (Or.inr rfl), List.append_nil], rfl⟩
      · obtain ⟨tail, hlen, hmatch⟩ := matchInto_returns history count hdist out
        exact ⟨count + 1, tail, hmatch _ (Nat.lt_succ_self _), hlen⟩

/-- A segment of one match at distance 2,500,000: prefix `10111101`, 21 bits of 85,760, and the length code `0`. -/
theorem history_size_stalls :
    ¬ ∃ fuel result, decompress fuel new [0xE0, 0x20, 0xBD, 0x0A, 0x78, 0x00, 0x02] = some result := by
  rintro ⟨fuel, result, hresult⟩
  have hread : readToken [0xBD, 0x0A, 0x78, 0x00] 0 ⟨0, 30⟩ = some (.copy 2500000 3, ⟨30, 0⟩) := by
    rw [readToken_eq]
    decide +kernel
  have hbits : bodyBits [0xBD, 0x0A, 0x78, 0x00, 0x02] = some ([0xBD, 0x0A, 0x78, 0x00], 30) := by decide +kernel
  have hpass : walkPass [0xBD, 0x0A, 0x78, 0x00] ⟨0, 30⟩ 0 = .error .stalls := by
    rw [walkPass, if_neg (by decide), if_neg (by decide), hread]
    exact if_pos rfl
  have hseg : walkSegment [0x20, 0xBD, 0x0A, 0x78, 0x00, 0x02] = .stalls := by
    rw [walkSegment, if_neg (by decide), if_neg (by decide), hbits]
    dsimp only
    rw [walkTokens, hpass]
  have hwalk : walk [0xE0, 0x20, 0xBD, 0x0A, 0x78, 0x00, 0x02] = .stalls := by rw [walk, if_pos (by decide), hseg]
  rw [(walk_tells new _).1 hwalk fuel] at hresult
  cases hresult

end Rdpio.Graphics.Zgfx
