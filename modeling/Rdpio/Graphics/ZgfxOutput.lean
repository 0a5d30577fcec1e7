import Rdpio.Graphics.ZgfxReturns
import Rdpio.Lib.Lz77

/-!
# How much a segment of ZGFX comes to

The token loop compares what it has appended with `MAX_SEGMENT_OUTPUT` before each token and not after the
last one, and one token may stand for as many bytes again.
-/

namespace Rdpio.Graphics.Zgfx

open Lib

/-- How many bytes a token stands for. -/
def Read.size : Read → ℕ
  | .literals bytes => bytes.length
  | .copy _ count => count
  | .raw bytes => bytes.length

def lastToken (input : Bytes) : ℕ → Reader → ℕ → Option (ℕ × ℕ)
  | 0, _, _ => none
  | tokens + 1, r, produced =>
    (readToken input produced r).bind fun (token, r) =>
      if r.remaining = 0 then some (produced, token.size) else lastToken input tokens r (produced + token.size)

/-- The last token of a compressed segment fits in what the tokens before it leave of `MAX_SEGMENT_OUTPUT`. -/
def LastFits (seg : Bytes) : Prop :=
  match seg with
  | flags :: body =>
    flags &&& PACKET_COMPRESSED ≠ 0 → ∀ input bits, bodyBits body = some (input, bits) →
      ∀ produced size, lastToken input bits ⟨0, bits⟩ 0 = some (produced, size) → size ≤ MAX_SEGMENT_OUTPUT - produced
  | [] => True

variable {fuel : ℕ}

theorem length_matchInto {history : History} {distance count : ℕ} (hdistance : distance ≠ 0) (hcount : count ≠ 0)
    {out out' : Bytes} (h : matchInto fuel history distance count out = some out') :
    out'.length = out.length + count := by
  by_cases hdist : distance % HISTORY_SIZE = 0
  · rw [matchInto_stalled history hdistance hdist hcount] at h
    cases h
  · obtain ⟨tail, hlen, hmatch⟩ := matchInto_returns history count hdist out
    have hmore := matchInto_mono history (Nat.le_max_left fuel (count + 1)) h
    rw [hmatch _ (Nat.lt_of_succ_le (Nat.le_max_right _ _))] at hmore
    rw [← Option.some.inj hmore, List.length_append, hlen]

variable {input : Bytes} {seg_start : ℕ}

theorem lastToken_succ (tokens : ℕ) {r r' : Reader} {produced : ℕ} {read : Read}
    (h : readToken input produced r = some (read, r')) :
    lastToken input (tokens + 1) r produced =
      if r'.remaining = 0 then some (produced, read.size) else lastToken input tokens r' (produced + read.size) := by
  rw [lastToken, h, Option.bind_some]

theorem tokenPass_next {st st' : Decoding} (h : tokenPass fuel input seg_start st = some (.next st')) :
    st.out.length - seg_start ≤ MAX_SEGMENT_OUTPUT ∧
      ∃ read, readToken input (st.out.length - seg_start) st.r = some (read, st'.r) ∧
        st'.out.length = st.out.length + read.size := by
  unfold tokenPass at h
  split_ifs at h with hend hmax
  · cases h
  · cases h
  · refine ⟨Nat.le_of_not_lt hmax, ?_⟩
    cases hread : readToken input (st.out.length - seg_start) st.r with
    | none =>
      rw [hread] at h
      cases h
    | some found =>
      obtain ⟨read, r⟩ := found
      rw [hread] at h
      cases read with
      | literals bytes =>
        cases h
        exact ⟨_, rfl, List.length_append⟩
      | raw bytes =>
        cases h
        exact ⟨_, rfl, List.length_append⟩
      | copy distance count =>
        obtain ⟨hdistance, hcount⟩ := readToken_copy hread
        obtain ⟨st'', hst, hnext⟩ := Option.map_eq_some_iff.1 h
        obtain ⟨out, hout, rfl⟩ := Option.map_eq_some_iff.1 hst
        cases hnext
        exact ⟨_, rfl, length_matchInto hdistance hcount hout⟩

theorem lastToken_of_decodeTokens {st st' : Decoding} (h : decodeTokens input seg_start fuel st = some (st', true))
    {tokens : ℕ} (hsome : 0 < st.r.remaining) (htokens : st.r.remaining ≤ tokens) (hout : seg_start ≤ st.out.length) :
    ∃ produced size, lastToken input tokens st.r (st.out.length - seg_start) = some (produced, size) ∧
      produced ≤ MAX_SEGMENT_OUTPUT ∧ st'.out.length = seg_start + (produced + size) := by
  induction fuel generalizing st tokens with
  | zero => cases h
  | succ fuel ih =>
    obtain ⟨tokens, rfl⟩ : ∃ n, tokens = n + 1 := ⟨tokens - 1, by omega⟩
    obtain ⟨pass, hpass, h⟩ := Option.bind_eq_some_iff.1 h
    cases pass with
    | done st'' ok =>
      -- a loop with bits left ends only on an error
      cases h
      unfold tokenPass at hpass
      split_ifs at hpass with hend
      · omega
      · cases hpass
      · split at hpass <;> first | cases hpass | (obtain ⟨_, -, hpass⟩ := Option.map_eq_some_iff.1 hpass; cases hpass)
    | next st'' =>
      obtain ⟨hroom, read, hread, hlen⟩ := tokenPass_next hpass
      have hless := readToken_remaining hsome hread
      change decodeTokens input seg_start fuel st'' = some (st', true) at h
      have hproduced : st.out.length - seg_start + read.size = st''.out.length - seg_start := by omega
      have hlast := lastToken_succ tokens hread
      by_cases hend : st''.r.remaining = 0
      · refine ⟨st.out.length - seg_start, read.size, hlast.trans (if_pos hend), hroom, ?_⟩
        rcases fuel with - | fuel
        · cases h
        · rw [decodeTokens, tokenPass, if_pos hend] at h
          cases h
          omega
      · rw [hlast, if_neg hend, hproduced]
        exact ih h (Nat.pos_of_ne_zero hend) (by omega) (by omega)

end Rdpio.Graphics.Zgfx

namespace Rdpio.Graphics.Zgfx

open Lib

variable {start count : ℕ}

theorem repeatFrom_cycle {xs pre : Bytes} (hxs : xs ≠ []) {produced : ℕ} (hroom : produced ≤ count)
    (hrounds : produced < count → xs.length ∣ produced) {fuel : ℕ} {out : Bytes}
    (h : repeatFrom pre.length count fuel (pre ++ cycle xs produced) = some out) : out = pre ++ cycle xs count := by
  induction fuel generalizing produced with
  | zero => cases h
  | succ fuel ih =>
    have hlen : (pre ++ cycle xs produced).length - pre.length = produced := by
      rw [List.length_append, length_cycle hxs, Nat.add_sub_cancel_left]
    rw [repeatFrom, hlen] at h
    split_ifs at h with hmore
    · rw [List.drop_left, List.append_assoc, ← cycle_add hxs (hrounds hmore) (Nat.min_le_left _ _)] at h
      refine ih (by omega) (fun hmore' => ?_) h
      -- a copy of all that is there makes twice as many rounds
      have htwice : min produced (count - produced) = produced := by omega
      rw [htwice]
      exact Nat.dvd_add (hrounds hmore) (hrounds hmore)
    · obtain rfl : produced = count := by omega
      exact (Option.some.inj h).symm

theorem matchInto_eq (history : History) {distance : ℕ} (hpos : 0 < distance) (hlt : distance < HISTORY_SIZE)
    (count : ℕ) (out : Bytes) {fuel : ℕ} (hfuel : count < fuel) :
    matchInto fuel history distance count out = some (out ++ backCopy history.window distance count) := by
  have hmod : distance % HISTORY_SIZE = distance := Nat.mod_eq_of_lt hlt
  obtain ⟨tail, -, htail⟩ := matchInto_returns history count (by rw [hmod]; omega) out
  have h := htail fuel hfuel
  rw [h, backCopy_eq_cycle hpos (by rw [Ring.length_window]; exact hlt.le), Ring.length_window]
  obtain ⟨xs, hxs⟩ : ∃ xs, xs = history.window.drop (HISTORY_SIZE - distance) := ⟨_, rfl⟩
  have hlen : xs.length = distance := by
    rw [hxs, List.length_drop, Ring.length_window]
    omega
  have hne : xs ≠ [] := List.ne_nil_of_length_pos (by omega)
  rw [← hxs]
  rcases Nat.eq_zero_or_pos count with rfl | hcount
  · rw [matchInto, if_pos (Or.inr rfl)] at h
    rw [← h]
    exact congrArg some (List.append_nil out).symm
  · rw [matchInto, if_neg (by omega), hmod] at h
    dsimp only at h
    rw [List.append_assoc, Ring.take_window history hpos hlt.le (Nat.min_le_right _ _), ← hxs,
      ← cycle_eq_take hne (by rw [hlen]; exact Nat.min_le_right _ _)] at h
    refine congrArg some (repeatFrom_cycle hne (Nat.min_le_left _ _) (fun hmore => ?_) h)
    rw [hlen, min_eq_right (by omega)]

/-- Writes of any lengths are the pushes of their bytes, and a match of any distance below the size of the ring is the
copy of its bytes one at a time. -/
theorem ring_semantics :
    (∀ (history : History) (writes : List Bytes), writes.foldl Ring.write history = history.pushes writes.flatten) ∧
      ∀ (history : History) (distance count : ℕ) (out : Bytes), 1 ≤ distance → distance ≤ HISTORY_SIZE - 1 →
        ∀ fuel, count < fuel →
          matchInto fuel history distance count out = some (out ++ backCopy history.window distance count) := by
  refine ⟨Ring.foldl_write, fun history distance count out hpos hle fuel hfuel => ?_⟩
  have hsize : 0 < HISTORY_SIZE := by decide
  exact matchInto_eq history hpos (by omega) count out hfuel

/-- The last byte written, three times more. -/
theorem ring_semantics_run :
    matchInto 4 (new.pushes [7]) 1 3 [5] = some ([5] ++ backCopy (new.pushes [7]).window 1 3) :=
  ring_semantics.2 (new.pushes [7]) 1 3 [5] le_rfl (by decide) 4 (by decide)

end Rdpio.Graphics.Zgfx
