import Rdpio.Graphics.Rlgr
import Rdpio.Lib.Bits

/-!
# RLGR on a list of bits

The register of a `BitStream` holds the upcoming bits of its data, and zeros behind them (`BitStream.Ok`).
-/

namespace Rdpio.Graphics

open Lib

def number : List Bool → ℕ
  | [] => 0
  | b :: bits => b.toNat * 2^bits.length + number bits

theorem number_lt (bits : List Bool) : number bits < 2^bits.length := by
  induction bits with
  | nil => exact Nat.one_pos
  | cons b bits ih =>
    have hbit : b.toNat ≤ 1 := Bool.toNat_le b
    have hle : b.toNat * 2^bits.length ≤ 1 * 2^bits.length := Nat.mul_le_mul_right _ hbit
    rw [number, List.length_cons, Nat.pow_succ]
    omega

theorem testBit_number (bits : List Bool) (j : ℕ) :
    (number bits).testBit j = (decide (j < bits.length) && bits.getD (bits.length - 1 - j) false) := by
  induction bits generalizing j with
  | nil => simp [number]
  | cons b bits ih =>
    rw [number, Nat.mul_comm, Nat.testBit_two_pow_mul_add _ (number_lt bits), List.length_cons]
    rcases Nat.lt_trichotomy j bits.length with hlt | heq | hgt
    · have hplace : bits.length + 1 - 1 - j = bits.length - 1 - j + 1 := by omega
      rw [if_pos hlt, ih, hplace, List.getD_cons_succ]
      simp [hlt, Nat.lt_succ_of_lt hlt]
    · subst heq
      rw [if_neg (Nat.lt_irrefl _), Nat.sub_self, Nat.add_sub_cancel, Nat.sub_self, List.getD_cons_zero]
      cases b <;> simp
    · have hhigh : b.toNat.testBit (j - bits.length) = false := by
        cases b
        · simp
        · exact Nat.testBit_lt_two_pow (Nat.one_lt_two_pow (by omega))
      rw [if_neg (by omega), hhigh]
      simp [show ¬ j < bits.length + 1 by omega]

theorem testBit_byte_shiftLeft (b : UInt8) {s : ℕ} (hs : s ≤ 56) (j : ℕ) :
    (b.toUInt64 <<< UInt64.ofNat s).toNat.testBit j = (decide (s ≤ j) && b.toNat.testBit (j - s)) := by
  have hlt : b.toNat * 2^s < 2^64 :=
    calc b.toNat * 2^s < 2^8 * 2^s := (Nat.mul_lt_mul_right (Nat.two_pow_pos s)).mpr b.toNat_lt
      _ = 2^(8 + s) := (Nat.pow_add ..).symm
      _ ≤ 2^64 := Nat.pow_le_pow_right (by decide) (by omega)
  rw [UInt64.toNat_shiftLeft, UInt8.toNat_toUInt64, UInt64.toNat_ofNat', Nat.mod_eq_of_lt (a := s) (by omega),
    Nat.mod_eq_of_lt (a := s) (by omega), Nat.shiftLeft_eq, Nat.mod_eq_of_lt hlt, Nat.testBit_mul_two_pow]

theorem testBit_byte_high (b : UInt8) {j : ℕ} (hj : 8 ≤ j) : b.toNat.testBit j = false :=
  Nat.testBit_lt_two_pow (b.toNat_lt.trans_le (Nat.pow_le_pow_right (by decide) hj))

theorem leadingZeros_eq {x : UInt32} {m : ℕ} (hm : m ≤ 32) (hzero : ∀ i < m, x.toNat.testBit (31 - i) = false)
    (hone : m < 32 → x.toNat.testBit (31 - m) = true) : leadingZeros x = m := by
  have hlow : x.toNat < 2^(32 - m) := by
    apply Nat.lt_pow_two_of_testBit
    intro i hi
    rcases Nat.lt_or_ge i 32 with hlt | hge
    · have := hzero (31 - i) (by omega)
      rwa [show 31 - (31 - i) = i by omega] at this
    · exact Nat.testBit_lt_two_pow (x.toNat_lt.trans_le (Nat.pow_le_pow_right (by decide) hge))
  unfold leadingZeros
  rcases Nat.lt_or_ge m 32 with hlt | hge
  · have hne : x.toNat ≠ 0 := by
      intro h
      have := hone hlt
      rw [h, Nat.zero_testBit] at this
      cases this
    have hhigh := Nat.ge_two_pow_of_testBit (hone hlt)
    have hlog : x.toNat.log2 = 31 - m := by
      have h1 := (Nat.log2_lt hne).mpr hlow
      have h2 := (Nat.le_log2 hne).mpr hhigh
      omega
    rw [if_neg fun h => hne (by rw [h]; rfl), hlog]
    omega
  · obtain rfl : m = 32 := by omega
    rw [Nat.sub_self, Nat.pow_zero, Nat.lt_one_iff] at hlow
    rw [if_pos (UInt32.toNat_inj.mp hlow)]

/-! ## The register -/

/-- The next 32 bits, with zeros behind the last. -/
def window (bits : List Bool) : List Bool := (List.range 32).map fun i => bits.getD i false

@[simp]
theorem length_window (bits : List Bool) : (window bits).length = 32 := by simp [window]

theorem getD_window (bits : List Bool) {i : ℕ} (hi : i < 32) : (window bits).getD i false = bits.getD i false := by
  rw [window, List.getD_eq_getElem _ _ (by simpa using hi)]
  simp

namespace BitStream

def rest (bs : BitStream) : List Bool := (bytesBits bs.data).drop bs.pos

@[simp]
theorem length_rest (bs : BitStream) : bs.rest.length = bs.remaining := by
  rw [rest, List.length_drop, length_bytesBits, remaining]

/-- The register holds the bits up to byte `next`, and zeros behind them. -/
structure Ok (bs : BitStream) : Prop where
  next_le : bs.next ≤ bs.data.length
  held : bs.acc_bits = bs.next * 8 - bs.pos
  reach : bs.pos ≤ bs.next * 8 ∨ bs.next = bs.data.length
  few : bs.acc_bits ≤ 64
  bit : ∀ i < 64, bs.acc.toNat.testBit (63 - i) = (decide (i < bs.acc_bits) && bs.rest.getD i false)

/-- There is no byte left to pull, or no room for one. -/
structure Full (bs : BitStream) : Prop extends bs.Ok where
  full : bs.next = bs.data.length ∨ 57 ≤ bs.acc_bits

theorem refillByte_data (bs : BitStream) : bs.refillByte.data = bs.data := by
  rw [refillByte]
  split
  · rfl
  · split_ifs <;> rfl

theorem refillByte_pos (bs : BitStream) : bs.refillByte.pos = bs.pos := by
  rw [refillByte]
  split
  · rfl
  · split_ifs <;> rfl

theorem Ok.getD_rest {bs : BitStream} (h : bs.Ok) {b : UInt8} (hb : bs.data[bs.next]? = some b) {j : ℕ} (hj : j < 8) :
    bs.rest.getD (bs.acc_bits + j) false = b.toNat.testBit (7 - j) := by
  have hlt : bs.next < bs.data.length := (List.getElem?_eq_some_iff.mp hb).1
  have hheld := h.held
  have hplace : bs.pos + (bs.acc_bits + j) = bs.next * 8 + j := by
    rcases h.reach with hr | hr <;> omega
  have hdiv : (bs.next * 8 + j) / 8 = bs.next := by omega
  have hmod : (bs.next * 8 + j) % 8 = j := by omega
  rw [rest, List.getD_eq_getElem?_getD, List.getElem?_drop, hplace, getElem?_bytesBits _ (by omega), hdiv, hmod,
    List.getD_eq_getElem?_getD, hb]
  rfl

theorem Ok.refillByte {bs : BitStream} (h : bs.Ok) : bs.refillByte.Ok := by
  rw [BitStream.refillByte]
  split
  · exact h
  next b hb =>
    split_ifs with hroom
    · have hlt : bs.next < bs.data.length := (List.getElem?_eq_some_iff.mp hb).1
      have hheld := h.held
      have hpos : bs.pos ≤ bs.next * 8 := h.reach.resolve_right (by omega)
      refine ⟨hlt, ?_, .inl ?_, ?_, fun i hi => ?_⟩
      · change bs.acc_bits + 8 = (bs.next + 1) * 8 - bs.pos
        omega
      · change bs.pos ≤ (bs.next + 1) * 8
        omega
      · change bs.acc_bits + 8 ≤ 64
        omega
      · change (bs.acc ||| b.toUInt64 <<< UInt64.ofNat (56 - bs.acc_bits)).toNat.testBit (63 - i) =
          (decide (i < bs.acc_bits + 8) && bs.rest.getD i false)
        rw [UInt64.toNat_or, Nat.testBit_or, h.bit i hi, testBit_byte_shiftLeft b (Nat.sub_le ..)]
        rcases Nat.lt_or_ge i bs.acc_bits with hold | hnew
        · rw [testBit_byte_high b (show 8 ≤ 63 - i - (56 - bs.acc_bits) by omega)]
          simp [hold, Nat.lt_add_right 8 hold]
        · rcases Nat.lt_or_ge i (bs.acc_bits + 8) with hin | hout
          · have hbit := h.getD_rest hb (j := i - bs.acc_bits) (by omega)
            rw [Nat.add_sub_cancel' hnew] at hbit
            rw [hbit, show 63 - i - (56 - bs.acc_bits) = 7 - (i - bs.acc_bits) by omega]
            simp [hin, Nat.not_lt.mpr hnew, show 56 - bs.acc_bits ≤ 63 - i by omega]
          · simp [Nat.not_lt.mpr hnew, Nat.not_lt.mpr hout, show ¬ 56 - bs.acc_bits ≤ 63 - i by omega]
    · exact h

theorem refillByte_fills {bs : BitStream} (h : bs.Ok) {k : ℕ}
    (hk : bs.next = bs.data.length ∨ 57 ≤ bs.acc_bits ∨ 8 * k ≤ bs.acc_bits) :
    bs.refillByte.next = bs.refillByte.data.length ∨ 57 ≤ bs.refillByte.acc_bits ∨
      8 * (k + 1) ≤ bs.refillByte.acc_bits := by
  have hle := h.next_le
  unfold refillByte
  split
  next hnone =>
    have := List.getElem?_eq_none_iff.mp hnone
    omega
  next b hb =>
    have hlt : bs.next < bs.data.length := (List.getElem?_eq_some_iff.mp hb).1
    split_ifs with hroom
    · change bs.next + 1 = bs.data.length ∨ 57 ≤ bs.acc_bits + 8 ∨ 8 * (k + 1) ≤ bs.acc_bits + 8
      omega
    · omega

/-- `bs'` reads the same data as `bs`, `n` bits further on. -/
structure Ahead (bs : BitStream) (n : ℕ) (bs' : BitStream) : Prop where
  full : bs'.Full
  data : bs'.data = bs.data
  pos : bs'.pos = bs.pos + n

theorem Ahead.rest {bs bs' : BitStream} {n : ℕ} (h : bs.Ahead n bs') : bs'.rest = bs.rest.drop n := by
  rw [BitStream.rest, BitStream.rest, h.data, h.pos, List.drop_drop]

theorem Ahead.remaining {bs bs' : BitStream} {n : ℕ} (h : bs.Ahead n bs') : bs'.remaining = bs.remaining - n := by
  rw [← length_rest, h.rest, List.length_drop, length_rest]

theorem Ahead.trans {bs bs' bs'' : BitStream} {m n : ℕ} (h : bs.Ahead m bs') (h' : bs'.Ahead n bs'') :
    bs.Ahead (m + n) bs'' :=
  ⟨h'.full, h'.data.trans h.data, by rw [h'.pos, h.pos, Nat.add_assoc]⟩

theorem Full.self {bs : BitStream} (h : bs.Full) : bs.Ahead 0 bs := ⟨h, rfl, rfl⟩

theorem Ok.refill {bs : BitStream} (h : bs.Ok) : bs.Ahead 0 bs.refill := by
  have hrun : ∀ k, (BitStream.refillByte^[k] bs).Ok ∧ (BitStream.refillByte^[k] bs).data = bs.data ∧
      (BitStream.refillByte^[k] bs).pos = bs.pos ∧
      ((BitStream.refillByte^[k] bs).next = (BitStream.refillByte^[k] bs).data.length ∨
        57 ≤ (BitStream.refillByte^[k] bs).acc_bits ∨ 8 * k ≤ (BitStream.refillByte^[k] bs).acc_bits) := by
    intro k
    induction k with
    | zero => exact ⟨h, rfl, rfl, .inr (.inr (Nat.zero_le _))⟩
    | succ k ih =>
      obtain ⟨hok, hdata, hpos, hfill⟩ := ih
      rw [Function.iterate_succ_apply']
      exact ⟨hok.refillByte, (refillByte_data _).trans hdata, (refillByte_pos _).trans hpos, refillByte_fills hok hfill⟩
  obtain ⟨hok, hdata, hpos, hfill⟩ := hrun 8
  exact ⟨⟨hok, by unfold BitStream.refill; omega⟩, hdata, hpos⟩

theorem new_full (data : List UInt8) : (new data).Full ∧ (new data).rest = bytesBits data := by
  have hok : Ok { data, pos := 0, acc := 0, acc_bits := 0, next := 0 } :=
    ⟨Nat.zero_le _, rfl, .inl (Nat.zero_le _), Nat.zero_le _, fun i _ => by simp⟩
  exact ⟨hok.refill.full, hok.refill.rest⟩

theorem Full.shift {bs : BitStream} (h : bs.Full) {n : ℕ} (hn : n ≤ 32) : bs.Ahead n (bs.shift n) := by
  have hheld := h.held
  have hfull := h.full
  have hok : Ok { bs with pos := bs.pos + n, acc := bs.acc <<< UInt64.ofNat n, acc_bits := bs.acc_bits - n } := by
    have hfew := h.few
    refine ⟨h.next_le, ?_, ?_, ?_, fun i hi => ?_⟩
    · change bs.acc_bits - n = bs.next * 8 - (bs.pos + n)
      omega
    · change bs.pos + n ≤ bs.next * 8 ∨ bs.next = bs.data.length
      omega
    · change bs.acc_bits - n ≤ 64
      omega
    · change (bs.acc <<< UInt64.ofNat n).toNat.testBit (63 - i) =
        (decide (i < bs.acc_bits - n) && ((bytesBits bs.data).drop (bs.pos + n)).getD i false)
      rw [UInt64.toNat_shiftLeft, UInt64.toNat_ofNat', Nat.mod_eq_of_lt (a := n) (by omega),
        Nat.mod_eq_of_lt (a := n) (by omega), Nat.testBit_mod_two_pow, Nat.testBit_shiftLeft]
      rw [← List.drop_drop, List.getD_eq_getElem?_getD, List.getElem?_drop, ← List.getD_eq_getElem?_getD]
      rcases Nat.lt_or_ge (n + i) 64 with hin | hout
      · have hbit := h.bit (n + i) hin
        rw [BitStream.rest] at hbit
        rw [show 63 - i - n = 63 - (n + i) by omega, hbit]
        have hiff : i < bs.acc_bits - n ↔ n + i < bs.acc_bits := by omega
        simp [hiff, show 63 - i < 64 by omega, show n ≤ 63 - i by omega]
      · have hnot : ¬ i < bs.acc_bits - n := by omega
        simp [hnot, show ¬ n ≤ 63 - i by omega]
  exact ⟨hok.refill.full, hok.refill.data, hok.refill.pos⟩

theorem Full.testBit_accumulator {bs : BitStream} (h : bs.Full) {i : ℕ} (hi : i < 32) :
    bs.accumulator.toNat.testBit (31 - i) = bs.rest.getD i false := by
  have hheld := h.held
  have hsame : bs.accumulator.toNat.testBit (31 - i) = bs.acc.toNat.testBit (63 - i) := by
    rw [accumulator, UInt64.toNat_toUInt32, UInt64.toNat_shiftRight, Nat.testBit_mod_two_pow, Nat.testBit_shiftRight]
    simp only [show (32 : UInt64).toNat % 64 = 32 from rfl, show 32 + (31 - i) = 63 - i by omega,
      show 31 - i < 32 by omega, decide_true, Bool.true_and]
  rw [hsame, h.bit i (by omega)]
  by_cases hlt : i < bs.acc_bits
  · simp [hlt]
  · have hend : bs.rest.length ≤ i := by
      have := h.full
      rw [length_rest, remaining]
      omega
    rw [List.getD_eq_default _ _ hend]
    simp

theorem Full.accumulator_eq {bs : BitStream} (h : bs.Full) : bs.accumulator.toNat = number (window bs.rest) := by
  apply Nat.eq_of_testBit_eq
  intro j
  rw [testBit_number, length_window]
  rcases Nat.lt_or_ge j 32 with hj | hj
  · have hbit := h.testBit_accumulator (i := 31 - j) (by omega)
    rw [show 31 - (31 - j) = j by omega] at hbit
    rw [hbit, getD_window _ (by omega)]
    simp [hj]
  · rw [Nat.testBit_lt_two_pow (bs.accumulator.toNat_lt.trans_le (Nat.pow_le_pow_right (by decide) hj))]
    simp [Nat.not_lt.mpr hj]

theorem Full.shifts {bs : BitStream} (h : bs.Full) {ns : List ℕ} (hns : ∀ n ∈ ns, n ≤ 32) :
    bs.Ahead ns.sum (ns.foldl BitStream.shift bs) := by
  induction ns generalizing bs with
  | nil => exact h.self
  | cons n ns ih =>
    have hfirst := h.shift (hns n List.mem_cons_self)
    rw [List.foldl_cons, List.sum_cons]
    exact hfirst.trans (ih hfirst.full fun m hm => hns m (List.mem_cons_of_mem _ hm))

theorem Full.bits {bs : BitStream} (h : bs.Full) {n : ℕ} (hn : n ≤ 32) (hle : n ≤ bs.remaining) :
    (bs.bits n).1 = number (bs.rest.take n) ∧ bs.Ahead n (bs.bits n).2 := by
  rw [BitStream.bits]
  split_ifs with hpos
  · refine ⟨?_, h.shift hn⟩
    have hlen : (bs.rest.take n).length = n := by rw [List.length_take_of_le (by rwa [length_rest])]
    apply Nat.eq_of_testBit_eq
    intro j
    rw [testBit_number, hlen, BitStream.peek, Nat.one_shiftLeft, Nat.testBit_and, Nat.testBit_two_pow_sub_one,
      Nat.testBit_shiftRight, Bool.and_comm]
    by_cases hj : j < n
    · have hbit := h.testBit_accumulator (i := n - 1 - j) (by omega)
      rw [show 31 - (n - 1 - j) = 32 - n + j by omega] at hbit
      rw [hbit, List.getD_eq_getElem?_getD, List.getD_eq_getElem?_getD, List.getElem?_take, if_pos (by omega)]
    · simp [hj]
  · obtain rfl : n = 0 := by omega
    exact ⟨rfl, h.self⟩

theorem Full.topBit {bs : BitStream} (h : bs.Full) : bs.topBit = bs.rest.getD 0 false := by
  rw [← h.testBit_accumulator (by decide), BitStream.topBit]
  have hand : (bs.accumulator &&& 0x80000000).toNat = (bs.accumulator.toNat.testBit 31).toNat * 2^31 := by
    rw [UInt32.toNat_and]
    exact Nat.and_two_pow _ 31
  cases hbit : bs.accumulator.toNat.testBit 31
  · rw [hbit] at hand
    have hzero : bs.accumulator &&& 0x80000000 = 0 := UInt32.toNat_inj.mp (hand.trans (Nat.zero_mul _))
    rw [hzero]
    rfl
  · rw [hbit] at hand
    rw [bne_iff_ne]
    intro hzero
    rw [hzero] at hand
    cases hand

end BitStream

/-! ## RLGR1 on the bits themselves -/

/-! ## Unary prefixes -/

/-- How many leading bits are `b`. -/
def runOf (b : Bool) : List Bool → ℕ
  | [] => 0
  | c :: bits => if c = b then runOf b bits + 1 else 0

def scanUnary (b : Bool) : List Bool → Option (ℕ × List Bool)
  | [] => none
  | c :: bits => if c = b then (scanUnary b bits).map fun r => (r.1 + 1, r.2) else some (0, bits)

theorem scanUnary_eq (b : Bool) (bits : List Bool) : scanUnary b bits =
      if runOf b bits < bits.length then some (runOf b bits, bits.drop (runOf b bits + 1)) else none := by
  induction bits with
  | nil => rfl
  | cons c bits ih =>
    rw [scanUnary, runOf, ih]
    by_cases hc : c = b
    · rw [if_pos hc, if_pos hc, List.length_cons, List.drop_succ_cons]
      by_cases hlt : runOf b bits < bits.length
      · rw [if_pos hlt, if_pos (Nat.succ_lt_succ hlt), Option.map_some]
      · rw [if_neg hlt, if_neg fun h => hlt (Nat.lt_of_succ_lt_succ h), Option.map_none]
    · rw [if_neg hc, if_neg hc, if_pos (by simp), List.drop_succ_cons, List.drop_zero]

theorem runOf_le (b : Bool) (bits : List Bool) : runOf b bits ≤ bits.length := by
  induction bits with
  | nil => exact Nat.le_refl _
  | cons c bits ih =>
    rw [runOf, List.length_cons]
    split_ifs <;> omega

theorem getD_of_lt_runOf {b : Bool} {bits : List Bool} {i : ℕ} (hi : i < runOf b bits) (d : Bool) :
    bits.getD i d = b := by
  induction bits generalizing i with
  | nil => exact absurd hi (Nat.not_lt_zero i)
  | cons c bits ih =>
    rw [runOf] at hi
    split_ifs at hi with hc
    · cases i with
      | zero => rw [List.getD_cons_zero, hc]
      | succ i => rw [List.getD_cons_succ, ih (Nat.lt_of_succ_lt_succ hi)]
    · exact absurd hi (Nat.not_lt_zero i)

theorem getD_runOf {b : Bool} {bits : List Bool} (h : runOf b bits < bits.length) (d : Bool) :
    bits.getD (runOf b bits) d = !b := by
  induction bits with
  | nil => exact absurd h (Nat.not_lt_zero _)
  | cons c bits ih =>
    rw [runOf] at h ⊢
    split_ifs at h ⊢ with hc
    · rw [List.getD_cons_succ, ih (Nat.lt_of_succ_lt_succ h)]
    · rw [List.getD_cons_zero]
      cases c <;> cases b <;> simp_all

theorem runOf_drop {b : Bool} {bits : List Bool} {n : ℕ} (hn : n ≤ runOf b bits) :
    runOf b (bits.drop n) = runOf b bits - n := by
  induction n generalizing bits with
  | zero => rfl
  | succ n ih =>
    cases bits with
    | nil => exact absurd hn (Nat.not_succ_le_zero n)
    | cons c bits =>
      rw [runOf] at hn ⊢
      split_ifs at hn ⊢ with hc
      · rw [List.drop_succ_cons, ih (Nat.le_of_succ_le_succ hn), Nat.succ_sub_succ]
      · exact absurd hn (Nat.not_succ_le_zero n)

theorem min_runOf_window (b : Bool) (bits : List Bool) :
    min (runOf b (window bits)) bits.length = min 32 (runOf b bits) := by
  have hwindow := runOf_le b (window bits)
  have hbits := runOf_le b bits
  rw [length_window] at hwindow
  apply Nat.le_antisymm
  · apply Nat.le_min_of_le_of_le (Nat.min_le_left _ _ |>.trans hwindow)
    by_contra! hlt
    have hin : runOf b bits < bits.length := by omega
    have hat := getD_of_lt_runOf (show runOf b bits < runOf b (window bits) by omega) false
    rw [getD_window _ (by omega), getD_runOf hin] at hat
    cases b <;> cases hat
  · apply Nat.le_min_of_le_of_le ?_ (Nat.min_le_right _ _ |>.trans hbits)
    by_contra! hlt
    have hat := getD_runOf (show runOf b (window bits) < (window bits).length by rw [length_window]; omega) false
    rw [getD_window _ (by omega), getD_of_lt_runOf (show runOf b (window bits) < runOf b bits by omega)] at hat
    cases b <;> cases hat

theorem leadingZeros_accumulator {bs : BitStream} (h : bs.Full) (ones : Bool) :
    leadingZeros (if ones then ~~~bs.accumulator else bs.accumulator) = runOf ones (window bs.rest) := by
  have hle := runOf_le ones (window bs.rest)
  rw [length_window] at hle
  have hbit : ∀ i < 32, (if ones then ~~~bs.accumulator else bs.accumulator).toNat.testBit (31 - i) =
      ((window bs.rest).getD i false != ones) := by
    intro i hi
    rw [getD_window _ hi, ← h.testBit_accumulator hi]
    cases ones
    · simp
    · have hnot := Nat.testBit_two_pow_sub_succ bs.accumulator.toNat_lt (31 - i)
      rw [if_pos rfl, UInt32.toNat_not, Nat.sub_sub, Nat.add_comm 1, UInt32.size, hnot]
      simp [show 31 - i < 32 by omega]
  apply leadingZeros_eq hle
  · intro i hi
    rw [hbit i (by omega), getD_of_lt_runOf hi]
    exact bne_self_eq_false ones
  · intro hlt
    rw [hbit _ hlt, getD_runOf (by rwa [length_window])]
    cases ones <;> rfl

theorem leadCount_eq {bs : BitStream} (h : bs.Full) (ones : Bool) :
    leadCount ones bs = min 32 (runOf ones bs.rest) := by
  rw [leadCount, leadingZeros_accumulator h, ← bs.length_rest, min_runOf_window]

theorem countLoop_eq {ones : Bool} {cnt vk : ℕ} {bs : BitStream} (h : bs.Full) (hcnt : cnt = leadCount ones bs)
    {base : ℕ} (hvk : vk = base + cnt) :
    (countLoop ones cnt vk bs).1 = base + runOf ones bs.rest ∧
      bs.Ahead (runOf ones bs.rest - runOf ones bs.rest % 32) (countLoop ones cnt vk bs).2 := by
  fun_induction countLoop ones cnt vk bs generalizing base with
  | case1 cnt vk bs hgo bs' cnt' ih =>
    have hahead := h.shift (n := 32) (Nat.le_refl _)
    rw [leadCount_eq h] at hcnt
    have hrun : runOf ones bs'.rest = runOf ones bs.rest - 32 := by
      rw [hahead.rest, runOf_drop (by omega)]
    obtain ⟨hcount, hahead'⟩ := ih hahead.full rfl (show vk + cnt' = base + 32 + cnt' by omega)
    refine ⟨by omega, ?_⟩
    have hboth := hahead.trans hahead'
    rwa [hrun, show 32 + (runOf ones bs.rest - 32 - (runOf ones bs.rest - 32) % 32) =
      runOf ones bs.rest - runOf ones bs.rest % 32 by omega] at hboth
  | case2 cnt vk bs hstop =>
    rw [leadCount_eq h] at hcnt
    have hle := runOf_le ones bs.rest
    rw [bs.length_rest] at hle
    have hsmall : runOf ones bs.rest < 32 := by omega
    refine ⟨by omega, ?_⟩
    rw [Nat.mod_eq_of_lt hsmall, Nat.sub_self]
    exact h.self

theorem countUnary_eq {bs : BitStream} (h : bs.Full) (ones : Bool) :
    countUnary bs ones = none ∧ scanUnary ones bs.rest = none ∨
      ∃ vk bs', countUnary bs ones = some (vk, bs') ∧ scanUnary ones bs.rest = some (vk, bs'.rest) ∧
        vk < bs.remaining ∧ bs.Ahead (vk + 1) bs' := by
  obtain ⟨hcount, hloop⟩ := countLoop_eq h (Eq.refl (leadCount ones bs)) (Nat.zero_add _).symm
  rw [Nat.zero_add] at hcount
  have hcounted := hloop.trans (hloop.full.shift (n := runOf ones bs.rest % 32) (Nat.mod_lt _ (by decide)).le)
  rw [Nat.sub_add_cancel (Nat.mod_le ..)] at hcounted
  have hwhole := hcounted.trans (hcounted.full.shift (n := 1) (by decide))
  have hle := runOf_le ones bs.rest
  rw [bs.length_rest] at hle
  unfold countUnary
  simp only [hcount]
  rw [hcounted.remaining, scanUnary_eq, bs.length_rest, ← hwhole.rest]
  by_cases hend : runOf ones bs.rest < bs.remaining
  · rw [if_neg (by omega), if_pos hend]
    exact .inr ⟨_, _, rfl, rfl, hend, hwhole⟩
  · rw [if_pos (by omega), if_neg hend]
    exact .inl ⟨rfl, rfl⟩

def takeNumber (n : ℕ) (bits : List Bool) : Option (ℕ × List Bool) :=
  if bits.length < n then none else some (number (bits.take n), bits.drop n)

def golombBits (kr : ℕ) (bits : List Bool) : Option (ℕ × ℕ × List Bool) :=
  match scanUnary true bits with
  | none => none
  | some (vk, bits) =>
    match takeNumber kr bits with
    | none => none
    | some (low, bits) => some (vk, vk * 2^kr + low, bits)

/-- What the decoder carries from turn to turn. -/
structure BitRlgr (len : ℕ) where
  bits : List Bool
  k : ℕ
  kp : ℕ
  kr : ℕ
  krp : ℕ
  n : ℕ
  out : Vector Int16 len

namespace BitRlgr

variable {len : ℕ}

def emit (s : BitRlgr len) (v : ℤ) : BitRlgr len :=
  if s.n < len then { s with out := write s.out s.n (Int16.ofInt v), n := s.n + 1 } else s

def runLength (s : BitRlgr len) : Option (BitRlgr len) :=
  match scanUnary false s.bits with
  | none => none
  | some (vk, bits) =>
    let (run, k, kp) := Rlgr.runDigit^[vk] (0, s.k, s.kp)
    match takeNumber k bits with
    | none => none
    | some (_, []) => none
    | some (rest, sign :: bits) =>
      match golombBits s.kr bits with
      | none => none
      | some (vk2, code, bits) =>
        let (kr, krp) := updateKr vk2 s.kr s.krp
        let kp := kp - dnGr
        let n := min (s.n + (run + rest)) len
        some (emit { bits, k := kp >>> lsGr, kp, kr, krp, n, out := s.out } (signed sign (code + 1)))

/-- One coefficient. -/
def golombRice (s : BitRlgr len) : Option (BitRlgr len) :=
  match golombBits s.kr s.bits with
  | none => none
  | some (vk, code, bits) =>
    let (kr, krp) := updateKr vk s.kr s.krp
    let kp := if code = 0 then min (s.kp + uqGr) kpMax else s.kp - dqGr
    some (emit { s with bits, kr, krp, kp, k := kp >>> lsGr } (codeValue code))

def step (s : BitRlgr len) : Option (BitRlgr len) := if s.k ≠ 0 then s.runLength else s.golombRice

/-- At most so many turns, while there are bits and room. -/
def loop : ℕ → BitRlgr len → BitRlgr len
  | 0, s => s
  | turns + 1, s =>
    if s.bits ≠ [] ∧ s.n < len then
      match s.step with
      | none => s
      | some s' => loop turns s'
    else s

end BitRlgr

def rlgrDecodeBits (len : ℕ) (bits : List Bool) : Vector Int16 len :=
  (BitRlgr.loop bits.length
    { bits, k := 1, kp := 1 <<< lsGr, kr := 1, krp := 1 <<< lsGr, n := 0, out := .replicate len 0 }).out

/-! ## One decoder -/

theorem takeNumber_eq {bs : BitStream} (h : bs.Full) {n : ℕ} (hn : n ≤ 32) :
    bs.remaining < n ∧ takeNumber n bs.rest = none ∨
      n ≤ bs.remaining ∧ takeNumber n bs.rest = some ((bs.bits n).1, (bs.bits n).2.rest) ∧ (bs.bits n).1 < 2^n ∧
        bs.Ahead n (bs.bits n).2 := by
  rw [takeNumber, bs.length_rest]
  rcases Nat.lt_or_ge bs.remaining n with hfew | hle
  · exact .inl ⟨hfew, if_pos hfew⟩
  · obtain ⟨hnumber, hahead⟩ := h.bits hn hle
    have hlt := number_lt (bs.rest.take n)
    rw [List.length_take_of_le (by rwa [bs.length_rest]), ← hnumber] at hlt
    refine .inr ⟨hle, ?_, hlt, hahead⟩
    rw [if_neg (Nat.not_lt.mpr hle), hnumber, hahead.rest]

theorem golombCode_eq {bs : BitStream} (h : bs.Full) {kr : ℕ} (hkr : kr ≤ 32) :
    golombCode bs kr = none ∧ golombBits kr bs.rest = none ∨
      ∃ vk code bs' n, golombCode bs kr = some (vk, code, bs') ∧ golombBits kr bs.rest = some (vk, code, bs'.rest) ∧
        vk < bs.remaining ∧ code < (vk + 1) * 2^kr ∧ bs.Ahead n bs' := by
  unfold golombCode golombBits
  obtain ⟨hnone, hnone'⟩ | ⟨vk, bs', hsome, hsome', hvk, hahead⟩ := countUnary_eq h true
  · rw [hnone, hnone']
    exact .inl ⟨rfl, rfl⟩
  · rw [hsome, hsome']
    simp only
    obtain ⟨hfew, hnone⟩ | ⟨hle, htake, hlt, hlow⟩ := takeNumber_eq hahead.full hkr
    · rw [hnone, if_pos hfew]
      exact .inl ⟨rfl, rfl⟩
    · rw [htake, if_neg (Nat.not_lt.mpr hle)]
      have hcode : (bs'.bits kr).1 ||| vk <<< kr = vk * 2^kr + (bs'.bits kr).1 := by
        rw [Nat.or_comm, ← Nat.shiftLeft_add_eq_or_of_lt hlt, Nat.shiftLeft_eq]
      refine .inr ⟨vk, _, _, _, rfl, by rw [hcode], hvk, ?_, hahead.trans hlow⟩
      rw [hcode, Nat.add_mul, Nat.one_mul]
      omega

namespace Rlgr

variable {len : ℕ}

/-- The parameters are within their range. -/
structure Sound (s : Rlgr len) : Prop where
  full : s.bs.Full
  k_eq : s.k = s.kp >>> lsGr
  kp_le : s.kp ≤ kpMax
  kr_eq : s.kr = s.krp >>> lsGr
  krp_le : s.krp ≤ kpMax

theorem shiftRight_le_of_le {kp : ℕ} (h : kp ≤ kpMax) : kp >>> lsGr ≤ kpMax >>> lsGr := by
  rw [Nat.shiftRight_eq_div_pow, Nat.shiftRight_eq_div_pow]
  exact Nat.div_le_div_right h

theorem Sound.kr_le {s : Rlgr len} (h : s.Sound) : s.kr ≤ kpMax >>> lsGr := h.kr_eq ▸ shiftRight_le_of_le h.krp_le

/-- The state of the decoder on a list of bits. -/
def toBits (s : Rlgr len) : BitRlgr len :=
  { bits := s.bs.rest, k := s.k, kp := s.kp, kr := s.kr, krp := s.krp, n := s.n, out := s.out }

theorem emit_toBits (s : Rlgr len) (v : ℤ) : (s.emit v).toBits = s.toBits.emit v := by
  unfold emit BitRlgr.emit
  by_cases h : s.n < len
  · rw [if_pos h, if_pos (show s.toBits.n < len from h)]
    rfl
  · rw [if_neg h, if_neg (show ¬ s.toBits.n < len from h)]

theorem Sound.emit {s : Rlgr len} (h : s.Sound) (v : ℤ) : (s.emit v).Sound := by
  unfold Rlgr.emit
  split_ifs
  · exact ⟨h.full, h.k_eq, h.kp_le, h.kr_eq, h.krp_le⟩
  · exact h

theorem updateKr_sound (vk : ℕ) {kr krp : ℕ} (hkr : kr = krp >>> lsGr) (hkrp : krp ≤ kpMax) :
    (updateKr vk kr krp).1 = (updateKr vk kr krp).2 >>> lsGr ∧ (updateKr vk kr krp).2 ≤ kpMax := by
  unfold updateKr
  split_ifs
  · exact ⟨rfl, (Nat.sub_le ..).trans hkrp⟩
  · exact ⟨rfl, Nat.min_le_right ..⟩
  · exact ⟨hkr, hkrp⟩

theorem runDigit_sound {k kp : ℕ} (hk : k = kp >>> lsGr) (hkp : kp ≤ kpMax) (vk : ℕ) :
    (runDigit^[vk] (0, k, kp)).1 ≤ vk * 1024 ∧
      (runDigit^[vk] (0, k, kp)).2.1 = (runDigit^[vk] (0, k, kp)).2.2 >>> lsGr ∧
      (runDigit^[vk] (0, k, kp)).2.2 ≤ kpMax := by
  induction vk with
  | zero => exact ⟨Nat.zero_le _, hk, hkp⟩
  | succ vk ih =>
    obtain ⟨hrun, hk', hkp'⟩ := ih
    rw [Function.iterate_succ_apply']
    refine ⟨?_, rfl, Nat.min_le_right ..⟩
    have hle : (runDigit^[vk] (0, k, kp)).2.1 ≤ 10 := hk' ▸ shiftRight_le_of_le hkp'
    have hdigit : 1 <<< (runDigit^[vk] (0, k, kp)).2.1 ≤ 1024 := by
      rw [Nat.one_shiftLeft]
      exact Nat.pow_le_pow_right (by decide) hle
    change _ + 1 <<< _ ≤ _
    omega

theorem runLength_toBits {s : Rlgr len} (h : s.Sound) : s.runLength = none ∧ s.toBits.runLength = none ∨
      ∃ s', s.runLength = some s' ∧ s.toBits.runLength = some s'.toBits ∧ s'.Sound := by
  unfold runLength BitRlgr.runLength
  simp only [toBits]
  obtain ⟨hnone, hnone'⟩ | ⟨vk, bs, hsome, hsome', hvk, hcounted⟩ := countUnary_eq h.full false
  · rw [hnone, hnone']
    exact .inl ⟨rfl, rfl⟩
  rw [hsome, hsome']
  have hdigits := runDigit_sound h.k_eq h.kp_le vk
  simp only
  revert hdigits
  generalize runDigit^[vk] (0, s.k, s.kp) = r
  obtain ⟨run, k, kp⟩ := r
  rintro ⟨-, hk, hkp⟩
  simp only at hk hkp ⊢
  have hk10 : k ≤ 10 := hk ▸ shiftRight_le_of_le hkp
  obtain ⟨hfew, hnone⟩ | ⟨hle, htake, -, hrun⟩ := takeNumber_eq hcounted.full (show k ≤ 32 by omega)
  · rw [hnone, if_pos hfew]
    exact .inl ⟨rfl, rfl⟩
  rw [htake, if_neg (Nat.not_lt.mpr hle)]
  generalize bs.bits k = taken at hrun ⊢
  obtain ⟨rest, bs1⟩ := taken
  simp only at hrun ⊢
  have hlen := bs1.length_rest
  have hbit := hrun.full.topBit
  have hsign := hrun.full.shift (n := 1) (by decide)
  have hdrop := hsign.rest
  cases hbits : bs1.rest with
  | nil =>
    rw [hbits] at hlen
    rw [if_pos (by rw [← hlen]; exact Nat.zero_lt_one)]
    exact .inl ⟨rfl, rfl⟩
  | cons sign bits =>
    rw [hbits] at hlen hbit hdrop
    rw [if_neg (by rw [← hlen, List.length_cons]; omega), hbit, List.getD_cons_zero]
    rw [List.drop_one, List.tail_cons] at hdrop
    simp only
    rw [← hdrop]
    have hkr10 : s.kr ≤ 10 := h.kr_le
    obtain ⟨hnone, hnone'⟩ | ⟨vk2, code, bs2, n, hsome, hsome', -, -, hcode⟩ :=
      golombCode_eq hsign.full (show s.kr ≤ 32 by omega)
    · rw [hnone, hnone']
      exact .inl ⟨rfl, rfl⟩
    rw [hsome, hsome']
    obtain ⟨hkr, hkrp⟩ := updateKr_sound vk2 h.kr_eq h.krp_le
    refine .inr ⟨_, rfl, ?_, Sound.emit ⟨hcode.full, rfl, (Nat.sub_le ..).trans hkp, hkr, hkrp⟩ _⟩
    change some (BitRlgr.emit _ _) = some (toBits _)
    rw [emit_toBits]
    rfl

theorem golombRice_toBits {s : Rlgr len} (h : s.Sound) : s.golombRice .rlgr1 = none ∧ s.toBits.golombRice = none ∨
      ∃ s', s.golombRice .rlgr1 = some s' ∧ s.toBits.golombRice = some s'.toBits ∧ s'.Sound := by
  unfold golombRice BitRlgr.golombRice
  simp only [toBits]
  have hkr10 : s.kr ≤ 10 := h.kr_le
  obtain ⟨hnone, hnone'⟩ | ⟨vk, code, bs, n, hsome, hsome', -, -, hcode⟩ :=
    golombCode_eq h.full (show s.kr ≤ 32 by omega)
  · rw [hnone, hnone']
    exact .inl ⟨rfl, rfl⟩
  rw [hsome, hsome']
  simp only [emit1]
  obtain ⟨hkr, hkrp⟩ := updateKr_sound vk h.kr_eq h.krp_le
  have hkp : (if code = 0 then min (s.kp + uqGr) kpMax else s.kp - dqGr) ≤ kpMax := by
    split_ifs
    · exact Nat.min_le_right ..
    · exact (Nat.sub_le ..).trans h.kp_le
  refine .inr ⟨_, rfl, ?_, Sound.emit ⟨hcode.full, rfl, hkp, hkr, hkrp⟩ _⟩
  change some (BitRlgr.emit _ _) = some (toBits _)
  rw [emit_toBits]
  rfl

theorem step_toBits {s : Rlgr len} (h : s.Sound) : s.step .rlgr1 = none ∧ s.toBits.step = none ∨
      ∃ s', s.step .rlgr1 = some s' ∧ s.toBits.step = some s'.toBits ∧ s'.Sound := by
  unfold step BitRlgr.step
  by_cases hk : s.k ≠ 0
  · rw [if_pos hk, if_pos (show s.toBits.k ≠ 0 from hk)]
    exact runLength_toBits h
  · rw [if_neg hk, if_neg (show ¬ s.toBits.k ≠ 0 from hk)]
    exact golombRice_toBits h

theorem loop_toBits {s : Rlgr len} (h : s.Sound) {turns : ℕ} (hturns : s.bs.remaining ≤ turns) :
    (loop .rlgr1 s).toBits = BitRlgr.loop turns s.toBits := by
  induction turns generalizing s with
  | zero => rw [loop, if_neg (by omega), BitRlgr.loop]
  | succ turns ih =>
    have hbits : 0 < s.bs.remaining ↔ s.toBits.bits ≠ [] := by
      rw [← s.bs.length_rest, List.length_pos_iff]
      exact Iff.rfl
    rw [loop, BitRlgr.loop]
    by_cases hgo : 0 < s.bs.remaining ∧ s.n < len
    · rw [if_pos hgo, if_pos ⟨hbits.mp hgo.1, hgo.2⟩]
      obtain ⟨hnone, hnone'⟩ | ⟨s', hsome, hsome', hsound⟩ := step_toBits h
      · rw [hnone']
        split
        · rfl
        next s'' hs'' => rw [hnone] at hs''; cases hs''
      · have hless := step_remaining hsome
        rw [hsome']
        split
        next hnone => rw [hsome] at hnone; cases hnone
        next s'' hs'' =>
          rw [hsome, Option.some.injEq] at hs''
          rw [← hs'']
          exact ih hsound (by omega)
    · rw [if_neg hgo, if_neg fun hgo' => hgo ⟨hbits.mpr hgo'.1, hgo'.2⟩]

/-- The state before the first turn. -/
def start (data : List UInt8) (out : Vector Int16 len) : Rlgr len :=
  { bs := .new data, k := 1, kp := 1 <<< lsGr, kr := 1, krp := 1 <<< lsGr, n := 0, out := fill out 0 }

theorem start_sound (data : List UInt8) (out : Vector Int16 len) : (start data out).Sound := by
  have hshift : 1 = (1 <<< lsGr) >>> lsGr := by decide
  have hle : 1 <<< lsGr ≤ kpMax := by decide
  exact ⟨(BitStream.new_full data).1, hshift, hle, hshift, hle⟩

end Rlgr

theorem rlgrDecode_start {len : ℕ} (data : List UInt8) (out : Vector Int16 len) :
    rlgrDecode .rlgr1 data out = (Rlgr.loop .rlgr1 (Rlgr.start data out)).out := rfl

theorem rlgrDecode_eq_bits {len : ℕ} (data : List UInt8) (out : Vector Int16 len) :
    rlgrDecode .rlgr1 data out = rlgrDecodeBits len (bytesBits data) := by
  obtain ⟨-, hrest⟩ := BitStream.new_full data
  have hturns : (Rlgr.start data out).bs.remaining ≤ (bytesBits data).length := by
    rw [← hrest, BitStream.length_rest]
    exact Nat.le_refl _
  have hrun := Rlgr.loop_toBits (Rlgr.start_sound data out) hturns
  have hzero : fill out 0 = Vector.replicate len (0 : Int16) := by
    ext i hi
    simp [fill]
  rw [rlgrDecode_start, rlgrDecodeBits, ← hzero]
  have hout := congrArg BitRlgr.out hrun
  rw [show (Rlgr.start data out).toBits = _ from congrArg (fun bits => BitRlgr.mk bits _ _ _ _ _ _) hrest] at hout
  exact hout

end Rdpio.Graphics
